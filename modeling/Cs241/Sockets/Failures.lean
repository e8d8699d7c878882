import Cs241.Sockets.Transfers

/-!
# Errors that stay

The six loops test `errno` only for an interruption. While bytes are left, a call that fails in
another way is made again, so that an error that stays keeps the loop from ending. It returns -1
only where that is the number of bytes asked for.
-/
namespace Cs241.Sockets

open Foundation

/-- What the calls answer: successes and interruptions, in order, and then an error of another kind
each time. -/
structure Script where
  answers : List (Option ℕ)
  errno : ℕ
  errno_ne : errno ≠ eintr

namespace Script

def call (_ _ : ℕ) (script : Script) : Answer × Script :=
  match script.answers with
  | [] => (.failed script.errno, script)
  | none :: answers => (.failed eintr, { script with answers := answers })
  | some n :: answers => (.passed n, { script with answers := answers })

/-- The number of bytes that are transferred. -/
def total (script : Script) : ℕ := (script.answers.map fun answer => answer.getD 0).sum

/-- The first call that is not interrupted passes no byte. -/
def ZeroFirst (script : Script) : Prop :=
  (script.answers.dropWhile fun answer => answer = none).head? = some (some 0)

instance : DecidablePred ZeroFirst := fun _ => inferInstanceAs (Decidable (_ = _))

end Script

/-- A request that an error keeps from being fulfilled. -/
structure Fault where
  count : ℕ
  count_pos : 0 < count
  count_lt : count < 2 ^ 64
  script : Script
  total_lt : script.total < count

inductive Routine
  | chatReadAllFromSocket
  | chatWriteAllToSocket
  | clientReadAllFromSocket
  | clientWriteAllToSocket
  | serverReadFromFile
  | serverWriteToFile
deriving DecidableEq

/-- The functions that return `count` in the end. -/
def Routine.Writes (f : Routine) : Prop :=
  f = .chatWriteAllToSocket ∨ f = .clientWriteAllToSocket ∨ f = .serverWriteToFile

def Routine.run (fuel : ℕ) (stale : Stale) (count : ℕ) (script : Script) :
    Routine → Option (ℤ × Script)
  | .chatReadAllFromSocket => Chat.readAllFromSocket Script.call fuel stale count script
  | .chatWriteAllToSocket => Chat.writeAllToSocket Script.call fuel stale count script
  | .clientReadAllFromSocket => Client.readAllFromSocket Script.call fuel stale count script
  | .clientWriteAllToSocket => Client.writeAllToSocket Script.call fuel stale count script
  | .serverReadFromFile => Server.readFromFile Script.call fuel stale count script
  | .serverWriteToFile => Server.writeToFile Script.call fuel stale count script

/-- The function terminates and returns -1. -/
def Routine.Fails (f : Routine) (stale : Stale) (fault : Fault) : Prop :=
  ∃ fuel script, f.run fuel stale fault.count fault.script = some (-1, script)

section Loop

variable {δ : Type*} {result : ℤ → ℤ} {call : ℕ → ℕ → δ → Answer × δ} {t t' : Transfer δ}
  {r : ℤ × δ} {script : Script} {stale : Stale} {fuel count : ℕ}

theorem transferRound_eq_exit (h : transferRound result call t = .exit r) :
    r.1 = 0 ∨ r.1 = result t.bytesDone := by
  unfold transferRound at h
  split_ifs at h
  · unfold Transfer.answered at h
    split at h
    · exact .inl (Round.exit.inj h ▸ rfl)
    · simp at h
    · simp at h
  · exact .inr (Round.exit.inj h ▸ rfl)

theorem transferRound_bytesDone (h : transferRound result call t = .next t') :
    t.bytesDone ≤ t'.bytesDone := by
  unfold transferRound at h
  split_ifs at h
  unfold Transfer.answered at h
  split at h
  · simp at h
  · obtain rfl := Round.next.inj h
    dsimp only
    omega
  · obtain rfl := Round.next.inj h
    exact le_rfl

/-- A loop that returns has returned zero, or what it returns for a number of bytes. -/
theorem transfer_fst {device : δ} (h : transfer result call fuel stale count device = some r) :
    r.1 = 0 ∨ ∃ bytesDone, 0 ≤ bytesDone ∧ r.1 = result bytesDone := by
  have hends : Ends (transferRound result call) _ r := ⟨fuel, h⟩
  obtain ⟨t, ht, hexit⟩ := hends.invariant (I := fun t => 0 ≤ t.bytesDone) le_rfl
    fun _ _ hle hnext => hle.trans (transferRound_bytesDone hnext)
  exact (transferRound_eq_exit hexit).imp_right fun heq => ⟨_, ht, heq⟩

/-- The answers of a script that transfers less than what is left, with no zero among them, never
end the loop. -/
theorem transfer_script_ne_some (hcount : count < 2 ^ 63) (htotal : script.total < count)
    (hzero : some 0 ∉ script.answers) {r : ℤ × Script} :
    transfer result Script.call fuel stale count script ≠ some r := by
  intro h
  rw [transfer, toSsize_natCast hcount] at h
  refine Ends.not_of_invariant
    (I := fun t : Transfer Script =>
      some 0 ∉ t.device.answers ∧ (t.device.total : ℤ) < t.bytesLeft) ?_ ?_ ⟨fuel, h⟩
  · rintro ⟨stale, bytesDone, bytesLeft, ⟨answers, errno, herrno⟩⟩ ⟨hzero, hleft⟩
    dsimp only [Script.total] at hzero hleft
    have hpos : 0 < bytesLeft := by omega
    refine .inr ?_
    rw [transferRound, if_pos (.inl hpos)]
    cases answers with
    | nil => exact ⟨_, rfl, hzero, hleft⟩
    | cons answer answers =>
      have hzero' : some 0 ∉ answers := fun hmem => hzero (List.mem_cons_of_mem _ hmem)
      cases answer with
      | none => exact ⟨_, rfl, hzero', by simpa [Script.total] using hleft⟩
      | some n =>
        obtain ⟨n, rfl⟩ : ∃ k, n = k + 1 :=
          Nat.exists_eq_succ_of_ne_zero fun h => hzero (h ▸ List.mem_cons_self)
        refine ⟨_, rfl, hzero', ?_⟩
        simp only [List.map_cons, Option.getD_some, List.sum_cons] at hleft
        dsimp only [Script.total]
        omega
  · have hleft : (script.total : ℤ) < count := by exact_mod_cast htotal
    exact ⟨hzero, hleft⟩

end Loop

/-! ## The largest count -/

section Largest

variable (result : ℤ → ℤ) (script : Script) (stale : Stale) (bytesDone : ℤ) {bytesLeft : ℤ}

theorem ends_of_not_interrupted (hleft : bytesLeft ≤ 0)
    (hstale : ¬ (stale.retval = -1 ∧ stale.errno = eintr)) :
    Ends (transferRound result Script.call)
      { stale with bytesDone := bytesDone, bytesLeft := bytesLeft, device := script }
      (result bytesDone, script) :=
  .exit (if_neg (by simpa [Int.not_lt.mpr hleft] using hstale))

/-- After an interruption with no bytes left, the loop is left at the next other answer. -/
theorem ends_of_interrupted (h : bytesLeft < 0) (c : ℤ) (hretval : stale.retval = -1)
    (herrno : stale.errno = eintr) : ∃ script', Ends (transferRound (fun _ => c) Script.call)
      { stale with bytesDone := bytesDone, bytesLeft := bytesLeft, device := script }
      (if script.ZeroFirst then 0 else c, script') := by
  obtain ⟨answers, errno, hne⟩ := script
  have hround : ∀ {t : Transfer Script}, t.retval = -1 → t.errno = eintr →
      transferRound (fun _ => c) Script.call t =
        t.answered (t.device.call t.bytesDone.toNat (toSize t.bytesLeft)) :=
    fun hretval herrno => if_pos (.inr ⟨hretval, herrno⟩)
  induction answers generalizing stale with
  | nil =>
    refine ⟨⟨[], errno, hne⟩, .next (hround hretval herrno) ?_⟩
    exact ends_of_not_interrupted _ _ ⟨-1, errno⟩ _ h.le fun h => hne h.2
  | cons answer answers ih =>
    match answer with
    | none =>
      obtain ⟨script', hends⟩ := ih ⟨-1, eintr⟩ rfl rfl
      exact ⟨script', .next (hround hretval herrno) hends⟩
    | some 0 => exact ⟨⟨answers, errno, hne⟩, .exit (hround hretval herrno)⟩
    | some (n + 1) =>
      refine ⟨⟨answers, errno, hne⟩, .next (hround hretval herrno) ?_⟩
      exact ends_of_not_interrupted _ _ ⟨n + 1, stale.errno⟩ _
        (show bytesLeft - (n + 1) ≤ 0 by omega)
        fun h => absurd h.1 (show (n : ℤ) + 1 ≠ -1 by omega)

end Largest

/-! ## The functions -/

section Functions

variable {stale : Stale} {fault : Fault}

/-- Reading returns a number of bytes. -/
theorem read_ne (fuel : ℕ) (script : Script) :
    transfer (fun bytesRead => bytesRead) Script.call fuel stale fault.count fault.script ≠
      some (-1, script) := by
  intro h
  rcases transfer_fst h with hzero | ⟨bytesDone, hle, heq⟩
  · simp at hzero
  · dsimp only at heq
    omega

theorem write_fails_iff : (∃ fuel script,
    transfer (fun _ => toSsize fault.count) Script.call fuel stale fault.count fault.script =
      some (-1, script)) ↔
    fault.count = 2 ^ 64 - 1 ∧
      ¬ (stale.retval = -1 ∧ stale.errno = eintr ∧ fault.script.ZeroFirst) := by
  have hneg := toSsize_eq_neg_one_iff fault.count_lt
  constructor
  · rintro ⟨fuel, script, h⟩
    have hcount : toSsize fault.count = -1 := by
      rcases transfer_fst h with hzero | ⟨-, -, heq⟩
      · simp at hzero
      · exact heq.symm
    refine ⟨hneg.mp hcount, fun ⟨hretval, herrno, hzero⟩ => ?_⟩
    obtain ⟨script', hends⟩ := ends_of_interrupted fault.script stale 0
      (show toSsize fault.count < 0 by omega) (toSsize fault.count) hretval herrno
    rw [if_pos hzero] at hends
    have hsame := congrArg Prod.fst (hends.unique ⟨fuel, h⟩)
    simp at hsame
  · rintro ⟨hcount, hstale⟩
    have hcount := hneg.mpr hcount
    by_cases hinterrupted : stale.retval = -1 ∧ stale.errno = eintr
    · obtain ⟨script', fuel, hfuel⟩ := ends_of_interrupted fault.script stale 0
        (show toSsize fault.count < 0 by omega) (toSsize fault.count) hinterrupted.1 hinterrupted.2
      rw [if_neg fun hzero => hstale ⟨hinterrupted.1, hinterrupted.2, hzero⟩] at hfuel
      exact ⟨fuel, script', by rw [transfer, hfuel, hcount]⟩
    · obtain ⟨fuel, hfuel⟩ := ends_of_not_interrupted (fun _ => toSsize fault.count) fault.script
        stale 0 (show toSsize fault.count ≤ 0 by omega) hinterrupted
      exact ⟨fuel, fault.script, by rw [transfer, hfuel, hcount]⟩

end Functions

/-- An error that stays makes none of the functions return -1, except one that writes and is asked
to write `2 ^ 64 - 1` bytes, which it returns as a `ssize_t`. -/
theorem fails_iff (f : Routine) (stale : Stale) (fault : Fault) : f.Fails stale fault ↔
    f.Writes ∧ fault.count = 2 ^ 64 - 1 ∧
      ¬ (stale.retval = -1 ∧ stale.errno = eintr ∧ fault.script.ZeroFirst) := by
  cases f with
  | chatReadAllFromSocket | clientReadAllFromSocket | serverReadFromFile =>
    refine iff_of_false ?_ (by simp [Routine.Writes])
    rintro ⟨fuel, script, h⟩
    exact read_ne fuel script h
  | chatWriteAllToSocket | clientWriteAllToSocket | serverWriteToFile =>
    exact write_fails_iff.trans (by simp [Routine.Writes])

/-- One byte is asked for, and the other side is gone. -/
def gone : Fault where
  count := 1
  count_pos := Nat.one_pos
  count_lt := by norm_num
  script := { answers := [none], errno := 104, errno_ne := by decide }
  total_lt := Nat.one_pos

/-- The loop does not even end. -/
theorem not_chat_read_gone :
    ¬ Routine.chatReadAllFromSocket.Fails ⟨0, 0⟩ gone ∧
      ∀ fuel, Routine.chatReadAllFromSocket.run fuel ⟨0, 0⟩ gone.count gone.script = none := by
  have hnone : ∀ fuel,
      Routine.chatReadAllFromSocket.run fuel ⟨0, 0⟩ gone.count gone.script = none :=
    fun fuel => Option.eq_none_iff_forall_ne_some.mpr fun r =>
      transfer_script_ne_some (by norm_num [gone]) gone.total_lt (by decide)
  refine ⟨?_, hnone⟩
  rintro ⟨fuel, script, h⟩
  exact absurd ((hnone fuel).symm.trans h) (by simp)

end Cs241.Sockets
