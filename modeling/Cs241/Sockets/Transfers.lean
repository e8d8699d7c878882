import Cs241.Foundation.Integers
import Cs241.Foundation.Loops
import Cs241.Foundation.Streams

/-!
# The loops around `read` and `write`

The chat, the file server and its client copy one loop for reading and one for writing. It goes on
while bytes are left or the last call was interrupted, and it is left inside for a call that passes
no byte. The variable for the answer of the last call has no value before the first round, and the
source tests it when `bytes_left` is not positive.
-/
namespace Cs241.Sockets

open Foundation

/-- `EINTR` -/
abbrev eintr : ℕ := 4

/-- The answer of a call: a number of bytes, or -1 and `errno`. -/
inductive Answer
  | passed (n : ℕ)
  | failed (errno : ℕ)

/-- What is found before the first call: the value in `read_retval` or `write_retval`, and
`errno`. -/
structure Stale where
  retval : ℤ
  errno : ℕ

/-- The variables of the loop, and the device with what the calls have done to it. -/
structure Transfer (δ : Type*) extends Stale where
  bytesDone : ℤ
  bytesLeft : ℤ
  device : δ

variable {δ : Type*}

/-- What the loop does with the answer of a call. -/
def Transfer.answered (t : Transfer δ) : Answer × δ → Round (Transfer δ) (ℤ × δ)
  | (.passed 0, device) => .exit (0, device)
  | (.passed (n + 1), device) =>
    .next { t with
      retval := n + 1, bytesDone := t.bytesDone + (n + 1), bytesLeft := t.bytesLeft - (n + 1)
      device := device }
  | (.failed errno, device) => .next { t with retval := -1, errno := errno, device := device }

/-- One round, where `call` gets the place in the buffer and the number of bytes, and `result` is
what is returned behind the loop. -/
def transferRound (result : ℤ → ℤ) (call : ℕ → ℕ → δ → Answer × δ) (t : Transfer δ) :
    Round (Transfer δ) (ℤ × δ) :=
  if 0 < t.bytesLeft ∨ t.retval = -1 ∧ t.errno = eintr then
    t.answered (call t.bytesDone.toNat (toSize t.bytesLeft) t.device)
  else .exit (result t.bytesDone, t.device)

/-- The loop for `count` bytes, for at most `fuel` rounds. -/
def transfer (result : ℤ → ℤ) (call : ℕ → ℕ → δ → Answer × δ) (fuel : ℕ) (stale : Stale)
    (count : ℕ) (device : δ) : Option (ℤ × δ) :=
  iterate (transferRound result call) fuel
    { stale with bytesDone := 0, bytesLeft := toSsize count, device := device }

section Functions

variable (call : ℕ → ℕ → δ → Answer × δ) (fuel : ℕ) (stale : Stale) (count : ℕ) (device : δ)

def Chat.readAllFromSocket : Option (ℤ × δ) :=
  transfer (fun bytesRead => bytesRead) call fuel stale count device

def Chat.writeAllToSocket : Option (ℤ × δ) :=
  transfer (fun _ => toSsize count) call fuel stale count device

def Client.readAllFromSocket : Option (ℤ × δ) :=
  transfer (fun bytesRead => bytesRead) call fuel stale count device

def Client.writeAllToSocket : Option (ℤ × δ) :=
  transfer (fun _ => toSsize count) call fuel stale count device

def Server.readFromFile : Option (ℤ × δ) :=
  transfer (fun bytesRead => bytesRead) call fuel stale count device

def Server.writeToFile : Option (ℤ × δ) :=
  transfer (fun _ => toSsize count) call fuel stale count device

end Functions

/-! ## Calls that do not fail -/

/-- A buffer that is filled from a stream. -/
structure Reading where
  source : Source UInt8
  buffer : List UInt8

def Reading.read (start count : ℕ) (r : Reading) : Answer × Reading :=
  match r.source.read count with
  | (none, source) => (.failed eintr, { r with source := source })
  | (some bytes, source) => (.passed bytes.length, ⟨source, r.buffer.take start ++ bytes⟩)

/-- What the loop over a stream leaves, with its return value as a `ssize_t`. -/
def Reading.ofLoop : ℕ × List UInt8 × Source UInt8 → ℤ × Reading
  | (retval, buffer, source) => (retval, ⟨source, buffer⟩)

def write (buffer : List UInt8) (start count : ℕ) (sink : Sink UInt8) : Answer × Sink UInt8 :=
  match sink.write ((buffer.drop start).take count) with
  | (none, sink) => (.failed eintr, sink)
  | (some n, sink) => (.passed n, sink)

section Round

variable {result : ℤ → ℤ} {call : ℕ → ℕ → δ → Answer × δ} {t : Transfer δ} {device : δ}

theorem transferRound_exit (h : t.bytesLeft ≤ 0) (hretval : t.retval ≠ -1) :
    transferRound result call t = .exit (result t.bytesDone, t.device) :=
  if_neg (by simp [hretval, Int.not_lt.mpr h])

variable {start left : ℕ} (hstart : t.bytesDone = start) (hleft : t.bytesLeft = left)
  (hpos : 0 < left) (hlt : left < 2 ^ 63)
include hstart hleft hpos hlt

/-- While bytes are left, the answer of the call decides. -/
theorem transferRound_call :
    transferRound result call t = t.answered (call start left t.device) := by
  rw [transferRound, if_pos (.inl (by omega)), hstart, Int.toNat_natCast, hleft,
    toSize_of_lt (by omega)]

theorem transferRound_zero (h : call start left t.device = (.passed 0, device)) :
    transferRound result call t = .exit (0, device) := by
  rw [transferRound_call hstart hleft hpos hlt, h]
  rfl

theorem transferRound_passed {n : ℕ} (hn : 0 < n) (hle : n ≤ left)
    (h : call start left t.device = (.passed n, device)) :
    transferRound result call t = .next { t with
      retval := n, bytesDone := (start + n : ℕ), bytesLeft := (left - n : ℕ)
      device := device } := by
  obtain ⟨n, rfl⟩ := Nat.exists_eq_succ_of_ne_zero hn.ne'
  rw [transferRound_call hstart hleft hpos hlt, h, Transfer.answered, hstart, hleft,
    Nat.cast_sub hle]
  rfl

theorem transferRound_failed {errno : ℕ}
    (h : call start left t.device = (.failed errno, device)) :
    transferRound result call t =
      .next { t with retval := -1, errno := errno, device := device } := by
  rw [transferRound_call hstart hleft hpos hlt, h]
  rfl

end Round

/-- Without errors the loop does what `Source.readLoop` does. -/
theorem iterate_read {count : ℕ} {placed : List UInt8} {source : Source UInt8} {stale : Stale}
    {fuel : ℕ} (hle : placed.length ≤ count) (hlt : count < 2 ^ 63)
    (hretval : placed.length = count → stale.retval ≠ -1)
    (hfuel : count - placed.length + source.plan.length < fuel) :
    iterate (transferRound (fun bytesRead => bytesRead) Reading.read) fuel
      { stale with
        bytesDone := placed.length, bytesLeft := (count - placed.length : ℕ)
        device := ⟨source, placed⟩ } =
      some (Reading.ofLoop (source.readLoop count placed)) := by
  obtain ⟨fuel, rfl⟩ := Nat.exists_eq_succ_of_ne_zero (n := fuel) (by omega)
  fun_induction Source.readLoop count placed source generalizing stale fuel with
  | case1 placed source hmore source' h ih =>
    have hplan := (Source.read_interrupted h).2
    have hcall : Reading.read placed.length (count - placed.length) ⟨source, placed⟩ =
        (.failed eintr, ⟨source', placed⟩) := by rw [Reading.read, h]
    rw [iterate_next (transferRound_failed rfl rfl (by omega) (by omega) hcall)]
    obtain ⟨fuel, rfl⟩ := Nat.exists_eq_succ_of_ne_zero (n := fuel) (by omega)
    exact @ih ⟨-1, eintr⟩ hle (fun hend => by omega) fuel (by omega)
  | case2 placed source hmore source' h =>
    have hcall : Reading.read placed.length (count - placed.length) ⟨source, placed⟩ =
        (.passed 0, ⟨source', placed⟩) := by simp [Reading.read, h]
    rw [iterate_exit (transferRound_zero rfl rfl (by omega) (by omega) hcall)]
    rfl
  | case3 placed source hmore x xs source' h ih =>
    obtain ⟨-, hlen, -, hplan⟩ := Source.read_some (by omega) h
    have hcall : Reading.read placed.length (count - placed.length) ⟨source, placed⟩ =
        (.passed (x :: xs).length, ⟨source', placed ++ x :: xs⟩) := by
      rw [Reading.read, h, List.take_length]
    have hnonempty : 0 < (x :: xs).length := Nat.succ_pos _
    rw [iterate_next (transferRound_passed rfl rfl (by omega) (by omega) hnonempty hlen hcall),
      Nat.sub_sub, ← List.length_append]
    have hlength : (placed ++ x :: xs).length = placed.length + (x :: xs).length :=
      List.length_append
    obtain ⟨fuel, rfl⟩ := Nat.exists_eq_succ_of_ne_zero (n := fuel) (by omega)
    exact @ih ⟨(x :: xs).length, stale.errno⟩ (by omega) (fun _ => by simp; omega) fuel (by omega)
  | case4 placed source hmore =>
    rw [iterate_exit (transferRound_exit (by simp; omega) (hretval (by omega)))]
    rfl

/-- Without errors the loop does what `Sink.writeLoop` does. -/
theorem iterate_write {buffer : List UInt8} {written : ℕ} {sink : Sink UInt8} {stale : Stale}
    {fuel : ℕ} (hle : written ≤ buffer.length) (hlt : buffer.length < 2 ^ 63)
    (hretval : written = buffer.length → stale.retval ≠ -1)
    (hfuel : buffer.length - written + sink.plan.length < fuel) :
    iterate (transferRound (fun _ => toSsize buffer.length) (write buffer)) fuel
      { stale with
        bytesDone := written, bytesLeft := (buffer.length - written : ℕ), device := sink } =
      some ((buffer.length : ℤ), (sink.writeLoop buffer written).2) := by
  obtain ⟨fuel, rfl⟩ := Nat.exists_eq_succ_of_ne_zero (n := fuel) (by omega)
  have hdrop : ∀ k, (buffer.drop k).take (buffer.length - k) = buffer.drop k := fun k =>
    List.take_of_length_le (List.length_drop.le)
  fun_induction Sink.writeLoop buffer written sink generalizing stale fuel with
  | case1 written sink hmore sink' h ih =>
    have hplan := (Sink.write_interrupted h).2
    have hcall : write buffer written (buffer.length - written) sink = (.failed eintr, sink') := by
      rw [write, hdrop, h]
    rw [iterate_next (transferRound_failed rfl rfl (by omega) (by omega) hcall)]
    obtain ⟨fuel, rfl⟩ := Nat.exists_eq_succ_of_ne_zero (n := fuel) (by omega)
    exact @ih ⟨-1, eintr⟩ hle (fun hend => by omega) fuel (by omega)
  | case2 written sink hmore sink' h =>
    -- a call that writes nothing is asked for nothing
    have hnil := (Sink.write_some h).2.2.1 rfl
    simp at hnil
    omega
  | case3 written sink hmore n sink' h ih =>
    obtain ⟨-, hn, -, hplan⟩ := Sink.write_some h
    rw [List.length_drop] at hn
    have hcall : write buffer written (buffer.length - written) sink = (.passed (n + 1), sink') := by
      rw [write, hdrop, h]
    rw [iterate_next (transferRound_passed rfl rfl (by omega) (by omega) (Nat.succ_pos n) hn hcall),
      Nat.sub_sub]
    obtain ⟨fuel, rfl⟩ := Nat.exists_eq_succ_of_ne_zero (n := fuel) (by omega)
    exact @ih ⟨(n + 1 : ℕ), stale.errno⟩ (by omega) (fun _ => by simp; omega) fuel (by omega)
  | case4 written sink hmore =>
    rw [iterate_exit (transferRound_exit (by simp; omega) (hretval (by omega))),
      toSsize_natCast hlt]

section Faultless

variable {fuel : ℕ} (stale : Stale)

/-- Reading, however the stream comes: the whole count, or zero at the end of the stream. -/
theorem transfer_read {count : ℕ} {source : Source UInt8} (hpos : 0 < count) (hlt : count < 2 ^ 63)
    (hfuel : count + source.plan.length < fuel) :
    transfer (fun bytesRead => bytesRead) Reading.read fuel stale count ⟨source, []⟩ =
      some (Reading.ofLoop (source.readAll count)) := by
  rw [transfer, toSsize_natCast hlt]
  exact @iterate_read count [] source stale fuel (Nat.zero_le _) hlt (fun h => by simp at h; omega)
    hfuel

/-- Writing, however the bytes are taken. -/
theorem transfer_write (buffer : List UInt8) {sink : Sink UInt8} (hpos : 0 < buffer.length)
    (hlt : buffer.length < 2 ^ 63) (hfuel : buffer.length + sink.plan.length < fuel) :
    transfer (fun _ => toSsize buffer.length) (write buffer) fuel stale buffer.length sink =
      some ((buffer.length : ℤ), (sink.writeAll buffer).2) := by
  rw [transfer, toSsize_natCast hlt]
  have h := @iterate_write buffer 0 sink stale fuel (Nat.zero_le _) hlt (fun h => by omega) hfuel
  rwa [toSsize_natCast hlt] at h

end Faultless

end Cs241.Sockets
