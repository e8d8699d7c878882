import Cs241.Net.Requests

/-!
# One answer to a request

A request that is performed is answered with `ok` and its data, one that is
refused with `error` and a message, and the client tells the two apart. This is
so for the requests that are `Answerable`, and for no others.
-/
namespace Cs241.Net

open Foundation

variable {env : Env} {s s' : Server} {r : Request} {input : Source UInt8} {output : Sink UInt8}
  {answer : List UInt8}

/-- The change from `s` to `s'` is what the request asks for. -/
def Performed (env : Env) (s : Server) (r : Request) (s' : Server) : Prop :=
  match r.cmd with
  | .list => s' = s
  | .get => r.fileName ∈ s.files ∧ (s.disk.contents env r.fileName).isSome ∧ s' = s
  | .delete => r.fileName ∈ s.files ∧
      s' = ⟨s.files.erase r.fileName, s.disk.remove env r.fileName⟩
  | .put => r.body.length = r.fileSize ∧ ∃ node disk,
      s.disk.create env r.fileName = some (node, disk) ∧
        s' = ⟨s.files ++ [r.fileName], { disk with files := disk.files.insert node r.body }⟩

/-- The length and the data that follow `ok`. -/
def payload (env : Env) (s : Server) (r : Request) : List UInt8 :=
  match r.cmd with
  | .list => wordBytes (listing s).length ++ listing s
  | .get =>
    let bytes := (s.disk.contents env r.fileName).getD []
    wordBytes bytes.length ++ bytes
  | .delete | .put => []

def Refusal (answer : List UInt8) : Prop := ∃ text, answer = error ++ text

/-- One response, from which `delete` and `put` of the client see what was done. -/
structure Answered (env : Env) (s : Server) (r : Request) (s' : Server) (answer : List UInt8) :
    Prop where
  performed : Performed env s r s' → answer = ok ++ payload env s r
  refused : ¬ Performed env s r s' → Refusal answer
  reported : r.cmd = .delete ∨ r.cmd = .put → ∀ plan,
    (report ⟨answer, plan⟩ = .success ↔ Performed env s r s')

/-- The server answers a connection with one response to its request. -/
def AnswersOnce (env : Env) (s : Server) (input : Source UInt8) (output : Sink UInt8) : Prop :=
  ∃ s' output' answer, serve env s input output = some (s', output') ∧
    output'.sent = output.sent ++ answer ∧
    match Request.parse env input.rest with
    | none => Refusal answer
    | some r => Answered env s r s' answer

/-- A listing, a deletion, a GET of a stored file, or a PUT of a body without the announced
length; the server must not have started to write to a file that could not be opened. -/
def Answerable (env : Env) (s : Server) : Option Request → Prop
  | none => False
  | some r =>
    match r.cmd with
    | .list | .delete => True
    | .get => r.fileName ∈ s.files ∧ (s.disk.contents env r.fileName).isSome
    | .put => r.body.length ≠ r.fileSize ∧ ((s.disk.create env r.fileName).isSome ∨
        r.fileSize = 0 ∨ r.body.length < min 1024 r.fileSize)

theorem report_success_iff : report input = .success ↔ ok <+: input.rest := by
  have hplaced : (readAllFromSocket input 3).2.1 = input.rest.take 3 := Source.readAll_placed ..
  have hok : ok <+: input.rest ↔ input.rest.take 3 = ok := by
    rw [List.prefix_iff_eq_take, eq_comm]
    rfl
  unfold report
  dsimp only
  rw [hplaced, hok]
  split_ifs with h
  · simp [h]
  · simp only [h, iff_false]
    unfold checkError
    dsimp only
    split_ifs <;> simp

theorem Refusal.not_ok (h : Refusal answer) : ¬ ok <+: answer := by
  obtain ⟨text, rfl⟩ := h
  simp [ok, error]

theorem not_refusal_nil : ¬ Refusal [] := by
  rintro ⟨text, h⟩
  simp [error] at h

/-- A response that fits is enough for the client, too. -/
theorem Answered.of_reply (hp : Performed env s r s' → answer = ok ++ payload env s r)
    (hr : ¬ Performed env s r s' → Refusal answer) : Answered env s r s' answer := by
  refine ⟨hp, hr, fun _ plan => ?_⟩
  rw [report_success_iff]
  constructor
  · intro h
    by_contra hnot
    exact (hr hnot).not_ok h
  · intro h
    rw [hp h]
    exact List.prefix_append ..

/-- The property, without streams. -/
theorem answersOnce_iff : AnswersOnce env s input output ↔ ∃ s' answer,
    respond env s (Request.parse env input.rest) = some (s', answer) ∧
      match Request.parse env input.rest with
      | none => Refusal answer
      | some r => Answered env s r s' answer := by
  constructor
  · rintro ⟨s', output', answer, hserve, hsent, h⟩
    obtain ⟨reply, hrespond, hsent'⟩ := respond_of_serve hserve
    obtain rfl : reply = answer := List.append_cancel_left (hsent'.symm.trans hsent)
    exact ⟨s', reply, hrespond, h⟩
  · rintro ⟨s', answer, hrespond, h⟩
    obtain ⟨output', hserve, hsent⟩ := serve_of_respond input output hrespond
    exact ⟨s', output', answer, hserve, hsent, h⟩

/-! ## The four verbs -/

/-- The request is answered as it should be. -/
def RepliesWell (env : Env) (s : Server) (r : Request) : Prop :=
  ∃ s' answer, respond env s (some r) = some (s', answer) ∧ Answered env s r s' answer

theorem repliesWell_list (hcmd : r.cmd = .list) : RepliesWell env s r := by
  have hperf : Performed env s r s := by
    simp [Performed, hcmd]
  refine ⟨s, _, by simp only [respond, hcmd]; rfl, .of_reply (fun _ => ?_) fun h => absurd hperf h⟩
  simp [payload, hcmd]

theorem repliesWell_delete (hcmd : r.cmd = .delete) : RepliesWell env s r := by
  by_cases hmem : r.fileName ∈ s.files
  · have hperf : Performed env s r
        ⟨s.files.erase r.fileName, s.disk.remove env r.fileName⟩ := by
      simp [Performed, hcmd, hmem]
    refine ⟨_, ok, by simp only [respond, hcmd, if_pos hmem],
      .of_reply (fun _ => ?_) fun h => absurd hperf h⟩
    simp [payload, hcmd]
  · have hnot : ¬ Performed env s r s := by
      simp [Performed, hcmd, hmem]
    exact ⟨s, _, by simp only [respond, hcmd, if_neg hmem]; rfl,
      .of_reply (fun h => absurd h hnot) fun _ => ⟨_, rfl⟩⟩

theorem repliesWell_get (hcmd : r.cmd = .get) :
    RepliesWell env s r ↔ r.fileName ∈ s.files ∧ (s.disk.contents env r.fileName).isSome := by
  constructor
  · rintro ⟨s', answer, hrespond, ha⟩
    simp only [respond, hcmd] at hrespond
    by_cases hmem : r.fileName ∈ s.files
    · refine ⟨hmem, ?_⟩
      rw [if_pos hmem] at hrespond
      cases hcontents : s.disk.contents env r.fileName with
      | some bytes => rfl
      | none =>
        have hnot : ¬ Performed env s r s' := by
          simp [Performed, hcmd, hcontents]
        rw [hcontents] at hrespond
        dsimp only at hrespond
        split_ifs at hrespond
        obtain ⟨-, rfl⟩ := Prod.mk.inj (Option.some.inj hrespond)
        exact absurd (List.prefix_append ..) (ha.refused hnot).not_ok
    · have hnot : ¬ Performed env s r s' := by
        simp [Performed, hcmd, hmem]
      rw [if_neg hmem] at hrespond
      obtain ⟨-, rfl⟩ := Prod.mk.inj (Option.some.inj hrespond)
      exact absurd (ha.refused hnot) not_refusal_nil
  · rintro ⟨hmem, hsome⟩
    obtain ⟨bytes, hbytes⟩ := Option.isSome_iff_exists.mp hsome
    have hperf : Performed env s r s := by
      simp [Performed, hcmd, hmem, hbytes]
    refine ⟨s, _, by simp only [respond, hcmd, if_pos hmem, hbytes]; rfl,
      .of_reply (fun _ => ?_) fun h => absurd hperf h⟩
    simp [payload, hcmd, hbytes]

/-- Nothing is sent for an upload that is performed, and the server hangs on one that it could not
begin to store. -/
theorem repliesWell_put (hcmd : r.cmd = .put) :
    RepliesWell env s r ↔ r.body.length ≠ r.fileSize ∧ ((s.disk.create env r.fileName).isSome ∨
      r.fileSize = 0 ∨ r.body.length < min 1024 r.fileSize) := by
  have hnot : ∀ s', r.body.length ≠ r.fileSize → ¬ Performed env s r s' := by
    intro s' hlen
    simp [Performed, hcmd, hlen]
  have hsilent : ∀ s', ¬ Answered env s r s' [] := by
    intro s' ha
    by_cases hperf : Performed env s r s'
    · simpa [ok] using ha.performed hperf
    · exact not_refusal_nil (ha.refused hperf)
  constructor
  · rintro ⟨s', answer, hrespond, ha⟩
    simp only [respond, hcmd] at hrespond
    cases hcreate : s.disk.create env r.fileName with
    | some opened =>
      rw [hcreate] at hrespond
      dsimp only at hrespond
      split_ifs at hrespond with hlen
      · obtain ⟨-, rfl⟩ := Prod.mk.inj (Option.some.inj hrespond)
        exact absurd ha (hsilent s')
      · exact ⟨hlen, .inl rfl⟩
    | none =>
      rw [hcreate] at hrespond
      dsimp only at hrespond
      split_ifs at hrespond with hbegin hlen
      · obtain ⟨-, rfl⟩ := Prod.mk.inj (Option.some.inj hrespond)
        exact absurd ha (hsilent s')
      · exact ⟨hlen, .inr hbegin⟩
  · rintro ⟨hlen, hopen⟩
    cases hcreate : s.disk.create env r.fileName with
    | some opened =>
      exact ⟨_, _, by simp only [respond, hcmd, hcreate, if_neg hlen]; rfl,
        .of_reply (fun h => absurd h (hnot _ hlen)) fun _ => ⟨_, rfl⟩⟩
    | none =>
      have hbegin := hopen.resolve_left (by simp [hcreate])
      exact ⟨_, _, by simp only [respond, hcmd, hcreate, if_pos hbegin, if_neg hlen]; rfl,
        .of_reply (fun h => absurd h (hnot _ hlen)) fun _ => ⟨_, rfl⟩⟩

/-- Exactly the `Answerable` connections get one response that the client understands. -/
theorem serve_answersOnce_iff (htext : ¬ error <+: badRequest env) :
    AnswersOnce env s input output ↔ Answerable env s (Request.parse env input.rest) := by
  rw [answersOnce_iff]
  cases hparse : Request.parse env input.rest with
  | none =>
    simp only [respond, Answerable, iff_false]
    rintro ⟨s', answer, hrespond, text, rfl⟩
    obtain ⟨-, hbad⟩ := Prod.mk.inj (Option.some.inj hrespond)
    exact htext ⟨text, hbad.symm⟩
  | some r =>
    change RepliesWell env s r ↔ _
    cases hcmd : r.cmd with
    | list => simp [Answerable, hcmd, repliesWell_list hcmd]
    | delete => simp [Answerable, hcmd, repliesWell_delete hcmd]
    | get => simp only [Answerable, hcmd, repliesWell_get hcmd]
    | put => simp only [Answerable, hcmd, repliesWell_put hcmd]

/-- A listing, whose name is what is left of the word. -/
theorem serve_answersOnce_iff_list :
    AnswersOnce plainEnv ⟨[], ⟨true, ∅⟩⟩ ⟨message .list [], [.atMost 1]⟩ ⟨[], []⟩ := by
  have hparse : Request.parse plainEnv (message .list []) = some ⟨⟨.list, [84], 0⟩, []⟩ := by
    decide +kernel
  apply (serve_answersOnce_iff (by decide)).mpr
  rw [hparse]
  trivial

/-- A GET of a name that is not stored is not answered at all. -/
theorem serve_not_answersOnce : ¬ ∀ (env : Env) (s : Server) (input : Source UInt8)
    (output : Sink UInt8), ¬ error <+: badRequest env → AnswersOnce env s input output := by
  intro hall
  have hparse : Request.parse plainEnv (message .get [97]) = some ⟨⟨.get, [97], 0⟩, []⟩ := by
    decide +kernel
  have honce := hall plainEnv ⟨[], ⟨true, ∅⟩⟩ ⟨message .get [97], []⟩ ⟨[], []⟩ (by decide)
  rw [answersOnce_iff, hparse] at honce
  have hstored := ((repliesWell_get rfl).mp honce).1
  simp at hstored

end Cs241.Net
