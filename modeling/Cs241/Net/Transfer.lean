import Cs241.Net.Header

/-!
# A file to the server and back

The client puts a file under a name and gets it again. What it saves is the part
of the contents before the first zero byte, in whatever pieces the bytes pass.
-/
namespace Cs241.Net

open Foundation

variable {env : Env} {s : Server} {input : Source UInt8} {name body : List UInt8}

/-- The name of a file that fits in a request. -/
structure ValidName (name : Name) : Prop where
  plain : PlainName name
  no_newline : 10 ∉ name
  no_zero : 0 ∉ name
  length : name.length ≤ 255

/-! ## The requests of the client -/

variable (hname : ValidName name) (hpast : name.length = 255 → env.pastName = 0)
include hname hpast

theorem parse_client (cmd : Verb) (hcmd : cmd ≠ .list) {size : ℕ} (hsize : size < 2 ^ 64)
    (body : List UInt8) : Request.parse env (clientHeader cmd name size ++ body) =
      some ⟨⟨cmd, name, if cmd = .put then size else 0⟩, body⟩ := by
  have hfits : Fits env (lineName cmd name) := by
    rw [lineName, if_neg hcmd]
    exact ⟨hname.length, hpast⟩
  obtain ⟨a, hrest, hheader⟩ :=
    processHeader_client hname.no_newline hname.no_zero hsize hfits body []
  unfold Request.parse
  rw [hheader, ← hrest, lineName, if_neg hcmd]
  rfl

theorem parse_get : Request.parse env (message .get name) = some ⟨⟨.get, name, 0⟩, []⟩ := by
  have hparse := parse_client hname hpast .get (by decide) (show 0 < 2 ^ 64 by decide) []
  rwa [clientHeader, if_neg (by decide), List.append_nil, List.append_nil] at hparse

theorem parse_put {n : ℕ} (hn : n < 2 ^ 64) (body : List UInt8) :
    Request.parse env (message .put name ++ wordBytes n ++ body) =
      some ⟨⟨.put, name, n⟩, body⟩ :=
  parse_client hname hpast .put (by decide) hn body

/-! ## The server in between -/

omit hpast in
/-- A file that was put is sent to the next GET. -/
theorem respond_put_get (hpresent : s.disk.present = true) (body : List UInt8) :
    ∃ s₁, respond env s (some ⟨⟨.put, name, body.length⟩, body⟩) = some (s₁, []) ∧
      respond env s₁ (some ⟨⟨.get, name, 0⟩, []⟩) =
        some (s₁, ok ++ wordBytes body.length ++ body) := by
  have hnode : env.node name = some name := hname.plain.node
  have hcreate : s.disk.create env name =
      some (name, { s.disk with files := s.disk.files.insert name [] }) := by
    rw [Disk.create, if_pos hpresent, hnode]
    rfl
  refine ⟨_, by simp only [respond, hcreate, if_true]; rfl, ?_⟩
  simp [respond, Disk.contents, hpresent, hnode]

omit hname hpast in
/-- The client saves the body as a string. -/
theorem Client.get_saved (hsize : body.length < 2 ^ 63)
    (h : input.rest = ok ++ wordBytes body.length ++ body) :
    Client.get input = .saved (cstring body) false := by
  rw [List.append_assoc] at h
  obtain ⟨a, ha, hrest⟩ := read_append ok h
  obtain ⟨b, hb, hrest'⟩ := read_append (wordBytes body.length) hrest
  obtain ⟨c, hc, hrest''⟩ := read_append body (hrest'.trans (List.append_nil _).symm)
  obtain ⟨d, hd, -⟩ := read_of_lt (show c.rest.length < 1 by simp [hrest''])
  have hmessage : getMessageSize a = (body.length, b) := by
    unfold getMessageSize
    rw [show readAllFromSocket a 8 = (8, wordBytes body.length, b) from hb]
    exact congrArg (·, b) (ofWordBytes_wordBytes (by omega))
  unfold Client.get
  rw [show readAllFromSocket input 3 = (3, ok, a) from ha]
  dsimp only
  rw [if_pos rfl, hmessage]
  dsimp only
  rw [if_pos hsize, hc]
  dsimp only
  rw [show c.readAll 1 = (0, c.rest, d) from hd]
  simp

/-! ## There and back -/

/-- In what pieces the bytes pass: for PUT as the client sends them, as the server receives them and
as it answers, for GET the same and as the client receives the answer. -/
structure Plans where
  putSent : List Event
  putReceived : List Event
  putAnswered : List Event
  getSent : List Event
  getReceived : List Event
  getAnswered : List Event
  saved : List Event

/-- The local file is put under a name, and what is stored under the name is got. -/
def putThenGet (env : Env) (s : Server) (name content : List UInt8) (plans : Plans) :
    Option Download :=
  (serve env s ⟨(Client.put ⟨[], plans.putSent⟩ name content).sent, plans.putReceived⟩
      ⟨[], plans.putAnswered⟩).bind fun (s, _) =>
    (serve env s ⟨(Client.request ⟨[], plans.getSent⟩ .get name).sent, plans.getReceived⟩
      ⟨[], plans.getAnswered⟩).map fun (_, output) => Client.get ⟨output.sent, plans.saved⟩

/-- The contents of the local file after `get`, if it was written. -/
def Download.localFile : Download → Option (List UInt8)
  | .saved contents _ => some contents
  | .tooMuch _ | .refused _ => none

theorem putThenGet_saved (hpresent : s.disk.present = true) {content : List UInt8}
    (hsize : content.length < 2 ^ 63) (plans : Plans) :
    putThenGet env s name content plans = some (.saved (cstring content) false) := by
  obtain ⟨s₁, hput, hget⟩ := respond_put_get hname hpresent content
  have hsent : (Client.put ⟨[], plans.putSent⟩ name content).sent =
      message .put name ++ wordBytes content.length ++ content := by
    simp [Client.put]
  have hsent' : (Client.request ⟨[], plans.getSent⟩ .get name).sent = message .get name := by
    simp [Client.request]
  rw [← parse_put hname hpast (show content.length < 2 ^ 64 by omega), ← hsent] at hput
  rw [← parse_get hname hpast, ← hsent'] at hget
  obtain ⟨output₁, hserve₁, -⟩ :=
    serve_of_respond ⟨_, plans.putReceived⟩ ⟨[], plans.putAnswered⟩ hput
  obtain ⟨output₂, hserve₂, hanswer⟩ :=
    serve_of_respond ⟨_, plans.getReceived⟩ ⟨[], plans.getAnswered⟩ hget
  unfold putThenGet
  rw [hserve₁, Option.bind_some]
  dsimp only
  rw [hserve₂, Option.map_some]
  exact congrArg some (Client.get_saved hsize (by simpa using hanswer))

/-- The client gets what it has put if and only if that has no zero byte. -/
theorem putThenGet_iff (hpresent : s.disk.present = true) {content : List UInt8}
    (hsize : content.length < 2 ^ 63) (plans : Plans) :
    (putThenGet env s name content plans).bind Download.localFile = some content ↔
      0 ∉ content := by
  rw [putThenGet_saved hname hpast hpresent hsize plans, Option.bind_some,
    ← cstring_eq_self_iff]
  simp [Download.localFile]

omit hname hpast

/-- Two bytes, and a server without files. -/
theorem putThenGet_iff_two : (putThenGet plainEnv ⟨[], ⟨true, ∅⟩⟩ [97] [7, 8]
    ⟨[], [.atMost 0, .interrupted], [], [], [], [.atMost 1], []⟩).bind Download.localFile =
      some [7, 8] :=
  (putThenGet_iff ⟨⟨by decide, by decide⟩, by decide, by decide, by decide⟩ (by decide) rfl
    (by decide) _).mpr (by decide)

/-- A file with a zero byte comes back shorter. -/
theorem putThenGet_zero : ¬ ∀ (env : Env) (s : Server) (name content : List UInt8) (plans : Plans),
    ValidName name → (name.length = 255 → env.pastName = 0) → s.disk.present = true →
      content.length < 2 ^ 63 →
        (putThenGet env s name content plans).bind Download.localFile = some content := by
  intro hall
  have hsaved : (putThenGet plainEnv ⟨[], ⟨true, ∅⟩⟩ [97] [7, 0, 8]
      ⟨[], [], [], [], [], [], []⟩).bind Download.localFile = some [7] := by
    decide +kernel
  have hname : ValidName [97] := ⟨⟨by decide, by decide⟩, by decide, by decide, by decide⟩
  have hcontent := hall plainEnv ⟨[], ⟨true, ∅⟩⟩ [97] [7, 0, 8] ⟨[], [], [], [], [], [], []⟩ hname
    (by decide) rfl (by decide)
  exact absurd (hsaved.symm.trans hcontent) (by decide)

end Cs241.Net
