import Cs241.Net.Store
import Cs241.Net.Transfer
import Cs241.Net.Outcomes

/-!
# Sessions with the server

A session is a sequence of commands of the client program, each over a connection of
its own and with any cutting of the bytes on the way. The shelf says what the service
is for: names with contents, in the order in which they were put. Client and server
together do what the shelf does, with what the client makes of the answers.
-/
namespace Cs241.Net

open Foundation

inductive Command
  | put (remote : Name) (content : List UInt8)
  | get (remote : Name)
  | delete (remote : Name)
  | list

/-- What the client makes of the answer; of a listing, the bytes that it receives, since its buffer
has no room for a terminator. -/
inductive Result
  | reported (report : Report)
  | downloaded (download : Download)
  | listed (answer : List UInt8)

/-- In what pieces the bytes of one connection pass: as the client sends, as the server receives
and answers, and as the client receives the answer. -/
structure Passing where
  sent : List Event
  received : List Event
  answered : List Event
  replied : List Event

namespace Command

/-- What the client writes. -/
def request (output : Sink UInt8) : Command → Sink UInt8
  | put remote content => Client.put output remote content
  | get remote => Client.request output .get remote
  | delete remote => Client.request output .delete remote
  | list => Client.request output .list []

/-- What the client makes of the answer. -/
def result (answer : Source UInt8) : Command → Result
  | put _ _ => .reported (report answer)
  | get _ => .downloaded (Client.get answer)
  | delete _ => .reported (report answer)
  | list => .listed answer.rest

/-- The command through client and server; `none` where the server hangs. -/
def perform (env : Env) (s : Server) (c : Command) (p : Passing) : Option (Server × Result) :=
  (serve env s ⟨(c.request ⟨[], p.sent⟩).sent, p.received⟩ ⟨[], p.answered⟩).map
    fun (s', output) => (s', c.result ⟨output.sent, p.replied⟩)

end Command

def session (env : Env) : Server → List (Command × Passing) → Option (Server × List Result)
  | s, [] => some (s, [])
  | s, (c, p) :: commands =>
    (c.perform env s p).bind fun (s', result) =>
      (session env s' commands).map fun (s'', results) => (s'', result :: results)

/-! ## What the service is for -/

abbrev Shelf := List (Name × List UInt8)

namespace Shelf

def names (shelf : Shelf) : List Name := shelf.map Prod.fst

def find (shelf : Shelf) (name : Name) : Option (List UInt8) :=
  (shelf.find? fun entry => entry.1 = name).map Prod.snd

def apply (shelf : Shelf) : Command → Shelf
  | .put remote content => shelf ++ [(remote, content)]
  | .delete remote => shelf.filter fun entry => entry.1 ≠ remote
  | .get _ | .list => shelf

/-- The server says nothing to a PUT that it has performed, and to a GET of an unknown name, and
the client takes that for an invalid response. A file is saved up to its first zero byte. -/
def result (shelf : Shelf) (env : Env) : Command → Result
  | .put _ _ => .reported .invalidResponse
  | .get remote =>
    match shelf.find remote with
    | some content => .downloaded (.saved (cstring content) false)
    | none => .downloaded (.refused .invalidResponse)
  | .delete remote =>
    if remote ∈ shelf.names then .reported .success
    else
      let text := env.errNoSuchFile.take 1024
      .reported (.errorMessage (cstring (text ++ error.drop text.length)))
  | .list =>
    let names := [10].intercalate shelf.names
    .listed (ok ++ wordBytes names.length ++ names)

/-- The shelf over a session. -/
def session (env : Env) : Shelf → List Command → Shelf × List Result
  | shelf, [] => (shelf, [])
  | shelf, c :: commands =>
    let (shelf', results) := session env (shelf.apply c) commands
    (shelf', shelf.result env c :: results)

/-- The names fit in a request, a PUT names a new file, and its length fits in a `ssize_t`. -/
def Allows (shelf : Shelf) (env : Env) : Command → Prop
  | .put remote content => ValidName remote ∧ (remote.length = 255 → env.pastName = 0) ∧
      remote ∉ shelf.names ∧ content.length < 2 ^ 63
  | .get remote | .delete remote => ValidName remote ∧ (remote.length = 255 → env.pastName = 0)
  | .list => True

def AllowsAll (env : Env) : Shelf → List Command → Prop
  | _, [] => True
  | shelf, c :: commands => shelf.Allows env c ∧ AllowsAll env (shelf.apply c) commands

end Shelf

/-- The server has the names in its vector and the contents in its directory. -/
structure Represents (s : Server) (shelf : Shelf) : Prop where
  files : s.files = shelf.names
  nodup : shelf.names.Nodup
  contents : ∀ name, s.disk.files.lookup name = shelf.find name
  present : s.disk.present = true
  plain : ∀ name ∈ shelf.names, PlainName name
  fits : ∀ entry ∈ shelf, entry.2.length < 2 ^ 63

variable {env : Env} {s : Server} {shelf : Shelf} {name remote : Name} {c : Command}

/-! ## The shelf -/

namespace Shelf

theorem find_eq_none : shelf.find name = none ↔ name ∉ shelf.names := by
  simp only [find, Option.map_eq_none_iff, List.find?_eq_none, names, List.mem_map,
    decide_eq_true_eq, not_exists, not_and]

theorem find_put (content : List UInt8) (hnew : remote ∉ shelf.names) :
    Shelf.find (shelf ++ [(remote, content)]) name =
      if name = remote then some content else shelf.find name := by
  rw [find, List.find?_append, Option.map_or]
  split_ifs with h
  · subst h
    have hnone : shelf.find name = none := find_eq_none.mpr hnew
    rw [find] at hnone
    rw [hnone]
    simp
  · have hlast : [(remote, content)].find? (fun entry => entry.1 = name) = none := by
      simp [Ne.symm h]
    rw [hlast]
    simp [find]

theorem find_delete : Shelf.find (shelf.filter fun entry => entry.1 ≠ remote) name =
    if name = remote then none else shelf.find name := by
  induction shelf with
  | nil => simp [find]
  | cons entry shelf ih =>
    by_cases hremote : entry.1 = remote
    · rw [List.filter_cons_of_neg (by simpa using hremote), ih]
      split_ifs with h
      · rfl
      · rw [find, find, List.find?_cons_of_neg]
        simp [hremote, Ne.symm h]
    · rw [List.filter_cons_of_pos (by simpa using hremote)]
      by_cases hname : entry.1 = name
      · have hne : name ≠ remote := hname ▸ hremote
        rw [if_neg hne, find, find, List.find?_cons_of_pos (by simpa using hname),
          List.find?_cons_of_pos (by simpa using hname)]
      · rw [find, List.find?_cons_of_neg (by simpa using hname), ← find, ih, find, find,
          List.find?_cons_of_neg (by simpa using hname)]

theorem names_delete :
    Shelf.names (shelf.filter fun entry => entry.1 ≠ remote) = shelf.names.filter (· ≠ remote) := by
  rw [names, names, List.filter_map]
  rfl

end Shelf

/-! ## One command -/

/-- The header and body that the server finds in the bytes of a command. -/
def Command.parsed : Command → Request
  | put remote content => ⟨⟨.put, remote, content.length⟩, content⟩
  | get remote => ⟨⟨.get, remote, 0⟩, []⟩
  | delete remote => ⟨⟨.delete, remote, 0⟩, []⟩
  | list => ⟨⟨.list, [84], 0⟩, []⟩

theorem parse_request (hallows : shelf.Allows env c) (plan : List Event) :
    Request.parse env (c.request ⟨[], plan⟩).sent = some c.parsed := by
  cases c with
  | put remote content =>
    obtain ⟨hname, hpast, -, hsize⟩ := hallows
    have hsent : (Client.put ⟨[], plan⟩ remote content).sent =
        message .put remote ++ wordBytes content.length ++ content := by
      simp [Client.put]
    rw [Command.request, hsent]
    exact parse_put hname hpast (by omega) content
  | get remote =>
    have hsent : (Client.request ⟨[], plan⟩ .get remote).sent = message .get remote := by
      simp [Client.request]
    rw [Command.request, hsent]
    exact parse_get hallows.1 hallows.2
  | delete remote =>
    have hsent : (Client.request ⟨[], plan⟩ .delete remote).sent =
        clientHeader .delete remote 0 ++ [] := by
      simp [Client.request, clientHeader]
    rw [Command.request, hsent]
    exact parse_client hallows.1 hallows.2 .delete (by decide) (by decide) []
  | list =>
    have hsent : (Client.request ⟨[], plan⟩ .list []).sent = clientHeader .list [] 0 ++ [] := by
      simp [Client.request, clientHeader]
    have hfits : Fits env (lineName .list []) := ⟨by decide, fun h => by cases h⟩
    obtain ⟨a, hrest, hheader⟩ :=
      processHeader_client (by decide) (by decide) (show 0 < 2 ^ 64 by decide) hfits [] []
    rw [Command.request, hsent, Request.parse, hheader]
    simp [Command.parsed, lineName, hrest]

/-- The new state of the server represents the new shelf, and the client makes of the answer what
the shelf says. -/
def Serves (env : Env) (s : Server) (shelf : Shelf) (c : Command) : Prop :=
  ∃ s' reply, respond env s (some c.parsed) = some (s', reply) ∧ Represents s' (shelf.apply c) ∧
    ∀ plan, c.result ⟨reply, plan⟩ = shelf.result env c

theorem report_nil (plan : List Event) : report ⟨[], plan⟩ = .invalidResponse := by
  have hrest : (⟨[], []⟩ : Source UInt8).rest = (⟨[], plan⟩ : Source UInt8).rest.drop 3 := rfl
  rw [Buffers.report_eq hrest, if_neg (by simp [ok]), Buffers.checkError_eq,
    if_neg (by simp [error])]

theorem report_ok (plan : List Event) : report ⟨ok, plan⟩ = .success := by
  have hrest : (⟨[], []⟩ : Source UInt8).rest = (⟨ok, plan⟩ : Source UInt8).rest.drop 3 := rfl
  rw [Buffers.report_eq hrest]
  exact if_pos rfl

theorem get_nil (plan : List Event) : Client.get ⟨[], plan⟩ = .refused .invalidResponse := by
  have hrest : (⟨[], []⟩ : Source UInt8).rest = (⟨[], plan⟩ : Source UInt8).rest.drop 3 := rfl
  rw [Buffers.get_eq hrest, if_neg (by simp [ok]), Buffers.checkError_eq, if_neg (by simp [error])]

/-- The report of a refusal shows the text that follows the line `ERROR`. -/
theorem report_error (text : List UInt8) (plan : List Event) : report ⟨error ++ text, plan⟩ =
    .errorMessage (cstring (text.take 1024 ++ error.drop (text.take 1024).length)) := by
  have hrest : (⟨(error ++ text).drop 3, []⟩ : Source UInt8).rest =
      (⟨error ++ text, plan⟩ : Source UInt8).rest.drop 3 := rfl
  rw [Buffers.report_eq hrest, if_neg (by simp [ok, error]), Buffers.checkError_eq]
  apply if_pos
  simp [error]

theorem serves_put (hr : Represents s shelf) {content : List UInt8}
    (hallows : shelf.Allows env (.put remote content)) : Serves env s shelf (.put remote content) := by
  obtain ⟨hname, -, hnew, hsize⟩ := hallows
  have hcreate : s.disk.create env remote =
      some (remote, { s.disk with files := s.disk.files.insert remote [] }) := by
    rw [Disk.create, if_pos hr.present, hname.plain.node]
    rfl
  have hnames : Shelf.names (shelf ++ [(remote, content)]) = shelf.names ++ [remote] := by
    simp [Shelf.names]
  refine ⟨_, [], by simp only [respond, Command.parsed, hcreate, if_true]; rfl, ?_, fun plan => ?_⟩
  · refine ⟨?_, ?_, fun name => ?_, hr.present, fun name hmem => ?_, fun entry hmem => ?_⟩
    · rw [Shelf.apply, hnames, hr.files]
    · rw [Shelf.apply, hnames, List.nodup_append]
      exact ⟨hr.nodup, List.nodup_singleton _, by simpa using fun _ h => ne_of_mem_of_not_mem h hnew⟩
    · rw [Shelf.apply, Shelf.find_put content hnew]
      split_ifs with h
      · rw [h, AList.lookup_insert]
      · rw [AList.lookup_insert_ne h, AList.lookup_insert_ne h, hr.contents]
    · rw [Shelf.apply, hnames] at hmem
      rcases List.mem_append.mp hmem with h | h
      · exact hr.plain name h
      · exact List.mem_singleton.mp h ▸ hname.plain
    · rcases List.mem_append.mp hmem with h | h
      · exact hr.fits entry h
      · rw [List.mem_singleton.mp h]
        exact hsize
  · exact congrArg Result.reported (report_nil plan)

theorem serves_get (hr : Represents s shelf) : Serves env s shelf (.get remote) := by
  cases hfind : shelf.find remote with
  | none =>
    have hmem : remote ∉ shelf.names := Shelf.find_eq_none.mp hfind
    refine ⟨s, [], ?_, hr, fun plan => ?_⟩
    · simp only [respond, Command.parsed, hr.files, if_neg hmem]
    · simp only [Command.result, Shelf.result, hfind, get_nil]
  | some content =>
    have hmem : remote ∈ shelf.names := by
      by_contra hnot
      rw [Shelf.find_eq_none.mpr hnot] at hfind
      cases hfind
    have hcontents : s.disk.contents env remote = some content := by
      rw [Disk.contents, if_pos hr.present, (hr.plain remote hmem).node, Option.bind_some,
        hr.contents, hfind]
    have hsize : content.length < 2 ^ 63 := by
      obtain ⟨entry, hentry, rfl⟩ := Option.map_eq_some_iff.mp hfind
      exact hr.fits entry (List.mem_of_find?_eq_some hentry)
    refine ⟨s, ok ++ wordBytes content.length ++ content, ?_, hr, fun plan => ?_⟩
    · simp only [respond, Command.parsed, hr.files, if_pos hmem, hcontents]
    · simp only [Command.result, Shelf.result, hfind]
      exact congrArg Result.downloaded (Client.get_saved hsize rfl)

theorem serves_delete (hr : Represents s shelf) : Serves env s shelf (.delete remote) := by
  by_cases hmem : remote ∈ shelf.names
  · have hremove : s.disk.remove env remote =
        { s.disk with files := s.disk.files.erase remote } := by
      rw [Disk.remove, if_pos hr.present, (hr.plain remote hmem).node]
    refine ⟨_, ok, by simp only [respond, Command.parsed, hr.files, if_pos hmem, hremove]; rfl, ?_,
      fun plan => ?_⟩
    · refine ⟨?_, ?_, fun name => ?_, hr.present, fun name hname => ?_, fun entry hentry => ?_⟩
      · rw [Shelf.apply, Shelf.names_delete, hr.nodup.erase_eq_filter]
        exact List.filter_congr fun name _ => by simp [bne, beq_eq_decide]
      · rw [Shelf.apply, Shelf.names_delete]
        exact hr.nodup.filter _
      · rw [Shelf.apply, Shelf.find_delete]
        split_ifs with h
        · rw [h, AList.lookup_erase]
        · rw [AList.lookup_erase_ne h, hr.contents]
      · rw [Shelf.apply, Shelf.names_delete] at hname
        exact hr.plain name (List.mem_of_mem_filter hname)
      · exact hr.fits entry (List.mem_of_mem_filter hentry)
    · simp only [Command.result, Shelf.result, if_pos hmem]
      exact congrArg Result.reported (report_ok plan)
  · have hsame : shelf.apply (.delete remote) = shelf := by
      refine List.filter_eq_self.mpr fun entry hentry => ?_
      simpa using ne_of_mem_of_not_mem (List.mem_map_of_mem hentry) hmem
    refine ⟨s, error ++ env.errNoSuchFile, ?_, by rwa [hsame], fun plan => ?_⟩
    · simp only [respond, Command.parsed, hr.files, if_neg hmem]
    · simp only [Command.result, Shelf.result, if_neg hmem]
      exact congrArg Result.reported (report_error env.errNoSuchFile plan)

theorem serves_list (hr : Represents s shelf) : Serves env s shelf .list := by
  refine ⟨s, _, rfl, hr, fun plan => ?_⟩
  simp only [Command.result, Shelf.result, listing, hr.files]

/-! ## The session -/

theorem Represents.init : Represents World.init.server [] where
  files := rfl
  nodup := List.nodup_nil
  contents := fun _ => AList.lookup_empty _
  present := rfl
  plain := fun _ h => absurd h List.not_mem_nil
  fits := fun _ h => absurd h List.not_mem_nil

theorem serves (hr : Represents s shelf) (hallows : shelf.Allows env c) :
    Serves env s shelf c := by
  cases c with
  | put remote content => exact serves_put hr hallows
  | get remote => exact serves_get hr
  | delete remote => exact serves_delete hr
  | list => exact serves_list hr

theorem perform_eq (hr : Represents s shelf) (hallows : shelf.Allows env c) (p : Passing) :
    ∃ s', c.perform env s p = some (s', shelf.result env c) ∧ Represents s' (shelf.apply c) := by
  obtain ⟨s', reply, hrespond, hr', hresult⟩ := serves hr hallows
  rw [← parse_request hallows p.sent] at hrespond
  obtain ⟨output, hserve, hsent⟩ := serve_of_respond
    ⟨(c.request ⟨[], p.sent⟩).sent, p.received⟩ ⟨[], p.answered⟩ hrespond
  apply Exists.intro s'
  constructor
  · have hresult' : c.result ⟨output.sent, p.replied⟩ = shelf.result env c := by
      rw [hsent]
      exact hresult p.replied
    rw [Command.perform, hserve, Option.map_some, ← hresult']
  · exact hr'

theorem session_eq {commands : List (Command × Passing)} (hr : Represents s shelf)
    (hallows : shelf.AllowsAll env (commands.map Prod.fst)) :
    ∃ s', session env s commands = some (s', (shelf.session env (commands.map Prod.fst)).2) ∧
      Represents s' (shelf.session env (commands.map Prod.fst)).1 := by
  induction commands generalizing s shelf with
  | nil => exact ⟨s, rfl, hr⟩
  | cons command commands ih =>
    obtain ⟨c, p⟩ := command
    obtain ⟨hfirst, hrest⟩ := hallows
    obtain ⟨s', hperform, hr'⟩ := perform_eq hr hfirst p
    obtain ⟨s'', hsession, hr''⟩ := ih hr' hrest
    apply Exists.intro s''
    constructor
    · rw [session, hperform, Option.bind_some]
      exact congrArg (Option.map fun (s'', results) => (s'', shelf.result env c :: results)) hsession
    · exact hr''

end Cs241.Net
