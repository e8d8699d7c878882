import Cs241.Foundation.Runs
import Cs241.Net.Requests

/-!
# What the server stores

The purpose of the server is a store of bodies by name. In the runs in which no
PUT names a stored file, the vector of names, the directory and this store agree.
-/
namespace Cs241.Net

open Foundation

variable {env : Env} {s s' : Server} {history : List Request} {name : Name}

/-- The body of the last successful PUT of a name that no DELETE follows; newest request first. -/
def lastPut (name : Name) : List Request → Option (List UInt8)
  | [] => none
  | r :: history =>
    if r.fileName = name then
      match r.cmd with
      | .put => if r.body.length = r.fileSize then some r.body else lastPut name history
      | .delete => none
      | .get | .list => lastPut name history
    else lastPut name history

/-- The server with the requests that it has handled. -/
structure World where
  server : Server
  history : List Request

/-- The server after `mkdtemp`. -/
def World.init : World := ⟨⟨[], ⟨true, ∅⟩⟩, []⟩

/-- The bytes of the client and the plan of what the server sends. -/
abbrev Connection := Source UInt8 × Sink UInt8

def World.next (env : Env) (w : World) (c : Connection) : Option World :=
  (serve env w.server c.1 c.2).map fun x =>
    ⟨x.1, (Request.parse env c.1.rest).toList ++ w.history⟩

def Step (env : Env) (w : World) (c : Connection) (w' : World) : Prop := w.next env c = some w'

/-- The vector lists the regular files of the directory, and these are what was put last. -/
structure Consistent (s : Server) (history : List Request) : Prop where
  nodup : s.files.Nodup
  listed : ∀ name, name ∈ s.files ↔ name ∈ s.disk.files
  holds : ∀ name, s.disk.files.lookup name = lastPut name history

/-- A PUT names a file, and one that is not stored. -/
def PutGuard (env : Env) (w : World) (c : Connection) : Prop :=
  ∀ r ∈ Request.parse env c.1.rest, r.cmd = .put →
    PlainName r.fileName ∧ r.fileName ∉ w.server.files

structure Inv (s : Server) (history : List Request) : Prop extends Consistent s history where
  present : s.disk.present = true
  plain : ∀ name ∈ s.files, PlainName name

variable {r : Request}

theorem lastPut_of_ne (h : r.fileName ≠ name) :
    lastPut name (r :: history) = lastPut name history := by
  rw [lastPut, if_neg h]

theorem lastPut_of_kept (h : r.cmd = .get ∨ r.cmd = .list ∨
    (r.cmd = .put ∧ r.body.length ≠ r.fileSize)) :
    lastPut name (r :: history) = lastPut name history := by
  by_cases hname : r.fileName = name
  · rcases h with h | h | ⟨h, hlen⟩
    · simp [lastPut, h]
    · simp [lastPut, h]
    · simp [lastPut, h, hlen]
  · exact lastPut_of_ne hname

theorem Inv.put (hi : Inv s history) (hcmd : r.cmd = .put) (hplain : PlainName r.fileName)
    (hnew : r.fileName ∉ s.files) :
    ∃ s' reply, respond env s (some r) = some (s', reply) ∧ Inv s' (r :: history) := by
  have hcreate : s.disk.create env r.fileName =
      some (r.fileName, { s.disk with files := s.disk.files.insert r.fileName [] }) := by
    rw [Disk.create, if_pos hi.present, hplain.node]
    rfl
  have hnone : r.fileName ∉ s.disk.files := fun h => hnew ((hi.listed _).mpr h)
  simp only [respond, hcmd, hcreate]
  split_ifs with hlen
  · refine ⟨_, _, rfl, ?_, hi.present, ?_⟩
    · constructor
      case nodup =>
        simpa [List.nodup_append] using ⟨hi.nodup, fun _ h => ne_of_mem_of_not_mem h hnew⟩
      case listed =>
        intro name
        simp [hi.listed, or_comm]
      case holds =>
        intro name
        by_cases hname : r.fileName = name
        · subst hname
          simp [lastPut, hcmd, hlen]
        · rw [lastPut_of_ne hname, ← hi.holds]
          simp [AList.lookup_insert_ne (Ne.symm hname)]
    · intro name hname
      rcases List.mem_append.mp hname with h | h
      · exact hi.plain name h
      · exact List.mem_singleton.mp h ▸ hplain
  · have hremove : ({ s.disk with files := s.disk.files.insert r.fileName [] } : Disk).remove env
        r.fileName =
          { s.disk with files := (s.disk.files.insert r.fileName []).erase r.fileName } := by
      rw [Disk.remove, if_pos hi.present, hplain.node]
    rw [hremove]
    refine ⟨_, _, rfl, ⟨hi.nodup, ?_, ?_⟩, hi.present, hi.plain⟩
    · intro name
      rw [AList.mem_erase, AList.mem_insert, ← hi.listed]
      refine ⟨fun h => ⟨?_, .inr h⟩, fun h => h.2.resolve_left h.1⟩
      rintro rfl
      exact hnew h
    · intro name
      rw [lastPut_of_kept (.inr (.inr ⟨hcmd, hlen⟩)), ← hi.holds]
      by_cases hname : name = r.fileName
      · subst hname
        rw [AList.lookup_erase, AList.lookup_eq_none.mpr hnone]
      · rw [AList.lookup_erase_ne hname, AList.lookup_insert_ne hname]

theorem Inv.delete (hi : Inv s history) (hcmd : r.cmd = .delete) :
    ∃ s' reply, respond env s (some r) = some (s', reply) ∧ Inv s' (r :: history) := by
  simp only [respond, hcmd]
  split_ifs with hmem
  · have hplain := hi.plain _ hmem
    have hremove : s.disk.remove env r.fileName =
        { s.disk with files := s.disk.files.erase r.fileName } := by
      rw [Disk.remove, if_pos hi.present, hplain.node]
    rw [hremove]
    refine ⟨_, _, rfl, ⟨hi.nodup.erase _, ?_, ?_⟩, hi.present, ?_⟩
    · intro name
      rw [hi.nodup.mem_erase_iff, AList.mem_erase, hi.listed]
    · intro name
      by_cases hname : r.fileName = name
      · subst hname
        simp [lastPut, hcmd]
      · rw [lastPut_of_ne hname, ← hi.holds]
        exact AList.lookup_erase_ne (Ne.symm hname)
    · exact fun name h => hi.plain name (List.mem_of_mem_erase h)
  · refine ⟨_, _, rfl, ⟨hi.nodup, hi.listed, ?_⟩, hi.present, hi.plain⟩
    intro name
    by_cases hname : r.fileName = name
    · subst hname
      rw [AList.lookup_eq_none.mpr fun h => hmem ((hi.listed _).mpr h)]
      simp [lastPut, hcmd]
    · rw [lastPut_of_ne hname, hi.holds]

theorem Inv.get (hi : Inv s history) (hcmd : r.cmd = .get) :
    ∃ s' reply, respond env s (some r) = some (s', reply) ∧ Inv s' (r :: history) := by
  have hsame : Inv s (r :: history) := by
    refine ⟨⟨hi.nodup, hi.listed, fun name => ?_⟩, hi.present, hi.plain⟩
    rw [lastPut_of_kept (.inl hcmd), hi.holds]
  simp only [respond, hcmd]
  by_cases hmem : r.fileName ∈ s.files
  · rw [if_pos hmem]
    obtain ⟨bytes, hbytes⟩ := Option.isSome_iff_exists.mp
      (AList.lookup_isSome.mpr ((hi.listed _).mp hmem))
    have hcontents : s.disk.contents env r.fileName = some bytes := by
      rw [Disk.contents, if_pos hi.present, (hi.plain _ hmem).node]
      exact hbytes
    rw [hcontents]
    exact ⟨_, _, rfl, hsame⟩
  · rw [if_neg hmem]
    exact ⟨_, _, rfl, hsame⟩

theorem Inv.list (hi : Inv s history) (hcmd : r.cmd = .list) :
    ∃ s' reply, respond env s (some r) = some (s', reply) ∧ Inv s' (r :: history) := by
  have hsame : Inv s (r :: history) := by
    refine ⟨⟨hi.nodup, hi.listed, fun name => ?_⟩, hi.present, hi.plain⟩
    rw [lastPut_of_kept (.inr (.inl hcmd)), hi.holds]
  simp only [respond, hcmd]
  exact ⟨_, _, rfl, hsame⟩

/-- A connection that meets the guard is answered. -/
theorem World.next_inv {w : World} {c : Connection} (hi : Inv w.server w.history)
    (hg : PutGuard env w c) : ∃ w', w.next env c = some w' ∧ Inv w'.server w'.history := by
  have hrespond : ∃ s' reply, respond env w.server (Request.parse env c.1.rest) = some (s', reply) ∧
      Inv s' ((Request.parse env c.1.rest).toList ++ w.history) := by
    cases hparse : Request.parse env c.1.rest with
    | none => exact ⟨_, _, rfl, hi⟩
    | some r =>
      cases hcmd : r.cmd with
      | put =>
        obtain ⟨hplain, hnew⟩ := hg r hparse hcmd
        exact hi.put hcmd hplain hnew
      | delete => exact hi.delete hcmd
      | get => exact hi.get hcmd
      | list => exact hi.list hcmd
  obtain ⟨s', reply, h, hinv⟩ := hrespond
  obtain ⟨output', hserve, -⟩ := serve_of_respond c.1 c.2 h
  exact ⟨⟨s', _⟩, by rw [World.next, hserve, Option.map_some], hinv⟩

instance (w : World) (c : Connection) : Decidable (PutGuard env w c) :=
  inferInstanceAs (Decidable (∀ _ ∈ Request.parse env c.1.rest, _ → _))

/-- PUT of one byte under the name `"a"`, in two pieces. -/
def putOne (b : UInt8) : Connection :=
  (⟨message .put [97] ++ wordBytes 1 ++ [b], [.atMost 1, .interrupted]⟩, ⟨[], []⟩)

end Cs241.Net
