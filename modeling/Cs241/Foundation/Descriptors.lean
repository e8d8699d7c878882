import Mathlib.Data.List.Basic
import Mathlib.Data.List.GetD

/-!
# Descriptor tables

A process refers to its open files by small numbers. A new file gets the lowest
number that is not in use; `dup2` gives a file a second number of one's choice.
-/
namespace Cs241.Foundation

/-- The file behind each descriptor. -/
abbrev Table (φ : Type*) := List (Option φ)

namespace Table

variable {φ : Type*} (t : Table φ) (fd k : ℕ) (f : φ)

def file : Option φ := (t[fd]?).join

def put : Table φ := (t ++ List.replicate (fd + 1 - t.length) none).set fd (some f)

def close : Table φ := t.set fd none

def lowest : ℕ := t.findIdx Option.isNone

/-- Opening a file: the lowest unused descriptor refers to it. -/
def add : Table φ := t.put t.lowest f

/-- `none` where `old` is not open. -/
def dup2 (old new : ℕ) : Option (Table φ) := (t.file old).map fun f => t.put new f

def closeAll (fds : List ℕ) : Table φ := fds.foldl close t

/-- Some descriptor refers to the file. -/
def Has : Prop := some f ∈ t

instance [DecidableEq φ] : Decidable (t.Has f) := inferInstanceAs (Decidable (some f ∈ t))

variable {t fd k f}

theorem has_iff : t.Has f ↔ ∃ fd, t.file fd = some f := by
  rw [Has, List.mem_iff_getElem?]
  constructor
  · rintro ⟨fd, h⟩
    exact ⟨fd, by rw [file, h]; rfl⟩
  · rintro ⟨fd, h⟩
    exact ⟨fd, by simpa [file, Option.join_eq_some_iff] using h⟩

theorem file_put : (t.put fd f).file k = if k = fd then some f else t.file k := by
  have hlen : fd < (t ++ List.replicate (fd + 1 - t.length) (none : Option φ)).length := by
    rw [List.length_append, List.length_replicate]
    omega
  rw [file, put]
  by_cases h : k = fd
  · rw [h, List.getElem?_set_self hlen, if_pos rfl]
    rfl
  · rw [List.getElem?_set_ne (Ne.symm h), if_neg h, file, List.getElem?_append,
      List.getElem?_replicate]
    split_ifs with hk
    · rfl
    · rw [List.getElem?_eq_none (by omega)]
      rfl
    · rw [List.getElem?_eq_none (by omega)]

theorem file_close : (t.close fd).file k = if k = fd then none else t.file k := by
  rw [file, close]
  by_cases h : k = fd
  · rw [h, List.getElem?_set_self', if_pos rfl]
    cases t[fd]? <;> rfl
  · rw [List.getElem?_set_ne (Ne.symm h), if_neg h, file]

theorem file_lowest : t.file t.lowest = none := by
  rw [file, lowest]
  by_cases h : t.findIdx Option.isNone < t.length
  · have hnone := List.findIdx_getElem (w := h)
    rw [List.getElem?_eq_getElem h]
    simpa using hnone
  · rw [List.getElem?_eq_none (by omega)]
    rfl

theorem file_closeAll (fds : List ℕ) :
    (t.closeAll fds).file k = if k ∈ fds then none else t.file k := by
  induction fds generalizing t with
  | nil => simp [closeAll]
  | cons fd fds ih =>
    change ((t.close fd).closeAll fds).file k = _
    rw [ih, file_close]
    by_cases h : k = fd <;> by_cases h' : k ∈ fds <;> simp [h, h']

/-- Closing opens no file. -/
theorem Has.of_close (h : (t.close fd).Has f) : t.Has f := by
  obtain ⟨k, hk⟩ := has_iff.mp h
  rw [file_close] at hk
  split_ifs at hk
  exact has_iff.mpr ⟨k, hk⟩

/-- A descriptor made by `dup2` refers to a file that was open before. -/
theorem Has.of_dup2 {t' : Table φ} {old new : ℕ} (h : t.dup2 old new = some t') (hf : t'.Has f) :
    t.Has f := by
  obtain ⟨g, hg, rfl⟩ := Option.map_eq_some_iff.mp h
  obtain ⟨k, hk⟩ := has_iff.mp hf
  rw [file_put] at hk
  split_ifs at hk
  · obtain rfl := Option.some.inj hk
    exact has_iff.mpr ⟨old, hg⟩
  · exact has_iff.mpr ⟨k, hk⟩

end Table

end Cs241.Foundation
