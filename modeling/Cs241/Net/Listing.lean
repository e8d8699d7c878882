import Cs241.Net.Requests

/-!
# The answer to LIST in 64 bits

`list` counts the bytes it is going to send, and then counts the names down while it sends them. Both
counters wrap where there are no names, the first of them is then set to zero, and the second is not
looked at.
-/
namespace Cs241.Net

open Foundation

/-- The names of the files, as strings in memory with their terminators. -/
structure StoredNames where
  files : List Name
  fits : (files.map fun name => name.length + 1).sum < 2 ^ 64

/-- `list_size`, after the loop, the decrement and the test for an empty vector. -/
def listSize (files : List Name) : UInt64 :=
  let listSize := files.foldl (fun listSize name => listSize + (.ofNat name.length + 1)) 0
  if files.length = 0 then 0 else listSize - 1

/-- The loop of `list`, with the variable `i` as it is. -/
def listNames : UInt64 → List Name → Sink UInt8 → Sink UInt8
  | _, [], output => output
  | i, name :: names, output =>
    let output := send output name
    listNames (i - 1) names (if 0 < i then send output [10] else output)

/-- `list` with its variables of 64 bits; `i` is `MAX(vector_size(files) - 1, 0)`. -/
def listAnnounced (names : StoredNames) (output : Sink UInt8) : Sink UInt8 :=
  let output := send (send output ok) (wordBytes (listSize names.files).toNat)
  let last : UInt64 := .ofNat names.files.length - 1
  listNames (if 0 < last then last else 0) names.files output

section Counters

variable {files : List Name} {output : Sink UInt8}

/-- Below `2 ^ 64` the sum does not wrap. -/
theorem toNat_foldl_size {n : UInt64}
    (h : n.toNat + (files.map fun name => name.length + 1).sum < 2 ^ 64) :
    (files.foldl (fun n name => n + (.ofNat name.length + 1)) n).toNat =
      n.toNat + (files.map fun name => name.length + 1).sum := by
  induction files generalizing n with
  | nil => rfl
  | cons name files ih =>
    rw [List.map_cons, List.sum_cons] at h ⊢
    have hname : (n + (.ofNat name.length + 1)).toNat = n.toNat + (name.length + 1) := by
      rw [UInt64.toNat_add, UInt64.toNat_add, UInt64.toNat_ofNat', UInt64.toNat_one]
      omega
    rw [List.foldl_cons, ih (by rw [hname]; omega), hname, Nat.add_assoc]

theorem toNat_listSize (h : (files.map fun name => name.length + 1).sum < 2 ^ 64) :
    (listSize files).toNat = (files.map fun name => name.length + 1).sum - 1 := by
  have hsum := toNat_foldl_size (n := 0) (by simpa using h)
  rw [UInt64.toNat_zero, Nat.zero_add] at hsum
  cases files with
  | nil => rfl
  | cons name files =>
    rw [listSize, if_neg (by simp), UInt64.toNat_sub_of_le, hsum, UInt64.toNat_one]
    rw [UInt64.le_iff_toNat_le, hsum, UInt64.toNat_one, List.map_cons, List.sum_cons]
    omega

/-- A counter that starts at the number of the names that follow decides as one without a bound. -/
theorem listNames_eq {i : UInt64} (h : i.toNat = files.length - 1 ∨ files = []) :
    listNames i files output = listLoop (files.length - 1) files output := by
  induction files generalizing i output with
  | nil => rfl
  | cons name files ih =>
    have hi : i.toNat = (name :: files).length - 1 := h.resolve_right (List.cons_ne_nil _ _)
    have hpos : 0 < i ↔ 0 < (name :: files).length - 1 := by
      rw [UInt64.lt_iff_toNat_lt, hi, UInt64.toNat_zero]
    have hnext : (i - 1).toNat = files.length - 1 ∨ files = [] := by
      cases files with
      | nil => exact .inr rfl
      | cons name' files =>
        rw [List.length_cons, List.length_cons] at hi
        refine .inl ?_
        rw [UInt64.toNat_sub_of_le, hi, UInt64.toNat_one, List.length_cons]
        · omega
        · rw [UInt64.le_iff_toNat_le, hi, UInt64.toNat_one]
          omega
    rw [listNames, ih hnext, listLoop]
    simp only [hpos]
    rfl

/-- The maximum with zero changes no number without a sign. -/
theorem max_zero_eq (n : UInt64) : (if 0 < n then n else 0) = n := by
  split_ifs with h
  · rfl
  · rw [UInt64.lt_iff_toNat_lt, UInt64.toNat_zero] at h
    exact UInt64.toNat_inj.mp (Nat.eq_zero_of_not_pos h).symm

theorem listAnnounced_eq (names : StoredNames) (disk : Disk) :
    listAnnounced names output = list ⟨names.files, disk⟩ output := by
  obtain ⟨files, fits⟩ := names
  have hlen : files.length ≤ (files.map fun name => name.length + 1).sum := by
    induction files with
    | nil => rfl
    | cons name files ih =>
      rw [List.map_cons, List.sum_cons] at fits ⊢
      have := ih (by omega)
      rw [List.length_cons]
      omega
  rw [listAnnounced, list, toNat_listSize fits]
  dsimp only
  rw [max_zero_eq, listNames_eq]
  rcases files with _ | ⟨name, files⟩
  · exact .inr rfl
  · refine .inl ?_
    have hofNat : (UInt64.ofNat (name :: files).length).toNat = (name :: files).length := by
      rw [UInt64.toNat_ofNat', Nat.mod_eq_of_lt (by omega)]
    rw [UInt64.toNat_sub_of_le, hofNat, UInt64.toNat_one]
    rw [UInt64.le_iff_toNat_le, hofNat, UInt64.toNat_one, List.length_cons]
    omega

end Counters

/-- The announced size is that of the names with single newlines between them, which follow. -/
theorem list_announces (names : StoredNames) (output : Sink UInt8) : ∃ size body,
    (listAnnounced names output).sent = output.sent ++ (ok ++ size ++ body) ∧
      size.length = 8 ∧ ofWordBytes size = body.length ∧ body = [10].intercalate names.files := by
  let s : Server := ⟨names.files, ⟨true, ∅⟩⟩
  refine ⟨wordBytes (listing s).length, listing s, ?_, length_wordBytes _, ?_, rfl⟩
  · rw [listAnnounced_eq names s.disk]
    exact list_sent
  · refine ofWordBytes_wordBytes ?_
    have hfits := names.fits
    rw [length_listing]
    exact (Nat.sub_le _ _).trans_lt hfits

end Cs241.Net
