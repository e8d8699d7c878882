import Cs241.Parser.Model

/-!
# Comments in one pass

`strip_back_comments` asks `in_quotes` at every `#`, and that starts again at the
beginning of the line. A scan from left to right carries the answer along: it
knows whether it is between quotes and whether a backslash stood just before.
-/
namespace Cs241.Parser

structure Scan where
  quoted : Bool
  escaped : Bool
deriving DecidableEq

namespace Scan

def start : Scan := ⟨false, false⟩

/-- A backslash takes the next character its meaning, and a double quote opens or closes. -/
def step (s : Scan) (c : UInt8) : Scan :=
  if s.escaped then { s with escaped := false }
  else if c = 92 then { s with escaped := true }
  else if c = 34 then { s with quoted := !s.quoted }
  else s

def run (s : Scan) (str : Name) : Scan := str.foldl step s

/-- The line up to the first `#` that the scan meets outside quotes. -/
def strip (s : Scan) : Name → Name
  | [] => []
  | c :: line => if c = 35 ∧ ¬ s.quoted then [] else c :: (s.step c).strip line

/-- Every `#` is between quotes. -/
def Uncommented (s : Scan) (str : Name) : Prop :=
  ∀ front back, str = front ++ 35 :: back → (s.run front).quoted = true

variable {s : Scan} {c : UInt8} {str line pre : Name}

@[simp] theorem run_nil : s.run [] = s := rfl

@[simp] theorem run_cons : s.run (c :: str) = (s.step c).run str := rfl

@[simp] theorem run_append (front : Name) : s.run (front ++ str) = (s.run front).run str :=
  List.foldl_append

theorem uncommented_nil : s.Uncommented [] := by
  intro front back h
  simp at h

theorem uncommented_cons :
    s.Uncommented (c :: str) ↔ (c = 35 → s.quoted = true) ∧ (s.step c).Uncommented str := by
  constructor
  · intro h
    constructor
    · rintro rfl
      exact h [] str rfl
    · intro front back hstr
      exact h (c :: front) back (by rw [hstr, List.cons_append])
  · rintro ⟨hc, hstr⟩ front back h
    cases front with
    | nil => exact hc (List.cons.inj h).1
    | cons d front =>
      obtain ⟨rfl, hback⟩ := List.cons.inj h
      exact hstr front back hback

theorem strip_prefix (s : Scan) (line : Name) : s.strip line <+: line := by
  induction line generalizing s with
  | nil => exact List.prefix_rfl
  | cons c line ih =>
    rw [strip]
    split_ifs
    · exact List.nil_prefix
    · exact (List.prefix_cons_inj c).mpr (ih _)

theorem uncommented_strip (s : Scan) (line : Name) : s.Uncommented (s.strip line) := by
  induction line generalizing s with
  | nil => exact uncommented_nil
  | cons c line ih =>
    rw [strip]
    split_ifs with hhash
    · exact uncommented_nil
    · refine uncommented_cons.mpr ⟨fun hc => ?_, ih _⟩
      by_contra hquoted
      exact hhash ⟨hc, hquoted⟩

/-- Nothing longer has every `#` between quotes. -/
theorem Uncommented.prefix_strip (h : s.Uncommented pre) (hpre : pre <+: line) :
    pre <+: s.strip line := by
  induction line generalizing s pre with
  | nil => exact hpre
  | cons c line ih =>
    cases pre with
    | nil => exact List.nil_prefix
    | cons d pre =>
      obtain ⟨rfl, htail⟩ := List.cons_prefix_cons.mp hpre
      obtain ⟨hd, hrest⟩ := uncommented_cons.mp h
      rw [strip, if_neg fun hhash => hhash.2 (hd hhash.1)]
      exact (List.prefix_cons_inj d).mpr (ih hrest htail)

theorem Uncommented.strip_eq (h : s.Uncommented line) : s.strip line = line :=
  (s.strip_prefix line).eq_of_length_le (h.prefix_strip List.prefix_rfl).length_le

end Scan

/-- A backslash at the end steps past the end, which leaves the scan with an open escape. -/
theorem inQuotesLoop_eq_run (quoted : Bool) (str : List UInt8) :
    inQuotesLoop quoted str = (Scan.run ⟨quoted, false⟩ str).quoted := by
  induction quoted, str using inQuotesLoop.induct with
  | case1 quoted => rfl
  | case2 quoted => rfl
  | case3 quoted c hquote =>
    rw [inQuotesLoop, if_neg hquote]
    by_cases hc : c = 92 <;> simp [Scan.step, hc, hquote]
  | case4 quoted d str ih => simpa [inQuotesLoop, Scan.step] using ih
  | case5 quoted c d str hc ih =>
    have hstep : Scan.step ⟨quoted, false⟩ c = ⟨if c = 34 then !quoted else quoted, false⟩ := by
      by_cases hquote : c = 34 <;> simp [Scan.step, hc, hquote]
    rw [inQuotesLoop, if_neg hc, ih, ← hstep, ← Scan.run_cons]

theorem inQuotes_eq_run (str : List UInt8) : inQuotes str = (Scan.start.run str).quoted :=
  inQuotesLoop_eq_run false str

/-- The search for the next `#` goes on where the scan stands. -/
theorem stripLoop_eq_strip (str comment : Name) :
    stripLoop str comment = str ++ (Scan.start.run str).strip comment := by
  induction comment generalizing str with
  | nil => simp [stripLoop, Scan.strip]
  | cons c comment ih =>
    rw [stripLoop, Scan.strip, inQuotes_eq_run]
    split_ifs
    · exact (List.append_nil str).symm
    · rw [ih, Scan.run_append, Scan.run_cons, Scan.run_nil, List.append_assoc,
        List.singleton_append]

/-- `strip_back_comments` agrees with one scan of the line, keeps the longest prefix in which
every `#` is between quotes, and finds nothing more the second time. -/
theorem stripBackComments_longest (line : Name) :
    stripBackComments line = Scan.start.strip line ∧
    (stripBackComments line <+: line ∧ Scan.start.Uncommented (stripBackComments line) ∧
      ∀ pre, pre <+: line → Scan.start.Uncommented pre → pre <+: stripBackComments line) ∧
    stripBackComments (stripBackComments line) = stripBackComments line := by
  have hscan : ∀ line, stripBackComments line = Scan.start.strip line := stripLoop_eq_strip []
  simp only [hscan]
  have huncommented := Scan.uncommented_strip .start line
  exact ⟨trivial, ⟨Scan.strip_prefix _ line, huncommented,
    fun pre hpre hclean => hclean.prefix_strip hpre⟩, huncommented.strip_eq⟩

/-- An escaped `#` ends the line too, but not between quotes. -/
example : stripBackComments [34, 92, 34, 35, 34, 92, 35, 97] = [34, 92, 34, 35, 34, 92] := by
  decide

end Cs241.Parser
