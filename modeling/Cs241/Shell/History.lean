import Cs241.Foundation.Blocks
import Cs241.Parser.Lines
import Cs241.Shell.Replay

/-!
# The history file

`write_history` appends a newline to an entry in the same call in which it measures the
entry, so that the order in which the arguments are evaluated decides whether the
newline is written. The entry is a block of memory of its own, and the newline needs a
byte of it behind the terminator.
-/
namespace Cs241.Shell

open Foundation

/-- Which of the two arguments of `fwrite` is evaluated first. -/
inductive Order
  | strcat
  | strlen
deriving DecidableEq

/-- `strcat(dest, "\n")` -/
def strcatNewline (dest : Block) : Checked Block := do
  let n ← dest.strlen
  dest.storeAll n [10, 0]

/-- `fwrite(strcat(entry, "\n"), 1, strlen(entry), history_file)`: the entry behind the call, and
what is written. -/
def writeEntry (order : Order) (entry : Block) : Checked (Block × List UInt8) :=
  match order with
  | .strcat => do
    let entry ← strcatNewline entry
    let n ← entry.strlen
    return (entry, ← entry.loadAll 0 n)
  | .strlen => do
    let n ← entry.strlen
    let entry ← strcatNewline entry
    return (entry, ← entry.loadAll 0 n)

/-- `write_history()`: the entries behind the loop, and the contents of the file. -/
def writeHistory (order : Order) : List Block → Checked (List Block × List UInt8)
  | [] => return ([], [])
  | entry :: history => do
    let first ← writeEntry order entry
    let rest ← writeHistory order history
    return (first.1 :: rest.1, first.2 ++ rest.2)

/-- `read_history()`, where `getline` ends the lines with a terminator. -/
def readHistory (history : List Line) (file : List UInt8) : List Line :=
  history ++ (Parser.getlines [] file).map fun line => yeet (Parser.cString line)

/-- An entry of the history that is neither empty nor has a newline, with the bytes that its
memory has behind the terminator. -/
structure Entry where
  line : Line
  slack : List UInt8
  ne_nil : line.text ≠ []
  zero_not_mem : 0 ∉ line.text

def Entry.block (e : Entry) : Block := e.line.text ++ 0 :: e.slack

/-- In either order the entries are written without an access behind their memory, and read back
they are the same list. -/
def RoundTrips (history : List Entry) : Prop :=
  ∀ order, ∃ blocks file, writeHistory order (history.map Entry.block) = .ok (blocks, file) ∧
    readHistory [] file = history.map Entry.line

/-! ## Writing an entry -/

section Write

variable {text slack : List UInt8} {s : UInt8}

theorem strlen_block (h : 0 ∉ text) : Block.strlen (text ++ 0 :: slack) = .ok text.length := by
  rw [Block.strlen_eq (by simp), Block.text, takeWhile_ne_cons h]

theorem loadAll_block (rest : List UInt8) :
    Block.loadAll (text ++ rest) 0 text.length = .ok text := by
  rw [Block.loadAll_eq (by simp), List.drop_zero, List.take_left]

/-- The newline takes the place of the terminator, which moves on by one byte. -/
theorem strcatNewline_eq (h : 0 ∉ text) :
    strcatNewline (text ++ 0 :: s :: slack) = .ok (text ++ 10 :: 0 :: slack) := by
  rw [strcatNewline, strlen_block h, ok_bind, Block.storeAll_eq (.inr (by simp))]
  simp [List.drop_append]

/-- Where the memory ends with the terminator there is no place for it. -/
theorem not_inBounds_strcatNewline (h : 0 ∉ text) : ¬ InBounds (strcatNewline (text ++ [0])) := by
  rw [strcatNewline, strlen_block h, ok_bind]
  exact Block.not_inBounds_storeAll (List.cons_ne_nil _ _) (by simp)

theorem writeEntry_strcat (h : 0 ∉ text) : writeEntry .strcat (text ++ 0 :: s :: slack) =
    .ok (text ++ 10 :: 0 :: slack, text ++ [10]) := by
  have hnewline : 0 ∉ text ++ [10] := by simp [h]
  have hblock : text ++ 10 :: 0 :: slack = (text ++ [10]) ++ 0 :: slack := by simp
  rw [writeEntry, strcatNewline_eq h, ok_bind, hblock, strlen_block hnewline, ok_bind,
    loadAll_block]
  rfl

theorem writeEntry_strlen (h : 0 ∉ text) : writeEntry .strlen (text ++ 0 :: s :: slack) =
    .ok (text ++ 10 :: 0 :: slack, text) := by
  rw [writeEntry, strlen_block h, ok_bind, strcatNewline_eq h, ok_bind, loadAll_block]
  rfl

theorem not_inBounds_writeEntry (h : 0 ∉ text) (order : Order) :
    ¬ InBounds (writeEntry order (text ++ [0])) := by
  cases order with
  | strcat =>
    rw [writeEntry, inBounds_bind]
    rintro ⟨entry, hentry, -⟩
    exact not_inBounds_strcatNewline h ⟨entry, hentry⟩
  | strlen =>
    rw [writeEntry, strlen_block h, ok_bind, inBounds_bind]
    rintro ⟨entry, hentry, -⟩
    exact not_inBounds_strcatNewline h ⟨entry, hentry⟩

end Write

/-! ## The whole history -/

section Whole

variable {history : List Entry} {order : Order}

/-- What is written of an entry. -/
def Order.written : Order → Entry → List UInt8
  | .strcat, e => e.line.text ++ [10]
  | .strlen, e => e.line.text

theorem writeEntry_block {e : Entry} (h : e.slack ≠ []) (order : Order) :
    ∃ block, writeEntry order e.block = .ok (block, order.written e) := by
  obtain ⟨s, slack, hslack⟩ := List.exists_cons_of_ne_nil h
  rw [Entry.block, hslack]
  cases order with
  | strcat => exact ⟨_, writeEntry_strcat e.zero_not_mem⟩
  | strlen => exact ⟨_, writeEntry_strlen e.zero_not_mem⟩

/-- With a spare byte behind each entry, the writes stay within the entries. -/
theorem writeHistory_slack (h : ∀ e ∈ history, e.slack ≠ []) (order : Order) :
    ∃ blocks, writeHistory order (history.map Entry.block) =
      .ok (blocks, history.flatMap order.written) := by
  induction history with
  | nil => exact ⟨[], rfl⟩
  | cons e history ih =>
    obtain ⟨block, hblock⟩ := writeEntry_block (h e List.mem_cons_self) order
    obtain ⟨blocks, hblocks⟩ := ih fun e he => h e (List.mem_cons_of_mem _ he)
    refine ⟨block :: blocks, ?_⟩
    rw [List.map_cons, writeHistory, hblock, ok_bind, hblocks, ok_bind]
    rfl

theorem writeHistory_ok {blocks : List Block} {file : List UInt8}
    (h : writeHistory order (history.map Entry.block) = .ok (blocks, file)) :
    ∀ e ∈ history, e.slack ≠ [] := by
  induction history generalizing blocks file with
  | nil => simp
  | cons e history ih =>
    obtain ⟨first, hfirst, hrest⟩ := bind_eq_ok.mp h
    obtain ⟨rest, hhistory, -⟩ := bind_eq_ok.mp hrest
    intro e' he'
    rcases List.mem_cons.mp he' with rfl | he'
    · intro hslack
      rw [Entry.block, hslack] at hfirst
      exact not_inBounds_writeEntry e'.zero_not_mem order ⟨first, hfirst⟩
    · exact ih hhistory e' he'

theorem yeet_cString_line (e : Entry) : yeet (Parser.cString (e.line.text ++ [10])) = e.line := by
  have hzero : 0 ∉ e.line.text ++ [10] := by simp [e.zero_not_mem]
  have hstring : Parser.cString (e.line.text ++ [10]) = e.line.text ++ [10] :=
    takeWhile_ne_iff.mpr hzero
  rw [hstring, yeet_newline]

/-- A file of lines is read back line by line. -/
theorem readHistory_lines (history : List Entry) :
    readHistory [] (history.flatMap Order.strcat.written) = history.map Entry.line := by
  rw [readHistory, List.nil_append]
  induction history with
  | nil => rfl
  | cons e history ih =>
    rw [List.flatMap_cons, Order.written, List.append_assoc, List.singleton_append,
      Parser.getlines_append e.line.newline_not_mem, List.map_cons, List.nil_append,
      yeet_cString_line, ih, List.map_cons]

/-- Without newlines the file is at most one line. -/
theorem length_readHistory {file : List UInt8} (h : 10 ∉ file) :
    (readHistory [] file).length ≤ 1 := by
  by_cases hnil : file = []
  · simp [hnil, readHistory, Parser.getlines]
  · simp [readHistory, Parser.getlines_last h hnil]

/-- The one entry without its newline is the last line of the file. -/
theorem readHistory_single (e : Entry) : readHistory [] e.line.text = [e.line] := by
  have hstring : Parser.cString e.line.text = e.line.text :=
    takeWhile_ne_iff.mpr e.zero_not_mem
  rw [readHistory, Parser.getlines_last e.line.newline_not_mem e.ne_nil, List.map_singleton,
    hstring, yeet_text]
  rfl

end Whole

/-- The history survives the file in either order exactly if it is empty or is one entry with a
spare byte behind its terminator. A copy made by `strdup` has none. -/
theorem roundTrips_iff (history : List Entry) :
    RoundTrips history ↔ history = [] ∨ ∃ e, history = [e] ∧ e.slack ≠ [] := by
  constructor
  · intro h
    obtain ⟨blocks, file, hwrite, hread⟩ := h .strlen
    have hslack := writeHistory_ok hwrite
    obtain ⟨blocks', hfile⟩ := writeHistory_slack hslack .strlen
    rw [hwrite] at hfile
    obtain ⟨-, rfl⟩ := Prod.mk.inj (Except.ok.inj hfile)
    have hnewline : 10 ∉ history.flatMap Order.strlen.written := by
      simp only [List.mem_flatMap, not_exists, not_and]
      exact fun e _ => e.line.newline_not_mem
    have hlength := length_readHistory hnewline
    rw [hread, List.length_map] at hlength
    cases history with
    | nil => exact .inl rfl
    | cons e rest =>
      obtain rfl : rest = [] := List.length_eq_zero_iff.mp (by simpa using hlength)
      exact .inr ⟨e, rfl, hslack e List.mem_cons_self⟩
  · rintro (rfl | ⟨e, rfl, hslack⟩) order
    · exact ⟨[], [], rfl, rfl⟩
    · obtain ⟨blocks, hwrite⟩ := @writeHistory_slack [e] (by simpa using hslack) order
      refine ⟨blocks, _, hwrite, ?_⟩
      cases order with
      | strcat => exact readHistory_lines [e]
      | strlen => simpa [Order.written] using readHistory_single e

/-- The entry `ls` in the three bytes that `strdup` allocates: the terminator behind the newline
would be the fourth. -/
theorem not_roundTrips_ls :
    ¬ RoundTrips [⟨⟨[108, 115], by decide⟩, [], by decide, by decide⟩] := by
  intro h
  obtain ⟨blocks, file, hwrite, -⟩ := h .strcat
  have herror : writeHistory .strcat [[108, 115, 0]] = .error 3 := rfl
  exact absurd (herror.symm.trans hwrite) (by simp)

end Cs241.Shell
