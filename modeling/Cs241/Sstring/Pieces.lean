import Cs241.Foundation.Delimiters
import Cs241.Sstring.Copies
import Cs241.Sstring.Model

/-!
# The pieces of a string

`sstring_split` collects a piece in one string that it clears and uses again. What it has
collected so far, together with the list model of the rest, does not change from round to
round, so that the pieces are those of the list model.
-/
namespace Cs241.Sstring

open Foundation Cs241.Vector

/-- A string of `sstring.h` whose characters come from a string of C. -/
structure SString where
  string : Vec UInt8
  room : string.size ≤ string.capacity
  zero_not_mem : 0 ∉ contents string

/-- The variables of `sstring_split`. -/
structure Splitting where
  this : Vec UInt8
  split : Vec (List UInt8)
  sstr : Vec UInt8

variable (env : Callbacks) (toCstr : Vec UInt8 → Option (List UInt8)) (delimiter : UInt8)

/-- `vector_push_back(split, sstring_to_cstr(sstr))`. The copy constructor of the strings copies up
to the terminator. -/
def pushPiece (st : Splitting) : Option Splitting :=
  (toCstr st.sstr).bind fun cstr =>
    (vectorPushBack env.string st.split (cstr.takeWhile (· ≠ 0))).map fun split =>
      { st with split := split }

/-- The body of the loop of `sstring_split`. -/
def splitRound (i : ℕ) (st : Splitting) : Option Splitting :=
  if st.this.array i = delimiter then
    (pushPiece env toCstr st).bind fun st =>
      (vectorClear env.char st.sstr).map fun sstr => { st with sstr := sstr }
  else
    (vectorPushBack env.char st.sstr (st.this.array i)).map fun sstr => { st with sstr := sstr }

/-- `for (; i < vector_size(this->string); i++)`, for `k` rounds. -/
def splitRounds : ℕ → ℕ → Splitting → Option Splitting
  | 0, _, st => some st
  | k + 1, i, st => (splitRound env toCstr delimiter i st).bind fun st => splitRounds k (i + 1) st

def sstringSplit (this : Vec UInt8) : Option Splitting :=
  (splitRounds env toCstr delimiter this.size 0
    { this := this, split := vectorCreate env.string, sstr := sstringCreate env }).bind
      (pushPiece env toCstr)

/-! ## The list model -/

section Lists

variable {delimiter : UInt8} {sstr this piece : List UInt8}

theorem not_mem_splitLoop (hsstr : delimiter ∉ sstr) (h : piece ∈ splitLoop delimiter sstr this) :
    delimiter ∉ piece := by
  induction this generalizing sstr with
  | nil => exact List.mem_singleton.mp h ▸ hsstr
  | cons c this ih =>
    rw [splitLoop] at h
    split_ifs at h with hc
    · rcases List.mem_cons.mp h with rfl | h
      · exact hsstr
      · exact ih List.not_mem_nil h
    · exact ih (by simpa [hsstr] using Ne.symm hc) h

theorem length_splitLoop : (splitLoop delimiter sstr this).length = this.count delimiter + 1 := by
  induction this generalizing sstr with
  | nil => rfl
  | cons c this ih =>
    rw [splitLoop]
    split_ifs with hc
    · rw [List.length_cons, ih, hc, List.count_cons_self]
    · rw [ih, List.count_cons_of_ne hc]

/-- The loop collects what the library collects in reverse. -/
theorem splitLoop_eq_splitOnPPrepend :
    splitLoop delimiter sstr this = this.splitOnPPrepend (· == delimiter) sstr.reverse := by
  induction this generalizing sstr with
  | nil => simp [splitLoop]
  | cons c this ih =>
    have hnil := @ih []
    simp only [List.reverse_nil, List.splitOnPPrepend_nil_right] at hnil
    rw [splitLoop, List.splitOnPPrepend_cons_eq_if, List.reverse_reverse, hnil, ih]
    simp

theorem split_eq_splitOn : split this delimiter = this.splitOn delimiter :=
  splitLoop_eq_splitOnPPrepend

end Lists

/-! ## A round -/

section Round

variable {env toCstr delimiter} {st st' : Splitting} {i k : ℕ}

/-- `sstring_to_cstr` gives a correctly terminated copy. -/
def Terminated (toCstr : Vec UInt8 → Option (List UInt8)) : Prop :=
  ∀ v, 0 ∉ contents v → toCstr v = some (contents v ++ [0])

/-- The vectors have room, the current piece has no terminator, and neither holds more than `i`. -/
structure Collecting (this : Vec UInt8) (i : ℕ) (st : Splitting) : Prop where
  this_eq : st.this = this
  zero_not_mem : 0 ∉ contents st.sstr
  split_room : st.split.size ≤ st.split.capacity
  sstr_room : st.sstr.size ≤ st.sstr.capacity
  split_size : st.split.size ≤ i
  sstr_size : st.sstr.size ≤ i

/-- The pieces so far and those of the list model for the rest. -/
def pieces (delimiter : UInt8) (i : ℕ) (st : Splitting) : List (List UInt8) :=
  contents st.split ++ splitLoop delimiter (contents st.sstr) ((contents st.this).drop i)

theorem drop_contents {v : Vec UInt8} (hi : i < v.size) :
    (contents v).drop i = v.array i :: (contents v).drop (i + 1) := by
  rw [List.drop_eq_getElem_cons (by simpa using hi)]
  simp [contents]

theorem vectorClear_contents {α : Type*} {e : Vector.Env α} {v v' : Vec α}
    (hv : v.size ≤ v.capacity) (h : vectorClear e v = some v') :
    contents v' = [] ∧ v'.size = 0 := by
  obtain ⟨hsize, -, -, -⟩ := vectorResize_spec hv h
  exact ⟨List.length_eq_zero_iff.mp (by simpa using hsize), hsize⟩

theorem pushPiece_spec (hcstr : Terminated toCstr) {this : Vec UInt8}
    (hst : Collecting this i st) (h : pushPiece env toCstr st = some st') :
    st'.this = st.this ∧ st'.sstr = st.sstr ∧
      contents st'.split = contents st.split ++ [contents st.sstr] ∧
      st'.split.size ≤ st'.split.capacity := by
  rw [pushPiece, hcstr _ hst.zero_not_mem, Option.bind_some,
    takeWhile_ne_cons hst.zero_not_mem] at h
  obtain ⟨split, hpush, rfl⟩ := Option.map_eq_some_iff.mp h
  exact ⟨rfl, rfl, vectorPushBack_contents env.string_copies hst.split_room hpush⟩

theorem pushPiece_returns (env : Callbacks) (hcstr : Terminated toCstr) {this : Vec UInt8}
    (hst : Collecting this i st) (hi : i + 1 < 2 ^ 60) :
    ∃ st', pushPiece env toCstr st = some st' := by
  have hsplit := hst.split_size
  obtain ⟨split, hpush⟩ := vectorPushBack_returns env.string
    ((contents st.sstr ++ [0]).takeWhile (· ≠ 0)) (v := st.split) (by omega)
  exact ⟨_, by rw [pushPiece, hcstr _ hst.zero_not_mem, Option.bind_some, hpush]; rfl⟩

/-- A round consumes the character `i`. -/
theorem splitRound_spec (hcstr : Terminated toCstr) {this : Vec UInt8} (hthis : 0 ∉ contents this)
    (hi : i < this.size) (hst : Collecting this i st)
    (h : splitRound env toCstr delimiter i st = some st') :
    Collecting this (i + 1) st' ∧ pieces delimiter (i + 1) st' = pieces delimiter i st := by
  have hsplit_size := hst.split_size
  have hsstr_size := hst.sstr_size
  have hdrop := drop_contents hi
  obtain rfl := hst.this_eq
  rw [splitRound] at h
  split_ifs at h with hc
  · obtain ⟨u, hpush, h⟩ := Option.bind_eq_some_iff.mp h
    obtain ⟨hthis_u, hsstr_u, hsplit_u, hroom_u⟩ := pushPiece_spec hcstr hst hpush
    obtain ⟨sstr, hclear, rfl⟩ := Option.map_eq_some_iff.mp h
    obtain ⟨hnil, hsize⟩ := vectorClear_contents (hsstr_u ▸ hst.sstr_room) hclear
    have hlength := congrArg List.length hsplit_u
    simp only [length_contents, List.length_append, List.length_singleton] at hlength
    have hcount : u.split.size ≤ i + 1 := by omega
    refine ⟨⟨hthis_u, by simp [hnil], hroom_u, hsize.le.trans (Nat.zero_le _), hcount,
      hsize.le.trans (Nat.zero_le _)⟩, ?_⟩
    simp only [pieces, hthis_u, hsplit_u, hnil, hdrop]
    rw [splitLoop, if_pos hc, List.append_assoc, List.singleton_append]
  · obtain ⟨sstr, hpush, rfl⟩ := Option.map_eq_some_iff.mp h
    obtain ⟨hcontents, hroom⟩ := vectorPushBack_contents env.char_copies hst.sstr_room hpush
    have hlength := congrArg List.length hcontents
    simp only [length_contents, List.length_append, List.length_singleton] at hlength
    have hne := (array_ne_zero hthis hi).symm
    have hcount : sstr.size ≤ i + 1 := by omega
    refine ⟨⟨rfl, by simp [hcontents, hst.zero_not_mem, hne], hst.split_room, hroom,
      hsplit_size.trans (Nat.le_succ i), hcount⟩, ?_⟩
    simp only [pieces, hcontents, hdrop]
    rw [splitLoop, if_neg hc]

theorem splitRound_returns (env : Callbacks) (delimiter : UInt8) (hcstr : Terminated toCstr)
    {this : Vec UInt8} (hi : i + 1 < 2 ^ 60) (hst : Collecting this i st) :
    ∃ st', splitRound env toCstr delimiter i st = some st' := by
  have hsstr_size := hst.sstr_size
  rw [splitRound]
  split_ifs with hc
  · obtain ⟨u, hpush⟩ := pushPiece_returns env hcstr hst hi
    obtain ⟨sstr, hclear, -⟩ := vectorResize_returns env.char u.sstr (n := 0) (by norm_num)
    exact ⟨_, by rw [hpush, Option.bind_some, vectorClear, hclear]; rfl⟩
  · obtain ⟨sstr, hpush⟩ := vectorPushBack_returns env.char (st.this.array i) (v := st.sstr)
      (by omega)
    exact ⟨_, by rw [hpush]; rfl⟩

theorem splitRounds_spec (hcstr : Terminated toCstr) {this : Vec UInt8} (hthis : 0 ∉ contents this)
    (hi : i + k = this.size) (hst : Collecting this i st)
    (h : splitRounds env toCstr delimiter k i st = some st') :
    Collecting this this.size st' ∧ pieces delimiter this.size st' = pieces delimiter i st := by
  induction k generalizing i st with
  | zero =>
    obtain rfl : i = this.size := hi
    obtain rfl := Option.some.inj h
    exact ⟨hst, rfl⟩
  | succ k ih =>
    obtain ⟨u, hround, hrest⟩ := Option.bind_eq_some_iff.mp h
    obtain ⟨hu, hpieces⟩ := splitRound_spec hcstr hthis (by omega) hst hround
    obtain ⟨hst', hpieces'⟩ := ih (by omega) hu hrest
    exact ⟨hst', hpieces'.trans hpieces⟩

theorem splitRounds_returns (env : Callbacks) (delimiter : UInt8) (hcstr : Terminated toCstr)
    {this : Vec UInt8} (hthis : 0 ∉ contents this) (hi : i + k = this.size)
    (hsize : this.size < 2 ^ 60) (hst : Collecting this i st) :
    ∃ st', splitRounds env toCstr delimiter k i st = some st' := by
  induction k generalizing i st with
  | zero => exact ⟨st, rfl⟩
  | succ k ih =>
    obtain ⟨u, hround⟩ := splitRound_returns env delimiter hcstr (i := i) (by omega)
      hst
    obtain ⟨hu, -⟩ := splitRound_spec hcstr hthis (by omega) hst hround
    obtain ⟨st', h⟩ := ih (by omega) hu
    exact ⟨st', by rw [splitRounds, hround]; exact h⟩

end Round

/-! ## The whole string -/

section Whole

variable {env toCstr delimiter}

theorem collecting_create (env : Callbacks) (this : Vec UInt8) : Collecting this 0
    { this := this, split := vectorCreate env.string, sstr := sstringCreate env } :=
  ⟨rfl, List.not_mem_nil, Nat.zero_le _, Nat.zero_le _, le_rfl, le_rfl⟩

/-- The pieces are those of the list model. -/
theorem sstringSplit_contents (hcstr : Terminated toCstr) {this : SString} {out : Splitting}
    (h : sstringSplit env toCstr delimiter this.string = some out) :
    out.this = this.string ∧ contents out.split = split (contents this.string) delimiter := by
  obtain ⟨st, hrounds, hpush⟩ := Option.bind_eq_some_iff.mp h
  obtain ⟨hst, hpieces⟩ := splitRounds_spec hcstr this.zero_not_mem (Nat.zero_add _)
    (collecting_create env this.string) hrounds
  obtain ⟨hthis, -, hsplit, -⟩ := pushPiece_spec hcstr hst hpush
  have hdrop : (contents st.this).drop this.string.size = [] := by simp [hst.this_eq]
  rw [pieces, hdrop, splitLoop] at hpieces
  exact ⟨hthis.trans hst.this_eq, hsplit.trans hpieces⟩

theorem sstringSplit_returns (hcstr : Terminated toCstr) {this : SString}
    (hsize : this.string.size + 1 < 2 ^ 60) :
    ∃ out, sstringSplit env toCstr delimiter this.string = some out := by
  obtain ⟨st, hrounds⟩ := splitRounds_returns env delimiter hcstr this.zero_not_mem
    (Nat.zero_add _) (by omega) (collecting_create env this.string)
  obtain ⟨hst, -⟩ := splitRounds_spec hcstr this.zero_not_mem (Nat.zero_add _)
    (collecting_create env this.string) hrounds
  obtain ⟨out, hpush⟩ := pushPiece_returns env hcstr hst hsize
  exact ⟨out, by rw [sstringSplit, hrounds]; exact hpush⟩

/-- The pieces have no delimiter, are one more than the delimiters, and joined by the delimiter
they are the string, which stays as it is. -/
theorem sstringSplit_joins (env : Callbacks) (hcstr : Terminated toCstr) (this : SString)
    (delimiter : UInt8) :
    (∀ out, sstringSplit env toCstr delimiter this.string = some out →
      out.this = this.string ∧ (∀ piece ∈ contents out.split, delimiter ∉ piece) ∧
        (contents out.split).length = (contents this.string).count delimiter + 1 ∧
        [delimiter].intercalate (contents out.split) = contents this.string) ∧
    (this.string.size + 1 < 2 ^ 60 →
      ∃ out, sstringSplit env toCstr delimiter this.string = some out) := by
  refine ⟨fun out h => ?_, sstringSplit_returns hcstr⟩
  obtain ⟨hthis, hsplit⟩ := sstringSplit_contents hcstr h
  rw [hsplit]
  refine ⟨hthis, fun piece => not_mem_splitLoop List.not_mem_nil, length_splitLoop, ?_⟩
  rw [split_eq_splitOn, List.intercalate_splitOn]

theorem terminated_sstringToCstr : Terminated (sstringToCstr fun _ => 0) :=
  fun _ hv => (sstringToCstr_iff _ hv).mpr rfl

end Whole

/-- The string of a delimiter and a letter. -/
def delimited : SString where
  string := { array := fun i => if i = 0 then 44 else 97, size := 2, capacity := 8, log := [] }
  room := by norm_num
  zero_not_mem := by decide

/-- An empty piece comes before the delimiter. -/
theorem sstringSplit_joins_delimited : ∃ out,
    sstringSplit copying (sstringToCstr fun _ => 0) 44 delimited.string = some out ∧
      [44].intercalate (contents out.split) = contents delimited.string := by
  obtain ⟨hjoins, hreturns⟩ := sstringSplit_joins copying terminated_sstringToCstr delimited 44
  obtain ⟨out, h⟩ := hreturns (by decide)
  obtain ⟨-, -, -, hjoined⟩ := hjoins out h
  exact ⟨out, h, hjoined⟩

end Cs241.Sstring
