import Cs241.Foundation.Delimiters
import Cs241.Net.Requests

/-!
# The header of a request

The parser compares three bytes, skips as many as the rest of the word has and
reads up to a newline. This is which streams it takes for a header, and what it
makes of the bytes that the client writes.
-/
namespace Cs241.Net

open Foundation

variable {env : Env} {input : Source UInt8} {cmd : Verb} {name skipped tail : List UInt8}

/-! ## Lines -/

/-- The bytes that `get_cmd` compares. -/
def word : Verb → List UInt8
  | .get => [71, 69, 84]
  | .put => [80, 85, 84]
  | .delete => [68, 69, 76]
  | .list => [76, 73, 83]

/-- The bytes that the client writes where `get_cmd` skips some. -/
def blank : Verb → List UInt8
  | .get | .put => [32]
  | .delete => [69, 84, 69, 32]
  | .list => []

@[simp] theorem length_word (cmd : Verb) : (word cmd).length = 3 := by
  cases cmd <;> rfl

theorem word_injective {cmd cmd' : Verb} (h : word cmd = word cmd') : cmd = cmd' := by
  cases cmd <;> cases cmd' <;> first | rfl | simp [word] at h

/-- A stream up to the first newline that is not skipped. -/
structure Line (cmd : Verb) (skipped name tail bytes : List UInt8) : Prop where
  eq : bytes = word cmd ++ (skipped ++ (name ++ 10 :: tail))
  length : skipped.length = (blank cmd).length
  no_newline : 10 ∉ name

theorem Line.unique {cmd' : Verb} {skipped' name' tail' bytes : List UInt8}
    (h : Line cmd skipped name tail bytes) (h' : Line cmd' skipped' name' tail' bytes) :
    cmd = cmd' ∧ skipped = skipped' ∧ name = name' ∧ tail = tail' := by
  obtain ⟨hword, hrest⟩ := List.append_inj (h.eq.symm.trans h'.eq) (by simp)
  obtain rfl := word_injective hword
  obtain ⟨hskipped, hline⟩ := List.append_inj hrest (h.length.trans h'.length.symm)
  have hname : name = name' := by
    rw [← takeWhile_ne_cons h.no_newline tail, hline, takeWhile_ne_cons h'.no_newline tail']
  subst hname
  exact ⟨rfl, hskipped, rfl, (List.cons.inj (List.append_cancel_left hline)).2⟩

/-- The buffer has room for the name and its newline, after which one more byte is compared. -/
def Fits (env : Env) (name : Name) : Prop :=
  name.length ≤ 255 ∧ (name.length = 255 → env.pastName = 0)

/-! ## The parser on a line -/

theorem cstring_eq_self_iff {bytes : List UInt8} : cstring bytes = bytes ↔ 0 ∉ bytes :=
  takeWhile_ne_iff

/-- A read of bytes that are known to come. -/
theorem read_append {tail : List UInt8} (bytes : List UInt8) (h : input.rest = bytes ++ tail) :
    ∃ input', readAllFromSocket input bytes.length = (bytes.length, bytes, input') ∧
      input'.rest = tail := by
  obtain ⟨input', hread, hrest⟩ := read_of_le (show bytes.length ≤ input.rest.length by simp [h])
  refine ⟨input', ?_, ?_⟩
  · rw [hread, h, List.take_left]
  · rw [hrest, h, List.drop_left]

theorem getCmd_word (h : input.rest = word cmd ++ tail) : ∃ input',
    getCmd input = (some cmd, input') ∧ input'.rest = tail.drop (blank cmd).length := by
  obtain ⟨a, hread, hrest⟩ := read_append (word cmd) h
  rw [length_word] at hread
  unfold getCmd
  rw [hread]
  cases cmd with
  | get => exact ⟨_, rfl, by rw [Source.readAll_rest, hrest]; rfl⟩
  | put => exact ⟨_, rfl, by rw [Source.readAll_rest, hrest]; rfl⟩
  | delete => exact ⟨_, rfl, by rw [Source.readAll_rest, hrest]; rfl⟩
  | list => exact ⟨a, rfl, hrest⟩

/-- A verb is found in front of the bytes that spell it only. -/
theorem getCmd_some {input' : Source UInt8} (h : getCmd input = (some cmd, input')) :
    ∃ tail, input.rest = word cmd ++ tail ∧ input'.rest = tail.drop (blank cmd).length := by
  have hword : input.rest.take 3 = word cmd := by
    unfold getCmd at h
    rw [← Source.readAll_placed 3 input]
    dsimp only at h
    split_ifs at h with hput hget hdelete hlist
    · obtain rfl := Option.some.inj (Prod.mk.inj h).1
      exact hput
    · obtain rfl := Option.some.inj (Prod.mk.inj h).1
      exact hget
    · obtain rfl := Option.some.inj (Prod.mk.inj h).1
      exact hdelete
    · obtain rfl := Option.some.inj (Prod.mk.inj h).1
      exact hlist
    · cases (Prod.mk.inj h).1
  have hrest : input.rest = word cmd ++ input.rest.drop 3 := by
    rw [← hword, List.take_append_drop]
  obtain ⟨a, ha, hdrop⟩ := getCmd_word hrest
  obtain rfl : a = input' := congrArg Prod.snd (ha.symm.trans h)
  exact ⟨_, hrest, hdrop⟩

theorem fileNameLoop_line :
    ∀ (name : Name) {left : ℕ} {buf tail : List UInt8} {input : Source UInt8},
    input.rest = name ++ 10 :: tail → 10 ∉ name → name.length < left →
      (left = name.length + 1 → env.pastName = 0) →
      ∃ input', fileNameLoop env left buf input = (some (cstring (buf ++ name)), input') ∧
        input'.rest = tail
  | [], 0, _, _, _, _, _, hlen, _ => absurd hlen (Nat.not_lt_zero _)
  | [], left + 1, buf, tail, input, h, _, _, hpast => by
    obtain ⟨input', hread, hrest⟩ := read_append [10] h
    unfold fileNameLoop
    rw [show readAllFromSocket input 1 = (1, [10], input') from hread]
    dsimp only
    rw [if_pos ⟨rfl, fun hleft => hpast (by simp [hleft])⟩, List.append_nil]
    exact ⟨input', rfl, hrest⟩
  | _ :: _, 0, _, _, _, _, _, hlen, _ => absurd hlen (Nat.not_lt_zero _)
  | b :: name, left + 1, buf, tail, input, h, hnew, hlen, hpast => by
    obtain ⟨hb, hname⟩ : 10 ≠ b ∧ 10 ∉ name := by simpa using hnew
    obtain ⟨input', hread, hrest⟩ := read_append [b] h
    unfold fileNameLoop
    rw [show readAllFromSocket input 1 = (1, [b], input') from hread]
    dsimp only
    rw [if_neg (by simp [Ne.symm hb])]
    obtain ⟨input'', hloop, hrest'⟩ := fileNameLoop_line name hrest hname
      (by simpa using hlen) (fun h => hpast (by simp [h]))
    refine ⟨input'', hloop.trans ?_, hrest'⟩
    rw [List.headD_cons, List.append_assoc, List.singleton_append]

theorem getFileName_line (hfits : Fits env name) (hnew : 10 ∉ name)
    (h : input.rest = name ++ 10 :: tail) :
    ∃ input', getFileName env input = (some (cstring name), input') ∧ input'.rest = tail := by
  obtain ⟨hlen, hpast⟩ := hfits
  exact fileNameLoop_line name h hnew (by omega) (fun h => hpast (by omega))

/-- The loop finds a newline, not just any end. -/
theorem fileNameLoop_some {left : ℕ} {buf : List UInt8}
    (h : (fileNameLoop env left buf input).1.isSome) : ∃ name tail,
      input.rest = name ++ 10 :: tail ∧ 10 ∉ name ∧ name.length < left ∧
        (left = name.length + 1 → env.pastName = 0) := by
  induction left generalizing buf input with
  | zero => simp [fileNameLoop] at h
  | succ left ih =>
    unfold fileNameLoop at h
    dsimp only at h
    split_ifs at h with hstop
    · obtain ⟨hten, hpast⟩ := hstop
      rw [Source.readAll_placed] at hten
      refine ⟨[], input.rest.drop 1, ?_, by simp, by simp, ?_⟩
      · exact (List.take_append_drop 1 input.rest).symm.trans (by rw [hten]; rfl)
      · intro hleft
        exact hpast (by simpa using hleft)
    · obtain ⟨name, tail, hrest, hnew, hlen, hpast⟩ := ih h
      rw [Source.readAll_rest] at hrest
      cases hinput : input.rest with
      | nil => simp [hinput] at hrest
      | cons b bytes =>
        obtain rfl : bytes = name ++ 10 :: tail := by simpa [hinput] using hrest
        have hb : b ≠ 10 := by
          rintro rfl
          -- The newline was not taken, so that the buffer is full.
          have hzero : left = 0 := by
            by_contra hne
            exact hstop ⟨by rw [Source.readAll_placed, hinput]; rfl, fun h => absurd h hne⟩
          omega
        refine ⟨b :: name, tail, rfl, ?_, by simpa using hlen, ?_⟩
        · simpa using ⟨hb.symm, hnew⟩
        · intro hleft
          exact hpast (by simpa using hleft)

theorem getFileName_some (h : (getFileName env input).1.isSome) :
    ∃ name tail, input.rest = name ++ 10 :: tail ∧ 10 ∉ name ∧ Fits env name := by
  obtain ⟨name, tail, hrest, hnew, hlen, hpast⟩ := fileNameLoop_some h
  exact ⟨name, tail, hrest, hnew, by omega, fun h => hpast (by omega)⟩

/-- What the parser makes of a line. -/
theorem processHeader_line {bytes : List UInt8} (hline : Line cmd skipped name tail bytes)
    (hfits : Fits env name) (plan : List Event) : ∃ input', input'.rest = tail ∧
      processHeader env ⟨bytes, plan⟩ = if cmd = .put then
        (some ⟨cmd, cstring name, (getMessageSize input').1⟩, (getMessageSize input').2)
      else (some ⟨cmd, cstring name, 0⟩, input') := by
  obtain ⟨a, ha, hrest⟩ := getCmd_word (show (⟨bytes, plan⟩ : Source UInt8).rest = _ from hline.eq)
  rw [← hline.length, List.drop_left] at hrest
  obtain ⟨b, hb, hrest'⟩ := getFileName_line hfits hline.no_newline hrest
  refine ⟨b, hrest', ?_⟩
  unfold processHeader
  rw [ha]
  dsimp only
  rw [hb]

theorem processHeader_isSome : (processHeader env input).1.isSome ↔
    ∃ cmd skipped name tail, Line cmd skipped name tail input.rest ∧ Fits env name := by
  constructor
  · intro h
    unfold processHeader at h
    cases hcmd : getCmd input with
    | mk found a =>
      rw [hcmd] at h
      cases found with
      | none => simp at h
      | some cmd =>
        obtain ⟨rest, hinput, hrest⟩ := getCmd_some hcmd
        have hname : (getFileName env a).1.isSome := by
          dsimp only at h
          cases hfile : getFileName env a with
          | mk found b =>
            rw [hfile] at h
            cases found with
            | none => simp at h
            | some fileName => rfl
        obtain ⟨name, tail, hline, hnew, hfits⟩ := getFileName_some hname
        have hdrop := hrest.symm.trans hline
        refine ⟨cmd, rest.take (blank cmd).length, name, tail, ⟨?_, ?_, hnew⟩, hfits⟩
        · rw [← hdrop, List.take_append_drop, hinput]
        · have hlen := congrArg List.length hdrop
          simp only [List.length_drop, List.length_append, List.length_cons] at hlen
          rw [List.length_take]
          omega
  · rintro ⟨cmd, skipped, name, tail, hline, hfits⟩
    obtain ⟨a, -, hheader⟩ := processHeader_line hline hfits input.plan
    rw [hheader]
    split_ifs <;> rfl

/-- A name for which the buffer has no room. -/
theorem processHeader_long {bytes : List UInt8} (hline : Line cmd skipped name tail bytes)
    (hlong : ¬ Fits env name) (plan : List Event) : (processHeader env ⟨bytes, plan⟩).1 = none := by
  rw [← Option.not_isSome_iff_eq_none, processHeader_isSome]
  rintro ⟨cmd', skipped', name', tail', hline', hfits⟩
  obtain ⟨-, -, rfl, -⟩ := hline.unique hline'
  exact hlong hfits

/-! ## What the client writes -/

/-- What the client writes before the contents of a file. -/
def clientHeader (cmd : Verb) (remote : Name) (size : ℕ) : List UInt8 :=
  message cmd remote ++ if cmd = .put then wordBytes size else []

/-- The name in the line of a request; for LIST this is what follows the three bytes. -/
def lineName (cmd : Verb) (remote : Name) : Name := if cmd = .list then [84] else remote

theorem message_line (hnew : 10 ∉ name) (cmd : Verb) (tail : List UInt8) :
    Line cmd (blank cmd) (lineName cmd name) tail (message cmd name ++ tail) := by
  refine ⟨?_, rfl, ?_⟩
  · cases cmd <;> simp [message, word, blank, lineName]
  · unfold lineName
    split_ifs
    · decide
    · exact hnew

/-- The parser finds in the bytes of a request what the client has put in, and reads no more. -/
def Understood (env : Env) (input : Source UInt8) (cmd : Verb) (name : Name) (size : ℕ)
    (tail : List UInt8) : Prop :=
  ∃ h input', processHeader env input = (some h, input') ∧ h.cmd = cmd ∧
    (cmd ≠ .list → h.fileName = name) ∧
    (cmd = .put → h.fileSize = size) ∧ input'.rest = tail

theorem getMessageSize_word {size : ℕ} (hsize : size < 2 ^ 64)
    (h : input.rest = wordBytes size ++ tail) :
    ∃ input', getMessageSize input = (size, input') ∧ input'.rest = tail := by
  obtain ⟨a, ha, hrest⟩ := read_append (wordBytes size) h
  refine ⟨a, ?_, hrest⟩
  unfold getMessageSize
  rw [show readAllFromSocket input 8 = (8, wordBytes size, a) from ha]
  exact congrArg (·, a) (ofWordBytes_wordBytes hsize)

theorem processHeader_client {size : ℕ} (hnew : 10 ∉ name) (hzero : 0 ∉ name)
    (hsize : size < 2 ^ 64) (hfits : Fits env (lineName cmd name)) (tail : List UInt8)
    (plan : List Event) : ∃ input', input'.rest = tail ∧
      processHeader env ⟨clientHeader cmd name size ++ tail, plan⟩ =
        (some ⟨cmd, lineName cmd name, if cmd = .put then size else 0⟩, input') := by
  rw [clientHeader, List.append_assoc]
  have hline := message_line hnew cmd ((if cmd = .put then wordBytes size else []) ++ tail)
  obtain ⟨a, hrest, hheader⟩ := processHeader_line hline hfits plan
  have hzero' : 0 ∉ lineName cmd name := by
    unfold lineName
    split_ifs
    · decide
    · exact hzero
  rw [cstring_eq_self_iff.mpr hzero'] at hheader
  by_cases hput : cmd = .put
  · simp only [if_pos hput] at hheader hrest ⊢
    obtain ⟨b, hb, hrest'⟩ := getMessageSize_word hsize hrest
    rw [hb] at hheader
    exact ⟨b, hrest', hheader⟩
  · simp only [if_neg hput] at hheader hrest ⊢
    exact ⟨a, hrest, hheader⟩

/-- The parser understands the client, except where a name of 255 bytes meets a byte other than
zero behind the buffer. -/
theorem understood_iff {size : ℕ} (hnew : 10 ∉ name) (hzero : 0 ∉ name)
    (hlen : name.length ≤ 255) (hsize : size < 2 ^ 64) (cmd : Verb) (tail : List UInt8)
    (plan : List Event) :
    Understood env ⟨clientHeader cmd name size ++ tail, plan⟩ cmd name size tail ↔
      cmd = .list ∨ name.length ≤ 254 ∨ env.pastName = 0 := by
  constructor
  · rintro ⟨h, input', hheader, -⟩
    by_contra hnot
    obtain ⟨hlist, hlong, hpast⟩ : cmd ≠ .list ∧ ¬ name.length ≤ 254 ∧ env.pastName ≠ 0 := by
      simpa [not_or] using hnot
    have hline := message_line hnew cmd ((if cmd = .put then wordBytes size else []) ++ tail)
    rw [← List.append_assoc, ← clientHeader, lineName, if_neg hlist] at hline
    have hlong : ¬ Fits env name := by
      intro hfits
      exact hpast (hfits.2 (by omega))
    have hnone := processHeader_long hline hlong plan
    rw [hheader] at hnone
    cases hnone
  · intro hwhen
    have hfits : Fits env (lineName cmd name) := by
      unfold lineName
      split_ifs with hlist
      · exact ⟨by decide, fun h => absurd h (by decide)⟩
      · refine ⟨hlen, ?_⟩
        intro hlong
        rcases hwhen with h | h | h
        · exact absurd h hlist
        · omega
        · exact h
    obtain ⟨a, hrest, hheader⟩ := processHeader_client hnew hzero hsize hfits tail plan
    exact ⟨_, a, hheader, rfl, fun h => if_neg h, fun h => if_pos h, hrest⟩

theorem understood_iff_put : Understood plainEnv
    ⟨clientHeader .put [97, 47, 98] (2 ^ 64 - 1) ++ [7], [.atMost 1, .interrupted]⟩ .put
      [97, 47, 98] (2 ^ 64 - 1) [7] :=
  (understood_iff (by decide) (by decide) (by decide) (by decide) .put [7] _).mpr
    (.inr (.inl (by decide)))

/-- The name has 255 bytes, and a byte other than zero lies behind the buffer. -/
theorem understood_long : ¬ ∀ (env : Env) (cmd : Verb) (name : Name) (size : ℕ)
    (tail : List UInt8) (plan : List Event), 10 ∉ name → 0 ∉ name → name.length ≤ 255 →
      size < 2 ^ 64 →
        Understood env ⟨clientHeader cmd name size ++ tail, plan⟩ cmd name size tail := by
  intro hall
  let env : Env := { plainEnv with pastName := 1 }
  have hmem : ∀ b : UInt8, b ≠ 97 → b ∉ List.replicate 255 97 := by
    intro b hb h
    exact hb (List.eq_of_mem_replicate h)
  have hnew := hmem 10 (by decide)
  obtain ⟨h, input', hheader, -⟩ := hall env .get (List.replicate 255 97) 0 [] [] hnew
    (hmem 0 (by decide)) List.length_replicate.le (by decide)
  have hlong : ¬ Fits env (List.replicate 255 97) := by
    intro hfits
    exact absurd (hfits.2 List.length_replicate) (by decide)
  have hline : Line .get (blank .get) (List.replicate 255 97) []
      (clientHeader .get (List.replicate 255 97) 0 ++ []) := by
    rw [clientHeader, if_neg (by decide), List.append_nil]
    exact message_line hnew .get []
  have hnone := processHeader_long hline hlong []
  rw [hheader] at hnone
  cases hnone

/-! ## The accepted streams -/

/-- A stream that begins with a request as the client writes it. -/
def WellFormed (bytes : List UInt8) : Prop :=
  ∃ cmd name tail, bytes = message cmd name ++ tail ∧
    (cmd ≠ .list → name.length ≤ 255 ∧ 10 ∉ name) ∧ (cmd = .put → 8 ≤ tail.length)

/-- The streams that are accepted by mistake, and those that are rejected by mistake. -/
inductive Misread (env : Env) (bytes : List UInt8) : Prop
  /-- A skipped byte is not the one of the word. -/
  | skipped {cmd : Verb} {skipped name tail : List UInt8} (hline : Line cmd skipped name tail bytes)
      (hfits : Fits env name) (hne : skipped ≠ blank cmd)
  /-- After `LIS` comes something else than the end of the word. -/
  | list {skipped name tail : List UInt8} (hline : Line .list skipped name tail bytes)
      (hfits : Fits env name) (hne : name ≠ [84])
  /-- The stream ends before or in the size. -/
  | size {skipped name tail : List UInt8} (hline : Line .put skipped name tail bytes)
      (hfits : Fits env name) (hshort : tail.length < 8)
  /-- A good request has a name of 255 bytes, and the byte behind the buffer is not zero. -/
  | long {cmd : Verb} {name tail : List UInt8} (hline : Line cmd (blank cmd) name tail bytes)
      (hcmd : cmd ≠ .list) (hlen : name.length = 255) (hpast : env.pastName ≠ 0)
      (hsize : cmd = .put → 8 ≤ tail.length)

theorem wellFormed_iff_line {bytes : List UInt8} : WellFormed bytes ↔
    ∃ cmd name tail, Line cmd (blank cmd) name tail bytes ∧ name.length ≤ 255 ∧
      (cmd = .list → name = [84]) ∧ (cmd = .put → 8 ≤ tail.length) := by
  constructor
  · rintro ⟨cmd, name, tail, rfl, hname, hsize⟩
    by_cases hlist : cmd = .list
    · subst hlist
      exact ⟨.list, [84], tail, ⟨rfl, rfl, by decide⟩, by decide, fun _ => rfl, hsize⟩
    · have hline := message_line (hname hlist).2 cmd tail
      rw [lineName, if_neg hlist] at hline
      exact ⟨cmd, name, tail, hline, (hname hlist).1, fun h => absurd h hlist, hsize⟩
  · rintro ⟨cmd, name, tail, hline, hlen, hlist, hsize⟩
    refine ⟨cmd, name, tail, ?_, fun _ => ⟨hlen, hline.no_newline⟩, hsize⟩
    rw [hline.eq]
    cases cmd with
    | list =>
      rw [hlist rfl]
      rfl
    | get => simp [message, word, blank]
    | put => simp [message, word, blank]
    | delete => simp [message, word, blank]

/-- The parser accepts the well-formed streams and no other, exactly outside of four kinds. -/
theorem accepts_iff (env : Env) (input : Source UInt8) :
    ((processHeader env input).1.isSome ↔ WellFormed input.rest) ↔ ¬ Misread env input.rest := by
  rw [processHeader_isSome, wellFormed_iff_line]
  constructor
  · intro hiff hmis
    cases hmis with
    | skipped hline hfits hne =>
      obtain ⟨cmd', name', tail', hline', -⟩ := hiff.mp ⟨_, _, _, _, hline, hfits⟩
      obtain ⟨rfl, h, -⟩ := hline.unique hline'
      exact hne h
    | list hline hfits hne =>
      obtain ⟨cmd', name', tail', hline', -, hlist, -⟩ := hiff.mp ⟨_, _, _, _, hline, hfits⟩
      obtain ⟨rfl, -, rfl, -⟩ := hline.unique hline'
      exact hne (hlist rfl)
    | size hline hfits hshort =>
      obtain ⟨cmd', name', tail', hline', -, -, hsize⟩ := hiff.mp ⟨_, _, _, _, hline, hfits⟩
      obtain ⟨rfl, -, -, rfl⟩ := hline.unique hline'
      exact absurd (hsize rfl) (by omega)
    | long hline hcmd hlen hpast hsize =>
      obtain ⟨cmd', skipped', name', tail', hline', hfits⟩ :=
        hiff.mpr ⟨_, _, _, hline, by omega, fun h => absurd h hcmd, hsize⟩
      obtain ⟨-, -, rfl, -⟩ := hline.unique hline'
      exact hpast (hfits.2 hlen)
  · intro hmis
    constructor
    · rintro ⟨cmd, skipped, name, tail, hline, hfits⟩
      have hblank : skipped = blank cmd := by
        by_contra hne
        exact hmis (.skipped hline hfits hne)
      subst hblank
      refine ⟨cmd, name, tail, hline, hfits.1, ?_, ?_⟩
      · rintro rfl
        by_contra hne
        exact hmis (.list hline hfits hne)
      · rintro rfl
        by_contra hshort
        exact hmis (.size hline hfits (by omega))
    · rintro ⟨cmd, name, tail, hline, hlen, hlist, hsize⟩
      refine ⟨cmd, _, name, tail, hline, hlen, ?_⟩
      intro hlong
      by_contra hpast
      have hcmd : cmd ≠ .list := by
        intro h
        rw [hlist h] at hlong
        exact absurd hlong (by decide)
      exact hmis (.long hline hcmd hlong hpast hsize)

/-- A request to put a file is accepted though the stream ends in the size. -/
theorem accepts_truncated : ¬ ∀ (env : Env) (input : Source UInt8),
    (processHeader env input).1.isSome ↔ WellFormed input.rest := by
  intro hall
  have hline : Line .put [32] [97] [1, 2, 3] [80, 85, 84, 32, 97, 10, 1, 2, 3] :=
    ⟨rfl, rfl, by decide⟩
  have hsome : (processHeader plainEnv ⟨[80, 85, 84, 32, 97, 10, 1, 2, 3], []⟩).1.isSome :=
    processHeader_isSome.mpr ⟨_, _, _, _, hline, by decide, fun h => absurd h (by decide)⟩
  obtain ⟨cmd, name, tail, hline', -, -, hsize⟩ := wellFormed_iff_line.mp ((hall _ _).mp hsome)
  obtain ⟨rfl, -, -, rfl⟩ := hline.unique hline'
  exact absurd (hsize rfl) (by decide)

end Cs241.Net
