import Cs241.Foundation.Delimiters
import Cs241.Net.Buffers

/-!
# Where the buffer of the client is too small

A string is read from `buf` without a terminator, or what is read does not fit. This depends on the
size of the request and on the bytes of the answer, not on the pieces in which they come.
-/
namespace Cs241.Net.Buffers

open Foundation

/-- What the client is called with, what it runs on and what is answered. -/
structure Session where
  machine : Machine
  command : Verb
  remote : Name
  /-- The argument is a string. -/
  remote_no_zero : (0 : UInt8) ∉ remote
  content : Option (List UInt8)
  answer : Source UInt8

def Session.run (s : Session) (output : Sink UInt8) : Checked (Outcome × Sink UInt8) :=
  main s.machine s.answer output s.command s.remote s.content

/-! ## The answers that fit -/

section Answers

variable (m : Machine) (size : ℕ) (bytes : List UInt8)

/-- The text that `check_error` reads. -/
def errorText : List UInt8 := (bytes.drop 6).take 1024

/-- An answer to a request of `size` bytes that does not begin with `ok`: there is a zero behind
what is printed of it, and there is one behind the text of an error. -/
def ErrorFits : Prop :=
  (size = 6 → bytes.length < 6 ∨ (0 : UInt8) ∈ bytes.take 6) ∧
    (bytes.take 6 = error → (errorText bytes).length ≤ size ∧
      ((errorText bytes).length = size → (0 : UInt8) ∈ errorText bytes))

/-- The size that follows `ok`. -/
def announced : ℕ := if bytes.length < 11 then 0 else ofWordBytes ((bytes.drop 3).take 8)

/-- What follows the size, as far as it is read to the buffer. -/
def received : List UInt8 :=
  if announced bytes < 2 ^ 63 then (bytes.drop 11).take (announced bytes) else []

/-- The block is allocated, and there is a zero in what was received, or behind it in what was in
the buffer or in the memory. -/
def ListFits : Prop :=
  announced bytes = 0 ∨ m.available (announced bytes) = true ∧
    ((0 : UInt8) ∈ received bytes ∨ ∃ i, (received bytes).length ≤ i ∧ i < announced bytes ∧
      (ok ++ [0, 0, 0]).getD i (m.fresh i) = 0)

/-- The block is allocated, with place for a terminator, or it is not used: nothing is read to it,
and there is too much data. -/
def GetFits : Prop :=
  m.available (announced bytes + 1) = true ∧ announced bytes + 1 < 2 ^ 64 ∨
    received bytes = [] ∧ bytes.drop 11 ≠ []

end Answers

/-- What must be true of the answer for all accesses to be within the buffer. -/
def Session.Fits (s : Session) : Prop :=
  if s.command = .put ∧ s.content = none then True
  else if s.answer.rest.take 3 = ok then
    match s.command with
    | .delete | .put => True
    | .list => ListFits s.machine s.answer.rest
    | .get => GetFits s.machine s.answer.rest
  else ErrorFits ((message s.command s.remote).length + 1) s.answer.rest

/-! ## Reading to the buffer -/

section Reading

variable {buf : Block} {input : Source UInt8} {start count : ℕ}

theorem drop_length_take (n : ℕ) (l : List UInt8) : l.drop (l.take n).length = l.drop n := by
  rw [List.length_take]
  rcases Nat.le_total n l.length with hle | hle
  · rw [Nat.min_eq_left hle]
  · rw [Nat.min_eq_right hle, List.drop_length, List.drop_of_length_le hle]

/-- What is read to the buffer. -/
def placed (count : ℕ) (bytes : List UInt8) : List UInt8 :=
  if count < 2 ^ 63 then bytes.take count else []

/-- What is returned: zero too when there is less. -/
def returned (count : ℕ) (bytes : List UInt8) : ℕ :=
  if count < 2 ^ 63 ∧ count ≤ bytes.length then count else 0

theorem readAllFromSocket_eq (h : count < 2 ^ 64) : ∃ input',
    input'.rest = input.rest.drop (placed count input.rest).length ∧
      readAllFromSocket buf input start count =
        buf.storeAll start (placed count input.rest) >>= fun buf =>
          .ok (returned count input.rest, buf, input') := by
  by_cases hpos : 0 < toSsize count
  · have hlt := ((toSsize_pos_iff h).mp hpos).2
    have hplaced : placed count input.rest = (input.readAll count).2.1 := by
      rw [Source.readAll_placed, placed, if_pos hlt]
    have hreturned : returned count input.rest = (input.readAll count).1 := by
      rw [Source.readAll_fst, returned]
      simp only [hlt, true_and]
    refine ⟨(input.readAll count).2.2, ?_, ?_⟩
    · rw [hplaced, Source.readAll_placed, Source.readAll_rest, drop_length_take]
    · rw [readAllFromSocket, if_pos hpos, hplaced, hreturned]
      rfl
  · have hcount : count = 0 ∨ ¬ count < 2 ^ 63 := by
      rw [toSsize_pos_iff h] at hpos
      omega
    have hplaced : placed count input.rest = [] := by
      rcases hcount with rfl | hge
      · rfl
      · exact if_neg hge
    have hreturned : returned count input.rest = 0 := by
      rcases hcount with rfl | hge
      · exact ite_self 0
      · exact if_neg fun h => hge h.1
    refine ⟨input, ?_, ?_⟩
    · rw [hplaced, List.length_nil, List.drop_zero]
    · rw [readAllFromSocket, if_neg hpos, hplaced, hreturned]
      rfl

/-- A buffer of `size` bytes that begins with `xs` and is cleared behind. -/
def cleared (size : ℕ) (xs : List UInt8) : Block := xs ++ List.replicate (size - xs.length) 0

variable {size : ℕ} {xs ys s : List UInt8}

theorem storeAll_cleared (h : ys = [] ∨ start = xs.length) (hle : xs.length + ys.length ≤ size) :
    (cleared size xs).storeAll start ys = .ok (cleared size (xs ++ ys)) := by
  rcases h with rfl | rfl
  · rw [Block.storeAll, List.append_nil]
  · rw [Block.storeAll_eq (.inr (by simp [cleared]; omega)), cleared, cleared,
      List.take_left' rfl, List.drop_append, List.drop_of_length_le (by omega), List.nil_append,
      Nat.add_sub_cancel_left, List.drop_replicate, List.length_append, Nat.sub_sub]

theorem mem_cleared : (0 : UInt8) ∈ cleared size xs ↔ xs.length < size ∨ (0 : UInt8) ∈ xs := by
  rw [cleared, List.mem_append, List.mem_replicate, or_comm]
  simp only [and_true]
  rw [Nat.sub_ne_zero_iff_lt]

theorem length_cleared (h : xs.length ≤ size) : (cleared size xs).length = size := by
  rw [cleared, List.length_append, List.length_replicate, Nat.add_sub_cancel' h]

theorem mem_drop_cleared (hxs : (0 : UInt8) ∉ xs) (h : xs.length < size) (k : ℕ) :
    (0 : UInt8) ∈ (cleared size xs).drop k ↔ k < size := by
  have hdrop : (0 : UInt8) ∉ xs.drop k := fun hmem => hxs (List.mem_of_mem_drop hmem)
  rw [cleared, List.drop_append, List.drop_replicate, List.mem_append, or_iff_right hdrop,
    List.mem_replicate]
  simp only [and_true]
  omega

theorem text_append_zeros (xs : List UInt8) (n : ℕ) :
    Block.text (xs ++ List.replicate n 0) = Block.text xs := by
  have hzeros : (List.replicate n (0 : UInt8)).takeWhile (· ≠ 0) = [] := by
    cases n <;> simp [List.replicate_succ]
  rw [Block.text, List.takeWhile_append, hzeros, List.append_nil, Block.text]
  split_ifs with hlen
  · exact ((List.takeWhile_prefix _).eq_of_length hlen).symm
  · rfl

theorem text_cleared (size : ℕ) (xs : List UInt8) : (cleared size xs).text = Block.text xs :=
  text_append_zeros xs _

theorem text_eq_iff (hs : (0 : UInt8) ∉ s) (hle : xs.length ≤ s.length) :
    Block.text xs = s ↔ xs = s := by
  constructor
  · rintro rfl
    exact ((List.takeWhile_prefix _).eq_of_length_le hle).symm
  · rintro rfl
    exact takeWhile_ne_iff.mpr hs

theorem equals_cleared (hs : (0 : UInt8) ∉ s) (hle : xs.length ≤ s.length)
    (hzero : xs.length < size ∨ (0 : UInt8) ∈ xs) :
    (cleared size xs).equals s = .ok (xs = s) := by
  rw [Block.equals_eq (mem_cleared.mpr hzero) hs]
  simp only [text_cleared, text_eq_iff hs hle]

end Reading

/-! ## The common parts of the four functions -/

section Parts

variable {m : Machine} {size : ℕ} {bytes line : List UInt8} {input : Source UInt8}
  {output : Sink UInt8}

theorem readAllFromSocket_cleared {xs : List UInt8} {start count : ℕ} (hcount : count < 2 ^ 63)
    (hstart : input.rest.take count = [] ∨ start = xs.length)
    (hle : xs.length + (input.rest.take count).length ≤ size) : ∃ input',
      input'.rest = input.rest.drop count ∧
        readAllFromSocket (cleared size xs) input start count =
          .ok (returned count input.rest, cleared size (xs ++ input.rest.take count), input') := by
  obtain ⟨input', hrest, heq⟩ := @readAllFromSocket_eq (cleared size xs) input start count
    (by omega)
  rw [placed, if_pos hcount] at hrest heq
  refine ⟨input', ?_, ?_⟩
  · rw [hrest, drop_length_take]
  · rw [heq, storeAll_cleared hstart hle]
    rfl

/-- The request is sent, and the answer begins in a cleared buffer. -/
theorem exchange_eq (hline : (0 : UInt8) ∉ line) (hlen : 5 ≤ line.length)
    (body : List (List UInt8)) : ∃ input', input'.rest = input.rest.drop 3 ∧
      exchange (line ++ [0]) input output body =
        .ok (cleared (line.length + 1) (input.rest.take 3), input',
          body.foldl send (send output line)) := by
  have htext : Block.text (line ++ [0]) = line := by
    rw [show line ++ [0] = cleared (line.length + 1) line by simp [cleared], text_cleared]
    exact (text_eq_iff hline le_rfl).mpr rfl
  have hstrlen : Block.strlen (line ++ [0]) = .ok line.length := by
    rw [Block.strlen_eq (by simp), htext]
  have hclear : Block.storeAll (line ++ [0]) 0 (List.replicate line.length 0) =
      .ok (cleared (line.length + 1) []) := by
    rw [Block.storeAll_eq (.inr (by simp))]
    simp [cleared, List.replicate_succ']
  obtain ⟨input', hrest, hread⟩ := @readAllFromSocket_cleared (line.length + 1) input [] 0 3
    (by norm_num) (.inr rfl) (by simp; omega)
  refine ⟨input', hrest, ?_⟩
  rw [exchange, hstrlen, ok_bind, Block.loadAll_eq (by simp), ok_bind, ok_bind, hclear, ok_bind,
    hread, ok_bind, List.nil_append, List.drop_zero, List.take_left' rfl]
  rfl

/-- `check_error` reads three more bytes, and looks at six of them. -/
theorem checkError_eq_bind (hsize : 6 ≤ size) (hrest : input.rest = bytes.drop 3) : ∃ input',
    input'.rest = bytes.drop 6 ∧
      checkError m (cleared size (bytes.take 3)) input = do
        let _ ← (cleared size (bytes.take 6)).string
        if ← (cleared size (bytes.take 6)).equals error then
          let (_, buf, _) ← readAllFromSocket (cleared size (bytes.take 6)) input' 0 1024
          return .errorMessage (← m.printErrorMessage buf)
        else return .invalidResponse := by
  have hlen := List.length_take_le 3 bytes
  have hlen' := List.length_take_le 3 input.rest
  have hstart : input.rest.take 3 = [] ∨ 3 = (bytes.take 3).length := by
    rw [hrest, List.take_eq_nil_iff, List.drop_eq_nil_iff, List.length_take]
    omega
  obtain ⟨input', hrest', hread⟩ := @readAllFromSocket_cleared size input (bytes.take 3) 3 3
    (by norm_num) hstart (by omega)
  rw [hrest, ← List.take_add] at hread
  rw [hrest, List.drop_drop] at hrest'
  refine ⟨input', hrest', ?_⟩
  rw [checkError, hread, ok_bind]

/-- The text of an error is read to where the six bytes are. -/
theorem errorText_read (hrest : input.rest = bytes.drop 6) (buf : Block) : ∃ retval input',
    readAllFromSocket buf input 0 1024 =
      buf.storeAll 0 (errorText bytes) >>= fun buf => .ok (retval, buf, input') := by
  obtain ⟨input', -, heq⟩ := @readAllFromSocket_eq buf input 0 1024 (by norm_num)
  rw [placed, if_pos (by norm_num), hrest] at heq
  exact ⟨_, input', heq⟩

theorem inBounds_checkError (hsize : 6 ≤ size) (hrest : input.rest = bytes.drop 3) :
    InBounds (checkError m (cleared size (bytes.take 3)) input) ↔ ErrorFits size bytes := by
  obtain ⟨input', hrest', heq⟩ := @checkError_eq_bind m size bytes input hsize hrest
  have hlen6 := List.length_take_le 6 bytes
  have hzero : (bytes.take 6).length < size ∨ (0 : UInt8) ∈ bytes.take 6 ↔
      (size = 6 → bytes.length < 6 ∨ (0 : UInt8) ∈ bytes.take 6) := by
    rw [List.length_take]
    by_cases hsix : size = 6
    · rw [imp_iff_right hsix, hsix]
      exact or_congr_left (by omega)
    · exact iff_of_true (.inl (by omega)) fun h => absurd h hsix
  rw [heq, Block.inBounds_string_bind, mem_cleared, ErrorFits, hzero]
  refine and_congr_right fun hmem => ?_
  rw [equals_cleared (by decide) hlen6 (hzero.mpr hmem), ok_bind]
  by_cases herror : bytes.take 6 = error
  · obtain ⟨retval, input'', hread⟩ := errorText_read hrest' (cleared size (bytes.take 6))
    have hlt : error.length < size := by
      rw [← herror]
      refine (hzero.mpr hmem).resolve_right ?_
      rw [herror]
      decide
    rw [if_pos (decide_eq_true herror), hread, bind_assoc, Block.inBounds_storeAll_bind, ok_bind,
      imp_iff_right herror, Nat.zero_add, length_cleared (by omega), inBounds_bind_pure,
      m.printErrorMessage_string, List.take_zero, List.nil_append, List.mem_append, herror,
      mem_drop_cleared (by decide) hlt]
    constructor
    · rintro ⟨hle, hmem⟩
      have hfits : (errorText bytes).length ≤ size :=
        hle.elim (fun hnil => by simp [hnil]) id
      exact ⟨hfits, fun hfull => hmem.resolve_right (by omega)⟩
    · rintro ⟨hle, hmem⟩
      refine ⟨.inr hle, ?_⟩
      rcases Nat.lt_or_eq_of_le hle with hlt | hfull
      · exact .inr hlt
      · exact .inl (hmem hfull)
  · rw [if_neg (by simpa using herror)]
    simp [herror]

/-- What the four functions need of the answer. -/
theorem inBounds_answered {p : Prop}
    {accepted : Block → Source UInt8 → Sink UInt8 → Checked (Outcome × Sink UInt8)}
    (hline : (0 : UInt8) ∉ line) (hlen : 5 ≤ line.length) (body : List (List UInt8))
    (haccepted : ∀ input' output', input'.rest = input.rest.drop 3 →
      (InBounds (accepted (cleared (line.length + 1) ok) input' output') ↔ p)) :
    InBounds (answered m (line ++ [0]) input output body accepted) ↔
      if input.rest.take 3 = ok then p else ErrorFits (line.length + 1) input.rest := by
  obtain ⟨input', hrest, heq⟩ := @exchange_eq line input output hline hlen body
  have hlen3 := List.length_take_le 3 input.rest
  rw [answered, heq, ok_bind]
  dsimp only
  rw [equals_cleared (by decide) hlen3 (.inl (by omega)), ok_bind]
  by_cases hok : input.rest.take 3 = ok
  · rw [if_pos (decide_eq_true hok), if_pos hok, hok]
    exact haccepted input' _ hrest
  · rw [if_neg (by simpa using hok), if_neg hok, inBounds_bind_pure,
      inBounds_checkError (by omega) hrest]

end Parts

/-! ## What follows `ok` -/

section Accepted

variable {m : Machine} {buf : Block} {size : ℕ} {bytes : List UInt8} {input : Source UInt8}

theorem announced_lt (bytes : List UInt8) : announced bytes < 2 ^ 64 := by
  unfold announced
  split_ifs
  · norm_num
  · have hlt := readBytes_lt (fun i => ((bytes.drop 3).take 8).getD i 0) 0 8
    rw [show (256 : ℕ) ^ 8 = 2 ^ 64 by norm_num] at hlt
    exact hlt

/-- The answer goes on with the size. -/
theorem getMessageSize_eq (hrest : input.rest = bytes.drop 3) : ∃ input',
    input'.rest = bytes.drop 11 ∧ getMessageSize input = (announced bytes, input') := by
  unfold getMessageSize announced
  by_cases hlt : bytes.length < 11
  · obtain ⟨a, ha, hrest'⟩ := read_of_lt (show input.rest.length < 8 by simp [hrest]; omega)
    rw [ha, if_pos hlt, List.drop_of_length_le (by omega)]
    exact ⟨a, hrest', rfl⟩
  · obtain ⟨a, ha, hrest'⟩ := read_of_le (show 8 ≤ input.rest.length by simp [hrest]; omega)
    rw [ha, if_neg hlt, hrest]
    refine ⟨a, ?_, rfl⟩
    rw [hrest', hrest, List.drop_drop]

theorem length_realloc (buf : Block) (size : ℕ) :
    (m.realloc buf size).length = if m.available size then size else 0 := by
  unfold Machine.realloc
  split_ifs <;> simp

/-- The block for a file and a terminator has no bytes if it cannot be allocated, or if its size
wraps. -/
theorem calloc_eq_nil (hsize : size < 2 ^ 64)
    (h : ¬ (m.available (size + 1) = true ∧ size + 1 < 2 ^ 64)) :
    m.calloc ((size + 1) % 2 ^ 64) = [] := by
  unfold Machine.calloc
  rcases Nat.lt_or_ge (size + 1) (2 ^ 64) with hlt | hge
  · rw [Nat.mod_eq_of_lt hlt, if_neg fun havailable => h ⟨havailable, hlt⟩]
  · rw [show size + 1 = 2 ^ 64 by omega, Nat.mod_self, List.replicate_zero, ite_self]

theorem mem_drop_realloc (havailable : m.available size = true) (k : ℕ) :
    (0 : UInt8) ∈ (m.realloc buf size).drop k ↔
      ∃ i, k ≤ i ∧ i < size ∧ buf.getD i (m.fresh i) = 0 := by
  rw [Machine.realloc, if_pos havailable, ← List.map_drop, List.range_eq_range', List.drop_range',
    List.mem_map]
  constructor
  · rintro ⟨i, hi, hzero⟩
    rw [List.mem_range'_1] at hi
    exact ⟨i, by omega, by omega, hzero⟩
  · rintro ⟨i, hk, hi, hzero⟩
    exact ⟨i, List.mem_range'_1.mpr (by omega), hzero⟩

theorem length_received_le (bytes : List UInt8) : (received bytes).length ≤ announced bytes := by
  unfold received
  split_ifs
  · exact List.length_take_le ..
  · exact Nat.zero_le _

theorem received_eq (bytes : List UInt8) :
    received bytes = placed (announced bytes) (bytes.drop 11) := rfl

theorem inBounds_listed (hrest : input.rest = bytes.drop 3) (output : Sink UInt8) :
    InBounds (listed m (ok ++ [0, 0, 0]) input output) ↔ ListFits m bytes := by
  obtain ⟨input₁, hrest₁, hsize⟩ := getMessageSize_eq hrest
  rw [listed, hsize]
  dsimp only
  by_cases hzero : announced bytes = 0
  · rw [if_neg (not_not.mpr hzero)]
    exact iff_of_true (inBounds_pure _) (.inl hzero)
  obtain ⟨input₂, -, heq⟩ :=
    @readAllFromSocket_eq (m.realloc (ok ++ [0, 0, 0]) (announced bytes)) input₁ 0 (announced bytes)
      (announced_lt bytes)
  rw [hrest₁, ← received_eq] at heq
  rw [if_pos hzero, heq, bind_assoc, Block.inBounds_storeAll_bind, ok_bind, inBounds_bind_pure,
    Block.inBounds_string, ListFits, or_iff_right hzero, length_realloc, List.take_zero,
    List.nil_append, Nat.zero_add, List.mem_append]
  by_cases havailable : m.available (announced bytes) = true
  · rw [if_pos havailable, mem_drop_realloc havailable, and_iff_right havailable,
      and_iff_right (.inr (length_received_le bytes))]
  · -- nothing fits in a block without bytes
    rw [if_neg havailable]
    refine iff_of_false ?_ fun h => havailable h.1
    rintro ⟨hfits, hmem⟩
    have hnil : received bytes = [] := hfits.elim id fun h => List.length_eq_zero_iff.mp (by omega)
    simp [hnil, Machine.realloc, havailable] at hmem

/-- The data of a file is received in a cleared block, unless that has no bytes. -/
theorem inBounds_downloaded (hrest : input.rest = bytes.drop 3) (output : Sink UInt8) :
    InBounds (downloaded m input output) ↔ GetFits m bytes := by
  obtain ⟨input₁, hrest₁, hsize⟩ := getMessageSize_eq hrest
  obtain ⟨input₂, hrest₂, heq⟩ :=
    @readAllFromSocket_eq (m.calloc ((announced bytes + 1) % 2 ^ 64)) input₁ 0 (announced bytes)
      (announced_lt bytes)
  rw [hrest₁, ← received_eq] at heq hrest₂
  rw [downloaded, hsize]
  dsimp only
  rw [heq, bind_assoc, Block.inBounds_storeAll_bind, ok_bind, GetFits, List.take_zero,
    List.nil_append, Nat.zero_add]
  dsimp only
  have hnext : ∀ {buf : Block} {x : Outcome × Sink UInt8} {f : List UInt8 → Outcome × Sink UInt8},
      InBounds (if (input₂.readAll 1).1 ≠ 0 then pure x else do return f (← buf.string)) ↔
        ((0 : UInt8) ∈ buf ∨ input₂.rest ≠ []) := by
    intro buf x f
    by_cases hmore : input₂.rest = []
    · rw [if_neg (mt (readNext input₂).mp (not_not.mpr hmore)), inBounds_bind_pure,
        Block.inBounds_string, or_iff_left (not_not.mpr hmore)]
    · rw [if_pos ((readNext input₂).mpr hmore)]
      exact iff_of_true (inBounds_pure _) (.inr hmore)
  rw [hnext, hrest₂]
  by_cases hblock : m.available (announced bytes + 1) = true ∧ announced bytes + 1 < 2 ^ 64
  · have hle := length_received_le bytes
    rw [Nat.mod_eq_of_lt hblock.2, Machine.calloc, if_pos hblock.1, List.length_replicate]
    refine iff_of_true ⟨.inr (by omega), .inl ?_⟩ (.inl hblock)
    rw [List.mem_append, List.drop_replicate, List.mem_replicate]
    exact .inr ⟨by omega, rfl⟩
  · rw [calloc_eq_nil (announced_lt bytes) hblock, or_iff_right hblock, List.length_nil,
      List.drop_nil, List.append_nil, Nat.le_zero, List.length_eq_zero_iff, or_self]
    refine and_congr_right fun hnil => ?_
    rw [hnil, List.length_nil, List.drop_zero]
    simp

end Accepted

/-! ## The functions -/

theorem zero_notMem_message {command : Verb} {remote : Name} (h : (0 : UInt8) ∉ remote) :
    (0 : UInt8) ∉ message command remote := by
  cases command <;> simp [message, h]

theorem le_length_message (command : Verb) (remote : Name) :
    5 ≤ (message command remote).length := by
  cases command <;> simp [message]

section Functions

variable {m : Machine} {remote : Name} {answer : Source UInt8}

theorem inBounds_delete (hremote : (0 : UInt8) ∉ remote) (output : Sink UInt8) :
    InBounds (delete m (message .delete remote ++ [0]) answer output) ↔
      if answer.rest.take 3 = ok then True
      else ErrorFits ((message .delete remote).length + 1) answer.rest :=
  inBounds_answered (zero_notMem_message hremote) (le_length_message _ _) []
    fun _ _ _ => iff_of_true (inBounds_pure _) trivial

theorem inBounds_put (hremote : (0 : UInt8) ∉ remote) (output : Sink UInt8)
    (content : List UInt8) :
    InBounds (put m (message .put remote ++ [0]) answer output (some content)) ↔
      if answer.rest.take 3 = ok then True
      else ErrorFits ((message .put remote).length + 1) answer.rest := by
  rw [put]
  exact inBounds_answered (zero_notMem_message hremote) (le_length_message _ _) _
    fun _ _ _ => iff_of_true (inBounds_pure _) trivial

theorem inBounds_get (hremote : (0 : UInt8) ∉ remote) (output : Sink UInt8) :
    InBounds (get m (message .get remote ++ [0]) answer output) ↔
      if answer.rest.take 3 = ok then GetFits m answer.rest
      else ErrorFits ((message .get remote).length + 1) answer.rest :=
  inBounds_answered (zero_notMem_message hremote) (le_length_message _ _) []
    fun _ output hrest => inBounds_downloaded hrest output

theorem inBounds_list (output : Sink UInt8) :
    InBounds (list m (message .list remote ++ [0]) answer output) ↔
      if answer.rest.take 3 = ok then ListFits m answer.rest else ErrorFits 6 answer.rest :=
  @inBounds_answered m (message .list remote) answer output (ListFits m answer.rest) (listed m)
    (by simp [message]) le_rfl [] fun _ output hrest => inBounds_listed hrest output

/-- Names without a zero, with their size in front: they are printed without a terminator. -/
theorem not_inBounds_names {names : List UInt8} (hne : names ≠ []) (hzero : (0 : UInt8) ∉ names)
    (hlt : names.length < 2 ^ 63) (hanswer : answer.rest = ok ++ wordBytes names.length ++ names)
    (output : Sink UInt8) :
    ¬ InBounds (list m (message .list remote ++ [0]) answer output) := by
  have hok : answer.rest.take 3 = ok := by
    rw [hanswer]
    rfl
  have hsize : answer.rest.drop 3 = wordBytes names.length ++ names := by
    rw [hanswer]
    rfl
  have hannounced : announced answer.rest = names.length := by
    rw [announced, hsize, List.take_left' (length_wordBytes _), ofWordBytes_wordBytes (by omega),
      if_neg (by simp [hanswer, ok])]
  have hreceived : received answer.rest = names := by
    rw [received, hannounced, if_pos hlt, show 11 = 3 + 8 from rfl, ← List.drop_drop, hsize,
      List.drop_left' (length_wordBytes _), List.take_length]
  rw [inBounds_list, if_pos hok, ListFits, hannounced, hreceived]
  rintro (hnil | ⟨-, hmem | ⟨i, hle, hi, -⟩⟩)
  · exact hne (List.length_eq_zero_iff.mp hnil)
  · exact hzero hmem
  · omega

/-- So it is with what the server answers to LIST when it has files. -/
theorem not_inBounds_listing {s : Server} (hne : listing s ≠ []) (hzero : (0 : UInt8) ∉ listing s)
    (hlt : (listing s).length < 2 ^ 63) (plan plan' : List Event) (output : Sink UInt8) :
    ¬ InBounds (list m (message .list remote ++ [0]) ⟨(Net.list s ⟨[], plan⟩).sent, plan'⟩
      output) :=
  not_inBounds_names hne hzero hlt list_sent output

end Functions

/-- All accesses of the client are within its buffer exactly if the answer fits. -/
theorem run_inBounds_iff (s : Session) (output : Sink UInt8) :
    InBounds (s.run output) ↔ s.Fits := by
  obtain ⟨m, command, remote, hremote, content, answer⟩ := s
  unfold Session.run Session.Fits main
  dsimp only
  cases command with
  | delete => exact (inBounds_delete hremote output).trans (by simp)
  | list => exact (inBounds_list output).trans (by simp [message])
  | get => exact (inBounds_get hremote output).trans (by simp)
  | put =>
    cases content with
    | none => exact iff_of_true (inBounds_pure _) (by simp)
    | some content => exact (inBounds_put hremote output content).trans (by simp)

/-- The client asks for the names of the files, and is told that there is one, `a`. -/
def oneName : Session where
  machine :=
    { available := fun size => size < 2 ^ 31
      fresh := fun _ => 0
      printErrorMessage := Block.string
      printErrorMessage_string := fun _ => Block.inBounds_string }
  command := .list
  remote := []
  remote_no_zero := List.not_mem_nil
  content := none
  answer := ⟨[79, 75, 10, 1, 0, 0, 0, 0, 0, 0, 0, 97], []⟩

/-- The block has one byte, and `printf` looks for the terminator behind it. -/
theorem not_inBounds_oneName : ¬ InBounds (oneName.run ⟨[], []⟩) :=
  @not_inBounds_names oneName.machine [] oneName.answer [97] (by decide) (by decide) (by norm_num)
    (by decide) ⟨[], []⟩

end Cs241.Net.Buffers
