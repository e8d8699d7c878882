import Cs241.Foundation.Delimiters
import Cs241.Minixfs.Files

/-!
# The virtual file `info`

Its text tells how many blocks are free and how many are used. A read of it should get the
next piece, as one of an ordinary file does. `minixfs_virtual_read` copies all of the rest,
with a terminator and whatever was asked for, and leaves the offset where it is.
-/
namespace Cs241.Minixfs

open Foundation

variable {c : Layout} {env : Env c} {fs : FileSystem c} {path : Path} {buf : Mem} {off : ℕ}
  {r : ReadOut}

/-- The number of used blocks. -/
def FileSystem.used (fs : FileSystem c) : ℕ :=
  (List.range fs.dblockCount).countP fun i => fs.dataMap i ≠ 0

theorem FileSystem.free_add_used (fs : FileSystem c) : fs.free + fs.used = fs.dblockCount := by
  have hlen := List.length_eq_countP_add_countP (l := List.range fs.dblockCount)
    fun i => decide (fs.dataMap i = 0)
  rw [List.length_range] at hlen
  simpa [free, used] using hlen.symm

/-- Calls for `info` one after another, each with its buffer and `count`, that share `*off`. -/
def infoReads (env : Env c) (fs : FileSystem c) : List (Mem × ℕ) → ℕ → Option (List ReadOut)
  | [], _ => some []
  | (buf, _) :: calls, off => do
    let r ← virtualRead env fs infoName buf off
    let rs ← infoReads env fs calls r.off
    some (r :: rs)

theorem infoReads_cons (env : Env c) (fs : FileSystem c) (buf : Mem) (count : ℕ)
    (calls : List (Mem × ℕ)) (off : ℕ) : infoReads env fs ((buf, count) :: calls) off =
      (virtualRead env fs infoName buf off).bind fun r =>
        (infoReads env fs calls r.off).bind fun rs => some (r :: rs) := rfl

/-- A read gets the next piece of a text, and no more than asked for. -/
structure Piece (text : List UInt8) (buf : Mem) (count off : ℕ) (r : ReadOut) : Prop where
  ret_eq : r.ret = (min count (text.length - off) : ℕ)
  off_eq : r.off = off + min count (text.length - off)
  bytes : gather r.buf id 0 (min count (text.length - off)) =
    (text.drop off).take (min count (text.length - off))
  within : ∀ x, count ≤ x → r.buf x = buf x

/-- Reads that get a text piece by piece. -/
def Pieces (text : List UInt8) : List (Mem × ℕ) → ℕ → List ReadOut → Prop
  | [], _, rs => rs = []
  | (buf, count) :: calls, off, rs =>
    ∃ r rest, rs = r :: rest ∧ Piece text buf count off r ∧ Pieces text calls r.off rest

/-- The calls read the text of the file, whose two counts add up, piece by piece. -/
def ReadsInfo (env : Env c) (fs : FileSystem c) (calls : List (Mem × ℕ)) : Prop :=
  ∃ free used rs, free + used = fs.dblockCount ∧ infoReads env fs calls 0 = some rs ∧
    Pieces (infoText free used) calls 0 rs

/-! ## What a call does -/

theorem ne_zero_of_mem_decimal {n : ℕ} {b : UInt8} (h : b ∈ decimal n) : b ≠ 0 := by
  obtain ⟨d, hd, rfl⟩ := List.mem_map.mp h
  have hdigit := Nat.isDigit_of_mem_toDigits (by decide) le_rfl hd
  rw [Char.isDigit_iff_toNat] at hdigit
  intro hzero
  have hmod := congrArg UInt8.toNat hzero
  rw [UInt8.toNat_ofNat', UInt8.toNat_zero] at hmod
  have hlow : 48 ≤ d.toNat := hdigit.1
  have hhigh : d.toNat ≤ 57 := hdigit.2
  omega

theorem ne_zero_of_mem_infoText {free used : ℕ} {b : UInt8} (h : b ∈ infoText free used) :
    b ≠ 0 := by
  have hfree : 0 ∉ freeText := by decide
  have hused : 0 ∉ usedText := by decide
  have hnewline : 0 ∉ ([10] : List UInt8) := by decide
  simp only [infoText, List.mem_append] at h
  rcases h with ((((h | h) | h) | h) | h) | h
  exacts [ne_of_mem_of_not_mem h hfree, ne_zero_of_mem_decimal h, ne_of_mem_of_not_mem h hnewline,
    ne_of_mem_of_not_mem h hused, ne_zero_of_mem_decimal h, ne_of_mem_of_not_mem h hnewline]

/-- What `buffer` holds from the offset on. -/
theorem drop_buffer {m : Mem} {text : List UInt8} {size : ℕ} (hfits : text.length < size)
    (hoff : off ≤ text.length) : ∃ tail,
      (gather (scatter m id 0 (text ++ [0])) id 0 size).drop off = text.drop off ++ 0 :: tail := by
  have hlen : (text ++ [0]).length = text.length + 1 := by simp
  obtain ⟨k, rfl⟩ : ∃ k, size = (text ++ [0]).length + k := Nat.exists_eq_add_of_le (by omega)
  refine ⟨gather (scatter m id 0 (text ++ [0])) id (0 + (text ++ [0]).length) k, ?_⟩
  rw [gather_add, gather_scatter Function.injective_id.injOn, List.drop_append_of_le_length
    (by omega), List.drop_append_of_le_length hoff, List.append_assoc]
  rfl

/-- All of the rest is copied, and the offset stays. -/
theorem virtualRead_info (buf : Mem) (hfits : (infoText fs.free fs.used).length < 100000)
    (hoff : off ≤ (infoText fs.free fs.used).length) :
    virtualRead env fs infoName buf off = some
      { buf := scatter buf id 0 ((infoText fs.free fs.used).drop off ++ [0]), off := off
        ret := ((infoText fs.free fs.used).length - off : ℕ), errno := none } := by
  obtain ⟨tail, htail⟩ := drop_buffer (m := env.stack) hfits hoff
  have htext : ((infoText fs.free fs.used).drop off ++ 0 :: tail).takeWhile (fun b => b ≠ 0) =
      (infoText fs.free fs.used).drop off :=
    takeWhile_ne_cons (fun hb => ne_zero_of_mem_infoText (List.mem_of_mem_drop hb) rfl) tail
  unfold virtualRead
  dsimp only
  rw [if_pos rfl]
  unfold FileSystem.free FileSystem.used at *
  rw [htail, htext, if_pos (by simp), List.length_drop]

theorem virtualRead_off (h : virtualRead env fs path buf off = some r) : r.off = off := by
  unfold virtualRead at h
  dsimp only at h
  split_ifs at h
  · rw [← Option.some.inj h]
  · rw [← Option.some.inj h]

/-- What is stored first is found first. -/
theorem takeWhile_buffer_pos {m : Mem} {b : UInt8} {bs : List UInt8} (hb : b ≠ 0) (size : ℕ) :
    0 < ((gather (scatter m id 0 (b :: bs)) id 0 (size + 1)).takeWhile fun b => b ≠ 0).length := by
  have hfirst : scatter m id 0 (b :: bs) (id 0) = b := by
    rw [scatter, scatter_of_ne fun k _ heq => by simp at heq]
    exact Function.update_self 0 b m
  have hone : gather (scatter m id 0 (b :: bs)) id 0 1 = [b] := congrArg (fun x => [x]) hfirst
  rw [Nat.add_comm, gather_add, hone, List.singleton_append, List.takeWhile_cons_of_pos (by simpa)]
  exact Nat.succ_pos _

/-- From the start, something is read: the first byte is the one of `Free`. -/
theorem virtualRead_ret_pos (h : virtualRead env fs infoName buf 0 = some r) : 0 < r.ret := by
  unfold virtualRead at h
  dsimp only at h
  rw [if_pos rfl, List.drop_zero] at h
  split_ifs at h
  rw [← Option.some.inj h]
  dsimp only
  exact_mod_cast takeWhile_buffer_pos (by decide) 99999

/-- The first call gets no piece: it does not move on. -/
theorem Piece.not_virtualRead {text : List UInt8} {count : ℕ} (hpiece : Piece text buf count 0 r) :
    virtualRead env fs infoName buf 0 ≠ some r := by
  intro h
  have hstays := virtualRead_off h
  have hpos := virtualRead_ret_pos h
  have hret := hpiece.ret_eq
  have hoff := hpiece.off_eq
  omega

theorem ReadsInfo.eq_nil {calls : List (Mem × ℕ)} (h : ReadsInfo env fs calls) : calls = [] := by
  obtain ⟨free, used, rs, -, hrs, hpieces⟩ := h
  cases calls with
  | nil => rfl
  | cons call calls =>
    obtain ⟨buf, count⟩ := call
    obtain ⟨r, rest, rfl, hpiece, -⟩ := hpieces
    rw [infoReads_cons] at hrs
    obtain ⟨r', hr, hrest⟩ := Option.bind_eq_some_iff.mp hrs
    obtain ⟨rest', -, hcons⟩ := Option.bind_eq_some_iff.mp hrest
    obtain ⟨rfl, -⟩ := List.cons.inj (Option.some.inj hcons)
    exact absurd hr hpiece.not_virtualRead

/-- The calls read the text piece by piece only if there are none. -/
theorem readsInfo_iff (env : Env c) (fs : FileSystem c) (calls : List (Mem × ℕ)) :
    ReadsInfo env fs calls ↔ calls = [] := by
  constructor
  · exact ReadsInfo.eq_nil
  · rintro rfl
    exact ⟨fs.free, fs.used, [], fs.free_add_used, rfl, rfl⟩

/-- A read of five bytes gets all thirty, and the next one would get them again. -/
theorem not_readsInfo : ¬ ReadsInfo smallEnv smallDisk [(fun _ => 0, 5)] ∧
    (virtualRead smallEnv smallDisk infoName (fun _ => 0) 0).map (fun r => (r.ret, r.off)) =
      some (30, 0) := by
  constructor
  · intro h
    exact List.cons_ne_nil _ _ h.eq_nil
  · rw [virtualRead_info _ (by decide +kernel) (Nat.zero_le _)]
    decide +kernel

end Cs241.Minixfs
