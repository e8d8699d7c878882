import Cs241.Foundation.Runs
import Cs241.Minixfs.Contents

/-!
# A volume with many files

The files of a volume have no block in common, and none has the indirect block of another
one. A write keeps them apart and changes the content of one file: what was in front of the
offset stays, the buffer follows, and there the file ends. Hence every run of calls on the
files of a volume is a run on lists of bytes.
-/
namespace Cs241.Minixfs

open Foundation

variable {c : Layout}

inductive Call
  | write (path : Path) (buf : List UInt8) (off : ℕ)
  | read (path : Path) (out : Mem) (count off : ℕ)

/-- What a call leaves to its caller. -/
inductive Answer
  | wrote (off : ℕ) (ret : ℤ) (errno : Option Errno)
  | got (r : ReadOut)

def perform (env : Env c) (fs : FileSystem c) : Call → Option (FileSystem c × Answer)
  | .write path buf off =>
    (write env fs path buf off).map fun w => (w.fs, .wrote w.off w.ret w.errno)
  | .read path out count off => (read env fs path out count off).map fun r => (fs, .got r)

/-- A call that is answered. -/
def Step (env : Env c) (fs : FileSystem c) (a : Call × Answer) (fs' : FileSystem c) : Prop :=
  perform env fs a.1 = some (fs', a.2)

/-! ## Lists of bytes -/

/-- The contents of the files. -/
abbrev Contents (files : Set ℕ) := files → List UInt8

variable {files : Set ℕ}

/-- What a call does to the contents, and its answer. -/
inductive Meets (find : Path → Option files) :
    Contents files → Call × Answer → Contents files → Prop
  | wrote {s path buf off i} (hfind : find path = some i) (hoff : off ≤ (s i).length) :
    Meets find s (.write path buf off, .wrote (off + buf.length) buf.length none)
      (Function.update s i ((s i).take off ++ buf))
  | refused {s path buf off i} (hfind : find path = some i) :
    Meets find s (.write path buf off, .wrote off (-1) (some .ENOSPC)) s
  | got {s path out count off i r bytes} (hfind : find path = some i)
    (hbytes : bytes = ((s i).drop off).take count) (hret : r.ret = bytes.length)
    (hoff : r.off = off + bytes.length) (herrno : r.errno = none)
    (hbuf : r.buf = scatter out id 0 bytes) :
    Meets find s (.read path out count off, .got r) s
  | missing {s path out count off} (hfind : find path = none) :
    Meets find s (.read path out count off,
      .got { buf := out, off := off, ret := -1, errno := some .ENOENT }) s

/-! ## The files of a volume -/

/-- The first `owned i` blocks of each file are there, hold its content, and are its own. -/
structure Files (fs : FileSystem c) (files : Set ℕ) (owned : ℕ → ℕ) : Prop where
  assigned : ∀ i ∈ files, fs.Assigned (fs.inodes i) (owned i)
  size_le : ∀ i ∈ files, (fs.inodes i).size ≤ owned i * c.blockSize
  small : ∀ i ∈ files, (fs.inodes i).size < 2 ^ 31
  apart : ∀ i ∈ files, ∀ j ∈ files, i ≠ j → ∀ p < owned i * c.blockSize,
    ∀ q < owned j * c.blockSize, fs.address (fs.inodes i) p ≠ fs.address (fs.inodes j) q
  indirect : ∀ i ∈ files, ∀ j ∈ files, i ≠ j → ∀ p < owned i * c.blockSize,
    ∀ a, fs.blockAddress (fs.inodes j).indirect = some a →
      fs.address (fs.inodes i) p < a ∨ a + c.blockSize ≤ fs.address (fs.inodes i) p

/-- What is relied on of `minixfs_utils` for the files of a volume. The directories stay `valid`
while bytes are stored in the blocks of the files, and paths lead where they lead; and
`minixfs_min_blockcount` keeps the files and gives a file that has too few blocks more of its own
if it succeeds. -/
structure Relies (env : Env c) (files : Set ℕ) (find : Path → Option files)
    (valid : FileSystem c → (ℕ → ℕ) → Prop) : Prop where
  found : ∀ {fs owned}, valid fs owned → ∀ path,
    env.getInode fs path = (find path).map Subtype.val
  stored : ∀ {fs fs' owned i}, valid fs owned → Files fs files owned → i ∈ files →
    fs.OnlyFile fs' i (owned i) → valid fs' owned
  reserved : ∀ {fs owned path i}, valid fs owned → Files fs files owned → find path = some i →
    ∀ size < 2 ^ 31, ∃ owned', valid (env.asked fs path size).1 owned' ∧
      Files (env.asked fs path size).1 files owned' ∧
      (∀ j ∈ files, ((env.asked fs path size).1.inodes j).size = (fs.inodes j).size ∧
        (env.asked fs path size).1.content j = fs.content j) ∧
      ((env.asked fs path size).2 = true → size / c.blockSize + 1 ≤ owned' i)

/-- A write does not start behind the end of its file, and ends below `2 ^ 31`; a read is not of a
virtual file, and does not start behind the end either, unless it is of nothing. -/
def Admitted (env : Env c) (find : Path → Option files) (fs : FileSystem c) : Call → Prop
  | .write path buf off => off + buf.length < 2 ^ 31 ∧
    ∃ i, find path = some i ∧ off ≤ (fs.inodes i).size
  | .read path _ count off => env.isVirtualPath path = none ∧ count < 2 ^ 31 ∧ off < 2 ^ 63 ∧
    ∀ i, find path = some i → off ≤ (fs.inodes i).size ∨ count = 0

/-- The contents of the files of a volume. -/
def contents (fs : FileSystem c) (files : Set ℕ) : Contents files := fun i => fs.content i

/-! ## A write -/

section Write

variable {fs : FileSystem c} {owned : ℕ → ℕ} {i j off : ℕ} {buf : List UInt8}

theorem written_inode_of_ne (h : j ≠ i) : (fs.written i buf off).inodes j = fs.inodes j :=
  Function.update_of_ne h _ _

/-- No file's block table is in the blocks of a file. -/
theorem Files.written_block (h : Files fs files owned) (hi : i ∈ files) (hj : j ∈ files)
    (hn : off + buf.length ≤ owned i * c.blockSize) (bnum : ℤ) :
    (fs.written i buf off).block ((fs.written i buf off).inodes j) bnum =
      fs.block (fs.inodes j) bnum := by
  by_cases hne : j = i
  · subst hne
    exact (h.assigned j hj).written_block hn bnum
  · have hsame : fs.SameBlocks (fs.written i buf off) (fs.inodes j) := by
      refine ⟨rfl, fun a ha x h₁ h₂ => scatter_of_ne fun k hk heq => ?_⟩
      have houtside := h.indirect i hi j hj (Ne.symm hne) (off + k) (by omega) a ha
      omega
    rw [written_inode_of_ne hne, hsame.block]

theorem Files.written_address (h : Files fs files owned) (hi : i ∈ files) (hj : j ∈ files)
    (hn : off + buf.length ≤ owned i * c.blockSize) :
    (fs.written i buf off).address ((fs.written i buf off).inodes j) =
      fs.address (fs.inodes j) := by
  funext p
  rw [FileSystem.address, FileSystem.address, h.written_block hi hj hn]

theorem written_indirect : ((fs.written i buf off).inodes j).indirect = (fs.inodes j).indirect := by
  by_cases hne : j = i
  · subst hne
    rw [written_inode]
  · rw [written_inode_of_ne hne]

theorem Files.written (h : Files fs files owned) (hi : i ∈ files)
    (hlen : off + buf.length < 2 ^ 31) (hn : off + buf.length ≤ owned i * c.blockSize) :
    Files (fs.written i buf off) files owned where
  assigned j hj := by
    have hfile := h.assigned j hj
    refine ⟨fun b hb => ?_, fun b hb b' hb' heq => ?_, fun b hb heq => ?_⟩
    · rw [h.written_block hi hj hn]
      exact hfile.assigned b hb
    · rw [h.written_block hi hj hn, h.written_block hi hj hn] at heq
      exact hfile.distinct b hb b' hb' heq
    · rw [h.written_block hi hj hn, written_indirect] at heq
      exact hfile.indirect b hb heq
  size_le j hj := by
    by_cases hne : j = i
    · subst hne
      rw [written_inode]
      exact hn
    · rw [written_inode_of_ne hne]
      exact h.size_le j hj
  small j hj := by
    by_cases hne : j = i
    · subst hne
      rw [written_inode]
      exact hlen
    · rw [written_inode_of_ne hne]
      exact h.small j hj
  apart j hj k hk hne p hp q hq := by
    rw [h.written_address hi hj hn, h.written_address hi hk hn]
    exact h.apart j hj k hk hne p hp q hq
  indirect j hj k hk hne p hp a ha := by
    rw [h.written_address hi hj hn]
    rw [written_indirect] at ha
    exact h.indirect j hj k hk hne p hp a ha

/-- The content of the file ends with the buffer. -/
theorem Files.content_written (h : Files fs files owned) (hi : i ∈ files)
    (hoff : off ≤ (fs.inodes i).size) (hn : off + buf.length ≤ owned i * c.blockSize) :
    (fs.written i buf off).content i = (fs.content i).take off ++ buf := by
  rw [FileSystem.content, h.written_address hi hi hn, written_inode]
  apply gather_scatter_end hoff
  exact (h.assigned i hi).injOn.mono fun p hp => (Set.mem_Iio.mp hp).trans_le hn

/-- The other files keep theirs. -/
theorem Files.content_written_of_ne (h : Files fs files owned) (hi : i ∈ files) (hj : j ∈ files)
    (hne : j ≠ i) (hn : off + buf.length ≤ owned i * c.blockSize) :
    (fs.written i buf off).content j = fs.content j := by
  rw [FileSystem.content, h.written_address hi hj hn, written_inode_of_ne hne]
  apply gather_congr
  intro k hk
  apply scatter_of_ne
  intro l hl
  have hsize := h.size_le j hj
  exact h.apart i hi j hj (Ne.symm hne) _ (by omega) _ (by omega)

end Write

/-! ## Calls -/

section Calls

variable {env : Env c} {find : Path → Option files} {valid : FileSystem c → (ℕ → ℕ) → Prop}
  {fs fs' : FileSystem c} {owned : ℕ → ℕ}

/-- The directories and the files of a volume are in order. -/
def Sound (files : Set ℕ) (valid : FileSystem c → (ℕ → ℕ) → Prop) (fs : FileSystem c) : Prop :=
  ∃ owned, valid fs owned ∧ Files fs files owned

theorem write_meets (hr : Relies env files find valid) (hs : Sound files valid fs) {path : Path}
    {buf : List UInt8} {off : ℕ} (hadmitted : Admitted env find fs (.write path buf off)) :
    ∃ fs' answer, perform env fs (.write path buf off) = some (fs', answer) ∧
      Sound files valid fs' ∧
      Meets find (contents fs files) (.write path buf off, answer) (contents fs' files) := by
  obtain ⟨owned, hvalid, hfiles⟩ := hs
  obtain ⟨hlen, i, hfind, hoff⟩ := hadmitted
  obtain ⟨owned', hvalid', hfiles', hkept, henough⟩ :=
    hr.reserved hvalid hfiles hfind (off + buf.length) hlen
  have hcontents : contents (env.asked fs path (off + buf.length)).1 files = contents fs files :=
    funext fun j => (hkept j j.2).2
  cases hreserved : (env.asked fs path (off + buf.length)).2 with
  | false =>
    refine ⟨(env.asked fs path (off + buf.length)).1, .wrote off (-1) (some .ENOSPC), ?_,
      ⟨owned', hvalid', hfiles'⟩, ?_⟩
    · rw [perform, write_refused hlen hreserved]
      rfl
    · rw [hcontents]
      exact .refused hfind
  | true =>
    have hfound : env.getInode (env.asked fs path (off + buf.length)).1 path = some i.1 := by
      rw [hr.found hvalid' path, hfind]
      rfl
    have hn : off + buf.length ≤ owned' i * c.blockSize :=
      (le_asked c _).trans (Nat.mul_le_mul_right _ (henough hreserved))
    have hwrite := write_reserved hlen hreserved hfound
    rw [writeNode_spec hlen (hfiles'.assigned i i.2) hn] at hwrite
    have hoff' : off ≤ ((env.asked fs path (off + buf.length)).1.inodes i).size := by
      rwa [(hkept i i.2).1]
    refine ⟨(env.asked fs path (off + buf.length)).1.written i buf off,
      .wrote (off + buf.length) buf.length none, by rw [perform, hwrite]; rfl,
      ⟨owned', ?_, hfiles'.written i.2 hlen hn⟩, ?_⟩
    · exact hr.stored hvalid' hfiles' i.2 (FileSystem.written_onlyFile hn)
    · have hupdate : contents ((env.asked fs path (off + buf.length)).1.written i buf off) files =
          Function.update (contents fs files) i ((contents fs files i).take off ++ buf) := by
        rw [← hcontents]
        funext j
        by_cases hne : j = i
        · subst hne
          rw [Function.update_self]
          exact hfiles'.content_written j.2 hoff' hn
        · rw [Function.update_of_ne hne]
          exact hfiles'.content_written_of_ne i.2 j.2 (fun heq => hne (Subtype.ext heq)) hn
      rw [hupdate]
      refine .wrote hfind ?_
      rwa [contents, FileSystem.length_content]

theorem read_meets (hr : Relies env files find valid) (hs : Sound files valid fs) {path : Path}
    {out : Mem} {count off : ℕ} (hadmitted : Admitted env find fs (.read path out count off)) :
    ∃ fs' answer, perform env fs (.read path out count off) = some (fs', answer) ∧
      Sound files valid fs' ∧
      Meets find (contents fs files) (.read path out count off, answer) (contents fs' files) := by
  obtain ⟨owned, hvalid, hfiles⟩ := hs
  obtain ⟨hvirtual, hcount, hoff, hinside⟩ := hadmitted
  cases hfind : find path with
  | none =>
    have hfound : env.getInode fs path = none := by
      rw [hr.found hvalid path, hfind]
      rfl
    refine ⟨fs, _, ?_, ⟨owned, hvalid, hfiles⟩, .missing hfind⟩
    rw [perform, read, hvirtual]
    simp only [hfound]
    rfl
  | some i =>
    have hfound : env.getInode fs path = some i.1 := by
      rw [hr.found hvalid path, hfind]
      rfl
    have hread := read_spec out count off hvirtual hfound (hfiles.small i i.2) hcount hoff
      (fun b hb => (hfiles.assigned i i.2).assigned b hb) (hfiles.size_le i i.2) (hinside i hfind)
    rw [gather_content (Nat.min_le_right _ _)] at hread
    have htake : ((fs.content i).drop off).take (min count ((fs.inodes i).size - off)) =
        ((fs.content i).drop off).take count := by
      rw [← List.take_take, List.take_of_length_le (i := (fs.inodes i).size - off) (by simp)]
    have hlength : (((fs.content i).drop off).take count).length =
        min count ((fs.inodes i).size - off) := by
      simp
    rw [htake, ← hlength] at hread
    refine ⟨fs, _, by rw [perform, hread]; rfl, ⟨owned, hvalid, hfiles⟩, ?_⟩
    exact .got hfind rfl rfl rfl rfl rfl

theorem call_meets (hr : Relies env files find valid) (hs : Sound files valid fs) {call : Call}
    (hadmitted : Admitted env find fs call) :
    ∃ fs' answer, perform env fs call = some (fs', answer) ∧ Sound files valid fs' ∧
      Meets find (contents fs files) (call, answer) (contents fs' files) := by
  cases call with
  | write path buf off => exact write_meets hr hs hadmitted
  | read path out count off => exact read_meets hr hs hadmitted

theorem step_meets (hr : Relies env files find valid) (hs : Sound files valid fs)
    {a : Call × Answer} (hadmitted : Admitted env find fs a.1) (hstep : Step env fs a fs') :
    Sound files valid fs' ∧ Meets find (contents fs files) a (contents fs' files) := by
  obtain ⟨call, answer⟩ := a
  obtain ⟨fs'', answer', hperform, hs', hmeets⟩ := call_meets hr hs hadmitted
  obtain ⟨rfl, rfl⟩ := Prod.mk.inj (Option.some.inj (hperform.symm.trans hstep))
  exact ⟨hs', hmeets⟩

end Calls

/-! ## Two files -/

/-- Blocks 0 and 1 of a disk without indirect blocks, with one byte and two bytes in them. -/
def twoFiles : FileSystem smallLayout where
  inodes i := if i = 0 then { size := 1, direct := Vector.replicate 1 0, indirect := unassigned }
    else { size := 2, direct := Vector.replicate 1 1, indirect := unassigned }
  data x := UInt8.ofNat x
  dataMap _ := 1
  dblockCount := 2

def twoFind : Path → Option ({0, 1} : Set ℕ)
  | [47, 97] => some ⟨0, by simp⟩
  | [47, 98] => some ⟨1, by simp⟩
  | _ => none

/-- The paths `/a` and `/b`; each file has one block. -/
def twoEnv : Env smallLayout where
  getInode _ path := (twoFind path).map Subtype.val
  isVirtualPath _ := none
  minBlockcount fs _ n := (fs, decide (n ≤ 1))
  firstUnusedInode _ := none
  parentDirectory _ path := (some 0, path)
  initInode fs _ _ := fs
  addDataBlockToInode fs _ := fs
  makeStringFromDirent name _ := name
  stack _ := 0

theorem relies_twoEnv : Relies twoEnv {0, 1} twoFind fun _ owned => owned = fun _ => 1 where
  found _ _ := rfl
  stored hvalid _ _ _ := hvalid
  reserved := by
    rintro fs owned path i rfl hfiles hfind size hsize
    refine ⟨_, rfl, hfiles, fun j hj => ⟨rfl, rfl⟩, fun henough => ?_⟩
    have h : ((size / smallLayout.blockSize + 1 : ℕ) : ℤ) ≤ 1 := of_decide_eq_true henough
    exact_mod_cast h

theorem sound_twoFiles : Sound {0, 1} (fun _ owned => owned = fun _ => 1) twoFiles := by
  refine ⟨_, rfl, ⟨?_, ?_, ?_, ?_, ?_⟩⟩
  · rintro i (rfl | rfl) <;> exact ⟨by decide, by decide, by decide⟩
  · rintro i (rfl | rfl) <;> decide
  · rintro i (rfl | rfl) <;> decide
  · rintro i (rfl | rfl) j (rfl | rfl) hne
    · exact absurd rfl hne
    · decide
    · decide
    · exact absurd rfl hne
  · rintro i _ j (rfl | rfl) _ p _ a ha <;> cases ha

end Cs241.Minixfs
