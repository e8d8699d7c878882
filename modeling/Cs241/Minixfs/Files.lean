import Cs241.Minixfs.Blocks

/-!
# Reading and writing files

`minixfs_write` stores the buffer at the positions from the offset on and ends the file
there, after `minixfs_min_blockcount` made room for one block more than the offset after
it divided by the block size; `minixfs_read` collects what was stored. Compared with a
file as a list of bytes, a write is right unless it ends before the file does, and a
read unless it starts behind the end.
-/
namespace Cs241.Minixfs

open Foundation

variable {c : Layout}

/-- What `minixfs_write` asks for: room for `size` bytes, and how many blocks that is. -/
def Env.asked (env : Env c) (fs : FileSystem c) (path : Path) (size : ℕ) : FileSystem c × Bool :=
  env.minBlockcount fs path (size / c.blockSize + 1 : ℕ)

section Write

variable {env : Env c} {fs : FileSystem c} {path : Path} {buf : List UInt8} {off i n : ℕ}

theorem asked_eq (hlen : off + buf.length < 2 ^ 31) :
    env.minBlockcount fs path (toInt ((toSize (off + buf.length) / c.blockSize + 1 : ℕ))) =
      env.asked fs path (off + buf.length) := by
  have hsize : toSize (off + buf.length) = off + buf.length := by
    exact_mod_cast toSize_of_lt (n := off + buf.length) (by omega)
  have hdiv : (off + buf.length) / c.blockSize ≤ (off + buf.length) / 2 :=
    Nat.div_le_div_left c.one_lt_blockSize (by omega)
  unfold Env.asked
  rw [hsize]
  generalize (off + buf.length) / c.blockSize = q at hdiv ⊢
  rw [toInt_of_lt (by omega) (by omega)]

theorem write_reserved (hlen : off + buf.length < 2 ^ 31)
    (hreserved : (env.asked fs path (off + buf.length)).2 = true)
    (hfound : env.getInode (env.asked fs path (off + buf.length)).1 path = some i) :
    write env fs path buf off = writeNode (env.asked fs path (off + buf.length)).1 i buf off := by
  rw [write]
  simp only [asked_eq hlen]
  rw [if_pos hreserved, hfound]

theorem write_refused (hlen : off + buf.length < 2 ^ 31)
    (hrefused : (env.asked fs path (off + buf.length)).2 = false) :
    write env fs path buf off = some
      { fs := (env.asked fs path (off + buf.length)).1, off := off, ret := -1
        errno := some .ENOSPC } := by
  rw [write]
  simp only [asked_eq hlen]
  rw [if_neg (by simp [hrefused])]

/-- The file system with the buffer stored, and the file ending there. -/
def FileSystem.written (fs : FileSystem c) (i : ℕ) (buf : List UInt8) (off : ℕ) : FileSystem c :=
  { fs with
    data := scatter fs.data (fs.address (fs.inodes i)) off buf
    inodes := Function.update fs.inodes i { fs.inodes i with size := off + buf.length } }

theorem written_inode :
    (fs.written i buf off).inodes i = { fs.inodes i with size := off + buf.length } :=
  Function.update_self _ _ _

/-- What is stored in a file leaves its blocks where they are. -/
theorem FileSystem.Assigned.written_block (h : fs.Assigned (fs.inodes i) n)
    (hn : off + buf.length ≤ n * c.blockSize) (bnum : ℤ) :
    (fs.written i buf off).block ((fs.written i buf off).inodes i) bnum =
      fs.block (fs.inodes i) bnum := by
  have hsame : fs.SameBlocks (fs.written i buf off) (fs.inodes i) := by
    refine ⟨rfl, fun a ha x h₁ h₂ => scatter_of_ne fun k hk heq => ?_⟩
    have houtside := h.outside_indirect ha (p := off + k) (by omega)
    omega
  rw [written_inode, ← hsame.block]
  rfl

theorem FileSystem.Assigned.written_address (h : fs.Assigned (fs.inodes i) n)
    (hn : off + buf.length ≤ n * c.blockSize) :
    (fs.written i buf off).address ((fs.written i buf off).inodes i) =
      fs.address (fs.inodes i) := by
  funext p
  rw [FileSystem.address, FileSystem.address, h.written_block hn]

theorem writeNode_spec (hlen : off + buf.length < 2 ^ 31) (h : fs.Assigned (fs.inodes i) n)
    (hn : off + buf.length ≤ n * c.blockSize) :
    writeNode fs i buf off = some
      { fs := fs.written i buf off, off := off + buf.length, ret := buf.length
        errno := none } := by
  have hunwritten : toInt buf.length = buf.length := toInt_of_lt (by omega) (by omega)
  have hdiv : off / c.blockSize ≤ off := Nat.div_le_self _ _
  have hbnum : toInt ((off : ℤ) / c.blockSize) = (off / c.blockSize : ℕ) := by
    rw [← Int.natCast_div]
    generalize off / c.blockSize = q at hdiv ⊢
    exact toInt_of_lt (by omega) (by omega)
  have hsize : toSize (off + buf.length) = off + buf.length := by
    exact_mod_cast toSize_of_lt (n := off + buf.length) (by omega)
  have hpos : off / c.blockSize * c.blockSize + off % c.blockSize = off := Nat.div_add_mod' _ _
  have hret : toSsize buf.length = buf.length := toSsize_of_lt (by omega) (by omega)
  rw [writeNode, hunwritten, Int.toNat_natCast, List.take_length, hbnum,
    writeLoop_spec h (.refl fs _) (Nat.mod_lt _ c.blockSize_pos) (by omega) le_rfl, hpos, hret,
    hsize]
  rfl

end Write

section Read

variable {env : Env c} {fs : FileSystem c} {path : Path} {buf : Mem} {count off size i n : ℕ}

/-- Up to the end of the file the difference does not wrap. -/
theorem unread_eq (hsize : size < 2 ^ 31) (hcount : count < 2 ^ 31) (h : off ≤ size ∨ count = 0) :
    toInt (min (toSize (size - off)) count : ℕ) = (min count (size - off) : ℕ) := by
  rcases h with hle | rfl
  · have hdiff : toSize (size - off) = size - off := by
      rw [← Int.ofNat_sub hle]
      exact toSize_of_lt (by omega)
    rw [hdiff, Nat.min_comm, toInt_of_lt (by omega) (by omega)]
  · rw [Nat.min_zero, Nat.zero_min]
    exact toInt_of_lt le_rfl (by norm_num)

/-- Behind the end it does, and nothing is left out. -/
theorem unread_past (hcount : count < 2 ^ 31) (hoff : off < 2 ^ 63) (h : size < off) :
    toInt (min (toSize (size - off)) count : ℕ) = count := by
  have hdiff : count ≤ toSize (size - off) := by
    unfold toSize
    omega
  rw [Nat.min_eq_right hdiff, toInt_of_lt (by omega) (by omega)]

/-- Up to the end of the file, what is there is collected. -/
theorem read_spec (buf : Mem) (count off : ℕ) (hvirtual : env.isVirtualPath path = none)
    (hfound : env.getInode fs path = some i) (hsize : (fs.inodes i).size < 2 ^ 31)
    (hcount : count < 2 ^ 31) (hoff : off < 2 ^ 63)
    (hblocks : ∀ b < n, (fs.block (fs.inodes i) (b : ℕ)).isSome)
    (hn : (fs.inodes i).size ≤ n * c.blockSize) (h : off ≤ (fs.inodes i).size ∨ count = 0) :
    read env fs path buf count off = some
      { buf := scatter buf id 0 (gather fs.data (fs.address (fs.inodes i)) off
          (min count ((fs.inodes i).size - off)))
        off := off + min count ((fs.inodes i).size - off)
        ret := (min count ((fs.inodes i).size - off) : ℕ), errno := none } := by
  rw [read, hvirtual]
  dsimp only
  rw [hfound]
  dsimp only
  rw [unread_eq hsize hcount h]
  obtain ⟨k, hk⟩ : ∃ k, k = min count ((fs.inodes i).size - off) := ⟨_, rfl⟩
  have hk' : k < 2 ^ 31 := by omega
  have hnext : toSize (off + toSize k) = off + k := by
    rw [toSize_of_lt (by omega)]
    exact_mod_cast toSize_of_lt (n := off + k) (by omega)
  have hret : toSsize (toSize k) = k := by
    rw [toSize_of_lt (by omega)]
    exact toSsize_of_lt (by omega) (by omega)
  rw [← hk, Int.toNat_natCast, hnext, hret]
  cases hzero : k with
  | zero => rfl
  | succ j =>
    have hle : off ≤ (fs.inodes i).size := by omega
    have hbnum : toInt ((off : ℤ) / c.blockSize) = (off / c.blockSize : ℕ) := by
      have hdiv : off / c.blockSize ≤ off := Nat.div_le_self _ _
      rw [← Int.natCast_div]
      generalize off / c.blockSize = q at hdiv ⊢
      exact toInt_of_lt (by omega) (by omega)
    have hpos : off / c.blockSize * c.blockSize + off % c.blockSize = off := Nat.div_add_mod' _ _
    rw [hbnum, readLoop_spec hblocks (Nat.mod_lt _ c.blockSize_pos) (by omega) le_rfl, hpos]
    rfl

end Read

/-! ## One write and the read after it -/

/-- Two file systems that differ in the bytes and the size of one file only. -/
structure FileSystem.OnlyFile (fs fs' : FileSystem c) (i n : ℕ) : Prop where
  inodes : ∀ j, j ≠ i → fs'.inodes j = fs.inodes j
  direct : (fs'.inodes i).direct = (fs.inodes i).direct
  indirect : (fs'.inodes i).indirect = (fs.inodes i).indirect
  data : ∀ x, (∀ p < n * c.blockSize, fs.address (fs.inodes i) p ≠ x) → fs'.data x = fs.data x
  dataMap : fs'.dataMap = fs.dataMap
  dblockCount : fs'.dblockCount = fs.dblockCount

section Results

variable {env : Env c} {fs fs₁ : FileSystem c} {path : Path} {buf : List UInt8} {off i n : ℕ}

theorem FileSystem.written_onlyFile (hn : off + buf.length ≤ n * c.blockSize) :
    fs.OnlyFile (fs.written i buf off) i n where
  inodes j hj := Function.update_of_ne hj _ _
  direct := by rw [written_inode]
  indirect := by rw [written_inode]
  data x hx := scatter_of_ne fun k hk => hx (off + k) (by omega)
  dataMap := rfl
  dblockCount := rfl

/-- The blocks that were asked for are enough. -/
theorem le_asked (c : Layout) (size : ℕ) : size ≤ (size / c.blockSize + 1) * c.blockSize :=
  (Nat.lt_div_mul_add c.blockSize_pos).le.trans_eq (Nat.succ_mul _ _).symm

/-- A write that succeeds stores the buffer, and nothing else, and a read straight after it gets the
buffer back. -/
theorem write_read (hlen : off + buf.length < 2 ^ 31) (hexists : env.getInode fs path = some i)
    (hvirtual : env.isVirtualPath path = none)
    (hasked : (env.asked fs path (off + buf.length)).1 = fs₁)
    (hkept : ∀ j, env.getInode fs path = some j → env.getInode fs₁ path = some j)
    (hassigned : (env.asked fs path (off + buf.length)).2 = true →
      fs₁.Assigned (fs₁.inodes i) ((off + buf.length) / c.blockSize + 1))
    (hlookup : ∀ fs', fs₁.OnlyFile fs' i ((off + buf.length) / c.blockSize + 1) →
      env.getInode fs' path = some i) :
    ∃ w, write env fs path buf off = some w ∧ (w.ret ≠ -1 →
      w.ret = buf.length ∧ w.off = off + buf.length ∧
      (∀ (k : ℕ) (hk : k < buf.length),
        w.fs.data (fs₁.address (fs₁.inodes i) (off + k)) = buf[k]) ∧
      (∀ x, (∀ k < buf.length, fs₁.address (fs₁.inodes i) (off + k) ≠ x) →
        w.fs.data x = fs₁.data x) ∧
      ∀ out, ∃ r, read env w.fs path out buf.length off = some r ∧ r.ret = buf.length ∧
        r.off = off + buf.length ∧ gather r.buf id 0 buf.length = buf) := by
  subst hasked
  cases hreserved : (env.asked fs path (off + buf.length)).2 with
  | false => exact ⟨_, write_refused hlen hreserved, fun h => absurd rfl h⟩
  | true =>
    have hfile := hassigned hreserved
    generalize hfs₁ : (env.asked fs path (off + buf.length)).1 = fs₁ at *
    have hn := le_asked c (off + buf.length)
    have hinj : Set.InjOn (fs₁.address (fs₁.inodes i)) (Set.Ico off (off + buf.length)) :=
      hfile.injOn.mono fun p hp => hp.2.trans_le hn
    have hwrite := write_reserved hlen hreserved (hfs₁ ▸ hkept i hexists)
    rw [hfs₁, writeNode_spec hlen hfile hn] at hwrite
    refine ⟨_, hwrite, fun _ => ⟨rfl, rfl, fun k hk => scatter_apply hinj hk,
      fun x hx => scatter_of_ne hx, fun out => ?_⟩⟩
    -- The file ends where the write did.
    have hread := read_spec out buf.length off hvirtual
      (hlookup _ (fs₁.written_onlyFile hn)) (by rw [written_inode]; exact hlen) (by omega)
      (by omega) (fun b hb => by rw [hfile.written_block hn]; exact hfile.assigned b hb)
      (by rw [written_inode]; exact hn) (.inl (by rw [written_inode]; exact Nat.le_add_right _ _))
    have hcount : min buf.length (off + buf.length - off) = buf.length := by omega
    rw [hfile.written_address hn, written_inode] at hread
    dsimp only at hread
    rw [hcount] at hread
    refine ⟨_, hread, rfl, rfl, ?_⟩
    have hgathered : gather (fs₁.written i buf off).data (fs₁.address (fs₁.inodes i)) off
        buf.length = buf := gather_scatter hinj
    rw [hgathered]
    exact gather_scatter Function.injective_id.injOn

end Results

/-! ## A full disk with one file -/

/-- Blocks of four bytes, one of them direct. -/
def smallLayout : Layout where
  blockSize := 4
  numDirect := 1
  numberSize := 1
  entrySize := 1
  one_lt_blockSize := by decide
  blockSize_lt := by decide
  numberSize_pos := by decide
  entrySize_pos := by decide

/-- Seven bytes in the blocks 0 and 2, the indirect block 1, and the block 3 at its end. -/
def smallDisk : FileSystem smallLayout where
  inodes _ := { size := 7, direct := #v[0], indirect := 1 }
  data x := if x = 4 then 2 else if x = 5 then 3 else if x = 6 ∨ x = 7 then 255
    else UInt8.ofNat x
  dataMap _ := 1
  dblockCount := 4

/-- Every path leads to the file, which gets no more blocks than it has. -/
def smallEnv : Env smallLayout where
  getInode _ _ := some 0
  isVirtualPath _ := none
  minBlockcount fs _ n := (fs, decide (fs.Available (fs.inodes 0) n.toNat))
  firstUnusedInode _ := none
  parentDirectory _ path := (some 0, path)
  initInode fs _ _ := fs
  addDataBlockToInode fs _ := fs
  makeStringFromDirent name _ := name
  stack _ := 0

theorem smallDisk_assigned : smallDisk.Assigned (smallDisk.inodes 0) 3 :=
  ⟨by decide, by decide, by decide⟩

/-- Six bytes from the direct block over the first block of the indirect one. -/
theorem write_read_small :
    ∃ w, write smallEnv smallDisk [47, 102] [1, 2, 3, 4, 5, 6] 2 = some w ∧ (w.ret ≠ -1 →
      w.ret = 6 ∧ w.off = 8 ∧
      (∀ (k : ℕ) (hk : k < 6),
        w.fs.data (smallDisk.address (smallDisk.inodes 0) (2 + k)) = [1, 2, 3, 4, 5, 6][k]) ∧
      (∀ x, (∀ k < 6, smallDisk.address (smallDisk.inodes 0) (2 + k) ≠ x) →
        w.fs.data x = smallDisk.data x) ∧
      ∀ out, ∃ r, read smallEnv w.fs [47, 102] out 6 2 = some r ∧ r.ret = 6 ∧ r.off = 8 ∧
        gather r.buf id 0 6 = [1, 2, 3, 4, 5, 6]) :=
  write_read (by decide) rfl rfl rfl (fun _ h => h)
    (fun _ => smallDisk_assigned) fun _ _ => rfl

end Cs241.Minixfs
