import Mathlib.Algebra.Order.Floor.Div
import Cs241.Minixfs.Files

/-!
# Files as lists of bytes

The content of a file is overwritten by a write that ends at its end or behind it; one
that ends before cuts it off. A read gets the bytes from the offset on, unless it starts
behind the end. A write that ends on the boundary of a block asks for one block more than
it needs, which can be too many.
-/
namespace Cs241.Minixfs

open Foundation

variable {c : Layout} {env : Env c} {fs : FileSystem c} {path : Path} {buf : List UInt8}
  {off i n : ℕ}

/-- What `minixfs_min_blockcount` is relied on for when room for `size` bytes of an existing file is
asked for: the path keeps leading to the file, which keeps its size and content, and if it succeeds
the blocks are there. -/
structure Reserves (env : Env c) (fs : FileSystem c) (path : Path) (i size : ℕ) : Prop where
  found : env.getInode fs path = some i → env.getInode (env.asked fs path size).1 path = some i
  size_eq : ((env.asked fs path size).1.inodes i).size = (fs.inodes i).size
  content_eq : (env.asked fs path size).1.content i = fs.content i
  assigned : (env.asked fs path size).2 = true → (env.asked fs path size).1.Assigned
    ((env.asked fs path size).1.inodes i) (size / c.blockSize + 1)

theorem write_written (hlen : off + buf.length < 2 ^ 31)
    (hexists : env.getInode fs path = some i)
    (hreserves : Reserves env fs path i (off + buf.length))
    (hreserved : (env.asked fs path (off + buf.length)).2 = true) :
    write env fs path buf off = some
      { fs := (env.asked fs path (off + buf.length)).1.written i buf off
        off := off + buf.length, ret := buf.length, errno := none } := by
  rw [write_reserved hlen hreserved (hreserves.found hexists),
    writeNode_spec hlen (hreserves.assigned hreserved) (le_asked c _)]

/-- A write that succeeds overwrites the content, from the offset on, exactly if it does not end
before the end of the file. -/
theorem write_content (hlen : off + buf.length < 2 ^ 31)
    (hexists : env.getInode fs path = some i)
    (hreserves : Reserves env fs path i (off + buf.length)) (hoff : off ≤ (fs.content i).length) :
    ∃ w, write env fs path buf off = some w ∧ (w.ret ≠ -1 →
      ((w.fs.inodes i).size = max (fs.inodes i).size (off + buf.length) ∧
          w.fs.content i = overwrite (fs.content i) off buf ↔
        (fs.inodes i).size ≤ off + buf.length)) := by
  cases hreserved : (env.asked fs path (off + buf.length)).2 with
  | false => exact ⟨_, write_refused hlen hreserved, fun h => absurd rfl h⟩
  | true =>
    refine ⟨_, write_written hlen hexists hreserves hreserved, fun _ => ?_⟩
    have hfile := hreserves.assigned hreserved
    have hsize := hreserves.size_eq
    have hcontent := hreserves.content_eq
    have hn := le_asked c (off + buf.length)
    generalize (env.asked fs path (off + buf.length)).1 = fs₁ at hfile hsize hcontent ⊢
    dsimp only
    constructor
    · rintro ⟨hmax, -⟩
      rw [written_inode] at hmax
      dsimp only at hmax
      omega
    · intro hle
      have hend : max (fs₁.inodes i).size (off + buf.length) = off + buf.length := by omega
      refine ⟨by rw [written_inode, ← hsize, hend], ?_⟩
      have hoff' : off ≤ (fs₁.inodes i).size := by
        rwa [← hcontent, FileSystem.length_content] at hoff
      have hinj : Set.InjOn (fs₁.address (fs₁.inodes i))
          (Set.Iio (max (fs₁.inodes i).size (off + buf.length))) :=
        hfile.injOn.mono fun p hp => (Set.mem_Iio.mp hp).trans_le (by rwa [hend])
      have hoverwrite := gather_scatter_overwrite (m := fs₁.data) hoff' hinj
      rw [hend] at hoverwrite
      rw [← hcontent, FileSystem.content, hfile.written_address hn, written_inode]
      exact hoverwrite

theorem smallEnv_reserves {size : ℕ} (h : size / 4 + 1 ≤ 3) :
    Reserves smallEnv smallDisk [47, 102] 0 size where
  found := id
  size_eq := rfl
  content_eq := rfl
  assigned _ := ⟨fun b hb => smallDisk_assigned.assigned b (hb.trans_le h),
    fun b hb b' hb' => smallDisk_assigned.distinct b (hb.trans_le h) b' (hb'.trans_le h),
    fun b hb => smallDisk_assigned.indirect b (hb.trans_le h)⟩

/-- Two bytes across the end of the file. -/
theorem write_content_small :
    ∃ w, write smallEnv smallDisk [47, 102] [77, 78] 6 = some w ∧ (w.ret ≠ -1 →
      ((w.fs.inodes 0).size = max 7 (6 + 2) ∧
          w.fs.content 0 = overwrite (smallDisk.content 0) 6 [77, 78] ↔ 7 ≤ 6 + 2)) :=
  write_content (by decide) rfl (smallEnv_reserves (by decide)) (by decide)

/-- A byte at the start of the file leaves nothing else of it. -/
theorem write_truncates : smallEnv.getInode smallDisk [47, 102] = some 0 ∧
    smallDisk.content 0 = [0, 1, 2, 3, 8, 9, 10] ∧
    (write smallEnv smallDisk [47, 102] [77] 0).map (fun w => (w.ret, w.fs.content 0)) =
      some (1, [77]) :=
  ⟨rfl, by decide, by decide +kernel⟩

/-! ## Reading -/

/-- Where the content from an offset on lies. -/
theorem gather_content {k : ℕ} (hk : k ≤ (fs.inodes i).size - off) :
    gather fs.data (fs.address (fs.inodes i)) off k = ((fs.content i).drop off).take k := by
  rw [FileSystem.content, drop_gather, Nat.zero_add, take_gather hk]

/-- The blocks up to the end of a file. -/
theorem lt_of_lt_ceilDiv {b size : ℕ} (h : b < size ⌈/⌉ c.blockSize) : b * c.blockSize < size := by
  by_contra hle
  rw [not_lt, Nat.mul_comm] at hle
  exact absurd ((ceilDiv_le_iff_le_mul c.blockSize_pos).mpr hle) (not_le.mpr h)

/-- A read gets what there is from the offset on, and no more than asked for, exactly if it does not
start behind the end of the file. -/
theorem read_content (count : ℕ) (out : Mem) (hvirtual : env.isVirtualPath path = none)
    (hexists : env.getInode fs path = some i) (hsize : (fs.inodes i).size < 2 ^ 31)
    (hcount : count < 2 ^ 31) (hoff : off < 2 ^ 63)
    (hblocks : ∀ b, b * c.blockSize < (fs.inodes i).size →
      (fs.block (fs.inodes i) (b : ℕ)).isSome) :
    (∃ r, read env fs path out count off = some r ∧
        r.ret = (min count ((fs.inodes i).size - off) : ℕ) ∧
        r.off = off + min count ((fs.inodes i).size - off) ∧
        gather r.buf id 0 (min count ((fs.inodes i).size - off)) =
          ((fs.content i).drop off).take (min count ((fs.inodes i).size - off)) ∧
        ∀ x, min count ((fs.inodes i).size - off) ≤ x → r.buf x = out x) ↔
      off ≤ (fs.inodes i).size ∨ count = 0 := by
  constructor
  · rintro ⟨r, hr, hret, -⟩
    by_contra hnot
    rw [not_or, not_le] at hnot
    -- All that is asked for is read, or tried to.
    rw [read, hvirtual] at hr
    dsimp only at hr
    rw [hexists] at hr
    dsimp only at hr
    rw [unread_past hcount hoff hnot.1] at hr
    obtain ⟨buf, -, hbuf⟩ := Option.bind_eq_some_iff.mp hr
    have hr' : r.ret = toSsize (toSize count) := by
      rw [← Option.some.inj hbuf]
    rw [toSize_of_lt (by omega), toSsize_of_lt (by omega) (by omega)] at hr'
    omega
  · intro h
    have hn : (fs.inodes i).size ≤ (fs.inodes i).size ⌈/⌉ c.blockSize * c.blockSize :=
      (le_smul_ceilDiv c.blockSize_pos).trans_eq (Nat.mul_comm _ _)
    have hread := read_spec out count off hvirtual hexists hsize hcount hoff
      (fun b hb => hblocks b (lt_of_lt_ceilDiv hb)) hn h
    have hlen : (gather fs.data (fs.address (fs.inodes i)) off
        (min count ((fs.inodes i).size - off))).length =
          min count ((fs.inodes i).size - off) := length_gather
    refine ⟨_, hread, rfl, rfl, ?_, fun x hx => scatter_of_ne fun k hk => ?_⟩
    · rw [← gather_content (Nat.min_le_right _ _)]
      generalize gather fs.data (fs.address (fs.inodes i)) off
        (min count ((fs.inodes i).size - off)) = bytes at hlen ⊢
      rw [← hlen]
      exact gather_scatter Function.injective_id.injOn
    · rw [hlen] at hk
      simp only [id]
      omega

/-- Two bytes up to the end of the file, where four are asked for. -/
theorem read_content_small :
    ∃ r, read smallEnv smallDisk [47, 102] (fun _ => 0) 4 5 = some r ∧ r.ret = 2 ∧ r.off = 7 ∧
      gather r.buf id 0 2 = [9, 10] ∧ ∀ x, 2 ≤ x → r.buf x = 0 := by
  have hblocks : ∀ b, b * smallLayout.blockSize < (smallDisk.inodes 0).size →
      (smallDisk.block (smallDisk.inodes 0) (b : ℕ)).isSome := fun b hb =>
    smallDisk_assigned.assigned b (by
      have hb' : b * 4 < 7 := hb
      omega)
  have hvirtual : smallEnv.isVirtualPath [47, 102] = none := rfl
  have hexists : smallEnv.getInode smallDisk [47, 102] = some 0 := rfl
  have hoff : 5 < 2 ^ 63 := by decide
  have hread := read_content 4 (fun _ => 0) hvirtual hexists (by decide) (by decide) hoff hblocks
  exact hread.mpr (.inl (by decide))

/-- One byte is read behind the end of the file. -/
theorem read_past : smallEnv.getInode smallDisk [47, 102] = some 0 ∧
    (smallDisk.inodes 0).size = 7 ∧
    (read smallEnv smallDisk [47, 102] (fun _ => 0) 1 8).map (fun r => r.ret) = some 1 :=
  ⟨rfl, rfl, by decide +kernel⟩

/-! ## Room -/

theorem ceilDiv_of_dvd {size : ℕ} (h : c.blockSize ∣ size) :
    size ⌈/⌉ c.blockSize = size / c.blockSize := by
  obtain ⟨k, rfl⟩ := h
  rw [Nat.mul_div_cancel_left k c.blockSize_pos]
  exact smul_ceilDiv c.blockSize_pos k

theorem ceilDiv_of_not_dvd {size : ℕ} (h : ¬ c.blockSize ∣ size) :
    size ⌈/⌉ c.blockSize = size / c.blockSize + 1 := by
  refine le_antisymm ((ceilDiv_le_iff_le_mul c.blockSize_pos).mpr ?_) ?_
  · exact (le_asked c size).trans_eq (Nat.mul_comm _ _)
  · by_contra hlt
    have hle := (ceilDiv_le_iff_le_mul c.blockSize_pos).mp (Nat.le_of_lt_succ (not_le.mp hlt))
    exact h ⟨size / c.blockSize, le_antisymm hle (Nat.mul_div_le _ _)⟩

/-- A write succeeds if the blocks up to its end can be had, and otherwise leaves the file alone. -/
def RoomDecides (env : Env c) (fs : FileSystem c) (path : Path) (i : ℕ) (buf : List UInt8)
    (off : ℕ) : Prop :=
  ∃ w, write env fs path buf off = some w ∧
    (fs.Available (fs.inodes i) ((off + buf.length) ⌈/⌉ c.blockSize) →
      w.ret = buf.length ∧ w.off = off + buf.length) ∧
    (¬ fs.Available (fs.inodes i) ((off + buf.length) ⌈/⌉ c.blockSize) →
      w.ret = -1 ∧ w.errno = some .ENOSPC ∧ w.off = off ∧
      (w.fs.inodes i).size = (fs.inodes i).size ∧ w.fs.content i = fs.content i)

/-- The blocks decide, exactly unless the write ends on the boundary of a block and the block behind
cannot be had. -/
theorem write_room (hlen : off + buf.length < 2 ^ 31) (hexists : env.getInode fs path = some i)
    (hreserves : Reserves env fs path i (off + buf.length))
    (havailable : ∀ n : ℕ, (env.minBlockcount fs path n).2 = true ↔
      fs.Available (fs.inodes i) n) :
    RoomDecides env fs path i buf off ↔
      ¬ (c.blockSize ∣ off + buf.length ∧
        fs.Available (fs.inodes i) ((off + buf.length) / c.blockSize) ∧
        ¬ fs.Available (fs.inodes i) ((off + buf.length) / c.blockSize + 1)) := by
  have hasked : (env.asked fs path (off + buf.length)).2 = true ↔
      fs.Available (fs.inodes i) ((off + buf.length) / c.blockSize + 1) := havailable _
  by_cases hnext : fs.Available (fs.inodes i) ((off + buf.length) / c.blockSize + 1)
  · refine ⟨fun _ hnot => hnot.2.2 hnext, fun _ => ?_⟩
    refine ⟨_, write_written hlen hexists hreserves (hasked.mpr hnext), fun _ => ⟨rfl, rfl⟩,
      fun hnot => absurd (hnext.mono ?_) hnot⟩
    exact (ceilDiv_le_iff_le_mul c.blockSize_pos).mpr
      ((le_asked c _).trans_eq (Nat.mul_comm _ _))
  · have hrefused := write_refused hlen (Bool.eq_false_iff.mpr (mt hasked.mp hnext))
    have hfails : RoomDecides env fs path i buf off ↔
        ¬ fs.Available (fs.inodes i) ((off + buf.length) ⌈/⌉ c.blockSize) := by
      constructor
      · rintro ⟨w, hw, hsuccess, -⟩ havail
        obtain rfl := Option.some.inj (hrefused.symm.trans hw)
        have hret := (hsuccess havail).1
        dsimp only at hret
        omega
      · intro hnot
        exact ⟨_, hrefused, fun havail => absurd havail hnot,
          fun _ => ⟨rfl, rfl, rfl, hreserves.size_eq, hreserves.content_eq⟩⟩
    rw [hfails]
    by_cases hdvd : c.blockSize ∣ off + buf.length
    · rw [ceilDiv_of_dvd hdvd]
      exact ⟨fun hnot h => hnot h.2.1, fun hnot havail => hnot ⟨hdvd, havail, hnext⟩⟩
    · rw [ceilDiv_of_not_dvd hdvd]
      exact ⟨fun _ h => hdvd h.1, fun _ => hnext⟩

theorem smallEnv_available (n : ℕ) : (smallEnv.minBlockcount smallDisk [47, 102] n).2 = true ↔
    smallDisk.Available (smallDisk.inodes 0) n := decide_eq_true_iff

/-- One byte before the end of the third block. -/
theorem write_room_small : RoomDecides smallEnv smallDisk [47, 102] 0 [77] 10 :=
  (write_room (by decide) rfl (smallEnv_reserves (by decide)) smallEnv_available).mpr (by decide)

/-- The last byte of the third block cannot be written if there is no fourth one. -/
theorem write_boundary : smallEnv.getInode smallDisk [47, 102] = some 0 ∧
    smallDisk.Available (smallDisk.inodes 0) ((11 + 1) ⌈/⌉ 4) ∧
    (write smallEnv smallDisk [47, 102] [77] 11).map (fun w => w.ret) = some (-1) :=
  ⟨rfl, by decide, by decide +kernel⟩

end Cs241.Minixfs
