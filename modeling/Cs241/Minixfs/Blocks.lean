import Mathlib.Algebra.Order.Ring.Nat
import Mathlib.Tactic.Linarith
import Mathlib.Tactic.Ring
import Cs241.Minixfs.Model

/-!
# The bytes of a file

The byte at position `p` of a file lies in the block `p / blockSize`. The loops of
`minixfs_write` and `minixfs_read` go from block to block; together their rounds store
to, or collect from, consecutive positions.
-/
namespace Cs241.Minixfs

open Foundation

variable {c : Layout}

theorem Layout.blockSize_pos (c : Layout) : 0 < c.blockSize := c.one_lt_blockSize.le

namespace FileSystem

/-- Where a byte of a file lies. -/
def address (fs : FileSystem c) (node : Inode c) (p : ℕ) : ℕ :=
  (fs.block node (p / c.blockSize : ℕ)).getD 0 + p % c.blockSize

/-- The logical content of a file. -/
def content (fs : FileSystem c) (i : ℕ) : List UInt8 :=
  gather fs.data (fs.address (fs.inodes i)) 0 (fs.inodes i).size

@[simp] theorem length_content (fs : FileSystem c) (i : ℕ) :
    (fs.content i).length = (fs.inodes i).size := length_gather

/-- The first `n` blocks of a file are there, all different, and none is its indirect block. -/
structure Assigned (fs : FileSystem c) (node : Inode c) (n : ℕ) : Prop where
  assigned : ∀ b < n, (fs.block node (b : ℕ)).isSome
  distinct : ∀ b < n, ∀ b' < n, fs.block node (b : ℕ) = fs.block node (b' : ℕ) → b = b'
  indirect : ∀ b < n, fs.block node (b : ℕ) ≠ fs.blockAddress node.indirect

/-- The blocks of a file are the same ones: its indirect block is. -/
structure SameBlocks (fs fs' : FileSystem c) (node : Inode c) : Prop where
  dblockCount : fs'.dblockCount = fs.dblockCount
  data : ∀ a, fs.blockAddress node.indirect = some a → ∀ x, a ≤ x → x < a + c.blockSize →
    fs'.data x = fs.data x

section Addresses

variable {fs fs' : FileSystem c} {node : Inode c} {a a' b n p q : ℕ} {bnum number : ℤ}

theorem blockAddress_dvd (h : fs.blockAddress number = some a) : c.blockSize ∣ a := by
  unfold blockAddress at h
  split_ifs at h
  exact ⟨number.toNat, by rw [← Option.some.inj h, Nat.mul_comm]⟩

theorem block_dvd (h : fs.block node bnum = some a) : c.blockSize ∣ a := by
  obtain ⟨number, -, hnumber⟩ := Option.bind_eq_some_iff.mp h
  exact blockAddress_dvd hnumber

/-- Two blocks are apart. -/
theorem apart_of_ne (h : c.blockSize ∣ a) (h' : c.blockSize ∣ a') (hne : a ≠ a') :
    a + c.blockSize ≤ a' ∨ a' + c.blockSize ≤ a := by
  obtain ⟨k, rfl⟩ := h
  obtain ⟨k', rfl⟩ := h'
  rcases Nat.lt_or_ge k k' with hlt | hge
  · exact .inl (by rw [← Nat.mul_succ]; exact Nat.mul_le_mul_left _ hlt)
  · have hlt : k' < k := lt_of_le_of_ne hge fun heq => hne (by rw [heq])
    exact .inr (by rw [← Nat.mul_succ]; exact Nat.mul_le_mul_left _ hlt)

theorem SameBlocks.refl (fs : FileSystem c) (node : Inode c) : SameBlocks fs fs node :=
  ⟨rfl, fun _ _ _ _ _ => rfl⟩

theorem SameBlocks.blockAddress (h : SameBlocks fs fs' node) (number : ℤ) :
    fs'.blockAddress number = fs.blockAddress number := by
  rw [FileSystem.blockAddress, FileSystem.blockAddress, h.dblockCount]

theorem SameBlocks.block (h : SameBlocks fs fs' node) (bnum : ℤ) :
    fs'.block node bnum = fs.block node bnum := by
  have hnumber : fs'.blockNumber node bnum = fs.blockNumber node bnum := by
    unfold blockNumber
    rw [h.blockAddress]
    cases hind : fs.blockAddress node.indirect with
    | none => rfl
    | some a =>
      -- The numbers are read from the indirect block.
      have hbytes {i : ℕ} (hi : (i + 1) * c.numberSize ≤ c.blockSize) :
          readBytes fs'.data (a + i * c.numberSize) c.numberSize =
            readBytes fs.data (a + i * c.numberSize) c.numberSize := by
        rw [Nat.succ_mul] at hi
        exact readBytes_congr fun x h₁ h₂ => h.data a hind x (by omega) (by omega)
      simp only [Option.bind_eq_bind, Option.bind_some]
      split_ifs with h₁ h₂ h₃
      · rfl
      · rfl
      · rw [hbytes h₃]
      · rfl
  rw [FileSystem.block, FileSystem.block, hnumber]
  exact congrArg _ (funext h.blockAddress)

theorem SameBlocks.address (h : SameBlocks fs fs' node) :
    fs'.address node = fs.address node := by
  funext p
  rw [FileSystem.address, FileSystem.address, h.block]

/-- Inside of a block positions are consecutive. -/
theorem address_add {boff : ℕ} (hblock : fs.block node (b : ℕ) = some a)
    (hboff : boff < c.blockSize) : fs.address node (b * c.blockSize + boff) = a + boff := by
  have hdiv : (b * c.blockSize + boff) / c.blockSize = b := by
    rw [Nat.mul_comm, Nat.mul_add_div c.blockSize_pos, Nat.div_eq_of_lt hboff, Nat.add_zero]
  have hmod : (b * c.blockSize + boff) % c.blockSize = boff := by
    rw [Nat.mul_comm, Nat.mul_add_mod, Nat.mod_eq_of_lt hboff]
  rw [address, hdiv, hmod, hblock, Option.getD_some]

theorem Assigned.block (h : Assigned fs node n) (hb : b < n) :
    ∃ a, fs.block node (b : ℕ) = some a := Option.isSome_iff_exists.mp (h.assigned b hb)

/-- The bytes of a file lie at different addresses. -/
theorem Assigned.injOn (h : Assigned fs node n) :
    Set.InjOn (fs.address node) (Set.Iio (n * c.blockSize)) := by
  intro p hp q hq heq
  have hpn := Nat.div_lt_of_lt_mul ((Set.mem_Iio.mp hp).trans_eq (Nat.mul_comm _ _))
  have hqn := Nat.div_lt_of_lt_mul ((Set.mem_Iio.mp hq).trans_eq (Nat.mul_comm _ _))
  obtain ⟨a, ha⟩ := h.block hpn
  obtain ⟨a', ha'⟩ := h.block hqn
  have hpmod := Nat.mod_lt p c.blockSize_pos
  have hqmod := Nat.mod_lt q c.blockSize_pos
  rw [FileSystem.address, FileSystem.address, ha, ha', Option.getD_some, Option.getD_some] at heq
  have haa' : a = a' := by
    by_contra hne
    have := apart_of_ne (block_dvd ha) (block_dvd ha') hne
    omega
  have hdiv := h.distinct _ hpn _ hqn (by rw [ha, ha', haa'])
  rw [← Nat.div_add_mod p c.blockSize, ← Nat.div_add_mod q c.blockSize, hdiv]
  omega

/-- No byte of a file lies in its indirect block. -/
theorem Assigned.outside_indirect (h : Assigned fs node n)
    (ha : fs.blockAddress node.indirect = some a) (hp : p < n * c.blockSize) :
    fs.address node p < a ∨ a + c.blockSize ≤ fs.address node p := by
  have hpn := Nat.div_lt_of_lt_mul (hp.trans_eq (Nat.mul_comm _ _))
  obtain ⟨a', ha'⟩ := h.block hpn
  have hmod := Nat.mod_lt p c.blockSize_pos
  have hne : a' ≠ a := fun heq => h.indirect _ hpn (by rw [ha', ha, heq])
  rw [FileSystem.address, ha', Option.getD_some]
  rcases apart_of_ne (block_dvd ha') (blockAddress_dvd ha) hne with hlt | hgt <;> omega

end Addresses

end FileSystem

/-! ## Room -/

namespace FileSystem

/-- The number of free blocks. -/
def free (fs : FileSystem c) : ℕ := (List.range fs.dblockCount).countP fun i => fs.dataMap i = 0

/-- How many blocks a file lacks to have `n`, with the indirect block if it needs one. -/
def missing (fs : FileSystem c) (node : Inode c) (n : ℕ) : ℕ :=
  ((List.range n).countP fun b => (fs.block node (b : ℕ)).isNone) +
    if c.numDirect < n ∧ (fs.blockAddress node.indirect).isNone then 1 else 0

/-- A file can have `n` blocks: it may, and there are enough free ones. -/
def Available (fs : FileSystem c) (node : Inode c) (n : ℕ) : Prop :=
  n ≤ c.numDirect + c.blockSize / c.numberSize ∧ fs.missing node n ≤ fs.free

instance (fs : FileSystem c) (node : Inode c) (n : ℕ) : Decidable (fs.Available node n) :=
  inferInstanceAs (Decidable (_ ∧ _))

variable {fs : FileSystem c} {node : Inode c} {m n : ℕ}

theorem missing_mono (h : m ≤ n) : fs.missing node m ≤ fs.missing node n := by
  obtain ⟨k, rfl⟩ := Nat.exists_eq_add_of_le h
  unfold missing
  rw [List.range_add, List.countP_append]
  split_ifs with h₁ h₂
  · omega
  · exact absurd ⟨h₁.1.trans_le (Nat.le_add_right m k), h₁.2⟩ h₂
  · omega
  · omega

/-- Fewer blocks are available, too. -/
theorem Available.mono (h : m ≤ n) (hn : fs.Available node n) : fs.Available node m :=
  ⟨h.trans hn.1, (missing_mono h).trans hn.2⟩

end FileSystem

/-! ## The loops -/

section Loops

variable {fs₀ fs : FileSystem c} {node : Inode c} {n b boff fuel : ℕ}

/-- The block of a position. -/
theorem lt_of_mul_add_lt {k : ℕ} (hend : b * c.blockSize + boff + k ≤ n * c.blockSize)
    (hk : 0 < k) : b < n := by
  by_contra hle
  have := Nat.mul_le_mul_right c.blockSize (not_lt.mp hle)
  omega

/-- A piece that stays inside of a block. -/
theorem scatter_piece {m : Mem} {a : ℕ} {piece : List UInt8}
    (hblock : fs.block node (b : ℕ) = some a) (hpiece : boff + piece.length ≤ c.blockSize) :
    scatter m id (a + boff) piece = scatter m (fs.address node) (b * c.blockSize + boff) piece := by
  refine scatter_congr fun k hk => ?_
  rw [Nat.add_assoc (b * c.blockSize), FileSystem.address_add hblock (by omega), Nat.add_assoc]
  rfl

theorem gather_piece {m : Mem} {a k : ℕ} (hblock : fs.block node (b : ℕ) = some a)
    (hpiece : boff + k ≤ c.blockSize) :
    gather m id (a + boff) k = gather m (fs.address node) (b * c.blockSize + boff) k := by
  refine gather_congr fun j hj => ?_
  rw [Nat.add_assoc (b * c.blockSize), FileSystem.address_add hblock (by omega), Nat.add_assoc]
  rfl

/-- Storing into a block of a file leaves its blocks where they are. -/
theorem FileSystem.Assigned.store (h : fs₀.Assigned node n) (hs : fs₀.SameBlocks fs node)
    {a : ℕ} (hb : b < n) (hblock : fs₀.block node (b : ℕ) = some a) {piece : List UInt8}
    (hpiece : boff + piece.length ≤ c.blockSize) :
    fs₀.SameBlocks (fs.store (a + boff) piece) node := by
  refine ⟨hs.dblockCount, fun a' ha' x h₁ h₂ => ?_⟩
  have hne : a ≠ a' := fun heq => h.indirect b hb (by rw [hblock, ha', heq])
  have hapart := FileSystem.apart_of_ne (FileSystem.block_dvd hblock)
    (FileSystem.blockAddress_dvd ha') hne
  have hkept : scatter fs.data id (a + boff) piece x = fs.data x :=
    scatter_of_ne fun k hk heq => by simp only [id] at heq; omega
  exact hkept.trans (hs.data a' ha' x h₁ h₂)

theorem writeLoop_succ {bnum : ℤ} {buf : List UInt8} (hbuf : buf ≠ []) :
    writeLoop node (fuel + 1) fs buf bnum boff = (fs.block node bnum).bind fun a =>
      let k := min (c.blockSize - boff) buf.length
      writeLoop node fuel (fs.store (a + boff) (buf.take k)) (buf.drop k) (bnum + 1) 0 := by
  obtain ⟨x, xs, rfl⟩ := List.exists_cons_of_ne_nil hbuf
  rfl

/-- The loop of `minixfs_write` stores what is left of the buffer. -/
theorem writeLoop_spec {buf : List UInt8} (h : fs₀.Assigned node n) (hs : fs₀.SameBlocks fs node)
    (hboff : boff < c.blockSize) (hend : b * c.blockSize + boff + buf.length ≤ n * c.blockSize)
    (hfuel : buf.length ≤ fuel) : writeLoop node fuel fs buf b boff = some
      { fs with data := scatter fs.data (fs₀.address node) (b * c.blockSize + boff) buf } := by
  induction fuel generalizing b boff fs buf with
  | zero =>
    rw [List.eq_nil_of_length_eq_zero (Nat.le_zero.mp hfuel)]
    rfl
  | succ fuel ih =>
    by_cases hbuf : buf = []
    · rw [hbuf]
      rfl
    have hpos : 0 < buf.length := List.length_pos_of_ne_nil hbuf
    have hb : b < n := lt_of_mul_add_lt hend hpos
    obtain ⟨a, ha⟩ := h.block hb
    obtain ⟨k, hk⟩ : ∃ k, k = min (c.blockSize - boff) buf.length := ⟨_, rfl⟩
    have hpiece : boff + (buf.take k).length ≤ c.blockSize := by
      rw [List.length_take]
      omega
    have hstep : writeLoop node (fuel + 1) fs buf b boff =
        writeLoop node fuel (fs.store (a + boff) (buf.take k)) (buf.drop k) ((b + 1 : ℕ) : ℤ)
          0 := by
      rw [writeLoop_succ hbuf, hs.block, ha, hk]
      rfl
    have hstore : fs.store (a + boff) (buf.take k) =
        { fs with data :=
            scatter fs.data (fs₀.address node) (b * c.blockSize + boff) (buf.take k) } := by
      rw [FileSystem.store, scatter_piece ha hpiece]
    rw [hstep]
    rcases Nat.lt_or_ge k buf.length with hlt | hge
    · -- The block is full.
      have hnext : b * c.blockSize + boff + k = (b + 1) * c.blockSize + 0 := by
        rw [Nat.succ_mul]
        omega
      rw [ih (h.store hs hb ha hpiece) c.blockSize_pos (by rw [List.length_drop]; omega)
        (by rw [List.length_drop]; omega), hstore]
      have hlen : (buf.take k).length = k := by
        rw [List.length_take]
        omega
      conv_rhs => rw [← List.take_append_drop k buf, scatter_append, hlen, hnext]
    · rw [List.take_of_length_le hge] at hstore ⊢
      rw [List.drop_eq_nil_of_le hge, hstore]
      cases fuel <;> rfl

theorem readLoop_succ {bnum : ℤ} {buf : Mem} {pos unread : ℕ} (hunread : unread ≠ 0) :
    readLoop fs node (fuel + 1) buf pos unread bnum boff = (fs.block node bnum).bind fun a =>
      let k := min (c.blockSize - boff) unread
      readLoop fs node fuel (scatter buf id pos (gather fs.data id (a + boff) k)) (pos + k)
        (unread - k) (bnum + 1) 0 := by
  obtain ⟨u, rfl⟩ := Nat.exists_eq_succ_of_ne_zero hunread
  rfl

/-- The loop of `minixfs_read` collects what is still unread. -/
theorem readLoop_spec {buf : Mem} {pos unread : ℕ}
    (h : ∀ b < n, (fs.block node (b : ℕ)).isSome) (hboff : boff < c.blockSize)
    (hend : b * c.blockSize + boff + unread ≤ n * c.blockSize) (hfuel : unread ≤ fuel) :
    readLoop fs node fuel buf pos unread b boff = some (scatter buf id pos
      (gather fs.data (fs.address node) (b * c.blockSize + boff) unread)) := by
  induction fuel generalizing b boff buf pos unread with
  | zero =>
    rw [Nat.le_zero.mp hfuel]
    rfl
  | succ fuel ih =>
    by_cases hunread : unread = 0
    · rw [hunread]
      rfl
    have hb : b < n := lt_of_mul_add_lt hend (Nat.pos_of_ne_zero hunread)
    obtain ⟨a, ha⟩ := Option.isSome_iff_exists.mp (h b hb)
    obtain ⟨k, hk⟩ : ∃ k, k = min (c.blockSize - boff) unread := ⟨_, rfl⟩
    have hstep : readLoop fs node (fuel + 1) buf pos unread b boff =
        readLoop fs node fuel (scatter buf id pos (gather fs.data id (a + boff) k)) (pos + k)
          (unread - k) ((b + 1 : ℕ) : ℤ) 0 := by
      rw [readLoop_succ hunread, ha, hk]
      rfl
    rw [hstep, gather_piece ha (by omega)]
    rcases Nat.lt_or_ge k unread with hlt | hge
    · -- The rest of the block is read.
      have hnext : b * c.blockSize + boff + k = (b + 1) * c.blockSize + 0 := by
        rw [Nat.succ_mul]
        omega
      rw [ih c.blockSize_pos (by omega) (by omega)]
      have hsplit : unread = k + (unread - k) := by omega
      conv_rhs => rw [hsplit, gather_add, scatter_append, length_gather, hnext]
    · have hall : k = unread := by omega
      rw [hall, Nat.sub_self]
      cases fuel <;> rfl

end Loops

end Cs241.Minixfs
