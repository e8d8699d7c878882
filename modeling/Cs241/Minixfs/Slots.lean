import Cs241.Minixfs.Blocks

/-!
# The slots of a directory

A direct block of a directory is divided into slots, and a slot whose first byte is zero is
free. The two loops of `minixfs_create_inode_for_path` share a number that each slot makes
smaller. Together they look at the slots one by one, in the order of the blocks, and stop at
the first that is not occupied or where the number becomes negative.
-/
namespace Cs241.Minixfs

open Foundation

variable {c : Layout}

/-- The number of slots in a block. -/
def Layout.slots (c : Layout) : ℕ := c.blockSize / c.entrySize

namespace FileSystem

variable (fs : FileSystem c) (node : Inode c)

/-- The address of a direct block. -/
def directBlock (b : ℕ) : Option ℕ := node.direct[b]?.bind fs.blockAddress

/-- The address of a slot of a directory. -/
def slot (t : ℕ) : Option ℕ :=
  (fs.directBlock node (t / c.slots)).map fun a => a + t % c.slots * c.entrySize

/-- The slot holds an entry. -/
def Occupied (t : ℕ) : Prop := ∃ a, fs.slot node t = some a ∧ fs.data a ≠ 0

end FileSystem

section Layout

variable (hlayout : c.entrySize ∣ c.blockSize)

include hlayout

theorem Layout.slots_mul : c.slots * c.entrySize = c.blockSize := Nat.div_mul_cancel hlayout

theorem Layout.slots_pos : 0 < c.slots :=
  Nat.div_pos (Nat.le_of_dvd c.blockSize_pos hlayout) c.entrySize_pos

theorem Layout.mul_lt {j : ℕ} (hj : j < c.slots) :
    j * c.entrySize + c.entrySize ≤ c.blockSize := by
  rw [← Nat.succ_mul, ← c.slots_mul hlayout]
  exact Nat.mul_le_mul_right _ hj

end Layout

variable {fs : FileSystem c} {node : Inode c} {number size : ℤ} {a i j t fuel bnum : ℕ}

theorem blockAddress_le (ha : fs.blockAddress number = some a) :
    a + c.blockSize ≤ fs.dblockCount * c.blockSize := by
  unfold FileSystem.blockAddress at ha
  split_ifs at ha with hnumber
  rw [← Option.some.inj ha, ← Nat.succ_mul]
  exact Nat.mul_le_mul_right _ (by omega)

/-! ## One block -/

section Block

variable (hlayout : c.entrySize ∣ c.blockSize) (ha : fs.blockAddress number = some a)

include hlayout ha

/-- The loop at a slot of the block. -/
theorem slotLoop_slot (hj : j < c.slots) (hsize : 0 ≤ size) :
    slotLoop fs a (fuel + 1) size (j * c.entrySize) =
      if fs.data (a + j * c.entrySize) = 0 then some (.inl (a + j * c.entrySize))
      else slotLoop fs a fuel (size - c.entrySize) ((j + 1) * c.entrySize) := by
  have hwithin := c.mul_lt hlayout hj
  have hregion := blockAddress_le ha
  have hpos := c.entrySize_pos
  rw [slotLoop, if_pos ⟨hsize, by omega⟩, if_pos (by omega), Nat.succ_mul]

/-- The slots from `j` on are passed as long as they are occupied. -/
theorem slotLoop_passed (hj : j ≤ c.slots) (hfuel : 0 < fuel) (henough : size + 1 < fuel)
    (hoccupied : ∀ i, j ≤ i → i < c.slots → ((i - j : ℕ) * c.entrySize : ℤ) ≤ size →
      fs.data (a + i * c.entrySize) ≠ 0) :
    ∃ rest, slotLoop fs a fuel size (j * c.entrySize) = some (.inr rest) ∧
      (rest = size - (c.slots - j : ℕ) * c.entrySize ∨
        rest < 0 ∧ size < (c.slots - j : ℕ) * c.entrySize) := by
  induction fuel generalizing j size with
  | zero => omega
  | succ fuel ih =>
    have hpos := c.entrySize_pos
    by_cases hsize : 0 ≤ size
    · rcases Nat.lt_or_eq_of_le hj with hlt | rfl
      · rw [slotLoop_slot hlayout ha hlt hsize, if_neg (hoccupied j le_rfl hlt (by simpa))]
        have hless : size - c.entrySize + 1 < fuel := by omega
        obtain ⟨rest, hrest, hcases⟩ := ih (j := j + 1) hlt (by omega) hless
          fun i hi hislots hle => hoccupied i (by omega) hislots (by
            obtain ⟨d, rfl⟩ := Nat.exists_eq_add_of_le hi
            rw [Nat.add_sub_cancel_left] at hle
            rw [show j + 1 + d - j = d + 1 by omega]
            push_cast
            linarith)
        refine ⟨rest, hrest, ?_⟩
        rw [show c.slots - j = c.slots - (j + 1) + 1 by omega]
        push_cast
        rcases hcases with rfl | ⟨hneg, hless⟩
        · exact .inl (by ring)
        · exact .inr ⟨hneg, by linarith⟩
      · exact ⟨size, by rw [slotLoop, c.slots_mul hlayout, if_neg (by simp)], .inl (by simp)⟩
    · have hle : (0 : ℤ) ≤ (c.slots - j : ℕ) * c.entrySize := by positivity
      exact ⟨size, by rw [slotLoop, if_neg (by omega)], .inr ⟨by omega, by omega⟩⟩

/-- The first slot that is not occupied is found. -/
theorem slotLoop_found {d : ℕ} (hj : j + d < c.slots) (hsize : (d * c.entrySize : ℤ) ≤ size)
    (hfuel : size + 1 < fuel)
    (hoccupied : ∀ i, j ≤ i → i < j + d → fs.data (a + i * c.entrySize) ≠ 0)
    (hfree : fs.data (a + (j + d) * c.entrySize) = 0) :
    slotLoop fs a fuel size (j * c.entrySize) = some (.inl (a + (j + d) * c.entrySize)) := by
  have hpos := c.entrySize_pos
  induction d generalizing j size fuel with
  | zero =>
    obtain ⟨fuel, rfl⟩ : ∃ k, fuel = k + 1 := ⟨fuel - 1, by omega⟩
    simp only [Nat.add_zero] at hj hfree ⊢
    rw [slotLoop_slot hlayout ha hj (by simpa using hsize), if_pos hfree]
  | succ d ih =>
    have hle : (0 : ℤ) ≤ d * c.entrySize := by positivity
    push_cast at hsize
    rw [add_mul, one_mul] at hsize
    obtain ⟨fuel, rfl⟩ : ∃ k, fuel = k + 1 := ⟨fuel - 1, by omega⟩
    rw [slotLoop_slot hlayout ha (by omega) (by omega), if_neg (hoccupied j le_rfl (by omega)),
      show j + (d + 1) = j + 1 + d by omega]
    exact ih (by omega) (by omega) (by omega) (fun i hi hid => hoccupied i (by omega) (by omega))
      (by rwa [show j + 1 + d = j + (d + 1) by omega])

end Block

/-! ## All blocks -/

/-- The entry is stored in its slot, and the directory grows. -/
def FileSystem.enter (fs : FileSystem c) (parent slot : ℕ) (entry : List UInt8) : FileSystem c :=
  (fs.store slot entry).setSize parent ((fs.inodes parent).size + c.entrySize)

section Blocks

variable {env : Env c} {parent inodeNum : ℕ} {filename : Path}

theorem directBlock_eq_some {b : ℕ} : fs.directBlock node b = some a ↔
    ∃ number, node.direct[b]? = some number ∧ fs.blockAddress number = some a :=
  Option.bind_eq_some_iff

theorem assigned_of_blockAddress (ha : fs.blockAddress number = some a) : number ≠ unassigned := by
  rintro rfl
  simp [FileSystem.blockAddress, unassigned] at ha

theorem Layout.slots_div (hj : j < c.slots) : (bnum * c.slots + j) / c.slots = bnum := by
  rw [Nat.mul_comm, Nat.mul_add_div (by omega), Nat.div_eq_of_lt hj, Nat.add_zero]

/-- A slot of a block. -/
theorem slot_mul_add (hj : j < c.slots) (ha : fs.directBlock node bnum = some a) :
    fs.slot node (bnum * c.slots + j) = some (a + j * c.entrySize) := by
  have hmod : (bnum * c.slots + j) % c.slots = j := by
    rw [Nat.mul_comm, Nat.mul_add_mod, Nat.mod_eq_of_lt hj]
  rw [FileSystem.slot, Layout.slots_div hj, hmod, ha, Option.map_some]

theorem FileSystem.Occupied.ne_zero (h : fs.Occupied node (bnum * c.slots + j)) (hj : j < c.slots)
    (ha : fs.directBlock node bnum = some a) : fs.data (a + j * c.entrySize) ≠ 0 := by
  obtain ⟨a', ha', hdata⟩ := h
  rw [slot_mul_add hj ha] at ha'
  obtain rfl := Option.some.inj ha'
  exact hdata

theorem FileSystem.Occupied.block (h : fs.Occupied node (bnum * c.slots + j)) (hj : j < c.slots) :
    ∃ a, fs.directBlock node bnum = some a := by
  obtain ⟨_, ha, -⟩ := h
  obtain ⟨a, ha, -⟩ := Option.map_eq_some_iff.mp ha
  rw [Layout.slots_div hj] at ha
  exact ⟨a, ha⟩

/-- A round of the outer loop at a block that is there. -/
theorem blockLoop_block (hsize : 0 ≤ size) (ha : fs.directBlock (fs.inodes parent) bnum = some a) :
    blockLoop env parent inodeNum filename (fuel + 1) fs size bnum =
      (slotLoop fs a (size.toNat + 2) size 0).bind fun r => match r with
        | .inl slot => some (fs.enter parent slot (env.makeStringFromDirent filename inodeNum),
            some inodeNum)
        | .inr rest => blockLoop env parent inodeNum filename fuel fs rest (bnum + 1) := by
  obtain ⟨number, hnumber, ha⟩ := directBlock_eq_some.mp ha
  simp only [blockLoop, if_pos hsize, hnumber, Option.bind_eq_bind, Option.bind_some,
    if_neg (assigned_of_blockAddress ha), ha]
  refine Option.bind_congr fun r _ => ?_
  cases r <;> rfl

/-- A block is passed where its slots are occupied. -/
theorem blockLoop_passed (env : Env c) (inodeNum : ℕ) (filename : Path) (fuel : ℕ)
    (hlayout : c.entrySize ∣ c.blockSize) (hsize : 0 ≤ size)
    (hoccupied : ∀ i < c.slots, (i * c.entrySize : ℤ) ≤ size →
      fs.Occupied (fs.inodes parent) (bnum * c.slots + i)) :
    ∃ rest, blockLoop env parent inodeNum filename (fuel + 1) fs size bnum =
        blockLoop env parent inodeNum filename fuel fs rest (bnum + 1) ∧
      (rest = size - c.blockSize ∨ rest < 0 ∧ size < c.blockSize) := by
  have hslots := c.slots_pos hlayout
  obtain ⟨a, ha⟩ := (hoccupied 0 hslots (by simpa)).block hslots
  obtain ⟨number, -, haddress⟩ := directBlock_eq_some.mp ha
  have henough : size + 1 < (size.toNat + 2 : ℕ) := by omega
  obtain ⟨rest, hrest, hcases⟩ := slotLoop_passed hlayout haddress (Nat.zero_le _)
    (Nat.succ_pos _) henough fun i _ hi hle => (hoccupied i hi (by simpa using hle)).ne_zero hi ha
  rw [Nat.zero_mul] at hrest
  have hblock : ((c.slots - 0 : ℕ) * c.entrySize : ℤ) = c.blockSize := by
    rw [Nat.sub_zero]
    exact_mod_cast c.slots_mul hlayout
  rw [hblock] at hcases
  exact ⟨rest, by rw [blockLoop_block hsize ha, hrest, Option.bind_some], hcases⟩

/-- The loops end where the slots that they come to are occupied. -/
theorem blockLoop_ended (hlayout : c.entrySize ∣ c.blockSize) (hfuel : 0 < fuel)
    (henough : size + 1 < fuel)
    (hoccupied : ∀ d : ℕ, (d * c.entrySize : ℤ) ≤ size →
      fs.Occupied (fs.inodes parent) (bnum * c.slots + d)) :
    blockLoop env parent inodeNum filename fuel fs size bnum = some (fs, none) := by
  induction fuel generalizing bnum size with
  | zero => omega
  | succ fuel ih =>
    by_cases hsize : 0 ≤ size
    · have hpos := c.blockSize_pos
      obtain ⟨rest, hround, hcases⟩ := blockLoop_passed env inodeNum filename fuel hlayout hsize
        fun i _ hle => hoccupied i hle
      rw [hround]
      refine ih (by omega) (by omega) fun d hle => ?_
      rcases hcases with rfl | ⟨hneg, -⟩
      · have hnext := hoccupied (c.slots + d) (by
          push_cast [add_mul, ← c.slots_mul hlayout]
          push_cast [← c.slots_mul hlayout] at hle
          omega)
        rwa [← Nat.add_assoc, ← Nat.succ_mul] at hnext
      · have : (0 : ℤ) ≤ d * c.entrySize := by positivity
        omega
    · rw [blockLoop, if_neg hsize]

/-- The loops come to a block where all slots before it are occupied. -/
theorem blockLoop_reached (hlayout : c.entrySize ∣ c.blockSize) {k : ℕ}
    (hsize : (k * c.blockSize : ℤ) ≤ size) (henough : size + 1 < fuel)
    (hoccupied : ∀ d < k * c.slots, fs.Occupied (fs.inodes parent) (bnum * c.slots + d)) :
    ∃ fuel', size - k * c.blockSize + 1 < (fuel' : ℕ) ∧
      blockLoop env parent inodeNum filename fuel fs size bnum =
        blockLoop env parent inodeNum filename fuel' fs (size - k * c.blockSize) (bnum + k) := by
  have hpos := c.blockSize_pos
  induction k generalizing bnum size fuel with
  | zero => exact ⟨fuel, by simpa using henough, by simp⟩
  | succ k ih =>
    have hle : (0 : ℤ) ≤ k * c.blockSize := by positivity
    push_cast at hsize ⊢
    rw [add_mul, one_mul] at hsize ⊢
    obtain ⟨fuel, rfl⟩ : ∃ k, fuel = k + 1 := ⟨fuel - 1, by omega⟩
    have hnonneg : 0 ≤ size := by omega
    obtain ⟨rest, hround, hcases⟩ := blockLoop_passed env inodeNum filename fuel hlayout hnonneg
      fun i hi _ => hoccupied i (by rw [Nat.succ_mul]; omega)
    obtain rfl : rest = size - c.blockSize := by omega
    have hrest : (k * c.blockSize : ℤ) ≤ size - c.blockSize := by omega
    have hless : size - c.blockSize + 1 < fuel := by omega
    obtain ⟨fuel', henough', hreached⟩ := ih hrest hless fun d hd => by
      have hnext := hoccupied (c.slots + d) (by rw [Nat.succ_mul]; omega)
      rwa [← Nat.add_assoc, ← Nat.succ_mul] at hnext
    refine ⟨fuel', by omega, ?_⟩
    rw [hround, hreached]
    congr 1 <;> omega

/-- Where all slots before `t` are occupied, the loops come to the block of `t`. -/
theorem blockLoop_comes (env : Env c) (inodeNum : ℕ) (filename : Path)
    (hlayout : c.entrySize ∣ c.blockSize) (hsize : (t * c.entrySize : ℤ) ≤ size)
    (henough : size + 1 < fuel) (hoccupied : ∀ u < t, fs.Occupied (fs.inodes parent) u) :
    ∃ (rest : ℤ) (fuel' : ℕ), ((t % c.slots : ℕ) * c.entrySize : ℤ) ≤ rest ∧ rest + 1 < fuel' ∧
      blockLoop env parent inodeNum filename fuel fs size 0 =
        blockLoop env parent inodeNum filename fuel' fs rest (t / c.slots) := by
  have hdiv : t / c.slots * c.slots + t % c.slots = t := Nat.div_add_mod' t c.slots
  have hslot : ((t / c.slots : ℕ) * c.blockSize + (t % c.slots : ℕ) * c.entrySize : ℤ) =
      t * c.entrySize := by
    rw [← c.slots_mul hlayout]
    nth_rewrite 3 [← hdiv]
    push_cast
    ring
  have hpos : (0 : ℤ) ≤ (t % c.slots : ℕ) * c.entrySize := by positivity
  have hblocks : ((t / c.slots : ℕ) * c.blockSize : ℤ) ≤ size := by omega
  obtain ⟨fuel', henough', hreached⟩ : ∃ fuel' : ℕ, _ < (fuel' : ℤ) ∧
      blockLoop env parent inodeNum filename fuel fs size 0 = _ :=
    blockLoop_reached hlayout hblocks henough fun d hd => hoccupied _ (by omega)
  refine ⟨_, fuel', by omega, henough', ?_⟩
  rw [hreached, Nat.zero_add]

/-- The first slot that is not occupied is entered. -/
theorem blockLoop_finds (hlayout : c.entrySize ∣ c.blockSize)
    (hsize : (t * c.entrySize : ℤ) ≤ size) (henough : size + 1 < fuel)
    (hoccupied : ∀ u < t, fs.Occupied (fs.inodes parent) u) {x : ℕ}
    (hx : fs.slot (fs.inodes parent) t = some x) (hfree : fs.data x = 0) :
    blockLoop env parent inodeNum filename fuel fs size 0 =
      some (fs.enter parent x (env.makeStringFromDirent filename inodeNum), some inodeNum) := by
  have hslots := c.slots_pos hlayout
  have hmod := Nat.mod_lt t hslots
  obtain ⟨rest, fuel', hrest, henough', hcomes⟩ := blockLoop_comes env inodeNum filename hlayout
    hsize henough hoccupied
  obtain ⟨a, ha, rfl⟩ := Option.map_eq_some_iff.mp hx
  have hpos : (0 : ℤ) ≤ (t % c.slots : ℕ) * c.entrySize := by positivity
  obtain ⟨fuel', rfl⟩ : ∃ k, fuel' = k + 1 := ⟨fuel' - 1, by omega⟩
  obtain ⟨number, -, haddress⟩ := directBlock_eq_some.mp ha
  have henough'' : rest + 1 < (rest.toNat + 2 : ℕ) := by omega
  have hfound := slotLoop_found (j := 0) (d := t % c.slots) hlayout haddress (by omega) hrest
    henough'' (fun i _ hi => by
      have hbefore := hoccupied (t / c.slots * c.slots + i) (by
        have := Nat.div_add_mod' t c.slots
        omega)
      exact hbefore.ne_zero (by omega) ha) (by rwa [Nat.zero_add])
  rw [Nat.zero_mul, Nat.zero_add] at hfound
  rw [hcomes, blockLoop_block (by omega) ha, hfound]
  rfl

/-- An unassigned block is added in the middle of the loop. -/
theorem blockLoop_added (hsize : 0 ≤ size)
    (hnumber : (fs.inodes parent).direct[bnum]? = some unassigned)
    (ha : (env.addDataBlockToInode fs parent).directBlock
      ((env.addDataBlockToInode fs parent).inodes parent) bnum = some a) :
    blockLoop env parent inodeNum filename (fuel + 1) fs size bnum =
      blockLoop env parent inodeNum filename (fuel + 1) (env.addDataBlockToInode fs parent) size
        bnum := by
  obtain ⟨number, hadded, haddress⟩ := directBlock_eq_some.mp ha
  have hassigned := assigned_of_blockAddress haddress
  simp only [blockLoop, if_pos hsize, hnumber, hadded, Option.bind_eq_bind, Option.bind_some, if_true,
    if_neg hassigned]

/-- Only a first slot is in a block that is not there. -/
theorem mod_eq_zero_of_missing (hlayout : c.entrySize ∣ c.blockSize)
    (hoccupied : ∀ u < t, fs.Occupied node u) (hmissing : fs.directBlock node (t / c.slots) = none) :
    t % c.slots = 0 := by
  by_contra hne
  have hdiv := Nat.div_add_mod' t c.slots
  have hmod := Nat.mod_lt t (c.slots_pos hlayout)
  have hbefore : fs.Occupied node (t / c.slots * c.slots + (t % c.slots - 1)) :=
    hoccupied _ (by omega)
  obtain ⟨a, ha⟩ := hbefore.block (by omega)
  rw [hmissing] at ha
  exact Option.some_ne_none a ha.symm

/-- The blocks of occupied slots are assigned. -/
theorem ne_unassigned_of_occupied (hlayout : c.entrySize ∣ c.blockSize)
    (hoccupied : ∀ u < t, fs.Occupied node u) {b : ℕ} (hb : b < t / c.slots) :
    node.direct[b]? ≠ some unassigned := by
  intro hnumber
  have hle := Nat.mul_le_of_le_div _ _ _ hb
  have hslots := c.slots_pos hlayout
  rw [Nat.succ_mul] at hle
  have hfirst : fs.Occupied node (b * c.slots + 0) := hoccupied _ (by omega)
  obtain ⟨a, ha⟩ := hfirst.block hslots
  obtain ⟨number, hassigned, haddress⟩ := directBlock_eq_some.mp ha
  rw [hnumber] at hassigned
  exact assigned_of_blockAddress haddress (Option.some.inj hassigned).symm

/-- The first slot of a block that is added is entered. -/
theorem blockLoop_adds (hlayout : c.entrySize ∣ c.blockSize)
    (hsize : (t * c.entrySize : ℤ) ≤ size) (henough : size + 1 < fuel)
    (hoccupied : ∀ u < t, fs.Occupied (fs.inodes parent) u)
    (hnumber : (fs.inodes parent).direct[t / c.slots]? = some unassigned)
    (ha : (env.addDataBlockToInode fs parent).directBlock
      ((env.addDataBlockToInode fs parent).inodes parent) (t / c.slots) = some a)
    (hfree : (env.addDataBlockToInode fs parent).data a = 0) :
    blockLoop env parent inodeNum filename fuel fs size 0 =
      some ((env.addDataBlockToInode fs parent).enter parent a
        (env.makeStringFromDirent filename inodeNum), some inodeNum) := by
  obtain ⟨rest, fuel', hrest, henough', hcomes⟩ := blockLoop_comes env inodeNum filename hlayout
    hsize henough hoccupied
  have hnonneg : 0 ≤ rest := le_trans (by positivity) hrest
  obtain ⟨fuel', rfl⟩ : ∃ k, fuel' = k + 1 := ⟨fuel' - 1, by omega⟩
  obtain ⟨number, -, haddress⟩ := directBlock_eq_some.mp ha
  have hfound : slotLoop _ a (rest.toNat + 1 + 1) rest (0 * c.entrySize) = _ :=
    slotLoop_slot hlayout haddress (c.slots_pos hlayout) hnonneg
  simp only [Nat.zero_mul, Nat.add_zero, if_pos hfree] at hfound
  rw [hcomes, blockLoop_added hnonneg hnumber ha, blockLoop_block hnonneg ha, hfound]
  rfl

/-- There is no block with the number, also where one was to be added. -/
theorem blockLoop_faults (hsize : 0 ≤ size)
    (ha : fs.directBlock (fs.inodes parent) bnum = none)
    (hadd : (fs.inodes parent).direct[bnum]? = some unassigned →
      env.addDataBlockToInode fs parent = fs) :
    blockLoop env parent inodeNum filename (fuel + 1) fs size bnum = none := by
  rw [blockLoop, if_pos hsize]
  cases hnumber : (fs.inodes parent).direct[bnum]? with
  | none => rfl
  | some number =>
    have haddress : fs.blockAddress number = none := by
      rwa [FileSystem.directBlock, hnumber, Option.bind_some] at ha
    have hstays : (if number = unassigned then env.addDataBlockToInode fs parent else fs) = fs := by
      split_ifs with hun
      · exact hadd (by rw [hnumber, hun])
      · rfl
    simp only [Option.bind_eq_bind, Option.bind_some, hstays, hnumber, haddress, Option.bind_none]

end Blocks

end Cs241.Minixfs
