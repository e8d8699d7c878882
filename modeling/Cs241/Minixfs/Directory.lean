import Cs241.Minixfs.Slots

/-!
# Entries of a directory

A directory with `k` entries has them in its first `k` slots, and its other slots are zero. A
new file gets the slot `k`, in the last block or in one that is added. All other bytes stay
as they are, and the directory has `k + 1` entries.
-/
namespace Cs241.Minixfs

open Foundation

variable {c : Layout}

/-! ## What is relied on -/

/-- A zeroed block becomes a direct block of an inode. -/
def FileSystem.withBlock (fs : FileSystem c) (i b number : ℕ) (mark : UInt8) : FileSystem c :=
  { fs with
    inodes := Function.update fs.inodes i
      { fs.inodes i with direct := (fs.inodes i).direct.setIfInBounds b number }
    data := fill fs.data (number * c.blockSize) 0 c.blockSize
    dataMap := Function.update fs.dataMap number mark }

/-- `add_data_block_to_inode` puts a free block, zeroed, at the first unassigned direct index. -/
def GivesBlock (env : Env c) (fs : FileSystem c) (i : ℕ) : Prop :=
  ∀ b, (fs.inodes i).direct[b]? = some unassigned →
    (∀ b' < b, (fs.inodes i).direct[b']? ≠ some unassigned) →
      ∃ number < fs.dblockCount, fs.dataMap number = 0 ∧ ∃ mark ≠ 0,
        env.addDataBlockToInode fs i = fs.withBlock i b number mark

/-- `init_inode` writes to the new inode only. -/
def InitsInode (env : Env c) (fs : FileSystem c) (parent n : ℕ) : Prop :=
  ∃ node, env.initInode fs parent n = { fs with inodes := Function.update fs.inodes n node }

/-- `make_string_from_dirent` fills a slot, from its first byte on with the name. -/
structure MakesEntries (env : Env c) (nameLength : ℕ) : Prop where
  length_eq : ∀ name n, name.length < nameLength →
    (env.makeStringFromDirent name n).length = c.entrySize
  head?_eq : ∀ name n, name ≠ [] → name.length < nameLength →
    (env.makeStringFromDirent name n).head? = name.head?

/-- The name of a file, shorter than the field for it. -/
structure IsName (nameLength : ℕ) (name : Path) : Prop where
  ne_nil : name ≠ []
  zero_not_mem : 0 ∉ name
  length_lt : name.length < nameLength

/-! ## The invariant -/

/-- A directory with `k` entries. -/
structure FileSystem.Directory (fs : FileSystem c) (i k : ℕ) : Prop where
  size_eq : (fs.inodes i).size = k * c.entrySize
  occupied : ∀ t < k, fs.Occupied (fs.inodes i) t
  zeros : ∀ t a, k ≤ t → fs.slot (fs.inodes i) t = some a →
    ∀ j < c.entrySize, fs.data (a + j) = 0
  assigned : ∀ (b : ℕ) (number : ℤ), (fs.inodes i).direct[b]? = some number →
    number = unassigned ∨ (fs.blockAddress number).isSome
  distinct : ∀ b b' a, fs.directBlock (fs.inodes i) b = some a →
    fs.directBlock (fs.inodes i) b' = some a → b = b'
  used : ∀ b a, fs.directBlock (fs.inodes i) b = some a → fs.dataMap (a / c.blockSize) ≠ 0

namespace FileSystem

variable {fs fs' : FileSystem c} {node : Inode c} {i k t u b number x y a : ℕ} {mark : UInt8}

/-- Other inodes do not matter. -/
theorem Directory.congr (h : fs.Directory i k) (hinode : fs'.inodes i = fs.inodes i)
    (hdata : fs'.data = fs.data) (hmap : fs'.dataMap = fs.dataMap)
    (hcount : fs'.dblockCount = fs.dblockCount) : fs'.Directory i k := by
  obtain ⟨inodes, data, dataMap, dblockCount⟩ := fs
  obtain ⟨inodes', data', dataMap', dblockCount'⟩ := fs'
  dsimp only at hinode hdata hmap hcount
  subst hdata hmap hcount
  constructor <;> simp only [hinode]
  exacts [h.size_eq, h.occupied, h.zeros, h.assigned, h.distinct, h.used]

/-- A slot lies in its block. -/
theorem slot_eq_some (hlayout : c.entrySize ∣ c.blockSize) (hx : fs.slot node t = some x) :
    ∃ a, fs.directBlock node (t / c.slots) = some a ∧ c.blockSize ∣ a ∧
      x = a + t % c.slots * c.entrySize ∧ x + c.entrySize ≤ a + c.blockSize := by
  obtain ⟨a, ha, rfl⟩ := Option.map_eq_some_iff.mp hx
  obtain ⟨number, -, haddress⟩ := directBlock_eq_some.mp ha
  have hwithin := c.mul_lt hlayout (Nat.mod_lt t (c.slots_pos hlayout))
  exact ⟨a, ha, blockAddress_dvd haddress, rfl, by omega⟩

/-- Two slots do not overlap. -/
theorem Directory.slot_apart (h : fs.Directory i k) (hlayout : c.entrySize ∣ c.blockSize)
    (hx : fs.slot (fs.inodes i) t = some x) (hy : fs.slot (fs.inodes i) u = some y)
    (hne : t ≠ u) : x + c.entrySize ≤ y ∨ y + c.entrySize ≤ x := by
  obtain ⟨a, ha, hadvd, rfl, hxend⟩ := slot_eq_some hlayout hx
  obtain ⟨a', ha', hadvd', rfl, hyend⟩ := slot_eq_some hlayout hy
  by_cases hblock : t / c.slots = u / c.slots
  · rw [hblock, ha'] at ha
    obtain rfl := Option.some.inj ha
    have hmod : t % c.slots ≠ u % c.slots := by
      intro hmod
      apply hne
      rw [← Nat.div_add_mod t c.slots, ← Nat.div_add_mod u c.slots, hblock, hmod]
    rcases Nat.lt_or_gt_of_ne hmod with hlt | hgt
    · have := Nat.mul_le_mul_right c.entrySize hlt
      rw [Nat.succ_mul] at this
      omega
    · have := Nat.mul_le_mul_right c.entrySize hgt
      rw [Nat.succ_mul] at this
      omega
  · have hapart := apart_of_ne hadvd hadvd' fun heq => hblock (h.distinct _ _ a ha (heq ▸ ha'))
    omega

/-! ## Another block -/

theorem withBlock_inode (fs : FileSystem c) (i b number : ℕ) (mark : UInt8) :
    (fs.withBlock i b number mark).inodes i =
      { fs.inodes i with direct := (fs.inodes i).direct.setIfInBounds b number } :=
  Function.update_self _ _ _

theorem directBlock_withBlock (i : ℕ) (mark : UInt8) (hb : b < c.numDirect)
    (hnumber : number < fs.dblockCount) (b' : ℕ) :
    (fs.withBlock i b number mark).directBlock ((fs.withBlock i b number mark).inodes i) b' =
      if b' = b then some (number * c.blockSize) else fs.directBlock (fs.inodes i) b' := by
  rw [withBlock_inode, directBlock, Vector.getElem?_setIfInBounds]
  split_ifs with h₁ h₂ h₃
  · simp [blockAddress, withBlock, hnumber]
  · exact absurd h₁.symm h₂
  · exact absurd h₃.symm h₁
  · rfl

/-- The directory does not use a free block. -/
theorem Directory.outside (h : fs.Directory i k) (hfree : fs.dataMap number = 0)
    (ha : fs.directBlock (fs.inodes i) b = some a) (hx : a ≤ x) (hend : x < a + c.blockSize) :
    x < number * c.blockSize ∨ number * c.blockSize + c.blockSize ≤ x := by
  obtain ⟨_, -, haddress⟩ := directBlock_eq_some.mp ha
  have hne : a ≠ number * c.blockSize := by
    rintro rfl
    have hused := h.used b _ ha
    rw [Nat.mul_div_cancel _ c.blockSize_pos] at hused
    exact hused hfree
  rcases apart_of_ne (blockAddress_dvd haddress) (Nat.dvd_mul_left _ _) hne with hlt | hgt
  · exact .inl (by omega)
  · exact .inr (by omega)

theorem Directory.withBlock (h : fs.Directory i k) (hlayout : c.entrySize ∣ c.blockSize)
    (hb : (fs.inodes i).direct[b]? = some unassigned) (hnumber : number < fs.dblockCount)
    (hfree : fs.dataMap number = 0) (hmark : mark ≠ 0) :
    (fs.withBlock i b number mark).Directory i k := by
  have hlt : b < c.numDirect := (Vector.getElem?_eq_some_iff.mp hb).1
  have hblock := directBlock_withBlock i mark hlt hnumber
  have hnone : fs.directBlock (fs.inodes i) b = none := by
    simp [directBlock, hb, blockAddress, unassigned]
  -- The old blocks keep their bytes.
  have hdata : ∀ b' a x, fs.directBlock (fs.inodes i) b' = some a → a ≤ x → x < a + c.blockSize →
      (fs.withBlock i b number mark).data x = fs.data x :=
    fun b' a x ha hx hend => fill_of_lt (h.outside hfree ha hx hend)
  have hslot : ∀ t, (fs.withBlock i b number mark).slot
      ((fs.withBlock i b number mark).inodes i) t =
        if t / c.slots = b then some (number * c.blockSize + t % c.slots * c.entrySize)
        else fs.slot (fs.inodes i) t := by
    intro t
    rw [slot, hblock]
    split_ifs <;> rfl
  have hsize := c.entrySize_pos
  constructor
  · rw [withBlock_inode]
    exact h.size_eq
  · intro t ht
    obtain ⟨x, hx, hne⟩ := h.occupied t ht
    obtain ⟨a, ha, -, rfl, hend⟩ := slot_eq_some hlayout hx
    have htb : t / c.slots ≠ b := by
      rintro rfl
      simp [hnone] at ha
    exact ⟨_, by rw [hslot, if_neg htb, hx], by rwa [hdata _ a _ ha (by omega) (by omega)]⟩
  · intro t x hk hx j hj
    rw [hslot] at hx
    split_ifs at hx with htb
    · obtain rfl := Option.some.inj hx
      have hwithin := c.mul_lt hlayout (Nat.mod_lt t (c.slots_pos hlayout))
      exact if_pos ⟨by omega, by omega⟩
    · obtain ⟨a, ha, -, rfl, hend⟩ := slot_eq_some hlayout hx
      rw [hdata _ a _ ha (by omega) (by omega)]
      exact h.zeros t _ hk hx j hj
  · intro b' number' hb'
    rw [withBlock_inode, Vector.getElem?_setIfInBounds] at hb'
    split_ifs at hb'
    · obtain rfl := Option.some.inj hb'
      exact .inr (by simp [blockAddress, FileSystem.withBlock, hnumber])
    · exact h.assigned b' number' hb'
  · -- An old block is used, and so it is not the new one.
    have hnew : ∀ b', fs.directBlock (fs.inodes i) b' ≠ some (number * c.blockSize) := by
      intro b' ha
      have := h.outside hfree ha le_rfl (Nat.lt_add_of_pos_right c.blockSize_pos)
      have := c.blockSize_pos
      omega
    intro b₁ b₂ a ha₁ ha₂
    rw [hblock] at ha₁ ha₂
    split_ifs at ha₁ ha₂ with h₁ h₂ h₂
    · rw [h₁, h₂]
    · exact absurd (ha₂.trans ha₁.symm) (hnew b₂)
    · exact absurd (ha₁.trans ha₂.symm) (hnew b₁)
    · exact h.distinct b₁ b₂ a ha₁ ha₂
  · intro b' a ha
    rw [hblock] at ha
    by_cases hfresh : a / c.blockSize = number
    · rw [hfresh]
      exact (Function.update_self _ _ _).trans_ne hmark
    · have hold : b' ≠ b := by
        rintro rfl
        rw [if_pos rfl] at ha
        apply hfresh
        rw [← Option.some.inj ha, Nat.mul_div_cancel _ c.blockSize_pos]
      rw [if_neg hold] at ha
      exact (Function.update_of_ne hfresh _ _).trans_ne (h.used b' a ha)

/-! ## Another entry -/

theorem enter_inode (fs : FileSystem c) (i x : ℕ) (entry : List UInt8) :
    (fs.enter i x entry).inodes i =
      { fs.inodes i with size := (fs.inodes i).size + c.entrySize } :=
  Function.update_self _ _ _

theorem enter_slot (fs : FileSystem c) (i x t : ℕ) (entry : List UInt8) :
    (fs.enter i x entry).slot ((fs.enter i x entry).inodes i) t = fs.slot (fs.inodes i) t := by
  rw [enter_inode]
  rfl

theorem enter_data (fs : FileSystem c) (i : ℕ) {entry : List UInt8}
    (hy : y < x ∨ x + entry.length ≤ y) : (fs.enter i x entry).data y = fs.data y :=
  scatter_of_ne fun j hj heq => by simp only [id] at heq; omega

/-- The entry is the next one. -/
theorem Directory.enter (h : fs.Directory i k) (hlayout : c.entrySize ∣ c.blockSize)
    (hx : fs.slot (fs.inodes i) k = some x) {entry : List UInt8}
    (hlength : entry.length = c.entrySize) (hhead : ∀ b ∈ entry.head?, b ≠ 0) :
    (fs.enter i x entry).Directory i (k + 1) := by
  have hpos := c.entrySize_pos
  have hfirst : (fs.enter i x entry).data x = entry[0] :=
    scatter_apply (k := 0) Function.injective_id.injOn (by omega)
  constructor
  · rw [enter_inode, h.size_eq, Nat.succ_mul]
  · intro t ht
    rcases Nat.lt_succ_iff_lt_or_eq.mp ht with hlt | rfl
    · obtain ⟨y, hy, hne⟩ := h.occupied t hlt
      have hapart := h.slot_apart hlayout hy hx hlt.ne
      exact ⟨y, by rwa [enter_slot], by rwa [enter_data fs i (by omega)]⟩
    · refine ⟨x, by rwa [enter_slot], ?_⟩
      rw [hfirst]
      exact hhead _ (by simp [List.head?_eq_getElem?])
  · intro t y hk hy j hj
    rw [enter_slot] at hy
    have hapart := h.slot_apart hlayout hy hx (by omega)
    rw [enter_data fs i (by omega)]
    exact h.zeros t y (by omega) hy j hj
  · rw [enter_inode]
    exact h.assigned
  · rw [enter_inode]
    exact h.distinct
  · rw [enter_inode]
    exact h.used

end FileSystem

/-! ## A new file -/

/-- What a new entry in the slot `k` of a directory leaves: the entry in its slot, every other byte
of a block that was in use as it was, and the blocks that the directory had. -/
structure Entered (fs fs' : FileSystem c) (parent n k : ℕ) (entry : List UInt8) : Prop where
  slot : ∃ x, fs'.slot (fs'.inodes parent) k = some x ∧
    gather fs'.data id x c.entrySize = entry ∧
    ∀ y, fs.dataMap (y / c.blockSize) ≠ 0 → y < x ∨ x + c.entrySize ≤ y → fs'.data y = fs.data y
  blocks : ∀ b a, fs.directBlock (fs.inodes parent) b = some a →
    fs'.directBlock (fs'.inodes parent) b = some a
  inodes : ∀ i, i ≠ parent → i ≠ n → fs'.inodes i = fs.inodes i

/-- What adding a block leaves as it was. -/
structure Extends (fs fs' : FileSystem c) (parent : ℕ) : Prop where
  data : ∀ y, fs.dataMap (y / c.blockSize) ≠ 0 → fs'.data y = fs.data y
  blocks : ∀ b a, fs.directBlock (fs.inodes parent) b = some a →
    fs'.directBlock (fs'.inodes parent) b = some a
  inodes : ∀ i ≠ parent, fs'.inodes i = fs.inodes i

variable {env : Env c} {fs fs' : FileSystem c} {path filename : Path}
  {parent n k b number nameLength : ℕ} {mark : UInt8} {size : ℤ} {fuel : ℕ}

theorem extends_withBlock (hnumber : number < fs.dblockCount) (hfree : fs.dataMap number = 0)
    (hb : (fs.inodes parent).direct[b]? = some unassigned) :
    Extends fs (fs.withBlock parent b number mark) parent := by
  have hlt : b < c.numDirect := (Vector.getElem?_eq_some_iff.mp hb).1
  refine ⟨fun y hy => ?_, fun b' a ha => ?_, fun i hi => Function.update_of_ne hi _ _⟩
  · refine fill_of_lt ?_
    by_contra hin
    have hdiv : y / c.blockSize = number :=
      Nat.div_eq_of_lt_le (by omega) (by rw [Nat.succ_mul]; omega)
    exact hy (by rw [hdiv, hfree])
  · rw [FileSystem.directBlock_withBlock parent mark hlt hnumber, if_neg, ha]
    rintro rfl
    simp [FileSystem.directBlock, hb, FileSystem.blockAddress, unassigned] at ha

/-- The slot of the next entry is in a block that is there, or in one that is added. -/
theorem blockLoop_enters (hlayout : c.entrySize ∣ c.blockSize) (h : fs.Directory parent k)
    (hroom : k < c.numDirect * c.slots) (hadd : GivesBlock env fs parent)
    (hsize : (k * c.entrySize : ℤ) ≤ size) (henough : size + 1 < fuel) :
    ∃ (fs₁ : FileSystem c) (x : ℕ), blockLoop env parent n filename fuel fs size 0 =
        some (fs₁.enter parent x (env.makeStringFromDirent filename n), some n) ∧
      fs₁.Directory parent k ∧ fs₁.slot (fs₁.inodes parent) k = some x ∧
      Extends fs fs₁ parent := by
  have hpos := c.entrySize_pos
  cases ha : fs.directBlock (fs.inodes parent) (k / c.slots) with
  | some a =>
    have hx : fs.slot (fs.inodes parent) k = some (a + k % c.slots * c.entrySize) := by
      rw [FileSystem.slot, ha, Option.map_some]
    have hfree := h.zeros k _ le_rfl hx 0 hpos
    exact ⟨fs, _, blockLoop_finds hlayout hsize henough h.occupied hx hfree, h, hx,
      fun _ _ => rfl, fun _ _ h => h, fun _ _ => rfl⟩
  | none =>
    have hlt : k / c.slots < c.numDirect := Nat.div_lt_of_lt_mul (by rwa [Nat.mul_comm])
    have hnumber : (fs.inodes parent).direct[k / c.slots]? = some unassigned := by
      have hget : (fs.inodes parent).direct[k / c.slots]? = some _ :=
        Vector.getElem?_eq_getElem hlt
      rcases h.assigned _ _ hget with hun | hsome
      · rw [hget, hun]
      · rw [FileSystem.directBlock, hget, Option.bind_some] at ha
        simp [ha] at hsome
    obtain ⟨number, hregion, hfree, mark, hmark, hadded⟩ := hadd _ hnumber fun b' hb' =>
      ne_unassigned_of_occupied hlayout h.occupied hb'
    have hdir := h.withBlock hlayout hnumber hregion hfree hmark
    have hblock := FileSystem.directBlock_withBlock parent mark hlt hregion (k / c.slots)
    rw [if_pos rfl] at hblock
    have hmod := mod_eq_zero_of_missing hlayout h.occupied ha
    have hx : (fs.withBlock parent (k / c.slots) number mark).slot
        ((fs.withBlock parent (k / c.slots) number mark).inodes parent) k =
          some (number * c.blockSize) := by
      rw [FileSystem.slot, hblock, hmod, Option.map_some, Nat.zero_mul, Nat.add_zero]
    have hzero := hdir.zeros k _ le_rfl hx 0 hpos
    refine ⟨_, _, ?_, hdir, hx, extends_withBlock hregion hfree hnumber⟩
    rw [← hadded] at hblock hzero ⊢
    exact blockLoop_adds hlayout hsize henough h.occupied hnumber hblock hzero

theorem Extends.entered (h : Extends fs fs' parent) {x : ℕ} {entry : List UInt8}
    (hx : fs'.slot (fs'.inodes parent) k = some x) (hlength : entry.length = c.entrySize) :
    Entered fs (fs'.enter parent x entry) parent n k entry := by
  refine ⟨⟨x, by rwa [FileSystem.enter_slot], ?_, fun y hy hout => ?_⟩, fun b a ha => ?_,
    fun i hi _ => (Function.update_of_ne hi _ _).trans (h.inodes i hi)⟩
  · rw [← hlength]
    exact gather_scatter Function.injective_id.injOn
  · rw [FileSystem.enter_data fs' parent (by omega), h.data y hy]
  · rw [FileSystem.enter_inode]
    exact h.blocks b a ha

theorem createInodeForPath_eq (hnew : env.getInode fs path = none)
    (hinode : env.firstUnusedInode fs = some n)
    (hparent : env.parentDirectory fs path = (some parent, filename)) :
    createInodeForPath env fs path =
      blockLoop env parent n filename
        ((toInt ((env.initInode fs parent n).inodes parent).size).toNat + 2)
        (env.initInode fs parent n) (toInt ((env.initInode fs parent n).inodes parent).size) 0 := by
  have hdir : (env.parentDirectory fs path).1 = some parent := by rw [hparent]
  have hname : (env.parentDirectory fs path).2 = filename := by rw [hparent]
  unfold createInodeForPath
  rw [hnew]
  dsimp only
  rw [hinode]
  dsimp only
  rw [hdir, hname]
  exact Option.bind_some _ _

/-- A new file gets the slot behind the entries of its directory, which stays one. -/
theorem createInodeForPath_enters (hlayout : c.entrySize ∣ c.blockSize)
    (hint : c.numDirect * c.blockSize < 2 ^ 31) (hnew : env.getInode fs path = none)
    (hinode : env.firstUnusedInode fs = some n)
    (hparent : env.parentDirectory fs path = (some parent, filename)) (hne : parent ≠ n)
    (hinit : InitsInode env fs parent n) (h : fs.Directory parent k)
    (hroom : k < c.numDirect * c.slots)
    (hadd : GivesBlock env (env.initInode fs parent n) parent)
    (hentries : MakesEntries env nameLength) (hname : IsName nameLength filename) :
    ∃ fs', createInodeForPath env fs path = some (fs', some n) ∧
      Entered fs fs' parent n k (env.makeStringFromDirent filename n) ∧
      fs'.Directory parent (k + 1) := by
  obtain ⟨node, hnode⟩ := hinit
  rw [createInodeForPath_eq hnew hinode hparent]
  rw [hnode] at hadd ⊢
  have hsame : Function.update fs.inodes n node parent = fs.inodes parent :=
    Function.update_of_ne hne _ _
  have hdir : FileSystem.Directory { fs with inodes := Function.update fs.inodes n node } parent k :=
    h.congr hsame rfl rfl rfl
  have hbytes : k * c.entrySize < 2 ^ 31 := by
    refine lt_of_le_of_lt ?_ hint
    rw [← c.slots_mul hlayout, ← Nat.mul_assoc]
    exact Nat.mul_le_mul_right _ hroom.le
  have hsize : toInt (Function.update fs.inodes n node parent).size = (k * c.entrySize : ℕ) := by
    rw [hdir.size_eq]
    exact toInt_of_lt (by positivity) (by omega)
  rw [hsize]
  have hlength := hentries.length_eq filename n hname.length_lt
  have hhead : ∀ b ∈ (env.makeStringFromDirent filename n).head?, b ≠ 0 := by
    rw [hentries.head?_eq filename n hname.ne_nil hname.length_lt]
    exact fun b hb h0 => hname.zero_not_mem (h0 ▸ List.mem_of_mem_head? hb)
  have hcast : (k * c.entrySize : ℤ) ≤ (k * c.entrySize : ℕ) := by push_cast; rfl
  have henough : ((k * c.entrySize : ℕ) : ℤ) + 1 < (((k * c.entrySize : ℕ) : ℤ).toNat + 2 : ℕ) := by
    omega
  obtain ⟨fs₁, x, hloop, hdir₁, hx, hextends⟩ :=
    blockLoop_enters (n := n) hlayout hdir hroom hadd hcast henough
  refine ⟨_, hloop, ?_, hdir₁.enter hlayout hx hlength hhead⟩
  have hentered := hextends.entered (n := n) hx hlength
  refine ⟨hentered.slot, fun b a ha => hentered.blocks b a ?_, fun i hi hin =>
    (hentered.inodes i hi hin).trans (Function.update_of_ne hin _ _)⟩
  show fs.directBlock (Function.update fs.inodes n node parent) b = some a
  rwa [hsame]

/-! ## A full block -/

/-- The first unassigned direct index gets the first free block. -/
def addBlock (fs : FileSystem c) (i : ℕ) : FileSystem c :=
  match (List.range c.numDirect).find? fun b => (fs.inodes i).direct[b]? = some unassigned,
    (List.range fs.dblockCount).find? fun number => fs.dataMap number = 0 with
  | some b, some number => fs.withBlock i b number 1
  | _, _ => fs

theorem givesBlock_addBlock (henv : env.addDataBlockToInode = addBlock) (hfree : 0 < fs.free)
    (i : ℕ) : GivesBlock env fs i := by
  intro b hb hfirst
  have hlt : b < c.numDirect := (Vector.getElem?_eq_some_iff.mp hb).1
  have hindex : ((List.range c.numDirect).find? fun b =>
      (fs.inodes i).direct[b]? = some unassigned) = some b := by
    rw [List.find?_range_eq_some]
    exact ⟨by simpa using hb, List.mem_range.mpr hlt, by simpa using hfirst⟩
  obtain ⟨free, hmem, hzero⟩ := List.countP_pos_iff.mp hfree
  have hsome : ((List.range fs.dblockCount).find? fun number => fs.dataMap number = 0).isSome :=
    List.find?_isSome.mpr ⟨free, hmem, hzero⟩
  obtain ⟨number, hnumber⟩ := Option.isSome_iff_exists.mp hsome
  refine ⟨number, List.mem_range.mp (List.mem_of_find?_eq_some hnumber),
    by simpa using List.find?_some hnumber, 1, by decide, ?_⟩
  rw [henv, addBlock, hindex, hnumber]

/-- Blocks of two slots, and two direct blocks. -/
def slotLayout : Layout where
  blockSize := 6
  numDirect := 2
  numberSize := 2
  entrySize := 3
  one_lt_blockSize := by omega
  blockSize_lt := by omega
  numberSize_pos := by omega
  entrySize_pos := by omega

/-- A directory whose only block is full. -/
def fullBlock : FileSystem slotLayout where
  inodes _ := { size := 6, direct := #v[0, unassigned], indirect := unassigned }
  data x := if x < 6 then 97 else 0
  dataMap x := if x = 0 then 1 else 0
  dblockCount := 3

/-- The first inode is the directory, and the next one is free. -/
def directoryEnv : Env slotLayout where
  getInode _ _ := none
  isVirtualPath _ := none
  minBlockcount fs _ _ := (fs, false)
  firstUnusedInode _ := some 1
  parentDirectory _ path := (some 0, path.drop 1)
  initInode fs _ n :=
    { fs with
      inodes := Function.update fs.inodes n ⟨0, #v[unassigned, unassigned], unassigned⟩ }
  addDataBlockToInode := addBlock
  makeStringFromDirent name n := [name.headD 0, 0, UInt8.ofNat n]
  stack _ := 0

theorem makesEntries_directoryEnv : MakesEntries directoryEnv 2 where
  length_eq _ _ _ := rfl
  head?_eq name _ hne _ := by
    obtain ⟨b, bs, rfl⟩ := List.exists_cons_of_ne_nil hne
    rfl

theorem direct_fullBlock (b : ℕ) : (fullBlock.inodes 0).direct[b + 1 + 1]? = none :=
  Vector.getElem?_eq_none (show 2 ≤ b + 2 by omega)

theorem directBlock_fullBlock (b : ℕ) :
    fullBlock.directBlock (fullBlock.inodes 0) b = if b = 0 then some 0 else none := by
  rcases b with _ | _ | b
  · decide
  · decide
  · rw [FileSystem.directBlock, direct_fullBlock]
    rfl

theorem fullBlock_directory : fullBlock.Directory 0 2 := by
  have hslots : slotLayout.slots = 2 := rfl
  constructor
  · rfl
  · intro t ht
    obtain rfl | rfl : t = 0 ∨ t = 1 := by omega
    exacts [⟨0, rfl, by decide⟩, ⟨3, rfl, by decide⟩]
  · intro t a ht ha
    rw [FileSystem.slot, directBlock_fullBlock, hslots, if_neg (by omega)] at ha
    exact absurd ha (by simp)
  · intro b number hb
    rcases b with _ | _ | b
    · obtain rfl : 0 = number := Option.some.inj hb
      exact .inr rfl
    · exact .inl (Option.some.inj hb).symm
    · rw [direct_fullBlock] at hb
      exact absurd hb (by simp)
  · intro b b' a ha ha'
    rw [directBlock_fullBlock] at ha ha'
    split_ifs at ha ha' with hb hb'
    rw [hb, hb']
  · intro b a ha
    rw [directBlock_fullBlock] at ha
    split_ifs at ha
    obtain rfl := Option.some.inj ha
    decide

/-- The third entry goes to a block that is added. -/
theorem createInodeForPath_enters_fullBlock : ∃ fs',
    createInodeForPath directoryEnv fullBlock [47, 98] = some (fs', some 1) ∧
      fs'.Directory 0 3 := by
  have hname : IsName 2 [98] := ⟨by decide, by decide, by decide⟩
  have hparent : directoryEnv.parentDirectory fullBlock [47, 98] = (some 0, [98]) := rfl
  have hlayout : slotLayout.entrySize ∣ slotLayout.blockSize := by decide
  obtain ⟨fs', hcreate, -, hdir⟩ := createInodeForPath_enters hlayout (by decide) rfl rfl hparent
    (by decide) ⟨_, rfl⟩ fullBlock_directory (by decide) (givesBlock_addBlock rfl (by decide) 0)
    makesEntries_directoryEnv hname
  exact ⟨fs', hcreate, hdir⟩

end Cs241.Minixfs
