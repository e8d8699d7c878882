import Cs241.Minixfs.Directory

/-!
# Where there is no room for an entry

An entry cannot be added without a free inode, a directory, a free slot in its direct blocks
or a free block for one more. Only the first of these is looked at: a missing directory is
written to, and the search goes on behind the last direct block, or with a number that says
that no block is assigned. It ends in time where the size of the directory is smaller than
its entries.
-/
namespace Cs241.Minixfs

open Foundation

variable {c : Layout}

/-- A free block is given, and without one nothing changes. -/
def AddsBlocks (env : Env c) (fs : FileSystem c) (i : ℕ) : Prop :=
  (0 < fs.free → GivesBlock env fs i) ∧ (fs.free = 0 → env.addDataBlockToInode fs i = fs)

/-- `t` is the first slot that is not occupied. -/
def FileSystem.First (fs : FileSystem c) (node : Inode c) (t : ℕ) : Prop :=
  (∀ u < t, fs.Occupied node u) ∧ ¬ fs.Occupied node t

/-- All direct blocks of a directory are full, or the next one is not assigned and no block is
left. -/
def FileSystem.NoSlot (fs : FileSystem c) (node : Inode c) : Prop :=
  (∀ t < c.numDirect * c.slots, fs.Occupied node t) ∨
    ∃ t, fs.First node t ∧ node.direct[t / c.slots]? = some unassigned ∧ fs.free = 0

/-- An entry cannot be added. -/
def CannotAdd (env : Env c) (fs : FileSystem c) (path : Path) : Prop :=
  env.firstUnusedInode fs = none ∨ (env.parentDirectory fs path).1 = none ∨
    ∃ parent, (env.parentDirectory fs path).1 = some parent ∧ fs.NoSlot (fs.inodes parent)

/-- Without room for an entry nothing changes and there is no node, and the call never leaves the
direct blocks or uses a number that is not assigned. -/
def RefusesCleanly (env : Env c) (fs : FileSystem c) (path : Path) : Prop :=
  (CannotAdd env fs path → createInodeForPath env fs path = some (fs, none)) ∧
    createInodeForPath env fs path ≠ none

/-- The first slot that is not occupied is in a block that is there or can be added, or the search
ends before it and nothing had to be initialised. -/
def SearchEnds (env : Env c) (fs : FileSystem c) (parent n t : ℕ) : Prop :=
  (toInt (fs.inodes parent).size < t * c.entrySize ∧
    (fs.NoSlot (fs.inodes parent) → env.initInode fs parent n = fs)) ∨
  (t * c.entrySize ≤ toInt (fs.inodes parent).size ∧
    ((fs.directBlock (fs.inodes parent) (t / c.slots)).isSome ∨
      (fs.inodes parent).direct[t / c.slots]? = some unassigned ∧ 0 < fs.free))

variable {env : Env c} {fs : FileSystem c} {node : Inode c} {path filename : Path}
  {parent n t u : ℕ}

/-! ## The first slot -/

theorem FileSystem.First.unique (h : fs.First node t) (h' : fs.First node u) : t = u := by
  rcases Nat.lt_trichotomy t u with hlt | heq | hgt
  · exact absurd (h'.1 t hlt) h.2
  · exact heq
  · exact absurd (h.1 u hgt) h'.2

theorem FileSystem.Occupied.lt (h : fs.Occupied node t) (hlayout : c.entrySize ∣ c.blockSize) :
    t < c.numDirect * c.slots := by
  obtain ⟨x, hx, -⟩ := h
  obtain ⟨a, ha, -⟩ := Option.map_eq_some_iff.mp hx
  obtain ⟨number, hnumber, -⟩ := directBlock_eq_some.mp ha
  have hlt : t / c.slots < c.numDirect := (Vector.getElem?_eq_some_iff.mp hnumber).1
  exact (Nat.div_lt_iff_lt_mul (c.slots_pos hlayout)).mp hlt

theorem exists_first (fs : FileSystem c) (node : Inode c) (hlayout : c.entrySize ∣ c.blockSize) :
    ∃ t, fs.First node t := by
  classical
  have hfree : ∃ t, ¬ fs.Occupied node t :=
    ⟨c.numDirect * c.slots, fun h => lt_irrefl _ (h.lt hlayout)⟩
  exact ⟨Nat.find hfree, fun u hu => not_not.mp (Nat.find_min hfree hu), Nat.find_spec hfree⟩

/-- Where the first slot is in a block that is there or can be added, there is room. -/
theorem not_noSlot (hlayout : c.entrySize ∣ c.blockSize) (ht : fs.First node t)
    (hroom : (fs.directBlock node (t / c.slots)).isSome ∨
      node.direct[t / c.slots]? = some unassigned ∧ 0 < fs.free) : ¬ fs.NoSlot node := by
  have hlt : t / c.slots < c.numDirect := by
    rcases hroom with hsome | ⟨hnumber, -⟩
    · obtain ⟨a, ha⟩ := Option.isSome_iff_exists.mp hsome
      obtain ⟨number, hnumber, -⟩ := directBlock_eq_some.mp ha
      exact (Vector.getElem?_eq_some_iff.mp hnumber).1
    · exact (Vector.getElem?_eq_some_iff.mp hnumber).1
  rintro (hfull | ⟨u, hu, hnumber, hfree⟩)
  · exact ht.2 (hfull t ((Nat.div_lt_iff_lt_mul (c.slots_pos hlayout)).mp hlt))
  · obtain rfl := ht.unique hu
    rcases hroom with hsome | ⟨-, hpos⟩
    · rw [FileSystem.directBlock, hnumber] at hsome
      simp [FileSystem.blockAddress, unassigned] at hsome
    · omega

/-! ## The search -/

/-- What the search comes to, whatever it writes. -/
theorem blockLoop_cases (n : ℕ) (filename : Path) (hlayout : c.entrySize ∣ c.blockSize)
    (ht : fs.First (fs.inodes parent) t) (hadd : AddsBlocks env fs parent) {size : ℤ} {fuel : ℕ}
    (hsize : (t * c.entrySize : ℤ) ≤ size) (henough : size + 1 < fuel) :
    if (fs.directBlock (fs.inodes parent) (t / c.slots)).isSome ∨
        (fs.inodes parent).direct[t / c.slots]? = some unassigned ∧ 0 < fs.free then
      ∃ fs', blockLoop env parent n filename fuel fs size 0 = some (fs', some n)
    else blockLoop env parent n filename fuel fs size 0 = none := by
  cases ha : fs.directBlock (fs.inodes parent) (t / c.slots) with
  | some a =>
    rw [if_pos (.inl rfl)]
    have hx : fs.slot (fs.inodes parent) t = some (a + t % c.slots * c.entrySize) := by
      rw [FileSystem.slot, ha, Option.map_some]
    have hfree : fs.data (a + t % c.slots * c.entrySize) = 0 := by
      by_contra hne
      exact ht.2 ⟨_, hx, hne⟩
    exact ⟨_, blockLoop_finds hlayout hsize henough ht.1 hx hfree⟩
  | none =>
    split_ifs with hroom
    · obtain ⟨hnumber, hpos⟩ := hroom.resolve_left (by simp)
      have hlt : t / c.slots < c.numDirect := (Vector.getElem?_eq_some_iff.mp hnumber).1
      obtain ⟨number, hregion, -, mark, -, hadded⟩ := hadd.1 hpos _ hnumber fun b' hb' =>
        ne_unassigned_of_occupied hlayout ht.1 hb'
      have hblock := FileSystem.directBlock_withBlock parent mark hlt hregion (t / c.slots)
      rw [if_pos rfl] at hblock
      have hzero : (fs.withBlock parent (t / c.slots) number mark).data
          (number * c.blockSize) = 0 := if_pos ⟨le_rfl, Nat.lt_add_of_pos_right c.blockSize_pos⟩
      rw [← hadded] at hblock hzero
      exact ⟨_, blockLoop_adds hlayout hsize henough ht.1 hnumber hblock hzero⟩
    · obtain ⟨rest, fuel', hrest, henough', hcomes⟩ := blockLoop_comes env n filename hlayout
        hsize henough ht.1
      have hnonneg : 0 ≤ rest := le_trans (by positivity) hrest
      obtain ⟨fuel', rfl⟩ : ∃ k, fuel' = k + 1 := ⟨fuel' - 1, by omega⟩
      rw [hcomes]
      refine blockLoop_faults hnonneg ha fun hnumber => hadd.2 ?_
      by_contra hne
      exact hroom (.inr ⟨hnumber, Nat.pos_of_ne_zero hne⟩)

/-- The directory does not change where the inode of the new file is initialised. -/
theorem initInode_same (hne : parent ≠ n) (hinit : InitsInode env fs parent n)
    (ht : fs.First (fs.inodes parent) t) :
    (env.initInode fs parent n).inodes parent = fs.inodes parent ∧
      (env.initInode fs parent n).First ((env.initInode fs parent n).inodes parent) t ∧
      (∀ b, (env.initInode fs parent n).directBlock (fs.inodes parent) b =
        fs.directBlock (fs.inodes parent) b) ∧
      (env.initInode fs parent n).free = fs.free := by
  obtain ⟨node, hnode⟩ := hinit
  have hsame : Function.update fs.inodes n node parent = fs.inodes parent :=
    Function.update_of_ne hne _ _
  rw [hnode]
  refine ⟨hsame, ?_, fun _ => rfl, rfl⟩
  show fs.First (Function.update fs.inodes n node parent) t
  rwa [hsame]

/-- With an inode and a directory. -/
theorem refusesCleanly_iff_searchEnds (hlayout : c.entrySize ∣ c.blockSize)
    (hnew : env.getInode fs path = none) (hinode : env.firstUnusedInode fs = some n)
    (hparent : env.parentDirectory fs path = (some parent, filename)) (hne : parent ≠ n)
    (hinit : InitsInode env fs parent n)
    (hadd : AddsBlocks env (env.initInode fs parent n) parent)
    (ht : fs.First (fs.inodes parent) t) :
    RefusesCleanly env fs path ↔ SearchEnds env fs parent n t := by
  have hcannot : CannotAdd env fs path ↔ fs.NoSlot (fs.inodes parent) := by
    simp [CannotAdd, hinode, hparent]
  rw [RefusesCleanly, SearchEnds, hcannot, createInodeForPath_eq hnew hinode hparent]
  obtain ⟨hsame, ht', hblock, hfree⟩ := initInode_same hne hinit ht
  generalize env.initInode fs parent n = fs₁ at hadd hsame ht' hblock hfree ⊢
  rw [hsame]
  generalize toInt (fs.inodes parent).size = size
  have henough : size + 1 < (size.toNat + 2 : ℕ) := by omega
  rcases lt_or_ge size (t * c.entrySize) with hsize | hsize
  · have hended : blockLoop env parent n filename (size.toNat + 2) fs₁ size 0 =
        some (fs₁, none) := by
      refine blockLoop_ended hlayout (by omega) henough fun d hd => ?_
      rw [Nat.zero_mul, Nat.zero_add]
      refine ht'.1 d ?_
      have hlt : (d * c.entrySize : ℤ) < t * c.entrySize := lt_of_le_of_lt hd hsize
      exact Int.ofNat_lt.mp (lt_of_mul_lt_mul_right hlt (Int.natCast_nonneg _))
    rw [hended]
    simp [hsize, hsize.not_ge]
  · have hcases := blockLoop_cases n filename hlayout ht' hadd hsize henough
    rw [hsame, hblock, hfree] at hcases
    simp only [hsize, hsize.not_gt, true_and, false_and, false_or]
    split_ifs at hcases with hroom
    · obtain ⟨fs', hfound⟩ := hcases
      rw [hfound]
      exact ⟨fun _ => hroom, fun _ => ⟨fun h => absurd h (not_noSlot hlayout ht hroom),
        Option.some_ne_none _⟩⟩
    · rw [hcases]
      exact ⟨fun h => absurd rfl h.2, fun h => absurd h hroom⟩

/-- A call refuses cleanly exactly without a free inode, or with a directory whose search ends. -/
theorem refusesCleanly_iff (hlayout : c.entrySize ∣ c.blockSize)
    (hnew : env.getInode fs path = none)
    (hinit : ∀ parent n, (env.parentDirectory fs path).1 = some parent →
      env.firstUnusedInode fs = some n →
        parent ≠ n ∧ InitsInode env fs parent n ∧
          AddsBlocks env (env.initInode fs parent n) parent) :
    RefusesCleanly env fs path ↔ env.firstUnusedInode fs = none ∨
      ∃ parent n t, (env.parentDirectory fs path).1 = some parent ∧
        env.firstUnusedInode fs = some n ∧ fs.First (fs.inodes parent) t ∧
          SearchEnds env fs parent n t := by
  cases hinode : env.firstUnusedInode fs with
  | none =>
    have hrefused : createInodeForPath env fs path = some (fs, none) := by
      rw [createInodeForPath, hnew]
      simp only [hinode]
    simp [RefusesCleanly, hrefused]
  | some n =>
    cases hparent : (env.parentDirectory fs path).1 with
    | none =>
      have hfaults : createInodeForPath env fs path = none := by
        rw [createInodeForPath, hnew]
        simp [hinode, hparent]
      simp [RefusesCleanly, hfaults]
    | some parent =>
      obtain ⟨hne, hinits, hadd⟩ := hinit parent n hparent hinode
      obtain ⟨t, ht⟩ := exists_first fs (fs.inodes parent) hlayout
      have hpair : env.parentDirectory fs path = (some parent, (env.parentDirectory fs path).2) :=
        Prod.ext hparent rfl
      have hiff := refusesCleanly_iff_searchEnds hlayout hnew hinode hpair hne hinits hadd ht
      refine hiff.trans ⟨fun h => .inr ⟨parent, n, t, rfl, rfl, ht, h⟩, ?_⟩
      rintro (hnone | ⟨parent', n', t', hparent', hinode', ht', h⟩)
      · exact absurd hnone (Option.some_ne_none n)
      · obtain rfl := Option.some.inj hparent'
        obtain rfl := Option.some.inj hinode'
        rwa [ht.unique ht']

/-! ## A full directory -/

theorem addsBlocks_addBlock (henv : env.addDataBlockToInode = addBlock) (fs : FileSystem c)
    (i : ℕ) : AddsBlocks env fs i := by
  refine ⟨fun hfree => givesBlock_addBlock henv hfree i, fun hfree => ?_⟩
  have hnone : ((List.range fs.dblockCount).find? fun number => fs.dataMap number = 0) = none := by
    rw [List.find?_eq_none]
    exact List.countP_eq_zero.mp hfree
  rw [henv, addBlock, hnone]
  split
  · contradiction
  · rfl

/-- The full block is the last one, but there are free ones. -/
theorem refusesCleanly_iff_fullBlock : RefusesCleanly directoryEnv fullBlock [47, 98] := by
  have hlayout : slotLayout.entrySize ∣ slotLayout.blockSize := by decide
  have hfirst : fullBlock.First (fullBlock.inodes 0) 2 := by
    refine ⟨fullBlock_directory.occupied, ?_⟩
    rintro ⟨x, hx, -⟩
    have hnone : fullBlock.slot (fullBlock.inodes 0) 2 = none := rfl
    simp [hnone] at hx
  refine (refusesCleanly_iff hlayout rfl ?_).mpr (.inr ⟨0, 1, 2, rfl, rfl, hfirst, .inr ⟨?_, ?_⟩⟩)
  · rintro parent n ⟨⟩ ⟨⟩
    exact ⟨by decide, ⟨_, rfl⟩, addsBlocks_addBlock rfl _ _⟩
  · decide
  · exact .inr ⟨rfl, by decide⟩

/-- A directory whose direct blocks are full. -/
def fullDirectory : FileSystem slotLayout where
  inodes _ := { size := 12, direct := #v[0, 1], indirect := unassigned }
  data x := if x < 12 then 97 else 0
  dataMap x := if x < 2 then 1 else 0
  dblockCount := 3

/-- The search goes on behind the direct blocks. -/
theorem not_refusesCleanly : CannotAdd directoryEnv fullDirectory [47, 98] ∧
    ¬ RefusesCleanly directoryEnv fullDirectory [47, 98] := by
  constructor
  · refine .inr (.inr ⟨0, rfl, .inl fun t ht => ?_⟩)
    have hslots : slotLayout.numDirect * slotLayout.slots = 4 := rfl
    obtain rfl | rfl | rfl | rfl : t = 0 ∨ t = 1 ∨ t = 2 ∨ t = 3 := by omega
    exacts [⟨0, rfl, by decide⟩, ⟨3, rfl, by decide⟩, ⟨6, rfl, by decide⟩, ⟨9, rfl, by decide⟩]
  · rintro ⟨-, hreturns⟩
    have hnone : (createInodeForPath directoryEnv fullDirectory [47, 98]).isNone := by
      decide +kernel
    exact hreturns (Option.isNone_iff_eq_none.mp hnone)

end Cs241.Minixfs
