import Cs241.Foundation.ByteMemory
import Cs241.Foundation.Integers
import Cs241.Foundation.Scatter

/-!
# The file system of `finding_filesystems/minixfs.c`

The blocks of the data region are consecutive bytes, a file has direct blocks and an
indirect block with the numbers of further ones. The headers and `minixfs_utils` are not
in the repository: sizes are parameters, and so are the functions that look up paths and
hand out blocks and inodes. Modes, owners and times are left out, and offsets are not
negative.

A function answers `none` where the source goes outside of an array or of the data
region, or follows a null pointer.
-/
namespace Cs241.Minixfs

open Foundation

/-- A path or a name, without its terminator. -/
abbrev Path := List UInt8

/-- The constants of `minixfs.h`. -/
structure Layout where
  /-- `sizeof(data_block)` -/
  blockSize : ℕ
  /-- `NUM_DIRECT_BLOCKS` -/
  numDirect : ℕ
  /-- `sizeof(data_block_number)` -/
  numberSize : ℕ
  /-- `FILE_NAME_ENTRY` -/
  entrySize : ℕ
  one_lt_blockSize : 1 < blockSize
  blockSize_lt : blockSize < 2 ^ 31
  numberSize_pos : 0 < numberSize
  entrySize_pos : 0 < entrySize

/-- `UNASSIGNED_NODE` -/
def unassigned : ℤ := -1

structure Inode (c : Layout) where
  size : ℕ
  direct : Vector ℤ c.numDirect
  indirect : ℤ

/-- The inodes, the data region, and the number of its blocks with a byte for each. -/
structure FileSystem (c : Layout) where
  inodes : ℕ → Inode c
  data : Mem
  dataMap : Mem
  dblockCount : ℕ

inductive Errno
  | ENOENT
  | ENOSPC
deriving DecidableEq

/-- What is not in the repository. -/
structure Env (c : Layout) where
  getInode : FileSystem c → Path → Option ℕ
  isVirtualPath : Path → Option Path
  minBlockcount : FileSystem c → Path → ℤ → FileSystem c × Bool
  firstUnusedInode : FileSystem c → Option ℕ
  /-- The directory, and the name of the file in it. -/
  parentDirectory : FileSystem c → Path → Option ℕ × Path
  initInode : FileSystem c → ℕ → ℕ → FileSystem c
  addDataBlockToInode : FileSystem c → ℕ → FileSystem c
  makeStringFromDirent : Path → ℕ → List UInt8
  /-- What the buffer of `minixfs_virtual_read` holds before. -/
  stack : Mem

variable {c : Layout} (env : Env c)

namespace FileSystem

variable (fs : FileSystem c)

/-- The address of a block. -/
def blockAddress (number : ℤ) : Option ℕ :=
  if 0 ≤ number ∧ number < fs.dblockCount then some (number.toNat * c.blockSize) else none

/-- The number of a block of a file. -/
def blockNumber (node : Inode c) (bnum : ℤ) : Option ℤ :=
  if bnum < c.numDirect then
    if 0 ≤ bnum then node.direct[bnum.toNat]? else none
  else do
    let ibnum := (bnum - c.numDirect).toNat
    let iblocks ← fs.blockAddress node.indirect
    if (ibnum + 1) * c.numberSize ≤ c.blockSize then
      some (Int.bmod (readBytes fs.data (iblocks + ibnum * c.numberSize) c.numberSize)
        (256 ^ c.numberSize))
    else none

def block (node : Inode c) (bnum : ℤ) : Option ℕ :=
  (fs.blockNumber node bnum).bind fs.blockAddress

/-- `memcpy` into the data region. -/
def store (a : ℕ) (bytes : List UInt8) : FileSystem c :=
  { fs with data := scatter fs.data id a bytes }

def setSize (i size : ℕ) : FileSystem c :=
  { fs with inodes := Function.update fs.inodes i { fs.inodes i with size := size } }

end FileSystem

/-! ## Directories -/

/-- The inner loop of `minixfs_create_inode_for_path` over the slots of one block: the free slot,
or what is left of `size`. -/
def slotLoop (fs : FileSystem c) (origBlock : ℕ) : ℕ → ℤ → ℕ → Option (ℕ ⊕ ℤ)
  | 0, _, _ => none
  | fuel + 1, size, pos =>
    if 0 ≤ size ∧ pos ≠ c.blockSize then
      if origBlock + pos < fs.dblockCount * c.blockSize then
        if fs.data (origBlock + pos) = 0 then some (.inl (origBlock + pos))
        else slotLoop fs origBlock fuel (size - c.entrySize) (pos + c.entrySize)
      else none
    else some (.inr size)

/-- The outer loop, over the blocks of the directory. -/
def blockLoop (parent inodeNum : ℕ) (filename : Path) :
    ℕ → FileSystem c → ℤ → ℕ → Option (FileSystem c × Option ℕ)
  | 0, _, _, _ => none
  | fuel + 1, fs, size, bnum =>
    if 0 ≤ size then do
      let dbnum ← (fs.inodes parent).direct[bnum]?
      let fs := if dbnum = unassigned then env.addDataBlockToInode fs parent else fs
      let dbnum ← (fs.inodes parent).direct[bnum]?
      let origBlock ← fs.blockAddress dbnum
      match ← slotLoop fs origBlock (size.toNat + 2) size 0 with
      | .inl slot =>
        let fs := fs.store slot (env.makeStringFromDirent filename inodeNum)
        some (fs.setSize parent ((fs.inodes parent).size + c.entrySize), some inodeNum)
      | .inr size => blockLoop parent inodeNum filename fuel fs size (bnum + 1)
    else some (fs, none)

/-- `minixfs_create_inode_for_path(fs, path)`. Each slot that is passed makes `size` smaller. -/
def createInodeForPath (fs : FileSystem c) (path : Path) : Option (FileSystem c × Option ℕ) :=
  match env.getInode fs path with
  | some _ => some (fs, none)
  | none =>
    match env.firstUnusedInode fs with
    | none => some (fs, none)
    | some inodeNum => do
      let (parent, filename) := env.parentDirectory fs path
      let parent ← parent
      let fs := env.initInode fs parent inodeNum
      let size := toInt (fs.inodes parent).size
      blockLoop env parent inodeNum filename (size.toNat + 2) fs size 0

/-! ## Writing -/

/-- What `minixfs_write` leaves behind: the file system, `*off`, what it returns and `errno`, if it
sets it. -/
structure Written (c : Layout) where
  fs : FileSystem c
  off : ℕ
  ret : ℤ
  errno : Option Errno

/-- The loop of `minixfs_write`: what is left of the buffer goes to the block `bnum` from `boff`
on. -/
def writeLoop (node : Inode c) :
    ℕ → FileSystem c → List UInt8 → ℤ → ℕ → Option (FileSystem c)
  | _, fs, [], _, _ => some fs
  | 0, _, _ :: _, _, _ => none
  | fuel + 1, fs, buf, bnum, boff => do
    let block ← fs.block node bnum
    let n := min (c.blockSize - boff) buf.length
    writeLoop node fuel (fs.store (block + boff) (buf.take n)) (buf.drop n) (bnum + 1) 0

/-- The rest of `minixfs_write`, once there is an inode. -/
def writeNode (fs : FileSystem c) (i : ℕ) (buf : List UInt8) (off : ℕ) : Option (Written c) := do
  let unwritten := (toInt buf.length).toNat
  let bnum := toInt (off / c.blockSize)
  let boff := off % c.blockSize
  let fs ← writeLoop (fs.inodes i) unwritten fs (buf.take unwritten) bnum boff
  let off := toSize (off + buf.length)
  some { fs := fs.setSize i off, off := off, ret := toSsize buf.length, errno := none }

/-- `minixfs_write(fs, path, buf, count, off)` for a buffer of `count` bytes. Every round of the
loop writes a byte. -/
def write (fs : FileSystem c) (path : Path) (buf : List UInt8) (off : ℕ) : Option (Written c) :=
  let blockCount := toInt ((toSize (off + buf.length) / c.blockSize + 1 : ℕ))
  let (fs, reserved) := env.minBlockcount fs path blockCount
  if reserved then
    match env.getInode fs path with
    | some i => writeNode fs i buf off
    | none => do
      let (fs, node) ← createInodeForPath env fs path
      match node with
      | some i => writeNode fs i buf off
      | none => some { fs := fs, off := off, ret := -1, errno := some .ENOSPC }
  else some { fs := fs, off := off, ret := -1, errno := some .ENOSPC }

/-! ## Reading -/

/-- What `minixfs_read` leaves behind: the memory of the caller, `*off`, what it returns and
`errno`, if it sets it. -/
structure ReadOut where
  buf : Mem
  off : ℕ
  ret : ℤ
  errno : Option Errno

def decimal (n : ℕ) : List UInt8 := (Nat.toDigits 10 n).map fun c => UInt8.ofNat c.toNat

/-- `Free blocks: ` and `Used blocks: ` -/
def freeText : List UInt8 := [70, 114, 101, 101, 32, 98, 108, 111, 99, 107, 115, 58, 32]
def usedText : List UInt8 := [85, 115, 101, 100, 32, 98, 108, 111, 99, 107, 115, 58, 32]

def infoText (free used : ℕ) : List UInt8 :=
  freeText ++ decimal free ++ [10] ++ usedText ++ decimal used ++ [10]

/-- The name of the virtual file `info`. -/
def infoName : Path := [105, 110, 102, 111]

/-- `minixfs_virtual_read(fs, path, buf, count, off)` does not look at `count`. -/
def virtualRead (fs : FileSystem c) (path : Path) (buf : Mem) (off : ℕ) : Option ReadOut :=
  if path = infoName then
    let free := (List.range fs.dblockCount).countP fun i => fs.dataMap i = 0
    let used := (List.range fs.dblockCount).countP fun i => fs.dataMap i ≠ 0
    let buffer := gather (scatter env.stack id 0 (infoText free used ++ [0])) id 0 100000
    let rest := buffer.drop off
    let text := rest.takeWhile fun b => b ≠ 0
    if text.length < rest.length then
      some { buf := scatter buf id 0 (text ++ [0]), off := off, ret := text.length, errno := none }
    else none
  else some { buf := buf, off := off, ret := -1, errno := some .ENOENT }

/-- The loop of `minixfs_read`: the next bytes are at `boff` in the block `bnum` and go to `pos` in
the buffer. -/
def readLoop (fs : FileSystem c) (node : Inode c) : ℕ → Mem → ℕ → ℕ → ℤ → ℕ → Option Mem
  | _, buf, _, 0, _, _ => some buf
  | 0, _, _, _ + 1, _, _ => none
  | fuel + 1, buf, pos, unread, bnum, boff => do
    let block ← fs.block node bnum
    let n := min (c.blockSize - boff) unread
    readLoop fs node fuel (scatter buf id pos (gather fs.data id (block + boff) n)) (pos + n)
      (unread - n) (bnum + 1) 0

/-- `minixfs_read(fs, path, buf, count, off)`. Every round of the loop reads a byte. -/
def read (fs : FileSystem c) (path : Path) (buf : Mem) (count off : ℕ) : Option ReadOut :=
  match env.isVirtualPath path with
  | some name => virtualRead env fs name buf off
  | none =>
    match env.getInode fs path with
    | none => some { buf := buf, off := off, ret := -1, errno := some .ENOENT }
    | some i => do
      let node := fs.inodes i
      -- The difference is one of unsigned numbers.
      let unread := toInt (min (toSize (node.size - off)) count : ℕ)
      let bnum := toInt (off / c.blockSize)
      let boff := off % c.blockSize
      let buf ← readLoop fs node unread.toNat buf 0 unread.toNat bnum boff
      some { buf := buf, off := toSize (off + toSize unread), ret := toSsize (toSize unread)
             errno := none }

end Cs241.Minixfs
