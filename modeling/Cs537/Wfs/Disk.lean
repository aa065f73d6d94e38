import Cs537.Lib.Bytes
import Mathlib.Data.List.Basic

/-! # The disk image and the shared helpers of the file system

The image is mapped into memory and every structure is read in place, so the model is a byte at every
offset from the start of the mapping; bytes past the end of the image are whatever is mapped there.
`struct wfs_inode` takes 120 of the 512 bytes of an inode slot, `struct wfs_dentry` takes 32 bytes: a
name of 28 and a number. Paths and names are byte strings without a null byte.
-/

namespace Cs537.Wfs

open Lib

/-- The bytes behind `disk`. -/
abbrev Disk := Memory

/-- A string of the caller, without its null byte. -/
abbrev Name := List UInt8

/-- `BLOCK_SIZE`. -/
def blockSize : ℕ := 512

/-- `IND_BLOCK`. -/
def indBlock : ℕ := 7

/-- `BLOCK_SIZE / sizeof(struct wfs_dentry)`. -/
def dentriesPerBlock : ℕ := 16

/-- `BLOCK_SIZE / sizeof(off_t)`. -/
def entriesPerBlock : ℕ := 64

def enoent : ℤ := 2
def eexist : ℤ := 17
def enospc : ℤ := 28
def enotempty : ℤ := 39

def sIfmt : ℕ := 0o170000
def sIfdir : ℕ := 0o040000
def sIfreg : ℕ := 0o100000

/-- What a call reads from outside: `time(NULL)`, `getuid()` and `getgid()`. -/
structure Env where
  now : ℤ
  uid : ℤ
  gid : ℤ
deriving DecidableEq, Repr

section Superblock

variable (d : Disk)

def numInodes : ℕ := d.le 0 8
def numDataBlocks : ℕ := d.le 8 8
def iBitmapPtr : ℤ := d.long 16
def dBitmapPtr : ℤ := d.long 24
def iBlocksPtr : ℤ := d.long 32
def dBlocksPtr : ℤ := d.long 40

end Superblock

section Fields

/-- `disk + sb->i_blocks_ptr + n * BLOCK_SIZE`, the product in `int`. -/
def inodeAt (d : Disk) (n : ℤ) : ℤ := iBlocksPtr d + int32 (n * blockSize)

def modeAt (inode : ℤ) : ℤ := inode + 4
def sizeAt (inode : ℤ) : ℤ := inode + 16
def nlinksAt (inode : ℤ) : ℤ := inode + 24
def atimAt (inode : ℤ) : ℤ := inode + 32
def mtimAt (inode : ℤ) : ℤ := inode + 40
def ctimAt (inode : ℤ) : ℤ := inode + 48

/-- `&inode->blocks[i]`. -/
def blocksAt (inode : ℤ) (i : ℕ) : ℤ := inode + 56 + 8 * i

/-- The `j`-th directory entry from an offset on. -/
def dentryAt (offset : ℤ) (j : ℕ) : ℤ := offset + 32 * j

/-- `&dentry->num`. -/
def numAt (dentry : ℤ) : ℤ := dentry + 28

/-- `strcmp` with a string of the caller gives zero. -/
def strcmpEq (d : Disk) (a : ℤ) (name : Name) : Bool := d.load a (name.length + 1) == name ++ [0]

/-- `memset(disk + a, 0, n)`. -/
def memsetZero (d : Disk) (a : ℤ) (n : ℕ) : Disk := d.store a (List.replicate n 0)

end Fields

/-- The loop of `find_dentry`, over `sizeof(struct wfs_dentry)` entries: the returned number, and the
entry left in `dentry_loc` if there was a match. -/
def findDentryLoop (d : Disk) (offset : ℤ) (name : Name) : ℕ → ℕ → Bool → ℤ × Option ℕ
  | 0, _, found => (if found then -1 else -2, none)
  | fuel + 1, i, found =>
      let dentry := dentryAt offset i
      if strcmpEq d dentry name then (d.int (numAt dentry), some i)
      else findDentryLoop d offset name fuel (i + 1) (found || decide (d.int (numAt dentry) > 0))

def findDentry (d : Disk) (offset : ℤ) (name : Name) : ℤ × Option ℕ := findDentryLoop d offset name 32 0 false

/-- The inner loop of `find_inode_number_by_path`: the first direct block in which the name has a
positive number. -/
def searchBlocks (d : Disk) (inode : ℤ) (name : Name) : ℕ → ℕ → ℤ
  | 0, _ => -1
  | fuel + 1, i =>
      let num := (findDentry d (d.long (blocksAt inode i)) name).1
      if num > 0 then num else searchBlocks d inode name fuel (i + 1)

def searchDirectory (d : Disk) (n : ℤ) (name : Name) : ℤ := searchBlocks d (inodeAt d n) name indBlock 0

/-- The outer loop of `find_inode_number_by_path`, over the tokens of the path. -/
def walk (d : Disk) : ℤ → ℤ → List Name → ℤ × ℤ
  | prev, curr, [] => (prev, curr)
  | _, curr, name :: rest =>
      let found := searchDirectory d curr name
      if found = -1 then (curr, -1) else walk d curr found rest

/-- The tokens `strtok(path, "/")` gives one after the other. -/
def tokens (path : Name) : List Name := (path.splitOnP (· == 47)).filter (· ≠ [])

/-- `find_inode_number_by_path`: the parent and the inode. -/
def findInodeNumberByPath (d : Disk) (path : Name) : ℤ × ℤ := walk d 0 0 (tokens path)

/-- What is in `name` after the tokens of the path have been copied there in turn. -/
def lastToken (path : Name) : Name := (tokens path).getLastD []

/-- The loop of `allocate_block` over the words of a bitmap. -/
def allocateRows (d : Disk) (addr : ℤ) : ℕ → ℕ → ℤ
  | 0, _ => -1
  | fuel + 1, row =>
      let old := d.le (addr + 4 * row) 4
      if old = 2 ^ 32 - 1 then allocateRows d addr fuel (row + 1)
      else match (List.range 32).find? fun col => !old.testBit col with
        | some col => row * 32 + col
        | none => allocateRows d addr fuel (row + 1)

def allocateBlock (d : Disk) (addr size : ℤ) : ℤ := allocateRows d addr (size.tdiv 32).toNat 0

def flipBitInBitmap (d : Disk) (offset blockNum : ℤ) : Disk :=
  let row := blockNum.tdiv 32
  let col := (blockNum % 32).toNat
  let old := d.le (offset + 4 * row) 4
  d.store (offset + 4 * row) (Memory.leBytes 4 (old ^^^ 2 ^ col))

def updateInodeTimes (d : Disk) (inode : ℤ) (now : ℤ) (modified : Bool) : Disk :=
  let d := (d.setLong (atimAt inode) now).setLong (ctimAt inode) now
  if modified then d.setLong (mtimAt inode) now else d

/-- The code repeated wherever a null block pointer is filled: allocate, store the pointer, set the bit. -/
def newBlock (d : Disk) (slot : ℤ) : Option Disk :=
  let block := allocateBlock d (dBitmapPtr d) (int32 (numDataBlocks d))
  if block = -1 then none
  else
    let d := d.setLong slot (dBlocksPtr d + int32 (block * blockSize))
    some (flipBitInBitmap d (dBitmapPtr d) block)

end Cs537.Wfs
