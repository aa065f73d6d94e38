import Cs537.Wfs.Disk

/-! # The operations of the file system and `mkfs`

Each operation copies its path into an array on the stack and then takes the image to the image and the
returned value; a path that does not fit into the array has no outcome. Loops with a bound carry it as a
countdown.
-/

namespace Cs537.Wfs

open Lib

section Path

variable {α : Type*} {size : ℕ} {path : Name} {f : Name → α} {r : α}

/-- The size of `tmp_path`, in all operations but `wfs_readdir`. -/
def tmpPath : ℕ := 50

/-- `strcpy(tmp_path, path)` into an array of so many bytes: nothing when the string and its null byte are more. -/
def strcpyPath (size : ℕ) (path : Name) : Option Name := if path.length < size then some path else none

/-- An operation has an outcome for exactly the paths that fit, and it is that of the code behind the copy. -/
theorem map_strcpyPath_eq_some : (strcpyPath size path).map f = some r ↔ path.length < size ∧ f path = r := by
  rw [strcpyPath]
  split_ifs with short
  · simp [short]
  · simp [short]

theorem map_strcpyPath (short : path.length < size) : (strcpyPath size path).map f = some (f path) :=
  map_strcpyPath_eq_some.mpr ⟨short, rfl⟩

/-- What holds of the outcome of an operation. -/
theorem exists_map_strcpyPath {P : α → Prop} :
    (∃ r, (strcpyPath size path).map f = some r ∧ P r) ↔ path.length < size ∧ P (f path) := by
  simp only [map_strcpyPath_eq_some]
  constructor
  · rintro ⟨_, ⟨short, rfl⟩, holds⟩
    exact ⟨short, holds⟩
  · rintro ⟨short, holds⟩
    exact ⟨_, ⟨short, rfl⟩, holds⟩

end Path

section Create

/-- The bytes of the inode that `wfs_mknod` and `wfs_mkdir` build on the stack. -/
def inodeBytes (env : Env) (num : ℤ) (mode : ℕ) : List UInt8 :=
  Memory.leBytes 4 (uint32 num) ++ Memory.leBytes 4 mode ++ Memory.leBytes 4 (uint32 env.uid) ++
    Memory.leBytes 4 (uint32 env.gid) ++ Memory.leBytes 8 0 ++ Memory.leBytes 4 1 ++ Memory.leBytes 4 0 ++
    Memory.leBytes 8 (uint64 env.now) ++ Memory.leBytes 8 (uint64 env.now) ++ Memory.leBytes 8 (uint64 env.now) ++
    List.replicate 64 0

/-- The first entry of a block with number zero. -/
def freeDentry (d : Disk) (offset : ℤ) : Option ℕ :=
  (List.range dentriesPerBlock).find? fun j => d.int (numAt (dentryAt offset j)) = 0

/-- The body behind `dentry->num == 0`. -/
def fillDentry (env : Env) (mode : ℕ) (name : Name) (parent dentry : ℤ) (d : Disk) : Disk × ℤ :=
  let num := allocateBlock d (iBitmapPtr d) (int32 (numInodes d))
  if num = -1 then (d, -enospc)
  else
    let d := (d.store dentry (name ++ [0])).setInt (numAt dentry) num
    let d := d.store (inodeAt d num) (inodeBytes env num mode)
    let d := flipBitInBitmap d (iBitmapPtr d) num
    (d.setInt (nlinksAt parent) (d.int (nlinksAt parent) + 1), 0)

/-- The loop over the direct blocks of the parent. -/
def createLoop (env : Env) (mode : ℕ) (name : Name) (parent : ℤ) : ℕ → ℕ → Disk → Disk × ℤ
  | 0, _, d => (d, -enospc)
  | fuel + 1, i, d =>
      match if d.long (blocksAt parent i) = 0 then newBlock d (blocksAt parent i) else some d with
      | none => (d, -enospc)
      | some d =>
          let block := d.long (blocksAt parent i)
          match freeDentry d block with
          | none => createLoop env mode name parent fuel (i + 1) d
          | some j => fillDentry env mode name parent (dentryAt block j) d

/-- `wfs_mknod` and `wfs_mkdir` behind the copy of the path: they differ in the type bits of the new inode. The
components are copied into `name`, which is as long as `tmp_path`. -/
def create (type : ℕ) (env : Env) (d : Disk) (path : Name) (mode : ℕ) : Disk × ℤ :=
  let (parentNum, inodeNum) := findInodeNumberByPath d path
  if inodeNum ≠ -1 then (d, -eexist)
  else createLoop env (mode ||| type) (lastToken path) (inodeAt d parentNum) indBlock 0 d

def wfsMknod (env : Env) (d : Disk) (path : Name) (mode : ℕ) : Option (Disk × ℤ) :=
  (strcpyPath tmpPath path).map fun path => create sIfreg env d path mode

def wfsMkdir (env : Env) (d : Disk) (path : Name) (mode : ℕ) : Option (Disk × ℤ) :=
  (strcpyPath tmpPath path).map fun path => create sIfdir env d path mode

end Create

section Remove

/-- The loop over the direct blocks of the parent that clears the entry of the name. -/
def clearDentry (name : Name) (parent : ℤ) : ℕ → ℕ → Disk → Disk
  | 0, _, d => d
  | fuel + 1, i, d =>
      let block := d.long (blocksAt parent i)
      if block = 0 then clearDentry name parent fuel (i + 1) d
      else match findDentry d block name with
        | (num, some loc) =>
            if num > -1 then memsetZero d (dentryAt block loc) 32 else clearDentry name parent fuel (i + 1) d
        | (_, none) => clearDentry name parent fuel (i + 1) d

/-- `parent_inode->nlinks--` and the new times. -/
def forgetChild (env : Env) (d : Disk) (parent : ℤ) : Disk :=
  updateInodeTimes (d.setInt (nlinksAt parent) (d.int (nlinksAt parent) - 1)) parent env.now true

/-- The block address the release loop of `wfs_unlink` works on, an `int`; null where it goes on. -/
def releaseAddr (d : Disk) (inode : ℤ) (i : ℕ) : ℤ :=
  if i < indBlock then int32 (d.long (blocksAt inode i))
  else if d.long (blocksAt inode indBlock) = 0 then 0
  else d.int (d.long (blocksAt inode indBlock) + 4 * (i - indBlock : ℕ))

/-- The bit and the bytes of a block are given back. -/
def freeBlock (d : Disk) (addr : ℤ) : Disk :=
  memsetZero (flipBitInBitmap d (dBitmapPtr d) (int32 ((addr - dBlocksPtr d).tdiv blockSize))) addr blockSize

/-- The release loop of `wfs_unlink`. -/
def releaseLoop (inode : ℤ) : ℕ → ℕ → Disk → Disk
  | 0, _, d => d
  | fuel + 1, i, d =>
      if (i : ℤ) ≤ (d.long (sizeAt inode)).tdiv blockSize then
        let addr := releaseAddr d inode i
        releaseLoop inode fuel (i + 1) (if addr = 0 then d else freeBlock d addr)
      else d

/-- The bit of an inode is flipped and its slot cleared. -/
def freeInode (d : Disk) (inode num : ℤ) : Disk :=
  memsetZero (flipBitInBitmap d (iBitmapPtr d) num) inode blockSize

/-- `wfs_unlink` behind the copy of the path. -/
def unlinkPath (env : Env) (d : Disk) (path : Name) : Disk × ℤ :=
  let (parentNum, inodeNum) := findInodeNumberByPath d path
  if inodeNum = -1 then (d, -eexist)
  else
    let parent := inodeAt d parentNum
    let d := forgetChild env (clearDentry (lastToken path) parent indBlock 0 d) parent
    let inode := inodeAt d inodeNum
    let d := d.setInt (nlinksAt inode) (d.int (nlinksAt inode) - 1)
    if d.int (nlinksAt inode) > 0 then (d, 0)
    else
      let rounds := ((d.long (sizeAt inode)).tdiv blockSize + 1).toNat
      (freeInode (releaseLoop inode rounds 0 d) inode inodeNum, 0)

def wfsUnlink (env : Env) (d : Disk) (path : Name) : Option (Disk × ℤ) :=
  (strcpyPath tmpPath path).map (unlinkPath env d)

/-- The loop of `wfs_rmdir` over the blocks of the directory: blocks before the first entry in use are
already given back when the loop stops there. -/
def emptyLoop (inode : ℤ) : ℕ → ℕ → Disk → Disk × Bool
  | 0, _, d => (d, true)
  | fuel + 1, i, d =>
      let block := d.long (blocksAt inode i)
      if block = 0 then emptyLoop inode fuel (i + 1) d
      else if (List.range dentriesPerBlock).any fun j => decide (d.int (numAt (dentryAt block j)) > 0) then (d, false)
      else emptyLoop inode fuel (i + 1) (freeBlock d block)

/-- `wfs_rmdir` behind the copy of the path. -/
def rmdirPath (env : Env) (d : Disk) (path : Name) : Disk × ℤ :=
  let (parentNum, inodeNum) := findInodeNumberByPath d path
  if inodeNum = -1 then (d, -eexist)
  else
    let inode := inodeAt d inodeNum
    match emptyLoop inode indBlock 0 d with
    | (d, false) => (d, -enotempty)
    | (d, true) =>
        let parent := inodeAt d parentNum
        let d := forgetChild env (clearDentry (lastToken path) parent indBlock 0 d) parent
        (freeInode d inode inodeNum, 0)

def wfsRmdir (env : Env) (d : Disk) (path : Name) : Option (Disk × ℤ) :=
  (strcpyPath tmpPath path).map (rmdirPath env d)

end Remove

section Read

/-- The loop of `wfs_read`; each round takes at least one byte. -/
def readLoop (d : Disk) (inode : ℤ) : ℕ → ℤ → ℕ → ℕ → List UInt8
  | 0, _, _, _ => []
  | fuel + 1, blockNum, blockOffset, left =>
      if left = 0 then []
      else
        let count := min (blockSize - blockOffset) left
        let block := if blockNum ≥ indBlock then d.long (d.long (blocksAt inode indBlock) + 8 * (blockNum - indBlock))
          else d.long (inode + 56 + 8 * blockNum)
        d.load (block + blockOffset) count ++ readLoop d inode fuel (blockNum + 1) 0 (left - count)

/-- `wfs_read` behind the copy of the path: the image, the returned value and the bytes put into the buffer. -/
def readPath (env : Env) (d : Disk) (path : Name) (size offset : ℕ) : Disk × ℤ × List UInt8 :=
  let inodeNum := (findInodeNumberByPath d path).2
  if inodeNum = -1 then (d, -eexist, [])
  else
    let inode := inodeAt d inodeNum
    let effective := if (offset : ℤ) ≥ d.long (sizeAt inode) then 0 else (d.long (sizeAt inode) - offset).toNat
    let left := min size effective
    let bytes := readLoop d inode left (int32 (offset / blockSize : ℕ)) (offset % blockSize) left
    (updateInodeTimes d inode env.now false, bytes.length, bytes)

def wfsRead (env : Env) (d : Disk) (path : Name) (size offset : ℕ) : Option (Disk × ℤ × List UInt8) :=
  (strcpyPath tmpPath path).map fun path => readPath env d path size offset

end Read

section Write

/-- The counters of `wfs_write`: `buf + bytes_written` with what is left of it, `block_index` and
`block_offset`. -/
structure Cursor where
  written : ℕ
  rest : List UInt8
  index : ℕ
  blockOffset : ℕ
deriving DecidableEq, Repr

/-- The counters after one block. -/
def Cursor.next (c : Cursor) (stride : ℕ) : Cursor :=
  let count := min c.rest.length (blockSize - c.blockOffset)
  ⟨c.written + count, c.rest.drop count, c.index + stride, 0⟩

/-- Fill the pointer if it is null, then copy as much as the block takes. -/
def writeBlock (d : Disk) (slot : ℤ) (c : Cursor) : Option Disk :=
  (if d.long slot = 0 then newBlock d slot else some d).map fun d =>
    d.store (d.long slot + c.blockOffset) (c.rest.take (min c.rest.length (blockSize - c.blockOffset)))

/-- The loop over the direct blocks. The flag says that no block was left. -/
def directLoop (inode : ℤ) : ℕ → Disk → Cursor → Disk × Cursor × Bool
  | 0, d, c => (d, c, false)
  | fuel + 1, d, c =>
      if c.rest ≠ [] ∧ c.index < indBlock then
        match writeBlock d (blocksAt inode c.index) c with
        | none => (d, c, true)
        | some d => directLoop inode fuel d (c.next 1)
      else (d, c, false)

/-- The loop over the indirect block, whose index moves on twice in every round. -/
def indirectLoop (inode : ℤ) : ℕ → Disk → Cursor → Disk × Cursor × Bool
  | 0, d, c => (d, c, false)
  | fuel + 1, d, c =>
      if c.rest ≠ [] ∧ c.index < entriesPerBlock then
        match writeBlock d (d.long (blocksAt inode indBlock) + 8 * c.index) c with
        | none => (d, c, true)
        | some d => indirectLoop inode fuel d (c.next 2)
      else (d, c, false)

/-- `if (inode->size < file_end_offset) inode->size = file_end_offset`, compared as `size_t`. -/
def growSize (d : Disk) (inode : ℤ) (fileEnd : ℕ) : Disk :=
  if uint64 (d.long (sizeAt inode)) < fileEnd then d.setLong (sizeAt inode) fileEnd else d

/-- The exit without a free block, of the direct loop and of the indirect block. -/
def shortWrite (env : Env) (d : Disk) (inode : ℤ) (offset written : ℕ) : Disk × ℤ :=
  if written > 0 then (updateInodeTimes (growSize d inode (offset + written)) inode env.now true, written)
  else (updateInodeTimes d inode env.now false, -enospc)

/-- The same exit inside the indirect block, which returns before it sets the times. -/
def shortWriteIndirect (env : Env) (d : Disk) (inode : ℤ) (offset written : ℕ) : Disk × ℤ :=
  if written > 0 then (growSize d inode (offset + written), written)
  else (updateInodeTimes d inode env.now false, -enospc)

/-- The code behind the loops. -/
def finishWrite (env : Env) (d : Disk) (inode : ℤ) (offset : ℕ) (c : Cursor) : Disk × ℤ :=
  if c.rest ≠ [] ∧ c.written = 0 then (d, -enospc)
  else (updateInodeTimes (growSize d inode (offset + c.written)) inode env.now true, c.written)

/-- `wfs_write` behind the lookup. -/
def writeInode (env : Env) (d : Disk) (inode : ℤ) (buf : List UInt8) (offset : ℕ) : Disk × ℤ :=
  match directLoop inode indBlock d ⟨0, buf, offset / blockSize, offset % blockSize⟩ with
  | (d, c, true) => shortWrite env d inode offset c.written
  | (d, c, false) =>
      if c.rest = [] then finishWrite env d inode offset c
      else match if d.long (blocksAt inode indBlock) = 0 then newBlock d (blocksAt inode indBlock) else some d with
        | none => shortWrite env d inode offset c.written
        | some d =>
            match indirectLoop inode entriesPerBlock d { c with index := c.index - indBlock } with
            | (d, c, true) => shortWriteIndirect env d inode offset c.written
            | (d, c, false) => finishWrite env d inode offset c

/-- `wfs_write` behind the copy of the path. -/
def writePath (env : Env) (d : Disk) (path : Name) (buf : List UInt8) (offset : ℕ) : Disk × ℤ :=
  let inodeNum := (findInodeNumberByPath d path).2
  if inodeNum = -1 then (d, -enoent) else writeInode env d (inodeAt d inodeNum) buf offset

def wfsWrite (env : Env) (d : Disk) (path : Name) (buf : List UInt8) (offset : ℕ) : Option (Disk × ℤ) :=
  (strcpyPath tmpPath path).map fun path => writePath env d path buf offset

end Write

section Directory

/-- The name field as a string. -/
def nameString (d : Disk) (dentry : ℤ) : Name := (d.load dentry 32).takeWhile (· ≠ 0)

end Directory

section Mkfs

/-- `if (i % 32 != 0) i = i + 32 - (i % 32)`. -/
def roundUp (i : ℤ) : ℤ := if i.tmod 32 ≠ 0 then int32 (int32 (i + 32) - i.tmod 32) else i

/-- `mkfs -i i -b b` on an image of the given size: nothing, or the new image. -/
def mkfs (env : Env) (d : Disk) (imageSize : ℕ) (i b : ℤ) : Option Disk :=
  if i ≤ 0 ∨ b ≤ 0 then none
  else
    let i := roundUp i
    let b := roundUp b
    let ibitmapSize := uint64 ((int32 (i + 7)).tdiv 8)
    let dbitmapSize := uint64 ((int32 (b + 7)).tdiv 8)
    let inodesSize := uint64 (int32 (i * blockSize))
    let dataBlocksSize := uint64 (int32 (b * blockSize))
    let filesystemSize := uint64 (48 + ibitmapSize + dbitmapSize + inodesSize + dataBlocksSize)
    if imageSize < filesystemSize then none
    else
      let d := memsetZero d 0 filesystemSize
      let d := (d.setLong 0 i).setLong 8 b
      let d := d.setLong 16 48
      let d := d.setLong 24 (d.long 16 + ibitmapSize)
      let d := d.setLong 32 (d.long 24 + dbitmapSize)
      let d := d.setLong 40 (d.long 32 + inodesSize)
      let root := d.long 32
      let d := (d.setInt root 0).setInt (modeAt root) (sIfdir ||| 0o777 : ℕ)
      let d := (d.setInt (root + 8) env.uid).setInt (root + 12) env.gid
      let d := (d.setLong (sizeAt root) 0).setInt (nlinksAt root) 1
      let d := ((d.setLong (atimAt root) env.now).setLong (mtimAt root) env.now).setLong (ctimAt root) env.now
      some (d.store (d.long 16) (Memory.leBytes 4 (d.le (d.long 16) 4 ||| 1)))

end Mkfs

end Cs537.Wfs
