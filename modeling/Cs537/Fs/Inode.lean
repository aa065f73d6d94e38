import Cs537.Lib.Bytes
import Mathlib.Logic.Function.Basic

/-! # Blocks and inodes

The first layers of `fs.c`: the allocator of disk blocks with its bitmap, the inodes with their direct
blocks and one indirect block, and the contents of files. A disk is what `bread` returns for each block
number, so that `log_write` needs no action of its own. The functions that take a locked inode get it as an
argument and return it as they leave it; a panic is an error with its message.
-/

namespace Cs537.Fs

open Cs537.Lib

def BSIZE : ℕ := 512

def NDIRECT : ℕ := 12

/-- `BSIZE / sizeof(uint)`. -/
def NINDIRECT : ℕ := 128

def MAXFILE : ℕ := NDIRECT + NINDIRECT

/-- Bitmap bits per block. -/
def BPB : ℕ := BSIZE * 8

/-- Inodes per block, `BSIZE / sizeof(struct dinode)`. -/
def IPB : ℕ := 8

structure Superblock where
  size : ℕ
  ninodes : ℕ
  inodestart : ℕ
  bmapstart : ℕ

abbrev Disk := ℕ → Memory

def T_DIR : ℕ := 1

def T_FILE : ℕ := 2

def T_DEV : ℕ := 3

/-- The one device that has functions in `devsw`. -/
def CONSOLE : ℕ := 1

/-- Block of the free map containing the bit for a block. -/
def bblock (sb : Superblock) (b : ℕ) : ℕ := b / BPB + sb.bmapstart

/-- Block containing an inode. -/
def iblock (sb : Superblock) (inum : ℕ) : ℕ := inum / IPB + sb.inodestart

/-- `1 << (bi % 8)`. -/
def mask (bi : ℕ) : UInt8 := UInt8.ofNat (1 <<< (bi % 8))

def bzero (d : Disk) (bno : ℕ) : Disk := Function.update d bno fun _ => 0

/-- Change a byte of a block. -/
def poke (d : Disk) (b : ℕ) (at_ : ℤ) (f : UInt8 → UInt8) : Disk :=
  Function.update d b (Function.update (d b) at_ (f (d b at_)))

/-- The inner loop of `balloc`, over the bits of one block of the free map. -/
def ballocIn (sb : Superblock) (d : Disk) (b : ℕ) : Option ℕ :=
  (List.range BPB).find? fun bi => decide (b + bi < sb.size) && d (bblock sb b) (bi / 8 : ℕ) &&& mask bi == 0

/-- Allocate a zeroed disk block. -/
def balloc (sb : Superblock) (d : Disk) : Except String (Disk × ℕ) :=
  match (List.range ((sb.size + (BPB - 1)) / BPB)).findSome? fun i =>
      (ballocIn sb d (BPB * i)).map fun bi => (BPB * i, bi) with
  | some (b, bi) => .ok (bzero (poke d (bblock sb b) (bi / 8 : ℕ) (· ||| mask bi)) (b + bi), b + bi)
  | none => .error "balloc: out of blocks"

/-- Free a disk block. -/
def bfree (sb : Superblock) (d : Disk) (b : ℕ) : Except String Disk :=
  let bi := b % BPB
  if d (bblock sb b) (bi / 8 : ℕ) &&& mask bi = 0 then .error "freeing free block"
  else .ok (poke d (bblock sb b) (bi / 8 : ℕ) (· &&& ~~~mask bi))

/-- The fields that an inode has in memory and on disk; `addrs` has `NDIRECT + 1` entries. The short ones
are their 16 bits. -/
structure Inode where
  type : ℕ
  major : ℕ
  minor : ℕ
  nlink : ℕ
  size : ℕ
  addrs : ℕ → ℕ

def Inode.setAddr (ip : Inode) (i addr : ℕ) : Inode := { ip with addrs := Function.update ip.addrs i addr }

/-- The bytes of a `struct dinode`. -/
def Inode.bytes (ip : Inode) : List UInt8 :=
  Memory.leBytes 2 ip.type ++ Memory.leBytes 2 ip.major ++ Memory.leBytes 2 ip.minor ++ Memory.leBytes 2 ip.nlink ++
    Memory.leBytes 4 ip.size ++ (List.range (NDIRECT + 1)).flatMap fun i => Memory.leBytes 4 (ip.addrs i)

/-- Where an inode is in its block. -/
def slot (inum : ℕ) : ℤ := (64 * (inum % IPB) : ℕ)

/-- Copy a modified in-memory inode to disk. -/
def iupdate (sb : Superblock) (d : Disk) (inum : ℕ) (ip : Inode) : Disk :=
  Function.update d (iblock sb inum) ((d (iblock sb inum)).store (slot inum) ip.bytes)

/-- What `ilock` reads of the inode on disk. -/
def readInode (sb : Superblock) (d : Disk) (inum : ℕ) : Inode :=
  let dip := d (iblock sb inum)
  { type := dip.le (slot inum) 2
    major := dip.le (slot inum + 2) 2
    minor := dip.le (slot inum + 4) 2
    nlink := dip.le (slot inum + 6) 2
    size := dip.le (slot inum + 8) 4
    addrs i := if i ≤ NDIRECT then dip.le (slot inum + 12 + 4 * i) 4 else 0 }

/-- An entry of an indirect block. -/
def entry (a : Memory) (i : ℕ) : ℕ := a.le (4 * i) 4

/-- Load the indirect block, allocating if necessary. -/
def loadIndirect (sb : Superblock) (d : Disk) (ip : Inode) : Except String (Disk × Inode) :=
  if ip.addrs NDIRECT = 0 then do
    let (d, addr) ← balloc sb d
    return (d, ip.setAddr NDIRECT addr)
  else return (d, ip)

/-- An entry of the indirect block, allocating its block if necessary. -/
def bmapEntry (sb : Superblock) (d : Disk) (ip : Inode) (i : ℕ) : Except String (Disk × Inode × ℕ) :=
  let bp := ip.addrs NDIRECT
  if entry (d bp) i = 0 then do
    let (d, addr) ← balloc sb d
    return (Function.update d bp ((d bp).store (4 * i) (Memory.leBytes 4 addr)), ip, addr)
  else return (d, ip, entry (d bp) i)

/-- The disk block address of the nth block in an inode; if there is no such block, one is allocated. -/
def bmap (sb : Superblock) (d : Disk) (ip : Inode) (bn : ℕ) : Except String (Disk × Inode × ℕ) :=
  if bn < NDIRECT then
    if ip.addrs bn = 0 then do
      let (d, addr) ← balloc sb d
      return (d, ip.setAddr bn addr, addr)
    else return (d, ip, ip.addrs bn)
  else if bn - NDIRECT < NINDIRECT then do
    let (d, ip) ← loadIndirect sb d ip
    bmapEntry sb d ip (bn - NDIRECT)
  else .error "bmap: out of range"

/-- The first loop of `itrunc`. -/
def truncDirect (sb : Superblock) (d : Disk) (ip : Inode) : Except String (Disk × Inode) :=
  (List.range NDIRECT).foldlM (fun (d, ip) i =>
    if ip.addrs i ≠ 0 then do
      let d ← bfree sb d (ip.addrs i)
      pure (d, ip.setAddr i 0)
    else pure (d, ip)) (d, ip)

/-- The second loop of `itrunc`; the buffer of the indirect block is held while its blocks are freed. -/
def truncIndirect (sb : Superblock) (a : Memory) (d : Disk) : Except String Disk :=
  (List.range NINDIRECT).foldlM (fun d j => if entry a j ≠ 0 then bfree sb d (entry a j) else pure d) d

/-- The indirect block and its blocks. -/
def truncPointer (sb : Superblock) (d : Disk) (ip : Inode) : Except String (Disk × Inode) :=
  if ip.addrs NDIRECT ≠ 0 then do
    let d ← truncIndirect sb (d (ip.addrs NDIRECT)) d
    let d ← bfree sb d (ip.addrs NDIRECT)
    return (d, ip.setAddr NDIRECT 0)
  else return (d, ip)

/-- Truncate an inode. -/
def itrunc (sb : Superblock) (d : Disk) (inum : ℕ) (ip : Inode) : Except String (Disk × Inode) := do
  let (d, ip) ← truncDirect sb d ip
  let (d, ip) ← truncPointer sb d ip
  let ip := { ip with size := 0 }
  return (iupdate sb d inum ip, ip)

/-- The loop of `readi`. -/
def readLoop (sb : Superblock) : ℕ → Disk → Inode → ℕ → ℕ → Except String (Disk × Inode × List UInt8)
  | 0, d, ip, _, _ => .ok (d, ip, [])
  | fuel + 1, d, ip, off, n =>
    if n = 0 then .ok (d, ip, [])
    else do
      let (d, ip, addr) ← bmap sb d ip (off / BSIZE)
      let m := min n (BSIZE - off % BSIZE)
      let here := (d addr).load (off % BSIZE : ℕ) m
      let (d, ip, rest) ← readLoop sb fuel d ip (off + m) (n - m)
      return (d, ip, here ++ rest)

/-- What `readi` does for an inode that is not a device. -/
def readData (sb : Superblock) (d : Disk) (ip : Inode) (off n : ℕ) : Except String (Disk × Inode × Option (List UInt8)) :=
  if ip.size < off ∨ uint32 (off + n : ℕ) < off then .ok (d, ip, none)
  else do
    let count := if ip.size < uint32 (off + n : ℕ) then ip.size - off else n
    let (d, ip, bytes) ← readLoop sb count d ip off count
    return (d, ip, some bytes)

/-- Read data from an inode; nothing is -1. The console reads what it reads, `console`. -/
def readi (sb : Superblock) (d : Disk) (ip : Inode) (off n : ℕ) (console : Option (List UInt8)) :
    Except String (Disk × Inode × Option (List UInt8)) :=
  if ip.type = T_DEV then .ok (d, ip, if ip.major = CONSOLE then console else none) else readData sb d ip off n

/-- The loop of `writei`, with the offset it ends at. -/
def writeLoop (sb : Superblock) : ℕ → Disk → Inode → ℕ → List UInt8 → Except String (Disk × Inode × ℕ)
  | 0, d, ip, off, _ => .ok (d, ip, off)
  | fuel + 1, d, ip, off, src =>
    if src = [] then .ok (d, ip, off)
    else do
      let (d, ip, addr) ← bmap sb d ip (off / BSIZE)
      let m := min src.length (BSIZE - off % BSIZE)
      let d := Function.update d addr ((d addr).store (off % BSIZE : ℕ) (src.take m))
      writeLoop sb fuel d ip (off + m) (src.drop m)

/-- What `writei` does for an inode that is not a device. -/
def writeData (sb : Superblock) (d : Disk) (inum : ℕ) (ip : Inode) (off : ℕ) (src : List UInt8) :
    Except String (Disk × Inode × Option ℕ) :=
  if ip.size < off ∨ uint32 (off + src.length : ℕ) < off ∨ MAXFILE * BSIZE < uint32 (off + src.length : ℕ) then
    .ok (d, ip, none)
  else do
    let (d, ip, off) ← writeLoop sb src.length d ip off src
    if 0 < src.length ∧ ip.size < off then
      let ip := { ip with size := off }
      return (iupdate sb d inum ip, ip, some src.length)
    else return (d, ip, some src.length)

/-- Write data to an inode; nothing is -1. The console returns `console`. -/
def writei (sb : Superblock) (d : Disk) (inum : ℕ) (ip : Inode) (off : ℕ) (src : List UInt8) (console : Option ℕ) :
    Except String (Disk × Inode × Option ℕ) :=
  if ip.type = T_DEV then .ok (d, ip, if ip.major = CONSOLE then console else none) else writeData sb d inum ip off src

end Cs537.Fs
