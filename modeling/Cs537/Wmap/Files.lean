import Cs537.Lib.CInt
import Mathlib.Data.Fin.Basic

/-! # Files and the page allocator under the mappings

`struct file` with its reference count and offset, the contents of the inodes, and the free list of
`kalloc`. A file of type `inode` is a regular file; what a pipe or a device delivers is not modelled and is
an argument of the read. The disk has room for every block. A function that panics, or never returns, has
no result.
-/

namespace Cs537.Wmap

open Lib

/-- `NFILE`. -/
def nfile : ℕ := 100

instance : NeZero nfile := ⟨by decide⟩

/-- `MAXFILE * BSIZE`. -/
def maxFile : ℕ := 71680

/-- The chunk of `filewrite`, `((MAXOPBLOCKS-1-1-2) / 2) * 512`. -/
def maxChunk : ℕ := 1536

/-- The bytes of a regular file. -/
structure Content where
  bytes : List UInt8
  bound : bytes.length ≤ maxFile

theorem sevens_le_maxFile : (List.replicate 5000 (7 : UInt8)).length ≤ maxFile := by
  rw [List.length_replicate]
  decide

/-- `readi` of one page at an offset: the number of bytes, and the page with zeros behind them. -/
def Content.readi (c : Content) (off : ℕ) : Option (ℕ × (ℕ → UInt8)) :=
  if off > c.bytes.length then none
  else some (min 4096 (c.bytes.length - off), fun o => c.bytes.getD (off + o) 0)

/-- `writei`; nothing when it returns -1. -/
def Content.writei (c : Content) (off : ℕ) (bytes : List UInt8) : Option Content :=
  if fits : off ≤ c.bytes.length ∧ off + bytes.length ≤ maxFile then
    some ⟨c.bytes.take off ++ bytes ++ c.bytes.drop (off + bytes.length), by
      have := c.bound
      simp only [List.length_append, List.length_take, List.length_drop]
      omega⟩
  else none

/-- The loop of `filewrite` over its chunks; it stops at the first that `writei` refuses. -/
def writeLoop : List (List UInt8) → Content → ℕ → Content × ℕ
  | [], c, off => (c, off)
  | chunk :: rest, c, off =>
      match c.writei off chunk with
      | none => (c, off)
      | some c => writeLoop rest c (off + chunk.length)

/-- The buffer of `filewrite` cut into chunks. -/
def chunks (bytes : List UInt8) : List (List UInt8) :=
  (List.range ((bytes.length + (maxChunk - 1)) / maxChunk)).map fun j => (bytes.drop (maxChunk * j)).take maxChunk

inductive FdType where
  | none
  | pipe
  | inode
deriving DecidableEq, Repr

/-- `struct file`. -/
structure File where
  type : FdType
  ref : ℤ
  readable : Bool
  writable : Bool
  ip : ℕ
  off : ℕ
deriving DecidableEq, Repr

/-- The file table, the inodes and the free pages. -/
structure Kernel where
  file : Fin nfile → File
  inode : ℕ → Content
  free : List ℕ

namespace Kernel

def setFile (k : Kernel) (f : Fin nfile) (value : File) : Kernel := { k with file := Function.update k.file f value }

def filedup (k : Kernel) (f : Fin nfile) : Option Kernel :=
  if (k.file f).ref < 1 then none else some (k.setFile f { k.file f with ref := (k.file f).ref + 1 })

/-- `fileclose`. The inode keeps its bytes: it is linked in a directory. -/
def fileclose (k : Kernel) (f : Fin nfile) : Option Kernel :=
  if (k.file f).ref < 1 then none
  else if (k.file f).ref - 1 > 0 then some (k.setFile f { k.file f with ref := (k.file f).ref - 1 })
  else some (k.setFile f { k.file f with ref := 0, type := .none })

/-- `filealloc`. -/
def filealloc (k : Kernel) : Option (Fin nfile × Kernel) :=
  match (List.finRange nfile).find? fun f => (k.file f).ref = 0 with
  | none => none
  | some f => some (f, k.setFile f { k.file f with ref := 1 })

/-- `fileread` of one page, zeros behind the bytes read; nothing when it returns -1 or panics. -/
def fileread (k : Kernel) (f : Fin nfile) (input : ℕ → UInt8) : Option (Kernel × (ℕ → UInt8)) :=
  if (k.file f).readable = false then none
  else match (k.file f).type with
    | .none => none
    | .pipe => some (k, input)
    | .inode =>
        match (k.inode (k.file f).ip).readi (k.file f).off with
        | none => none
        | some (count, data) => some (k.setFile f { k.file f with off := (k.file f).off + count }, data)

/-- `filewrite` of a buffer, which is nothing when it is not mapped. -/
def filewrite (k : Kernel) (f : Fin nfile) (buffer : Option (List UInt8)) : Option Kernel :=
  if (k.file f).writable = false then some k
  else match (k.file f).type with
    | .none => none
    | .pipe => some k
    | .inode =>
        match buffer with
        | none => none
        | some bytes =>
            let written := writeLoop (chunks bytes) (k.inode (k.file f).ip) (k.file f).off
            some { k.setFile f { k.file f with off := written.2 } with
              inode := Function.update k.inode (k.file f).ip written.1 }

/-- `kalloc`: the first page of the free list. -/
def kalloc (k : Kernel) : Option (ℕ × Kernel) :=
  match k.free with
  | [] => none
  | frame :: rest => some (frame, { k with free := rest })

/-- `kfree`. -/
def kfree (k : Kernel) (frame : ℕ) : Kernel := { k with free := frame :: k.free }

end Kernel

end Cs537.Wmap
