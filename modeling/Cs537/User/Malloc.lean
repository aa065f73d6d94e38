import Cs537.Lib.Machine
import Mathlib.Algebra.Group.Nat.Defs
import Mathlib.Logic.Function.Basic
import Mathlib.Data.List.Basic

/-! # The memory allocator of user programs

`umalloc.c`: a circular list of free blocks in the order of their addresses, with an empty block `base`
below all others. An address counts in units of the size of a header, and memory is the header that can be
read at each address. A program calls `malloc` and `free`, writes into the blocks that it has, and may grow
by `sbrk` itself. Calls of `malloc` from 2 GB on are left out: `morecore` gives `sbrk` a negative number
then.
-/

namespace Cs537.User

open Cs537.Lib

/-- `union header`. -/
structure Header where
  ptr : ℕ
  size : ℕ
  deriving DecidableEq

/-- Memory, `freep` and the end of the program; then the history: the blocks that the program has, with
their units, and those that came from `sbrk`. -/
structure Heap where
  hdr : ℕ → Header
  freep : Option ℕ
  brk : ℕ
  used : List (ℕ × ℕ)
  core : List (ℕ × ℕ)

namespace Heap

def setPtr (s : Heap) (p q : ℕ) : Heap := { s with hdr := Function.update s.hdr p { s.hdr p with ptr := q } }

def setSize (s : Heap) (p n : ℕ) : Heap := { s with hdr := Function.update s.hdr p { s.hdr p with size := n } }

/-- The loop of `free`: the free block behind which a block belongs. -/
def findPlace (s : Heap) (bp : ℕ) : ℕ → ℕ → Option ℕ
  | 0, _ => none
  | fuel + 1, p =>
    if p < bp ∧ bp < (s.hdr p).ptr then some p
    else if (s.hdr p).ptr ≤ p ∧ (p < bp ∨ bp < (s.hdr p).ptr) then some p
    else s.findPlace bp fuel (s.hdr p).ptr

/-- What `free` does to a block behind the free block `p`. -/
def link (s : Heap) (bp p : ℕ) : Heap :=
  let s := if bp + (s.hdr bp).size = (s.hdr p).ptr then
      (s.setSize bp ((s.hdr bp).size + (s.hdr (s.hdr p).ptr).size)).setPtr bp (s.hdr (s.hdr p).ptr).ptr
    else s.setPtr bp (s.hdr p).ptr
  let s := if p + (s.hdr p).size = bp then
      (s.setSize p ((s.hdr p).size + (s.hdr bp).size)).setPtr p (s.hdr bp).ptr
    else s.setPtr p bp
  { s with freep := some p }

/-- `free`, of the block with its header at `bp`. There are at most as many free blocks as there are units. -/
def free (s : Heap) (bp : ℕ) : Option Heap := do
  let freep ← s.freep
  let p ← s.findPlace bp (s.brk + 1) freep
  some (s.link bp p)

/-- `sbrk` and the block that `morecore` makes of what it gets. -/
def grow (s : Heap) (nu : ℕ) : Heap :=
  { s.setSize s.brk nu with brk := s.brk + nu, core := (s.brk, nu) :: s.core }

def morecore (s : Heap) (nu : ℕ) : Option Heap :=
  let nu := max nu 4096
  (s.grow nu).free s.brk

/-- Take a block of a fitting size off the free block `p` behind `prevp`: all of it, or its end. -/
def carve (s : Heap) (nunits prevp p : ℕ) : Heap × ℕ :=
  let (s, p) := if (s.hdr p).size = nunits then (s.setPtr prevp (s.hdr p).ptr, p)
    else
      let rest := (s.hdr p).size - nunits
      ((s.setSize p rest).setSize (p + rest) nunits, p + rest)
  ({ s with freep := some prevp, used := (p, nunits) :: s.used }, p)

/-- The loop of `malloc`; the flag says whether `sbrk` gets memory. The result is the block's header. -/
def search (memory : Bool) (nunits : ℕ) : ℕ → Heap → ℕ → ℕ → Option (Heap × Option ℕ)
  | 0, _, _, _ => none
  | fuel + 1, s, prevp, p =>
    if nunits ≤ (s.hdr p).size then some ((s.carve nunits prevp p).1, some (s.carve nunits prevp p).2)
    else if some p = s.freep then
      if memory then do
        let s ← s.morecore nunits
        let p ← s.freep
        search memory nunits fuel s p (s.hdr p).ptr
      else some (s, none)
    else search memory nunits fuel s p (s.hdr p).ptr

/-- The units for so many bytes and a header. -/
def units (nbytes : ℕ) : ℕ := (nbytes + 8 - 1) % 2 ^ 32 / 8 + 1

/-- The first call makes `base` the only block of the list. -/
def start (base : ℕ) (s : Heap) : Heap := match s.freep with
  | none => { (s.setPtr base base).setSize base 0 with freep := some base }
  | some _ => s

def malloc (base : ℕ) (memory : Bool) (s : Heap) (nbytes : ℕ) : Option (Heap × Option ℕ) := do
  let s := s.start base
  let prevp ← s.freep
  search memory (units nbytes) (2 * (s.brk + max (units nbytes) 4096) + 4) s prevp (s.hdr prevp).ptr

end Heap

inductive Action
  | malloc (nbytes : ℕ) (memory : Bool)
  | free (bp : ℕ)
  | write (a : ℕ) (h : Header)
  | sbrk (n : ℕ)

def step (base : ℕ) (s : Heap) : Action → Option Heap
  | .malloc nbytes memory => (s.malloc base memory nbytes).map Prod.fst
  | .free bp => (s.free bp).map fun t => { t with used := t.used.filter (·.1 ≠ bp) }
  | .write a h => some { s with hdr := Function.update s.hdr a h }
  | .sbrk n => some { s with brk := s.brk + n }

/-- A program before its first call. -/
def machine (base : ℕ) : Machine Heap Action where
  init s := base < s.brk ∧ s.freep = none ∧ s.used = [] ∧ s.core = []
  step := step base

/-- A program frees only blocks that it has, and writes only behind their headers. -/
def Proper (s : Heap) : Action → Prop
  | .malloc nbytes _ => nbytes < 2 ^ 31 - 16
  | .free bp => ∃ b ∈ s.used, b.1 = bp
  | .write a _ => ∃ b ∈ s.used, b.1 < a ∧ a < b.1 + b.2
  | .sbrk _ => True

instance (s : Heap) (a : Action) : Decidable (Proper s a) := match a with
  | .malloc _ _ => inferInstanceAs (Decidable (_ < _))
  | .free bp => inferInstanceAs (Decidable (∃ b ∈ s.used, b.1 = bp))
  | .write a _ => inferInstanceAs (Decidable (∃ b ∈ s.used, b.1 < a ∧ a < b.1 + b.2))
  | .sbrk _ => .isTrue trivial

end Cs537.User
