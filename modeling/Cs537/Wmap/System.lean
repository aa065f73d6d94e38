import Cs537.Wmap.Placement

/-! # All processes of the system

The system calls on descriptors, `fork`, `exit` and `wait` over the process table. A step is one call of one
process. What `copyuvm` and `freevm` make of the memory of a child and of the free pages is an argument of the
step: they touch no file. A `fork` that fails gives the slot back with the mappings it has copied until then.
-/

namespace Cs537.Wmap

open Lib

/-- `NPROC`. -/
def nproc : ℕ := 64

instance : NeZero nproc := ⟨by decide⟩

namespace Running

/-- `fdalloc`: the first free descriptor. -/
def fdalloc (s : Running) (f : Fin nfile) : Option (Fin nofile × Running) :=
  match (List.finRange nofile).find? fun fd => s.ofile fd = none with
  | none => none
  | some fd => some (fd, { s with ofile := Function.update s.ofile fd (some f) })

/-- `argfd`. -/
def argfd (s : Running) (fd : ℤ) : Option (Fin nofile × Fin nfile) :=
  if valid : 0 ≤ fd ∧ fd < nofile then
    (s.ofile ⟨fd.toNat, toNat_lt_nofile valid⟩).map fun f => (⟨fd.toNat, toNat_lt_nofile valid⟩, f)
  else none

/-- `sys_open` of an inode that the path has led to; the descriptor, or none for -1. -/
def sysOpen (s : Running) (ip omode : ℕ) : Option (Running × Option (Fin nofile)) :=
  match s.toKernel.filealloc with
  | none => some (s, none)
  | some (f, k) =>
      match { s with toKernel := k }.fdalloc f with
      | none => ({ s with toKernel := k }.onKernel (·.fileclose f)).map fun s => (s, none)
      | some (fd, s) =>
          some ({ s with toKernel := s.setFile f { s.file f with
            type := .inode, ip := ip, off := 0, readable := !omode.testBit 0,
            writable := omode.testBit 0 || omode.testBit 1 } }, some fd)

/-- `sys_dup`. -/
def sysDup (s : Running) (fd : ℤ) : Option (Running × Option (Fin nofile)) :=
  match s.argfd fd with
  | none => some (s, none)
  | some (_, f) =>
      match s.fdalloc f with
      | none => some (s, none)
      | some (new, s) => (s.onKernel (·.filedup f)).map fun s => (s, some new)

/-- `sys_close`. -/
def sysClose (s : Running) (fd : ℤ) : Option (Running × Bool) :=
  match s.argfd fd with
  | none => some (s, false)
  | some (fd, f) =>
      ({ s with ofile := Function.update s.ofile fd none }.onKernel (·.fileclose f)).map fun s => (s, true)

/-- The pages of a private mapping in a child; `fork` fails when the child has no page table for one of them. -/
def protectCopied (me : MmapEntry) : List ℕ → Running → Option (Running × Bool)
  | [], s => some (s, true)
  | i :: rest, s =>
      let v := uint32 (me.addr + i) / 4096
      if isKernel v then none
      else if s.tables (v / 1024) = false then some (s, false)
      else match s.page v with
        | none => protectCopied me rest s
        | some page => protectCopied me rest (s.setPage v (some { page with writable := false }))

/-- The mappings of the parent are copied in front of what the slot has; the files get no reference. -/
def copyMappings : List MmapEntry → Running → Option (Running × Bool)
  | [], s => some (s, true)
  | me :: rest, s =>
      match s.kalloc with
      | none => some (s, false)
      | some (frame, s) =>
          match (if isPrivate me.flags then me.offsets.bind fun offsets => protectCopied me offsets s
            else some (s, true)) with
          | none => none
          | some (s, false) => some (s, false)
          | some (s, true) => copyMappings rest { s with mmaps := { me with frame := frame } :: s.mmaps }

/-- `np->ofile[i] = filedup(curproc->ofile[i])` for one descriptor. -/
def copyFd (ofile : Fin nofile → Option (Fin nfile)) (s : Running) (fd : Fin nofile) : Option Running :=
  match ofile fd with
  | none => some s
  | some f => (s.onKernel (·.filedup f)).map fun s => { s with ofile := Function.update s.ofile fd (some f) }

end Running

inductive ProcState where
  | unused
  | embryo
  | runnable
  | zombie
deriving DecidableEq, Repr

/-- `struct proc`. -/
structure Proc extends Task where
  state : ProcState
  parent : Option (Fin nproc)

/-- The memory of a child as `copyuvm` returns it. -/
structure Copied where
  tables : ℕ → Bool
  page : ℕ → Option Page

/-- The process table and the kernel. -/
structure System where
  proc : Fin nproc → Proc
  kernel : Kernel

namespace System

def initproc : Fin nproc := 0

def Live (s : System) (p : Fin nproc) : Prop := (s.proc p).state = .runnable

instance (s : System) (p : Fin nproc) : Decidable (s.Live p) := by
  unfold Live
  infer_instance

/-- A process with the kernel. -/
def running (s : System) (p : Fin nproc) : Running := ⟨(s.proc p).toTask, s.kernel⟩

/-- A process has run. -/
def back (s : System) (p : Fin nproc) (r : Running) : System :=
  ⟨Function.update s.proc p { s.proc p with toTask := r.toTask }, r.toKernel⟩

/-- The slot of a child that could not be made; `kstack` is given back. -/
def giveUp (s : System) (np : Fin nproc) (child : Running) (kstack : ℕ) : System :=
  s.back np (child.kfree kstack)

/-- `fork`; `free` is the free list after `copyuvm`, which has failed if it returns no memory. -/
def fork (s : System) (p : Fin nproc) (copied : Option Copied) (free : List ℕ) : Option System :=
  match (List.finRange nproc).find? fun q => (s.proc q).state = .unused with
  | none => some s
  | some np =>
      match (s.running np).kalloc with
      | none => some s
      | some (kstack, child) =>
          match copied with
          | none => some (s.giveUp np { child with free := free } kstack)
          | some memory =>
              match Running.copyMappings (s.proc p).mmaps
                { child with tables := memory.tables, page := memory.page, free := free } with
              | none => none
              | some (child, false) => some (s.giveUp np child kstack)
              | some (child, true) =>
                  match (List.finRange nofile).foldlM (Running.copyFd (s.proc p).ofile) child with
                  | none => none
                  | some child =>
                      some ⟨Function.update s.proc np ⟨child.toTask, .runnable, some p⟩, child.toKernel⟩

/-- Abandoned children pass to `init`. -/
def reparent (s : System) (p : Fin nproc) : System :=
  { s with proc := fun q =>
      if (s.proc q).parent = some p then { s.proc q with parent := some initproc } else s.proc q }

/-- `exit`. -/
def exit (s : System) (p : Fin nproc) : Option System :=
  if p = initproc then none
  else match (s.running p).exit with
    | none => none
    | some r =>
        let s := (s.back p r).reparent p
        some { s with proc := Function.update s.proc p { s.proc p with state := .zombie } }

/-- `wait`, when it does not sleep; `free` is the free list after `freevm`. -/
def wait (s : System) (p : Fin nproc) (free : List ℕ) : System :=
  match (List.finRange nproc).find? fun q => (s.proc q).parent = some p ∧ (s.proc q).state = .zombie with
  | none => s
  | some q =>
      let freed := { s.proc q with state := .unused, parent := none, tables := fun _ => false, page := fun _ => none }
      ⟨Function.update s.proc q freed, { s.kernel with free := free }⟩

end System

/-- A call of a process, or an access to its memory. -/
inductive Call where
  | open (ip omode : ℕ)
  | dup (fd : ℤ)
  | close (fd : ℤ)
  | wmap (addr : ℕ) (length : ℤ) (flags : ℕ) (fd : ℤ)
  | wunmap (addr : ℕ)
  | wremap (oldaddr : ℕ) (oldsize newsize : ℤ) (flags : ℕ) (input : ℕ → ℕ → UInt8)
  | load (a : ℕ) (input : ℕ → ℕ → UInt8)
  | store (a : ℕ) (byte : UInt8) (input : ℕ → ℕ → UInt8)
  | fork (copied : Option Copied) (free : List ℕ)
  | exit
  | wait (free : List ℕ)

/-- The calls that concern one process and the kernel. -/
def Running.call (s : Running) : Call → Option Running
  | .open ip omode => (s.sysOpen ip omode).map (·.1)
  | .dup fd => (s.sysDup fd).map (·.1)
  | .close fd => (s.sysClose fd).map (·.1)
  | .wmap addr length flags fd => (s.wmap addr length flags fd).map (·.1)
  | .wunmap addr => (s.wunmap addr).map (·.1)
  | .wremap oldaddr oldsize newsize flags input => (s.wremap oldaddr oldsize newsize flags input).map (·.1)
  | .load a input => (s.load a input).map (·.1)
  | .store a byte input => s.store a byte input
  | .fork .. | .exit | .wait _ => none

namespace System

/-- One call of one process that can run. -/
def step (s : System) (act : Fin nproc × Call) : Option System :=
  if s.Live act.1 then
    match act.2 with
    | .fork copied free => s.fork act.1 copied free
    | .exit => s.exit act.1
    | .wait free => some (s.wait act.1 free)
    | call => ((s.running act.1).call call).map (s.back act.1)
  else none

end System

/-- No process has a mapping or an open file, and every file is closed. -/
def Fresh (s : System) : Prop :=
  (∀ p fd, (s.proc p).ofile fd = none) ∧ (∀ p, (s.proc p).mmaps = []) ∧
    ∀ f, (s.kernel.file f).ref = 0 ∧ (s.kernel.file f).type = .none

def systemMachine : Machine System (Fin nproc × Call) where
  init := Fresh
  step := System.step

end Cs537.Wmap
