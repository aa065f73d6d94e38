import Cs537.Lib.CInt
import Cs537.Lib.Machine
import Cs537.Lib.Threads
import Cs537.Xv6.Proc

/-! # Page directories, their reference counts and the process table

`fork`, `clone`, `exec`, `exit`, `wait` and `sbrk` as atomic steps on the process table. A page directory
is named by its page; its user half is the list of its page-table pages and the list of its present
pages. The page allocator is a count of free pages together with the promise that a page it hands out is
not in use: the page of a new directory is part of the action, and has to be free. The kernel half of a
directory takes 64 page-table pages. A panic of the source is an error; so is the use of a directory that
has been freed.
-/

namespace Cs537.Xv6

open Lib

/-- `KERNBASE`. -/
def kernbase : ℕ := 0x80000000

/-- The page-table pages that `setupkvm` needs for `kmap`. -/
def kernelTables : ℕ := 64

/-- `PGROUNDUP(a) / PGSIZE`. -/
def pagesUp (a : ℕ) : ℕ := (a + 4095) / 4096

/-- What stops the machine. -/
inductive Panic where
  | remap
  | pteShouldExist
  | pageNotPresent
  | invalidRefcount
  | noPgdir
  | initExiting
  | freedDirectory
deriving DecidableEq, Repr

/-- The user half of a page directory: page-table pages by `PDX`, present pages by number. -/
structure PageDir where
  tables : List ℕ
  pages : List ℕ
deriving DecidableEq, Repr

/-- A directory that is being changed, and the number of free pages. -/
structure Space where
  dir : PageDir
  nfree : ℕ
deriving DecidableEq, Repr

namespace Space

/-- `walkpgdir` with `alloc` set. -/
def walkAlloc (s : Space) (page : ℕ) : Option Space :=
  if page / 1024 ∈ s.dir.tables then some s
  else if s.nfree = 0 then none
  else some ⟨{ s.dir with tables := page / 1024 :: s.dir.tables }, s.nfree - 1⟩

/-- `mappages` for one page; nothing when there is no page for a page table. -/
def mappages (s : Space) (page : ℕ) : Except Panic (Option Space) :=
  match s.walkAlloc page with
  | none => .ok none
  | some s =>
      if page ∈ s.dir.pages then .error .remap
      else .ok (some { s with dir := { s.dir with pages := page :: s.dir.pages } })

/-- The page lies between two sizes. -/
def between (newsz oldsz page : ℕ) : Bool := pagesUp newsz ≤ page && page * 4096 < oldsz

/-- `deallocuvm`: the space and the returned size. -/
def deallocuvm (s : Space) (oldsz newsz : ℕ) : Space × ℕ :=
  if newsz ≥ oldsz then (s, oldsz)
  else
    (⟨{ s.dir with pages := s.dir.pages.filter fun page => !between newsz oldsz page },
      s.nfree + (s.dir.pages.filter (between newsz oldsz)).length⟩, newsz)

/-- The loop of `allocuvm`. -/
def allocLoop (oldsz newsz : ℕ) : ℕ → ℕ → Space → Except Panic (Space × ℕ)
  | 0, _, s => .ok (s, newsz)
  | fuel + 1, page, s =>
      if s.nfree = 0 then .ok ((s.deallocuvm newsz oldsz).1, 0)
      else match mappages { s with nfree := s.nfree - 1 } page with
        | .error panic => .error panic
        | .ok none =>
            let undone := (deallocuvm { s with nfree := s.nfree - 1 } newsz oldsz).1
            .ok ({ undone with nfree := undone.nfree + 1 }, 0)
        | .ok (some s) => allocLoop oldsz newsz fuel (page + 1) s

/-- `allocuvm`: the space and the returned size, zero for an error. -/
def allocuvm (s : Space) (oldsz newsz : ℕ) : Except Panic (Space × ℕ) :=
  if newsz ≥ kernbase then .ok (s, 0)
  else if newsz < oldsz then .ok (s, oldsz)
  else allocLoop oldsz newsz (pagesUp newsz - pagesUp oldsz) (pagesUp oldsz) s

/-- The free pages after all pages of the directory are given back. -/
def released (s : Space) : ℕ := s.nfree + s.dir.pages.length + s.dir.tables.length + kernelTables + 1

end Space

/-- `setupkvm`: an empty user half, if there are pages for the directory and the kernel half. -/
def setupkvm (nfree : ℕ) : Option Space :=
  if nfree < kernelTables + 1 then none else some ⟨⟨[], []⟩, nfree - (kernelTables + 1)⟩

/-- The loop of `copyuvm`; the flag says that memory sufficed. -/
def copyLoop (src : PageDir) : ℕ → ℕ → Space → Except Panic (Space × Bool)
  | 0, _, s => .ok (s, true)
  | fuel + 1, page, s =>
      if page / 1024 ∉ src.tables then .error .pteShouldExist
      else if page ∉ src.pages then .error .pageNotPresent
      else if s.nfree = 0 then .ok (s, false)
      else match Space.mappages { s with nfree := s.nfree - 1 } page with
        | .error panic => .error panic
        | .ok none => .ok (s, false)
        | .ok (some s) => copyLoop src fuel (page + 1) s

/-- `copyuvm` up to its last label: the new directory, with whether memory sufficed. -/
def copyuvm (src : PageDir) (sz nfree : ℕ) : Except Panic (Option (Space × Bool)) :=
  match setupkvm nfree with
  | none => .ok none
  | some s => (copyLoop src (pagesUp sz) 0 s).map some

/-- `struct uvmdesc`. -/
structure Uvmdesc where
  pgdir : ℕ
  refcount : ℤ
deriving DecidableEq, Repr

/-- The fields of `struct proc` that memory management uses. -/
structure VmProc where
  state : ProcState
  pgdir : ℕ
  sz : ℕ
  parent : Option (Fin nproc)
deriving DecidableEq, Repr

/-- The process table, `uvmrefcount`, the directories in memory and the number of free pages. -/
structure Vm where
  proc : Fin nproc → VmProc
  uvmrefcount : Fin nproc → Uvmdesc
  dir : ℕ → Option PageDir
  nfree : ℕ

/-- What `exec` finds: the ends of the segments, each with whether its header is sound and it could be
read, and whether the arguments fit on the stack. -/
structure Program where
  segments : List (ℕ × Bool)
  argumentsFit : Bool
deriving DecidableEq, Repr

/-- A system call of a process; `fresh` is the page that `kalloc` gives `setupkvm`. -/
inductive VmAction where
  | fork (p : Fin nproc) (fresh : ℕ)
  | clone (p : Fin nproc)
  | exec (p : Fin nproc) (program : Program) (fresh : ℕ)
  | exit (p : Fin nproc)
  | wait (p : Fin nproc)
  | sbrk (p : Fin nproc) (n : ℤ)
deriving DecidableEq, Repr

namespace Vm

def setProc (s : Vm) (p : Fin nproc) (value : VmProc) : Vm := { s with proc := Function.update s.proc p value }

def setRef (s : Vm) (i : Fin nproc) (value : Uvmdesc) : Vm :=
  { s with uvmrefcount := Function.update s.uvmrefcount i value }

def setDir (s : Vm) (d : ℕ) (dir : Option PageDir) : Vm := { s with dir := Function.update s.dir d dir }

/-- `locate_uvmrefcount`. -/
def locate (s : Vm) (d : ℕ) : Option (Fin nproc) :=
  (List.finRange nproc).find? fun i => (s.uvmrefcount i).refcount ≠ -1 ∧ (s.uvmrefcount i).pgdir = d

/-- The entry `allocate_uvmrefcount` takes. -/
def freeRef (s : Vm) : Option (Fin nproc) :=
  (List.finRange nproc).find? fun i => (s.uvmrefcount i).refcount = -1

/-- `freevm` behind the reference count. -/
def releaseDir (s : Vm) (d : ℕ) : Except Panic Vm :=
  if d = 0 then .error .noPgdir
  else match s.dir d with
    | none => .error .freedDirectory
    | some dir => .ok { s.setDir d none with nfree := Space.released ⟨dir, s.nfree⟩ }

/-- `freevm`. -/
def freevm (s : Vm) (d : ℕ) : Except Panic Vm :=
  match s.locate d with
  | none => s.releaseDir d
  | some i =>
      let count := (s.uvmrefcount i).refcount
      if count < 1 then .error .invalidRefcount
      else if count - 1 ≠ 0 then .ok (s.setRef i { s.uvmrefcount i with refcount := count - 1 })
      else (s.setRef i { s.uvmrefcount i with refcount := -1 }).releaseDir d

/-- The first `UNUSED` slot. -/
def unusedSlot (s : Vm) : Option (Fin nproc) := (List.finRange nproc).find? fun p => (s.proc p).state = .unused

/-- `allocproc`: the slot, and the table with it and a page taken for the kernel stack. -/
def allocproc (s : Vm) : Option (Fin nproc × Vm) :=
  match s.unusedSlot with
  | none => none
  | some np =>
      if s.nfree = 0 then none
      else some (np, { s.setProc np { s.proc np with state := .embryo } with nfree := s.nfree - 1 })

/-- The slot is given back with its kernel stack. -/
def dropProc (s : Vm) (np : Fin nproc) : Vm :=
  { s.setProc np { s.proc np with pgdir := 0, state := .unused } with nfree := s.nfree + 1 }

def fork (s : Vm) (p : Fin nproc) (fresh : ℕ) : Except Panic Vm :=
  match s.allocproc with
  | none => .ok s
  | some (np, s) =>
      match s.dir (s.proc p).pgdir with
      | none => .error .freedDirectory
      | some src =>
          match copyuvm src (s.proc p).sz s.nfree with
          | .error panic => .error panic
          | .ok none => .ok (s.dropProc np)
          | .ok (some (space, false)) =>
              (freevm { s.setDir fresh (some space.dir) with nfree := space.nfree } fresh).map (·.dropProc np)
          | .ok (some (space, true)) =>
              .ok { (s.setProc np ⟨.runnable, fresh, (s.proc p).sz, some p⟩).setDir fresh (some space.dir) with
                nfree := space.nfree }

/-- The reference count in `clone`. -/
def shareDir (s : Vm) (d : ℕ) : Vm :=
  match s.locate d with
  | some i => s.setRef i { s.uvmrefcount i with refcount := (s.uvmrefcount i).refcount + 1 }
  | none =>
      match s.freeRef with
      | some i => s.setRef i ⟨d, 2⟩
      | none => s

def clone (s : Vm) (p : Fin nproc) : Vm :=
  match s.allocproc with
  | none => s
  | some (np, s) =>
      (s.shareDir (s.proc p).pgdir).setProc np ⟨.runnable, (s.proc p).pgdir, (s.proc p).sz, some p⟩

/-- The loop of `exec` over the segments: the space and the size, zero for an error. -/
def loadSegments : List (ℕ × Bool) → Space → ℕ → Except Panic (Space × Option ℕ)
  | [], s, sz => .ok (s, some sz)
  | (segmentEnd, loads) :: rest, s, sz =>
      match s.allocuvm sz segmentEnd with
      | .error panic => .error panic
      | .ok (s, sz) => if sz = 0 ∨ ¬ loads then .ok (s, none) else loadSegments rest s sz

/-- The new image of `exec`, with its size unless something failed. -/
def buildImage (program : Program) (s : Space) : Except Panic (Space × Option ℕ) :=
  match loadSegments program.segments s 0 with
  | .error panic => .error panic
  | .ok (s, none) => .ok (s, none)
  | .ok (s, some sz) =>
      match s.allocuvm (4096 * pagesUp sz) (4096 * pagesUp sz + 2 * 4096) with
      | .error panic => .error panic
      | .ok (s, sz) => .ok (s, if sz = 0 ∨ ¬ program.argumentsFit then none else some sz)

def exec (s : Vm) (p : Fin nproc) (program : Program) (fresh : ℕ) : Except Panic Vm :=
  match setupkvm s.nfree with
  | none => .ok s
  | some space =>
      match buildImage program space with
      | .error panic => .error panic
      | .ok (space, none) => freevm { s.setDir fresh (some space.dir) with nfree := space.nfree } fresh
      | .ok (space, some sz) =>
          freevm { (s.setDir fresh (some space.dir)).setProc p { s.proc p with pgdir := fresh, sz := sz } with
            nfree := space.nfree } (s.proc p).pgdir

instance : NeZero nproc := ⟨by decide⟩

/-- `initproc`. -/
def initproc : Fin nproc := 0

def exit (s : Vm) (p : Fin nproc) : Except Panic Vm :=
  if p = initproc then .error .initExiting
  else .ok { s with proc := fun q =>
    { s.proc q with
      parent := if (s.proc q).parent = some p then some initproc else (s.proc q).parent
      state := if q = p then .zombie else (s.proc q).state } }

/-- The child `wait` finds. -/
def zombieChild (s : Vm) (p : Fin nproc) : Option (Fin nproc) :=
  (List.finRange nproc).find? fun q => (s.proc q).parent = some p ∧ (s.proc q).state = .zombie

/-- `wait` of a process that has a child to reap; otherwise it returns or sleeps. -/
def wait (s : Vm) (p : Fin nproc) : Except Panic Vm :=
  match s.zombieChild p with
  | none => .ok s
  | some q =>
      (freevm { s with nfree := s.nfree + 1 } (s.proc q).pgdir).map fun s =>
        s.setProc q { s.proc q with state := .unused, parent := none }

/-- `growproc`. A size of zero from either function is taken for an error. -/
def growproc (s : Vm) (p : Fin nproc) (n : ℤ) : Except Panic Vm :=
  let d := (s.proc p).pgdir
  let sz := (s.proc p).sz
  match s.dir d with
  | none => .error .freedDirectory
  | some dir =>
      let result : Except Panic (Space × ℕ) :=
        if n > 0 then Space.allocuvm ⟨dir, s.nfree⟩ sz (uint32 (sz + n))
        else if n < 0 then .ok (Space.deallocuvm ⟨dir, s.nfree⟩ sz (uint32 (sz + n)))
        else .ok (⟨dir, s.nfree⟩, sz)
      match result with
      | .error panic => .error panic
      | .ok (space, newsz) =>
          let s := { s.setDir d (some space.dir) with nfree := space.nfree }
          if n ≠ 0 ∧ newsz = 0 then .ok s else .ok (s.setProc p { s.proc p with sz := newsz })

/-- What a system call does. -/
def call (s : Vm) : VmAction → Except Panic Vm
  | .fork p fresh => s.fork p fresh
  | .clone p => .ok (s.clone p)
  | .exec p program fresh => s.exec p program fresh
  | .exit p => s.exit p
  | .wait p => s.wait p
  | .sbrk p n => s.growproc p n

/-- The page can be handed out as a new directory. -/
def Fresh (s : Vm) (d : ℕ) : Prop := d ≠ 0 ∧ s.dir d = none

instance (s : Vm) (d : ℕ) : Decidable (s.Fresh d) := inferInstanceAs (Decidable (_ ∧ _))

/-- The process that makes the call. -/
def caller : VmAction → Fin nproc
  | .fork p _ | .clone p | .exec p _ _ | .exit p | .wait p | .sbrk p _ => p

/-- The caller runs, and a new directory gets a free page. The argument of `sbrk` is an `int`. -/
def Enabled (s : Vm) (a : VmAction) : Prop :=
  (s.proc (caller a)).state = .runnable ∧ match a with
    | .fork _ fresh | .exec _ _ fresh => s.Fresh fresh
    | .sbrk _ n => -2 ^ 31 ≤ n ∧ n < 2 ^ 31
    | .clone _ | .exit _ | .wait _ => True

instance (s : Vm) : (a : VmAction) → Decidable (s.Enabled a)
  | .fork .. | .exec .. | .sbrk .. | .clone _ | .exit _ | .wait _ => inferInstanceAs (Decidable (_ ∧ _))

/-- A call that does not end in a panic. -/
def step (s : Vm) (a : VmAction) : Option Vm := if s.Enabled a then (s.call a).toOption else none

/-- After `userinit`: one process with one page. -/
def initial (nfree : ℕ) : Vm where
  proc p := if p = initproc then ⟨.runnable, 1, 4096, none⟩ else ⟨.unused, 0, 0, none⟩
  uvmrefcount _ := ⟨0, -1⟩
  dir d := if d = 1 then some ⟨[0], [0]⟩ else none
  nfree := nfree

/-- The number of processes that use a directory and are not `UNUSED`. -/
def users (s : Vm) (d : ℕ) : ℕ := countWhere (fun p : VmProc => p.state ≠ .unused ∧ p.pgdir = d) s.proc

end Vm

/-- The process table with any number of free pages. -/
def vmMachine : Machine Vm VmAction where
  init s := ∃ nfree, s = Vm.initial nfree
  step := Vm.step

end Cs537.Xv6
