import Cs537.Xv6.Scheduler

/-! # The mutex system calls over the scheduler

`sys_macquire` and `sys_mrelease` turn a user pointer into a sleep channel: `V2P(*pte)`, where `pte` is
the page-table entry of the page the mutex starts in. That word is the frame address with the flag bits,
among them the accessed and dirty bits the processor sets on its own. Channels are only compared, so a
channel is the entry itself; kernel objects lie in frames no process maps, and their addresses are
channels of another kind.

Every instruction that another processor can tell apart is a step; what a step does to the process
table is a step of the scheduler model. `kalloc` gives each page of each address space a frame of its
own, so a frame is named by the space and the page. The field `holds` is history: the mutexes a process
has acquired and not released.
-/

namespace Cs537.Xv6

open Lib

/-- `PGSIZE`. -/
def pgsize : ℕ := 4096

/-- `MAXMUTEXLOCKSHELD`. -/
def maxMutexLocksHeld : ℕ := 16

/-- `sizeof(mutex)`. -/
def mutexBytes : ℕ := 60

/-- A mutex is its address space and its virtual address in it. -/
structure Mutex where
  space : ℕ
  va : ℕ
deriving DecidableEq, Repr

/-- A page frame in user use: the page it backs. -/
structure Frame where
  space : ℕ
  page : ℕ
deriving DecidableEq, Repr

/-- The frame the first byte of a mutex lies in. -/
def Mutex.frame (m : Mutex) : Frame := ⟨m.space, m.va / pgsize⟩

/-- A page-table entry: the frame and the two bits that change. -/
structure Pte where
  frame : Frame
  accessed : Bool
  dirty : Bool
deriving DecidableEq, Repr

/-- Sleep channels: null, the address of a kernel object, or `V2P` of a page-table entry. -/
inductive Chan where
  | null
  | object (id : ℕ)
  | v2p (pte : Pte)
deriving DecidableEq, Repr

instance : Zero Chan := ⟨.null⟩

/-- `&ticks` and the process structures. -/
def kernelChannels : Channels Chan := ⟨fun p => .object (p + 1), .object 0⟩

/-- Where a process stands in a mutex system call. `user` is everything outside; a process may lose the
processor there and before it takes the spinlock of a mutex, not while it holds one. -/
inductive SysPc where
  | user
  | asleep
  | acqLock (m : Mutex) (chan : Chan)
  | acqTest (m : Mutex) (chan : Chan)
  | acqSet (m : Mutex) (chan : Chan)
  | acqDone (m : Mutex)
  | acqSleep (m : Mutex) (chan : Chan)
  | acqUnlock (m : Mutex) (chan : Chan)
  | acqSched (m : Mutex) (chan : Chan)
  | acqAsleep (m : Mutex) (chan : Chan)
  | acqWoken (m : Mutex) (chan : Chan)
  | relLock (m : Mutex) (chan : Chan)
  | relRemove (m : Mutex) (chan : Chan)
  | relWakeup (m : Mutex) (chan : Chan)
  | relWake1 (m : Mutex) (chan : Chan)
  | relUnlock (m : Mutex) (chan : Chan)
  | relDone (m : Mutex)
deriving DecidableEq, Repr

/-- Interrupts are on: a timer tick may take the processor away. -/
def SysPc.preemptible : SysPc → Bool
  | .user | .acqLock .. | .relLock .. => true
  | _ => false

/-- The loop of `sys_mrelease` over `locks_held`: an entry that matches is overwritten by the last one,
and the index moves on. -/
def removeLockLoop (chan : Chan) : ℕ → ℕ → List Chan → List Chan
  | 0, _, locks => locks
  | fuel + 1, i, locks =>
      if locks[i]? = some chan then
        removeLockLoop chan fuel (i + 1) ((locks.set i (locks.getLast?.getD 0)).dropLast)
      else removeLockLoop chan fuel (i + 1) locks

/-- The index is below `num_locks_held` at most as often as there are entries. -/
def removeLock (chan : Chan) (locks : List Chan) : List Chan := removeLockLoop chan locks.length 0 locks

/-- The scheduler, the address spaces, the mutex words, and where each process stands. -/
structure Kernel (κ : Type) where
  sched : Sched Chan κ
  space : Fin nproc → ℕ
  sz : ℕ → ℕ
  accessed : Frame → Bool
  dirty : Frame → Bool
  nextSpace : ℕ
  spin : Mutex → Bool
  locked : Mutex → Bool
  pc : Fin nproc → SysPc
  holds : Fin nproc → List Mutex

/-- Who does what next. `syscall` is the next instruction of the mutex call the running process is in;
`table` is any action of the scheduler model that belongs to an interrupt handler, a timer tick or the
code of `fork` and `clone`. -/
inductive KernelAction (κ : Type) where
  | scheduler (c : κ)
  | syscall (c : κ)
  | macquire (c : κ) (va : ℕ)
  | mrelease (c : κ) (va : ℕ)
  | nice (c : κ) (inc : ℤ)
  | acquire (c : κ)
  | release (c : κ)
  | yield (c : κ)
  | sleep (c : κ) (object : ℕ)
  | woken (c : κ)
  | wakeup (c : κ) (object : ℕ)
  | notify (c : κ)
  | touch (c : κ) (page : ℕ) (write : Bool)
  | allocproc (c : κ)
  | initProc (c : κ) (np : Fin nproc)
  | copyuvm (c : κ) (np : Fin nproc) (spin locked : ℕ → Bool)
  | shareuvm (c : κ) (np : Fin nproc)
  | setParent (c : κ) (np : Fin nproc)
  | freeProc (c : κ) (np : Fin nproc)
  | setRunnable (c : κ) (np : Fin nproc)

namespace Kernel

variable {κ : Type} [DecidableEq κ]

/-- `*walkpgdir(pgdir, m, 0)`. -/
def pte (s : Kernel κ) (m : Mutex) : Pte := ⟨m.frame, s.accessed m.frame, s.dirty m.frame⟩

def setPc (s : Kernel κ) (p : Fin nproc) (pc : SysPc) : Kernel κ :=
  { s with pc := Function.update s.pc p pc }

def setSpin (s : Kernel κ) (m : Mutex) (held : Bool) : Kernel κ :=
  { s with spin := Function.update s.spin m held }

/-- A store to a page sets both bits of its entry. -/
def store (s : Kernel κ) (frame : Frame) : Kernel κ :=
  { s with
    accessed := Function.update s.accessed frame true
    dirty := Function.update s.dirty frame true }

/-- A step of the scheduler model that leaves the rest alone. -/
def lift (s : Kernel κ) (a : SchedAction Chan κ) : Option (Kernel κ) :=
  (s.sched.step kernelChannels a).map fun sched => { s with sched := sched }

/-- `acquire(&m->lk)` of a process whose processor does not hold `ptable.lock`. -/
def lockMutex (s : Kernel κ) (c : κ) (p : Fin nproc) (m : Mutex) (next : SysPc) : Option (Kernel κ) :=
  if s.sched.lock ≠ some c ∧ s.spin m = false then
    some (((s.setSpin m true).store m.frame).setPc p next)
  else none

/-- The next instruction of the mutex call that process `p` is in. -/
def syscallStep (s : Kernel κ) (c : κ) (p : Fin nproc) : Option (Kernel κ) :=
  match s.pc p with
  | .user | .asleep => none
  | .acqLock m chan => s.lockMutex c p m (.acqTest m chan)
  | .acqTest m chan => some (s.setPc p (if s.locked m then .acqSleep m chan else .acqSet m chan))
  | .acqSet m chan =>
      (s.lift (.setLocks c ((s.sched.proc p).locksHeld ++ [chan]))).map fun s =>
        { s.setPc p (.acqDone m) with
          locked := Function.update s.locked m true
          holds := Function.update s.holds p (s.holds p ++ [m]) }
  | .acqDone m => some ((s.setSpin m false).setPc p .user)
  | .acqSleep m chan => (s.lift (.acquire c)).map (·.setPc p (.acqUnlock m chan))
  | .acqUnlock m chan => some ((s.setSpin m false).setPc p (.acqSched m chan))
  | .acqSched m chan => (s.lift (.sleep c chan)).map (·.setPc p (.acqAsleep m chan))
  | .acqAsleep m chan => (s.lift (.clearChan c)).map (·.setPc p (.acqWoken m chan))
  | .acqWoken m chan => (s.lift (.release c)).map (·.setPc p (.acqLock m chan))
  | .relLock m chan => s.lockMutex c p m (.relRemove m chan)
  | .relRemove m chan =>
      (s.lift (.setLocks c (removeLock chan (s.sched.proc p).locksHeld))).map fun s =>
        { s.setPc p (.relWakeup m chan) with
          locked := Function.update s.locked m false
          holds := Function.update s.holds p ((s.holds p).erase m) }
  | .relWakeup m chan => (s.lift (.acquire c)).map (·.setPc p (.relWake1 m chan))
  | .relWake1 m chan => (s.lift (.wakeup c chan)).map (·.setPc p (.relUnlock m chan))
  | .relUnlock m _ => (s.lift (.release c)).map (·.setPc p (.relDone m))
  | .relDone m => some ((s.setSpin m false).setPc p .user)

/-- The processor runs a process that satisfies the test, or is idle where that is allowed. -/
def guarded (s : Kernel κ) (c : κ) (idle : Bool) (test : SysPc → Bool) : Bool :=
  match s.sched.cpu c with
  | .idle => idle
  | .run p => test (s.pc p)
  | _ => false

/-- The processor runs a process in user mode: outside the mutex calls and without `ptable.lock`. -/
def inUser (s : Kernel κ) (c : κ) (change : Fin nproc → Option (Kernel κ)) : Option (Kernel κ) :=
  match s.sched.cpu c with
  | .run p => if s.pc p = .user ∧ s.sched.lock ≠ some c then change p else none
  | _ => none

/-- `argptr(0, (char**) &m, sizeof(mutex))` succeeds. -/
def argptr (s : Kernel κ) (m : Mutex) : Bool := m.va + mutexBytes ≤ s.sz m.space

/-- Entry of a mutex call: a bad pointer returns at once, otherwise the entry is read. -/
def callMutex (s : Kernel κ) (p : Fin nproc) (va : ℕ) (next : Mutex → Chan → SysPc) : Kernel κ :=
  let m : Mutex := ⟨s.space p, va⟩
  if s.argptr m then s.setPc p (next m (.v2p (s.pte m))) else s

/-- `copyuvm`: a new address space with the flags of the old one. The pages are copied while other
threads may write them, so the mutex words of the copy are arbitrary. -/
def copyuvm (s : Kernel κ) (p np : Fin nproc) (spin locked : ℕ → Bool) : Kernel κ :=
  let old := s.space p
  let new := s.nextSpace
  { s with
    space := Function.update s.space np new
    nextSpace := new + 1
    sz := Function.update s.sz new (s.sz old)
    accessed := fun frame => if frame.space = new then s.accessed ⟨old, frame.page⟩ else s.accessed frame
    dirty := fun frame => if frame.space = new then s.dirty ⟨old, frame.page⟩ else s.dirty frame
    spin := fun m => if m.space = new then spin m.va else s.spin m
    locked := fun m => if m.space = new then locked m.va else s.locked m }

/-- One step of one processor. -/
def step (s : Kernel κ) : KernelAction κ → Option (Kernel κ)
  | .scheduler c => s.lift (.scheduler c)
  | .syscall c => match s.sched.cpu c with
      | .run p => s.syscallStep c p
      | _ => none
  | .macquire c va => s.inUser c fun p => some (s.callMutex p va .acqLock)
  | .mrelease c va => s.inUser c fun p => some (s.callMutex p va .relLock)
  | .nice c inc => s.inUser c fun _ => s.lift (.nice c inc)
  | .acquire c => if s.guarded c true SysPc.preemptible then s.lift (.acquire c) else none
  | .release c => if s.guarded c true SysPc.preemptible then s.lift (.release c) else none
  | .yield c => if s.guarded c false SysPc.preemptible then s.lift (.yield c) else none
  | .sleep c object => match s.sched.cpu c with
      | .run p => if s.pc p = .user then (s.lift (.sleep c (.object object))).map (·.setPc p .asleep) else none
      | _ => none
  | .woken c => match s.sched.cpu c with
      | .run p => if s.pc p = .asleep then (s.lift (.clearChan c)).map (·.setPc p .user) else none
      | _ => none
  | .wakeup c object =>
      if s.guarded c true SysPc.preemptible then s.lift (.wakeup c (.object object)) else none
  | .notify c => if s.guarded c true SysPc.preemptible then s.lift (.notify c) else none
  | .touch c page write => s.inUser c fun p =>
      let frame : Frame := ⟨s.space p, page⟩
      some (if write then s.store frame else { s with accessed := Function.update s.accessed frame true })
  | .allocproc c => if s.guarded c false (· = .user) then s.lift (.allocproc c) else none
  | .initProc c np => s.inUser c fun _ => s.lift (.initProc c np)
  | .copyuvm c np spin locked => s.inUser c fun p =>
      if (s.sched.proc np).state = .embryo then some (s.copyuvm p np spin locked) else none
  | .shareuvm c np => s.inUser c fun p =>
      if (s.sched.proc np).state = .embryo then
        some { s with space := Function.update s.space np (s.space p) }
      else none
  | .setParent c np => s.inUser c fun _ => s.lift (.setParent c np)
  | .freeProc c np => s.inUser c fun _ => s.lift (.freeProc c np)
  | .setRunnable c np => if s.guarded c false (· = .user) then s.lift (.setRunnable c np) else none

/-- After `userinit`: one process in the first address space, whose size, page bits and mutex words are
whatever its program has. -/
def initial (κ : Type) (sz : ℕ) (accessed dirty : ℕ → Bool) (spin locked : ℕ → Bool) : Kernel κ where
  sched := .initial Chan κ
  space _ := 0
  sz _ := sz
  accessed frame := accessed frame.page
  dirty frame := dirty frame.page
  nextSpace := 1
  spin m := spin m.va
  locked m := locked m.va
  pc _ := .user
  holds _ := []

/-- The mutex a sleeping process waits for inside `sys_macquire`. -/
def waitsFor (s : Kernel κ) (q : Fin nproc) : Option Mutex :=
  match (s.sched.proc q).state, s.pc q with
  | .sleeping, .acqAsleep m _ => some m
  | _, _ => none

/-- The nice value of a process lowered by the waiters for the mutexes it holds. -/
def inheritedNice (s : Kernel κ) (p : Fin nproc) : ℤ :=
  (insert (s.sched.proc p).nice
    ((Finset.univ.filter fun q => ∃ m ∈ s.holds p, s.waitsFor q = some m).image
      fun q => (s.sched.proc q).nice)).min' (Finset.insert_nonempty _ _)

end Kernel

/-- Processors `κ` running processes that use mutexes. -/
def kernelMachine (κ : Type) [DecidableEq κ] : Machine (Kernel κ) (KernelAction κ) where
  init s := ∃ sz accessed dirty spin locked, s = Kernel.initial κ sz accessed dirty spin locked
  step := Kernel.step

end Cs537.Xv6
