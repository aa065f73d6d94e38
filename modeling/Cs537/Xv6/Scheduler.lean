import Cs537.Lib.CInt
import Cs537.Lib.Machine
import Cs537.Xv6.Proc

/-! # Scheduling on any number of processors

Each processor runs `scheduler`, one loop iteration a step, or the kernel and user code of the process
it has switched to. `ptable.lock` is held by a processor. The scheduler holds it from the start of a
scan to the end, across the switch into a process, which gives it back on its own. Code outside the
scheduler changes the table under the lock, except that a running process writes its own nice value,
lock list and tick count, and the parts of a process it has allocated and not yet made runnable.

The lock list of a running process changes by any amount in one step; the mutex system calls are one
way to change it.
-/

namespace Cs537.Xv6

open Lib

/-- What a processor does next. -/
inductive CpuMode where
  | idle
  | find (i : ℕ)
  | scan (i : ℕ) (minnice : ℤ)
  | run (p : Fin nproc)
deriving DecidableEq, Repr

namespace CpuMode

/-- Inside a scan, with the lock held and interrupts off. -/
def scanning : CpuMode → Bool
  | .find _ | .scan .. => true
  | _ => false

/-- `c->proc`. -/
def proc : CpuMode → Option (Fin nproc)
  | .run p => some p
  | _ => none

end CpuMode

/-- Addresses used as channels. -/
structure Channels (χ : Type) where
  proc : Fin nproc → χ
  ticks : χ

/-- `ptable` and the processors. -/
structure Sched (χ κ : Type) where
  proc : Procs χ
  nextpid : ℕ
  lock : Option κ
  cpu : κ → CpuMode

/-- Who does what next. `scheduler` is the next instruction of the loop of that name; the other
actions belong to an interrupt handler or to the process that runs on the processor. -/
inductive SchedAction (χ κ : Type) where
  | scheduler (c : κ)
  | acquire (c : κ)
  | release (c : κ)
  | wakeup (c : κ) (chan : χ)
  | notify (c : κ)
  | kill (c : κ) (pid : ℕ)
  | allocproc (c : κ)
  | setRunnable (c : κ) (np : Fin nproc)
  | reap (c : κ) (child : Fin nproc)
  | yield (c : κ)
  | sleep (c : κ) (chan : χ)
  | exit (c : κ)
  | clearChan (c : κ)
  | nice (c : κ) (inc : ℤ)
  | setLocks (c : κ) (locks : List χ)
  | setSleepticks (c : κ) (ticks : ℤ)
  | initProc (c : κ) (np : Fin nproc)
  | setParent (c : κ) (np : Fin nproc)
  | freeProc (c : κ) (np : Fin nproc)
deriving DecidableEq, Repr

/-- The arithmetic of `sys_nice`. -/
def clampNice (inc nice : ℤ) : ℤ :=
  let sum := int32 (inc + nice)
  if sum > 19 then 19 else if sum < -20 then -20 else sum

section Table

variable {χ : Type} [DecidableEq χ]

def wakeup1 (procs : Procs χ) (chan : χ) : Procs χ := fun p =>
  if (procs p).state = .sleeping ∧ (procs p).chan = chan then { procs p with state := .runnable } else procs p

/-- `sleep_proc_notify`. -/
def sleepProcNotify (procs : Procs χ) (ticks : χ) : Procs χ := fun p =>
  if (procs p).state = .sleeping ∧ (procs p).chan = ticks then
    if (procs p).sleepticks = 0 then { procs p with state := .runnable }
    else { procs p with sleepticks := (procs p).sleepticks - 1 }
  else procs p

/-- The loop of `kill`. -/
def kill (procs : Procs χ) (pid : ℕ) : Procs χ :=
  match (List.finRange nproc).find? fun p => (procs p).pid = pid with
  | none => procs
  | some p =>
      if (procs p).state = .sleeping then Function.update procs p { procs p with state := .runnable }
      else procs

/-- The loop of `exit` that passes children to init. -/
def abandon (procs : Procs χ) (curproc initproc : Fin nproc) (initChan : χ) : Procs χ :=
  (List.finRange nproc).foldl (fun procs p =>
    if (procs p).parent = some curproc then
      let procs' := Function.update procs p { procs p with parent := some initproc }
      if (procs p).state = .zombie then wakeup1 procs' initChan else procs'
    else procs) procs

end Table

namespace Sched

variable {χ κ : Type} [DecidableEq χ] [Zero χ] [DecidableEq κ]

/-- The init process, which `userinit` put into the first slot. -/
def initproc : Fin nproc := ⟨0, by decide⟩

def setCpu (s : Sched χ κ) (c : κ) (mode : CpuMode) : Sched χ κ :=
  { s with cpu := Function.update s.cpu c mode }

def setProc (s : Sched χ κ) (p : Fin nproc) (value : Proc χ) : Sched χ κ :=
  { s with proc := Function.update s.proc p value }

/-- The next instruction of `scheduler`. -/
def schedulerStep (s : Sched χ κ) (c : κ) : Option (Sched χ κ) :=
  match s.cpu c with
  | .idle =>
      if s.lock = none then some { s.setCpu c (.find 0) with lock := some c } else none
  | .find i =>
      let (procs, minnice) := findminnice s.proc
      some { s.setCpu c (.scan i minnice) with proc := procs }
  | .scan i minnice =>
      if inside : i < nproc then
        let p : Fin nproc := ⟨i, inside⟩
        if (s.proc p).state ≠ .runnable ∨ (s.proc p).elevatedNice > minnice then
          some (s.setCpu c (.scan (i + 1) minnice))
        else some ((s.setCpu c (.run p)).setProc p { s.proc p with state := .running })
      else some { s.setCpu c .idle with lock := none }
  | .run _ => none

/-- Code that holds `ptable.lock`, in an interrupt handler or in a process. -/
def underLock (s : Sched χ κ) (c : κ) (change : Procs χ → Procs χ) : Option (Sched χ κ) :=
  if s.lock = some c ∧ (s.cpu c).scanning = false then some { s with proc := change s.proc } else none

/-- Code of the process that runs on the processor, with the lock held. -/
def inKernel (s : Sched χ κ) (c : κ) (change : Fin nproc → Option (Sched χ κ)) : Option (Sched χ κ) :=
  match s.cpu c with
  | .run p => if s.lock = some c then change p else none
  | _ => none

/-- Code of the process that runs on the processor, without the lock. -/
def inProcess (s : Sched χ κ) (c : κ) (change : Fin nproc → Option (Sched χ κ)) : Option (Sched χ κ) :=
  match s.cpu c with
  | .run p => change p
  | _ => none

/-- The running process stores its next state and calls `sched`: the scheduler goes on behind it. -/
def sched (s : Sched χ κ) (c : κ) (p : Fin nproc) (value : Proc χ) : Sched χ κ :=
  (s.setProc p value).setCpu c (.find (p + 1))

/-- `allocproc`, up to the release of the lock. -/
def allocproc (s : Sched χ κ) : Sched χ κ :=
  match (List.finRange nproc).find? fun p => (s.proc p).state = .unused with
  | none => s
  | some p => { s.setProc p { s.proc p with
      state := .embryo, pid := s.nextpid, sleepticks := -1, chan := 0 } with nextpid := s.nextpid + 1 }

/-- One step of one processor. -/
def step (channels : Channels χ) (s : Sched χ κ) : SchedAction χ κ → Option (Sched χ κ)
  | .scheduler c => s.schedulerStep c
  | .acquire c =>
      if s.lock = none ∧ (s.cpu c).scanning = false then some { s with lock := some c } else none
  | .release c =>
      if s.lock = some c ∧ (s.cpu c).scanning = false then some { s with lock := none } else none
  | .wakeup c chan => s.underLock c (wakeup1 · chan)
  | .notify c => s.underLock c (sleepProcNotify · channels.ticks)
  | .kill c pid => s.inKernel c fun _ => some { s with proc := Xv6.kill s.proc pid }
  | .allocproc c => s.inKernel c fun _ => some s.allocproc
  | .setRunnable c np => s.inKernel c fun _ =>
      if (s.proc np).state = .embryo then some (s.setProc np { s.proc np with state := .runnable }) else none
  | .reap c child => s.inKernel c fun p =>
      if (s.proc child).parent = some p ∧ (s.proc child).state = .zombie then
        some (s.setProc child { s.proc child with pid := 0, parent := none, state := .unused })
      else none
  | .yield c => s.inKernel c fun p => some (s.sched c p { s.proc p with state := .runnable })
  | .sleep c chan => s.inKernel c fun p =>
      some (s.sched c p { s.proc p with chan := chan, state := .sleeping })
  | .exit c => s.inKernel c fun p =>
      if p = initproc then none
      else
        let parentChan := ((s.proc p).parent.map channels.proc).getD 0
        let procs := abandon (wakeup1 s.proc parentChan) p initproc (channels.proc initproc)
        some (sched { s with proc := procs } c p { procs p with state := .zombie })
  | .clearChan c => s.inKernel c fun p => some (s.setProc p { s.proc p with chan := 0 })
  | .nice c inc => s.inProcess c fun p =>
      some (s.setProc p { s.proc p with nice := clampNice inc (s.proc p).nice })
  | .setLocks c locks => s.inProcess c fun p => some (s.setProc p { s.proc p with locksHeld := locks })
  | .setSleepticks c ticks => s.inProcess c fun p => some (s.setProc p { s.proc p with sleepticks := ticks })
  | .initProc c np => s.inProcess c fun _ =>
      if (s.proc np).state = .embryo then
        some (s.setProc np { s.proc np with locksHeld := [], nice := 0, elevatedNice := 0 })
      else none
  | .setParent c np => s.inProcess c fun p =>
      if (s.proc np).state = .embryo then some (s.setProc np { s.proc np with parent := some p }) else none
  | .freeProc c np => s.inProcess c fun _ =>
      if (s.proc np).state = .embryo then some (s.setProc np { s.proc np with state := .unused }) else none

/-- After `userinit`: the init process is runnable, the rest of the table is zero. -/
def initial (χ κ : Type) [Zero χ] : Sched χ κ where
  proc p := ⟨if p = initproc then .runnable else .unused, if p = initproc then 1 else 0, none, 0,
    if p = initproc then -1 else 0, [], 0, 0⟩
  nextpid := 2
  lock := none
  cpu _ := .idle

end Sched

/-- Processors `κ` on one process table. -/
def schedMachine (χ κ : Type) [DecidableEq χ] [Zero χ] [DecidableEq κ] (channels : Channels χ) :
    Machine (Sched χ κ) (SchedAction χ κ) where
  init s := s = Sched.initial χ κ
  step := Sched.step channels

end Cs537.Xv6
