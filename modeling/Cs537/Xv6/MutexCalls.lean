import Cs537.Lib.Machine
import Cs537.Xv6.Proc

/-! # The mutex system calls under every interleaving

Any number of threads that share a page directory use any number of mutexes. The word of a mutex's page
does not change, so the channel of a mutex is a fixed number; mutexes of one page share it. Both locks are
explicit: the spinlock in the mutex and `ptable.lock`, which a thread that leaves the processor hands to the
scheduler and gets back when it is dispatched. Each instruction under a lock is a step of its own, so every
interleaving of whole regions is among the runs. The field `owns` is history: a thread has returned from
`macquire` of a mutex and has not called `mrelease` of it.
-/

namespace Cs537.Xv6

open Lib

/-- `locks_held` and `num_locks_held`, which follow each other in `struct proc`. -/
structure LocksHeld where
  slots : ℕ → ℤ
  count : ℤ

namespace LocksHeld

/-- The number of elements of `locks_held`. -/
def capacity : ℕ := 16

/-- `locks_held[num_locks_held++] = m_phys`. The element behind the array is the count itself; a store
further out has no outcome here. -/
def push (l : LocksHeld) (chan : ℤ) : Option LocksHeld :=
  if 0 ≤ l.count ∧ l.count < capacity then some ⟨Function.update l.slots l.count.toNat chan, l.count + 1⟩
  else if l.count = capacity then some { l with count := chan }
  else none

/-- The loop of `sys_mrelease`. -/
def removeLoop (chan : ℤ) : ℕ → ℕ → LocksHeld → LocksHeld
  | 0, _, l => l
  | fuel + 1, i, l =>
      if (i : ℤ) < l.count then
        if l.slots i = chan then
          let last := (l.count - 1).toNat
          removeLoop chan fuel (i + 1)
            ⟨Function.update (Function.update l.slots i (l.slots last)) last 0, l.count - 1⟩
        else removeLoop chan fuel (i + 1) l
      else l

/-- A count past the end of the array would make the loop read on behind it. -/
def remove (l : LocksHeld) (chan : ℤ) : Option LocksHeld :=
  if l.count ≤ capacity then some (removeLoop chan capacity 0 l) else none

end LocksHeld

/-- Where a thread stands. `blocked` is asleep in a system call that is not `sys_macquire`. -/
inductive CallPc (μ : Type) where
  | user
  | blocked
  | acqLock (m : μ)
  | acqTest (m : μ)
  | acqSet (m : μ)
  | acqDone (m : μ)
  | acqSleep (m : μ)
  | acqUnlock (m : μ)
  | acqSched (m : μ)
  | acqAsleep (m : μ)
  | relLock (m : μ)
  | relClear (m : μ)
  | relWakeup (m : μ)
  | relWake1 (m : μ)
  | relTable (m : μ)
  | relDone (m : μ)
deriving DecidableEq, Repr

namespace CallPc

variable {μ : Type}

/-- Interrupts are on: a timer tick may take the processor away. -/
@[simp, grind =]
def preemptible : CallPc μ → Bool
  | .user | .acqLock _ | .relLock _ => true
  | .blocked | .acqTest _ | .acqSet _ | .acqDone _ | .acqSleep _ | .acqUnlock _ | .acqSched _ |
    .acqAsleep _ | .relClear _ | .relWakeup _ | .relWake1 _ | .relTable _ | .relDone _ => false

/-- The mutex whose spinlock the thread holds. -/
@[simp, grind =]
def inside : CallPc μ → Option μ
  | .acqTest m | .acqSet m | .acqDone m | .acqSleep m | .acqUnlock m => some m
  | .relClear m | .relWakeup m | .relWake1 m | .relTable m | .relDone m => some m
  | .user | .blocked | .acqLock _ | .acqSched _ | .acqAsleep _ | .relLock _ => none

/-- The mutex the thread has locked and not returned with, or is about to unlock. -/
@[simp, grind =]
def holding : CallPc μ → Option μ
  | .acqDone m | .relLock m | .relClear m => some m
  | .user | .blocked | .acqLock _ | .acqTest _ | .acqSet _ | .acqSleep _ | .acqUnlock _ |
    .acqSched _ | .acqAsleep _ | .relWakeup _ | .relWake1 _ | .relTable _ | .relDone _ => none

/-- The thread holds `ptable.lock` for the wakeup of a release, or to go to sleep. -/
@[simp, grind =]
def tabled : CallPc μ → Bool
  | .acqUnlock _ | .acqSched _ | .relWake1 _ | .relTable _ => true
  | .user | .blocked | .acqLock _ | .acqTest _ | .acqSet _ | .acqDone _ | .acqSleep _ |
    .acqAsleep _ | .relLock _ | .relClear _ | .relWakeup _ | .relDone _ => false

/-- The thread has given the processor away in `sleep`. -/
@[simp, grind =]
def asleep : CallPc μ → Bool
  | .acqAsleep _ | .blocked => true
  | .user | .acqLock _ | .acqTest _ | .acqSet _ | .acqDone _ | .acqSleep _ | .acqUnlock _ | .acqSched _ |
    .relLock _ | .relClear _ | .relWakeup _ | .relWake1 _ | .relTable _ | .relDone _ => false

/-- The mutex whose waiters the thread is about to wake up. -/
@[simp, grind =]
def waking : CallPc μ → Option μ
  | .relWakeup m | .relWake1 m => some m
  | .user | .blocked | .acqLock _ | .acqTest _ | .acqSet _ | .acqDone _ | .acqSleep _ | .acqUnlock _ |
    .acqSched _ | .acqAsleep _ | .relLock _ | .relClear _ | .relTable _ | .relDone _ => none

end CallPc

/-- The fields of `struct proc` that the calls use, and where the thread stands. A thread that was
preempted, or has not run yet, releases `ptable.lock` first when it gets the processor. -/
structure MutexThread (μ : Type) where
  state : ProcState
  chan : ℤ
  killed : Bool
  locks : LocksHeld
  pc : CallPc μ
  preempted : Bool

/-- Who holds `ptable.lock`. -/
inductive TableLock (τ : Type) where
  | free
  | thread (t : τ)
  | scheduler
deriving DecidableEq, Repr

/-- What does not change: process identifiers, and `V2P(*pte)` for the page of each mutex. -/
structure MutexEnv (τ μ : Type) where
  pid : τ → ℤ
  chan : μ → ℤ

/-- The threads, the mutexes, and `ptable.lock`. -/
structure MutexState (τ μ : Type) where
  thread : τ → MutexThread μ
  lk : μ → Option τ
  locked : μ → Bool
  pid : μ → ℤ
  table : TableLock τ
  owns : τ → μ → Bool

/-- Who does what next. -/
inductive MutexAction (τ μ : Type) where
  | macquire (t : τ) (m : μ)
  | mrelease (t : τ) (m : μ)
  | instruction (t : τ)
  | yield (t : τ)
  | sleep (t : τ) (chan : ℤ)
  | wakeup (chan : ℤ)
  | kill (t : τ)
  | schedAcquire
  | schedRelease
  | dispatch (t : τ)

namespace MutexState

variable {τ μ : Type} [DecidableEq τ] [DecidableEq μ] (env : MutexEnv τ μ) (s : MutexState τ μ)

def setThread (t : τ) (th : MutexThread μ) : MutexState τ μ := { s with thread := Function.update s.thread t th }

def goto (t : τ) (pc : CallPc μ) : MutexState τ μ := s.setThread t { s.thread t with pc := pc }

def setLk (m : μ) (holder : Option τ) : MutexState τ μ := { s with lk := Function.update s.lk m holder }

def setTable (table : TableLock τ) : MutexState τ μ := { s with table := table }

/-- `wakeup1`. -/
def wakeup1 (chan : ℤ) : MutexState τ μ :=
  { s with thread := fun t =>
      if (s.thread t).state = .sleeping ∧ (s.thread t).chan = chan then { s.thread t with state := .runnable }
      else s.thread t }

/-- The next instruction of a running thread. -/
def instruction (t : τ) : Option (MutexState τ μ) :=
  let th := s.thread t
  if th.state ≠ .running then none
  else if th.preempted then some ((s.setThread t { th with preempted := false }).setTable .free)
  else match th.pc with
    | .user => none
    | .blocked => some ((s.setThread t { th with pc := .user, chan := 0 }).setTable .free)
    | .acqLock m => if s.lk m = none then some ((s.goto t (.acqTest m)).setLk m (some t)) else none
    | .acqTest m => some (s.goto t (if s.locked m then .acqSleep m else .acqSet m))
    | .acqSet m => (th.locks.push (env.chan m)).map fun locks =>
        { s.setThread t { th with pc := .acqDone m, locks := locks } with
          locked := Function.update s.locked m true
          pid := Function.update s.pid m (env.pid t) }
    | .acqDone m => some
        { (s.goto t .user).setLk m none with
          owns := Function.update s.owns t (Function.update (s.owns t) m true) }
    | .acqSleep m => if s.table = .free then some ((s.goto t (.acqUnlock m)).setTable (.thread t)) else none
    | .acqUnlock m => some ((s.goto t (.acqSched m)).setLk m none)
    | .acqSched m => some
        ((s.setThread t { th with pc := .acqAsleep m, state := .sleeping, chan := env.chan m }).setTable .scheduler)
    | .acqAsleep m => some ((s.setThread t { th with pc := .acqLock m, chan := 0 }).setTable .free)
    | .relLock m => if s.lk m = none then some ((s.goto t (.relClear m)).setLk m (some t)) else none
    | .relClear m => (th.locks.remove (env.chan m)).map fun locks =>
        { s.setThread t { th with pc := .relWakeup m, locks := locks } with
          locked := Function.update s.locked m false
          pid := Function.update s.pid m 0 }
    | .relWakeup m => if s.table = .free then some ((s.goto t (.relWake1 m)).setTable (.thread t)) else none
    | .relWake1 m => some ((s.wakeup1 (env.chan m)).goto t (.relTable m))
    | .relTable m => some ((s.goto t (.relDone m)).setTable .free)
    | .relDone m => some ((s.goto t .user).setLk m none)

/-- The thread runs user code. -/
def inUser (t : τ) : Prop :=
  (s.thread t).state = .running ∧ (s.thread t).preempted = false ∧ (s.thread t).pc = .user

instance (t : τ) : Decidable (s.inUser t) := inferInstanceAs (Decidable (_ ∧ _ ∧ _))

/-- One step of one thread, of a scheduler, or of whoever calls `wakeup` and `kill`. -/
def step : MutexAction τ μ → Option (MutexState τ μ)
  | .macquire t m => if s.inUser t then some (s.goto t (.acqLock m)) else none
  | .mrelease t m =>
      if s.inUser t then
        some { s.goto t (.relLock m) with owns := Function.update s.owns t (Function.update (s.owns t) m false) }
      else none
  | .instruction t => s.instruction env t
  | .yield t =>
      if (s.thread t).state = .running ∧ (s.thread t).preempted = false ∧ (s.thread t).pc.preemptible = true ∧
          s.table = .free then
        some ((s.setThread t { s.thread t with state := .runnable, preempted := true }).setTable .scheduler)
      else none
  | .sleep t chan =>
      if s.inUser t ∧ s.table = .free then
        some ((s.setThread t
          { s.thread t with state := .sleeping, chan := chan, pc := .blocked }).setTable .scheduler)
      else none
  | .wakeup chan => if s.table = .free then some (s.wakeup1 chan) else none
  | .kill t =>
      if s.table = .free then
        some (s.setThread t { s.thread t with
          killed := true
          state := if (s.thread t).state = .sleeping then .runnable else (s.thread t).state })
      else none
  | .schedAcquire => if s.table = .free then some (s.setTable .scheduler) else none
  | .schedRelease => if s.table = .scheduler then some (s.setTable .free) else none
  | .dispatch t =>
      if s.table = .scheduler ∧ (s.thread t).state = .runnable then
        some ((s.setThread t { s.thread t with state := .running }).setTable (.thread t))
      else none

/-- After `minit` of every mutex: no thread holds anything, and all wait for a processor. -/
def initial (τ μ : Type) : MutexState τ μ where
  thread _ := ⟨.runnable, 0, false, ⟨fun _ => 0, 0⟩, .user, true⟩
  lk _ := none
  locked _ := false
  pid _ := 0
  table := .free
  owns _ _ := false

/-- A mutex is released only by its holder. -/
def ReleasedByHolder : MutexAction τ μ → Prop
  | .mrelease t m => s.owns t m = true
  | _ => True

instance : (a : MutexAction τ μ) → Decidable (s.ReleasedByHolder a)
  | .mrelease t m => inferInstanceAs (Decidable (s.owns t m = true))
  | .macquire .. | .instruction _ | .yield _ | .sleep .. | .wakeup _ | .kill _ | .schedAcquire | .schedRelease |
    .dispatch _ => isTrue trivial

end MutexState

/-- Threads `τ` and mutexes `μ` under every interleaving. -/
def mutexMachine {τ μ : Type} [DecidableEq τ] [DecidableEq μ] (env : MutexEnv τ μ) :
    Machine (MutexState τ μ) (MutexAction τ μ) where
  init s := s = .initial τ μ
  step := MutexState.step env

end Cs537.Xv6
