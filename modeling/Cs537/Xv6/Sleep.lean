import Cs537.Lib.CInt
import Cs537.Lib.Machine
import Cs537.Lib.Threads
import Cs537.Xv6.Proc

/-! # `sys_sleep` and the clock

The timer handler of the first processor counts a tick and passes over the table while it has `tickslock`;
a process that sleeps has the same lock from the reading of the clock until it has `ptable.lock`. Each
instruction under a lock is a step. Processes also sleep on other channels, are woken up there, are
preempted and killed at any time. The flag of a program point inside `sys_sleep` is history: the call has
been asleep before.
-/

namespace Cs537.Xv6

open Lib

/-- Sleep channels: null, `&ticks`, and all others. -/
inductive ClockChan where
  | null
  | ticks
  | other (id : ℕ)
deriving DecidableEq, Repr

/-- Where a process stands. The arguments inside the loop of `sys_sleep` are `n`, `ticks0` and whether the
call has slept. -/
inductive SleepPc where
  | user
  | blocked
  | yielded
  | lock (n : ℤ)
  | start (n : ℤ)
  | test (n : ℤ) (ticks0 : BitVec 32) (again : Bool)
  | table (n : ℤ) (ticks0 : BitVec 32) (again : Bool)
  | unlock (n : ℤ) (ticks0 : BitVec 32) (again : Bool)
  | sched (n : ℤ) (ticks0 : BitVec 32) (again : Bool)
  | asleep (n : ℤ) (ticks0 : BitVec 32) (again : Bool)
  | relock (n : ℤ) (ticks0 : BitVec 32)
  | done
  | fail
deriving DecidableEq, Repr

namespace SleepPc

/-- Interrupts are on: a timer tick may take the processor away. -/
def preemptible : SleepPc → Bool
  | .user | .lock _ | .relock .. => true
  | _ => false

/-- The process has `tickslock`. -/
def ticking : SleepPc → Bool
  | .start _ | .test .. | .table .. | .unlock .. | .done | .fail => true
  | _ => false

/-- The process has `ptable.lock`, to go to sleep. -/
def tabled : SleepPc → Bool
  | .unlock .. | .sched .. => true
  | _ => false

end SleepPc

/-- The fields of `struct proc` that sleeping uses, where the process stands, and what its last call of
`sleep` returned. A process that was preempted, or has not run yet, releases `ptable.lock` first when it
gets the processor. -/
structure Sleeper where
  state : ProcState
  chan : ClockChan
  sleepticks : ℤ
  killed : Bool
  pc : SleepPc
  preempted : Bool
  returned : Option ℤ
deriving DecidableEq, Repr

/-- The body of the loop of `sleep_proc_notify`. -/
def Sleeper.notify (p : Sleeper) : Sleeper :=
  if p.state = .sleeping ∧ p.chan = .ticks then
    if p.sleepticks = 0 then { p with state := .runnable } else { p with sleepticks := int32 (p.sleepticks - 1) }
  else p

/-- The handler of the timer interrupt. -/
inductive TimerPc where
  | idle
  | locked
  | counted
  | tabled
  | notified
  | released
deriving DecidableEq, Repr

/-- Who holds a spinlock. -/
inductive Holder (τ : Type) where
  | process (t : τ)
  | timer
  | scheduler
deriving DecidableEq, Repr

/-- The process table, the clock, and their locks. -/
structure Clock (τ : Type) where
  proc : τ → Sleeper
  ticks : BitVec 32
  tickslock : Option (Holder τ)
  table : Option (Holder τ)
  timer : TimerPc

/-- Who does what next. -/
inductive ClockAction (τ : Type) where
  | sleep (t : τ) (n : ℤ)
  | instruction (t : τ)
  | yield (t : τ)
  | block (t : τ) (chan : ℕ)
  | wakeup (chan : ℕ)
  | kill (t : τ)
  | timer
  | schedAcquire
  | schedRelease
  | dispatch (t : τ)

namespace Clock

variable {τ : Type} [DecidableEq τ] (s : Clock τ)

def setProc (t : τ) (p : Sleeper) : Clock τ := { s with proc := Function.update s.proc t p }

@[simp]
theorem setProc_self (t : τ) (p : Sleeper) : (s.setProc t p).proc t = p := Function.update_self ..

theorem setProc_of_ne {t u : τ} (p : Sleeper) (apart : t ≠ u) : (s.setProc u p).proc t = s.proc t :=
  Function.update_of_ne apart ..

/-- `wakeup1`, for a channel that is not `&ticks`. -/
def wakeup1 (chan : ℕ) : Clock τ :=
  { s with proc := fun t =>
      if (s.proc t).state = .sleeping ∧ (s.proc t).chan = .other chan then { s.proc t with state := .runnable }
      else s.proc t }

/-- The process runs user code. -/
def inUser (t : τ) : Prop :=
  (s.proc t).state = .running ∧ (s.proc t).preempted = false ∧ (s.proc t).pc = .user

instance (t : τ) : Decidable (s.inUser t) := inferInstanceAs (Decidable (_ ∧ _ ∧ _))

/-- The next instruction of the call that a process is in. -/
def callStep (t : τ) : Option (Clock τ) :=
  let p := s.proc t
  match p.pc with
  | .user => none
  | .blocked => some { s.setProc t { p with pc := .user, chan := .null } with table := none }
  | .yielded => some { s.setProc t { p with pc := .user, returned := some 0 } with table := none }
  | .lock n =>
      if s.tickslock = none then some { s.setProc t { p with pc := .start n } with tickslock := some (.process t) }
      else none
  | .start n => some (s.setProc t { p with pc := .test n s.ticks false, sleepticks := n })
  | .test n ticks0 again =>
      if (s.ticks - ticks0).toNat < uint32 n then
        some (s.setProc t { p with pc := if p.killed then .fail else .table n ticks0 again })
      else some (s.setProc t { p with pc := .done })
  | .table n ticks0 again =>
      if s.table = none then some { s.setProc t { p with pc := .unlock n ticks0 again } with table := some (.process t) }
      else none
  | .unlock n ticks0 again => some { s.setProc t { p with pc := .sched n ticks0 again } with tickslock := none }
  | .sched n ticks0 again => some
      { s.setProc t { p with pc := .asleep n ticks0 again, chan := .ticks, state := .sleeping } with
        table := some .scheduler }
  | .asleep n ticks0 _ => some { s.setProc t { p with pc := .relock n ticks0, chan := .null } with table := none }
  | .relock n ticks0 =>
      if s.tickslock = none then
        some { s.setProc t { p with pc := .test n ticks0 true } with tickslock := some (.process t) }
      else none
  | .done => some
      { s.setProc t { p with pc := .user, sleepticks := -1, returned := some 0 } with tickslock := none }
  | .fail => some { s.setProc t { p with pc := .user, returned := some (-1) } with tickslock := none }

/-- The next instruction of a running process. -/
def instruction (t : τ) : Option (Clock τ) :=
  if (s.proc t).state ≠ .running then none
  else if (s.proc t).preempted then some { s.setProc t { s.proc t with preempted := false } with table := none }
  else s.callStep t

/-- The next instruction of the timer handler. -/
def timerStep : Option (Clock τ) :=
  match s.timer with
  | .idle => if s.tickslock = none then some { s with tickslock := some .timer, timer := .locked } else none
  | .locked => some { s with ticks := s.ticks + 1, timer := .counted }
  | .counted => if s.table = none then some { s with table := some .timer, timer := .tabled } else none
  | .tabled => some { s with proc := fun t => (s.proc t).notify, timer := .notified }
  | .notified => some { s with table := none, timer := .released }
  | .released => some { s with tickslock := none, timer := .idle }

/-- One step of one process, of the timer, of a scheduler, or of whoever calls `wakeup` and `kill`. -/
def step : ClockAction τ → Option (Clock τ)
  | .sleep t n =>
      if s.inUser t then
        if n = 0 then
          if s.table = none then
            some { s.setProc t { s.proc t with state := .runnable, pc := .yielded } with table := some .scheduler }
          else none
        else some (s.setProc t { s.proc t with pc := .lock n })
      else none
  | .instruction t => s.instruction t
  | .yield t =>
      if (s.proc t).state = .running ∧ (s.proc t).preempted = false ∧ (s.proc t).pc.preemptible = true ∧
          s.table = none then
        some { s.setProc t { s.proc t with state := .runnable, preempted := true } with table := some .scheduler }
      else none
  | .block t chan =>
      if s.inUser t ∧ s.table = none then
        some { s.setProc t { s.proc t with state := .sleeping, chan := .other chan, pc := .blocked } with
          table := some .scheduler }
      else none
  | .wakeup chan => if s.table = none then some (s.wakeup1 chan) else none
  | .kill t =>
      if s.table = none then
        some (s.setProc t { s.proc t with
          killed := true
          state := if (s.proc t).state = .sleeping then .runnable else (s.proc t).state })
      else none
  | .timer => s.timerStep
  | .schedAcquire => if s.table = none then some { s with table := some .scheduler } else none
  | .schedRelease => if s.table = some .scheduler then some { s with table := none } else none
  | .dispatch t =>
      if s.table = some .scheduler ∧ (s.proc t).state = .runnable then
        some { s.setProc t { s.proc t with state := .running } with table := some (.process t) }
      else none

/-- All processes wait for a processor, and the clock shows any time. -/
def initial (τ : Type) (ticks : BitVec 32) : Clock τ where
  proc _ := ⟨.runnable, .null, -1, false, .user, true, none⟩
  ticks := ticks
  tickslock := none
  table := none
  timer := .idle

end Clock

/-- Processes `τ` and a clock that starts anywhere. -/
def clockMachine (τ : Type) [DecidableEq τ] : Machine (Clock τ) (ClockAction τ) where
  init s := ∃ ticks, s = .initial τ ticks
  step := Clock.step

section Timing

variable {τ : Type}

/-- `n` and `ticks0` of a call in its first sleep, or on the way to it. -/
def SleepPc.first : SleepPc → Option (ℤ × BitVec 32)
  | .test n ticks0 false | .table n ticks0 false | .unlock n ticks0 false | .sched n ticks0 false
  | .asleep n ticks0 false => some (n, ticks0)
  | _ => none

/-- The process comes back with `ptable.lock` when it gets the processor. -/
def SleepPc.away : SleepPc → Bool
  | .blocked | .yielded | .asleep .. => true
  | _ => false

/-- Where a process may be preempted it has no lock and no sleep to account for. -/
theorem SleepPc.of_preemptible {pc : SleepPc} (preemptible : pc.preemptible = true) :
    pc.away = false ∧ pc.ticking = false ∧ pc.tabled = false ∧ pc.first = none := by
  cases pc <;> first | exact ⟨rfl, rfl, rfl, rfl⟩ | cases preemptible

private theorem SleepPc.away_of_first {pc : SleepPc} {call : ℤ × BitVec 32} (first : pc.first = some call)
    (unlocked : pc.ticking = false) (untabled : pc.tabled = false) : pc.away = true := by
  cases pc <;> simp_all [SleepPc.first, SleepPc.ticking, SleepPc.tabled, SleepPc.away]

/-- The process has `ptable.lock`. -/
def Sleeper.holdsTable (p : Sleeper) : Prop :=
  p.pc.tabled = true ∨ p.state = .running ∧ (p.preempted = true ∨ p.pc.away = true)

/-- Ticks that are counted and not yet taken off the sleepers. -/
def TimerPc.pending : TimerPc → ℕ
  | .counted | .tabled => 1
  | _ => 0

/-- The ticks since `ticks0`. -/
def elapsed (ticks ticks0 : BitVec 32) : ℕ := (ticks - ticks0).toNat

/-- What holds of a process: the locks it has, what it sleeps on, and the ticks left of a first sleep. -/
structure SleeperOk (ticks : BitVec 32) (timer : TimerPc) (tickslock table : Option (Holder τ)) (t : τ)
    (p : Sleeper) : Prop where
  ticking : p.pc.ticking = true → tickslock = some (.process t)
  tabled : p.holdsTable → table = some (.process t)
  preempted : p.preempted = true → p.pc.preemptible = true
  asleep : p.state = .sleeping → (p.pc = .blocked ∧ p.chan ≠ .ticks) ∨
    (∃ n ticks0 again, p.pc = .asleep n ticks0 again) ∧ p.chan = .ticks
  timed : ∀ n ticks0, p.pc.first = some (n, ticks0) → 0 < n → n < 2 ^ 31 → (p.pc.away = true → p.state = .sleeping) →
    0 ≤ p.sleepticks ∧ p.sleepticks + elapsed ticks ticks0 = n + timer.pending

/-- What holds between any two steps. -/
structure ClockInv (s : Clock τ) : Prop where
  timer : s.timer ≠ .idle → s.tickslock = some .timer
  table : s.timer = .tabled ∨ s.timer = .notified → s.table = some .timer
  procs : ∀ t, SleeperOk s.ticks s.timer s.tickslock s.table t (s.proc t)

theorem ClockInv.initial (ticks : BitVec 32) : ClockInv (Clock.initial τ ticks) where
  timer := by simp [Clock.initial]
  table := by simp [Clock.initial]
  procs t := ⟨nofun, by simp [Clock.initial, Sleeper.holdsTable, SleepPc.tabled], fun _ => rfl, nofun, nofun⟩

section Sleeper

variable {ticks : BitVec 32} {timer : TimerPc} {tickslock table : Option (Holder τ)} {t : τ} {p : Sleeper}

/-- A process that is made runnable goes on waiting for a processor. -/
theorem SleeperOk.wake (ok : SleeperOk ticks timer tickslock table t p) (killed : Bool) :
    SleeperOk ticks timer tickslock table t
      { p with killed := killed, state := if p.state = .sleeping then .runnable else p.state } := by
  refine ⟨ok.ticking, ?_, ok.preempted, ?_, ?_⟩
  · rintro (tabled | ⟨running, back⟩)
    · exact ok.tabled (.inl tabled)
    · dsimp only at running back
      split_ifs at running
      exact ok.tabled (.inr ⟨running, back⟩)
  · intro asleep
    dsimp only at asleep
    split_ifs at asleep with slept
    exact (slept asleep).elim
  · intro n ticks0 first positive small slept
    refine ok.timed n ticks0 first positive small fun away => ?_
    have still := slept away
    dsimp only at still
    split_ifs at still
    exact still

/-- A running process at a point where it has been for some time. -/
theorem SleeperOk.goto (running : p.state = .running) (calm : p.preempted = false) (here : p.pc.away = false)
    (ticking : p.pc.ticking = true → tickslock = some (.process t))
    (tabled : p.pc.tabled = true → table = some (.process t))
    (timed : ∀ n ticks0, p.pc.first = some (n, ticks0) → 0 < n → n < 2 ^ 31 →
      0 ≤ p.sleepticks ∧ p.sleepticks + elapsed ticks ticks0 = n + timer.pending) :
    SleeperOk ticks timer tickslock table t p := by
  refine ⟨ticking, ?_, ?_, ?_, fun n ticks0 first positive small _ => timed n ticks0 first positive small⟩
  · rintro (inside | ⟨_, preempted | away⟩)
    · exact tabled inside
    · rw [calm] at preempted
      cases preempted
    · rw [here] at away
      cases away
  · intro preempted
    rw [calm] at preempted
    cases preempted
  · intro asleep
    rw [running] at asleep
    cases asleep

end Sleeper

variable [DecidableEq τ] {s s' : Clock τ} {t : τ}

/-- A process changes, and takes or gives back locks that nobody else has. -/
theorem ClockInv.change (inv : ClockInv s) {p : Sleeper} {tickslock table : Option (Holder τ)}
    (ticksFree : tickslock = s.tickslock ∨ s.tickslock = none ∨ s.tickslock = some (.process t))
    (tableFree : table = s.table ∨ s.table = none ∨ s.table = some .scheduler ∨ s.table = some (.process t))
    (ok : SleeperOk s.ticks s.timer tickslock table t p) :
    ClockInv { s.setProc t p with tickslock := tickslock, table := table } := by
  refine ⟨?_, ?_, ?_⟩
  · intro busy
    have held := inv.timer busy
    rcases ticksFree with same | free | own
    · exact same.trans held
    · simp [free] at held
    · simp [own] at held
  · intro at_table
    have held := inv.table at_table
    rcases tableFree with same | free | scheduler | own
    · exact same.trans held
    · simp [free] at held
    · simp [scheduler] at held
    · simp [own] at held
  · intro u
    dsimp only
    by_cases own : u = t
    · subst own
      rw [Clock.setProc_self]
      exact ok
    · rw [Clock.setProc_of_ne _ _ own]
      have theirs := inv.procs u
      refine ⟨?_, ?_, theirs.preempted, theirs.asleep, theirs.timed⟩
      · intro ticking
        have held := theirs.ticking ticking
        rcases ticksFree with same | free | mine
        · exact same.trans held
        · simp [free] at held
        · simp [mine, Ne.symm own] at held
      · intro holds
        have held := theirs.tabled holds
        rcases tableFree with same | free | scheduler | mine
        · exact same.trans held
        · simp [free] at held
        · simp [scheduler] at held
        · simp [mine, Ne.symm own] at held

omit [DecidableEq τ] in
/-- The clock stands still for a process that has its lock. -/
private theorem ClockInv.timer_idle (inv : ClockInv s) (held : s.tickslock = some (.process t)) : s.timer = .idle := by
  by_contra busy
  have timer := inv.timer busy
  rw [held] at timer
  simp at timer

theorem ClockInv.instruction (inv : ClockInv s) (step : s.instruction t = some s') : ClockInv s' := by
  obtain ⟨ticking, tabled, preemptible, asleep, timed⟩ := inv.procs t
  simp only [Clock.instruction] at step
  split_ifs at step with halted preempted
  · cases step
    have running := not_not.mp halted
    have held := tabled (.inr ⟨running, .inl preempted⟩)
    obtain ⟨here, unlocked, untabled, nowhere⟩ := SleepPc.of_preemptible (preemptible preempted)
    exact inv.change (.inl rfl) (.inr (.inr (.inr held))) (.goto running rfl here (by simp [unlocked])
      (by simp [untabled]) (by simp [nowhere]))
  have running := not_not.mp halted
  rw [Clock.callStep] at step
  have calm := Bool.eq_false_of_not_eq_true preempted
  cases pc : (s.proc t).pc <;> rw [pc] at step ticking timed <;> dsimp only at step
  case user => cases step
  case blocked | yielded =>
    cases step
    have held := tabled (.inr ⟨running, .inr (by rw [pc]; rfl)⟩)
    exact inv.change (.inl rfl) (.inr (.inr (.inr held))) (.goto running calm rfl nofun nofun nofun)
  case lock n =>
    split_ifs at step with free
    cases step
    exact inv.change (.inr (.inl free)) (.inl rfl) (.goto running calm rfl (fun _ => rfl) nofun nofun)
  case start n =>
    cases step
    have held := ticking rfl
    refine inv.change (.inl rfl) (.inl rfl) (.goto running calm rfl (fun _ => held) nofun ?_)
    rintro m ticks0 ⟨⟩ positive small
    rw [inv.timer_idle held]
    simp [elapsed, TimerPc.pending, positive.le]
  case test n ticks0 again =>
    have held := ticking rfl
    split_ifs at step <;> cases step
    · exact inv.change (.inl rfl) (.inl rfl) (.goto running calm rfl (fun _ => held) nofun nofun)
    · refine inv.change (.inl rfl) (.inl rfl) (.goto running calm rfl (fun _ => held) nofun ?_)
      intro m ticks1 first positive small
      refine timed m ticks1 ?_ positive small nofun
      cases again <;> exact first
    · exact inv.change (.inl rfl) (.inl rfl) (.goto running calm rfl (fun _ => held) nofun nofun)
  case table n ticks0 again =>
    have held := ticking rfl
    split_ifs at step with free
    cases step
    refine inv.change (.inl rfl) (.inr (.inl free)) (.goto running calm rfl (fun _ => held) (fun _ => rfl) ?_)
    intro m ticks1 first positive small
    refine timed m ticks1 ?_ positive small nofun
    cases again <;> exact first
  case unlock n ticks0 again =>
    cases step
    have held := tabled (.inl (by rw [pc]; rfl))
    refine inv.change (.inr (.inr (ticking rfl))) (.inl rfl) (.goto running calm rfl nofun (fun _ => held) ?_)
    intro m ticks1 first positive small
    refine timed m ticks1 ?_ positive small nofun
    cases again <;> exact first
  case sched n ticks0 again =>
    cases step
    have held := tabled (.inl (by rw [pc]; rfl))
    refine inv.change (.inl rfl) (.inr (.inr (.inr held))) ⟨nofun, ?_, ?_,
      fun _ => .inr ⟨⟨n, ticks0, again, rfl⟩, rfl⟩, ?_⟩
    · rintro (inside | ⟨halted, _⟩)
      · cases inside
      · cases halted
    · intro preempted
      rw [calm] at preempted
      cases preempted
    · intro m ticks1 first positive small _
      refine timed m ticks1 ?_ positive small nofun
      cases again <;> exact first
  case asleep n ticks0 again =>
    cases step
    have held := tabled (.inr ⟨running, .inr (by rw [pc]; rfl)⟩)
    exact inv.change (.inl rfl) (.inr (.inr (.inr held))) (.goto running calm rfl nofun nofun nofun)
  case relock n ticks0 =>
    split_ifs at step with free
    cases step
    exact inv.change (.inr (.inl free)) (.inl rfl) (.goto running calm rfl (fun _ => rfl) nofun nofun)
  case done | fail =>
    cases step
    exact inv.change (.inr (.inr (ticking rfl))) (.inl rfl) (.goto running calm rfl nofun nofun nofun)

private theorem elapsed_succ {ticks ticks0 : BitVec 32} (small : elapsed ticks ticks0 < 2 ^ 31) :
    elapsed (ticks + 1) ticks0 = elapsed ticks ticks0 + 1 := by
  unfold elapsed at small ⊢
  bv_omega

omit [DecidableEq τ] in
/-- A pass over the table takes one tick off every sleeper, or wakes it up. -/
private theorem Sleeper.notify_ok {t : τ} {p : Sleeper} {ticks : BitVec 32}
    (ok : SleeperOk ticks .tabled (some .timer) (some .timer) t p) :
    SleeperOk ticks .notified (some .timer) (some .timer) t p.notify := by
  obtain ⟨ticking, tabled, preempted, asleep, timed⟩ := ok
  have away {n : ℤ} {ticks0 : BitVec 32} (first : p.pc.first = some (n, ticks0)) : p.pc.away = true := by
    apply SleepPc.away_of_first first
    · exact Bool.eq_false_of_not_eq_true fun inside => by simpa using ticking inside
    · exact Bool.eq_false_of_not_eq_true fun inside => by simpa using tabled (.inl inside)
  unfold Sleeper.notify
  split_ifs with sleeps due
  · refine ⟨ticking, ?_, preempted, nofun, ?_⟩
    · rintro (inside | ⟨halted, _⟩)
      · exact tabled (.inl inside)
      · cases halted
    · intro n ticks0 first _ _ asleep
      cases asleep (away first)
  · refine ⟨ticking, tabled, preempted, asleep, ?_⟩
    intro n ticks0 first positive small _
    obtain ⟨nonneg, left⟩ := timed n ticks0 first positive small fun _ => sleeps.1
    simp only [TimerPc.pending] at left ⊢
    rw [int32_eq (by omega) (by omega)]
    omega
  · refine ⟨ticking, tabled, preempted, asleep, ?_⟩
    intro n ticks0 first _ _ still
    have sleeping := still (away first)
    rcases asleep sleeping with ⟨blocked, _⟩ | ⟨_, chan⟩
    · rw [blocked] at first
      cases first
    · exact (sleeps ⟨sleeping, chan⟩).elim

omit [DecidableEq τ] in
private theorem ClockInv.timerStep (inv : ClockInv s) (step : s.timerStep = some s') : ClockInv s' := by
  cases at_timer : s.timer <;> simp only [Clock.timerStep, at_timer, Option.some.injEq] at step
  case idle =>
    split_ifs at step with free
    cases step
    refine ⟨fun _ => rfl, by simp, fun t => ?_⟩
    have ok := inv.procs t
    rw [free, at_timer] at ok
    exact ⟨fun ticking => by simpa using ok.ticking ticking, ok.tabled, ok.preempted, ok.asleep, ok.timed⟩
  case locked =>
    subst step
    have held := inv.timer (by rw [at_timer]; nofun)
    refine ⟨fun _ => held, by simp, fun t => ?_⟩
    have ok := inv.procs t
    rw [at_timer] at ok
    refine ⟨ok.ticking, ok.tabled, ok.preempted, ok.asleep, ?_⟩
    intro n ticks0 first positive small asleep
    obtain ⟨nonneg, left⟩ := ok.timed n ticks0 first positive small asleep
    simp only [TimerPc.pending] at left ⊢
    rw [elapsed_succ (by omega)]
    omega
  case counted =>
    split_ifs at step with free
    cases step
    have held := inv.timer (by rw [at_timer]; nofun)
    refine ⟨fun _ => held, fun _ => rfl, fun t => ?_⟩
    have ok := inv.procs t
    rw [free, at_timer] at ok
    exact ⟨ok.ticking, fun holds => by simpa using ok.tabled holds, ok.preempted, ok.asleep, ok.timed⟩
  case tabled =>
    subst step
    have held := inv.timer (by rw [at_timer]; nofun)
    have table := inv.table (.inl at_timer)
    refine ⟨fun _ => held, fun _ => table, fun t => ?_⟩
    have ok := inv.procs t
    rw [held, table, at_timer] at ok
    dsimp only
    rw [held, table]
    exact Sleeper.notify_ok ok
  case notified =>
    subst step
    have held := inv.timer (by rw [at_timer]; nofun)
    have table := inv.table (.inr at_timer)
    refine ⟨fun _ => held, by simp, fun t => ?_⟩
    have ok := inv.procs t
    rw [table, at_timer] at ok
    exact ⟨ok.ticking, fun holds => by simpa using ok.tabled holds, ok.preempted, ok.asleep, ok.timed⟩
  case released =>
    subst step
    have held := inv.timer (by rw [at_timer]; nofun)
    refine ⟨by simp, by simp, fun t => ?_⟩
    have ok := inv.procs t
    rw [held, at_timer] at ok
    exact ⟨fun ticking => by simpa using ok.ticking ticking, ok.tabled, ok.preempted, ok.asleep, ok.timed⟩

omit [DecidableEq τ] in
/-- A scheduler takes or gives back `ptable.lock`. -/
theorem ClockInv.setTable (inv : ClockInv s) (free : s.table = none ∨ s.table = some .scheduler)
    (table : Option (Holder τ)) : ClockInv { s with table := table } := by
  refine ⟨inv.timer, ?_, fun t => ?_⟩
  · intro at_table
    have held := inv.table at_table
    rcases free with none | scheduler
    · simp [none] at held
    · simp [scheduler] at held
  · have ok := inv.procs t
    refine ⟨ok.ticking, ?_, ok.preempted, ok.asleep, ok.timed⟩
    intro holds
    have held := ok.tabled holds
    rcases free with none | scheduler
    · simp [none] at held
    · simp [scheduler] at held

theorem ClockInv.step {a : ClockAction τ} (inv : ClockInv s) (step : s.step a = some s') : ClockInv s' := by
  have ok (t : τ) := inv.procs t
  cases a <;> simp only [Clock.step] at step
  case sleep t n =>
    split_ifs at step with user zero free <;> cases step
    · refine inv.change (.inl rfl) (.inr (.inl free)) ⟨nofun, ?_, ?_, nofun, nofun⟩
      · rintro (inside | ⟨halted, _⟩)
        · cases inside
        · cases halted
      · intro preempted
        simp [user.2.1] at preempted
    · exact inv.change (.inl rfl) (.inl rfl) (.goto user.1 user.2.1 rfl nofun nofun nofun)
  case instruction t => exact inv.instruction step
  case yield t =>
    split_ifs at step with may
    cases step
    obtain ⟨here, unlocked, untabled, nowhere⟩ := SleepPc.of_preemptible may.2.2.1
    refine inv.change (.inl rfl) (.inr (.inl may.2.2.2)) ⟨?_, ?_, fun _ => may.2.2.1, nofun, ?_⟩
    · simp [unlocked]
    · rintro (inside | ⟨halted, _⟩)
      · simp [untabled] at inside
      · cases halted
    · simp [nowhere]
  case block t chan =>
    split_ifs at step with may
    cases step
    refine inv.change (.inl rfl) (.inr (.inl may.2)) ⟨nofun, ?_, ?_, fun _ => .inl ⟨rfl, nofun⟩, nofun⟩
    · rintro (inside | ⟨halted, _⟩)
      · cases inside
      · cases halted
    · intro preempted
      simp [may.1.2.1] at preempted
  case wakeup chan =>
    split_ifs at step
    cases step
    refine ⟨inv.timer, inv.table, fun t => ?_⟩
    simp only [Clock.wakeup1]
    split_ifs with sleeps
    · have woken := (ok t).wake (s.proc t).killed
      rwa [if_pos sleeps.1] at woken
    · exact ok t
  case kill t =>
    simp only [Option.ite_none_right_eq_some, Option.some.injEq] at step
    obtain ⟨_, rfl⟩ := step
    exact inv.change (.inl rfl) (.inl rfl) ((ok t).wake true)
  case timer => exact inv.timerStep step
  case schedAcquire =>
    split_ifs at step with free
    cases step
    exact inv.setTable (.inl free) _
  case schedRelease =>
    split_ifs at step with held
    cases step
    exact inv.setTable (.inr held) _
  case dispatch t =>
    split_ifs at step with may
    cases step
    obtain ⟨ticking, _, preempted, _, timed⟩ := ok t
    refine inv.change (.inl rfl) (.inr (.inr (.inl may.1))) ⟨ticking, fun _ => rfl, preempted, nofun, ?_⟩
    intro n ticks0 first positive small asleep
    refine timed n ticks0 first positive small fun away => ?_
    cases asleep away

theorem ClockInv.of_reachable (reached : (clockMachine τ).Reachable s) : ClockInv s := by
  apply reached.invariant
  · rintro s ⟨ticks, rfl⟩
    exact .initial ticks
  · intro s a t step inv
    exact inv.step step

/-- The process is asleep in `sys_sleep`, for the first time since it read the clock. -/
def Clock.Sleeps (s : Clock τ) (t : τ) (n : ℤ) (ticks0 : BitVec 32) : Prop :=
  (s.proc t).state = .sleeping ∧ (s.proc t).pc = .asleep n ticks0 false

omit [DecidableEq τ] in
/-- The ticks left, and those that have passed. -/
theorem ClockInv.left (inv : ClockInv s) {n : ℤ} {ticks0 : BitVec 32} (sleeps : s.Sleeps t n ticks0)
    (positive : 0 < n) (small : n < 2 ^ 31) : (s.proc t).chan = .ticks ∧ 0 ≤ (s.proc t).sleepticks ∧
      (s.proc t).sleepticks + elapsed s.ticks ticks0 = n + s.timer.pending := by
  have ok := inv.procs t
  refine ⟨?_, ok.timed n ticks0 (by rw [sleeps.2]; rfl) positive small fun _ => sleeps.1⟩
  rcases ok.asleep sleeps.1 with ⟨blocked, _⟩ | ⟨_, chan⟩
  · rw [sleeps.2] at blocked
    cases blocked
  · exact chan

/-- An instruction is one of a running process, and changes no other. -/
private theorem instruction_others {u : τ} (step : s.instruction u = some s') :
    (s.proc u).state = .running ∧ ∀ t, t ≠ u → s'.proc t = s.proc t := by
  simp only [Clock.instruction] at step
  split_ifs at step with halted preempted
  · cases step
    exact ⟨not_not.mp halted, fun t apart => Clock.setProc_of_ne _ _ apart⟩
  · refine ⟨not_not.mp halted, fun t apart => ?_⟩
    rw [Clock.callStep] at step
    cases pc : (s.proc u).pc <;> rw [pc] at step <;> dsimp only at step <;> (try split_ifs at step) <;> cases step <;>
      exact Clock.setProc_of_ne _ _ apart

/-- What ends a first sleep: a kill, or the pass over the table one tick after the `n`-th. -/
theorem ClockInv.woken (inv : ClockInv s) {n : ℤ} {ticks0 : BitVec 32} (sleeps : s.Sleeps t n ticks0)
    (positive : 0 < n) (small : n < 2 ^ 31) {a : ClockAction τ} (step : s.step a = some s') (alive : a ≠ .kill t) :
    (a = .timer ∧ s.timer = .tabled ∧ elapsed s.ticks ticks0 = n + 1 ∧ (s'.proc t).state = .runnable) ∨
      s'.Sleeps t n ticks0 ∧ (a = .timer → s.timer = .tabled → elapsed s.ticks ticks0 ≤ n) := by
  have apart {u : τ} (awake : (s.proc u).state = .running) : t ≠ u := by
    rintro rfl
    rw [sleeps.1] at awake
    cases awake
  have frame (same : s'.proc t = s.proc t) : s'.Sleeps t n ticks0 := by
    rw [Clock.Sleeps, same]
    exact sleeps
  cases a <;> simp only [Clock.step] at step
  case sleep u m =>
    split_ifs at step with user zero free <;> cases step
    · exact .inr ⟨frame (Clock.setProc_of_ne _ _ (apart user.1)), nofun⟩
    · exact .inr ⟨frame (Clock.setProc_of_ne _ _ (apart user.1)), nofun⟩
  case instruction u =>
    obtain ⟨running, others⟩ := instruction_others step
    exact .inr ⟨frame (others t (apart running)), nofun⟩
  case yield u =>
    split_ifs at step with may
    cases step
    exact .inr ⟨frame (Clock.setProc_of_ne _ _ (apart may.1)), nofun⟩
  case block u chan =>
    split_ifs at step with may
    cases step
    exact .inr ⟨frame (Clock.setProc_of_ne _ _ (apart may.1.1)), nofun⟩
  case wakeup chan =>
    split_ifs at step
    cases step
    refine .inr ⟨frame ?_, nofun⟩
    have waits := (inv.left sleeps positive small).1
    simp [Clock.wakeup1, waits]
  case kill u =>
    simp only [Option.ite_none_right_eq_some, Option.some.injEq] at step
    obtain ⟨_, rfl⟩ := step
    have apart : t ≠ u := by
      rintro rfl
      exact alive rfl
    exact .inr ⟨frame (Clock.setProc_of_ne _ _ apart), nofun⟩
  case timer =>
    obtain ⟨chan, nonneg, left⟩ := inv.left sleeps positive small
    cases at_timer : s.timer <;> simp only [Clock.timerStep, at_timer, Option.some.injEq] at step
    case tabled =>
      subst step
      simp only [at_timer, TimerPc.pending] at left
      by_cases due : (s.proc t).sleepticks = 0
      · refine .inl ⟨rfl, rfl, by omega, ?_⟩
        simp [Sleeper.notify, sleeps.1, chan, due]
      · refine .inr ⟨?_, fun _ _ => by omega⟩
        constructor
        · simp [Sleeper.notify, sleeps.1, chan, due]
        · simp [Sleeper.notify, sleeps.1, chan, due, sleeps.2]
    case idle | counted =>
      split_ifs at step
      cases step
      exact .inr ⟨frame rfl, fun _ => nofun⟩
    case locked | notified | released =>
      subst step
      exact .inr ⟨frame rfl, fun _ => nofun⟩
  case schedAcquire | schedRelease =>
    split_ifs at step
    cases step
    exact .inr ⟨frame rfl, nofun⟩
  case dispatch u =>
    split_ifs at step with may
    cases step
    have apart : t ≠ u := by
      rintro rfl
      simp [sleeps.1] at may
    exact .inr ⟨frame (Clock.setProc_of_ne _ _ apart), nofun⟩

/-- What `sys_sleep(n)` is for, on a clock that starts at `ticks`: every process that has gone to sleep in it
and is not killed sleeps on until the pass over the table at the `n`-th tick, which makes it runnable. -/
def SleepsExactly (τ : Type) [DecidableEq τ] (n : ℤ) (ticks : BitVec 32) : Prop :=
  ∀ acts s, (clockMachine τ).Path (fun _ _ => True) (.initial τ ticks) acts s → ∀ t ticks0, s.Sleeps t n ticks0 →
    ∀ a s', a ≠ .kill t → s.step a = some s' →
      (a = .timer ∧ s.timer = .tabled ∧ elapsed s.ticks ticks0 = n → (s'.proc t).state = .runnable) ∧
      (¬ (a = .timer ∧ s.timer = .tabled ∧ elapsed s.ticks ticks0 = n) → s'.Sleeps t n ticks0)

/-- No lock is taken, and no tick is under way. -/
structure Clock.Idle (s : Clock τ) : Prop where
  timer : s.timer = .idle
  tickslock : s.tickslock = none
  table : s.table = none

/-- The first process that gets the processor goes to sleep. -/
private theorem falls_asleep (t : τ) {n : ℤ} (positive : 0 < n) (small : n < 2 ^ 31) (ticks : BitVec 32) :
    (clockMachine τ).run (.initial τ ticks) [.schedAcquire, .dispatch t, .instruction t, .sleep t n, .instruction t,
      .instruction t, .instruction t, .instruction t, .instruction t, .instruction t, .schedRelease] =
      some ((Clock.initial τ ticks).setProc t ⟨.sleeping, .ticks, n, false, .asleep n ticks false, false, none⟩) := by
  have wide : 0 < uint32 n := by
    unfold uint32
    omega
  simp [Machine.run, clockMachine, Clock.step, Clock.instruction, Clock.callStep, Clock.inUser, Clock.initial,
    Clock.setProc, positive.ne', wide, -BitVec.toNat_sub]

/-- A tick up to the pass over the table. -/
theorem counted (idle : s.Idle) : (clockMachine τ).run s (List.replicate 3 .timer) =
    some { s with ticks := s.ticks + 1, tickslock := some .timer, table := some .timer, timer := .tabled } := by
  obtain ⟨proc, ticks, _, _, _⟩ := s
  obtain ⟨rfl, rfl, rfl⟩ := idle
  rfl

/-- A whole tick. -/
private theorem ticked (idle : s.Idle) : (clockMachine τ).run s (List.replicate 6 .timer) =
    some { s with proc := fun t => (s.proc t).notify, ticks := s.ticks + 1 } := by
  obtain ⟨proc, ticks, _, _, _⟩ := s
  obtain ⟨rfl, rfl, rfl⟩ := idle
  rfl

omit [DecidableEq τ] in
/-- While ticks are left, the process sleeps through a tick. -/
theorem Clock.Sleeps.notify {n : ℤ} {ticks0 : BitVec 32} (sleeps : s.Sleeps t n ticks0)
    (left : (s.proc t).sleepticks ≠ 0) :
    (s.proc t).notify.state = .sleeping ∧ (s.proc t).notify.pc = .asleep n ticks0 false := by
  obtain ⟨state, pc⟩ := sleeps
  unfold Sleeper.notify
  split_ifs
  · exact ⟨state, pc⟩
  · exact ⟨state, pc⟩

/-- For every number of ticks below `n` there is a run with that many ticks in which the process still sleeps. -/
private theorem sleeps_below (t : τ) {n : ℤ} (positive : 0 < n) (small : n < 2 ^ 31) (ticks : BitVec 32) (k : ℕ)
    (below : k < n) : ∃ acts s, (clockMachine τ).Path (fun _ _ => True) (.initial τ ticks) acts s ∧ s.Idle ∧
      s.Sleeps t n ticks ∧ elapsed s.ticks ticks = k := by
  induction k with
  | zero =>
    refine ⟨_, _, Machine.path_of_run (falls_asleep t positive small ticks), ⟨rfl, rfl, rfl⟩, ?_, ?_⟩
    · simp [Clock.Sleeps]
    · simp [elapsed, Clock.initial, Clock.setProc]
  | succ k ih =>
    obtain ⟨acts, s, path, idle, sleeps, passed⟩ := ih (by push_cast at below; omega)
    have inv := ClockInv.of_reachable ⟨_, acts, ⟨ticks, rfl⟩, path⟩
    obtain ⟨_, _, left⟩ := inv.left sleeps positive small
    rw [idle.timer, passed] at left
    simp only [TimerPc.pending] at left
    refine ⟨_, _, path.append (Machine.path_of_run (ticked idle)), ⟨idle.timer, idle.tickslock, idle.table⟩, ?_, ?_⟩
    · exact sleeps.notify (by push_cast at below; omega)
    · rw [elapsed_succ (by push_cast at below; omega), passed]

/-- For every `n`, every time on the clock and any number of processes, `sys_sleep(n)` does not wake up its
caller at the `n`-th tick; in every run the tick after it does. -/
theorem sleeps_one_tick_more (t : τ) {n : ℤ} (positive : 0 < n) (small : n < 2 ^ 31) :
    (∀ ticks, ¬ SleepsExactly τ n ticks) ∧
    ∀ s, (clockMachine τ).Reachable s → ∀ t ticks0, s.Sleeps t n ticks0 → ∀ a s', a ≠ .kill t → s.step a = some s' →
      (a = .timer ∧ s.timer = .tabled ∧ elapsed s.ticks ticks0 = n + 1 → (s'.proc t).state = .runnable) ∧
      (¬ (a = .timer ∧ s.timer = .tabled ∧ elapsed s.ticks ticks0 = n + 1) → s'.Sleeps t n ticks0) := by
  have woken {s s' : Clock τ} (reached : (clockMachine τ).Reachable s) {t : τ} {ticks0 : BitVec 32}
      (sleeps : s.Sleeps t n ticks0) {a : ClockAction τ} (alive : a ≠ .kill t) (step : s.step a = some s') :=
    (ClockInv.of_reachable reached).woken sleeps positive small step alive
  refine ⟨fun ticks exact => ?_, fun s reached t ticks0 sleeps a s' alive step => ?_⟩
  · obtain ⟨acts, s, path, idle, sleeps, passed⟩ := sleeps_below t positive small ticks (n - 1).toNat (by omega)
    have inv := ClockInv.of_reachable ⟨_, acts, ⟨ticks, rfl⟩, path⟩
    obtain ⟨_, _, left⟩ := inv.left sleeps positive small
    rw [idle.timer, passed] at left
    simp only [TimerPc.pending] at left
    have tick := path.append (Machine.path_of_run (counted idle))
    have last : elapsed (s.ticks + 1) ticks = n.toNat := by
      rw [elapsed_succ (by omega), passed]
      omega
    have woken := (exact _ _ tick t ticks sleeps .timer _ nofun rfl).1 ⟨rfl, rfl, by dsimp only; omega⟩
    have sleeping := (sleeps.notify (by omega)).1
    rw [sleeping] at woken
    cases woken
  · rcases woken reached sleeps alive step with ⟨timer, tabled, late, runnable⟩ | ⟨still, early⟩
    · exact ⟨fun _ => runnable, fun other => (other ⟨timer, tabled, late⟩).elim⟩
    · refine ⟨?_, fun _ => still⟩
      rintro ⟨timer, tabled, late⟩
      have := early timer tabled
      omega

end Timing

theorem sleeps_one_tick_more_three : ¬ SleepsExactly (Fin 2) 3 7 :=
  (sleeps_one_tick_more (0 : Fin 2) (by omega) (by omega)).1 7

/-- One tick after `sys_sleep(1)`, on a clock that wraps, the caller still sleeps. -/
theorem sleep_one_late : ¬ SleepsExactly (Fin 2) 1 0xffffffff#32 := by
  intro exact
  have ran : ((clockMachine (Fin 2)).run (.initial (Fin 2) 0xffffffff#32)
      ([.schedAcquire, .dispatch 0, .instruction 0, .sleep 0 1] ++ List.replicate 6 (.instruction 0) ++
        [.schedRelease, .timer, .timer, .timer])).map
      (fun s => ((s.proc 0).state, (s.proc 0).pc, s.timer, s.ticks, (s.step .timer).map fun s' => (s'.proc 0).state)) =
      some (.sleeping, .asleep 1 0xffffffff#32 false, .tabled, 0#32, some .sleeping) := by decide +kernel
  obtain ⟨s, run, seen⟩ := Option.map_eq_some_iff.mp ran
  simp only [Prod.mk.injEq, Option.map_eq_some_iff] at seen
  obtain ⟨state, pc, tabled, ticks, s', step, asleep⟩ := seen
  have passed : (elapsed s.ticks 0xffffffff#32 : ℤ) = 1 := by
    rw [ticks]
    rfl
  have woken := (exact _ s (Machine.path_of_run run) 0 _ ⟨state, pc⟩ .timer s' nofun step).1 ⟨rfl, tabled, passed⟩
  rw [asleep] at woken
  cases woken

end Cs537.Xv6
