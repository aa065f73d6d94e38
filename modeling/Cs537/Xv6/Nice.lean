import Cs537.Xv6.SchedulerSafety

/-! # `sys_nice`

The sum is a 32-bit integer, formed before the clamp. The nice value of a process is in range at all
times, so the two commute up to the point where the sum itself wraps, and there the result is the other
end of the range. A process calls `nice` while it runs, hence it waits for nothing and is nobody's waiter:
the elevated values of the others stay.
-/

namespace Cs537.Xv6

open Lib

variable {χ κ : Type} [DecidableEq χ] [Zero χ] [DecidableEq κ] {s s' : Sched χ κ}

/-- The values a nice value may take. -/
def InNiceRange (nice : ℤ) : Prop := -20 ≤ nice ∧ nice ≤ 19

/-- The process `p` has a smaller elevated value than `q` in `findminnice`. -/
def Preferred (procs : Procs χ) (p q : Fin nproc) : Prop := elevate procs p < elevate procs q

/-- What a call of `nice` with an increment is for. -/
structure NiceAdded (procs procs' : Procs χ) (p : Fin nproc) (inc : ℤ) : Prop where
  clamped : (procs' p).nice = max (-20) (min 19 ((procs p).nice + inc))
  kept : 0 ≤ inc → (procs p).nice ≤ (procs' p).nice
  order : 0 ≤ inc → ∀ q, Preferred procs' p q → Preferred procs p q

/-- The sum of the call is one of the values of an `int`. -/
def SumFits (inc nice : ℤ) : Prop := -2 ^ 31 ≤ nice + inc ∧ nice + inc < 2 ^ 31

private theorem clampNice_range (inc nice : ℤ) : InNiceRange (clampNice inc nice) := by
  simp only [clampNice, InNiceRange]
  split_ifs <;> omega

/-- Adding and clamping commute with the wrap of the sum exactly where there is none. -/
private theorem clampNice_eq_iff {inc nice : ℤ} (low : -2 ^ 31 ≤ inc) (high : inc < 2 ^ 31) (range : InNiceRange nice) :
    clampNice inc nice = max (-20) (min 19 (nice + inc)) ↔ SumFits inc nice := by
  obtain ⟨above, below⟩ := range
  constructor
  · intro same
    by_contra wraps
    obtain ⟨q, wrapped, inside⟩ := int32_wrap (inc + nice)
    have bottom := int32_ge (inc + nice)
    unfold SumFits at wraps
    simp only [clampNice, wrapped] at same
    split_ifs at same <;> omega
  · rintro ⟨fits, fits'⟩
    rw [clampNice, int32_eq (by omega) (by omega)]
    split_ifs <;> omega

/-- What a step does to a nice value. -/
private theorem Sched.step_nice {channels : Channels χ} {a : SchedAction χ κ} (step : s.step channels a = some s')
    (p : Fin nproc) : (s'.proc p).nice = (s.proc p).nice ∨ (s'.proc p).nice = 0 ∨
      ∃ c inc, a = .nice c inc ∧ s.cpu c = .run p ∧ (s'.proc p).nice = clampNice inc (s.proc p).nice := by
  have update {procs : Procs χ} {q : Fin nproc} {value : Proc χ} (nice : value.nice = (procs q).nice) :
      (Function.update procs q value p).nice = (procs p).nice := by
    by_cases eq : p = q
    · subst eq
      rw [Function.update_self, nice]
    · rw [Function.update_of_ne eq]
  cases a <;> simp only [Sched.step] at step
  case scheduler c =>
    left
    cases mode : s.cpu c <;> simp only [Sched.schedulerStep, mode, reduceCtorEq] at step
    case idle =>
      split_ifs at step
      cases step
      rfl
    case find i =>
      have calm := calm_findminnice s.proc
      generalize findminnice s.proc = found at step calm
      cases step
      exact (calm p).1
    case scan i minnice =>
      split_ifs at step <;> cases step
      · rfl
      · exact update rfl
      · rfl
  case acquire c | release c =>
    split_ifs at step
    cases step
    exact .inl rfl
  case wakeup c chan =>
    simp only [Sched.underLock, Option.ite_none_right_eq_some, Option.some.injEq] at step
    obtain ⟨_, rfl⟩ := step
    exact .inl (calm_wakeup1 s.proc chan p).1
  case notify c =>
    simp only [Sched.underLock, Option.ite_none_right_eq_some, Option.some.injEq] at step
    obtain ⟨_, rfl⟩ := step
    exact .inl (calm_sleepProcNotify s.proc channels.ticks p).1
  case kill c pid =>
    obtain ⟨q, _, _, step⟩ := Sched.inKernel_eq_some step
    cases step
    exact .inl (calm_kill s.proc pid p).1
  case allocproc c =>
    obtain ⟨q, _, _, step⟩ := Sched.inKernel_eq_some step
    cases step
    left
    simp only [Sched.allocproc]
    split
    · rfl
    · exact update rfl
  case exit c =>
    obtain ⟨q, _, _, step⟩ := Sched.inKernel_eq_some step
    split_ifs at step
    generalize gone : abandon (wakeup1 s.proc _) q Sched.initproc _ = procs at step
    cases step
    left
    have calm : Calm s.proc procs := gone ▸ (calm_wakeup1 _ _).trans (calm_abandon _ _ _ _)
    have gone : (Function.update procs q { procs q with state := .zombie } p).nice = (procs p).nice := update rfl
    exact gone.trans (calm p).1
  case nice c inc =>
    obtain ⟨q, run, step⟩ := Sched.inProcess_eq_some step
    cases step
    by_cases eq : p = q
    · subst eq
      exact .inr (.inr ⟨c, inc, rfl, run, by simp [Sched.setProc]⟩)
    · exact .inl (by simp [Sched.setProc, eq])
  case initProc c np =>
    obtain ⟨q, _, step⟩ := Sched.inProcess_eq_some step
    split_ifs at step
    cases step
    by_cases eq : p = np
    · subst eq
      exact .inr (.inl (by simp [Sched.setProc]))
    · exact .inl (by simp [Sched.setProc, eq])
  case setRunnable c np | reap c np =>
    obtain ⟨q, _, _, step⟩ := Sched.inKernel_eq_some step
    split_ifs at step
    cases step
    exact .inl (update rfl)
  case yield c | sleep c chan | clearChan c =>
    obtain ⟨q, _, _, step⟩ := Sched.inKernel_eq_some step
    cases step
    exact .inl (update rfl)
  case setLocks c value | setSleepticks c value =>
    obtain ⟨q, _, step⟩ := Sched.inProcess_eq_some step
    cases step
    exact .inl (update rfl)
  case setParent c np | freeProc c np =>
    obtain ⟨q, _, step⟩ := Sched.inProcess_eq_some step
    split_ifs at step
    cases step
    exact .inl (update rfl)

/-- Every nice value is in range in every state. -/
theorem nice_range_of_reachable {channels : Channels χ} (reached : (schedMachine χ κ channels).Reachable s)
    (p : Fin nproc) : InNiceRange (s.proc p).nice := by
  revert p
  apply reached.invariant
  · rintro s rfl p
    unfold InNiceRange
    simp [Sched.initial]
  · intro s a t step range p
    rcases Sched.step_nice step p with same | zero | ⟨_, inc, _, _, clamped⟩
    · rw [same]
      exact range p
    · rw [zero]
      exact ⟨by omega, by omega⟩
    · rw [clamped]
      exact clampNice_range inc _

omit [Zero χ] in
/-- A process that nobody waits for as a sleeper changes no elevated value but its own. -/
private theorem effectiveNice_setNice {procs : Procs χ} {p q : Fin nproc} {nice : ℤ} (awake : (procs p).state ≠ .sleeping)
    (apart : q ≠ p) :
    effectiveNice (Function.update procs p { procs p with nice := nice }) q = effectiveNice procs q := by
  apply eq_of_forall_le_iff
  intro x
  rw [le_effectiveNice_iff, le_effectiveNice_iff, Function.update_of_ne apart]
  apply and_congr_right
  intro _
  apply forall_congr'
  intro r
  by_cases mine : r = p
  · subst mine
    simp [Waits, awake]
  · simp [Waits, Function.update_of_ne mine, Function.update_of_ne apart]

omit [Zero χ] in
private theorem effectiveNice_setNice_le {procs : Procs χ} {p : Fin nproc} {nice : ℤ} (awake : (procs p).state ≠ .sleeping)
    (raised : (procs p).nice ≤ nice) :
    effectiveNice procs p ≤ effectiveNice (Function.update procs p { procs p with nice := nice }) p := by
  obtain ⟨own, waiters⟩ := (le_effectiveNice_iff procs p _).mp le_rfl
  rw [le_effectiveNice_iff]
  constructor
  · rw [Function.update_self]
    exact own.trans raised
  · rintro q ⟨asleep, member⟩
    by_cases mine : q = p
    · subst mine
      simp [awake] at asleep
    · rw [Function.update_of_ne mine] at asleep member ⊢
      rw [Function.update_self] at member
      exact waiters q ⟨asleep, member⟩

/-- In every reachable state of any number of processors, a call of `nice` with any 32-bit increment
adds, clamps and keeps the order of preference exactly where the sum does not wrap. -/
theorem nice_added_iff {channels : Channels χ} (reached : (schedMachine χ κ channels).Reachable s) {c : κ}
    {p : Fin nproc} {inc : ℤ} (low : -2 ^ 31 ≤ inc) (high : inc < 2 ^ 31) (run : s.cpu c = .run p)
    (step : s.step channels (.nice c inc) = some s') :
    NiceAdded s.proc s'.proc p inc ↔ SumFits inc (s.proc p).nice := by
  have range := nice_range_of_reachable reached p
  have running := (SchedInv.of_reachable reached).running c p run
  simp only [Sched.step, Sched.inProcess, run, Option.some.injEq] at step
  subst step
  have nice : ((s.setProc p { s.proc p with nice := clampNice inc (s.proc p).nice }).proc p).nice =
      clampNice inc (s.proc p).nice := by simp [Sched.setProc]
  rw [← clampNice_eq_iff low high range]
  constructor
  · intro added
    rw [← nice]
    exact added.clamped
  · intro clamped
    have raised : 0 ≤ inc → (s.proc p).nice ≤ clampNice inc (s.proc p).nice := by
      intro positive
      obtain ⟨_, below⟩ := range
      rw [clamped]
      omega
    refine ⟨nice.trans clamped, fun positive => (raised positive).trans_eq nice.symm, ?_⟩
    intro positive q preferred
    have awake : (s.proc p).state ≠ .sleeping := by
      rw [running]
      rintro ⟨⟩
    unfold Preferred at preferred ⊢
    rw [elevate_eq, elevate_eq] at preferred ⊢
    have apart : q ≠ p := by
      rintro rfl
      exact lt_irrefl _ preferred
    rw [Sched.setProc, effectiveNice_setNice awake apart] at preferred
    exact (effectiveNice_setNice_le awake (raised positive)).trans_lt preferred

/-- The init process of a machine with one processor has reached nice value 19, and calls `nice`. -/
private theorem nice_called (inc : ℤ) : ∃ s s' : Sched ℕ (Fin 1), (schedMachine ℕ (Fin 1) slotChannels).Reachable s ∧
    s.cpu 0 = .run Sched.initproc ∧ (s.proc Sched.initproc).nice = 19 ∧ s.step slotChannels (.nice 0 inc) = some s' ∧
    (s'.proc Sched.initproc).nice = clampNice inc 19 := by
  have ran : ((schedMachine ℕ (Fin 1) slotChannels).run (Sched.initial ℕ (Fin 1))
      [.scheduler 0, .scheduler 0, .scheduler 0, .release 0, .nice 0 19]).map
      (fun s => (s.cpu 0, (s.proc Sched.initproc).nice)) = some (.run Sched.initproc, 19) := by decide +kernel
  obtain ⟨s, run, at_mode⟩ := Option.map_eq_some_iff.mp ran
  obtain ⟨mode, nice⟩ := Prod.mk.inj at_mode
  have reached := (schedMachine ℕ (Fin 1) slotChannels).reachable_of_run rfl _ run
  refine ⟨s, s.setProc Sched.initproc { s.proc Sched.initproc with
    nice := clampNice inc (s.proc Sched.initproc).nice }, reached, mode, nice, ?_, ?_⟩
  · simp only [Sched.step, Sched.inProcess, mode]
  · simp [Sched.setProc, nice]

theorem nice_added_five : ∃ s s' : Sched ℕ (Fin 1), s.step slotChannels (.nice 0 5) = some s' ∧
    NiceAdded s.proc s'.proc Sched.initproc 5 := by
  obtain ⟨s, s', reached, run, nice, step, _⟩ := nice_called 5
  have fits : SumFits 5 (s.proc Sched.initproc).nice := by
    rw [nice]
    exact ⟨by omega, by omega⟩
  exact ⟨s, s', step, (nice_added_iff reached (by omega) (by omega) run step).mpr fits⟩

/-- A process of nice value 19 asks to go down and gets to the top. -/
theorem nice_wraps : ∃ s s' : Sched ℕ (Fin 1), (schedMachine ℕ (Fin 1) slotChannels).Reachable s ∧
    s.cpu 0 = .run Sched.initproc ∧ s.step slotChannels (.nice 0 2147483647) = some s' ∧
    (s.proc Sched.initproc).nice = 19 ∧ (s'.proc Sched.initproc).nice = -20 ∧
    ¬ NiceAdded s.proc s'.proc Sched.initproc 2147483647 := by
  obtain ⟨s, s', reached, run, nice, step, result⟩ := nice_called 2147483647
  have top : (s'.proc Sched.initproc).nice = -20 := result.trans (by decide +kernel)
  refine ⟨s, s', reached, run, step, nice, top, fun added => ?_⟩
  have kept := added.kept (by omega)
  omega

end Cs537.Xv6
