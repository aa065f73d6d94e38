import Cs537.Lib.Threads
import Cs537.Xv6.Scheduler

/-! # Every dispatch picks a process of least effective nice value

Between `findminnice` and the dispatch the lock keeps every other processor away from the states and
channels of the table, and what is written without the lock belongs to a running process or to one
that is not runnable yet. So the stored elevated values stay the effective ones, and the minimum stays
the minimum, as long as the scan lasts.
-/

namespace Cs537.Xv6

open Lib

variable {χ κ : Type} [DecidableEq χ]

/-- States whose nice value and locks play no part in a scan. -/
def ProcState.inactive : ProcState → Bool
  | .sleeping | .runnable => false
  | _ => true

/-- Two tables that agree on the processes a scan looks at. -/
def Agree (procs procs' : Procs χ) : Prop :=
  ∀ q, procs' q = procs q ∨ (procs q).state.inactive = true ∧ (procs' q).state.inactive = true

omit [DecidableEq χ] in
theorem Agree.runnable {procs procs' : Procs χ} (agree : Agree procs procs') {q : Fin nproc}
    (runnable : (procs' q).state = .runnable) : procs' q = procs q := by
  rcases agree q with same | ⟨_, inactive⟩
  · exact same
  · rw [runnable] at inactive
    cases inactive

omit [DecidableEq χ] in
theorem Agree.symm {procs procs' : Procs χ} (agree : Agree procs procs') : Agree procs' procs := by
  intro q
  rcases agree q with same | ⟨old, new⟩
  · exact .inl same.symm
  · exact .inr ⟨new, old⟩

omit [DecidableEq χ] in
theorem Agree.update {procs : Procs χ} {p : Fin nproc} {value : Proc χ}
    (inactive : (procs p).state.inactive = true) (inactive' : value.state.inactive = true) :
    Agree procs (Function.update procs p value) := by
  intro q
  by_cases eq : q = p
  · subst eq
    rw [Function.update_self]
    exact .inr ⟨inactive, inactive'⟩
  · exact .inl (Function.update_of_ne eq ..)

omit [DecidableEq χ] in
theorem Agree.waits {procs procs' : Procs χ} (agree : Agree procs procs') {p q : Fin nproc}
    (same : procs' p = procs p) (waits : Waits procs' p q) : Waits procs p q ∧ procs' q = procs q := by
  obtain ⟨asleep, member⟩ := waits
  rcases agree q with eq | ⟨_, inactive⟩
  · rw [eq] at asleep member
    rw [same] at member
    exact ⟨⟨asleep, member⟩, eq⟩
  · rw [asleep] at inactive
    cases inactive

theorem Agree.effectiveNice_eq {procs procs' : Procs χ} (agree : Agree procs procs') {p : Fin nproc}
    (same : procs' p = procs p) : effectiveNice procs' p = effectiveNice procs p := by
  apply eq_of_forall_le_iff
  intro x
  rw [le_effectiveNice_iff, le_effectiveNice_iff, same]
  apply and_congr_right
  intro _
  constructor
  · intro bound q waits
    obtain ⟨waits', eq⟩ := agree.symm.waits same.symm waits
    rw [eq]
    exact bound q waits'
  · intro bound q waits
    obtain ⟨waits', eq⟩ := agree.waits same waits
    rw [eq]
    exact bound q waits'

/-- The stored values are the effective ones, and the minimum is their minimum or 19. -/
structure ScanOk (procs : Procs χ) (minnice : ℤ) : Prop where
  elevated : ∀ p, (procs p).state = .runnable → (procs p).elevatedNice = effectiveNice procs p
  le_iff : ∀ x, x ≤ minnice ↔ x ≤ 19 ∧ ∀ p, (procs p).state = .runnable → x ≤ effectiveNice procs p

private theorem ScanOk.of_findminnice (procs : Procs χ) : ScanOk (findminnice procs).1 (findminnice procs).2 := by
  have found := findminnice_found procs
  have same := found.same
  refine ⟨?_, ?_⟩
  · intro p runnable
    rw [same.state_eq] at runnable
    rw [same.effectiveNice_eq, found.runnable p (List.mem_finRange p) runnable]
    rfl
  · intro x
    rw [found.le_iff]
    simp only [same.state_eq, same.effectiveNice_eq, List.mem_finRange, true_imp_iff]

theorem ScanOk.agree {procs procs' : Procs χ} {minnice : ℤ} (ok : ScanOk procs minnice)
    (agree : Agree procs procs') : ScanOk procs' minnice := by
  refine ⟨?_, ?_⟩
  · intro p runnable
    have same := agree.runnable runnable
    rw [agree.effectiveNice_eq same, same]
    rw [same] at runnable
    exact ok.elevated p runnable
  · intro x
    rw [ok.le_iff]
    apply and_congr_right
    intro _
    constructor
    · intro bound p runnable
      have same := agree.runnable runnable
      rw [agree.effectiveNice_eq same]
      rw [same] at runnable
      exact bound p runnable
    · intro bound p runnable
      have same := agree.symm.runnable runnable
      rw [agree.symm.effectiveNice_eq same]
      rw [same] at runnable
      exact bound p runnable

/-- What holds between any two steps of any processors. -/
structure SchedInv (s : Sched χ κ) : Prop where
  nice_le : ∀ p, (s.proc p).nice ≤ 19
  locked : ∀ c, (s.cpu c).scanning = true → s.lock = some c
  running : ∀ c p, s.cpu c = .run p → (s.proc p).state = .running
  alone : Exclusive CpuMode.proc s.cpu
  scan : ∀ c i minnice, s.cpu c = .scan i minnice → ScanOk s.proc minnice

variable [Zero χ] [DecidableEq κ] {s s' : Sched χ κ} {c : κ}

omit [DecidableEq κ] in
theorem SchedInv.initial : SchedInv (Sched.initial χ κ) where
  nice_le p := by simp [Sched.initial]
  locked c scanning := by cases scanning
  running c p run := by cases run
  alone c d p mine := by cases mine
  scan c i minnice scanning := by cases scanning

/-- No nice value changes and no running process stops. -/
def Calm (procs procs' : Procs χ) : Prop :=
  ∀ q, (procs' q).nice = (procs q).nice ∧ ((procs q).state = .running → (procs' q).state = .running)

omit [DecidableEq χ] [Zero χ] in
theorem Calm.trans {first second third : Procs χ} (left : Calm first second) (right : Calm second third) :
    Calm first third := fun q =>
  ⟨(right q).1.trans (left q).1, fun running => (right q).2 ((left q).2 running)⟩

omit [DecidableEq χ] [Zero χ] in
theorem Calm.update {procs : Procs χ} {p : Fin nproc} {value : Proc χ}
    (nice : value.nice = (procs p).nice) (state : (procs p).state = .running → value.state = .running) :
    Calm procs (Function.update procs p value) := by
  intro q
  by_cases eq : q = p
  · subst eq
    rw [Function.update_self]
    exact ⟨nice, state⟩
  · rw [Function.update_of_ne eq]
    exact ⟨rfl, id⟩

omit [Zero χ] in
theorem calm_wakeup1 (procs : Procs χ) (chan : χ) : Calm procs (wakeup1 procs chan) := by
  intro q
  simp only [wakeup1]
  split_ifs with asleep
  · exact ⟨rfl, fun running => by rw [asleep.1] at running; cases running⟩
  · exact ⟨rfl, id⟩

omit [Zero χ] in
theorem calm_sleepProcNotify (procs : Procs χ) (ticks : χ) : Calm procs (sleepProcNotify procs ticks) := by
  intro q
  simp only [sleepProcNotify]
  split_ifs with asleep
  · exact ⟨rfl, fun running => by rw [asleep.1] at running; cases running⟩
  · exact ⟨rfl, id⟩
  · exact ⟨rfl, id⟩

omit [DecidableEq χ] [Zero χ] in
theorem calm_kill (procs : Procs χ) (pid : ℕ) : Calm procs (kill procs pid) := by
  simp only [kill]
  split
  · exact fun q => ⟨rfl, id⟩
  · split_ifs with asleep
    · exact Calm.update rfl fun running => by rw [asleep] at running; cases running
    · exact fun q => ⟨rfl, id⟩

omit [Zero χ] in
theorem calm_abandon (procs : Procs χ) (curproc initproc : Fin nproc) (initChan : χ) :
    Calm procs (abandon procs curproc initproc initChan) := by
  have loop (l : List (Fin nproc)) (procs : Procs χ) : Calm procs (l.foldl (fun procs p =>
      if (procs p).parent = some curproc then
        let procs' := Function.update procs p { procs p with parent := some initproc }
        if (procs p).state = .zombie then wakeup1 procs' initChan else procs'
      else procs) procs) := by
    induction l generalizing procs with
    | nil => exact fun q => ⟨rfl, id⟩
    | cons p l ih =>
      refine Calm.trans ?_ (ih _)
      have adopt : Calm procs (Function.update procs p { procs p with parent := some initproc }) :=
        Calm.update rfl id
      dsimp only
      split_ifs
      · exact adopt.trans (calm_wakeup1 _ _)
      · exact adopt
      · exact fun q => ⟨rfl, id⟩
  exact loop _ procs

omit [DecidableEq κ] [Zero χ] in
/-- Code that holds the lock keeps every scan away. -/
theorem SchedInv.change (inv : SchedInv s) (held : s.lock = some c) (outside : (s.cpu c).scanning = false)
    (cpu : s'.cpu = s.cpu) (lock : s'.lock = s.lock) (calm : Calm s.proc s'.proc) : SchedInv s' := by
  have quiet (d : κ) (scanning : (s.cpu d).scanning = true) : False := by
    have same := (inv.locked d scanning).symm.trans held
    cases same
    rw [outside] at scanning
    cases scanning
  refine ⟨?_, ?_, ?_, ?_, ?_⟩
  · intro p
    rw [(calm p).1]
    exact inv.nice_le p
  · intro d
    rw [cpu, lock]
    exact inv.locked d
  · intro d p run
    rw [cpu] at run
    exact (calm p).2 (inv.running d p run)
  · rw [cpu]
    exact inv.alone
  · intro d i minnice scanning
    rw [cpu] at scanning
    exact (quiet d (by rw [scanning]; rfl)).elim

omit [DecidableEq κ] [Zero χ] in
/-- What a process writes without the lock no scan looks at. -/
theorem SchedInv.write (inv : SchedInv s) {p : Fin nproc} {value : Proc χ}
    (inactive : (s.proc p).state.inactive = true) (state : value.state = (s.proc p).state ∨
      (s.proc p).state = .embryo ∧ value.state.inactive = true)
    (nice : value.nice ≤ 19) : SchedInv (s.setProc p value) := by
  have inactive' : value.state.inactive = true := by
    rcases state with same | ⟨_, new⟩
    · rw [same]
      exact inactive
    · exact new
  have agree := Agree.update inactive inactive'
  refine ⟨?_, inv.locked, ?_, inv.alone, ?_⟩
  · intro q
    simp only [Sched.setProc]
    by_cases eq : q = p
    · subst eq
      rw [Function.update_self]
      exact nice
    · rw [Function.update_of_ne eq]
      exact inv.nice_le q
  · intro d q run
    have running := inv.running d q run
    simp only [Sched.setProc]
    by_cases eq : q = p
    · subst eq
      rw [Function.update_self]
      rcases state with same | ⟨embryo, _⟩
      · rw [same]
        exact running
      · rw [running] at embryo
        cases embryo
    · rw [Function.update_of_ne eq]
      exact running
  · intro d i minnice scanning
    exact (inv.scan d i minnice scanning).agree agree

omit [Zero χ] in
/-- The running process gives the processor back to the scheduler. -/
theorem SchedInv.sched (inv : SchedInv s) {p : Fin nproc} {value : Proc χ} {procs : Procs χ}
    (held : s.lock = some c) (run : s.cpu c = .run p) (calm : Calm s.proc procs)
    (nice : value.nice = (procs p).nice) : SchedInv (Sched.sched { s with proc := procs } c p value) := by
  have quiet (d : κ) (scanning : (s.cpu d).scanning = true) : False := by
    have same := (inv.locked d scanning).symm.trans held
    cases same
    rw [run] at scanning
    cases scanning
  refine ⟨?_, ?_, ?_, ?_, ?_⟩
  · intro q
    simp only [Sched.sched, Sched.setProc, Sched.setCpu]
    by_cases eq : q = p
    · subst eq
      rw [Function.update_self, nice, (calm q).1]
      exact inv.nice_le q
    · rw [Function.update_of_ne eq, (calm q).1]
      exact inv.nice_le q
  · intro d scanning
    simp only [Sched.sched, Sched.setProc, Sched.setCpu] at scanning ⊢
    by_cases eq : d = c
    · rw [eq]
      exact held
    · rw [Function.update_of_ne eq] at scanning
      exact (quiet d scanning).elim
  · intro d q running
    simp only [Sched.sched, Sched.setProc, Sched.setCpu] at running ⊢
    by_cases eq : d = c
    · rw [eq, Function.update_self] at running
      cases running
    · rw [Function.update_of_ne eq] at running
      have apart : q ≠ p := by
        rintro rfl
        exact eq (inv.alone d c q (by rw [running]; rfl) (by rw [run]; rfl))
      rw [Function.update_of_ne apart]
      exact (calm q).2 (inv.running d q running)
  · apply inv.alone.update
    intro d q _ label
    cases label
  · intro d i minnice scanning
    simp only [Sched.sched, Sched.setProc, Sched.setCpu] at scanning
    by_cases eq : d = c
    · rw [eq, Function.update_self] at scanning
      cases scanning
    · rw [Function.update_of_ne eq] at scanning
      exact (quiet d (by rw [scanning]; rfl)).elim

omit [DecidableEq κ] [Zero χ] in
/-- The processor that holds the lock is the only one that may be scanning. -/
theorem SchedInv.scanning_unique (inv : SchedInv s) (free : s.lock = none ∨ s.lock = some c) {d : κ}
    (scanning : (s.cpu d).scanning = true) : d = c := by
  have held := inv.locked d scanning
  rcases free with none | mine
  · rw [none] at held
    cases held
  · exact Option.some.inj (held.symm.trans mine)

omit [Zero χ] in
/-- The processor that scans, or is about to, moves. -/
theorem SchedInv.schedulerMove (inv : SchedInv s) (free : s.lock = none ∨ s.lock = some c) {mode : CpuMode}
    {lock : Option κ} {procs : Procs χ} (calm : Calm s.proc procs)
    (locked : mode.scanning = true → lock = some c)
    (runs : ∀ p, mode = .run p → (procs p).state = .running ∧ (s.proc p).state ≠ .running)
    (scans : ∀ i minnice, mode = .scan i minnice → ScanOk procs minnice) :
    SchedInv { s.setCpu c mode with proc := procs, lock := lock } := by
  refine ⟨?_, ?_, ?_, ?_, ?_⟩
  · intro q
    dsimp only
    rw [(calm q).1]
    exact inv.nice_le q
  · intro d scanning
    simp only [Sched.setCpu] at scanning
    by_cases eq : d = c
    · rw [eq, Function.update_self] at scanning
      rw [eq]
      exact locked scanning
    · rw [Function.update_of_ne eq] at scanning
      exact (eq (inv.scanning_unique free scanning)).elim
  · intro d p run
    simp only [Sched.setCpu] at run
    by_cases eq : d = c
    · rw [eq, Function.update_self] at run
      exact (runs p run).1
    · rw [Function.update_of_ne eq] at run
      exact (calm p).2 (inv.running d p run)
  · apply inv.alone.update
    intro d p apart label theirs
    cases mode <;> simp only [CpuMode.proc, reduceCtorEq, Option.some.injEq] at label
    subst label
    cases at_mode : s.cpu d <;> simp only [at_mode, CpuMode.proc, reduceCtorEq, Option.some.injEq] at theirs
    subst theirs
    exact (runs _ rfl).2 (inv.running d _ at_mode)
  · intro d i minnice scanning
    simp only [Sched.setCpu] at scanning
    by_cases eq : d = c
    · rw [eq, Function.update_self] at scanning
      exact scans i minnice scanning
    · rw [Function.update_of_ne eq] at scanning
      exact (eq (inv.scanning_unique free (by rw [scanning]; rfl))).elim

omit [Zero χ] in
theorem calm_findminnice (procs : Procs χ) : Calm procs (findminnice procs).1 := by
  intro q
  obtain ⟨e, eq⟩ := (findminnice_found procs).same q
  rw [eq]
  exact ⟨rfl, id⟩

omit [Zero χ] in
theorem SchedInv.schedulerStep (inv : SchedInv s) (step : s.schedulerStep c = some s') : SchedInv s' := by
  have calm : Calm s.proc s.proc := fun q => ⟨rfl, id⟩
  cases mode : s.cpu c with
  | idle =>
    simp only [Sched.schedulerStep, mode, Option.ite_none_right_eq_some, Option.some.injEq] at step
    obtain ⟨free, rfl⟩ := step
    exact inv.schedulerMove (.inl free) calm (fun _ => rfl) (by simp) (by simp)
  | find i =>
    simp only [Sched.schedulerStep, mode, Option.some.injEq] at step
    subst step
    have held := inv.locked c (by rw [mode]; rfl)
    refine inv.schedulerMove (.inr held) (calm_findminnice s.proc) (fun _ => held) (by simp) ?_
    rintro j minnice same
    cases same
    exact ScanOk.of_findminnice s.proc
  | scan i minnice =>
    have held := inv.locked c (by rw [mode]; rfl)
    simp only [Sched.schedulerStep, mode] at step
    split_ifs at step with inside skip
    · cases step
      refine inv.schedulerMove (.inr held) calm (fun _ => held) (by simp) ?_
      rintro j least same
      cases same
      exact inv.scan c i minnice mode
    · cases step
      have runnable : (s.proc ⟨i, inside⟩).state = .runnable := by
        by_contra other
        exact skip (.inl other)
      refine inv.schedulerMove (.inr held) ?_ (by simp [CpuMode.scanning]) ?_ (by simp)
      · exact Calm.update rfl fun _ => rfl
      · rintro p same
        cases same
        refine ⟨?_, by rw [runnable]; simp⟩
        simp [Sched.setCpu]
    · cases step
      exact inv.schedulerMove (.inr held) calm (by simp [CpuMode.scanning]) (by simp) (by simp)
  | run p => simp [Sched.schedulerStep, mode] at step

private theorem clampNice_le (inc nice : ℤ) : clampNice inc nice ≤ 19 := by
  simp only [clampNice]
  split_ifs <;> omega

omit [Zero χ] [DecidableEq κ] [DecidableEq χ] in
theorem Sched.inKernel_eq_some {change : Fin nproc → Option (Sched χ κ)} [DecidableEq κ]
    (step : s.inKernel c change = some s') : ∃ p, s.cpu c = .run p ∧ s.lock = some c ∧ change p = some s' := by
  cases mode : s.cpu c <;> simp only [Sched.inKernel, mode, reduceCtorEq] at step
  split_ifs at step with held
  exact ⟨_, rfl, held, step⟩

omit [Zero χ] [DecidableEq κ] [DecidableEq χ] in
theorem Sched.inProcess_eq_some {change : Fin nproc → Option (Sched χ κ)}
    (step : s.inProcess c change = some s') : ∃ p, s.cpu c = .run p ∧ change p = some s' := by
  cases mode : s.cpu c <;> simp only [Sched.inProcess, mode, reduceCtorEq] at step
  exact ⟨_, rfl, step⟩

/-- Every step of every processor keeps the invariant. -/
theorem SchedInv.step {channels : Channels χ} (inv : SchedInv s) {a : SchedAction χ κ}
    (step : s.step channels a = some s') : SchedInv s' := by
  have own (c : κ) (p : Fin nproc) (run : s.cpu c = .run p) : (s.proc p).state.inactive = true := by
    rw [inv.running c p run]
    rfl
  have calm : Calm s.proc s.proc := fun q => ⟨rfl, id⟩
  cases a <;> simp only [Sched.step] at step
  case scheduler c => exact inv.schedulerStep step
  case acquire c =>
    simp only [Option.ite_none_right_eq_some, Option.some.injEq] at step
    obtain ⟨⟨free, _⟩, rfl⟩ := step
    refine ⟨inv.nice_le, ?_, inv.running, inv.alone, inv.scan⟩
    intro d scanning
    have held := inv.locked d scanning
    rw [free] at held
    cases held
  case release c =>
    simp only [Option.ite_none_right_eq_some, Option.some.injEq] at step
    obtain ⟨⟨held, outside⟩, rfl⟩ := step
    refine ⟨inv.nice_le, ?_, inv.running, inv.alone, inv.scan⟩
    intro d scanning
    obtain rfl := inv.scanning_unique (.inr held) scanning
    rw [outside] at scanning
    cases scanning
  case wakeup c chan =>
    simp only [Sched.underLock, Option.ite_none_right_eq_some, Option.some.injEq] at step
    obtain ⟨⟨held, outside⟩, rfl⟩ := step
    exact inv.change held outside rfl rfl (calm_wakeup1 s.proc chan)
  case notify c =>
    simp only [Sched.underLock, Option.ite_none_right_eq_some, Option.some.injEq] at step
    obtain ⟨⟨held, outside⟩, rfl⟩ := step
    exact inv.change held outside rfl rfl (calm_sleepProcNotify s.proc channels.ticks)
  case kill c pid =>
    obtain ⟨p, run, held, step⟩ := Sched.inKernel_eq_some step
    cases step
    exact inv.change held (by rw [run]; rfl) rfl rfl (calm_kill s.proc pid)
  case allocproc c =>
    obtain ⟨p, run, held, step⟩ := Sched.inKernel_eq_some step
    cases step
    have outside : (s.cpu c).scanning = false := by rw [run]; rfl
    simp only [Sched.allocproc]
    split
    · exact inv
    · rename_i q found
      have unused : (s.proc q).state = .unused := by simpa using List.find?_some found
      refine inv.change held outside rfl rfl (Calm.update rfl fun running => ?_)
      rw [unused] at running
      cases running
  case setRunnable c np =>
    obtain ⟨p, run, held, step⟩ := Sched.inKernel_eq_some step
    split_ifs at step with embryo
    cases step
    refine inv.change held (by rw [run]; rfl) rfl rfl (Calm.update rfl fun running => ?_)
    rw [embryo] at running
    cases running
  case reap c child =>
    obtain ⟨p, run, held, step⟩ := Sched.inKernel_eq_some step
    split_ifs at step with zombie
    cases step
    refine inv.change held (by rw [run]; rfl) rfl rfl (Calm.update rfl fun running => ?_)
    rw [zombie.2] at running
    cases running
  case yield c =>
    obtain ⟨p, run, held, step⟩ := Sched.inKernel_eq_some step
    cases step
    exact inv.sched held run calm rfl
  case sleep c chan =>
    obtain ⟨p, run, held, step⟩ := Sched.inKernel_eq_some step
    cases step
    exact inv.sched held run calm rfl
  case exit c =>
    obtain ⟨p, run, held, step⟩ := Sched.inKernel_eq_some step
    split_ifs at step
    generalize gone : abandon (wakeup1 s.proc _) p Sched.initproc _ = procs at step
    cases step
    refine inv.sched held run ?_ rfl
    rw [← gone]
    exact (calm_wakeup1 _ _).trans (calm_abandon _ _ _ _)
  case clearChan c =>
    obtain ⟨p, run, held, step⟩ := Sched.inKernel_eq_some step
    cases step
    exact inv.write (own c p run) (.inl rfl) (inv.nice_le p)
  case nice c inc =>
    obtain ⟨p, run, step⟩ := Sched.inProcess_eq_some step
    cases step
    exact inv.write (own c p run) (.inl rfl) (clampNice_le ..)
  case setLocks c locks =>
    obtain ⟨p, run, step⟩ := Sched.inProcess_eq_some step
    cases step
    exact inv.write (own c p run) (.inl rfl) (inv.nice_le p)
  case setSleepticks c ticks =>
    obtain ⟨p, run, step⟩ := Sched.inProcess_eq_some step
    cases step
    exact inv.write (own c p run) (.inl rfl) (inv.nice_le p)
  case initProc c np =>
    obtain ⟨p, run, step⟩ := Sched.inProcess_eq_some step
    split_ifs at step with embryo
    cases step
    exact inv.write (by rw [embryo]; rfl) (.inl rfl) (by simp)
  case setParent c np =>
    obtain ⟨p, run, step⟩ := Sched.inProcess_eq_some step
    split_ifs at step with embryo
    cases step
    exact inv.write (by rw [embryo]; rfl) (.inl rfl) (inv.nice_le np)
  case freeProc c np =>
    obtain ⟨p, run, step⟩ := Sched.inProcess_eq_some step
    split_ifs at step with embryo
    cases step
    exact inv.write (by rw [embryo]; rfl) (.inr ⟨embryo, rfl⟩) (inv.nice_le np)

theorem SchedInv.of_reachable {channels : Channels χ} (reached : (schedMachine χ κ channels).Reachable s) :
    SchedInv s := by
  apply reached.invariant
  · rintro s rfl
    exact .initial
  · intro s a t step inv
    exact inv.step step

/-- While a processor scans, the others change nothing it looks at. -/
private theorem SchedInv.others_agree {channels : Channels χ} (inv : SchedInv s) (scanning : (s.cpu c).scanning = true)
    {a : SchedAction χ κ} (other : a ≠ .scheduler c) (step : s.step channels a = some s') :
    s'.cpu c = s.cpu c ∧ Agree s.proc s'.proc := by
  have held := inv.locked c scanning
  have mine {d : κ} (locked : s.lock = some d) : c = d := Option.some.inj (held.symm.trans locked)
  have kernel {d : κ} {change : Fin nproc → Option (Sched χ κ)} (step : s.inKernel d change = some s') : False := by
    obtain ⟨p, run, locked, _⟩ := Sched.inKernel_eq_some step
    rw [mine locked, run] at scanning
    cases scanning
  have process {d : κ} {p : Fin nproc} (run : s.cpu d = .run p) : (s.proc p).state.inactive = true := by
    rw [inv.running d p run]
    rfl
  cases a <;> simp only [Sched.step] at step
  case scheduler d =>
    have idle : (s.cpu d).scanning = false := by
      by_contra busy
      exact other (by rw [mine (inv.locked d (by simpa using busy))])
    cases mode : s.cpu d <;> simp [Sched.schedulerStep, mode, held, CpuMode.scanning] at step idle
  case acquire d => simp [held] at step
  case release d =>
    simp only [Option.ite_none_right_eq_some] at step
    rw [mine step.1.1, step.1.2] at scanning
    cases scanning
  case wakeup d chan =>
    simp only [Sched.underLock, Option.ite_none_right_eq_some] at step
    rw [mine step.1.1, step.1.2] at scanning
    cases scanning
  case notify d =>
    simp only [Sched.underLock, Option.ite_none_right_eq_some] at step
    rw [mine step.1.1, step.1.2] at scanning
    cases scanning
  case nice d inc =>
    obtain ⟨p, run, step⟩ := Sched.inProcess_eq_some step
    cases step
    exact ⟨rfl, Agree.update (process run) (process run)⟩
  case setLocks d locks =>
    obtain ⟨p, run, step⟩ := Sched.inProcess_eq_some step
    cases step
    exact ⟨rfl, Agree.update (process run) (process run)⟩
  case setSleepticks d ticks =>
    obtain ⟨p, run, step⟩ := Sched.inProcess_eq_some step
    cases step
    exact ⟨rfl, Agree.update (process run) (process run)⟩
  case initProc d np =>
    obtain ⟨p, run, step⟩ := Sched.inProcess_eq_some step
    split_ifs at step with embryo
    cases step
    exact ⟨rfl, Agree.update (by rw [embryo]; rfl) (by rw [embryo]; rfl)⟩
  case setParent d np =>
    obtain ⟨p, run, step⟩ := Sched.inProcess_eq_some step
    split_ifs at step with embryo
    cases step
    exact ⟨rfl, Agree.update (by rw [embryo]; rfl) (by rw [embryo]; rfl)⟩
  case freeProc d np =>
    obtain ⟨p, run, step⟩ := Sched.inProcess_eq_some step
    split_ifs at step with embryo
    cases step
    exact ⟨rfl, Agree.update (by rw [embryo]; rfl) rfl⟩
  all_goals exact (kernel step).elim

/-- The next instruction of `scheduler` on processor `c` makes process `p` running. -/
def Dispatches (s : Sched χ κ) (c : κ) (p : Fin nproc) : Prop :=
  ∃ minnice, s.cpu c = .scan p minnice ∧ (s.proc p).state = .runnable ∧ (s.proc p).elevatedNice ≤ minnice

omit [Zero χ] in
private theorem dispatches_iff {p : Fin nproc} (step : s.schedulerStep c = some s') :
    Dispatches s c p ↔ s'.cpu c = .run p := by
  cases mode : s.cpu c with
  | idle =>
    simp only [Sched.schedulerStep, mode, Option.ite_none_right_eq_some, Option.some.injEq] at step
    obtain ⟨_, rfl⟩ := step
    simp [Dispatches, mode, Sched.setCpu]
  | find i =>
    simp only [Sched.schedulerStep, mode, Option.some.injEq] at step
    subst step
    simp [Dispatches, mode, Sched.setCpu]
  | scan i minnice =>
    simp only [Sched.schedulerStep, mode] at step
    split_ifs at step with inside skip
    · cases step
      simp only [Dispatches, mode, Sched.setCpu, Function.update_self, reduceCtorEq, iff_false]
      rintro ⟨least, same, runnable, le⟩
      cases same
      rcases skip with other | above
      · exact other runnable
      · exact absurd le (not_le.mpr above)
    · cases step
      simp only [not_or, not_not, not_lt] at skip
      simp only [Dispatches, mode, Sched.setCpu, Sched.setProc, Function.update_self, CpuMode.run.injEq]
      constructor
      · rintro ⟨least, same, _⟩
        cases same
        rfl
      · rintro rfl
        exact ⟨minnice, rfl, skip⟩
    · cases step
      simp only [Dispatches, mode, Sched.setCpu, Function.update_self, reduceCtorEq, iff_false]
      rintro ⟨least, same, _⟩
      cases same
      exact inside p.isLt
  | run q => simp [Sched.schedulerStep, mode] at step

/-- The scan of a processor is under way and will reach a process it dispatches; `taken` counts the
instructions of the scan so far. -/
def WillDispatch (s : Sched χ κ) (c : κ) (taken : ℕ) : Prop :=
  (s.cpu c = .find 0 ∧ taken = 0 ∧ ∃ p, (s.proc p).state = .runnable) ∨
    ∃ i minnice, s.cpu c = .scan i minnice ∧ taken = i + 1 ∧ ∃ p : Fin nproc, i ≤ p ∧
      (s.proc p).state = .runnable ∧ (s.proc p).elevatedNice ≤ minnice

omit [DecidableEq χ] [Zero χ] [DecidableEq κ] in
theorem WillDispatch.scanning {taken : ℕ} (will : WillDispatch s c taken) : (s.cpu c).scanning = true := by
  rcases will with ⟨mode, _⟩ | ⟨i, minnice, mode, _⟩ <;> rw [mode] <;> rfl

omit [Zero χ] in
/-- The minimum is attained: no effective nice value is above 19. -/
private theorem ScanOk.attained {procs : Procs χ} {minnice : ℤ} (ok : ScanOk procs minnice)
    (nice_le : ∀ p, (procs p).nice ≤ 19) {p : Fin nproc} (runnable : (procs p).state = .runnable) :
    ∃ q, (procs q).state = .runnable ∧ (procs q).elevatedNice ≤ minnice := by
  by_contra none
  simp only [not_exists, not_and, not_le] at none
  have above (q : Fin nproc) (runnable : (procs q).state = .runnable) : minnice + 1 ≤ effectiveNice procs q := by
    have := none q runnable
    rw [ok.elevated q runnable] at this
    omega
  have small : minnice + 1 ≤ 19 := ((above p runnable).trans (effectiveNice_le procs p)).trans (nice_le p)
  have least := (ok.le_iff (minnice + 1)).mpr ⟨small, above⟩
  omega

omit [Zero χ] in
theorem WillDispatch.scheduler (inv : SchedInv s) {taken : ℕ} (will : WillDispatch s c taken)
    (quiet : ∀ p, ¬ Dispatches s c p) (step : s.schedulerStep c = some s') : WillDispatch s' c (taken + 1) := by
  rcases will with ⟨mode, rfl, p, runnable⟩ | ⟨i, minnice, mode, rfl, p, later, runnable, low⟩
  · have ok := ScanOk.of_findminnice s.proc
    have runnable' : ((findminnice s.proc).1 p).state = .runnable := by
      rw [(findminnice_found s.proc).same.state_eq]
      exact runnable
    have nice_le (p : Fin nproc) : ((findminnice s.proc).1 p).nice ≤ 19 := by
      rw [(calm_findminnice s.proc p).1]
      exact inv.nice_le p
    obtain ⟨q, least⟩ := ok.attained nice_le runnable'
    simp only [Sched.schedulerStep, mode] at step
    generalize findminnice s.proc = found at step least
    cases step
    exact .inr ⟨0, found.2, Function.update_self .., rfl, q, Nat.zero_le _, least⟩
  · have inside : i < nproc := lt_of_le_of_lt later p.isLt
    have skip : (s.proc ⟨i, inside⟩).state ≠ .runnable ∨ (s.proc ⟨i, inside⟩).elevatedNice > minnice := by
      by_contra both
      simp only [not_or, not_not, not_lt] at both
      exact quiet ⟨i, inside⟩ ⟨minnice, mode, both⟩
    simp only [Sched.schedulerStep, mode, inside, dite_true, if_pos skip, Option.some.injEq] at step
    subst step
    refine .inr ⟨i + 1, minnice, Function.update_self .., rfl, p, ?_, runnable, low⟩
    refine Nat.lt_of_le_of_ne later ?_
    rintro rfl
    rcases skip with other | above
    · exact other runnable
    · exact absurd low (not_le.mpr above)

theorem WillDispatch.other {channels : Channels χ} (inv : SchedInv s) {taken : ℕ}
    (will : WillDispatch s c taken) {a : SchedAction χ κ} (other : a ≠ .scheduler c)
    (step : s.step channels a = some s') : WillDispatch s' c taken := by
  obtain ⟨cpu, agree⟩ := inv.others_agree will.scanning other step
  rcases will with ⟨mode, rfl, p, runnable⟩ | ⟨i, minnice, mode, rfl, p, later, runnable, low⟩
  · have same := agree.symm.runnable runnable
    exact .inl ⟨cpu.trans mode, rfl, p, by rw [← same]; exact runnable⟩
  · have same := agree.symm.runnable runnable
    refine .inr ⟨i, minnice, cpu.trans mode, rfl, p, later, ?_⟩
    rw [← same]
    exact ⟨runnable, low⟩

/-- Along a run in which the processor dispatches nothing, its scan goes on. -/
theorem WillDispatch.path {channels : Channels χ} (inv : SchedInv s) {taken : ℕ} (will : WillDispatch s c taken)
    {acts : List (SchedAction χ κ)} (path : (schedMachine χ κ channels).Path
      (fun s a => a = .scheduler c → ∀ p, ¬ Dispatches s c p) s acts s') :
    WillDispatch s' c (taken + acts.count (.scheduler c)) := by
  induction path generalizing taken with
  | nil => exact will
  | @cons s mid t a rest quiet step _ ih =>
    have next : WillDispatch mid c (taken + [a].count (.scheduler c)) := by
      by_cases mine : a = .scheduler c
      · subst mine
        rw [List.count_singleton_self]
        exact will.scheduler inv (quiet rfl) step
      · rw [List.count_eq_zero_of_not_mem (by simpa using Ne.symm mine)]
        exact will.other inv mine step
    rw [← List.singleton_append, List.count_append, ← Nat.add_assoc]
    exact ih (inv.step step) next

omit [DecidableEq χ] [Zero χ] [DecidableEq κ] in
private theorem WillDispatch.taken_le {taken : ℕ} (will : WillDispatch s c taken) : taken ≤ nproc := by
  rcases will with ⟨_, rfl, _⟩ | ⟨i, _, _, rfl, p, later, _⟩
  · exact Nat.zero_le _
  · exact lt_of_le_of_lt later p.isLt

/-- On any number of processors: a process that `scheduler` makes running was runnable and has the
least effective nice value of all runnable processes; a scan is never stuck; and a scan that starts at
index 0 with a runnable process has dispatched one before it ends, after at most `NPROC` instructions. -/
theorem scheduler_dispatches_least {channels : Channels χ}
    (reached : (schedMachine χ κ channels).Reachable s) :
    (∀ c p t, s.schedulerStep c = some t → t.cpu c = .run p → (s.proc p).state = .runnable ∧
      ∀ r, (s.proc r).state = .runnable → effectiveNice s.proc p ≤ effectiveNice s.proc r) ∧
    (∀ c, (s.cpu c).scanning = true → ∃ t, s.schedulerStep c = some t) ∧
    ∀ c, s.cpu c = .find 0 → (∃ p, (s.proc p).state = .runnable) →
      ∀ acts t, (schedMachine χ κ channels).Path (fun _ _ => True) s acts t →
        (t.cpu c).scanning = false ∨ nproc < acts.count (.scheduler c) →
          ∃ before after mid p, acts = before ++ .scheduler c :: after ∧
            (schedMachine χ κ channels).Path (fun _ _ => True) s before mid ∧ Dispatches mid c p := by
  have inv := SchedInv.of_reachable reached
  refine ⟨?_, ?_, ?_⟩
  · intro c p t step run
    obtain ⟨minnice, mode, runnable, low⟩ := (dispatches_iff step).mpr run
    have ok := inv.scan c p minnice mode
    refine ⟨runnable, fun r runnable' => ?_⟩
    rw [ok.elevated p runnable] at low
    exact low.trans (((ok.le_iff minnice).mp le_rfl).2 r runnable')
  · intro c scanning
    cases mode : s.cpu c <;> simp [mode, CpuMode.scanning] at scanning
    case find i => exact ⟨_, by simp only [Sched.schedulerStep, mode]; rfl⟩
    case scan i minnice =>
      simp only [Sched.schedulerStep, mode]
      split_ifs <;> exact ⟨_, rfl⟩
  · intro c mode some_runnable acts t path ended
    rcases path.all_or_first fun s a => a = .scheduler c → ∀ p, ¬ Dispatches s c p with
      quiet | ⟨before, a, after, mid, split, quiet, bad⟩
    · have will := WillDispatch.path inv (.inl ⟨mode, rfl, some_runnable⟩) quiet
      rcases ended with stopped | many
      · rw [will.scanning] at stopped
        cases stopped
      · have few := will.taken_le
        omega
    · simp only [not_forall, not_not] at bad
      obtain ⟨rfl, p, dispatches⟩ := bad
      exact ⟨before, after, mid, p, split, quiet.weaken fun _ _ _ => trivial, dispatches⟩

/-- Channels of a small example: the slot number and one more value for the clock. -/
def slotChannels : Channels ℕ := ⟨fun p => p + 1, 100⟩

/-- The init process makes a child, becomes nicer and yields: the second of two processors dispatches the child. -/
theorem scheduler_dispatches_least_child : ∃ s t : Sched ℕ (Fin 2), ∃ child : Fin nproc,
    (schedMachine ℕ (Fin 2) slotChannels).Reachable s ∧ s.schedulerStep 1 = some t ∧ t.cpu 1 = .run child ∧
      child ≠ Sched.initproc ∧ (s.proc Sched.initproc).state = .runnable ∧ (s.proc Sched.initproc).nice = 10 ∧
      (s.proc child).nice = 0 ∧ ∀ r, (s.proc r).state = .runnable →
      effectiveNice s.proc child ≤ effectiveNice s.proc r := by
  have ran : ((schedMachine ℕ (Fin 2) slotChannels).run (Sched.initial ℕ (Fin 2))
      [.scheduler 1, .scheduler 1, .scheduler 1, .allocproc 1, .initProc 1 ⟨1, by decide⟩, .setRunnable 1 ⟨1, by decide⟩,
        .nice 1 10, .yield 1, .scheduler 1]).map (fun s => decide ((s.schedulerStep 1).map (fun t => t.cpu 1) =
        some (.run ⟨1, by decide⟩) ∧ (s.proc Sched.initproc).state = .runnable ∧ (s.proc Sched.initproc).nice = 10 ∧
          (s.proc ⟨1, by decide⟩).nice = 0)) = some true := by decide +kernel
  obtain ⟨s, run, values⟩ := Option.map_eq_some_iff.mp ran
  obtain ⟨dispatch, state, nice, nice'⟩ := of_decide_eq_true values
  obtain ⟨t, step, mode⟩ := Option.map_eq_some_iff.mp dispatch
  have reached := (schedMachine ℕ (Fin 2) slotChannels).reachable_of_run rfl _ run
  exact ⟨s, t, _, reached, step, mode, by decide, state, nice, nice',
    ((scheduler_dispatches_least reached).1 1 _ t step mode).2⟩

end Cs537.Xv6
