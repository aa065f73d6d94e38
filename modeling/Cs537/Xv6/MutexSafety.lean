import Cs537.Xv6.Mutex
import Cs537.Xv6.SchedulerSafety

/-! # When priority inheritance follows the mutexes

The scheduler compares channels, and a channel names the page of a mutex together with two bits of its
page-table entry. As long as mutexes in use at the same time lie in different pages, and the page has
been written before the entry is read, every channel in use stands for one mutex: the lock list of a
process lists its mutexes, a sleeper's channel is that of the mutex it waits for, and what `findminnice`
stores is the nice value inherited from the waiters.
-/

namespace Cs537.Xv6

open Lib

/-- The channel of a mutex whose page has been written. -/
def chanOf (m : Mutex) : Chan := .v2p ⟨m.frame, true, true⟩

namespace SysPc

/-- The mutex and the channel a call has read. -/
def call : SysPc → Option (Mutex × Chan)
  | .acqLock m chan | .acqTest m chan | .acqSet m chan | .acqSleep m chan | .acqUnlock m chan
  | .acqSched m chan | .acqAsleep m chan | .acqWoken m chan | .relLock m chan | .relRemove m chan
  | .relWakeup m chan | .relWake1 m chan | .relUnlock m chan => some (m, chan)
  | _ => none

/-- The mutex a process is about to acquire. -/
def wants : SysPc → Option Mutex
  | .acqLock m _ | .acqTest m _ | .acqSet m _ | .acqSleep m _ | .acqUnlock m _ | .acqSched m _
  | .acqAsleep m _ | .acqWoken m _ => some m
  | _ => none

/-- The mutex whose spinlock the process has. -/
def inside : SysPc → Option Mutex
  | .acqTest m _ | .acqSet m _ | .acqDone m | .acqSleep m _ | .acqUnlock m _ | .relRemove m _
  | .relWakeup m _ | .relWake1 m _ | .relUnlock m _ | .relDone m => some m
  | _ => none

/-- The mutex a process is about to give up. -/
def gives : SysPc → Option Mutex
  | .relLock m _ | .relRemove m _ => some m
  | _ => none

end SysPc

/-- A slot that no process has run in. -/
def ProcState.fresh : ProcState → Bool
  | .unused | .embryo => true
  | _ => false

namespace Kernel

variable {κ : Type}

/-- The mutexes a process holds or is about to acquire. -/
def used (s : Kernel κ) (p : Fin nproc) : List Mutex := s.holds p ++ (s.pc p).wants.toList

/-- No other mutex in use lies in the page, and the page has been written. -/
def Apart (s : Kernel κ) (m : Mutex) : Prop :=
  (∀ q, ∀ other ∈ s.used q, other.frame = m.frame → other = m) ∧
    s.accessed m.frame = true ∧ s.dirty m.frame = true

instance (s : Kernel κ) (m : Mutex) : Decidable (s.Apart m) := inferInstanceAs (Decidable (_ ∧ _))

/-- Processes hold at most 16 mutexes and release only those they hold. -/
def Disciplined (s : Kernel κ) : KernelAction κ → Prop
  | .macquire c _ => ∀ p, s.sched.cpu c = .run p → (s.holds p).length < maxMutexLocksHeld
  | .mrelease c va => ∀ p, s.sched.cpu c = .run p → (⟨s.space p, va⟩ : Mutex) ∈ s.holds p
  | _ => True

/-- They also acquire only mutexes that lie apart from those in use. -/
def Separate (s : Kernel κ) (a : KernelAction κ) : Prop :=
  s.Disciplined a ∧ match a with
    | .macquire c va => ∀ p, s.sched.cpu c = .run p → s.argptr ⟨s.space p, va⟩ = true → s.Apart ⟨s.space p, va⟩
    | _ => True

instance [DecidableEq κ] (s : Kernel κ) : (a : KernelAction κ) → Decidable (s.Disciplined a)
  | .macquire .. | .mrelease .. => inferInstanceAs (Decidable (∀ _, _ → _))
  | .scheduler _ | .syscall _ | .nice .. | .acquire _ | .release _ | .yield _ | .sleep .. | .woken _
  | .wakeup .. | .notify _ | .touch .. | .allocproc _ | .initProc .. | .copyuvm .. | .shareuvm ..
  | .setParent .. | .freeProc .. | .setRunnable .. => inferInstanceAs (Decidable True)

instance [DecidableEq κ] (s : Kernel κ) : (a : KernelAction κ) → Decidable (s.Separate a)
  | .macquire .. => inferInstanceAs (Decidable (_ ∧ ∀ _, _ → _ → _))
  | .mrelease .. | .scheduler _ | .syscall _ | .nice .. | .acquire _ | .release _ | .yield _ | .sleep ..
  | .woken _ | .wakeup .. | .notify _ | .touch .. | .allocproc _ | .initProc .. | .copyuvm .. | .shareuvm ..
  | .setParent .. | .freeProc .. | .setRunnable .. => inferInstanceAs (Decidable (_ ∧ True))

end Kernel

section RemoveLock

variable {chan : Chan} {locks : List Chan}

private theorem removeLockLoop_of_notMem (absent : chan ∉ locks) (fuel i : ℕ) :
    removeLockLoop chan fuel i locks = locks := by
  induction fuel generalizing i with
  | zero => rfl
  | succ fuel ih =>
    have here : locks[i]? ≠ some chan := fun found => absent (List.mem_of_getElem? found)
    rw [removeLockLoop, if_neg here, ih]

/-- Overwriting an entry by the last one and dropping that takes the entry out. -/
theorem swapRemove_perm {i : ℕ} (found : locks[i]? = some chan) :
    (chan :: (locks.set i (locks.getLast?.getD 0)).dropLast).Perm locks := by
  obtain ⟨inside, rfl⟩ := List.getElem?_eq_some_iff.mp found
  rcases List.eq_nil_or_concat locks with rfl | ⟨front, last, rfl⟩
  · exact absurd inside (by simp)
  · simp only [List.concat_eq_append, List.length_append, List.length_singleton] at inside
    simp only [List.concat_eq_append, List.getLast?_append, List.getLast?_singleton, Option.some_or,
      Option.getD_some]
    by_cases within : i < front.length
    · rw [List.set_append_left _ _ within, List.dropLast_concat, List.getElem_append_left within]
      rw [List.set_eq_take_append_cons_drop, if_pos within]
      have whole : front = front.take i ++ front[i] :: front.drop (i + 1) := by simp
      calc
        (front[i] :: (front.take i ++ last :: front.drop (i + 1))).Perm
            (last :: (front.take i ++ front[i] :: front.drop (i + 1))) := by
          refine List.Perm.trans (List.Perm.cons _ List.perm_middle) ?_
          exact (List.Perm.swap _ _ _).trans (List.Perm.cons _ List.perm_middle.symm)
        (last :: (front.take i ++ front[i] :: front.drop (i + 1))).Perm (front ++ [last]) := by
          rw [← whole]
          exact (List.perm_append_singleton last front).symm
    · have last_index : i = front.length := by omega
      subst last_index
      simpa using (List.perm_append_singleton last front).symm

private theorem removeLockLoop_perm (nodup : locks.Nodup) (fuel i : ℕ) {j : ℕ} (from_i : i ≤ j) (below : j < i + fuel)
    (found : locks[j]? = some chan) : (chan :: removeLockLoop chan fuel i locks).Perm locks := by
  induction fuel generalizing i with
  | zero => omega
  | succ fuel ih =>
    rw [removeLockLoop]
    split_ifs with here
    · have perm := swapRemove_perm here
      have absent := (List.nodup_cons.mp (perm.nodup_iff.mpr nodup)).1
      rw [removeLockLoop_of_notMem absent]
      exact perm
    · have apart : j ≠ i := by
        rintro rfl
        exact here found
      exact ih (i + 1) (by omega) (by omega)

/-- On a list without duplicates the loop of `sys_mrelease` takes the channel out. -/
private theorem removeLock_perm (nodup : locks.Nodup) (member : chan ∈ locks) :
    (chan :: removeLock chan locks).Perm locks := by
  obtain ⟨j, inside, found⟩ := List.getElem_of_mem member
  refine removeLockLoop_perm nodup locks.length 0 (Nat.zero_le j) (by omega) ?_
  rw [List.getElem?_eq_getElem inside, found]

end RemoveLock

section Kept

/-- A change of a process that puts it not to sleep, keeps its locks and does not free its slot. -/
structure Kept (old new : Proc Chan) : Prop where
  asleep : new.state = .sleeping → old.state = .sleeping ∧ new.chan = old.chan
  fresh : new.state.fresh = true → old.state.fresh = true
  locks : new.locksHeld = old.locksHeld ∨ old.state.fresh = true ∧ new.locksHeld = []

theorem Kept.refl (p : Proc Chan) : Kept p p := ⟨fun asleep => ⟨asleep, rfl⟩, id, .inl rfl⟩

variable {κ : Type} [DecidableEq κ] {s s' : Sched Chan κ}

private theorem kept_update {procs : Procs Chan} {p : Fin nproc} {value : Proc Chan} (kept : Kept (procs p) value)
    (q : Fin nproc) : Kept (procs q) (Function.update procs p value q) := by
  by_cases eq : q = p
  · subst eq
    rwa [Function.update_self]
  · rw [Function.update_of_ne eq]
    exact .refl _

private theorem kept_findminnice (procs : Procs Chan) (q : Fin nproc) : Kept (procs q) ((findminnice procs).1 q) := by
  obtain ⟨e, eq⟩ := (findminnice_found procs).same q
  rw [eq]
  exact ⟨fun asleep => ⟨asleep, rfl⟩, id, .inl rfl⟩

private theorem kept_wakeup1 (procs : Procs Chan) (chan : Chan) (q : Fin nproc) :
    Kept (procs q) (wakeup1 procs chan q) := by
  rw [wakeup1]
  split_ifs
  · exact ⟨by rintro ⟨⟩, by rintro ⟨⟩, .inl rfl⟩
  · exact .refl _

private theorem kept_sleepProcNotify (procs : Procs Chan) (ticks : Chan) (q : Fin nproc) :
    Kept (procs q) (sleepProcNotify procs ticks q) := by
  rw [sleepProcNotify]
  split_ifs
  · exact ⟨by rintro ⟨⟩, by rintro ⟨⟩, .inl rfl⟩
  · exact ⟨fun asleep => ⟨asleep, rfl⟩, id, .inl rfl⟩
  · exact .refl _

/-- The scheduler, and what interrupt handlers, `sys_nice`, `fork` and `clone` do to the table. -/
def SchedAction.routine : SchedAction Chan κ → Bool
  | .kill .. | .reap .. | .sleep .. | .exit .. | .setLocks .. => false
  | _ => true

private theorem kept_schedulerStep {c : κ} (step : s.schedulerStep c = some s') (q : Fin nproc) :
    Kept (s.proc q) (s'.proc q) := by
  cases mode : s.cpu c with
  | idle =>
    simp only [Sched.schedulerStep, mode, Option.ite_none_right_eq_some, Option.some.injEq] at step
    obtain ⟨_, rfl⟩ := step
    exact .refl _
  | find i =>
    have kept := kept_findminnice s.proc q
    simp only [Sched.schedulerStep, mode] at step
    generalize findminnice s.proc = found at step kept
    cases step
    exact kept
  | scan i minnice =>
    simp only [Sched.schedulerStep, mode] at step
    split_ifs at step <;> cases step
    · exact .refl _
    · refine kept_update ?_ q
      exact ⟨by rintro ⟨⟩, by rintro ⟨⟩, .inl rfl⟩
    · exact .refl _
  | run p => simp [Sched.schedulerStep, mode] at step

theorem Sched.step_kept (inv : SchedInv s) {a : SchedAction Chan κ} (routine : a.routine = true)
    (step : s.step kernelChannels a = some s') (q : Fin nproc) : Kept (s.proc q) (s'.proc q) := by
  have awake {c : κ} {p : Fin nproc} (run : s.cpu c = .run p) : (s.proc p).state ≠ .sleeping := by
    rw [inv.running c p run]
    rintro ⟨⟩
  cases a <;> simp only [Sched.step] at step <;> try cases routine
  case scheduler c => exact kept_schedulerStep step q
  case acquire c =>
    split_ifs at step
    cases step
    exact .refl _
  case release c =>
    split_ifs at step
    cases step
    exact .refl _
  case wakeup c chan =>
    rw [Sched.underLock] at step
    split_ifs at step
    cases step
    exact kept_wakeup1 s.proc chan q
  case notify c =>
    rw [Sched.underLock] at step
    split_ifs at step
    cases step
    exact kept_sleepProcNotify s.proc _ q
  case allocproc c =>
    obtain ⟨p, run, held, step⟩ := Sched.inKernel_eq_some step
    cases step
    simp only [Sched.allocproc]
    split
    · exact .refl _
    · rename_i np found
      have unused := List.find?_some found
      simp only [decide_eq_true_eq] at unused
      refine kept_update ?_ q
      exact ⟨by rintro ⟨⟩, fun _ => by rw [unused]; rfl, .inl rfl⟩
  case setRunnable c np =>
    obtain ⟨p, run, held, step⟩ := Sched.inKernel_eq_some step
    split_ifs at step
    cases step
    refine kept_update ?_ q
    exact ⟨by rintro ⟨⟩, by rintro ⟨⟩, .inl rfl⟩
  case yield c =>
    obtain ⟨p, run, held, step⟩ := Sched.inKernel_eq_some step
    cases step
    refine kept_update ?_ q
    exact ⟨by rintro ⟨⟩, by rintro ⟨⟩, .inl rfl⟩
  case clearChan c =>
    obtain ⟨p, run, held, step⟩ := Sched.inKernel_eq_some step
    cases step
    refine kept_update ?_ q
    exact ⟨fun asleep => (awake run asleep).elim, id, .inl rfl⟩
  case nice c inc =>
    obtain ⟨p, run, step⟩ := Sched.inProcess_eq_some step
    cases step
    refine kept_update ?_ q
    exact ⟨fun asleep => ⟨asleep, rfl⟩, id, .inl rfl⟩
  case setSleepticks c ticks =>
    obtain ⟨p, run, step⟩ := Sched.inProcess_eq_some step
    cases step
    refine kept_update ?_ q
    exact ⟨fun asleep => ⟨asleep, rfl⟩, id, .inl rfl⟩
  case initProc c np =>
    obtain ⟨p, run, step⟩ := Sched.inProcess_eq_some step
    split_ifs at step with embryo
    cases step
    refine kept_update ?_ q
    exact ⟨fun asleep => ⟨asleep, rfl⟩, id, .inr ⟨by rw [embryo]; rfl, rfl⟩⟩
  case setParent c np =>
    obtain ⟨p, run, step⟩ := Sched.inProcess_eq_some step
    split_ifs at step
    cases step
    refine kept_update ?_ q
    exact ⟨fun asleep => ⟨asleep, rfl⟩, id, .inl rfl⟩
  case freeProc c np =>
    obtain ⟨p, run, step⟩ := Sched.inProcess_eq_some step
    split_ifs at step with embryo
    cases step
    refine kept_update ?_ q
    exact ⟨by rintro ⟨⟩, fun _ => by rw [embryo]; rfl, .inl rfl⟩

end Kept

/-- What holds between any two steps of a run whose mutexes lie apart. -/
structure MutexInv {κ : Type} (s : Kernel κ) : Prop where
  sched : SchedInv s.sched
  asleep : ∀ q, (s.sched.proc q).state = .sleeping →
    (∃ m, s.pc q = .acqAsleep m (s.sched.proc q).chan) ∨ s.pc q = .asleep ∧ ∃ id, (s.sched.proc q).chan = .object id
  fresh : ∀ q, (s.sched.proc q).state.fresh = true → s.holds q = []
  locks : ∀ q chan, chan ∈ (s.sched.proc q).locksHeld ↔ ∃ m ∈ s.holds q, chanOf m = chan
  locks_nodup : ∀ q, (s.sched.proc q).locksHeld.Nodup
  holds_nodup : ∀ q, (s.holds q).Nodup
  holder : ∀ q r m, m ∈ s.holds q → m ∈ s.holds r → q = r
  locked : ∀ q, ∀ m ∈ s.holds q, s.locked m = true
  apart : ∀ q, ∀ m ∈ s.used q, s.Apart m
  call : ∀ q m chan, (s.pc q).call = some (m, chan) → chan = chanOf m
  free : ∀ q m chan, s.pc q = .acqSet m chan → s.locked m = false
  gives : ∀ q m, (s.pc q).gives = some m → m ∈ s.holds q
  spin : ∀ q m, (s.pc q).inside = some m → s.spin m = true
  alone : Exclusive SysPc.inside s.pc
  space : ∀ q, s.space q < s.nextSpace
  holds_space : ∀ q, ∀ m ∈ s.holds q, m.space < s.nextSpace
  wants_space : ∀ q m, (s.pc q).wants = some m → m.space < s.nextSpace
  inside_space : ∀ q m, (s.pc q).inside = some m → m.space < s.nextSpace

/-- The store of a lock list as a step of the scheduler model. -/
theorem setLocks_lift {κ : Type} [DecidableEq κ] {s : Kernel κ} {c : κ} {p : Fin nproc} (inv : SchedInv s.sched)
    (run : s.sched.cpu c = .run p) (locks : List Chan) :
    s.lift (.setLocks c locks) =
        some { s with sched := s.sched.setProc p { s.sched.proc p with locksHeld := locks } } ∧
      SchedInv (s.sched.setProc p { s.sched.proc p with locksHeld := locks }) := by
  have step : s.sched.step kernelChannels (.setLocks c locks) =
      some (s.sched.setProc p { s.sched.proc p with locksHeld := locks }) := by
    simp only [Sched.step, Sched.inProcess, run]
  refine ⟨?_, inv.step step⟩
  rw [Kernel.lift, step]
  rfl

namespace MutexInv

variable {κ : Type} [DecidableEq κ] {s s' : Kernel κ} {c : κ} {p : Fin nproc}

omit [DecidableEq κ] in
theorem initial (sz : ℕ) (accessed dirty spin locked : ℕ → Bool) :
    MutexInv (Kernel.initial κ sz accessed dirty spin locked) where
  sched := .initial
  asleep q asleep := by
    simp only [Kernel.initial, Sched.initial] at asleep
    split_ifs at asleep
  fresh q _ := rfl
  locks q chan := by simp [Kernel.initial, Sched.initial]
  locks_nodup q := List.nodup_nil
  holds_nodup q := List.nodup_nil
  holder q r m mine := by cases mine
  locked q m mine := by cases mine
  apart q m mine := by cases mine
  call q m chan call := by cases call
  free q m chan free := by cases free
  gives q m gives := by cases gives
  spin q m inside := by cases inside
  alone q r m inside := by cases inside
  space q := Nat.one_pos
  holds_space q m mine := by cases mine
  wants_space q m wants := by cases wants
  inside_space q m inside := by cases inside

omit [DecidableEq κ] in
theorem awake (inv : MutexInv s) (run : s.sched.cpu c = .run p) : (s.sched.proc p).state ≠ .sleeping := by
  rw [inv.sched.running c p run]
  nofun

omit [DecidableEq κ] in
/-- A change of the table that keeps what each process has. -/
theorem kept (inv : MutexInv s) {sched : Sched Chan κ} (schedInv : SchedInv sched)
    (kept : ∀ q, Kept (s.sched.proc q) (sched.proc q)) : MutexInv { s with sched := sched } :=
  { inv with
    sched := schedInv
    asleep := by
      intro q asleep
      obtain ⟨before, chan⟩ := (kept q).asleep asleep
      dsimp only
      rw [chan]
      exact inv.asleep q before
    fresh := by
      intro q fresh
      exact inv.fresh q ((kept q).fresh fresh)
    locks := by
      intro q chan
      dsimp only
      rcases (kept q).locks with same | ⟨fresh, empty⟩
      · rw [same]
        exact inv.locks q chan
      · rw [empty, inv.fresh q fresh]
        simp
    locks_nodup := by
      intro q
      dsimp only
      rcases (kept q).locks with same | ⟨_, empty⟩
      · rw [same]
        exact inv.locks_nodup q
      · rw [empty]
        exact List.nodup_nil }

theorem lift (inv : MutexInv s) {a : SchedAction Chan κ} (routine : a.routine = true)
    (lifted : s.lift a = some s') : ∃ sched, s' = { s with sched := sched } ∧ MutexInv { s with sched := sched } ∧
      ∀ q, (sched.proc q).state = .sleeping → (s.sched.proc q).state = .sleeping := by
  obtain ⟨sched, step, rfl⟩ := Option.map_eq_some_iff.mp lifted
  have kept := Sched.step_kept inv.sched routine step
  exact ⟨sched, rfl, inv.kept (inv.sched.step step) kept, fun q asleep => ((kept q).asleep asleep).1⟩

omit [DecidableEq κ] in
private theorem used_setPc {next : SysPc} {q : Fin nproc} {m : Mutex} (member : m ∈ (s.setPc p next).used q) :
    m ∈ s.used q ∨ q = p ∧ next.wants = some m := by
  simp only [Kernel.used, Kernel.setPc, List.mem_append, Option.mem_toList] at member ⊢
  by_cases eq : q = p
  · subst eq
    rw [Function.update_self] at member
    rcases member with held | wants
    · exact .inl (.inl held)
    · exact .inr ⟨rfl, wants⟩
  · rw [Function.update_of_ne eq] at member
    exact .inl member

omit [DecidableEq κ] in
/-- A process that is not asleep moves to another point of its call; the spinlocks may change too. -/
theorem move (inv : MutexInv s) {next : SysPc} {spin : Mutex → Bool}
    (awake : (s.sched.proc p).state ≠ .sleeping)
    (call : ∀ m chan, next.call = some (m, chan) → chan = chanOf m)
    (wants : ∀ m, next.wants = some m → s.Apart m ∧ m.space < s.nextSpace)
    (free : ∀ m chan, next = .acqSet m chan → s.locked m = false)
    (gives : ∀ m, next.gives = some m → m ∈ s.holds p)
    (spins : ∀ q m, (Function.update s.pc p next q).inside = some m → spin m = true)
    (alone : Exclusive SysPc.inside (Function.update s.pc p next))
    (inside_space : ∀ m, next.inside = some m → m.space < s.nextSpace) :
    MutexInv { s.setPc p next with spin := spin } := by
  have others {q : Fin nproc} (eq : q ≠ p) : (s.setPc p next).pc q = s.pc q := Function.update_of_ne eq ..
  have mine : (s.setPc p next).pc p = next := Function.update_self ..
  have apart (q : Fin nproc) (m : Mutex) (member : m ∈ (s.setPc p next).used q) : s.Apart m := by
    rcases used_setPc member with old | ⟨_, new⟩
    · exact inv.apart q m old
    · exact (wants m new).1
  have together (q : Fin nproc) (m : Mutex) (member : m ∈ (s.setPc p next).used q) (r : Fin nproc)
      (other : Mutex) (theirs : other ∈ (s.setPc p next).used r) (same : other.frame = m.frame) : other = m := by
    rcases used_setPc member with old | ⟨_, new⟩
    · exact ((apart r other theirs).1 q m old same.symm).symm
    · rcases used_setPc theirs with old' | ⟨_, new'⟩
      · exact (wants m new).1.1 r other old' same
      · exact Option.some.inj (new'.symm.trans new)
  exact { inv with
    asleep := by
      intro q asleep
      have eq : q ≠ p := by
        rintro rfl
        exact awake asleep
      dsimp only
      rw [others eq]
      exact inv.asleep q asleep
    apart := fun q m member => ⟨together q m member, (apart q m member).2⟩
    call := by
      intro q m chan
      dsimp only
      by_cases eq : q = p
      · rw [eq, mine]
        exact call m chan
      · rw [others eq]
        exact inv.call q m chan
    free := by
      intro q m chan
      dsimp only
      by_cases eq : q = p
      · rw [eq, mine]
        exact free m chan
      · rw [others eq]
        exact inv.free q m chan
    gives := by
      intro q m
      dsimp only
      by_cases eq : q = p
      · rw [eq, mine]
        exact gives m
      · rw [others eq]
        exact inv.gives q m
    spin := spins
    alone := alone
    wants_space := by
      intro q m
      dsimp only
      by_cases eq : q = p
      · rw [eq, mine]
        exact fun new => (wants m new).2
      · rw [others eq]
        exact inv.wants_space q m
    inside_space := by
      intro q m
      dsimp only
      by_cases eq : q = p
      · rw [eq, mine]
        exact inside_space m
      · rw [others eq]
        exact inv.inside_space q m }

/-- The next point of a call knows no more than the last. -/
structure Follows (old next : SysPc) : Prop where
  call : next.call = none ∨ next.call = old.call
  wants : next.wants = none ∨ next.wants = old.wants
  gives : next.gives = none ∨ next.gives = old.gives

omit [DecidableEq κ] in
theorem follow (inv : MutexInv s) {old next : SysPc} (at_pc : s.pc p = old) (follows : Follows old next)
    (awake : (s.sched.proc p).state ≠ .sleeping)
    (free : ∀ m chan, next = .acqSet m chan → s.locked m = false) {spin : Mutex → Bool}
    (spins : ∀ q m, (Function.update s.pc p next q).inside = some m → spin m = true)
    (alone : Exclusive SysPc.inside (Function.update s.pc p next))
    (inside_space : ∀ m, next.inside = some m → m.space < s.nextSpace) :
    MutexInv { s.setPc p next with spin := spin } := by
  subst at_pc
  refine inv.move awake ?_ ?_ free ?_ spins alone inside_space
  · intro m chan call
    rcases follows.call with none | same
    · rw [none] at call
      cases call
    · exact inv.call p m chan (same.symm.trans call)
  · intro m wants
    rcases follows.wants with none | same
    · rw [none] at wants
      cases wants
    · rw [same] at wants
      refine ⟨inv.apart p m ?_, inv.wants_space p m wants⟩
      exact List.mem_append_right _ (Option.mem_toList.mpr wants)
  · intro m gives
    rcases follows.gives with none | same
    · rw [none] at gives
      cases gives
    · exact inv.gives p m (same.symm.trans gives)

omit [DecidableEq κ] in
/-- A step that neither takes nor frees the spinlock. -/
theorem stay (inv : MutexInv s) {old next : SysPc} (at_pc : s.pc p = old) (follows : Follows old next)
    (awake : (s.sched.proc p).state ≠ .sleeping)
    (free : ∀ m chan, next = .acqSet m chan → s.locked m = false) (same : next.inside = old.inside) :
    MutexInv (s.setPc p next) := by
  have inside (q : Fin nproc) : (Function.update s.pc p next q).inside = (s.pc q).inside :=
    apply_update_of_eq SysPc.inside (by rw [at_pc]; exact same) q
  refine inv.follow at_pc follows awake free ?_ ?_ ?_
  · intro q m
    rw [inside]
    exact inv.spin q m
  · intro q r m
    rw [inside, inside]
    exact inv.alone q r m
  · intro m
    rw [same, ← at_pc]
    exact inv.inside_space p m

omit [DecidableEq κ] in
theorem enter (inv : MutexInv s) {old next : SysPc} (at_pc : s.pc p = old) (follows : Follows old next)
    (awake : (s.sched.proc p).state ≠ .sleeping) {m : Mutex} (inside : next.inside = some m)
    (free : s.spin m = false) (space : m.space < s.nextSpace)
    (unset : ∀ m chan, next ≠ .acqSet m chan) : MutexInv ((s.setSpin m true).setPc p next) := by
  refine inv.follow at_pc follows awake (fun m chan set => (unset m chan set).elim) ?_ ?_ ?_
  · intro q other
    simp only [Kernel.setSpin]
    by_cases eq : other = m
    · rw [eq]
      exact fun _ => Function.update_self ..
    · rw [Function.update_of_ne eq]
      by_cases own : q = p
      · rw [own, Function.update_self, inside]
        exact fun same => (eq (Option.some.inj same).symm).elim
      · rw [Function.update_of_ne own]
        exact inv.spin q other
  · apply inv.alone.update
    intro q other _ mine theirs
    obtain rfl := Option.some.inj (inside.symm.trans mine)
    rw [inv.spin q m theirs] at free
    cases free
  · intro other mine
    obtain rfl := Option.some.inj (inside.symm.trans mine)
    exact space

omit [DecidableEq κ] in
theorem leave (inv : MutexInv s) {old next : SysPc} (at_pc : s.pc p = old) (follows : Follows old next)
    (awake : (s.sched.proc p).state ≠ .sleeping) {m : Mutex} (inside : old.inside = some m)
    (outside : next.inside = none) : MutexInv ((s.setSpin m false).setPc p next) := by
  have none_inside (m : Mutex) : next.inside ≠ some m := by
    rw [outside]
    nofun
  refine inv.follow at_pc follows awake ?_ ?_ ?_ (fun m mine => (none_inside m mine).elim)
  · rintro other chan rfl
    cases outside
  · intro q other mine
    have own : q ≠ p := by
      rintro rfl
      rw [Function.update_self] at mine
      exact none_inside other mine
    rw [Function.update_of_ne own] at mine
    have apart : other ≠ m := by
      rintro rfl
      exact own (inv.alone q p other mine (by rw [at_pc]; exact inside))
    simp only [Kernel.setSpin, Function.update_of_ne apart]
    exact inv.spin q other mine
  · apply inv.alone.update
    intro q other _ mine
    exact (none_inside other mine).elim

omit [DecidableEq κ] in
/-- Pages are touched, and address spaces appear. -/
theorem redraw (inv : MutexInv s) {space : Fin nproc → ℕ} {nextSpace : ℕ} {sz : ℕ → ℕ}
    {accessed dirty : Frame → Bool} {spin locked : Mutex → Bool}
    (spaces : ∀ q, space q < nextSpace) (grows : s.nextSpace ≤ nextSpace)
    (bits : ∀ frame, frame.space < s.nextSpace →
      (s.accessed frame = true → accessed frame = true) ∧ (s.dirty frame = true → dirty frame = true))
    (words : ∀ m, m.space < s.nextSpace → spin m = s.spin m ∧ locked m = s.locked m) :
    MutexInv { s with
      space := space, nextSpace := nextSpace, sz := sz, accessed := accessed, dirty := dirty, spin := spin,
      locked := locked } :=
  { inv with
    locked := by
      intro q m mine
      dsimp only
      rw [(words m (inv.holds_space q m mine)).2]
      exact inv.locked q m mine
    apart := by
      intro q m mine
      have inside : m.frame.space < s.nextSpace := by
        rcases List.mem_append.mp mine with held | wanted
        · exact inv.holds_space q m held
        · exact inv.wants_space q m (Option.mem_toList.mp wanted)
      obtain ⟨alone, accessed, dirty⟩ := inv.apart q m mine
      exact ⟨alone, (bits _ inside).1 accessed, (bits _ inside).2 dirty⟩
    free := by
      intro q m chan set
      dsimp only at set ⊢
      rw [(words m (inv.wants_space q m (by rw [set]; rfl))).2]
      exact inv.free q m chan set
    spin := by
      intro q m mine
      dsimp only at mine ⊢
      rw [(words m (inv.inside_space q m mine)).1]
      exact inv.spin q m mine
    space := spaces
    holds_space := fun q m mine => (inv.holds_space q m mine).trans_le grows
    wants_space := fun q m mine => (inv.wants_space q m mine).trans_le grows
    inside_space := fun q m mine => (inv.inside_space q m mine).trans_le grows }

omit [DecidableEq κ] in
theorem store (inv : MutexInv s) (frame : Frame) : MutexInv (s.store frame) := by
  refine inv.redraw inv.space le_rfl ?_ fun _ _ => ⟨rfl, rfl⟩
  intro other _
  simp only [Function.update_apply]
  constructor
  · intro set
    rw [set]
    exact ite_self _
  · intro set
    rw [set]
    exact ite_self _

/-- What the change of one lock list and one mutex word has to keep. -/
structure Exchange (s : Kernel κ) (p : Fin nproc) (m : Mutex) (locks : List Chan) (holds : List Mutex)
    (flag : Bool) : Prop where
  locks_iff : ∀ chan, chan ∈ locks ↔ ∃ m ∈ holds, chanOf m = chan
  locks_nodup : locks.Nodup
  holds_nodup : holds.Nodup
  others : ∀ other, other ≠ m → (other ∈ holds ↔ other ∈ s.holds p)
  flag_iff : m ∈ holds ↔ flag = true
  alone : ∀ q, q ≠ p → m ∉ s.holds q
  used : m ∈ s.used p

namespace Exchange

variable {m other : Mutex} {locks : List Chan} {holds : List Mutex} {flag : Bool} {next : SysPc} {q r : Fin nproc}

omit [DecidableEq κ] in
/-- What a process has afterwards it had before, but for the mutex itself. -/
theorem held (exchange : Exchange s p m locks holds flag) (mine : other ∈ Function.update s.holds p holds q) :
    (other = m ∧ q = p ∧ flag = true) ∨ other ≠ m ∧ other ∈ s.holds q := by
  by_cases own : q = p
  · subst own
    rw [Function.update_self] at mine
    by_cases eq : other = m
    · subst eq
      exact .inl ⟨rfl, rfl, exchange.flag_iff.mp mine⟩
    · exact .inr ⟨eq, (exchange.others other eq).mp mine⟩
  · rw [Function.update_of_ne own] at mine
    refine .inr ⟨?_, mine⟩
    rintro rfl
    exact exchange.alone q own mine

omit [DecidableEq κ] in
private theorem used_before (exchange : Exchange s p m locks holds flag) (wants : next.wants = none)
    (mine : other ∈ Function.update s.holds p holds q ++ (Function.update s.pc p next q).wants.toList) :
    other ∈ s.used q := by
  rcases List.mem_append.mp mine with held | wanted
  · rcases exchange.held held with ⟨rfl, rfl, _⟩ | ⟨_, before⟩
    · exact exchange.used
    · exact List.mem_append_left _ before
  · by_cases own : q = p
    · rw [own, Function.update_self, wants] at wanted
      cases wanted
    · rw [Function.update_of_ne own] at wanted
      exact List.mem_append_right _ wanted

omit [DecidableEq κ] in
/-- Every process still lists the channels of its mutexes. -/
theorem lists (exchange : Exchange s p m locks holds flag) (inv : MutexInv s) (q : Fin nproc) :
    let listed := ((s.sched.setProc p { s.sched.proc p with locksHeld := locks }).proc q).locksHeld
    (∀ chan, chan ∈ listed ↔ ∃ m ∈ Function.update s.holds p holds q, chanOf m = chan) ∧ listed.Nodup ∧
      (Function.update s.holds p holds q).Nodup := by
  dsimp only [Sched.setProc]
  by_cases own : q = p
  · subst own
    rw [Function.update_self, Function.update_self]
    exact ⟨exchange.locks_iff, exchange.locks_nodup, exchange.holds_nodup⟩
  · rw [Function.update_of_ne own, Function.update_of_ne own]
    exact ⟨inv.locks q, inv.locks_nodup q, inv.holds_nodup q⟩

omit [DecidableEq κ] in
theorem holder (exchange : Exchange s p m locks holds flag) (inv : MutexInv s)
    (mine : other ∈ Function.update s.holds p holds q) (theirs : other ∈ Function.update s.holds p holds r) :
    q = r := by
  rcases exchange.held mine with ⟨rfl, rfl, _⟩ | ⟨apart, before⟩ <;>
    rcases exchange.held theirs with ⟨eq, rfl, _⟩ | ⟨apart', before'⟩
  · rfl
  · exact (apart' rfl).elim
  · exact (apart eq).elim
  · exact inv.holder q r other before before'

omit [DecidableEq κ] in
theorem locked (exchange : Exchange s p m locks holds flag) (inv : MutexInv s)
    (mine : other ∈ Function.update s.holds p holds q) : Function.update s.locked m flag other = true := by
  rcases exchange.held mine with ⟨rfl, _, set⟩ | ⟨apart, before⟩
  · rw [Function.update_self]
    exact set
  · rw [Function.update_of_ne apart]
    exact inv.locked q other before

omit [DecidableEq κ] in
theorem space (exchange : Exchange s p m locks holds flag) (inv : MutexInv s) (wants : next.wants = none)
    (mine : other ∈ Function.update s.holds p holds q ++ (Function.update s.pc p next q).wants.toList) :
    other.space < s.nextSpace := by
  rcases List.mem_append.mp (exchange.used_before wants mine) with held | wanted
  · exact inv.holds_space q other held
  · exact inv.wants_space q other (Option.mem_toList.mp wanted)

end Exchange

omit [DecidableEq κ] in
/-- A process that has the spinlock changes the mutex word, its lock list and its mutexes. -/
theorem exchange (inv : MutexInv s) (run : s.sched.cpu c = .run p) {old next : SysPc} {m : Mutex} {locks : List Chan}
    {holds : List Mutex} {flag : Bool} (at_pc : s.pc p = old) (inside : old.inside = some m)
    (same : next.inside = some m) (call : next.call = none ∨ next.call = old.call) (wants : next.wants = none)
    (gives : next.gives = none) (exchange : Exchange s p m locks holds flag)
    (schedInv : SchedInv (s.sched.setProc p { s.sched.proc p with locksHeld := locks })) :
    MutexInv { s.setPc p next with
      sched := s.sched.setProc p { s.sched.proc p with locksHeld := locks }
      locked := Function.update s.locked m flag
      holds := Function.update s.holds p holds } := by
  have othersProc {q : Fin nproc} (eq : q ≠ p) :
      (s.sched.setProc p { s.sched.proc p with locksHeld := locks }).proc q = s.sched.proc q :=
    Function.update_of_ne eq ..
  have mineProc : (s.sched.setProc p { s.sched.proc p with locksHeld := locks }).proc p =
      { s.sched.proc p with locksHeld := locks } := Function.update_self ..
  have labels (q : Fin nproc) : (Function.update s.pc p next q).inside = (s.pc q).inside :=
    apply_update_of_eq SysPc.inside (by rw [at_pc, inside, same]) q
  exact
  { sched := schedInv
    asleep := by
      intro q asleep
      dsimp only [Kernel.setPc] at asleep ⊢
      by_cases own : q = p
      · rw [own, mineProc] at asleep
        exact (inv.awake run asleep).elim
      · rw [othersProc own] at asleep ⊢
        rw [Function.update_of_ne own]
        exact inv.asleep q asleep
    fresh := by
      intro q fresh
      dsimp only [Kernel.setPc] at fresh ⊢
      by_cases own : q = p
      · rw [own, mineProc] at fresh
        dsimp only at fresh
        rw [inv.sched.running c p run] at fresh
        cases fresh
      · rw [othersProc own] at fresh
        rw [Function.update_of_ne own]
        exact inv.fresh q fresh
    locks := fun q => (exchange.lists inv q).1
    locks_nodup := fun q => (exchange.lists inv q).2.1
    holds_nodup := fun q => (exchange.lists inv q).2.2
    holder := fun _ _ _ mine theirs => exchange.holder inv mine theirs
    locked := fun _ _ mine => exchange.locked inv mine
    apart := by
      intro q other mine
      obtain ⟨alone, bits⟩ := inv.apart q other (exchange.used_before wants mine)
      exact ⟨fun r third theirs => alone r third (exchange.used_before wants theirs), bits⟩
    call := by
      intro q other chan
      dsimp only [Kernel.setPc]
      by_cases own : q = p
      · rw [own, Function.update_self]
        intro called
        rcases call with none | same
        · rw [none] at called
          cases called
        · exact inv.call p other chan (by rw [at_pc, ← same]; exact called)
      · rw [Function.update_of_ne own]
        exact inv.call q other chan
    free := by
      intro q other chan set
      dsimp only [Kernel.setPc] at set ⊢
      have own : q ≠ p := by
        rintro rfl
        rw [Function.update_self] at set
        rw [set] at wants
        cases wants
      rw [Function.update_of_ne own] at set
      have apart : other ≠ m := by
        rintro rfl
        exact own (inv.alone q p other (by rw [set]; rfl) (by rw [at_pc]; exact inside))
      rw [Function.update_of_ne apart]
      exact inv.free q other chan set
    gives := by
      intro q other giving
      dsimp only [Kernel.setPc] at giving ⊢
      have own : q ≠ p := by
        rintro rfl
        rw [Function.update_self, gives] at giving
        cases giving
      rw [Function.update_of_ne own] at giving ⊢
      exact inv.gives q other giving
    spin := by
      intro q other
      dsimp only [Kernel.setPc]
      rw [labels]
      exact inv.spin q other
    alone := by
      intro q r other
      dsimp only [Kernel.setPc]
      rw [labels, labels]
      exact inv.alone q r other
    space := inv.space
    holds_space := fun _ _ mine => exchange.space inv wants (List.mem_append_left _ mine)
    wants_space := fun _ _ wanted => exchange.space inv wants (List.mem_append_right _ (Option.mem_toList.mpr wanted))
    inside_space := by
      intro q other
      dsimp only [Kernel.setPc]
      rw [labels]
      exact inv.inside_space q other }

omit [DecidableEq κ] in
private theorem chanOf_inj (inv : MutexInv s) {q r : Fin nproc} {m other : Mutex} (mine : m ∈ s.used q)
    (theirs : other ∈ s.used r) (same : chanOf other = chanOf m) : other = m := by
  refine (inv.apart q m mine).1 r other theirs ?_
  simpa [chanOf] using same

omit [DecidableEq κ] in
private theorem exchange_acquire (inv : MutexInv s) {m : Mutex} {chan : Chan} (at_pc : s.pc p = .acqSet m chan) :
    Exchange s p m ((s.sched.proc p).locksHeld ++ [chan]) (s.holds p ++ [m]) true := by
  have free := inv.free p m chan at_pc
  have unheld (q : Fin nproc) : m ∉ s.holds q := by
    intro held
    rw [inv.locked q m held] at free
    cases free
  have used : m ∈ s.used p := by
    rw [Kernel.used, at_pc]
    exact List.mem_append_right _ (List.mem_singleton_self m)
  obtain rfl := inv.call p m chan (by rw [at_pc]; rfl)
  have unlisted : chanOf m ∉ (s.sched.proc p).locksHeld := by
    intro listed
    obtain ⟨other, held, same⟩ := (inv.locks p _).mp listed
    obtain rfl := inv.chanOf_inj used (List.mem_append_left _ held) same
    exact unheld p held
  exact
  { locks_iff := by
      intro chan
      simp only [List.mem_append, List.mem_singleton, inv.locks p chan, or_and_right, exists_or,
        exists_eq_left]
      rw [eq_comm (a := chan)]
    locks_nodup := by
      rw [List.nodup_append']
      exact ⟨inv.locks_nodup p, List.nodup_singleton _, by simpa using unlisted⟩
    holds_nodup := by
      rw [List.nodup_append']
      exact ⟨inv.holds_nodup p, List.nodup_singleton _, by simpa using unheld p⟩
    others := by
      intro other apart
      simp [apart]
    flag_iff := by simp
    alone := fun q _ => unheld q
    used := used }

omit [DecidableEq κ] in
private theorem exchange_release (inv : MutexInv s) {m : Mutex} {chan : Chan} (at_pc : s.pc p = .relRemove m chan) :
    Exchange s p m (removeLock chan (s.sched.proc p).locksHeld) ((s.holds p).erase m) false := by
  have held := inv.gives p m (by rw [at_pc]; rfl)
  have used : m ∈ s.used p := List.mem_append_left _ held
  obtain rfl := inv.call p m chan (by rw [at_pc]; rfl)
  have listed := (inv.locks p _).mpr ⟨m, held, rfl⟩
  have perm := removeLock_perm (inv.locks_nodup p) listed
  have nodup := perm.nodup_iff.mpr (inv.locks_nodup p)
  rw [List.nodup_cons] at nodup
  exact
  { locks_iff := by
      intro chan
      constructor
      · intro member
        obtain ⟨other, mine, rfl⟩ := (inv.locks p chan).mp (perm.mem_iff.mp (List.mem_cons_of_mem _ member))
        refine ⟨other, (inv.holds_nodup p).mem_erase_iff.mpr ⟨?_, mine⟩, rfl⟩
        rintro rfl
        exact nodup.1 member
      · rintro ⟨other, member, rfl⟩
        obtain ⟨apart, mine⟩ := (inv.holds_nodup p).mem_erase_iff.mp member
        have before := perm.mem_iff.mpr ((inv.locks p _).mpr ⟨other, mine, rfl⟩)
        rcases List.mem_cons.mp before with same | after
        · exact (apart (inv.chanOf_inj used (List.mem_append_left _ mine) same)).elim
        · exact after
    locks_nodup := nodup.2
    holds_nodup := (inv.holds_nodup p).erase m
    others := by
      intro other apart
      rw [(inv.holds_nodup p).mem_erase_iff]
      exact and_iff_right apart
    flag_iff := by
      rw [(inv.holds_nodup p).mem_erase_iff]
      simp
    alone := fun q apart theirs => apart (inv.holder q p m theirs held)
    used := used }

/-- A running process goes to sleep at a point of its call that says what it waits for. -/
theorem sleep (inv : MutexInv s) (run : s.sched.cpu c = .run p) {chan : Chan}
    (waits : (∃ m, s.pc p = .acqAsleep m chan) ∨ s.pc p = .asleep ∧ ∃ id, chan = .object id)
    (lifted : s.lift (.sleep c chan) = some s') : MutexInv s' := by
  obtain ⟨sched, step, rfl⟩ := Option.map_eq_some_iff.mp lifted
  have schedInv := inv.sched.step step
  simp only [Sched.step] at step
  obtain ⟨q, run', held, step⟩ := Sched.inKernel_eq_some step
  obtain rfl : p = q := by
    rw [run] at run'
    exact CpuMode.run.inj run'
  cases step
  have others {q : Fin nproc} (eq : q ≠ p) : (s.sched.sched c p { s.sched.proc p with
      chan := chan, state := .sleeping }).proc q = s.sched.proc q := Function.update_of_ne eq ..
  have mine : (s.sched.sched c p { s.sched.proc p with chan := chan, state := .sleeping }).proc p =
      { s.sched.proc p with chan := chan, state := .sleeping } := Function.update_self ..
  exact { inv with
    sched := schedInv
    asleep := by
      intro q asleep
      dsimp only at asleep ⊢
      by_cases own : q = p
      · rw [own, mine]
        exact waits
      · rw [others own] at asleep ⊢
        exact inv.asleep q asleep
    fresh := by
      intro q fresh
      dsimp only at fresh ⊢
      by_cases own : q = p
      · rw [own, mine] at fresh
        cases fresh
      · rw [others own] at fresh
        exact inv.fresh q fresh
    locks := by
      intro q chan
      dsimp only
      by_cases own : q = p
      · rw [own, mine]
        exact inv.locks p chan
      · rw [others own]
        exact inv.locks q chan
    locks_nodup := by
      intro q
      dsimp only
      by_cases own : q = p
      · rw [own, mine]
        exact inv.locks_nodup p
      · rw [others own]
        exact inv.locks_nodup q }

theorem lockMutex (inv : MutexInv s) (run : s.sched.cpu c = .run p) {old next : SysPc} {m : Mutex}
    (step : s.lockMutex c p m next = some s') (at_pc : s.pc p = old) (follows : Follows old next)
    (inside : next.inside = some m) (space : m.space < s.nextSpace)
    (unset : ∀ m chan, next ≠ .acqSet m chan) : MutexInv s' := by
  rw [Kernel.lockMutex] at step
  split_ifs at step with free
  cases step
  exact (inv.enter at_pc follows (inv.awake run) inside free.2 space unset).store m.frame

/-- A step of the scheduler model, and the call goes on. -/
theorem liftStay (inv : MutexInv s) (run : s.sched.cpu c = .run p) {a : SchedAction Chan κ}
    {old next : SysPc} (step : (s.lift a).map (·.setPc p next) = some s') (routine : a.routine = true)
    (at_pc : s.pc p = old) (follows : Follows old next) (unset : ∀ m chan, next ≠ .acqSet m chan)
    (same : next.inside = old.inside) : MutexInv s' := by
  obtain ⟨mid, lifted, rfl⟩ := Option.map_eq_some_iff.mp step
  obtain ⟨sched, rfl, midInv, asleep⟩ := inv.lift routine lifted
  refine midInv.stay at_pc follows ?_ (fun m chan set => (unset m chan set).elim) same
  exact fun sleeping => inv.awake run (asleep p sleeping)

theorem syscallStep (inv : MutexInv s) (run : s.sched.cpu c = .run p) (step : s.syscallStep c p = some s') :
    MutexInv s' := by
  have awake := inv.awake run
  cases at_pc : s.pc p <;> simp only [Kernel.syscallStep, at_pc, Option.some.injEq, reduceCtorEq] at step
  case acqLock m chan =>
    have space := inv.wants_space p m (by rw [at_pc]; rfl)
    exact inv.lockMutex run step at_pc ⟨.inr rfl, .inr rfl, .inl rfl⟩ rfl space nofun
  case acqTest m chan =>
    subst step
    split_ifs with locked
    · exact inv.stay at_pc ⟨.inr rfl, .inr rfl, .inl rfl⟩ awake nofun rfl
    · refine inv.stay at_pc ⟨.inr rfl, .inr rfl, .inl rfl⟩ awake ?_ rfl
      rintro m chan ⟨⟩
      exact Bool.eq_false_of_not_eq_true locked
  case acqSet m chan =>
    obtain ⟨lifted, schedInv⟩ := setLocks_lift inv.sched run ((s.sched.proc p).locksHeld ++ [chan])
    rw [lifted] at step
    cases step
    exact inv.exchange run at_pc rfl rfl (.inl rfl) rfl rfl (inv.exchange_acquire at_pc) schedInv
  case acqDone m =>
    subst step
    exact inv.leave at_pc ⟨.inl rfl, .inl rfl, .inl rfl⟩ awake rfl rfl
  case acqSleep m chan => exact inv.liftStay run step rfl at_pc ⟨.inr rfl, .inr rfl, .inl rfl⟩ nofun rfl
  case acqUnlock m chan =>
    subst step
    refine inv.leave at_pc ?_ awake rfl rfl
    exact ⟨.inr rfl, .inr rfl, .inl rfl⟩
  case acqSched m chan =>
    obtain ⟨mid, lifted, rfl⟩ := Option.map_eq_some_iff.mp step
    obtain ⟨sched, stepped, rfl⟩ := Option.map_eq_some_iff.mp lifted
    have moved : MutexInv (s.setPc p (.acqAsleep m chan)) :=
      inv.stay at_pc ⟨.inr rfl, .inr rfl, .inl rfl⟩ awake nofun rfl
    have at_sleep : (s.setPc p (.acqAsleep m chan)).pc p = .acqAsleep m chan := Function.update_self ..
    refine moved.sleep run (.inl ⟨m, at_sleep⟩) ?_
    exact Option.map_eq_some_iff.mpr ⟨sched, stepped, rfl⟩
  case acqAsleep m chan => exact inv.liftStay run step rfl at_pc ⟨.inr rfl, .inr rfl, .inl rfl⟩ nofun rfl
  case acqWoken m chan => exact inv.liftStay run step rfl at_pc ⟨.inr rfl, .inr rfl, .inl rfl⟩ nofun rfl
  case relLock m chan =>
    have held := inv.gives p m (by rw [at_pc]; rfl)
    have space := inv.holds_space p m held
    exact inv.lockMutex run step at_pc ⟨.inr rfl, .inl rfl, .inr rfl⟩ rfl space nofun
  case relRemove m chan =>
    obtain ⟨lifted, schedInv⟩ := setLocks_lift inv.sched run (removeLock chan (s.sched.proc p).locksHeld)
    rw [lifted] at step
    cases step
    exact inv.exchange run at_pc rfl rfl (.inr rfl) rfl rfl (inv.exchange_release at_pc) schedInv
  case relWakeup m chan => exact inv.liftStay run step rfl at_pc ⟨.inr rfl, .inl rfl, .inl rfl⟩ nofun rfl
  case relWake1 m chan => exact inv.liftStay run step rfl at_pc ⟨.inr rfl, .inl rfl, .inl rfl⟩ nofun rfl
  case relUnlock m chan => exact inv.liftStay run step rfl at_pc ⟨.inl rfl, .inl rfl, .inl rfl⟩ nofun rfl
  case relDone m =>
    subst step
    exact inv.leave at_pc ⟨.inl rfl, .inl rfl, .inl rfl⟩ awake rfl rfl

omit [DecidableEq κ] in
/-- Entry of a mutex call: with the page written, the entry read is the channel of the mutex. -/
theorem callMutex (inv : MutexInv s) (run : s.sched.cpu c = .run p) (at_pc : s.pc p = .user) {va : ℕ}
    {next : Mutex → Chan → SysPc}
    (bits : s.argptr ⟨s.space p, va⟩ = true →
      s.accessed (Mutex.frame ⟨s.space p, va⟩) = true ∧ s.dirty (Mutex.frame ⟨s.space p, va⟩) = true)
    (call : ∀ m chan, (next m chan).call = some (m, chan))
    (wants : ∀ m chan, s.argptr m = true → m = ⟨s.space p, va⟩ → (next m chan).wants = none ∨
      (next m chan).wants = some m ∧ s.Apart m)
    (gives : ∀ m chan, m = ⟨s.space p, va⟩ → (next m chan).gives = none ∨ m ∈ s.holds p ∧
      (next m chan).gives = some m)
    (inside : ∀ m chan, (next m chan).inside = none) : MutexInv (s.callMutex p va next) := by
  simp only [Kernel.callMutex]
  split_ifs with fits
  · have label : (next ⟨s.space p, va⟩ (.v2p (s.pte ⟨s.space p, va⟩))).inside = (s.pc p).inside := by
      rw [inside, at_pc]
      rfl
    have labels (q : Fin nproc) := apply_update_of_eq SysPc.inside label q
    refine inv.move (inv.awake run) ?_ ?_ ?_ ?_ ?_ ?_ ?_
    · intro m chan called
      rw [call] at called
      cases called
      rw [chanOf, Kernel.pte, (bits fits).1, (bits fits).2]
    · intro m wanted
      rcases wants _ (.v2p (s.pte ⟨s.space p, va⟩)) fits rfl with none | ⟨some, apart⟩
      · rw [none] at wanted
        cases wanted
      · rw [some] at wanted
        cases wanted
        exact ⟨apart, inv.space p⟩
    · intro m chan set
      have := inside ⟨s.space p, va⟩ (.v2p (s.pte ⟨s.space p, va⟩))
      rw [set] at this
      cases this
    · intro m giving
      rcases gives _ (.v2p (s.pte ⟨s.space p, va⟩)) rfl with none | ⟨held, some⟩
      · rw [none] at giving
        cases giving
      · rw [some] at giving
        cases giving
        exact held
    · intro q m
      rw [labels]
      exact inv.spin q m
    · intro q r m
      rw [labels, labels]
      exact inv.alone q r m
    · intro m
      rw [inside]
      nofun
  · exact inv

theorem inUser_eq_some {change : Fin nproc → Option (Kernel κ)} (step : s.inUser c change = some s') :
    ∃ p, s.sched.cpu c = .run p ∧ s.pc p = .user ∧ change p = some s' := by
  cases mode : s.sched.cpu c <;> simp only [Kernel.inUser, mode, reduceCtorEq] at step
  case run p =>
    split_ifs at step with user
    exact ⟨p, rfl, user.1, step⟩

theorem lifted (inv : MutexInv s) {a : SchedAction Chan κ} (lifted : s.lift a = some s')
    (routine : a.routine = true) : MutexInv s' := by
  obtain ⟨sched, rfl, next, _⟩ := inv.lift routine lifted
  exact next

omit [DecidableEq κ] in
theorem copyuvm (inv : MutexInv s) (p np : Fin nproc) (spin locked : ℕ → Bool) :
    MutexInv (s.copyuvm p np spin locked) := by
  refine inv.redraw ?_ (Nat.le_succ _) ?_ ?_
  · intro q
    by_cases own : q = np
    · rw [own, Function.update_self]
      exact Nat.lt_succ_self _
    · rw [Function.update_of_ne own]
      exact (inv.space q).trans (Nat.lt_succ_self _)
  · intro frame old
    simp only [if_neg (Nat.ne_of_lt old)]
    exact ⟨id, id⟩
  · intro m old
    simp only [if_neg (Nat.ne_of_lt old)]
    exact ⟨trivial, trivial⟩

omit [DecidableEq κ] in
theorem shareuvm (inv : MutexInv s) (p np : Fin nproc) :
    MutexInv { s with space := Function.update s.space np (s.space p) } := by
  refine inv.redraw ?_ le_rfl (fun _ _ => ⟨id, id⟩) fun _ _ => ⟨rfl, rfl⟩
  intro q
  by_cases own : q = np
  · rw [own, Function.update_self]
    exact inv.space p
  · rw [Function.update_of_ne own]
    exact inv.space q

omit [DecidableEq κ] in
theorem touch (inv : MutexInv s) (frame : Frame) :
    MutexInv { s with accessed := Function.update s.accessed frame true } := by
  refine inv.redraw inv.space le_rfl ?_ fun _ _ => ⟨rfl, rfl⟩
  intro other _
  simp only [Function.update_apply]
  refine ⟨?_, id⟩
  intro set
  rw [set]
  exact ite_self _

theorem step (inv : MutexInv s) {a : KernelAction κ} (separate : s.Separate a) (step : s.step a = some s') :
    MutexInv s' := by
  cases a <;> simp only [Kernel.step] at step
  case scheduler c => exact inv.lifted step rfl
  case syscall c =>
    split at step
    · rename_i p run
      exact inv.syscallStep run step
    · cases step
  case macquire c va =>
    obtain ⟨p, run, user, step⟩ := inUser_eq_some step
    cases step
    refine inv.callMutex run user (fun fits => (separate.2 p run fits).2) (fun _ _ => rfl) ?_
      (fun _ _ _ => .inl rfl) (fun _ _ => rfl)
    rintro m chan fits rfl
    exact .inr ⟨rfl, separate.2 p run fits⟩
  case mrelease c va =>
    obtain ⟨p, run, user, step⟩ := inUser_eq_some step
    cases step
    have held := separate.1 p run
    have apart := inv.apart p _ (List.mem_append_left _ held)
    refine inv.callMutex run user (fun _ => apart.2) (fun _ _ => rfl) (fun _ _ _ _ => .inl rfl) ?_
      (fun _ _ => rfl)
    rintro m chan rfl
    exact .inr ⟨held, rfl⟩
  case nice c inc =>
    obtain ⟨p, run, user, step⟩ := inUser_eq_some step
    exact inv.lifted step rfl
  case acquire c =>
    split_ifs at step
    exact inv.lifted step rfl
  case release c =>
    split_ifs at step
    exact inv.lifted step rfl
  case yield c =>
    split_ifs at step
    exact inv.lifted step rfl
  case sleep c object =>
    split at step
    · rename_i p run
      split_ifs at step with user
      obtain ⟨mid, lifted, rfl⟩ := Option.map_eq_some_iff.mp step
      obtain ⟨sched, stepped, rfl⟩ := Option.map_eq_some_iff.mp lifted
      have moved : MutexInv (s.setPc p .asleep) :=
        inv.stay user ⟨.inl rfl, .inl rfl, .inl rfl⟩ (inv.awake run) nofun rfl
      have at_sleep : (s.setPc p .asleep).pc p = .asleep := Function.update_self ..
      refine moved.sleep run (.inr ⟨at_sleep, object, rfl⟩) ?_
      exact Option.map_eq_some_iff.mpr ⟨sched, stepped, rfl⟩
    · cases step
  case woken c =>
    split at step
    · rename_i p run
      split_ifs at step with asleep
      exact inv.liftStay run step rfl asleep ⟨.inl rfl, .inl rfl, .inl rfl⟩ nofun rfl
    · cases step
  case wakeup c object =>
    split_ifs at step
    exact inv.lifted step rfl
  case notify c =>
    split_ifs at step
    exact inv.lifted step rfl
  case touch c page write =>
    obtain ⟨p, run, user, step⟩ := inUser_eq_some step
    cases step
    split_ifs
    · exact inv.store _
    · exact inv.touch _
  case allocproc c =>
    split_ifs at step
    exact inv.lifted step rfl
  case initProc c np =>
    obtain ⟨p, run, user, step⟩ := inUser_eq_some step
    exact inv.lifted step rfl
  case copyuvm c np spin locked =>
    obtain ⟨p, run, user, step⟩ := inUser_eq_some step
    split_ifs at step
    cases step
    exact inv.copyuvm p np spin locked
  case shareuvm c np =>
    obtain ⟨p, run, user, step⟩ := inUser_eq_some step
    split_ifs at step
    cases step
    exact inv.shareuvm p np
  case setParent c np =>
    obtain ⟨p, run, user, step⟩ := inUser_eq_some step
    exact inv.lifted step rfl
  case freeProc c np =>
    obtain ⟨p, run, user, step⟩ := inUser_eq_some step
    exact inv.lifted step rfl
  case setRunnable c np =>
    split_ifs at step
    exact inv.lifted step rfl

theorem of_reachable (reached : (kernelMachine κ).ReachableBy Kernel.Separate s) : MutexInv s := by
  apply reached.invariant
  · rintro s ⟨sz, accessed, dirty, spin, locked, rfl⟩
    exact .initial sz accessed dirty spin locked
  · intro s a t separate step inv
    exact inv.step separate step

omit [DecidableEq κ] in
/-- The channels the scheduler compares name the mutexes. -/
private theorem waits_iff (inv : MutexInv s) (p q : Fin nproc) :
    Waits s.sched.proc p q ↔ ∃ m ∈ s.holds p, s.waitsFor q = some m := by
  constructor
  · rintro ⟨asleep, listed⟩
    obtain ⟨m, held, same⟩ := (inv.locks p _).mp listed
    rcases inv.asleep q asleep with ⟨other, at_pc⟩ | ⟨_, id, object⟩
    · refine ⟨m, held, ?_⟩
      have call := inv.call q other _ (by rw [at_pc]; rfl)
      have wanted : other ∈ s.used q := by
        rw [Kernel.used, at_pc]
        exact List.mem_append_right _ (List.mem_singleton_self other)
      have eq := inv.chanOf_inj (List.mem_append_left _ held) wanted (call.symm.trans same.symm)
      simp only [Kernel.waitsFor, asleep, at_pc, eq]
    · rw [object] at same
      cases same
  · rintro ⟨m, held, waits⟩
    simp only [Kernel.waitsFor] at waits
    split at waits
    · rename_i other chan asleep at_pc
      cases waits
      refine ⟨asleep, (inv.locks p _).mpr ⟨m, held, ?_⟩⟩
      rcases inv.asleep q asleep with ⟨_, at_pc'⟩ | ⟨at_pc', _⟩
      · obtain ⟨rfl, _⟩ := SysPc.acqAsleep.inj (at_pc'.symm.trans at_pc)
        exact (inv.call q _ _ (by rw [at_pc']; rfl)).symm
      · rw [at_pc] at at_pc'
        cases at_pc'
    · cases waits

omit [DecidableEq κ] in
theorem effectiveNice_eq (inv : MutexInv s) (p : Fin nproc) :
    effectiveNice s.sched.proc p = s.inheritedNice p := by
  have waiters : Finset.univ.filter (Waits s.sched.proc p) =
      Finset.univ.filter fun q => ∃ m ∈ s.holds p, s.waitsFor q = some m :=
    Finset.filter_congr fun q _ => inv.waits_iff p q
  simp only [effectiveNice, Kernel.inheritedNice, waiters]

end MutexInv

/-- In every run in which processes hold at most 16 mutexes, release only mutexes they hold, and acquire
only mutexes that lie apart from those in use, `findminnice` stores for every runnable process the least
of its nice value and those of the processes asleep in `sys_macquire` for a mutex it holds. -/
theorem elevated_nice_inherited {κ : Type} [DecidableEq κ] {s : Kernel κ}
    (reached : (kernelMachine κ).ReachableBy Kernel.Separate s) {c : κ} {i : ℕ} {minnice : ℤ}
    (returned : s.sched.cpu c = .scan i minnice) (p : Fin nproc) (runnable : (s.sched.proc p).state = .runnable) :
    (s.sched.proc p).elevatedNice = s.inheritedNice p := by
  have inv := MutexInv.of_reachable reached
  rw [← inv.effectiveNice_eq p]
  exact (inv.sched.scan c i minnice returned).elevated p runnable

namespace Kernel

instance : NeZero nproc := ⟨by decide⟩

/-- A machine with one processor whose first program has two pages, both written, and no mutex locked. -/
def booted : Kernel Unit := .initial Unit 8192 (fun _ => true) (fun _ => true) (fun _ => false) fun _ => false

/-- The first process clones two threads, acquires the first mutex and yields; the second acquires the
second mutex and yields; the third lowers its nice value and waits for the second mutex. -/
def threeThreads (first second : ℕ) : List (KernelAction Unit) :=
  let clone (np : Fin nproc) : List (KernelAction Unit) :=
    [.acquire (), .allocproc (), .release (), .initProc () np, .shareuvm () np, .acquire (), .setRunnable () np,
      .release ()]
  let dispatched : List (KernelAction Unit) := [.scheduler (), .scheduler (), .release ()]
  .scheduler () :: dispatched ++ clone 1 ++ clone 2 ++ .macquire () first :: List.replicate 4 (.syscall ()) ++
    [.acquire (), .yield ()] ++ dispatched ++ .macquire () second :: List.replicate 4 (.syscall ()) ++
    [.acquire (), .yield ()] ++ dispatched ++ [.nice () (-5), .macquire () second] ++
    List.replicate 5 (.syscall ()) ++ [.scheduler ()]

end Kernel

/-- Mutexes in two pages: the holder of the second inherits the nice value of its waiter. -/
theorem elevated_nice_inherited_two_pages : ∃ s : Kernel Unit,
    (kernelMachine Unit).ReachableBy Kernel.Separate s ∧ s.sched.cpu () = .scan 3 (-5) ∧
      (s.sched.proc 1).state = .runnable ∧ s.inheritedNice 1 = -5 := by
  have ran : ((kernelMachine Unit).runBy Kernel.Separate Kernel.booted (Kernel.threeThreads 0 4096)).map
      (fun s => (s.sched.cpu (), (s.sched.proc 1).state, (s.sched.proc 1).elevatedNice)) =
      some (.scan 3 (-5), .runnable, -5) := by decide +kernel
  obtain ⟨s, run, seen⟩ := Option.map_eq_some_iff.mp ran
  simp only [Prod.mk.injEq] at seen
  obtain ⟨returned, runnable, elevated⟩ := seen
  have reached := Machine.reachableBy_of_runBy (m := kernelMachine Unit) ⟨_, _, _, _, _, rfl⟩ _ run
  refine ⟨s, reached, returned, runnable, ?_⟩
  rw [← elevated]
  exact (elevated_nice_inherited reached returned 1 runnable).symm

/-- Mutexes in one page: a waiter for the second mutex boosts the holder of the first, which nobody waits
for. -/
theorem elevated_nice_one_page : ∃ s : Kernel Unit,
    (kernelMachine Unit).ReachableBy Kernel.Disciplined s ∧ s.sched.cpu () = .scan 3 (-5) ∧
      (s.sched.proc 0).state = .runnable ∧ (s.sched.proc 0).elevatedNice = -5 ∧ s.inheritedNice 0 = 0 := by
  have ran : ((kernelMachine Unit).runBy Kernel.Disciplined Kernel.booted (Kernel.threeThreads 0 64)).map
      (fun s => (s.sched.cpu (), (s.sched.proc 0).state, (s.sched.proc 0).elevatedNice, s.inheritedNice 0)) =
      some (.scan 3 (-5), .runnable, -5, 0) := by decide +kernel
  obtain ⟨s, run, seen⟩ := Option.map_eq_some_iff.mp ran
  simp only [Prod.mk.injEq] at seen
  exact ⟨s, Machine.reachableBy_of_runBy (m := kernelMachine Unit) ⟨_, _, _, _, _, rfl⟩ _ run, seen⟩

end Cs537.Xv6
