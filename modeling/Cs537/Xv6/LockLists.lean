import Cs537.Xv6.MutexSafety

/-! # What the lock lists hold

Mutexes of one page have one channel, so a lock list may hold a value several times. The loop of
`sys_mrelease` looks at every position once, except the one it has just overwritten by the last entry:
it takes out one entry exactly if the value occurs at most once before the last position.
-/

namespace Cs537.Xv6

open Lib

section RemoveLock

variable {chan : Chan} {locks : List Chan} {i : ℕ}

private theorem removeLockLoop_of_notMem_drop (absent : chan ∉ locks.drop i) (fuel : ℕ) :
    removeLockLoop chan fuel i locks = locks := by
  induction fuel generalizing i with
  | zero => rfl
  | succ fuel ih =>
    have here : locks[i]? ≠ some chan := by
      intro found
      apply absent
      rw [← Nat.add_zero i, ← List.getElem?_drop] at found
      exact List.mem_of_getElem? found
    rw [removeLockLoop, if_neg here]
    apply ih
    intro later
    rw [← List.drop_drop] at later
    exact absent (List.mem_of_mem_drop later)

private theorem removeLockLoop_length_le (chan : Chan) (fuel i : ℕ) (locks : List Chan) :
    (removeLockLoop chan fuel i locks).length ≤ locks.length := by
  induction fuel generalizing i locks with
  | zero => rfl
  | succ fuel ih =>
    rw [removeLockLoop]
    split_ifs
    · apply (ih _ _).trans
      simp
    · exact ih _ _

/-- A value at the index or behind it is taken out at least once. -/
private theorem removeLockLoop_length_lt {fuel : ℕ} (member : chan ∈ locks.drop i) (enough : locks.length ≤ i + fuel) :
    (removeLockLoop chan fuel i locks).length < locks.length := by
  induction fuel generalizing i with
  | zero => simp [List.drop_eq_nil_of_le (show locks.length ≤ i by omega)] at member
  | succ fuel ih =>
    rw [removeLockLoop]
    split_ifs with here
    · obtain ⟨inside, _⟩ := List.getElem?_eq_some_iff.mp here
      apply (removeLockLoop_length_le ..).trans_lt
      rw [List.length_dropLast, List.length_set]
      omega
    · apply ih _ (by omega)
      obtain ⟨inside, _⟩ : ∃ inside : i < locks.length, True := by
        refine ⟨?_, trivial⟩
        by_contra outside
        simp [List.drop_eq_nil_of_le (not_lt.mp outside)] at member
      rw [List.drop_eq_getElem_cons inside] at member
      rcases List.mem_cons.mp member with rfl | later
      · exact (here (List.getElem?_eq_getElem inside)).elim
      · exact later

/-- From an index on, the loop takes out exactly one entry, or the value occurs again before the end. -/
private theorem removeLockLoop_perm_iff {fuel : ℕ} (member : chan ∈ locks.drop i) (enough : locks.length ≤ i + fuel) :
    (chan :: removeLockLoop chan fuel i locks).Perm locks ↔ (locks.drop i).dropLast.count chan ≤ 1 := by
  induction fuel generalizing i with
  | zero => simp [List.drop_eq_nil_of_le (show locks.length ≤ i by omega)] at member
  | succ fuel ih =>
    have inside : i < locks.length := by
      by_contra outside
      simp [List.drop_eq_nil_of_le (not_lt.mp outside)] at member
    rw [removeLockLoop]
    split_ifs with here
    · generalize swapped : (locks.set i (locks.getLast?.getD 0)).dropLast = swap
      have perm := swapRemove_perm here
      rw [swapped] at perm
      have behind : swap.drop (i + 1) = (locks.drop (i + 1)).dropLast := by
        rw [← swapped, List.dropLast_eq_take, List.drop_take, List.drop_set_of_lt (by omega), List.dropLast_eq_take,
          List.length_set, List.length_drop]
        congr 1
        omega
      have once : (locks.drop i).dropLast.count chan ≤ 1 ↔ chan ∉ swap.drop (i + 1) := by
        rw [behind, List.drop_eq_getElem_cons inside, ← List.count_eq_zero]
        obtain ⟨_, found⟩ := List.getElem?_eq_some_iff.mp here
        rw [found]
        cases locks.drop (i + 1) with
        | nil => simp
        | cons next tail =>
          rw [List.dropLast_cons_cons, List.count_cons_self]
          omega
      rw [once]
      constructor
      · intro one again
        have sizes := perm.length_eq
        rw [List.length_cons] at sizes
        have left : swap.length ≤ i + 1 + fuel := by omega
        have shorter := removeLockLoop_length_lt again left
        have lengths := one.length_eq.trans perm.length_eq.symm
        simp only [List.length_cons] at lengths
        omega
      · intro absent
        rw [removeLockLoop_of_notMem_drop absent]
        exact perm
    · rw [List.drop_eq_getElem_cons inside] at member ⊢
      have apart : chan ≠ locks[i] := by
        rintro rfl
        exact here (List.getElem?_eq_getElem inside)
      have later := (List.mem_cons.mp member).resolve_left apart
      rw [ih later (by omega)]
      cases rest : locks.drop (i + 1) with
      | nil =>
        rw [rest] at later
        cases later
      | cons next tail => rw [List.dropLast_cons_cons, List.count_cons_of_ne apart.symm]

/-- The loop of `sys_mrelease` takes out exactly one entry if and only if the channel occurs at most once
before the last position. -/
theorem removeLock_perm_iff (member : chan ∈ locks) :
    (chan :: removeLock chan locks).Perm locks ↔ locks.dropLast.count chan ≤ 1 :=
  removeLockLoop_perm_iff (i := 0) member (by omega)

end RemoveLock

namespace Kernel

variable {κ : Type}

/-- The page of the mutex has been written. -/
def Written (s : Kernel κ) (m : Mutex) : Prop := s.accessed m.frame = true ∧ s.dirty m.frame = true

instance (s : Kernel κ) (m : Mutex) : Decidable (s.Written m) := inferInstanceAs (Decidable (_ ∧ _))

/-- A mutex is acquired once its page has been written, and released while its channel occurs at most
once before the last entry of the list. -/
def Tidy (s : Kernel κ) (a : KernelAction κ) : Prop :=
  s.Disciplined a ∧ match a with
    | .macquire c va => ∀ p, s.sched.cpu c = .run p → s.argptr ⟨s.space p, va⟩ = true → s.Written ⟨s.space p, va⟩
    | .mrelease c va => ∀ p, s.sched.cpu c = .run p →
        (s.sched.proc p).locksHeld.dropLast.count (.v2p (s.pte ⟨s.space p, va⟩)) ≤ 1
    | _ => True

instance [DecidableEq κ] (s : Kernel κ) : (a : KernelAction κ) → Decidable (s.Tidy a)
  | .macquire .. => inferInstanceAs (Decidable (_ ∧ ∀ _, _ → _ → _))
  | .mrelease .. => inferInstanceAs (Decidable (_ ∧ ∀ _, _ → _))
  | .scheduler _ | .syscall _ | .nice .. | .acquire _ | .release _ | .yield _ | .sleep .. | .woken _
  | .wakeup .. | .notify _ | .touch .. | .allocproc _ | .initProc .. | .copyuvm .. | .shareuvm ..
  | .setParent .. | .freeProc .. | .setRunnable .. => inferInstanceAs (Decidable (_ ∧ True))

/-- The process has changed a mutex word, its lock list and its mutexes, and goes on. -/
def exchanged (s : Kernel κ) (p : Fin nproc) (next : SysPc) (m : Mutex) (flag : Bool) (locks : List Chan)
    (holds : List Mutex) : Kernel κ :=
  { s.setPc p next with
    sched := s.sched.setProc p { s.sched.proc p with locksHeld := locks }
    locked := Function.update s.locked m flag
    holds := Function.update s.holds p holds }

end Kernel

section Steps

variable {κ : Type} {s s' : Kernel κ} {c : κ} {p : Fin nproc}

/-- A step that changes no list and no held mutex: slots are made new, calls go on, pages are touched and
address spaces appear. -/
structure KeepsLists (s s' : Kernel κ) : Prop where
  fresh : ∀ q, (s'.sched.proc q).state.fresh = true → (s.sched.proc q).state.fresh = true
  locks : ∀ q, (s'.sched.proc q).locksHeld = (s.sched.proc q).locksHeld ∨
    (s.sched.proc q).state.fresh = true ∧ (s'.sched.proc q).locksHeld = []
  pc : ∀ q, MutexInv.Follows (s.pc q) (s'.pc q)
  holds : s'.holds = s.holds
  space : (∀ q, s.space q < s.nextSpace) → ∀ q, s'.space q < s'.nextSpace
  grows : s.nextSpace ≤ s'.nextSpace
  bits : ∀ m : Mutex, m.space < s.nextSpace → s.Written m → s'.Written m

theorem KeepsLists.refl (s : Kernel κ) : KeepsLists s s where
  fresh _ := id
  locks _ := .inl rfl
  pc _ := ⟨.inr rfl, .inr rfl, .inr rfl⟩
  holds := rfl
  space := id
  grows := le_rfl
  bits _ _ := id

/-- One process goes on at a later point of its call. -/
theorem KeepsLists.goto {pc : Fin nproc → SysPc} {next : SysPc} (follows : MutexInv.Follows (pc p) next) (q : Fin nproc) :
    MutexInv.Follows (pc q) (Function.update pc p next q) := by
  by_cases own : q = p
  · rw [own, Function.update_self]
    exact follows
  · rw [Function.update_of_ne own]
    exact ⟨.inr rfl, .inr rfl, .inr rfl⟩

/-- The process goes on, and spinlocks and page bits are set. -/
theorem KeepsLists.setPc {next : SysPc} (follows : MutexInv.Follows (s.pc p) next) {spin : Mutex → Bool}
    {accessed dirty : Frame → Bool} (accesses : ∀ frame, s.accessed frame = true → accessed frame = true)
    (dirties : ∀ frame, s.dirty frame = true → dirty frame = true) :
    KeepsLists s { s.setPc p next with spin := spin, accessed := accessed, dirty := dirty } :=
  { KeepsLists.refl s with
    pc := KeepsLists.goto follows
    bits := fun _ _ written => ⟨accesses _ written.1, dirties _ written.2⟩ }

private theorem update_true {bits : Frame → Bool} {frame other : Frame} (set : bits other = true) :
    Function.update bits frame true other = true := by
  by_cases own : other = frame
  · rw [own, Function.update_self]
  · rw [Function.update_of_ne own, set]

variable [DecidableEq κ]

/-- What a step of the scheduler model does to one process. -/
theorem step_keeps {sched sched' : Sched Chan κ} (inv : SchedInv sched) {a : SchedAction Chan κ}
    (calm : a.routine = true ∨ ∃ c chan, a = .sleep c chan) (step : sched.step kernelChannels a = some sched')
    (q : Fin nproc) : ((sched'.proc q).state.fresh = true → (sched.proc q).state.fresh = true) ∧
      ((sched'.proc q).locksHeld = (sched.proc q).locksHeld ∨
        (sched.proc q).state.fresh = true ∧ (sched'.proc q).locksHeld = []) := by
  rcases calm with routine | ⟨c, chan, rfl⟩
  · have kept := Sched.step_kept inv routine step q
    exact ⟨kept.fresh, kept.locks⟩
  · obtain ⟨p, _, _, step⟩ := Sched.inKernel_eq_some step
    cases step
    simp only [Sched.sched, Sched.setProc, Sched.setCpu]
    by_cases own : q = p
    · subst own
      rw [Function.update_self]
      exact ⟨by rintro ⟨⟩, .inl rfl⟩
    · rw [Function.update_of_ne own]
      exact ⟨id, .inl rfl⟩

theorem KeepsLists.lifted (inv : SchedInv s.sched) {a : SchedAction Chan κ} (routine : a.routine = true)
    (lifted : s.lift a = some s') : KeepsLists s s' ∧ SchedInv s'.sched := by
  obtain ⟨sched, step, rfl⟩ := Option.map_eq_some_iff.mp lifted
  have keeps := step_keeps inv (.inl routine) step
  exact ⟨{ KeepsLists.refl s with fresh := fun q => (keeps q).1, locks := fun q => (keeps q).2 }, inv.step step⟩

/-- A step of the scheduler model, and the process goes on. -/
theorem KeepsLists.lift (inv : SchedInv s.sched) {a : SchedAction Chan κ}
    (calm : a.routine = true ∨ ∃ c chan, a = .sleep c chan) {next : SysPc}
    (follows : MutexInv.Follows (s.pc p) next) (step : (s.lift a).map (·.setPc p next) = some s') :
    KeepsLists s s' ∧ SchedInv s'.sched := by
  obtain ⟨mid, lifted, rfl⟩ := Option.map_eq_some_iff.mp step
  obtain ⟨sched, stepped, rfl⟩ := Option.map_eq_some_iff.mp lifted
  have keeps := step_keeps inv calm stepped
  exact ⟨{ KeepsLists.refl s with
    fresh := fun q => (keeps q).1
    locks := fun q => (keeps q).2
    pc := KeepsLists.goto follows }, inv.step stepped⟩

theorem KeepsLists.lockMutex {m : Mutex} {next : SysPc} (follows : MutexInv.Follows (s.pc p) next)
    (step : s.lockMutex c p m next = some s') : KeepsLists s s' ∧ s'.sched = s.sched := by
  rw [Kernel.lockMutex] at step
  split_ifs at step
  cases step
  exact ⟨KeepsLists.setPc follows (fun _ => update_true) (fun _ => update_true), rfl⟩

/-- What a step may be: one that changes no list, the entry of a mutex call, or the change of a list. -/
inductive StepKind (s : Kernel κ) (a : KernelAction κ) (s' : Kernel κ) : Prop
  | quiet (quiet : KeepsLists s s')
  | macquire (c : κ) (p : Fin nproc) (va : ℕ) (action : a = .macquire c va) (run : s.sched.cpu c = .run p)
      (fits : s.argptr ⟨s.space p, va⟩ = true)
      (entered : s' = s.setPc p (.acqLock ⟨s.space p, va⟩ (.v2p (s.pte ⟨s.space p, va⟩))))
  | mrelease (c : κ) (p : Fin nproc) (va : ℕ) (action : a = .mrelease c va) (run : s.sched.cpu c = .run p)
      (entered : s' = s.setPc p (.relLock ⟨s.space p, va⟩ (.v2p (s.pte ⟨s.space p, va⟩))))
  | acquired (p : Fin nproc) (m : Mutex) (chan : Chan) (pc : s.pc p = .acqSet m chan)
      (running : (s.sched.proc p).state = .running)
      (changed : s' = s.exchanged p (.acqDone m) m true ((s.sched.proc p).locksHeld ++ [chan]) (s.holds p ++ [m]))
  | released (p : Fin nproc) (m : Mutex) (chan : Chan) (pc : s.pc p = .relRemove m chan)
      (running : (s.sched.proc p).state = .running)
      (changed : s' = s.exchanged p (.relWakeup m chan) m false (removeLock chan (s.sched.proc p).locksHeld)
        ((s.holds p).erase m))

private theorem syscallStep_kind {a : KernelAction κ} (inv : SchedInv s.sched) (run : s.sched.cpu c = .run p)
    (step : s.syscallStep c p = some s') : StepKind s a s' ∧ SchedInv s'.sched := by
  have running := inv.running c p run
  have lifted {b : SchedAction Chan κ} {old next : SysPc} (at_pc : s.pc p = old)
      (step : (s.lift b).map (·.setPc p next) = some s') (calm : b.routine = true ∨ ∃ c chan, b = .sleep c chan)
      (follows : MutexInv.Follows old next) : StepKind s a s' ∧ SchedInv s'.sched := by
    subst at_pc
    exact (KeepsLists.lift inv calm follows step).imp_left .quiet
  have moved {old next : SysPc} {spin : Mutex → Bool} (at_pc : s.pc p = old)
      (eq : { s.setPc p next with spin := spin } = s') (follows : MutexInv.Follows old next) :
      StepKind s a s' ∧ SchedInv s'.sched := by
    subst at_pc eq
    exact ⟨.quiet (KeepsLists.setPc follows (fun _ => id) (fun _ => id)), inv⟩
  have locked {old next : SysPc} {m : Mutex} (at_pc : s.pc p = old) (step : s.lockMutex c p m next = some s')
      (follows : MutexInv.Follows old next) : StepKind s a s' ∧ SchedInv s'.sched := by
    subst at_pc
    obtain ⟨quiet, same⟩ := KeepsLists.lockMutex follows step
    rw [same]
    exact ⟨.quiet quiet, inv⟩
  cases at_pc : s.pc p <;> simp only [Kernel.syscallStep, at_pc, Option.some.injEq, reduceCtorEq] at step
  case acqLock m chan => exact locked at_pc step ⟨.inr rfl, .inr rfl, .inl rfl⟩
  case acqTest m chan =>
    split_ifs at step
    · exact moved at_pc step ⟨.inr rfl, .inr rfl, .inl rfl⟩
    · exact moved at_pc step ⟨.inr rfl, .inr rfl, .inl rfl⟩
  case acqSet m chan =>
    obtain ⟨lifted, schedInv⟩ := setLocks_lift inv run ((s.sched.proc p).locksHeld ++ [chan])
    rw [lifted] at step
    cases step
    exact ⟨.acquired p m chan at_pc running rfl, schedInv⟩
  case acqDone m => exact moved at_pc step ⟨.inl rfl, .inl rfl, .inl rfl⟩
  case acqSleep m chan => exact lifted at_pc step (.inl rfl) ⟨.inr rfl, .inr rfl, .inl rfl⟩
  case acqUnlock m chan => exact moved at_pc step ⟨.inr rfl, .inr rfl, .inl rfl⟩
  case acqSched m chan => exact lifted at_pc step (.inr ⟨c, chan, rfl⟩) ⟨.inr rfl, .inr rfl, .inl rfl⟩
  case acqAsleep m chan => exact lifted at_pc step (.inl rfl) ⟨.inr rfl, .inr rfl, .inl rfl⟩
  case acqWoken m chan => exact lifted at_pc step (.inl rfl) ⟨.inr rfl, .inr rfl, .inl rfl⟩
  case relLock m chan => exact locked at_pc step ⟨.inr rfl, .inl rfl, .inr rfl⟩
  case relRemove m chan =>
    obtain ⟨lifted, schedInv⟩ := setLocks_lift inv run (removeLock chan (s.sched.proc p).locksHeld)
    rw [lifted] at step
    cases step
    exact ⟨.released p m chan at_pc running rfl, schedInv⟩
  case relWakeup m chan => exact lifted at_pc step (.inl rfl) ⟨.inr rfl, .inl rfl, .inl rfl⟩
  case relWake1 m chan => exact lifted at_pc step (.inl rfl) ⟨.inr rfl, .inl rfl, .inl rfl⟩
  case relUnlock m chan => exact lifted at_pc step (.inl rfl) ⟨.inl rfl, .inl rfl, .inl rfl⟩
  case relDone m => exact moved at_pc step ⟨.inl rfl, .inl rfl, .inl rfl⟩

omit [DecidableEq κ] in
/-- Entry of a mutex call with a bad pointer changes nothing. -/
theorem callMutex_cases (s : Kernel κ) (p : Fin nproc) (va : ℕ) (next : Mutex → Chan → SysPc) :
    s.callMutex p va next = s ∨ s.argptr ⟨s.space p, va⟩ = true ∧
      s.callMutex p va next = s.setPc p (next ⟨s.space p, va⟩ (.v2p (s.pte ⟨s.space p, va⟩))) := by
  simp only [Kernel.callMutex]
  split_ifs with fits
  · exact .inr ⟨fits, rfl⟩
  · exact .inl rfl

omit [DecidableEq κ] in
theorem KeepsLists.copyuvm (s : Kernel κ) (p np : Fin nproc) (spin locked : ℕ → Bool) :
    KeepsLists s (s.copyuvm p np spin locked) :=
  { KeepsLists.refl s with
    space := by
      intro inside q
      simp only [Kernel.copyuvm]
      by_cases own : q = np
      · rw [own, Function.update_self]
        exact Nat.lt_succ_self _
      · rw [Function.update_of_ne own]
        exact (inside q).trans (Nat.lt_succ_self _)
    grows := Nat.le_succ _
    bits := by
      intro m old written
      have other : m.frame.space ≠ s.nextSpace := Nat.ne_of_lt old
      simpa [Kernel.Written, Kernel.copyuvm, other] using written }

omit [DecidableEq κ] in
theorem KeepsLists.shareuvm (s : Kernel κ) (p np : Fin nproc) :
    KeepsLists s { s with space := Function.update s.space np (s.space p) } :=
  { KeepsLists.refl s with
    space := by
      intro inside q
      dsimp only
      by_cases own : q = np
      · rw [own, Function.update_self]
        exact inside p
      · rw [Function.update_of_ne own]
        exact inside q }

private theorem step_kind {a : KernelAction κ} (inv : SchedInv s.sched) (step : s.step a = some s') :
    StepKind s a s' ∧ SchedInv s'.sched := by
  have routine {b : SchedAction Chan κ} (routine : b.routine = true) (lifted : s.lift b = some s') :
      StepKind s a s' ∧ SchedInv s'.sched := (KeepsLists.lifted inv routine lifted).imp_left .quiet
  cases a <;> simp only [Kernel.step] at step
  case scheduler c => exact routine rfl step
  case syscall c =>
    split at step
    · rename_i p run
      exact syscallStep_kind inv run step
    · cases step
  case macquire c va =>
    obtain ⟨p, run, user, step⟩ := MutexInv.inUser_eq_some step
    cases step
    rcases callMutex_cases s p va .acqLock with same | ⟨fits, entered⟩
    · rw [same]
      exact ⟨.quiet (.refl s), inv⟩
    · rw [entered]
      exact ⟨.macquire c p va rfl run fits rfl, inv⟩
  case mrelease c va =>
    obtain ⟨p, run, user, step⟩ := MutexInv.inUser_eq_some step
    cases step
    rcases callMutex_cases s p va .relLock with same | ⟨_, entered⟩
    · rw [same]
      exact ⟨.quiet (.refl s), inv⟩
    · rw [entered]
      exact ⟨.mrelease c p va rfl run rfl, inv⟩
  case acquire c | release c | yield c | wakeup c object | notify c | allocproc c | setRunnable c np =>
    split_ifs at step
    exact routine rfl step
  case nice c value | initProc c value | setParent c value | freeProc c value =>
    obtain ⟨_, _, _, step⟩ := MutexInv.inUser_eq_some step
    exact routine rfl step
  case sleep c object =>
    split at step
    · rename_i p run
      split_ifs at step with user
      have follows : MutexInv.Follows (s.pc p) .asleep := ⟨.inl rfl, .inl rfl, .inl rfl⟩
      exact (KeepsLists.lift inv (.inr ⟨c, .object object, rfl⟩) follows step).imp_left .quiet
    · cases step
  case woken c =>
    split at step
    · rename_i p run
      split_ifs at step with asleep
      have follows : MutexInv.Follows (s.pc p) .user := ⟨.inl rfl, .inl rfl, .inl rfl⟩
      exact (KeepsLists.lift inv (.inl rfl) follows step).imp_left .quiet
    · cases step
  case touch c page write =>
    obtain ⟨p, _, _, step⟩ := MutexInv.inUser_eq_some step
    cases step
    split_ifs
    · exact ⟨.quiet { KeepsLists.refl s with bits := fun _ _ => .imp update_true update_true }, inv⟩
    · exact ⟨.quiet { KeepsLists.refl s with bits := fun _ _ => .imp update_true id }, inv⟩
  case copyuvm c np spin locked =>
    obtain ⟨p, _, _, step⟩ := MutexInv.inUser_eq_some step
    split_ifs at step
    cases step
    exact ⟨.quiet (.copyuvm s p np spin locked), inv⟩
  case shareuvm c np =>
    obtain ⟨p, _, _, step⟩ := MutexInv.inUser_eq_some step
    split_ifs at step
    cases step
    exact ⟨.quiet (.shareuvm s p np), inv⟩

/-- The list of a process has one channel for each mutex it holds, and its call is about a channel that
names its mutex. -/
structure Listed (s : Kernel κ) (q : Fin nproc) : Prop where
  fresh : (s.sched.proc q).state.fresh = true → s.holds q = []
  locks : (s.sched.proc q).locksHeld.Perm ((s.holds q).map chanOf)
  held : ∀ m ∈ s.holds q, m.space < s.nextSpace ∧ s.Written m
  wants : ∀ m, (s.pc q).wants = some m → m.space < s.nextSpace ∧ s.Written m
  call : ∀ m chan, (s.pc q).call = some (m, chan) → chan = chanOf m
  gives : ∀ m, (s.pc q).gives = some m →
    m ∈ s.holds q ∧ (s.sched.proc q).locksHeld.dropLast.count (chanOf m) ≤ 1

/-- What holds between any two steps of a run whose acquisitions and releases are tidy. -/
structure ListInv (s : Kernel κ) : Prop where
  sched : SchedInv s.sched
  space : ∀ q, s.space q < s.nextSpace
  listed : ∀ q, Listed s q

omit [DecidableEq κ] in
theorem ListInv.initial (sz : ℕ) (accessed dirty spin locked : ℕ → Bool) :
    ListInv (Kernel.initial κ sz accessed dirty spin locked) where
  sched := .initial
  space _ := Nat.one_pos
  listed _ := ⟨fun _ => rfl, List.Perm.refl _, nofun, nofun, nofun, nofun⟩

omit [DecidableEq κ] in
theorem Listed.quiet {q : Fin nproc} (listed : Listed s q) (quiet : KeepsLists s s') : Listed s' q := by
  have kept (m : Mutex) (ok : m.space < s.nextSpace ∧ s.Written m) : m.space < s'.nextSpace ∧ s'.Written m :=
    ⟨ok.1.trans_le quiet.grows, quiet.bits m ok.1 ok.2⟩
  have follows := quiet.pc q
  refine ⟨?_, ?_, ?_, ?_, ?_, ?_⟩
  · intro fresh
    rw [quiet.holds]
    exact listed.fresh (quiet.fresh q fresh)
  · rw [quiet.holds]
    rcases quiet.locks q with same | ⟨fresh, empty⟩
    · rw [same]
      exact listed.locks
    · rw [empty, listed.fresh fresh]
      exact List.Perm.refl _
  · intro m held
    rw [quiet.holds] at held
    exact kept m (listed.held m held)
  · intro m wants
    rcases follows.wants with none | same
    · rw [none] at wants
      cases wants
    · exact kept m (listed.wants m (same.symm.trans wants))
  · intro m chan call
    rcases follows.call with none | same
    · rw [none] at call
      cases call
    · exact listed.call m chan (same.symm.trans call)
  · intro m gives
    rw [quiet.holds]
    rcases follows.gives with none | same
    · rw [none] at gives
      cases gives
    · obtain ⟨held, once⟩ := listed.gives m (same.symm.trans gives)
      rcases quiet.locks q with same | ⟨fresh, _⟩
      · rw [same]
        exact ⟨held, once⟩
      · rw [listed.fresh fresh] at held
        cases held

omit [DecidableEq κ] in
/-- Entry of a call with a channel that names the mutex. -/
theorem Listed.entered {q : Fin nproc} {next : SysPc} (listed : Listed s q)
    (wants : ∀ m, next.wants = some m → m.space < s.nextSpace ∧ s.Written m)
    (call : ∀ m chan, next.call = some (m, chan) → chan = chanOf m)
    (gives : ∀ m, next.gives = some m → q = p →
      m ∈ s.holds q ∧ (s.sched.proc q).locksHeld.dropLast.count (chanOf m) ≤ 1) : Listed (s.setPc p next) q := by
  by_cases own : q = p
  · have at_next : (s.setPc p next).pc q = next := by
      subst own
      exact Function.update_self ..
    refine ⟨listed.fresh, listed.locks, listed.held, ?_, ?_, ?_⟩ <;> rw [at_next]
    · exact wants
    · exact call
    · exact fun m giving => gives m giving own
  · have same : (s.setPc p next).pc q = s.pc q := Function.update_of_ne own ..
    refine ⟨listed.fresh, listed.locks, listed.held, ?_, ?_, ?_⟩ <;> rw [same]
    · exact listed.wants
    · exact listed.call
    · exact listed.gives

omit [DecidableEq κ] in
/-- The process changes its list and its mutexes together. -/
theorem Listed.exchanged {q : Fin nproc} {next : SysPc} {m : Mutex} {flag : Bool} {locks : List Chan}
    {holds : List Mutex} (listed : Listed s q) (running : (s.sched.proc p).state = .running)
    (perm : locks.Perm (holds.map chanOf)) (held : ∀ m ∈ holds, m.space < s.nextSpace ∧ s.Written m)
    (wants : next.wants = none) (call : ∀ m chan, next.call = some (m, chan) → chan = chanOf m)
    (gives : next.gives = none) : Listed (s.exchanged p next m flag locks holds) q := by
  by_cases own : q = p
  · subst own
    have pc : (s.exchanged q next m flag locks holds).pc q = next := Function.update_self ..
    have proc : (s.exchanged q next m flag locks holds).sched.proc q = { s.sched.proc q with locksHeld := locks } :=
      Function.update_self ..
    have has : (s.exchanged q next m flag locks holds).holds q = holds := Function.update_self ..
    refine ⟨?_, ?_, ?_, ?_, ?_, ?_⟩
    · rw [proc]
      dsimp only
      rw [running]
      nofun
    · rw [proc, has]
      exact perm
    · rw [has]
      exact held
    · rw [pc, wants]
      nofun
    · rw [pc]
      exact call
    · rw [pc, gives]
      nofun
  · have pc : (s.exchanged p next m flag locks holds).pc q = s.pc q := Function.update_of_ne own ..
    have proc : (s.exchanged p next m flag locks holds).sched.proc q = s.sched.proc q := Function.update_of_ne own ..
    have has : (s.exchanged p next m flag locks holds).holds q = s.holds q := Function.update_of_ne own ..
    refine ⟨?_, ?_, ?_, ?_, ?_, ?_⟩
    · rw [proc, has]
      exact listed.fresh
    · rw [proc, has]
      exact listed.locks
    · rw [has]
      exact listed.held
    · rw [pc]
      exact listed.wants
    · rw [pc]
      exact listed.call
    · rw [pc, proc, has]
      exact listed.gives

omit [DecidableEq κ] in
theorem Kernel.Written.chanOf {m : Mutex} (written : s.Written m) : Chan.v2p (s.pte m) = chanOf m := by
  rw [Kernel.pte, written.1, written.2]
  rfl

theorem ListInv.step (inv : ListInv s) {a : KernelAction κ} (tidy : s.Tidy a) (step : s.step a = some s') :
    ListInv s' := by
  obtain ⟨kind, sched⟩ := step_kind inv.sched step
  cases kind with
  | quiet quiet => exact ⟨sched, quiet.space inv.space, fun q => (inv.listed q).quiet quiet⟩
  | macquire c p va action run fits entered =>
    subst action entered
    have written := tidy.2 p run fits
    refine ⟨sched, inv.space, fun q => (inv.listed q).entered ?_ ?_ nofun⟩
    · rintro m ⟨⟩
      exact ⟨inv.space p, written⟩
    · rintro m chan ⟨⟩
      exact written.chanOf
  | mrelease c p va action run entered =>
    subst action entered
    have held := tidy.1 p run
    have written := ((inv.listed p).held _ held).2
    refine ⟨sched, inv.space, fun q => (inv.listed q).entered nofun ?_ ?_⟩
    · rintro m chan ⟨⟩
      exact written.chanOf
    · rintro m ⟨⟩ rfl
      refine ⟨held, ?_⟩
      rw [← written.chanOf]
      exact tidy.2 q run
  | acquired p m chan pc running changed =>
    subst changed
    obtain ⟨fresh, locks, held, wants, call, _⟩ := inv.listed p
    obtain rfl := call m chan (by rw [pc]; rfl)
    have wanted := wants m (by rw [pc]; rfl)
    refine ⟨sched, inv.space, fun q => (inv.listed q).exchanged running ?_ ?_ rfl nofun rfl⟩
    · rw [List.map_append]
      exact locks.append_right _
    · intro other member
      rcases List.mem_append.mp member with before | new
      · exact held other before
      · rw [List.mem_singleton.mp new]
        exact wanted
  | released p m chan pc running changed =>
    subst changed
    obtain ⟨fresh, locks, held, _, call, gives⟩ := inv.listed p
    obtain rfl := call m chan (by rw [pc]; rfl)
    obtain ⟨mine, once⟩ := gives m (by rw [pc]; rfl)
    have listed := locks.mem_iff.mpr (List.mem_map_of_mem mine)
    have perm := (removeLock_perm_iff listed).mpr once
    refine ⟨sched, inv.space, fun q => (inv.listed q).exchanged running ?_ ?_ rfl ?_ rfl⟩
    · have whole := perm.trans (locks.trans ((List.perm_cons_erase mine).map chanOf))
      exact (List.perm_cons _).mp whole
    · exact fun other member => held other (List.mem_of_mem_erase member)
    · rintro m' chan ⟨⟩
      rfl

theorem ListInv.of_reachable (reached : (kernelMachine κ).ReachableBy Kernel.Tidy s) : ListInv s := by
  apply reached.invariant
  · rintro s ⟨sz, accessed, dirty, spin, locked, rfl⟩
    exact .initial sz accessed dirty spin locked
  · intro s a t tidy step inv
    exact inv.step tidy step

end Steps

/-- In every run in which processes hold at most 16 mutexes, release only mutexes they hold, acquire a mutex
once its page has been written, and release a mutex while its channel occurs at most once before the last
entry of the list: the list of every process holds exactly the channels of its mutexes, and each release
takes out exactly one entry. -/
theorem locks_held_exact {κ : Type} [DecidableEq κ] {s : Kernel κ}
    (reached : (kernelMachine κ).ReachableBy Kernel.Tidy s) :
    (∀ p, ((s.sched.proc p).locksHeld : Multiset Chan) = (s.holds p : Multiset Mutex).map (fun m => .v2p (s.pte m)) ∧
      (s.sched.proc p).locksHeld.length = (s.holds p).length) ∧
    ∀ c p m chan s', s.sched.cpu c = .run p → s.pc p = .relRemove m chan → s.step (.syscall c) = some s' →
      (s'.sched.proc p).locksHeld.length + 1 = (s.sched.proc p).locksHeld.length := by
  have inv := ListInv.of_reachable reached
  constructor
  · intro p
    have perm := (inv.listed p).locks
    refine ⟨?_, by simpa using perm.length_eq⟩
    rw [Multiset.map_coe, Multiset.coe_eq_coe]
    refine perm.trans (List.Perm.of_eq (List.map_congr_left fun m held => ?_))
    exact (((inv.listed p).held m held).2.chanOf).symm
  · intro c p m chan s' run pc step
    obtain ⟨_, locks, _, _, call, gives⟩ := inv.listed p
    obtain rfl := call m chan (by rw [pc]; rfl)
    obtain ⟨mine, once⟩ := gives m (by rw [pc]; rfl)
    have perm := (removeLock_perm_iff (locks.mem_iff.mpr (List.mem_map_of_mem mine))).mpr once
    simp only [Kernel.step, run, Kernel.syscallStep, pc, (setLocks_lift inv.sched run _).1, Option.map_some,
      Option.some.injEq] at step
    subst step
    simpa [Sched.setProc, Kernel.setPc] using perm.length_eq

namespace Kernel

/-- The only process acquires three mutexes and releases the first. -/
def threeMutexes (first second third : ℕ) : List (KernelAction Unit) :=
  let acquired (va : ℕ) : List (KernelAction Unit) := .macquire () va :: List.replicate 4 (.syscall ())
  [.scheduler (), .scheduler (), .scheduler (), .release ()] ++ acquired first ++ acquired second ++ acquired third ++
    .mrelease () first :: List.replicate 6 (.syscall ())

end Kernel

/-- Two mutexes in one page, acquired last: the release of the first takes out one entry. -/
theorem locks_held_exact_three : ∃ s : Kernel Unit, (kernelMachine Unit).ReachableBy Kernel.Tidy s ∧
    s.holds 0 = [⟨0, 0⟩, ⟨0, 64⟩] ∧
    ((s.sched.proc 0).locksHeld : Multiset Chan) = (s.holds 0 : Multiset Mutex).map fun m => .v2p (s.pte m) := by
  have ran : ((kernelMachine Unit).runBy Kernel.Tidy Kernel.booted (Kernel.threeMutexes 4096 0 64)).map
      (fun s => s.holds 0) = some [⟨0, 0⟩, ⟨0, 64⟩] := by decide +kernel
  obtain ⟨s, run, holds⟩ := Option.map_eq_some_iff.mp ran
  have reached := Machine.reachableBy_of_runBy (m := kernelMachine Unit) ⟨_, _, _, _, _, rfl⟩ _ run
  exact ⟨s, reached, holds, ((locks_held_exact reached).1 0).1⟩

/-- Two mutexes in one page, acquired first: the release of one takes out both entries. -/
theorem locks_held_two_removed : ∃ s : Kernel Unit, (kernelMachine Unit).ReachableBy Kernel.Disciplined s ∧
    s.sched.cpu () = .run 0 ∧ s.pc 0 = .user ∧ s.holds 0 = [⟨0, 64⟩, ⟨0, 4096⟩] ∧
    (s.sched.proc 0).locksHeld = [.v2p (s.pte ⟨0, 4096⟩)] ∧
    ((s.sched.proc 0).locksHeld : Multiset Chan) ≠ (s.holds 0 : Multiset Mutex).map fun m => .v2p (s.pte m) := by
  have ran : ((kernelMachine Unit).runBy Kernel.Disciplined Kernel.booted (Kernel.threeMutexes 0 64 4096)).map
      (fun s => (s.sched.cpu (), s.pc 0, s.holds 0, decide ((s.sched.proc 0).locksHeld = [.v2p (s.pte ⟨0, 4096⟩)]))) =
      some (.run 0, .user, [⟨0, 64⟩, ⟨0, 4096⟩], true) := by decide +kernel
  obtain ⟨s, run, seen⟩ := Option.map_eq_some_iff.mp ran
  simp only [Prod.mk.injEq, decide_eq_true_eq] at seen
  obtain ⟨mode, pc, holds, locks⟩ := seen
  have reached := Machine.reachableBy_of_runBy (m := kernelMachine Unit) ⟨_, _, _, _, _, rfl⟩ _ run
  refine ⟨s, reached, mode, pc, holds, locks, fun same => ?_⟩
  have sizes := congrArg Multiset.card same
  simp [locks, holds] at sizes

end Cs537.Xv6
