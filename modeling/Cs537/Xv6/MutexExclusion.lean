import Cs537.Xv6.MutexCalls

/-! # Mutual exclusion and wakeups of the user mutex

The word of a mutex is written only under its spinlock, and a thread that found it locked keeps
`ptable.lock` from the moment it lets go of the spinlock until it is marked asleep, so the wakeup of a
release cannot fall in between. The invariant says this of each thread; a step of one thread leaves the
facts about the others alone.
-/

namespace Cs537.Xv6

open Lib

variable {τ μ : Type} {env : MutexEnv τ μ} {s s' : MutexState τ μ} {t u : τ} {m : μ}

/-- The thread holds `ptable.lock`. -/
@[grind =]
def MutexThread.HoldsTable (th : MutexThread μ) : Prop :=
  th.pc.tabled = true ∨ th.state = .running ∧ (th.preempted = true ∨ th.pc.asleep = true)

/-- The thread has let go of the spinlock to sleep on the mutex, or sleeps there. -/
@[grind =]
def MutexThread.Waiting (th : MutexThread μ) (m : μ) : Prop :=
  th.pc = .acqSched m ∨ th.state = .sleeping ∧ th.pc = .acqAsleep m

namespace MutexState

/-- The thread holds the mutex, inside the calls or outside. -/
@[grind =]
def Holds (s : MutexState τ μ) (t : τ) (m : μ) : Prop := s.owns t m = true ∨ (s.thread t).pc.holding = some m

/-- A thread that waits for the mutex will be woken up: the mutex is locked, or a release of it has not come
to its wakeup. -/
@[grind =]
def Pending (s : MutexState τ μ) (m : μ) : Prop := s.locked m = true ∨ ∃ r, (s.thread r).pc.waking = some m

end MutexState

/-- What holds of one thread between any two steps. -/
structure ThreadOk (env : MutexEnv τ μ) (s : MutexState τ μ) (t : τ) : Prop where
  lk_iff : ∀ m, s.lk m = some t ↔ (s.thread t).pc.inside = some m
  table : (s.thread t).HoldsTable → s.table = .thread t
  running : (s.thread t).pc.preemptible = false → (s.thread t).pc.asleep = false → (s.thread t).state = .running
  preempted : (s.thread t).preempted = true → (s.thread t).pc.preemptible = true
  sleeping : (s.thread t).state = .sleeping → (s.thread t).pc.asleep = true
  chan : ∀ m, (s.thread t).state = .sleeping → (s.thread t).pc = .acqAsleep m → (s.thread t).chan = env.chan m
  held : ∀ m, s.Holds t m → s.locked m = true ∧ s.pid m = env.pid t
  once : ∀ m, (s.thread t).pc.holding = some m → s.owns t m = false
  unlocked : ∀ m, (s.thread t).pc = .acqSet m → s.locked m = false
  tested : ∀ m, (s.thread t).pc = .acqSleep m ∨ (s.thread t).pc = .acqUnlock m → s.locked m = true
  waits : ∀ m, (s.thread t).Waiting m → s.Pending m

/-- What holds between any two steps. -/
structure ExclusionInv (env : MutexEnv τ μ) (s : MutexState τ μ) : Prop where
  threads : ∀ t, ThreadOk env s t
  unique : ∀ t t' m, s.Holds t m → s.Holds t' m → t = t'

/-- A thread that a step of another leaves alone: the spinlocks it holds and the mutexes it holds or has
looked at stay as they are. -/
theorem ThreadOk.frame (ok : ThreadOk env s u) (thread : s'.thread u = s.thread u) (owns : s'.owns u = s.owns u)
    (lk : ∀ m, s'.lk m = some u ↔ s.lk m = some u) (table : s.table = .thread u → s'.table = .thread u)
    (word : ∀ m, s.lk m = some u ∨ s.Holds u m → s'.locked m = s.locked m ∧ s'.pid m = s.pid m)
    (pending : ∀ m, (s.thread u).Waiting m → s.Pending m → s'.Pending m) : ThreadOk env s' u := by
  have holds (m : μ) : s'.Holds u m ↔ s.Holds u m := by rw [MutexState.Holds, MutexState.Holds, thread, owns]
  have inside {m : μ} (in_lk : (s.thread u).pc.inside = some m) : s'.locked m = s.locked m :=
    (word m (.inl ((ok.lk_iff m).mpr in_lk))).1
  refine ⟨?_, ?_, ?_, ?_, ?_, ?_, ?_, ?_, ?_, ?_, ?_⟩
  · intro m
    rw [lk, thread]
    exact ok.lk_iff m
  · rw [thread]
    exact fun mine => table (ok.table mine)
  · rw [thread]
    exact ok.running
  · rw [thread]
    exact ok.preempted
  · rw [thread]
    exact ok.sleeping
  · rw [thread]
    exact ok.chan
  · intro m mine
    rw [holds] at mine
    obtain ⟨locked, pid⟩ := word m (.inr mine)
    rw [locked, pid]
    exact ok.held m mine
  · rw [thread, owns]
    exact ok.once
  · intro m here
    rw [thread] at here
    rw [inside (by rw [here]; rfl)]
    exact ok.unlocked m here
  · intro m here
    rw [thread] at here
    have in_lk : (s.thread u).pc.inside = some m := by
      rcases here with here | here <;> rw [here] <;> rfl
    rw [inside in_lk]
    exact ok.tested m here
  · intro m waiting
    rw [thread] at waiting
    exact pending m waiting (ok.waits m waiting)

namespace ExclusionInv

/-- A step of one thread. -/
theorem move (inv : ExclusionInv env s) (own : ThreadOk env s' t) (thread : ∀ u, u ≠ t → s'.thread u = s.thread u)
    (owns : ∀ u, u ≠ t → s'.owns u = s.owns u) (lk : ∀ m u, u ≠ t → (s'.lk m = some u ↔ s.lk m = some u))
    (table : ∀ u, u ≠ t → s.table = .thread u → s'.table = .thread u)
    (word : ∀ m u, u ≠ t → s.lk m = some u ∨ s.Holds u m → s'.locked m = s.locked m ∧ s'.pid m = s.pid m)
    (pending : ∀ m u, u ≠ t → (s.thread u).Waiting m → s.Pending m → s'.Pending m)
    (holds : ∀ m, s'.Holds t m → s.Holds t m ∨ ∀ u, ¬ s.Holds u m) : ExclusionInv env s' := by
  have same {u : τ} (apart : u ≠ t) (m : μ) : s'.Holds u m → s.Holds u m := by
    rw [MutexState.Holds, MutexState.Holds, thread u apart, owns u apart]
    exact id
  refine ⟨?_, ?_⟩
  · intro u
    by_cases mine : u = t
    · rw [mine]
      exact own
    · exact (inv.threads u).frame (thread u mine) (owns u mine) (fun m => lk m u mine) (table u mine)
        (fun m => word m u mine) fun m => pending m u mine
  · intro u u' m first second
    by_cases mine : u = t <;> by_cases mine' : u' = t
    · rw [mine, mine']
    · subst mine
      rcases holds m first with before | nobody
      · exact inv.unique u u' m before (same mine' m second)
      · exact (nobody u' (same mine' m second)).elim
    · subst mine'
      rcases holds m second with before | nobody
      · exact inv.unique u u' m (same mine m first) before
      · exact (nobody u (same mine m first)).elim
    · exact inv.unique u u' m (same mine m first) (same mine' m second)

theorem initial : ExclusionInv env (.initial τ μ) := by
  refine ⟨?_, ?_⟩
  · intro t
    constructor <;> simp [MutexState.initial, CallPc.inside, MutexThread.HoldsTable, CallPc.tabled, CallPc.asleep,
      CallPc.preemptible, MutexState.Holds, CallPc.holding, MutexThread.Waiting]
  · rintro t t' m (owns | holding)
    · cases owns
    · cases holding

variable [DecidableEq τ]

/-- A step of one thread that writes no mutex word: locks may change hands, and what the thread holds stays. -/
theorem go (inv : ExclusionInv env s) {th : MutexThread μ} {lk : μ → Option τ} {table : TableLock τ}
    {owns : τ → μ → Bool}
    (own : ThreadOk env ⟨Function.update s.thread t th, lk, s.locked, s.pid, table, owns⟩ t)
    (sameOwns : ∀ u, u ≠ t → owns u = s.owns u) (sameLk : ∀ m u, u ≠ t → (lk m = some u ↔ s.lk m = some u))
    (sameTable : ∀ u, u ≠ t → s.table = .thread u → table = .thread u)
    (waking : ∀ m, (s.thread t).pc.waking = some m → th.pc.waking = some m)
    (holds : ∀ m, owns t m = true ∨ th.pc.holding = some m → s.Holds t m) :
    ExclusionInv env ⟨Function.update s.thread t th, lk, s.locked, s.pid, table, owns⟩ := by
  refine inv.move own (fun u apart => Function.update_of_ne apart ..) sameOwns sameLk sameTable
    (fun _ _ _ _ => ⟨rfl, rfl⟩) ?_ ?_
  · rintro m _ _ _ (locked | ⟨r, wakes⟩)
    · exact .inl locked
    · refine .inr ⟨r, ?_⟩
      by_cases mine : r = t
      · subst mine
        simp only [Function.update_self]
        exact waking m wakes
      · simp only [Function.update_of_ne mine]
        exact wakes
  · intro m mine
    simp only [MutexState.Holds, Function.update_self] at mine
    exact .inl (holds m mine)

/-- The same without a change to the spinlocks and the history. -/
theorem goTable (inv : ExclusionInv env s) {th : MutexThread μ} {table : TableLock τ}
    (own : ThreadOk env ⟨Function.update s.thread t th, s.lk, s.locked, s.pid, table, s.owns⟩ t)
    (sameTable : ∀ u, u ≠ t → s.table = .thread u → table = .thread u)
    (waking : ∀ m, (s.thread t).pc.waking = some m → th.pc.waking = some m)
    (holding : th.pc.holding = (s.thread t).pc.holding) :
    ExclusionInv env ⟨Function.update s.thread t th, s.lk, s.locked, s.pid, table, s.owns⟩ :=
  inv.go own (fun _ _ => rfl) (fun _ _ _ => Iff.rfl) sameTable waking fun m mine => by rwa [holding] at mine

omit [DecidableEq τ] in
/-- The lock of the table is free, or held by the thread itself or by a scheduler. -/
private theorem sameTable_of {table table' : TableLock τ} (mine : ∀ u, table = .thread u → u = t) :
    ∀ u, u ≠ t → table = .thread u → table' = .thread u :=
  fun u apart held => (apart (mine u held)).elim

omit [DecidableEq τ] in
private theorem sameLk_take [DecidableEq μ] (free : s.lk m = none) : ∀ m' u, u ≠ t →
    (Function.update s.lk m (some t) m' = some u ↔ s.lk m' = some u) := by
  intro m' u apart
  by_cases here : m' = m
  · rw [here, Function.update_self, free]
    simp [Ne.symm apart]
  · rw [Function.update_of_ne here]

omit [DecidableEq τ] in
private theorem sameLk_give [DecidableEq μ] (mine : s.lk m = some t) : ∀ m' u, u ≠ t →
    (Function.update s.lk m none m' = some u ↔ s.lk m' = some u) := by
  intro m' u apart
  by_cases here : m' = m
  · rw [here, Function.update_self, mine]
    simp [Ne.symm apart]
  · rw [Function.update_of_ne here]

variable [DecidableEq μ]

/-- `acquire(&m->lk)`. -/
theorem takeLk (inv : ExclusionInv env s) (run : (s.thread t).state = .running)
    (awake : (s.thread t).preempted = false) (free : s.lk m = none) {next : CallPc μ}
    (pcs : (s.thread t).pc = .acqLock m ∧ next = .acqTest m ∨ (s.thread t).pc = .relLock m ∧ next = .relClear m) :
    ExclusionInv env ((s.goto t next).setLk m (some t)) := by
  obtain ⟨lk_iff, table, running, preempted, sleeping, chan, held, once, unlocked, tested, waits⟩ := inv.threads t
  change ExclusionInv env ⟨_, Function.update s.lk m (some t), s.locked, s.pid, s.table, s.owns⟩
  refine inv.go ?_ (fun _ _ => rfl) (sameLk_take free) (fun _ _ => id) ?_ ?_
  · constructor <;> simp only [Function.update_self, Function.update_apply] <;> grind
  · grind
  · grind

/-- `release(&m->lk)`, at the end of a call or on the way to sleep. -/
theorem giveLk (inv : ExclusionInv env s) (awake : (s.thread t).preempted = false) {next : CallPc μ}
    (pcs : (s.thread t).pc = .acqUnlock m ∧ next = .acqSched m ∨ (s.thread t).pc = .relDone m ∧ next = .user) :
    ExclusionInv env ((s.goto t next).setLk m none) := by
  obtain ⟨lk_iff, table, running, preempted, sleeping, chan, held, once, unlocked, tested, waits⟩ := inv.threads t
  have mine : s.lk m = some t := by
    rw [lk_iff]
    rcases pcs with ⟨here, _⟩ | ⟨here, _⟩ <;> rw [here] <;> rfl
  change ExclusionInv env ⟨_, Function.update s.lk m none, s.locked, s.pid, s.table, s.owns⟩
  refine inv.go ?_ (fun _ _ => rfl) (sameLk_give mine) (fun _ _ => id) ?_ ?_
  · constructor <;> simp only [Function.update_self, Function.update_apply] <;> grind
  · grind
  · grind

/-- The return from `macquire`. -/
private theorem returnAcquire (inv : ExclusionInv env s) (run : (s.thread t).state = .running)
    (awake : (s.thread t).preempted = false) (here : (s.thread t).pc = .acqDone m) :
    ExclusionInv env { (s.goto t .user).setLk m none with
      owns := Function.update s.owns t (Function.update (s.owns t) m true) } := by
  obtain ⟨lk_iff, table, running, preempted, sleeping, chan, held, once, unlocked, tested, waits⟩ := inv.threads t
  have mine : s.lk m = some t := by rw [lk_iff, here]; rfl
  change ExclusionInv env ⟨_, Function.update s.lk m none, s.locked, s.pid, s.table, _⟩
  refine inv.go ?_ (fun u apart => Function.update_of_ne apart ..) (sameLk_give mine) (fun _ _ => id) ?_ ?_
  · constructor <;> simp only [MutexState.Holds, Function.update_self, Function.update_apply] <;> grind
  · grind
  · simp only [Function.update_self, Function.update_apply]
    grind

omit [DecidableEq μ] in
/-- The call of `mrelease`, and of `macquire`. -/
theorem call (inv : ExclusionInv env s) (user : s.inUser t) : ExclusionInv env (s.goto t (.acqLock m)) := by
  obtain ⟨run, awake, here⟩ := user
  obtain ⟨lk_iff, table, running, preempted, sleeping, chan, held, once, unlocked, tested, waits⟩ := inv.threads t
  refine inv.goTable ?_ (fun _ _ => id) ?_ ?_
  · constructor <;> simp only [Function.update_self] <;> grind
  · grind
  · grind

private theorem callRelease (inv : ExclusionInv env s) (user : s.inUser t) (mine : s.owns t m = true) :
    ExclusionInv env
      { s.goto t (.relLock m) with owns := Function.update s.owns t (Function.update (s.owns t) m false) } := by
  obtain ⟨run, awake, here⟩ := user
  obtain ⟨lk_iff, table, running, preempted, sleeping, chan, held, once, unlocked, tested, waits⟩ := inv.threads t
  change ExclusionInv env ⟨_, s.lk, s.locked, s.pid, s.table, _⟩
  refine inv.go ?_ (fun u apart => Function.update_of_ne apart ..) (fun _ _ _ => Iff.rfl) (fun _ _ => id) ?_ ?_
  · constructor <;> simp only [MutexState.Holds, Function.update_self, Function.update_apply] <;> grind
  · grind
  · simp only [Function.update_self, Function.update_apply]
    grind

omit [DecidableEq μ] in
/-- `ptable.lock` changes hands. -/
theorem turnTable (inv : ExclusionInv env s) {th : MutexThread μ} {table : TableLock τ}
    (mine : ∀ u, s.table = .thread u → u = t)
    (own : ThreadOk env ⟨Function.update s.thread t th, s.lk, s.locked, s.pid, table, s.owns⟩ t)
    (waking : ∀ m, (s.thread t).pc.waking = some m → th.pc.waking = some m)
    (holding : th.pc.holding = (s.thread t).pc.holding) :
    ExclusionInv env ((s.setThread t th).setTable table) :=
  inv.goTable own (sameTable_of mine) waking holding

/-- The mutex is marked as locked by the thread. -/
private theorem lockWord (inv : ExclusionInv env s) (awake : (s.thread t).preempted = false)
    (here : (s.thread t).pc = .acqSet m) (locks : LocksHeld) :
    ExclusionInv env { s.setThread t { s.thread t with pc := .acqDone m, locks := locks } with
      locked := Function.update s.locked m true
      pid := Function.update s.pid m (env.pid t) } := by
  obtain ⟨lk_iff, table, running, preempted, sleeping, chan, held, once, unlocked, tested, waits⟩ := inv.threads t
  have mine : s.lk m = some t := by rw [lk_iff, here]; rfl
  have nobody (u : τ) : ¬ s.Holds u m := by
    intro holds
    have locked := ((inv.threads u).held m holds).1
    rw [unlocked m here] at locked
    cases locked
  refine inv.move (t := t) ?_ (fun u apart => Function.update_of_ne apart ..) (fun _ _ => rfl) (fun _ _ _ => Iff.rfl)
    (fun _ _ => id) ?_ ?_ ?_
  · constructor <;> simp only [MutexState.setThread, MutexState.Holds, Function.update_self, Function.update_apply] <;>
      grind
  · intro m' u apart uses
    have ne : m' ≠ m := by
      rintro rfl
      rcases uses with theirs | holds
      · rw [mine] at theirs
        exact apart (Option.some.inj theirs).symm
      · exact nobody u holds
    exact ⟨Function.update_of_ne ne .., Function.update_of_ne ne ..⟩
  · rintro m' u _ _ (locked | ⟨r, wakes⟩)
    · left
      simp only [Function.update_apply, locked, ite_self]
    · right
      refine ⟨r, ?_⟩
      simp only [MutexState.setThread, Function.update_apply]
      grind
  · intro m' holds
    simp only [MutexState.setThread, MutexState.Holds, Function.update_self] at holds
    grind

/-- The mutex is marked as free; its waiters are still to be woken up. -/
private theorem clearWord (inv : ExclusionInv env s) (awake : (s.thread t).preempted = false)
    (here : (s.thread t).pc = .relClear m) (locks : LocksHeld) :
    ExclusionInv env { s.setThread t { s.thread t with pc := .relWakeup m, locks := locks } with
      locked := Function.update s.locked m false
      pid := Function.update s.pid m 0 } := by
  obtain ⟨lk_iff, table, running, preempted, sleeping, chan, held, once, unlocked, tested, waits⟩ := inv.threads t
  have mine : s.lk m = some t := by rw [lk_iff, here]; rfl
  have holds : s.Holds t m := by
    right
    rw [here]
    rfl
  refine inv.move (t := t) ?_ (fun u apart => Function.update_of_ne apart ..) (fun _ _ => rfl) (fun _ _ _ => Iff.rfl)
    (fun _ _ => id) ?_ ?_ ?_
  · constructor <;> simp only [MutexState.setThread, MutexState.Holds, Function.update_self, Function.update_apply] <;>
      grind
  · intro m' u apart uses
    have ne : m' ≠ m := by
      rintro rfl
      rcases uses with theirs | theirs
      · rw [mine] at theirs
        exact apart (Option.some.inj theirs).symm
      · exact apart (inv.unique u t m' theirs holds)
    exact ⟨Function.update_of_ne ne .., Function.update_of_ne ne ..⟩
  · intro m' u _ _ pending
    by_cases cleared : m' = m
    · subst cleared
      right
      exact ⟨t, by simp only [MutexState.setThread, Function.update_self]; rfl⟩
    · rcases pending with locked | ⟨r, wakes⟩
      · left
        simp only [Function.update_of_ne cleared, locked]
      · right
        refine ⟨r, ?_⟩
        simp only [MutexState.setThread, Function.update_apply]
        grind
  · intro m' theirs
    simp only [MutexState.setThread, MutexState.Holds, Function.update_self] at theirs
    grind

omit [DecidableEq τ] [DecidableEq μ] in
/-- Threads are made runnable. -/
theorem awaken (inv : ExclusionInv env s) {thread : τ → MutexThread μ}
    (wakes : ∀ u, thread u = s.thread u ∨
    ∃ killed state, thread u = { s.thread u with killed := killed, state := state } ∧
      (state = (s.thread u).state ∨ (s.thread u).state = .sleeping ∧ state = .runnable)) :
    ExclusionInv env { s with thread := thread } := by
  have pc (u : τ) : (thread u).pc = (s.thread u).pc ∧ (thread u).preempted = (s.thread u).preempted ∧
      (thread u).chan = (s.thread u).chan ∧
      ((thread u).state = (s.thread u).state ∨ (s.thread u).state = .sleeping ∧ (thread u).state = .runnable) := by
    rcases wakes u with same | ⟨killed, state, same, cases⟩
    · rw [same]
      exact ⟨rfl, rfl, rfl, .inl rfl⟩
    · rw [same]
      exact ⟨rfl, rfl, rfl, cases⟩
  have pending (m : μ) : MutexState.Pending { s with thread := thread } m ↔ s.Pending m := by
    simp only [MutexState.Pending, (pc _).1]
  refine ⟨?_, ?_⟩
  · intro u
    obtain ⟨lk_iff, table, running, preempted, sleeping, chan, held, once, unlocked, tested, waits⟩ := inv.threads u
    have := pc u
    constructor
    case waits =>
      intro m waiting
      rw [pending]
      apply waits
      simp only [MutexThread.Waiting] at waiting ⊢
      grind
    all_goals simp only [MutexState.Holds]
    all_goals grind
  · intro u u' m first second
    simp only [MutexState.Holds, (pc _).1] at first second
    exact inv.unique u u' m first second

omit [DecidableEq τ] [DecidableEq μ] in
theorem wakeup1 (inv : ExclusionInv env s) (chan : ℤ) : ExclusionInv env (s.wakeup1 chan) := by
  apply inv.awaken
  intro u
  by_cases asleep : (s.thread u).state = .sleeping ∧ (s.thread u).chan = chan
  · rw [if_pos asleep]
    exact .inr ⟨_, .runnable, rfl, .inr ⟨asleep.1, rfl⟩⟩
  · rw [if_neg asleep]
    exact .inl rfl

omit [DecidableEq μ] in
/-- The wakeup of a release leaves nobody asleep on the mutex: a thread that is about to sleep would hold
`ptable.lock`. -/
private theorem wakeAll (inv : ExclusionInv env s) (here : (s.thread t).pc = .relWake1 m) :
    ExclusionInv env ((s.wakeup1 (env.chan m)).goto t (.relTable m)) := by
  have after := inv.wakeup1 (env.chan m)
  have run : (s.thread t).state = .running := (inv.threads t).running (by rw [here]; rfl) (by rw [here]; rfl)
  have mine : s.table = .thread t := (inv.threads t).table (.inl (by rw [here]; rfl))
  have same : (s.wakeup1 (env.chan m)).thread t = s.thread t := by simp [MutexState.wakeup1, run]
  have nobody (u : τ) : ¬ ((s.wakeup1 (env.chan m)).thread u).Waiting m := by
    rintro (going | ⟨asleep, inside⟩)
    · have theirs := (after.threads u).table (.inl (by rw [going]; rfl))
      obtain rfl : u = t := TableLock.thread.inj (theirs.symm.trans mine)
      rw [same, here] at going
      cases going
    · have chan := (after.threads u).chan m asleep inside
      simp only [MutexState.wakeup1] at asleep chan
      split_ifs at asleep chan with woken
      exact woken ⟨asleep, chan⟩
  obtain ⟨lk_iff, table, running, preempted, sleeping, chan, held, once, unlocked, tested, waits⟩ := after.threads t
  rw [same] at lk_iff table running preempted sleeping once unlocked tested waits
  refine after.move (t := t) ?_ (fun u apart => Function.update_of_ne apart ..) (fun _ _ => rfl)
    (fun _ _ _ => Iff.rfl) (fun _ _ => id) (fun _ _ _ _ => ⟨rfl, rfl⟩) ?_ ?_
  · constructor <;> simp only [MutexState.goto, MutexState.setThread, MutexState.Holds, Function.update_self, same] <;>
      grind
  · intro m' u _ waiting pending
    have apart : m' ≠ m := by
      rintro rfl
      exact nobody u waiting
    rcases pending with locked | ⟨r, wakes⟩
    · exact .inl locked
    · refine .inr ⟨r, ?_⟩
      have other : r ≠ t := by
        rintro rfl
        rw [same, here] at wakes
        exact apart (Option.some.inj wakes).symm
      simp only [MutexState.goto, MutexState.setThread, Function.update_of_ne other, wakes]
  · intro m' holds
    simp only [MutexState.goto, MutexState.setThread, MutexState.Holds, Function.update_self] at holds
    grind

omit [DecidableEq τ] [DecidableEq μ] in
/-- Whoever holds `ptable.lock` is the thread that is known to. -/
theorem alone (inv : ExclusionInv env s) (mine : (s.thread t).HoldsTable) (held : s.table = .thread u) : u = t :=
  (TableLock.thread.inj (((inv.threads t).table mine).symm.trans held)).symm

omit [DecidableEq μ] in
/-- The test of `m->locked`. -/
private theorem testLk (inv : ExclusionInv env s) (run : (s.thread t).state = .running)
    (awake : (s.thread t).preempted = false) (here : (s.thread t).pc = .acqTest m) :
    ExclusionInv env (s.goto t (if s.locked m then .acqSleep m else .acqSet m)) := by
  obtain ⟨lk_iff, table, running, preempted, sleeping, chan, held, once, unlocked, tested, waits⟩ := inv.threads t
  refine inv.goTable ?_ (fun _ _ => id) (by simp [here]) (by split_ifs <;> simp [here])
  constructor <;> simp only [MutexState.Holds, Function.update_self] <;> grind

omit [DecidableEq μ] in
/-- `acquire(&ptable.lock)`, on the way to sleep or to wake others up. -/
theorem takeTable (inv : ExclusionInv env s) (run : (s.thread t).state = .running)
    (awake : (s.thread t).preempted = false) (free : s.table = .free) {next : CallPc μ}
    (pcs : (s.thread t).pc = .acqSleep m ∧ next = .acqUnlock m ∨ (s.thread t).pc = .relWakeup m ∧ next = .relWake1 m) :
    ExclusionInv env ((s.goto t next).setTable (.thread t)) := by
  obtain ⟨lk_iff, table, running, preempted, sleeping, chan, held, once, unlocked, tested, waits⟩ := inv.threads t
  rcases pcs with ⟨here, rfl⟩ | ⟨here, rfl⟩
  · refine inv.turnTable (by simp [free]) ?_ (by simp [here]) (by simp [here])
    constructor <;> simp only [MutexState.Holds, Function.update_self] <;> grind
  · refine inv.turnTable (by simp [free]) ?_ (by simp [here]) (by simp [here])
    constructor <;> simp only [MutexState.Holds, Function.update_self] <;> grind

omit [DecidableEq μ] in
/-- The thread goes to sleep and leaves `ptable.lock` to the scheduler. -/
private theorem goToSleep (inv : ExclusionInv env s) (run : (s.thread t).state = .running)
    (awake : (s.thread t).preempted = false) (here : (s.thread t).pc = .acqSched m) :
    ExclusionInv env ((s.setThread t { s.thread t with
      pc := .acqAsleep m, state := .sleeping, chan := env.chan m }).setTable .scheduler) := by
  have pending := (inv.threads t).waits m (.inl here)
  obtain ⟨lk_iff, table, running, preempted, sleeping, chan, held, once, unlocked, tested, waits⟩ := inv.threads t
  refine inv.turnTable (fun _ => inv.alone (.inl (by rw [here]; rfl))) ?_ (by simp [here]) (by simp [here])
  constructor
  case waits =>
    intro m' waiting
    simp only [MutexThread.Waiting, Function.update_self] at waiting
    obtain rfl : m = m' := by grind
    rcases pending with locked | ⟨r, wakes⟩
    · exact .inl locked
    · refine .inr ⟨r, ?_⟩
      have other : r ≠ t := by
        rintro rfl
        rw [here] at wakes
        cases wakes
      simp only [Function.update_of_ne other, wakes]
  all_goals simp only [MutexState.Holds, Function.update_self]
  all_goals grind

omit [DecidableEq μ] in
/-- A preempted thread that the scheduler has chosen gives `ptable.lock` back. -/
private theorem resume (inv : ExclusionInv env s) (run : (s.thread t).state = .running)
    (waiting : (s.thread t).preempted = true) :
    ExclusionInv env ((s.setThread t { s.thread t with preempted := false }).setTable .free) := by
  obtain ⟨lk_iff, table, running, preempted, sleeping, chan, held, once, unlocked, tested, waits⟩ := inv.threads t
  have outside : (s.thread t).pc.tabled = false ∧ (s.thread t).pc.asleep = false := by
    have preemptible := preempted waiting
    cases here : (s.thread t).pc <;> simp_all
  refine inv.turnTable (fun _ => inv.alone (.inr ⟨run, .inl waiting⟩)) ?_ (fun _ => id) rfl
  constructor <;> simp only [MutexState.Holds, Function.update_self] <;> grind

omit [DecidableEq μ] in
/-- The same after another sleep. -/
private theorem unblock (inv : ExclusionInv env s) (run : (s.thread t).state = .running)
    (awake : (s.thread t).preempted = false) (here : (s.thread t).pc = .blocked) :
    ExclusionInv env ((s.setThread t { s.thread t with pc := .user, chan := 0 }).setTable .free) := by
  obtain ⟨lk_iff, table, running, preempted, sleeping, chan, held, once, unlocked, tested, waits⟩ := inv.threads t
  refine inv.turnTable (fun _ => inv.alone (.inr ⟨run, .inr (by rw [here]; rfl)⟩)) ?_ (by simp [here]) (by simp [here])
  constructor <;> simp only [MutexState.Holds, Function.update_self] <;> grind

omit [DecidableEq μ] in
/-- The same after a sleep on the mutex. -/
private theorem retry (inv : ExclusionInv env s) (run : (s.thread t).state = .running)
    (awake : (s.thread t).preempted = false) (here : (s.thread t).pc = .acqAsleep m) :
    ExclusionInv env ((s.setThread t { s.thread t with pc := .acqLock m, chan := 0 }).setTable .free) := by
  obtain ⟨lk_iff, table, running, preempted, sleeping, chan, held, once, unlocked, tested, waits⟩ := inv.threads t
  refine inv.turnTable (fun _ => inv.alone (.inr ⟨run, .inr (by rw [here]; rfl)⟩)) ?_ (by simp [here]) (by simp [here])
  constructor <;> simp only [MutexState.Holds, Function.update_self] <;> grind

omit [DecidableEq μ] in
/-- `release(&ptable.lock)` after the wakeup of others. -/
private theorem giveTable (inv : ExclusionInv env s) (run : (s.thread t).state = .running)
    (awake : (s.thread t).preempted = false) (here : (s.thread t).pc = .relTable m) :
    ExclusionInv env ((s.goto t (.relDone m)).setTable .free) := by
  obtain ⟨lk_iff, table, running, preempted, sleeping, chan, held, once, unlocked, tested, waits⟩ := inv.threads t
  refine inv.turnTable (fun _ => inv.alone (.inl (by rw [here]; rfl))) ?_ (by simp [here]) (by simp [here])
  constructor <;> simp only [MutexState.Holds, Function.update_self] <;> grind

/-- One instruction of a running thread. -/
theorem instruction (inv : ExclusionInv env s) (step : s.instruction env t = some s') : ExclusionInv env s' := by
  simp only [MutexState.instruction] at step
  by_cases run : (s.thread t).state = .running
  case neg =>
    rw [if_pos run] at step
    cases step
  rw [if_neg (not_not.mpr run)] at step
  cases awake : (s.thread t).preempted with
  | true =>
    rw [if_pos awake] at step
    cases step
    exact inv.resume run awake
  | false =>
    rw [if_neg (by rw [awake]; decide)] at step
    cases here : (s.thread t).pc with
    | user =>
      rw [here] at step
      cases step
    | blocked =>
      rw [here] at step
      cases step
      exact inv.unblock run awake here
    | acqAsleep m =>
      rw [here] at step
      cases step
      exact inv.retry run awake here
    | acqLock m =>
      simp only [here, Option.ite_none_right_eq_some, Option.some.injEq] at step
      obtain ⟨free, rfl⟩ := step
      exact inv.takeLk run awake free (.inl ⟨here, rfl⟩)
    | relLock m =>
      simp only [here, Option.ite_none_right_eq_some, Option.some.injEq] at step
      obtain ⟨free, rfl⟩ := step
      exact inv.takeLk run awake free (.inr ⟨here, rfl⟩)
    | acqTest m =>
      rw [here] at step
      cases step
      exact inv.testLk run awake here
    | acqSet m =>
      simp only [here, Option.map_eq_some_iff] at step
      obtain ⟨locks, _, rfl⟩ := step
      exact inv.lockWord awake here locks
    | acqDone m =>
      rw [here] at step
      cases step
      exact inv.returnAcquire run awake here
    | acqSleep m =>
      simp only [here, Option.ite_none_right_eq_some, Option.some.injEq] at step
      obtain ⟨free, rfl⟩ := step
      exact inv.takeTable run awake free (.inl ⟨here, rfl⟩)
    | relWakeup m =>
      simp only [here, Option.ite_none_right_eq_some, Option.some.injEq] at step
      obtain ⟨free, rfl⟩ := step
      exact inv.takeTable run awake free (.inr ⟨here, rfl⟩)
    | acqUnlock m =>
      rw [here] at step
      cases step
      exact inv.giveLk awake (.inl ⟨here, rfl⟩)
    | acqSched m =>
      rw [here] at step
      cases step
      exact inv.goToSleep run awake here
    | relClear m =>
      simp only [here, Option.map_eq_some_iff] at step
      obtain ⟨locks, _, rfl⟩ := step
      exact inv.clearWord awake here locks
    | relWake1 m =>
      rw [here] at step
      cases step
      exact inv.wakeAll here
    | relTable m =>
      rw [here] at step
      cases step
      exact inv.giveTable run awake here
    | relDone m =>
      rw [here] at step
      cases step
      exact inv.giveLk awake (.inr ⟨here, rfl⟩)

omit [DecidableEq μ] in
/-- A thread gives the processor to the scheduler, in `yield` or asleep in some other call. -/
theorem leave (inv : ExclusionInv env s) (free : s.table = .free)
    (awake : (s.thread t).preempted = false) {th : MutexThread μ}
    (kinds : (s.thread t).pc.preemptible = true ∧ th = { s.thread t with state := .runnable, preempted := true } ∨
      (s.thread t).pc = .user ∧ ∃ chan, th = { s.thread t with state := .sleeping, chan := chan, pc := .blocked }) :
    ExclusionInv env ((s.setThread t th).setTable .scheduler) := by
  have outside : (s.thread t).pc.preemptible = true := by
    rcases kinds with ⟨preemptible, _⟩ | ⟨here, _⟩
    · exact preemptible
    · rw [here]
      rfl
  have calm : (s.thread t).pc.tabled = false ∧ (s.thread t).pc.asleep = false ∧ (s.thread t).pc.waking = none := by
    cases here : (s.thread t).pc <;> simp_all
  obtain ⟨lk_iff, table, running, preempted, sleeping, chan, held, once, unlocked, tested, waits⟩ := inv.threads t
  have quiet (m : μ) (wakes : (s.thread t).pc.waking = some m) : th.pc.waking = some m := by
    rw [calm.2.2] at wakes
    cases wakes
  refine inv.turnTable (by simp [free]) ?_ quiet (by grind)
  constructor <;> simp only [MutexState.Holds, Function.update_self] <;> grind

omit [DecidableEq μ] in
theorem dispatch (inv : ExclusionInv env s) (scheduling : s.table = .scheduler) (ready : (s.thread t).state = .runnable) :
    ExclusionInv env ((s.setThread t { s.thread t with state := .running }).setTable (.thread t)) := by
  obtain ⟨lk_iff, table, running, preempted, sleeping, chan, held, once, unlocked, tested, waits⟩ := inv.threads t
  refine inv.turnTable (by simp [scheduling]) ?_ (fun _ => id) rfl
  constructor <;> simp only [MutexState.Holds, Function.update_self] <;> grind

omit [DecidableEq τ] [DecidableEq μ] in
/-- A scheduler takes `ptable.lock` or lets it go. -/
theorem setTable (inv : ExclusionInv env s) (nobody : ∀ u, s.table ≠ .thread u) (table : TableLock τ) :
    ExclusionInv env (s.setTable table) := by
  refine ⟨?_, inv.unique⟩
  intro u
  exact (inv.threads u).frame rfl rfl (fun _ => Iff.rfl) (fun held => (nobody u held).elim) (fun _ _ => ⟨rfl, rfl⟩)
    fun _ _ => id

theorem step (inv : ExclusionInv env s) {a : MutexAction τ μ} (allowed : s.ReleasedByHolder a)
    (step : s.step env a = some s') : ExclusionInv env s' := by
  cases a with
  | macquire t m =>
    obtain ⟨user, rfl⟩ := by simpa only [MutexState.step, Option.ite_none_right_eq_some, Option.some.injEq] using step
    exact inv.call user
  | mrelease t m =>
    obtain ⟨user, rfl⟩ := by simpa only [MutexState.step, Option.ite_none_right_eq_some, Option.some.injEq] using step
    exact inv.callRelease user allowed
  | instruction t => exact inv.instruction step
  | yield t =>
    obtain ⟨⟨run, awake, preemptible, free⟩, rfl⟩ := by
      simpa only [MutexState.step, Option.ite_none_right_eq_some, Option.some.injEq] using step
    exact inv.leave free awake (.inl ⟨preemptible, rfl⟩)
  | sleep t chan =>
    obtain ⟨⟨⟨run, awake, user⟩, free⟩, rfl⟩ := by
      simpa only [MutexState.step, Option.ite_none_right_eq_some, Option.some.injEq] using step
    exact inv.leave free awake (.inr ⟨user, chan, rfl⟩)
  | wakeup chan =>
    obtain ⟨_, rfl⟩ := by simpa only [MutexState.step, Option.ite_none_right_eq_some, Option.some.injEq] using step
    exact inv.wakeup1 chan
  | kill t =>
    obtain ⟨_, rfl⟩ := by simpa only [MutexState.step, Option.ite_none_right_eq_some, Option.some.injEq] using step
    apply inv.awaken
    intro u
    by_cases mine : u = t
    · subst mine
      rw [Function.update_self]
      refine .inr ⟨true, _, rfl, ?_⟩
      split_ifs with asleep
      · exact .inr ⟨asleep, rfl⟩
      · exact .inl rfl
    · exact .inl (Function.update_of_ne mine ..)
  | schedAcquire =>
    obtain ⟨free, rfl⟩ := by simpa only [MutexState.step, Option.ite_none_right_eq_some, Option.some.injEq] using step
    exact inv.setTable (by simp [free]) _
  | schedRelease =>
    obtain ⟨held, rfl⟩ := by simpa only [MutexState.step, Option.ite_none_right_eq_some, Option.some.injEq] using step
    exact inv.setTable (by simp [held]) _
  | dispatch t =>
    obtain ⟨⟨held, ready⟩, rfl⟩ := by
      simpa only [MutexState.step, Option.ite_none_right_eq_some, Option.some.injEq] using step
    exact inv.dispatch held ready

end ExclusionInv

variable [DecidableEq τ] [DecidableEq μ]

/-- In every run in which mutexes are released by their holders only: a mutex has at most one holder between
`macquire` and `mrelease`, its `pid` is that of the holder, and while its spinlock is free and it is not
locked, nobody sleeps in `sys_macquire` of it. -/
theorem mutex_exclusion (env : MutexEnv τ μ)
    (reached : (mutexMachine env).ReachableBy MutexState.ReleasedByHolder s) (m : μ) :
    (∀ t t', s.owns t m = true → s.owns t' m = true → t = t') ∧
      (∀ t, s.owns t m = true → s.pid m = env.pid t) ∧
      (s.lk m = none → s.locked m = false →
        ∀ t, ¬ ((s.thread t).state = .sleeping ∧ (s.thread t).pc = .acqAsleep m)) := by
  have inv : ExclusionInv env s := by
    apply reached.invariant
    · rintro s rfl
      exact .initial
    · intro s a s' allowed step inv
      exact inv.step allowed step
  refine ⟨fun t t' first second => inv.unique t t' m (.inl first) (.inl second),
    fun t mine => ((inv.threads t).held m (.inl mine)).2, ?_⟩
  rintro free unlocked t asleep
  rcases (inv.threads t).waits m (.inr asleep) with locked | ⟨r, wakes⟩
  · rw [unlocked] at locked
    cases locked
  · have inside : (s.thread r).pc.inside = some m := by
      cases here : (s.thread r).pc <;> simp_all
    rw [← (inv.threads r).lk_iff, free] at inside
    cases inside

/-- Two threads with one mutex. -/
def oneMutex : MutexEnv Bool Unit := ⟨fun t => if t then 8 else 7, fun _ => 4096⟩

/-- A thread is dispatched and leaves the scheduler. -/
def getProcessor (t : Bool) : List (MutexAction Bool Unit) := [.schedAcquire, .dispatch t, .instruction t]

/-- The first thread acquires the mutex, the second goes to sleep on it. -/
def contended : List (MutexAction Bool Unit) :=
  getProcessor false ++ .macquire false () :: List.replicate 4 (.instruction false) ++
    getProcessor true ++ .macquire true () :: List.replicate 5 (.instruction true) ++ [.schedRelease]

theorem mutex_exclusion_contended : ∃ s, (mutexMachine oneMutex).ReachableBy MutexState.ReleasedByHolder s ∧
    s.owns false () = true ∧ (s.thread true).state = .sleeping ∧ (s.thread true).pc = .acqAsleep () ∧ s.pid () = 7 := by
  have run : ((mutexMachine oneMutex).runBy MutexState.ReleasedByHolder (.initial Bool Unit) contended).map
      (fun s => (s.owns false (), (s.thread true).state, (s.thread true).pc)) =
        some (true, .sleeping, .acqAsleep ()) := by decide +kernel
  obtain ⟨s, run, eq⟩ := Option.map_eq_some_iff.mp run
  simp only [Prod.mk.injEq] at eq
  have reached := Machine.reachableBy_of_runBy rfl contended run
  exact ⟨s, reached, eq.1, eq.2.1, eq.2.2, (mutex_exclusion oneMutex reached ()).2.1 false eq.1⟩

end Cs537.Xv6
