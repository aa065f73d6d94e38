import Cs537.Xv6.MutexCalls

/-! # The bounds of `locks_held`

Every process pushes with `sys_macquire` and removes with `sys_mrelease`, whose loop is taken one round a
step; `findminnice` reads the list of a runnable process up to its count. Mutexes and processes are as many
as one likes, and the channel of a call is any number. The word behind the array is the count itself.
-/

namespace Cs537.Xv6

open Lib

namespace LocksHeld

/-- The word at an index from the start of `locks_held`, up to the count behind the array. -/
def word (l : LocksHeld) (i : ℕ) : Option ℤ :=
  if i < capacity then some (l.slots i) else if i = capacity then some l.count else none

/-- The body of the `if` in the loop of `sys_mrelease`. -/
def swapLast (l : LocksHeld) (i : ℕ) : LocksHeld :=
  let last := (l.count - 1).toNat
  ⟨Function.update (Function.update l.slots i (l.slots last)) last 0, l.count - 1⟩

/-- The loop of `sys_mrelease`, round by round. -/
theorem removeLoop_succ (l : LocksHeld) (chan : ℤ) (fuel i : ℕ) :
    removeLoop chan (fuel + 1) i l = if (i : ℤ) < l.count then
      removeLoop chan fuel (i + 1) (if l.slots i = chan then l.swapLast i else l) else l := by
  rw [removeLoop]
  split_ifs <;> rfl

end LocksHeld

/-- Where a process stands in a mutex call, with the spinlock of the mutex held outside `user`. -/
inductive ListPc (μ : Type) where
  | user
  | wait (m : μ) (chan : ℤ)
  | push (m : μ) (chan : ℤ)
  | scan (m : μ) (chan : ℤ) (i : ℕ)
deriving DecidableEq, Repr

/-- The fields of `struct proc` that the calls use, and where the process stands. -/
structure ListProc (μ : Type) where
  state : ProcState
  locks : LocksHeld
  pc : ListPc μ

/-- The process table and the word of each mutex. -/
structure ListState (τ μ : Type) where
  proc : τ → ListProc μ
  locked : μ → Bool

/-- Who does what next. -/
inductive ListAction (τ μ : Type) where
  | macquire (t : τ) (m : μ) (chan : ℤ)
  | mrelease (t : τ) (m : μ) (chan : ℤ)
  | instruction (t : τ)
  | wake (t : τ)
  | yield (t : τ)
  | dispatch (t : τ)
  | allocproc (t : τ)
  | setRunnable (t : τ)
  | exit (t : τ)
  | reap (t : τ)

namespace ListState

variable {τ μ : Type} [DecidableEq τ] [DecidableEq μ] (s : ListState τ μ)

def setProc (t : τ) (p : ListProc μ) : ListState τ μ := { s with proc := Function.update s.proc t p }

omit [DecidableEq μ] in
@[simp]
theorem setProc_self (t : τ) (p : ListProc μ) : (s.setProc t p).proc t = p := Function.update_self ..

omit [DecidableEq μ] in
theorem setProc_of_ne {t u : τ} (p : ListProc μ) (apart : t ≠ u) : (s.setProc u p).proc t = s.proc t :=
  Function.update_of_ne apart ..

/-- The state of a process changes from one value to another. -/
def become (t : τ) (old new : ProcState) : Option (ListState τ μ) :=
  if (s.proc t).state = old ∧ (s.proc t).pc = .user then some (s.setProc t { s.proc t with state := new }) else none

/-- Entry of a call. -/
def enter (t : τ) (pc : ListPc μ) : Option (ListState τ μ) :=
  if (s.proc t).state = .running ∧ (s.proc t).pc = .user then some (s.setProc t { s.proc t with pc := pc }) else none

/-- The next instruction of a call. -/
def instruction (t : τ) : Option (ListState τ μ) :=
  let p := s.proc t
  if p.state ≠ .running then none
  else match p.pc with
    | .user => none
    | .wait m chan =>
        if s.locked m then some (s.setProc t { p with state := .sleeping })
        else some { s.setProc t { p with pc := .push m chan } with locked := Function.update s.locked m true }
    | .push _ chan => (p.locks.push chan).map fun locks => s.setProc t { p with locks := locks, pc := .user }
    | .scan m chan i =>
        if (i : ℤ) < p.locks.count then
          (p.locks.word i).map fun value =>
            s.setProc t { p with
              locks := if value = chan then p.locks.swapLast i else p.locks
              pc := .scan m chan (i + 1) }
        else some { s.setProc t { p with pc := .user } with locked := Function.update s.locked m false }

/-- One step of one process, of the scheduler, or of whoever wakes processes up. -/
def step : ListAction τ μ → Option (ListState τ μ)
  | .macquire t m chan => s.enter t (.wait m chan)
  | .mrelease t m chan => s.enter t (.scan m chan 0)
  | .instruction t => s.instruction t
  | .wake t =>
      if (s.proc t).state = .sleeping then some (s.setProc t { s.proc t with state := .runnable }) else none
  | .dispatch t =>
      if (s.proc t).state = .runnable then some (s.setProc t { s.proc t with state := .running }) else none
  | .yield t => s.become t .running .runnable
  | .allocproc t =>
      (s.become t .unused .embryo).map fun s =>
        s.setProc t { s.proc t with locks := { (s.proc t).locks with count := 0 } }
  | .setRunnable t => s.become t .embryo .runnable
  | .exit t => s.become t .running .zombie
  | .reap t => s.become t .zombie .unused

/-- The table is zero. -/
def initial (τ μ : Type) : ListState τ μ where
  proc _ := ⟨.unused, ⟨fun _ => 0, 0⟩, .user⟩
  locked _ := false

/-- The indices of `locks_held` of a process that some code reads or writes next: the store of
`sys_macquire`, a round of the loop of `sys_mrelease`, and the loop of `findminnice`. -/
inductive Accesses (s : ListState τ μ) (t : τ) : ℤ → Prop
  | push (m : μ) (chan : ℤ) (pc : (s.proc t).pc = .push m chan) : Accesses s t (s.proc t).locks.count
  | scan (m : μ) (chan : ℤ) (i : ℕ) (pc : (s.proc t).pc = .scan m chan i)
      (inside : (i : ℤ) < (s.proc t).locks.count) : Accesses s t i
  | swap (m : μ) (chan : ℤ) (i : ℕ) (pc : (s.proc t).pc = .scan m chan i)
      (inside : (i : ℤ) < (s.proc t).locks.count) (found : (s.proc t).locks.word i = some chan) :
      Accesses s t ((s.proc t).locks.count - 1)
  | findminnice (i : ℕ) (runnable : (s.proc t).state = .runnable)
      (inside : (i : ℤ) < (s.proc t).locks.count) : Accesses s t i

/-- A process calls `sys_macquire` while an element of `locks_held` is free. -/
def HasRoom : ListAction τ μ → Prop
  | .macquire t _ _ => (s.proc t).locks.count < LocksHeld.capacity
  | _ => True

instance : (a : ListAction τ μ) → Decidable (s.HasRoom a)
  | .macquire t _ _ => inferInstanceAs (Decidable ((s.proc t).locks.count < _))
  | .mrelease .. | .instruction _ | .wake _ | .yield _ | .dispatch _ | .allocproc _ | .setRunnable _ | .exit _
  | .reap _ => isTrue trivial

end ListState

/-- Processes `τ` and mutexes `μ`, with the list of each process. -/
def listMachine (τ μ : Type) [DecidableEq τ] [DecidableEq μ] : Machine (ListState τ μ) (ListAction τ μ) where
  init s := s = .initial τ μ
  step := ListState.step

section Bounds

variable {τ μ : Type}

/-- The count of a process is in range, and a process inside `sys_macquire` has room for one more. -/
structure InBounds (locks : LocksHeld) (pc : ListPc μ) : Prop where
  nonneg : 0 ≤ locks.count
  le : locks.count ≤ LocksHeld.capacity
  room : ∀ m chan, pc = .wait m chan ∨ pc = .push m chan → locks.count < LocksHeld.capacity

private theorem LocksHeld.push_count {l l' : LocksHeld} {chan : ℤ} (nonneg : 0 ≤ l.count) (room : l.count < capacity)
    (pushed : l.push chan = some l') : l'.count = l.count + 1 := by
  rw [push, if_pos ⟨nonneg, room⟩] at pushed
  cases pushed
  rfl

variable [DecidableEq τ] [DecidableEq μ] {s s' : ListState τ μ}

/-- The lists of all processes are within bounds. -/
def AllInBounds (s : ListState τ μ) : Prop := ∀ t, InBounds (s.proc t).locks (s.proc t).pc

omit [DecidableEq μ] in
theorem AllInBounds.setProc (inv : AllInBounds s) {u : τ} {p : ListProc μ} (bounds : InBounds p.locks p.pc) :
    AllInBounds (s.setProc u p) := by
  intro t
  by_cases own : t = u
  · subst own
    rw [ListState.setProc_self]
    exact bounds
  · rw [ListState.setProc_of_ne _ _ own]
    exact inv t

private theorem AllInBounds.become (inv : AllInBounds s) {u : τ} {old new : ProcState}
    (step : s.become u old new = some s') : AllInBounds s' := by
  rw [ListState.become] at step
  split_ifs at step
  cases step
  exact inv.setProc (inv u)

theorem AllInBounds.enter (inv : AllInBounds s) {u : τ} {pc : ListPc μ}
    (room : ∀ m chan, pc = .wait m chan ∨ pc = .push m chan → (s.proc u).locks.count < LocksHeld.capacity)
    (step : s.enter u pc = some s') : AllInBounds s' := by
  rw [ListState.enter] at step
  split_ifs at step
  cases step
  exact inv.setProc ⟨(inv u).nonneg, (inv u).le, room⟩

theorem AllInBounds.instruction (inv : AllInBounds s) {u : τ} (step : s.instruction u = some s') :
    AllInBounds s' := by
  obtain ⟨nonneg, le, room⟩ := inv u
  simp only [ListState.instruction] at step
  split_ifs at step
  cases pc : (s.proc u).pc with
  | user =>
    rw [pc] at step
    cases step
  | wait m chan =>
    rw [pc] at step
    have free := room m chan (.inl pc)
    dsimp only at step
    split_ifs at step <;> cases step
    · exact inv.setProc ⟨nonneg, le, fun _ _ _ => free⟩
    · exact inv.setProc (p := ⟨_, _, .push m chan⟩) ⟨nonneg, le, fun _ _ _ => free⟩
  | push m chan =>
    rw [pc] at step
    have free := room m chan (.inr pc)
    obtain ⟨locks, pushed, rfl⟩ := Option.map_eq_some_iff.mp step
    have count := LocksHeld.push_count nonneg free pushed
    exact inv.setProc ⟨by simp only; omega, by simp only; omega, by simp⟩
  | scan m chan i =>
    rw [pc] at step
    dsimp only at step
    split_ifs at step with inside
    · obtain ⟨value, _, rfl⟩ := Option.map_eq_some_iff.mp step
      refine inv.setProc ?_
      dsimp only
      split_ifs
      · exact ⟨by simp only [LocksHeld.swapLast]; omega, by simp only [LocksHeld.swapLast]; omega, by simp⟩
      · exact ⟨nonneg, le, by simp⟩
    · cases step
      exact inv.setProc (p := ⟨_, _, .user⟩) ⟨nonneg, le, by simp⟩

theorem AllInBounds.step {a : ListAction τ μ} (inv : AllInBounds s) (room : s.HasRoom a)
    (step : s.step a = some s') : AllInBounds s' := by
  cases a <;> simp only [ListState.step] at step
  case macquire u m chan => exact inv.enter (fun _ _ _ => room) step
  case mrelease u m chan => exact inv.enter (by simp) step
  case instruction u => exact inv.instruction step
  case wake u | dispatch u =>
    split_ifs at step
    cases step
    exact inv.setProc (inv u)
  case yield u | setRunnable u | exit u | reap u => exact inv.become step
  case allocproc u =>
    obtain ⟨mid, created, rfl⟩ := Option.map_eq_some_iff.mp step
    have zero : (0 : ℤ) < LocksHeld.capacity := by simp [LocksHeld.capacity]
    exact (inv.become created).setProc ⟨le_rfl, zero.le, fun _ _ _ => zero⟩

omit [DecidableEq τ] [DecidableEq μ] in
/-- What is accessed of a list within bounds is an element of the array. -/
theorem AllInBounds.accesses (inv : AllInBounds s) {t : τ} {i : ℤ} (accesses : s.Accesses t i) :
    0 ≤ i ∧ i < LocksHeld.capacity := by
  obtain ⟨nonneg, le, room⟩ := inv t
  cases accesses with
  | push m chan pc => exact ⟨nonneg, room m chan (.inr pc)⟩
  | scan m chan i pc inside => exact ⟨by omega, by omega⟩
  | swap m chan i pc inside found => exact ⟨by omega, by omega⟩
  | findminnice i runnable inside => exact ⟨by omega, by omega⟩

theorem AllInBounds.of_reachable (reached : (listMachine τ μ).ReachableBy ListState.HasRoom s) : AllInBounds s := by
  apply reached.invariant
  · rintro s rfl t
    exact ⟨le_rfl, Int.natCast_nonneg _, by simp [ListState.initial]⟩
  · intro s a t room step inv
    exact inv.step room step

/-- A process that finds its mutex free takes it and stores next. -/
theorem taken {t : τ} {m : μ} {chan : ℤ} (running : (s.proc t).state = .running)
    (pc : (s.proc t).pc = .wait m chan) (free : s.locked m = false) :
    ∃ s', s.step (.instruction t) = some s' ∧ s'.Accesses t (s.proc t).locks.count := by
  refine ⟨{ s.setProc t { s.proc t with pc := .push m chan } with locked := Function.update s.locked m true }, ?_, ?_⟩
  · simp [ListState.step, ListState.instruction, running, pc, free]
  · have access : ListState.Accesses { s.setProc t { s.proc t with pc := .push m chan } with
        locked := Function.update s.locked m true } t _ := .push m chan (by simp)
    simpa using access

/-- In every run in which `sys_macquire` is called only while an element is free, the count of every process
stays between 0 and 16 and no index outside of the array is used; and a call that finds all elements taken
and its mutex free goes on to store behind the array. -/
theorem locks_held_in_bounds (reached : (listMachine τ μ).ReachableBy ListState.HasRoom s) :
    (∀ t, 0 ≤ (s.proc t).locks.count ∧ (s.proc t).locks.count ≤ 16 ∧ ∀ i, s.Accesses t i → 0 ≤ i ∧ i < 16) ∧
    ∀ t m chan s', s.step (.macquire t m chan) = some s' → ¬ s.HasRoom (.macquire t m chan) → s.locked m = false →
      ∃ s'', s'.step (.instruction t) = some s'' ∧ s''.Accesses t 16 := by
  have inv := AllInBounds.of_reachable reached
  refine ⟨fun t => ⟨(inv t).nonneg, (inv t).le, fun i => inv.accesses⟩, ?_⟩
  intro t m chan s' step full free
  have count : (s.proc t).locks.count = 16 := le_antisymm (inv t).le (not_lt.mp full)
  simp only [ListState.step, ListState.enter] at step
  split_ifs at step with user
  cases step
  have running : ((s.setProc t { s.proc t with pc := .wait m chan }).proc t).state = .running := by
    rw [ListState.setProc_self]
    exact user.1
  have waits : ((s.setProc t { s.proc t with pc := .wait m chan }).proc t).pc = .wait m chan := by
    rw [ListState.setProc_self]
  obtain ⟨s'', stepped, access⟩ := taken running waits free
  rw [ListState.setProc_self, count] at access
  exact ⟨s'', stepped, access⟩

end Bounds

/-- A new process acquires the first mutexes of the machine, each with the channel of a page of its own. -/
def acquireMany (n : ℕ) : List (ListAction Unit ℕ) :=
  [.allocproc (), .setRunnable (), .dispatch ()] ++
    (List.range n).flatMap fun m => [.macquire () m (4096 * m - 2114342809), .instruction (), .instruction ()]

theorem locks_held_in_bounds_full : ∃ s : ListState Unit ℕ, (listMachine Unit ℕ).ReachableBy ListState.HasRoom s ∧
    (s.proc ()).locks.count = 16 ∧ ∀ i, s.Accesses () i → 0 ≤ i ∧ i < 16 := by
  have ran : ((listMachine Unit ℕ).runBy ListState.HasRoom (.initial Unit ℕ) (acquireMany 16)).map
      (fun s => (s.proc ()).locks.count) = some 16 := by decide +kernel
  obtain ⟨s, run, count⟩ := Option.map_eq_some_iff.mp ran
  have reached := Machine.reachableBy_of_runBy (m := listMachine Unit ℕ) rfl _ run
  exact ⟨s, reached, count, ((locks_held_in_bounds reached).1 ()).2.2⟩

/-- The seventeenth mutex is stored behind the array, in the count. -/
theorem locks_held_seventeen : ∃ s s' : ListState Unit ℕ, (listMachine Unit ℕ).Reachable s ∧ s.Accesses () 16 ∧
    s.step (.instruction ()) = some s' ∧ (s'.proc ()).locks.count = -2114277273 := by
  have ran : ((listMachine Unit ℕ).run (.initial Unit ℕ)
      (acquireMany 16 ++ [.macquire () 16 (-2114277273), .instruction ()])).map
      (fun s => ((s.proc ()).pc, (s.proc ()).locks.count,
        (s.step (.instruction ())).map fun s' => (s'.proc ()).locks.count)) =
      some (.push 16 (-2114277273), 16, some (-2114277273)) := by decide +kernel
  obtain ⟨s, run, seen⟩ := Option.map_eq_some_iff.mp ran
  simp only [Prod.mk.injEq, Option.map_eq_some_iff] at seen
  obtain ⟨pc, count, s', step, overwritten⟩ := seen
  refine ⟨s, s', (listMachine Unit ℕ).reachable_of_run rfl _ run, ?_, step, overwritten⟩
  rw [← count]
  exact .push 16 (-2114277273) pc

end Cs537.Xv6
