import Cs537.Xv6.VmCalls

/-! # The counts are right in every run

Every call keeps the agreement of the reference counts with the process table, and the only processes that
leave a directory are a child that `wait` reaps and a process whose `exec` succeeds.
-/

namespace Cs537.Xv6

open Lib

variable {s s' : Vm} {p q : Fin nproc} {d : ℕ} {a : VmAction} {panic : Panic}

/-- A process that used the directory does not use it after the call. -/
def Vm.Leaves (s s' : Vm) (d : ℕ) : VmAction → Prop
  | .wait p => ∃ q, (s.proc q).parent = some p ∧ (s.proc q).state = .zombie ∧ (s.proc q).pgdir = d ∧
      (s'.proc q).state = .unused
  | .exec p _ _ => (s.proc p).pgdir = d ∧ (s'.proc p).pgdir ≠ d
  | .fork .. | .clone _ | .exit _ | .sbrk .. => False

/-- The call keeps the counts right, and takes a user away only from a directory that is left. -/
structure Counted (s s' : Vm) (a : VmAction) : Prop where
  inv : RefInv s'
  left : ∀ d, s.Leaves s' d a → s'.users d + 1 = s.users d
  kept : ∀ d, s.dir d ≠ none → ¬ s.Leaves s' d a → s.users d ≤ s'.users d

namespace RefInv

theorem of_quiet (inv : RefInv s) (quiet : Quiet s s') : RefInv s' := by
  rw [RefInv, Vm.users_congr quiet.user, quiet.refs, quiet.dir]
  exact inv

private theorem counted_of_quiet (inv : RefInv s) (quiet : Quiet s s') (stays : ∀ d, ¬ s.Leaves s' d a) : Counted s s' a := by
  refine ⟨inv.of_quiet quiet, fun d leaves => (stays d leaves).elim, fun d _ _ => ?_⟩
  rw [Vm.users_congr quiet.user]

theorem counted_fork (inv : RefInv s) {fresh : ℕ} (running : (s.proc p).state = .runnable) (free : s.Fresh fresh)
    (called : s.fork p fresh = .ok s') : Counted s s' (.fork p fresh) := by
  rcases inv.fork_cases running free with ⟨s₁, ok, quiet⟩ | ⟨_, _, _, _, _, failed⟩ |
    ⟨np, _, _, space, s₁, unused, _, _, ok, proc, refs, dir⟩
  · cases called.symm.trans ok
    exact inv.counted_of_quiet quiet fun _ => id
  · cases called.symm.trans failed
  · cases called.symm.trans ok
    have none := (inv.fresh free).1
    have busy : ProcState.runnable ≠ .unused := by decide
    have users : s'.users = Function.update s.users fresh 1 := by
      rw [Vm.users_join unused busy proc, none]
    refine ⟨?_, fun _ leaves => leaves.elim, fun d present _ => ?_⟩
    · rw [RefInv, users, refs, dir]
      exact inv.add free.1 free.2 space.dir
    · have apart : d ≠ fresh := by
        rintro rfl
        exact present free.2
      rw [users, Function.update_of_ne apart]

theorem counted_clone (inv : RefInv s) (running : (s.proc p).state = .runnable) : Counted s (s.clone p) (.clone p) := by
  rcases inv.clone_cases running with same | ⟨np, unused, proc, dir, counted⟩
  · rw [same]
    exact inv.counted_of_quiet ⟨fun _ => rfl, rfl, rfl⟩ fun _ => id
  · have busy : ProcState.runnable ≠ .unused := by decide
    have users : (s.clone p).users = Function.update s.users (s.proc p).pgdir (s.users (s.proc p).pgdir + 1) := by
      refine (Vm.users_join unused ?_ proc).trans rfl
      exact busy
    refine ⟨?_, fun _ leaves => leaves.elim, fun d _ _ => ?_⟩
    · rw [RefInv, users, dir]
      exact counted
    · rw [users]
      by_cases here : d = (s.proc p).pgdir
      · rw [here, Function.update_self]
        omega
      · rw [Function.update_of_ne here]

private theorem counted_exec (inv : RefInv s) {program : Program} {fresh : ℕ} (running : (s.proc p).state = .runnable)
    (free : s.Fresh fresh) (called : s.exec p program fresh = .ok s') : Counted s s' (.exec p program fresh) := by
  have busy : (s.proc p).state ≠ .unused := by
    rw [running]
    decide
  rcases inv.exec_cases running free program with ⟨s₁, ok, quiet⟩ | ⟨_, failed, _⟩ | ⟨sz, s₁, ok, proc, counted⟩
  · cases called.symm.trans ok
    refine inv.counted_of_quiet quiet ?_
    rintro d ⟨here, apart⟩
    have same := quiet.user p
    simp only [VmProc.user, if_neg busy] at same
    split at same
    · cases same
    · exact apart ((Prod.ext_iff.mp (Option.some.inj same)).1.trans here)
  · cases called.symm.trans failed
  · cases called.symm.trans ok
    have none := (inv.fresh free).1
    have apart := inv.pgdir_ne_fresh busy free
    have positive := Vm.users_pos busy
    have users : s'.users = Function.update (Function.update s.users fresh 1) (s.proc p).pgdir
        (s.users (s.proc p).pgdir - 1) := by
      refine (Vm.users_move busy ?_ ?_ proc).trans ?_
      · exact busy
      · exact apart
      · rw [none]
    refine ⟨?_, ?_, ?_⟩
    · rw [RefInv, users]
      exact counted
    · rintro d ⟨rfl, _⟩
      rw [users, Function.update_self]
      omega
    · intro d present stays
      have other : d ≠ (s.proc p).pgdir := by
        rintro rfl
        refine stays ⟨rfl, ?_⟩
        rw [proc, Function.update_self]
        exact Ne.symm apart
      have old : d ≠ fresh := by
        rintro rfl
        exact present free.2
      rw [users, Function.update_of_ne other, Function.update_of_ne old]

theorem counted_wait (inv : RefInv s) (called : s.wait p = .ok s') : Counted s s' (.wait p) := by
  rcases inv.wait_cases p with ok | ⟨q, s₁, child, zombie, ok, proc, _, counted⟩
  · cases called.symm.trans ok
    refine inv.counted_of_quiet ⟨fun _ => rfl, rfl, rfl⟩ ?_
    rintro d ⟨q, _, zombie, _, unused⟩
    rw [zombie] at unused
    cases unused
  · cases called.symm.trans ok
    have busy : (s.proc q).state ≠ .unused := by
      rw [zombie]
      decide
    have positive := Vm.users_pos busy
    have users : s'.users = Function.update s.users (s.proc q).pgdir (s.users (s.proc q).pgdir - 1) :=
      Vm.users_leave busy rfl proc
    refine ⟨?_, ?_, ?_⟩
    · rw [RefInv, users]
      exact counted
    · rintro d ⟨q', _, zombie', rfl, unused⟩
      have same : q' = q := by
        by_contra apart
        rw [proc, Function.update_of_ne apart, zombie'] at unused
        cases unused
      rw [same, users, Function.update_self]
      omega
    · intro d _ stays
      have other : d ≠ (s.proc q).pgdir := by
        rintro rfl
        exact stays ⟨q, child, zombie, rfl, by rw [proc, Function.update_self]⟩
      rw [users, Function.update_of_ne other]

theorem counted_growproc (inv : RefInv s) {n : ℤ} (running : (s.proc p).state = .runnable)
    (called : s.growproc p n = .ok s') : Counted s s' (.sbrk p n) := by
  have busy : (s.proc p).state ≠ .unused := by
    rw [running]
    decide
  rcases inv.growproc_cases running n with ⟨_, failed, _⟩ | ⟨content, sz, s₁, ok, proc, refs, dir⟩
  · cases called.symm.trans failed
  · cases called.symm.trans ok
    have users : s'.users = s.users := by
      funext d
      simp only [Vm.users, countWhere, proc]
      congr 1
      refine Finset.filter_congr fun q _ => ?_
      by_cases here : q = p
      · rw [here, Function.update_self]
      · rw [Function.update_of_ne here]
    refine ⟨?_, fun _ leaves => leaves.elim, fun d _ _ => by rw [users]⟩
    rw [RefInv, users, refs, dir]
    exact inv.setDir (inv.dir_ne_none busy) content

private theorem counted_call (inv : RefInv s) (enabled : s.Enabled a) (called : s.call a = .ok s') : Counted s s' a := by
  cases a with
  | fork p fresh => exact inv.counted_fork enabled.1 enabled.2 called
  | clone p =>
    cases called
    exact inv.counted_clone enabled.1
  | exec p program fresh => exact inv.counted_exec enabled.1 enabled.2 called
  | exit p =>
    rcases exit_cases s enabled.1 with failed | ⟨s₁, ok, quiet⟩
    · cases called.symm.trans failed
    · cases called.symm.trans ok
      exact inv.counted_of_quiet quiet fun _ => id
  | wait p => exact inv.counted_wait called
  | sbrk p n => exact inv.counted_growproc enabled.1 called

/-- The only panics left are those of the page tables and the exit of `init`. -/
private theorem call_error (inv : RefInv s) (enabled : s.Enabled a) (failed : s.call a = .error panic) :
    panic.Paging ∨ panic = .initExiting := by
  cases a with
  | fork p fresh =>
    rcases inv.fork_cases enabled.1 enabled.2 with ⟨_, ok, _⟩ | ⟨_, _, _, _, copied, error⟩ |
      ⟨_, _, _, _, _, _, _, _, ok, _⟩
    · cases failed.symm.trans ok
    · cases failed.symm.trans error
      exact .inl (copyuvm_error copied)
    · cases failed.symm.trans ok
  | clone p => cases failed
  | exec p program fresh =>
    rcases inv.exec_cases enabled.1 enabled.2 program with ⟨_, ok, _⟩ | ⟨_, error, paging⟩ | ⟨_, _, ok, _⟩
    · cases failed.symm.trans ok
    · cases failed.symm.trans error
      exact .inl paging
    · cases failed.symm.trans ok
  | exit p =>
    rcases exit_cases s enabled.1 with error | ⟨_, ok, _⟩
    · cases failed.symm.trans error
      exact .inr rfl
    · cases failed.symm.trans ok
  | wait p =>
    rcases inv.wait_cases p with ok | ⟨_, _, _, _, ok, _⟩
    · cases failed.symm.trans ok
    · cases failed.symm.trans ok
  | sbrk p n =>
    rcases inv.growproc_cases enabled.1 n with ⟨_, error, paging⟩ | ⟨_, _, _, ok, _⟩
    · cases failed.symm.trans error
      exact .inl paging
    · cases failed.symm.trans ok

theorem initial (nfree : ℕ) : RefInv (Vm.initial nfree) := by
  have invalid (i : Fin nproc) : ¬ ((Vm.initial nfree).uvmrefcount i).Valid := fun valid => valid rfl
  have users : (Vm.initial nfree).users = Function.update (fun _ => 0) 1 1 := by
    let empty : Vm := { Vm.initial nfree with proc := fun _ => ⟨.unused, 0, 0, none⟩ }
    have unused : empty.users = fun _ => 0 := by
      funext d
      exact countWhere_eq_zero fun _ => by simp [empty]
    have proc : (Vm.initial nfree).proc = Function.update empty.proc Vm.initproc ⟨.runnable, 1, 4096, none⟩ := by
      funext q
      by_cases here : q = Vm.initproc
      · rw [here, Function.update_self]
        rfl
      · rw [Function.update_of_ne here]
        exact if_neg here
    have busy : ProcState.runnable ≠ .unused := by decide
    refine (Vm.users_join rfl ?_ proc).trans ?_
    · exact busy
    · rw [unused]
  rw [RefInv, users]
  refine ⟨fun i _ valid => (invalid i valid).elim, fun i valid => (invalid i valid).elim, ?_, ?_, rfl⟩
  · intro d used _
    by_cases here : d = 1
    · rw [here, Function.update_self]
    · rw [Function.update_of_ne here] at used
      cases used
  · intro d
    by_cases here : d = 1
    · subst here
      simp [Vm.initial]
    · simp [Vm.initial, here]

theorem step (inv : RefInv s) (stepped : s.step a = some s') : Counted s s' a := by
  obtain ⟨enabled, called⟩ := Option.ite_none_right_eq_some.mp stepped
  cases result : s.call a with
  | error panic =>
    rw [result] at called
    cases called
  | ok s₁ =>
    rw [result] at called
    cases called
    exact inv.counted_call enabled result

/-- The directory goes with its last user. -/
private theorem released_iff (inv : RefInv s) (stepped : s.step a = some s') (present : s.dir d ≠ none) :
    s'.dir d = none ↔ s.users d = 1 ∧ s.Leaves s' d a := by
  have counted := inv.step stepped
  have before := (inv.alloc d).mp present
  have after := counted.inv.alloc d
  by_cases leaves : s.Leaves s' d a
  · have fewer := counted.left d leaves
    refine ⟨fun released => ⟨?_, leaves⟩, fun last => ?_⟩
    · have none : ¬ 0 < s'.users d := fun used => after.mpr used released
      omega
    · by_contra kept
      have := after.mp kept
      omega
  · have more := counted.kept d present leaves
    refine ⟨fun released => ?_, fun last => (leaves last.2).elim⟩
    exact (after.mpr (by omega) released).elim

theorem reachable (reached : vmMachine.Reachable s) : RefInv s := by
  refine reached.invariant ?_ fun s a s' stepped inv => (inv.step stepped).inv
  rintro s ⟨nfree, rfl⟩
  exact RefInv.initial nfree

end RefInv

/-- In every run the entry of a directory counts its users and a directory without an entry has one user;
`clone` finds an entry, no count is invalid, and the pages of a directory are given back by the call with
which its last user leaves. -/
theorem refcounts_correct (reached : vmMachine.Reachable s) :
    (∀ d, 0 < s.users d →
      (∀ i, (s.uvmrefcount i).Valid → (s.uvmrefcount i).pgdir = d → (s.uvmrefcount i).refcount = s.users d ∧
        ∀ j, (s.uvmrefcount j).Valid → (s.uvmrefcount j).pgdir = d → j = i) ∧
      ((∀ i, (s.uvmrefcount i).Valid → (s.uvmrefcount i).pgdir ≠ d) → s.users d = 1)) ∧
    (∀ p np s₁, (s.proc p).state = .runnable → s.allocproc = some (np, s₁) → s₁.locate (s₁.proc p).pgdir = none →
      s₁.freeRef ≠ none) ∧
    (∀ a, s.Enabled a → s.call a ≠ .error .invalidRefcount) ∧
    (∀ d, s.dir d ≠ none ↔ 0 < s.users d) ∧
    ∀ a s' d, s.step a = some s' → s.dir d ≠ none → (s'.dir d = none ↔ s.users d = 1 ∧ s.Leaves s' d a) := by
  have inv := RefInv.reachable reached
  refine ⟨?_, ?_, ?_, inv.alloc, fun a s' d stepped present => inv.released_iff stepped present⟩
  · intro d used
    refine ⟨?_, inv.single d used⟩
    rintro i valid rfl
    exact ⟨(inv.counted i valid).1, fun j other same => inv.unique j i other valid same⟩
  · intro p np s₁ running allocated missing
    have busy : (s.proc p).state ≠ .unused := by
      rw [running]
      decide
    obtain ⟨unused, _, rfl⟩ := Vm.allocproc_eq_some allocated
    have apart : p ≠ np := by
      rintro rfl
      exact busy unused
    simp only [Vm.setProc, Function.update_of_ne apart] at missing
    obtain ⟨i, found, _⟩ := inv.exists_free (Vm.users_pos busy) missing
    exact Option.ne_none_iff_exists'.mpr ⟨i, found⟩
  · intro a enabled failed
    rcases inv.call_error enabled failed with (remap | missing | absent) | exiting
    · cases remap
    · cases missing
    · cases absent
    · cases exiting

/-- `init` makes two threads, of which one exits and is reaped and the other replaces its image. -/
def threadGroup : List VmAction :=
  [.clone Vm.initproc, .clone Vm.initproc, .exit 1, .wait Vm.initproc, .exec 2 ⟨[(4096, true)], true⟩ 2]

theorem refcounts_correct_threadGroup : ∃ s, vmMachine.Reachable s ∧ s.users 1 = 1 ∧ s.users 2 = 1 ∧
    (s.uvmrefcount 0).Valid ∧ (s.uvmrefcount 0).pgdir = 1 ∧ (s.uvmrefcount 0).refcount = s.users 1 := by
  have run : (vmMachine.run (.initial 300) threadGroup).map (fun s =>
      (s.users 1, s.users 2, s.uvmrefcount 0)) = some (1, 1, ⟨1, 1⟩) := by decide +kernel
  obtain ⟨s, run, eq⟩ := Option.map_eq_some_iff.mp run
  simp only [Prod.mk.injEq] at eq
  obtain ⟨first, second, entry⟩ := eq
  have reached := Machine.reachable_of_run vmMachine ⟨300, rfl⟩ threadGroup run
  have used : 0 < s.users 1 := by
    rw [first]
    decide
  have valid : (s.uvmrefcount 0).Valid := by
    simp [entry, Uvmdesc.Valid]
  have mine : (s.uvmrefcount 0).pgdir = 1 := by
    rw [entry]
  exact ⟨s, reached, first, second, valid, mine, (((refcounts_correct reached).1 1 used).1 0 valid mine).1⟩

end Cs537.Xv6
