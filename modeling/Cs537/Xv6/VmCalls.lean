import Cs537.Xv6.RefCounts

/-! # What each call does to the process table

One lemma per system call says which slots, entries and directories it changes, on the assumption that the
reference counts agree with the table. The invariants of the next modules are read off these lemmas.
-/

namespace Cs537.Xv6

open Lib

/-- The panics of `mappages` and `copyuvm`. -/
def Panic.Paging (panic : Panic) : Prop := panic = .remap ∨ panic = .pteShouldExist ∨ panic = .pageNotPresent

/-- The directory and the size of a slot that is not `UNUSED`. -/
def VmProc.user (p : VmProc) : Option (ℕ × ℕ) := if p.state = .unused then none else some (p.pgdir, p.sz)

/-- The table of counts and the directories agree with the process table. -/
def RefInv (s : Vm) : Prop := RefsFor s.uvmrefcount s.dir s.users

/-- The call changes no user, no entry and no directory. -/
structure Quiet (s s' : Vm) : Prop where
  user : ∀ q, (s'.proc q).user = (s.proc q).user
  refs : s'.uvmrefcount = s.uvmrefcount
  dir : s'.dir = s.dir

variable {s s' : Vm} {p np q : Fin nproc} {d fresh : ℕ} {panic : Panic}

namespace Vm

theorem users_congr (same : ∀ q, (s'.proc q).user = (s.proc q).user) : s'.users = s.users := by
  funext d
  simp only [users, countWhere]
  congr 1
  refine Finset.filter_congr fun q _ => ?_
  have here := same q
  simp only [VmProc.user] at here
  grind

/-- A slot that was `UNUSED` joins a directory. -/
theorem users_join (unused : (s.proc np).state = .unused) {value : VmProc} (busy : value.state ≠ .unused)
    (proc : s'.proc = Function.update s.proc np value) :
    s'.users = Function.update s.users value.pgdir (s.users value.pgdir + 1) := by
  funext d
  have moved := countWhere_update (fun p : VmProc => decide (p.state ≠ .unused ∧ p.pgdir = d)) s.proc np value
  rw [← proc] at moved
  by_cases here : d = value.pgdir
  · subst here
    simp only [unused, busy, ne_eq, not_true_eq_false, not_false_eq_true, false_and, true_and, decide_false,
      decide_true, Bool.toNat_false, Bool.toNat_true] at moved
    rw [Function.update_self, users, users]
    exact moved
  · simp only [unused, Ne.symm here, ne_eq, not_true_eq_false, false_and, and_false, decide_false,
      Bool.toNat_false] at moved
    rw [Function.update_of_ne here, users, users]
    exact moved

/-- A slot leaves its directory. -/
theorem users_leave (busy : (s.proc q).state ≠ .unused) {value : VmProc} (unused : value.state = .unused)
    (proc : s'.proc = Function.update s.proc q value) :
    s'.users = Function.update s.users (s.proc q).pgdir (s.users (s.proc q).pgdir - 1) := by
  funext d
  have moved := countWhere_update (fun p : VmProc => decide (p.state ≠ .unused ∧ p.pgdir = d)) s.proc q value
  rw [← proc] at moved
  by_cases here : d = (s.proc q).pgdir
  · subst here
    simp only [unused, busy, ne_eq, not_true_eq_false, not_false_eq_true, false_and, true_and, decide_false,
      decide_true, Bool.toNat_false, Bool.toNat_true] at moved
    rw [Function.update_self, users, users]
    exact Nat.eq_sub_of_add_eq moved
  · simp only [unused, Ne.symm here, ne_eq, not_true_eq_false, false_and, and_false, decide_false,
      Bool.toNat_false] at moved
    rw [Function.update_of_ne here, users, users]
    exact moved

/-- A slot changes from one directory to another. -/
theorem users_move (busy : (s.proc p).state ≠ .unused) {value : VmProc} (still : value.state ≠ .unused)
    (apart : (s.proc p).pgdir ≠ value.pgdir) (proc : s'.proc = Function.update s.proc p value) :
    s'.users = Function.update (Function.update s.users value.pgdir (s.users value.pgdir + 1)) (s.proc p).pgdir
      (s.users (s.proc p).pgdir - 1) := by
  let mid : Vm := { s with proc := Function.update s.proc p { s.proc p with state := .unused } }
  have left : mid.users = Function.update s.users (s.proc p).pgdir (s.users (s.proc p).pgdir - 1) :=
    users_leave busy rfl rfl
  have joined : s'.users = Function.update mid.users value.pgdir (mid.users value.pgdir + 1) := by
    have unused : (mid.proc p).state = .unused := by
      simp only [mid, Function.update_self]
    refine users_join unused still ?_
    rw [proc, Function.update_idem]
  rw [joined, left, Function.update_of_ne (Ne.symm apart), Function.update_comm (Ne.symm apart)]

theorem users_pos (busy : (s.proc p).state ≠ .unused) : 0 < s.users (s.proc p).pgdir :=
  countWhere_pos _ s.proc (i := p) (by simp [busy])

theorem allocproc_eq_some {s₁ : Vm} (found : s.allocproc = some (np, s₁)) :
    (s.proc np).state = .unused ∧ s.nfree ≠ 0 ∧
      s₁ = { s.setProc np { s.proc np with state := .embryo } with nfree := s.nfree - 1 } := by
  rw [allocproc] at found
  cases slot : s.unusedSlot with
  | none => simp [slot] at found
  | some np' =>
    simp only [slot] at found
    by_cases empty : s.nfree = 0
    · simp [empty] at found
    · rw [if_neg empty] at found
      cases found
      have test := List.find?_some slot
      exact ⟨by simpa using test, empty, rfl⟩

end Vm

private theorem Space.mappages_error {s : Space} {page : ℕ} (failed : s.mappages page = .error panic) : panic.Paging := by
  simp only [Space.mappages] at failed
  split at failed
  · cases failed
  · split at failed
    · cases failed
      exact .inl rfl
    · cases failed

private theorem Space.allocLoop_error {oldsz newsz fuel page : ℕ} {s : Space}
    (failed : allocLoop oldsz newsz fuel page s = .error panic) : panic.Paging := by
  induction fuel generalizing page s with
  | zero => cases failed
  | succ fuel ih =>
    rw [allocLoop] at failed
    split at failed
    · cases failed
    · split at failed
      case h_1 mapped =>
        cases failed
        exact mappages_error mapped
      case h_2 => cases failed
      case h_3 => exact ih failed

private theorem Space.allocuvm_error {s : Space} {oldsz newsz : ℕ} (failed : s.allocuvm oldsz newsz = .error panic) :
    panic.Paging := by
  rw [allocuvm] at failed
  split at failed
  · cases failed
  · split at failed
    · cases failed
    · exact allocLoop_error failed

private theorem copyLoop_error {src : PageDir} {fuel page : ℕ} {s : Space} (failed : copyLoop src fuel page s = .error panic) :
    panic.Paging := by
  induction fuel generalizing page s with
  | zero => cases failed
  | succ fuel ih =>
    rw [copyLoop] at failed
    split at failed
    · cases failed
      exact .inr (.inl rfl)
    split at failed
    · cases failed
      exact .inr (.inr rfl)
    split at failed
    · cases failed
    split at failed
    case h_1 mapped =>
      cases failed
      exact Space.mappages_error mapped
    case h_2 => cases failed
    case h_3 => exact ih failed

theorem copyuvm_error {src : PageDir} {sz nfree : ℕ} (failed : copyuvm src sz nfree = .error panic) : panic.Paging := by
  rw [copyuvm] at failed
  split at failed
  · cases failed
  · cases looped : copyLoop src (pagesUp sz) 0 _ with
    | error panic' =>
      rw [looped] at failed
      cases failed
      exact copyLoop_error looped
    | ok result =>
      rw [looped] at failed
      cases failed

private theorem loadSegments_error {segments : List (ℕ × Bool)} {s : Space} {sz : ℕ}
    (failed : Vm.loadSegments segments s sz = .error panic) : panic.Paging := by
  induction segments generalizing s sz with
  | nil => cases failed
  | cons segment rest ih =>
    simp only [Vm.loadSegments] at failed
    split at failed
    case h_1 grown =>
      cases failed
      exact Space.allocuvm_error grown
    case h_2 =>
      split at failed
      · cases failed
      · exact ih failed

private theorem buildImage_error {program : Program} {s : Space} (failed : Vm.buildImage program s = .error panic) :
    panic.Paging := by
  simp only [Vm.buildImage] at failed
  split at failed
  case h_1 loaded =>
    cases failed
    exact loadSegments_error loaded
  case h_2 => cases failed
  case h_3 =>
    split at failed
    case h_1 grown =>
      cases failed
      exact Space.allocuvm_error grown
    case h_2 => cases failed

namespace RefInv

/-- The directory of a process is in memory. -/
theorem dir_ne_none (inv : RefInv s) (busy : (s.proc p).state ≠ .unused) : s.dir (s.proc p).pgdir ≠ none :=
  (inv.alloc _).mpr (Vm.users_pos busy)

theorem pgdir_ne_fresh (inv : RefInv s) (busy : (s.proc p).state ≠ .unused) (free : s.Fresh fresh) :
    (s.proc p).pgdir ≠ fresh := by
  rintro rfl
  exact inv.dir_ne_none busy free.2

/-- A new directory that is given back at once leaves no trace. -/
theorem freevm_new (inv : RefInv s) (free : s.Fresh fresh) {s₁ : Vm} (refs : s₁.uvmrefcount = s.uvmrefcount)
    {content : PageDir} (dir : s₁.dir = Function.update s.dir fresh (some content)) :
    ∃ s', s₁.freevm fresh = .ok s' ∧ s'.proc = s₁.proc ∧ s'.uvmrefcount = s.uvmrefcount ∧ s'.dir = s.dir := by
  have missing (i : Fin nproc) (valid : (s₁.uvmrefcount i).Valid) : (s₁.uvmrefcount i).pgdir ≠ fresh := by
    rw [refs] at valid ⊢
    exact (inv.fresh free).2 i valid
  have present : s₁.dir fresh = some content := by
    rw [dir, Function.update_self]
  obtain ⟨nfree, freed⟩ := Vm.freevm_fresh missing free.1 present
  refine ⟨_, freed, rfl, refs, ?_⟩
  simp only [Vm.setDir]
  rw [dir, Function.update_idem, ← free.2, Function.update_eq_self]

/-- A slot that was taken and given back. -/
theorem user_dropProc (unused : (s.proc np).state = .unused) {s₁ : Vm}
    (proc : s₁.proc = Function.update s.proc np { s.proc np with state := .embryo }) (q : Fin nproc) :
    ((s₁.dropProc np).proc q).user = (s.proc q).user := by
  simp only [Vm.dropProc, Vm.setProc, proc, Function.update_idem]
  by_cases here : q = np
  · rw [here, Function.update_self, VmProc.user, VmProc.user, if_pos rfl, if_pos unused]
  · rw [Function.update_of_ne here]

/-- `fork` fails without a trace, or a new slot gets a copy of the directory. -/
theorem fork_cases (inv : RefInv s) (running : (s.proc p).state = .runnable) (free : s.Fresh fresh) :
    (∃ s', s.fork p fresh = .ok s' ∧ Quiet s s') ∨
    (∃ src nfree panic, s.dir (s.proc p).pgdir = some src ∧ copyuvm src (s.proc p).sz nfree = .error panic ∧
      s.fork p fresh = .error panic) ∨
    ∃ np src nfree space s', (s.proc np).state = .unused ∧ s.dir (s.proc p).pgdir = some src ∧
      copyuvm src (s.proc p).sz nfree = .ok (some (space, true)) ∧ s.fork p fresh = .ok s' ∧
      s'.proc = Function.update s.proc np ⟨.runnable, fresh, (s.proc p).sz, some p⟩ ∧
      s'.uvmrefcount = s.uvmrefcount ∧ s'.dir = Function.update s.dir fresh (some space.dir) := by
  have busy : (s.proc p).state ≠ .unused := by
    rw [running]
    decide
  rw [Vm.fork]
  cases allocated : s.allocproc with
  | none => exact .inl ⟨s, rfl, fun _ => rfl, rfl, rfl⟩
  | some slot =>
    obtain ⟨np, s₁⟩ := slot
    obtain ⟨unused, _, rfl⟩ := Vm.allocproc_eq_some allocated
    have apart : p ≠ np := by
      rintro rfl
      rw [running] at unused
      cases unused
    obtain ⟨src, present⟩ := Option.ne_none_iff_exists'.mp (inv.dir_ne_none busy)
    simp only [Vm.setProc, Function.update_of_ne apart, present]
    cases copied : copyuvm src (s.proc p).sz (s.nfree - 1) with
    | error panic => exact .inr (.inl ⟨src, _, panic, rfl, copied, rfl⟩)
    | ok result =>
      cases result with
      | none => exact .inl ⟨_, rfl, user_dropProc unused rfl, rfl, rfl⟩
      | some pair =>
        obtain ⟨space, enough⟩ := pair
        cases enough with
        | false =>
          let taken : Vm := { s.setProc np { s.proc np with state := .embryo } with nfree := s.nfree - 1 }
          let made : Vm := { taken.setDir fresh (some space.dir) with nfree := space.nfree }
          have entries : made.uvmrefcount = s.uvmrefcount := rfl
          have created : made.dir = Function.update s.dir fresh (some space.dir) := rfl
          obtain ⟨s', freed, proc, refs, dir⟩ := inv.freevm_new free entries created
          refine .inl ⟨s'.dropProc np, ?_, user_dropProc unused proc, refs, dir⟩
          exact congrArg (Except.map (·.dropProc np)) freed
        | true =>
          refine .inr (.inr ⟨np, src, _, space, _, unused, rfl, copied, rfl, ?_, rfl, rfl⟩)
          simp only [Vm.setDir, Function.update_idem]

/-- The count in `clone` goes up by one, whatever else the state holds. -/
private theorem shareDir_eq (inv : RefInv s) (used : 0 < s.users d) :
    ∃ refs, RefsFor refs s.dir (Function.update s.users d (s.users d + 1)) ∧
      ∀ s₁ : Vm, s₁.uvmrefcount = s.uvmrefcount → s₁.shareDir d = { s₁ with uvmrefcount := refs } := by
  have locate {s₁ : Vm} (same : s₁.uvmrefcount = s.uvmrefcount) : s₁.locate d = s.locate d := by
    simp only [Vm.locate, same]
  have freeRef {s₁ : Vm} (same : s₁.uvmrefcount = s.uvmrefcount) : s₁.freeRef = s.freeRef := by
    simp only [Vm.freeRef, same]
  cases found : s.locate d with
  | some i =>
    obtain ⟨valid, mine⟩ := Vm.locate_eq_some found
    obtain ⟨counted, _⟩ := inv.counted i valid
    rw [mine] at counted
    refine ⟨_, inv.recount valid mine (Nat.succ_pos (s.users d)), ?_⟩
    intro s₁ same
    simp only [Vm.shareDir, locate same, found, Vm.setRef, same, counted]
    rfl
  | none =>
    obtain ⟨i, first, invalid⟩ := inv.exists_free used found
    have missing := Vm.locate_eq_none found
    have single := inv.single d used missing
    refine ⟨Function.update s.uvmrefcount i ⟨d, 2⟩, ?_, ?_⟩
    · rw [single]
      exact inv.enter invalid used missing
    · intro s₁ same
      simp only [Vm.shareDir, locate same, found, freeRef same, first, Vm.setRef, same]

/-- `clone` finds no slot, or a new slot shares the directory. -/
theorem clone_cases (inv : RefInv s) (running : (s.proc p).state = .runnable) :
    s.clone p = s ∨ ∃ np, (s.proc np).state = .unused ∧
      (s.clone p).proc = Function.update s.proc np ⟨.runnable, (s.proc p).pgdir, (s.proc p).sz, some p⟩ ∧
      (s.clone p).dir = s.dir ∧
      RefsFor (s.clone p).uvmrefcount s.dir
        (Function.update s.users (s.proc p).pgdir (s.users (s.proc p).pgdir + 1)) := by
  have busy : (s.proc p).state ≠ .unused := by
    rw [running]
    decide
  simp only [Vm.clone]
  cases allocated : s.allocproc with
  | none => exact .inl rfl
  | some slot =>
    obtain ⟨np, s₁⟩ := slot
    obtain ⟨unused, _, rfl⟩ := Vm.allocproc_eq_some allocated
    have apart : p ≠ np := by
      rintro rfl
      exact busy unused
    obtain ⟨refs, counted, shared⟩ := inv.shareDir_eq (Vm.users_pos busy)
    let taken : Vm := { s.setProc np { s.proc np with state := .embryo } with nfree := s.nfree - 1 }
    have caller : taken.proc p = s.proc p := Function.update_of_ne apart ..
    have entered : taken.shareDir (taken.proc p).pgdir = { taken with uvmrefcount := refs } := by
      rw [caller]
      exact shared taken rfl
    refine .inr ⟨np, unused, ?_, ?_, ?_⟩
    · change Function.update (taken.shareDir (taken.proc p).pgdir).proc np
        ⟨.runnable, (taken.proc p).pgdir, (taken.proc p).sz, some p⟩ = _
      rw [entered, caller]
      exact Function.update_idem ..
    · change (taken.shareDir (taken.proc p).pgdir).dir = s.dir
      rw [entered]
      rfl
    · change RefsFor (taken.shareDir (taken.proc p).pgdir).uvmrefcount s.dir _
      rw [entered]
      exact counted

/-- `exec` fails without a trace, or the process leaves its directory for a new one. -/
theorem exec_cases (inv : RefInv s) (running : (s.proc p).state = .runnable) (free : s.Fresh fresh)
    (program : Program) :
    (∃ s', s.exec p program fresh = .ok s' ∧ Quiet s s') ∨
    (∃ panic, s.exec p program fresh = .error panic ∧ panic.Paging) ∨
    ∃ sz s', s.exec p program fresh = .ok s' ∧
      s'.proc = Function.update s.proc p { s.proc p with pgdir := fresh, sz := sz } ∧
      RefsFor s'.uvmrefcount s'.dir (Function.update (Function.update s.users fresh 1) (s.proc p).pgdir
        (s.users (s.proc p).pgdir - 1)) := by
  have busy : (s.proc p).state ≠ .unused := by
    rw [running]
    decide
  rw [Vm.exec]
  cases setupkvm s.nfree with
  | none => exact .inl ⟨s, rfl, fun _ => rfl, rfl, rfl⟩
  | some start =>
    cases built : Vm.buildImage program start with
    | error panic => exact .inr (.inl ⟨panic, by simp only [built], buildImage_error built⟩)
    | ok result =>
      obtain ⟨space, size⟩ := result
      cases size with
      | none =>
        let made : Vm := { s.setDir fresh (some space.dir) with nfree := space.nfree }
        have entries : made.uvmrefcount = s.uvmrefcount := rfl
        have created : made.dir = Function.update s.dir fresh (some space.dir) := rfl
        obtain ⟨s', freed, proc, refs, dir⟩ := inv.freevm_new free entries created
        refine .inl ⟨s', ?_, fun q => by rw [proc]; rfl, refs, dir⟩
        simp only [built]
        exact freed
      | some sz =>
        let moved : Vm := { (s.setDir fresh (some space.dir)).setProc p { s.proc p with pgdir := fresh, sz := sz } with
          nfree := space.nfree }
        have apart := inv.pgdir_ne_fresh busy free
        have counted : RefsFor moved.uvmrefcount moved.dir (Function.update s.users fresh 1) :=
          inv.add free.1 free.2 space.dir
        have used : 0 < Function.update s.users fresh 1 (s.proc p).pgdir := by
          rw [Function.update_of_ne apart]
          exact Vm.users_pos busy
        obtain ⟨s', freed, proc, _, less⟩ := counted.freevm used
        rw [Function.update_of_ne apart] at less
        refine .inr (.inr ⟨sz, s', ?_, proc, less⟩)
        simp only [built]
        exact freed

theorem exit_cases (s : Vm) (running : (s.proc p).state = .runnable) :
    s.exit p = .error .initExiting ∨ ∃ s', s.exit p = .ok s' ∧ Quiet s s' := by
  rw [Vm.exit]
  by_cases init : p = Vm.initproc
  · exact .inl (by rw [if_pos init])
  · rw [if_neg init]
    refine .inr ⟨_, rfl, fun q => ?_, rfl, rfl⟩
    simp only [VmProc.user]
    by_cases here : q = p
    · simp [here, running]
    · simp [here]

/-- `wait` finds no child, or a child leaves its directory. -/
theorem wait_cases (inv : RefInv s) (p : Fin nproc) :
    s.wait p = .ok s ∨ ∃ q s', (s.proc q).parent = some p ∧ (s.proc q).state = .zombie ∧ s.wait p = .ok s' ∧
      s'.proc = Function.update s.proc q { s.proc q with state := .unused, parent := none } ∧
      (∀ d, s'.dir d = none ∨ s'.dir d = s.dir d) ∧
      RefsFor s'.uvmrefcount s'.dir
        (Function.update s.users (s.proc q).pgdir (s.users (s.proc q).pgdir - 1)) := by
  rw [Vm.wait]
  cases found : s.zombieChild p with
  | none => exact .inl rfl
  | some q =>
    have test := List.find?_some found
    simp only [decide_eq_true_eq] at test
    obtain ⟨child, zombie⟩ := test
    have busy : (s.proc q).state ≠ .unused := by
      rw [zombie]
      decide
    let counted : Vm := { s with nfree := s.nfree + 1 }
    have same : RefsFor counted.uvmrefcount counted.dir s.users := inv
    obtain ⟨s', freed, proc, frame, less⟩ := same.freevm (Vm.users_pos busy)
    refine .inr ⟨q, _, child, zombie, congrArg (Except.map _) freed, ?_, frame, less⟩
    simp only [Vm.setProc, proc, counted]

/-- `growproc` changes the directory and the size of the caller only. -/
theorem growproc_cases (inv : RefInv s) (running : (s.proc p).state = .runnable) (n : ℤ) :
    (∃ panic, s.growproc p n = .error panic ∧ panic.Paging) ∨
    ∃ content sz s', s.growproc p n = .ok s' ∧ s'.proc = Function.update s.proc p { s.proc p with sz := sz } ∧
      s'.uvmrefcount = s.uvmrefcount ∧ s'.dir = Function.update s.dir (s.proc p).pgdir (some content) := by
  have busy : (s.proc p).state ≠ .unused := by
    rw [running]
    decide
  obtain ⟨dir, present⟩ := Option.ne_none_iff_exists'.mp (inv.dir_ne_none busy)
  simp only [Vm.growproc, present]
  have finish (space : Space) (newsz : ℕ) : ∃ content sz s',
      (if n ≠ 0 ∧ newsz = 0 then
        .ok { s.setDir (s.proc p).pgdir (some space.dir) with nfree := space.nfree }
      else .ok (Vm.setProc { s.setDir (s.proc p).pgdir (some space.dir) with nfree := space.nfree } p
        { s.proc p with sz := newsz }) : Except Panic Vm) = .ok s' ∧
      s'.proc = Function.update s.proc p { s.proc p with sz := sz } ∧ s'.uvmrefcount = s.uvmrefcount ∧
      s'.dir = Function.update s.dir (s.proc p).pgdir (some content) := by
    by_cases failed : n ≠ 0 ∧ newsz = 0
    · rw [if_pos failed]
      exact ⟨space.dir, (s.proc p).sz, _, rfl, (Function.update_eq_self p s.proc).symm, rfl, rfl⟩
    · rw [if_neg failed]
      exact ⟨space.dir, newsz, _, rfl, rfl, rfl, rfl⟩
  by_cases grow : n > 0
  · simp only [if_pos grow]
    cases grown : Space.allocuvm ⟨dir, s.nfree⟩ (s.proc p).sz (uint32 ((s.proc p).sz + n)) with
    | error panic => exact .inl ⟨panic, rfl, Space.allocuvm_error grown⟩
    | ok result => exact .inr (finish result.1 result.2)
  · simp only [if_neg grow]
    by_cases shrink : n < 0
    · simp only [if_pos shrink]
      exact .inr (finish _ _)
    · simp only [if_neg shrink]
      exact .inr (finish ⟨dir, s.nfree⟩ _)

end RefInv

end Cs537.Xv6
