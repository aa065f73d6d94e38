import Cs537.Xv6.RefCountsSafety
import Mathlib.Order.Interval.Finset.Nat

/-! # Sizes and pages of processes that share a directory

The pages of a directory are those below the size of each of its users as long as a process changes its
size only while it is the single user of its directory, and never to zero. `growproc` writes the new size
to the caller alone and takes a new size of zero for an error of `deallocuvm`.
-/

namespace Cs537.Xv6

open Lib

variable {s s' : Vm} {p q : Fin nproc} {d fresh : ℕ} {a : VmAction} {panic : Panic}

/-- The present pages are the first `count`, and each of them has a page table. -/
structure PageDir.Covers (dir : PageDir) (count : ℕ) : Prop where
  pages : ∀ page, page ∈ dir.pages ↔ page < count
  tables : ∀ page, page < count → page / 1024 ∈ dir.tables

/-- The page-table pages that are still missing for a range of pages. -/
def PageDir.missingTables (dir : PageDir) (first last : ℕ) : ℕ :=
  ((Finset.Ico first last).image (· / 1024) \ dir.tables.toFinset).card

private theorem lt_pagesUp_iff {page sz : ℕ} : page < pagesUp sz ↔ page * 4096 < sz := by
  rw [pagesUp]
  omega

private theorem pagesUp_le_of_le {m n : ℕ} (le : m ≤ n) : pagesUp m ≤ pagesUp n := by
  rw [pagesUp, pagesUp]
  omega

namespace Space

private theorem walkAlloc_eq_some {s s' : Space} {page : ℕ} (walked : s.walkAlloc page = some s') :
    s'.dir.pages = s.dir.pages ∧ page / 1024 ∈ s'.dir.tables ∧ s.dir.tables ⊆ s'.dir.tables ∧
      ∀ last, s.dir.missingTables page last + s'.nfree ≤ s'.dir.missingTables (page + 1) last + s.nfree := by
  rw [walkAlloc] at walked
  have split (last : ℕ) : (Finset.Ico page last).image (· / 1024) ⊆
      insert (page / 1024) ((Finset.Ico (page + 1) last).image (· / 1024)) := by
    intro table member
    obtain ⟨other, inside, rfl⟩ := Finset.mem_image.mp member
    rw [Finset.mem_Ico] at inside
    by_cases here : other = page
    · rw [here]
      exact Finset.mem_insert_self ..
    · refine Finset.mem_insert_of_mem (Finset.mem_image_of_mem _ ?_)
      rw [Finset.mem_Ico]
      omega
  by_cases present : page / 1024 ∈ s.dir.tables
  · rw [if_pos present] at walked
    cases walked
    refine ⟨rfl, present, fun _ => id, fun last => ?_⟩
    refine Nat.add_le_add_right (Finset.card_le_card ?_) _
    intro table member
    obtain ⟨needed, absent⟩ := Finset.mem_sdiff.mp member
    refine Finset.mem_sdiff.mpr ⟨?_, absent⟩
    rcases Finset.mem_insert.mp (split last needed) with rfl | later
    · exact (absent (List.mem_toFinset.mpr present)).elim
    · exact later
  · rw [if_neg present] at walked
    by_cases empty : s.nfree = 0
    · simp [empty] at walked
    · rw [if_neg empty] at walked
      cases walked
      refine ⟨rfl, List.mem_cons_self .., List.subset_cons_self .., fun last => ?_⟩
      have fewer : s.dir.missingTables page last ≤
          PageDir.missingTables ⟨page / 1024 :: s.dir.tables, s.dir.pages⟩ (page + 1) last + 1 := by
        refine le_trans (Finset.card_le_card ?_) (Finset.card_insert_le (page / 1024) _)
        intro table member
        obtain ⟨needed, absent⟩ := Finset.mem_sdiff.mp member
        rw [Finset.mem_insert, Finset.mem_sdiff, List.toFinset_cons, Finset.mem_insert]
        rcases Finset.mem_insert.mp (split last needed) with rfl | later
        · exact .inl rfl
        · by_cases here : table = page / 1024
          · exact .inl here
          · refine .inr ⟨later, ?_⟩
            rintro (same | old)
            · exact here same
            · exact absent old
      change _ + (s.nfree - 1) ≤ PageDir.missingTables ⟨page / 1024 :: s.dir.tables, s.dir.pages⟩
        (page + 1) last + s.nfree
      omega

/-- Mapping the next page never panics. -/
theorem mappages_next {s : Space} {page : ℕ} (covers : s.dir.Covers page) :
    s.mappages page = .ok none ∨ ∃ s', s.mappages page = .ok (some s') ∧ s'.dir.Covers (page + 1) ∧
      ∀ last, s.dir.missingTables page last + s'.nfree ≤ s'.dir.missingTables (page + 1) last + s.nfree := by
  rw [mappages]
  cases walked : s.walkAlloc page with
  | none => exact .inl rfl
  | some s₁ =>
    obtain ⟨pages, table, tables, counted⟩ := walkAlloc_eq_some walked
    have absent : page ∉ s₁.dir.pages := by
      rw [pages, covers.pages]
      exact Nat.lt_irrefl page
    refine .inr ⟨{ s₁ with dir := { s₁.dir with pages := page :: s₁.dir.pages } }, ?_, ⟨?_, ?_⟩, counted⟩
    · simp only [if_neg absent]
    · intro other
      rw [List.mem_cons, pages, covers.pages]
      omega
    · intro other below
      rcases Nat.lt_succ_iff_lt_or_eq.mp below with old | rfl
      · exact tables (covers.tables other old)
      · exact table

private theorem deallocuvm_covers {s : Space} {count oldsz newsz : ℕ} (covers : s.dir.Covers count) (less : newsz < oldsz)
    (low : pagesUp newsz ≤ count) (high : count ≤ pagesUp oldsz) :
    (s.deallocuvm oldsz newsz).1.dir.Covers (pagesUp newsz) := by
  rw [deallocuvm, if_neg (by omega)]
  refine ⟨?_, ?_⟩
  · intro page
    simp only [List.mem_filter, covers.pages, between, Bool.not_eq_true', Bool.and_eq_false_iff,
      decide_eq_false_iff_not, ← lt_pagesUp_iff]
    omega
  · intro page below
    exact covers.tables page (by omega)

/-- The loop of `allocuvm` maps every page up to the new size, or undoes what it did. -/
private theorem allocLoop_covers {oldsz newsz fuel page : ℕ} {s : Space} (covers : s.dir.Covers page) (less : oldsz < newsz)
    (low : pagesUp oldsz ≤ page) (rest : page + fuel = pagesUp newsz) :
    ∃ s' sz, allocLoop oldsz newsz fuel page s = .ok (s', sz) ∧
      ((sz = 0 ∧ s'.dir.Covers (pagesUp oldsz)) ∨
        (sz = newsz ∧ s'.dir.Covers (pagesUp newsz) ∧
          fuel + s.dir.missingTables page (pagesUp newsz) ≤ s.nfree)) := by
  induction fuel generalizing page s with
  | zero =>
    have done : page = pagesUp newsz := by omega
    subst done
    refine ⟨s, newsz, rfl, .inr ⟨rfl, covers, ?_⟩⟩
    simp [PageDir.missingTables]
  | succ fuel ih =>
    rw [allocLoop]
    by_cases empty : s.nfree = 0
    · rw [if_pos empty]
      exact ⟨_, 0, rfl, .inl ⟨rfl, deallocuvm_covers covers less low (by omega)⟩⟩
    · rw [if_neg empty]
      let taken : Space := { s with nfree := s.nfree - 1 }
      have same : taken.dir.Covers page := covers
      rcases mappages_next same with full | ⟨s₁, mapped, next, counted⟩
      · let undone : Space := (taken.deallocuvm newsz oldsz).1
        refine ⟨{ undone with nfree := undone.nfree + 1 }, 0, ?_, .inl ⟨rfl, ?_⟩⟩
        · simp only [taken] at full
          simp only [full]
          rfl
        · exact deallocuvm_covers same less low (by omega)
      · obtain ⟨s', sz, looped, result⟩ := ih next (by omega) (by omega)
        simp only [taken] at mapped
        refine ⟨s', sz, ?_, ?_⟩
        · simp only [mapped]
          exact looped
        · rcases result with failed | ⟨done, whole, enough⟩
          · exact .inl failed
          · have pages := counted (pagesUp newsz)
            simp only [taken] at pages
            exact .inr ⟨done, whole, by omega⟩

/-- `allocuvm` of a directory whose pages are those below the old size. -/
private theorem allocuvm_covers {s : Space} {oldsz newsz : ℕ} (covers : s.dir.Covers (pagesUp oldsz)) (le : oldsz ≤ newsz) :
    ∃ s' sz, s.allocuvm oldsz newsz = .ok (s', sz) ∧
      ((sz = 0 ∧ s'.dir.Covers (pagesUp oldsz)) ∨
        (sz = newsz ∧ newsz < kernbase ∧ s'.dir.Covers (pagesUp newsz) ∧
          pagesUp newsz - pagesUp oldsz + s.dir.missingTables (pagesUp oldsz) (pagesUp newsz) ≤ s.nfree)) := by
  rw [allocuvm]
  by_cases large : newsz ≥ kernbase
  · rw [if_pos large]
    exact ⟨s, 0, rfl, .inl ⟨rfl, covers⟩⟩
  · rw [if_neg large, if_neg (by omega)]
    rcases Nat.eq_or_lt_of_le le with rfl | less
    · refine ⟨s, oldsz, by rw [Nat.sub_self, allocLoop], .inr ⟨rfl, by omega, covers, ?_⟩⟩
      simp [PageDir.missingTables]
    · have grows := pagesUp_le_of_le le
      obtain ⟨s', sz, looped, result⟩ := allocLoop_covers covers less le_rfl
        (Nat.add_sub_cancel' grows)
      refine ⟨s', sz, looped, ?_⟩
      rcases result with failed | ⟨done, whole, enough⟩
      · exact .inl failed
      · exact .inr ⟨done, by omega, whole, enough⟩

end Space

/-- The loop of `copyuvm` over a directory that has all the pages. -/
private theorem copyLoop_covers {src : PageDir} {count fuel page : ℕ} {s : Space} (source : src.Covers count)
    (covers : s.dir.Covers page) (rest : page + fuel = count) :
    ∃ s' enough, copyLoop src fuel page s = .ok (s', enough) ∧ (enough = true → s'.dir.Covers count) := by
  induction fuel generalizing page s with
  | zero =>
    obtain rfl : page = count := rest
    exact ⟨s, true, rfl, fun _ => covers⟩
  | succ fuel ih =>
    rw [copyLoop]
    have below : page < count := by omega
    rw [if_neg (not_not_intro (source.tables page below)), if_neg (not_not_intro ((source.pages page).mpr below))]
    by_cases empty : s.nfree = 0
    · rw [if_pos empty]
      exact ⟨s, false, rfl, by rintro ⟨⟩⟩
    · rw [if_neg empty]
      let taken : Space := { s with nfree := s.nfree - 1 }
      have same : taken.dir.Covers page := covers
      rcases Space.mappages_next same with full | ⟨s₁, mapped, next, _⟩
      · refine ⟨s, false, ?_, by rintro ⟨⟩⟩
        simp only [taken] at full
        simp only [full]
      · obtain ⟨s', enough, looped, result⟩ := ih next (by omega)
        refine ⟨s', enough, ?_, result⟩
        simp only [taken] at mapped
        simp only [mapped]
        exact looped

/-- `copyuvm` of a directory that has all the pages never panics. -/
theorem copyuvm_covers {src : PageDir} {sz : ℕ} (source : src.Covers (pagesUp sz)) (nfree : ℕ) :
    copyuvm src sz nfree = .ok none ∨ ∃ space enough, copyuvm src sz nfree = .ok (some (space, enough)) ∧
      (enough = true → space.dir.Covers (pagesUp sz)) := by
  rw [copyuvm, setupkvm]
  by_cases short : nfree < kernelTables + 1
  · rw [if_pos short]
    exact .inl rfl
  · rw [if_neg short]
    have empty : PageDir.Covers ⟨[], []⟩ 0 := by
      constructor <;> simp
    let start : Space := ⟨⟨[], []⟩, nfree - (kernelTables + 1)⟩
    have same : start.dir.Covers 0 := empty
    obtain ⟨space, enough, looped, result⟩ := copyLoop_covers source same (Nat.zero_add _)
    refine .inr ⟨space, enough, ?_, result⟩
    simp only [start] at looped
    simp only [looped]
    rfl

/-- Users of one directory have one size, and its pages are those below that size. -/
structure SizeInv (s : Vm) : Prop where
  refs : RefInv s
  same : ∀ p q d m n, (s.proc p).user = some (d, m) → (s.proc q).user = some (d, n) → m = n
  covers : ∀ p d n dir, (s.proc p).user = some (d, n) → s.dir d = some dir → dir.Covers (pagesUp n)
  small : ∀ p d n, (s.proc p).user = some (d, n) → n < kernbase

/-- No other process uses the directory of this one. -/
def Vm.Alone (s : Vm) (p : Fin nproc) : Prop :=
  ∀ q, q ≠ p → (s.proc q).state ≠ .unused → (s.proc q).pgdir ≠ (s.proc p).pgdir

instance (s : Vm) (p : Fin nproc) : Decidable (s.Alone p) := inferInstanceAs (Decidable (∀ _, _ → _ → _))

/-- The pages and page tables for the growth of a process are not there. -/
def Vm.Short (s : Vm) (p : Fin nproc) (n : ℤ) : Prop :=
  ∃ dir ∈ s.dir (s.proc p).pgdir,
    s.nfree < pagesUp ((s.proc p).sz + n).toNat - pagesUp (s.proc p).sz +
      dir.missingTables (pagesUp (s.proc p).sz) (pagesUp ((s.proc p).sz + n).toNat)

instance (s : Vm) (p : Fin nproc) (n : ℤ) : Decidable (s.Short p n) := inferInstanceAs (Decidable (∃ _ ∈ _, _))

/-- `exec` is left out, and a size changes while no other process uses the directory, and not to zero. The
other calls of `sbrk` change nothing: the argument is zero, the new size is out of range, or memory is
short. -/
def Vm.ResizesAlone (s : Vm) : VmAction → Prop
  | .sbrk p n => n = 0 ∨ (s.proc p).sz + n < 0 ∨ (kernbase : ℤ) ≤ (s.proc p).sz + n ∨ (0 < n ∧ s.Short p n) ∨
      (s.Alone p ∧ (s.proc p).sz + n ≠ 0)
  | .exec .. => False
  | .fork .. | .clone _ | .exit _ | .wait _ => True

instance (s : Vm) : (a : VmAction) → Decidable (s.ResizesAlone a)
  | .sbrk .. => inferInstanceAs (Decidable (_ ∨ _))
  | .exec .. => inferInstanceAs (Decidable False)
  | .fork .. | .clone _ | .exit _ | .wait _ => inferInstanceAs (Decidable True)

private theorem VmProc.user_eq_some {proc : VmProc} {d n : ℕ} :
    proc.user = some (d, n) ↔ proc.state ≠ .unused ∧ proc.pgdir = d ∧ proc.sz = n := by
  rw [VmProc.user]
  by_cases unused : proc.state = .unused
  · simp [unused]
  · simp [unused]

namespace SizeInv

theorem initial (nfree : ℕ) : SizeInv (Vm.initial nfree) := by
  have only (p : Fin nproc) (d n : ℕ) (user : ((Vm.initial nfree).proc p).user = some (d, n)) : d = 1 ∧ n = 4096 := by
    obtain ⟨busy, rfl, rfl⟩ := VmProc.user_eq_some.mp user
    by_cases here : p = Vm.initproc
    · simp [Vm.initial, here]
    · simp [Vm.initial, here] at busy
  refine ⟨.initial nfree, ?_, ?_, ?_⟩
  · intro p q d m n first second
    rw [(only p d m first).2, (only q d n second).2]
  · intro p d n dir user present
    obtain ⟨rfl, rfl⟩ := only p d n user
    cases present
    constructor <;> simp [pagesUp]
  · intro p d n user
    rw [(only p d n user).2]
    decide

theorem of_quiet (inv : SizeInv s) (quiet : Quiet s s') : SizeInv s' := by
  refine ⟨inv.refs.of_quiet quiet, ?_, ?_, ?_⟩
  · intro p q
    rw [quiet.user, quiet.user]
    exact inv.same p q
  · intro p
    rw [quiet.user, quiet.dir]
    exact inv.covers p
  · intro p
    rw [quiet.user]
    exact inv.small p

/-- A user of a directory, seen from the slot that changes. -/
theorem user_update {value : VmProc} {d n : ℕ} (proc : s'.proc = Function.update s.proc p value)
    (user : (s'.proc q).user = some (d, n)) : (q = p ∧ value.user = some (d, n)) ∨
    (q ≠ p ∧ (s.proc q).user = some (d, n)) := by
  by_cases here : q = p
  · rw [proc, here, Function.update_self] at user
    exact .inl ⟨here, user⟩
  · rw [proc, Function.update_of_ne here] at user
    exact .inr ⟨here, user⟩

/-- One slot changes: it is enough that its new user fits, and that the other users keep their pages. -/
theorem of_update (inv : SizeInv s) (refs : RefInv s') {value : VmProc} (proc : s'.proc = Function.update s.proc p value)
    (others : ∀ q d n dir, q ≠ p → (s.proc q).user = some (d, n) → s'.dir d = some dir → dir.Covers (pagesUp n))
    (small : ∀ d n, value.user = some (d, n) → n < kernbase)
    (covers : ∀ d n dir, value.user = some (d, n) → s'.dir d = some dir → dir.Covers (pagesUp n))
    (same : ∀ q d m n, q ≠ p → value.user = some (d, m) → (s.proc q).user = some (d, n) → m = n) : SizeInv s' := by
  refine ⟨refs, ?_, ?_, ?_⟩
  · intro q r d m n first second
    rcases user_update proc first with ⟨_, first⟩ | ⟨apart, first⟩ <;>
      rcases user_update proc second with ⟨_, second⟩ | ⟨apart', second⟩
    · rw [first] at second
      cases second
      rfl
    · exact same r d m n apart' first second
    · exact (same q d n m apart second first).symm
    · exact inv.same q r d m n first second
  · intro q d n dir user present
    rcases user_update proc user with ⟨_, user⟩ | ⟨apart, user⟩
    · exact covers d n dir user present
    · exact others q d n dir apart user present
  · intro q d n user
    rcases user_update proc user with ⟨_, user⟩ | ⟨_, user⟩
    · exact small d n user
    · exact inv.small q d n user

private theorem fork_step (inv : SizeInv s) (running : (s.proc p).state = .runnable) (free : s.Fresh fresh)
    (called : s.fork p fresh = .ok s') : SizeInv s' := by
  have counted := inv.refs.counted_fork running free called
  have busy : (s.proc p).state ≠ .unused := by
    rw [running]
    decide
  have user : (s.proc p).user = some ((s.proc p).pgdir, (s.proc p).sz) := VmProc.user_eq_some.mpr ⟨busy, rfl, rfl⟩
  rcases inv.refs.fork_cases running free with ⟨s₁, ok, quiet⟩ | ⟨_, _, _, _, _, failed⟩ |
    ⟨np, src, nfree, space, s₁, _, present, copied, ok, proc, _, dir⟩
  · cases called.symm.trans ok
    exact inv.of_quiet quiet
  · cases called.symm.trans failed
  · cases called.symm.trans ok
    have other (q : Fin nproc) (d n : ℕ) (used : (s.proc q).user = some (d, n)) : d ≠ fresh := by
      obtain ⟨busy, rfl, _⟩ := VmProc.user_eq_some.mp used
      exact inv.refs.pgdir_ne_fresh busy free
    have whole : space.dir.Covers (pagesUp (s.proc p).sz) := by
      rcases copyuvm_covers (inv.covers p _ _ src user present) nfree with none | ⟨space', enough, some, covers⟩
      · cases copied.symm.trans none
      · cases copied.symm.trans some
        exact covers rfl
    refine inv.of_update counted.inv proc ?_ ?_ ?_ ?_
    · intro q d n content _ used found
      rw [dir, Function.update_of_ne (other q d n used)] at found
      exact inv.covers q d n content used found
    · intro d n used
      obtain ⟨_, _, rfl⟩ := VmProc.user_eq_some.mp used
      exact inv.small p _ _ user
    · intro d n content used found
      obtain ⟨_, rfl, rfl⟩ := VmProc.user_eq_some.mp used
      rw [dir, Function.update_self] at found
      cases found
      exact whole
    · intro q d m n _ mine used
      obtain ⟨_, rfl, _⟩ := VmProc.user_eq_some.mp mine
      exact (other q _ n used rfl).elim

private theorem clone_step (inv : SizeInv s) (running : (s.proc p).state = .runnable) : SizeInv (s.clone p) := by
  have counted := inv.refs.counted_clone running
  have busy : (s.proc p).state ≠ .unused := by
    rw [running]
    decide
  have user : (s.proc p).user = some ((s.proc p).pgdir, (s.proc p).sz) := VmProc.user_eq_some.mpr ⟨busy, rfl, rfl⟩
  rcases inv.refs.clone_cases running with same | ⟨np, _, proc, dir, _⟩
  · rw [same]
    exact inv
  · refine inv.of_update counted.inv proc ?_ ?_ ?_ ?_
    · intro q d n content _ used found
      rw [dir] at found
      exact inv.covers q d n content used found
    · intro d n used
      obtain ⟨_, _, rfl⟩ := VmProc.user_eq_some.mp used
      exact inv.small p _ _ user
    · intro d n content used found
      obtain ⟨_, rfl, rfl⟩ := VmProc.user_eq_some.mp used
      rw [dir] at found
      exact inv.covers p _ _ content user found
    · intro q d m n _ mine used
      obtain ⟨_, rfl, rfl⟩ := VmProc.user_eq_some.mp mine
      exact inv.same p q _ _ n user used

private theorem wait_step (inv : SizeInv s) (called : s.wait p = .ok s') : SizeInv s' := by
  have counted := inv.refs.counted_wait called
  rcases inv.refs.wait_cases p with ok | ⟨q, s₁, _, _, ok, proc, frame, _⟩
  · cases called.symm.trans ok
    exact inv
  · cases called.symm.trans ok
    have unused (d n : ℕ) : VmProc.user { s.proc q with state := .unused, parent := none } ≠ some (d, n) := by
      simp [VmProc.user]
    refine inv.of_update counted.inv proc ?_ ?_ ?_ ?_
    · intro r d n content _ used found
      rcases frame d with released | kept
      · cases released.symm.trans found
      · rw [kept] at found
        exact inv.covers r d n content used found
    · intro d n used
      exact (unused d n used).elim
    · intro d n _ used
      exact (unused d n used).elim
    · intro _ d m _ _ used
      exact (unused d m used).elim

/-- What `growproc` does to a process whose pages are those below its size. -/
theorem growproc_result (inv : SizeInv s) (running : (s.proc p).state = .runnable) {n : ℤ}
    (range : -2 ^ 31 ≤ n ∧ n < 2 ^ 31) :
    ∃ dir content sz s', s.dir (s.proc p).pgdir = some dir ∧ s.growproc p n = .ok s' ∧
      s'.proc = Function.update s.proc p { s.proc p with sz := sz } ∧ s'.uvmrefcount = s.uvmrefcount ∧
      s'.dir = Function.update s.dir (s.proc p).pgdir (some content) ∧
      ((sz = (s.proc p).sz ∧ (content.Covers (pagesUp sz) ∨ (n < 0 ∧ (s.proc p).sz + n = 0))) ∨
        (n ≠ 0 ∧ (sz : ℤ) = (s.proc p).sz + n ∧ sz < kernbase ∧ content.Covers (pagesUp sz) ∧
          (0 < n → pagesUp sz - pagesUp (s.proc p).sz +
            dir.missingTables (pagesUp (s.proc p).sz) (pagesUp sz) ≤ s.nfree))) := by
  have busy : (s.proc p).state ≠ .unused := by
    rw [running]
    decide
  have user : (s.proc p).user = some ((s.proc p).pgdir, (s.proc p).sz) := VmProc.user_eq_some.mpr ⟨busy, rfl, rfl⟩
  have small := inv.small p _ _ user
  obtain ⟨dir, present⟩ := Option.ne_none_iff_exists'.mp (inv.refs.dir_ne_none busy)
  have covers := inv.covers p _ _ dir user present
  generalize size : (s.proc p).sz = oldsz at *
  simp only [Vm.growproc, present, size]
  simp only [kernbase] at small ⊢
  by_cases grow : n > 0
  · simp only [if_pos grow]
    have exact : (uint32 (oldsz + n) : ℤ) = oldsz + n := by
      rw [uint32]
      omega
    let space : Space := ⟨dir, s.nfree⟩
    have same : space.dir.Covers (pagesUp oldsz) := covers
    have more : oldsz ≤ uint32 (oldsz + n) := by omega
    obtain ⟨space', sz, grown, result⟩ := Space.allocuvm_covers same more
    simp only [space] at grown
    simp only [grown]
    rcases result with ⟨rfl, kept⟩ | ⟨rfl, below, whole, enough⟩
    · rw [if_pos ⟨by omega, rfl⟩]
      refine ⟨dir, space'.dir, oldsz, _, rfl, rfl, ?_, rfl, rfl, .inl ⟨rfl, .inl kept⟩⟩
      rw [← size]
      exact (Function.update_eq_self p s.proc).symm
    · rw [if_neg (by omega)]
      exact ⟨dir, space'.dir, _, _, rfl, rfl, rfl, rfl, rfl, .inr ⟨by omega, exact, below, whole, fun _ => enough⟩⟩
  · simp only [if_neg grow]
    by_cases shrink : n < 0
    · simp only [if_pos shrink]
      by_cases under : (oldsz : ℤ) + n < 0
      · have large : uint32 (oldsz + n) ≥ oldsz := by
          rw [uint32]
          omega
        rw [Space.deallocuvm, if_pos large]
        by_cases zero : n ≠ 0 ∧ oldsz = 0
        · rw [if_pos zero]
          refine ⟨dir, dir, oldsz, _, rfl, rfl, ?_, rfl, rfl, .inl ⟨rfl, .inl covers⟩⟩
          rw [← size]
          exact (Function.update_eq_self p s.proc).symm
        · rw [if_neg zero]
          exact ⟨dir, dir, oldsz, _, rfl, rfl, rfl, rfl, rfl, .inl ⟨rfl, .inl covers⟩⟩
      · have exact : (uint32 (oldsz + n) : ℤ) = oldsz + n := by
          rw [uint32]
          omega
        let space : Space := ⟨dir, s.nfree⟩
        have same : space.dir.Covers (pagesUp oldsz) := covers
        have less : uint32 (oldsz + n) < oldsz := by omega
        have whole := Space.deallocuvm_covers same less (pagesUp_le_of_le less.le) le_rfl
        have size' : (space.deallocuvm oldsz (uint32 (oldsz + n))).2 = uint32 (oldsz + n) := by
          rw [Space.deallocuvm, if_neg (by omega)]
        simp only [space] at whole size'
        rw [size']
        by_cases zero : n ≠ 0 ∧ uint32 (oldsz + n) = 0
        · rw [if_pos zero]
          refine ⟨dir, _, oldsz, _, rfl, rfl, ?_, rfl, rfl, .inl ⟨rfl, .inr ⟨shrink, by omega⟩⟩⟩
          rw [← size]
          exact (Function.update_eq_self p s.proc).symm
        · rw [if_neg zero]
          exact ⟨dir, _, _, _, rfl, rfl, rfl, rfl, rfl, .inr ⟨by omega, exact, by omega, whole, by omega⟩⟩
    · simp only [if_neg shrink]
      rw [if_neg (by omega)]
      exact ⟨dir, dir, oldsz, _, rfl, rfl, rfl, rfl, rfl, .inl ⟨rfl, .inl covers⟩⟩

private theorem growproc_step (inv : SizeInv s) (running : (s.proc p).state = .runnable) {n : ℤ}
    (range : -2 ^ 31 ≤ n ∧ n < 2 ^ 31) (allowed : s.ResizesAlone (.sbrk p n)) (called : s.growproc p n = .ok s') :
    SizeInv s' := by
  have counted := inv.refs.counted_growproc running called
  have busy : (s.proc p).state ≠ .unused := by
    rw [running]
    decide
  have user : (s.proc p).user = some ((s.proc p).pgdir, (s.proc p).sz) := VmProc.user_eq_some.mpr ⟨busy, rfl, rfl⟩
  have small := inv.small p _ _ user
  obtain ⟨dir, content, sz, s₁, present, ok, proc, _, dirs, result⟩ := inv.growproc_result running range
  cases called.symm.trans ok
  have resized : sz < kernbase ∧ content.Covers (pagesUp sz) ∧ (sz = (s.proc p).sz ∨ s.Alone p) := by
    rcases result with ⟨rfl, covers | ⟨shrink, zero⟩⟩ | ⟨nonzero, exact, below, covers, enough⟩
    · exact ⟨small, covers, .inl rfl⟩
    · rcases allowed with rfl | under | above | ⟨grow, _⟩ | ⟨_, nonzero⟩
      · omega
      · omega
      · simp only [kernbase] at above
        omega
      · omega
      · exact (nonzero zero).elim
    · refine ⟨below, covers, .inr ?_⟩
      rcases allowed with zero | under | above | ⟨grow, dir', present', short⟩ | ⟨alone, _⟩
      · exact (nonzero zero).elim
      · omega
      · omega
      · cases present.symm.trans present'
        have size : ((s.proc p).sz + n).toNat = sz := by omega
        rw [size] at short
        have := enough grow
        omega
      · exact alone
  obtain ⟨below, covers, alone⟩ := resized
  have mine (q : Fin nproc) (n : ℕ) (apart : q ≠ p) (used : (s.proc q).user = some ((s.proc p).pgdir, n)) :
      sz = n := by
    rcases alone with rfl | alone
    · exact inv.same p q _ _ n user used
    · obtain ⟨busy, same, _⟩ := VmProc.user_eq_some.mp used
      exact (alone q apart busy same).elim
  refine inv.of_update counted.inv proc ?_ ?_ ?_ ?_
  · intro q d n found apart used present
    rw [dirs] at present
    by_cases here : d = (s.proc p).pgdir
    · subst here
      rw [Function.update_self] at present
      cases present
      rw [← mine q n apart used]
      exact covers
    · rw [Function.update_of_ne here] at present
      exact inv.covers q d n found used present
  · intro d n used
    obtain ⟨_, _, rfl⟩ := VmProc.user_eq_some.mp used
    exact below
  · intro d n found used present
    obtain ⟨_, rfl, rfl⟩ := VmProc.user_eq_some.mp used
    rw [dirs, Function.update_self] at present
    cases present
    exact covers
  · intro q d m n apart first second
    obtain ⟨_, rfl, rfl⟩ := VmProc.user_eq_some.mp first
    exact mine q n apart second

private theorem call_step (inv : SizeInv s) (enabled : s.Enabled a) (allowed : s.ResizesAlone a) (called : s.call a = .ok s') :
    SizeInv s' := by
  cases a with
  | fork p fresh => exact inv.fork_step enabled.1 enabled.2 called
  | clone p =>
    cases called
    exact inv.clone_step enabled.1
  | exec p program fresh => exact allowed.elim
  | exit p =>
    rcases RefInv.exit_cases s enabled.1 with failed | ⟨s₁, ok, quiet⟩
    · cases called.symm.trans failed
    · cases called.symm.trans ok
      exact inv.of_quiet quiet
  | wait p => exact inv.wait_step called
  | sbrk p n => exact inv.growproc_step enabled.1 enabled.2 allowed called

theorem step (inv : SizeInv s) (allowed : s.ResizesAlone a) (stepped : s.step a = some s') : SizeInv s' := by
  obtain ⟨enabled, called⟩ := Option.ite_none_right_eq_some.mp stepped
  cases result : s.call a with
  | error panic =>
    rw [result] at called
    cases called
  | ok s₁ =>
    rw [result] at called
    cases called
    exact inv.call_step enabled allowed result

theorem reachable (reached : vmMachine.ReachableBy Vm.ResizesAlone s) : SizeInv s := by
  refine reached.invariant ?_ fun s a s' allowed stepped inv => inv.step allowed stepped
  rintro s ⟨nfree, rfl⟩
  exact SizeInv.initial nfree

/-- No panic of `mappages` or `copyuvm` is possible, whatever the next call is. -/
theorem not_paging (inv : SizeInv s) (enabled : s.Enabled a) (noExec : ∀ p program fresh, a ≠ .exec p program fresh)
    (failed : s.call a = .error panic) : ¬ panic.Paging := by
  have initExiting : ¬ Panic.Paging .initExiting := by
    rintro (remap | missing | absent)
    · cases remap
    · cases missing
    · cases absent
  cases a with
  | fork p fresh =>
    obtain ⟨running, free⟩ : (s.proc p).state = .runnable ∧ s.Fresh fresh := enabled
    have busy : (s.proc p).state ≠ .unused := by
      rw [running]
      decide
    have user : (s.proc p).user = some ((s.proc p).pgdir, (s.proc p).sz) := VmProc.user_eq_some.mpr ⟨busy, rfl, rfl⟩
    rcases inv.refs.fork_cases running free with ⟨_, ok, _⟩ | ⟨src, nfree, _, present, copied, error⟩ |
      ⟨_, _, _, _, _, _, _, _, ok, _⟩
    · cases failed.symm.trans ok
    · rcases copyuvm_covers (inv.covers p _ _ src user present) nfree with none | ⟨_, _, some, _⟩
      · cases copied.symm.trans none
      · cases copied.symm.trans some
    · cases failed.symm.trans ok
  | clone p => cases failed
  | exec p program fresh => exact (noExec p program fresh rfl).elim
  | exit p =>
    rcases RefInv.exit_cases s enabled.1 with error | ⟨_, ok, _⟩
    · cases failed.symm.trans error
      exact initExiting
    · cases failed.symm.trans ok
  | wait p =>
    rcases inv.refs.wait_cases p with ok | ⟨_, _, _, _, ok, _⟩
    · cases failed.symm.trans ok
    · cases failed.symm.trans ok
  | sbrk p n =>
    obtain ⟨_, _, _, _, _, ok, _⟩ := inv.growproc_result enabled.1 enabled.2
    cases failed.symm.trans ok

end SizeInv

/-- In a run in which processes change their size alone, users of one directory have one size, every page
below it is present, and no call panics in `mappages` or `copyuvm`. -/
theorem sizes_agree (reached : vmMachine.ReachableBy Vm.ResizesAlone s) :
    (∀ p q, (s.proc p).state ≠ .unused → (s.proc q).state ≠ .unused → (s.proc p).pgdir = (s.proc q).pgdir →
      (s.proc p).sz = (s.proc q).sz) ∧
    (∀ p page, (s.proc p).state ≠ .unused → page * 4096 < (s.proc p).sz →
      ∃ dir, s.dir (s.proc p).pgdir = some dir ∧ page ∈ dir.pages) ∧
    ∀ a, s.Enabled a → (∀ p program fresh, a ≠ .exec p program fresh) →
      s.call a ≠ .error .remap ∧ s.call a ≠ .error .pteShouldExist ∧ s.call a ≠ .error .pageNotPresent := by
  have inv := SizeInv.reachable reached
  refine ⟨?_, ?_, ?_⟩
  · intro p q busy busy' same
    exact inv.same p q _ _ _ (VmProc.user_eq_some.mpr ⟨busy, rfl, rfl⟩) (VmProc.user_eq_some.mpr ⟨busy', same.symm, rfl⟩)
  · intro p page busy below
    obtain ⟨dir, present⟩ := Option.ne_none_iff_exists'.mp (inv.refs.dir_ne_none busy)
    have covers := inv.covers p _ _ dir (VmProc.user_eq_some.mpr ⟨busy, rfl, rfl⟩) present
    exact ⟨dir, present, (covers.pages page).mpr (lt_pagesUp_iff.mpr below)⟩
  · intro a enabled noExec
    refine ⟨fun failed => ?_, fun failed => ?_, fun failed => ?_⟩
    · exact inv.not_paging enabled noExec failed (.inl rfl)
    · exact inv.not_paging enabled noExec failed (.inr (.inl rfl))
    · exact inv.not_paging enabled noExec failed (.inr (.inr rfl))

/-- `init` grows, makes a child and a thread, and the child grows and shrinks. -/
def growsAlone : List VmAction :=
  [.sbrk Vm.initproc 8192, .fork Vm.initproc 2, .clone Vm.initproc, .sbrk 1 5000, .sbrk 1 (-3000)]

theorem sizes_agree_growsAlone : ∃ s, vmMachine.ReachableBy Vm.ResizesAlone s ∧ (s.proc 1).sz = 14288 ∧
    (s.proc 2).state = .runnable ∧ (s.proc Vm.initproc).sz = (s.proc 2).sz := by
  have run : (vmMachine.runBy Vm.ResizesAlone (.initial 300) growsAlone).map (fun s =>
      (s.proc 1, s.proc Vm.initproc, s.proc 2)) =
        some (⟨.runnable, 2, 14288, some Vm.initproc⟩, ⟨.runnable, 1, 12288, none⟩,
          ⟨.runnable, 1, 12288, some Vm.initproc⟩) := by decide +kernel
  obtain ⟨s, run, eq⟩ := Option.map_eq_some_iff.mp run
  simp only [Prod.mk.injEq] at eq
  obtain ⟨child, init, thread⟩ := eq
  have start : vmMachine.init (.initial 300) := ⟨300, rfl⟩
  have reached := Machine.reachableBy_of_runBy start growsAlone run
  have agree := (sizes_agree reached).1 Vm.initproc 2 (by rw [init]; decide) (by rw [thread]; decide)
    (by rw [init, thread])
  exact ⟨s, reached, by rw [child], by rw [thread], agree⟩

/-- The calls that the sizes are about. -/
def Vm.NoExec (_ : Vm) : VmAction → Prop
  | .exec .. => False
  | .fork .. | .clone _ | .exit _ | .wait _ | .sbrk .. => True

instance (s : Vm) : (a : VmAction) → Decidable (s.NoExec a)
  | .exec .. => inferInstanceAs (Decidable False)
  | .fork .. | .clone _ | .exit _ | .wait _ | .sbrk .. => inferInstanceAs (Decidable True)

/-- The panic of a call. -/
def Vm.panicOf (s : Vm) (a : VmAction) : Option Panic :=
  match s.call a with
  | .error panic => some panic
  | .ok _ => none

/-- `init` grows after it made a thread: the sizes differ, and the thread that grows next panics. -/
theorem sizes_differ : ∃ s, vmMachine.ReachableBy Vm.NoExec s ∧ (s.proc Vm.initproc).state = .runnable ∧
    (s.proc 1).state = .runnable ∧ (s.proc Vm.initproc).pgdir = (s.proc 1).pgdir ∧
    (s.proc Vm.initproc).sz = 8192 ∧ (s.proc 1).sz = 4096 ∧ s.panicOf (.sbrk 1 4096) = some .remap := by
  have run : (vmMachine.runBy Vm.NoExec (.initial 300) [.clone Vm.initproc, .sbrk Vm.initproc 4096]).map (fun s =>
      (s.proc Vm.initproc, s.proc 1, s.panicOf (.sbrk 1 4096))) =
        some (⟨.runnable, 1, 8192, none⟩, ⟨.runnable, 1, 4096, some Vm.initproc⟩, some .remap) := by decide +kernel
  obtain ⟨s, run, eq⟩ := Option.map_eq_some_iff.mp run
  simp only [Prod.mk.injEq] at eq
  obtain ⟨init, thread, panic⟩ := eq
  have start : vmMachine.init (.initial 300) := ⟨300, rfl⟩
  have reached := Machine.reachableBy_of_runBy start _ run
  exact ⟨s, reached, by rw [init], by rw [thread], by rw [init, thread], by rw [init], by rw [thread], panic⟩

end Cs537.Xv6
