import Cs537.Xv6.Vm
import Mathlib.Data.Fintype.EquivFin

/-! # Reference counts of page directories

A directory that was cloned at some time has an entry in `uvmrefcount`, and keeps it when the count goes
back to one; a directory without an entry has one user. The facts about the table of counts are stated
for any count of users, since `freevm` runs before or after the process that leaves is changed.
-/

namespace Cs537.Xv6

open Lib

/-- The entry is in use. -/
def Uvmdesc.Valid (e : Uvmdesc) : Prop := e.refcount ≠ -1

/-- The table of counts and the directories in memory agree with a count of users. -/
structure RefsFor (refs : Fin nproc → Uvmdesc) (dir : ℕ → Option PageDir) (count : ℕ → ℕ) : Prop where
  unique : ∀ i j, (refs i).Valid → (refs j).Valid → (refs i).pgdir = (refs j).pgdir → i = j
  counted : ∀ i, (refs i).Valid → (refs i).refcount = count (refs i).pgdir ∧ 0 < count (refs i).pgdir
  single : ∀ d, 0 < count d → (∀ i, (refs i).Valid → (refs i).pgdir ≠ d) → count d = 1
  alloc : ∀ d, dir d ≠ none ↔ 0 < count d
  null : count 0 = 0

variable {s s' : Vm} {refs : Fin nproc → Uvmdesc} {dir : ℕ → Option PageDir} {count : ℕ → ℕ} {d : ℕ} {p : Fin nproc}

theorem Vm.locate_eq_some {i : Fin nproc} (found : s.locate d = some i) :
    (s.uvmrefcount i).Valid ∧ (s.uvmrefcount i).pgdir = d := by
  have test := List.find?_some found
  simpa [Uvmdesc.Valid] using test

theorem Vm.locate_eq_none (missing : s.locate d = none) (i : Fin nproc) (valid : (s.uvmrefcount i).Valid) :
    (s.uvmrefcount i).pgdir ≠ d := by
  have test := List.find?_eq_none.mp missing i (List.mem_finRange i)
  simp only [ne_eq, decide_eq_true_eq, not_and] at test
  exact test valid

namespace RefsFor

/-- A new directory with one user. -/
theorem add (inv : RefsFor refs dir count) (nonzero : d ≠ 0) (fresh : dir d = none) (content : PageDir) :
    RefsFor refs (Function.update dir d (some content)) (Function.update count d 1) := by
  have unused : count d = 0 := by
    by_contra used
    exact (inv.alloc d).mpr (Nat.pos_of_ne_zero used) fresh
  have apart (i : Fin nproc) (valid : (refs i).Valid) : (refs i).pgdir ≠ d := by
    rintro rfl
    have := (inv.counted i valid).2
    omega
  refine ⟨inv.unique, ?_, ?_, ?_, ?_⟩
  · intro i valid
    rw [Function.update_of_ne (apart i valid)]
    exact inv.counted i valid
  · intro d' used none
    by_cases here : d' = d
    · rw [here, Function.update_self]
    · rw [Function.update_of_ne here] at used ⊢
      exact inv.single d' used none
  · intro d'
    by_cases here : d' = d
    · simp [here]
    · rw [Function.update_of_ne here, Function.update_of_ne here]
      exact inv.alloc d'
  · rw [Function.update_of_ne (Ne.symm nonzero)]
    exact inv.null

/-- The content of a directory changes. -/
theorem setDir (inv : RefsFor refs dir count) (used : dir d ≠ none) (content : PageDir) :
    RefsFor refs (Function.update dir d (some content)) count := by
  refine ⟨inv.unique, inv.counted, inv.single, ?_, inv.null⟩
  intro d'
  by_cases here : d' = d
  · subst here
    simp [← inv.alloc d', used]
  · rw [Function.update_of_ne here]
    exact inv.alloc d'

/-- The directory is given back. -/
theorem release (inv : RefsFor refs dir count) (last : count d = 1)
    (missing : ∀ i, (refs i).Valid → (refs i).pgdir ≠ d) :
    RefsFor refs (Function.update dir d none) (Function.update count d 0) := by
  refine ⟨inv.unique, ?_, ?_, ?_, ?_⟩
  · intro i valid
    rw [Function.update_of_ne (missing i valid)]
    exact inv.counted i valid
  · intro d' used unlisted
    have apart : d' ≠ d := by
      rintro rfl
      simp at used
    rw [Function.update_of_ne apart] at used ⊢
    exact inv.single d' used unlisted
  · intro d'
    by_cases here : d' = d
    · simp [here]
    · rw [Function.update_of_ne here, Function.update_of_ne here]
      exact inv.alloc d'
  · by_cases here : d = 0
    · rw [here, Function.update_self]
    · rw [Function.update_of_ne (Ne.symm here)]
      exact inv.null

/-- The count of a directory with an entry changes, and stays positive. -/
theorem recount (inv : RefsFor refs dir count) {i : Fin nproc} (valid : (refs i).Valid) (mine : (refs i).pgdir = d)
    {n : ℕ} (positive : 0 < n) :
    RefsFor (Function.update refs i { refs i with refcount := n }) dir (Function.update count d n) := by
  have used : 0 < count d := by
    rw [← mine]
    exact (inv.counted i valid).2
  have pgdir (j : Fin nproc) : (Function.update refs i { refs i with refcount := n } j).pgdir = (refs j).pgdir :=
    by
    by_cases here : j = i
    · rw [here, Function.update_self]
    · rw [Function.update_of_ne here]
  have still (j : Fin nproc) : (Function.update refs i { refs i with refcount := n } j).Valid ↔ (refs j).Valid := by
    by_cases here : j = i
    · subst here
      rw [Function.update_self]
      refine iff_of_true ?_ valid
      simp only [Uvmdesc.Valid]
      omega
    · rw [Function.update_of_ne here]
  refine ⟨?_, ?_, ?_, ?_, ?_⟩
  · intro j k first second
    rw [still] at first second
    rw [pgdir, pgdir]
    exact inv.unique j k first second
  · intro j first
    rw [still] at first
    rw [pgdir]
    by_cases here : j = i
    · subst here
      rw [mine, Function.update_self, Function.update_self]
      exact ⟨rfl, positive⟩
    · have apart : (refs j).pgdir ≠ d := fun same => here (inv.unique j i first valid (same.trans mine.symm))
      rw [Function.update_of_ne here, Function.update_of_ne apart]
      exact inv.counted j first
  · intro d' used' none
    have apart : d' ≠ d := by
      rintro rfl
      exact none i ((still i).mpr valid) ((pgdir i).trans mine)
    rw [Function.update_of_ne apart] at used' ⊢
    refine inv.single d' used' fun j first => ?_
    rw [← pgdir]
    exact none j ((still j).mpr first)
  · intro d'
    by_cases here : d' = d
    · rw [here, Function.update_self]
      exact iff_of_true ((inv.alloc d).mpr used) positive
    · rw [Function.update_of_ne here]
      exact inv.alloc d'
  · have apart : d ≠ 0 := by
      rintro rfl
      have := inv.null
      omega
    rw [Function.update_of_ne (Ne.symm apart)]
    exact inv.null

/-- A directory gets an entry. -/
theorem enter (inv : RefsFor refs dir count) {i : Fin nproc} (invalid : (refs i).refcount = -1) (used : 0 < count d)
    (none : ∀ i, (refs i).Valid → (refs i).pgdir ≠ d) :
    RefsFor (Function.update refs i ⟨d, 2⟩) dir (Function.update count d 2) := by
  have old {j : Fin nproc} (here : j ≠ i) : Function.update refs i ⟨d, 2⟩ j = refs j := Function.update_of_ne here ..
  refine ⟨?_, ?_, ?_, ?_, ?_⟩
  · intro j k first second same
    by_cases hereJ : j = i <;> by_cases hereK : k = i
    · rw [hereJ, hereK]
    · subst hereJ
      rw [old hereK] at second same
      rw [Function.update_self] at same
      exact (none k second same.symm).elim
    · subst hereK
      rw [old hereJ] at first same
      rw [Function.update_self] at same
      exact (none j first same).elim
    · rw [old hereJ] at first same
      rw [old hereK] at second same
      exact inv.unique j k first second same
  · intro j valid
    by_cases here : j = i
    · rw [here, Function.update_self, Function.update_self]
      exact ⟨rfl, Nat.zero_lt_two⟩
    · rw [old here] at valid ⊢
      rw [Function.update_of_ne (none j valid)]
      exact inv.counted j valid
  · intro d' used' missing
    have apart : d' ≠ d := by
      rintro rfl
      refine missing i ?_ (by rw [Function.update_self])
      rw [Function.update_self]
      simp [Uvmdesc.Valid]
    rw [Function.update_of_ne apart] at used' ⊢
    refine inv.single d' used' fun j valid => ?_
    have here : j ≠ i := by
      rintro rfl
      exact valid invalid
    have := missing j
    rw [old here] at this
    exact this valid
  · intro d'
    by_cases here : d' = d
    · rw [here, Function.update_self]
      exact iff_of_true ((inv.alloc d).mpr used) Nat.zero_lt_two
    · rw [Function.update_of_ne here]
      exact inv.alloc d'
  · have apart : d ≠ 0 := by
      rintro rfl
      have := inv.null
      omega
    rw [Function.update_of_ne (Ne.symm apart)]
    exact inv.null

/-- An entry is given up together with the directory. -/
theorem forget (inv : RefsFor refs dir count) {i : Fin nproc} (valid : (refs i).Valid) (mine : (refs i).pgdir = d)
    (last : count d = 1) :
    RefsFor (Function.update refs i { refs i with refcount := -1 }) (Function.update dir d none)
      (Function.update count d 0) := by
  have invalid : ¬ (Function.update refs i { refs i with refcount := -1 } i).Valid := by
    rw [Function.update_self]
    exact fun valid => valid rfl
  have still {j : Fin nproc} (first : (Function.update refs i { refs i with refcount := -1 } j).Valid) :
      j ≠ i ∧ Function.update refs i { refs i with refcount := -1 } j = refs j := by
    have here : j ≠ i := by
      rintro rfl
      exact invalid first
    exact ⟨here, Function.update_of_ne here ..⟩
  have apart (j : Fin nproc) (first : (Function.update refs i { refs i with refcount := -1 } j).Valid) :
      (Function.update refs i { refs i with refcount := -1 } j).pgdir ≠ d := by
    obtain ⟨here, same⟩ := still first
    rw [same] at first ⊢
    exact fun eq => here (inv.unique j i first valid (eq.trans mine.symm))
  refine ⟨?_, ?_, ?_, ?_, ?_⟩
  · intro j k first second
    obtain ⟨_, same⟩ := still first
    obtain ⟨_, same'⟩ := still second
    rw [same] at first ⊢
    rw [same'] at second ⊢
    exact inv.unique j k first second
  · intro j first
    rw [Function.update_of_ne (apart j first)]
    obtain ⟨_, same⟩ := still first
    rw [same] at first ⊢
    exact inv.counted j first
  · intro d' used missing
    have ne : d' ≠ d := by
      rintro rfl
      simp at used
    rw [Function.update_of_ne ne] at used ⊢
    refine inv.single d' used fun j first => ?_
    by_cases here : j = i
    · rw [here, mine]
      exact Ne.symm ne
    · have := missing j
      rw [Function.update_of_ne here] at this
      exact this first
  · intro d'
    by_cases here : d' = d
    · simp [here]
    · rw [Function.update_of_ne here, Function.update_of_ne here]
      exact inv.alloc d'
  · by_cases here : d = 0
    · rw [here, Function.update_self]
    · rw [Function.update_of_ne (Ne.symm here)]
      exact inv.null

end RefsFor

/-- The page can be handed out as a new directory, so no process and no entry knows it. -/
theorem RefsFor.fresh (inv : RefsFor s.uvmrefcount s.dir count) (fresh : s.Fresh d) :
    count d = 0 ∧ ∀ i, (s.uvmrefcount i).Valid → (s.uvmrefcount i).pgdir ≠ d := by
  have unused : count d = 0 := by
    by_contra used
    exact (inv.alloc d).mpr (Nat.pos_of_ne_zero used) fresh.2
  refine ⟨unused, ?_⟩
  rintro i valid rfl
  have := (inv.counted i valid).2
  omega

/-- `freevm` of a directory in use: one user less, and the pages are given back with the last one. -/
theorem RefsFor.freevm (inv : RefsFor s.uvmrefcount s.dir count) (used : 0 < count d) :
    ∃ s', s.freevm d = .ok s' ∧ s'.proc = s.proc ∧ (∀ d', s'.dir d' = none ∨ s'.dir d' = s.dir d') ∧
      RefsFor s'.uvmrefcount s'.dir (Function.update count d (count d - 1)) := by
  obtain ⟨content, present⟩ := Option.ne_none_iff_exists'.mp ((inv.alloc d).mpr used)
  have nonzero : d ≠ 0 := by
    rintro rfl
    have := inv.null
    omega
  have frame (d' : ℕ) : Function.update s.dir d none d' = none ∨ Function.update s.dir d none d' = s.dir d' := by
    by_cases here : d' = d
    · exact .inl (by rw [here, Function.update_self])
    · exact .inr (Function.update_of_ne here ..)
  rw [Vm.freevm]
  cases found : s.locate d with
  | none =>
    have missing := Vm.locate_eq_none found
    have last := inv.single d used missing
    simp only [Vm.releaseDir, if_neg nonzero, present]
    refine ⟨_, rfl, rfl, frame, ?_⟩
    rw [last]
    exact inv.release last missing
  | some i =>
    obtain ⟨valid, mine⟩ := Vm.locate_eq_some found
    obtain ⟨counted, _⟩ := inv.counted i valid
    rw [mine] at counted
    simp only [counted]
    rw [if_neg (by omega)]
    by_cases last : count d = 1
    · rw [if_neg (by omega)]
      have kept : (s.setRef i { s.uvmrefcount i with refcount := -1 }).dir d = some content := present
      simp only [Vm.releaseDir, if_neg nonzero, kept]
      refine ⟨_, rfl, rfl, frame, ?_⟩
      rw [last]
      exact inv.forget valid mine last
    · rw [if_pos (by omega)]
      refine ⟨_, rfl, rfl, fun d' => .inr rfl, ?_⟩
      have less : (count d : ℤ) - 1 = (count d - 1 : ℕ) := by omega
      rw [less]
      exact inv.recount valid mine (by omega)

/-- `freevm` of a directory that no process uses yet and no entry counts. -/
theorem Vm.freevm_fresh (missing : ∀ i, (s.uvmrefcount i).Valid → (s.uvmrefcount i).pgdir ≠ d) (nonzero : d ≠ 0)
    {content : PageDir} (present : s.dir d = some content) :
    ∃ nfree, s.freevm d = .ok { s.setDir d none with nfree } := by
  have notFound : s.locate d = none := by
    cases found : s.locate d with
    | none => rfl
    | some i =>
      obtain ⟨valid, mine⟩ := Vm.locate_eq_some found
      exact (missing i valid mine).elim
  rw [Vm.freevm, notFound]
  simp only [Vm.releaseDir, if_neg nonzero, present]
  exact ⟨_, rfl⟩

/-- A directory in use has an entry, or there is an entry left for it. -/
theorem RefsFor.exists_free (inv : RefsFor s.uvmrefcount s.dir s.users) (used : 0 < s.users d)
    (missing : s.locate d = none) : ∃ i, s.freeRef = some i ∧ (s.uvmrefcount i).refcount = -1 := by
  cases found : s.freeRef with
  | some i =>
    have test := List.find?_some found
    exact ⟨i, rfl, by simpa using test⟩
  | none =>
    have valid (i : Fin nproc) : (s.uvmrefcount i).Valid := by
      have test := List.find?_eq_none.mp found i (List.mem_finRange i)
      simpa [Uvmdesc.Valid] using test
    have user (i : Fin nproc) : ∃ p, (s.proc p).pgdir = (s.uvmrefcount i).pgdir := by
      have positive := (inv.counted i (valid i)).2
      rw [Vm.users, countWhere, Finset.card_pos] at positive
      obtain ⟨p, member⟩ := positive
      simp only [Finset.mem_filter, Finset.mem_univ, true_and, decide_eq_true_eq] at member
      exact ⟨p, member.2⟩
    choose owner owns using user
    have injective : Function.Injective owner := by
      intro i j same
      refine inv.unique i j (valid i) (valid j) ?_
      rw [← owns, ← owns, same]
    rw [Vm.users, countWhere, Finset.card_pos] at used
    obtain ⟨p, member⟩ := used
    simp only [Finset.mem_filter, Finset.mem_univ, true_and, decide_eq_true_eq] at member
    obtain ⟨i, rfl⟩ := Finite.surjective_of_injective injective p
    exact (Vm.locate_eq_none missing i (valid i) ((owns i).symm.trans member.2)).elim

end Cs537.Xv6
