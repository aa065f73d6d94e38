import Mathlib.Data.Fintype.Card
import Mathlib.Logic.Function.Basic

/-! # Families of threads: counting, lock holders, private labels

A semaphore invariant counts the threads that are between two program points, a mutex invariant says
that the threads inside a region are exactly its holder, and a label such as the address of a node
still under construction belongs to one thread at most. The family of program points changes at
one index per step; the lemmas are the whole arithmetic of that change.
-/

namespace Cs537.Lib

variable {ι α : Type*}

/-- What the new member has in common with the old one, the family keeps. -/
theorem apply_update_of_eq {β : Type*} [DecidableEq ι] (f : α → β) {family : ι → α} {i : ι} {value : α}
    (same : f value = f (family i)) (j : ι) : f (Function.update family i value j) = f (family j) := by
  by_cases eq : j = i
  · subst eq
    rw [Function.update_self, same]
  · rw [Function.update_of_ne eq]

/-- How many indices of the family satisfy the test. -/
def countWhere [Fintype ι] (test : α → Bool) (family : ι → α) : ℕ :=
  (Finset.univ.filter (fun i => test (family i) = true)).card

/-- Changing one member moves the count by that member's old and new contribution. -/
theorem countWhere_update [Fintype ι] [DecidableEq ι] (test : α → Bool) (family : ι → α) (i : ι)
    (value : α) :
    countWhere test (Function.update family i value) + (test (family i)).toNat =
      countWhere test family + (test value).toNat := by
  have split (g : ι → α) : countWhere test g =
      (((Finset.univ.erase i).filter (fun j => test (g j) = true)).card) + (test (g i)).toNat := by
    rw [countWhere, ← Finset.insert_erase (Finset.mem_univ i), Finset.filter_insert]
    cases test (g i) <;> simp
  have rest : (Finset.univ.erase i).filter (fun j => test (Function.update family i value j) = true) =
      (Finset.univ.erase i).filter (fun j => test (family j) = true) := by
    apply Finset.filter_congr
    intro j member
    rw [Function.update_of_ne (Finset.ne_of_mem_erase member)]
  rw [split, split family, rest, Function.update_self]
  omega

theorem countWhere_pos [Fintype ι] (test : α → Bool) (family : ι → α) {i : ι}
    (holds : test (family i) = true) : 0 < countWhere test family :=
  Finset.card_pos.mpr ⟨i, Finset.mem_filter.mpr ⟨Finset.mem_univ i, holds⟩⟩

theorem countWhere_eq_zero [Fintype ι] {test : α → Bool} {family : ι → α}
    (none : ∀ i, test (family i) = false) : countWhere test family = 0 := by
  simp [countWhere, none]

/-- The members that satisfy the test are exactly the holder, if there is one. -/
def HeldBy (test : α → Bool) (family : ι → α) (holder : Option ι) : Prop :=
  ∀ i, test (family i) = true ↔ holder = some i

namespace HeldBy

variable [DecidableEq ι] {test : α → Bool} {family : ι → α} {holder : Option ι} {i : ι} {value : α}

/-- A step that neither enters nor leaves the region keeps the holder. -/
theorem keep (held : HeldBy test family holder) (same : test value = test (family i)) :
    HeldBy test (Function.update family i value) holder := by
  intro j
  by_cases eq : j = i
  · subst eq
    rw [Function.update_self, same]
    exact held j
  · rw [Function.update_of_ne eq]
    exact held j

/-- Entering a free region makes the entering member its holder. -/
theorem take (held : HeldBy test family none) (inside : test value = true) :
    HeldBy test (Function.update family i value) (some i) := by
  intro j
  by_cases eq : j = i
  · subst eq
    simp [inside]
  · rw [Function.update_of_ne eq]
    have outside := held j
    simp only [reduceCtorEq, iff_false] at outside
    simp [outside, Ne.symm eq]

/-- The holder leaves the region free. -/
theorem drop (held : HeldBy test family holder) (inside : test (family i) = true)
    (outside : test value = false) : HeldBy test (Function.update family i value) none := by
  have own := (held i).mp inside
  intro j
  by_cases eq : j = i
  · subst eq
    simp [outside]
  · rw [Function.update_of_ne eq, held j, own]
    simp [Ne.symm eq]

omit [DecidableEq ι] in
/-- Two members inside the region are the same member. -/
theorem unique (held : HeldBy test family holder) {j : ι} (first : test (family i) = true)
    (second : test (family j) = true) : i = j :=
  Option.some.inj (((held i).mp first).symm.trans ((held j).mp second))

end HeldBy

/-- No label belongs to two members of the family. -/
def Exclusive {β : Type*} (label : α → Option β) (family : ι → α) : Prop :=
  ∀ i j b, label (family i) = some b → label (family j) = some b → i = j

/-- One member may take any label no other member has. -/
theorem Exclusive.update {β : Type*} [DecidableEq ι] {label : α → Option β} {family : ι → α}
    (exclusive : Exclusive label family) {i : ι} {value : α}
    (apart : ∀ j b, j ≠ i → label value = some b → label (family j) ≠ some b) :
    Exclusive label (Function.update family i value) := by
  intro j k b first second
  by_cases eqJ : j = i <;> by_cases eqK : k = i
  · rw [eqJ, eqK]
  · subst eqJ
    rw [Function.update_self] at first
    rw [Function.update_of_ne eqK] at second
    exact (apart k b eqK first second).elim
  · subst eqK
    rw [Function.update_of_ne eqJ] at first
    rw [Function.update_self] at second
    exact (apart j b eqJ second first).elim
  · rw [Function.update_of_ne eqJ] at first
    rw [Function.update_of_ne eqK] at second
    exact exclusive j k b first second

end Cs537.Lib
