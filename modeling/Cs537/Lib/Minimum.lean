import Mathlib.Order.Lattice
import Mathlib.Data.List.Basic

/-! # Loops that keep a running minimum

A loop that lowers a value for some elements of a list ends with the greatest lower bound of what it
saw. Stated with an arbitrary test for one element, so that nested loops compose.
-/

namespace Cs537.Lib

/-- If one step tests the value and the element, the loop tests the value and all elements. -/
theorem le_foldl_iff {α β : Type*} [LE β] {f : β → α → β} (test : β → α → Prop) {l : List α}
    (step : ∀ x b, ∀ a ∈ l, x ≤ f b a ↔ x ≤ b ∧ test x a) (x b : β) :
    x ≤ l.foldl f b ↔ x ≤ b ∧ ∀ a ∈ l, test x a := by
  induction l generalizing b with
  | nil => simp
  | cons a l ih =>
    rw [List.foldl_cons, ih fun x b a member => step x b a (List.mem_cons_of_mem _ member),
      step x b a (List.mem_cons_self ..), List.forall_mem_cons, and_assoc]

/-- The step `if value < best then value else best`, taken for some elements only. -/
theorem le_ite_lt_iff {β : Type*} [LinearOrder β] {taken : Prop} [Decidable taken] {x value best : β} :
    x ≤ (if taken ∧ value < best then value else best) ↔ x ≤ best ∧ (taken → x ≤ value) := by
  split_ifs with lower
  · obtain ⟨yes, lt⟩ := lower
    exact ⟨fun le => ⟨le.trans lt.le, fun _ => le⟩, fun both => both.2 yes⟩
  · refine ⟨fun le => ⟨le, fun yes => ?_⟩, fun both => both.1⟩
    exact le.trans (not_lt.mp fun lt => lower ⟨yes, lt⟩)

end Cs537.Lib
