import Mathlib.Data.Set.Insert
import Mathlib.Logic.Function.Basic

/-! # Slots that own items

Items are held by slots, each by one slot at most, and an allocator knows which items are in use. Filling an
empty slot with an item that is not in use and emptying slots while giving their items back keep this so.
Nothing else can be said of an item that is in use and held by no slot: it is lost, or kept for another
purpose.
-/

namespace Cs537.Lib

variable {σ ι : Type*} [DecidableEq σ]

/-- Each item is held once at most, lies in the range of the allocator and is marked as used. -/
structure Owned (range used : Set ι) (held : σ → Option ι) : Prop where
  within : ∀ slot x, held slot = some x → x ∈ range
  marked : ∀ slot x, held slot = some x → x ∈ used
  once : ∀ slot slot' x, held slot = some x → held slot' = some x → slot = slot'

namespace Owned

variable {range used : Set ι} {held : σ → Option ι} {slot : σ} {x : ι}

omit [DecidableEq σ] in
/-- An item that is not in use is held by no slot. -/
theorem not_held (owned : Owned range used held) (free : x ∉ used) (slot : σ) : held slot ≠ some x :=
  fun has => free (owned.marked slot x has)

/-- Put an unused item into a slot. -/
theorem fill (owned : Owned range used held) (inside : x ∈ range) (free : x ∉ used) :
    Owned range (insert x used) (Function.update held slot (some x)) where
  within s y has := by
    rcases eq_or_ne s slot with rfl | other
    · rw [Function.update_self] at has
      cases has
      exact inside
    · rw [Function.update_of_ne other] at has
      exact owned.within s y has
  marked s y has := by
    rcases eq_or_ne s slot with rfl | other
    · rw [Function.update_self] at has
      cases has
      exact Set.mem_insert x used
    · rw [Function.update_of_ne other] at has
      exact Set.mem_insert_of_mem x (owned.marked s y has)
  once s s' y has has' := by
    rcases eq_or_ne s slot with rfl | other
    · rw [Function.update_self] at has
      cases has
      rcases eq_or_ne s' s with rfl | other'
      · rfl
      · rw [Function.update_of_ne other'] at has'
        exact absurd has' (owned.not_held free s')
    · rw [Function.update_of_ne other] at has
      rcases eq_or_ne s' slot with rfl | other'
      · rw [Function.update_self] at has'
        cases has'
        exact absurd has (owned.not_held free s)
      · rw [Function.update_of_ne other'] at has'
        exact owned.once s s' y has has'

omit [DecidableEq σ] in
/-- Empty some slots and give their items back. -/
theorem empty (owned : Owned range used held) {held' : σ → Option ι} {gone : Set ι}
    (fewer : ∀ slot x, held' slot = some x → held slot = some x ∧ x ∉ gone) :
    Owned range (used \ gone) held' where
  within s y has := owned.within s y (fewer s y has).1
  marked s y has := ⟨owned.marked s y (fewer s y has).1, (fewer s y has).2⟩
  once s s' y has has' := owned.once s s' y (fewer s y has).1 (fewer s' y has').1

omit [DecidableEq σ] in
theorem congr (owned : Owned range used held) {held' : σ → Option ι} (same : ∀ slot, held' slot = held slot) :
    Owned range used held' := by
  rw [show held' = held from funext same]
  exact owned

end Owned

end Cs537.Lib
