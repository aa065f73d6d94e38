import Mathlib.Logic.Function.Basic
import Mathlib.Data.List.Basic
import Mathlib.Data.Nat.ModEq

/-! # A queue in a circular buffer

A queue of items that lies in an array of fixed size from some place on, round and round. The places are
numbered without end, and the array index of a place is its remainder.
-/

namespace Cs537.Lib

variable {α : Type*} {data : ℕ → α} {size front : ℕ} {items : List α} {a : α}

/-- The array holds the items of a queue from a place on. -/
structure Fifo (data : ℕ → α) (size front : ℕ) (items : List α) : Prop where
  fits : items.length ≤ size
  item : ∀ k (inside : k < items.length), data ((front + k) % size) = items[k]

namespace Fifo

theorem empty (data : ℕ → α) (size front : ℕ) : Fifo data size front [] :=
  ⟨Nat.zero_le size, fun k inside => absurd inside (Nat.not_lt_zero k)⟩

theorem push (fifo : Fifo data size front items) (room : items.length < size) :
    Fifo (Function.update data ((front + items.length) % size) a) size front (items ++ [a]) := by
  refine ⟨by rw [List.length_append]; exact room, fun k inside => ?_⟩
  rw [List.length_append, List.length_singleton] at inside
  rcases Nat.lt_or_ge k items.length with old | new
  · have apart : (front + k) % size ≠ (front + items.length) % size := by
      intro same
      have close : k % size = items.length % size := Nat.ModEq.add_left_cancel' front same
      rw [Nat.mod_eq_of_lt (Nat.lt_trans old room), Nat.mod_eq_of_lt room] at close
      exact Nat.ne_of_lt old close
    rw [Function.update_of_ne apart, fifo.item k old, List.getElem_append_left old]
  · obtain rfl : k = items.length := by omega
    rw [Function.update_self, List.getElem_append_right (Nat.le_refl _)]
    simp

/-- The first item is at the front, and the others follow. -/
theorem pop (fifo : Fifo data size front (a :: items)) : data (front % size) = a ∧ Fifo data size (front + 1) items := by
  refine ⟨fifo.item 0 (Nat.succ_pos _), Nat.le_trans (Nat.le_succ _) fifo.fits, fun k inside => ?_⟩
  have shifted := fifo.item (k + 1) (Nat.succ_lt_succ inside)
  rw [List.getElem_cons_succ] at shifted
  rw [← shifted]
  congr 2
  omega

/-- The last item may be forgotten. -/
theorem dropLast (fifo : Fifo data size front (items ++ [a])) : Fifo data size front items := by
  have fits := fifo.fits
  rw [List.length_append, List.length_singleton] at fits
  refine ⟨by omega, fun k inside => ?_⟩
  rw [fifo.item k (by rw [List.length_append]; omega), List.getElem_append_left inside]

end Fifo

end Cs537.Lib
