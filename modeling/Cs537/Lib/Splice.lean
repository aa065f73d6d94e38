import Mathlib.Data.List.Basic

/-! # Overwriting part of a list

A write at an offset replaces what is there and may pass the end. Adjacent writes are one write, and a
write of what is there already is none.
-/

namespace Cs537.Lib

variable {α : Type*} {data bytes : List α} {off : ℕ}

/-- The list after a write at an offset. -/
def splice (data : List α) (off : ℕ) (bytes : List α) : List α :=
  data.take off ++ bytes ++ data.drop (off + bytes.length)

theorem splice_nil (data : List α) (off : ℕ) : splice data off [] = data := by
  simp [splice]

theorem length_splice (within : off ≤ data.length) :
    (splice data off bytes).length = max data.length (off + bytes.length) := by
  simp only [splice, List.length_append, List.length_take, List.length_drop]
  omega

theorem getElem?_splice (within : off ≤ data.length) (n : ℕ) :
    (splice data off bytes)[n]? =
      if n < off then data[n]? else if n < off + bytes.length then bytes[n - off]? else data[n]? := by
  have taken : (data.take off).length = off := by
    rw [List.length_take]
    omega
  rw [splice, List.append_assoc]
  split_ifs with before inside
  · rw [List.getElem?_append_left (by omega), List.getElem?_take_of_lt before]
  · rw [List.getElem?_append_right (by omega), taken, List.getElem?_append_left (by omega)]
  · rw [List.getElem?_append_right (by omega), taken, List.getElem?_append_right (by omega), List.getElem?_drop]
    congr 1
    omega

theorem getElem?_splice_before (within : off ≤ data.length) {n : ℕ} (before : n < off) :
    (splice data off bytes)[n]? = data[n]? := by
  rw [getElem?_splice within, if_pos before]

theorem splice_splice (within : off ≤ data.length) (more : List α) :
    splice (splice data off bytes) (off + bytes.length) more = splice data off (bytes ++ more) := by
  have inside : off + bytes.length ≤ (splice data off bytes).length := by
    rw [length_splice within]
    omega
  apply List.ext_getElem?
  intro n
  rw [getElem?_splice inside, getElem?_splice within, getElem?_splice within, List.length_append]
  split_ifs with h₁ h₂ h₃ h₄ h₅ <;> try omega
  · rfl
  · rw [List.getElem?_append_left (by omega)]
  · rw [List.getElem?_append_right (by omega)]
    congr 1
    omega
  · rfl

/-- A write of what is there, and only such a write, changes nothing. -/
theorem splice_eq_self (within : off ≤ data.length) :
    splice data off bytes = data ↔ ∀ o < bytes.length, data[off + o]? = bytes[o]? := by
  constructor
  · intro same o inside
    have read : (splice data off bytes)[off + o]? = _ := getElem?_splice within (off + o)
    rw [same, if_neg (by omega), if_pos (by omega), Nat.add_sub_cancel_left] at read
    exact read
  · intro same
    apply List.ext_getElem?
    intro n
    rw [getElem?_splice within]
    split_ifs with before inside
    · rfl
    · rw [← same (n - off) (by omega)]
      congr 1
      omega
    · rfl

end Cs537.Lib
