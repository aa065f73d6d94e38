import Mathlib.Computability.Language

/-! # Words of a language at the beginning of a text

A word of a language begins a text, or is all of it. For a product that begins with a letter or with a repetition, the
text is looked at letter by letter.
-/

namespace Cs537.Lib

open Computability

variable {α : Type*} {K L M : Language α} {whole : Bool} {text : List α} {P : α → Prop}

/-- A word of the language begins the text; it is the whole text if it has to be. -/
def Begins (whole : Bool) (L : Language α) (text : List α) : Prop := ∃ word ∈ L, ∃ rest, text = word ++ rest ∧
    (whole = true → rest = [])

theorem begins_one : Begins whole 1 text ↔ (whole = true → text = []) := by
  constructor
  · rintro ⟨word, member, rest, rfl, last⟩
    rw [Language.mem_one] at member
    subst member
    exact last
  · exact fun last => ⟨[], Language.nil_mem_one, text, rfl, last⟩

theorem begins_add : Begins whole (L + M) text ↔ Begins whole L text ∨ Begins whole M text := by
  simp only [Begins, Language.mem_add, or_and_right, exists_or]

/-- The words of one letter with a property. -/
def letter (P : α → Prop) : Language α := {word | ∃ a, P a ∧ word = [a]}

theorem begins_letter_mul : Begins whole (letter P * L) text ↔ ∃ a rest, text = a :: rest ∧ P a ∧
    Begins whole L rest := by
  constructor
  · rintro ⟨_, member, rest, rfl, last⟩
    obtain ⟨_, ⟨a, has, rfl⟩, word, inside, rfl⟩ := Language.mem_mul.mp member
    exact ⟨a, word ++ rest, rfl, has, word, inside, rest, rfl, last⟩
  · rintro ⟨a, _, rfl, has, word, inside, rest, rfl, last⟩
    exact ⟨[a] ++ word, Language.mem_mul.mpr ⟨[a], ⟨a, has, rfl⟩, word, inside, rfl⟩, rest, rfl, last⟩

/-- A repetition is over, or goes round once more. -/
theorem begins_kstar_mul : Begins whole (K∗ * L) text ↔ Begins whole L text ∨ Begins whole (K * (K∗ * L)) text := by
  have unrolled : K∗ * L = L + K * (K∗ * L) := by
    calc K∗ * L = (1 + K * K∗) * L := by rw [Language.one_add_self_mul_kstar_eq_kstar]
      _ = L + K * (K∗ * L) := by rw [add_mul, one_mul, mul_assoc]
  rw [← begins_add, ← unrolled]

end Cs537.Lib
