import Cs537.Lib.Prefixes
import Mathlib.Algebra.BigOperators.Group.List.Basic

/-! # The matcher of `grep`

`match`, `matchhere` and `matchstar` of `grep.c`, on strings without their last NUL. A pattern stands for a sequence
of characters and of repeated characters, of which `.` is any; the matcher finds exactly the words of the language of
this sequence.
-/

namespace Cs537.User.Grep

open Cs537.Lib Computability

/-- The loop of `matchstar`, over the test of the rest of the pattern. -/
def matchstar (here : List Char → Bool) (c : Char) : List Char → Bool
  | [] => here []
  | t :: text => here (t :: text) || ((t == c || c == '.') && matchstar here c text)

/-- The last test of `matchhere`: one character, and then the rest of the pattern. -/
def matchchar (here : List Char → Bool) (c : Char) : List Char → Bool
  | [] => false
  | t :: text => (c == '.' || c == t) && here text

/-- Search for a pattern at the beginning of the text. -/
def matchhere : List Char → List Char → Bool
  | [] => fun _ => true
  | [c] => if c = '$' then List.isEmpty else matchchar (matchhere []) c
  | c :: d :: re => if d = '*' then matchstar (matchhere re) c else matchchar (matchhere (d :: re)) c

/-- The loop of `match`: the empty rest of the text is looked at too. -/
def matchfrom (here : List Char → Bool) : List Char → Bool
  | [] => here []
  | t :: text => here (t :: text) || matchfrom here text

/-- `match`. -/
def match_ (re text : List Char) : Bool := match re with
  | [] => matchfrom (matchhere []) text
  | c :: rest => if c = '^' then matchhere rest text else matchfrom (matchhere (c :: rest)) text

/-- A character of a pattern stands for itself or, `.`, for any. -/
def Stands (c t : Char) : Prop := c = '.' ∨ c = t

inductive Item
  | one (c : Char)
  | star (c : Char)

def Item.lang : Item → Language Char
  | .one c => letter (Stands c)
  | .star c => (letter (Stands c))∗

/-- The items of a pattern, and whether it ends at the end of the text. -/
def items : List Char → List Item × Bool
  | [] => ([], false)
  | [c] => if c = '$' then ([], true) else ([.one c], false)
  | c :: d :: re => if d = '*' then (.star c :: (items re).1, (items re).2)
      else (.one c :: (items (d :: re)).1, (items (d :: re)).2)

/-- A pattern occurs at the beginning of a text. -/
def Here (re text : List Char) : Prop := Begins (items re).2 ((items re).1.map Item.lang).prod text

variable {here : List Char → Bool} {c : Char} {L : Language Char} {whole : Bool}

private theorem matchstar_iff (same : ∀ text, here text = true ↔ Begins whole L text) (text : List Char) :
    matchstar here c text = true ↔ Begins whole ((letter (Stands c))∗ * L) text := by
  induction text with
  | nil =>
    rw [matchstar, same, begins_kstar_mul, begins_letter_mul]
    simp
  | cons t text ih =>
    rw [matchstar, Bool.or_eq_true, Bool.and_eq_true, Bool.or_eq_true, beq_iff_eq, beq_iff_eq, same, ih]
    rw [@begins_kstar_mul _ _ _ _ (t :: text), begins_letter_mul]
    simp only [List.cons.injEq, Stands]
    constructor
    · rintro (found | ⟨char, later⟩)
      · exact .inl found
      · exact .inr ⟨t, text, ⟨rfl, rfl⟩, char.symm.imp_right Eq.symm, later⟩
    · rintro (found | ⟨_, _, ⟨rfl, rfl⟩, char, later⟩)
      · exact .inl found
      · exact .inr ⟨char.symm.imp_left Eq.symm, later⟩

private theorem matchchar_iff (same : ∀ text, here text = true ↔ Begins whole L text) (text : List Char) :
    matchchar here c text = true ↔ Begins whole (letter (Stands c) * L) text := by
  rw [begins_letter_mul]
  cases text with
  | nil => simp [matchchar]
  | cons t text =>
    rw [matchchar, Bool.and_eq_true, Bool.or_eq_true, beq_iff_eq, beq_iff_eq, same]
    simp only [List.cons.injEq, Stands]
    constructor
    · rintro ⟨char, later⟩
      exact ⟨t, text, ⟨rfl, rfl⟩, char, later⟩
    · rintro ⟨_, _, ⟨rfl, rfl⟩, char, later⟩
      exact ⟨char, later⟩

private theorem matchhere_iff (re : List Char) : ∀ text, matchhere re text = true ↔ Here re text := by
  induction re using matchhere.induct with
  | case1 =>
    intro text
    simp [matchhere, Here, items, begins_one]
  | case2 =>
    intro text
    rw [matchhere, Here, items, if_pos rfl, if_pos rfl, List.isEmpty_iff, List.map_nil, List.prod_nil, begins_one]
    exact ⟨fun empty _ => empty, fun empty => empty rfl⟩
  | case3 c char ih =>
    intro text
    rw [matchhere, Here, items, if_neg char, if_neg char, List.map_singleton, List.prod_cons]
    exact matchchar_iff ih text
  | case4 c re ih =>
    intro text
    rw [matchhere, Here, items, if_pos rfl, if_pos rfl, List.map_cons, List.prod_cons]
    exact matchstar_iff ih text
  | case5 c d re char ih =>
    intro text
    rw [matchhere, Here, items, if_neg char, if_neg char, List.map_cons, List.prod_cons]
    exact matchchar_iff ih text

private theorem matchfrom_iff (text : List Char) : matchfrom here text = true ↔ ∃ pre rest, text = pre ++ rest ∧
    here rest = true := by
  induction text with
  | nil =>
    rw [matchfrom]
    constructor
    · exact fun found => ⟨[], [], rfl, found⟩
    · rintro ⟨pre, rest, split, found⟩
      obtain ⟨_, rfl⟩ := List.append_eq_nil_iff.mp split.symm
      exact found
  | cons t text ih =>
    rw [matchfrom, Bool.or_eq_true, ih]
    constructor
    · rintro (found | ⟨pre, rest, rfl, found⟩)
      · exact ⟨[], t :: text, rfl, found⟩
      · exact ⟨t :: pre, rest, rfl, found⟩
    · rintro ⟨pre, rest, split, found⟩
      cases pre with
      | nil => exact .inl (by rw [split]; exact found)
      | cons p pre =>
        rw [List.cons_append, List.cons.injEq] at split
        exact .inr ⟨pre, rest, split.2, found⟩

/-- The matcher finds a pattern exactly where a word of its language is; with `^` only at the beginning of the text,
with `$` only at its end. -/
theorem match_iff (re text : List Char) : match_ re text = true ↔
    ∃ pre rest, text = pre ++ rest ∧ if re.head? = some '^' then pre = [] ∧ Here re.tail rest else Here re rest := by
  cases re with
  | nil =>
    rw [match_, matchfrom_iff]
    simp only [matchhere_iff, List.head?_nil, reduceCtorEq, if_false]
  | cons c rest =>
    rw [match_]
    simp only [List.head?_cons, Option.some.injEq, List.tail_cons]
    split_ifs with first
    · rw [matchhere_iff]
      constructor
      · exact fun found => ⟨[], text, rfl, rfl, found⟩
      · rintro ⟨_, _, rfl, rfl, found⟩
        exact found
    · rw [matchfrom_iff]
      simp only [matchhere_iff]

end Cs537.User.Grep
