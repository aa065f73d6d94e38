import Mathlib.Data.List.Pairwise
import Mathlib.Logic.Function.Basic
import Mathlib.Tactic.SplitIfs

/-! # Tables of slots

A list of slots, each empty or with a key and a value. As long as no key is in two slots, the table is a map: a value
put into the first empty slot, or behind the last one, adds its key, and emptying the slot of a key takes it away.
-/

namespace Cs537.Lib.Slots

variable {κ ν : Type*} {k k' : κ} {v w : ν} {t : List (Option (κ × ν))} {i j : ℕ}

/-- The first empty slot, or the place behind the last one. -/
def vacant : ℕ → List (Option (κ × ν)) → ℕ
  | i, [] => i
  | i, none :: _ => i
  | i, some _ :: t => vacant (i + 1) t

/-- No key is in two slots. -/
def Distinct (t : List (Option (κ × ν))) : Prop := t.Pairwise fun a b => ∀ x ∈ a, ∀ y ∈ b, x.1 ≠ y.1

theorem Distinct.eq_of_mem (distinct : Distinct t) (one : some (k, v) ∈ t) (two : some (k, w) ∈ t) : v = w := by
  induction t with
  | nil => exact absurd one List.not_mem_nil
  | cons s t ih =>
    rw [Distinct, List.pairwise_cons] at distinct
    rcases List.mem_cons.mp one with rfl | one
    · rcases List.mem_cons.mp two with same | two
      · exact (congrArg Prod.snd (Option.some.inj same)).symm
      · exact absurd rfl (distinct.1 _ two (k, v) rfl (k, w) rfl)
    · rcases List.mem_cons.mp two with same | two
      · rw [← same] at distinct
        exact absurd rfl (distinct.1 _ one (k, w) rfl (k, v) rfl)
      · exact ih distinct.2 one two

theorem vacant_cases (i : ℕ) (t : List (Option (κ × ν))) :
    (∃ m, vacant i t = i + m ∧ t[m]? = some none) ∨ (vacant i t = i + t.length ∧ none ∉ t) := by
  induction t generalizing i with
  | nil => exact .inr ⟨rfl, List.not_mem_nil⟩
  | cons s t ih =>
    cases s with
    | none => exact .inl ⟨0, rfl, rfl⟩
    | some x =>
      rcases ih (i + 1) with ⟨m, place, empty⟩ | ⟨place, full⟩
      · exact .inl ⟨m + 1, by rw [vacant, place]; omega, by rw [List.getElem?_cons_succ]; exact empty⟩
      · refine .inr ⟨by rw [vacant, place, List.length_cons]; omega, fun member => ?_⟩
        rcases List.mem_cons.mp member with same | inside
        · cases same
        · exact full inside

/-- The slots but one. -/
theorem split_at (here : t[i]? = some s) : ∃ front back, t = front ++ s :: back ∧ front.length = i ∧
    ∀ s', t.set i s' = front ++ s' :: back := by
  obtain ⟨inside, rfl⟩ := List.getElem?_eq_some_iff.mp here
  refine ⟨t.take i, t.drop (i + 1), ?_, ?_, fun s' => List.set_eq_take_append_cons_drop.trans (if_pos inside)⟩
  · rw [List.getElem_cons_drop, List.take_append_drop]
  · rw [List.length_take]
    omega

theorem Distinct.middle {front back : List (Option (κ × ν))} {s : Option (κ × ν)} :
    Distinct (front ++ s :: back) ↔ Distinct (front ++ back) ∧ ∀ x ∈ s, ∀ v, some (x.1, v) ∉ front ++ back := by
  have symm : ∀ a b : Option (κ × ν), (∀ x ∈ a, ∀ y ∈ b, x.1 ≠ y.1) → ∀ x ∈ b, ∀ y ∈ a, x.1 ≠ y.1 :=
    fun a b apart x one y two => (apart y two x one).symm
  rw [Distinct, List.pairwise_middle (symm _ _), List.pairwise_cons, and_comm]
  refine and_congr_right' ⟨fun apart x member v inside => ?_, fun apart b inside x member y here => ?_⟩
  · exact apart _ inside x member (x.1, v) rfl rfl
  · rintro same
    refine apart x member y.2 ?_
    rw [same]
    cases here
    exact inside

variable [DecidableEq κ]

/-- The first slot with a key, and its value. -/
def locate (k : κ) : ℕ → List (Option (κ × ν)) → Option (ν × ℕ)
  | _, [] => none
  | i, none :: t => locate k (i + 1) t
  | i, some (k', v) :: t => if k' = k then some (v, i) else locate k (i + 1) t

/-- The map. -/
def find (t : List (Option (κ × ν))) (k : κ) : Option ν := (locate k 0 t).map Prod.fst

theorem locate_some (found : locate k i t = some (v, j)) : ∃ m, j = i + m ∧ t[m]? = some (some (k, v)) := by
  induction t generalizing i with
  | nil => cases found
  | cons s t ih =>
    have later : locate k (i + 1) t = some (v, j) → ∃ m, j = i + m ∧ (s :: t)[m]? = some (some (k, v)) := by
      intro found
      obtain ⟨m, rfl, at_⟩ := ih found
      exact ⟨m + 1, by omega, by rw [List.getElem?_cons_succ]; exact at_⟩
    cases s with
    | none => exact later found
    | some x =>
      rw [locate] at found
      split_ifs at found with same
      · rw [Option.some.injEq, Prod.mk.injEq] at found
        obtain ⟨rfl, rfl⟩ := found
        exact ⟨0, rfl, by rw [List.getElem?_cons_zero, ← same]⟩
      · exact later found

theorem locate_none : locate k i t = none ↔ ∀ v, some (k, v) ∉ t := by
  induction t generalizing i with
  | nil => exact ⟨fun _ _ => List.not_mem_nil, fun _ => rfl⟩
  | cons s t ih =>
    cases s with
    | none =>
      rw [locate, ih]
      simp
    | some x =>
      rw [locate]
      split_ifs with same
      · refine ⟨fun none => none.elim, fun absent => ?_⟩
        have here := absent x.2
        rw [← same] at here
        exact (here List.mem_cons_self).elim
      · rw [ih]
        refine forall_congr' fun v => ?_
        rw [List.mem_cons, not_or, Option.some.injEq]
        exact ⟨fun absent => ⟨fun equal => same (congrArg Prod.fst equal).symm, absent⟩, And.right⟩

theorem find_none : find t k = none ↔ ∀ v, some (k, v) ∉ t := by rw [find, Option.map_eq_none_iff, locate_none]

theorem find_some (distinct : Distinct t) : find t k = some v ↔ some (k, v) ∈ t := by
  constructor
  · intro found
    obtain ⟨⟨w, j⟩, at_, rfl⟩ := Option.map_eq_some_iff.mp found
    obtain ⟨m, _, here⟩ := locate_some at_
    exact List.mem_of_getElem? here
  · intro member
    cases found : find t k with
    | none => exact absurd member (find_none.mp found v)
    | some w =>
      obtain ⟨⟨w, j⟩, at_, rfl⟩ := Option.map_eq_some_iff.mp found
      obtain ⟨m, _, here⟩ := locate_some at_
      exact congrArg some (distinct.eq_of_mem (List.mem_of_getElem? here) member)

/-- Two tables with the same keys and values are the same map. -/
theorem find_ext {t' : List (Option (κ × ν))} (distinct : Distinct t') {f : κ → Option ν}
    (same : ∀ k v, some (k, v) ∈ t' ↔ f k = some v) : find t' = f := by
  funext k
  exact Option.ext fun v => (find_some distinct).trans (same k v)

/-- A new key and its value, in any empty slot. -/
theorem insert_set (distinct : Distinct t) (absent : find t k = none) (empty : t[i]? = some none) :
    Distinct (t.set i (some (k, v))) ∧ find (t.set i (some (k, v))) = Function.update (find t) k (some v) := by
  obtain ⟨front, back, rfl, _, set⟩ := split_at empty
  rw [set]
  have others := (Distinct.middle.mp distinct).1
  have fresh : ∀ w, some (k, w) ∉ front ++ back := by
    intro w member
    refine find_none.mp absent w ?_
    rcases List.mem_append.mp member with first | last
    · exact List.mem_append_left _ first
    · exact List.mem_append_right _ (List.mem_cons_of_mem _ last)
  have distinct' : Distinct (front ++ some (k, v) :: back) :=
    Distinct.middle.mpr ⟨others, fun x same w => by cases same; exact fresh w⟩
  refine ⟨distinct', find_ext distinct' fun k' w => ?_⟩
  have old : find (front ++ none :: back) k' = some w ↔ some (k', w) ∈ front ++ back := by
    rw [find_some distinct]
    simp
  rcases eq_or_ne k' k with rfl | other
  · rw [Function.update_self, Option.some.injEq]
    refine ⟨fun member => ?_, fun same => by rw [same]; simp⟩
    exact distinct'.eq_of_mem (by simp) member
  · rw [Function.update_of_ne other, old]
    simp [other]

/-- A new key and its value, behind the last slot. -/
theorem insert_append (distinct : Distinct t) (absent : find t k = none) :
    Distinct (t ++ [some (k, v)]) ∧ find (t ++ [some (k, v)]) = Function.update (find t) k (some v) := by
  have wide : Distinct (t ++ [none]) := by
    rw [Distinct.middle, List.append_nil]
    exact ⟨distinct, fun x same => by cases same⟩
  have same : find (t ++ [none]) = find t := by
    refine find_ext wide fun k v => ?_
    rw [find_some distinct]
    simp
  have step := insert_set (v := v) wide (i := t.length) (by rw [same]; exact absent) (by simp)
  rw [same] at step
  simpa using step

/-- A new key and its value, where there is place. -/
theorem insert_vacant (distinct : Distinct t) (absent : find t k = none) (v : ν) : vacant 0 t ≤ t.length ∧
    Distinct (if vacant 0 t < t.length then t.set (vacant 0 t) (some (k, v)) else t ++ [some (k, v)]) ∧
      find (if vacant 0 t < t.length then t.set (vacant 0 t) (some (k, v)) else t ++ [some (k, v)]) =
        Function.update (find t) k (some v) := by
  rcases vacant_cases 0 t with ⟨m, place, empty⟩ | ⟨place, _⟩
  · have inside := (List.getElem?_eq_some_iff.mp empty).1
    rw [place, Nat.zero_add, if_pos inside]
    exact ⟨Nat.le_of_lt inside, insert_set distinct absent empty⟩
  · rw [place, Nat.zero_add, if_neg (Nat.lt_irrefl _)]
    exact ⟨Nat.le_refl _, insert_append distinct absent⟩

/-- An emptied slot. -/
theorem erase_set (distinct : Distinct t) (here : t[i]? = some (some (k, v))) :
    Distinct (t.set i none) ∧ find (t.set i none) = Function.update (find t) k none := by
  obtain ⟨front, back, rfl, _, set⟩ := split_at here
  rw [set]
  obtain ⟨others, fresh⟩ := Distinct.middle.mp distinct
  have distinct' : Distinct (front ++ none :: back) := Distinct.middle.mpr ⟨others, fun x same => by cases same⟩
  refine ⟨distinct', find_ext distinct' fun k' w => ?_⟩
  rcases eq_or_ne k' k with rfl | other
  · rw [Function.update_self]
    refine ⟨fun member => ?_, fun same => by cases same⟩
    exact absurd (by simpa using member) (fresh _ rfl w)
  · rw [Function.update_of_ne other, find_some distinct]
    simp [other]

end Cs537.Lib.Slots
