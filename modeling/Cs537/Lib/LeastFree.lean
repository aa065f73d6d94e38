import Mathlib.Order.Bounds.Basic

/-! # Handing out the least free item

An allocator has a set of free items. It hands out the least of them, or answers that there is none, and it takes
back an item that is not free. A data structure implements the set if its steps are the steps of the set, and if
every step of the set is one of its own.
-/

namespace Cs537.Lib

/-- The steps of a labelled relation, one after the other. -/
inductive Steps {σ ε : Type*} (step : σ → ε → σ → Prop) : σ → List ε → σ → Prop
  | nil (s : σ) : Steps step s [] s
  | cons {s mid t : σ} {e : ε} {rest : List ε} : step s e mid → Steps step mid rest t → Steps step s (e :: rest) t

namespace Steps

variable {σ τ ε : Type*} {step : σ → ε → σ → Prop} {step' : τ → ε → τ → Prop} {s t : σ} {events : List ε}

theorem append_iff {front back : List ε} :
    Steps step s (front ++ back) t ↔ ∃ mid, Steps step s front mid ∧ Steps step mid back t := by
  induction front generalizing s with
  | nil =>
    constructor
    · intro steps
      exact ⟨s, .nil s, steps⟩
    · rintro ⟨_, ⟨⟩, steps⟩
      exact steps
  | cons e rest ih =>
    constructor
    · rintro (_ | ⟨first, more⟩)
      obtain ⟨mid, front, back⟩ := ih.mp more
      exact ⟨mid, .cons first front, back⟩
    · rintro ⟨mid, _ | ⟨first, front⟩, back⟩
      exact .cons first (ih.mpr ⟨mid, front, back⟩)

/-- What one step preserves, where the events meet a condition. -/
theorem preserves (inv : σ → Prop) (ok : ε → Prop) (stepInv : ∀ s e t, ok e → step s e t → inv s → inv t)
    (steps : Steps step s events t) (all : ∀ e ∈ events, ok e) (start : inv s) : inv t := by
  induction steps with
  | nil => exact start
  | cons first _ ih =>
    obtain ⟨here, later⟩ := List.forall_mem_cons.mp all
    exact ih later (stepInv _ _ _ here first start)

/-- Steps are turned into steps with the same labels. -/
theorem map (abs : σ → τ) (simulates : ∀ s e t, step s e t → step' (abs s) e (abs t)) (steps : Steps step s events t) :
    Steps step' (abs s) events (abs t) := by
  induction steps with
  | nil => exact .nil _
  | cons first _ ih => exact .cons (simulates _ _ _ first) ih

/-- Steps come from steps with the same labels. -/
theorem lift (abs : σ → τ) (covers : ∀ s e t', step' (abs s) e t' → ∃ t, step s e t ∧ abs t = t') {t' : τ}
    (steps : Steps step' (abs s) events t') : ∃ t, Steps step s events t ∧ abs t = t' := by
  induction events generalizing s with
  | nil =>
    cases steps
    exact ⟨s, .nil s, rfl⟩
  | cons e rest ih =>
    obtain _ | ⟨first, more⟩ := steps
    obtain ⟨mid, here, rfl⟩ := covers _ _ _ first
    obtain ⟨t, later, last⟩ := ih more
    exact ⟨t, .cons here later, last⟩

end Steps

/-- A request with its answer. -/
inductive Deal (α : Type*) where
  | take (answer : Option α)
  | give (x : α)
deriving DecidableEq, Repr

/-- What a request makes of the free items, all of which are from a given set. -/
inductive FreeStep {α : Type*} [Preorder α] (whole : Set α) : Set α → Deal α → Set α → Prop
  | least {free : Set α} {x : α} : IsLeast free x → FreeStep whole free (.take (some x)) (free \ {x})
  | none : FreeStep whole ∅ (.take none) ∅
  | give {free : Set α} {x : α} : x ∈ whole → x ∉ free → FreeStep whole free (.give x) (insert x free)

namespace FreeStep

variable {α : Type*} [Preorder α] {whole free free' : Set α} {x : α} {deal : Deal α} {front mid back : List (Deal α)}

/-- An item that is not free stays so until it is given back. -/
theorem stays (step : FreeStep whole free deal free') (other : deal ≠ .give x) (held : x ∉ free) : x ∉ free' := by
  cases step with
  | least _ => exact fun member => held member.1
  | none => exact held
  | give =>
    rintro (rfl | member)
    · exact other rfl
    · exact held member

/-- Between two times that an item is handed out, it is given back. -/
theorem given_between
    (steps : Steps (FreeStep whole) free (front ++ .take (some x) :: (mid ++ .take (some x) :: back)) free') :
    .give x ∈ mid := by
  by_contra never
  obtain ⟨_, _, steps⟩ := Steps.append_iff.mp steps
  obtain _ | ⟨first, steps⟩ := steps
  obtain ⟨_, between, steps⟩ := Steps.append_iff.mp steps
  obtain _ | ⟨second, _⟩ := steps
  have held := between.preserves (fun free => x ∉ free) (fun deal => deal ≠ .give x)
    (fun _ _ _ other step => step.stays other) (fun deal member same => never (same ▸ member))
    (by cases first with | least => exact fun member => member.2 rfl)
  cases second with
  | least lowest => exact held lowest.1

end FreeStep

end Cs537.Lib
