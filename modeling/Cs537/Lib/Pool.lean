import Mathlib.Data.List.Nodup
import Mathlib.Data.List.Perm.Basic
import Mathlib.Logic.Function.Basic

/-! # Items that are free, in a table or in a list

An allocator hands out the items of a free list; a client keeps them in a table, or in a list. What has to hold is
that no item is in two places, and every way of moving an item preserves it.
-/

namespace Cs537.Lib

/-- The free items of an allocator, and those that its client holds. -/
structure Pool (α κ : Type*) where
  free : List α
  table : κ → Option α
  list : List α

namespace Pool

variable {α κ : Type*} {p : Pool α κ} {x : α} {i : κ} {rest : List α}

/-- No item is in two places. -/
structure Apart (p : Pool α κ) : Prop where
  free : p.free.Nodup
  list : p.list.Nodup
  injective : ∀ i j x, p.table i = some x → p.table j = some x → i = j
  tableFree : ∀ i x, p.table i = some x → x ∉ p.free
  listFree : ∀ x ∈ p.list, x ∉ p.free
  tableList : ∀ i x, p.table i = some x → x ∉ p.list

/-- The item is in none of the places. -/
structure Fresh (p : Pool α κ) (x : α) : Prop where
  free : x ∉ p.free
  table : ∀ i, p.table i ≠ some x
  list : x ∉ p.list

/-- The first free item is taken. -/
theorem Apart.take (apart : p.Apart) (free : p.free = x :: rest) :
    Apart { p with free := rest } ∧ Fresh { p with free := rest } x := by
  have nodup := apart.free
  rw [free, List.nodup_cons] at nodup
  have fewer {y : α} (absent : y ∉ p.free) : y ∉ rest := fun there => absent (free ▸ List.mem_cons_of_mem x there)
  have head : x ∈ p.free := free ▸ List.mem_cons_self
  refine ⟨⟨nodup.2, apart.list, apart.injective, ?_, ?_, apart.tableList⟩, nodup.1, ?_, ?_⟩
  · exact fun i y held => fewer (apart.tableFree i y held)
  · exact fun y member => fewer (apart.listFree y member)
  · exact fun i held => apart.tableFree i x held head
  · exact fun member => apart.listFree x member head

/-- Free items are lost. -/
theorem Apart.shrink (apart : p.Apart) (fewer : rest.Sublist p.free) : Apart { p with free := rest } :=
  ⟨fewer.nodup apart.free, apart.list, apart.injective, fun i x held there =>
    apart.tableFree i x held (fewer.subset there),
    fun x member there => apart.listFree x member (fewer.subset there), apart.tableList⟩

theorem Fresh.shrink (fresh : p.Fresh x) (fewer : rest.Sublist p.free) : Fresh { p with free := rest } x :=
  ⟨fun there => fresh.free (fewer.subset there), fresh.table, fresh.list⟩

variable [DecidableEq κ]

theorem table_update {j : κ} {value : Option α} {y : α} (held : Function.update p.table i value j = some y) :
    (j = i ∧ value = some y) ∨ (j ≠ i ∧ p.table j = some y) := by
  by_cases here : j = i
  · rw [here, Function.update_self] at held
    exact .inl ⟨here, held⟩
  · rw [Function.update_of_ne here] at held
    exact .inr ⟨here, held⟩

/-- An item is forgotten. -/
theorem Apart.clear (apart : p.Apart) (i : κ) : Apart { p with table := Function.update p.table i none } := by
  have held {j : κ} {y : α} (there : Function.update p.table i none j = some y) : p.table j = some y := by
    rcases table_update there with ⟨_, absurd⟩ | ⟨_, held⟩
    · cases absurd
    · exact held
  exact ⟨apart.free, apart.list, fun j k y first second => apart.injective j k y (held first) (held second),
    fun j y there => apart.tableFree j y (held there), apart.listFree, fun j y there => apart.tableList j y (held there)⟩

/-- A fresh item goes to a place of the table. -/
theorem Apart.enter (apart : p.Apart) (fresh : p.Fresh x) (i : κ) :
    Apart { p with table := Function.update p.table i (some x) } := by
  refine ⟨apart.free, apart.list, fun j k y first second => ?_, fun j y there => ?_, apart.listFree, fun j y there => ?_⟩
  · rcases table_update first with ⟨rfl, same⟩ | ⟨_, old⟩
    · rcases table_update second with ⟨rfl, _⟩ | ⟨_, old⟩
      · rfl
      · cases same
        exact absurd old (fresh.table k)
    · rcases table_update second with ⟨rfl, same⟩ | ⟨_, old'⟩
      · cases same
        exact absurd old (fresh.table j)
      · exact apart.injective j k y old old'
  · rcases table_update there with ⟨_, same⟩ | ⟨_, held⟩
    · cases same
      exact fresh.free
    · exact apart.tableFree j y held
  · rcases table_update there with ⟨_, same⟩ | ⟨_, held⟩
    · cases same
      exact fresh.list
    · exact apart.tableList j y held

/-- An item of the table is given back. -/
theorem Apart.release (apart : p.Apart) (held : p.table i = some x) :
    Apart { p with free := x :: p.free, table := Function.update p.table i none } := by
  obtain ⟨free, list, injective, tableFree, listFree, tableList⟩ := apart.clear i
  refine ⟨List.nodup_cons.mpr ⟨apart.tableFree i x held, free⟩, list, injective, fun j y there => ?_, fun y member => ?_,
    tableList⟩
  · rcases table_update there with ⟨_, none⟩ | ⟨other, there'⟩
    · cases none
    · refine List.not_mem_cons_of_ne_of_not_mem (fun same => ?_) (tableFree j y there)
      exact other (apart.injective j i y there' (same ▸ held))
  · refine List.not_mem_cons_of_ne_of_not_mem (fun same => ?_) (listFree y member)
    exact apart.tableList i x held (same ▸ member)

/-- What a place of the table holds is given back. -/
def vacate (p : Pool α κ) (i : κ) : Pool α κ :=
  { p with free := (p.table i).toList ++ p.free, table := Function.update p.table i none }

theorem vacate_of_none (empty : p.table i = none) : p.vacate i = p := by
  have same : Function.update p.table i none = p.table := by
    rw [← empty, Function.update_eq_self]
  rw [vacate, empty, same]
  rfl

theorem Apart.vacate (apart : p.Apart) (i : κ) : (p.vacate i).Apart := by
  rw [Pool.vacate]
  cases held : p.table i with
  | none => exact apart.clear i
  | some x => exact apart.release held

theorem Apart.vacateAll (apart : p.Apart) (places : List κ) : (places.foldl Pool.vacate p).Apart := by
  induction places generalizing p with
  | nil => exact apart
  | cons i rest ih => exact ih (apart.vacate i)

/-- The free items are then those that were free and those of the places. -/
theorem mem_vacateAll {places : List κ} :
    x ∈ (places.foldl Pool.vacate p).free ↔ x ∈ p.free ∨ ∃ i ∈ places, p.table i = some x := by
  induction places generalizing p with
  | nil => simp
  | cons i rest ih =>
    rw [List.foldl_cons, ih]
    simp only [Pool.vacate, List.mem_append, Option.mem_toList, List.exists_mem_cons_iff]
    constructor
    · rintro ((here | free) | ⟨j, member, there⟩)
      · exact .inr (.inl here)
      · exact .inl free
      · rcases table_update there with ⟨_, none⟩ | ⟨_, there⟩
        · cases none
        · exact .inr (.inr ⟨j, member, there⟩)
    · rintro (free | here | ⟨j, member, there⟩)
      · exact .inl (.inr free)
      · exact .inl (.inl here)
      · by_cases same : j = i
        · exact .inl (.inl (same ▸ there))
        · exact .inr ⟨j, member, by rwa [Function.update_of_ne same]⟩

omit [DecidableEq κ]

/-- A fresh item goes to the list. -/
theorem Apart.push (apart : p.Apart) (fresh : p.Fresh x) : Apart { p with list := x :: p.list } := by
  refine ⟨apart.free, List.nodup_cons.mpr ⟨fresh.list, apart.list⟩, apart.injective, apart.tableFree, ?_, ?_⟩
  · exact List.forall_mem_cons.mpr ⟨fresh.free, apart.listFree⟩
  · intro i y held
    refine List.not_mem_cons_of_ne_of_not_mem (fun same => ?_) (apart.tableList i y held)
    exact fresh.table i (same ▸ held)

/-- An item of the list is given back. -/
theorem Apart.pop (apart : p.Apart) (split : p.list.Perm (x :: rest)) :
    Apart { p with free := x :: p.free, list := rest } := by
  have nodup := split.nodup_iff.mp apart.list
  rw [List.nodup_cons] at nodup
  have member : x ∈ p.list := split.mem_iff.mpr List.mem_cons_self
  have inside {y : α} (left : y ∈ rest) : y ∈ p.list := split.mem_iff.mpr (List.mem_cons_of_mem x left)
  refine ⟨List.nodup_cons.mpr ⟨apart.listFree x member, apart.free⟩, nodup.2, apart.injective, fun i y held => ?_,
    fun y left => ?_, fun i y held left => apart.tableList i y held (inside left)⟩
  · refine List.not_mem_cons_of_ne_of_not_mem (fun same => ?_) (apart.tableFree i y held)
    exact apart.tableList i y held (same ▸ member)
  · refine List.not_mem_cons_of_ne_of_not_mem (fun same => ?_) (apart.listFree y (inside left))
    exact nodup.1 (same ▸ left)

end Pool

end Cs537.Lib
