import Cs537.Lib.Minimum
import Mathlib.Data.Fintype.Basic
import Mathlib.Data.Finset.Max
import Mathlib.Data.List.FinRange
import Mathlib.Logic.Function.Basic
import Mathlib.Algebra.Order.Ring.Int

/-! # The process table and `findminnice`

A channel is only ever compared for equality, so the table is generic in the type of channels; zero
is the null channel. The list `locksHeld` is `locks_held[0..num_locks_held-1]`. `findminnice` is the
loop of the source; `effectiveNice` is what it is for, and the two agree on every runnable process.
-/

namespace Cs537.Xv6

open Lib

/-- `NPROC`. -/
def nproc : ℕ := 64

/-- `enum procstate`. -/
inductive ProcState where
  | unused
  | embryo
  | sleeping
  | runnable
  | running
  | zombie
deriving DecidableEq, Repr

/-- The fields of `struct proc` that scheduling reads. -/
structure Proc (χ : Type) where
  state : ProcState
  pid : ℕ
  parent : Option (Fin nproc)
  chan : χ
  sleepticks : ℤ
  locksHeld : List χ
  nice : ℤ
  elevatedNice : ℤ
deriving DecidableEq, Repr

/-- The store `p->elevated_nice = e`. -/
def Proc.setElevated {χ : Type} (p : Proc χ) (e : ℤ) : Proc χ := { p with elevatedNice := e }

/-- `ptable.proc`. -/
abbrev Procs (χ : Type) := Fin nproc → Proc χ

variable {χ : Type} [DecidableEq χ]

/-- The inner loops of `findminnice`: the nice value of a process, lowered by the waiters for its locks. -/
def elevate (procs : Procs χ) (p : Fin nproc) : ℤ :=
  (procs p).locksHeld.foldl (fun elevated lock =>
    (List.finRange nproc).foldl (fun elevated q =>
      if ((procs q).state = .sleeping ∧ (procs q).chan = lock) ∧ (procs q).nice < elevated
      then (procs q).nice else elevated) elevated) (procs p).nice

/-- One round of the outer loop of `findminnice`. -/
def findminniceStep (acc : Procs χ × ℤ) (p : Fin nproc) : Procs χ × ℤ :=
  if (acc.1 p).state ≠ .runnable then acc
  else
    let elevated := elevate acc.1 p
    (Function.update acc.1 p ((acc.1 p).setElevated elevated),
      if elevated < acc.2 then elevated else acc.2)

/-- `findminnice`: the new table and the returned minimum. -/
def findminnice (procs : Procs χ) : Procs χ × ℤ :=
  (List.finRange nproc).foldl findminniceStep (procs, 19)

/-- A process asleep on a channel that is one of the locks of another. -/
def Waits (procs : Procs χ) (p q : Fin nproc) : Prop :=
  (procs q).state = .sleeping ∧ (procs q).chan ∈ (procs p).locksHeld

instance (procs : Procs χ) (p q : Fin nproc) : Decidable (Waits procs p q) :=
  inferInstanceAs (Decidable (_ ∧ _))

/-- The nice value of a process under priority inheritance. -/
def effectiveNice (procs : Procs χ) (p : Fin nproc) : ℤ :=
  (insert (procs p).nice ((Finset.univ.filter (Waits procs p)).image fun q => (procs q).nice)).min'
    (Finset.insert_nonempty _ _)

theorem le_effectiveNice_iff (procs : Procs χ) (p : Fin nproc) (x : ℤ) :
    x ≤ effectiveNice procs p ↔ x ≤ (procs p).nice ∧ ∀ q, Waits procs p q → x ≤ (procs q).nice := by
  simp [effectiveNice, Finset.le_min'_iff]

theorem effectiveNice_le (procs : Procs χ) (p : Fin nproc) : effectiveNice procs p ≤ (procs p).nice :=
  ((le_effectiveNice_iff procs p _).mp le_rfl).1

theorem elevate_eq (procs : Procs χ) (p : Fin nproc) : elevate procs p = effectiveNice procs p := by
  apply eq_of_forall_le_iff
  intro x
  rw [elevate, le_effectiveNice_iff, le_foldl_iff fun x lock =>
    ∀ q ∈ List.finRange nproc, (procs q).state = .sleeping ∧ (procs q).chan = lock → x ≤ (procs q).nice]
  · constructor
    · rintro ⟨own, waiters⟩
      refine ⟨own, ?_⟩
      rintro q ⟨asleep, member⟩
      exact waiters _ member q (List.mem_finRange q) ⟨asleep, rfl⟩
    · rintro ⟨own, waiters⟩
      refine ⟨own, ?_⟩
      rintro lock member q _ ⟨asleep, rfl⟩
      exact waiters q ⟨asleep, member⟩
  · intro x elevated lock _
    refine le_foldl_iff (fun x q => (procs q).state = .sleeping ∧ (procs q).chan = lock → x ≤ (procs q).nice) ?_ x
      elevated
    intro x best q _
    exact le_ite_lt_iff

/-- Two tables that differ in elevated values only. -/
def SameButElevated (procs procs' : Procs χ) : Prop := ∀ q, ∃ e, procs' q = (procs q).setElevated e

omit [DecidableEq χ] in
theorem SameButElevated.state_eq {procs procs' : Procs χ} (same : SameButElevated procs procs')
    (q : Fin nproc) : (procs' q).state = (procs q).state := by
  obtain ⟨e, eq⟩ := same q
  rw [eq]
  rfl

theorem SameButElevated.effectiveNice_eq {procs procs' : Procs χ} (same : SameButElevated procs procs')
    (p : Fin nproc) : effectiveNice procs' p = effectiveNice procs p := by
  apply eq_of_forall_le_iff
  intro x
  rw [le_effectiveNice_iff, le_effectiveNice_iff]
  have waits (q : Fin nproc) : Waits procs' p q ↔ Waits procs p q := by
    obtain ⟨e, eq⟩ := same p
    obtain ⟨e', eq'⟩ := same q
    rw [Waits, Waits, eq, eq']
    rfl
  have nice (q : Fin nproc) : (procs' q).nice = (procs q).nice := by
    obtain ⟨e, eq⟩ := same q
    rw [eq]
    rfl
  simp only [waits, nice]

/-- The table after a pass over the listed processes, and the minimum of the pass. -/
structure FoundMin (procs : Procs χ) (best : ℤ) (l : List (Fin nproc)) (result : Procs χ × ℤ) : Prop where
  runnable : ∀ q ∈ l, (procs q).state = .runnable → result.1 q = (procs q).setElevated (effectiveNice procs q)
  others : ∀ q, q ∉ l ∨ (procs q).state ≠ .runnable → result.1 q = procs q
  le_iff : ∀ x, x ≤ result.2 ↔ x ≤ best ∧ ∀ q ∈ l, (procs q).state = .runnable → x ≤ effectiveNice procs q

theorem FoundMin.same {procs : Procs χ} {best : ℤ} {l : List (Fin nproc)} {result : Procs χ × ℤ}
    (found : FoundMin procs best l result) : SameButElevated procs result.1 := by
  intro q
  by_cases visited : q ∈ l ∧ (procs q).state = .runnable
  · exact ⟨_, found.runnable q visited.1 visited.2⟩
  · exact ⟨(procs q).elevatedNice, found.others q (by tauto)⟩

private theorem findminniceStep_found (procs : Procs χ) (best : ℤ) (p : Fin nproc) :
    FoundMin procs best [p] (findminniceStep (procs, best) p) := by
  by_cases runnable : (procs p).state = .runnable
  · simp only [findminniceStep, runnable, ne_eq, not_true, if_false, elevate_eq]
    refine ⟨?_, ?_, ?_⟩
    · rintro q member _
      obtain rfl := List.mem_singleton.mp member
      exact Function.update_self ..
    · rintro q (apart | other)
      · exact Function.update_of_ne (by simpa using apart) ..
      · apply Function.update_of_ne
        rintro rfl
        exact other runnable
    · intro x
      have lower : x ≤ (if True ∧ effectiveNice procs p < best then effectiveNice procs p else best) ↔
          x ≤ best ∧ (True → x ≤ effectiveNice procs p) := le_ite_lt_iff
      simpa [runnable] using lower
  · refine ⟨?_, ?_, ?_⟩ <;> simp [findminniceStep, runnable]

private theorem foldl_findminniceStep_found (l : List (Fin nproc)) (procs : Procs χ) (best : ℤ) :
    FoundMin procs best l (l.foldl findminniceStep (procs, best)) := by
  induction l generalizing procs best with
  | nil => exact ⟨by simp, by simp, by simp⟩
  | cons p l ih =>
    have first := findminniceStep_found procs best p
    rw [List.foldl_cons]
    generalize findminniceStep (procs, best) p = next at first
    obtain ⟨procs', best'⟩ := next
    have rest := ih procs' best'
    have same := first.same
    refine ⟨?_, ?_, ?_⟩
    · intro q member runnable
      by_cases later : q ∈ l
      · rw [rest.runnable q later ((same.state_eq q).trans runnable), same.effectiveNice_eq]
        obtain ⟨e, eq⟩ := same q
        dsimp only at eq ⊢
        rw [eq]
        rfl
      · have here : q = p := (List.mem_cons.mp member).resolve_right later
        rw [rest.others q (.inl later)]
        exact first.runnable q (by simp [here]) runnable
    · intro q unvisited
      have later : q ∉ l ∨ (procs' q).state ≠ .runnable := by
        rw [show (procs' q).state = (procs q).state from same.state_eq q]
        exact unvisited.imp_left fun apart member => apart (List.mem_cons_of_mem _ member)
      rw [rest.others q later]
      apply first.others
      exact unvisited.imp_left fun apart member => apart (by simp [List.mem_singleton.mp member])
    · intro x
      have state (q : Fin nproc) : (procs' q).state = (procs q).state := same.state_eq q
      have effective (q : Fin nproc) : effectiveNice procs' q = effectiveNice procs q :=
        same.effectiveNice_eq q
      have bound := first.le_iff x
      dsimp only at bound
      simp only [rest.le_iff, bound, state, effective, List.forall_mem_singleton, List.forall_mem_cons, and_assoc]

/-- `findminnice` stores the effective nice value of every runnable process and returns the least of
them, or 19. -/
theorem findminnice_found (procs : Procs χ) :
    FoundMin procs 19 (List.finRange nproc) (findminnice procs) :=
  foldl_findminniceStep_found _ procs 19

end Cs537.Xv6
