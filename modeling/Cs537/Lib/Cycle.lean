import Mathlib.Data.List.Chain
import Mathlib.Data.List.Nodup

/-! # Circular singly linked lists

A list of nodes whose pointers lead from each to the next. A cycle is such a list that comes back to its
first node. Pointers may be changed in the middle of a list, a cycle begins at any of its nodes, and a walk
along the pointers finds a node that passes a test if there is one.
-/

namespace Cs537.Lib

variable {α : Type*} {next next' : α → α} {pre post mid mid' l : List α} {a b c p q z : α}

/-- The pointers lead along the list. -/
def Trail (next : α → α) (l : List α) : Prop := l.IsChain fun a b => next a = b

namespace Trail

theorem congr (path : Trail next l) (same : ∀ a ∈ l.dropLast, next' a = next a) : Trail next' l := by
  induction l with
  | nil => exact .nil
  | cons a l ih =>
    cases l with
    | nil => exact .singleton a
    | cons b l =>
      rw [Trail, List.isChain_cons_cons] at path ⊢
      refine ⟨(same a (by simp)).trans path.1, ih path.2 fun c member => same c ?_⟩
      rw [List.dropLast_cons_cons]
      exact List.mem_cons_of_mem a member

theorem split : Trail next (pre ++ p :: post) ↔ Trail next (pre ++ [p]) ∧ Trail next (p :: post) := List.isChain_split

/-- New pointers between two nodes. -/
theorem splice (path : Trail next (pre ++ p :: mid ++ q :: post)) (middle : Trail next' (p :: mid' ++ [q]))
    (before : ∀ a ∈ pre, next' a = next a) (after : ∀ a ∈ (q :: post).dropLast, next' a = next a) :
    Trail next' (pre ++ p :: mid' ++ q :: post) := by
  rw [split] at path ⊢
  refine ⟨?_, path.2.congr after⟩
  have first := path.1
  rw [List.append_assoc, List.cons_append, split] at first ⊢
  refine ⟨first.1.congr fun a member => before a ?_, middle⟩
  rw [List.dropLast_concat] at member
  exact member

end Trail

/-- A cycle from its first node on. -/
def Cycle (next : α → α) (a : α) (l : List α) : Prop := Trail next (a :: l ++ [a])

namespace Cycle

/-- The same cycle from another node on. -/
theorem rotate (cycle : Cycle next a (pre ++ b :: post)) : Cycle next b (post ++ a :: pre) := by
  have whole : Trail next (a :: pre ++ b :: (post ++ [a])) := by simpa [Cycle] using cycle
  have turned : Trail next (b :: post ++ a :: (pre ++ [b])) := Trail.split.mpr (Trail.split.mp whole).symm
  simpa [Cycle] using turned

/-- From every node on, the cycle has the same nodes. -/
theorem from_node (cycle : Cycle next a l) (member : b ∈ a :: l) : ∃ rest, Cycle next b rest ∧
    (b :: rest).Perm (a :: l) := by
  rcases List.mem_cons.mp member with rfl | inside
  · exact ⟨l, cycle, .refl _⟩
  · obtain ⟨pre, post, rfl⟩ := List.append_of_mem inside
    refine ⟨post ++ a :: pre, cycle.rotate, ?_⟩
    rw [← List.cons_append, ← List.cons_append]
    exact List.perm_append_comm

/-- What follows the first node. -/
theorem next_first (cycle : Cycle next a l) : next a = (l ++ [a]).head (by simp) := by
  obtain ⟨c, rest, same⟩ := List.exists_cons_of_ne_nil (show l ++ [a] ≠ [] by simp)
  have path : Trail next (a :: (l ++ [a])) := cycle
  rw [Trail, same, List.isChain_cons_cons] at path
  simp only [same, List.head_cons]
  exact path.1

/-- The pointers lead to exactly the nodes. -/
theorem mem_iff (cycle : Cycle next a l) : b ∈ a :: l ↔ ∃ n, next^[n] a = b := by
  constructor
  · intro member
    have path : Trail next (a :: l) := List.IsChain.left_of_append cycle
    clear cycle
    induction l generalizing a with
    | nil => exact ⟨0, (List.mem_singleton.mp member).symm⟩
    | cons c l ih =>
      rw [Trail, List.isChain_cons_cons] at path
      rcases List.mem_cons.mp member with rfl | inside
      · exact ⟨0, rfl⟩
      · obtain ⟨n, reached⟩ := ih inside path.2
        refine ⟨n + 1, ?_⟩
        rw [Function.iterate_succ_apply, path.1]
        exact reached
  · rintro ⟨n, rfl⟩
    induction n with
    | zero => exact List.mem_cons_self
    | succ n ih =>
      rw [Function.iterate_succ_apply']
      obtain ⟨rest, cycle', perm⟩ := cycle.from_node ih
      apply perm.mem_iff.mp
      rw [cycle'.next_first]
      cases rest with
      | nil => exact List.mem_cons_self
      | cons c rest => exact List.mem_cons_of_mem _ List.mem_cons_self

end Cycle

/-- Walk until a test succeeds. -/
def walk (next : α → α) (test : α → Bool) : ℕ → α → Option α
  | 0, _ => none
  | fuel + 1, a => if test a then some a else walk next test fuel (next a)

theorem walk_path {test : α → Bool} {fuel : ℕ} (path : Trail next (a :: l)) (found : ∃ p ∈ a :: l, test p = true)
    (enough : l.length < fuel) :
    ∃ p ∈ a :: l, test p = true ∧ walk next test fuel a = some p := by
  induction l generalizing a fuel with
  | nil =>
    obtain ⟨p, member, hit⟩ := found
    obtain rfl := List.mem_singleton.mp member
    obtain ⟨fuel, rfl⟩ := Nat.exists_eq_succ_of_ne_zero (Nat.ne_zero_of_lt enough)
    exact ⟨p, member, hit, by rw [walk, if_pos hit]⟩
  | cons b l ih =>
    obtain ⟨fuel, rfl⟩ := Nat.exists_eq_succ_of_ne_zero (Nat.ne_zero_of_lt enough)
    rw [Trail, List.isChain_cons_cons] at path
    cases hit : test a with
    | true => exact ⟨a, List.mem_cons_self, hit, by rw [walk, if_pos hit]⟩
    | false =>
      have later : ∃ p ∈ b :: l, test p = true := by
        obtain ⟨p, member, hit'⟩ := found
        rcases List.mem_cons.mp member with rfl | inside
        · rw [hit] at hit'
          exact absurd hit' Bool.false_ne_true
        · exact ⟨p, inside, hit'⟩
      obtain ⟨p, member, hit', run⟩ := ih path.2 later (Nat.lt_of_succ_lt_succ enough)
      refine ⟨p, List.mem_cons_of_mem a member, hit', ?_⟩
      rw [walk, if_neg (by rw [hit]; exact Bool.false_ne_true), path.1]
      exact run

/-- From every node of a cycle, a walk finds a node that passes the test. -/
theorem Cycle.walk {test : α → Bool} {fuel : ℕ} (cycle : Cycle next a l) (member : b ∈ a :: l)
    (found : ∃ p ∈ a :: l, test p = true)
    (enough : l.length < fuel) : ∃ p ∈ a :: l, test p = true ∧ Lib.walk next test fuel b = some p := by
  obtain ⟨rest, cycle', perm⟩ := cycle.from_node member
  have sizes := perm.length_eq
  rw [List.length_cons, List.length_cons] at sizes
  have path : Trail next (b :: rest) := List.IsChain.left_of_append cycle'
  obtain ⟨p, inside, hit, run⟩ :=
    walk_path path (by obtain ⟨p, inside, hit⟩ := found; exact ⟨p, perm.mem_iff.mpr inside, hit⟩)
    (show _ < fuel by omega)
  exact ⟨p, perm.mem_iff.mp inside, hit, run⟩

end Cs537.Lib
