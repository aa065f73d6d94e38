import Mathlib.Data.List.Chain
import Mathlib.Data.List.Nodup
import Mathlib.Logic.Function.Basic

/-! # Circular doubly linked lists

Nodes that are linked in both directions, with a head that is no element. The links represent the list of
the nodes that are met from the head on. Unlinking a node and linking one behind the head are the list
operations, and a walk along the links in either direction finds what a search of the list does.
-/

namespace Cs537.Lib

variable {α : Type*} [DecidableEq α]

/-- The two pointers of each node. -/
structure Links (α : Type*) where
  next : α → α
  prev : α → α

namespace Links

/-- Take a node out: `b->next->prev = b->prev; b->prev->next = b->next`. -/
def unlink (k : Links α) (b : α) : Links α :=
  ⟨Function.update k.next (k.prev b) (k.next b), Function.update k.prev (k.next b) (k.prev b)⟩

/-- Put a node behind the head: its two pointers first, then the pointers to it. -/
def pushFront (k : Links α) (head b : α) : Links α :=
  let next := Function.update k.next b (k.next head)
  let prev := Function.update k.prev b head
  ⟨Function.update next head b, Function.update prev (next head) b⟩

/-- Walk from a node until the head, and stop at the first node that passes a test. -/
def search (step : α → α) (head : α) (p : α → Bool) : ℕ → α → Option α
  | 0, _ => none
  | fuel + 1, b => if b = head then none else if p b then some b else search step head p fuel (step b)

/-- The links of a list and its head. -/
structure Circle (k : Links α) (head : α) (l : List α) : Prop where
  distinct : (head :: l).Nodup
  linked : List.IsChain (fun a b => k.next a = b ∧ k.prev b = a) (head :: l ++ [head])

end Links

namespace Links.Circle

variable {k : Links α} {head b : α} {l front back : List α}

omit [DecidableEq α] in
/-- Links that agree on the nodes of a chain. -/
theorem chain_congr {k' : Links α} {l : List α} (chain : List.IsChain (fun a b => k.next a = b ∧ k.prev b = a) l)
    (same : ∀ a ∈ l.dropLast, k'.next a = k.next a) (same' : ∀ b ∈ l.tail, k'.prev b = k.prev b) :
    List.IsChain (fun a b => k'.next a = b ∧ k'.prev b = a) l := by
  induction l with
  | nil => exact .nil
  | cons a rest ih =>
    cases rest with
    | nil => exact .singleton a
    | cons b rest =>
      rw [List.isChain_cons_cons] at chain ⊢
      refine ⟨⟨?_, ?_⟩, ih chain.2 (fun c member => same c ?_) (fun c member => same' c ?_)⟩
      · rw [same a (by simp)]
        exact chain.1.1
      · rw [same' b (by simp)]
        exact chain.1.2
      · rw [List.dropLast_cons_cons]
        exact List.mem_cons_of_mem a member
      · exact List.mem_cons_of_mem b member

omit [DecidableEq α] in
/-- Seen the other way round, the list is reversed. -/
theorem reverse (circle : k.Circle head l) : (⟨k.prev, k.next⟩ : Links α).Circle head l.reverse where
  distinct := by
    have distinct := circle.distinct
    rw [List.nodup_cons] at distinct ⊢
    rw [List.mem_reverse, List.nodup_reverse]
    exact distinct
  linked := by
    have chain := List.isChain_reverse.mpr circle.linked
    rw [List.reverse_append, List.reverse_cons] at chain
    simp only [List.reverse_cons, List.reverse_nil, List.nil_append, List.cons_append] at chain
    exact chain.imp fun a b both => ⟨both.2, both.1⟩

/-- A walk from a node on finds what a search of the nodes behind it does. -/
theorem search_eq {p : α → Bool} {fuel : ℕ} {a : α} {step : α → α} (absent : head ∉ l)
    (chain : List.IsChain (fun a b => step a = b) (a :: l ++ [head])) (enough : l.length < fuel) :
    search step head p fuel (step a) = l.find? p := by
  induction l generalizing fuel a with
  | nil =>
    obtain ⟨fuel, rfl⟩ := Nat.exists_eq_succ_of_ne_zero (Nat.ne_zero_of_lt enough)
    have stop : step a = head := by simpa using chain
    rw [search, if_pos stop]
    rfl
  | cons b rest ih =>
    obtain ⟨fuel, rfl⟩ := Nat.exists_eq_succ_of_ne_zero (Nat.ne_zero_of_lt enough)
    rw [List.cons_append, List.cons_append, List.isChain_cons_cons] at chain
    rw [List.mem_cons, not_or] at absent
    rw [search, chain.1, if_neg (Ne.symm absent.1), List.find?_cons]
    cases p b with
    | true => rfl
    | false => exact ih absent.2 chain.2 (by simpa using enough)

theorem search_next (circle : k.Circle head l) {p : α → Bool} {fuel : ℕ} (enough : l.length < fuel) :
    search k.next head p fuel (k.next head) = l.find? p :=
  search_eq (List.nodup_cons.mp circle.distinct).1 (circle.linked.imp fun _ _ both => both.1) enough

theorem search_prev (circle : k.Circle head l) {p : α → Bool} {fuel : ℕ} (enough : l.length < fuel) :
    search k.prev head p fuel (k.prev head) = l.reverse.find? p :=
  circle.reverse.search_next (by simpa using enough)

/-- A node between two parts of a chain of different nodes. -/
theorem unlink {front back : List α} (circle : k.Circle head (front ++ b :: back)) :
    (k.unlink b).Circle head (front ++ back) := by
  obtain ⟨distinct, linked⟩ := circle
  have fewer : (head :: (front ++ back)).Nodup :=
    List.Nodup.sublist (List.Sublist.cons_cons head ((List.Sublist.refl front).append
      (List.sublist_cons_self b back))) distinct
  refine ⟨fewer, ?_⟩
  obtain ⟨before, p, whole⟩ : ∃ before p, head :: front = before ++ [p] := by
    rcases List.eq_nil_or_concat front with rfl | ⟨init, last, rfl⟩
    · exact ⟨[], head, rfl⟩
    · exact ⟨head :: init, last, by simp⟩
  obtain ⟨n, after, rest⟩ : ∃ n after, back ++ [head] = n :: after := by
    cases back with
    | nil => exact ⟨head, [], rfl⟩
    | cons n back => exact ⟨n, back ++ [head], rfl⟩
  have split : head :: (front ++ b :: back) ++ [head] = (before ++ [p]) ++ b :: n :: after := by
    rw [← whole, ← rest]
    simp
  have joined : head :: (front ++ back) ++ [head] = (before ++ [p]) ++ n :: after := by
    rw [← whole, ← rest]
    simp
  rw [split, List.isChain_append, List.isChain_cons_cons] at linked
  obtain ⟨left, ⟨⟨next, back'⟩, right⟩, middle⟩ := linked
  obtain ⟨next', prev⟩ := middle p (by simp) b (by simp)
  have links : k.unlink b = ⟨Function.update k.next p n, Function.update k.prev n p⟩ := by
    rw [Links.unlink, prev, next]
  -- the nodes of the two parts, apart from the two that are linked now, are different from these
  have nodes : (before ++ [p] ++ back).Nodup := by
    rw [← whole]
    exact fewer
  have sources : p ∉ before ∧ p ∉ back := by
    rw [List.append_assoc, List.nodup_append] at nodes
    constructor
    · intro member
      exact nodes.2.2 p member p (by simp) rfl
    · exact (List.nodup_cons.mp nodes.2.1).1
  have targets : n ∉ front ∧ n ∉ after := by
    rw [List.nodup_cons, List.nodup_append] at fewer
    obtain ⟨absent, frontOnce, backOnce, apart⟩ := fewer
    rw [List.mem_append, not_or] at absent
    cases back with
    | nil =>
      cases rest
      exact ⟨absent.1, List.not_mem_nil⟩
    | cons n' back =>
      cases rest
      refine ⟨fun member => apart n member n List.mem_cons_self rfl, ?_⟩
      change n ∉ back ++ [head]
      rw [List.mem_append, List.mem_singleton, not_or]
      refine ⟨(List.nodup_cons.mp backOnce).1, ?_⟩
      rintro rfl
      exact absent.2 List.mem_cons_self
  rw [joined, List.isChain_append, links]
  refine ⟨chain_congr left (fun a member => ?_) (fun a member => ?_),
    chain_congr right (fun a member => ?_) (fun a member => ?_),
    fun x last y first => ?_⟩
  · apply Function.update_of_ne
    rintro rfl
    rw [List.dropLast_concat] at member
    exact sources.1 member
  · apply Function.update_of_ne
    rintro rfl
    rw [← whole, List.tail_cons] at member
    exact targets.1 member
  · apply Function.update_of_ne
    rintro rfl
    rw [← rest, List.dropLast_concat] at member
    exact sources.2 member
  · apply Function.update_of_ne
    rintro rfl
    exact targets.2 member
  · simp only [List.getLast?_concat, Option.mem_def, Option.some.injEq, List.head?_cons] at last first
    subst last first
    exact ⟨Function.update_self .., Function.update_self ..⟩

theorem pushFront (circle : k.Circle head l) (new : b ∉ head :: l) : (k.pushFront head b).Circle head (b :: l) := by
  obtain ⟨distinct, linked⟩ := circle
  rw [List.mem_cons, not_or] at new
  obtain ⟨other, absent⟩ := new
  refine ⟨?_, ?_⟩
  · rw [List.nodup_cons] at distinct ⊢
    rw [List.nodup_cons, List.mem_cons, not_or]
    exact ⟨⟨Ne.symm other, distinct.1⟩, absent, distinct.2⟩
  obtain ⟨n, after, rest⟩ : ∃ n after, l ++ [head] = n :: after := by
    cases l with
    | nil => exact ⟨head, [], rfl⟩
    | cons n l => exact ⟨n, l ++ [head], rfl⟩
  rw [List.cons_append, rest, List.isChain_cons_cons] at linked
  obtain ⟨⟨next, prev⟩, right⟩ := linked
  have apart : b ≠ n := by
    rintro rfl
    have member : b ∈ l ++ [head] := by
      rw [rest]
      exact List.mem_cons_self
    rcases List.mem_append.mp member with inside | last
    · exact absent inside
    · exact other (List.mem_singleton.mp last)
  have targets : n ∉ after := by
    rw [List.nodup_cons] at distinct
    cases l with
    | nil =>
      cases rest
      exact List.not_mem_nil
    | cons n' l =>
      cases rest
      change n ∉ l ++ [head]
      rw [List.mem_append, List.mem_singleton, not_or]
      refine ⟨(List.nodup_cons.mp distinct.2).1, ?_⟩
      rintro rfl
      exact distinct.1 List.mem_cons_self
  have links : k.pushFront head b =
      ⟨Function.update (Function.update k.next b n) head b, Function.update (Function.update k.prev b head) n b⟩ := by
    rw [Links.pushFront, Function.update_of_ne (Ne.symm other), next]
  rw [links, List.cons_append, List.cons_append, rest, List.isChain_cons_cons, List.isChain_cons_cons]
  refine ⟨⟨Function.update_self .., ?_⟩, ⟨?_, Function.update_self ..⟩,
    chain_congr right (fun a member => ?_) (fun a member => ?_)⟩
  · simp only
    rw [Function.update_of_ne apart, Function.update_self]
  · simp only
    rw [Function.update_of_ne other, Function.update_self]
  · have inside : a ∈ l := by
      rw [← rest, List.dropLast_concat] at member
      exact member
    simp only
    rw [Function.update_of_ne, Function.update_of_ne]
    · rintro rfl
      exact absent inside
    · rintro rfl
      exact (List.nodup_cons.mp distinct).1 inside
  · have inside : a ∈ l ++ [head] := by
      rw [rest]
      exact List.mem_cons_of_mem n member
    simp only
    rw [Function.update_of_ne, Function.update_of_ne]
    · rintro rfl
      rcases List.mem_append.mp inside with within | last
      · exact absent within
      · exact other (List.mem_singleton.mp last)
    · rintro rfl
      exact targets member

/-- A head alone. -/
theorem alone (head : α) : (⟨Function.update id head head, Function.update id head head⟩ : Links α).Circle head [] where
  distinct := List.nodup_singleton head
  linked := by simp

end Links.Circle

end Cs537.Lib
