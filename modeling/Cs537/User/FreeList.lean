import Cs537.Lib.Cycle
import Cs537.User.Malloc
import Mathlib.Data.Set.Basic

/-! # The free list

The free blocks are a cycle in the order of their addresses that begins at `base`, the only block without
units, and no two of them touch. `free` finds the place of a block that overlaps no free block and adds its
units to the free ones; `carve` takes the units of one block away. Both leave memory alone except for the
headers of free blocks and of the block itself.
-/

namespace Cs537.User

open Cs537.Lib

variable {base bp n p q z prevp nunits : ℕ} {hdr hdr' : ℕ → Header} {nodes pre old mid rest back : List ℕ} {s t : Heap}

structure FreeList (base : ℕ) (hdr : ℕ → Header) (nodes : List ℕ) : Prop where
  first : nodes.head? = some base
  path : Trail (fun a => (hdr a).ptr) (nodes ++ [base])
  sorted : nodes.Pairwise fun a b => a + (hdr a).size < b
  sizes : ∀ a ∈ nodes, (hdr a).size = 0 ↔ a = base

/-- The units of some blocks. -/
def unitsOf (hdr : ℕ → Header) (nodes : List ℕ) : Set ℕ := {u | ∃ a ∈ nodes, a ≤ u ∧ u < a + (hdr a).size}

private theorem unitsOf_append : unitsOf hdr (pre ++ rest) = unitsOf hdr pre ∪ unitsOf hdr rest := by
  ext u
  simp only [unitsOf, Set.mem_ofPred_eq, Set.mem_union, List.mem_append, or_and_right, exists_or]

theorem unitsOf_congr (same : ∀ a ∈ nodes, hdr' a = hdr a) : unitsOf hdr' nodes = unitsOf hdr nodes := by
  ext u
  constructor
  · rintro ⟨a, member, low, high⟩
    rw [same a member] at high
    exact ⟨a, member, low, high⟩
  · rintro ⟨a, member, low, high⟩
    refine ⟨a, member, low, ?_⟩
    rw [same a member]
    exact high

private theorem FreeList.base_mem (list : FreeList base hdr nodes) : base ∈ nodes := List.mem_of_head? list.first

theorem FreeList.cons (list : FreeList base hdr nodes) : ∃ l, nodes = base :: l := by
  cases nodes with
  | nil => exact absurd list.base_mem List.not_mem_nil
  | cons a l =>
    have same := list.first
    rw [List.head?_cons, Option.some.injEq] at same
    exact ⟨l, by rw [same]⟩

theorem FreeList.cycle {l : List ℕ} (list : FreeList base hdr (base :: l)) :
    Cycle (fun a => (hdr a).ptr) base l := list.path

/-- What follows a node. -/
theorem FreeList.ptr_eq (list : FreeList base hdr (pre ++ p :: rest)) :
    (hdr p).ptr = (rest ++ [base]).head (by simp) := by
  obtain ⟨z, tail, same⟩ := List.exists_cons_of_ne_nil (show rest ++ [base] ≠ [] by simp)
  have path := list.path
  rw [List.append_assoc, List.cons_append, Trail.split] at path
  have second := path.2
  rw [Trail, same, List.isChain_cons_cons] at second
  simp only [same, List.head_cons]
  exact second.1

/-- The base is below the other blocks. -/
theorem FreeList.base_le (list : FreeList base hdr nodes) {a : ℕ} (member : a ∈ nodes) : base ≤ a := by
  obtain ⟨l, rfl⟩ := list.cons
  rcases List.mem_cons.mp member with rfl | inside
  · exact Nat.le_refl _
  · have order := (List.pairwise_cons.mp list.sorted).1 a inside
    omega

/-- Other blocks, or none, between a block and those behind it. -/
theorem FreeList.replace (mid : List ℕ) (list : FreeList base hdr (pre ++ p :: old ++ rest))
    (first : ∀ a ∈ pre, hdr' a = hdr a) (last : ∀ a ∈ rest, hdr' a = hdr a)
    (middle : ∀ z tail, rest ++ [base] = z :: tail → Trail (fun a => (hdr' a).ptr) (p :: mid ++ [z]))
    (sorted : (p :: mid ++ rest).Pairwise fun a b => a + (hdr' a).size < b) (own : (hdr' p).size = 0 ↔ p = base)
    (full : ∀ a ∈ mid, (hdr' a).size ≠ 0) : FreeList base hdr' (pre ++ p :: mid ++ rest) := by
  have ahead : ∀ b ∈ p :: mid ++ rest, p ≤ b := by
    intro b member
    rw [List.cons_append] at member sorted
    rcases List.mem_cons.mp member with rfl | inside
    · exact Nat.le_refl _
    · have order := (List.pairwise_cons.mp sorted).1 b inside
      omega
  have low := list.base_le (a := p) (by simp)
  refine ⟨?_, ?_, ?_, fun a member => ?_⟩
  · have same := list.first
    cases pre with
    | nil => exact same
    | cons a pre => exact same
  · obtain ⟨z, tail, same⟩ := List.exists_cons_of_ne_nil (show rest ++ [base] ≠ [] by simp)
    have path := list.path
    rw [List.append_assoc, same] at path ⊢
    refine path.splice (middle z tail same) (fun a member => by rw [first a member]) fun a member => ?_
    have inside : a ∈ rest := by
      rw [← same, List.dropLast_concat] at member
      exact member
    rw [last a inside]
  · have whole := list.sorted
    rw [List.append_assoc, List.pairwise_append] at whole
    rw [List.append_assoc, List.pairwise_append]
    refine ⟨?_, sorted, fun a one b two => ?_⟩
    · exact whole.1.imp_of_mem fun {a b} one _ order => by rw [first a one]; exact order
    · have before := whole.2.2 a one p (by simp)
      have behind := ahead b two
      rw [first a one]
      omega
  · simp only [List.append_assoc, List.cons_append, List.mem_append, List.mem_cons] at member
    rcases member with before | rfl | inside | behind
    · rw [first a before]
      exact list.sizes a (by simp [before])
    · exact own
    · have positive := full a inside
      have order := (List.pairwise_cons.mp (show (p :: (mid ++ rest)).Pairwise _ from sorted)).1 a
        (List.mem_append_left _ inside)
      exact ⟨fun zero => absurd zero positive, fun same => by omega⟩
    · rw [last a behind]
      exact list.sizes a (by simp [behind])

/-- The test of the loop of `free`. -/
def isPlace (hdr : ℕ → Header) (bp p : ℕ) : Bool :=
  decide (p < bp ∧ bp < (hdr p).ptr) || decide ((hdr p).ptr ≤ p ∧ (p < bp ∨ bp < (hdr p).ptr))

theorem findPlace_eq (s : Heap) (bp fuel a : ℕ) :
    s.findPlace bp fuel a = walk (fun a => (s.hdr a).ptr) (isPlace s.hdr bp) fuel a := by
  induction fuel generalizing a with
  | zero => rfl
  | succ fuel ih =>
    rw [Heap.findPlace, walk, isPlace, ih]
    split_ifs with one two three four five
    · rfl
    · simp [one] at two
    · rfl
    · simp [three] at four
    · simp [one, three] at five
    · rfl

/-- The last element with a property. -/
private theorem last_split {P : ℕ → Prop} {l : List ℕ} (some : ∃ a ∈ l, P a) : ∃ xs p ys, l = xs ++ p :: ys ∧ P p ∧
    ∀ y ∈ ys, ¬ P y := by
  induction l with
  | nil =>
    obtain ⟨a, member, _⟩ := some
    exact absurd member List.not_mem_nil
  | cons a l ih =>
    by_cases later : ∃ b ∈ l, P b
    · obtain ⟨xs, p, ys, rfl, hit, others⟩ := ih later
      exact ⟨a :: xs, p, ys, rfl, hit, others⟩
    · push Not at later
      obtain ⟨b, member, hit⟩ := some
      rcases List.mem_cons.mp member with rfl | inside
      · exact ⟨[], b, l, rfl, hit, later⟩
      · exact absurd hit (later b inside)

/-- A block of units that overlaps no free block, above the base. -/
structure Outside (base : ℕ) (hdr : ℕ → Header) (nodes : List ℕ) (bp n : ℕ) : Prop where
  above : base < bp
  some : 0 < n
  apart : ∀ a ∈ nodes, a + (hdr a).size ≤ bp ∨ bp + n ≤ a

/-- The loop of `free` ends at the last free block below. -/
theorem FreeList.find (list : FreeList base s.hdr nodes) (outside : Outside base s.hdr nodes bp n) {f fuel : ℕ}
    (member : f ∈ nodes)
    (enough : nodes.length ≤ fuel) : ∃ pre p back, nodes = pre ++ p :: back ∧ s.findPlace bp fuel f = some p ∧
      p + (s.hdr p).size ≤ bp ∧ (∀ a ∈ back, bp + n ≤ a) := by
  have some := outside.some
  have above := outside.above
  have exists' : ∃ p ∈ nodes, isPlace s.hdr bp p = true := by
    obtain ⟨xs, p, ys, rfl, below, others⟩ := last_split (P := (· < bp)) ⟨base, list.base_mem, outside.above⟩
    refine ⟨p, by simp, ?_⟩
    have ptr := list.ptr_eq
    have low := list.base_le (a := p) (by simp)
    rw [isPlace, ptr, Bool.or_eq_true, decide_eq_true_eq, decide_eq_true_eq]
    cases ys with
    | nil => exact .inr ⟨low, .inl below⟩
    | cons y ys =>
      have behind := others y List.mem_cons_self
      have apart := outside.apart y (by simp)
      have full := list.sizes y (by simp)
      change (p < bp ∧ bp < y) ∨ _
      refine .inl ⟨below, ?_⟩
      have positive : y ≠ base := by omega
      have size : (s.hdr y).size ≠ 0 := fun zero => positive (full.mp zero)
      omega
  obtain ⟨l, rfl⟩ := list.cons
  obtain ⟨p, inside, hit, run⟩ := list.cycle.walk member exists' (show l.length < fuel from enough)
  obtain ⟨pre, back, split⟩ := List.append_of_mem inside
  rw [split] at list outside
  have ptr := list.ptr_eq
  have sorted := list.sorted
  rw [List.pairwise_append, List.pairwise_cons] at sorted
  have low := list.base_le (a := p) (by simp)
  rw [isPlace, ptr, Bool.or_eq_true, decide_eq_true_eq, decide_eq_true_eq] at hit
  -- the block is above this one and below those behind it
  have between : p < bp ∧ ∀ a ∈ back, bp < a := by
    cases back with
    | nil =>
      refine ⟨?_, fun a member => absurd member List.not_mem_nil⟩
      change (p < bp ∧ bp < base) ∨ (base ≤ p ∧ (p < bp ∨ bp < base)) at hit
      omega
    | cons y ys =>
      have next := sorted.2.1.1 y List.mem_cons_self
      change (p < bp ∧ bp < y) ∨ (y ≤ p ∧ (p < bp ∨ bp < y)) at hit
      have order := List.pairwise_cons.mp sorted.2.1.2
      refine ⟨by omega, fun a member => ?_⟩
      rcases List.mem_cons.mp member with rfl | later
      · omega
      · have behind := order.1 a later
        omega
  refine ⟨pre, p, back, split, by rw [findPlace_eq]; exact run, ?_, fun a member => ?_⟩
  · have apart := outside.apart p (by simp)
    omega
  · have apart := outside.apart a (by simp [member])
    have behind := between.2 a member
    omega

/-- The header of the block after it has been joined with the one behind it, if they touch. -/
def joined (hdr : ℕ → Header) (bp p : ℕ) : Header :=
  if bp + (hdr bp).size = (hdr p).ptr then ⟨(hdr (hdr p).ptr).ptr, (hdr bp).size + (hdr (hdr p).ptr).size⟩
  else ⟨(hdr p).ptr, (hdr bp).size⟩

/-- The headers after `link`. -/
private theorem link_hdr (apart : p ≠ bp) : (s.link bp p).hdr = Function.update (Function.update s.hdr bp (joined s.hdr bp p)) p
    (if p + (s.hdr p).size = bp then ⟨(joined s.hdr bp p).ptr, (s.hdr p).size + (joined s.hdr bp p).size⟩
    else ⟨bp, (s.hdr p).size⟩) := by
  have first : (if bp + (s.hdr bp).size = (s.hdr p).ptr then
      (s.setSize bp ((s.hdr bp).size + (s.hdr (s.hdr p).ptr).size)).setPtr bp (s.hdr (s.hdr p).ptr).ptr
      else s.setPtr bp (s.hdr p).ptr).hdr = Function.update s.hdr bp (joined s.hdr bp p) := by
    rw [joined]
    split_ifs
    · simp [Heap.setSize, Heap.setPtr]
    · simp [Heap.setPtr]
  rw [Heap.link]
  generalize (if bp + (s.hdr bp).size = (s.hdr p).ptr then
    (s.setSize bp ((s.hdr bp).size + (s.hdr (s.hdr p).ptr).size)).setPtr bp (s.hdr (s.hdr p).ptr).ptr
    else s.setPtr bp (s.hdr p).ptr) = t at first ⊢
  have here : t.hdr p = s.hdr p := by rw [first, Function.update_of_ne apart]
  have there : t.hdr bp = joined s.hdr bp p := by rw [first, Function.update_self]
  dsimp only
  rw [here, there, ← first]
  split_ifs
  · simp [Heap.setSize, Heap.setPtr, here]
  · simp [Heap.setPtr, here]

theorem link_rest (s : Heap) (bp p : ℕ) : (s.link bp p).freep = some p ∧ (s.link bp p).brk = s.brk ∧
    (s.link bp p).used = s.used ∧ (s.link bp p).core = s.core := by
  rw [Heap.link]
  split_ifs <;> exact ⟨rfl, rfl, rfl, rfl⟩

/-- The free blocks that are joined with the block, and those behind them. -/
theorem FreeList.join (list : FreeList base hdr (pre ++ p :: back)) (behind : ∀ a ∈ back, bp + (hdr bp).size ≤ a)
    (above : base < bp) :
    ∃ old rest, back = old ++ rest ∧ (joined hdr bp p).ptr = (rest ++ [base]).head (by simp) ∧
      (∀ a ∈ rest, bp + (joined hdr bp p).size < a) ∧ (hdr bp).size ≤ (joined hdr bp p).size ∧
      {u | bp ≤ u ∧ u < bp + (joined hdr bp p).size} = {u | bp ≤ u ∧ u < bp + (hdr bp).size} ∪ unitsOf hdr old := by
  have ptr := list.ptr_eq
  have sorted := list.sorted
  rw [List.pairwise_append, List.pairwise_cons] at sorted
  have order := sorted.2.1.2
  rw [joined]
  split_ifs with touch
  · cases back with
    | nil =>
      change (hdr p).ptr = base at ptr
      omega
    | cons q rest =>
      change (hdr p).ptr = q at ptr
      rw [ptr] at touch ⊢
      rw [List.pairwise_cons] at order
      have next : (hdr q).ptr = (rest ++ [base]).head (by simp) := by
        have list' := list
        rw [show pre ++ p :: q :: rest = (pre ++ [p]) ++ q :: rest by simp] at list'
        exact list'.ptr_eq
      refine ⟨[q], rest, rfl, next, fun a member => ?_, Nat.le_add_right _ _, ?_⟩
      · have far := order.1 a member
        dsimp only
        omega
      · ext u
        simp only [Set.mem_ofPred_eq, Set.mem_union, unitsOf, List.mem_singleton, exists_eq_left]
        omega
  · refine ⟨[], back, rfl, ptr, fun a member => ?_, Nat.le_refl _, ?_⟩
    · have low := behind a member
      cases back with
      | nil => exact absurd member List.not_mem_nil
      | cons q rest =>
        change (hdr p).ptr = q at ptr
        rw [ptr] at touch
        rw [List.pairwise_cons] at order
        have head := behind q List.mem_cons_self
        dsimp only
        rcases List.mem_cons.mp member with rfl | later
        · omega
        · have far := order.1 a later
          omega
    · ext u
      simp [unitsOf]

/-- A block that is linked in between `p` and `rest`, with the nodes `old` that it is joined to. -/
private structure Linking (base bp p : ℕ) (s : Heap) (pre old rest : List ℕ) : Prop where
  list : FreeList base s.hdr (pre ++ p :: old ++ rest)
  here : p + (s.hdr p).size ≤ bp
  below : p ≠ bp
  some : 0 < (joined s.hdr bp p).size
  next : (joined s.hdr bp p).ptr = (rest ++ [base]).head (by simp)
  far : ∀ a ∈ rest, bp + (joined s.hdr bp p).size < a
  units : {u | bp ≤ u ∧ u < bp + (joined s.hdr bp p).size} = {u | bp ≤ u ∧ u < bp + (s.hdr bp).size} ∪ unitsOf s.hdr old
  keptPre : ∀ a ∈ pre, (s.link bp p).hdr a = s.hdr a
  keptRest : ∀ a ∈ rest, (s.link bp p).hdr a = s.hdr a

private theorem link_other {a : ℕ} (below : p ≠ bp) (one : a ≠ p) (two : a ≠ bp) : (s.link bp p).hdr a = s.hdr a := by
  rw [link_hdr below, Function.update_of_ne one, Function.update_of_ne two]

private theorem FreeList.linking (list : FreeList base s.hdr (pre ++ p :: back)) (here : p + (s.hdr p).size ≤ bp)
    (behind : ∀ a ∈ back, bp + (s.hdr bp).size ≤ a) (some : 0 < (s.hdr bp).size) (above : base < bp) :
    ∃ old rest, back = old ++ rest ∧ Linking base bp p s pre old rest := by
  have sorted := list.sorted
  rw [List.pairwise_append, List.pairwise_cons] at sorted
  have size : (s.hdr p).size = 0 ↔ p = base := list.sizes p (by simp)
  have below : p ≠ bp := by
    rintro rfl
    omega
  obtain ⟨old, rest, rfl, next, far, grown, units⟩ := list.join behind above
  rw [show pre ++ p :: (old ++ rest) = pre ++ p :: old ++ rest by simp] at list
  refine ⟨old, rest, rfl, list, here, below, Nat.lt_of_lt_of_le some grown, next, far, units, fun a member => ?_,
    fun a member => ?_⟩
  · have order := sorted.2.2 a member p List.mem_cons_self
    exact link_other below (by omega) (by omega)
  · have order := sorted.2.1.1 a (List.mem_append_right _ member)
    have behind' := behind a (List.mem_append_right _ member)
    exact link_other below (by omega) (by omega)

private theorem Linking.ordered {old rest : List ℕ} (linking : Linking base bp p s pre old rest) :
    rest.Pairwise fun a b => a + ((s.link bp p).hdr a).size < b :=
  (List.pairwise_append.mp linking.list.sorted).2.1.imp_of_mem fun {a b} one _ order => by
    rw [linking.keptRest a one]
    exact order

/-- A block that begins where `p` ends makes `p` longer. -/
private theorem Linking.touching {old rest : List ℕ} (linking : Linking base bp p s pre old rest)
    (touch : p + (s.hdr p).size = bp) :
    FreeList base (s.link bp p).hdr (pre ++ p :: rest) ∧
      unitsOf (s.link bp p).hdr (pre ++ p :: rest) =
        unitsOf s.hdr (pre ++ p :: old ++ rest) ∪ {u | bp ≤ u ∧ u < bp + (s.hdr bp).size} := by
  have some := linking.some
  have its : (s.link bp p).hdr p = ⟨(joined s.hdr bp p).ptr, (s.hdr p).size + (joined s.hdr bp p).size⟩ := by
    rw [link_hdr linking.below, Function.update_self, if_pos touch]
  have nodes : pre ++ p :: rest = pre ++ p :: [] ++ rest := by simp
  rw [nodes]
  refine ⟨linking.list.replace [] linking.keptPre linking.keptRest ?_ ?_ ?_ ?_, ?_⟩
  · intro z more same
    simp only [List.nil_append, List.cons_append, Trail, List.isChain_cons_cons, List.isChain_singleton, and_true]
    rw [its, linking.next]
    simp [same]
  · rw [List.cons_append, List.nil_append, List.pairwise_cons]
    refine ⟨fun a member => ?_, linking.ordered⟩
    have order := linking.far a member
    rw [its]
    dsimp only
    omega
  · rw [its]
    dsimp only
    have low := linking.list.base_le (a := p) (by simp)
    have below := linking.below
    have size : (s.hdr p).size = 0 ↔ p = base := linking.list.sizes p (by simp)
    omega
  · exact fun a member => absurd member List.not_mem_nil
  · have own : unitsOf (s.link bp p).hdr [p] = unitsOf s.hdr [p] ∪ {u | bp ≤ u ∧ u < bp + (joined s.hdr bp p).size} := by
      ext u
      simp only [unitsOf, List.mem_singleton, exists_eq_left, Set.mem_ofPred_eq, Set.mem_union]
      rw [its]
      dsimp only
      omega
    rw [show pre ++ p :: [] ++ rest = pre ++ [p] ++ rest by simp, unitsOf_append, unitsOf_append,
      unitsOf_congr linking.keptPre, unitsOf_congr linking.keptRest, own, linking.units,
      show pre ++ p :: old ++ rest = pre ++ [p] ++ old ++ rest by simp, unitsOf_append, unitsOf_append, unitsOf_append]
    ext u
    simp only [Set.mem_union]
    tauto

/-- A block that begins behind the end of `p` is a node of its own. -/
private theorem Linking.apart {old rest : List ℕ} (linking : Linking base bp p s pre old rest)
    (apart : p + (s.hdr p).size ≠ bp) :
    FreeList base (s.link bp p).hdr (pre ++ p :: [bp] ++ rest) ∧
      unitsOf (s.link bp p).hdr (pre ++ p :: [bp] ++ rest) =
        unitsOf s.hdr (pre ++ p :: old ++ rest) ∪ {u | bp ≤ u ∧ u < bp + (s.hdr bp).size} := by
  have below := linking.below
  have here := linking.here
  have some := linking.some
  have its : (s.link bp p).hdr p = ⟨bp, (s.hdr p).size⟩ := by
    rw [link_hdr below, Function.update_self, if_neg apart]
  have mine : (s.link bp p).hdr bp = joined s.hdr bp p := by
    rw [link_hdr below, Function.update_of_ne below.symm, Function.update_self]
  refine ⟨linking.list.replace [bp] linking.keptPre linking.keptRest ?_ ?_ ?_ ?_, ?_⟩
  · intro z more same
    simp only [List.cons_append, List.nil_append, Trail, List.isChain_cons_cons, List.isChain_singleton, and_true]
    rw [its, mine, linking.next]
    exact ⟨rfl, by simp [same]⟩
  · rw [List.cons_append, List.cons_append, List.nil_append, List.pairwise_cons, List.pairwise_cons]
    refine ⟨fun a member => ?_, fun a member => ?_, linking.ordered⟩
    · rw [its]
      dsimp only
      rcases List.mem_cons.mp member with rfl | later
      · omega
      · have order := linking.far a later
        omega
    · rw [mine]
      exact linking.far a member
  · rw [its]
    exact linking.list.sizes p (by simp)
  · intro a member
    rw [List.mem_singleton.mp member, mine]
    omega
  · have own : unitsOf (s.link bp p).hdr [p] = unitsOf s.hdr [p] := by
      ext u
      simp only [unitsOf, List.mem_singleton, exists_eq_left, Set.mem_ofPred_eq]
      rw [its]
    have new : unitsOf (s.link bp p).hdr [bp] = {u | bp ≤ u ∧ u < bp + (joined s.hdr bp p).size} := by
      ext u
      simp only [unitsOf, List.mem_singleton, exists_eq_left, Set.mem_ofPred_eq]
      rw [mine]
    rw [show pre ++ p :: [bp] ++ rest = pre ++ [p] ++ [bp] ++ rest by simp, unitsOf_append, unitsOf_append,
      unitsOf_append, unitsOf_congr linking.keptPre, unitsOf_congr linking.keptRest, own, new, linking.units,
      show pre ++ p :: old ++ rest = pre ++ [p] ++ old ++ rest by simp, unitsOf_append, unitsOf_append, unitsOf_append]
    ext u
    simp only [Set.mem_union]
    tauto

/-- A block that is linked in adds its units to the free ones. -/
theorem FreeList.link (list : FreeList base s.hdr (pre ++ p :: back)) (here : p + (s.hdr p).size ≤ bp)
    (behind : ∀ a ∈ back, bp + (s.hdr bp).size ≤ a) (some : 0 < (s.hdr bp).size) (above : base < bp) :
    ∃ nodes', FreeList base (s.link bp p).hdr nodes' ∧ p ∈ nodes' ∧
      unitsOf (s.link bp p).hdr nodes' = unitsOf s.hdr (pre ++ p :: back) ∪ {u | bp ≤ u ∧ u < bp + (s.hdr bp).size} ∧
      ∀ a, a ≠ p → a ≠ bp → (s.link bp p).hdr a = s.hdr a := by
  obtain ⟨old, rest, rfl, linking⟩ := list.linking here behind some above
  have others := fun a one two => link_other (s := s) (a := a) linking.below one two
  rw [show pre ++ p :: (old ++ rest) = pre ++ p :: old ++ rest by simp]
  by_cases touch : p + (s.hdr p).size = bp
  · obtain ⟨list', units⟩ := linking.touching touch
    exact ⟨_, list', by simp, units, others⟩
  · obtain ⟨list', units⟩ := linking.apart touch
    exact ⟨_, list', by simp, units, others⟩

/-- What `carve` leaves of the free list, and the block that it takes. -/
structure Carved (base nunits prevp : ℕ) (s : Heap) (nodes : List ℕ) (t : Heap) (a : ℕ) (nodes' : List ℕ) : Prop where
  list : FreeList base t.hdr nodes'
  member : prevp ∈ nodes'
  freep : t.freep = some prevp
  taken : {u | a ≤ u ∧ u < a + nunits} ⊆ unitsOf s.hdr nodes
  left : unitsOf t.hdr nodes' = unitsOf s.hdr nodes \ {u | a ≤ u ∧ u < a + nunits}
  size : (t.hdr a).size = nunits
  above : base < a
  kept : ∀ x, x ∉ nodes → x ≠ a → t.hdr x = s.hdr x
  same : t.brk = s.brk ∧ t.core = s.core ∧ t.used = (a, nunits) :: s.used

/-- A free block and the one in front of it, among the others. -/
structure Around (hdr : ℕ → Header) (pre : List ℕ) (prevp p : ℕ) (rest : List ℕ) : Prop where
  before : ∀ a ∈ pre, a ≠ prevp ∧ a < p
  after : ∀ a ∈ rest, a ≠ prevp ∧ p + (hdr p).size < a
  step : prevp + (hdr prevp).size < p
  low : ∀ u ∈ unitsOf hdr pre ∪ unitsOf hdr [prevp], u < p
  high : ∀ u ∈ unitsOf hdr rest, p + (hdr p).size < u
  total : unitsOf hdr (pre ++ prevp :: p :: rest) =
    unitsOf hdr pre ∪ unitsOf hdr [prevp] ∪ {u | p ≤ u ∧ u < p + (hdr p).size} ∪ unitsOf hdr rest

private theorem FreeList.around (list : FreeList base hdr (pre ++ prevp :: p :: rest)) : Around hdr pre prevp p rest := by
  have sorted := list.sorted
  rw [List.pairwise_append, List.pairwise_cons, List.pairwise_cons] at sorted
  have step := sorted.2.1.1 p List.mem_cons_self
  have after : ∀ a ∈ rest, a ≠ prevp ∧ p + (hdr p).size < a := by
    intro a inside
    have order := sorted.2.1.2.1 a inside
    omega
  refine ⟨fun a inside => ?_, after, step, ?_, ?_, ?_⟩
  · have order := sorted.2.2 a inside prevp List.mem_cons_self
    omega
  · rintro u (⟨a, inside, _, high⟩ | ⟨a, inside, _, high⟩)
    · have order := sorted.2.2 a inside p (List.mem_cons_of_mem _ List.mem_cons_self)
      omega
    · rw [List.mem_singleton.mp inside] at high
      omega
  · rintro u ⟨a, inside, low, _⟩
    have order := (after a inside).2
    omega
  · have own : unitsOf hdr [p] = {u | p ≤ u ∧ u < p + (hdr p).size} := by
      ext u
      simp only [unitsOf, List.mem_singleton, exists_eq_left, Set.mem_ofPred_eq]
    rw [show pre ++ prevp :: p :: rest = pre ++ [prevp] ++ [p] ++ rest by simp, unitsOf_append, unitsOf_append,
      unitsOf_append, own]

/-- The whole block goes. -/
private theorem FreeList.carve_whole (list : FreeList base s.hdr (pre ++ prevp :: p :: rest)) (exact' : (s.hdr p).size = nunits) :
    ∃ nodes', Carved base nunits prevp s (pre ++ prevp :: p :: rest) (s.carve nunits prevp p).1
    (s.carve nunits prevp p).2 nodes' := by
  have around := list.around
  have sorted := list.sorted
  rw [List.pairwise_append, List.pairwise_cons, List.pairwise_cons] at sorted
  have member : prevp ∈ pre ++ prevp :: p :: rest := by simp
  have low := list.base_le member
  have step := around.step
  have different : prevp ≠ p := by omega
  rw [Heap.carve, if_pos exact']
  have hdr : ((s.setPtr prevp (s.hdr p).ptr).hdr) = Function.update s.hdr prevp { s.hdr prevp with
    ptr := (s.hdr p).ptr } := rfl
  have others : ∀ a, a ≠ prevp → (s.setPtr prevp (s.hdr p).ptr).hdr a = s.hdr a := fun a other => by
    rw [hdr, Function.update_of_ne other]
  have own : (s.setPtr prevp (s.hdr p).ptr).hdr prevp = { s.hdr prevp with ptr := (s.hdr p).ptr } := by
    rw [hdr, Function.update_self]
  have keptPre := fun a (inside : a ∈ pre) => others a (around.before a inside).1
  have keptRest := fun a (inside : a ∈ rest) => others a (around.after a inside).1
  rw [show pre ++ prevp :: p :: rest = pre ++ prevp :: [p] ++ rest by simp] at list
  have shorter := list.replace [] keptPre keptRest (fun z more same => ?_) ?_ ?_ fun a inside =>
    absurd inside List.not_mem_nil
  · refine ⟨_, shorter, by simp, rfl, ?_, ?_, ?_, ?_, fun x outside other => ?_, rfl, rfl, rfl⟩
    · rw [around.total]
      rintro u ⟨one, two⟩
      exact .inl (.inr ⟨one, by dsimp only at two; omega⟩)
    · rw [around.total, show pre ++ prevp :: [] ++ rest = pre ++ [prevp] ++ rest by simp]
      change unitsOf (s.setPtr prevp (s.hdr p).ptr).hdr (pre ++ [prevp] ++ rest) = _
      have single : unitsOf (s.setPtr prevp (s.hdr p).ptr).hdr [prevp] = unitsOf s.hdr [prevp] := by
        ext u
        simp only [unitsOf, List.mem_singleton, exists_eq_left, Set.mem_ofPred_eq]
        rw [own]
      rw [unitsOf_append, unitsOf_append, unitsOf_congr keptPre, unitsOf_congr keptRest, single]
      dsimp only
      rw [← exact']
      ext u
      constructor
      · rintro (left | right)
        · exact ⟨.inl (.inl left), fun inside => Nat.not_le_of_lt (around.low u left) inside.1⟩
        · exact ⟨.inr right, fun inside => Nat.not_lt_of_le (Nat.le_of_lt (around.high u right)) inside.2⟩
      · rintro ⟨(left | here) | right, outside⟩
        · exact .inl left
        · exact absurd here outside
        · exact .inr right
    · change ((s.setPtr prevp (s.hdr p).ptr).hdr p).size = nunits
      rw [others p different.symm]
      exact exact'
    · change base < p
      omega
    · apply others
      rintro rfl
      exact outside member
  · simp only [List.nil_append, List.cons_append, Trail, List.isChain_cons_cons, List.isChain_singleton, and_true]
    rw [own]
    have list' := list
    rw [show pre ++ prevp :: [p] ++ rest = (pre ++ [prevp]) ++ p :: rest by simp] at list'
    have ptr' := list'.ptr_eq
    dsimp only
    rw [ptr']
    simp [same]
  · rw [List.cons_append, List.nil_append, List.pairwise_cons]
    refine ⟨fun a inside => ?_, sorted.2.1.2.2.imp_of_mem fun {a b} one _ order => by rw [keptRest a one]; exact order⟩
    have order := sorted.2.1.1 a (List.mem_cons_of_mem _ inside)
    rw [own]
    exact order
  · rw [own]
    exact list.sizes prevp (by simp)

/-- The end of the block goes. -/
private theorem FreeList.carve_end (list : FreeList base s.hdr (pre ++ prevp :: p :: rest)) (larger : nunits < (s.hdr p).size)
    (some : 0 < nunits) :
    ∃ nodes', Carved base nunits prevp s (pre ++ prevp :: p :: rest) (s.carve nunits prevp p).1
    (s.carve nunits prevp p).2 nodes' := by
  have around := list.around
  have sorted := list.sorted
  rw [List.pairwise_append, List.pairwise_cons, List.pairwise_cons] at sorted
  have mine : p ∈ pre ++ prevp :: p :: rest := by simp
  have low := list.base_le (a := prevp) (by simp)
  have step := around.step
  have different : prevp ≠ p := by omega
  rw [Heap.carve, if_neg (Nat.ne_of_gt larger)]
  have shorter : 0 < (s.hdr p).size - nunits := by omega
  generalize cut : (s.hdr p).size - nunits = rest' at shorter
  have hdr : ((s.setSize p rest').setSize (p + rest') nunits).hdr =
      Function.update (Function.update s.hdr p { s.hdr p with size := rest' }) (p + rest')
        { (Function.update s.hdr p { s.hdr p with size := rest' }) (p + rest') with size := nunits } := rfl
  have others : ∀ a, a ≠ p → a ≠ p + rest' → ((s.setSize p rest').setSize (p + rest') nunits).hdr a = s.hdr a :=
    fun a one two => by rw [hdr, Function.update_of_ne two, Function.update_of_ne one]
  have own : ((s.setSize p rest').setSize (p + rest') nunits).hdr p = { s.hdr p with size := rest' } := by
    rw [hdr, Function.update_of_ne (by omega), Function.update_self]
  have keptPre : ∀ a ∈ pre ++ [prevp], ((s.setSize p rest').setSize (p + rest') nunits).hdr a = s.hdr a := by
    intro a inside
    rcases List.mem_append.mp inside with first | last
    · have order := (around.before a first).2
      exact others a (by omega) (by omega)
    · rw [List.mem_singleton.mp last]
      exact others prevp different (by omega)
  have keptRest : ∀ a ∈ rest, ((s.setSize p rest').setSize (p + rest') nunits).hdr a = s.hdr a := by
    intro a inside
    have order := (around.after a inside).2
    exact others a (by omega) (by omega)
  rw [show pre ++ prevp :: p :: rest = (pre ++ [prevp]) ++ p :: [] ++ rest by simp] at list
  have smaller := list.replace [] keptPre keptRest (fun z more same => ?_) ?_ ?_ fun a inside =>
    absurd inside List.not_mem_nil
  · refine ⟨_, smaller, by simp, rfl, ?_, ?_, ?_, ?_, fun x outside other => ?_, rfl, rfl, rfl⟩
    · rw [around.total]
      rintro u ⟨one, two⟩
      exact .inl (.inr ⟨by dsimp only at one; omega, by dsimp only at two; omega⟩)
    · rw [around.total, show pre ++ [prevp] ++ p :: [] ++ rest = pre ++ [prevp] ++ [p] ++ rest by simp]
      change unitsOf ((s.setSize p rest').setSize (p + rest') nunits).hdr (pre ++ [prevp] ++ [p] ++ rest) = _
      have single : unitsOf ((s.setSize p rest').setSize (p + rest') nunits).hdr [p] = {u | p ≤ u ∧ u < p + rest'} := by
        ext u
        simp only [unitsOf, List.mem_singleton, exists_eq_left, Set.mem_ofPred_eq]
        rw [own]
      rw [unitsOf_append, unitsOf_append, unitsOf_congr keptPre, unitsOf_congr keptRest, single, unitsOf_append]
      dsimp only
      ext u
      constructor
      · rintro ((left | here) | right)
        · exact ⟨.inl (.inl left), fun inside => by have far := around.low u left; have near := inside.1; omega⟩
        · exact ⟨.inl (.inr ⟨here.1, by have short := here.2; omega⟩), fun inside => Nat.not_le_of_lt here.2 inside.1⟩
        · exact ⟨.inr right, fun inside => by have far := around.high u right; have near := inside.2; omega⟩
      · rintro ⟨(left | here) | right, outside⟩
        · exact .inl (.inl left)
        · refine .inl (.inr ⟨here.1, ?_⟩)
          by_contra beyond
          exact outside ⟨Nat.le_of_not_lt beyond, by have short := here.2; omega⟩
        · exact .inr right
    · change (((s.setSize p rest').setSize (p + rest') nunits).hdr (p + rest')).size = nunits
      rw [hdr, Function.update_self]
    · change base < p + rest'
      omega
    · apply others x _ other
      rintro rfl
      exact outside mine
  · simp only [List.nil_append, List.cons_append, Trail, List.isChain_cons_cons, List.isChain_singleton, and_true]
    rw [own]
    have list' := list
    rw [show (pre ++ [prevp]) ++ p :: [] ++ rest = (pre ++ [prevp]) ++ p :: rest by simp] at list'
    have ptr' := list'.ptr_eq
    dsimp only
    rw [ptr']
    simp [same]
  · rw [List.cons_append, List.nil_append, List.pairwise_cons]
    refine ⟨fun a inside => ?_, sorted.2.1.2.2.imp_of_mem fun {a b} one _ order => by rw [keptRest a one]; exact order⟩
    have order := (around.after a inside).2
    rw [own]
    dsimp only
    omega
  · rw [own]
    dsimp only
    omega

theorem FreeList.carve (list : FreeList base s.hdr nodes) (member : prevp ∈ nodes) (next : (s.hdr prevp).ptr = p)
    (fits : nunits ≤ (s.hdr p).size) (some : 0 < nunits) :
    ∃ nodes', Carved base nunits prevp s nodes (s.carve nunits prevp p).1 (s.carve nunits prevp p).2 nodes' := by
  obtain ⟨pre, back, rfl⟩ := List.append_of_mem member
  have ptr := list.ptr_eq
  rw [next] at ptr
  obtain ⟨rest, rfl⟩ : ∃ rest, back = p :: rest := by
    cases back with
    | nil =>
      have zero := (list.sizes base list.base_mem).mpr rfl
      change p = base at ptr
      rw [← ptr] at zero
      omega
    | cons q rest =>
      change p = q at ptr
      exact ⟨rest, by rw [ptr]⟩
  rcases fits.eq_or_lt with exact' | larger
  · exact list.carve_whole exact'.symm
  · exact list.carve_end larger some

end Cs537.User
