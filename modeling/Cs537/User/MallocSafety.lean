import Cs537.User.FreeList
import Mathlib.Data.List.Pairwise
import Mathlib.Data.List.Perm.Subperm

/-! # The allocator gives out what nobody else has

Every unit of the memory that came from `sbrk` is in a block that the program has or in one free block, and
in no other; `malloc` and `free` come to an end, and change nothing in the blocks that the program has. A
`malloc` fails only if `sbrk` does.
-/

namespace Cs537.User

open Cs537.Lib

variable {base bp n p q z prevp nunits nbytes f fuel : ℕ} {hdr hdr' : ℕ →
  Header} {nodes r : List ℕ} {s t : Heap} {memory : Bool} {a : Action}

theorem FreeList.congr (list : FreeList base hdr nodes) (same : ∀ a ∈ nodes, hdr' a = hdr a) :
    FreeList base hdr' nodes := by
  refine ⟨list.first, list.path.congr fun a member => ?_, ?_, fun a member => ?_⟩
  · rw [List.dropLast_concat] at member
    rw [same a member]
  · exact list.sorted.imp_of_mem fun {a b} one _ order => by rw [same a one]; exact order
  · rw [same a member]
    exact list.sizes a member

/-- Free blocks do not touch, so free units in a row are in one block. -/
theorem FreeList.run (bp n : ℕ) (list : FreeList base hdr nodes)
    (free : ∀ u, bp ≤ u → u < bp + n → u ∈ unitsOf hdr nodes) (some : 0 < n) :
    ∃ a ∈ nodes, a ≤ bp ∧ bp + n ≤ a + (hdr a).size := by
  induction n with
  | zero => exact absurd some (Nat.lt_irrefl 0)
  | succ n ih =>
    rcases Nat.eq_zero_or_pos n with rfl | positive
    · obtain ⟨a, member, low, high⟩ := free bp (Nat.le_refl _) (by omega)
      exact ⟨a, member, low, by omega⟩
    · obtain ⟨a, member, low, high⟩ := ih (fun u one two => free u one (by omega)) positive
      obtain ⟨b, member', low', high'⟩ := free (bp + n) (by omega) (by omega)
      rcases eq_or_ne a b with rfl | other
      · exact ⟨a, member, low, by omega⟩
      -- two blocks of the list do not touch
      exfalso
      obtain ⟨pre, rest, rfl⟩ := List.append_of_mem member
      have sorted := list.sorted
      rw [List.pairwise_append, List.pairwise_cons] at sorted
      rcases List.mem_append.mp member' with before | here
      · have order := sorted.2.2 b before a List.mem_cons_self
        omega
      · rcases List.mem_cons.mp here with rfl | behind
        · exact other rfl
        · have order := sorted.2.1.1 b behind
          omega

/-- The loop from one node to `freep`: it takes a block off, or finds no block that is large enough and asks
for memory. -/
theorem search_path (memory : Bool) (nunits : ℕ) (freep : s.freep = some f) (inside : ∀ a ∈ prevp :: r, a ∈ nodes)
    (absent : f ∉ r)
    (path : Trail (fun a => (s.hdr a).ptr) (prevp :: r ++ [f])) (enough : r.length < fuel) :
    (∃ prev ∈ nodes, nunits ≤ (s.hdr (s.hdr prev).ptr).size ∧ s.search memory nunits fuel prevp (s.hdr prevp).ptr =
      some ((s.carve nunits prev (s.hdr prev).ptr).1, some (s.carve nunits prev (s.hdr prev).ptr).2)) ∨
    ((∀ a ∈ r ++ [f], (s.hdr a).size < nunits) ∧ s.search memory nunits fuel prevp (s.hdr prevp).ptr =
      if memory then (s.morecore nunits).bind fun s => s.freep.bind fun p =>
      s.search memory nunits (fuel - r.length - 1) p (s.hdr p).ptr
      else some (s, none)) := by
  induction r generalizing prevp fuel with
  | nil =>
    obtain ⟨fuel, rfl⟩ := Nat.exists_eq_succ_of_ne_zero (Nat.ne_zero_of_lt enough)
    have next : (s.hdr prevp).ptr = f := by
      rw [Trail, List.cons_append, List.nil_append, List.isChain_cons_cons] at path
      exact path.1
    rw [Heap.search, next]
    by_cases fits : nunits ≤ (s.hdr f).size
    · rw [if_pos fits]
      exact .inl ⟨prevp, inside prevp List.mem_cons_self, by rw [next]; exact fits, by rw [next]⟩
    · rw [if_neg fits, if_pos freep.symm]
      refine .inr ⟨fun a member => ?_, rfl⟩
      rw [List.nil_append, List.mem_singleton] at member
      rw [member]
      exact Nat.lt_of_not_le fits
  | cons b r ih =>
    obtain ⟨fuel, rfl⟩ := Nat.exists_eq_succ_of_ne_zero (Nat.ne_zero_of_lt enough)
    rw [Trail, List.cons_append, List.cons_append, List.isChain_cons_cons] at path
    obtain ⟨next, path⟩ := path
    rw [List.mem_cons, not_or] at absent
    have notLast : ¬ some b = s.freep := by
      rw [freep, Option.some.injEq]
      exact Ne.symm absent.1
    rw [Heap.search, next]
    by_cases fits : nunits ≤ (s.hdr b).size
    · rw [if_pos fits]
      exact .inl ⟨prevp, inside prevp List.mem_cons_self, by rw [next]; exact fits, by rw [next]⟩
    · rw [if_neg fits, if_neg notLast]
      rcases ih (fun a member => inside a (List.mem_cons_of_mem _ member)) absent.2 path
        (Nat.lt_of_succ_lt_succ enough) with
        found | ⟨small, asks⟩
      · exact .inl found
      · refine .inr ⟨fun a member => ?_, ?_⟩
        · rw [List.cons_append] at member
          rcases List.mem_cons.mp member with rfl | later
          · omega
          · exact small a later
        · rw [asks, List.length_cons, Nat.succ_sub_succ]

/-- The loop once around the list. -/
theorem search_round (memory : Bool) (nunits : ℕ) (list : FreeList base s.hdr nodes) (freep : s.freep = some f)
    (member : f ∈ nodes) (enough : nodes.length ≤ fuel) :
    (∃ prev ∈ nodes, nunits ≤ (s.hdr (s.hdr prev).ptr).size ∧ s.search memory nunits fuel f (s.hdr f).ptr =
      some ((s.carve nunits prev (s.hdr prev).ptr).1, some (s.carve nunits prev (s.hdr prev).ptr).2)) ∨
    ((∀ a ∈ nodes, (s.hdr a).size < nunits) ∧ s.search memory nunits fuel f (s.hdr f).ptr =
      if memory then (s.morecore nunits).bind fun s => s.freep.bind fun p =>
      s.search memory nunits (fuel - nodes.length) p (s.hdr p).ptr
      else some (s, none)) := by
  obtain ⟨l, rfl⟩ := list.cons
  obtain ⟨rest, cycle, perm⟩ := list.cycle.from_node member
  have distinct : (f :: rest).Nodup := by
    refine perm.nodup_iff.mpr (list.sorted.imp fun {a b} order => ?_)
    omega
  have lengths := perm.length_eq
  rw [List.length_cons] at lengths
  rcases search_path memory nunits freep (fun a inside => perm.mem_iff.mp inside)
    (List.nodup_cons.mp distinct).1 cycle (show _ < fuel by omega) with found | ⟨small, asks⟩
  · exact .inl found
  · refine .inr ⟨fun a inside => small a ?_, ?_⟩
    · have here := perm.mem_iff.mpr inside
      rcases List.mem_cons.mp here with rfl | later
      · exact List.mem_append_right _ (List.mem_singleton_self _)
      · exact List.mem_append_left _ later
    · rw [asks, Nat.sub_sub, lengths]

/-- Blocks that share no unit. -/
def Apart (b c : ℕ × ℕ) : Prop := b.1 + b.2 ≤ c.1 ∨ c.1 + c.2 ≤ b.1

instance : Std.Symm Apart := ⟨fun _ _ apart => apart.symm⟩

/-- After the first call: the free list, and the units of the program's blocks and of the free ones, which
are those that came from `sbrk`. -/
structure Ready (base : ℕ) (s : Heap) (nodes : List ℕ) : Prop where
  list : FreeList base s.hdr nodes
  member : ∃ f ∈ nodes, s.freep = some f
  bottom : base < s.brk
  whole : ∀ u, (u ∈ unitsOf s.hdr nodes ∨ ∃ b ∈ s.used, b.1 ≤ u ∧ u < b.1 + b.2) ↔ ∃ c ∈ s.core, c.1 ≤ u ∧ u < c.1 + c.2
  apart : s.used.Pairwise Apart
  free : ∀ b ∈ s.used, ∀ u ∈ unitsOf s.hdr nodes, u < b.1 ∨ b.1 + b.2 ≤ u
  header : ∀ b ∈ s.used, (s.hdr b.1).size = b.2 ∧ 0 < b.2 ∧ base < b.1
  core : ∀ c ∈ s.core, base < c.1 ∧ c.1 + c.2 ≤ s.brk

/-- A free block other than the base has its first unit. -/
theorem Ready.node (ready : Ready base s nodes) {x : ℕ} (member : x ∈ nodes) : x = base ∨ x ∈ unitsOf s.hdr nodes := by
  rcases eq_or_ne x base with same | other
  · exact .inl same
  · have size : (s.hdr x).size ≠ 0 := fun zero => other ((ready.list.sizes x member).mp zero)
    exact .inr ⟨x, member, Nat.le_refl _, by omega⟩

private theorem Ready.node_lt (ready : Ready base s nodes) {x : ℕ} (member : x ∈ nodes) : x < s.brk := by
  rcases ready.node member with rfl | free
  · exact ready.bottom
  · obtain ⟨c, inside, _, high⟩ := (ready.whole x).mp (.inl free)
    have top := (ready.core c inside).2
    omega

theorem Ready.length_le (ready : Ready base s nodes) : nodes.length ≤ s.brk := by
  have distinct : nodes.Nodup := ready.list.sorted.imp fun {a b} order => by omega
  have below : nodes ⊆ List.range s.brk := fun x member => List.mem_range.mpr (ready.node_lt member)
  have fewer := (List.subperm_of_subset distinct below).length_le
  rwa [List.length_range] at fewer

/-- A unit of a program's block is no free block and belongs to no other block. -/
theorem Ready.not_node (ready : Ready base s nodes) {b : ℕ × ℕ} {x : ℕ} (used : b ∈ s.used) (low : b.1 ≤ x)
    (high : x < b.1 + b.2) : x ∉ nodes := by
  intro member
  have above := (ready.header b used).2.2
  rcases ready.node member with rfl | free
  · omega
  · have outside := ready.free b used x free
    omega

private theorem Ready.same_block (ready : Ready base s nodes) {b c : ℕ × ℕ} {x : ℕ} (one : b ∈ s.used) (two : c ∈ s.used)
    (low : b.1 ≤ x)
    (high : x < b.1 + b.2) (low' : c.1 ≤ x) (high' : x < c.1 + c.2) : b = c := by
  by_contra other
  have apart : b.1 + b.2 ≤ c.1 ∨ c.1 + c.2 ≤ b.1 := ready.apart.forall one two other
  omega

/-- The units of the blocks to which the pointers lead from `freep`. -/
def IsFree (s : Heap) (u : ℕ) : Prop :=
  ∃ f, s.freep = some f ∧ ∃ n, (fun a => (s.hdr a).ptr)^[n] f ≤ u ∧
    u < (fun a => (s.hdr a).ptr)^[n] f + (s.hdr ((fun a => (s.hdr a).ptr)^[n] f)).size

theorem Ready.isFree_iff (ready : Ready base s nodes) {u : ℕ} : IsFree s u ↔ u ∈ unitsOf s.hdr nodes := by
  obtain ⟨f, member, freep⟩ := ready.member
  obtain ⟨l, rfl⟩ := ready.list.cons
  obtain ⟨rest, cycle, perm⟩ := ready.list.cycle.from_node member
  constructor
  · rintro ⟨g, same, n, range⟩
    rw [freep, Option.some.injEq] at same
    rw [← same] at range
    exact ⟨_, perm.mem_iff.mp (cycle.mem_iff.mpr ⟨n, rfl⟩), range⟩
  · rintro ⟨x, inside, range⟩
    obtain ⟨n, rfl⟩ := cycle.mem_iff.mp (perm.mem_iff.mpr inside)
    exact ⟨f, freep, n, range⟩

private theorem free_eq (s : Heap) (bp : ℕ) : s.free bp = s.freep.bind fun f =>
    (walk (fun a => (s.hdr a).ptr) (isPlace s.hdr bp) (s.brk + 1) f).map fun p => s.link bp p := by
  rw [Heap.free]
  cases s.freep with
  | none => rfl
  | some f =>
    simp only [Option.bind_eq_bind, Option.bind_some, findPlace_eq]
    rw [Option.map_eq_bind]
    rfl

/-- `free` of a block that the program has. -/
theorem Ready.free_spec (ready : Ready base s nodes) {b : ℕ × ℕ} (used : b ∈ s.used) :
    ∃ t nodes', s.free b.1 = some t ∧ Ready base { t with used := s.used.filter (·.1 ≠ b.1) } nodes' ∧ t.used = s.used ∧
      t.brk = s.brk ∧ t.core = s.core ∧
      unitsOf t.hdr nodes' = unitsOf s.hdr nodes ∪ {u | b.1 ≤ u ∧ u < b.1 + b.2} ∧
      ∀ c ∈ s.used, c.1 ≠ b.1 → ∀ x, c.1 ≤ x → x < c.1 + c.2 → t.hdr x = s.hdr x := by
  obtain ⟨size, some, above⟩ := ready.header b used
  obtain ⟨f, inside, freep⟩ := ready.member
  have outside : Outside base s.hdr nodes b.1 b.2 := by
    refine ⟨above, some, fun a member => ?_⟩
    rcases ready.node member with rfl | free
    · have zero := (ready.list.sizes a member).mpr rfl
      omega
    · by_contra overlap
      rw [not_or, Nat.not_le, Nat.not_le] at overlap
      -- a unit that both have
      have shared := ready.free b used (max a b.1) ⟨a, member, Nat.le_max_left _ _, by
        rcases Nat.le_total a b.1 with order | order
        · rw [Nat.max_eq_right order]
          exact overlap.1
        · rw [Nat.max_eq_left order]
          have own := ready.free b used a free
          omega⟩
      rcases Nat.le_total a b.1 with order | order
      · rw [Nat.max_eq_right order] at shared
        omega
      · rw [Nat.max_eq_left order] at shared
        omega
  obtain ⟨pre, p, back, rfl, run, here, behind⟩ :=
    ready.list.find outside inside (show _ ≤ s.brk + 1 by have bound := ready.length_le; omega)
  rw [← size] at behind
  obtain ⟨nodes', list, member, units, kept⟩ := ready.list.link here behind (by omega) above
  obtain ⟨freep', brk, used', core⟩ := link_rest s b.1 p
  rw [size] at units
  have frame : ∀ c ∈ s.used, c.1 ≠ b.1 → ∀ x, c.1 ≤ x → x < c.1 + c.2 → (s.link b.1 p).hdr x = s.hdr x := by
    intro c one different x low high
    apply kept
    · rintro rfl
      exact ready.not_node one low high (by simp)
    · rintro rfl
      have same := ready.same_block one used low high (Nat.le_refl _) (by omega)
      exact different (congrArg Prod.fst same)
  refine ⟨s.link b.1 p, nodes', ?_, ?_, used', brk, core, units, frame⟩
  · rw [Heap.free, freep]
    simp only [Option.bind_eq_bind, Option.bind_some]
    rw [run]
    rfl
  have others : ∀ c ∈ s.used.filter (·.1 ≠ b.1), c ∈ s.used ∧ c.1 ≠ b.1 := by
    intro c inside
    rw [List.mem_filter, decide_eq_true_eq] at inside
    exact inside
  refine ⟨list, ⟨p, member, freep'⟩, by change base < (s.link b.1 p).brk; rw [brk]; exact ready.bottom, fun u => ?_,
    ?_, ?_, ?_, ?_⟩
  · change (u ∈ unitsOf (s.link b.1 p).hdr nodes' ∨ ∃ c ∈ s.used.filter (·.1 ≠ b.1), c.1 ≤ u ∧ u < c.1 + c.2) ↔
      ∃ c ∈ (s.link b.1 p).core, c.1 ≤ u ∧ u < c.1 + c.2
    rw [core, ← ready.whole, units]
    constructor
    · rintro ((free | own) | ⟨c, kept', range⟩)
      · exact .inl free
      · exact .inr ⟨b, used, own⟩
      · exact .inr ⟨c, (others c kept').1, range⟩
    · rintro (free | ⟨c, one, range⟩)
      · exact .inl (.inl free)
      · by_cases same : c.1 = b.1
        · have equal := ready.same_block one used range.1 range.2 (by omega) (by
            have first := ready.same_block one used (x := b.1) (by omega)
              (by have positive := (ready.header c one).2.1; omega) (Nat.le_refl _) (by omega)
            rw [first] at range
            exact range.2)
          rw [equal] at range
          exact .inl (.inr range)
        · exact .inr ⟨c, List.mem_filter.mpr ⟨one, decide_eq_true same⟩, range⟩
  · exact ready.apart.filter _
  · intro c inside u free
    obtain ⟨one, different⟩ := others c inside
    change u ∈ unitsOf (s.link b.1 p).hdr nodes' at free
    rw [units] at free
    rcases free with free | own
    · exact ready.free c one u free
    · by_contra within
      rw [not_or, Nat.not_lt, Nat.not_le] at within
      exact different (congrArg Prod.fst (ready.same_block one used within.1 within.2 own.1 own.2))
  · intro c inside
    obtain ⟨one, different⟩ := others c inside
    have header := ready.header c one
    change ((s.link b.1 p).hdr c.1).size = c.2 ∧ 0 < c.2 ∧ base < c.1
    rw [frame c one different c.1 (Nat.le_refl _) (by omega)]
    exact header
  · intro c inside
    change c ∈ (s.link b.1 p).core at inside
    rw [core] at inside
    change base < c.1 ∧ c.1 + c.2 ≤ (s.link b.1 p).brk
    rw [brk]
    exact ready.core c inside

/-- The history does not matter to `free`. -/
private theorem link_used (s : Heap) (used : List (ℕ × ℕ)) (bp p : ℕ) : Heap.link
    { s with used := used } bp p = { s.link bp p with used := used } := by
  have hdr : (Heap.link { s with used := used } bp p).hdr = (s.link bp p).hdr := by
    simp only [Heap.link, Heap.setPtr, Heap.setSize, apply_ite Heap.hdr]
  obtain ⟨freep, brk, used', core⟩ := link_rest s bp p
  obtain ⟨freep', brk', used'', core'⟩ := link_rest { s with used := used } bp p
  exact (Heap.mk.injEq _ _ _ _ _ _ _ _ _ _).mpr ⟨hdr, freep'.trans freep.symm, brk'.trans brk.symm, used'',
    core'.trans core.symm⟩

private theorem free_used (s : Heap) (used : List (ℕ × ℕ)) (bp : ℕ) :
    Heap.free { s with used := used } bp = (s.free bp).map fun t => { t with used := used } := by
  rw [free_eq, free_eq]
  change (s.freep.bind fun f => (walk (fun a => (s.hdr a).ptr) (isPlace s.hdr bp) (s.brk + 1) f).map fun p =>
    Heap.link { s with used := used } bp p) = _
  simp only [link_used]
  cases s.freep with
  | none => rfl
  | some f => rw [Option.bind_some, Option.bind_some, Option.map_map]; rfl

/-- New memory, as a block that the program has, before it is freed. -/
theorem Ready.grow (ready : Ready base s nodes) (some : 0 < n) :
    Ready base { s.grow n with used := (s.brk, n) :: s.used } nodes ∧ ∀ x, x ≠ s.brk → (s.grow n).hdr x = s.hdr x := by
  have hdr : ∀ x, x ≠ s.brk → (s.grow n).hdr x = s.hdr x := fun x other => Function.update_of_ne other _ _
  have own : ((s.grow n).hdr s.brk).size = n := by
    change (Function.update s.hdr s.brk { s.hdr s.brk with size := n } s.brk).size = n
    rw [Function.update_self]
  have same : ∀ x ∈ nodes, (s.grow n).hdr x = s.hdr x := fun x member => hdr x (Nat.ne_of_lt (ready.node_lt member))
  have units : unitsOf (s.grow n).hdr nodes = unitsOf s.hdr nodes := unitsOf_congr same
  have below : ∀ u, (u ∈ unitsOf s.hdr nodes ∨ ∃ b ∈ s.used, b.1 ≤ u ∧ u < b.1 + b.2) → u < s.brk := by
    intro u inside
    obtain ⟨c, member, _, high⟩ := (ready.whole u).mp inside
    have top := (ready.core c member).2
    omega
  refine ⟨⟨ready.list.congr same, ready.member, Nat.lt_of_lt_of_le ready.bottom (Nat.le_add_right _ _), fun u => ?_,
    ?_, ?_, ?_, ?_⟩, hdr⟩
  · change (u ∈ unitsOf (s.grow n).hdr nodes ∨ ∃ b ∈ (s.brk, n) :: s.used, b.1 ≤ u ∧ u < b.1 + b.2) ↔
      ∃ c ∈ (s.brk, n) :: s.core, c.1 ≤ u ∧ u < c.1 + c.2
    have whole := ready.whole u
    rw [units]
    simp only [List.mem_cons, exists_eq_or_imp]
    rw [← whole]
    tauto
  · refine List.pairwise_cons.mpr ⟨fun b member => ?_, ready.apart⟩
    right
    have positive := (ready.header b member).2.1
    have last := below (b.1 + b.2 - 1) (.inr ⟨b, member, by omega, by omega⟩)
    change b.1 + b.2 ≤ s.brk
    omega
  · intro b member u free
    change u ∈ unitsOf (s.grow n).hdr nodes at free
    rw [units] at free
    rcases List.mem_cons.mp member with rfl | old
    · exact .inl (below u (.inl free))
    · exact ready.free b old u free
  · intro b member
    rcases List.mem_cons.mp member with rfl | old
    · exact ⟨own, some, ready.bottom⟩
    · have header := ready.header b old
      have first := below b.1 (.inr ⟨b, old, Nat.le_refl _, by omega⟩)
      change ((s.grow n).hdr b.1).size = b.2 ∧ _
      rw [hdr b.1 (Nat.ne_of_lt first)]
      exact header
  · intro c member
    change c ∈ (s.brk, n) :: s.core at member
    change base < c.1 ∧ c.1 + c.2 ≤ s.brk + n
    rcases List.mem_cons.mp member with rfl | old
    · exact ⟨ready.bottom, Nat.le_refl _⟩
    · have core := ready.core c old
      omega

/-- What the calls leave alone: the contents of the program's blocks. -/
def Kept (s t : Heap) : Prop := ∀ b ∈ s.used, ∀ x, b.1 ≤ x → x < b.1 + b.2 → t.hdr x = s.hdr x

theorem Ready.morecore (ready : Ready base s nodes) (nu : ℕ) :
    ∃ t nodes', s.morecore nu = some t ∧ Ready base t nodes' ∧ t.used = s.used ∧ t.brk = s.brk + max nu 4096 ∧
      (∃ a ∈ nodes', nu ≤ (t.hdr a).size) ∧ Kept s t := by
  have some' : 0 < max nu 4096 := by omega
  obtain ⟨grown, same⟩ := ready.grow (n := max nu 4096) some'
  have new : (s.brk, max nu 4096) ∈ (s.brk, max nu 4096) :: s.used := List.mem_cons_self
  obtain ⟨t, nodes', run, ready', _, brk, _, units, kept⟩ := grown.free_spec new
  have below : ∀ b ∈ s.used, b.1 ≠ s.brk := by
    intro b member
    have header := ready.header b member
    obtain ⟨c, inside, _, high⟩ := (ready.whole b.1).mp (.inr ⟨b, member, Nat.le_refl _, by omega⟩)
    have top := (ready.core c inside).2
    omega
  have left : ((s.brk, max nu 4096) :: s.used).filter (·.1 ≠ s.brk) = s.used := by
    rw [List.filter_cons_of_neg (by simp), List.filter_eq_self]
    exact fun b member => decide_eq_true (below b member)
  rw [free_used] at run
  obtain ⟨u, more, rfl⟩ := Option.map_eq_some_iff.mp run
  have used : u.used = s.used := by
    have linked := more
    rw [free_eq] at linked
    obtain ⟨f, _, found⟩ := Option.bind_eq_some_iff.mp linked
    obtain ⟨p, _, rfl⟩ := Option.map_eq_some_iff.mp found
    exact (link_rest _ _ _).2.2.1
  change Ready base { u with used := ((s.brk, max nu 4096) :: s.used).filter (·.1 ≠ s.brk) } nodes' at ready'
  rw [left, ← used] at ready'
  obtain ⟨a, member, low, high⟩ := ready'.list.run s.brk (max nu 4096) (fun x one two => by
    change x ∈ unitsOf u.hdr nodes'
    change unitsOf u.hdr nodes' = _ at units
    rw [units]
    exact .inr ⟨one, two⟩) some'
  refine ⟨u, nodes', more, ready', used, brk, ⟨a, member, ?_⟩, fun b inside x one two => ?_⟩
  · have bound : nu ≤ max nu 4096 := Nat.le_max_left _ _
    change s.brk + max nu 4096 ≤ a + (u.hdr a).size at high
    omega
  · have whole := kept b (List.mem_cons_of_mem _ inside) (below b inside) x one two
    change u.hdr x = (s.grow (max nu 4096)).hdr x at whole
    rw [whole]
    apply same
    rintro rfl
    have positive := (ready.header b inside)
    obtain ⟨c, there, _, high⟩ := (ready.whole s.brk).mp (.inr ⟨b, inside, one, two⟩)
    have top := (ready.core c there).2
    omega

/-- A block that was taken off belongs to the program. -/
theorem Ready.carved (ready : Ready base s nodes) {a : ℕ} {nodes' : List ℕ}
    (carved : Carved base nunits prevp s nodes t a nodes') (some : 0 < nunits) :
    Ready base t nodes' ∧ Kept s t ∧ ∀ b ∈ s.used, Apart (a, nunits) b := by
  obtain ⟨brk, core, used⟩ := carved.same
  have apart : ∀ b ∈ s.used, Apart (a, nunits) b := by
    intro b member
    have positive := (ready.header b member).2.1
    by_contra overlap
    rw [Apart, not_or, Nat.not_le, Nat.not_le] at overlap
    dsimp only at overlap
    -- the later of the two first units is in both
    rcases Nat.le_total a b.1 with order | order
    · have shared := ready.free b member b.1 (carved.taken ⟨order, overlap.1⟩)
      omega
    · have shared := ready.free b member a (carved.taken ⟨Nat.le_refl _, by omega⟩)
      omega
  have kept : Kept s t := by
    intro b member x low high
    apply carved.kept x (ready.not_node member low high)
    rintro rfl
    have away := apart b member
    rw [Apart] at away
    dsimp only at away
    omega
  refine ⟨⟨carved.list, ⟨prevp, carved.member, carved.freep⟩, by rw [brk]; exact ready.bottom, fun u => ?_, ?_, ?_,
    ?_, ?_⟩, kept, apart⟩
  · rw [used, core, ← ready.whole, carved.left]
    simp only [List.mem_cons, exists_eq_or_imp]
    constructor
    · rintro (⟨free, _⟩ | new | old)
      · exact .inl free
      · exact .inl (carved.taken new)
      · exact .inr old
    · rintro (free | old)
      · by_cases new : a ≤ u ∧ u < a + nunits
        · exact .inr (.inl new)
        · exact .inl ⟨free, new⟩
      · exact .inr (.inr old)
  · rw [used]
    exact List.pairwise_cons.mpr ⟨apart, ready.apart⟩
  · intro b member u free
    rw [used] at member
    rw [carved.left] at free
    rcases List.mem_cons.mp member with rfl | old
    · have outside : ¬ (a ≤ u ∧ u < a + nunits) := free.2
      dsimp only
      omega
    · exact ready.free b old u free.1
  · intro b member
    rw [used] at member
    rcases List.mem_cons.mp member with rfl | old
    · exact ⟨carved.size, some, carved.above⟩
    · have header := ready.header b old
      rw [kept b old b.1 (Nat.le_refl _) (by omega)]
      exact header
  · rw [core, brk]
    exact ready.core

/-- What `malloc` comes to: a block that shares no unit with any other, or nothing if `sbrk` fails. -/
def Outcome (base nunits : ℕ) (memory : Bool) (s t : Heap) (r : Option ℕ) : Prop :=
  (∃ nodes', Ready base t nodes') ∧ Kept s t ∧ match r with
    | some a => t.used = (a, nunits) :: s.used ∧ ∀ b ∈ s.used, Apart (a, nunits) b
    | none => memory = false ∧ t.used = s.used ∧ ∀ x, ∃ u, x ≤ u ∧ u < x + nunits ∧ ¬ IsFree s u

theorem Ready.search (memory : Bool) (ready : Ready base s nodes) (freep : s.freep = some f) (some' : 0 < nunits)
    (enough : 2 * (s.brk + max nunits 4096) + 4 ≤ fuel) :
    ∃ t r, s.search memory nunits fuel f (s.hdr f).ptr = some (t, r) ∧ Outcome base nunits memory s t r := by
  have member : f ∈ nodes := by
    obtain ⟨g, inside, same⟩ := ready.member
    rw [freep, Option.some.injEq] at same
    rw [same]
    exact inside
  have bound := ready.length_le
  rcases search_round memory nunits ready.list freep member (show _ ≤ fuel by omega) with
    ⟨prev, inside, fits, run⟩ | ⟨small, run⟩
  · obtain ⟨nodes', carved⟩ := ready.list.carve inside rfl fits some'
    obtain ⟨ready', kept, apart⟩ := ready.carved carved some'
    exact ⟨_, _, run, ⟨nodes', ready'⟩, kept, carved.same.2.2, apart⟩
  · cases memory with
    | false =>
      refine ⟨s, none, run, ⟨nodes, ready⟩, fun _ _ _ _ _ => rfl, rfl, rfl, fun x => ?_⟩
      by_contra free
      push Not at free
      obtain ⟨a, node, low, high⟩ := ready.list.run x _ (fun u one two => ready.isFree_iff.mp (free u one two)) some'
      have size := small a node
      omega
    | true =>
      obtain ⟨t, nodes', more, ready', used, brk, large, kept⟩ := ready.morecore nunits
      obtain ⟨g, inside', freep'⟩ := ready'.member
      have bound' := ready'.length_le
      rw [run, if_pos rfl, more, Option.bind_some, freep', Option.bind_some]
      -- the block that came from the new memory is large enough
      rcases search_round true nunits ready'.list freep' inside' (show _ ≤ fuel - nodes.length by omega) with
        ⟨prev, inside, fits, run'⟩ | ⟨small, _⟩
      · obtain ⟨nodes'', carved⟩ := ready'.list.carve inside rfl fits some'
        obtain ⟨ready'', kept', apart⟩ := ready'.carved carved some'
        refine ⟨_, _, run', ⟨nodes'', ready''⟩, fun b old x low high => ?_, ?_, ?_⟩
        · rw [kept' b (by rw [used]; exact old) x low high]
          exact kept b old x low high
        · rw [← used]
          exact carved.same.2.2
        · rw [← used]
          exact apart
      · obtain ⟨a, node, fits⟩ := large
        exact absurd (small a node) (Nat.not_lt.mpr fits)

private theorem units_pos (nbytes : ℕ) : 0 < Heap.units nbytes := Nat.succ_pos _

private theorem units_enough (few : nbytes < 2 ^ 31 - 16) : nbytes ≤ 8 * (Heap.units nbytes - 1) := by
  rw [Heap.units, Nat.add_sub_cancel]
  omega

/-- Before its first call, a program has no blocks. -/
def Inv (base : ℕ) (s : Heap) : Prop := (base < s.brk ∧ s.freep = none ∧ s.used = [] ∧ s.core = []) ∨
    ∃ nodes, Ready base s nodes

/-- The empty list of the first call. -/
theorem Ready.first (bottom : base < s.brk) (freep : s.freep = none) (used : s.used = []) (core : s.core = []) :
    Ready base (s.start base) [base] ∧ (s.start base).used = [] ∧ (s.start base).brk = s.brk := by
  have started : s.start base = { (s.setPtr base base).setSize base 0 with freep := some base } := by
    rw [Heap.start, freep]
  have own : (s.start base).hdr base = ⟨base, 0⟩ := by
    rw [started]
    simp [Heap.setPtr, Heap.setSize]
  have none' : unitsOf (s.start base).hdr [base] = ∅ := by
    ext u
    simp only [unitsOf, List.mem_singleton, exists_eq_left, own, Set.mem_ofPred_eq, Set.mem_empty_iff_false, iff_false]
    exact fun range => Nat.not_le_of_lt range.2 range.1
  have used' : (s.start base).used = [] := by rw [started]; exact used
  have core' : (s.start base).core = [] := by rw [started]; exact core
  have brk : (s.start base).brk = s.brk := by rw [started]; rfl
  refine ⟨⟨⟨rfl, ?_, List.pairwise_singleton _ _, fun a member => ?_⟩, ⟨base, List.mem_singleton_self _, ?_⟩, ?_,
    fun u => ?_, ?_, ?_, ?_, ?_⟩, used', brk⟩
  · simp only [Trail, List.cons_append, List.nil_append, List.isChain_cons_cons, List.isChain_singleton, and_true]
    rw [own]
  · rw [List.mem_singleton.mp member, own]
    exact ⟨fun _ => rfl, fun _ => rfl⟩
  · rw [started]
  · rw [brk]
    exact bottom
  · rw [none', used', core']
    simp
  · rw [used']
    exact .nil
  · rw [used']
    simp
  · rw [used']
    simp
  · rw [core']
    simp

theorem Inv.start (inv : Inv base s) : ∃ nodes, Ready base (s.start base) nodes ∧ (s.start base).used = s.used ∧
    Kept s (s.start base) := by
  rcases inv with ⟨bottom, freep, used, core⟩ | ⟨nodes, ready⟩
  · obtain ⟨ready, used', _⟩ := Ready.first bottom freep used core
    refine ⟨[base], ready, by rw [used', used], fun b member => ?_⟩
    rw [used] at member
    exact absurd member List.not_mem_nil
  · obtain ⟨f, _, freep⟩ := ready.member
    have same : s.start base = s := by rw [Heap.start, freep]
    rw [same]
    exact ⟨nodes, ready, rfl, fun _ _ _ _ _ => rfl⟩

theorem Inv.malloc (inv : Inv base s) (nbytes : ℕ) (memory : Bool) :
    ∃ t r, s.malloc base memory nbytes = some (t, r) ∧ Outcome base (Heap.units nbytes) memory (s.start base) t r := by
  obtain ⟨nodes, ready, _⟩ := inv.start
  obtain ⟨f, _, freep⟩ := ready.member
  obtain ⟨t, r, run, outcome⟩ := ready.search memory freep (units_pos nbytes) (Nat.le_refl _)
  refine ⟨t, r, ?_, outcome⟩
  rw [Heap.malloc]
  simp only [Option.bind_eq_bind, freep, Option.bind_some]
  exact run

/-- A program that has a block has made its first call. -/
theorem Inv.ready (inv : Inv base s) {b : ℕ × ℕ} (used : b ∈ s.used) : ∃ nodes, Ready base s nodes := by
  rcases inv with ⟨_, _, none', _⟩ | ready
  · rw [none'] at used
    exact absurd used List.not_mem_nil
  · exact ready

/-- The program writes behind the header of its block. -/
theorem Ready.write (ready : Ready base s nodes) {b : ℕ × ℕ} {x : ℕ} (used : b ∈ s.used) (low : b.1 < x)
    (high : x < b.1 + b.2) (h : Header) :
    Ready base { s with hdr := Function.update s.hdr x h } nodes := by
  have node := ready.not_node used (Nat.le_of_lt low) high
  have same : ∀ a ∈ nodes, Function.update s.hdr x h a = s.hdr a := by
    intro a member
    apply Function.update_of_ne
    rintro rfl
    exact node member
  have units : unitsOf (Function.update s.hdr x h) nodes = unitsOf s.hdr nodes := unitsOf_congr same
  refine ⟨ready.list.congr same, ready.member, ready.bottom, ?_, ready.apart, ?_, fun c member => ?_, ready.core⟩
  · change ∀ u, (u ∈ unitsOf (Function.update s.hdr x h) nodes ∨ _) ↔ _
    rw [units]
    exact ready.whole
  · change ∀ b ∈ s.used, ∀ u ∈ unitsOf (Function.update s.hdr x h) nodes, _
    rw [units]
    exact ready.free
  · have header := ready.header c member
    have other : c.1 ≠ x := by
      intro same
      have block := ready.same_block member used (x := x) (by omega) (by omega) (Nat.le_of_lt low) high
      rw [block] at same
      omega
    change (Function.update s.hdr x h c.1).size = c.2 ∧ _
    rw [Function.update_of_ne other]
    exact header

private theorem step_inv (inv : Inv base s) (proper : Proper s a) (moved : step base s a = some t) : Inv base t := by
  cases a with
  | malloc nbytes memory =>
    obtain ⟨⟨u, r⟩, run, rfl⟩ := Option.map_eq_some_iff.mp moved
    obtain ⟨v, r', run', ready, _⟩ := inv.malloc nbytes memory
    rw [run, Option.some.injEq, Prod.mk.injEq] at run'
    exact .inr (run'.1 ▸ ready)
  | free bp =>
    obtain ⟨u, run, rfl⟩ := Option.map_eq_some_iff.mp moved
    obtain ⟨b, used, rfl⟩ := proper
    obtain ⟨nodes, ready⟩ := inv.ready used
    obtain ⟨v, nodes', run', ready', same, _⟩ := ready.free_spec used
    rw [run, Option.some.injEq] at run'
    refine .inr ⟨nodes', ?_⟩
    rw [run', same]
    exact ready'
  | write x h =>
    obtain rfl := Option.some.inj moved
    obtain ⟨b, used, low, high⟩ := proper
    obtain ⟨nodes, ready⟩ := inv.ready used
    exact .inr ⟨nodes, ready.write used low high h⟩
  | sbrk n =>
    obtain rfl := Option.some.inj moved
    rcases inv with ⟨bottom, rest⟩ | ⟨nodes, ready⟩
    · exact .inl ⟨Nat.lt_of_lt_of_le bottom (Nat.le_add_right _ _), rest⟩
    · refine .inr ⟨nodes, ready.list, ready.member, Nat.lt_of_lt_of_le ready.bottom (Nat.le_add_right _ _),
        ready.whole, ready.apart, ready.free,
        ready.header, fun c member => ?_⟩
      have core := ready.core c member
      exact ⟨core.1, Nat.le_trans core.2 (Nat.le_add_right _ _)⟩

private theorem reachable_inv (reached : (machine base).ReachableBy Proper s) : Inv base s :=
  reached.invariant (fun _ start => .inl start) fun _ _ _ proper moved inv => step_inv inv proper moved

/-- Every unit that came from `sbrk` is free or in one block of the program, and no unit is both. -/
theorem heap_sound (reached : (machine base).ReachableBy Proper s) :
    s.used.Pairwise Apart ∧
    (∀ u, (IsFree s u ∨ ∃ b ∈ s.used, b.1 ≤ u ∧ u < b.1 + b.2) ↔ ∃ c ∈ s.core, c.1 ≤ u ∧ u < c.1 + c.2) ∧
      (∀ u, IsFree s u → ∀ b ∈ s.used, u < b.1 ∨ b.1 + b.2 ≤ u) ∧ ∀ b ∈ s.used, (s.hdr b.1).size = b.2 := by
  rcases reachable_inv reached with ⟨_, freep, used, core⟩ | ⟨nodes, ready⟩
  · rw [used, core]
    refine ⟨.nil, fun u => ?_, fun u _ b member => absurd member List.not_mem_nil, fun b member =>
      absurd member List.not_mem_nil⟩
    simp [IsFree, freep]
  · refine ⟨ready.apart, fun u => ?_, fun u free b member => ?_, fun b member => (ready.header b member).1⟩
    · rw [ready.isFree_iff]
      exact ready.whole u
    · rw [ready.isFree_iff] at free
      exact ready.free b member u free

private theorem Inv.isFree_start (inv : Inv base s) {u : ℕ} (free : IsFree s u) : IsFree (s.start base) u := by
  rcases inv with ⟨_, freep, _⟩ | ⟨nodes, ready⟩
  · obtain ⟨f, same, _⟩ := free
    rw [freep] at same
    exact absurd same (Option.some_ne_none f).symm
  · obtain ⟨f, _, freep⟩ := ready.member
    rw [Heap.start, freep]
    exact free

/-- Two blocks from the first memory, a word in one of them, and the other block again. -/
def session : List Action := [.malloc 10 true, .malloc 100 false, .write 4100 ⟨7, 7⟩, .free 4113]

theorem heap_sound_session : ∃ s, (machine 10).ReachableBy Proper s ∧ s.used = [(4099, 14)] ∧ s.core = [(20, 4096)] ∧
    ((IsFree s 4113 ∨ ∃ b ∈ s.used, b.1 ≤ 4113 ∧ 4113 < b.1 + b.2) ↔ ∃ c ∈ s.core, c.1 ≤ 4113 ∧ 4113 < c.1 + c.2) := by
  have success : ((machine 10).runBy Proper ⟨fun _ => ⟨0, 0⟩, none, 20, [], []⟩ session).any
      (fun s => s.used = [(4099, 14)] ∧ s.core = [(20, 4096)]) = true := by
    decide +kernel
  obtain ⟨s, run, same⟩ := (Option.any_eq_true _ _).mp success
  have reached : (machine 10).ReachableBy Proper s := Machine.reachableBy_of_runBy ⟨by decide, rfl, rfl, rfl⟩ session run
  obtain ⟨used, core⟩ := of_decide_eq_true same
  exact ⟨s, reached, used, core, (heap_sound reached).2.1 4113⟩

/-- `malloc` comes to an end and changes no block of the program. It returns a block of enough bytes that
shares no unit with them, or nothing, if `sbrk` fails and no run of free units is long enough. -/
theorem malloc_answers (reached : (machine base).ReachableBy Proper s) (few : nbytes < 2 ^ 31 - 16) (memory : Bool) :
    ∃ t r, s.malloc base memory nbytes = some (t, r) ∧
    (∀ b ∈ s.used, ∀ x, b.1 ≤ x → x < b.1 + b.2 → t.hdr x = s.hdr x) ∧ match r with
      | some a => ∃ n, nbytes ≤ 8 * (n - 1) ∧ t.used = (a, n) :: s.used ∧ ∀ b ∈ s.used, Apart (a, n) b
      | none => memory = false ∧ t.used = s.used ∧ ∀ x, ∃ u, x ≤ u ∧ u < x + Heap.units nbytes ∧ ¬ IsFree s u := by
  have inv := reachable_inv reached
  obtain ⟨t, r, run, _, kept, result⟩ := inv.malloc nbytes memory
  obtain ⟨_, _, used, started⟩ := inv.start
  refine ⟨t, r, run, fun b member x low high => ?_, ?_⟩
  · rw [kept b (by rw [used]; exact member) x low high]
    exact started b member x low high
  · cases r with
    | some a =>
      obtain ⟨fresh, apart⟩ := result
      rw [used] at fresh apart
      exact ⟨Heap.units nbytes, units_enough few, fresh, apart⟩
    | none =>
      obtain ⟨fails, same, short⟩ := result
      refine ⟨fails, same.trans used, fun x => ?_⟩
      obtain ⟨u, low, high, taken⟩ := short x
      exact ⟨u, low, high, fun free => taken (inv.isFree_start free)⟩

theorem malloc_answers_session : ∃ s, (machine 10).ReachableBy Proper s ∧ s.used = [(4099, 14)] ∧
    ∃ t r, s.malloc 10 false 20 = some (t, r) ∧ (∀ b ∈ s.used, ∀ x, b.1 ≤ x → x < b.1 + b.2 → t.hdr x = s.hdr x) ∧
    match r with
      | some a => ∃ n, 20 ≤ 8 * (n - 1) ∧ t.used = (a, n) :: s.used ∧ ∀ b ∈ s.used, Apart (a, n) b
      | none => false = false ∧ t.used = s.used ∧ ∀ x, ∃ u, x ≤ u ∧ u < x + Heap.units 20 ∧ ¬ IsFree s u := by
  have success : ((machine 10).runBy Proper ⟨fun _ => ⟨0, 0⟩, none, 20, [], []⟩ session).any
    (fun s => s.used = [(4099, 14)]) = true := by
    decide +kernel
  obtain ⟨s, run, same⟩ := (Option.any_eq_true _ _).mp success
  have reached : (machine 10).ReachableBy Proper s := Machine.reachableBy_of_runBy ⟨by decide, rfl, rfl, rfl⟩ session run
  exact ⟨s, reached, of_decide_eq_true same, malloc_answers reached (by decide) false⟩

/-- `free` of a block comes to an end, makes exactly the units of the block free and changes no other block. -/
theorem free_answers (reached : (machine base).ReachableBy Proper s) {b : ℕ × ℕ} (used : b ∈ s.used) :
    ∃ t, s.free b.1 = some t ∧ (∀ u, IsFree t u ↔ IsFree s u ∨ (b.1 ≤ u ∧ u < b.1 + b.2)) ∧
      ∀ c ∈ s.used, c ≠ b → ∀ x, c.1 ≤ x → x < c.1 + c.2 → t.hdr x = s.hdr x := by
  obtain ⟨nodes, ready⟩ := (reachable_inv reached).ready used
  obtain ⟨t, nodes', run, ready', _, _, _, units, kept⟩ := ready.free_spec used
  refine ⟨t, run, fun u => ?_, fun c member other x low high => kept c member (fun same => ?_) x low high⟩
  · have free : IsFree { t with used := s.used.filter (·.1 ≠ b.1) } u ↔ u ∈ unitsOf t.hdr nodes' := ready'.isFree_iff
    rw [ready.isFree_iff]
    change IsFree t u ↔ _ at free
    rw [free, units]
    rfl
  · have positive := (ready.header c member).2.1
    have positive' := (ready.header b used).2.1
    exact other (ready.same_block member used (Nat.le_refl _) (by omega) (by omega) (by omega))

theorem free_answers_session : ∃ s t, (machine 10).ReachableBy Proper s ∧ s.free 4099 = some t ∧
    ∀ u, IsFree t u ↔ IsFree s u ∨ (4099 ≤ u ∧ u < 4099 + 14) := by
  have success : ((machine 10).runBy Proper ⟨fun _ => ⟨0, 0⟩, none, 20, [], []⟩ session).any
    (fun s => s.used = [(4099, 14)]) = true := by
    decide +kernel
  obtain ⟨s, run, same⟩ := (Option.any_eq_true _ _).mp success
  have reached : (machine 10).ReachableBy Proper s := Machine.reachableBy_of_runBy ⟨by decide, rfl, rfl, rfl⟩ session run
  have used : (4099, 14) ∈ s.used := by
    rw [of_decide_eq_true same]
    exact List.mem_singleton_self _
  obtain ⟨t, freed, free, _⟩ := free_answers reached used
  exact ⟨s, t, reached, freed, free⟩

end Cs537.User
