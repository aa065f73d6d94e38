import Cs537.Fs.Bio
import Mathlib.Data.List.Perm.Basic

/-! # The buffer cache is coherent

In every interleaving of the clients: a block is in one buffer at most, a buffer is locked by one client at
most and is never recycled while a client refers to it or it is dirty, and a client that has read or written
its buffer finds the last contents that anyone gave to the block. The list stays a circle of all buffers,
ordered by the time at which they were last let go, so that the buffer recycled is the least recently used
one.
-/

namespace Cs537.Fs.Bio

open Cs537.Lib Cs537.Fs.Log

variable {s t : St} {a : Action} {c i j dev blockno : ℕ} {data : Block}

/-- The block a buffer is for. -/
def Buf.key (b : Buf) : ℕ × ℕ := (b.dev, b.blockno)

/-- The list that the links represent: all buffers, those let go later before those let go earlier. -/
structure Ordered (s : St) (l : List ℕ) : Prop where
  circle : s.links.Circle head l
  all : l.Perm (List.range NBUF)
  sorted : l.Pairwise fun i j => s.freed j ≤ s.freed i
  past : ∀ i, s.freed i ≤ s.clock

/-- Who refers to which buffer. -/
structure Referred (s : St) : Prop where
  count : ∀ i, (s.buf i).refcnt = (s.users i).card
  inside : ∀ i c, c ∈ s.users i → i < NBUF
  apart : ∀ i j c, c ∈ s.users i → c ∈ s.users j → i = j
  lock : ∀ i c, (s.buf i).lock = some c ↔ c ∈ s.users i ∧ s.stage c = .holding

/-- What the buffers hold. -/
structure Coherent (s : St) : Prop where
  unique : ∀ i j, i < NBUF → j < NBUF → (s.buf i).dev ≠ 0 → (s.buf i).key = (s.buf j).key → i = j
  unused : ∀ i, (s.buf i).dev = 0 → s.users i = ∅ ∧ (s.buf i).valid = false
  pinned : ∀ i, (s.buf i).dirty = true → (s.buf i).valid = true
  data : ∀ i < NBUF, (s.buf i).valid = true → (s.buf i).data = s.written (s.buf i).key
  disk : ∀ k, (∀ i < NBUF, (s.buf i).key = k → (s.buf i).dirty = false) → s.disk k = s.written k

structure Inv (s : St) : Prop where
  ordered : ∃ l, Ordered s l
  referred : Referred s
  coherent : Coherent s
  sane : s.panicked = none ∨
    s.panicked = some "bget: no buffers" ∧ ∀ i < NBUF, 0 < (s.buf i).refcnt ∨ (s.buf i).dirty = true

variable {l : List ℕ}

theorem Ordered.mem (ordered : Ordered s l) : i ∈ l ↔ i < NBUF := by
  rw [ordered.all.mem_iff, List.mem_range]

theorem Ordered.length (ordered : Ordered s l) : l.length = NBUF := by
  rw [ordered.all.length_eq, List.length_range]

theorem Ordered.lookup (ordered : Ordered s l) :
    s.lookup dev blockno = l.find? fun i => (s.buf i).dev == dev && (s.buf i).blockno == blockno :=
  ordered.circle.search_next (by rw [ordered.length]; exact Nat.lt_succ_self _)

theorem Ordered.victim (ordered : Ordered s l) :
    s.victim = l.reverse.find? fun i => (s.buf i).refcnt == 0 && !(s.buf i).dirty :=
  ordered.circle.search_prev (by rw [ordered.length]; exact Nat.lt_succ_self _)

theorem lookup_some (ordered : Ordered s l) (found : s.lookup dev blockno = some i) :
    i < NBUF ∧ (s.buf i).key = (dev, blockno) := by
  rw [ordered.lookup] at found
  have hit := List.find?_some found
  rw [Bool.and_eq_true, beq_iff_eq, beq_iff_eq] at hit
  exact ⟨ordered.mem.mp (List.mem_of_find?_eq_some found), by rw [Buf.key, hit.1, hit.2]⟩

theorem lookup_none (ordered : Ordered s l) (none : s.lookup dev blockno = none) (inside : i < NBUF) :
    (s.buf i).key ≠ (dev, blockno) := by
  rw [ordered.lookup] at none
  have miss := List.find?_eq_none.mp none i (ordered.mem.mpr inside)
  intro same
  rw [Buf.key, Prod.mk.injEq] at same
  simp [same.1, same.2] at miss

theorem victim_some (ordered : Ordered s l) (found : s.victim = some i) :
    i < NBUF ∧ (s.buf i).refcnt = 0 ∧ (s.buf i).dirty = false := by
  rw [ordered.victim] at found
  have hit := List.find?_some found
  rw [Bool.and_eq_true, beq_iff_eq, Bool.not_eq_true'] at hit
  have member := List.mem_of_find?_eq_some found
  rw [List.mem_reverse] at member
  exact ⟨ordered.mem.mp member, hit⟩

private theorem victim_none (ordered : Ordered s l) (none : s.victim = none) (inside : i < NBUF) :
    0 < (s.buf i).refcnt ∨ (s.buf i).dirty = true := by
  rw [ordered.victim] at none
  have miss := List.find?_eq_none.mp none i (List.mem_reverse.mpr (ordered.mem.mpr inside))
  rw [Bool.and_eq_true, beq_iff_eq, Bool.not_eq_true', not_and, Bool.not_eq_false] at miss
  rcases Nat.eq_zero_or_pos (s.buf i).refcnt with zero | positive
  · exact .inr (miss zero)
  · exact .inl positive

/-- The buffer that is recycled was let go no later than any other that could be. -/
private theorem victim_least (ordered : Ordered s l) (found : s.victim = some i) (inside : j < NBUF) (free : (s.buf j).refcnt = 0)
    (clean : (s.buf j).dirty = false) : s.freed i ≤ s.freed j := by
  rw [ordered.victim] at found
  obtain ⟨_, before, after, split, skipped⟩ := List.find?_eq_some_iff_append.mp found
  have member : j ∈ before ++ i :: after := by
    rw [← split, List.mem_reverse]
    exact ordered.mem.mpr inside
  have sorted : (before ++ i :: after).Pairwise fun a b => s.freed a ≤ s.freed b := by
    rw [← split]
    exact List.pairwise_reverse.mpr ordered.sorted
  rcases List.mem_append.mp member with earlier | here
  · have passed := skipped j earlier
    simp [free, clean] at passed
  · rcases List.mem_cons.mp here with rfl | later
    · exact Nat.le_refl _
    · exact (List.pairwise_cons.mp (List.pairwise_append.mp sorted).2.1).1 j later

theorem Ordered.congr (ordered : Ordered s l) (links : t.links = s.links) (freed : t.freed = s.freed)
    (clock : t.clock = s.clock) :
    Ordered t l := by
  refine ⟨?_, ordered.all, ?_, ?_⟩
  · rw [links]
    exact ordered.circle
  · rw [freed]
    exact ordered.sorted
  · rw [freed, clock]
    exact ordered.past

/-- The buffer that is let go comes to the front. -/
theorem Ordered.front (ordered : Ordered s l) (inside : i < NBUF) (links : t.links = (s.links.unlink i).pushFront head i)
    (freed : t.freed = Function.update s.freed i (s.clock + 1)) (clock : t.clock = s.clock + 1) : ∃ l', Ordered t l' := by
  obtain ⟨front, back, rfl⟩ := List.append_of_mem (ordered.mem.mpr inside)
  have distinct := (List.nodup_cons.mp ordered.circle.distinct).2
  have middle : (front ++ i :: back).Perm (i :: (front ++ back)) := List.perm_middle
  have absent : i ∉ front ++ back := (List.nodup_cons.mp (middle.nodup_iff.mp distinct)).1
  refine ⟨i :: (front ++ back), ?_, middle.symm.trans ordered.all, ?_, fun k => ?_⟩
  · rw [links]
    apply ordered.circle.unlink.pushFront
    rw [List.mem_cons, not_or]
    exact ⟨Nat.ne_of_lt inside, absent⟩
  · have sorted := ordered.sorted.sublist ((List.Sublist.refl front).append (List.sublist_cons_self i back))
    rw [freed, List.pairwise_cons]
    refine ⟨fun k member => ?_, sorted.imp_of_mem fun {a b} one two order => ?_⟩
    · have past := ordered.past k
      rw [Function.update_self, Function.update_of_ne (fun same => absent (by rw [← same]; exact member))]
      omega
    · rw [Function.update_of_ne (fun same => absent (by rw [← same]; exact two)),
        Function.update_of_ne (fun same => absent (by rw [← same]; exact one))]
      exact order
  · have past := ordered.past k
    rw [freed, clock]
    rcases eq_or_ne k i with rfl | other
    · rw [Function.update_self]
    · rw [Function.update_of_ne other]
      omega

/-- A new client at a buffer, whose count goes up by one. -/
theorem Referred.join (referred : Referred s) (inside : i < NBUF) (fresh : s.Fresh c) {b : Buf}
    (count : b.refcnt = (s.buf i).refcnt + 1)
    (lock : b.lock = (s.buf i).lock) : Referred ((s.setBuf i b).join c i) := by
  have absent : ∀ k, c ∉ s.users k := fun k member => fresh k (List.mem_range.mpr (referred.inside k c member)) member
  refine ⟨fun k => ?_, fun k e member => ?_, fun k m e one two => ?_, fun k e => ?_⟩
  · change (Function.update s.buf i b k).refcnt = (Function.update s.users i (insert c (s.users i)) k).card
    rcases eq_or_ne k i with rfl | other
    · rw [Function.update_self, Function.update_self, Finset.card_insert_of_notMem (absent k), count, referred.count]
    · rw [Function.update_of_ne other, Function.update_of_ne other, referred.count]
  · change e ∈ Function.update s.users i (insert c (s.users i)) k at member
    rcases eq_or_ne k i with rfl | other
    · exact inside
    · rw [Function.update_of_ne other] at member
      exact referred.inside k e member
  · have users : ∀ k, e ∈ Function.update s.users i (insert c (s.users i)) k → (e = c ∧ k = i) ∨
      (e ≠ c ∧ e ∈ s.users k) := by
      intro k member
      rcases eq_or_ne k i with rfl | other
      · rw [Function.update_self, Finset.mem_insert] at member
        rcases eq_or_ne e c with same | different
        · exact .inl ⟨same, rfl⟩
        · exact .inr ⟨different, member.resolve_left different⟩
      · rw [Function.update_of_ne other] at member
        exact .inr ⟨fun same => absent k (same ▸ member), member⟩
    rcases users k one with ⟨same, rfl⟩ | ⟨different, old⟩
    · rcases users m two with ⟨_, rfl⟩ | ⟨different, _⟩
      · rfl
      · exact absurd same different
    · rcases users m two with ⟨same, _⟩ | ⟨_, old'⟩
      · exact absurd same different
      · exact referred.apart k m e old old'
  · change (Function.update s.buf i b k).lock = some e ↔
      e ∈ Function.update s.users i (insert c (s.users i)) k ∧ Function.update s.stage c .waiting e = .holding
    have kept : (Function.update s.buf i b k).lock = (s.buf k).lock := by
      rcases eq_or_ne k i with rfl | other
      · rw [Function.update_self, lock]
      · rw [Function.update_of_ne other]
    rw [kept, referred.lock]
    rcases eq_or_ne e c with rfl | different
    · rw [Function.update_self]
      simp [absent k]
    · rw [Function.update_of_ne different]
      rcases eq_or_ne k i with rfl | other
      · rw [Function.update_self, Finset.mem_insert, or_iff_right different]
      · rw [Function.update_of_ne other]

/-- A step of a client that is at a buffer from one stage to another, with the buffer's lock. -/
theorem Referred.advance (referred : Referred s) (member : c ∈ s.users i) {b : Buf} {stage : Stage}
    (count : b.refcnt = (s.buf i).refcnt)
    (lock : b.lock = if stage = .holding then some c else none)
    (alone : ∀ e, (s.buf i).lock = some e → e = c) :
    Referred { s.setBuf i b with stage := Function.update s.stage c stage } := by
  refine ⟨fun k => ?_, referred.inside, referred.apart, fun k e => ?_⟩
  · change (Function.update s.buf i b k).refcnt = (s.users k).card
    rcases eq_or_ne k i with rfl | other
    · rw [Function.update_self, count, referred.count]
    · rw [Function.update_of_ne other, referred.count]
  · change (Function.update s.buf i b k).lock = some e ↔ e ∈ s.users k ∧ Function.update s.stage c stage e = .holding
    rcases eq_or_ne k i with rfl | other
    · rw [Function.update_self, lock]
      rcases eq_or_ne e c with rfl | different
      · rw [Function.update_self]
        split_ifs with now
        · simp [member, now]
        · simp [now]
      · rw [Function.update_of_ne different]
        have before := mt (alone e) different
        rw [referred.lock] at before
        split_ifs
        · simp only [Option.some.injEq, Ne.symm different, false_iff]
          exact before
        · simp only [false_iff]
          exact before
    · rw [Function.update_of_ne other, referred.lock]
      rcases eq_or_ne e c with rfl | different
      · have away : e ∉ s.users k := fun there => other (referred.apart k i e there member)
        simp [away]
      · rw [Function.update_of_ne different]

/-- A step that leaves references and locks alone. -/
theorem Referred.same (referred : Referred s) {b : Buf} (count : b.refcnt = (s.buf i).refcnt)
    (lock : b.lock = (s.buf i).lock) :
    Referred (s.setBuf i b) := by
  have kept : ∀ k, (Function.update s.buf i b k).refcnt = (s.buf k).refcnt ∧
    (Function.update s.buf i b k).lock = (s.buf k).lock := by
    intro k
    rcases eq_or_ne k i with rfl | other
    · rw [Function.update_self]
      exact ⟨count, lock⟩
    · rw [Function.update_of_ne other]
      exact ⟨rfl, rfl⟩
  exact ⟨fun k => (kept k).1.trans (referred.count k), referred.inside, referred.apart, fun k e => by
    change (Function.update s.buf i b k).lock = some e ↔ _
    rw [(kept k).2]
    exact referred.lock k e⟩

/-- A client that has released its buffer goes. -/
theorem Referred.leave (referred : Referred s) (member : c ∈ s.users i) (released : s.stage c = .released) {b : Buf}
    (count : b.refcnt = (s.buf i).refcnt - 1) (lock : b.lock = (s.buf i).lock) :
    Referred { s.setBuf i b with users := Function.update s.users i ((s.users i).erase c) } := by
  have fewer : ∀ k, Function.update s.users i ((s.users i).erase c) k ⊆ s.users k := by
    intro k
    rcases eq_or_ne k i with rfl | other
    · rw [Function.update_self]
      exact Finset.erase_subset c _
    · rw [Function.update_of_ne other]
  refine ⟨fun k => ?_, fun k e there => referred.inside k e (fewer k there),
    fun k m e one two => referred.apart k m e (fewer k one) (fewer m two), fun k e => ?_⟩
  · change (Function.update s.buf i b k).refcnt = (Function.update s.users i ((s.users i).erase c) k).card
    rcases eq_or_ne k i with rfl | other
    · rw [Function.update_self, Function.update_self, Finset.card_erase_of_mem member, count, referred.count]
    · rw [Function.update_of_ne other, Function.update_of_ne other, referred.count]
  · change (Function.update s.buf i b k).lock = some e ↔ e ∈ Function.update s.users i ((s.users i).erase c) k ∧
      s.stage e = .holding
    rcases eq_or_ne k i with rfl | other
    · rw [Function.update_self, Function.update_self, lock, referred.lock, Finset.mem_erase]
      rcases eq_or_ne e c with rfl | different
      · simp [released]
      · simp [different]
    · rw [Function.update_of_ne other, Function.update_of_ne other, referred.lock]

theorem Coherent.live (coherent : Coherent s) (member : c ∈ s.users i) : (s.buf i).dev ≠ 0 := by
  intro zero
  rw [(coherent.unused i zero).1] at member
  exact absurd member (Finset.notMem_empty c)

/-- The block of a buffer that is not dirty is on the disk. -/
theorem Coherent.clean (coherent : Coherent s) (inside : i < NBUF) (live : (s.buf i).dev ≠ 0)
    (clean : (s.buf i).dirty = false) :
    s.disk (s.buf i).key = s.written (s.buf i).key := by
  apply coherent.disk
  intro j inside' same
  rw [← coherent.unique i j inside inside' live same.symm]
  exact clean

/-- A buffer that stays with its block, while nothing happens to the other blocks. -/
theorem Coherent.change (coherent : Coherent s) (inside : i < NBUF) (live : (s.buf i).dev ≠ 0) {b : Buf}
    (buf : t.buf = Function.update s.buf i b) (users : ∀ k, k ≠ i → t.users k = s.users k) (key : b.key = (s.buf i).key)
    (written : ∀ k, k ≠ b.key → t.written k = s.written k) (disk : ∀ k, k ≠ b.key → t.disk k = s.disk k)
    (pinned : b.dirty = true → b.valid = true) (data : b.valid = true → b.data = t.written b.key)
    (clean : b.dirty = false → t.disk b.key = t.written b.key) : Coherent t := by
  have keys : ∀ k, (t.buf k).key = (s.buf k).key := by
    intro k
    rw [buf]
    rcases eq_or_ne k i with rfl | other
    · rw [Function.update_self, key]
    · rw [Function.update_of_ne other]
  have devs : ∀ k, (t.buf k).dev = (s.buf k).dev := fun k => congrArg Prod.fst (keys k)
  refine ⟨fun k m one two used same => ?_, fun k unused => ?_, fun k dirty => ?_, fun k below valid => ?_,
    fun k clear => ?_⟩
  · rw [devs] at used
    rw [keys, keys] at same
    exact coherent.unique k m one two used same
  · rw [devs] at unused
    have other : k ≠ i := by
      rintro rfl
      exact live unused
    rw [users k other, buf, Function.update_of_ne other]
    exact coherent.unused k unused
  · rw [buf] at dirty ⊢
    rcases eq_or_ne k i with rfl | other
    · rw [Function.update_self] at dirty ⊢
      exact pinned dirty
    · rw [Function.update_of_ne other] at dirty ⊢
      exact coherent.pinned k dirty
  · rcases eq_or_ne (t.buf k).key b.key with same | apart
    · rw [same]
      rw [buf] at valid ⊢
      rcases eq_or_ne k i with rfl | other
      · rw [Function.update_self] at valid ⊢
        exact data valid
      · rw [Function.update_of_ne other] at valid ⊢
        rw [keys, key] at same
        exact absurd (coherent.unique i k inside below live same.symm).symm other
    · rw [written _ apart]
      have other : k ≠ i := by
        rintro rfl
        rw [keys, key] at apart
        exact apart rfl
      rw [buf, Function.update_of_ne other] at valid ⊢
      exact coherent.data k below valid
  · rcases eq_or_ne k b.key with rfl | apart
    · have here := clear i inside (by rw [keys, key])
      rw [buf, Function.update_self] at here
      exact clean here
    · rw [written k apart, disk k apart]
      apply coherent.disk
      intro m below same
      have other : m ≠ i := by
        rintro rfl
        rw [← same, key] at apart
        exact apart rfl
      have kept := clear m below (by rw [keys, same])
      rw [buf, Function.update_of_ne other] at kept
      exact kept

/-- A buffer whose data stays. -/
theorem Coherent.same (coherent : Coherent s) (inside : i < NBUF) (live : (s.buf i).dev ≠ 0) {b : Buf}
    (buf : t.buf = Function.update s.buf i b) (users : ∀ k, k ≠ i → t.users k = s.users k) (key : b.key = (s.buf i).key)
    (written : t.written = s.written) (disk : t.disk = s.disk) (dirty : b.dirty = (s.buf i).dirty)
    (valid : b.valid = (s.buf i).valid)
    (data : b.data = (s.buf i).data) : Coherent t := by
  refine coherent.change inside live buf users key (fun k _ => by rw [written]) (fun k _ => by rw [disk])
    (fun isDirty => ?_)
    (fun isValid => ?_) (fun isClean => ?_)
  · rw [valid]
    exact coherent.pinned i (dirty ▸ isDirty)
  · rw [data, key, written]
    exact coherent.data i inside (valid ▸ isValid)
  · rw [key, written, disk]
    exact coherent.clean inside live (dirty ▸ isClean)

/-- A buffer that nobody refers to and that is not dirty is taken for a block that no buffer is for. -/
private theorem Coherent.recycle (coherent : Coherent s) (inside : i < NBUF) (clean : (s.buf i).dirty = false) {b : Buf}
    (buf : t.buf = Function.update s.buf i b) (users : ∀ k, k ≠ i → t.users k = s.users k)
    (written : t.written = s.written)
    (disk : t.disk = s.disk) (live : b.dev ≠ 0) (new : ∀ k < NBUF, (s.buf k).key ≠ b.key) (empty : b.valid = false)
    (unchanged : b.dirty = false) : Coherent t := by
  refine ⟨fun k m one two used same => ?_, fun k unused => ?_, fun k dirty => ?_, fun k below valid => ?_,
    fun k clear => ?_⟩
  · rw [buf] at used same
    rcases eq_or_ne k i with rfl | other
    · rcases eq_or_ne m k with rfl | different
      · rfl
      · rw [Function.update_self, Function.update_of_ne different] at same
        exact absurd same.symm (new m two)
    · rw [Function.update_of_ne other] at used same
      rcases eq_or_ne m i with rfl | different
      · rw [Function.update_self] at same
        exact absurd same (new k one)
      · rw [Function.update_of_ne different] at same
        exact coherent.unique k m one two used same
  · rw [buf] at unused ⊢
    have other : k ≠ i := by
      rintro rfl
      rw [Function.update_self] at unused
      exact live unused
    rw [Function.update_of_ne other] at unused ⊢
    rw [users k other]
    exact coherent.unused k unused
  · rw [buf] at dirty ⊢
    rcases eq_or_ne k i with rfl | other
    · rw [Function.update_self, unchanged] at dirty
      exact absurd dirty Bool.false_ne_true
    · rw [Function.update_of_ne other] at dirty ⊢
      exact coherent.pinned k dirty
  · rw [buf] at valid ⊢
    rcases eq_or_ne k i with rfl | other
    · rw [Function.update_self, empty] at valid
      exact absurd valid Bool.false_ne_true
    · rw [Function.update_of_ne other] at valid ⊢
      rw [written]
      exact coherent.data k below valid
  · rw [disk, written]
    apply coherent.disk
    intro m below same
    rcases eq_or_ne m i with rfl | other
    · exact clean
    · have kept := clear m below
      rw [buf, Function.update_of_ne other] at kept
      exact kept same

theorem Inv.bget (inv : Inv s) (sane : s.panicked = none) (fresh : s.Fresh c) (used : dev ≠ 0) :
    Inv (s.bget c dev blockno) := by
  obtain ⟨⟨l, ordered⟩, referred, coherent, _⟩ := inv
  have apart : ∀ i k, k ≠ i → Function.update s.users i (insert c (s.users i)) k = s.users k :=
    fun i k other => Function.update_of_ne other _ _
  rw [St.bget]
  cases found : s.lookup dev blockno with
  | some i =>
    obtain ⟨inside, key⟩ := lookup_some ordered found
    have live : (s.buf i).dev ≠ 0 := by
      rw [show (s.buf i).dev = dev from congrArg Prod.fst key]
      exact used
    exact ⟨⟨l, ordered.congr rfl rfl rfl⟩, referred.join inside fresh rfl rfl,
      coherent.same inside live rfl (apart i) rfl rfl rfl rfl rfl rfl, .inl sane⟩
  | none =>
    cases taken : s.victim with
    | some i =>
      obtain ⟨inside, unreferenced, clean⟩ := victim_some ordered taken
      dsimp only
      refine ⟨⟨l, ordered.congr rfl rfl rfl⟩, referred.join inside fresh ?_ rfl,
        coherent.recycle inside clean rfl (apart i) rfl rfl used (fun k below =>
          lookup_none ordered found below) rfl rfl, .inl sane⟩
      rw [unreferenced]
    | none =>
      have full : ∀ i < NBUF, 0 < (s.buf i).refcnt ∨ (s.buf i).dirty = true :=
        fun _ below => victim_none ordered taken below
      dsimp only
      exact ⟨⟨l, ordered.congr rfl rfl rfl⟩, ⟨referred.count, referred.inside, referred.apart, referred.lock⟩,
        ⟨coherent.unique, coherent.unused, coherent.pinned, coherent.data, coherent.disk⟩,
        .inr ⟨rfl, full⟩⟩

theorem Inv.acquire (inv : Inv s) (sane : s.panicked = none) (run : s.acquire c i = some t) : Inv t := by
  obtain ⟨⟨l, ordered⟩, referred, coherent, _⟩ := inv
  rw [St.acquire] at run
  split_ifs at run with may
  obtain ⟨member, _, unlocked⟩ := may
  cases run
  refine ⟨⟨l, ordered.congr rfl rfl rfl⟩, referred.advance member rfl (by rw [if_pos rfl]) (fun e held => ?_),
    coherent.same (referred.inside i c member) (coherent.live member) rfl (fun _ _ => rfl) rfl rfl rfl rfl rfl rfl,
      .inl sane⟩
  rw [unlocked] at held
  exact absurd held (Option.some_ne_none e).symm

theorem Inv.fill (inv : Inv s) (sane : s.panicked = none) (run : s.fill c i = some t) : Inv t := by
  obtain ⟨⟨l, ordered⟩, referred, coherent, _⟩ := inv
  rw [St.fill] at run
  split_ifs at run with may
  obtain ⟨member, _, invalid⟩ := may
  cases run
  have inside := referred.inside i c member
  have clean : (s.buf i).dirty = false := by
    rw [Bool.eq_false_iff]
    intro dirty
    rw [coherent.pinned i dirty] at invalid
    exact Bool.false_ne_true invalid.symm
  have stored := coherent.clean inside (coherent.live member) clean
  exact ⟨⟨l, ordered.congr rfl rfl rfl⟩, referred.same rfl rfl,
    coherent.change inside (coherent.live member) rfl (fun _ _ => rfl) rfl (fun _ _ => rfl) (fun _ _ => rfl)
      (fun _ => rfl) (fun _ => stored) (fun _ => stored), .inl sane⟩

theorem Inv.bwrite (inv : Inv s) (sane : s.panicked = none) (run : s.bwrite c i data = some t) : Inv t := by
  obtain ⟨⟨l, ordered⟩, referred, coherent, _⟩ := inv
  rw [St.bwrite] at run
  split_ifs at run with may locked
  · obtain ⟨member, _, valid⟩ := may
    cases run
    have inside := referred.inside i c member
    refine ⟨⟨l, ordered.congr rfl rfl rfl⟩, ?_, ?_, .inl sane⟩
    · have kept := referred.same (i := i) (b := { s.buf i with data := data, dirty := false }) rfl rfl
      exact ⟨kept.count, kept.inside, kept.apart, kept.lock⟩
    · have now : ∀ f : ℕ × ℕ → Block, Function.update f (s.buf i).key data (s.buf i).key = data :=
        fun f => Function.update_self ..
      exact coherent.change inside (coherent.live member) rfl (fun _ _ => rfl) rfl
        (fun k other => Function.update_of_ne other _ _) (fun k other => Function.update_of_ne other _ _)
        (fun _ => valid) (fun _ => (now s.written).symm) (fun _ => (now s.disk).trans (now s.written).symm)
  · exact absurd ((referred.lock i c).mpr ⟨may.1, may.2.1⟩) locked

theorem Inv.logWrite (inv : Inv s) (sane : s.panicked = none) (run : s.logWrite c i data = some t) : Inv t := by
  obtain ⟨⟨l, ordered⟩, referred, coherent, _⟩ := inv
  rw [St.logWrite] at run
  split_ifs at run with may
  obtain ⟨member, _, valid⟩ := may
  cases run
  have inside := referred.inside i c member
  refine ⟨⟨l, ordered.congr rfl rfl rfl⟩, ?_, ?_, .inl sane⟩
  · have kept := referred.same (i := i) (b := { s.buf i with data := data, dirty := true }) rfl rfl
    exact ⟨kept.count, kept.inside, kept.apart, kept.lock⟩
  · have now : Function.update s.written (s.buf i).key data (s.buf i).key = data := Function.update_self ..
    exact coherent.change inside (coherent.live member) rfl (fun _ _ => rfl) rfl
      (fun k other => Function.update_of_ne other _ _) (fun _ _ => rfl)
      (fun _ => valid) (fun _ => now.symm) (fun clean => absurd clean.symm Bool.false_ne_true)

theorem Inv.unlock (inv : Inv s) (sane : s.panicked = none) (run : s.unlock c i = some t) : Inv t := by
  obtain ⟨⟨l, ordered⟩, referred, coherent, _⟩ := inv
  rw [St.unlock] at run
  split_ifs at run with may locked
  · obtain ⟨member, _, _⟩ := may
    cases run
    refine ⟨⟨l, ordered.congr rfl rfl rfl⟩, referred.advance member rfl (by rw [if_neg (by decide)]) (fun e held => ?_),
      coherent.same (referred.inside i c member) (coherent.live member) rfl (fun _ _ => rfl) rfl rfl rfl rfl rfl rfl,
        .inl sane⟩
    rw [locked] at held
    exact (Option.some.inj held).symm
  · exact absurd ((referred.lock i c).mpr ⟨may.1, may.2.1⟩) locked

theorem Inv.brelse (inv : Inv s) (sane : s.panicked = none) (run : s.brelse c i = some t) : Inv t := by
  obtain ⟨⟨l, ordered⟩, referred, coherent, _⟩ := inv
  rw [St.brelse] at run
  dsimp only at run
  split_ifs at run with may last
  all_goals
    obtain ⟨member, released⟩ := may
    cases run
    have inside := referred.inside i c member
    have left := referred.leave member released (b := { s.buf i with refcnt := (s.buf i).refcnt - 1 }) rfl rfl
    have kept : ∀ k, k ≠ i → Function.update s.users i ((s.users i).erase c) k = s.users k :=
      fun k other => Function.update_of_ne other _ _
  · exact ⟨ordered.front inside rfl rfl rfl, ⟨left.count, left.inside, left.apart, left.lock⟩,
      coherent.same inside (coherent.live member) rfl kept rfl rfl rfl rfl rfl rfl, .inl sane⟩
  · exact ⟨⟨l, ordered.congr rfl rfl rfl⟩, left,
      coherent.same inside (coherent.live member) rfl kept rfl rfl rfl rfl rfl rfl, .inl sane⟩

theorem Inv.act (inv : Inv s) (sane : s.panicked = none) (used : OnDevice s a) (run : act s a = some t) : Inv t := by
  cases a with
  | bget c dev blockno =>
    rw [Bio.act] at run
    split_ifs at run with fresh
    cases run
    exact inv.bget sane fresh used
  | acquire c i => exact inv.acquire sane run
  | fill c i => exact inv.fill sane run
  | bwrite c i data => exact inv.bwrite sane run
  | logWrite c i data => exact inv.logWrite sane run
  | unlock c i => exact inv.unlock sane run
  | brelse c i => exact inv.brelse sane run

theorem Inv.step (inv : Inv s) (used : OnDevice s a) (run : step s a = some t) : Inv t := by
  rw [Bio.step] at run
  cases sane : s.panicked with
  | none =>
    rw [sane] at run
    exact inv.act sane used run
  | some text =>
    rw [sane] at run
    exact absurd run (Option.some_ne_none t).symm

/-- Nodes that are linked in one after the other. -/
private theorem circle_foldl {k : Links ℕ} {l : List ℕ} {new : List ℕ} (circle : k.Circle head l)
    (distinct : (head :: (new ++ l)).Nodup) :
    (new.foldl (fun k b => k.pushFront head b) k).Circle head (new.reverse ++ l) := by
  induction new generalizing k l with
  | nil => exact circle
  | cons b new ih =>
    rw [List.foldl_cons, List.reverse_cons, List.append_assoc, List.singleton_append]
    have moved : (head :: (new ++ b :: l)).Perm (head :: (b :: new ++ l)) := List.Perm.cons head List.perm_middle
    refine ih (circle.pushFront ?_) (moved.nodup_iff.mpr distinct)
    have inner := List.nodup_cons.mp distinct
    rw [List.cons_append, List.mem_cons, not_or] at inner
    rw [List.mem_cons, not_or]
    refine ⟨Ne.symm inner.1.1, fun member => ?_⟩
    exact (List.nodup_cons.mp inner.2).1 (List.mem_append_right new member)

theorem Inv.binit (disk : ℕ × ℕ → Block) : Inv (binit disk) where
  ordered := by
    have distinct : (head :: (List.range NBUF ++ [])).Nodup := by
      rw [List.append_nil, List.nodup_cons, List.mem_range]
      exact ⟨Nat.lt_irrefl NBUF, List.nodup_range⟩
    have circle := circle_foldl (Links.Circle.alone head) distinct
    rw [List.append_nil] at circle
    exact ⟨(List.range NBUF).reverse, circle, List.reverse_perm _, List.pairwise_of_forall fun _ _ => Nat.le_refl _,
      fun _ => Nat.le_refl _⟩
  referred := ⟨fun _ => rfl, fun i c member => absurd member (Finset.notMem_empty c),
    fun i _ c member => absurd member (Finset.notMem_empty c), fun i c => by simp [Bio.binit]⟩
  coherent := ⟨fun _ _ _ _ used => absurd rfl used, fun _ _ => ⟨rfl, rfl⟩, fun _ dirty => absurd dirty Bool.false_ne_true,
    fun _ _ valid => absurd valid Bool.false_ne_true, fun _ _ => rfl⟩
  sane := .inl rfl

theorem Inv.of_reachable (reachable : machine.ReachableBy OnDevice s) : Inv s := by
  refine reachable.invariant (fun s first => ?_) (fun s a t used run inv => inv.step used run)
  obtain ⟨disk, rfl⟩ := first
  exact Inv.binit disk

/-- In every interleaving: no block is in two buffers; a buffer is held by the client that its lock names
and by no other, and once it is valid the holder sees what was last written to its block; the count of a
buffer is the number of clients at it; a block whose last contents are not on the disk is in a dirty buffer;
and the cache panics only when every buffer is referred to or dirty. -/
theorem cache_coherent (reachable : machine.ReachableBy OnDevice s) :
    (∀ i j, i < NBUF → j < NBUF → (s.buf i).dev ≠ 0 → (s.buf i).key = (s.buf j).key → i = j) ∧
      (∀ i c, c ∈ s.users i → s.stage c = .holding → (s.buf i).lock = some c ∧
        (∀ e ∈ s.users i, s.stage e = .holding → e = c) ∧
        ((s.buf i).valid = true → (s.buf i).data = s.written (s.buf i).key)) ∧
      (∀ i, (s.buf i).refcnt = (s.users i).card) ∧
      (∀ k, s.disk k ≠ s.written k →
        ∃ i < NBUF, (s.buf i).key = k ∧ (s.buf i).dirty = true ∧ (s.buf i).valid = true ∧ (s.buf i).data = s.written k) ∧
      (∀ text, s.panicked = some text →
        text = "bget: no buffers" ∧ ∀ i < NBUF, s.users i ≠ ∅ ∨ (s.buf i).dirty = true) := by
  obtain ⟨_, referred, coherent, sane⟩ := Inv.of_reachable reachable
  refine ⟨coherent.unique, fun i c member holding => ?_, referred.count, fun k stale => ?_, fun text panicked => ?_⟩
  · have locked := (referred.lock i c).mpr ⟨member, holding⟩
    refine ⟨locked, fun e member' holding' => ?_, coherent.data i (referred.inside i c member)⟩
    have locked' := (referred.lock i e).mpr ⟨member', holding'⟩
    rw [locked] at locked'
    exact (Option.some.inj locked').symm
  · by_contra none
    apply stale
    apply coherent.disk
    intro i below key
    rw [Bool.eq_false_iff]
    intro dirty
    have valid := coherent.pinned i dirty
    exact none ⟨i, below, key, dirty, valid, key ▸ coherent.data i below valid⟩
  · rw [panicked] at sane
    rcases sane with absent | ⟨same, full⟩
    · exact absurd absent (Option.some_ne_none text)
    · refine ⟨Option.some.inj same, fun i below => (full i below).imp_left fun positive => ?_⟩
      rw [referred.count, Finset.card_pos] at positive
      exact positive.ne_empty

/-- Two clients at a block, the first of which pins it in the cache, and then one at another block. -/
def session : List Action :=
  [.bget 0 1 5, .bget 1 1 5, .acquire 0 0, .fill 0 0, .logWrite 0 0 fun _ => 7, .unlock 0 0, .acquire 1 0,
    .brelse 0 0, .bwrite 1 0 fun _ => 8,
    .unlock 1 0, .brelse 1 0, .bget 2 1 6, .acquire 2 1, .fill 2 1]

theorem session_runs : ∃ s, machine.Path OnDevice (binit fun _ _ => 0) session s := by
  have success : (machine.runBy OnDevice (binit fun _ _ => 0) session).isSome = true := by
    decide +kernel
  obtain ⟨s, run⟩ := Option.isSome_iff_exists.mp success
  exact ⟨s, Machine.path_of_runBy run⟩

theorem cache_coherent_session : ∃ s, machine.ReachableBy OnDevice s ∧
    (∀ i c, c ∈ s.users i → s.stage c = .holding → (s.buf i).lock = some c ∧
      (∀ e ∈ s.users i, s.stage e = .holding → e = c) ∧
      ((s.buf i).valid = true → (s.buf i).data = s.written (s.buf i).key)) := by
  obtain ⟨s, path⟩ := session_runs
  have reachable : machine.ReachableBy OnDevice s := ⟨_, session, ⟨_, rfl⟩, path⟩
  exact ⟨s, reachable, (cache_coherent reachable).2.1⟩

/-- A step that changes one buffer and leaves it with its block. -/
theorem setBuf_key {b : Buf} {k : ℕ} (buf : t.buf = Function.update s.buf i b) (key : b.key = (s.buf i).key) :
    (t.buf k).key = (s.buf k).key := by
  rw [buf]
  rcases eq_or_ne k i with rfl | other
  · rw [Function.update_self, key]
  · rw [Function.update_of_ne other]

/-- Only the recycling in `bget` gives a buffer to another block. -/
private theorem recycled {k : ℕ} (run : act s a = some t) (changed : (t.buf k).key ≠ (s.buf k).key) : s.victim = some k := by
  cases a with
  | bget c dev blockno =>
    rw [act] at run
    split_ifs at run
    cases run
    rw [St.bget] at changed
    cases found : s.lookup dev blockno with
    | some i =>
      rw [found] at changed
      exact (changed (setBuf_key rfl rfl)).elim
    | none =>
      rw [found] at changed
      cases taken : s.victim with
      | some i =>
        rw [taken] at changed
        rcases eq_or_ne k i with rfl | other
        · rfl
        · exact (changed (congrArg Buf.key (Function.update_of_ne other _ _))).elim
      | none =>
        rw [taken] at changed
        exact (changed rfl).elim
  | acquire c i | fill c i | logWrite c i data =>
    simp only [act, St.acquire, St.fill, St.logWrite] at run
    split_ifs at run
    cases run
    exact (changed (setBuf_key rfl rfl)).elim
  | bwrite c i data | unlock c i =>
    simp only [act, St.bwrite, St.unlock] at run
    split_ifs at run
    · cases run
      exact (changed (setBuf_key rfl rfl)).elim
    · cases run
      exact (changed rfl).elim
  | brelse c i =>
    simp only [act, St.brelse] at run
    split_ifs at run
    all_goals
      cases run
      exact (changed (setBuf_key rfl rfl)).elim

/-- A buffer that some step takes from its block is one that nobody refers to, whose contents are on the
disk, and that was let go no later than any other such buffer. -/
theorem recycles_least_recently_used {k : ℕ} (reachable : machine.ReachableBy OnDevice s)
    (run : machine.step s a = some t)
    (changed : (t.buf k).key ≠ (s.buf k).key) :
    s.users k = ∅ ∧ (s.buf k).dirty = false ∧ ((s.buf k).dev ≠ 0 → s.disk (s.buf k).key = s.written (s.buf k).key) ∧
      ∀ j < NBUF, s.users j = ∅ → (s.buf j).dirty = false → s.freed k ≤ s.freed j := by
  obtain ⟨⟨l, ordered⟩, referred, coherent, _⟩ := Inv.of_reachable reachable
  have acted : act s a = some t := by
    change step s a = some t at run
    rw [step] at run
    cases sane : s.panicked with
    | none =>
      rw [sane] at run
      exact run
    | some text =>
      rw [sane] at run
      exact absurd run (Option.some_ne_none t).symm
  have taken := recycled acted changed
  obtain ⟨inside, unreferenced, clean⟩ := victim_some ordered taken
  have empty : ∀ j, (s.buf j).refcnt = 0 ↔ s.users j = ∅ := fun j => by rw [referred.count, Finset.card_eq_zero]
  exact ⟨(empty k).mp unreferenced, clean, fun live => coherent.clean inside live clean,
    fun j below nobody unchanged => victim_least ordered taken below ((empty j).mpr nobody) unchanged⟩

theorem recycles_least_recently_used_session : ∃ s t, machine.ReachableBy OnDevice s ∧
    machine.step s (.bget 3 1 9) = some t ∧
    (t.buf 2).key ≠ (s.buf 2).key ∧ ∀ j < NBUF, s.users j = ∅ → (s.buf j).dirty = false → s.freed 2 ≤ s.freed j := by
  have success : (machine.runBy OnDevice (binit fun _ _ => 0) session).any (fun s =>
    (machine.step s (.bget 3 1 9)).any fun t =>
      (t.buf 2).key ≠ (s.buf 2).key) = true := by
    decide +kernel
  obtain ⟨s, run, next⟩ := (Option.any_eq_true _ _).mp success
  obtain ⟨t, step, changed⟩ := (Option.any_eq_true _ _).mp next
  have reachable : machine.ReachableBy OnDevice s := Machine.reachableBy_of_runBy ⟨_, rfl⟩ session run
  exact ⟨s, t, reachable, step, of_decide_eq_true changed,
    (recycles_least_recently_used reachable step (of_decide_eq_true changed)).2.2.2⟩

end Cs537.Fs.Bio
