import Cs537.Wmap.Copy
import Cs537.Wmap.Resize

/-! # The copy of a call that moves a mapping

The overlap tests keep the mappings of a process apart in the user half, whatever lengths and addresses the calls
are given, and a copy that returns has stayed in the user half. So the old range of a mapping that moves belongs to
its old entry and the new one to the new entry, and the process finds at the new address the bytes that it saw at
the old one.
-/

namespace Cs537.Wmap

open Lib

/-- No user address is in both. -/
def Region.Distinct (r q : Region) : Prop := ∀ a < searchLimit, ¬ (r.contains a ∧ q.contains a)

theorem Region.Distinct.symm {r q : Region} (distinct : r.Distinct q) : q.Distinct r :=
  fun a low both => distinct a low both.symm

/-- No user address is in two of the regions. -/
def Exclusive (regions : List Region) : Prop := regions.Pairwise Region.Distinct

section Exclusive

variable {regions : List Region} {r q : Region} {a i j : ℕ} {length : ℤ}

private theorem Region.distinct_of_clear {addr : ℕ} (clear : q.overlaps addr length = false) :
    Region.Distinct ⟨addr, length⟩ q := by
  rintro a _ ⟨mine, other⟩
  simp only [overlaps, contains, decide_eq_false_iff_not, decide_eq_true_eq] at clear mine other
  simp only [limit] at mine
  omega

/-- A user address is in one region. -/
theorem Exclusive.index_unique (exclusive : Exclusive regions) (here : regions[i]? = some r)
    (there : regions[j]? = some q) (low : a < searchLimit) (mine : r.contains a) (other : q.contains a) : i = j := by
  obtain ⟨boundI, rfl⟩ := List.getElem?_eq_some_iff.mp here
  obtain ⟨boundJ, rfl⟩ := List.getElem?_eq_some_iff.mp there
  have pairs := List.pairwise_iff_getElem.mp exclusive
  rcases Nat.lt_trichotomy i j with before | same | behind
  · exact absurd ⟨mine, other⟩ (pairs i j boundI boundJ before a low)
  · exact same
  · exact absurd ⟨other, mine⟩ (pairs j i boundJ boundI behind a low)

/-- The search ends on a page boundary, clear of all regions or too high. -/
private theorem search_clear {fuel addr found : ℕ} (aligned : addr % 4096 = 0) (small : addr < 2 ^ 32)
    (done : search regions length fuel addr = some found) : found % 4096 = 0 ∧ found < 2 ^ 32 ∧
      (searchLimit < uint32 (found + length) ∨ ∀ r ∈ regions, r.overlaps found length = false) := by
  induction fuel generalizing addr with
  | zero => cases done
  | succ fuel ih =>
    rw [search] at done
    cases hit : regions.find? (·.overlaps addr length) with
    | none =>
      rw [hit] at done
      cases done
      refine ⟨aligned, small, .inr fun r member => ?_⟩
      simpa using List.find?_eq_none.mp hit r member
    | some r =>
      simp only [hit] at done
      have aligned' : pgRoundUp r.limit % 4096 = 0 := Nat.mul_mod_left ..
      have small' : pgRoundUp r.limit < 2 ^ 32 := by
        rw [pgRoundUp, uint32]
        omega
      split at done
      case isTrue tooHigh =>
        cases done
        exact ⟨aligned', small', .inl tooHigh⟩
      case isFalse => exact ih aligned' small' done

/-- The range that a call goes on with is clear of all regions. -/
theorem findAddr_clear {found : ℕ} (done : findAddr regions length = some found)
    (fits : uint32 (found + length) ≤ searchLimit) :
    found % 4096 = 0 ∧ found < 2 ^ 32 ∧ ∀ r ∈ regions, r.overlaps found length = false := by
  obtain ⟨aligned, small, result⟩ := search_clear (by decide) (by decide) done
  exact ⟨aligned, small, result.resolve_left (by omega)⟩

theorem Exclusive.cons {addr : ℕ} (exclusive : Exclusive regions)
    (clear : ∀ r ∈ regions, r.overlaps addr length = false) : Exclusive (⟨addr, length⟩ :: regions) :=
  List.pairwise_cons.mpr ⟨fun r member => Region.distinct_of_clear (clear r member), exclusive⟩

/-- A mapping that is resized in place stays apart from the others. -/
theorem Exclusive.resize (exclusive : Exclusive regions) (here : regions[i]? = some r) (small : r.addr < 2 ^ 32)
    (range : IsInt r.length) (positive : 0 < length) (stays : Running.mustMove regions i r length = false) :
    Exclusive (regions.set i { r with length := length }) := by
  refine pairwise_set Region.Distinct.symm exclusive fun j q other there a low => ?_
  rintro ⟨mine, hit⟩
  rcases le_or_gt length r.length with shrinks | grows
  · have within : r.contains a = true := by
      obtain ⟨_, _⟩ := range
      simp only [Region.contains, decide_eq_true_eq] at mine ⊢
      simp only [Region.limit, searchLimit, uint32] at mine low ⊢
      omega
    exact other (exclusive.index_unique here there low within hit).symm
  · have before := mustMove_eq_false stays grows other there
    simp only [Region.contains, decide_eq_true_eq] at mine hit
    simp only [Region.limit] at mine
    omega

end Exclusive

namespace Running

variable {s s' : Running} {act : Action}

private theorem wmap_exclusive (exclusive : Exclusive s.regions) {addr flags : ℕ} {length fd : ℤ} {result : Option ℕ}
    (done : s.wmap addr length flags fd = some (s', result)) : Exclusive s'.regions := by
  rcases wmap_spec done with ⟨_, rfl⟩ | ⟨file, frame, base, s₁, s₂, _, _, placed, dup, allocated, added, _⟩
  · exact exclusive
  · have same := (kalloc_task allocated).trans (dupFile_task dup)
    have new : s'.regions = ⟨base, length⟩ :: s.regions := by
      rw [regions_eq_cores, addMapping_cores added, List.map_cons, ← regions_eq_cores, regions,
        congrArg Task.mmaps same]
      rfl
    rw [new]
    rw [wmapAddr] at placed
    split at placed
    · split at placed
      · cases placed
      case isFalse clear =>
        cases placed
        simp only [List.any_eq_true, not_exists, not_and, Bool.not_eq_true] at clear
        exact exclusive.cons clear
    · split at placed
      · cases placed
      case h_2 found =>
        split at placed
        · cases placed
        case isFalse fits =>
          cases placed
          exact exclusive.cons (findAddr_clear found (by omega)).2.2

private theorem wunmap_exclusive (exclusive : Exclusive s.regions) {addr : ℕ} {result : Bool}
    (done : s.wunmap addr = some (s', result)) : Exclusive s'.regions := by
  rcases wunmap_spec done with ⟨_, rfl, _⟩ | ⟨me, s₁, _, _, rfl, _⟩
  · exact exclusive
  · refine exclusive.sublist ?_
    exact (List.eraseP_sublist ..).map _

private theorem wremap_exclusive (exclusive : Exclusive s.regions) {oldaddr flags : ℕ} {oldsize newsize : ℤ}
    {input : ℕ → ℕ → UInt8} (small : oldaddr < 2 ^ 32) (range : IsInt oldsize) {result : Option ℕ}
    (done : s.wremap oldaddr oldsize newsize flags input = some (s', result)) : Exclusive s'.regions := by
  rcases wremap_spec done with ⟨rfl, _⟩ | ⟨me, i, positive, found, index, moved⟩
  · exact exclusive
  obtain ⟨here, rfl, rfl⟩ := found_region found
  rw [← index] at here
  rcases moved with ⟨stays, _, rfl⟩ | ⟨newaddr, frame, s₁, _, placed, fits, allocated, moved, _⟩
  · rw [regions_resized here]
    exact exclusive.resize here small range positive stays
  · have new : s'.regions = ⟨newaddr, newsize⟩ :: s.regions.eraseIdx i := by
      rw [regions_eq_cores, moveMapping_cores moved, List.map_cons, ← List.eraseIdx_map, ← regions_eq_cores, regions,
        congrArg Task.mmaps (kalloc_task allocated)]
      rfl
    rw [new]
    refine (exclusive.cons (findAddr_clear placed fits).2.2).sublist ?_
    exact (List.eraseIdx_sublist ..).cons_cons _

private theorem step_exclusive (exclusive : Exclusive s.regions) (done : s.step act = some s') : Exclusive s'.regions := by
  obtain ⟨range, performed⟩ := Option.ite_none_right_eq_some.mp done
  cases act with
  | wmap addr length flags fd =>
    obtain ⟨⟨t, result⟩, called, rfl⟩ := Option.map_eq_some_iff.mp performed
    exact wmap_exclusive exclusive called
  | wunmap addr =>
    obtain ⟨⟨t, result⟩, called, rfl⟩ := Option.map_eq_some_iff.mp performed
    exact wunmap_exclusive exclusive called
  | wremap oldaddr oldsize newsize flags input =>
    obtain ⟨⟨t, result⟩, called, rfl⟩ := Option.map_eq_some_iff.mp performed
    exact wremap_exclusive exclusive range.1 range.2.1 called
  | load a input =>
    obtain ⟨⟨t, byte⟩, loaded, rfl⟩ := Option.map_eq_some_iff.mp performed
    rw [regions_of_cores (load_cores loaded)]
    exact exclusive
  | store a byte input =>
    rw [regions_of_cores (store_cores performed)]
    exact exclusive
  | others kernel =>
    cases performed
    exact exclusive

/-- In every run, no user address is in two mappings. -/
theorem exclusive_of_reachable (reached : wmapMachine.Reachable s) : Exclusive s.regions := by
  have start (t : Running) (blank : wmapMachine.init t) : Exclusive t.regions := by
    rw [regions, blank.1]
    exact List.Pairwise.nil
  have kept (t : Running) (act : Action) (t' : Running) (done : wmapMachine.step t act = some t')
      (exclusive : Exclusive t.regions) : Exclusive t'.regions := step_exclusive exclusive done
  exact reached.invariant start kept

section Copied

variable {t : Running} {a n src dst i : ℕ} {newsize : ℤ} {me newme : MmapEntry} {input : ℕ → ℕ → UInt8}

theorem uint32_add_zero (small : a < 2 ^ 32) : uint32 ((a : ℤ) + (0 : ℕ)) = a := by
  rw [uint32]
  omega

/-- A copy that returns has accessed no address of the kernel. -/
private theorem copyUp_user (small : src < 2 ^ 32) (small' : dst < 2 ^ 32) (done : copyUp input n dst src s = some t) :
    ∀ j < n, uint32 (src + (j : ℤ)) < searchLimit ∧ uint32 (dst + (j : ℤ)) < searchLimit := by
  induction n generalizing dst src s with
  | zero => exact fun j below => absurd below (Nat.not_lt_zero j)
  | succ n ih =>
    rw [copyUp] at done
    split at done
    · cases done
    case h_2 loaded =>
      split at done
      · cases done
      case h_2 stored =>
        obtain ⟨_, user, _⟩ := load_access loaded
        obtain ⟨_, _, _, user', _⟩ := store_access stored
        simp only [kernelPage, searchLimit] at user user' ⊢
        rintro (_ | j) below
        · rw [uint32_add_zero small, uint32_add_zero small']
          omega
        · rw [← uint32_succ_add, ← uint32_succ_add]
          exact ih (uint32_lt _) (uint32_lt _) done j (by omega)

private theorem copyDown_user (done : copyDown input n dst src s = some t) :
    ∀ j < n, uint32 (src + (j : ℤ)) < searchLimit ∧ uint32 (dst + (j : ℤ)) < searchLimit := by
  induction n generalizing s with
  | zero => exact fun j below => absurd below (Nat.not_lt_zero j)
  | succ n ih =>
    rw [copyDown] at done
    split at done
    · cases done
    case h_2 loaded =>
      split at done
      · cases done
      case h_2 stored =>
        obtain ⟨_, user, _⟩ := load_access loaded
        obtain ⟨_, _, _, user', _⟩ := store_access stored
        intro j below
        by_cases last : j = n
        · subst last
          simp only [kernelPage, searchLimit] at user user' ⊢
          omega
        · exact ih done j (by omega)

theorem memmove_user (small : src < 2 ^ 32) (small' : dst < 2 ^ 32) (done : s.memmove dst src n input = some t) :
    ∀ j < n, uint32 (src + (j : ℤ)) < searchLimit ∧ uint32 (dst + (j : ℤ)) < searchLimit := by
  rw [memmove] at done
  split at done
  · exact copyDown_user done
  · exact copyUp_user small small' done

/-- A range without an address of the kernel ends in the user half. -/
theorem range_low (small : a < 2 ^ 32) (positive : 0 < n) (user : ∀ j < n, uint32 (a + (j : ℤ)) < searchLimit) :
    a + n ≤ searchLimit := by
  have first := user 0 positive
  rw [uint32_add_zero small] at first
  by_contra high
  have last := user (searchLimit - a) (by omega)
  simp only [searchLimit] at first last
  rw [uint32] at last
  omega

end Copied

section Copied

variable {t s₁ : Running} {a i frame : ℕ} {me newme : MmapEntry} {input : ℕ → ℕ → UInt8} {byte : UInt8}

/-- A user address of a mapping is served by it. -/
theorem find_of_contains (exclusive : Exclusive s.regions) (here : s.mmaps[i]? = some me) (low : a < searchLimit)
    (inside : me.contains a) : s.mmaps.find? (·.contains a) = some me := by
  cases found : s.mmaps.find? (·.contains a) with
  | none => exact absurd inside (List.find?_eq_none.mp found me (List.mem_of_getElem? here))
  | some q =>
    obtain ⟨j, there⟩ := List.getElem?_of_mem (List.mem_of_find?_eq_some found)
    have hit := List.find?_some (p := fun x : MmapEntry => x.contains a) found
    have same := exclusive.index_unique (region_here here) (region_here there) low inside hit
    rw [← same, here] at there
    exact there.symm

/-- The state in which the copy begins: the new entry is at the head of the list. -/
def begun (s : Running) (newme : MmapEntry) : Running := { s with mmaps := newme :: s.mmaps }

section Ranges

variable {newsize : ℤ} (exclusive : Exclusive s.regions) (here : s.mmaps[i]? = some me)
  (clear : ∀ r ∈ s.regions, r.overlaps newme.addr newme.length = false) (aligned : newme.addr % 4096 = 0)
  (grows : me.length < newme.length) (moved : newme.addr ≠ me.addr) (range : IsInt me.length)
  (range' : IsInt newme.length)

include exclusive here clear aligned grows moved range range'

theorem begun_ranges (positive : 0 < uint32 me.length) (low : me.addr + uint32 me.length ≤ searchLimit)
    (low' : newme.addr + uint32 me.length ≤ searchLimit) :
    (uint32 me.length : ℤ) = me.length ∧ (s.begun newme).Ranges me newme me.addr newme.addr (uint32 me.length) := by
  simp only [searchLimit] at low low'
  obtain ⟨_, _⟩ := range
  obtain ⟨_, _⟩ := range'
  have size : (uint32 me.length : ℤ) = me.length := by
    rw [uint32] at positive low low' ⊢
    omega
  have limit : me.limit = me.addr + uint32 me.length := by
    have sum : (me.addr : ℤ) + me.length = (me.addr + uint32 me.length : ℕ) := by omega
    rw [Region.limit, sum, uint32]
    omega
  have limit' : (newme.limit : ℤ) = newme.addr + newme.length := by
    rw [Region.limit, uint32]
    omega
  have apart := clear _ (List.mem_of_getElem? (region_here here))
  simp only [Region.overlaps, decide_eq_false_iff_not] at apart
  rw [limit, ← Region.limit] at apart
  have all : Exclusive (s.begun newme).regions := exclusive.cons clear
  refine ⟨size, aligned, by omega, by omega, by omega, fun j below => ?_, fun j below => ?_⟩
  · refine serves_of_find (find_of_contains (i := i + 1) all here ?_ ?_)
    · simp only [searchLimit]
      omega
    · simp only [Region.contains, decide_eq_true_eq]
      omega
  · refine serves_of_find (find_of_contains (i := 0) all rfl ?_ ?_)
    · simp only [searchLimit]
      omega
    · simp only [Region.contains, decide_eq_true_eq]
      omega

theorem memmove_copying (small : me.addr < 2 ^ 32) (small' : newme.addr < 2 ^ 32)
    (copied : (s.begun newme).memmove newme.addr me.addr (uint32 me.length) input = some t) :
    (uint32 me.length : ℤ) = me.length ∧
      Copying (s.begun newme) me input me.addr newme.addr (uint32 me.length) (uint32 me.length) t := by
  rcases Nat.eq_zero_or_pos (uint32 me.length) with empty | positive
  · rw [empty] at copied ⊢
    have same : t = s.begun newme := by
      rw [memmove] at copied
      split at copied <;> exact (Option.some.inj copied).symm
    subst same
    refine ⟨?_, .refl _ _ _ _ _ _⟩
    obtain ⟨_, _⟩ := range
    rw [uint32] at empty
    omega
  · have user := memmove_user small small' copied
    have low := range_low small positive fun j below => (user j below).1
    have low' := range_low small' positive fun j below => (user j below).2
    obtain ⟨size, ranges⟩ := begun_ranges exclusive here clear aligned grows moved range range' positive low low'
    refine ⟨size, ?_⟩
    have apart := ranges.apart
    rw [memmove, if_neg] at copied
    · exact (Copying.refl ..).copyUp ranges (Nat.zero_add _) copied
    · simp only [searchLimit] at low
      rintro ⟨before, behind⟩
      rw [uint32] at behind
      omega

end Ranges

/-- The value that a load at an address delivers. -/
def Sees (s : Running) (a : ℕ) (input : ℕ → ℕ → UInt8) (byte : UInt8) : Prop := ∃ t, s.load a input = some (t, byte)

theorem sees_of_present {page : Page} (user : a / 4096 < kernelPage) (present : s.page (a / 4096) = some page) :
    s.Sees a input (page.data (a % 4096)) := by
  refine ⟨s, ?_⟩
  rw [load, if_neg (Nat.not_le.mpr user), present]

private theorem walkAlloc_of_free (v : ℕ) (free : s.free ≠ []) : ∃ s', s.walkAlloc v = some s' := by
  obtain ⟨first, rest, free⟩ := List.exists_cons_of_ne_nil free
  rw [walkAlloc, kalloc, Kernel.kalloc, free]
  split <;> exact ⟨_, rfl⟩

/-- What a fault brings is what is visible, as long as there are pages for it and for a page table. -/
private theorem sees_of_seen (found : s.mmaps.find? (·.contains a) = some me) (user : a / 4096 < kernelPage)
    (allocated : s.kalloc = some (frame, s₁)) (left : s.page (a / 4096) = none → s₁.free ≠ [])
    (seen : s.seen me a input = some byte) : s.Sees a input byte := by
  cases present : s.page (a / 4096) with
  | some page =>
    rw [seen_of_present present] at seen
    cases seen
    exact sees_of_present user present
  | none =>
    rw [Running.seen, present] at seen
    obtain ⟨data, brought, rfl⟩ := Option.map_eq_some_iff.mp seen
    rw [← brings_congr (kalloc_free allocated).2, brings, ← fill_page] at brought
    obtain ⟨⟨s₂, data⟩, filled, rfl⟩ := Option.map_eq_some_iff.mp brought
    have free : s₂.free ≠ [] := by
      rw [(fill_files filled).2]
      exact left present
    obtain ⟨s₃, walked⟩ := walkAlloc_of_free (a / 4096) free
    have page : s₃.page = s.page := by
      rw [(walkAlloc_page walked).2, congrArg Task.page (fill_task filled).1, congrArg Task.page (kalloc_task allocated)]
    have clear : ¬ (isKernel (a / 4096) ∨ (s₃.page (a / 4096)).isSome) := by
      rw [page, present]
      simpa using isKernel_of_lt user
    refine ⟨(s₃.setPage (a / 4096) (some ⟨data, true, frame⟩)).countPage (s₃.mmaps.findIdx (·.contains a)), ?_⟩
    rw [load, if_neg (Nat.not_le.mpr user), present]
    simp only [fault, found, allocated, filled, walked, if_neg clear, countPage, setPage, Function.update_self,
      Option.map_some]

end Copied

section Moved

variable {oldaddr flags newaddr i : ℕ} {oldsize newsize : ℤ} {me : MmapEntry} {input : ℕ → ℕ → UInt8}

/-- The entry that a mapping gets at a new address. -/
def newEntry (me : MmapEntry) (frame newaddr : ℕ) (newsize : ℤ) : MmapEntry :=
  { me with addr := newaddr, length := newsize, frame := frame }

/-- The way of a call that moves a mapping: a page for the new entry, the copy, and the write-back of a mapping
that is shared. -/
structure Moving (s : Running) (i : ℕ) (me : MmapEntry) (newaddr : ℕ) (newsize : ℤ) (input : ℕ → ℕ → UInt8)
    (frame : ℕ) (s₁ t u s' : Running) : Prop where
  moves : mustMove s.regions i me.toRegion newsize = true
  searched : findAddr s.regions newsize = some newaddr
  fits : ¬ uint32 (newaddr + newsize) > searchLimit
  allocated : s.kalloc = some (frame, s₁)
  size : (uint32 me.length : ℤ) = me.length
  copied : (s₁.begun (newEntry me frame newaddr newsize)).memmove newaddr me.addr (uint32 me.length) input = some t
  copying : Copying (s₁.begun (newEntry me frame newaddr newsize)) me input me.addr newaddr (uint32 me.length)
    (uint32 me.length) t
  flushed : (if isPrivate me.flags = false ∧ isShared me.flags then t.forPages ⟨0, newsize⟩ (writeLowPage me newsize)
    else some t) = some u
  task : s' = { u with mmaps := u.mmaps.eraseIdx (i + 1) }.kfree me.frame

theorem wremap_moving (exclusive : Exclusive s.regions) (small : oldaddr < 2 ^ 32) (range : IsInt oldsize)
    (range' : IsInt newsize) (target : s.Target oldaddr oldsize i me)
    (done : s.wremap oldaddr oldsize newsize flags input = some (s', some newaddr)) (moved : newaddr ≠ oldaddr) :
    ∃ frame s₁ t u, Moving s i me newaddr newsize input frame s₁ t u s' := by
  obtain ⟨rfl, rfl⟩ := target.asked
  rcases wremap_spec done with ⟨_, wrong | wrong⟩ | ⟨q, j, _, found, index, ⟨_, wrong, _⟩ | placed⟩
  · cases wrong
  · exact absurd (Option.some.inj wrong) moved
  · exact absurd (Option.some.inj wrong) moved
  · cases found.symm.trans target.found
    obtain rfl := index.trans target.index.symm
    obtain ⟨newaddr, frame, s₁, moves, searched, fits, allocated, called, same⟩ := placed
    cases same
    refine ⟨frame, s₁, ?_⟩
    have regions : s₁.regions = s.regions := by
      rw [Running.regions, congrArg Task.mmaps (kalloc_task allocated), Running.regions]
    have here : s₁.mmaps[j]? = some me := by
      rw [congrArg Task.mmaps (kalloc_task allocated)]
      exact target.here
    obtain ⟨aligned, small', clear⟩ := findAddr_clear searched fits
    have grows : me.length < newsize := by
      simp only [mustMove, decide_eq_true_eq] at moves
      exact moves.1
    rw [moveMapping] at called
    split at called
    · cases called
    case h_2 t copied =>
      split at called
      · cases called
      case h_2 u flushed =>
        cases called
        rw [← regions] at exclusive clear
        obtain ⟨size, copying⟩ := memmove_copying exclusive here clear aligned
          grows moved range range' small small' copied
        exact ⟨t, u, moves, searched, Nat.not_lt.mpr fits, allocated, size, copied, copying, flushed, rfl⟩

variable {frame : ℕ} {s₁ t u : Running}

theorem Moving.seen (moving : Moving s i me newaddr newsize input frame s₁ t u s') (b : ℕ) :
    (s₁.begun (newEntry me frame newaddr newsize)).seen me b input = s.seen me b input := by
  have page : s₁.page = s.page := congrArg Task.page (kalloc_task moving.allocated)
  obtain ⟨inode, file⟩ := (kalloc_free moving.allocated).2
  exact seen_congr (congrFun page _) ⟨inode, file⟩

/-- The bytes of the old range that the process sees before the call are in pages of the new one. -/
theorem Moving.bytes (moving : Moving s i me newaddr newsize input frame s₁ t u s') (exclusive : Exclusive s.regions)
    (here : s.mmaps[i]? = some me) (small : me.addr < 2 ^ 32) (small' : newaddr < 2 ^ 32) {k : ℕ}
    (inside : k < me.length) : ∃ page, t.page ((newaddr + k) / 4096) = some page ∧ (newaddr + k) / 4096 < kernelPage ∧
      s.Sees (me.addr + k) input (page.data ((newaddr + k) % 4096)) := by
  have size := moving.size
  have below : k < uint32 me.length := by omega
  have user := memmove_user small small' moving.copied
  have low := range_low small (by omega) fun j below => (user j below).1
  have low' := range_low small' (by omega) fun j below => (user j below).2
  obtain ⟨page, present, seen⟩ := moving.copying.copied k below
  rw [moving.seen] at seen
  simp only [searchLimit] at low low'
  refine ⟨page, present, ?_, ?_⟩
  · simp only [kernelPage]
    omega
  · have found : s.mmaps.find? (·.contains (me.addr + k)) = some me := by
      refine find_of_contains exclusive here ?_ ?_
      · simp only [searchLimit]
        omega
      · have sum : (me.addr : ℤ) + me.length = (me.addr + uint32 me.length : ℕ) := by omega
        simp only [Region.contains, decide_eq_true_eq]
        rw [Region.limit, sum, uint32]
        omega
    refine sees_of_seen found ?_ moving.allocated (fun absent => ?_) seen
    · simp only [kernelPage]
      omega
    · have touched : Touched me.addr newaddr (uint32 me.length) ((me.addr + k) / 4096) := ⟨k, below, .inl rfl⟩
      obtain ⟨brought, there⟩ := Option.isSome_iff_exists.mp (moving.copying.there _ touched)
      have before : (s₁.begun (newEntry me frame newaddr newsize)).page ((me.addr + k) / 4096) = none := by
        rw [← absent]
        exact congrFun (congrArg Task.page (kalloc_task moving.allocated)) _
      exact (moving.copying.fresh _ brought before there).2.1

end Moved

end Running

end Cs537.Wmap
