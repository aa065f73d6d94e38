import Cs537.Wmap.Search
import Mathlib.Data.List.Count

/-! # What `sys_wremap` leaves of the other mappings

The copy of a move faults on pages of the old range and of the new one, and each fault counts a page of the
first entry that holds the address. While the mappings share no address this is the old entry or the new
one, so that every other entry stays in the list, once, with all its fields and in its place among the
others.
-/

namespace Cs537.Wmap

open Lib

namespace Running

variable {s s' : Running} {a n k : ℕ} {value : UInt8} {input : ℕ → ℕ → UInt8}

/-- The position of the entry that a fault at an address uses. -/
def holder (s : Running) (a : ℕ) : ℕ := s.regions.findIdx (·.contains a)

private theorem holder_of_cores (same : s'.cores = s.cores) : s'.holder = s.holder := by
  funext b
  rw [holder, holder, regions_of_cores same]

private theorem holder_contains {q : Region} (here : s.regions[s.holder a]? = some q) : q.contains a = true := by
  rw [holder, ← List.find?_eq_getElem?_findIdx] at here
  have holds := List.find?_some here
  exact holds

/-- A fault changes no entry but the one that it uses. -/
theorem fault_others {from_ : ℕ → UInt8} (done : s.fault a from_ = some s') (other : s.holder a ≠ k) :
    s'.mmaps[k]? = s.mmaps[k]? := by
  obtain ⟨me, frame, data, s₁, s₂, s₃, _, allocated, filled, walked, _, _, rfl⟩ := fault_cases done
  have same : s₃.mmaps = s.mmaps := by
    rw [(walkAlloc_page walked).1, congrArg Task.mmaps (fill_task filled).1, congrArg Task.mmaps (kalloc_task allocated)]
  have holder : s₃.mmaps.findIdx (·.contains a) = s.holder a := by
    rw [same, Running.holder, regions, List.findIdx_map]
    rfl
  rw [countPage, holder]
  simp only [setPage, same, List.getElem?_modify, if_neg other]
  exact id_map _

private theorem load_others (done : s.load a input = some (s', value)) (other : s.holder a ≠ k) : s'.mmaps[k]? = s.mmaps[k]? := by
  rw [load] at done
  split at done
  · cases done
  · split at done
    · cases done
      rfl
    · split at done
      · cases done
      case h_2 handled =>
        obtain ⟨_, _, pair⟩ := Option.map_eq_some_iff.mp done
        cases pair
        exact fault_others handled other

private theorem store_others (done : s.store a value input = some s') (other : s.holder a ≠ k) : s'.mmaps[k]? = s.mmaps[k]? := by
  rw [store] at done
  split at done
  · cases done
  · split at done
    · rw [poke_mmaps done]
    · split at done
      · cases done
      case h_2 handled => rw [poke_mmaps done, fault_others handled other]

/-- The copy changes no entry that holds none of its addresses. -/
private theorem copyUp_others {dst src : ℕ} (low : src + n < 2 ^ 32) (low' : dst + n < 2 ^ 32)
    (other : ∀ b, (src ≤ b ∧ b < src + n) ∨ (dst ≤ b ∧ b < dst + n) → s.holder b ≠ k)
    (done : copyUp input n dst src s = some s') : s'.mmaps[k]? = s.mmaps[k]? := by
  induction n generalizing s dst src with
  | zero =>
    cases done
    rfl
  | succ n ih =>
    rw [copyUp] at done
    split at done
    · cases done
    case h_2 s₁ value loaded =>
      split at done
      · cases done
      case h_2 s₂ stored =>
        have same := holder_of_cores (load_cores loaded)
        have same' := holder_of_cores (store_cores stored)
        have next : uint32 ((dst : ℤ) + 1) = dst + 1 := by
          rw [uint32]
          omega
        have next' : uint32 ((src : ℤ) + 1) = src + 1 := by
          rw [uint32]
          omega
        rw [next, next'] at done
        rw [ih (by omega) (by omega) (fun b inside => ?_) done]
        · rw [store_others stored, load_others loaded (other src (by omega))]
          rw [same]
          exact other dst (by omega)
        · rw [same', same]
          exact other b (by omega)

end Running

section Lists

variable {α : Type*} {xs ys : List α} {i : ℕ}

/-- Lists that agree but for one position are the same without it. -/
theorem eraseIdx_eq_of_getElem? (same : ∀ k, k ≠ i → xs[k]? = ys[k]?) : xs.eraseIdx i = ys.eraseIdx i := by
  apply List.ext_getElem?
  intro j
  rw [List.getElem?_eraseIdx, List.getElem?_eraseIdx]
  split
  · exact same j (by omega)
  · exact same (j + 1) (by omega)

/-- An entry that a filter drops can be erased before. -/
private theorem filter_sublist_eraseIdx {p : α → Bool} (drops : ∀ x, xs[i]? = some x → p x = false) :
    (xs.filter p).Sublist (xs.eraseIdx i) := by
  induction xs generalizing i with
  | nil => exact List.Sublist.refl []
  | cons x rest ih =>
    cases i with
    | zero =>
      rw [List.filter_cons, drops x rfl]
      exact List.filter_sublist
    | succ i =>
      have tail := ih (i := i) drops
      rw [List.filter_cons, List.eraseIdx_cons_succ]
      split
      · exact tail.cons_cons x
      · exact tail.cons x

end Lists

section Regions

variable {regions : List Region} {i : ℕ} {r : Region}

/-- A region gets a new length and stays clear of the others. -/
theorem LaidOut.resize (laid : LaidOut regions) {length : ℤ}
    (clear : ∀ j q, j ≠ i → regions[j]? = some q → Region.Separate { r with length := length } q) :
    (regions.set i { r with length := length }).Pairwise Region.Separate :=
  pairwise_set Region.Separate.symm laid.separate clear

end Regions

namespace Running

variable {s s' : Running} {oldaddr flags newaddr i : ℕ} {oldsize newsize : ℤ} {input : ℕ → ℕ → UInt8} {me : MmapEntry}

/-- The entries after a move: a new one at the head, and the old ones but for the one that was moved. -/
private theorem moveMapping_others {frame : ℕ} (laid : LaidOut s.regions) (here : s.regions[i]? = some me.toRegion)
    (grows : me.length < newsize) (high : newaddr + newsize ≤ searchLimit)
    (clear : ∀ r ∈ s.regions, Region.Separate ⟨newaddr, newsize⟩ r)
    (done : s.moveMapping i me frame newaddr newsize input = some s') :
    s'.mmaps.length = s.mmaps.length ∧ s'.mmaps.eraseIdx 0 = s.mmaps.eraseIdx i := by
  have old := laid.inside _ (List.mem_of_getElem? here)
  have positive := old.positive
  have top := old.high
  have mine := clear _ (List.mem_of_getElem? here)
  simp only [searchLimit, Region.Separate] at high top mine
  have size : (uint32 me.length : ℤ) = me.length := by
    rw [uint32]
    omega
  simp only [moveMapping] at done
  split at done
  · cases done
  case h_2 s₁ copied =>
    split at done
    · cases done
    case h_2 s₂ written =>
      cases done
      have same : s₂.mmaps = s₁.mmaps := by
        split at written
        · exact forPages_mmaps (fun _ _ _ => writeLowPage_mmaps) written
        · cases written
          rfl
      have entries := memmove_cores copied
      rw [memmove, if_neg] at copied
      case hnc =>
        have exact : uint32 ((me.addr : ℤ) + (uint32 me.length : ℕ)) = me.addr + uint32 me.length := by
          rw [uint32]
          omega
        rw [exact]
        omega
      obtain ⟨head, rest, mmaps, _, tail⟩ := List.map_eq_cons_iff.mp entries
      have length : rest.length = s.mmaps.length := by
        have := congrArg List.length tail
        simpa using this
      -- An access of the copy is inside the new range or the old one, and no other mapping is there.
      have others (k : ℕ) (other : k ≠ i) : rest[k]? = s.mmaps[k]? := by
        rcases lt_or_ge k s.mmaps.length with within | beyond
        · have there : s.regions[k]? = some s.mmaps[k].toRegion := by
            rw [regions, List.getElem?_map, List.getElem?_eq_getElem within]
            rfl
          have inside := laid.inside _ (List.mem_of_getElem? there)
          have limit := inside.limit_eq
          have fromNew := clear _ (List.mem_of_getElem? there)
          have fromOld := laid.separate_of_ne other here there
          simp only [Region.Separate] at fromNew fromOld
          have kept := copyUp_others (k := k + 1) (by omega) (by omega) (fun b touched hit => ?_) copied
          · rw [mmaps] at kept
            exact kept
          · have holds : s.mmaps[k].contains b = true := by
              apply holder_contains
              rw [hit]
              exact there
            simp only [Region.contains, decide_eq_true_eq] at holds
            omega
        · rw [List.getElem?_eq_none (by omega), List.getElem?_eq_none (by omega)]
      have after : s₂.mmaps.eraseIdx (i + 1) = head :: s.mmaps.eraseIdx i := by
        rw [same, mmaps, List.eraseIdx_cons_succ, eraseIdx_eq_of_getElem? others]
      have bound := (List.getElem?_eq_some_iff.mp here).1
      rw [regions, List.length_map] at bound
      simp only [kfree, after]
      refine ⟨?_, rfl⟩
      rw [List.length_cons, List.length_eraseIdx_of_lt bound]
      omega

/-- Entries that share no address are all different. -/
theorem nodup_of_separate (positive : ∀ me ∈ s.mmaps, 0 < me.length) (separate : s.regions.Pairwise Region.Separate) :
    s.mmaps.Nodup := by
  rw [regions, List.pairwise_map] at separate
  refine separate.imp_of_mem fun {me other} member _ apart => ?_
  rintro rfl
  have := positive me member
  simp only [Region.Separate] at apart
  omega

/-- The mappings that `sys_wremap` was not asked for are in the list as they were, once and in order. -/
structure OthersKept (s s' : Running) (oldaddr : ℕ) (oldsize : ℤ) : Prop where
  separate : s'.regions.Pairwise Region.Separate
  length : s'.mmaps.length = s.mmaps.length
  order : (s.mmaps.filter fun me => ¬ (me.addr = oldaddr ∧ me.length = oldsize)).Sublist s'.mmaps
  once : ∀ me ∈ s.mmaps, ¬ (me.addr = oldaddr ∧ me.length = oldsize) → s'.mmaps.count me = 1

/-- One entry in place of the one that the call was asked for. -/
theorem OthersKept.of_eraseIdx {k : ℕ} (asked : me.addr = oldaddr ∧ me.length = oldsize) (here : s.mmaps[i]? = some me)
    (separate : s'.regions.Pairwise Region.Separate) (positive : ∀ me ∈ s'.mmaps, 0 < me.length)
    (length : s'.mmaps.length = s.mmaps.length) (same : s'.mmaps.eraseIdx k = s.mmaps.eraseIdx i) :
    OthersKept s s' oldaddr oldsize := by
  have order : (s.mmaps.filter fun me => ¬ (me.addr = oldaddr ∧ me.length = oldsize)).Sublist s'.mmaps := by
    refine (filter_sublist_eraseIdx (i := i) fun x there => ?_).trans (same ▸ List.eraseIdx_sublist ..)
    cases here.symm.trans there
    simpa using asked
  refine ⟨separate, length, order, fun other member differs => ?_⟩
  refine List.count_eq_one_of_mem (nodup_of_separate positive separate) (order.subset ?_)
  exact List.mem_filter.mpr ⟨member, decide_eq_true differs⟩

end Running

open Running in
/-- Whatever `sys_wremap` does when it returns, the mappings share no address, and all but the one it was asked
for are where they were. -/
theorem wremap_keeps_others {s s' : Running} (laid : LaidOut s.regions) {oldaddr flags : ℕ} {oldsize newsize : ℤ}
    (range : IsInt newsize) {input : ℕ → ℕ → UInt8} {result : Option ℕ}
    (done : s.wremap oldaddr oldsize newsize flags input = some (s', result)) : OthersKept s s' oldaddr oldsize := by
  have lengths : ∀ me ∈ s.mmaps, 0 < me.length := fun me member =>
    (laid.inside me.toRegion (List.mem_map_of_mem member)).positive
  rcases wremap_spec done with ⟨rfl, _⟩ | ⟨me, i, positive, found, index, moved⟩
  · refine ⟨laid.separate, rfl, List.filter_sublist, fun me member _ => ?_⟩
    exact List.count_eq_one_of_mem (nodup_of_separate lengths laid.separate) member
  obtain ⟨region, asked⟩ := found_region found
  rw [← index] at region
  have here : s.mmaps[i]? = some me := by
    rw [index, ← List.find?_eq_getElem?_findIdx, found]
  have old := laid.inside _ (List.mem_of_getElem? region)
  have top := old.high
  have positive' := old.positive
  obtain ⟨_, small⟩ := range
  rcases moved with ⟨stays, _, rfl⟩ | ⟨newaddr, frame, s₁, moves, searched, fits, allocated, moved, _⟩
  · refine .of_eraseIdx (k := i) asked here ?_ ?_ ?_ ?_
    · rw [regions_resized region]
      refine laid.resize fun j q other there => ?_
      have separate := laid.separate_of_ne other region there
      rcases le_or_gt newsize me.length with shrinks | grows
      · simp only [Region.Separate] at separate ⊢
        omega
      · have before := mustMove_eq_false stays grows other there
        simp only [searchLimit] at top
        rw [uint32] at before
        left
        simp only
        omega
    · intro other member
      obtain ⟨j, there⟩ := List.mem_iff_getElem?.mp member
      rw [List.getElem?_modify] at there
      obtain ⟨q, old, rfl⟩ := Option.map_eq_some_iff.mp there
      split
      · exact positive
      · exact lengths q (List.mem_of_getElem? old)
    · exact List.length_modify ..
    · exact List.eraseIdx_modify_of_eq ..
  · have same := congrArg Task.mmaps (kalloc_task allocated)
    have regions' : s₁.regions = s.regions := by
      rw [regions, regions, same]
    obtain ⟨found', searched', search⟩ := findAddr_result laid.inside positive ⟨by omega, small⟩
    cases searched.symm.trans searched'
    have high : newaddr + newsize ≤ searchLimit := by
      have := search.high
      simp only [searchLimit] at this fits ⊢
      rw [uint32] at fits
      omega
    have clear := search.stops.resolve_left (by omega)
    have grows : me.length < newsize := by
      simp only [mustMove, decide_eq_true_eq] at moves
      exact moves.1
    obtain ⟨length, rest⟩ := moveMapping_others (s := s₁) (by rwa [regions']) (by rwa [regions']) grows high
      (by rwa [regions']) moved
    have entries : s'.regions = ⟨newaddr, newsize⟩ :: s.regions.eraseIdx i := by
      rw [regions_eq_cores, moveMapping_cores moved, List.map_cons, ← List.eraseIdx_map, ← regions_eq_cores, regions']
      rfl
    rw [same] at length rest
    refine .of_eraseIdx (k := 0) asked here ?_ ?_ length rest
    · rw [entries]
      refine List.pairwise_cons.mpr ⟨fun r member => ?_, ?_⟩
      · exact clear r ((List.eraseIdx_sublist ..).subset member)
      · exact laid.separate.sublist (List.eraseIdx_sublist ..)
    · intro other member
      have region' : other.toRegion ∈ s'.regions := List.mem_map_of_mem member
      rw [entries] at region'
      rcases List.mem_cons.mp region' with head | tail
      · rw [head]
        exact positive
      · exact (laid.inside _ ((List.eraseIdx_sublist ..).subset tail)).positive

/-- The last mapping of the list moves, and the two before it stay. -/
theorem wremap_keeps_others_gap : ∃ s', gapProcess.wremap 0x60003000 100 9000 1 (fun _ _ => 0) =
    some (s', some 0x60007000) ∧ Running.OthersKept gapProcess s' 0x60003000 100 := by
  have run : (gapProcess.wremap 0x60003000 100 9000 1 fun _ _ => 0).map (·.2) = some (some 0x60007000) := by
    decide +kernel
  obtain ⟨⟨s', result⟩, done, rfl⟩ := Option.map_eq_some_iff.mp run
  exact ⟨s', done, wremap_keeps_others gapProcess_laidOut (by decide) done⟩

end Cs537.Wmap
