import Cs537.Wmap.Placement
import Mathlib.Order.Bounds.Basic
import Mathlib.Data.Finset.Card

/-! # The address search

`sys_wmap` and `sys_wremap` start at `0x60000000`, and after a collision go on at the next page behind the
mapping they met, from the head of the list again. Every round leaves one mapping less that ends above the
address, so that the search ends; no page that a round skips begins a range that fits, so that it ends at
the lowest address of all.
-/

namespace Cs537.Wmap

open Lib

/-- Not empty and inside the area of mappings. -/
structure Region.Inside (r : Region) : Prop where
  positive : 0 < r.length
  low : searchBase ≤ r.addr
  high : r.addr + r.length ≤ searchLimit

theorem Region.Placed.inside {r : Region} (placed : r.Placed) : r.Inside := ⟨placed.positive, placed.low, placed.high⟩

/-- No address is in both. -/
def Region.Separate (r q : Region) : Prop := r.addr + r.length ≤ q.addr ∨ q.addr + q.length ≤ r.addr

theorem Region.Separate.symm {r q : Region} (separate : r.Separate q) : q.Separate r := Or.symm separate

/-- All regions are inside the area, and no two share an address. -/
structure LaidOut (regions : List Region) : Prop where
  inside : ∀ r ∈ regions, r.Inside
  separate : regions.Pairwise Region.Separate

theorem LaidOut.separate_of_ne {regions : List Region} (laid : LaidOut regions) {i j : ℕ} {r q : Region} (other : j ≠ i)
    (here : regions[i]? = some r) (there : regions[j]? = some q) : r.Separate q := by
  have pairs := List.pairwise_iff_getElem.mp laid.separate
  obtain ⟨boundI, rfl⟩ := List.getElem?_eq_some_iff.mp here
  obtain ⟨boundJ, rfl⟩ := List.getElem?_eq_some_iff.mp there
  rcases Nat.lt_or_gt_of_ne other with less | more
  · exact (pairs j i boundJ boundI less).symm
  · exact pairs i j boundI boundJ more

/-- A region is known by its address. -/
theorem LaidOut.index_unique {regions : List Region} (laid : LaidOut regions) {i j : ℕ} {r q : Region}
    (here : regions[i]? = some r) (there : regions[j]? = some q) (same : r.addr = q.addr) : j = i := by
  by_contra other
  have first := (laid.inside r (List.mem_of_getElem? here)).positive
  have second := (laid.inside q (List.mem_of_getElem? there)).positive
  have separate := laid.separate_of_ne other here there
  simp only [Region.Separate] at separate
  omega

/-- A range that begins on a page boundary of the area of mappings, ends inside it and meets no mapping. -/
structure Fits (regions : List Region) (length : ℤ) (a : ℕ) : Prop where
  aligned : a % 4096 = 0
  low : searchBase ≤ a
  high : a + length ≤ searchLimit
  clear : ∀ r ∈ regions, Region.Separate ⟨a, length⟩ r

/-- The lowest address that fits, or none when nothing fits. -/
def Lowest (regions : List Region) (length : ℤ) : Option ℕ → Prop
  | some a => IsLeast {a | Fits regions length a} a
  | none => ∀ a, ¬ Fits regions length a

section Search

variable {regions : List Region} {length : ℤ} {addr a : ℕ} {r : Region}

theorem Region.Inside.limit_eq (inside : r.Inside) : (r.limit : ℤ) = r.addr + r.length := by
  have positive := inside.positive
  have high := inside.high
  simp only [searchLimit] at high
  rw [limit, uint32]
  omega

/-- The overlap test is exact on ranges that begin inside the area. -/
theorem Region.Inside.overlaps_eq_false_iff (inside : r.Inside) (positive : 0 < length) (range : IsInt length)
    (high : a ≤ searchLimit) : r.overlaps a length = false ↔ Region.Separate ⟨a, length⟩ r := by
  have limit := inside.limit_eq
  obtain ⟨_, small⟩ := range
  have exact : (uint32 (a + length) : ℤ) = a + length := by
    simp only [searchLimit] at high
    rw [uint32]
    omega
  simp only [overlaps, Separate, decide_eq_false_iff_not, not_and, gt_iff_lt]
  omega

/-- The mappings that end above an address. -/
def endAbove (regions : List Region) (addr : ℕ) : Finset Region := regions.toFinset.filter (addr < ·.limit)

private theorem card_endAbove_le (regions : List Region) (addr : ℕ) : (endAbove regions addr).card ≤ regions.length :=
  (Finset.card_filter_le ..).trans (List.toFinset_card_le regions)

/-- An address that passes the end of a mapping has one less above it. -/
private theorem card_endAbove_lt {next : ℕ} (member : r ∈ regions) (before : addr < r.limit) (passes : r.limit ≤ next) :
    (endAbove regions next).card < (endAbove regions addr).card := by
  apply Finset.card_lt_card
  rw [Finset.ssubset_iff_of_subset]
  · refine ⟨r, Finset.mem_filter.mpr ⟨List.mem_toFinset.mpr member, before⟩, fun above => ?_⟩
    have := (Finset.mem_filter.mp above).2
    omega
  · intro q above
    obtain ⟨listed, later⟩ := Finset.mem_filter.mp above
    exact Finset.mem_filter.mpr ⟨listed, by omega⟩

/-- No range fits that begins on a page the search skips after a collision. -/
private theorem not_fits_of_skipped (inside : r.Inside) (member : r ∈ regions) (meets : addr + length > r.addr)
    (skipped : addr ≤ a) (below : a < pgRoundUp r.limit) : ¬ Fits regions length a := by
  intro fits
  have limit := inside.limit_eq
  have high := inside.high
  have aligned := fits.aligned
  have clear := fits.clear r member
  simp only [Region.Separate] at clear
  have rounded : pgRoundUp r.limit = (r.limit + 4095) / 4096 * 4096 := by
    simp only [searchLimit] at high
    rw [pgRoundUp, uint32]
    omega
  omega

/-- What the search returns: nothing below it fits, and it is clear of all mappings or too high. -/
structure SearchResult (regions : List Region) (length : ℤ) (found : ℕ) : Prop where
  aligned : found % 4096 = 0
  low : searchBase ≤ found
  high : found ≤ searchLimit
  least : ∀ a < found, ¬ Fits regions length a
  stops : (searchLimit : ℤ) < found + length ∨ ∀ r ∈ regions, Region.Separate ⟨found, length⟩ r

private theorem search_result (inside : ∀ r ∈ regions, r.Inside) (positive : 0 < length) (range : IsInt length) {fuel : ℕ}
    (aligned : addr % 4096 = 0) (low : searchBase ≤ addr) (high : addr ≤ searchLimit)
    (least : ∀ a < addr, ¬ Fits regions length a) (enough : (endAbove regions addr).card < fuel) :
    ∃ found, search regions length fuel addr = some found ∧ SearchResult regions length found := by
  induction fuel generalizing addr with
  | zero => omega
  | succ fuel ih =>
    rw [search]
    cases hit : regions.find? (·.overlaps addr length) with
    | none =>
      refine ⟨addr, rfl, aligned, low, high, least, .inr fun r member => ?_⟩
      have clear := List.find?_eq_none.mp hit r member
      exact ((inside r member).overlaps_eq_false_iff positive range high).mp (by simpa using clear)
    | some r =>
      have member := List.mem_of_find?_eq_some hit
      have limit := (inside r member).limit_eq
      have meets : ¬ Region.Separate ⟨addr, length⟩ r := by
        rw [← (inside r member).overlaps_eq_false_iff positive range high, List.find?_some hit]
        decide
      simp only [Region.Separate, not_or] at meets
      have before : addr < r.limit := by omega
      have top := (inside r member).high
      obtain ⟨passes, aligned', high'⟩ := pgRoundUp_eq (show r.limit ≤ searchLimit by omega)
      have low' : searchBase ≤ pgRoundUp r.limit := by omega
      have least' : ∀ a < pgRoundUp r.limit, ¬ Fits regions length a := by
        intro a below
        rcases Nat.lt_or_ge a addr with earlier | skipped
        · exact least a earlier
        · exact not_fits_of_skipped (inside r member) member (by omega) skipped below
      simp only
      split
      case isTrue tooHigh =>
        refine ⟨_, rfl, aligned', low', high', least', .inl ?_⟩
        obtain ⟨_, small⟩ := range
        simp only [searchLimit] at high' tooHigh ⊢
        rw [uint32] at tooHigh
        omega
      case isFalse =>
        have fewer := card_endAbove_lt member before passes
        exact ih aligned' low' high' least' (by omega)

theorem findAddr_result (inside : ∀ r ∈ regions, r.Inside) (positive : 0 < length) (range : IsInt length) :
    ∃ found, findAddr regions length = some found ∧ SearchResult regions length found := by
  have aligned : searchBase % 4096 = 0 := by decide
  have high : searchBase ≤ searchLimit := by decide
  have count := card_endAbove_le regions searchBase
  refine search_result inside positive range aligned le_rfl high (fun a below fits => ?_) (by omega)
  have low := fits.low
  omega

/-- With the test that follows it, the search returns the lowest address that fits. -/
theorem SearchResult.lowest {found : ℕ} (result : SearchResult regions length found) (positive : 0 < length)
    (range : IsInt length) :
    Lowest regions length (if uint32 (found + length) > searchLimit then none else some found) := by
  have high := result.high
  have exact : (uint32 (found + length) : ℤ) = found + length := by
    obtain ⟨_, small⟩ := range
    simp only [searchLimit] at high
    rw [uint32]
    omega
  split
  case isTrue tooHigh =>
    intro a fits
    rcases Nat.lt_or_ge a found with below | above
    · exact result.least a below fits
    · have := fits.high
      omega
  case isFalse within =>
    have clear := result.stops.resolve_left (by omega)
    refine ⟨⟨result.aligned, result.low, by omega, clear⟩, fun a fits => ?_⟩
    by_contra below
    exact result.least a (by omega) fits

end Search

/-- For mappings inside the area, in any order, the search of both calls ends, and `sys_wmap` goes on with the
lowest address that fits and fails here only if there is none. -/
theorem lowest_address {s : Running} (inside : ∀ r ∈ s.regions, r.Inside) {length : ℤ} (positive : 0 < length)
    (range : IsInt length) {flags : ℕ} (searches : isFixed flags = false) (addr : ℕ) :
    (∃ result, s.wmapAddr addr length flags = some result ∧ Lowest s.regions length result) ∧
      ∃ found, findAddr s.regions length = some found ∧
        Lowest s.regions length (if uint32 (found + length) > searchLimit then none else some found) := by
  obtain ⟨found, done, result⟩ := findAddr_result inside positive range
  have lowest := result.lowest positive range
  refine ⟨⟨_, ?_, lowest⟩, found, done, lowest⟩
  rw [Running.wmapAddr, searches, done]
  rfl

/-- Three mappings out of order, with a gap of one page below the second of them. -/
def gapProcess : Running :=
  let entry (addr : ℕ) (length : ℤ) : MmapEntry := ⟨⟨addr, length⟩, 6, 0, none, 0⟩
  { blankProcess with mmaps := [entry 0x60004000 9000, entry 0x60000000 5000, entry 0x60003000 100] }

theorem gapProcess_laidOut : LaidOut gapProcess.regions := by
  refine ⟨?_, ?_⟩
  · simp only [gapProcess, Running.regions, List.map_cons, List.map_nil, List.forall_mem_cons, List.not_mem_nil,
      false_implies, implies_true, and_true]
    exact ⟨⟨by decide, by decide, by decide⟩, ⟨by decide, by decide, by decide⟩, by decide, by decide, by decide⟩
  · simp [gapProcess, Running.regions, Region.Separate]

theorem lowest_address_gap : Lowest gapProcess.regions 4096 (some 0x60002000) ∧
    Lowest gapProcess.regions 4097 (some 0x60007000) ∧ Lowest gapProcess.regions 0x20000000 none := by
  have inside := gapProcess_laidOut.inside
  have searched : gapProcess.wmapAddr 0 4096 6 = some (some 0x60002000) ∧
      gapProcess.wmapAddr 0 4097 6 = some (some 0x60007000) ∧ gapProcess.wmapAddr 0 0x20000000 6 = some none := by
    decide +kernel
  obtain ⟨first, second, third⟩ := searched
  have free : isFixed 6 = false := by decide
  refine ⟨?_, ?_, ?_⟩
  · obtain ⟨⟨result, done, lowest⟩, _⟩ := lowest_address inside (show 0 < 4096 by decide) (by decide) free 0
    cases first.symm.trans done
    exact lowest
  · obtain ⟨⟨result, done, lowest⟩, _⟩ := lowest_address inside (show 0 < 4097 by decide) (by decide) free 0
    cases second.symm.trans done
    exact lowest
  · obtain ⟨⟨result, done, lowest⟩, _⟩ :=
      lowest_address inside (show 0 < 0x20000000 by decide) (by decide) free 0
    cases third.symm.trans done
    exact lowest

end Cs537.Wmap
