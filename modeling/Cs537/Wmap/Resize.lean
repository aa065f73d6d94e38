import Cs537.Wmap.Search

/-! # What `sys_wremap` reports, and when it resizes in place

The address that `sys_wremap` was given is returned when the mapping is resized in place, and also when it has
to move and the search or `kalloc` fails: that failure looks like a success. A mapping grows in place when
every other begins above its new end, and so not below it, and not next to it.
-/

namespace Cs537.Wmap

open Lib

namespace Running

variable {s s' : Running} {oldaddr flags newaddr : ℕ} {oldsize newsize : ℤ} {input : ℕ → ℕ → UInt8} {me : MmapEntry}

/-- The mapping that `sys_wremap` is asked for, and its position. -/
structure Target (s : Running) (oldaddr : ℕ) (oldsize : ℤ) (i : ℕ) (me : MmapEntry) : Prop where
  found : s.mmaps.find? (fun me => me.addr = oldaddr ∧ me.length = oldsize) = some me
  index : i = s.mmaps.findIdx fun me => me.addr = oldaddr ∧ me.length = oldsize

variable {i : ℕ}

theorem Target.here (target : s.Target oldaddr oldsize i me) : s.mmaps[i]? = some me := by
  rw [target.index, ← List.find?_eq_getElem?_findIdx]
  exact target.found

theorem Target.asked (target : s.Target oldaddr oldsize i me) : me.addr = oldaddr ∧ me.length = oldsize := by
  simpa using List.find?_some target.found

/-- The mapping at a position gets a new length. -/
def resized (s : Running) (i : ℕ) (newsize : ℤ) : Running :=
  { s with mmaps := s.mmaps.modify i fun me => { me with length := newsize } }

private theorem resized_here (here : s.mmaps[i]? = some me) (newsize : ℤ) :
    (s.resized i newsize).mmaps[i]? = some { me with length := newsize } := by
  rw [resized, List.getElem?_modify_eq, here]
  rfl

theorem wremap_refused (bad : newsize ≤ 0 ∨ ∀ i me, ¬ s.Target oldaddr oldsize i me) :
    s.wremap oldaddr oldsize newsize flags input = some (s, none) := by
  rw [wremap]
  split
  · rfl
  case isFalse empty =>
    cases found : s.mmaps.find? fun me => me.addr = oldaddr ∧ me.length = oldsize with
    | none => rfl
    | some me => exact absurd ⟨found, rfl⟩ (bad.resolve_left empty _ me)

section Target

variable (positive : 0 < newsize) (target : s.Target oldaddr oldsize i me)

include positive target

private theorem wremap_stays (stays : mustMove s.regions i me.toRegion newsize = false) :
    s.wremap oldaddr oldsize newsize flags input = some (s.resized i newsize, some oldaddr) := by
  obtain ⟨found, rfl⟩ := target
  simp only [wremap, if_neg (not_le.mpr positive), found, stays, if_true, resized]

theorem wremap_bound (moves : mustMove s.regions i me.toRegion newsize = true) (bound : mayMove flags = false) :
    s.wremap oldaddr oldsize newsize flags input = some (s, none) := by
  obtain ⟨found, rfl⟩ := target
  simp only [wremap, if_neg (not_le.mpr positive), found, moves, bound, Bool.true_eq_false, if_false, if_true]

variable (moves : mustMove s.regions i me.toRegion newsize = true) (free : mayMove flags = true)

include moves free

private theorem wremap_endless (lost : findAddr s.regions newsize = none) :
    s.wremap oldaddr oldsize newsize flags input = none := by
  obtain ⟨found, rfl⟩ := target
  simp only [wremap, if_neg (not_le.mpr positive), found, moves, free, lost, Bool.true_eq_false, if_false]

private theorem wremap_stuck (searched : findAddr s.regions newsize = some newaddr)
    (full : uint32 (newaddr + newsize) > searchLimit ∨ s.kalloc = none) :
    s.wremap oldaddr oldsize newsize flags input = some (s, some oldaddr) := by
  obtain ⟨found, rfl⟩ := target
  simp only [wremap, if_neg (not_le.mpr positive), found, moves, free, searched, Bool.true_eq_false, if_false]
  split_ifs with high
  · rfl
  · rw [full.resolve_left high]

private theorem wremap_moves (searched : findAddr s.regions newsize = some newaddr)
    (fits : ¬ uint32 (newaddr + newsize) > searchLimit) {frame : ℕ} {s₁ : Running}
    (allocated : s.kalloc = some (frame, s₁)) :
    s.wremap oldaddr oldsize newsize flags input =
      (s₁.moveMapping i me frame newaddr newsize input).map fun s => (s, some newaddr) := by
  obtain ⟨found, rfl⟩ := target
  simp only [wremap, if_neg (not_le.mpr positive), found, moves, free, searched, fits, allocated, Bool.true_eq_false,
    if_false]

end Target

/-- The mapping has to move, and the search ends above the limit, or there is no page for the new entry. -/
def NoPlace (s : Running) (oldaddr : ℕ) (oldsize newsize : ℤ) : Prop :=
  ∃ i me newaddr, s.Target oldaddr oldsize i me ∧ mustMove s.regions i me.toRegion newsize ∧
    findAddr s.regions newsize = some newaddr ∧ (uint32 (newaddr + newsize) > searchLimit ∨ s.kalloc = none)

/-- An address that is returned begins a mapping of the new size; without room or memory the call fails, and a
call that fails leaves the list as it is. -/
structure Reported (s s' : Running) (oldaddr : ℕ) (oldsize newsize : ℤ) (result : Option ℕ) : Prop where
  provided : ∀ a, result = some a → ∃ me ∈ s'.mmaps, me.addr = a ∧ me.length = newsize
  fails : s.NoPlace oldaddr oldsize newsize → result = none
  unchanged : result = none → s'.mmaps = s.mmaps

private theorem moveMapping_head {frame : ℕ} (moved : s.moveMapping i me frame newaddr newsize input = some s') :
    ∃ entry ∈ s'.mmaps, entry.addr = newaddr ∧ entry.length = newsize := by
  have entries := moveMapping_cores moved
  rw [cores] at entries
  obtain ⟨entry, rest, mmaps, head, _⟩ := List.map_eq_cons_iff.mp entries
  refine ⟨entry, by rw [mmaps]; exact List.mem_cons_self .., ?_, ?_⟩
  · exact congrArg (fun me : MmapEntry => me.addr) head
  · exact congrArg (fun me : MmapEntry => me.length) head

/-- What a call that returns has done, by the way it took. -/
private theorem wremap_outcome (s : Running) (oldaddr : ℕ) (oldsize newsize : ℤ) (flags : ℕ) (input : ℕ → ℕ → UInt8) :
    (s.wremap oldaddr oldsize newsize flags input = some (s, none) ∧
        ¬ (0 < newsize ∧ mayMove flags ∧ s.NoPlace oldaddr oldsize newsize)) ∨
      (s.wremap oldaddr oldsize newsize flags input = some (s, some oldaddr) ∧
        0 < newsize ∧ mayMove flags ∧ s.NoPlace oldaddr oldsize newsize) ∨
      ¬ s.NoPlace oldaddr oldsize newsize ∧
      ∀ s' result, s.wremap oldaddr oldsize newsize flags input = some (s', result) →
        ∃ a, result = some a ∧ ∃ me ∈ s'.mmaps, me.addr = a ∧ me.length = newsize := by
  by_cases bad : newsize ≤ 0 ∨ ∀ i me, ¬ s.Target oldaddr oldsize i me
  · refine .inl ⟨wremap_refused bad, fun ⟨positive, _, i, me, _, target, _⟩ => ?_⟩
    exact bad.resolve_left (by omega) i me target
  push Not at bad
  obtain ⟨positive, i, me, target⟩ := bad
  have only {j : ℕ} {q : MmapEntry} (other : s.Target oldaddr oldsize j q) : j = i ∧ q = me := by
    have same := target.found.symm.trans other.found
    cases same
    exact ⟨other.index.trans target.index.symm, rfl⟩
  cases moves : mustMove s.regions i me.toRegion newsize with
  | false =>
    refine .inr (.inr ⟨?_, fun s' result done => ?_⟩)
    · rintro ⟨j, q, _, other, moves', _⟩
      obtain ⟨rfl, rfl⟩ := only other
      rw [moves] at moves'
      cases moves'
    · rw [wremap_stays positive target moves] at done
      cases done
      have here := resized_here target.here newsize
      exact ⟨oldaddr, rfl, _, List.mem_of_getElem? here, target.asked.1, rfl⟩
  | true =>
    cases free : mayMove flags with
    | false =>
      refine .inl ⟨wremap_bound positive target moves free, fun ⟨_, free', _⟩ => ?_⟩
      cases free'
    | true =>
      cases searched : findAddr s.regions newsize with
      | none =>
        refine .inr (.inr ⟨?_, fun s' result done => ?_⟩)
        · rintro ⟨_, _, _, _, _, searched', _⟩
          rw [searched] at searched'
          cases searched'
        · rw [wremap_endless positive target moves free searched] at done
          cases done
      | some newaddr =>
        by_cases full : uint32 (newaddr + newsize) > searchLimit ∨ s.kalloc = none
        · refine .inr (.inl ⟨wremap_stuck positive target moves free searched full, positive, rfl, ?_⟩)
          exact ⟨i, me, newaddr, target, moves, searched, full⟩
        · refine .inr (.inr ⟨?_, fun s' result done => ?_⟩)
          · rintro ⟨_, _, newaddr', _, _, searched', full'⟩
            cases searched.symm.trans searched'
            exact full full'
          · rw [not_or] at full
            obtain ⟨⟨frame, s₁⟩, allocated⟩ := Option.ne_none_iff_exists'.mp full.2
            rw [wremap_moves positive target moves free searched full.1 allocated] at done
            obtain ⟨t, moved, pair⟩ := Option.map_eq_some_iff.mp done
            cases pair
            exact ⟨newaddr, rfl, moveMapping_head moved⟩

/-- `sys_wremap` keeps its promise exactly when it need not move the mapping, or may not, or can: without room or
memory for a move it returns the old address. -/
theorem wremap_reported_iff (s : Running) (oldaddr : ℕ) (oldsize newsize : ℤ) (flags : ℕ) (input : ℕ → ℕ → UInt8) :
    (∀ s' result, s.wremap oldaddr oldsize newsize flags input = some (s', result) →
        Reported s s' oldaddr oldsize newsize result) ↔
      ¬ (0 < newsize ∧ mayMove flags ∧ s.NoPlace oldaddr oldsize newsize) := by
  rcases wremap_outcome s oldaddr oldsize newsize flags input with ⟨failed, not⟩ | ⟨stuck, bad⟩ | ⟨placed, done⟩
  · refine ⟨fun _ => not, fun _ s' result returned => ?_⟩
    cases failed.symm.trans returned
    exact ⟨fun a returned => (nomatch returned), fun _ => rfl, fun _ => rfl⟩
  · refine ⟨fun kept => ?_, fun not => absurd bad not⟩
    exact nomatch (kept _ _ stuck).fails bad.2.2
  · refine ⟨fun _ bad => placed bad.2.2, fun _ s' result returned => ?_⟩
    obtain ⟨a, rfl, me, member, start, length⟩ := done s' result returned
    refine ⟨fun b same => ?_, fun bad => absurd bad placed, fun failed => nomatch failed⟩
    cases same
    exact ⟨me, member, start, length⟩

/-- Where no other mapping is in the way, "no place" means that no address fits, or no page is free. -/
theorem noPlace_iff (inside : ∀ r ∈ s.regions, r.Inside) (positive : 0 < newsize) (range : IsInt newsize) :
    s.NoPlace oldaddr oldsize newsize ↔ ∃ i me, s.Target oldaddr oldsize i me ∧
      mustMove s.regions i me.toRegion newsize ∧ ((∀ a, ¬ Fits s.regions newsize a) ∨ s.kalloc = none) := by
  obtain ⟨newaddr, searched, result⟩ := findAddr_result inside positive range
  have lowest := result.lowest positive range
  have full : uint32 (newaddr + newsize) > searchLimit ↔ ∀ a, ¬ Fits s.regions newsize a := by
    by_cases high : uint32 (newaddr + newsize) > searchLimit
    · rw [if_pos high] at lowest
      exact ⟨fun _ => lowest, fun _ => high⟩
    · rw [if_neg high] at lowest
      exact ⟨fun high' => absurd high' high, fun nothing => absurd lowest.1 (nothing newaddr)⟩
  rw [← full]
  constructor
  · rintro ⟨i, me, found, target, moves, searched', failed⟩
    cases searched.symm.trans searched'
    exact ⟨i, me, target, moves, failed⟩
  · rintro ⟨i, me, target, moves, failed⟩
    exact ⟨i, me, newaddr, target, moves, searched, failed⟩

end Running

/-- Two pages side by side; the first is to become larger than the whole area. -/
theorem wremap_reports_success : ∃ s, wmapMachine.Reachable s ∧ ∃ s' a,
    s.wremap 0x60000000 4096 0x30000000 1 (fun _ _ => 0) = some (s', some a) ∧
      ¬ ∃ me ∈ s'.mmaps, me.addr = a ∧ me.length = 0x30000000 := by
  have run : (wmapMachine.run blankProcess [.wmap 0 4096 6 (-1), .wmap 0 4096 6 (-1)]).map (fun s =>
      (s.wremap 0x60000000 4096 0x30000000 1 fun _ _ => 0).map fun result =>
        decide (∃ a, result.2 = some a ∧ ¬ ∃ me ∈ result.1.mmaps, me.addr = a ∧ me.length = 0x30000000)) =
        some (some true) := by decide +kernel
  obtain ⟨s, run, called⟩ := Option.map_eq_some_iff.mp run
  obtain ⟨⟨s', result⟩, done, found⟩ := Option.map_eq_some_iff.mp called
  obtain ⟨a, rfl, missing⟩ := of_decide_eq_true found
  exact ⟨s, Machine.reachable_of_run wmapMachine blankProcess_blank _ run, s', a, done, missing⟩

namespace Running

variable {s s' : Running} {flags i : ℕ} {newsize : ℤ} {input : ℕ → ℕ → UInt8} {me : MmapEntry}

/-- The mapping of a new size at its old address meets no other. -/
def Roomy (regions : List Region) (i addr : ℕ) (newsize : ℤ) : Prop :=
  ∀ j q, j ≠ i → regions[j]? = some q → Region.Separate ⟨addr, newsize⟩ q

/-- Every other mapping begins above the end of the new size. -/
def AllAbove (regions : List Region) (i addr : ℕ) (newsize : ℤ) : Prop :=
  ∀ j q, j ≠ i → regions[j]? = some q → addr + newsize < q.addr

theorem region_here (here : s.mmaps[i]? = some me) : s.regions[i]? = some me.toRegion := by
  rw [regions, List.getElem?_map, here]
  rfl

/-- A mapping is found by its own address and length. -/
theorem target_of_here (laid : LaidOut s.regions) (here : s.mmaps[i]? = some me) :
    s.Target me.addr me.length i me := by
  have bound := (List.getElem?_eq_some_iff.mp here).1
  have index : i = s.mmaps.findIdx fun q => q.addr = me.addr ∧ q.length = me.length := by
    refine ((List.findIdx_eq bound).mpr ⟨?_, fun j before => ?_⟩).symm
    · rw [(List.getElem?_eq_some_iff.mp here).2]
      simp
    · have there := List.getElem?_eq_getElem (Nat.lt_trans before bound)
      have other (same : me.addr = s.mmaps[j].addr) : False := by
        have := laid.index_unique (region_here here) (region_here there) same
        omega
      simp only [decide_eq_false_iff_not, not_and]
      exact fun same => (other same.symm).elim
  refine ⟨?_, index⟩
  rw [List.find?_eq_getElem?_findIdx, ← index, here]

/-- The test of `sys_wremap`: it asks for more than that nothing is in the way. -/
private theorem mustMove_eq_false_iff (positive : 0 < newsize) (high : me.addr + newsize ≤ searchLimit) :
    mustMove s.regions i me.toRegion newsize = false ↔ newsize ≤ me.length ∨ AllAbove s.regions i me.addr newsize := by
  have exact : (uint32 (me.addr + newsize) : ℤ) = me.addr + newsize := by
    simp only [searchLimit] at high
    rw [uint32]
    omega
  simp only [mustMove, decide_eq_false_iff_not, not_and, Bool.not_eq_true, List.any_eq_false, decide_eq_true_eq, not_le]
  rw [imp_iff_not_or, gt_iff_lt, not_lt]
  refine or_congr Iff.rfl ⟨fun above j q other there => ?_, fun above q member => ?_⟩
  · have := above q (List.mem_eraseIdx_iff_getElem?.mpr ⟨j, other, there⟩)
    omega
  · obtain ⟨j, other, there⟩ := List.mem_eraseIdx_iff_getElem?.mp member
    have := above j q other there
    omega

/-- Nothing is in the way when the code resizes in place. -/
theorem roomy_of_stays (laid : LaidOut s.regions) (here : s.mmaps[i]? = some me)
    (stays : newsize ≤ me.length ∨ AllAbove s.regions i me.addr newsize) : Roomy s.regions i me.addr newsize := by
  intro j q other there
  rcases stays with shrinks | above
  · have separate := laid.separate_of_ne other (region_here here) there
    simp only [Region.Separate] at separate ⊢
    omega
  · have := above j q other there
    simp only [Region.Separate]
    omega

/-- A call that has to move the mapping does not resize it in place. -/
private theorem not_in_place (laid : LaidOut s.regions) (here : s.mmaps[i]? = some me) (positive : 0 < newsize)
    (range : IsInt newsize) (moves : mustMove s.regions i me.toRegion newsize = true) :
    s.wremap me.addr me.length newsize flags input ≠ some (s.resized i newsize, some me.addr) := by
  intro done
  have grows : me.length < newsize := by
    simp only [mustMove, decide_eq_true_eq] at moves
    exact moves.1
  have changed : s.resized i newsize ≠ s := by
    intro same
    have after := resized_here here newsize
    rw [same, here] at after
    have := congrArg (fun me : Option MmapEntry => me.map (·.length)) after
    simp only [Option.map_some, Option.some.injEq] at this
    omega
  rcases wremap_spec done with ⟨same, _⟩ | ⟨q, j, _, found, index, ⟨stays, _⟩ | moved⟩
  · exact changed same
  · have target := target_of_here laid here
    cases found.symm.trans target.found
    rw [index, ← target.index, moves] at stays
    cases stays
  · obtain ⟨newaddr, frame, s₁, _, searched, fits, _, _, same⟩ := moved
    cases same
    obtain ⟨found, searched', result⟩ := findAddr_result laid.inside positive range
    cases searched.symm.trans searched'
    have old := laid.inside _ (List.mem_of_getElem? (region_here here))
    have limit := result.high
    have positive' := old.positive
    have clear := result.stops.resolve_left (by
      obtain ⟨_, small⟩ := range
      simp only [searchLimit] at fits limit ⊢
      rw [uint32] at fits
      omega) _ (List.mem_of_getElem? (region_here here))
    simp only [Region.Separate] at clear
    omega

private theorem in_place_iff_stays (laid : LaidOut s.regions) (here : s.mmaps[i]? = some me) (positive : 0 < newsize)
    (range : IsInt newsize) : s.wremap me.addr me.length newsize flags input = some (s.resized i newsize, some me.addr) ↔
      mustMove s.regions i me.toRegion newsize = false := by
  cases moves : mustMove s.regions i me.toRegion newsize with
  | false => exact ⟨fun _ => rfl, fun _ => wremap_stays positive (target_of_here laid here) moves⟩
  | true => exact ⟨fun done => absurd done (not_in_place laid here positive range moves), fun stays => (nomatch stays)⟩

private theorem fails_iff_moves (laid : LaidOut s.regions) (here : s.mmaps[i]? = some me) (positive : 0 < newsize)
    (bound : mayMove flags = false) : s.wremap me.addr me.length newsize flags input = some (s, none) ↔
      mustMove s.regions i me.toRegion newsize = true := by
  have target := target_of_here laid here
  cases moves : mustMove s.regions i me.toRegion newsize with
  | false =>
    rw [wremap_stays positive target moves]
    simp
  | true => exact ⟨fun _ => rfl, fun _ => wremap_bound positive target moves bound⟩

end Running

open Running in
/-- `sys_wremap` decides rightly whether it can resize in place if and only if the mapping does not grow, or meets
another, or all others begin above its new end: a mapping below it, or next to it, keeps it from growing. -/
theorem resized_in_place_iff {s : Running} (laid : LaidOut s.regions) {i : ℕ} {me : MmapEntry}
    (here : s.mmaps[i]? = some me) {newsize : ℤ} (positive : 0 < newsize) (high : me.addr + newsize ≤ searchLimit)
    (flags : ℕ) (input : ℕ → ℕ → UInt8) :
    ((s.wremap me.addr me.length newsize flags input = some (s.resized i newsize, some me.addr) ↔
          Roomy s.regions i me.addr newsize) ∧
        (mayMove flags = false → (s.wremap me.addr me.length newsize flags input = some (s, none) ↔
          ¬ Roomy s.regions i me.addr newsize))) ↔
      (newsize ≤ me.length ∨ ¬ Roomy s.regions i me.addr newsize ∨ AllAbove s.regions i me.addr newsize) := by
  have range : IsInt newsize := by
    have low := (laid.inside _ (List.mem_of_getElem? (region_here here))).low
    simp only [searchLimit, searchBase] at high low
    exact ⟨by omega, by omega⟩
  have stays := mustMove_eq_false_iff (s := s) (i := i) positive high
  rw [in_place_iff_stays laid here positive range]
  constructor
  · rintro ⟨same, _⟩
    by_cases room : Roomy s.regions i me.addr newsize
    · exact (stays.mp (same.mpr room)).imp_right Or.inr
    · exact .inr (.inl room)
  · intro decided
    have same : mustMove s.regions i me.toRegion newsize = false ↔ Roomy s.regions i me.addr newsize := by
      rw [stays]
      refine ⟨roomy_of_stays laid here, fun room => ?_⟩
      rcases decided with shrinks | blocked | above
      · exact .inl shrinks
      · exact absurd room blocked
      · exact .inr above
    refine ⟨same, fun bound => ?_⟩
    rw [fails_iff_moves laid here positive bound, ← same, Bool.not_eq_false]

/-- The lower of two mappings grows up to the page below the other. -/
theorem resized_in_place_below : ∃ s : Running, s.regions = [⟨0x60004000, 100⟩, ⟨0x60000000, 4096⟩] ∧
    ∀ flags input, s.wremap 0x60000000 4096 0x3000 flags input = some (s.resized 1 0x3000, some 0x60000000) := by
  let low : MmapEntry := ⟨⟨0x60000000, 4096⟩, 6, 0, none, 2⟩
  let s : Running := { blankProcess with mmaps := [⟨⟨0x60004000, 100⟩, 6, 0, none, 1⟩, low] }
  have laid : LaidOut s.regions := by
    refine ⟨?_, List.pairwise_pair.mpr (.inr (by decide))⟩
    simp only [s, low, Running.regions, List.map_cons, List.map_nil, List.forall_mem_cons, List.not_mem_nil,
      false_implies, implies_true, and_true]
    exact ⟨⟨by decide, by decide, by decide⟩, by decide, by decide, by decide⟩
  have above : Running.AllAbove s.regions 1 low.addr 0x3000 := by
    rintro (_ | _ | j) q other there
    · cases there
      decide
    · exact absurd rfl other
    · cases there
  have here : s.mmaps[1]? = some low := rfl
  refine ⟨s, rfl, fun flags input => ?_⟩
  have decided := (resized_in_place_iff laid here (by decide) (by decide) flags input).mpr (.inr (.inr above))
  exact decided.1.mpr (Running.roomy_of_stays laid here (.inr above))

/-- Two pages side by side: the second has all the room above it and is not resized. -/
theorem wremap_refuses_room : ∃ s, wmapMachine.Reachable s ∧
    s.regions = [⟨0x60001000, 4096⟩, ⟨0x60000000, 4096⟩] ∧
    Running.Roomy s.regions 0 0x60001000 8192 ∧
    ∃ s', s.wremap 0x60001000 4096 8192 0 (fun _ _ => 0) = some (s', none) := by
  have run : (wmapMachine.run blankProcess [.wmap 0 4096 6 (-1), .wmap 0 4096 6 (-1)]).map (fun s =>
      (s.regions, (s.wremap 0x60001000 4096 8192 0 fun _ _ => 0).map (·.2))) =
        some ([⟨0x60001000, 4096⟩, ⟨0x60000000, 4096⟩], some none) := by decide +kernel
  obtain ⟨s, run, pair⟩ := Option.map_eq_some_iff.mp run
  obtain ⟨regions, called⟩ := Prod.mk.inj pair
  obtain ⟨⟨s', result⟩, done, rfl⟩ := Option.map_eq_some_iff.mp called
  refine ⟨s, Machine.reachable_of_run wmapMachine blankProcess_blank _ run, regions, ?_, s', done⟩
  rw [regions]
  rintro (_ | _ | j) q other there
  · exact absurd rfl other
  · cases there
    exact .inr (by decide)
  · cases there

end Cs537.Wmap
