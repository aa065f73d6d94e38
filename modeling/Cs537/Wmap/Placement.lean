import Cs537.Wmap.Effects

/-! # Where the mappings of a process lie

The calls on mappings, and loads and stores with their faults, as steps of the running process; other
processes may change the kernel between them in any way. Nothing checks the length and the address that
`sys_wmap` is given, nor the end of a mapping that `sys_wremap` grows in place. As long as these are in
order, all mappings lie between `0x60000000` and `0x80000000` and share no page.
-/

namespace Cs537.Wmap

open Lib

/-- A call, an access or a step of the other processes; `input` is what pipes and devices deliver. -/
inductive Action where
  | wmap (addr : ℕ) (length : ℤ) (flags : ℕ) (fd : ℤ)
  | wunmap (addr : ℕ)
  | wremap (oldaddr : ℕ) (oldsize newsize : ℤ) (flags : ℕ) (input : ℕ → ℕ → UInt8)
  | load (a : ℕ) (input : ℕ → ℕ → UInt8)
  | store (a : ℕ) (byte : UInt8) (input : ℕ → ℕ → UInt8)
  | others (kernel : Kernel)

/-- The value is an `int`. -/
def IsInt (n : ℤ) : Prop := -2 ^ 31 ≤ n ∧ n < 2 ^ 31

instance (n : ℤ) : Decidable (IsInt n) := inferInstanceAs (Decidable (_ ∧ _))

/-- The arguments have the width the code gives them. -/
def Action.InRange : Action → Prop
  | .wmap addr length flags fd => addr < 2 ^ 32 ∧ IsInt length ∧ flags < 2 ^ 32 ∧ IsInt fd
  | .wunmap addr => addr < 2 ^ 32
  | .wremap oldaddr oldsize newsize flags _ => oldaddr < 2 ^ 32 ∧ IsInt oldsize ∧ IsInt newsize ∧ flags < 2 ^ 32
  | .load a _ | .store a _ _ => a < 2 ^ 32
  | .others _ => True

instance : (act : Action) → Decidable act.InRange
  | .wmap .. | .wremap .. => inferInstanceAs (Decidable (_ ∧ _))
  | .wunmap _ | .load .. | .store .. => inferInstanceAs (Decidable (_ < _))
  | .others _ => inferInstanceAs (Decidable True)

namespace Running

def perform (s : Running) : Action → Option Running
  | .wmap addr length flags fd => (s.wmap addr length flags fd).map (·.1)
  | .wunmap addr => (s.wunmap addr).map (·.1)
  | .wremap oldaddr oldsize newsize flags input => (s.wremap oldaddr oldsize newsize flags input).map (·.1)
  | .load a input => (s.load a input).map (·.1)
  | .store a byte input => s.store a byte input
  | .others kernel => some { s with toKernel := kernel }

def step (s : Running) (act : Action) : Option Running := if act.InRange then s.perform act else none

/-- No mapping, and no page where mappings go. -/
def Blank (s : Running) : Prop := s.mmaps = [] ∧ ∀ v, searchBase / 4096 ≤ v → s.page v = none

end Running

/-- A process that begins without mappings. -/
def wmapMachine : Machine Running Action where
  init := Running.Blank
  step := Running.step

namespace Region

/-- The page holds a byte of the region. -/
def Covers (r : Region) (v : ℕ) : Prop := ∃ a : ℕ, r.addr ≤ a ∧ (a : ℤ) < r.addr + r.length ∧ a / 4096 = v

/-- No page holds bytes of both regions. -/
def Apart (r q : Region) : Prop := ∀ v, ¬ (r.Covers v ∧ q.Covers v)

/-- Not empty, on a page boundary and inside the area of mappings. -/
structure Placed (r : Region) : Prop where
  positive : 0 < r.length
  aligned : r.addr % 4096 = 0
  low : searchBase ≤ r.addr
  high : r.addr + r.length ≤ searchLimit

theorem Apart.symm {r q : Region} (apart : r.Apart q) : q.Apart r := fun v both => apart v both.symm

theorem Placed.limit_eq {r : Region} (placed : r.Placed) : (r.limit : ℤ) = r.addr + r.length := by
  have positive := placed.positive
  have high := placed.high
  simp only [searchLimit] at high
  rw [limit, uint32]
  omega

/-- Regions that the overlap test separates share no page. -/
theorem Placed.apart {r q : Region} (placed : r.Placed) (placed' : q.Placed)
    (free : q.overlaps r.addr r.length = false) : r.Apart q := by
  have limit := placed'.limit_eq
  have limit' := placed.limit_eq
  rw [Region.limit] at limit'
  have aligned := placed.aligned
  have aligned' := placed'.aligned
  simp only [overlaps, decide_eq_false_iff_not, not_and, not_lt, gt_iff_lt] at free
  rintro v ⟨⟨a, low, high, rfl⟩, ⟨b, low', high', same⟩⟩
  by_cases before : r.addr < q.limit
  · have := free before
    omega
  · omega

/-- A region that ends before another begins. -/
private theorem Placed.apart_of_lt {r q : Region} (placed' : q.Placed) (before : r.addr + r.length < q.addr) : r.Apart q := by
  have aligned := placed'.aligned
  rintro v ⟨⟨a, low, high, rfl⟩, ⟨b, low', high', same⟩⟩
  omega

private theorem Apart.of_le {r q : Region} {length : ℤ} (apart : r.Apart q) (le : length ≤ r.length) :
    Apart { r with length := length } q := by
  rintro v ⟨⟨a, low, high, here⟩, covers⟩
  simp only at low high
  exact apart v ⟨⟨a, low, by omega, here⟩, covers⟩

/-- Regions that share no page share no address. -/
theorem Apart.disjoint {r q : Region} (apart : r.Apart q) (positive : 0 < r.length) (positive' : 0 < q.length) :
    r.addr + r.length ≤ q.addr ∨ q.addr + q.length ≤ r.addr := by
  by_contra meet
  rcases Nat.le_total r.addr q.addr with le | le
  · exact apart (q.addr / 4096) ⟨⟨q.addr, le, by omega, rfl⟩, ⟨q.addr, le_rfl, by omega, rfl⟩⟩
  · exact apart (r.addr / 4096) ⟨⟨r.addr, le_rfl, by omega, rfl⟩, ⟨r.addr, le, by omega, rfl⟩⟩

end Region

/-- All regions are in place, and no two share a page. -/
structure AllPlaced (regions : List Region) : Prop where
  placed : ∀ r ∈ regions, r.Placed
  apart : regions.Pairwise Region.Apart

variable {regions : List Region}

theorem pgRoundUp_eq {a : ℕ} (small : a ≤ searchLimit) :
    a ≤ pgRoundUp a ∧ pgRoundUp a % 4096 = 0 ∧ pgRoundUp a ≤ searchLimit := by
  simp only [searchLimit] at small ⊢
  have exact : uint32 (a + 4095) = a + 4095 := by
    rw [uint32]
    omega
  rw [pgRoundUp, exact]
  omega

/-- The search ends on a page boundary in the area of mappings, clear of all regions or too high. -/
private theorem search_placed (placed : ∀ r ∈ regions, r.Placed) {length : ℤ} {fuel addr found : ℕ}
    (aligned : addr % 4096 = 0) (low : searchBase ≤ addr) (high : addr ≤ searchLimit)
    (done : search regions length fuel addr = some found) :
    found % 4096 = 0 ∧ searchBase ≤ found ∧ found ≤ searchLimit ∧
      (searchLimit < uint32 (found + length) ∨ ∀ r ∈ regions, r.overlaps found length = false) := by
  induction fuel generalizing addr with
  | zero => cases done
  | succ fuel ih =>
    rw [search] at done
    cases hit : regions.find? (·.overlaps addr length) with
    | none =>
      rw [hit] at done
      cases done
      refine ⟨aligned, low, high, .inr fun r member => ?_⟩
      simpa using List.find?_eq_none.mp hit r member
    | some r =>
      simp only [hit] at done
      have inside := placed r (List.mem_of_find?_eq_some hit)
      have limit := inside.limit_eq
      have positive := inside.positive
      have base := inside.low
      have top := inside.high
      obtain ⟨above, aligned', high'⟩ := pgRoundUp_eq (show r.limit ≤ searchLimit by omega)
      have low' : searchBase ≤ pgRoundUp r.limit := by omega
      split at done
      case isTrue tooHigh =>
        cases done
        exact ⟨aligned', low', high', .inl tooHigh⟩
      case isFalse => exact ih aligned' low' high' done

/-- A range the search finds below the limit can be mapped. -/
theorem findAddr_placed (all : AllPlaced regions) {length : ℤ} {addr : ℕ} (positive : 0 < length) (range : IsInt length)
    (done : findAddr regions length = some addr) (fits : uint32 (addr + length) ≤ searchLimit) :
    AllPlaced (⟨addr, length⟩ :: regions) := by
  have base : searchBase % 4096 = 0 := by decide
  have top : searchBase ≤ searchLimit := by decide
  obtain ⟨aligned, low, high, result⟩ := search_placed all.placed base le_rfl top done
  have within : addr + length ≤ searchLimit := by
    obtain ⟨_, small⟩ := range
    simp only [searchLimit] at fits high ⊢
    rw [uint32] at fits
    omega
  have mine : Region.Placed ⟨addr, length⟩ := ⟨positive, aligned, low, within⟩
  refine ⟨?_, ?_⟩
  · intro r member
    rcases List.mem_cons.mp member with rfl | old
    · exact mine
    · exact all.placed r old
  · refine List.pairwise_cons.mpr ⟨fun r member => ?_, all.apart⟩
    rcases result with tooHigh | clear
    · omega
    · exact mine.apart (all.placed r member) (clear r member)

theorem AllPlaced.sublist {fewer : List Region} (all : AllPlaced regions) (sub : fewer.Sublist regions) :
    AllPlaced fewer :=
  ⟨fun r member => all.placed r (sub.subset member), all.apart.sublist sub⟩

theorem AllPlaced.apart_of_ne (all : AllPlaced regions) {i j : ℕ} {r q : Region} (other : i ≠ j)
    (here : regions[i]? = some r) (there : regions[j]? = some q) : r.Apart q := by
  have pairs := List.pairwise_iff_getElem.mp all.apart
  obtain ⟨boundI, rfl⟩ := List.getElem?_eq_some_iff.mp here
  obtain ⟨boundJ, rfl⟩ := List.getElem?_eq_some_iff.mp there
  rcases Nat.lt_or_gt_of_ne other with less | more
  · exact pairs i j boundI boundJ less
  · exact (pairs j i boundJ boundI more).symm

/-- An element that is related to all others takes the place of one. -/
theorem pairwise_set {α : Type*} {R : α → α → Prop} (symm : ∀ {x y}, R x y → R y x) {l : List α} {i : ℕ} {x : α}
    (pairs : l.Pairwise R) (others : ∀ j y, j ≠ i → l[j]? = some y → R x y) : (l.set i x).Pairwise R := by
  refine List.pairwise_iff_getElem.mpr fun j k boundJ boundK less => ?_
  rw [List.length_set] at boundJ boundK
  rw [List.getElem_set, List.getElem_set]
  by_cases atJ : i = j
  · rw [if_pos atJ, if_neg (by omega)]
    exact others k _ (by omega) (List.getElem?_eq_getElem boundK)
  · rw [if_neg atJ]
    by_cases atK : i = k
    · rw [if_pos atK]
      exact symm (others j _ (by omega) (List.getElem?_eq_getElem boundJ))
    · rw [if_neg atK]
      exact List.pairwise_iff_getElem.mp pairs j k boundJ boundK less

/-- A region gets a new length and stays clear of the others. -/
theorem AllPlaced.resize (all : AllPlaced regions) {i : ℕ} {r : Region} {length : ℤ}
    (mine : Region.Placed { r with length := length })
    (apart : ∀ j q, j ≠ i → regions[j]? = some q → Region.Apart { r with length := length } q) :
    AllPlaced (regions.set i { r with length := length }) := by
  refine ⟨fun q member => ?_, pairwise_set Region.Apart.symm all.apart apart⟩
  rcases List.mem_or_eq_of_mem_set member with old | rfl
  · exact all.placed q old
  · exact mine

/-- A mapping that grows in place ends before every other begins. -/
theorem mustMove_eq_false {i : ℕ} {r : Region} {newsize : ℤ} (stays : Running.mustMove regions i r newsize = false)
    (grows : r.length < newsize) {j : ℕ} {q : Region} (other : j ≠ i) (there : regions[j]? = some q) :
    uint32 (r.addr + newsize) < q.addr := by
  simp only [Running.mustMove, decide_eq_false_iff_not, not_and] at stays
  have none := stays grows
  simp only [Bool.not_eq_true, List.any_eq_false, decide_eq_true_eq, not_le] at none
  exact none q (List.mem_eraseIdx_iff_getElem?.mpr ⟨j, other, there⟩)

namespace Running

variable {s s' : Running} {act : Action}

/-- The arguments that the code does not check are in order: a new mapping has a positive length and, with
`MAP_FIXED`, an aligned range in the area of mappings, unless it is rejected for its flags, its descriptor
or an overlap; a mapping that grows in place does not pass the end of the area. -/
def Checked (s : Running) : Action → Prop
  | .wmap addr length flags fd =>
      isPrivate flags = isShared flags ∨ s.mapFile flags fd = none ∨
        if isFixed flags then s.regions.any (·.overlaps addr length) ∨ Region.Placed ⟨addr, length⟩ else 0 < length
  | .wremap oldaddr oldsize newsize _ _ =>
      newsize ≤ oldsize ∨ oldaddr + newsize ≤ searchLimit ∨
        ∀ i r, s.regions[i]? = some r → r.addr = oldaddr → r.length = oldsize → mustMove s.regions i r newsize
  | .wunmap _ | .load .. | .store .. | .others _ => True

theorem wmap_placed (all : AllPlaced s.regions) {addr flags : ℕ} {length fd : ℤ} (range : IsInt length)
    (checked : s.Checked (.wmap addr length flags fd)) {result : Option ℕ}
    (done : s.wmap addr length flags fd = some (s', result)) : AllPlaced s'.regions := by
  rcases wmap_spec done with ⟨_, rfl⟩ | ⟨file, frame, base, s₁, s₂, kind, mapped, placed, dup, allocated, added, _⟩
  · exact all
  · have same := (kalloc_task allocated).trans (dupFile_task dup)
    have new : s'.regions = ⟨base, length⟩ :: s.regions := by
      rw [regions_eq_cores, addMapping_cores added, List.map_cons, ← regions_eq_cores, regions,
        congrArg Task.mmaps same]
      rfl
    rw [new]
    rcases checked with both | bad | checked
    · exact (kind both).elim
    · rw [mapped] at bad
      cases bad
    rw [wmapAddr] at placed
    by_cases fixed : isFixed flags
    · rw [if_pos fixed] at placed checked
      split at placed
      · cases placed
      case isFalse clear =>
        cases placed
        rcases checked with overlap | mine
        · exact (clear overlap).elim
        · refine ⟨?_, List.pairwise_cons.mpr ⟨fun r member => ?_, all.apart⟩⟩
          · intro r member
            rcases List.mem_cons.mp member with rfl | old
            · exact mine
            · exact all.placed r old
          · refine mine.apart (all.placed r member) ?_
            simp only [List.any_eq_true, not_exists, not_and, Bool.not_eq_true] at clear
            exact clear r member
    · rw [if_neg fixed] at placed checked
      split at placed
      · cases placed
      case h_2 found =>
        split at placed
        · cases placed
        case isFalse fits =>
          cases placed
          exact findAddr_placed all checked range found (by omega)

theorem wunmap_placed (all : AllPlaced s.regions) {addr : ℕ} {result : Bool} (done : s.wunmap addr = some (s', result)) :
    AllPlaced s'.regions := by
  rcases wunmap_spec done with ⟨_, rfl, _⟩ | ⟨me, s₁, _, _, rfl, _⟩
  · exact all
  · refine all.sublist ?_
    exact (List.eraseP_sublist ..).map _

/-- The entry `sys_wremap` works on, as a region at a position. -/
theorem found_region {oldaddr : ℕ} {oldsize : ℤ} {me : MmapEntry}
    (found : s.mmaps.find? (fun me => me.addr = oldaddr ∧ me.length = oldsize) = some me) :
    s.regions[s.mmaps.findIdx fun me => me.addr = oldaddr ∧ me.length = oldsize]? = some me.toRegion ∧
      me.addr = oldaddr ∧ me.length = oldsize := by
  have test := List.find?_some found
  simp only [decide_eq_true_eq] at test
  refine ⟨?_, test⟩
  rw [List.find?_eq_getElem?_findIdx] at found
  rw [regions, List.getElem?_map, found]
  rfl

theorem regions_resized {i : ℕ} {r : Region} (here : s.regions[i]? = some r) (newsize : ℤ) :
    Running.regions { s with mmaps := s.mmaps.modify i fun me => { me with length := newsize } } =
      s.regions.set i { r with length := newsize } := by
  apply List.ext_getElem?
  intro j
  simp only [Running.regions, List.getElem?_map, List.getElem?_modify, List.getElem?_set, List.length_map] at here ⊢
  by_cases at_ : i = j
  · subst at_
    obtain ⟨me, found, rfl⟩ := Option.map_eq_some_iff.mp here
    obtain ⟨bound, rfl⟩ := List.getElem?_eq_some_iff.mp found
    simp [bound]
  · simp [at_]

theorem wremap_placed (all : AllPlaced s.regions) {oldaddr flags : ℕ} {oldsize newsize : ℤ} {input : ℕ → ℕ → UInt8}
    (range : IsInt newsize) (checked : s.Checked (.wremap oldaddr oldsize newsize flags input)) {result : Option ℕ}
    (done : s.wremap oldaddr oldsize newsize flags input = some (s', result)) : AllPlaced s'.regions := by
  rcases wremap_spec done with ⟨rfl, _⟩ | ⟨me, i, positive, found, index, moved⟩
  · exact all
  obtain ⟨here, rfl, rfl⟩ := found_region found
  rw [← index] at here
  have old := all.placed _ (List.mem_of_getElem? here)
  rcases moved with ⟨stays, _, rfl⟩ | ⟨newaddr, frame, s₁, _, placed, fits, allocated, moved, _⟩
  · rw [regions_resized here]
    rcases le_or_gt newsize me.length with shrinks | grows
    · refine all.resize ⟨positive, old.aligned, old.low, ?_⟩ fun j q other there => ?_
      · have high := old.high
        simp only
        omega
      · exact (all.apart_of_ne (Ne.symm other) here there).of_le shrinks
    · have high : me.addr + newsize ≤ searchLimit := by
        rcases checked with shrinks | high | moves
        · omega
        · exact high
        · rw [moves i me.toRegion here rfl rfl] at stays
          cases stays
      refine all.resize ⟨positive, old.aligned, old.low, high⟩ fun j q other there => ?_
      have before := mustMove_eq_false stays grows other there
      have placed' := all.placed q (List.mem_of_getElem? there)
      refine placed'.apart_of_lt ?_
      simp only [searchLimit] at high
      rw [uint32] at before
      simp only
      omega
  · have new : s'.regions = ⟨newaddr, newsize⟩ :: s.regions.eraseIdx i := by
      rw [regions_eq_cores, moveMapping_cores moved, List.map_cons, ← List.eraseIdx_map, ← regions_eq_cores, regions,
        congrArg Task.mmaps (kalloc_task allocated)]
      rfl
    rw [new]
    refine (findAddr_placed all positive range placed fits).sublist ?_
    exact (List.eraseIdx_sublist ..).cons_cons _

private theorem step_placed (all : AllPlaced s.regions) (checked : s.Checked act) (done : s.step act = some s') :
    AllPlaced s'.regions := by
  obtain ⟨range, performed⟩ := Option.ite_none_right_eq_some.mp done
  cases act with
  | wmap addr length flags fd =>
    obtain ⟨⟨t, result⟩, called, rfl⟩ := Option.map_eq_some_iff.mp performed
    exact wmap_placed all range.2.1 checked called
  | wunmap addr =>
    obtain ⟨⟨t, result⟩, called, rfl⟩ := Option.map_eq_some_iff.mp performed
    exact wunmap_placed all called
  | wremap oldaddr oldsize newsize flags input =>
    obtain ⟨⟨t, result⟩, called, rfl⟩ := Option.map_eq_some_iff.mp performed
    exact wremap_placed all range.2.2.1 checked called
  | load a input =>
    obtain ⟨⟨t, byte⟩, loaded, rfl⟩ := Option.map_eq_some_iff.mp performed
    rw [regions_of_cores (load_cores loaded)]
    exact all
  | store a byte input =>
    rw [regions_of_cores (store_cores performed)]
    exact all
  | others kernel =>
    cases performed
    exact all

end Running

/-- In every run whose arguments are in order, every mapping is in place and no two share a page. -/
theorem mappings_placed {s : Running} (reached : wmapMachine.ReachableBy Running.Checked s) :
    (∀ me ∈ s.mmaps, 0 < me.length ∧ me.addr % 4096 = 0 ∧ searchBase ≤ me.addr ∧ me.addr + me.length ≤ searchLimit) ∧
      ∀ i j : ℕ, ∀ me other : MmapEntry, i ≠ j → s.mmaps[i]? = some me → s.mmaps[j]? = some other →
        ∀ v, ¬ (me.toRegion.Covers v ∧ other.toRegion.Covers v) := by
  have all : AllPlaced s.regions := by
    refine reached.invariant ?_ fun s act s' checked step all => Running.step_placed all checked step
    rintro s ⟨empty, _⟩
    rw [Running.regions, empty]
    exact ⟨by simp, by simp⟩
  refine ⟨fun me member => ?_, fun i j me other apart here there => ?_⟩
  · have placed := all.placed me.toRegion (List.mem_map_of_mem member)
    exact ⟨placed.positive, placed.aligned, placed.low, placed.high⟩
  · refine all.apart_of_ne apart ?_ ?_
    · rw [Running.regions, List.getElem?_map, here]
      rfl
    · rw [Running.regions, List.getElem?_map, there]
      rfl

/-- A process with no mapping, no file and four free pages. -/
def blankProcess : Running where
  ofile _ := none
  mmaps := []
  tables _ := false
  page _ := none
  file _ := ⟨.none, 0, false, false, 0, 0⟩
  inode _ := ⟨[], Nat.zero_le _⟩
  free := [1, 2, 3, 4]

theorem blankProcess_blank : wmapMachine.init blankProcess := ⟨rfl, fun _ _ => rfl⟩

/-- Two shared anonymous mappings, a store to the first, and the second shrinks. -/
def twoMappings : List Action :=
  [.wmap 0 5000 6 (-1), .wmap 0 9000 6 (-1), .store 0x60001000 7 fun _ _ => 0,
    .wremap 0x60002000 9000 100 0 fun _ _ => 0]

theorem mappings_placed_twoMappings : ∃ s, wmapMachine.ReachableBy Running.Checked s ∧
    s.regions = [⟨0x60002000, 100⟩, ⟨0x60000000, 5000⟩] ∧
    ∀ v, ¬ (Region.Covers ⟨0x60002000, 100⟩ v ∧ Region.Covers ⟨0x60000000, 5000⟩ v) := by
  have run : (wmapMachine.run blankProcess twoMappings).map Running.regions =
      some [⟨0x60002000, 100⟩, ⟨0x60000000, 5000⟩] := by decide +kernel
  obtain ⟨s, run, regions⟩ := Option.map_eq_some_iff.mp run
  have reached : wmapMachine.ReachableBy Running.Checked s := by
    refine ⟨blankProcess, twoMappings, blankProcess_blank, (Machine.path_of_run run).of_forall ?_⟩
    simp [twoMappings, Running.Checked, isFixed, Nat.testBit]
  refine ⟨s, reached, regions, ?_⟩
  have apart := (mappings_placed reached).2
  rw [Running.regions] at regions
  obtain ⟨second, rest, mmaps, here, tail⟩ := List.map_eq_cons_iff.mp regions
  obtain ⟨first, rest, rfl, there, _⟩ := List.map_eq_cons_iff.mp tail
  rw [← here, ← there]
  exact apart 0 1 second first (by decide) (by rw [mmaps]; rfl) (by rw [mmaps]; rfl)

/-- A mapping of length zero is accepted, and one that grows in place passes the end of the area. -/
theorem mappings_misplaced :
    (∃ s, wmapMachine.Reachable s ∧ ∃ me ∈ s.mmaps, ¬ 0 < me.length) ∧
      ∃ s, wmapMachine.Reachable s ∧ ∃ me ∈ s.mmaps, (searchLimit : ℤ) < me.addr + me.length := by
  refine ⟨?_, ?_⟩
  · have run : (wmapMachine.run blankProcess [.wmap 0 0 6 (-1)]).map (fun s =>
        decide (∃ me ∈ s.mmaps, ¬ 0 < me.length)) = some true := by decide +kernel
    obtain ⟨s, run, found⟩ := Option.map_eq_some_iff.mp run
    exact ⟨s, Machine.reachable_of_run wmapMachine blankProcess_blank _ run, of_decide_eq_true found⟩
  · have run : (wmapMachine.run blankProcess
        [.wmap 0 4096 6 (-1), .wremap 0x60000000 4096 0x30000000 0 fun _ _ => 0]).map (fun s =>
        decide (∃ me ∈ s.mmaps, (searchLimit : ℤ) < me.addr + me.length)) = some true := by decide +kernel
    obtain ⟨s, run, found⟩ := Option.map_eq_some_iff.mp run
    exact ⟨s, Machine.reachable_of_run wmapMachine blankProcess_blank _ run, of_decide_eq_true found⟩

end Cs537.Wmap
