import Cs537.Wmap.Bytes

/-! # What a load through an anonymous mapping can return

The runs are those of anonymous mappings that the kernel places, with stores to mapped bytes. A history is
carried along: for each mapping, in list order, the last value stored to each of its bytes since it was
made. Shrinking and moving leave pages present outside every mapping; as long as no byte of such a page
becomes part of a mapping again, a load returns zero or the last value stored to that byte of that mapping.
-/

namespace Cs537.Wmap

open Lib

/-- The last value stored to each byte of a mapping. -/
abbrev History := ℕ → Option UInt8

/-- The running process with the histories of its mappings. -/
structure Tracked where
  proc : Running
  stored : List History

namespace Tracked

/-- The position of the mapping that `sys_wremap` works on. -/
def target (t : Tracked) (oldaddr : ℕ) (oldsize : ℤ) : ℕ :=
  t.proc.mmaps.findIdx fun me => me.addr = oldaddr ∧ me.length = oldsize

/-- The histories after a step that leads to a given state of the process. -/
def track (t : Tracked) (after : Running) : Action → List History
  | .wmap .. => if after.mmaps.length = t.proc.mmaps.length then t.stored else (fun _ => none) :: t.stored
  | .wunmap addr => t.stored.eraseIdx (t.proc.mmaps.findIdx (·.addr = addr))
  | .wremap oldaddr oldsize newsize flags input =>
      match t.proc.wremap oldaddr oldsize newsize flags input with
      | some (_, some newaddr) =>
          if newaddr = oldaddr then t.stored
          else t.stored.getD (t.target oldaddr oldsize) (fun _ => none) :: t.stored.eraseIdx (t.target oldaddr oldsize)
      | some (_, none) | none => t.stored
  | .store a byte _ =>
      match t.proc.mmaps.find? (·.contains a) with
      | none => t.stored
      | some me =>
          t.stored.modify (t.proc.mmaps.findIdx (·.contains a)) fun history =>
            Function.update history (a - me.addr) (some byte)
  | .load .. | .others _ => t.stored

def step (t : Tracked) (act : Action) : Option Tracked :=
  match t.proc.step act with
  | none => none
  | some after => some ⟨after, t.track after act⟩

/-- New mappings are anonymous, not empty and placed by the kernel, and stores go to mapped bytes. -/
def InScope (t : Tracked) : Action → Prop
  | .wmap _ length flags _ => isAnonymous flags ∧ isFixed flags = false ∧ 0 < length
  | .store a _ _ => ∃ me ∈ t.proc.mmaps, me.contains a
  | .wunmap _ | .wremap .. | .load .. | .others _ => True

/-- No byte that becomes mapped has a value left in a page that stayed present: for a new or a moved mapping
a value other than zero, for one that grows in place a value other than the last one stored to it. A
mapping that grows in place does not pass the end of the area. -/
def Clean (t : Tracked) : Action → Prop
  | .wmap _ length _ _ => ∀ base ∈ findAddr t.proc.regions length, ∀ k < length.toNat, t.proc.byte (base + k) = 0
  | .wremap oldaddr oldsize newsize _ _ =>
      if Running.mustMove t.proc.regions (t.target oldaddr oldsize) ⟨oldaddr, oldsize⟩ newsize then
        ∀ base ∈ findAddr t.proc.regions newsize, ∀ k < newsize.toNat, oldsize.toNat ≤ k → t.proc.byte (base + k) = 0
      else
        (newsize ≤ oldsize ∨ oldaddr + newsize ≤ searchLimit) ∧
          ∀ k < newsize.toNat, oldsize.toNat ≤ k → t.proc.byte (oldaddr + k) = 0 ∨
            t.stored.getD (t.target oldaddr oldsize) (fun _ => none) k = some (t.proc.byte (oldaddr + k))
  | .wunmap _ | .load .. | .store .. | .others _ => True

instance (t : Tracked) : (act : Action) → Decidable (t.InScope act)
  | .wmap .. => inferInstanceAs (Decidable (_ ∧ _))
  | .store .. => inferInstanceAs (Decidable (∃ _ ∈ _, _))
  | .wunmap _ | .wremap .. | .load .. | .others _ => inferInstanceAs (Decidable True)

instance (t : Tracked) : (act : Action) → Decidable (t.Clean act)
  | .wmap .. => inferInstanceAs (Decidable (∀ _ ∈ _, _))
  | .wremap .. => inferInstanceAs (Decidable (ite _ _ _))
  | .wunmap _ | .load .. | .store .. | .others _ => inferInstanceAs (Decidable True)

end Tracked

/-- The machine of the mappings with histories. -/
def trackedMachine : Machine Tracked Action where
  init t := t.proc.Blank ∧ t.stored = []
  step := Tracked.step

/-- The bytes of a region are zero or what its history says. -/
def Holds (s : Running) (r : Region) (history : History) : Prop :=
  ∀ k : ℕ, k < r.length → s.byte (r.addr + k) = 0 ∨ history k = some (s.byte (r.addr + k))

/-- Every mapping is anonymous and in place, and holds what its history says. -/
structure TrackedInv (t : Tracked) : Prop where
  all : AllPlaced t.proc.regions
  anonymous : t.proc.Anonymous
  length : t.stored.length = t.proc.mmaps.length
  holds : ∀ (i : ℕ) r history, t.proc.regions[i]? = some r → t.stored[i]? = some history → Holds t.proc r history

variable {s s' : Running} {r : Region} {history : History} {t t' : Tracked} {act : Action}

theorem Holds.frame (holds : Holds s r history)
    (same : ∀ k : ℕ, k < r.length → s'.byte (r.addr + k) = s.byte (r.addr + k)) :
    Holds s' r history := by
  intro k below
  rw [same k below]
  exact holds k below

private theorem Region.covers_byte {k : ℕ} (below : k < r.length) : r.Covers ((r.addr + k) / 4096) :=
  ⟨r.addr + k, by omega, by push_cast; omega, rfl⟩

theorem Region.Placed.above {k : ℕ} (placed : r.Placed) : 4096 ≤ r.addr + k := by
  have low := placed.low
  simp only [searchBase] at low
  omega

/-- What two lists have at a position after the same position was erased from both. -/
theorem getElem?_eraseIdx_pair {α β : Type*} {xs : List α} {ys : List β} {i j : ℕ} {x : α} {y : β}
    (first : (xs.eraseIdx i)[j]? = some x) (second : (ys.eraseIdx i)[j]? = some y) :
    ∃ j', j' ≠ i ∧ xs[j']? = some x ∧ ys[j']? = some y := by
  rw [List.getElem?_eraseIdx] at first second
  by_cases before : j < i
  · rw [if_pos before] at first second
    exact ⟨j, by omega, first, second⟩
  · rw [if_neg before] at first second
    exact ⟨j + 1, by omega, first, second⟩

namespace TrackedInv

/-- The entries and histories are the old ones, and no mapped byte changes. -/
theorem of_same (inv : TrackedInv t) (cores : s'.cores = t.proc.cores)
    (bytes : ∀ r ∈ t.proc.regions, ∀ k : ℕ, k < r.length → s'.byte (r.addr + k) = t.proc.byte (r.addr + k)) :
    TrackedInv ⟨s', t.stored⟩ := by
  have regions := Running.regions_of_cores cores
  refine ⟨?_, inv.anonymous.of_cores cores, ?_, ?_⟩
  · rw [regions]
    exact inv.all
  · have lengths := congrArg List.length cores
    simp only [Running.cores, List.length_map] at lengths
    rw [inv.length, lengths]
  · intro i r history here saved
    rw [regions] at here
    exact (inv.holds i r history here saved).frame (bytes r (List.mem_of_getElem? here))

private theorem wmap_step (inv : TrackedInv t) {addr flags : ℕ} {length fd : ℤ} (range : IsInt length)
    (scope : t.InScope (.wmap addr length flags fd)) (clean : t.Clean (.wmap addr length flags fd))
    {result : Option ℕ} (done : t.proc.wmap addr length flags fd = some (s', result)) :
    TrackedInv ⟨s', t.track s' (.wmap addr length flags fd)⟩ := by
  obtain ⟨anonymous, notFixed, positive⟩ := scope
  have checked : t.proc.Checked (.wmap addr length flags fd) := by
    refine .inr (.inr ?_)
    rw [if_neg (by simp [notFixed])]
    exact positive
  have all := Running.wmap_placed inv.all range checked done
  rcases Running.wmap_spec done with ⟨_, rfl⟩ | ⟨file, frame, base, s₁, s₂, _, mapped, placed, dup, allocated, added, _⟩
  · have stored : t.track t.proc (.wmap addr length flags fd) = t.stored := by
      simp only [Tracked.track, if_true]
    rw [stored]
    exact inv.of_same rfl fun _ _ _ _ => rfl
  · have same := (Running.kalloc_task allocated).trans (Running.dupFile_task dup)
    have cores := Running.addMapping_cores added
    rw [Running.cores_of_mmaps (congrArg Task.mmaps same)] at cores
    have regions : s'.regions = ⟨base, length⟩ :: t.proc.regions := by
      rw [Running.regions_eq_cores, cores, List.map_cons, ← Running.regions_eq_cores]
    have count : s'.mmaps.length = t.proc.mmaps.length + 1 := by
      have lengths := congrArg List.length regions
      simpa only [Running.regions, List.length_map, List.length_cons] using lengths
    have stored : t.track s' (.wmap addr length flags fd) = (fun _ => none) :: t.stored := by
      simp only [Tracked.track, count]
      rw [if_neg (by omega)]
    have bytes (b : ℕ) (above : 4096 ≤ b) : s'.byte b = t.proc.byte b := by
      rw [Running.addMapping_sameAbove added b above, Running.byte_of_page (congrArg Task.page same)]
    have found : findAddr t.proc.regions length = some base := by
      rw [Running.wmapAddr, if_neg (by simp [notFixed])] at placed
      split at placed
      · cases placed
      case h_2 found =>
        split at placed
        · cases placed
        · cases placed
          exact found
    refine ⟨all, ?_, ?_, ?_⟩
    · rw [Running.anonymous_iff_cores, cores]
      intro me member
      rcases List.mem_cons.mp member with rfl | old
      · simp only [Running.mapFile, anonymous, if_true, Option.some.injEq] at mapped
        exact mapped.symm
      · exact Running.anonymous_iff_cores.mp inv.anonymous me old
    · rw [stored, List.length_cons, inv.length, count]
    · intro i r history here saved
      have placed' := all.placed r (List.mem_of_getElem? here)
      rw [stored] at saved
      rw [regions] at here
      cases i with
      | zero =>
        cases here
        intro k below
        have inside : (k : ℤ) < length := below
        refine .inl ?_
        rw [bytes _ placed'.above]
        exact clean base found k (by omega)
      | succ i =>
        refine (inv.holds i r history here saved).frame fun k _ => ?_
        exact bytes _ placed'.above

private theorem wunmap_step (inv : TrackedInv t) {addr : ℕ} {result : Bool} (done : t.proc.wunmap addr = some (s', result)) :
    TrackedInv ⟨s', t.track s' (.wunmap addr)⟩ := by
  have all := Running.wunmap_placed inv.all done
  rcases Running.wunmap_spec done with ⟨_, rfl, missing⟩ | ⟨me, s₁, found, unmapped, after, _⟩
  · have stored : t.track t.proc (.wunmap addr) = t.stored := by
      simp only [Tracked.track]
      refine List.eraseIdx_of_length_le ?_
      rw [inv.length]
      refine (List.findIdx_eq_length.mpr fun me member => ?_).ge
      simpa using List.find?_eq_none.mp missing me member
    rw [stored]
    exact inv.of_same rfl fun _ _ _ _ => rfl
  · generalize index : t.proc.mmaps.findIdx (·.addr = addr) = i
    have here : t.proc.mmaps[i]? = some me := by
      rw [← index, ← List.find?_eq_getElem?_findIdx]
      exact found
    have region : t.proc.regions[i]? = some me.toRegion := by
      rw [Running.regions, List.getElem?_map, here]
      rfl
    have bound := (List.getElem?_eq_some_iff.mp here).1
    have erased : t.proc.mmaps.eraseP (·.addr = addr) = t.proc.mmaps.eraseIdx i := by
      rw [List.eraseP_eq_eraseIdx, List.findIdx?_eq_some_iff_findIdx_eq.mpr ⟨bound, index⟩]
    have mmaps : s'.mmaps = t.proc.mmaps.eraseIdx i := by
      rw [after, ← erased]
      rfl
    have bytes : s'.byte = s₁.byte := by
      rw [after]
      rfl
    have regions : s'.regions = t.proc.regions.eraseIdx i := by
      rw [Running.regions, mmaps, ← List.eraseIdx_map, ← Running.regions]
    have stored : t.track s' (.wunmap addr) = t.stored.eraseIdx i := by
      simp only [Tracked.track, index]
    have mine := inv.all.placed _ (List.mem_of_getElem? region)
    refine ⟨all, ?_, ?_, ?_⟩
    · intro other member
      rw [mmaps] at member
      exact inv.anonymous other (List.mem_of_mem_eraseIdx member)
    · rw [stored, mmaps, List.length_eraseIdx, List.length_eraseIdx, inv.length]
    · intro j r history first second
      have placed' := all.placed r (List.mem_of_getElem? first)
      rw [regions] at first
      rw [stored] at second
      obtain ⟨j', other, old, saved⟩ := getElem?_eraseIdx_pair first second
      refine (inv.holds j' r history old saved).frame fun k below => ?_
      rw [bytes]
      refine Running.unmapPages_byte mine unmapped placed'.above fun covers => ?_
      exact inv.all.apart_of_ne other old region _ ⟨Region.covers_byte below, covers⟩

private theorem store_step (inv : TrackedInv t) {a : ℕ} {value : UInt8} {input : ℕ → ℕ → UInt8}
    (scope : t.InScope (.store a value input)) (done : t.proc.store a value input = some s') :
    TrackedInv ⟨s', t.track s' (.store a value input)⟩ := by
  have cores := Running.store_cores done
  have regions := Running.regions_of_cores cores
  have bytes := Running.store_byte inv.anonymous done
  obtain ⟨me, found⟩ : ∃ me, t.proc.mmaps.find? (·.contains a) = some me := by
    obtain ⟨me, member, contains⟩ := scope
    exact Option.isSome_iff_exists.mp (List.find?_isSome.mpr ⟨me, member, contains⟩)
  generalize index : t.proc.mmaps.findIdx (·.contains a) = i
  have here : t.proc.mmaps[i]? = some me := by
    rw [← index, ← List.find?_eq_getElem?_findIdx]
    exact found
  have region : t.proc.regions[i]? = some me.toRegion := by
    rw [Running.regions, List.getElem?_map, here]
    rfl
  have mine := inv.all.placed _ (List.mem_of_getElem? region)
  have limit := mine.limit_eq
  have contains := List.find?_some found
  simp only [Region.contains, decide_eq_true_eq] at contains
  have stored : t.track s' (.store a value input) =
      t.stored.modify i fun history => Function.update history (a - me.addr) (some value) := by
    simp only [Tracked.track, found, index]
  refine ⟨?_, inv.anonymous.of_cores cores, ?_, ?_⟩
  · rw [regions]
    exact inv.all
  · have lengths := congrArg List.length cores
    simp only [Running.cores, List.length_map] at lengths
    rw [stored, List.length_modify, inv.length, lengths]
  · intro j r history first second
    rw [regions] at first
    rw [stored, List.getElem?_modify] at second
    obtain ⟨old, saved, rfl⟩ := Option.map_eq_some_iff.mp second
    have holds := inv.holds j r old first saved
    intro k below
    rw [bytes]
    by_cases same : i = j
    · subst same
      cases first.symm.trans region
      by_cases hit : me.addr + k = a
      · rw [hit, Function.update_self]
        refine .inr ?_
        rw [if_pos rfl, ← hit, Nat.add_sub_cancel_left, Function.update_self]
      · rw [Function.update_of_ne hit, if_pos rfl, Function.update_of_ne (by omega)]
        exact holds k below
    · rw [if_neg same]
      have miss : r.addr + k ≠ a := by
        intro hit
        refine inv.all.apart_of_ne (Ne.symm same) first region _ ⟨Region.covers_byte below, ?_⟩
        exact ⟨a, by omega, by omega, by rw [hit]⟩
      rw [Function.update_of_ne miss]
      exact holds k below

/-- A mapping in place is known by its address. -/
theorem index_unique (inv : TrackedInv t) {i j : ℕ} {r q : Region} (here : t.proc.regions[i]? = some r)
    (there : t.proc.regions[j]? = some q) (same : r.addr = q.addr) : i = j := by
  by_contra other
  have first := (inv.all.placed r (List.mem_of_getElem? here)).positive
  have second := (inv.all.placed q (List.mem_of_getElem? there)).positive
  refine inv.all.apart_of_ne other here there (r.addr / 4096) ⟨⟨r.addr, le_rfl, by omega, rfl⟩, ?_⟩
  exact ⟨r.addr, by omega, by omega, rfl⟩

/-- The unchecked growth in place is excluded by the condition on the step. -/
theorem checked (inv : TrackedInv t) {oldaddr flags : ℕ} {oldsize newsize : ℤ} {input : ℕ → ℕ → UInt8}
    (here : t.proc.regions[t.target oldaddr oldsize]? = some ⟨oldaddr, oldsize⟩)
    (clean : t.Clean (.wremap oldaddr oldsize newsize flags input)) :
    t.proc.Checked (.wremap oldaddr oldsize newsize flags input) := by
  simp only [Tracked.Clean] at clean
  split at clean
  case isTrue moves =>
    refine .inr (.inr ?_)
    rintro i r there rfl rfl
    rw [inv.index_unique there here rfl]
    exact moves
  case isFalse =>
    rcases clean.1 with shrinks | high
    · exact .inl shrinks
    · exact .inr (.inl high)

/-- A mapping that keeps its address. -/
theorem resize_step (inv : TrackedInv t) {oldaddr flags : ℕ} {oldsize newsize : ℤ} {input : ℕ → ℕ → UInt8}
    (here : t.proc.regions[t.target oldaddr oldsize]? = some ⟨oldaddr, oldsize⟩)
    (clean : t.Clean (.wremap oldaddr oldsize newsize flags input))
    (stays : Running.mustMove t.proc.regions (t.target oldaddr oldsize) ⟨oldaddr, oldsize⟩ newsize = false)
    (all : AllPlaced (t.proc.regions.set (t.target oldaddr oldsize) ⟨oldaddr, newsize⟩)) :
    TrackedInv ⟨{ t.proc with
      mmaps := t.proc.mmaps.modify (t.target oldaddr oldsize) fun me => { me with length := newsize } }, t.stored⟩ := by
  have regions := Running.regions_resized here newsize
  refine ⟨?_, ?_, ?_, ?_⟩
  · rw [regions]
    exact all
  · intro me member
    obtain ⟨j, there⟩ := List.mem_iff_getElem?.mp member
    rw [List.getElem?_modify] at there
    obtain ⟨old, found, rfl⟩ := Option.map_eq_some_iff.mp there
    have file := inv.anonymous old (List.mem_of_getElem? found)
    split
    · exact file
    · exact file
  · simp only [List.length_modify]
    exact inv.length
  · intro j r history first saved
    rw [regions, List.getElem?_set] at first
    split at first
    case isTrue same =>
      subst same
      split at first
      · cases first
        have old := inv.holds _ _ history here saved
        intro k below
        rcases lt_or_ge (k : ℤ) oldsize with inside | beyond
        · exact old k inside
        · simp only [Tracked.Clean, stays] at clean
          have grown := clean.2 k (by simp only at below; omega) (by omega)
          rw [List.getD_eq_getElem?_getD, saved] at grown
          exact grown
      · cases first
    case isFalse => exact inv.holds j r history first saved

/-- A mapping that moves to an address the search found. -/
theorem move_step (inv : TrackedInv t) {oldaddr flags frame newaddr : ℕ} {oldsize newsize : ℤ}
    {input : ℕ → ℕ → UInt8} {me : MmapEntry} {s₁ : Running} (range : IsInt newsize) (positive : 0 < newsize)
    (here : t.proc.regions[t.target oldaddr oldsize]? = some ⟨oldaddr, oldsize⟩)
    (member : me ∈ t.proc.mmaps) (region : me.toRegion = ⟨oldaddr, oldsize⟩)
    (clean : t.Clean (.wremap oldaddr oldsize newsize flags input))
    (moves : Running.mustMove t.proc.regions (t.target oldaddr oldsize) ⟨oldaddr, oldsize⟩ newsize)
    (placed : findAddr t.proc.regions newsize = some newaddr) (fits : uint32 (newaddr + newsize) ≤ searchLimit)
    (same : s₁.toTask = t.proc.toTask)
    (moved : s₁.moveMapping (t.target oldaddr oldsize) me frame newaddr newsize input = some s') :
    newaddr ≠ oldaddr ∧ TrackedInv ⟨s', t.stored.getD (t.target oldaddr oldsize) (fun _ => none) ::
      t.stored.eraseIdx (t.target oldaddr oldsize)⟩ := by
  generalize target : t.target oldaddr oldsize = i at *
  have old := inv.all.placed _ (List.mem_of_getElem? here)
  have grows : oldsize < newsize := by
    simp only [Running.mustMove, decide_eq_true_eq] at moves
    exact moves.1
  have both := findAddr_placed inv.all positive range placed fits
  obtain ⟨clear, _⟩ := List.pairwise_cons.mp both.apart
  have new := both.placed _ (List.mem_cons_self ..)
  have disjoint := (clear _ (List.mem_of_getElem? here)).disjoint positive old.positive
  have oldPositive := old.positive
  have oldHigh := old.high
  have newHigh := new.high
  simp only [searchLimit] at disjoint oldPositive oldHigh newHigh
  have length : me.length = oldsize := congrArg Region.length region
  have addr : me.addr = oldaddr := congrArg Region.addr region
  have size : (uint32 me.length : ℤ) = oldsize := by
    rw [length, uint32]
    omega
  have anonymous : s₁.Anonymous := inv.anonymous.of_cores (Running.cores_of_mmaps (congrArg Task.mmaps same))
  have bytes (b : ℕ) (above : 4096 ≤ b) : s'.byte b =
      if newaddr ≤ b ∧ b < newaddr + uint32 me.length then t.proc.byte (oldaddr + (b - newaddr)) else t.proc.byte b := by
    rw [Running.moveMapping_byte anonymous (inv.anonymous me member) (by omega) (by omega) (by omega) moved above,
      Running.byte_of_page (congrArg Task.page same), addr]
  have cores := Running.moveMapping_cores moved
  rw [Running.cores_of_mmaps (congrArg Task.mmaps same)] at cores
  have regions : s'.regions = ⟨newaddr, newsize⟩ :: t.proc.regions.eraseIdx i := by
    rw [Running.regions_eq_cores, cores, List.map_cons, ← List.eraseIdx_map, ← Running.regions_eq_cores]
    rfl
  have all : AllPlaced s'.regions := by
    rw [regions]
    exact both.sublist ((List.eraseIdx_sublist ..).cons_cons _)
  refine ⟨?_, all, ?_, ?_, ?_⟩
  · rintro rfl
    omega
  · rw [Running.anonymous_iff_cores, cores]
    intro other there
    rcases List.mem_cons.mp there with rfl | kept
    · exact inv.anonymous me member
    · exact Running.anonymous_iff_cores.mp inv.anonymous other (List.mem_of_mem_eraseIdx kept)
  · have lengths := congrArg List.length regions
    have bound := (List.getElem?_eq_some_iff.mp here).1
    simp only [Running.regions, List.length_map, List.length_cons, List.length_eraseIdx] at lengths bound ⊢
    rw [inv.length, lengths]
  · intro j r history first second
    rw [regions] at first
    cases j with
    | zero =>
      cases first
      cases second
      intro k below
      have inside : (k : ℤ) < newsize := below
      rw [bytes _ new.above]
      rcases lt_or_ge (k : ℤ) oldsize with copied | beyond
      · rw [if_pos (by simp only; omega), Nat.add_sub_cancel_left]
        have bound := (List.getElem?_eq_some_iff.mp here).1
        simp only [Running.regions, List.length_map] at bound
        rw [← inv.length] at bound
        have saved := List.getElem?_eq_getElem bound
        have held := inv.holds i _ _ here saved k copied
        rw [List.getD_eq_getElem?_getD, saved]
        exact held
      · rw [if_neg (by simp only; omega)]
        refine .inl ?_
        simp only [Tracked.Clean, target, moves, if_true] at clean
        exact clean newaddr placed k (by omega) (by omega)
    | succ j =>
      obtain ⟨j', other, there, saved⟩ := getElem?_eraseIdx_pair first second
      have placed' := inv.all.placed r (List.mem_of_getElem? there)
      refine (inv.holds j' r history there saved).frame fun k below => ?_
      rw [bytes _ placed'.above, if_neg ?_]
      intro meets
      refine clear r (List.mem_of_getElem? there) _ ⟨?_, Region.covers_byte below⟩
      exact ⟨r.addr + k, meets.1, by simp only; omega, rfl⟩

private theorem wremap_step (inv : TrackedInv t) {oldaddr flags : ℕ} {oldsize newsize : ℤ} {input : ℕ → ℕ → UInt8}
    (range : IsInt newsize) (clean : t.Clean (.wremap oldaddr oldsize newsize flags input)) {result : Option ℕ}
    (done : t.proc.wremap oldaddr oldsize newsize flags input = some (s', result)) :
    TrackedInv ⟨s', t.track s' (.wremap oldaddr oldsize newsize flags input)⟩ := by
  rcases Running.wremap_spec done with ⟨rfl, result'⟩ | ⟨me, i, positive, found, index, moved⟩
  · have stored : t.track t.proc (.wremap oldaddr oldsize newsize flags input) = t.stored := by
      rcases result' with rfl | rfl
      · simp only [Tracked.track, done]
      · simp only [Tracked.track, done, if_true]
    rw [stored]
    exact inv.of_same rfl fun _ _ _ _ => rfl
  · have target : t.target oldaddr oldsize = i := index.symm
    obtain ⟨here, addr, length⟩ := Running.found_region found
    have region : me.toRegion = ⟨oldaddr, oldsize⟩ := by
      rw [← addr, ← length]
    rw [← index, region] at here
    rw [← target] at here
    have all := Running.wremap_placed inv.all range (inv.checked here clean) done
    rcases moved with ⟨stays, rfl, after⟩ | ⟨newaddr, frame, s₁, moves, placed, fits, allocated, moved, rfl⟩
    · have stored : t.track s' (.wremap oldaddr oldsize newsize flags input) = t.stored := by
        simp only [Tracked.track, done, if_true]
      rw [stored]
      rw [region, ← target] at stays
      rw [← target] at after
      subst after
      rw [Running.regions_resized here] at all
      exact inv.resize_step here clean stays all
    · rw [region, ← target] at moves
      rw [← target] at moved
      have member := List.mem_of_find?_eq_some found
      obtain ⟨other, after⟩ := inv.move_step range positive here member region clean moves placed fits
        (Running.kalloc_task allocated) moved
      have stored : t.track s' (.wremap oldaddr oldsize newsize flags input) =
          t.stored.getD (t.target oldaddr oldsize) (fun _ => none) :: t.stored.eraseIdx (t.target oldaddr oldsize) := by
        simp only [Tracked.track, done, if_neg other]
      rw [stored]
      exact after

theorem step (inv : TrackedInv t) (scope : t.InScope act) (clean : t.Clean act) (done : t.step act = some t') :
    TrackedInv t' := by
  rw [Tracked.step] at done
  split at done
  · cases done
  case h_2 after stepped =>
    cases done
    obtain ⟨range, performed⟩ := Option.ite_none_right_eq_some.mp stepped
    cases act with
    | wmap addr length flags fd =>
      obtain ⟨⟨s, result⟩, called, rfl⟩ := Option.map_eq_some_iff.mp performed
      exact inv.wmap_step range.2.1 scope clean called
    | wunmap addr =>
      obtain ⟨⟨s, result⟩, called, rfl⟩ := Option.map_eq_some_iff.mp performed
      exact inv.wunmap_step called
    | wremap oldaddr oldsize newsize flags input =>
      obtain ⟨⟨s, result⟩, called, rfl⟩ := Option.map_eq_some_iff.mp performed
      exact inv.wremap_step range.2.2.1 clean called
    | load a input =>
      obtain ⟨⟨s, value⟩, loaded, rfl⟩ := Option.map_eq_some_iff.mp performed
      have same := (Running.load_byte inv.anonymous loaded).1
      exact inv.of_same (Running.load_cores loaded) fun _ _ _ _ => by rw [same]
    | store a value input => exact inv.store_step scope performed
    | others kernel =>
      cases performed
      exact inv.of_same rfl fun _ _ _ _ => rfl

end TrackedInv

/-- In every run that maps no byte with a value left in it, a load through a mapping returns zero where
nothing was stored since the mapping was made, and any other value only where it was stored last. -/
theorem loads_zero_filled
    (reached : trackedMachine.ReachableBy (fun t act => t.InScope act ∧ t.Clean act) t) (i : ℕ) {me : MmapEntry}
    {history : History} (here : t.proc.mmaps[i]? = some me) (saved : t.stored[i]? = some history) {k : ℕ}
    (inside : k < me.length) {input : ℕ → ℕ → UInt8} {value : UInt8}
    (loaded : t.proc.load (me.addr + k) input = some (s', value)) :
    (history k = none → value = 0) ∧ (value ≠ 0 → history k = some value) := by
  have inv : TrackedInv t := by
    refine reached.invariant ?_ fun t act t' allowed stepped inv => inv.step allowed.1 allowed.2 stepped
    rintro t ⟨⟨empty, _⟩, none⟩
    refine ⟨?_, ?_, ?_, ?_⟩
    · rw [Running.regions, empty]
      exact ⟨by simp, by simp⟩
    · simp [Running.Anonymous, empty]
    · rw [empty, none]
      rfl
    · intro i r history _ saved
      rw [none] at saved
      cases saved
  have region : t.proc.regions[i]? = some me.toRegion := by
    rw [Running.regions, List.getElem?_map, here]
    rfl
  have read := (Running.load_byte inv.anonymous loaded).2
  rcases inv.holds i _ history region saved k inside with zero | last
  · rw [← read] at zero
    exact ⟨fun _ => zero, fun nonzero => (nonzero zero).elim⟩
  · rw [← read] at last
    refine ⟨fun none => ?_, fun _ => last⟩
    rw [none] at last
    cases last

/-- A process without mappings and without histories. -/
def blankTracked : Tracked := ⟨blankProcess, []⟩

private theorem blankTracked_blank : trackedMachine.init blankTracked := ⟨blankProcess_blank, rfl⟩

/-- A mapping is made, a byte of it is stored to, and it shrinks. -/
def storeAndShrink (a : ℕ) (oldsize newsize : ℤ) : List Action :=
  [.wmap 0 oldsize 6 (-1), .store a 7 fun _ _ => 0, .wremap 0x60000000 oldsize newsize 0 fun _ _ => 0]

theorem loads_zero_filled_storeAndShrink : ∃ t me history s' value,
    trackedMachine.ReachableBy (fun t act => t.InScope act ∧ t.Clean act) t ∧ t.proc.mmaps[0]? = some me ∧
      t.stored[0]? = some history ∧ history 5 = none ∧ 5 < me.length ∧
      t.proc.load (me.addr + 5) (fun _ _ => 1) = some (s', value) ∧ value = 0 := by
  have run : (trackedMachine.runBy (fun t act => t.InScope act ∧ t.Clean act) blankTracked
      (storeAndShrink 0x60000003 20 10)).map (fun t =>
      (t.proc.mmaps.map (·.toRegion), t.stored.map (· 5),
        (t.proc.load (0x60000000 + 5) fun _ _ => 1).map (·.2))) =
        some ([⟨0x60000000, 10⟩], [none], some 0) := by decide +kernel
  obtain ⟨t, run, eq⟩ := Option.map_eq_some_iff.mp run
  simp only [Prod.mk.injEq] at eq
  obtain ⟨mmaps, stored, loaded⟩ := eq
  obtain ⟨me, _, entries, region, _⟩ := List.map_eq_cons_iff.mp mmaps
  obtain ⟨history, _, histories, none, _⟩ := List.map_eq_cons_iff.mp stored
  obtain ⟨⟨s', value⟩, loaded, _⟩ := Option.map_eq_some_iff.mp loaded
  have reached := Machine.reachableBy_of_runBy blankTracked_blank _ run
  have here : t.proc.mmaps[0]? = some me := by
    rw [entries]
    rfl
  have saved : t.stored[0]? = some history := by
    rw [histories]
    rfl
  have addr : me.addr = 0x60000000 := congrArg Region.addr region
  have length : me.length = 10 := congrArg Region.length region
  have inside : ((5 : ℕ) : ℤ) < me.length := by
    rw [length]
    decide
  rw [← addr] at loaded
  exact ⟨t, me, history, s', value, reached, here, saved, none, inside, loaded,
    (loads_zero_filled reached 0 here saved inside loaded).1 none⟩

/-- The page that the shrink left becomes part of a new mapping, through which its old value is read. -/
theorem loads_stale : ∃ t me history, trackedMachine.ReachableBy Tracked.InScope t ∧ t.proc.mmaps[0]? = some me ∧
    t.stored[0]? = some history ∧ history 0 = none ∧ 0 < me.length ∧
    (t.proc.load me.addr fun _ _ => 0).map (·.2) = some 7 := by
  have run : (trackedMachine.runBy Tracked.InScope blankTracked (storeAndShrink 0x60001000 8192 4096 ++
    [.wmap 0 4096 6 (-1)])).map (fun t =>
      (t.proc.mmaps.map (·.toRegion), t.stored.map (· 0), (t.proc.load 0x60001000 fun _ _ => 0).map (·.2))) =
        some ([⟨0x60001000, 4096⟩, ⟨0x60000000, 4096⟩], [none, none], some 7) := by decide +kernel
  obtain ⟨t, run, eq⟩ := Option.map_eq_some_iff.mp run
  simp only [Prod.mk.injEq] at eq
  obtain ⟨mmaps, stored, loaded⟩ := eq
  obtain ⟨me, _, entries, region, _⟩ := List.map_eq_cons_iff.mp mmaps
  obtain ⟨history, _, histories, none, _⟩ := List.map_eq_cons_iff.mp stored
  have reached := Machine.reachableBy_of_runBy blankTracked_blank _ run
  have addr : me.addr = 0x60001000 := congrArg Region.addr region
  have length : me.length = 4096 := congrArg Region.length region
  refine ⟨t, me, history, reached, by rw [entries]; rfl, by rw [histories]; rfl, none, ?_, ?_⟩
  · rw [length]
    decide
  · rw [addr]
    exact loaded

end Cs537.Wmap
