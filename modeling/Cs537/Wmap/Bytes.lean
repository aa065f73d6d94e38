import Cs537.Wmap.Placement

/-! # Memory as bytes

A byte of a page that is not present counts as zero, which is what a fault in an anonymous mapping makes of
it. In this view loads and faults change nothing, a store changes one byte, the copy of `sys_wremap` copies,
and the loops over the pages of a region change no byte of another page, the first page of the process
apart.
-/

namespace Cs537.Wmap

open Lib

namespace Running

variable {s s' : Running} {a n v : ℕ} {input : ℕ → ℕ → UInt8} {value : UInt8} {me : MmapEntry}

/-- The byte at an address. -/
def byte (s : Running) (a : ℕ) : UInt8 :=
  match s.page (a / 4096) with
  | none => 0
  | some page => page.data (a % 4096)

/-- No mapping has a file. -/
def Anonymous (s : Running) : Prop := ∀ me ∈ s.mmaps, me.file = none

theorem byte_of_page (same : s'.page = s.page) : s'.byte = s.byte := by
  funext b
  rw [byte, byte, same]

private theorem byte_setPage_self (s : Running) {b : ℕ} (here : b / 4096 = v) (page : Page) :
    (s.setPage v (some page)).byte b = page.data (b % 4096) := by
  simp only [byte, setPage, here, Function.update_self]

private theorem byte_setPage_of_ne (s : Running) {b : ℕ} (other : b / 4096 ≠ v) (value : Option Page) :
    (s.setPage v value).byte b = s.byte b := by
  simp only [byte, setPage, Function.update_of_ne other]

theorem byte_of_present {b : ℕ} {page : Page} (present : s.page (b / 4096) = some page) :
    s.byte b = page.data (b % 4096) := by
  rw [byte, present]

theorem anonymous_iff_cores : s.Anonymous ↔ ∀ me ∈ s.cores, me.file = none := by
  simp only [Anonymous, cores, List.forall_mem_map]
  rfl

theorem Anonymous.of_cores (anonymous : s.Anonymous) (same : s'.cores = s.cores) : s'.Anonymous := by
  rw [anonymous_iff_cores, same, ← anonymous_iff_cores]
  exact anonymous

private theorem fault_byte (anonymous : s.Anonymous) {from_ : ℕ → UInt8} (done : s.fault a from_ = some s') :
    s'.byte = s.byte := by
  obtain ⟨me, data, frame, found, absent, _, page, _, zero⟩ := fault_spec done
  funext b
  rw [byte, byte, page]
  by_cases here : b / 4096 = a / 4096
  · rw [here, Function.update_self, absent, zero (anonymous me (List.mem_of_find?_eq_some found))]
  · rw [Function.update_of_ne here]

theorem load_byte (anonymous : s.Anonymous) (done : s.load a input = some (s', value)) :
    s'.byte = s.byte ∧ value = s.byte a := by
  rw [load] at done
  split at done
  · cases done
  · split at done
    case h_1 page present =>
      cases done
      exact ⟨rfl, (byte_of_present present).symm⟩
    case h_2 =>
      split at done
      · cases done
      case h_2 t handled =>
        obtain ⟨page, present, pair⟩ := Option.map_eq_some_iff.mp done
        cases pair
        have same := fault_byte anonymous handled
        refine ⟨same, ?_⟩
        rw [← same, byte, present]

private theorem poke_byte (done : s.poke a value = some s') : s'.byte = Function.update s.byte a value := by
  rw [poke] at done
  split at done
  · cases done
  case h_2 page present =>
    split at done
    · cases done
      funext b
      by_cases here : b = a
      · rw [here, Function.update_self, byte_setPage_self s rfl]
        exact Function.update_self ..
      · rw [Function.update_of_ne here]
        by_cases same : b / 4096 = a / 4096
        · rw [← same] at present
          rw [byte_setPage_self s same, byte_of_present present]
          refine Function.update_of_ne ?_ ..
          omega
        · exact byte_setPage_of_ne s same _
    · cases done

theorem store_byte (anonymous : s.Anonymous) (done : s.store a value input = some s') :
    s'.byte = Function.update s.byte a value := by
  rw [store] at done
  split at done
  · cases done
  · split at done
    · exact poke_byte done
    · split at done
      · cases done
      case h_2 handled => rw [poke_byte done, fault_byte anonymous handled]

/-- The copy between ranges that do not meet. -/
private theorem copyUp_byte (anonymous : s.Anonymous) {dst src : ℕ} (apart : src + n ≤ dst ∨ dst + n ≤ src)
    (low : src + n < 2 ^ 32) (low' : dst + n < 2 ^ 32) (done : copyUp input n dst src s = some s') (b : ℕ) :
    s'.byte b = if dst ≤ b ∧ b < dst + n then s.byte (src + (b - dst)) else s.byte b := by
  induction n generalizing s dst src with
  | zero =>
    cases done
    rw [if_neg (by omega)]
  | succ n ih =>
    rw [copyUp] at done
    split at done
    · cases done
    case h_2 s₁ value loaded =>
      split at done
      · cases done
      case h_2 s₂ stored =>
        obtain ⟨same, read⟩ := load_byte anonymous loaded
        have anonymous₁ := anonymous.of_cores (load_cores loaded)
        have after := store_byte anonymous₁ stored
        have anonymous₂ := anonymous₁.of_cores (store_cores stored)
        have next : uint32 ((dst : ℤ) + 1) = dst + 1 := by
          rw [uint32]
          omega
        have next' : uint32 ((src : ℤ) + 1) = src + 1 := by
          rw [uint32]
          omega
        rw [next, next'] at done
        rw [ih anonymous₂ (by omega) (by omega) (by omega) done, after, same, read]
        by_cases first : b = dst
        · rw [if_neg (by omega), if_pos (by omega), first, Function.update_self, Nat.sub_self, Nat.add_zero]
        · by_cases inside : dst + 1 ≤ b ∧ b < dst + 1 + n
          · rw [if_pos inside, if_pos (by omega), Function.update_of_ne (by omega)]
            congr 1
            omega
          · rw [if_neg inside, if_neg (by omega), Function.update_of_ne first]

/-- The first page of the process is the only one that a null pointer reaches. -/
def SameAbove (s s' : Running) : Prop := ∀ b, 4096 ≤ b → s'.byte b = s.byte b

theorem SameAbove.trans {s'' : Running} (first : SameAbove s s') (second : SameAbove s' s'') : SameAbove s s'' :=
  fun b above => (second b above).trans (first b above)

private theorem poke_sameAbove (low : a < 4096) (done : s.poke a value = some s') : SameAbove s s' := by
  intro b above
  rw [poke_byte done, Function.update_of_ne (by omega)]

private theorem pokeNullOff_sameAbove (done : s.pokeNullOff n = some s') : SameAbove s s' := by
  have rule (t : Running) (i : ℕ) (round : i ∈ List.range 4) (t' : Running)
      (poked : t.poke (20 + i) (n / 256 ^ i).toUInt8 = some t') (keep : SameAbove s t) : SameAbove s t' := by
    rw [List.mem_range] at round
    exact keep.trans (poke_sameAbove (by omega) poked)
  exact foldlM_preserves rule done fun _ _ => rfl

private theorem writeBack_sameAbove {file : Option (Fin nfile)} {off : Option ℕ} (done : s.writeBack file off a = some s') :
    SameAbove s s' := by
  unfold writeBack at done
  split at done
  · intro b _
    rw [byte_of_page (congrArg Task.page (onKernel_task done))]
  · split at done
    · cases done
    case h_2 t stored =>
      have same : SameAbove s t := by
        split at stored
        · cases stored
          exact fun _ _ => rfl
        · exact pokeNullOff_sameAbove stored
      split at done
      · cases done
      · split at done
        · cases done
          exact same
        · cases done

private theorem protectPage_sameAbove (done : protectPage me s n = some s') : SameAbove s s' := by
  simp only [protectPage] at done
  split at done
  · cases done
  · split at done
    · split at done
      · cases done
      · exact poke_sameAbove (by decide) done
    · split at done
      · cases done
        exact fun _ _ => rfl
      case h_2 page present =>
        cases done
        intro b _
        by_cases here : b / 4096 = uint32 (me.addr + n) / 4096
        · rw [← here] at present
          rw [byte_setPage_self s here, byte_of_present present]
        · exact byte_setPage_of_ne s here _

private theorem writeLowPage_sameAbove {newsize : ℤ} (done : writeLowPage me newsize s n = some s') : SameAbove s s' := by
  simp only [writeLowPage] at done
  split at done
  · cases done
  · split at done
    · cases done
      exact fun _ _ => rfl
    · split at done
      · exact writeBack_sameAbove done
      · cases done
        exact fun _ _ => rfl

/-- A page that is unmapped changes no byte of another page above the first. -/
private theorem unmapPrivatePage_byte (done : unmapPrivatePage me s n = some s') {b : ℕ}
    (other : b / 4096 ≠ uint32 (me.addr + n) / 4096) : s'.byte b = s.byte b := by
  simp only [unmapPrivatePage] at done
  split at done
  · cases done
  · cases done
    exact byte_setPage_of_ne s other _

private theorem unmapSharedPage_byte {setsOff : Bool} (done : unmapSharedPage setsOff me s n = some s') {b : ℕ}
    (above : 4096 ≤ b) (other : b / 4096 ≠ uint32 (me.addr + n) / 4096) : s'.byte b = s.byte b := by
  simp only [unmapSharedPage] at done
  split at done
  · cases done
  · split at done
    · cases done
      rfl
    · split at done
      · cases done
      case h_2 t written =>
        cases done
        have same : SameAbove s t := by
          split at written
          · exact writeBack_sameAbove written
          · cases written
            exact fun _ _ => rfl
        exact (byte_setPage_of_ne t other none).trans (same b above)

end Running

/-- The loop over a region in place visits pages of the region only. -/
private theorem Region.Placed.offsets_covers {r : Region} (placed : r.Placed) {offsets : List ℕ} (all : r.offsets = some offsets)
    {i : ℕ} (member : i ∈ offsets) : r.Covers (uint32 (r.addr + i) / 4096) := by
  have positive := placed.positive
  have high := placed.high
  simp only [searchLimit] at high
  have size : (uint32 r.length : ℤ) = r.length := by
    rw [uint32]
    omega
  rw [Region.offsets] at all
  split at all
  · cases all
  · cases all
    obtain ⟨j, round, rfl⟩ := List.mem_map.mp member
    rw [List.mem_range] at round
    have inside : uint32 ((r.addr : ℤ) + (4096 * j : ℕ)) = r.addr + 4096 * j := by
      rw [uint32]
      omega
    rw [inside]
    exact ⟨r.addr + 4096 * j, by omega, by omega, rfl⟩

namespace Running

variable {s s' : Running} {a n v : ℕ} {input : ℕ → ℕ → UInt8} {value : UInt8} {me : MmapEntry}

private theorem forPages_sameAbove {r : Region} {body : Running → ℕ → Option Running}
    (keeps : ∀ s i s', body s i = some s' → SameAbove s s') (done : s.forPages r body = some s') : SameAbove s s' := by
  rw [forPages] at done
  split at done
  · cases done
  case h_2 offsets _ =>
    have rule (t : Running) (i : ℕ) (_ : i ∈ offsets) (t' : Running) (round : body t i = some t')
        (keep : SameAbove s t) : SameAbove s t' := keep.trans (keeps t i t' round)
    exact foldlM_preserves rule done fun _ _ => rfl

theorem addMapping_sameAbove {frame addr flags : ℕ} {length : ℤ} {file : Option (Fin nfile)}
    (done : s.addMapping frame addr length flags file = some s') : SameAbove s s' := by
  simp only [addMapping] at done
  split at done
  · cases done
  case h_2 t marked =>
    cases done
    have same : SameAbove s t := by
      split at marked
      · exact forPages_sameAbove (fun _ _ _ => protectPage_sameAbove) marked
      · cases marked
        exact fun _ _ => rfl
    exact same

/-- A move copies the bytes of the old range, which stay where they are. -/
theorem moveMapping_byte {i frame newaddr : ℕ} {newsize : ℤ} (anonymous : s.Anonymous) (mine : me.file = none)
    (apart : me.addr + uint32 me.length ≤ newaddr ∨ newaddr + uint32 me.length ≤ me.addr)
    (low : me.addr + uint32 me.length < 2 ^ 32) (low' : newaddr + uint32 me.length < 2 ^ 32)
    (done : s.moveMapping i me frame newaddr newsize input = some s') {b : ℕ} (above : 4096 ≤ b) :
    s'.byte b = if newaddr ≤ b ∧ b < newaddr + uint32 me.length then s.byte (me.addr + (b - newaddr)) else s.byte b := by
  simp only [moveMapping] at done
  split at done
  · cases done
  case h_2 s₁ copied =>
    split at done
    · cases done
    case h_2 s₂ written =>
      cases done
      let newme : MmapEntry := { me with addr := newaddr, length := newsize, frame := frame }
      have start : Anonymous { s with mmaps := newme :: s.mmaps } := by
        intro other member
        rcases List.mem_cons.mp member with rfl | old
        · exact mine
        · exact anonymous other old
      have same : SameAbove s₁ s₂ := by
        split at written
        · exact forPages_sameAbove (fun _ _ _ => writeLowPage_sameAbove) written
        · cases written
          exact fun _ _ => rfl
      have forward : ¬ (me.addr < newaddr ∧ uint32 (me.addr + (uint32 me.length : ℕ)) > newaddr) := by
        have exact : uint32 ((me.addr : ℤ) + (uint32 me.length : ℕ)) = me.addr + uint32 me.length := by
          generalize uint32 me.length = size at *
          rw [uint32]
          omega
        rw [exact]
        omega
      rw [memmove, if_neg forward] at copied
      exact (same b above).trans (copyUp_byte start apart low low' copied b)

/-- Unmapping a region in place changes no byte of a page it does not cover. -/
theorem unmapPages_byte (placed : me.toRegion.Placed) (done : s.unmapPages me = some s') {b : ℕ} (above : 4096 ≤ b)
    (outside : ¬ me.toRegion.Covers (b / 4096)) : s'.byte b = s.byte b := by
  have loop {body : Running → ℕ → Option Running} {t : Running}
      (keeps : ∀ t i t', body t i = some t' → b / 4096 ≠ uint32 (me.addr + i) / 4096 → t'.byte b = t.byte b)
      (done : s.forPages me.toRegion body = some t) : t.byte b = s.byte b := by
    rw [forPages] at done
    split at done
    · cases done
    case h_2 offsets all =>
      have rule (u : Running) (i : ℕ) (round : i ∈ offsets) (u' : Running) (step : body u i = some u')
          (keep : u.byte b = s.byte b) : u'.byte b = s.byte b := by
        refine (keeps u i u' step ?_).trans keep
        intro same
        rw [same] at outside
        exact outside (placed.offsets_covers all round)
      exact foldlM_preserves rule done rfl
  rw [unmapPages] at done
  split at done
  · exact loop (fun _ _ _ step other => unmapPrivatePage_byte step other) done
  · split at done
    · split at done
      · cases done
      case h_2 t unmapped =>
        rw [byte_of_page (congrArg Task.page (closeFile_task done))]
        exact loop (fun _ _ _ step other => unmapSharedPage_byte step above other) unmapped
    · cases done
      rfl

end Running

end Cs537.Wmap
