import Cs537.Wmap.MoveBack
import Cs537.Wmap.Unmap

/-! # Shared mappings without a file

The three loops that take down a shared mapping go to its file for every page that is present and writable, and
an anonymous mapping has no file: the null pointer is followed, in `sys_wunmap` for a store. As long as no such
page comes, nothing outside the mapping changes.
-/

namespace Cs537.Wmap

open Lib

namespace Running

variable {s s' t : Running} {me : MmapEntry} {setsOff : Bool} {i v : ℕ} {newsize : ℤ}

/-- The page of a round is present and writable, and the shared branch goes to the file of the mapping. -/
def goesToFile (me : MmapEntry) (s : Running) (i : ℕ) : Bool :=
  !isKernel (me.pageAt i) && (s.page (me.pageAt i)).any (·.writable)

/-- The rounds in which the loop of the shared branch goes to the file. -/
def fileUses (setsOff : Bool) (me : MmapEntry) (s : Running) : List ℕ :=
  touched (unmapSharedPage setsOff me) (goesToFile me) me.rounds s

/-- The same for the write-back in `sys_wremap`. -/
def lowGoesToFile (newsize : ℤ) (s : Running) (i : ℕ) : Bool :=
  !isKernel (uint32 (newsize + i) / 4096) && (s.page (uint32 (newsize + i) / 4096)).any (·.writable)

/-- Where the write-back of a mapping that moves begins: the new address, and the state after the copy. -/
def copiedTo (s : Running) (oldaddr : ℕ) (oldsize newsize : ℤ) (flags : ℕ) (input : ℕ → ℕ → UInt8) :
    Option (ℕ × Running) :=
  if newsize ≤ 0 then none
  else match s.mmaps.find? fun me => me.addr = oldaddr ∧ me.length = oldsize with
    | none => none
    | some me =>
        let i := s.mmaps.findIdx fun me => me.addr = oldaddr ∧ me.length = oldsize
        if mustMove s.regions i me.toRegion newsize = false ∨ mayMove flags = false then none
        else match findAddr s.regions newsize with
          | none => none
          | some newaddr =>
              if uint32 (newaddr + newsize) > searchLimit then none
              else match s.kalloc with
                | none => none
                | some (frame, s) =>
                    ((s.begun (newEntry me frame newaddr newsize)).memmove newaddr me.addr (uint32 me.length) input).map
                      (newaddr, ·)

/-- The rounds in which `sys_wremap` goes to the file of a shared mapping. -/
def moveUses (s : Running) (me : MmapEntry) (oldaddr : ℕ) (oldsize newsize : ℤ) (flags : ℕ) (input : ℕ → ℕ → UInt8) :
    List ℕ :=
  match s.copiedTo oldaddr oldsize newsize flags input with
  | none => []
  | some (_, t) => touched (writeLowPage me newsize) (lowGoesToFile newsize) (Region.rounds ⟨0, newsize⟩) t

/-- No file is written, and only pages of the range change. -/
structure OnlyWithin (inside : ℕ → Prop) (s s' : Running) : Prop where
  file : s'.file = s.file
  inode : s'.inode = s.inode
  page : ∀ v, ¬ inside v → s'.page v = s.page v

theorem OnlyWithin.refl (inside : ℕ → Prop) (s : Running) : OnlyWithin inside s s := ⟨rfl, rfl, fun _ _ => rfl⟩

theorem OnlyWithin.trans {inside : ℕ → Prop} (first : OnlyWithin inside s t) (second : OnlyWithin inside t s') :
    OnlyWithin inside s s' :=
  ⟨second.file.trans first.file, second.inode.trans first.inode,
    fun v outside => (second.page v outside).trans (first.page v outside)⟩

/-- No page that the loop over the mapping comes to is present and writable. -/
def NoneWritable (s : Running) (me : MmapEntry) : Prop :=
  ∀ i ∈ me.rounds, ∀ page, s.page (me.pageAt i) = some page → page.writable = false

/-- A round that does not go to the file clears its page, and no more. -/
theorem unmapSharedPage_quiet (setsOff : Bool) (user : isKernel (me.pageAt i) = false)
    (quiet : goesToFile me s i = false) :
    ∃ t, unmapSharedPage setsOff me s i = some t ∧ t.page = Function.update s.page (me.pageAt i) none ∧
      t.file = s.file ∧ t.inode = s.inode := by
  rw [goesToFile, user, Bool.not_false, Bool.true_and] at quiet
  simp only [unmapSharedPage, Region.pageAt] at user quiet ⊢
  rw [user]
  cases present : s.page (uint32 (me.addr + i) / 4096) with
  | none =>
    have same : Function.update s.page (uint32 (me.addr + i) / 4096) none = s.page := by
      rw [← present, Function.update_eq_self]
    exact ⟨s, rfl, same.symm, rfl, rfl⟩
  | some page =>
    rw [present, Option.any_some] at quiet
    simp only [quiet, Bool.false_eq_true, if_false]
    exact ⟨_, rfl, rfl, rfl, rfl⟩

/-- The loop never goes to the file if and only if no page of the mapping is writable. -/
theorem fileUses_eq_nil_iff (setsOff : Bool) (user : me.toRegion.InUser) :
    fileUses setsOff me s = [] ↔ s.NoneWritable me := by
  have quiet (t : Running) (i : ℕ) (member : i ∈ me.rounds) (quiet : goesToFile me t i = false) :
      ∃ t', unmapSharedPage setsOff me t i = some t' ∧ goesToFile me t' = goesToFile me t := by
    obtain ⟨t', round, page, _⟩ := unmapSharedPage_quiet setsOff (user i member) quiet
    refine ⟨t', round, funext fun j => ?_⟩
    by_cases same : me.pageAt j = me.pageAt i
    · simp only [goesToFile, same] at quiet ⊢
      rw [quiet, page, Function.update_self]
      simp
    · simp only [goesToFile, page, Function.update_of_ne same]
  rw [fileUses, touched_eq_nil_iff quiet, NoneWritable]
  refine forall₂_congr fun i member => ?_
  simp only [goesToFile, user i member, Bool.not_false, Bool.true_and]
  cases s.page (me.pageAt i) <;> simp

/-- A loop that never goes to the file stays within the mapping. -/
theorem unmapShared_within (never : fileUses setsOff me s = [])
    (done : s.forPages me.toRegion (unmapSharedPage setsOff me) = some s') :
    OnlyWithin me.Spans s s' := by
  have rule (t : Running) (i : ℕ) (round : i ∈ me.rounds) (t' : Running) (quiet : goesToFile me t i = false)
      (done : unmapSharedPage setsOff me t i = some t') (within : OnlyWithin me.Spans s t) :
        OnlyWithin me.Spans s t' := by
    have user : isKernel (me.pageAt i) = false := by
      simp only [unmapSharedPage] at done
      split at done
      · cases done
      case isFalse user => exact Bool.eq_false_iff.mpr user
    obtain ⟨u, same, page, file, inode⟩ := unmapSharedPage_quiet setsOff user quiet
    cases same.symm.trans done
    refine within.trans ⟨file, inode, fun v outside => ?_⟩
    rw [page, Function.update_of_ne]
    rintro rfl
    exact outside ⟨i, (Region.mem_rounds.mp round).1, rfl⟩
  exact foldlM_untouched rule never (forPages_eq.mp done).2 (.refl _ _)

section Copy

variable {inside : ℕ → Prop} {a n src dst : ℕ} {q newme : MmapEntry} {input : ℕ → ℕ → UInt8}

/-- A fault at the address would be served by a mapping without a file, and is inside the range. -/
def Bare (inside : ℕ → Prop) (s : Running) (a : ℕ) : Prop := inside (a / 4096) ∧ ∃ q, s.Serves q a ∧ q.file = none

theorem Bare.congr (bare : Bare inside s a) (same : t.cores = s.cores) : Bare inside t a := by
  obtain ⟨range, q, serves, none⟩ := bare
  exact ⟨range, q, by rwa [Serves, same], none⟩

/-- An access that needs no file loads at most the page of its address. -/
theorem Access.within {from_ : ℕ → UInt8} (bare : Bare inside s a) (access : Access s a from_ t) :
    OnlyWithin inside s t ∧ t.cores = s.cores := by
  obtain ⟨range, q, serves, bareFile⟩ := bare
  cases access with
  | present page present => exact ⟨.refl _ _, rfl⟩
  | fault t absent handled =>
    obtain ⟨_, _, _, _, _, _, page, cores, _⟩ := fault_spec handled
    obtain ⟨me, frame, data, s₁, s₂, s₃, found, allocated, filled, walked, _, _, rfl⟩ := fault_cases handled
    have noFile : me.file = none := by
      have same : me.core = q.core := Option.some.inj ((serves_of_find found).symm.trans serves)
      have file : me.core.file = q.core.file := congrArg MmapEntry.file same
      exact file.trans bareFile
    rw [fill, noFile] at filled
    cases filled
    obtain ⟨file₁, inode₁⟩ := kalloc_files allocated
    obtain ⟨file₃, inode₃⟩ := walkAlloc_files walked
    refine ⟨⟨file₃.trans file₁, inode₃.trans inode₁, fun v outside => ?_⟩, cores⟩
    rw [page, Function.update_of_ne]
    rintro rfl
    exact outside range

private theorem load_within {byte : UInt8} (bare : Bare inside s a) (done : s.load a input = some (t, byte)) :
    OnlyWithin inside s t ∧ t.cores = s.cores :=
  (load_access done).1.within bare

private theorem store_within {byte : UInt8} (bare : Bare inside s a) (done : s.store a byte input = some t) :
    OnlyWithin inside s t ∧ t.cores = s.cores := by
  obtain ⟨u, page, access, _, _, rfl⟩ := store_access done
  obtain ⟨within, cores⟩ := access.within bare
  refine ⟨within.trans ⟨rfl, rfl, fun v outside => Function.update_of_ne ?_ _ _⟩, cores⟩
  rintro rfl
  exact outside bare.1

private theorem memmove_within (small : src < 2 ^ 32) (small' : dst < 2 ^ 32)
    (bare : ∀ j < n, Bare inside s (uint32 (src + (j : ℤ))) ∧ Bare inside s (uint32 (dst + (j : ℤ))))
    (done : s.memmove dst src n input = some t) : OnlyWithin inside s t := by
  have reduced {base b : ℕ} (low : base < 2 ^ 32) (address : CopyAddr base n b) : ∃ j < n, b = uint32
    (base + (j : ℤ)) := by
    obtain ⟨j, below, same | ⟨rfl, rfl⟩⟩ := address
    · exact ⟨j, below, same⟩
    · exact ⟨0, below, (uint32_add_zero low).symm⟩
  suffices both : OnlyWithin inside s t ∧ t.cores = s.cores from both.1
  refine memmove_preserves (fun u => OnlyWithin inside s u ∧ u.cores = s.cores) done ?_ ?_ ⟨.refl _ _, rfl⟩
  · rintro u b u' byte address loaded ⟨within, cores⟩
    obtain ⟨j, below, rfl⟩ := reduced small address
    obtain ⟨round, cores'⟩ := load_within ((bare j below).1.congr cores) loaded
    exact ⟨within.trans round, cores'.trans cores⟩
  · rintro u b byte u' address stored ⟨within, cores⟩
    obtain ⟨j, below, rfl⟩ := reduced small' address
    obtain ⟨round, cores'⟩ := store_within ((bare j below).2.congr cores) stored
    exact ⟨within.trans round, cores'.trans cores⟩

end Copy

section Move

variable {oldaddr flags newaddr : ℕ} {oldsize : ℤ} {input : ℕ → ℕ → UInt8} {result : Option ℕ}

/-- No page at `newsize + i` is one of `kmap`. -/
def LowInUser (newsize : ℤ) : Prop := ∀ i ∈ Region.rounds ⟨0, newsize⟩, isKernel (uint32 (newsize + i) / 4096) = false

/-- No page at `newsize + i` is present and writable or brought by the copy. -/
def NoneExposed (s : Running) (me : MmapEntry) (newaddr : ℕ) (newsize : ℤ) : Prop :=
  ∀ i ∈ Region.rounds ⟨0, newsize⟩, ¬ s.Exposed me newaddr newsize (i / 4096)

private theorem copiedTo_cases (target : s.Target oldaddr oldsize i me)
    (copied : s.copiedTo oldaddr oldsize newsize flags input = some (newaddr, t)) :
    0 < newsize ∧ mustMove s.regions i me.toRegion newsize = true ∧ mayMove flags = true ∧
      findAddr s.regions newsize = some newaddr ∧ uint32 (newaddr + newsize) ≤ searchLimit ∧
      ∃ frame s₁, s.kalloc = some (frame, s₁) ∧
        (s₁.begun (newEntry me frame newaddr newsize)).memmove newaddr me.addr (uint32 me.length) input = some t := by
  obtain ⟨found, rfl⟩ := target
  rw [copiedTo] at copied
  split at copied
  · cases copied
  case isFalse positive =>
    simp only [found] at copied
    split at copied
    · cases copied
    case isFalse moves =>
      rw [not_or, Bool.not_eq_false, Bool.not_eq_false] at moves
      split at copied
      · cases copied
      case h_2 searched =>
        split at copied
        · cases copied
        case isFalse fits =>
          split at copied
          · cases copied
          case h_2 frame s₁ allocated =>
            obtain ⟨u, moved, pair⟩ := Option.map_eq_some_iff.mp copied
            cases pair
            exact ⟨by omega, moves.1, moves.2, searched, by omega, frame, s₁, allocated, moved⟩

variable (exclusive : Exclusive s.regions) (small : oldaddr < 2 ^ 32) (range : IsInt oldsize) (range' : IsInt newsize)
  (target : s.Target oldaddr oldsize i me)

include exclusive small range range' target

/-- The copy of a mapping that moves brings its pages, and without a file it touches nothing else. -/
theorem copiedTo_spec (copied : s.copiedTo oldaddr oldsize newsize flags input = some (newaddr, t)) :
    (∀ j, t.Dirty newsize j ↔ s.Exposed me newaddr newsize j) ∧
      (me.file = none → OnlyWithin (fun v => me.Spans v ∨ Region.Spans ⟨newaddr, newsize⟩ v) s t) := by
  obtain ⟨rfl, rfl⟩ := target.asked
  obtain ⟨positive, moves, _, searched, fits, frame, s₁, allocated, moved⟩ := copiedTo_cases target copied
  have regions : s₁.regions = s.regions := by
    rw [Running.regions, congrArg Task.mmaps (kalloc_task allocated), Running.regions]
  have here : s₁.mmaps[i]? = some me := by
    rw [congrArg Task.mmaps (kalloc_task allocated)]
    exact target.here
  have page : (s₁.begun (newEntry me frame newaddr newsize)).page = s.page :=
    (congrArg Task.page (kalloc_task allocated) :)
  have start (inside : ℕ → Prop) : OnlyWithin inside s (s₁.begun (newEntry me frame newaddr newsize)) :=
    ⟨(kalloc_files allocated).1, (kalloc_files allocated).2, fun v _ => congrFun page v⟩
  obtain ⟨aligned, small', clear⟩ := findAddr_clear searched fits
  rw [← regions] at clear exclusive
  rcases Nat.eq_zero_or_pos (uint32 me.length) with empty | some
  · rw [empty] at moved
    have same : t = s₁.begun (newEntry me frame newaddr newsize) := by
      rw [memmove] at moved
      split at moved <;> exact (Option.some.inj moved).symm
    subst same
    have copying : Copying (s₁.begun (newEntry me frame newaddr newsize)) me input me.addr newaddr 0 (uint32 me.length)
        (s₁.begun (newEntry me frame newaddr newsize)) := by
      rw [empty]
      exact .refl _ _ _ _ _ _
    exact ⟨copying.dirty_iff page, fun _ => start _⟩
  · have grows : me.length < newsize := by
      simp only [mustMove, decide_eq_true_eq] at moves
      exact moves.1
    have user := memmove_user small small' moved
    have low := range_low small some fun j below => (user j below).1
    have low' := range_low small' some fun j below => (user j below).2
    have apart : (newEntry me frame newaddr newsize).addr ≠ me.addr := by
      intro same
      have own := clear _ (List.mem_of_getElem? (region_here here))
      obtain ⟨_, _⟩ := range
      obtain ⟨_, _⟩ := range'
      simp only [newEntry] at same
      simp only [Region.overlaps, decide_eq_false_iff_not] at own
      rw [Region.limit] at own
      simp only [uint32, searchLimit] at own fits low some low'
      omega
    obtain ⟨size, ranges⟩ := begun_ranges exclusive here clear aligned grows apart range range' some low low'
    obtain ⟨_, copying⟩ := memmove_copying exclusive here clear aligned grows apart range range' small small' moved
    refine ⟨fun j => copying.dirty_iff page j, fun noFile => (start _).trans (memmove_within small small' ?_ moved)⟩
    intro j below
    have bound := ranges.low
    have bound' := ranges.low'
    have old : uint32 ((me.addr : ℤ) + j) = me.addr + j := by
      rw [uint32]
      omega
    have new : uint32 ((newaddr : ℤ) + j) = newaddr + j := by
      simp only [newEntry] at bound'
      rw [uint32]
      omega
    obtain ⟨_, _⟩ := range'
    refine ⟨⟨.inl ⟨j, below, rfl⟩, me, ?_, noFile⟩, ⟨.inr ⟨j, ?_, rfl⟩, newEntry me frame newaddr newsize, ?_, noFile⟩⟩
    · rw [old]
      exact ranges.old j below
    · show j < uint32 newsize
      rw [uint32]
      omega
    · rw [new]
      exact ranges.new j below

/-- The write-back of a mapping that moves never goes to the file if and only if no page is exposed to it. -/
private theorem moveUses_eq_nil_iff (low : LowInUser newsize) : s.moveUses me oldaddr oldsize newsize flags input = [] ↔
    ∀ newaddr t, s.copiedTo oldaddr oldsize newsize flags input = some (newaddr, t) →
    s.NoneExposed me newaddr newsize := by
  rw [moveUses]
  cases copied : s.copiedTo oldaddr oldsize newsize flags input with
  | none => simp
  | some pair =>
    obtain ⟨newaddr, t⟩ := pair
    have exposed := (copiedTo_spec exclusive small range range' target copied).1
    have quiet (t : Running) (i : ℕ) (member : i ∈ Region.rounds ⟨0, newsize⟩)
      (quiet : lowGoesToFile newsize t i = false) :
        ∃ t', writeLowPage me newsize t i = some t' ∧ lowGoesToFile newsize t' = lowGoesToFile newsize t := by
      refine ⟨t, ?_, rfl⟩
      have user := low i member
      rw [lowGoesToFile, user, Bool.not_false, Bool.true_and] at quiet
      simp only [writeLowPage, user, Bool.false_eq_true, if_false]
      cases present : t.page (uint32 (newsize + i) / 4096) with
      | none => rfl
      | some page =>
        rw [present, Option.any_some] at quiet
        simp only [quiet, Bool.false_eq_true, if_false]
    simp only [touched_eq_nil_iff quiet, Option.some.injEq, Prod.mk.injEq, and_imp, forall_eq', forall_apply_eq_imp_iff]
    rw [NoneExposed]
    refine forall₂_congr fun i member => ?_
    obtain ⟨_, multiple⟩ := Region.mem_rounds.mp member
    have whole : 4096 * (i / 4096) = i := by omega
    rw [← exposed, Dirty, whole, lowGoesToFile, low i member]
    simp

/-- A call that never goes to the file stays within the old and the new range of the mapping. -/
private theorem wremap_within {result : Option ℕ} (never : s.moveUses me oldaddr oldsize newsize flags input = [])
    (bareFile : me.file = none) (done : s.wremap oldaddr oldsize newsize flags input = some (s', result)) :
    OnlyWithin (fun v => me.Spans v ∨ ∃ newaddr, result = some newaddr ∧ Region.Spans ⟨newaddr, newsize⟩ v) s s' := by
  obtain ⟨rfl, rfl⟩ := target.asked
  rcases wremap_spec done with ⟨rfl, _⟩ | ⟨q, j, positive, found, index, ⟨_, _, rfl⟩ | placed⟩
  · exact .refl _ _
  · exact ⟨rfl, rfl, fun _ _ => rfl⟩
  · cases found.symm.trans target.found
    obtain rfl := index.trans target.index.symm
    obtain ⟨newaddr, frame, s₁, moves, searched, fits, allocated, called, rfl⟩ := placed
    have free : mayMove flags = true := by
      by_contra bound
      rw [Bool.not_eq_true] at bound
      rw [wremap_bound positive target moves bound] at done
      cases done
    simp only [moveMapping] at called
    split at called
    · cases called
    case h_2 t moved =>
      have copied : s.copiedTo me.addr me.length newsize flags input = some (newaddr, t) := by
        have moved : (s₁.begun (newEntry me frame newaddr newsize)).memmove newaddr me.addr (uint32 me.length) input =
            some t := moved
        rw [copiedTo, if_neg (by omega), found]
        simp only [← index, moves, free, searched, allocated, moved, Bool.true_eq_false, or_self, if_false,
          if_neg (Nat.not_lt.mpr fits), gt_iff_lt, Option.map_some]
      have within := (copiedTo_spec exclusive small range range' target copied).2 bareFile
      split at called
      · cases called
      case h_2 u flushed =>
        cases called
        have same : u = t := by
          split at flushed
          · rw [moveUses, copied] at never
            have rule (w : Running) (i : ℕ) (_ : i ∈ Region.rounds ⟨0, newsize⟩) (w' : Running)
                (quiet : lowGoesToFile newsize w i = false) (round : writeLowPage me newsize w i = some w')
                  (keep : w = t) :
                w' = t := by
              simp only [writeLowPage] at round
              split at round
              · cases round
              case isFalse user =>
                rw [Bool.not_eq_true] at user
                rw [lowGoesToFile, user, Bool.not_false, Bool.true_and] at quiet
                split at round
                · cases round
                  exact keep
                case h_2 page present =>
                  rw [present, Option.any_some] at quiet
                  rw [if_neg (by simp [quiet])] at round
                  cases round
                  exact keep
            have loop := flushed
            rw [forPages] at loop
            split at loop
            · cases loop
            case h_2 l offsets =>
              rw [Region.rounds_of_offsets offsets] at loop
              exact foldlM_untouched rule never loop rfl
          · cases flushed
            rfl
        subst same
        exact ⟨within.file, within.inode, fun v outside => within.page v fun inside =>
          outside (inside.imp_right fun new =>
          ⟨newaddr, rfl, new⟩)⟩

end Move

private theorem wunmap_within {addr : ℕ} {result : Bool} (found : s.mmaps.find? (·.addr = addr) = some me)
    (kind : isPrivate me.flags = false ∧ isShared me.flags = true) (bareFile : me.file = none)
    (never : fileUses true me s = []) (done : s.wunmap addr = some (s', result)) : OnlyWithin me.Spans s s' := by
  rcases wunmap_spec done with ⟨_, rfl, _⟩ | ⟨q, t, found', unmapped, rfl, _⟩
  · exact .refl _ _
  · cases found'.symm.trans found
    simp only [unmapPages, kind.1, kind.2, Bool.false_eq_true, if_false, if_true] at unmapped
    split at unmapped
    · cases unmapped
    case h_2 u loop =>
      rw [bareFile] at unmapped
      cases unmapped
      obtain ⟨file, inode, page⟩ := unmapShared_within never loop
      exact ⟨file, inode, page⟩

private theorem exitRound_within {rest : List MmapEntry} (head : s.mmaps = me :: rest)
    (kind : isPrivate me.flags = false ∧ isShared me.flags = true) (bareFile : me.file = none)
    (never : fileUses false me s = []) (done : s.exitRound = some s') : OnlyWithin me.Spans s s' := by
  rw [exitRound, head] at done
  simp only [kind.1, kind.2, Bool.false_eq_true, if_false, if_true] at done
  split at done
  · cases done
  case h_2 u loop =>
    rw [bareFile] at done
    cases done
    obtain ⟨file, inode, page⟩ := unmapShared_within never loop
    exact ⟨file, inode, page⟩

end Running

open Running in
/-- When the loops come to no page of `kmap`: `sys_wunmap` and `exit` take down a shared mapping without a file, never
going to it, writing no file and changing nothing outside the mapping, if and only if none of its pages is writable;
`sys_wremap` does so if and only if no page is exposed to its write-back. -/
theorem bare_teardown_iff {s : Running} {me : MmapEntry} (exclusive : Exclusive s.regions)
    (kind : isPrivate me.flags = false ∧ isShared me.flags = true) (bareFile : me.file = none) :
    (∀ addr, me.toRegion.InUser → s.mmaps.find? (·.addr = addr) = some me →
      ((fileUses true me s = [] ∧ ∀ s' result, s.wunmap addr = some (s', result) → OnlyWithin me.Spans s s') ↔
        s.NoneWritable me)) ∧
    (∀ rest, me.toRegion.InUser → s.mmaps = me :: rest →
      ((fileUses false me s = [] ∧ ∀ s', s.exitRound = some s' → OnlyWithin me.Spans s s') ↔ s.NoneWritable me)) ∧
    ∀ i oldaddr oldsize newsize flags input, oldaddr < 2 ^ 32 → IsInt oldsize → IsInt newsize → LowInUser newsize →
      s.Target oldaddr oldsize i me →
        ((s.moveUses me oldaddr oldsize newsize flags input = [] ∧
          ∀ s' result, s.wremap oldaddr oldsize newsize flags input = some (s', result) → OnlyWithin
            (fun v => me.Spans v ∨ ∃ newaddr, result = some newaddr ∧ Region.Spans ⟨newaddr, newsize⟩ v) s s') ↔
          ∀ newaddr t, s.copiedTo oldaddr oldsize newsize flags input = some (newaddr, t) →
            s.NoneExposed me newaddr newsize) := by
  refine ⟨fun addr user found => ?_, fun rest user head => ?_,
    fun i oldaddr oldsize newsize flags input small range range' low target => ?_⟩
  · rw [← fileUses_eq_nil_iff true user]
    exact and_iff_left_of_imp fun never s' result done => wunmap_within found kind bareFile never done
  · rw [← fileUses_eq_nil_iff false user]
    exact and_iff_left_of_imp fun never s' done => exitRound_within head kind bareFile never done
  · rw [← moveUses_eq_nil_iff exclusive small range range' target low]
    exact and_iff_left_of_imp fun never s' result done =>
      wremap_within exclusive small range range' target never bareFile done

/-- A process with a shared mapping without a file of which no page is loaded. -/
def bareMapped : Running :=
  { smallProcess with mmaps := [⟨⟨0x60000000, 8192⟩, 6, 0, none, 1⟩] }

open Running in
theorem bare_teardown_unloaded : fileUses true ⟨⟨0x60000000, 8192⟩, 6, 0, none, 1⟩ bareMapped = [] ∧
    ∀ s' result, bareMapped.wunmap 0x60000000 = some (s', result) →
      OnlyWithin (Region.Spans ⟨0x60000000, 8192⟩) bareMapped s' := by
  have exclusive : Exclusive bareMapped.regions := List.pairwise_singleton ..
  have user : (⟨⟨0x60000000, 8192⟩, 6, 0, none, 1⟩ : MmapEntry).InUser := by
    unfold Region.InUser
    decide +kernel
  refine ((bare_teardown_iff exclusive (by decide) rfl).1 0x60000000 user (by decide)).mpr fun i member page present => ?_
  have round := (Region.mem_rounds.mp member).1
  have absent : bareMapped.page (Region.pageAt ⟨0x60000000, 8192⟩ i) = none := by
    refine if_neg ?_
    simp only [uint32] at round
    simp only [Region.pageAt, uint32]
    omega
  rw [absent] at present
  cases present

open Running in
/-- The second page of such a mapping is loaded: `sys_wunmap` stores its offset in the struct at address 0, so that a
byte of the process outside the mapping changes. -/
theorem unmap_stores_at_null : ∃ s s', wmapMachine.Reachable s ∧
    s.mmaps = [⟨⟨0x60000000, 8192⟩, 6, 1, none, 1⟩] ∧ s.wunmap 0x60000000 = some (s', true) ∧
    s.byte 21 = 0 ∧ s'.byte 21 = 16 := by
  have run : (wmapMachine.run smallProcess [.wmap 0 8192 6 (-1), .store 0x60001000 7 fun _ _ => 0]).map (fun s =>
      (s.mmaps, s.byte 21, (s.wunmap 0x60000000).map fun r => (r.2, r.1.byte 21))) =
        some ([⟨⟨0x60000000, 8192⟩, 6, 1, none, 1⟩], 0, some (true, 16)) := by decide +kernel
  obtain ⟨s, run, values⟩ := Option.map_eq_some_iff.mp run
  simp only [Prod.mk.injEq] at values
  obtain ⟨mmaps, before, unmapped⟩ := values
  obtain ⟨⟨s', result⟩, done, values⟩ := Option.map_eq_some_iff.mp unmapped
  obtain ⟨rfl, after⟩ := Prod.mk.inj values
  exact ⟨s, s', Machine.reachable_of_run wmapMachine smallProcess_blank _ run, mmaps, done, before, after⟩

end Cs537.Wmap
