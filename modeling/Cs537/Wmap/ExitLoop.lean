import Cs537.Wmap.Ledger
import Cs537.Wmap.Teardown

/-! # Whether the teardown in `exit` ends

The loop of `exit` works on the head of the list until the list is empty, and only the branch for shared
mappings takes the head off. A private mapping that comes to the head stays there, and `exit` never gets
further. A list of shared mappings is taken down in as many rounds as it has entries, unless a write-back or
a close panics.
-/

namespace Cs537.Wmap

open Lib

namespace Running

/-- The private branch of `exit` for one page. -/
def freePrivatePage (me : MmapEntry) (s : Running) (i : ℕ) : Option Running :=
  let v := uint32 (me.addr + i) / 4096
  if isKernel v then none
  else match s.page v with
    | none => some s
    | some page => some ((s.setPage v none).kfree page.frame)

/-- One round of `while (curproc->mmaps != 0)`. -/
def exitRound (s : Running) : Option Running :=
  match s.mmaps with
  | [] => some s
  | me :: rest =>
      if isPrivate me.flags then s.forPages me.toRegion (freePrivatePage me)
      else if isShared me.flags then
        match s.forPages me.toRegion (unmapSharedPage false me) with
        | none => none
        | some s =>
            match s.closeFile me.file with
            | none => none
            | some s => some ({ s with mmaps := rest }.kfree me.frame)
      else some s

/-- The loop for a number of rounds, or until the list is empty. -/
def exitRounds : ℕ → Running → Option Running
  | 0, s => some s
  | n + 1, s =>
      if s.mmaps = [] then some s
      else match s.exitRound with
        | none => none
        | some s => exitRounds n s

/-- The loop ends, with an empty list, and no page of a mapping is left. -/
def TornDown (s : Running) : Prop :=
  ∃ n s', exitRounds n s = some s' ∧ s'.mmaps = [] ∧
    ∀ me ∈ s.mmaps, ∀ v, me.toRegion.Covers v → s'.page v = none

/-- The page that a visit is about. -/
def pageNo (w : MmapEntry × ℕ) : ℕ := uint32 (w.1.addr + w.2) / 4096

/-- `filewrite` of the page at an address returns: the file is closed for writing, or it is a pipe, or the buffer
is mapped; a null file must not look writable. -/
def Flushable (s : Running) (pages : ℕ → Option Page) (file : Option (Fin nfile)) (a : ℕ) : Prop :=
  match file with
  | some f => (s.file f).writable = true → (s.file f).type ≠ .none ∧
      ((s.file f).type = .inode → (pages (a / 4096)).isSome ∧ (pages (uint32 (a + 4095) / 4096)).isSome)
  | none => ∃ page, pages 0 = some page ∧ page.data 9 = 0

/-- Every visit is to a user page, and a page that is there and writable can be written back. -/
def Passes (s : Running) : List (MmapEntry × ℕ) → (ℕ → Option Page) → Prop
  | [], _ => True
  | w :: rest, pages =>
      isKernel (pageNo w) = false ∧
        (∀ page, pages (pageNo w) = some page → page.writable = true →
          s.Flushable pages w.1.file (uint32 (w.1.addr + w.2))) ∧
        Passes s rest (Function.update pages (pageNo w) none)

/-- The visits that the loop makes for a list of mappings. -/
def visitsOf (mmaps : List MmapEntry) : List (MmapEntry × ℕ) :=
  mmaps.flatMap fun me => (me.offsets.getD []).map fun i => (me, i)

/-- The loop gets through a list of mappings: all are shared, the loop over the pages of each ends and can write
them back, and there is a reference for each close. -/
structure Passable (s : Running) (mmaps : List MmapEntry) : Prop where
  shared : ∀ me ∈ mmaps, isPrivate me.flags = false ∧ isShared me.flags = true
  ends : ∀ me ∈ mmaps, me.offsets.isSome
  passes : s.Passes (visitsOf mmaps) s.page
  counted : ∀ me ∈ mmaps, ∀ f, me.file = some f → mapCount mmaps f ≤ (s.file f).ref

/-- The loop gets through, and comes to every loaded page of a mapping. -/
structure Teardownable (s : Running) : Prop extends s.Passable s.mmaps where
  visited : ∀ me ∈ s.mmaps, ∀ v, me.toRegion.Covers v → (s.page v).isSome → ∃ w ∈ s.visits, pageNo w = v

/-- Only pages, offsets and contents differ. -/
structure SameRefs (s s' : Running) : Prop where
  mmaps : s'.mmaps = s.mmaps
  file : ∀ f, s'.file f = { s.file f with off := (s'.file f).off }

section Rounds

variable {s s' : Running} {me : MmapEntry} {rest : List MmapEntry}

private theorem freePrivatePage_mmaps {i : ℕ} (done : freePrivatePage me s i = some s') : s'.mmaps = s.mmaps := by
  simp only [freePrivatePage] at done
  split at done
  · cases done
  · split at done
    · cases done
      rfl
    · cases done
      rfl

/-- A mapping that is not shared stays at the head. -/
theorem exitRound_stays (head : s.mmaps = me :: rest) (kind : ¬ (isPrivate me.flags = false ∧ isShared me.flags = true))
    (done : s.exitRound = some s') : s'.mmaps = s.mmaps := by
  rw [exitRound, head] at done
  simp only at done
  split at done
  · exact forPages_mmaps (fun _ _ _ => freePrivatePage_mmaps) done
  case isFalse notPrivate =>
    split at done
    case isTrue isShared => exact absurd ⟨by simpa using notPrivate, isShared⟩ kind
    · cases done
      rfl

private theorem exitRounds_stays (head : s.mmaps = me :: rest) (kind : ¬ (isPrivate me.flags = false ∧ isShared me.flags = true))
    {n : ℕ} (done : exitRounds n s = some s') : s'.mmaps = s.mmaps := by
  induction n generalizing s with
  | zero =>
    cases done
    rfl
  | succ n ih =>
    rw [exitRounds, if_neg (by simp [head])] at done
    split at done
    · cases done
    case h_2 t round =>
      have same := exitRound_stays head kind round
      rw [← same]
      exact ih (same.trans head) done

/-- A teardown that comes back is done in one round for each mapping. -/
private theorem exitRounds_of_exitMappings {mmaps : List MmapEntry} (entries : s.mmaps = mmaps)
    (done : exitMappings mmaps s = some s') : ∃ n, exitRounds n s = some s' ∧ s'.mmaps = [] := by
  induction mmaps generalizing s with
  | nil =>
    rw [exitMappings, ← entries] at done
    cases done
    exact ⟨0, rfl, entries⟩
  | cons me rest ih =>
    rw [exitMappings] at done
    split at done
    · cases done
    case isFalse kind =>
      rw [not_or, Bool.not_eq_true, Bool.not_eq_false] at kind
      split at done
      · cases done
      case h_2 s₁ unmapped =>
        split at done
        · cases done
        case h_2 s₂ closed =>
          obtain ⟨n, tail, empty⟩ := ih rfl done
          refine ⟨n + 1, ?_, empty⟩
          rw [exitRounds, if_neg (by simp [entries]), exitRound, entries]
          simp only [kind.1, kind.2, Bool.false_eq_true, if_false, if_true, unmapped, closed]
          exact tail

/-- The rounds that end make up the whole teardown. -/
theorem exitRounds_iff : (∃ n, exitRounds n s = some s' ∧ s'.mmaps = []) ↔ exitMappings s.mmaps s = some s' := by
  constructor
  · rintro ⟨n, done, empty⟩
    induction n generalizing s with
    | zero =>
      cases done
      rw [empty, exitMappings, ← empty]
    | succ n ih =>
      rw [exitRounds] at done
      split at done
      case isTrue none =>
        cases done
        rw [empty, exitMappings, ← empty]
      case isFalse more =>
        obtain ⟨me, rest, head⟩ := List.exists_cons_of_ne_nil more
        split at done
        · cases done
        case h_2 t round =>
          by_cases kind : isPrivate me.flags = false ∧ isShared me.flags = true
          · have tail := ih done
            rw [exitRound, head] at round
            simp only [kind.1, kind.2, Bool.false_eq_true, if_false, if_true] at round
            rw [head, exitMappings]
            simp only [kind.1, kind.2, Bool.false_eq_true, Bool.true_eq_false, or_self, if_false]
            cases unmapped : s.forPages me.toRegion (unmapSharedPage false me) with
            | none => simp only [unmapped, reduceCtorEq] at round
            | some u =>
              simp only [unmapped] at round ⊢
              cases closed : u.closeFile me.file with
              | none => simp only [closed, reduceCtorEq] at round
              | some w =>
                simp only [closed] at round ⊢
                cases round
                exact tail
          · have same := exitRound_stays head kind round
            have stays := exitRounds_stays (same.trans head) kind done
            rw [empty, same, head] at stays
            cases stays
  · exact exitRounds_of_exitMappings rfl

end Rounds

section Pages

variable {s s' : Running} {me : MmapEntry} {a i : ℕ} {file : Option (Fin nfile)} {pages : ℕ → Option Page}

theorem SameRefs.refl (s : Running) : SameRefs s s := ⟨rfl, fun _ => rfl⟩

theorem SameRefs.trans {s'' : Running} (first : SameRefs s s') (second : SameRefs s' s'') : SameRefs s s'' where
  mmaps := second.mmaps.trans first.mmaps
  file f := by
    rw [second.file, first.file]

private theorem mapM_isSome_iff {α β : Type} {g : α → Option β} {l : List α} : (l.mapM g).isSome ↔ ∀ x ∈ l, (g x).isSome := by
  induction l with
  | nil => simp
  | cons x rest ih =>
    rw [List.mapM_cons, List.forall_mem_cons, ← ih]
    cases g x with
    | none => simp
    | some y => cases rest.mapM g <;> simp

/-- A buffer of a page is mapped when its first and its last byte are. -/
theorem bytesAt_isSome_iff (small : a < 2 ^ 32) : (s.bytesAt a 4096).isSome ↔
    (s.page (a / 4096)).isSome ∧ (s.page (uint32 (a + 4095) / 4096)).isSome := by
  rw [bytesAt, mapM_isSome_iff]
  simp only [List.mem_range, Option.isSome_map]
  have number (o : ℕ) (inside : o < 4096) : uint32 ((a : ℤ) + o) / 4096 = a / 4096 ∨
      uint32 ((a : ℤ) + o) / 4096 = uint32 ((a : ℤ) + 4095) / 4096 := by
    rw [uint32, uint32]
    omega
  have first : uint32 ((a : ℤ) + (0 : ℕ)) = a := by
    rw [uint32]
    omega
  constructor
  · intro all
    have low := all 0 (by decide)
    have high := all 4095 (by decide)
    rw [first] at low
    exact ⟨low, high⟩
  · rintro ⟨low, high⟩ o inside
    rcases number o inside with same | same
    · rw [same]
      exact low
    · rw [same]
      exact high

private theorem writeBack_sameRefs (done : s.writeBack file none a = some s') : s'.page = s.page ∧ SameRefs s s' := by
  cases file with
  | none =>
    simp only [writeBack] at done
    split at done
    · cases done
    · split at done
      · cases done
        exact ⟨rfl, .refl s⟩
      · cases done
  | some f =>
    simp only [writeBack, onKernel] at done
    split at done
    · cases done
    case h_2 k written =>
      cases done
      refine ⟨rfl, rfl, fun g => ?_⟩
      have same : s.toKernel.setFile f { s.file f with off := Option.getD none (s.file f).off } = s.toKernel := by
        simp [Kernel.setFile]
      rw [same] at written
      rcases Kernel.filewrite_spec written with ⟨_, rfl⟩ | ⟨bytes, _, _, _, rfl⟩
      · rfl
      · by_cases here : g = f
        · subst here
          simp [Kernel.setFile]
        · simp [Kernel.setFile, Function.update_of_ne here]

/-- When a page is written back without a panic. -/
private theorem writeBack_iff (small : a < 2 ^ 32) : (∃ s', s.writeBack file none a = some s') ↔ s.Flushable s.page file a := by
  cases file with
  | none =>
    simp only [writeBack, Flushable]
    cases s.page 0 with
    | none => simp
    | some page => by_cases zero : page.data 9 = 0 <;> simp [zero]
  | some f =>
    have same : s.toKernel.setFile f { s.file f with off := Option.getD none (s.file f).off } = s.toKernel := by
      simp [Kernel.setFile]
    have buffer := bytesAt_isSome_iff (s := s) small
    simp only [writeBack, onKernel, same, Flushable, ← buffer, Kernel.filewrite]
    cases (s.file f).writable with
    | false => simp
    | true =>
      cases (s.file f).type with
      | none => simp
      | pipe => simp
      | inode => cases s.bytesAt a 4096 <;> simp

private theorem unmapSharedPage_effect (done : unmapSharedPage false me s i = some s') :
    s'.page = Function.update s.page (pageNo (me, i)) none ∧ SameRefs s s' := by
  simp only [unmapSharedPage, Bool.false_eq_true, if_false] at done
  split at done
  · cases done
  · split at done
    case h_1 absent =>
      cases done
      refine ⟨?_, .refl s⟩
      rw [pageNo, ← absent, Function.update_eq_self]
    case h_2 page present =>
      split at done
      · cases done
      case h_2 t written =>
        cases done
        obtain ⟨same, refs⟩ : t.page = s.page ∧ SameRefs s t := by
          split at written
          · exact writeBack_sameRefs written
          · cases written
            exact ⟨rfl, .refl s⟩
        refine ⟨?_, refs.mmaps, refs.file⟩
        rw [← same]
        rfl

private theorem unmapSharedPage_iff : (∃ s', unmapSharedPage false me s i = some s') ↔ isKernel (pageNo (me, i)) = false ∧
    ∀ page, s.page (pageNo (me, i)) = some page → page.writable = true →
      s.Flushable s.page me.file (uint32 (me.addr + i)) := by
  have back : (∃ s', s.writeBack me.file none (uint32 (me.addr + i)) = some s') ↔ _ := writeBack_iff (uint32_lt _)
  rw [← back]
  simp only [unmapSharedPage, pageNo, Bool.false_eq_true, if_false]
  cases user : isKernel (uint32 (me.addr + i) / 4096) with
  | true => simp
  | false =>
    simp only [Bool.false_eq_true, if_false, true_and]
    cases s.page (uint32 (me.addr + i) / 4096) with
    | none => simp
    | some page =>
      by_cases writable : page.writable = true
      · cases s.writeBack me.file none (uint32 (me.addr + i)) <;> simp [writable]
      · simp [writable]

/-- The pages after some visits. -/
def cleared (visits : List (MmapEntry × ℕ)) (pages : ℕ → Option Page) : ℕ → Option Page :=
  visits.foldl (fun pages w => Function.update pages (pageNo w) none) pages

private theorem cleared_eq_none_iff {visits : List (MmapEntry × ℕ)} {v : ℕ} :
    cleared visits pages v = none ↔ (∃ w ∈ visits, pageNo w = v) ∨ pages v = none := by
  induction visits generalizing pages with
  | nil => simp [cleared]
  | cons w rest ih =>
    rw [cleared, List.foldl_cons, ← cleared, ih]
    by_cases here : pageNo w = v
    · subst here
      simp
    · rw [Function.update_of_ne (Ne.symm here)]
      simp [here]

private theorem passes_append {first second : List (MmapEntry × ℕ)} :
    s.Passes (first ++ second) pages ↔ s.Passes first pages ∧ s.Passes second (cleared first pages) := by
  induction first generalizing pages with
  | nil => simp [Passes, cleared]
  | cons w rest ih =>
    rw [List.cons_append, Passes, Passes, ih, cleared, cleared, List.foldl_cons]
    tauto

/-- Only the files of the mappings matter. -/
theorem passes_congr {visits : List (MmapEntry × ℕ)} (same : ∀ w ∈ visits, ∀ f, w.1.file = some f →
    (s'.file f).writable = (s.file f).writable ∧ (s'.file f).type = (s.file f).type) :
    s'.Passes visits pages ↔ s.Passes visits pages := by
  induction visits generalizing pages with
  | nil => exact Iff.rfl
  | cons w rest ih =>
    obtain ⟨here, later⟩ := List.forall_mem_cons.mp same
    have file : s'.Flushable pages w.1.file (uint32 (w.1.addr + w.2)) =
        s.Flushable pages w.1.file (uint32 (w.1.addr + w.2)) := by
      cases which : w.1.file with
      | none => rfl
      | some f => simp only [Flushable, here f which]
    rw [Passes, Passes, ih later, file]

private theorem SameRefs.passes_iff {visits : List (MmapEntry × ℕ)} (refs : SameRefs s s') :
    s'.Passes visits pages ↔ s.Passes visits pages := by
  refine passes_congr fun w _ f _ => ?_
  rw [refs.file f]
  exact ⟨rfl, rfl⟩

private theorem unmapShared_loop_effect {offsets : List ℕ} (done : offsets.foldlM (unmapSharedPage false me) s = some s') :
    s'.page = cleared (offsets.map (me, ·)) s.page ∧ SameRefs s s' := by
  induction offsets generalizing s with
  | nil =>
    cases done
    exact ⟨rfl, .refl _⟩
  | cons i rest ih =>
    rw [List.foldlM_cons] at done
    obtain ⟨t, first, tail⟩ := Option.bind_eq_some_iff.mp done
    obtain ⟨page, refs⟩ := unmapSharedPage_effect first
    obtain ⟨page', refs'⟩ := ih tail
    refine ⟨?_, refs.trans refs'⟩
    rw [page', page, List.map_cons, cleared, cleared, List.foldl_cons]

private theorem unmapShared_loop_iff {offsets : List ℕ} : (∃ s', offsets.foldlM (unmapSharedPage false me) s = some s') ↔
    s.Passes (offsets.map (me, ·)) s.page := by
  induction offsets generalizing s with
  | nil => simp [Passes]
  | cons i rest ih =>
    rw [List.map_cons, Passes, ← and_assoc, ← unmapSharedPage_iff, List.foldlM_cons]
    constructor
    · rintro ⟨s', done⟩
      obtain ⟨t, first, tail⟩ := Option.bind_eq_some_iff.mp done
      obtain ⟨page, refs⟩ := unmapSharedPage_effect first
      have later := ih.mp ⟨s', tail⟩
      rw [refs.passes_iff, page] at later
      exact ⟨⟨t, first⟩, later⟩
    · rintro ⟨⟨t, first⟩, later⟩
      obtain ⟨page, refs⟩ := unmapSharedPage_effect first
      rw [← page, ← refs.passes_iff] at later
      obtain ⟨s', tail⟩ := ih.mpr later
      exact ⟨s', Option.bind_eq_some_iff.mpr ⟨t, first, tail⟩⟩

theorem closeFile_iff : (∃ s', s.closeFile file = some s') ↔ ∀ f, file = some f → 1 ≤ (s.file f).ref := by
  cases file with
  | none => simp [closeFile]
  | some f =>
    simp only [closeFile, onKernel, Kernel.fileclose, Option.some.injEq, forall_eq']
    by_cases live : (s.file f).ref < 1
    · simp [live]
    · have enough : 1 ≤ (s.file f).ref := by omega
      refine iff_of_true ?_ enough
      rw [if_neg live]
      by_cases more : (s.file f).ref - 1 > 0
      · rw [if_pos more]
        exact ⟨_, rfl⟩
      · rw [if_neg more]
        exact ⟨_, rfl⟩

/-- What a close does to a file that is not closed by it for good. -/
private theorem closeFile_file (done : s.closeFile file = some s') (g : Fin nfile) (more : file = some g → (s.file g).ref ≠ 1) :
    (s'.file g).writable = (s.file g).writable ∧ (s'.file g).type = (s.file g).type := by
  cases file with
  | none =>
    cases done
    exact ⟨rfl, rfl⟩
  | some f =>
    simp only [closeFile, onKernel] at done
    split at done
    · cases done
    case h_2 k closed =>
      cases done
      obtain ⟨_, rfl⟩ := Kernel.fileclose_spec closed
      by_cases here : g = f
      · subst here
        simp [Kernel.setFile, more rfl]
      · simp [Kernel.setFile, Function.update_of_ne here]

private theorem closeFile_ref (done : s.closeFile file = some s') (g : Fin nfile) :
    (s'.file g).ref = (s.file g).ref - if file = some g then 1 else 0 := by
  cases file with
  | none =>
    cases done
    simp
  | some f =>
    simp only [closeFile, onKernel] at done
    split at done
    · cases done
    case h_2 k closed =>
      cases done
      obtain ⟨_, rfl⟩ := Kernel.fileclose_spec closed
      by_cases here : g = f
      · subst here
        simp [Kernel.setFile]
      · simp [Kernel.setFile, Function.update_of_ne here, Ne.symm here]

end Pages

section Lists

variable {s s' : Running} {me : MmapEntry} {rest : List MmapEntry}

/-- References for all closes are one for the first and the others for the rest. -/
private theorem counted_cons (refs : ∀ g, (s'.file g).ref = (s.file g).ref - if me.file = some g then 1 else 0) :
    (∀ q ∈ me :: rest, ∀ g, q.file = some g → (mapCount (me :: rest) g : ℤ) ≤ (s.file g).ref) ↔
      (∀ f, me.file = some f → 1 ≤ (s.file f).ref) ∧
        ∀ q ∈ rest, ∀ g, q.file = some g → (mapCount rest g : ℤ) ≤ (s'.file g).ref := by
  simp only [List.forall_mem_cons, mapCount_cons, refs]
  constructor
  · rintro ⟨here, later⟩
    refine ⟨fun f file => ?_, fun q member g file => ?_⟩
    · have enough := here f file
      rw [if_pos file] at enough
      omega
    · have enough := later q member g file
      by_cases same : me.file = some g
      · rw [if_pos same] at enough ⊢
        omega
      · rw [if_neg same] at enough ⊢
        omega
  · rintro ⟨here, later⟩
    refine ⟨fun f file => ?_, fun q member g file => ?_⟩
    · rw [if_pos file]
      by_cases more : ∃ q ∈ rest, q.file = some f
      · obtain ⟨q, member, same⟩ := more
        have enough := later q member f same
        rw [if_pos file] at enough
        push_cast
        omega
      · have none : mapCount rest f = 0 := by
          refine List.countP_eq_zero.mpr fun q member => ?_
          simpa using fun same => more ⟨q, member, same⟩
        have enough := here f file
        omega
    · have enough := later q member g file
      by_cases same : me.file = some g
      · rw [if_pos same] at enough ⊢
        push_cast
        omega
      · rw [if_neg same] at enough ⊢
        omega

private theorem mem_visitsOf {mmaps : List MmapEntry} {w : MmapEntry × ℕ} (member : w ∈ visitsOf mmaps) : w.1 ∈ mmaps := by
  obtain ⟨me, listed, visit⟩ := List.mem_flatMap.mp member
  obtain ⟨i, _, rfl⟩ := List.mem_map.mp visit
  exact listed

private theorem visitsOf_cons {offsets : List ℕ} (loop : me.offsets = some offsets) :
    visitsOf (me :: rest) = offsets.map (me, ·) ++ visitsOf rest := by
  rw [visitsOf, List.flatMap_cons, loop]
  rfl

/-- The rest of the list, after the first mapping is taken down in full. -/
theorem passable_cons {s₁ s₂ t : Running} {offsets : List ℕ}
    (kind : isPrivate me.flags = false ∧ isShared me.flags = true)
    (loop : me.offsets = some offsets) (unmapped : offsets.foldlM (unmapSharedPage false me) s = some s₁)
    (closed : s₁.closeFile me.file = some s₂) (file : t.file = s₂.file) (page : t.page = s₂.page) :
    s.Passable (me :: rest) ↔ t.Passable rest := by
  obtain ⟨page₁, refs⟩ := unmapShared_loop_effect unmapped
  have passes := unmapShared_loop_iff.mp ⟨s₁, unmapped⟩
  have live := closeFile_iff.mp ⟨s₂, closed⟩
  have page₂ : t.page = cleared (offsets.map (me, ·)) s.page := by
    rw [page, congrArg Task.page (closeFile_task closed), page₁]
  have ref (g : Fin nfile) : (t.file g).ref = (s.file g).ref - if me.file = some g then 1 else 0 := by
    rw [file, closeFile_ref closed, refs.file g]
  have live' (f : Fin nfile) (held : me.file = some f) : 1 ≤ (s.file f).ref := by
    have enough := live f held
    rw [refs.file f] at enough
    exact enough
  have counted : (∀ q ∈ me :: rest, ∀ g, q.file = some g → (mapCount (me :: rest) g : ℤ) ≤ (s.file g).ref) ↔
      ∀ q ∈ rest, ∀ g, q.file = some g → (mapCount rest g : ℤ) ≤ (t.file g).ref := by
    rw [counted_cons ref]
    exact ⟨And.right, fun later => ⟨live', later⟩⟩
  -- A file that is closed for good is the file of no mapping that is left.
  have files (all : ∀ q ∈ rest, ∀ g, q.file = some g → (mapCount rest g : ℤ) ≤ (t.file g).ref) :
      t.Passes (visitsOf rest) t.page ↔ s.Passes (visitsOf rest) (cleared (offsets.map (me, ·)) s.page) := by
    rw [page₂, ← refs.passes_iff]
    refine passes_congr fun w visit g held => ?_
    rw [file]
    refine closeFile_file closed g fun same last => ?_
    have more := mapCount_pos (mem_visitsOf visit) held
    have enough := all _ (mem_visitsOf visit) g held
    rw [file, closeFile_ref closed, if_pos same] at enough
    omega
  have first : s.Passes (visitsOf (me :: rest)) s.page ↔
    s.Passes (visitsOf rest) (cleared (offsets.map (me, ·)) s.page) := by
    rw [visitsOf_cons loop, passes_append]
    exact ⟨And.right, fun later => ⟨passes, later⟩⟩
  constructor
  · rintro ⟨shared, ends, through, refsAll⟩
    have later := counted.mp refsAll
    exact ⟨(List.forall_mem_cons.mp shared).2, (List.forall_mem_cons.mp ends).2, (files later).mpr (first.mp through),
      later⟩
  · rintro ⟨shared, ends, through, later⟩
    refine ⟨List.forall_mem_cons.mpr ⟨kind, shared⟩, List.forall_mem_cons.mpr ⟨?_, ends⟩, ?_, counted.mpr later⟩
    · rw [loop]
      rfl
    · exact first.mpr ((files later).mp through)

/-- The teardown of a list comes back if and only if the loop gets through it, and it clears what it visits. -/
theorem exitMappings_iff {mmaps : List MmapEntry} :
    (∃ s', exitMappings mmaps s = some s') ↔ s.Passable mmaps := by
  induction mmaps generalizing s with
  | nil => exact iff_of_true ⟨_, rfl⟩ ⟨by simp, by simp, trivial, by simp⟩
  | cons me rest ih =>
    constructor
    · rintro ⟨s', done⟩
      rw [exitMappings] at done
      split at done
      · cases done
      case isFalse kind =>
        rw [not_or, Bool.not_eq_true, Bool.not_eq_false] at kind
        split at done
        · cases done
        case h_2 s₁ unmapped =>
          split at done
          · cases done
          case h_2 s₂ closed =>
            rw [forPages] at unmapped
            split at unmapped
            · cases unmapped
            case h_2 offsets loop =>
              refine (passable_cons kind loop unmapped closed ?_ ?_).mpr (ih.mp ⟨s', done⟩) <;> rfl
    · intro passable
      have kind := passable.shared me (List.mem_cons_self ..)
      obtain ⟨offsets, loop⟩ := Option.isSome_iff_exists.mp (passable.ends me (List.mem_cons_self ..))
      have through := passable.passes
      rw [visitsOf_cons loop, passes_append] at through
      obtain ⟨s₁, unmapped⟩ := unmapShared_loop_iff.mpr through.1
      have refs := (unmapShared_loop_effect unmapped).2
      obtain ⟨s₂, closed⟩ := closeFile_iff.mpr fun f (file : me.file = some f) => by
        have enough := passable.counted me (List.mem_cons_self ..) f file
        rw [mapCount_cons, if_pos file] at enough
        rw [refs.file f]
        simp only
        omega
      let t : Running := { s₂ with mmaps := rest }
      obtain ⟨s', tail⟩ := ih.mpr ((passable_cons (t := t.kfree me.frame) kind loop unmapped closed rfl rfl).mp passable)
      refine ⟨s', ?_⟩
      rw [exitMappings, kind.1, kind.2]
      simp only [forPages, loop, unmapped, closed, Bool.false_eq_true, Bool.true_eq_false, or_self, if_false]
      exact tail

private theorem exitMappings_page {mmaps : List MmapEntry} (done : exitMappings mmaps s = some s') :
    s'.page = cleared (visitsOf mmaps) s.page := by
  induction mmaps generalizing s with
  | nil =>
    cases done
    rfl
  | cons me rest ih =>
    rw [exitMappings] at done
    split at done
    · cases done
    · split at done
      · cases done
      case h_2 s₁ unmapped =>
        split at done
        · cases done
        case h_2 s₂ closed =>
          rw [forPages] at unmapped
          split at unmapped
          · cases unmapped
          case h_2 offsets loop =>
            have page : s₂.page = cleared (offsets.map (me, ·)) s.page := by
              rw [congrArg Task.page (closeFile_task closed), (unmapShared_loop_effect unmapped).1]
            rw [ih done, visitsOf_cons loop]
            change cleared (visitsOf rest) s₂.page = _
            rw [page, cleared, cleared, cleared, List.foldl_append]

private theorem tornDown_iff (s : Running) : s.TornDown ↔ s.Teardownable := by
  constructor
  · rintro ⟨n, s', done, empty, gone⟩
    have back := exitRounds_iff.mp ⟨n, done, empty⟩
    refine ⟨exitMappings_iff.mp ⟨s', back⟩, fun me member v covers present => ?_⟩
    have absent := gone me member v covers
    rw [exitMappings_page back, cleared_eq_none_iff] at absent
    refine absent.resolve_right fun missing => ?_
    rw [missing] at present
    cases present
  · rintro ⟨passable, visited⟩
    obtain ⟨s', back⟩ := exitMappings_iff.mpr passable
    obtain ⟨n, done, empty⟩ := exitRounds_iff.mpr back
    refine ⟨n, s', done, empty, fun me member v covers => ?_⟩
    rw [exitMappings_page back, cleared_eq_none_iff]
    cases present : s.page v with
    | none => exact .inr rfl
    | some page => exact .inl (visited me member v covers (by rw [present]; rfl))

/-- Pages that are there from the beginning can be written back when each visit finds its file open. -/
private theorem passes_of_forall {visits : List (MmapEntry × ℕ)} {pages : ℕ → Option Page}
    (sub : ∀ v, (pages v).isSome → (s.page v).isSome)
    (all : ∀ w ∈ visits, isKernel (pageNo w) = false ∧ uint32 (w.1.addr + w.2) % 4096 = 0 ∧
      ((s.page (pageNo w)).isSome → ∃ f, w.1.file = some f ∧ (s.file f).type ≠ .none)) : s.Passes visits pages := by
  induction visits generalizing pages with
  | nil => trivial
  | cons w rest ih =>
    obtain ⟨⟨user, aligned, backed⟩, later⟩ := List.forall_mem_cons.mp all
    refine ⟨user, fun page present _ => ?_, ih (fun v some => ?_) later⟩
    · have there : (pages (pageNo w)).isSome := by
        rw [present]
        rfl
      obtain ⟨f, file, type⟩ := backed (sub _ there)
      have last : uint32 ((uint32 (w.1.addr + w.2) : ℕ) + 4095) / 4096 = uint32 (w.1.addr + w.2) / 4096 := by
        have small := uint32_lt (w.1.addr + w.2)
        generalize uint32 (w.1.addr + w.2) = a at *
        rw [uint32]
        omega
      rw [file, Flushable, last]
      exact fun _ => ⟨type, fun _ => ⟨there, there⟩⟩
    · by_cases here : v = pageNo w
      · rw [here, Function.update_self] at some
        cases some
      · rw [Function.update_of_ne here] at some
        exact sub v some

/-- The loop comes to every page of a mapping in place. -/
private theorem visit_of_covers (placed : me.toRegion.Placed) {mmaps : List MmapEntry} (member : me ∈ mmaps) {v : ℕ}
    (covers : me.toRegion.Covers v) : ∃ w ∈ visitsOf mmaps, pageNo w = v := by
  obtain ⟨a, low, below, rfl⟩ := covers
  have aligned := placed.aligned
  have positive := placed.positive
  have base := placed.low
  have high := placed.high
  simp only [searchLimit, searchBase] at high base
  obtain ⟨offsets, loop, members, _⟩ := Region.offsets_spec positive (by omega)
  refine ⟨(me, (a - me.addr) / 4096 * 4096), List.mem_flatMap.mpr ⟨me, member, ?_⟩, ?_⟩
  · rw [loop]
    refine List.mem_map.mpr ⟨_, (members _).mpr ⟨by omega, ?_⟩, rfl⟩
    push_cast
    omega
  · rw [pageNo, uint32]
    push_cast
    omega

/-- With mappings in place and their files open and counted, the teardown ends if and only if no mapping is
private. -/
private theorem tornDown_iff_shared (all : AllPlaced s.regions) (kinds : ∀ me ∈ s.mmaps, isPrivate me.flags ≠ isShared me.flags)
    (backed : ∀ me ∈ s.mmaps, ∀ v, me.toRegion.Covers v → (s.page v).isSome →
      ∃ f, me.file = some f ∧ (s.file f).type ≠ .none)
    (counted : ∀ me ∈ s.mmaps, ∀ f, me.file = some f → mapCount s.mmaps f ≤ (s.file f).ref) :
    s.TornDown ↔ ∀ me ∈ s.mmaps, isPrivate me.flags = false := by
  rw [tornDown_iff]
  have placed (me : MmapEntry) (member : me ∈ s.mmaps) : me.toRegion.Placed :=
    all.placed _ (List.mem_map_of_mem member)
  refine ⟨fun down me member => (down.shared me member).1, fun shared => ⟨⟨fun me member => ?_, fun me member => ?_, ?_,
    counted⟩, fun me member v covers _ => visit_of_covers (placed me member) member covers⟩⟩
  · have kind := kinds me member
    rw [shared me member] at kind
    exact ⟨shared me member, by simpa using kind.symm⟩
  · have high := (placed me member).high
    simp only [searchLimit] at high
    obtain ⟨offsets, loop, _⟩ := Region.offsets_spec (placed me member).positive (by omega)
    rw [loop]
    rfl
  · refine passes_of_forall (fun _ some => some) fun w visit => ?_
    obtain ⟨me, member, round⟩ := List.mem_flatMap.mp visit
    obtain ⟨i, listed, rfl⟩ := List.mem_map.mp round
    have here := placed me member
    have aligned := here.aligned
    have base := here.low
    have high := here.high
    simp only [searchLimit, searchBase] at high base
    obtain ⟨offsets, loop, members, _⟩ := Region.offsets_spec here.positive (by omega)
    rw [loop, Option.getD_some, members] at listed
    have exact : uint32 ((me.addr : ℤ) + i) = me.addr + i := by
      rw [uint32]
      omega
    simp only [pageNo, exact]
    refine ⟨isKernel_of_lt (by simp only [kernelPage]; omega), by omega,
      backed me member _ ⟨me.addr + i, by omega, ?_, rfl⟩⟩
    push_cast
    omega

end Lists

end Running

open Running in
/-- The loop in `exit` ends with nothing left if the list can be taken down: no mapping is private, no write-back and
no close panics, and no loaded page of a mapping is missed. For mappings on page boundaries without pages of `kmap` it
does so only then. With mappings in place and their files open and counted this says that no mapping is private. -/
theorem exit_ends_iff (s : Running) : (s.Teardownable → s.TornDown) ∧
    ((∀ me ∈ s.mmaps, me.addr % 4096 = 0) → (∀ w ∈ visitsOf s.mmaps, isKernel (pageNo w) = false) →
      (s.TornDown ↔ s.Teardownable)) ∧
    (AllPlaced s.regions → (∀ me ∈ s.mmaps, isPrivate me.flags ≠ isShared me.flags) →
      (∀ me ∈ s.mmaps, ∀ v, me.toRegion.Covers v → (s.page v).isSome →
        ∃ f, me.file = some f ∧ (s.file f).type ≠ .none) →
      (∀ me ∈ s.mmaps, ∀ f, me.file = some f → mapCount s.mmaps f ≤ (s.file f).ref) →
      (s.TornDown ↔ ∀ me ∈ s.mmaps, isPrivate me.flags = false)) :=
  ⟨(tornDown_iff s).mpr, fun _ _ => tornDown_iff s, tornDown_iff_shared⟩

/-- The page of an empty file is written back and taken down. -/
theorem exit_ends_emptyFile : emptyFileMapped.TornDown := by
  have only : ∀ me ∈ emptyFileMapped.mmaps, me = ⟨⟨0x60000000, 4096⟩, 2, 1, some 0, 1⟩ :=
    fun me member => List.mem_singleton.mp member
  refine ((exit_ends_iff emptyFileMapped).2.2 ⟨?_, List.pairwise_singleton ..⟩ ?_ ?_ ?_).mpr ?_
  · intro r member
    rw [List.mem_singleton.mp member]
    exact ⟨by decide, by decide, by decide, by decide⟩
  all_goals
    intro me member
    rw [only me member]
  · decide
  · exact fun _ _ _ => ⟨0, rfl, by decide⟩
  · rintro f file
    cases file
    decide
  · rfl

/-- A process with its first page, and no page of the area of mappings. -/
def smallProcess : Running :=
  { blankProcess with page := fun v => if v = 0 then some ⟨fun _ => 0, true, 9⟩ else none }

theorem smallProcess_blank : wmapMachine.init smallProcess := by
  refine ⟨rfl, fun v high => if_neg ?_⟩
  simp only [searchBase] at high
  omega

/-- `exit` of a process with one private mapping does not end. -/
theorem exit_never_ends : ∃ s, wmapMachine.Reachable s ∧ (∀ me ∈ s.mmaps, isPrivate me.flags ≠ isShared me.flags) ∧
    ∀ n s', Running.exitRounds n s = some s' → s'.mmaps ≠ [] := by
  have run : (wmapMachine.run smallProcess [.wmap 0 4096 5 (-1)]).map (fun s => s.mmaps) =
      some [⟨⟨0x60000000, 4096⟩, 5, 0, none, 1⟩] := by decide +kernel
  obtain ⟨s, run, mmaps⟩ := Option.map_eq_some_iff.mp run
  refine ⟨s, Machine.reachable_of_run wmapMachine smallProcess_blank _ run, ?_, fun n s' done empty => ?_⟩
  · rw [mmaps]
    decide
  · rw [Running.exitRounds_stays mmaps (by decide) done, mmaps] at empty
    cases empty

end Cs537.Wmap
