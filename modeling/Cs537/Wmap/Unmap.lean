import Cs537.Wmap.ExitLoop
import Cs537.Wmap.FileRefs

/-! # What `sys_wunmap` unmaps

The page loop steps through the range of a mapping, whose length need not be a multiple of the page size, and
the walk through the list takes out one entry wherever it stands. The length is unchecked when a mapping is made,
and every loop reads it as `uint`; the range of a mapping is taken in the same way.
-/

namespace Cs537.Wmap

open Lib

namespace Region

variable {r : Region} {i v : ℕ}

/-- The page has an address at an offset below the length, both as the loops count them. -/
def Spans (r : Region) (v : ℕ) : Prop := ∃ i < uint32 r.length, uint32 (r.addr + i) / 4096 = v

/-- No page lies in both. -/
def PageDisjoint (r q : Region) : Prop := ∀ v, ¬ (r.Spans v ∧ q.Spans v)

/-- The values of the loop counter up to the length. -/
def rounds (r : Region) : List ℕ := (List.range ((uint32 r.length + 4095) / 4096)).map (4096 * ·)

/-- The page of a round. -/
def pageAt (r : Region) (i : ℕ) : ℕ := uint32 (r.addr + i) / 4096

/-- The loop over the range comes to no page of `kmap`. -/
def InUser (r : Region) : Prop := ∀ i ∈ r.rounds, isKernel (r.pageAt i) = false

theorem mem_rounds : i ∈ r.rounds ↔ i < uint32 r.length ∧ i % 4096 = 0 := by
  simp only [rounds, List.mem_map, List.mem_range]
  constructor
  · rintro ⟨j, below, rfl⟩
    omega
  · rintro ⟨below, multiple⟩
    exact ⟨i / 4096, by omega, by omega⟩

private theorem aligned_round (aligned : r.addr % 4096 = 0) (round : i ∈ r.rounds) : uint32 (r.addr + i) % 4096 = 0 := by
  obtain ⟨_, multiple⟩ := mem_rounds.mp round
  rw [uint32]
  omega

/-- The loop comes to every page of a mapping on a page boundary. -/
theorem spans_iff (aligned : r.addr % 4096 = 0) : r.Spans v ↔ ∃ i ∈ r.rounds, r.pageAt i = v := by
  constructor
  · rintro ⟨i, below, rfl⟩
    refine ⟨4096 * (i / 4096), mem_rounds.mpr ⟨by omega, by omega⟩, ?_⟩
    rw [pageAt, uint32, uint32]
    omega
  · rintro ⟨i, round, rfl⟩
    exact ⟨i, (mem_rounds.mp round).1, rfl⟩

/-- A loop that does not meet the pages of the kernel ends. -/
private theorem offsets_of_user (aligned : r.addr % 4096 = 0) (user : ∀ v, r.Spans v → isKernel v = false) :
    r.offsets = some r.rounds := by
  rw [offsets, if_neg, rounds]
  intro wraps
  have top := user 0xfffff ⟨uint32 (0xfffff000 - r.addr), by rw [uint32]; omega, by rw [uint32, uint32]; omega⟩
  revert top
  decide

theorem rounds_of_offsets {l : List ℕ} (loop : r.offsets = some l) : l = r.rounds := by
  rw [offsets] at loop
  split at loop
  · cases loop
  · cases loop
    rfl

end Region

namespace Running

variable {s s' : Running} {me : MmapEntry} {f : Fin nfile} {setsOff : Bool} {i : ℕ} {l : List ℕ}

/-- A loop whose rounds clear a page each clears those pages. -/
theorem foldlM_clears {body : Running → ℕ → Option Running} {number : ℕ → ℕ}
    (clears : ∀ s i s', body s i = some s' → s'.page = Function.update s.page (number i) none)
    (done : l.foldlM body s = some s') (v : ℕ) :
    s'.page v = if ∃ i ∈ l, number i = v then none else s.page v := by
  induction l generalizing s with
  | nil =>
    cases done
    simp
  | cons i rest ih =>
    rw [List.foldlM_cons] at done
    obtain ⟨t, round, tail⟩ := Option.bind_eq_some_iff.mp done
    rw [ih tail, clears s i t round]
    by_cases here : number i = v
    · simp [here]
    · rw [Function.update_of_ne (Ne.symm here)]
      simp [here]

theorem unmapPrivatePage_iff : unmapPrivatePage me s i = some s' ↔
    isKernel (me.pageAt i) = false ∧ s' = s.setPage (me.pageAt i) none := by
  simp only [unmapPrivatePage, Region.pageAt]
  split
  case isTrue kernel => simp [kernel]
  case isFalse user => simp [user, eq_comm]

/-- The loop of the private branch. -/
theorem unmapPrivate_returns : (∃ s', l.foldlM (unmapPrivatePage me) s = some s') ↔
    ∀ i ∈ l, isKernel (me.pageAt i) = false := by
  induction l generalizing s with
  | nil => simp
  | cons i rest ih =>
    rw [List.foldlM_cons, List.forall_mem_cons]
    constructor
    · rintro ⟨s', done⟩
      obtain ⟨t, round, tail⟩ := Option.bind_eq_some_iff.mp done
      exact ⟨(unmapPrivatePage_iff.mp round).1, ih.mp ⟨s', tail⟩⟩
    · rintro ⟨user, users⟩
      obtain ⟨s', tail⟩ := (ih (s := s.setPage (me.pageAt i) none)).mpr users
      refine ⟨s', ?_⟩
      rw [unmapPrivatePage_iff.mpr ⟨user, rfl⟩]
      exact tail

/-- The write of a file page touches the offset and the contents of files only. -/
theorem writeBack_file {off : Option ℕ} {a : ℕ} (done : s.writeBack (some f) off a = some s') :
    s'.toTask = s.toTask ∧ s'.free = s.free ∧ SameRefs s s' := by
  simp only [writeBack] at done
  have task := onKernel_task done
  rw [onKernel] at done
  split at done
  · cases done
  case h_2 k written =>
    cases done
    have free : k.free = s.free := by
      rcases Kernel.filewrite_spec written with ⟨_, rfl⟩ | ⟨bytes, _, _, _, rfl⟩ <;> rfl
    refine ⟨task, free, congrArg Task.mmaps task, fun g => ?_⟩
    by_cases here : g = f
    · subst here
      rcases Kernel.filewrite_spec written with ⟨_, rfl⟩ | ⟨bytes, _, _, _, rfl⟩ <;> simp [Kernel.setFile]
    · rcases Kernel.filewrite_spec written with ⟨_, rfl⟩ | ⟨bytes, _, _, _, rfl⟩ <;>
        simp [Kernel.setFile, Function.update_of_ne here]

/-- The file can still be written, if a write gets to it at all. -/
def Open (s : Running) (f : Fin nfile) : Prop := (s.file f).writable = true → (s.file f).type ≠ .none

/-- The write of a page that is there panics only for a file that has been closed. -/
private theorem writeBack_file_iff {off : Option ℕ} {a : ℕ} (small : a < 2 ^ 32) (aligned : a % 4096 = 0)
    (present : (s.page (a / 4096)).isSome) : (∃ s', s.writeBack (some f) off a = some s') ↔ s.Open f := by
  have last : uint32 ((a : ℤ) + 4095) / 4096 = a / 4096 := by
    rw [uint32]
    omega
  obtain ⟨bytes, read⟩ := Option.isSome_iff_exists.mp ((bytesAt_isSome_iff (s := s) small).mpr ⟨present, last ▸ present⟩)
  simp only [writeBack, onKernel, Kernel.filewrite, Kernel.setFile, Function.update_self, Open, read]
  cases (s.file f).writable with
  | false => simp
  | true => cases (s.file f).type <;> simp

/-- One round of the shared branch for a file: the page goes to the free list. -/
theorem unmapSharedPage_file (file : me.file = some f) (done : unmapSharedPage setsOff me s i = some s') :
    s'.page = Function.update s.page (me.pageAt i) none ∧ s'.tables = s.tables ∧ SameRefs s s' ∧
      s'.free = ((s.page (me.pageAt i)).map (·.frame)).toList ++ s.free := by
  simp only [unmapSharedPage] at done
  split at done
  · cases done
  · simp only [Region.pageAt]
    cases present : s.page (uint32 (me.addr + i) / 4096) with
    | none =>
      rw [present] at done
      cases done
      exact ⟨by rw [← present, Function.update_eq_self], rfl, .refl s, rfl⟩
    | some page =>
      simp only [present, file] at done
      split at done
      · cases done
      case h_2 t written =>
        cases done
        obtain ⟨task, free, refs⟩ : t.toTask = s.toTask ∧ t.free = s.free ∧ SameRefs s t := by
          split at written
          · exact writeBack_file written
          · cases written
            exact ⟨rfl, rfl, .refl s⟩
        have tables : t.tables = s.tables := congrArg Task.tables task
        have page : t.page = s.page := congrArg Task.page task
        refine ⟨?_, tables, ⟨refs.mmaps, refs.file⟩, ?_⟩
        · rw [← page]
          rfl
        · rw [← free]
          rfl

private theorem unmapSharedPage_file_iff (setsOff : Bool) (file : me.file = some f) (aligned : uint32 (me.addr + i) % 4096 = 0) :
    (∃ s', unmapSharedPage setsOff me s i = some s') ↔ isKernel (me.pageAt i) = false ∧
      ∀ page, s.page (me.pageAt i) = some page → page.writable = true → s.Open f := by
  have back (off : Option ℕ) (present : (s.page (me.pageAt i)).isSome) :
      (∃ s', s.writeBack (some f) off (uint32 (me.addr + i)) = some s') ↔ s.Open f :=
    writeBack_file_iff (uint32_lt _) aligned present
  simp only [unmapSharedPage, Region.pageAt] at back ⊢
  cases user : isKernel (uint32 (me.addr + i) / 4096) with
  | true => simp
  | false =>
    cases present : s.page (uint32 (me.addr + i) / 4096) with
    | none => simp
    | some page =>
      have back := back (if setsOff then some i else none) (by rw [present]; rfl)
      cases writable : page.writable with
      | false => simp [writable]
      | true =>
        simp only [file, writable, if_true, Bool.false_eq_true, if_false, true_and, Option.some.injEq, forall_eq',
          forall_const, ← back]
        cases s.writeBack (some f) _ (uint32 (me.addr + i)) <;> simp

/-- The loop of the shared branch for a file. -/
private theorem unmapShared_returns (setsOff : Bool) (file : me.file = some f)
    (aligned : ∀ i ∈ l, uint32 (me.addr + i) % 4096 = 0) :
    (∃ s', l.foldlM (unmapSharedPage setsOff me) s = some s') ↔ (∀ i ∈ l, isKernel (me.pageAt i) = false) ∧
      ((∃ i ∈ l, ∃ page, s.page (me.pageAt i) = some page ∧ page.writable = true) → s.Open f) := by
  induction l generalizing s with
  | nil => simp
  | cons i rest ih =>
    obtain ⟨here, later⟩ := List.forall_mem_cons.mp aligned
    have round := unmapSharedPage_file_iff (s := s) setsOff file here
    have same {t : Running} (done : unmapSharedPage setsOff me s i = some t) : t.Open f ↔ s.Open f := by
      rw [Open, Open, (unmapSharedPage_file file done).2.2.1.file f]
    rw [List.foldlM_cons]
    constructor
    · rintro ⟨s', done⟩
      obtain ⟨t, first, tail⟩ := Option.bind_eq_some_iff.mp done
      obtain ⟨user, opened⟩ := round.mp ⟨t, first⟩
      obtain ⟨users, others⟩ := (ih later).mp ⟨s', tail⟩
      refine ⟨List.forall_mem_cons.mpr ⟨user, users⟩, ?_⟩
      rintro ⟨j, member, page, present, writable⟩
      by_cases same_page : me.pageAt j = me.pageAt i
      · rw [same_page] at present
        exact opened page present writable
      · rcases List.mem_cons.mp member with rfl | member
        · exact absurd rfl same_page
        · refine (same first).mp (others ⟨j, member, page, ?_, writable⟩)
          rw [(unmapSharedPage_file file first).1, Function.update_of_ne same_page, present]
    · rintro ⟨users, opened⟩
      obtain ⟨user, users⟩ := List.forall_mem_cons.mp users
      obtain ⟨t, first⟩ := round.mpr ⟨user, fun page present writable =>
        opened ⟨i, List.mem_cons_self, page, present, writable⟩⟩
      obtain ⟨s', tail⟩ := (ih later (s := t)).mpr ⟨users, fun ⟨j, member, page, present, writable⟩ => by
        refine (same first).mpr (opened ⟨j, List.mem_cons_of_mem _ member, page, ?_, writable⟩)
        rw [(unmapSharedPage_file file first).1] at present
        by_cases same_page : me.pageAt j = me.pageAt i
        · rw [same_page, Function.update_self] at present
          cases present
        · rwa [Function.update_of_ne same_page] at present⟩
      refine ⟨s', ?_⟩
      rw [first]
      exact tail

/-- The mappings of a kind that `sys_wmap` makes, apart from shared ones without a file. -/
def Kind (me : MmapEntry) : Prop := isPrivate me.flags = true ∨ isShared me.flags = true ∧ me.file.isSome

/-- The pages of a mapping can be unmapped: none is a page of the kernel, and the file of a shared mapping is counted,
and open if a page has to be written back. -/
structure Unmappable (s : Running) (me : MmapEntry) : Prop where
  user : ∀ v, me.Spans v → isKernel v = false
  counted : isPrivate me.flags = false → ∀ f, me.file = some f → 1 ≤ (s.file f).ref
  opened : isPrivate me.flags = false → ∀ f, me.file = some f →
    (∃ v page, me.Spans v ∧ s.page v = some page ∧ page.writable = true) → s.Open f

/-- The loop over the rounds of a mapping, if it ends. -/
theorem forPages_eq {body : Running → ℕ → Option Running} :
    s.forPages me.toRegion body = some s' ↔ me.offsets.isSome ∧ me.rounds.foldlM body s = some s' := by
  rw [forPages]
  cases loop : me.offsets with
  | none => simp
  | some l =>
    rw [Region.rounds_of_offsets loop]
    simp

private theorem unmapPages_returns (aligned : me.addr % 4096 = 0) (kind : Kind me) :
    (∃ s', s.unmapPages me = some s') ↔ s.Unmappable me := by
  have users : (∀ v, me.Spans v → isKernel v = false) ↔ ∀ i ∈ me.rounds, isKernel (me.pageAt i) = false := by
    simp only [Region.spans_iff aligned, forall_exists_index, and_imp, forall_apply_eq_imp_iff₂]
  have ends (user : ∀ v, me.Spans v → isKernel v = false) : me.offsets.isSome := by
    rw [Region.offsets_of_user aligned user]
    rfl
  cases notPrivate : isPrivate me.flags with
  | true =>
    simp only [unmapPages, notPrivate, if_true, forPages_eq]
    constructor
    · rintro ⟨s', _, done⟩
      exact ⟨users.mpr (unmapPrivate_returns.mp ⟨s', done⟩), by simp [notPrivate], by simp [notPrivate]⟩
    · rintro ⟨user, _, _⟩
      obtain ⟨s', done⟩ := unmapPrivate_returns.mpr (users.mp user)
      exact ⟨s', ends user, done⟩
  | false =>
    obtain ⟨shared, backed⟩ : isShared me.flags = true ∧ me.file.isSome := kind.resolve_left (by simp [notPrivate])
    obtain ⟨f, file⟩ := Option.isSome_iff_exists.mp backed
    have rounds := unmapShared_returns (s := s) true file fun i round => Region.aligned_round aligned round
    have pages : (∃ i ∈ me.rounds, ∃ page, s.page (me.pageAt i) = some page ∧ page.writable = true) ↔
        ∃ v page, me.Spans v ∧ s.page v = some page ∧ page.writable = true := by
      simp only [Region.spans_iff aligned]
      constructor
      · rintro ⟨i, round, page, present, writable⟩
        exact ⟨_, page, ⟨i, round, rfl⟩, present, writable⟩
      · rintro ⟨_, page, ⟨i, round, rfl⟩, present, writable⟩
        exact ⟨i, round, page, present, writable⟩
    have same {t : Running} (done : me.rounds.foldlM (unmapSharedPage true me) s = some t) :
        (t.file f).ref = (s.file f).ref := by
      have rule (t : Running) (i : ℕ) (_ : i ∈ me.rounds) (t' : Running) (round : unmapSharedPage true me t i = some t')
          (keep : (t.file f).ref = (s.file f).ref) : (t'.file f).ref = (s.file f).ref := by
        rw [(unmapSharedPage_file file round).2.2.1.file f]
        exact keep
      exact foldlM_preserves rule done rfl
    simp only [unmapPages, notPrivate, shared, Bool.false_eq_true, if_false, if_true, file]
    constructor
    · rintro ⟨s', done⟩
      split at done
      · cases done
      case h_2 t unmapped =>
        have loop := (forPages_eq.mp unmapped).2
        obtain ⟨user, opened⟩ := rounds.mp ⟨t, loop⟩
        refine ⟨users.mpr user, fun _ g which => ?_, fun _ g which => ?_⟩
        · rw [file] at which
          cases which
          rw [← same loop]
          exact closeFile_iff.mp ⟨s', done⟩ f rfl
        · rw [file] at which
          cases which
          rw [← pages]
          exact opened
    · rintro ⟨user, counted, opened⟩
      obtain ⟨t, loop⟩ := rounds.mpr ⟨users.mp user, fun some => opened notPrivate f file (pages.mp some)⟩
      obtain ⟨s', closed⟩ : ∃ s', t.closeFile (some f) = some s' := closeFile_iff.mpr fun g which => by
        cases which
        rw [same loop]
        exact counted notPrivate f file
      refine ⟨s', ?_⟩
      rw [forPages_eq.mpr ⟨ends user, loop⟩]
      exact closed

/-- Unmapping clears the pages of the mapping and no others. -/
private theorem unmapPages_page (aligned : me.addr % 4096 = 0) (kind : Kind me) (done : s.unmapPages me = some s') (v : ℕ) :
    (me.Spans v → s'.page v = none) ∧ (¬ me.Spans v → s'.page v = s.page v) := by
  have clears (cleared : s'.page v = if ∃ i ∈ me.rounds, me.pageAt i = v then none else s.page v) :
      (me.Spans v → s'.page v = none) ∧ (¬ me.Spans v → s'.page v = s.page v) := by
    rw [Region.spans_iff aligned, cleared]
    exact ⟨fun inside => if_pos inside, fun outside => if_neg outside⟩
  cases notPrivate : isPrivate me.flags with
  | true =>
    simp only [unmapPages, notPrivate, if_true, forPages_eq] at done
    refine clears (foldlM_clears (fun t i t' round => ?_) done.2 v)
    rw [(unmapPrivatePage_iff.mp round).2]
    rfl
  | false =>
    obtain ⟨shared, backed⟩ : isShared me.flags = true ∧ me.file.isSome := kind.resolve_left (by simp [notPrivate])
    obtain ⟨f, file⟩ := Option.isSome_iff_exists.mp backed
    simp only [unmapPages, notPrivate, shared, Bool.false_eq_true, if_false, if_true] at done
    split at done
    · cases done
    case h_2 t unmapped =>
      have page : s'.page = t.page := congrArg Task.page (closeFile_task done)
      have rule (t : Running) (i : ℕ) (t' : Running) (round : unmapSharedPage true me t i = some t') :
          t'.page = Function.update t.page (me.pageAt i) none := (unmapSharedPage_file file round).1
      refine clears ?_
      rw [page]
      exact foldlM_clears rule (forPages_eq.mp unmapped).2 v

/-- The mapping that a list in which no start address occurs twice has at an address. -/
theorem find_addr {front rest : List MmapEntry} (distinct : ((front ++ me :: rest).map (·.addr)).Nodup) :
    (front ++ me :: rest).find? (·.addr = me.addr) = some me ∧
      (front ++ me :: rest).eraseP (·.addr = me.addr) = front ++ rest := by
  have before : ∀ q ∈ front, ¬ q.addr = me.addr := by
    intro q member same
    rw [List.map_append, List.map_cons, List.nodup_append] at distinct
    exact distinct.2.2 _ (List.mem_map_of_mem member) _ List.mem_cons_self same
  constructor
  · rw [List.find?_append, List.find?_eq_none.mpr (by simpa using before), Option.none_or,
      List.find?_cons_of_pos (by simp)]
  · rw [List.eraseP_append_right _ (by simpa using before), List.eraseP_cons_of_pos (by simp)]

/-- `sys_wunmap` comes back, with `SUCCESS` exactly when a mapping starts at the address; then that entry is gone,
the others are as they were, no page of its range is there and all others are; else nothing happens. -/
def UnmapsExactly (s : Running) (addr : ℕ) : Prop :=
  ∃ s' result, s.wunmap addr = some (s', result) ∧ (result = true ↔ ∃ me ∈ s.mmaps, me.addr = addr) ∧
    (∀ front me rest, s.mmaps = front ++ me :: rest → me.addr = addr → s'.mmaps = front ++ rest ∧
      (∀ v, me.Spans v → s'.page v = none) ∧ (∀ v, ¬ me.Spans v → s'.page v = s.page v) ∧
      ∀ q ∈ front ++ rest, ∀ v, q.Spans v → s'.page v = s.page v) ∧
    ((∀ me ∈ s.mmaps, me.addr ≠ addr) → s' = s)

end Running

open Running in
/-- For mappings on page boundaries that share no page, `sys_wunmap` does this if the pages of the mapping at the
address, if there is one, can be unmapped; and if they are not pages of `kmap`, only then. -/
theorem unmaps_exactly_iff {s : Running} {addr : ℕ} (aligned : ∀ me ∈ s.mmaps, me.addr % 4096 = 0)
    (distinct : (s.mmaps.map (·.addr)).Nodup) (apart : s.regions.Pairwise Region.PageDisjoint)
    (kind : ∀ me ∈ s.mmaps, me.addr = addr → Kind me) :
    ((∀ me ∈ s.mmaps, me.addr = addr → s.Unmappable me) → s.UnmapsExactly addr) ∧
      ((∀ me ∈ s.mmaps, me.addr = addr → me.toRegion.InUser) → s.UnmapsExactly addr →
        ∀ me ∈ s.mmaps, me.addr = addr → s.Unmappable me) := by
  have unmaps {front rest : List MmapEntry} {me : MmapEntry} (list : s.mmaps = front ++ me :: rest) :
      s.wunmap me.addr = (s.unmapPages me).map fun t => (Running.kfree { t with mmaps := front ++ rest } me.frame,
        true) := by
    obtain ⟨found, erased⟩ := find_addr (list ▸ distinct)
    rw [wunmap, list, found]
    cases unmapped : s.unmapPages me with
    | none => simp [unmapped]
    | some t =>
      have same : t.mmaps = s.mmaps := unmapPages_mmaps unmapped
      simp only [unmapped, same, list, erased, Option.map_some]
  refine ⟨fun unmappable => ?_, fun _ => ?_⟩
  · by_cases found : ∃ me ∈ s.mmaps, me.addr = addr
    · obtain ⟨me, member, rfl⟩ := found
      obtain ⟨front, rest, list⟩ := List.append_of_mem member
      obtain ⟨t, unmapped⟩ := (unmapPages_returns (aligned me member) (kind me member rfl)).mpr (unmappable me member rfl)
      have pages := unmapPages_page (aligned me member) (kind me member rfl) unmapped
      refine ⟨_, true, by rw [unmaps list, unmapped]; rfl, iff_of_true rfl ⟨me, member, rfl⟩, ?_, ?_⟩
      · intro front' me' rest' list' same
        obtain rfl : me' = me := by
          have first := (find_addr (list' ▸ distinct)).1
          rw [same, ← list', list, (find_addr (list ▸ distinct)).1] at first
          exact (Option.some.inj first).symm
        have left := (find_addr (list' ▸ distinct)).2
        have right := (find_addr (list ▸ distinct)).2
        rw [← list'] at left
        rw [← list] at right
        have others : front' ++ rest' = front ++ rest := left.symm.trans right
        refine ⟨others.symm, fun v => (pages v).1, fun v => (pages v).2, fun q other v inside =>
          (pages v).2 fun here => ?_⟩
        rw [regions, list', List.map_append, List.map_cons, List.pairwise_append, List.pairwise_cons] at apart
        rcases List.mem_append.mp other with before | behind
        · exact apart.2.2 _ (List.mem_map_of_mem before) _ List.mem_cons_self v ⟨inside, here⟩
        · exact apart.2.1.1 _ (List.mem_map_of_mem behind) v ⟨here, inside⟩
      · intro none
        exact absurd rfl (none me member)
    · have absent : ∀ me ∈ s.mmaps, me.addr ≠ addr := fun me member same => found ⟨me, member, same⟩
      have none : s.mmaps.find? (·.addr = addr) = none := List.find?_eq_none.mpr (by simpa using absent)
      refine ⟨s, false, by rw [wunmap, none], iff_of_false Bool.false_ne_true found, ?_, fun _ => rfl⟩
      intro front me rest list same
      exact absurd same (absent me (by rw [list]; exact List.mem_append_right _ List.mem_cons_self))
  · rintro ⟨s', result, done, _⟩ me member rfl
    obtain ⟨front, rest, list⟩ := List.append_of_mem member
    rw [unmaps list] at done
    obtain ⟨t, unmapped, _⟩ := Option.map_eq_some_iff.mp done
    exact (unmapPages_returns (aligned me member) (kind me member rfl)).mp ⟨t, unmapped⟩

/-- A file mapping with a loaded page, and a private mapping of a part of a page in front of it. -/
def twoKinds : Running where
  ofile _ := none
  mmaps := [⟨⟨0x60002000, 100⟩, 5, 0, none, 8⟩, ⟨⟨0x60000000, 5000⟩, 2, 1, some 0, 9⟩]
  tables _ := true
  page v := if v = 0x60001 then some ⟨fun _ => 7, true, 3⟩ else none
  file _ := ⟨.inode, 1, true, true, 0, 0⟩
  inode _ := ⟨List.replicate 5000 7, sevens_le_maxFile⟩
  free := []

theorem unmaps_exactly_twoKinds : twoKinds.UnmapsExactly 0x60000000 := by
  have apart : twoKinds.regions.Pairwise Region.PageDisjoint := by
    refine List.pairwise_pair.mpr ?_
    rintro v ⟨⟨i, below, rfl⟩, ⟨j, below', same⟩⟩
    simp only [uint32] at below below' same
    omega
  refine (unmaps_exactly_iff (by decide) (by decide) apart (by simp only [Running.Kind]; decide)).1 ?_
  rintro me member start
  obtain rfl : me = ⟨⟨0x60000000, 5000⟩, 2, 1, some 0, 9⟩ := by
    rcases List.mem_cons.mp member with rfl | member
    · cases start
    · exact List.mem_singleton.mp member
  refine ⟨?_, ?_, ?_⟩
  · rintro v ⟨i, below, rfl⟩
    simp only [uint32] at below ⊢
    exact isKernel_of_lt (by simp only [kernelPage]; omega)
  · rintro _ f _
    exact le_rfl
  · rintro _ f _ _ _ type
    cases type

/-- A child has the file mapping of its parent, but no reference for it: when both have closed the descriptor and the
parent has unmapped, `sys_wunmap` of the child panics. -/
theorem unmap_panics_in_child : ∃ s, systemMachine.Reachable s ∧ s.Live 1 ∧
    (s.proc 1).mmaps = [⟨⟨0x60000000, 4096⟩, 2, 0, some 0, 3⟩] ∧ ¬ (s.running 1).UnmapsExactly 0x60000000 := by
  have run : (systemMachine.run System.boot [(0, .open 0 2), (0, .wmap 0 4096 2 0),
      (0, .fork (some ⟨fun _ => false, fun _ => none⟩) [3, 4, 5, 6]), (0, .wunmap 0x60000000), (0, .close 0),
      (1, .close 0)]).map (fun s => (decide (s.Live 1), (s.proc 1).mmaps, ((s.running 1).wunmap 0x60000000).isNone)) =
        some (true, [⟨⟨0x60000000, 4096⟩, 2, 0, some 0, 3⟩], true) := by decide +kernel
  obtain ⟨s, run, triple⟩ := Option.map_eq_some_iff.mp run
  obtain ⟨live, rest⟩ := Prod.mk.inj triple
  obtain ⟨mmaps, panics⟩ := Prod.mk.inj rest
  refine ⟨s, Machine.reachable_of_run systemMachine System.boot_fresh _ run, of_decide_eq_true live, mmaps, ?_⟩
  rintro ⟨s', result, done, _⟩
  rw [Option.isNone_iff_eq_none.mp panics] at done
  cases done

end Cs537.Wmap
