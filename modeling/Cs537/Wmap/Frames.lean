import Cs537.Lib.Pool
import Cs537.Wmap.Move
import Cs537.Wmap.Unmap

/-! # Where the physical pages are

A physical page is on the free list, or mapped, or holds the entry of a mapping. No operation of a process puts
one into two of these places. So `sys_wunmap` frees what it frees exactly once; what it does not free is lost.
-/

namespace Cs537.Wmap

open Lib

namespace Running

variable {s s' : Running} {me : MmapEntry} {a i v frame : ℕ} {input : ℕ → ℕ → UInt8}

/-- The physical pages that the process and the allocator have. -/
def pool (s : Running) : Pool ℕ ℕ := ⟨s.free, fun v => (s.page v).map (·.frame), s.cores.map (·.frame)⟩

theorem pool_table (s : Running) (v : ℕ) : s.pool.table v = (s.page v).map (·.frame) := rfl

/-- No physical page is in two places. -/
def FramesApart (s : Running) : Prop := s.pool.Apart

private theorem cores_frame (s : Running) : s.cores.map (·.frame) = s.mmaps.map (·.frame) := by
  rw [cores, List.map_map]
  rfl

private theorem pool_congr (free : s'.free = s.free) (page : s'.page = s.page) (cores : s'.cores = s.cores) :
    s'.pool = s.pool := by
  rw [pool, pool, free, page, cores]

/-- A page keeps its place when it gets other contents or rights. -/
theorem pool_setPage {page page' : Page} (present : s.page v = some page) (same : page'.frame = page.frame) :
    (s.setPage v (some page')).pool = s.pool := by
  rw [pool, pool]
  congr 1
  funext w
  by_cases here : w = v
  · subst here
    simp [setPage, present, same]
  · simp [setPage, Function.update_of_ne here]

private theorem pool_clear (s : Running) (v : ℕ) :
    (s.setPage v none).pool = { s.pool with table := Function.update s.pool.table v none } := by
  rw [pool, pool]
  congr 1
  funext w
  by_cases here : w = v
  · subst here
    simp [setPage]
  · simp [setPage, Function.update_of_ne here]

private theorem pool_enter (s : Running) (v : ℕ) (page : Page) :
    (s.setPage v (some page)).pool = { s.pool with table := Function.update s.pool.table v (some page.frame) } := by
  rw [pool, pool]
  congr 1
  funext w
  by_cases here : w = v
  · subst here
    simp [setPage]
  · simp [setPage, Function.update_of_ne here]

private theorem pool_countPage (s : Running) (i : ℕ) : (s.countPage i).pool = s.pool :=
  pool_congr rfl rfl (cores_countPage s i)

private theorem poke_pool {byte : UInt8} (done : s.poke a byte = some s') : s'.pool = s.pool := by
  rw [poke] at done
  split at done
  · cases done
  case h_2 page present =>
    split at done
    · cases done
      exact pool_setPage present rfl
    · cases done

private theorem pokeNullOff_pool (done : s.pokeNullOff i = some s') : s'.pool = s.pool := by
  have rule (t : Running) (j : ℕ) (_ : j ∈ List.range 4) (t' : Running)
    (poked : t.poke (20 + j) (i / 256 ^ j).toUInt8 = some t')
      (keep : t.pool = s.pool) : t'.pool = s.pool := (poke_pool poked).trans keep
  exact foldlM_preserves rule done rfl

private theorem writeBack_pool {file : Option (Fin nfile)} {off : Option ℕ} (done : s.writeBack file off a = some s') :
    s'.pool = s.pool := by
  cases file with
  | some f =>
    obtain ⟨task, free, _⟩ := writeBack_file done
    have page : s'.page = s.page := congrArg Task.page task
    exact pool_congr free page (cores_of_mmaps (congrArg Task.mmaps task))
  | none =>
    simp only [writeBack] at done
    split at done
    · cases done
    case h_2 t stored =>
      have same : t.pool = s.pool := by
        split at stored
        · cases stored
          rfl
        · exact pokeNullOff_pool stored
      split at done
      · cases done
      · split at done
        · cases done
          exact same
        · cases done

/-- A page is allocated, and has no place yet. -/
theorem FramesApart.kalloc (apart : FramesApart s) (done : s.kalloc = some (frame, s')) :
    FramesApart s' ∧ s'.pool.Fresh frame := by
  obtain ⟨free, _⟩ := kalloc_free done
  have taken := apart.take (show s.pool.free = frame :: s'.free from free)
  have page : s'.page = s.page := congrArg Task.page (kalloc_task done)
  have cores : s'.cores = s.cores := cores_of_mmaps (congrArg Task.mmaps (kalloc_task done))
  have same : s'.pool = { s.pool with free := s'.free } := by
    rw [pool, pool, page, cores]
  rw [FramesApart, same]
  exact taken

private theorem walkAlloc_pool (done : s.walkAlloc v = some s') : s'.pool = { s.pool with free := s'.free } ∧
    s'.free.Sublist s.free := by
  obtain ⟨mmaps, page⟩ := walkAlloc_page done
  obtain ⟨suffix, _⟩ := walkAlloc_free done
  refine ⟨?_, suffix.sublist⟩
  rw [pool, pool, page, cores_of_mmaps mmaps]

theorem FramesApart.fault (apart : FramesApart s) {from_ : ℕ → UInt8} (done : s.fault a from_ = some s') :
    FramesApart s' := by
  obtain ⟨me, frame, data, s₁, s₂, s₃, _, allocated, filled, walked, _, _, rfl⟩ := fault_cases done
  obtain ⟨apart₁, fresh⟩ := apart.kalloc allocated
  have page : s₂.page = s₁.page := congrArg Task.page (fill_task filled).1
  have filled_pool : s₂.pool = s₁.pool :=
    pool_congr (fill_files filled).2 page (cores_of_mmaps (congrArg Task.mmaps (fill_task filled).1))
  obtain ⟨same, fewer⟩ := walkAlloc_pool walked
  rw [← filled_pool] at fresh
  rw [FramesApart, ← filled_pool] at apart₁
  rw [FramesApart, pool_countPage, pool_enter, same]
  exact (apart₁.shrink fewer).enter (fresh.shrink fewer) _

theorem FramesApart.access (apart : FramesApart s) {from_ : ℕ → UInt8} (access : Access s a from_ s') :
    FramesApart s' := by
  cases access with
  | present page present => exact apart
  | fault t absent handled => exact apart.fault handled

theorem FramesApart.load (apart : FramesApart s) {byte : UInt8} (done : s.load a input = some (s', byte)) :
    FramesApart s' :=
  apart.access (load_access done).1

theorem FramesApart.store (apart : FramesApart s) {byte : UInt8} (done : s.store a byte input = some s') :
    FramesApart s' := by
  obtain ⟨t, page, access, _, present, same⟩ := store_access done
  have pool : s'.pool = t.pool := by
    rw [same]
    exact pool_setPage present rfl
  rw [FramesApart, pool]
  exact apart.access access

theorem FramesApart.memmove (apart : FramesApart s) {dst src n : ℕ} (done : s.memmove dst src n input = some s') :
    FramesApart s' :=
  memmove_preserves FramesApart done (fun _ _ _ _ _ loaded apart => FramesApart.load apart loaded)
    (fun _ _ _ _ _ stored apart => FramesApart.store apart stored) apart

/-- One round of the shared branch gives back the page, if it is there. -/
theorem unmapSharedPage_pool {setsOff : Bool} (done : unmapSharedPage setsOff me s i = some s') :
    s'.pool = s.pool.vacate (me.pageAt i) := by
  simp only [unmapSharedPage] at done
  split at done
  · cases done
  · rw [Region.pageAt]
    cases present : s.page (uint32 (me.addr + i) / 4096) with
    | none =>
      rw [present] at done
      cases done
      have table : s.pool.table (uint32 (me.addr + i) / 4096) = none := by rw [pool_table, present, Option.map_none]
      exact (Pool.vacate_of_none table).symm
    | some page =>
      simp only [present] at done
      split at done
      · cases done
      case h_2 t written =>
        cases done
        have same : t.pool = s.pool := by
          split at written
          · exact writeBack_pool written
          · cases written
            rfl
        have table : s.pool.table (uint32 (me.addr + i) / 4096) = some page.frame := by
          rw [pool_table, present, Option.map_some]
        have cleared := pool_clear t (uint32 (me.addr + i) / 4096)
        have free : t.free = s.free := congrArg Pool.free same
        rw [same] at cleared
        rw [Pool.vacate, table, pool, Pool.mk.injEq]
        exact ⟨congrArg (page.frame :: ·) free, congrArg Pool.table cleared, congrArg Pool.list cleared⟩

theorem unmapPrivatePage_pool (done : unmapPrivatePage me s i = some s') :
    s'.pool = { s.pool with table := Function.update s.pool.table (me.pageAt i) none } := by
  rw [(unmapPrivatePage_iff.mp done).2]
  exact pool_clear s _

/-- The loop of the shared branch gives back the pages of its rounds. -/
theorem unmapShared_pool {setsOff : Bool} {l : List ℕ} (done : l.foldlM (unmapSharedPage setsOff me) s = some s') :
    s'.pool = (l.map me.pageAt).foldl Pool.vacate s.pool := by
  induction l generalizing s with
  | nil =>
    cases done
    rfl
  | cons i rest ih =>
    rw [List.foldlM_cons] at done
    obtain ⟨t, round, tail⟩ := Option.bind_eq_some_iff.mp done
    rw [ih tail, unmapSharedPage_pool round]
    rfl

/-- The loop of the private branch gives nothing back. -/
theorem FramesApart.unmapPrivate (apart : FramesApart s) {l : List ℕ}
    (done : l.foldlM (unmapPrivatePage me) s = some s') :
    FramesApart s' ∧ s'.free = s.free := by
  have rule (t : Running) (i : ℕ) (_ : i ∈ l) (t' : Running) (round : unmapPrivatePage me t i = some t')
      (keep : FramesApart t ∧ t.free = s.free) : FramesApart t' ∧ t'.free = s.free := by
    have same := unmapPrivatePage_pool round
    refine ⟨?_, (congrArg Pool.free same).trans keep.2⟩
    rw [FramesApart, same]
    exact keep.1.clear _
  exact foldlM_preserves rule done ⟨apart, rfl⟩

private theorem dupFile_pool {file : Option (Fin nfile)} (done : s.dupFile file = some s') : s'.pool = s.pool := by
  cases file with
  | none =>
    cases done
    rfl
  | some f =>
    rw [(dupFile_some done).2]
    rfl

theorem closeFile_pool {file : Option (Fin nfile)} (done : s.closeFile file = some s') : s'.pool = s.pool := by
  cases file with
  | none =>
    cases done
    rfl
  | some f =>
    simp only [closeFile, onKernel] at done
    split at done
    · cases done
    case h_2 k closed =>
      cases done
      rw [(Kernel.fileclose_spec closed).2]
      rfl

private theorem protectPage_pool (done : protectPage me s i = some s') : s'.pool = s.pool := by
  simp only [protectPage] at done
  split at done
  · cases done
  · split at done
    · split at done
      · cases done
      · exact poke_pool done
    · split at done
      · cases done
        rfl
      case h_2 page present =>
        cases done
        exact pool_setPage present rfl

/-- Marking leaves every page where it is. -/
theorem addMapping_pool {frame addr flags : ℕ} {length : ℤ} {file : Option (Fin nfile)}
    (done : s.addMapping frame addr length flags file = some s') : ∃ t : Running, t.pool = s.pool ∧ t.mmaps = s.mmaps ∧
      s' = { t with mmaps := ⟨⟨addr, length⟩, flags, 0, file, frame⟩ :: t.mmaps } := by
  simp only [addMapping] at done
  split at done
  · cases done
  case h_2 t marked =>
    cases done
    refine ⟨t, ?_, ?_, rfl⟩
    · split at marked
      · have rule (u : Running) (i : ℕ) (u' : Running)
            (round : protectPage ⟨⟨addr, length⟩, flags, 0, file, frame⟩ u i = some u') (keep : u.pool = s.pool) :
            u'.pool = s.pool := (protectPage_pool round).trans keep
        exact forPages_preserves rule marked rfl
      · cases marked
        rfl
    · split at marked
      · exact forPages_mmaps (fun _ _ _ => protectPage_mmaps) marked
      · cases marked
        rfl

theorem FramesApart.wmap (apart : FramesApart s) {addr flags : ℕ} {length fd : ℤ} {result : Option ℕ}
    (done : s.wmap addr length flags fd = some (s', result)) : FramesApart s' := by
  rcases wmap_spec done with ⟨_, rfl⟩ | ⟨file, frame, base, s₁, s₂, _, _, _, dup, allocated, added, _⟩
  · exact apart
  · rw [FramesApart, ← dupFile_pool dup] at apart
    obtain ⟨apart, fresh⟩ := FramesApart.kalloc apart allocated
    obtain ⟨t, same, _, rfl⟩ := addMapping_pool added
    rw [FramesApart, ← same] at apart
    rw [← same] at fresh
    exact apart.push fresh

/-- The pages of the mapping at an address are unmapped, and the page of its entry is given back. -/
theorem FramesApart.wunmap (apart : FramesApart s) {addr : ℕ} {result : Bool} (done : s.wunmap addr = some (s', result)) :
    FramesApart s' := by
  rcases wunmap_spec done with ⟨_, rfl, _⟩ | ⟨me, t, found, unmapped, rfl, _⟩
  · exact apart
  · have mmaps : t.mmaps = s.mmaps := unmapPages_mmaps unmapped
    have kept : FramesApart t := by
      rw [unmapPages] at unmapped
      split at unmapped
      · exact (apart.unmapPrivate (forPages_eq.mp unmapped).2).1
      · split at unmapped
        · split at unmapped
          · cases unmapped
          case h_2 u loop =>
            rw [FramesApart, closeFile_pool unmapped, unmapShared_pool (forPages_eq.mp loop).2]
            exact apart.vacateAll _
        · cases unmapped
          exact apart
    have split : t.pool.list.Perm (me.frame :: (s.mmaps.eraseP (·.addr = addr)).map (·.frame)) := by
      obtain ⟨q, front, rest, before, start, list, erased⟩ :=
        List.exists_of_eraseP (List.mem_of_find?_eq_some found) (List.find?_some found)
      have first : s.mmaps.find? (·.addr = addr) = some q := by
        rw [list, List.find?_append, List.find?_eq_none.mpr before, Option.none_or]
        exact List.find?_cons_of_pos start
      rw [found] at first
      cases first
      rw [pool, cores_frame, mmaps, erased, list, List.map_append, List.map_append, List.map_cons]
      exact List.perm_middle
    have popped := kept.pop split
    rwa [FramesApart, pool, cores_frame]

theorem writeLowPage_pool {newsize : ℤ} (done : writeLowPage me newsize s i = some s') : s'.pool = s.pool := by
  simp only [writeLowPage] at done
  split at done
  · cases done
  · split at done
    · cases done
      rfl
    · split at done
      · exact writeBack_pool done
      · cases done
        rfl

theorem FramesApart.wremap (apart : FramesApart s) {oldaddr flags : ℕ} {oldsize newsize : ℤ} {result : Option ℕ}
    (done : s.wremap oldaddr oldsize newsize flags input = some (s', result)) : FramesApart s' := by
  rcases wremap_spec done with ⟨rfl, _⟩ | ⟨me, i, _, found, index, moved⟩
  · exact apart
  rcases moved with ⟨_, _, rfl⟩ | ⟨newaddr, frame, s₁, _, _, _, allocated, moved, _⟩
  · have same : (s.mmaps.modify i fun me => { me with length := newsize }).map (·.frame) = s.mmaps.map (·.frame) := by
      apply List.ext_getElem?
      intro j
      simp only [List.getElem?_map, List.getElem?_modify]
      cases s.mmaps[j]? with
      | none => rfl
      | some q => split <;> rfl
    rwa [FramesApart, pool, cores_frame, same, ← cores_frame]
  · obtain ⟨apart₁, fresh⟩ := apart.kalloc allocated
    have begun : FramesApart { s₁ with
        mmaps := { me with addr := newaddr, length := newsize, frame := frame } :: s₁.mmaps } :=
      apart₁.push fresh
    have here : s.mmaps[i]? = some me := by
      rw [index, ← List.find?_eq_getElem?_findIdx, found]
    simp only [moveMapping] at moved
    split at moved
    · cases moved
    case h_2 t copied =>
      split at moved
      · cases moved
      case h_2 u written =>
        cases moved
        have same : u.pool = t.pool := by
          split at written
          · have rule (w : Running) (j : ℕ) (w' : Running) (round : writeLowPage me newsize w j = some w')
                (keep : w.pool = t.pool) : w'.pool = t.pool := (writeLowPage_pool round).trans keep
            exact forPages_preserves rule written rfl
          · cases written
            rfl
        have kept : FramesApart u := by
          rw [FramesApart, same]
          exact begun.memmove copied
        have entry : (u.mmaps.map (·.frame))[i + 1]? = some me.frame := by
          have list : u.pool.list = t.pool.list := congrArg Pool.list same
          rw [← cores_frame, show u.cores.map (·.frame) = _ from list, pool, memmove_cores copied, cores_frame,
            List.map_cons, List.getElem?_cons_succ, List.getElem?_map, congrArg Task.mmaps (kalloc_task allocated), here]
          rfl
        obtain ⟨bound, value⟩ := List.getElem?_eq_some_iff.mp entry
        have split : u.pool.list.Perm (me.frame :: (u.mmaps.eraseIdx (i + 1)).map (·.frame)) := by
          rw [pool, cores_frame, ← List.eraseIdx_map, ← value]
          exact (List.getElem_cons_eraseIdx_perm bound).symm
        have popped := kept.pop split
        rwa [FramesApart, pool, cores_frame]

/-- The other processes and the devices take and give back only pages that are not those of this process. -/
def OthersKeep (s : Running) : Action → Prop
  | .others kernel => FramesApart { s with toKernel := kernel }
  | _ => True

theorem FramesApart.step {act : Action} (apart : FramesApart s) (keep : s.OthersKeep act) (done : s.step act = some s') :
    FramesApart s' := by
  obtain ⟨_, performed⟩ := Option.ite_none_right_eq_some.mp done
  cases act with
  | wmap addr length flags fd =>
    obtain ⟨⟨t, result⟩, called, rfl⟩ := Option.map_eq_some_iff.mp performed
    exact apart.wmap called
  | wunmap addr =>
    obtain ⟨⟨t, result⟩, called, rfl⟩ := Option.map_eq_some_iff.mp performed
    exact apart.wunmap called
  | wremap oldaddr oldsize newsize flags input =>
    obtain ⟨⟨t, result⟩, called, rfl⟩ := Option.map_eq_some_iff.mp performed
    exact apart.wremap called
  | load a input =>
    obtain ⟨⟨t, byte⟩, loaded, rfl⟩ := Option.map_eq_some_iff.mp performed
    exact apart.load loaded
  | store a byte input => exact apart.store performed
  | others kernel =>
    cases performed
    exact keep

/-- In every run from a state in which no physical page is in two places, none ever is. -/
theorem framesApart_of_path {acts : List Action} (path : wmapMachine.Path OthersKeep s acts s') (apart : FramesApart s) :
    FramesApart s' :=
  path.preserves (fun _ _ _ keep done apart => FramesApart.step apart keep done) apart

/-- What `sys_wunmap` adds to the free list: the page of the entry, and for a shared mapping the pages that its loop
comes to. -/
private theorem wunmap_free {addr : ℕ} (found : s.mmaps.find? (·.addr = addr) = some me)
    (kind : isPrivate me.flags ≠ isShared me.flags) (apart : FramesApart s) (done : s.wunmap addr = some (s', true))
    (x : ℕ) :
    x ∈ s'.free ↔ x = me.frame ∨ x ∈ s.free ∨
      isShared me.flags = true ∧ ∃ i ∈ me.rounds, s.pool.table (me.pageAt i) = some x := by
  rcases wunmap_spec done with ⟨no, _⟩ | ⟨q, t, found', unmapped, rfl, _⟩
  · cases no
  · rw [found] at found'
    cases found'
    have free : x ∈ t.free ↔ x ∈ s.free ∨
        isShared me.flags = true ∧ ∃ i ∈ me.rounds, s.pool.table (me.pageAt i) = some x := by
      rw [unmapPages] at unmapped
      split at unmapped
      case isTrue notShared =>
        rw [notShared] at kind
        have no : isShared me.flags = false := by simpa using kind.symm
        rw [(apart.unmapPrivate (forPages_eq.mp unmapped).2).2]
        simp [no]
      case isFalse notPrivate =>
        have shared : isShared me.flags = true := by
          rw [Bool.not_eq_true] at notPrivate
          rw [notPrivate] at kind
          simpa using kind.symm
        rw [if_pos shared] at unmapped
        split at unmapped
        · cases unmapped
        case h_2 u loop =>
          have same := closeFile_pool unmapped
          have pages := unmapShared_pool (forPages_eq.mp loop).2
          rw [show t.free = t.pool.free from rfl, same, pages, Pool.mem_vacateAll]
          simp [shared, pool]
    rw [← free]
    exact List.mem_cons

end Running

open Running in
/-- Every page that is loaded and the page of the entry come to the free list exactly once if and only if the mapping
is shared and the loop comes to these pages, or none is loaded. -/
theorem freed_once_iff {s s' : Running} (apart : s.FramesApart) {addr : ℕ} {me : MmapEntry}
    (found : s.mmaps.find? (·.addr = addr) = some me) (kind : isPrivate me.flags ≠ isShared me.flags)
    (done : s.wunmap addr = some (s', true)) {loaded : Set ℕ} (there : ∀ v ∈ loaded, (s.page v).isSome) :
    ((∀ v ∈ loaded, ∀ page, s.page v = some page → s'.free.count page.frame = 1) ∧ s'.free.count me.frame = 1) ↔
      ∀ v ∈ loaded, isShared me.flags = true ∧ ∃ i ∈ me.rounds, me.pageAt i = v := by
  have free := wunmap_free found kind apart done
  have once (x : ℕ) : s'.free.count x = 1 ↔ x ∈ s'.free := by
    rw [List.Nodup.count (show s'.free.Nodup from (apart.wunmap done).free)]
    simp
  have page (v : ℕ) (page : Page) (present : s.page v = some page) : page.frame ∈ s'.free ↔
      isShared me.flags = true ∧ ∃ i ∈ me.rounds, me.pageAt i = v := by
    have held : s.pool.table v = some page.frame := by rw [pool_table, present, Option.map_some]
    have notEntry : page.frame ≠ me.frame := by
      intro same
      refine apart.tableList v _ held (same ▸ ?_)
      rw [pool, cores_frame]
      exact List.mem_map_of_mem (List.mem_of_find?_eq_some found)
    have notFree : page.frame ∉ s.free := apart.tableFree v _ held
    rw [free]
    simp only [notEntry, notFree, false_or]
    refine and_congr_right fun _ => exists_congr fun i => and_congr_right fun _ => ?_
    exact ⟨fun there => apart.injective _ _ _ there held, fun same => same ▸ held⟩
  constructor
  · rintro ⟨all, _⟩ v member
    obtain ⟨p, present⟩ := Option.isSome_iff_exists.mp (there v member)
    exact (page v p present).mp ((once _).mp (all v member p present))
  · intro all
    refine ⟨fun v member p present => (once _).mpr ((page v p present).mpr (all v member)), ?_⟩
    exact (once _).mpr ((free _).mpr (.inl rfl))

open Running in
theorem freed_once_twoKinds : ∃ s', twoKinds.wunmap 0x60000000 = some (s', true) ∧ s'.free.count 3 = 1 ∧
    s'.free.count 9 = 1 := by
  have run : (twoKinds.wunmap 0x60000000).map (·.2) = some true := by decide +kernel
  obtain ⟨⟨s', result⟩, done, rfl⟩ := Option.map_eq_some_iff.mp run
  have held (v x : ℕ) (there : twoKinds.pool.table v = some x) : v = 0x60001 ∧ x = 3 := by
    rw [pool_table] at there
    by_cases here : v = 0x60001
    · subst here
      cases there
      exact ⟨rfl, rfl⟩
    · rw [show twoKinds.page v = none from if_neg here] at there
      cases there
  have apart : twoKinds.FramesApart := by
    refine ⟨List.nodup_nil, by decide, fun v w x first second => ?_, fun _ _ _ => List.not_mem_nil,
      fun _ _ => List.not_mem_nil, fun v x there => ?_⟩
    · rw [(held v x first).1, (held w x second).1]
    · rw [(held v x there).2]
      decide
  have found : twoKinds.mmaps.find? (·.addr = 0x60000000) = some ⟨⟨0x60000000, 5000⟩, 2, 1, some 0, 9⟩ := by decide
  have loaded : ∀ v ∈ ({0x60001} : Set ℕ), (twoKinds.page v).isSome := by
    rintro v rfl
    rfl
  obtain ⟨pages, entry⟩ := (freed_once_iff apart found (by decide) done loaded).mpr fun v member => by
    obtain rfl : v = 0x60001 := member
    exact ⟨by decide, 4096, by decide +kernel, by decide +kernel⟩
  exact ⟨s', done, pages 0x60001 rfl _ rfl, entry⟩

open Running in
private theorem smallProcess_apart : smallProcess.FramesApart := by
  have held (v x : ℕ) (there : smallProcess.pool.table v = some x) : v = 0 ∧ x = 9 := by
    rw [pool_table] at there
    by_cases here : v = 0
    · subst here
      cases there
      exact ⟨rfl, rfl⟩
    · rw [show smallProcess.page v = none from if_neg here] at there
      cases there
  refine ⟨by decide, List.nodup_nil, fun v w x first second => ?_, fun v x there => ?_,
    fun _ member => absurd member List.not_mem_nil, fun _ _ _ => List.not_mem_nil⟩
  · rw [(held v x first).1, (held w x second).1]
  · rw [(held v x there).2]
    decide

open Running in
/-- A private mapping with one page that was loaded: `sys_wunmap` succeeds, and the page is on no list. -/
theorem unmap_loses_page : ∃ s s' page, wmapMachine.Reachable s ∧ s.FramesApart ∧
    s.mmaps = [⟨⟨0x60000000, 4096⟩, 5, 1, none, 1⟩] ∧ s.page 0x60000 = some page ∧
    s.wunmap 0x60000000 = some (s', true) ∧ s'.free.count page.frame = 0 := by
  have run : (wmapMachine.run smallProcess [.wmap 0 4096 5 (-1), .load 0x60000000 fun _ _ => 0]).map (fun s =>
      (s.mmaps, (s.page 0x60000).map (·.frame), (s.wunmap 0x60000000).map fun r => (r.2, r.1.free))) =
        some ([⟨⟨0x60000000, 4096⟩, 5, 1, none, 1⟩], some 2, some (true, [1, 4])) := by decide +kernel
  obtain ⟨s, run, values⟩ := Option.map_eq_some_iff.mp run
  simp only [Prod.mk.injEq] at values
  obtain ⟨mmaps, frame, unmapped⟩ := values
  obtain ⟨page, present, frame⟩ := Option.map_eq_some_iff.mp frame
  obtain ⟨⟨s', result⟩, done, values⟩ := Option.map_eq_some_iff.mp unmapped
  obtain ⟨rfl, free⟩ := Prod.mk.inj values
  have apart : s.FramesApart := by
    refine framesApart_of_path (Machine.Path.of_forall (fun act member t => ?_) (Machine.path_of_run run))
      smallProcess_apart
    rcases List.mem_cons.mp member with rfl | member
    · trivial
    · rw [List.mem_singleton.mp member]
      trivial
  refine ⟨s, s', page, Machine.reachable_of_run wmapMachine smallProcess_blank _ run, apart, mmaps, present, done, ?_⟩
  rw [frame, show s'.free = [1, 4] from free]
  decide

end Cs537.Wmap
