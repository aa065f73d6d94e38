import Cs537.Wmap.WriteBack

/-! # A shared mapping that is only read

A page of a mapping that is loaded is writable, and `sys_wunmap` writes it back whole: the zeros behind the
last byte of the file become part of it. The file is as it was if and only if no page passes its end.
-/

namespace Cs537.Wmap

open Lib

private theorem search_aligned {regions : List Region} {length : ℤ} {fuel addr base : ℕ} (aligned : addr % 4096 = 0)
    (found : search regions length fuel addr = some base) : base % 4096 = 0 := by
  induction fuel generalizing addr with
  | zero => cases found
  | succ fuel ih =>
    have next (r : Region) : pgRoundUp r.limit % 4096 = 0 := by
      rw [pgRoundUp]
      omega
    rw [search] at found
    split at found
    · cases found
      exact aligned
    case h_2 r _ =>
      simp only at found
      split at found
      · cases found
        exact next r
      · exact ih (next r) found

namespace Running

variable {s s' : Running} {a i : ℕ} {f : Fin nfile} {me : MmapEntry} {input : ℕ → ℕ → UInt8}

/-- The content of a page of a regular file: its bytes, and zeros behind the end. -/
def filePage (c : Content) (off o : ℕ) : UInt8 := c.bytes.getD (off + o) 0

/-- A fault on a mapping of a regular file. -/
private theorem fill_file {data from_ : ℕ → UInt8} (file : me.file = some f) (backing : isAnonymous me.flags = false)
    (backed : s.Backed f) (low : me.addr ≤ a / 4096 * 4096) (high : a < 2 ^ 32)
    (done : s.fill me a from_ = some (s', data)) :
    ∃ off, s'.file = Function.update s.file f { s.file f with off := off } ∧ s'.inode = s.inode ∧
      a / 4096 * 4096 - me.addr ≤ (s.inode (s.file f).ip).bytes.length ∧
      data = filePage (s.inode (s.file f).ip) (a / 4096 * 4096 - me.addr) := by
  have here : uint32 ((a : ℤ) - me.addr - (a % 4096 : ℕ)) = a / 4096 * 4096 - me.addr := by
    rw [uint32]
    omega
  simp only [fill, file, backing, Bool.false_eq_true, if_false, here, Kernel.fileread, Kernel.setFile,
    Function.update_self, backed.regular, backed.readable, Bool.true_eq_false, Content.readi] at done
  split at done
  · cases done
  case h_2 k read filled =>
    cases done
    split at filled
    · cases filled
    case h_2 count page inside =>
      cases filled
      split at inside
      · cases inside
      case isFalse within =>
        cases inside
        refine ⟨a / 4096 * 4096 - me.addr +
          min 4096 ((s.inode (s.file f).ip).bytes.length - (a / 4096 * 4096 - me.addr)), ?_, rfl, by omega, rfl⟩
        simp only [Function.update_idem, backed.regular, backed.readable]

/-- A load through the first mapping finds the page, or reads it from the file. -/
private theorem load_file {byte : UInt8} {rest : List MmapEntry} (head : s.mmaps = me :: rest) (inside : me.contains a)
    (file : me.file = some f) (backing : isAnonymous me.flags = false) (backed : s.Backed f)
    (low : me.addr ≤ a / 4096 * 4096) (done : s.load a input = some (s', byte)) :
    (s' = s ∧ ∃ page, s.page (a / 4096) = some page) ∨
      ∃ frame off, s.page (a / 4096) = none ∧ s'.cores = s.cores ∧ s'.inode = s.inode ∧
        s'.file = Function.update s.file f { s.file f with off := off } ∧
        a / 4096 * 4096 - me.addr ≤ (s.inode (s.file f).ip).bytes.length ∧
        s'.page = Function.update s.page (a / 4096)
          (some ⟨filePage (s.inode (s.file f).ip) (a / 4096 * 4096 - me.addr), true, frame⟩) := by
  have cores := load_cores done
  rw [load] at done
  split at done
  · cases done
  case isFalse user =>
    split at done
    case h_1 page present =>
      cases done
      exact .inl ⟨rfl, page, present⟩
    case h_2 =>
      split at done
      · cases done
      case h_2 t handled =>
        obtain ⟨_, _, pair⟩ := Option.map_eq_some_iff.mp done
        cases pair
        obtain ⟨found, frame, data, s₁, s₂, s₃, first, allocated, filled, walked, _, absent, rfl⟩ := fault_cases handled
        simp only [head, List.find?_cons, inside] at first
        cases first
        obtain ⟨file₁, inode₁⟩ := kalloc_files allocated
        have backed₁ : s₁.Backed f := by
          constructor <;> rw [file₁]
          · exact backed.regular
          · exact backed.readable
          · exact backed.writable
        have high : a < 2 ^ 32 := by
          simp only [kernelPage] at user
          omega
        obtain ⟨off, file₂, inode₂, within, page₂⟩ := fill_file file backing backed₁ low high filled
        obtain ⟨file₃, inode₃⟩ := walkAlloc_files walked
        obtain ⟨_, page₃⟩ := walkAlloc_page walked
        have same : s₃.page = s.page := by
          rw [page₃, congrArg Task.page (fill_task filled).1, congrArg Task.page (kalloc_task allocated)]
        rw [file₁, inode₁] at within page₂
        refine .inr ⟨frame, off, ?_, cores, ?_, ?_, within, ?_⟩
        · rw [← same]
          exact absent
        · exact inode₃.trans (inode₂.trans inode₁)
        · refine file₃.trans ?_
          rw [file₂, file₁]
        · rw [← page₂, ← same]
          rfl

/-- The first mapping is of a regular file that is open for reading and writing. -/
structure Fronted (s : Running) (me : MmapEntry) (f : Fin nfile) : Prop where
  head : ∃ rest, s.cores = me :: rest
  aligned : me.addr % 4096 = 0
  shared : me.flags = 2
  file : me.file = some f
  backed : s.Backed f

/-- What loads through the first mapping make of a state: the pages they touch come from the file, and the
rest is as it was. -/
structure LoadedFrom (start : Running) (me : MmapEntry) (f : Fin nfile) (touched : List ℕ) (s : Running) : Prop where
  cores : s.cores = start.cores
  inode : s.inode = start.inode
  file : ∃ off, s.file = Function.update start.file f { start.file f with off := off }
  kept : ∀ v page, start.page v = some page → s.page v = some page
  absent : ∀ v, start.page v = none → v ∉ touched → s.page v = none
  loaded : ∀ v ∈ touched, start.page v = none → v * 4096 - me.addr ≤ (start.inode (start.file f).ip).bytes.length ∧
    ∃ frame, s.page v = some ⟨filePage (start.inode (start.file f).ip) (v * 4096 - me.addr), true, frame⟩

namespace LoadedFrom

variable {start : Running} {touched : List ℕ}

theorem refl (start : Running) (me : MmapEntry) (f : Fin nfile) : LoadedFrom start me f [] start where
  cores := rfl
  inode := rfl
  file := ⟨(start.file f).off, (Function.update_eq_self ..).symm⟩
  kept _ _ present := present
  absent _ missing _ := missing
  loaded _ member := by cases member

private theorem fronted (now : LoadedFrom start me f touched s) (front : start.Fronted me f) : s.Fronted me f := by
  obtain ⟨off, files⟩ := now.file
  refine ⟨?_, front.aligned, front.shared, front.file, front.backed.of_file files⟩
  rw [now.cores]
  exact front.head

/-- One more page that is there already. -/
theorem touch (now : LoadedFrom start me f touched s) {v : ℕ} {page : Page} (present : s.page v = some page) :
    LoadedFrom start me f (v :: touched) s where
  cores := now.cores
  inode := now.inode
  file := now.file
  kept := now.kept
  absent w missing away := now.absent w missing (List.not_mem_of_not_mem_cons away)
  loaded w member missing := by
    by_cases old : w ∈ touched
    · exact now.loaded w old missing
    · rcases List.mem_cons.mp member with rfl | old'
      · rw [now.absent w missing old] at present
        cases present
      · exact absurd old' old

theorem step {byte : UInt8} (front : start.Fronted me f) (inside : me.contains a)
    (now : LoadedFrom start me f touched s) (done : s.load a input = some (s', byte)) :
    LoadedFrom start me f (a / 4096 :: touched) s' := by
  have front' := now.fronted front
  obtain ⟨_, cores⟩ := front'.head
  obtain ⟨first, rest, mmaps, same, _⟩ := List.map_eq_cons_iff.mp cores
  have aligned := front.aligned
  have file := front.file
  have shared := front.shared
  subst same
  have low : first.addr ≤ a / 4096 * 4096 := by
    have start : first.addr % 4096 = 0 := aligned
    simp only [Region.contains, Bool.decide_and, Bool.and_eq_true, decide_eq_true_eq] at inside
    have above : first.addr ≤ a := inside.1
    omega
  have backing : isAnonymous first.flags = false := by
    rw [show first.flags = 2 from shared]
    rfl
  rcases load_file mmaps inside file backing front'.backed low done with ⟨rfl, page, present⟩ |
    ⟨frame, off, missing, cores', inode, files, within, pages⟩
  · exact now.touch present
  · obtain ⟨off', files'⟩ := now.file
    have ip : (s.file f).ip = (start.file f).ip := by rw [files', Function.update_self]
    have untouched : start.page (a / 4096) = none := by
      by_contra present
      obtain ⟨page, present⟩ := Option.ne_none_iff_exists'.mp present
      rw [now.kept _ _ present] at missing
      cases missing
    rw [ip, now.inode] at within pages
    refine ⟨cores'.trans now.cores, inode.trans now.inode, ⟨off, ?_⟩, ?_, ?_, ?_⟩
    · rw [files, files', Function.update_idem, Function.update_self]
    · intro v page present
      have other : v ≠ a / 4096 := by
        rintro rfl
        rw [untouched] at present
        cases present
      rw [pages, Function.update_of_ne other]
      exact now.kept v page present
    · intro v missing' away
      rw [List.mem_cons, not_or] at away
      rw [pages, Function.update_of_ne away.1]
      exact now.absent v missing' away.2
    · intro v member missing'
      by_cases here : v = a / 4096
      · subst here
        refine ⟨within, frame, ?_⟩
        rw [pages, Function.update_self]
        rfl
      · rw [pages, Function.update_of_ne here]
        exact now.loaded v ((List.mem_cons.mp member).resolve_left here) missing'

/-- A whole sequence of loads through the mapping. -/
theorem run {loads : List ℕ} (front : start.Fronted me f) (inside : ∀ a ∈ loads, me.contains a)
    (now : LoadedFrom start me f touched s)
    (done : loads.foldlM (fun s a => (s.load a input).map (·.1)) s = some s') :
    ∃ touched', (∀ v, v ∈ touched' ↔ v ∈ touched ∨ ∃ a ∈ loads, a / 4096 = v) ∧ LoadedFrom start me f touched' s' := by
  induction loads generalizing s touched with
  | nil =>
    cases done
    exact ⟨touched, by simp, now⟩
  | cons a rest ih =>
    rw [List.foldlM_cons] at done
    obtain ⟨mid, first, tail⟩ := Option.bind_eq_some_iff.mp done
    obtain ⟨⟨_, byte⟩, loaded, rfl⟩ := Option.map_eq_some_iff.mp first
    obtain ⟨here, later⟩ := List.forall_mem_cons.mp inside
    obtain ⟨touched', members, after⟩ := ih later (now.step front here loaded) tail
    refine ⟨touched', fun v => ?_, after⟩
    simp only [members, List.mem_cons, exists_eq_or_imp]
    grind

end LoadedFrom

/-- `sys_wunmap` of the first mapping writes its pages to the file. -/
private theorem wunmap_front (front : s.Fronted me f) (positive : 0 < me.length) (high : me.addr + me.length ≤ searchLimit)
    (counted : 2 ≤ (s.file f).ref) :
    ∃ s' : Running, ∃ offsets : List ℕ, s.wunmap me.addr = some (s', true) ∧
      (∀ i, i ∈ offsets ↔ i % 4096 = 0 ∧ (i : ℤ) < me.length) ∧ offsets.Pairwise (fun i j => i + 4096 ≤ j) ∧
      s'.inode (s.file f).ip = offsets.foldl (flush (s.pageOf me)) (s.inode (s.file f).ip) := by
  obtain ⟨_, cores⟩ := front.head
  obtain ⟨first, rest, mmaps, rfl, _⟩ := List.map_eq_cons_iff.mp cores
  have aligned : first.addr % 4096 = 0 := front.aligned
  have flags : first.flags = 2 := front.shared
  have limit : first.addr + first.length ≤ searchLimit := high
  obtain ⟨offsets, loop, members, spaced⟩ := Region.offsets_spec (r := first.toRegion) positive (by
    simp only [searchLimit] at limit
    omega)
  have pages (i : ℕ) (member : i ∈ offsets) : first.toRegion.PageAt i := by
    obtain ⟨here, inside⟩ := (members i).mp member
    exact ⟨by omega, by omega⟩
  obtain ⟨s₁, off, unmapped, inode, files⟩ := unmapShared_fold pages spaced front.file front.backed
  have ref : (s₁.file f).ref = (s.file f).ref := by rw [files, Function.update_self]
  have found : s.mmaps.find? (·.addr = first.addr) = some first := by
    rw [mmaps]
    exact List.find?_cons_of_pos (by simp)
  obtain ⟨s₂, closed, inode₂⟩ : ∃ s₂ : Running, s₁.closeFile first.file = some s₂ ∧ s₂.inode = s₁.inode := by
    rw [show first.file = some f from front.file]
    simp only [closeFile, onKernel, Kernel.fileclose]
    rw [if_neg (by omega), if_pos (by omega)]
    exact ⟨_, rfl, rfl⟩
  have done : s.unmapPages first = some s₂ := by
    have kind : isPrivate first.flags = false ∧ isShared first.flags = true := by
      rw [flags]
      exact ⟨rfl, rfl⟩
    have all : s.forPages first.toRegion (unmapSharedPage true first) = some s₁ := by
      rw [forPages, loop]
      exact unmapped
    rw [unmapPages, kind.1, kind.2]
    simp only [all, closed, Bool.false_eq_true, if_false, if_true]
  refine ⟨Running.kfree { s₂ with mmaps := s₂.mmaps.eraseP (·.addr = first.addr) } first.frame, offsets, ?_, members,
    spaced, ?_⟩
  · rw [wunmap, show first.core.addr = first.addr from rfl, found]
    simp only [done]
  · calc s₂.inode (s.file f).ip
      _ = s₁.inode (s.file f).ip := by rw [inode₂]
      _ = offsets.foldl (flush (s.pageOf first.core)) (s.inode (s.file f).ip) := by
        rw [inode, Function.update_self]
        rfl

/-- `sys_wmap(MAP_SHARED)` of a regular file puts a mapping in front and takes a reference. -/
private theorem wmap_front {fd : Fin nofile} {addr base : ℕ} {length : ℤ} (opened : s.ofile fd = some f) (backed : s.Backed f)
    (done : s.wmap addr length 2 fd = some (s', some base)) :
    ∃ frame, s'.Fronted ⟨⟨base, length⟩, 2, 0, some f, frame⟩ f ∧ s'.page = s.page ∧ s'.inode = s.inode ∧
      (s'.file f).ip = (s.file f).ip ∧ 2 ≤ (s'.file f).ref := by
  rcases wmap_spec done with ⟨failed, _⟩ | ⟨file, frame, _, s₁, s₂, _, mapped, placed, dup, allocated, added, result⟩
  · cases failed
  · cases result
    have which : file = some f := by
      rw [mapFile, if_neg (by decide), dif_pos ⟨by omega, by omega⟩] at mapped
      have slot : (⟨(fd : ℤ).toNat, by omega⟩ : Fin nofile) = fd := Fin.ext (by simp)
      rw [slot, opened] at mapped
      cases mapped
      rfl
    subst which
    have aligned : base % 4096 = 0 := by
      rw [wmapAddr, if_neg (by decide)] at placed
      split at placed
      · cases placed
      case h_2 found =>
        split at placed
        · cases placed
        · cases placed
          exact search_aligned (by decide) found
    obtain ⟨live, after⟩ := dupFile_some dup
    obtain ⟨files, inode⟩ := kalloc_files allocated
    have task := (kalloc_task allocated).trans (dupFile_task dup)
    have cores := addMapping_cores added
    simp only [addMapping, isPrivate, Nat.testBit] at added
    cases added
    have entry : s₂.file f = { s.file f with ref := (s.file f).ref + 1 } := by
      rw [files, after]
      exact Function.update_self ..
    refine ⟨frame, ⟨⟨_, cores⟩, aligned, rfl, rfl, ?_⟩, ?_, ?_, ?_, ?_⟩
    · constructor <;> rw [entry]
      · exact backed.regular
      · exact backed.readable
      · exact backed.writable
    · have page := congrArg Task.page task
      exact page
    · rw [inode, after]
      rfl
    · rw [entry]
    · rw [entry]
      simp only
      omega

/-- A page that was read from the file is kept by the write-back if and only if it does not pass the end. -/
theorem kept_filePage {c : Content} {frame : ℕ} (within : i ≤ c.bytes.length) (small : i % 4096 = 0) :
    Kept c i ⟨filePage c i, true, frame⟩ ↔ i + room i ≤ c.bytes.length := by
  have some_room : 0 < room i := by
    have := c.bound
    simp only [maxFile] at this
    unfold room maxFile
    split_ifs <;> omega
  constructor
  · intro kept
    rcases kept rfl with beyond | same
    · omega
    · have last := same (room i - 1) (by omega)
      obtain ⟨inside, _⟩ := List.getElem?_eq_some_iff.mp last
      omega
  · intro fits _
    refine .inr fun o low => ?_
    have inside : i + o < c.bytes.length := by omega
    simp only [filePage, List.getD_eq_getElem?_getD, List.getElem?_eq_getElem inside]
    rfl

/-- The loads and the pages left from earlier that a mapping of a file survives: no page that is loaded passes
the end of the file, as far as it is written back, and no page that is there already differs from the file. -/
def Harmless (s : Running) (c : Content) (base : ℕ) (length : ℤ) (loads : List ℕ) : Prop :=
  (∀ a ∈ loads, s.page (a / 4096) = none →
    (a - base) / 4096 * 4096 + room ((a - base) / 4096 * 4096) ≤ c.bytes.length) ∧
  ∀ i : ℕ, i % 4096 = 0 → i < length → ∀ page, s.page ((base + i) / 4096) = some page → Kept c i page

end Running

open Running in
/-- A shared mapping of a file that is only loaded from leaves the file as it was if and only if the loads are
harmless. -/
theorem loads_leave_file {s s₁ s₂ : Running} {f : Fin nfile} {fd : Fin nofile} {addr base : ℕ} {length : ℤ}
    {loads : List ℕ} {input : ℕ → ℕ → UInt8} (opened : s.ofile fd = some f) (regular : (s.file f).type = .inode)
    (readable : (s.file f).readable) (writable : (s.file f).writable) (positive : 0 < length)
    (mapped : s.wmap addr length 2 fd = some (s₁, some base)) (high : base + length ≤ searchLimit)
    (inside : ∀ a ∈ loads, base ≤ a ∧ a < base + length)
    (loaded : loads.foldlM (fun s a => (s.load a input).map (·.1)) s₁ = some s₂) :
    ∃ s₃, s₂.wunmap base = some (s₃, true) ∧
      (s₃.inode (s.file f).ip = s.inode (s.file f).ip ↔ s.Harmless (s.inode (s.file f).ip) base length loads) := by
  obtain ⟨frame, front, page, inode, ip, counted⟩ := wmap_front opened ⟨regular, readable, writable⟩ mapped
  have contains (a : ℕ) (member : a ∈ loads) :
      (⟨⟨base, length⟩, 2, 0, some f, frame⟩ : MmapEntry).contains a = true := by
    obtain ⟨low, below⟩ := inside a member
    have limit : uint32 (base + length) = base + length := by
      simp only [searchLimit] at high
      rw [uint32]
      omega
    refine decide_eq_true ⟨low, ?_⟩
    simp only [Region.limit]
    omega
  obtain ⟨touched, members, now⟩ := (LoadedFrom.refl s₁ _ f).run front contains loaded
  obtain ⟨off, files⟩ := now.file
  have same : s₂.file f = { s₁.file f with off := off } := by rw [files, Function.update_self]
  obtain ⟨s₃, offsets, unmapped, pages, spaced, written⟩ := wunmap_front (now.fronted front) positive high (by
    rw [same]
    exact counted)
  refine ⟨s₃, unmapped, ?_⟩
  rw [same, now.inode, inode] at written
  simp only [ip] at written
  rw [written, foldl_flush_eq_self spaced]
  have aligned : base % 4096 = 0 := front.aligned
  have pages (i : ℕ) : i ∈ offsets ↔ i % 4096 = 0 ∧ (i : ℤ) < length := pages i
  -- A page that is loaded stands at the offset of the load, rounded down.
  have read (a : ℕ) (member : a ∈ loads) (missing : s.page (a / 4096) = none) (i : ℕ)
      (here : i = (a - base) / 4096 * 4096) : i ≤ (s.inode (s.file f).ip).bytes.length ∧
        ∃ frame, s₂.page (a / 4096) = some ⟨filePage (s.inode (s.file f).ip) i, true, frame⟩ := by
    have found := now.loaded _ ((members _).mpr (.inr ⟨a, member, rfl⟩)) (by rw [page, missing])
    have low := (inside a member).1
    simp only [ip, inode] at found
    rw [show a / 4096 * 4096 - base = i by omega] at found
    exact found
  constructor
  · intro all
    refine ⟨fun a member missing => ?_, fun i low below old present => ?_⟩
    · obtain ⟨within, frame', present⟩ := read a member missing _ rfl
      have := inside a member
      rw [show a / 4096 = (base + (a - base) / 4096 * 4096) / 4096 by omega] at present
      exact (kept_filePage within (by omega)).mp (all _ ((pages _).mpr ⟨by omega, by omega⟩) _ present)
    · refine all i ((pages i).mpr ⟨low, below⟩) old (now.kept _ _ ?_)
      rw [page]
      exact present
  · rintro ⟨fits, stale⟩ i member there present
    obtain ⟨low, below⟩ := (pages i).mp member
    cases before : s.page ((base + i) / 4096) with
    | some old =>
      have same := now.kept _ old (by rw [page, before])
      rw [pageOf, same] at present
      cases present
      exact stale i low below there before
    | none =>
      by_cases touches : (base + i) / 4096 ∈ touched
      · obtain member | ⟨a, member, here⟩ := (members _).mp touches
        · cases member
        · have := inside a member
          have offset : i = (a - base) / 4096 * 4096 := by omega
          obtain ⟨within, frame', found⟩ := read a member (by rw [here, before]) i offset
          rw [pageOf, ← here, found] at present
          cases present
          refine (kept_filePage within low).mpr ?_
          rw [offset]
          exact fits a member (by rw [here, before])
      · rw [pageOf, now.absent _ (by rw [page, before]) touches] at present
        cases present

/-- A process with a regular file of some sevens open for reading and writing. -/
def openedFile (size : ℕ) (bound : size ≤ maxFile) : Running where
  ofile fd := if fd = 0 then some 0 else none
  mmaps := []
  tables _ := false
  page _ := none
  file f := if f = 0 then ⟨.inode, 1, true, true, 0, 0⟩ else ⟨.none, 0, false, false, 0, 0⟩
  inode _ := ⟨List.replicate size 7, by rw [List.length_replicate]; exact bound⟩
  free := [1, 2, 3, 4]

/-- A file of one page, mapped and loaded from. -/
theorem loads_leave_file_wholePage : ∃ s₁ s₂ s₃ : Running,
    (openedFile 4096 (by decide)).wmap 0 4096 2 0 = some (s₁, some 0x60000000) ∧
      s₁.load 0x60000010 (fun _ _ => 0) = some (s₂, 7) ∧ s₂.wunmap 0x60000000 = some (s₃, true) ∧
      s₃.inode 0 = (openedFile 4096 (by decide)).inode 0 := by
  have run : ((openedFile 4096 (by decide)).wmap 0 4096 2 0).map (fun r =>
      (r.2, (r.1.load 0x60000010 fun _ _ => 0).map (·.2))) = some (some 0x60000000, some 7) := by decide +kernel
  obtain ⟨⟨s₁, base⟩, mapped, pair⟩ := Option.map_eq_some_iff.mp run
  obtain ⟨rfl, loads⟩ := Prod.mk.injEq .. ▸ pair
  obtain ⟨⟨s₂, byte⟩, loaded, rfl⟩ := Option.map_eq_some_iff.mp loads
  have all : [0x60000010].foldlM (fun s a => (s.load a fun _ _ => 0).map (·.1)) s₁ = some s₂ := by
    simp only [List.foldlM_cons, List.foldlM_nil, loaded, Option.map_some]
    rfl
  have opened : (openedFile 4096 (by decide)).ofile 0 = some 0 := rfl
  obtain ⟨s₃, unmapped, same⟩ := loads_leave_file opened rfl rfl rfl (by decide) mapped (by decide) (by decide) all
  refine ⟨s₁, s₂, s₃, mapped, loaded, unmapped, same.mpr ⟨?_, ?_⟩⟩
  · intro a member _
    rw [List.mem_singleton.mp member]
    show _ ≤ (List.replicate 4096 (7 : UInt8)).length
    rw [List.length_replicate]
    decide
  · intro i _ _ page present
    cases present

/-- A file of one byte gets the zeros of its page when the page is loaded. -/
theorem load_extends_file : ∃ s₁ s₂ s₃ : Running,
    (openedFile 1 (by decide)).wmap 0 4096 2 0 = some (s₁, some 0x60000000) ∧
      s₁.load 0x60000000 (fun _ _ => 0) = some (s₂, 7) ∧ s₂.wunmap 0x60000000 = some (s₃, true) ∧
      s₃.inode 0 ≠ (openedFile 1 (by decide)).inode 0 := by
  have run : ((openedFile 1 (by decide)).wmap 0 4096 2 0).any (fun r => r.2 = some 0x60000000 ∧
      (r.1.load 0x60000000 fun _ _ => 0).any fun r => r.2 = 7 ∧
        (r.1.wunmap 0x60000000).any fun r => r.2 = true ∧ (r.1.inode 0).bytes[1]? = some 0) = true := by decide +kernel
  simp only [Option.any_eq_true, decide_eq_true_eq, Prod.exists] at run
  obtain ⟨s₁, base, mapped, rfl, s₂, byte, loaded, rfl, s₃, done, unmapped, rfl, longer⟩ := run
  refine ⟨s₁, s₂, s₃, mapped, loaded, unmapped, fun same => ?_⟩
  rw [same] at longer
  cases longer

end Cs537.Wmap
