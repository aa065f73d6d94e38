import Cs537.Lib.Machine
import Cs537.Wmap.Process
import Mathlib.Data.List.InsertIdx

/-! # What the operations leave alone

Only `sys_wmap`, `sys_wunmap` and `sys_wremap` themselves change the list of mappings; faults change the
count of loaded pages and nothing else of an entry. The loops over pages, the copy and the write-back keep
the list as it is.
-/

namespace Cs537.Wmap

open Lib

/-- `fileclose` drops a reference, and the last one closes the file. -/
theorem Kernel.fileclose_spec {k k' : Kernel} {f : Fin nfile} (done : k.fileclose f = some k') :
    1 ≤ (k.file f).ref ∧ k' = k.setFile f { k.file f with
      ref := (k.file f).ref - 1, type := if (k.file f).ref = 1 then .none else (k.file f).type } := by
  rw [fileclose] at done
  split at done
  · cases done
  case isFalse live =>
    refine ⟨by omega, ?_⟩
    split at done
    case isTrue more =>
      cases done
      rw [if_neg (by omega)]
    case isFalse last =>
      cases done
      have one : (k.file f).ref = 1 := by omega
      simp only [one, if_true, Int.sub_self]

/-- `filewrite` writes the file, or leaves everything as it is. -/
theorem Kernel.filewrite_spec {k k' : Kernel} {f : Fin nfile} {buffer : Option (List UInt8)}
    (done : k.filewrite f buffer = some k') :
    (((k.file f).writable = false ∨ (k.file f).type = .pipe) ∧ k' = k) ∨
      ∃ bytes, (k.file f).writable = true ∧ (k.file f).type = .inode ∧ buffer = some bytes ∧
        k' = { k.setFile f { k.file f with
        off := (writeLoop (chunks bytes) (k.inode (k.file f).ip) (k.file f).off).2 } with
          inode := Function.update k.inode (k.file f).ip
            (writeLoop (chunks bytes) (k.inode (k.file f).ip) (k.file f).off).1 } := by
  unfold filewrite at done
  split at done
  case isTrue locked =>
    cases done
    exact .inl ⟨.inl locked, rfl⟩
  case isFalse writable =>
    split at done
    · cases done
    case h_2 type =>
      cases done
      exact .inl ⟨.inr type, rfl⟩
    case h_3 type =>
      split at done
      · cases done
      case h_2 bytes =>
        cases done
        exact .inr ⟨bytes, by simpa using writable, type, rfl, rfl⟩

/-- An entry without its count of loaded pages. -/
def MmapEntry.core (me : MmapEntry) : MmapEntry := { me with nLoadedPages := 0 }

namespace Running

variable {s s' : Running} {a n v : ℕ} {input : ℕ → ℕ → UInt8}

def cores (s : Running) : List MmapEntry := s.mmaps.map MmapEntry.core

theorem regions_eq_cores (s : Running) : s.regions = s.cores.map (·.toRegion) := by
  rw [regions, cores, List.map_map]
  rfl

theorem regions_of_cores (same : s'.cores = s.cores) : s'.regions = s.regions := by
  rw [regions_eq_cores, same, ← regions_eq_cores]

theorem cores_of_mmaps (same : s'.mmaps = s.mmaps) : s'.cores = s.cores := by
  rw [cores, same, ← cores]

theorem cores_countPage (s : Running) (i : ℕ) : (s.countPage i).cores = s.cores := by
  apply List.ext_getElem?
  intro j
  simp only [cores, countPage, List.getElem?_map, List.getElem?_modify]
  cases s.mmaps[j]? with
  | none => rfl
  | some me =>
    by_cases here : i = j
    · simp [here, MmapEntry.core]
    · simp [here]

theorem onKernel_task {op : Kernel → Option Kernel} (done : s.onKernel op = some s') : s'.toTask = s.toTask := by
  rw [onKernel] at done
  split at done
  · cases done
  · cases done
    rfl

theorem kalloc_task {frame : ℕ} (done : s.kalloc = some (frame, s')) : s'.toTask = s.toTask := by
  rw [kalloc] at done
  split at done
  · cases done
  · cases done
    rfl

theorem kalloc_files {frame : ℕ} (done : s.kalloc = some (frame, s')) : s'.file = s.file ∧ s'.inode = s.inode := by
  rw [kalloc, Kernel.kalloc] at done
  split at done
  · cases done
  case h_2 allocated =>
    split at allocated
    · cases allocated
    · cases allocated
      cases done
      exact ⟨rfl, rfl⟩

theorem walkAlloc_files (done : s.walkAlloc v = some s') : s'.file = s.file ∧ s'.inode = s.inode := by
  rw [walkAlloc] at done
  split at done
  · cases done
    exact ⟨rfl, rfl⟩
  · split at done
    · cases done
    case h_2 allocated =>
      cases done
      obtain ⟨file, inode⟩ := kalloc_files allocated
      exact ⟨file, inode⟩

theorem walkAlloc_page (done : s.walkAlloc v = some s') : s'.mmaps = s.mmaps ∧ s'.page = s.page := by
  rw [walkAlloc] at done
  split at done
  · cases done
    exact ⟨rfl, rfl⟩
  · split at done
    · cases done
    case h_2 allocated =>
      cases done
      have mmaps := congrArg Task.mmaps (kalloc_task allocated)
      have page := congrArg Task.page (kalloc_task allocated)
      exact ⟨mmaps, page⟩

theorem fill_task {me : MmapEntry} {data from_ : ℕ → UInt8} (done : s.fill me a from_ = some (s', data)) :
    s'.toTask = s.toTask ∧ (me.file = none → data = fun _ => 0) := by
  rw [fill] at done
  split at done
  case h_1 anonymous =>
    cases done
    exact ⟨rfl, fun _ => rfl⟩
  case h_2 f backed =>
    split at done
    · cases done
      exact ⟨rfl, fun _ => rfl⟩
    · simp only at done
      split at done
      · cases done
      · cases done
        refine ⟨rfl, fun none => ?_⟩
        rw [backed] at none
        cases none

/-- A fault that is handled: the entry, the new page, its content and the page table it needs. -/
theorem fault_cases {from_ : ℕ → UInt8} (done : s.fault a from_ = some s') :
    ∃ me frame data, ∃ s₁ s₂ s₃ : Running, s.mmaps.find? (·.contains a) = some me ∧ s.kalloc = some (frame, s₁) ∧
      s₁.fill me a from_ = some (s₂, data) ∧ s₂.walkAlloc (a / 4096) = some s₃ ∧ isKernel (a / 4096) = false ∧
      s₃.page (a / 4096) = none ∧
      s' = (s₃.setPage (a / 4096) (some ⟨data, true, frame⟩)).countPage (s₃.mmaps.findIdx (·.contains a)) := by
  rw [fault] at done
  cases found : s.mmaps.find? (·.contains a) with
  | none => simp [found] at done
  | some me =>
    simp only [found] at done
    cases allocated : s.kalloc with
    | none => simp [allocated] at done
    | some pair =>
      obtain ⟨frame, s₁⟩ := pair
      simp only [allocated] at done
      cases filled : s₁.fill me a from_ with
      | none => simp [filled] at done
      | some pair =>
        obtain ⟨s₂, data⟩ := pair
        simp only [filled] at done
        cases walked : s₂.walkAlloc (a / 4096) with
        | none => simp [walked] at done
        | some s₃ =>
          simp only [walked] at done
          split at done
          · cases done
          case isFalse here =>
            cases done
            rw [not_or] at here
            exact ⟨me, frame, data, s₁, s₂, s₃, rfl, rfl, filled, walked, by simpa using here.1,
              by simpa using here.2, rfl⟩

/-- A fault that is handled puts one writable page where none was. -/
theorem fault_spec {from_ : ℕ → UInt8} (done : s.fault a from_ = some s') :
    ∃ me data frame, s.mmaps.find? (·.contains a) = some me ∧ s.page (a / 4096) = none ∧ isKernel (a / 4096) = false ∧
      s'.page = Function.update s.page (a / 4096) (some ⟨data, true, frame⟩) ∧ s'.cores = s.cores ∧
      (me.file = none → data = fun _ => 0) := by
  obtain ⟨me, frame, data, s₁, s₂, s₃, found, allocated, filled, walked, user, absent, rfl⟩ := fault_cases done
  obtain ⟨mmaps, page⟩ := walkAlloc_page walked
  obtain ⟨same, zero⟩ := fill_task filled
  have same' := kalloc_task allocated
  have pages : s₃.page = s.page := by
    rw [page, congrArg Task.page same, congrArg Task.page same']
  have entries : s₃.mmaps = s.mmaps := by
    rw [mmaps, congrArg Task.mmaps same, congrArg Task.mmaps same']
  rw [pages] at absent
  refine ⟨me, data, frame, found, absent, user, ?_, ?_, zero⟩
  · simp only [countPage, setPage, pages]
  · rw [cores_countPage]
    exact cores_of_mmaps entries

theorem load_cores {byte : UInt8} (done : s.load a input = some (s', byte)) : s'.cores = s.cores := by
  rw [load] at done
  split at done
  · cases done
  · split at done
    · cases done
      rfl
    · split at done
      · cases done
      case h_2 handled =>
        obtain ⟨page, _, pair⟩ := Option.map_eq_some_iff.mp done
        cases pair
        obtain ⟨_, _, _, _, _, _, _, same, _⟩ := fault_spec handled
        exact same

theorem poke_mmaps {byte : UInt8} (done : s.poke a byte = some s') : s'.mmaps = s.mmaps := by
  rw [poke] at done
  split at done
  · cases done
  · split at done
    · cases done
      rfl
    · cases done

theorem store_cores {byte : UInt8} (done : s.store a byte input = some s') : s'.cores = s.cores := by
  rw [store] at done
  split at done
  · cases done
  · split at done
    · exact cores_of_mmaps (poke_mmaps done)
    · split at done
      · cases done
      case h_2 handled =>
        obtain ⟨_, _, _, _, _, _, _, same, _⟩ := fault_spec handled
        rw [cores_of_mmaps (poke_mmaps done), same]

theorem uint32_succ_add (a j : ℕ) : uint32 ((uint32 ((a : ℤ) + 1) : ℕ) + (j : ℤ)) = uint32 (a + (j + 1 : ℕ)) := by
  rw [uint32, uint32, uint32]
  omega

/-- An address of a copying loop over `n` bytes; the first one may not be reduced. -/
def CopyAddr (base n b : ℕ) : Prop := ∃ j < n, b = uint32 (base + (j : ℤ)) ∨ j = 0 ∧ b = base

theorem CopyAddr.next {base b : ℕ} (later : CopyAddr (uint32 ((base : ℤ) + 1)) n b) : CopyAddr base (n + 1) b := by
  obtain ⟨j, below, rfl | ⟨rfl, rfl⟩⟩ := later
  · exact ⟨j + 1, by omega, .inl (uint32_succ_add base j)⟩
  · exact ⟨1, by omega, .inl rfl⟩

theorem CopyAddr.weaken {base b : ℕ} : CopyAddr base n b → CopyAddr base (n + 1) b := by
  rintro ⟨j, below, which⟩
  exact ⟨j, by omega, which⟩

section Copy

variable (inv : Running → Prop) {dst src : ℕ}

/-- What every load and store of the copy preserves, the copy preserves. -/
private theorem copyUp_preserves (done : copyUp input n dst src s = some s')
    (loads : ∀ t b t' byte, CopyAddr src n b → t.load b input = some (t', byte) → inv t → inv t')
    (stores : ∀ t b byte t', CopyAddr dst n b → t.store b byte input = some t' → inv t → inv t') (start : inv s) :
    inv s' := by
  induction n generalizing dst src s with
  | zero =>
    cases done
    exact start
  | succ n ih =>
    rw [copyUp] at done
    split at done
    · cases done
    case h_2 s₁ byte loaded =>
      split at done
      · cases done
      case h_2 s₂ stored =>
        have start₁ := loads s src s₁ byte ⟨0, by omega, .inr ⟨rfl, rfl⟩⟩ loaded start
        have start₂ := stores s₁ dst byte s₂ ⟨0, by omega, .inr ⟨rfl, rfl⟩⟩ stored start₁
        exact ih done (fun t b t' byte later => loads t b t' byte later.next)
          (fun t b byte t' later => stores t b byte t' later.next) start₂

private theorem copyDown_preserves (done : copyDown input n dst src s = some s')
    (loads : ∀ t b t' byte, CopyAddr src n b → t.load b input = some (t', byte) → inv t → inv t')
    (stores : ∀ t b byte t', CopyAddr dst n b → t.store b byte input = some t' → inv t → inv t') (start : inv s) :
    inv s' := by
  induction n generalizing s with
  | zero =>
    cases done
    exact start
  | succ n ih =>
    rw [copyDown] at done
    split at done
    · cases done
    case h_2 s₁ byte loaded =>
      split at done
      · cases done
      case h_2 s₂ stored =>
        have start₁ := loads s _ s₁ byte ⟨n, by omega, .inl rfl⟩ loaded start
        have start₂ := stores s₁ _ byte s₂ ⟨n, by omega, .inl rfl⟩ stored start₁
        exact ih done (fun t b t' byte earlier => loads t b t' byte earlier.weaken)
          (fun t b byte t' earlier => stores t b byte t' earlier.weaken) start₂

theorem memmove_preserves (done : s.memmove dst src n input = some s')
    (loads : ∀ t b t' byte, CopyAddr src n b → t.load b input = some (t', byte) → inv t → inv t')
    (stores : ∀ t b byte t', CopyAddr dst n b → t.store b byte input = some t' → inv t → inv t') (start : inv s) :
    inv s' := by
  rw [memmove] at done
  split at done
  · exact copyDown_preserves inv done loads stores start
  · exact copyUp_preserves inv done loads stores start

end Copy

theorem memmove_cores {dst src : ℕ} (done : s.memmove dst src n input = some s') : s'.cores = s.cores :=
  memmove_preserves (fun t => t.cores = s.cores) done (fun _ _ _ _ _ loaded same => (load_cores loaded).trans same)
    (fun _ _ _ _ _ stored same => (store_cores stored).trans same) rfl

private theorem pokeNullOff_mmaps (done : s.pokeNullOff n = some s') : s'.mmaps = s.mmaps := by
  have rule (t : Running) (i : ℕ) (_ : i ∈ List.range 4) (t' : Running)
    (poked : t.poke (20 + i) (n / 256 ^ i).toUInt8 = some t')
      (keep : t.mmaps = s.mmaps) : t'.mmaps = s.mmaps := (poke_mmaps poked).trans keep
  exact foldlM_preserves rule done rfl

private theorem writeBack_mmaps {file : Option (Fin nfile)} {off : Option ℕ} (done : s.writeBack file off a = some s') :
    s'.mmaps = s.mmaps := by
  unfold writeBack at done
  split at done
  · exact congrArg Task.mmaps (onKernel_task done)
  · split at done
    · cases done
    case h_2 t stored =>
      have same : t.mmaps = s.mmaps := by
        split at stored
        · cases stored
          rfl
        · exact pokeNullOff_mmaps stored
      split at done
      · cases done
      · split at done
        · cases done
          exact same
        · cases done

theorem protectPage_mmaps {me : MmapEntry} (done : protectPage me s n = some s') : s'.mmaps = s.mmaps := by
  simp only [protectPage] at done
  split at done
  · cases done
  · split at done
    · split at done
      · cases done
      · exact poke_mmaps done
    · split at done
      · cases done
        rfl
      · cases done
        rfl

private theorem unmapPrivatePage_mmaps {me : MmapEntry} (done : unmapPrivatePage me s n = some s') : s'.mmaps = s.mmaps := by
  simp only [unmapPrivatePage] at done
  split at done
  · cases done
  · cases done
    rfl

theorem unmapSharedPage_mmaps {setsOff : Bool} {me : MmapEntry} (done : unmapSharedPage setsOff me s n = some s') :
    s'.mmaps = s.mmaps := by
  simp only [unmapSharedPage] at done
  split at done
  · cases done
  · split at done
    · cases done
      rfl
    · split at done
      · cases done
      case h_2 written =>
        cases done
        split at written
        · have same := writeBack_mmaps written
          exact same
        · cases written
          rfl

theorem writeLowPage_mmaps {me : MmapEntry} {newsize : ℤ} (done : writeLowPage me newsize s n = some s') :
    s'.mmaps = s.mmaps := by
  simp only [writeLowPage] at done
  split at done
  · cases done
  · split at done
    · cases done
      rfl
    · split at done
      · exact writeBack_mmaps done
      · cases done
        rfl

/-- What every page of a loop preserves, the loop preserves. -/
theorem forPages_preserves {inv : Running → Prop} {r : Region} {body : Running → ℕ → Option Running}
    (bodyInv : ∀ s i s', body s i = some s' → inv s → inv s') (done : s.forPages r body = some s') (start : inv s) :
    inv s' := by
  rw [forPages] at done
  split at done
  · cases done
  · exact foldlM_preserves (fun t i _ => bodyInv t i) done start

theorem forPages_mmaps {r : Region} {body : Running → ℕ → Option Running}
    (keeps : ∀ s i s', body s i = some s' → s'.mmaps = s.mmaps) (done : s.forPages r body = some s') :
    s'.mmaps = s.mmaps := by
  have rule (t : Running) (i : ℕ) (t' : Running) (round : body t i = some t') (keep : t.mmaps = s.mmaps) :
      t'.mmaps = s.mmaps := (keeps t i t' round).trans keep
  exact forPages_preserves rule done rfl

theorem closeFile_task {file : Option (Fin nfile)} (done : s.closeFile file = some s') : s'.toTask = s.toTask := by
  unfold closeFile at done
  split at done
  · cases done
    rfl
  · exact onKernel_task done

theorem dupFile_task {file : Option (Fin nfile)} (done : s.dupFile file = some s') : s'.toTask = s.toTask := by
  unfold dupFile at done
  split at done
  · cases done
    rfl
  · exact onKernel_task done

theorem unmapPages_mmaps {me : MmapEntry} (done : s.unmapPages me = some s') : s'.mmaps = s.mmaps := by
  rw [unmapPages] at done
  split at done
  · exact forPages_mmaps (fun _ _ _ => unmapPrivatePage_mmaps) done
  · split at done
    · split at done
      · cases done
      case h_2 unmapped =>
        have closed := congrArg Task.mmaps (closeFile_task done)
        exact closed.trans (forPages_mmaps (fun _ _ _ => unmapSharedPage_mmaps) unmapped)
    · cases done
      rfl

theorem dupFile_some {f : Fin nfile} (done : s.dupFile (some f) = some s') :
    1 ≤ (s.file f).ref ∧ s' = { s with toKernel := s.setFile f { s.file f with ref := (s.file f).ref + 1 } } := by
  simp only [dupFile, onKernel, Kernel.filedup] at done
  split at done
  · cases done
  case h_2 k dup =>
    cases done
    split at dup
    · cases dup
    case isFalse live =>
      cases dup
      exact ⟨by omega, rfl⟩

/-- A reference that is taken can be given back. -/
private theorem closeFile_dupFile {file : Option (Fin nfile)} (done : s.dupFile file = some s') :
    s'.closeFile file = some s := by
  cases file with
  | none =>
    cases done
    rfl
  | some f =>
    obtain ⟨live, rfl⟩ := dupFile_some done
    simp only [closeFile, onKernel, Kernel.fileclose, Kernel.setFile, Function.update_self, add_sub_cancel_right,
      Function.update_idem]
    rw [if_neg (by omega), if_pos (by omega)]
    simp only [Function.update_eq_self]

/-- `sys_wmap` fails and changes nothing, or puts one entry at the head of the list. -/
theorem wmap_spec {addr : ℕ} {length : ℤ} {flags : ℕ} {fd : ℤ} {result : Option ℕ}
    (done : s.wmap addr length flags fd = some (s', result)) :
    (result = none ∧ s' = s) ∨
      ∃ file frame base, ∃ s₁ s₂ : Running, isPrivate flags ≠ isShared flags ∧ s.mapFile flags fd = some file ∧
        s.wmapAddr addr length flags = some (some base) ∧ s.dupFile file = some s₁ ∧ s₁.kalloc = some (frame, s₂) ∧
        s₂.addMapping frame base length flags file = some s' ∧ result = some base := by
  rw [wmap] at done
  by_cases both : isPrivate flags = isShared flags
  · rw [if_pos both] at done
    cases done
    exact .inl ⟨rfl, rfl⟩
  · rw [if_neg both] at done
    cases mapped : s.mapFile flags fd with
    | none =>
      rw [mapped] at done
      cases done
      exact .inl ⟨rfl, rfl⟩
    | some file =>
      simp only [mapped] at done
      cases dup : s.dupFile file with
      | none => simp [dup] at done
      | some s₁ =>
        simp only [dup] at done
        have same := dupFile_task dup
        have addrs : s₁.wmapAddr addr length flags = s.wmapAddr addr length flags := by
          rw [wmapAddr, wmapAddr, regions, congrArg Task.mmaps same, ← regions]
        simp only [addrs, closeFile_dupFile dup, Option.map_some] at done
        cases placed : s.wmapAddr addr length flags with
        | none => simp [placed] at done
        | some place =>
          rw [placed] at done
          cases place with
          | none =>
            cases done
            exact .inl ⟨rfl, rfl⟩
          | some base =>
            simp only at done
            cases allocated : s₁.kalloc with
            | none =>
              rw [allocated] at done
              cases done
              exact .inl ⟨rfl, rfl⟩
            | some pair =>
              obtain ⟨frame, s₂⟩ := pair
              rw [allocated] at done
              obtain ⟨t, added, pair⟩ := Option.map_eq_some_iff.mp done
              cases pair
              exact .inr ⟨file, frame, base, s₁, s₂, both, rfl, rfl, dup, allocated, added, rfl⟩

theorem addMapping_cores {frame addr flags : ℕ} {length : ℤ} {file : Option (Fin nfile)}
    (done : s.addMapping frame addr length flags file = some s') :
    s'.cores = ⟨⟨addr, length⟩, flags, 0, file, frame⟩ :: s.cores := by
  simp only [addMapping] at done
  split at done
  · cases done
  case h_2 t marked =>
    cases done
    have same : t.mmaps = s.mmaps := by
      split at marked
      · exact forPages_mmaps (fun _ _ _ => protectPage_mmaps) marked
      · cases marked
        rfl
    simp only [cores, List.map_cons, same]
    rfl

/-- `sys_wunmap` finds no mapping, or removes the first one at the address. -/
theorem wunmap_spec {addr : ℕ} {result : Bool} (done : s.wunmap addr = some (s', result)) :
    (result = false ∧ s' = s ∧ s.mmaps.find? (·.addr = addr) = none) ∨
      ∃ me s₁, s.mmaps.find? (·.addr = addr) = some me ∧ s.unmapPages me = some s₁ ∧
        s' = Running.kfree { s₁ with mmaps := s.mmaps.eraseP (·.addr = addr) } me.frame ∧ result = true := by
  rw [wunmap] at done
  cases found : s.mmaps.find? (·.addr = addr) with
  | none =>
    rw [found] at done
    cases done
    exact .inl ⟨rfl, rfl, rfl⟩
  | some me =>
    simp only [found] at done
    cases unmapped : s.unmapPages me with
    | none => simp [unmapped] at done
    | some s₁ =>
      simp only [unmapped] at done
      cases done
      refine .inr ⟨me, s₁, rfl, unmapped, ?_, rfl⟩
      rw [unmapPages_mmaps unmapped]

/-- `sys_wremap` changes no mapping, resizes one in place, or moves one. -/
theorem wremap_spec {oldaddr flags : ℕ} {oldsize newsize : ℤ} {result : Option ℕ}
    (done : s.wremap oldaddr oldsize newsize flags input = some (s', result)) :
    (s' = s ∧ (result = none ∨ result = some oldaddr)) ∨
      ∃ me i, 0 < newsize ∧ s.mmaps.find? (fun me => me.addr = oldaddr ∧ me.length = oldsize) = some me ∧
        i = s.mmaps.findIdx (fun me => me.addr = oldaddr ∧ me.length = oldsize) ∧
        ((mustMove s.regions i me.toRegion newsize = false ∧ result = some oldaddr ∧
            s' = { s with mmaps := s.mmaps.modify i fun me => { me with length := newsize } }) ∨
          ∃ newaddr frame, ∃ s₁ : Running, mustMove s.regions i me.toRegion newsize ∧
            findAddr s.regions newsize = some newaddr ∧
            uint32 (newaddr + newsize) ≤ searchLimit ∧ s.kalloc = some (frame, s₁) ∧
            s₁.moveMapping i me frame newaddr newsize input = some s' ∧ result = some newaddr) := by
  rw [wremap] at done
  by_cases positive : newsize ≤ 0
  · rw [if_pos positive] at done
    cases done
    exact .inl ⟨rfl, .inl rfl⟩
  · rw [if_neg positive] at done
    cases found : s.mmaps.find? (fun me => me.addr = oldaddr ∧ me.length = oldsize) with
    | none =>
      rw [found] at done
      cases done
      exact .inl ⟨rfl, .inl rfl⟩
    | some me =>
      simp only [found] at done
      split at done
      case isTrue stays =>
        cases done
        exact .inr ⟨me, _, by omega, rfl, rfl, .inl ⟨stays, rfl, rfl⟩⟩
      case isFalse moves =>
        split at done
        · cases done
          exact .inl ⟨rfl, .inl rfl⟩
        · cases placed : findAddr s.regions newsize with
          | none => simp [placed] at done
          | some newaddr =>
            simp only [placed] at done
            split at done
            · cases done
              exact .inl ⟨rfl, .inr rfl⟩
            case isFalse fits =>
              cases allocated : s.kalloc with
              | none =>
                rw [allocated] at done
                cases done
                exact .inl ⟨rfl, .inr rfl⟩
              | some pair =>
                obtain ⟨frame, s₁⟩ := pair
                rw [allocated] at done
                obtain ⟨t, moved, pair⟩ := Option.map_eq_some_iff.mp done
                cases pair
                exact .inr ⟨me, _, by omega, rfl, rfl, .inr ⟨newaddr, frame, s₁, by simpa using moves, rfl, by omega,
                  rfl, moved, rfl⟩⟩

theorem moveMapping_cores {me : MmapEntry} {i frame newaddr : ℕ} {newsize : ℤ}
    (done : s.moveMapping i me frame newaddr newsize input = some s') :
    s'.cores = MmapEntry.core { me with addr := newaddr, length := newsize, frame := frame } :: s.cores.eraseIdx i := by
  simp only [moveMapping] at done
  split at done
  · cases done
  case h_2 s₁ copied =>
    split at done
    · cases done
    case h_2 s₂ written =>
      cases done
      have same : s₂.mmaps = s₁.mmaps := by
        split at written
        · exact forPages_mmaps (fun _ _ _ => writeLowPage_mmaps) written
        · cases written
          rfl
      have entries := memmove_cores copied
      simp only [cores, kfree] at entries ⊢
      rw [same, ← List.eraseIdx_map, entries, List.map_cons, List.eraseIdx_cons_succ]

end Running

end Cs537.Wmap
