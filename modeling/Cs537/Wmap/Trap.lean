import Cs537.Wmap.Effects

/-! # The page fault handler

`trap` for `T_PGFLT`, with the ways in which it marks the process killed. A fault that is handled is the one of
which the accesses of a process speak.
-/

namespace Cs537.Wmap

open Lib

namespace Kernel

/-- `fileread` of one page with zeros behind the bytes read: no data when it returns -1, no result when it
panics. -/
def readPage (k : Kernel) (f : Fin nfile) (input : ℕ → UInt8) : Option (Kernel × Option (ℕ → UInt8)) :=
  if (k.file f).readable = false then some (k, none)
  else match (k.file f).type with
    | .none => none
    | .pipe => some (k, some input)
    | .inode =>
        match (k.inode (k.file f).ip).readi (k.file f).off with
        | none => some (k, none)
        | some (count, data) => some (k.setFile f { k.file f with off := (k.file f).off + count }, some data)

private theorem fileread_eq (k : Kernel) (f : Fin nfile) (input : ℕ → UInt8) :
    k.fileread f input = (k.readPage f input).bind fun r => r.2.map (r.1, ·) := by
  unfold fileread readPage
  split
  · rfl
  · cases (k.file f).type with
    | none => rfl
    | pipe => rfl
    | inode => cases (k.inode (k.file f).ip).readi (k.file f).off <;> rfl

end Kernel

namespace Running

variable {s s' : Running} {me : MmapEntry} {front rest : List MmapEntry} {a : ℕ} {input : ℕ → UInt8}

/-- The content of the new page; none when the file cannot be read. -/
def readIn (s : Running) (me : MmapEntry) (a : ℕ) (input : ℕ → UInt8) : Option (Running × Option (ℕ → UInt8)) :=
  match me.file with
  | none => some (s, some fun _ => 0)
  | some f =>
      if isAnonymous me.flags then some (s, some fun _ => 0)
      else
        let off := uint32 ((a : ℤ) - me.addr - (a % 4096 : ℕ))
        ((s.setFile f { s.file f with off := off }).readPage f input).map fun r => ({ s with toKernel := r.1 }, r.2)

/-- `trap` for `T_PGFLT`: the state, and whether the process is killed; nothing when the kernel panics. -/
def trapPgflt (s : Running) (a : ℕ) (input : ℕ → UInt8) : Option (Running × Bool) :=
  match s.mmaps.find? (·.contains a) with
  | none => some (s, true)
  | some me =>
      match s.kalloc with
      | none => some (s, true)
      | some (frame, s) =>
          match s.readIn me a input with
          | none => none
          | some (s, none) => some (s.kfree frame, true)
          | some (s, some data) =>
              match s.walkAlloc (a / 4096) with
              | none => some (s.kfree frame, true)
              | some s =>
                  if isKernel (a / 4096) ∨ (s.page (a / 4096)).isSome then none
                  else some ((s.setPage (a / 4096) (some ⟨data, true, frame⟩)).countPage
                    (s.mmaps.findIdx (·.contains a)), false)

private theorem fill_eq (s : Running) (me : MmapEntry) (a : ℕ) (input : ℕ → UInt8) :
    s.fill me a input = (s.readIn me a input).bind fun r => r.2.map (r.1, ·) := by
  unfold fill readIn
  cases me.file with
  | none => rfl
  | some f =>
    simp only
    split
    · rfl
    · rw [Kernel.fileread_eq]
      rcases (s.setFile f _).readPage f input with _ | ⟨k, _ | data⟩ <;> rfl

/-- The faults that are handled without killing the process are those of `fault`. -/
theorem fault_iff : s.fault a input = some s' ↔ s.trapPgflt a input = some (s', false) := by
  unfold fault trapPgflt
  cases s.mmaps.find? (·.contains a) with
  | none => simp
  | some me =>
    rcases s.kalloc with _ | ⟨frame, t⟩
    · simp
    · simp only [fill_eq]
      rcases t.readIn me a input with _ | ⟨u, _ | data⟩
      · simp
      · simp
      · simp only [Option.bind_some, Option.map_some]
        cases u.walkAlloc (a / 4096) with
        | none => simp
        | some w =>
          simp only
          split <;> simp

end Running

/-- The page has an address that the fault handler takes for one of the region. -/
def Region.HasPage (r : Region) (v : ℕ) : Prop := ∃ a, r.contains a ∧ a / 4096 = v

/-- The page lies in no two regions. -/
def PagesApart (regions : List Region) : Prop := regions.Pairwise fun r q => ∀ v, ¬ (r.HasPage v ∧ q.HasPage v)

namespace Running

variable {s s' : Running} {me : MmapEntry} {front rest : List MmapEntry} {a : ℕ} {input : ℕ → UInt8}

/-- What a page of a mapping has to hold: the bytes of the file from its offset on and then zeros, or zeros. -/
def expected (s : Running) (me : MmapEntry) (offset k : ℕ) : UInt8 :=
  match me.file with
  | none => 0
  | some f =>
      if isAnonymous me.flags then 0
      else if here : offset + k < (s.inode (s.file f).ip).bytes.length then (s.inode (s.file f).ip).bytes[offset + k]
      else 0

/-- The file of the mapping can be read at an offset: it is a regular file, open for reading, that long. -/
def Legible (s : Running) (me : MmapEntry) (offset : ℕ) : Prop :=
  ∀ f, me.file = some f → isAnonymous me.flags = false →
    (s.file f).type = .inode ∧ (s.file f).readable = true ∧ offset ≤ (s.inode (s.file f).ip).bytes.length

/-- No page-table entry maps the page. -/
def Absent (s : Running) (v : ℕ) : Prop := isKernel v = false ∧ s.page v = none

/-- No `kalloc` of a fault at the page fails. -/
def HasMemory (s : Running) (v : ℕ) : Prop := s.free ≠ [] ∧ (s.tables (v / 1024) = false → 2 ≤ s.free.length)

private theorem kalloc_of_free (memory : s.free ≠ []) :
    ∃ frame, s.kalloc = some (frame, { s with free := s.free.tail }) := by
  obtain ⟨frame, rest, free⟩ := List.exists_cons_of_ne_nil memory
  refine ⟨frame, ?_⟩
  rw [kalloc, Kernel.kalloc, free]
  rfl

/-- The content is read as it should be, and only the offset of the file moves. -/
private theorem readIn_spec (input : ℕ → UInt8) (base : me.addr % 4096 = 0) (inside : me.contains a)
    (legible : s.Legible me (a / 4096 * 4096 - me.addr)) :
    ∃ k data, s.readIn me a input = some ({ s with toKernel := k }, some data) ∧ k.free = s.free ∧
      ∀ o, data o = s.expected me (a / 4096 * 4096 - me.addr) o := by
  simp only [Region.contains, decide_eq_true_eq] at inside
  have small : me.limit < 2 ^ 32 := uint32_lt _
  unfold readIn expected
  cases file : me.file with
  | none => exact ⟨s.toKernel, _, rfl, rfl, fun _ => rfl⟩
  | some f =>
    cases anonymous : isAnonymous me.flags with
    | true => exact ⟨s.toKernel, _, rfl, rfl, fun _ => rfl⟩
    | false =>
      obtain ⟨regular, readable, long⟩ := legible f file anonymous
      have off : uint32 ((a : ℤ) - me.addr - (a % 4096 : ℕ)) = a / 4096 * 4096 - me.addr := by
        rw [uint32]
        omega
      simp only [off, Kernel.readPage, Kernel.setFile, Function.update_self, readable, regular, Content.readi,
        Bool.true_eq_false, Bool.false_eq_true, if_false, if_neg (Nat.not_lt.mpr long), gt_iff_lt, Option.map_some]
      refine ⟨_, _, rfl, rfl, fun o => ?_⟩
      split
      case isTrue here => exact (List.getElem_eq_getD 0).symm
      case isFalse behind => rw [List.getD_eq_getElem?_getD, List.getElem?_eq_none (Nat.not_lt.mp behind),
        Option.getD_none]

private theorem walkAlloc_spec (v : ℕ) (memory : s.tables (v / 1024) = false → s.free ≠ []) :
    ∃ s', s.walkAlloc v = some s' ∧ s'.page = s.page ∧ s'.mmaps = s.mmaps := by
  rw [walkAlloc]
  cases table : s.tables (v / 1024) with
  | true => exact ⟨s, rfl, rfl, rfl⟩
  | false =>
    obtain ⟨frame, allocated⟩ := kalloc_of_free (memory table)
    simp only [allocated]
    exact ⟨_, rfl, rfl, rfl⟩

/-- With no page in two mappings, the search of the handler ends at the mapping of the address. -/
private theorem find_of_apart (list : s.mmaps = front ++ me :: rest) (apart : PagesApart s.regions) (inside : me.contains a) :
    s.mmaps.find? (·.contains a) = some me ∧ s.mmaps.findIdx (·.contains a) = front.length := by
  have others : ∀ q ∈ front, q.contains a = false := by
    intro q member
    rw [regions, list, List.map_append, PagesApart, List.pairwise_append] at apart
    have pair := apart.2.2 q.toRegion (List.mem_map_of_mem member) me.toRegion (List.mem_map_of_mem List.mem_cons_self)
    by_contra hit
    exact pair (a / 4096) ⟨⟨a, by simpa using hit, rfl⟩, ⟨a, inside, rfl⟩⟩
  rw [list]
  constructor
  · rw [List.find?_append, List.find?_eq_none.mpr (by simpa using others), Option.none_or, List.find?_cons, inside]
  · rw [List.findIdx_append, List.findIdx_eq_length.mpr others, if_neg (Nat.lt_irrefl _), List.findIdx_cons, inside,
      cond_true, Nat.zero_add]

/-- A fault in a mapping loads its page, exactly as the mapping says, and does nothing else. -/
private theorem trapPgflt_loads (list : s.mmaps = front ++ me :: rest) (aligned : me.addr % 4096 = 0)
    (apart : PagesApart s.regions) (inside : me.contains a) (absent : s.Absent (a / 4096))
    (memory : s.HasMemory (a / 4096))
    (legible : s.Legible me (a / 4096 * 4096 - me.addr)) :
    ∃ s' data frame, s.trapPgflt a input = some (s', false) ∧
      s'.page = Function.update s.page (a / 4096) (some ⟨data, true, frame⟩) ∧
      (∀ o, data o = s.expected me (a / 4096 * 4096 - me.addr) o) ∧
      s'.mmaps = front ++ { me with nLoadedPages := me.nLoadedPages + 1 } :: rest := by
  obtain ⟨found, index⟩ := find_of_apart list apart inside
  obtain ⟨frame, allocated⟩ := kalloc_of_free memory.1
  obtain ⟨k, data, read, free, content⟩ :=
    readIn_spec (s := { s with free := s.free.tail }) input aligned inside legible
  have left : s.tables (a / 4096 / 1024) = false → k.free ≠ [] := by
    intro noTable
    rw [free]
    have two := memory.2 noTable
    exact List.ne_nil_of_length_pos (by simp only [List.length_tail]; omega)
  obtain ⟨t, walked, page, mmaps⟩ :=
    walkAlloc_spec (s := { s with toKernel := k }) (a / 4096) left
  have clear : ¬ (isKernel (a / 4096) ∨ (t.page (a / 4096)).isSome) := by
    rw [page, absent.1, absent.2]
    simp
  refine ⟨(t.setPage (a / 4096) (some ⟨data, true, frame⟩)).countPage (t.mmaps.findIdx (·.contains a)), data, frame,
    ?_, ?_,
    content, ?_⟩
  · simp only [trapPgflt, found, allocated, read, walked, if_neg clear]
  · simp only [countPage, setPage, page]
  · simp only [countPage, setPage, mmaps, index]
    rw [list, List.modify_eq_take_drop]
    simp

/-- No mapping has the address. -/
private theorem trapPgflt_kills (outside : ∀ me ∈ s.mmaps, me.contains a = false) : s.trapPgflt a input = some (s, true) := by
  have none : s.mmaps.find? (·.contains a) = none := List.find?_eq_none.mpr (by simpa using outside)
  rw [trapPgflt, none]

end Running

open Running in
/-- A fault in a mapping loads one page with what the mapping says, and a fault anywhere else kills the process. -/
theorem page_fault_handled {s : Running} (aligned : ∀ me ∈ s.mmaps, me.addr % 4096 = 0)
    (apart : PagesApart s.regions) (a : ℕ) (input : ℕ → UInt8) :
    (∀ front me rest, s.mmaps = front ++ me :: rest → me.contains a → s.Absent (a / 4096) → s.HasMemory (a / 4096) →
      s.Legible me (a / 4096 * 4096 - me.addr) →
        ∃ s' data frame, s.trapPgflt a input = some (s', false) ∧
          s'.page = Function.update s.page (a / 4096) (some ⟨data, true, frame⟩) ∧
          (∀ o, data o = s.expected me (a / 4096 * 4096 - me.addr) o) ∧
          s'.mmaps = front ++ { me with nLoadedPages := me.nLoadedPages + 1 } :: rest) ∧
      ((∀ me ∈ s.mmaps, me.contains a = false) → s.trapPgflt a input = some (s, true)) := by
  refine ⟨fun front me rest list inside absent memory legible => ?_, trapPgflt_kills⟩
  have member : me ∈ s.mmaps := by
    rw [list]
    exact List.mem_append_right _ List.mem_cons_self
  exact trapPgflt_loads list (aligned me member) apart inside absent memory legible

/-- A process that has mapped a file of 5000 sevens, with nothing loaded. -/
def sevensMapped : Running where
  ofile fd := if fd = 0 then some 0 else none
  mmaps := [⟨⟨0x60000000, 8192⟩, 2, 0, some 0, 9⟩]
  tables _ := false
  page _ := none
  file _ := ⟨.inode, 2, true, true, 0, 0⟩
  inode _ := ⟨List.replicate 5000 7, sevens_le_maxFile⟩
  free := [1, 2]

open Running in
/-- The second page holds the last 904 bytes of the file. -/
theorem page_fault_handled_sevens : ∃ s' data frame,
    sevensMapped.trapPgflt 0x60001010 (fun _ => 42) = some (s', false) ∧
      s'.page = Function.update sevensMapped.page 0x60001 (some ⟨data, true, frame⟩) ∧ data 903 = 7 ∧ data 904 = 0 ∧
      s'.mmaps = [⟨⟨0x60000000, 8192⟩, 2, 1, some 0, 9⟩] := by
  have aligned : ∀ me ∈ sevensMapped.mmaps, me.addr % 4096 = 0 := by decide
  have apart : PagesApart sevensMapped.regions := List.pairwise_singleton ..
  obtain ⟨s', data, frame, done, page, content, mmaps⟩ :=
    (page_fault_handled aligned apart 0x60001010 fun _ => 42).1 [] _ [] rfl (by decide +kernel) ⟨by decide, rfl⟩
      ⟨by decide, fun _ => by decide⟩ fun f file _ => ⟨rfl, rfl, by
        show 4096 ≤ (List.replicate 5000 (7 : UInt8)).length
        rw [List.length_replicate]
        decide⟩
  refine ⟨s', data, frame, done, page, ?_, ?_, mmaps⟩
  · rw [content]
    decide +kernel
  · rw [content]
    decide +kernel

end Cs537.Wmap
