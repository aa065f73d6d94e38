import Cs537.Lib.Splice
import Cs537.Wmap.Placement

/-! # Writing pages back

What `filewrite` makes of a page at an offset of a regular file, and what the loop of `sys_wunmap` makes of
the file of a mapping: every present page that is writable is written whole, at its own offset, as far as
the chunks fit into the largest file.
-/

namespace Cs537.Wmap

open Lib

/-- How many bytes of a page get into a file at an offset: as many whole chunks as fit. -/
def room (off : ℕ) : ℕ :=
  if off + 4096 ≤ maxFile then 4096
  else if off + 3072 ≤ maxFile then 3072
  else if off + 1536 ≤ maxFile then 1536
  else 0

theorem room_le (off : ℕ) : room off ≤ 4096 := by
  unfold room
  split_ifs <;> omega

theorem Content.ext {c c' : Content} (same : c.bytes = c'.bytes) : c = c' := by
  cases c
  cases c'
  cases same
  rfl

private theorem Content.writei_bytes {c c' : Content} {off : ℕ} {bytes : List UInt8} (done : c.writei off bytes = some c') :
    c'.bytes = splice c.bytes off bytes := by
  rw [writei] at done
  split at done
  · cases done
    rfl
  · cases done

private theorem Content.writei_some {c : Content} {off : ℕ} {bytes : List UInt8} (within : off ≤ c.bytes.length)
    (fits : off + bytes.length ≤ maxFile) : ∃ c', c.writei off bytes = some c' := by
  rw [writei, dif_pos ⟨within, fits⟩]
  exact ⟨_, rfl⟩

private theorem Content.writei_none {c : Content} {off : ℕ} {bytes : List UInt8} (full : maxFile < off + bytes.length) :
    c.writei off bytes = none := by
  rw [writei, dif_neg (by omega)]

/-- The bytes of the chunks that fit into the largest file from an offset on. -/
def accepted : List (List UInt8) → ℕ → List UInt8
  | [], _ => []
  | chunk :: rest, off =>
      if off + chunk.length ≤ maxFile then chunk ++ accepted rest (off + chunk.length) else []

/-- At an offset that the file has, the loop writes what fits as one piece. -/
theorem writeLoop_within {c : Content} {off : ℕ} {pieces : List (List UInt8)} (within : off ≤ c.bytes.length) :
    (writeLoop pieces c off).1.bytes = splice c.bytes off (accepted pieces off) ∧
      (writeLoop pieces c off).2 = off + (accepted pieces off).length := by
  induction pieces generalizing c off with
  | nil => exact ⟨(splice_nil c.bytes off).symm, rfl⟩
  | cons chunk rest ih =>
    by_cases fits : off + chunk.length ≤ maxFile
    · obtain ⟨c', written⟩ := Content.writei_some within fits
      have bytes := Content.writei_bytes written
      have within' : off + chunk.length ≤ c'.bytes.length := by
        rw [bytes, length_splice within]
        omega
      obtain ⟨content, moved⟩ := ih within'
      rw [writeLoop, written, accepted, if_pos fits]
      refine ⟨?_, ?_⟩
      · rw [content, bytes, splice_splice within]
      · rw [moved, List.length_append]
        omega
    · rw [writeLoop, Content.writei_none (by omega), accepted, if_neg fits]
      exact ⟨(splice_nil c.bytes off).symm, rfl⟩

/-- At an offset beyond the end, the loop writes nothing. -/
theorem writeLoop_beyond {c : Content} {off : ℕ} (pieces : List (List UInt8)) (beyond : c.bytes.length < off) :
    writeLoop pieces c off = (c, off) := by
  cases pieces with
  | nil => rfl
  | cons chunk rest => rw [writeLoop, Content.writei, dif_neg (by omega)]

private theorem chunks_page {bytes : List UInt8} (page : bytes.length = 4096) :
    chunks bytes = [bytes.take 1536, (bytes.drop 1536).take 1536, bytes.drop 3072] := by
  have last : (bytes.drop 3072).take 1536 = bytes.drop 3072 := by
    rw [List.take_of_length_le]
    rw [List.length_drop]
    omega
  rw [chunks, page]
  simp only [maxChunk, show (4096 + (1536 - 1)) / 1536 = 3 from rfl, List.range_succ, List.range_zero, List.nil_append,
    List.cons_append, List.map_cons, List.map_nil, Nat.mul_zero, List.drop_zero, Nat.mul_one, last]

private theorem accepted_page {bytes : List UInt8} (page : bytes.length = 4096) (off : ℕ) :
    accepted (chunks bytes) off = bytes.take (room off) := by
  have two : bytes.take 1536 ++ (bytes.drop 1536).take 1536 = bytes.take 3072 := by
    rw [← List.take_add]
  have three : bytes.take 1536 ++ ((bytes.drop 1536).take 1536 ++ bytes.drop 3072) = bytes.take 4096 := by
    rw [← List.append_assoc, two, List.take_append_drop, List.take_of_length_le (by omega)]
  rw [chunks_page page]
  simp only [accepted, List.length_take, List.length_drop, page, room, List.append_nil]
  split_ifs <;> first | omega | simp only [two, List.append_nil, List.take_zero]

/-- A page at an offset that the file has. -/
theorem writeLoop_page {c : Content} {off : ℕ} {bytes : List UInt8} (page : bytes.length = 4096)
    (within : off ≤ c.bytes.length) :
    (writeLoop (chunks bytes) c off).1.bytes = splice c.bytes off (bytes.take (room off)) ∧
      (writeLoop (chunks bytes) c off).2 = off + room off := by
  have le := room_le off
  have length : (bytes.take (room off)).length = room off := by
    rw [List.length_take]
    omega
  obtain ⟨content, moved⟩ := writeLoop_within within
  rw [accepted_page page] at content moved
  exact ⟨content, by rw [moved, length]⟩

/-- The bytes of a page. -/
def Page.bytes (page : Page) : List UInt8 := (List.range 4096).map page.data

theorem Page.length_bytes (page : Page) : page.bytes.length = 4096 := by
  rw [bytes, List.length_map, List.length_range]

theorem Page.getElem?_take_bytes (page : Page) {n o : ℕ} (le : n ≤ 4096) (low : o < n) :
    (page.bytes.take n)[o]? = some (page.data o) := by
  rw [List.getElem?_take_of_lt low, bytes, List.getElem?_map, List.getElem?_range (by omega)]
  rfl

/-- A file after the page at an offset is written back, if it is present and writable. -/
def flush (pages : ℕ → Option Page) (c : Content) (i : ℕ) : Content :=
  match pages i with
  | none => c
  | some page => if page.writable then (writeLoop (chunks page.bytes) c i).1 else c

/-- The page at an offset is not written back, begins beyond the end of the file, or holds what is there. -/
def Kept (c : Content) (i : ℕ) (page : Page) : Prop :=
  page.writable → c.bytes.length < i ∨ ∀ o < room i, c.bytes[i + o]? = some (page.data o)

section Flush

variable {pages : ℕ → Option Page} {c : Content} {i n : ℕ}

/-- A page that is written back where the file has bytes. -/
theorem flush_within {page : Page} (present : pages i = some page) (writable : page.writable = true)
    (within : i ≤ c.bytes.length) : (flush pages c i).bytes = splice c.bytes i (page.bytes.take (room i)) := by
  rw [flush, present]
  simp only [writable, if_true]
  exact (writeLoop_page page.length_bytes within).1

private theorem flush_beyond (beyond : c.bytes.length < i) : flush pages c i = c := by
  rw [flush]
  split
  · rfl
  · rw [writeLoop_beyond _ beyond, ite_self]

private theorem flush_before (before : n < i) : (flush pages c i).bytes[n]? = c.bytes[n]? := by
  rcases le_or_gt i c.bytes.length with within | beyond
  · cases present : pages i with
    | none => rw [flush, present]
    | some page =>
      by_cases writable : page.writable = true
      · rw [flush_within present writable within, getElem?_splice_before within before]
      · rw [flush, present]
        simp only [writable, if_false, Bool.false_eq_true]
  · rw [flush_beyond beyond]

private theorem foldl_flush_before {offsets : List ℕ} (before : ∀ i ∈ offsets, n < i) :
    (offsets.foldl (flush pages) c).bytes[n]? = c.bytes[n]? := by
  induction offsets generalizing c with
  | nil => rfl
  | cons i rest ih =>
    rw [List.foldl_cons, ih fun j member => before j (List.mem_cons_of_mem i member)]
    exact flush_before (before i (List.mem_cons_self ..))

/-- A write-back changes nothing, or a byte of its own page. -/
private theorem flush_cases (pages : ℕ → Option Page) (c : Content) (i : ℕ) :
    (flush pages c i = c ∧ ∀ page, pages i = some page → Kept c i page) ∨
      (¬ ∀ page, pages i = some page → Kept c i page) ∧
        ∃ n < i + 4096, (flush pages c i).bytes[n]? ≠ c.bytes[n]? := by
  cases present : pages i with
  | none =>
    refine .inl ⟨?_, fun page found => ?_⟩
    · rw [flush, present]
    · cases found
  | some page =>
    by_cases writable : page.writable = true
    · rcases lt_or_ge c.bytes.length i with beyond | within
      · refine .inl ⟨flush_beyond beyond, fun other found _ => .inl ?_⟩
        exact beyond
      · have length : (page.bytes.take (room i)).length = room i := by
          rw [List.length_take, page.length_bytes]
          exact min_eq_left (room_le i)
        have after := flush_within present writable within
        by_cases same : ∀ o < room i, c.bytes[i + o]? = some (page.data o)
        · refine .inl ⟨Content.ext ?_, fun other found _ => .inr ?_⟩
          · rw [after, splice_eq_self within, length]
            intro o low
            rw [page.getElem?_take_bytes (room_le i) low]
            exact same o low
          · cases found
            exact same
        · refine .inr ⟨fun kept => ?_, ?_⟩
          · rcases kept page rfl writable with beyond | here
            · omega
            · exact same here
          · push Not at same
            obtain ⟨o, low, differs⟩ := same
            have := room_le i
            refine ⟨i + o, by omega, ?_⟩
            rw [after, getElem?_splice within, if_neg (by omega), length, if_pos (by omega), Nat.add_sub_cancel_left,
              page.getElem?_take_bytes (room_le i) low]
            exact differs.symm
    · refine .inl ⟨?_, fun other found writes => ?_⟩
      · rw [flush, present]
        simp only [writable, if_false, Bool.false_eq_true]
      · cases found
        exact absurd writes writable

/-- The pages of a mapping leave the file as it is if and only if each of them does. -/
theorem foldl_flush_eq_self {offsets : List ℕ} (spaced : offsets.Pairwise fun i j => i + 4096 ≤ j) :
    offsets.foldl (flush pages) c = c ↔ ∀ i ∈ offsets, ∀ page, pages i = some page → Kept c i page := by
  induction offsets with
  | nil => simp
  | cons i rest ih =>
    obtain ⟨later, spaced⟩ := List.pairwise_cons.mp spaced
    rw [List.foldl_cons, List.forall_mem_cons]
    rcases flush_cases pages c i with ⟨same, kept⟩ | ⟨lost, n, low, differs⟩
    · rw [same, ih spaced]
      exact ⟨fun all => ⟨kept, all⟩, And.right⟩
    · refine ⟨fun same => absurd ?_ differs, fun all => absurd all.1 lost⟩
      rw [← foldl_flush_before (fun j member => lt_of_lt_of_le low (later j member)), same]

end Flush

/-- The loop over a mapping of ordinary length visits its pages in order. -/
theorem Region.offsets_spec {r : Region} (positive : 0 < r.length) (short : r.length ≤ 2 ^ 31) :
    ∃ offsets : List ℕ, r.offsets = some offsets ∧ (∀ i, i ∈ offsets ↔ i % 4096 = 0 ∧ (i : ℤ) < r.length) ∧
      offsets.Pairwise fun i j => i + 4096 ≤ j := by
  have size : (uint32 r.length : ℤ) = r.length := by
    rw [uint32]
    omega
  refine ⟨_, by rw [Region.offsets, if_neg (by omega)], fun i => ?_, ?_⟩
  · simp only [List.mem_map, List.mem_range]
    constructor
    · rintro ⟨k, low, rfl⟩
      omega
    · rintro ⟨aligned, low⟩
      exact ⟨i / 4096, by omega, by omega⟩
  · refine List.pairwise_map.mpr (List.pairwise_lt_range.imp fun before => ?_)
    omega

/-- A page of a mapping that the user can reach. -/
structure Region.PageAt (r : Region) (i : ℕ) : Prop where
  aligned : (r.addr + i) % 4096 = 0
  below : r.addr + i < searchLimit

namespace Running

variable {s s' : Running} {a i : ℕ} {f : Fin nfile} {me : MmapEntry}

private theorem mapM_eq_map {α β : Type} {g : α → Option β} {h : α → β} {l : List α} (all : ∀ x ∈ l, g x = some (h x)) :
    l.mapM g = some (l.map h) := by
  induction l with
  | nil => rfl
  | cons x rest ih =>
    obtain ⟨here, later⟩ := List.forall_mem_cons.mp all
    rw [List.mapM_cons, here, ih later]
    rfl

private theorem bytesAt_page {page : Page} (aligned : a % 4096 = 0) (low : a < searchLimit)
    (present : s.page (a / 4096) = some page) : s.bytesAt a 4096 = some page.bytes := by
  refine mapM_eq_map fun o member => ?_
  have inside := List.mem_range.mp member
  have here : uint32 ((a : ℤ) + o) = a + o := by
    simp only [searchLimit] at low
    rw [uint32]
    omega
  rw [here, show (a + o) / 4096 = a / 4096 by omega, show (a + o) % 4096 = o by omega, present]
  rfl

/-- The file of a mapping, as long as it is open for writing. -/
structure Backed (s : Running) (f : Fin nfile) : Prop where
  regular : (s.file f).type = .inode
  readable : (s.file f).readable = true
  writable : (s.file f).writable = true

/-- The page of a mapping at an offset. -/
def pageOf (s : Running) (me : MmapEntry) (i : ℕ) : Option Page := s.page ((me.addr + i) / 4096)

/-- The shared branch of `sys_wunmap` for one page of a mapping of a regular file. -/
private theorem unmapSharedPage_spec (at_ : me.toRegion.PageAt i) (file : me.file = some f) (backed : s.Backed f) :
    ∃ s' off, unmapSharedPage true me s i = some s' ∧
      s'.page = Function.update s.page ((me.addr + i) / 4096) none ∧
      s'.inode = Function.update s.inode (s.file f).ip (flush (s.pageOf me) (s.inode (s.file f).ip) i) ∧
      s'.file = Function.update s.file f { s.file f with off := off } := by
  have low := at_.below
  have here : uint32 ((me.addr : ℤ) + i) = me.addr + i := by
    simp only [searchLimit] at low
    rw [uint32]
    omega
  have user : isKernel ((me.addr + i) / 4096) = false := by
    simp only [searchLimit] at low
    exact isKernel_of_lt (by simp only [kernelPage]; omega)
  simp only [unmapSharedPage, here, user, Bool.false_eq_true, if_false, flush, pageOf]
  cases present : s.page ((me.addr + i) / 4096) with
  | none =>
    refine ⟨s, (s.file f).off, rfl, ?_, ?_, ?_⟩
    · rw [← present, Function.update_eq_self]
    · exact (Function.update_eq_self ..).symm
    · exact (Function.update_eq_self ..).symm
  | some page =>
    by_cases writable : page.writable = true
    · have bytes := bytesAt_page at_.aligned low present
      simp only [writable, if_true, file, writeBack, onKernel, Kernel.filewrite, Kernel.setFile, bytes, Option.getD_some,
        Function.update_self, backed.regular, backed.writable, Bool.true_eq_false, if_false, Function.update_idem]
      exact ⟨_, _, rfl, rfl, rfl, rfl⟩
    · simp only [writable, if_false, Bool.false_eq_true]
      refine ⟨_, (s.file f).off, rfl, rfl, ?_, ?_⟩
      · exact (Function.update_eq_self ..).symm
      · exact (Function.update_eq_self ..).symm

theorem Backed.of_file {off : ℕ} (backed : s.Backed f)
    (same : s'.file = Function.update s.file f { s.file f with off := off }) :
    s'.Backed f := by
  constructor <;> rw [same, Function.update_self]
  · exact backed.regular
  · exact backed.readable
  · exact backed.writable

/-- The loop over some pages of a mapping. -/
theorem unmapShared_fold {offsets : List ℕ} (all : ∀ i ∈ offsets, me.toRegion.PageAt i)
    (spaced : offsets.Pairwise fun i j => i + 4096 ≤ j) (file : me.file = some f) (backed : s.Backed f) :
    ∃ s' off, offsets.foldlM (unmapSharedPage true me) s = some s' ∧
      s'.inode = Function.update s.inode (s.file f).ip (offsets.foldl (flush (s.pageOf me)) (s.inode (s.file f).ip)) ∧
      s'.file = Function.update s.file f { s.file f with off := off } := by
  induction offsets generalizing s with
  | nil =>
    refine ⟨s, (s.file f).off, rfl, ?_, ?_⟩
    · exact (Function.update_eq_self ..).symm
    · exact (Function.update_eq_self ..).symm
  | cons i rest ih =>
    obtain ⟨here, later⟩ := List.forall_mem_cons.mp all
    obtain ⟨behind, spaced⟩ := List.pairwise_cons.mp spaced
    obtain ⟨s₁, off, done, page, inode, same⟩ := unmapSharedPage_spec here file backed
    obtain ⟨s₂, off₂, tail, inode₂, same₂⟩ := ih later spaced (backed.of_file same)
    have ip : (s₁.file f).ip = (s.file f).ip := by rw [same, Function.update_self]
    have pages (c : Content) (j : ℕ) (member : j ∈ rest) : flush (s₁.pageOf me) c j = flush (s.pageOf me) c j := by
      have apart := behind j member
      have other : (me.addr + j) / 4096 ≠ (me.addr + i) / 4096 := by omega
      rw [flush, flush, pageOf, pageOf, page, Function.update_of_ne other]
    refine ⟨s₂, off₂, ?_, ?_, ?_⟩
    · rw [List.foldlM_cons, done]
      exact tail
    · rw [inode₂, ip, inode, Function.update_idem, Function.update_self, List.foldl_cons, List.foldl_ext _ _ _ pages]
    · rw [same₂, same, Function.update_idem, Function.update_self]

end Running

end Cs537.Wmap
