import Cs537.Wfs.Creation
import Mathlib.Data.List.Infix

/-! # Names that do not fit

The name of an entry has 28 bytes, with its null byte, and the number stands behind it. A longer name is copied
over the number, and then the number over the name; what can be found afterwards depends on whether the two say
the same. A name of 32 bytes or more also runs into the next entry.
-/

namespace Cs537.Wfs

open Lib Memory

variable {L : Layout} {d d' d₁ : Disk} {name path : Name} {env : Env} {n p k mode : ℕ} {s : Slot}

/-- What a name has beyond its field is what the number behind it begins with. -/
def Fits (name : Name) (n : ℕ) : Prop := (name ++ [0]).drop 28 <+: leBytes 4 n

instance (name : Name) (n : ℕ) : Decidable (Fits name n) := inferInstanceAs (Decidable (_ <+: _))

/-- The names and numbers of the entries in use that a listing of the directory goes through. -/
def listed (d : Disk) (inode : ℤ) : List (Name × ℤ) :=
  (List.range indBlock).flatMap fun i =>
    let block := d.long (blocksAt inode i)
    if block = 0 then []
    else ((List.range dentriesPerBlock).filter fun j => decide (d.int (numAt (dentryAt block j)) > 0)).map fun j =>
      (nameString d (dentryAt block j), d.int (numAt (dentryAt block j)))

theorem Fits.short (fits : Fits name n) : name.length < 32 := by
  have length := fits.length_le
  simp only [List.length_drop, List.length_append, List.length_singleton, length_leBytes] at length
  omega

section Necessary

/-- An entry that compares equal and whose number is read as `n`: what the name has beyond its field is the number. -/
private theorem fits_of_entry {a : ℤ} (same : strcmpEq d a name = true) (number : d.int (numAt a) = n) (bound : n < 2 ^ 24)
    (clean : 0 ∉ name) : Fits name n := by
  rw [strcmpEq, beq_iff_eq] at same
  have low := le_lt d (numAt a) 4
  have word : d.le (numAt a) 4 = n := by
    rw [int, int32, uint32] at number
    omega
  have bytes : leBytes 4 n = d.load (numAt a) 4 := by rw [load_leBytes, word]
  rw [Fits, bytes, ← same, load_drop]
  have short : name.length + 1 - 28 ≤ 4 := by
    by_contra long
    -- the last byte of the number is zero, and a byte of the name
    have top : (leBytes 4 n)[3]? = some 0 := by
      have zero : n / 256 / 256 / 256 = 0 := by omega
      simp [leBytes, zero]
    have inside : 3 < (d.load (numAt a) 4).length := by simp
    have inside' : 31 < (d.load a (name.length + 1)).length := by
      rw [length_load]
      omega
    have last : d (a + 31) = 0 := by
      rw [bytes, List.getElem?_eq_getElem inside, Option.some.injEq, getElem_load] at top
      rw [← top]
      congr 1
      simp only [numAt]
      push_cast
      ring
    have member : (name ++ [0])[31]? = some 0 := by
      rw [← same, List.getElem?_eq_getElem inside', getElem_load]
      exact congrArg some last
    rw [List.getElem?_append_left (by omega)] at member
    exact clean (List.mem_of_getElem? member)
  change d.load (a + 28) _ <+: d.load (a + 28) 4
  rw [← take_load d (a + 28) short]
  exact List.take_prefix _ _

/-- The last component of a path is searched for in some directory, unless another one has not been found. -/
private theorem walk_last (d : Disk) (front : List Name) (name : Name) (prev curr : ℤ) :
    (walk d prev curr (front ++ [name])).2 = -1 ∨
    ∃ m, (walk d prev curr (front ++ [name])).2 = searchDirectory d m name := by
  induction front generalizing prev curr with
  | nil =>
    right
    refine ⟨curr, ?_⟩
    simp only [List.nil_append, walk]
    split_ifs with missing
    · exact missing.symm
    · rfl
  | cons first front ih =>
    rw [List.cons_append, walk]
    split_ifs
    · exact .inl rfl
    · exact ih _ _

/-- A path that leads to an inode leads there by an entry. -/
theorem Absent.fits_of_lookup (absent : Absent L d path p) (clean : 0 ∉ path)
    (found : (findInodeNumberByPath d' path).2 = n) (positive : 0 < n) (bound : n < 2 ^ 24) :
    Fits (lastToken path) n := by
  have last := (tokens_clean absent.lastToken_mem clean).2
  rw [findInodeNumberByPath, absent.tokens_eq] at found
  rcases walk_last d' (tokens path).dropLast (lastToken path) 0 0 with missing | ⟨m, searched⟩
  · omega
  · rw [searched] at found
    rcases searchDirectory_cases d' m (lastToken path) with ⟨missing, _⟩ | ⟨i, _, _, _, result⟩
    · omega
    · rw [found] at result
      rcases findDentry_cases d' (d'.long (blocksAt (inodeAt d' m) i)) (lastToken path) with
        ⟨_, negative, _⟩ | ⟨j, _, same, _, entry⟩
      · omega
      · rw [entry] at result
        exact fits_of_entry same result.symm bound last

end Necessary

section Sufficient

/-- What creating a file in a directory may change: the bitmaps, the inodes of the directory and of the file, unused
entries of the directory and free blocks. -/
def Changeable (L : Layout) (d : Disk) (p n : ℕ) (x : ℤ) : Prop :=
  (48 ≤ x ∧ x < L.iTable) ∨ (∃ m, (m = p ∨ m = n) ∧ L.inode m ≤ x ∧ x < L.inode m + 512) ∨
    (∃ s, (view L d).IsDentry s ∧ s.n = p ∧ (view L d).num L s = 0 ∧
      dentryAt (ptr ((view L d).inode p) s.i) s.j ≤ x ∧ x < dentryAt (ptr ((view L d).inode p) s.i) s.j + 32) ∨
    ∃ k < L.blocks, (view L d).dbit k = false ∧ L.block k ≤ x ∧ x < L.block k + 512

theorem Grown.byte_eq (grown : Grown L d d₁ s k) {x : ℤ} (bitmap : ¬ (L.dBitmap ≤ x ∧ x < L.iTable))
    (parent : ¬ (L.inode s.n ≤ x ∧ x < L.inode s.n + 512)) : d₁ x = d x := by
  have view_eq := grown.view_eq
  rcases L.parts x with outside | ⟨low, high⟩ | ⟨low, high⟩ | inside | ⟨m, inside, low, high⟩ | ⟨m, inside, low, high⟩
  · exact byte_of_tail (by rw [view_eq]; rfl) outside
  · exact byte_of_head (by rw [view_eq]; rfl) low high
  · exact byte_of_ibit (by rw [view_eq]; rfl) low high
  · exact (bitmap inside).elim
  · refine byte_of_inode inside ?_ low high
    rw [view_eq]
    refine point_inode_of_ne ?_
    rintro rfl
    exact parent ⟨low, high⟩
  · exact byte_of_block inside (by rw [view_eq]; rfl) low high

/-- The new entry, the new inode, its bit and the inode of the directory are all that changes. -/
theorem FreeSlot.byte_eq (slot : FreeSlot L (view L d₁) s k) {bytes : List UInt8} (short : name.length < 32)
    (view_eq : view L d' = (view L d₁).create s.n k s.j name n bytes) {x : ℤ} (bitmap : ¬ (48 ≤ x ∧ x < L.dBitmap))
    (inodes : ∀ m, m = s.n ∨ m = n → ¬ (L.inode m ≤ x ∧ x < L.inode m + 512))
    (entry : ¬ (dentryAt (L.block k) s.j ≤ x ∧ x < dentryAt (L.block k) s.j + 32)) : d' x = d₁ x := by
  rcases L.parts x with outside | ⟨low, high⟩ | inside | ⟨low, high⟩ | ⟨m, inside, low, high⟩ | ⟨m, inside, low, high⟩
  · exact byte_of_tail (by rw [view_eq]; rfl) outside
  · exact byte_of_head (by rw [view_eq]; rfl) low high
  · exact (bitmap inside).elim
  · exact byte_of_dbit (by rw [view_eq]; rfl) low high
  · refine byte_of_inode inside ?_ low high
    rw [view_eq]
    apply create_inode_of_ne
    · rintro rfl
      exact inodes m (.inr rfl) ⟨low, high⟩
    · rintro rfl
      exact inodes s.n (.inl rfl) ⟨low, high⟩
  · by_cases here : m = k
    · subst here
      have page : (view L d').block m = putDentry ((view L d₁).block m) s.j name n := by
        rw [view_eq, create_block_self]
      have position : L.block m + (x - L.block m) = x := by ring
      rw [← position, byte_block (d := d') (o := x - L.block m) inside (by omega) (by omega),
        byte_block (d := d₁) (o := x - L.block m) inside (by omega) (by omega), page]
      apply putDentry_outside short
      simp only [dentryAt] at entry
      omega
    · refine byte_of_block inside ?_ low high
      rw [view_eq]
      exact create_block_of_ne here

/-- The new entry compares equal to a name that fits and is shorter than an entry. -/
private theorem compare_putDentry {page : Memory} {j : ℕ} (fits : Fits name n) (short : name.length < 32) (word : n < 2 ^ 31) :
    (putDentry page j name n).load (dentryAt 0 j) (name.length + 1) = name ++ [0] := by
  have length : (name ++ [0]).length = name.length + 1 := by simp
  apply List.ext_getElem
  · simp
  · intro i inside inside'
    rw [getElem_load, putDentry, setInt]
    rw [length_load] at inside
    by_cases field : i < 28
    · rw [store_outside (by simp only [numAt]; omega), store_at]
    · have number : uint32 (n : ℤ) = n := by
        rw [uint32]
        omega
      have position : dentryAt 0 j + i = numAt (dentryAt 0 j) + (i - 28 : ℕ) := by
        simp only [numAt]
        omega
      rw [position, store_at (by simp; omega)]
      simp only [number]
      rw [← fits.getElem (by rw [List.length_drop]; omega), List.getElem_drop]
      congr 1
      omega

/-- A name and a number have been put into an unused entry of a directory. -/
structure Inserted (L : Layout) (d d' : Disk) (s : Slot) (k : ℕ) (name : Name) (n : ℕ) : Prop where
  ordered : Ordered L d'
  dentry : (view L d').IsDentry s
  inside : k < L.blocks
  pointer : ptr ((view L d').inode s.n) s.i = L.block k
  front : ∀ i < s.i, ptr ((view L d).inode s.n) i ≠ 0
  pointers : ∀ i < indBlock, ptr ((view L d).inode s.n) i ≠ 0 →
    ptr ((view L d').inode s.n) i = ptr ((view L d).inode s.n) i
  bytes : ∀ x, L.dTable ≤ x → ¬ (dentryAt (L.block k) s.j ≤ x ∧ x < dentryAt (L.block k) s.j + 32) → d' x = d x
  compare : strcmpEq d' (dentryAt (L.block k) s.j) name = true
  number : d'.int (numAt (dentryAt (L.block k) s.j)) = n
  unused : d.int (numAt (dentryAt (L.block k) s.j)) = 0
  earlier : ∀ j < s.j, (view L d).IsDentry ⟨s.n, s.i, j⟩ ∧ (view L d).num L ⟨s.n, s.i, j⟩ ≠ 0
  fixed : ∀ x, ¬ Changeable L d s.n n x → d' x = d x

/-- In a block that the directory has. -/
theorem FreeSlot.inserted (slot : FreeSlot L (view L d) s k) (ordered : Ordered L d)
    (front : ∀ i < s.i, ptr ((view L d).inode s.n) i ≠ 0) (lowest : lowestClear (view L d).ibit L.inodes = some n)
    (fits : Fits name n) (short : name.length < 32) (env : Env) (mode : ℕ)
    (view_eq : view L d' = (view L d).create s.n k s.j name n (inodeBytes env n mode)) : Inserted L d d' s k name n := by
  obtain ⟨inside, fresh, _⟩ := lowestClear_eq_some lowest
  have small := slot.dentry.2.2.2.1
  have bound := L.inodes_lt
  have word : n < 2 ^ 31 := by
    rw [Layout.inodes] at inside
    omega
  have live : s.n < L.inodes := view_ibit_lt slot.dentry.1
  have page : (view L d').block k = putDentry ((view L d).block k) s.j name n := by rw [view_eq, create_block_self]
  have same := slot.samePointers fresh name env mode (slot.apart fresh).symm
  have pointers (i : ℕ) (below : i < indBlock) : ptr ((view L d').inode s.n) i = ptr ((view L d).inode s.n) i := by
    rw [view_eq]
    exact same.ptr i (by simp only [indBlock] at below; omega)
  have num (j : ℕ) (low : j < dentriesPerBlock) : (view L d).num L ⟨s.n, s.i, j⟩ = d.int
    (numAt (dentryAt (L.block k) j)) := by
    rw [Fs.num, Fs.page, slot.pointer, L.blockNo_block, int_dentry slot.inside low]
  refine ⟨⟨ordered.super.of_head (by rw [view_eq]; rfl), ?_⟩, ?_, slot.inside, ?_, front,
    fun i below _ => pointers i below,
    ?_, ?_, ?_, ?_, ?_, ?_⟩
  · rw [view_eq]
    exact slot.pointers_create fresh name env mode ordered.pointers
  · rw [view_eq]
    exact (slot.isDentry_create fresh name env mode s).mpr slot.dentry
  · rw [pointers s.i slot.dentry.2.2.1, slot.pointer]
  · intro x above outside
    obtain ⟨bitmap, table, _, _⟩ := L.tables
    refine slot.byte_eq short view_eq (by omega) ?_ outside
    rintro m (rfl | rfl) here
    · have range := Layout.inode_range live
      omega
    · have range := Layout.inode_range inside
      omega
  · rw [strcmpEq, beq_iff_eq, load_dentry slot.inside small (by omega), page]
    exact compare_putDentry fits short word
  · rw [int_dentry slot.inside small, page, dentryNum_putDentry, int32_eq (by omega) (by omega)]
  · rw [← num s.j small]
    exact slot.empty
  · intro j less
    exact ⟨⟨slot.dentry.1, slot.dentry.2.1, slot.dentry.2.2.1, less.trans small, slot.dentry.2.2.2.2⟩, slot.first j less⟩
  · intro x fixed
    obtain ⟨bitmap, table, _, _⟩ := L.tables
    refine slot.byte_eq short view_eq (fun here => fixed (.inl (by omega))) ?_ ?_
    · intro m which here
      exact fixed (.inr (.inl ⟨m, which, here⟩))
    · intro here
      rw [← slot.pointer] at here
      exact fixed (.inr (.inr (.inl ⟨s, slot.dentry, rfl, slot.empty, here⟩)))

/-- The new block of the directory was free. -/
private theorem Grown.changeable (grown : Grown L d d₁ s k) {x : ℤ} (change : Changeable L d₁ s.n n x) :
    Changeable L d s.n n x := by
  obtain ⟨inside, free, _⟩ := lowestClear_eq_some grown.lowest
  have view_eq := grown.view_eq
  rcases change with bitmap | inode | ⟨s', dentry, here, empty, range⟩ | ⟨m, small, unused, range⟩
  · exact .inl bitmap
  · exact .inr (.inl inode)
  · rw [view_eq] at dentry empty range
    rcases isDentry_of_point inside dentry with before | ⟨_, block, _⟩
    · have apart : s'.i ≠ s.i := by
        intro eq
        have set := before.2.2.2.2
        rw [here, eq] at set
        exact set grown.null
      rw [point_ptr_of_ne fun _ => apart] at range
      rw [Fs.num, (before.point grown.null).2] at empty
      exact .inr (.inr (.inl ⟨s', before, here, empty, range⟩))
    · have small := dentry.2.2.2.1
      simp only [dentriesPerBlock] at small
      rw [block, point_inode_self, ptr_setPtr_self, Layout.int64_block inside] at range
      simp only [dentryAt] at range
      exact .inr (.inr (.inr ⟨k, inside, free, by omega, by omega⟩))
  · refine .inr (.inr (.inr ⟨m, small, ?_, range⟩))
    rw [view_eq, point_dbit free] at unused
    by_cases eq : m = k
    · rw [eq]
      exact free
    · rwa [Function.update_of_ne eq] at unused

/-- In a block that the directory has got for it. -/
theorem Inserted.of_grown (inserted : Inserted L d₁ d' s k name n) (grown : Grown L d d₁ s k) :
    Inserted L d d' s k name n := by
  have inside := inserted.inside
  have same (x : ℤ) (above : L.dTable ≤ x) : d₁ x = d x := by
    have range := Layout.inode_range (view_ibit_lt inserted.dentry.1)
    obtain ⟨_, table, _, _⟩ := L.tables
    exact grown.byte_eq (by omega) (by omega)
  have pointers (i : ℕ) (ne : i ≠ s.i) : ptr ((view L d₁).inode s.n) i = ptr ((view L d).inode s.n) i := by
    rw [grown.view_eq]
    exact point_ptr_of_ne fun _ => ne
  have apart (i : ℕ) (set : ptr ((view L d).inode s.n) i ≠ 0) : i ≠ s.i := by
    rintro rfl
    exact set grown.null
  refine ⟨inserted.ordered, inserted.dentry, inside, inserted.pointer, grown.filled.set, ?_, ?_, inserted.compare,
    inserted.number, ?_, ?_, ?_⟩
  · intro i below set
    rw [inserted.pointers i below (by rw [pointers i (apart i set)]; exact set), pointers i (apart i set)]
  · intro x above outside
    rw [inserted.bytes x above outside, same x above]
  · have range := Layout.block_range inside
    rw [← inserted.unused]
    apply int_congr
    intro x above below
    rw [same x (by simp only [numAt, dentryAt] at above; omega)]
  · intro j less
    rw [grown.first] at less
    exact (Nat.not_lt_zero _ less).elim
  · intro x fixed
    rw [inserted.fixed x fun change => fixed (grown.changeable change)]
    refine grown.byte_eq (fun here => fixed (.inl ?_)) fun here => fixed (.inr (.inl ⟨s.n, .inl rfl, here⟩))
    obtain ⟨bitmap, _⟩ := L.tables
    omega

/-- A call that returns 0. -/
theorem WellFormed.inserted (wf : WellFormed L d) (absent : Absent L d path p) (type : ℕ) (env : Env) (mode : ℕ)
    (lowest : lowestClear (view L d).ibit L.inodes = some n) (fits : Fits (lastToken path) n)
    (short : (lastToken path).length < 32) (done : (Wfs.create type env d path mode).2 = 0) :
    ∃ s k, s.n = p ∧ Inserted L d (Wfs.create type env d path mode).1 s k (lastToken path) n := by
  rcases wf.ordered.create absent type env mode with ⟨result, _⟩ | ⟨d₁, s, k, slot, rfl, ordered, grown, result⟩
  · rw [result] at done
    cases done
  · rw [result] at done ⊢
    rcases ordered.super.fillDentry env (mode ||| type) (view_ibit_lt absent.live) slot.inside
      slot.dentry.2.2.2.1 short with
      ⟨_, failed⟩ | ⟨m, lowest₁, _, view_eq⟩
    · rw [failed] at done
      cases done
    · refine ⟨s, k, rfl, ?_⟩
      rcases grown with rfl | grown
      · obtain rfl : m = n := Option.some.inj (lowest₁.symm.trans lowest)
        refine slot.inserted ordered (fun i less => ?_) lowest fits short env _ view_eq
        exact wf.front s.n slot.dentry.1 slot.dentry.2.1 i s.i less slot.dentry.2.2.1 slot.dentry.2.2.2.2
      · have lowest' := lowest₁
        rw [grown.ibit] at lowest'
        obtain rfl : m = n := Option.some.inj (lowest'.symm.trans lowest)
        refine (slot.inserted ordered (fun i less => ?_) lowest₁ fits short env _ view_eq).of_grown grown
        rw [grown.view_eq, point_ptr_of_ne fun _ => less.ne]
        exact grown.filled.set i less

/-- Another entry in one of the blocks is what it was. -/
theorem Inserted.byte_eq (inserted : Inserted L d d' s k name n) {m j : ℕ}
    (other : dentryAt (L.block m) j ≠ dentryAt (L.block k) s.j) {x : ℤ} (above : dentryAt (L.block m) j ≤ x)
    (below : x < dentryAt (L.block m) j + 32) : d' x = d x := by
  apply inserted.bytes <;> simp only [dentryAt, Layout.block] at * <;> omega

private theorem Inserted.entry_eq (inserted : Inserted L d d' s k name n) (short : name.length < 32) {m j : ℕ}
    (other : dentryAt (L.block m) j ≠ dentryAt (L.block k) s.j) :
    strcmpEq d' (dentryAt (L.block m) j) name = strcmpEq d (dentryAt (L.block m) j) name ∧
      d'.int (numAt (dentryAt (L.block m) j)) = d.int (numAt (dentryAt (L.block m) j)) := by
  refine ⟨strcmpEq_congr fun x above below => inserted.byte_eq other above (by push_cast at below; omega),
    int_congr fun x above below => ?_⟩
  simp only [numAt] at above below
  exact inserted.byte_eq other (by omega) (by omega)

/-- A block is searched: what is found is the new entry, or nothing that was not found before. -/
theorem Inserted.findDentry (inserted : Inserted L d d' s k name n) (short : name.length < 32) (m : ℕ) :
    (findDentry d' (L.block m) name).1 = n ∨ (findDentry d' (L.block m) name).1 < 0 ∨
      findDentry d' (L.block m) name = Wfs.findDentry d (L.block m) name := by
  rcases findDentry_cases d' (L.block m) name with ⟨_, negative, _⟩ | ⟨j, inside, here, earlier, found⟩
  · exact .inr (.inl negative)
  · rw [found]
    by_cases new : dentryAt (L.block m) j = dentryAt (L.block k) s.j
    · left
      rw [new]
      exact inserted.number
    · right; right
      obtain ⟨same, number⟩ := inserted.entry_eq short new
      have before (l : ℕ) (less : l < j) : strcmpEq d (dentryAt (L.block m) l) name = false := by
        have other : dentryAt (L.block m) l ≠ dentryAt (L.block k) s.j := by
          intro eq
          have missed := earlier l less
          rw [eq, inserted.compare] at missed
          cases missed
        rw [← (inserted.entry_eq short other).1]
        exact earlier l less
      rw [same] at here
      rcases findDentry_cases d (L.block m) name with ⟨none, _⟩ | ⟨j', _, here', earlier', found'⟩
      · rw [none j inside] at here
        cases here
      · have eq : j' = j := by
          rcases lt_trichotomy j' j with less | eq | less
          · rw [before j' less] at here'
            cases here'
          · exact eq
          · rw [earlier' j less] at here
            cases here
        rw [found', eq, number]

/-- A search without success has found nothing in any of the blocks. -/
theorem Ordered.missed (ordered : Ordered L d) (live : (view L d).ibit p = true) (missing : searchDirectory d p name = -1)
    {i : ℕ} (small : i < indBlock) : (findDentry d (ptr ((view L d).inode p) i) name).1 ≤ 0 := by
  rw [← ordered.searched live small]
  rcases searchDirectory_cases d p name with ⟨_, none⟩ | ⟨_, _, _, positive, result⟩
  · exact none i small
  · omega

/-- No entry of the directory has a negative number. -/
def Signed (L : Layout) (fs : Fs) (p : ℕ) : Prop := ∀ s, fs.IsDentry s → s.n = p → 0 ≤ fs.num L s

/-- The block of the new entry is searched. -/
private theorem Inserted.findDentry_self (inserted : Inserted L d d' s k name n) (ordered : Ordered L d)
    (short : name.length < 32)
    (missing : searchDirectory d s.n name = -1) (signed : Signed L (view L d) s.n) :
    (Wfs.findDentry d' (L.block k) name).1 = n := by
  have small := inserted.dentry.2.2.2.1
  simp only [dentriesPerBlock] at small
  rcases findDentry_cases d' (L.block k) name with ⟨none, _⟩ | ⟨j, inside, here, earlier, found⟩
  · have missed := none s.j (by omega)
    rw [inserted.compare] at missed
    cases missed
  · rcases lt_trichotomy j s.j with less | eq | less
    · -- an entry before it is in use, so it would have been found before
      obtain ⟨dentry, used⟩ := inserted.earlier j less
      have positive := signed _ dentry rfl
      have pointer : ptr ((view L d).inode s.n) s.i = L.block k := by
        rw [← inserted.pointer, inserted.pointers s.i dentry.2.2.1 dentry.2.2.2.2]
      have low := ordered.missed dentry.1 missing dentry.2.2.1
      have number := ordered.number dentry
      dsimp only at low number
      rw [pointer] at low number
      have other : dentryAt (L.block k) j ≠ dentryAt (L.block k) s.j := by
        simp only [dentryAt]
        omega
      rw [← number, ← (inserted.entry_eq short other).2] at positive used
      rcases inserted.findDentry short k with new | negative | same
      · exact new
      · rw [found] at negative
        omega
      · rw [← same, found] at low
        dsimp only at low
        omega
    · rw [found, eq]
      exact inserted.number
    · have missed := earlier s.j less
      rw [inserted.compare] at missed
      cases missed

/-- The directory is searched for the new name. -/
theorem Inserted.search (inserted : Inserted L d d' s k name n) (ordered : Ordered L d) (short : name.length < 32)
    (missing : searchDirectory d s.n name = -1) (signed : Signed L (view L d) s.n) (live : (view L d).ibit s.n = true)
    (positive : 0 < n) : searchDirectory d' s.n name = n := by
  have self := inserted.findDentry_self ordered short missing signed
  have block := inserted.dentry.2.2.1
  rw [← inserted.pointer] at self
  rcases searchDirectory_cases d' s.n name with ⟨_, none⟩ | ⟨i, small, earlier, found, result⟩
  · have low := none s.i block
    rw [inserted.ordered.searched inserted.dentry.1 block, self] at low
    omega
  · have first : i ≤ s.i := by
      by_contra later
      have low := earlier s.i (by omega)
      rw [inserted.ordered.searched inserted.dentry.1 block, self] at low
      omega
    rw [inserted.ordered.searched inserted.dentry.1 small] at found result
    rw [result]
    by_cases here : i = s.i
    · rw [here, self]
    · have set := inserted.front i (by omega)
      have low := ordered.missed live missing small
      have same := inserted.pointers i small set
      obtain ⟨m, _, target⟩ := ordered.pointers.valid (.ptr s.n i) (by
        rw [Fs.target_ptr live (by simp only [indBlock] at small; omega)]
        exact set)
      rw [Fs.target_ptr live (by simp only [indBlock] at small; omega)] at target
      rw [same, target] at found ⊢
      rw [target] at low
      rcases inserted.findDentry short m with new | negative | old
      · exact new
      · omega
      · rw [old] at found
        omega

/-- What is listed. -/
theorem mem_listed {inode : ℤ} {e : Name × ℤ} : e ∈ listed d inode ↔ ∃ i < indBlock, d.long (blocksAt inode i) ≠ 0 ∧
    ∃ j < dentriesPerBlock, 0 < d.int (numAt (dentryAt (d.long (blocksAt inode i)) j)) ∧
      e = (nameString d (dentryAt (d.long (blocksAt inode i)) j),
      d.int (numAt (dentryAt (d.long (blocksAt inode i)) j))) := by
  simp only [listed, List.mem_flatMap, List.mem_range]
  refine exists_congr fun i => and_congr_right fun _ => ?_
  split_ifs with null
  · simp [null]
  · simp only [null, List.mem_map, List.mem_filter, List.mem_range, decide_eq_true_eq, not_false_eq_true, true_and, ne_eq,
      and_assoc, gt_iff_lt, eq_comm (b := e)]

/-- What was listed before is listed afterwards. -/
theorem Inserted.listed (inserted : Inserted L d d' s k name n) (ordered : Ordered L d)
    (live : (view L d).ibit s.n = true)
    {e : Name × ℤ} (before : e ∈ listed d (L.inode s.n)) : e ∈ Wfs.listed d' (L.inode s.n) := by
  rw [mem_listed] at before ⊢
  obtain ⟨i, small, set, j, low, used, rfl⟩ := before
  have below : i < 8 := by
    simp only [indBlock] at small
    omega
  have inside := view_ibit_lt live
  rw [long_blocksAt inside below] at set used ⊢
  have pointer : d'.long (blocksAt (L.inode s.n) i) = ptr ((view L d).inode s.n) i := by
    rw [long_blocksAt inside below, inserted.pointers i small set]
  obtain ⟨m, _, target⟩ := ordered.pointers.valid (.ptr s.n i) (by rw [Fs.target_ptr live below]; exact set)
  rw [Fs.target_ptr live below] at target
  rw [target] at used ⊢
  have other : dentryAt (L.block m) j ≠ dentryAt (L.block k) s.j := by
    intro eq
    rw [eq, inserted.unused] at used
    exact lt_irrefl 0 used
  have number : d'.int (numAt (dentryAt (L.block m) j)) = d.int (numAt (dentryAt (L.block m) j)) := by
    apply int_congr
    intro x above below
    simp only [numAt] at above below
    exact inserted.byte_eq other (by omega) (by omega)
  have name : nameString d' (dentryAt (L.block m) j) = nameString d (dentryAt (L.block m) j) := by
    rw [nameString, nameString]
    congr 1
    exact load_congr fun x above below => inserted.byte_eq other above (by push_cast at below; omega)
  refine ⟨i, small, by rw [pointer]; exact set, j, low, ?_, ?_⟩
  · rw [pointer, target, number]
    exact used
  · rw [pointer, target, number, name]

end Sufficient

/-- After a call the path leads to the new inode, and what was listed in the directory still is. -/
def Kept (L : Layout) (d d' : Disk) (path : Name) (p n : ℕ) : Prop :=
  (findInodeNumberByPath d' path).2 = n ∧ ∀ e ∈ listed d (L.inode p), e ∈ listed d' (L.inode p)

/-- The lookup of the directory reads nothing that creating a file in it may change. -/
def Steady (L : Layout) (d : Disk) (path : Name) (p n : ℕ) : Prop :=
  ∀ x, walkReads d x 0 (tokens path).dropLast → ¬ Changeable L d p n x

/-- The path leads by way of the directory to the new inode. -/
theorem Inserted.lookup (inserted : Inserted L d d' s k (lastToken path) n) (ordered : Ordered L d)
    (missing : Missing L d path s.n) (short : (lastToken path).length < 32) (steady : Steady L d path s.n n)
    (signed : Signed L (view L d) s.n) (positive : 0 < n) : findInodeNumberByPath d' path = (↑s.n, ↑n) := by
  have table : iBlocksPtr d' = iBlocksPtr d := by rw [inserted.ordered.super.iBlocksPtr_eq, ordered.super.iBlocksPtr_eq]
  have parent : (walk d' 0 0 (tokens path).dropLast).2 = s.n := by
    rw [walk_congr table _ 0 0 fun x reads => inserted.fixed x (steady x reads)]
    exact missing.parent
  have search := inserted.search ordered short missing.search signed missing.live positive
  rw [findInodeNumberByPath, missing.tokens_eq, walk_append _ _ _ _ _ (by rw [parent]; omega), parent, walk, search,
    if_neg (by omega), walk]

/-- The root directory is in use, so a free inode is another one. -/
theorem WellFormed.pos_of_free (wf : WellFormed L d) (lowest : lowestClear (view L d).ibit L.inodes = some n) :
    0 < n := by
  obtain ⟨inside, fresh, _⟩ := lowestClear_eq_some lowest
  refine Nat.pos_of_ne_zero ?_
  rintro rfl
  rw [(wf.ibit_iff 0 inside).mpr (.inl rfl)] at fresh
  cases fresh

/-- In a well-formed image, for a path whose first components name a live directory, when `mknod` has returned 0: if the
path then leads to the new inode, what its last component has beyond the 28 bytes of the field is what the number of
the inode begins with. The other way round, such a path leads to the new inode and the directory lists what it listed
before, as long as the lookup of the directory reads nothing that the call changes and no entry in it has a negative
number. -/
theorem mknod_kept_iff (wf : WellFormed L d) (missing : Missing L d path p) (clean : 0 ∉ path)
    (lowest : lowestClear (view L d).ibit L.inodes = some n) (made : wfsMknod env d path mode = some (d', 0)) :
    (Kept L d d' path p n → Fits (lastToken path) n) ∧
      (Steady L d path p n → Signed L (view L d) p → (Kept L d d' path p n ↔ Fits (lastToken path) n)) := by
  obtain ⟨_, eq⟩ := map_strcpyPath_eq_some.mp made
  have image : (create sIfreg env d path mode).1 = d' := congrArg Prod.fst eq
  have done : (create sIfreg env d path mode).2 = 0 := congrArg Prod.snd eq
  subst image
  obtain ⟨inside, fresh, _⟩ := lowestClear_eq_some lowest
  have bound := L.inodes_lt
  have small : n < 2 ^ 24 := by
    rw [Layout.inodes] at inside
    omega
  have positive := wf.pos_of_free lowest
  have needed (kept : Kept L d (create sIfreg env d path mode).1 path p n) : Fits (lastToken path) n :=
    missing.toAbsent.fits_of_lookup clean kept.1 positive small
  refine ⟨needed, fun steady signed => ⟨needed, fun fits => ?_⟩⟩
  have short := fits.short
  obtain ⟨s, k, rfl, inserted⟩ := wf.inserted missing.toAbsent sIfreg env mode lowest fits short done
  change Inserted L d (create sIfreg env d path mode).1 s k (lastToken path) n at inserted
  refine ⟨?_, fun e before => inserted.listed wf.ordered missing.live before⟩
  rw [inserted.lookup wf.ordered missing short steady signed positive]

/-- The entries of a directory, as a list. -/
private theorem signed_of_forall {fs : Fs} (all : ∀ i ∈ List.range indBlock, ∀ j ∈ List.range dentriesPerBlock,
    fs.IsDentry ⟨p, i, j⟩ → 0 ≤ fs.num L ⟨p, i, j⟩) : Signed L fs p := by
  rintro ⟨n, i, j⟩ dentry rfl
  exact all i (List.mem_range.mpr dentry.2.2.1) j (List.mem_range.mpr dentry.2.2.2.1) dentry

/-- A name of 28 letters and the byte 2 is found again as the name of inode 2. -/
theorem mknod_kept_two :
    ∃ d', wfsMknod ⟨5, 0, 0⟩ (image emptyFile) (47 :: List.replicate 28 97 ++ [2]) 0o644 = some (d', 0) ∧
      Kept smallLayout (image emptyFile) d' (47 :: List.replicate 28 97 ++ [2]) 0 2 := by
  have root : (tokens (47 :: List.replicate 28 97 ++ [2])).dropLast = [] := by decide +kernel
  have missing : Missing smallLayout (image emptyFile) (47 :: List.replicate 28 97 ++ [2]) 0 :=
    ⟨⟨by decide +kernel, by decide +kernel, by decide +kernel⟩, by decide +kernel⟩
  have made : wfsMknod ⟨5, 0, 0⟩ (image emptyFile) (47 :: List.replicate 28 97 ++ [2]) 0o644 =
      some ((create sIfreg ⟨5, 0, 0⟩ (image emptyFile) (47 :: List.replicate 28 97 ++ [2]) 0o644).1, 0) :=
    map_strcpyPath_eq_some.mpr ⟨by decide, Prod.ext rfl (by decide +kernel)⟩
  refine ⟨_, made, ((mknod_kept_iff emptyFile_wellFormed missing (by decide) (by decide +kernel) made).2
    (fun x reads => ?_) (signed_of_forall (by decide +kernel))).mpr (by decide +kernel)⟩
  rw [root] at reads
  exact reads.elim

/-- After `mknod` of a name of 28 letters the path leads nowhere. -/
theorem mknod_lost : ∃ (L : Layout) (d d' : Disk) (path : Name) (p n : ℕ), WellFormed L d ∧ Missing L d path p ∧
    0 ∉ path ∧ path.length < tmpPath ∧ lowestClear (view L d).ibit L.inodes = some n ∧
    wfsMknod ⟨5, 0, 0⟩ d path 0o644 = some (d', 0) ∧ (findInodeNumberByPath d' path).2 = -1 := by
  refine ⟨smallLayout, image emptyFile, _, 47 :: List.replicate 28 97, 0, 2, emptyFile_wellFormed,
    ⟨⟨by decide +kernel, by decide +kernel, by decide +kernel⟩, by decide +kernel⟩, by decide, by decide,
    by decide +kernel, map_strcpyPath_eq_some.mpr ⟨by decide, Prod.ext rfl ?_⟩, ?_⟩
  · decide +kernel
  · decide +kernel

end Cs537.Wfs
