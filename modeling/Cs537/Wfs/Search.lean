import Cs537.Wfs.Directory

/-! # What a search in a directory finds

`find_dentry` gives the number of the first entry with the name, the search in a directory the first
number that is positive. In a directory whose unused entries are empty, a search cannot miss an entry in
use: in its own block nothing before it can have the name.
-/

namespace Cs537.Wfs

open Lib Memory

variable {L : Layout} {d : Disk} {fs : Fs} {name : Name} {offset : ℤ} {n p k j : ℕ} {s : Slot}

/-- The string at the start of some bytes. -/
theorem takeWhile_eq_iff {bytes : List UInt8} (short : name.length < bytes.length) (clean : 0 ∉ name) :
    bytes.takeWhile (· ≠ 0) = name ↔ bytes.take (name.length + 1) = name ++ [0] := by
  induction name generalizing bytes with
  | nil =>
    cases bytes with
    | nil => simp at short
    | cons b bytes => by_cases zero : b = 0 <;> simp [zero]
  | cons c name ih =>
    cases bytes with
    | nil => simp at short
    | cons b bytes =>
      simp only [List.mem_cons, not_or] at clean
      simp only [List.length_cons, Nat.add_lt_add_iff_right] at short
      by_cases zero : b = 0
      · subst zero
        simp [clean.1]
      · simp only [List.length_cons, List.take_succ_cons, List.cons_append, List.cons.injEq]
        rw [List.takeWhile_cons_of_pos (by simpa using zero), List.cons.injEq, ih short clean.2]

theorem take_load (m : Memory) (a : ℤ) {count len : ℕ} (fits : count ≤ len) :
    (m.load a len).take count = m.load a count := by
  apply List.ext_getElem
  · simp [fits]
  · intro i inside inside'
    rw [List.getElem_take, getElem_load, getElem_load]

/-- A stretch of an entry, read in its block. -/
theorem load_dentry (inside : k < L.blocks) (small : j < dentriesPerBlock) {count : ℕ} (fits : count ≤ 32) :
    d.load (dentryAt (L.block k) j) count = ((view L d).block k).load (dentryAt 0 j) count := by
  apply List.ext_getElem
  · simp
  · intro i here _
    rw [length_load] at here
    rw [getElem_load, getElem_load]
    simp only [dentriesPerBlock] at small
    have byte := byte_block (L := L) (d := d) (k := k) inside (o := 32 * j + i) (by omega) (by omega)
    simp only [dentryAt]
    rw [zero_add, ← byte]
    congr 1
    ring

/-- Comparing with a name that fits compares with the name of the entry. -/
theorem strcmpEq_iff (inside : k < L.blocks) (small : j < dentriesPerBlock) (short : name.length ≤ 27)
    (clean : 0 ∉ name) :
    strcmpEq d (dentryAt (L.block k) j) name = true ↔ dentryName ((view L d).block k) j = name := by
  rw [strcmpEq, beq_iff_eq, load_dentry inside small (by omega), dentryName,
    takeWhile_eq_iff (by rw [length_load]; omega) clean, take_load _ _ (by omega)]

section Find

private theorem findDentryLoop_cases (d : Disk) (offset : ℤ) (name : Name) (fuel i : ℕ) (found : Bool) :
    ((∀ j, i ≤ j → j < i + fuel → strcmpEq d (dentryAt offset j) name = false) ∧
        (findDentryLoop d offset name fuel i found).1 < 0 ∧ (findDentryLoop d offset name fuel i found).2 = none) ∨
      ∃ j, i ≤ j ∧ j < i + fuel ∧ strcmpEq d (dentryAt offset j) name = true ∧
        (∀ l, i ≤ l → l < j → strcmpEq d (dentryAt offset l) name = false) ∧
        findDentryLoop d offset name fuel i found = (d.int (numAt (dentryAt offset j)), some j) := by
  induction fuel generalizing i found with
  | zero =>
    left
    refine ⟨fun j low high => by omega, ?_, rfl⟩
    rw [findDentryLoop]
    split_ifs <;> decide
  | succ fuel ih =>
    rw [findDentryLoop]
    split_ifs with here
    · exact .inr ⟨i, le_rfl, by omega, here, fun l low high => by omega, rfl⟩
    · have first : strcmpEq d (dentryAt offset i) name = false := Bool.eq_false_of_not_eq_true here
      rcases ih (i + 1) (found || decide (d.int (numAt (dentryAt offset i)) > 0)) with
        ⟨misses, result⟩ | ⟨j, low, high, matches_, earlier, result⟩
      · left
        refine ⟨fun j low high => ?_, result⟩
        by_cases eq : j = i
        · rw [eq]
          exact first
        · exact misses j (by omega) (by omega)
      · right
        refine ⟨j, by omega, by omega, matches_, fun l low' high' => ?_, result⟩
        by_cases eq : l = i
        · rw [eq]
          exact first
        · exact earlier l (by omega) high'

/-- `find_dentry` gives a negative number, or the number of the first entry with the name. -/
theorem findDentry_cases (d : Disk) (offset : ℤ) (name : Name) :
    ((∀ j < 32, strcmpEq d (dentryAt offset j) name = false) ∧ (findDentry d offset name).1 < 0 ∧
        (findDentry d offset name).2 = none) ∨
      ∃ j < 32, strcmpEq d (dentryAt offset j) name = true ∧
        (∀ l < j, strcmpEq d (dentryAt offset l) name = false) ∧
        findDentry d offset name = (d.int (numAt (dentryAt offset j)), some j) := by
  rcases findDentryLoop_cases d offset name 32 0 false with ⟨misses, result⟩ | ⟨j, _, high, here, earlier, result⟩
  · exact .inl ⟨fun j small => misses j (Nat.zero_le j) (by omega), result⟩
  · exact .inr ⟨j, by omega, here, fun l less => earlier l (Nat.zero_le l) less, result⟩

private theorem searchBlocks_cases (d : Disk) (inode : ℤ) (name : Name) (fuel i : ℕ) :
    (searchBlocks d inode name fuel i = -1 ∧
        ∀ j, i ≤ j → j < i + fuel → (findDentry d (d.long (blocksAt inode j)) name).1 ≤ 0) ∨
      ∃ j, i ≤ j ∧ j < i + fuel ∧ (∀ l, i ≤ l → l < j → (findDentry d (d.long (blocksAt inode l)) name).1 ≤ 0) ∧
        0 < (findDentry d (d.long (blocksAt inode j)) name).1 ∧
        searchBlocks d inode name fuel i = (findDentry d (d.long (blocksAt inode j)) name).1 := by
  induction fuel generalizing i with
  | zero => exact .inl ⟨rfl, fun j low high => by omega⟩
  | succ fuel ih =>
    simp only [searchBlocks]
    split_ifs with here
    · exact .inr ⟨i, le_rfl, by omega, fun l low high => by omega, here, rfl⟩
    · rcases ih (i + 1) with ⟨result, misses⟩ | ⟨j, low, high, earlier, positive, result⟩
      · left
        refine ⟨result, fun j low high => ?_⟩
        by_cases eq : j = i
        · rw [eq]
          exact not_lt.mp here
        · exact misses j (by omega) (by omega)
      · right
        refine ⟨j, by omega, by omega, fun l low' high' => ?_, positive, result⟩
        by_cases eq : l = i
        · rw [eq]
          exact not_lt.mp here
        · exact earlier l (by omega) high'

/-- A search gives -1, or the number from the first block where it is positive. -/
theorem searchDirectory_cases (d : Disk) (n : ℤ) (name : Name) :
    (searchDirectory d n name = -1 ∧
        ∀ i < indBlock, (findDentry d (d.long (blocksAt (inodeAt d n) i)) name).1 ≤ 0) ∨
      ∃ i < indBlock, (∀ l < i, (findDentry d (d.long (blocksAt (inodeAt d n) l)) name).1 ≤ 0) ∧
        0 < (findDentry d (d.long (blocksAt (inodeAt d n) i)) name).1 ∧
        searchDirectory d n name = (findDentry d (d.long (blocksAt (inodeAt d n) i)) name).1 := by
  rcases searchBlocks_cases d (inodeAt d n) name indBlock 0 with ⟨result, misses⟩
    | ⟨j, _, high, earlier, positive, result⟩
  · exact .inl ⟨result, fun i small => misses i (Nat.zero_le i) (by omega)⟩
  · exact .inr ⟨j, by omega, fun l less => earlier l (Nat.zero_le l) less, positive, result⟩

end Find

section Directory

/-- The pointers of a live inode, as a search reads them. -/
theorem Ordered.searched (ordered : Ordered L d) (live : (view L d).ibit n = true) {i : ℕ} (small : i < indBlock) :
    d.long (blocksAt (inodeAt d n) i) = ptr ((view L d).inode n) i := by
  simp only [indBlock] at small
  rw [ordered.super.inodeAt_eq (view_ibit_lt live), long_blocksAt (view_ibit_lt live) (by omega)]

/-- The number of an entry, as a search reads it. -/
theorem Ordered.number (ordered : Ordered L d) (dentry : (view L d).IsDentry s) :
    d.int (numAt (dentryAt (ptr ((view L d).inode s.n) s.i) s.j)) = (view L d).num L s := by
  obtain ⟨k, inside, _, pointer, page⟩ := ordered.pointers.page_eq dentry
  rw [Fs.num, page, pointer, int_dentry inside dentry.2.2.2.1]

/-- A search does not miss an entry in use: entries before it in its block that are not in use are empty. -/
theorem Tree.search_ne (tree : Tree L (view L d)) (ordered : Ordered L d) (short : name.length ≤ 27) (clean : 0 ∉ name)
    (some : name ≠ []) (live : (view L d).LiveDentry L s) (here : (view L d).name L s = name) :
    searchDirectory d s.n name ≠ -1 := by
  obtain ⟨dentry, positive⟩ := live
  obtain ⟨k, inside, _, pointer, page⟩ := ordered.pointers.page_eq dentry
  obtain ⟨alive, dir, block, small, _⟩ := dentry
  have address : d.long (blocksAt (inodeAt d s.n) s.i) = L.block k := by
    rw [ordered.super.inodeAt_eq (view_ibit_lt alive),
      long_blocksAt (view_ibit_lt alive) (by simp only [indBlock] at block; omega), pointer]
  intro missing
  rcases searchDirectory_cases d s.n name with ⟨_, misses⟩ | ⟨i, _, _, found, result⟩
  · have low := misses s.i block
    rw [address] at low
    rw [Fs.name, page] at here
    have match_here := (strcmpEq_iff (d := d) inside small short clean).mpr here
    rcases findDentry_cases d (L.block k) name with ⟨none, _⟩ | ⟨j, _, match_j, earlier, result⟩
    · rw [none s.j (by simp only [dentriesPerBlock] at small; omega)] at match_here
      cases match_here
    · have first : j ≤ s.j := by
        by_contra later
        rw [earlier s.j (by omega)] at match_here
        cases match_here
      have small' : j < dentriesPerBlock := by omega
      have slot : (view L d).IsDentry ⟨s.n, s.i, j⟩ :=
        ⟨alive, dir, block, small', by rw [pointer]; exact L.block_ne_zero k⟩
      have same : (view L d).page L ⟨s.n, s.i, j⟩ = (view L d).block k := page
      rw [result] at low
      change d.int (numAt (dentryAt (L.block k) j)) ≤ 0 at low
      rw [int_dentry inside small'] at low
      have named := (strcmpEq_iff inside small' short clean).mp match_j
      rcases tree.blank _ slot with used | ⟨_, empty⟩
      · rw [Fs.num, same] at used
        exact absurd used (not_lt.mpr low)
      · rw [Fs.name, same, named] at empty
        exact some empty
  · rw [result] at missing
    omega

end Directory

section Walk

/-- Once its first part has been found, a path is walked from there. -/
theorem walk_append (d : Disk) (front back : List Name) (prev curr : ℤ) (found : (walk d prev curr front).2 ≠ -1) :
    walk d prev curr (front ++ back) = walk d (walk d prev curr front).1 (walk d prev curr front).2 back := by
  induction front generalizing prev curr with
  | nil => rfl
  | cons c front ih =>
    rw [walk] at found
    rw [List.cons_append, walk, walk]
    split_ifs with missing
    · simp [missing] at found
    · rw [if_neg missing] at found
      exact ih curr _ found

/-- The directory that the path without its last component leads to. -/
def parentOf (d : Disk) (path : Name) : ℤ := (walk d 0 0 (tokens path).dropLast).2

/-- A path that is looked up without success; the search has ended in a live directory. -/
structure Absent (L : Layout) (d : Disk) (path : Name) (p : ℕ) : Prop where
  lookup : findInodeNumberByPath d path = (↑p, -1)
  live : (view L d).ibit p = true
  dir : isDir ((view L d).inode p) = true

/-- A path that is looked up without success in a live directory, the one its first components name. -/
structure Missing (L : Layout) (d : Disk) (path : Name) (p : ℕ) : Prop extends Absent L d path p where
  parent : parentOf d path = p

theorem Absent.tokens_eq {path : Name} (absent : Absent L d path p) :
    tokens path = (tokens path).dropLast ++ [lastToken path] := by
  have nonempty : tokens path ≠ [] := by
    intro empty
    have lookup := absent.lookup
    rw [findInodeNumberByPath, empty, walk] at lookup
    cases lookup
  rw [lastToken, List.getLastD_eq_getLast?, List.getLast?_eq_getLast_of_ne_nil nonempty, Option.getD_some,
    List.dropLast_append_getLast]

theorem Missing.search {path : Name} (missing : Missing L d path p) : searchDirectory d p (lastToken path) = -1 := by
  have parent := missing.parent
  have lookup := missing.lookup
  rw [parentOf] at parent
  rw [findInodeNumberByPath, missing.tokens_eq, walk_append _ _ _ _ _ (by rw [parent]; omega), parent, walk] at lookup
  by_contra found
  rw [if_neg found, walk] at lookup
  exact found (Prod.mk.inj lookup).2

private theorem mem_of_mem_splitOnP {p : UInt8 → Bool} {path part : Name} (member : part ∈ path.splitOnP p) {c : UInt8}
    (inside : c ∈ part) : c ∈ path := by
  induction path generalizing part with
  | nil =>
    rw [List.splitOnP_nil, List.mem_singleton] at member
    rwa [member] at inside
  | cons b path ih =>
    rw [List.splitOnP_cons_eq_if_modifyHead] at member
    split_ifs at member
    · rcases List.mem_cons.mp member with rfl | later
      · cases inside
      · exact List.mem_cons_of_mem b (ih later inside)
    · cases parts : path.splitOnP p with
      | nil => exact absurd parts (List.splitOnP_ne_nil p path)
      | cons first rest =>
        rw [parts, List.modifyHead_cons, List.mem_cons] at member
        rcases member with rfl | later
        · rcases List.mem_cons.mp inside with rfl | tail
          · exact List.mem_cons_self
          · exact List.mem_cons_of_mem b (ih (by rw [parts]; exact List.mem_cons_self) tail)
        · exact List.mem_cons_of_mem b (ih (by rw [parts]; exact List.mem_cons_of_mem _ later) inside)

/-- A component of a path is not empty, and has no null byte if the path has none. -/
theorem tokens_clean {path : Name} (member : name ∈ tokens path) (clean : 0 ∉ path) : name ≠ [] ∧ 0 ∉ name := by
  simp only [tokens, List.mem_filter, decide_eq_true_eq] at member
  exact ⟨member.2, fun null => clean (mem_of_mem_splitOnP member.1 null)⟩

theorem Absent.lastToken_mem {path : Name} (absent : Absent L d path p) : lastToken path ∈ tokens path := by
  rw [absent.tokens_eq]
  exact List.mem_append_right _ List.mem_cons_self

end Walk

end Cs537.Wfs
