import Cs537.Wfs.Write

/-! # What a path lookup reads

`find_dentry` looks at up to 32 entries from the start of a block, twice as many as a block has, so a
lookup may read bytes that belong to something else. The result depends on the bytes it reads and on
nothing else; a step that changes none of them leaves the result as it is.
-/

namespace Cs537.Wfs

open Lib Memory

/-- The bytes of an entry that are compared or returned. -/
def dentryReads (offset : ℤ) (j : ℕ) (name : Name) (x : ℤ) : Prop :=
  dentryAt offset j ≤ x ∧ x < dentryAt offset j + max 32 (name.length + 1 : ℕ)

/-- The bytes `find_dentry` reads: the entries up to the first match. -/
def findDentryReads (d : Disk) (offset : ℤ) (name : Name) (x : ℤ) : Prop :=
  ∃ j < 32, (∀ i < j, strcmpEq d (dentryAt offset i) name = false) ∧ dentryReads offset j name x

/-- The bytes a search in a directory reads: the blocks up to the first that has the name. -/
def searchReads (d : Disk) (inode : ℤ) (name : Name) (x : ℤ) : Prop :=
  ∃ i < indBlock, (∀ j < i, (findDentry d (d.long (blocksAt inode j)) name).1 ≤ 0) ∧
    (blocksAt inode i ≤ x ∧ x < blocksAt inode i + 8 ∨ findDentryReads d (d.long (blocksAt inode i)) name x)

/-- The bytes the walk along a path reads. -/
def walkReads (d : Disk) (x : ℤ) : ℤ → List Name → Prop
  | _, [] => False
  | curr, name :: rest => searchReads d (inodeAt d curr) name x ∨
      searchDirectory d curr name ≠ -1 ∧ walkReads d x (searchDirectory d curr name) rest

/-- The bytes `find_inode_number_by_path` reads. -/
def lookupReads (d : Disk) (path : Name) (x : ℤ) : Prop := 32 ≤ x ∧ x < 40 ∨ walkReads d x 0 (tokens path)

variable {d d' : Disk} {name : Name} {offset inode : ℤ}

theorem strcmpEq_congr {a : ℤ} (same : ∀ x, a ≤ x → x < a + (name.length + 1 : ℕ) → d' x = d x) :
    strcmpEq d' a name = strcmpEq d a name := by
  rw [strcmpEq, strcmpEq, load_congr same]

private theorem findDentryLoop_congr (fuel i : ℕ) (found : Bool)
    (same : ∀ j, i ≤ j → j < i + fuel → (∀ k, i ≤ k → k < j → strcmpEq d (dentryAt offset k) name = false) →
      ∀ x, dentryReads offset j name x → d' x = d x) :
    findDentryLoop d' offset name fuel i found = findDentryLoop d offset name fuel i found := by
  induction fuel generalizing i found with
  | zero => rfl
  | succ fuel ih =>
    have here := same i le_rfl (by omega) (fun k low high => by omega)
    have eq : strcmpEq d' (dentryAt offset i) name = strcmpEq d (dentryAt offset i) name :=
      strcmpEq_congr fun x low high => here x ⟨low, by omega⟩
    have num : d'.int (numAt (dentryAt offset i)) = d.int (numAt (dentryAt offset i)) :=
      int_congr fun x low high => here x ⟨by simp only [numAt] at low; omega, by simp only [numAt] at high; omega⟩
    rw [findDentryLoop, findDentryLoop, eq, num]
    split_ifs with match_here
    · rfl
    · apply ih
      intro j low high none x
      refine same j (by omega) (by omega) ?_ x
      intro k low' high'
      by_cases first : k = i
      · rw [first]
        exact Bool.eq_false_of_not_eq_true match_here
      · exact none k (by omega) high'

private theorem findDentry_congr (same : ∀ x, findDentryReads d offset name x → d' x = d x) :
    findDentry d' offset name = findDentry d offset name := by
  apply findDentryLoop_congr
  intro j _ high none x reads
  exact same x ⟨j, by omega, fun i small => none i (Nat.zero_le i) small, reads⟩

private theorem searchBlocks_congr (fuel i : ℕ)
    (same : ∀ j, i ≤ j → j < i + fuel → (∀ k, i ≤ k → k < j → (findDentry d (d.long (blocksAt inode k)) name).1 ≤ 0) →
      ∀ x, blocksAt inode j ≤ x ∧ x < blocksAt inode j + 8 ∨ findDentryReads d (d.long (blocksAt inode j)) name x →
        d' x = d x) :
    searchBlocks d' inode name fuel i = searchBlocks d inode name fuel i := by
  induction fuel generalizing i with
  | zero => rfl
  | succ fuel ih =>
    have here := same i le_rfl (by omega) (fun k low high => by omega)
    have pointer : d'.long (blocksAt inode i) = d.long (blocksAt inode i) :=
      long_congr fun x low high => here x (.inl ⟨low, high⟩)
    have search : findDentry d' (d.long (blocksAt inode i)) name = findDentry d (d.long (blocksAt inode i)) name :=
      findDentry_congr fun x reads => here x (.inr reads)
    simp only [searchBlocks, pointer, search]
    split_ifs with found
    · rfl
    · apply ih
      intro j low high none
      refine same j (by omega) (by omega) ?_
      intro k low' high'
      by_cases first : k = i
      · rw [first]
        exact not_lt.mp found
      · exact none k (by omega) high'

private theorem searchBlocks_congr_of_reads (same : ∀ x, searchReads d inode name x → d' x = d x) :
    searchBlocks d' inode name indBlock 0 = searchBlocks d inode name indBlock 0 := by
  apply searchBlocks_congr
  intro j _ high none x reads
  exact same x ⟨j, by omega, fun k small => none k (Nat.zero_le k) small, reads⟩

theorem walk_congr (table : iBlocksPtr d' = iBlocksPtr d) (rest : List Name) (prev curr : ℤ)
    (same : ∀ x, walkReads d x curr rest → d' x = d x) : walk d' prev curr rest = walk d prev curr rest := by
  induction rest generalizing prev curr with
  | nil => rfl
  | cons name rest ih =>
    have search : searchDirectory d' curr name = searchDirectory d curr name := by
      have address : inodeAt d' curr = inodeAt d curr := by rw [inodeAt, inodeAt, table]
      rw [searchDirectory, searchDirectory, address]
      exact searchBlocks_congr_of_reads fun x reads => same x (.inl reads)
    simp only [walk, search]
    split_ifs with missing
    · rfl
    · exact ih curr _ fun x reads => same x (.inr ⟨missing, reads⟩)

/-- The lookup depends on the bytes it reads. -/
private theorem lookup_congr {path : Name} (same : ∀ x, lookupReads d path x → d' x = d x) :
    findInodeNumberByPath d' path = findInodeNumberByPath d path := by
  apply walk_congr
  · exact long_congr fun x low high => same x (.inl ⟨low, high⟩)
  · intro x reads
    exact same x (.inr reads)

section Mutable

variable {L : Layout} {n : ℕ}

/-- What writing to a file may change: its inode, the data bitmap, its blocks and free blocks. -/
def Mutable (L : Layout) (d : Disk) (n : ℕ) (x : ℤ) : Prop :=
  (L.inode n ≤ x ∧ x < L.inode n + 512) ∨ (L.dBitmap ≤ x ∧ x < L.iTable) ∨
    ∃ k < L.blocks, (L.block k ≤ x ∧ x < L.block k + 512) ∧
      ((view L d).dbit k = false ∨ ∃ r : Ref, r.owner = n ∧ (view L d).target L r = L.block k)

theorem FileStep.byte_eq (step : FileStep L n (view L d) (view L d')) {x : ℤ} (fixed : ¬ Mutable L d n x) :
    d' x = d x := by
  rcases L.parts x with outside | ⟨low, high⟩ | ⟨low, high⟩ | bitmap | ⟨m, inside, low, high⟩ | ⟨k, inside, low, high⟩
  · exact byte_of_tail step.tail outside
  · exact byte_of_head step.head low high
  · exact byte_of_ibit step.ibit low high
  · exact (fixed (.inr (.inl bitmap))).elim
  · refine byte_of_inode inside (step.inode m ?_) low high
    rintro rfl
    exact fixed (.inl ⟨low, high⟩)
  · refine byte_of_block inside (step.block k ?_ ?_) low high
    · by_contra free
      exact fixed (.inr (.inr ⟨k, inside, ⟨low, high⟩, .inl (Bool.eq_false_of_not_eq_true free)⟩))
    · intro r owner target
      exact fixed (.inr (.inr ⟨k, inside, ⟨low, high⟩, .inr ⟨r, owner, target⟩⟩))

/-- A lookup that reads nothing a write may change finds the same afterwards. -/
theorem FileStep.lookup_eq {path : Name} (step : FileStep L n (view L d) (view L d'))
    (fixed : ∀ x, lookupReads d path x → ¬ Mutable L d n x) :
    findInodeNumberByPath d' path = findInodeNumberByPath d path :=
  lookup_congr fun x reads => step.byte_eq (fixed x reads)

end Mutable

end Cs537.Wfs
