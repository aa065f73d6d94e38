import Cs537.Lib.Machine
import Cs537.Wfs.Mkfs
import Cs537.Wfs.Write

/-! # The file system as a machine

A run of the file system starts from an image that `mkfs` has made and performs one call after the other.
The image that `mkfs` makes has a root without blocks and nothing else.
-/

namespace Cs537.Wfs

open Lib Memory

/-- A call of one of the operations, with its arguments. -/
inductive Call where
  | mknod (env : Env) (path : Name) (mode : ℕ)
  | mkdir (env : Env) (path : Name) (mode : ℕ)
  | unlink (env : Env) (path : Name)
  | rmdir (env : Env) (path : Name)
  | read (env : Env) (path : Name) (size offset : ℕ)
  | write (env : Env) (path : Name) (buf : List UInt8) (offset : ℕ)
deriving DecidableEq, Repr

/-- The path that a call is about. -/
def Call.path : Call → Name
  | mknod _ path _ | mkdir _ path _ | unlink _ path | rmdir _ path | read _ path _ _ | write _ path _ _ => path

/-- The image after a call, and what the call returns. -/
def Call.perform (d : Disk) : Call → Option (Disk × ℤ)
  | mknod env path mode => wfsMknod env d path mode
  | mkdir env path mode => wfsMkdir env d path mode
  | unlink env path => wfsUnlink env d path
  | rmdir env path => wfsRmdir env d path
  | read env path size offset => (wfsRead env d path size offset).map fun r => (r.1, r.2.1)
  | write env path buf offset => wfsWrite env d path buf offset

/-- The same for a call whose path fits. -/
def Call.onPath (d : Disk) : Call → Disk × ℤ
  | mknod env path mode => create sIfreg env d path mode
  | mkdir env path mode => create sIfdir env d path mode
  | unlink env path => unlinkPath env d path
  | rmdir env path => rmdirPath env d path
  | read env path size offset => ((readPath env d path size offset).1, (readPath env d path size offset).2.1)
  | write env path buf offset => writePath env d path buf offset

/-- A call has an outcome exactly when its path fits. -/
private theorem Call.perform_eq_some {d : Disk} {call : Call} {r : Disk × ℤ} :
    call.perform d = some r ↔ call.path.length < tmpPath ∧ call.onPath d = r := by
  cases call with
  | read env path size offset =>
    rw [perform, wfsRead, Option.map_map]
    exact map_strcpyPath_eq_some
  | _ => exact map_strcpyPath_eq_some

/-- The file system, started on certain images. -/
def fileSystem (init : Disk → Prop) : Machine Disk Call where
  init := init
  step d call := (call.perform d).map Prod.fst

theorem fileSystem_step {init : Disk → Prop} {d d' : Disk} {call : Call} :
    (fileSystem init).step d call = some d' ↔ call.path.length < tmpPath ∧ (call.onPath d).1 = d' := by
  simp only [fileSystem, Option.map_eq_some_iff, Call.perform_eq_some]
  constructor
  · rintro ⟨_, ⟨short, rfl⟩, rfl⟩
    exact ⟨short, rfl⟩
  · rintro ⟨short, rfl⟩
    exact ⟨_, ⟨short, rfl⟩, rfl⟩

/-- An image that `mkfs` has made with the counts of a layout. -/
def Made (L : Layout) (d : Disk) : Prop :=
  ∃ (env : Env) (old : Disk) (imageSize : ℕ) (i b : ℤ), mkfs env old imageSize i b = some d ∧ i < 2 ^ 31 ∧ b < 2 ^ 31 ∧
    imageSize < 2 ^ 63 ∧ numInodes d = L.inodes ∧ numDataBlocks d = L.blocks

section Fresh

variable {L : Layout} {d : Disk} {env : Env} {i b x : ℤ}

private theorem superblock_zero (old : Disk) {size : ℕ} (i b : ℤ) (ib db is : ℕ) (above : 48 ≤ x) (below : x < size) :
    superblock old size i b ib db is x = 0 := by
  simp only [superblock, setLong]
  simp (disch := (simp only [length_leBytes]; omega)) only [store_outside]
  rw [memsetZero, store_inside (by omega) (by rw [List.length_replicate]; omega), List.getD_eq_getElem?_getD]
  by_cases inside : (x - 0).toNat < size <;> simp

/-- The bytes behind the superblock. -/
structure Blank (L : Layout) (d : Disk) : Prop where
  super : Super L d
  bitmap : d.le 48 4 = 1
  zero : ∀ x, 52 ≤ x → x < L.size → (x < L.inode 0 ∨ L.inode 0 + 56 ≤ x) → d x = 0

/-- The counts of a layout do not wrap. -/
theorem Count.layout {rows : ℕ} (count : Count i) (small : 32 * rows < 2 ^ 22) (number : uint64 (roundUp i) = 32 * rows) :
    bitmapBytes i = 4 * rows ∧ tableBytes i = 512 * (32 * rows) := by
  rcases count with ⟨positive, _, rounded, bitmap, q, table, _, _⟩ | ⟨_, rounded, _, _⟩
  · have value : (uint64 (roundUp i) : ℤ) = roundUp i := uint64_eq (by omega) (by omega)
    omega
  · rw [rounded] at number
    unfold uint64 at number
    omega

/-- The image that `mkfs` makes: zeros behind the superblock, the root inode, and its bit. -/
theorem Made.image (made : Made L d) : ∃ env clear, d = (rootInode env clear (L.inode 0)).store 48 (leBytes 4 1) ∧
    (∀ x, 48 ≤ x → x < L.size → clear x = 0) ∧ Super L d := by
  obtain ⟨env, old, imageSize, i, b, made, word, word', offsets, inodes, blocks⟩ := made
  obtain ⟨positive, positive', _, eq⟩ := mkfs_some made
  obtain ⟨head, low, _⟩ := mkfs_head made word word' offsets
  have numbers := head.numInodes_eq.symm.trans inodes
  have numbers' := head.numDataBlocks_eq.symm.trans blocks
  obtain ⟨bitmap, table⟩ := (count_of_int positive word).layout L.inodes_lt numbers
  obtain ⟨bitmap', table'⟩ := (count_of_int positive' word').layout L.blocks_lt numbers'
  have root : L.inode 0 = 48 + bitmapBytes i + bitmapBytes b := by
    rw [Layout.inode, Layout.iTable, Layout.dBitmap, bitmap, bitmap']
    simp
  have size : totalBytes i b = L.size := by
    rw [totalBytes, bitmap, bitmap', table, table', Layout.size, Layout.dTable, Layout.iTable, Layout.dBitmap,
      Layout.inodes, Layout.blocks]
    push_cast
    ring
  have bounds := L.inodes_lt
  have bounds' := L.blocks_lt
  have rows := L.inodeRows_pos
  have total : (uint64 (totalBytes i b) : ℤ) = L.size := by
    rw [uint64_eq low (by omega), size]
  have fresh := superblock_head old (uint64 (totalBytes i b)) (roundUp i) (roundUp b) (x := bitmapBytes i)
    (y := bitmapBytes b) (z := tableBytes i) (by omega) (by omega) (by omega)
  have zero (x : ℤ) (above : 48 ≤ x) (below : x < L.size) := superblock_zero old (roundUp i) (roundUp b)
    (uint64 (bitmapBytes i)) (uint64 (bitmapBytes b)) (uint64 (tableBytes i)) above (by rw [total]; exact below)
  generalize superblock old (uint64 (totalBytes i b)) (roundUp i) (roundUp b) (uint64 (bitmapBytes i))
    (uint64 (bitmapBytes b)) (uint64 (tableBytes i)) = clear at *
  have address : clear.long 32 = L.inode 0 := fresh.iBlocksPtr_eq.trans root.symm
  rw [address] at eq
  have first : L.inode 0 = 48 + 4 * L.inodeRows + 4 * L.blockRows := by rw [root, bitmap, bitmap']
  have outside (x : ℤ) (apart : x < L.inode 0 ∨ L.inode 0 + 56 ≤ x) : rootInode env clear (L.inode 0) x = clear x :=
    rootInode_outside env clear apart
  have kept : Head (rootInode env clear (L.inode 0)) (roundUp i) (roundUp b) (bitmapBytes i) (bitmapBytes b)
    (tableBytes i) :=
    fresh.congr fun x low high => outside x (.inl (by omega))
  have word : (rootInode env clear (L.inode 0)).le 48 4 = 0 := by
    refine Eq.trans (le_congr fun x low high => ?_) (le_zero 48 4)
    rw [outside x (.inl (by omega)), zero x low (by rw [← size, totalBytes]; omega)]
  have written : d = (rootInode env clear (L.inode 0)).store 48 (leBytes 4 1) := by
    rw [eq, rootBit, show (rootInode env clear (L.inode 0)).long 16 = 48 from kept.iBitmapPtr_eq, word, Nat.zero_or]
  have last : Head d (roundUp i) (roundUp b) (bitmapBytes i) (bitmapBytes b) (tableBytes i) := by
    apply kept.congr
    intro x low high
    rw [written]
    exact store_outside (.inl high)
  refine ⟨env, clear, written, zero, ⟨inodes, blocks, last.iBitmapPtr_eq, ?_, ?_, ?_⟩⟩
  · rw [last.dBitmapPtr_eq, bitmap]
    rfl
  · rw [last.iBlocksPtr_eq, ← root, Layout.inode]
    simp
  · rw [last.dBlocksPtr_eq, ← root, table, Layout.inode, Layout.dTable, Layout.inodes]
    simp

theorem Made.blank (made : Made L d) : Blank L d := by
  obtain ⟨env, clear, written, zero, super⟩ := made.image
  refine ⟨super, ?_, ?_⟩
  · rw [written, le_store_leBytes]
    rfl
  · intro x above below apart
    rw [written, store_outside (.inr (by rw [length_leBytes]; omega)), rootInode_outside env clear apart,
      zero x (by omega) below]

/-- The root is a directory with one link. -/
theorem Made.root (made : Made L d) : isDir ((view L d).inode 0) = true ∧ links ((view L d).inode 0) = 1 := by
  obtain ⟨env, clear, written, _, _⟩ := made.image
  obtain ⟨bitmap, table, _⟩ := L.tables
  have rows := L.inodeRows_pos
  have behind : 52 ≤ L.inode 0 := by
    rw [Layout.inode]
    omega
  constructor
  · have mode : fileMode ((view L d).inode 0) = d.le (modeAt (L.inode 0)) 4 := by
      rw [fileMode, view_inode L.inodes_pos, le_window (by decide) (by decide)]
      rfl
    have value : d.le (modeAt (L.inode 0)) 4 = (sIfdir ||| 0o777) := by
      rw [written, le_store_outside (by simp only [length_leBytes, modeAt]; omega)]
      simp only [rootInode, setInt, setLong, modeAt, sizeAt, nlinksAt, atimAt, mtimAt, ctimAt]
      simp (disch := (simp only [length_leBytes]; omega)) only [le_store_outside]
      rw [le_store_leBytes]
      decide +kernel
    rw [isDir, mode, value]
    decide
  · rw [← int_nlinksAt L.inodes_pos, written, int_store_outside (by simp only [length_leBytes, nlinksAt]; omega)]
    simp only [rootInode, setLong, modeAt, sizeAt, nlinksAt, atimAt, mtimAt, ctimAt]
    simp (disch := (simp only [length_leBytes]; omega)) only [int_store_outside]
    rw [int_setInt, int32_eq (by decide) (by decide)]

private theorem bit_zero {n : ℕ} {a : ℤ} {rows : ℕ} (word : n / 32 < rows)
    (zero : ∀ x, a ≤ x → x < a + 4 * rows → 52 ≤ x → d x = 0)
    (behind : 52 ≤ a + 4 * (n / 32 : ℕ)) : bit d a n = false := by
  have null : d.le (a + 4 * (n / 32 : ℕ)) 4 = 0 := by
    rw [← le_zero (a + 4 * (n / 32 : ℕ)) 4]
    exact le_congr fun x low high => zero x (by omega) (by omega) (by omega)
  rw [bit, null, Nat.zero_testBit]

namespace Blank

variable {n k : ℕ} (blank : Blank L d)

include blank

theorem ibit : (view L d).ibit n = true ↔ n = 0 := by
  obtain ⟨bitmap, table, order, order'⟩ := L.tables
  have root : L.inode 0 = L.iTable := by simp [Layout.inode]
  simp only [view, Bool.and_eq_true, decide_eq_true_eq]
  constructor
  · rintro ⟨inside, set⟩
    have row : n / 32 < L.inodeRows := Nat.div_lt_of_lt_mul inside
    by_contra other
    by_cases first : n / 32 = 0
    · rw [bit, first, Nat.cast_zero, mul_zero, add_zero, blank.bitmap,
        Nat.testBit_one_eq_true_iff_self_eq_zero] at set
      omega
    · rw [bit_zero row (fun x low high behind => blank.zero x behind (by omega) (by omega)) (by omega)] at set
      cases set
  · rintro rfl
    have rows := L.inodeRows_pos
    refine ⟨by rw [Layout.inodes]; omega, ?_⟩
    rw [bit, Nat.zero_div, Nat.cast_zero, mul_zero, add_zero, blank.bitmap]
    rfl

theorem dbit : (view L d).dbit k = false := by
  obtain ⟨bitmap, table, order, order'⟩ := L.tables
  have root : L.inode 0 = L.iTable := by simp [Layout.inode]
  have rows := L.inodeRows_pos
  simp only [view, Bool.and_eq_false_iff, decide_eq_false_iff_not]
  by_cases inside : k < L.blocks
  · right
    have row : k / 32 < L.blockRows := Nat.div_lt_of_lt_mul inside
    exact bit_zero row (fun x low high behind => blank.zero x behind (by omega) (by omega)) (by omega)
  · exact .inl inside

theorem block : (view L d).block k = fun _ => 0 := by
  obtain ⟨bitmap, table, order, order'⟩ := L.tables
  have rows := L.inodeRows_pos
  have root := L.inode_range (n := 0) (by rw [Layout.inodes]; omega)
  funext x
  simp only [view]
  split_ifs with inside
  · have range := L.block_range inside
    rw [window]
    split_ifs with small
    · exact blank.zero _ (by omega) (by push_cast at small; omega) (by omega)
    · rfl
  · rfl

theorem ptr_root {i : ℕ} (small : i < 8) : ptr ((view L d).inode 0) i = 0 := by
  obtain ⟨bitmap, table, order, order'⟩ := L.tables
  have rows := L.inodeRows_pos
  have inside : 0 < L.inodes := by rw [Layout.inodes]; omega
  have root := L.inode_range inside
  rw [← long_blocksAt inside small, ← long_zero (blocksAt (L.inode 0) i)]
  simp only [blocksAt]
  exact long_congr fun x low high => blank.zero x (by omega) (by omega) (by omega)

theorem target (r : Ref) : (view L d).target L r = 0 := by
  rw [Fs.target]
  split_ifs with holds
  · cases r with
    | ptr n i =>
      obtain rfl := blank.ibit.mp holds.1
      exact blank.ptr_root holds.2
    | entry n e =>
      obtain rfl := blank.ibit.mp holds.1
      exact (holds.2.2.2 (blank.ptr_root (by decide))).elim
  · rfl

theorem ordered : Ordered L d where
  super := blank.super
  pointers :=
  { valid := fun r set => (set (blank.target r)).elim
    unshared := fun r _ set => (set (blank.target r)).elim
    used := fun r k target => (L.block_ne_zero k (target.symm.trans (blank.target r))).elim
    zero := fun _ _ _ => blank.block }

end Blank

/-- Clearing an image that is clear. -/
private theorem memsetZero_zero (a : ℤ) (n : ℕ) : memsetZero (fun _ => 0) a n = fun _ => 0 := by
  funext x
  simp only [memsetZero, store, List.getD_eq_getElem?_getD, List.getElem?_replicate]
  split_ifs <;> rfl

/-- The image that `mkfs -i 32 -b 32` makes. -/
def freshDisk : Disk := rootBit (rootInode ⟨5, 0, 0⟩ (superblock (fun _ => 0) 0 32 32 4 4 16384) 56)

theorem freshDisk_mkfs : mkfs ⟨5, 0, 0⟩ (fun _ => 0) 32824 32 32 = some freshDisk := by
  obtain ⟨d, made⟩ : ∃ d, mkfs ⟨5, 0, 0⟩ (fun _ => 0) 32824 32 32 = some d :=
    mkfs_accepts _ _ (by decide) (by decide) (by decide +kernel)
  obtain ⟨_, _, _, eq⟩ := mkfs_some made
  have rounded : roundUp 32 = 32 := rfl
  have bitmap : uint64 (bitmapBytes 32) = 4 := by decide +kernel
  have table : uint64 (tableBytes 32) = 16384 := by decide +kernel
  have root : (superblock (fun _ => 0) 0 32 32 4 4 16384).long 32 = 56 := by decide +kernel
  have clear (size : ℕ) : superblock (fun _ => 0) size 32 32 4 4 16384 = superblock (fun _ => 0) 0 32 32 4 4 16384 := by
    simp only [superblock, memsetZero_zero]
  rw [rounded, bitmap, table, clear, root] at eq
  rw [made, eq]
  rfl

end Fresh

end Cs537.Wfs
