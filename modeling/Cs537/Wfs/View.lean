import Cs537.Wfs.Ops
import Mathlib.Logic.Function.Basic
import Mathlib.Data.Nat.Bitwise
import Mathlib.Data.List.Find

/-! # The image as bitmaps, inodes and blocks

The layout that `mkfs` chooses cuts the image into the superblock, two bitmaps, a table of inodes and a
table of blocks. The view of an image is what these parts hold; each store of the file system changes
one part, so a step on the image is a function update on the view.
-/

namespace Cs537.Wfs

open Lib Memory

/-- The counts of `mkfs`, in words of the bitmaps. -/
structure Layout where
  inodeRows : ℕ
  blockRows : ℕ
  inodeRows_pos : 0 < inodeRows
  inodes_lt : 32 * inodeRows < 2 ^ 22
  blocks_lt : 32 * blockRows < 2 ^ 22

namespace Layout

variable (L : Layout)

def inodes : ℕ := 32 * L.inodeRows
def blocks : ℕ := 32 * L.blockRows
def dBitmap : ℤ := 48 + 4 * L.inodeRows
def iTable : ℤ := L.dBitmap + 4 * L.blockRows
def dTable : ℤ := L.iTable + 512 * L.inodes
def size : ℤ := L.dTable + 512 * L.blocks

/-- The slot of an inode. -/
def inode (n : ℕ) : ℤ := L.iTable + 512 * n

/-- A data block. -/
def block (k : ℕ) : ℤ := L.dTable + 512 * k

/-- The number of the block at an address. -/
def blockNo (address : ℤ) : ℕ := ((address - L.dTable) / 512).toNat

@[simp] theorem blockNo_block (k : ℕ) : L.blockNo (L.block k) = k := by
  rw [blockNo, block]
  omega

theorem block_inj {k k' : ℕ} (same : L.block k = L.block k') : k = k' := by
  rw [← L.blockNo_block k, same, L.blockNo_block]

theorem block_ne_zero (k : ℕ) : L.block k ≠ 0 := by
  simp only [block, dTable, iTable, dBitmap]
  omega

theorem inodes_pos : 0 < L.inodes := by
  have rows := L.inodeRows_pos
  rw [inodes]
  omega

end Layout

/-- The superblock that `mkfs` writes for the layout. -/
structure Super (L : Layout) (d : Disk) : Prop where
  numInodes_eq : numInodes d = L.inodes
  numDataBlocks_eq : numDataBlocks d = L.blocks
  iBitmapPtr_eq : iBitmapPtr d = 48
  dBitmapPtr_eq : dBitmapPtr d = L.dBitmap
  iBlocksPtr_eq : iBlocksPtr d = L.iTable
  dBlocksPtr_eq : dBlocksPtr d = L.dTable

/-- Bit `n` of a bitmap of 4-byte words. -/
def bit (d : Disk) (addr : ℤ) (n : ℕ) : Bool := (d.le (addr + 4 * (n / 32 : ℕ)) 4).testBit (n % 32)

/-- The parts of an image. -/
structure Fs where
  head : Memory
  ibit : ℕ → Bool
  dbit : ℕ → Bool
  inode : ℕ → Memory
  block : ℕ → Memory
  tail : Memory

/-- What the parts of an image hold. -/
def view (L : Layout) (d : Disk) : Fs where
  head := d.window 0 48
  ibit n := decide (n < L.inodes) && bit d 48 n
  dbit k := decide (k < L.blocks) && bit d L.dBitmap k
  inode n := if n < L.inodes then d.window (L.inode n) 512 else fun _ => 0
  block k := if k < L.blocks then d.window (L.block k) 512 else fun _ => 0
  tail x := if 0 ≤ x ∧ x < L.size then 0 else d x

namespace Fs

/-- A store into an inode. -/
def setInode (fs : Fs) (n : ℕ) (page : Memory) : Fs := { fs with inode := Function.update fs.inode n page }

/-- A store into a block. -/
def setBlock (fs : Fs) (k : ℕ) (page : Memory) : Fs := { fs with block := Function.update fs.block k page }

def flipIbit (fs : Fs) (n : ℕ) : Fs := { fs with ibit := Function.update fs.ibit n !fs.ibit n }

def flipDbit (fs : Fs) (k : ℕ) : Fs := { fs with dbit := Function.update fs.dbit k !fs.dbit k }

end Fs

section Bits

variable {d : Disk} {a : ℤ}

private theorem bit_store_outside {b : ℤ} {bytes : List UInt8} {rows n : ℕ} (inside : n < 32 * rows)
    (outside : a + 4 * rows ≤ b ∨ b + bytes.length ≤ a) : bit (d.store b bytes) a n = bit d a n := by
  have row : n / 32 < rows := Nat.div_lt_of_lt_mul inside
  rw [bit, bit, le_store_outside (by omega)]

theorem flipBitInBitmap_nat (d : Disk) (a : ℤ) (k : ℕ) : flipBitInBitmap d a k =
    d.store (a + 4 * (k / 32 : ℕ)) (leBytes 4 (d.le (a + 4 * (k / 32 : ℕ)) 4 ^^^ 2 ^ (k % 32))) := by
  have row : (k : ℤ).tdiv 32 = (k / 32 : ℕ) := rfl
  have col : ((k : ℤ) % 32).toNat = k % 32 := by omega
  simp only [flipBitInBitmap, row, col]

/-- Flipping a bit changes that bit only. -/
theorem bit_flip (d : Disk) (a : ℤ) (k n : ℕ) :
    bit (flipBitInBitmap d a k) a n = if n = k then !bit d a k else bit d a n := by
  rw [flipBitInBitmap_nat, bit]
  by_cases row : n / 32 = k / 32
  · have small : d.le (a + 4 * (k / 32 : ℕ)) 4 ^^^ 2 ^ (k % 32) < 256 ^ 4 := by
      apply Nat.xor_lt_two_pow (n := 32) (le_lt d _ 4)
      exact Nat.pow_lt_pow_right (by decide) (Nat.mod_lt _ (by decide))
    rw [row, le_store_leBytes, Nat.mod_eq_of_lt small, Nat.testBit_xor, Nat.testBit_two_pow]
    by_cases eq : n = k
    · subst eq
      simp [bit]
    · have col : k % 32 ≠ n % 32 := by omega
      simp [bit, eq, col, row]
  · have eq : n ≠ k := by
      rintro rfl
      exact row rfl
    rw [le_store_outside (by simp only [length_leBytes]; omega), if_neg eq, bit]

/-- The lowest clear bit. -/
def lowestClear (bits : ℕ → Bool) (count : ℕ) : Option ℕ := (List.range count).find? fun k => !bits k

theorem lowestClear_eq_some {bits : ℕ → Bool} {count k : ℕ} (found : lowestClear bits count = some k) :
    k < count ∧ bits k = false ∧ ∀ n < k, bits n = true := by
  rw [lowestClear, List.find?_range_eq_some] at found
  simpa [and_left_comm] using found

theorem lowestClear_eq_none {bits : ℕ → Bool} {count : ℕ} :
    lowestClear bits count = none ↔ ∀ k < count, bits k = true := by
  simp [lowestClear]

private theorem find?_row (old : ℕ) : (if old = 2 ^ 32 - 1 then none
    else (List.range 32).find? fun col => !old.testBit col) = (List.range 32).find? fun col => !old.testBit col := by
  split_ifs with full
  · symm
    rw [List.find?_eq_none, full]
    intro col member
    rw [Nat.testBit_two_pow_sub_one]
    simpa using List.mem_range.mp member
  · rfl

private theorem allocateRows_eq (d : Disk) (a : ℤ) (fuel row : ℕ) : allocateRows d a fuel row =
    match (List.range' (32 * row) (32 * fuel)).find? fun k => !bit d a k with
    | some k => (k : ℤ)
    | none => -1 := by
  induction fuel generalizing row with
  | zero => rfl
  | succ fuel ih =>
    have split : List.range' (32 * row) (32 * (fuel + 1)) =
        List.range' (32 * row) 32 ++ List.range' (32 * (row + 1)) (32 * fuel) := by
      rw [Nat.mul_add, Nat.mul_add, Nat.mul_one, Nat.add_comm (32 * fuel), List.range'_append_1]
    have first : (List.range' (32 * row) 32).find? (fun k => !bit d a k) =
        ((List.range 32).find? fun col => !(d.le (a + 4 * row) 4).testBit col).map (32 * row + ·) := by
      rw [List.range'_eq_map_range, List.find?_map]
      congr 1
      apply List.find?_congr
      intro col member
      have small := List.mem_range.mp member
      have quotient : (32 * row + col) / 32 = row := by omega
      have remainder : (32 * row + col) % 32 = col := by omega
      simp only [Function.comp_apply, bit, quotient, remainder]
    rw [allocateRows, split, List.find?_append, first, ← find?_row]
    split_ifs with full
    · exact ih (row + 1)
    · cases (List.range 32).find? fun col => !(d.le (a + 4 * row) 4).testBit col with
      | none => exact ih (row + 1)
      | some col =>
        simp only [Option.map_some, Option.some_or]
        push_cast
        ring

/-- `allocate_block` gives the lowest clear bit, or -1. -/
theorem allocateBlock_eq (d : Disk) (a : ℤ) (rows : ℕ) : allocateBlock d a (32 * rows : ℕ) =
    match lowestClear (bit d a) (32 * rows) with
    | some k => (k : ℤ)
    | none => -1 := by
  have quotient : (((32 * rows : ℕ) : ℤ).tdiv 32).toNat = rows := by
    rw [Int.tdiv_eq_ediv_of_nonneg (by omega)]
    omega
  rw [allocateBlock, quotient, allocateRows_eq, lowestClear, List.range_eq_range', Nat.mul_zero]

end Bits

section Stores

variable {L : Layout} {d : Disk} {n k : ℕ} {o : ℤ} {bytes : List UInt8}

theorem Layout.inode_range (inside : n < L.inodes) : L.iTable ≤ L.inode n ∧ L.inode n + 512 ≤ L.dTable := by
  simp only [Layout.inode, Layout.dTable]
  omega

theorem Layout.block_range (inside : k < L.blocks) : L.dTable ≤ L.block k ∧ L.block k + 512 ≤ L.size := by
  simp only [Layout.block, Layout.size]
  omega

theorem Layout.tables (L : Layout) :
    48 + 4 * (L.inodeRows : ℤ) = L.dBitmap ∧ L.dBitmap + 4 * L.blockRows = L.iTable ∧ L.iTable ≤ L.dTable ∧
      L.dTable ≤ L.size := by
  refine ⟨rfl, rfl, ?_, ?_⟩
  · rw [Layout.dTable]
    omega
  · rw [Layout.size]
    omega

/-- What a store that starts behind a part leaves of it. -/
theorem view_head_store {a : ℤ} (above : 48 ≤ a) : (view L (d.store a bytes)).head = (view L d).head :=
  window_store_outside (by push_cast; omega)

theorem view_ibit_store {a : ℤ} (above : L.dBitmap ≤ a) : (view L (d.store a bytes)).ibit = (view L d).ibit := by
  have rows := L.tables.1
  funext n
  by_cases small : n < L.inodes
  · simp only [view]
    rw [bit_store_outside small (by omega)]
  · simp [view, small]

theorem view_dbit_store {a : ℤ} (outside : a + bytes.length ≤ L.dBitmap ∨ L.iTable ≤ a) :
    (view L (d.store a bytes)).dbit = (view L d).dbit := by
  have rows := L.tables.2.1
  funext k
  by_cases small : k < L.blocks
  · simp only [view]
    rw [bit_store_outside small (by omega)]
  · simp [view, small]

theorem view_inode_store {a : ℤ} (outside : n < L.inodes → a + bytes.length ≤ L.inode n ∨ L.inode n + 512 ≤ a) :
    (view L (d.store a bytes)).inode n = (view L d).inode n := by
  simp only [view]
  split_ifs with small
  · exact window_store_outside (by push_cast; have := outside small; omega)
  · rfl

theorem view_block_store {a : ℤ} (outside : k < L.blocks → a + bytes.length ≤ L.block k ∨ L.block k + 512 ≤ a) :
    (view L (d.store a bytes)).block k = (view L d).block k := by
  simp only [view]
  split_ifs with small
  · exact window_store_outside (by push_cast; have := outside small; omega)
  · rfl

private theorem view_tail_store {a : ℤ} (low : 0 ≤ a) (high : a + bytes.length ≤ L.size) :
    (view L (d.store a bytes)).tail = (view L d).tail := by
  funext x
  simp only [view]
  split_ifs with image
  · rfl
  · exact store_outside (by omega)

theorem Fs.ext_parts {fs fs' : Fs} (head : fs.head = fs'.head) (ibit : fs.ibit = fs'.ibit) (dbit : fs.dbit = fs'.dbit)
    (inode : ∀ n, fs.inode n = fs'.inode n) (block : ∀ k, fs.block k = fs'.block k) (tail : fs.tail = fs'.tail) :
    fs = fs' := by
  cases fs
  cases fs'
  simp only [Fs.mk.injEq]
  exact ⟨head, ibit, dbit, funext inode, funext block, tail⟩

/-- A store into an inode slot is a store into that inode of the view. -/
theorem view_store_inode (inside : n < L.inodes) (low : 0 ≤ o) (high : o + bytes.length ≤ 512) :
    view L (d.store (L.inode n + o) bytes) = (view L d).setInode n (((view L d).inode n).store o bytes) := by
  obtain ⟨above, below⟩ := L.inode_range inside
  obtain ⟨bitmap, table, order, order'⟩ := L.tables
  refine Fs.ext_parts (view_head_store (by omega)) (view_ibit_store (by omega)) (view_dbit_store (by omega)) ?_ ?_
    (view_tail_store (by omega) (by omega))
  · intro m
    by_cases eq : m = n
    · subst eq
      simp only [Fs.setInode, Function.update_self]
      simp only [view, if_pos inside]
      exact window_store low (by push_cast; omega)
    · simp only [Fs.setInode, Function.update_of_ne eq]
      apply view_inode_store
      intro _
      simp only [Layout.inode]
      omega
  · intro m
    apply view_block_store
    intro small
    have := (L.block_range small).1
    omega

/-- A store into a block is a store into that block of the view. -/
theorem view_store_block (inside : k < L.blocks) (low : 0 ≤ o) (high : o + bytes.length ≤ 512) :
    view L (d.store (L.block k + o) bytes) = (view L d).setBlock k (((view L d).block k).store o bytes) := by
  obtain ⟨above, below⟩ := L.block_range inside
  obtain ⟨bitmap, table, order, order'⟩ := L.tables
  refine Fs.ext_parts (view_head_store (by omega)) (view_ibit_store (by omega)) (view_dbit_store (by omega)) ?_ ?_
    (view_tail_store (by omega) (by omega))
  · intro m
    apply view_inode_store
    intro small
    have := (L.inode_range small).2
    omega
  · intro m
    by_cases eq : m = k
    · subst eq
      simp only [Fs.setBlock, Function.update_self]
      simp only [view, if_pos inside]
      exact window_store low (by push_cast; omega)
    · simp only [Fs.setBlock, Function.update_of_ne eq]
      apply view_block_store
      intro _
      simp only [Layout.block]
      omega

theorem view_flipDbit (inside : k < L.blocks) :
    view L (flipBitInBitmap d L.dBitmap k) = (view L d).flipDbit k := by
  obtain ⟨bitmap, table, order, order'⟩ := L.tables
  have row : k / 32 < L.blockRows := Nat.div_lt_of_lt_mul inside
  have bits (m : ℕ) := bit_flip d L.dBitmap k m
  rw [flipBitInBitmap_nat] at bits ⊢
  refine Fs.ext_parts (view_head_store (by omega)) (view_ibit_store (by omega)) ?_ ?_ ?_
    (view_tail_store (by omega) (by simp only [length_leBytes]; omega))
  · funext m
    simp only [view, Fs.flipDbit, bits]
    by_cases eq : m = k
    · subst eq
      simp [inside]
    · simp [eq]
  · intro m
    apply view_inode_store
    intro small
    have := (L.inode_range small).1
    simp only [length_leBytes]
    omega
  · intro m
    apply view_block_store
    intro small
    have := (L.block_range small).1
    simp only [length_leBytes]
    omega

theorem view_flipIbit (inside : n < L.inodes) : view L (flipBitInBitmap d 48 n) = (view L d).flipIbit n := by
  obtain ⟨bitmap, table, order, order'⟩ := L.tables
  have row : n / 32 < L.inodeRows := Nat.div_lt_of_lt_mul inside
  have bits (m : ℕ) := bit_flip d 48 n m
  rw [flipBitInBitmap_nat] at bits ⊢
  refine Fs.ext_parts (view_head_store (by omega)) ?_ (view_dbit_store (by simp only [length_leBytes]; omega)) ?_ ?_
    (view_tail_store (by omega) (by simp only [length_leBytes]; omega))
  · funext m
    simp only [view, Fs.flipIbit, bits]
    by_cases eq : m = n
    · subst eq
      simp [inside]
    · simp [eq]
  · intro m
    apply view_inode_store
    intro small
    have := (L.inode_range small).1
    simp only [length_leBytes]
    omega
  · intro m
    apply view_block_store
    intro small
    have := (L.block_range small).1
    simp only [length_leBytes]
    omega

end Stores

section Loads

variable {L : Layout} {d d' : Disk} {n k : ℕ} {o : ℤ}

theorem Super.of_head (super : Super L d) (same : (view L d').head = (view L d).head) : Super L d' := by
  have byte (x : ℤ) (low : 0 ≤ x) (high : x < 48) : d' x = d x :=
    eq_of_window_eq same low (by push_cast; omega)
  have word (a : ℤ) (w : ℕ) (low : 0 ≤ a) (high : a + w ≤ 48) : d'.le a w = d.le a w :=
    le_congr fun x above below => byte x (by omega) (by omega)
  have off (a : ℤ) (low : 0 ≤ a) (high : a + 8 ≤ 48) : d'.long a = d.long a := by
    rw [long, long, word a 8 low high]
  constructor
  · exact (word 0 8 (by decide) (by decide)).trans super.numInodes_eq
  · exact (word 8 8 (by decide) (by decide)).trans super.numDataBlocks_eq
  · exact (off 16 (by decide) (by decide)).trans super.iBitmapPtr_eq
  · exact (off 24 (by decide) (by decide)).trans super.dBitmapPtr_eq
  · exact (off 32 (by decide) (by decide)).trans super.iBlocksPtr_eq
  · exact (off 40 (by decide) (by decide)).trans super.dBlocksPtr_eq

theorem view_inode (inside : n < L.inodes) : (view L d).inode n = d.window (L.inode n) 512 := if_pos inside

theorem view_block (inside : k < L.blocks) : (view L d).block k = d.window (L.block k) 512 := if_pos inside

theorem long_inode (inside : n < L.inodes) (low : 0 ≤ o) (high : o + 8 ≤ 512) :
    d.long (L.inode n + o) = ((view L d).inode n).long o := by
  rw [view_inode inside, long_window low (by push_cast; omega)]

private theorem int_inode (inside : n < L.inodes) (low : 0 ≤ o) (high : o + 4 ≤ 512) :
    d.int (L.inode n + o) = ((view L d).inode n).int o := by
  rw [view_inode inside, int_window low (by push_cast; omega)]

private theorem long_block (inside : k < L.blocks) (low : 0 ≤ o) (high : o + 8 ≤ 512) :
    d.long (L.block k + o) = ((view L d).block k).long o := by
  rw [view_block inside, long_window low (by push_cast; omega)]

theorem int_block (inside : k < L.blocks) (low : 0 ≤ o) (high : o + 4 ≤ 512) :
    d.int (L.block k + o) = ((view L d).block k).int o := by
  rw [view_block inside, int_window low (by push_cast; omega)]

theorem byte_block (inside : k < L.blocks) (low : 0 ≤ o) (high : o < 512) :
    d (L.block k + o) = (view L d).block k o := by
  rw [view_block inside, window_at low (by push_cast; omega)]

theorem view_ibit_lt (live : (view L d).ibit n = true) : n < L.inodes := by
  simp only [view, Bool.and_eq_true, decide_eq_true_eq] at live
  exact live.1

theorem Super.inodeAt_eq (super : Super L d) (inside : n < L.inodes) : inodeAt d n = L.inode n := by
  have bound := L.inodes_lt
  have small : n < 2 ^ 22 := by
    rw [Layout.inodes] at inside
    omega
  rw [inodeAt, super.iBlocksPtr_eq, int32_eq (by simp only [blockSize]; omega) (by simp only [blockSize]; omega),
    Layout.inode, blockSize]
  push_cast
  ring

private theorem lowestClear_view (d : Disk) :
    lowestClear (bit d L.dBitmap) L.blocks = lowestClear (view L d).dbit L.blocks := by
  apply List.find?_congr
  intro k member
  simp [view, List.mem_range.mp member]

private theorem lowestClear_view_inodes (d : Disk) :
    lowestClear (bit d 48) L.inodes = lowestClear (view L d).ibit L.inodes := by
  apply List.find?_congr
  intro n member
  simp [view, List.mem_range.mp member]

/-- The block allocator reads the data bits. -/
theorem Super.allocate_block (super : Super L d) : allocateBlock d (dBitmapPtr d) (int32 (numDataBlocks d)) =
    match lowestClear (view L d).dbit L.blocks with
    | some k => (k : ℤ)
    | none => -1 := by
  have bound := L.blocks_lt
  rw [super.dBitmapPtr_eq, super.numDataBlocks_eq, ← lowestClear_view, Layout.blocks,
    int32_eq (by omega) (by omega), allocateBlock_eq]

/-- The inode allocator reads the inode bits. -/
theorem Super.allocate_inode (super : Super L d) : allocateBlock d (iBitmapPtr d) (int32 (numInodes d)) =
    match lowestClear (view L d).ibit L.inodes with
    | some n => (n : ℤ)
    | none => -1 := by
  have bound := L.inodes_lt
  rw [super.iBitmapPtr_eq, super.numInodes_eq, ← lowestClear_view_inodes, Layout.inodes,
    int32_eq (by omega) (by omega), allocateBlock_eq]

end Loads

section Bytes

variable {L : Layout} {d d' : Disk} {x : ℤ}

/-- The bits of a bitmap are its bytes. -/
theorem byte_of_bit {a : ℤ} (rows : ℕ) (same : ∀ n < 32 * rows, bit d' a n = bit d a n) (above : a ≤ x)
    (below : x < a + 4 * rows) : d' x = d x := by
  have row : ∃ row : ℕ, row < rows ∧ a + 4 * row ≤ x ∧ x < a + 4 * row + 4 :=
    ⟨((x - a) / 4).toNat, by omega, by omega, by omega⟩
  obtain ⟨row, small, low, high⟩ := row
  refine eq_of_le_eq (a := a + 4 * row) (w := 4) ?_ low high
  apply Nat.eq_of_testBit_eq
  intro col
  by_cases wide : col < 32
  · have here := same (32 * row + col) (by omega)
    have quotient : (32 * row + col) / 32 = row := by omega
    have remainder : (32 * row + col) % 32 = col := by omega
    simpa only [bit, quotient, remainder] using here
  · have big (d : Disk) : (d.le (a + 4 * row) 4).testBit col = false := by
      apply Nat.testBit_lt_two_pow
      exact (le_lt d _ 4).trans_le (Nat.pow_le_pow_right (n := 2) (by decide) (by omega : 32 ≤ col))
    rw [big, big]

theorem byte_of_ibit (same : (view L d').ibit = (view L d).ibit) (above : 48 ≤ x) (below : x < L.dBitmap) :
    d' x = d x := by
  refine byte_of_bit L.inodeRows ?_ above (by rw [Layout.dBitmap] at below; exact below)
  intro n inside
  have here := congrFun same n
  have small : n < L.inodes := inside
  simpa [view, small] using here

theorem byte_of_dbit (same : (view L d').dbit = (view L d).dbit) (above : L.dBitmap ≤ x) (below : x < L.iTable) :
    d' x = d x := by
  refine byte_of_bit L.blockRows ?_ above (by rw [Layout.iTable] at below; exact below)
  intro k inside
  have here := congrFun same k
  have small : k < L.blocks := inside
  simpa [view, small] using here

theorem byte_of_inode {n : ℕ} (inside : n < L.inodes) (same : (view L d').inode n = (view L d).inode n)
    (above : L.inode n ≤ x) (below : x < L.inode n + 512) : d' x = d x := by
  rw [view_inode inside, view_inode inside] at same
  exact eq_of_window_eq same above (by push_cast; omega)

theorem byte_of_block {k : ℕ} (inside : k < L.blocks) (same : (view L d').block k = (view L d).block k)
    (above : L.block k ≤ x) (below : x < L.block k + 512) : d' x = d x := by
  rw [view_block inside, view_block inside] at same
  exact eq_of_window_eq same above (by push_cast; omega)

theorem byte_of_head (same : (view L d').head = (view L d).head) (above : 0 ≤ x) (below : x < 48) : d' x = d x :=
  eq_of_window_eq same above (by push_cast; omega)

theorem byte_of_tail (same : (view L d').tail = (view L d).tail) (outside : ¬ (0 ≤ x ∧ x < L.size)) : d' x = d x := by
  have here := congrFun same x
  simpa only [view, if_neg outside] using here

/-- Every byte lies in one of the parts. -/
theorem Layout.parts (L : Layout) (x : ℤ) : ¬ (0 ≤ x ∧ x < L.size) ∨ (0 ≤ x ∧ x < 48) ∨ (48 ≤ x ∧ x < L.dBitmap) ∨
    (L.dBitmap ≤ x ∧ x < L.iTable) ∨ (∃ n < L.inodes, L.inode n ≤ x ∧ x < L.inode n + 512) ∨
    ∃ k < L.blocks, L.block k ≤ x ∧ x < L.block k + 512 := by
  obtain ⟨bitmap, table, _, _⟩ := L.tables
  by_cases image : 0 ≤ x ∧ x < L.size
  · by_cases early : x < L.iTable
    · omega
    · by_cases inode : x < L.dTable
      · right; right; right; right; left
        refine ⟨((x - L.iTable) / 512).toNat, ?_, ?_, ?_⟩ <;> simp only [Layout.inode, Layout.dTable] at * <;> omega
      · right; right; right; right; right
        refine ⟨((x - L.dTable) / 512).toNat, ?_, ?_, ?_⟩ <;> simp only [Layout.block, Layout.size] at * <;> omega
  · exact .inl image

end Bytes

section Fields

/-- `blocks[i]` of an inode. -/
def ptr (page : Memory) (i : ℕ) : ℤ := page.long (blocksAt 0 i)

def setPtr (page : Memory) (i : ℕ) (v : ℤ) : Memory := page.setLong (blocksAt 0 i) v

def fileSize (page : Memory) : ℤ := page.long (sizeAt 0)

def fileMode (page : Memory) : ℕ := page.le (modeAt 0) 4

def links (page : Memory) : ℤ := page.int (nlinksAt 0)

/-- An entry of an indirect block. -/
def entry (page : Memory) (e : ℕ) : ℤ := page.long (8 * e)

def setEntry (page : Memory) (e : ℕ) (v : ℤ) : Memory := page.setLong (8 * e) v

/-- The number of a directory entry. -/
def dentryNum (page : Memory) (j : ℕ) : ℤ := page.int (numAt (dentryAt 0 j))

/-- The name of a directory entry. -/
def dentryName (page : Memory) (j : ℕ) : Name := (page.load (dentryAt 0 j) 28).takeWhile (· ≠ 0)

def isDir (page : Memory) : Bool := fileMode page &&& sIfmt == sIfdir

def isReg (page : Memory) : Bool := fileMode page &&& sIfmt == sIfreg

variable {L : Layout} {d : Disk} {page : Memory} {n k i j e : ℕ} {v o : ℤ} {bytes : List UInt8}

theorem isDir_of_isReg {page : Memory} (reg : isReg page = true) : isDir page = false := by
  rw [isReg, beq_iff_eq] at reg
  rw [isDir, reg]
  rfl

theorem ptr_setPtr_self : ptr (setPtr page i v) i = int64 v := long_setLong ..

theorem ptr_setPtr_of_ne (ne : j ≠ i) : ptr (setPtr page i v) j = ptr page j := by
  apply long_store_outside
  simp only [blocksAt, length_leBytes]
  omega

theorem ptr_store (outside : o + bytes.length ≤ 56 ∨ 120 ≤ o) (inside : i < 8) :
    ptr (page.store o bytes) i = ptr page i := by
  apply long_store_outside
  simp only [blocksAt]
  omega

theorem fileMode_store (outside : o + bytes.length ≤ 4 ∨ 8 ≤ o) : fileMode (page.store o bytes) = fileMode page := by
  apply le_store_outside
  simp only [modeAt]
  omega

theorem fileSize_store (outside : o + bytes.length ≤ 16 ∨ 24 ≤ o) : fileSize (page.store o bytes) = fileSize page := by
  apply long_store_outside
  simp only [sizeAt]
  omega

theorem links_store (outside : o + bytes.length ≤ 24 ∨ 28 ≤ o) : links (page.store o bytes) = links page := by
  apply int_store_outside
  simp only [nlinksAt]
  omega

theorem entry_setEntry_self : entry (setEntry page e v) e = int64 v := long_setLong ..

theorem entry_setEntry_of_ne (ne : j ≠ e) : entry (setEntry page e v) j = entry page j := by
  apply long_store_outside
  simp only [length_leBytes]
  omega

theorem le_zero (a : ℤ) (w : ℕ) : Memory.le (fun _ => 0) a w = 0 := by
  induction w generalizing a with
  | zero => rfl
  | succ w ih => rw [le, ih]; rfl

theorem long_zero (a : ℤ) : Memory.long (fun _ => 0) a = 0 := by
  rw [long, le_zero, int64_eq (by decide) (by decide)]
  rfl

theorem int_zero (a : ℤ) : Memory.int (fun _ => 0) a = 0 := by
  rw [int, le_zero, int32_eq (by decide) (by decide)]
  rfl

theorem entry_zero (e : ℕ) : entry (fun _ => 0) e = 0 := long_zero _

theorem Layout.int64_block (inside : k < L.blocks) : int64 (L.block k) = L.block k := by
  have inodes := L.inodes_lt
  have blocks := L.blocks_lt
  simp only [Layout.blocks] at inside
  simp only [Layout.block, Layout.dTable, Layout.iTable, Layout.dBitmap, Layout.inodes]
  exact int64_eq (by omega) (by omega)

theorem long_blocksAt (inside : n < L.inodes) (small : i < 8) :
    d.long (blocksAt (L.inode n) i) = ptr ((view L d).inode n) i := by
  rw [ptr, ← long_inode inside (by simp only [blocksAt]; omega) (by simp only [blocksAt]; omega)]
  congr 1
  simp only [blocksAt]
  ring

theorem long_sizeAt (inside : n < L.inodes) : d.long (sizeAt (L.inode n)) = fileSize ((view L d).inode n) :=
  long_inode inside (by decide) (by decide)

theorem int_nlinksAt (inside : n < L.inodes) : d.int (nlinksAt (L.inode n)) = links ((view L d).inode n) :=
  int_inode inside (by decide) (by decide)

theorem long_entry (inside : k < L.blocks) (small : e < 64) : d.long (L.block k + 8 * e) = entry ((view L d).block k) e :=
  long_block inside (by omega) (by omega)

theorem int_dentry (inside : k < L.blocks) (small : j < 16) :
    d.int (numAt (dentryAt (L.block k) j)) = dentryNum ((view L d).block k) j := by
  rw [dentryNum, ← int_block inside (by simp only [numAt, dentryAt]; omega) (by simp only [numAt, dentryAt]; omega)]
  congr 1
  simp only [numAt, dentryAt]
  ring

theorem view_setPtr (inside : n < L.inodes) (small : i < 8) :
    view L (d.setLong (blocksAt (L.inode n) i) v) = (view L d).setInode n (setPtr ((view L d).inode n) i v) := by
  rw [setPtr, setLong, setLong, ← view_store_inode inside (by simp only [blocksAt]; omega)
    (by simp only [blocksAt, length_leBytes]; omega)]
  congr 2
  simp only [blocksAt]
  ring

theorem view_setEntry (inside : k < L.blocks) (small : e < 64) :
    view L (d.setLong (L.block k + 8 * e) v) = (view L d).setBlock k (setEntry ((view L d).block k) e v) := by
  rw [setEntry, setLong, setLong, ← view_store_block inside (by omega) (by simp only [length_leBytes]; omega)]

end Fields

end Cs537.Wfs
