import Cs537.Wfs.Disk
import Cs537.Wfs.Ops

/-! # What `mkfs` writes

`mkfs` clears the image, fills in the superblock and writes the root inode. The sizes are `int` products
that wrap, while the size check compares what they have become with the size of the image.
-/

namespace Cs537.Wfs

open Lib Memory

variable {env : Env} {d d' : Disk} {imageSize size : ℕ} {i b root x : ℤ} {ib db is : ℕ}

/-- The cleared image with its superblock. -/
def superblock (d : Disk) (size : ℕ) (i b : ℤ) (ib db is : ℕ) : Disk :=
  let d := memsetZero d 0 size
  let d := (d.setLong 0 i).setLong 8 b
  let d := d.setLong 16 48
  let d := d.setLong 24 (d.long 16 + ib)
  let d := d.setLong 32 (d.long 24 + db)
  d.setLong 40 (d.long 32 + is)

/-- The root inode. -/
def rootInode (env : Env) (d : Disk) (root : ℤ) : Disk :=
  let d := (d.setInt root 0).setInt (modeAt root) (sIfdir ||| 0o777 : ℕ)
  let d := (d.setInt (root + 8) env.uid).setInt (root + 12) env.gid
  let d := (d.setLong (sizeAt root) 0).setInt (nlinksAt root) 1
  ((d.setLong (atimAt root) env.now).setLong (mtimAt root) env.now).setLong (ctimAt root) env.now

/-- The bit of the root inode. -/
def rootBit (d : Disk) : Disk := d.store (d.long 16) (leBytes 4 (d.le (d.long 16) 4 ||| 1))

section Sizes

/-- `(i + 7) / 8` for the rounded count. -/
def bitmapBytes (i : ℤ) : ℤ := (int32 (roundUp i + 7)).tdiv 8

/-- `i * BLOCK_SIZE` for the rounded count. -/
def tableBytes (i : ℤ) : ℤ := int32 (roundUp i * blockSize)

/-- The sum of the sizes before it becomes a `size_t`. -/
def totalBytes (i b : ℤ) : ℤ := 48 + bitmapBytes i + bitmapBytes b + tableBytes i + tableBytes b

/-- Rounding up passes the largest `int` for counts in its last 31 values. -/
private theorem roundUp_cases (positive : 0 < i) (word : i < 2 ^ 31) :
    (i ≤ 2 ^ 31 - 32 ∧ roundUp i = 32 * ((i + 31) / 32)) ∨ (2 ^ 31 - 32 < i ∧ roundUp i = -2 ^ 31) := by
  have rest : i.tmod 32 = i % 32 := Int.tmod_eq_emod_of_nonneg positive.le
  by_cases small : i ≤ 2 ^ 31 - 32
  · refine .inl ⟨small, ?_⟩
    rw [roundUp, rest]
    by_cases big : i < 2 ^ 31 - 32
    · rw [int32_eq (x := i + 32) (by omega) (by omega), int32_eq (by omega) (by omega)]
      split_ifs <;> omega
    · rw [if_neg (by omega)]
      omega
  · refine .inr ⟨by omega, ?_⟩
    obtain ⟨q, wrapped, high⟩ := int32_wrap (i + 32)
    have low := int32_ge (i + 32)
    rw [roundUp, rest, if_pos (by omega), int32_eq (by omega) (by omega)]
    omega

private theorem bitmapBytes_eq (positive : 0 ≤ roundUp i) (word : roundUp i ≤ 2 ^ 31 - 32) (rows : 32 ∣ roundUp i) :
    8 * bitmapBytes i = roundUp i := by
  rw [bitmapBytes, int32_eq (by omega) (by omega), Int.tdiv_eq_ediv_of_nonneg (by omega)]
  omega

private theorem bitmapBytes_wrapped (wrapped : roundUp i = -2 ^ 31) : bitmapBytes i = -268435455 := by
  rw [bitmapBytes, wrapped, int32_eq (by decide) (by decide)]
  decide

private theorem tableBytes_wrapped (wrapped : roundUp i = -2 ^ 31) : tableBytes i = 0 := by
  obtain ⟨q, eq, high⟩ := int32_wrap (roundUp i * blockSize)
  have low := int32_ge (roundUp i * blockSize)
  rw [tableBytes]
  simp only [wrapped, blockSize] at *
  omega

/-- The rounded count, its bitmap and its table: the table may wrap, or the count itself does. -/
def Count (i : ℤ) : Prop :=
  (0 < i ∧ i ≤ 2 ^ 31 - 32 ∧ roundUp i = 32 * ((i + 31) / 32) ∧ 8 * bitmapBytes i = roundUp i ∧
      ∃ q : ℤ, tableBytes i = 512 * roundUp i - 2 ^ 32 * q ∧ -2 ^ 31 ≤ tableBytes i ∧ tableBytes i < 2 ^ 31) ∨
    (2 ^ 31 - 32 < i ∧ roundUp i = -2 ^ 31 ∧ bitmapBytes i = -268435455 ∧ tableBytes i = 0)

theorem count_of_int (positive : 0 < i) (word : i < 2 ^ 31) : Count i := by
  rcases roundUp_cases positive word with ⟨small, rounded⟩ | ⟨big, wrapped⟩
  · obtain ⟨q, eq, high⟩ := int32_wrap (roundUp i * blockSize)
    refine .inl ⟨positive, small, rounded, bitmapBytes_eq (by omega) (by omega) (by omega), q, ?_, int32_ge _, high⟩
    rw [tableBytes, eq, blockSize]
    push_cast
    ring
  · exact .inr ⟨big, wrapped, bitmapBytes_wrapped wrapped, tableBytes_wrapped wrapped⟩

theorem Count.range (count : Count i) :
    (-2 ^ 32 ≤ bitmapBytes i ∧ bitmapBytes i < 2 ^ 32) ∧ -2 ^ 32 ≤ tableBytes i ∧ tableBytes i < 2 ^ 32 := by
  rcases count with ⟨_, _, _, _, q, _⟩ | ⟨_, _, _, _⟩ <;> omega

/-- A negative bitmap makes up for a positive one only where the table of that one has wrapped. -/
private theorem root_apart (inodes : Count i) (blocks : Count b) (accepted : 0 ≤ totalBytes i b) :
    48 ≤ 48 + bitmapBytes i + bitmapBytes b ∨ 48 + bitmapBytes i + bitmapBytes b + 56 ≤ 0 := by
  rw [totalBytes] at accepted
  by_contra near
  rcases inodes with ⟨_, _, rounded, bitmap, q, table, _, _⟩ | ⟨_, _, bitmap, table⟩ <;>
    rcases blocks with ⟨_, _, rounded', bitmap', q', table', _, _⟩ | ⟨_, _, bitmap', table'⟩
  · omega
  · have wraps : q = 256 := by omega
    omega
  · have wraps : q' = 256 := by omega
    omega
  · omega

end Sizes

section Fields

/-- The image after an accepted call. -/
theorem mkfs_some (made : mkfs env d imageSize i b = some d') : 0 < i ∧ 0 < b ∧ uint64 (totalBytes i b) ≤ imageSize ∧
    d' = rootBit (rootInode env
      (superblock d (uint64 (totalBytes i b)) (roundUp i) (roundUp b) (uint64 (bitmapBytes i)) (uint64 (bitmapBytes b))
        (uint64 (tableBytes i)))
      ((superblock d (uint64 (totalBytes i b)) (roundUp i) (roundUp b) (uint64 (bitmapBytes i)) (uint64 (bitmapBytes b))
        (uint64 (tableBytes i))).long 32)) := by
  have total :
      uint64 (48 + uint64 (bitmapBytes i) + uint64 (bitmapBytes b) + uint64 (tableBytes i) + uint64 (tableBytes b)) =
      uint64 (totalBytes i b) := by
    unfold uint64 totalBytes
    omega
  rw [mkfs] at made
  split_ifs at made with bad
  dsimp only at made
  split_ifs at made with small
  have eq := (Option.some.inj made).symm
  change ¬ imageSize <
    uint64 (48 + uint64 (bitmapBytes i) + uint64 (bitmapBytes b) + uint64 (tableBytes i) + uint64 (tableBytes b)) at small
  rw [total] at small
  refine ⟨by omega, by omega, not_lt.mp small, ?_⟩
  rw [← total]
  exact eq

/-- The superblock says what the sizes say. -/
structure Head (d : Disk) (i b ib db is : ℤ) : Prop where
  numInodes_eq : numInodes d = uint64 i
  numDataBlocks_eq : numDataBlocks d = uint64 b
  iBitmapPtr_eq : iBitmapPtr d = 48
  dBitmapPtr_eq : dBitmapPtr d = 48 + ib
  iBlocksPtr_eq : iBlocksPtr d = 48 + ib + db
  dBlocksPtr_eq : dBlocksPtr d = 48 + ib + db + is

theorem Head.congr {i b ib db is : ℤ} (head : Head d i b ib db is) (same : ∀ x, 0 ≤ x → x < 48 → d' x = d x) :
    Head d' i b ib db is where
  numInodes_eq := (le_congr fun x low high => same x (by omega) (by omega)).trans head.numInodes_eq
  numDataBlocks_eq := (le_congr fun x low high => same x (by omega) (by omega)).trans head.numDataBlocks_eq
  iBitmapPtr_eq := (long_congr fun x low high => same x (by omega) (by omega)).trans head.iBitmapPtr_eq
  dBitmapPtr_eq := (long_congr fun x low high => same x (by omega) (by omega)).trans head.dBitmapPtr_eq
  iBlocksPtr_eq := (long_congr fun x low high => same x (by omega) (by omega)).trans head.iBlocksPtr_eq
  dBlocksPtr_eq := (long_congr fun x low high => same x (by omega) (by omega)).trans head.dBlocksPtr_eq

private theorem le_setLong_of_ne (d : Disk) {a c : ℤ} (v : ℤ) (apart : c + 8 ≤ a ∨ a + 8 ≤ c) :
    (d.setLong a v).le c 8 = d.le c 8 :=
  le_store_outside (by rw [length_leBytes]; omega)

private theorem long_setLong_of_ne (d : Disk) {a c : ℤ} (v : ℤ) (apart : c + 8 ≤ a ∨ a + 8 ≤ c) :
    (d.setLong a v).long c = d.long c :=
  long_store_outside (by rw [length_leBytes]; omega)

theorem superblock_head (d : Disk) (size : ℕ) (i b : ℤ) {x y z : ℤ} (xs : -2 ^ 32 ≤ x ∧ x < 2 ^ 32)
    (ys : -2 ^ 32 ≤ y ∧ y < 2 ^ 32) (zs : -2 ^ 32 ≤ z ∧ z < 2 ^ 32) :
    Head (superblock d size i b (uint64 x) (uint64 y) (uint64 z)) i b x y z := by
  have word (d : Disk) (a v : ℤ) : (d.setLong a v).le a 8 = uint64 v := by
    have small : uint64 v < 256 ^ 8 := uint64_lt v
    rw [setLong, le_store_leBytes, Nat.mod_eq_of_lt small]
  have first : int64 48 = 48 := int64_eq (by decide) (by decide)
  have second : int64 (48 + uint64 x) = 48 + x := by
    rw [int64_add_uint64, int64_eq (by omega) (by omega)]
  have third : int64 (48 + x + uint64 y) = 48 + x + y := by
    rw [int64_add_uint64, int64_eq (by omega) (by omega)]
  have fourth : int64 (48 + x + y + uint64 z) = 48 + x + y + z := by
    rw [int64_add_uint64, int64_eq (by omega) (by omega)]
  constructor
  all_goals
    simp only [superblock, numInodes, numDataBlocks, iBitmapPtr, dBitmapPtr, iBlocksPtr, dBlocksPtr, long_setLong]
    simp (disch := decide) only [le_setLong_of_ne, long_setLong_of_ne, long_setLong, word, first, second, third, fourth]

theorem rootInode_outside (env : Env) (d : Disk) (outside : x < root ∨ root + 56 ≤ x) : rootInode env d root x = d x := by
  simp only [rootInode, setInt, setLong, modeAt, sizeAt, nlinksAt, atimAt, mtimAt, ctimAt]
  simp (disch := (simp only [length_leBytes]; omega)) only [store_outside]

private theorem rootBit_outside (bitmap : d.long 16 = 48) (outside : x < 48 ∨ 52 ≤ x) : rootBit d x = d x := by
  rw [rootBit, bitmap]
  exact store_outside (by rw [length_leBytes]; omega)

/-- What an accepted call leaves in the superblock; the root inode is written elsewhere. -/
theorem mkfs_head (made : mkfs env d imageSize i b = some d') (word : i < 2 ^ 31) (word' : b < 2 ^ 31)
    (offsets : imageSize < 2 ^ 63) :
    Head d' (roundUp i) (roundUp b) (bitmapBytes i) (bitmapBytes b) (tableBytes i) ∧ 0 ≤ totalBytes i b ∧
      totalBytes i b ≤ imageSize := by
  obtain ⟨positive, positive', accepted, eq⟩ := mkfs_some made
  have inodes := count_of_int positive word
  have blocks := count_of_int positive' word'
  have ranges := inodes.range
  have ranges' := blocks.range
  have total : totalBytes i b = 48 + bitmapBytes i + bitmapBytes b + tableBytes i + tableBytes b := rfl
  have range : -2 ^ 35 ≤ totalBytes i b ∧ totalBytes i b < 2 ^ 35 := by omega
  have bounded : 0 ≤ totalBytes i b ∧ totalBytes i b ≤ imageSize := by
    clear total
    unfold uint64 at accepted
    omega
  refine ⟨?_, bounded⟩
  have apart : 48 ≤ 48 + bitmapBytes i + bitmapBytes b ∨ 48 + bitmapBytes i + bitmapBytes b + 56 ≤ 0 :=
    root_apart inodes blocks (by omega)
  have head := superblock_head d (uint64 (totalBytes i b)) (roundUp i) (roundUp b) (x := bitmapBytes i)
    (y := bitmapBytes b) (z := tableBytes i) ranges.1 ranges'.1 ranges.2
  generalize superblock d (uint64 (totalBytes i b)) (roundUp i) (roundUp b) (uint64 (bitmapBytes i))
    (uint64 (bitmapBytes b)) (uint64 (tableBytes i)) = fresh at *
  have root : fresh.long 32 = 48 + bitmapBytes i + bitmapBytes b := head.iBlocksPtr_eq
  rw [root] at eq
  have head' : Head (rootInode env fresh (48 + bitmapBytes i + bitmapBytes b)) (roundUp i) (roundUp b) (bitmapBytes i)
      (bitmapBytes b) (tableBytes i) := head.congr fun x low high => rootInode_outside env fresh (by omega)
  rw [eq]
  exact head'.congr fun x low high => rootBit_outside head'.iBitmapPtr_eq (by omega)

theorem mkfs_accepts (env : Env) (d : Disk) (positive : 0 < i) (positive' : 0 < b)
    (room : uint64 (totalBytes i b) ≤ imageSize) : ∃ d', mkfs env d imageSize i b = some d' := by
  have total :
      uint64 (48 + uint64 (bitmapBytes i) + uint64 (bitmapBytes b) + uint64 (tableBytes i) + uint64 (tableBytes b)) =
      uint64 (totalBytes i b) := by
    unfold uint64 totalBytes
    omega
  rw [← total] at room
  rw [mkfs, if_neg (by omega)]
  dsimp only
  refine ⟨_, if_neg ?_⟩
  exact not_lt.mpr room

end Fields

section Layout

/-- The parts of the image lie one behind the other and inside it, each as long as its count says. -/
structure LaidOut (d : Disk) (imageSize : ℕ) (i b : ℤ) : Prop where
  bitmap : 48 ≤ iBitmapPtr d
  inodeBits : (numInodes d : ℤ) ≤ 8 * (dBitmapPtr d - iBitmapPtr d)
  blockBits : (numDataBlocks d : ℤ) ≤ 8 * (iBlocksPtr d - dBitmapPtr d)
  table : iBlocksPtr d + 512 * numInodes d ≤ dBlocksPtr d
  region : dBlocksPtr d + 512 * numDataBlocks d ≤ imageSize
  rows : 32 ∣ numInodes d ∧ 32 ∣ numDataBlocks d
  enough : i ≤ numInodes d ∧ b ≤ numDataBlocks d

/-- No product wraps, or only that of the blocks does and the image has room for them nevertheless. -/
def NoWrap (imageSize : ℕ) (i b : ℤ) : Prop :=
  i ≤ 2 ^ 22 - 32 ∧ (b ≤ 2 ^ 22 - 32 ∨
    b ≤ 2 ^ 31 - 32 ∧ 48 + (4 + 16384) * ((i + 31) / 32) + (4 + 16384) * ((b + 31) / 32) ≤ imageSize)

variable {d : Disk}

/-- A count that has wrapped is no number of bits. -/
theorem Count.of_bits (count : Count i) (bits : (uint64 (roundUp i) : ℤ) ≤ 8 * bitmapBytes i) :
    0 < i ∧ i ≤ 2 ^ 31 - 32 ∧ (uint64 (roundUp i) : ℤ) = 32 * ((i + 31) / 32) ∧ 8 * bitmapBytes i = 32 * ((i + 31) / 32) ∧
      ∃ q : ℤ, tableBytes i = 512 * (32 * ((i + 31) / 32)) - 2 ^ 32 * q ∧ -2 ^ 31 ≤ tableBytes i ∧
      tableBytes i < 2 ^ 31 := by
  rcases count with ⟨positive, small, rounded, bitmap, table⟩ | ⟨_, _, bitmap, _⟩
  · rw [rounded] at bitmap table ⊢
    exact ⟨positive, small, uint64_eq (by omega) (by omega), bitmap, table⟩
  · omega

private theorem LaidOut.inodes_le (laid : LaidOut d imageSize i b)
    (head : Head d (roundUp i) (roundUp b) (bitmapBytes i) (bitmapBytes b) (tableBytes i)) (inodes : Count i) :
    i ≤ 2 ^ 22 - 32 := by
  have bits := laid.inodeBits
  have table := laid.table
  rw [head.numInodes_eq, head.dBitmapPtr_eq, head.iBitmapPtr_eq] at bits
  rw [head.numInodes_eq, head.iBlocksPtr_eq, head.dBlocksPtr_eq] at table
  obtain ⟨_, _, number, _, q, _, _⟩ := inodes.of_bits (by omega)
  omega

private theorem LaidOut.noWrap (laid : LaidOut d imageSize i b)
    (head : Head d (roundUp i) (roundUp b) (bitmapBytes i) (bitmapBytes b) (tableBytes i)) (inodes : Count i)
    (blocks : Count b) : NoWrap imageSize i b := by
  refine ⟨laid.inodes_le head inodes, .inr ?_⟩
  have bits := laid.inodeBits
  have bits' := laid.blockBits
  have table := laid.table
  have region := laid.region
  rw [head.numInodes_eq, head.dBitmapPtr_eq, head.iBitmapPtr_eq] at bits
  rw [head.numDataBlocks_eq, head.iBlocksPtr_eq, head.dBitmapPtr_eq] at bits'
  rw [head.numInodes_eq, head.iBlocksPtr_eq, head.dBlocksPtr_eq] at table
  rw [head.numDataBlocks_eq, head.dBlocksPtr_eq] at region
  obtain ⟨_, _, number, bitmap, _⟩ := inodes.of_bits (by omega)
  obtain ⟨_, small, number', bitmap', _⟩ := blocks.of_bits (by omega)
  exact ⟨small, by omega⟩

private theorem NoWrap.laidOut (fits : NoWrap imageSize i b)
    (head : Head d (roundUp i) (roundUp b) (bitmapBytes i) (bitmapBytes b) (tableBytes i)) (inodes : Count i)
    (blocks : Count b) (accepted : totalBytes i b ≤ imageSize) : LaidOut d imageSize i b := by
  obtain ⟨small, room⟩ := fits
  rcases inodes with ⟨positive, _, rounded, bitmap, q, table, _, _⟩ | ⟨_, _, _, _⟩
  · rcases blocks with ⟨positive', _, rounded', bitmap', q', table', _, _⟩ | ⟨_, _, _, _⟩
    · have number : (uint64 (roundUp i) : ℤ) = roundUp i := uint64_eq (by omega) (by omega)
      have number' : (uint64 (roundUp b) : ℤ) = roundUp b := uint64_eq (by omega) (by omega)
      have exact_ : tableBytes i = 512 * roundUp i := by omega
      have region : 48 + bitmapBytes i + bitmapBytes b + tableBytes i + 512 * roundUp b ≤ imageSize := by
        rw [totalBytes] at accepted
        rcases room with near | ⟨_, room⟩
        · have exact_' : tableBytes b = 512 * roundUp b := by omega
          omega
        · omega
      constructor
      all_goals
        simp only [head.numInodes_eq, head.numDataBlocks_eq, head.iBitmapPtr_eq, head.dBitmapPtr_eq, head.iBlocksPtr_eq,
          head.dBlocksPtr_eq, number, number']
        omega
    · omega
  · omega

/-- For all arguments of type `int` and every size of the image for which `mkfs` succeeds: superblock, bitmaps,
table and blocks lie one behind the other inside the image and the counts are as asked for, if and only if no
product wraps, or only that of the blocks does and the image has room for them nevertheless. -/
theorem mkfs_laid_out_iff (made : mkfs env d imageSize i b = some d') (word : i < 2 ^ 31) (word' : b < 2 ^ 31)
    (offsets : imageSize < 2 ^ 63) : LaidOut d' imageSize i b ↔ NoWrap imageSize i b := by
  obtain ⟨positive, positive', _⟩ := mkfs_some made
  obtain ⟨head, _, accepted⟩ := mkfs_head made word word' offsets
  have inodes := count_of_int positive word
  have blocks := count_of_int positive' word'
  exact ⟨fun laid => laid.noWrap head inodes blocks, fun fits => fits.laidOut head inodes blocks accepted⟩

/-- 32 inodes and 32 blocks on an image of one megabyte. -/
theorem mkfs_laid_out_small : ∃ d', mkfs ⟨5, 0, 0⟩ (fun _ => 0) 1048576 32 32 = some d' ∧ LaidOut d' 1048576 32 32 := by
  obtain ⟨d', made⟩ : ∃ d', mkfs ⟨5, 0, 0⟩ (fun _ => 0) 1048576 32 32 = some d' :=
    mkfs_accepts _ _ (by decide) (by decide) (by decide +kernel)
  refine ⟨d', made, (mkfs_laid_out_iff made (by decide) (by decide) (by decide)).mpr ?_⟩
  exact ⟨by decide, .inl (by decide)⟩

/-- With 2^23 inodes the product for the table is zero, and the call succeeds on an image of two megabytes. -/
theorem mkfs_overlaps : ∃ d', mkfs ⟨5, 0, 0⟩ (fun _ => 0) 2097152 8388608 32 = some d' ∧ dBlocksPtr d' = iBlocksPtr d' ∧
    ¬ LaidOut d' 2097152 8388608 32 := by
  obtain ⟨d', made⟩ : ∃ d', mkfs ⟨5, 0, 0⟩ (fun _ => 0) 2097152 8388608 32 = some d' :=
    mkfs_accepts _ _ (by decide) (by decide) (by decide +kernel)
  obtain ⟨head, _⟩ := mkfs_head made (by decide) (by decide) (by decide)
  have table : tableBytes 8388608 = 0 := by decide +kernel
  refine ⟨d', made, ?_, ?_⟩
  · rw [head.dBlocksPtr_eq, head.iBlocksPtr_eq, table, add_zero]
  · intro laid
    have small := laid.inodes_le head (count_of_int (by decide) (by decide))
    omega

end Layout

end Cs537.Wfs
