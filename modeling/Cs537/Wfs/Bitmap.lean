import Cs537.Wfs.Release
import Cs537.Lib.LeastFree

/-! # The bitmaps

`allocate_block` scans words of 32 bits with a shifted one, and `flip_bit_in_bitmap` takes the exclusive or of one word
with it. Row and column of a number are computed in both, and mean the same bit: together the two functions keep the
set of the free numbers.
-/

namespace Cs537.Wfs

open Lib Memory

variable {L : Layout} {d d' : Disk} {a x : ℤ} {count k n : ℕ}

section Words

/-- `old_bit` at a row, an `int` of 32 bits. -/
def word (d : Disk) (a : ℤ) (row : ℕ) : BitVec 32 := BitVec.ofNat 32 (d.le (a + 4 * row) 4)

private theorem toNat_word (d : Disk) (a : ℤ) (row : ℕ) : (word d a row).toNat = d.le (a + 4 * row) 4 := by
  rw [word, BitVec.toNat_ofNat]
  exact Nat.mod_eq_of_lt (le_lt d _ 4)

/-- `~old_bit == 0`. -/
private theorem not_eq_zero_iff {old : BitVec 32} : ~~~old = 0#32 ↔ old.toNat = 2 ^ 32 - 1 := by
  have small := old.isLt
  rw [← BitVec.toNat_inj, BitVec.toNat_not, BitVec.toNat_ofNat]
  omega

/-- `((1 << col) & ~old_bit) != 0`. -/
private theorem and_not_ne_zero_iff {old : BitVec 32} {col : ℕ} (small : col < 32) :
    (1#32 <<< col) &&& ~~~old ≠ 0#32 ↔ old.toNat.testBit col = false := by
  have one : BitVec.twoPow 32 col ≠ 0#32 := by
    intro zero
    have value := BitVec.toNat_twoPow_of_lt small
    rw [zero] at value
    exact absurd value (Nat.two_pow_pos col).ne
  change BitVec.twoPow 32 col &&& ~~~old ≠ 0#32 ↔ _
  rw [BitVec.twoPow_and, BitVec.getLsbD_not, BitVec.testBit_toNat]
  cases old.getLsbD col <;> simp [small, one]

/-- The loop of `allocate_block` in the words of the source. -/
theorem allocateRows_word (d : Disk) (a : ℤ) (fuel row : ℕ) : allocateRows d a (fuel + 1) row =
    if ~~~word d a row = 0#32 then allocateRows d a fuel (row + 1)
    else match (List.range 32).find? fun col => (1#32 <<< col) &&& ~~~word d a row ≠ 0#32 with
      | some col => row * 32 + col
      | none => allocateRows d a fuel (row + 1) := by
  have same : (List.range 32).find? (fun col => decide ((1#32 <<< col) &&& ~~~word d a row ≠ 0#32)) =
      (List.range 32).find? fun col => !(d.le (a + 4 * row) 4).testBit col := by
    apply List.find?_congr
    intro col member
    rw [← toNat_word, Bool.eq_iff_iff, decide_eq_true_eq, and_not_ne_zero_iff (List.mem_range.mp member)]
    simp
  have full : ~~~word d a row = 0#32 ↔ d.le (a + 4 * row) 4 = 2 ^ 32 - 1 := by rw [not_eq_zero_iff, toNat_word]
  rw [allocateRows, same]
  exact if_congr full.symm rfl rfl

/-- `flip_bit_in_bitmap` in the words of the source. -/
theorem flipBitInBitmap_word (d : Disk) (a : ℤ) (k : ℕ) : flipBitInBitmap d a k =
    d.store (a + 4 * (k / 32 : ℕ)) (leBytes 4 (word d a (k / 32) ^^^ (1#32 <<< (k % 32))).toNat) := by
  have one : (1#32 <<< (k % 32)).toNat = 2 ^ (k % 32) := BitVec.toNat_twoPow_of_lt (Nat.mod_lt _ (by decide))
  rw [flipBitInBitmap_nat, BitVec.toNat_xor, toNat_word, one]

end Words

section Bytes

/-- A bit of a bitmap is a bit of a byte. -/
private theorem bit_eq_testBit (d : Disk) (a : ℤ) (n : ℕ) : bit d a n = (d (a + (n / 8 : ℕ))).toNat.testBit (n % 8) := by
  have position : a + 4 * (n / 32 : ℕ) + (n % 32 / 8 : ℕ) = a + (n / 8 : ℕ) := by omega
  have column : n % 32 % 8 = n % 8 := by omega
  rw [bit, testBit_le (by omega), position, column]

private theorem eq_of_testBit {b b' : UInt8} (same : ∀ i < 8, b.toNat.testBit i = b'.toNat.testBit i) : b = b' := by
  refine UInt8.toNat_inj.mp (Nat.eq_of_testBit_eq fun i => ?_)
  by_cases small : i < 8
  · exact same i small
  · have wide : 2 ^ 8 ≤ 2 ^ i := Nat.pow_le_pow_right (by decide) (by omega)
    rw [Nat.testBit_lt_two_pow (b.toNat_lt.trans_le wide), Nat.testBit_lt_two_pow (b'.toNat_lt.trans_le wide)]

/-- Flipping a bit flips one bit of one byte. -/
theorem flipBitInBitmap_eq (d : Disk) (a : ℤ) (k : ℕ) : flipBitInBitmap d a k =
    Function.update d (a + (k / 8 : ℕ)) (d (a + (k / 8 : ℕ)) ^^^ UInt8.ofNat (2 ^ (k % 8))) := by
  have power : 2 ^ (k % 8) < 2 ^ 8 := Nat.pow_lt_pow_right (by decide) (Nat.mod_lt _ (by decide))
  funext x
  by_cases inside : a + 4 * (k / 32 : ℕ) ≤ x ∧ x < a + 4 * (k / 32 : ℕ) + 4
  · apply eq_of_testBit
    intro i small
    obtain ⟨j, rfl⟩ : ∃ j : ℕ, x = a + j := ⟨(x - a).toNat, by omega⟩
    have byte (d : Disk) : (d (a + j)).toNat.testBit i = bit d a (8 * j + i) := by
      rw [bit_eq_testBit, Nat.mul_add_div (by decide), Nat.div_eq_of_lt small, Nat.mul_add_mod,
        Nat.mod_eq_of_lt small, add_zero]
    rw [byte, bit_flip]
    by_cases here : j = k / 8
    · rw [← here, Function.update_self, UInt8.toNat_xor, UInt8.toNat_ofNat', Nat.mod_eq_of_lt power, Nat.testBit_xor,
        Nat.testBit_two_pow, byte]
      by_cases mine : k % 8 = i
      · have same : 8 * j + i = k := by omega
        simp [mine, same]
      · have other : 8 * j + i ≠ k := by omega
        simp [mine, other]
    · rw [Function.update_of_ne (by omega), byte, if_neg (by omega)]
  · rw [flipBitInBitmap_nat, store_outside (by rw [length_leBytes]; omega), Function.update_of_ne (by omega)]

/-- Flipping is its own inverse. -/
private theorem flipBitInBitmap_flip (d : Disk) (a : ℤ) (k : ℕ) : flipBitInBitmap (flipBitInBitmap d a k) a k = d := by
  rw [flipBitInBitmap_eq, flipBitInBitmap_eq, Function.update_self, Function.update_idem, UInt8.xor_assoc, UInt8.xor_self,
    UInt8.xor_zero, Function.update_eq_self]

end Bytes

section Allocator

private theorem allocateBlock_eq_neg (words : 32 ∣ count) :
    allocateBlock d a count = -1 ↔ ∀ k < count, bit d a k = true := by
  obtain ⟨rows, rfl⟩ := words
  rw [allocateBlock_eq, ← lowestClear_eq_none]
  cases lowestClear (bit d a) (32 * rows) with
  | none => simp
  | some k => simp

private theorem allocateBlock_eq_nat (words : 32 ∣ count) :
    allocateBlock d a count = k ↔ k < count ∧ bit d a k = false ∧ ∀ j < k, bit d a j = true := by
  obtain ⟨rows, rfl⟩ := words
  rw [allocateBlock_eq]
  cases lowest : lowestClear (bit d a) (32 * rows) with
  | none =>
    have full := lowestClear_eq_none.mp lowest
    refine iff_of_false (by simp) ?_
    rintro ⟨inside, clear, _⟩
    rw [full k inside] at clear
    cases clear
  | some k' =>
    obtain ⟨inside', clear', below'⟩ := lowestClear_eq_some lowest
    rw [Nat.cast_inj]
    constructor
    · rintro rfl
      exact ⟨inside', clear', below'⟩
    · rintro ⟨_, clear, below⟩
      rcases lt_trichotomy k' k with less | same | less
      · rw [below k' less] at clear'
        cases clear'
      · exact same
      · rw [below' k less] at clear
        cases clear

/-- The numbers whose bit is clear. -/
def clearBits (bits : ℕ → Bool) (count : ℕ) : Set ℕ := {k | k < count ∧ bits k = false}

variable {bits : ℕ → Bool}

private theorem isLeast_clearBits : IsLeast (clearBits bits count) k ↔
    k < count ∧ bits k = false ∧ ∀ j < k, bits j = true := by
  constructor
  · rintro ⟨⟨inside, clear⟩, lowest⟩
    refine ⟨inside, clear, fun j less => ?_⟩
    by_contra other
    exact absurd (lowest ⟨less.trans inside, Bool.eq_false_of_not_eq_true other⟩) (not_le.mpr less)
  · rintro ⟨inside, clear, below⟩
    refine ⟨⟨inside, clear⟩, fun j free => ?_⟩
    by_contra less
    have set := below j (not_le.mp less)
    rw [free.2] at set
    cases set

private theorem clearBits_eq_empty : clearBits bits count = ∅ ↔ ∀ k < count, bits k = true := by
  rw [Set.eq_empty_iff_forall_notMem]
  simp only [clearBits, Set.mem_ofPred_eq, not_and, Bool.not_eq_false]

/-- A clear bit is set. -/
theorem clearBits_take (clear : bits k = false) :
    clearBits (Function.update bits k !bits k) count = clearBits bits count \ {k} := by
  ext n
  simp only [clearBits, Set.mem_ofPred_eq, Set.mem_sdiff, Set.mem_singleton_iff]
  by_cases same : n = k
  · simp [same, clear]
  · simp [same]

/-- A set bit is cleared. -/
theorem clearBits_give (inside : k < count) (set : bits k = true) :
    clearBits (Function.update bits k !bits k) count = insert k (clearBits bits count) := by
  ext n
  simp only [clearBits, Set.mem_ofPred_eq, Set.mem_insert_iff]
  by_cases same : n = k
  · simp [same, set, inside]
  · simp [same]

/-- The lowest of the clear bits is set. -/
theorem freeStep_take (inside : k < count) (clear : bits k = false) (below : ∀ j < k, bits j = true) :
    FreeStep (Set.Iio count) (clearBits bits count) (.take (some k))
      (clearBits (Function.update bits k !bits k) count) := by
  rw [clearBits_take clear]
  exact .least (isLeast_clearBits.mpr ⟨inside, clear, below⟩)

private theorem freeStep_full (full : ∀ k < count, bits k = true) :
    FreeStep (Set.Iio count) (clearBits bits count) (.take none) (clearBits bits count) := by
  rw [clearBits_eq_empty.mpr full]
  exact .none

private theorem freeStep_give (inside : k < count) (set : bits k = true) :
    FreeStep (Set.Iio count) (clearBits bits count) (.give k)
      (clearBits (Function.update bits k !bits k) count) := by
  rw [clearBits_give inside set]
  refine .give inside ?_
  rintro ⟨_, clear⟩
  rw [set] at clear
  cases clear

/-- The free numbers of a bitmap. -/
def freeNumbers (a : ℤ) (count : ℕ) (d : Disk) : Set ℕ := clearBits (bit d a) count

/-- A use of a bitmap: a number is allocated and its bit flipped, if there is one, or the bit of an allocated number is
flipped. -/
inductive BitmapStep (a : ℤ) (count : ℕ) : Disk → Deal ℕ → Disk → Prop
  | allocate {d : Disk} {k : ℕ} : allocateBlock d a count = k →
      BitmapStep a count d (.take (some k)) (flipBitInBitmap d a k)
  | full {d : Disk} : allocateBlock d a count = -1 → BitmapStep a count d (.take none) d
  | release {d : Disk} {k : ℕ} : k < count → bit d a k = true → BitmapStep a count d (.give k) (flipBitInBitmap d a k)

private theorem freeNumbers_flip (d : Disk) (a : ℤ) (k count : ℕ) :
    freeNumbers a count (flipBitInBitmap d a k) = clearBits (Function.update (bit d a) k !bit d a k) count := by
  have bits : bit (flipBitInBitmap d a k) a = Function.update (bit d a) k !bit d a k := by
    funext n
    rw [bit_flip, Function.update_apply]
  rw [freeNumbers, bits]

/-- A use of the bitmap is a step of the free numbers. -/
private theorem BitmapStep.freeStep (words : 32 ∣ count) {deal : Deal ℕ} (step : BitmapStep a count d deal d') :
    FreeStep (Set.Iio count) (freeNumbers a count d) deal (freeNumbers a count d') := by
  cases step with
  | allocate found =>
    obtain ⟨inside, clear, below⟩ := (allocateBlock_eq_nat words).mp found
    rw [freeNumbers_flip]
    exact freeStep_take inside clear below
  | full none => exact freeStep_full ((allocateBlock_eq_neg words).mp none)
  | release inside set =>
    rw [freeNumbers_flip]
    exact freeStep_give inside set

/-- A step of the free numbers is a use of the bitmap. -/
private theorem BitmapStep.of_freeStep (words : 32 ∣ count) {deal : Deal ℕ} {free : Set ℕ}
    (step : FreeStep (Set.Iio count) (freeNumbers a count d) deal free) :
    ∃ d', BitmapStep a count d deal d' ∧ freeNumbers a count d' = free := by
  generalize before : freeNumbers a count d = numbers at step
  cases step with
  | least least =>
    subst before
    have lowest := isLeast_clearBits.mp least
    refine ⟨_, .allocate ((allocateBlock_eq_nat words).mpr lowest), ?_⟩
    rw [freeNumbers_flip, clearBits_take lowest.2.1]
    rfl
  | none =>
    have full := clearBits_eq_empty.mp before
    exact ⟨d, .full ((allocateBlock_eq_neg words).mpr full), before⟩
  | @give _ k inside held =>
    subst before
    have set : bit d a k = true := by
      by_contra other
      exact held ⟨inside, Bool.eq_false_of_not_eq_true other⟩
    refine ⟨_, .release inside set, ?_⟩
    rw [freeNumbers_flip, clearBits_give inside set]
    rfl

/-- The bytes around the bitmap stay. -/
theorem BitmapStep.outside (words : 32 ∣ count) {deal : Deal ℕ} (step : BitmapStep a count d deal d')
    (apart : x < a ∨ a + (count / 8 : ℕ) ≤ x) : d' x = d x := by
  have flip {k : ℕ} (inside : k < count) : flipBitInBitmap d a k x = d x := by
    rw [flipBitInBitmap_eq]
    exact Function.update_of_ne (by omega) ..
  cases step with
  | allocate found => exact flip ((allocateBlock_eq_nat words).mp found).1
  | full => rfl
  | release inside => exact flip inside

/-- A bitmap of words, whatever its bytes are: `allocate_block` gives -1 if all bits are set and the lowest clear bit
otherwise; `flip_bit_in_bitmap` changes one bit, and changes it back. Allocating a number and flipping its bit, and
flipping the bit of an allocated number, are the steps of the set of the free numbers: what is handed out is the least
of them, is not handed out again before it is given back, and the bytes around the bitmap stay. -/
theorem bitmap_implements (words : 32 ∣ count) (a : ℤ) :
    (∀ d, (allocateBlock d a count = -1 ↔ ∀ k < count, bit d a k = true) ∧
      ∀ k : ℕ, allocateBlock d a count = k ↔ k < count ∧ bit d a k = false ∧ ∀ j < k, bit d a j = true) ∧
    (∀ (d : Disk) (k : ℕ), (∀ n, bit (flipBitInBitmap d a k) a n = if n = k then !bit d a k else bit d a n) ∧
      flipBitInBitmap d a k =
        Function.update d (a + (k / 8 : ℕ)) (d (a + (k / 8 : ℕ)) ^^^ UInt8.ofNat (2 ^ (k % 8))) ∧
      flipBitInBitmap (flipBitInBitmap d a k) a k = d) ∧
    (∀ d deals d', Steps (BitmapStep a count) d deals d' →
      Steps (FreeStep (Set.Iio count)) (freeNumbers a count d) deals (freeNumbers a count d') ∧
      (∀ front mid back k, deals = front ++ .take (some k) :: (mid ++ .take (some k) :: back) → .give k ∈ mid) ∧
      ∀ x, (x < a ∨ a + (count / 8 : ℕ) ≤ x) → d' x = d x) ∧
    ∀ d deals free, Steps (FreeStep (Set.Iio count)) (freeNumbers a count d) deals free →
      ∃ d', Steps (BitmapStep a count) d deals d' ∧ freeNumbers a count d' = free := by
  refine ⟨fun d => ⟨allocateBlock_eq_neg words, fun k => allocateBlock_eq_nat words⟩,
    fun d k => ⟨bit_flip d a k, flipBitInBitmap_eq d a k, flipBitInBitmap_flip d a k⟩, fun d deals d' steps => ?_,
    fun d deals free steps => steps.lift (freeNumbers a count) fun d deal free step => BitmapStep.of_freeStep words step⟩
  have simulated : Steps (FreeStep (Set.Iio count)) (freeNumbers a count d) deals (freeNumbers a count d') :=
    steps.map (freeNumbers a count) fun d deal d' step => BitmapStep.freeStep words step
  refine ⟨simulated, ?_, fun x apart => ?_⟩
  · rintro front mid back k rfl
    exact FreeStep.given_between simulated
  · exact steps.preserves (fun d' => d' x = d x) (fun _ => True)
      (fun _ _ _ _ step same => (step.outside words apart).trans same) (fun _ _ => trivial) rfl

/-- In a bitmap of two empty words 0 and 1 are handed out, 0 is given back and handed out again. -/
theorem bitmap_implements_reuse : ∃ d' : Disk, Steps (BitmapStep 48 64) (fun _ => 0)
    [.take (some 0), .take (some 1), .give 0, .take (some 0)] d' ∧ d' 48 = 3 ∧ ∀ x, (x < 48 ∨ 56 ≤ x) → d' x = 0 := by
  have steps : Steps (BitmapStep 48 64) (fun _ => 0) [.take (some 0), .take (some 1), .give 0, .take (some 0)]
      (flipBitInBitmap (flipBitInBitmap (flipBitInBitmap (flipBitInBitmap (fun _ => 0) 48 0) 48 1) 48 0) 48 0) := by
    refine .cons (.allocate ?_) (.cons (.allocate ?_) (.cons (.release ?_ ?_) (.cons (.allocate ?_) (.nil _)))) <;>
      decide +kernel
  obtain ⟨_, _, runs, _⟩ := bitmap_implements (show 32 ∣ 64 by decide) 48
  exact ⟨_, steps, by decide +kernel, (runs _ _ _ steps).2.2⟩

end Allocator

section Image

variable {r : Ref}

/-- The free blocks of an image. -/
def Fs.freeSet (L : Layout) (fs : Fs) : Set ℕ := clearBits fs.dbit L.blocks

/-- They are the free numbers of its data bitmap. -/
theorem freeNumbers_dBitmap (L : Layout) (d : Disk) : freeNumbers L.dBitmap L.blocks d = (view L d).freeSet L := by
  ext k
  simp only [freeNumbers, Fs.freeSet, clearBits, Set.mem_ofPred_eq, view]
  refine and_congr_right fun inside => ?_
  simp [inside]

/-- A null pointer is filled with the lowest of them, unless there is none. -/
theorem newBlock_freeStep (super : Super L d) (inv : Pointers L (view L d)) (holds : (view L d).Holds r) :
    newBlock d ((view L d).slot L r) = none ∧
        FreeStep (Set.Iio L.blocks) ((view L d).freeSet L) (.take none) ((view L d).freeSet L) ∨
      ∃ k d', newBlock d ((view L d).slot L r) = some d' ∧ view L d' = (view L d).point L r k ∧
        FreeStep (Set.Iio L.blocks) ((view L d).freeSet L) (.take (some k)) ((view L d').freeSet L) := by
  have filled := newBlock_eq super inv holds
  cases lowest : lowestClear (view L d).dbit L.blocks with
  | none =>
    rw [lowest] at filled
    exact .inl ⟨filled, freeStep_full (lowestClear_eq_none.mp lowest)⟩
  | some k =>
    rw [lowest] at filled
    obtain ⟨d', some, view_eq⟩ := filled
    obtain ⟨inside, clear, below⟩ := lowestClear_eq_some lowest
    have step := freeStep_take inside clear below
    rw [clear, Bool.not_false, ← point_dbit (L := L) (r := r) clear, ← view_eq] at step
    exact .inr ⟨k, d', some, view_eq, step⟩

/-- A block in use is given back. -/
theorem Super.freeBlock_freeStep (super : Super L d) (inside : k < L.blocks) (set : (view L d).dbit k = true) :
    FreeStep (Set.Iio L.blocks) ((view L d).freeSet L) (.give k) ((view L (Wfs.freeBlock d (L.block k))).freeSet L) := by
  rw [super.freeBlock inside]
  exact freeStep_give inside set

end Image

end Cs537.Wfs
