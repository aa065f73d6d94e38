import Cs537.Fs.Inode
import Cs537.Lib.Ownership
import Mathlib.Data.Nat.Bitwise

/-! # The free map

`balloc` takes the least free block, zeroes it and marks it; `bfree` unmarks a marked block. With the
metadata blocks marked, as `mkfs` leaves them, neither touches a block that is not its own.
-/

namespace Cs537.Fs

open Cs537.Lib

/-- A superblock whose regions follow one another as `mkfs` lays them out: the inodes, the free map, the data blocks. -/
structure Layout extends Superblock where
  dataStart : ℕ
  inodes : ninodes / IPB + inodestart < bmapstart
  bitmap : size / BPB + bmapstart < dataStart
  fits : dataStart ≤ size
  small : size < 2 ^ 32

variable {L : Layout} {sb : Superblock} {d d' : Disk} {b k : ℕ}

/-- The blocks that the free map marks. -/
def Used (sb : Superblock) (d : Disk) : Set ℕ :=
  { b | b < sb.size ∧ (d (bblock sb b) (b % BPB / 8 : ℕ)).toNat.testBit (b % 8) = true }

/-- The blocks that files may own. -/
def Layout.data (L : Layout) : Set ℕ := { b | L.dataStart ≤ b ∧ b < L.size }

private theorem toNat_mask (bi : ℕ) : (mask bi).toNat = 2 ^ (bi % 8) := by
  have power : 2 ^ (bi % 8) < 2 ^ 8 := Nat.pow_lt_pow_right (by decide) (Nat.mod_lt _ (by decide))
  rw [mask, UInt8.toNat_ofNat', Nat.shiftLeft_eq, Nat.one_mul, Nat.mod_eq_of_lt power]

/-- The test of a bit. -/
private theorem and_mask_eq_zero (x : UInt8) (bi : ℕ) : x &&& mask bi = 0 ↔ x.toNat.testBit (bi % 8) = false := by
  rw [← UInt8.toNat_inj, UInt8.toNat_and, toNat_mask, Nat.and_two_pow]
  cases x.toNat.testBit (bi % 8) with
  | false => simp
  | true =>
    have positive := Nat.two_pow_pos (bi % 8)
    simp

private theorem testBit_or_mask (x : UInt8) (bi i : ℕ) :
    (x ||| mask bi).toNat.testBit i = (x.toNat.testBit i || decide (i = bi % 8)) := by
  rw [UInt8.toNat_or, toNat_mask, Nat.testBit_or, Nat.testBit_two_pow]
  congr 1
  exact decide_eq_decide.mpr eq_comm

private theorem testBit_and_not_mask (x : UInt8) (bi i : ℕ) :
    (x &&& ~~~mask bi).toNat.testBit i = (x.toNat.testBit i && decide (i ≠ bi % 8)) := by
  rcases Nat.lt_or_ge i 8 with small | large
  · rw [UInt8.toNat_and, UInt8.toNat_not, Nat.testBit_and,
      show UInt8.size - 1 - (mask bi).toNat = 2 ^ 8 - ((mask bi).toNat + 1) by
      rw [UInt8.size]; omega, Nat.testBit_two_pow_sub_succ (mask bi).toNat_lt, toNat_mask, Nat.testBit_two_pow]
    simp [small, eq_comm]
  · have wide : 2 ^ 8 ≤ 2 ^ i := Nat.pow_le_pow_right (by decide) large
    rw [Nat.testBit_lt_two_pow ((x &&& ~~~mask bi).toNat_lt.trans_le wide),
      Nat.testBit_lt_two_pow (x.toNat_lt.trans_le wide)]
    rfl

/-- Two blocks have the same bit only if they are the same. -/
private theorem bit_injective (block : bblock sb b = bblock sb k) (byte : b % BPB / 8 = k % BPB / 8) (bit : b % 8 = k % 8) :
    b = k := by
  simp only [bblock, BPB, BSIZE] at block byte
  omega

private theorem mod_BPB_mod (b : ℕ) : b % BPB % 8 = b % 8 := Nat.mod_mod_of_dvd b (by decide)

theorem isFree_iff (d : Disk) (below : b < sb.size) :
    d (bblock sb b) (b % BPB / 8 : ℕ) &&& mask (b % BPB) = 0 ↔ b ∉ Used sb d := by
  rw [and_mask_eq_zero, mod_BPB_mod, Used, Set.mem_ofPred_eq, and_iff_right below, Bool.not_eq_true]

private theorem poke_self (d : Disk) (b : ℕ) (x : ℤ) (f : UInt8 → UInt8) : poke d b x f b x = f (d b x) := by
  rw [poke, Function.update_self, Function.update_self]

private theorem poke_other {f : UInt8 → UInt8} {x y : ℤ} (other : k ≠ b ∨ y ≠ x) : poke d b x f k y = d k y := by
  rw [poke]
  rcases eq_or_ne k b with rfl | different
  · rw [Function.update_self, Function.update_of_ne (other.resolve_left fun h => h rfl)]
  · rw [Function.update_of_ne different]

/-- The bit of a block after a change of the byte that holds the bit of another. -/
theorem mem_used_poke {f : UInt8 → UInt8} (k : ℕ) (away : ∀ x i, i ≠ b % 8 → (f x).toNat.testBit i = x.toNat.testBit i)
    (other : k ≠ b) : k ∈ Used sb (poke d (bblock sb b) (b % BPB / 8 : ℕ) f) ↔ k ∈ Used sb d := by
  rw [Used, Used, Set.mem_ofPred_eq, Set.mem_ofPred_eq]
  apply and_congr_right
  intro _
  rcases eq_or_ne (bblock sb k) (bblock sb b) with block | block
  · rcases eq_or_ne (k % BPB / 8) (b % BPB / 8) with byte | byte
    · have bit : k % 8 ≠ b % 8 := fun bit => other (bit_injective block byte bit)
      rw [block, byte, poke_self, away _ _ bit]
    · rw [poke_other (.inr (by omega))]
  · rw [poke_other (.inl block)]

private theorem used_mark (d : Disk) (below : b < sb.size) :
    Used sb (poke d (bblock sb b) (b % BPB / 8 : ℕ) (· ||| mask (b % BPB))) = insert b (Used sb d) := by
  ext k
  rw [Set.mem_insert_iff]
  rcases eq_or_ne k b with rfl | other
  · simp only [Used, Set.mem_ofPred_eq, true_or, iff_true]
    refine ⟨below, ?_⟩
    rw [poke_self, testBit_or_mask, mod_BPB_mod, decide_eq_true rfl, Bool.or_true]
  · rw [mem_used_poke k (fun x i bit => ?_) other, or_iff_right other]
    rw [testBit_or_mask, mod_BPB_mod, decide_eq_false bit, Bool.or_false]

private theorem used_unmark (d : Disk) (b : ℕ) :
    Used sb (poke d (bblock sb b) (b % BPB / 8 : ℕ) (· &&& ~~~mask (b % BPB))) = Used sb d \ {b} := by
  ext k
  rw [Set.mem_sdiff, Set.mem_singleton_iff]
  rcases eq_or_ne k b with rfl | other
  · simp only [Used, Set.mem_ofPred_eq, not_true, and_false, iff_false, not_and, Bool.not_eq_true]
    intro _
    rw [poke_self, testBit_and_not_mask, mod_BPB_mod, decide_eq_false (not_not_intro rfl), Bool.and_false]
  · rw [mem_used_poke k (fun x i bit => ?_) other, and_iff_left other]
    rw [testBit_and_not_mask, mod_BPB_mod, decide_eq_true bit, Bool.and_true]

/-- The map depends on its own blocks alone. -/
theorem used_congr (same : ∀ b < sb.size, d' (bblock sb b) = d (bblock sb b)) : Used sb d' = Used sb d := by
  ext k
  apply and_congr_right
  intro below
  rw [same k below]

/-- The bit that `balloc` looks at is the one of the block it may take. -/
theorem bit_at (sb : Superblock) (i : ℕ) {bi : ℕ} (small : bi < BPB) :
    bblock sb (BPB * i + bi) = bblock sb (BPB * i) ∧ (BPB * i + bi) % BPB = bi := by
  simp only [bblock, BPB, BSIZE] at small ⊢
  omega

private theorem isFree_at {i bi : ℕ} (small : bi < BPB) :
    (decide (BPB * i + bi < sb.size) && d (bblock sb (BPB * i)) (bi / 8 : ℕ) &&& mask bi == 0) = true ↔
      BPB * i + bi < sb.size ∧ BPB * i + bi ∉ Used sb d := by
  obtain ⟨block, bit⟩ := bit_at sb i small
  rw [Bool.and_eq_true, decide_eq_true_eq, beq_iff_eq]
  apply and_congr_right
  intro below
  have free := isFree_iff d below
  rw [block, bit] at free
  exact free

private theorem ballocIn_some {i bi : ℕ} (found : ballocIn sb d (BPB * i) = some bi) :
    bi < BPB ∧ BPB * i + bi < sb.size ∧ BPB * i + bi ∉ Used sb d ∧
      ∀ j, BPB * i ≤ j → j < BPB * i + bi → j ∈ Used sb d := by
  obtain ⟨hit, inside, before⟩ := List.find?_range_eq_some.mp found
  have small := List.mem_range.mp inside
  obtain ⟨below, free⟩ := (isFree_at small).mp hit
  refine ⟨small, below, free, fun j low high => ?_⟩
  obtain ⟨o, rfl⟩ := Nat.exists_eq_add_of_le low
  have earlier := before o (by omega)
  rw [Bool.not_eq_true'] at earlier
  by_contra unused
  rw [(isFree_at (by omega)).mpr ⟨by omega, unused⟩] at earlier
  cases earlier

private theorem ballocIn_none {i : ℕ} (none : ballocIn sb d (BPB * i) = none) {j : ℕ} (low : BPB * i ≤ j)
    (high : j < BPB * (i + 1))
    (below : j < sb.size) : j ∈ Used sb d := by
  obtain ⟨o, rfl⟩ := Nat.exists_eq_add_of_le low
  have skipped := List.find?_range_eq_none.mp none o (by rw [Nat.mul_succ] at high; omega)
  rw [Bool.not_eq_true'] at skipped
  by_contra unused
  rw [(isFree_at (by rw [Nat.mul_succ] at high; omega)).mpr ⟨below, unused⟩] at skipped
  cases skipped

/-- A search along the numbers below a bound stops at the first that has something. -/
theorem findSome?_range {α : Type*} {n : ℕ} {f : ℕ → Option α} {y : α} (found : (List.range n).findSome? f = some y) :
    ∃ i < n, f i = some y ∧ ∀ j < i, f j = none := by
  obtain ⟨front, i, back, split, hit, before⟩ := List.findSome?_eq_some_iff.mp found
  have size : front.length < (List.range n).length := by
    rw [split]
    simp
  have here : (List.range n)[front.length] = i := by simp [split]
  rw [List.getElem_range] at here
  subst here
  refine ⟨front.length, by simpa using size, hit, fun j below => before j ?_⟩
  have there : (front ++ front.length :: back)[j]? = some j := by
    rw [← split, List.getElem?_range (by simp at size; omega)]
  rw [List.getElem?_append_left below] at there
  exact List.mem_of_getElem? there

/-- The block that is handed out is the least free one; it is marked and zeroed. -/
private theorem balloc_ok (done : balloc sb d = .ok (d', k)) : k < sb.size ∧ k ∉ Used sb d ∧ (∀ j < k, j ∈ Used sb d) ∧
    d' = bzero (poke d (bblock sb k) (k % BPB / 8 : ℕ) (· ||| mask (k % BPB))) k := by
  rw [balloc] at done
  split at done
  next b bi found =>
    cases done
    obtain ⟨i, _, hit, before⟩ := findSome?_range found
    obtain ⟨bi', inner, same⟩ := Option.map_eq_some_iff.mp hit
    cases same
    obtain ⟨small, below, free, least⟩ := ballocIn_some inner
    obtain ⟨block, bit⟩ := bit_at sb i small
    refine ⟨below, free, fun j earlier => ?_, by rw [block, bit]⟩
    rcases Nat.lt_or_ge j (BPB * i) with outer | inside
    · have skipped := before (j / BPB) (Nat.div_lt_of_lt_mul outer)
      rw [Option.map_eq_none_iff] at skipped
      exact ballocIn_none skipped (Nat.mul_div_le j BPB) (Nat.lt_mul_div_succ j (by decide)) (by omega)
    · exact least j inside earlier
  next => cases done

/-- The allocator fails only when every block is in use. -/
theorem balloc_error {e : String} (failed : balloc sb d = .error e) :
    e = "balloc: out of blocks" ∧ ∀ j < sb.size, j ∈ Used sb d := by
  rw [balloc] at failed
  split at failed
  next => cases failed
  next none =>
    cases failed
    refine ⟨rfl, fun j below => ?_⟩
    have group : j / BPB < (sb.size + (BPB - 1)) / BPB := by
      simp only [BPB, BSIZE]
      omega
    have skipped := List.findSome?_eq_none_iff.mp none (j / BPB) (List.mem_range.mpr group)
    rw [Option.map_eq_none_iff] at skipped
    exact ballocIn_none skipped (Nat.mul_div_le j BPB) (Nat.lt_mul_div_succ j (by decide)) below

private theorem bfree_eq (sb : Superblock) (d : Disk) (b : ℕ) : bfree sb d b =
    if d (bblock sb b) (b % BPB / 8 : ℕ) &&& mask (b % BPB) = 0 then .error "freeing free block"
    else .ok (poke d (bblock sb b) (b % BPB / 8 : ℕ) (· &&& ~~~mask (b % BPB))) := rfl

private theorem bfree_ok (marked : b ∈ Used sb d) :
    bfree sb d b = .ok (poke d (bblock sb b) (b % BPB / 8 : ℕ) (· &&& ~~~mask (b % BPB))) := by
  rw [bfree_eq, if_neg (by rw [isFree_iff d marked.1]; exact not_not_intro marked)]

/-- The free map is neither below its first block nor among the data blocks. -/
theorem Layout.bblock_bounds (L : Layout) {b : ℕ} (below : b < L.size) :
    L.bmapstart ≤ bblock L.toSuperblock b ∧ bblock L.toSuperblock b < L.dataStart := by
  have group : b / BPB ≤ L.size / BPB := Nat.div_le_div_right (Nat.le_of_lt below)
  exact ⟨Nat.le_add_left _ _, (Nat.add_le_add_right group _).trans_lt L.bitmap⟩

theorem Layout.map_lt (L : Layout) : L.bmapstart < L.dataStart := (Nat.le_add_left _ _).trans_lt L.bitmap

/-- What handing out a block does to the disk. -/
structure Taken (L : Layout) (d d' : Disk) (k : ℕ) : Prop where
  data : k ∈ L.data
  free : k ∉ Used L.toSuperblock d
  used : Used L.toSuperblock d' = insert k (Used L.toSuperblock d)
  zero : d' k = fun _ => 0
  rest : ∀ b, b ≠ k → (b < L.bmapstart ∨ L.dataStart ≤ b) → d' b = d b

theorem balloc_taken (metadata : ∀ b < L.dataStart, b ∈ Used L.toSuperblock d)
    (done : balloc L.toSuperblock d = .ok (d', k)) :
    Taken L d d' k := by
  obtain ⟨below, free, _, rfl⟩ := balloc_ok done
  have above : L.dataStart ≤ k := by
    by_contra low
    exact free (metadata k (by omega))
  have bounds := L.bblock_bounds below
  refine ⟨⟨above, below⟩, free, ?_, by rw [bzero, Function.update_self], fun b other region => ?_⟩
  · rw [← used_mark d below]
    apply used_congr
    intro b inside
    have apart := L.bblock_bounds inside
    rw [bzero, Function.update_of_ne (by omega)]
  · rw [bzero, Function.update_of_ne other, poke, Function.update_of_ne (by omega)]

/-- What giving a block back does to the disk. -/
structure Given (L : Layout) (d d' : Disk) (gone : Set ℕ) : Prop where
  used : Used L.toSuperblock d' = Used L.toSuperblock d \ gone
  rest : ∀ b, (b < L.bmapstart ∨ L.dataStart ≤ b) → d' b = d b

private theorem bfree_given (marked : b ∈ Used L.toSuperblock d) : ∃ d', bfree L.toSuperblock d b = .ok d' ∧
    Given L d d' {b} := by
  refine ⟨_, bfree_ok marked, used_unmark d b, fun k region => ?_⟩
  have bounds := L.bblock_bounds marked.1
  rw [poke, Function.update_of_ne (by omega)]

theorem Given.refl (L : Layout) (d : Disk) : Given L d d ∅ := ⟨(Set.sdiff_empty).symm, fun _ _ => rfl⟩

theorem Given.trans {d'' : Disk} {first second : Set ℕ} (front : Given L d d' first) (back : Given L d' d'' second) :
    Given L d d'' (first ∪ second) where
  used := by rw [back.used, front.used, Set.sdiff_sdiff]
  rest b region := (back.rest b region).trans (front.rest b region)

/-- A loop that frees different marked blocks frees them all. -/
theorem bfree_all {blocks : List ℕ} (distinct : blocks.Nodup) (marked : ∀ b ∈ blocks, b ∈ Used L.toSuperblock d) :
    ∃ d', blocks.foldlM (bfree L.toSuperblock) d = .ok d' ∧ Given L d d' { b | b ∈ blocks } := by
  induction blocks generalizing d with
  | nil =>
    refine ⟨d, rfl, ?_⟩
    simpa using Given.refl L d
  | cons b rest ih =>
    obtain ⟨absent, distinct⟩ := List.nodup_cons.mp distinct
    obtain ⟨mid, freed, given⟩ := bfree_given (marked b List.mem_cons_self)
    have later : ∀ c ∈ rest, c ∈ Used L.toSuperblock mid := by
      intro c member
      rw [given.used]
      refine ⟨marked c (List.mem_cons_of_mem b member), ?_⟩
      rintro rfl
      exact absent member
    obtain ⟨d', done, all⟩ := ih distinct later
    refine ⟨d', ?_, ?_⟩
    · rw [List.foldlM_cons, freed]
      exact done
    · have both := given.trans all
      rw [show {b} ∪ { c | c ∈ rest } = { c | c ∈ b :: rest } by ext c; simp] at both
      exact both

end Cs537.Fs
