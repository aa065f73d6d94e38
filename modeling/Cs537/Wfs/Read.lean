import Cs537.Wfs.Lookup

/-! # What `wfs_read` returns

Where the blocks of the requested stretch have pointers, the loop returns the bytes of the file.
-/

namespace Cs537.Wfs

open Lib Memory

variable {L : Layout} {d : Disk} {n : ℕ}

/-- Consecutive bytes of a file. -/
def Fs.fileBytes (L : Layout) (fs : Fs) (n pos len : ℕ) : List UInt8 :=
  (List.range len).map fun i => fs.fileByte L n (pos + i)

private theorem fileBytes_add (fs : Fs) (pos front back : ℕ) :
    fs.fileBytes L n pos (front + back) = fs.fileBytes L n pos front ++ fs.fileBytes L n (pos + front) back := by
  simp only [Fs.fileBytes, List.range_add, List.map_append, List.map_map]
  congr 1
  apply List.map_congr_left
  intro i _
  simp only [Function.comp_apply, Nat.add_assoc]

/-- The pointer the loop follows for the block of a position. -/
theorem Ordered.readPointer (ordered : Ordered L d) {b : ℕ} (holds : (view L d).Holds (fileRef n b)) :
    (if (b : ℤ) ≥ indBlock then d.long (d.long (blocksAt (L.inode n) indBlock) + 8 * ((b : ℤ) - indBlock))
      else d.long (L.inode n + 56 + 8 * b)) = (view L d).target L (fileRef n b) := by
  have slot := ordered.long_slot holds
  by_cases direct : b < indBlock
  · rw [if_neg (by omega), ← slot, slot_direct (c := ⟨0, [], b, 0⟩) direct]
    rfl
  · have live : (view L d).ibit n = true := by
      rw [fileRef, if_neg direct] at holds
      exact holds.1
    have split : b = indBlock + (b - indBlock) := by omega
    rw [split, slot_entry live, ← split] at slot
    rw [if_pos (by omega), ← slot]
    congr 2
    omega

private theorem Ordered.load_block (ordered : Ordered L d) {pos count k : ℕ}
    (target : (view L d).target L (fileRef n (pos / blockSize)) = L.block k)
    (fits : pos % blockSize + count ≤ blockSize) :
    d.load (L.block k + (pos % blockSize : ℕ)) count = (view L d).fileBytes L n pos count := by
  obtain ⟨k', inside, eq⟩ := ordered.pointers.valid _ (by rw [target]; exact L.block_ne_zero k)
  obtain rfl := L.block_inj (target.symm.trans eq)
  apply List.ext_getElem
  · simp [Fs.fileBytes]
  · intro i small _
    rw [length_load] at small
    have quotient : (pos + i) / blockSize = pos / blockSize := by
      simp only [blockSize] at *
      omega
    have remainder : (pos + i) % blockSize = pos % blockSize + i := by
      simp only [blockSize] at *
      omega
    simp only [getElem_load, Fs.fileBytes, List.getElem_map, List.getElem_range]
    rw [Fs.fileByte, quotient, remainder, target, L.blockNo_block, add_assoc, ← Nat.cast_add]
    exact byte_block inside (by omega) (by simp only [blockSize] at *; omega)

theorem Ordered.readLoop (ordered : Ordered L d) (fuel : ℕ) {pos left : ℕ} (enough : left ≤ fuel)
    (allocated : ∀ x, pos ≤ x → x < pos + left → (view L d).Allocated L n x) :
    readLoop d (L.inode n) fuel (pos / blockSize : ℕ) (pos % blockSize) left = (view L d).fileBytes L n pos left := by
  induction fuel generalizing pos left with
  | zero =>
    obtain rfl : left = 0 := by omega
    rfl
  | succ fuel ih =>
    rw [Wfs.readLoop]
    by_cases done : left = 0
    · rw [if_pos done, done]
      rfl
    · rw [if_neg done]
      obtain ⟨k, _, target⟩ := ordered.pointers.valid _ (allocated pos le_rfl (by omega))
      have small : pos % blockSize < blockSize := Nat.mod_lt _ (by decide)
      have chunk : d.load (L.block k + (pos % blockSize : ℕ)) (min (blockSize - pos % blockSize) left) =
          (view L d).fileBytes L n pos (min (blockSize - pos % blockSize) left) :=
        ordered.load_block target (by omega)
      have holds : (view L d).Holds (fileRef n _) := Fs.holds_of_target (L := L) (by rw [target]; exact L.block_ne_zero k)
      have pointer := (ordered.readPointer holds).trans target
      simp only [pointer, chunk]
      have split : left = min (blockSize - pos % blockSize) left + (left - min (blockSize - pos % blockSize) left) := by
        omega
      conv_rhs => rw [split, fileBytes_add]
      congr 1
      by_cases last : left ≤ blockSize - pos % blockSize
      · have nothing : left - min (blockSize - pos % blockSize) left = 0 := by omega
        rw [nothing]
        cases fuel <;> simp [Wfs.readLoop, Fs.fileBytes]
      · have count : min (blockSize - pos % blockSize) left = blockSize - pos % blockSize := by omega
        have quotient : (pos + (blockSize - pos % blockSize)) / blockSize = pos / blockSize + 1 := by
          simp only [blockSize] at *
          omega
        have remainder : (pos + (blockSize - pos % blockSize)) % blockSize = 0 := by
          simp only [blockSize] at *
          omega
        have rest (x : ℕ) (low : pos + (blockSize - pos % blockSize) ≤ x)
            (high : x < pos + (blockSize - pos % blockSize) + (left - (blockSize - pos % blockSize))) :
            (view L d).Allocated L n x := allocated x (by omega) (by omega)
        have next := ih (by omega) rest
        rw [quotient, remainder] at next
        rw [count, ← next]
        push_cast
        rfl

/-- `wfs_read` of a stretch of a file whose blocks have pointers. -/
theorem Ordered.readPath (ordered : Ordered L d) {path : Name} (found : (findInodeNumberByPath d path).2 = n)
    (live : (view L d).ibit n = true) (env : Env) {count offset : ℕ} (left : ℕ)
    (stretch : left = min count (fileSize ((view L d).inode n) - offset).toNat)
    (allocated : ∀ x, offset ≤ x → x < offset + left → (view L d).Allocated L n x) :
    (readPath env d path count offset).2 = (↑left, (view L d).fileBytes L n offset left) := by
  have inside := view_ibit_lt live
  have known : (n : ℤ) ≠ -1 := by omega
  have effective : (if (offset : ℤ) ≥ fileSize ((view L d).inode n) then 0
      else (fileSize ((view L d).inode n) - offset).toNat) = (fileSize ((view L d).inode n) - offset).toNat := by
    split_ifs <;> omega
  have bytes : Wfs.readLoop d (L.inode n) left (int32 (offset / blockSize : ℕ)) (offset % blockSize) left =
      (view L d).fileBytes L n offset left := by
    cases left with
    | zero => rfl
    | succ left =>
      have small : offset / blockSize < 71 := by
        have holds := Fs.holds_of_target (allocated offset le_rfl (by omega))
        rw [fileRef] at holds
        split_ifs at holds with direct
        · simp only [indBlock] at direct
          omega
        · have := holds.2.2.1
          simp only [indBlock, entriesPerBlock] at *
          omega
      rw [int32_eq (by simp only [blockSize] at *; omega) (by simp only [blockSize] at *; omega)]
      exact ordered.readLoop _ le_rfl allocated
  have length : ((view L d).fileBytes L n offset left).length = left := by simp [Fs.fileBytes]
  simp only [Wfs.readPath, found, if_neg known, ordered.super.inodeAt_eq inside, long_sizeAt inside, effective, ← stretch,
    bytes, length]

end Cs537.Wfs
