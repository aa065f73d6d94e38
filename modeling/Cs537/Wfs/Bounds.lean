import Cs537.Wfs.Exits
import Cs537.Wfs.RoundTrip

/-! # How long a file can get

A write returns an error and leaves the size alone, or it counts bytes that end below block 71. A file that is
no longer than 71 blocks stays so, and the rounds of a read stay within the entries of the indirect block.
-/

namespace Cs537.Wfs

open Lib Memory

variable {L : Layout} {d d' : Disk} {n : ℕ} {path : Name} {env : Env} {buf : List UInt8} {offset : ℕ}

/-- `71 * 512`, the direct blocks and the entries of the indirect block. -/
def maxSize : ℕ := blockSize * (indBlock + entriesPerBlock)

theorem MetaStep.size_eq {size : ℤ} (step : MetaStep L n d d' size) : fileSize ((view L d').inode n) = size := by
  obtain ⟨page, view, _, _, eq⟩ := step.page
  rw [view, ← eq]
  exact congrArg fileSize (Function.update_self ..)

/-- The size after a write of some bytes. -/
theorem writePath_size (ordered : Ordered L d) (found : (findInodeNumberByPath d path).2 = n)
    (live : (view L d).ibit n = true) (reg : isReg ((view L d).inode n) = true)
    (low : 0 ≤ fileSize ((view L d).inode n)) (some : buf ≠ []) (env : Env) (offset : ℕ) :
    ((writePath env d path buf offset).2 = -enospc ∧
        fileSize ((view L (writePath env d path buf offset).1).inode n) = fileSize ((view L d).inode n)) ∨
      ∃ r : ℕ, (writePath env d path buf offset).2 = r ∧ 0 < r ∧ r ≤ buf.length ∧ offset + r ≤ maxSize ∧
        fileSize ((view L (writePath env d path buf offset).1).inode n) =
          max (fileSize ((view L d).inode n)) (offset + r) := by
  have inside := view_ibit_lt live
  have known : (n : ℤ) ≠ -1 := by omega
  have written := ordered.writePath env found live reg buf offset
  have counted : Counted offset (writePath env d path buf offset).2 := by
    simp only [writePath, found, if_neg known]
    exact writeInode_counted env d _ offset some
  obtain ⟨mid, bytes, rest, split, run, finished, _⟩ := written.run
  rcases counted with failed | ⟨r, ret, positive, fits⟩
  · left
    rcases finished.cases with ⟨_, _, step⟩ | ⟨eq, _⟩
    · exact ⟨failed, step.size_eq.trans run.size⟩
    · rw [failed, enospc] at eq
      omega
  · right
    rcases finished.cases with ⟨eq, _, _⟩ | ⟨eq, step⟩
    · rw [ret, enospc] at eq
      omega
    · have count : r = bytes.length := by
        rw [ret] at eq
        exact_mod_cast eq
      have high : fileSize ((view L d).inode n) < 2 ^ 63 := int64_lt _
      refine ⟨r, ret, positive, ?_, fits, ?_⟩
      · rw [split, List.length_append]
        omega
      · simp only [blockSize, indBlock, entriesPerBlock] at fits
        rw [step.size_eq, run.size, ← count, grown_eq low high (by omega)]
        push_cast
        rfl

section Rounds

/-- The rounds of the loop of `wfs_read`: the number of the block, the offset in it and the count. -/
def readRounds : ℕ → ℤ → ℕ → ℕ → List (ℤ × ℕ × ℕ)
  | 0, _, _, _ => []
  | fuel + 1, blockNum, blockOffset, left =>
      if left = 0 then []
      else
        let count := min (blockSize - blockOffset) left
        (blockNum, blockOffset, count) :: readRounds fuel (blockNum + 1) 0 (left - count)

/-- The pointer a round follows. -/
def readPointer (d : Disk) (inode blockNum : ℤ) : ℤ :=
  if blockNum ≥ indBlock then d.long (d.long (blocksAt inode indBlock) + 8 * (blockNum - indBlock))
  else d.long (inode + 56 + 8 * blockNum)

/-- The loop is its rounds, one after the other. -/
theorem readLoop_eq (d : Disk) (inode : ℤ) (fuel : ℕ) (blockNum : ℤ) (blockOffset left : ℕ) :
    readLoop d inode fuel blockNum blockOffset left = (readRounds fuel blockNum blockOffset left).flatMap
      fun round => d.load (readPointer d inode round.1 + round.2.1) round.2.2 := by
  induction fuel generalizing blockNum blockOffset left with
  | zero => rfl
  | succ fuel ih =>
    rw [readLoop, readRounds]
    by_cases done : left = 0
    · rw [if_pos done, if_pos done]
      rfl
    · rw [if_neg done, if_neg done]
      simp only [List.flatMap_cons, ih]
      rfl

/-- The rounds lie in the blocks of the stretch that is read. -/
theorem readRounds_inside (fuel : ℕ) (blockNum : ℤ) (blockOffset left bound : ℕ) (inside : blockOffset < blockSize)
    (fits : blockSize * blockNum + blockOffset + left ≤ blockSize * bound) :
    ∀ round ∈ readRounds fuel blockNum blockOffset left, blockNum ≤ round.1 ∧ round.1 < bound := by
  induction fuel generalizing blockNum blockOffset left with
  | zero => simp [readRounds]
  | succ fuel ih =>
    rw [readRounds]
    split_ifs with done
    · simp
    · simp only [blockSize] at *
      intro round member
      rcases List.mem_cons.mp member with rfl | later
      · dsimp only
        omega
      · have next := ih (blockNum + 1) 0 (left - min (512 - blockOffset) left) (by decide) (by omega) round later
        omega

end Rounds

end Cs537.Wfs
