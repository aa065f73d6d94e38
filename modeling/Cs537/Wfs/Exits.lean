import Cs537.Wfs.Write

/-! # How a write ends

The two loops of `wfs_write` differ in where the pointer of a block is and in how far a round moves on. A
round that is made copies at least one byte, so a loop that has copied nothing has done nothing; and what is
copied stays below the end of the last block.
-/

namespace Cs537.Wfs

open Lib Memory

variable {L : Layout} {d d' : Disk} {n : ℕ} {c c' : Cursor}

/-- The loop over blocks whose pointers are given by the index. -/
def blockLoop (slot : Disk → ℕ → ℤ) (stride bound : ℕ) : ℕ → Disk → Cursor → Disk × Cursor × Bool
  | 0, d, c => (d, c, false)
  | fuel + 1, d, c =>
      if c.rest ≠ [] ∧ c.index < bound then
        match writeBlock d (slot d c.index) c with
        | none => (d, c, true)
        | some d => blockLoop slot stride bound fuel d (c.next stride)
      else (d, c, false)

theorem directLoop_eq (inode : ℤ) (fuel : ℕ) (d : Disk) (c : Cursor) :
    directLoop inode fuel d c = blockLoop (fun _ index => blocksAt inode index) 1 indBlock fuel d c := by
  induction fuel generalizing d c with
  | zero => rfl
  | succ fuel ih =>
    rw [directLoop, blockLoop]
    cases writeBlock d (blocksAt inode c.index) c with
    | none => rfl
    | some d₁ => exact congrArg (ite _ · _) (ih d₁ (c.next 1))

theorem indirectLoop_eq (inode : ℤ) (fuel : ℕ) (d : Disk) (c : Cursor) : indirectLoop inode fuel d c =
    blockLoop (fun d index => d.long (blocksAt inode indBlock) + 8 * index) 2 entriesPerBlock fuel d c := by
  induction fuel generalizing d c with
  | zero => rfl
  | succ fuel ih =>
    rw [indirectLoop, blockLoop]
    cases writeBlock d (d.long (blocksAt inode indBlock) + 8 * c.index) c with
    | none => rfl
    | some d₁ => exact congrArg (ite _ · _) (ih d₁ (c.next 2))

/-- The position of the next byte, from the start of the blocks the index counts. -/
def Cursor.position (c : Cursor) : ℕ := blockSize * c.index + c.blockOffset

section Progress

variable {slot : Disk → ℕ → ℤ} {stride bound : ℕ}

theorem Cursor.next_written (c : Cursor) (stride : ℕ) : (c.next stride).written = c.written + c.chunk.length := by
  rw [c.length_chunk]
  rfl

theorem Cursor.chunk_pos (some : c.rest ≠ []) (inside : c.blockOffset < blockSize) : 0 < c.chunk.length := by
  have length := List.length_pos_iff.mpr some
  rw [c.length_chunk]
  omega

/-- A round moves on by what it copies, or further. -/
private theorem Cursor.position_next (inside : c.blockOffset < blockSize) (forward : 0 < stride) :
    c.position + c.chunk.length ≤ (c.next stride).position ∧
      c.position + c.chunk.length ≤ blockSize * (c.index + 1) := by
  have longer : blockSize * (c.index + 1) ≤ blockSize * (c.index + stride) := Nat.mul_le_mul_left _ (by omega)
  rw [c.length_chunk]
  simp only [position, Cursor.next, Nat.mul_add] at *
  omega

/-- What a loop has copied is counted, lies before its last position, and fits below the bound. -/
structure Progress (bound : ℕ) (c c' : Cursor) : Prop where
  counted : c.written ≤ c'.written
  total : c'.written + c'.rest.length = c.written + c.rest.length
  position : c.position + c'.written ≤ c'.position + c.written
  inside : c'.blockOffset < blockSize
  fits : c'.written = c.written ∨ c.position + c'.written ≤ blockSize * bound + c.written

theorem Progress.refl (bound : ℕ) (inside : c.blockOffset < blockSize) : Progress bound c c :=
  ⟨le_rfl, rfl, le_rfl, inside, .inl rfl⟩

theorem Progress.round (inside : c.blockOffset < blockSize) (forward : 0 < stride) (small : c.index < bound)
    (rest : Progress bound (c.next stride) c') : Progress bound c c' := by
  obtain ⟨position, within⟩ := c.position_next inside forward
  have last : blockSize * (c.index + 1) ≤ blockSize * bound := Nat.mul_le_mul_left _ small
  have written := c.next_written stride
  have length := congrArg List.length (c.rest_next stride)
  rw [List.length_append] at length
  have counted := rest.counted
  have total := rest.total
  have before := rest.position
  refine ⟨by omega, by omega, by omega, rest.inside, .inr ?_⟩
  rcases rest.fits with same | fits <;> omega

theorem blockLoop_progress (slot : Disk → ℕ → ℤ) (bound : ℕ) (forward : 0 < stride) (fuel : ℕ) (d : Disk) (c : Cursor)
    (inside : c.blockOffset < blockSize) :
    Progress bound c (blockLoop slot stride bound fuel d c).2.1 := by
  induction fuel generalizing d c with
  | zero => exact .refl bound inside
  | succ fuel ih =>
    rw [blockLoop]
    by_cases more : c.rest ≠ [] ∧ c.index < bound
    · rw [if_pos more]
      cases writeBlock d (slot d c.index) c with
      | none => exact .refl bound inside
      | some d₁ => exact (ih d₁ (c.next stride) (by simp [Cursor.next, blockSize])).round inside forward more.2
    · rw [if_neg more]
      exact .refl bound inside

/-- A loop that was not stopped by a full disk has used up the bytes or the blocks. -/
private theorem blockLoop_ended (slot : Disk → ℕ → ℤ) (forward : 0 < stride) (fuel : ℕ) (d : Disk) (c : Cursor)
    (enough : bound ≤ c.index + fuel)
    (ended : (blockLoop slot stride bound fuel d c).2.2 = false) :
    (blockLoop slot stride bound fuel d c).2.1.rest = [] ∨ bound ≤ (blockLoop slot stride bound fuel d c).2.1.index := by
  induction fuel generalizing d c with
  | zero => exact .inr enough
  | succ fuel ih =>
    rw [blockLoop] at ended ⊢
    by_cases more : c.rest ≠ [] ∧ c.index < bound
    · rw [if_pos more] at ended ⊢
      cases written : writeBlock d (slot d c.index) c with
      | none =>
        rw [written] at ended
        cases ended
      | some d₁ =>
        rw [written] at ended
        exact ih d₁ (c.next stride) (by simp only [Cursor.next]; omega) ended
    · rw [if_neg more]
      by_cases done : c.rest = []
      · exact .inl done
      · exact .inr (not_lt.mp fun small => more ⟨done, small⟩)

/-- A loop ends at once, because there is nothing to do or no free block, or it copies something. -/
theorem blockLoop_cases (slot : Disk → ℕ → ℤ) (bound : ℕ) (forward : 0 < stride) (fuel : ℕ) (d : Disk) (c : Cursor)
    (inside : c.blockOffset < blockSize) :
    ((c.rest = [] ∨ bound ≤ c.index) ∧ blockLoop slot stride bound (fuel + 1) d c = (d, c, false)) ∨
      (c.rest ≠ [] ∧ c.index < bound ∧ writeBlock d (slot d c.index) c = none ∧
        blockLoop slot stride bound (fuel + 1) d c = (d, c, true)) ∨
      c.written < (blockLoop slot stride bound (fuel + 1) d c).2.1.written := by
  rw [blockLoop]
  by_cases more : c.rest ≠ [] ∧ c.index < bound
  · rw [if_pos more]
    cases written : writeBlock d (slot d c.index) c with
    | none => exact .inr (.inl ⟨more.1, more.2, rfl, rfl⟩)
    | some d₁ =>
      right
      right
      dsimp only
      have counted := (blockLoop_progress slot bound forward fuel d₁ (c.next stride)
        (by simp [Cursor.next, blockSize])).counted
      have some := c.chunk_pos more.1 inside
      rw [c.next_written] at counted
      omega
  · rw [if_neg more]
    refine .inl ⟨?_, rfl⟩
    by_cases done : c.rest = []
    · exact .inl done
    · exact .inr (by by_contra small; exact more ⟨done, by omega⟩)

end Progress

section Returned

variable {env : Env} {inode : ℤ} {buf : List UInt8} {offset : ℕ}

theorem shortWrite_ret (env : Env) (d : Disk) (inode : ℤ) (offset written : ℕ) :
    (shortWrite env d inode offset written).2 = if written > 0 then (written : ℤ) else -enospc := by
  rw [shortWrite]
  split_ifs <;> rfl

theorem shortWriteIndirect_ret (env : Env) (d : Disk) (inode : ℤ) (offset written : ℕ) :
    (shortWriteIndirect env d inode offset written).2 = if written > 0 then (written : ℤ) else -enospc := by
  rw [shortWriteIndirect]
  split_ifs <;> rfl

theorem finishWrite_ret (env : Env) (d : Disk) (inode : ℤ) (offset : ℕ) (c : Cursor) :
    (finishWrite env d inode offset c).2 = if c.rest ≠ [] ∧ c.written = 0 then -enospc else (c.written : ℤ) := by
  rw [finishWrite]
  split_ifs <;> rfl

/-- What an exit may return: an error, or a count of bytes that end below the last block a file can have. -/
def Counted (offset : ℕ) (ret : ℤ) : Prop :=
  ret = -enospc ∨ ∃ written : ℕ, ret = written ∧ 0 < written ∧ offset + written ≤ blockSize * (indBlock + entriesPerBlock)

private theorem Counted.of_written {written : ℕ} {ret : ℤ}
    (fits : 0 < written → offset + written ≤ blockSize * (indBlock + entriesPerBlock))
    (eq : ret = -enospc ∨ ret = written ∧ 0 < written) : Counted offset ret := by
  rcases eq with failed | ⟨eq, positive⟩
  · exact .inl failed
  · exact .inr ⟨written, eq, positive, fits positive⟩

private theorem shortWrite_counted (env : Env) (d : Disk) (inode : ℤ) {written : ℕ}
    (fits : 0 < written → offset + written ≤ blockSize * (indBlock + entriesPerBlock)) :
    Counted offset (shortWrite env d inode offset written).2 := by
  apply Counted.of_written fits
  rw [shortWrite_ret]
  split_ifs with positive
  · exact .inr ⟨rfl, positive⟩
  · exact .inl rfl

private theorem shortWriteIndirect_counted (env : Env) (d : Disk) (inode : ℤ) {written : ℕ}
    (fits : 0 < written → offset + written ≤ blockSize * (indBlock + entriesPerBlock)) :
    Counted offset (shortWriteIndirect env d inode offset written).2 := by
  apply Counted.of_written fits
  rw [shortWriteIndirect_ret]
  split_ifs with positive
  · exact .inr ⟨rfl, positive⟩
  · exact .inl rfl

private theorem finishWrite_counted (env : Env) (d : Disk) (inode : ℤ)
    (fits : 0 < c.written → offset + c.written ≤ blockSize * (indBlock + entriesPerBlock))
    (some : 0 < c.written + c.rest.length) : Counted offset (finishWrite env d inode offset c).2 := by
  apply Counted.of_written fits
  rw [finishWrite_ret]
  split_ifs with nothing
  · exact .inl rfl
  · refine .inr ⟨rfl, ?_⟩
    by_contra zero
    have empty : c.rest = [] := by
      by_contra left
      exact nothing ⟨left, by omega⟩
    rw [empty, List.length_nil] at some
    omega

/-- A write of some bytes returns how many it has copied, or -ENOSPC if there are none; they end below the
last block a file can have. -/
theorem writeInode_counted (env : Env) (d : Disk) (inode : ℤ) (offset : ℕ) (some : buf ≠ []) :
    Counted offset (writeInode env d inode buf offset).2 := by
  have length := List.length_pos_iff.mpr some
  have start : blockSize * (offset / blockSize) + offset % blockSize = offset := Nat.div_add_mod ..
  have progress := blockLoop_progress (fun _ index => blocksAt inode index) indBlock Nat.one_pos indBlock d
    ⟨0, buf, offset / blockSize, offset % blockSize⟩ (Nat.mod_lt _ (by decide))
  have ended := blockLoop_ended (fun _ index => blocksAt inode index) Nat.one_pos indBlock d
    ⟨0, buf, offset / blockSize, offset % blockSize⟩ (Nat.le_add_left indBlock _)
  rw [writeInode, directLoop_eq]
  generalize blockLoop (fun _ index => blocksAt inode index) 1 indBlock indBlock d
    ⟨0, buf, offset / blockSize, offset % blockSize⟩ = result at *
  obtain ⟨d₁, c₁, full⟩ := result
  obtain ⟨_, total, position, inside, fits⟩ := progress
  simp only [Cursor.position, start, Nat.zero_add, Nat.add_zero] at *
  have direct : 0 < c₁.written → offset + c₁.written ≤ blockSize * (indBlock + entriesPerBlock) := by
    intro positive
    rw [Nat.mul_add]
    omega
  cases full with
  | true => exact shortWrite_counted env d₁ inode direct
  | false =>
    dsimp only
    by_cases done : c₁.rest = []
    · rw [if_pos done]
      exact finishWrite_counted env d₁ inode direct (by omega)
    · rw [if_neg done]
      have above := (ended rfl).resolve_left done
      cases (if d₁.long (blocksAt inode indBlock) = 0 then newBlock d₁ (blocksAt inode indBlock) else Option.some d₁) with
      | none => exact shortWrite_counted env d₁ inode direct
      | some d₂ =>
        dsimp only
        have progress := blockLoop_progress (fun d index => d.long (blocksAt inode indBlock) + 8 * index)
          entriesPerBlock Nat.two_pos entriesPerBlock d₂ { c₁ with index := c₁.index - indBlock } inside
        rw [indirectLoop_eq]
        generalize blockLoop (fun d index => d.long (blocksAt inode indBlock) + 8 * index) 2 entriesPerBlock
          entriesPerBlock d₂ { c₁ with index := c₁.index - indBlock } = result at *
        obtain ⟨d₃, c₃, full⟩ := result
        obtain ⟨counted, total', _, _, fits'⟩ := progress
        simp only [Cursor.position, Nat.mul_sub] at *
        have far : blockSize * indBlock ≤ blockSize * c₁.index := Nat.mul_le_mul_left _ above
        have indirect : 0 < c₃.written → offset + c₃.written ≤ blockSize * (indBlock + entriesPerBlock) := by
          intro positive
          rw [Nat.mul_add]
          omega
        cases full with
        | true => exact shortWriteIndirect_counted env d₃ inode indirect
        | false => exact finishWrite_counted env d₃ inode indirect (by omega)

end Returned

end Cs537.Wfs
