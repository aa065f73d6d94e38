import Cs537.Wfs.Bounds
import Cs537.Wfs.Times

/-! # Which pointers a write fills

The direct blocks that a write fills lie below the size it leaves. A write that goes on behind the direct blocks
takes a block for the indirect pointer, if one is left, before it looks for one for the entry.
-/

namespace Cs537.Wfs

open Lib Memory

variable {L : Layout} {d d' : Disk} {n : ℕ} {path : Name} {env : Env} {buf : List UInt8} {offset : ℕ} {c : Cursor}

/-- A write goes on behind the direct blocks, and the blocks last for the pointers it visits on the way and for the
indirect one. -/
def TakesIndirect (L : Layout) (fs : Fs) (n offset len : ℕ) : Prop :=
  0 < len ∧ indBlock < endBlock offset len ∧ fs.missing L (pointersVisited n offset len) ≤ fs.freeBlocks L

instance (L : Layout) (fs : Fs) (n offset len : ℕ) : Decidable (TakesIndirect L fs n offset len) :=
  inferInstanceAs (Decidable (_ ∧ _ ∧ _))

/-- A loop fills the pointers of the blocks into which it copies bytes, and no other. -/
theorem blockLoop_filled (slot : Disk → ℕ → ℤ) {stride : ℕ} (bound : ℕ) (place : ℕ → ℕ) (Ready : Disk → Prop)
    (forward : 0 < stride) (kept : ∀ {d d'}, Ready d → FileRun L n d d' → Ready d')
    (holds : ∀ {d i}, Ready d → i < bound → (view L d).Holds (fileRef n (place i)))
    (slot_eq : ∀ {d i}, Ready d → i < bound → slot d i = (view L d).slot L (fileRef n (place i))) (fuel : ℕ)
    (ordered : Ordered L d) (ready : Ready d) (inside : c.blockOffset < blockSize) {r : Ref}
    (filled : (view L (blockLoop slot stride bound fuel d c).1).target L r ≠ (view L d).target L r) :
    ∃ i < bound, r = fileRef n (place i) ∧ c.written < (blockLoop slot stride bound fuel d c).2.1.written ∧
      (stride = 1 → blockSize * i + c.written < c.position + (blockLoop slot stride bound fuel d c).2.1.written) := by
  induction fuel generalizing d c with
  | zero => exact (filled rfl).elim
  | succ fuel ih =>
    rw [blockLoop] at filled ⊢
    by_cases more : c.rest ≠ [] ∧ c.index < bound
    · rw [if_pos more, slot_eq ready more.2] at filled ⊢
      rcases ordered.writeBlock (holds ready more.2) inside with ⟨none, _⟩ | ⟨mid, some, run, _⟩
      · rw [none] at filled
        exact (filled rfl).elim
      · have others := fun r other => ordered.writeBlock_others (holds ready more.2) inside some (r := r) other
        rw [some] at filled ⊢
        dsimp only at filled ⊢
        have counted := (blockLoop_progress slot bound forward fuel mid (c.next stride)
          (by simp [Cursor.next, blockSize])).counted
        have copied := c.chunk_pos more.1 inside
        rw [c.next_written] at counted
        by_cases here : r = fileRef n (place c.index)
        · refine ⟨c.index, more.2, here, by omega, fun _ => ?_⟩
          rw [Cursor.position]
          omega
        · rw [← others r here] at filled
          by_cases done : (c.next stride).rest = []
          · rw [blockLoop_done _ _ _ _ _ fun left => left.1 done] at filled
            exact (filled rfl).elim
          · obtain ⟨i, small, eq, _, later⟩ := ih run.ordered (kept ready run) (c := c.next stride)
              (by simp [Cursor.next, blockSize]) filled
            refine ⟨i, small, eq, by omega, ?_⟩
            rintro rfl
            have below := later rfl
            have position := c.next_position inside done
            rw [c.next_written] at below
            simp only [Cursor.position] at below ⊢
            omega
    · rw [if_neg more] at filled
      exact (filled rfl).elim

/-- Behind the direct blocks only the indirect pointer and the entries change, and the indirect pointer gets a block
if there is one. -/
private theorem Ordered.indirectPart_fills (ordered : Ordered L d) (live : (view L d).ibit n = true)
    (reg : isReg ((view L d).inode n) = true) (env : Env) (offset : ℕ) (inside : c.blockOffset < blockSize) :
    ∃ mid written, FileRun L n d mid ∧ Finished L n mid offset written (indirectPart env d (L.inode n) offset c).1
        (indirectPart env d (L.inode n) offset c).2 ∧ c.written ≤ written ∧
      (∀ i < indBlock, (view L mid).target L (.ptr n i) = (view L d).target L (.ptr n i)) ∧
      ((view L mid).target L (.ptr n indBlock) ≠ 0 ↔
        (view L d).target L (.ptr n indBlock) ≠ 0 ∨ 0 < (view L d).freeBlocks L) := by
  have known := view_ibit_lt live
  have holds : (view L d).Holds (.ptr n indBlock) := ⟨live, by decide⟩
  rw [indirectPart]
  rcases ordered.ensure holds with ⟨none, null, full⟩ | ⟨d₁, k, some, run, fits, target, cases⟩
  · change (if d.long (blocksAt (L.inode n) indBlock) = 0 then newBlock d (blocksAt (L.inode n) indBlock)
      else Option.some d) = Option.none at none
    rw [none]
    refine ⟨d, c.written, .refl ordered n, shortWrite_finished known .., le_rfl, fun _ _ => rfl, ?_⟩
    rw [freeBlocks_eq_zero.mpr full]
    simp
  · change (if d.long (blocksAt (L.inode n) indBlock) = 0 then newBlock d (blocksAt (L.inode n) indBlock)
      else Option.some d) = Option.some d₁ at some
    change FileRun L n d d₁ at run
    rw [some]
    dsimp only
    have set : (view L d₁).target L (.ptr n indBlock) ≠ 0 := by
      rw [target]
      exact L.block_ne_zero k
    have has : HasIndirect L d₁ n := by
      refine ⟨?_, ?_, set⟩
      · rw [run.step.ibit]
        exact live
      · rw [isReg, run.step.mode]
        exact reg
    have before : (view L d).target L (.ptr n indBlock) ≠ 0 ∨ 0 < (view L d).freeBlocks L := by
      rcases cases with rfl | ⟨_, lowest, _⟩
      · exact .inl set
      · refine .inr (Nat.pos_of_ne_zero fun zero => ?_)
        rw [freeBlocks_eq_zero.mp zero] at lowest
        cases lowest
    have direct (i : ℕ) (small : i < indBlock) : (view L d₁).target L (.ptr n i) = (view L d).target L (.ptr n i) := by
      rcases cases with rfl | ⟨null, lowest, eq⟩
      · rfl
      · obtain ⟨_, free, _⟩ := lowestClear_eq_some lowest
        rw [eq]
        refine (ordered.pointers.target_point holds null fits free).2 _ fun same => ?_
        have index := (Ref.ptr.inj same).2
        omega
    have filled := fun r => blockLoop_filled (fun d index => d.long (blocksAt (L.inode n) indBlock) + 8 * index)
      entriesPerBlock (indBlock + ·) (fun d => HasIndirect L d n) Nat.two_pos (fun has run => has.run run)
      (fun has small => has.holds small) (fun has _ => (slot_entry has.live _).symm) entriesPerBlock run.ordered has
      (c := { c with index := c.index - indBlock }) inside (r := r)
    have kept : ∀ i < indBlock, (view L (blockLoop (fun d index => d.long (blocksAt (L.inode n) indBlock) + 8 * index) 2
        entriesPerBlock entriesPerBlock d₁ { c with index := c.index - indBlock }).1).target L (.ptr n i) =
          (view L d₁).target L (.ptr n i) := by
      intro i small
      by_contra changed
      obtain ⟨e, _, eq, _⟩ := filled _ changed
      rw [fileRef, if_neg (by omega)] at eq
      cases eq
    obtain ⟨d₂, c₂, full, bytes, loop, advanced, _⟩ :=
      run.ordered.indirectLoop entriesPerBlock (c := { c with index := c.index - indBlock }) has inside
    rw [← indirectLoop_eq, loop] at kept
    rw [loop]
    have counted := advanced.written
    dsimp only at counted kept
    have more : c.written ≤ c₂.written := by omega
    have still : (view L d₂).target L (.ptr n indBlock) ≠ 0 := by
      rw [advanced.run.step.grows _ set]
      exact set
    have direct₂ (i : ℕ) (small : i < indBlock) := (kept i small).trans (direct i small)
    cases full with
    | true => exact ⟨d₂, c₂.written, run.trans advanced.run, shortWriteIndirect_finished known .., more, direct₂,
        iff_of_true still before⟩
    | false => exact ⟨d₂, c₂.written, run.trans advanced.run, finishWrite_finished known .., more, direct₂,
        iff_of_true still before⟩

/-- What a write has filled when it comes to its exit. -/
private theorem Ordered.writeInode_fills (ordered : Ordered L d) (live : (view L d).ibit n = true)
    (reg : isReg ((view L d).inode n) = true) (env : Env) (buf : List UInt8) (offset : ℕ) :
    ∃ mid written, FileRun L n d mid ∧ Finished L n mid offset written (Wfs.writeInode env d (L.inode n) buf offset).1
        (Wfs.writeInode env d (L.inode n) buf offset).2 ∧
      (∀ i < indBlock, (view L mid).target L (.ptr n i) ≠ 0 → (view L d).target L (.ptr n i) ≠ 0 ∨
        0 < written ∧ blockSize * i < offset + written) ∧
      ((view L mid).target L (.ptr n indBlock) ≠ 0 ↔
        (view L d).target L (.ptr n indBlock) ≠ 0 ∨ TakesIndirect L (view L d) n offset buf.length) := by
  have known := view_ibit_lt live
  have inside : offset % blockSize < blockSize := Nat.mod_lt _ (by decide)
  have start : blockSize * (offset / blockSize) + offset % blockSize = offset := Nat.div_add_mod ..
  obtain ⟨d₁, c₁, full, bytes, direct, advanced, _, position, _, ended⟩ :=
    ordered.directLoop indBlock (c := ⟨0, buf, offset / blockSize, offset % blockSize⟩) live inside (by omega)
  have ready {d : Disk} {i : ℕ} (live : (view L d).ibit n = true) (small : i < indBlock) :
      blocksAt (L.inode n) i = (view L d).slot L (fileRef n i) := (slot_direct (d := d) (c := ⟨0, [], i, 0⟩) small).symm
  have ends := ordered.directLoop_ends (c := ⟨0, buf, offset / blockSize, offset % blockSize⟩) live inside
  have filled := fun r => blockLoop_filled (n := n) (L := L) (d := d) (fun _ index =>
    blocksAt (L.inode n) index) indBlock id
    (fun d => (view L d).ibit n = true) Nat.one_pos (fun live run => run.step.ibit ▸ live)
    (fun live small => holds_direct live small)
    ready indBlock ordered live (c := ⟨0, buf, offset / blockSize, offset % blockSize⟩) inside (r := r)
  have fits := (blockLoop_progress (fun _ index => blocksAt (L.inode n) index) indBlock Nat.one_pos indBlock d
    ⟨0, buf, offset / blockSize, offset % blockSize⟩ inside).fits
  rw [direct] at ends
  rw [← directLoop_eq, direct] at filled fits
  rw [writeInode_eq, direct]
  have length := congrArg List.length advanced.rest
  have written := advanced.written
  rw [List.length_append] at length
  simp only [Cursor.position, start, Nat.zero_add, Nat.add_zero] at length written position filled fits
  have blocks : Cursor.blocks ⟨0, buf, offset / blockSize, offset % blockSize⟩ =
      if buf = [] then 0 else endBlock offset buf.length - offset / blockSize := by
    rw [Cursor.blocks, endBlock]
    simp only [blockSize]
    split_ifs <;> omega
  rw [blocks] at ends
  dsimp only at ends
  -- The direct loop fills pointers of the direct blocks only, and leaves the indirect one.
  have covered : ∀ i < indBlock, (view L d₁).target L (.ptr n i) ≠ 0 → (view L d).target L (.ptr n i) ≠ 0 ∨
      0 < c₁.written ∧ blockSize * i < offset + c₁.written := by
    intro i small set
    by_cases changed : (view L d₁).target L (.ptr n i) = (view L d).target L (.ptr n i)
    · exact .inl (by rwa [← changed])
    · obtain ⟨i', small', eq, positive, below⟩ := filled _ changed
      rw [id, fileRef, if_pos small'] at eq
      rw [(Ref.ptr.inj eq).2]
      exact .inr ⟨positive, below trivial⟩
  have indirect : (view L d₁).target L (.ptr n indBlock) = (view L d).target L (.ptr n indBlock) := by
    by_contra changed
    obtain ⟨i, small, eq, _⟩ := filled _ changed
    rw [id, fileRef, if_pos small] at eq
    have index := (Ref.ptr.inj eq).2
    omega
  cases ends with
  | short lacks _ _ =>
    refine ⟨d₁, c₁.written, advanced.run, shortWrite_finished known .., covered, ?_⟩
    rw [indirect]
    refine (or_iff_left ?_).symm
    rintro ⟨positive, _, enough⟩
    rw [if_neg (List.ne_nil_of_length_pos positive)] at lacks
    rw [pointersVisited, missing_append] at enough
    change _ < (view L d).missing L (List.map (fileRef n) _) at lacks
    omega
  | all room taken =>
    dsimp only
    split_ifs with done
    · refine ⟨d₁, c₁.written, advanced.run, finishWrite_finished known .., covered, ?_⟩
      rw [indirect]
      refine (or_iff_left ?_).symm
      rintro ⟨positive, beyond, _⟩
      rw [done, List.length_nil] at length
      simp only [endBlock, blockSize] at *
      omega
    · have above := (ended rfl).resolve_left done
      have live₁ : (view L d₁).ibit n = true := by
        rw [taken.run.step.ibit]
        exact live
      have reg₁ : isReg ((view L d₁).inode n) = true := by
        rw [isReg, taken.run.step.mode]
        exact reg
      have left := List.length_pos_iff.mpr done
      have behind : 0 < buf.length ∧ indBlock < endBlock offset buf.length := by
        have exact := position done
        simp only [endBlock, blockSize, indBlock] at *
        omega
      have some := List.ne_nil_of_length_pos behind.1
      obtain ⟨mid, written, run, finished, more, direct, set⟩ :=
        taken.run.ordered.indirectPart_fills live₁ reg₁ env offset advanced.offset
      refine ⟨mid, written, taken.run.trans run, finished, fun i small set => ?_, ?_⟩
      · rw [direct i small] at set
        rcases covered i small set with before | ⟨positive, below⟩
        · exact .inl before
        · exact .inr ⟨by omega, by omega⟩
      · have count := taken.room
        rw [if_neg some] at count
        change _ + (view L d).missing L (List.map (fileRef n) _) = _ at count
        rw [set, indirect, TakesIndirect, pointersVisited, missing_append, missing_cons, and_iff_right behind.1,
          and_iff_right behind.2]
        by_cases null : (view L d).target L (.ptr n indBlock) = 0
        · rw [if_pos null, show (view L d).missing L [] = 0 from rfl]
          simp only [null, ne_eq, not_true_eq_false, false_or]
          omega
        · exact iff_of_true (.inl null) (.inl null)

/-- The direct blocks of a file lie below its size. -/
structure Covered (L : Layout) (fs : Fs) (n : ℕ) : Prop where
  size : 0 ≤ fileSize (fs.inode n)
  direct : ∀ i < indBlock, fs.target L (.ptr n i) ≠ 0 → (blockSize * i : ℕ) < fileSize (fs.inode n)

/-- How far a write counts. -/
private theorem Ordered.writeInode_end (ordered : Ordered L d) (live : (view L d).ibit n = true)
    (reg : isReg ((view L d).inode n) = true) (env : Env) {written : ℕ}
    (count : (Wfs.writeInode env d (L.inode n) buf offset).2 = written) :
    buf = [] ∧ written = 0 ∨ buf ≠ [] ∧ offset + written ≤ maxSize := by
  by_cases empty : buf = []
  · obtain ⟨_, bytes, rest, split, _, finished, _⟩ := (ordered.writeInode env live reg buf offset).run
    have length := congrArg List.length split
    rw [List.length_append, empty, List.length_nil] at length
    refine .inl ⟨empty, ?_⟩
    rcases finished.cases with ⟨ret, _⟩ | ⟨ret, _⟩
    · rw [count, enospc] at ret
      omega
    · rw [count] at ret
      omega
  · refine .inr ⟨empty, ?_⟩
    rcases writeInode_counted env d (L.inode n) offset empty with failed | ⟨r, ret, _, fits⟩
    · rw [count, enospc] at failed
      omega
    · rw [count] at ret
      obtain rfl : written = r := Int.ofNat_inj.mp ret
      exact fits

/-- One write leaves the direct blocks below the size. It takes a block for the indirect pointer exactly when it goes
on behind the direct blocks and they last. -/
theorem Covered.write (covered : Covered L (view L d) n) (ordered : Ordered L d)
    (found : (findInodeNumberByPath d path).2 = n) (live : (view L d).ibit n = true)
    (reg : isReg ((view L d).inode n) = true) (fits : offset < 2 ^ 63) (env : Env) (buf : List UInt8) :
    Covered L (view L (writePath env d path buf offset).1) n ∧
      ((view L (writePath env d path buf offset).1).target L (.ptr n indBlock) ≠ 0 ↔
        (view L d).target L (.ptr n indBlock) ≠ 0 ∨ TakesIndirect L (view L d) n offset buf.length) ∧
      ((buf = [] → offset ≤ maxSize) → fileSize ((view L d).inode n) ≤ maxSize →
        fileSize ((view L (writePath env d path buf offset).1).inode n) ≤ maxSize) := by
  have known : (n : ℤ) ≠ -1 := by omega
  have call : writePath env d path buf offset = writeInode env d (L.inode n) buf offset := by
    simp only [writePath, found, if_neg known, ordered.super.inodeAt_eq (view_ibit_lt live)]
  rw [call]
  obtain ⟨mid, written, run, finished, direct, indirect⟩ := ordered.writeInode_fills live reg env buf offset
  have last : (writeInode env d (L.inode n) buf offset).2 = written →
      buf = [] ∧ written = 0 ∨ buf ≠ [] ∧ offset + written ≤ maxSize := ordered.writeInode_end live reg env
  generalize writeInode env d (L.inode n) buf offset = result at finished last ⊢
  have targets := finished.target
  have low := covered.size
  rcases finished.cases with ⟨_, nothing, step⟩ | ⟨count, step⟩
  · have size := step.size_eq.trans run.size
    refine ⟨⟨by rw [size]; exact low, fun i small set => ?_⟩, by rw [targets]; exact indirect,
      fun _ short => by rwa [size]⟩
    rw [targets] at set
    rcases direct i small set with before | ⟨positive, _⟩
    · rw [size]
      exact covered.direct i small before
    · omega
  · have ends := last count
    simp only [maxSize, blockSize, indBlock, entriesPerBlock] at ends
    have size := step.size_eq
    rw [run.size, grown_eq low (int64_lt _) (by omega)] at size
    refine ⟨⟨by omega, fun i small set => ?_⟩, by rw [targets]; exact indirect, fun bound short => ?_⟩
    · rw [targets] at set
      rcases direct i small set with before | ⟨_, below⟩
      · have under := covered.direct i small before
        omega
      · omega
    · rw [size]
      rcases ends with ⟨empty, rfl⟩ | ⟨_, bounded⟩
      · have near := bound empty
        omega
      · simp only [maxSize, blockSize, indBlock, entriesPerBlock] at short ⊢
        omega

end Cs537.Wfs
