import Cs537.Wfs.Creation
import Cs537.Wfs.Exits

/-! # What a call that fails leaves behind

There is no rollback. A call that fails has changed nothing but times, except where it took a block before it
found out that it could not go on: a block for the entry of a file that gets no inode, or the indirect block of
a write that gets no entry in it. The block stays, empty, in the directory or in the file.
-/

namespace Cs537.Wfs

open Lib Memory

variable {L : Layout} {d d' d₁ d₂ : Disk} {fs fs' : Fs} {path : Name} {env : Env} {n p k offset : ℕ}
  {buf : List UInt8} {c : Cursor}

/-- Bitmaps, pointers, sizes and blocks are as before. -/
structure Unchanged (fs fs' : Fs) : Prop where
  dbit : fs'.dbit = fs.dbit
  ibit : fs'.ibit = fs.ibit
  ptr : ∀ m, ∀ i < 8, ptr (fs'.inode m) i = ptr (fs.inode m) i
  size : ∀ m, fileSize (fs'.inode m) = fileSize (fs.inode m)
  block : fs'.block = fs.block

/-- A null pointer of an inode has got the lowest free block, and the rest is as before. -/
def GotBlock (L : Layout) (fs fs' : Fs) (n i : ℕ) : Prop :=
  ptr (fs.inode n) i = 0 ∧ ∃ k, lowestClear fs.dbit L.blocks = some k ∧ Unchanged (fs.point L (.ptr n i) k) fs'

theorem Unchanged.refl (fs : Fs) : Unchanged fs fs := ⟨rfl, rfl, fun _ _ _ => rfl, fun _ => rfl, rfl⟩

/-- Setting times changes nothing that counts. -/
theorem unchanged_times (inside : n < L.inodes) (now : ℤ) (modified : Bool) :
    Unchanged (view L d) (view L (updateInodeTimes d (L.inode n) now modified)) := by
  obtain ⟨page, view, same, _, size⟩ := (updateInodeTimes_meta (d := d) inside now modified).page
  rw [view]
  have inode (m : ℕ) : SamePointers ((Wfs.view L d).inode m) (((Wfs.view L d).setInode n page).inode m) ∧
      fileSize (((Wfs.view L d).setInode n page).inode m) = fileSize ((Wfs.view L d).inode m) := by
    by_cases eq : m = n
    · subst eq
      simp only [Fs.setInode, Function.update_self]
      exact ⟨same, size⟩
    · simp only [Fs.setInode, Function.update_of_ne eq]
      exact ⟨⟨fun _ _ => rfl, rfl⟩, trivial⟩
  exact ⟨rfl, rfl, fun m i small => (inode m).1.ptr i small, fun m => (inode m).2, rfl⟩

section Create

/-- No inode is left for a new file whose entry needs a new block, and there is a place and a block for it. -/
def Starved (L : Layout) (fs : Fs) (p : ℕ) : Prop :=
  (∀ n < L.inodes, fs.ibit n = true) ∧ fs.Full L p ∧ (∃ i < indBlock, ptr (fs.inode p) i = 0) ∧
    ∃ k < L.blocks, fs.dbit k = false

private theorem WellFormed.create_failed (wf : WellFormed L d) (absent : Absent L d path p) (type : ℕ) (env : Env) (mode : ℕ)
    (failed : (Wfs.create type env d path mode).2 < 0) :
    (¬ Starved L (view L d) p ∧ Unchanged (view L d) (view L (Wfs.create type env d path mode).1)) ∨
      (Starved L (view L d) p ∧
      ∃ i < indBlock, GotBlock L (view L d) (view L (Wfs.create type env d path mode).1) p i) := by
  rcases wf.ordered.create absent type env mode with ⟨result, l, bound, filled, reason⟩
    | ⟨d₁, s, k, slot, here, ordered, grown, result⟩
  · left
    rw [result]
    refine ⟨?_, .refl _⟩
    rintro ⟨_, _, ⟨i, small, null⟩, k, inside, free⟩
    rcases reason with rfl | ⟨_, nothing⟩
    · exact filled.set i small null
    · rw [lowestClear_eq_none.mp nothing k inside] at free
      cases free
  · have ret := ordered.super.fillDentry_ret env (mode ||| type) (lastToken path) (L.inode p) (dentryAt (L.block k) s.j)
    rw [result] at failed ⊢
    rw [ret] at failed
    have none : lowestClear (view L d₁).ibit L.inodes = none := by
      by_contra some
      rw [if_neg some] at failed
      exact absurd failed (lt_irrefl _)
    have image : (fillDentry env (mode ||| type) (lastToken path) (L.inode p) (dentryAt (L.block k) s.j) d₁).1 = d₁ := by
      have allocated := ordered.super.allocate_inode
      rw [none] at allocated
      simp only [fillDentry, allocated, if_true]
    rw [image]
    rcases grown with rfl | grown
    · exact .inl ⟨fun starved => starved.2.1 s slot.dentry here slot.empty, .refl _⟩
    · right
      obtain ⟨inside, free, _⟩ := lowestClear_eq_some grown.lowest
      have null := grown.null
      have filled := grown.filled
      rw [here] at null filled
      rw [grown.ibit] at none
      have small := slot.dentry.2.2.1
      refine ⟨⟨lowestClear_eq_none.mp none, ?_, ⟨s.i, small, null⟩, k, inside, free⟩, s.i, small, null, k,
        grown.lowest, ?_⟩
      · exact filled.full fun j above below => wf.null_after absent.live absent.dir null above below
      · rw [grown.view_eq, here]
        exact .refl _

end Create

section Write

/-- The indirect block of a file is null and is taken for a block that the write cannot have: one behind the
last, or the very block that was free. -/
def Wasted (L : Layout) (fs : Fs) (n offset : ℕ) : Prop :=
  ptr (fs.inode n) indBlock = 0 ∧ indBlock ≤ offset / blockSize ∧ ∃ k < L.blocks, fs.dbit k = false ∧
    (indBlock + entriesPerBlock ≤ offset / blockSize ∨ ∀ k' < L.blocks, fs.dbit k' = false → k' = k)

/-- Nothing was copied into a block because its pointer is null and no block is free. -/
private theorem Super.writeBlock_none (super : Super L d) {slot : ℤ} (failed : writeBlock d slot c = none) :
    lowestClear (view L d).dbit L.blocks = none := by
  have allocated := super.allocate_block
  cases lowest : lowestClear (view L d).dbit L.blocks with
  | none => rfl
  | some k =>
    rw [lowest] at allocated
    have known : (k : ℤ) ≠ -1 := by omega
    rw [writeBlock, Option.map_eq_none_iff] at failed
    split_ifs at failed
    simp only [newBlock, allocated, if_neg known] at failed
    cases failed

private theorem shortWrite_nonneg (env : Env) (d : Disk) (inode : ℤ) (offset : ℕ) {written : ℕ} (some : 0 < written) :
    0 ≤ (shortWrite env d inode offset written).2 ∧ 0 ≤ (shortWriteIndirect env d inode offset written).2 := by
  rw [shortWrite_ret, shortWriteIndirect_ret, if_pos some]
  omega

private theorem finishWrite_nonneg (env : Env) (d : Disk) (inode : ℤ) (offset : ℕ) (some : c.rest = [] ∨ 0 < c.written) :
    0 ≤ (finishWrite env d inode offset c).2 := by
  rw [finishWrite_ret, if_neg]
  · omega
  · rintro ⟨left, nothing⟩
    rcases some with done | some
    · exact left done
    · omega

/-- The part of a write behind the direct blocks. -/
def indirectPart (env : Env) (d : Disk) (inode : ℤ) (offset : ℕ) (c : Cursor) : Disk × ℤ :=
  match if d.long (blocksAt inode indBlock) = 0 then newBlock d (blocksAt inode indBlock) else some d with
  | none => shortWrite env d inode offset c.written
  | some d =>
      match indirectLoop inode entriesPerBlock d { c with index := c.index - indBlock } with
      | (d, c, true) => shortWriteIndirect env d inode offset c.written
      | (d, c, false) => finishWrite env d inode offset c

theorem writeInode_eq (env : Env) (d : Disk) (inode : ℤ) (buf : List UInt8) (offset : ℕ) :
    writeInode env d inode buf offset =
      match directLoop inode indBlock d ⟨0, buf, offset / blockSize, offset % blockSize⟩ with
      | (d, c, true) => shortWrite env d inode offset c.written
      | (d, c, false) => if c.rest = [] then finishWrite env d inode offset c
          else indirectPart env d inode offset c := rfl

private theorem indirectPart_nonneg (env : Env) (d : Disk) (inode : ℤ) (offset : ℕ) (inside : c.blockOffset < blockSize)
    (some : 0 < c.written) : 0 ≤ (indirectPart env d inode offset c).2 := by
  rw [indirectPart]
  cases (if d.long (blocksAt inode indBlock) = 0 then newBlock d (blocksAt inode indBlock) else Option.some d) with
  | none => exact (shortWrite_nonneg env d inode offset some).1
  | some d₂ =>
    dsimp only
    have counted := (blockLoop_progress (fun d index => d.long (blocksAt inode indBlock) + 8 * index) entriesPerBlock
      Nat.two_pos entriesPerBlock d₂ { c with index := c.index - indBlock } inside).counted
    rw [indirectLoop_eq]
    generalize blockLoop (fun d index => d.long (blocksAt inode indBlock) + 8 * index) 2 entriesPerBlock
      entriesPerBlock d₂
      { c with index := c.index - indBlock } = result at *
    obtain ⟨d₃, c₃, full⟩ := result
    dsimp only at counted
    cases full with
    | true => exact (shortWrite_nonneg env d₃ inode offset (by omega)).2
    | false => exact finishWrite_nonneg env d₃ inode offset (.inr (by omega))

/-- The loop over the entries fails behind the last one, or at its first round without a free block. -/
private theorem Super.indirectLoop_failed (super : Super L d) (inside : n < L.inodes) (env : Env) (offset : ℕ)
    (block : c.blockOffset < blockSize) (more : c.rest ≠ []) (start : c.written = 0)
    (failed : (match indirectLoop (L.inode n) entriesPerBlock d c with
      | (d, c, true) => shortWriteIndirect env d (L.inode n) offset c.written
      | (d, c, false) => finishWrite env d (L.inode n) offset c).2 < 0) :
    (entriesPerBlock ≤ c.index ∨ lowestClear (view L d).dbit L.blocks = none) ∧
      Unchanged (view L d) (view L (match indirectLoop (L.inode n) entriesPerBlock d c with
        | (d, c, true) => shortWriteIndirect env d (L.inode n) offset c.written
        | (d, c, false) => finishWrite env d (L.inode n) offset c).1) := by
  have rounds := blockLoop_cases (fun d index => d.long (blocksAt (L.inode n) indBlock) + 8 * index) entriesPerBlock
    Nat.two_pos 63 d c block
  rw [indirectLoop_eq] at failed ⊢
  rcases rounds with ⟨ended, loop⟩ | ⟨_, _, none, loop⟩ | some
  · rw [show entriesPerBlock = 63 + 1 from rfl] at *
    rw [loop]
    refine ⟨.inl (ended.resolve_left more), ?_⟩
    simp only [finishWrite, more, start, ne_eq, not_false_eq_true, and_self, if_true]
    exact .refl _
  · rw [show entriesPerBlock = 63 + 1 from rfl] at *
    rw [loop]
    refine ⟨.inr (super.writeBlock_none none), ?_⟩
    simp only [shortWriteIndirect, start, gt_iff_lt, lt_irrefl, if_false]
    exact unchanged_times inside env.now false
  · rw [show entriesPerBlock = 63 + 1 from rfl] at *
    generalize blockLoop (fun d index => d.long (blocksAt (L.inode n) indBlock) + 8 * index) 2 (63 + 1)
      (63 + 1) d c = result at *
    obtain ⟨d₃, c₃, full⟩ := result
    dsimp only at some
    cases full with
    | true => exact absurd failed (not_lt.mpr (shortWrite_nonneg env d₃ _ offset (by omega)).2)
    | false => exact absurd failed (not_lt.mpr (finishWrite_nonneg env d₃ _ offset (.inr (by omega))))

/-- The lowest free block was taken and no other is free. -/
private theorem only_free (lowest : lowestClear fs.dbit L.blocks = some k)
    (full : lowestClear (fs.point L (.ptr n p) k).dbit L.blocks = none) : ∀ k' < L.blocks, fs.dbit k' = false →
    k' = k := by
  obtain ⟨_, free, _⟩ := lowestClear_eq_some lowest
  intro k' inside clear
  by_contra other
  have used := lowestClear_eq_none.mp full k' inside
  rw [point_dbit free, Function.update_of_ne other, clear] at used
  cases used

/-- The part behind the direct blocks fails without a block for the indirect block, or with it. -/
private theorem Ordered.indirectPart_failed (ordered : Ordered L d) (live : (view L d).ibit n = true) (env : Env) (offset : ℕ)
    (block : c.blockOffset < blockSize) (more : c.rest ≠ []) (start : c.written = 0)
    (failed : (indirectPart env d (L.inode n) offset c).2 < 0) :
    ((ptr ((view L d).inode n) indBlock ≠ 0 ∨ lowestClear (view L d).dbit L.blocks = none) ∧
        Unchanged (view L d) (view L (indirectPart env d (L.inode n) offset c).1)) ∨
      ∃ k, ptr ((view L d).inode n) indBlock = 0 ∧ lowestClear (view L d).dbit L.blocks = some k ∧
        (indBlock + entriesPerBlock ≤ c.index ∨ c.index < indBlock ∨ ∀ k' < L.blocks, (view L d).dbit k' = false →
        k' = k) ∧
        Unchanged ((view L d).point L (.ptr n indBlock) k) (view L (indirectPart env d (L.inode n) offset c).1) := by
  have inside := view_ibit_lt live
  have holds : (view L d).Holds (.ptr n indBlock) := ⟨live, by decide⟩
  have target : (view L d).target L (.ptr n indBlock) = ptr ((view L d).inode n) indBlock :=
    Fs.target_ptr live (by decide)
  rw [indirectPart] at failed ⊢
  rcases ordered.ensure holds with ⟨none, null, full⟩ | ⟨d₂, k, some, run, fits, filled, cases⟩
  · change (if d.long (blocksAt (L.inode n) indBlock) = 0 then newBlock d (blocksAt (L.inode n) indBlock)
      else Option.some d) = Option.none at none
    rw [none]
    dsimp only
    rw [shortWrite, if_neg (by omega)]
    exact .inl ⟨.inr full, unchanged_times inside env.now false⟩
  · change (if d.long (blocksAt (L.inode n) indBlock) = 0 then newBlock d (blocksAt (L.inode n) indBlock)
      else Option.some d) = Option.some d₂ at some
    rw [some] at failed ⊢
    obtain ⟨reason, same⟩ := run.ordered.super.indirectLoop_failed (c := { c with index := c.index - indBlock })
      inside env offset
      block more start failed
    rcases cases with rfl | ⟨null, lowest, eq⟩
    · refine .inl ⟨.inl ?_, same⟩
      rw [← target, filled]
      exact L.block_ne_zero k
    · rw [eq] at same reason
      refine .inr ⟨k, target.symm.trans null, lowest, ?_, same⟩
      rcases reason with far | full
      · dsimp only at far
        omega
      · exact .inr (.inr (only_free lowest full))

/-- A write that fails has wasted a block, or changed nothing. -/
private theorem Ordered.writeInode_failed (ordered : Ordered L d) (live : (view L d).ibit n = true) (env : Env) (buf : List UInt8)
    (offset : ℕ) (failed : (Wfs.writeInode env d (L.inode n) buf offset).2 < 0) :
    (¬ Wasted L (view L d) n offset ∧ Unchanged (view L d) (view L (Wfs.writeInode env d (L.inode n) buf offset).1)) ∨
      (Wasted L (view L d) n offset ∧
        GotBlock L (view L d) (view L (Wfs.writeInode env d (L.inode n) buf offset).1) n indBlock) := by
  have inside := view_ibit_lt live
  have block : offset % blockSize < blockSize := Nat.mod_lt _ (by decide)
  have rounds := blockLoop_cases (fun _ index => blocksAt (L.inode n) index) indBlock Nat.one_pos 6 d
    ⟨0, buf, offset / blockSize, offset % blockSize⟩ block
  have progress := blockLoop_progress (fun _ index => blocksAt (L.inode n) index) indBlock Nat.one_pos indBlock d
    ⟨0, buf, offset / blockSize, offset % blockSize⟩ block
  rw [show 6 + 1 = indBlock from rfl] at rounds
  rw [writeInode_eq, directLoop_eq] at failed ⊢
  rcases rounds with ⟨ended, loop⟩ | ⟨_, small, none, loop⟩ | some
  · rw [loop] at failed ⊢
    dsimp only at ended failed ⊢
    by_cases empty : buf = []
    · rw [if_pos empty] at failed
      exact absurd failed (not_lt.mpr (finishWrite_nonneg env d _ offset (.inl empty)))
    · have far := ended.resolve_left empty
      rw [if_neg empty] at failed ⊢
      rcases ordered.indirectPart_failed live env offset block empty rfl failed with ⟨reason, same⟩
        | ⟨k, null, lowest, reason, same⟩
      · refine .inl ⟨?_, same⟩
        rintro ⟨null, _, k, fits, free, _⟩
        rcases reason with set | full
        · exact set null
        · rw [lowestClear_eq_none.mp full k fits] at free
          cases free
      · obtain ⟨fits, free, _⟩ := lowestClear_eq_some lowest
        refine .inr ⟨⟨null, far, k, fits, free, ?_⟩, null, k, lowest, same⟩
        rcases reason with last | near | only
        · exact .inl last
        · exact absurd near (not_lt.mpr far)
        · exact .inr only
  · rw [loop]
    dsimp only
    rw [shortWrite, if_neg (lt_irrefl 0)]
    refine .inl ⟨fun wasted => absurd wasted.2.1 (not_le.mpr small), unchanged_times inside env.now false⟩
  · generalize blockLoop (fun _ index => blocksAt (L.inode n) index) 1 indBlock indBlock d
      ⟨0, buf, offset / blockSize, offset % blockSize⟩ = result at *
    obtain ⟨d₁, c₁, full⟩ := result
    dsimp only at some
    cases full with
    | true => exact absurd failed (not_lt.mpr (shortWrite_nonneg env d₁ _ offset some).1)
    | false =>
      dsimp only at failed
      split_ifs at failed
      · exact absurd failed (not_lt.mpr (finishWrite_nonneg env d₁ _ offset (.inr some)))
      · exact absurd failed (not_lt.mpr (indirectPart_nonneg env d₁ _ offset progress.inside some))

end Write

/-- What a call that fails leaves of a well-formed image, by a path that fits. A path that names something
cannot be created and one that names nothing cannot be written to: the image is as it was. In a live
directory, or for a live inode that is written to, bitmaps, pointers, sizes and blocks are as they were,
unless the directory needed a block for an entry and no inode was free, or the write took an indirect block
it has no use for; then that null pointer has got the lowest free block, and nothing else has changed. -/
theorem failed_call (wf : WellFormed L d) (env : Env) {path : Name} (fits : path.length < tmpPath) :
    (∀ op ∈ [wfsMknod, wfsMkdir], ∀ mode, ∃ r, op env d path mode = some r ∧
      ((findInodeNumberByPath d path).2 ≠ -1 → r = (d, -eexist)) ∧
      ∀ p, Absent L d path p → r.2 < 0 →
        (¬ Starved L (view L d) p ∧ Unchanged (view L d) (view L r.1)) ∨
          (Starved L (view L d) p ∧ ∃ i < indBlock, GotBlock L (view L d) (view L r.1) p i)) ∧
    ∀ buf offset, ∃ r, wfsWrite env d path buf offset = some r ∧
      ((findInodeNumberByPath d path).2 = -1 → r = (d, -enoent)) ∧
      ∀ n : ℕ, (findInodeNumberByPath d path).2 = n → (view L d).ibit n = true → r.2 < 0 →
        (¬ Wasted L (view L d) n offset ∧ Unchanged (view L d) (view L r.1)) ∨
          (Wasted L (view L d) n offset ∧ GotBlock L (view L d) (view L r.1) n indBlock) := by
  have creating (type mode : ℕ) : ((findInodeNumberByPath d path).2 ≠ -1 → create type env d path mode = (d, -eexist)) ∧
      ∀ p, Absent L d path p → (create type env d path mode).2 < 0 →
        (¬ Starved L (view L d) p ∧ Unchanged (view L d) (view L (create type env d path mode).1)) ∨
          (Starved L (view L d) p ∧
            ∃ i < indBlock, GotBlock L (view L d) (view L (create type env d path mode).1) p i) := by
    refine ⟨fun found => ?_, fun p absent => wf.create_failed absent type env mode⟩
    simp only [create, found, ne_eq, not_false_eq_true, if_true]
  refine ⟨?_, fun buf offset => ⟨_, map_strcpyPath fits, fun missing => ?_, fun n found live failed => ?_⟩⟩
  · intro op member mode
    simp only [List.mem_cons, List.not_mem_nil, or_false] at member
    rcases member with rfl | rfl
    · exact ⟨_, map_strcpyPath fits, creating sIfreg mode⟩
    · exact ⟨_, map_strcpyPath fits, creating sIfdir mode⟩
  · simp only [writePath, missing, if_true]
  · have known : (n : ℤ) ≠ -1 := by omega
    simp only [writePath, found, if_neg known, wf.super.inodeAt_eq (view_ibit_lt live)] at failed ⊢
    exact wf.ordered.writeInode_failed live env buf offset failed

/-- A write behind the last block a file can have fails, and the free block it took is in use afterwards. -/
theorem failed_write_takes_block : ∃ (L : Layout) (d d' : Disk) (path : Name) (n offset k : ℕ), WellFormed L d ∧
    (findInodeNumberByPath d path).2 = n ∧ (view L d).ibit n = true ∧ isReg ((view L d).inode n) = true ∧
    wfsWrite ⟨5, 0, 0⟩ d path [1] offset = some (d', -enospc) ∧ (view L d).dbit k = false ∧
    (view L d').dbit k = true := by
  refine ⟨smallLayout, image emptyFile, _, [47, 97], 1, 36352, 1, emptyFile_wellFormed, by decide +kernel,
    by decide +kernel,
    by decide +kernel, map_strcpyPath_eq_some.mpr ⟨by decide, Prod.ext rfl ?_⟩, by decide +kernel, ?_⟩
  · decide +kernel
  · decide +kernel

/-- The same write, and one that fails on a path that does not exist. -/
theorem failed_call_wasted :
    wfsWrite ⟨5, 0, 0⟩ (image emptyFile) [47, 98] [1] 0 = some (image emptyFile, -enoent) ∧
    ∃ r, wfsWrite ⟨5, 0, 0⟩ (image emptyFile) [47, 97] [1] 36352 = some r ∧
      GotBlock smallLayout (view smallLayout (image emptyFile)) (view smallLayout r.1) 1 indBlock := by
  constructor
  · obtain ⟨r, wrote, missing, _⟩ :=
      (failed_call emptyFile_wellFormed ⟨5, 0, 0⟩ (show [47, 98].length < tmpPath by decide)).2 [1] 0
    rw [wrote, missing (by decide +kernel)]
  · obtain ⟨r, wrote, _, failed⟩ :=
      (failed_call emptyFile_wellFormed ⟨5, 0, 0⟩ (show [47, 97].length < tmpPath by decide)).2 [1] 36352
    obtain ⟨_, eq⟩ := map_strcpyPath_eq_some.mp wrote
    subst eq
    refine ⟨_, wrote, ?_⟩
    rcases failed 1 (by decide +kernel) (by decide +kernel) (by decide +kernel) with ⟨kept, _⟩ | ⟨_, got⟩
    · refine absurd ⟨by decide +kernel, by decide, 1, by decide, by decide +kernel, .inl (by decide)⟩ kept
    · exact got

end Cs537.Wfs
