import Cs537.Wfs.FileStep

/-! # What `wfs_write` does to the image

One round of either loop fills at most one pointer of the file and copies bytes into one of its blocks.
The direct loop writes a stretch of the file without gaps; the indirect loop does so for its first round
only, since its index moves on twice. Whatever the loops do, the rest of the image stays as it is.
-/

namespace Cs537.Wfs

open Lib Memory

variable {L : Layout} {d d' : Disk} {n b : ℕ} {r : Ref}

/-- An image with the layout whose pointers are in order. -/
structure Ordered (L : Layout) (d : Disk) : Prop where
  super : Super L d
  pointers : Pointers L (view L d)

/-- One file changes, not its size, and the pointers stay in order. -/
structure FileRun (L : Layout) (n : ℕ) (d d' : Disk) : Prop where
  step : FileStep L n (view L d) (view L d')
  ordered : Ordered L d'
  size : fileSize ((view L d').inode n) = fileSize ((view L d).inode n)

theorem FileRun.refl (ordered : Ordered L d) (n : ℕ) : FileRun L n d d := ⟨.refl .., ordered, rfl⟩

theorem FileRun.trans {d'' : Disk} (first : FileRun L n d d') (second : FileRun L n d' d'') : FileRun L n d d'' :=
  ⟨first.step.trans second.step, second.ordered, second.size.trans first.size⟩

theorem Ordered.run_of_view {fs : Fs} (ordered : Ordered L d) (eq : view L d' = fs) (step : FileStep L n (view L d) fs)
    (pointers : Pointers L fs) (size : fileSize (fs.inode n) = fileSize ((view L d).inode n)) : FileRun L n d d' := by
  subst eq
  exact ⟨step, ⟨ordered.super.of_head step.head, pointers⟩, size⟩

/-- The word at a place is what the place holds. -/
theorem Ordered.long_slot (ordered : Ordered L d) (holds : (view L d).Holds r) :
    d.long ((view L d).slot L r) = (view L d).target L r := by
  rw [Fs.target_of_holds holds]
  cases r with
  | ptr n i => exact long_blocksAt (view_ibit_lt holds.1) holds.2
  | entry n e =>
    obtain ⟨fits, target⟩ := ordered.pointers.indirect_eq holds
    rw [Fs.target_ptr holds.1 (by decide)] at target
    simp only [Fs.slot, target]
    exact long_entry fits holds.2.2.1

/-- A pointer is filled if it is null. -/
theorem Ordered.ensure (ordered : Ordered L d) (holds : (view L d).Holds r) :
    (if d.long ((view L d).slot L r) = 0 then newBlock d ((view L d).slot L r) else some d) = none ∧
        (view L d).target L r = 0 ∧ lowestClear (view L d).dbit L.blocks = none ∨
      ∃ d' k, (if d.long ((view L d).slot L r) = 0 then newBlock d ((view L d).slot L r) else some d) = some d' ∧
        FileRun L r.owner d d' ∧ k < L.blocks ∧ (view L d').target L r = L.block k ∧
        ((d' = d) ∨ (view L d).target L r = 0 ∧ lowestClear (view L d).dbit L.blocks = some k ∧
          view L d' = (view L d).point L r k) := by
  rw [ordered.long_slot holds]
  split_ifs with null
  · have filled := newBlock_eq ordered.super ordered.pointers holds
    cases lowest : lowestClear (view L d).dbit L.blocks with
    | none =>
      rw [lowest] at filled
      exact .inl ⟨filled, null, rfl⟩
    | some k =>
      rw [lowest] at filled
      obtain ⟨d', found, eq⟩ := filled
      obtain ⟨inside, free, _⟩ := lowestClear_eq_some lowest
      have target := ordered.pointers.target_point holds null inside free
      refine .inr ⟨d', k, found, ?_, inside, by rw [eq]; exact target.1, .inr ⟨null, rfl, eq⟩⟩
      exact ordered.run_of_view eq (.point ordered.pointers holds null inside free)
        (ordered.pointers.point holds null inside free) (fileSize_point _)
  · obtain ⟨k, inside, target⟩ := ordered.pointers.valid r null
    exact .inr ⟨d, k, rfl, .refl ordered _, inside, target, .inl rfl⟩

/-- Where the pointer of a file block is stored. -/
private theorem slot_fileRef_congr {fs fs' : Fs} (same : ptr (fs'.inode n) indBlock = ptr (fs.inode n) indBlock) :
    fs'.slot L (fileRef n b) = fs.slot L (fileRef n b) := by
  rw [fileRef]
  split_ifs
  · rfl
  · simp only [Fs.slot, same]

/-- The bytes one round copies. -/
def Cursor.chunk (c : Cursor) : List UInt8 := c.rest.take (min c.rest.length (blockSize - c.blockOffset))

theorem Cursor.length_chunk (c : Cursor) : c.chunk.length = min c.rest.length (blockSize - c.blockOffset) := by
  rw [chunk, List.length_take]
  omega

theorem Cursor.rest_next (c : Cursor) (stride : ℕ) : c.rest = c.chunk ++ (c.next stride).rest :=
  (List.take_append_drop _ _).symm

/-- One round: no pointer and no free block, or the pointer is there, perhaps a new one, and the bytes are
stored where it leads. -/
theorem Ordered.writeBlock_cases (ordered : Ordered L d) (holds : (view L d).Holds (fileRef n b)) {c : Cursor}
    (offset : c.blockOffset < blockSize) :
    writeBlock d ((view L d).slot L (fileRef n b)) c = none ∧ (view L d).target L (fileRef n b) = 0 ∧
        lowestClear (view L d).dbit L.blocks = none ∨
      ∃ mid k, writeBlock d ((view L d).slot L (fileRef n b)) c = some (mid.store (L.block k + c.blockOffset) c.chunk) ∧
        FileRun L n d mid ∧ k < L.blocks ∧ (view L mid).target L (fileRef n b) = L.block k ∧
        (mid = d ∨ (view L d).target L (fileRef n b) = 0 ∧ lowestClear (view L d).dbit L.blocks = some k ∧
          view L mid = (view L d).point L (fileRef n b) k) ∧
        view L (mid.store (L.block k + c.blockOffset) c.chunk) =
          (view L mid).setBlock k (((view L mid).block k).store c.blockOffset c.chunk) := by
  rcases ordered.ensure holds with ⟨none, null, full⟩ | ⟨mid, k, some, run, inside, target, cases⟩
  · refine .inl ⟨?_, null, full⟩
    rw [writeBlock, none]
    rfl
  · rw [fileRef_owner] at run
    have slot : mid.long ((view L d).slot L (fileRef n b)) = L.block k := by
      have still : (view L mid).Holds (fileRef n b) := by
        apply Fs.holds_of_target (L := L)
        rw [target]
        exact L.block_ne_zero k
      have same : (view L mid).slot L (fileRef n b) = (view L d).slot L (fileRef n b) := by
        rcases cases with rfl | ⟨null, _, eq⟩
        · rfl
        · rw [eq]
          apply slot_fileRef_congr
          rw [fileRef]
          split_ifs with small
          · rw [point_inode_self, ptr_setPtr_of_ne (by omega)]
          · rfl
      rw [← same, run.ordered.long_slot still, target]
    have fits : c.blockOffset + c.chunk.length ≤ blockSize := by
      rw [c.length_chunk]
      omega
    refine .inr ⟨mid, k, ?_, run, inside, target, cases, ?_⟩
    · rw [writeBlock, some, Option.map_some, slot]
      rfl
    · exact view_store_block inside (by omega) (by simp only [blockSize] at fits; omega)

/-- One round: no pointer and no free block, or the bytes are in the file. -/
theorem Ordered.writeBlock (ordered : Ordered L d) (holds : (view L d).Holds (fileRef n b)) {c : Cursor}
    (offset : c.blockOffset < blockSize) :
    writeBlock d ((view L d).slot L (fileRef n b)) c = none ∧ (view L d).target L (fileRef n b) = 0 ∧
        lowestClear (view L d).dbit L.blocks = none ∨
      ∃ d', writeBlock d ((view L d).slot L (fileRef n b)) c = some d' ∧ FileRun L n d d' ∧
        Wrote L n (view L d) (view L d') (blockSize * b + c.blockOffset) c.chunk ∧
        (view L d').target L (fileRef n b) ≠ 0 := by
  rcases ordered.writeBlock_cases holds offset with failed | ⟨mid, k, some, run, inside, target, cases, stored⟩
  · exact .inl failed
  · have pointers := run.ordered.pointers
    have fits : c.blockOffset + c.chunk.length ≤ blockSize := by
      rw [c.length_chunk]
      omega
    have data := FileStep.data pointers target (fileRef_indirect n b) (((view L mid).block k).store c.blockOffset c.chunk)
    rw [fileRef_owner] at data
    have run' := run.ordered.run_of_view stored data (pointers.setBlock target (fileRef_indirect n b) _) rfl
    have filled : Wrote L n (view L d) (view L mid) (blockSize * b + c.blockOffset) [] := by
      rcases cases with rfl | ⟨null, lowest, eq⟩
      · exact .nil (fun _ => rfl) (fun _ _ _ _ => rfl) pointers
      · rw [eq]
        obtain ⟨_, free, _⟩ := lowestClear_eq_some lowest
        exact .point ordered.pointers holds null inside free _
    have wrote : Wrote L n (view L mid) (view L (mid.store (L.block k + c.blockOffset) c.chunk))
        (blockSize * b + c.blockOffset) c.chunk := by
      rw [stored]
      exact .data pointers target fits
    refine .inr ⟨mid.store (L.block k + c.blockOffset) c.chunk, some, run.trans run', ?_, ?_⟩
    · exact filled.append wrote run.step run'.step
    · rw [run'.step.grows _ (by rw [target]; exact L.block_ne_zero k), target]
      exact L.block_ne_zero k

/-- Some bytes of the buffer have been copied and counted. -/
structure Advanced (L : Layout) (n : ℕ) (d : Disk) (c : Cursor) (d' : Disk) (c' : Cursor) (bytes : List UInt8) :
    Prop where
  run : FileRun L n d d'
  rest : c.rest = bytes ++ c'.rest
  written : c'.written = c.written + bytes.length
  offset : c'.blockOffset < blockSize

theorem Advanced.refl {c : Cursor} (ordered : Ordered L d) (offset : c.blockOffset < blockSize) :
    Advanced L n d c d c [] := ⟨.refl ordered n, rfl, rfl, offset⟩

theorem Advanced.trans {d'' : Disk} {c c' c'' : Cursor} {front back : List UInt8}
    (first : Advanced L n d c d' c' front) (second : Advanced L n d' c' d'' c'' back) :
    Advanced L n d c d'' c'' (front ++ back) :=
  ⟨first.run.trans second.run, by rw [first.rest, second.rest, List.append_assoc],
    by rw [second.written, first.written, List.length_append, Nat.add_assoc], second.offset⟩

theorem Advanced.round {c : Cursor} (run : FileRun L n d d') (stride : ℕ) :
    Advanced L n d c d' (c.next stride) c.chunk :=
  ⟨run, c.rest_next stride, by rw [c.length_chunk]; rfl, by simp [Cursor.next, blockSize]⟩

/-- A round that leaves something has filled its block. -/
theorem Cursor.next_position (c : Cursor) (offset : c.blockOffset < blockSize) (more : (c.next 1).rest ≠ []) :
    blockSize * (c.next 1).index + (c.next 1).blockOffset = blockSize * c.index + c.blockOffset + c.chunk.length := by
  have longer : ¬ c.rest.length ≤ min c.rest.length (blockSize - c.blockOffset) := by
    simpa [Cursor.next, List.drop_eq_nil_iff] using more
  rw [c.length_chunk]
  simp only [Cursor.next]
  rw [Nat.mul_add]
  omega

theorem slot_direct {c : Cursor} (small : c.index < indBlock) :
    (view L d).slot L (fileRef n c.index) = blocksAt (L.inode n) c.index := by
  rw [fileRef, if_pos small]
  rfl

theorem holds_direct {fs : Fs} (live : fs.ibit n = true) (small : b < indBlock) : fs.Holds (fileRef n b) := by
  rw [fileRef, if_pos small]
  exact ⟨live, by simp only [indBlock] at small; omega⟩

/-- The direct loop: a stretch of the file is written, up to the end of the buffer or of the direct blocks
unless no block is left. -/
theorem Ordered.directLoop (fuel : ℕ) {c : Cursor} (ordered : Ordered L d) (live : (view L d).ibit n = true)
    (offset : c.blockOffset < blockSize) (enough : indBlock ≤ c.index + fuel) :
    ∃ d' c' full bytes, directLoop (L.inode n) fuel d c = (d', c', full) ∧ Advanced L n d c d' c' bytes ∧
      Wrote L n (view L d) (view L d') (blockSize * c.index + c.blockOffset) bytes ∧
      (c'.rest ≠ [] → blockSize * c'.index + c'.blockOffset = blockSize * c.index + c.blockOffset + bytes.length) ∧
      (full = true → c'.rest ≠ [] ∧ c'.index < indBlock ∧ (view L d').target L (fileRef n c'.index) = 0 ∧
        lowestClear (view L d').dbit L.blocks = none) ∧
      (full = false → c'.rest = [] ∨ indBlock ≤ c'.index) := by
  have stop : Wrote L n (view L d) (view L d) (blockSize * c.index + c.blockOffset) [] :=
    .nil (fun _ => rfl) (fun _ _ _ _ => rfl) ordered.pointers
  induction fuel generalizing d c with
  | zero =>
    exact ⟨d, c, false, [], rfl, .refl ordered offset, stop, fun _ => rfl, nofun, fun _ => .inr enough⟩
  | succ fuel ih =>
    rw [Wfs.directLoop]
    by_cases more : c.rest ≠ [] ∧ c.index < indBlock
    · rw [if_pos more, ← slot_direct (d := d) more.2]
      rcases ordered.writeBlock (holds_direct live more.2) offset with
        ⟨none, null, nothing⟩ | ⟨mid, some, run, wrote, _⟩
      · simp only [none]
        exact ⟨d, c, true, [], rfl, .refl ordered offset, stop, fun _ => rfl, fun _ => ⟨more.1, more.2, null, nothing⟩,
          nofun⟩
      · simp only [some]
        have round := Advanced.round (c := c) run 1
        have live' : (view L mid).ibit n = true := by
          rw [run.step.ibit]
          exact live
        obtain ⟨d', c', full, bytes, loop, advanced, wrote', position, isFull, ended⟩ :=
          ih run.ordered live' round.offset (by simp only [Cursor.next]; omega)
            (.nil (fun _ => rfl) (fun _ _ _ _ => rfl) run.ordered.pointers)
        refine ⟨d', c', full, c.chunk ++ bytes, loop, round.trans advanced, ?_, ?_, isFull, ended⟩
        · by_cases last : (c.next 1).rest = []
          · have empty : bytes = [] := by
              have rest := advanced.rest
              rw [last] at rest
              exact (List.append_eq_nil_iff.mp rest.symm).1
            subst empty
            rw [List.append_nil]
            have kept : Wrote L n (view L mid) (view L d') (blockSize * c.index + c.blockOffset + c.chunk.length) [] :=
              ⟨fun x _ below => by simp at below, fun x _ => wrote'.outside x (by simp; omega),
                fun x _ => wrote'.zero x (by simp; omega)⟩
            simpa using wrote.append kept run.step advanced.run.step
          · rw [c.next_position offset last] at wrote'
            exact wrote.append wrote' run.step advanced.run.step
        · intro left
          have last : (c.next 1).rest ≠ [] := by
            rw [advanced.rest]
            simp [left]
          rw [position left, c.next_position offset last, List.length_append, Nat.add_assoc]
    · rw [if_neg more]
      refine ⟨d, c, false, [], rfl, .refl ordered offset, stop, fun _ => rfl, nofun, fun _ => ?_⟩
      by_cases done : c.rest = []
      · exact .inl done
      · exact .inr (by by_contra small; exact more ⟨done, by omega⟩)

theorem holds_entry {fs : Fs} (live : fs.ibit n = true) (reg : isReg (fs.inode n) = true)
    (set : ptr (fs.inode n) indBlock ≠ 0) {e : ℕ} (small : e < entriesPerBlock) :
    fs.Holds (fileRef n (indBlock + e)) := by
  rw [fileRef, if_neg (by omega), Nat.add_sub_cancel_left]
  exact ⟨live, reg, small, set⟩

theorem slot_entry (live : (view L d).ibit n = true) (e : ℕ) :
    (view L d).slot L (fileRef n (indBlock + e)) = d.long (blocksAt (L.inode n) indBlock) + 8 * e := by
  rw [fileRef, if_neg (by omega), Nat.add_sub_cancel_left, long_blocksAt (view_ibit_lt live) (by decide)]
  rfl

/-- A live regular file with an indirect block. -/
structure HasIndirect (L : Layout) (d : Disk) (n : ℕ) : Prop where
  live : (view L d).ibit n = true
  reg : isReg ((view L d).inode n) = true
  set : (view L d).target L (.ptr n indBlock) ≠ 0

theorem HasIndirect.run (has : HasIndirect L d n) {m : ℕ} (run : FileRun L m d d') : HasIndirect L d' n where
  live := by
    rw [run.step.ibit]
    exact has.live
  reg := by
    by_cases eq : n = m
    · subst eq
      rw [isReg, run.step.mode]
      exact has.reg
    · rw [run.step.inode n eq]
      exact has.reg
  set := by
    rw [run.step.grows _ has.set]
    exact has.set

theorem HasIndirect.holds (has : HasIndirect L d n) {e : ℕ} (small : e < entriesPerBlock) :
    (view L d).Holds (fileRef n (indBlock + e)) := by
  have set := has.set
  rw [Fs.target_ptr has.live (by decide)] at set
  exact holds_entry has.live has.reg set small

private theorem indirectLoop_done (inode : ℤ) (fuel : ℕ) (d : Disk) {c : Cursor}
    (done : ¬ (c.rest ≠ [] ∧ c.index < entriesPerBlock)) :
    indirectLoop inode fuel d c = (d, c, false) := by
  cases fuel with
  | zero => rfl
  | succ fuel => rw [Wfs.indirectLoop, if_neg done]

/-- The indirect loop: bytes are counted and one file changes; if one round is all there is to do, a
stretch of the file is written. -/
theorem Ordered.indirectLoop (fuel : ℕ) {c : Cursor} (ordered : Ordered L d) (has : HasIndirect L d n)
    (offset : c.blockOffset < blockSize) : ∃ d' c' full bytes,
      indirectLoop (L.inode n) fuel d c = (d', c', full) ∧ Advanced L n d c d' c' bytes ∧
      ((c.next 2).rest = [] ∨ entriesPerBlock ≤ c.index + 2 →
        Wrote L n (view L d) (view L d') (blockSize * (indBlock + c.index) + c.blockOffset) bytes) := by
  have stop {d : Disk} {c : Cursor} (ordered : Ordered L d) :
      Wrote L n (view L d) (view L d) (blockSize * (indBlock + c.index) + c.blockOffset) [] :=
    .nil (fun _ => rfl) (fun _ _ _ _ => rfl) ordered.pointers
  induction fuel generalizing d c with
  | zero => exact ⟨d, c, false, [], rfl, .refl ordered offset, fun _ => stop ordered⟩
  | succ fuel ih =>
    rw [Wfs.indirectLoop]
    by_cases more : c.rest ≠ [] ∧ c.index < entriesPerBlock
    · rw [if_pos more, ← slot_entry has.live]
      rcases ordered.writeBlock (has.holds more.2) offset with ⟨none, _⟩ | ⟨mid, some, run, wrote, _⟩
      · simp only [none]
        exact ⟨d, c, true, [], rfl, .refl ordered offset, fun _ => stop ordered⟩
      · simp only [some]
        have round := Advanced.round (c := c) run 2
        by_cases one : (c.next 2).rest = [] ∨ entriesPerBlock ≤ c.index + 2
        · have done : ¬ ((c.next 2).rest ≠ [] ∧ (c.next 2).index < entriesPerBlock) := by
            rintro ⟨left, small⟩
            rcases one with empty | last
            · exact left empty
            · exact absurd small (not_lt.mpr last)
          rw [indirectLoop_done _ _ _ done]
          exact ⟨mid, c.next 2, false, c.chunk, rfl, round, fun _ => wrote⟩
        · obtain ⟨d', c', full, bytes, loop, advanced, _⟩ := ih run.ordered (has.run run) round.offset
          exact ⟨d', c', full, c.chunk ++ bytes, loop, round.trans advanced, fun yes => (one yes).elim⟩
    · rw [if_neg more]
      exact ⟨d, c, false, [], rfl, .refl ordered offset, fun _ => stop ordered⟩

/-- Times, links and size of an inode change; the size becomes the given one. -/
structure MetaStep (L : Layout) (n : ℕ) (d d' : Disk) (size : ℤ) : Prop where
  intro ::
  page : ∃ page, view L d' = (view L d).setInode n page ∧ SamePointers ((view L d).inode n) page ∧
    links page = links ((view L d).inode n) ∧ fileSize page = size

private theorem setInode_self (fs : Fs) (n : ℕ) : fs.setInode n (fs.inode n) = fs := by
  cases fs
  simp [Fs.setInode]

theorem MetaStep.refl (L : Layout) (n : ℕ) (d : Disk) : MetaStep L n d d (fileSize ((view L d).inode n)) :=
  ⟨_, (setInode_self _ _).symm, ⟨fun _ _ => rfl, rfl⟩, rfl, rfl⟩

theorem MetaStep.trans {d'' : Disk} {size size' : ℤ} (first : MetaStep L n d d' size)
    (second : MetaStep L n d' d'' size') :
    MetaStep L n d d'' size' := by
  obtain ⟨page, view, same, links, _⟩ := first.page
  obtain ⟨page', view', same', links', eq⟩ := second.page
  have mine : (Wfs.view L d').inode n = page := by
    rw [view]
    exact Function.update_self ..
  rw [mine] at same' links'
  refine ⟨page', ?_, same.trans same', links'.trans links, eq⟩
  rw [view', view]
  simp [Fs.setInode]

/-- A store into the fields between the owner and the pointers, away from the links. -/
theorem MetaStep.store {o : ℤ} {bytes : List UInt8} (inside : n < L.inodes) (low : 28 ≤ o)
    (high : o + bytes.length ≤ 56) :
    MetaStep L n d (d.store (L.inode n + o) bytes) (fileSize ((view L d).inode n)) :=
  ⟨_, view_store_inode inside (by omega) (by omega), .store (by omega) high, links_store (by omega),
    fileSize_store (by omega)⟩

theorem updateInodeTimes_meta (inside : n < L.inodes) (now : ℤ) (modified : Bool) :
    MetaStep L n d (updateInodeTimes d (L.inode n) now modified) (fileSize ((view L d).inode n)) := by
  have set {d : Disk} {size : ℤ} (size_eq : fileSize ((view L d).inode n) = size) (o : ℤ) (low : 28 ≤ o)
      (high : o + 8 ≤ 56) (v : ℤ) : MetaStep L n d (d.setLong (L.inode n + o) v) size := by
    rw [← size_eq]
    exact .store inside low (by simp only [length_leBytes]; omega)
  have size {d' : Disk} {size : ℤ} (step : MetaStep L n d d' size) : fileSize ((view L d').inode n) = size := by
    obtain ⟨page, view, _, _, eq⟩ := step.page
    rw [view, ← eq]
    exact congrArg fileSize (Function.update_self ..)
  have first := set (d := d) rfl 32 (by decide) (by decide) now
  have second := first.trans (set (size first) 48 (by decide) (by decide) now)
  simp only [updateInodeTimes]
  split_ifs
  · exact second.trans (set (size second) 40 (by decide) (by decide) now)
  · exact second

/-- The size after a write that ends at the given offset. -/
def grown (size : ℤ) (fileEnd : ℕ) : ℤ := if uint64 size < fileEnd then int64 fileEnd else size

private theorem growSize_meta (inside : n < L.inodes) (fileEnd : ℕ) :
    MetaStep L n d (growSize d (L.inode n) fileEnd) (grown (fileSize ((view L d).inode n)) fileEnd) := by
  simp only [growSize, grown, long_sizeAt inside]
  split_ifs
  · have stored : view L (d.setLong (L.inode n + 16) fileEnd) =
        (view L d).setInode n (((view L d).inode n).setLong 16 fileEnd) :=
      view_store_inode inside (by decide) (by simp only [length_leBytes]; omega)
    refine ⟨_, stored, ?_, ?_, ?_⟩
    · exact .store (by decide) (by simp only [length_leBytes]; omega)
    · exact links_store (by simp only [length_leBytes]; omega)
    · exact long_setLong ..
  · exact .refl L n d

theorem MetaStep.fileStep {size : ℤ} (step : MetaStep L n d d' size) : FileStep L n (view L d) (view L d') := by
  obtain ⟨page, view, same, links, _⟩ := step.page
  rw [view]
  exact .setInode same links

theorem MetaStep.ordered {size : ℤ} (step : MetaStep L n d d' size) (ordered : Ordered L d) : Ordered L d' := by
  refine ⟨ordered.super.of_head step.fileStep.head, ?_⟩
  obtain ⟨page, view, same, _⟩ := step.page
  rw [view]
  exact ordered.pointers.setInode same

/-- How a write ends: nothing written and an error, or the count with the size grown to the end. -/
structure Finished (L : Layout) (n : ℕ) (d : Disk) (offset written : ℕ) (d' : Disk) (ret : ℤ) : Prop where
  intro ::
  cases : (ret = -enospc ∧ written = 0 ∧ MetaStep L n d d' (fileSize ((view L d).inode n))) ∨
    (ret = written ∧ MetaStep L n d d' (grown (fileSize ((view L d).inode n)) (offset + written)))

private theorem grow_touch (inside : n < L.inodes) (fileEnd : ℕ) (now : ℤ) (modified : Bool) :
    MetaStep L n d (updateInodeTimes (growSize d (L.inode n) fileEnd) (L.inode n) now modified)
      (grown (fileSize ((view L d).inode n)) fileEnd) := by
  have grow := growSize_meta (d := d) inside fileEnd
  have times := updateInodeTimes_meta (d := growSize d (L.inode n) fileEnd) inside now modified
  obtain ⟨page, view, _, _, eq⟩ := grow.page
  have size : fileSize ((Wfs.view L (growSize d (L.inode n) fileEnd)).inode n) = grown
    (fileSize ((Wfs.view L d).inode n)) fileEnd := by
    rw [view, ← eq]
    exact congrArg fileSize (Function.update_self ..)
  rw [size] at times
  exact grow.trans times

theorem shortWrite_finished (inside : n < L.inodes) (env : Env) (offset written : ℕ) :
    Finished L n d offset written (shortWrite env d (L.inode n) offset written).1
      (shortWrite env d (L.inode n) offset written).2 := by
  rw [shortWrite]
  split_ifs with some <;> dsimp only
  · exact ⟨.inr ⟨rfl, grow_touch inside ..⟩⟩
  · exact ⟨.inl ⟨rfl, by omega, updateInodeTimes_meta inside ..⟩⟩

theorem shortWriteIndirect_finished (inside : n < L.inodes) (env : Env) (offset written : ℕ) :
    Finished L n d offset written (shortWriteIndirect env d (L.inode n) offset written).1
      (shortWriteIndirect env d (L.inode n) offset written).2 := by
  rw [shortWriteIndirect]
  split_ifs with some <;> dsimp only
  · exact ⟨.inr ⟨rfl, growSize_meta inside _⟩⟩
  · exact ⟨.inl ⟨rfl, by omega, updateInodeTimes_meta inside ..⟩⟩

theorem finishWrite_finished (inside : n < L.inodes) (env : Env) (offset : ℕ) (c : Cursor) :
    Finished L n d offset c.written (finishWrite env d (L.inode n) offset c).1
      (finishWrite env d (L.inode n) offset c).2 := by
  rw [finishWrite]
  split_ifs with nothing <;> dsimp only
  · exact ⟨.inl ⟨rfl, nothing.2, .refl L n d⟩⟩
  · exact ⟨.inr ⟨rfl, grow_touch inside ..⟩⟩

/-- The write needs at most one entry of the indirect block: it ends in the block it starts in, or in the
first one behind the direct blocks, or the entry after next is past the last. -/
def OneEntry (offset len : ℕ) : Prop :=
  offset + len ≤ blockSize * (max (offset / blockSize) indBlock + 1) ∨ indBlock + entriesPerBlock ≤ offset / blockSize + 2

instance (offset len : ℕ) : Decidable (OneEntry offset len) := inferInstanceAs (Decidable (_ ∨ _))

/-- What a call of `wfs_write` does: a number of bytes is counted, one file changes, and if at most one
entry of the indirect block is needed the bytes are in the file. -/
structure Written (L : Layout) (n : ℕ) (d : Disk) (buf : List UInt8) (offset : ℕ) (d' : Disk) (ret : ℤ) : Prop where
  intro ::
  run : ∃ mid bytes rest, buf = bytes ++ rest ∧ FileRun L n d mid ∧ Finished L n mid offset bytes.length d' ret ∧
    (OneEntry offset buf.length → Wrote L n (view L d) (view L mid) offset bytes)

private theorem Written.of_advanced {mid : Disk} {c c' : Cursor} {buf bytes : List UInt8} {offset : ℕ} {ret : ℤ}
    (advanced : Advanced L n d c mid c' bytes) (start : c.written = 0) (all : c.rest = buf)
    (finished : Finished L n mid offset c'.written d' ret)
    (wrote : OneEntry offset buf.length → Wrote L n (view L d) (view L mid) offset bytes) :
    Written L n d buf offset d' ret := by
  refine ⟨mid, bytes, c'.rest, by rw [← all]; exact advanced.rest, advanced.run, ?_, wrote⟩
  rw [advanced.written, start, Nat.zero_add] at finished
  exact finished

private theorem OneEntry.last_round {offset : ℕ} {buf : List UInt8} (one : OneEntry offset buf.length) {c : Cursor}
    {bytes : List UInt8} (rest : buf = bytes ++ c.rest) (above : indBlock ≤ c.index)
    (small : c.blockOffset < blockSize)
    (position : blockSize * c.index + c.blockOffset = offset + bytes.length) :
    (Cursor.next { c with index := c.index - indBlock } 2).rest = [] ∨
      entriesPerBlock ≤ c.index - indBlock + 2 := by
  have length : buf.length = bytes.length + c.rest.length := by rw [rest, List.length_append]
  simp only [OneEntry, blockSize, indBlock, entriesPerBlock] at *
  rcases one with near | far
  · left
    simp only [Cursor.next, List.drop_eq_nil_iff, blockSize]
    omega
  · right
    omega

theorem Ordered.writeInode (env : Env) (ordered : Ordered L d) (live : (view L d).ibit n = true)
    (reg : isReg ((view L d).inode n) = true) (buf : List UInt8) (offset : ℕ) :
    Written L n d buf offset (writeInode env d (L.inode n) buf offset).1
      (writeInode env d (L.inode n) buf offset).2 := by
  have inside := view_ibit_lt live
  obtain ⟨d₁, c₁, full, bytes, direct, advanced, wrote, position, _, ended⟩ :=
    ordered.directLoop indBlock (c := ⟨0, buf, offset / blockSize, offset % blockSize⟩) live
      (Nat.mod_lt _ (by decide)) (by omega)
  have start : blockSize * (offset / blockSize) + offset % blockSize = offset := Nat.div_add_mod ..
  simp only [start] at wrote position
  rw [Wfs.writeInode, direct]
  cases full with
  | true => exact .of_advanced advanced rfl rfl (shortWrite_finished inside ..) fun _ => wrote
  | false =>
    dsimp only
    by_cases done : c₁.rest = []
    · rw [if_pos done]
      exact .of_advanced advanced rfl rfl (finishWrite_finished inside ..) fun _ => wrote
    · rw [if_neg done]
      have above : indBlock ≤ c₁.index := (ended rfl).resolve_left done
      have live₁ : (view L d₁).ibit n = true := by
        rw [advanced.run.step.ibit]
        exact live
      have holds : (view L d₁).Holds (.ptr n indBlock) := ⟨live₁, by decide⟩
      rcases advanced.run.ordered.ensure holds with ⟨none, _⟩ | ⟨d₂, k, some, run, fits, target, cases⟩
      · change (if d₁.long (blocksAt (L.inode n) indBlock) = 0 then newBlock d₁ (blocksAt (L.inode n) indBlock)
          else Option.some d₁) = Option.none at none
        rw [none]
        exact .of_advanced advanced rfl rfl (shortWrite_finished inside ..) fun _ => wrote
      · change (if d₁.long (blocksAt (L.inode n) indBlock) = 0 then newBlock d₁ (blocksAt (L.inode n) indBlock)
          else Option.some d₁) = Option.some d₂ at some
        change FileRun L n d₁ d₂ at run
        rw [some]
        have has : HasIndirect L d₂ n := by
          refine ⟨?_, ?_, by rw [target]; exact L.block_ne_zero k⟩
          · rw [run.step.ibit]
            exact live₁
          · rw [isReg, run.step.mode, advanced.run.step.mode]
            exact reg
        obtain ⟨d₃, c₃, full, bytes', indirect, advanced', once⟩ :=
          run.ordered.indirectLoop entriesPerBlock (c := { c₁ with index := c₁.index - indBlock }) has advanced.offset
        have all : Advanced L n d ⟨0, buf, offset / blockSize, offset % blockSize⟩ d₃ c₃ (bytes ++ bytes') :=
          advanced.trans ⟨run.trans advanced'.run, advanced'.rest, advanced'.written, advanced'.offset⟩
        have contents : OneEntry offset buf.length → Wrote L n (view L d) (view L d₃) offset (bytes ++ bytes') := by
          intro one
          have last := once (one.last_round advanced.rest above advanced.offset (position done))
          have index : indBlock + (c₁.index - indBlock) = c₁.index := by omega
          simp only [index, position done] at last
          have kept : Wrote L n (view L d₁) (view L d₂) (offset + bytes.length) [] := by
            rcases cases with rfl | ⟨null, lowest, eq⟩
            · exact .nil (fun _ => rfl) (fun _ _ _ _ => rfl) advanced.run.ordered.pointers
            · rw [eq]
              obtain ⟨_, free, _⟩ := lowestClear_eq_some lowest
              exact .pointIndirect advanced.run.ordered.pointers holds null fits free _
          have both := kept.append last run.step advanced'.run.step
          exact wrote.append both advanced.run.step (run.trans advanced'.run).step
        simp only [indirect]
        cases full with
        | true => exact .of_advanced all rfl rfl (shortWriteIndirect_finished inside ..) contents
        | false => exact .of_advanced all rfl rfl (finishWrite_finished inside ..) contents

/-- Whatever happens, one file has changed and the pointers are in order. -/
theorem Written.fileStep {buf : List UInt8} {offset : ℕ} {ret : ℤ} (written : Written L n d buf offset d' ret) :
    FileStep L n (view L d) (view L d') ∧ Ordered L d' := by
  obtain ⟨mid, bytes, rest, _, run, finished, _⟩ := written.run
  rcases finished.cases with ⟨_, _, step⟩ | ⟨_, step⟩
  · exact ⟨run.step.trans step.fileStep, step.ordered run.ordered⟩
  · exact ⟨run.step.trans step.fileStep, step.ordered run.ordered⟩

end Cs537.Wfs
