import Cs537.Wfs.Failure

/-! # Files with holes

A sequence of writes, each inside one block, to a new file allocates the blocks it touches. The bytes of such a
block read as they were written last, or as zero. A block below the size that no write has touched has no
pointer, and a read follows the null pointer to the superblock.
-/

namespace Cs537.Wfs

open Lib Memory

variable {L : Layout} {d d' : Disk} {path : Name} {env : Env} {n b offset : ℕ} {buf : List UInt8} {c : Cursor}
  {ws : List (ℕ × List UInt8)}

/-- The write stays inside one block. -/
def OneBlock (offset len : ℕ) : Prop := offset % blockSize + len ≤ blockSize

instance (offset len : ℕ) : Decidable (OneBlock offset len) := inferInstanceAs (Decidable (_ ≤ _))

private theorem OneBlock.oneEntry {len : ℕ} (one : OneBlock offset len) : OneEntry offset len := by
  simp only [OneBlock, OneEntry, blockSize, indBlock] at *
  omega

section Single

/-- A round fills no pointer of the file but its own. -/
theorem Ordered.writeBlock_others (ordered : Ordered L d) (holds : (view L d).Holds (fileRef n b))
    (offset : c.blockOffset < blockSize) (done : Wfs.writeBlock d ((view L d).slot L (fileRef n b)) c = some d') {r : Ref}
    (other : r ≠ fileRef n b) : (view L d').target L r = (view L d).target L r := by
  rcases ordered.writeBlock_cases holds offset with ⟨none, _⟩ | ⟨mid, k, some, run, inside, target, cases, stored⟩
  · rw [none] at done
    cases done
  · rw [some] at done
    rw [← Option.some.inj done, stored, run.ordered.pointers.target_setBlock target (fileRef_indirect n b)]
    rcases cases with rfl | ⟨null, lowest, eq⟩
    · rfl
    · obtain ⟨_, free, _⟩ := lowestClear_eq_some lowest
      rw [eq]
      exact (ordered.pointers.target_point holds null inside free).2 r other

theorem MetaStep.target {size : ℤ} (step : MetaStep L n d d' size) (r : Ref) :
    (view L d').target L r = (view L d).target L r := by
  obtain ⟨page, view, same, _⟩ := step.page
  rw [view]
  exact target_setInode same r

theorem Finished.target {written : ℕ} {ret : ℤ} (finished : Finished L n d offset written d' ret) (r : Ref) :
    (view L d').target L r = (view L d).target L r := by
  rcases finished.cases with ⟨_, _, step⟩ | ⟨_, step⟩ <;> exact step.target r

theorem blockLoop_done (slot : Disk → ℕ → ℤ) (stride bound fuel : ℕ) (d : Disk)
    (done : ¬ (c.rest ≠ [] ∧ c.index < bound)) :
    blockLoop slot stride bound fuel d c = (d, c, false) := by
  cases fuel with
  | zero => rfl
  | succ fuel => rw [blockLoop, if_neg done]

/-- A loop that needs one round makes it or fails. -/
theorem blockLoop_one (slot : Disk → ℕ → ℤ) (stride bound fuel : ℕ) (d : Disk) (more : c.rest ≠ [])
    (small : c.index < bound)
    (one : c.blockOffset + c.rest.length ≤ blockSize) :
    (writeBlock d (slot d c.index) c = none ∧ blockLoop slot stride bound (fuel + 1) d c = (d, c, true)) ∨
      ∃ d', writeBlock d (slot d c.index) c = some d' ∧
        blockLoop slot stride bound (fuel + 1) d c = (d', c.next stride, false) := by
  rw [blockLoop, if_pos ⟨more, small⟩]
  cases written : writeBlock d (slot d c.index) c with
  | none => exact .inl ⟨rfl, rfl⟩
  | some d' =>
    refine .inr ⟨d', rfl, blockLoop_done _ _ _ _ _ ?_⟩
    rintro ⟨left, _⟩
    apply left
    simp only [Cursor.next, List.drop_eq_nil_iff]
    omega

/-- A write inside one block fills no pointer to another block of the file. -/
private theorem Ordered.writeInode_others (ordered : Ordered L d) (live : (view L d).ibit n = true)
    (reg : isReg ((view L d).inode n) = true) (env : Env) (one : OneBlock offset buf.length)
    (other : buf = [] ∨ b ≠ offset / blockSize) :
    (view L (Wfs.writeInode env d (L.inode n) buf offset).1).target L (fileRef n b) =
      (view L d).target L (fileRef n b) := by
  have inside := view_ibit_lt live
  have block : offset % blockSize < blockSize := Nat.mod_lt _ (by decide)
  rw [writeInode_eq, directLoop_eq]
  by_cases empty : buf = []
  · rw [blockLoop_done _ _ _ _ _ fun more => more.1 empty]
    dsimp only
    rw [if_pos empty]
    exact (finishWrite_finished inside ..).target _
  · have apart : fileRef n b ≠ fileRef n (offset / blockSize) := fun same => (other.resolve_left empty) (fileRef_inj same)
    by_cases direct : offset / blockSize < indBlock
    · rcases blockLoop_one (fun _ index => blocksAt (L.inode n) index) 1 indBlock 6 d
        (c := ⟨0, buf, offset / blockSize, offset % blockSize⟩) empty direct one with ⟨_, loop⟩ | ⟨d₁, written, loop⟩
      · rw [show indBlock = 6 + 1 from rfl] at *
        rw [loop]
        exact (shortWrite_finished inside ..).target _
      · rw [show indBlock = 6 + 1 from rfl] at *
        rw [loop]
        dsimp only at written ⊢
        rw [← slot_direct (d := d) (c := ⟨0, buf, offset / blockSize, offset % blockSize⟩) direct] at written
        have kept := ordered.writeBlock_others (holds_direct live direct) block written apart
        split_ifs with last
        · exact ((finishWrite_finished inside ..).target _).trans kept
        · exact absurd (by simp only [Cursor.next, List.drop_eq_nil_iff]; simp only [OneBlock] at one; omega) last
    · rw [blockLoop_done _ _ _ _ _ fun more => direct more.2]
      dsimp only
      rw [if_neg empty, indirectPart]
      have holds : (view L d).Holds (.ptr n indBlock) := ⟨live, by decide⟩
      rcases ordered.ensure holds with ⟨none, null, full⟩ | ⟨d₂, k, some, run, fits, filled, cases⟩
      · change (if d.long (blocksAt (L.inode n) indBlock) = 0 then newBlock d (blocksAt (L.inode n) indBlock)
          else Option.some d) = Option.none at none
        rw [none]
        exact (shortWrite_finished inside ..).target _
      · change (if d.long (blocksAt (L.inode n) indBlock) = 0 then newBlock d (blocksAt (L.inode n) indBlock)
          else Option.some d) = Option.some d₂ at some
        change FileRun L n d d₂ at run
        rw [some]
        dsimp only
        have before : (view L d₂).target L (fileRef n b) = (view L d).target L (fileRef n b) := by
          rcases cases with rfl | ⟨null, lowest, eq⟩
          · rfl
          · obtain ⟨_, free, _⟩ := lowestClear_eq_some lowest
            rw [eq]
            refine (ordered.pointers.target_point holds null fits free).2 _ ?_
            intro same
            have data := fileRef_indirect n b
            rw [same] at data
            cases data
        have has : HasIndirect L d₂ n := by
          refine ⟨?_, ?_, by rw [filled]; exact L.block_ne_zero k⟩
          · rw [run.step.ibit]
            exact live
          · rw [isReg, run.step.mode]
            exact reg
        rw [indirectLoop_eq]
        by_cases small : offset / blockSize - indBlock < entriesPerBlock
        · rcases blockLoop_one (fun d index => d.long (blocksAt (L.inode n) indBlock) + 8 * index) 2 entriesPerBlock 63 d₂
            (c := ⟨0, buf, offset / blockSize - indBlock, offset % blockSize⟩) empty small one with
            ⟨_, loop⟩ | ⟨d₃, written, loop⟩
          · rw [show entriesPerBlock = 63 + 1 from rfl] at *
            rw [loop]
            exact ((shortWriteIndirect_finished inside ..).target _).trans before
          · rw [show entriesPerBlock = 63 + 1 from rfl] at *
            rw [loop]
            dsimp only at written ⊢
            rw [← slot_entry has.live] at written
            have index : indBlock + (offset / blockSize - indBlock) = offset / blockSize := by omega
            have kept := run.ordered.writeBlock_others (has.holds small) block written (by rw [index]; exact apart)
            exact ((finishWrite_finished inside ..).target _).trans (kept.trans before)
        · rw [blockLoop_done _ _ _ _ _ fun more => small more.2]
          exact ((finishWrite_finished inside ..).target _).trans before

end Single

section Sequence

/-- Writes one after the other, each with its offset and its bytes and each of its full length. -/
inductive Writes (path : Name) : Disk → List (ℕ × List UInt8) → Disk → Prop
  | nil (d : Disk) : Writes path d [] d
  | cons {d mid d' : Disk} {env : Env} {offset : ℕ} {buf : List UInt8} {rest : List (ℕ × List UInt8)} :
      wfsWrite env d path buf offset = some (mid, ↑buf.length) → Writes path mid rest d' →
      Writes path d ((offset, buf) :: rest) d'

/-- The byte that was written last at a position, or zero. -/
def contents (ws : List (ℕ × List UInt8)) (x : ℕ) : UInt8 :=
  ws.foldl (fun byte w => if w.1 ≤ x ∧ x < w.1 + w.2.length then w.2.getD (x - w.1) 0 else byte) 0

/-- Where the last write ends. -/
def endOf (ws : List (ℕ × List UInt8)) : ℕ := ws.foldl (fun size w => max size (w.1 + w.2.length)) 0

/-- A write has put a byte into the block. -/
def Touches (ws : List (ℕ × List UInt8)) (b : ℕ) : Prop := ∃ w ∈ ws, w.2 ≠ [] ∧ w.1 / blockSize = b

private theorem contents_snoc (ws : List (ℕ × List UInt8)) (w : ℕ × List UInt8) (x : ℕ) : contents (ws ++ [w]) x =
    if w.1 ≤ x ∧ x < w.1 + w.2.length then w.2.getD (x - w.1) 0 else contents ws x := by
  rw [contents, List.foldl_append]
  rfl

private theorem endOf_snoc (ws : List (ℕ × List UInt8)) (w : ℕ × List UInt8) :
    endOf (ws ++ [w]) = max (endOf ws) (w.1 + w.2.length) := by
  rw [endOf, List.foldl_append]
  rfl

private theorem touches_snoc {w : ℕ × List UInt8} : Touches (ws ++ [w]) b ↔ Touches ws b ∨ w.2 ≠ [] ∧ w.1 / blockSize = b := by
  simp only [Touches, List.mem_append, List.mem_singleton, or_and_right, exists_or, exists_eq_left]

/-- What is not in a block that was touched is zero. -/
theorem contents_zero (blocks : ∀ w ∈ ws, OneBlock w.1 w.2.length) {x : ℕ} (apart : ¬ Touches ws (x / blockSize)) :
    contents ws x = 0 := by
  induction ws using List.reverseRecOn with
  | nil => rfl
  | append_singleton ws w ih =>
    rw [touches_snoc, not_or] at apart
    have one := blocks w (by simp)
    rw [contents_snoc, if_neg, ih (fun w' member => blocks w' (List.mem_append_left _ member)) apart.1]
    rintro ⟨above, below⟩
    apply apart.2
    have some : 0 < w.2.length := by omega
    refine ⟨List.length_pos_iff.mp some, ?_⟩
    simp only [OneBlock, blockSize] at *
    omega

/-- A write that reaches the end. -/
private theorem endOf_mem (some : 0 < endOf ws) : ∃ w ∈ ws, endOf ws = w.1 + w.2.length := by
  induction ws using List.reverseRecOn with
  | nil => exact absurd some (lt_irrefl _)
  | append_singleton ws w ih =>
    rw [endOf_snoc] at some ⊢
    by_cases last : endOf ws ≤ w.1 + w.2.length
    · exact ⟨w, by simp, by omega⟩
    · obtain ⟨w', member, eq⟩ := ih (by omega)
      exact ⟨w', List.mem_append_left _ member, by omega⟩

/-- The file after some writes to the empty file. -/
structure SparseFile (L : Layout) (n : ℕ) (d d' : Disk) (ws : List (ℕ × List UInt8)) : Prop where
  ordered : Ordered L d'
  step : FileStep L n (view L d) (view L d')
  size : fileSize ((view L d').inode n) = endOf ws
  allocated : ∀ b, (view L d').target L (fileRef n b) ≠ 0 ↔ Touches ws b
  bytes : ∀ x, (view L d').Allocated L n x → (view L d').fileByte L n x = contents ws x

/-- A new file: live, regular, of size zero and without blocks. -/
structure NewFile (L : Layout) (d : Disk) (path : Name) (n : ℕ) : Prop where
  found : (findInodeNumberByPath d path).2 = n
  live : (view L d).ibit n = true
  reg : isReg ((view L d).inode n) = true
  size : fileSize ((view L d).inode n) = 0
  empty : ∀ i < 8, ptr ((view L d).inode n) i = 0

private theorem NewFile.sparse (new : NewFile L d path n) (ordered : Ordered L d) : SparseFile L n d d [] := by
  have null (b : ℕ) : (view L d).target L (fileRef n b) = 0 := by
    by_contra set
    have holds := Fs.holds_of_target set
    rw [fileRef] at set holds
    split_ifs at set holds with direct
    · rw [Fs.target_of_holds holds] at set
      exact set (new.empty b holds.2)
    · exact holds.2.2.2 (new.empty indBlock (by decide))
  refine ⟨ordered, .refl .., new.size, fun b => ?_, fun x allocated => (allocated (null _)).elim⟩
  refine iff_of_false (not_not.mpr (null b)) ?_
  rintro ⟨w, member, _⟩
  cases member

theorem SparseFile.found {d₀ : Disk} (file : SparseFile L n d₀ d ws) (new : NewFile L d₀ path n)
    (undisturbed : Undisturbed L d₀ path n) :
    (findInodeNumberByPath d path).2 = n ∧ (view L d).ibit n = true ∧ isReg ((view L d).inode n) = true := by
  refine ⟨?_, ?_, ?_⟩
  · rw [file.step.lookup_eq undisturbed]
    exact new.found
  · rw [file.step.ibit]
    exact new.live
  · rw [isReg, file.step.mode]
    exact new.reg

/-- One more write. -/
theorem SparseFile.write {d₀ : Disk} (file : SparseFile L n d₀ d ws) (new : NewFile L d₀ path n)
    (undisturbed : Undisturbed L d₀ path n) (blocks : ∀ w ∈ ws, OneBlock w.1 w.2.length)
    (one : OneBlock offset buf.length)
    (fits : offset < 2 ^ 63) (wrote : writePath env d path buf offset = (d', ↑buf.length)) :
    SparseFile L n d₀ d' (ws ++ [(offset, buf)]) := by
  obtain ⟨found, live, reg⟩ := file.found new undisturbed
  have written := file.ordered.writePath env found live reg buf offset
  have others (b : ℕ) (other : buf = [] ∨ b ≠ offset / blockSize) :
      (view L d').target L (fileRef n b) = (view L d).target L (fileRef n b) := by
    have known : (n : ℤ) ≠ -1 := by omega
    have kept := file.ordered.writeInode_others live reg env one other
    simp only [writePath, found, if_neg known, file.ordered.super.inodeAt_eq (view_ibit_lt live)] at wrote
    rwa [wrote] at kept
  rw [wrote] at written
  obtain ⟨step, ordered⟩ := written.fileStep
  obtain ⟨bytes, rest, split, count, content, size⟩ := written.counted one.oneEntry
  have nothing : rest = [] := by
    have length := congrArg List.length split
    rw [List.length_append] at length
    exact List.length_eq_zero_iff.mp (by omega)
  subst nothing
  rw [List.append_nil] at split
  subst split
  have low : 0 ≤ fileSize ((view L d).inode n) := by
    rw [file.size]
    omega
  refine ⟨ordered, file.step.trans step, ?_, fun b => ?_, fun x allocated => ?_⟩
  · rw [size, content.grown_eq low (int64_lt _) (.inr fits), file.size, endOf_snoc]
    dsimp only
    omega
  · rw [touches_snoc, ← file.allocated b]
    constructor
    · intro set
      by_cases mine : buf ≠ [] ∧ offset / blockSize = b
      · exact .inr mine
      · left
        rwa [others b] at set
        by_cases empty : buf = []
        · exact .inl empty
        · exact .inr fun same => mine ⟨empty, same.symm⟩
    · rintro (before | ⟨some, rfl⟩)
      · rw [step.grows _ before]
        exact before
      · have length : 0 < buf.length := List.length_pos_iff.mpr some
        exact (content.inside offset le_rfl (by omega)).1
  · rw [contents_snoc]
    dsimp only
    by_cases inside : offset ≤ x ∧ x < offset + buf.length
    · rw [if_pos inside, (content.inside x inside.1 (by omega)).2, List.getD_eq_getElem _ _ (by omega)]
    · rw [if_neg inside]
      by_cases before : (view L d).Allocated L n x
      · rw [content.outside x (by omega) before, file.bytes x before]
      · rw [content.zero x (by omega) before allocated, contents_zero blocks]
        rwa [← file.allocated, ← Fs.Allocated]

/-- A sequence of writes. -/
theorem SparseFile.writes {d₀ : Disk} (file : SparseFile L n d₀ d ws) (new : NewFile L d₀ path n)
    (undisturbed : Undisturbed L d₀ path n) {more : List (ℕ × List UInt8)} (writes : Writes path d more d')
    (blocks : ∀ w ∈ ws ++ more, OneBlock w.1 w.2.length ∧ w.1 < 2 ^ 63) : SparseFile L n d₀ d' (ws ++ more) := by
  induction writes generalizing ws with
  | nil => rwa [List.append_nil]
  | @cons d mid d' env offset buf rest wrote _ ih =>
    have first := blocks (offset, buf) (by simp)
    have next := file.write new undisturbed (fun w member => (blocks w (List.mem_append_left _ member)).1) first.1 first.2
      (map_strcpyPath_eq_some.mp wrote).2
    rw [List.append_cons] at blocks ⊢
    exact ih next blocks

/-- Every read of the file returns the bytes that were written last, and zeros between them. -/
def Reads (d : Disk) (path : Name) (ws : List (ℕ × List UInt8)) : Prop :=
  ∀ env count offset, ∃ r, wfsRead env d path count offset = some r ∧ r.2 =
    (↑(min count (endOf ws - offset)), (List.range (min count (endOf ws - offset))).map fun j => contents ws (offset + j))

/-- The superblock has the number 48 at byte 16. -/
private theorem Super.byte16 (super : Super L d) : d 16 = 48 := by
  have word := super.iBitmapPtr_eq
  have first : d.le 16 8 = (d 16).toNat + 256 * d.le 17 7 := rfl
  have small := (d 16).toNat_lt
  have range := le_lt d 16 8
  rw [iBitmapPtr, long] at word
  have value : d.le 16 8 = 48 := by
    unfold int64 uint64 at word
    split_ifs at word <;> omega
  apply UInt8.toNat_inj.mp
  rw [show (48 : UInt8).toNat = 48 from rfl]
  omega

/-- A read of one byte in a block whose pointer is null reads the superblock. -/
private theorem Ordered.read_hole (ordered : Ordered L d) (found : (findInodeNumberByPath d path).2 = n)
    (holds : (view L d).Holds (fileRef n b)) (null : (view L d).target L (fileRef n b) = 0) (small : b < 71)
    (inside : blockSize * b + 16 < fileSize ((view L d).inode n)) (env : Env) :
    (Wfs.readPath env d path 1 (blockSize * b + 16)).2 = (1, [48]) := by
  have live : (view L d).ibit n = true := by
    rw [fileRef] at holds
    split_ifs at holds
    · exact holds.1
    · exact holds.1
  have known : (n : ℤ) ≠ -1 := by omega
  have pointer := (ordered.readPointer holds).trans null
  have effective : (if (blockSize * b + 16 : ℕ) ≥ fileSize ((view L d).inode n) then 0
      else (fileSize ((view L d).inode n) - (blockSize * b + 16 : ℕ)).toNat) =
      (fileSize ((view L d).inode n) - (blockSize * b + 16 : ℕ)).toNat := by
    rw [if_neg (by push_cast; omega)]
  have left : min 1 (fileSize ((view L d).inode n) - (blockSize * b + 16 : ℕ)).toNat = 1 := by
    push_cast
    omega
  have quotient : (blockSize * b + 16) / blockSize = b := by
    simp only [blockSize]
    omega
  have remainder : (blockSize * b + 16) % blockSize = 16 := by
    simp only [blockSize]
    omega
  have bytes : Wfs.readLoop d (L.inode n) 1 (int32 b) 16 1 = [48] := by
    rw [int32_eq (by omega) (by omega), Wfs.readLoop, if_neg Nat.one_ne_zero]
    dsimp only
    rw [pointer]
    simp only [Wfs.readLoop, List.append_nil, zero_add]
    rw [show min (blockSize - 16) 1 = 1 from rfl, load, load, Nat.cast_ofNat, ordered.super.byte16]
  simp only [Wfs.readPath, found, if_neg known, ordered.super.inodeAt_eq (view_ibit_lt live),
    long_sizeAt (view_ibit_lt live),
    effective, left, quotient, remainder, bytes]
  rfl

/-- For a new file in an image whose pointers are in order, at a path whose lookup reads nothing that writing to
the file may change, and every sequence of writes to it, each inside one block and of its full length: every read
returns the bytes written last, and zeros between them, if the path fits and every block that begins below the end
of the last write has been touched by a write; and for writes of some bytes only if that is so. -/
theorem sparse_reads_iff (ordered : Ordered L d) (new : NewFile L d path n) (undisturbed : Undisturbed L d path n)
    (writes : Writes path d ws d') (blocks : ∀ w ∈ ws, OneBlock w.1 w.2.length ∧ w.1 < 2 ^ 63) :
    ((path.length < tmpPath ∧ ∀ b, blockSize * b < endOf ws → Touches ws b) → Reads d' path ws) ∧
      ((∀ w ∈ ws, w.2 ≠ []) → Reads d' path ws →
        path.length < tmpPath ∧ ∀ b, blockSize * b < endOf ws → Touches ws b) := by
  have file := (new.sparse ordered).writes new undisturbed writes blocks
  rw [List.nil_append] at file
  obtain ⟨found, live, reg⟩ := file.found new undisturbed
  refine ⟨fun ⟨fits, touched⟩ env count offset => ⟨_, map_strcpyPath fits, ?_⟩, fun some reads =>
    ⟨?_, fun b inside => ?_⟩⟩
  · have left : min count (fileSize ((view L d').inode n) - offset).toNat = min count (endOf ws - offset) := by
      rw [file.size]
      omega
    have allocated (x : ℕ) (above : offset ≤ x) (below : x < offset + min count (endOf ws - offset)) :
        (view L d').Allocated L n x := by
      apply (file.allocated _).mpr
      apply touched
      simp only [blockSize]
      omega
    rw [file.ordered.readPath found live env (min count (endOf ws - offset)) left.symm allocated]
    congr 1
    apply List.map_congr_left
    intro j member
    have small := List.mem_range.mp member
    exact file.bytes _ (allocated _ (by omega) (by omega))
  · obtain ⟨_, read, _⟩ := reads ⟨0, 0, 0⟩ 0 0
    exact (map_strcpyPath_eq_some.mp read).1
  · by_contra hole
    obtain ⟨w, member, last⟩ := endOf_mem (Nat.zero_lt_of_lt inside)
    obtain ⟨one, _⟩ := blocks w member
    have mine : Touches ws (w.1 / blockSize) := ⟨w, member, some w member, rfl⟩
    have later : b < w.1 / blockSize := by
      have other : b ≠ w.1 / blockSize := by
        rintro rfl
        exact hole mine
      simp only [OneBlock, blockSize] at *
      omega
    have set := (file.allocated _).mpr mine
    have bound := (show (view L d').Allocated L n w.1 from set).block_lt
    have null : (view L d').target L (fileRef n b) = 0 := by
      by_contra set
      exact hole ((file.allocated b).mp set)
    have holds : (view L d').Holds (fileRef n b) := by
      by_cases direct : b < indBlock
      · exact holds_direct live direct
      · have entry := Fs.holds_of_target set
        rw [fileRef, if_neg (by omega)] at entry
        have split : b = indBlock + (b - indBlock) := by omega
        rw [split]
        exact holds_entry live reg entry.2.2.2 (by have := entry.2.2.1; omega)
    have wide : blockSize * b + 16 < endOf ws := by
      simp only [blockSize] at *
      omega
    obtain ⟨r, here, read⟩ := reads ⟨0, 0, 0⟩ 1 (blockSize * b + 16)
    obtain ⟨_, rfl⟩ := map_strcpyPath_eq_some.mp here
    rw [file.ordered.read_hole found holds null (by simp only [blockSize] at *; omega)
      (by rw [file.size]; exact_mod_cast wide),
      show min 1 (endOf ws - (blockSize * b + 16)) = 1 by omega] at read
    have zero : contents ws (blockSize * b + 16) = 0 := by
      apply contents_zero fun w member => (blocks w member).1
      rwa [show (blockSize * b + 16) / blockSize = b by simp only [blockSize]; omega]
    rw [show List.range 1 = [0] from rfl, List.map_cons, List.map_nil, Nat.add_zero, zero] at read
    exact absurd (Prod.mk.inj read).2 (by decide)

private theorem emptyFile_new : NewFile smallLayout (image emptyFile) [47, 97] 1 where
  found := by decide +kernel
  live := by decide +kernel
  reg := by decide +kernel
  size := by decide +kernel
  empty := by decide +kernel

/-- The first write to `/a` leaves no hole: what is before it reads as zero. -/
theorem sparse_reads_first : ∃ d', Writes [47, 97] (image emptyFile) [(510, [7, 8])] d' ∧
    Reads d' [47, 97] [(510, [7, 8])] := by
  have ret : (writePath ⟨5, 0, 0⟩ (image emptyFile) [47, 97] [7, 8] 510).2 = 2 := by decide +kernel
  have writes := Writes.cons (map_strcpyPath_eq_some.mpr ⟨by decide, Prod.ext rfl ret⟩)
    (.nil (writePath ⟨5, 0, 0⟩ (image emptyFile) [47, 97] [7, 8] 510).1)
  refine ⟨_, writes, ?_⟩
  refine (sparse_reads_iff emptyFile_wellFormed.ordered emptyFile_new emptyFile_undisturbed writes (by decide)).1
    ⟨by decide, ?_⟩
  intro b inside
  have size : endOf [(510, [7, 8])] = 512 := rfl
  obtain rfl : b = 0 := by
    simp only [size, blockSize] at inside
    omega
  exact ⟨_, List.mem_cons_self, by decide, rfl⟩

/-- A write to the second block of `/a`: byte 16, which no write covers, reads as 48. -/
theorem sparse_read_superblock : ∃ (L : Layout) (d d' : Disk) (path : Name) (n : ℕ) (ws : List (ℕ × List UInt8)),
    WellFormed L d ∧ NewFile L d path n ∧ Writes path d ws d' ∧ (∀ w ∈ ws, OneBlock w.1 w.2.length ∧ w.1 < 2 ^ 63) ∧
    16 < endOf ws ∧ contents ws 16 = 0 ∧ (wfsRead ⟨6, 0, 0⟩ d' path 1 16).map Prod.snd = some (1, [48]) := by
  have ret : (writePath ⟨5, 0, 0⟩ (image emptyFile) [47, 97] [7] 512).2 = 1 := by decide +kernel
  have read : (readPath ⟨6, 0, 0⟩ (writePath ⟨5, 0, 0⟩ (image emptyFile) [47, 97] [7] 512).1 [47, 97] 1 16).2 = (1,
    [48]) := by
    decide +kernel
  refine ⟨smallLayout, image emptyFile, _, [47, 97], 1, [(512, [7])], emptyFile_wellFormed, emptyFile_new,
    .cons (map_strcpyPath_eq_some.mpr ⟨by decide, Prod.ext rfl ret⟩) (.nil _), by decide, by decide, by decide, ?_⟩
  rw [wfsRead, map_strcpyPath (by decide)]
  exact congrArg some read

end Sequence

end Cs537.Wfs
