import Cs537.Wfs.Check

/-! # Reading back what was written

A write that needs at most one entry of the indirect block can be read back, and the rest of the file
reads as before. A longer one skips an entry for each that it fills, so what is read back is not what
was written.
-/

namespace Cs537.Wfs

open Lib Memory

variable {L : Layout} {d d' : Disk} {n : ℕ}

/-- The lookup of a path reads nothing that a write to the file may change. -/
def Undisturbed (L : Layout) (d : Disk) (path : Name) (n : ℕ) : Prop :=
  ∀ x, lookupReads d path x → ¬ Mutable L d n x

theorem grown_eq {size : ℤ} {fileEnd : ℕ} (low : 0 ≤ size) (high : size < 2 ^ 63) (small : fileEnd < 2 ^ 63) :
    grown size fileEnd = max size fileEnd := by
  have same := uint64_eq low (by omega : size < 2 ^ 64)
  rw [grown, int64_eq (by omega) (by omega)]
  split_ifs <;> omega

theorem Fs.Allocated.block_lt {fs : Fs} {x : ℕ} (allocated : fs.Allocated L n x) : x < 71 * blockSize := by
  have holds := Fs.holds_of_target allocated
  rw [fileRef] at holds
  split_ifs at holds with direct
  · simp only [indBlock, blockSize] at *
    omega
  · have := holds.2.2.1
    simp only [indBlock, entriesPerBlock, blockSize] at *
    omega

/-- A write that returned a count, seen in the view. -/
theorem Written.counted {buf : List UInt8} {offset r : ℕ} (written : Written L n d buf offset d' r)
    (one : OneEntry offset buf.length) :
    ∃ bytes rest, buf = bytes ++ rest ∧ r = bytes.length ∧ Wrote L n (view L d) (view L d') offset bytes ∧
      fileSize ((view L d').inode n) = grown (fileSize ((view L d).inode n)) (offset + bytes.length) := by
  obtain ⟨mid, bytes, rest, split, run, finished, content⟩ := written.run
  rcases finished.cases with ⟨failed, _⟩ | ⟨count, step⟩
  · rw [enospc] at failed
    omega
  · obtain ⟨page, view, same, _, size⟩ := step.page
    have kept : Wrote L n (Wfs.view L mid) (Wfs.view L d') (offset + bytes.length) [] := by
      rw [view]
      exact .nil (fun _ => target_setInode same _) (fun _ _ _ _ => rfl) run.ordered.pointers
    have whole := (content one).append kept run.step step.fileStep
    rw [List.append_nil] at whole
    have mine : (Wfs.view L d').inode n = page := by
      rw [view]
      exact Function.update_self ..
    exact ⟨bytes, rest, split, by exact_mod_cast count, whole, by rw [mine, size, run.size]⟩

/-- Bytes that are in the file grow its size to their end, or leave it. -/
theorem Wrote.grown_eq {fs fs' : Fs} {bytes : List UInt8} {offset : ℕ} (wrote : Wrote L n fs fs' offset bytes) {size : ℤ}
    (low : 0 ≤ size) (high : size < 2 ^ 63) (fits : bytes ≠ [] ∨ offset < 2 ^ 63) :
    grown size (offset + bytes.length) = max size (offset + bytes.length) := by
  have small : offset + bytes.length < 2 ^ 63 := by
    by_cases empty : bytes = []
    · have := fits.resolve_left (not_not.mpr empty)
      rw [empty, List.length_nil]
      omega
    · have length := List.length_pos_iff.mpr empty
      have last := (wrote.inside (offset + (bytes.length - 1)) (by omega) (by omega)).1.block_lt
      simp only [blockSize] at last
      omega
  rw [Wfs.grown_eq low high small]
  push_cast
  rfl

/-- A write that returned a positive count, seen in the view. -/
theorem Written.positive {buf : List UInt8} {offset r : ℕ} (written : Written L n d buf offset d' r)
    (one : OneEntry offset buf.length) (some : 0 < r) (low : 0 ≤ fileSize ((view L d).inode n)) :
    ∃ bytes rest, buf = bytes ++ rest ∧ r = bytes.length ∧ Wrote L n (view L d) (view L d') offset bytes ∧
      fileSize ((view L d').inode n) = max (fileSize ((view L d).inode n)) (offset + bytes.length) := by
  obtain ⟨bytes, rest, split, count, wrote, size⟩ := written.counted one
  refine ⟨bytes, rest, split, count, wrote, ?_⟩
  rw [size, wrote.grown_eq low (int64_lt _) (.inl (by rintro rfl; simp at count; omega))]

theorem Ordered.writePath (env : Env) (ordered : Ordered L d) {path : Name} (found : (findInodeNumberByPath d path).2 = n)
    (live : (view L d).ibit n = true) (reg : isReg ((view L d).inode n) = true) (buf : List UInt8) (offset : ℕ) :
    Written L n d buf offset (writePath env d path buf offset).1 (writePath env d path buf offset).2 := by
  have known : (n : ℤ) ≠ -1 := by omega
  simp only [Wfs.writePath, found, if_neg known, ordered.super.inodeAt_eq (view_ibit_lt live)]
  exact ordered.writeInode env live reg buf offset

/-- The times that are set without a modification. -/
private theorem updateInodeTimes_outside (d : Disk) (inode now : ℤ) {x : ℤ} (atim : x < atimAt inode ∨ atimAt inode + 8 ≤ x)
    (ctim : x < ctimAt inode ∨ ctimAt inode + 8 ≤ x) : updateInodeTimes d inode now false x = d x := by
  simp only [updateInodeTimes, Bool.false_eq_true, if_false, setLong]
  rw [store_outside (by simpa using ctim), store_outside (by simpa using atim)]

/-- In a well-formed image, a read of a regular file whose blocks below its size all have pointers returns
what is left of the file, at most as much as was asked for, byte by byte from the blocks that the pointers
lead to, and only the times of access and of change of the inode are set: exactly for the paths that fit. -/
theorem read_exact_iff (wf : WellFormed L d) {path : Name} (found : (findInodeNumberByPath d path).2 = n)
    (live : (view L d).ibit n = true)
    (allocated : ∀ x : ℕ, x < fileSize ((view L d).inode n) → (view L d).Allocated L n x) (env : Env) (count offset : ℕ) :
    (∃ r, wfsRead env d path count offset = some r ∧
      r.2 = (↑(min count (fileSize ((view L d).inode n) - offset).toNat),
        (List.range (min count (fileSize ((view L d).inode n) - offset).toNat)).map fun j =>
          (view L d).block (L.blockNo ((view L d).target L (fileRef n ((offset + j) / blockSize))))
          ((offset + j) % blockSize : ℕ)) ∧
      ∀ x, (x < atimAt (L.inode n) ∨ atimAt (L.inode n) + 8 ≤ x) → (x < ctimAt (L.inode n) ∨ ctimAt (L.inode n) + 8 ≤ x) →
        r.1 x = d x) ↔ path.length < tmpPath := by
  have known : (n : ℤ) ≠ -1 := by omega
  rw [wfsRead, exists_map_strcpyPath, and_iff_left]
  refine ⟨?_, ?_⟩
  · refine wf.ordered.readPath found live env _ rfl fun x above below => allocated x ?_
    omega
  · intro x atim ctim
    simp only [readPath, found, if_neg known, wf.super.inodeAt_eq (view_ibit_lt live)]
    exact updateInodeTimes_outside _ _ _ atim ctim

/-- An image with one file, `/a`, which is empty. -/
def emptyFile : List (ℤ × List UInt8) :=
  [(0, leBytes 8 32 ++ leBytes 8 32 ++ leBytes 8 48 ++ leBytes 8 52 ++ leBytes 8 56 ++ leBytes 8 16440),
    (48, leBytes 4 3), (52, leBytes 4 1),
    (60, leBytes 4 0o40777), (80, leBytes 4 2), (112, leBytes 8 16440),
    (568, leBytes 4 1), (572, leBytes 4 0o100644), (592, leBytes 4 1),
    (16440, [97]), (16468, leBytes 4 1)]

/-- The image is well formed; where the lookup of `/a` passes, and what the calls on the file find. -/
theorem emptyFile_words : WellFormed smallLayout (image emptyFile) ∧
    (inodeAt (image emptyFile) 0 = 56 ∧ (image emptyFile).long (blocksAt 56 0) = 16440 ∧
      ¬ (findDentry (image emptyFile) ((image emptyFile).long (blocksAt (inodeAt (image emptyFile) 0) 0)) [97]).1 ≤ 0 ∧
      strcmpEq (image emptyFile) (dentryAt 16440 0) [97] = true ∧
      (view smallLayout (image emptyFile)).target smallLayout (.ptr 0 0) = smallLayout.block 0 ∧
      (view smallLayout (image emptyFile)).dbit 0 = true) ∧
    (findInodeNumberByPath (image emptyFile) [47, 97]).2 = (1 : ℕ) ∧
    (view smallLayout (image emptyFile)).ibit 1 = true ∧ isReg ((view smallLayout (image emptyFile)).inode 1) = true ∧
    0 ≤ fileSize ((view smallLayout (image emptyFile)).inode 1) ∧
    (writePath ⟨5, 0, 0⟩ (image emptyFile) [47, 97] [1, 2, 3] 510).2 = 3 ∧
    (writePath ⟨5, 0, 0⟩ (image emptyFile) [47, 97] (List.replicate 1024 1) 3584).2 = 1024 ∧
    (readPath ⟨6, 0, 0⟩ (writePath ⟨5, 0, 0⟩ (image emptyFile) [47, 97] (List.replicate 1024 1) 3584).1 [47, 97]
      1024 3584).2.2[512]? ≠ some 1 :=
  ⟨wellFormed_image (by decide +kernel) (by decide +kernel) (by decide +kernel), by decide +kernel⟩

theorem emptyFile_wellFormed : WellFormed smallLayout (image emptyFile) := emptyFile_words.1

/-- The lookup of `/a` reads the table pointer, one pointer of the root and one entry. -/
private theorem emptyFile_lookup {x : ℤ} (reads : lookupReads (image emptyFile) [47, 97] x) :
    32 ≤ x ∧ x < 40 ∨ 112 ≤ x ∧ x < 120 ∨ 16440 ≤ x ∧ x < 16472 := by
  rcases reads with table | walk
  · exact .inl table
  · have path : tokens [47, 97] = [[97]] := by decide
    obtain ⟨root, block, hit, match_, _⟩ := emptyFile_words.2.1
    rw [path] at walk
    rcases walk with ⟨i, _, earlier, here⟩ | ⟨_, nothing⟩
    · have first : i = 0 := by
        by_contra later
        exact hit (earlier 0 (Nat.pos_of_ne_zero later))
      subst first
      rw [root] at here
      rcases here with pointer | ⟨j, _, misses, entry⟩
      · simp only [blocksAt] at pointer
        omega
      · rw [block] at misses entry
        have first : j = 0 := by
          by_contra later
          have missed := misses 0 (Nat.pos_of_ne_zero later)
          rw [match_] at missed
          cases missed
        subst first
        simp only [dentryReads, dentryAt, List.length_cons, List.length_nil] at entry
        omega
    · exact nothing.elim

theorem emptyFile_undisturbed : Undisturbed smallLayout (image emptyFile) [47, 97] 1 := by
  obtain ⟨_, _, _, _, root, used⟩ := emptyFile_words.2.1
  have inode : smallLayout.inode 1 = 568 := by decide
  have bitmap : smallLayout.dBitmap = 52 ∧ smallLayout.iTable = 56 := by decide
  have block (k : ℕ) : smallLayout.block k = 16440 + 512 * k := rfl
  intro x reads
  have where_ := emptyFile_lookup reads
  rintro (⟨low, high⟩ | ⟨low, high⟩ | ⟨k, inside, ⟨low, high⟩, owner⟩)
  · rw [inode] at low high
    omega
  · rw [bitmap.1] at low
    rw [bitmap.2] at high
    omega
  · rw [block] at low high
    obtain rfl : k = 0 := by omega
    rcases owner with free | ⟨r, owner, target⟩
    · rw [used] at free
      cases free
    · have same := emptyFile_wellFormed.unshared r (.ptr 0 0)
        (by rw [target]; exact Layout.block_ne_zero _ 0) (target.trans root.symm)
      rw [same] at owner
      cases owner

/-- An image with one file, `/a`, of three bytes. -/
def shortFile : List (ℤ × List UInt8) :=
  [(0, leBytes 8 32 ++ leBytes 8 32 ++ leBytes 8 48 ++ leBytes 8 52 ++ leBytes 8 56 ++ leBytes 8 16440),
    (48, leBytes 4 3), (52, leBytes 4 3),
    (60, leBytes 4 0o40777), (80, leBytes 4 2), (112, leBytes 8 16440),
    (568, leBytes 4 1), (572, leBytes 4 0o100644), (584, leBytes 8 3), (592, leBytes 4 1), (624, leBytes 8 16952),
    (16440, [97]), (16468, leBytes 4 1), (16952, [7, 8, 9])]

/-- The image is well formed, `/a` is found, and each of its bytes has a block. -/
private theorem shortFile_words : WellFormed smallLayout (image shortFile) ∧
    fileSize ((view smallLayout (image shortFile)).inode 1) = 3 ∧
    (findInodeNumberByPath (image shortFile) [47, 97]).2 = (1 : ℕ) ∧
    (view smallLayout (image shortFile)).ibit 1 = true ∧
    (∀ x ∈ List.range 3, (view smallLayout (image shortFile)).target smallLayout (fileRef 1 (x / blockSize)) ≠ 0) ∧
    ((List.range 2).map fun j => (view smallLayout (image shortFile)).block (smallLayout.blockNo
      ((view smallLayout (image shortFile)).target smallLayout (fileRef 1 ((1 + j) / blockSize))))
      ((1 + j) % blockSize : ℕ)) = [8, 9] :=
  ⟨wellFormed_image (by decide +kernel) (by decide +kernel) (by decide +kernel), by decide +kernel⟩

/-- A read from byte 1 on returns the two bytes that are left. -/
theorem read_exact_iff_tail : ∃ r, wfsRead ⟨6, 0, 0⟩ (image shortFile) [47, 97] 10 1 = some r ∧ r.2 = (2, [8, 9]) := by
  obtain ⟨wf, size, found, live, allocated, bytes⟩ := shortFile_words
  obtain ⟨r, read, out, _⟩ := (read_exact_iff wf found live
    (fun x below => allocated x (List.mem_range.mpr (by rw [size] at below; omega))) ⟨6, 0, 0⟩ 10 1).mpr (by decide)
  rw [size, show min 10 (3 - (1 : ℕ) : ℤ).toNat = 2 by decide] at out
  exact ⟨r, read, out.trans (Prod.ext rfl bytes)⟩

/-- An image with one directory and one empty file in it, both with names of 27 letters. -/
def deepFile : List (ℤ × List UInt8) :=
  [(0, leBytes 8 32 ++ leBytes 8 32 ++ leBytes 8 48 ++ leBytes 8 52 ++ leBytes 8 56 ++ leBytes 8 16440),
    (48, leBytes 4 7), (52, leBytes 4 3),
    (60, leBytes 4 0o40777), (80, leBytes 4 2), (112, leBytes 8 16440),
    (568, leBytes 4 1), (572, leBytes 4 0o40755), (592, leBytes 4 2), (624, leBytes 8 16952),
    (1080, leBytes 4 2), (1084, leBytes 4 0o100644), (1104, leBytes 4 1),
    (16440, List.replicate 27 100), (16468, leBytes 4 1), (16952, List.replicate 27 101), (16980, leBytes 4 2)]

/-- The path of that file does not fit into `tmp_path`. -/
theorem read_overruns : ∃ (L : Layout) (d : Disk) (path : Name) (n : ℕ), WellFormed L d ∧
    (findInodeNumberByPath d path).2 = n ∧ (view L d).ibit n = true ∧ isReg ((view L d).inode n) = true ∧
    (∀ x : ℕ, x < fileSize ((view L d).inode n) → (view L d).Allocated L n x) ∧ wfsRead ⟨6, 0, 0⟩ d path 10 0 = none := by
  have size : fileSize ((view smallLayout (image deepFile)).inode 2) = 0 := by decide +kernel
  refine ⟨smallLayout, image deepFile, 47 :: List.replicate 27 100 ++ 47 :: List.replicate 27 101, 2,
    wellFormed_image (by decide +kernel) (by decide +kernel) (by decide +kernel), by decide +kernel, by decide +kernel,
    by decide +kernel, fun x below => ?_, rfl⟩
  rw [size] at below
  omega

end Cs537.Wfs
