import Cs537.Wfs.Unlink

/-! # Orderly runs

Calls whose lookups are not misled, and that do not meet one of the defects of `wfs_rmdir`, `wfs_unlink` and the names,
keep an image intact and every file within its 71 blocks.
-/

namespace Cs537.Wfs

open Lib Memory

variable {L : Layout} {d d' : Disk} {path : Name} {env : Env} {n p : ℕ} {s : Slot} {addresses : List ℤ}

/-- An intact image with no file that is longer than its blocks can be. -/
structure Healthy (L : Layout) (d : Disk) : Prop extends Intact L d where
  sizes : ∀ n, (view L d).ibit n = true → isReg ((view L d).inode n) = true →
    0 ≤ fileSize ((view L d).inode n) ∧ fileSize ((view L d).inode n) ≤ maxSize

/-- A call is orderly if its lookup is not misled, and
* `mknod` and `mkdir` get a path whose directory exists and whose last component fits into an entry,
* `unlink` gets a file, of an image whose addresses are below 2^31,
* `rmdir` gets a directory that has an entry in use in its first block if it has one at all,
* `write` gets a file and something to write. -/
def Orderly (L : Layout) (d : Disk) : Call → Prop
  | .mknod _ path _ | .mkdir _ path _ => Walkable L d path ∧ parentOf d path ≠ -1 ∧ 0 ∉ path ∧
    (lastToken path).length ≤ 27
  | .unlink _ path => Walkable L d path ∧ L.size ≤ 2 ^ 31 ∧
      ∀ n : ℕ, (findInodeNumberByPath d path).2 = n → isReg ((view L d).inode n) = true
  | .rmdir _ path => Walkable L d path ∧ 0 ∉ path ∧ (lastToken path).length ≤ 27 ∧
      ∀ n : ℕ, (findInodeNumberByPath d path).2 = n → isDir ((view L d).inode n) = true ∧
        ((∃ i j, (view L d).LiveDentry L ⟨n, i, j⟩) → ∃ j, (view L d).LiveDentry L ⟨n, 0, j⟩)
  | .read _ path _ _ => Clear L d 0 (tokens path)
  | .write _ path buf _ => Clear L d 0 (tokens path) ∧ buf ≠ [] ∧
      ∀ n : ℕ, (findInodeNumberByPath d path).2 = n → isReg ((view L d).inode n) = true

section Start

/-- An image that `mkfs` has made has a root without entries, and no files. -/
theorem Made.healthy (made : Made L d) : Healthy L d := by
  have blank := made.blank
  have sound := made.sound
  have none (s : Slot) : ¬ (view L d).IsDentry s := by
    rintro ⟨live, _, small, _, set⟩
    rw [blank.ibit.mp live, blank.ptr_root (by simp only [indBlock] at small; omega)] at set
    exact set rfl
  obtain ⟨dir, count⟩ := made.root
  have entries : (view L d).liveCount L 0 = 0 := by
    rw [Fs.liveCount, Finset.card_eq_zero, Finset.filter_eq_empty_iff]
    exact fun ij _ used => none _ used.1
  refine ⟨⟨blank.ordered, ?_, sound.numbers, ?_⟩, ?_⟩
  · refine ⟨fun n _ => ?_, fun s _ used => (none s used.1).elim, fun s dentry => (none s dentry).elim, ?_,
      fun s _ used => (none s used.1).elim, ?_⟩
    · rw [blank.ibit]
      refine ⟨.inl, fun holds => holds.resolve_right ?_⟩
      rintro ⟨s, used, _⟩
      exact none s used.1
    · intro n live _ i j _ small set
      rw [blank.ibit.mp live, blank.ptr_root (by simp only [indBlock] at small; omega)] at set
      exact (set rfl).elim
    · intro n live _
      rw [blank.ibit.mp live, count, entries]
      rfl
  · intro n live file
    rw [blank.ibit.mp live, dir] at file
    cases file
  · intro n live reg
    have file := isDir_of_isReg reg
    rw [blank.ibit.mp live, dir] at file
    cases file

end Start

section Create

/-- The inodes after a call that creates a file, or fails to. -/
private theorem create_inodes (ordered : Ordered L d) (absent : Absent L d path p) (short : (lastToken path).length < 32)
    (type : ℕ) (env : Env) (mode : ℕ) {m : ℕ} (live : (view L (create type env d path mode).1).ibit m = true) :
    ((view L d).ibit m = true ∧
        fileMode ((view L (create type env d path mode).1).inode m) = fileMode ((view L d).inode m) ∧
        fileSize ((view L (create type env d path mode).1).inode m) = fileSize ((view L d).inode m) ∧
        (m ≠ p → links ((view L (create type env d path mode).1).inode m) = links ((view L d).inode m))) ∨
      fileSize ((view L (create type env d path mode).1).inode m) = 0 ∧
        links ((view L (create type env d path mode).1).inode m) = 1 := by
  rcases ordered.create absent type env mode with ⟨result, _⟩ | ⟨d₁, s, k, slot, here, ordered₁, grown, result⟩
  · rw [result] at live ⊢
    exact .inl ⟨live, rfl, rfl, fun _ => rfl⟩
  · have before : (view L d₁).ibit = (view L d).ibit ∧ fileMode ((view L d₁).inode m) = fileMode ((view L d).inode m) ∧
        fileSize ((view L d₁).inode m) = fileSize ((view L d).inode m) ∧
        links ((view L d₁).inode m) = links ((view L d).inode m) := by
      rcases grown with rfl | grown
      · exact ⟨rfl, rfl, rfl, rfl⟩
      · refine ⟨grown.ibit, ?_⟩
        rw [grown.view_eq]
        refine ⟨?_, fileSize_point m, links_point m⟩
        by_cases eq : m = s.n
        · rw [eq, point_inode_self, FileStep.point_mode]
        · rw [point_inode_of_ne eq]
    obtain ⟨ibit, sameMode, sameSize, sameLinks⟩ := before
    rw [result, ← here] at live ⊢
    rcases ordered₁.super.fillDentry env (mode ||| type) (view_ibit_lt slot.dentry.1) slot.inside slot.dentry.2.2.2.1
      short
      with ⟨_, failed⟩ | ⟨n, lowest, _, view_eq⟩
    · rw [failed] at live ⊢
      exact .inl ⟨by rw [← ibit]; exact live, sameMode, sameSize, fun _ => sameLinks⟩
    · obtain ⟨_, fresh, _⟩ := lowestClear_eq_some lowest
      have apart := slot.apart fresh
      rw [view_eq] at live ⊢
      rw [create_ibit fresh] at live
      by_cases new : m = n
      · subst new
        rw [create_inode_new apart, fileSize_newInode, links_newInode]
        exact .inr ⟨rfl, rfl⟩
      · rw [Function.update_of_ne new] at live
        refine .inl ⟨by rw [← ibit]; exact live, ?_, ?_, fun other => ?_⟩
        · rw [(slot.samePointers fresh (lastToken path) env (mode ||| type) new).mode, sameMode]
        · by_cases parent : m = s.n
          · subst parent
            rw [create_inode_parent apart, fileSize_bump, sameSize]
          · rw [create_inode_of_ne new parent, sameSize]
        · rw [create_inode_of_ne new other, sameLinks]

/-- Creating a file or a directory. -/
theorem Healthy.create (healthy : Healthy L d) (missing : Missing L d path p) (clean : 0 ∉ path)
    (short : (lastToken path).length ≤ 27) (type : ℕ) (env : Env) (mode : ℕ) :
    Healthy L (create type env d path mode).1 := by
  obtain ⟨ordered, tree, _⟩ := healthy.tree.create healthy.ordered missing clean short type env mode
  have sound : Sound L d := ⟨healthy.ordered, healthy.root, healthy.numbers⟩
  have after := sound.create missing.toAbsent (by omega) type env mode
  have inodes {m : ℕ} := create_inodes healthy.ordered missing.toAbsent (by omega) type env mode (m := m)
  refine ⟨⟨ordered, tree, after.numbers, fun m live file => ?_⟩, fun m live reg => ?_⟩
  · rcases inodes live with ⟨before, same, _, count⟩ | ⟨_, count⟩
    · rw [isDir, same] at file
      have other : m ≠ p := by
        rintro rfl
        have dir := missing.dir
        rw [isDir, file] at dir
        cases dir
      rw [count other]
      exact healthy.single m before file
    · exact count
  · rcases inodes live with ⟨before, same, size, _⟩ | ⟨size, _⟩
    · rw [isReg, same] at reg
      rw [size]
      exact healthy.sizes m before reg
    · rw [size]
      decide

end Create

section Steps

/-- A step that touches neither entries nor links. -/
theorem Healthy.sameTree (healthy : Healthy L d) (ordered : Ordered L d') (same : SameTree L (view L d) (view L d'))
    (links : ∀ m, links ((view L d').inode m) = links ((view L d).inode m))
    (reg : ∀ m, isReg ((view L d').inode m) = isReg ((view L d).inode m))
    (sizes : ∀ m, (view L d).ibit m = true → isReg ((view L d).inode m) = true →
      0 ≤ fileSize ((view L d').inode m) ∧ fileSize ((view L d').inode m) ≤ maxSize) : Healthy L d' := by
  have sound : Sound L d := ⟨healthy.ordered, healthy.root, healthy.numbers⟩
  refine ⟨⟨ordered, same.tree healthy.tree, (sound.sameTree ordered same).numbers, fun m live file => ?_⟩,
    fun m live file => ?_⟩
  · rw [same.ibit] at live
    rw [same.dir] at file
    rw [links]
    exact healthy.single m live file
  · rw [same.ibit] at live
    rw [reg] at file
    exact sizes m live file

/-- Writing to a file. -/
theorem Healthy.write (healthy : Healthy L d) (found : (findInodeNumberByPath d path).2 = n)
    (live : (view L d).ibit n = true) (reg : isReg ((view L d).inode n) = true) (env : Env) {buf : List UInt8}
    (some : buf ≠ []) (offset : ℕ) : Healthy L (writePath env d path buf offset).1 := by
  obtain ⟨step, ordered⟩ := (healthy.ordered.writePath env found live reg buf offset).fileStep
  refine healthy.sameTree ordered (step.sameTree healthy.ordered.pointers (isDir_of_isReg reg)) ?_ ?_ ?_
  · intro m
    by_cases mine : m = n
    · rw [mine, step.links]
    · rw [step.inode m mine]
  · intro m
    by_cases mine : m = n
    · rw [mine, isReg, isReg, step.mode]
    · rw [step.inode m mine]
  · intro m live' reg'
    by_cases mine : m = n
    · subst mine
      obtain ⟨low, high⟩ := healthy.sizes m live reg
      rcases writePath_size healthy.ordered found live reg low some env offset with ⟨_, same⟩ | ⟨r, _, _, _, fits, size⟩
      · rw [same]
        exact ⟨low, high⟩
      · rw [size]
        omega
    · rw [step.inode m mine]
      exact healthy.sizes m live' reg'

theorem Healthy.read (healthy : Healthy L d) (clear : Clear L d 0 (tokens path)) (env : Env) (size offset : ℕ) :
    Healthy L (readPath env d path size offset).1 := by
  rcases healthy.walk _ healthy.root clear 0 with missing | ⟨n, found, live⟩
  · have none : (findInodeNumberByPath d path).2 = -1 := missing
    simp only [readPath, none, if_true]
    exact healthy
  · have there : (findInodeNumberByPath d path).2 = n := found
    have known : (n : ℤ) ≠ -1 := by omega
    simp only [readPath, there, if_neg known, healthy.ordered.super.inodeAt_eq (view_ibit_lt live)]
    have times := updateInodeTimes_meta (d := d) (view_ibit_lt live) env.now false
    have step := times.fileStep
    have each {m : ℕ} : fileSize ((view L (updateInodeTimes d (L.inode n) env.now false)).inode m) =
        fileSize ((view L d).inode m) := by
      by_cases mine : m = n
      · rw [mine, times.size_eq]
      · rw [step.inode m mine]
    refine healthy.sameTree (times.ordered healthy.ordered) times.sameTree ?_ ?_ ?_
    · intro m
      by_cases mine : m = n
      · rw [mine, step.links]
      · rw [step.inode m mine]
    · intro m
      by_cases mine : m = n
      · rw [mine, isReg, isReg, step.mode]
      · rw [step.inode m mine]
    · intro m live' reg'
      rw [each]
      exact healthy.sizes m live' reg'

/-- A file or directory is removed. -/
theorem Healthy.removed (healthy : Healthy L d) (removed : Removed L (view L d) (view L d') s n addresses)
    (able : Removable L (view L d) s n addresses) : Healthy L d' := by
  refine ⟨removed.intact able healthy.toIntact, fun m live reg => ?_⟩
  obtain ⟨ne, before⟩ := removed.ibit_ne live
  rw [isReg, (removed.pointers m ne).mode] at reg
  rw [removed.size m ne]
  exact healthy.sizes m before reg

/-- An orderly call keeps an image healthy. -/
theorem Healthy.step (healthy : Healthy L d) {call : Call} (orderly : Orderly L d call) :
    Healthy L (call.onPath d).1 := by
  have made {path : Name} (walkable : Walkable L d path) (parent : parentOf d path ≠ -1) (clean : 0 ∉ path)
      (short : (lastToken path).length ≤ 27) (type : ℕ) (env : Env) (mode : ℕ) :
        Healthy L (Wfs.create type env d path mode).1 := by
    rcases healthy.lookup walkable with ⟨none, _⟩ | ⟨p, here, live, dir, _, lookup⟩
    · exact (parent none).elim
    · by_cases missing : searchDirectory d p (lastToken path) = -1
      · rw [missing] at lookup
        exact healthy.create ⟨⟨lookup, live, dir⟩, here⟩ clean short type env mode
      · simp only [Wfs.create, lookup, ne_eq, missing, not_false_eq_true, if_true]
        exact healthy
  have resolved {path : Name} (clear : Clear L d 0 (tokens path)) : (findInodeNumberByPath d path).2 = -1 ∨
      ∃ n : ℕ, (findInodeNumberByPath d path).2 = n ∧ (view L d).ibit n = true := healthy.walk _ healthy.root clear 0
  cases call with
  | mknod env path mode => exact made orderly.1 orderly.2.1 orderly.2.2.1 orderly.2.2.2 sIfreg env mode
  | mkdir env path mode => exact made orderly.1 orderly.2.1 orderly.2.2.1 orderly.2.2.2 sIfdir env mode
  | unlink env path =>
    obtain ⟨walkable, low, file⟩ := orderly
    rcases resolved walkable.clear with none | ⟨n, found, live⟩
    · simp only [Call.onPath, unlinkPath, none, if_true]
      exact healthy
    · have reg := file n found
      obtain ⟨positive, bounded⟩ := healthy.sizes n live reg
      obtain ⟨s, able, removed⟩ := healthy.unlink walkable found reg low positive bounded env
      exact healthy.removed removed able
  | rmdir env path =>
    obtain ⟨walkable, clean, short, condition⟩ := orderly
    rcases resolved walkable.clear with none | ⟨n, found, live⟩
    · simp only [Call.onPath, rmdirPath, none, if_true]
      exact healthy
    · obtain ⟨dir, first⟩ := condition n found
      rcases healthy.rmdir walkable clean (by omega) found dir first env with same | ⟨s, able, removed⟩
      · rw [Call.onPath, same]
        exact healthy
      · exact healthy.removed removed able
  | read env path size offset => exact healthy.read orderly env size offset
  | write env path buf offset =>
    obtain ⟨clear, some, file⟩ := orderly
    rcases resolved clear with none | ⟨n, found, live⟩
    · simp only [Call.onPath, writePath, none, if_true]
      exact healthy
    · exact healthy.write found live (file n found) env some offset

/-- What holds in every state of an orderly run. -/
theorem Healthy.run {init : Disk → Prop} (start : ∀ s, init s → Healthy L s)
    (reached : (fileSystem init).ReachableBy (Orderly L) d) : Healthy L d := by
  have kept (s : Disk) (call : Call) (t : Disk) (orderly : Orderly L s call)
    (step : (fileSystem init).step s call = some t)
      (healthy : Healthy L s) : Healthy L t := by
    obtain ⟨_, rfl⟩ := fileSystem_step.mp step
    exact healthy.step orderly
  exact reached.invariant start kept

end Steps

section Sizes

/-- What a write returns and does to the size of the file. -/
def SizeKept (L : Layout) (n : ℕ) (buf : List UInt8) (offset : ℕ) (d d' : Disk) (ret : ℤ) : Prop :=
  (ret = -enospc ∧ fileSize ((view L d').inode n) = fileSize ((view L d).inode n)) ∨
    ∃ r : ℕ, ret = r ∧ 0 < r ∧ r ≤ buf.length ∧ offset + r ≤ maxSize ∧
      fileSize ((view L d').inode n) = max (fileSize ((view L d).inode n)) (offset + r)

/-- The rounds in which `wfs_read` copies from inode `n`. -/
def readBlocks (d : Disk) (n size offset : ℕ) : List (ℤ × ℕ × ℕ) :=
  let inode := inodeAt d n
  let effective := if (offset : ℤ) ≥ d.long (sizeAt inode) then 0 else (d.long (sizeAt inode) - offset).toNat
  let left := min size effective
  readRounds left (int32 (offset / blockSize : ℕ)) (offset % blockSize) left

theorem readPath_rounds (found : (findInodeNumberByPath d path).2 = n) (env : Env) (size offset : ℕ) :
    (readPath env d path size offset).2.2 = (readBlocks d n size offset).flatMap
      fun round => d.load (readPointer d (inodeAt d n) round.1 + round.2.1) round.2.2 := by
  have known : (n : ℤ) ≠ -1 := by omega
  simp only [readPath, found, if_neg known, readLoop_eq, readBlocks]

/-- A read of a file of at most 71 blocks stays within the entries of the indirect block. -/
theorem Healthy.readBlocks (healthy : Healthy L d) (live : (view L d).ibit n = true)
    (reg : isReg ((view L d).inode n) = true) (size offset : ℕ) :
    ∀ round ∈ readBlocks d n size offset, 0 ≤ round.1 ∧ round.1 < (indBlock + entriesPerBlock : ℕ) := by
  obtain ⟨low, high⟩ := healthy.sizes n live reg
  have fits := view_ibit_lt live
  simp only [Wfs.readBlocks, healthy.ordered.super.inodeAt_eq fits, long_sizeAt fits]
  simp only [maxSize] at high
  split_ifs with past
  · rw [Nat.min_zero]
    rintro round ⟨⟩
  · have position := Nat.div_add_mod offset blockSize
    have within := Nat.mod_lt offset (show 0 < blockSize by decide)
    generalize offset / blockSize = block at *
    generalize offset % blockSize = blockOffset at *
    have bound : block < indBlock + entriesPerBlock := by
      simp only [blockSize, indBlock, entriesPerBlock] at high position ⊢
      omega
    have narrow : int32 (block : ℤ) = block := by
      simp only [indBlock, entriesPerBlock] at bound
      exact int32_eq (by omega) (by omega)
    rw [narrow]
    intro round member
    obtain ⟨above, below⟩ := readRounds_inside _ _ _ _ (indBlock + entriesPerBlock) within (by
      simp only [blockSize, indBlock, entriesPerBlock] at high position ⊢
      omega) round member
    exact ⟨by omega, below⟩

/-- In every well-formed image, by a path that fits: writing some bytes to a file of a size between 0 and 71 blocks fails
and leaves the size, or ends below block 71 and lets the file grow to there. In every orderly run from a healthy image by
paths that fit no file gets longer than 71 blocks, and no read leaves the entries of an indirect block. -/
theorem sizes_bounded (L : Layout) :
    (∀ d path n, WellFormed L d → path.length < tmpPath → (findInodeNumberByPath d path).2 = (n : ℕ) →
      (view L d).ibit n = true → isReg ((view L d).inode n) = true → 0 ≤ fileSize ((view L d).inode n) →
      fileSize ((view L d).inode n) ≤ maxSize → ∀ env buf offset, buf ≠ [] →
        ∃ r, wfsWrite env d path buf offset = some r ∧ SizeKept L n buf offset d r.1 r.2) ∧
    ∀ d, (fileSystem (Healthy L)).ReachableBy (fun d call => Orderly L d call ∧ call.path.length < tmpPath) d →
      ∀ n, (view L d).ibit n = true → isReg ((view L d).inode n) = true → fileSize ((view L d).inode n) ≤ maxSize ∧
        ∀ size offset, ∀ round ∈ readBlocks d n size offset, 0 ≤ round.1 ∧
        round.1 < (indBlock + entriesPerBlock : ℕ) := by
  refine ⟨?_, ?_⟩
  · intro d path n wf fits found live reg low _ env buf offset some
    exact ⟨_, map_strcpyPath fits, writePath_size wf.ordered found live reg low some env offset⟩
  · intro d reached n live reg
    have healthy := Healthy.run (fun _ healthy => healthy) (reached.weaken fun _ _ ok => ok.1)
    exact ⟨(healthy.sizes n live reg).2, healthy.readBlocks live reg⟩

/-- `/a` is created on a new image. -/
theorem orderly_created : Orderly smallLayout freshDisk (.mknod ⟨5, 0, 0⟩ [47, 97] 0o644) := by
  refine ⟨⟨⟨by decide +kernel, ?_, fun _ _ => trivial⟩, by decide⟩, by decide +kernel, by decide, by decide⟩
  have all : ∀ i ∈ List.range indBlock, ∀ j ∈ List.range 32,
      strcmpEq freshDisk (dentryAt (ptr ((view smallLayout freshDisk).inode 0) i) j) [97] = true →
        (view smallLayout freshDisk).LiveDentry smallLayout ⟨0, i, j⟩ := by decide +kernel
  exact fun i small j inside => all i (List.mem_range.mpr small) j (List.mem_range.mpr inside)

/-- The size of the new file. -/
theorem sizes_bounded_created : ∃ d, (fileSystem (Healthy smallLayout)).Reachable d ∧
    (view smallLayout d).ibit 1 = true ∧ fileSize ((view smallLayout d).inode 1) ≤ maxSize := by
  have start : (fileSystem (Healthy smallLayout)).ReachableBy
      (fun d call => Orderly smallLayout d call ∧ call.path.length < tmpPath) freshDisk := .initial freshDisk_made.healthy
  have reached := start.step ⟨orderly_created, by decide⟩ (fileSystem_step.mpr ⟨by decide, rfl⟩)
  exact ⟨_, reached.weaken fun _ _ _ => trivial, by decide +kernel,
    ((sizes_bounded smallLayout).2 _ reached 1 (by decide +kernel) (by decide +kernel)).1⟩

/-- The file `x` has its block right behind the block of the root; what it holds looks like an entry `y`,
whose number leads to the block itself, and like an inode whose first block is the slot of the file `z`. -/
def looksLikeInode : List (ℤ × List UInt8) :=
  [(0, leBytes 8 32 ++ leBytes 8 32 ++ leBytes 8 48 ++ leBytes 8 52 ++ leBytes 8 56 ++ leBytes 8 16440),
    (48, leBytes 4 7), (52, leBytes 4 3),
    (60, leBytes 4 0o40777), (80, leBytes 4 3), (112, leBytes 8 16440),
    (568, leBytes 4 1), (572, leBytes 4 0o100644), (584, leBytes 8 512), (592, leBytes 4 1), (624, leBytes 8 16952),
    (1080, leBytes 4 2), (1084, leBytes 4 0o100644), (1104, leBytes 4 1),
    (16440, [120]), (16468, leBytes 4 1), (16472, [122]), (16500, leBytes 4 2),
    (16956, leBytes 4 0o100644), (16976, leBytes 4 1), (17008, leBytes 8 1080), (17080, [121]), (17108, leBytes 4 33)]

/-- Writing to `/y` sets the size of `z` to a million. -/
theorem size_past_blocks : ∃ (L : Layout) (d d' : Disk) (call : Call) (n : ℕ), WellFormed L d ∧
    (∀ m, (view L d).ibit m = true → 0 ≤ fileSize ((view L d).inode m) ∧ fileSize ((view L d).inode m) ≤ maxSize) ∧
    (fileSystem (· = d)).Path (fun _ _ => True) d [call] d' ∧ (view L d').ibit n = true ∧
    isReg ((view L d').inode n) = true ∧ fileSize ((view L d').inode n) > maxSize ∧
    ∃ round ∈ readBlocks d' n 1 40000, round.1 ≥ (indBlock + entriesPerBlock : ℕ) := by
  refine ⟨smallLayout, image looksLikeInode, _, .write ⟨0, 0, 0⟩ [47, 121] (leBytes 8 1000000) 16, 2,
    wellFormed_image (by decide +kernel) (by decide +kernel) (by decide +kernel), ?_,
    .cons trivial (fileSystem_step.mpr ⟨by decide, rfl⟩) (.nil _), by decide +kernel, by decide +kernel,
      by decide +kernel, by decide +kernel⟩
  have all : ∀ m ∈ List.range smallLayout.inodes, 0 ≤ fileSize ((view smallLayout (image looksLikeInode)).inode m) ∧
      fileSize ((view smallLayout (image looksLikeInode)).inode m) ≤ maxSize := by decide +kernel
  exact fun m live => all m (List.mem_range.mpr (view_ibit_lt live))

end Sizes

end Cs537.Wfs
