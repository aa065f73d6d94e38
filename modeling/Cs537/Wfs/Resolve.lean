import Cs537.Wfs.FileSystem
import Cs537.Wfs.Creation

/-! # Where a lookup ends

A search looks at 32 entries from each of the seven addresses in the inode, wherever they are: at more than
the block has, at the start of the image for a null pointer, and at the data of a file. As long as it takes
nothing for an entry that is none, it ends at a live inode.
-/

namespace Cs537.Wfs

open Lib Memory

variable {L : Layout} {d d' : Disk} {fs : Fs} {name path : Name} {n p : ℕ} {s : Slot}

/-- Among the places that are searched for the components of the path, only entries of the directories have
one of these names and a positive number. -/
def Quiet (L : Layout) (d : Disk) (path : Name) : Prop :=
  ∀ name ∈ tokens path, ∀ n, (view L d).ibit n = true → ∀ i < indBlock, ∀ j < 32,
    strcmpEq d (dentryAt (ptr ((view L d).inode n) i) j) name = true →
      0 < d.int (numAt (dentryAt (ptr ((view L d).inode n) i) j)) → (view L d).IsDentry ⟨n, i, j⟩

/-- Every entry in use names a live inode. -/
structure Sound (L : Layout) (d : Disk) : Prop where
  ordered : Ordered L d
  root : (view L d).ibit 0 = true
  numbers : ∀ s, (view L d).LiveDentry L s → ∃ m : ℕ, (view L d).num L s = m ∧ (view L d).ibit m = true

/-- A search in a live directory gives -1 or the number of one of its entries in use. -/
theorem Quiet.search (quiet : Quiet L d path) (ordered : Ordered L d) (live : (view L d).ibit n = true)
    (member : name ∈ tokens path) : searchDirectory d n name = -1 ∨
      ∃ s, (view L d).LiveDentry L s ∧ s.n = n ∧ searchDirectory d n name = (view L d).num L s := by
  rcases searchDirectory_cases d n name with ⟨missing, _⟩ | ⟨i, small, _, positive, result⟩
  · exact .inl missing
  · right
    rw [ordered.searched live small] at positive result
    rcases findDentry_cases d (ptr ((view L d).inode n) i) name with ⟨_, negative, _⟩ | ⟨j, inside, here, _, found⟩
    · omega
    · rw [found] at positive result
      have dentry := quiet name member n live i small j inside here positive
      have number := ordered.number dentry
      dsimp only at number positive result
      rw [number] at positive result
      exact ⟨⟨n, i, j⟩, ⟨dentry, positive⟩, rfl, result⟩

/-- The walk goes through live inodes. -/
theorem Sound.walk (sound : Sound L d) (quiet : Quiet L d path) (rest : List Name)
    (part : ∀ name ∈ rest, name ∈ tokens path)
    {prev curr : ℕ} (live : (view L d).ibit prev = true) (live' : (view L d).ibit curr = true) :
    (∃ p : ℕ, (walk d prev curr rest).1 = p ∧ (view L d).ibit p = true) ∧
      ((walk d prev curr rest).2 = -1 ∨ ∃ n : ℕ, (walk d prev curr rest).2 = n ∧ (view L d).ibit n = true) := by
  induction rest generalizing prev curr with
  | nil => exact ⟨⟨prev, rfl, live⟩, .inr ⟨curr, rfl, live'⟩⟩
  | cons name rest ih =>
    rw [Wfs.walk]
    split_ifs with missing
    · exact ⟨⟨curr, rfl, live'⟩, .inl rfl⟩
    · rcases quiet.search sound.ordered live' (part name List.mem_cons_self) with none | ⟨s, used, _, result⟩
      · exact (missing none).elim
      · obtain ⟨m, number, alive⟩ := sound.numbers s used
        rw [result, number]
        exact ih (fun name member => part name (List.mem_cons_of_mem _ member)) live' alive

theorem Sound.lookup (sound : Sound L d) (quiet : Quiet L d path) :
    (∃ p : ℕ, (findInodeNumberByPath d path).1 = p ∧ (view L d).ibit p = true) ∧
      ((findInodeNumberByPath d path).2 = -1 ∨
        ∃ n : ℕ, (findInodeNumberByPath d path).2 = n ∧ (view L d).ibit n = true) :=
  sound.walk quiet (tokens path) (fun _ member => member) sound.root sound.root

section Steps

/-- A step that leaves the entries alone. -/
theorem Sound.sameTree (sound : Sound L d) (ordered : Ordered L d') (same : SameTree L (view L d) (view L d')) :
    Sound L d' := by
  refine ⟨ordered, by rw [same.ibit]; exact sound.root, fun s used => ?_⟩
  rw [same.liveDentry] at used
  obtain ⟨m, number, alive⟩ := sound.numbers s used
  exact ⟨m, by rw [same.num used.1, number], by rw [same.ibit]; exact alive⟩

/-- A directory gets a block. -/
theorem Sound.grown {d₁ : Disk} {k : ℕ} (sound : Sound L d) (ordered : Ordered L d₁) (grown : Grown L d d₁ s k) :
    Sound L d₁ := by
  obtain ⟨inside, free, _⟩ := lowestClear_eq_some grown.lowest
  refine ⟨ordered, by rw [grown.ibit]; exact sound.root, fun s' used => ?_⟩
  obtain ⟨dentry, positive⟩ := used
  rw [grown.view_eq] at dentry
  rcases isDentry_of_point inside dentry with before | ⟨_, _, page⟩
  · have same : (view L d₁).num L s' = (view L d).num L s' := by
      rw [grown.view_eq, Fs.num, Fs.num, (before.point grown.null).2]
    rw [same] at positive ⊢
    rw [grown.ibit]
    exact sound.numbers s' ⟨before, positive⟩
  · rw [grown.view_eq, Fs.num, page, sound.ordered.pointers.zero k inside free, dentryNum_zero] at positive
    exact absurd positive (lt_irrefl _)

/-- A call that creates a file, or fails to. -/
theorem Sound.create (sound : Sound L d) (absent : Absent L d path p) (short : (lastToken path).length < 32) (type : ℕ)
    (env : Env) (mode : ℕ) : Sound L (create type env d path mode).1 := by
  rcases sound.ordered.create absent type env mode with ⟨result, _⟩ | ⟨d₁, s, k, slot, here, ordered, grown, result⟩
  · rw [result]
    exact sound
  · have sound₁ : Sound L d₁ := by
      rcases grown with rfl | grown
      · exact sound
      · exact sound.grown ordered grown
    rw [result, ← here]
    rcases ordered.super.fillDentry env (mode ||| type) (view_ibit_lt slot.dentry.1) slot.inside
      slot.dentry.2.2.2.1 short with
      ⟨_, failed⟩ | ⟨n, lowest, _, view_eq⟩
    · rw [failed]
      exact sound₁
    · obtain ⟨fits, fresh, _⟩ := lowestClear_eq_some lowest
      have step := slot.entryStep fresh (lastToken path) env (mode ||| type) ordered.pointers short
      have pointers := slot.pointers_create fresh (lastToken path) env (mode ||| type) ordered.pointers
      have number := slot.num_create fresh (lastToken path) env (mode ||| type) fits
      have ibit : ((view L d₁).create s.n k s.j (lastToken path) n (inodeBytes env n (mode ||| type))).ibit =
        Function.update (view L d₁).ibit n true := create_ibit fresh
      generalize Wfs.fillDentry env (mode ||| type) (lastToken path) (L.inode s.n) (dentryAt (L.block k) s.j) d₁ = out
        at *
      have head : (view L out.1).head = (view L d₁).head := by rw [view_eq]; rfl
      rw [← view_eq] at step pointers number ibit
      have alive {m : ℕ} (before : (view L d₁).ibit m = true) : (view L out.1).ibit m = true := by
        rw [ibit]
        by_cases eq : m = n
        · rw [eq, Function.update_self]
        · rw [Function.update_of_ne eq]
          exact before
      refine ⟨⟨ordered.super.of_head head, pointers⟩, alive sound₁.root, fun s' used => ?_⟩
      by_cases new : s' = s
      · exact ⟨n, by rw [new, number], by rw [ibit, Function.update_self]⟩
      · obtain ⟨m, before, live⟩ := sound₁.numbers s' ((step.live new).mp used)
        exact ⟨m, by rw [step.num s' used.1 new, before], alive live⟩

end Steps

section Runs

/-- A call that creates a file in a directory, by a name that stays within its entry, or that writes to a
regular file, and whose path fits into `tmp_path` and is looked up within the directories. -/
def Polite (L : Layout) (d : Disk) : Call → Prop
  | .mknod _ path _ | .mkdir _ path _ => path.length < tmpPath ∧ Quiet L d path ∧ (lastToken path).length ≤ 31 ∧
      ∀ p : ℕ, findInodeNumberByPath d path = (↑p, -1) → isDir ((view L d).inode p) = true
  | .write _ path _ _ => path.length < tmpPath ∧ Quiet L d path ∧
      ∀ n : ℕ, (findInodeNumberByPath d path).2 = n → isReg ((view L d).inode n) = true
  | .read _ path _ _ => path.length < tmpPath ∧ Quiet L d path
  | .unlink .. | .rmdir .. => False

/-- An image that `mkfs` has made has no entries. -/
theorem Made.sound (made : Made L d) : Sound L d := by
  have blank := made.blank
  refine ⟨blank.ordered, blank.ibit.mpr rfl, ?_⟩
  rintro s ⟨⟨live, _, small, _, set⟩, _⟩
  rw [blank.ibit.mp live, blank.ptr_root (by simp only [indBlock] at small; omega)] at set
  exact (set rfl).elim

private theorem Sound.createStep (sound : Sound L d) (quiet : Quiet L d path) (short : (lastToken path).length ≤ 31)
    (dir : ∀ p : ℕ, findInodeNumberByPath d path = (↑p, -1) → isDir ((view L d).inode p) = true) (type : ℕ) (env : Env)
    (mode : ℕ) : Sound L (Wfs.create type env d path mode).1 := by
  obtain ⟨⟨p, parent, live⟩, _⟩ := sound.lookup quiet
  by_cases missing : (findInodeNumberByPath d path).2 = -1
  · have lookup : findInodeNumberByPath d path = (↑p, -1) := Prod.ext parent missing
    exact sound.create ⟨lookup, live, dir p lookup⟩ (by omega) type env mode
  · simp only [Wfs.create, ne_eq, missing, not_false_eq_true, if_true]
    exact sound

/-- A polite call keeps every entry in use at a live inode. -/
theorem Sound.step (sound : Sound L d) {call : Call} (polite : Polite L d call) : Sound L (call.onPath d).1 := by
  cases call with
  | mknod env path mode => exact sound.createStep polite.2.1 polite.2.2.1 polite.2.2.2 sIfreg env mode
  | mkdir env path mode => exact sound.createStep polite.2.1 polite.2.2.1 polite.2.2.2 sIfdir env mode
  | unlink env path => exact polite.elim
  | rmdir env path => exact polite.elim
  | read env path size offset =>
    simp only [Call.onPath, readPath]
    rcases (sound.lookup polite.2).2 with missing | ⟨n, found, live⟩
    · rw [if_pos missing]
      exact sound
    · have known : (n : ℤ) ≠ -1 := by omega
      rw [if_neg (by rw [found]; exact known), found, sound.ordered.super.inodeAt_eq (view_ibit_lt live)]
      have times := updateInodeTimes_meta (d := d) (view_ibit_lt live) env.now false
      exact sound.sameTree (times.ordered sound.ordered) times.sameTree
  | write env path buf offset =>
    obtain ⟨_, quiet, reg⟩ := polite
    rcases (sound.lookup quiet).2 with missing | ⟨n, found, live⟩
    · simp only [Call.onPath, writePath, missing, if_true]
      exact sound
    · have file := reg n found
      obtain ⟨step, ordered⟩ := (sound.ordered.writePath env found live file buf offset).fileStep
      exact sound.sameTree ordered (step.sameTree sound.ordered.pointers (isDir_of_isReg file))

/-- From an image that `mkfs` has made, through calls that create files in directories, by names that stay
within their entries, and write to regular files, all by paths that fit: a lookup gives -1 or the number of
an inode whose bit is set, as long as neither it nor the lookups before it take for an entry what is
none. -/
theorem lookup_live (reached : (fileSystem (Made L)).ReachableBy (Polite L) d) (quiet : Quiet L d path) :
    (findInodeNumberByPath d path).2 = -1 ∨ ∃ n : ℕ, (findInodeNumberByPath d path).2 = n ∧ n < numInodes d ∧
      bit d (iBitmapPtr d) n = true := by
  have start (s : Disk) (made : Made L s) : Sound L s := made.sound
  have kept (s : Disk) (call : Call) (t : Disk) (polite : Polite L s call)
      (step : (fileSystem (Made L)).step s call = some t) (sound : Sound L s) : Sound L t := by
    obtain ⟨_, rfl⟩ := fileSystem_step.mp step
    exact sound.step polite
  have sound : Sound L d := reached.invariant start kept
  rcases (sound.lookup quiet).2 with missing | ⟨n, found, live⟩
  · exact .inl missing
  · refine .inr ⟨n, found, ?_, ?_⟩
    · rw [sound.ordered.super.numInodes_eq]
      exact view_ibit_lt live
    · rw [sound.ordered.super.iBitmapPtr_eq]
      simp only [view, Bool.and_eq_true] at live
      exact live.2

theorem freshDisk_made : Made smallLayout freshDisk :=
  ⟨_, _, _, _, _, freshDisk_mkfs, by decide, by decide, by decide, by decide +kernel, by decide +kernel⟩

/-- What a lookup looks at, as a list. -/
theorem quiet_of_forall (all : ∀ name ∈ tokens path, ∀ n ∈ List.range L.inodes, (view L d).ibit n = true →
    ∀ i ∈ List.range indBlock, ∀ j ∈ List.range 32,
    strcmpEq d (dentryAt (ptr ((view L d).inode n) i) j) name = true →
      0 < d.int (numAt (dentryAt (ptr ((view L d).inode n) i) j)) → (view L d).IsDentry ⟨n, i, j⟩) : Quiet L d path := by
  intro name member n live i small j inside
  exact all name member n (List.mem_range.mpr (view_ibit_lt live)) live i (List.mem_range.mpr small) j
    (List.mem_range.mpr inside)

/-- `/a` is created on a new image and looked up. -/
theorem lookup_live_created : ∃ d n, (fileSystem (Made smallLayout)).ReachableBy (Polite smallLayout) d ∧
    (findInodeNumberByPath d [47, 97]).2 = (n : ℕ) ∧ bit d (iBitmapPtr d) n = true := by
  have start : (fileSystem (Made smallLayout)).ReachableBy (Polite smallLayout) freshDisk := .initial freshDisk_made
  have polite : Polite smallLayout freshDisk (.mknod ⟨5, 0, 0⟩ [47, 97] 0o644) := by
    refine ⟨by decide, quiet_of_forall (by decide +kernel), by decide, fun p lookup => ?_⟩
    have root : findInodeNumberByPath freshDisk [47, 97] = (0, -1) := by decide +kernel
    rw [root, Prod.mk.injEq] at lookup
    obtain rfl : p = 0 := by omega
    decide +kernel
  have reached := start.step polite (fileSystem_step.mpr ⟨by decide, rfl⟩)
  have quiet : Quiet smallLayout (create sIfreg ⟨5, 0, 0⟩ freshDisk [47, 97] 0o644).1 [47, 97] :=
    quiet_of_forall (by decide +kernel)
  rcases lookup_live reached quiet with missing | ⟨n, found, _, set⟩
  · exact absurd missing (by decide +kernel)
  · exact ⟨_, n, reached, found, set⟩

/-- On a new image `/8` is found: the root has no blocks, so the superblock is read in their place, and the
pointer to the inode table is the digit. -/
theorem lookup_superblock : Made smallLayout freshDisk ∧ (findInodeNumberByPath freshDisk [47, 56]).2 = 16895 ∧
    numInodes freshDisk = 32 :=
  ⟨freshDisk_made, by decide +kernel, by decide +kernel⟩

end Runs

end Cs537.Wfs
