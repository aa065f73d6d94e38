import Cs537.Wfs.FileSystem
import Cs537.Wfs.Creation

/-! # Calls that keep the image well formed

Pointers, bitmaps, entries and links agree, and creating, writing and reading keep them so, whether the call
comes through or fails. The code relies on more than the agreement itself: an unused entry with a name would
hide an entry behind it, and of two entries with one number a free inode would get a third.
-/

namespace Cs537.Wfs

open Lib Memory

variable {L : Layout} {d d' d₁ : Disk} {fs fs' : Fs} {name path : Name} {env : Env}
  {n p k i mode type offset : ℕ} {s : Slot}
  {buf : List UInt8}

/-- A well-formed image in which the links of a directory count its entries in use, unused entries are empty, and no
two entries in use have one number. -/
structure Consistent (L : Layout) (d : Disk) : Prop extends WellFormed L d where
  counted : ∀ n, (view L d).ibit n = true → isDir ((view L d).inode n) = true →
    links ((view L d).inode n) = 1 + (view L d).liveCount L n
  blank : ∀ s, (view L d).IsDentry s → 0 < (view L d).num L s ∨ (view L d).num L s = 0 ∧ (view L d).name L s = []
  unique : ∀ s s', (view L d).LiveDentry L s → (view L d).LiveDentry L s' →
    (view L d).num L s = (view L d).num L s' → s = s'

/-- Every block in use has a pointer to it. -/
def Exact (L : Layout) (fs : Fs) : Prop := ∀ k < L.blocks, fs.dbit k = true → ∃ r, fs.target L r = L.block k

theorem Consistent.tree (consistent : Consistent L d) : Tree L (view L d) where
  ibit_iff n inside := by
    rw [consistent.ibit_iff n inside]
    refine or_congr_right ⟨?_, ?_⟩
    · rintro ⟨s, holds, _⟩
      exact ⟨s, holds⟩
    · rintro ⟨s, used, number⟩
      exact ⟨s, ⟨used, number⟩, fun s' ⟨used', number'⟩ => consistent.unique s' s used' used (number'.trans number.symm)⟩
  unique := consistent.unique
  blank := consistent.blank
  front := consistent.front
  names := consistent.names
  counted := consistent.counted

theorem Consistent.exact (consistent : Consistent L d) : Exact L (view L d) :=
  fun k inside => (consistent.dbit_iff k inside).mp

private theorem Ordered.consistent (ordered : Ordered L d) (tree : Tree L (view L d)) (exact : Exact L (view L d)) :
    Consistent L d where
  super := ordered.super
  valid := ordered.pointers.valid
  unshared := ordered.pointers.unshared
  dbit_iff k inside := ⟨exact k inside, fun ⟨r, target⟩ => ordered.pointers.used r k target⟩
  ibit_iff n inside := by
    rw [tree.ibit_iff n inside]
    refine or_congr_right ⟨?_, ?_⟩
    · rintro ⟨s, used, number⟩
      exact ⟨s, ⟨used, number⟩, fun s' ⟨used', number'⟩ => tree.unique s' s used' used (number'.trans number.symm)⟩
    · rintro ⟨s, holds, _⟩
      exact ⟨s, holds⟩
  zero := ordered.pointers.zero
  front := tree.front
  names := tree.names
  counted := tree.counted
  blank := tree.blank
  unique := tree.unique

section Steps

theorem Tree.root (tree : Tree L fs) (inside : 0 < L.inodes) : fs.ibit 0 = true := (tree.ibit_iff 0 inside).mpr (.inl rfl)

/-- The number of a new file is positive. -/
private theorem Tree.fresh_pos (tree : Tree L fs) (fits : n < L.inodes) (fresh : fs.ibit n = false) : 0 < n := by
  refine Nat.pos_of_ne_zero ?_
  rintro rfl
  rw [tree.root fits] at fresh
  cases fresh

/-- An inode that is not live has no entries. -/
private theorem liveCount_fresh (fresh : fs.ibit n = false) : fs.liveCount L n = 0 := by
  rw [Fs.liveCount, Finset.card_eq_zero, Finset.filter_eq_empty_iff]
  rintro ij _ ⟨⟨live, _⟩, _⟩
  dsimp only at live
  rw [fresh] at live
  cases live

theorem liveCount_le (fs : Fs) (n : ℕ) : fs.liveCount L n ≤ indBlock * dentriesPerBlock := by
  refine (Finset.card_filter_le _ _).trans ?_
  rw [Finset.card_product, Finset.card_range, Finset.card_range]

/-- The entry of a new file is added to the directory. -/
theorem FreeSlot.tree (slot : FreeSlot L fs s k) (tree : Tree L fs) (inv : Pointers L fs) (fits : n < L.inodes)
    (fresh : fs.ibit n = false) (short : name.length ≤ 27) (clean : 0 ∉ name) (env : Env) (mode : ℕ)
    (new : ∀ s', fs.LiveDentry L s' → s'.n = s.n → fs.name L s' ≠ name) :
    Tree L (fs.create s.n k s.j name n (inodeBytes env n mode)) := by
  have apart := slot.apart fresh
  have number := slot.num_create fresh name env mode fits
  have ibit : (fs.create s.n k s.j name n (inodeBytes env n mode)).ibit = Function.update fs.ibit n true :=
    create_ibit fresh
  have positive := tree.fresh_pos fits fresh
  have same {m : ℕ} (ne : m ≠ n) := slot.samePointers fresh name env mode ne
  have alive {m : ℕ} (ne : m ≠ n) (live : (fs.create s.n k s.j name n (inodeBytes env n mode)).ibit m = true) :
      fs.ibit m = true := by
    rwa [ibit, Function.update_of_ne ne] at live
  have dir {m : ℕ} (ne : m ≠ n) : isDir ((fs.create s.n k s.j name n (inodeBytes env n mode)).inode m) = isDir
    (fs.inode m) := by
    rw [isDir, isDir, (same ne).mode]
  refine tree.add (slot.entryStep fresh name env mode inv (by omega)) fits fresh ibit ?_ ?_ number ?_ ?_ ?_
  · rintro ⟨_, used⟩
    rw [slot.empty] at used
    exact absurd used (lt_irrefl _)
  · refine ⟨(slot.isDentry_create fresh name env mode s).mpr slot.dentry, ?_⟩
    rw [number]
    omega
  · intro s' used here
    have mine : (fs.create s.n k s.j name n (inodeBytes env n mode)).name L s = name := by
      rw [Fs.name, slot.page_self fresh name env mode, dentryName_putDentry short clean]
    rw [mine]
    exact new s' used here
  · intro m live is_dir i j less small set
    by_cases eq : m = n
    · rw [eq, slot.ptr_new fresh name env mode (by simp only [indBlock] at small; omega)] at set
      exact (set rfl).elim
    · simp only [indBlock] at small
      rw [(same eq).ptr j (by omega)] at set
      rw [(same eq).ptr i (by omega)]
      exact tree.front m (alive eq live) (by rw [← dir eq]; exact is_dir) i j less small set
  · intro m live is_dir
    by_cases eq : m = n
    · subst eq
      rw [create_inode_new apart, links_newInode, liveCount_fresh fresh, if_neg apart.symm]
      rfl
    · have count := tree.counted m (alive eq live) (by rw [← dir eq]; exact is_dir)
      by_cases parent : m = s.n
      · have few := liveCount_le (L := L) fs m
        simp only [indBlock, dentriesPerBlock] at few
        subst parent
        rw [create_inode_parent apart, links_bump, count, if_pos rfl, int32_eq (by omega) (by omega)]
      · rw [create_inode_of_ne eq parent, count, if_neg (Ne.symm parent), add_zero]

theorem Exact.point (exact : Exact L fs) (inv : Pointers L fs) {r : Ref} (holds : fs.Holds r) (null : fs.target L r = 0)
    (inside : k < L.blocks) (free : fs.dbit k = false) : Exact L (fs.point L r k) := by
  obtain ⟨mine, others⟩ := inv.target_point holds null inside free
  intro k' inside' used
  rw [point_dbit free] at used
  by_cases eq : k' = k
  · rw [eq]
    exact ⟨r, mine⟩
  · rw [Function.update_of_ne eq] at used
    obtain ⟨r', target⟩ := exact k' inside' used
    refine ⟨r', ?_⟩
    rw [others r', target]
    rintro rfl
    exact L.block_ne_zero k' (target.symm.trans null)

/-- A name that is looked for without success is not the name of an entry in use. -/
theorem Tree.new (tree : Tree L (view L d)) (ordered : Ordered L d) (missing : Missing L d path p) (clean : 0 ∉ path)
    (short : (lastToken path).length ≤ 27) (used : (view L d).LiveDentry L s) (here : s.n = p) :
    (view L d).name L s ≠ lastToken path := by
  intro same
  obtain ⟨some, last⟩ := tokens_clean missing.lastToken_mem clean
  have found := tree.search_ne ordered short last some used same
  rw [here] at found
  exact found missing.search

/-- A directory gets a block. -/
theorem Grown.tree (grown : Grown L d d₁ s k) (tree : Tree L (view L d)) (ordered : Ordered L d) :
    Tree L (view L d₁) := by
  obtain ⟨inside, free, _⟩ := lowestClear_eq_some grown.lowest
  rw [grown.view_eq]
  exact tree.grow ordered.pointers grown.null grown.filled.set inside free

theorem Grown.exact (grown : Grown L d d₁ s k) (exact : Exact L (view L d)) (ordered : Ordered L d)
    (live : (view L d).ibit s.n = true) (small : s.i < indBlock) : Exact L (view L d₁) := by
  obtain ⟨inside, free, _⟩ := lowestClear_eq_some grown.lowest
  have below : s.i < 8 := by
    simp only [indBlock] at small
    omega
  rw [grown.view_eq]
  exact exact.point ordered.pointers ⟨live, below⟩ ((Fs.target_ptr live below).trans grown.null) inside free

/-- An entry in use of the directory with its new block was there before. -/
theorem Grown.used (grown : Grown L d d₁ s k) (ordered : Ordered L d) {s' : Slot} (used : (view L d₁).LiveDentry L s') :
    (view L d).LiveDentry L s' ∧ (view L d₁).name L s' = (view L d).name L s' := by
  obtain ⟨inside, free, _⟩ := lowestClear_eq_some grown.lowest
  obtain ⟨dentry, positive⟩ := used
  rw [grown.view_eq] at dentry positive ⊢
  rcases isDentry_of_point inside dentry with before | ⟨_, _, page⟩
  · rw [Fs.num, (before.point grown.null).2] at positive
    rw [Fs.name, (before.point grown.null).2]
    exact ⟨⟨before, positive⟩, rfl⟩
  · rw [Fs.num, page, ordered.pointers.zero k inside free, dentryNum_zero] at positive
    exact absurd positive (lt_irrefl _)

/-- A call that creates a file, or fails to. -/
theorem Tree.create (tree : Tree L (view L d)) (ordered : Ordered L d) (missing : Missing L d path p) (clean : 0 ∉ path)
    (short : (lastToken path).length ≤ 27) (type : ℕ) (env : Env) (mode : ℕ) :
    Ordered L (create type env d path mode).1 ∧ Tree L (view L (Wfs.create type env d path mode).1) ∧
      (Exact L (view L d) → Exact L (view L (Wfs.create type env d path mode).1)) := by
  rcases ordered.create missing.toAbsent type env mode with ⟨result, _⟩ | ⟨d₁, s, k, slot, here, ordered₁, grown, result⟩
  · rw [result]
    exact ⟨ordered, tree, id⟩
  · have before : Tree L (view L d₁) ∧ (Exact L (view L d) → Exact L (view L d₁)) ∧
        ∀ s', (view L d₁).LiveDentry L s' → s'.n = s.n → (view L d₁).name L s' ≠ lastToken path := by
      rcases grown with rfl | grown
      · exact ⟨tree, id, fun s' used mine => tree.new ordered missing clean short used (mine.trans here)⟩
      · refine ⟨grown.tree tree ordered, fun exact => ?_, fun s' used mine => ?_⟩
        · exact grown.exact exact ordered (by rw [here]; exact missing.live) slot.dentry.2.2.1
        · obtain ⟨used', name⟩ := grown.used ordered used
          rw [name]
          exact tree.new ordered missing clean short used' (mine.trans here)
    obtain ⟨tree₁, exact₁, new⟩ := before
    have last := (tokens_clean missing.lastToken_mem clean).2
    rw [result, ← here]
    rcases ordered₁.super.fillDentry env (mode ||| type) (view_ibit_lt slot.dentry.1) slot.inside slot.dentry.2.2.2.1
        (show (lastToken path).length < 32 by omega) with ⟨_, failed⟩ | ⟨n, lowest, _, view_eq⟩
    · rw [failed]
      exact ⟨ordered₁, tree₁, exact₁⟩
    · obtain ⟨fits, fresh, _⟩ := lowestClear_eq_some lowest
      have pointers := slot.pointers_create fresh (lastToken path) env (mode ||| type) ordered₁.pointers
      have entered := slot.tree tree₁ ordered₁.pointers fits fresh short last env (mode ||| type) new
      have targets := slot.target_create fresh (lastToken path) env (mode ||| type) ordered₁.pointers
      rw [← view_eq] at pointers entered
      refine ⟨⟨ordered₁.super.of_head (by rw [view_eq]; rfl), pointers⟩, entered, fun exact k' inside used => ?_⟩
      rw [view_eq] at used ⊢
      obtain ⟨r, target⟩ := exact₁ exact k' inside used
      exact ⟨r, (targets r).trans target⟩

theorem Consistent.create (consistent : Consistent L d) (missing : Missing L d path p) (clean : 0 ∉ path)
    (short : (lastToken path).length ≤ 27) (type : ℕ) (env : Env) (mode : ℕ) :
    Consistent L (create type env d path mode).1 := by
  obtain ⟨ordered, tree, exact⟩ :=
    consistent.tree.create consistent.toWellFormed.ordered missing clean short type env mode
  exact ordered.consistent tree (exact consistent.exact)

/-- Writing to a file. -/
theorem Exact.fileStep (exact : Exact L fs) (step : FileStep L n fs fs') : Exact L fs' := by
  intro k inside used
  rcases step.owned k used with before | owned
  · obtain ⟨r, target⟩ := exact k inside before
    exact ⟨r, (step.grows r (by rw [target]; exact L.block_ne_zero k)).trans target⟩
  · exact owned

theorem Consistent.fileStep (consistent : Consistent L d) (step : FileStep L n (view L d) (view L d'))
    (ordered : Ordered L d')
    (file : isDir ((view L d).inode n) = false) : Consistent L d' :=
  ordered.consistent ((step.sameTree consistent.toWellFormed.ordered.pointers file).tree consistent.tree)
    (consistent.exact.fileStep step)

theorem Consistent.write (consistent : Consistent L d) (found : (findInodeNumberByPath d path).2 = n)
    (live : (view L d).ibit n = true) (reg : isReg ((view L d).inode n) = true) (env : Env) (buf : List UInt8)
    (offset : ℕ) :
    Consistent L (writePath env d path buf offset).1 := by
  obtain ⟨step, ordered⟩ := (consistent.toWellFormed.ordered.writePath env found live reg buf offset).fileStep
  exact consistent.fileStep step ordered (isDir_of_isReg reg)

theorem Consistent.read (consistent : Consistent L d)
    (found : (findInodeNumberByPath d path).2 = -1 ∨ ∃ n : ℕ, (findInodeNumberByPath d path).2 = n ∧ n < L.inodes)
    (env : Env) (size offset : ℕ) : Consistent L (readPath env d path size offset).1 := by
  rcases found with missing | ⟨n, found, inside⟩
  · simp only [readPath, missing, if_true]
    exact consistent
  · have known : (n : ℤ) ≠ -1 := by omega
    simp only [readPath, found, if_neg known, consistent.super.inodeAt_eq inside]
    have times := updateInodeTimes_meta (d := d) inside env.now false
    exact (times.ordered consistent.toWellFormed.ordered).consistent (times.sameTree.tree consistent.tree)
      (consistent.exact.fileStep times.fileStep)

end Steps

/-- In a consistent image, by a path that fits: creating a file or a directory, by a name that fits into an entry and is
looked for without success in the live directory that the other components name; writing any bytes at any offset to a
path that leads to a live regular file; and reading a path that leads to an inode or nowhere. The call returns, and
whatever it returns, the image is consistent afterwards. -/
theorem calls_consistent (consistent : Consistent L d) (env : Env) {path : Name} (fits : path.length < tmpPath) :
    (∀ p mode, Missing L d path p → 0 ∉ path → (lastToken path).length ≤ 27 →
      (∃ r, wfsMknod env d path mode = some r ∧ Consistent L r.1) ∧ ∃ r, wfsMkdir env d path mode = some r ∧
      Consistent L r.1) ∧
    (∀ n buf offset, (findInodeNumberByPath d path).2 = (n : ℕ) → (view L d).ibit n = true →
      isReg ((view L d).inode n) = true → ∃ r, wfsWrite env d path buf offset = some r ∧ Consistent L r.1) ∧
    (∀ size offset,
      ((findInodeNumberByPath d path).2 = -1 ∨ ∃ n : ℕ, (findInodeNumberByPath d path).2 = n ∧ n < L.inodes) →
      ∃ r, wfsRead env d path size offset = some r ∧ Consistent L r.1) := by
  refine ⟨fun p mode missing clean short => ⟨⟨_, map_strcpyPath fits, ?_⟩, ⟨_, map_strcpyPath fits, ?_⟩⟩, ?_, ?_⟩
  · exact consistent.create missing clean short sIfreg env mode
  · exact consistent.create missing clean short sIfdir env mode
  · intro n buf offset found live reg
    exact ⟨_, map_strcpyPath fits, consistent.write found live reg env buf offset⟩
  · intro size offset found
    exact ⟨_, map_strcpyPath fits, consistent.read found env size offset⟩

/-- The entries of one directory, read off the list of all entries in use. -/
private theorem liveCount_eq (bounded : ∀ n, fs.ibit n = true → n < L.inodes) (nodup : (fs.liveSlots L).Nodup) (n : ℕ) :
    fs.liveCount L n = ((fs.liveSlots L).filter fun s => s.n = n).length := by
  rw [← List.toFinset_card_of_nodup (nodup.filter _), Fs.liveCount]
  refine Finset.card_bij (fun ij _ => ⟨n, ij.1, ij.2⟩) ?_ ?_ ?_
  · intro ij member
    rw [List.mem_toFinset, List.mem_filter]
    exact ⟨(Fs.mem_liveSlots bounded).mpr (Finset.mem_filter.mp member).2, by simp⟩
  · rintro ij _ ij' _ same
    obtain ⟨_, i, j⟩ := Slot.mk.inj same
    exact Prod.ext i j
  · intro s member
    rw [List.mem_toFinset, List.mem_filter, decide_eq_true_eq] at member
    obtain ⟨listed, rfl⟩ := member
    have live := (Fs.mem_liveSlots bounded).mp listed
    refine ⟨(s.i, s.j), ?_, rfl⟩
    simp only [Finset.mem_filter, Finset.mem_product, Finset.mem_range]
    exact ⟨⟨live.1.2.2.1, live.1.2.2.2.1⟩, live⟩

/-- The links of every directory count its entries in use. -/
def Linked (L : Layout) (d : Disk) : Prop := ∀ n, (view L d).ibit n = true → isDir ((view L d).inode n) = true →
  links ((view L d).inode n) = 1 + (view L d).liveCount L n

private theorem linked_of_forall (nodup : ((view L d).liveSlots L).Nodup)
    (counted : ∀ n ∈ (view L d).liveInodes L, isDir ((view L d).inode n) = true →
      links ((view L d).inode n) = 1 + (((view L d).liveSlots L).filter fun s => s.n = n).length) : Linked L d := by
  intro n live dir
  rw [liveCount_eq (fun _ => view_ibit_lt) nodup]
  exact counted n ((Fs.mem_liveInodes fun _ => view_ibit_lt).mpr live) dir

/-- What can be computed of a consistent image. -/
theorem WellFormed.consistent (wf : WellFormed L d) (linked : Linked L d)
    (blank : ∀ s ∈ (view L d).slots L, 0 < (view L d).num L s ∨ (view L d).num L s = 0 ∧ (view L d).name L s = [])
    (unique : ∀ s ∈ (view L d).liveSlots L, ∀ s' ∈ (view L d).liveSlots L,
      (view L d).num L s = (view L d).num L s' → s = s') :
    Consistent L d := by
  have bounded (n : ℕ) (live : (view L d).ibit n = true) : n < L.inodes := view_ibit_lt live
  refine ⟨wf, linked, ?_, ?_⟩
  · intro s dentry
    exact blank s ((Fs.mem_slots bounded).mpr dentry)
  · intro s s' used used'
    exact unique s ((Fs.mem_liveSlots bounded).mpr used) s' ((Fs.mem_liveSlots bounded).mpr used')

private theorem emptyFile_consistent : Consistent smallLayout (image emptyFile) :=
  emptyFile_wellFormed.consistent (linked_of_forall (by decide +kernel) (by decide +kernel)) (by decide +kernel)
    (by decide +kernel)

/-- `/b` is created next to `/a`. -/
theorem calls_consistent_mknod :
    ∃ r, wfsMknod ⟨5, 0, 0⟩ (image emptyFile) [47, 98] 0o644 = some r ∧ Consistent smallLayout r.1 :=
  ((calls_consistent emptyFile_consistent ⟨5, 0, 0⟩ (by decide)).1 0 0o644 emptyFile_missing (by decide) (by decide)).1

/-- The root has the file `x` behind an unused entry with the same name. -/
def hiddenFile : List (ℤ × List UInt8) :=
  [(0, leBytes 8 32 ++ leBytes 8 32 ++ leBytes 8 48 ++ leBytes 8 52 ++ leBytes 8 56 ++ leBytes 8 16440),
    (48, leBytes 4 3), (52, leBytes 4 1),
    (60, leBytes 4 0o40777), (80, leBytes 4 2), (112, leBytes 8 16440),
    (568, leBytes 4 1), (572, leBytes 4 0o100644), (592, leBytes 4 1),
    (16440, [120]), (16472, [120]), (16500, leBytes 4 1)]

/-- The lookup of `/x` ends at the unused entry, and `mknod` makes a second file of that name. -/
private theorem hiddenFile_twice : WellFormed smallLayout (image hiddenFile) ∧
    Missing smallLayout (image hiddenFile) [47, 120] 0 ∧
    ∃ r, wfsMknod ⟨5, 0, 0⟩ (image hiddenFile) [47, 120] 0o644 = some r ∧ ¬ WellFormed smallLayout r.1 := by
  refine ⟨wellFormed_image (by decide +kernel) (by decide +kernel) (by decide +kernel),
    ⟨⟨by decide +kernel, by decide +kernel, by decide +kernel⟩, by decide +kernel⟩,
    _, map_strcpyPath (by decide), fun wf => ?_⟩
  have same := wf.names ⟨0, 0, 0⟩ ⟨0, 0, 1⟩ (by decide +kernel) (by decide +kernel) rfl (by decide +kernel)
  cases same

/-- The entries `a` and `b` of the root have the number of an inode that is not in use. -/
def sharedNumber : List (ℤ × List UInt8) :=
  [(0, leBytes 8 32 ++ leBytes 8 32 ++ leBytes 8 48 ++ leBytes 8 52 ++ leBytes 8 56 ++ leBytes 8 16440),
    (48, leBytes 4 1), (52, leBytes 4 1),
    (60, leBytes 4 0o40777), (80, leBytes 4 3), (112, leBytes 8 16440),
    (16440, [97]), (16468, leBytes 4 1), (16472, [98]), (16500, leBytes 4 1)]

/-- `mknod` of `/c` gives out that inode. -/
private theorem sharedNumber_third : WellFormed smallLayout (image sharedNumber) ∧
    Missing smallLayout (image sharedNumber) [47, 99] 0 ∧
    ∃ r, wfsMknod ⟨5, 0, 0⟩ (image sharedNumber) [47, 99] 0o644 = some r ∧ ¬ WellFormed smallLayout r.1 := by
  refine ⟨wellFormed_image (by decide +kernel) (by decide +kernel) (by decide +kernel),
    ⟨⟨by decide +kernel, by decide +kernel, by decide +kernel⟩, by decide +kernel⟩,
    _, map_strcpyPath (by decide), fun wf => ?_⟩
  obtain ⟨s, _, only⟩ := ((wf.ibit_iff 1 (by decide)).mp (by decide +kernel)).resolve_left (by decide)
  have first := only ⟨0, 0, 0⟩ (by decide +kernel)
  have second := only ⟨0, 0, 1⟩ (by decide +kernel)
  cases first.trans second.symm

/-- The file `x` has its block right behind the block of the root, and holds what looks like an entry `y`. -/
def looksLikeEntry : List (ℤ × List UInt8) :=
  [(0, leBytes 8 32 ++ leBytes 8 32 ++ leBytes 8 48 ++ leBytes 8 52 ++ leBytes 8 56 ++ leBytes 8 16440),
    (48, leBytes 4 3), (52, leBytes 4 3),
    (60, leBytes 4 0o40777), (80, leBytes 4 2), (112, leBytes 8 16440),
    (568, leBytes 4 1), (572, leBytes 4 0o100644), (584, leBytes 8 32), (592, leBytes 4 1), (624, leBytes 8 16952),
    (16440, [120]), (16468, leBytes 4 1), (16952, [121]), (16980, leBytes 4 34)]

/-- Reading `/y` takes a free block for an inode and stores the time there. -/
private theorem looksLikeEntry_read : WellFormed smallLayout (image looksLikeEntry) ∧
    ∃ r, wfsRead ⟨5, 0, 0⟩ (image looksLikeEntry) [47, 121] 1 0 = some r ∧ ¬ WellFormed smallLayout r.1 := by
  refine ⟨wellFormed_image (by decide +kernel) (by decide +kernel) (by decide +kernel),
    _, map_strcpyPath (by decide), fun wf => ?_⟩
  have free := congrFun (wf.zero 2 (by decide) (by decide +kernel)) 32
  revert free
  decide +kernel

/-- A call leaves a well-formed image that is none: `mknod` where an unused entry has the name, `mknod` where two entries
have the number of the new file, and `read` of a path that leads to no inode. -/
theorem wellFormed_lost :
    (∃ (L : Layout) (d : Disk) (path : Name) (p : ℕ), WellFormed L d ∧ Linked L d ∧ Missing L d path p ∧ 0 ∉ path ∧
      path.length < tmpPath ∧ (lastToken path).length ≤ 27 ∧
      (∃ s, (view L d).IsDentry s ∧ (view L d).num L s = 0 ∧ (view L d).name L s = lastToken path) ∧
      ∃ r, wfsMknod ⟨5, 0, 0⟩ d path 0o644 = some r ∧ ¬ WellFormed L r.1) ∧
    (∃ (L : Layout) (d : Disk) (path : Name) (p : ℕ), WellFormed L d ∧ Linked L d ∧ Missing L d path p ∧ 0 ∉ path ∧
      path.length < tmpPath ∧ (lastToken path).length ≤ 27 ∧
      (∃ s s', (view L d).LiveDentry L s ∧ (view L d).LiveDentry L s' ∧ (view L d).num L s = (view L d).num L s' ∧
      s ≠ s') ∧
      ∃ r, wfsMknod ⟨5, 0, 0⟩ d path 0o644 = some r ∧ ¬ WellFormed L r.1) ∧
    ∃ (L : Layout) (d : Disk) (path : Name), WellFormed L d ∧ Linked L d ∧ (findInodeNumberByPath d path).2 ≥ L.inodes ∧
      ∃ r, wfsRead ⟨5, 0, 0⟩ d path 1 0 = some r ∧ ¬ WellFormed L r.1 := by
  obtain ⟨hidden, hidden', twice⟩ := hiddenFile_twice
  obtain ⟨shared, shared', third⟩ := sharedNumber_third
  obtain ⟨fake, read⟩ := looksLikeEntry_read
  refine ⟨⟨_, _, _, _, hidden, linked_of_forall (by decide +kernel) (by decide +kernel), hidden', by decide,
    by decide, by decide,
      ⟨⟨0, 0, 0⟩, by decide +kernel⟩, twice⟩,
    ⟨_, _, _, _, shared, linked_of_forall (by decide +kernel) (by decide +kernel), shared', by decide, by decide,
      by decide,
      ⟨⟨0, 0, 0⟩, ⟨0, 0, 1⟩, by decide +kernel⟩, third⟩,
    ⟨_, _, _, fake, linked_of_forall (by decide +kernel) (by decide +kernel), by decide +kernel, read⟩⟩

end Cs537.Wfs
