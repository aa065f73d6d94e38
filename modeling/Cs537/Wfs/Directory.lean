import Cs537.Wfs.WellFormed
import Mathlib.Data.Finset.Prod
import Mathlib.Data.Finset.Card

/-! # The tree of directories

What the entries of the directories say, and how it changes: not at all when a file is written or a time
is set, by empty entries when a directory gets a block, and by one entry when a file is created.
-/

namespace Cs537.Wfs

open Lib Memory

variable {L : Layout} {fs fs' : Fs} {n p k : ℕ} {s s₀ : Slot}

/-- The number of entries in use. -/
def Fs.liveCount (L : Layout) (fs : Fs) (n : ℕ) : ℕ :=
  ((Finset.range indBlock ×ˢ Finset.range dentriesPerBlock).filter fun ij => fs.LiveDentry L ⟨n, ij.1, ij.2⟩).card

/-- Inode bits and entries agree, entries not in use are empty, and directories are in order. -/
structure Tree (L : Layout) (fs : Fs) : Prop where
  ibit_iff : ∀ n < L.inodes, fs.ibit n = true ↔ n = 0 ∨ ∃ s, fs.LiveDentry L s ∧ fs.num L s = n
  unique : ∀ s s', fs.LiveDentry L s → fs.LiveDentry L s' → fs.num L s = fs.num L s' → s = s'
  blank : ∀ s, fs.IsDentry s → 0 < fs.num L s ∨ fs.num L s = 0 ∧ fs.name L s = []
  front : ∀ n, fs.ibit n = true → isDir (fs.inode n) = true →
    ∀ i j, i < j → j < indBlock → ptr (fs.inode n) j ≠ 0 → ptr (fs.inode n) i ≠ 0
  names : ∀ s s', fs.LiveDentry L s → fs.LiveDentry L s' → s.n = s'.n → fs.name L s = fs.name L s' → s = s'
  counted : ∀ n, fs.ibit n = true → isDir (fs.inode n) = true → links (fs.inode n) = 1 + fs.liveCount L n

/-- The block of an entry is one of the blocks. -/
theorem Pointers.page_eq (inv : Pointers L fs) (dentry : fs.IsDentry s) : ∃ k < L.blocks,
    fs.target L (.ptr s.n s.i) = L.block k ∧ ptr (fs.inode s.n) s.i = L.block k ∧ fs.page L s = fs.block k := by
  obtain ⟨live, _, small, _, set⟩ := dentry
  have target : fs.target L (.ptr s.n s.i) = ptr (fs.inode s.n) s.i :=
    Fs.target_ptr live (by simp only [indBlock] at small; omega)
  obtain ⟨k, inside, eq⟩ := inv.valid _ (by rwa [target])
  refine ⟨k, inside, eq, target.symm.trans eq, ?_⟩
  rw [Fs.page, ← target, eq, L.blockNo_block]

/-- Two images with the same entries. -/
structure SameTree (L : Layout) (fs fs' : Fs) : Prop where
  ibit : fs'.ibit = fs.ibit
  dir : ∀ m, isDir (fs'.inode m) = isDir (fs.inode m)
  ptr : ∀ m, fs.ibit m = true → isDir (fs.inode m) = true → ∀ i < indBlock, ptr (fs'.inode m) i = ptr (fs.inode m) i
  links : ∀ m, fs.ibit m = true → isDir (fs.inode m) = true → links (fs'.inode m) = links (fs.inode m)
  page : ∀ s, fs.IsDentry s → fs'.page L s = fs.page L s

namespace SameTree

private theorem isDentry (same : SameTree L fs fs') (s : Slot) : fs'.IsDentry s ↔ fs.IsDentry s := by
  simp only [Fs.IsDentry, same.ibit, same.dir]
  constructor
  · rintro ⟨live, dir, small, inside, set⟩
    exact ⟨live, dir, small, inside, by rwa [← same.ptr s.n live dir s.i small]⟩
  · rintro ⟨live, dir, small, inside, set⟩
    exact ⟨live, dir, small, inside, by rwa [same.ptr s.n live dir s.i small]⟩

theorem num (same : SameTree L fs fs') (dentry : fs.IsDentry s) : fs'.num L s = fs.num L s := by
  rw [Fs.num, Fs.num, same.page s dentry]

theorem name (same : SameTree L fs fs') (dentry : fs.IsDentry s) : fs'.name L s = fs.name L s := by
  rw [Fs.name, Fs.name, same.page s dentry]

theorem liveDentry (same : SameTree L fs fs') (s : Slot) : fs'.LiveDentry L s ↔ fs.LiveDentry L s := by
  rw [Fs.LiveDentry, Fs.LiveDentry, same.isDentry]
  exact and_congr_right fun dentry => by rw [same.num dentry]

theorem tree (same : SameTree L fs fs') (tree : Tree L fs) : Tree L fs' where
  ibit_iff n inside := by
    rw [same.ibit, tree.ibit_iff n inside]
    apply or_congr_right
    apply exists_congr
    intro s
    rw [same.liveDentry]
    exact and_congr_right fun live => by rw [same.num live.1]
  unique s s' live live' eq := by
    rw [same.liveDentry] at live live'
    rw [same.num live.1, same.num live'.1] at eq
    exact tree.unique s s' live live' eq
  blank s dentry := by
    rw [same.isDentry] at dentry
    rw [same.num dentry, same.name dentry]
    exact tree.blank s dentry
  front n live dir i j less small := by
    rw [same.ibit] at live
    rw [same.dir] at dir
    rw [same.ptr n live dir j small, same.ptr n live dir i (by omega)]
    exact tree.front n live dir i j less small
  names s s' live live' dir eq := by
    rw [same.liveDentry] at live live'
    rw [same.name live.1, same.name live'.1] at eq
    exact tree.names s s' live live' dir eq
  counted n live dir := by
    rw [same.ibit] at live
    rw [same.dir] at dir
    simp only [same.links n live dir, Fs.liveCount, same.liveDentry]
    exact tree.counted n live dir

end SameTree

/-- Writing to a file that is not a directory leaves the entries alone. -/
theorem FileStep.sameTree (step : FileStep L n fs fs') (inv : Pointers L fs) (file : isDir (fs.inode n) = false) :
    SameTree L fs fs' := by
  have apart {m : ℕ} (dir : isDir (fs.inode m) = true) : m ≠ n := by
    rintro rfl
    rw [dir] at file
    cases file
  have inode {m : ℕ} (dir : isDir (fs.inode m) = true) : fs'.inode m = fs.inode m := step.inode m (apart dir)
  refine ⟨step.ibit, ?_, ?_, ?_, ?_⟩
  · intro m
    by_cases eq : m = n
    · rw [eq, isDir, isDir, step.mode]
    · rw [step.inode m eq]
  · intro m _ dir i _
    rw [inode dir]
  · intro m _ dir
    rw [inode dir]
  · intro s dentry
    obtain ⟨k, _, target, pointer, page⟩ := inv.page_eq dentry
    rw [page, Fs.page, inode dentry.2.1, pointer, L.blockNo_block]
    apply step.block k (inv.used _ k target)
    intro r owner same
    have refs := inv.unshared _ _ (by rw [same]; exact L.block_ne_zero k) (same.trans target.symm)
    rw [refs] at owner
    exact apart dentry.2.1 owner

theorem MetaStep.sameTree {d d' : Disk} {size : ℤ} (step : MetaStep L n d d' size) :
    SameTree L (view L d) (view L d') := by
  obtain ⟨page, view, same, links, _⟩ := step.page
  have inode (m : ℕ) : SamePointers ((Wfs.view L d).inode m) ((Wfs.view L d').inode m) ∧
      Wfs.links ((Wfs.view L d').inode m) = Wfs.links ((Wfs.view L d).inode m) := by
    rw [view]
    by_cases eq : m = n
    · subst eq
      simp only [Fs.setInode, Function.update_self]
      exact ⟨same, links⟩
    · simp only [Fs.setInode, Function.update_of_ne eq]
      exact ⟨⟨fun _ _ => rfl, rfl⟩, trivial⟩
  refine ⟨by rw [view]; rfl, ?_, ?_, ?_, ?_⟩
  · intro m
    rw [isDir, isDir, (inode m).1.mode]
  · intro m _ _ i small
    exact (inode m).1.ptr i (by simp only [indBlock] at small; omega)
  · intro m _ _
    exact (inode m).2
  · intro s dentry
    rw [Fs.page, Fs.page, (inode s.n).1.ptr s.i (by have := dentry.2.2.1; simp only [indBlock] at this; omega), view]
    rfl

section Steps

theorem dentryNum_zero (j : ℕ) : dentryNum (fun _ => 0) j = 0 := int_zero _

theorem dentryName_zero (j : ℕ) : dentryName (fun _ => 0) j = [] := by
  rw [dentryName, load]
  exact List.takeWhile_cons_of_neg (by simp)

/-- What leaves the entries in use alone, and has only empty entries besides. -/
private theorem Tree.of_live (tree : Tree L fs) (ibit : fs'.ibit = fs.ibit) (dir : ∀ m, isDir (fs'.inode m) = isDir (fs.inode m))
    (live : ∀ s, fs'.LiveDentry L s ↔ fs.LiveDentry L s) (num : ∀ s, fs.LiveDentry L s → fs'.num L s = fs.num L s)
    (name : ∀ s, fs.LiveDentry L s → fs'.name L s = fs.name L s)
    (blank : ∀ s, fs'.IsDentry s → 0 < fs'.num L s ∨ fs'.num L s = 0 ∧ fs'.name L s = [])
    (front : ∀ n, fs.ibit n = true → isDir (fs.inode n) = true →
      ∀ i j, i < j → j < indBlock → ptr (fs'.inode n) j ≠ 0 → ptr (fs'.inode n) i ≠ 0)
    (links : ∀ n, fs.ibit n = true → isDir (fs.inode n) = true → links (fs'.inode n) = links (fs.inode n)) :
    Tree L fs' where
  ibit_iff n inside := by
    rw [ibit, tree.ibit_iff n inside]
    apply or_congr_right
    apply exists_congr
    intro s
    rw [live]
    exact and_congr_right fun used => by rw [num s used]
  unique s s' used used' eq := by
    rw [live] at used used'
    rw [num s used, num s' used'] at eq
    exact tree.unique s s' used used' eq
  blank := blank
  front n alive is_dir := by
    rw [ibit] at alive
    rw [dir] at is_dir
    exact front n alive is_dir
  names s s' used used' dir eq := by
    rw [live] at used used'
    rw [name s used, name s' used'] at eq
    exact tree.names s s' used used' dir eq
  counted n alive is_dir := by
    rw [ibit] at alive
    rw [dir] at is_dir
    simp only [links n alive is_dir, Fs.liveCount, live]
    exact tree.counted n alive is_dir

section Grow

variable {i : ℕ}

theorem point_ptr_of_ne {m j : ℕ} (apart : m = p → j ≠ i) :
    ptr ((fs.point L (.ptr p i) k).inode m) j = ptr (fs.inode m) j := by
  by_cases eq : m = p
  · subst eq
    rw [point_inode_self, ptr_setPtr_of_ne (apart rfl)]
  · rw [point_inode_of_ne eq]

private theorem isDir_point (m : ℕ) : isDir ((fs.point L (.ptr p i) k).inode m) = isDir (fs.inode m) := by
  by_cases eq : m = p
  · subst eq
    rw [point_inode_self, isDir, isDir, FileStep.point_mode]
  · rw [point_inode_of_ne eq]

theorem links_point (m : ℕ) : links ((fs.point L (.ptr p i) k).inode m) = links (fs.inode m) := by
  by_cases eq : m = p
  · subst eq
    rw [point_inode_self, FileStep.point_links]
  · rw [point_inode_of_ne eq]

/-- The entries of a directory stay when it gets a block. -/
theorem Fs.IsDentry.point (dentry : fs.IsDentry s) (null : ptr (fs.inode p) i = 0) :
    (fs.point L (.ptr p i) k).IsDentry s ∧ (fs.point L (.ptr p i) k).page L s = fs.page L s := by
  have apart : s.n = p → s.i ≠ i := by
    intro eq eq'
    have set := dentry.2.2.2.2
    rw [eq, eq'] at set
    exact set null
  have pointer : ptr ((fs.point L (.ptr p i) k).inode s.n) s.i = ptr (fs.inode s.n) s.i := point_ptr_of_ne apart
  refine ⟨⟨dentry.1, by rw [isDir_point]; exact dentry.2.1, dentry.2.2.1, dentry.2.2.2.1,
    by rw [pointer]; exact dentry.2.2.2.2⟩, ?_⟩
  rw [Fs.page, Fs.page, pointer]
  rfl

/-- An entry that was not there before is in the new block. -/
theorem isDentry_of_point (inside : k < L.blocks) (dentry : (fs.point L (.ptr p i) k).IsDentry s) :
    fs.IsDentry s ∨ s.n = p ∧ s.i = i ∧ (fs.point L (.ptr p i) k).page L s = fs.block k := by
  by_cases here : s.n = p ∧ s.i = i
  · right
    refine ⟨here.1, here.2, ?_⟩
    rw [Fs.page, here.1, here.2, point_inode_self, ptr_setPtr_self, Layout.int64_block inside, L.blockNo_block]
    rfl
  · left
    obtain ⟨alive, is_dir, block, entry, set⟩ := dentry
    rw [isDir_point] at is_dir
    rw [point_ptr_of_ne fun eq eq' => here ⟨eq, eq'⟩] at set
    exact ⟨alive, is_dir, block, entry, set⟩

end Grow

/-- A directory gets a block. -/
theorem Tree.grow {i : ℕ} (tree : Tree L fs) (inv : Pointers L fs) (null : ptr (fs.inode p) i = 0)
    (earlier : ∀ j < i, ptr (fs.inode p) j ≠ 0) (inside : k < L.blocks) (free : fs.dbit k = false) :
    Tree L (fs.point L (.ptr p i) k) := by
  have mine : ptr ((fs.point L (.ptr p i) k).inode p) i = L.block k := by
    rw [point_inode_self, ptr_setPtr_self, Layout.int64_block inside]
  have num (s : Slot) (dentry : fs.IsDentry s) : (fs.point L (.ptr p i) k).num L s = fs.num L s := by
    rw [Fs.num, Fs.num, (dentry.point null).2]
  have name (s : Slot) (dentry : fs.IsDentry s) : (fs.point L (.ptr p i) k).name L s = fs.name L s := by
    rw [Fs.name, Fs.name, (dentry.point null).2]
  have empty (s : Slot) (page : (fs.point L (.ptr p i) k).page L s = fs.block k) :
      (fs.point L (.ptr p i) k).num L s = 0 ∧ (fs.point L (.ptr p i) k).name L s = [] := by
    rw [Fs.num, Fs.name, page, inv.zero k inside free]
    exact ⟨dentryNum_zero _, dentryName_zero _⟩
  refine tree.of_live rfl isDir_point ?_ (fun s used => num s used.1) (fun s used => name s used.1) ?_ ?_
    fun m _ _ => links_point m
  · intro s
    constructor
    · rintro ⟨dentry, positive⟩
      rcases isDentry_of_point inside dentry with before | ⟨_, _, page⟩
      · exact ⟨before, by rwa [← num s before]⟩
      · rw [(empty s page).1] at positive
        exact absurd positive (lt_irrefl _)
    · rintro ⟨dentry, positive⟩
      exact ⟨(dentry.point null).1, by rwa [num s dentry]⟩
  · intro s dentry
    rcases isDentry_of_point inside dentry with before | ⟨_, _, page⟩
    · rw [num s before, name s before]
      exact tree.blank s before
    · exact .inr (empty s page)
  · intro m alive is_dir j j' less below set
    by_cases here : m = p ∧ j = i
    · rw [here.1, here.2, mine]
      exact L.block_ne_zero k
    · rw [point_ptr_of_ne fun eq eq' => here ⟨eq, eq'⟩]
      by_cases later : m = p ∧ j' = i
      · rw [later.1]
        exact earlier j (by omega)
      · rw [point_ptr_of_ne fun eq eq' => later ⟨eq, eq'⟩] at set
        exact tree.front m alive is_dir j j' less below set

/-- All entries but one stay as they are; empty ones may go with their directory. -/
structure EntryStep (L : Layout) (fs fs' : Fs) (s₀ : Slot) : Prop where
  dentry : ∀ s, fs'.IsDentry s → fs.IsDentry s
  kept : ∀ s, fs.LiveDentry L s → fs'.IsDentry s
  num : ∀ s, fs'.IsDentry s → s ≠ s₀ → fs'.num L s = fs.num L s
  name : ∀ s, fs'.IsDentry s → s ≠ s₀ → fs'.name L s = fs.name L s

namespace EntryStep

theorem live (step : EntryStep L fs fs' s₀) (ne : s ≠ s₀) : fs'.LiveDentry L s ↔ fs.LiveDentry L s := by
  constructor
  · rintro ⟨dentry, positive⟩
    exact ⟨step.dentry s dentry, by rwa [← step.num s dentry ne]⟩
  · intro used
    have dentry := step.kept s used
    exact ⟨dentry, by rw [step.num s dentry ne]; exact used.2⟩

/-- The count of a directory changes by the entry that changes. -/
theorem liveCount (step : EntryStep L fs fs' s₀) (m : ℕ) :
    fs'.liveCount L m + (if s₀.n = m ∧ fs.LiveDentry L s₀ then 1 else 0) =
      fs.liveCount L m + (if s₀.n = m ∧ fs'.LiveDentry L s₀ then 1 else 0) := by
  simp only [Fs.liveCount]
  by_cases mine : s₀.n = m
  · have others : ∀ ij : ℕ × ℕ, ij ≠ (s₀.i, s₀.j) → (fs'.LiveDentry L ⟨m, ij.1, ij.2⟩ ↔
      fs.LiveDentry L ⟨m, ij.1, ij.2⟩) := by
      intro ij ne
      apply step.live
      rintro rfl
      exact ne rfl
    have slot : (⟨m, s₀.i, s₀.j⟩ : Slot) = s₀ := by
      rw [← mine]
    have erased : (((Finset.range indBlock ×ˢ Finset.range dentriesPerBlock).filter fun ij =>
          fs'.LiveDentry L ⟨m, ij.1, ij.2⟩).erase (s₀.i, s₀.j)) =
        (((Finset.range indBlock ×ˢ Finset.range dentriesPerBlock).filter fun ij =>
          fs.LiveDentry L ⟨m, ij.1, ij.2⟩).erase (s₀.i, s₀.j)) := by
      ext ij
      simp only [Finset.mem_erase, Finset.mem_filter]
      exact and_congr_right fun ne => and_congr_right fun _ => others ij ne
    have card (fs : Fs) : (((Finset.range indBlock ×ˢ Finset.range dentriesPerBlock).filter fun ij =>
          fs.LiveDentry L ⟨m, ij.1, ij.2⟩).erase (s₀.i, s₀.j)).card + (if fs.LiveDentry L s₀ then 1 else 0) =
        ((Finset.range indBlock ×ˢ Finset.range dentriesPerBlock).filter fun ij =>
          fs.LiveDentry L ⟨m, ij.1, ij.2⟩).card := by
      split_ifs with used
      · apply Finset.card_erase_add_one
        simp only [Finset.mem_filter, Finset.mem_product, Finset.mem_range, slot]
        exact ⟨⟨used.1.2.2.1, used.1.2.2.2.1⟩, used⟩
      · rw [Finset.erase_eq_of_notMem, Nat.add_zero]
        simp only [Finset.mem_filter, slot]
        exact fun member => used member.2
    have before := card fs
    have after := card fs'
    rw [erased] at after
    simp only [mine, true_and]
    omega
  · have same : ∀ ij : ℕ × ℕ, (fs'.LiveDentry L ⟨m, ij.1, ij.2⟩ ↔ fs.LiveDentry L ⟨m, ij.1, ij.2⟩) := by
      intro ij
      apply step.live
      rintro rfl
      exact mine rfl
    simp only [same, mine, false_and, if_false]

end EntryStep

/-- A file is created: one entry gets its number. -/
theorem Tree.add (tree : Tree L fs) (step : EntryStep L fs fs' s₀) (fits : n < L.inodes) (fresh : fs.ibit n = false)
    (ibit : fs'.ibit = Function.update fs.ibit n true) (empty : ¬ fs.LiveDentry L s₀) (added : fs'.LiveDentry L s₀)
    (number : fs'.num L s₀ = n)
    (new : ∀ s, fs.LiveDentry L s → s.n = s₀.n → fs.name L s ≠ fs'.name L s₀)
    (front : ∀ m, fs'.ibit m = true → isDir (fs'.inode m) = true →
      ∀ i j, i < j → j < indBlock → ptr (fs'.inode m) j ≠ 0 → ptr (fs'.inode m) i ≠ 0)
    (links : ∀ m, fs'.ibit m = true → isDir (fs'.inode m) = true →
      links (fs'.inode m) = 1 + fs.liveCount L m + if s₀.n = m then 1 else 0) : Tree L fs' := by
  have unused (s : Slot) (used : fs.LiveDentry L s) : fs.num L s ≠ n := by
    intro eq
    have set := (tree.ibit_iff n fits).mpr (.inr ⟨s, used, eq⟩)
    rw [fresh] at set
    cases set
  have num {s : Slot} (used : fs'.LiveDentry L s) (ne : s ≠ s₀) : fs.LiveDentry L s ∧ fs'.num L s = fs.num L s :=
    ⟨(step.live ne).mp used, step.num s used.1 ne⟩
  refine ⟨?_, ?_, ?_, front, ?_, ?_⟩
  · intro m inside
    by_cases eq : m = n
    · subst eq
      rw [ibit, Function.update_self]
      exact iff_of_true rfl (.inr ⟨s₀, added, number⟩)
    · rw [ibit, Function.update_of_ne eq, tree.ibit_iff m inside]
      apply or_congr_right
      constructor
      · rintro ⟨s, used, holds⟩
        have ne : s ≠ s₀ := by
          rintro rfl
          exact empty used
        have used' := (step.live ne).mpr used
        exact ⟨s, used', by rw [(num used' ne).2, holds]⟩
      · rintro ⟨s, used, holds⟩
        have ne : s ≠ s₀ := by
          rintro rfl
          rw [number] at holds
          exact eq (by omega)
        exact ⟨s, (num used ne).1, by rw [← (num used ne).2, holds]⟩
  · intro s s' used used' eq
    by_cases first : s = s₀ <;> by_cases second : s' = s₀
    · rw [first, second]
    · rw [first, number, (num used' second).2] at eq
      exact (unused s' (num used' second).1 eq.symm).elim
    · rw [second, number, (num used first).2] at eq
      exact (unused s (num used first).1 eq).elim
    · rw [(num used first).2, (num used' second).2] at eq
      exact tree.unique s s' (num used first).1 (num used' second).1 eq
  · intro s dentry
    by_cases here : s = s₀
    · rw [here]
      exact .inl added.2
    · rw [step.num s dentry here, step.name s dentry here]
      exact tree.blank s (step.dentry s dentry)
  · intro s s' used used' dir eq
    by_cases first : s = s₀ <;> by_cases second : s' = s₀
    · rw [first, second]
    · rw [first, step.name s' used'.1 second] at eq
      rw [first] at dir
      exact (new s' (num used' second).1 dir.symm eq.symm).elim
    · rw [second, step.name s used.1 first] at eq
      rw [second] at dir
      exact (new s (num used first).1 dir eq).elim
    · rw [step.name s used.1 first, step.name s' used'.1 second] at eq
      exact tree.names s s' (num used first).1 (num used' second).1 dir eq
  · intro m alive dir
    have count := step.liveCount m
    rw [links m alive dir]
    simp only [empty, added, and_false, and_true, if_false] at count
    split_ifs at count ⊢ <;> omega

/-- A file is removed: one entry is cleared. -/
theorem Tree.remove (tree : Tree L fs) (step : EntryStep L fs fs' s₀)
    (ibit : fs'.ibit = Function.update fs.ibit n false) (used₀ : fs.LiveDentry L s₀) (number : fs.num L s₀ = n)
    (cleared : fs'.num L s₀ = 0 ∧ fs'.name L s₀ = [])
    (front : ∀ m, fs'.ibit m = true → isDir (fs'.inode m) = true →
      ∀ i j, i < j → j < indBlock → ptr (fs'.inode m) j ≠ 0 → ptr (fs'.inode m) i ≠ 0)
    (links : ∀ m, fs'.ibit m = true → isDir (fs'.inode m) = true →
      links (fs'.inode m) + (if s₀.n = m then 1 else 0) = 1 + fs.liveCount L m) : Tree L fs' := by
  have gone : ¬ fs'.LiveDentry L s₀ := by
    rintro ⟨_, positive⟩
    rw [cleared.1] at positive
    exact absurd positive (lt_irrefl _)
  have other {s : Slot} (used : fs'.LiveDentry L s) : s ≠ s₀ := by
    rintro rfl
    exact gone used
  have num {s : Slot} (used : fs'.LiveDentry L s) : fs.LiveDentry L s ∧ fs'.num L s = fs.num L s :=
    ⟨(step.live (other used)).mp used, step.num s used.1 (other used)⟩
  refine ⟨?_, ?_, ?_, front, ?_, ?_⟩
  · intro m inside
    by_cases eq : m = n
    · subst eq
      rw [ibit, Function.update_self]
      refine iff_of_false (by decide) ?_
      rintro (zero | ⟨s, used, holds⟩)
      · have positive := used₀.2
        rw [number, zero] at positive
        exact absurd positive (lt_irrefl _)
      · have same := tree.unique s s₀ (num used).1 used₀ (by rw [← (num used).2, holds, number])
        exact other used same
    · rw [ibit, Function.update_of_ne eq, tree.ibit_iff m inside]
      apply or_congr_right
      constructor
      · rintro ⟨s, used, holds⟩
        have ne : s ≠ s₀ := by
          rintro rfl
          rw [number] at holds
          exact eq (by omega)
        have used' := (step.live ne).mpr used
        exact ⟨s, used', by rw [(num used').2, holds]⟩
      · rintro ⟨s, used, holds⟩
        exact ⟨s, (num used).1, by rw [← (num used).2, holds]⟩
  · intro s s' used used' eq
    rw [(num used).2, (num used').2] at eq
    exact tree.unique s s' (num used).1 (num used').1 eq
  · intro s dentry
    by_cases here : s = s₀
    · rw [here]
      exact .inr cleared
    · rw [step.num s dentry here, step.name s dentry here]
      exact tree.blank s (step.dentry s dentry)
  · intro s s' used used' dir eq
    rw [step.name s used.1 (other used), step.name s' used'.1 (other used')] at eq
    exact tree.names s s' (num used).1 (num used').1 dir eq
  · intro m alive dir
    have count := step.liveCount m
    have new := links m alive dir
    simp only [gone, used₀, and_false, and_true, if_false] at count
    split_ifs at count new <;> omega

end Steps

end Cs537.Wfs
