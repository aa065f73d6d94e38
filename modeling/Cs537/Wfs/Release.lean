import Cs537.Wfs.Check

/-! # Giving blocks back

`wfs_unlink` and `wfs_rmdir` give a block back by flipping its bit and clearing its bytes. The pointer to
it stays where it is. `wfs_rmdir` does so while it is still looking for entries in use, so when it finds
one in a later block, the blocks before it are gone already.
-/

namespace Cs537.Wfs

open Lib Memory

variable {L : Layout} {d d' : Disk} {n k i j : ℕ}

theorem window_store_zero (d : Disk) (a : ℤ) (len : ℕ) :
    (d.window a len).store 0 (List.replicate len 0) = fun _ => 0 := by
  funext x
  rw [store]
  split_ifs with inside
  · rw [List.getD_eq_getElem?_getD, List.getElem?_replicate]
    split_ifs <;> rfl
  · rw [window, if_neg (by simpa using inside)]

/-- Clearing the bytes of a block. -/
private theorem view_clearBlock (inside : k < L.blocks) :
    view L (memsetZero d (L.block k) blockSize) = (view L d).setBlock k fun _ => 0 := by
  have stored : view L (d.store (L.block k + 0) (List.replicate blockSize 0)) =
      (view L d).setBlock k (((view L d).block k).store 0 (List.replicate blockSize 0)) :=
    view_store_block inside le_rfl (by rw [List.length_replicate, blockSize]; omega)
  rw [add_zero, view_block inside, blockSize, window_store_zero] at stored
  exact stored

private theorem Super.blockNumber (super : Super L d) (inside : k < L.blocks) :
    int32 ((L.block k - dBlocksPtr d).tdiv blockSize) = k := by
  have bound := L.blocks_lt
  have quotient : (L.block k - dBlocksPtr d).tdiv blockSize = k := by
    rw [super.dBlocksPtr_eq, Layout.block, add_sub_cancel_left, blockSize, Int.tdiv_eq_ediv_of_nonneg (by omega)]
    omega
  rw [Layout.blocks] at inside
  rw [quotient, int32_eq (by omega) (by omega)]

/-- Giving a block back flips its bit and clears its bytes. -/
theorem Super.freeBlock (super : Super L d) (inside : k < L.blocks) :
    view L (freeBlock d (L.block k)) = ((view L d).flipDbit k).setBlock k fun _ => 0 := by
  rw [Wfs.freeBlock, view_clearBlock inside, super.blockNumber inside, super.dBitmapPtr_eq, view_flipDbit inside]

/-- The entries of a block that are in use. -/
def inUse (page : Memory) : Prop := ∃ e < dentriesPerBlock, 0 < dentryNum page e

instance (page : Memory) : Decidable (inUse page) := inferInstanceAs (Decidable (∃ e < _, _))

theorem any_inUse (inside : k < L.blocks) :
    ((List.range dentriesPerBlock).any fun e => decide (d.int (numAt (dentryAt (L.block k) e)) > 0)) = true ↔
      inUse ((view L d).block k) := by
  simp only [List.any_eq_true, List.mem_range, decide_eq_true_eq, inUse]
  apply exists_congr
  intro e
  apply and_congr_right
  intro small
  rw [int_dentry inside small]

/-- A block of a directory has an entry in use. -/
def Fs.usedBlock (L : Layout) (fs : Fs) (n i : ℕ) : Prop :=
  ptr (fs.inode n) i ≠ 0 ∧ inUse (fs.block (L.blockNo (ptr (fs.inode n) i)))

/-- The image while the loop of `wfs_rmdir` is at block `i`: the blocks before it may be gone, the rest of
the directory is as it was. -/
structure Emptied (L : Layout) (n i : ℕ) (d d' : Disk) : Prop where
  super : Super L d'
  inode : (view L d').inode = (view L d).inode
  dbit : ∀ k, (view L d').dbit k = true → (view L d).dbit k = true
  later : ∀ j, i ≤ j → j < indBlock → ptr ((view L d).inode n) j ≠ 0 →
    (view L d').block (L.blockNo (ptr ((view L d).inode n) j)) =
      (view L d).block (L.blockNo (ptr ((view L d).inode n) j)) ∧
    (view L d').dbit (L.blockNo (ptr ((view L d).inode n) j)) = true

theorem Emptied.next (emptied : Emptied L n i d d') : Emptied L n (i + 1) d d' :=
  ⟨emptied.super, emptied.inode, emptied.dbit, fun j above => emptied.later j (by omega)⟩

/-- The loop gives a block back. -/
theorem Emptied.free (emptied : Emptied L n i d d') (inv : Pointers L (view L d)) (live : (view L d).ibit n = true)
    (inside : k < L.blocks) (small : i < indBlock) (here : ptr ((view L d).inode n) i = L.block k) :
    Emptied L n (i + 1) d (freeBlock d' (L.block k)) ∧ (view L (freeBlock d' (L.block k))).dbit k = false := by
  have freed := emptied.super.freeBlock inside
  have dbit : (view L (freeBlock d' (L.block k))).dbit = Function.update (view L d').dbit k !(view L d').dbit k := by
    rw [freed]
    rfl
  have used : (view L d').dbit k = true := by
    have mine := (emptied.later i le_rfl small (by rw [here]; exact L.block_ne_zero k)).2
    rwa [here, L.blockNo_block] at mine
  have clear : (view L (freeBlock d' (L.block k))).dbit k = false := by
    rw [dbit, Function.update_self, used]
    rfl
  refine ⟨⟨?_, ?_, ?_, ?_⟩, clear⟩
  · exact emptied.super.of_head (by rw [freed]; rfl)
  · rw [freed, ← emptied.inode]
    rfl
  · intro k' used'
    have apart : k' ≠ k := by
      rintro rfl
      rw [clear] at used'
      cases used'
    rw [dbit, Function.update_of_ne apart] at used'
    exact emptied.dbit k' used'
  · intro j above below set
    have apart : L.blockNo (ptr ((view L d).inode n) j) ≠ k := by
      have target (i : ℕ) (small : i < indBlock) : (view L d).target L (.ptr n i) = ptr ((view L d).inode n) i :=
        Fs.target_ptr live (by simp only [indBlock] at small; omega)
      obtain ⟨k', _, eq⟩ := inv.valid (.ptr n j) (by rw [target j below]; exact set)
      rw [← target j below, eq, L.blockNo_block]
      rintro rfl
      have refs := inv.unshared (.ptr n j) (.ptr n i) (by rw [eq]; exact L.block_ne_zero k')
        (by rw [eq, target i small, here])
      have := (Ref.ptr.inj refs).2
      omega
    obtain ⟨block, bit⟩ := emptied.later j (by omega) below set
    refine ⟨?_, ?_⟩
    · have updated : (view L (freeBlock d' (L.block k))).block = Function.update (view L d').block k fun _ => 0 := by
        rw [freed]
        rfl
      rw [updated, Function.update_of_ne apart, block]
    · rw [dbit, Function.update_of_ne apart, bit]

/-- The loop over the blocks of a directory: it ends at the first block with an entry in use, and otherwise
gives all of them back. -/
theorem Emptied.emptyLoop (inv : Pointers L (view L d)) (live : (view L d).ibit n = true) (fuel : ℕ)
    (all : i + fuel = indBlock) (emptied : Emptied L n i d d') :
    ∃ d'' done, emptyLoop (L.inode n) fuel i d' = (d'', done) ∧
      (done = true ↔ ∀ j, i ≤ j → j < indBlock → ¬ (view L d).usedBlock L n j) ∧
      (∀ k, (view L d'').dbit k = true → (view L d').dbit k = true) ∧
      (i < indBlock → (view L d).usedBlock L n i → d'' = d') ∧
      (∀ k, i < indBlock → ptr ((view L d).inode n) i = L.block k → ¬ (view L d).usedBlock L n i →
        (view L d'').dbit k = false) := by
  induction fuel generalizing i d' with
  | zero =>
    refine ⟨d', true, rfl, ?_, fun _ => id, fun small => by omega, fun _ small => by omega⟩
    exact iff_of_true rfl fun j above below => by omega
  | succ fuel ih =>
    have small : i < indBlock := by omega
    have pointer : d'.long (blocksAt (L.inode n) i) = ptr ((view L d).inode n) i := by
      rw [long_blocksAt (view_ibit_lt live) (by simp only [indBlock] at small; omega), emptied.inode]
    have split (skip : ¬ (view L d).usedBlock L n i) :
        (∀ j, i + 1 ≤ j → j < indBlock → ¬ (view L d).usedBlock L n j) ↔
          ∀ j, i ≤ j → j < indBlock → ¬ (view L d).usedBlock L n j := by
      constructor
      · intro later j above below
        by_cases first : j = i
        · rw [first]
          exact skip
        · exact later j (by omega) below
      · intro later j above
        exact later j (by omega)
    simp only [Wfs.emptyLoop, pointer]
    by_cases null : ptr ((view L d).inode n) i = 0
    · rw [if_pos null]
      obtain ⟨d'', done, loop, finished, cleared, _⟩ := ih (by omega) emptied.next
      refine ⟨d'', done, loop, finished.trans ?_, cleared, fun _ used => (used.1 null).elim, ?_⟩
      · exact split fun used => used.1 null
      · intro k _ here
        exact (L.block_ne_zero k (here.symm.trans null)).elim
    · rw [if_neg null]
      have target : (view L d).target L (.ptr n i) = ptr ((view L d).inode n) i :=
        Fs.target_ptr live (by simp only [indBlock] at small; omega)
      obtain ⟨k, inside, eq⟩ := inv.valid (.ptr n i) (by rwa [target])
      rw [target] at eq
      have page : (view L d').block k = (view L d).block k := by
        have same := (emptied.later i le_rfl small null).1
        rwa [eq, L.blockNo_block] at same
      have used : (view L d).usedBlock L n i ↔ inUse ((view L d).block k) := by
        rw [Fs.usedBlock, eq, L.blockNo_block]
        exact and_iff_right (L.block_ne_zero k)
      rw [eq]
      by_cases busy : inUse ((view L d).block k)
      · rw [if_pos ((any_inUse inside).mpr (by rw [page]; exact busy))]
        refine ⟨d', false, rfl, ?_, fun _ => id, fun _ _ => rfl, fun _ _ _ unused => (unused (used.mpr busy)).elim⟩
        exact iff_of_false (by decide) fun none => none i le_rfl small (used.mpr busy)
      · rw [if_neg (mt (any_inUse inside).mp (by rw [page]; exact busy))]
        obtain ⟨next, clear⟩ := emptied.free inv live inside small eq
        obtain ⟨d'', done, loop, finished, cleared, _⟩ := ih (by omega) next
        have lost : (view L d'').dbit k = false := by
          apply Bool.eq_false_of_not_eq_true
          intro still
          have before := cleared k still
          rw [clear] at before
          cases before
        refine ⟨d'', done, loop, finished.trans (split (mt used.mp busy)), ?_,
          fun _ mine => (busy (used.mp mine)).elim, fun k' _ here _ => by rw [← L.block_inj here]; exact lost⟩
        intro k' still
        have before := cleared k' still
        rw [emptied.super.freeBlock inside] at before
        change Function.update (view L d').dbit k (!(view L d').dbit k) k' = true at before
        by_cases eq' : k' = k
        · rw [eq', lost] at still
          cases still
        · rwa [Function.update_of_ne eq'] at before

theorem Emptied.refl (ordered : Ordered L d) (live : (view L d).ibit n = true) : Emptied L n 0 d d := by
  refine ⟨ordered.super, rfl, fun _ => id, ?_⟩
  intro j _ small set
  refine ⟨rfl, ?_⟩
  have target : (view L d).target L (.ptr n j) = ptr ((view L d).inode n) j :=
    Fs.target_ptr live (by simp only [indBlock] at small; omega)
  obtain ⟨k, _, eq⟩ := ordered.pointers.valid (.ptr n j) (by rwa [target])
  rw [← target, eq, L.blockNo_block]
  exact ordered.pointers.used _ k eq

theorem Fs.usedBlock_iff {fs : Fs} (live : fs.ibit n = true) (dir : isDir (fs.inode n) = true) (small : i < indBlock) :
    fs.usedBlock L n i ↔ ∃ j, fs.LiveDentry L ⟨n, i, j⟩ := by
  simp only [usedBlock, inUse, Fs.LiveDentry, Fs.IsDentry, Fs.num, Fs.page, live, dir, small, true_and]
  constructor
  · rintro ⟨set, e, inside, positive⟩
    exact ⟨e, ⟨inside, set⟩, positive⟩
  · rintro ⟨e, ⟨inside, set⟩, positive⟩
    exact ⟨set, e, inside, positive⟩

/-- In a well-formed image, for a path that the lookup resolves to a directory: `wfs_rmdir` returns, and changes
nothing when it returns an error, exactly when the path fits and the first block of the directory has an entry
in use or no block has one. -/
theorem rmdir_failure_unchanged_iff (wf : WellFormed L d) {path : Name}
    (found : (findInodeNumberByPath d path).2 = n) (live : (view L d).ibit n = true)
    (dir : isDir ((view L d).inode n) = true) (env : Env) :
    (∃ r, wfsRmdir env d path = some r ∧ (r.2 < 0 → r.1 = d)) ↔ path.length < tmpPath ∧
      ((∃ i j, (view L d).LiveDentry L ⟨n, i, j⟩) → ∃ j, (view L d).LiveDentry L ⟨n, 0, j⟩) := by
  rw [wfsRmdir, exists_map_strcpyPath, and_congr_right_iff]
  rintro -
  have inside := view_ibit_lt live
  have known : (n : ℤ) ≠ -1 := by omega
  have pointers := wf.ordered.pointers
  have first : (∃ j, (view L d).LiveDentry L ⟨n, 0, j⟩) ↔ (view L d).usedBlock L n 0 :=
    (Fs.usedBlock_iff live dir (by decide)).symm
  have any : (∃ i j, (view L d).LiveDentry L ⟨n, i, j⟩) ↔ ∃ i < indBlock, (view L d).usedBlock L n i := by
    constructor
    · rintro ⟨i, j, entry⟩
      exact ⟨i, entry.1.2.2.1, (Fs.usedBlock_iff live dir entry.1.2.2.1).mpr ⟨j, entry⟩⟩
    · rintro ⟨i, small, used⟩
      exact ⟨i, (Fs.usedBlock_iff live dir small).mp used⟩
  rw [any, first]
  obtain ⟨d', done, loop, finished, _, kept, lost⟩ :=
    (Emptied.refl wf.ordered live).emptyLoop pointers live indBlock (Nat.zero_add _)
  have ret : (rmdirPath env d path).2 < 0 ↔ done = false := by
    simp only [rmdirPath, found, if_neg known, wf.super.inodeAt_eq inside, loop]
    cases done with
    | false =>
      refine iff_of_true ?_ rfl
      change -enotempty < 0
      decide
    | true => exact iff_of_false (lt_irrefl _) (by decide)
  have image (failed : done = false) : (rmdirPath env d path).1 = d' := by
    simp only [rmdirPath, found, if_neg known, wf.super.inodeAt_eq inside, loop, failed]
  rw [ret]
  constructor
  · rintro unchanged ⟨i, small, used⟩
    have failed : done = false := by
      apply Bool.eq_false_of_not_eq_true
      intro all
      exact finished.mp all i (Nat.zero_le i) small used
    have same : d' = d := (image failed).symm.trans (unchanged failed)
    have set : ptr ((view L d).inode n) 0 ≠ 0 := by
      by_cases zero : i = 0
      · rw [← zero]
        exact used.1
      · exact wf.front n live dir 0 i (Nat.pos_of_ne_zero zero) small used.1
    by_contra empty
    obtain ⟨k, inside, eq⟩ := wf.valid (.ptr n 0) (by rw [Fs.target_ptr live (by decide)]; exact set)
    have bit := (wf.dbit_iff k inside).mpr ⟨_, eq⟩
    rw [Fs.target_ptr live (by decide)] at eq
    have gone := lost k (by decide) eq empty
    rw [same, bit] at gone
    cases gone
  · rintro condition failed
    have some : ∃ i < indBlock, (view L d).usedBlock L n i := by
      by_contra none
      have all := finished.mpr fun i _ small used => none ⟨i, small, used⟩
      rw [failed] at all
      cases all
    rw [image failed]
    exact kept (by decide) (condition some)

/-- The directory `/d` has two blocks; what was in the first is deleted, the second has the file `x`. -/
def secondBlockUsed : List (ℤ × List UInt8) :=
  [(0, leBytes 8 32 ++ leBytes 8 32 ++ leBytes 8 48 ++ leBytes 8 52 ++ leBytes 8 56 ++ leBytes 8 16440),
    (48, leBytes 4 7), (52, leBytes 4 7),
    (60, leBytes 4 0o40777), (80, leBytes 4 2), (112, leBytes 8 16440),
    (568, leBytes 4 1), (572, leBytes 4 0o40755), (592, leBytes 4 2), (624, leBytes 8 16952), (632, leBytes 8 17464),
    (1080, leBytes 4 2), (1084, leBytes 4 0o100644), (1104, leBytes 4 1),
    (16440, [100]), (16468, leBytes 4 1), (17464, [120]), (17492, leBytes 4 2)]

/-- The image is well formed; what the lookups of `/` and `/d` find, and what `rmdir` makes of them. -/
theorem secondBlockUsed_words : WellFormed smallLayout (image secondBlockUsed) ∧
    ((rmdirPath ⟨0, 0, 0⟩ (image secondBlockUsed) [47]).2 = -enotempty ∧
      (findInodeNumberByPath (image secondBlockUsed) [47]).2 = (0 : ℕ) ∧
      (view smallLayout (image secondBlockUsed)).ibit 0 = true ∧
      isDir ((view smallLayout (image secondBlockUsed)).inode 0) = true ∧
      (view smallLayout (image secondBlockUsed)).LiveDentry smallLayout ⟨0, 0, 0⟩) ∧
    (findInodeNumberByPath (image secondBlockUsed) [47, 100]).2 = (1 : ℕ) ∧
    (view smallLayout (image secondBlockUsed)).ibit 1 = true ∧
    isDir ((view smallLayout (image secondBlockUsed)).inode 1) = true ∧
    (rmdirPath ⟨0, 0, 0⟩ (image secondBlockUsed) [47, 100]).2 < 0 ∧ image secondBlockUsed 52 = 7 ∧
    (rmdirPath ⟨0, 0, 0⟩ (image secondBlockUsed) [47, 100]).1 52 = 5 :=
  ⟨wellFormed_image (by decide +kernel) (by decide +kernel) (by decide +kernel), by decide +kernel⟩

/-- The root directory has its entry in the first block: `rmdir` of the root fails and changes nothing. -/
theorem rmdir_failure_unchanged_root :
    wfsRmdir ⟨0, 0, 0⟩ (image secondBlockUsed) [47] = some (image secondBlockUsed, -enotempty) := by
  obtain ⟨wf, ⟨ret, found, live, dir, entry⟩, _⟩ := secondBlockUsed_words
  obtain ⟨r, removed, unchanged⟩ :=
    (rmdir_failure_unchanged_iff wf found live dir ⟨0, 0, 0⟩).mpr ⟨by decide, fun _ => ⟨0, entry⟩⟩
  obtain ⟨_, rfl⟩ := map_strcpyPath_eq_some.mp removed
  rw [removed]
  refine congrArg some (Prod.ext (unchanged ?_) ret)
  rw [ret]
  decide

/-- `rmdir` of `/d` fails and has given the first block back. -/
theorem rmdir_failure_block_lost : ∃ (L : Layout) (d : Disk) (path : Name) (n : ℕ), WellFormed L d ∧
    (findInodeNumberByPath d path).2 = n ∧ (view L d).ibit n = true ∧ isDir ((view L d).inode n) = true ∧
    ∃ r, wfsRmdir ⟨0, 0, 0⟩ d path = some r ∧ r.2 < 0 ∧ r.1 ≠ d := by
  obtain ⟨wf, _, found, live, dir, failed, before, after⟩ := secondBlockUsed_words
  refine ⟨smallLayout, image secondBlockUsed, [47, 100], 1, wf, found, live, dir,
    _, map_strcpyPath (by decide), failed, fun same => ?_⟩
  rw [same, before] at after
  cases after

end Cs537.Wfs
