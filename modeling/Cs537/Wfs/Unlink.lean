import Cs537.Wfs.Removal

/-! # Removing files and directories

`wfs_unlink` and `wfs_rmdir` clear the entry, count down the links of the parent, give the blocks back that they
find, and clear the inode. For a file these are the direct blocks and every block that a number of 4 bytes in the
indirect block is the address of; the indirect block itself stays in use.
-/

namespace Cs537.Wfs

open Lib Memory

variable {L : Layout} {d d' : Disk} {fs : Fs} {name path : Name} {env : Env} {n p k i j : ℕ} {s : Slot}
  {addresses : List ℤ}

section Loops

variable {inode : ℤ} {address : ℕ → ℤ} {P : Disk → Prop} {total : ℕ}

/-- The release loop gives back the blocks at the addresses it works on, if these stay what they are. -/
private theorem releaseLoop_eq (found : ∀ d, P d → ∀ j < total, releaseAddr d inode j = address j)
    (size : ∀ d, P d → ∀ j < total, (j : ℤ) ≤ (d.long (sizeAt inode)).tdiv blockSize)
    (keeps : ∀ d, P d → ∀ j < total, address j ≠ 0 → P (freeBlock d (address j))) (fuel i : ℕ) (all : i + fuel = total)
    (start : P d) : releaseLoop inode fuel i d = freeAll d ((List.range' i fuel).map address) := by
  induction fuel generalizing i d with
  | zero => rfl
  | succ fuel ih =>
    rw [releaseLoop, if_pos (size d start i (by omega)), found d start i (by omega), List.range'_succ, List.map_cons]
    have next : freeAll d (address i :: (List.range' (i + 1) fuel).map address) =
        freeAll (if address i = 0 then d else freeBlock d (address i)) ((List.range' (i + 1) fuel).map address) := rfl
    rw [next]
    refine ih (i + 1) (by omega) ?_
    split_ifs with null
    · exact start
    · exact keeps d start i (by omega) null

/-- The loop over the blocks of an empty directory gives them back. -/
theorem emptyLoop_eq (found : ∀ d, P d → ∀ j < total, d.long (blocksAt inode j) = address j)
    (unused : ∀ d, P d → ∀ j < total, address j ≠ 0 →
      ((List.range dentriesPerBlock).any fun e => decide (d.int (numAt (dentryAt (address j) e)) > 0)) = false)
    (keeps : ∀ d, P d → ∀ j < total, address j ≠ 0 → P (freeBlock d (address j))) (fuel i : ℕ) (all : i + fuel = total)
    (start : P d) : emptyLoop inode fuel i d = (freeAll d ((List.range' i fuel).map address), true) := by
  induction fuel generalizing i d with
  | zero => rfl
  | succ fuel ih =>
    have next : freeAll d ((List.range' i (fuel + 1)).map address) =
        freeAll (if address i = 0 then d else freeBlock d (address i)) ((List.range' (i + 1) fuel).map address) := rfl
    simp only [emptyLoop, found d start i (by omega)]
    rw [next]
    split_ifs with null used
    · exact ih (i + 1) (by omega) start
    · rw [unused d start i (by omega) null] at used
      cases used
    · exact ih (i + 1) (by omega) (keeps d start i (by omega) null)

end Loops

section Addresses

/-- The pointer whose block the release loop gives back in round `i`, where it reads one: behind the direct pointers it
takes every half of an entry for an address. -/
def released (n i : ℕ) : Option Ref :=
  if i < indBlock then some (.ptr n i)
  else if (i - indBlock) % 2 = 0 then some (.entry n ((i - indBlock) / 2)) else none

/-- The block address of round `i`. -/
def releasedAt (L : Layout) (fs : Fs) (n i : ℕ) : ℤ := ((released n i).map (fs.target L)).getD 0

/-- The halves of a number of 8 bytes. -/
private theorem le_halves (m : Memory) (a : ℤ) : m.le a 8 = m.le a 4 + 2 ^ 32 * m.le (a + 4) 4 := by
  have next (w : ℕ) (a : ℤ) : m.le a (w + 1) = (m a).toNat + 256 * m.le (a + 1) w := rfl
  have step (x y : ℤ) : a + x + y = a + (x + y) := add_assoc a x y
  simp only [next, step]
  norm_num
  simp only [show m.le (a + 4) 0 = 0 from rfl, show m.le (a + 8) 0 = 0 from rfl]
  ring

/-- An address below 2^31 is the lower half of the entry that holds it, and the upper half is zero. -/
private theorem int_halves {m : Memory} {a : ℤ} (low : 0 ≤ m.long a) (high : m.long a < 2 ^ 31) :
    m.int a = m.long a ∧ m.int (a + 4) = 0 := by
  have halves := le_halves m a
  have lower := le_lt m a 4
  have wide := le_lt m a 8
  have value : m.long a = m.le a 8 := by
    rw [long] at low high ⊢
    unfold int64 uint64 at low high ⊢
    split_ifs at low high ⊢ <;> omega
  have upper : m.le (a + 4) 4 = 0 := by omega
  rw [int, int, upper, int32_eq (by omega) (by omega), int32_eq (by decide) (by decide), value, halves, upper]
  exact ⟨rfl, rfl⟩

private theorem released_cases {r : Ref} (here : released n i = some r) :
    i < indBlock ∧ r = .ptr n i ∨ ∃ e, i = indBlock + 2 * e ∧ r = .entry n e := by
  rw [released] at here
  by_cases direct : i < indBlock
  · rw [if_pos direct, Option.some.injEq] at here
    exact .inl ⟨direct, here.symm⟩
  · rw [if_neg direct] at here
    by_cases even : (i - indBlock) % 2 = 0
    · rw [if_pos even, Option.some.injEq] at here
      exact .inr ⟨(i - indBlock) / 2, by omega, here.symm⟩
    · rw [if_neg even] at here
      cases here

private theorem released_inj {r : Ref} (first : released n i = some r) (second : released n j = some r) : i = j := by
  rcases released_cases first with ⟨_, rfl⟩ | ⟨e, here, rfl⟩ <;>
    rcases released_cases second with ⟨_, same⟩ | ⟨e', there, same⟩
  · exact (Ref.ptr.inj same).2
  · cases same
  · cases same
  · have := (Ref.entry.inj same).2
    omega

theorem released_owner {r : Ref} (here : released n i = some r) : r.owner = n ∧ r.indirect = false := by
  rcases released_cases here with ⟨small, rfl⟩ | ⟨e, _, rfl⟩
  · exact ⟨rfl, beq_eq_false_iff_ne.mpr small.ne⟩
  · exact ⟨rfl, rfl⟩

private theorem releasedAt_eq {a : ℤ} (here : releasedAt L fs n i = a) (set : a ≠ 0) : ∃ r, released n i = some r ∧
    fs.target L r = a := by
  rw [releasedAt] at here
  cases eq : released n i with
  | none =>
    rw [eq] at here
    exact (set here.symm).elim
  | some r =>
    rw [eq] at here
    exact ⟨r, rfl, here⟩

/-- What the release loop works on, in the image `d'` that it has come to: blocks of data are given back, so the pointers
it has still to follow are those of the image `d` where it began. -/
structure Releasing (L : Layout) (n : ℕ) (d d' : Disk) : Prop where
  super : Super L d'
  inode : (view L d').inode n = (view L d).inode n
  block : ptr ((view L d).inode n) indBlock ≠ 0 →
    (view L d').block ((view L d).indirect L n) = (view L d).block ((view L d).indirect L n)

/-- Below 2^31 the loop takes every address for what it is. -/
theorem Releasing.releaseAddr (releasing : Releasing L n d d') (ordered : Ordered L d) (live : (view L d).ibit n = true)
    (reg : isReg ((view L d).inode n) = true) (low : L.size ≤ 2 ^ 31)
    (small : ptr ((view L d).inode n) indBlock ≠ 0 → i < indBlock + 2 * entriesPerBlock) :
    releaseAddr d' (L.inode n) i = releasedAt L (view L d) n i := by
  have fits := view_ibit_lt live
  have inv := ordered.pointers
  have pointer (i : ℕ) (small : i < 8) : d'.long (blocksAt (L.inode n) i) = ptr ((view L d).inode n) i := by
    rw [long_blocksAt fits small, releasing.inode]
  have bound (r : Ref) : 0 ≤ (view L d).target L r ∧ (view L d).target L r < 2 ^ 31 := by
    by_cases null : (view L d).target L r = 0
    · rw [null]
      decide
    · obtain ⟨k, inside, eq⟩ := inv.valid r null
      obtain ⟨above, below⟩ := L.block_range inside
      have tables := L.tables
      rw [eq]
      omega
  rw [Wfs.releaseAddr, releasedAt, released]
  by_cases direct : i < indBlock
  · have target : (view L d).target L (.ptr n i) = ptr ((view L d).inode n) i :=
      Fs.target_ptr live (by simp only [indBlock] at direct; omega)
    obtain ⟨low, high⟩ := bound (.ptr n i)
    rw [if_pos direct, if_pos direct, pointer i (by simp only [indBlock] at direct; omega), Option.map_some,
      Option.getD_some,
      target]
    rw [target] at low high
    exact int32_eq (by omega) high
  · rw [if_neg direct, if_neg direct, pointer indBlock (by decide)]
    by_cases null : ptr ((view L d).inode n) indBlock = 0
    · rw [if_pos null]
      split_ifs with even
      · exact (Fs.target_of_not_holds fun holds : (view L d).Holds (.entry n _) => holds.2.2.2 null).symm
      · rfl
    · have small := small null
      have holds (e : ℕ) (small : e < entriesPerBlock) : (view L d).Holds (.entry n e) := ⟨live, reg, small, null⟩
      obtain ⟨inside, indirect⟩ := inv.indirect_eq (holds 0 (by decide))
      rw [Fs.target_ptr live (by decide)] at indirect
      have value (e : ℕ) (small : e < entriesPerBlock) :
          (view L d).target L (.entry n e) = ((view L d).block ((view L d).indirect L n)).long (8 * e) :=
        Fs.target_of_holds (holds e small)
      rw [if_neg null, indirect, int_block inside (by omega)
        (by simp only [indBlock, entriesPerBlock] at small ⊢; omega), releasing.block null]
      have half : (i - indBlock) / 2 < entriesPerBlock := by
        simp only [indBlock, entriesPerBlock] at small ⊢
        omega
      obtain ⟨low, high⟩ := bound (.entry n ((i - indBlock) / 2))
      rw [value _ half] at low high
      obtain ⟨lower, upper⟩ := int_halves low high
      split_ifs with even
      · have position : (4 * (i - indBlock : ℕ) : ℤ) = 8 * ((i - indBlock) / 2 : ℕ) := by omega
        rw [position, lower, Option.map_some, Option.getD_some, value _ half]
      · have position : (4 * (i - indBlock : ℕ) : ℤ) = 8 * ((i - indBlock) / 2 : ℕ) + 4 := by omega
        rw [position, upper]
        rfl

/-- The rounds of the release loop. -/
def rounds (page : Memory) : ℕ := (fileSize page / blockSize + 1).toNat

/-- The addresses of a file that its size reaches. -/
def releasedAll (L : Layout) (fs : Fs) (n : ℕ) : List ℤ := (List.range' 0 (rounds (fs.inode n))).map (releasedAt L fs n)

theorem mem_releasedAll : L.block k ∈ releasedAll L fs n ↔
    ∃ i < rounds (fs.inode n), ∃ r, released n i = some r ∧ fs.target L r = L.block k := by
  simp only [releasedAll, List.mem_map, List.mem_range'_1, Nat.zero_le, true_and, Nat.zero_add]
  apply exists_congr
  intro i
  refine and_congr_right fun _ => ⟨fun here => releasedAt_eq here (L.block_ne_zero k), ?_⟩
  rintro ⟨r, here, target⟩
  rw [releasedAt, here]
  exact target

theorem Releasing.free (releasing : Releasing L n d d') (ordered : Ordered L d) (live : (view L d).ibit n = true)
    (reg : isReg ((view L d).inode n) = true) {r : Ref} (data : r.indirect = false) (inside : k < L.blocks)
    (target : (view L d).target L r = L.block k) : Releasing L n d (freeBlock d' (L.block k)) := by
  have freed := releasing.super.freeBlock inside
  refine ⟨releasing.super.of_head (by rw [freed]; rfl), ?_, fun set => ?_⟩
  · rw [freed]
    exact releasing.inode
  · obtain ⟨_, indirect⟩ := ordered.pointers.indirect_eq (n := n) (e := 0) ⟨live, reg, by decide, set⟩
    have apart : (view L d).indirect L n ≠ k := by
      rintro rfl
      have refs := ordered.pointers.unshared _ r (by rw [indirect]; exact L.block_ne_zero _) (indirect.trans target.symm)
      rw [← refs] at data
      cases data
    rw [freed, ← releasing.block set]
    exact Function.update_of_ne apart ..

/-- The release loop gives back the blocks of the file that its size reaches, and nothing else. -/
theorem Ordered.releaseLoop (ordered : Ordered L d) (live : (view L d).ibit n = true)
    (reg : isReg ((view L d).inode n) = true) (low : L.size ≤ 2 ^ 31) (positive : 0 ≤ fileSize ((view L d).inode n))
    (bounded : ptr ((view L d).inode n) indBlock ≠ 0 → fileSize ((view L d).inode n) ≤ maxSize) :
    Super L (releaseLoop (L.inode n) (rounds ((view L d).inode n)) 0 d) ∧
      Freed L (releasedAll L (view L d) n) (view L d)
        (view L (Wfs.releaseLoop (L.inode n) (rounds ((view L d).inode n)) 0 d)) := by
  have few (set : ptr ((view L d).inode n) indBlock ≠ 0) :
      rounds ((view L d).inode n) ≤ indBlock + 2 * entriesPerBlock := by
    have bounded := bounded set
    simp only [rounds, maxSize, blockSize, indBlock, entriesPerBlock] at bounded ⊢
    omega
  have block {a : ℤ} (member : a ∈ releasedAll L (view L d) n) (set : a ≠ 0) :
      ∃ k < L.blocks, a = L.block k ∧ ∃ i r, released n i = some r ∧ (view L d).target L r = L.block k := by
    obtain ⟨i, small, rfl⟩ := List.mem_map.mp member
    obtain ⟨r, here, target⟩ := releasedAt_eq rfl set
    obtain ⟨k, inside, eq⟩ := ordered.pointers.valid r (by rw [target]; exact set)
    exact ⟨k, inside, target.symm.trans eq, i, r, here, eq⟩
  have loop : Wfs.releaseLoop (L.inode n) (rounds ((view L d).inode n)) 0 d = freeAll d (releasedAll L (view L d) n) := by
    refine releaseLoop_eq (P := Releasing L n d) ?_ ?_ ?_ _ 0 (Nat.zero_add _) ⟨ordered.super, rfl, fun _ => rfl⟩
    · intro d' releasing j small
      exact releasing.releaseAddr ordered live reg low fun set => small.trans_le (few set)
    · intro d' releasing j small
      rw [long_sizeAt (view_ibit_lt live), releasing.inode, Int.tdiv_eq_ediv_of_nonneg positive]
      simp only [rounds] at small
      omega
    · intro d' releasing j small set
      obtain ⟨k, inside, eq, _, r, here, target⟩ := block (List.mem_map_of_mem (by simpa using small)) set
      rw [eq]
      exact releasing.free ordered live reg (released_owner here).2 inside target
  rw [loop]
  refine ordered.super.freeAll ?_ ?_
  · intro a member set
    obtain ⟨k, inside, eq, _, r, _, target⟩ := block member set
    exact ⟨k, inside, eq, ordered.pointers.used r k target⟩
  · refine List.pairwise_map.mpr ((List.pairwise_lt_range' 1).imp fun {i j} less set same => ?_)
    obtain ⟨r, first, target⟩ := releasedAt_eq rfl set
    obtain ⟨r', second, target'⟩ := releasedAt_eq same.symm set
    have refs := ordered.pointers.unshared r r' (by rw [target]; exact set) (target.trans target'.symm)
    rw [← refs] at second
    exact less.ne (released_inj first second)

end Addresses

section Clear

/-- The first of the places with the name is found. -/
private theorem findDentry_first {offset : ℤ} (small : j < 32) (here : strcmpEq d (dentryAt offset j) name = true)
    (earlier : ∀ l < j, strcmpEq d (dentryAt offset l) name = false) :
    findDentry d offset name = (d.int (numAt (dentryAt offset j)), some j) := by
  rcases findDentry_cases d offset name with ⟨none, _⟩ | ⟨l, _, there, before, found⟩
  · rw [none j small] at here
    cases here
  · obtain rfl : l = j := by
      rcases lt_trichotomy l j with less | same | more
      · rw [earlier l less] at there
        cases there
      · exact same
      · rw [before j more] at here
        cases here
    exact found

/-- The entry of the directory that the loop over its blocks clears: the first place with the name. -/
structure Spot (L : Layout) (d : Disk) (name : Name) (s : Slot) (k : ℕ) : Prop where
  fits : s.n < L.inodes
  inside : k < L.blocks
  block : s.i < indBlock
  entry : s.j < dentriesPerBlock
  pointer : ptr ((view L d).inode s.n) s.i = L.block k
  positive : 0 < dentryNum ((view L d).block k) s.j
  here : strcmpEq d (dentryAt (L.block k) s.j) name = true
  blocks : ∀ i < s.i, ptr ((view L d).inode s.n) i ≠ 0 →
    ∀ j < 32, strcmpEq d (dentryAt (ptr ((view L d).inode s.n) i) j) name = false
  entries : ∀ j < s.j, strcmpEq d (dentryAt (L.block k) j) name = false

private theorem Located.spot (located : Located L d name s) (ordered : Ordered L d) : ∃ k, Spot L d name s k ∧
    (view L d).target L (.ptr s.n s.i) = L.block k ∧ (view L d).page L s = (view L d).block k := by
  obtain ⟨⟨dentry, positive⟩, here, blocks, entries⟩ := located
  obtain ⟨k, inside, target, pointer, page⟩ := ordered.pointers.page_eq dentry
  rw [Fs.num, page] at positive
  rw [pointer] at here entries
  exact ⟨k, ⟨view_ibit_lt dentry.1, inside, dentry.2.2.1, dentry.2.2.2.1, pointer, positive, here,
    fun i less _ => blocks i less,
    entries⟩, target, page⟩

theorem Spot.clearDentry (spot : Spot L d name s k) (fuel i : ℕ) (all : i + fuel = indBlock) (before : i ≤ s.i) :
    clearDentry name (L.inode s.n) fuel i d = memsetZero d (dentryAt (L.block k) s.j) 32 := by
  have small := spot.block
  induction fuel generalizing i with
  | zero => omega
  | succ fuel ih =>
    have pointer : d.long (blocksAt (L.inode s.n) i) = ptr ((view L d).inode s.n) i :=
      long_blocksAt spot.fits (by simp only [indBlock] at all; omega)
    simp only [Wfs.clearDentry, pointer]
    by_cases last : i = s.i
    · have entry := spot.entry
      have positive := spot.positive
      rw [last, spot.pointer, if_neg (L.block_ne_zero k),
        findDentry_first (by simp only [dentriesPerBlock] at entry; omega) spot.here spot.entries,
        int_dentry spot.inside entry]
      exact if_pos (by omega)
    · have less : i < s.i := by omega
      have next := ih (i + 1) (by omega) (by omega)
      split_ifs with null
      · exact next
      · rcases findDentry_cases d (ptr ((view L d).inode s.n) i) name with ⟨_, _, none⟩ | ⟨j, low, there, _⟩
        · rcases found : findDentry d (ptr ((view L d).inode s.n) i) name with ⟨num, loc⟩
          rw [found] at none
          dsimp only at none
          rw [none]
          exact next
        · rw [spot.blocks i less null j low] at there
          cases there

/-- What clearing an entry does. -/
theorem view_erase (inside : k < L.blocks) (small : j < dentriesPerBlock) :
    view L (memsetZero d (dentryAt (L.block k) j) 32) = (view L d).setBlock k (erase ((view L d).block k) j) := by
  have stored : view L (d.store (dentryAt (L.block k) j + (0 : ℕ)) (List.replicate 32 0)) =
      (view L d).setBlock k (((view L d).block k).store (dentryAt 0 j + (0 : ℕ)) (List.replicate 32 0)) :=
    view_store_dentry inside small (by rw [List.length_replicate])
  rw [Nat.cast_zero, add_zero, add_zero] at stored
  exact stored

/-- An inode with one link less. -/
def lessLink (page : Memory) : Memory := page.setInt (nlinksAt 0) (links page - 1)

theorem links_lessLink (page : Memory) : links (lessLink page) = int32 (links page - 1) := int_setInt ..

theorem lessLink_same (page : Memory) : SamePointers page (lessLink page) := .store (by decide) (by simp [nlinksAt])

theorem fileSize_lessLink (page : Memory) : fileSize (lessLink page) = fileSize page := fileSize_store (.inr (by decide))

private theorem view_lessLink (inside : p < L.inodes) :
    view L (d.setInt (nlinksAt (L.inode p)) (d.int (nlinksAt (L.inode p)) - 1)) =
      (view L d).setInode p (lessLink ((view L d).inode p)) := by
  rw [int_nlinksAt inside, setInt, nlinksAt, lessLink, setInt, nlinksAt, zero_add]
  exact view_store_inode inside (by omega) (by simp)

/-- The directory has one link less, and new times. -/
theorem forgetChild_view (env : Env) (inside : p < L.inodes) :
    ∃ page, view L (forgetChild env d (L.inode p)) = (view L d).setInode p page ∧ SamePointers ((view L d).inode p) page ∧
      fileSize page = fileSize ((view L d).inode p) ∧ links page = int32 (links ((view L d).inode p) - 1) := by
  have first := view_lessLink (d := d) inside
  obtain ⟨page, view, same, count, size⟩ := (updateInodeTimes_meta (d := d.setInt (nlinksAt (L.inode p))
    (d.int (nlinksAt (L.inode p)) - 1)) inside env.now true).page
  have mine : (Wfs.view L (d.setInt (nlinksAt (L.inode p)) (d.int (nlinksAt (L.inode p)) - 1))).inode p =
      lessLink ((Wfs.view L d).inode p) := by
    rw [first]
    exact Function.update_self ..
  rw [mine] at same count size
  refine ⟨page, ?_, (lessLink_same _).trans same, size.trans (fileSize_lessLink _), count.trans (links_lessLink _)⟩
  rw [forgetChild, view, first]
  simp only [Fs.setInode, Function.update_idem]

/-- The entry is cleared and the directory has one link less. -/
theorem Spot.forget (spot : Spot L d name s k) (env : Env) :
    ∃ page, view L (forgetChild env (Wfs.clearDentry name (L.inode s.n) indBlock 0 d) (L.inode s.n)) =
        ((view L d).setBlock k (erase ((view L d).block k) s.j)).setInode s.n page ∧
      SamePointers ((view L d).inode s.n) page ∧ fileSize page = fileSize ((view L d).inode s.n) ∧
      links page = int32 (links ((view L d).inode s.n) - 1) := by
  rw [spot.clearDentry indBlock 0 (Nat.zero_add _) (Nat.zero_le _)]
  obtain ⟨page, view, same, size, count⟩ :=
    forgetChild_view (d := memsetZero d (dentryAt (L.block k) s.j) 32) env spot.fits
  rw [view_erase spot.inside spot.entry] at view same size count
  exact ⟨page, view, same, size, count⟩

/-- The inode is free again. -/
def Fs.dropInode (fs : Fs) (n : ℕ) : Fs := (fs.flipIbit n).setInode n fun _ => 0

theorem dropInode_ibit (live : fs.ibit n = true) : (fs.dropInode n).ibit = Function.update fs.ibit n false := by
  have flipped : (fs.dropInode n).ibit = Function.update fs.ibit n !fs.ibit n := rfl
  rw [flipped, live]
  rfl

private theorem dropInode_inode (ne : i ≠ n) : (fs.dropInode n).inode i = fs.inode i := Function.update_of_ne ne ..

theorem Super.freeInode (super : Super L d) (inside : n < L.inodes) :
    view L (freeInode d (L.inode n) n) = (view L d).dropInode n := by
  have stored (d : Disk) : view L (memsetZero d (L.inode n) blockSize) = (view L d).setInode n fun _ => 0 := by
    have zeroed : view L (d.store (L.inode n + 0) (List.replicate blockSize 0)) =
        (view L d).setInode n (((view L d).inode n).store 0 (List.replicate blockSize 0)) :=
      view_store_inode inside le_rfl (by rw [List.length_replicate, blockSize]; omega)
    rw [add_zero, view_inode inside, blockSize, window_store_zero] at zeroed
    exact zeroed
  rw [Wfs.freeInode, stored, super.iBitmapPtr_eq, view_flipIbit inside]
  rfl

end Clear

section Calls

/-- The entry that a lookup has found. -/
theorem Intact.found (intact : Intact L d) (walkable : Walkable L d path) (found : (findInodeNumberByPath d path).2 = n) :
    ∃ s k, findInodeNumberByPath d path = (↑s.n, ↑n) ∧ (view L d).LiveDentry L s ∧ (view L d).num L s = n ∧
      Spot L d (lastToken path) s k ∧ (view L d).target L (.ptr s.n s.i) = L.block k ∧
      (view L d).page L s = (view L d).block k ∧ (view L d).ibit n = true := by
  rcases intact.lookup walkable with ⟨_, missing⟩ | ⟨p, _, live, _, only, lookup⟩
  · rw [missing] at found
    omega
  · rw [lookup] at found
    dsimp only at found
    rcases only.search intact.ordered live with ⟨missing, _⟩ | ⟨s, rfl, located, result⟩
    · rw [missing] at found
      omega
    · obtain ⟨k, spot, target, page⟩ := located.spot intact.ordered
      have number : (view L d).num L s = n := result.symm.trans found
      obtain ⟨m, eq, alive⟩ := intact.numbers s located.used
      obtain rfl : n = m := Int.ofNat_inj.mp (number.symm.trans eq)
      exact ⟨s, k, by rw [lookup, found], located.used, number, spot, target, page, alive⟩

/-- Where the pieces of a removal come together. -/
theorem Spot.removed {fs' : Fs} (spot : Spot L d name s k) {page : Memory}
    (same : SamePointers ((view L d).inode s.n) page)
    (size : fileSize page = fileSize ((view L d).inode s.n))
    (count : links page = int32 (links ((view L d).inode s.n) - 1))
    (head : fs'.head = (view L d).head) (ibit : fs'.ibit = Function.update (view L d).ibit n false)
    (dbit : ∀ k, fs'.dbit k = true ↔ (view L d).dbit k = true ∧ L.block k ∉ addresses)
    (inode : ∀ m, m ≠ n → fs'.inode m = Function.update (view L d).inode s.n page m)
    (block : ∀ k', fs'.block k' = if L.block k' ∈ addresses then fun _ => 0
      else Function.update (view L d).block k (erase ((view L d).block k) s.j) k')
    (other : L.block k ∉ addresses) : Removed L (view L d) fs' s n addresses := by
  have number : L.blockNo (ptr ((view L d).inode s.n) s.i) = k := by
    rw [spot.pointer, L.blockNo_block]
  have each {m : ℕ} (ne : m ≠ n) : SamePointers ((view L d).inode m) (fs'.inode m) ∧
      fileSize (fs'.inode m) = fileSize ((view L d).inode m) ∧
      links (fs'.inode m) = if s.n = m then int32 (links ((view L d).inode m) - 1) else links ((view L d).inode m) := by
    rw [inode m ne]
    by_cases here : m = s.n
    · subst here
      rw [Function.update_self, if_pos rfl]
      exact ⟨same, size, count⟩
    · rw [Function.update_of_ne here, if_neg (Ne.symm here)]
      exact ⟨⟨fun _ _ => rfl, rfl⟩, rfl, rfl⟩
  refine ⟨head, ibit, dbit, fun m ne => (each ne).1, fun m ne => (each ne).2.1, fun m ne => (each ne).2.2, ?_, ?_, ?_⟩
  · rw [number, block, if_neg other, Function.update_self, Fs.page, number]
  · intro k' kept ne
    rw [block, if_neg kept, Function.update_of_ne (by rwa [number] at ne)]
  · intro k' gone
    rw [block, if_pos gone]

/-- The directory and the file have one link less. -/
theorem Ordered.lessLinks {d₁ d₂ : Disk} (ordered : Ordered L d) (inside : p < L.inodes) (fits : n < L.inodes)
    (apart : p ≠ n)
    (first : forgetChild env d (L.inode p) = d₁)
    (second : d₁.setInt (nlinksAt (L.inode n)) (d₁.int (nlinksAt (L.inode n)) - 1) = d₂) :
    Super L d₁ ∧ Ordered L d₂ ∧ (∀ r, (view L d₂).target L r = (view L d).target L r) ∧
      ∃ page, view L d₂ = ((view L d).setInode p page).setInode n (lessLink ((view L d).inode n)) ∧
        SamePointers ((view L d).inode p) page ∧ fileSize page = fileSize ((view L d).inode p) ∧
        links page = int32 (links ((view L d).inode p) - 1) := by
  obtain ⟨page, forgotten, same, size, count⟩ := forgetChild_view (d := d) env inside
  rw [first] at forgotten
  have super₁ : Super L d₁ := ordered.super.of_head (by rw [forgotten]; rfl)
  have mine : (view L d₁).inode n = (view L d).inode n := by
    rw [forgotten]
    exact Function.update_of_ne apart.symm ..
  have lessened : SamePointers ((view L d₁).inode n) (lessLink ((view L d).inode n)) := by
    rw [mine]
    exact lessLink_same _
  have view₂ : view L d₂ = (view L d₁).setInode n (lessLink ((view L d).inode n)) := by
    rw [← second, view_lessLink fits, mine]
  refine ⟨super₁, ⟨super₁.of_head (by rw [view₂]; rfl), ?_⟩, fun r => ?_, page, by rw [view₂, forgotten], same, size,
    count⟩
  · rw [view₂]
    refine Pointers.setInode ?_ lessened
    rw [forgotten]
    exact ordered.pointers.setInode same
  · rw [view₂, target_setInode lessened, forgotten, target_setInode same]

/-- The image in which the release loop of `wfs_unlink` begins: the entry is cleared, and the directory and the file have
one link less. -/
structure Unlinked (L : Layout) (d d' : Disk) (s : Slot) (k n : ℕ) (page : Memory) : Prop where
  ordered : Ordered L d'
  targets : ∀ r, (view L d').target L r = (view L d).target L r
  view_eq : view L d' = (((view L d).setBlock k (erase ((view L d).block k) s.j)).setInode s.n page).setInode n
    (lessLink ((view L d).inode n))
  same : SamePointers ((view L d).inode s.n) page
  size : fileSize page = fileSize ((view L d).inode s.n)
  count : links page = int32 (links ((view L d).inode s.n) - 1)

theorem Spot.unlinked {d₁ d₂ : Disk} (spot : Spot L d name s k) (ordered : Ordered L d)
    (target : (view L d).target L (.ptr s.n s.i) = L.block k) (fits : n < L.inodes) (apart : s.n ≠ n)
    (first : forgetChild env (Wfs.clearDentry name (L.inode s.n) indBlock 0 d) (L.inode s.n) = d₁)
    (second : d₁.setInt (nlinksAt (L.inode n)) (d₁.int (nlinksAt (L.inode n)) - 1) = d₂) :
    Super L d₁ ∧ ∃ page, Unlinked L d d₂ s k n page := by
  have direct : (Ref.ptr s.n s.i).indirect = false := beq_eq_false_iff_ne.mpr spot.block.ne
  have cleared := view_erase (d := d) spot.inside spot.entry
  rw [spot.clearDentry indBlock 0 (Nat.zero_add _) (Nat.zero_le _)] at first
  have ordered₀ : Ordered L (memsetZero d (dentryAt (L.block k) s.j) 32) := by
    refine ⟨ordered.super.of_head (by rw [cleared]; rfl), ?_⟩
    rw [cleared]
    exact ordered.pointers.setBlock target direct _
  obtain ⟨super₁, ordered₂, targets, page, view₂, same, size, count⟩ :=
    ordered₀.lessLinks spot.fits fits apart first second
  rw [cleared] at targets view₂ same size count
  exact ⟨super₁, page, ordered₂, fun r => (targets r).trans (ordered.pointers.target_setBlock target direct _ r),
    view₂, same,
    size, count⟩

/-- What `wfs_unlink` does with the file once the directory has forgotten it. -/
theorem Ordered.unlink_rest {d₁ d₂ : Disk} (ordered : Ordered L d₂) (super : Super L d) (super₁ : Super L d₁)
    (lookup : findInodeNumberByPath d path = (↑p, ↑n)) (inside : p < L.inodes)
    (first : forgetChild env (Wfs.clearDentry (lastToken path) (L.inode p) indBlock 0 d) (L.inode p) = d₁)
    (second : d₁.setInt (nlinksAt (L.inode n)) (d₁.int (nlinksAt (L.inode n)) - 1) = d₂)
    (live : (view L d₂).ibit n = true)
    (reg : isReg ((view L d₂).inode n) = true) (last : links ((view L d₂).inode n) = 0) (low : L.size ≤ 2 ^ 31)
    (positive : 0 ≤ fileSize ((view L d₂).inode n))
    (bounded : ptr ((view L d₂).inode n) indBlock ≠ 0 → fileSize ((view L d₂).inode n) ≤ maxSize) :
    ∃ fs, view L (unlinkPath env d path).1 = fs.dropInode n ∧ Freed L (releasedAll L (view L d₂) n) (view L d₂) fs := by
  have fits := view_ibit_lt live
  have known : (n : ℤ) ≠ -1 := by omega
  obtain ⟨super₃, freed⟩ := ordered.releaseLoop live reg low positive bounded
  obtain ⟨d₃, loop⟩ : ∃ d₃, Wfs.releaseLoop (L.inode n) (rounds ((view L d₂).inode n)) 0 d₂ = d₃ := ⟨_, rfl⟩
  rw [loop] at super₃ freed
  have run : (unlinkPath env d path).1 = freeInode d₃ (L.inode n) n := by
    have count : ((d₂.long (sizeAt (L.inode n))).tdiv blockSize + 1).toNat = rounds ((view L d₂).inode n) := by
      rw [long_sizeAt fits, Int.tdiv_eq_ediv_of_nonneg positive, rounds]
    have unlinked : d₂.int (nlinksAt (L.inode n)) = 0 := (int_nlinksAt fits).trans last
    simp only [unlinkPath, lookup, if_neg known, super.inodeAt_eq inside, first, super₁.inodeAt_eq fits, second,
      unlinked, count, loop, gt_iff_lt, lt_irrefl, if_false]
  exact ⟨view L d₃, by rw [run, super₃.freeInode fits], freed⟩

/-- A file is removed. -/
theorem Intact.unlink (intact : Intact L d) (walkable : Walkable L d path) (found : (findInodeNumberByPath d path).2 = n)
    (reg : isReg ((view L d).inode n) = true) (low : L.size ≤ 2 ^ 31) (positive : 0 ≤ fileSize ((view L d).inode n))
    (bounded : fileSize ((view L d).inode n) ≤ maxSize) (env : Env) :
    ∃ s, Removable L (view L d) s n (releasedAll L (view L d) n) ∧
      Removed L (view L d) (view L (unlinkPath env d path).1) s n (releasedAll L (view L d) n) := by
  obtain ⟨s, k, lookup, used, number, spot, target, page, live⟩ := intact.found walkable found
  have fits := view_ibit_lt live
  have known : (n : ℤ) ≠ -1 := by omega
  have file : isDir ((view L d).inode n) = false := isDir_of_isReg reg
  have empty (s' : Slot) (used' : (view L d).LiveDentry L s') : s'.n ≠ n := by
    intro same
    rw [← same, used'.1.2.1] at file
    cases file
  have able : Removable L (view L d) s n (releasedAll L (view L d) n) := by
    refine ⟨used, number, fun k member => ?_, empty⟩
    obtain ⟨_, _, r, here, target⟩ := mem_releasedAll.mp member
    exact ⟨r, (released_owner here).1, target⟩
  have apart := empty s used
  obtain ⟨d₁, first⟩ : ∃ d₁, forgetChild env (clearDentry (lastToken path) (L.inode s.n) indBlock 0 d)
    (L.inode s.n) = d₁ :=
    ⟨_, rfl⟩
  obtain ⟨d₂, second⟩ : ∃ d₂, d₁.setInt (nlinksAt (L.inode n)) (d₁.int (nlinksAt (L.inode n)) - 1) = d₂ := ⟨_, rfl⟩
  obtain ⟨super₁, page', unlinked⟩ := spot.unlinked intact.ordered target fits apart first second
  have view₂ := unlinked.view_eq
  have mine : (view L d₂).inode n = lessLink ((view L d).inode n) := by
    rw [view₂]
    exact Function.update_self ..
  have last : links ((view L d₂).inode n) = 0 := by
    rw [mine, links_lessLink, intact.single n live file]
    exact int32_eq (by decide) (by decide)
  have size : fileSize ((view L d₂).inode n) = fileSize ((view L d).inode n) := by
    rw [mine, fileSize_lessLink]
  have all : releasedAll L (view L d₂) n = releasedAll L (view L d) n := by
    have each (i : ℕ) : releasedAt L (view L d₂) n i = releasedAt L (view L d) n i := by
      simp only [releasedAt, funext unlinked.targets]
    rw [releasedAll, releasedAll, rounds, rounds, size, funext each]
  obtain ⟨fs, final, freed⟩ := unlinked.ordered.unlink_rest intact.ordered.super super₁ lookup spot.fits first second
    (by rw [view₂]; exact live) (by rw [mine, isReg, (lessLink_same _).mode]; exact reg) last low
    (by rw [size]; exact positive) fun _ => by rw [size]; exact bounded
  rw [all] at freed
  refine ⟨s, able, ?_⟩
  rw [final]
  refine spot.removed unlinked.same unlinked.size unlinked.count ?_ ?_ ?_ ?_ ?_
    (Removed.kept able intact.ordered.pointers (r := .ptr s.n s.i) apart target)
  · exact freed.head.trans (by rw [view₂]; rfl)
  · have still : fs.ibit = (view L d).ibit := freed.ibit.trans (by rw [view₂]; rfl)
    rw [dropInode_ibit (by rw [still]; exact live), still]
  · intro k
    refine (freed.dbit k).trans ?_
    rw [view₂]
    rfl
  · intro m ne
    rw [dropInode_inode ne, freed.inode, view₂]
    exact Function.update_of_ne ne ..
  · intro k'
    refine (freed.block k').trans ?_
    rw [view₂]
    rfl

/-- The addresses of the blocks of a directory. -/
def directAll (fs : Fs) (n : ℕ) : List ℤ := (List.range' 0 indBlock).map fun i => ptr (fs.inode n) i

private theorem mem_directAll {a : ℤ} : a ∈ directAll fs n ↔ ∃ i < indBlock, ptr (fs.inode n) i = a := by
  simp only [directAll, List.mem_map, List.mem_range'_1, Nat.zero_le, true_and, Nat.zero_add]

/-- The loop over the blocks of a directory without entries in use gives all of them back. -/
theorem Ordered.emptyLoop (ordered : Ordered L d) (live : (view L d).ibit n = true)
    (unused : ∀ i < indBlock, ¬ (view L d).usedBlock L n i) : ∃ d', emptyLoop (L.inode n) indBlock 0 d = (d', true) ∧
      Super L d' ∧ Freed L (directAll (view L d) n) (view L d) (view L d') := by
  have inv := ordered.pointers
  have target {i : ℕ} (small : i < indBlock) : (view L d).target L (.ptr n i) = ptr ((view L d).inode n) i :=
    Fs.target_ptr live (by simp only [indBlock] at small; omega)
  have block {i : ℕ} (small : i < indBlock) (set : ptr ((view L d).inode n) i ≠ 0) :
      ∃ k < L.blocks, ptr ((view L d).inode n) i = L.block k ∧ (view L d).dbit k = true := by
    obtain ⟨k, inside, eq⟩ := inv.valid (.ptr n i) (by rwa [target small])
    exact ⟨k, inside, (target small).symm.trans eq, inv.used _ k eq⟩
  have loop : Wfs.emptyLoop (L.inode n) indBlock 0 d = (freeAll d (directAll (view L d) n), true) := by
    refine emptyLoop_eq (P := fun d' => Super L d' ∧ (view L d').inode = (view L d).inode ∧
      ∀ k, (view L d').block k = (view L d).block k ∨ (view L d').block k = fun _ => 0) ?_ ?_ ?_ indBlock 0
        (Nat.zero_add _)
      ⟨ordered.super, rfl, fun _ => .inl rfl⟩
    · rintro d' ⟨_, inode, _⟩ j small
      rw [long_blocksAt (view_ibit_lt live) (by simp only [indBlock] at small; omega), inode]
    · rintro d' ⟨_, _, pages⟩ j small set
      obtain ⟨k, inside, eq, _⟩ := block small set
      rw [eq]
      apply Bool.eq_false_of_not_eq_true
      rw [any_inUse inside]
      intro used
      rcases pages k with same | zero
      · rw [same] at used
        exact unused j small ⟨set, by rw [eq, L.blockNo_block]; exact used⟩
      · rw [zero] at used
        obtain ⟨e, _, positive⟩ := used
        rw [dentryNum_zero] at positive
        exact lt_irrefl _ positive
    · rintro d' ⟨super, inode, pages⟩ j small set
      obtain ⟨k, inside, eq, _⟩ := block small set
      have freed := super.freeBlock inside
      rw [eq]
      refine ⟨super.of_head (by rw [freed]; rfl), by rw [freed, ← inode]; rfl, fun k' => ?_⟩
      rw [freed]
      by_cases here : k' = k
      · rw [here]
        exact .inr (Function.update_self ..)
      · rw [show (((view L d').flipDbit k).setBlock k fun _ => 0).block k' = (view L d').block k' from
          Function.update_of_ne here ..]
        exact pages k'
  refine ⟨_, loop, ordered.super.freeAll ?_ ?_⟩
  · intro a member set
    obtain ⟨i, small, rfl⟩ := mem_directAll.mp member
    exact block small set
  · have sorted := List.Pairwise.and_mem.mp (List.pairwise_lt_range' (s := 0) (n := indBlock) 1)
    refine List.pairwise_map.mpr (sorted.imp fun {i j} within set same => ?_)
    obtain ⟨first, second, less⟩ := within
    simp only [List.mem_range'_1, Nat.zero_le, true_and, Nat.zero_add] at first second
    have refs := inv.unshared (.ptr n i) (.ptr n j) (by rwa [target first]) (by rw [target first, target second, same])
    exact less.ne (Ref.ptr.inj refs).2

/-- A place of a block that is given back has no name; the other places stay as they are. -/
theorem Freed.strcmpEq (freed : Freed L addresses (view L d) (view L d')) (short : name.length ≤ 31) (clean : 0 ∉ name)
    (some : name ≠ []) (here : strcmpEq d' (dentryAt (L.block k) j) name = true) :
    strcmpEq d (dentryAt (L.block k) j) name = true := by
  have place : dentryAt (L.block k) j = L.block (k + j / 16) + 32 * (j % 16 : ℕ) := by
    simp only [dentryAt, Layout.block]
    omega
  have bytes (x : ℤ) (low : dentryAt (L.block k) j ≤ x) (high : x < dentryAt (L.block k) j + 32) (kept : d' x = d x →
    False) :
      k + j / 16 < L.blocks ∧ L.block (k + j / 16) ∈ addresses := by
    by_cases fits : k + j / 16 < L.blocks
    · refine ⟨fits, ?_⟩
      by_contra other
      have page := freed.block (k + j / 16)
      rw [if_neg other] at page
      exact kept (byte_of_block fits page (by omega) (by omega))
    · have above : L.size ≤ x := by
        rw [place] at low
        simp only [Layout.block, Layout.size] at low ⊢
        omega
      exact (kept (byte_of_tail freed.tail (by omega))).elim
  by_cases gone : k + j / 16 < L.blocks ∧ L.block (k + j / 16) ∈ addresses
  · obtain ⟨fits, member⟩ := gone
    cases name with
    | nil => exact (some rfl).elim
    | cons c name =>
      have first : d' (dentryAt (L.block k) j) = 0 := by
        have page := byte_block (L := L) (d := d') fits (o := 32 * (j % 16 : ℕ)) (by omega) (by omega)
        rw [← place, freed.block, if_pos member] at page
        exact page
      rw [Wfs.strcmpEq, beq_iff_eq] at here
      have head := (List.cons.inj here).1
      rw [first] at head
      exact (clean (by rw [← head]; exact List.mem_cons_self)).elim
  · rw [← here]
    refine (strcmpEq_congr fun x low high => ?_).symm
    by_contra kept
    exact gone (bytes x low (by push_cast at high; omega) kept)

/-- The entry is still where it was when blocks of another inode have been given back. -/
theorem Spot.freed (spot : Spot L d name s k) (freed : Freed L addresses (view L d) (view L d'))
    (short : name.length ≤ 31)
    (clean : 0 ∉ name) (some : name ≠ []) (ordered : Ordered L d) (live : (view L d).ibit s.n = true)
    (other : L.block k ∉ addresses) : Spot L d' name s k := by
  have page : (view L d').block k = (view L d).block k := by
    rw [freed.block, if_neg other]
  have small := spot.entry
  simp only [dentriesPerBlock] at small
  have miss {k j : ℕ} (before : strcmpEq d (dentryAt (L.block k) j) name = false) :
      strcmpEq d' (dentryAt (L.block k) j) name = false := by
    apply Bool.eq_false_of_not_eq_true
    intro after
    rw [freed.strcmpEq short clean some after] at before
    cases before
  refine ⟨spot.fits, spot.inside, spot.block, spot.entry, by rw [freed.inode]; exact spot.pointer,
    by rw [page]; exact spot.positive, ?_, ?_, fun j less => miss (spot.entries j less)⟩
  · rw [← spot.here]
    refine strcmpEq_congr fun x low high => byte_of_block spot.inside page ?_ ?_
    · simp only [dentryAt] at low
      omega
    · simp only [dentryAt] at high
      push_cast at high
      omega
  · intro i less set j low
    rw [freed.inode] at set ⊢
    have target : (view L d).target L (.ptr s.n i) = ptr ((view L d).inode s.n) i := by
      have block := spot.block
      simp only [indBlock] at block
      exact Fs.target_ptr live (by omega)
    obtain ⟨k', _, eq⟩ := ordered.pointers.valid (.ptr s.n i) (by rwa [target])
    rw [target] at eq
    have before := spot.blocks i less set j low
    rw [eq] at before ⊢
    exact miss before

/-- A directory is removed, or nothing happens because it has an entry in use in its first block. -/
theorem Intact.rmdir (intact : Intact L d) (walkable : Walkable L d path) (clean : 0 ∉ path)
    (short : (lastToken path).length ≤ 31) (found : (findInodeNumberByPath d path).2 = n)
    (dir : isDir ((view L d).inode n) = true)
    (first : (∃ i j, (view L d).LiveDentry L ⟨n, i, j⟩) → ∃ j, (view L d).LiveDentry L ⟨n, 0, j⟩) (env : Env) :
    (rmdirPath env d path).1 = d ∨ ∃ s, Removable L (view L d) s n (directAll (view L d) n) ∧
      Removed L (view L d) (view L (rmdirPath env d path).1) s n (directAll (view L d) n) := by
  obtain ⟨s, k, lookup, used, number, spot, target, page, live⟩ := intact.found walkable found
  have fits := view_ibit_lt live
  have known : (n : ℤ) ≠ -1 := by omega
  have super := intact.ordered.super
  by_cases busy : ∃ i j, (view L d).LiveDentry L ⟨n, i, j⟩
  · left
    have begin := (Fs.usedBlock_iff (L := L) live dir (i := 0) (by decide)).mpr (first busy)
    obtain ⟨d', done, loop, finished, _, kept, _⟩ :=
      (Emptied.refl intact.ordered live).emptyLoop intact.ordered.pointers live indBlock (Nat.zero_add _)
    have failed : done = false := by
      apply Bool.eq_false_of_not_eq_true
      intro all
      exact finished.mp all 0 le_rfl (by decide) begin
    simp only [rmdirPath, lookup, if_neg known, super.inodeAt_eq fits, loop, failed]
    exact kept (by decide) begin
  · right
    have empty (s' : Slot) (used' : (view L d).LiveDentry L s') : s'.n ≠ n := by
      rintro rfl
      exact busy ⟨s'.i, s'.j, used'⟩
    have apart := empty s used
    have able : Removable L (view L d) s n (directAll (view L d) n) := by
      refine ⟨used, number, fun k member => ?_, empty⟩
      obtain ⟨i, small, eq⟩ := mem_directAll.mp member
      exact ⟨.ptr n i, rfl, (Fs.target_ptr live (by simp only [indBlock] at small; omega)).trans eq⟩
    have other := Removed.kept able intact.ordered.pointers (r := .ptr s.n s.i) apart target
    obtain ⟨d₁, loop, super₁, freed⟩ := intact.ordered.emptyLoop live fun i small use =>
      busy ⟨i, (Fs.usedBlock_iff live dir small).mp use⟩
    obtain ⟨some, last⟩ := tokens_clean walkable.lastToken_mem clean
    have spot₁ := spot.freed freed short last some intact.ordered used.1.1 other
    obtain ⟨page', forgotten, same, size, count⟩ := spot₁.forget env
    obtain ⟨d₂, begin⟩ : ∃ d₂, forgetChild env (clearDentry (lastToken path) (L.inode s.n) indBlock 0 d₁)
      (L.inode s.n) = d₂ :=
      ⟨_, rfl⟩
    rw [begin] at forgotten
    rw [freed.inode] at same size count
    have super₂ : Super L d₂ := super₁.of_head (by rw [forgotten]; rfl)
    have run : (rmdirPath env d path).1 = freeInode d₂ (L.inode n) n := by
      simp only [rmdirPath, lookup, if_neg known, super.inodeAt_eq fits, loop, super₁.inodeAt_eq spot.fits, begin]
    have final := super₂.freeInode fits
    rw [← run] at final
    refine ⟨s, able, ?_⟩
    rw [final]
    refine spot.removed same size count ?_ ?_ ?_ ?_ ?_ other
    · exact Eq.trans (by rw [forgotten]; rfl) freed.head
    · have still : (view L d₂).ibit = (view L d).ibit := Eq.trans (by rw [forgotten]; rfl) freed.ibit
      rw [dropInode_ibit (by rw [still]; exact live), still]
    · intro k
      refine Iff.trans ?_ (freed.dbit k)
      rw [forgotten]
      rfl
    · intro m ne
      rw [dropInode_inode ne, forgotten, ← freed.inode]
      rfl
    · intro k'
      have pages : ((view L d₂).dropInode n).block k' =
          Function.update (view L d₁).block k (erase ((view L d₁).block k) s.j) k' := by
        rw [forgotten]
        rfl
      rw [pages]
      by_cases here : k' = k
      · rw [here, Function.update_self, if_neg other, Function.update_self, freed.block, if_neg other]
      · rw [Function.update_of_ne here, Function.update_of_ne here]
        exact freed.block k'

end Calls

end Cs537.Wfs
