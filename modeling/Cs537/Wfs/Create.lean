import Cs537.Wfs.Search

/-! # Creating a file or a directory

A new file takes the first unused entry of the blocks of its directory, or of a block that the directory
gets for it, and the lowest free inode number. Where the loop over the blocks gives up, the directory may
still have got a block.
-/

namespace Cs537.Wfs

open Lib Memory

variable {L : Layout} {d d' : Disk} {fs : Fs} {name : Name} {env : Env} {n p k i j mode : ℕ} {s : Slot}

/-- An entry is filled. -/
def putDentry (page : Memory) (j : ℕ) (name : Name) (num : ℤ) : Memory :=
  (page.store (dentryAt 0 j) (name ++ [0])).setInt (numAt (dentryAt 0 j)) num

/-- `nlinks++`. -/
def bump (page : Memory) : Memory := page.setInt (nlinksAt 0) (links page + 1)

/-- A new file, seen in the parts of the image. -/
def Fs.create (fs : Fs) (p k j : ℕ) (name : Name) (n : ℕ) (bytes : List UInt8) : Fs :=
  let fs := (fs.setBlock k (putDentry (fs.block k) j name n)).setInode n ((fs.inode n).store 0 bytes)
  (fs.flipIbit n).setInode p (bump (fs.inode p))

theorem view_store_dentry (inside : k < L.blocks) (small : j < dentriesPerBlock) {o : ℕ} {bytes : List UInt8}
    (fits : o + bytes.length ≤ 32) : view L (d.store (dentryAt (L.block k) j + o) bytes) =
      (view L d).setBlock k (((view L d).block k).store (dentryAt 0 j + o) bytes) := by
  simp only [dentriesPerBlock] at small
  have stored : view L (d.store (L.block k + (32 * j + o)) bytes) =
      (view L d).setBlock k (((view L d).block k).store (32 * j + o) bytes) :=
    view_store_block inside (by omega) (by omega)
  simp only [dentryAt, add_assoc, zero_add]
  exact stored

private theorem setBlock_setBlock (fs : Fs) (k : ℕ) (page page' : Memory) :
    (fs.setBlock k page).setBlock k page' = fs.setBlock k page' := by
  simp [Fs.setBlock]

private theorem view_putDentry (inside : k < L.blocks) (small : j < dentriesPerBlock) (short : name.length < 32) (num : ℤ) :
    view L ((d.store (dentryAt (L.block k) j) (name ++ [0])).setInt (numAt (dentryAt (L.block k) j)) num) =
      (view L d).setBlock k (putDentry ((view L d).block k) j name num) := by
  have first := view_store_dentry (L := L) (d := d) (o := 0) inside small
    (show 0 + (name ++ [0]).length ≤ 32 by simp; omega)
  have second := view_store_dentry (L := L) (d := d.store (dentryAt (L.block k) j) (name ++ [0])) (o := 28) inside small
    (show 28 + (leBytes 4 (uint32 num)).length ≤ 32 by simp)
  simp only [Nat.cast_zero, add_zero] at first
  rw [setInt, numAt]
  refine second.trans ?_
  rw [first, setBlock_setBlock]
  congr 1
  simp [Fs.setBlock, putDentry, setInt, numAt]

private theorem view_bump (inside : p < L.inodes) :
    view L (d.setInt (nlinksAt (L.inode p)) (d.int (nlinksAt (L.inode p)) + 1)) =
      (view L d).setInode p (bump ((view L d).inode p)) := by
  rw [int_nlinksAt inside, setInt, nlinksAt, bump, setInt, nlinksAt, zero_add]
  exact view_store_inode inside (by omega) (by simp)

/-- Without a free inode nothing happens. -/
theorem Super.fillDentry_full (super : Super L d) (full : lowestClear (view L d).ibit L.inodes = none) (env : Env)
    (mode : ℕ)
    (name : Name) (parent dentry : ℤ) : fillDentry env mode name parent dentry d = (d, -enospc) := by
  have allocated := super.allocate_inode
  rw [full] at allocated
  simp only [Wfs.fillDentry, allocated, if_true]

/-- The body behind `dentry->num == 0`. -/
theorem Super.fillDentry (super : Super L d) (env : Env) (mode : ℕ) (inside : p < L.inodes) (fits : k < L.blocks)
    (small : j < dentriesPerBlock) (short : name.length < 32) :
    (lowestClear (view L d).ibit L.inodes = none ∧
        fillDentry env mode name (L.inode p) (dentryAt (L.block k) j) d = (d, -enospc)) ∨
      ∃ n, lowestClear (view L d).ibit L.inodes = some n ∧
        (fillDentry env mode name (L.inode p) (dentryAt (L.block k) j) d).2 = 0 ∧
        view L (fillDentry env mode name (L.inode p) (dentryAt (L.block k) j) d).1 =
          (view L d).create p k j name n (inodeBytes env n mode) := by
  have allocated := super.allocate_inode
  cases lowest : lowestClear (view L d).ibit L.inodes with
  | none => exact .inl ⟨rfl, super.fillDentry_full lowest ..⟩
  | some n =>
    rw [lowest] at allocated
    obtain ⟨bound, _⟩ := lowestClear_eq_some lowest
    have known : (n : ℤ) ≠ -1 := by omega
    right
    refine ⟨n, rfl, ?_⟩
    simp only [Wfs.fillDentry, allocated, if_neg known, true_and]
    have first := view_putDentry (d := d) fits small short n
    generalize (d.store (dentryAt (L.block k) j) (name ++ [0])).setInt (numAt (dentryAt (L.block k) j)) n = d₁ at first ⊢
    have super₁ : Super L d₁ := super.of_head (by rw [first]; rfl)
    have second : view L (d₁.store (L.inode n + 0) (inodeBytes env n mode)) =
        (view L d₁).setInode n (((view L d₁).inode n).store 0 (inodeBytes env n mode)) :=
      view_store_inode bound le_rfl (by simp [inodeBytes])
    rw [add_zero, ← super₁.inodeAt_eq bound] at second
    generalize d₁.store (inodeAt d₁ n) (inodeBytes env n mode) = d₂ at second ⊢
    have super₂ : Super L d₂ := super₁.of_head (by rw [second]; rfl)
    have third := view_flipIbit (d := d₂) bound
    rw [← super₂.iBitmapPtr_eq] at third
    generalize flipBitInBitmap d₂ (iBitmapPtr d₂) n = d₃ at third ⊢
    rw [view_bump inside, third, second, first]
    rfl

section NewInode

variable {page : Memory}

theorem ptr_newInode (num : ℤ) (small : i < 8) : ptr (page.store 0 (inodeBytes env num mode)) i = 0 := by
  have zero : (page.store 0 (inodeBytes env num mode)).le (blocksAt 0 i) 8 = Memory.le (fun _ => 0) (blocksAt 0 i) 8 := by
    apply le_congr
    intro x above below
    simp only [blocksAt] at above below
    have position : x.toNat - 56 < 64 := by omega
    rw [store_inside (by omega)
      (by simp only [inodeBytes, List.length_append, length_leBytes, List.length_replicate]; omega),
      inodeBytes, List.getD_eq_getElem?_getD,
      List.getElem?_append_right (by simp only [List.length_append, length_leBytes]; omega),
      List.getElem?_replicate]
    split_ifs <;> rfl
  rw [ptr, long, zero, ← long, long_zero]

/-- A field of the new inode. -/
theorem le_newInode {num o : ℤ} {front back : List UInt8} {w v : ℕ}
    (split : inodeBytes env num mode = front ++ leBytes w v ++ back) (position : o = front.length) :
    (page.store 0 (inodeBytes env num mode)).le o w = v % 256 ^ w := by
  have part := le_store_part page 0 front back w v
  rwa [zero_add, ← position, ← split] at part

theorem links_newInode (num : ℤ) : links (page.store 0 (inodeBytes env num mode)) = 1 := by
  have split : inodeBytes env num mode = (leBytes 4 (uint32 num) ++ leBytes 4 mode ++ leBytes 4 (uint32 env.uid) ++
      leBytes 4 (uint32 env.gid) ++ leBytes 8 0) ++ leBytes 4 1 ++ (leBytes 4 0 ++ leBytes 8 (uint64 env.now) ++
      leBytes 8 (uint64 env.now) ++ leBytes 8 (uint64 env.now) ++ List.replicate 64 0) := by
    simp only [inodeBytes, List.append_assoc]
  rw [links, int, le_newInode split (by simp [nlinksAt]), int32_eq (by decide) (by decide)]
  rfl

theorem fileSize_newInode (num : ℤ) : fileSize (page.store 0 (inodeBytes env num mode)) = 0 := by
  have split : inodeBytes env num mode = (leBytes 4 (uint32 num) ++ leBytes 4 mode ++ leBytes 4 (uint32 env.uid) ++
      leBytes 4 (uint32 env.gid)) ++ leBytes 8 0 ++ (leBytes 4 1 ++ leBytes 4 0 ++ leBytes 8 (uint64 env.now) ++
      leBytes 8 (uint64 env.now) ++ leBytes 8 (uint64 env.now) ++ List.replicate 64 0) := by
    simp only [inodeBytes, List.append_assoc]
  rw [fileSize, long, le_newInode split (by simp [sizeAt]), int64_eq (by decide) (by decide)]
  rfl

theorem fileMode_newInode (num : ℤ) : fileMode (page.store 0 (inodeBytes env num mode)) = mode % 2 ^ 32 := by
  have split : inodeBytes env num mode = leBytes 4 (uint32 num) ++ leBytes 4 mode ++ (leBytes 4 (uint32 env.uid) ++
      leBytes 4 (uint32 env.gid) ++ leBytes 8 0 ++ leBytes 4 1 ++ leBytes 4 0 ++ leBytes 8 (uint64 env.now) ++
      leBytes 8 (uint64 env.now) ++ leBytes 8 (uint64 env.now) ++ List.replicate 64 0) := by
    simp only [inodeBytes, List.append_assoc]
  rw [fileMode, le_newInode split (by simp [modeAt])]
  norm_num

theorem bump_same : SamePointers page (bump page) := .store (by decide) (by simp [nlinksAt])

theorem links_bump : links (bump page) = int32 (links page + 1) := int_setInt ..

theorem fileSize_bump : fileSize (bump page) = fileSize page := fileSize_store (.inr (by decide))

end NewInode

section NewDentry

variable {page : Memory} {num : ℤ}

theorem putDentry_outside (short : name.length < 32) {x : ℤ} (outside : x < 32 * j ∨ 32 * j + 32 ≤ x) :
    putDentry page j name num x = page x := by
  rw [putDentry, setInt, store_outside (by simp only [numAt, dentryAt, length_leBytes]; omega),
    store_outside (by simp only [dentryAt, List.length_append, List.length_singleton]; push_cast; omega)]

theorem dentryNum_putDentry : dentryNum (putDentry page j name num) j = int32 num := int_setInt ..

theorem dentryName_putDentry (short : name.length ≤ 27) (clean : 0 ∉ name) :
    dentryName (putDentry page j name num) j = name := by
  rw [dentryName, takeWhile_eq_iff (by rw [length_load]; omega) clean, take_load _ _ (by omega)]
  have kept : (putDentry page j name num).load (dentryAt 0 j) (name.length + 1) =
      (page.store (dentryAt 0 j) (name ++ [0])).load (dentryAt 0 j) (name.length + 1) := by
    apply load_congr
    intro x above below
    rw [putDentry, setInt, store_outside (by simp only [numAt]; push_cast at below; omega)]
  have length : name.length + 1 = (name ++ [0]).length := by simp
  rw [kept, length, load_store]

theorem putDentry_of_ne {l : ℕ} (short : name.length < 32) (ne : l ≠ j) :
    (putDentry page j name num).load (dentryAt 0 l) 32 = page.load (dentryAt 0 l) 32 := by
  apply load_congr
  intro x above below
  simp only [dentryAt] at above below
  exact putDentry_outside short (by omega)

/-- An entry is its 32 bytes. -/
theorem dentry_of_load {page' : Memory} (same : page'.load (dentryAt 0 j) 32 = page.load (dentryAt 0 j) 32) :
    dentryNum page' j = dentryNum page j ∧ dentryName page' j = dentryName page j := by
  have byte (x : ℤ) (above : dentryAt 0 j ≤ x) (below : x < dentryAt 0 j + 32) : page' x = page x := by
    have position : x = dentryAt 0 j + (x - dentryAt 0 j).toNat := by omega
    have here := congrArg (·[(x - dentryAt 0 j).toNat]?) same
    rw [List.getElem?_eq_getElem (by simp; omega), List.getElem?_eq_getElem (by simp; omega), Option.some.injEq,
      getElem_load, getElem_load, ← position] at here
    exact here
  refine ⟨int_congr fun x above below => ?_, ?_⟩
  · simp only [numAt] at above below
    exact byte x (by omega) (by omega)
  · rw [dentryName, dentryName, load_congr fun x above below => byte x above (by push_cast at below; omega)]

private theorem dentry_putDentry_of_ne {l : ℕ} (short : name.length < 32) (ne : l ≠ j) :
    dentryNum (putDentry page j name num) l = dentryNum page l ∧
      dentryName (putDentry page j name num) l = dentryName page l :=
  dentry_of_load (putDentry_of_ne short ne)

end NewDentry

section Created

variable {m : ℕ} {bytes : List UInt8}

theorem create_inode_of_ne (new : m ≠ n) (parent : m ≠ p) : (fs.create p k j name n bytes).inode m = fs.inode m := by
  simp only [Fs.create, Fs.setInode, Fs.flipIbit, Fs.setBlock, Function.update_of_ne parent, Function.update_of_ne new]

theorem create_inode_parent (apart : n ≠ p) : (fs.create p k j name n bytes).inode p = bump (fs.inode p) := by
  simp only [Fs.create, Fs.setInode, Fs.flipIbit, Fs.setBlock, Function.update_self, Function.update_of_ne apart.symm]

theorem create_inode_new (apart : n ≠ p) : (fs.create p k j name n bytes).inode n = (fs.inode n).store 0 bytes := by
  simp only [Fs.create, Fs.setInode, Fs.flipIbit, Fs.setBlock, Function.update_of_ne apart, Function.update_self]

theorem create_block_self : (fs.create p k j name n bytes).block k = putDentry (fs.block k) j name n :=
  Function.update_self ..

theorem create_block_of_ne (ne : m ≠ k) : (fs.create p k j name n bytes).block m = fs.block m :=
  Function.update_of_ne ne ..

theorem create_ibit (fresh : fs.ibit n = false) :
    (fs.create p k j name n bytes).ibit = Function.update fs.ibit n true := by
  simp only [Fs.create, Fs.setInode, Fs.flipIbit, Fs.setBlock, fresh, Bool.not_false]

/-- The first unused entry of a block of a directory. -/
structure FreeSlot (L : Layout) (fs : Fs) (s : Slot) (k : ℕ) : Prop where
  dentry : fs.IsDentry s
  inside : k < L.blocks
  target : fs.target L (.ptr s.n s.i) = L.block k
  pointer : ptr (fs.inode s.n) s.i = L.block k
  empty : fs.num L s = 0
  first : ∀ j < s.j, fs.num L ⟨s.n, s.i, j⟩ ≠ 0

variable (slot : FreeSlot L fs s k) (fresh : fs.ibit n = false)

include slot fresh

theorem FreeSlot.apart : n ≠ s.n := by
  rintro rfl
  rw [slot.dentry.1] at fresh
  cases fresh

variable (name : Name) (env : Env) (mode : ℕ)

/-- The inode of a file other than the new one keeps its pointers. -/
theorem FreeSlot.samePointers (ne : m ≠ n) :
    SamePointers (fs.inode m) ((fs.create s.n k s.j name n (inodeBytes env n mode)).inode m) := by
  by_cases parent : m = s.n
  · rw [parent, create_inode_parent (slot.apart fresh)]
    exact bump_same
  · rw [create_inode_of_ne ne parent]
    exact ⟨fun _ _ => rfl, rfl⟩

theorem FreeSlot.target_create (inv : Pointers L fs) (r : Ref) :
    (fs.create s.n k s.j name n (inodeBytes env n mode)).target L r = fs.target L r := by
  have apart := slot.apart fresh
  have ibit : (fs.create s.n k s.j name n (inodeBytes env n mode)).ibit = Function.update fs.ibit n true :=
    create_ibit fresh
  have zero {i : ℕ} (small : i < 8) : ptr ((fs.create s.n k s.j name n (inodeBytes env n mode)).inode n) i = 0 := by
    rw [create_inode_new apart, ptr_newInode _ small]
  cases r with
  | ptr m i =>
    by_cases new : m = n
    · have absent : ¬ fs.Holds (.ptr m i) := by
        rintro ⟨live, _⟩
        rw [new, fresh] at live
        cases live
      rw [Fs.target_of_not_holds absent, Fs.target]
      split_ifs with holds
      · rw [Fs.value, new, zero holds.2]
      · rfl
    · have same := slot.samePointers fresh name env mode new
      refine Fs.target_congr ?_ fun holds => same.ptr i holds.2
      simp only [Fs.Holds, ibit, Function.update_of_ne new]
  | entry m e =>
    by_cases new : m = n
    · have absent : ¬ fs.Holds (.entry m e) := by
        rintro ⟨live, _⟩
        rw [new, fresh] at live
        cases live
      have absent' : ¬ (fs.create s.n k s.j name n (inodeBytes env n mode)).Holds (.entry m e) := by
        rintro ⟨_, _, _, set⟩
        rw [new, zero (by decide)] at set
        exact set rfl
      rw [Fs.target_of_not_holds absent, Fs.target_of_not_holds absent']
    · have same := slot.samePointers fresh name env mode new
      have ptr7 := same.ptr indBlock (by decide)
      refine Fs.target_congr ?_ fun holds => ?_
      · simp only [Fs.Holds, ibit, Function.update_of_ne new, isReg, same.mode, ptr7]
      · obtain ⟨_, theirs⟩ := inv.indirect_eq holds
        have block : fs.indirect L m ≠ k := by
          intro eq
          have refs := inv.unshared _ _ (by rw [theirs]; exact L.block_ne_zero _)
            (theirs.trans (by rw [eq]; exact slot.target.symm))
          have index := (Ref.ptr.inj refs).2
          have small := slot.dentry.2.2.1
          omega
        simp only [Fs.value, Fs.indirect, ptr7]
        exact congrArg (entry · e) (create_block_of_ne block)

theorem FreeSlot.pointers_create (inv : Pointers L fs) :
    Pointers L (fs.create s.n k s.j name n (inodeBytes env n mode)) := by
  refine inv.congr (slot.target_create fresh name env mode inv) rfl ?_
  intro k' _ free
  apply create_block_of_ne
  rintro rfl
  rw [inv.used _ _ slot.target] at free
  cases free

/-- The inode of the new file has no blocks. -/
theorem FreeSlot.ptr_new {i : ℕ} (small : i < 8) :
    ptr ((fs.create s.n k s.j name n (inodeBytes env n mode)).inode n) i = 0 := by
  rw [create_inode_new (slot.apart fresh), ptr_newInode _ small]

theorem FreeSlot.isDentry_create (s' : Slot) :
    (fs.create s.n k s.j name n (inodeBytes env n mode)).IsDentry s' ↔ fs.IsDentry s' := by
  simp only [Fs.IsDentry, create_ibit fresh]
  by_cases new : s'.n = n
  · refine iff_of_false ?_ ?_
    · rintro ⟨_, _, small, _, set⟩
      rw [new, slot.ptr_new fresh name env mode (by simp only [indBlock] at small; omega)] at set
      exact set rfl
    · rintro ⟨live, _⟩
      rw [new, fresh] at live
      cases live
  · have same := slot.samePointers fresh name env mode new
    simp only [Function.update_of_ne new, isDir, same.mode]
    refine and_congr_right fun _ => and_congr_right fun _ => and_congr_right fun small => ?_
    rw [same.ptr _ (by simp only [indBlock] at small; omega)]

/-- An entry is in the block of the new entry only if it is in the same block of the same directory. -/
theorem FreeSlot.page_create (inv : Pointers L fs) {s' : Slot} (dentry : fs.IsDentry s') :
    (s'.n = s.n ∧ s'.i = s.i ∧ fs.page L s' = fs.block k ∧
        (fs.create s.n k s.j name n (inodeBytes env n mode)).page L s' = putDentry (fs.block k) s.j name n) ∨
      (fs.create s.n k s.j name n (inodeBytes env n mode)).page L s' = fs.page L s' := by
  obtain ⟨k', _, target, pointer, page⟩ := inv.page_eq dentry
  have new : s'.n ≠ n := by
    rintro eq
    have live := dentry.1
    rw [eq, fresh] at live
    cases live
  have same := slot.samePointers fresh name env mode new
  have small := dentry.2.2.1
  have pointer' := same.ptr s'.i (by simp only [indBlock] at small; omega)
  by_cases here : k' = k
  · left
    subst here
    have refs := inv.unshared _ _ (by rw [target]; exact L.block_ne_zero _) (target.trans slot.target.symm)
    obtain ⟨dir, index⟩ := Ref.ptr.inj refs
    refine ⟨dir, index, page, ?_⟩
    rw [Fs.page, pointer', pointer, L.blockNo_block]
    exact create_block_self
  · right
    rw [page, Fs.page, pointer', pointer, L.blockNo_block]
    exact create_block_of_ne here

/-- The new entry is in the block where it was. -/
theorem FreeSlot.page_self :
    (fs.create s.n k s.j name n (inodeBytes env n mode)).page L s = putDentry (fs.block k) s.j name n := by
  have small := slot.dentry.2.2.1
  have pointer := (slot.samePointers fresh name env mode (slot.apart fresh).symm).ptr s.i
    (by simp only [indBlock] at small; omega)
  rw [Fs.page, pointer, slot.pointer, L.blockNo_block, create_block_self]

theorem FreeSlot.num_create (fits : n < L.inodes) :
    (fs.create s.n k s.j name n (inodeBytes env n mode)).num L s = n := by
  have bound := L.inodes_lt
  rw [Layout.inodes] at fits
  rw [Fs.num, slot.page_self fresh name env mode, dentryNum_putDentry, int32_eq (by omega) (by omega)]

theorem FreeSlot.entryStep (inv : Pointers L fs) (short : name.length < 32) :
    EntryStep L fs (fs.create s.n k s.j name n (inodeBytes env n mode)) s := by
  have apart {s' : Slot} (ne : s' ≠ s) (dir : s'.n = s.n) (index : s'.i = s.i) : s'.j ≠ s.j := by
    intro eq
    cases s
    cases s'
    exact ne (by simp_all)
  refine ⟨fun s' => (slot.isDentry_create fresh name env mode s').mp, fun s' used =>
    (slot.isDentry_create fresh name env mode s').mpr used.1, ?_, ?_⟩
  · intro s' dentry ne
    rcases slot.page_create fresh name env mode inv ((slot.isDentry_create fresh name env mode s').mp dentry) with
      ⟨dir, index, old, new⟩ | same
    · rw [Fs.num, Fs.num, new, old, (dentry_putDentry_of_ne short (apart ne dir index)).1]
    · rw [Fs.num, Fs.num, same]
  · intro s' dentry ne
    rcases slot.page_create fresh name env mode inv ((slot.isDentry_create fresh name env mode s').mp dentry) with
      ⟨dir, index, old, new⟩ | same
    · rw [Fs.name, Fs.name, new, old, (dentry_putDentry_of_ne short (apart ne dir index)).2]
    · rw [Fs.name, Fs.name, same]

end Created

section Loop

/-- The first blocks of a directory are there and have no unused entry. -/
structure Filled (L : Layout) (fs : Fs) (p i : ℕ) : Prop where
  set : ∀ l < i, ptr (fs.inode p) l ≠ 0
  used : ∀ s, fs.IsDentry s → s.n = p → s.i < i → fs.num L s ≠ 0

/-- A directory with filled blocks gets one more. -/
structure Grown (L : Layout) (d d' : Disk) (s : Slot) (k : ℕ) : Prop where
  filled : Filled L (view L d) s.n s.i
  null : ptr ((view L d).inode s.n) s.i = 0
  lowest : lowestClear (view L d).dbit L.blocks = some k
  view_eq : view L d' = (view L d).point L (.ptr s.n s.i) k
  first : s.j = 0

private theorem freeDentry_cases (inside : k < L.blocks) :
    (freeDentry d (L.block k) = none ∧ ∀ j < dentriesPerBlock, dentryNum ((view L d).block k) j ≠ 0) ∨
      ∃ j < dentriesPerBlock, freeDentry d (L.block k) = some j ∧ dentryNum ((view L d).block k) j = 0 ∧
        ∀ l < j, dentryNum ((view L d).block k) l ≠ 0 := by
  cases found : freeDentry d (L.block k) with
  | none =>
    left
    refine ⟨rfl, fun j small => ?_⟩
    rw [freeDentry, List.find?_eq_none] at found
    have used := found j (List.mem_range.mpr small)
    rwa [decide_eq_true_eq, int_dentry inside small] at used
  | some j =>
    right
    rw [freeDentry, List.find?_range_eq_some] at found
    obtain ⟨empty, member, earlier⟩ := found
    have small := List.mem_range.mp member
    rw [decide_eq_true_eq, int_dentry inside small] at empty
    refine ⟨j, small, rfl, empty, fun l less => ?_⟩
    have used := earlier l less
    rwa [Bool.not_eq_true', decide_eq_false_iff_not, int_dentry inside (less.trans small)] at used

/-- A null pointer of a directory is filled: there is no free block, or the directory gets an empty one. -/
theorem Ordered.grow (ordered : Ordered L d) (live : (view L d).ibit p = true) (dir : isDir ((view L d).inode p) = true)
    (small : i < indBlock) (filled : Filled L (view L d) p i) (null : ptr ((view L d).inode p) i = 0) :
    (lowestClear (view L d).dbit L.blocks = none ∧ newBlock d (blocksAt (L.inode p) i) = none) ∨
      ∃ d₁ k, newBlock d (blocksAt (L.inode p) i) = some d₁ ∧ FreeSlot L (view L d₁) ⟨p, i, 0⟩ k ∧ Ordered L d₁ ∧
        Grown L d d₁ ⟨p, i, 0⟩ k ∧ d₁.long (blocksAt (L.inode p) i) = L.block k ∧ freeDentry d₁ (L.block k) = some 0 := by
  have below : i < 8 := by
    simp only [indBlock] at small
    omega
  have holds : (view L d).Holds (.ptr p i) := ⟨live, below⟩
  have target : (view L d).target L (.ptr p i) = ptr ((view L d).inode p) i := Fs.target_of_holds holds
  have filling := newBlock_eq ordered.super ordered.pointers holds
  cases lowest : lowestClear (view L d).dbit L.blocks with
  | none =>
    rw [lowest] at filling
    exact .inl ⟨rfl, filling⟩
  | some k =>
    rw [lowest] at filling
    obtain ⟨d₁, found, view_eq⟩ := filling
    obtain ⟨inside, free, _⟩ := lowestClear_eq_some lowest
    have pointers : Pointers L (view L d₁) := by
      rw [view_eq]
      exact ordered.pointers.point holds (target.trans null) inside free
    have super : Super L d₁ := ordered.super.of_head (by rw [view_eq]; rfl)
    have live₁ : (view L d₁).ibit p = true := by
      rw [view_eq]
      exact live
    have pointer : ptr ((view L d₁).inode p) i = L.block k := by
      rw [view_eq, point_inode_self, ptr_setPtr_self, Layout.int64_block inside]
    have dir₁ : isDir ((view L d₁).inode p) = true := by
      rw [view_eq, point_inode_self, isDir, FileStep.point_mode]
      exact dir
    have zero : (view L d₁).block k = fun _ => 0 := by
      rw [view_eq]
      exact ordered.pointers.zero k inside free
    have set : ptr ((view L d₁).inode p) i ≠ 0 := by
      rw [pointer]
      exact L.block_ne_zero k
    have empty : (view L d₁).num L ⟨p, i, 0⟩ = 0 := by
      rw [Fs.num, Fs.page, pointer, L.blockNo_block, zero, dentryNum_zero]
    have first : freeDentry d₁ (L.block k) = some 0 := by
      rcases freeDentry_cases (d := d₁) inside with ⟨_, used⟩ | ⟨j, _, found, _, earlier⟩
      · exact absurd (by rw [zero, dentryNum_zero]) (used 0 (by decide))
      · by_cases first : j = 0
        · rwa [first] at found
        · exact absurd (by rw [zero, dentryNum_zero]) (earlier 0 (Nat.pos_of_ne_zero first))
    refine .inr ⟨d₁, k, found, ⟨⟨live₁, dir₁, small, show 0 < dentriesPerBlock by decide, set⟩, inside, ?_, pointer,
      empty,
        fun _ less => absurd less (Nat.not_lt_zero _)⟩, ⟨super, pointers⟩,
      ⟨filled, null, lowest, view_eq, rfl⟩, ?_, first⟩
    · rw [Fs.target_ptr live₁ below, pointer]
    · rw [long_blocksAt (view_ibit_lt live) below, pointer]

theorem Filled.next (filled : Filled L fs p i) (set : ptr (fs.inode p) i ≠ 0)
    (used : ∀ j < dentriesPerBlock, fs.num L ⟨p, i, j⟩ ≠ 0) : Filled L fs p (i + 1) := by
  refine ⟨fun l less => ?_, fun s dentry here less => ?_⟩
  · by_cases last : l = i
    · rw [last]
      exact set
    · exact filled.set l (by omega)
  · by_cases last : s.i = i
    · have eq : s = ⟨p, i, s.j⟩ := by rw [← here, ← last]
      rw [eq]
      exact used s.j dentry.2.2.2.1
    · exact filled.used s dentry here (by omega)

/-- The loop over the blocks of a directory: there is no room, or an unused entry is filled, in a block that
was there or in a new one. -/
theorem Ordered.createLoop (ordered : Ordered L d) (env : Env) (mode : ℕ) (name : Name) (live : (view L d).ibit p = true)
    (dir : isDir ((view L d).inode p) = true) (fuel : ℕ) (all : i + fuel = indBlock) (filled : Filled L (view L d) p i) :
    (createLoop env mode name (L.inode p) fuel i d = (d, -enospc) ∧ ∃ l ≤ indBlock, Filled L (view L d) p l ∧
        (l = indBlock ∨ ptr ((view L d).inode p) l = 0 ∧ lowestClear (view L d).dbit L.blocks = none)) ∨
      ∃ d₁ s k, FreeSlot L (view L d₁) s k ∧ s.n = p ∧ Ordered L d₁ ∧ (d₁ = d ∨ Grown L d d₁ s k) ∧
        createLoop env mode name (L.inode p) fuel i d =
          fillDentry env mode name (L.inode p) (dentryAt (L.block k) s.j) d₁ := by
  induction fuel generalizing i with
  | zero => exact .inl ⟨rfl, i, by omega, filled, .inl (by omega)⟩
  | succ fuel ih =>
    have small : i < indBlock := by omega
    have below : i < 8 := by
      simp only [indBlock] at small
      omega
    have slot : d.long (blocksAt (L.inode p) i) = ptr ((view L d).inode p) i := long_blocksAt (view_ibit_lt live) below
    rw [Wfs.createLoop]
    by_cases null : ptr ((view L d).inode p) i = 0
    · rw [if_pos (slot.trans null)]
      rcases ordered.grow live dir small filled null with ⟨lowest, none⟩ | ⟨d₁, k, found, free, ordered₁, grown,
        address, first⟩
      · rw [none]
        exact .inl ⟨rfl, i, by omega, filled, .inr ⟨null, lowest⟩⟩
      · rw [found]
        dsimp only
        rw [address, first]
        exact .inr ⟨d₁, ⟨p, i, 0⟩, k, free, rfl, ordered₁, .inr grown, rfl⟩
    · have target : (view L d).target L (.ptr p i) = ptr ((view L d).inode p) i := Fs.target_ptr live below
      obtain ⟨k, inside, pointer⟩ := ordered.pointers.valid (.ptr p i) (by rwa [target])
      rw [target] at pointer
      have page (j : ℕ) : (view L d).num L ⟨p, i, j⟩ = dentryNum ((view L d).block k) j := by
        rw [Fs.num, Fs.page, pointer, L.blockNo_block]
      rw [if_neg (by rw [slot]; exact null)]
      dsimp only
      rw [slot, pointer]
      rcases freeDentry_cases (d := d) inside with ⟨found, used⟩ | ⟨j, fits, found, empty, earlier⟩
      · rw [found]
        exact ih (by omega) (filled.next null fun j fits => by rw [page]; exact used j fits)
      · rw [found]
        right
        refine ⟨d, ⟨p, i, j⟩, k, ⟨⟨live, dir, small, fits, null⟩, inside, ?_, pointer, by rw [page, empty],
          fun l less => ?_⟩,
          rfl, ordered, .inl rfl, rfl⟩
        · rw [target, pointer]
        · rw [page]
          exact earlier l less

theorem Filled.zero (L : Layout) (fs : Fs) (p : ℕ) : Filled L fs p 0 :=
  ⟨fun _ less => absurd less (Nat.not_lt_zero _), fun _ _ _ less => absurd less (Nat.not_lt_zero _)⟩

/-- A call behind the lookup: there is no room, or an unused entry is filled. -/
theorem Ordered.create (ordered : Ordered L d) {path : Name} (absent : Absent L d path p) (type : ℕ) (env : Env)
    (mode : ℕ) :
    (create type env d path mode = (d, -enospc) ∧ ∃ l ≤ indBlock, Filled L (view L d) p l ∧
        (l = indBlock ∨ ptr ((view L d).inode p) l = 0 ∧ lowestClear (view L d).dbit L.blocks = none)) ∨
      ∃ d₁ s k, FreeSlot L (view L d₁) s k ∧ s.n = p ∧ Ordered L d₁ ∧ (d₁ = d ∨ Grown L d d₁ s k) ∧
        create type env d path mode =
          fillDentry env (mode ||| type) (lastToken path) (L.inode p) (dentryAt (L.block k) s.j) d₁ := by
  have start : Wfs.create type env d path mode =
      Wfs.createLoop env (mode ||| type) (lastToken path) (L.inode p) indBlock 0 d := by
    simp only [Wfs.create, absent.lookup, ne_eq, not_true_eq_false, if_false,
      ordered.super.inodeAt_eq (view_ibit_lt absent.live)]
  rw [start]
  exact ordered.createLoop env _ _ absent.live absent.dir indBlock (Nat.zero_add _) (.zero L _ p)

end Loop

end Cs537.Wfs
