import Cs537.Wfs.View

/-! # Block pointers

A live inode has eight pointers, and the eighth of a regular file points to a block of 64 more. The
discipline of the pointers: each is null or the address of a block, no block has two pointers to it, a
block with a pointer to it is marked in use, and a block that is not in use is zero. Filling a null
pointer with a free block keeps the discipline, and so does a store into a block of data.
-/

namespace Cs537.Wfs

open Lib Memory

/-- A place that holds a pointer: one of the eight of an inode, or an entry of its indirect block. -/
inductive Ref where
  | ptr (n i : ℕ)
  | entry (n e : ℕ)
deriving DecidableEq, Repr

/-- The pointer to a block of pointers. -/
def Ref.indirect : Ref → Bool
  | .ptr _ i => i == indBlock
  | .entry .. => false

namespace Fs

/-- The place exists: its inode is live, and an entry has its indirect block. -/
def Holds (fs : Fs) : Ref → Prop
  | .ptr n i => fs.ibit n = true ∧ i < 8
  | .entry n e => fs.ibit n = true ∧ isReg (fs.inode n) = true ∧ e < entriesPerBlock ∧ ptr (fs.inode n) indBlock ≠ 0

instance (fs : Fs) : (r : Ref) → Decidable (fs.Holds r)
  | .ptr .. => inferInstanceAs (Decidable (_ ∧ _))
  | .entry .. => inferInstanceAs (Decidable (_ ∧ _ ∧ _ ∧ _))

/-- The indirect block of an inode. -/
def indirect (L : Layout) (fs : Fs) (n : ℕ) : ℕ := L.blockNo (Wfs.ptr (fs.inode n) indBlock)

/-- What is stored at the place. -/
def value (L : Layout) (fs : Fs) : Ref → ℤ
  | .ptr n i => Wfs.ptr (fs.inode n) i
  | .entry n e => Wfs.entry (fs.block (fs.indirect L n)) e

/-- The address a place points to; places that do not exist count as null. -/
def target (L : Layout) (fs : Fs) (r : Ref) : ℤ := if fs.Holds r then fs.value L r else 0

/-- The address of the place. -/
def slot (L : Layout) (fs : Fs) : Ref → ℤ
  | .ptr n i => blocksAt (L.inode n) i
  | .entry n e => Wfs.ptr (fs.inode n) indBlock + 8 * e

/-- Let the place point to a block that was free. -/
def point (L : Layout) (fs : Fs) (r : Ref) (k : ℕ) : Fs :=
  match r with
  | .ptr n i => (fs.setInode n (setPtr (fs.inode n) i (L.block k))).flipDbit k
  | .entry n e =>
      (fs.setBlock (fs.indirect L n) (setEntry (fs.block (fs.indirect L n)) e (L.block k))).flipDbit k

end Fs

/-- The discipline of the pointers. -/
structure Pointers (L : Layout) (fs : Fs) : Prop where
  valid : ∀ r, fs.target L r ≠ 0 → ∃ k < L.blocks, fs.target L r = L.block k
  unshared : ∀ r r', fs.target L r ≠ 0 → fs.target L r = fs.target L r' → r = r'
  used : ∀ r k, fs.target L r = L.block k → fs.dbit k = true
  zero : ∀ k < L.blocks, fs.dbit k = false → fs.block k = fun _ => 0

variable {L : Layout} {fs fs' : Fs} {r : Ref} {n k i e : ℕ}

theorem Fs.target_of_holds (holds : fs.Holds r) : fs.target L r = fs.value L r := if_pos holds

theorem Fs.holds_of_target (set : fs.target L r ≠ 0) : fs.Holds r := by
  by_contra absent
  exact set (if_neg absent)

theorem Fs.target_of_not_holds (absent : ¬ fs.Holds r) : fs.target L r = 0 := if_neg absent

/-- Places that exist in both and hold the same. -/
theorem Fs.target_congr (holds : fs'.Holds r ↔ fs.Holds r) (value : fs.Holds r → fs'.value L r = fs.value L r) :
    fs'.target L r = fs.target L r := by
  by_cases mine : fs.Holds r
  · rw [target_of_holds mine, target_of_holds (holds.mpr mine), value mine]
  · rw [target_of_not_holds mine, target_of_not_holds (mt holds.mp mine)]

theorem Fs.target_ptr (live : fs.ibit n = true) (small : i < 8) : fs.target L (.ptr n i) = Wfs.ptr (fs.inode n) i :=
  if_pos ⟨live, small⟩

namespace Pointers

/-- The indirect block of an entry is one of the blocks. -/
theorem indirect_eq (inv : Pointers L fs) (holds : fs.Holds (.entry n e)) :
    fs.indirect L n < L.blocks ∧ fs.target L (.ptr n indBlock) = L.block (fs.indirect L n) := by
  obtain ⟨live, _, _, set⟩ := holds
  have target : fs.target L (.ptr n indBlock) = Wfs.ptr (fs.inode n) indBlock := Fs.target_ptr live (by decide)
  obtain ⟨k, inside, eq⟩ := inv.valid (.ptr n indBlock) (by rwa [target])
  have number : fs.indirect L n = k := by
    rw [Fs.indirect, ← target, eq, L.blockNo_block]
  rw [number]
  exact ⟨inside, eq⟩

/-- What changes no pointer, no bit and no free block. -/
theorem congr (inv : Pointers L fs) (targets : ∀ r, fs'.target L r = fs.target L r) (dbit : fs'.dbit = fs.dbit)
    (block : ∀ k < L.blocks, fs.dbit k = false → fs'.block k = fs.block k) : Pointers L fs' := by
  refine ⟨?_, ?_, ?_, ?_⟩
  · intro r
    rw [targets]
    exact inv.valid r
  · intro r r'
    rw [targets, targets]
    exact inv.unshared r r'
  · intro r k
    rw [targets, dbit]
    exact inv.used r k
  · intro k inside free
    rw [dbit] at free
    rw [block k inside free]
    exact inv.zero k inside free

/-- One null pointer gets a free block. -/
theorem fill (inv : Pointers L fs) (inside : k < L.blocks) (free : fs.dbit k = false)
    (filled : fs'.target L r = L.block k) (others : ∀ r', r' ≠ r → fs'.target L r' = fs.target L r')
    (dbit : fs'.dbit = Function.update fs.dbit k true)
    (block : ∀ k' < L.blocks, k' ≠ k → fs.dbit k' = false → fs'.block k' = fs.block k') : Pointers L fs' := by
  have unreferenced (r' : Ref) : fs.target L r' ≠ L.block k := by
    intro same
    rw [inv.used r' k same] at free
    cases free
  refine ⟨?_, ?_, ?_, ?_⟩
  · intro r' set
    by_cases eq : r' = r
    · rw [eq]
      exact ⟨k, inside, filled⟩
    · rw [others r' eq] at set ⊢
      exact inv.valid r' set
  · intro r₁ r₂ set same
    by_cases eq₁ : r₁ = r <;> by_cases eq₂ : r₂ = r
    · rw [eq₁, eq₂]
    · rw [eq₁, filled, others r₂ eq₂] at same
      exact (unreferenced r₂ same.symm).elim
    · rw [eq₂, filled, others r₁ eq₁] at same
      exact (unreferenced r₁ same).elim
    · rw [others r₁ eq₁] at set same
      rw [others r₂ eq₂] at same
      exact inv.unshared r₁ r₂ set same
  · intro r' k' same
    rw [dbit]
    by_cases eq : k' = k
    · rw [eq, Function.update_self]
    · rw [Function.update_of_ne eq]
      by_cases mine : r' = r
      · rw [mine, filled] at same
        exact (eq (L.block_inj same).symm).elim
      · rw [others r' mine] at same
        exact inv.used r' k' same
  · intro k' inside' clear
    rw [dbit] at clear
    have eq : k' ≠ k := by
      rintro rfl
      rw [Function.update_self] at clear
      cases clear
    rw [Function.update_of_ne eq] at clear
    rw [block k' inside' eq clear]
    exact inv.zero k' inside' clear

end Pointers

section Point

theorem point_ibit : (fs.point L r k).ibit = fs.ibit := by
  cases r <;> rfl

theorem point_dbit (free : fs.dbit k = false) : (fs.point L r k).dbit = Function.update fs.dbit k true := by
  cases r <;> simp [Fs.point, Fs.flipDbit, Fs.setInode, Fs.setBlock, free]

theorem point_inode_of_ne {m : ℕ} (ne : m ≠ n) : (fs.point L (.ptr n i) k).inode m = fs.inode m :=
  Function.update_of_ne ne ..

theorem point_inode_self : (fs.point L (.ptr n i) k).inode n = setPtr (fs.inode n) i (L.block k) :=
  Function.update_self ..

private theorem isReg_setPtr (page : Memory) (i : ℕ) (v : ℤ) : isReg (setPtr page i v) = isReg page := by
  simp only [isReg, setPtr, setLong]
  rw [fileMode_store (by simp only [blocksAt]; omega)]

private theorem target_point_ptr (inv : Pointers L fs) (live : fs.ibit n = true) (small : i < 8)
    (null : fs.target L (.ptr n i) = 0) (inside : k < L.blocks) (free : fs.dbit k = false) :
    (fs.point L (.ptr n i) k).target L (.ptr n i) = L.block k ∧
      ∀ r', r' ≠ .ptr n i → (fs.point L (.ptr n i) k).target L r' = fs.target L r' := by
  have old : ptr (fs.inode n) i = 0 := by
    rw [← null, Fs.target_ptr live small]
  have ibit : (fs.point L (.ptr n i) k).ibit = fs.ibit := rfl
  have new : (fs.point L (.ptr n i) k).target L (.ptr n i) = L.block k := by
    rw [Fs.target_ptr (by rw [ibit]; exact live) small, point_inode_self, ptr_setPtr_self,
      Layout.int64_block inside]
  refine ⟨new, ?_⟩
  intro r' apart
  cases r' with
  | ptr m j =>
    refine Fs.target_congr Iff.rfl fun _ => ?_
    simp only [Fs.value]
    by_cases eq : m = n
    · subst eq
      have ne : j ≠ i := by
        rintro rfl
        exact apart rfl
      rw [point_inode_self, ptr_setPtr_of_ne ne]
    · rw [point_inode_of_ne eq]
  | entry m e =>
    by_cases eq : m = n
    · subst eq
      by_cases last : i = indBlock
      · subst last
        have absent : ¬ fs.Holds (.entry m e) := fun holds => holds.2.2.2 old
        have zero : (fs.point L (.ptr m indBlock) k).block k = fun _ => 0 := inv.zero k inside free
        have value : (fs.point L (.ptr m indBlock) k).value L (.entry m e) = 0 := by
          rw [Fs.value, Fs.indirect, point_inode_self, ptr_setPtr_self, Layout.int64_block inside, L.blockNo_block,
            zero, entry_zero]
        rw [Fs.target_of_not_holds absent, Fs.target, value, ite_self]
      · have ptr7 : ptr (setPtr (fs.inode m) i (L.block k)) indBlock = ptr (fs.inode m) indBlock :=
          ptr_setPtr_of_ne (Ne.symm last)
        refine Fs.target_congr ?_ fun _ => ?_
        · simp only [Fs.Holds, ibit, point_inode_self, isReg_setPtr, ptr7]
        · simp only [Fs.value, Fs.indirect, point_inode_self, ptr7]
          rfl
    · refine Fs.target_congr ?_ fun _ => ?_
      · simp only [Fs.Holds, ibit, point_inode_of_ne eq]
      · simp only [Fs.value, Fs.indirect, point_inode_of_ne eq]
        rfl

private theorem target_point_entry (inv : Pointers L fs) (holds : fs.Holds (.entry n e)) (inside : k < L.blocks) :
    (fs.point L (.entry n e) k).target L (.entry n e) = L.block k ∧
      ∀ r', r' ≠ .entry n e → (fs.point L (.entry n e) k).target L r' = fs.target L r' := by
  have block : (fs.point L (.entry n e) k).block =
      Function.update fs.block (fs.indirect L n) (setEntry (fs.block (fs.indirect L n)) e (L.block k)) := rfl
  have page : (fs.point L (.entry n e) k).block (fs.indirect L n) =
      setEntry (fs.block (fs.indirect L n)) e (L.block k) := by
    rw [block, Function.update_self]
  have value (m e' : ℕ) : (fs.point L (.entry n e) k).value L (.entry m e') =
      entry ((fs.point L (.entry n e) k).block (fs.indirect L m)) e' := rfl
  have same_holds (r' : Ref) : (fs.point L (.entry n e) k).Holds r' ↔ fs.Holds r' := by
    cases r' <;> exact Iff.rfl
  have new : (fs.point L (.entry n e) k).target L (.entry n e) = L.block k := by
    rw [Fs.target_of_holds ((same_holds _).mpr holds), value, page, entry_setEntry_self, Layout.int64_block inside]
  refine ⟨new, ?_⟩
  intro r' apart
  refine Fs.target_congr (same_holds r') fun exists' => ?_
  cases r' with
  | ptr m j => rfl
  | entry m e' =>
    rw [value, Fs.value]
    by_cases same : fs.indirect L m = fs.indirect L n
    · obtain ⟨_, mine⟩ := inv.indirect_eq holds
      obtain ⟨_, theirs⟩ := inv.indirect_eq exists'
      have refs := inv.unshared (.ptr m indBlock) (.ptr n indBlock) (by rw [theirs]; exact L.block_ne_zero _)
        (by rw [mine, theirs, same])
      obtain ⟨rfl, _⟩ := Ref.ptr.inj refs
      have ne : e' ≠ e := by
        rintro rfl
        exact apart rfl
      rw [page, entry_setEntry_of_ne ne]
    · rw [block, Function.update_of_ne same]

/-- Filling a null pointer changes that pointer only. -/
theorem Pointers.target_point (inv : Pointers L fs) (holds : fs.Holds r) (null : fs.target L r = 0)
    (inside : k < L.blocks) (free : fs.dbit k = false) :
    (fs.point L r k).target L r = L.block k ∧ ∀ r', r' ≠ r → (fs.point L r k).target L r' = fs.target L r' := by
  cases r with
  | ptr n i => exact target_point_ptr inv holds.1 holds.2 null inside free
  | entry n e => exact target_point_entry inv holds inside

/-- A block of pointers is in use. -/
theorem Pointers.block_point (inv : Pointers L fs) (holds : fs.Holds r) {k' : ℕ} (clear : fs.dbit k' = false) :
    (fs.point L r k).block k' = fs.block k' := by
  cases r with
  | ptr n i => rfl
  | entry n e =>
    apply Function.update_of_ne
    rintro rfl
    obtain ⟨_, target⟩ := inv.indirect_eq holds
    rw [inv.used _ _ target] at clear
    cases clear

theorem Pointers.point (inv : Pointers L fs) (holds : fs.Holds r) (null : fs.target L r = 0) (inside : k < L.blocks)
    (free : fs.dbit k = false) : Pointers L (fs.point L r k) := by
  obtain ⟨filled, others⟩ := inv.target_point holds null inside free
  exact inv.fill inside free filled others (point_dbit free) fun k' _ _ clear => inv.block_point holds clear

end Point

section Data

/-- A block that is not a block of pointers can be written without touching any pointer. -/
theorem Pointers.target_setBlock (inv : Pointers L fs) (mine : fs.target L r = L.block k) (data : r.indirect = false)
    (page : Memory) (r' : Ref) : (fs.setBlock k page).target L r' = fs.target L r' := by
  have same_holds : (fs.setBlock k page).Holds r' ↔ fs.Holds r' := by
    cases r' <;> exact Iff.rfl
  refine Fs.target_congr same_holds fun holds => ?_
  cases r' with
  | ptr m j => rfl
  | entry m e =>
    obtain ⟨_, theirs⟩ := inv.indirect_eq holds
    have apart : fs.indirect L m ≠ k := by
      rintro rfl
      have same := inv.unshared (.ptr m indBlock) r (by rw [theirs]; exact L.block_ne_zero _) (theirs.trans mine.symm)
      rw [← same] at data
      cases data
    change entry (Function.update fs.block k page (fs.indirect L m)) e = entry (fs.block (fs.indirect L m)) e
    rw [Function.update_of_ne apart]

theorem Pointers.setBlock (inv : Pointers L fs) (mine : fs.target L r = L.block k) (data : r.indirect = false)
    (page : Memory) : Pointers L (fs.setBlock k page) := by
  refine inv.congr (inv.target_setBlock mine data page) rfl ?_
  intro k' _ clear
  apply Function.update_of_ne
  rintro rfl
  rw [inv.used r k' mine] at clear
  cases clear

/-- What the pointers of an inode are read from. -/
structure SamePointers (page page' : Memory) : Prop where
  ptr : ∀ i < 8, ptr page' i = ptr page i
  mode : fileMode page' = fileMode page

theorem SamePointers.trans {first second third : Memory} (left : SamePointers first second)
    (right : SamePointers second third) : SamePointers first third :=
  ⟨fun i small => (right.ptr i small).trans (left.ptr i small), right.mode.trans left.mode⟩

theorem SamePointers.store {page : Memory} {o : ℤ} {bytes : List UInt8} (low : 8 ≤ o) (high : o + bytes.length ≤ 56) :
    SamePointers page (page.store o bytes) :=
  ⟨fun _ small => ptr_store (.inl high) small, fileMode_store (.inr low)⟩

theorem target_setInode {page : Memory} (same : SamePointers (fs.inode n) page) (r : Ref) :
    (fs.setInode n page).target L r = fs.target L r := by
  have inode (m : ℕ) : SamePointers (fs.inode m) ((fs.setInode n page).inode m) := by
    by_cases eq : m = n
    · subst eq
      rw [show (fs.setInode m page).inode m = page from Function.update_self ..]
      exact same
    · rw [show (fs.setInode n page).inode m = fs.inode m from Function.update_of_ne eq ..]
      exact ⟨fun _ _ => rfl, rfl⟩
  cases r with
  | ptr m j => exact Fs.target_congr Iff.rfl fun holds => (inode m).ptr j holds.2
  | entry m e =>
    have reg : isReg ((fs.setInode n page).inode m) = isReg (fs.inode m) := by
      rw [isReg, isReg, (inode m).mode]
    have ptr7 := (inode m).ptr indBlock (by decide)
    have ibit : (fs.setInode n page).ibit = fs.ibit := rfl
    refine Fs.target_congr ?_ fun _ => ?_
    · simp only [Fs.Holds, reg, ptr7, ibit]
    · simp only [Fs.value, Fs.indirect, ptr7]
      rfl

theorem Pointers.setInode (inv : Pointers L fs) {page : Memory} (same : SamePointers (fs.inode n) page) :
    Pointers L (fs.setInode n page) :=
  inv.congr (target_setInode same) rfl fun _ _ _ => rfl

end Data

section NewBlock

variable {d : Disk}

/-- The code that fills a null pointer. -/
theorem newBlock_eq (super : Super L d) (inv : Pointers L (view L d)) (holds : (view L d).Holds r) :
    match lowestClear (view L d).dbit L.blocks with
    | none => newBlock d ((view L d).slot L r) = none
    | some k => ∃ d', newBlock d ((view L d).slot L r) = some d' ∧ view L d' = (view L d).point L r k := by
  have allocated := super.allocate_block
  cases lowest : lowestClear (view L d).dbit L.blocks with
  | none =>
    simp only [lowest] at allocated
    simp only [newBlock, allocated, if_true]
  | some k =>
    obtain ⟨inside, _⟩ := lowestClear_eq_some lowest
    have bound := L.blocks_lt
    have product : dBlocksPtr d + int32 ((k : ℤ) * blockSize) = L.block k := by
      rw [Layout.blocks] at inside
      rw [super.dBlocksPtr_eq, int32_eq (by simp only [blockSize]; omega) (by simp only [blockSize]; omega),
        Layout.block, blockSize]
      push_cast
      ring
    simp only [lowest] at allocated
    simp only [newBlock, allocated, product, if_neg (show (k : ℤ) ≠ -1 by omega)]
    refine ⟨_, rfl, ?_⟩
    -- Before the bitmap changes, the image holds the pointer: in the inode or in the indirect block.
    obtain ⟨fs, stored, head, pointed⟩ : ∃ fs : Fs, view L (d.setLong ((view L d).slot L r) (L.block k)) = fs ∧
        fs.head = (view L d).head ∧ fs.flipDbit k = (view L d).point L r k := by
      cases r with
      | ptr n i => exact ⟨_, view_setPtr (view_ibit_lt holds.1) holds.2, rfl, rfl⟩
      | entry n e =>
        obtain ⟨fits, target⟩ := inv.indirect_eq holds
        rw [Fs.target_ptr holds.1 (by decide)] at target
        simp only [Fs.slot, target]
        exact ⟨_, view_setEntry fits holds.2.2.1, rfl, rfl⟩
    have kept : (view L (d.setLong ((view L d).slot L r) (L.block k))).head = (view L d).head := by rw [stored, head]
    rw [(super.of_head kept).dBitmapPtr_eq, view_flipDbit inside, stored, pointed]

end NewBlock

end Cs537.Wfs
