import Cs537.Wfs.WellFormed
import Mathlib.Data.List.Nodup
import Mathlib.Data.List.FinRange

/-! # Checking that an image is well formed

The pointers and the entries of an image are finitely many and can be listed. Whether an image is well
formed is then a computation, once the superblock and the zero bytes of the free blocks are known; for an
image given by the stores that made it, a block that no store touches is zero.
-/

namespace Cs537.Wfs

open Lib Memory

variable {L : Layout} {fs : Fs} {d : Disk}

namespace Fs

def liveInodes (L : Layout) (fs : Fs) : List ℕ := (List.range L.inodes).filter fs.ibit

/-- The places that hold a pointer. -/
def refs (L : Layout) (fs : Fs) : List Ref :=
  (fs.liveInodes L).flatMap fun n =>
    (List.range 8).map (.ptr n) ++
      if isReg (fs.inode n) ∧ ptr (fs.inode n) indBlock ≠ 0 then (List.range entriesPerBlock).map (.entry n) else []

/-- The places whose pointer is not null. -/
def pointing (L : Layout) (fs : Fs) : List Ref := (fs.refs L).filter fun r => fs.value L r ≠ 0

/-- The entries of the directories. -/
def slots (L : Layout) (fs : Fs) : List Slot :=
  (fs.liveInodes L).flatMap fun n =>
    if isDir (fs.inode n) then
      (List.range indBlock).flatMap fun i =>
        if ptr (fs.inode n) i ≠ 0 then (List.range dentriesPerBlock).map (⟨n, i, ·⟩) else []
    else []

/-- The entries in use. -/
def liveSlots (L : Layout) (fs : Fs) : List Slot := (fs.slots L).filter fun s => 0 < fs.num L s

theorem mem_liveInodes (bounded : ∀ n, fs.ibit n = true → n < L.inodes) {n : ℕ} :
    n ∈ fs.liveInodes L ↔ fs.ibit n = true := by
  simp only [liveInodes, List.mem_filter, List.mem_range]
  exact ⟨And.right, fun live => ⟨bounded n live, live⟩⟩

private theorem mem_refs (bounded : ∀ n, fs.ibit n = true → n < L.inodes) {r : Ref} : r ∈ fs.refs L ↔ fs.Holds r := by
  simp only [refs, List.mem_flatMap, mem_liveInodes bounded, List.mem_append, List.mem_map, List.mem_range]
  cases r with
  | ptr m j =>
    simp only [Holds]
    constructor
    · rintro ⟨n, live, ⟨i, small, eq⟩ | member⟩
      · obtain ⟨rfl, rfl⟩ := Ref.ptr.inj eq
        exact ⟨live, small⟩
      · split_ifs at member
        · simp at member
        · cases member
    · rintro ⟨live, small⟩
      exact ⟨m, live, .inl ⟨j, small, rfl⟩⟩
  | entry m e =>
    simp only [Holds]
    constructor
    · rintro ⟨n, live, ⟨i, _, eq⟩ | member⟩
      · cases eq
      · split_ifs at member with has
        · obtain ⟨e', small, eq⟩ := List.mem_map.mp member
          obtain ⟨rfl, rfl⟩ := Ref.entry.inj eq
          exact ⟨live, has.1, List.mem_range.mp small, has.2⟩
        · cases member
    · rintro ⟨live, reg, small, set⟩
      refine ⟨m, live, .inr ?_⟩
      rw [if_pos ⟨reg, set⟩]
      exact List.mem_map_of_mem (List.mem_range.mpr small)

private theorem mem_pointing (bounded : ∀ n, fs.ibit n = true → n < L.inodes) {r : Ref} :
    r ∈ fs.pointing L ↔ fs.target L r ≠ 0 := by
  simp only [pointing, List.mem_filter, mem_refs bounded, decide_eq_true_eq]
  constructor
  · rintro ⟨holds, set⟩
    rwa [target_of_holds holds]
  · intro set
    have holds := holds_of_target set
    rw [target_of_holds holds] at set
    exact ⟨holds, set⟩

theorem mem_slots (bounded : ∀ n, fs.ibit n = true → n < L.inodes) {s : Slot} : s ∈ fs.slots L ↔ fs.IsDentry s := by
  simp only [slots, List.mem_flatMap, mem_liveInodes bounded, IsDentry]
  constructor
  · rintro ⟨n, live, member⟩
    split_ifs at member with dir
    · obtain ⟨i, small, member⟩ := List.mem_flatMap.mp member
      split_ifs at member with set
      · obtain ⟨j, inside, rfl⟩ := List.mem_map.mp member
        exact ⟨live, dir, List.mem_range.mp small, List.mem_range.mp inside, set⟩
      · cases member
    · cases member
  · rintro ⟨live, dir, small, inside, set⟩
    refine ⟨s.n, live, ?_⟩
    rw [if_pos dir, List.mem_flatMap]
    refine ⟨s.i, List.mem_range.mpr small, ?_⟩
    rw [if_pos set]
    exact List.mem_map.mpr ⟨s.j, List.mem_range.mpr inside, rfl⟩

theorem mem_liveSlots (bounded : ∀ n, fs.ibit n = true → n < L.inodes) {s : Slot} :
    s ∈ fs.liveSlots L ↔ fs.LiveDentry L s := by
  simp only [liveSlots, List.mem_filter, mem_slots bounded, decide_eq_true_eq, LiveDentry]

end Fs

/-- What can be computed of a well-formed image. -/
structure Checked (L : Layout) (fs : Fs) : Prop where
  valid : ∀ r ∈ fs.pointing L, L.blockNo (fs.value L r) < L.blocks ∧ fs.value L r = L.block (L.blockNo (fs.value L r))
  unshared : ((fs.pointing L).map (fs.value L)).Nodup
  dbit : ∀ k ∈ List.range L.blocks, fs.dbit k = decide (L.block k ∈ (fs.pointing L).map (fs.value L))
  nodup : (fs.liveSlots L).Nodup
  ibit : ∀ n ∈ List.range L.inodes,
    fs.ibit n = decide (n = 0 ∨ ((fs.liveSlots L).filter fun s => fs.num L s = n).length = 1)
  front : ∀ n ∈ fs.liveInodes L, isDir (fs.inode n) = true → ∀ j ∈ List.range indBlock, ∀ i ∈ List.range j,
    ptr (fs.inode n) j ≠ 0 → ptr (fs.inode n) i ≠ 0
  names : ((fs.liveSlots L).map fun s => (s.n, fs.name L s)).Nodup

instance (L : Layout) (fs : Fs) : Decidable (Checked L fs) :=
  decidable_of_iff (_ ∧ _ ∧ _ ∧ _ ∧ _ ∧ _ ∧ _) ⟨fun ⟨a, b, c, d, e, f, g⟩ => ⟨a, b, c, d, e, f, g⟩,
    fun ⟨a, b, c, d, e, f, g⟩ => ⟨a, b, c, d, e, f, g⟩⟩

private theorem existsUnique_mem_iff {α : Type} {l : List α} (nodup : l.Nodup) : (∃! a, a ∈ l) ↔ l.length = 1 := by
  constructor
  · rintro ⟨a, member, only⟩
    have all : ∀ b ∈ l, b = a := only
    have single := List.eq_replicate_of_mem all
    have short : l.length ≤ 1 := by
      rw [single] at nodup
      exact List.nodup_replicate.mp nodup
    have some := List.length_pos_of_mem member
    omega
  · intro one
    obtain ⟨a, rfl⟩ := List.length_eq_one_iff.mp one
    exact ⟨a, List.mem_singleton_self a, fun b member => List.mem_singleton.mp member⟩

private theorem Checked.wellFormed (checked : Checked L (view L d)) (super : Super L d)
    (zero : ∀ k < L.blocks, (view L d).dbit k = false → (view L d).block k = fun _ => 0) : WellFormed L d := by
  have bounded (n : ℕ) (live : (view L d).ibit n = true) : n < L.inodes := view_ibit_lt live
  have value {r : Ref} (set : (view L d).target L r ≠ 0) : (view L d).target L r = (view L d).value L r :=
    Fs.target_of_holds (Fs.holds_of_target set)
  refine ⟨super, ?_, ?_, ?_, ?_, zero, ?_, ?_⟩
  · intro r set
    obtain ⟨inside, eq⟩ := checked.valid r ((Fs.mem_pointing bounded).mpr set)
    exact ⟨_, inside, (value set).trans eq⟩
  · intro r r' set same
    have set' : (view L d).target L r' ≠ 0 := by rwa [← same]
    rw [value set, value set'] at same
    exact List.inj_on_of_nodup_map checked.unshared ((Fs.mem_pointing bounded).mpr set)
      ((Fs.mem_pointing bounded).mpr set') same
  · intro k inside
    rw [checked.dbit k (List.mem_range.mpr inside), decide_eq_true_eq, List.mem_map]
    constructor
    · rintro ⟨r, member, eq⟩
      exact ⟨r, (value ((Fs.mem_pointing bounded).mp member)).trans eq⟩
    · rintro ⟨r, eq⟩
      have set : (view L d).target L r ≠ 0 := by
        rw [eq]
        exact L.block_ne_zero k
      exact ⟨r, (Fs.mem_pointing bounded).mpr set, (value set).symm.trans eq⟩
  · intro n inside
    rw [checked.ibit n (List.mem_range.mpr inside), decide_eq_true_eq,
      ← existsUnique_mem_iff (checked.nodup.filter _)]
    simp only [List.mem_filter, Fs.mem_liveSlots bounded, decide_eq_true_eq]
  · intro n live dir i j less small
    exact checked.front n ((Fs.mem_liveInodes bounded).mpr live) dir j (List.mem_range.mpr small) i
      (List.mem_range.mpr less)
  · intro s s' live live' same eq
    exact List.inj_on_of_nodup_map checked.names ((Fs.mem_liveSlots bounded).mpr live)
      ((Fs.mem_liveSlots bounded).mpr live') (Prod.ext same eq)

section Image

/-- The image that a list of stores makes of zero bytes. -/
def image (stores : List (ℤ × List UInt8)) : Disk := stores.foldl (fun d st => d.store st.1 st.2) fun _ => 0

private theorem image_outside {stores : List (ℤ × List UInt8)} {x : ℤ}
    (outside : ∀ st ∈ stores, x < st.1 ∨ st.1 + st.2.length ≤ x) : image stores x = 0 := by
  have general (d : Disk) (zero : d x = 0) : stores.foldl (fun d st => d.store st.1 st.2) d x = 0 := by
    induction stores generalizing d with
    | nil => exact zero
    | cons st stores ih =>
      rw [List.foldl_cons]
      refine ih (fun st' member => outside st' (List.mem_cons_of_mem _ member)) _ ?_
      rw [store_outside (outside st List.mem_cons_self), zero]
  exact general _ rfl

/-- No store reaches into the block. -/
def Untouched (L : Layout) (stores : List (ℤ × List UInt8)) (k : ℕ) : Prop :=
  ∀ st ∈ stores, st.1 + st.2.length ≤ L.block k ∨ L.block k + 512 ≤ st.1

instance (L : Layout) (stores : List (ℤ × List UInt8)) (k : ℕ) : Decidable (Untouched L stores k) :=
  inferInstanceAs (Decidable (∀ st ∈ stores, _))

private theorem Untouched.block_zero {stores : List (ℤ × List UInt8)} {k : ℕ} (untouched : Untouched L stores k) :
    (view L (image stores)).block k = fun _ => 0 := by
  simp only [view]
  split_ifs with inside
  · funext x
    rw [window]
    split_ifs with small
    · refine image_outside fun st member => ?_
      have := untouched st member
      push_cast at small
      omega
    · rfl
  · rfl

/-- The fields of the superblock agree with the layout. -/
def SuperChecked (L : Layout) (d : Disk) : Prop :=
  numInodes d = L.inodes ∧ numDataBlocks d = L.blocks ∧ iBitmapPtr d = 48 ∧ dBitmapPtr d = L.dBitmap ∧
    iBlocksPtr d = L.iTable ∧ dBlocksPtr d = L.dTable

instance (L : Layout) (d : Disk) : Decidable (SuperChecked L d) :=
  inferInstanceAs (Decidable (_ ∧ _ ∧ _ ∧ _ ∧ _ ∧ _))

/-- An image given by its stores is well formed if the computation says so. -/
theorem wellFormed_image {stores : List (ℤ × List UInt8)} (super : SuperChecked L (image stores))
    (zero : ∀ k ∈ List.range L.blocks, (view L (image stores)).dbit k = false → Untouched L stores k)
    (checked : Checked L (view L (image stores))) : WellFormed L (image stores) := by
  obtain ⟨inodes, blocks, iBitmap, dBitmap, iBlocks, dBlocks⟩ := super
  exact checked.wellFormed ⟨inodes, blocks, iBitmap, dBitmap, iBlocks, dBlocks⟩ fun k inside free =>
    (zero k (List.mem_range.mpr inside) free).block_zero

/-- 32 inodes and 32 blocks. -/
def smallLayout : Layout := ⟨1, 1, by decide, by decide, by decide⟩

end Image

end Cs537.Wfs
