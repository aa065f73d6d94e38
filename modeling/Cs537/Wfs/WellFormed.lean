import Cs537.Wfs.Read

/-! # Well-formed images

An image is well formed when the superblock is that of its layout, the pointers are in order, the bitmaps
mark exactly what is in use, free blocks are zero, and directories have their blocks in front and no name
twice.
-/

namespace Cs537.Wfs

open Lib Memory

/-- An entry of a directory: inode, block and position in the block. -/
structure Slot where
  n : ℕ
  i : ℕ
  j : ℕ
deriving DecidableEq, Repr

namespace Fs

/-- The block of an entry. -/
def page (L : Layout) (fs : Fs) (s : Slot) : Memory := fs.block (L.blockNo (ptr (fs.inode s.n) s.i))

/-- The entry exists: its directory is live and has the block. -/
def IsDentry (fs : Fs) (s : Slot) : Prop :=
  fs.ibit s.n = true ∧ isDir (fs.inode s.n) = true ∧ s.i < indBlock ∧ s.j < dentriesPerBlock ∧ ptr (fs.inode s.n) s.i ≠ 0

instance (fs : Fs) (s : Slot) : Decidable (fs.IsDentry s) := inferInstanceAs (Decidable (_ ∧ _ ∧ _ ∧ _ ∧ _))

def num (L : Layout) (fs : Fs) (s : Slot) : ℤ := dentryNum (fs.page L s) s.j

def name (L : Layout) (fs : Fs) (s : Slot) : Name := dentryName (fs.page L s) s.j

/-- An entry in use. -/
def LiveDentry (L : Layout) (fs : Fs) (s : Slot) : Prop := fs.IsDentry s ∧ 0 < fs.num L s

instance (L : Layout) (fs : Fs) (s : Slot) : Decidable (fs.LiveDentry L s) := inferInstanceAs (Decidable (_ ∧ _))

end Fs

/-- A well-formed image. -/
structure WellFormed (L : Layout) (d : Disk) : Prop where
  super : Super L d
  valid : ∀ r, (view L d).target L r ≠ 0 → ∃ k < L.blocks, (view L d).target L r = L.block k
  unshared : ∀ r r', (view L d).target L r ≠ 0 → (view L d).target L r = (view L d).target L r' → r = r'
  dbit_iff : ∀ k < L.blocks, (view L d).dbit k = true ↔ ∃ r, (view L d).target L r = L.block k
  ibit_iff : ∀ n < L.inodes, (view L d).ibit n = true ↔
    n = 0 ∨ ∃! s, (view L d).LiveDentry L s ∧ (view L d).num L s = n
  zero : ∀ k < L.blocks, (view L d).dbit k = false → (view L d).block k = fun _ => 0
  front : ∀ n, (view L d).ibit n = true → isDir ((view L d).inode n) = true →
    ∀ i j, i < j → j < indBlock → ptr ((view L d).inode n) j ≠ 0 → ptr ((view L d).inode n) i ≠ 0
  names : ∀ s s', (view L d).LiveDentry L s → (view L d).LiveDentry L s' → s.n = s'.n →
    (view L d).name L s = (view L d).name L s' → s = s'

variable {L : Layout} {d : Disk}

theorem WellFormed.ordered (wf : WellFormed L d) : Ordered L d where
  super := wf.super
  pointers :=
  { valid := wf.valid
    unshared := wf.unshared
    used := by
      intro r k target
      obtain ⟨k', inside, eq⟩ := wf.valid r (by rw [target]; exact L.block_ne_zero k)
      obtain rfl := L.block_inj (target.symm.trans eq)
      exact (wf.dbit_iff k inside).mpr ⟨r, target⟩
    zero := wf.zero }

end Cs537.Wfs
