import Cs537.Wfs.Consistent
import Cs537.Wfs.Resolve

/-! # Lookups that are not misled

A search is not misled if, among all the bytes that it takes for entries, only entries in use have the name. Then it
finds the one entry of the directory with the name, if there is one, and a walk goes from directory to directory.
-/

namespace Cs537.Wfs

open Lib Memory

variable {L : Layout} {d d' : Disk} {name path : Name} {n p : ℕ} {s : Slot}

/-- Among the places where the directory is searched, only entries in use have the name. -/
def Only (L : Layout) (d : Disk) (n : ℕ) (name : Name) : Prop :=
  ∀ i < indBlock, ∀ j < 32, strcmpEq d (dentryAt (ptr ((view L d).inode n) i) j) name = true →
    (view L d).LiveDentry L ⟨n, i, j⟩

/-- The walk along the names searches directories, and is not misled. -/
def Clear (L : Layout) (d : Disk) : ℕ → List Name → Prop
  | _, [] => True
  | n, name :: rest => isDir ((view L d).inode n) = true ∧ Only L d n name ∧
      ∀ m : ℕ, searchDirectory d n name = m → Clear L d m rest

/-- The first place of a directory that has the name. -/
structure Located (L : Layout) (d : Disk) (name : Name) (s : Slot) : Prop where
  used : (view L d).LiveDentry L s
  here : strcmpEq d (dentryAt (ptr ((view L d).inode s.n) s.i) s.j) name = true
  blocks : ∀ i < s.i, ∀ j < 32, strcmpEq d (dentryAt (ptr ((view L d).inode s.n) i) j) name = false
  entries : ∀ j < s.j, strcmpEq d (dentryAt (ptr ((view L d).inode s.n) s.i) j) name = false

/-- A block is searched: the name is nowhere, or at an entry in use. -/
theorem Only.findDentry (only : Only L d n name) (ordered : Ordered L d) {i : ℕ} (small : i < indBlock) :
    ((Wfs.findDentry d (ptr ((view L d).inode n) i) name).1 < 0 ∧
        ∀ j < 32, strcmpEq d (dentryAt (ptr ((view L d).inode n) i) j) name = false) ∨
      ∃ j, (view L d).LiveDentry L ⟨n, i, j⟩ ∧ strcmpEq d (dentryAt (ptr ((view L d).inode n) i) j) name = true ∧
        (∀ l < j, strcmpEq d (dentryAt (ptr ((view L d).inode n) i) l) name = false) ∧
        (Wfs.findDentry d (ptr ((view L d).inode n) i) name).1 = (view L d).num L ⟨n, i, j⟩ := by
  rcases findDentry_cases d (ptr ((view L d).inode n) i) name with ⟨none, negative, _⟩ | ⟨j, inside, here, earlier, found⟩
  · exact .inl ⟨negative, none⟩
  · have used := only i small j inside here
    refine .inr ⟨j, used, here, earlier, ?_⟩
    have number := ordered.number used.1
    dsimp only at number
    rw [found, ← number]

/-- A directory is searched: the name is nowhere, or the first entry that has it is in use. -/
theorem Only.search (only : Only L d n name) (ordered : Ordered L d) (live : (view L d).ibit n = true) :
    (searchDirectory d n name = -1 ∧
        ∀ i < indBlock, ∀ j < 32, strcmpEq d (dentryAt (ptr ((view L d).inode n) i) j) name = false) ∨
      ∃ s, s.n = n ∧ Located L d name s ∧ searchDirectory d n name = (view L d).num L s := by
  have none {i : ℕ} (small : i < indBlock) (low : (Wfs.findDentry d (d.long (blocksAt (inodeAt d n) i)) name).1 ≤ 0) :
      ∀ j < 32, strcmpEq d (dentryAt (ptr ((view L d).inode n) i) j) name = false := by
    rw [ordered.searched live small] at low
    rcases only.findDentry ordered small with ⟨_, none⟩ | ⟨j, used, _, _, found⟩
    · exact none
    · rw [found] at low
      exact absurd used.2 (not_lt.mpr low)
  rcases searchDirectory_cases d n name with ⟨missing, all⟩ | ⟨i, small, earlier, positive, result⟩
  · exact .inl ⟨missing, fun i small => none small (all i small)⟩
  · rw [ordered.searched live small] at positive result
    rcases only.findDentry ordered small with ⟨negative, _⟩ | ⟨j, used, here, first, found⟩
    · omega
    · rw [found] at result
      exact .inr ⟨⟨n, i, j⟩, rfl, ⟨used, here, fun l less => none (by dsimp only at less; omega) (earlier l less),
        first⟩, result⟩

/-- Pointers and entries are in order, every entry in use names a live inode, and a file that is no directory has one
link. -/
structure Intact (L : Layout) (d : Disk) : Prop where
  ordered : Ordered L d
  tree : Tree L (view L d)
  numbers : ∀ s, (view L d).LiveDentry L s → ∃ m : ℕ, (view L d).num L s = m ∧ (view L d).ibit m = true
  single : ∀ n, (view L d).ibit n = true → isDir ((view L d).inode n) = false → links ((view L d).inode n) = 1

theorem Intact.root (intact : Intact L d) : (view L d).ibit 0 = true := intact.tree.root L.inodes_pos

/-- What a search finds is a number. -/
private theorem searchDirectory_nat (d : Disk) (n : ℤ) (name : Name) :
    searchDirectory d n name = -1 ∨ ∃ m : ℕ, searchDirectory d n name = m := by
  rcases searchDirectory_cases d n name with ⟨missing, _⟩ | ⟨_, _, _, positive, result⟩
  · exact .inl missing
  · exact .inr ⟨(searchDirectory d n name).toNat, by omega⟩

/-- Parts of a clear walk are clear. -/
theorem Clear.split {front back : List Name} (clear : Clear L d n (front ++ back)) (prev : ℤ) :
    Clear L d n front ∧ ∀ m : ℕ, (walk d prev n front).2 = m → Clear L d m back := by
  induction front generalizing n prev with
  | nil =>
    refine ⟨trivial, fun m found => ?_⟩
    obtain rfl : n = m := Int.ofNat_inj.mp found
    exact clear
  | cons name front ih =>
    obtain ⟨dir, only, rest⟩ := clear
    refine ⟨⟨dir, only, fun m found => (ih (rest m found) n).1⟩, fun m found => ?_⟩
    rw [walk] at found
    split_ifs at found with missing
    · dsimp only at found
      omega
    · rcases searchDirectory_nat d n name with none | ⟨l, next⟩
      · exact (missing none).elim
      · rw [next] at found
        exact (ih (rest l next) n).2 m found

/-- A clear walk ends at a live inode, or nowhere. -/
theorem Intact.walk (intact : Intact L d) (names : List Name) (live : (view L d).ibit n = true)
    (clear : Clear L d n names)
    (prev : ℤ) : (Wfs.walk d prev n names).2 = -1 ∨ ∃ m : ℕ, (Wfs.walk d prev n names).2 = m ∧
    (view L d).ibit m = true := by
  induction names generalizing n prev with
  | nil => exact .inr ⟨n, rfl, live⟩
  | cons name names ih =>
    obtain ⟨_, only, rest⟩ := clear
    rw [Wfs.walk]
    split_ifs with missing
    · exact .inl rfl
    · rcases only.search intact.ordered live with ⟨none, _⟩ | ⟨s, _, located, found⟩
      · exact (missing none).elim
      · obtain ⟨m, number, alive⟩ := intact.numbers s located.used
        rw [found, number]
        exact ih alive (rest m (found.trans number)) n

/-- A path whose components are looked for without being misled, and that has one. -/
structure Walkable (L : Layout) (d : Disk) (path : Name) : Prop where
  clear : Clear L d 0 (tokens path)
  some : tokens path ≠ []

theorem Walkable.tokens_eq (walkable : Walkable L d path) : tokens path = (tokens path).dropLast ++ [lastToken path] := by
  rw [lastToken, List.getLastD_eq_getLast?, List.getLast?_eq_getLast_of_ne_nil walkable.some, Option.getD_some,
    List.dropLast_append_getLast]

theorem Walkable.lastToken_mem (walkable : Walkable L d path) : lastToken path ∈ tokens path := by
  rw [walkable.tokens_eq]
  exact List.mem_append_right _ List.mem_cons_self

/-- Once a component has not been found, the walk is over. -/
private theorem walk_missing (d : Disk) (front back : List Name) (prev : ℤ) {curr : ℤ} (known : curr ≠ -1)
    (missing : (walk d prev curr front).2 = -1) : walk d prev curr (front ++ back) = walk d prev curr front := by
  induction front generalizing prev curr with
  | nil => exact (known missing).elim
  | cons name front ih =>
    rw [walk] at missing
    rw [List.cons_append, walk, walk]
    split_ifs with none
    · rfl
    · rw [if_neg none] at missing
      exact ih curr none missing

/-- How a lookup ends: the directory is not there, or it is searched for the last component. -/
theorem Intact.lookup (intact : Intact L d) (walkable : Walkable L d path) :
    (parentOf d path = -1 ∧ (findInodeNumberByPath d path).2 = -1) ∨
      ∃ p : ℕ, parentOf d path = p ∧ (view L d).ibit p = true ∧ isDir ((view L d).inode p) = true ∧
        Only L d p (lastToken path) ∧ findInodeNumberByPath d path = (↑p, searchDirectory d p (lastToken path)) := by
  have clear := walkable.clear
  rw [walkable.tokens_eq] at clear
  obtain ⟨front, last⟩ := clear.split 0
  have ends : (Wfs.walk d 0 0 (tokens path).dropLast).2 = -1 ∨
      ∃ m : ℕ, (Wfs.walk d 0 0 (tokens path).dropLast).2 = m ∧ (view L d).ibit m = true :=
        intact.walk _ intact.root front 0
  rcases ends with missing | ⟨p, found, live⟩
  · left
    refine ⟨missing, ?_⟩
    rw [findInodeNumberByPath, walkable.tokens_eq, walk_missing _ _ _ _ (by decide) missing]
    exact missing
  · obtain ⟨dir, only, _⟩ := last p found
    refine .inr ⟨p, found, live, dir, only, ?_⟩
    have some : (Wfs.walk d 0 0 (tokens path).dropLast).2 ≠ -1 := by
      intro none
      rw [found] at none
      omega
    rw [findInodeNumberByPath, walkable.tokens_eq, walk_append _ _ _ _ _ some, found, Wfs.walk]
    split_ifs with missing
    · rw [missing]
    · rfl

end Cs537.Wfs
