import Cs537.Fs.Directory
import Cs537.Fs.Store

/-! # Inodes with names

The calls that make, name, change and free inodes, one after the other: `ialloc`, `dirlink`, the removal of a name,
the update of the link count, and `iput` of the last reference to an inode without links. Together with the calls of
the file layer they act on a table of typed inodes in which a directory is a map from names to inodes.
-/

namespace Cs537.Fs

open Cs537.Lib

/-- Allocate an inode: the first free one, with nothing but the type. -/
def ialloc (sb : Superblock) (d : Disk) (type : ℕ) : Except String (Disk × ℕ) :=
  match (List.range' 1 (sb.ninodes - 1)).find? fun inum => (readInode sb d inum).type = 0 with
  | some inum => .ok (iupdate sb d inum { Inode.empty with type := type }, inum)
  | none => .error "ialloc: no inodes"

/-- What `iput` does to an inode with no links and no other references. -/
def ifree (sb : Superblock) (d : Disk) (inum : ℕ) (ip : Inode) : Except String Disk := do
  let (d, ip) ← itrunc sb d inum ip
  return iupdate sb d inum { ip with type := 0 }

inductive TreeCall
  | ialloc (type : ℕ)
  | ifree (j : ℕ)
  | setLinks (j major minor nlink : ℕ)
  | dirlookup (dp : ℕ) (name : List UInt8)
  | dirlink (dp : ℕ) (name : List UInt8) (inum : ℕ)
  | dirunlink (dp : ℕ) (name : List UInt8)
  | file (c : Call)

/-- One call; all but `ialloc` are for a locked inode. -/
def Store.treeCall (sb : Superblock) (s : Store) : TreeCall → Option Store
  | .ialloc type => match Fs.ialloc sb s.disk type with
    | .ok (d, _) => some { s with disk := d }
    | .error _ => none
  | .ifree j => match s.ilock sb j >>= fun ip => Fs.ifree sb s.disk j ip with
    | .ok d => some ⟨d, Function.update s.icache j none⟩
    | .error _ => none
  | .setLinks j major minor nlink => s.after j (s.ilock sb j >>= fun ip =>
      let ip := { ip with major := major, minor := minor, nlink := nlink }
      .ok (iupdate sb s.disk j ip, ip, ()))
  | .dirlookup dp name => s.after dp (s.ilock sb dp >>= fun ip => Fs.dirlookup sb s.disk ip name)
  | .dirlink dp name inum => s.after dp (s.ilock sb dp >>= fun ip => Fs.dirlink sb s.disk dp ip name inum)
  | .dirunlink dp name => s.after dp (s.ilock sb dp >>= fun ip => Fs.dirunlink sb s.disk dp ip name)
  | .file c => s.call sb c

/-- The calls that the kernel makes: directories are written as such, devices are not written here, and arguments are in
the range of their types. -/
def Allowed (L : Layout) (s : Store) : TreeCall → Prop
  | .ialloc type => 0 < type ∧ type < 2 ^ 16
  | .ifree j => j < L.ninodes
  | .setLinks j major minor nlink => j < L.ninodes ∧ major < 2 ^ 16 ∧ minor < 2 ^ 16 ∧ nlink < 2 ^ 16
  | .dirlookup dp _ => dp < L.ninodes
  | .dirlink dp _ inum => dp < L.ninodes ∧ 0 < inum ∧ inum < L.ninodes ∧ inum < 2 ^ 16
  | .dirunlink dp _ => dp < L.ninodes
  | .file c => match c with
    | .writei j _ _ _ => s.type L.toSuperblock j ≠ T_DEV ∧ s.type L.toSuperblock j ≠ T_DIR
    | .itrunc j => s.type L.toSuperblock j ≠ T_DIR
    | .readi _ _ _ _ | .forget _ => True

/-- Typed inodes with their link counts: directories with the names in them, and files with their bytes. -/
structure Tree where
  type : ℕ → ℕ
  nlink : ℕ → ℕ
  names : ℕ → List UInt8 → Option ℕ
  bytes : ℕ → List UInt8

/-- The tree on a disk. -/
def tree (L : Layout) (d : Disk) : Tree where
  type j := (onDisk L.toSuperblock d j).type
  nlink j := (onDisk L.toSuperblock d j).nlink
  names j := if (onDisk L.toSuperblock d j).type = T_DIR then names (files L d j) else fun _ => none
  bytes j := if (onDisk L.toSuperblock d j).type = T_DIR then [] else files L d j

def Tree.setNames (t : Tree) (j : ℕ) (map : List UInt8 → Option ℕ) :
    Tree := { t with names := Function.update t.names j map }

/-- The first inode without type. -/
def Tree.unused (L : Layout) (t : Tree) : Option ℕ := (List.range' 1 (L.ninodes - 1)).find? fun j => t.type j = 0

/-- What a call is for. -/
def Tree.call (L : Layout) (t : Tree) : TreeCall → Tree
  | .ialloc type => match t.unused L with
    | some j => { t with type := Function.update t.type j type, nlink := Function.update t.nlink j 0 }
    | none => t
  | .ifree j => { t with
      type := Function.update t.type j 0
      names := Function.update t.names j fun _ => none
      bytes := Function.update t.bytes j [] }
  | .setLinks j _ _ nlink => { t with nlink := Function.update t.nlink j nlink }
  | .dirlookup _ _ => t
  | .dirlink dp name inum =>
    if t.names dp (key DIRSIZ name) = none then
      t.setNames dp (Function.update (t.names dp) (key DIRSIZ name) (some inum)) else t
  | .dirunlink dp name => t.setNames dp (Function.update (t.names dp) (key DIRSIZ name) none)
  | .file c => { t with bytes := specify t.bytes c }

variable {L : Layout} {s t : Store} {d d' : Disk} {ip' : Inode} {i j : ℕ} {name : List UInt8} {c : Call} {a : TreeCall}

/-- What every run keeps: the file layer, directories, free inodes without blocks, of which none is in memory, and
names of inodes. -/
structure Grown (L : Layout) (s : Store) : Prop where
  kept : Kept L s
  dirs : ∀ j, (onDisk L.toSuperblock s.disk j).type = T_DIR → IsDir (files L s.disk j)
  free : ∀ j, (onDisk L.toSuperblock s.disk j).type = 0 → (onDisk L.toSuperblock s.disk j).size = 0 ∧
    ∀ i, (onDisk L.toSuperblock s.disk j).addrs i = 0
  cached : ∀ j ip, s.icache j = some ip → j < L.ninodes → ip.type ≠ 0
  inside : ∀ j k v, (tree L s.disk).names j k = some v → v < L.ninodes

private theorem tree_left {b : List UInt8} (left : Left L d d' j ip' b) : tree L d' =
    ⟨Function.update (tree L d).type j ip'.type, Function.update (tree L d).nlink j ip'.nlink,
      Function.update (tree L d).names j (if ip'.type = T_DIR then names b else fun _ => none),
      Function.update (tree L d).bytes j (if ip'.type = T_DIR then [] else b)⟩ := by
  have here : onDisk L.toSuperblock d' j = ip' ∧ files L d' j = b := by
    rw [left.inodes, left.files, Function.update_self, Function.update_self]
    exact ⟨rfl, rfl⟩
  have there : ∀ i, i ≠ j → onDisk L.toSuperblock d' i = onDisk L.toSuperblock d i ∧ files L d' i = files L d i := by
    intro i other
    rw [left.inodes, left.files, Function.update_of_ne other, Function.update_of_ne other]
    exact ⟨rfl, rfl⟩
  rw [tree, Tree.mk.injEq]
  refine ⟨funext fun i => ?_, funext fun i => ?_, funext fun i => ?_, funext fun i => ?_⟩
  all_goals
    rcases eq_or_ne i j with rfl | other
    · simp only [Function.update_self, here.1, here.2]
    · simp only [Function.update_of_ne other, (there i other).1, (there i other).2]
      rfl

/-- One inode has changed, and may be in memory. -/
theorem Grown.of_left (grown : Grown L s) {cache : ℕ → Option Inode} {b : List UInt8} (left : Left L s.disk d' j ip' b)
    (others : ∀ i, i ≠ j → cache i = s.icache i) (mine : ∀ ip, cache j = some ip → ip = ip' ∧ ip'.type ≠ 0)
    (dir : ip'.type = T_DIR → IsDir b ∧ ∀ k v, names b k = some v → v < L.ninodes)
    (free : ip'.type = 0 → ip'.size = 0 ∧ ∀ i, ip'.addrs i = 0) : Grown L ⟨d', cache⟩ := by
  have at_ : ∀ i, onDisk L.toSuperblock d' i = Function.update (onDisk L.toSuperblock s.disk) j ip' i := fun i => by
    rw [left.inodes]
  refine ⟨⟨left.proper, fun i ip cached inside => ?_⟩, fun i type => ?_, fun i type => ?_,
    fun i ip cached inside => ?_, fun i k v has => ?_⟩
  · change ip = onDisk L.toSuperblock d' i
    change cache i = some ip at cached
    rw [at_]
    rcases eq_or_ne i j with rfl | other
    · rw [Function.update_self]
      exact (mine ip cached).1
    · rw [others i other] at cached
      rw [Function.update_of_ne other]
      exact grown.kept.through i ip cached inside
  · change (onDisk L.toSuperblock d' i).type = T_DIR at type
    change IsDir (files L d' i)
    rw [at_] at type
    rw [left.files]
    rcases eq_or_ne i j with rfl | other
    · rw [Function.update_self] at type ⊢
      exact (dir type).1
    · rw [Function.update_of_ne other] at type ⊢
      exact grown.dirs i type
  · change (onDisk L.toSuperblock d' i).type = 0 at type
    change (onDisk L.toSuperblock d' i).size = 0 ∧ ∀ k, (onDisk L.toSuperblock d' i).addrs k = 0
    rw [at_] at type ⊢
    rcases eq_or_ne i j with rfl | other
    · rw [Function.update_self] at type ⊢
      exact free type
    · rw [Function.update_of_ne other] at type ⊢
      exact grown.free i type
  · change cache i = some ip at cached
    rcases eq_or_ne i j with rfl | other
    · obtain ⟨rfl, live⟩ := mine ip cached
      exact live
    · rw [others i other] at cached
      exact grown.cached i ip cached inside
  · change (tree L d').names i k = some v at has
    rw [tree_left left] at has
    rcases eq_or_ne i j with rfl | other
    · simp only [Function.update_self] at has
      split_ifs at has with type
      exact (dir type).2 k v has
    · simp only [Function.update_of_ne other] at has
      exact grown.inside i k v has

/-- A locked inode has a type. -/
theorem Grown.ilock (grown : Grown L s) (inside : j < L.ninodes) {ip : Inode}
    (locked : s.ilock L.toSuperblock j = .ok ip) :
    ip = onDisk L.toSuperblock s.disk j ∧ (onDisk L.toSuperblock s.disk j).type ≠ 0 := by
  have same := grown.kept.ilock inside locked
  refine ⟨same, ?_⟩
  rw [← same]
  rw [Store.ilock] at locked
  cases cached : s.icache j with
  | none =>
    rw [cached] at locked
    dsimp only at locked
    split_ifs at locked with typed
    cases locked
    exact typed
  | some ip' =>
    rw [cached] at locked
    cases locked
    exact grown.cached j ip cached inside

private theorem Grown.names_inside (grown : Grown L s) (type : (onDisk L.toSuperblock s.disk j).type = T_DIR) (k : List UInt8)
    (v : ℕ)
    (has : names (files L s.disk j) k = some v) : v < L.ninodes := by
  refine grown.inside j k v ?_
  simp only [tree, if_pos type]
  exact has

theorem find?_same {p q : ℕ → Bool} {l : List ℕ} (same : ∀ x ∈ l, p x = q x) : l.find? p = l.find? q := by
  induction l with
  | nil => rfl
  | cons x l ih =>
    rw [List.find?_cons, List.find?_cons, same x List.mem_cons_self, ih fun y member =>
      same y (List.mem_cons_of_mem _ member)]

theorem Grown.ialloc (grown : Grown L s) {type : ℕ} (low : 0 < type) (high : type < 2 ^ 16)
    (moved : s.treeCall L.toSuperblock (.ialloc type) = some t) :
    Grown L t ∧ tree L t.disk = (tree L s.disk).call L (.ialloc type) := by
  rw [Store.treeCall, Fs.ialloc] at moved
  rw [Tree.call, Tree.unused]
  have same : (List.range' 1 (L.ninodes - 1)).find? (fun inum =>
    decide ((readInode L.toSuperblock s.disk inum).type = 0)) =
      (List.range' 1 (L.ninodes - 1)).find? fun j => decide ((tree L s.disk).type j = 0) := by
    apply find?_same
    intro x member
    rw [List.mem_range'_1] at member
    have equal : (tree L s.disk).type x = (readInode L.toSuperblock s.disk x).type := by
      change (onDisk L.toSuperblock s.disk x).type = _
      rw [onDisk, if_pos (show x < L.ninodes by omega)]
    rw [equal]
  rw [same] at moved
  cases found : (List.range' 1 (L.ninodes - 1)).find? fun j => decide ((tree L s.disk).type j = 0) with
  | none =>
    rw [found] at moved
    cases moved
  | some j =>
    rw [found] at moved
    cases moved
    have none' : (onDisk L.toSuperblock s.disk j).type = 0 := by
      have hit := List.find?_some found
      exact of_decide_eq_true hit
    have member := List.mem_of_find?_eq_some found
    rw [List.mem_range'_1] at member
    obtain ⟨size, addrs⟩ := grown.free j none'
    have empty : files L s.disk j = [] := List.eq_nil_of_length_eq_zero (by rw [length_files, size])
    have fits : ({ Inode.empty with type := type } : Inode).Fits :=
      ⟨high, Nat.two_pow_pos 16, Nat.two_pow_pos 16, Nat.two_pow_pos 16, Nat.two_pow_pos 32,
        fun _ => Nat.two_pow_pos 32, fun _ _ => rfl⟩
    have left := left_iupdate grown.kept.proper (show j < L.ninodes by omega) fits size.symm (funext fun i =>
      (addrs i).symm)
    have notDir : (tree L s.disk).names j = fun _ => none := if_neg (by rw [none']; decide)
    have noBytes : (tree L s.disk).bytes j = [] := by
      simp only [tree, empty, ite_self]
    rw [empty] at left
    refine ⟨grown.of_left left (fun _ _ => rfl) (fun ip cached => ?_) (fun _ => ?_) (fun zero =>
      absurd zero (Nat.ne_of_gt low)), ?_⟩
    · have typed := grown.cached j ip cached (by omega)
      rw [grown.kept.through j ip cached (by omega)] at typed
      exact absurd none' typed
    · refine ⟨⟨⟨0, rfl⟩, .nil⟩, fun k v has => ?_⟩
      cases has
    · change tree L (iupdate L.toSuperblock s.disk j _) = _
      rw [tree_left left]
      have nothing : (if ({ Inode.empty with type := type } : Inode).type = T_DIR then names []
        else fun _ => none) = fun _ : List UInt8 => (none : Option ℕ) := by
        split_ifs
        · rfl
        · rfl
      rw [nothing, ite_self, ← notDir, ← noBytes, Function.update_eq_self, Function.update_eq_self]
      rfl

theorem Grown.ifree (grown : Grown L s) (inside : j < L.ninodes) (moved : s.treeCall L.toSuperblock (.ifree j) = some t) :
    Grown L t ∧ tree L t.disk = (tree L s.disk).call L (.ifree j) := by
  obtain ⟨d₁, truncated, left, _⟩ := itrunc_ok grown.kept.proper inside
  rw [Store.treeCall] at moved
  split at moved
  next d' freed =>
    cases moved
    obtain ⟨ip, locked, done⟩ := of_bind_ok freed
    obtain ⟨rfl, _⟩ := grown.ilock inside locked
    rw [Fs.ifree, truncated] at done
    cases done
    have cut : onDisk L.toSuperblock d₁ j = (onDisk L.toSuperblock s.disk j).cut := by
      rw [left.inodes, Function.update_self]
    have fits := (fits_onDisk L.toSuperblock s.disk j).cut
    have gone : ∀ i, (onDisk L.toSuperblock s.disk j).cut.addrs i = 0 := by
      intro i
      rw [Inode.cut]
      dsimp only
      split_ifs with small
      · rfl
      · exact (fits_onDisk L.toSuperblock s.disk j).none i (Nat.lt_of_not_le small)
    have untyped : ({ (onDisk L.toSuperblock s.disk j).cut with type := 0 } : Inode).Fits :=
      ⟨Nat.two_pow_pos 16, fits.major, fits.minor, fits.nlink, fits.size, fits.addrs, fits.none⟩
    have left' := left_iupdate left.proper inside untyped (by rw [cut]) (by rw [cut])
    have whole : Left L s.disk (iupdate L.toSuperblock d₁ j { (onDisk L.toSuperblock s.disk j).cut with type := 0 }) j
        { (onDisk L.toSuperblock s.disk j).cut with type := 0 } [] := by
      refine ⟨left'.proper, ?_, ?_⟩
      · rw [left'.inodes, left.inodes, Function.update_idem]
      · rw [left'.files, left.files, Function.update_self, Function.update_idem]
    refine ⟨grown.of_left whole (fun _ other => Function.update_of_ne other _ _) (fun ip cached => ?_)
      (fun typed => by cases typed) fun _ => ⟨rfl, gone⟩, ?_⟩
    · rw [Function.update_self] at cached
      cases cached
    · rw [tree_left whole, Tree.call]
      have links : Function.update (tree L s.disk).nlink j
          ({ (onDisk L.toSuperblock s.disk j).cut with type := 0 } : Inode).nlink = (tree L s.disk).nlink :=
        Function.update_eq_self _ _
      rw [links]
      rfl
  next => cases moved

private theorem update_cached {ip : Inode} (live : ip'.type ≠ 0) (same : Function.update s.icache j (some ip') j = some ip) :
    ip = ip' ∧ ip'.type ≠ 0 := by
  rw [Function.update_self, Option.some.injEq] at same
  exact ⟨same.symm, live⟩

theorem Grown.setLinks (grown : Grown L s) (inside : j < L.ninodes) {major minor nlink : ℕ}
    (small : major < 2 ^ 16 ∧ minor < 2 ^ 16 ∧ nlink < 2 ^ 16)
    (moved : s.treeCall L.toSuperblock (.setLinks j major minor nlink) = some t) :
    Grown L t ∧ tree L t.disk = (tree L s.disk).call L (.setLinks j major minor nlink) := by
  obtain ⟨ip, locked, moved⟩ := Store.of_after moved
  obtain ⟨rfl, live⟩ := grown.ilock inside locked
  cases moved
  have fits := fits_onDisk L.toSuperblock s.disk j
  have fits' : ({ onDisk L.toSuperblock s.disk j with major := major, minor := minor, nlink := nlink } : Inode).Fits :=
    ⟨fits.type, small.1, small.2.1, small.2.2, fits.size, fits.addrs, fits.none⟩
  have left := left_iupdate grown.kept.proper inside fits' rfl rfl
  refine ⟨grown.of_left left (fun _ other => Function.update_of_ne other _ _) (fun ip => update_cached live)
    (fun type => ⟨grown.dirs j type, grown.names_inside type⟩) fun zero => absurd zero live, ?_⟩
  rw [tree_left left, Tree.call]
  have types : Function.update (tree L s.disk).type j (onDisk L.toSuperblock s.disk j).type = (tree L s.disk).type :=
    Function.update_eq_self _ _
  have maps : Function.update (tree L s.disk).names j ((tree L s.disk).names j) = (tree L s.disk).names :=
    Function.update_eq_self _ _
  have contents : Function.update (tree L s.disk).bytes j ((tree L s.disk).bytes j) = (tree L s.disk).bytes :=
    Function.update_eq_self _ _
  simp only [tree] at types maps contents ⊢
  rw [types, maps, contents]

/-- A call that panics on anything but a directory. -/
theorem dir_of_lookup {α : Type} {ip : Inode} {f : Disk × Inode × Option (ℕ × ℕ) → Except String α} {r : α}
    (done : (Fs.dirlookup L.toSuperblock d ip name >>= f) = .ok r) : ip.type = T_DIR := by
  obtain ⟨_, found, _⟩ := of_bind_ok done
  rw [Fs.dirlookup] at found
  split_ifs at found with type
  exact not_not.mp type

/-- Nothing has changed but what is in memory. -/
theorem Grown.look (grown : Grown L s) (live : (onDisk L.toSuperblock s.disk j).type ≠ 0) :
    Grown L ⟨s.disk, Function.update s.icache j (some (onDisk L.toSuperblock s.disk j))⟩ :=
  grown.of_left (left_refl grown.kept.proper j) (fun _ other => Function.update_of_ne other _ _)
    (fun _ => update_cached live)
    (fun type => ⟨grown.dirs j type, grown.names_inside type⟩) fun zero => absurd zero live

theorem Grown.dirlookup (grown : Grown L s) (inside : j < L.ninodes)
    (moved : s.treeCall L.toSuperblock (.dirlookup j name) = some t) :
    Grown L t ∧ tree L t.disk = tree L s.disk := by
  obtain ⟨ip, locked, moved⟩ := Store.of_after moved
  obtain ⟨rfl, live⟩ := grown.ilock inside locked
  cases looked : Fs.dirlookup L.toSuperblock s.disk (onDisk L.toSuperblock s.disk j) name with
  | error e =>
    rw [looked] at moved
    cases moved
  | ok r =>
    have type : (onDisk L.toSuperblock s.disk j).type = T_DIR := by
      rw [Fs.dirlookup] at looked
      split_ifs at looked with type
      exact not_not.mp type
    rw [dirlookup_eq grown.kept.proper (grown.dirs j type).whole type] at looked
    rw [dirlookup_eq grown.kept.proper (grown.dirs j type).whole type] at moved
    cases moved
    exact ⟨grown.look live, rfl⟩

/-- A directory with other names. -/
theorem Grown.renamed (grown : Grown L s) (type : (onDisk L.toSuperblock s.disk j).type = T_DIR)
    {map : List UInt8 → Option ℕ}
    (renamed : Renamed L s.disk d' j ip' map) (range : ∀ k v, map k = some v → v < L.ninodes) :
    Grown L ⟨d', Function.update s.icache j (some ip')⟩ ∧ tree L d' = (tree L s.disk).setNames j map := by
  obtain ⟨bytes, left, dir, rfl⟩ := renamed.left
  have type' : ip'.type = T_DIR := renamed.kin.1.trans type
  refine ⟨grown.of_left left (fun _ other => Function.update_of_ne other _ _) (fun _ =>
    update_cached (by rw [type']; decide))
    (fun _ => ⟨dir, range⟩) (fun zero => by rw [type'] at zero; cases zero), ?_⟩
  have types : Function.update (tree L s.disk).type j ip'.type = (tree L s.disk).type := by
    rw [renamed.kin.1]
    exact Function.update_eq_self _ _
  have links : Function.update (tree L s.disk).nlink j ip'.nlink = (tree L s.disk).nlink := by
    rw [renamed.kin.2]
    exact Function.update_eq_self _ _
  have contents : Function.update (tree L s.disk).bytes j [] = (tree L s.disk).bytes := by
    rw [Function.update_eq_self_iff]
    exact (if_pos type).symm
  rw [tree_left left, types, links, if_pos type', if_pos type', contents]
  rfl

theorem tree_names (type : (onDisk L.toSuperblock d j).type = T_DIR) :
    (tree L d).names j = names (files L d j) := if_pos type

theorem Grown.dirlink (grown : Grown L s) (inside : j < L.ninodes) {inum : ℕ} (low : 0 < inum)
    (below : inum < L.ninodes) (high : inum < 2 ^ 16)
    (moved : s.treeCall L.toSuperblock (.dirlink j name inum) = some t) :
    Grown L t ∧ tree L t.disk = (tree L s.disk).call L (.dirlink j name inum) := by
  obtain ⟨ip, locked, moved⟩ := Store.of_after moved
  obtain ⟨rfl, live⟩ := grown.ilock inside locked
  cases linked : Fs.dirlink L.toSuperblock s.disk j (onDisk L.toSuperblock s.disk j) name inum with
  | error e =>
    rw [linked] at moved
    cases moved
  | ok r =>
    obtain ⟨d', ip', r⟩ := r
    rw [linked] at moved
    cases moved
    have type : (onDisk L.toSuperblock s.disk j).type = T_DIR := dir_of_lookup linked
    have outcome := dirlink_ok grown.kept.proper inside (grown.dirs j type) type low high linked
    rw [Tree.call, tree_names type]
    split_ifs at outcome ⊢ with absent
    · refine grown.renamed type outcome.2 fun k v has => ?_
      rcases eq_or_ne k (key DIRSIZ name) with rfl | other
      · rw [Function.update_self, Option.some.injEq] at has
        omega
      · rw [Function.update_of_ne other] at has
        exact grown.names_inside type k v has
    · obtain ⟨_, rfl, rfl⟩ := outcome
      exact ⟨grown.look live, rfl⟩

theorem Grown.dirunlink (grown : Grown L s) (inside : j < L.ninodes)
    (moved : s.treeCall L.toSuperblock (.dirunlink j name) = some t) :
    Grown L t ∧ tree L t.disk = (tree L s.disk).call L (.dirunlink j name) := by
  obtain ⟨ip, locked, moved⟩ := Store.of_after moved
  obtain ⟨rfl, live⟩ := grown.ilock inside locked
  cases unlinked : Fs.dirunlink L.toSuperblock s.disk j (onDisk L.toSuperblock s.disk j) name with
  | error e =>
    rw [unlinked] at moved
    cases moved
  | ok r =>
    obtain ⟨d', ip', r⟩ := r
    rw [unlinked] at moved
    cases moved
    have type : (onDisk L.toSuperblock s.disk j).type = T_DIR := dir_of_lookup unlinked
    have outcome := dirunlink_ok grown.kept.proper inside (grown.dirs j type) type unlinked
    rw [Tree.call, tree_names type]
    split_ifs at outcome with absent
    · obtain ⟨_, rfl, rfl⟩ := outcome
      refine ⟨grown.look live, ?_⟩
      have map : Function.update (names (files L s.disk j)) (key DIRSIZ name) none = (tree L s.disk).names j := by
        rw [tree_names type, Function.update_eq_self_iff]
        exact absent.symm
      rw [map, Tree.setNames, Function.update_eq_self]
    · refine grown.renamed type outcome.2 fun k v has => ?_
      rcases eq_or_ne k (key DIRSIZ name) with rfl | other
      · rw [Function.update_self] at has
        cases has
      · rw [Function.update_of_ne other] at has
        exact grown.names_inside type k v has

private theorem tree_bytes (type : (onDisk L.toSuperblock d j).type ≠ T_DIR) : (tree L d).bytes j = files L d j := if_neg type

/-- A file with other bytes. -/
theorem Grown.rewritten (grown : Grown L s) (type : (onDisk L.toSuperblock s.disk j).type ≠ T_DIR)
    (live : (onDisk L.toSuperblock s.disk j).type ≠ 0)
    {b : List UInt8} (left : Left L s.disk d' j ip' b) (kin : Kin (onDisk L.toSuperblock s.disk j) ip') :
    Grown L ⟨d', Function.update s.icache j (some ip')⟩ ∧
    tree L d' = { tree L s.disk with bytes := Function.update (tree L s.disk).bytes j b } := by
  have type' : ip'.type ≠ T_DIR := by rw [kin.1]; exact type
  have live' : ip'.type ≠ 0 := by rw [kin.1]; exact live
  refine ⟨grown.of_left left (fun _ other => Function.update_of_ne other _ _) (fun _ => update_cached live')
    (fun dir => absurd dir type')
    (fun zero => absurd zero live'), ?_⟩
  have types : Function.update (tree L s.disk).type j ip'.type = (tree L s.disk).type := by
    rw [kin.1]
    exact Function.update_eq_self _ _
  have links : Function.update (tree L s.disk).nlink j ip'.nlink = (tree L s.disk).nlink := by
    rw [kin.2]
    exact Function.update_eq_self _ _
  have maps : Function.update (tree L s.disk).names j (fun _ => none) = (tree L s.disk).names := by
    rw [Function.update_eq_self_iff]
    exact (if_neg type).symm
  rw [tree_left left, types, links, if_neg type', if_neg type', maps]

theorem Grown.file (grown : Grown L s) (allowed : Allowed L s (.file c))
    (moved : s.treeCall L.toSuperblock (.file c) = some t) :
    Grown L t ∧ tree L t.disk = (tree L s.disk).call L (.file c) := by
  have proper := grown.kept.proper
  rw [Store.treeCall] at moved
  rw [Tree.call]
  cases c with
  | readi j off n console =>
    obtain ⟨⟨inside, start, count⟩, done⟩ := Option.ite_none_right_eq_some.mp moved
    obtain ⟨ip, locked, done⟩ := Store.of_after done
    obtain ⟨rfl, live⟩ := grown.ilock inside locked
    rcases eq_or_ne (onDisk L.toSuperblock s.disk j).type T_DEV with device | file
    · rw [readi, if_pos device] at done
      cases done
      exact ⟨grown.look live, rfl⟩
    · rw [readi_file file, readData_eq proper j start count] at done
      cases done
      exact ⟨grown.look live, rfl⟩
  | writei j off src console =>
    obtain ⟨⟨inside, start, count⟩, done⟩ := Option.ite_none_right_eq_some.mp moved
    obtain ⟨ip, locked, done⟩ := Store.of_after done
    obtain ⟨rfl, live⟩ := grown.ilock inside locked
    have types : s.type L.toSuperblock j ≠ T_DEV ∧ s.type L.toSuperblock j ≠ T_DIR := allowed
    rw [grown.kept.type inside] at types
    rw [writei_file types.1] at done
    cases wrote : Fs.writeData L.toSuperblock s.disk j (onDisk L.toSuperblock s.disk j) off src with
    | error e =>
      rw [wrote] at done
      cases done
    | ok result =>
      obtain ⟨d', ip', r⟩ := result
      rw [wrote] at done
      cases done
      have outcome := writeData_ok proper inside start count wrote
      have length := length_files L s.disk j
      rw [specify, tree_bytes types.2]
      split_ifs at outcome with refused
      · obtain ⟨_, rfl, rfl⟩ := outcome
        rw [if_neg (by omega)]
        exact ⟨grown.look live, rfl⟩
      · rw [if_pos (by omega)]
        exact grown.rewritten types.2 live outcome.2 (writeData_kin wrote)
  | itrunc j =>
    obtain ⟨inside, done⟩ := Option.ite_none_right_eq_some.mp moved
    obtain ⟨ip, locked, done⟩ := Store.of_after done
    obtain ⟨rfl, live⟩ := grown.ilock inside locked
    have type : s.type L.toSuperblock j ≠ T_DIR := allowed
    rw [grown.kept.type inside] at type
    obtain ⟨d', truncated, left, _⟩ := itrunc_ok proper inside
    rw [truncated] at done
    cases done
    exact grown.rewritten type live left ⟨rfl, rfl⟩
  | forget j =>
    cases moved
    have before : ∀ i ip, Function.update s.icache j none i = some ip → s.icache i = some ip := by
      intro i ip cached
      rcases eq_or_ne i j with rfl | other
      · rw [Function.update_self] at cached
        cases cached
      · rwa [Function.update_of_ne other] at cached
    exact ⟨⟨⟨proper, fun i ip cached => grown.kept.through i ip (before i ip cached)⟩, grown.dirs, grown.free,
      fun i ip cached => grown.cached i ip (before i ip cached), grown.inside⟩, rfl⟩

/-- The layers up to the names, over a disk on which nothing is cached yet. -/
def treeMachine (L : Layout) : Machine Store TreeCall where
  init s := s.icache = (fun _ => none) ∧ Grown L s
  step s := s.treeCall L.toSuperblock

theorem Grown.step (grown : Grown L s) (allowed : Allowed L s a) (moved : s.treeCall L.toSuperblock a = some t) :
    Grown L t ∧ tree L t.disk = (tree L s.disk).call L a := by
  cases a with
  | ialloc type => exact grown.ialloc allowed.1 allowed.2 moved
  | ifree j => exact grown.ifree allowed moved
  | setLinks j major minor nlink => exact grown.setLinks allowed.1 allowed.2 moved
  | dirlookup dp name => exact grown.dirlookup allowed moved
  | dirlink dp name inum => exact grown.dirlink allowed.1 allowed.2.1 allowed.2.2.1 allowed.2.2.2 moved
  | dirunlink dp name => exact grown.dirunlink allowed moved
  | file c => exact grown.file allowed moved

theorem Grown.path {acts : List TreeCall} (grown : Grown L s) (path : (treeMachine L).Path (Allowed L) s acts t) :
    Grown L t ∧ tree L t.disk = acts.foldl (Tree.call L) (tree L s.disk) := by
  induction path with
  | nil => exact ⟨grown, rfl⟩
  | cons allowed step _ ih =>
    obtain ⟨next, made⟩ := grown.step allowed step
    obtain ⟨final, last⟩ := ih next
    rw [List.foldl_cons, ← made]
    exact ⟨final, last⟩

/-- Over every run of calls, the disk holds the tree that the calls are for; directories have whole entries and no
name twice, free inodes have no blocks, and every name is for an inode of the disk. -/
theorem tree_refines {acts : List TreeCall} (start : (treeMachine L).init s)
    (path : (treeMachine L).Path (Allowed L) s acts t) :
    tree L t.disk = acts.foldl (Tree.call L) (tree L s.disk) ∧ Grown L t :=
  (start.2.path path).symm

instance (L : Layout) (s : Store) (a : TreeCall) : Decidable (Allowed L s a) := match a with
  | .ialloc _ => inferInstanceAs (Decidable (_ ∧ _))
  | .ifree _ => inferInstanceAs (Decidable (_ < _))
  | .setLinks _ _ _ _ => inferInstanceAs (Decidable (_ ∧ _ ∧ _ ∧ _))
  | .dirlookup _ _ => inferInstanceAs (Decidable (_ < _))
  | .dirlink _ _ _ => inferInstanceAs (Decidable (_ ∧ _ ∧ _ ∧ _))
  | .dirunlink _ _ => inferInstanceAs (Decidable (_ < _))
  | .file (.readi _ _ _ _) => .isTrue trivial
  | .file (.writei _ _ _ _) => inferInstanceAs (Decidable (_ ∧ _))
  | .file (.itrunc _) => inferInstanceAs (Decidable (_ ≠ _))
  | .file (.forget _) => .isTrue trivial

/-- A directory, a file with a name in it and some bytes, and a second name that goes again. -/
def growth : List TreeCall :=
    [.ialloc 1, .ialloc 2, .setLinks 2 0 0 1, .dirlink 1 [97] 2, .file (.writei 2 0 [5, 6] none), .file (.forget 1),
  .dirlink 1 [98, 0, 7] 2, .dirunlink 1 [97]]

theorem grown_emptyDisk : (treeMachine smallLayout).init ⟨emptyDisk, fun _ => none⟩ := by
  have untyped : ∀ j, (onDisk smallLayout.toSuperblock emptyDisk j).type = 0 := fun j => by rw [onDisk_emptyDisk]; rfl
  refine ⟨rfl, ⟨⟨proper_emptyDisk, fun j ip cached => (by cases cached)⟩, fun j type => ?_, fun j _ => ?_,
    fun j ip cached => (by cases cached), fun j k v has => ?_⟩⟩
  · rw [untyped] at type
    cases type
  · rw [onDisk_emptyDisk]
    exact ⟨rfl, fun _ => rfl⟩
  · simp only [tree, untyped, T_DIR] at has
    cases has

private theorem growth_runs : ∃ t, (treeMachine smallLayout).Path (Allowed smallLayout) ⟨emptyDisk, fun _ => none⟩ growth t ∧
    (tree smallLayout t.disk).type 1 = T_DIR := by
  have success : ((treeMachine smallLayout).runBy (Allowed smallLayout) ⟨emptyDisk, fun _ => none⟩ growth).any
      (fun t => (readInode smallLayout.toSuperblock t.disk 1).type = 1) = true := by
    decide +kernel
  obtain ⟨t, run, typed⟩ := (Option.any_eq_true _ _).mp success
  refine ⟨t, Machine.path_of_runBy run, ?_⟩
  change (onDisk smallLayout.toSuperblock t.disk 1).type = T_DIR
  rw [onDisk, if_pos (by decide)]
  exact of_decide_eq_true typed

theorem tree_refines_growth : ∃ t :
    Store, tree smallLayout t.disk = growth.foldl (Tree.call smallLayout) (tree smallLayout emptyDisk) ∧
    Grown smallLayout t := by
  obtain ⟨t, path, _⟩ := growth_runs
  exact ⟨t, tree_refines grown_emptyDisk path⟩

end Cs537.Fs
