import Cs537.Fs.Files
import Cs537.Lib.Slots
import Mathlib.Data.List.TakeWhile

/-! # Directories

`dirlookup` and `dirlink` of `fs.c`, and the entry that `sys_unlink` takes out. A directory is a file of entries of 16
bytes; an entry with number zero is empty. The functions find and change entries through `readi` and `writei`, which
here are those for an inode that is not a device, as the type was tested before. So a directory is a table of slots whose
keys are the names as far as `namecmp` looks at them. The references to the inodes that are found come later, with
their table.
-/

namespace Cs537.Fs

open Cs537.Lib

def DIRSIZ : ℕ := 14

/-- `sizeof(struct dirent)`. -/
def DIRENT : ℕ := 16

/-- `strncmp`, of strings with a NUL at their end. -/
def strncmp : ℕ → List UInt8 → List UInt8 → ℤ
  | 0, _, _ => 0
  | n + 1, p, q =>
    if p.headD 0 ≠ 0 ∧ p.headD 0 = q.headD 0 then strncmp n p.tail q.tail else (p.headD 0).toNat - (q.headD 0).toNat

/-- `strncpy`: the bytes that it writes. -/
def strncpy : ℕ → List UInt8 → List UInt8
  | 0, _ => []
  | n + 1, t => t.headD 0 :: if t.headD 0 = 0 then List.replicate n 0 else strncpy n t.tail

def namecmp (s t : List UInt8) : ℤ := strncmp DIRSIZ s t

structure Dirent where
  inum : ℕ
  name : List UInt8

def Dirent.bytes (de : Dirent) : List UInt8 := Memory.leBytes 2 de.inum ++ de.name

/-- The entry in some bytes. -/
def Dirent.read (bytes : List UInt8) : Dirent := ⟨(bytes.headD 0).toNat + 256 * (bytes.tail.headD 0).toNat, bytes.drop 2⟩

/-- The loop of `dirlookup`, with the offset of the entry. -/
def lookupLoop (sb : Superblock) (name : List UInt8) : ℕ → Disk → Inode → ℕ →
    Except String (Disk × Inode × Option (ℕ × ℕ))
  | 0, d, ip, _ => .ok (d, ip, none)
  | fuel + 1, d, ip, off =>
    if off < ip.size then do
      let (d, ip, r) ← readData sb d ip off DIRENT
      if r.map List.length ≠ some DIRENT then .error "dirlookup read"
      else
        let de := Dirent.read (r.getD [])
        if de.inum = 0 then lookupLoop sb name fuel d ip (off + DIRENT)
        else if namecmp name de.name = 0 then .ok (d, ip, some (de.inum, off))
        else lookupLoop sb name fuel d ip (off + DIRENT)
    else .ok (d, ip, none)

/-- Look for a directory entry in a directory: the number of its inode, and its offset. -/
def dirlookup (sb : Superblock) (d : Disk) (ip : Inode) (name : List UInt8) :
    Except String (Disk × Inode × Option (ℕ × ℕ)) :=
  if ip.type ≠ T_DIR then .error "dirlookup not DIR" else lookupLoop sb name (ip.size / DIRENT + 1) d ip 0

/-- The loop of `dirlink`: the offset of an empty entry, or of the end. -/
def emptyLoop (sb : Superblock) : ℕ → Disk → Inode → ℕ → Except String (Disk × Inode × ℕ)
  | 0, d, ip, off => .ok (d, ip, off)
  | fuel + 1, d, ip, off =>
    if off < ip.size then do
      let (d, ip, r) ← readData sb d ip off DIRENT
      if r.map List.length ≠ some DIRENT then .error "dirlink read"
      else if (Dirent.read (r.getD [])).inum = 0 then .ok (d, ip, off)
      else emptyLoop sb fuel d ip (off + DIRENT)
    else .ok (d, ip, off)

/-- What `dirlink` does when the name is not there. -/
def enter (sb : Superblock) (d : Disk) (dp : ℕ) (ip : Inode) (name : List UInt8) (inum : ℕ) :
    Except String (Disk × Inode × ℤ) := do
  let (d, ip, off) ← emptyLoop sb (ip.size / DIRENT + 1) d ip 0
  let (d, ip, r) ← writeData sb d dp ip off (Dirent.bytes ⟨inum, strncpy DIRSIZ name⟩)
  if r ≠ some DIRENT then .error "dirlink" else return (d, ip, 0)

/-- Write a new directory entry into a directory. -/
def dirlink (sb : Superblock) (d : Disk) (dp : ℕ) (ip : Inode) (name : List UInt8) (inum : ℕ) :
    Except String (Disk × Inode × ℤ) := do
  let (d, ip, r) ← dirlookup sb d ip name
  if r.isSome then return (d, ip, -1) else enter sb d dp ip name inum

/-- What `sys_unlink` does to the directory. -/
def dirunlink (sb : Superblock) (d : Disk) (dp : ℕ) (ip : Inode) (name : List UInt8) :
    Except String (Disk × Inode × ℤ) := do
  let (d, ip, r) ← dirlookup sb d ip name
  match r with
  | none => return (d, ip, -1)
  | some (_, off) =>
    let (d, ip, r) ← writeData sb d dp ip off (List.replicate DIRENT 0)
    if r ≠ some DIRENT then .error "unlink: writei" else return (d, ip, 0)

/-- What `strncmp` looks at. -/
def key (n : ℕ) (s : List UInt8) : List UInt8 := (s.take n).takeWhile (· ≠ 0)

variable {n : ℕ} {p q s name bytes : List UInt8}

private theorem key_succ (n : ℕ) (s : List UInt8) : key (n + 1) s = if s.headD 0 = 0 then [] else s.headD 0 :: key n s.tail := by
  cases s with
  | nil => rfl
  | cons a s =>
    rw [key, List.take_succ_cons, List.takeWhile_cons]
    simp only [decide_eq_true_eq, List.headD_cons, List.tail_cons, ne_eq, ite_not]
    rfl

private theorem strncmp_eq_zero : strncmp n p q = 0 ↔ key n p = key n q := by
  induction n generalizing p q with
  | zero => exact ⟨fun _ => rfl, fun _ => rfl⟩
  | succ n ih =>
    have bytes : ((p.headD 0).toNat : ℤ) - (q.headD 0).toNat = 0 ↔ p.headD 0 = q.headD 0 := by
      rw [Int.sub_eq_zero, Int.natCast_inj, UInt8.toNat_inj]
    rw [strncmp, key_succ, key_succ]
    rcases eq_or_ne (p.headD 0) 0 with end_ | more
    · rw [if_neg (fun same => same.1 end_), if_pos end_, bytes, end_]
      constructor
      · exact fun same => by rw [if_pos same.symm]
      · intro same
        by_contra other
        rw [if_neg (Ne.symm other)] at same
        cases same
    · rw [if_neg more]
      rcases eq_or_ne (p.headD 0) (q.headD 0) with equal | other
      · rw [if_pos ⟨more, equal⟩, if_neg (fun zero => more (equal.trans zero)), ih, List.cons.injEq]
        exact ⟨fun rest => ⟨equal, rest⟩, And.right⟩
      · rw [if_neg (fun same => other same.2), bytes]
        refine ⟨fun same => absurd same other, fun same => ?_⟩
        split_ifs at same
        exact (List.cons.inj same).1

private theorem length_strncpy (n : ℕ) (s : List UInt8) : (strncpy n s).length = n := by
  induction n generalizing s with
  | zero => rfl
  | succ n ih =>
    rw [strncpy, List.length_cons]
    split_ifs
    · rw [List.length_replicate]
    · rw [ih]

/-- `namecmp` finds a name that `strncpy` wrote. -/
private theorem key_strncpy (n : ℕ) (s : List UInt8) : key n (strncpy n s) = key n s := by
  induction n generalizing s with
  | zero => rfl
  | succ n ih =>
    rw [key_succ, key_succ, strncpy, List.headD_cons, List.tail_cons]
    split_ifs with last
    · rfl
    · rw [ih]

/-- What an entry is for: nothing, or a name of an inode. -/
def Dirent.slot (de : Dirent) : Option (List UInt8 × ℕ) := if de.inum = 0 then none
    else some (key DIRSIZ de.name, de.inum)

def direntAt (bytes : List UInt8) (i : ℕ) : Dirent := Dirent.read ((bytes.drop (DIRENT * i)).take DIRENT)

/-- The table that a directory is. -/
def slots (bytes : List UInt8) : List (Option (List UInt8 × ℕ)) :=
    (List.range (bytes.length / DIRENT)).map fun i => (direntAt bytes i).slot

variable {L : Layout} {d d' : Disk} {ip' : Inode} {i j m fuel inum : ℕ} {de : Dirent}

private theorem length_slots (bytes : List UInt8) : (slots bytes).length = bytes.length / DIRENT := by simp [slots]

theorem getElem?_slots (inside : i < bytes.length / DIRENT) : (slots bytes)[i]? = some (direntAt bytes i).slot := by
  rw [slots, List.getElem?_map, List.getElem?_range inside]
  rfl

private theorem drop_slots (inside : i < bytes.length / DIRENT) :
    (slots bytes).drop i = (direntAt bytes i).slot :: (slots bytes).drop (i + 1) := by
  have at_ := getElem?_slots inside
  obtain ⟨below, same⟩ := List.getElem?_eq_some_iff.mp at_
  rw [List.drop_eq_getElem_cons below, same]

/-- A read of one entry. -/
theorem readData_entry (proper : Proper L d) (inside : i < (files L d j).length / DIRENT) :
    ∃ bytes, readData L.toSuperblock d (onDisk L.toSuperblock d j) (DIRENT * i) DIRENT = .ok
    (d, onDisk L.toSuperblock d j, some bytes) ∧
      bytes.length = DIRENT ∧ Dirent.read bytes = direntAt (files L d j) i := by
  have size := proper.sizes j
  have length : (files L d j).length = (onDisk L.toSuperblock d j).size := length_fileBytes _ _
  have large : MAXFILE * BSIZE + DIRENT < 2 ^ 32 := by decide
  simp only [DIRENT] at inside large ⊢
  refine ⟨((files L d j).drop (16 * i)).take 16, ?_, ?_, rfl⟩
  · rw [readData_eq proper j (by omega) (by omega), if_neg (by omega)]
  · rw [List.length_take, List.length_drop]
    omega

/-- The loop of `dirlookup` looks at the slots one after the other. -/
private theorem lookupLoop_eq (proper : Proper L d) (whole : DIRENT ∣ (files L d j).length)
    (enough : (files L d j).length / DIRENT < i + fuel) :
    lookupLoop L.toSuperblock name fuel d (onDisk L.toSuperblock d j) (DIRENT * i) = .ok (d, onDisk L.toSuperblock d j,
      (Slots.locate (key DIRSIZ name) i ((slots (files L d j)).drop i)).map fun
      (found : ℕ × ℕ) => (found.1, DIRENT * found.2)) := by
  have length : (files L d j).length = (onDisk L.toSuperblock d j).size := length_fileBytes _ _
  have stop : (files L d j).length / DIRENT ≤ i → (slots (files L d j)).drop i = [] := fun past =>
    List.drop_eq_nil_of_le (by rw [length_slots]; exact past)
  induction fuel generalizing i with
  | zero =>
    rw [stop (by omega)]
    rfl
  | succ fuel ih =>
    rw [lookupLoop]
    rcases Nat.lt_or_ge i ((files L d j).length / DIRENT) with inside | past
    · obtain ⟨bytes, read, size, entry⟩ := readData_entry proper inside
      have later := ih (i := i + 1) (by omega) fun past => List.drop_eq_nil_of_le (by rw [length_slots]; exact past)
      rw [if_pos (by rw [← length]; simp only [DIRENT] at inside ⊢; omega), read, drop_slots inside]
      change (if (some bytes).map List.length ≠ some DIRENT then _ else _) = _
      rw [if_neg (by rw [Option.map_some, size, ne_eq, not_not]), Option.getD_some, entry]
      rw [show DIRENT * i + DIRENT = DIRENT * (i + 1) from (Nat.mul_succ _ _).symm, later, Dirent.slot]
      split_ifs with empty same
      · rfl
      · rw [Slots.locate, if_pos (strncmp_eq_zero.mp same).symm]
        rfl
      · rw [Slots.locate, if_neg (fun equal => same (strncmp_eq_zero.mpr equal.symm))]
    · rw [stop past, if_neg]
      · rfl
      · have all := Nat.mul_div_cancel' whole
        simp only [DIRENT] at all past ⊢
        omega

/-- The loop of `dirlink` ends at the first empty slot. -/
theorem emptyLoop_eq (proper : Proper L d) (whole : DIRENT ∣ (files L d j).length)
    (enough : (files L d j).length / DIRENT < i + fuel)
    (start : i ≤ (files L d j).length / DIRENT) :
    emptyLoop L.toSuperblock fuel d (onDisk L.toSuperblock d j) (DIRENT * i) = .ok (d, onDisk L.toSuperblock d j,
      DIRENT * Slots.vacant i ((slots (files L d j)).drop i)) := by
  have length : (files L d j).length = (onDisk L.toSuperblock d j).size := length_fileBytes _ _
  induction fuel generalizing i with
  | zero => omega
  | succ fuel ih =>
    rw [emptyLoop]
    rcases Nat.lt_or_ge i ((files L d j).length / DIRENT) with inside | past
    · obtain ⟨bytes, read, size, entry⟩ := readData_entry proper inside
      rw [if_pos (by rw [← length]; simp only [DIRENT] at inside ⊢; omega), read, drop_slots inside]
      change (if (some bytes).map List.length ≠ some DIRENT then _ else _) = _
      rw [if_neg (by rw [Option.map_some, size, ne_eq, not_not]), Option.getD_some, entry]
      rw [show DIRENT * i + DIRENT = DIRENT * (i + 1) from (Nat.mul_succ _ _).symm, ih (by omega) inside, Dirent.slot]
      split_ifs with empty
      · rfl
      · rfl
    · rw [List.drop_eq_nil_of_le (by rw [length_slots]; exact past), if_neg]
      · rfl
      · have all := Nat.mul_div_cancel' whole
        simp only [DIRENT] at all past ⊢
        omega

/-- An inode that has changed only in its blocks and its size. -/
def Kin (ip ip' : Inode) : Prop := ip'.type = ip.type ∧ ip'.nlink = ip.nlink

theorem Kin.refl (ip : Inode) : Kin ip ip := ⟨rfl, rfl⟩

theorem Kin.trans {ip₀ ip₁ ip₂ : Inode} (first : Kin ip₀ ip₁) (second : Kin ip₁ ip₂) : Kin ip₀ ip₂ :=
  ⟨second.1.trans first.1, second.2.trans first.2⟩

private theorem bmap_kin {sb : Superblock} {ip : Inode} {bn addr : ℕ} (done : bmap sb d ip bn = .ok (d', ip', addr)) :
    Kin ip ip' := by
  have load : ∀ d₁ ip₁, loadIndirect sb d ip = .ok (d₁, ip₁) → Kin ip ip₁ := by
    intro d₁ ip₁ loaded
    rw [loadIndirect] at loaded
    split_ifs at loaded
    · obtain ⟨_, _, same⟩ := of_bind_ok loaded
      cases same
      exact .refl _
    · cases loaded
      exact .refl _
  rw [bmap] at done
  split_ifs at done
  · obtain ⟨_, _, same⟩ := of_bind_ok done
    cases same
    exact .refl _
  · cases done
    exact .refl _
  · obtain ⟨⟨d₁, ip₁⟩, loaded, rest⟩ := of_bind_ok done
    apply (load d₁ ip₁ loaded).trans
    change bmapEntry sb d₁ ip₁ (bn - NDIRECT) = _ at rest
    rw [bmapEntry] at rest
    split_ifs at rest
    · obtain ⟨_, _, same⟩ := of_bind_ok rest
      cases same
      exact .refl _
    · cases rest
      exact .refl _

private theorem writeLoop_kin {sb : Superblock} {ip : Inode} {off stop : ℕ} {src : List UInt8}
    (done : writeLoop sb fuel d ip off src = .ok (d', ip', stop)) :
    Kin ip ip' := by
  induction fuel generalizing d ip off src with
  | zero =>
    cases done
    exact .refl _
  | succ fuel ih =>
    rw [writeLoop] at done
    split_ifs at done
    · cases done
      exact .refl _
    · obtain ⟨⟨d₁, ip₁, addr⟩, mapped, rest⟩ := of_bind_ok done
      exact (bmap_kin mapped).trans (ih rest)

theorem writeData_kin {sb : Superblock} {ip : Inode} {inum off : ℕ} {src : List UInt8} {r : Option ℕ}
    (done : writeData sb d inum ip off src = .ok (d', ip', r)) :
    Kin ip ip' := by
  rw [writeData] at done
  split_ifs at done
  · cases done
    exact .refl _
  · obtain ⟨⟨d₁, ip₁, stop⟩, looped, rest⟩ := of_bind_ok done
    apply (writeLoop_kin looped).trans
    dsimp only at rest
    split_ifs at rest
    · cases rest
      exact ⟨rfl, rfl⟩
    · cases rest
      exact .refl _

/-- A directory: whole entries, and no name twice. -/
structure IsDir (bytes : List UInt8) : Prop where
  whole : DIRENT ∣ bytes.length
  distinct : Slots.Distinct (slots bytes)

/-- The names in a directory. -/
def names (bytes : List UInt8) : List UInt8 → Option ℕ := Slots.find (slots bytes)

theorem dirlookup_eq (proper : Proper L d) (whole : DIRENT ∣ (files L d j).length)
    (type : (onDisk L.toSuperblock d j).type = T_DIR) :
    dirlookup L.toSuperblock d (onDisk L.toSuperblock d j) name = .ok (d, onDisk L.toSuperblock d j,
      (Slots.locate (key DIRSIZ name) 0 (slots (files L d j))).map fun
      (found : ℕ × ℕ) => (found.1, DIRENT * found.2)) := by
  have length : (files L d j).length = (onDisk L.toSuperblock d j).size := length_fileBytes _ _
  have loop : lookupLoop L.toSuperblock name _ _ _ (DIRENT * 0) = _ := lookupLoop_eq (i := 0) proper whole
    (show (files L d j).length / DIRENT < 0 + ((onDisk L.toSuperblock d j).size / DIRENT + 1) by rw [length]; omega)
  rw [dirlookup, if_neg (not_not.mpr type)]
  exact loop

private theorem direntAt_splice (whole : DIRENT ∣ bytes.length) (start : i ≤ bytes.length / DIRENT) {src : List UInt8}
    (size : src.length = DIRENT) (m : ℕ) :
    direntAt (splice bytes (DIRENT * i) src) m = if m = i then Dirent.read src else direntAt bytes m := by
  have within : DIRENT * i ≤ bytes.length := by
    rw [← Nat.mul_div_cancel' whole]
    exact Nat.mul_le_mul_left DIRENT start
  have apart : ((splice bytes (DIRENT * i) src).drop (DIRENT * m)).take DIRENT =
      if m = i then src else (bytes.drop (DIRENT * m)).take DIRENT := by
    apply List.ext_getElem?
    intro x
    rw [List.getElem?_take, List.getElem?_drop, getElem?_splice within, size]
    rcases Nat.lt_or_ge x DIRENT with inside | outside
    · rw [if_pos inside]
      rcases eq_or_ne m i with rfl | other
      · rw [if_neg (by omega), if_pos (by omega), if_pos rfl, Nat.add_sub_cancel_left]
      · rw [if_neg other, List.getElem?_take, if_pos inside, List.getElem?_drop]
        rcases Nat.lt_or_gt_of_ne other with before | after
        · rw [if_pos (by simp only [DIRENT] at inside ⊢; omega)]
        · rw [if_neg (by simp only [DIRENT]; omega), if_neg (by simp only [DIRENT]; omega)]
    · rw [if_neg (Nat.not_lt.mpr outside)]
      split_ifs
      · rw [List.getElem?_eq_none (by omega)]
      · rw [List.getElem?_take, if_neg (Nat.not_lt.mpr outside)]
  rw [direntAt, apart]
  split_ifs
  · rfl
  · rfl

/-- An entry that is written fills its slot or comes behind the last one. -/
theorem slots_splice (whole : DIRENT ∣ bytes.length) (start : i ≤ bytes.length / DIRENT) {src : List UInt8}
    (size : src.length = DIRENT) :
    DIRENT ∣ (splice bytes (DIRENT * i) src).length ∧ slots (splice bytes (DIRENT * i) src) =
      if i < bytes.length / DIRENT then (slots bytes).set i (Dirent.read src).slot
      else slots bytes ++ [(Dirent.read src).slot] := by
  have all := Nat.mul_div_cancel' whole
  have within : DIRENT * i ≤ bytes.length := by
    rw [← all]
    exact Nat.mul_le_mul_left DIRENT start
  have length : (splice bytes (DIRENT * i) src).length = _ := length_splice within
  rw [size] at length
  have whole' : DIRENT ∣ (splice bytes (DIRENT * i) src).length := by
    rw [length]
    rcases Nat.le_total (bytes.length) (DIRENT * i + DIRENT) with short | long
    · rw [Nat.max_eq_right short]
      exact ⟨i + 1, (Nat.mul_succ _ _).symm⟩
    · rw [Nat.max_eq_left long]
      exact whole
  refine ⟨whole', ?_⟩
  have entries : ∀ b m, (slots b)[m]? = if m < b.length / DIRENT then some (direntAt b m).slot else none := by
    intro b m
    split_ifs with inside
    · exact getElem?_slots inside
    · exact List.getElem?_eq_none (by rw [length_slots]; omega)
  apply List.ext_getElem?
  intro m
  rw [entries, direntAt_splice whole start size, length]
  rcases Nat.lt_or_ge i (bytes.length / DIRENT) with inside | past
  · rw [if_pos inside, List.getElem?_set, length_slots, entries,
      Nat.max_eq_left (by simp only [DIRENT] at all inside ⊢; omega)]
    split_ifs with below same same' same' same'
    all_goals first | rfl | omega
  · rw [if_neg (Nat.not_lt.mpr past), Nat.max_eq_right (by simp only [DIRENT] at all past ⊢; omega)]
    have last : i = bytes.length / DIRENT := Nat.le_antisymm start past
    rw [show (DIRENT * i + DIRENT) / DIRENT = i + 1 by simp only [DIRENT]; omega]
    rcases Nat.lt_trichotomy m i with before | rfl | after
    · rw [if_pos (by omega), if_neg (by omega), List.getElem?_append_left (by rw [length_slots]; omega), entries,
        if_pos (by omega)]
    · rw [if_pos (by omega), if_pos rfl, List.getElem?_append_right (by rw [length_slots]; omega), length_slots,
        ← last, Nat.sub_self]
      rfl
    · rw [if_neg (by omega), List.getElem?_append_right (by rw [length_slots]; omega), length_slots,
        List.getElem?_eq_none]
      rw [List.length_singleton]
      omega

private theorem length_dirent (name : List UInt8) (inum : ℕ) : (Dirent.bytes ⟨inum, strncpy DIRSIZ name⟩).length = DIRENT := by
  rw [Dirent.bytes, List.length_append, Memory.length_leBytes, length_strncpy]
  rfl

/-- A written entry is read back as its name and number. -/
private theorem slot_dirent (name : List UInt8) (low : 0 < inum) (high : inum < 2 ^ 16) :
    (Dirent.read (Dirent.bytes ⟨inum, strncpy DIRSIZ name⟩)).slot = some (key DIRSIZ name, inum) := by
  have number : (UInt8.ofNat inum).toNat + 256 * (UInt8.ofNat (inum / 256)).toNat = inum := by
    rw [UInt8.toNat_ofNat', UInt8.toNat_ofNat']
    omega
  change (Dirent.mk ((UInt8.ofNat inum).toNat + 256 * (UInt8.ofNat (inum / 256)).toNat) (strncpy DIRSIZ name)).slot = _
  rw [number, Dirent.slot, if_neg (Nat.ne_of_gt low), key_strncpy]

private theorem slot_zero : (Dirent.read (List.replicate DIRENT 0)).slot = none := rfl

/-- A call that changed what names the directory has. -/
structure Renamed (L : Layout) (d d' : Disk) (j : ℕ) (ip' : Inode) (map : List UInt8 → Option ℕ) : Prop where
  left : ∃ bytes, Left L d d' j ip' bytes ∧ IsDir bytes ∧ names bytes = map
  kin : Kin (onDisk L.toSuperblock d j) ip'

/-- A successful `dirlink`. -/
theorem dirlink_ok (proper : Proper L d) (inside : j < L.ninodes) (dir : IsDir (files L d j))
    (type : (onDisk L.toSuperblock d j).type = T_DIR)
    (low : 0 < inum) (high : inum < 2 ^ 16) {r : ℤ}
    (done : dirlink L.toSuperblock d j (onDisk L.toSuperblock d j) name inum = .ok (d', ip', r)) :
    if names (files L d j) (key DIRSIZ name) = none then
      r = 0 ∧ Renamed L d d' j ip' (Function.update (names (files L d j)) (key DIRSIZ name) (some inum))
    else r = -1 ∧ d' = d ∧ ip' = onDisk L.toSuperblock d j := by
  have length : (files L d j).length = (onDisk L.toSuperblock d j).size := length_fileBytes _ _
  have size := proper.sizes j
  have large : MAXFILE * BSIZE + DIRENT < 2 ^ 32 := by decide
  rw [dirlink, dirlookup_eq proper dir.whole type] at done
  obtain ⟨_, same, done⟩ := of_bind_ok done
  cases same
  dsimp only at done
  rw [Option.isSome_map] at done
  cases found : Slots.locate (key DIRSIZ name) 0 (slots (files L d j)) with
  | some x =>
    have present : names (files L d j) (key DIRSIZ name) = some x.1 := by rw [names, Slots.find, found, Option.map_some]
    rw [found, if_pos Option.isSome_some] at done
    cases done
    rw [present, if_neg (Option.some_ne_none _)]
    exact ⟨rfl, rfl, rfl⟩
  | none =>
    have absent : names (files L d j) (key DIRSIZ name) = none := by rw [names, Slots.find, found, Option.map_none]
    have empty := emptyLoop_eq (i := 0) proper dir.whole
      (show (files L d j).length / DIRENT < 0 + ((onDisk L.toSuperblock d j).size / DIRENT + 1) by rw [length]; omega)
        (Nat.zero_le _)
    obtain ⟨start, distinct, map⟩ := Slots.insert_vacant dir.distinct absent inum
    rw [length_slots] at start
    rw [length_slots] at distinct map
    rw [found, if_neg (show ¬ (none : Option (ℕ × ℕ)).isSome = true from Bool.false_ne_true)] at done
    rw [Nat.mul_zero, List.drop_zero] at empty
    rw [enter, empty] at done
    obtain ⟨_, same, done⟩ := of_bind_ok done
    cases same
    obtain ⟨⟨d₁, ip₁, r₁⟩, wrote, done⟩ := of_bind_ok done
    dsimp only at wrote done
    have within : DIRENT * Slots.vacant 0 (slots (files L d j)) ≤ (files L d j).length := by
      rw [← Nat.mul_div_cancel' dir.whole]
      exact Nat.mul_le_mul_left DIRENT start
    have outcome := writeData_ok proper inside (by omega) (by rw [length_dirent]; decide) wrote
    obtain ⟨whole, table⟩ := slots_splice dir.whole start (length_dirent name inum)
    rw [slot_dirent name low high] at table
    rw [length_dirent] at outcome
    rw [absent, if_pos rfl]
    split_ifs at outcome with refused
    · rw [outcome.1, if_pos (Option.some_ne_none _).symm] at done
      cases done
    · obtain ⟨rfl, left⟩ := outcome
      rw [if_neg (not_not.mpr rfl)] at done
      cases done
      refine ⟨rfl, ⟨_, left, ⟨whole, ?_⟩, ?_⟩, writeData_kin wrote⟩
      · rw [table]
        exact distinct
      · rw [names, table]
        exact map

/-- `dirlink` panics only for want of a block or when a full directory is as large as a file can be. -/
theorem dirlink_error (proper : Proper L d) (inside : j < L.ninodes) (dir : IsDir (files L d j))
    (type : (onDisk L.toSuperblock d j).type = T_DIR)
    {e : String} (failed : dirlink L.toSuperblock d j (onDisk L.toSuperblock d j) name inum = .error e) :
    e = "balloc: out of blocks" ∨ e = "dirlink" ∧ none ∉ slots (files L d j) ∧
    MAXFILE * BSIZE < (files L d j).length + DIRENT := by
  have length : (files L d j).length = (onDisk L.toSuperblock d j).size := length_fileBytes _ _
  have size := proper.sizes j
  have large : MAXFILE * BSIZE + DIRENT < 2 ^ 32 := by decide
  rw [dirlink, dirlookup_eq proper dir.whole type] at failed
  rcases of_bind_error failed with absurd' | ⟨_, same, failed⟩
  · cases absurd'
  cases same
  dsimp only at failed
  split_ifs at failed with found
  · cases failed
  · have empty := emptyLoop_eq (i := 0) proper dir.whole
      (show (files L d j).length / DIRENT < 0 + ((onDisk L.toSuperblock d j).size / DIRENT + 1) by rw [length]; omega)
        (Nat.zero_le _)
    rw [Nat.mul_zero, List.drop_zero] at empty
    rw [enter, empty] at failed
    rcases of_bind_error failed with absurd' | ⟨_, same, failed⟩
    · cases absurd'
    cases same
    have place := Slots.vacant_cases 0 (slots (files L d j))
    rw [length_slots, Nat.zero_add] at place
    generalize Slots.vacant 0 (slots (files L d j)) = i at place failed
    have all := Nat.mul_div_cancel' dir.whole
    have start : i ≤ (files L d j).length / DIRENT := by
      rcases place with ⟨m, rfl, here⟩ | ⟨rfl, _⟩
      · have below := (List.getElem?_eq_some_iff.mp here).1
        rw [length_slots] at below
        omega
      · exact Nat.le_refl _
    have within : DIRENT * i ≤ (files L d j).length := by
      rw [← all]
      exact Nat.mul_le_mul_left DIRENT start
    rcases of_bind_error failed with writing | ⟨⟨d₁, ip₁, r₁⟩, wrote, rest⟩
    · exact .inl (writeData_error proper (by omega) (by rw [length_dirent]; decide) writing)
    · have outcome := writeData_ok proper inside (by omega) (by rw [length_dirent]; decide) wrote
      rw [length_dirent] at outcome
      dsimp only at rest outcome
      split_ifs at outcome with refused
      · rw [outcome.1, if_pos (Option.some_ne_none _).symm] at rest
        cases rest
        refine .inr ⟨rfl, ?_⟩
        rcases place with ⟨m, rfl, here⟩ | ⟨rfl, full⟩
        · have below := (List.getElem?_eq_some_iff.mp here).1
          rw [length_slots] at below
          simp only [DIRENT, Nat.zero_add] at *
          omega
        · exact ⟨full, by omega⟩
      · rw [outcome.1, if_neg (not_not.mpr rfl)] at rest
        cases rest

/-- A successful removal of a name. -/
theorem dirunlink_ok (proper : Proper L d) (inside : j < L.ninodes) (dir : IsDir (files L d j))
    (type : (onDisk L.toSuperblock d j).type = T_DIR)
    {r : ℤ} (done : dirunlink L.toSuperblock d j (onDisk L.toSuperblock d j) name = .ok (d', ip', r)) :
    if names (files L d j) (key DIRSIZ name) = none then r = -1 ∧ d' = d ∧ ip' = onDisk L.toSuperblock d j
    else r = 0 ∧ Renamed L d d' j ip' (Function.update (names (files L d j)) (key DIRSIZ name) none) := by
  have length : (files L d j).length = (onDisk L.toSuperblock d j).size := length_fileBytes _ _
  have size := proper.sizes j
  have large : MAXFILE * BSIZE + DIRENT < 2 ^ 32 := by decide
  rw [dirunlink, dirlookup_eq proper dir.whole type] at done
  obtain ⟨_, same, done⟩ := of_bind_ok done
  cases same
  dsimp only at done
  cases found : Slots.locate (key DIRSIZ name) 0 (slots (files L d j)) with
  | none =>
    have absent : names (files L d j) (key DIRSIZ name) = none := by rw [names, Slots.find, found, Option.map_none]
    rw [found] at done
    cases done
    rw [absent, if_pos rfl]
    exact ⟨rfl, rfl, rfl⟩
  | some x =>
    obtain ⟨v, i⟩ := x
    have present : names (files L d j) (key DIRSIZ name) = some v := by rw [names, Slots.find, found, Option.map_some]
    obtain ⟨m, place, here⟩ := Slots.locate_some found
    obtain rfl : i = m := by omega
    have below := (List.getElem?_eq_some_iff.mp here).1
    rw [length_slots] at below
    have all := Nat.mul_div_cancel' dir.whole
    have within : DIRENT * i + DIRENT ≤ (files L d j).length := by
      rw [← all, ← Nat.mul_succ]
      exact Nat.mul_le_mul_left DIRENT below
    rw [found] at done
    obtain ⟨⟨d₁, ip₁, r₁⟩, wrote, done⟩ := of_bind_ok done
    dsimp only at wrote done
    have outcome := writeData_ok proper inside (by omega) (by rw [List.length_replicate]; decide) wrote
    rw [List.length_replicate, if_neg (by omega)] at outcome
    obtain ⟨rfl, left⟩ := outcome
    rw [if_neg (not_not.mpr rfl)] at done
    cases done
    obtain ⟨whole, table⟩ := slots_splice dir.whole (Nat.le_of_lt below)
      (show (List.replicate DIRENT (0 : UInt8)).length = DIRENT from List.length_replicate)
    rw [if_pos below, slot_zero] at table
    obtain ⟨distinct, map⟩ := Slots.erase_set dir.distinct here
    rw [present, if_neg (Option.some_ne_none _)]
    refine ⟨rfl, ⟨_, left, ⟨whole, ?_⟩, ?_⟩, writeData_kin wrote⟩
    · rw [table]
      exact distinct
    · rw [names, table]
      exact map

end Cs537.Fs
