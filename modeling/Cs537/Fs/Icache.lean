import Cs537.Fs.Tree

/-! # The table of inodes in memory

`iget`, `idup`, `ilock`, `iunlock` and `iput` of `fs.c`, over the table of `NINODE` entries with their counts of
references and their locks. The table is here for one process that runs at a time: it sleeps forever if it waits for a
lock, which it must hold itself. A call works with references and locks of its own, beside those that processes and
open files keep between the calls.
-/

namespace Cs537.Fs

open Cs537.Lib

def NINODE : ℕ := 50

def ROOTINO : ℕ := 1

/-- An entry of the table: the fields of `struct inode` that are not on disk, and `ip`, those that are. All inodes are
of one device. -/
structure Entry where
  inum : ℕ
  ref : ℕ
  locked : Bool
  valid : Bool
  ip : Inode

/-- The disk and the table. -/
structure Inodes where
  disk : Disk
  icache : ℕ → Entry

def Inodes.set (s : Inodes) (k : ℕ) (e : Entry) : Inodes := { s with icache := Function.update s.icache k e }

/-- What comes of waiting for a lock that nobody else could release. -/
def asleep : String := "asleep"

/-- Find the entry of an inode, or take one that nobody refers to. -/
def iget (s : Inodes) (inum : ℕ) : Except String (Inodes × ℕ) :=
  match (List.range NINODE).find? fun k => 0 < (s.icache k).ref ∧ (s.icache k).inum = inum with
  | some k => .ok (s.set k { s.icache k with ref := (s.icache k).ref + 1 }, k)
  | none => match (List.range NINODE).find? fun k => (s.icache k).ref = 0 with
    | some k => .ok (s.set k { s.icache k with inum := inum, ref := 1, valid := false }, k)
    | none => .error "iget: no inodes"

def idup (s : Inodes) (k : ℕ) : Inodes := s.set k { s.icache k with ref := (s.icache k).ref + 1 }

/-- Lock an inode, and read it from disk if necessary. -/
def ilock (sb : Superblock) (s : Inodes) (k : ℕ) : Except String Inodes :=
  let e := s.icache k
  if e.ref < 1 then .error "ilock"
  else if e.locked then .error asleep
  else if e.valid then .ok (s.set k { e with locked := true })
  else
    let ip := readInode sb s.disk e.inum
    if ip.type = 0 then .error "ilock: no type" else .ok (s.set k { e with locked := true, valid := true, ip := ip })

def iunlock (s : Inodes) (k : ℕ) : Except String Inodes :=
  let e := s.icache k
  if e.locked = false ∨ e.ref < 1 then .error "iunlock" else .ok (s.set k { e with locked := false })

/-- Drop a reference; the last one to an inode without links frees it. -/
def iput (sb : Superblock) (s : Inodes) (k : ℕ) : Except String Inodes :=
  let e := s.icache k
  if e.locked then .error asleep
  else if e.valid ∧ e.ip.nlink = 0 ∧ e.ref = 1 then do
    let d ← ifree sb s.disk e.inum e.ip
    return { Inodes.set s k { e with ref := 0, valid := false } with disk := d }
  else .ok (s.set k { e with ref := e.ref - 1 })

def iunlockput (sb : Superblock) (s : Inodes) (k : ℕ) : Except String Inodes := do
  let s ← iunlock s k
  iput sb s k

variable {L : Layout} {s t : Inodes} {j k m : ℕ} {e : Entry}

@[simp] theorem Inodes.set_self (s : Inodes) (k : ℕ) (e : Entry) : (s.set k e).icache k = e := Function.update_self _ _ _

theorem Inodes.set_other (s : Inodes) (e : Entry) (other : m ≠ k) :
    (s.set k e).icache m = s.icache m := Function.update_of_ne other _ _

/-- The table between any two steps: entries in use are for different inodes that have a type, and what is in memory
is as on disk. -/
structure Held (L : Layout) (s : Inodes) : Prop where
  grown : Grown L ⟨s.disk, fun _ => none⟩
  single : ∀ k m, 0 < (s.icache k).ref → 0 < (s.icache m).ref → (s.icache k).inum = (s.icache m).inum → k = m
  live : ∀ k, 0 < (s.icache k).ref → k < NINODE ∧ (s.icache k).inum < L.ninodes ∧
    (tree L s.disk).type (s.icache k).inum ≠ 0
  through : ∀ k, 0 < (s.icache k).ref → (s.icache k).valid = true →
    (s.icache k).ip = onDisk L.toSuperblock s.disk (s.icache k).inum

/-- The references and locks of a call: beside `base`, the references that are kept between the calls to the inodes
`who`, it holds `own`, and of these inodes it has locked `locks`. -/
structure Busy (L : Layout) (base who : ℕ → ℕ) (own locks : List ℕ) (s : Inodes) : Prop where
  held : Held L s
  refs : ∀ k, (s.icache k).ref = base k + own.count k
  same : ∀ k, 0 < base k → (s.icache k).inum = who k
  locked : ∀ k, (s.icache k).locked = true ↔ k ∈ locks
  loaded : ∀ k ∈ locks, (s.icache k).valid = true ∧ k ∈ own

/-- Entries in use stay with their inodes. -/
def Stays (s t : Inodes) : Prop := t.disk = s.disk ∧ ∀ k, 0 < (s.icache k).ref → (t.icache k).inum = (s.icache k).inum

theorem Held.set (held : Held L s) (small : 0 < e.ref → k < NINODE)
    (inside : 0 < e.ref → e.inum < L.ninodes ∧ (tree L s.disk).type e.inum ≠ 0)
    (alone : 0 < e.ref → ∀ m, m ≠ k → 0 < (s.icache m).ref → (s.icache m).inum ≠ e.inum)
    (through : 0 < e.ref → e.valid = true → e.ip = onDisk L.toSuperblock s.disk e.inum) : Held L (s.set k e) := by
  refine ⟨held.grown, fun a b usedA usedB equal => ?_, fun m used => ?_, fun m used valid => ?_⟩
  · rcases eq_or_ne a k with rfl | otherA
    · rcases eq_or_ne b a with rfl | otherB
      · rfl
      · rw [Inodes.set_self] at usedA equal
        rw [Inodes.set_other s e otherB] at usedB equal
        exact absurd equal.symm (alone usedA b otherB usedB)
    · rcases eq_or_ne b k with rfl | otherB
      · rw [Inodes.set_self] at usedB equal
        rw [Inodes.set_other s e otherA] at usedA equal
        exact absurd equal (alone usedB a otherA usedA)
      · rw [Inodes.set_other s e otherA] at usedA equal
        rw [Inodes.set_other s e otherB] at usedB equal
        exact held.single a b usedA usedB equal
  · rcases eq_or_ne m k with rfl | other
    · rw [Inodes.set_self] at used ⊢
      exact ⟨small used, inside used⟩
    · rw [Inodes.set_other s e other] at used ⊢
      exact held.live m used
  · rcases eq_or_ne m k with rfl | other
    · rw [Inodes.set_self] at used valid ⊢
      exact through used valid
    · rw [Inodes.set_other s e other] at used valid ⊢
      exact held.through m used valid

/-- Only the count and the lock of an entry in use change. -/
theorem Held.touch (held : Held L s) (used : 0 < (s.icache k).ref) (number : e.inum = (s.icache k).inum)
    (through : e.valid = true → e.ip = onDisk L.toSuperblock s.disk e.inum) : Held L (s.set k e) := by
  obtain ⟨small, inside⟩ := held.live k used
  refine held.set (fun _ => small) (fun _ => by rw [number]; exact inside) (fun _ m other using' equal => ?_)
    fun _ => through
  exact other (held.single m k using' used (equal.trans number))

theorem find?_range {p : ℕ → Prop} [DecidablePred p] {n k : ℕ}
    (found : (List.range n).find? (fun k => decide (p k)) = some k) : k < n ∧ p k := by
  have hit := List.find?_some (p := fun k => decide (p k)) found
  exact ⟨List.mem_range.mp (List.mem_of_find?_eq_some found), of_decide_eq_true hit⟩

theorem find?_range_none {p : ℕ → Prop} [DecidablePred p] {n : ℕ}
    (found : (List.range n).find? (fun k => decide (p k)) = none) : ∀ k < n, ¬ p k := by
  intro k small holds
  have missed := List.find?_eq_none.mp found k (List.mem_range.mpr small)
  exact missed (decide_eq_true holds)

variable {base who : ℕ → ℕ} {own locks : List ℕ}

theorem Busy.used (busy : Busy L base who own locks s) (mine : k ∈ own) : 0 < (s.icache k).ref := by
  rw [busy.refs]
  exact Nat.add_pos_right _ (List.count_pos_iff.mpr mine)

/-- What a step on one entry leaves of a call's references and locks. -/
theorem Busy.set (busy : Busy L base who own locks s) {own' locks' : List ℕ} (held : Held L (s.set k e))
    (count : e.ref = base k + own'.count k)
    (counts : ∀ m, m ≠ k → own'.count m = own.count m) (number : 0 < base k → e.inum = who k)
    (lock : e.locked = true ↔ k ∈ locks')
    (rest : ∀ m, m ≠ k → (m ∈ locks' ↔ m ∈ locks)) (loaded : k ∈ locks' → e.valid = true ∧ k ∈ own') :
    Busy L base who own' locks' (s.set k e) := by
  refine ⟨held, fun m => ?_, fun m kept => ?_, fun m => ?_, fun m member => ?_⟩
  · rcases eq_or_ne m k with rfl | other
    · rw [Inodes.set_self, count]
    · rw [Inodes.set_other s e other, busy.refs, counts m other]
  · rcases eq_or_ne m k with rfl | other
    · rw [Inodes.set_self, number kept]
    · rw [Inodes.set_other s e other, busy.same m kept]
  · rcases eq_or_ne m k with rfl | other
    · rw [Inodes.set_self, lock]
    · rw [Inodes.set_other s e other, busy.locked, rest m other]
  · rcases eq_or_ne m k with rfl | other
    · rw [Inodes.set_self]
      exact loaded member
    · rw [Inodes.set_other s e other]
      obtain ⟨valid, mine⟩ := busy.loaded m ((rest m other).mp member)
      refine ⟨valid, List.count_pos_iff.mp ?_⟩
      rw [counts m other]
      exact List.count_pos_iff.mpr mine

theorem Stays.set (number : 0 < (s.icache k).ref → e.inum = (s.icache k).inum) : Stays s (s.set k e) := by
  refine ⟨rfl, fun m used => ?_⟩
  rcases eq_or_ne m k with rfl | other
  · rw [Inodes.set_self, number used]
  · rw [Inodes.set_other s e other]

private theorem count_cons_other (own : List ℕ) (other : m ≠ k) : (k :: own).count m = own.count m :=
    List.count_cons_of_ne other.symm

/-- A reference more, to an inode that has a type. -/
theorem Busy.iget (busy : Busy L base who own locks s) (inside : j < L.ninodes) (type : (tree L s.disk).type j ≠ 0) :
    (∃ t k, Fs.iget s j = .ok (t, k) ∧ Busy L base who (k :: own) locks t ∧ Stays s t ∧ (t.icache k).inum = j) ∨
      (Fs.iget s j = .error "iget: no inodes" ∧ ∀ k < NINODE, (s.icache k).ref ≠ 0) := by
  have held := busy.held
  rw [Fs.iget]
  cases cached : (List.range NINODE).find? fun k => decide (0 < (s.icache k).ref ∧ (s.icache k).inum = j) with
  | some k =>
    obtain ⟨small, used, number⟩ := find?_range cached
    refine .inl ⟨_, k, rfl, busy.set (held.touch used rfl fun valid => held.through k used valid) ?_
      (fun m other => count_cons_other own other)
      (busy.same k) (busy.locked k) (fun _ _ => Iff.rfl) (fun lock => ⟨(busy.loaded k lock).1, List.mem_cons_self⟩),
        .set fun _ => rfl, ?_⟩
    · change (s.icache k).ref + 1 = _
      rw [busy.refs, List.count_cons_self, Nat.add_assoc]
    · rw [Inodes.set_self]
      exact number
  | none =>
    have absent := find?_range_none cached
    dsimp only
    cases empty : (List.range NINODE).find? fun k => decide ((s.icache k).ref = 0) with
    | some k =>
      obtain ⟨small, unused⟩ := find?_range empty
      have total := busy.refs k
      rw [unused] at total
      have notMine : k ∉ own := fun mine => by
        have positive := List.count_pos_iff.mpr mine
        omega
      refine .inl ⟨_, k, rfl, busy.set (held.set (fun _ => small) (fun _ => ⟨inside, type⟩)
        (fun _ m other used equal => ?_) fun _ valid => (by cases valid)) ?_
        (fun m other => count_cons_other own other) (fun kept => by omega) (busy.locked k) (fun _ _ => Iff.rfl)
          (fun lock => ?_), .set fun used => ?_, ?_⟩
      · exact absent m (held.live m used).1 ⟨used, equal⟩
      · change 1 = _
        rw [List.count_cons_self]
        omega
      · exact absurd (busy.loaded k lock).2 notMine
      · omega
      · rw [Inodes.set_self]
    | none => exact .inr ⟨rfl, find?_range_none empty⟩

/-- Another reference to an inode that a process or an open file refers to. -/
theorem Busy.idup (busy : Busy L base who own locks s) (kept : 0 < base k) :
    Busy L base who (k :: own) locks (Fs.idup s k) ∧ Stays s (Fs.idup s k) := by
  have used : 0 < (s.icache k).ref := by rw [busy.refs]; omega
  refine ⟨busy.set (busy.held.touch used rfl fun valid => busy.held.through k used valid) ?_ (fun m other =>
    count_cons_other own other) (busy.same k)
    (busy.locked k) (fun _ _ => Iff.rfl) (fun lock => ⟨(busy.loaded k lock).1, List.mem_cons_self⟩), .set fun _ => rfl⟩
  change (s.icache k).ref + 1 = _
  rw [busy.refs, List.count_cons_self, Nat.add_assoc]

/-- A lock that nobody has is had at once, on an inode that is as on disk. -/
theorem Busy.ilock (busy : Busy L base who own locks s) (mine : k ∈ own) (unlocked : k ∉ locks) :
    ∃ t, Fs.ilock L.toSuperblock s k = .ok t ∧ Busy L base who own (k :: locks) t ∧ Stays s t := by
  have held := busy.held
  have used := busy.used mine
  obtain ⟨small, inside, type⟩ := held.live k used
  have free : (s.icache k).locked = false := Bool.eq_false_iff.mpr fun lock => unlocked ((busy.locked k).mp lock)
  have after : ∀ e : Entry, e.inum = (s.icache k).inum → e.ref = (s.icache k).ref → e.locked = true → e.valid = true →
      e.ip = onDisk L.toSuperblock s.disk e.inum → Busy L base who own (k :: locks) (s.set k e) ∧
        Stays s (s.set k e) := by
    intro e number refs lock valid through
    refine ⟨busy.set (held.touch used number fun _ => through) (by rw [refs, busy.refs]) (fun _ _ => rfl)
      (fun kept => by rw [number, busy.same k kept])
      (by rw [lock]; exact ⟨fun _ => List.mem_cons_self, fun _ => rfl⟩) (fun m other => ?_) (fun _ => ⟨valid, mine⟩),
        .set fun _ => number⟩
    rw [List.mem_cons]
    exact ⟨fun member => member.resolve_left other, .inr⟩
  rw [Fs.ilock]
  dsimp only
  rw [if_neg (by omega), free, if_neg Bool.false_ne_true]
  split_ifs with valid typed
  · exact ⟨_, rfl, after _ rfl rfl rfl valid (held.through k used valid)⟩
  · change (onDisk L.toSuperblock s.disk (s.icache k).inum).type ≠ 0 at type
    rw [onDisk, if_pos inside] at type
    exact absurd typed type
  · exact ⟨_, rfl, after _ rfl rfl rfl rfl (if_pos inside).symm⟩

theorem Busy.iunlock (busy : Busy L base who own (k :: locks) s) (once : k ∉ locks) :
    ∃ t, Fs.iunlock s k = .ok t ∧ Busy L base who own locks t ∧ Stays s t := by
  have mine := (busy.loaded k List.mem_cons_self).2
  have used := busy.used mine
  have lock : (s.icache k).locked = true := (busy.locked k).mpr List.mem_cons_self
  have passes : ¬ ((s.icache k).locked = false ∨ (s.icache k).ref < 1) := by
    rw [lock]
    rintro (open' | none)
    · cases open'
    · omega
  rw [Fs.iunlock, if_neg passes]
  refine ⟨_, rfl, busy.set (busy.held.touch used rfl fun valid => busy.held.through k used valid) (busy.refs k)
    (fun _ _ => rfl) (busy.same k)
    ⟨fun still => (by cases still), fun member => absurd member once⟩ (fun m other => ?_) (fun member =>
      absurd member once), .set fun _ => rfl⟩
  rw [List.mem_cons]
  exact ⟨.inr, fun member => member.resolve_left other⟩

theorem Busy.ip (busy : Busy L base who own locks s) (lock : k ∈ locks) :
    (s.icache k).ip = onDisk L.toSuperblock s.disk (s.icache k).inum :=
  busy.held.through k (busy.used (busy.loaded k lock).2) (busy.loaded k lock).1

/-- A reference is dropped that is not the last one to an inode without links. -/
theorem Busy.iput (busy : Busy L base who (k :: own) locks s) (unlocked : k ∉ locks)
    (needed : (tree L s.disk).nlink (s.icache k).inum ≠ 0 ∨ 0 < base k ∨ k ∈ own) :
    ∃ t, Fs.iput L.toSuperblock s k = .ok t ∧ Busy L base who own locks t ∧ Stays s t := by
  have used := busy.used List.mem_cons_self
  have total := busy.refs k
  rw [List.count_cons_self] at total
  have free : (s.icache k).locked = false := Bool.eq_false_iff.mpr fun lock => unlocked ((busy.locked k).mp lock)
  have through := busy.held.through k used
  rw [Fs.iput]
  dsimp only
  rw [free, if_neg Bool.false_ne_true, if_neg]
  · refine ⟨_, rfl, busy.set (busy.held.touch used rfl through) ?_ (fun m other => (count_cons_other own other).symm)
      (busy.same k) ?_ (fun _ _ => Iff.rfl)
      (fun lock => absurd lock unlocked), .set fun _ => rfl⟩
    · change (s.icache k).ref - 1 = _
      omega
    · exact ⟨fun lock => (by cases lock), fun lock => absurd lock unlocked⟩
  · rintro ⟨valid, noLinks, last⟩
    rw [through valid] at noLinks
    rcases needed with links | kept | mine
    · exact links noLinks
    · omega
    · have positive := List.count_pos_iff.mpr mine
      omega

end Cs537.Fs
