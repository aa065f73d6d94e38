import Cs537.Fs.Icache

/-! # Paths

`skipelem` and `namex` of `fs.c`. A path is a string whose parts between slashes, but for empty ones, are names:
`namex` walks along them from directory to directory, with one reference and at most one lock at a time but for the
moment in which it has both a directory and what it found there.
-/

namespace Cs537.Fs

open Cs537.Lib

def slash : UInt8 := 47

/-- A character of a path element. -/
def plain (c : UInt8) : Bool := c ≠ slash ∧ c ≠ 0

/-- The next path element, as far as a name can be long, and the path that follows it without leading slashes. -/
def skipelem (path : List UInt8) : Option (List UInt8 × List UInt8) :=
  let path := path.dropWhile (· = slash)
  if path.headD 0 = 0 then none
  else
    let s := path.takeWhile plain
    some (s.take DIRSIZ, (path.dropWhile plain).dropWhile (· = slash))

/-- `dirlookup` as it is called: with a reference to the inode that is found. -/
def lookup (sb : Superblock) (s : Inodes) (dp : ℕ) (name : List UInt8) : Except String (Inodes × Option (ℕ × ℕ)) := do
  let (d, ip, r) ← dirlookup sb s.disk (s.icache dp).ip name
  let s := { Inodes.set s dp { s.icache dp with ip := ip } with disk := d }
  match r with
  | none => return (s, none)
  | some (inum, off) =>
    let (s, ip) ← iget s inum
    return (s, some (ip, off))

/-- `dirlink` as it is called: the reference to an inode that has the name already is dropped. -/
def link (sb : Superblock) (s : Inodes) (dp : ℕ) (name : List UInt8) (inum : ℕ) : Except String (Inodes × ℤ) := do
  let (s, found) ← lookup sb s dp name
  match found with
  | some (ip, _) =>
    let s ← iput sb s ip
    return (s, -1)
  | none =>
    let (d, ip, r) ← enter sb s.disk (s.icache dp).inum (s.icache dp).ip name inum
    return ({ Inodes.set s dp { s.icache dp with ip := ip } with disk := d }, r)

/-- The loop of `namex`. -/
def namexLoop (sb : Superblock) (nameiparent : Bool) : ℕ → Inodes → ℕ → List UInt8 →
    Except String (Inodes × Option (ℕ × List UInt8))
  | 0, s, _, _ => return (s, none)
  | fuel + 1, s, ip, path =>
    match skipelem path with
    | none =>
      if nameiparent then do
        let s ← iput sb s ip
        return (s, none)
      else return (s, some (ip, []))
    | some (name, path) => do
      let s ← ilock sb s ip
      if (s.icache ip).ip.type ≠ T_DIR then
        let s ← iunlockput sb s ip
        return (s, none)
      else if nameiparent ∧ path.headD 0 = 0 then
        let s ← iunlock s ip
        return (s, some (ip, name))
      else
        let (s, next) ← lookup sb s ip name
        let s ← iunlockput sb s ip
        match next with
        | none => return (s, none)
        | some (next, _) => namexLoop sb nameiparent fuel s next path

/-- Look up the inode for a path name, or that of its parent, with the last element. -/
def namex (sb : Superblock) (s : Inodes) (cwd : ℕ) (path : List UInt8) (nameiparent : Bool) :
    Except String (Inodes × Option (ℕ × List UInt8)) := do
  let (s, ip) ← if path.headD 0 = slash then iget s ROOTINO else .ok (idup s cwd, cwd)
  namexLoop sb nameiparent (path.length + 1) s ip path

/-- What is between the slashes, up to the NUL. -/
def components (path : List UInt8) : List (List UInt8) := ((path.takeWhile (· ≠ 0)).splitOn slash).filter (· ≠ [])

variable {path rest elem name : List UInt8}

private theorem components_slash (path : List UInt8) : components (slash :: path) = components path := by
  have split : ([] ++ slash :: path.takeWhile (· ≠ 0)).splitOn slash = [] :: (path.takeWhile (· ≠ 0)).splitOn slash :=
    List.splitOn_append_cons_self_of_not_mem List.not_mem_nil _
  rw [components, List.takeWhile_cons_of_pos (by decide)]
  rw [List.nil_append] at split
  rw [split]
  rfl

private theorem components_dropWhile (path : List UInt8) : components (path.dropWhile (· = slash)) = components path := by
  induction path with
  | nil => rfl
  | cons c path ih =>
    rw [List.dropWhile_cons]
    split_ifs with same
    · rw [ih, of_decide_eq_true same, components_slash]
    · rfl

private theorem components_end (done : path.headD 0 = 0) : components path = [] := by
  cases path with
  | nil => rfl
  | cons c path =>
    rw [List.headD_cons] at done
    rw [done]
    rfl

private theorem components_append (clean : ∀ c ∈ elem, c ≠ slash ∧ c ≠ 0) (some' : elem ≠ [])
    (stop : rest.headD 0 = slash ∨ rest.headD 0 = 0) :
    components (elem ++ rest) = elem :: components rest := by
  have text : (elem ++ rest).takeWhile (· ≠ 0) = elem ++ rest.takeWhile (· ≠ 0) :=
    List.takeWhile_append_of_pos fun c member => decide_eq_true (clean c member).2
  have noSlash : slash ∉ elem := fun member => (clean slash member).1 rfl
  have kept : ∀ cs, List.filter (fun e : List UInt8 => decide (e ≠ [])) (elem :: cs) = elem :: cs.filter fun e =>
    decide (e ≠ []) := fun cs =>
    List.filter_cons_of_pos (p := fun e : List UInt8 => decide (e ≠ [])) (decide_eq_true some')
  rw [components, text]
  cases rest with
  | nil =>
    rw [List.takeWhile_nil, List.append_nil, List.splitOn_eq_singleton noSlash, kept]
    rfl
  | cons c rest =>
    rw [List.headD_cons] at stop
    rcases stop with rfl | rfl
    · rw [List.takeWhile_cons_of_pos (by decide), List.splitOn_append_cons_self_of_not_mem noSlash, kept,
        components_slash]
      rfl
    · rw [List.takeWhile_cons_of_neg (by decide), List.append_nil, List.splitOn_eq_singleton noSlash, kept]
      rfl

/-- A path that does not begin with a slash: its first element and the rest. -/
theorem components_cons (other : path.headD 0 ≠ slash) (more : path.headD 0 ≠ 0) :
    components path = path.takeWhile plain :: components (path.dropWhile plain) := by
  have whole := List.takeWhile_append_dropWhile (p := plain) (l := path)
  conv_lhs => rw [← whole]
  refine components_append (fun c member => ?_) ?_ ?_
  · have passed := List.mem_takeWhile_imp (p := plain) member
    exact of_decide_eq_true passed
  · cases path with
    | nil => exact absurd rfl more
    | cons c path =>
      rw [List.headD_cons] at other more
      rw [List.takeWhile_cons_of_pos (p := plain) (decide_eq_true ⟨other, more⟩)]
      exact List.cons_ne_nil _ _
  · cases left : path.dropWhile plain with
    | nil => exact .inr rfl
    | cons c rest =>
      have stopped := List.head?_dropWhile_not plain path
      rw [left, List.head?_cons] at stopped
      rw [List.headD_cons]
      have refused := of_decide_eq_false stopped
      by_contra neither
      rw [not_or] at neither
      exact refused neither

private theorem components_nil (other : path.headD 0 ≠ slash) : components path = [] ↔ path.headD 0 = 0 := by
  refine ⟨fun none => ?_, components_end⟩
  by_contra more
  rw [components_cons other more] at none
  cases none

private theorem headD_dropWhile (path : List UInt8) : (path.dropWhile (· = slash)).headD 0 ≠ slash := by
  cases left : path.dropWhile (· = slash) with
  | nil => decide
  | cons c rest =>
    have stopped := List.head?_dropWhile_not (fun c : UInt8 => decide (c = slash)) path
    rw [left, List.head?_cons] at stopped
    rw [List.headD_cons]
    exact of_decide_eq_false stopped

private theorem skipelem_none (none' : skipelem path = none) : components path = [] := by
  rw [skipelem] at none'
  split_ifs at none' with done
  rw [← components_dropWhile]
  exact components_end done

private theorem skipelem_some (found : skipelem path = some (name, rest)) :
    ∃ elem, components path = elem :: components rest ∧ name = elem.take DIRSIZ ∧
    rest.length < path.length ∧ (components rest = [] ↔ rest.headD 0 = 0) := by
  rw [skipelem] at found
  split_ifs at found with done
  rw [Option.some.injEq, Prod.mk.injEq] at found
  obtain ⟨rfl, rfl⟩ := found
  have other := headD_dropWhile path
  refine ⟨_, ?_, rfl, ?_, components_nil (headD_dropWhile _)⟩
  · rw [← components_dropWhile path, components_cons other done, components_dropWhile]
  · have short := List.length_dropWhile_le (fun c : UInt8 => decide (c = slash)) path
    have later := List.length_dropWhile_le (fun c : UInt8 => decide (c = slash))
      ((path.dropWhile (· = slash)).dropWhile plain)
    cases front : path.dropWhile (· = slash) with
    | nil =>
      rw [front] at done
      exact absurd rfl done
    | cons c p =>
      rw [front] at other done short later
      rw [List.headD_cons] at other done
      have gone := List.length_dropWhile_le plain p
      rw [List.dropWhile_cons_of_pos (p := plain) (decide_eq_true ⟨other, done⟩)] at later ⊢
      rw [List.length_cons] at short
      omega

/-- From directory to directory, along names. -/
def Tree.walk (t : Tree) (start : ℕ) (cs : List (List UInt8)) :
    Option ℕ := cs.foldlM (fun j c => t.names j (key DIRSIZ c)) start

/-- What `namex` is for: the inode at the end of a path, or the directory in which its last element is a
name, and that name. -/
def Tree.resolve (t : Tree) (nameiparent : Bool) (start : ℕ) (cs : List (List UInt8)) : Option (ℕ × List UInt8) :=
  if nameiparent then do
    let last ← cs.getLast?
    let j ← t.walk start cs.dropLast
    if t.type j = T_DIR then some (j, last.take DIRSIZ) else none
  else (t.walk start cs).map fun j => (j, [])

variable {L : Layout} {s t : Inodes} {base who : ℕ → ℕ} {own locks : List ℕ} {j k ip fuel : ℕ} {parent : Bool}
  {cs : List (List UInt8)} {c : List UInt8}

/-- One element that is not the last, or not a name to be left. -/
theorem Tree.resolve_cons {T : Tree} (further : ¬ (parent = true ∧ cs = [])) :
    T.resolve parent j (c :: cs) = (T.names j (key DIRSIZ c)).bind fun i => T.resolve parent i cs := by
  rw [Tree.resolve]
  cases parent with
  | false =>
    rw [if_neg Bool.false_ne_true, Tree.walk, List.foldlM_cons]
    cases T.names j (key DIRSIZ c) with
    | none => rfl
    | some i => rfl
  | true =>
    rw [if_pos rfl]
    cases cs with
    | nil => exact absurd ⟨rfl, rfl⟩ further
    | cons c' cs =>
      rw [List.getLast?_cons_cons, List.dropLast_cons_cons, Tree.walk, List.foldlM_cons]
      cases T.names j (key DIRSIZ c) with
      | none =>
        cases (c' :: cs).getLast? with
        | none => rfl
        | some last => rfl
      | some i => rfl

private theorem Tree.resolve_none {T : Tree} (file : T.type j ≠ T_DIR) (empty : ∀ k, T.names j k = none) :
    T.resolve parent j (c :: cs) = none := by
  by_cases further : parent = true ∧ cs = []
  · obtain ⟨rfl, rfl⟩ := further
    change (if T.type j = T_DIR then _ else _) = none
    rw [if_neg file]
  · rw [Tree.resolve_cons further, empty]
    rfl

/-- Every inode that has a name has a type and a link. -/
def Linked (T : Tree) : Prop := ∀ j k v, T.names j k = some v → T.type v ≠ 0 ∧ T.nlink v ≠ 0

theorem Busy.lookup (busy : Busy L base who own (k :: locks) s) (linked : Linked (tree L s.disk))
    (type : (tree L s.disk).type (s.icache k).inum = T_DIR) :
    (∃ t, Fs.lookup L.toSuperblock s k name = .ok (t, none) ∧ Busy L base who own (k :: locks) t ∧ Stays s t ∧
      (tree L s.disk).names (s.icache k).inum (key DIRSIZ name) = none) ∨
    (∃ t m off, Fs.lookup L.toSuperblock s k name = .ok (t, some (m, off)) ∧
    Busy L base who (m :: own) (k :: locks) t ∧ Stays s t ∧
      (tree L s.disk).names (s.icache k).inum (key DIRSIZ name) = some (t.icache m).inum) ∨
    (Fs.lookup L.toSuperblock s k name = .error "iget: no inodes" ∧
      (tree L s.disk).names (s.icache k).inum (key DIRSIZ name) ≠ none ∧ ∀ k < NINODE, (s.icache k).ref ≠ 0) := by
  have lock : k ∈ k :: locks := List.mem_cons_self
  have grown := busy.held.grown
  have ip := busy.ip lock
  have type' : (onDisk L.toSuperblock s.disk (s.icache k).inum).type = T_DIR := type
  have found : dirlookup L.toSuperblock s.disk _ name = _ :=
    dirlookup_eq grown.kept.proper (grown.dirs _ type').whole type'
  have same : { Inodes.set s k { s.icache k with ip := onDisk L.toSuperblock s.disk (s.icache k).inum } with
    disk := s.disk } = s := by
    rw [← ip]
    change Inodes.mk s.disk (Function.update s.icache k (s.icache k)) = s
    rw [Function.update_eq_self]
  have names' : (tree L s.disk).names (s.icache k).inum (key DIRSIZ name) =
      (Slots.locate (key DIRSIZ name) 0 (slots (files L s.disk (s.icache k).inum))).map Prod.fst := by
    rw [tree_names type']
    rfl
  cases place : Slots.locate (key DIRSIZ name) 0 (slots (files L s.disk (s.icache k).inum)) with
  | none =>
    refine .inl ⟨s, ?_, busy, ⟨rfl, fun _ _ => rfl⟩, by rw [names', place]; rfl⟩
    rw [Fs.lookup, ip, found, place]
    exact congrArg (fun s => Except.ok (s, none)) same
  | some at_ =>
    obtain ⟨v, i⟩ := at_
    rw [place, Option.map_some] at names'
    have rest : Fs.lookup L.toSuperblock s k name = (Fs.iget s v).map fun r => (r.1, some (r.2, DIRENT * i)) := by
      rw [Fs.lookup, ip, found, place]
      refine (congrArg (fun s => Fs.iget s v >>= fun r => Except.ok (r.1, some (r.2, DIRENT * i))) same).trans ?_
      cases Fs.iget s v with
      | error e => rfl
      | ok r => rfl
    obtain ⟨t, m, got, busy', stays, number⟩ | ⟨failed, full⟩ :=
      busy.iget (grown.inside _ _ _ names') (linked _ _ _ names').1
    · refine .inr (.inl ⟨t, m, DIRENT * i, by rw [rest, got]; rfl, busy', stays, ?_⟩)
      rw [names', number]
    · exact .inr (.inr ⟨by rw [rest, failed]; rfl, by rw [names']; exact Option.some_ne_none _, full⟩)

/-- A look-up that finds nothing leaves everything as it is, and what follows is that of `dirlink`. -/
private theorem Busy.link_new (busy : Busy L base who own (k :: locks) s) (type : (tree L s.disk).type (s.icache k).inum = T_DIR)
    (absent : (tree L s.disk).names (s.icache k).inum (key DIRSIZ name) = none) (inum : ℕ) :
    link L.toSuperblock s k name inum =
      (dirlink L.toSuperblock s.disk (s.icache k).inum (s.icache k).ip name inum).map fun (d, ip, r) =>
        ({ Inodes.set s k { s.icache k with ip := ip } with disk := d }, r) := by
  have type' : (onDisk L.toSuperblock s.disk (s.icache k).inum).type = T_DIR := type
  have ip := busy.ip List.mem_cons_self
  have found : dirlookup L.toSuperblock s.disk _ name = _ :=
    dirlookup_eq busy.held.grown.kept.proper (busy.held.grown.dirs _ type').whole type'
  rw [tree_names type', names, Slots.find, Option.map_eq_none_iff] at absent
  rw [absent, Option.map_none, ← ip] at found
  have same : { Inodes.set s k { s.icache k with ip := (s.icache k).ip } with disk := s.disk } = s := by
    change Inodes.mk s.disk (Function.update s.icache k (s.icache k)) = s
    rw [Function.update_eq_self]
  have looked : Fs.lookup L.toSuperblock s k name = .ok (s, none) := by
    rw [Fs.lookup, found]
    exact congrArg (fun s => Except.ok (s, none)) same
  rw [link, looked, dirlink, found]
  change (enter L.toSuperblock s.disk _ _ name inum >>= _) = (enter L.toSuperblock s.disk _ _ name inum).map _
  cases enter L.toSuperblock s.disk (s.icache k).inum (s.icache k).ip name inum with
  | error e => rfl
  | ok r => rfl

/-- A name that is there is refused, unless there is no entry for its inode or the inode is one that is locked. -/
private theorem Busy.link_old (busy : Busy L base who own (k :: locks) s) (linked : Linked (tree L s.disk))
    (type : (tree L s.disk).type (s.icache k).inum = T_DIR) {v : ℕ}
    (present : (tree L s.disk).names (s.icache k).inum (key DIRSIZ name) = some v) (inum : ℕ) :
    (∃ t, link L.toSuperblock s k name inum = .ok (t, -1) ∧ Busy L base who own (k :: locks) t ∧ Stays s t) ∨
    (link L.toSuperblock s k name inum = .error "iget: no inodes" ∧ ∀ m < NINODE, (s.icache m).ref ≠ 0) ∨
    (link L.toSuperblock s k name inum = .error asleep ∧ ∃ m ∈ k :: locks, (s.icache m).inum = v) := by
  rcases busy.lookup linked type with ⟨t, looked, _, _, absent⟩ | ⟨t, m, off, looked, busy', stays, found⟩
    | ⟨failed, _, full⟩
  · rw [present] at absent
    cases absent
  · rw [present, Option.some.injEq] at found
    have step : link L.toSuperblock s k name inum = Fs.iput L.toSuperblock t m >>= fun s => .ok (s, -1) := by
      rw [link, looked]
      rfl
    by_cases lock : m ∈ k :: locks
    · refine .inr (.inr ⟨?_, m, lock, ?_⟩)
      · rw [step, Fs.iput, (busy'.locked m).mpr lock]
        rfl
      · rw [found, stays.2 m (busy.used (busy.loaded m lock).2)]
    · have links : (tree L t.disk).nlink (t.icache m).inum ≠ 0 := by
        rw [stays.1, ← found]
        exact (linked _ _ _ present).2
      obtain ⟨u, put, busy₂, stays₂⟩ := busy'.iput lock (.inl links)
      refine .inl ⟨u, by rw [step, put]; rfl, busy₂, stays₂.1.trans stays.1, fun a used => ?_⟩
      rw [stays₂.2 a (by rw [busy'.refs, List.count_cons]; rw [busy.refs] at used; omega), stays.2 a used]
  · refine .inr (.inl ⟨?_, full⟩)
    rw [link, failed]
    rfl

theorem Busy.swap (busy : Busy L base who (j :: k :: own) locks s) : Busy L base who (k :: j :: own) locks s where
  held := busy.held
  refs m := by rw [busy.refs, (List.Perm.swap k j own).count_eq]
  same := busy.same
  locked := busy.locked
  loaded m member := ⟨(busy.loaded m member).1, (List.Perm.swap k j own).mem_iff.mp (busy.loaded m member).2⟩

theorem Busy.iunlockput (busy : Busy L base who (k :: own) (k :: locks) s) (once : k ∉ locks)
    (needed : (tree L s.disk).nlink (s.icache k).inum ≠ 0 ∨ 0 < base k ∨ k ∈ own) :
    ∃ t, Fs.iunlockput L.toSuperblock s k = .ok t ∧ Busy L base who own locks t ∧ Stays s t := by
  obtain ⟨s₁, unlocked, busy₁, stays₁⟩ := busy.iunlock once
  have used : ∀ m, 0 < (s.icache m).ref → 0 < (s₁.icache m).ref := fun m used => by rwa [busy₁.refs, ← busy.refs]
  rw [← stays₁.1, ← stays₁.2 k (busy.used List.mem_cons_self)] at needed
  obtain ⟨t, put, busy₂, stays₂⟩ := busy₁.iput once needed
  refine ⟨t, ?_, busy₂, stays₂.1.trans stays₁.1, fun m live => (stays₂.2 m (used m live)).trans (stays₁.2 m live)⟩
  rw [Fs.iunlockput, unlocked]
  exact put

private theorem key_take (n : ℕ) (c : List UInt8) : key n (c.take n) = key n c := by
  rw [key, key, List.take_take, Nat.min_self]

/-- From a directory to the end of the path: what is found is what the names lead to, and the reference is handed on. -/
theorem Busy.namexLoop (linked : Linked (tree L s.disk)) (busy : Busy L base who [ip] [] s) (long : path.length < fuel)
    (needed : (tree L s.disk).nlink (s.icache ip).inum ≠ 0 ∨ 0 < base ip) :
    (∃ t r, Fs.namexLoop L.toSuperblock parent fuel s ip path = .ok (t, r) ∧ t.disk = s.disk ∧
    Busy L base who (r.map Prod.fst).toList [] t ∧
      r.map (fun x => ((t.icache x.1).inum, x.2)) = (tree L s.disk).resolve parent (s.icache ip).inum (components path)) ∨
    (Fs.namexLoop L.toSuperblock parent fuel s ip path = .error "iget: no inodes" ∧
      ∀ a b, a < NINODE → b < NINODE → base a = 0 → base b = 0 → a = b) := by
  induction fuel generalizing s ip path with
  | zero => omega
  | succ fuel ih =>
    have needed' : ∀ own : List ℕ, (tree L s.disk).nlink (s.icache ip).inum ≠ 0 ∨ 0 < base ip ∨
      ip ∈ own := fun own => needed.imp_right .inl
    cases next : skipelem path with
    | none =>
      have parts := skipelem_none next
      rw [parts]
      cases parent with
      | true =>
        obtain ⟨t, put, busy', stays⟩ := busy.iput List.not_mem_nil (needed' [])
        refine .inl ⟨t, none, ?_, stays.1, busy', rfl⟩
        rw [Fs.namexLoop, next]
        dsimp only
        rw [if_pos rfl, put]
        rfl
      | false =>
        refine .inl ⟨s, some (ip, []), ?_, rfl, busy, rfl⟩
        rw [Fs.namexLoop, next]
        rfl
    | some x =>
      obtain ⟨name, rest⟩ := x
      obtain ⟨elem, parts, rfl, short, ended⟩ := skipelem_some next
      obtain ⟨s₁, locked, busy₁, stays₁⟩ := busy.ilock List.mem_cons_self List.not_mem_nil
      have number := stays₁.2 ip (busy.used List.mem_cons_self)
      have ip₁ := busy₁.ip List.mem_cons_self
      have step : Fs.namexLoop L.toSuperblock parent (fuel + 1) s ip path =
          if (s₁.icache ip).ip.type ≠ T_DIR then Fs.iunlockput L.toSuperblock s₁ ip >>= fun s => .ok (s, none)
          else if parent = true ∧ rest.headD 0 = 0 then Fs.iunlock s₁ ip >>= fun s => .ok (s, some (ip, elem.take DIRSIZ))
          else Fs.lookup L.toSuperblock s₁ ip (elem.take DIRSIZ) >>= fun r => Fs.iunlockput L.toSuperblock r.1 ip >>=
            fun s =>
            match r.2 with
            | none => .ok (s, none)
            | some (next, _) => Fs.namexLoop L.toSuperblock parent fuel s next rest := by
        rw [Fs.namexLoop, next]
        dsimp only
        rw [locked]
        rfl
      rw [stays₁.1, number] at ip₁
      have type₁ : (s₁.icache ip).ip.type = (tree L s.disk).type (s.icache ip).inum := by rw [ip₁]; rfl
      have needed₁ : ∀ own : List ℕ, (tree L s₁.disk).nlink (s₁.icache ip).inum ≠ 0 ∨ 0 < base ip ∨ ip ∈ own := by
        rw [stays₁.1, number]
        exact needed'
      rw [step, parts, type₁]
      split_ifs with file last
      · -- not a directory
        obtain ⟨t, put, busy₂, stays₂⟩ := busy₁.iunlockput List.not_mem_nil (needed₁ [])
        refine .inl ⟨t, none, by rw [put]; rfl, stays₂.1.trans stays₁.1, busy₂, ?_⟩
        have noNames : (tree L s.disk).names (s.icache ip).inum = fun _ => none := if_neg file
        rw [Tree.resolve_none file fun k => by rw [noNames]]
        rfl
      · -- the last name stays as it is
        obtain ⟨rfl, last⟩ := last
        obtain ⟨t, unlocked, busy₂, stays₂⟩ := busy₁.iunlock List.not_mem_nil
        refine .inl ⟨t, some (ip, elem.take DIRSIZ), by rw [unlocked]; rfl, stays₂.1.trans stays₁.1, busy₂, ?_⟩
        rw [ended.mpr last, Option.map_some, stays₂.2 ip (busy₁.used List.mem_cons_self), number]
        change _ = if (tree L s.disk).type (s.icache ip).inum = T_DIR then some ((s.icache ip).inum, elem.take DIRSIZ)
          else none
        rw [if_pos (not_not.mp file)]
      · have further : ¬ (parent = true ∧ components rest = []) := by rwa [ended]
        have type : (tree L s₁.disk).type (s₁.icache ip).inum = T_DIR := by
          rw [stays₁.1, number]
          exact not_not.mp file
        have linked₁ : Linked (tree L s₁.disk) := by rw [stays₁.1]; exact linked
        have found : (∃ t, Fs.lookup L.toSuperblock s₁ ip (elem.take DIRSIZ) = .ok (t, none) ∧ _) ∨
          _ := busy₁.lookup linked₁ type
        rw [stays₁.1, number, key_take] at found
        rw [Tree.resolve_cons further]
        rcases found with ⟨s₂, looked, busy₂, stays₂, names'⟩ | ⟨s₂, m, off, looked, busy₂, stays₂, names'⟩
          | ⟨failed, _, full⟩
        · have number₂ := stays₂.2 ip (busy₁.used List.mem_cons_self)
          obtain ⟨t, put, busy₃, stays₃⟩ :=
            busy₂.iunlockput List.not_mem_nil (by rw [stays₂.1, number₂]; exact needed₁ [])
          refine .inl ⟨t, none, by rw [looked]; change (Fs.iunlockput L.toSuperblock s₂ ip >>= _) = _; rw [put]; rfl,
            stays₃.1.trans (stays₂.1.trans stays₁.1), busy₃, ?_⟩
          rw [names']
          rfl
        · have number₂ := stays₂.2 ip (busy₁.used List.mem_cons_self)
          obtain ⟨t, put, busy₃, stays₃⟩ :=
            busy₂.swap.iunlockput List.not_mem_nil (by rw [stays₂.1, number₂]; exact needed₁ [m])
          have number₃ := stays₃.2 m (busy₂.used List.mem_cons_self)
          have disk : t.disk = s.disk := stays₃.1.trans (stays₂.1.trans stays₁.1)
          have later := ih (by rw [disk]; exact linked) busy₃ (show rest.length < fuel by omega) (.inl (by
            rw [disk, number₃]
            exact (linked _ _ _ names').2))
          rw [disk, number₃] at later
          rw [names', looked]
          change (∃ t' r, (Fs.iunlockput L.toSuperblock s₂ ip >>= _) = _ ∧ _) ∨
            (Fs.iunlockput L.toSuperblock s₂ ip >>= _) = _ ∧ _
          rw [put]
          exact later
        · refine .inr ⟨by rw [failed]; rfl, fun a b belowA belowB freeA freeB => ?_⟩
          have mine : ∀ a, a < NINODE → base a = 0 → a = ip := by
            intro a below free
            have used := full a below
            rw [busy₁.refs, free, Nat.zero_add, ← Nat.pos_iff_ne_zero] at used
            exact List.mem_singleton.mp (List.count_pos_iff.mp used)
          rw [mine a belowA freeA, mine b belowB freeB]

/-- From any state in which no inode is locked, `namex` finds what the names of the tree lead to; it writes nothing,
leaves all references and locks as they were but for one reference to what it returns, and panics only when not even
two entries of the table are free. -/
theorem namex_resolves (held : Held L s) (unlocked : ∀ k, (s.icache k).locked = false) (linked : Linked (tree L s.disk))
    (root : ROOTINO < L.ninodes ∧ (tree L s.disk).type ROOTINO ≠ 0 ∧ (tree L s.disk).nlink ROOTINO ≠ 0) {cwd : ℕ}
    (used : 0 < (s.icache cwd).ref)
    (path : List UInt8) (nameiparent : Bool) :
    (∃ t r, namex L.toSuperblock s cwd path nameiparent = .ok (t, r) ∧
      r.map (fun x => ((t.icache x.1).inum, x.2)) =
        (tree L s.disk).resolve nameiparent (if path.headD 0 = slash then ROOTINO else (s.icache cwd).inum)
        (components path) ∧
      t.disk = s.disk ∧ Held L t ∧ (∀ k, (t.icache k).locked = false) ∧
      (∀ k, 0 < (s.icache k).ref → (t.icache k).inum = (s.icache k).inum) ∧
      ∀ k, (t.icache k).ref = (s.icache k).ref + if r.map Prod.fst = some k then 1 else 0) ∨
    (namex L.toSuperblock s cwd path nameiparent = .error "iget: no inodes" ∧
      ∀ a b, a < NINODE → b < NINODE → (s.icache a).ref = 0 → (s.icache b).ref = 0 → a = b) := by
  have busy : Busy L (fun k => (s.icache k).ref) (fun k => (s.icache k).inum) [] [] s :=
    ⟨held, fun _ => rfl, fun _ _ => rfl, fun k => by rw [unlocked]; simp, fun k member => absurd member List.not_mem_nil⟩
  have outcome : ∀ {s₁ : Inodes} {ip : ℕ}, s₁.disk = s.disk →
    Busy L (fun k => (s.icache k).ref) (fun k => (s.icache k).inum) [ip] [] s₁ →
      (tree L s.disk).nlink (s₁.icache ip).inum ≠ 0 ∨ 0 < (s.icache ip).ref →
      (∃ t r, namexLoop L.toSuperblock nameiparent (path.length + 1) s₁ ip path = .ok (t, r) ∧
        r.map (fun x => ((t.icache x.1).inum, x.2)) = (tree L s.disk).resolve nameiparent (s₁.icache ip).inum
          (components path) ∧
        t.disk = s.disk ∧ Held L t ∧ (∀ k, (t.icache k).locked = false) ∧
          (∀ k, 0 < (s.icache k).ref → (t.icache k).inum = (s.icache k).inum) ∧
        ∀ k, (t.icache k).ref = (s.icache k).ref + if r.map Prod.fst = some k then 1 else 0) ∨
      (namexLoop L.toSuperblock nameiparent (path.length + 1) s₁ ip path = .error "iget: no inodes" ∧
        ∀ a b, a < NINODE → b < NINODE → (s.icache a).ref = 0 → (s.icache b).ref = 0 → a = b) := by
    intro s₁ ip disk busy₁ needed
    rw [← disk] at linked needed ⊢
    refine (busy₁.namexLoop linked (Nat.lt_succ_self _) needed).imp_left ?_
    rintro ⟨t, r, done, same, busy₂, found⟩
    refine ⟨t, r, done, found, same, busy₂.held, fun k => ?_, busy₂.same, fun k => ?_⟩
    · refine Bool.eq_false_iff.mpr fun lock => ?_
      exact List.not_mem_nil ((busy₂.locked k).mp lock)
    · rw [busy₂.refs]
      cases r with
      | none => rfl
      | some x =>
        rw [Option.map_some, Option.toList_some, List.count_singleton]
        simp only [Option.some.injEq, beq_iff_eq]
  rw [namex]
  split_ifs with absolute
  · rcases busy.iget root.1 root.2.1 with ⟨s₁, ip, got, busy₁, stays, number⟩ | ⟨failed, full⟩
    · rw [got, ← number]
      exact outcome stays.1 busy₁ (.inl (by rw [number]; exact root.2.2))
    · rw [failed]
      exact .inr ⟨rfl, fun a b belowA _ freeA _ => absurd freeA (full a belowA)⟩
  · obtain ⟨busy₁, stays⟩ := busy.idup used
    have further := outcome stays.1 busy₁ (.inr used)
    rw [stays.2 cwd used] at further
    exact further

/-- A root with one file in it. -/
def rooted : List TreeCall := [.ialloc 1, .setLinks 1 0 0 1, .ialloc 2, .setLinks 2 0 0 1, .dirlink 1 [97] 2]

private theorem rooted_runs : ∃ t, (treeMachine smallLayout).Path (Allowed smallLayout) ⟨emptyDisk, fun _ => none⟩ rooted t := by
  have success : ((treeMachine smallLayout).runBy (Allowed smallLayout) ⟨emptyDisk, fun _ => none⟩ rooted).isSome := by
    decide +kernel
  obtain ⟨t, run⟩ := Option.isSome_iff_exists.mp success
  exact ⟨t, Machine.path_of_runBy run⟩

private theorem tree_emptyDisk : tree smallLayout emptyDisk = ⟨fun _ => 0, fun _ => 0, fun _ _ => none, fun _ => []⟩ := by
  have untyped : ∀ j, onDisk smallLayout.toSuperblock emptyDisk j = .empty := onDisk_emptyDisk
  have empty : ∀ j, files smallLayout emptyDisk j = [] :=
    fun j => List.eq_nil_of_length_eq_zero (by rw [length_files, untyped]; rfl)
  rw [tree]
  simp only [untyped, empty, ite_self]
  rfl

private theorem rooted_tree : rooted.foldl (Tree.call smallLayout) (tree smallLayout emptyDisk) =
    ⟨Function.update (Function.update (fun _ => 0) 1 1) 2 2,
    Function.update (Function.update (Function.update (Function.update (fun _ => 0) 1 0) 1 1) 2 0) 2 1,
      Function.update (fun _ _ => none) 1 (Function.update (fun _ => none) [97] (some 2)), fun _ => []⟩ := by
  rw [tree_emptyDisk]
  rfl

private theorem rooted_linked : Linked (rooted.foldl (Tree.call smallLayout) (tree smallLayout emptyDisk)) := by
  rw [rooted_tree]
  intro j k v has
  dsimp only at has ⊢
  rcases eq_or_ne j 1 with rfl | other
  · rw [Function.update_self] at has
    rcases eq_or_ne k [97] with rfl | other
    · rw [Function.update_self] at has
      cases has
      exact ⟨by decide, by decide⟩
    · rw [Function.update_of_ne other] at has
      cases has
  · rw [Function.update_of_ne other] at has
    cases has

/-- Only the first entry of the table is in use, for the root. -/
theorem Grown.held_root {cache : ℕ → Option Inode} (grown : Grown L ⟨d, cache⟩) (root : (tree L d).type 1 ≠ 0)
    (inside : 1 < L.ninodes)
    {s : Inodes} (disk : s.disk = d) (number : (s.icache 0).inum = 1) (only : ∀ k, 0 < (s.icache k).ref → k = 0)
    (through : (s.icache 0).valid = true → (s.icache 0).ip = onDisk L.toSuperblock d 1) : Held L s where
  grown := by
    rw [disk]
    exact ⟨⟨grown.kept.proper, fun j ip cached => by cases cached⟩, grown.dirs, grown.free,
      fun j ip cached => (by cases cached), grown.inside⟩
  single a b usedA usedB _ := (only a usedA).trans (only b usedB).symm
  live k used := by
    rw [only k used, number, disk]
    exact ⟨by decide, inside, root⟩
  through k used := by
    rw [only k used, number, disk]
    exact through

/-- A process in the root, and no other inode in memory. -/
def inRoot (d : Disk) : Inodes := ⟨d, fun k => ⟨1, if k = 0 then 1 else 0, false, false, .empty⟩⟩

theorem namex_resolves_rooted : ∃ d :
    Disk, ∃ t r, namex smallLayout.toSuperblock (inRoot d) 0 [47, 97, 47] false = .ok (t, r) ∧
    r.map (fun x => ((t.icache x.1).inum, x.2)) = some (2, []) ∧ t.disk = d := by
  obtain ⟨⟨d, cache⟩, path⟩ := rooted_runs
  obtain ⟨grown, made⟩ := grown_emptyDisk.2.path path
  have linked := rooted_linked
  rw [← made] at linked
  rw [rooted_tree] at made
  have root : (tree smallLayout d).type 1 ≠ 0 ∧ (tree smallLayout d).nlink 1 ≠ 0 := by
    rw [made]
    exact ⟨by decide, by decide⟩
  have held : Held smallLayout (inRoot d) :=
    grown.held_root root.1 (by decide) rfl rfl (fun k => by dsimp only [inRoot]; split_ifs <;> omega) fun valid => by
      cases valid
  rcases namex_resolves held (fun _ => rfl) linked ⟨by decide, root⟩ (show 0 < ((inRoot d).icache 0).ref from
    Nat.one_pos) [47, 97, 47] false with
    ⟨t, r, done, found, disk, _⟩ | ⟨_, full⟩
  · refine ⟨d, t, r, done, ?_, disk⟩
    rw [found, show (inRoot d).disk = d from rfl, made,
      if_pos (show ([47, 97, 47] : List UInt8).headD 0 = slash from rfl)]
    decide
  · exact absurd (full 1 2 (by decide) (by decide) rfl rfl) (by decide)

variable {dp : ℕ} {found : Option ℕ}

/-- A process that has a reference to one inode, and that inode locked. -/
private theorem Held.busy_locked (held : Held L s) (used : 0 < (s.icache dp).ref) (valid : (s.icache dp).valid = true)
    (locked : ∀ k, (s.icache k).locked = true ↔ k = dp) :
    Busy L (fun k => (s.icache k).ref - [dp].count k) (fun k => (s.icache k).inum) [dp] [dp] s := by
  refine ⟨held, fun k => ?_, fun _ _ => rfl, fun k => by rw [locked, List.mem_singleton], fun k lock => ?_⟩
  · rcases eq_or_ne k dp with rfl | other
    · rw [List.count_singleton_self]
      omega
    · rw [List.count_singleton, if_neg (by simpa using other.symm)]
      omega
  · rw [List.mem_singleton.mp lock]
    exact ⟨valid, List.mem_singleton_self dp⟩

private theorem Busy.lookup_answers (busy : Busy L base who [dp] [dp] s) (linked : Linked (tree L s.disk))
    (type : (tree L s.disk).type (s.icache dp).inum = T_DIR)
    (map : (tree L s.disk).names (s.icache dp).inum (key DIRSIZ name) = found) :
    (∃ v r, Fs.lookup L.toSuperblock s dp name = .ok (v, r) ∧ r.map (fun x => (v.icache x.1).inum) = found ∧
    v.disk = s.disk ∧
      ∀ k, (v.icache k).ref = (s.icache k).ref + if r.map Prod.fst = some k then 1 else 0) ∨
    Fs.lookup L.toSuperblock s dp name = .error "iget: no inodes" ∧ found ≠ none ∧
    ∀ k < NINODE, (s.icache k).ref ≠ 0 := by
  rcases busy.lookup linked type with ⟨v, looked, busy', stays, names'⟩ | ⟨v, m, off, looked, busy', stays, names'⟩
    | ⟨failed, there, full⟩
  · exact .inl ⟨v, none, looked, by rw [← map, names']; rfl, stays.1, fun k => (busy'.refs k).trans (busy.refs k).symm⟩
  · refine .inl ⟨v, some (m, off), looked, by rw [← map, names']; rfl, stays.1, fun k => ?_⟩
    have one : [m, dp].count k = [dp].count k + if m = k then 1 else 0 := by
      rw [List.count_cons (a := k) (b := m), beq_eq_decide]
      simp only [decide_eq_true_eq]
    have after := busy'.refs k
    rw [one, ← Nat.add_assoc, ← busy.refs k] at after
    simp only [after, Option.map_some, Option.some.injEq]
  · exact .inr ⟨failed, by rw [← map]; exact there, full⟩

/-- A new name is entered, or there is no room for it. -/
private theorem Busy.link_absent (busy : Busy L base who [dp] [dp] s) (type : (tree L s.disk).type (s.icache dp).inum = T_DIR)
    (absent : (tree L s.disk).names (s.icache dp).inum (key DIRSIZ name) = none) {inum : ℕ} (low : 0 < inum)
    (high : inum < 2 ^ 16) :
    (∀ v r, Fs.link L.toSuperblock s dp name inum = .ok (v, r) → r = 0 ∧ ∀ k, (v.icache k).ref = (s.icache k).ref) ∧
    ∀ e, Fs.link L.toSuperblock s dp name inum = .error e → e = "balloc: out of blocks" ∨
      e = "dirlink" ∧ none ∉ slots (files L s.disk (s.icache dp).inum) ∧
        MAXFILE * BSIZE < (files L s.disk (s.icache dp).inum).length + DIRENT := by
  have grown := busy.held.grown
  have type' : (onDisk L.toSuperblock s.disk (s.icache dp).inum).type = T_DIR := type
  have dir := grown.dirs _ type'
  have inside := (busy.held.live dp (busy.used (List.mem_singleton_self dp))).2.1
  have step := busy.link_new type absent inum
  rw [busy.ip List.mem_cons_self] at step
  rw [tree_names type'] at absent
  rw [step]
  cases entered : dirlink L.toSuperblock s.disk (s.icache dp).inum _ name inum with
  | error e =>
    refine ⟨fun v r done => (by cases done), fun e' failed => ?_⟩
    cases failed
    exact dirlink_error grown.kept.proper inside dir type' entered
  | ok result =>
    obtain ⟨d', ip', r'⟩ := result
    refine ⟨fun v r done => ?_, fun e failed => (by cases failed)⟩
    cases done
    have outcome := dirlink_ok grown.kept.proper inside dir type' low high entered
    rw [if_pos absent] at outcome
    refine ⟨outcome.1, fun k => ?_⟩
    change (Function.update s.icache dp { s.icache dp with ip := ip' } k).ref = _
    rcases eq_or_ne k dp with rfl | other
    · rw [Function.update_self]
    · rw [Function.update_of_ne other]

/-- A name that is there is refused, if there is an entry for its inode and the inode is not the directory itself. -/
private theorem Busy.link_present (busy : Busy L base who [dp] [dp] s) (linked : Linked (tree L s.disk))
    (type : (tree L s.disk).type (s.icache dp).inum = T_DIR) {x : ℕ}
    (present : (tree L s.disk).names (s.icache dp).inum (key DIRSIZ name) = some x) (inum : ℕ) :
    (∀ v r, Fs.link L.toSuperblock s dp name inum = .ok (v, r) → r = -1 ∧ ∀ k, (v.icache k).ref = (s.icache k).ref) ∧
    ∀ e, Fs.link L.toSuperblock s dp name inum = .error e →
      e = "iget: no inodes" ∧ (∀ k < NINODE, (s.icache k).ref ≠ 0) ∨ e = asleep ∧ x = (s.icache dp).inum := by
  rcases busy.link_old linked type present inum with ⟨t, done, busy', _⟩ | ⟨failed, full⟩ | ⟨failed, m, lock, number⟩
  · rw [done]
    refine ⟨fun v r same => ?_, fun e failed => (by cases failed)⟩
    cases same
    exact ⟨rfl, fun k => (busy'.refs k).trans (busy.refs k).symm⟩
  · rw [failed]
    refine ⟨fun v r done => (by cases done), fun e same => ?_⟩
    cases same
    exact .inl ⟨rfl, full⟩
  · rw [failed]
    refine ⟨fun v r done => (by cases done), fun e same => ?_⟩
    cases same
    rw [List.mem_singleton.mp lock] at number
    exact .inr ⟨rfl, number.symm⟩

/-- In every run, and with any references to inodes of its disk: a look-up in a locked directory finds what its map has,
with a reference to it, and panics only when the table has no entry left for it. A new name is refused only if it is
there; the panics of `dirlink` are for want of a block or an entry of the table, or a directory as large as a file can
be, and it sleeps forever when the name is for the directory itself. -/
theorem names_answer {acts : List TreeCall} {s t : Store} (start : (treeMachine L).init s)
    (path : (treeMachine L).Path (Allowed L) s acts t)
    {u : Inodes} (disk : u.disk = t.disk) (held : Held L u) (linked : Linked (tree L u.disk)) {dp : ℕ}
    (used : 0 < (u.icache dp).ref)
    (valid : (u.icache dp).valid = true) (locked : ∀ k, (u.icache k).locked = true ↔ k = dp)
    (type : (tree L u.disk).type (u.icache dp).inum = T_DIR) (name : List UInt8) {found : Option ℕ}
    (map : (acts.foldl (Tree.call L) (tree L s.disk)).names (u.icache dp).inum (key DIRSIZ name) = found) :
    ((∃ v r, lookup L.toSuperblock u dp name = .ok (v, r) ∧ r.map (fun x => (v.icache x.1).inum) = found ∧
    v.disk = u.disk ∧
        ∀ k, (v.icache k).ref = (u.icache k).ref + if r.map Prod.fst = some k then 1 else 0) ∨
      lookup L.toSuperblock u dp name = .error "iget: no inodes" ∧ found ≠ none ∧ ∀ k < NINODE, (u.icache k).ref ≠ 0) ∧
    ∀ inum, 0 < inum → inum < 2 ^ 16 →
      (∀ v r, link L.toSuperblock u dp name inum = .ok (v, r) →
        (r = -1 ↔ found ≠ none) ∧ (r ≠ -1 → r = 0) ∧ ∀ k, (v.icache k).ref = (u.icache k).ref) ∧
      ∀ e, link L.toSuperblock u dp name inum = .error e → e = "balloc: out of blocks" ∨
        e = "dirlink" ∧ none ∉ slots (files L u.disk (u.icache dp).inum) ∧
          MAXFILE * BSIZE < (files L u.disk (u.icache dp).inum).length + DIRENT ∨
        e = "iget: no inodes" ∧ found ≠ none ∧ (∀ k < NINODE, (u.icache k).ref ≠ 0) ∨
        e = asleep ∧ found = some (u.icache dp).inum := by
  obtain ⟨_, made⟩ := start.2.path path
  rw [← made, ← disk] at map
  have busy := held.busy_locked used valid locked
  refine ⟨busy.lookup_answers linked type map, fun inum low high => ?_⟩
  cases found with
  | none =>
    obtain ⟨answer, panic⟩ := busy.link_absent type map low high
    refine ⟨fun v r done => ?_, fun e failed => (panic e failed).imp_right .inl⟩
    obtain ⟨rfl, refs⟩ := answer v r done
    exact ⟨by simp, fun _ => rfl, refs⟩
  | some x =>
    obtain ⟨answer, panic⟩ := busy.link_present linked type map inum
    refine ⟨fun v r done => ?_, fun e failed => .inr (.inr ?_)⟩
    · obtain ⟨rfl, refs⟩ := answer v r done
      exact ⟨by simp, fun other => absurd rfl other, refs⟩
    · refine (panic e failed).imp (fun ⟨same, full⟩ => ⟨same, Option.some_ne_none x, full⟩) fun ⟨same, self⟩ => ?_
      exact ⟨same, congrArg some self⟩

/-- A process has locked the root, and no other inode is in memory. -/
def rootLocked (d : Disk) :
    Inodes := ⟨d, fun k => ⟨1, if k = 0 then 1 else 0, k = 0, k = 0, onDisk smallLayout.toSuperblock d 1⟩⟩

/-- A name that is there is found, and is no new one. -/
theorem names_answer_rooted : ∃ d : Disk,
    (∃ v r, lookup smallLayout.toSuperblock (rootLocked d) 0 [97] = .ok (v, r) ∧
    r.map (fun x => (v.icache x.1).inum) = some 2) ∧
    ∀ v r, link smallLayout.toSuperblock (rootLocked d) 0 [97] 5 = .ok (v, r) → r = -1 := by
  obtain ⟨⟨d, cache⟩, path⟩ := rooted_runs
  obtain ⟨grown, made⟩ := grown_emptyDisk.2.path path
  have linked := rooted_linked
  rw [← made] at linked
  have map : (rooted.foldl (Tree.call smallLayout) (tree smallLayout emptyDisk)).names 1 (key DIRSIZ [97]) = some 2 := by
    rw [rooted_tree]
    rfl
  rw [rooted_tree] at made
  have type : (tree smallLayout d).type 1 = T_DIR := by
    rw [made]
    decide
  have held : Held smallLayout (rootLocked d) :=
    grown.held_root (by rw [type]; decide) (by decide) rfl rfl (fun k => by dsimp only [rootLocked]; split_ifs <;>
      omega) fun _ => rfl
  obtain ⟨looked, linked'⟩ := names_answer (u := rootLocked d) grown_emptyDisk path rfl held linked
    (show 0 < ((rootLocked d).icache 0).ref from Nat.one_pos) rfl (fun k => by simp [rootLocked]) type [97] map
  refine ⟨d, ?_, fun v r done => ?_⟩
  · rcases looked with ⟨v, r, done, found, _⟩ | ⟨_, _, full⟩
    · exact ⟨v, r, done, found⟩
    · exact absurd rfl (full 1 (by decide))
  · exact ((linked' 5 (by decide) (by decide)).1 v r done).1.mpr (by decide)

end Cs537.Fs
