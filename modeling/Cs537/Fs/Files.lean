import Cs537.Fs.Content

/-! # Inodes on disk and in memory

`ilock` reads an inode from the disk and `iupdate` writes it back. Between the calls of the file system the
two are the same: a write that changes the inode in memory also makes the file longer, and is followed by
`iupdate`.
-/

namespace Cs537.Fs

open Cs537.Lib Cs537.Lib.Memory

variable {L : Layout} {d d' : Disk} {ip ip' : Inode} {tab : ℕ → Inode} {nb : ℕ → ℕ} {i j k bn addr b off n : ℕ}
  {src bytes : List UInt8}

/-- An inode without a file. -/
def Inode.empty : Inode := ⟨0, 0, 0, 0, 0, fun _ => 0⟩

/-- The inodes on the disk. -/
def onDisk (sb : Superblock) (d : Disk) (inum : ℕ) : Inode := if inum < sb.ninodes then readInode sb d inum else .empty

/-- The fields of an inode are in the range of their types. -/
structure Inode.Fits (ip : Inode) : Prop where
  type : ip.type < 2 ^ 16
  major : ip.major < 2 ^ 16
  minor : ip.minor < 2 ^ 16
  nlink : ip.nlink < 2 ^ 16
  size : ip.size < 2 ^ 32
  addrs : ∀ i, ip.addrs i < 2 ^ 32
  none : ∀ i, NDIRECT < i → ip.addrs i = 0

@[ext] theorem Inode.ext' {ip ip' : Inode} (type : ip.type = ip'.type) (major : ip.major = ip'.major)
    (minor : ip.minor = ip'.minor)
    (nlink : ip.nlink = ip'.nlink) (size : ip.size = ip'.size) (addrs : ip.addrs = ip'.addrs) : ip = ip' := by
  cases ip
  cases ip'
  simp_all only

private theorem fits_readInode (sb : Superblock) (d : Disk) (inum : ℕ) : (readInode sb d inum).Fits where
  type := le_lt _ _ 2
  major := le_lt _ _ 2
  minor := le_lt _ _ 2
  nlink := le_lt _ _ 2
  size := le_lt _ _ 4
  addrs i := by
    simp only [readInode]
    split_ifs
    · exact le_lt _ _ 4
    · decide
  none i above := if_neg (by omega)

theorem fits_onDisk (sb : Superblock) (d : Disk) (inum : ℕ) : (onDisk sb d inum).Fits := by
  rw [onDisk]
  split_ifs
  · exact fits_readInode sb d inum
  · exact ⟨by decide, by decide, by decide, by decide, by decide, fun _ => Nat.two_pow_pos 32, fun _ _ => rfl⟩

private theorem length_flatMap_leBytes (addrs : ℕ → ℕ) (l : List ℕ) :
    (l.flatMap fun i => leBytes 4 (addrs i)).length = 4 * l.length := by
  induction l with
  | nil => rfl
  | cons i rest ih =>
    rw [List.flatMap_cons, List.length_append, length_leBytes, ih, List.length_cons]
    omega

theorem length_bytes (ip : Inode) : ip.bytes.length = 64 := by
  simp only [Inode.bytes, List.length_append, length_leBytes, length_flatMap_leBytes, List.length_range, NDIRECT]

/-- A field that lies between two parts of a store. -/
theorem le_field {m : Memory} {a : ℤ} {whole f b : List UInt8} {w v : ℕ} (split : whole = f ++ leBytes w v ++ b)
    (small : v < 256 ^ w) {x : ℤ} (place : x = a + f.length) : (m.store a whole).le x w = v := by
  rw [split, place, le_store_part, Nat.mod_eq_of_lt small]

private theorem le_store_addr (m : Memory) (a : ℤ) (fits : ip.Fits) {i : ℕ} (small : i ≤ NDIRECT) :
    (m.store a ip.bytes).le (a + 12 + 4 * i) 4 = ip.addrs i := by
  obtain ⟨rest, all⟩ : ∃ rest, List.range (NDIRECT + 1) = List.range i ++ i :: rest := by
    refine ⟨List.range' (i + 1) (NDIRECT - i), ?_⟩
    rw [List.range_eq_range', List.range_eq_range', ← List.range'_succ, show NDIRECT + 1 = i + (NDIRECT - i + 1) by omega,
      ← List.range'_append_1, Nat.zero_add]
  refine le_field (f := leBytes 2 ip.type ++ leBytes 2 ip.major ++ leBytes 2 ip.minor ++ leBytes 2 ip.nlink ++
    leBytes 4 ip.size ++ (List.range i).flatMap fun i => leBytes 4 (ip.addrs i)) (b :=
      rest.flatMap fun i => leBytes 4 (ip.addrs i))
    ?_ (fits.addrs i) ?_
  · simp only [Inode.bytes, all, List.flatMap_append, List.flatMap_cons, List.append_assoc]
  · simp only [List.length_append, length_leBytes, length_flatMap_leBytes, List.length_range]
    push_cast
    omega

/-- The inode that was written is read back. -/
private theorem readInode_iupdate {sb : Superblock} (fits : ip.Fits) (inum : ℕ) :
    readInode sb (iupdate sb d inum ip) inum = ip := by
  have block : iupdate sb d inum ip (iblock sb inum) = (d (iblock sb inum)).store (slot inum) ip.bytes :=
    Function.update_self ..
  rw [readInode, block]
  apply Inode.ext'
  · exact le_field (f := []) (b := leBytes 2 ip.major ++ leBytes 2 ip.minor ++ leBytes 2 ip.nlink ++ leBytes 4 ip.size ++
      (List.range (NDIRECT + 1)).flatMap fun i => leBytes 4 (ip.addrs i)) (by simp [Inode.bytes]) fits.type (by simp)
  · exact le_field (f := leBytes 2 ip.type) (b := leBytes 2 ip.minor ++ leBytes 2 ip.nlink ++ leBytes 4 ip.size ++
      (List.range (NDIRECT + 1)).flatMap fun i => leBytes 4 (ip.addrs i)) (by simp [Inode.bytes]) fits.major (by simp)
  · exact le_field (f := leBytes 2 ip.type ++ leBytes 2 ip.major) (b := leBytes 2 ip.nlink ++ leBytes 4 ip.size ++
      (List.range (NDIRECT + 1)).flatMap fun i => leBytes 4 (ip.addrs i)) (by simp [Inode.bytes]) fits.minor (by simp)
  · exact le_field (f := leBytes 2 ip.type ++ leBytes 2 ip.major ++ leBytes 2 ip.minor) (b := leBytes 4 ip.size ++
      (List.range (NDIRECT + 1)).flatMap fun i => leBytes 4 (ip.addrs i)) (by simp [Inode.bytes]) fits.nlink (by simp)
  · exact le_field (f := leBytes 2 ip.type ++ leBytes 2 ip.major ++ leBytes 2 ip.minor ++ leBytes 2 ip.nlink)
      (b := (List.range (NDIRECT + 1)).flatMap fun i => leBytes 4 (ip.addrs i)) (by simp [Inode.bytes]) fits.size
        (by simp)
  · funext i
    simp only
    split_ifs with small
    · exact le_store_addr _ _ fits small
    · exact (fits.none i (by omega)).symm

/-- Other inodes, in the same block or not, stay. -/
private theorem readInode_iupdate_other {sb : Superblock} (ip : Inode) (other : i ≠ j) :
    readInode sb (iupdate sb d j ip) i = readInode sb d i := by
  have apart : iblock sb i = iblock sb j → i % IPB ≠ j % IPB := by
    intro block place
    simp only [iblock, IPB] at block place
    omega
  have same : ∀ (o : ℤ) (w : ℕ), 0 ≤ o → o + w ≤ 64 →
      (iupdate sb d j ip (iblock sb i)).le (slot i + o) w = (d (iblock sb i)).le (slot i + o) w := by
    intro o w low high
    rw [iupdate]
    rcases eq_or_ne (iblock sb i) (iblock sb j) with block | block
    · rw [block, Function.update_self]
      apply le_store_outside
      have := apart block
      rw [length_bytes, slot, slot]
      omega
    · rw [Function.update_of_ne block]
  rw [readInode, readInode]
  apply Inode.ext'
  · have field := same 0 2 (by omega) (by omega)
    rw [add_zero] at field
    exact field
  · exact same 2 2 (by omega) (by omega)
  · exact same 4 2 (by omega) (by omega)
  · exact same 6 2 (by omega) (by omega)
  · exact same 8 4 (by omega) (by omega)
  · funext k
    simp only
    split_ifs with small
    · have field := same (12 + 4 * k) 4 (by omega) (by rw [NDIRECT] at small; omega)
      rw [← add_assoc] at field
      exact field
    · rfl

theorem Layout.iblock_lt (L : Layout) (inside : j < L.ninodes) : iblock L.toSuperblock j < L.bmapstart := by
  have group : j / IPB ≤ L.ninodes / IPB := Nat.div_le_div_right (Nat.le_of_lt inside)
  exact (Nat.add_le_add_right group _).trans_lt L.inodes

theorem onDisk_iupdate (fits : ip.Fits) (inside : j < L.ninodes) :
    onDisk L.toSuperblock (iupdate L.toSuperblock d j ip) = Function.update (onDisk L.toSuperblock d) j ip := by
  funext i
  rcases eq_or_ne i j with rfl | other
  · rw [Function.update_self, onDisk, if_pos inside, readInode_iupdate fits]
  · rw [Function.update_of_ne other, onDisk, onDisk, readInode_iupdate_other ip other]

/-- The inodes depend on the blocks below the free map alone. -/
theorem onDisk_congr (same : ∀ b < L.bmapstart, d' b = d b) : onDisk L.toSuperblock d' = onDisk L.toSuperblock d := by
  funext j
  rw [onDisk, onDisk]
  split_ifs with inside
  · rw [readInode, readInode, same _ (L.iblock_lt inside)]
  · rfl

/-- The files of a disk. -/
def files (L : Layout) (d : Disk) (j : ℕ) : List UInt8 := fileBytes d (onDisk L.toSuperblock d j)

/-- A disk on which each file has just the blocks that its size needs. -/
structure Proper (L : Layout) (d : Disk) : Prop where
  sound : Sound L d (onDisk L.toSuperblock d) fun j => blocksOf (onDisk L.toSuperblock d j).size
  sizes : ∀ j, (onDisk L.toSuperblock d j).size ≤ MAXFILE * BSIZE

/-- Writing an inode block touches neither the free map nor what files own. -/
theorem Sound.inode (sound : Sound L d tab nb) (low : b < L.bmapstart) (m : Memory) :
    Sound L (Function.update d b m) tab nb ∧ ∀ i x, byteAt (Function.update d b m) (tab i) x = byteAt d (tab i) x := by
  have map := L.map_lt
  have keeps : ∀ i k c, ref d (tab i) k = some c → Function.update d b m c = d c := by
    intro i k c has
    have inside := sound.inside has
    exact Function.update_of_ne (by omega) _ _
  have names : ∀ i k, ref (Function.update d b m) (tab i) k = ref d (tab i) k := fun i k =>
    ref_congr (fun bp has => keeps i _ bp has) k
  have marks : Used L.toSuperblock (Function.update d b m) = Used L.toSuperblock d := by
    apply used_congr
    intro c below
    have bounds := L.bblock_bounds below
    exact Function.update_of_ne (by omega) _ _
  refine ⟨sound.congr marks names, fun i x => ?_⟩
  rw [byteAt, byteAt, names]
  cases has : ref d (tab i) (x / BSIZE) with
  | none => rfl
  | some c =>
    simp only
    rw [keeps i _ c has]

theorem length_fileBytes (d : Disk) (ip : Inode) : (fileBytes d ip).length = ip.size := by simp [fileBytes]

theorem getElem?_fileBytes (d : Disk) (ip : Inode) (x : ℕ) :
    (fileBytes d ip)[x]? = if x < ip.size then some (byteAt d ip x) else none := by
  rw [fileBytes, List.getElem?_map]
  split_ifs with inside
  · rw [List.getElem?_range inside]
    rfl
  · rw [List.getElem?_eq_none (by simpa using inside)]
    rfl

private theorem fileBytes_congr (size : ip'.size = ip.size) (same : ∀ x < ip.size, byteAt d' ip' x = byteAt d ip x) :
    fileBytes d' ip' = fileBytes d ip := by
  rw [fileBytes, fileBytes, size]
  exact List.map_congr_left fun x member => same x (List.mem_range.mp member)

/-- `readData` refuses an offset behind the end and a sum that wraps, and otherwise returns what the file
has there; it changes nothing, not even where it asks `bmap` for a block. -/
theorem readData_eq (proper : Proper L d) (j : ℕ) (start : off < 2 ^ 32) (count : n < 2 ^ 32) :
    readData L.toSuperblock d (onDisk L.toSuperblock d j) off n = .ok (d, onDisk L.toSuperblock d j,
      if (onDisk L.toSuperblock d j).size < off ∨ 2 ^ 32 ≤ off + n then none
      else some (((files L d j).drop off).take n)) := by
  have size := proper.sizes j
  have wrap : uint32 (off + n : ℕ) = (off + n) % 2 ^ 32 := by
    rw [uint32]
    omega
  rw [readData, wrap]
  rcases Decidable.em ((onDisk L.toSuperblock d j).size < off ∨ 2 ^ 32 ≤ off + n) with refused | inside
  · rw [if_pos (by omega), if_pos refused]
  · have short : (off + n) % 2 ^ 32 = off + n := Nat.mod_eq_of_lt (by omega)
    rw [if_neg (by omega), if_neg inside, short]
    dsimp only
    generalize counted : (if (onDisk L.toSuperblock d j).size < off + n then (onDisk L.toSuperblock d j).size - off
      else n) = len
    have stop : off + len ≤ (onDisk L.toSuperblock d j).size := by
      rw [← counted]
      split_ifs <;> omega
    rw [readLoop_eq proper.sound len (Nat.le_refl _) (by simp only [blocksOf, BSIZE]; omega)]
    change Except.ok (d, onDisk L.toSuperblock d j, _) = _
    congr 4
    apply List.ext_getElem?
    intro i
    rw [List.getElem?_take, List.getElem?_drop, files, getElem?_fileBytes, List.getElem?_map]
    rcases Nat.lt_or_ge i len with inside | outside
    · have whole : i < n := by
        rw [← counted] at inside
        split_ifs at inside <;> omega
      rw [List.getElem?_range inside, if_pos whole, if_pos (by omega)]
      rfl
    · rw [List.getElem?_eq_none (by simpa using outside)]
      rw [← counted] at outside
      split_ifs at outside ⊢
      all_goals first | rfl | omega

/-- What a call leaves: a proper disk on which one inode and one file may have changed. -/
structure Left (L : Layout) (d d' : Disk) (j : ℕ) (ip' : Inode) (bytes : List UInt8) : Prop where
  proper : Proper L d'
  inodes : onDisk L.toSuperblock d' = Function.update (onDisk L.toSuperblock d) j ip'
  files : files L d' = Function.update (files L d) j bytes

theorem left_refl (proper : Proper L d) (j : ℕ) : Left L d d j (onDisk L.toSuperblock d j) (files L d j) :=
  ⟨proper, (Function.update_eq_self ..).symm, (Function.update_eq_self ..).symm⟩

/-- A call that ends with the inode on disk as it is in memory. -/
theorem left_of_sound {m : Memory} {b : ℕ} (low : b < L.bmapstart)
    (sound : Sound L d' (Function.update (onDisk L.toSuperblock d) j ip') nb)
    (inodes : onDisk L.toSuperblock (Function.update d' b m) = Function.update (onDisk L.toSuperblock d) j ip')
    (counts : ∀ i, nb i = blocksOf (Function.update (onDisk L.toSuperblock d) j ip' i).size)
    (sizes : ∀ i, (onDisk L.toSuperblock d i).size ≤ MAXFILE * BSIZE) (size : ip'.size ≤ MAXFILE * BSIZE)
    (others : ∀ i, i ≠ j →
    ∀ x < MAXFILE * BSIZE, byteAt d' (onDisk L.toSuperblock d i) x = byteAt d (onDisk L.toSuperblock d i) x)
    (mine : fileBytes d' ip' = bytes) : Left L d (Function.update d' b m) j ip' bytes := by
  obtain ⟨kept, bytesKept⟩ := sound.inode low m
  refine ⟨⟨?_, fun i => ?_⟩, inodes, ?_⟩
  · rw [inodes]
    rw [show nb = fun i => blocksOf (Function.update (onDisk L.toSuperblock d) j ip' i).size from funext counts] at kept
    exact kept
  · rw [inodes]
    rcases eq_or_ne i j with rfl | other
    · rw [Function.update_self]
      exact size
    · rw [Function.update_of_ne other]
      exact sizes i
  · funext i
    rw [files, inodes]
    rcases eq_or_ne i j with rfl | other
    · rw [Function.update_self, Function.update_self, ← mine]
      apply fileBytes_congr rfl
      intro x _
      have same := bytesKept i x
      rw [Function.update_self] at same
      exact same
    · rw [Function.update_of_ne other, Function.update_of_ne other, files]
      apply fileBytes_congr rfl
      intro x inside
      have same := bytesKept i x
      rw [Function.update_of_ne other] at same
      exact same.trans (others i other x (by have := sizes i; omega))

/-- The inode that a write leaves. -/
private theorem Wrote.fileBytes_eq (wrote : Wrote L d d' tab nb j off src ip') (within : off ≤ (tab j).size)
    (fits : off + src.length ≤ MAXFILE * BSIZE) (size : (tab j).size ≤ MAXFILE * BSIZE) :
    fileBytes d' { ip' with size := max (tab j).size (off + src.length) } = splice (fileBytes d (tab j)) off src := by
  have bytesAt : ∀ x, byteAt d' { ip' with size := max (tab j).size (off + src.length) } x = byteAt d' ip' x :=
    fun _ => rfl
  apply List.ext_getElem?
  intro x
  rw [getElem?_splice (by rw [length_fileBytes]; exact within), getElem?_fileBytes, getElem?_fileBytes]
  simp only [bytesAt]
  rcases Nat.lt_or_ge x (max (tab j).size (off + src.length)) with inside | outside
  · have read := wrote.bytes j x (by omega)
    rw [Function.update_self] at read
    rw [if_pos inside, read]
    rcases Nat.lt_or_ge x off with early | late
    · rw [if_neg (by omega), if_pos early, if_pos (by omega)]
    · rw [if_neg (show ¬ x < off by omega)]
      rcases Nat.lt_or_ge x (off + src.length) with stored | behind
      · rw [if_pos ⟨rfl, late, stored⟩, if_pos stored, List.getD_eq_getElem?_getD, List.getElem?_eq_getElem (by omega)]
        rfl
      · rw [if_neg (by omega), if_neg (by omega), if_pos (by omega)]
  · rw [if_neg (by omega), if_neg (by omega), if_neg (by omega), if_neg (by omega)]

/-- The inode that a write leaves has its fields in range. -/
theorem Wrote.fits (wrote : Wrote L d d' tab nb j off src ip') (fits : (tab j).Fits) {size : ℕ} (small : size < 2 ^ 32) :
    ({ ip' with size := size } : Inode).Fits := by
  have same : ({ ip' with addrs := (tab j).addrs } : Inode).Fits := by
    rw [wrote.fields]
    exact fits
  have named : ∀ k b, ref d' ip' k = some b → b < 2 ^ 32 := by
    intro k b has
    have inside := wrote.sound.inside (j := j) (k := k) (b := b) (by rw [Function.update_self]; exact has)
    have := L.small
    omega
  refine ⟨same.type, same.major, same.minor, same.nlink, small, fun i => ?_, fun i above => ?_⟩
  · change ip'.addrs i < _
    rcases Nat.eq_zero_or_pos (ip'.addrs i) with zero | positive
    · rw [zero]
      exact Nat.two_pow_pos 32
    · rcases Nat.lt_trichotomy i NDIRECT with direct | rfl | above
      · exact named i _ (by rw [ref_direct direct, block?_pos (by omega)])
      · exact named MAXFILE _ (by rw [ref_MAXFILE, block?_pos (by omega)])
      · rw [wrote.tail i above]
        exact fits.addrs i
  · exact (wrote.tail i above).trans (fits.none i above)

/-- The size of an inode does not matter for the blocks that it names. -/
theorem Sound.resize (sound : Sound L d (Function.update tab j ip) nb) (size : ℕ) :
    Sound L d (Function.update tab j { ip with size := size }) nb := by
  have names : ∀ i k, ref d (Function.update tab j { ip with size := size } i) k = ref d
    (Function.update tab j ip i) k := by
    intro i k
    rcases eq_or_ne i j with rfl | other
    · rw [Function.update_self, Function.update_self]
      rfl
    · rw [Function.update_of_ne other, Function.update_of_ne other]
  exact sound.congr rfl names

theorem Sound.fields (sound : Sound L d (onDisk L.toSuperblock d) fun j => blocksOf (onDisk L.toSuperblock d j).size)
    {ip : Inode}
    (addrs : ip.addrs = (onDisk L.toSuperblock d j).addrs) :
    Sound L d (Function.update (onDisk L.toSuperblock d) j ip) fun j => blocksOf (onDisk L.toSuperblock d j).size := by
  have named : ∀ i k, ref d (Function.update (onDisk L.toSuperblock d) j ip i) k = ref d
    (onDisk L.toSuperblock d i) k := by
    intro i k
    rcases eq_or_ne i j with rfl | other
    · rw [Function.update_self, ref, ref, addrs]
    · rw [Function.update_of_ne other]
  exact sound.congr rfl named

/-- An update of the other fields leaves all files as they are. -/
theorem left_iupdate (proper : Proper L d) (inside : j < L.ninodes) {ip : Inode} (fits : ip.Fits)
    (size : ip.size = (onDisk L.toSuperblock d j).size) (addrs : ip.addrs = (onDisk L.toSuperblock d j).addrs) :
    Left L d (iupdate L.toSuperblock d j ip) j ip (files L d j) := by
  have same : ∀ x, byteAt d ip x = byteAt d (onDisk L.toSuperblock d j) x := fun x => by
    rw [byteAt, byteAt, ref, ref, addrs]
  refine left_of_sound (L.iblock_lt inside) (proper.sound.fields addrs) ?_ (fun i => ?_) proper.sizes
    (by rw [size]; exact proper.sizes j)
    (fun _ _ _ _ => rfl) (fileBytes_congr size fun x _ => same x)
  · change onDisk L.toSuperblock (iupdate L.toSuperblock d j ip) = _
    rw [onDisk_iupdate fits inside]
  · rcases eq_or_ne i j with rfl | other
    · rw [Function.update_self, size]
    · rw [Function.update_of_ne other]

/-- A successful `writeData`. -/
theorem writeData_ok (proper : Proper L d) (inside : j < L.ninodes) (start : off < 2 ^ 32)
    (count : src.length < 2 ^ 32) {r : Option ℕ}
    (done : writeData L.toSuperblock d j (onDisk L.toSuperblock d j) off src = .ok (d', ip', r)) :
    if (onDisk L.toSuperblock d j).size < off ∨ MAXFILE * BSIZE < off + src.length then
      r = none ∧ d' = d ∧ ip' = onDisk L.toSuperblock d j
    else r = some src.length ∧ Left L d d' j ip' (splice (files L d j) off src) := by
  have size := proper.sizes j
  have wrap : uint32 (off + src.length : ℕ) = (off + src.length) % 2 ^ 32 := by
    rw [uint32]
    omega
  have large : MAXFILE * BSIZE < 2 ^ 32 := by decide
  rw [writeData, wrap] at done
  rcases Decidable.em ((onDisk L.toSuperblock d j).size < off ∨ MAXFILE * BSIZE < off + src.length) with refused | fits
  · rw [if_pos (by omega)] at done
    cases done
    rw [if_pos refused]
    exact ⟨rfl, rfl, rfl⟩
  · rw [if_neg (by omega)] at done
    rw [if_neg fits]
    obtain ⟨⟨d₁, ip₁, stop⟩, looped, done⟩ := of_bind_ok done
    obtain ⟨wrote, rfl⟩ := writeLoop_ok src.length proper.sound (Nat.le_refl _) (by omega)
      (by simp only [blocksOf, BSIZE]; omega) looped
    have content := wrote.fileBytes_eq (by omega) (by omega) size
    have others : ∀ i, i ≠ j → ∀ x < MAXFILE * BSIZE,
        byteAt d₁ (onDisk L.toSuperblock d i) x = byteAt d (onDisk L.toSuperblock d i) x := by
      intro i other x inside
      have read := wrote.bytes i x inside
      rw [Function.update_of_ne other, if_neg (fun h => other h.1)] at read
      exact read
    have sizes : ip₁.size = (onDisk L.toSuperblock d j).size := by
      have same := congrArg Inode.size wrote.fields
      exact same
    simp only [sizes] at done
    split_ifs at done with grows
    · cases done
      refine ⟨rfl, ?_⟩
      rw [max_eq_right (by omega)] at content
      refine left_of_sound (L.iblock_lt inside) (wrote.sound.resize _) ?_ (fun i => ?_) proper.sizes
        (by dsimp only; omega) others
        content
      · change onDisk L.toSuperblock (iupdate L.toSuperblock d₁ j _) = _
        rw [onDisk_iupdate (wrote.fits (fits_onDisk _ _ j) (by omega)) inside, onDisk_congr wrote.inodes]
      · rcases eq_or_ne i j with rfl | other
        · rw [Function.update_self, Function.update_self, reach, if_neg (by omega)]
          simp only [blocksOf, BSIZE]
          omega
        · rw [Function.update_of_ne other, Function.update_of_ne other]
    · cases done
      refine ⟨rfl, ?_⟩
      -- a write inside the file adds no block, so that the inode on disk needs no update
      have kept : off + src.length ≤ BSIZE * blocksOf (onDisk L.toSuperblock d j).size := by
        simp only [blocksOf, BSIZE]
        omega
      have same := wrote.idle kept
      rw [max_eq_left (by omega), ← sizes] at content
      have low : 0 < L.bmapstart := Nat.zero_lt_of_lt L.inodes
      have whole := left_of_sound (m := d' 0) low wrote.sound ?_ (fun i => ?_) proper.sizes
        (by rw [sizes]; exact size) others content
      · rw [Function.update_eq_self] at whole
        exact whole
      · rw [Function.update_eq_self, onDisk_congr wrote.inodes, same, Function.update_eq_self]
      · rcases eq_or_ne i j with rfl | other
        · rw [Function.update_self, Function.update_self, reach, same]
          simp only [blocksOf, BSIZE]
          split_ifs
          all_goals first | rfl | omega
        · rw [Function.update_of_ne other, Function.update_of_ne other]

/-- `writeData` panics only for want of a block. -/
theorem writeData_error (proper : Proper L d) (start : off < 2 ^ 32) (count : src.length < 2 ^ 32) {e : String}
    (failed : writeData L.toSuperblock d j (onDisk L.toSuperblock d j) off src = .error e) :
    e = "balloc: out of blocks" := by
  have wrap : uint32 (off + src.length : ℕ) = (off + src.length) % 2 ^ 32 := by
    rw [uint32]
    omega
  have large : MAXFILE * BSIZE < 2 ^ 32 := by decide
  have size := proper.sizes j
  rw [writeData, wrap] at failed
  split_ifs at failed with refused
  rcases of_bind_error failed with looping | ⟨⟨d₁, ip₁, stop⟩, _, rest⟩
  · exact writeLoop_error src.length proper.sound (by omega) (by simp only [blocksOf, BSIZE]; omega) looping
  · simp only at rest
    split_ifs at rest
    · cases rest
    · cases rest

end Cs537.Fs
