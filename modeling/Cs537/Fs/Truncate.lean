import Cs537.Fs.Files
import Mathlib.Data.List.Nodup

/-! # Truncating a file

`itrunc` frees what the inode names, in order: the direct blocks, the blocks of the indirect block, the
indirect block. Each is marked and named once, so that no call of `bfree` finds a free block; the map loses
just these blocks, and no other file is touched.
-/

namespace Cs537.Fs

open Cs537.Lib

variable {L : Layout} {sb : Superblock} {d d' : Disk} {ip ip' : Inode} {tab : ℕ → Inode} {nb : ℕ → ℕ} {i j k : ℕ}

/-- All blocks that an inode names. -/
def named (d : Disk) (ip : Inode) : List ℕ := (List.range (MAXFILE + 1)).filterMap (ref d ip)

/-- An inode with some addresses cleared. -/
def Inode.clear (ip : Inode) (l : List ℕ) : Inode := { ip with addrs := fun i => if i ∈ l then 0 else ip.addrs i }

/-- The first loop frees the direct blocks in order. -/
private theorem foldlM_direct (sb : Superblock) (l : List ℕ) (distinct : l.Nodup) (d : Disk) (ip : Inode) :
    l.foldlM (fun (state : Disk × Inode) i => match state with
      | (d, ip) => if ip.addrs i ≠ 0 then do
          let d ← bfree sb d (ip.addrs i)
          pure (d, ip.setAddr i 0)
        else pure (d, ip)) (d, ip) =
      (l.filterMap fun i => block? (ip.addrs i)).foldlM (bfree sb) d >>= fun d => .ok (d, ip.clear l) := by
  induction l generalizing d ip with
  | nil =>
    have same : ip.clear [] = ip := by simp [Inode.clear]
    rw [same]
    rfl
  | cons i rest ih =>
    obtain ⟨absent, distinct⟩ := List.nodup_cons.mp distinct
    rw [List.foldlM_cons, List.filterMap_cons]
    rcases eq_or_ne (ip.addrs i) 0 with zero | some_
    · have same : ip.clear (i :: rest) = ip.clear rest := by
        simp only [Inode.clear, List.mem_cons]
        congr
        funext k
        rcases eq_or_ne k i with rfl | other
        · simp [absent, zero]
        · simp [other]
      rw [zero, block?_zero, same, ← ih distinct]
      simp only [ne_eq, zero, not_true, if_false]
      rfl
    · have same : (ip.setAddr i 0).clear rest = ip.clear (i :: rest) := by
        simp only [Inode.clear, Inode.setAddr, List.mem_cons]
        congr
        funext k
        rcases eq_or_ne k i with rfl | other
        · simp
        · simp [other]
      have later : (rest.filterMap fun k => block? ((ip.setAddr i 0).addrs k)) = rest.filterMap fun k =>
        block? (ip.addrs k) := by
        apply List.filterMap_congr
        intro k member
        rw [Inode.setAddr]
        simp only
        rw [Function.update_of_ne]
        rintro rfl
        exact absent member
      simp only [block?_pos some_, ne_eq, some_, not_false_iff, if_true, List.foldlM_cons]
      cases freed : bfree sb d (ip.addrs i) with
      | error e => rfl
      | ok d₁ =>
        change List.foldlM _ (d₁, ip.setAddr i 0) rest = (List.foldlM (bfree sb) d₁ _ >>= _)
        rw [ih distinct, later, same]

/-- The second loop frees the entries of the indirect block in order. -/
private theorem truncIndirect_eq (a : Memory) (d : Disk) :
    truncIndirect sb a d = ((List.range NINDIRECT).filterMap fun i => block? (entry a i)).foldlM (bfree sb) d := by
  rw [truncIndirect]
  generalize List.range NINDIRECT = l
  induction l generalizing d with
  | nil => rfl
  | cons i rest ih =>
    rw [List.foldlM_cons, List.filterMap_cons]
    rcases eq_or_ne (entry a i) 0 with zero | some_
    · rw [zero, block?_zero, ← ih]
      simp only [ne_eq, not_true, if_false]
      rfl
    · simp only [block?_pos some_, ne_eq, some_, not_false_iff, if_true, List.foldlM_cons]
      cases freed : bfree sb d (entry a i) with
      | error e => rfl
      | ok d₁ => exact ih d₁

/-- What an inode names, in the order of `itrunc`. -/
theorem named_eq (d : Disk) (ip : Inode) : named d ip = ((List.range NDIRECT).filterMap fun i => block? (ip.addrs i)) ++
    match block? (ip.addrs NDIRECT) with
    | some bp => ((List.range NINDIRECT).filterMap fun i => block? (entry (d bp) i)) ++ [bp]
    | none => [] := by
  have split : List.range (MAXFILE + 1) = List.range NDIRECT ++
    ((List.range NINDIRECT).map (NDIRECT + ·) ++ [MAXFILE]) := by
    rw [List.range_succ, MAXFILE, List.range_add, List.append_assoc]
  have direct : (List.range NDIRECT).filterMap (ref d ip) = (List.range NDIRECT).filterMap fun i => block? (ip.addrs i) :=
    List.filterMap_congr fun i member => ref_direct (List.mem_range.mp member)
  have indirect : (List.range NINDIRECT).filterMap (fun i => ref d ip (NDIRECT + i)) =
    (List.range NINDIRECT).filterMap fun i =>
      (block? (ip.addrs NDIRECT)).bind fun bp => block? (entry (d bp) i) := by
    apply List.filterMap_congr
    intro i member
    have small := List.mem_range.mp member
    rw [ref_indirect (Nat.le_add_right _ _) (Nat.add_lt_add_left small _), Nat.add_sub_cancel_left]
  rw [named, split, List.filterMap_append, List.filterMap_append, List.filterMap_map, direct]
  congr 1
  change (List.range NINDIRECT).filterMap (fun i => ref d ip (NDIRECT + i)) ++ _ = _
  rw [indirect, List.filterMap_cons, ref_MAXFILE, List.filterMap_nil]
  cases block? (ip.addrs NDIRECT) with
  | none => simp
  | some bp => rfl

private theorem Sound.named_nodup (sound : Sound L d tab nb) (j : ℕ) : (named d (tab j)).Nodup := by
  apply List.Nodup.filterMap _ List.nodup_range
  intro k m b has has'
  exact (sound.once has has').2

private theorem mem_named {b : ℕ} : b ∈ named d ip ↔ ∃ k ≤ MAXFILE, ref d ip k = some b := by
  simp only [named, List.mem_filterMap, List.mem_range, Nat.lt_succ_iff]

private theorem Sound.named_used (sound : Sound L d tab nb) {b : ℕ} (member : b ∈ named d (tab j)) :
    L.dataStart ≤ b ∧ b ∈ Used L.toSuperblock d := by
  obtain ⟨k, _, has⟩ := mem_named.mp member
  have inside := sound.inside has
  exact ⟨inside.1, inside.2.2⟩

/-- The inode that `itrunc` leaves. -/
def Inode.cut (ip : Inode) : Inode := { ip with size := 0, addrs := fun i => if i ≤ NDIRECT then 0 else ip.addrs i }

private theorem cut_of_setAddr (ip : Inode) :
    (ip.clear (List.range NDIRECT)).setAddr NDIRECT 0 = { ip.cut with size := ip.size } := by
  simp only [Inode.clear, Inode.setAddr, Inode.cut, List.mem_range]
  congr
  funext i
  rcases Nat.lt_trichotomy i NDIRECT with below | rfl | above
  · rw [Function.update_of_ne (by omega), if_pos below, if_pos (by omega)]
  · rw [Function.update_self, if_pos (Nat.le_refl _)]
  · rw [Function.update_of_ne (by omega), if_neg (by omega), if_neg (by omega)]

private theorem cut_of_clear (zero : ip.addrs NDIRECT = 0) :
    ip.clear (List.range NDIRECT) = { ip.cut with size := ip.size } := by
  rw [← cut_of_setAddr]
  simp only [Inode.clear, Inode.setAddr]
  congr
  rw [Function.eq_update_self_iff]
  simp [zero]

/-- The loops of `itrunc` free what the inode names. -/
private theorem itrunc_frees (sound : Sound L d tab nb) (j : ℕ) : ∃ d', Given L d d' { b | b ∈ named d (tab j) } ∧
    itrunc L.toSuperblock d j (tab j) = .ok (iupdate L.toSuperblock d' j (tab j).cut, (tab j).cut) := by
  have distinct := sound.named_nodup j
  have marked : ∀ b ∈ named d (tab j), b ∈ Used L.toSuperblock d := fun b member => (sound.named_used member).2
  obtain ⟨d', freed, given⟩ := bfree_all distinct marked
  refine ⟨d', given, ?_⟩
  rw [named_eq, List.foldlM_append] at freed
  rw [named_eq] at distinct marked
  obtain ⟨d₁, first, second⟩ := of_bind_ok freed
  -- the indirect block is read after the direct blocks were freed, and holds what it held
  obtain ⟨d₁', first', given'⟩ := bfree_all (L := L) (d := d) (List.nodup_append.mp distinct).1
    fun b member => marked b (List.mem_append_left _ member)
  obtain rfl : d₁' = d₁ := by
    rw [first] at first'
    exact (Except.ok.inj first').symm
  have front : truncDirect L.toSuperblock d (tab j) = .ok (d₁', (tab j).clear (List.range NDIRECT)) := by
    have loop := foldlM_direct L.toSuperblock (List.range NDIRECT) List.nodup_range d (tab j)
    rw [first] at loop
    exact loop
  have pointer : ((tab j).clear (List.range NDIRECT)).addrs NDIRECT = (tab j).addrs NDIRECT := by simp [Inode.clear]
  have back : truncPointer L.toSuperblock d₁' ((tab j).clear (List.range NDIRECT)) =
      .ok (d', { (tab j).cut with size := (tab j).size }) := by
    rw [truncPointer, pointer]
    rcases eq_or_ne ((tab j).addrs NDIRECT) 0 with zero | some_
    · rw [if_neg (not_not_intro zero)]
      rw [zero, block?_zero] at second
      cases second
      rw [cut_of_clear zero]
      rfl
    · rw [block?_pos some_] at second marked
      rw [if_pos some_]
      obtain ⟨d₂, entries, last⟩ := of_bind_ok ((List.foldlM_append ..).symm.trans second)
      rw [List.foldlM_cons] at last
      obtain ⟨d₃, final, done⟩ := of_bind_ok last
      cases done
      have low : L.dataStart ≤ (tab j).addrs NDIRECT :=
        (sound.inside (j := j) (k := MAXFILE) (by rw [ref_MAXFILE, block?_pos some_])).1
      rw [truncIndirect_eq, given'.rest _ (.inr low)]
      change (List.foldlM _ _ _ >>= fun d => bfree L.toSuperblock d ((tab j).addrs NDIRECT) >>= _) = _
      rw [entries]
      change (bfree L.toSuperblock d₂ ((tab j).addrs NDIRECT) >>= _) = _
      rw [final, ← cut_of_setAddr]
      rfl
  rw [itrunc, front]
  change truncPointer L.toSuperblock d₁' _ >>= _ = _
  rw [back]
  rfl

private theorem ref_cut (d : Disk) (ip : Inode) (k : ℕ) : ref d ip.cut k = none := by
  have pointer : ip.cut.addrs NDIRECT = 0 := by simp [Inode.cut]
  rw [ref, pointer, block?_zero]
  split_ifs with direct
  · rw [show ip.cut.addrs k = 0 by simp only [Inode.cut]; rw [if_pos (by omega)], block?_zero]
  · rfl
  · rfl
  · rfl

theorem Inode.Fits.cut (fits : ip.Fits) : ip.cut.Fits where
  type := fits.type
  major := fits.major
  minor := fits.minor
  nlink := fits.nlink
  size := Nat.two_pow_pos 32
  addrs i := by
    simp only [Inode.cut]
    split_ifs
    · exact Nat.two_pow_pos 32
    · exact fits.addrs i
  none i above := (if_neg (by omega)).trans (fits.none i above)

/-- The blocks that were freed are no other file's. -/
private theorem sound_cut (sound : Sound L d tab nb) (given : Given L d d' { b | b ∈ named d (tab j) }) :
    Sound L d' (Function.update tab j (tab j).cut) (Function.update nb j 0) ∧
      ∀ i, i ≠ j → ∀ k, ref d' (tab i) k = ref d (tab i) k := by
  have keeps : ∀ i k b, ref d (tab i) k = some b → d' b = d b := fun i k b has =>
    given.rest b (.inr (sound.inside has).1)
  have names : ∀ i k, ref d' (tab i) k = ref d (tab i) k := fun i k => ref_congr (fun bp has => keeps i _ bp has) k
  have apart : ∀ i k b, i ≠ j → ref d (tab i) k = some b → b ∉ named d (tab j) := by
    intro i k b other has member
    obtain ⟨m, _, has'⟩ := mem_named.mp member
    exact other (sound.once has has').1
  refine ⟨⟨?_, fun b low => ?_, fun i bn inside => ?_, fun i => ?_, fun b used above => ?_⟩, fun i _ k => names i k⟩
  · rw [given.used]
    apply sound.owned.empty
    rintro ⟨i, k⟩ b has
    change ref d' (Function.update tab j (tab j).cut i) k = some b at has
    rcases eq_or_ne i j with rfl | other
    · rw [Function.update_self, ref_cut] at has
      cases has
    · rw [Function.update_of_ne other, names] at has
      exact ⟨has, apart i k b other has⟩
  · rw [given.used]
    refine ⟨sound.metadata b low, fun member => ?_⟩
    have inside := (sound.named_used member).1
    omega
  · rcases eq_or_ne i j with rfl | other
    · rw [Function.update_self, Function.update_self, ref_cut]
      simp
    · rw [Function.update_of_ne other, Function.update_of_ne other, names]
      exact sound.mapped i bn inside
  · rcases eq_or_ne i j with rfl | other
    · rw [Function.update_self]
      exact Nat.zero_le _
    · rw [Function.update_of_ne other]
      exact sound.bound i
  · rw [given.used] at used
    obtain ⟨⟨i, k⟩, has⟩ := sound.covered b used.1 above
    refine ⟨(i, k), ?_⟩
    have other : i ≠ j := by
      rintro rfl
      exact used.2 (mem_named.mpr ⟨k, ref_le has, has⟩)
    change ref d' (Function.update tab j (tab j).cut i) k = some b
    rw [Function.update_of_ne other, names]
    exact has

/-- `itrunc` never panics: it empties the file, gives back the blocks that the inode names and no others,
and leaves every other file as it is. -/
theorem itrunc_ok (proper : Proper L d) (inside : j < L.ninodes) :
    ∃ d', itrunc L.toSuperblock d j (onDisk L.toSuperblock d j) = .ok (d', (onDisk L.toSuperblock d j).cut) ∧
      Left L d d' j (onDisk L.toSuperblock d j).cut [] ∧
      Used L.toSuperblock d' = Used L.toSuperblock d \ { b | b ∈ named d (onDisk L.toSuperblock d j) } := by
  obtain ⟨d₁, given, done⟩ := itrunc_frees proper.sound j
  obtain ⟨sound, names⟩ := sound_cut proper.sound given
  have inodes : onDisk L.toSuperblock d₁ = onDisk L.toSuperblock d := onDisk_congr fun b low => given.rest b (.inl low)
  refine ⟨_, done, ?_, ?_⟩
  · refine left_of_sound (L.iblock_lt inside) sound ?_ (fun i => ?_) proper.sizes (Nat.zero_le _)
      (fun i other x _ => ?_) rfl
    · change onDisk L.toSuperblock (iupdate L.toSuperblock d₁ j _) = _
      rw [onDisk_iupdate (fits_onDisk _ _ j).cut inside, inodes]
    · rcases eq_or_ne i j with rfl | other
      · rw [Function.update_self, Function.update_self]
        simp [Inode.cut, blocksOf, BSIZE]
      · rw [Function.update_of_ne other, Function.update_of_ne other]
    · rw [byteAt, byteAt, names i other]
      cases has : ref d (onDisk L.toSuperblock d i) (x / BSIZE) with
      | none => rfl
      | some b =>
        simp only
        rw [given.rest b (.inr (proper.sound.inside has).1)]
  · rw [← given.used]
    apply used_congr
    intro b below
    have bounds := L.bblock_bounds below
    have low := L.iblock_lt inside
    exact Function.update_of_ne (by omega) _ _

end Cs537.Fs
