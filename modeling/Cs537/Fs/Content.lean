import Cs537.Fs.Mapping
import Cs537.Lib.Splice

/-! # The contents of files

`readi` and `writei` go through a file block by block and ask `bmap` for each. To a caller a file is a list
of bytes: a read returns a stretch of it, a write replaces a stretch and may make it longer, and the bytes
of other files, the inodes on disk and the free map are as before, but for the blocks that the longer file
needs.
-/

namespace Cs537.Fs

open Cs537.Lib

variable {L : Layout} {d d' : Disk} {ip ip' : Inode} {tab : ℕ → Inode} {nb : ℕ → ℕ} {i j k bn addr b off n : ℕ}
  {src bytes : List UInt8}

/-- The bytes of a file. -/
def fileBytes (d : Disk) (ip : Inode) : List UInt8 := (List.range ip.size).map (byteAt d ip)

/-- The blocks that a number of bytes needs. -/
def blocksOf (size : ℕ) : ℕ := (size + (BSIZE - 1)) / BSIZE

/-- Store bytes into a data block of a file. -/
theorem Sound.store (bytes : List UInt8) (sound : Sound L d tab nb) (has : ref d (tab j) bn = some addr)
    (small : bn < MAXFILE) (o : ℤ) :
    Sound L (Function.update d addr ((d addr).store o bytes)) tab nb ∧
      (∀ i k, ref (Function.update d addr ((d addr).store o bytes)) (tab i) k = ref d (tab i) k) ∧
      ∀ b < L.bmapstart, Function.update d addr ((d addr).store o bytes) b = d b := by
  obtain ⟨low, high, used⟩ := sound.inside has
  have map := L.map_lt
  have names : ∀ i k, ref (Function.update d addr ((d addr).store o bytes)) (tab i) k = ref d (tab i) k := by
    intro i k
    apply ref_congr
    intro bp pointer
    apply Function.update_of_ne
    rintro rfl
    have twice := (sound.once pointer has).2
    omega
  have marks : Used L.toSuperblock (Function.update d addr ((d addr).store o bytes)) = Used L.toSuperblock d := by
    apply used_congr
    intro b below
    have bounds := L.bblock_bounds below
    exact Function.update_of_ne (by omega) _ _
  exact ⟨sound.congr marks names, names, fun b below => Function.update_of_ne (by omega) _ _⟩

/-- What is read after a store: the stored bytes in their place, in that file, and the old ones everywhere else. -/
private theorem byteAt_store (sound : Sound L d tab nb) (has : ref d (tab j) bn = some addr) (small : bn < MAXFILE) {o x : ℕ}
    (within : o + bytes.length ≤ BSIZE) :
    byteAt (Function.update d addr ((d addr).store o bytes)) (tab i) x =
      if i = j ∧ BSIZE * bn + o ≤ x ∧ x < BSIZE * bn + o + bytes.length then bytes.getD (x - (BSIZE * bn + o)) 0
      else byteAt d (tab i) x := by
  have names := (sound.store bytes has small o).2.1 i (x / BSIZE)
  rw [byteAt, byteAt, names]
  cases at_ : ref d (tab i) (x / BSIZE) with
  | none =>
    rw [if_neg]
    rintro ⟨rfl, low, high⟩
    have same : x / BSIZE = bn := by
      simp only [BSIZE] at low high within ⊢
      omega
    rw [same, has] at at_
    cases at_
  | some b =>
    simp only
    rcases eq_or_ne b addr with rfl | other
    · obtain ⟨rfl, same⟩ := sound.once at_ has
      rw [Function.update_self]
      simp only [BSIZE, true_and] at same within ⊢
      split_ifs with stored
      · rw [Memory.store_inside (by omega) (by omega)]
        congr 1
        omega
      · have apart : ((x % 512 : ℕ) : ℤ) < o ∨ (o : ℤ) + bytes.length ≤ (x % 512 : ℕ) := by omega
        rw [Memory.store_outside apart]
    · rw [Function.update_of_ne other, if_neg]
      rintro ⟨rfl, low, high⟩
      have same : x / BSIZE = bn := by
        simp only [BSIZE] at low high within ⊢
        omega
      rw [same, has] at at_
      cases at_
      exact other rfl

private theorem bmap_there {sb : Superblock} (has : ref d ip bn = some addr) (small : bn < MAXFILE) :
    bmap sb d ip bn = .ok (d, ip, addr) := by
  rw [bmap]
  rcases Nat.lt_or_ge bn NDIRECT with direct | large
  · rw [ref_direct direct] at has
    obtain ⟨rfl, some_⟩ := block?_eq_some.mp has
    rw [if_pos direct, if_neg some_]
    rfl
  · rw [ref_indirect large small] at has
    obtain ⟨bp, pointer, has⟩ := Option.bind_eq_some_iff.mp has
    obtain ⟨rfl, some_⟩ := block?_eq_some.mp pointer
    obtain ⟨rfl, there⟩ := block?_eq_some.mp has
    rw [if_neg (by omega), if_pos (by rw [MAXFILE] at small; omega), loadIndirect, if_neg some_]
    change bmapEntry sb d ip (bn - NDIRECT) = _
    rw [bmapEntry]
    dsimp only
    rw [if_neg there]
    rfl

private theorem load_eq_byteAt {m : ℕ} (has : ref d ip (off / BSIZE) = some addr) (within : m ≤ BSIZE - off % BSIZE) :
    (d addr).load (off % BSIZE : ℕ) m = (List.range m).map fun i => byteAt d ip (off + i) := by
  apply List.ext_getElem (by simp)
  intro i inside _
  rw [Memory.length_load] at inside
  have block : (off + i) / BSIZE = off / BSIZE := by
    simp only [BSIZE] at within ⊢
    omega
  have place : (off + i) % BSIZE = off % BSIZE + i := by
    simp only [BSIZE] at within ⊢
    omega
  rw [Memory.getElem_load, List.getElem_map, List.getElem_range, byteAt, block, has, place]
  simp only [Nat.cast_add]

/-- Reading blocks that the file has changes nothing. -/
theorem readLoop_eq (sound : Sound L d tab nb) (fuel : ℕ) (enough : n ≤ fuel) (inside : off + n ≤ BSIZE * nb j) :
    readLoop L.toSuperblock fuel d (tab j) off n =
      .ok (d, tab j, (List.range n).map fun i => byteAt d (tab j) (off + i)) := by
  induction fuel generalizing off n with
  | zero =>
    obtain rfl : n = 0 := by omega
    rfl
  | succ fuel ih =>
    rw [readLoop]
    rcases Nat.eq_zero_or_pos n with rfl | positive
    · rfl
    · have bound := sound.bound j
      have below : off / BSIZE < nb j := by
        simp only [BSIZE] at inside ⊢
        omega
      obtain ⟨addr, has⟩ := Option.isSome_iff_exists.mp ((sound.mapped j (off / BSIZE) (by omega)).mpr below)
      rw [if_neg (by omega), bmap_there has (by omega)]
      change (readLoop L.toSuperblock fuel d (tab j) (off + min n (BSIZE - off % BSIZE))
        (n - min n (BSIZE - off % BSIZE)) >>=
        fun result => _) = _
      have step : 0 < BSIZE - off % BSIZE := by
        simp only [BSIZE]
        omega
      rw [ih (by omega) (by omega), load_eq_byteAt has (Nat.min_le_right _ _)]
      change Except.ok (d, tab j, _) = _
      congr 3
      obtain ⟨rest, split⟩ : ∃ rest, n = min n (BSIZE - off % BSIZE) + rest := ⟨n - min n (BSIZE - off % BSIZE), by omega⟩
      generalize min n (BSIZE - off % BSIZE) = m at split
      subst split
      rw [List.range_add, List.map_append, List.map_map, Nat.add_sub_cancel_left]
      congr 1
      apply List.map_congr_left
      intro i _
      rw [Function.comp_apply, Nat.add_assoc]

/-- The blocks of a file after a write. -/
def reach (nb off n : ℕ) : ℕ := if n = 0 then nb else max nb (blocksOf (off + n))

/-- What a write makes of the files. -/
structure Wrote (L : Layout) (d d' : Disk) (tab : ℕ → Inode) (nb : ℕ → ℕ) (j off : ℕ) (src : List UInt8)
    (ip' : Inode) : Prop where
  sound : Sound L d' (Function.update tab j ip') (Function.update nb j (reach (nb j) off src.length))
  bytes : ∀ i x, x < MAXFILE * BSIZE → byteAt d' (Function.update tab j ip' i) x =
    if i = j ∧ off ≤ x ∧ x < off + src.length then src.getD (x - off) 0 else byteAt d (tab i) x
  fields : { ip' with addrs := (tab j).addrs } = tab j
  tail : ∀ i, NDIRECT < i → ip'.addrs i = (tab j).addrs i
  inodes : ∀ b < L.bmapstart, d' b = d b
  idle : off + src.length ≤ BSIZE * nb j → ip' = tab j

private theorem wrote_nil (sound : Sound L d tab nb) (off : ℕ) : Wrote L d d tab nb j off [] (tab j) where
  sound := by
    rw [Function.update_eq_self, List.length_nil, reach, if_pos rfl, Function.update_eq_self]
    exact sound
  bytes i x _ := by
    rw [Function.update_eq_self, if_neg]
    rintro ⟨_, low, high⟩
    rw [List.length_nil] at high
    omega
  fields := rfl
  tail _ _ := rfl
  inodes _ _ := rfl
  idle _ := rfl

/-- One round: the block is there or new, and takes its part of the bytes. -/
private theorem wrote_round (sound : Sound L d tab nb) (fits : off + src.length ≤ MAXFILE * BSIZE) (some_ : src ≠ [])
    (within : src.length ≤ BSIZE - off % BSIZE) (start : off / BSIZE ≤ nb j)
    (mapped : bmap L.toSuperblock d (tab j) (off / BSIZE) = .ok (d', ip', addr)) :
    Wrote L d (Function.update d' addr ((d' addr).store (off % BSIZE : ℕ) src)) tab nb j off src ip' := by
  have positive : 0 < src.length := List.length_pos_iff.mpr some_
  have below : off / BSIZE < MAXFILE := by
    simp only [MAXFILE, NDIRECT, NINDIRECT, BSIZE] at fits ⊢
    omega
  have entered := bmap_ok sound below start mapped
  have there : ref d' (Function.update tab j ip' j) (off / BSIZE) = some addr := by
    rw [Function.update_self]
    exact entered.there
  obtain ⟨kept, names, inodes⟩ := entered.sound.store src there below (off % BSIZE : ℕ)
  have last : off / BSIZE + 1 = blocksOf (off + src.length) := by
    simp only [blocksOf, BSIZE] at within ⊢
    omega
  have split : BSIZE * (off / BSIZE) + off % BSIZE = off := Nat.div_add_mod off BSIZE
  exact
    { sound := by
        rw [reach, if_neg (by omega), ← last]
        exact kept
      bytes := by
        intro i x inside
        have range : x / BSIZE < MAXFILE := by
          simp only [MAXFILE, NDIRECT, NINDIRECT, BSIZE] at inside ⊢
          omega
        rw [byteAt_store entered.sound there below (by simp only [BSIZE] at within ⊢; omega), split]
        rw [entered.bytes i x range]
      fields := entered.fields
      tail := entered.tail
      inodes := fun b low => (inodes b low).trans (entered.inodes b low)
      idle := fun inside => (entered.idle (by simp only [BSIZE] at inside ⊢; omega)).2 }

theorem Wrote.trans {d₁ : Disk} {ip₁ : Inode} {front back : List UInt8} (first : Wrote L d d₁ tab nb j off front ip₁)
    (second : Wrote L d₁ d' (Function.update tab j ip₁) (Function.update nb j (reach (nb j) off front.length)) j
      (off + front.length) back ip') : Wrote L d d' tab nb j off (front ++ back) ip' where
  sound := by
    have sound := second.sound
    rw [Function.update_idem, Function.update_idem, Function.update_self] at sound
    rw [List.length_append, show reach (nb j) off (front.length + back.length) =
      reach (reach (nb j) off front.length) (off + front.length) back.length from ?_]
    · exact sound
    · simp only [reach, blocksOf, BSIZE]
      split_ifs
      all_goals first | rfl | omega
  bytes i x inside := by
    have later := second.bytes i x inside
    rw [Function.update_idem] at later
    rw [later, first.bytes i x inside, List.length_append]
    split_ifs with late early early whole
    · rw [List.getD_append_right _ _ _ _ (by omega)]
      congr 1
      omega
    · omega
    · rw [List.getD_append _ _ _ _ (by omega)]
    · omega
    · omega
    · rfl
  fields := by
    have later := second.fields
    rw [Function.update_self] at later
    rw [← first.fields, ← later]
  tail i above := by
    have later := second.tail i above
    rw [Function.update_self] at later
    exact later.trans (first.tail i above)
  inodes b low := (second.inodes b low).trans (first.inodes b low)
  idle inside := by
    rw [List.length_append] at inside
    have still := first.idle (by omega)
    have later := second.idle (by
      rw [Function.update_self, reach]
      split_ifs
      · omega
      · have := Nat.mul_le_mul_left BSIZE (Nat.le_max_left (nb j) (blocksOf (off + front.length)))
        omega)
    rw [later, Function.update_self, still]

theorem writeLoop_ok (fuel : ℕ) {off' : ℕ} (sound : Sound L d tab nb) (enough : src.length ≤ fuel)
    (fits : off + src.length ≤ MAXFILE * BSIZE) (start : off / BSIZE ≤ nb j)
    (done : writeLoop L.toSuperblock fuel d (tab j) off src = .ok (d', ip', off')) :
    Wrote L d d' tab nb j off src ip' ∧ off' = off + src.length := by
  induction fuel generalizing d tab nb off src with
  | zero =>
    obtain rfl := List.length_eq_zero_iff.mp (Nat.le_zero.mp enough)
    cases done
    exact ⟨wrote_nil sound _, rfl⟩
  | succ fuel ih =>
    rw [writeLoop] at done
    split_ifs at done with none
    · subst none
      cases done
      exact ⟨wrote_nil sound _, rfl⟩
    · obtain ⟨⟨d₁, ip₁, addr⟩, mapped, rest⟩ := of_bind_ok done
      have positive : 0 < src.length := List.length_pos_iff.mpr none
      obtain ⟨front, back, rfl, cut, full⟩ : ∃ front back, src = front ++ back ∧
          front.length = min src.length (BSIZE - off % BSIZE) ∧ front ≠ [] := by
        refine ⟨src.take (min src.length (BSIZE - off % BSIZE)), src.drop (min src.length (BSIZE - off % BSIZE)),
          (List.take_append_drop _ _).symm, by simp, fun empty => ?_⟩
        have size := congrArg List.length empty
        rw [List.length_take, List.length_nil] at size
        simp only [BSIZE] at size
        omega
      simp only [← cut, List.take_left', List.drop_left'] at rest
      rw [List.length_append] at fits cut enough
      have round := wrote_round sound (by omega) full (by omega) start mapped
      have tabbed : ip₁ = Function.update tab j ip₁ j := by rw [Function.update_self]
      rw [tabbed] at rest
      obtain ⟨later, last⟩ := ih round.sound (by have := List.length_pos_iff.mpr full; omega) (by omega) (by
        have size := List.length_pos_iff.mpr full
        rw [Function.update_self, reach, if_neg (by omega)]
        simp only [blocksOf, BSIZE] at cut ⊢
        omega) rest
      exact ⟨round.trans later, by rw [last, List.length_append]; omega⟩

/-- The panic of a write that fits is for want of a block. -/
theorem writeLoop_error (fuel : ℕ) {e : String} (sound : Sound L d tab nb) (fits : off + src.length ≤ MAXFILE * BSIZE)
    (start : off / BSIZE ≤ nb j) (failed : writeLoop L.toSuperblock fuel d (tab j) off src = .error e) :
    e = "balloc: out of blocks" := by
  induction fuel generalizing d tab nb off src with
  | zero => cases failed
  | succ fuel ih =>
    rw [writeLoop] at failed
    split_ifs at failed with none
    have positive : 0 < src.length := List.length_pos_iff.mpr none
    have below : off / BSIZE < MAXFILE := by
      simp only [MAXFILE, NDIRECT, NINDIRECT, BSIZE] at fits ⊢
      omega
    rcases of_bind_error failed with here | ⟨⟨d₁, ip₁, addr⟩, mapped, rest⟩
    · exact bmap_error below here
    · have entered := bmap_ok sound below start mapped
      have there : ref d₁ (Function.update tab j ip₁ j) (off / BSIZE) = some addr := by
        rw [Function.update_self]
        exact entered.there
      have kept := (entered.sound.store (src.take (min src.length (BSIZE - off % BSIZE))) there below
        (off % BSIZE : ℕ)).1
      have tabbed : ip₁ = Function.update tab j ip₁ j := by rw [Function.update_self]
      simp only at rest
      rw [tabbed] at rest
      refine ih kept (by rw [List.length_drop]; omega) ?_ rest
      rw [Function.update_self]
      simp only [BSIZE]
      omega

end Cs537.Fs
