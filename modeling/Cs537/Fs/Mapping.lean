import Cs537.Fs.Blocks

/-! # The blocks of the files

Every block number in an inode or in an indirect block names a data block that is marked in the free map and
named nowhere else. `bmap` and `itrunc` keep this, and `bmap` leaves the bytes of every file as they are: a
block that it adds reads as zeros.
-/

namespace Cs537.Fs

open Cs537.Lib

variable {L : Layout} {d d' : Disk} {ip ip' : Inode} {tab : ℕ → Inode} {nb : ℕ → ℕ} {i j k bn addr b : ℕ}

/-- A block number, where zero stands for none. -/
def block? (addr : ℕ) : Option ℕ := if addr = 0 then none else some addr

theorem block?_eq_some : block? addr = some b ↔ addr = b ∧ addr ≠ 0 := by
  rw [block?]
  split_ifs with zero
  · simp [zero]
  · simp [zero]

@[simp] theorem block?_zero : block? 0 = none := rfl

theorem block?_pos (some_ : addr ≠ 0) : block? addr = some addr := if_neg some_

/-- What an inode names: its data blocks in the order of the file, and behind them the indirect block. -/
def ref (d : Disk) (ip : Inode) (k : ℕ) : Option ℕ :=
  if k < NDIRECT then block? (ip.addrs k)
  else if k < MAXFILE then (block? (ip.addrs NDIRECT)).bind fun bp => block? (entry (d bp) (k - NDIRECT))
  else if k = MAXFILE then block? (ip.addrs NDIRECT)
  else none

/-- All that is named, over all inodes. -/
def held (d : Disk) (tab : ℕ → Inode) (s : ℕ × ℕ) : Option ℕ := ref d (tab s.1) s.2

/-- A file system in which each file has its first so many blocks and no others, and every data block that is marked is
named. -/
structure Sound (L : Layout) (d : Disk) (tab : ℕ → Inode) (nb : ℕ → ℕ) : Prop where
  owned : Owned L.data (Used L.toSuperblock d) (held d tab)
  metadata : ∀ b < L.dataStart, b ∈ Used L.toSuperblock d
  mapped : ∀ j bn, bn < MAXFILE → ((ref d (tab j) bn).isSome = true ↔ bn < nb j)
  bound : ∀ j, nb j ≤ MAXFILE
  covered : ∀ b ∈ Used L.toSuperblock d, L.dataStart ≤ b → ∃ s, held d tab s = some b

/-- A byte of a file. -/
def byteAt (d : Disk) (ip : Inode) (x : ℕ) : UInt8 := match ref d ip (x / BSIZE) with
  | some b => d b (x % BSIZE : ℕ)
  | none => 0

theorem ref_direct (small : k < NDIRECT) : ref d ip k = block? (ip.addrs k) := if_pos small

theorem ref_indirect (large : NDIRECT ≤ k) (small : k < MAXFILE) :
    ref d ip k = (block? (ip.addrs NDIRECT)).bind fun bp => block? (entry (d bp) (k - NDIRECT)) := by
  rw [ref, if_neg (by omega), if_pos small]

theorem ref_MAXFILE : ref d ip MAXFILE = block? (ip.addrs NDIRECT) := by
  rw [ref, if_neg (by decide), if_neg (by decide), if_pos rfl]

/-- What an inode names depends on its indirect block alone. -/
theorem ref_congr (same : ∀ bp, ref d ip MAXFILE = some bp → d' bp = d bp) (k : ℕ) : ref d' ip k = ref d ip k := by
  rw [ref_MAXFILE] at same
  rw [ref, ref]
  cases indirect : block? (ip.addrs NDIRECT) with
  | none => rfl
  | some bp => rw [Option.bind_some, Option.bind_some, same bp indirect]

theorem ref_le (has : ref d ip k = some b) : k ≤ MAXFILE := by
  by_contra above
  rw [ref, if_neg (by rw [MAXFILE] at above; omega), if_neg (by omega), if_neg (by omega)] at has
  cases has

/-- Nothing matters but the marks and the names. -/
theorem Sound.congr {tab' : ℕ → Inode} (sound : Sound L d tab nb) (marks : Used L.toSuperblock d' = Used L.toSuperblock d)
    (names : ∀ i k, ref d' (tab' i) k = ref d (tab i) k) : Sound L d' tab' nb where
  owned := by
    rw [marks]
    exact sound.owned.congr fun s => names s.1 s.2
  metadata := by
    rw [marks]
    exact sound.metadata
  mapped i bn inside := by
    rw [names]
    exact sound.mapped i bn inside
  bound := sound.bound
  covered b used above := by
    rw [marks] at used
    obtain ⟨s, has⟩ := sound.covered b used above
    exact ⟨s, (names s.1 s.2).trans has⟩

theorem Sound.inside (sound : Sound L d tab nb) (has : ref d (tab j) k = some b) :
    L.dataStart ≤ b ∧ b < L.size ∧ b ∈ Used L.toSuperblock d :=
  ⟨(sound.owned.within (j, k) b has).1, (sound.owned.within (j, k) b has).2, sound.owned.marked (j, k) b has⟩

theorem Sound.once (sound : Sound L d tab nb) (has : ref d (tab i) k = some b) {m : ℕ} (has' : ref d (tab j) m = some b) :
    i = j ∧ k = m := by
  have same := sound.owned.once (i, k) (j, m) b has has'
  simpa using same

/-- Where a block of the free map ends up in a file, all else being as it was. -/
structure Filled (L : Layout) (d d' : Disk) (tab tab' : ℕ → Inode) (j k addr : ℕ) : Prop where
  data : addr ∈ L.data
  free : addr ∉ Used L.toSuperblock d
  used : Used L.toSuperblock d' = insert addr (Used L.toSuperblock d)
  zero : d' addr = fun _ => 0
  names : held d' tab' = Function.update (held d tab) (j, k) (some addr)
  files : ∀ i m b, m < MAXFILE → ref d (tab i) m = some b → d' b = d b
  inodes : ∀ b < L.bmapstart, d' b = d b

theorem Filled.sound {tab' : ℕ → Inode} (filled : Filled L d d' tab tab' j k addr) (sound : Sound L d tab nb)
    (empty : held d tab (j, k) = none) {nb' : ℕ → ℕ}
    (mapped : ∀ i bn, bn < MAXFILE → ((ref d' (tab' i) bn).isSome = true ↔ bn < nb' i)) (bound : ∀ i, nb' i ≤ MAXFILE) :
    Sound L d' tab' nb' where
  owned := by
    rw [filled.names, filled.used]
    exact sound.owned.fill filled.data filled.free
  metadata b low := by
    rw [filled.used]
    exact Set.mem_insert_of_mem _ (sound.metadata b low)
  mapped := mapped
  bound := bound
  covered b used above := by
    rw [filled.used] at used
    rw [filled.names]
    rcases used with rfl | used
    · exact ⟨(j, k), Function.update_self ..⟩
    · obtain ⟨s, has⟩ := sound.covered b used above
      have other : s ≠ (j, k) := by
        rintro rfl
        rw [empty] at has
        cases has
      exact ⟨s, (Function.update_of_ne other ..).trans has⟩

/-- A new block reads as the zeros that were read before there was one. -/
theorem Filled.bytes {tab' : ℕ → Inode} (filled : Filled L d d' tab tab' j k addr) (empty : held d tab (j, k) = none)
    (i x : ℕ) (inside : x / BSIZE < MAXFILE) : byteAt d' (tab' i) x = byteAt d (tab i) x := by
  have now : ref d' (tab' i) (x / BSIZE) = Function.update (held d tab) (j, k) (some addr) (i, x / BSIZE) :=
    congrFun filled.names (i, x / BSIZE)
  rw [byteAt, byteAt, now]
  rcases eq_or_ne (i, x / BSIZE) (j, k) with here | other
  · rw [here, Function.update_self]
    cases here
    change ref d (tab _) (x / BSIZE) = none at empty
    simp only [empty, filled.zero]
  · rw [Function.update_of_ne other]
    change (match ref d (tab i) (x / BSIZE) with | some b => _ | none => _) = _
    cases has : ref d (tab i) (x / BSIZE) with
    | none => rfl
    | some b =>
      simp only
      rw [filled.files i _ b inside has]

private theorem ref_setAddr (small : bn < NDIRECT) (new : addr ≠ 0) :
    ref d (ip.setAddr bn addr) k = if k = bn then some addr else ref d ip k := by
  have indirect : (ip.setAddr bn addr).addrs NDIRECT = ip.addrs NDIRECT := Function.update_of_ne (by omega) _ _
  split_ifs with here
  · rw [here, ref_direct small, Inode.setAddr]
    simp only [Function.update_self]
    exact block?_pos new
  · rw [ref, ref, indirect]
    simp only [Inode.setAddr, Function.update_of_ne here]

/-- An allocation touches no block that is held. -/
theorem Taken.keeps (taken : Taken L d d' addr) (sound : Sound L d tab nb) (has : ref d (tab i) k = some b) :
    d' b = d b := by
  obtain ⟨low, _, used⟩ := sound.inside has
  apply taken.rest b
  · rintro rfl
    exact taken.free used
  · exact .inr low

private theorem Taken.ref_eq (taken : Taken L d d' addr) (sound : Sound L d tab nb) (i k : ℕ) :
    ref d' (tab i) k = ref d (tab i) k :=
  ref_congr (fun _ has => taken.keeps sound has) k

theorem Taken.pos (taken : Taken L d d' addr) : addr ≠ 0 := by
  have low := taken.data.1
  have map := L.map_lt
  omega

private theorem Taken.inodes_eq (taken : Taken L d d' addr) (low : b < L.bmapstart) : d' b = d b := by
  have map := L.map_lt
  have above := taken.data.1
  exact taken.rest b (by omega) (.inl low)

private theorem filled_direct (sound : Sound L d tab nb) (taken : Taken L d d' addr) (small : bn < NDIRECT) :
    Filled L d d' tab (Function.update tab j ((tab j).setAddr bn addr)) j bn addr where
  data := taken.data
  free := taken.free
  used := taken.used
  zero := taken.zero
  names := by
    funext ⟨i, k⟩
    change ref d' (Function.update tab j _ i) k = _
    rcases eq_or_ne i j with rfl | other
    · rw [Function.update_self, ref_setAddr small taken.pos, taken.ref_eq sound]
      rcases eq_or_ne k bn with rfl | different
      · rw [if_pos rfl, Function.update_self]
      · rw [if_neg different, Function.update_of_ne (by simp [different])]
        rfl
    · rw [Function.update_of_ne other, Function.update_of_ne (by simp [other]), taken.ref_eq sound]
      rfl
  files i m b _ has := taken.keeps sound has
  inodes b low := taken.inodes_eq low

theorem entry_zero (i : ℕ) : entry (fun _ => 0) i = 0 := by
  rw [entry]
  rfl

private theorem filled_pointer (sound : Sound L d tab nb) (taken : Taken L d d' addr) (none : (tab j).addrs NDIRECT = 0) :
    Filled L d d' tab (Function.update tab j ((tab j).setAddr NDIRECT addr)) j MAXFILE addr where
  data := taken.data
  free := taken.free
  used := taken.used
  zero := taken.zero
  names := by
    funext ⟨i, k⟩
    change ref d' (Function.update tab j _ i) k = _
    rcases eq_or_ne i j with rfl | other
    · rw [Function.update_self]
      have pointer : ((tab i).setAddr NDIRECT addr).addrs NDIRECT = addr := by simp [Inode.setAddr]
      rcases eq_or_ne k MAXFILE with rfl | different
      · rw [Function.update_self, ref_MAXFILE, pointer, block?_pos taken.pos]
      · rw [Function.update_of_ne (by simp [different])]
        change _ = ref d (tab i) k
        rw [ref, ref, pointer, none, block?_zero, block?_pos taken.pos, Option.bind_some, taken.zero, entry_zero,
          if_neg different,
          if_neg different]
        have direct : k < NDIRECT → ((tab i).setAddr NDIRECT addr).addrs k = (tab i).addrs k := fun small =>
          Function.update_of_ne (by omega) _ _
        split_ifs with small
        · rw [direct small]
        · rfl
        · rfl
    · rw [Function.update_of_ne other, Function.update_of_ne (by simp [other]), taken.ref_eq sound]
      rfl
  files i m b _ has := taken.keeps sound has
  inodes b low := taken.inodes_eq low

private theorem entry_store_self {a : Memory} (small : addr < 2 ^ 32) (i : ℕ) :
    entry (a.store (4 * i) (Memory.leBytes 4 addr)) i = addr := by
  rw [entry, Memory.le_store_leBytes]
  exact Nat.mod_eq_of_lt small

private theorem entry_store_other {a : Memory} (other : k ≠ i) :
    entry (a.store (4 * i) (Memory.leBytes 4 addr)) k = entry a k := by
  rw [entry, entry]
  apply Memory.le_store_outside
  rw [Memory.length_leBytes]
  omega

private theorem filled_entry (sound : Sound L d tab nb) (taken : Taken L d d' addr) (some_ : (tab j).addrs NDIRECT ≠ 0)
    (large : NDIRECT ≤ bn) (small : bn < MAXFILE) :
    Filled L d (Function.update d' ((tab j).addrs NDIRECT)
        ((d' ((tab j).addrs NDIRECT)).store (4 * (bn - NDIRECT : ℕ)) (Memory.leBytes 4 addr))) tab tab j bn addr := by
  have indirect : ref d (tab j) MAXFILE = some ((tab j).addrs NDIRECT) := by rw [ref_MAXFILE, block?_pos some_]
  obtain ⟨low, high, used⟩ := sound.inside indirect
  have apart : addr ≠ (tab j).addrs NDIRECT := by
    intro same
    rw [← same] at used
    exact taken.free used
  have map := L.map_lt
  exact
    { data := taken.data
      free := taken.free
      used := by
        rw [← taken.used]
        apply used_congr
        intro b below
        have bounds := L.bblock_bounds below
        rw [Function.update_of_ne (by omega)]
      zero := by rw [Function.update_of_ne apart, taken.zero]
      names := by
        funext ⟨i, k⟩
        change ref _ (tab i) k = _
        rcases eq_or_ne i j with rfl | other
        · rcases eq_or_ne k bn with rfl | different
          · rw [Function.update_self, ref_indirect large small, block?_pos some_, Option.bind_some, Function.update_self,
              entry_store_self (by have := L.small; have := taken.data.2; omega), block?_pos taken.pos]
          · rw [Function.update_of_ne (by simp [different])]
            change _ = ref d (tab i) k
            rw [ref, ref, block?_pos some_, Option.bind_some, Option.bind_some, Function.update_self]
            split_ifs with one two
            · rfl
            · rw [entry_store_other (by omega), taken.keeps sound indirect]
            · rfl
            · rfl
        · rw [Function.update_of_ne (by simp [other])]
          change _ = ref d (tab i) k
          apply ref_congr
          intro bp has
          rw [Function.update_of_ne, taken.keeps sound has]
          rintro rfl
          exact other (sound.once has indirect).1
      files := by
        intro i m b inside has
        rw [Function.update_of_ne, taken.keeps sound has]
        rintro rfl
        have twice := (sound.once has indirect).2
        omega
      inodes := by
        intro b below
        rw [Function.update_of_ne (by omega), taken.inodes_eq below] }

/-- What `bmap` leaves of the disk and of the inode. -/
structure Mapped (L : Layout) (d d' : Disk) (tab : ℕ → Inode) (nb : ℕ → ℕ) (j bn : ℕ) (ip' : Inode)
    (addr : ℕ) : Prop where
  sound : Sound L d' (Function.update tab j ip') (Function.update nb j (max (nb j) (bn + 1)))
  there : ref d' ip' bn = some addr
  bytes : ∀ i x, x / BSIZE < MAXFILE → byteAt d' (Function.update tab j ip' i) x = byteAt d (tab i) x
  fields : { ip' with addrs := (tab j).addrs } = tab j
  tail : ∀ i, NDIRECT < i → ip'.addrs i = (tab j).addrs i
  inodes : ∀ b < L.bmapstart, d' b = d b
  idle : bn < nb j → d' = d ∧ ip' = tab j

/-- A block that the file has is found. -/
theorem mapped_there (sound : Sound L d tab nb) (there : ref d (tab j) bn = some addr) (below : bn < MAXFILE) :
    Mapped L d d tab nb j bn (tab j) addr where
  sound := by
    have inside := (sound.mapped j bn below).mp (by rw [there]; rfl)
    rw [Function.update_eq_self, max_eq_left (by omega), Function.update_eq_self]
    exact sound
  there := there
  bytes i x _ := by rw [Function.update_eq_self]
  fields := rfl
  tail _ _ := rfl
  inodes _ _ := rfl
  idle _ := ⟨rfl, rfl⟩

/-- The block behind the last one is new. -/
theorem mapped_new (sound : Sound L d tab nb) {tab' : ℕ → Inode} (ip' : Inode) (filled : Filled L d d' tab tab' j bn addr)
    (same : tab' = Function.update tab j ip') (fields : { ip' with addrs := (tab j).addrs } = tab j)
    (tail : ∀ i, NDIRECT < i → ip'.addrs i = (tab j).addrs i) (below : bn < MAXFILE) (next : nb j = bn) :
      Mapped L d d' tab nb j bn ip' addr := by
  have absent : held d tab (j, bn) = none := by
    cases has : held d tab (j, bn) with
    | none => rfl
    | some b =>
      have inside := (sound.mapped j bn below).mp (by change (held d tab (j, bn)).isSome = true; rw [has]; rfl)
      omega
  have names : ∀ i m, ref d' (tab' i) m = Function.update (held d tab) (j, bn) (some addr) (i, m) := fun i m =>
    congrFun filled.names (i, m)
  have there : ref d' ip' bn = some addr := by
    have here := names j bn
    rw [same, Function.update_self, Function.update_self] at here
    exact here
  refine ⟨?_, there, fun i x inside => ?_, fields, tail, filled.inodes, fun inside => by omega⟩
  · rw [← same]
    refine filled.sound sound absent (fun i m inside => ?_) fun i => ?_
    · rw [names]
      rcases eq_or_ne i j with rfl | other
      · rw [Function.update_self]
        rcases eq_or_ne m bn with rfl | different
        · rw [Function.update_self]
          simp
        · rw [Function.update_of_ne (by simp [different])]
          change (ref d (tab i) m).isSome = true ↔ _
          rw [sound.mapped i m inside]
          omega
      · rw [Function.update_of_ne other, Function.update_of_ne (by simp [other])]
        exact sound.mapped i m inside
    · rcases eq_or_ne i j with rfl | other
      · rw [Function.update_self]
        have := sound.bound i
        omega
      · rw [Function.update_of_ne other]
        exact sound.bound i
  · rw [← same]
    exact filled.bytes absent i x inside

/-- The indirect block comes first, and holds nothing yet. -/
theorem Mapped.after {d₁ : Disk} {ip₁ : Inode} {a₁ : ℕ}
    (filled : Filled L d d₁ tab (Function.update tab j ip₁) j MAXFILE a₁)
    (none : (tab j).addrs NDIRECT = 0) (fields : { ip₁ with addrs := (tab j).addrs } = tab j)
    (tail : ∀ i, NDIRECT < i → ip₁.addrs i = (tab j).addrs i)
    (mapped : Mapped L d₁ d' (Function.update tab j ip₁) nb j bn ip' addr) (next : nb j ≤ bn) :
    Mapped L d d' tab nb j bn ip' addr where
  sound := by
    have sound := mapped.sound
    rw [Function.update_idem] at sound
    exact sound
  there := mapped.there
  bytes i x inside := by
    have later := mapped.bytes i x inside
    rw [Function.update_idem] at later
    rw [later]
    refine filled.bytes ?_ i x inside
    change ref d (tab j) MAXFILE = .none
    rw [ref_MAXFILE, none, block?_zero]
  fields := by
    have later := mapped.fields
    rw [Function.update_self] at later
    rw [← fields, ← later]
  tail i above := by
    have later := mapped.tail i above
    rw [Function.update_self] at later
    exact later.trans (tail i above)
  inodes b low := (mapped.inodes b low).trans (filled.inodes b low)
  idle inside := by omega

theorem of_bind_ok {ε α β : Type} {x : Except ε α} {f : α → Except ε β} {y : β} (done : x >>= f = .ok y) :
    ∃ a, x = .ok a ∧ f a = .ok y := by
  cases x with
  | error e => cases done
  | ok a => exact ⟨a, rfl, done⟩

theorem of_bind_error {ε α β : Type} {x : Except ε α} {f : α → Except ε β} {e : ε} (failed : x >>= f = .error e) :
    x = .error e ∨ ∃ a, x = .ok a ∧ f a = .error e := by
  cases x with
  | error e' =>
    cases failed
    exact .inl rfl
  | ok a => exact .inr ⟨a, rfl, failed⟩

/-- A block of the indirect block, when there is one. -/
theorem bmapEntry_ok (sound : Sound L d tab nb) {i : ℕ} (small : i < NINDIRECT) (some_ : (tab j).addrs NDIRECT ≠ 0)
    (next : NDIRECT + i ≤ nb j) (done : bmapEntry L.toSuperblock d (tab j) i = .ok (d', ip', addr)) :
    Mapped L d d' tab nb j (NDIRECT + i) ip' addr := by
  have below : NDIRECT + i < MAXFILE := Nat.add_lt_add_left small NDIRECT
  have mapped := sound.mapped j (NDIRECT + i) below
  have names : ref d (tab j) (NDIRECT + i) = block? (entry (d ((tab j).addrs NDIRECT)) i) := by
    rw [ref_indirect (Nat.le_add_right _ _) below, block?_pos some_, Option.bind_some, Nat.add_sub_cancel_left]
  rw [bmapEntry] at done
  dsimp only at done
  split_ifs at done with zero
  · obtain ⟨⟨d₁, a⟩, allocated, done⟩ := of_bind_ok done
    cases done
    have filled := filled_entry sound (balloc_taken sound.metadata allocated) some_ (Nat.le_add_right NDIRECT i) below
    rw [Nat.add_sub_cancel_left] at filled
    rw [names, zero, block?_zero] at mapped
    exact mapped_new sound _ filled (Function.update_eq_self j tab).symm rfl (fun _ _ => rfl) below
      (by simp at mapped; omega)
  · cases done
    exact mapped_there sound (by rw [names, block?_pos zero]) below

theorem bmap_ok (sound : Sound L d tab nb) (below : bn < MAXFILE) (next : bn ≤ nb j)
    (done : bmap L.toSuperblock d (tab j) bn = .ok (d', ip', addr)) : Mapped L d d' tab nb j bn ip' addr := by
  have mapped := sound.mapped j bn below
  rw [bmap] at done
  split_ifs at done with direct zero indirect
  · obtain ⟨⟨d₁, a⟩, allocated, done⟩ := of_bind_ok done
    cases done
    rw [ref_direct direct, zero, block?_zero] at mapped
    exact mapped_new sound _ (filled_direct sound (balloc_taken sound.metadata allocated) direct) rfl rfl
      (fun i above => Function.update_of_ne (by omega) _ _) below
      (by simp at mapped; omega)
  · cases done
    exact mapped_there sound (by rw [ref_direct direct, block?_pos zero]) below
  · obtain ⟨⟨d₁, ip₁⟩, loaded, done⟩ := of_bind_ok done
    obtain ⟨i, rfl⟩ := Nat.exists_eq_add_of_le (Nat.le_of_not_lt direct)
    rw [Nat.add_sub_cancel_left] at done indirect
    rw [loadIndirect] at loaded
    split_ifs at loaded with none
    · obtain ⟨⟨d₂, a⟩, allocated, loaded⟩ := of_bind_ok loaded
      cases loaded
      have taken := balloc_taken sound.metadata allocated
      have filled := filled_pointer sound taken none
      have here : ref d (tab j) (NDIRECT + i) = Option.none := by
        rw [ref_indirect (Nat.le_add_right _ _) below, none, block?_zero, Option.bind_none]
      have last : nb j = NDIRECT + i := by
        rw [here] at mapped
        simp at mapped
        omega
      have unnamed : held d tab (j, MAXFILE) = Option.none := by
        change ref d (tab j) MAXFILE = _
        rw [ref_MAXFILE, none, block?_zero]
      -- the new indirect block changes nothing that is in the file
      have still : Sound L d₁ (Function.update tab j ((tab j).setAddr NDIRECT a)) nb := by
        refine filled.sound sound unnamed (fun k bn inside => ?_) sound.bound
        have name := congrFun filled.names (k, bn)
        rw [Function.update_of_ne (by simp only [ne_eq, Prod.mk.injEq, not_and]; omega)] at name
        change ref d₁ _ bn = ref d (tab k) bn at name
        rw [name]
        exact sound.mapped k bn inside
      have entered := bmapEntry_ok (j := j) still indirect
        (by rw [Function.update_self]; simpa [Inode.setAddr] using taken.pos) next
          (by rw [Function.update_self]; exact done)
      exact Mapped.after filled none rfl (fun i above => Function.update_of_ne (by omega) _ _) entered (Nat.le_of_eq last)
    · cases loaded
      exact bmapEntry_ok sound indirect none next done

/-- The only panic of `bmap` in a file of legal size is for want of a block. -/
theorem bmap_error {sb : Superblock} {e : String} (below : bn < MAXFILE) (failed : bmap sb d ip bn = .error e) :
    e = "balloc: out of blocks" := by
  rw [bmap] at failed
  split_ifs at failed with direct zero indirect
  · rcases of_bind_error failed with allocation | ⟨_, _, impossible⟩
    · exact (balloc_error allocation).1
    · cases impossible
  · cases failed
  · rcases of_bind_error failed with loading | ⟨⟨d₁, ip₁⟩, _, entering⟩
    · rw [loadIndirect] at loading
      split_ifs at loading with none
      · rcases of_bind_error loading with allocation | ⟨_, _, impossible⟩
        · exact (balloc_error allocation).1
        · cases impossible
      · cases loading
    · simp only [bmapEntry] at entering
      split_ifs at entering with zero
      · rcases of_bind_error entering with allocation | ⟨_, _, impossible⟩
        · exact (balloc_error allocation).1
        · cases impossible
      · cases entering
  · rw [MAXFILE] at below
    omega

end Cs537.Fs
