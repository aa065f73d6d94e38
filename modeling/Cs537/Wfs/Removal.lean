import Cs537.Wfs.Clear
import Cs537.Wfs.Release
import Cs537.Wfs.Bounds

/-! # What removing an entry leaves

A file or directory is removed: blocks that its inode owns are given back, its entry is cleared, the directory has one
link less, and the inode is free again. Pointers and entries that were in order are in order afterwards, even where not
all the blocks of the inode are given back.
-/

namespace Cs537.Wfs

open Lib Memory

variable {L : Layout} {d d' : Disk} {fs fs' fs'' : Fs} {name path : Name} {env : Env} {n p k i j l m : ℕ}
  {s s' : Slot} {page : Memory} {addresses : List ℤ} {r : Ref}

section Free

/-- The blocks at some addresses are given back. -/
structure Freed (L : Layout) (addresses : List ℤ) (fs fs' : Fs) : Prop where
  head : fs'.head = fs.head
  tail : fs'.tail = fs.tail
  ibit : fs'.ibit = fs.ibit
  inode : fs'.inode = fs.inode
  dbit : ∀ k, fs'.dbit k = true ↔ fs.dbit k = true ∧ L.block k ∉ addresses
  block : ∀ k, fs'.block k = if L.block k ∈ addresses then fun _ => 0 else fs.block k

namespace Freed

theorem refl (L : Layout) (fs : Fs) : Freed L [] fs fs :=
  ⟨rfl, rfl, rfl, rfl, fun k => by simp, fun k => by simp⟩

theorem append {more : List ℤ} (first : Freed L addresses fs fs') (second : Freed L more fs' fs'') :
    Freed L (addresses ++ more) fs fs'' := by
  refine ⟨second.head.trans first.head, second.tail.trans first.tail, second.ibit.trans first.ibit,
    second.inode.trans first.inode, fun k => ?_, fun k => ?_⟩
  · rw [second.dbit, first.dbit, List.mem_append, not_or, and_assoc]
  · rw [second.block, first.block]
    by_cases mine : L.block k ∈ addresses <;> by_cases theirs : L.block k ∈ more <;> simp [mine, theirs]

/-- A null address counts for nothing. -/
theorem null (freed : Freed L addresses fs fs') : Freed L (0 :: addresses) fs fs' := by
  have skip (k : ℕ) : L.block k ∈ 0 :: addresses ↔ L.block k ∈ addresses := by
    rw [List.mem_cons]
    exact or_iff_right (L.block_ne_zero k)
  exact ⟨freed.head, freed.tail, freed.ibit, freed.inode, fun k => by rw [skip]; exact freed.dbit k,
    fun k => by simp only [skip]; exact freed.block k⟩

theorem single (set : fs.dbit k = true) : Freed L [L.block k] fs ((fs.flipDbit k).setBlock k fun _ => 0) := by
  have mem (k' : ℕ) : L.block k' ∈ [L.block k] ↔ k' = k := by
    rw [List.mem_singleton]
    exact ⟨L.block_inj, fun same => by rw [same]⟩
  refine ⟨rfl, rfl, rfl, rfl, fun k' => ?_, fun k' => ?_⟩
  · rw [mem]
    change Function.update fs.dbit k (!fs.dbit k) k' = true ↔ _
    by_cases same : k' = k
    · rw [same, Function.update_self, set]
      simp
    · rw [Function.update_of_ne same]
      exact (and_iff_left same).symm
  · simp only [mem]
    exact Function.update_apply ..

end Freed

/-- Give back the blocks at some addresses, but nothing at null. -/
def freeAll (d : Disk) (addresses : List ℤ) : Disk :=
  addresses.foldl (fun d address => if address = 0 then d else freeBlock d address) d

/-- Distinct blocks in use are given back. -/
theorem Super.freeAll (super : Super L d)
    (used : ∀ a ∈ addresses, a ≠ 0 → ∃ k < L.blocks, a = L.block k ∧ (view L d).dbit k = true)
    (distinct : addresses.Pairwise fun a a' => a ≠ 0 → a ≠ a') :
    Super L (freeAll d addresses) ∧ Freed L addresses (view L d) (view L (freeAll d addresses)) := by
  induction addresses generalizing d with
  | nil => exact ⟨super, .refl L _⟩
  | cons a rest ih =>
    obtain ⟨other, apart⟩ := List.pairwise_cons.mp distinct
    have used' (a' : ℤ) (member : a' ∈ rest) := used a' (List.mem_cons_of_mem _ member)
    have start : Wfs.freeAll d (a :: rest) = Wfs.freeAll (if a = 0 then d else Wfs.freeBlock d a) rest := rfl
    rw [start]
    split_ifs with null
    · obtain ⟨super', freed⟩ := ih super used' apart
      rw [null]
      exact ⟨super', freed.null⟩
    · obtain ⟨k, inside, rfl, set⟩ := used a List.mem_cons_self null
      have one : Freed L [L.block k] (view L d) (view L (Wfs.freeBlock d (L.block k))) := by
        rw [super.freeBlock inside]
        exact .single set
      have still (a' : ℤ) (member : a' ∈ rest) (set' : a' ≠ 0) :
          ∃ k' < L.blocks, a' = L.block k' ∧ (view L (Wfs.freeBlock d (L.block k))).dbit k' = true := by
        obtain ⟨k', inside', rfl, before⟩ := used' a' member set'
        refine ⟨k', inside', rfl, (one.dbit k').mpr ⟨before, ?_⟩⟩
        rw [List.mem_singleton]
        exact (other _ member null).symm
      obtain ⟨super', freed⟩ := ih (super.of_head one.head) still apart
      exact ⟨super', one.append freed⟩

end Free

section Erase

/-- The block of an entry after the entry is cleared. -/
def erase (page : Memory) (j : ℕ) : Memory := page.store (dentryAt 0 j) (List.replicate 32 0)

theorem erase_inside {x : ℤ} (low : 32 * j ≤ x) (high : x < 32 * j + 32) : erase page j x = 0 := by
  have start : dentryAt 0 j = 32 * j := zero_add _
  rw [erase, start, store_inside low (by rw [List.length_replicate]; exact high), List.getD_eq_getElem?_getD,
    List.getElem?_replicate]
  split_ifs <;> rfl

theorem erase_outside {x : ℤ} (outside : x < 32 * j ∨ 32 * j + 32 ≤ x) : erase page j x = page x := by
  have start : dentryAt 0 j = 32 * j := zero_add _
  rw [erase, start, store_outside (by rw [List.length_replicate]; exact outside)]

/-- The cleared entry. -/
private theorem dentry_erase : dentryNum (erase page j) j = 0 ∧ dentryName (erase page j) j = [] := by
  constructor
  · rw [← dentryNum_zero j, dentryNum, dentryNum]
    apply int_congr
    intro x above below
    simp only [numAt, dentryAt] at above below
    exact erase_inside (by omega) (by omega)
  · rw [← dentryName_zero j, dentryName, dentryName]
    congr 1
    apply load_congr
    intro x above below
    simp only [dentryAt] at above below
    exact erase_inside (by omega) (by omega)

/-- The other entries of the block. -/
private theorem dentry_erase_of_ne (ne : l ≠ j) : dentryNum (erase page j) l = dentryNum page l ∧
    dentryName (erase page j) l = dentryName page l := by
  apply dentry_of_load
  apply load_congr
  intro x above below
  simp only [dentryAt] at above below
  exact erase_outside (by omega)

end Erase

section Removed

/-- The entry `s`, the inode `n` and the blocks at some addresses are given back. -/
structure Removed (L : Layout) (fs fs' : Fs) (s : Slot) (n : ℕ) (addresses : List ℤ) : Prop where
  head : fs'.head = fs.head
  ibit : fs'.ibit = Function.update fs.ibit n false
  dbit : ∀ k, fs'.dbit k = true ↔ fs.dbit k = true ∧ L.block k ∉ addresses
  pointers : ∀ m, m ≠ n → SamePointers (fs.inode m) (fs'.inode m)
  size : ∀ m, m ≠ n → fileSize (fs'.inode m) = fileSize (fs.inode m)
  links : ∀ m, m ≠ n → links (fs'.inode m) = if s.n = m then int32 (links (fs.inode m) - 1) else links (fs.inode m)
  page : fs'.block (L.blockNo (ptr (fs.inode s.n) s.i)) = erase (fs.page L s) s.j
  block : ∀ k, L.block k ∉ addresses → k ≠ L.blockNo (ptr (fs.inode s.n) s.i) → fs'.block k = fs.block k
  freed : ∀ k, L.block k ∈ addresses → fs'.block k = fun _ => 0

/-- What may be removed: the entry has the number of the inode, which owns the blocks and has no entries in use. -/
structure Removable (L : Layout) (fs : Fs) (s : Slot) (n : ℕ) (addresses : List ℤ) : Prop where
  used : fs.LiveDentry L s
  number : fs.num L s = n
  owned : ∀ k, L.block k ∈ addresses → ∃ r : Ref, r.owner = n ∧ fs.target L r = L.block k
  empty : ∀ s', fs.LiveDentry L s' → s'.n ≠ n

namespace Removed

/-- Blocks of other inodes are not given back. -/
theorem kept (able : Removable L fs s n addresses) (inv : Pointers L fs) (other : r.owner ≠ n)
    (target : fs.target L r = L.block k) : L.block k ∉ addresses := by
  intro member
  obtain ⟨r', mine, same⟩ := able.owned k member
  have refs := inv.unshared r r' (by rw [target]; exact L.block_ne_zero k) (target.trans same.symm)
  rw [refs] at other
  exact other mine

variable (removed : Removed L fs fs' s n addresses)
include removed

private theorem isDir_eq (ne : m ≠ n) : isDir (fs'.inode m) = isDir (fs.inode m) := by
  rw [isDir, isDir, (removed.pointers m ne).mode]

theorem ibit_ne (live : fs'.ibit m = true) : m ≠ n ∧ fs.ibit m = true := by
  rw [removed.ibit] at live
  have ne : m ≠ n := by
    rintro rfl
    rw [Function.update_self] at live
    cases live
  rw [Function.update_of_ne ne] at live
  exact ⟨ne, live⟩

/-- The pointers of the other inodes stay. -/
theorem target (able : Removable L fs s n addresses) (inv : Pointers L fs) (r : Ref) :
    fs'.target L r = if r.owner = n then 0 else fs.target L r := by
  split_ifs with mine
  · apply Fs.target_of_not_holds
    intro holds
    cases r with
    | ptr m i => exact (removed.ibit_ne holds.1).1 mine
    | entry m e => exact (removed.ibit_ne holds.1).1 mine
  · cases r with
    | ptr m i =>
      have live : fs'.ibit m = fs.ibit m := by
        rw [removed.ibit]
        exact Function.update_of_ne mine ..
      refine Fs.target_congr ?_ fun holds => (removed.pointers m mine).ptr i holds.2
      simp only [Fs.Holds, live]
    | entry m e =>
      have same := removed.pointers m mine
      have live : fs'.ibit m = fs.ibit m := by
        rw [removed.ibit]
        exact Function.update_of_ne mine ..
      have last := same.ptr indBlock (by decide)
      have reg : isReg (fs'.inode m) = isReg (fs.inode m) := by
        rw [isReg, isReg, same.mode]
      refine Fs.target_congr ?_ fun holds => ?_
      · simp only [Fs.Holds, live, reg, last]
      · obtain ⟨_, indirect⟩ := inv.indirect_eq holds
        obtain ⟨k, _, entry, pointer, _⟩ := inv.page_eq able.used.1
        have apart : fs.indirect L m ≠ L.blockNo (Wfs.ptr (fs.inode s.n) s.i) := by
          rw [pointer, L.blockNo_block]
          rintro rfl
          have refs := inv.unshared _ _ (by rw [indirect]; exact L.block_ne_zero _) (indirect.trans entry.symm)
          have small := able.used.1.2.2.1
          rw [← (Ref.ptr.inj refs).2] at small
          exact lt_irrefl _ small
        simp only [Fs.value, Fs.indirect, last]
        exact congrArg (fun page => Wfs.entry page e)
          (removed.block (fs.indirect L m) (kept able inv (r := .ptr m indBlock) mine indirect) apart)

private theorem pointers_in_order (able : Removable L fs s n addresses) (inv : Pointers L fs) : Pointers L fs' := by
  have targets := removed.target able inv
  have other {r : Ref} (set : fs'.target L r ≠ 0) : r.owner ≠ n ∧ fs'.target L r = fs.target L r := by
    rw [targets] at set ⊢
    split_ifs at set ⊢ with mine
    · exact (set rfl).elim
    · exact ⟨mine, rfl⟩
  refine ⟨?_, ?_, ?_, ?_⟩
  · intro r set
    obtain ⟨_, same⟩ := other set
    rw [same] at set ⊢
    exact inv.valid r set
  · intro r r' set eq
    obtain ⟨_, same⟩ := other set
    obtain ⟨_, same'⟩ := other (show fs'.target L r' ≠ 0 by rwa [← eq])
    rw [same] at set
    exact inv.unshared r r' set (by rw [← same, eq, same'])
  · intro r k eq
    obtain ⟨mine, same⟩ := other (show fs'.target L r ≠ 0 by rw [eq]; exact L.block_ne_zero k)
    rw [same] at eq
    exact (removed.dbit k).mpr ⟨inv.used r k eq, kept able inv mine eq⟩
  · intro k inside free
    by_cases gone : L.block k ∈ addresses
    · exact removed.freed k gone
    · have before : fs.dbit k = false := by
        apply Bool.eq_false_of_not_eq_true
        intro set
        rw [(removed.dbit k).mpr ⟨set, gone⟩] at free
        cases free
      obtain ⟨k', _, entry, pointer, _⟩ := inv.page_eq able.used.1
      rw [removed.block k gone, inv.zero k inside before]
      rw [pointer, L.blockNo_block]
      rintro rfl
      rw [inv.used _ _ entry] at before
      cases before

/-- Entries that are still there. -/
private theorem page_kept (able : Removable L fs s n addresses) (inv : Pointers L fs) (dentry : fs.IsDentry s') (ne : s'.n ≠ n) :
    (s'.n = s.n ∧ s'.i = s.i ∧ fs'.page L s' = erase (fs.page L s) s.j ∧ fs.page L s' = fs.page L s) ∨
      fs'.page L s' = fs.page L s' := by
  obtain ⟨k, _, target, pointer, page⟩ := inv.page_eq dentry
  obtain ⟨k₀, _, target₀, pointer₀, page₀⟩ := inv.page_eq able.used.1
  have small := dentry.2.2.1
  simp only [indBlock] at small
  have same : fs'.page L s' = fs'.block k := by
    rw [Fs.page, (removed.pointers s'.n ne).ptr s'.i (by omega), pointer, L.blockNo_block]
  by_cases eq : k = k₀
  · left
    subst eq
    have refs := inv.unshared _ _ (by rw [target]; exact L.block_ne_zero k) (target.trans target₀.symm)
    have cleared := removed.page
    rw [pointer₀, L.blockNo_block] at cleared
    exact ⟨(Ref.ptr.inj refs).1, (Ref.ptr.inj refs).2, same.trans cleared, page.trans page₀.symm⟩
  · right
    rw [same, page]
    exact removed.block k (kept able inv (r := .ptr s'.n s'.i) ne target) (by rw [pointer₀, L.blockNo_block]; exact eq)

theorem entryStep (able : Removable L fs s n addresses) (inv : Pointers L fs) : EntryStep L fs fs' s := by
  have pointer {s' : Slot} (ne : s'.n ≠ n) (small : s'.i < indBlock) : ptr (fs'.inode s'.n) s'.i = ptr
    (fs.inode s'.n) s'.i :=
    (removed.pointers s'.n ne).ptr s'.i (by simp only [indBlock] at small; omega)
  have dentry (s' : Slot) (after : fs'.IsDentry s') : s'.n ≠ n ∧ fs.IsDentry s' := by
    obtain ⟨live, dir, small, inside, set⟩ := after
    obtain ⟨ne, before⟩ := removed.ibit_ne live
    rw [removed.isDir_eq ne] at dir
    rw [pointer ne small] at set
    exact ⟨ne, before, dir, small, inside, set⟩
  have other {s' : Slot} (after : fs'.IsDentry s') (ne : s' ≠ s) :
      fs'.num L s' = fs.num L s' ∧ fs'.name L s' = fs.name L s' := by
    obtain ⟨apart, before⟩ := dentry s' after
    rw [Fs.num, Fs.num, Fs.name, Fs.name]
    rcases removed.page_kept able inv before apart with ⟨here, block, page', page⟩ | page
    · have entry : s'.j ≠ s.j := by
        intro eq
        cases s'
        cases s
        dsimp only at here block eq
        subst here block eq
        exact ne rfl
      rw [page', page]
      exact dentry_erase_of_ne entry
    · rw [page]
      exact ⟨rfl, rfl⟩
  refine ⟨fun s' after => (dentry s' after).2, ?_, fun s' after ne => (other after ne).1,
    fun s' after ne => (other after ne).2⟩
  intro s' used
  have ne := able.empty s' used
  obtain ⟨⟨live, dir, small, inside, set⟩, _⟩ := used
  refine ⟨?_, ?_, small, inside, ?_⟩
  · rw [removed.ibit, Function.update_of_ne ne]
    exact live
  · rw [removed.isDir_eq ne]
    exact dir
  · rw [pointer ne small]
    exact set

/-- The entry is cleared. -/
theorem cleared (able : Removable L fs s n addresses) : fs'.num L s = 0 ∧ fs'.name L s = [] := by
  have small := able.used.1.2.2.1
  simp only [indBlock] at small
  have page : fs'.page L s = erase (fs.page L s) s.j := by
    rw [← removed.page, Fs.page, (removed.pointers s.n (able.empty s able.used)).ptr s.i (by omega)]
  rw [Fs.num, Fs.name, page]
  exact dentry_erase

theorem tree (able : Removable L fs s n addresses) (inv : Pointers L fs) (tree : Tree L fs) : Tree L fs' := by
  refine tree.remove (removed.entryStep able inv) removed.ibit able.used able.number (removed.cleared able) ?_ ?_
  · intro m live dir i j less small set
    obtain ⟨ne, before⟩ := removed.ibit_ne live
    rw [removed.isDir_eq ne] at dir
    have same := removed.pointers m ne
    simp only [indBlock] at small
    rw [same.ptr j (by omega)] at set
    rw [same.ptr i (by omega)]
    exact tree.front m before dir i j less (by simp only [indBlock]; omega) set
  · intro m live dir
    obtain ⟨ne, before⟩ := removed.ibit_ne live
    rw [removed.isDir_eq ne] at dir
    have count := tree.counted m before dir
    have few := liveCount_le (L := L) fs m
    simp only [indBlock, dentriesPerBlock] at few
    rw [removed.links m ne]
    split_ifs with here
    · rw [count, int32_eq (by omega) (by omega)]
      omega
    · rw [count, add_zero]

end Removed

/-- What was intact is intact afterwards. -/
theorem Removed.intact (removed : Removed L (view L d) (view L d') s n addresses)
    (able : Removable L (view L d) s n addresses) (intact : Intact L d) : Intact L d' where
  ordered := ⟨intact.ordered.super.of_head removed.head, removed.pointers_in_order able intact.ordered.pointers⟩
  tree := removed.tree able intact.ordered.pointers intact.tree
  numbers s' used := by
    have step := removed.entryStep able intact.ordered.pointers
    have ne : s' ≠ s := by
      rintro rfl
      have positive := used.2
      rw [(removed.cleared able).1] at positive
      exact lt_irrefl _ positive
    have before := (step.live ne).mp used
    obtain ⟨m, number, live⟩ := intact.numbers s' before
    refine ⟨m, (step.num s' used.1 ne).trans number, ?_⟩
    have apart : m ≠ n := by
      rintro rfl
      exact ne (intact.tree.unique s' s before able.used (number.trans able.number.symm))
    rw [removed.ibit, Function.update_of_ne apart]
    exact live
  single m live file := by
    obtain ⟨ne, before⟩ := removed.ibit_ne live
    rw [removed.isDir_eq ne] at file
    have apart : s.n ≠ m := by
      rintro rfl
      rw [able.used.1.2.1] at file
      cases file
    rw [removed.links m ne, if_neg apart]
    exact intact.single m before file

end Removed

end Cs537.Wfs
