import Cs537.Wfs.Growth
import Cs537.Wfs.LongNames
import Cs537.Wfs.Unlink

/-! # What removing a new file restores

A file that is created, written to and removed again gives back every block it has got, unless a write has taken a
block for the indirect pointer: no round of the release loop works on that one.
-/

namespace Cs537.Wfs

open Lib Memory

variable {L : Layout} {d d' : Disk} {fs fs' : Fs} {name path : Name} {env : Env} {n p k i j mode : ℕ} {r : Ref}

section Lost

/-- Bytes of the blocks are cleared: the bitmaps and the inodes stay, and a pointer stays or is null. -/
structure Lost (L : Layout) (fs fs' : Fs) : Prop where
  head : fs'.head = fs.head
  ibit : fs'.ibit = fs.ibit
  dbit : fs'.dbit = fs.dbit
  inode : fs'.inode = fs.inode
  free : ∀ k < L.blocks, fs.dbit k = false → fs'.block k = fs.block k
  target : ∀ r, fs'.target L r = fs.target L r ∨ fs'.target L r = 0

theorem Lost.refl (L : Layout) (fs : Fs) : Lost L fs fs := ⟨rfl, rfl, rfl, rfl, fun _ _ _ => rfl, fun _ => .inl rfl⟩

/-- The pointers in the inode stay. -/
theorem Lost.target_ptr (lost : Lost L fs fs') (n i : ℕ) : fs'.target L (.ptr n i) = fs.target L (.ptr n i) := by
  refine Fs.target_congr ?_ fun _ => ?_
  · simp only [Fs.Holds, lost.ibit]
  · simp only [Fs.value, lost.inode]

theorem Pointers.lost (inv : Pointers L fs) (lost : Lost L fs fs') : Pointers L fs' := by
  have same {r : Ref} (set : fs'.target L r ≠ 0) : fs'.target L r = fs.target L r := (lost.target r).resolve_right set
  refine ⟨?_, ?_, ?_, ?_⟩
  · intro r set
    have before := same set
    rw [before] at set ⊢
    exact inv.valid r set
  · intro r r' set eq
    have set' : fs'.target L r' ≠ 0 := by rwa [← eq]
    rw [same set, same set'] at eq
    rw [same set] at set
    exact inv.unshared r r' set eq
  · intro r k target
    rw [same (by rw [target]; exact L.block_ne_zero k)] at target
    rw [lost.dbit]
    exact inv.used r k target
  · intro k inside clear
    rw [lost.dbit] at clear
    rw [lost.free k inside clear]
    exact inv.zero k inside clear

/-- A directory entry covers whole entries of an indirect block. -/
private theorem entry_erase (page : Memory) (j e : ℕ) : entry (erase page j) e = entry page e ∨ entry (erase page j) e = 0 := by
  by_cases inside : 4 * j ≤ e ∧ e < 4 * j + 4
  · right
    rw [← entry_zero e, entry, entry]
    exact long_congr fun x above below => erase_inside (by omega) (by omega)
  · left
    rw [entry, entry]
    exact long_congr fun x above below => erase_outside (by omega)

theorem Lost.erase (inv : Pointers L fs) (k j : ℕ) : Lost L fs (fs.setBlock k (erase (fs.block k) j)) := by
  obtain ⟨page, cleared⟩ : ∃ page, Wfs.erase (fs.block k) j = page := ⟨_, rfl⟩
  have self : (fs.setBlock k page).block k = page := Function.update_self ..
  have other (m : ℕ) (ne : m ≠ k) : (fs.setBlock k page).block m = fs.block m := Function.update_of_ne ne ..
  rw [cleared]
  refine ⟨rfl, rfl, rfl, rfl, fun m inside clear => ?_, fun r => ?_⟩
  · by_cases here : m = k
    · subst here
      rw [self, ← cleared, inv.zero m inside clear]
      funext x
      by_cases within : 32 * (j : ℤ) ≤ x ∧ x < 32 * j + 32
      · exact erase_inside within.1 within.2
      · exact erase_outside (by omega)
    · exact other m here
  · have same_holds : (fs.setBlock k page).Holds r ↔ fs.Holds r := by cases r <;> exact Iff.rfl
    by_cases holds : fs.Holds r
    · rw [Fs.target_of_holds holds, Fs.target_of_holds (same_holds.mpr holds)]
      cases r with
      | ptr m i => exact .inl rfl
      | entry m e =>
        have value : (fs.setBlock k page).value L (.entry m e) = entry
          ((fs.setBlock k page).block (fs.indirect L m)) e := rfl
        rw [value, Fs.value]
        by_cases here : fs.indirect L m = k
        · rw [here, self, ← cleared]
          exact entry_erase ..
        · rw [other _ here]
          exact .inl rfl
    · exact .inr (Fs.target_of_not_holds (mt same_holds.mp holds))

/-- The places from the start of a block on, which may lie in the blocks behind it. -/
private theorem Ordered.clearPlace (ordered : Ordered L d) (k j : ℕ) :
    Lost L (view L d) (view L (memsetZero d (dentryAt (L.block k) j) 32)) := by
  have place : dentryAt (L.block k) j = dentryAt (L.block (k + j / 16)) (j % 16) := by
    simp only [dentryAt, Layout.block]
    omega
  have small : j % 16 < dentriesPerBlock := Nat.mod_lt _ (by decide)
  rw [place]
  by_cases inside : k + j / 16 < L.blocks
  · rw [view_erase inside small]
    exact .erase ordered.pointers ..
  · obtain ⟨bitmap, table, order, order'⟩ := L.tables
    have above : L.size ≤ dentryAt (L.block (k + j / 16)) (j % 16) := by
      simp only [dentryAt, Layout.block, Layout.size]
      omega
    rw [memsetZero]
    have inode : (view L (d.store (dentryAt (L.block (k + j / 16)) (j % 16)) (List.replicate 32 0))).inode =
        (view L d).inode := funext fun m => view_inode_store fun small => .inr (by have := L.inode_range small; omega)
    have block (k' : ℕ) : (view L (d.store (dentryAt (L.block (k + j / 16)) (j % 16)) (List.replicate 32 0))).block k' =
        (view L d).block k' := view_block_store fun small => .inr (by have := L.block_range small; omega)
    have ibit : (view L (d.store (dentryAt (L.block (k + j / 16)) (j % 16)) (List.replicate 32 0))).ibit =
      (view L d).ibit :=
      view_ibit_store (by omega)
    refine ⟨view_head_store (by omega), ibit, view_dbit_store (.inr (by omega)), inode, fun k' _ _ => block k',
      fun r => .inl ?_⟩
    cases r with
    | ptr m i =>
      refine Fs.target_congr ?_ fun _ => ?_
      · simp only [Fs.Holds, ibit]
      · simp only [Fs.value, inode]
    | entry m e =>
      refine Fs.target_congr ?_ fun _ => ?_
      · simp only [Fs.Holds, ibit, inode]
      · simp only [Fs.value, Fs.indirect, inode, block]

/-- The loop clears one place that a pointer of the directory leads to, or none. -/
private theorem clearDentry_cases (d : Disk) (name : Name) (inode : ℤ) (fuel i : ℕ) :
    clearDentry name inode fuel i d = d ∨ ∃ l < i + fuel, ∃ j : ℕ, d.long (blocksAt inode l) ≠ 0 ∧
      clearDentry name inode fuel i d = memsetZero d (dentryAt (d.long (blocksAt inode l)) j) 32 := by
  induction fuel generalizing i with
  | zero => exact .inl rfl
  | succ fuel ih =>
    have later : clearDentry name inode fuel (i + 1) d = d ∨
      ∃ l < i + (fuel + 1), ∃ j : ℕ, d.long (blocksAt inode l) ≠ 0 ∧
        clearDentry name inode fuel (i + 1) d = memsetZero d (dentryAt (d.long (blocksAt inode l)) j) 32 := by
      rcases ih (i + 1) with same | ⟨l, small, place⟩
      · exact .inl same
      · exact .inr ⟨l, by omega, place⟩
    simp only [clearDentry]
    by_cases null : d.long (blocksAt inode i) = 0
    · rw [if_pos null]
      exact later
    · rw [if_neg null]
      rcases findDentry d (d.long (blocksAt inode i)) name with ⟨num, _ | j⟩
      · exact later
      · dsimp only
        split_ifs with found
        · exact .inr ⟨i, by omega, j, null, rfl⟩
        · exact later

theorem Ordered.clearDentry (ordered : Ordered L d) (live : (view L d).ibit p = true) (name : Name) :
    Lost L (view L d) (view L (clearDentry name (L.inode p) indBlock 0 d)) := by
  rcases clearDentry_cases d name (L.inode p) indBlock 0 with same | ⟨l, small, j, set, place⟩
  · rw [same]
    exact .refl ..
  · have below : l < 8 := by
      simp only [indBlock] at small
      omega
    rw [place]
    rw [long_blocksAt (view_ibit_lt live) below, ← Fs.target_ptr (L := L) live below] at set ⊢
    obtain ⟨k, _, eq⟩ := ordered.pointers.valid _ set
    rw [eq]
    exact ordered.clearPlace k j

end Lost

section Released

/-- What removing a file makes of the bitmaps: only blocks that its direct pointers and the entries of its indirect
block lead to are given back, and those of the direct pointers that its size reaches are. -/
structure Released (L : Layout) (n : ℕ) (fs fs' : Fs) : Prop where
  ibit : fs'.ibit = Function.update fs.ibit n false
  kept : ∀ k, fs'.dbit k = true → fs.dbit k = true
  mine : ∀ k, fs.dbit k = true → fs'.dbit k = false →
    ∃ r : Ref, r.owner = n ∧ r.indirect = false ∧ fs.target L r = L.block k
  direct : ∀ i < indBlock, (blockSize * i : ℕ) ≤ fileSize (fs.inode n) → ∀ k, fs.target L (.ptr n i) = L.block k →
    fs'.dbit k = false

/-- A file with one link is removed, wherever the entry that is cleared lies. -/
theorem Ordered.unlink (ordered : Ordered L d) (lookup : findInodeNumberByPath d path = (↑p, ↑n))
    (parent : (view L d).ibit p = true) (live : (view L d).ibit n = true) (reg : isReg ((view L d).inode n) = true)
    (apart : p ≠ n) (single : links ((view L d).inode n) = 1) (low : L.size ≤ 2 ^ 31)
    (positive : 0 ≤ fileSize ((view L d).inode n))
    (bounded : ptr ((view L d).inode n) indBlock ≠ 0 → fileSize ((view L d).inode n) ≤ maxSize) (env : Env) :
    Released L n (view L d) (view L (unlinkPath env d path).1) := by
  have lost := ordered.clearDentry parent (lastToken path)
  obtain ⟨d₀, clear⟩ : ∃ d₀, Wfs.clearDentry (lastToken path) (L.inode p) indBlock 0 d = d₀ := ⟨_, rfl⟩
  rw [clear] at lost
  have ordered₀ : Ordered L d₀ := ⟨ordered.super.of_head lost.head, ordered.pointers.lost lost⟩
  obtain ⟨d₁, first⟩ : ∃ d₁, forgetChild env d₀ (L.inode p) = d₁ := ⟨_, rfl⟩
  obtain ⟨d₂, second⟩ : ∃ d₂, d₁.setInt (nlinksAt (L.inode n)) (d₁.int (nlinksAt (L.inode n)) - 1) = d₂ := ⟨_, rfl⟩
  obtain ⟨super₁, ordered₂, targets, page, view₂, _⟩ :=
    ordered₀.lessLinks (view_ibit_lt parent) (view_ibit_lt live) apart first second
  have ibit : (view L d₂).ibit = (view L d).ibit := by
    rw [view₂]
    exact lost.ibit
  have dbit : (view L d₂).dbit = (view L d).dbit := by
    rw [view₂]
    exact lost.dbit
  have mine : (view L d₂).inode n = lessLink ((view L d).inode n) := by
    rw [view₂, ← lost.inode]
    exact Function.update_self ..
  have same := lessLink_same ((view L d).inode n)
  have size : fileSize ((view L d₂).inode n) = fileSize ((view L d).inode n) := by
    rw [mine, fileSize_lessLink]
  have last : links ((view L d₂).inode n) = 0 := by
    rw [mine, links_lessLink, single]
    exact int32_eq (by decide) (by decide)
  obtain ⟨fs, final, freed⟩ := ordered₂.unlink_rest (d := d) ordered.super super₁ lookup (view_ibit_lt parent)
    (by rw [clear]; exact first) second (by rw [ibit]; exact live) (by rw [mine, isReg, same.mode]; exact reg) last low
    (by rw [size]; exact positive) (by rw [mine, same.ptr indBlock (by decide), fileSize_lessLink]; exact bounded)
  have bits (k : ℕ) : (view L (unlinkPath env d path).1).dbit k = true ↔
      (view L d).dbit k = true ∧ L.block k ∉ releasedAll L (view L d₂) n := by
    rw [final, ← dbit]
    exact freed.dbit k
  refine ⟨?_, fun k set => ((bits k).mp set).1, fun k set clear => ?_, fun i small reached k target => ?_⟩
  · rw [final, dropInode_ibit (by rw [freed.ibit, ibit]; exact live), freed.ibit, ibit]
  · have member : L.block k ∈ releasedAll L (view L d₂) n := by
      by_contra other
      rw [(bits k).mpr ⟨set, other⟩] at clear
      cases clear
    obtain ⟨_, _, r, here, target⟩ := mem_releasedAll.mp member
    rw [targets] at target
    obtain ⟨owner, data⟩ := released_owner here
    refine ⟨r, owner, data, ?_⟩
    rw [← target]
    exact ((lost.target r).resolve_right (by rw [target]; exact L.block_ne_zero k)).symm
  · apply Bool.eq_false_of_not_eq_true
    rw [bits]
    refine fun kept => kept.2 (mem_releasedAll.mpr ⟨i, ?_, .ptr n i, if_pos small, ?_⟩)
    · rw [rounds, size]
      simp only [blockSize] at reached ⊢
      omega
    · rw [targets, lost.target_ptr, target]

/-- A file without an indirect block: what it has got since it was empty is given back, and nothing else. -/
private theorem Released.dbit_eq {fs₁ : Fs} (released : Released L n fs fs') (inv : Pointers L fs₁) (step : FileStep L n fs₁ fs)
    (empty : ∀ r : Ref, r.owner = n → fs₁.target L r = 0) (covered : Covered L fs n)
    (direct : fs.target L (.ptr n indBlock) = 0) : fs'.dbit = fs₁.dbit := by
  funext k
  cases before : fs₁.dbit k with
  | true =>
    by_contra clear
    obtain ⟨r, owner, _, target⟩ := released.mine k (step.dbit k before) (Bool.eq_false_of_not_eq_true clear)
    rw [step.fresh r k (empty r owner) target] at before
    cases before
  | false =>
    by_contra set
    rw [Bool.not_eq_false] at set
    rcases step.owned k (released.kept k set) with same | ⟨r, target⟩
    · rw [before] at same
      cases same
    · have holds : fs.Holds r := Fs.holds_of_target (L := L) (by rw [target]; exact L.block_ne_zero k)
      have owner : r.owner = n := by
        by_contra other
        rw [step.others r other] at target
        rw [inv.used r k target] at before
        cases before
      cases r with
      | entry m e =>
        obtain rfl : m = n := owner
        exact holds.2.2.2 ((Fs.target_ptr holds.1 (by decide)).symm.trans direct)
      | ptr m i =>
        obtain rfl : m = n := owner
        have ne : i ≠ indBlock := by
          rintro rfl
          exact L.block_ne_zero k (target.symm.trans direct)
        have below := holds.2
        have small : i < indBlock := by
          simp only [indBlock] at ne ⊢
          omega
        have reached := covered.direct i small (by rw [target]; exact L.block_ne_zero k)
        rw [released.direct i small reached.le k target] at set
        cases set

/-- The indirect block of the file stays in use. -/
private theorem Released.leak {fs₁ : Fs} (released : Released L n fs fs') (inv : Pointers L fs) (step : FileStep L n fs₁ fs)
    (empty : fs₁.target L (.ptr n indBlock) = 0) (taken : fs.target L (.ptr n indBlock) ≠ 0) :
    ∃ k, fs₁.dbit k = false ∧ fs'.dbit k = true := by
  obtain ⟨k, _, target⟩ := inv.valid _ taken
  refine ⟨k, step.fresh _ k empty target, ?_⟩
  by_contra clear
  obtain ⟨r, _, data, same⟩ := released.mine k (inv.used _ k target) (Bool.eq_false_of_not_eq_true clear)
  rw [← inv.unshared _ r taken (target.trans same.symm)] at data
  cases data

end Released

section Run

/-- A call of `wfs_write`. -/
structure WriteCall where
  env : Env
  buf : List UInt8
  offset : ℕ
deriving DecidableEq, Repr

variable {d₀ : Disk} {w : WriteCall} {ws : List WriteCall}

/-- The image after the calls, whatever they return. -/
def writeAll (path : Name) (d : Disk) (ws : List WriteCall) : Disk :=
  ws.foldl (fun d w => (writePath w.env d path w.buf w.offset).1) d

/-- Before each call and after the last, the path leads to the file by way of its directory. -/
def Leads (path : Name) (p n : ℕ) : Disk → List WriteCall → Prop
  | d, [] => findInodeNumberByPath d path = (↑p, ↑n)
  | d, w :: ws => findInodeNumberByPath d path = (↑p, ↑n) ∧ Leads path p n (writePath w.env d path w.buf w.offset).1 ws

instance decidableLeads (path : Name) (p n : ℕ) : (d : Disk) → (ws : List WriteCall) → Decidable (Leads path p n d ws)
  | d, [] => inferInstanceAs (Decidable (findInodeNumberByPath d path = (↑p, ↑n)))
  | d, w :: ws =>
      have := decidableLeads path p n (writePath w.env d path w.buf w.offset).1 ws
      inferInstanceAs (Decidable (findInodeNumberByPath d path = (↑p, ↑n) ∧
        Leads path p n (writePath w.env d path w.buf w.offset).1 ws))

/-- No call takes a block for the indirect pointer. -/
def StaysDirect (L : Layout) (path : Name) (n : ℕ) : Disk → List WriteCall → Prop
  | _, [] => True
  | d, w :: ws => ¬ TakesIndirect L (view L d) n w.offset w.buf.length ∧
      StaysDirect L path n (writePath w.env d path w.buf w.offset).1 ws

instance decidableStaysDirect (L : Layout) (path : Name) (n : ℕ) :
    (d : Disk) → (ws : List WriteCall) → Decidable (StaysDirect L path n d ws)
  | _, [] => inferInstanceAs (Decidable True)
  | d, w :: ws =>
      have := decidableStaysDirect L path n (writePath w.env d path w.buf w.offset).1 ws
      inferInstanceAs (Decidable (¬ TakesIndirect L (view L d) n w.offset w.buf.length ∧
        StaysDirect L path n (writePath w.env d path w.buf w.offset).1 ws))

theorem Leads.start (leads : Leads path p n d ws) : findInodeNumberByPath d path = (↑p, ↑n) := by
  cases ws with
  | nil => exact leads
  | cons w ws => exact leads.1

theorem Leads.last (leads : Leads path p n d ws) : findInodeNumberByPath (writeAll path d ws) path = (↑p, ↑n) := by
  induction ws generalizing d with
  | nil => exact leads
  | cons w ws ih => exact ih leads.2

/-- The file after some writes to it. -/
structure Extended (L : Layout) (n : ℕ) (d d' : Disk) : Prop where
  ordered : Ordered L d'
  step : FileStep L n (view L d) (view L d')
  covered : Covered L (view L d') n

variable (live : (view L d₀).ibit n = true) (reg : isReg ((view L d₀).inode n) = true)
include live reg

theorem Extended.alive (file : Extended L n d₀ d) : (view L d).ibit n = true ∧ isReg ((view L d).inode n) = true := by
  refine ⟨?_, ?_⟩
  · rw [file.step.ibit]
    exact live
  · rw [isReg, file.step.mode]
    exact reg

/-- One more write. -/
theorem Extended.write (file : Extended L n d₀ d) (found : (findInodeNumberByPath d path).2 = n)
    (fits : w.offset < 2 ^ 63) : Extended L n d₀ (writePath w.env d path w.buf w.offset).1 := by
  obtain ⟨alive, regular⟩ := file.alive live reg
  obtain ⟨step, ordered⟩ := (file.ordered.writePath w.env found alive regular w.buf w.offset).fileStep
  exact ⟨ordered, file.step.trans step, (file.covered.write file.ordered found alive regular fits w.env w.buf).1⟩

/-- A sequence of writes: a block is taken for the indirect pointer exactly when one of them takes it, and the size
stays below the largest. -/
theorem Extended.writes (file : Extended L n d₀ d) (leads : Leads path p n d ws) (fits : ∀ w ∈ ws, w.offset < 2 ^ 63) :
    Extended L n d₀ (writeAll path d ws) ∧
      ((view L (writeAll path d ws)).target L (.ptr n indBlock) ≠ 0 ↔
        (view L d).target L (.ptr n indBlock) ≠ 0 ∨ ¬ StaysDirect L path n d ws) ∧
      ((∀ w ∈ ws, w.buf = [] → w.offset ≤ maxSize) → fileSize ((view L d).inode n) ≤ maxSize →
        fileSize ((view L (writeAll path d ws)).inode n) ≤ maxSize) := by
  induction ws generalizing d with
  | nil => exact ⟨file, (or_iff_left fun left => left trivial).symm, fun _ => id⟩
  | cons w ws ih =>
    have found : (findInodeNumberByPath d path).2 = n := congrArg Prod.snd leads.1
    have first := fits w List.mem_cons_self
    obtain ⟨alive, regular⟩ := file.alive live reg
    obtain ⟨_, taken, size⟩ := file.covered.write file.ordered found alive regular first w.env w.buf
    obtain ⟨last, indirect, short⟩ := ih (file.write live reg found first) leads.2
      fun w member => fits w (List.mem_cons_of_mem _ member)
    refine ⟨last, ?_, fun near below => ?_⟩
    · refine indirect.trans ?_
      rw [taken, StaysDirect, not_and_or, not_not, or_assoc]
    · exact short (fun w member => near w (List.mem_cons_of_mem _ member)) (size (near w List.mem_cons_self) below)

/-- A lookup that reads nothing a write to the file may change leads there all the time. -/
theorem Extended.leads (file : Extended L n d₀ d) (lookup : findInodeNumberByPath d₀ path = (↑p, ↑n))
    (undisturbed : Undisturbed L d₀ path n) (fits : ∀ w ∈ ws, w.offset < 2 ^ 63) : Leads path p n d ws := by
  have here : findInodeNumberByPath d path = (↑p, ↑n) := by
    rw [file.step.lookup_eq undisturbed]
    exact lookup
  induction ws generalizing d with
  | nil => exact here
  | cons w ws ih =>
    have next := file.write live reg (congrArg Prod.snd here) (fits w List.mem_cons_self)
    refine ⟨here, ih next (fun w member => fits w (List.mem_cons_of_mem _ member)) ?_⟩
    rw [next.step.lookup_eq undisturbed]
    exact lookup

end Run

section Creation

/-- A call finds room in the blocks that the directory has. -/
theorem WellFormed.create_room (wf : WellFormed L d) (missing : Missing L d path p) (room : ¬ (view L d).Full L p)
    (type : ℕ) (env : Env) (mode : ℕ) : ∃ s k, FreeSlot L (view L d) s k ∧ s.n = p ∧ Wfs.create type env d path mode =
      fillDentry env (mode ||| type) (lastToken path) (L.inode p) (dentryAt (L.block k) s.j) d := by
  rcases wf.ordered.create missing.toAbsent type env mode with
    ⟨_, l, bound, filled, reason⟩ | ⟨d₁, s, k, slot, here, _, grown, result⟩
  · exact absurd (wf.full_of_filled missing filled (reason.imp_right And.left)) room
  · rcases grown with rfl | grown
    · exact ⟨s, k, slot, here, result⟩
    · have filled := grown.filled
      have null := grown.null
      rw [here] at filled null
      exact absurd (wf.full_of_filled missing filled (.inr null)) room

/-- A file that `wfs_mknod` has made in a directory with room. -/
structure Created (L : Layout) (d d' : Disk) (p n : ℕ) : Prop where
  ordered : Ordered L d'
  parent : (view L d').ibit p = true
  live : (view L d').ibit n = true
  reg : isReg ((view L d').inode n) = true
  single : links ((view L d').inode n) = 1
  size : fileSize ((view L d').inode n) = 0
  empty : ∀ r : Ref, r.owner = n → (view L d').target L r = 0
  ibit : (view L d').ibit = Function.update (view L d).ibit n true
  dbit : (view L d').dbit = (view L d).dbit

private theorem WellFormed.mknod_room (wf : WellFormed L d) (missing : Missing L d path p) (room : ¬ (view L d).Full L p)
    (plain : Plain mode sIfreg) (lowest : lowestClear (view L d).ibit L.inodes = some n)
    (short : (lastToken path).length < 32)
    (env : Env) : Created L d (Wfs.create sIfreg env d path mode).1 p n := by
  obtain ⟨inside, fresh, _⟩ := lowestClear_eq_some lowest
  obtain ⟨s, k, slot, rfl, result⟩ := wf.create_room missing room sIfreg env mode
  have apart := slot.apart fresh
  obtain ⟨d₁, made⟩ : ∃ d₁, (Wfs.create sIfreg env d path mode).1 = d₁ := ⟨_, rfl⟩
  have view_eq : view L d₁ = (view L d).create s.n k s.j (lastToken path) n (inodeBytes env n (mode ||| sIfreg)) := by
    rcases wf.super.fillDentry env (mode ||| sIfreg) (view_ibit_lt missing.live) slot.inside slot.dentry.2.2.2.1 short
      with
      ⟨none, _⟩ | ⟨m, lowest', _, view_eq⟩
    · rw [none] at lowest
      cases lowest
    · obtain rfl : m = n := Option.some.inj (lowest'.symm.trans lowest)
      rw [← made, result]
      exact view_eq
  have bits : (view L d₁).ibit = Function.update (view L d).ibit n true := by rw [view_eq, create_ibit fresh]
  have new : (view L d₁).inode n = ((view L d).inode n).store 0 (inodeBytes env n (mode ||| sIfreg)) := by
    rw [view_eq, create_inode_new apart]
  have null (i : ℕ) (small : i < 8) : ptr ((view L d₁).inode n) i = 0 := by rw [new, ptr_newInode _ small]
  rw [made]
  refine ⟨⟨wf.super.of_head (by rw [view_eq]; rfl), ?_⟩, ?_, ?_, ?_, ?_, ?_, ?_, bits, by rw [view_eq]; rfl⟩
  · rw [view_eq]
    exact slot.pointers_create fresh _ env _ wf.ordered.pointers
  · rw [bits, Function.update_of_ne apart.symm]
    exact missing.live
  · rw [bits, Function.update_self]
  · rw [isReg, beq_iff_eq, new, fileMode_newInode]
    exact plain.type_eq (by decide)
  · rw [new, links_newInode]
  · rw [new, fileSize_newInode]
  · intro r owner
    by_contra set
    have holds := Fs.holds_of_target set
    rw [Fs.target_of_holds holds] at set
    cases r with
    | ptr m i =>
      obtain rfl : m = n := owner
      exact set (null i holds.2)
    | entry m e =>
      obtain rfl : m = n := owner
      exact holds.2.2.2 (null indBlock (by decide))

end Creation

section Bitmaps

variable {d₁ : Disk} {ws : List WriteCall}

/-- The bitmaps are byte for byte what they were. -/
def SameBitmaps (L : Layout) (d d' : Disk) : Prop := ∀ x, 48 ≤ x → x < L.iTable → d' x = d x

private theorem sameBitmaps_iff :
    SameBitmaps L d d' ↔ (view L d').ibit = (view L d).ibit ∧ (view L d').dbit = (view L d).dbit := by
  obtain ⟨bitmap, table, order, order'⟩ := L.tables
  constructor
  · intro same
    constructor
    · funext m
      by_cases inside : m < L.inodes
      · have row : m / 32 < L.inodeRows := Nat.div_lt_of_lt_mul inside
        simp only [view, bit]
        rw [le_congr fun x above below => same x (by omega) (by omega)]
      · simp only [view, inside, decide_false, Bool.false_and]
    · funext k
      by_cases inside : k < L.blocks
      · have row : k / 32 < L.blockRows := Nat.div_lt_of_lt_mul inside
        simp only [view, bit]
        rw [le_congr fun x above below => same x (by omega) (by omega)]
      · simp only [view, inside, decide_false, Bool.false_and]
  · rintro ⟨ibit, dbit⟩ x above below
    by_cases first : x < L.dBitmap
    · exact byte_of_ibit ibit above first
    · exact byte_of_dbit dbit (by omega) below

theorem Created.extended (created : Created L d d₁ p n) : Extended L n d₁ d₁ :=
  ⟨created.ordered, .refl .., created.size.ge, fun _ _ set => (set (created.empty _ rfl)).elim⟩

/-- A new file that has been written to is removed: if it has no indirect block, the bitmaps are as before it was made,
and otherwise they are not, unless its size has been set beyond the largest by a write of no bytes. -/
theorem Created.restored (created : Created L d d₁ p n) (parent : (view L d).ibit p = true)
    (fresh : (view L d).ibit n = false) (low : L.size ≤ 2 ^ 31) (leads : Leads path p n d₁ ws)
    (fits : ∀ w ∈ ws, w.offset < 2 ^ 63) (env : Env) :
    (StaysDirect L path n d₁ ws → SameBitmaps L d (unlinkPath env (writeAll path d₁ ws) path).1) ∧
      ((∀ w ∈ ws, w.buf = [] → w.offset ≤ maxSize) → SameBitmaps L d (unlinkPath env (writeAll path d₁ ws) path).1 →
        StaysDirect L path n d₁ ws) := by
  have apart : p ≠ n := by
    rintro rfl
    rw [parent] at fresh
    cases fresh
  obtain ⟨file, indirect, size⟩ := created.extended.writes created.live created.reg leads fits
  have none := created.empty (.ptr n indBlock) rfl
  rw [none, or_iff_right fun set => set rfl] at indirect
  have alive := file.alive created.live created.reg
  have pointer : (view L (writeAll path d₁ ws)).target L (.ptr n indBlock) =
      ptr ((view L (writeAll path d₁ ws)).inode n) indBlock := Fs.target_ptr alive.1 (by decide)
  have released (bounded : (view L (writeAll path d₁ ws)).target L (.ptr n indBlock) ≠ 0 →
      fileSize ((view L (writeAll path d₁ ws)).inode n) ≤ maxSize) := file.ordered.unlink leads.last
    (by rw [file.step.ibit]; exact created.parent) alive.1 alive.2 apart (file.step.links.trans created.single) low
    file.covered.size (by rwa [← pointer]) env
  refine ⟨fun stays => sameBitmaps_iff.mpr ?_, fun near same => ?_⟩
  · have null : (view L (writeAll path d₁ ws)).target L (.ptr n indBlock) = 0 := by
      by_contra taken
      exact indirect.mp taken stays
    have final := released fun taken => (taken null).elim
    refine ⟨?_, (final.dbit_eq created.ordered.pointers file.step created.empty file.covered null).trans created.dbit⟩
    rw [final.ibit, file.step.ibit, created.ibit, Function.update_idem, ← fresh, Function.update_eq_self]
  · by_contra leaves
    have taken := indirect.mpr leaves
    have final := released fun _ => size near (by rw [created.size]; exact Int.natCast_nonneg _)
    obtain ⟨k, before, after⟩ := final.leak file.ordered.pointers file.step none taken
    rw [created.dbit, ← (sameBitmaps_iff.mp same).2, after] at before
    cases before

/-- The file is created, written to and removed. -/
def lifetime (env env' : Env) (d : Disk) (path : Name) (mode : ℕ) (ws : List WriteCall) : Option Disk := do
  let (d, _) ← wfsMknod env d path mode
  let d ← ws.foldlM (fun d w => (wfsWrite w.env d path w.buf w.offset).map Prod.fst) d
  (wfsUnlink env' d path).map Prod.fst

/-- The same by a path that fits. -/
def lifetimePath (env env' : Env) (d : Disk) (path : Name) (mode : ℕ) (ws : List WriteCall) : Disk :=
  (unlinkPath env' (writeAll path (create sIfreg env d path mode).1 ws) path).1

private theorem lifetime_eq (short : path.length < tmpPath) (env env' : Env) (d : Disk) (mode : ℕ) (ws : List WriteCall) :
    lifetime env env' d path mode ws = some (lifetimePath env env' d path mode ws) := by
  have writes (d : Disk) : ws.foldlM (fun d w => (wfsWrite w.env d path w.buf w.offset).map Prod.fst) d =
      some (writeAll path d ws) := by
    induction ws generalizing d with
    | nil => rfl
    | cons w ws ih =>
      rw [List.foldlM_cons, wfsWrite, map_strcpyPath short]
      exact ih _
  rw [lifetime, wfsMknod, map_strcpyPath short, Option.bind_eq_bind, Option.bind_some]
  simp only [writes, wfsUnlink, map_strcpyPath short, Option.bind_eq_bind, Option.bind_some, Option.map_some]
  rfl

/-- Without a free inode nothing happens. -/
private theorem lifetimePath_full (wf : WellFormed L d) (missing : Missing L d path p) (room : ¬ (view L d).Full L p)
    (full : lowestClear (view L d).ibit L.inodes = none) (env env' : Env) (mode : ℕ) (ws : List WriteCall) :
    lifetimePath env env' d path mode ws = d := by
  obtain ⟨_, _, _, _, result⟩ := wf.create_room missing room sIfreg env mode
  have unchanged : (create sIfreg env d path mode).1 = d := by rw [result, wf.super.fillDentry_full full]
  have nowhere : (findInodeNumberByPath d path).2 = -1 := congrArg Prod.snd missing.lookup
  have writes : writeAll path d ws = d := by
    induction ws with
    | nil => rfl
    | cons w ws ih =>
      have first : (writePath w.env d path w.buf w.offset).1 = d := by simp only [writePath, nowhere, if_true]
      rw [writeAll, List.foldl_cons, first]
      exact ih
  rw [lifetimePath, unchanged, writes]
  simp only [unlinkPath, missing.lookup, if_true]

/-- For a name that fits, if no lookup reads what creating the file or writing to it may change and no entry of the
directory has a negative number, the path leads to the file all the time. -/
theorem mknod_leads (wf : WellFormed L d) (missing : Missing L d path p) (room : ¬ (view L d).Full L p)
    (plain : Plain mode sIfreg) (lowest : lowestClear (view L d).ibit L.inodes = some n) (fits : Fits (lastToken path) n)
    (steady : Steady L d path p n) (signed : Signed L (view L d) p)
    (undisturbed : Undisturbed L (create sIfreg env d path mode).1 path n) (offsets : ∀ w ∈ ws, w.offset < 2 ^ 63) :
    Leads path p n (create sIfreg env d path mode).1 ws := by
  have short := fits.short
  have created := wf.mknod_room missing room plain lowest short env
  obtain ⟨_, _, _, _, result⟩ := wf.create_room missing room sIfreg env mode
  have done : (Wfs.create sIfreg env d path mode).2 = 0 := by
    rw [result, wf.super.fillDentry_ret, lowest]
    rfl
  obtain ⟨s, k, rfl, inserted⟩ := wf.inserted missing.toAbsent sIfreg env mode lowest fits short done
  exact created.extended.leads created.live created.reg
    (inserted.lookup wf.ordered missing short steady signed (wf.pos_of_free lowest)) undisturbed offsets

/-- In a well-formed image, for a path that fits and is looked up without success in the live directory that
its first components name, where that directory has an unused entry: the file is created, written to and
removed. Without a free inode nothing happens. If the path leads to the file all the time, the bitmaps are
at the end as they were, as long as no write takes a block for the indirect pointer; and if no write of no
bytes lies beyond the largest size, only then. -/
theorem unlink_restores_iff (wf : WellFormed L d) (missing : Missing L d path p) (clean : 0 ∉ path)
    (fits : path.length < tmpPath) (room : ¬ (view L d).Full L p) (plain : Plain mode sIfreg) (low : L.size ≤ 2 ^ 31)
    (offsets : ∀ w ∈ ws, w.offset < 2 ^ 63) (env env' : Env) :
    ∃ d₁ ret e, wfsMknod env d path mode = some (d₁, ret) ∧ lifetime env env' d path mode ws = some e ∧
      (lowestClear (view L d).ibit L.inodes = none → SameBitmaps L d e) ∧
      ∀ n, lowestClear (view L d).ibit L.inodes = some n → Leads path p n d₁ ws →
        (StaysDirect L path n d₁ ws → SameBitmaps L d e) ∧
          ((∀ w ∈ ws, w.buf = [] → w.offset ≤ maxSize) → SameBitmaps L d e → StaysDirect L path n d₁ ws) := by
  refine ⟨_, _, _, map_strcpyPath fits, lifetime_eq fits .., fun full => ?_, fun n lowest leads => ?_⟩
  · rw [lifetimePath_full wf missing room full]
    exact fun _ _ _ => rfl
  · obtain ⟨inside, fresh, _⟩ := lowestClear_eq_some lowest
    have bound := L.inodes_lt
    have small : n < 2 ^ 24 := by
      rw [Layout.inodes] at inside
      omega
    have fits := missing.toAbsent.fits_of_lookup clean (congrArg Prod.snd leads.start) (wf.pos_of_free lowest) small
    exact (wf.mknod_room missing room plain lowest fits.short env).restored missing.live fresh low leads offsets env'

/-- The root of the image has an unused entry. -/
theorem emptyFile_room : ¬ (view smallLayout (image emptyFile)).Full smallLayout 0 := by
  intro full
  exact full ⟨0, 0, 1⟩ (by decide +kernel) rfl (by decide +kernel)

/-- Three bytes across the end of the first block of `/b`: its two blocks are given back. -/
theorem unlink_restores_direct : ∃ e, lifetime ⟨5, 0, 0⟩ ⟨7, 0, 0⟩ (image emptyFile) [47, 98] 0o100644
    [⟨⟨6, 0, 0⟩, [1, 2, 3], 510⟩] = some e ∧ SameBitmaps smallLayout (image emptyFile) e := by
  have leads : Leads [47, 98] 0 2 (create sIfreg ⟨5, 0, 0⟩ (image emptyFile) [47, 98] 0o100644).1
      [⟨⟨6, 0, 0⟩, [1, 2, 3], 510⟩] := by
    decide +kernel
  have direct : StaysDirect smallLayout [47, 98] 2 (create sIfreg ⟨5, 0, 0⟩ (image emptyFile) [47, 98] 0o100644).1
      [⟨⟨6, 0, 0⟩, [1, 2, 3], 510⟩] := by
    decide +kernel
  obtain ⟨_, _, e, made, whole, _, restored⟩ := unlink_restores_iff emptyFile_wellFormed emptyFile_missing (by decide)
    (by decide) emptyFile_room (show Plain 0o100644 sIfreg by decide) (by decide)
    (show ∀ w ∈ [(⟨⟨6, 0, 0⟩, [1, 2, 3], 510⟩ : WriteCall)], w.offset < 2 ^ 63 by decide) ⟨5, 0, 0⟩ ⟨7, 0, 0⟩
  obtain ⟨_, eq⟩ := map_strcpyPath_eq_some.mp made
  rw [show (create sIfreg ⟨5, 0, 0⟩ (image emptyFile) [47, 98] 0o100644).1 = _ from congrArg Prod.fst eq] at leads direct
  exact ⟨e, whole, (restored 2 (by decide +kernel) leads).1 direct⟩

/-- One byte behind the direct blocks of `/b`: the block of the indirect pointer is still marked in use
after `/b` has been removed. -/
theorem unlink_leaks_indirect : ∃ (L : Layout) (d e : Disk) (path : Name) (p mode : ℕ) (ws : List WriteCall),
    WellFormed L d ∧ Missing L d path p ∧ 0 ∉ path ∧ path.length < tmpPath ∧ ¬ (view L d).Full L p ∧ Plain mode sIfreg ∧
    L.size ≤ 2 ^ 31 ∧ (∀ w ∈ ws, w.offset < 2 ^ 63 ∧ w.buf ≠ []) ∧
    lifetime ⟨5, 0, 0⟩ ⟨7, 0, 0⟩ d path mode ws = some e ∧ ¬ SameBitmaps L d e := by
  have before : image emptyFile 52 = 1 := by decide +kernel
  have after : lifetimePath ⟨5, 0, 0⟩ ⟨7, 0, 0⟩ (image emptyFile) [47, 98] 0o100644 [⟨⟨6, 0, 0⟩, [1], 3584⟩] 52 = 3 := by
    decide +kernel
  refine ⟨smallLayout, image emptyFile, _, [47, 98], 0, 0o100644, [⟨⟨6, 0, 0⟩, [1], 3584⟩], emptyFile_wellFormed,
    emptyFile_missing, by decide, by decide, emptyFile_room, by decide, by decide, by decide,
    lifetime_eq (by decide) .., fun same => ?_⟩
  have here := same 52 (by decide) (by decide)
  rw [before, after] at here
  cases here

end Bitmaps

end Cs537.Wfs
