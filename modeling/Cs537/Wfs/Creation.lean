import Cs537.Wfs.Create
import Cs537.Wfs.RoundTrip

/-! # When a file can be created, and what creating it changes

`wfs_mknod` and `wfs_mkdir` fail without a free inode, and when the directory has no unused entry and
cannot get a block. Otherwise one entry of the directory names the new inode, and what belongs to other
files stays as it is.
-/

namespace Cs537.Wfs

open Lib Memory

variable {L : Layout} {d d' d₁ : Disk} {fs : Fs} {name path : Name} {env : Env} {n p k i j mode type : ℕ} {s : Slot}

theorem Super.fillDentry_ret (super : Super L d) (env : Env) (mode : ℕ) (name : Name) (parent dentry : ℤ) :
    (Wfs.fillDentry env mode name parent dentry d).2 =
      if lowestClear (view L d).ibit L.inodes = none then -enospc else 0 := by
  have allocated := super.allocate_inode
  cases lowest : lowestClear (view L d).ibit L.inodes with
  | none => rw [super.fillDentry_full lowest, if_pos rfl]
  | some n =>
    rw [lowest] at allocated
    simp only [Wfs.fillDentry, allocated, reduceCtorEq, if_false]

theorem Grown.ibit (grown : Grown L d d₁ s k) : (view L d₁).ibit = (view L d).ibit := by
  rw [grown.view_eq]
  rfl

/-- Every entry of the blocks of a directory is in use. -/
def Fs.Full (L : Layout) (fs : Fs) (p : ℕ) : Prop := ∀ s, fs.IsDentry s → s.n = p → fs.num L s ≠ 0

theorem Filled.full (filled : Filled L fs p i) (rest : ∀ j, i ≤ j → j < indBlock → ptr (fs.inode p) j = 0) :
    fs.Full L p := by
  intro s dentry here
  by_cases early : s.i < i
  · exact filled.used s dentry here early
  · have null := rest s.i (by omega) dentry.2.2.1
    rw [← here] at null
    exact (dentry.2.2.2.2 null).elim

/-- The blocks of a directory are in front, so behind a null pointer there are none. -/
theorem WellFormed.null_after (wf : WellFormed L d) (live : (view L d).ibit p = true)
    (dir : isDir ((view L d).inode p) = true) (null : ptr ((view L d).inode p) i = 0) (after : i ≤ j)
    (small : j < indBlock) : ptr ((view L d).inode p) j = 0 := by
  by_contra set
  by_cases same : i = j
  · rw [same] at null
    exact set null
  · exact wf.front p live dir i j (by omega) small set null

/-- The blocks of a directory up to the last, or up to a null pointer, are all of them. -/
theorem WellFormed.full_of_filled (wf : WellFormed L d) (missing : Missing L d path p) (filled : Filled L (view L d) p i)
    (last : i = indBlock ∨ ptr ((view L d).inode p) i = 0) : (view L d).Full L p := by
  refine filled.full fun j above below => ?_
  rcases last with rfl | null
  · omega
  · exact wf.null_after missing.live missing.dir null above below

/-- In a well-formed image, for a path that is looked up without success in the live directory that its first
components name: the call returns -ENOSPC if no inode is free, or if every entry of the directory is in use
and it has all its blocks or no block is free; in all other cases it returns 0. -/
theorem create_enospc_iff (wf : WellFormed L d) (missing : Missing L d path p) (short : path.length < tmpPath)
    (env : Env) (mode : ℕ) :
    ∀ op ∈ [wfsMknod, wfsMkdir], ∃ r, op env d path mode = some r ∧
      (r.2 = -enospc ↔ (∀ n < L.inodes, (view L d).ibit n = true) ∨
        (view L d).Full L p ∧
          ((∀ i < indBlock, ptr ((view L d).inode p) i ≠ 0) ∨ ∀ k < L.blocks, (view L d).dbit k = true)) ∧
      (r.2 ≠ -enospc → r.2 = 0) := by
  have general (type : ℕ) : ((create type env d path mode).2 = -enospc ↔ (∀ n < L.inodes, (view L d).ibit n = true) ∨
        (view L d).Full L p ∧
          ((∀ i < indBlock, ptr ((view L d).inode p) i ≠ 0) ∨ ∀ k < L.blocks, (view L d).dbit k = true)) ∧
      ((create type env d path mode).2 ≠ -enospc → (create type env d path mode).2 = 0) := by
    rcases wf.ordered.create missing.toAbsent type env mode with ⟨result, l, bound, filled, reason⟩
      | ⟨d₁, s, k, slot, here, ordered, grown, result⟩
    · rw [result]
      have full := wf.full_of_filled missing filled (reason.imp_right And.left)
      refine ⟨iff_of_true rfl (.inr ⟨full, ?_⟩), fun other => (other rfl).elim⟩
      rcases reason with rfl | ⟨null, nothing⟩
      · exact .inl filled.set
      · exact .inr (lowestClear_eq_none.mp nothing)
    · have ret := ordered.super.fillDentry_ret env (mode ||| type) (lastToken path) (L.inode p) (dentryAt (L.block k) s.j)
      have ibit : (view L d₁).ibit = (view L d).ibit := by
        rcases grown with rfl | grown
        · rfl
        · exact grown.ibit
      have room : ¬ ((view L d).Full L p ∧
          ((∀ i < indBlock, ptr ((view L d).inode p) i ≠ 0) ∨ ∀ k < L.blocks, (view L d).dbit k = true)) := by
        rintro ⟨full, noBlock⟩
        rcases grown with rfl | grown
        · exact full s slot.dentry here slot.empty
        · rcases noBlock with all | none
          · have null := grown.null
            rw [here] at null
            exact all s.i slot.dentry.2.2.1 null
          · have lowest := grown.lowest
            rw [lowestClear_eq_none.mpr none] at lowest
            cases lowest
      rw [result, ret, ibit]
      by_cases none : lowestClear (view L d).ibit L.inodes = none
      · rw [if_pos none]
        exact ⟨iff_of_true rfl (.inl (lowestClear_eq_none.mp none)), fun other => (other rfl).elim⟩
      · rw [if_neg none]
        refine ⟨iff_of_false (by decide) ?_, fun _ => rfl⟩
        rintro (all | noRoom)
        · exact none (lowestClear_eq_none.mpr all)
        · exact room noRoom
  intro op member
  simp only [List.mem_cons, List.not_mem_nil, or_false] at member
  rcases member with rfl | rfl
  · exact ⟨_, map_strcpyPath short, general sIfreg⟩
  · exact ⟨_, map_strcpyPath short, general sIfdir⟩

theorem emptyFile_missing : Missing smallLayout (image emptyFile) [47, 98] 0 :=
  ⟨⟨by decide +kernel, by decide +kernel, by decide +kernel⟩, by decide +kernel⟩

/-- The image with the one file `/a` has room for `/b`. -/
theorem create_enospc_iff_room : ∃ d', wfsMknod ⟨5, 0, 0⟩ (image emptyFile) [47, 98] 0o644 = some (d', 0) := by
  obtain ⟨⟨d', ret⟩, made, full, zero⟩ :=
    create_enospc_iff emptyFile_wellFormed emptyFile_missing (by decide) ⟨5, 0, 0⟩ 0o644 wfsMknod (by simp)
  obtain ⟨_, eq⟩ := map_strcpyPath_eq_some.mp made
  have room : ret ≠ -enospc := by
    rw [show ret = _ from (congrArg Prod.snd eq).symm]
    decide +kernel
  rw [show ret = 0 from zero room] at made
  exact ⟨d', made⟩

/-- A file is created: an entry that was unused, or was not there, names the lowest free inode; that inode is
empty; entries, inodes and file contents besides stay as they are. -/
structure Entered (L : Layout) (fs fs' : Fs) (s : Slot) (n : ℕ) (name : Name) (mode : ℕ) : Prop where
  lowest : lowestClear fs.ibit L.inodes = some n
  ibit : fs'.ibit = Function.update fs.ibit n true
  unused : fs.IsDentry s → fs.num L s = 0
  dentry : fs'.IsDentry s
  num : fs'.num L s = n
  name : fs'.name L s = name
  dentries : ∀ s', s' ≠ s → fs.IsDentry s' →
    fs'.IsDentry s' ∧ (fs'.page L s').load (dentryAt 0 s'.j) 32 = (fs.page L s').load (dentryAt 0 s'.j) 32
  more : ∀ s', s' ≠ s → fs'.IsDentry s' → fs.IsDentry s' ∨ s'.n = s.n ∧ fs'.num L s' = 0
  inodes : ∀ m, m ≠ n → m ≠ s.n → fs'.inode m = fs.inode m
  links : links (fs.inode s.n) < 2 ^ 31 - 1 → links (fs'.inode s.n) = links (fs.inode s.n) + 1
  parent : ∀ x : ℤ, (x < 24 ∨ 28 ≤ x ∧ x < 56 ∨ 120 ≤ x) → fs'.inode s.n x = fs.inode s.n x
  blocks : ∀ i < 8, ptr (fs.inode s.n) i ≠ 0 → ptr (fs'.inode s.n) i = ptr (fs.inode s.n) i
  empty : fileMode (fs'.inode n) = mode % 2 ^ 32 ∧ Wfs.links (fs'.inode n) = 1 ∧ fileSize (fs'.inode n) = 0 ∧
    ∀ i < 8, ptr (fs'.inode n) i = 0
  files : ∀ m, fs.ibit m = true → isDir (fs.inode m) = false →
    (∀ b, fs'.target L (fileRef m b) = fs.target L (fileRef m b)) ∧
    ∀ x, fs.Allocated L m x → fs'.fileByte L m x = fs.fileByte L m x

theorem FreeSlot.entered (slot : FreeSlot L fs s k) (inv : Pointers L fs) (lowest : lowestClear fs.ibit L.inodes = some n)
    (short : name.length ≤ 27) (clean : 0 ∉ name) (env : Env) (mode : ℕ) :
    Entered L fs (fs.create s.n k s.j name n (inodeBytes env n mode)) s n name mode := by
  obtain ⟨fits, fresh, _⟩ := lowestClear_eq_some lowest
  have apart := slot.apart fresh
  have page := slot.page_self fresh name env mode
  have targets := slot.target_create fresh name env mode inv
  refine ⟨lowest, create_ibit fresh, fun _ => slot.empty,
    (slot.isDentry_create fresh name env mode s).mpr slot.dentry, ?_, ?_,
    ?_, fun s' _ dentry => .inl ((slot.isDentry_create fresh name env mode s').mp dentry),
    fun m new parent => create_inode_of_ne new parent, ?_, ?_, ?_, ?_, ?_⟩
  · exact slot.num_create fresh name env mode fits
  · rw [Fs.name, page, dentryName_putDentry short clean]
  · intro s' ne dentry
    refine ⟨(slot.isDentry_create fresh name env mode s').mpr dentry, ?_⟩
    rcases slot.page_create fresh name env mode inv dentry with ⟨dir, index, old, new⟩ | same
    · have other : s'.j ≠ s.j := by
        intro eq
        cases s
        cases s'
        exact ne (by simp_all)
      rw [new, old, putDentry_of_ne (by omega) other]
    · rw [same]
  · intro small
    have low : -2 ^ 31 ≤ links (fs.inode s.n) := int32_ge _
    rw [create_inode_parent apart, links_bump, int32_eq (by omega) (by omega)]
  · intro x outside
    rw [create_inode_parent apart, bump, setInt, store_outside (by simp only [nlinksAt, length_leBytes]; omega)]
  · intro i small _
    rw [create_inode_parent apart, bump_same.ptr i small]
  · rw [create_inode_new apart]
    exact ⟨fileMode_newInode _, links_newInode _, fileSize_newInode _, fun i small => ptr_newInode _ small⟩
  · intro m live file
    refine ⟨fun b => targets _, fun x allocated => ?_⟩
    obtain ⟨k', _, target⟩ := inv.valid _ allocated
    have other : k' ≠ k := by
      rintro rfl
      have refs := inv.unshared _ _ allocated (target.trans slot.target.symm)
      have owner := fileRef_owner m (x / blockSize)
      rw [refs] at owner
      have dir := slot.dentry.2.1
      rw [show s.n = m from owner, file] at dir
      cases dir
    rw [Fs.fileByte, Fs.fileByte, targets, target, L.blockNo_block, create_block_of_ne other]

/-- A block that the directory got before does not matter. -/
theorem Entered.of_grown {fs' : Fs} (entered : Entered L (view L d₁) fs' s n name mode) (grown : Grown L d d₁ s k)
    (inv : Pointers L (view L d)) (live : (view L d).ibit s.n = true) (dir : isDir ((view L d).inode s.n) = true)
    (small : s.i < indBlock) : Entered L (view L d) fs' s n name mode := by
  obtain ⟨inside, free, _⟩ := lowestClear_eq_some grown.lowest
  have null := grown.null
  have below : s.i < 8 := by
    simp only [indBlock] at small
    omega
  have holds : (view L d).Holds (.ptr s.n s.i) := ⟨live, below⟩
  obtain ⟨_, others⟩ := inv.target_point holds ((Fs.target_of_holds holds).trans null) inside free
  have inode (m : ℕ) (ne : m ≠ s.n) : (view L d₁).inode m = (view L d).inode m := by
    rw [grown.view_eq]
    exact point_inode_of_ne ne
  have mine : (view L d₁).inode s.n = setPtr ((view L d).inode s.n) s.i (L.block k) := by
    rw [grown.view_eq]
    exact point_inode_self
  have old {s' : Slot} (dentry : (view L d).IsDentry s') :
      (view L d₁).IsDentry s' ∧ (view L d₁).page L s' = (view L d).page L s' := by
    rw [grown.view_eq]
    exact dentry.point null
  have links : Wfs.links ((view L d₁).inode s.n) = Wfs.links ((view L d).inode s.n) := by
    rw [mine, FileStep.point_links]
  refine ⟨?_, ?_, ?_, entered.dentry, entered.num, entered.name, ?_, ?_, ?_, ?_, ?_, ?_, entered.empty, ?_⟩
  · rw [← grown.ibit]
    exact entered.lowest
  · rw [← grown.ibit]
    exact entered.ibit
  · intro dentry
    exact (dentry.2.2.2.2 null).elim
  · intro s' ne dentry
    obtain ⟨dentry₁, page⟩ := old dentry
    obtain ⟨dentry', bytes⟩ := entered.dentries s' ne dentry₁
    exact ⟨dentry', by rw [bytes, page]⟩
  · intro s' ne dentry'
    rcases entered.more s' ne dentry' with dentry₁ | new
    · rw [grown.view_eq] at dentry₁
      rcases isDentry_of_point inside dentry₁ with before | ⟨here, _, page⟩
      · exact .inl before
      · refine .inr ⟨here, ?_⟩
        rw [← grown.view_eq] at dentry₁ page
        rw [Fs.num, (dentry_of_load (entered.dentries s' ne dentry₁).2).1, page, inv.zero k inside free, dentryNum_zero]
    · exact .inr new
  · intro m new parent
    rw [entered.inodes m new parent, inode m parent]
  · intro bound
    rw [← links] at bound ⊢
    exact entered.links bound
  · intro x outside
    rw [entered.parent x outside, mine, setPtr, setLong, store_outside (by simp only [blocksAt, length_leBytes]; omega)]
  · intro i fits set
    have apart : i ≠ s.i := by
      rintro rfl
      exact set null
    have same : ptr ((view L d₁).inode s.n) i = ptr ((view L d).inode s.n) i := by
      rw [mine, ptr_setPtr_of_ne apart]
    rw [← same] at set ⊢
    exact entered.blocks i fits set
  · intro m alive file
    have ne : m ≠ s.n := by
      rintro rfl
      rw [dir] at file
      cases file
    have same (b : ℕ) : (view L d₁).target L (fileRef m b) = (view L d).target L (fileRef m b) := by
      rw [grown.view_eq]
      apply others
      intro eq
      have owner := fileRef_owner m b
      rw [eq] at owner
      exact ne owner.symm
    have block : (view L d₁).block = (view L d).block := by
      rw [grown.view_eq]
      rfl
    obtain ⟨targets, bytes⟩ := entered.files m (by rw [grown.ibit]; exact alive) (by rw [inode m ne]; exact file)
    refine ⟨fun b => (targets b).trans (same b), fun x allocated => ?_⟩
    rw [bytes x (by rw [Fs.Allocated, same]; exact allocated), Fs.fileByte, Fs.fileByte, same, block]

/-- A call that returns 0 has created a file. -/
theorem WellFormed.create (wf : WellFormed L d) (missing : Missing L d path p) (clean : 0 ∉ path)
    (short : (lastToken path).length ≤ 27) (type : ℕ) (env : Env) (mode : ℕ)
    (done : (create type env d path mode).2 = 0) :
    ∃ s n, s.n = p ∧
      Entered L (view L d) (view L (Wfs.create type env d path mode).1) s n (lastToken path) (mode ||| type) := by
  rcases wf.ordered.create missing.toAbsent type env mode with ⟨result, _⟩ | ⟨d₁, s, k, slot, rfl, ordered, grown, result⟩
  · rw [result] at done
    cases done
  · have inside := view_ibit_lt missing.live
    have last := (tokens_clean missing.lastToken_mem clean).2
    rw [result] at done ⊢
    rcases ordered.super.fillDentry env (mode ||| type) inside slot.inside slot.dentry.2.2.2.1
      (show (lastToken path).length < 32 by omega) with ⟨_, failed⟩ | ⟨n, lowest, _, view_eq⟩
    · rw [failed] at done
      cases done
    · have entered := slot.entered ordered.pointers lowest short last env (mode ||| type)
      rw [← view_eq] at entered
      refine ⟨s, n, rfl, ?_⟩
      rcases grown with rfl | grown
      · exact entered
      · exact entered.of_grown grown wf.ordered.pointers missing.live missing.dir slot.dentry.2.2.1

/-- The mode asks for no file type but the given one. -/
def Plain (mode type : ℕ) : Prop := mode &&& sIfmt = 0 ∨ mode &&& sIfmt = type

instance (mode type : ℕ) : Decidable (Plain mode type) := inferInstanceAs (Decidable (_ ∨ _))

theorem Plain.type_eq (plain : Plain mode type) (kind : type &&& sIfmt = type) :
    (mode ||| type) % 2 ^ 32 &&& sIfmt = type := by
  have mask : (2 ^ 32 - 1) &&& sIfmt = sIfmt := by decide
  rw [← Nat.and_two_pow_sub_one_eq_mod, Nat.and_assoc, mask, Nat.and_or_distrib_right, kind]
  rcases plain with zero | same
  · rw [zero, Nat.zero_or]
  · rw [same, Nat.or_self]

/-- In a well-formed image, for a path that is looked up without success in the live directory that its first
components name and whose last component fits into an entry: if the call returns 0, one unused entry of that
directory names the lowest free inode, which is empty and, unless the mode asks for another type, a regular
file or a directory; everything else is as before. -/
theorem create_enters (wf : WellFormed L d) (missing : Missing L d path p) (clean : 0 ∉ path)
    (fits : path.length < tmpPath) (short : (lastToken path).length ≤ 27) (env : Env) (mode : ℕ) :
    (∃ r, wfsMknod env d path mode = some r ∧ (r.2 = 0 → ∃ s n, s.n = p ∧
      Entered L (view L d) (view L r.1) s n (lastToken path) (mode ||| sIfreg) ∧
      (Plain mode sIfreg → isReg ((view L r.1).inode n) = true))) ∧
    (∃ r, wfsMkdir env d path mode = some r ∧ (r.2 = 0 → ∃ s n, s.n = p ∧
      Entered L (view L d) (view L r.1) s n (lastToken path) (mode ||| sIfdir) ∧
      (Plain mode sIfdir → isDir ((view L r.1).inode n) = true))) := by
  refine ⟨⟨_, map_strcpyPath fits, fun done => ?_⟩, ⟨_, map_strcpyPath fits, fun done => ?_⟩⟩
  · obtain ⟨s, n, here, entered⟩ := wf.create missing clean short sIfreg env mode done
    refine ⟨s, n, here, entered, fun plain => ?_⟩
    rw [isReg, beq_iff_eq]
    refine (congrArg (· &&& sIfmt) entered.empty.1).trans ?_
    exact plain.type_eq (by decide)
  · obtain ⟨s, n, here, entered⟩ := wf.create missing clean short sIfdir env mode done
    refine ⟨s, n, here, entered, fun plain => ?_⟩
    rw [isDir, beq_iff_eq]
    refine (congrArg (· &&& sIfmt) entered.empty.1).trans ?_
    exact plain.type_eq (by decide)

theorem create_enters_second : ∃ r s n, wfsMknod ⟨5, 0, 0⟩ (image emptyFile) [47, 98] 0o644 = some r ∧ s.n = 0 ∧
    Entered smallLayout (view smallLayout (image emptyFile)) (view smallLayout r.1) s n [98] (0o644 ||| sIfreg) ∧
    (Plain 0o644 sIfreg → isReg ((view smallLayout r.1).inode n) = true) := by
  obtain ⟨r, made, entered⟩ :=
    (create_enters emptyFile_wellFormed emptyFile_missing (by decide) (by decide) (by decide) ⟨5, 0, 0⟩ 0o644).1
  obtain ⟨_, eq⟩ := map_strcpyPath_eq_some.mp made
  subst eq
  obtain ⟨s, n, here, all⟩ := entered (by decide +kernel)
  exact ⟨_, s, n, made, here, all⟩

/-- The image with a root that has as many links as an `int` can count. -/
def manyLinks : List (ℤ × List UInt8) := emptyFile ++ [(80, leBytes 4 (2 ^ 31 - 1))]

/-- A call of `mknod` for a pipe makes something that is no regular file, and one in a directory whose links an
`int` cannot count any further does not count one more. -/
theorem create_pipe :
    (∃ (L : Layout) (d d' : Disk) (path : Name) (p mode n : ℕ), WellFormed L d ∧ Missing L d path p ∧
      0 ∉ path ∧ path.length < tmpPath ∧ (lastToken path).length ≤ 27 ∧
      wfsMknod ⟨5, 0, 0⟩ d path mode = some (d', 0) ∧ lowestClear (view L d).ibit L.inodes = some n ∧
      isReg ((view L d').inode n) = false) ∧
    ∃ (L : Layout) (d d' : Disk) (path : Name) (p mode : ℕ), WellFormed L d ∧ Missing L d path p ∧
      0 ∉ path ∧ path.length < tmpPath ∧ (lastToken path).length ≤ 27 ∧
      wfsMknod ⟨5, 0, 0⟩ d path mode = some (d', 0) ∧
      links ((view L d').inode p) ≠ links ((view L d).inode p) + 1 := by
  refine ⟨⟨smallLayout, image emptyFile, _, [47, 98], 0, 0o010644, 2, emptyFile_wellFormed, emptyFile_missing, by decide,
      by decide, by decide, map_strcpyPath_eq_some.mpr ⟨by decide, Prod.ext rfl ?_⟩, by decide +kernel, ?_⟩,
    ⟨smallLayout, image manyLinks, _, [47, 98], 0, 0o644,
      wellFormed_image (by decide +kernel) (by decide +kernel) (by decide +kernel), ?_, by decide,
      by decide, by decide, map_strcpyPath_eq_some.mpr ⟨by decide, Prod.ext rfl ?_⟩, ?_⟩⟩
  · decide +kernel
  · decide +kernel
  · exact ⟨⟨by decide +kernel, by decide +kernel, by decide +kernel⟩, by decide +kernel⟩
  · decide +kernel
  · decide +kernel

end Cs537.Wfs
