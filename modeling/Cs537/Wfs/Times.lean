import Cs537.Wfs.Sparse

/-! # The times a write sets

Every block a write visits takes a free block if its pointer is null, so where a write ends depends on how many
pointers are null and how many blocks are free. The exits set the three times of the inode, but for the one inside
the indirect block.
-/

namespace Cs537.Wfs

open Lib Memory

variable {L : Layout} {d d' : Disk} {n : ℕ} {path : Name} {buf : List UInt8} {c : Cursor} {refs refs' : List Ref}
  {r : Ref}

/-- The three times of an inode are the given one. -/
structure Stamped (page : Memory) (t : ℤ) : Prop where
  atim : page.long (atimAt 0) = t
  mtim : page.long (mtimAt 0) = t
  ctim : page.long (ctimAt 0) = t

private theorem stamped_congr {page page' : Memory} (same : ∀ x, 32 ≤ x → x < 56 → page' x = page x) {t : ℤ} :
    Stamped page' t ↔ Stamped page t := by
  have long (a : ℤ) (low : 32 ≤ a) (high : a + 8 ≤ 56) : page'.long a = page.long a :=
    long_congr fun x above below => same x (by omega) (by omega)
  have atim := long (atimAt 0) (by decide) (by decide)
  have mtim := long (mtimAt 0) (by decide) (by decide)
  have ctim := long (ctimAt 0) (by decide) (by decide)
  constructor
  · rintro ⟨first, second, third⟩
    exact ⟨atim ▸ first, mtim ▸ second, ctim ▸ third⟩
  · rintro ⟨first, second, third⟩
    exact ⟨atim.trans first, mtim.trans second, ctim.trans third⟩

section Room

/-- The number of free blocks. -/
def Fs.freeBlocks (L : Layout) (fs : Fs) : ℕ := (List.range L.blocks).countP fun k => !fs.dbit k

/-- How many of the places are null. -/
def Fs.missing (L : Layout) (fs : Fs) (refs : List Ref) : ℕ := refs.countP fun r => fs.target L r = 0

theorem freeBlocks_eq_zero {fs : Fs} : fs.freeBlocks L = 0 ↔ lowestClear fs.dbit L.blocks = none := by
  rw [Fs.freeBlocks, List.countP_eq_zero, lowestClear_eq_none]
  simp

private theorem freeBlocks_point {fs : Fs} {k : ℕ} (inside : k < L.blocks) (free : fs.dbit k = false) :
    (fs.point L r k).freeBlocks L + 1 = fs.freeBlocks L := by
  have member : k ∈ List.range L.blocks := List.mem_range.mpr inside
  simp only [Fs.freeBlocks, point_dbit free]
  rw [(List.perm_cons_erase member).countP_eq, (List.perm_cons_erase member).countP_eq (fun k => !fs.dbit k)]
  rw [List.countP_cons_of_neg (by simp), List.countP_cons_of_pos (by simp [free])]
  congr 1
  refine List.countP_congr fun k' other => ?_
  have ne : k' ≠ k := ((List.nodup_range.mem_erase_iff).mp other).1
  rw [Function.update_of_ne ne]

theorem missing_append (L : Layout) (fs : Fs) (refs refs' : List Ref) :
    fs.missing L (refs ++ refs') = fs.missing L refs + fs.missing L refs' := List.countP_append

theorem missing_cons (fs : Fs) :
    fs.missing L (r :: refs) = fs.missing L refs + if fs.target L r = 0 then 1 else 0 := by
  simp [Fs.missing, List.countP_cons]

private theorem missing_congr {fs fs' : Fs} (same : ∀ r ∈ refs, fs'.target L r = fs.target L r) :
    fs'.missing L refs = fs.missing L refs :=
  List.countP_congr fun r member => by rw [same r member]

/-- The file changes, but not its times. -/
structure Untimed (L : Layout) (n : ℕ) (d d' : Disk) : Prop where
  run : FileRun L n d d'
  times : ∀ x, 32 ≤ x → x < 56 → (view L d').inode n x = (view L d).inode n x

theorem Untimed.refl (ordered : Ordered L d) (n : ℕ) : Untimed L n d d := ⟨.refl ordered n, fun _ _ _ => rfl⟩

theorem Untimed.trans {d'' : Disk} (first : Untimed L n d d') (second : Untimed L n d' d'') : Untimed L n d d'' :=
  ⟨first.run.trans second.run, fun x low high => (second.times x low high).trans (first.times x low high)⟩

private theorem Untimed.stamped (untimed : Untimed L n d d') {t : ℤ} :
    Stamped ((view L d').inode n) t ↔ Stamped ((view L d).inode n) t := stamped_congr untimed.times

/-- The null pointers among the places have got a block each. -/
structure Taken (L : Layout) (n : ℕ) (d d' : Disk) (refs : List Ref) : Prop extends Untimed L n d d' where
  room : (view L d').freeBlocks L + (view L d).missing L refs = (view L d).freeBlocks L
  others : ∀ r, r ∉ refs → (view L d').target L r = (view L d).target L r

theorem Taken.refl (ordered : Ordered L d) (n : ℕ) : Taken L n d d [] := ⟨.refl ordered n, rfl, fun _ _ => rfl⟩

theorem Taken.trans {d'' : Disk} (first : Taken L n d d' refs) (second : Taken L n d' d'' refs')
    (apart : refs.Disjoint refs') : Taken L n d d'' (refs ++ refs') where
  toUntimed := first.toUntimed.trans second.toUntimed
  room := by
    have same := missing_congr fun r member => first.others r fun mine => apart mine member
    rw [missing_append, ← same, ← first.room, ← second.room]
    omega
  others r other := by
    rw [List.mem_append, not_or] at other
    rw [second.others r other.2, first.others r other.1]

/-- The places of a later stretch are as null as before. -/
theorem Taken.missing (taken : Taken L n d d' refs) (apart : refs.Disjoint refs') :
    (view L d').missing L refs' = (view L d).missing L refs' :=
  missing_congr fun r member => taken.others r fun mine => apart mine member

private theorem setPtr_times (page : Memory) (i : ℕ) (v : ℤ) {x : ℤ} (high : x < 56) : setPtr page i v x = page x :=
  store_outside (.inl (by simp only [blocksAt]; omega))

private theorem point_times {fs : Fs} {k : ℕ} {x : ℤ} (high : x < 56) : (fs.point L r k).inode n x = fs.inode n x := by
  cases r with
  | entry => rfl
  | ptr m i =>
    by_cases same : n = m
    · subst same
      rw [point_inode_self, setPtr_times _ _ _ high]
    · rw [point_inode_of_ne same]

/-- A pointer that leads to a block, filled from the free blocks if it was null. -/
theorem Ordered.taken (ordered : Ordered L d) (holds : (view L d).Holds r) (run : FileRun L n d d') {k : ℕ}
    (inside : k < L.blocks) (target : (view L d').target L r = L.block k)
    (cases : d' = d ∨ (view L d).target L r = 0 ∧ lowestClear (view L d).dbit L.blocks = some k ∧
      view L d' = (view L d).point L r k) : Taken L n d d' [r] := by
  rcases cases with rfl | ⟨null, lowest, eq⟩
  · have filled : (view L d').target L r ≠ 0 := by
      rw [target]
      exact L.block_ne_zero k
    exact ⟨⟨run, fun _ _ _ => rfl⟩, by simp [Fs.missing, filled], fun _ _ => rfl⟩
  · obtain ⟨_, free, _⟩ := lowestClear_eq_some lowest
    refine ⟨⟨run, fun x _ high => ?_⟩, ?_, fun r' other => ?_⟩
    · rw [eq, point_times high]
    · rw [eq, ← freeBlocks_point (r := r) inside free]
      simp [Fs.missing, null]
    · rw [eq]
      exact (ordered.pointers.target_point holds null inside free).2 r' (by simpa using other)

/-- One round fails if its pointer is null and no block is free. -/
private theorem Ordered.writeBlock_taken (ordered : Ordered L d) {b : ℕ} (holds : (view L d).Holds (fileRef n b))
    (offset : c.blockOffset < blockSize) :
    Wfs.writeBlock d ((view L d).slot L (fileRef n b)) c = none ∧ (view L d).target L (fileRef n b) = 0 ∧
        (view L d).freeBlocks L = 0 ∨
      ∃ d', Wfs.writeBlock d ((view L d).slot L (fileRef n b)) c = some d' ∧ Taken L n d d' [fileRef n b] := by
  rcases ordered.writeBlock_cases holds offset with
    ⟨none, null, full⟩ | ⟨mid, k, some, run, inside, target, cases, stored⟩
  · exact .inl ⟨none, null, freeBlocks_eq_zero.mpr full⟩
  · have pointers := run.ordered.pointers
    have step := FileStep.data pointers target (fileRef_indirect n b) (((view L mid).block k).store c.blockOffset c.chunk)
    rw [fileRef_owner] at step
    have same := pointers.target_setBlock target (fileRef_indirect n b)
      (((view L mid).block k).store c.blockOffset c.chunk)
    have filled : Taken L n d mid [fileRef n b] := ordered.taken holds run inside target cases
    have copied : Taken L n mid (mid.store (L.block k + c.blockOffset) c.chunk) [] := by
      refine ⟨⟨run.ordered.run_of_view stored step (pointers.setBlock target (fileRef_indirect n b) _) rfl, ?_⟩, ?_, ?_⟩
      · intro x _ _
        rw [stored]
        rfl
      · rw [stored]
        rfl
      · intro r _
        rw [stored, same]
    exact .inr ⟨_, some, filled.trans copied (List.disjoint_nil_right _)⟩

end Room

section Loops

variable {stride bound : ℕ}

/-- The indices a loop visits from the first one on, if it has this many blocks to write. -/
def visited (stride bound : ℕ) : ℕ → ℕ → List ℕ
  | 0, _ => []
  | count + 1, first => if first < bound then first :: visited stride bound count (first + stride) else []

/-- How many blocks are left to write. -/
def Cursor.blocks (c : Cursor) : ℕ :=
  if c.rest = [] then 0 else (c.blockOffset + c.rest.length + (blockSize - 1)) / blockSize

private theorem le_of_mem_visited {count first i : ℕ} (member : i ∈ visited stride bound count first) : first ≤ i := by
  induction count generalizing first with
  | zero => cases member
  | succ count ih =>
    rw [visited] at member
    split_ifs at member
    · rcases List.mem_cons.mp member with rfl | later
      · exact le_rfl
      · have := ih later
        omega
    · cases member

private theorem lt_of_mem_visited {count first i : ℕ} (member : i ∈ visited stride bound count first) : i < bound := by
  induction count generalizing first with
  | zero => cases member
  | succ count ih =>
    rw [visited] at member
    split_ifs at member with small
    · rcases List.mem_cons.mp member with rfl | later
      · exact small
      · exact ih later
    · cases member

private theorem visited_of_le {count first : ℕ} (past : bound ≤ first) : visited stride bound count first = [] := by
  cases count with
  | zero => rfl
  | succ count => rw [visited, if_neg (by omega)]

private theorem Cursor.blocks_next (some : c.rest ≠ []) (inside : c.blockOffset < blockSize) (stride : ℕ) :
    c.blocks = (c.next stride).blocks + 1 := by
  have length := List.length_pos_iff.mpr some
  simp only [blocks, next, blockSize, if_neg some, List.drop_eq_nil_iff, List.length_drop] at *
  split_ifs <;> omega

/-- How a loop ends: every place has a block, or one has none and no block is free; then nothing has been written
if that is the first place. -/
inductive Ends (L : Layout) (n : ℕ) (d : Disk) (c : Cursor) (refs : List Ref) : Disk × Cursor × Bool → Prop
  | all {d' : Disk} {c' : Cursor} : (view L d).missing L refs ≤ (view L d).freeBlocks L → Taken L n d d' refs →
      Ends L n d c refs (d', c', false)
  | short {d' : Disk} {c' : Cursor} : (view L d).freeBlocks L < (view L d).missing L refs → Untimed L n d d' →
      (c'.written = c.written ↔ (view L d).freeBlocks L < (view L d).missing L (refs.take 1)) →
      Ends L n d c refs (d', c', true)

theorem blockLoop_ends (slot : Disk → ℕ → ℤ) (stride bound : ℕ) (place : ℕ → ℕ) (Ready : Disk → Prop)
    (forward : 0 < stride)
    (kept : ∀ {d d'}, Ready d → FileRun L n d d' → Ready d')
    (holds : ∀ {d i}, Ready d → i < bound → (view L d).Holds (fileRef n (place i)))
    (slot_eq : ∀ {d i}, Ready d → i < bound → slot d i = (view L d).slot L (fileRef n (place i)))
    (injective : Function.Injective place) (fuel : ℕ) (ordered : Ordered L d) (ready : Ready d)
    (inside : c.blockOffset < blockSize) (enough : bound ≤ c.index + fuel) :
    Ends L n d c ((visited stride bound c.blocks c.index).map fun i => fileRef n (place i))
      (blockLoop slot stride bound fuel d c) := by
  induction fuel generalizing d c with
  | zero =>
    rw [visited_of_le (by omega)]
    exact .all (Nat.zero_le _) (.refl ordered n)
  | succ fuel ih =>
    rw [blockLoop]
    by_cases more : c.rest ≠ [] ∧ c.index < bound
    · rw [if_pos more, slot_eq ready more.2, c.blocks_next more.1 inside stride, visited, if_pos more.2, List.map_cons]
      have fresh : fileRef n (place c.index) ∉
          (visited stride bound (c.next stride).blocks (c.index + stride)).map fun i => fileRef n (place i) := by
        intro member
        obtain ⟨i, later, same⟩ := List.mem_map.mp member
        have above := le_of_mem_visited later
        have equal := injective (fileRef_inj same)
        omega
      rcases ordered.writeBlock_taken (holds ready more.2) inside with ⟨none, null, full⟩ | ⟨mid, some, taken⟩
      · rw [none]
        have first : (view L d).freeBlocks L < (view L d).missing L [fileRef n (place c.index)] := by
          rw [full, missing_cons, if_pos null]
          omega
        refine .short ?_ (.refl ordered n) (iff_of_true rfl first)
        rw [full, missing_cons, if_pos null]
        omega
      · rw [some]
        dsimp only
        have apart := List.singleton_disjoint.mpr fresh
        have same := taken.missing apart
        have room := taken.room
        have together := missing_append L (view L d) [fileRef n (place c.index)]
          ((visited stride bound (c.next stride).blocks (c.index + stride)).map fun i => fileRef n (place i))
        rw [List.singleton_append] at together
        have ends := ih (c := c.next stride) taken.run.ordered (kept ready taken.run) (by simp [Cursor.next, blockSize])
          (by simp only [Cursor.next]; omega)
        have counted := (blockLoop_progress slot bound forward fuel mid (c.next stride)
          (by simp [Cursor.next, blockSize])).counted
        generalize blockLoop slot stride bound fuel mid (c.next stride) = result at ends counted ⊢
        cases ends with
        | all fits rest =>
          rw [show (c.next stride).index = c.index + stride from rfl] at fits rest
          refine .all ?_ (taken.trans rest apart)
          omega
        | short lacks rest _ =>
          rw [show (c.next stride).index = c.index + stride from rfl] at lacks
          refine .short ?_ (taken.toUntimed.trans rest) (iff_of_false ?_ ?_)
          · omega
          · have copied := c.chunk_pos more.1 inside
            dsimp only at counted
            rw [c.next_written] at counted
            omega
          · rw [List.take_succ_cons, List.take_zero]
            omega
    · rw [if_neg more]
      have nothing : visited stride bound c.blocks c.index = [] := by
        by_cases done : c.rest = []
        · rw [Cursor.blocks, if_pos done]
          rfl
        · exact visited_of_le (not_lt.mp fun small => more ⟨done, small⟩)
      rw [nothing]
      exact .all (Nat.zero_le _) (.refl ordered n)

end Loops

section Exits

private theorem stamped_times (inside : n < L.inodes) (now : ℤ) :
    Stamped ((view L (updateInodeTimes d (L.inode n) now true)).inode n) (int64 now) := by
  simp only [updateInodeTimes, if_true]
  constructor
  · rw [← long_inode inside (by decide) (by decide), show L.inode n + atimAt 0 = atimAt (L.inode n) by simp [atimAt]]
    rw [setLong, long_store_outside, setLong, long_store_outside, long_setLong]
    · left
      simp only [atimAt, ctimAt]
      omega
    · left
      simp only [atimAt, mtimAt]
      omega
  · rw [← long_inode inside (by decide) (by decide), show L.inode n + mtimAt 0 = mtimAt (L.inode n) by simp [mtimAt]]
    exact long_setLong ..
  · rw [← long_inode inside (by decide) (by decide), show L.inode n + ctimAt 0 = ctimAt (L.inode n) by simp [ctimAt]]
    rw [setLong, long_store_outside, long_setLong]
    right
    simp only [ctimAt, mtimAt, length_leBytes]
    omega

/-- Growing the size leaves the times. -/
private theorem growSize_stamped (inside : n < L.inodes) (fileEnd : ℕ) (t : ℤ) :
    Stamped ((view L (growSize d (L.inode n) fileEnd)).inode n) t ↔ Stamped ((view L d).inode n) t := by
  rw [growSize]
  split_ifs
  · have stored : view L (d.setLong (sizeAt (L.inode n)) fileEnd) =
        (view L d).setInode n (((view L d).inode n).setLong 16 fileEnd) :=
      view_store_inode inside (by decide) (by simp only [length_leBytes]; omega)
    rw [stored]
    refine stamped_congr fun x low _ => ?_
    rw [show ((view L d).setInode n (((view L d).inode n).setLong 16 fileEnd)).inode n =
      ((view L d).inode n).setLong 16 fileEnd from Function.update_self ..]
    exact store_outside (.inr (by simp only [length_leBytes]; omega))
  · rfl

/-- Without a free block for a place, behind those that come first, and after some bytes. -/
structure RunsOut (L : Layout) (fs : Fs) (first places : List Ref) (wrote : Prop) : Prop where
  reached : fs.missing L first ≤ fs.freeBlocks L
  short : fs.freeBlocks L < fs.missing L first + fs.missing L places
  some : wrote ∨ fs.missing L first + fs.missing L (places.take 1) ≤ fs.freeBlocks L

/-- The same once the first of the pointers have their blocks. -/
theorem RunsOut.behind {first middle places : List Ref} {wrote : Prop} (taken : Taken L n d d' first)
    (apart : first.Disjoint middle) (apart' : first.Disjoint places) :
    RunsOut L (view L d') middle places wrote ↔ RunsOut L (view L d) (first ++ middle) places wrote := by
  have room := taken.room
  have early := taken.missing apart
  have late := taken.missing apart'
  have next := taken.missing (List.disjoint_of_subset_right (List.take_subset 1 places) apart')
  have both := missing_append L (view L d) first middle
  constructor
  · rintro ⟨reached, short, some⟩
    exact ⟨by omega, by omega, some.imp_right fun more => by omega⟩
  · rintro ⟨reached, short, some⟩
    exact ⟨by omega, by omega, some.imp_right fun more => by omega⟩

/-- A write that returns a count sets the times of the file, but for one exit that leaves them. -/
structure Timed (L : Layout) (n : ℕ) (d : Disk) (now : ℤ) (leaves : Prop) (result : Disk × ℤ) : Prop where
  sets : ¬ leaves → 0 < result.2 → Stamped ((view L result.1).inode n) (int64 now)
  keeps : leaves → 0 < result.2 ∧ ∀ t, Stamped ((view L result.1).inode n) t ↔ Stamped ((view L d).inode n) t

/-- What happened before does not count. -/
theorem Timed.behind {now : ℤ} {leaves leaves' : Prop} {result : Disk × ℤ} (timed : Timed L n d' now leaves' result)
    (untimed : Untimed L n d d') (same : leaves' ↔ leaves) : Timed L n d now leaves result :=
  ⟨fun not => timed.sets (mt same.mp not), fun yes => ⟨(timed.keeps (same.mpr yes)).1,
    fun t => ((timed.keeps (same.mpr yes)).2 t).trans untimed.stamped⟩⟩

private theorem shortWrite_timed (inside : n < L.inodes) (env : Env) (offset written : ℕ) {leaves : Prop} (not : ¬ leaves) :
    Timed L n d env.now leaves (shortWrite env d' (L.inode n) offset written) := by
  refine ⟨fun _ positive => ?_, fun yes => (not yes).elim⟩
  rw [shortWrite] at positive ⊢
  split_ifs at positive ⊢
  · exact stamped_times inside _
  · exact absurd positive (by simp [enospc])

private theorem finishWrite_timed (inside : n < L.inodes) (env : Env) (offset : ℕ) (c : Cursor) {leaves : Prop} (not : ¬ leaves) :
    Timed L n d env.now leaves (finishWrite env d' (L.inode n) offset c) := by
  refine ⟨fun _ positive => ?_, fun yes => (not yes).elim⟩
  rw [finishWrite] at positive ⊢
  split_ifs at positive ⊢
  · exact absurd positive (by simp [enospc])
  · exact stamped_times inside _

private theorem shortWriteIndirect_timed (inside : n < L.inodes) (env : Env) (offset : ℕ) {written : ℕ} {leaves : Prop}
    (some : leaves ↔ 0 < written) (same : ∀ t, Stamped ((view L d').inode n) t ↔ Stamped ((view L d).inode n) t) :
    Timed L n d env.now leaves (shortWriteIndirect env d' (L.inode n) offset written) := by
  rw [shortWriteIndirect]
  split_ifs with positive
  · refine ⟨fun not _ => (not (some.mpr positive)).elim, fun _ => ⟨Int.natCast_pos.mpr positive, fun t => ?_⟩⟩
    rw [growSize_stamped inside, same]
  · exact ⟨fun _ absurd => by simp [enospc] at absurd, fun yes => (positive (some.mp yes)).elim⟩

end Exits

section Write

/-- The places of the entries a loop visits. -/
def entriesFrom (n : ℕ) (c : Cursor) : List Ref :=
  (visited 2 entriesPerBlock c.blocks (c.index - indBlock)).map fun e => fileRef n (indBlock + e)

/-- Behind the direct blocks. -/
private theorem Ordered.indirectPart_timed (ordered : Ordered L d) (live : (view L d).ibit n = true)
    (reg : isReg ((view L d).inode n) = true) (env : Env) (offset : ℕ) (inside : c.blockOffset < blockSize) :
    Timed L n d env.now (RunsOut L (view L d) [.ptr n indBlock] (entriesFrom n c) (0 < c.written))
      (indirectPart env d (L.inode n) offset c) := by
  have known := view_ibit_lt live
  have holds : (view L d).Holds (.ptr n indBlock) := ⟨live, by decide⟩
  rw [indirectPart]
  rcases ordered.ensure holds with ⟨none, null, full⟩ | ⟨d₁, k, some, run, fits, target, cases⟩
  · change (if d.long (blocksAt (L.inode n) indBlock) = 0 then newBlock d (blocksAt (L.inode n) indBlock)
      else Option.some d) = Option.none at none
    rw [none]
    refine shortWrite_timed known env offset _ fun runs => ?_
    have reached := runs.reached
    rw [missing_cons, if_pos null, freeBlocks_eq_zero.mpr full] at reached
    omega
  · change (if d.long (blocksAt (L.inode n) indBlock) = 0 then newBlock d (blocksAt (L.inode n) indBlock)
      else Option.some d) = Option.some d₁ at some
    change FileRun L n d d₁ at run
    rw [some]
    dsimp only
    have taken : Taken L n d d₁ [.ptr n indBlock] := ordered.taken holds run fits target cases
    have has : HasIndirect L d₁ n := by
      refine ⟨?_, ?_, by rw [target]; exact L.block_ne_zero k⟩
      · rw [run.step.ibit]
        exact live
      · rw [isReg, run.step.mode]
        exact reg
    have apart (places : List ℕ) : [Ref.ptr n indBlock].Disjoint (places.map fun e => fileRef n (indBlock + e)) := by
      rw [List.singleton_disjoint]
      intro member
      obtain ⟨e, _, same⟩ := List.mem_map.mp member
      have data := fileRef_indirect n (indBlock + e)
      rw [same] at data
      cases data
    have ends := blockLoop_ends (fun d index => d.long (blocksAt (L.inode n) indBlock) + 8 * index) 2 entriesPerBlock
      (indBlock + ·) (fun d => HasIndirect L d n) Nat.two_pos (fun has run => has.run run)
      (fun has small => has.holds small) (fun has _ => (slot_entry has.live _).symm)
      (fun _ _ same => Nat.add_left_cancel same) entriesPerBlock run.ordered has
      (c := { c with index := c.index - indBlock }) inside (Nat.le_add_left _ _)
    have counted :=
      (blockLoop_progress (fun d index => d.long (blocksAt (L.inode n) indBlock) + 8 * index) entriesPerBlock
      Nat.two_pos entriesPerBlock d₁ { c with index := c.index - indBlock } inside).counted
    rw [indirectLoop_eq]
    generalize blockLoop (fun d index => d.long (blocksAt (L.inode n) indBlock) + 8 * index) 2 entriesPerBlock
      entriesPerBlock d₁
      { c with index := c.index - indBlock } = result at ends counted ⊢
    have room := taken.room
    cases ends with
    | all fits _ =>
      refine finishWrite_timed known env offset _ fun runs => ?_
      have short := runs.short
      rw [taken.missing (apart _)] at fits
      change (view L d).missing L (entriesFrom n c) ≤ _ at fits
      omega
    | short lacks rest nothing =>
      dsimp only at nothing counted ⊢
      refine shortWriteIndirect_timed known env offset ?_ fun t => (taken.toUntimed.trans rest).stamped
      rw [taken.missing (apart _)] at lacks
      change _ < (view L d).missing L (entriesFrom n c) at lacks
      rw [← List.map_take, taken.missing (apart _), List.map_take] at nothing
      change _ ↔ _ < (view L d).missing L ((entriesFrom n c).take 1) at nothing
      constructor
      · intro runs
        have some := runs.some
        omega
      · intro positive
        exact ⟨by omega, by omega, by omega⟩

/-- The number of the first block behind a write. -/
def endBlock (offset len : ℕ) : ℕ := (offset + len + (blockSize - 1)) / blockSize

/-- The places a write visits before the entries of the indirect block. -/
def pointersVisited (n offset len : ℕ) : List Ref :=
  (visited 1 indBlock (endBlock offset len - offset / blockSize) (offset / blockSize)).map (fileRef n) ++
    [.ptr n indBlock]

/-- How the loop over the direct blocks ends. -/
theorem Ordered.directLoop_ends (ordered : Ordered L d) (live : (view L d).ibit n = true) (inside : c.blockOffset < blockSize) :
    Ends L n d c ((visited 1 indBlock c.blocks c.index).map (fileRef n)) (Wfs.directLoop (L.inode n) indBlock d c) := by
  rw [directLoop_eq]
  exact blockLoop_ends (fun _ index => blocksAt (L.inode n) index) 1 indBlock id (fun d => (view L d).ibit n = true)
    Nat.one_pos (fun live run => run.step.ibit ▸ live) (fun live small => holds_direct live small)
    (fun {d i} _ small => (slot_direct (d := d) (c := ⟨0, [], i, 0⟩) small).symm) Function.injective_id indBlock ordered live
    inside (Nat.le_add_left _ _)

/-- The entries of the indirect block that a write visits if there are blocks enough. -/
def entriesVisited (n offset len : ℕ) : List Ref :=
  (visited 2 entriesPerBlock (endBlock offset len - max (offset / blockSize) indBlock)
    (offset / blockSize - indBlock)).map
    fun e => fileRef n (indBlock + e)

/-- The blocks last for the pointers a write visits but not for the entries, and some bytes have been written
before the entry that gets none. -/
def RunsOutInside (L : Layout) (fs : Fs) (n offset len : ℕ) : Prop :=
  RunsOut L fs (pointersVisited n offset len) (entriesVisited n offset len) (offset / blockSize < indBlock)

private theorem Ordered.writeInode_timed (ordered : Ordered L d) (live : (view L d).ibit n = true)
    (reg : isReg ((view L d).inode n) = true) (env : Env) (offset : ℕ) (some : buf ≠ []) :
    Timed L n d env.now (RunsOutInside L (view L d) n offset buf.length)
    (Wfs.writeInode env d (L.inode n) buf offset) := by
  have known := view_ibit_lt live
  have inside : offset % blockSize < blockSize := Nat.mod_lt _ (by decide)
  have start : blockSize * (offset / blockSize) + offset % blockSize = offset := Nat.div_add_mod ..
  obtain ⟨d₁, c₁, full, bytes, direct, advanced, _, position, _, ended⟩ :=
    ordered.directLoop indBlock (c := ⟨0, buf, offset / blockSize, offset % blockSize⟩) live inside (by omega)
  have ends := ordered.directLoop_ends (c := ⟨0, buf, offset / blockSize, offset % blockSize⟩) live inside
  have rounds := blockLoop_cases (fun _ index => blocksAt (L.inode n) index) indBlock Nat.one_pos 6 d
    ⟨0, buf, offset / blockSize, offset % blockSize⟩ inside
  have fits := (blockLoop_progress (fun _ index => blocksAt (L.inode n) index) indBlock Nat.one_pos indBlock d
    ⟨0, buf, offset / blockSize, offset % blockSize⟩ inside).fits
  rw [show 6 + 1 = indBlock from rfl] at rounds
  rw [direct] at ends
  rw [← directLoop_eq, direct] at rounds fits
  rw [writeInode_eq, direct]
  have blocks : Cursor.blocks ⟨0, buf, offset / blockSize, offset % blockSize⟩ =
      endBlock offset buf.length - offset / blockSize := by
    rw [Cursor.blocks, if_neg some, endBlock]
    simp only [blockSize]
    omega
  have length := congrArg List.length advanced.rest
  have written := advanced.written
  have positive := List.length_pos_iff.mpr some
  rw [List.length_append] at length
  simp only [Cursor.position, start, Nat.zero_add, Nat.add_zero] at length written positive position fits
  rw [blocks] at ends
  dsimp only at ends
  cases ends with
  | short lacks _ _ =>
    refine shortWrite_timed known env offset _ fun runs => ?_
    have reached := runs.reached
    rw [pointersVisited, missing_append] at reached
    change _ < (view L d).missing L (List.map (fileRef n) _) at lacks
    omega
  | all room taken =>
    dsimp only
    split_ifs with done
    · refine finishWrite_timed known env offset _ fun runs => ?_
      have none : entriesVisited n offset buf.length = [] := by
        have last : endBlock offset buf.length - max (offset / blockSize) indBlock = 0 := by
          rw [done, List.length_nil] at length
          simp only [endBlock, blockSize, indBlock] at *
          omega
        rw [entriesVisited, last]
        rfl
      have short := runs.short
      have reached := runs.reached
      rw [none] at short
      exact absurd reached (not_le.mpr short)
    · have above := (ended rfl).resolve_left done
      have live₁ : (view L d₁).ibit n = true := by
        rw [taken.run.step.ibit]
        exact live
      have reg₁ : isReg ((view L d₁).inode n) = true := by
        rw [isReg, taken.run.step.mode]
        exact reg
      have place : c₁.index = max (offset / blockSize) indBlock := by
        have exact := position done
        have within := advanced.offset
        simp only [blockSize, indBlock] at *
        omega
      have entries : entriesFrom n c₁ = entriesVisited n offset buf.length := by
        have exact := position done
        have left : c₁.blocks = endBlock offset buf.length - max (offset / blockSize) indBlock := by
          rw [Cursor.blocks, if_neg done, ← place, endBlock]
          simp only [blockSize] at *
          omega
        have index : c₁.index - indBlock = offset / blockSize - indBlock := by omega
        rw [entriesFrom, entriesVisited, left, index]
      have wrote : 0 < c₁.written ↔ offset / blockSize < indBlock := by
        rcases rounds with ⟨stops, none⟩ | ⟨_, _, _, none⟩ | more
        · have untouched : c₁.written = 0 := congrArg (fun result => result.2.1.written) none
          exact iff_of_false (by omega) (not_lt.mpr (stops.resolve_left some))
        · cases none
        · refine iff_of_true more ?_
          simp only [blockSize, indBlock] at *
          omega
      refine (taken.run.ordered.indirectPart_timed live₁ reg₁ env offset advanced.offset).behind taken.toUntimed ?_
      rw [entries, wrote]
      refine RunsOut.behind taken ?_ ?_
      · rw [List.disjoint_singleton]
        intro member
        obtain ⟨i, _, same⟩ := List.mem_map.mp member
        have data := fileRef_indirect n i
        rw [show fileRef n i = .ptr n indBlock from same] at data
        cases data
      · intro r early late
        obtain ⟨i, member, rfl⟩ := List.mem_map.mp early
        obtain ⟨e, _, same⟩ := List.mem_map.mp late
        have small := lt_of_mem_visited member
        have equal := fileRef_inj same
        omega

private theorem Ordered.writePath_timed (ordered : Ordered L d) (env : Env) (path : Name) (buf : List UInt8) (offset : ℕ)
    (found : (findInodeNumberByPath d path).2 = n) (live : (view L d).ibit n = true)
    (reg : isReg ((view L d).inode n) = true) (some : buf ≠ []) :
    Timed L n d env.now (RunsOutInside L (view L d) n offset buf.length) (Wfs.writePath env d path buf offset) := by
  have known : (n : ℤ) ≠ -1 := by omega
  simp only [Wfs.writePath, found, if_neg known, ordered.super.inodeAt_eq (view_ibit_lt live)]
  exact ordered.writeInode_timed live reg env offset some

/-- A write to a file of a well-formed image returns, and has set the three times if it returns a count, exactly when
the path fits and the blocks do not run out inside the indirect block or the times are the given one already. -/
theorem write_stamps_iff (wf : WellFormed L d) (env : Env) (path : Name) (buf : List UInt8) (offset : ℕ)
    (found : (findInodeNumberByPath d path).2 = n) (live : (view L d).ibit n = true)
    (reg : isReg ((view L d).inode n) = true) (some : buf ≠ []) :
    (∃ r, wfsWrite env d path buf offset = .some r ∧ (0 < r.2 → Stamped ((view L r.1).inode n) (int64 env.now))) ↔
      path.length < tmpPath ∧
        (RunsOutInside L (view L d) n offset buf.length → Stamped ((view L d).inode n) (int64 env.now)) := by
  have timed := wf.ordered.writePath_timed env path buf offset found live reg some
  rw [wfsWrite, exists_map_strcpyPath, and_congr_right_iff]
  rintro -
  constructor
  · intro stamps runs
    obtain ⟨positive, same⟩ := timed.keeps runs
    exact (same _).mp (stamps positive)
  · intro already positive
    by_cases runs : RunsOutInside L (view L d) n offset buf.length
    · exact ((timed.keeps runs).2 _).mpr (already runs)
    · exact timed.sets runs positive

/-- A write of three bytes over the end of a block. -/
theorem write_stamps_iff_short : ∃ r, wfsWrite ⟨5, 0, 0⟩ (image emptyFile) [47, 97] [1, 2, 3] 510 = some r ∧
    Stamped ((view smallLayout r.1).inode 1) 5 := by
  obtain ⟨r, wrote, stamps⟩ := (write_stamps_iff (n := 1) emptyFile_wellFormed ⟨5, 0, 0⟩ [47, 97] [1, 2, 3] 510
    (by decide +kernel) (by decide +kernel) (by decide +kernel) (by decide)).mpr
      ⟨by decide, fun runs => absurd runs.short (by decide +kernel)⟩
  obtain ⟨_, rfl⟩ := map_strcpyPath_eq_some.mp wrote
  rw [show int64 5 = 5 by decide +kernel] at stamps
  exact ⟨_, wrote, stamps (by decide +kernel)⟩

/-- 31 free blocks: one for the indirect block and one for each of 30 entries, but none for the 31st. -/
theorem write_leaves_times : ∃ (L : Layout) (d : Disk) (path : Name) (n : ℕ) (buf : List UInt8) (env : Env) (offset : ℕ),
    WellFormed L d ∧ (findInodeNumberByPath d path).2 = n ∧ (view L d).ibit n = true ∧ isReg ((view L d).inode n) = true ∧
    buf ≠ [] ∧ ∃ r, wfsWrite env d path buf offset = some r ∧ 0 < r.2 ∧
      ¬ Stamped ((view L r.1).inode n) (int64 env.now) := by
  have length : (List.replicate 15872 (1 : UInt8)).length = 15872 := List.length_replicate
  have some : List.replicate 15872 (1 : UInt8) ≠ [] := List.ne_nil_of_length_pos (by rw [length]; decide)
  have runs : RunsOutInside smallLayout (view smallLayout (image emptyFile)) 1 3584 15872 :=
    ⟨by decide +kernel, by decide +kernel, by decide +kernel⟩
  have timed := emptyFile_wellFormed.ordered.writePath_timed (n := 1) ⟨5, 0, 0⟩ [47, 97] (List.replicate 15872 1) 3584
    (by decide +kernel) (by decide +kernel) (by decide +kernel) some
  rw [length] at timed
  obtain ⟨positive, same⟩ := timed.keeps runs
  refine ⟨smallLayout, image emptyFile, [47, 97], 1, List.replicate 15872 1, ⟨5, 0, 0⟩, 3584, emptyFile_wellFormed,
    by decide +kernel, by decide +kernel, by decide +kernel, some, _, map_strcpyPath (by decide), positive, ?_⟩
  rw [same]
  rintro ⟨atim, _, _⟩
  exact absurd atim (by decide +kernel)

end Write

end Cs537.Wfs
