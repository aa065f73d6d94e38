import Cs537.Wfs.Pointers

/-! # Steps that change one file

Writing to a file fills null pointers of the file with free blocks and changes bytes of its blocks. A
`FileStep` says what such steps leave alone, `Wrote` what they do to the bytes of the file. Both compose,
so a loop over blocks is described by what one round does.
-/

namespace Cs537.Wfs

open Lib Memory

/-- The inode a pointer belongs to. -/
def Ref.owner : Ref → ℕ
  | .ptr n _ => n
  | .entry n _ => n

/-- The pointer to block `b` of a file. -/
def fileRef (n b : ℕ) : Ref := if b < indBlock then .ptr n b else .entry n (b - indBlock)

/-- Only inode `n`, its blocks and free blocks change; no pointer is lost, and new pointers go to blocks
that were free. -/
structure FileStep (L : Layout) (n : ℕ) (fs fs' : Fs) : Prop where
  head : fs'.head = fs.head
  tail : fs'.tail = fs.tail
  ibit : fs'.ibit = fs.ibit
  inode : ∀ m, m ≠ n → fs'.inode m = fs.inode m
  mode : fileMode (fs'.inode n) = fileMode (fs.inode n)
  links : links (fs'.inode n) = links (fs.inode n)
  others : ∀ r, r.owner ≠ n → fs'.target L r = fs.target L r
  grows : ∀ r, fs.target L r ≠ 0 → fs'.target L r = fs.target L r
  fresh : ∀ r k, fs.target L r = 0 → fs'.target L r = L.block k → fs.dbit k = false
  dbit : ∀ k, fs.dbit k = true → fs'.dbit k = true
  owned : ∀ k, fs'.dbit k = true → fs.dbit k = true ∨ ∃ r, fs'.target L r = L.block k
  block : ∀ k, fs.dbit k = true → (∀ r, r.owner = n → fs.target L r ≠ L.block k) → fs'.block k = fs.block k

variable {L : Layout} {fs fs' fs'' : Fs} {r : Ref} {n k i e : ℕ}

namespace FileStep

theorem refl (L : Layout) (n : ℕ) (fs : Fs) : FileStep L n fs fs where
  head := rfl
  tail := rfl
  ibit := rfl
  inode _ _ := rfl
  mode := rfl
  links := rfl
  others _ _ := rfl
  grows _ _ := rfl
  fresh _ k null same := (L.block_ne_zero k (same.symm.trans null)).elim
  dbit _ used := used
  owned _ used := .inl used
  block _ _ _ := rfl

theorem trans (first : FileStep L n fs fs') (second : FileStep L n fs' fs'') : FileStep L n fs fs'' where
  head := second.head.trans first.head
  tail := second.tail.trans first.tail
  ibit := second.ibit.trans first.ibit
  inode m ne := (second.inode m ne).trans (first.inode m ne)
  mode := second.mode.trans first.mode
  links := second.links.trans first.links
  others r ne := (second.others r ne).trans (first.others r ne)
  grows r set := by
    have kept := first.grows r set
    rw [second.grows r (by rwa [kept]), kept]
  fresh r k null filled := by
    by_cases still : fs'.target L r = 0
    · have free := second.fresh r k still filled
      by_contra used
      rw [Bool.not_eq_false] at used
      rw [first.dbit k used] at free
      cases free
    · rw [second.grows r still] at filled
      exact first.fresh r k null filled
  dbit k used := second.dbit k (first.dbit k used)
  owned k used := by
    rcases second.owned k used with before | mine
    · rcases first.owned k before with before | ⟨r, mine⟩
      · exact .inl before
      · refine .inr ⟨r, ?_⟩
        rw [second.grows r (by rw [mine]; exact L.block_ne_zero k), mine]
    · exact .inr mine
  block k used apart := by
    rw [second.block k (first.dbit k used), first.block k used apart]
    intro r owner same
    by_cases null : fs.target L r = 0
    · rw [first.fresh r k null same] at used
      cases used
    · rw [first.grows r null] at same
      exact apart r owner same

/-- Exactness of the bitmap survives. -/
theorem exact (step : FileStep L n fs fs') (exact : ∀ k, fs.dbit k = true → ∃ r, fs.target L r = L.block k) :
    ∀ k, fs'.dbit k = true → ∃ r, fs'.target L r = L.block k := by
  intro k used
  rcases step.owned k used with before | mine
  · obtain ⟨r, mine⟩ := exact k before
    exact ⟨r, by rw [step.grows r (by rw [mine]; exact L.block_ne_zero k), mine]⟩
  · exact mine

theorem point_links (page : Memory) (v : ℤ) : Wfs.links (setPtr page i v) = Wfs.links page :=
  links_store (by simp only [blocksAt]; omega)

theorem point_mode (page : Memory) (v : ℤ) : fileMode (setPtr page i v) = fileMode page :=
  fileMode_store (by simp only [blocksAt]; omega)

/-- A null pointer is filled. -/
theorem point (inv : Pointers L fs) (holds : fs.Holds r) (null : fs.target L r = 0) (inside : k < L.blocks)
    (free : fs.dbit k = false) : FileStep L r.owner fs (fs.point L r k) := by
  obtain ⟨filled, others⟩ := inv.target_point holds null inside free
  have inode (m : ℕ) (ne : m ≠ r.owner) : (fs.point L r k).inode m = fs.inode m := by
    cases r with
    | ptr n i => exact point_inode_of_ne ne
    | entry n e => rfl
  have dbit := point_dbit (L := L) (r := r) free
  exact
  { head := by cases r <;> rfl
    tail := by cases r <;> rfl
    ibit := point_ibit
    inode := inode
    mode := by
      cases r with
      | ptr n i => rw [Ref.owner, point_inode_self, point_mode]
      | entry n e => rfl
    links := by
      cases r with
      | ptr n i => rw [Ref.owner, point_inode_self, point_links]
      | entry n e => rfl
    others := by
      intro r' ne
      apply others
      rintro rfl
      exact ne rfl
    grows := by
      intro r' set
      apply others
      rintro rfl
      exact set null
    fresh := by
      intro r' k' null' same
      by_cases eq : r' = r
      · rw [eq, filled] at same
        rw [← L.block_inj same]
        exact free
      · rw [others r' eq, null'] at same
        exact (L.block_ne_zero k' same.symm).elim
    dbit := by
      intro k' used
      rw [dbit]
      by_cases eq : k' = k
      · rw [eq, Function.update_self]
      · rw [Function.update_of_ne eq]
        exact used
    owned := by
      intro k' used
      rw [dbit] at used
      by_cases eq : k' = k
      · exact .inr ⟨r, by rw [eq]; exact filled⟩
      · rw [Function.update_of_ne eq] at used
        exact .inl used
    block := by
      intro k' used apart
      cases r with
      | ptr n i => rfl
      | entry n e =>
        apply Function.update_of_ne
        rintro rfl
        exact apart (.ptr n indBlock) rfl (inv.indirect_eq holds).2 }

/-- Sizes and links of an inode are changed, its pointers are not. -/
theorem setInode {page : Memory} (same : SamePointers (fs.inode n) page)
    (links : Wfs.links page = Wfs.links (fs.inode n)) :
    FileStep L n fs (fs.setInode n page) := by
  have targets (r : Ref) : (fs.setInode n page).target L r = fs.target L r := target_setInode same r
  have mine : (fs.setInode n page).inode n = page := Function.update_self ..
  exact
  { head := rfl
    tail := rfl
    ibit := rfl
    inode := fun m ne => Function.update_of_ne ne ..
    mode := by rw [mine, same.mode]
    links := by rw [mine, links]
    others := fun r' _ => targets r'
    grows := fun r' _ => targets r'
    fresh := by
      intro r' k' null filled
      rw [targets, null] at filled
      exact (L.block_ne_zero k' filled.symm).elim
    dbit := fun _ used => used
    owned := fun _ used => .inl used
    block := fun _ _ _ => rfl }

/-- A block of data is written. -/
theorem data (inv : Pointers L fs) (mine : fs.target L r = L.block k) (data : r.indirect = false) (page : Memory) :
    FileStep L r.owner fs (fs.setBlock k page) := by
  have targets := inv.target_setBlock mine data page
  exact
  { head := rfl
    tail := rfl
    ibit := rfl
    inode := fun _ _ => rfl
    mode := rfl
    links := rfl
    others := fun r' _ => targets r'
    grows := fun r' _ => targets r'
    fresh := by
      intro r' k' null same
      rw [targets, null] at same
      exact (L.block_ne_zero k' same.symm).elim
    dbit := fun _ used => used
    owned := fun _ used => .inl used
    block := by
      intro k' _ apart
      apply Function.update_of_ne
      rintro rfl
      exact apart r rfl mine }

end FileStep

theorem fileSize_point (m : ℕ) : fileSize ((fs.point L r k).inode m) = fileSize (fs.inode m) := by
  cases r with
  | ptr n i =>
    by_cases eq : m = n
    · rw [eq, point_inode_self]
      exact fileSize_store (by simp only [blocksAt]; omega)
    · rw [point_inode_of_ne eq]
  | entry n e => rfl

section Content

/-- Byte `x` of a file, where its block has a pointer. -/
def Fs.fileByte (L : Layout) (fs : Fs) (n x : ℕ) : UInt8 :=
  fs.block (L.blockNo (fs.target L (fileRef n (x / blockSize)))) (x % blockSize : ℕ)

/-- Byte `x` of a file lies in a block it has. -/
def Fs.Allocated (L : Layout) (fs : Fs) (n x : ℕ) : Prop := fs.target L (fileRef n (x / blockSize)) ≠ 0

/-- The bytes are in the file from the position on, and nothing else has changed; what is new besides
them is zero. -/
structure Wrote (L : Layout) (n : ℕ) (fs fs' : Fs) (pos : ℕ) (bytes : List UInt8) : Prop where
  inside : ∀ x, pos ≤ x → ∀ below : x - pos < bytes.length,
    fs'.Allocated L n x ∧ fs'.fileByte L n x = bytes[x - pos]
  outside : ∀ x, x < pos ∨ pos + bytes.length ≤ x → fs.Allocated L n x → fs'.fileByte L n x = fs.fileByte L n x
  zero : ∀ x, x < pos ∨ pos + bytes.length ≤ x → ¬ fs.Allocated L n x → fs'.Allocated L n x →
    fs'.fileByte L n x = 0

theorem FileStep.allocated (step : FileStep L n fs fs') {x : ℕ} (before : fs.Allocated L n x) :
    fs'.Allocated L n x := by
  rw [Fs.Allocated, step.grows _ before]
  exact before

theorem Wrote.nil {pos : ℕ} (target : ∀ b, fs'.target L (fileRef n b) = fs.target L (fileRef n b))
    (block : ∀ b k, fs.target L (fileRef n b) = L.block k → k < L.blocks → fs'.block k = fs.block k)
    (inv : Pointers L fs) : Wrote L n fs fs' pos [] where
  inside x _ below := by simp at below
  outside x _ before := by
    obtain ⟨k, fits, eq⟩ := inv.valid _ before
    rw [Fs.fileByte, Fs.fileByte, target, eq, L.blockNo_block, block _ k eq fits]
  zero x _ before after := by
    rw [Fs.Allocated, target] at after
    exact (before after).elim

theorem Wrote.append {pos : ℕ} {front back : List UInt8} (first : Wrote L n fs fs' pos front)
    (second : Wrote L n fs' fs'' (pos + front.length) back) (step : FileStep L n fs fs')
    (step' : FileStep L n fs' fs'') : Wrote L n fs fs'' pos (front ++ back) where
  inside x above below := by
    by_cases early : x - pos < front.length
    · obtain ⟨allocated, byte⟩ := first.inside x above early
      refine ⟨step'.allocated allocated, ?_⟩
      rw [second.outside x (by omega) allocated, byte, List.getElem_append_left early]
    · simp only [List.length_append] at below
      obtain ⟨allocated, byte⟩ := second.inside x (by omega) (by omega)
      refine ⟨allocated, ?_⟩
      rw [byte, List.getElem_append_right (by omega)]
      congr 1
      omega
  outside x apart before := by
    simp only [List.length_append] at apart
    rw [second.outside x (by omega) (step.allocated before), first.outside x (by omega) before]
  zero x apart before after := by
    simp only [List.length_append] at apart
    by_cases between : fs'.Allocated L n x
    · rw [second.outside x (by omega) between, first.zero x (by omega) before between]
    · exact second.zero x (by omega) between after

theorem fileRef_owner (n b : ℕ) : (fileRef n b).owner = n := by
  rw [fileRef]
  split_ifs <;> rfl

theorem fileRef_indirect (n b : ℕ) : (fileRef n b).indirect = false := by
  rw [fileRef]
  split_ifs with small
  · simp only [Ref.indirect, beq_eq_false_iff_ne]
    omega
  · rfl

theorem fileRef_inj {b b' : ℕ} (same : fileRef n b = fileRef n b') : b = b' := by
  simp only [fileRef] at same
  split_ifs at same
  · exact (Ref.ptr.inj same).2
  · have := (Ref.entry.inj same).2
    omega

/-- Filling the pointer of a file block, or of the indirect block, keeps the bytes of the other blocks. -/
private theorem Pointers.block_point_data (inv : Pointers L fs) (holds : fs.Holds r) {r' : Ref} {k' : ℕ}
    (mine : fs.target L r' = L.block k') (data : r'.indirect = false) : (fs.point L r k).block k' = fs.block k' := by
  cases r with
  | ptr n i => rfl
  | entry n e =>
    apply Function.update_of_ne
    rintro rfl
    obtain ⟨_, theirs⟩ := inv.indirect_eq holds
    have same := inv.unshared (.ptr n indBlock) r' (by rw [theirs]; exact L.block_ne_zero _) (theirs.trans mine.symm)
    rw [← same] at data
    cases data

/-- The indirect block is allocated. -/
theorem Wrote.pointIndirect (inv : Pointers L fs) (holds : fs.Holds (.ptr n indBlock))
    (null : fs.target L (.ptr n indBlock) = 0) (inside : k < L.blocks) (free : fs.dbit k = false) (pos : ℕ) :
    Wrote L n fs (fs.point L (.ptr n indBlock) k) pos [] := by
  refine Wrote.nil ?_ (fun _ _ _ _ => rfl) inv
  intro b
  apply (inv.target_point holds null inside free).2
  intro same
  have data := fileRef_indirect n b
  rw [same] at data
  cases data

/-- The pointer of a file block is filled; its bytes are zero. -/
theorem Wrote.point {b : ℕ} (inv : Pointers L fs) (holds : fs.Holds (fileRef n b))
    (null : fs.target L (fileRef n b) = 0) (inside : k < L.blocks) (free : fs.dbit k = false) (pos : ℕ) :
    Wrote L n fs (fs.point L (fileRef n b) k) pos [] := by
  obtain ⟨filled, others⟩ := inv.target_point holds null inside free
  refine ⟨?_, ?_, ?_⟩
  · intro x _ below
    simp at below
  · intro x _ before
    have apart : fileRef n (x / blockSize) ≠ fileRef n b := by
      intro same
      rw [Fs.Allocated, same] at before
      exact before null
    obtain ⟨k', fits, eq⟩ := inv.valid _ before
    rw [Fs.fileByte, Fs.fileByte, others _ apart, eq, L.blockNo_block,
      inv.block_point_data holds eq (fileRef_indirect ..)]
  · intro x _ before after
    have here : fileRef n (x / blockSize) = fileRef n b := by
      by_contra apart
      rw [Fs.Allocated, others _ apart] at after
      exact before after
    rw [Fs.fileByte, here, filled, L.blockNo_block, inv.block_point holds free, inv.zero k inside free]

/-- Bytes are copied into a block of the file. -/
theorem Wrote.data {b o : ℕ} {bytes : List UInt8} (inv : Pointers L fs) (mine : fs.target L (fileRef n b) = L.block k)
    (fits : o + bytes.length ≤ blockSize) :
    Wrote L n fs (fs.setBlock k ((fs.block k).store o bytes)) (blockSize * b + o) bytes := by
  have targets := inv.target_setBlock mine (fileRef_indirect n b) ((fs.block k).store o bytes)
  have page : (fs.setBlock k ((fs.block k).store o bytes)).block k = (fs.block k).store o bytes :=
    Function.update_self ..
  have here (x : ℕ) (eq : x / blockSize = b) : (fs.setBlock k ((fs.block k).store o bytes)).fileByte L n x =
      (fs.block k).store o bytes (x % blockSize : ℕ) := by
    rw [Fs.fileByte, targets, eq, mine, L.blockNo_block, page]
  refine ⟨?_, ?_, ?_⟩
  · intro x above below
    have eq : x / blockSize = b := by
      simp only [blockSize] at *
      omega
    refine ⟨?_, ?_⟩
    · rw [Fs.Allocated, targets, eq, mine]
      exact L.block_ne_zero k
    · have offset : (x % blockSize : ℕ) = o + (x - (blockSize * b + o)) := by
        simp only [blockSize] at *
        omega
      rw [here x eq, offset]
      push_cast
      exact store_at below
  · intro x apart before
    by_cases eq : x / blockSize = b
    · rw [here x eq, Fs.fileByte, eq, mine, L.blockNo_block]
      apply store_outside
      simp only [blockSize] at *
      omega
    · obtain ⟨k', _, target⟩ := inv.valid _ before
      have ne : k' ≠ k := by
        rintro rfl
        exact eq (fileRef_inj (inv.unshared _ _ before (target.trans mine.symm)))
      rw [Fs.fileByte, Fs.fileByte, targets, target, L.blockNo_block]
      rw [show (fs.setBlock k ((fs.block k).store o bytes)).block k' = fs.block k' from Function.update_of_ne ne ..]
  · intro x _ before after
    rw [Fs.Allocated, targets] at after
    exact (before after).elim

end Content

end Cs537.Wfs
