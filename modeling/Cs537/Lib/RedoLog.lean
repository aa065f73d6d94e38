import Cs537.Lib.Machine
import Mathlib.Data.Finset.Basic

/-! # Redo logs and the disks they promise

A redo log keeps new block contents beside the blocks they belong to and installs them afterwards, any
number of times. What it is for is a journal: a disk whose operations are buffered, take effect together at
a commit that no operation is open at, and are forgotten by a crash. In a journal the writes of an operation
survive together or not at all, whatever the order in which operations begin, write, finish, are committed
and are interrupted.
-/

namespace Cs537.Lib

variable {ι β : Type*} [DecidableEq ι]

/-- Write logged contents to their homes, in the order of the log. -/
def install (entries : List (ι × β)) (disk : ι → β) : ι → β :=
  entries.foldl (fun d entry => Function.update d entry.1 entry.2) disk

@[simp] theorem install_nil (disk : ι → β) : install [] disk = disk := rfl

@[simp] theorem install_cons (entry : ι × β) (entries : List (ι × β)) (disk : ι → β) :
    install (entry :: entries) disk = install entries (Function.update disk entry.1 entry.2) := rfl

/-- The outcome depends on the old disk only outside the log's homes. -/
theorem install_congr {entries : List (ι × β)} {disk disk' : ι → β} {block : ι}
    (same : block ∉ entries.map Prod.fst → disk block = disk' block) :
    install entries disk block = install entries disk' block := by
  induction entries generalizing disk disk' with
  | nil => exact same List.not_mem_nil
  | cons entry rest ih =>
    rw [install_cons, install_cons]
    apply ih
    intro absent
    rcases eq_or_ne block entry.1 with rfl | other
    · rw [Function.update_self, Function.update_self]
    · rw [Function.update_of_ne other, Function.update_of_ne other]
      apply same
      simp only [List.map_cons, List.mem_cons, not_or]
      exact ⟨other, absent⟩

/-- A log whose entries agree with a disk turns a disk that differs from it only at their homes into it. -/
theorem install_eq {entries : List (ι × β)} {disk goal : ι → β} {block : ι}
    (sound : ∀ entry ∈ entries, entry.2 = goal entry.1)
    (rest : block ∉ entries.map Prod.fst → disk block = goal block) : install entries disk block = goal block := by
  induction entries generalizing disk with
  | nil => exact rest List.not_mem_nil
  | cons entry later ih =>
    rw [install_cons]
    apply ih (fun e member => sound e (List.mem_cons_of_mem _ member))
    intro absent
    rcases eq_or_ne block entry.1 with rfl | other
    · rw [Function.update_self]
      exact sound entry List.mem_cons_self
    · rw [Function.update_of_ne other]
      apply rest
      simp only [List.map_cons, List.mem_cons, not_or]
      exact ⟨other, absent⟩

/-- An update of one block by a numbered operation. -/
structure Update (ι β : Type*) where
  op : ℕ
  block : ι
  modify : β → β

/-- Carry updates out, in order. -/
def applyUpdates (updates : List (Update ι β)) (disk : ι → β) : ι → β :=
  updates.foldl (fun d u => Function.update d u.block (u.modify (d u.block))) disk

@[simp] theorem applyUpdates_nil (disk : ι → β) : applyUpdates [] disk = disk := rfl

theorem applyUpdates_append (front back : List (Update ι β)) (disk : ι → β) :
    applyUpdates (front ++ back) disk = applyUpdates back (applyUpdates front disk) :=
  List.foldl_append

theorem applyUpdates_snoc (updates : List (Update ι β)) (u : Update ι β) (disk : ι → β) :
    applyUpdates (updates ++ [u]) disk =
      Function.update (applyUpdates updates disk) u.block (u.modify (applyUpdates updates disk u.block)) := by
  rw [applyUpdates_append]
  rfl

/-- The updates of one operation. -/
def Update.of (op : ℕ) (updates : List (Update ι β)) : List (Update ι β) := updates.filter fun u => u.op = op

omit [DecidableEq ι] in
theorem Update.of_append (op : ℕ) (front back : List (Update ι β)) :
    Update.of op (front ++ back) = Update.of op front ++ Update.of op back := List.filter_append _ _

omit [DecidableEq ι] in
theorem Update.of_singleton (op : ℕ) (u : Update ι β) : Update.of op [u] = if u.op = op then [u] else [] := by
  simp [Update.of, List.filter_cons]

/-- A disk with atomic group commits: the disk it started from, the updates that a crash keeps, those it would lose,
all that were ever issued, and the operations that are open. -/
structure Journal (ι β : Type*) where
  base : ι → β
  survived : List (Update ι β)
  pending : List (Update ι β)
  issued : List (Update ι β)
  opened : Finset ℕ
  next : ℕ

namespace Journal

/-- What is found after a crash. -/
def durable (j : Journal ι β) : ι → β := applyUpdates j.survived j.base

/-- What a reader sees. -/
def current (j : Journal ι β) : ι → β := applyUpdates j.pending j.durable

inductive Action (ι β : Type*)
  | beginOp
  | write (u : Update ι β)
  | endOp (op : ℕ)
  | commit
  | crash

def step (j : Journal ι β) : Action ι β → Option (Journal ι β)
  | .beginOp => some { j with opened := insert j.next j.opened, next := j.next + 1 }
  | .write u =>
    if u.op ∈ j.opened then some { j with pending := j.pending ++ [u], issued := j.issued ++ [u] } else none
  | .endOp op => if op ∈ j.opened then some { j with opened := j.opened.erase op } else none
  | .commit => if j.opened = ∅ then some { j with survived := j.survived ++ j.pending, pending := [] } else none
  | .crash => some { j with pending := [], opened := ∅ }

/-- A journal that nothing has happened to. -/
def fresh (base : ι → β) : Journal ι β := ⟨base, [], [], [], ∅, 0⟩

/-- The journal over a disk as a machine. -/
def machine (base : ι → β) : Machine (Journal ι β) (Action ι β) where
  init j := j = fresh base
  step j := j.step

/-- What an operation's updates have come to: still buffered, lost, or kept, in each case all of them. -/
def Whole (j : Journal ι β) (op : ℕ) : Prop :=
  (Update.of op j.survived = [] ∧ Update.of op j.pending = Update.of op j.issued) ∨
  (Update.of op j.survived = [] ∧ Update.of op j.pending = [] ∧ op ∉ j.opened) ∨
  (Update.of op j.survived = Update.of op j.issued ∧ Update.of op j.pending = [] ∧ op ∉ j.opened)

structure Valid (base : ι → β) (j : Journal ι β) : Prop where
  base_eq : j.base = base
  order : (j.survived ++ j.pending).Sublist j.issued
  whole : ∀ op, j.Whole op
  issuedBefore : ∀ u ∈ j.issued, u.op < j.next
  openedBefore : ∀ op ∈ j.opened, op < j.next

variable {base : ι → β} {j j' : Journal ι β} {a : Action ι β}

omit [DecidableEq ι] in
theorem valid_fresh (base : ι → β) : Valid base (fresh base) where
  base_eq := rfl
  order := List.Sublist.refl _
  whole _ := .inl ⟨rfl, rfl⟩
  issuedBefore _ member := absurd member List.not_mem_nil
  openedBefore _ member := absurd member (Finset.notMem_empty _)

omit [DecidableEq ι] in
/-- An operation that has not begun has issued nothing. -/
theorem Valid.issued_of_next (valid : Valid base j) : Update.of j.next j.issued = [] := by
  apply List.filter_eq_nil_iff.mpr
  intro u member
  have before := valid.issuedBefore u member
  simp only [decide_eq_true_eq]
  omega

omit [DecidableEq ι] in
theorem Valid.beginOp (valid : Valid base j) :
    Valid base { j with opened := insert j.next j.opened, next := j.next + 1 } where
  base_eq := valid.base_eq
  order := valid.order
  whole op := by
    rcases valid.whole op with buffered | ⟨none, lost, closed⟩ | ⟨kept, gone, closed⟩
    · exact .inl buffered
    · rcases eq_or_ne op j.next with rfl | other
      · exact .inl ⟨none, lost.trans valid.issued_of_next.symm⟩
      · exact .inr (.inl ⟨none, lost, by simp [other, closed]⟩)
    · rcases eq_or_ne op j.next with rfl | other
      · have nothing := valid.issued_of_next
        exact .inl ⟨kept.trans nothing, gone.trans nothing.symm⟩
      · exact .inr (.inr ⟨kept, gone, by simp [other, closed]⟩)
  issuedBefore u member := Nat.lt_succ_of_lt (valid.issuedBefore u member)
  openedBefore op member := by
    rcases Finset.mem_insert.mp member with rfl | old
    · exact Nat.lt_succ_self _
    · exact Nat.lt_succ_of_lt (valid.openedBefore op old)

omit [DecidableEq ι] in
theorem Valid.write (valid : Valid base j) {u : Update ι β} (opened : u.op ∈ j.opened) :
    Valid base { j with pending := j.pending ++ [u], issued := j.issued ++ [u] } where
  base_eq := valid.base_eq
  order := by
    rw [← List.append_assoc]
    exact valid.order.append (List.Sublist.refl _)
  whole op := by
    rw [Whole, Update.of_append, Update.of_append]
    rcases valid.whole op with ⟨none, all⟩ | ⟨none, lost, closed⟩ | ⟨kept, gone, closed⟩
    · exact .inl ⟨none, by rw [all]⟩
    · have other : u.op ≠ op := fun same => closed (same ▸ opened)
      rw [Update.of_singleton, if_neg other, List.append_nil]
      exact .inr (.inl ⟨none, lost, closed⟩)
    · have other : u.op ≠ op := fun same => closed (same ▸ opened)
      rw [Update.of_singleton, if_neg other, List.append_nil, List.append_nil]
      exact .inr (.inr ⟨kept, gone, closed⟩)
  issuedBefore v member := by
    rcases List.mem_append.mp member with old | new
    · exact valid.issuedBefore v old
    · rw [List.mem_singleton.mp new]
      exact valid.openedBefore u.op opened
  openedBefore := valid.openedBefore

omit [DecidableEq ι] in
/-- Closing operations loses nothing. -/
theorem Valid.close (valid : Valid base j) {left : Finset ℕ} (fewer : left ⊆ j.opened) :
    Valid base { j with opened := left } where
  base_eq := valid.base_eq
  order := valid.order
  whole op := by
    rcases valid.whole op with buffered | ⟨none, lost, closed⟩ | ⟨kept, gone, closed⟩
    · exact .inl buffered
    · exact .inr (.inl ⟨none, lost, fun member => closed (fewer member)⟩)
    · exact .inr (.inr ⟨kept, gone, fun member => closed (fewer member)⟩)
  issuedBefore := valid.issuedBefore
  openedBefore op member := valid.openedBefore op (fewer member)

omit [DecidableEq ι] in
theorem Valid.commit (valid : Valid base j) (quiet : j.opened = ∅) :
    Valid base { j with survived := j.survived ++ j.pending, pending := [] } where
  base_eq := valid.base_eq
  order := by
    rw [List.append_nil]
    exact valid.order
  whole op := by
    have closed : op ∉ j.opened := by
      rw [quiet]
      exact Finset.notMem_empty op
    rw [Whole, Update.of_append]
    rcases valid.whole op with ⟨none, all⟩ | ⟨none, lost, _⟩ | ⟨kept, gone, _⟩
    · rw [none, List.nil_append]
      exact .inr (.inr ⟨all, rfl, closed⟩)
    · rw [none, lost]
      exact .inr (.inl ⟨rfl, rfl, closed⟩)
    · rw [gone, List.append_nil]
      exact .inr (.inr ⟨kept, rfl, closed⟩)
  issuedBefore := valid.issuedBefore
  openedBefore := valid.openedBefore

omit [DecidableEq ι] in
theorem Valid.crash (valid : Valid base j) : Valid base { j with pending := [], opened := ∅ } where
  base_eq := valid.base_eq
  order := by
    rw [List.append_nil]
    exact (List.sublist_append_left _ _).trans valid.order
  whole op := by
    have closed : op ∉ (∅ : Finset ℕ) := Finset.notMem_empty op
    rcases valid.whole op with ⟨none, _⟩ | ⟨none, _, _⟩ | ⟨kept, _, _⟩
    · exact .inr (.inl ⟨none, rfl, closed⟩)
    · exact .inr (.inl ⟨none, rfl, closed⟩)
    · exact .inr (.inr ⟨kept, rfl, closed⟩)
  issuedBefore := valid.issuedBefore
  openedBefore _ member := absurd member (Finset.notMem_empty _)

omit [DecidableEq ι] in
theorem Valid.step (valid : Valid base j) (next : j.step a = some j') : Valid base j' := by
  cases a with
  | beginOp =>
    cases next
    exact valid.beginOp
  | write u =>
    obtain ⟨opened, done⟩ := Option.ite_none_right_eq_some.mp next
    cases done
    exact valid.write opened
  | endOp op =>
    obtain ⟨_, done⟩ := Option.ite_none_right_eq_some.mp next
    cases done
    exact valid.close (Finset.erase_subset op j.opened)
  | commit =>
    obtain ⟨quiet, done⟩ := Option.ite_none_right_eq_some.mp next
    cases done
    exact valid.commit quiet
  | crash =>
    cases next
    exact valid.crash

omit [DecidableEq ι] in
/-- In every run, the updates of an operation survive together or not at all. -/
theorem valid_of_reachable (reached : (machine base).Reachable j) : Valid base j :=
  reached.invariant (fun _ start => start ▸ valid_fresh base) fun _ _ _ next valid => valid.step next

omit [DecidableEq ι] in
/-- What survives never depends on what a later crash destroys: it only grows. -/
theorem survived_grows (next : j.step a = some j') : j.survived <+: j'.survived := by
  cases a with
  | beginOp =>
    cases next
    exact List.prefix_refl _
  | write u =>
    obtain ⟨_, done⟩ := Option.ite_none_right_eq_some.mp next
    cases done
    exact List.prefix_refl _
  | endOp op =>
    obtain ⟨_, done⟩ := Option.ite_none_right_eq_some.mp next
    cases done
    exact List.prefix_refl _
  | commit =>
    obtain ⟨_, done⟩ := Option.ite_none_right_eq_some.mp next
    cases done
    exact List.prefix_append _ _
  | crash =>
    cases next
    exact List.prefix_refl _

omit [DecidableEq ι] in
theorem Valid.atomic (valid : Valid base j) (op : ℕ) :
    Update.of op j.survived = Update.of op j.issued ∨ Update.of op j.survived = [] := by
  rcases valid.whole op with ⟨none, _⟩ | ⟨none, _, _⟩ | ⟨kept, _, _⟩
  · exact .inr none
  · exact .inr none
  · exact .inl kept

end Journal

end Cs537.Lib
