import Cs537.Lib.Bytes
import Cs537.Lib.RedoLog
import Mathlib.Data.Finset.Card
import Mathlib.Algebra.BigOperators.Group.Finset.Basic

/-! # The file system's log

`log.c` keeps the blocks that file system calls change in the buffer cache, pinned by `B_DIRTY`, until no
call is under way. It then copies them to the log area, writes the log's header (which commits them),
installs them in their homes and clears the header. A machine step is what happens between two points at
which another process can run or the power can fail: one block transfer of the committer, the test of a
`log_write`, its entry into the log, the start or the end of a call. The header is kept as the bytes of its
block. A block is a whole buffer: copying one copies all its bytes.
-/

namespace Cs537.Fs

open Cs537.Lib

/-- The most blocks that a file system call is meant to write. -/
def MAXOPBLOCKS : ℕ := 10

/-- The most data blocks in the on-disk log. -/
def LOGSIZE : ℕ := MAXOPBLOCKS * 3

/-- What `initlog` reads of the superblock. -/
structure LogArea where
  logstart : ℕ
  nlog : ℕ

namespace Log

abbrev Block := Memory

/-- Read the header of the log from its block. -/
def readHead (b : Block) : List ℕ := (List.range (b.int 0).toNat).map fun i : ℕ => uint32 (b.int (4 * (i + 1)))

def writeBlocks : ℕ → List ℕ → Block → Block
  | _, [], b => b
  | i, blockno :: rest, b => writeBlocks (i + 1) rest (b.setInt (4 * (i + 1)) blockno)

/-- Write the header into its block; the entries after the last one keep their old bytes. -/
def writeHead (lh : List ℕ) (b : Block) : Block := writeBlocks 0 lh (b.setInt 0 lh.length)

/-- A valid buffer, and whether `B_DIRTY` is set. -/
structure Buf where
  data : Block
  dirty : Bool

/-- What the process in `commit` or `recover_from_log` does next; `booting` tells the two apart. -/
inductive Pc
  | ready
  | writeLog (tail : ℕ)
  | writeHead
  | install (booting : Bool) (tail : ℕ)
  | clear (booting : Bool)
  | committed
  | boot
  deriving DecidableEq

def Pc.booting : Pc → Bool
  | .boot => true
  | .install booting _ => booting
  | .clear booting => booting
  | _ => false

/-- A `log_write` between its tests and its entry into the log: the locked buffer's block and the change made to it. -/
structure Call where
  blockno : ℕ
  modify : Block → Block

/-- The disk, the buffer cache, the log in memory and the calls under way. The last three fields are history:
how many calls there have been, what each has written, and all their updates in order. -/
structure St where
  disk : ℕ → Block
  cache : ℕ → Option Buf
  lh : List ℕ
  outstanding : ℤ
  committing : Bool
  pc : Pc
  inOp : Finset ℕ
  checked : ℕ → Option Call
  panicked : Option String
  next : ℕ
  wrote : ℕ → Finset ℕ
  issued : List (Update ℕ Block)

namespace St

/-- The contents that `bread` returns. -/
def view (s : St) (b : ℕ) : Block := match s.cache b with
  | some buf => buf.data
  | none => s.disk b

/-- `bread`: a block that is not cached is read from the disk. -/
def bread (s : St) (b : ℕ) : St := match s.cache b with
  | some _ => s
  | none => { s with cache := Function.update s.cache b (some ⟨s.disk b, false⟩) }

/-- `bwrite` of a buffer with new contents: the driver clears `B_DIRTY` when the disk has them. -/
def bwrite (s : St) (b : ℕ) (data : Block) : St :=
  { s with disk := Function.update s.disk b data, cache := Function.update s.cache b (some ⟨data, false⟩) }

/-- No call between its tests and its entry into the log holds the buffer. -/
def Unlocked (s : St) (b : ℕ) : Prop := ∀ op ∈ s.inOp, (s.checked op).map Call.blockno ≠ some b

instance (s : St) (b : ℕ) : Decidable (s.Unlocked b) := inferInstanceAs (Decidable (∀ op ∈ s.inOp, _))

def beginOp (s : St) : Option St :=
  if s.pc.booting ∨ s.committing ∨ LOGSIZE < s.lh.length + (s.outstanding + 1) * MAXOPBLOCKS then none
  else some { s with outstanding := s.outstanding + 1, inOp := insert s.next s.inOp, next := s.next + 1 }

/-- The tests of `log_write`, which are made before its lock is taken. -/
def check (area : LogArea) (s : St) (op : ℕ) (call : Call) : Option St :=
  if op ∈ s.inOp ∧ s.checked op = none ∧ s.Unlocked call.blockno then
    if LOGSIZE ≤ s.lh.length ∨ (area.nlog : ℤ) - 1 ≤ s.lh.length then
      some { s with panicked := some "too big a transaction" }
    else if s.outstanding < 1 then some { s with panicked := some "log_write outside of trans" }
    else some { s with checked := Function.update s.checked op (some call) }
  else none

/-- The search of `log_write`: a block that is in the log already is absorbed. -/
def absorb (lh : List ℕ) (blockno : ℕ) : List ℕ :=
  let i := lh.findIdx (· == blockno)
  if i = lh.length then lh ++ [blockno] else lh.set i blockno

/-- What `log_write` does under its lock, and the release of the buffer. -/
def append (s : St) (op : ℕ) : Option St := do
  let call ← s.checked op
  some { s with
    lh := absorb s.lh call.blockno
    cache := Function.update s.cache call.blockno (some ⟨call.modify (s.view call.blockno), true⟩)
    checked := Function.update s.checked op none
    wrote := Function.update s.wrote op (insert call.blockno (s.wrote op))
    issued := s.issued ++ [⟨op, call.blockno, call.modify⟩] }

def endOp (s : St) (op : ℕ) : Option St :=
  if op ∈ s.inOp ∧ s.checked op = none then
    let s := { s with outstanding := s.outstanding - 1, inOp := s.inOp.erase op }
    if s.committing then some { s with panicked := some "log.committing" }
    else if s.outstanding = 0 then
      some { s with committing := true, pc := if 0 < s.lh.length then .writeLog 0 else .committed }
    else some s
  else none

/-- One block transfer of `commit` or `recover_from_log`, or a step between two. -/
def tick (area : LogArea) (s : St) : Option St := match s.pc with
  | .ready => none
  | .writeLog tail => match s.lh[tail]? with
    | some b =>
      let s := s.bread b
      some { s.bwrite (area.logstart + tail + 1) (s.view b) with pc := .writeLog (tail + 1) }
    | none => some { s with pc := .writeHead }
  | .writeHead =>
    some { s.bwrite area.logstart (Log.writeHead s.lh (s.view area.logstart)) with pc := .install false 0 }
  | .install booting tail => match s.lh[tail]? with
    | some b =>
      let s := s.bread (area.logstart + tail + 1)
      some { s.bwrite b (s.view (area.logstart + tail + 1)) with pc := .install booting (tail + 1) }
    | none => some { s with lh := [], pc := .clear booting }
  | .clear booting =>
    some { s.bwrite area.logstart (Log.writeHead s.lh (s.view area.logstart)) with
      pc := if booting then .ready else .committed }
  | .committed => some { s with committing := false, pc := .ready }
  | .boot =>
    let s := s.bread area.logstart
    some { s with lh := readHead (s.view area.logstart), pc := .install true 0 }

/-- `bget` recycles only a buffer that nobody holds and that is not dirty. -/
def evict (s : St) (b : ℕ) : Option St := do
  let buf ← s.cache b
  if buf.dirty ∨ ¬ s.Unlocked b then none else some { s with cache := Function.update s.cache b none }

/-- The power fails: the disk stays, memory is as at boot. -/
def crash (s : St) : St :=
  { s with
    cache := fun _ => none, lh := [], outstanding := 0, committing := false, pc := .boot, inOp := ∅
    checked := fun _ => none, panicked := none }

end St

inductive Action
  | beginOp
  | check (op : ℕ) (call : Call)
  | append (op : ℕ)
  | endOp (op : ℕ)
  | tick
  | bread (b : ℕ)
  | evict (b : ℕ)
  | crash

def act (area : LogArea) (s : St) : Action → Option St
  | .beginOp => s.beginOp
  | .check op call => s.check area op call
  | .append op => s.append op
  | .endOp op => s.endOp op
  | .tick => s.tick area
  | .bread b => if s.Unlocked b then some (s.bread b) else none
  | .evict b => s.evict b
  | .crash => some s.crash

/-- A kernel that has panicked waits for its power to be switched off. -/
def step (area : LogArea) (s : St) (a : Action) : Option St := match s.panicked, a with
  | none, a => act area s a
  | some _, .crash => some s.crash
  | some _, _ => none

/-- A block outside the log area, as the callers of `log_write` name it. -/
def Home (area : LogArea) (b : ℕ) : Prop := (b < area.logstart ∨ area.logstart + area.nlog ≤ b) ∧ b < 2 ^ 32

instance (area : LogArea) (b : ℕ) : Decidable (Home area b) := inferInstanceAs (Decidable (_ ∧ _))

/-- A header that names no more blocks than the log area holds, all of them outside it. -/
structure ValidHead (area : LogArea) (lh : List ℕ) : Prop where
  fits : lh.length < area.nlog
  small : lh.length ≤ LOGSIZE
  homes : ∀ b ∈ lh, Home area b

/-- Power on with a disk. -/
def powerOn (disk : ℕ → Block) : St where
  disk := disk
  cache _ := none
  lh := []
  outstanding := 0
  committing := false
  pc := .boot
  inOp := ∅
  checked _ := none
  panicked := none
  next := 0
  wrote _ := ∅
  issued := []

/-- The log over a disk with a valid header, as `mkfs` leaves it and every run of the log does. -/
def machine (area : LogArea) : Machine St Action where
  init s := ∃ disk, ValidHead area (readHead (disk area.logstart)) ∧ s = powerOn disk
  step := step area

/-- What the log needs of its callers: blocks outside the log area, and fewer than `MAXOPBLOCKS` different
ones for a call. -/
def Careful (area : LogArea) (s : St) : Action → Prop
  | .check op call => Home area call.blockno ∧ (insert call.blockno (s.wrote op)).card < MAXOPBLOCKS
  | _ => True

instance (area : LogArea) (s : St) (a : Action) : Decidable (Careful area s a) := match a with
  | .check _ _ => inferInstanceAs (Decidable (_ ∧ _))
  | .beginOp | .append _ | .endOp _ | .tick | .bread _ | .evict _ | .crash => .isTrue trivial

variable {area : LogArea} {s t : St} {a : Action} {b : ℕ} {lh : List ℕ}

private theorem uint32_int (m : Memory) (x : ℤ) : uint32 (m.int x) = m.le x 4 := by
  have small := Memory.le_lt m x 4
  rw [Memory.int, int32]
  split
  · rw [uint32, uint32]
    omega
  · rw [uint32, uint32]
    omega

private theorem writeBlocks_before {x : ℤ} {i : ℕ} (m : Memory) (before : x + 4 ≤ 4 * (i + 1)) :
    (writeBlocks i lh m).int x = m.int x := by
  induction lh generalizing i m with
  | nil => rfl
  | cons blockno rest ih =>
    rw [writeBlocks, ih _ (by push_cast; omega), Memory.setInt, Memory.int_store_outside (.inl before)]

private theorem writeBlocks_at {i k : ℕ} (m : Memory) (words : ∀ b ∈ lh, b < 2 ^ 32) (inside : k < lh.length) :
    uint32 ((writeBlocks i lh m).int (4 * ((i + k : ℕ) + 1))) = lh[k] := by
  induction lh generalizing i k m with
  | nil => simp at inside
  | cons blockno rest ih =>
    rw [writeBlocks]
    cases k with
    | zero =>
      have word := words blockno List.mem_cons_self
      rw [writeBlocks_before _ (by push_cast; omega), uint32_int, Memory.setInt, Nat.add_zero,
        Memory.le_store_leBytes]
      simp only [List.getElem_cons_zero, uint32]
      omega
    | succ k =>
      have later := ih (i := i + 1) (k := k) (m.setInt (4 * (i + 1)) blockno)
        (fun b member => words b (List.mem_cons_of_mem _ member)) (by simpa using inside)
      rw [show i + 1 + k = i + (k + 1) by omega] at later
      exact later

/-- A header that was written is read back. -/
theorem readHead_writeHead (m : Memory) (words : ∀ b ∈ lh, b < 2 ^ 32) (small : lh.length < 2 ^ 31) :
    readHead (writeHead lh m) = lh := by
  have count : ((writeHead lh m).int 0).toNat = lh.length := by
    rw [writeHead, writeBlocks_before _ (by norm_num), Memory.int_setInt, int32_eq (by omega) (by omega)]
    rfl
  rw [readHead, count]
  apply List.ext_getElem (by simp)
  intro k _ inside
  rw [List.getElem_map, List.getElem_range]
  have entry := writeBlocks_at (i := 0) (m.setInt 0 lh.length) words inside
  rw [Nat.zero_add] at entry
  exact entry

/-- The search and the entry together add a block that is not there. -/
theorem absorb_eq (lh : List ℕ) (b : ℕ) : St.absorb lh b = if b ∈ lh then lh else lh ++ [b] := by
  rw [St.absorb]
  split_ifs with last member absent
  · rw [List.findIdx_eq_length] at last
    exact absurd (last b member) (by simp)
  · rfl
  · have inside : lh.findIdx (· == b) < lh.length := List.findIdx_lt_length_of_exists ⟨b, absent, by simp⟩
    have found := List.findIdx_getElem (w := inside)
    rw [beq_iff_eq] at found
    nth_rewrite 2 [← found]
    rw [List.set_getElem_self]
  · rw [List.findIdx_eq_length] at last
    exact absurd (fun c inside => by
      rw [beq_eq_false_iff_ne]
      exact fun same => absent (same ▸ inside)) last

end Log

end Cs537.Fs
