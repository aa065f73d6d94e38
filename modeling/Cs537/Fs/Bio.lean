import Cs537.Fs.Log
import Cs537.Lib.Circle

/-! # The buffer cache

`bio.c`: a fixed number of buffers on a circular list, most recently used first. `bget` looks a block up
along the list or recycles the least recently used buffer that nobody refers to and that is not dirty, and
then waits for the buffer's sleep lock; `brelse` puts a buffer that nobody refers to any more in front. A
client is one call of `bread` with all that follows, up to `brelse`. What happens under `bcache.lock` or
under a buffer's lock without a transfer is one step. A client that changes a buffer hands it to `bwrite` or
to `log_write` before it lets go.
-/

namespace Cs537.Fs.Bio

open Cs537.Lib Cs537.Fs.Log

/-- The size of the disk block cache. -/
def NBUF : ℕ := MAXOPBLOCKS * 3

/-- A buffer; the holder of its sleep lock is a client. -/
structure Buf where
  valid : Bool
  dirty : Bool
  dev : ℕ
  blockno : ℕ
  refcnt : ℕ
  lock : Option ℕ
  data : Block

/-- Where a client is: it waits for the lock of its buffer, has it, or has released it and not yet given up
its reference. -/
inductive Stage
  | waiting
  | holding
  | released
  deriving DecidableEq

/-- The node behind the last buffer stands for `bcache.head`. The fields from `users` on say where the
clients are; the last two are history: when a buffer was last let go, and what was last written to a
block. -/
structure St where
  disk : ℕ × ℕ → Block
  buf : ℕ → Buf
  links : Links ℕ
  panicked : Option String
  users : ℕ → Finset ℕ
  stage : ℕ → Stage
  clock : ℕ
  freed : ℕ → ℕ
  written : ℕ × ℕ → Block

/-- `&bcache.head`. -/
def head : ℕ := NBUF

namespace St

def setBuf (s : St) (i : ℕ) (b : Buf) : St := { s with buf := Function.update s.buf i b }

/-- The first loop of `bget`. -/
def lookup (s : St) (dev blockno : ℕ) : Option ℕ :=
  Links.search s.links.next head (fun i => (s.buf i).dev == dev && (s.buf i).blockno == blockno) (NBUF + 1)
    (s.links.next head)

/-- The second loop of `bget`. -/
def victim (s : St) : Option ℕ :=
  Links.search s.links.prev head (fun i => (s.buf i).refcnt == 0 && !(s.buf i).dirty) (NBUF + 1) (s.links.prev head)

def join (s : St) (c i : ℕ) : St :=
  { s with users := Function.update s.users i (insert c (s.users i)), stage := Function.update s.stage c .waiting }

/-- `bget` up to the release of `bcache.lock`. -/
def bget (s : St) (c dev blockno : ℕ) : St :=
  match s.lookup dev blockno with
  | some i => (s.setBuf i { s.buf i with refcnt := (s.buf i).refcnt + 1 }).join c i
  | none => match s.victim with
    | some i => (s.setBuf i { s.buf i with
        dev := dev, blockno := blockno, valid := false, dirty := false, refcnt := 1 }).join c i
    | none => { s with panicked := some "bget: no buffers" }

/-- `acquiresleep` of a buffer that is not locked. -/
def acquire (s : St) (c i : ℕ) : Option St :=
  if c ∈ s.users i ∧ s.stage c = .waiting ∧ (s.buf i).lock = none then
    some { s.setBuf i { s.buf i with lock := some c } with stage := Function.update s.stage c .holding }
  else none

/-- `bread` reads a buffer that is not valid. -/
def fill (s : St) (c i : ℕ) : Option St :=
  if c ∈ s.users i ∧ s.stage c = .holding ∧ (s.buf i).valid = false then
    some (s.setBuf i { s.buf i with valid := true, dirty := false, data := s.disk ((s.buf i).dev, (s.buf i).blockno) })
  else none

/-- New contents for a buffer, which `bwrite` brings to the disk. -/
def bwrite (s : St) (c i : ℕ) (data : Block) : Option St :=
  if c ∈ s.users i ∧ s.stage c = .holding ∧ (s.buf i).valid = true then
    if (s.buf i).lock = some c then
      some { s.setBuf i { s.buf i with data := data, dirty := false } with
        disk := Function.update s.disk ((s.buf i).dev, (s.buf i).blockno) data
        written := Function.update s.written ((s.buf i).dev, (s.buf i).blockno) data }
    else some { s with panicked := some "bwrite" }
  else none

/-- New contents for a buffer, which `log_write` pins in the cache. -/
def logWrite (s : St) (c i : ℕ) (data : Block) : Option St :=
  if c ∈ s.users i ∧ s.stage c = .holding ∧ (s.buf i).valid = true then
    some { s.setBuf i { s.buf i with data := data, dirty := true } with
      written := Function.update s.written ((s.buf i).dev, (s.buf i).blockno) data }
  else none

/-- The test of `brelse` and `releasesleep`. -/
def unlock (s : St) (c i : ℕ) : Option St :=
  if c ∈ s.users i ∧ s.stage c = .holding ∧ (s.buf i).valid = true then
    if (s.buf i).lock = some c then
      some { s.setBuf i { s.buf i with lock := none } with stage := Function.update s.stage c .released }
    else some { s with panicked := some "brelse" }
  else none

/-- The rest of `brelse`, under `bcache.lock`. -/
def brelse (s : St) (c i : ℕ) : Option St :=
  if c ∈ s.users i ∧ s.stage c = .released then
    let s := { s.setBuf i { s.buf i with refcnt := (s.buf i).refcnt - 1 } with
      users := Function.update s.users i ((s.users i).erase c) }
    if (s.buf i).refcnt = 0 then
      some { s with
        links := (s.links.unlink i).pushFront head i
        clock := s.clock + 1
        freed := Function.update s.freed i (s.clock + 1) }
    else some s
  else none

end St

inductive Action
  | bget (c dev blockno : ℕ)
  | acquire (c i : ℕ)
  | fill (c i : ℕ)
  | bwrite (c i : ℕ) (data : Block)
  | logWrite (c i : ℕ) (data : Block)
  | unlock (c i : ℕ)
  | brelse (c i : ℕ)

/-- A client is new when it is at no buffer. -/
def St.Fresh (s : St) (c : ℕ) : Prop := ∀ i ∈ List.range NBUF, c ∉ s.users i

instance (s : St) (c : ℕ) : Decidable (s.Fresh c) := inferInstanceAs (Decidable (∀ i ∈ List.range NBUF, _))

def act (s : St) : Action → Option St
  | .bget c dev blockno => if s.Fresh c then some (s.bget c dev blockno) else none
  | .acquire c i => s.acquire c i
  | .fill c i => s.fill c i
  | .bwrite c i data => s.bwrite c i data
  | .logWrite c i data => s.logWrite c i data
  | .unlock c i => s.unlock c i
  | .brelse c i => s.brelse c i

def step (s : St) (a : Action) : Option St := match s.panicked with
  | none => act s a
  | some _ => none

/-- `binit`: each buffer is linked behind the head. -/
def binit (disk : ℕ × ℕ → Block) : St where
  disk := disk
  buf _ := ⟨false, false, 0, 0, 0, none, fun _ => 0⟩
  links := (List.range NBUF).foldl (fun k b => k.pushFront head b) ⟨Function.update id head head,
    Function.update id head head⟩
  panicked := none
  users _ := ∅
  stage _ := .waiting
  clock := 0
  freed _ := 0
  written := disk

def machine : Machine St Action where
  init s := ∃ disk, s = binit disk
  step := step

/-- No block is on device zero, the number in the buffers that have not been used yet. -/
def OnDevice (_ : St) : Action → Prop
  | .bget _ dev _ => dev ≠ 0
  | _ => True

instance (s : St) (a : Action) : Decidable (OnDevice s a) := match a with
  | .bget _ dev _ => inferInstanceAs (Decidable (dev ≠ 0))
  | .acquire .. | .fill .. | .bwrite .. | .logWrite .. | .unlock .. | .brelse .. => .isTrue trivial

end Cs537.Fs.Bio
