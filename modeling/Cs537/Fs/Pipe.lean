import Cs537.Lib.Fifo
import Cs537.Lib.Machine
import Mathlib.Data.Fintype.Basic
import Mathlib.Data.List.Infix

/-! # Pipes

`pipe.c`: a pipe is a buffer of `PIPESIZE` bytes and two counters of bytes that wrap around. `pipewrite` and
`piperead` have the pipe's lock from one sleep to the next, so what a process does between two sleeps is one
step. A process calls on a pipe while that end is open, and `kill` wakes a process that sleeps. What the
calls have put into the pipe and taken out is recorded as history.
-/

namespace Cs537.Fs.Pipe

open Cs537.Lib

def PIPESIZE : ℕ := 512

/-- `struct pipe`; the counters are unsigned. -/
structure Pipe where
  data : ℕ → UInt8
  nread : ℕ
  nwrite : ℕ
  readopen : Bool
  writeopen : Bool

/-- How `pipewrite` gives up the lock. -/
inductive Stop
  | done
  | refused
  | full
  deriving DecidableEq

/-- The loop of `pipewrite` while it has the lock; the bytes that are left. -/
def pipewrite (killed : Bool) : Pipe → List UInt8 → Pipe × List UInt8 × Stop
  | p, [] => (p, [], .done)
  | p, b :: rest =>
    if p.nwrite = (p.nread + PIPESIZE) % 2 ^ 32 then
      if p.readopen = false ∨ killed = true then (p, b :: rest, .refused) else (p, b :: rest, .full)
    else
      pipewrite killed { p with
        data := Function.update p.data (p.nwrite % PIPESIZE) b
        nwrite := (p.nwrite + 1) % 2 ^ 32 } rest

/-- The copy loop of `piperead`. -/
def piperead : ℕ → Pipe → Pipe × List UInt8
  | 0, p => (p, [])
  | n + 1, p =>
    if p.nread = p.nwrite then (p, [])
    else
      let rest := piperead n { p with nread := (p.nread + 1) % 2 ^ 32 }
      (rest.1, p.data (p.nread % PIPESIZE) :: rest.2)

/-- Where a process is: in `pipewrite`, with the bytes of the call and those that are left, or in `piperead`. -/
inductive Proc
  | out
  | writing (src rest : List UInt8) (asleep : Bool)
  | reading (n : ℕ) (asleep : Bool)
  deriving DecidableEq

/-- `wakeup(&p->nread)`. -/
def Proc.wakeReader : Proc → Proc
  | .reading n _ => .reading n false
  | p => p

/-- `wakeup(&p->nwrite)`. -/
def Proc.wakeWriter : Proc → Proc
  | .writing src rest _ => .writing src rest false
  | p => p

def Proc.writes : Proc → Bool
  | .writing .. => true
  | _ => false

def Proc.reads : Proc → Bool
  | .reading .. => true
  | _ => false

/-- How a call of `pipewrite` ended: with `n`, or with -1 after so many bytes. -/
structure Written where
  src : List UInt8
  result : ℤ
  put : ℕ

/-- The pipe, how often it was freed, and the processes; then the history: the bytes that went in and out,
each with its process, the calls that have returned, and whether a read of more than no bytes has returned
none. -/
structure St (n : ℕ) where
  pipe : Pipe
  freed : ℕ
  proc : Fin n → Proc
  killed : Fin n → Bool
  sent : List (Fin n × UInt8)
  received : List (Fin n × UInt8)
  writes : Fin n → List Written
  reads : Fin n → List (List UInt8)
  ended : Bool

variable {n : ℕ}

namespace St

def set (s : St n) (i : Fin n) (p : Proc) : St n := { s with proc := Function.update s.proc i p }

def wakeReaders (s : St n) : St n := { s with proc := fun i => (s.proc i).wakeReader }

def wakeWriters (s : St n) : St n := { s with proc := fun i => (s.proc i).wakeWriter }

/-- `pipewrite` from the lock to the next sleep or the return. -/
def runWrite (s : St n) (i : Fin n) (src rest : List UInt8) : St n :=
  let (p, left, stop) := pipewrite (s.killed i) s.pipe rest
  let s := { s with pipe := p, sent := s.sent ++ (rest.take (rest.length - left.length)).map (i, ·) }
  match stop with
  | .done => { (s.wakeReaders.set i .out) with
      writes := Function.update s.writes i (s.writes i ++ [⟨src, src.length, src.length⟩]) }
  | .refused => { (s.set i .out) with
      writes := Function.update s.writes i (s.writes i ++ [⟨src, -1, src.length - left.length⟩]) }
  | .full => s.wakeReaders.set i (.writing src left true)

/-- `piperead` from the lock to the next sleep or the return. -/
def runRead (s : St n) (i : Fin n) (count : ℕ) : St n :=
  if s.pipe.nread = s.pipe.nwrite ∧ s.pipe.writeopen = true then
    if s.killed i then s.set i .out else s.set i (.reading count true)
  else
    let (p, bytes) := piperead count s.pipe
    { (s.wakeWriters.set i .out) with
      pipe := p
      received := s.received ++ bytes.map (i, ·)
      reads := Function.update s.reads i (s.reads i ++ [bytes])
      ended := s.ended || (bytes.isEmpty && decide (0 < count)) }

/-- The first part of `pipeclose`. -/
def shut (s : St n) : Bool → St n
  | true => { s with pipe := { s.pipe with writeopen := false } }.wakeReaders
  | false => { s with pipe := { s.pipe with readopen := false } }.wakeWriters

/-- `pipeclose`, when the last descriptor of an end is gone. -/
def pipeclose (s : St n) (writable : Bool) : St n :=
  let s := s.shut writable
  if s.pipe.readopen = false ∧ s.pipe.writeopen = false then { s with freed := s.freed + 1 } else s

end St

inductive Action (n : ℕ)
  | write (i : Fin n) (src : List UInt8)
  | read (i : Fin n) (count : ℕ)
  | run (i : Fin n)
  | kill (i : Fin n)
  | close (writable : Bool)

def step (s : St n) : Action n → Option (St n)
  | .write i src => if s.pipe.writeopen ∧ s.proc i = .out then some (s.set i (.writing src src false)) else none
  | .read i count => if s.pipe.readopen ∧ s.proc i = .out then some (s.set i (.reading count false)) else none
  | .run i => match s.proc i with
    | .writing src rest false => some (s.runWrite i src rest)
    | .reading count false => some (s.runRead i count)
    | _ => none
  | .kill i =>
    let s := { s with killed := Function.update s.killed i true }
    some (s.set i (s.proc i).wakeReader.wakeWriter)
  | .close true => if s.pipe.writeopen ∧ ∀ i, (s.proc i).writes = false then some (s.pipeclose true) else none
  | .close false => if s.pipe.readopen ∧ ∀ i, (s.proc i).reads = false then some (s.pipeclose false) else none

/-- `pipealloc`. The bytes of the buffer are what was in the page. -/
def pipealloc (data : ℕ → UInt8) : St n where
  pipe := ⟨data, 0, 0, true, true⟩
  freed := 0
  proc _ := .out
  killed _ := false
  sent := []
  received := []
  writes _ := []
  reads _ := []
  ended := false

def machine (n : ℕ) : Machine (St n) (Action n) where
  init s := ∃ data, s = pipealloc data
  step := step

end Cs537.Fs.Pipe
