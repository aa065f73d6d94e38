import Cs537.Lib.CInt
import Cs537.KvStore.Ring
import Cs537.KvStore.Table

/-! # Client threads, server threads, the ring and the table as one system

A client thread runs `thread_function` of the client: it fills its window with `submit_reqs` and
collects answers in order with `process_completions`. A server thread runs `thread_function` of the
server: it takes a descriptor from the ring, copies it to the status board, runs `put` or `get` on the
table, and raises the ready flag. Both sides go through the ring and the table step by step, so a run
of the system contains a run of each. The status board is addressed by byte offsets in the shared
area, computed with the wrapping `int` arithmetic of the source.

The fields `tags`, `serverTag` and `answers` are history: which request each ring item is, which
request a server thread is serving, and what the server left on the board. No step reads them.
-/

namespace Cs537.KvStore

open Lib

/-- `struct request`. -/
structure Request where
  k : Key
  v : Value
  t : RequestType
deriving DecidableEq, Repr

/-- The command line: window size, table size, and the requests of each client thread. -/
structure Config (n : ℕ) where
  winSize : ℕ
  tableSize : ℕ
  reqs : Fin n → List Request

namespace Config

variable {n : ℕ} (cfg : Config n)

/-- `shm_size` in `init_client`. -/
def shmSize : ℤ := int32 (ringBytes + int32 (n * cfg.winSize) * descriptorBytes)

/-- `comp_off` in `start_threads`: the status board of a thread, as told to the server. -/
def compOff (t : Fin n) : ℤ := int32 (ringBytes + int32 (t * cfg.winSize) * descriptorBytes)

/-- `comps` in `start_threads`: the same board, as the client addresses it. -/
def comps (t : Fin n) : ℤ := ringBytes + int32 (t * cfg.winSize) * descriptorBytes

/-- `bd.res_off` in `submit_reqs`. -/
def resOff (t : Fin n) (submitted : ℕ) : ℤ :=
  int32 (cfg.compOff t + (submitted % cfg.winSize : ℕ) * descriptorBytes)

/-- The address `&ctx->comps[i]`. -/
def compSlot (t : Fin n) (i : ℕ) : ℤ := cfg.comps t + i * descriptorBytes

/-- The descriptor `submit_reqs` builds for request number `r` of thread `t`. -/
def descriptor (t : Fin n) (r : ℕ) (req : Request) : BufferDescriptor :=
  ⟨req.t, req.k, req.v, cfg.resOff t r, 0⟩

/-- `ctx->num_reqs`. -/
def numReqs (t : Fin n) : ℕ := (cfg.reqs t).length

end Config

/-- Where a client thread stands. Polling inside the submission loop and in the final loop differ in
where the thread goes when the expected answer is not there. -/
inductive ClientPc where
  | loopTest
  | submitTest
  | ringSubmit
  | poll (final : Bool)
  | clearReady (final : Bool)
  | copyResult (final : Bool)
  | finalTest
  | done
deriving DecidableEq, Repr

/-- The locals of the client's `thread_function` and the parts of its context it writes. -/
structure Client where
  pc : ClientPc
  lastCompleted : ℕ
  lastSubmitted : ℕ
  nxtComp : ℕ
  res : ℕ → BufferDescriptor

/-- Where a server thread stands; the descriptor is its local `bd`. -/
inductive ServerPc where
  | ringGet
  | copyDescriptor (bd : BufferDescriptor)
  | dispatch (bd : BufferDescriptor)
  | inPut (bd : BufferDescriptor)
  | inGet (bd : BufferDescriptor)
  | storeV (bd : BufferDescriptor) (v : Value)
  | setReady (bd : BufferDescriptor)
  | exited
deriving DecidableEq, Repr

/-- The whole system: `n` client threads and `m` server threads. -/
structure System (n m : ℕ) where
  ring : RingState n m
  table : Table (Fin m)
  board : ℤ → BufferDescriptor
  client : Fin n → Client
  server : Fin m → ServerPc
  tags : List (Fin n × ℕ)
  serverTag : Fin m → Option (Fin n × ℕ)
  answers : Fin n → ℕ → Option BufferDescriptor

/-- A thread takes its next step; a server thread inside `put` may receive memory. -/
inductive SystemAction (n m : ℕ) where
  | client (t : Fin n)
  | server (j : Fin m)
  | malloc (j : Fin m) (new : Addr) (junk : KeyvalueNode)

namespace System

variable {n m : ℕ}

def setClient (s : System n m) (t : Fin n) (c : Client) : System n m :=
  { s with client := Function.update s.client t c }

def setServer (s : System n m) (j : Fin m) (pc : ServerPc) : System n m :=
  { s with server := Function.update s.server j pc }

/-- Replace a descriptor on the status board. -/
def writeBoard (s : System n m) (offset : ℤ) (bd : BufferDescriptor) : System n m :=
  { s with board := Function.update s.board offset bd }

/-- The history of a client's step inside `ring_submit`: its item enters the ring at the copy. -/
def tagSubmit (s : System n m) (t : Fin n) : List (Fin n × ℕ) :=
  match s.ring.producer t with
  | .copy _ => s.tags ++ [(t, (s.client t).lastSubmitted)]
  | _ => s.tags

/-- One step of the client's `thread_function`. -/
def clientStep (cfg : Config n) (s : System n m) (t : Fin n) : Option (System n m) :=
  let c := s.client t
  let slot := cfg.compSlot t c.nxtComp
  match c.pc with
  | .loopTest =>
      some (s.setClient t { c with
        pc := if c.lastSubmitted < cfg.numReqs t then .submitTest else .finalTest })
  | .submitTest =>
      if (c.lastSubmitted : ℤ) - c.lastCompleted < cfg.winSize then
        match (cfg.reqs t)[c.lastSubmitted]? with
        | none => some (s.setClient t { c with pc := .poll false })
        | some req =>
            (s.ring.callSubmit t (some (cfg.descriptor t c.lastSubmitted req))).map fun ring =>
              { s.setClient t { c with pc := .ringSubmit } with ring := ring }
      else some (s.setClient t { c with pc := .poll false })
  | .ringSubmit =>
      (s.ring.ringSubmit t).map fun ring =>
        { s.setClient t (if ring.producer t = .idle then
            { c with pc := .submitTest, lastSubmitted := c.lastSubmitted + 1 } else c) with
          ring := ring
          tags := s.tagSubmit t }
  | .poll final =>
      some (s.setClient t { c with
        pc := if (s.board slot).ready = 1 then .clearReady final
          else if final then .finalTest else .loopTest })
  | .clearReady final =>
      some ((s.setClient t { c with pc := .copyResult final }).writeBoard slot
        { s.board slot with ready := 0 })
  | .copyResult final =>
      some (s.setClient t { c with
        pc := .poll final
        res := Function.update c.res c.lastCompleted (s.board slot)
        lastCompleted := c.lastCompleted + 1
        nxtComp := (c.nxtComp + 1) % cfg.winSize })
  | .finalTest =>
      some (s.setClient t { c with
        pc := if c.lastCompleted < cfg.numReqs t then .poll true else .done })
  | .done => none

/-- One step of a server thread inside `ring_get`; the call returns at its last instruction. -/
def serverRing (s : System n m) (j : Fin m) : Option (System n m) :=
  match s.ring.consumer j with
  | .idle => (s.ring.callGet j true).map fun ring => { s with ring := ring }
  | .copy => (s.ring.ringGet j).map fun ring =>
      { s with ring := ring, serverTag := Function.update s.serverTag j s.tags[s.ring.got.length]? }
  | .semPost bd => (s.ring.ringGet j).map fun ring =>
      { s.setServer j (.copyDescriptor bd) with ring := ring }
  | _ => (s.ring.ringGet j).map fun ring => { s with ring := ring }

/-- The history of raising the ready flag: the request is answered by what is on the board. -/
def recordAnswer (s : System n m) (j : Fin m) (bd : BufferDescriptor) :
    Fin n → ℕ → Option BufferDescriptor :=
  match s.serverTag j with
  | none => s.answers
  | some (t, r) => Function.update s.answers t (Function.update (s.answers t) r (some bd))

/-- One step of the server's `thread_function`. -/
def serverStep (s : System n m) (j : Fin m) : Option (System n m) :=
  match s.server j with
  | .ringGet => s.serverRing j
  | .copyDescriptor bd => some ((s.setServer j (.dispatch bd)).writeBoard bd.resOff bd)
  | .dispatch bd =>
      match bd.reqType with
      | .put => (s.table.step (.callPut j bd.k bd.v)).map fun table =>
          { s.setServer j (.inPut bd) with table := table }
      | .get => (s.table.step (.callGet j bd.k)).map fun table =>
          { s.setServer j (.inGet bd) with table := table }
      | .invalid _ => some (s.setServer j .exited)
  | .inPut bd => (s.table.access j).map fun table =>
      { s.setServer j (if table.pc j = .idle then .setReady bd else .inPut bd) with table := table }
  | .inGet bd => (s.table.access j).map fun table =>
      { s.setServer j (match s.table.pc j with
          | .getReturn _ output => .storeV bd output
          | _ => .inGet bd) with
        table := table }
  | .storeV bd v =>
      some ((s.setServer j (.setReady bd)).writeBoard bd.resOff { s.board bd.resOff with v := v })
  | .setReady bd =>
      let answer := { s.board bd.resOff with ready := 1 }
      some { (s.setServer j .ringGet).writeBoard bd.resOff answer with
        serverTag := Function.update s.serverTag j none
        answers := s.recordAnswer j answer }
  | .exited => none

/-- One step of one thread. -/
def step (cfg : Config n) (s : System n m) : SystemAction n m → Option (System n m)
  | .client t => s.clientStep cfg t
  | .server j => s.serverStep j
  | .malloc j new junk => (s.table.step (.malloc j new junk)).map fun table => { s with table := table }

/-- After `init_client` and `init_kv_store`, before any thread has run. The results array is
allocated memory with arbitrary contents. -/
def initial (cfg : Config n) (m : ℕ) (junk : Fin n → ℕ → BufferDescriptor) : System n m where
  ring := .initial n m
  table := initKvStore (Fin m) cfg.tableSize
  board _ := .zero
  client t := ⟨.loopTest, 0, 0, 0, junk t⟩
  server _ := .ringGet
  tags := []
  serverTag _ := none
  answers _ _ := none

end System

/-- `n` client threads and `m` server threads under every interleaving. -/
def systemMachine {n : ℕ} (cfg : Config n) (m : ℕ) : Machine (System n m) (SystemAction n m) where
  init s := ∃ junk, s = System.initial cfg m junk
  step := System.step cfg

end Cs537.KvStore
