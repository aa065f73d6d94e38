import Cs537.Lib.Linearizability
import Cs537.Lib.Machine
import Cs537.KvStore.Common

/-! # The hash table, one memory access at a time

`put` runs under the lock of its bucket and `get` under no lock, so every load and store of a shared
location is a step of its own: the bucket head, and the key, value and link of a node. A program
point names the access the thread performs next and carries the locals it still needs. The heap is
partial, because a node exists only after `malloc`; which address `malloc` returns and what the
fresh memory holds is left to the environment.
-/

namespace Cs537.KvStore

open Lib

abbrev Addr := ℕ

/-- `struct keyvalue_node`; the null pointer is `none`. -/
structure KeyvalueNode where
  k : Key
  v : Value
  next : Option Addr
deriving DecidableEq, Repr

/-- The two operations of the store. -/
inductive KvOp where
  | put (k : Key) (v : Value)
  | get (k : Key)
deriving DecidableEq, Repr

/-- What the two operations return. -/
inductive KvRet where
  | done
  | value (v : Value)
deriving DecidableEq, Repr

/-- The arguments of a `put` call, and the identity of the call. -/
structure PutFrame where
  id : ℕ
  k : Key
  v : Value
deriving DecidableEq, Repr

/-- The argument of a `get` call, and the identity of the call. -/
structure GetFrame where
  id : ℕ
  k : Key
deriving DecidableEq, Repr

/-- The next shared access of a thread inside `put` or `get`. -/
inductive TablePc where
  | idle
  | putLock (f : PutFrame)
  | putLoadHead (f : PutFrame)
  | putLoadK (f : PutFrame) (node : Addr)
  | putStoreV (f : PutFrame) (node : Addr)
  | putLoadNext (f : PutFrame) (node : Addr)
  | putMalloc (f : PutFrame)
  | putInitK (f : PutFrame) (new : Addr)
  | putInitV (f : PutFrame) (new : Addr)
  | putReloadHead (f : PutFrame) (new : Addr)
  | putInitNext (f : PutFrame) (new : Addr) (head : Option Addr)
  | putPublish (f : PutFrame) (new : Addr)
  | putUnlock (f : PutFrame)
  | putReturn (f : PutFrame)
  | getLoadHead (f : GetFrame)
  | getLoadK (f : GetFrame) (node : Addr)
  | getLoadV (f : GetFrame) (node : Addr)
  | getLoadNext (f : GetFrame) (node : Addr)
  | getReturn (f : GetFrame) (output : Value)
deriving DecidableEq, Repr

abbrev KvEvent := Event ℕ KvOp KvRet

/-- `hashtable`, the heap its nodes live in, the threads inside `put` and `get`, and the history of
their calls. -/
structure Table (τ : Type) where
  size : ℕ
  vHead : ℕ → Option Addr
  vLocks : ℕ → Option τ
  heap : Addr → Option KeyvalueNode
  pc : τ → TablePc
  nextId : ℕ
  history : List KvEvent

/-- `init_kv_store`. -/
def initKvStore (τ : Type) (size : ℕ) : Table τ where
  size := size
  vHead _ := none
  vLocks _ := none
  heap _ := none
  pc _ := .idle
  nextId := 0
  history := []

/-- A thread makes a call, receives memory from `malloc`, or performs its next access. -/
inductive TableAction (τ : Type) where
  | callPut (t : τ) (k : Key) (v : Value)
  | callGet (t : τ) (k : Key)
  | malloc (t : τ) (new : Addr) (junk : KeyvalueNode)
  | access (t : τ)
deriving DecidableEq, Repr

namespace Table

variable {τ : Type} [DecidableEq τ]

/-- `hash_function(k, hashtable.size)`. -/
def index (s : Table τ) (k : Key) : ℕ := hashFunction k s.size

def goto (s : Table τ) (t : τ) (pc : TablePc) : Table τ :=
  { s with pc := Function.update s.pc t pc }

def call (s : Table τ) (t : τ) (op : KvOp) : Table τ :=
  let pc := match op with
    | .put k v => TablePc.putLock ⟨s.nextId, k, v⟩
    | .get k => TablePc.getLoadHead ⟨s.nextId, k⟩
  { s with
    pc := Function.update s.pc t pc
    nextId := s.nextId + 1
    history := s.history ++ [.inv s.nextId op] }

def respond (s : Table τ) (t : τ) (id : ℕ) (ret : KvRet) : Table τ :=
  { s with
    pc := Function.update s.pc t .idle
    history := s.history ++ [.res id ret] }

/-- The loop head of `put`: the scan goes on at the next node or has found nothing. -/
def putScan (f : PutFrame) : Option Addr → TablePc
  | some node => .putLoadK f node
  | none => .putMalloc f

/-- The loop head of `get`: the scan goes on at the next node or returns the default. -/
def getScan (f : GetFrame) : Option Addr → TablePc
  | some node => .getLoadK f node
  | none => .getReturn f 0

/-- The next shared access of a thread. A lock that is held and an address that is not allocated
give no step. -/
def access (s : Table τ) (t : τ) : Option (Table τ) :=
  match s.pc t with
  | .idle => none
  | .putLock f =>
      if s.vLocks (s.index f.k) = none then
        some { s.goto t (.putLoadHead f) with
          vLocks := Function.update s.vLocks (s.index f.k) (some t) }
      else none
  | .putLoadHead f => some (s.goto t (putScan f (s.vHead (s.index f.k))))
  | .putLoadK f node => (s.heap node).map fun cell =>
      s.goto t (if cell.k = f.k then .putStoreV f node else .putLoadNext f node)
  | .putStoreV f node => (s.heap node).map fun cell =>
      { s.goto t (.putUnlock f) with
        heap := Function.update s.heap node (some { cell with v := f.v }) }
  | .putLoadNext f node => (s.heap node).map fun cell => s.goto t (putScan f cell.next)
  | .putMalloc _ => none
  | .putInitK f new => (s.heap new).map fun cell =>
      { s.goto t (.putInitV f new) with
        heap := Function.update s.heap new (some { cell with k := f.k }) }
  | .putInitV f new => (s.heap new).map fun cell =>
      { s.goto t (.putReloadHead f new) with
        heap := Function.update s.heap new (some { cell with v := f.v }) }
  | .putReloadHead f new => some (s.goto t (.putInitNext f new (s.vHead (s.index f.k))))
  | .putInitNext f new head => (s.heap new).map fun cell =>
      { s.goto t (.putPublish f new) with
        heap := Function.update s.heap new (some { cell with next := head }) }
  | .putPublish f new =>
      some { s.goto t (.putUnlock f) with
        vHead := Function.update s.vHead (s.index f.k) (some new) }
  | .putUnlock f =>
      some { s.goto t (.putReturn f) with
        vLocks := Function.update s.vLocks (s.index f.k) none }
  | .putReturn f => some (s.respond t f.id .done)
  | .getLoadHead f => some (s.goto t (getScan f (s.vHead (s.index f.k))))
  | .getLoadK f node => (s.heap node).map fun cell =>
      s.goto t (if cell.k = f.k then .getLoadV f node else .getLoadNext f node)
  | .getLoadV f node => (s.heap node).map fun cell => s.goto t (.getReturn f cell.v)
  | .getLoadNext f node => (s.heap node).map fun cell => s.goto t (getScan f cell.next)
  | .getReturn f output => some (s.respond t f.id (.value output))

/-- One step of one thread. -/
def step (s : Table τ) : TableAction τ → Option (Table τ)
  | .callPut t k v => if s.pc t = .idle then some (s.call t (.put k v)) else none
  | .callGet t k => if s.pc t = .idle then some (s.call t (.get k)) else none
  | .malloc t new junk =>
      match s.pc t with
      | .putMalloc f =>
          if s.heap new = none then
            some { s.goto t (.putInitK f new) with
              heap := Function.update s.heap new (some junk) }
          else none
      | _ => none
  | .access t => s.access t

end Table

/-- Threads calling `put` and `get` on a table of the given size. -/
def tableMachine (τ : Type) [DecidableEq τ] (size : ℕ) : Machine (Table τ) (TableAction τ) where
  init s := s = initKvStore τ size
  step := Table.step

end Cs537.KvStore
