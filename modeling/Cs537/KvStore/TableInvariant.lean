import Cs537.Lib.Threads
import Cs537.KvStore.Table

/-! # What holds between any two accesses to the hash table

The chains only grow at the front and the keys and links of a linked node never change, so a reader
that holds no lock still walks a suffix of the current chain. A `put` takes effect when it stores the
value of a linked node or publishes a new one. A `get` takes effect when it loads the value of the
node it found; a `get` whose key is not in the chain it is about to walk takes effect when it loads
the bucket head, because no later insertion can appear in that suffix.
-/

namespace Cs537.KvStore

open Lib

/-- The sequential store: absent keys read zero. -/
def kvObject : Object (Key → Value) KvOp KvRet where
  init _ := 0
  apply map
    | .put k v => (Function.update map k v, .done)
    | .get k => (map, .value (map k))

abbrev KvCommit := Commit ℕ KvOp KvRet

theorem kvObject_after_put (order : List KvCommit) (id : ℕ) (k : Key) (v : Value) (ret : KvRet) :
    kvObject.after (order ++ [⟨id, .put k v, ret⟩]) = Function.update (kvObject.after order) k v := by
  rw [Object.after_snoc]
  rfl

theorem kvObject_after_get (order : List KvCommit) (id : ℕ) (k : Key) (ret : KvRet) :
    kvObject.after (order ++ [⟨id, .get k, ret⟩]) = kvObject.after order := by
  rw [Object.after_snoc]
  rfl

/-- The nodes from a pointer on, with their keys. Values may change under a chain. -/
inductive Chain (heap : Addr → Option KeyvalueNode) : Option Addr → List (Addr × Key) → Prop
  | nil : Chain heap none []
  | cons {a : Addr} {k : Key} {v : Value} {next : Option Addr} {rest : List (Addr × Key)} :
      heap a = some ⟨k, v, next⟩ → Chain heap next rest → Chain heap (some a) ((a, k) :: rest)

namespace Chain

variable {heap heap' : Addr → Option KeyvalueNode} {ptr : Option Addr} {nodes : List (Addr × Key)}

/-- A pointer determines its chain. -/
theorem unique {others : List (Addr × Key)} (first : Chain heap ptr nodes)
    (second : Chain heap ptr others) : nodes = others := by
  induction first generalizing others with
  | nil => cases second; rfl
  | cons read _ ih =>
    cases second with
    | cons read' rest' =>
      cases read.symm.trans read'
      rw [ih rest']

/-- Writes that keep the keys and links of the listed nodes keep the chain. -/
theorem frame (chain : Chain heap ptr nodes)
    (keeps : ∀ e ∈ nodes, ∀ cell, heap e.1 = some cell →
      ∃ v, heap' e.1 = some { cell with v := v }) : Chain heap' ptr nodes := by
  induction chain with
  | nil => exact .nil
  | cons read _ ih =>
    obtain ⟨v, read'⟩ := keeps _ (List.mem_cons_self ..) _ read
    exact .cons read' (ih fun e member => keeps e (List.mem_cons_of_mem _ member))

theorem allocated (chain : Chain heap ptr nodes) {e : Addr × Key} (member : e ∈ nodes) :
    ∃ v next, heap e.1 = some ⟨e.2, v, next⟩ := by
  induction chain with
  | nil => simp at member
  | cons read _ ih =>
    rcases List.mem_cons.mp member with rfl | later
    · exact ⟨_, _, read⟩
    · exact ih later

/-- At a node inside the chain, the link is the head of the remaining chain. -/
theorem split {before rest : List (Addr × Key)} {a : Addr} {k : Key}
    (chain : Chain heap ptr (before ++ (a, k) :: rest)) :
    ∃ v next, heap a = some ⟨k, v, next⟩ ∧ Chain heap next rest := by
  generalize eq : before ++ (a, k) :: rest = nodes at chain
  induction chain generalizing before with
  | nil => simp at eq
  | cons read tail ih =>
    cases before with
    | nil =>
      obtain ⟨head, rfl⟩ := List.cons.inj eq
      cases head
      exact ⟨_, _, read, tail⟩
    | cons e before => exact ih (List.cons.inj eq).2

end Chain

namespace TablePc

/-- The identity of the call in progress. -/
def callId : TablePc → Option ℕ
  | .idle => none
  | .putLock f | .putLoadHead f | .putLoadK f _ | .putStoreV f _ | .putLoadNext f _ | .putMalloc f
  | .putInitK f _ | .putInitV f _ | .putReloadHead f _ | .putInitNext f _ _ | .putPublish f _
  | .putUnlock f | .putReturn f => some f.id
  | .getLoadHead f | .getLoadK f _ | .getLoadV f _ | .getLoadNext f _ | .getReturn f _ => some f.id

/-- The key whose bucket lock the thread holds. -/
def lockedKey : TablePc → Option Key
  | .putLoadHead f | .putLoadK f _ | .putStoreV f _ | .putLoadNext f _ | .putMalloc f
  | .putInitK f _ | .putInitV f _ | .putReloadHead f _ | .putInitNext f _ _ | .putPublish f _
  | .putUnlock f => some f.k
  | _ => none

/-- The node the thread has allocated and not linked. -/
def freshNode : TablePc → Option Addr
  | .putInitK _ new | .putInitV _ new | .putReloadHead _ new | .putInitNext _ new _
  | .putPublish _ new => some new
  | _ => none

/-- Whether the thread holds the lock of the given bucket. -/
def holds (size i : ℕ) (pc : TablePc) : Bool :=
  pc.lockedKey.map (hashFunction · size) == some i

end TablePc

variable {τ : Type}

/-- The call is in the history and has not taken effect. -/
def Pending (s : Table τ) (order : List KvCommit) (id : ℕ) (op : KvOp) : Prop :=
  .inv id op ∈ s.history ∧ id ∉ order.map Commit.id

/-- A reader about to walk nodes with the given keys: it will find its key, or has already missed. -/
def Searching (s : Table τ) (order : List KvCommit) (f : GetFrame) (keys : List Key) : Prop :=
  f.k ∈ keys ∧ Pending s order f.id (.get f.k) ∨ f.k ∉ keys ∧ ⟨f.id, .get f.k, .value 0⟩ ∈ order

/-- A writer whose key is in no node of its bucket, holding a node that no chain contains. -/
def Inserting (s : Table τ) (chain : ℕ → List (Addr × Key)) (order : List KvCommit) (f : PutFrame)
    (new : Addr) : Prop :=
  Pending s order f.id (.put f.k f.v) ∧ f.k ∉ (chain (s.index f.k)).map Prod.snd ∧
    ∀ i, ∀ e ∈ chain i, e.1 ≠ new

/-- What a thread relies on at each program point. -/
def ThreadOk (s : Table τ) (chain : ℕ → List (Addr × Key)) (order : List KvCommit) : TablePc → Prop
  | .idle => True
  | .putLock f | .putLoadHead f => Pending s order f.id (.put f.k f.v)
  | .putLoadK f node => Pending s order f.id (.put f.k f.v) ∧ ∃ before key rest,
      chain (s.index f.k) = before ++ (node, key) :: rest ∧ f.k ∉ before.map Prod.snd
  | .putStoreV f node => Pending s order f.id (.put f.k f.v) ∧ (node, f.k) ∈ chain (s.index f.k)
  | .putLoadNext f node => Pending s order f.id (.put f.k f.v) ∧ ∃ before key rest,
      chain (s.index f.k) = before ++ (node, key) :: rest ∧ f.k ∉ before.map Prod.snd ∧ key ≠ f.k
  | .putMalloc f => Pending s order f.id (.put f.k f.v) ∧ f.k ∉ (chain (s.index f.k)).map Prod.snd
  | .putInitK f new => Inserting s chain order f new ∧ ∃ cell, s.heap new = some cell
  | .putInitV f new => Inserting s chain order f new ∧ ∃ v next, s.heap new = some ⟨f.k, v, next⟩
  | .putReloadHead f new => Inserting s chain order f new ∧ ∃ next, s.heap new = some ⟨f.k, f.v, next⟩
  | .putInitNext f new head => Inserting s chain order f new ∧
      (∃ next, s.heap new = some ⟨f.k, f.v, next⟩) ∧ head = s.vHead (s.index f.k)
  | .putPublish f new => Inserting s chain order f new ∧
      s.heap new = some ⟨f.k, f.v, s.vHead (s.index f.k)⟩
  | .putUnlock f | .putReturn f => ⟨f.id, .put f.k f.v, .done⟩ ∈ order
  | .getLoadHead f => Pending s order f.id (.get f.k)
  | .getLoadK f node => ∃ before key rest, chain (s.index f.k) = before ++ (node, key) :: rest ∧
      Searching s order f (key :: rest.map Prod.snd)
  | .getLoadV f node => Pending s order f.id (.get f.k) ∧ (node, f.k) ∈ chain (s.index f.k)
  | .getLoadNext f node => ∃ before key rest, chain (s.index f.k) = before ++ (node, key) :: rest ∧
      Searching s order f (rest.map Prod.snd)
  | .getReturn f output => ⟨f.id, .get f.k, .value output⟩ ∈ order

/-- The heap represents the state of the sequential store, bucket by bucket. -/
structure StoreOk (s : Table τ) (chain : ℕ → List (Addr × Key)) (order : List KvCommit) : Prop where
  lin : Linearization kvObject s.history order
  ids : ∀ id op, .inv id op ∈ s.history → id < s.nextId
  chains : ∀ i, Chain s.heap (s.vHead i) (chain i)
  distinct : ∀ i, ((chain i).map Prod.snd).Nodup
  hashed : ∀ i, ∀ e ∈ chain i, s.index e.2 = i
  present : ∀ i, ∀ e ∈ chain i, ∃ next, s.heap e.1 = some ⟨e.2, kvObject.after order e.2, next⟩
  absent : ∀ k, k ∉ (chain (s.index k)).map Prod.snd → kvObject.after order k = 0

/-- The invariant of the table under every interleaving. -/
structure TableInv (s : Table τ) (chain : ℕ → List (Addr × Key)) (order : List KvCommit) : Prop where
  store : StoreOk s chain order
  locks : ∀ i, HeldBy (TablePc.holds s.size i) s.pc (s.vLocks i)
  threads : ∀ t, ThreadOk s chain order (s.pc t)
  calls : Exclusive TablePc.callId s.pc
  calls_lt : ∀ t id, (s.pc t).callId = some id → id < s.nextId
  fresh : Exclusive TablePc.freshNode s.pc

end Cs537.KvStore
