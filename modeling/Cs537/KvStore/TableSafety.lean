import Cs537.KvStore.TableInvariant

/-! # The hash table is linearizable

One lemma per kind of access shows that the invariant survives it. `ThreadOk.frame` carries the other
threads across: their calls stay as they are, chains grow only in front of what they walk, the bucket
they have locked does not move, and the node they have not yet linked is theirs alone.
-/

namespace Cs537.KvStore

open Lib

variable {τ : Type}

theorem ThreadOk.frame {s s' : Table τ} {chain chain' : ℕ → List (Addr × Key)}
    {order order' : List KvCommit} {pc : TablePc} (ok : ThreadOk s chain order pc)
    (size : s'.size = s.size)
    (pending : ∀ id op, pc.callId = some id → Pending s order id op → Pending s' order' id op)
    (committed : ∀ c ∈ order, c ∈ order')
    (suffix : ∀ i before rest, chain i = before ++ rest → ∃ before', chain' i = before' ++ rest)
    (locked : ∀ k, pc.lockedKey = some k →
      chain' (s.index k) = chain (s.index k) ∧ s'.vHead (s.index k) = s.vHead (s.index k))
    (linked : ∀ a, pc.freshNode = some a → s'.heap a = s.heap a ∧
      ((∀ i, ∀ e ∈ chain i, e.1 ≠ a) → ∀ i, ∀ e ∈ chain' i, e.1 ≠ a)) :
    ThreadOk s' chain' order' pc := by
  have index (k : Key) : s'.index k = s.index k := by simp only [Table.index, size]
  have member {i : ℕ} {e : Addr × Key} (inside : e ∈ chain i) : e ∈ chain' i := by
    obtain ⟨before, rest, split⟩ := List.append_of_mem inside
    obtain ⟨before', split'⟩ := suffix i before _ split
    rw [split']
    simp
  have searching (f : GetFrame) (keys : List Key) (own : pc.callId = some f.id)
      (search : Searching s order f keys) : Searching s' order' f keys := by
    rcases search with ⟨found, wait⟩ | ⟨missing, done⟩
    · exact .inl ⟨found, pending _ _ own wait⟩
    · exact .inr ⟨missing, committed _ done⟩
  have inserting (f : PutFrame) (new : Addr) (own : pc.callId = some f.id)
      (lock : pc.lockedKey = some f.k) (node : pc.freshNode = some new)
      (insert : Inserting s chain order f new) : Inserting s' chain' order' f new := by
    obtain ⟨wait, missing, apart⟩ := insert
    refine ⟨pending _ _ own wait, ?_, (linked new node).2 apart⟩
    rw [index, (locked f.k lock).1]
    exact missing
  cases pc with
  | idle => trivial
  | putLock f => exact pending _ _ rfl ok
  | putLoadHead f => exact pending _ _ rfl ok
  | putLoadK f node =>
    refine ⟨pending _ _ rfl ok.1, ?_⟩
    rw [index, (locked f.k rfl).1]
    exact ok.2
  | putStoreV f node =>
    refine ⟨pending _ _ rfl ok.1, ?_⟩
    rw [index]
    exact member ok.2
  | putLoadNext f node =>
    refine ⟨pending _ _ rfl ok.1, ?_⟩
    rw [index, (locked f.k rfl).1]
    exact ok.2
  | putMalloc f =>
    refine ⟨pending _ _ rfl ok.1, ?_⟩
    rw [index, (locked f.k rfl).1]
    exact ok.2
  | putInitK f new =>
    refine ⟨inserting f new rfl rfl rfl ok.1, ?_⟩
    rw [(linked new rfl).1]
    exact ok.2
  | putInitV f new =>
    refine ⟨inserting f new rfl rfl rfl ok.1, ?_⟩
    rw [(linked new rfl).1]
    exact ok.2
  | putReloadHead f new =>
    refine ⟨inserting f new rfl rfl rfl ok.1, ?_⟩
    rw [(linked new rfl).1]
    exact ok.2
  | putInitNext f new head =>
    refine ⟨inserting f new rfl rfl rfl ok.1, ?_⟩
    rw [(linked new rfl).1, index, (locked f.k rfl).2]
    exact ok.2
  | putPublish f new =>
    refine ⟨inserting f new rfl rfl rfl ok.1, ?_⟩
    rw [(linked new rfl).1, index, (locked f.k rfl).2]
    exact ok.2
  | putUnlock f => exact committed _ ok
  | putReturn f => exact committed _ ok
  | getLoadHead f => exact pending _ _ rfl ok
  | getLoadK f node =>
    obtain ⟨before, key, rest, split, search⟩ := ok
    obtain ⟨before', split'⟩ := suffix _ before _ split
    exact ⟨before', key, rest, by rw [index, split'], searching f _ rfl search⟩
  | getLoadV f node =>
    refine ⟨pending _ _ rfl ok.1, ?_⟩
    rw [index]
    exact member ok.2
  | getLoadNext f node =>
    obtain ⟨before, key, rest, split, search⟩ := ok
    obtain ⟨before', split'⟩ := suffix _ before _ split
    exact ⟨before', key, rest, by rw [index, split'], searching f _ rfl search⟩
  | getReturn f output => exact committed _ ok

/-- A node that is not linked yet has been allocated. -/
theorem ThreadOk.fresh_allocated {s : Table τ} {chain : ℕ → List (Addr × Key)}
    {order : List KvCommit} {pc : TablePc} (ok : ThreadOk s chain order pc) {a : Addr}
    (fresh : pc.freshNode = some a) : s.heap a ≠ none ∧ ∀ i, ∀ e ∈ chain i, e.1 ≠ a := by
  cases pc with
  | putInitK f new =>
    obtain rfl := Option.some.inj fresh
    obtain ⟨⟨_, _, apart⟩, cell, read⟩ := ok
    exact ⟨by simp [read], apart⟩
  | putInitV f new =>
    obtain rfl := Option.some.inj fresh
    obtain ⟨⟨_, _, apart⟩, v, next, read⟩ := ok
    exact ⟨by simp [read], apart⟩
  | putReloadHead f new =>
    obtain rfl := Option.some.inj fresh
    obtain ⟨⟨_, _, apart⟩, next, read⟩ := ok
    exact ⟨by simp [read], apart⟩
  | putInitNext f new head =>
    obtain rfl := Option.some.inj fresh
    obtain ⟨⟨_, _, apart⟩, ⟨next, read⟩, _⟩ := ok
    exact ⟨by simp [read], apart⟩
  | putPublish f new =>
    obtain rfl := Option.some.inj fresh
    obtain ⟨⟨_, _, apart⟩, read⟩ := ok
    exact ⟨by simp [read], apart⟩
  | _ => cases fresh

section Moves

variable [DecidableEq τ] {s s' : Table τ} {chain chain' : ℕ → List (Addr × Key)}
  {order order' : List KvCommit} {t : τ} {pc : TablePc} {f : PutFrame} {g : GetFrame}

/-- Reassemble the invariant after one thread has moved. -/
theorem TableInv.move (inv : TableInv s chain order) (pcs : s'.pc = Function.update s.pc t pc)
    (store : StoreOk s' chain' order')
    (locks : ∀ i, HeldBy (TablePc.holds s'.size i) s'.pc (s'.vLocks i))
    (own : ThreadOk s' chain' order' pc)
    (others : ∀ u, u ≠ t → ThreadOk s' chain' order' (s.pc u))
    (nextId : s.nextId ≤ s'.nextId)
    (call : pc.callId = none ∨ pc.callId = (s.pc t).callId ∨
      pc.callId = some s.nextId ∧ s.nextId < s'.nextId)
    (fresh : pc.freshNode = none ∨ pc.freshNode = (s.pc t).freshNode ∨
      ∃ a, pc.freshNode = some a ∧ s.heap a = none) : TableInv s' chain' order' := by
  have callLt (id : ℕ) (own : pc.callId = some id) : id < s'.nextId := by
    rcases call with none | same | ⟨new, lt⟩
    · rw [none] at own; cases own
    · exact lt_of_lt_of_le (inv.calls_lt t id (same ▸ own)) nextId
    · rw [new] at own; cases own; exact lt
  refine ⟨store, locks, ?_, ?_, ?_, ?_⟩
  · intro u
    rw [pcs]
    by_cases eq : u = t
    · subst eq
      rw [Function.update_self]
      exact own
    · rw [Function.update_of_ne eq]
      exact others u eq
  · rw [pcs]
    apply inv.calls.update
    intro u id ne mine theirs
    rcases call with none | same | ⟨new, _⟩
    · rw [none] at mine; cases mine
    · exact ne (inv.calls u t id theirs (same ▸ mine))
    · rw [new] at mine
      cases mine
      exact lt_irrefl _ (inv.calls_lt u _ theirs)
  · intro u id mine
    rw [pcs] at mine
    by_cases eq : u = t
    · subst eq
      rw [Function.update_self] at mine
      exact callLt id mine
    · rw [Function.update_of_ne eq] at mine
      exact lt_of_lt_of_le (inv.calls_lt u id mine) nextId
  · rw [pcs]
    apply inv.fresh.update
    intro u a ne mine theirs
    rcases fresh with none | same | ⟨b, new, unused⟩
    · rw [none] at mine; cases mine
    · exact ne (inv.fresh u t a theirs (same ▸ mine))
    · rw [new] at mine
      cases mine
      exact ((inv.threads u).fresh_allocated theirs).1 unused

omit [DecidableEq τ] in
/-- The other threads keep what they rely on when one thread commits at most its own call, chains grow
only in front, and neither their locked buckets nor their unlinked nodes are touched. -/
theorem TableInv.others (inv : TableInv s chain order) (size : s'.size = s.size)
    (history : ∀ e ∈ s.history, e ∈ s'.history)
    (commits : order' = order ∨ ∃ c, order' = order ++ [c] ∧ (s.pc t).callId = some c.id)
    (suffix : ∀ i before rest, chain i = before ++ rest → ∃ before', chain' i = before' ++ rest)
    (locked : ∀ u k, u ≠ t → (s.pc u).lockedKey = some k →
      chain' (s.index k) = chain (s.index k) ∧ s'.vHead (s.index k) = s.vHead (s.index k))
    (linked : ∀ u a, u ≠ t → (s.pc u).freshNode = some a → s'.heap a = s.heap a ∧
      ((∀ i, ∀ e ∈ chain i, e.1 ≠ a) → ∀ i, ∀ e ∈ chain' i, e.1 ≠ a)) :
    ∀ u, u ≠ t → ThreadOk s' chain' order' (s.pc u) := by
  intro u ne
  refine (inv.threads u).frame size ?_ ?_ suffix (fun k => locked u k ne) (fun a => linked u a ne)
  · rintro id op theirs ⟨invoked, waiting⟩
    refine ⟨history _ invoked, ?_⟩
    rcases commits with rfl | ⟨c, rfl, mine⟩
    · exact waiting
    · intro member
      rw [List.map_append, List.mem_append, List.map_singleton, List.mem_singleton] at member
      rcases member with old | rfl
      · exact waiting old
      · exact ne (inv.calls u t _ theirs mine)
  · intro c member
    rcases commits with rfl | ⟨d, rfl, _⟩
    · exact member
    · exact List.mem_append_left _ member

/-- A load that only changes the thread's own program point. -/
theorem TableInv.goto (inv : TableInv s chain order) (own : ThreadOk s chain order pc)
    (call : pc.callId = (s.pc t).callId) (lock : pc.lockedKey = (s.pc t).lockedKey)
    (fresh : pc.freshNode = none ∨ pc.freshNode = (s.pc t).freshNode) :
    TableInv (s.goto t pc) chain order :=
  inv.move rfl { inv.store with } (fun i => (inv.locks i).keep (by simp only [TablePc.holds, lock]))
    own (fun u _ => inv.threads u) le_rfl (.inr (.inl call)) (fresh.imp_right .inl)

omit [DecidableEq τ] in
/-- A reader takes effect with the current value of its key. -/
private theorem StoreOk.commitGet (store : StoreOk s chain order) {f : GetFrame}
    (pending : Pending s order f.id (.get f.k)) :
    StoreOk s chain (order ++ [⟨f.id, .get f.k, .value (kvObject.after order f.k)⟩]) where
  lin := store.lin.commit pending.1 pending.2 rfl
  ids := store.ids
  chains := store.chains
  distinct := store.distinct
  hashed := store.hashed
  present := by simpa only [kvObject_after_get] using store.present
  absent := by simpa only [kvObject_after_get] using store.absent

/-- A load that is the instant at which a reader takes effect. -/
theorem TableInv.gotoCommit (inv : TableInv s chain order) {f : GetFrame}
    (pending : Pending s order f.id (.get f.k)) (at_pc : (s.pc t).callId = some f.id)
    (own : ThreadOk s chain (order ++ [⟨f.id, .get f.k, .value (kvObject.after order f.k)⟩]) pc)
    (call : pc.callId = (s.pc t).callId) (lock : pc.lockedKey = (s.pc t).lockedKey)
    (fresh : pc.freshNode = none) :
    TableInv (s.goto t pc) chain
      (order ++ [⟨f.id, .get f.k, .value (kvObject.after order f.k)⟩]) :=
  inv.move rfl { inv.store.commitGet pending with }
    (fun i => (inv.locks i).keep (by simp only [TablePc.holds, lock])) own
    (inv.others rfl (fun _ member => member) (.inr ⟨_, rfl, at_pc⟩)
      (fun _ before _ split => ⟨before, split⟩) (fun _ _ _ _ => ⟨rfl, rfl⟩)
      (fun _ _ _ _ => ⟨rfl, fun apart => apart⟩))
    le_rfl (.inr (.inl call)) (.inl fresh)

omit [DecidableEq τ] in
/-- The loop of `get` continues with the nodes it has not seen. -/
theorem getScan_ok {f : GetFrame} {ptr : Option Addr} (before : List (Addr × Key))
    {nodes : List (Addr × Key)}
    (reach : Chain s.heap ptr nodes) (split : chain (s.index f.k) = before ++ nodes)
    (search : Searching s order f (nodes.map Prod.snd)) :
    ThreadOk s chain order (Table.getScan f ptr) := by
  cases reach with
  | nil =>
    rcases search with ⟨found, _⟩ | ⟨_, done⟩
    · simp at found
    · exact done
  | cons read rest => exact ⟨before, _, _, split, search⟩

omit [DecidableEq τ] in
/-- The loop of `put` continues with the nodes it has not seen, under the bucket lock. -/
theorem putScan_ok {f : PutFrame} {ptr : Option Addr} (before : List (Addr × Key))
    {nodes : List (Addr × Key)}
    (reach : Chain s.heap ptr nodes) (split : chain (s.index f.k) = before ++ nodes)
    (pending : Pending s order f.id (.put f.k f.v)) (unseen : f.k ∉ before.map Prod.snd) :
    ThreadOk s chain order (Table.putScan f ptr) := by
  cases reach with
  | nil =>
    rw [List.append_nil] at split
    exact ⟨pending, by rwa [split]⟩
  | cons read rest => exact ⟨pending, before, _, _, split, unseen⟩

private theorem putScan_labels (f : PutFrame) (ptr : Option Addr) :
    (Table.putScan f ptr).callId = some f.id ∧ (Table.putScan f ptr).lockedKey = some f.k ∧
      (Table.putScan f ptr).freshNode = none := by
  cases ptr <;> exact ⟨rfl, rfl, rfl⟩

private theorem getScan_labels (f : GetFrame) (ptr : Option Addr) :
    (Table.getScan f ptr).callId = some f.id ∧ (Table.getScan f ptr).lockedKey = none ∧
      (Table.getScan f ptr).freshNode = none := by
  cases ptr <;> exact ⟨rfl, rfl, rfl⟩

private theorem TableInv.callOp (inv : TableInv s chain order) (idle : s.pc t = .idle) (op : KvOp) :
    TableInv (s.call t op) chain order := by
  have unused (op' : KvOp) : Event.inv s.nextId op' ∉ s.history :=
    fun member => lt_irrefl _ (inv.store.ids _ _ member)
  have pending : Pending (s.call t op) order s.nextId op := by
    refine ⟨List.mem_append_right _ (List.mem_singleton_self _), ?_⟩
    intro member
    obtain ⟨c, inOrder, same⟩ := List.mem_map.mp member
    exact unused c.op (same ▸ inv.store.lin.invoked c inOrder)
  have store : StoreOk (s.call t op) chain order := { inv.store with
    lin := inv.store.lin.invoke unused
    ids := by
      intro id op' member
      rcases List.mem_append.mp member with old | new
      · exact Nat.lt_succ_of_lt (inv.store.ids id op' old)
      · cases List.mem_singleton.mp new
        exact Nat.lt_succ_self _ }
  have others : ∀ u, u ≠ t → ThreadOk (s.call t op) chain order (s.pc u) := inv.others rfl
    (fun _ member => List.mem_append_left _ member) (.inl rfl) (fun _ before _ split => ⟨before, split⟩)
    (fun _ _ _ _ => ⟨rfl, rfl⟩) (fun _ _ _ _ => ⟨rfl, fun apart => apart⟩)
  cases op with
  | put k v =>
    exact inv.move rfl store (fun i => (inv.locks i).keep (by rw [idle]; rfl)) pending others
      (Nat.le_succ _) (.inr (.inr ⟨rfl, Nat.lt_succ_self _⟩)) (.inl rfl)
  | get k =>
    exact inv.move rfl store (fun i => (inv.locks i).keep (by rw [idle]; rfl)) pending others
      (Nat.le_succ _) (.inr (.inr ⟨rfl, Nat.lt_succ_self _⟩)) (.inl rfl)

/-- A call that has taken effect returns. -/
theorem TableInv.return (inv : TableInv s chain order) {c : KvCommit} (committed : c ∈ order)
    (unlocked : (s.pc t).lockedKey = none) : TableInv (s.respond t c.id c.ret) chain order :=
  inv.move rfl
    { inv.store with
      lin := inv.store.lin.respond committed
      ids := by
        intro id op member
        rcases List.mem_append.mp member with old | new
        · exact inv.store.ids id op old
        · cases List.mem_singleton.mp new }
    (fun i => (inv.locks i).keep (by simp only [TablePc.holds, unlocked]; rfl)) trivial
    (inv.others rfl (fun _ member => List.mem_append_left _ member) (.inl rfl)
      (fun _ before _ split => ⟨before, split⟩) (fun _ _ _ _ => ⟨rfl, rfl⟩)
      (fun _ _ _ _ => ⟨rfl, fun apart => apart⟩))
    le_rfl (.inl rfl) (.inl rfl)

/-- A write to a node that no chain contains and no other thread is preparing. -/
theorem TableInv.writeFresh (inv : TableInv s chain order) {new : Addr} {cell : KeyvalueNode}
    (apart : ∀ i, ∀ e ∈ chain i, e.1 ≠ new)
    (unshared : ∀ u, u ≠ t → (s.pc u).freshNode ≠ some new)
    (own : ThreadOk { s with heap := Function.update s.heap new (some cell) } chain order pc)
    (call : pc.callId = (s.pc t).callId) (lock : pc.lockedKey = (s.pc t).lockedKey)
    (fresh : pc.freshNode = (s.pc t).freshNode ∨ ∃ a, pc.freshNode = some a ∧ s.heap a = none) :
    TableInv { s.goto t pc with heap := Function.update s.heap new (some cell) } chain order := by
  have same (i : ℕ) (e : Addr × Key) (member : e ∈ chain i) :
      Function.update s.heap new (some cell) e.1 = s.heap e.1 :=
    Function.update_of_ne (apart i e member) _ _
  have store : StoreOk { s.goto t pc with heap := Function.update s.heap new (some cell) } chain order :=
    { inv.store with
      chains := fun i => (inv.store.chains i).frame (fun e member cell read =>
        ⟨cell.v, (same i e member).trans read⟩)
      present := fun i e member => by
        obtain ⟨next, read⟩ := inv.store.present i e member
        exact ⟨next, (same i e member).trans read⟩ }
  refine inv.move rfl store (fun i => (inv.locks i).keep (by simp only [TablePc.holds, lock])) own ?_
    le_rfl (.inr (.inl call)) (.inr fresh)
  refine inv.others rfl (fun _ member => member) (.inl rfl) (fun _ before _ split => ⟨before, split⟩)
    (fun _ _ _ _ => ⟨rfl, rfl⟩) ?_
  intro u a ne theirs
  refine ⟨Function.update_of_ne ?_ _ _, fun apart => apart⟩
  rintro rfl
  exact unshared u ne theirs

omit [DecidableEq τ] in
/-- One key has one node: the node is determined by the key. -/
private theorem StoreOk.node_unique (store : StoreOk s chain order) {i j : ℕ} {a b : Addr} {k : Key}
    (first : (a, k) ∈ chain i) (second : (b, k) ∈ chain j) : a = b := by
  have bucket : i = j := (store.hashed i (a, k) first).symm.trans (store.hashed j (b, k) second)
  subst bucket
  exact congrArg Prod.fst (List.inj_on_of_nodup_map (store.distinct i) first second rfl)

omit [DecidableEq τ] in
/-- A writer that found its key takes effect by storing the value. -/
theorem StoreOk.storeV (store : StoreOk s chain order) {f : PutFrame} {node : Addr}
    {cell : KeyvalueNode} (pending : Pending s order f.id (.put f.k f.v))
    (member : (node, f.k) ∈ chain (s.index f.k)) (read : s.heap node = some cell) :
    StoreOk { s with heap := Function.update s.heap node (some { cell with v := f.v }) } chain
      (order ++ [⟨f.id, .put f.k f.v, .done⟩]) where
  lin := store.lin.commit pending.1 pending.2 rfl
  ids := store.ids
  chains i := by
    apply (store.chains i).frame
    intro e _ old readOld
    by_cases eq : e.1 = node
    · rw [eq, read] at readOld
      cases readOld
      exact ⟨f.v, by dsimp only; rw [eq, Function.update_self]⟩
    · exact ⟨old.v, by dsimp only; rw [Function.update_of_ne eq, readOld]⟩
  distinct := store.distinct
  hashed := store.hashed
  present i e inside := by
    obtain ⟨next, readOld⟩ := store.present i e inside
    rw [kvObject_after_put]
    by_cases eq : e.1 = node
    · have key : e.2 = f.k := by
        obtain ⟨next', own⟩ := store.present _ _ member
        rw [eq] at readOld
        exact congrArg KeyvalueNode.k (Option.some.inj (readOld.symm.trans own))
      rw [eq, read] at readOld
      cases readOld
      exact ⟨next, by dsimp only; rw [eq, Function.update_self, key, Function.update_self]⟩
    · have key : e.2 ≠ f.k := by
        intro same
        have linked : (e.1, f.k) ∈ chain i := by rw [← same]; exact inside
        exact eq (store.node_unique linked member)
      exact ⟨next, by dsimp only; rw [Function.update_of_ne eq, Function.update_of_ne key, readOld]⟩
  absent k missing := by
    have key : k ≠ f.k := by
      rintro rfl
      exact missing (List.mem_map_of_mem member)
    rw [kvObject_after_put, Function.update_of_ne key]
    exact store.absent k missing

theorem TableInv.storeV (inv : TableInv s chain order) {f : PutFrame} {node : Addr}
    {cell : KeyvalueNode} (at_pc : s.pc t = .putStoreV f node) (read : s.heap node = some cell) :
    TableInv { s.goto t (.putUnlock f) with
      heap := Function.update s.heap node (some { cell with v := f.v }) } chain
      (order ++ [⟨f.id, .put f.k f.v, .done⟩]) := by
  have own := inv.threads t
  rw [at_pc] at own
  obtain ⟨pending, member⟩ := own
  refine inv.move rfl { inv.store.storeV pending member read with }
    (fun i => (inv.locks i).keep (by rw [at_pc]; rfl))
    (List.mem_append_right _ (List.mem_singleton_self _)) ?_ le_rfl
    (.inr (.inl (by rw [at_pc]; rfl))) (.inl rfl)
  refine inv.others rfl (fun _ member => member) (.inr ⟨_, rfl, by rw [at_pc]; rfl⟩)
    (fun _ before _ split => ⟨before, split⟩) (fun _ _ _ _ => ⟨rfl, rfl⟩) ?_
  intro u a ne theirs
  refine ⟨Function.update_of_ne ?_ _ _, fun apart => apart⟩
  rintro rfl
  exact ((inv.threads u).fresh_allocated theirs).2 _ _ member rfl

omit [DecidableEq τ] in
/-- A writer that found no node takes effect by making its own node the head of the bucket. -/
theorem StoreOk.publish (store : StoreOk s chain order) {f : PutFrame} {new : Addr}
    (inserting : Inserting s chain order f new)
    (read : s.heap new = some ⟨f.k, f.v, s.vHead (s.index f.k)⟩) :
    StoreOk { s with vHead := Function.update s.vHead (s.index f.k) (some new) }
      (Function.update chain (s.index f.k) ((new, f.k) :: chain (s.index f.k)))
      (order ++ [⟨f.id, .put f.k f.v, .done⟩]) := by
  obtain ⟨pending, missing, apart⟩ := inserting
  have members (i : ℕ) (e : Addr × Key)
      (inside : e ∈ Function.update chain (s.index f.k) ((new, f.k) :: chain (s.index f.k)) i) :
      e = (new, f.k) ∧ i = s.index f.k ∨ e ∈ chain i := by
    by_cases eq : i = s.index f.k
    · subst eq
      rw [Function.update_self] at inside
      exact (List.mem_cons.mp inside).imp_left (⟨·, rfl⟩)
    · rw [Function.update_of_ne eq] at inside
      exact .inr inside
  refine ⟨store.lin.commit pending.1 pending.2 rfl, store.ids, ?_, ?_, ?_, ?_, ?_⟩
  · intro i
    by_cases eq : i = s.index f.k
    · subst eq
      simp only [Function.update_self]
      exact .cons read (store.chains _)
    · simp only [Function.update_of_ne eq]
      exact store.chains i
  · intro i
    by_cases eq : i = s.index f.k
    · subst eq
      rw [Function.update_self]
      exact List.nodup_cons.mpr ⟨missing, store.distinct _⟩
    · rw [Function.update_of_ne eq]
      exact store.distinct i
  · intro i e inside
    rcases members i e inside with ⟨rfl, rfl⟩ | old
    · rfl
    · exact store.hashed i e old
  · intro i e inside
    rw [kvObject_after_put]
    rcases members i e inside with ⟨rfl, rfl⟩ | old
    · exact ⟨_, by rw [Function.update_self]; exact read⟩
    · have key : e.2 ≠ f.k := by
        intro same
        have bucket := store.hashed i e old
        rw [same] at bucket
        rw [bucket, ← same] at missing
        exact missing (List.mem_map_of_mem old)
      rw [Function.update_of_ne key]
      exact store.present i e old
  · intro k unlinked
    change k ∉ (Function.update chain (s.index f.k) _ (s.index k)).map Prod.snd at unlinked
    have key : k ≠ f.k := by
      rintro rfl
      simp [Function.update_self] at unlinked
    rw [kvObject_after_put, Function.update_of_ne key]
    apply store.absent
    intro inside
    apply unlinked
    by_cases eq : s.index k = s.index f.k
    · rw [eq, Function.update_self]
      rw [eq] at inside
      exact List.mem_cons_of_mem _ inside
    · rw [Function.update_of_ne eq]
      exact inside

private theorem TableInv.publish (inv : TableInv s chain order) {f : PutFrame} {new : Addr}
    (at_pc : s.pc t = .putPublish f new) :
    TableInv { s.goto t (.putUnlock f) with
      vHead := Function.update s.vHead (s.index f.k) (some new) }
      (Function.update chain (s.index f.k) ((new, f.k) :: chain (s.index f.k)))
      (order ++ [⟨f.id, .put f.k f.v, .done⟩]) := by
  have own := inv.threads t
  rw [at_pc] at own
  obtain ⟨inserting, read⟩ := own
  have mine : (s.pc t).holds s.size (s.index f.k) = true := by
    rw [at_pc]
    simp [TablePc.holds, TablePc.lockedKey, Table.index]
  refine inv.move rfl { inv.store.publish inserting read with }
    (fun i => (inv.locks i).keep (by rw [at_pc]; rfl))
    (List.mem_append_right _ (List.mem_singleton_self _)) ?_ le_rfl
    (.inr (.inl (by rw [at_pc]; rfl))) (.inl rfl)
  refine inv.others rfl (fun _ member => member) (.inr ⟨_, rfl, by rw [at_pc]; rfl⟩) ?_ ?_ ?_
  · intro i before rest split
    by_cases eq : i = s.index f.k
    · subst eq
      exact ⟨(new, f.k) :: before, by rw [Function.update_self, split]; rfl⟩
    · exact ⟨before, by rw [Function.update_of_ne eq, split]⟩
  · intro u k ne theirs
    have other : s.index k ≠ s.index f.k := by
      intro same
      apply ne
      apply (inv.locks (s.index f.k)).unique _ mine
      simp only [TablePc.holds, theirs, Option.map_some, beq_iff_eq, Option.some.injEq]
      exact same
    exact ⟨Function.update_of_ne other _ _, Function.update_of_ne other _ _⟩
  · intro u a ne theirs
    refine ⟨rfl, ?_⟩
    intro apart i e inside
    have other : new ≠ a := by
      rintro rfl
      exact ne (inv.fresh u t new theirs (by rw [at_pc]; rfl))
    by_cases eq : i = s.index f.k
    · subst eq
      rw [Function.update_self] at inside
      rcases List.mem_cons.mp inside with rfl | old
      · exact other
      · exact apart _ e old
    · rw [Function.update_of_ne eq] at inside
      exact apart i e inside

theorem TableInv.lock (inv : TableInv s chain order) {f : PutFrame} (at_pc : s.pc t = .putLock f)
    (unlocked : s.vLocks (s.index f.k) = none) :
    TableInv { s.goto t (.putLoadHead f) with
      vLocks := Function.update s.vLocks (s.index f.k) (some t) } chain order := by
  have own := inv.threads t
  rw [at_pc] at own
  refine inv.move rfl { inv.store with } ?_ own (fun u _ => inv.threads u) le_rfl
    (.inr (.inl (by rw [at_pc]; rfl))) (.inl rfl)
  intro i
  change HeldBy (TablePc.holds s.size i) (Function.update s.pc t (.putLoadHead f))
    (Function.update s.vLocks (s.index f.k) (some t) i)
  by_cases eq : i = s.index f.k
  · subst eq
    rw [Function.update_self]
    exact (unlocked ▸ inv.locks _).take (by simp [TablePc.holds, TablePc.lockedKey, Table.index])
  · rw [Function.update_of_ne eq]
    apply (inv.locks i).keep
    rw [at_pc]
    exact beq_false_of_ne (fun same => eq (Option.some.inj same).symm)

theorem TableInv.unlock (inv : TableInv s chain order) {f : PutFrame}
    (at_pc : s.pc t = .putUnlock f) :
    TableInv { s.goto t (.putReturn f) with
      vLocks := Function.update s.vLocks (s.index f.k) none } chain order := by
  have own := inv.threads t
  rw [at_pc] at own
  refine inv.move rfl { inv.store with } ?_ own (fun u _ => inv.threads u) le_rfl
    (.inr (.inl (by rw [at_pc]; rfl))) (.inl rfl)
  intro i
  change HeldBy (TablePc.holds s.size i) (Function.update s.pc t (.putReturn f))
    (Function.update s.vLocks (s.index f.k) none i)
  by_cases eq : i = s.index f.k
  · subst eq
    rw [Function.update_self]
    exact (inv.locks _).drop (i := t)
      (by rw [at_pc]; simp [TablePc.holds, TablePc.lockedKey, Table.index]) rfl
  · rw [Function.update_of_ne eq]
    apply (inv.locks i).keep
    rw [at_pc]
    exact (beq_false_of_ne (fun same => eq (Option.some.inj same).symm)).symm

theorem TableInv.putLoadHead (inv : TableInv s chain order) {f : PutFrame} (at_pc : s.pc t = .putLoadHead f) :
    TableInv (s.goto t (Table.putScan f (s.vHead (s.index f.k)))) chain order := by
  have own := inv.threads t
  rw [at_pc] at own
  obtain ⟨call, lock, fresh⟩ := putScan_labels f (s.vHead (s.index f.k))
  refine inv.goto ?_ (by rw [at_pc, call]; rfl) (by rw [at_pc, lock]; rfl) (.inl fresh)
  exact putScan_ok [] (inv.store.chains _) (List.nil_append _).symm own (by simp)

omit [DecidableEq τ] in
/-- A node of a chain, as the heap has it. -/
theorem TableInv.read_node (inv : TableInv s chain order) {i : ℕ} {before rest : List (Addr × Key)} {node : Addr}
    {key : Key}
    (split : chain i = before ++ (node, key) :: rest) {cell : KeyvalueNode} (read : s.heap node = some cell) :
    cell.k = key ∧ Chain s.heap cell.next rest := by
  have reach := inv.store.chains i
  rw [split] at reach
  obtain ⟨v, next, readNode, tail⟩ := reach.split
  cases read.symm.trans readNode
  exact ⟨rfl, tail⟩

theorem TableInv.putLoadK (inv : TableInv s chain order) {f : PutFrame} {node : Addr} {cell : KeyvalueNode}
    (at_pc : s.pc t = .putLoadK f node) (read : s.heap node = some cell) :
    TableInv (s.goto t (if cell.k = f.k then .putStoreV f node else .putLoadNext f node)) chain order := by
  have own := inv.threads t
  rw [at_pc] at own
  obtain ⟨pending, before, key, rest, split, unseen⟩ := own
  obtain ⟨rfl, _⟩ := inv.read_node split read
  split_ifs with same
  · refine inv.goto ⟨pending, ?_⟩ (by rw [at_pc]; rfl) (by rw [at_pc]; rfl) (.inl rfl)
    rw [split, ← same]
    simp
  · exact inv.goto ⟨pending, before, _, rest, split, unseen, same⟩ (by rw [at_pc]; rfl)
      (by rw [at_pc]; rfl) (.inl rfl)

theorem TableInv.putLoadNext (inv : TableInv s chain order) {f : PutFrame} {node : Addr} {cell : KeyvalueNode}
    (at_pc : s.pc t = .putLoadNext f node) (read : s.heap node = some cell) :
    TableInv (s.goto t (Table.putScan f cell.next)) chain order := by
  have own := inv.threads t
  rw [at_pc] at own
  obtain ⟨pending, before, key, rest, split, unseen, other⟩ := own
  obtain ⟨_, tail⟩ := inv.read_node split read
  obtain ⟨call, lock, fresh⟩ := putScan_labels f cell.next
  refine inv.goto ?_ (by rw [at_pc, call]; rfl) (by rw [at_pc, lock]; rfl) (.inl fresh)
  refine putScan_ok (before ++ [(node, key)]) tail (by rw [split]; simp) pending ?_
  simpa [Ne.symm other] using unseen

/-- A writer prepares the node that `malloc` gave it. -/
theorem TableInv.prepare (inv : TableInv s chain order) {f : PutFrame} {new : Addr}
    (inserting : Inserting s chain order f new)
    (mine : (s.pc t).freshNode = some new) {cell : KeyvalueNode} {pc : TablePc}
    (own : ThreadOk { s with heap := Function.update s.heap new (some cell) } chain order pc)
    (call : pc.callId = (s.pc t).callId) (lock : pc.lockedKey = (s.pc t).lockedKey)
    (fresh : pc.freshNode = (s.pc t).freshNode) :
    TableInv { s.goto t pc with heap := Function.update s.heap new (some cell) } chain order :=
  inv.writeFresh inserting.2.2 (fun u ne theirs => ne (inv.fresh u t new theirs mine)) own call lock (.inl fresh)

/-- A reader takes effect as it loads the head of a bucket that has not its key. -/
theorem TableInv.getLoadHead (inv : TableInv s chain order) {f : GetFrame} (at_pc : s.pc t = .getLoadHead f) :
    ∃ order', TableInv (s.goto t (Table.getScan f (s.vHead (s.index f.k)))) chain order' := by
  have own := inv.threads t
  rw [at_pc] at own
  obtain ⟨call, lock, fresh⟩ := getScan_labels f (s.vHead (s.index f.k))
  have reach := inv.store.chains (s.index f.k)
  by_cases found : f.k ∈ (chain (s.index f.k)).map Prod.snd
  · refine ⟨order, inv.goto ?_ (by rw [at_pc, call]; rfl) (by rw [at_pc, lock]; rfl) (.inl fresh)⟩
    exact getScan_ok [] reach (List.nil_append _).symm (.inl ⟨found, own⟩)
  · refine ⟨_, inv.gotoCommit own (by rw [at_pc]; rfl) ?_ (by rw [at_pc, call]; rfl)
      (by rw [at_pc, lock]; rfl) fresh⟩
    refine getScan_ok [] reach (List.nil_append _).symm (.inr ⟨found, ?_⟩)
    rw [inv.store.absent f.k found]
    simp

theorem TableInv.getLoadK (inv : TableInv s chain order) {f : GetFrame} {node : Addr} {cell : KeyvalueNode}
    (at_pc : s.pc t = .getLoadK f node) (read : s.heap node = some cell) :
    TableInv (s.goto t (if cell.k = f.k then .getLoadV f node else .getLoadNext f node)) chain order := by
  have own := inv.threads t
  rw [at_pc] at own
  obtain ⟨before, key, rest, split, search⟩ := own
  obtain ⟨rfl, _⟩ := inv.read_node split read
  split_ifs with same
  · have pending : Pending s order f.id (.get f.k) := by
      rcases search with ⟨_, pending⟩ | ⟨missing, _⟩
      · exact pending
      · exact (missing (List.mem_cons.mpr (.inl same.symm))).elim
    refine inv.goto ⟨pending, ?_⟩ (by rw [at_pc]; rfl) (by rw [at_pc]; rfl) (.inl rfl)
    rw [split, ← same]
    simp
  · refine inv.goto ⟨before, _, rest, split, ?_⟩ (by rw [at_pc]; rfl) (by rw [at_pc]; rfl) (.inl rfl)
    simpa [Searching, Ne.symm same] using search

/-- A reader that found its key takes effect as it loads the value. -/
theorem TableInv.getLoadV (inv : TableInv s chain order) {f : GetFrame} {node : Addr} {cell : KeyvalueNode}
    (at_pc : s.pc t = .getLoadV f node) (read : s.heap node = some cell) :
    TableInv (s.goto t (.getReturn f cell.v)) chain (order ++ [⟨f.id, .get f.k, .value (kvObject.after order f.k)⟩]) := by
  have own := inv.threads t
  rw [at_pc] at own
  obtain ⟨pending, member⟩ := own
  obtain ⟨next, readNode⟩ := inv.store.present _ _ member
  cases read.symm.trans readNode
  exact inv.gotoCommit pending (by rw [at_pc]; rfl)
    (List.mem_append_right _ (List.mem_singleton_self _)) (by rw [at_pc]; rfl) (by rw [at_pc]; rfl) rfl

theorem TableInv.getLoadNext (inv : TableInv s chain order) {f : GetFrame} {node : Addr} {cell : KeyvalueNode}
    (at_pc : s.pc t = .getLoadNext f node) (read : s.heap node = some cell) :
    TableInv (s.goto t (Table.getScan f cell.next)) chain order := by
  have own := inv.threads t
  rw [at_pc] at own
  obtain ⟨before, key, rest, split, search⟩ := own
  obtain ⟨_, tail⟩ := inv.read_node split read
  obtain ⟨call, lock, fresh⟩ := getScan_labels f cell.next
  refine inv.goto ?_ (by rw [at_pc, call]; rfl) (by rw [at_pc, lock]; rfl) (.inl fresh)
  exact getScan_ok (before ++ [(node, key)]) tail (by rw [split]; simp) search

/-- Every access of every thread keeps the invariant, with the calls that have taken effect and the
chains as they then are. -/
theorem TableInv.access (inv : TableInv s chain order) (step : s.access t = some s') :
    ∃ chain' order', TableInv s' chain' order' := by
  have own := inv.threads t
  cases at_pc : s.pc t with
  | idle => simp [Table.access, at_pc] at step
  | putLock f =>
    simp only [Table.access, at_pc, Option.ite_none_right_eq_some, Option.some.injEq] at step
    obtain ⟨unlocked, rfl⟩ := step
    exact ⟨chain, order, inv.lock at_pc unlocked⟩
  | putLoadHead f =>
    simp only [Table.access, at_pc, Option.some.injEq] at step
    subst step
    exact ⟨chain, order, inv.putLoadHead at_pc⟩
  | putLoadK f node =>
    simp only [Table.access, at_pc, Option.map_eq_some_iff] at step
    obtain ⟨cell, read, rfl⟩ := step
    exact ⟨chain, order, inv.putLoadK at_pc read⟩
  | putStoreV f node =>
    simp only [Table.access, at_pc, Option.map_eq_some_iff] at step
    obtain ⟨cell, read, rfl⟩ := step
    exact ⟨chain, _, inv.storeV at_pc read⟩
  | putLoadNext f node =>
    simp only [Table.access, at_pc, Option.map_eq_some_iff] at step
    obtain ⟨cell, read, rfl⟩ := step
    exact ⟨chain, order, inv.putLoadNext at_pc read⟩
  | putMalloc f => simp [Table.access, at_pc] at step
  | putInitK f new =>
    simp only [Table.access, at_pc, Option.map_eq_some_iff] at step
    obtain ⟨cell, read, rfl⟩ := step
    rw [at_pc] at own
    obtain ⟨inserting, _⟩ := own
    refine ⟨chain, order, inv.prepare inserting (by rw [at_pc]; rfl) ⟨inserting, ?_⟩ (by rw [at_pc]; rfl)
      (by rw [at_pc]; rfl) (by rw [at_pc]; rfl)⟩
    exact ⟨cell.v, cell.next, Function.update_self ..⟩
  | putInitV f new =>
    simp only [Table.access, at_pc, Option.map_eq_some_iff] at step
    obtain ⟨cell, read, rfl⟩ := step
    rw [at_pc] at own
    obtain ⟨inserting, v, next, readNode⟩ := own
    cases read.symm.trans readNode
    refine ⟨chain, order, inv.prepare inserting (by rw [at_pc]; rfl) ⟨inserting, ?_⟩ (by rw [at_pc]; rfl)
      (by rw [at_pc]; rfl) (by rw [at_pc]; rfl)⟩
    exact ⟨next, Function.update_self ..⟩
  | putReloadHead f new =>
    simp only [Table.access, at_pc, Option.some.injEq] at step
    subst step
    rw [at_pc] at own
    obtain ⟨inserting, next, read⟩ := own
    exact ⟨chain, order, inv.goto ⟨inserting, ⟨next, read⟩, rfl⟩ (by rw [at_pc]; rfl)
      (by rw [at_pc]; rfl) (.inr (by rw [at_pc]; rfl))⟩
  | putInitNext f new head =>
    simp only [Table.access, at_pc, Option.map_eq_some_iff] at step
    obtain ⟨cell, read, rfl⟩ := step
    rw [at_pc] at own
    obtain ⟨inserting, ⟨next, readNode⟩, rfl⟩ := own
    cases read.symm.trans readNode
    refine ⟨chain, order, inv.prepare inserting (by rw [at_pc]; rfl) ⟨inserting, ?_⟩ (by rw [at_pc]; rfl)
      (by rw [at_pc]; rfl) (by rw [at_pc]; rfl)⟩
    exact Function.update_self ..
  | putPublish f new =>
    simp only [Table.access, at_pc, Option.some.injEq] at step
    subst step
    exact ⟨_, _, inv.publish at_pc⟩
  | putUnlock f =>
    simp only [Table.access, at_pc, Option.some.injEq] at step
    subst step
    exact ⟨chain, order, inv.unlock at_pc⟩
  | putReturn f =>
    simp only [Table.access, at_pc, Option.some.injEq] at step
    subst step
    rw [at_pc] at own
    exact ⟨chain, order, inv.return (c := ⟨f.id, .put f.k f.v, .done⟩) own (by rw [at_pc]; rfl)⟩
  | getLoadHead f =>
    simp only [Table.access, at_pc, Option.some.injEq] at step
    subst step
    exact ⟨chain, inv.getLoadHead at_pc⟩
  | getLoadK f node =>
    simp only [Table.access, at_pc, Option.map_eq_some_iff] at step
    obtain ⟨cell, read, rfl⟩ := step
    exact ⟨chain, order, inv.getLoadK at_pc read⟩
  | getLoadV f node =>
    simp only [Table.access, at_pc, Option.map_eq_some_iff] at step
    obtain ⟨cell, read, rfl⟩ := step
    exact ⟨chain, _, inv.getLoadV at_pc read⟩
  | getLoadNext f node =>
    simp only [Table.access, at_pc, Option.map_eq_some_iff] at step
    obtain ⟨cell, read, rfl⟩ := step
    exact ⟨chain, order, inv.getLoadNext at_pc read⟩
  | getReturn f output =>
    simp only [Table.access, at_pc, Option.some.injEq] at step
    subst step
    rw [at_pc] at own
    exact ⟨chain, order, inv.return (c := ⟨f.id, .get f.k, .value output⟩) own (by rw [at_pc]; rfl)⟩

/-- Every step of every thread keeps the invariant. -/
theorem TableInv.step (inv : TableInv s chain order) {a : TableAction τ} (step : s.step a = some s') :
    ∃ chain' order', TableInv s' chain' order' := by
  cases a with
  | callPut t k v =>
    simp only [Table.step, Option.ite_none_right_eq_some, Option.some.injEq] at step
    obtain ⟨idle, rfl⟩ := step
    exact ⟨chain, order, inv.callOp idle (.put k v)⟩
  | callGet t k =>
    simp only [Table.step, Option.ite_none_right_eq_some, Option.some.injEq] at step
    obtain ⟨idle, rfl⟩ := step
    exact ⟨chain, order, inv.callOp idle (.get k)⟩
  | malloc t new junk =>
    cases at_pc : s.pc t with
    | putMalloc f =>
      simp only [Table.step, at_pc, Option.ite_none_right_eq_some, Option.some.injEq] at step
      obtain ⟨unused, rfl⟩ := step
      have own := inv.threads t
      rw [at_pc] at own
      obtain ⟨pending, missing⟩ := own
      have apart (i : ℕ) (e : Addr × Key) (member : e ∈ chain i) : e.1 ≠ new := by
        rintro rfl
        obtain ⟨v, next, read⟩ := (inv.store.chains i).allocated member
        rw [unused] at read
        cases read
      refine ⟨chain, order, inv.writeFresh apart ?_ ⟨⟨pending, missing, apart⟩, ?_⟩ (by rw [at_pc]; rfl)
        (by rw [at_pc]; rfl) (.inr ⟨new, rfl, unused⟩)⟩
      · intro u ne theirs
        exact ((inv.threads u).fresh_allocated theirs).1 unused
      · exact ⟨junk, Function.update_self ..⟩
    | _ => simp [Table.step, at_pc] at step
  | access t => exact inv.access step

omit [DecidableEq τ] in
/-- No thread is about to touch memory that is not allocated. -/
theorem ThreadOk.allocated (store : StoreOk s chain order) (ok : ThreadOk s chain order pc)
    {node : Addr} (reads : pc = .putLoadK f node ∨ pc = .putStoreV f node ∨ pc = .putLoadNext f node ∨
      pc = .getLoadK g node ∨ pc = .getLoadV g node ∨ pc = .getLoadNext g node) :
    s.heap node ≠ none := by
  have linked {i : ℕ} {key : Key} (member : (node, key) ∈ chain i) : s.heap node ≠ none := by
    obtain ⟨v, next, read⟩ := (store.chains i).allocated member
    simp [read]
  have inside {i : ℕ} {before rest : List (Addr × Key)} {key : Key}
      (split : chain i = before ++ (node, key) :: rest) : s.heap node ≠ none := by
    have member : (node, key) ∈ chain i := by simp [split]
    exact linked member
  rcases reads with rfl | rfl | rfl | rfl | rfl | rfl
  · obtain ⟨_, before, key, rest, split, _⟩ := ok
    exact inside split
  · exact linked ok.2
  · obtain ⟨_, before, key, rest, split, _⟩ := ok
    exact inside split
  · obtain ⟨before, key, rest, split, _⟩ := ok
    exact inside split
  · exact linked ok.2
  · obtain ⟨before, key, rest, split, _⟩ := ok
    exact inside split

/-- A thread inside a call is held up only by a bucket lock: its next access never faults. -/
theorem TableInv.access_enabled (inv : TableInv s chain order) (busy : s.pc t ≠ .idle)
    (lock : ∀ f, s.pc t = .putLock f → s.vLocks (s.index f.k) = none)
    (memory : ∀ f, s.pc t ≠ .putMalloc f) : ∃ s', s.access t = some s' := by
  have own := inv.threads t
  have mapped {node : Addr} {next : KeyvalueNode → Table τ} (some : s.heap node ≠ none) :
      ∃ s', (s.heap node).map next = .some s' := by
    obtain ⟨cell, read⟩ := Option.ne_none_iff_exists'.mp some
    exact ⟨next cell, by rw [read]; rfl⟩
  cases at_pc : s.pc t with
  | idle => exact (busy at_pc).elim
  | putMalloc f => exact (memory f at_pc).elim
  | putLock f => exact ⟨_, by simp only [Table.access, at_pc, lock f at_pc, if_true]; rfl⟩
  | putLoadK f node | putStoreV f node | putLoadNext f node =>
    simp only [Table.access, at_pc]
    rw [at_pc] at own
    exact mapped (own.allocated (f := f) (g := ⟨0, 0⟩) inv.store (by simp))
  | getLoadK f node | getLoadV f node | getLoadNext f node =>
    simp only [Table.access, at_pc]
    rw [at_pc] at own
    exact mapped (own.allocated (f := ⟨0, 0, 0⟩) (g := f) inv.store (by simp))
  | putInitK f new | putInitV f new | putInitNext f new head =>
    simp only [Table.access, at_pc]
    rw [at_pc] at own
    exact mapped (own.fresh_allocated rfl).1
  | _ => exact ⟨_, by simp only [Table.access, at_pc]; rfl⟩

end Moves

/-- The invariant, for some chains and some order of the calls that have taken effect. -/
def TableOk (s : Table τ) : Prop := ∃ chain order, TableInv s chain order

theorem TableOk.initial (size : ℕ) : TableOk (initKvStore τ size) := by
  refine ⟨fun _ => [], [], ?_⟩
  refine ⟨⟨.empty, ?_, fun _ => .nil, ?_, ?_, ?_, ?_⟩, ?_, fun _ => trivial, ?_, ?_, ?_⟩
  · intro id op member
    simp [initKvStore] at member
  · simp
  · simp
  · simp
  · intro k _
    rfl
  · intro i t
    simp [initKvStore, TablePc.holds, TablePc.lockedKey]
  · intro t u id mine
    cases mine
  · intro t id mine
    cases mine
  · intro t u a mine
    cases mine

theorem TableOk.step [DecidableEq τ] {s s' : Table τ} (ok : TableOk s) {a : TableAction τ}
    (step : s.step a = some s') : TableOk s' := by
  obtain ⟨chain, order, inv⟩ := ok
  exact inv.step step

private theorem Table.access_size [DecidableEq τ] {s s' : Table τ} {t : τ} (step : s.access t = some s') :
    s'.size = s.size := by
  unfold Table.access at step
  split at step <;> grind [Table.goto, Table.respond, Option.map_eq_some_iff]

private theorem Table.step_size [DecidableEq τ] {s s' : Table τ} {a : TableAction τ}
    (step : s.step a = some s') : s'.size = s.size := by
  cases a with
  | access t => exact Table.access_size step
  | callPut t k v =>
    simp only [Table.step, Option.ite_none_right_eq_some, Option.some.injEq] at step
    rw [← step.2]
    rfl
  | callGet t k =>
    simp only [Table.step, Option.ite_none_right_eq_some, Option.some.injEq] at step
    rw [← step.2]
    rfl
  | malloc t new junk =>
    simp only [Table.step] at step
    split at step
    · simp only [Option.ite_none_right_eq_some, Option.some.injEq] at step
      rw [← step.2]
      rfl
    · cases step

/-- The value of the last `put` of the key among the listed calls, or zero. -/
def lastPut (k : Key) (calls : List KvOp) : Value :=
  calls.foldl (fun value op => match op with
    | .put k' v => if k' = k then v else value
    | .get _ => value) 0

/-- The sequential store answers with the last value put. -/
private theorem kvObject_after_eq (order : List KvCommit) (k : Key) :
    kvObject.after order k = lastPut k (order.map Commit.op) := by
  induction order using List.reverseRecOn with
  | nil => rfl
  | append_singleton before c ih =>
    rcases c with ⟨id, op, ret⟩
    cases op with
    | put k' v =>
      rw [kvObject_after_put]
      simp only [lastPut, List.map_append, List.map_singleton, List.foldl_append, List.foldl_cons,
        List.foldl_nil, Function.update_apply, eq_comm (a := k)]
      rw [ih]
      rfl
    | get k' =>
      rw [kvObject_after_get, ih]
      simp [lastPut]

/-- In a linearization every `get` returns the value of the last `put` of its key before it. -/
theorem Linearization.get_answer {history : List KvEvent} {before after : List KvCommit} {id : ℕ}
    {k : Key} {ret : KvRet} (lin : Linearization kvObject history (before ++ ⟨id, .get k, ret⟩ :: after)) :
    ret = .value (lastPut k (before.map Commit.op)) := by
  have answer := lin.legal before ⟨id, .get k, ret⟩ after rfl
  rw [← kvObject_after_eq]
  exact answer.symm

theorem TableOk.of_reachable [DecidableEq τ] {size : ℕ} {s : Table τ}
    (reached : (tableMachine τ size).Reachable s) : TableOk s ∧ s.size = size := by
  apply reached.invariant
  · rintro s rfl
    exact ⟨.initial size, rfl⟩
  · rintro s a t step ⟨ok, same⟩
    exact ⟨ok.step step, (Table.step_size step).trans same⟩

/-- Every history of concurrent calls is linearizable to a map in which absent keys read zero, and
every reachable table holds a key in at most one node, in the chain of the key's own index. -/
theorem table_linearizable [DecidableEq τ] {size : ℕ} (positive : 0 < size) {s : Table τ}
    (reached : (tableMachine τ size).Reachable s) :
    (∃ order : List KvCommit, Linearization kvObject s.history order ∧
      ∀ before id k ret after, order = before ++ ⟨id, .get k, ret⟩ :: after →
        ret = .value (lastPut k (before.map Commit.op))) ∧
      ∃ chain : ℕ → List (Addr × Key), ∀ i, Chain s.heap (s.vHead i) (chain i) ∧
        ((chain i).map Prod.snd).Nodup ∧ ∀ e ∈ chain i, s.index e.2 = i ∧ i < size := by
  obtain ⟨⟨chain, order, inv⟩, same⟩ := TableOk.of_reachable reached
  refine ⟨⟨order, inv.store.lin, ?_⟩, chain, ?_⟩
  · rintro before id k ret after rfl
    exact Linearization.get_answer inv.store.lin
  · intro i
    refine ⟨inv.store.chains i, inv.store.distinct i, ?_⟩
    intro e member
    have bucket := inv.store.hashed i e member
    refine ⟨bucket, ?_⟩
    rw [← bucket, Table.index, same]
    exact hashFunction_lt e.2 positive

attribute [local instance] neZero_two in
/-- Thread 0 inserts key 5 while thread 1 reads it twice, missing and then finding it. -/
def tableRace : List (TableAction (Fin 2)) :=
  [.callPut 0 5 9, .access 0, .access 0, .malloc 0 3 ⟨0, 0, none⟩, .callGet 1 5, .access 1,
    .access 0, .access 0, .access 0, .access 0, .access 0, .access 1, .callGet 1 5, .access 1,
    .access 1, .access 1, .access 1]

theorem table_linearizable_race : ∃ s, (tableMachine (Fin 2) 1).run (initKvStore (Fin 2) 1) tableRace = some s ∧
    s.history = [.inv 0 (.put 5 9), .inv 1 (.get 5), .res 1 (.value 0), .inv 2 (.get 5),
      .res 2 (.value 9)] ∧
    ∃ order : List KvCommit, Linearization kvObject s.history order := by
  refine ⟨_, rfl, rfl, ?_⟩
  have reached := (tableMachine (Fin 2) 1).reachable_of_run rfl tableRace rfl
  obtain ⟨⟨order, lin, _⟩, _⟩ := table_linearizable (by decide) reached
  exact ⟨order, lin⟩

end Cs537.KvStore
