import Cs537.KvStore.TableSafety
import Cs537.KvStore.WindowSafety

/-! # One client thread with a window of one

With one request in flight at a time, at most one server thread holds a tag, so the calls on the table
are made one after the other, in the order of the requests. The invariant lists the calls that have
returned; a call in progress is the last event of the history. The table is linearizable, and a serial
history has only one linearization: every `get` answers with the last `put` before it.
-/

namespace Cs537.KvStore

open Lib

/-- The contexts `start_threads` prepares: each thread gets an equal contiguous part of the requests. -/
def startThreads (n winSize tableSize : ℕ) (requests : List Request) : Config n where
  winSize := winSize
  tableSize := tableSize
  reqs t := (requests.drop (t * (requests.length / n))).take (requests.length / n)

/-- The call a request asks for. -/
def Request.op (req : Request) : KvOp :=
  match req.t with
  | .put => .put req.k req.v
  | _ => .get req.k

namespace TablePc

/-- The call in progress, with its identity. -/
def call : TablePc → Option (ℕ × KvOp)
  | .idle => none
  | .putLock f | .putLoadHead f | .putLoadK f _ | .putStoreV f _ | .putLoadNext f _ | .putMalloc f
  | .putInitK f _ | .putInitV f _ | .putReloadHead f _ | .putInitNext f _ _ | .putPublish f _
  | .putUnlock f | .putReturn f => some (f.id, .put f.k f.v)
  | .getLoadHead f | .getLoadK f _ | .getLoadV f _ | .getLoadNext f _ | .getReturn f _ =>
      some (f.id, .get f.k)

end TablePc

/-- What an access of a thread does to the calls: it goes on with its call, or it returns. -/
theorem Table.access_call {τ : Type} [DecidableEq τ] {table table' : Table τ} {t : τ}
    (step : table.access t = some table') :
    (∃ pc, table'.pc = Function.update table.pc t pc ∧ pc.call = (table.pc t).call ∧ pc ≠ .idle ∧
        table'.history = table.history ∧ table'.nextId = table.nextId ∧
        ∀ f output, table.pc t ≠ .getReturn f output) ∨
      (∃ f, table.pc t = .putReturn f ∧ table' = table.respond t f.id .done) ∨
      ∃ f output, table.pc t = .getReturn f output ∧ table' = table.respond t f.id (.value output) := by
  have putScan_call (f : PutFrame) (ptr : Option Addr) :
      (Table.putScan f ptr).call = some (f.id, .put f.k f.v) ∧ Table.putScan f ptr ≠ .idle := by
    cases ptr <;> simp [Table.putScan, TablePc.call]
  have getScan_call (f : GetFrame) (ptr : Option Addr) :
      (Table.getScan f ptr).call = some (f.id, .get f.k) ∧ Table.getScan f ptr ≠ .idle := by
    cases ptr <;> simp [Table.getScan, TablePc.call]
  cases at_pc : table.pc t with
  | idle => simp [Table.access, at_pc] at step
  | putMalloc f => simp [Table.access, at_pc] at step
  | putReturn f =>
    simp only [Table.access, at_pc, Option.some.injEq] at step
    exact .inr (.inl ⟨f, rfl, step.symm⟩)
  | getReturn f output =>
    simp only [Table.access, at_pc, Option.some.injEq] at step
    exact .inr (.inr ⟨f, output, rfl, step.symm⟩)
  | putLock f =>
    simp only [Table.access, at_pc, Option.ite_none_right_eq_some, Option.some.injEq] at step
    obtain ⟨_, rfl⟩ := step
    exact .inl ⟨_, rfl, rfl, by simp, rfl, rfl, by simp⟩
  | putLoadHead f =>
    simp only [Table.access, at_pc, Option.some.injEq] at step
    subst step
    exact .inl ⟨_, rfl, (putScan_call ..).1, (putScan_call ..).2, rfl, rfl, by simp⟩
  | getLoadHead f =>
    simp only [Table.access, at_pc, Option.some.injEq] at step
    subst step
    exact .inl ⟨_, rfl, (getScan_call ..).1, (getScan_call ..).2, rfl, rfl, by simp⟩
  | putLoadNext f node =>
    simp only [Table.access, at_pc, Option.map_eq_some_iff] at step
    obtain ⟨cell, _, rfl⟩ := step
    exact .inl ⟨_, rfl, (putScan_call ..).1, (putScan_call ..).2, rfl, rfl, by simp⟩
  | getLoadNext f node =>
    simp only [Table.access, at_pc, Option.map_eq_some_iff] at step
    obtain ⟨cell, _, rfl⟩ := step
    exact .inl ⟨_, rfl, (getScan_call ..).1, (getScan_call ..).2, rfl, rfl, by simp⟩
  | putLoadK f node | getLoadK f node =>
    simp only [Table.access, at_pc, Option.map_eq_some_iff] at step
    obtain ⟨cell, _, rfl⟩ := step
    refine .inl ⟨_, rfl, ?_, ?_, rfl, rfl, by simp⟩ <;> split <;> simp [TablePc.call]
  | putStoreV f node | putInitK f node | putInitV f node | putInitNext f node head | getLoadV f node =>
    simp only [Table.access, at_pc, Option.map_eq_some_iff] at step
    obtain ⟨cell, _, rfl⟩ := step
    exact .inl ⟨_, rfl, rfl, by simp, rfl, rfl, by simp⟩
  | putReloadHead f new | putPublish f new | putUnlock f =>
    simp only [Table.access, at_pc, Option.some.injEq] at step
    subst step
    exact .inl ⟨_, rfl, rfl, by simp, rfl, rfl, by simp⟩

namespace ServerPc

/-- Before the call on the table. -/
def waiting : ServerPc → Bool
  | .ringGet | .copyDescriptor _ | .dispatch _ => true
  | _ => false

/-- Inside the call on the table. -/
def inCall : ServerPc → Bool
  | .inPut _ | .inGet _ => true
  | _ => false

/-- After the call on the table. -/
def returned : ServerPc → Bool
  | .storeV .. | .setReady _ => true
  | _ => false

end ServerPc

variable {m : ℕ}

attribute [local instance] neZero_one in
/-- The call of the tag's request returned with an answer that satisfies `test`. -/
def Returned (calls : List KvCommit) (tag : Option (Fin 1 × ℕ)) (test : KvRet → Prop) : Prop :=
  ∃ r c, tag = some (0, r) ∧ calls[r]? = some c ∧ test c.ret

attribute [local instance] neZero_one in
/-- What holds of one server thread and its call. -/
def SerialOk (board : ℤ → BufferDescriptor) (calls : List KvCommit) (pending : List KvEvent)
    (tag : Option (Fin 1 × ℕ)) (pc : TablePc) : ServerPc → Prop
  | .ringGet | .copyDescriptor _ | .dispatch _ => pc = .idle
  | .inPut bd => bd.reqType = .put ∧ pc.call = some (calls.length, .put bd.k bd.v) ∧
      tag = some (0, calls.length) ∧ pending = [.inv calls.length (.put bd.k bd.v)]
  | .inGet bd => bd.reqType = .get ∧ pc.call = some (calls.length, .get bd.k) ∧
      tag = some (0, calls.length) ∧ pending = [.inv calls.length (.get bd.k)]
  | .storeV bd v => pc = .idle ∧ bd.reqType = .get ∧ Returned calls tag (· = .value v)
  | .setReady bd => pc = .idle ∧
      Returned calls tag (fun ret => bd.reqType = .get → ret = .value (board bd.resOff).v)
  | .exited => False

/-- The calls that have returned, and the history they leave with the call in progress. -/
structure SerialInv (cfg : Config 1) (s : System 1 m) (calls : List KvCommit) (pending : List KvEvent) :
    Prop where
  history : s.table.history = serial calls ++ pending
  nextId : s.table.nextId = calls.length + pending.length
  ids : calls.map Commit.id = List.range calls.length
  ops : calls.map Commit.op = ((cfg.reqs 0).take calls.length).map Request.op
  answered : ∀ r a, s.answers 0 r = some a → ∃ c, calls[r]? = some c ∧ (a.reqType = .get → c.ret = .value a.v)
  returned : ∀ r < calls.length, s.answers 0 r ≠ none ∨
    ∃ j, s.serverTag j = some (0, r) ∧ (s.server j).returned = true
  owner : pending ≠ [] → ∃ j, (s.server j).inCall = true
  servers : ∀ j, SerialOk s.board calls pending (s.serverTag j) (s.table.pc j) (s.server j)

private theorem SerialOk.of_waiting {board : ℤ → BufferDescriptor} {calls : List KvCommit}
    {pending : List KvEvent} {tag : Option (Fin 1 × ℕ)} {pc : TablePc} {server : ServerPc}
    (waiting : server.waiting = true) : SerialOk board calls pending tag pc server ↔ pc = .idle := by
  cases server <;> simp [ServerPc.waiting, SerialOk] at waiting ⊢

section Steps

variable {cfg : Config 1} {s s' : System 1 m} {calls : List KvCommit} {pending : List KvEvent} {j : Fin m}

/-- Only the expected request is in flight, so a server thread that holds a tag holds that one. -/
theorem SystemInv.tag_eq (inv : SystemInv cfg s) (one : cfg.winSize = 1) {tag : Fin 1 × ℕ}
    (mine : s.serverTag j = some tag) : tag = (0, (s.client 0).lastCompleted) := by
  obtain ⟨t, r⟩ := tag
  obtain rfl : t = 0 := Subsingleton.elim t 0
  obtain ⟨low, high⟩ := inv.held_inFlight mine
  have window := inv.copied_le 0
  rw [one] at window
  have : r = (s.client 0).lastCompleted := by omega
  rw [this]

/-- A second server thread has no tag, so it is not in a call. -/
theorem SerialInv.others_waiting (serial : SerialInv cfg s calls pending) (inv : SystemInv cfg s)
    (one : cfg.winSize = 1) {tag : Fin 1 × ℕ} (mine : s.serverTag j = some tag) (k : Fin m) (apart : k ≠ j) :
    (s.server k).waiting = true := by
  have alone (theirs : s.serverTag k ≠ none) : False := by
    obtain ⟨tag', theirs⟩ := Option.ne_none_iff_exists'.mp theirs
    have same : tag' = tag := (inv.tag_eq one theirs).trans (inv.tag_eq one mine).symm
    rw [same] at theirs
    exact apart (inv.heldOnce k j tag theirs mine)
  have ok := serial.servers k
  cases pc : s.server k <;> rw [pc] at ok
  case inPut => exact (alone (by rw [ok.2.2.1]; simp)).elim
  case inGet => exact (alone (by rw [ok.2.2.1]; simp)).elim
  case storeV =>
    obtain ⟨_, _, r, c, theirs, _⟩ := ok
    exact (alone (by rw [theirs]; simp)).elim
  case setReady =>
    obtain ⟨_, r, c, theirs, _⟩ := ok
    exact (alone (by rw [theirs]; simp)).elim
  case exited => exact ok.elim
  all_goals rfl

/-- The thread with the tag moves; nothing else depends on what it changes. -/
theorem SerialInv.holder_moves (serial : SerialInv cfg s calls pending) (inv : SystemInv cfg s)
    (one : cfg.winSize = 1) {tag : Fin 1 × ℕ} (mine : s.serverTag j = some tag) {pc : ServerPc}
    {tablePc : TablePc} {tag' : Option (Fin 1 × ℕ)} {calls' : List KvCommit} {pending' : List KvEvent}
    (server : s'.server = Function.update s.server j pc)
    (tablePcs : s'.table.pc = Function.update s.table.pc j tablePc)
    (serverTag : s'.serverTag = Function.update s.serverTag j tag')
    (own : SerialOk s'.board calls' pending' tag' tablePc pc) (k : Fin m) :
    SerialOk s'.board calls' pending' (s'.serverTag k) (s'.table.pc k) (s'.server k) := by
  rw [server, tablePcs, serverTag]
  by_cases eq : k = j
  · subst eq
    rw [Function.update_self, Function.update_self, Function.update_self]
    exact own
  · rw [Function.update_of_ne eq, Function.update_of_ne eq, Function.update_of_ne eq]
    have waiting := serial.others_waiting inv one mine k eq
    exact (SerialOk.of_waiting waiting).mpr ((SerialOk.of_waiting waiting).mp (serial.servers k))

/-- Steps of the client change neither the table nor the values on the board. -/
theorem SerialInv.frame (serial : SerialInv cfg s calls pending) (table : s'.table = s.table)
    (server : s'.server = s.server) (serverTag : s'.serverTag = s.serverTag)
    (answers : s'.answers = s.answers) (board : ∀ offset, (s'.board offset).v = (s.board offset).v) :
    SerialInv cfg s' calls pending := by
  refine ⟨table ▸ serial.history, table ▸ serial.nextId, serial.ids, serial.ops, answers ▸ serial.answered,
    ?_, ?_, ?_⟩
  · rw [answers, serverTag, server]
    exact serial.returned
  · rw [server]
    exact serial.owner
  · intro k
    have ok := serial.servers k
    rw [table, server, serverTag]
    cases pc : s.server k <;> rw [pc] at ok
    case setReady bd =>
      rw [SerialOk, board]
      exact ok
    all_goals exact ok

/-- A step of the client's `thread_function` leaves the server side alone. -/
theorem SerialInv.clientStep (serial : SerialInv cfg s calls pending) {t : Fin 1}
    (step : s.clientStep cfg t = some s') : SerialInv cfg s' calls pending := by
  cases at_pc : (s.client t).pc with
  | loopTest | finalTest | poll final | copyResult final =>
    simp only [System.clientStep, at_pc, Option.some.injEq] at step
    subst step
    exact serial.frame rfl rfl rfl rfl fun _ => rfl
  | clearReady final =>
    simp only [System.clientStep, at_pc, Option.some.injEq] at step
    subst step
    refine serial.frame rfl rfl rfl rfl ?_
    intro offset
    exact apply_update_of_eq BufferDescriptor.v (by rfl) offset
  | submitTest =>
    simp only [System.clientStep, at_pc] at step
    split_ifs at step
    · cases found : (cfg.reqs t)[(s.client t).lastSubmitted]? with
      | none =>
        simp only [found, Option.some.injEq] at step
        subst step
        exact serial.frame rfl rfl rfl rfl fun _ => rfl
      | some req =>
        simp only [found, Option.map_eq_some_iff] at step
        obtain ⟨ring, _, rfl⟩ := step
        exact serial.frame rfl rfl rfl rfl fun _ => rfl
    · simp only [Option.some.injEq] at step
      subst step
      exact serial.frame rfl rfl rfl rfl fun _ => rfl
  | ringSubmit =>
    simp only [System.clientStep, at_pc, Option.map_eq_some_iff] at step
    obtain ⟨ring, _, rfl⟩ := step
    exact serial.frame rfl rfl rfl rfl fun _ => rfl
  | done => simp [System.clientStep, at_pc] at step

/-- A server thread that has not made its call moves on towards it. -/
theorem SerialInv.waiting_moves (serial : SerialInv cfg s calls pending) {pc : ServerPc}
    {tag' : Option (Fin 1 × ℕ)} (waiting : (s.server j).waiting = true) (waiting' : pc.waiting = true)
    (server : s'.server = Function.update s.server j pc)
    (serverTag : s'.serverTag = Function.update s.serverTag j tag') (table : s'.table = s.table)
    (answers : s'.answers = s.answers)
    (board : ∀ k bd, k ≠ j → s.server k = .setReady bd → (s'.board bd.resOff).v = (s.board bd.resOff).v) :
    SerialInv cfg s' calls pending := by
  have elsewhere (k : Fin m) (busy : (s.server k).waiting = false) : k ≠ j := by
    rintro rfl
    rw [busy] at waiting
    cases waiting
  refine ⟨table ▸ serial.history, table ▸ serial.nextId, serial.ids, serial.ops, answers ▸ serial.answered,
    ?_, ?_, ?_⟩
  · intro r earlier
    rw [answers, serverTag, server]
    rcases serial.returned r earlier with answered | ⟨k, theirs, back⟩
    · exact .inl answered
    · have apart := elsewhere k (by cases pc : s.server k <;> simp [pc, ServerPc.returned, ServerPc.waiting] at back ⊢)
      exact .inr ⟨k, by rw [Function.update_of_ne apart]; exact theirs, by rw [Function.update_of_ne apart]; exact back⟩
  · intro busy
    obtain ⟨k, inside⟩ := serial.owner busy
    have apart := elsewhere k (by cases pc : s.server k <;> simp [pc, ServerPc.inCall, ServerPc.waiting] at inside ⊢)
    rw [server]
    exact ⟨k, by rw [Function.update_of_ne apart]; exact inside⟩
  · intro k
    have ok := serial.servers k
    rw [table, server, serverTag]
    by_cases eq : k = j
    · subst eq
      rw [Function.update_self, Function.update_self]
      exact (SerialOk.of_waiting waiting').mpr ((SerialOk.of_waiting waiting).mp ok)
    · rw [Function.update_of_ne eq, Function.update_of_ne eq]
      cases pc : s.server k <;> rw [pc] at ok
      case setReady bd =>
        rw [SerialOk, board k bd eq pc]
        exact ok
      all_goals exact ok

theorem SerialInv.serverRing (serial : SerialInv cfg s calls pending) (at_pc : s.server j = .ringGet)
    (step : s.serverRing j = some s') : SerialInv cfg s' calls pending := by
  have waiting : (s.server j).waiting = true := by rw [at_pc]; rfl
  have stay := (Function.update_eq_self j s.server).symm
  have keep := (Function.update_eq_self j s.serverTag).symm
  cases at_consumer : s.ring.consumer j with
  | copy =>
    simp only [System.serverRing, at_consumer, Option.map_eq_some_iff] at step
    obtain ⟨ring, _, rfl⟩ := step
    exact serial.waiting_moves waiting waiting stay rfl rfl rfl fun _ _ _ _ => rfl
  | semPost bd =>
    simp only [System.serverRing, at_consumer, Option.map_eq_some_iff] at step
    obtain ⟨ring, _, rfl⟩ := step
    exact serial.waiting_moves waiting rfl rfl keep rfl rfl fun _ _ _ _ => rfl
  | idle | semWait | lock | advance bd | unlock bd =>
    simp only [System.serverRing, at_consumer, Option.map_eq_some_iff] at step
    obtain ⟨ring, _, rfl⟩ := step
    exact serial.waiting_moves waiting waiting stay keep rfl rfl fun _ _ _ _ => rfl

/-- At the call, all earlier calls have returned and none is in progress. -/
theorem SerialInv.at_dispatch (serial : SerialInv cfg s calls pending) (inv : SystemInv cfg s)
    (one : cfg.winSize = 1) {bd : BufferDescriptor} (at_pc : s.server j = .dispatch bd) :
    s.serverTag j = some (0, calls.length) ∧ pending = [] ∧ s.table.pc j = .idle ∧
      cfg.request (0, calls.length) = some bd := by
  have ok := inv.servers j
  rw [at_pc] at ok
  obtain ⟨_, ⟨tag, mine, request⟩, _⟩ := ok
  have expected := inv.tag_eq one mine
  subst expected
  have reaches : (s.client 0).lastCompleted ≤ calls.length := by
    rcases Nat.eq_zero_or_pos (s.client 0).lastCompleted with zero | positive
    · omega
    · obtain ⟨a, answer, _⟩ := (inv.clients 0).acknowledged _ (Nat.sub_one_lt_of_lt positive)
      obtain ⟨c, found, _⟩ := serial.answered _ a answer
      have := (List.getElem?_eq_some_iff.mp found).1
      omega
  have stops : calls.length ≤ (s.client 0).lastCompleted := by
    by_contra beyond
    rcases serial.returned _ (not_le.mp beyond) with answered | ⟨k, theirs, back⟩
    · exact answered (inv.held j _ mine).2
    · obtain rfl := inv.heldOnce k j _ theirs mine
      rw [at_pc] at back
      cases back
  have same : (s.client 0).lastCompleted = calls.length := by omega
  rw [same] at mine request
  refine ⟨mine, ?_, ?_, request⟩
  · by_contra busy
    obtain ⟨k, inside⟩ := serial.owner busy
    have apart : k ≠ j := by
      rintro rfl
      rw [at_pc] at inside
      cases inside
    have waiting := serial.others_waiting inv one mine k apart
    cases pc : s.server k <;> simp [pc, ServerPc.inCall, ServerPc.waiting] at inside waiting
  · have own := serial.servers j
    rw [at_pc] at own
    exact own

/-- The server thread makes its call. -/
theorem SerialInv.call (serial : SerialInv cfg s calls pending) (inv : SystemInv cfg s)
    (one : cfg.winSize = 1) {bd : BufferDescriptor} (at_pc : s.server j = .dispatch bd) {pc : ServerPc}
    {op : KvOp} (table : s'.table = s.table.call j op) (server : s'.server = Function.update s.server j pc)
    (serverTag : s'.serverTag = s.serverTag) (answers : s'.answers = s.answers) (inside : pc.inCall = true)
    (own : ∀ tablePc, tablePc.call = some (calls.length, op) →
      SerialOk s'.board calls [.inv calls.length op] (some (0, calls.length)) tablePc pc) :
    SerialInv cfg s' calls [.inv calls.length op] := by
  obtain ⟨mine, rfl, idle, request⟩ := serial.at_dispatch inv one at_pc
  have nextId := serial.nextId
  rw [List.length_nil, Nat.add_zero] at nextId
  refine ⟨?_, ?_, serial.ids, serial.ops, answers ▸ serial.answered, ?_, ?_, ?_⟩
  · rw [table]
    simp only [Table.call]
    rw [nextId, serial.history, List.append_nil]
  · rw [table]
    simp only [Table.call]
    rw [nextId]
    rfl
  · intro r earlier
    rw [answers, serverTag, server]
    rcases serial.returned r earlier with answered | ⟨k, theirs, back⟩
    · exact .inl answered
    · refine .inr ⟨k, theirs, ?_⟩
      have apart : k ≠ j := by
        rintro rfl
        rw [at_pc] at back
        cases back
      rw [Function.update_of_ne apart]
      exact back
  · intro _
    exact ⟨j, by rw [server, Function.update_self]; exact inside⟩
  · refine serial.holder_moves inv one mine server (congrArg Table.pc table) ?_ (own _ ?_)
    · rw [serverTag, ← mine, Function.update_eq_self]
    · cases op <;> simp [TablePc.call, nextId]

/-- The call of the server thread goes on. -/
theorem SerialInv.call_continues (serial : SerialInv cfg s calls pending) (inv : SystemInv cfg s)
    (one : cfg.winSize = 1) {tag : Fin 1 × ℕ} (mine : s.serverTag j = some tag) {pc : TablePc}
    (pcs : s'.table.pc = Function.update s.table.pc j pc) (same : pc.call = (s.table.pc j).call)
    (inside : (s.server j).inCall = true) (history : s'.table.history = s.table.history)
    (nextId : s'.table.nextId = s.table.nextId) (server : s'.server = s.server)
    (serverTag : s'.serverTag = s.serverTag) (answers : s'.answers = s.answers) :
    SerialInv cfg s' calls pending := by
  refine ⟨history.trans serial.history, nextId.trans serial.nextId, serial.ids, serial.ops,
    answers ▸ serial.answered, ?_, ?_, ?_⟩
  · rw [answers, serverTag, server]
    exact serial.returned
  · rw [server]
    exact serial.owner
  · refine serial.holder_moves inv one mine (server.trans (Function.update_eq_self j s.server).symm) pcs
      (serverTag.trans (Function.update_eq_self j s.serverTag).symm) ?_
    have own := serial.servers j
    cases at_pc : s.server j <;> rw [at_pc] at inside own
    case inPut bd => exact ⟨own.1, same.trans own.2.1, own.2.2⟩
    case inGet bd => exact ⟨own.1, same.trans own.2.1, own.2.2⟩
    all_goals cases inside

/-- The call of the server thread returns. -/
theorem SerialInv.call_returns (serial : SerialInv cfg s calls pending) (inv : SystemInv cfg s)
    (one : cfg.winSize = 1) (mine : s.serverTag j = some (0, calls.length)) {op : KvOp} {ret : KvRet}
    {req : Request} (found : (cfg.reqs 0)[calls.length]? = some req) (asked : req.op = op)
    (inProgress : pending = [.inv calls.length op]) {pc : ServerPc} (back : pc.returned = true)
    (table : s'.table = s.table.respond j calls.length ret)
    (server : s'.server = Function.update s.server j pc) (serverTag : s'.serverTag = s.serverTag)
    (answers : s'.answers = s.answers)
    (own : SerialOk s'.board (calls ++ [⟨calls.length, op, ret⟩]) [] (some (0, calls.length)) .idle pc) :
    SerialInv cfg s' (calls ++ [⟨calls.length, op, ret⟩]) [] := by
  subst inProgress asked
  refine ⟨?_, ?_, ?_, ?_, ?_, ?_, ?_, ?_⟩
  · rw [table, Table.respond, serial_snoc]
    dsimp only
    rw [serial.history]
    simp
  · rw [table, Table.respond]
    dsimp only
    rw [serial.nextId]
    simp
  · rw [List.map_append, serial.ids]
    simp [List.range_succ]
  · rw [List.map_append, serial.ops, List.length_append, List.length_singleton, List.take_add_one, found]
    simp
  · intro r a answer
    rw [answers] at answer
    obtain ⟨c, earlier, value⟩ := serial.answered r a answer
    refine ⟨c, ?_, value⟩
    rw [List.getElem?_append_left (List.getElem?_eq_some_iff.mp earlier).1]
    exact earlier
  · intro r earlier
    rw [answers, serverTag, server]
    rw [List.length_append, List.length_singleton] at earlier
    rcases Nat.lt_succ_iff_lt_or_eq.mp earlier with old | rfl
    · rcases serial.returned r old with answered | ⟨k, theirs, finished⟩
      · exact .inl answered
      · have same := (inv.tag_eq one theirs).trans (inv.tag_eq one mine).symm
        cases same
        omega
    · exact .inr ⟨j, mine, by rw [Function.update_self]; exact back⟩
  · simp
  · refine serial.holder_moves inv one mine server (congrArg Table.pc table) ?_ own
    rw [serverTag, ← mine, Function.update_eq_self]

/-- A server thread copies its descriptor, stores a value or raises the flag: the calls stay. -/
theorem SerialInv.holder_writes (serial : SerialInv cfg s calls pending) (inv : SystemInv cfg s)
    (one : cfg.winSize = 1) {tag : Fin 1 × ℕ} (mine : s.serverTag j = some tag)
    (finished : (s.server j).returned = true) {pc : ServerPc} {tag' : Option (Fin 1 × ℕ)}
    (server : s'.server = Function.update s.server j pc) (table : s'.table = s.table)
    (serverTag : s'.serverTag = Function.update s.serverTag j tag')
    (answered : ∀ r a, s'.answers 0 r = some a → ∃ c, calls[r]? = some c ∧ (a.reqType = .get → c.ret = .value a.v))
    (returned : ∀ r < calls.length, s.answers 0 r ≠ none ∨ tag = (0, r) → s'.answers 0 r ≠ none ∨
      tag' = some (0, r) ∧ pc.returned = true)
    (own : SerialOk s'.board calls pending tag' .idle pc) : SerialInv cfg s' calls pending := by
  have idle : s.table.pc j = .idle := by
    have ok := serial.servers j
    cases at_pc : s.server j <;> rw [at_pc] at finished ok
    case storeV => exact ok.1
    case setReady => exact ok.1
    all_goals cases finished
  refine ⟨table ▸ serial.history, table ▸ serial.nextId, serial.ids, serial.ops, answered, ?_, ?_, ?_⟩
  · intro r earlier
    have before : s.answers 0 r ≠ none ∨ tag = (0, r) := by
      rcases serial.returned r earlier with old | ⟨k, theirs, _⟩
      · exact .inl old
      · exact .inr ((inv.tag_eq one mine).trans (inv.tag_eq one theirs).symm)
    rcases returned r earlier before with new | ⟨tag, back⟩
    · exact .inl new
    · refine .inr ⟨j, ?_, ?_⟩
      · rw [serverTag, Function.update_self]
        exact tag
      · rw [server, Function.update_self]
        exact back
  · intro busy
    obtain ⟨k, inside⟩ := serial.owner busy
    have apart : k ≠ j := by
      rintro rfl
      cases at_pc : s.server k <;> simp [at_pc, ServerPc.inCall, ServerPc.returned] at inside finished
    have waiting := serial.others_waiting inv one mine k apart
    cases pc : s.server k <;> simp [pc, ServerPc.inCall, ServerPc.waiting] at inside waiting
  · refine serial.holder_moves inv one mine server ?_ serverTag own
    rw [table, ← idle, Function.update_eq_self]

/-- Every request is a `put` or a `get`. -/
def OnlyPutGet (requests : List Request) : Prop := ∀ req ∈ requests, req.t = .put ∨ req.t = .get

theorem SerialInv.dispatch (serial : SerialInv cfg s calls pending) (inv : SystemInv cfg s)
    (one : cfg.winSize = 1) (kinds : OnlyPutGet (cfg.reqs 0)) {bd : BufferDescriptor}
    (at_pc : s.server j = .dispatch bd) (step : s.serverStep j = some s') :
    ∃ calls' pending', SerialInv cfg s' calls' pending' := by
  obtain ⟨mine, _, idle, request⟩ := serial.at_dispatch inv one at_pc
  obtain ⟨_, _, req, found, kind, _⟩ := Config.request_eq_some request
  simp only [System.serverStep, at_pc] at step
  rcases kinds req (List.mem_of_getElem? found) with put | get
  · rw [put] at kind
    simp only [kind, Table.step, idle, if_true, Option.map_some, Option.some.injEq] at step
    subst step
    exact ⟨_, _, serial.call inv one at_pc rfl rfl rfl rfl rfl fun _ call => ⟨kind, call, rfl, rfl⟩⟩
  · rw [get] at kind
    simp only [kind, Table.step, idle, if_true, Option.map_some, Option.some.injEq] at step
    subst step
    exact ⟨_, _, serial.call inv one at_pc rfl rfl rfl rfl rfl fun _ call => ⟨kind, call, rfl, rfl⟩⟩

/-- The request a server thread is serving, in the words of the request list. -/
private theorem served_request {bd : BufferDescriptor} {r : ℕ}
    (mine : s.serverTag j = some (0, r)) (serves : Serves cfg (s.serverTag j) bd) :
    ∃ req, (cfg.reqs 0)[r]? = some req ∧ bd.reqType = req.t ∧ bd.k = req.k ∧ bd.v = req.v := by
  obtain ⟨tag, held, request⟩ := serves
  cases mine.symm.trans held
  exact (Config.request_eq_some request).2.2

theorem SerialInv.inPut (serial : SerialInv cfg s calls pending) (inv : SystemInv cfg s)
    (one : cfg.winSize = 1) {bd : BufferDescriptor} (at_pc : s.server j = .inPut bd)
    (step : s.serverStep j = some s') : ∃ calls' pending', SerialInv cfg s' calls' pending' := by
  have own := serial.servers j
  have ok := inv.servers j
  rw [at_pc] at own ok
  obtain ⟨kind, call, mine, inProgress⟩ := own
  simp only [System.serverStep, at_pc, Option.map_eq_some_iff] at step
  obtain ⟨table, access, rfl⟩ := step
  have stay : Function.update s.server j (.inPut bd) = s.server := by
    rw [← at_pc, Function.update_eq_self]
  rcases Table.access_call access with ⟨pc, pcs, same, busy, history, nextId, _⟩ | ⟨f, at_return, rfl⟩ |
    ⟨f, output, at_return, _⟩
  · refine ⟨calls, pending, serial.call_continues inv one mine pcs same (by rw [at_pc]; rfl) history nextId ?_
      rfl rfl⟩
    simp only [System.setServer, pcs, Function.update_self, busy, if_false]
    exact stay
  · rw [at_return] at call
    simp only [TablePc.call, Option.some.injEq, Prod.mk.injEq] at call
    obtain ⟨req, found, kind', key, value⟩ := served_request mine ok.2.1
    have asked : req.op = .put bd.k bd.v := by
      rw [Request.op, ← kind', kind, key, value]
    have idle : (s.table.respond j f.id .done).pc j = .idle := Function.update_self ..
    rw [if_pos idle, call.1]
    refine ⟨_, _, serial.call_returns inv one mine found asked inProgress rfl rfl rfl rfl rfl ?_⟩
    · refine ⟨rfl, calls.length, _, rfl, List.getElem?_concat_length, ?_⟩
      rw [kind]
      intro get
      cases get
  · rw [at_return] at call
    simp [TablePc.call] at call

theorem SerialInv.inGet (serial : SerialInv cfg s calls pending) (inv : SystemInv cfg s)
    (one : cfg.winSize = 1) {bd : BufferDescriptor} (at_pc : s.server j = .inGet bd)
    (step : s.serverStep j = some s') : ∃ calls' pending', SerialInv cfg s' calls' pending' := by
  have own := serial.servers j
  have ok := inv.servers j
  rw [at_pc] at own ok
  obtain ⟨kind, call, mine, inProgress⟩ := own
  simp only [System.serverStep, at_pc, Option.map_eq_some_iff] at step
  obtain ⟨table, access, rfl⟩ := step
  rcases Table.access_call access with ⟨pc, pcs, same, busy, history, nextId, notReturn⟩ | ⟨f, at_return, _⟩ |
    ⟨f, output, at_return, rfl⟩
  · refine ⟨calls, pending, serial.call_continues inv one mine pcs same (by rw [at_pc]; rfl) history nextId ?_
      rfl rfl⟩
    simp only [System.setServer]
    rw [← at_pc, Function.update_eq_self]
  · rw [at_return] at call
    simp [TablePc.call] at call
  · rw [at_return] at call
    simp only [TablePc.call, Option.some.injEq, Prod.mk.injEq] at call
    obtain ⟨req, found, kind', key, _⟩ := served_request mine ok.2.1
    have asked : req.op = .get bd.k := by
      rw [Request.op, ← kind', kind, key]
    simp only [at_return, call.1]
    exact ⟨_, _, serial.call_returns inv one mine found asked inProgress rfl rfl rfl rfl rfl
      ⟨rfl, kind, calls.length, _, rfl, List.getElem?_concat_length, rfl⟩⟩

theorem SerialInv.storeV (serial : SerialInv cfg s calls pending) (inv : SystemInv cfg s)
    (one : cfg.winSize = 1) {bd : BufferDescriptor} {v : Value} (at_pc : s.server j = .storeV bd v)
    (step : s.serverStep j = some s') : SerialInv cfg s' calls pending := by
  have own := serial.servers j
  rw [at_pc] at own
  obtain ⟨_, _, r, c, mine, found, value⟩ := own
  simp only [System.serverStep, at_pc, Option.some.injEq] at step
  subst step
  refine serial.holder_writes inv one mine (by rw [at_pc]; rfl) rfl rfl
    (Function.update_eq_self j s.serverTag).symm serial.answered ?_ ?_
  · rintro q _ (answered | same)
    · exact .inl answered
    · exact .inr ⟨by rw [mine, same], rfl⟩
  · refine ⟨rfl, r, c, mine, found, fun _ => ?_⟩
    rw [value]
    simp [System.writeBoard]

theorem SerialInv.setReady (serial : SerialInv cfg s calls pending) (inv : SystemInv cfg s)
    (one : cfg.winSize = 1) {bd : BufferDescriptor} (at_pc : s.server j = .setReady bd)
    (step : s.serverStep j = some s') : SerialInv cfg s' calls pending := by
  have own := serial.servers j
  have ok := inv.servers j
  rw [at_pc] at own ok
  obtain ⟨_, r, c, mine, found, value⟩ := own
  obtain ⟨_, _, v, slot⟩ := ok
  simp only [System.serverStep, at_pc, System.recordAnswer, mine, Option.some.injEq] at step
  subst step
  refine serial.holder_writes inv one mine (by rw [at_pc]; rfl) rfl rfl rfl ?_ ?_ rfl
  · intro q a answer
    dsimp only at answer
    rw [Function.update_self] at answer
    by_cases same : q = r
    · subst same
      rw [Function.update_self, Option.some.injEq] at answer
      refine ⟨c, found, ?_⟩
      rw [← answer]
      intro get
      apply value
      rw [slot] at get
      exact get
    · rw [Function.update_of_ne same] at answer
      exact serial.answered q a answer
  · intro q _ before
    left
    dsimp only
    rw [Function.update_self]
    by_cases same : q = r
    · subst same
      simp
    · rw [Function.update_of_ne same]
      rcases before with answered | tag
      · exact answered
      · cases tag
        exact (same rfl).elim

/-- Every step of a server thread keeps the calls serial. -/
theorem SerialInv.serverStep (serial : SerialInv cfg s calls pending) (inv : SystemInv cfg s)
    (one : cfg.winSize = 1) (kinds : OnlyPutGet (cfg.reqs 0)) (step : s.serverStep j = some s') :
    ∃ calls' pending', SerialInv cfg s' calls' pending' := by
  cases at_pc : s.server j with
  | ringGet =>
    simp only [System.serverStep, at_pc] at step
    exact ⟨calls, pending, serial.serverRing at_pc step⟩
  | copyDescriptor bd =>
    have ok := inv.servers j
    rw [at_pc] at ok
    obtain ⟨_, tag, mine, _⟩ := ok
    simp only [System.serverStep, at_pc, Option.some.injEq] at step
    subst step
    refine ⟨calls, pending, serial.waiting_moves (by rw [at_pc]; rfl) rfl rfl
      (Function.update_eq_self j s.serverTag).symm rfl rfl ?_⟩
    intro k bd' apart at_ready
    have waiting := serial.others_waiting inv one mine k apart
    rw [at_ready] at waiting
    cases waiting
  | dispatch bd => exact serial.dispatch inv one kinds at_pc step
  | inPut bd => exact serial.inPut inv one at_pc step
  | inGet bd => exact serial.inGet inv one at_pc step
  | storeV bd v => exact ⟨calls, pending, serial.storeV inv one at_pc step⟩
  | setReady bd => exact ⟨calls, pending, serial.setReady inv one at_pc step⟩
  | exited =>
    have own := serial.servers j
    rw [at_pc] at own
    exact own.elim

theorem SerialInv.malloc (serial : SerialInv cfg s calls pending) (inv : SystemInv cfg s)
    (one : cfg.winSize = 1) {new : Addr} {junk : KeyvalueNode}
    (step : s.step cfg (.malloc j new junk) = some s') : SerialInv cfg s' calls pending := by
  simp only [System.step, Option.map_eq_some_iff] at step
  obtain ⟨table, step, rfl⟩ := step
  cases at_pc : s.table.pc j with
  | putMalloc f =>
    simp only [Table.step, at_pc, Option.ite_none_right_eq_some, Option.some.injEq] at step
    obtain ⟨_, rfl⟩ := step
    have own := serial.servers j
    have inside : (s.server j).inCall = true ∧ s.serverTag j = some (0, calls.length) := by
      cases server : s.server j <;> rw [server, at_pc] at own
      case inPut => exact ⟨rfl, own.2.2.1⟩
      case inGet => exact ⟨rfl, own.2.2.1⟩
      case storeV => cases own.1
      case setReady => cases own.1
      case exited => exact own.elim
      all_goals cases own
    exact serial.call_continues inv one inside.2 rfl (by rw [at_pc]; rfl) inside.1 rfl rfl rfl rfl rfl
  | _ => simp [Table.step, at_pc] at step

end Steps

section Table

variable {n : ℕ} {cfg : Config n} {s s' : System n m}

/-- A step of the system is a step of the table or leaves it alone. -/
private theorem System.step_table {a : SystemAction n m} (step : s.step cfg a = some s') :
    s'.table = s.table ∨ ∃ b, s.table.step b = some s'.table := by
  cases a with
  | client t =>
    left
    simp only [System.step, System.clientStep] at step
    grind [Option.map_eq_some_iff, System.setClient, System.writeBoard]
  | server j =>
    simp only [System.step, System.serverStep] at step
    cases at_pc : s.server j with
    | ringGet =>
      left
      simp only [at_pc, System.serverRing] at step
      grind [Option.map_eq_some_iff, System.setServer]
    | dispatch bd =>
      simp only [at_pc] at step
      split at step
      · obtain ⟨table, call, rfl⟩ := Option.map_eq_some_iff.mp step
        exact .inr ⟨_, call⟩
      · obtain ⟨table, call, rfl⟩ := Option.map_eq_some_iff.mp step
        exact .inr ⟨_, call⟩
      · cases step
        exact .inl rfl
    | inPut bd | inGet bd =>
      simp only [at_pc, Option.map_eq_some_iff] at step
      obtain ⟨table, access, rfl⟩ := step
      exact .inr ⟨.access j, access⟩
    | copyDescriptor bd | storeV bd v | setReady bd =>
      simp only [at_pc, Option.some.injEq] at step
      subst step
      exact .inl rfl
    | exited => simp [at_pc] at step
  | malloc j new junk =>
    simp only [System.step, Option.map_eq_some_iff] at step
    obtain ⟨table, call, rfl⟩ := step
    exact .inr ⟨_, call⟩

/-- Server threads and the allocator do not touch the clients. -/
theorem System.serverStep_client {j : Fin m} (step : s.serverStep j = some s') : s'.client = s.client := by
  simp only [System.serverStep, System.serverRing] at step
  grind [Option.map_eq_some_iff, System.setServer, System.writeBoard]

/-- A client thread returns only when it has counted all its answers. -/
theorem System.clientStep_done {t : Fin n} (step : s.clientStep cfg t = some s')
    (returned : (s'.client t).pc = .done) : cfg.numReqs t ≤ (s'.client t).lastCompleted := by
  cases at_pc : (s.client t).pc with
  | finalTest =>
    simp only [System.clientStep, at_pc, Option.some.injEq] at step
    subst step
    simp only [System.setClient, Function.update_self] at returned ⊢
    split_ifs at returned with more
    exact not_lt.mp more
  | submitTest =>
    simp only [System.clientStep, at_pc] at step
    split_ifs at step
    · cases found : (cfg.reqs t)[(s.client t).lastSubmitted]? with
      | none =>
        simp only [found, Option.some.injEq] at step
        subst step
        simp [System.setClient] at returned
      | some req =>
        simp only [found, Option.map_eq_some_iff] at step
        obtain ⟨ring, _, rfl⟩ := step
        simp [System.setClient] at returned
    · simp only [Option.some.injEq] at step
      subst step
      simp [System.setClient] at returned
  | ringSubmit =>
    simp only [System.clientStep, at_pc, Option.map_eq_some_iff] at step
    obtain ⟨ring, _, rfl⟩ := step
    simp only [System.setClient, Function.update_self] at returned
    split_ifs at returned
    rw [at_pc] at returned
    cases returned
  | clearReady final | copyResult final =>
    simp only [System.clientStep, at_pc, Option.some.injEq] at step
    subst step
    simp [System.setClient, System.writeBoard] at returned
  | loopTest | poll final =>
    simp only [System.clientStep, at_pc, Option.some.injEq] at step
    subst step
    simp only [System.setClient, Function.update_self] at returned
    split_ifs at returned
  | done => simp [System.clientStep, at_pc] at step

end Table

section Serial

variable {cfg : Config 1} {s s' : System 1 m}

/-- The invariant of the serial client, for some list of returned calls. -/
structure SerialSystem (cfg : Config 1) (s : System 1 m) : Prop where
  system : SystemInv cfg s
  table : TableOk s.table
  serial : ∃ calls pending, SerialInv cfg s calls pending
  done : (s.client 0).pc = .done → cfg.numReqs 0 ≤ (s.client 0).lastCompleted

theorem SerialSystem.initial (cfg : Config 1) (junk : Fin 1 → ℕ → BufferDescriptor) :
    SerialSystem cfg (System.initial cfg m junk) where
  system := .initial cfg junk
  table := .initial cfg.tableSize
  serial := by
    refine ⟨[], [], rfl, rfl, rfl, rfl, ?_, ?_, ?_, fun _ => rfl⟩
    · intro r a answer
      cases answer
    · intro r earlier
      cases earlier
    · intro busy
      exact (busy rfl).elim
  done := by
    intro returned
    cases returned

theorem SerialSystem.step (ok : SerialSystem cfg s) (fits : cfg.Fits) (one : cfg.winSize = 1)
    (kinds : OnlyPutGet (cfg.reqs 0)) {a : SystemAction 1 m} (step : s.step cfg a = some s') :
    SerialSystem cfg s' := by
  have system := ok.system.step fits step
  obtain ⟨calls, pending, serial⟩ := ok.serial
  have table : TableOk s'.table := by
    rcases System.step_table step with same | ⟨b, call⟩
    · rw [same]
      exact ok.table
    · exact ok.table.step call
  cases a with
  | client t =>
    obtain rfl : t = 0 := Subsingleton.elim t 0
    exact ⟨system, table, ⟨calls, pending, serial.clientStep step⟩, System.clientStep_done step⟩
  | server j =>
    refine ⟨system, table, serial.serverStep ok.system one kinds step, ?_⟩
    rw [System.serverStep_client step]
    exact ok.done
  | malloc j new junk =>
    refine ⟨system, table, ⟨calls, pending, serial.malloc ok.system one step⟩, ?_⟩
    obtain ⟨_, _, rfl⟩ := Option.map_eq_some_iff.mp step
    exact ok.done

/-- When the client has returned, the calls on the table are exactly its requests, in order. -/
private theorem SerialSystem.calls_at_return (ok : SerialSystem cfg s) (returned : (s.client 0).pc = .done) :
    ∃ calls : List KvCommit, s.table.history = Lib.serial calls ∧
      calls.map Commit.id = List.range calls.length ∧ calls.map Commit.op = (cfg.reqs 0).map Request.op ∧
      ∀ r < cfg.numReqs 0, ∃ a c, s.answers 0 r = some a ∧ (s.client 0).res r = { a with ready := 0 } ∧
        calls[r]? = some c ∧ (a.reqType = .get → c.ret = .value a.v) := by
  obtain ⟨calls, pending, serial⟩ := ok.serial
  have inv := ok.system
  have all := ok.done returned
  have requested (r : ℕ) (taken : (0, r) ∈ s.taken) : r < cfg.numReqs 0 := by
    have tagged : cfg.request (0, r) ∈ s.tags.map cfg.request :=
      List.mem_map_of_mem (List.mem_of_mem_take taken)
    rw [← inv.tags_eq] at tagged
    obtain ⟨bd, _, request⟩ := List.mem_map.mp tagged
    obtain ⟨_, _, req, found, _⟩ := Config.request_eq_some request.symm
    exact (List.getElem?_eq_some_iff.mp found).1
  have results (r : ℕ) (inside : r < cfg.numReqs 0) :
      ∃ a c, s.answers 0 r = some a ∧ (s.client 0).res r = { a with ready := 0 } ∧
        calls[r]? = some c ∧ (a.reqType = .get → c.ret = .value a.v) := by
    obtain ⟨a, answer, result⟩ := (inv.clients 0).acknowledged r (by omega)
    obtain ⟨c, found, value⟩ := serial.answered r a answer
    exact ⟨a, c, answer, result, found, value⟩
  have idle : pending = [] := by
    by_contra busy
    obtain ⟨j, inside⟩ := serial.owner busy
    have own := serial.servers j
    have mine : s.serverTag j = some (0, calls.length) := by
      cases at_pc : s.server j <;> rw [at_pc] at inside own
      case inPut => exact own.2.2.1
      case inGet => exact own.2.2.1
      all_goals cases inside
    have low := (inv.held_inFlight mine).1
    have high := requested _ (inv.held j _ mine).1
    omega
  have length : calls.length = cfg.numReqs 0 := by
    apply le_antisymm
    · by_contra beyond
      rcases serial.returned (cfg.numReqs 0) (by omega) with answered | ⟨j, mine, _⟩
      · obtain ⟨a, answer⟩ := Option.ne_none_iff_exists'.mp answered
        exact Nat.lt_irrefl _ (requested _ (inv.answered 0 _ a answer).1)
      · exact Nat.lt_irrefl _ (requested _ (inv.held j _ mine).1)
    · by_contra beyond
      obtain ⟨_, c, _, _, found, _⟩ := results calls.length (by omega)
      exact Nat.lt_irrefl _ (List.getElem?_eq_some_iff.mp found).1
  refine ⟨calls, ?_, serial.ids, ?_, results⟩
  · rw [serial.history, idle, List.append_nil]
  · rw [serial.ops, length, Config.numReqs, List.take_length]

/-- The value of the last `put` of each key read by a `get`: the calls are the requests. -/
private theorem SerialSystem.get_results (ok : SerialSystem cfg s) (returned : (s.client 0).pc = .done) {i : ℕ}
    {req : Request} (found : (cfg.reqs 0)[i]? = some req) (get : req.t = .get) :
    ((s.client 0).res i).v = lastPut req.k (((cfg.reqs 0).take i).map Request.op) := by
  obtain ⟨calls, history, ids, ops, results⟩ := ok.calls_at_return returned
  obtain ⟨chain, order, table⟩ := ok.table
  have lin := table.store.lin
  rw [history] at lin
  obtain rfl := lin.eq_of_serial (by rw [ids]; exact List.nodup_range)
  obtain ⟨a, c, answer, result, at_i, value⟩ := results i (List.getElem?_eq_some_iff.mp found).1
  have asked : c.op = .get req.k := by
    have same := congrArg (fun l => l[i]?) ops
    simp only [List.getElem?_map, at_i, found, Option.map_some, Option.some.injEq] at same
    rw [same, Request.op, get]
  have kind : a.reqType = .get := by
    obtain ⟨_, bd, v, request, rfl⟩ := ok.system.answered 0 i a answer
    obtain ⟨_, _, req', found', kind, _⟩ := Config.request_eq_some request
    cases found.symm.trans found'
    exact kind.trans get
  have split : order = order.take i ++ c :: order.drop (i + 1) := by
    rw [List.getElem?_eq_some_iff] at at_i
    obtain ⟨bound, rfl⟩ := at_i
    rw [List.getElem_cons_drop, List.take_append_drop]
  obtain ⟨id, op, ret⟩ := c
  subst asked
  rw [split] at lin
  have last := Linearization.get_answer lin
  rw [List.map_take, ops, ← List.map_take] at last
  rw [result]
  exact KvRet.value.inj ((value kind).symm.trans last)

/-- `main` of `gen_workload.py`: one expected answer for each request that is not a `put`. -/
def solutionFrom (kvstore : Key → Option Value) : List Request → List Value
  | [] => []
  | req :: rest =>
      match req.t with
      | .put => solutionFrom (Function.update kvstore req.k (some req.v)) rest
      | _ => (kvstore req.k).getD 0 :: solutionFrom kvstore rest

/-- The loop of `check_results` from request `i` on. -/
def checkResultsFrom (results : ℕ → BufferDescriptor) (expected : List Value) (expIdx i : ℕ) :
    List Request → ℕ
  | [] => 0
  | req :: rest =>
      if req.t ≠ .get then checkResultsFrom results expected expIdx (i + 1) rest
      else if some (results i).v ≠ expected[expIdx]? then 1
      else checkResultsFrom results expected (expIdx + 1) (i + 1) rest

private theorem lastPut_snoc (k : Key) (calls : List KvOp) (op : KvOp) :
    lastPut k (calls ++ [op]) = match op with
      | .put k' v => if k' = k then v else lastPut k calls
      | .get _ => lastPut k calls := by
  cases op <;> simp only [lastPut, List.foldl_append, List.foldl_cons, List.foldl_nil]

/-- The solution file lists the last value put before each `get`, so results with these values pass. -/
private theorem checkResultsFrom_solution {results : ℕ → BufferDescriptor} {before rest : List Request}
    {kvstore : Key → Option Value} {seen : List Value} (kinds : OnlyPutGet rest)
    (store : ∀ k, (kvstore k).getD 0 = lastPut k (before.map Request.op))
    (values : ∀ i req, (before ++ rest)[i]? = some req → req.t = .get →
      (results i).v = lastPut req.k (((before ++ rest).take i).map Request.op)) :
    checkResultsFrom results (seen ++ solutionFrom kvstore rest) seen.length before.length rest = 0 := by
  induction rest generalizing before kvstore seen with
  | nil => rfl
  | cons req rest ih =>
    have kinds' : OnlyPutGet rest := fun r member => kinds r (List.mem_cons_of_mem _ member)
    have split : before ++ req :: rest = (before ++ [req]) ++ rest := by simp
    have length : (before ++ [req]).length = before.length + 1 := by simp
    rw [split] at values
    rcases kinds req (List.mem_cons_self ..) with put | get
    · have op : req.op = .put req.k req.v := by rw [Request.op, put]
      simp only [checkResultsFrom, solutionFrom, put, ne_eq, reduceCtorEq, not_false_eq_true, if_true]
      rw [← length]
      refine ih kinds' ?_ values
      intro k
      rw [List.map_append, List.map_singleton, lastPut_snoc, op]
      dsimp only
      by_cases same : req.k = k
      · rw [same, Function.update_self, if_pos rfl]
        rfl
      · rw [Function.update_of_ne (Ne.symm same), if_neg same]
        exact store k
    · have op : req.op = .get req.k := by rw [Request.op, get]
      have here : (results before.length).v = (kvstore req.k).getD 0 := by
        rw [store, values before.length req (by simp) get]
        simp
      simp only [checkResultsFrom, solutionFrom, get, ne_eq, not_true, if_false]
      rw [List.getElem?_append_right le_rfl, Nat.sub_self, List.getElem?_cons_zero, here, if_neg (by simp),
        ← length]
      have expected : seen ++ (kvstore req.k).getD 0 :: solutionFrom kvstore rest =
          (seen ++ [(kvstore req.k).getD 0]) ++ solutionFrom kvstore rest := by simp
      have index : seen.length + 1 = (seen ++ [(kvstore req.k).getD 0]).length := by simp
      rw [expected, index]
      refine ih kinds' ?_ values
      intro k
      rw [List.map_append, List.map_singleton, lastPut_snoc, op]
      exact store k

end Serial

/-- One client thread with a window of one, any number of server threads, and a workload of `put` and
`get` requests: when the client thread returns, the result of every `get` is the value of the last `put`
of its key before it, or zero, and the results pass the check against the generated solution. -/
theorem serial_client_correct {tableSize : ℕ} {requests : List Request} (kinds : OnlyPutGet requests)
    {s : System 1 m} (reached : (systemMachine (startThreads 1 1 tableSize requests) m).Reachable s)
    (returned : (s.client 0).pc = .done) :
    (∀ i req, requests[i]? = some req → req.t = .get →
      ((s.client 0).res i).v = lastPut req.k ((requests.take i).map Request.op)) ∧
      checkResultsFrom (s.client 0).res (solutionFrom (fun _ => none) requests) 0 0 requests = 0 := by
  have same : (startThreads 1 1 tableSize requests).reqs 0 = requests := by
    simp [startThreads]
  have fits : (startThreads 1 1 tableSize requests).Fits := by
    refine ⟨Nat.zero_lt_one, ?_⟩
    simp only [startThreads, ringBytes_eq, descriptorBytes]
    decide
  have ok : SerialSystem (startThreads 1 1 tableSize requests) s := by
    apply reached.invariant
    · rintro s ⟨junk, rfl⟩
      exact .initial _ junk
    · intro s a t step ok
      exact ok.step fits rfl (by rw [same]; exact kinds) step
  have values (i : ℕ) (req : Request) (found : requests[i]? = some req) (get : req.t = .get) :
      ((s.client 0).res i).v = lastPut req.k ((requests.take i).map Request.op) := by
    have value := ok.get_results returned (by rw [same]; exact found) get
    rwa [same] at value
  refine ⟨values, ?_⟩
  have check : checkResultsFrom (s.client 0).res ([] ++ solutionFrom (fun _ => none) requests)
      ([] : List Value).length ([] : List Request).length requests = 0 :=
    checkResultsFrom_solution kinds (fun _ => rfl) values
  exact check

/-- A `put` and a `get` of one key. -/
def putThenGet : Config 1 := startThreads 1 1 1 [⟨5, 9, .put⟩, ⟨5, 0, .get⟩]

attribute [local instance] neZero_one in
/-- Both requests through one server thread, up to the return of the client. -/
def roundTrip : List (SystemAction 1 1) :=
  .server 0 :: List.replicate 8 (.client 0) ++ List.replicate 10 (.server 0) ++
    .malloc 0 3 ⟨0, 0, none⟩ :: List.replicate 9 (.server 0) ++ List.replicate 13 (.client 0) ++
    List.replicate 15 (.server 0) ++ List.replicate 7 (.client 0)

theorem serial_client_correct_round_trip : ∃ s, (systemMachine putThenGet 1).Reachable s ∧
    (s.client 0).pc = .done ∧ ((s.client 0).res 1).v = 9 := by
  have finished : ((systemMachine putThenGet 1).run (.initial putThenGet 1 fun _ _ => .zero) roundTrip).map
      (fun s => (s.client 0).pc) = some .done := by decide +kernel
  obtain ⟨s, run, returned⟩ := Option.map_eq_some_iff.mp finished
  have reached := (systemMachine putThenGet 1).reachable_of_run ⟨_, rfl⟩ roundTrip run
  have results := serial_client_correct (by simp [OnlyPutGet]) reached returned
  exact ⟨s, reached, returned, results.1 1 ⟨5, 0, .get⟩ rfl rfl⟩

end Cs537.KvStore
