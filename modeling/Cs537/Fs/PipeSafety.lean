import Cs537.Fs.Pipe
import Mathlib.Data.List.TakeDrop

/-! # What goes into a pipe comes out

In every interleaving of the callers, the bytes that were read are the first of those that were written, and
the others lie in the buffer, also after the counters have wrapped around. A process sleeps only while its
end has nothing to do, provided that no killed writer gives up in the middle: that one forgets to wake the
readers.
-/

namespace Cs537.Fs.Pipe

open Cs537.Lib

variable {n : ℕ} {s t : St n} {a : Action n} {i j : Fin n} {p p' : Pipe} {front count : ℕ}
  {items rest left bytes src : List UInt8} {killed : Bool} {stop : Stop}

/-- The pipe holds a queue of bytes, the first of them after `front` others. -/
structure Flow (p : Pipe) (front : ℕ) (items : List UInt8) : Prop where
  fifo : Fifo p.data PIPESIZE front items
  nread : p.nread = front % 2 ^ 32
  nwrite : p.nwrite = (front + items.length) % 2 ^ 32

private theorem Flow.full_iff (flow : Flow p front items) : p.nwrite = (p.nread + PIPESIZE) % 2 ^ 32 ↔
    items.length = PIPESIZE := by
  have fits := flow.fifo.fits
  rw [flow.nread, flow.nwrite]
  simp only [PIPESIZE] at fits ⊢
  omega

theorem Flow.empty_iff (flow : Flow p front items) : p.nread = p.nwrite ↔ items = [] := by
  have fits := flow.fifo.fits
  rw [flow.nread, flow.nwrite, ← List.length_eq_zero_iff]
  simp only [PIPESIZE] at fits
  omega

theorem Flow.push (flow : Flow p front items) (room : items.length ≠ PIPESIZE) (b : UInt8) :
    Flow { p with data := Function.update p.data (p.nwrite % PIPESIZE) b, nwrite := (p.nwrite + 1) % 2 ^ 32 } front
    (items ++ [b]) := by
  have fits := flow.fifo.fits
  have place : p.nwrite % PIPESIZE = (front + items.length) % PIPESIZE := by
    rw [flow.nwrite]
    simp only [PIPESIZE]
    omega
  refine ⟨?_, flow.nread, ?_⟩
  · change Fifo (Function.update p.data (p.nwrite % PIPESIZE) b) PIPESIZE front (items ++ [b])
    rw [place]
    exact flow.fifo.push (Nat.lt_of_le_of_ne fits room)
  · change (p.nwrite + 1) % 2 ^ 32 = _
    rw [flow.nwrite, List.length_append, List.length_singleton]
    omega

theorem Flow.pop {b : UInt8} (flow : Flow p front (b :: items)) :
    p.data (p.nread % PIPESIZE) = b ∧ Flow { p with nread := (p.nread + 1) % 2 ^ 32 } (front + 1) items := by
  obtain ⟨first, others⟩ := flow.fifo.pop
  have place : p.nread % PIPESIZE = front % PIPESIZE := by
    rw [flow.nread]
    simp only [PIPESIZE]
    omega
  refine ⟨by rw [place, first], others, ?_, ?_⟩
  · change (p.nread + 1) % 2 ^ 32 = _
    rw [flow.nread]
    omega
  · change p.nwrite = _
    rw [flow.nwrite, List.length_cons]
    omega

/-- Why the loop of `pipewrite` stops, with so many bytes queued and these left. -/
def Stop.Why (readopen killed : Bool) (queued : ℕ) (left : List UInt8) : Stop → Prop
  | .done => left = []
  | .refused => left ≠ [] ∧ queued = PIPESIZE ∧ (readopen = false ∨ killed = true)
  | .full => left ≠ [] ∧ queued = PIPESIZE ∧ readopen = true ∧ killed = false

private theorem pipewrite_spec (flow : Flow p front items) (run : pipewrite killed p rest = (p', left, stop)) :
    ∃ put, rest = put ++ left ∧ Flow p' front (items ++ put) ∧ p'.readopen = p.readopen ∧ p'.writeopen = p.writeopen ∧
      stop.Why p.readopen killed (items ++ put).length left := by
  induction rest generalizing p items with
  | nil =>
    cases run
    exact ⟨[], rfl, by rw [List.append_nil]; exact flow, rfl, rfl, rfl⟩
  | cons b rest ih =>
    rw [pipewrite] at run
    split_ifs at run with full give
    · cases run
      exact ⟨[], rfl, by rw [List.append_nil]; exact flow, rfl, rfl, List.cons_ne_nil _ _,
        by rw [List.append_nil]; exact flow.full_iff.mp full, give⟩
    · cases run
      rw [not_or, Bool.not_eq_false, Bool.not_eq_true] at give
      exact ⟨[], rfl, by rw [List.append_nil]; exact flow, rfl, rfl, List.cons_ne_nil _ _,
        by rw [List.append_nil]; exact flow.full_iff.mp full, give⟩
    · obtain ⟨put, split, later, readopen, writeopen, why⟩ := ih (flow.push (mt flow.full_iff.mpr full) b) run
      rw [List.append_assoc, List.singleton_append] at later why
      exact ⟨b :: put, by rw [split]; rfl, later, readopen, writeopen, why⟩

private theorem piperead_spec (flow : Flow p front items) (run : piperead count p = (p', bytes)) :
    bytes = items.take count ∧ Flow p' (front + bytes.length) (items.drop count) ∧ p'.readopen = p.readopen ∧
      p'.writeopen = p.writeopen := by
  induction count generalizing p front items bytes p' with
  | zero =>
    cases run
    exact ⟨rfl, flow, rfl, rfl⟩
  | succ count ih =>
    rw [piperead] at run
    split_ifs at run with empty
    · cases run
      obtain rfl := flow.empty_iff.mp empty
      exact ⟨rfl, flow, rfl, rfl⟩
    · cases items with
      | nil => exact absurd (flow.empty_iff.mpr rfl) empty
      | cons b items =>
        cases run
        obtain ⟨first, others⟩ := flow.pop
        obtain ⟨taken, later, readopen, writeopen⟩ := ih others rfl
        refine ⟨?_, ?_, readopen, writeopen⟩
        · rw [first, taken]
          rfl
        · have place : ∀ later, front + (later + 1) = front + 1 + later := fun later => by omega
          rw [List.drop_succ_cons, List.length_cons, place]
          exact later

/-- What one process has put into the history. -/
def ofProc (i : Fin n) (history : List (Fin n × UInt8)) : List UInt8 := (history.filter (·.1 = i)).map (·.2)

/-- What a call that is under way has put into the pipe. -/
def Proc.put : Proc → List UInt8
  | .writing src rest _ => src.take (src.length - rest.length)
  | _ => []

/-- The whole calls and the parts of others. -/
def Written.done (w : Written) : List UInt8 := w.src.take w.put

/-- A process at a place in the code. -/
structure At (s : St n) (i : Fin n) (p : Proc) : Prop where
  writer : p.writes = true → s.pipe.writeopen = true
  reader : p.reads = true → s.pipe.readopen = true
  rest : ∀ src rest asleep, p = .writing src rest asleep → rest <:+ src
  sent : ofProc i s.sent = (s.writes i).flatMap Written.done ++ p.put
  full : ∀ src rest, p = .writing src rest true →
    s.sent.length = s.received.length + PIPESIZE ∧ s.pipe.readopen = true ∧ s.killed i = false

/-- What the histories say about each other and about the pipe. -/
structure Inv (s : St n) : Prop where
  flow : ∃ items, Flow s.pipe s.received.length items ∧ s.sent.map (·.2) = s.received.map (·.2) ++ items
  freed : s.freed = if s.pipe.readopen = false ∧ s.pipe.writeopen = false then 1 else 0
  procs : ∀ i, At s i (s.proc i)
  received : ∀ i, ofProc i s.received = (s.reads i).flatten
  results : ∀ i, ∀ w ∈ s.writes i, (w.result = w.src.length ∧ w.put = w.src.length) ∨
    (w.result = -1 ∧ w.put < w.src.length)
  ended : s.ended = true → s.pipe.writeopen = false ∧ s.received.length = s.sent.length

private theorem ofProc_append (history : List (Fin n × UInt8)) (bytes : List UInt8) :
    ofProc j (history ++ bytes.map (i, ·)) = ofProc j history ++ if i = j then bytes else [] := by
  rw [ofProc, ofProc, List.filter_append, List.map_append]
  congr 1
  split_ifs with same
  · rw [List.filter_eq_self.mpr fun x member => ?_, List.map_map]
    · exact List.map_id bytes
    · obtain ⟨b, _, rfl⟩ := List.mem_map.mp member
      exact decide_eq_true same
  · rw [List.filter_eq_nil_iff.mpr fun x member => ?_, List.map_nil]
    obtain ⟨b, _, rfl⟩ := List.mem_map.mp member
    simpa using same

variable {proc : Proc}

theorem At.wakeReader (here : At s i proc) : At s i proc.wakeReader := by
  cases proc with
  | out => exact here
  | writing src rest asleep => exact here
  | reading count asleep =>
    exact ⟨here.writer, here.reader, fun _ _ _ same => Proc.noConfusion same, here.sent,
      fun _ _ same => Proc.noConfusion same⟩

theorem At.wakeWriter (here : At s i proc) : At s i proc.wakeWriter := by
  cases proc with
  | out => exact here
  | writing src rest asleep =>
    refine ⟨here.writer, here.reader, fun _ _ _ same => ?_, here.sent, fun _ _ same => ?_⟩
    · cases same
      exact here.rest src rest asleep rfl
    · cases same
  | reading count asleep => exact here

private theorem writes_wakeReader (p : Proc) : p.wakeReader.writes = p.writes := by cases p <;> rfl

private theorem reads_wakeWriter (p : Proc) : p.wakeWriter.reads = p.reads := by cases p <;> rfl

/-- A process for which nothing has changed. -/
theorem At.congr (here : At s i proc) (readopen : proc.reads = true → t.pipe.readopen = s.pipe.readopen)
    (writeopen : proc.writes = true → t.pipe.writeopen = s.pipe.writeopen) (sent : ofProc i t.sent = ofProc i s.sent)
    (writes : t.writes i = s.writes i)
    (full : ∀ src rest, proc = .writing src rest true →
      t.sent.length = t.received.length + PIPESIZE ∧ t.pipe.readopen = true ∧ t.killed i = false) : At t i proc where
  writer w := by
    rw [writeopen w]
    exact here.writer w
  reader r := by
    rw [readopen r]
    exact here.reader r
  rest := here.rest
  sent := by
    rw [sent, writes]
    exact here.sent
  full := full

/-- A step that only changes where one process is. -/
theorem Inv.set (inv : Inv s) (here : At s i proc) : Inv (s.set i proc) where
  flow := inv.flow
  freed := inv.freed
  procs j := by
    change At (s.set i proc) j (Function.update s.proc i proc j)
    rcases eq_or_ne j i with rfl | other
    · rw [Function.update_self]
      exact ⟨here.writer, here.reader, here.rest, here.sent, here.full⟩
    · rw [Function.update_of_ne other]
      exact ⟨(inv.procs j).writer, (inv.procs j).reader, (inv.procs j).rest, (inv.procs j).sent, (inv.procs j).full⟩
  received := inv.received
  results := inv.results
  ended := inv.ended

theorem Inv.write (inv : Inv s) (isOpen : s.pipe.writeopen = true) (outside : s.proc i = .out) :
    Inv (s.set i (.writing src src false)) := by
  have before := inv.procs i
  rw [outside] at before
  refine inv.set ⟨fun _ => isOpen, fun no => absurd no Bool.false_ne_true, fun _ _ _ same => ?_, ?_, fun _ _ same => ?_⟩
  · cases same
    exact List.suffix_refl src
  · have nothing : (Proc.writing src src false).put = Proc.out.put := by
      rw [Proc.put, Nat.sub_self, List.take_zero]
      rfl
    rw [nothing]
    exact before.sent
  · cases same

theorem Inv.read (inv : Inv s) (isOpen : s.pipe.readopen = true) (outside : s.proc i = .out) (asleep : Bool) :
    Inv (s.set i (.reading count asleep)) := by
  have before := inv.procs i
  rw [outside] at before
  exact inv.set ⟨fun no => absurd no Bool.false_ne_true, fun _ => isOpen, fun _ _ _ same => Proc.noConfusion same,
    before.sent,
    fun _ _ same => Proc.noConfusion same⟩

theorem Inv.kill (inv : Inv s) :
    Inv (St.set { s with killed := Function.update s.killed i true } i (s.proc i).wakeReader.wakeWriter) := by
  have woken := (inv.procs i).wakeReader.wakeWriter
  refine ⟨inv.flow, inv.freed, fun j => ?_, inv.received, inv.results, inv.ended⟩
  change At _ j (Function.update s.proc i (s.proc i).wakeReader.wakeWriter j)
  rcases eq_or_ne j i with rfl | other
  · rw [Function.update_self]
    refine ⟨woken.writer, woken.reader, woken.rest, woken.sent, fun src rest same => ?_⟩
    cases at' : s.proc j <;> rw [at'] at same <;> cases same
  · rw [Function.update_of_ne other]
    refine (inv.procs j).congr (fun _ => rfl) (fun _ => rfl) rfl rfl fun src rest same => ?_
    obtain ⟨full, isOpen, alive⟩ := (inv.procs j).full src rest same
    exact ⟨full, isOpen, (Function.update_of_ne other _ _).trans alive⟩

private theorem lengths_of_all {items : List UInt8} (all : s.sent.map (·.2) = s.received.map (·.2) ++ items) :
    s.sent.length = s.received.length + items.length := by
  have lengths := congrArg List.length all
  rwa [List.length_map, List.length_append, List.length_map] at lengths

/-- The bytes of a call before and after a part of it. -/
private theorem take_rest {put : List UInt8} (suffix : put ++ left <:+ src) :
    src.take (src.length - left.length) = src.take (src.length - (put ++ left).length) ++ put := by
  obtain ⟨before, rfl⟩ := suffix
  have first : (before ++ (put ++ left)).length - (put ++ left).length = before.length := by
    rw [List.length_append]
    omega
  have second : (before ++ (put ++ left)).length - left.length = (before ++ put).length := by
    simp only [List.length_append]
    omega
  rw [first, second, ← List.append_assoc, List.take_left, List.append_assoc, List.take_left]

/-- The loop of `pipewrite` has moved a part of a call's bytes into the pipe. -/
structure Moved (s : St n) (i : Fin n) (src put left : List UInt8) (p : Pipe) : Prop where
  readopen : p.readopen = s.pipe.readopen
  writeopen : p.writeopen = s.pipe.writeopen
  isOpen : s.pipe.writeopen = true
  suffix : put ++ left <:+ src
  flow : ∃ items, Flow p s.received.length items ∧ (s.sent ++ put.map (i, ·)).map (·.2) = s.received.map (·.2) ++ items
  fits : s.sent.length + put.length ≤ s.received.length + PIPESIZE
  sent : ofProc i (s.sent ++ put.map (i, ·)) = (s.writes i).flatMap Written.done ++ src.take (src.length - left.length)

theorem Inv.moved (inv : Inv s) (at' : s.proc i = .writing src rest false)
    (run : pipewrite (s.killed i) s.pipe rest = (p, left, stop)) :
    ∃ put, rest = put ++ left ∧ Moved s i src put left p ∧
      stop.Why s.pipe.readopen (s.killed i) (s.sent.length + put.length - s.received.length) left := by
  obtain ⟨items, flow, all⟩ := inv.flow
  obtain ⟨put, rfl, flow', readopen, writeopen, why⟩ := pipewrite_spec flow run
  have suffix := (inv.procs i).rest src _ false at'
  have before := (inv.procs i).sent
  rw [at', Proc.put] at before
  have fits := flow'.fifo.fits
  have lengths := lengths_of_all all
  rw [List.length_append] at fits why
  refine ⟨put, rfl, ⟨readopen, writeopen, (inv.procs i).writer (by rw [at']; rfl), suffix, ⟨items ++ put, flow', ?_⟩,
    by omega, ?_⟩, ?_⟩
  · rw [List.map_append, all, List.map_map, List.append_assoc]
    congr 2
    exact List.map_id put
  · rw [ofProc_append, if_pos rfl, before, take_rest suffix, List.append_assoc]
  · rwa [lengths, Nat.add_assoc, Nat.add_sub_cancel_left]

/-- What the other processes find then. -/
theorem Moved.others {put : List UInt8} (moved : Moved s i src put left p) (inv : Inv s) (pipe : t.pipe = p)
    (sent : t.sent = s.sent ++ put.map (i, ·)) (received : t.received = s.received) (killed : t.killed = s.killed)
    (other : j ≠ i) (writes : t.writes j = s.writes j) : At t j (s.proc j) := by
  refine (inv.procs j).congr (fun _ => by rw [pipe, moved.readopen]) (fun _ => by rw [pipe, moved.writeopen]) ?_ writes
    fun src rest same => ?_
  · rw [sent, ofProc_append, if_neg (Ne.symm other), List.append_nil]
  · obtain ⟨full, opened, alive⟩ := (inv.procs j).full src rest same
    have none : put = [] := by
      rw [← List.length_eq_zero_iff]
      have fits := moved.fits
      omega
    rw [pipe, sent, received, killed, none, List.map_nil, List.append_nil, moved.readopen]
    exact ⟨full, opened, alive⟩

theorem Moved.freed {put : List UInt8} (moved : Moved s i src put left p) (inv : Inv s) :
    s.freed = if p.readopen = false ∧ p.writeopen = false then 1 else 0 := by
  rw [moved.readopen, moved.writeopen]
  exact inv.freed

private theorem Moved.notEnded {put : List UInt8} (moved : Moved s i src put left p) (inv : Inv s) : s.ended ≠ true := by
  intro ended
  have isOpen := moved.isOpen
  rw [(inv.ended ended).1] at isOpen
  exact Bool.false_ne_true isOpen

/-- The call returns, and may wake the readers. -/
theorem Moved.returns {put : List UInt8} (moved : Moved s i src put left p) (inv : Inv s) {w : Written}
    (bytes : w.src = src)
    (count : w.put = src.length - left.length)
    (result : left = [] ∧ w.result = src.length ∨ left ≠ [] ∧ w.result = -1) {proc : Fin n → Proc} (out : proc i = .out)
    (others : ∀ j, j ≠ i → proc j = s.proc j ∨ proc j = (s.proc j).wakeReader) :
    Inv { s with
      pipe := p
      sent := s.sent ++ put.map (i, ·)
      proc := proc
      writes := Function.update s.writes i (s.writes i ++ [w]) } := by
  refine ⟨moved.flow, moved.freed inv, fun j => ?_, inv.received, fun j v member => ?_,
    fun ended => absurd ended (moved.notEnded inv)⟩
  · rcases eq_or_ne j i with rfl | other
    · dsimp only
      rw [out]
      refine ⟨fun no => absurd no Bool.false_ne_true, fun no => absurd no Bool.false_ne_true,
        fun _ _ _ same => Proc.noConfusion same, ?_,
        fun _ _ same => Proc.noConfusion same⟩
      refine moved.sent.trans ?_
      change _ = List.flatMap _ (Function.update s.writes j _ j) ++ []
      rw [Function.update_self, List.flatMap_append, List.append_nil, List.flatMap_singleton, Written.done, bytes, count]
    · have here : At { s with
          pipe := p
          sent := s.sent ++ put.map (i, ·)
          proc := proc
          writes := Function.update s.writes i (s.writes i ++ [w]) } j (s.proc j) :=
        moved.others inv rfl rfl rfl rfl other (Function.update_of_ne other _ _)
      dsimp only
      rcases others j other with same | woken
      · rw [same]
        exact here
      · rw [woken]
        exact here.wakeReader
  · dsimp only at member
    rcases eq_or_ne j i with rfl | other
    · rw [Function.update_self, List.mem_append, List.mem_singleton] at member
      rcases member with old | rfl
      · exact inv.results j v old
      · rw [bytes, count]
        refine result.imp (fun ⟨done, whole⟩ => ⟨whole, ?_⟩) fun ⟨more, failed⟩ => ⟨failed, ?_⟩
        · rw [done, List.length_nil, Nat.sub_zero]
        · have positive := List.length_pos_iff.mpr more
          have short := moved.suffix.length_le
          rw [List.length_append] at short
          omega
    · rw [Function.update_of_ne other] at member
      exact inv.results j v member

/-- The pipe is full: the call wakes the readers and sleeps. -/
theorem Moved.sleeps {put : List UInt8} (moved : Moved s i src put left p) (inv : Inv s)
    (full : s.sent.length + put.length = s.received.length + PIPESIZE) (opened : s.pipe.readopen = true)
    (alive : s.killed i = false) :
    Inv ({ s with pipe := p, sent := s.sent ++ put.map (i, ·) }.wakeReaders.set i (.writing src left true)) := by
  refine ⟨moved.flow, moved.freed inv, fun j => ?_, inv.received, inv.results, fun ended =>
    absurd ended (moved.notEnded inv)⟩
  change At _ j (Function.update (fun k => (s.proc k).wakeReader) i (.writing src left true) j)
  rcases eq_or_ne j i with rfl | other
  · rw [Function.update_self]
    refine ⟨fun _ => moved.writeopen.trans moved.isOpen, fun no => absurd no Bool.false_ne_true, fun _ _ _ same => ?_,
      moved.sent,
      fun _ _ _ => ⟨?_, moved.readopen.trans opened, alive⟩⟩
    · cases same
      exact (List.suffix_append put left).trans moved.suffix
    · change (s.sent ++ put.map (j, ·)).length = s.received.length + PIPESIZE
      rw [List.length_append, List.length_map, full]
  · rw [Function.update_of_ne other]
    apply At.wakeReader
    exact moved.others inv rfl rfl rfl rfl other rfl

theorem Inv.runWrite (inv : Inv s) (at' : s.proc i = .writing src rest false) : Inv (s.runWrite i src rest) := by
  cases run : pipewrite (s.killed i) s.pipe rest with
  | mk p outcome =>
    obtain ⟨left, stop⟩ := outcome
    obtain ⟨put, rfl, moved, why⟩ := inv.moved at' run
    have taken : (put ++ left).take ((put ++ left).length - left.length) = put := by
      rw [List.length_append, Nat.add_sub_cancel, List.take_left]
    rw [St.runWrite, run]
    dsimp only
    rw [taken]
    cases stop with
    | done =>
      obtain rfl : left = [] := why
      exact moved.returns inv rfl rfl (.inl ⟨rfl, rfl⟩) (Function.update_self ..) fun j other =>
        .inr (Function.update_of_ne other _ _)
    | refused =>
      obtain ⟨some, _, _⟩ := why
      exact moved.returns inv rfl rfl (.inr ⟨some, rfl⟩) (Function.update_self ..) fun j other =>
        .inl (Function.update_of_ne other _ _)
    | full =>
      obtain ⟨_, full, opened, alive⟩ := why
      obtain ⟨items, _, all⟩ := inv.flow
      have lengths := lengths_of_all all
      exact moved.sleeps inv (by omega) opened alive

theorem Inv.runRead (inv : Inv s) (at' : s.proc i = .reading count false) : Inv (s.runRead i count) := by
  have isOpen : s.pipe.readopen = true := (inv.procs i).reader (by rw [at']; rfl)
  have before := (inv.procs i).sent
  rw [at'] at before
  have out : At s i .out :=
    ⟨fun no => absurd no Bool.false_ne_true, fun no => absurd no Bool.false_ne_true, fun _ _ _ same =>
      Proc.noConfusion same, before,
      fun _ _ same => Proc.noConfusion same⟩
  obtain ⟨items, flow, all⟩ := inv.flow
  have lengths := lengths_of_all all
  rw [St.runRead]
  split_ifs with empty killed
  · exact inv.set out
  · exact inv.set ⟨out.writer, fun _ => isOpen, fun _ _ _ same => Proc.noConfusion same, before,
      fun _ _ same => Proc.noConfusion same⟩
  cases run : piperead count s.pipe with
  | mk p bytes =>
    obtain ⟨taken, flow', readopen, writeopen⟩ := piperead_spec flow run
    have split : items = bytes ++ items.drop count := by rw [taken, List.take_append_drop]
    dsimp only
    refine ⟨⟨items.drop count, ?_, ?_⟩, ?_, fun j => ?_, fun j => ?_, inv.results, fun ended => ?_⟩
    · change Flow p (s.received ++ bytes.map (i, ·)).length _
      rw [List.length_append, List.length_map]
      exact flow'
    · change s.sent.map (·.2) = (s.received ++ bytes.map (i, ·)).map (·.2) ++ _
      rw [List.map_append, List.map_map, all, List.append_assoc]
      congr 1
      refine split.trans ?_
      congr 1
      exact (List.map_id bytes).symm
    · change s.freed = if p.readopen = false ∧ p.writeopen = false then 1 else 0
      rw [readopen, writeopen]
      exact inv.freed
    · change At _ j (Function.update (fun k => (s.proc k).wakeWriter) i .out j)
      rcases eq_or_ne j i with rfl | other
      · rw [Function.update_self]
        refine out.congr ?_ ?_ rfl rfl fun _ _ same => ?_
        · exact fun _ => readopen
        · exact fun _ => writeopen
        · cases same
      · rw [Function.update_of_ne other]
        have woken := (inv.procs j).wakeWriter
        refine woken.congr ?_ ?_ rfl rfl fun src rest same => ?_
        · exact fun _ => readopen
        · exact fun _ => writeopen
        · cases place : s.proc j <;> rw [place] at same <;> cases same
    · change ofProc j (s.received ++ bytes.map (i, ·)) = (Function.update s.reads i (s.reads i ++ [bytes]) j).flatten
      rw [ofProc_append, inv.received]
      rcases eq_or_ne j i with rfl | other
      · rw [if_pos rfl, Function.update_self, List.flatten_concat]
      · rw [if_neg (Ne.symm other), Function.update_of_ne other, List.append_nil]
    · change (s.ended || (bytes.isEmpty && decide (0 < count))) = true at ended
      change p.writeopen = false ∧ (s.received ++ bytes.map (i, ·)).length = s.sent.length
      rw [List.length_append, List.length_map, writeopen, lengths]
      rcases Bool.or_eq_true_iff.mp ended with before | now
      · obtain ⟨closed, same⟩ := inv.ended before
        have shorter := congrArg List.length split
        rw [List.length_append] at shorter
        exact ⟨closed, by omega⟩
      · obtain ⟨none, some⟩ := Bool.and_eq_true_iff.mp now
        rw [List.isEmpty_iff] at none
        have nothing : items = [] := by
          rw [none] at taken
          cases items with
          | nil => rfl
          | cons b items =>
            obtain ⟨count, rfl⟩ := Nat.exists_eq_succ_of_ne_zero (Nat.ne_of_gt (of_decide_eq_true some))
            exact absurd taken.symm (List.cons_ne_nil _ _)
        refine ⟨?_, by rw [none, nothing]⟩
        have drained := flow.empty_iff.mpr nothing
        exact Bool.eq_false_iff.mpr fun writable => empty ⟨drained, writable⟩

/-- The end that is closed has nobody in a call, so closing it concerns the other end only. -/
theorem Inv.shut (inv : Inv s) {writable : Bool} {freed : ℕ}
    (left : ∀ i, (if writable then (s.proc i).writes else (s.proc i).reads) = false)
    (count : freed =
      if (s.shut writable).pipe.readopen = false ∧ (s.shut writable).pipe.writeopen = false then 1 else 0) :
    Inv { s.shut writable with freed := freed } := by
  obtain ⟨items, flow, all⟩ := inv.flow
  cases writable with
  | true =>
    refine ⟨⟨items, ⟨flow.fifo, flow.nread, flow.nwrite⟩, all⟩, count, fun i => ?_, inv.received, inv.results,
      fun e => ⟨rfl, (inv.ended e).2⟩⟩
    have outside := left i
    rw [if_pos rfl] at outside
    change At _ i (s.proc i).wakeReader
    refine (inv.procs i).wakeReader.congr (fun _ => rfl) (fun w => ?_) rfl rfl fun src rest same => ?_
    · rw [writes_wakeReader, outside] at w
      cases w
    · have w := congrArg Proc.writes same
      rw [writes_wakeReader, outside] at w
      cases w
  | false =>
    refine ⟨⟨items, ⟨flow.fifo, flow.nread, flow.nwrite⟩, all⟩, count, fun i => ?_, inv.received, inv.results, inv.ended⟩
    have outside := left i
    rw [if_neg Bool.false_ne_true] at outside
    change At _ i (s.proc i).wakeWriter
    refine (inv.procs i).wakeWriter.congr (fun r => ?_) (fun _ => rfl) rfl rfl fun src rest same => ?_
    · rw [reads_wakeWriter, outside] at r
      cases r
    · cases place : s.proc i <;> rw [place] at same <;> cases same

theorem Inv.pipeclose (inv : Inv s) {writable : Bool}
    (isOpen : (if writable then s.pipe.writeopen else s.pipe.readopen) = true)
    (left : ∀ i, (if writable then (s.proc i).writes else (s.proc i).reads) = false) : Inv (s.pipeclose writable) := by
  have none : (s.shut writable).freed = 0 := by
    have same : (s.shut writable).freed = s.freed := by cases writable <;> rfl
    rw [same, inv.freed, if_neg]
    rintro ⟨one, two⟩
    cases writable
    · rw [if_neg Bool.false_ne_true, one] at isOpen
      exact Bool.false_ne_true isOpen
    · rw [if_pos rfl, two] at isOpen
      exact Bool.false_ne_true isOpen
  rw [St.pipeclose]
  split_ifs with both
  · exact inv.shut left (by rw [none, if_pos both])
  · exact inv.shut left (show (s.shut writable).freed = _ by rw [none, if_neg both])

theorem Inv.step (inv : Inv s) (run : step s a = some t) : Inv t := by
  cases a with
  | write i src =>
    rw [Pipe.step] at run
    split_ifs at run with may
    cases run
    exact inv.write may.1 may.2
  | read i count =>
    rw [Pipe.step] at run
    split_ifs at run with may
    cases run
    exact inv.read may.1 may.2 false
  | run i =>
    rw [Pipe.step] at run
    split at run
    · next at' =>
      cases run
      exact inv.runWrite at'
    · next at' =>
      cases run
      exact inv.runRead at'
    · cases run
  | kill i =>
    cases run
    exact inv.kill
  | close writable =>
    cases writable with
    | true =>
      rw [Pipe.step] at run
      split_ifs at run with may
      cases run
      exact inv.pipeclose may.1 may.2
    | false =>
      rw [Pipe.step] at run
      split_ifs at run with may
      cases run
      exact inv.pipeclose may.1 may.2

theorem Inv.pipealloc (data : ℕ → UInt8) : Inv (pipealloc data : St n) where
  flow := ⟨[], ⟨Fifo.empty _ _ _, rfl, rfl⟩, rfl⟩
  freed := rfl
  procs _ := ⟨fun no => absurd no Bool.false_ne_true, fun no => absurd no Bool.false_ne_true,
    fun _ _ _ same => Proc.noConfusion same, rfl,
    fun _ _ same => Proc.noConfusion same⟩
  received _ := rfl
  results _ _ member := absurd member List.not_mem_nil
  ended no := absurd no Bool.false_ne_true

theorem Inv.of_reachable {ok : St n → Action n → Prop} (reachable : (machine n).ReachableBy ok s) : Inv s := by
  refine reachable.invariant (fun s first => ?_) (fun s a t _ run inv => inv.step run)
  obtain ⟨data, rfl⟩ := first
  exact Inv.pipealloc data

/-- In every interleaving: the bytes that came out are the first of those that went in, and the others lie
in the buffer from the reading counter on; what a process has put in is what its finished calls report, all
the bytes when the result is their number and some when it is -1, and then the part of the call under way;
what it took out is what its calls returned; no bytes follow a read that reported the end; and the pipe is
freed at most once, when nobody is in it any more. -/
theorem pipe_transfers (reachable : (machine n).Reachable s) :
    (∃ items, s.sent.map (·.2) = s.received.map (·.2) ++ items ∧ items.length ≤ PIPESIZE ∧
      ∀ k (inside : k < items.length), s.pipe.data ((s.pipe.nread + k) % PIPESIZE) = items[k]) ∧
      (∀ i, ofProc i s.sent = (s.writes i).flatMap Written.done ++ (s.proc i).put ∧ ∀ w ∈ s.writes i,
        (w.result = w.src.length ∧ w.done = w.src) ∨ (w.result = -1 ∧ w.done.length < w.src.length)) ∧
      (∀ i, ofProc i s.received = (s.reads i).flatten) ∧
      (s.ended = true → s.pipe.writeopen = false ∧ s.received.length = s.sent.length) ∧
      s.freed ≤ 1 ∧ (s.freed = 1 → ∀ i, s.proc i = .out) := by
  have inv := Inv.of_reachable reachable
  obtain ⟨items, flow, all⟩ := inv.flow
  refine ⟨⟨items, all, flow.fifo.fits, fun k inside => ?_⟩, fun i => ⟨(inv.procs i).sent, fun w member => ?_⟩,
    inv.received, inv.ended, ?_,
    fun freed i => ?_⟩
  · rw [← flow.fifo.item k inside, flow.nread]
    congr 1
    simp only [PIPESIZE]
    omega
  · rcases inv.results i w member with ⟨result, put⟩ | ⟨result, put⟩
    · exact .inl ⟨result, by rw [Written.done, put, List.take_length]⟩
    · exact .inr ⟨result, by rw [Written.done, List.length_take]; omega⟩
  · rw [inv.freed]
    split_ifs
    · exact Nat.le_refl 1
    · exact Nat.zero_le 1
  · have both : s.pipe.readopen = false ∧ s.pipe.writeopen = false := by
      by_contra other
      rw [inv.freed, if_neg other] at freed
      exact Nat.zero_ne_one freed
    cases place : s.proc i with
    | out => rfl
    | writing src rest asleep =>
      have isOpen := (inv.procs i).writer (by rw [place]; rfl)
      rw [both.2] at isOpen
      exact absurd isOpen Bool.false_ne_true
    | reading count asleep =>
      have isOpen := (inv.procs i).reader (by rw [place]; rfl)
      rw [both.1] at isOpen
      exact absurd isOpen Bool.false_ne_true

/-- A reader that waits, a writer that is killed, and the bytes of another writer. -/
def session : List (Action 3) :=
  [.read 0 4, .run 0, .kill 1, .write 2 [1, 2, 3], .run 2, .run 0, .read 0 4, .run 0]

theorem pipe_transfers_session : ∃ s, (machine 3).Reachable s ∧ s.received.length = 3 ∧
    ∀ i, ofProc i s.received = (s.reads i).flatten := by
  have success : ((machine 3).run (pipealloc fun _ => 0) session).any (fun s => s.received.length = 3) = true := by
    decide +kernel
  obtain ⟨s, run, count⟩ := (Option.any_eq_true _ _).mp success
  have reachable : (machine 3).Reachable s := Machine.reachable_of_run (machine 3) ⟨_, rfl⟩ session run
  exact ⟨s, reachable, of_decide_eq_true count, (pipe_transfers reachable).2.2.1⟩

/-- A killed writer that goes on has room for all the bytes that are left, or for none. -/
def Prompt (s : St n) : Action n → Prop
  | .run i => match s.proc i with
    | .writing _ rest _ => s.killed i = true →
      rest.length + s.sent.length ≤ s.received.length + PIPESIZE ∨ s.sent.length = s.received.length + PIPESIZE
    | _ => True
  | _ => True

instance (s : St n) (a : Action n) : Decidable (Prompt s a) := match a with
  | .run i => match h : s.proc i with
    | .writing src rest asleep => decidable_of_iff (s.killed i = true →
        rest.length + s.sent.length ≤ s.received.length + PIPESIZE ∨ s.sent.length = s.received.length + PIPESIZE)
        (by rw [Prompt, h])
    | .out | .reading .. => .isTrue (by rw [Prompt, h]; trivial)
  | .write .. | .read .. | .kill _ | .close _ => .isTrue trivial

/-- A reader sleeps on an empty pipe. -/
def Idle (s : St n) : Prop := ∀ i count, s.proc i = .reading count true →
  s.sent.length = s.received.length ∧ s.pipe.writeopen = true ∧ s.killed i = false

/-- A step that only changes where one process is. -/
theorem Idle.set (idle : Idle s) (here : ∀ count, proc = .reading count true →
    s.sent.length = s.received.length ∧ s.pipe.writeopen = true ∧ s.killed i = false) : Idle (s.set i proc) := by
  intro j count asleep
  change Function.update s.proc i proc j = _ at asleep
  rcases eq_or_ne j i with rfl | other
  · rw [Function.update_self] at asleep
    exact here count asleep
  · rw [Function.update_of_ne other] at asleep
    exact idle j count asleep

theorem Idle.runWrite (idle : Idle s) (inv : Inv s) (at' : s.proc i = .writing src rest false)
    (prompt : Prompt s (.run i)) :
    Idle (s.runWrite i src rest) := by
  obtain ⟨items, flow, all⟩ := inv.flow
  have lengths := lengths_of_all all
  cases run : pipewrite (s.killed i) s.pipe rest with
  | mk p outcome =>
    obtain ⟨left, stop⟩ := outcome
    obtain ⟨put, split, _, _, _, why⟩ := pipewrite_spec flow run
    -- a reader that is asleep afterwards was so before, and the writer was refused
    intro j count asleep
    rw [St.runWrite, run] at asleep
    dsimp only at asleep
    exfalso
    have awake : ∀ k : Fin n, (s.proc k).wakeReader ≠ .reading count true := by
      intro k same
      cases place : s.proc k <;> rw [place] at same <;> cases same
    have moved : ∀ (family : Fin n → Proc) (q : Proc), (∀ k, family k ≠ .reading count true) → q ≠ .reading count true →
        Function.update family i q j ≠ .reading count true := by
      intro family q none neither
      rcases eq_or_ne j i with rfl | other
      · rw [Function.update_self]
        exact neither
      · rw [Function.update_of_ne other]
        exact none j
    cases stop with
    | done => exact moved _ _ awake (fun same => Proc.noConfusion same) asleep
    | full => exact moved _ _ awake (fun same => Proc.noConfusion same) asleep
    | refused =>
      obtain ⟨some, full, because⟩ := why
      refine moved s.proc .out (fun k same => ?_) (fun same => Proc.noConfusion same) asleep
      obtain ⟨empty, _, _⟩ := idle k count same
      rcases because with closed | killed
      · have isOpen := (inv.procs k).reader (by rw [same]; rfl)
        rw [closed] at isOpen
        exact Bool.false_ne_true isOpen
      · rw [Prompt, at'] at prompt
        have positive := List.length_pos_iff.mpr some
        rw [List.length_append] at full
        have whole := congrArg List.length split
        rw [List.length_append] at whole
        have size : PIPESIZE = 512 := rfl
        rcases prompt killed with room | none <;> omega

theorem Idle.runRead (idle : Idle s) (inv : Inv s) : Idle (s.runRead i count) := by
  obtain ⟨items, flow, all⟩ := inv.flow
  have lengths := lengths_of_all all
  rw [St.runRead]
  split_ifs with empty killed
  · exact idle.set fun _ same => Proc.noConfusion same
  · refine idle.set fun _ _ => ⟨?_, empty.2, Bool.eq_false_iff.mpr killed⟩
    rw [lengths, flow.empty_iff.mp empty.1, List.length_nil, Nat.add_zero]
  · intro j count' asleep
    exfalso
    apply empty
    -- a reader that sleeps would have found nothing either
    have before : s.proc j = .reading count' true := by
      change Function.update (fun k => (s.proc k).wakeWriter) i .out j = _ at asleep
      rcases eq_or_ne j i with rfl | other
      · rw [Function.update_self] at asleep
        cases asleep
      · rw [Function.update_of_ne other] at asleep
        cases place : s.proc j <;> rw [place] at asleep <;> cases asleep
        rfl
    obtain ⟨same, isOpen, _⟩ := idle j count' before
    refine ⟨flow.empty_iff.mpr (List.length_eq_zero_iff.mp (by omega)), isOpen⟩

private theorem idle_pipeclose {writable : Bool} (left : writable = false → ∀ i, (s.proc i).reads = false) :
    Idle (s.pipeclose writable) := by
  intro j count asleep
  have same : (s.pipeclose writable).proc = (s.shut writable).proc := by
    rw [St.pipeclose]
    split_ifs <;> rfl
  rw [same] at asleep
  exfalso
  cases writable with
  | true =>
    change (s.proc j).wakeReader = _ at asleep
    cases place : s.proc j <;> rw [place] at asleep <;> cases asleep
  | false =>
    have outside := left rfl j
    change (s.proc j).wakeWriter = _ at asleep
    cases place : s.proc j <;> rw [place] at asleep outside <;> cases asleep
    cases outside

theorem Idle.step (idle : Idle s) (inv : Inv s) (prompt : Prompt s a) (run : step s a = some t) : Idle t := by
  cases a with
  | write i src =>
    rw [Pipe.step] at run
    split_ifs at run
    cases run
    exact idle.set fun _ same => Proc.noConfusion same
  | read i count =>
    rw [Pipe.step] at run
    split_ifs at run
    cases run
    refine idle.set fun _ same => ?_
    cases same
  | run i =>
    rw [Pipe.step] at run
    split at run
    · next at' =>
      cases run
      exact idle.runWrite inv at' prompt
    · cases run
      exact idle.runRead inv
    · cases run
  | kill i =>
    cases run
    intro j count asleep
    change Function.update s.proc i _ j = _ at asleep
    rcases eq_or_ne j i with rfl | other
    · rw [Function.update_self] at asleep
      cases place : s.proc j <;> rw [place] at asleep <;> cases asleep
    · rw [Function.update_of_ne other] at asleep
      obtain ⟨empty, isOpen, alive⟩ := idle j count asleep
      exact ⟨empty, isOpen, (Function.update_of_ne other _ _).trans alive⟩
  | close writable =>
    cases writable with
    | true =>
      rw [Pipe.step] at run
      split_ifs at run
      cases run
      exact idle_pipeclose fun no => absurd no.symm Bool.false_ne_true
    | false =>
      rw [Pipe.step] at run
      split_ifs at run with may
      cases run
      exact idle_pipeclose fun _ => may.2

/-- Where no killed writer stops in the middle, a process that sleeps has nothing to do: a reader sleeps on
an empty pipe whose other end is open, a writer on a full one, and both have not been killed. So a reader
and a writer never sleep at the same time. -/
theorem sleepers_have_nothing_to_do (reachable : (machine n).ReachableBy Prompt s) :
    (∀ i count, s.proc i = .reading count true →
      s.sent.length = s.received.length ∧ s.pipe.writeopen = true ∧ s.killed i = false) ∧
      (∀ i src rest, s.proc i = .writing src rest true →
        s.sent.length = s.received.length + PIPESIZE ∧ s.pipe.readopen = true ∧ s.killed i = false) ∧
      ∀ i j count src rest, s.proc i = .reading count true → s.proc j ≠ .writing src rest true := by
  have start : ∀ s, (machine n).init s → Inv s ∧ Idle s := by
    rintro s ⟨data, rfl⟩
    exact ⟨Inv.pipealloc data, fun _ _ same => Proc.noConfusion same⟩
  have next : ∀ s a t, Prompt s a → (machine n).step s a = some t → Inv s ∧ Idle s → Inv t ∧ Idle t :=
    fun s a t prompt run before => ⟨before.1.step run, before.2.step before.1 prompt run⟩
  obtain ⟨inv, idle⟩ := reachable.invariant start next
  refine ⟨idle, fun i => (inv.procs i).full, fun i j count src rest reader writer => ?_⟩
  have empty := (idle i count reader).1
  have full := ((inv.procs j).full src rest writer).1
  have size : PIPESIZE = 512 := rfl
  omega

theorem sleepers_have_nothing_to_do_session : ∃ s, (machine 3).ReachableBy Prompt s ∧ s.proc 0 = .reading 4 true ∧
    ∀ i count, s.proc i = .reading count true → s.sent.length = s.received.length ∧ s.pipe.writeopen = true ∧
    s.killed i = false := by
  have success : ((machine 3).runBy Prompt (pipealloc fun _ => 0) session).any (fun s =>
    s.proc 0 = .reading 4 true) = true := by
    decide +kernel
  obtain ⟨s, run, asleep⟩ := (Option.any_eq_true _ _).mp success
  have reachable : (machine 3).ReachableBy Prompt s := Machine.reachableBy_of_runBy ⟨_, rfl⟩ session run
  exact ⟨s, reachable, of_decide_eq_true asleep, (sleepers_have_nothing_to_do reachable).1⟩

/-- A killed writer of more bytes than the pipe takes fills the pipe and leaves without waking the readers:
a reader that sleeps on the empty pipe sleeps on when it is full. -/
theorem killed_writer_strands_reader {r w : Fin n} (reachable : (machine n).Reachable s)
    (asleep : s.proc r = .reading count true)
    (empty : s.sent.length = s.received.length) (isOpen : s.pipe.writeopen = true) (outside : s.proc w = .out)
    (killed : s.killed w = true) (long : PIPESIZE < src.length) :
    ∃ t u, step s (.write w src) = some t ∧ step t (.run w) = some u ∧ u.proc r = .reading count true ∧ u.proc w = .out ∧
      u.sent.length = u.received.length + PIPESIZE ∧ u.writes w = s.writes w ++ [⟨src, -1, PIPESIZE⟩] := by
  have inv := Inv.of_reachable reachable
  have other : r ≠ w := by
    rintro rfl
    rw [outside] at asleep
    cases asleep
  obtain ⟨items, flow, all⟩ := inv.flow
  have lengths := lengths_of_all all
  have calling : (s.set w (.writing src src false)).proc w = .writing src src false := Function.update_self ..
  refine ⟨s.set w (.writing src src false), (s.set w (.writing src src false)).runWrite w src src, ?_, ?_, ?_⟩
  · rw [step, if_pos ⟨isOpen, outside⟩]
  · rw [step, calling]
  cases run : pipewrite (s.killed w) s.pipe src with
  | mk p outcome =>
    obtain ⟨left, stop⟩ := outcome
    obtain ⟨put, split, flow', _, _, why⟩ := pipewrite_spec flow run
    have fits := flow'.fifo.fits
    have whole := congrArg List.length split
    rw [List.length_append] at fits whole
    have same : pipewrite ((s.set w (.writing src src false)).killed w) (s.set w (.writing src src false)).pipe src =
      (p, left, stop) := run
    rw [St.runWrite, same]
    cases stop with
    | done =>
      have nothing : left = [] := why
      rw [nothing, List.length_nil] at whole
      omega
    | full => exact absurd (killed.symm.trans why.2.2.2) Bool.true_eq_false.mp
    | refused =>
      have full := why.2.1
      rw [List.length_append] at full
      have put' : src.length - left.length = PIPESIZE := by omega
      refine ⟨?_, Function.update_self .., ?_, ?_⟩
      · change Function.update (Function.update s.proc w _) w .out r = _
        rw [Function.update_of_ne other, Function.update_of_ne other]
        exact asleep
      · change (s.sent ++ _).length = s.received.length + PIPESIZE
        rw [List.length_append, List.length_map, List.length_take, empty, put']
        omega
      · change Function.update s.writes w _ w = _
        rw [Function.update_self, put']
        rfl

theorem killed_writer_strands_reader_session : ∃ s t u : St 3, (machine 3).Reachable s ∧
    step s (.write 1 (List.replicate 600 7)) = some t ∧ step t (.run 1) = some u ∧ u.proc 0 = .reading 4 true ∧
    u.sent.length = u.received.length + PIPESIZE := by
  have success : ((machine 3).run (pipealloc fun _ => 0) session).any (fun s => s.proc 0 = .reading 4 true ∧
      s.sent.length = s.received.length ∧ s.pipe.writeopen = true ∧ s.proc 1 = .out ∧ s.killed 1 = true) = true := by
    decide +kernel
  obtain ⟨s, run, here⟩ := (Option.any_eq_true _ _).mp success
  obtain ⟨asleep, empty, isOpen, outside, killed⟩ := of_decide_eq_true here
  have reachable : (machine 3).Reachable s := Machine.reachable_of_run (machine 3) ⟨_, rfl⟩ session run
  obtain ⟨t, u, call, go, sleeps, _, full, _⟩ := killed_writer_strands_reader reachable asleep empty isOpen
    outside killed (show PIPESIZE < (List.replicate 600 7).length by rw [List.length_replicate]; decide)
  exact ⟨s, t, u, reachable, call, go, sleeps, full⟩

end Cs537.Fs.Pipe
