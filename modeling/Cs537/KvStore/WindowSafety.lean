import Cs537.KvStore.Window

/-! # The window protocol keeps requests, slots and answers together

A step belongs to one of four kinds: a client moves or submits, a client acknowledges an answer, a
server thread takes a descriptor or moves, a server thread writes its slot. One lemma for each kind
shows that the invariant survives, and the two step functions are sorted into the kinds.
-/

namespace Cs537.KvStore

open Lib

variable {n m : ℕ} {cfg : Config n} {s s' : System n m}

private theorem SystemInv.resOff_ne (inv : SystemInv cfg s) (fits : cfg.Fits) {t t' : Fin n} {r r' : ℕ}
    (first : s.InFlight t r) (second : s.InFlight t' r') (apart : (t, r) ≠ (t', r')) :
    cfg.resOff t r ≠ cfg.resOff t' r' := by
  intro same
  rw [fits.resOff_eq, fits.resOff_eq, descriptorBytes] at same
  exact inv.slotIndex_ne fits first second apart (by omega)

private theorem SystemInv.got_le (inv : SystemInv cfg s) : s.ring.got.length ≤ s.tags.length := by
  have lengths := congrArg List.length inv.tags_eq
  rw [List.length_map, List.length_map] at lengths
  rw [← lengths]
  exact inv.ring.order.length_le

/-- A server thread depends on the board at its own slot only. -/
theorem ServerOk.frame {board board' : ℤ → BufferDescriptor} {consumer : GetPc}
    {tag : Option (Fin n × ℕ)} {pc : ServerPc} (ok : ServerOk cfg board consumer tag pc)
    (same : ∀ bd, Serves cfg tag bd → board' bd.resOff = board bd.resOff) :
    ServerOk cfg board' consumer tag pc := by
  cases pc with
  | ringGet => exact ok
  | copyDescriptor bd => exact ok
  | exited => exact ok
  | dispatch bd | inPut bd | inGet bd =>
    obtain ⟨idle, serves, slot⟩ := ok
    exact ⟨idle, serves, (same bd serves).trans slot⟩
  | storeV bd v =>
    obtain ⟨idle, serves, slot⟩ := ok
    exact ⟨idle, serves, (same bd serves).trans slot⟩
  | setReady bd =>
    obtain ⟨idle, serves, v, slot⟩ := ok
    exact ⟨idle, serves, v, (same bd serves).trans slot⟩

/-- A client step that counts no answer: the counters of the other side and the board stay. -/
theorem SystemInv.clientSide (inv : SystemInv cfg s) {t : Fin n} {c : Client} {producer : SubmitPc}
    (client : s'.client = Function.update s.client t c)
    (producers : s'.ring.producer = Function.update s.ring.producer t producer)
    (consumers : s'.ring.consumer = s.ring.consumer) (got : s'.ring.got = s.ring.got)
    (board : s'.board = s.board) (server : s'.server = s.server) (serverTag : s'.serverTag = s.serverTag)
    (answers : s'.answers = s.answers) (ring : RingInv s'.ring)
    (tags_eq : s'.ring.submitted.map some = s'.tags.map cfg.request) (tags_nodup : s'.tags.Nodup)
    (tags_mem : ∀ t r, (t, r) ∈ s'.tags ↔ r < s'.copied t) (grows : s.tags <+: s'.tags)
    (completed : c.lastCompleted = (s.client t).lastCompleted)
    (copying : c.pc.copying = (s.client t).pc.copying)
    (own : ClientOk cfg t c producer (s.answers t)) : SystemInv cfg s' := by
  have completed' (u : Fin n) : (s'.client u).lastCompleted = (s.client u).lastCompleted := by
    rw [client]
    exact apply_update_of_eq Client.lastCompleted completed u
  have flag (u : Fin n) (r : ℕ) : (s'.client u).readyFlag r = (s.client u).readyFlag r := by
    rw [client]
    apply apply_update_of_eq (fun c : Client => c.readyFlag r)
    simp only [Client.readyFlag, copying, completed]
  have taken : s'.taken = s.taken := by
    obtain ⟨rest, eq⟩ := grows
    rw [System.taken, System.taken, got, ← eq, List.take_append_of_le_length inv.got_le]
  refine ⟨ring, tags_eq, tags_nodup, tags_mem, ?_, ?_, ?_, ?_, ?_, ?_, ?_⟩
  · intro u
    rw [client, producers, answers]
    by_cases eq : u = t
    · subst eq
      rw [Function.update_self, Function.update_self]
      exact own
    · rw [Function.update_of_ne eq, Function.update_of_ne eq]
      exact inv.clients u
  · intro j
    rw [board, consumers, serverTag, server]
    exact inv.servers j
  · intro j tag
    rw [serverTag, taken, answers]
    exact inv.held j tag
  · rw [serverTag]
    exact inv.heldOnce
  · intro u r a
    rw [answers, taken]
    exact inv.answered u r a
  · intro u r a
    rw [answers, completed', board, flag]
    exact inv.posted u r a
  · intro offset
    simp only [board, completed', answers, flag]
    exact inv.ready offset

/-- A client step that puts no tag into the ring. -/
theorem SystemInv.clientKeep (inv : SystemInv cfg s) {t : Fin n} {c : Client} {producer : SubmitPc}
    (client : s'.client = Function.update s.client t c)
    (producers : s'.ring.producer = Function.update s.ring.producer t producer)
    (consumers : s'.ring.consumer = s.ring.consumer) (submitted : s'.ring.submitted = s.ring.submitted)
    (got : s'.ring.got = s.ring.got) (board : s'.board = s.board) (server : s'.server = s.server)
    (tags : s'.tags = s.tags) (serverTag : s'.serverTag = s.serverTag) (answers : s'.answers = s.answers)
    (ring : RingInv s'.ring) (total : c.lastSubmitted + producer.filled.toNat = s.copied t)
    (completed : c.lastCompleted = (s.client t).lastCompleted)
    (copying : c.pc.copying = (s.client t).pc.copying)
    (own : ClientOk cfg t c producer (s.answers t)) : SystemInv cfg s' := by
  refine inv.clientSide client producers consumers got board server serverTag answers ring ?_ ?_ ?_ ?_
    completed copying own
  · rw [submitted, tags]
    exact inv.tags_eq
  · rw [tags]
    exact inv.tags_nodup
  · intro u r
    rw [tags, inv.tags_mem u r]
    by_cases eq : u = t
    · subst eq
      rw [← total, System.copied, client, producers, Function.update_self, Function.update_self]
    · rw [System.copied, System.copied, client, producers, Function.update_of_ne eq,
        Function.update_of_ne eq]
  · rw [tags]

private theorem ClientOk.producer_idle {t : Fin n} {c : Client} {producer : SubmitPc}
    {answers : ℕ → Option BufferDescriptor} (ok : ClientOk cfg t c producer answers)
    (outside : c.pc ≠ .ringSubmit) : producer = .idle := by
  by_contra busy
  exact outside (ok.calling.mpr busy)

/-- A client moves without touching the ring. -/
theorem SystemInv.moveClient (inv : SystemInv cfg s) {t : Fin n} {pc : ClientPc}
    (outside : (s.client t).pc ≠ .ringSubmit) (still : (s.client t).pc.copying = false)
    (outside' : pc ≠ .ringSubmit) (still' : pc.copying = false)
    (expecting : pc.acknowledging = true → s.answers t (s.client t).lastCompleted ≠ none) :
    SystemInv cfg (s.setClient t { s.client t with pc := pc }) := by
  have own := inv.clients t
  refine inv.clientKeep rfl (Function.update_eq_self t s.ring.producer).symm rfl rfl rfl rfl rfl rfl rfl rfl
    inv.ring rfl rfl (still'.trans still.symm) ?_
  exact { own with
    room := fun calling => (outside' calling).elim
    calling := by simp [outside', own.producer_idle outside]
    expecting := expecting }

/-- The client enters `ring_submit` with the descriptor of its next request. -/
theorem SystemInv.callSubmit (inv : SystemInv cfg s) {t : Fin n} {bd : BufferDescriptor}
    {ring : RingState n m} (at_pc : (s.client t).pc = .submitTest)
    (room : (s.client t).lastSubmitted < (s.client t).lastCompleted + cfg.winSize)
    (request : cfg.request (t, (s.client t).lastSubmitted) = some bd)
    (call : s.ring.callSubmit t (some bd) = some ring) :
    SystemInv cfg { s.setClient t { s.client t with pc := .ringSubmit } with ring := ring } := by
  have own := inv.clients t
  have idle := own.producer_idle (by rw [at_pc]; simp)
  have ringInv := inv.ring.callSubmit call
  simp only [RingState.callSubmit, idle, Option.some.injEq] at call
  subst call
  refine inv.clientKeep rfl rfl rfl rfl rfl rfl rfl rfl rfl rfl ringInv ?_ rfl (by rw [at_pc]; rfl) ?_
  · rw [System.copied, idle]
    rfl
  · exact { own with
      room := fun _ => room
      calling := by simp
      carried := by
        intro bd' carried
        cases carried
        exact request
      expecting := by intro acknowledging; cases acknowledging }

/-- The instruction of `ring_submit` that puts the descriptor into its slot. -/
private theorem SystemInv.submitCopy (inv : SystemInv cfg s) {t : Fin n} {bd : BufferDescriptor}
    (at_pc : (s.client t).pc = .ringSubmit) (at_producer : s.ring.producer t = .copy bd)
    (client : s'.client = s.client)
    (producers : s'.ring.producer = Function.update s.ring.producer t .advance)
    (consumers : s'.ring.consumer = s.ring.consumer)
    (submitted : s'.ring.submitted = s.ring.submitted ++ [bd])
    (got : s'.ring.got = s.ring.got) (board : s'.board = s.board) (server : s'.server = s.server)
    (tags : s'.tags = s.tags ++ [(t, (s.client t).lastSubmitted)]) (serverTag : s'.serverTag = s.serverTag)
    (answers : s'.answers = s.answers) (ring : RingInv s'.ring) : SystemInv cfg s' := by
  have own := inv.clients t
  have copied : s.copied t = (s.client t).lastSubmitted := by
    rw [System.copied, at_producer]
    rfl
  refine inv.clientSide (client.trans (Function.update_eq_self t s.client).symm) producers consumers got board
    server serverTag answers ring ?_ ?_ ?_ ?_ rfl rfl ?_
  · rw [submitted, tags, List.map_append, List.map_append, inv.tags_eq]
    simp only [List.map_cons, List.map_nil]
    rw [own.carried bd (by rw [at_producer]; rfl)]
  · rw [tags]
    refine inv.tags_nodup.append (List.nodup_singleton _) ?_
    rw [List.disjoint_singleton, inv.tags_mem, copied]
    exact Nat.lt_irrefl _
  · intro u r
    rw [tags, List.mem_append, List.mem_singleton, inv.tags_mem u r, Prod.mk.injEq]
    rw [System.copied, System.copied, client, producers]
    by_cases eq : u = t
    · subst eq
      rw [Function.update_self, at_producer]
      simp only [SubmitPc.filled, Bool.toNat_false, Bool.toNat_true, true_and]
      omega
    · rw [Function.update_of_ne eq]
      simp [eq]
  · rw [tags]
    exact List.prefix_append _ _
  · exact { own with
      calling := by simp [at_pc]
      carried := by intro bd' carried; cases carried }

private theorem System.tagSubmit_eq (s : System n m) {t : Fin n} (notCopy : ∀ bd, s.ring.producer t ≠ .copy bd) :
    s.tagSubmit t = s.tags := by
  rw [System.tagSubmit]
  cases at_producer : s.ring.producer t with
  | copy bd => exact (notCopy bd at_producer).elim
  | _ => rfl

/-- Any other instruction of `ring_submit` but the last. -/
private theorem SystemInv.submitMove (inv : SystemInv cfg s) {t : Fin n} (producer : SubmitPc)
    {ring : RingState n m} (at_pc : (s.client t).pc = .ringSubmit) (busy : producer ≠ .idle)
    (filled : producer.filled = (s.ring.producer t).filled)
    (carried : producer.carried = (s.ring.producer t).carried)
    (notCopy : ∀ bd, s.ring.producer t ≠ .copy bd)
    (producers : ring.producer = Function.update s.ring.producer t producer)
    (consumers : ring.consumer = s.ring.consumer) (submitted : ring.submitted = s.ring.submitted)
    (got : ring.got = s.ring.got) (ringInv : RingInv ring) :
    SystemInv cfg { s.setClient t (if ring.producer t = .idle then
        { s.client t with pc := .submitTest, lastSubmitted := (s.client t).lastSubmitted + 1 }
        else s.client t) with
      ring := ring
      tags := s.tagSubmit t } := by
  have own := inv.clients t
  refine inv.clientKeep (c := s.client t) ?_ producers consumers submitted got rfl rfl ?_ rfl rfl ringInv ?_
    rfl rfl ?_
  · simp [System.setClient, producers, busy]
  · exact s.tagSubmit_eq notCopy
  · rw [System.copied, filled]
  · exact { own with
      calling := by simp [at_pc, busy]
      carried := by rw [carried]; exact own.carried }

/-- The client takes a step inside `ring_submit`. -/
theorem SystemInv.ringSubmit (inv : SystemInv cfg s) {t : Fin n} {ring : RingState n m}
    (at_pc : (s.client t).pc = .ringSubmit) (step : s.ring.ringSubmit t = some ring) :
    SystemInv cfg { s.setClient t (if ring.producer t = .idle then
        { s.client t with pc := .submitTest, lastSubmitted := (s.client t).lastSubmitted + 1 }
        else s.client t) with
      ring := ring
      tags := s.tagSubmit t } := by
  have own := inv.clients t
  have ringInv := inv.ring.ringSubmit step
  cases at_producer : s.ring.producer t with
  | idle => simp [RingState.ringSubmit, at_producer] at step
  | semWait bd =>
    simp only [RingState.ringSubmit, at_producer, Option.ite_none_left_eq_some, Option.some.injEq] at step
    obtain ⟨_, rfl⟩ := step
    apply inv.submitMove (.lock bd) at_pc <;> simp [at_producer, SubmitPc.filled, SubmitPc.carried, ringInv]
  | lock bd =>
    simp only [RingState.ringSubmit, at_producer, Option.ite_none_right_eq_some, Option.some.injEq] at step
    obtain ⟨_, rfl⟩ := step
    apply inv.submitMove (.copy bd) at_pc <;> simp [at_producer, SubmitPc.filled, SubmitPc.carried, ringInv]
  | copy bd =>
    simp only [RingState.ringSubmit, at_producer, Option.some.injEq] at step
    subst step
    refine inv.submitCopy at_pc at_producer ?_ rfl rfl rfl rfl rfl rfl ?_ rfl rfl ringInv
    · simp [System.setClient]
    · simp [System.tagSubmit, at_producer]
  | advance =>
    simp only [RingState.ringSubmit, at_producer, Option.some.injEq] at step
    subst step
    apply inv.submitMove .unlock at_pc <;> simp [at_producer, SubmitPc.filled, SubmitPc.carried, ringInv]
  | unlock =>
    simp only [RingState.ringSubmit, at_producer, Option.some.injEq] at step
    subst step
    apply inv.submitMove .semPost at_pc <;> simp [at_producer, SubmitPc.filled, SubmitPc.carried, ringInv]
  | semPost =>
    simp only [RingState.ringSubmit, at_producer, Option.some.injEq] at step
    subst step
    have room := own.room at_pc
    have completed := own.completed_le
    simp only [Function.update_self, if_true]
    refine inv.clientKeep rfl rfl rfl rfl rfl rfl rfl ?_ rfl rfl ringInv ?_ rfl (by rw [at_pc]; rfl) ?_
    · simp [System.tagSubmit, at_producer]
    · rw [System.copied, at_producer]
      rfl
    · exact { own with
        completed_le := by dsimp only; omega
        submitted_le := by dsimp only; omega
        room := by simp
        calling := by simp
        carried := by intro bd carried; cases carried
        expecting := by intro acknowledging; cases acknowledging }

/-- The client lowers the ready flag of the answer it expects. -/
theorem SystemInv.clearReady (inv : SystemInv cfg s) (fits : cfg.Fits) {t : Fin n} {final : Bool}
    (at_pc : (s.client t).pc = .clearReady final) :
    SystemInv cfg ((s.setClient t { s.client t with pc := .copyResult final }).writeBoard
      (cfg.compSlot t (s.client t).nxtComp)
      { s.board (cfg.compSlot t (s.client t).nxtComp) with ready := 0 }) := by
  have own := inv.clients t
  obtain ⟨a, answer⟩ := Option.ne_none_iff_exists'.mp (own.expecting (by rw [at_pc]; rfl))
  have expected := inv.answered_inFlight answer le_rfl
  rw [own.nxtComp, fits.compSlot_eq]
  have slot := inv.posted t _ a answer le_rfl
  have completed (u : Fin n) : (Function.update s.client t { s.client t with pc := .copyResult final }
      u).lastCompleted = (s.client u).lastCompleted := by
    apply apply_update_of_eq Client.lastCompleted
    rfl
  have flag (u : Fin n) (r : ℕ) (apart : (u, r) ≠ (t, (s.client t).lastCompleted)) :
      (Function.update s.client t { s.client t with pc := .copyResult final } u).readyFlag r =
        (s.client u).readyFlag r := by
    by_cases eq : u = t
    · subst eq
      have later : r ≠ (s.client u).lastCompleted := fun same => apart (by rw [same])
      simp [Client.readyFlag, later]
    · rw [Function.update_of_ne eq]
  refine ⟨inv.ring, inv.tags_eq, inv.tags_nodup, ?_, ?_, ?_, inv.held, inv.heldOnce, inv.answered, ?_, ?_⟩
  · intro u r
    refine (inv.tags_mem u r).trans ?_
    rw [System.copied, System.copied]
    simp only [System.setClient, System.writeBoard]
    rw [apply_update_of_eq Client.lastSubmitted (by rfl) u]
  · intro u
    simp only [System.setClient, System.writeBoard]
    by_cases eq : u = t
    · subst eq
      rw [Function.update_self]
      exact { own with
        room := by simp
        calling := by simp [own.producer_idle (by rw [at_pc]; simp)]
        expecting := fun _ => by simp [answer] }
    · rw [Function.update_of_ne eq]
      exact inv.clients u
  · intro j
    apply (inv.servers j).frame
    rintro bd ⟨⟨u, r⟩, mine, request⟩
    rw [(Config.request_eq_some request).1]
    apply Function.update_of_ne
    apply inv.resOff_ne fits (inv.held_inFlight mine) expected
    intro same
    obtain ⟨rfl, rfl⟩ := Prod.mk.inj same
    rw [(inv.held j _ mine).2] at answer
    cases answer
  · intro u r a' answer' later
    simp only [System.setClient, System.writeBoard, completed] at answer' later ⊢
    by_cases same : (u, r) = (t, (s.client t).lastCompleted)
    · obtain ⟨rfl, rfl⟩ := Prod.mk.inj same
      cases answer.symm.trans answer'
      rw [Function.update_self, slot]
      simp [Client.readyFlag, ClientPc.copying]
    · rw [Function.update_of_ne (inv.resOff_ne fits (inv.answered_inFlight answer' later) expected same),
        inv.posted u r a' answer' later]
      rw [flag u r same]
  · intro offset raised
    simp only [System.setClient, System.writeBoard, completed] at raised ⊢
    by_cases same : offset = cfg.resOff t (s.client t).lastCompleted
    · rw [same, Function.update_self] at raised
      cases raised
    · rw [Function.update_of_ne same] at raised
      obtain ⟨u, r, rfl, later, answered, up⟩ := inv.ready offset raised
      refine ⟨u, r, rfl, later, answered, ?_⟩
      rw [← up]
      exact flag u r (fun eq => same (by cases eq; rfl))

/-- The client copies the answer and counts it. -/
theorem SystemInv.copyResult (inv : SystemInv cfg s) (fits : cfg.Fits) {t : Fin n} {final : Bool}
    (at_pc : (s.client t).pc = .copyResult final) :
    SystemInv cfg (s.setClient t { s.client t with
      pc := .poll final
      res := Function.update (s.client t).res (s.client t).lastCompleted
        (s.board (cfg.compSlot t (s.client t).nxtComp))
      lastCompleted := (s.client t).lastCompleted + 1
      nxtComp := ((s.client t).nxtComp + 1) % cfg.winSize }) := by
  have own := inv.clients t
  obtain ⟨a, answer⟩ := Option.ne_none_iff_exists'.mp (own.expecting (by rw [at_pc]; rfl))
  have idle := own.producer_idle (by rw [at_pc]; simp)
  obtain ⟨_, expected⟩ := inv.answered_inFlight answer le_rfl
  have slot := inv.posted t _ a answer le_rfl
  rw [System.copied, idle] at expected
  simp only [SubmitPc.filled, Bool.toNat_false, Nat.add_zero] at expected
  rw [own.nxtComp, fits.compSlot_eq, slot]
  have lowered : (s.client t).readyFlag (s.client t).lastCompleted = 0 := by
    simp [Client.readyFlag, at_pc, ClientPc.copying]
  rw [lowered]
  refine ⟨inv.ring, inv.tags_eq, inv.tags_nodup, ?_, ?_, inv.servers, inv.held, inv.heldOnce, inv.answered,
    ?_, ?_⟩
  · intro u r
    refine (inv.tags_mem u r).trans ?_
    rw [System.copied, System.copied]
    simp only [System.setClient]
    rw [apply_update_of_eq Client.lastSubmitted (by rfl) u]
  · intro u
    simp only [System.setClient]
    by_cases eq : u = t
    · subst eq
      have window := own.submitted_le
      rw [Function.update_self]
      refine ⟨?_, ?_, by simp, ?_, by simp [idle], own.carried, ?_, ?_⟩
      · exact expected
      · dsimp only
        omega
      · exact Nat.mod_add_mod ..
      · intro acknowledging
        cases acknowledging
      · intro r earlier
        rcases Nat.lt_succ_iff_lt_or_eq.mp earlier with old | rfl
        · obtain ⟨b, answer', kept⟩ := own.acknowledged r old
          exact ⟨b, answer', (Function.update_of_ne (Nat.ne_of_lt old) ..).trans kept⟩
        · exact ⟨a, answer, Function.update_self ..⟩
    · rw [Function.update_of_ne eq]
      exact inv.clients u
  · intro u r a' answer' later
    simp only [System.setClient] at answer' later ⊢
    by_cases eq : u = t
    · subst eq
      rw [Function.update_self] at later ⊢
      have apart : r ≠ (s.client u).lastCompleted := (Nat.lt_of_succ_le later).ne'
      rw [inv.posted u r a' answer' (Nat.le_of_succ_le later)]
      simp [Client.readyFlag, apart, ClientPc.copying]
    · rw [Function.update_of_ne eq] at later ⊢
      exact inv.posted u r a' answer' later
  · intro offset raised
    obtain ⟨u, r, rfl, later, answered, up⟩ := inv.ready offset raised
    refine ⟨u, r, rfl, ?_⟩
    simp only [System.setClient]
    by_cases eq : u = t
    · subst eq
      rw [Function.update_self]
      have apart : r ≠ (s.client u).lastCompleted := by
        rintro rfl
        rw [lowered] at up
        cases up
      refine ⟨?_, answered, by simp [Client.readyFlag, ClientPc.copying]⟩
      dsimp only
      omega
    · rw [Function.update_of_ne eq]
      exact ⟨later, answered, up⟩

/-- A server step that writes no slot: the thread takes a tag or moves with the one it has. -/
theorem SystemInv.serverSide (inv : SystemInv cfg s) {j : Fin m} {pc : ServerPc} {consumer : GetPc}
    {tag : Option (Fin n × ℕ)} (server : s'.server = Function.update s.server j pc)
    (consumers : s'.ring.consumer = Function.update s.ring.consumer j consumer)
    (serverTag : s'.serverTag = Function.update s.serverTag j tag)
    (producers : s'.ring.producer = s.ring.producer) (submitted : s'.ring.submitted = s.ring.submitted)
    (client : s'.client = s.client) (board : s'.board = s.board) (tags : s'.tags = s.tags)
    (answers : s'.answers = s.answers) (ring : RingInv s'.ring) (grows : s.taken ⊆ s'.taken)
    (mine : ∀ held, tag = some held → held ∈ s'.taken ∧ s.answers held.1 held.2 = none ∧
      ∀ k, k ≠ j → s.serverTag k ≠ some held)
    (own : ServerOk cfg s.board consumer tag pc) : SystemInv cfg s' := by
  refine ⟨ring, ?_, ?_, ?_, ?_, ?_, ?_, ?_, ?_, ?_, ?_⟩
  · rw [submitted, tags]
    exact inv.tags_eq
  · rw [tags]
    exact inv.tags_nodup
  · intro t r
    rw [tags, System.copied, client, producers]
    exact inv.tags_mem t r
  · intro t
    rw [client, producers, answers]
    exact inv.clients t
  · intro k
    rw [board, consumers, serverTag, server]
    by_cases eq : k = j
    · subst eq
      rw [Function.update_self, Function.update_self, Function.update_self]
      exact own
    · rw [Function.update_of_ne eq, Function.update_of_ne eq, Function.update_of_ne eq]
      exact inv.servers k
  · intro k held holds
    rw [serverTag] at holds
    rw [answers]
    by_cases eq : k = j
    · subst eq
      rw [Function.update_self] at holds
      obtain ⟨taken, unanswered, _⟩ := mine held holds
      exact ⟨taken, unanswered⟩
    · rw [Function.update_of_ne eq] at holds
      obtain ⟨taken, unanswered⟩ := inv.held k held holds
      exact ⟨grows taken, unanswered⟩
  · rw [serverTag]
    exact inv.heldOnce.update fun k held apart holds => (mine held holds).2.2 k apart
  · intro t r a answer
    rw [answers] at answer
    obtain ⟨taken, shape⟩ := inv.answered t r a answer
    exact ⟨grows taken, shape⟩
  · intro t r a
    rw [answers, client, board]
    exact inv.posted t r a
  · intro offset
    rw [board, client, answers]
    exact inv.ready offset

/-- A server step that keeps the tag of the thread. -/
theorem SystemInv.serverKeep (inv : SystemInv cfg s) {j : Fin m} {pc : ServerPc} {consumer : GetPc}
    (server : s'.server = Function.update s.server j pc)
    (consumers : s'.ring.consumer = Function.update s.ring.consumer j consumer)
    (serverTag : s'.serverTag = s.serverTag) (producers : s'.ring.producer = s.ring.producer)
    (submitted : s'.ring.submitted = s.ring.submitted) (got : s'.ring.got = s.ring.got)
    (client : s'.client = s.client) (board : s'.board = s.board) (tags : s'.tags = s.tags)
    (answers : s'.answers = s.answers) (ring : RingInv s'.ring)
    (own : ServerOk cfg s.board consumer (s.serverTag j) pc) : SystemInv cfg s' := by
  have taken : s'.taken = s.taken := by rw [System.taken, System.taken, tags, got]
  refine inv.serverSide server consumers (serverTag.trans (Function.update_eq_self j s.serverTag).symm) producers
    submitted client board tags answers ring (by rw [taken]; exact List.Subset.refl _) ?_ own
  intro held holds
  obtain ⟨member, unanswered⟩ := inv.held j held holds
  refine ⟨taken ▸ member, unanswered, ?_⟩
  intro k apart theirs
  exact apart (inv.heldOnce k j held theirs holds)

/-- The instruction of `ring_get` that takes the oldest tag out of the ring. -/
private theorem SystemInv.getCopy (inv : SystemInv cfg s) {j : Fin m} {ring : RingState n m}
    (at_pc : s.server j = .ringGet) (at_consumer : s.ring.consumer j = .copy)
    (step : s.ring.ringGet j = some ring) :
    SystemInv cfg { s with
      ring := ring
      serverTag := Function.update s.serverTag j s.tags[s.ring.got.length]? } := by
  have ringInv := inv.ring.ringGet step
  have item := inv.ring.at_get_copy at_consumer
  simp only [RingState.ringGet, at_consumer, Option.some.injEq] at step
  subst step
  have requested : (s.tags.map cfg.request)[s.ring.got.length]? =
      some (some (s.ring.ring.buffer s.ring.ring.cTail)) := by
    rw [← inv.tags_eq, List.getElem?_map, item]
    rfl
  rw [List.getElem?_map] at requested
  obtain ⟨tag, found, request⟩ := Option.map_eq_some_iff.mp requested
  have taken : s.tags.take (s.ring.got.length + 1) = s.taken ++ [tag] := by
    rw [List.take_add_one, found]
    rfl
  have fresh : tag ∉ s.taken := by
    have nodup := inv.tags_nodup.sublist (List.take_sublist (s.ring.got.length + 1) s.tags)
    rw [taken] at nodup
    intro member
    exact (List.nodup_append.mp nodup).2.2 tag member tag (List.mem_singleton_self tag) rfl
  rw [found]
  have taken' : System.taken { s with
      ring := { s.ring with
        consumer := Function.update s.ring.consumer j (.advance (s.ring.ring.buffer s.ring.ring.cTail))
        got := s.ring.got ++ [s.ring.ring.buffer s.ring.ring.cTail] }
      serverTag := Function.update s.serverTag j (some tag) } = s.taken ++ [tag] := by
    rw [System.taken, List.length_append]
    exact taken
  refine inv.serverSide (Function.update_eq_self j s.server).symm rfl rfl rfl rfl rfl rfl rfl rfl ringInv ?_ ?_ ?_
  · rw [taken']
    exact List.subset_append_left _ _
  · intro held same
    cases same
    refine ⟨?_, ?_, ?_⟩
    · rw [taken']
      simp
    · by_contra answered
      obtain ⟨a, answer⟩ := Option.ne_none_iff_exists'.mp answered
      exact fresh (inv.answered _ _ a answer).1
    · intro k _ theirs
      exact fresh (inv.held k _ theirs).1
  · rw [at_pc]
    rintro bd delivered
    cases delivered
    exact ⟨tag, rfl, request⟩

/-- A server thread takes a step inside `ring_get`. -/
theorem SystemInv.serverRing (inv : SystemInv cfg s) {j : Fin m} (at_pc : s.server j = .ringGet)
    (step : s.serverRing j = some s') : SystemInv cfg s' := by
  have own := inv.servers j
  rw [at_pc] at own
  have same : Function.update s.server j .ringGet = s.server := by
    rw [← at_pc]
    exact Function.update_eq_self j s.server
  cases at_consumer : s.ring.consumer j with
  | idle =>
    simp only [System.serverRing, at_consumer, Option.map_eq_some_iff] at step
    obtain ⟨ring, call, rfl⟩ := step
    have ringInv := inv.ring.callGet call
    simp only [RingState.callGet, at_consumer, Option.some.injEq] at call
    subst call
    refine inv.serverKeep same.symm rfl rfl rfl rfl rfl rfl rfl rfl rfl ringInv ?_
    intro bd delivered
    cases delivered
  | semWait =>
    simp only [System.serverRing, at_consumer, Option.map_eq_some_iff] at step
    obtain ⟨ring, step, rfl⟩ := step
    have ringInv := inv.ring.ringGet step
    simp only [RingState.ringGet, at_consumer, Option.ite_none_left_eq_some, Option.some.injEq] at step
    obtain ⟨_, rfl⟩ := step
    refine inv.serverKeep same.symm rfl rfl rfl rfl rfl rfl rfl rfl rfl ringInv ?_
    intro bd delivered
    cases delivered
  | lock =>
    simp only [System.serverRing, at_consumer, Option.map_eq_some_iff] at step
    obtain ⟨ring, step, rfl⟩ := step
    have ringInv := inv.ring.ringGet step
    simp only [RingState.ringGet, at_consumer, Option.ite_none_right_eq_some, Option.some.injEq] at step
    obtain ⟨_, rfl⟩ := step
    refine inv.serverKeep same.symm rfl rfl rfl rfl rfl rfl rfl rfl rfl ringInv ?_
    intro bd delivered
    cases delivered
  | copy =>
    simp only [System.serverRing, at_consumer, Option.map_eq_some_iff] at step
    obtain ⟨ring, step, rfl⟩ := step
    exact inv.getCopy at_pc at_consumer step
  | advance bd =>
    simp only [System.serverRing, at_consumer, Option.map_eq_some_iff] at step
    obtain ⟨ring, step, rfl⟩ := step
    have ringInv := inv.ring.ringGet step
    simp only [RingState.ringGet, at_consumer, Option.some.injEq] at step
    subst step
    rw [at_consumer] at own
    exact inv.serverKeep same.symm rfl rfl rfl rfl rfl rfl rfl rfl rfl ringInv own
  | unlock bd =>
    simp only [System.serverRing, at_consumer, Option.map_eq_some_iff] at step
    obtain ⟨ring, step, rfl⟩ := step
    have ringInv := inv.ring.ringGet step
    simp only [RingState.ringGet, at_consumer, Option.some.injEq] at step
    subst step
    rw [at_consumer] at own
    exact inv.serverKeep same.symm rfl rfl rfl rfl rfl rfl rfl rfl rfl ringInv own
  | semPost bd =>
    simp only [System.serverRing, at_consumer, Option.map_eq_some_iff] at step
    obtain ⟨ring, step, rfl⟩ := step
    have ringInv := inv.ring.ringGet step
    simp only [RingState.ringGet, at_consumer, Option.some.injEq] at step
    subst step
    rw [at_consumer] at own
    exact inv.serverKeep rfl rfl rfl rfl rfl rfl rfl rfl rfl rfl ringInv
      ⟨rfl, own bd rfl⟩

/-- The slot a server thread writes belongs to no other server thread and to no answered request. -/
theorem SystemInv.slot_private (inv : SystemInv cfg s) (fits : cfg.Fits) {j : Fin m}
    {bd : BufferDescriptor} (serves : Serves cfg (s.serverTag j) bd) :
    (∀ k, k ≠ j → ∀ other, Serves cfg (s.serverTag k) other → other.resOff ≠ bd.resOff) ∧
      ∀ t r a, s.answers t r = some a → (s.client t).lastCompleted ≤ r → cfg.resOff t r ≠ bd.resOff := by
  obtain ⟨⟨u, q⟩, mine, request⟩ := serves
  rw [(Config.request_eq_some request).1]
  constructor
  · rintro k apart other ⟨⟨t, r⟩, theirs, request'⟩
    rw [(Config.request_eq_some request').1]
    apply inv.resOff_ne fits (inv.held_inFlight theirs) (inv.held_inFlight mine)
    intro same
    rw [same] at theirs
    exact apart (inv.heldOnce k j _ theirs mine)
  · intro t r a answer later
    apply inv.resOff_ne fits (inv.answered_inFlight answer later) (inv.held_inFlight mine)
    intro same
    obtain ⟨rfl, rfl⟩ := Prod.mk.inj same
    rw [(inv.held j _ mine).2] at answer
    cases answer

/-- A server thread writes its slot and leaves the flag down. -/
theorem SystemInv.writeSlot (inv : SystemInv cfg s) (fits : cfg.Fits) {j : Fin m} {pc : ServerPc}
    {bd value : BufferDescriptor} (serves : Serves cfg (s.serverTag j) bd) (down : value.ready = 0)
    (own : ServerOk cfg (Function.update s.board bd.resOff value) (s.ring.consumer j) (s.serverTag j) pc) :
    SystemInv cfg ((s.setServer j pc).writeBoard bd.resOff value) := by
  obtain ⟨servers, answers⟩ := inv.slot_private fits serves
  refine ⟨inv.ring, inv.tags_eq, inv.tags_nodup, inv.tags_mem, inv.clients, ?_, inv.held, inv.heldOnce,
    inv.answered, ?_, ?_⟩
  · intro k
    simp only [System.setServer, System.writeBoard]
    by_cases eq : k = j
    · subst eq
      rw [Function.update_self]
      exact own
    · rw [Function.update_of_ne eq]
      exact (inv.servers k).frame fun other serves => Function.update_of_ne (servers k eq other serves) ..
  · intro t r a answer later
    simp only [System.setServer, System.writeBoard]
    rw [Function.update_of_ne (answers t r a answer later)]
    exact inv.posted t r a answer later
  · intro offset raised
    simp only [System.setServer, System.writeBoard] at raised ⊢
    by_cases same : offset = bd.resOff
    · rw [same, Function.update_self, down] at raised
      cases raised
    · rw [Function.update_of_ne same] at raised
      exact inv.ready offset raised

/-- A server thread raises the flag: its request is answered. -/
theorem SystemInv.setReady (inv : SystemInv cfg s) (fits : cfg.Fits) {j : Fin m} {bd : BufferDescriptor}
    (at_pc : s.server j = .setReady bd) (step : s.serverStep j = some s') : SystemInv cfg s' := by
  have own := inv.servers j
  rw [at_pc] at own
  obtain ⟨idle, serves, v, slot⟩ := own
  obtain ⟨servers, answers⟩ := inv.slot_private fits serves
  obtain ⟨⟨u, q⟩, mine, request⟩ := serves
  obtain ⟨taken, unanswered⟩ := inv.held j _ mine
  have here : bd.resOff = cfg.resOff u q := (Config.request_eq_some request).1
  have flying := inv.held_inFlight mine
  have up : (s.client u).readyFlag q = 1 := by
    have other : ¬((s.client u).pc.copying = true ∧ q = (s.client u).lastCompleted) := by
      rintro ⟨copying, rfl⟩
      refine (inv.clients u).expecting ?_ unanswered
      cases pc : (s.client u).pc <;> simp [pc, ClientPc.copying, ClientPc.acknowledging] at copying ⊢
    simp [Client.readyFlag, other]
  have elsewhere (t : Fin n) (r : ℕ) (apart : (t, r) ≠ (u, q)) (value : Option BufferDescriptor) :
      Function.update s.answers u (Function.update (s.answers u) q value) t r = s.answers t r := by
    by_cases eq : t = u
    · subst eq
      rw [Function.update_self, Function.update_of_ne fun same => apart (by rw [same])]
    · rw [Function.update_of_ne eq]
  simp only [System.serverStep, at_pc, System.recordAnswer, mine, Option.some.injEq, slot] at step
  subst step
  simp only [System.setServer, System.writeBoard]
  refine ⟨inv.ring, inv.tags_eq, inv.tags_nodup, inv.tags_mem, ?_, ?_, ?_, ?_, ?_, ?_, ?_⟩
  · intro t
    have client := inv.clients t
    refine { client with expecting := ?_, acknowledged := ?_ }
    · intro acknowledging
      have old := client.expecting acknowledging
      dsimp only
      rw [elsewhere]
      · exact old
      · rintro same
        obtain ⟨rfl, rfl⟩ := Prod.mk.inj same
        exact old unanswered
    · intro r earlier
      dsimp only
      rw [elsewhere]
      · exact client.acknowledged r earlier
      · rintro same
        obtain ⟨rfl, rfl⟩ := Prod.mk.inj same
        exact absurd flying.1 (Nat.not_le_of_lt earlier)
  · intro k
    by_cases eq : k = j
    · subst eq
      simp only [Function.update_self, idle]
      intro bd' delivered
      cases delivered
    · simp only [Function.update_of_ne eq]
      exact (inv.servers k).frame fun other serves => Function.update_of_ne (servers k eq other serves) ..
  · intro k tag theirs
    dsimp only at theirs ⊢
    by_cases eq : k = j
    · subst eq
      rw [Function.update_self] at theirs
      cases theirs
    · rw [Function.update_of_ne eq] at theirs
      rw [elsewhere]
      · exact inv.held k tag theirs
      · intro same
        rw [Prod.mk.eta] at same
        rw [same] at theirs
        exact eq (inv.heldOnce k j _ theirs mine)
  · apply inv.heldOnce.update
    intro k tag _ label
    cases label
  · intro t r a answer
    dsimp only at answer
    by_cases same : (t, r) = (u, q)
    · obtain ⟨rfl, rfl⟩ := Prod.mk.inj same
      rw [Function.update_self, Function.update_self, Option.some.injEq] at answer
      exact ⟨taken, bd, v, request, answer.symm⟩
    · rw [elsewhere t r same] at answer
      exact inv.answered t r a answer
  · intro t r a answer later
    dsimp only at answer ⊢
    by_cases same : (t, r) = (u, q)
    · obtain ⟨rfl, rfl⟩ := Prod.mk.inj same
      rw [Function.update_self, Function.update_self, Option.some.injEq] at answer
      rw [← here, Function.update_self, up, ← answer]
    · rw [elsewhere t r same] at answer
      rw [Function.update_of_ne (answers t r a answer later)]
      exact inv.posted t r a answer later
  · intro offset raised
    dsimp only at raised
    by_cases same : offset = bd.resOff
    · refine ⟨u, q, same.trans here, flying.1, ?_, up⟩
      simp
    · rw [Function.update_of_ne same] at raised
      obtain ⟨t, r, at_slot, later, answered, up'⟩ := inv.ready offset raised
      refine ⟨t, r, at_slot, later, ?_, up'⟩
      dsimp only
      rw [elsewhere]
      · exact answered
      · intro eq
        obtain ⟨rfl, rfl⟩ := Prod.mk.inj eq
        exact answered unanswered

/-- A raised flag on the slot the client polls belongs to the request it expects. -/
private theorem SystemInv.answered_of_ready (inv : SystemInv cfg s) (fits : cfg.Fits) {t : Fin n}
    (raised : (s.board (cfg.resOff t (s.client t).lastCompleted)).ready = 1) :
    s.answers t (s.client t).lastCompleted ≠ none := by
  obtain ⟨u, r, same, later, answered, _⟩ := inv.ready _ raised
  rw [fits.resOff_eq, fits.resOff_eq, descriptorBytes] at same
  obtain ⟨a, answer⟩ := Option.ne_none_iff_exists'.mp answered
  have window := inv.copied_le u
  have flying := inv.answered_inFlight answer later
  have positive := fits.positive
  have expected : (t, (s.client t).lastCompleted) = (u, r) :=
    fits.slot_inj (fun t => (s.client t).lastCompleted) le_rfl (by omega) later
      (lt_of_lt_of_le flying.2 window) (by omega)
  obtain ⟨rfl, rfl⟩ := Prod.mk.inj expected
  exact answered

/-- Every step of a client thread keeps the invariant. -/
theorem SystemInv.clientStep (inv : SystemInv cfg s) (fits : cfg.Fits) {t : Fin n}
    (step : s.clientStep cfg t = some s') : SystemInv cfg s' := by
  cases at_pc : (s.client t).pc with
  | loopTest =>
    simp only [System.clientStep, at_pc, Option.some.injEq] at step
    subst step
    split_ifs <;> apply inv.moveClient <;> simp [at_pc, ClientPc.copying, ClientPc.acknowledging]
  | finalTest =>
    simp only [System.clientStep, at_pc, Option.some.injEq] at step
    subst step
    split_ifs <;> apply inv.moveClient <;> simp [at_pc, ClientPc.copying, ClientPc.acknowledging]
  | submitTest =>
    simp only [System.clientStep, at_pc] at step
    split_ifs at step with room
    · cases found : (cfg.reqs t)[(s.client t).lastSubmitted]? with
      | none =>
        simp only [found, Option.some.injEq] at step
        subst step
        apply inv.moveClient <;> simp [at_pc, ClientPc.copying, ClientPc.acknowledging]
      | some req =>
        simp only [found, Option.map_eq_some_iff] at step
        obtain ⟨ring, call, rfl⟩ := step
        refine inv.callSubmit at_pc (by omega) ?_ call
        rw [Config.request, found]
        rfl
    · simp only [Option.some.injEq] at step
      subst step
      apply inv.moveClient <;> simp [at_pc, ClientPc.copying, ClientPc.acknowledging]
  | ringSubmit =>
    simp only [System.clientStep, at_pc, Option.map_eq_some_iff] at step
    obtain ⟨ring, step, rfl⟩ := step
    exact inv.ringSubmit at_pc step
  | poll final =>
    simp only [System.clientStep, at_pc, Option.some.injEq] at step
    subst step
    split_ifs with raised
    · refine inv.moveClient (by simp [at_pc]) (by rw [at_pc]; rfl) (by simp) rfl fun _ => ?_
      rw [(inv.clients t).nxtComp, fits.compSlot_eq] at raised
      exact inv.answered_of_ready fits raised
    · apply inv.moveClient <;> simp [at_pc, ClientPc.copying, ClientPc.acknowledging]
    · apply inv.moveClient <;> simp [at_pc, ClientPc.copying, ClientPc.acknowledging]
  | clearReady final =>
    simp only [System.clientStep, at_pc, Option.some.injEq] at step
    subst step
    exact inv.clearReady fits at_pc
  | copyResult final =>
    simp only [System.clientStep, at_pc, Option.some.injEq] at step
    subst step
    exact inv.copyResult fits at_pc
  | done => simp [System.clientStep, at_pc] at step

/-- Every step of a server thread keeps the invariant. -/
theorem SystemInv.serverStep (inv : SystemInv cfg s) (fits : cfg.Fits) {j : Fin m}
    (step : s.serverStep j = some s') : SystemInv cfg s' := by
  have own := inv.servers j
  have same := (Function.update_eq_self j s.ring.consumer).symm
  cases at_pc : s.server j with
  | ringGet =>
    simp only [System.serverStep, at_pc] at step
    exact inv.serverRing at_pc step
  | copyDescriptor bd =>
    rw [at_pc] at own
    obtain ⟨idle, serves⟩ := own
    simp only [System.serverStep, at_pc, Option.some.injEq] at step
    subst step
    obtain ⟨tag, mine, request⟩ := serves
    exact inv.writeSlot fits ⟨tag, mine, request⟩ (Config.request_eq_some request).2.1
      ⟨idle, ⟨tag, mine, request⟩, Function.update_self ..⟩
  | dispatch bd =>
    rw [at_pc] at own
    simp only [System.serverStep, at_pc] at step
    cases kind : bd.reqType with
    | put =>
      simp only [kind, Option.map_eq_some_iff] at step
      obtain ⟨table, _, rfl⟩ := step
      exact inv.serverKeep rfl same rfl rfl rfl rfl rfl rfl rfl rfl inv.ring own
    | get =>
      simp only [kind, Option.map_eq_some_iff] at step
      obtain ⟨table, _, rfl⟩ := step
      exact inv.serverKeep rfl same rfl rfl rfl rfl rfl rfl rfl rfl inv.ring own
    | invalid code =>
      simp only [kind, Option.some.injEq] at step
      subst step
      exact inv.serverKeep rfl same rfl rfl rfl rfl rfl rfl rfl rfl inv.ring own.1
  | inPut bd =>
    rw [at_pc] at own
    simp only [System.serverStep, at_pc, Option.map_eq_some_iff] at step
    obtain ⟨table, _, rfl⟩ := step
    refine inv.serverKeep rfl same rfl rfl rfl rfl rfl rfl rfl rfl inv.ring ?_
    split_ifs
    · exact ⟨own.1, own.2.1, bd.v, own.2.2⟩
    · exact own
  | inGet bd =>
    rw [at_pc] at own
    simp only [System.serverStep, at_pc, Option.map_eq_some_iff] at step
    obtain ⟨table, _, rfl⟩ := step
    refine inv.serverKeep rfl same rfl rfl rfl rfl rfl rfl rfl rfl inv.ring ?_
    split <;> exact own
  | storeV bd v =>
    rw [at_pc] at own
    obtain ⟨idle, serves, slot⟩ := own
    simp only [System.serverStep, at_pc, Option.some.injEq, slot] at step
    subst step
    obtain ⟨tag, mine, request⟩ := serves
    exact inv.writeSlot fits ⟨tag, mine, request⟩ (Config.request_eq_some request).2.1
      ⟨idle, ⟨tag, mine, request⟩, v, Function.update_self ..⟩
  | setReady bd => exact inv.setReady fits at_pc step
  | exited => simp [System.serverStep, at_pc] at step

theorem SystemInv.step (inv : SystemInv cfg s) (fits : cfg.Fits) {a : SystemAction n m}
    (step : s.step cfg a = some s') : SystemInv cfg s' := by
  cases a with
  | client t => exact inv.clientStep fits step
  | server j => exact inv.serverStep fits step
  | malloc j new junk =>
    simp only [System.step, Option.map_eq_some_iff] at step
    obtain ⟨table, _, rfl⟩ := step
    exact ⟨inv.ring, inv.tags_eq, inv.tags_nodup, inv.tags_mem, inv.clients, inv.servers, inv.held,
      inv.heldOnce, inv.answered, inv.posted, inv.ready⟩

theorem SystemInv.of_reachable (fits : cfg.Fits) (reached : (systemMachine cfg m).Reachable s) :
    SystemInv cfg s := by
  apply reached.invariant
  · rintro s ⟨junk, rfl⟩
    exact .initial cfg junk
  · intro s a t step inv
    exact inv.step fits step

/-- Two byte ranges of descriptors have no byte in common. -/
def DisjointSlots (first second : ℤ) : Prop :=
  first + descriptorBytes ≤ second ∨ second + descriptorBytes ≤ first

/-- What the window protocol promises in every state: the two counters stay within the window of each
other, the slots of all requests in flight are disjoint and inside the shared area, a raised flag belongs
to a request in flight, and every acknowledged result is the server's answer to that very request. -/
structure WindowOk (cfg : Config n) (s : System n m) : Prop where
  counters : ∀ t, (s.client t).lastCompleted ≤ (s.client t).lastSubmitted ∧
    (s.client t).lastSubmitted ≤ (s.client t).lastCompleted + cfg.winSize
  inside : ∀ t r, s.InFlight t r → ringBytes ≤ cfg.resOff t r ∧ cfg.resOff t r + descriptorBytes ≤ cfg.shmSize
  disjoint : ∀ t r t' r', s.InFlight t r → s.InFlight t' r' → (t, r) ≠ (t', r') →
    DisjointSlots (cfg.resOff t r) (cfg.resOff t' r')
  ready : ∀ offset, (s.board offset).ready = 1 → ∃ t r, s.InFlight t r ∧ offset = cfg.resOff t r
  results : ∀ t r, r < (s.client t).lastCompleted → ∃ req a, (cfg.reqs t)[r]? = some req ∧
    s.answers t r = some a ∧ a.ready = 1 ∧ a.reqType = req.t ∧ a.k = req.k ∧
    (s.client t).res r = { a with ready := 0 }

/-- Under every interleaving of any numbers of client and server threads, the protocol keeps its promise
when the shared area fits an `int`. -/
theorem window_protocol (fits : cfg.Fits) (reached : (systemMachine cfg m).Reachable s) :
    WindowOk cfg s := by
  have inv := SystemInv.of_reachable fits reached
  refine ⟨?_, ?_, ?_, ?_, ?_⟩
  · intro t
    exact ⟨(inv.clients t).completed_le, (inv.clients t).submitted_le⟩
  · intro t r _
    have inside := Nat.mul_le_mul_right descriptorBytes (fits.slotIndex_lt t r)
    rw [fits.resOff_eq, fits.shmSize_eq]
    rw [descriptorBytes] at inside ⊢
    push_cast
    omega
  · intro t r t' r' first second apart
    have ne := inv.slotIndex_ne fits first second apart
    rw [DisjointSlots, fits.resOff_eq, fits.resOff_eq, descriptorBytes]
    omega
  · intro offset raised
    obtain ⟨t, r, here, later, answered, _⟩ := inv.ready offset raised
    obtain ⟨a, answer⟩ := Option.ne_none_iff_exists'.mp answered
    exact ⟨t, r, inv.answered_inFlight answer later, here⟩
  · intro t r earlier
    obtain ⟨a, answer, result⟩ := (inv.clients t).acknowledged r earlier
    obtain ⟨_, bd, v, request, rfl⟩ := inv.answered t r a answer
    obtain ⟨_, _, req, found, kind, key, _⟩ := Config.request_eq_some request
    exact ⟨req, _, found, answer, rfl, kind, key, result⟩

/-- Two client threads with a window of two and one request each. -/
def twoClients : Config 2 := ⟨2, 8, fun t => [⟨5, t.val.toUInt32, .put⟩]⟩

attribute [local instance] neZero_two in
/-- Both clients have entered the ring; the first has counted its submission. -/
def twoSubmissions : List (SystemAction 2 1) :=
  [.client 0, .client 1, .client 0, .client 1, .client 0, .client 1, .client 0, .client 0, .client 0,
    .client 0, .client 0, .client 1, .client 1]

theorem window_protocol_two_clients : ∃ s, (systemMachine twoClients 1).run
      (.initial twoClients 1 fun _ _ => .zero) twoSubmissions = some s ∧
    (s.client 0).lastSubmitted = 1 ∧ s.InFlight 0 0 ∧ s.InFlight 1 0 ∧
    DisjointSlots (twoClients.resOff 0 0) (twoClients.resOff 1 0) ∧ WindowOk twoClients s := by
  refine ⟨_, rfl, rfl, ⟨by decide, by decide⟩, ⟨by decide, by decide⟩, ?_⟩
  have reached := (systemMachine twoClients 1).reachable_of_run
    (s := .initial twoClients 1 fun _ _ => .zero) ⟨_, rfl⟩ twoSubmissions rfl
  have ok := window_protocol ⟨by decide, by decide⟩ reached
  exact ⟨ok.disjoint 0 0 1 0 ⟨by decide, by decide⟩ ⟨by decide, by decide⟩ (by decide), ok⟩

/-- The options `-n 128 -w 33554432`: the product of the two is a multiple of the modulus. -/
def wrappedClients : Config 128 := ⟨33554432, 1000, fun _ => [⟨5, 9, .put⟩]⟩

/-- The area is then no larger than the ring, and the first submitted request has its slot outside. -/
theorem window_protocol_wrapped : ∃ s, (systemMachine wrappedClients 1).Reachable s ∧
    s.InFlight 0 0 ∧ wrappedClients.shmSize < wrappedClients.resOff 0 0 + descriptorBytes ∧
    ¬ WindowOk wrappedClients s := by
  have size : wrappedClients.shmSize = 20928 := by decide +kernel
  have slot : wrappedClients.resOff 0 0 = 20928 := by decide +kernel
  have reached := (systemMachine wrappedClients 1).reachable_of_run
    (s := .initial wrappedClients 1 fun _ _ => .zero) ⟨_, rfl⟩
    [.client 0, .client 0, .client 0, .client 0, .client 0] rfl
  refine ⟨_, reached, ⟨by decide, by decide⟩, by rw [size, slot]; decide, ?_⟩
  intro ok
  have inside := (ok.inside 0 0 ⟨by decide, by decide⟩).2
  rw [size, slot] at inside
  revert inside
  decide

end Cs537.KvStore
