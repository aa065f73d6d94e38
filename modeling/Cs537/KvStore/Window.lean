import Cs537.KvStore.RingSafety
import Cs537.KvStore.System
import Mathlib.Tactic.Ring

/-! # What holds between any two steps of the client and the server

Every request has a tag: its thread and its number. A tag enters the ring once, is taken by one server
thread, and is answered once. The invariant ties a tag's stage to the two counters of its thread, to
the server thread that holds it, and to the descriptor on its slot of the status board. Slots are
reused modulo the window, and the counters keep two requests in flight off the same slot.
-/

namespace Cs537.KvStore

open Lib

/-- Two numbers of one window have different remainders. -/
private theorem eq_of_mod_eq {r r' window : ℕ} (same : r % window = r' % window) (close : r < r' + window)
    (close' : r' < r + window) : r = r' := by
  have quotient := Nat.div_add_mod r window
  have quotient' := Nat.div_add_mod r' window
  rw [same] at quotient
  rcases Nat.lt_trichotomy (r / window) (r' / window) with lt | eq | lt
  · have := Nat.mul_le_mul_left window (Nat.succ_le_of_lt lt)
    rw [Nat.mul_succ] at this
    omega
  · rw [eq] at quotient
    omega
  · have := Nat.mul_le_mul_left window (Nat.succ_le_of_lt lt)
    rw [Nat.mul_succ] at this
    omega

namespace Config

variable {n : ℕ} {cfg : Config n}

/-- The window is positive and the byte size of the shared area is an `int`. -/
structure Fits (cfg : Config n) : Prop where
  positive : 0 < cfg.winSize
  size_lt : ringBytes + n * cfg.winSize * descriptorBytes < 2 ^ 31

/-- The number of a request's slot, counted over the boards of all threads. -/
def slotIndex (cfg : Config n) (t : Fin n) (r : ℕ) : ℕ := t * cfg.winSize + r % cfg.winSize

/-- The descriptor of a tag. -/
def request (cfg : Config n) (tag : Fin n × ℕ) : Option BufferDescriptor :=
  (cfg.reqs tag.1)[tag.2]?.map (cfg.descriptor tag.1 tag.2)

theorem Fits.slotIndex_lt (fits : cfg.Fits) (t : Fin n) (r : ℕ) :
    cfg.slotIndex t r + 1 ≤ n * cfg.winSize := by
  have column := Nat.mod_lt r fits.positive
  calc cfg.slotIndex t r + 1 ≤ t * cfg.winSize + cfg.winSize := by rw [slotIndex]; omega
    _ = (t + 1) * cfg.winSize := by rw [Nat.add_mul, Nat.one_mul]
    _ ≤ n * cfg.winSize := Nat.mul_le_mul_right _ t.isLt

/-- Slots have the number of their thread as row and the request modulo the window as column. -/
private theorem Fits.slotIndex_inj (fits : cfg.Fits) {t t' : Fin n} {r r' : ℕ}
    (same : cfg.slotIndex t r = cfg.slotIndex t' r') : t = t' ∧ r % cfg.winSize = r' % cfg.winSize := by
  have row (t : Fin n) (r : ℕ) : cfg.slotIndex t r / cfg.winSize = t := by
    rw [slotIndex, Nat.mul_comm, Nat.mul_add_div fits.positive, Nat.div_eq_of_lt (Nat.mod_lt _ fits.positive),
      Nat.add_zero]
  have column (t : Fin n) (r : ℕ) : cfg.slotIndex t r % cfg.winSize = r % cfg.winSize := by
    rw [slotIndex, Nat.mul_comm, Nat.mul_add_mod, Nat.mod_mod]
  refine ⟨Fin.ext ?_, ?_⟩
  · rw [← row t r, ← row t' r', same]
  · rw [← column t r, ← column t' r', same]

/-- Inside the windows of all threads, the slot identifies the request. -/
theorem Fits.slot_inj (fits : cfg.Fits) (completed : Fin n → ℕ) {t t' : Fin n} {r r' : ℕ}
    (low : completed t ≤ r) (high : r < completed t + cfg.winSize) (low' : completed t' ≤ r')
    (high' : r' < completed t' + cfg.winSize) (same : cfg.slotIndex t r = cfg.slotIndex t' r') :
    (t, r) = (t', r') := by
  obtain ⟨rfl, column⟩ := fits.slotIndex_inj same
  rw [eq_of_mod_eq column (by omega) (by omega)]

private theorem Fits.comps_eq (fits : cfg.Fits) (t : Fin n) :
    cfg.comps t = ringBytes + (t * cfg.winSize : ℕ) * descriptorBytes := by
  have inside := fits.slotIndex_lt t 0
  have size := fits.size_lt
  rw [slotIndex, Nat.zero_mod, Nat.add_zero] at inside
  rw [ringBytes_eq, descriptorBytes] at size
  rw [comps, int32_eq (by omega) (by omega), Nat.cast_mul]

theorem Fits.resOff_eq (fits : cfg.Fits) (t : Fin n) (r : ℕ) :
    cfg.resOff t r = ringBytes + cfg.slotIndex t r * descriptorBytes := by
  have inside := fits.slotIndex_lt t r
  have size := fits.size_lt
  have compOff : cfg.compOff t = cfg.comps t := by
    have board := fits.comps_eq t
    rw [slotIndex] at inside
    rw [ringBytes_eq, descriptorBytes] at size board
    rw [Config.compOff, ← comps, int32_eq (by omega) (by omega)]
  rw [resOff, compOff, fits.comps_eq]
  rw [slotIndex] at inside ⊢
  rw [ringBytes_eq, descriptorBytes] at size ⊢
  rw [int32_eq (by omega) (by omega)]
  omega

/-- The client polls the address it told the server. -/
theorem Fits.compSlot_eq (fits : cfg.Fits) (t : Fin n) (r : ℕ) :
    cfg.compSlot t (r % cfg.winSize) = cfg.resOff t r := by
  rw [compSlot, fits.comps_eq, fits.resOff_eq, slotIndex, Nat.cast_add, add_mul, add_assoc]

theorem Fits.shmSize_eq (fits : cfg.Fits) :
    cfg.shmSize = (ringBytes + n * cfg.winSize * descriptorBytes : ℕ) := by
  have size := fits.size_lt
  rw [shmSize, ringBytes_eq, descriptorBytes] at *
  rw [int32_eq (x := n * cfg.winSize) (by omega) (by omega), int32_eq (by omega) (by omega)]
  omega

theorem request_eq_some {tag : Fin n × ℕ} {bd : BufferDescriptor} (request : cfg.request tag = some bd) :
    bd.resOff = cfg.resOff tag.1 tag.2 ∧ bd.ready = 0 ∧
      ∃ req, (cfg.reqs tag.1)[tag.2]? = some req ∧ bd.reqType = req.t ∧ bd.k = req.k ∧ bd.v = req.v := by
  obtain ⟨req, found, rfl⟩ := Option.map_eq_some_iff.mp request
  exact ⟨rfl, rfl, req, found, rfl, rfl, rfl⟩

end Config

/-- The descriptor a producer carries to its slot. -/
def SubmitPc.carried : SubmitPc → Option BufferDescriptor
  | .semWait bd | .lock bd | .copy bd => some bd
  | _ => none

/-- The descriptor a consumer has copied out. -/
def GetPc.delivered : GetPc → Option BufferDescriptor
  | .advance bd | .unlock bd | .semPost bd => some bd
  | _ => none

/-- The client has seen the expected answer. -/
def ClientPc.acknowledging : ClientPc → Bool
  | .clearReady _ | .copyResult _ => true
  | _ => false

/-- The client has lowered the ready flag of the expected answer and not counted it yet. -/
def ClientPc.copying : ClientPc → Bool
  | .copyResult _ => true
  | _ => false

/-- The flag an answered request of the thread shows on the board. -/
def Client.readyFlag (c : Client) (r : ℕ) : ℤ :=
  if c.pc.copying = true ∧ r = c.lastCompleted then 0 else 1

variable {n m : ℕ}

/-- What holds of one client thread. -/
structure ClientOk (cfg : Config n) (t : Fin n) (c : Client) (producer : SubmitPc)
    (answers : ℕ → Option BufferDescriptor) : Prop where
  completed_le : c.lastCompleted ≤ c.lastSubmitted
  submitted_le : c.lastSubmitted ≤ c.lastCompleted + cfg.winSize
  room : c.pc = .ringSubmit → c.lastSubmitted < c.lastCompleted + cfg.winSize
  nxtComp : c.nxtComp = c.lastCompleted % cfg.winSize
  calling : c.pc = .ringSubmit ↔ producer ≠ .idle
  carried : ∀ bd, producer.carried = some bd → cfg.request (t, c.lastSubmitted) = some bd
  expecting : c.pc.acknowledging = true → answers c.lastCompleted ≠ none
  acknowledged : ∀ r < c.lastCompleted, ∃ a, answers r = some a ∧ c.res r = { a with ready := 0 }

/-- The server thread works on the descriptor of the tag it holds. -/
def Serves (cfg : Config n) (tag : Option (Fin n × ℕ)) (bd : BufferDescriptor) : Prop :=
  ∃ held, tag = some held ∧ cfg.request held = some bd

/-- What holds of one server thread. -/
def ServerOk (cfg : Config n) (board : ℤ → BufferDescriptor) (consumer : GetPc)
    (tag : Option (Fin n × ℕ)) : ServerPc → Prop
  | .ringGet => ∀ bd, consumer.delivered = some bd → Serves cfg tag bd
  | .copyDescriptor bd => consumer = .idle ∧ Serves cfg tag bd
  | .dispatch bd | .inPut bd | .inGet bd | .storeV bd _ =>
      consumer = .idle ∧ Serves cfg tag bd ∧ board bd.resOff = bd
  | .setReady bd => consumer = .idle ∧ Serves cfg tag bd ∧ ∃ v, board bd.resOff = { bd with v := v }
  | .exited => consumer = .idle

namespace System

/-- How many requests of a thread have entered the ring. -/
def copied (s : System n m) (t : Fin n) : ℕ :=
  (s.client t).lastSubmitted + (s.ring.producer t).filled.toNat

/-- The tags taken out of the ring. -/
def taken (s : System n m) : List (Fin n × ℕ) := s.tags.take s.ring.got.length

/-- A request is in flight from its entry into the ring to its acknowledgement. -/
def InFlight (s : System n m) (t : Fin n) (r : ℕ) : Prop :=
  (s.client t).lastCompleted ≤ r ∧ r < s.copied t

end System

/-- The invariant of the system under every interleaving. -/
structure SystemInv (cfg : Config n) (s : System n m) : Prop where
  ring : RingInv s.ring
  tags_eq : s.ring.submitted.map some = s.tags.map cfg.request
  tags_nodup : s.tags.Nodup
  tags_mem : ∀ t r, (t, r) ∈ s.tags ↔ r < s.copied t
  clients : ∀ t, ClientOk cfg t (s.client t) (s.ring.producer t) (s.answers t)
  servers : ∀ j, ServerOk cfg s.board (s.ring.consumer j) (s.serverTag j) (s.server j)
  held : ∀ j tag, s.serverTag j = some tag → tag ∈ s.taken ∧ s.answers tag.1 tag.2 = none
  heldOnce : Exclusive id s.serverTag
  answered : ∀ t r a, s.answers t r = some a → (t, r) ∈ s.taken ∧
    ∃ bd v, cfg.request (t, r) = some bd ∧ a = { bd with v := v, ready := 1 }
  posted : ∀ t r a, s.answers t r = some a → (s.client t).lastCompleted ≤ r →
    s.board (cfg.resOff t r) = { a with ready := (s.client t).readyFlag r }
  ready : ∀ offset, (s.board offset).ready = 1 → ∃ t r, offset = cfg.resOff t r ∧
    (s.client t).lastCompleted ≤ r ∧ s.answers t r ≠ none ∧ (s.client t).readyFlag r = 1

theorem SystemInv.initial (cfg : Config n) (junk : Fin n → ℕ → BufferDescriptor) :
    SystemInv cfg (System.initial cfg m junk) where
  ring := .initial
  tags_eq := rfl
  tags_nodup := List.nodup_nil
  tags_mem t r := by simp [System.initial, System.copied, RingState.initial, SubmitPc.filled]
  clients t := by
    constructor <;> simp [System.initial, RingState.initial, SubmitPc.carried, ClientPc.acknowledging]
  servers j := by
    intro bd delivered
    cases delivered
  held j tag mine := by cases mine
  heldOnce i j tag mine := by cases mine
  answered t r a answer := by cases answer
  posted t r a answer := by cases answer
  ready offset flag := by cases flag

namespace SystemInv

variable {cfg : Config n} {s : System n m}

private theorem taken_subset (inv : SystemInv cfg s) {t : Fin n} {r : ℕ} (taken : (t, r) ∈ s.taken) :
    r < s.copied t := (inv.tags_mem t r).mp (List.mem_of_mem_take taken)

/-- The window bounds the requests in the ring, also between the copy and the count. -/
theorem copied_le (inv : SystemInv cfg s) (t : Fin n) :
    s.copied t ≤ (s.client t).lastCompleted + cfg.winSize := by
  have client := inv.clients t
  cases filled : (s.ring.producer t).filled with
  | false =>
    simp only [System.copied, filled, Bool.toNat_false, Nat.add_zero]
    exact client.submitted_le
  | true =>
    have calling := client.calling.mpr (by intro idle; rw [idle] at filled; cases filled)
    have room := client.room calling
    simp only [System.copied, filled, Bool.toNat_true]
    omega

/-- A request held by a server thread is in flight. -/
theorem held_inFlight (inv : SystemInv cfg s) {j : Fin m} {t : Fin n} {r : ℕ}
    (mine : s.serverTag j = some (t, r)) : s.InFlight t r := by
  obtain ⟨taken, unanswered⟩ := inv.held j (t, r) mine
  refine ⟨?_, inv.taken_subset taken⟩
  by_contra acknowledged
  obtain ⟨a, answer, _⟩ := (inv.clients t).acknowledged r (by omega)
  rw [unanswered] at answer
  cases answer

theorem answered_inFlight (inv : SystemInv cfg s) {t : Fin n} {r : ℕ} {a : BufferDescriptor}
    (answer : s.answers t r = some a) (later : (s.client t).lastCompleted ≤ r) : s.InFlight t r :=
  ⟨later, inv.taken_subset (inv.answered t r a answer).1⟩

/-- Two requests in flight have different slots. -/
theorem slotIndex_ne (inv : SystemInv cfg s) (fits : cfg.Fits) {t t' : Fin n} {r r' : ℕ}
    (first : s.InFlight t r) (second : s.InFlight t' r') (apart : (t, r) ≠ (t', r')) :
    cfg.slotIndex t r ≠ cfg.slotIndex t' r' := by
  intro same
  have window := inv.copied_le t
  have window' := inv.copied_le t'
  obtain ⟨low, high⟩ := first
  obtain ⟨low', high'⟩ := second
  exact apart (fits.slot_inj (fun t => (s.client t).lastCompleted) low (by omega) low' (by omega) same)

end SystemInv

end Cs537.KvStore
