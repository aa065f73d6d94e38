import Cs537.Lib.Machine
import Cs537.KvStore.Common

/-! # The shared ring, one atomic step at a time

Producers run `ring_submit` and consumers run `ring_get`; each call is cut at the points where
another thread can run: the semaphore wait, the mutex lock, the slot copy, the index advance, the
unlock, and the semaphore post. A program point names the instruction the thread executes next.
A blocked wait or lock has no step. The two logs record the descriptors in the order in which they
were copied into and out of the slots; the code never reads them.
-/

namespace Cs537.KvStore

open Lib

/-- Where a producer stands in `ring_submit`. -/
inductive SubmitPc where
  | idle
  | semWait (bd : BufferDescriptor)
  | lock (bd : BufferDescriptor)
  | copy (bd : BufferDescriptor)
  | advance
  | unlock
  | semPost
deriving DecidableEq, Repr

/-- Where a consumer stands in `ring_get`; after the copy it carries the descriptor it returns. -/
inductive GetPc where
  | idle
  | semWait
  | lock
  | copy
  | advance (bd : BufferDescriptor)
  | unlock (bd : BufferDescriptor)
  | semPost (bd : BufferDescriptor)
deriving DecidableEq, Repr

/-- `struct ring`, with the mutex words replaced by their holders. The indices `p_tail` and `c_head`
are never touched by the code and are left out. -/
structure Ring (n m : ℕ) where
  pHead : ℕ
  cTail : ℕ
  buffer : ℕ → BufferDescriptor
  semNotFull : ℕ
  semNotEmpty : ℕ
  sMutex : Option (Fin n)
  gMutex : Option (Fin m)

/-- The ring after the client cleared the shared area and called `init_ring`. -/
def initRing (n m : ℕ) : Ring n m where
  pHead := 0
  cTail := 0
  buffer _ := .zero
  semNotFull := ringSize
  semNotEmpty := 0
  sMutex := none
  gMutex := none

/-- The ring, its callers, and the two copy logs. -/
structure RingState (n m : ℕ) where
  ring : Ring n m
  producer : Fin n → SubmitPc
  consumer : Fin m → GetPc
  submitted : List BufferDescriptor
  got : List BufferDescriptor

/-- A caller enters a function, or a thread inside one executes its next instruction. A null
descriptor pointer makes the call return at once. -/
inductive RingAction (n m : ℕ) where
  | callSubmit (p : Fin n) (bd : Option BufferDescriptor)
  | submit (p : Fin n)
  | callGet (c : Fin m) (bdNonNull : Bool)
  | get (c : Fin m)
deriving DecidableEq, Repr

variable {n m : ℕ}

namespace RingState

/-- Entry of `ring_submit`. -/
def callSubmit (s : RingState n m) (p : Fin n) (bd : Option BufferDescriptor) :
    Option (RingState n m) :=
  match s.producer p, bd with
  | .idle, none => some s
  | .idle, some bd => some { s with producer := Function.update s.producer p (.semWait bd) }
  | _, _ => none

/-- The body of `ring_submit`. -/
def ringSubmit (s : RingState n m) (p : Fin n) : Option (RingState n m) :=
  match s.producer p with
  | .idle => none
  | .semWait bd =>
      if s.ring.semNotFull = 0 then none
      else some { s with
        ring := { s.ring with semNotFull := s.ring.semNotFull - 1 }
        producer := Function.update s.producer p (.lock bd) }
  | .lock bd =>
      if s.ring.sMutex = none then some { s with
        ring := { s.ring with sMutex := some p }
        producer := Function.update s.producer p (.copy bd) }
      else none
  | .copy bd => some { s with
      ring := { s.ring with buffer := Function.update s.ring.buffer s.ring.pHead bd }
      producer := Function.update s.producer p .advance
      submitted := s.submitted ++ [bd] }
  | .advance => some { s with
      ring := { s.ring with pHead := (s.ring.pHead + 1) % ringSize }
      producer := Function.update s.producer p .unlock }
  | .unlock => some { s with
      ring := { s.ring with sMutex := none }
      producer := Function.update s.producer p .semPost }
  | .semPost => some { s with
      ring := { s.ring with semNotEmpty := s.ring.semNotEmpty + 1 }
      producer := Function.update s.producer p .idle }

/-- Entry of `ring_get`. -/
def callGet (s : RingState n m) (c : Fin m) (bdNonNull : Bool) : Option (RingState n m) :=
  match s.consumer c, bdNonNull with
  | .idle, false => some s
  | .idle, true => some { s with consumer := Function.update s.consumer c .semWait }
  | _, _ => none

/-- The body of `ring_get`. -/
def ringGet (s : RingState n m) (c : Fin m) : Option (RingState n m) :=
  match s.consumer c with
  | .idle => none
  | .semWait =>
      if s.ring.semNotEmpty = 0 then none
      else some { s with
        ring := { s.ring with semNotEmpty := s.ring.semNotEmpty - 1 }
        consumer := Function.update s.consumer c .lock }
  | .lock =>
      if s.ring.gMutex = none then some { s with
        ring := { s.ring with gMutex := some c }
        consumer := Function.update s.consumer c .copy }
      else none
  | .copy => some { s with
      consumer := Function.update s.consumer c (.advance (s.ring.buffer s.ring.cTail))
      got := s.got ++ [s.ring.buffer s.ring.cTail] }
  | .advance bd => some { s with
      ring := { s.ring with cTail := (s.ring.cTail + 1) % ringSize }
      consumer := Function.update s.consumer c (.unlock bd) }
  | .unlock bd => some { s with
      ring := { s.ring with gMutex := none }
      consumer := Function.update s.consumer c (.semPost bd) }
  | .semPost _ => some { s with
      ring := { s.ring with semNotFull := s.ring.semNotFull + 1 }
      consumer := Function.update s.consumer c .idle }

/-- One step of one thread. -/
def step (s : RingState n m) : RingAction n m → Option (RingState n m)
  | .callSubmit p bd => s.callSubmit p bd
  | .submit p => s.ringSubmit p
  | .callGet c bdNonNull => s.callGet c bdNonNull
  | .get c => s.ringGet c

/-- Nobody has called anything yet. -/
def initial (n m : ℕ) : RingState n m where
  ring := initRing n m
  producer _ := .idle
  consumer _ := .idle
  submitted := []
  got := []

end RingState

/-- `n` producers and `m` consumers around one ring. -/
def ringMachine (n m : ℕ) : Machine (RingState n m) (RingAction n m) where
  init s := s = RingState.initial n m
  step := RingState.step

end Cs537.KvStore
