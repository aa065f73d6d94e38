import Cs537.Lib.Threads
import Cs537.KvStore.Ring
import Mathlib.Data.List.Basic

/-! # The ring is a bounded queue under every interleaving

The semaphores count slots, but a thread that has waited and not yet posted holds a slot that
neither semaphore counts. Adding those threads to the balance makes the two equations `free` and
`full` exact in every state. The equations leave room for a producer at its copy and an item for a
consumer at its copy; the index equations then say which slot each of them uses.
-/

namespace Cs537.KvStore

open Lib

namespace SubmitPc

/-- Waited for a free slot and has not filled it yet. -/
def claimed : SubmitPc → Bool
  | .lock _ | .copy _ => true
  | _ => false

/-- Filled its slot and has not announced it yet. -/
def filled : SubmitPc → Bool
  | .advance | .unlock | .semPost => true
  | _ => false

/-- Holds `s_mutex`. -/
def critical : SubmitPc → Bool
  | .copy _ | .advance | .unlock => true
  | _ => false

/-- Filled the slot at `p_head` without having moved `p_head`. -/
def advancing : SubmitPc → Bool
  | .advance => true
  | _ => false

end SubmitPc

namespace GetPc

/-- Waited for an item and has not copied one yet. -/
def claimed : GetPc → Bool
  | .lock | .copy => true
  | _ => false

/-- Copied its item and has not announced the free slot yet. -/
def drained : GetPc → Bool
  | .advance _ | .unlock _ | .semPost _ => true
  | _ => false

/-- Holds `g_mutex`. -/
def critical : GetPc → Bool
  | .copy | .advance _ | .unlock _ => true
  | _ => false

/-- Copied the slot at `c_tail` without having moved `c_tail`. -/
def advancing : GetPc → Bool
  | .advance _ => true
  | _ => false

end GetPc

variable {n m : ℕ}

/-- What holds between any two steps of any threads. -/
structure RingInv (s : RingState n m) : Prop where
  free : s.ring.semNotFull + countWhere SubmitPc.claimed s.producer + s.submitted.length +
    countWhere GetPc.drained s.consumer = ringSize + s.got.length
  full : s.submitted.length = s.got.length + countWhere SubmitPc.filled s.producer +
    s.ring.semNotEmpty + countWhere GetPc.claimed s.consumer
  sMutex : HeldBy SubmitPc.critical s.producer s.ring.sMutex
  gMutex : HeldBy GetPc.critical s.consumer s.ring.gMutex
  pHead : (s.ring.pHead + countWhere SubmitPc.advancing s.producer) % ringSize =
    s.submitted.length % ringSize
  cTail : (s.ring.cTail + countWhere GetPc.advancing s.consumer) % ringSize =
    s.got.length % ringSize
  pHead_lt : s.ring.pHead < ringSize
  cTail_lt : s.ring.cTail < ringSize
  order : s.got <+: s.submitted
  slots : ∀ i bd, s.got.length ≤ i → s.submitted[i]? = some bd → s.ring.buffer (i % ringSize) = bd

theorem RingInv.initial : RingInv (RingState.initial n m) where
  free := by
    rw [countWhere_eq_zero (fun _ => rfl), countWhere_eq_zero (fun _ => rfl)]
    rfl
  full := by
    rw [countWhere_eq_zero (fun _ => rfl), countWhere_eq_zero (fun _ => rfl)]
    rfl
  sMutex := by intro p; simp [RingState.initial, SubmitPc.critical, initRing]
  gMutex := by intro c; simp [RingState.initial, GetPc.critical, initRing]
  pHead := by rw [countWhere_eq_zero (fun _ => rfl)]; rfl
  cTail := by rw [countWhere_eq_zero (fun _ => rfl)]; rfl
  pHead_lt := Nat.succ_pos _
  cTail_lt := Nat.succ_pos _
  order := List.prefix_refl _
  slots := by intro i bd _ present; simp [RingState.initial] at present

/-- At most the ring's capacity is outstanding. -/
private theorem RingInv.outstanding_le {s : RingState n m} (inv : RingInv s) :
    s.submitted.length ≤ s.got.length + ringSize := by
  have := inv.free
  omega

/-- A producer about to copy is the only one near `p_head`, and finds a slot nobody still needs. -/
theorem RingInv.at_copy {s : RingState n m} (inv : RingInv s) {p : Fin n} {bd : BufferDescriptor}
    (at_pc : s.producer p = .copy bd) :
    s.ring.pHead = s.submitted.length % ringSize ∧ s.submitted.length < s.got.length + ringSize := by
  have idle : countWhere SubmitPc.advancing s.producer = 0 := by
    apply countWhere_eq_zero
    intro q
    by_contra advancing
    have inside : (s.producer q).critical = true := by
      cases pc : s.producer q <;> simp [pc, SubmitPc.advancing, SubmitPc.critical] at advancing ⊢
    have same : q = p := inv.sMutex.unique inside (by rw [at_pc]; rfl)
    rw [same, at_pc] at advancing
    exact advancing rfl
  have index := inv.pHead
  rw [idle, Nat.add_zero, Nat.mod_eq_of_lt inv.pHead_lt] at index
  have claimed := countWhere_pos SubmitPc.claimed s.producer (i := p) (by rw [at_pc]; rfl)
  have balance := inv.free
  exact ⟨index, by omega⟩

/-- A consumer about to copy is the only one near `c_tail`, and finds the oldest outstanding item. -/
theorem RingInv.at_get_copy {s : RingState n m} (inv : RingInv s) {c : Fin m}
    (at_pc : s.consumer c = .copy) :
    s.submitted[s.got.length]? = some (s.ring.buffer s.ring.cTail) := by
  have idle : countWhere GetPc.advancing s.consumer = 0 := by
    apply countWhere_eq_zero
    intro q
    by_contra advancing
    have inside : (s.consumer q).critical = true := by
      cases pc : s.consumer q <;> simp [pc, GetPc.advancing, GetPc.critical] at advancing ⊢
    have same : q = c := inv.gMutex.unique inside (by rw [at_pc]; rfl)
    rw [same, at_pc] at advancing
    exact advancing rfl
  have index := inv.cTail
  rw [idle, Nat.add_zero, Nat.mod_eq_of_lt inv.cTail_lt] at index
  have claimed := countWhere_pos GetPc.claimed s.consumer (i := c) (by rw [at_pc]; rfl)
  have available : s.got.length < s.submitted.length := by
    have balance := inv.full
    omega
  have present : s.submitted[s.got.length]? = some s.submitted[s.got.length] :=
    List.getElem?_eq_getElem available
  rw [present, index, inv.slots _ _ le_rfl present]

/-- Copying the next item out keeps the log of returned items a prefix of the submitted ones. -/
private theorem prefix_snoc {got submitted : List BufferDescriptor} {bd : BufferDescriptor}
    (order : got <+: submitted) (next : submitted[got.length]? = some bd) :
    got ++ [bd] <+: submitted := by
  obtain ⟨rest, rfl⟩ := order
  cases rest with
  | nil => simp at next
  | cons head tail =>
    simp only [List.getElem?_append_right le_rfl, Nat.sub_self, List.getElem?_cons_zero,
      Option.some.injEq] at next
    exact ⟨tail, by simp [next]⟩

/-- How one producer's move changes the three producer counts. -/
private theorem submit_counts (family : Fin n → SubmitPc) (p : Fin n) {old : SubmitPc}
    (at_pc : family p = old) (new : SubmitPc) :
    countWhere SubmitPc.claimed (Function.update family p new) + old.claimed.toNat =
        countWhere SubmitPc.claimed family + new.claimed.toNat ∧
      countWhere SubmitPc.filled (Function.update family p new) + old.filled.toNat =
        countWhere SubmitPc.filled family + new.filled.toNat ∧
      countWhere SubmitPc.advancing (Function.update family p new) + old.advancing.toNat =
        countWhere SubmitPc.advancing family + new.advancing.toNat := by
  subst at_pc
  exact ⟨countWhere_update _ _ _ _, countWhere_update _ _ _ _, countWhere_update _ _ _ _⟩

/-- How one consumer's move changes the three consumer counts. -/
private theorem get_counts (family : Fin m → GetPc) (c : Fin m) {old : GetPc}
    (at_pc : family c = old) (new : GetPc) :
    countWhere GetPc.claimed (Function.update family c new) + old.claimed.toNat =
        countWhere GetPc.claimed family + new.claimed.toNat ∧
      countWhere GetPc.drained (Function.update family c new) + old.drained.toNat =
        countWhere GetPc.drained family + new.drained.toNat ∧
      countWhere GetPc.advancing (Function.update family c new) + old.advancing.toNat =
        countWhere GetPc.advancing family + new.advancing.toNat := by
  subst at_pc
  exact ⟨countWhere_update _ _ _ _, countWhere_update _ _ _ _, countWhere_update _ _ _ _⟩

theorem RingInv.callSubmit {s t : RingState n m} (inv : RingInv s) {p : Fin n}
    {bd : Option BufferDescriptor} (step : s.callSubmit p bd = some t) : RingInv t := by
  cases at_pc : s.producer p with
  | idle =>
    cases bd with
    | none =>
      simp only [RingState.callSubmit, at_pc, Option.some.injEq] at step
      exact step ▸ inv
    | some bd =>
      simp only [RingState.callSubmit, at_pc, Option.some.injEq] at step
      subst step
      obtain ⟨claimed, filled, advancing⟩ := submit_counts s.producer p at_pc (.semWait bd)
      exact { inv with
        free := by rw [Nat.add_right_cancel claimed]; exact inv.free
        full := by rw [Nat.add_right_cancel filled]; exact inv.full
        sMutex := inv.sMutex.keep (by rw [at_pc]; rfl)
        pHead := by rw [Nat.add_right_cancel advancing]; exact inv.pHead }
  | _ => simp [RingState.callSubmit, at_pc] at step

theorem RingInv.callGet {s t : RingState n m} (inv : RingInv s) {c : Fin m} {bdNonNull : Bool}
    (step : s.callGet c bdNonNull = some t) : RingInv t := by
  cases at_pc : s.consumer c with
  | idle =>
    cases bdNonNull with
    | false =>
      simp only [RingState.callGet, at_pc, Option.some.injEq] at step
      exact step ▸ inv
    | true =>
      simp only [RingState.callGet, at_pc, Option.some.injEq] at step
      subst step
      obtain ⟨claimed, drained, advancing⟩ := get_counts s.consumer c at_pc .semWait
      exact { inv with
        free := by rw [Nat.add_right_cancel drained]; exact inv.free
        full := by rw [Nat.add_right_cancel claimed]; exact inv.full
        gMutex := inv.gMutex.keep (by rw [at_pc]; rfl)
        cTail := by rw [Nat.add_right_cancel advancing]; exact inv.cTail }
  | _ => simp [RingState.callGet, at_pc] at step

private theorem advance_index {index count count' total : ℕ} (moved : count' + 1 = count)
    (index_eq : (index + count) % ringSize = total % ringSize) :
    ((index + 1) % ringSize + count') % ringSize = total % ringSize := by
  rw [← index_eq, ← moved, Nat.mod_add_mod]
  congr 1
  omega

/-- Writing the slot after the last outstanding one disturbs no outstanding slot. -/
private theorem slots_snoc {s : RingState n m} (inv : RingInv s) {p : Fin n} {bd : BufferDescriptor}
    (at_pc : s.producer p = .copy bd) (i : ℕ) (item : BufferDescriptor) (later : s.got.length ≤ i)
    (present : (s.submitted ++ [bd])[i]? = some item) :
    Function.update s.ring.buffer s.ring.pHead bd (i % ringSize) = item := by
  obtain ⟨index, room⟩ := inv.at_copy at_pc
  rcases Nat.lt_or_ge i s.submitted.length with old | new
  · rw [List.getElem?_append_left old] at present
    have apart : i % ringSize ≠ s.ring.pHead := by
      rw [index]
      unfold ringSize at room ⊢
      omega
    rw [Function.update_of_ne apart]
    exact inv.slots i item later present
  · have bound := (List.getElem?_eq_some_iff.mp present).1
    simp only [List.length_append, List.length_singleton] at bound
    have last : i = s.submitted.length := by omega
    subst last
    rw [List.getElem?_append_right le_rfl, Nat.sub_self] at present
    rw [index, Function.update_self]
    exact Option.some.inj present

theorem RingInv.ringSubmit {s t : RingState n m} (inv : RingInv s) {p : Fin n}
    (step : s.ringSubmit p = some t) : RingInv t := by
  have balance := inv.free
  have items := inv.full
  cases at_pc : s.producer p with
  | idle => simp [RingState.ringSubmit, at_pc] at step
  | semWait bd =>
    simp only [RingState.ringSubmit, at_pc, Option.ite_none_left_eq_some, Option.some.injEq] at step
    obtain ⟨available, rfl⟩ := step
    obtain ⟨claimed, filled, advancing⟩ := submit_counts s.producer p at_pc (.lock bd)
    simp only [SubmitPc.claimed, SubmitPc.filled, SubmitPc.advancing, Bool.toNat_false,
      Bool.toNat_true, Nat.add_zero] at claimed filled advancing
    exact { inv with
      free := by simp only [claimed]; omega
      full := by simp only [filled]; exact items
      sMutex := inv.sMutex.keep (by rw [at_pc]; rfl)
      pHead := by simp only [advancing]; exact inv.pHead }
  | lock bd =>
    simp only [RingState.ringSubmit, at_pc, Option.ite_none_right_eq_some, Option.some.injEq] at step
    obtain ⟨unlocked, rfl⟩ := step
    obtain ⟨claimed, filled, advancing⟩ := submit_counts s.producer p at_pc (.copy bd)
    simp only [SubmitPc.claimed, SubmitPc.filled, SubmitPc.advancing, Bool.toNat_false,
      Bool.toNat_true, Nat.add_zero] at claimed filled advancing
    exact { inv with
      free := by simp only [Nat.add_right_cancel claimed]; exact balance
      full := by simp only [filled]; exact items
      sMutex := (unlocked ▸ inv.sMutex).take rfl
      pHead := by simp only [advancing]; exact inv.pHead }
  | copy bd =>
    simp only [RingState.ringSubmit, at_pc, Option.some.injEq] at step
    subst step
    obtain ⟨claimed, filled, advancing⟩ := submit_counts s.producer p at_pc .advance
    obtain ⟨index, room⟩ := inv.at_copy at_pc
    have before := inv.pHead
    simp only [SubmitPc.claimed, SubmitPc.filled, SubmitPc.advancing, Bool.toNat_false,
      Bool.toNat_true, Nat.add_zero] at claimed filled advancing
    exact { inv with
      free := by simp only [List.length_append, List.length_singleton]; omega
      full := by simp only [List.length_append, List.length_singleton]; omega
      sMutex := inv.sMutex.keep (by rw [at_pc]; rfl)
      pHead := by
        simp only [advancing, List.length_append, List.length_singleton, ← Nat.add_assoc]
        rw [Nat.add_mod, before, ← Nat.add_mod]
      order := inv.order.trans (List.prefix_append _ _)
      slots := slots_snoc inv at_pc }
  | advance =>
    simp only [RingState.ringSubmit, at_pc, Option.some.injEq] at step
    subst step
    obtain ⟨claimed, filled, advancing⟩ := submit_counts s.producer p at_pc .unlock
    simp only [SubmitPc.claimed, SubmitPc.filled, SubmitPc.advancing, Bool.toNat_false,
      Bool.toNat_true, Nat.add_zero] at claimed filled advancing
    exact { inv with
      free := by simp only [claimed]; exact balance
      full := by simp only [Nat.add_right_cancel filled]; exact items
      sMutex := inv.sMutex.keep (by rw [at_pc]; rfl)
      pHead := advance_index advancing inv.pHead
      pHead_lt := Nat.mod_lt _ (Nat.succ_pos _) }
  | unlock =>
    simp only [RingState.ringSubmit, at_pc, Option.some.injEq] at step
    subst step
    obtain ⟨claimed, filled, advancing⟩ := submit_counts s.producer p at_pc .semPost
    simp only [SubmitPc.claimed, SubmitPc.filled, SubmitPc.advancing, Bool.toNat_false,
      Bool.toNat_true, Nat.add_zero] at claimed filled advancing
    exact { inv with
      free := by simp only [claimed]; exact balance
      full := by simp only [Nat.add_right_cancel filled]; exact items
      sMutex := inv.sMutex.drop (i := p) (by rw [at_pc]; rfl) rfl
      pHead := by simp only [advancing]; exact inv.pHead }
  | semPost =>
    simp only [RingState.ringSubmit, at_pc, Option.some.injEq] at step
    subst step
    obtain ⟨claimed, filled, advancing⟩ := submit_counts s.producer p at_pc .idle
    simp only [SubmitPc.claimed, SubmitPc.filled, SubmitPc.advancing, Bool.toNat_false,
      Bool.toNat_true, Nat.add_zero] at claimed filled advancing
    exact { inv with
      free := by simp only [claimed]; exact balance
      full := by dsimp only; omega
      sMutex := inv.sMutex.keep (by rw [at_pc]; rfl)
      pHead := by simp only [advancing]; exact inv.pHead }

theorem RingInv.ringGet {s t : RingState n m} (inv : RingInv s) {c : Fin m}
    (step : s.ringGet c = some t) : RingInv t := by
  have balance := inv.free
  have items := inv.full
  cases at_pc : s.consumer c with
  | idle => simp [RingState.ringGet, at_pc] at step
  | semWait =>
    simp only [RingState.ringGet, at_pc, Option.ite_none_left_eq_some, Option.some.injEq] at step
    obtain ⟨available, rfl⟩ := step
    obtain ⟨claimed, drained, advancing⟩ := get_counts s.consumer c at_pc .lock
    simp only [GetPc.claimed, GetPc.drained, GetPc.advancing, Bool.toNat_false,
      Bool.toNat_true, Nat.add_zero] at claimed drained advancing
    exact { inv with
      free := by simp only [drained]; exact balance
      full := by simp only [claimed]; omega
      gMutex := inv.gMutex.keep (by rw [at_pc]; rfl)
      cTail := by simp only [advancing]; exact inv.cTail }
  | lock =>
    simp only [RingState.ringGet, at_pc, Option.ite_none_right_eq_some, Option.some.injEq] at step
    obtain ⟨unlocked, rfl⟩ := step
    obtain ⟨claimed, drained, advancing⟩ := get_counts s.consumer c at_pc .copy
    simp only [GetPc.claimed, GetPc.drained, GetPc.advancing, Bool.toNat_false,
      Bool.toNat_true, Nat.add_zero] at claimed drained advancing
    exact { inv with
      free := by simp only [drained]; exact balance
      full := by simp only [Nat.add_right_cancel claimed]; exact items
      gMutex := (unlocked ▸ inv.gMutex).take rfl
      cTail := by simp only [advancing]; exact inv.cTail }
  | copy =>
    simp only [RingState.ringGet, at_pc, Option.some.injEq] at step
    subst step
    obtain ⟨claimed, drained, advancing⟩ :=
      get_counts s.consumer c at_pc (.advance (s.ring.buffer s.ring.cTail))
    have before := inv.cTail
    simp only [GetPc.claimed, GetPc.drained, GetPc.advancing, Bool.toNat_false,
      Bool.toNat_true, Nat.add_zero] at claimed drained advancing
    exact { inv with
      free := by simp only [List.length_append, List.length_singleton]; omega
      full := by simp only [List.length_append, List.length_singleton]; omega
      gMutex := inv.gMutex.keep (by rw [at_pc]; rfl)
      cTail := by
        simp only [advancing, List.length_append, List.length_singleton, ← Nat.add_assoc]
        rw [Nat.add_mod, before, ← Nat.add_mod]
      order := prefix_snoc inv.order (inv.at_get_copy at_pc)
      slots := by
        intro i bd later
        simp only [List.length_append, List.length_singleton] at later
        exact inv.slots i bd (by omega) }
  | advance bd =>
    simp only [RingState.ringGet, at_pc, Option.some.injEq] at step
    subst step
    obtain ⟨claimed, drained, advancing⟩ := get_counts s.consumer c at_pc (.unlock bd)
    simp only [GetPc.claimed, GetPc.drained, GetPc.advancing, Bool.toNat_false,
      Bool.toNat_true, Nat.add_zero] at claimed drained advancing
    exact { inv with
      free := by simp only [Nat.add_right_cancel drained]; exact balance
      full := by simp only [claimed]; exact items
      gMutex := inv.gMutex.keep (by rw [at_pc]; rfl)
      cTail := advance_index advancing inv.cTail
      cTail_lt := Nat.mod_lt _ (Nat.succ_pos _) }
  | unlock bd =>
    simp only [RingState.ringGet, at_pc, Option.some.injEq] at step
    subst step
    obtain ⟨claimed, drained, advancing⟩ := get_counts s.consumer c at_pc (.semPost bd)
    simp only [GetPc.claimed, GetPc.drained, GetPc.advancing, Bool.toNat_false,
      Bool.toNat_true, Nat.add_zero] at claimed drained advancing
    exact { inv with
      free := by simp only [Nat.add_right_cancel drained]; exact balance
      full := by simp only [claimed]; exact items
      gMutex := inv.gMutex.drop (i := c) (by rw [at_pc]; rfl) rfl
      cTail := by simp only [advancing]; exact inv.cTail }
  | semPost bd =>
    simp only [RingState.ringGet, at_pc, Option.some.injEq] at step
    subst step
    obtain ⟨claimed, drained, advancing⟩ := get_counts s.consumer c at_pc .idle
    simp only [GetPc.claimed, GetPc.drained, GetPc.advancing, Bool.toNat_false,
      Bool.toNat_true, Nat.add_zero] at claimed drained advancing
    exact { inv with
      free := by dsimp only; omega
      full := by simp only [claimed]; exact items
      gMutex := inv.gMutex.keep (by rw [at_pc]; rfl)
      cTail := by simp only [advancing]; exact inv.cTail }

/-- No step of any thread breaks the invariant. -/
theorem RingInv.step {s t : RingState n m} (inv : RingInv s) {a : RingAction n m}
    (step : s.step a = some t) : RingInv t := by
  cases a with
  | callSubmit p bd => exact inv.callSubmit step
  | submit p => exact inv.ringSubmit step
  | callGet c bdNonNull => exact inv.callGet step
  | get c => exact inv.ringGet step

theorem RingInv.of_reachable {s : RingState n m} (reached : (ringMachine n m).Reachable s) :
    RingInv s := by
  apply reached.invariant
  · rintro s rfl
    exact RingInv.initial
  · intro s a t step inv
    exact inv.step step

/-- For any numbers of producers and consumers and every interleaving of their steps, the descriptors
copied out are a prefix of the descriptors copied in, every outstanding descriptor is intact in its
own slot, and at most `ringSize` are outstanding. -/
theorem ring_delivers_in_order {s : RingState n m} (reached : (ringMachine n m).Reachable s) :
    s.got <+: s.submitted ∧
      s.submitted.length ≤ s.got.length + ringSize ∧
      (∀ i bd, s.got.length ≤ i → s.submitted[i]? = some bd →
        s.ring.buffer (i % ringSize) = bd) ∧
      s.ring.pHead < ringSize ∧ s.ring.cTail < ringSize := by
  have inv := RingInv.of_reachable reached
  exact ⟨inv.order, inv.outstanding_le, inv.slots, inv.pHead_lt, inv.cTail_lt⟩

attribute [local instance] neZero_one neZero_two in
/-- Two producers race for the ring and one consumer takes the item of the second. -/
def ringRace : List (RingAction 2 1) :=
  [.callSubmit 0 (some ⟨.get, 7, 0, 0, 0⟩), .callSubmit 1 (some ⟨.put, 7, 3, 20, 0⟩), .callGet 0 true,
    .submit 0, .submit 1, .submit 1, .submit 1, .submit 1, .submit 1, .submit 1, .submit 0, .submit 0,
    .get 0, .get 0, .get 0, .get 0]

theorem ring_delivers_in_order_race : ∃ s, (ringMachine 2 1).run (.initial 2 1) ringRace = some s ∧
    s.got = [⟨.put, 7, 3, 20, 0⟩] ∧ s.got <+: s.submitted ∧ s.submitted.length = 2 := by
  refine ⟨_, rfl, rfl, ?_, rfl⟩
  have reached := (ringMachine 2 1).reachable_of_run rfl ringRace rfl
  exact (ring_delivers_in_order reached).1

end Cs537.KvStore
