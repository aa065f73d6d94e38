import Mathlib.Data.List.Basic
import Mathlib.Data.List.Flatten
import Mathlib.Data.List.Nodup

/-! # Linearizability of call histories

A history lists the calls and returns of a concurrent object in the order in which they happened.
A linearization is an order of calls, containing every returned call and possibly some pending ones,
that the sequential object would have answered in the same way and that never puts a call before one
that had returned when it was made. The three rules at the end build a linearization along a run:
a call is entered, takes effect at one instant, and returns.
-/

namespace Cs537.Lib

/-- A sequential object: its initial state and the effect and answer of each operation. -/
structure Object (σ Op Ret : Type*) where
  init : σ
  apply : σ → Op → σ × Ret

/-- One event of a concurrent history; the identity tells calls of one operation apart. -/
inductive Event (ι Op Ret : Type*) where
  | inv (id : ι) (op : Op)
  | res (id : ι) (ret : Ret)
deriving DecidableEq, Repr

/-- A call together with the answer it takes effect with. -/
structure Commit (ι Op Ret : Type*) where
  id : ι
  op : Op
  ret : Ret
deriving DecidableEq, Repr

variable {σ ι Op Ret : Type*}

namespace Object

/-- The state after the listed calls. -/
def after (obj : Object σ Op Ret) (order : List (Commit ι Op Ret)) : σ :=
  order.foldl (fun state c => (obj.apply state c.op).1) obj.init

@[simp] theorem after_snoc (obj : Object σ Op Ret) (order : List (Commit ι Op Ret))
    (c : Commit ι Op Ret) : obj.after (order ++ [c]) = (obj.apply (obj.after order) c.op).1 := by
  simp [after]

/-- Every listed call gets the answer the sequential object gives at its place in the order. -/
def Legal (obj : Object σ Op Ret) (order : List (Commit ι Op Ret)) : Prop :=
  ∀ before c rest, order = before ++ c :: rest → (obj.apply (obj.after before) c.op).2 = c.ret

theorem Legal.snoc {obj : Object σ Op Ret} {order : List (Commit ι Op Ret)} (legal : obj.Legal order)
    {c : Commit ι Op Ret} (answer : (obj.apply (obj.after order) c.op).2 = c.ret) :
    obj.Legal (order ++ [c]) := by
  intro before d rest split
  rcases List.eq_nil_or_concat rest with rfl | ⟨front, last, rfl⟩
  · obtain ⟨rfl, rfl⟩ := List.concat_inj.mp (by simpa using split)
    exact answer
  · apply legal before d front
    have same : order ++ [c] = (before ++ d :: front) ++ [last] := by simpa using split
    exact (List.append_inj' same rfl).1

end Object

/-- The call `a` had returned when `b` was made. -/
def Precedes (history : List (Event ι Op Ret)) (a b : ι) : Prop :=
  ∃ ret op, [Event.res a ret, Event.inv b op].Sublist history

/-- The order explains the history as a sequence of calls of the sequential object. -/
structure Linearization (obj : Object σ Op Ret) (history : List (Event ι Op Ret))
    (order : List (Commit ι Op Ret)) : Prop where
  nodup : (order.map Commit.id).Nodup
  invoked : ∀ c ∈ order, Event.inv c.id c.op ∈ history
  completed : ∀ id ret, Event.res id ret ∈ history → ∃ c ∈ order, c.id = id ∧ c.ret = ret
  legal : obj.Legal order
  realTime : ∀ a b, Precedes history a b → b ∈ order.map Commit.id →
    [a, b].Sublist (order.map Commit.id)

private theorem pair_sublist_snoc {α : Type*} {x y e : α} {l : List α} :
    [x, y].Sublist (l ++ [e]) ↔ [x, y].Sublist l ∨ x ∈ l ∧ y = e := by
  constructor
  · intro sub
    obtain ⟨front, back, split, left, right⟩ := List.sublist_append_iff.mp sub
    rcases List.sublist_singleton.mp right with rfl | rfl
    · rw [List.append_nil] at split
      exact .inl (split ▸ left)
    · have same : front = [x] ∧ e = y := by
        have := List.append_inj' (show [x] ++ [y] = front ++ [e] from split) rfl
        simpa [eq_comm] using this
      obtain ⟨rfl, rfl⟩ := same
      exact .inr ⟨List.singleton_sublist.mp left, rfl⟩
  · rintro (sub | ⟨member, rfl⟩)
    · exact sub.trans (List.sublist_append_left _ _)
    · exact (List.singleton_sublist.mpr member).append (List.Sublist.refl [y])

namespace Linearization

variable {obj : Object σ Op Ret} {history : List (Event ι Op Ret)} {order : List (Commit ι Op Ret)}

theorem empty : Linearization obj ([] : List (Event ι Op Ret)) [] where
  nodup := List.nodup_nil
  invoked := by simp
  completed := by simp
  legal := by intro before c rest split; simp at split
  realTime := by intro a b _ member; simp at member

/-- A call is entered under an identity not used before. -/
theorem invoke (lin : Linearization obj history order) {id : ι} {op : Op}
    (fresh : ∀ op, Event.inv id op ∉ history) :
    Linearization obj (history ++ [.inv id op]) order where
  nodup := lin.nodup
  invoked c member := List.mem_append_left _ (lin.invoked c member)
  completed a ret member := by
    rcases List.mem_append.mp member with old | new
    · exact lin.completed a ret old
    · simp at new
  legal := lin.legal
  realTime a b := by
    rintro ⟨ret, op', sub⟩ member
    rcases pair_sublist_snoc.mp sub with old | ⟨_, new⟩
    · exact lin.realTime a b ⟨ret, op', old⟩ member
    · obtain ⟨c, inOrder, rfl⟩ := List.mem_map.mp member
      cases new
      exact absurd (lin.invoked c inOrder) (fresh _)

/-- A pending call takes effect: it goes to the end of the order with the object's answer. -/
theorem commit (lin : Linearization obj history order) {c : Commit ι Op Ret}
    (invoked : Event.inv c.id c.op ∈ history) (pending : c.id ∉ order.map Commit.id)
    (answer : (obj.apply (obj.after order) c.op).2 = c.ret) :
    Linearization obj history (order ++ [c]) where
  nodup := by
    rw [List.map_append, List.map_singleton]
    exact lin.nodup.append (List.nodup_singleton _) (by simpa using pending)
  invoked d member := by
    rcases List.mem_append.mp member with old | new
    · exact lin.invoked d old
    · rw [List.mem_singleton.mp new]
      exact invoked
  completed a ret member := by
    obtain ⟨d, inOrder, same⟩ := lin.completed a ret member
    exact ⟨d, List.mem_append_left _ inOrder, same⟩
  legal := lin.legal.snoc answer
  realTime a b before member := by
    rw [List.map_append, List.map_singleton] at member ⊢
    rcases List.mem_append.mp member with old | new
    · exact (lin.realTime a b before old).trans (List.sublist_append_left _ _)
    · obtain rfl := List.mem_singleton.mp new
      obtain ⟨ret, op, sub⟩ := before
      obtain ⟨d, inOrder, rfl, _⟩ := lin.completed a ret (sub.subset (by simp))
      exact pair_sublist_snoc.mpr (.inr ⟨List.mem_map_of_mem inOrder, rfl⟩)

/-- A call that has taken effect returns its answer. -/
theorem respond (lin : Linearization obj history order) {c : Commit ι Op Ret} (committed : c ∈ order) :
    Linearization obj (history ++ [.res c.id c.ret]) order where
  nodup := lin.nodup
  invoked d member := List.mem_append_left _ (lin.invoked d member)
  completed a ret member := by
    rcases List.mem_append.mp member with old | new
    · exact lin.completed a ret old
    · cases List.mem_singleton.mp new
      exact ⟨c, committed, rfl, rfl⟩
  legal := lin.legal
  realTime a b := by
    rintro ⟨ret, op, sub⟩ member
    rcases pair_sublist_snoc.mp sub with old | ⟨_, new⟩
    · exact lin.realTime a b ⟨ret, op, old⟩ member
    · cases new

end Linearization

/-- The history of calls made one after the other. -/
def serial (calls : List (Commit ι Op Ret)) : List (Event ι Op Ret) :=
  calls.flatMap fun c => [.inv c.id c.op, .res c.id c.ret]

theorem serial_snoc (calls : List (Commit ι Op Ret)) (c : Commit ι Op Ret) :
    serial (calls ++ [c]) = serial calls ++ [.inv c.id c.op, .res c.id c.ret] := by
  simp [serial]

theorem inv_mem_serial {calls : List (Commit ι Op Ret)} {id : ι} {op : Op} :
    Event.inv id op ∈ serial calls ↔ ∃ c ∈ calls, c.id = id ∧ c.op = op := by
  simp [serial, eq_comm]

theorem res_mem_serial {calls : List (Commit ι Op Ret)} {id : ι} {ret : Ret} :
    Event.res id ret ∈ serial calls ↔ ∃ c ∈ calls, c.id = id ∧ c.ret = ret := by
  simp [serial, eq_comm]

theorem precedes_serial {calls : List (Commit ι Op Ret)} {c d : Commit ι Op Ret}
    (order : [c, d].Sublist calls) : Precedes (serial calls) c.id d.id := by
  refine ⟨c.ret, d.op, ?_⟩
  have pair : [Event.res c.id c.ret, .inv d.id d.op].Sublist (serial [c, d]) := by simp [serial]
  exact pair.trans (order.flatMap _)

private theorem pair_antisymm {α : Type*} {a b : α} {l : List α} (nodup : l.Nodup)
    (first : [a, b].Sublist l) (second : [b, a].Sublist l) : a = b := by
  induction l with
  | nil => cases first
  | cons x l ih =>
    obtain ⟨fresh, rest⟩ := List.nodup_cons.mp nodup
    cases first with
    | cons _ first =>
      cases second with
      | cons _ second => exact ih rest first second
      | cons_cons _ _ => exact (fresh (first.subset (by simp))).elim
    | cons_cons _ _ =>
      cases second with
      | cons _ second => exact (fresh (second.subset (by simp))).elim
      | cons_cons _ _ => rfl

private theorem eq_of_id_eq {order : List (Commit ι Op Ret)} (nodup : (order.map Commit.id).Nodup)
    {c d : Commit ι Op Ret} (first : c ∈ order) (second : d ∈ order) (same : c.id = d.id) : c = d :=
  List.inj_on_of_nodup_map nodup first second same

/-- Calls made one after the other have one linearization: themselves. -/
theorem Linearization.eq_of_serial {obj : Object σ Op Ret} {calls order : List (Commit ι Op Ret)}
    (nodup : (calls.map Commit.id).Nodup) (lin : Linearization obj (serial calls) order) :
    order = calls := by
  have complete : ∀ c ∈ calls, c ∈ order := by
    intro c member
    obtain ⟨d, inOrder, id, ret⟩ := lin.completed c.id c.ret (res_mem_serial.mpr ⟨c, member, rfl, rfl⟩)
    obtain ⟨e, made, id', op⟩ := inv_mem_serial.mp (lin.invoked d inOrder)
    obtain rfl := eq_of_id_eq nodup made member (id'.trans id)
    cases d
    cases e
    cases id
    cases ret
    cases op
    exact inOrder
  have sound : ∀ c ∈ order, c ∈ calls := by
    intro c member
    obtain ⟨d, made, id, _⟩ := inv_mem_serial.mp (lin.invoked c member)
    rw [eq_of_id_eq lin.nodup member (complete d made) id.symm]
    exact made
  have perm : order.Perm calls :=
    (List.perm_ext_iff_of_nodup lin.nodup.of_map nodup.of_map).mpr fun c => ⟨sound c, complete c⟩
  have antisymm (c d : Commit ι Op Ret) (_ : c ∈ order) (_ : d ∈ calls) (first : [c, d].Sublist order)
      (second : [d, c].Sublist order) : c = d := pair_antisymm lin.nodup.of_map first second
  refine perm.eq_of_pairwise antisymm ?_ ?_
  · exact List.pairwise_iff_forall_sublist.mpr id
  · apply List.pairwise_iff_forall_sublist.mpr
    intro c d sub
    have inOrder := complete d (sub.subset (by simp))
    have ids := lin.realTime c.id d.id (precedes_serial sub) (List.mem_map_of_mem inOrder)
    obtain ⟨pair, inside, names⟩ := List.sublist_map_iff.mp ids
    obtain ⟨c', d', rfl⟩ := List.length_eq_two.mp (by simpa using (congrArg List.length names).symm)
    simp only [List.map_cons, List.map_nil, List.cons.injEq, and_true] at names
    rw [eq_of_id_eq lin.nodup (complete c (sub.subset (by simp))) (inside.subset (by simp)) names.1,
      eq_of_id_eq lin.nodup inOrder (inside.subset (by simp)) names.2]
    exact inside

end Cs537.Lib
