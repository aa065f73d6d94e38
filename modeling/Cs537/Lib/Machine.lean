import Mathlib.Logic.Function.Basic

/-! # Labelled machines and their runs

A machine is a set of initial states and a partial step function: an action that is not enabled in
a state has no successor there. Runs are finite, carry their labels, and may be restricted to steps
that meet a condition on the state before the step. The rules below turn facts about one step into
facts about every run; nothing here knows which program the machine models.
-/

namespace Cs537.Lib

variable {σ α : Type*}

/-- Initial states together with a labelled partial step function. -/
structure Machine (σ : Type*) (α : Type*) where
  init : σ → Prop
  step : σ → α → Option σ

namespace Machine

/-- A finite run in which every step is enabled and meets `ok` in the state before it. -/
inductive Path (m : Machine σ α) (ok : σ → α → Prop) : σ → List α → σ → Prop
  | nil (s : σ) : Path m ok s [] s
  | cons {s mid t : σ} {a : α} {rest : List α} :
      ok s a → m.step s a = some mid → Path m ok mid rest t → Path m ok s (a :: rest) t

/-- The states some run from an initial state ends in, all its steps meeting `ok`. -/
def ReachableBy (m : Machine σ α) (ok : σ → α → Prop) (t : σ) : Prop :=
  ∃ s acts, m.init s ∧ m.Path ok s acts t

/-- The states some unrestricted run from an initial state ends in. -/
def Reachable (m : Machine σ α) (t : σ) : Prop := m.ReachableBy (fun _ _ => True) t

variable {m : Machine σ α} {ok : σ → α → Prop}

theorem Path.append {s mid t : σ} {first second : List α} (left : m.Path ok s first mid)
    (right : m.Path ok mid second t) : m.Path ok s (first ++ second) t := by
  induction left with
  | nil => exact right
  | cons allowed step _ ih => exact .cons allowed step (ih right)

theorem Path.snoc {s mid t : σ} {acts : List α} {a : α} (path : m.Path ok s acts mid)
    (allowed : ok mid a) (step : m.step mid a = some t) : m.Path ok s (acts ++ [a]) t :=
  path.append (.cons allowed step (.nil t))

theorem Path.weaken {weak : σ → α → Prop} (imp : ∀ s a, ok s a → weak s a) {s t : σ}
    {acts : List α} (path : m.Path ok s acts t) : m.Path weak s acts t := by
  induction path with
  | nil => exact .nil _
  | cons allowed step _ ih => exact .cons (imp _ _ allowed) step ih

/-- A condition that the actions of a run meet in every state. -/
theorem Path.of_forall {weak : σ → α → Prop} {s t : σ} {acts : List α} (all : ∀ a ∈ acts, ∀ s, ok s a)
    (path : m.Path weak s acts t) : m.Path ok s acts t := by
  induction path with
  | nil => exact .nil _
  | cons _ step _ ih =>
    exact .cons (all _ (List.mem_cons_self ..) _) step (ih fun a member => all a (List.mem_cons_of_mem _ member))

/-- A run meets a condition at every step, or has a first step that does not. -/
theorem Path.all_or_first (ok : σ → α → Prop) {s t : σ} {acts : List α}
    (path : m.Path (fun _ _ => True) s acts t) :
    m.Path ok s acts t ∨ ∃ before a after mid, acts = before ++ a :: after ∧ m.Path ok s before mid ∧
      ¬ ok mid a := by
  induction path with
  | nil => exact .inl (.nil _)
  | @cons s mid t a rest _ step _ ih =>
    by_cases allowed : ok s a
    · rcases ih with whole | ⟨before, b, after, last, split, good, bad⟩
      · exact .inl (.cons allowed step whole)
      · exact .inr ⟨a :: before, b, after, last, by rw [split]; rfl, .cons allowed step good, bad⟩
    · exact .inr ⟨[], a, rest, s, rfl, .nil s, allowed⟩

/-- What one permitted step preserves, a whole run preserves. -/
theorem Path.preserves {inv : σ → Prop}
    (stepInv : ∀ s a t, ok s a → m.step s a = some t → inv s → inv t)
    {s t : σ} {acts : List α} (path : m.Path ok s acts t) (start : inv s) : inv t := by
  induction path with
  | nil => exact start
  | cons allowed step _ ih => exact ih (stepInv _ _ _ allowed step start)

/-- The invariant rule: initially true and preserved by permitted steps, hence true when reached. -/
theorem ReachableBy.invariant {inv : σ → Prop} (initInv : ∀ s, m.init s → inv s)
    (stepInv : ∀ s a t, ok s a → m.step s a = some t → inv s → inv t)
    {t : σ} (reached : m.ReachableBy ok t) : inv t := by
  obtain ⟨s, acts, start, path⟩ := reached
  exact path.preserves stepInv (initInv s start)

theorem ReachableBy.initial {s : σ} (start : m.init s) : m.ReachableBy ok s :=
  ⟨s, [], start, .nil s⟩

theorem ReachableBy.step {s t : σ} {a : α} (reached : m.ReachableBy ok s) (allowed : ok s a)
    (step : m.step s a = some t) : m.ReachableBy ok t := by
  obtain ⟨source, acts, start, path⟩ := reached
  exact ⟨source, acts ++ [a], start, path.snoc allowed step⟩

theorem ReachableBy.weaken {weak : σ → α → Prop} (imp : ∀ s a, ok s a → weak s a) {t : σ}
    (reached : m.ReachableBy ok t) : m.ReachableBy weak t := by
  obtain ⟨s, acts, start, path⟩ := reached
  exact ⟨s, acts, start, path.weaken imp⟩

/-- The rule for unrestricted runs. -/
theorem Reachable.invariant {inv : σ → Prop} (initInv : ∀ s, m.init s → inv s)
    (stepInv : ∀ s a t, m.step s a = some t → inv s → inv t)
    {t : σ} (reached : m.Reachable t) : inv t :=
  ReachableBy.invariant initInv (fun s a t _ => stepInv s a t) reached

/-- Execute a list of actions, failing at the first one that is not enabled. -/
def run (m : Machine σ α) : σ → List α → Option σ
  | s, [] => some s
  | s, a :: rest => (m.step s a).bind fun mid => m.run mid rest

theorem path_of_run {s t : σ} {acts : List α} (success : m.run s acts = some t) :
    m.Path (fun _ _ => True) s acts t := by
  induction acts generalizing s with
  | nil =>
    cases success
    exact .nil _
  | cons a rest ih =>
    obtain ⟨mid, step, tail⟩ := Option.bind_eq_some_iff.mp success
    exact .cons trivial step (ih tail)

/-- Execute a list of actions, each of which has to meet a condition. -/
def runBy (m : Machine σ α) (ok : σ → α → Prop) [∀ s a, Decidable (ok s a)] : σ → List α → Option σ
  | s, [] => some s
  | s, a :: rest => if ok s a then (m.step s a).bind fun mid => m.runBy ok mid rest else none

theorem path_of_runBy [∀ s a, Decidable (ok s a)] {s t : σ} {acts : List α} (success : m.runBy ok s acts = some t) :
    m.Path ok s acts t := by
  induction acts generalizing s with
  | nil =>
    cases success
    exact .nil _
  | cons a rest ih =>
    obtain ⟨allowed, success⟩ := Option.ite_none_right_eq_some.mp success
    obtain ⟨mid, step, tail⟩ := Option.bind_eq_some_iff.mp success
    exact .cons allowed step (ih tail)

theorem reachableBy_of_runBy [∀ s a, Decidable (ok s a)] {s t : σ} (start : m.init s) (acts : List α)
    (success : m.runBy ok s acts = some t) : m.ReachableBy ok t :=
  ⟨s, acts, start, path_of_runBy success⟩

theorem reachable_of_run (m : Machine σ α) {s t : σ} (start : m.init s) (acts : List α)
    (success : m.run s acts = some t) : m.Reachable t :=
  ⟨s, acts, start, path_of_run success⟩

end Machine

/-- What every round of a loop preserves, the loop preserves. -/
theorem foldlM_preserves {inv : σ → Prop} {body : σ → α → Option σ} {rounds : List α}
    (bodyInv : ∀ s, ∀ a ∈ rounds, ∀ t, body s a = some t → inv s → inv t) {s t : σ}
    (done : rounds.foldlM body s = some t) (start : inv s) : inv t := by
  induction rounds generalizing s with
  | nil =>
    cases done
    exact start
  | cons a rest ih =>
    rw [List.foldlM_cons] at done
    obtain ⟨mid, round, tail⟩ := Option.bind_eq_some_iff.mp done
    refine ih (fun s b member => bodyInv s b (List.mem_cons_of_mem a member)) tail ?_
    exact bodyInv s a (List.mem_cons_self ..) mid round start

/-- The rounds of a loop in which a test holds, each in the state that the loop has then reached. -/
def touched (body : σ → α → Option σ) (test : σ → α → Bool) : List α → σ → List α
  | [], _ => []
  | a :: rest, s => (if test s a then [a] else []) ++ match body s a with
      | none => []
      | some t => touched body test rest t

/-- A loop in which a round without the test goes on and does not change what the test says: the test never holds if it
does not hold at the start for any round. -/
theorem touched_eq_nil_iff {body : σ → α → Option σ} {test : σ → α → Bool} {rounds : List α}
    (quiet : ∀ s, ∀ a ∈ rounds, test s a = false → ∃ t, body s a = some t ∧ test t = test s) {s : σ} :
    touched body test rounds s = [] ↔ ∀ a ∈ rounds, test s a = false := by
  induction rounds generalizing s with
  | nil => simp [touched]
  | cons a rest ih =>
    rw [touched, List.forall_mem_cons]
    cases holds : test s a with
    | true => simp
    | false =>
      obtain ⟨t, round, same⟩ := quiet s a List.mem_cons_self holds
      rw [round]
      simp only [Bool.false_eq_true, if_false, List.nil_append, true_and]
      rw [ih fun s b member => quiet s b (List.mem_cons_of_mem a member), same]

/-- In a loop in which the test never holds, the rounds need to preserve an invariant only where it does not hold. -/
theorem foldlM_untouched {inv : σ → Prop} {body : σ → α → Option σ} {test : σ → α → Bool} {rounds : List α}
    (bodyInv : ∀ s, ∀ a ∈ rounds, ∀ t, test s a = false → body s a = some t → inv s → inv t) {s t : σ}
    (never : touched body test rounds s = []) (done : rounds.foldlM body s = some t) (start : inv s) : inv t := by
  induction rounds generalizing s with
  | nil =>
    cases done
    exact start
  | cons a rest ih =>
    rw [List.foldlM_cons] at done
    obtain ⟨mid, round, tail⟩ := Option.bind_eq_some_iff.mp done
    rw [touched, round] at never
    obtain ⟨here, later⟩ := List.append_eq_nil_iff.mp never
    have clear : test s a = false := by
      by_contra holds
      rw [Bool.not_eq_false] at holds
      rw [if_pos holds] at here
      cases here
    exact ih (fun s b member => bodyInv s b (List.mem_cons_of_mem a member)) later tail
      (bodyInv s a List.mem_cons_self mid clear round start)

/-- Related results are both there, or neither is. -/
theorem rel_cases {τ : Type*} {rel : σ → τ → Prop} {left : Option σ} {right : Option τ}
    (related : Option.Rel rel left right) :
    (left = none ∧ right = none) ∨ ∃ s t, left = some s ∧ right = some t ∧ rel s t := by
  cases related with
  | some holds => exact .inr ⟨_, _, rfl, rfl, holds⟩
  | none => exact .inl ⟨rfl, rfl⟩

/-- Two loops over one list stay related, where what relates them may depend on the rounds that are left. -/
theorem foldlM_rel {τ : Type*} (rel : List α → σ → τ → Prop) {left : σ → α → Option σ} {right : τ → α → Option τ}
    (round : ∀ a rest s t, rel (a :: rest) s t → Option.Rel (rel rest) (left s a) (right t a)) {rounds : List α}
    {s : σ} {t : τ} (start : rel rounds s t) :
    Option.Rel (rel []) (rounds.foldlM left s) (rounds.foldlM right t) := by
  induction rounds generalizing s t with
  | nil => exact .some start
  | cons a rest ih =>
    rw [List.foldlM_cons, List.foldlM_cons]
    rcases rel_cases (round a rest s t start) with ⟨first, second⟩ | ⟨_, _, first, second, related⟩
    · rw [first, second]
      exact .none
    · rw [first, second]
      exact ih related

end Cs537.Lib
