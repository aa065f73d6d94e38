import Cs537.KvStore.Serial

/-! # How the requests are split over the client threads

`start_threads` gives each thread the same number of requests, the integer quotient of the two counts,
and moves its pointers into `requests` and `results` on by that number for each thread. When all client
threads have returned, every request below the number of threads times the quotient has been submitted
once and has its answer at its own index; a remainder is never submitted.
-/

namespace Cs537.KvStore

open Lib

variable {n m winSize tableSize : ℕ} {requests : List Request}

/-- The element of `requests` that a thread submits as its request number `r`: `ctx->reqs` is advanced by
`reqs_per_th` for each thread before it. -/
def requestIndex (requests : List Request) (tag : Fin n × ℕ) : ℕ := tag.1 * (requests.length / n) + tag.2

/-- The `results` array: `ctx->res` is advanced in the same way, so that an index belongs to the thread of
its part. -/
def System.results (s : System n m) (requests : List Request) (i : ℕ) : Option BufferDescriptor :=
  if inside : i / (requests.length / n) < n then
    some ((s.client ⟨i / (requests.length / n), inside⟩).res (i % (requests.length / n)))
  else none

/-- Every request has entered the ring once, at one place of the sequence of submissions and so by one
thread, and the answer to it is at its index of `results`. -/
structure CoveredOnce (cfg : Config n) (requests : List Request) (s : System n m) : Prop where
  submitted : ∀ i req, requests[i]? = some req → ∃! place : ℕ, ∃ tag, s.tags[place]? = some tag ∧
    requestIndex requests tag = i ∧ s.ring.submitted[place]? = some (cfg.descriptor tag.1 tag.2 req)
  stored : ∀ i req, requests[i]? = some req → ∃ tag a, requestIndex requests tag = i ∧
    s.answers tag.1 tag.2 = some a ∧ a.reqType = req.t ∧ a.k = req.k ∧
    s.results requests i = some { a with ready := 0 }

/-- The part of a thread lies inside the array. -/
private theorem part_le (requests : List Request) (t : Fin n) :
    t * (requests.length / n) + requests.length / n ≤ requests.length := by
  calc t * (requests.length / n) + requests.length / n = (t + 1) * (requests.length / n) := by
        rw [Nat.add_mul, Nat.one_mul]
    _ ≤ n * (requests.length / n) := Nat.mul_le_mul_right _ t.isLt
    _ ≤ requests.length := Nat.mul_div_le ..

private theorem startThreads_numReqs (t : Fin n) :
    (startThreads n winSize tableSize requests).numReqs t = requests.length / n := by
  have inside := part_le requests t
  rw [Config.numReqs, startThreads, List.length_take, List.length_drop]
  omega

private theorem startThreads_reqs (t : Fin n) {r : ℕ} (inside : r < requests.length / n) :
    ((startThreads n winSize tableSize requests).reqs t)[r]? = requests[requestIndex requests (t, r)]? := by
  rw [startThreads, List.getElem?_take_of_lt inside, List.getElem?_drop, requestIndex]

private theorem requestIndex_div (tag : Fin n × ℕ) (inside : tag.2 < requests.length / n) :
    requestIndex requests tag / (requests.length / n) = tag.1 := by
  rw [requestIndex, Nat.mul_comm, Nat.mul_add_div (by omega), Nat.div_eq_of_lt inside, Nat.add_zero]

private theorem requestIndex_mod (tag : Fin n × ℕ) (inside : tag.2 < requests.length / n) :
    requestIndex requests tag % (requests.length / n) = tag.2 := by
  rw [requestIndex, Nat.mul_comm, Nat.mul_add_mod, Nat.mod_eq_of_lt inside]

private theorem requestIndex_inj {tag tag' : Fin n × ℕ} (inside : tag.2 < requests.length / n)
    (inside' : tag'.2 < requests.length / n) (same : requestIndex requests tag = requestIndex requests tag') :
    tag = tag' := by
  apply Prod.ext
  · apply Fin.ext
    rw [← requestIndex_div tag inside, ← requestIndex_div tag' inside', same]
  · rw [← requestIndex_mod tag inside, ← requestIndex_mod tag' inside', same]

private theorem System.results_eq (s : System n m) {tag : Fin n × ℕ} (inside : tag.2 < requests.length / n) :
    s.results requests (requestIndex requests tag) = some ((s.client tag.1).res tag.2) := by
  have row := requestIndex_div tag inside
  have column := requestIndex_mod tag inside
  rw [System.results, dif_pos (by rw [row]; exact tag.1.isLt), column]
  congr 3
  exact Fin.ext row

/-- A client thread changes its own record only. -/
private theorem System.clientStep_client {cfg : Config n} {s s' : System n m} {t : Fin n}
    (step : s.clientStep cfg t = some s') : ∃ c, s'.client = Function.update s.client t c := by
  cases at_pc : (s.client t).pc with
  | submitTest =>
    simp only [System.clientStep, at_pc] at step
    split_ifs at step
    · cases found : (cfg.reqs t)[(s.client t).lastSubmitted]? with
      | none =>
        simp only [found, Option.some.injEq] at step
        subst step
        exact ⟨_, rfl⟩
      | some req =>
        simp only [found, Option.map_eq_some_iff] at step
        obtain ⟨ring, _, rfl⟩ := step
        exact ⟨_, rfl⟩
    · simp only [Option.some.injEq] at step
      subst step
      exact ⟨_, rfl⟩
  | ringSubmit =>
    simp only [System.clientStep, at_pc, Option.map_eq_some_iff] at step
    obtain ⟨ring, _, rfl⟩ := step
    exact ⟨_, rfl⟩
  | loopTest | poll final | clearReady final | copyResult final | finalTest =>
    simp only [System.clientStep, at_pc, Option.some.injEq] at step
    subst step
    exact ⟨_, rfl⟩
  | done => simp [System.clientStep, at_pc] at step

/-- A returned client thread has counted all its answers. -/
theorem done_of_reachable {cfg : Config n} {s : System n m} (reached : (systemMachine cfg m).Reachable s) :
    ∀ t, (s.client t).pc = .done → cfg.numReqs t ≤ (s.client t).lastCompleted := by
  apply reached.invariant
  · rintro s ⟨junk, rfl⟩ t returned
    cases returned
  · intro s a s' step inv t
    cases a with
    | client u =>
      by_cases mine : t = u
      · subst mine
        exact System.clientStep_done step
      · obtain ⟨c, client⟩ := System.clientStep_client step
        rw [client, Function.update_of_ne mine]
        exact inv t
    | server j =>
      rw [System.serverStep_client step]
      exact inv t
    | malloc j new junk =>
      obtain ⟨_, _, rfl⟩ := Option.map_eq_some_iff.mp step
      exact inv t

/-- Only requests of the thread's own part are submitted. -/
theorem SystemInv.tag_lt {s : System n m} (inv : SystemInv (startThreads n winSize tableSize requests) s)
    {tag : Fin n × ℕ} (member : tag ∈ s.tags) : tag.2 < requests.length / n := by
  have tagged := List.mem_map_of_mem (f := (startThreads n winSize tableSize requests).request) member
  rw [← inv.tags_eq] at tagged
  obtain ⟨bd, _, request⟩ := List.mem_map.mp tagged
  obtain ⟨_, _, req, found, _⟩ := Config.request_eq_some request.symm
  have inside := (List.getElem?_eq_some_iff.mp found).1
  rwa [← Config.numReqs, startThreads_numReqs] at inside

/-- What was submitted at a place of the sequence. -/
private theorem SystemInv.submitted_eq {s : System n m} (inv : SystemInv (startThreads n winSize tableSize requests) s)
    {place : ℕ} {tag : Fin n × ℕ} {req : Request} (tagged : s.tags[place]? = some tag)
    (found : requests[requestIndex requests tag]? = some req) : s.ring.submitted[place]? =
      some ((startThreads n winSize tableSize requests).descriptor tag.1 tag.2 req) := by
  have inside := inv.tag_lt (List.mem_of_getElem? tagged)
  have here := congrArg (·[place]?) inv.tags_eq
  simp only [List.getElem?_map, tagged, Option.map_some] at here
  rw [Config.request, startThreads_reqs tag.1 inside, found] at here
  obtain ⟨bd, submitted, eq⟩ := Option.map_eq_some_iff.mp here
  rw [submitted, eq]
  rfl

/-- All threads have returned: every tag of every part is in the ring and acknowledged. -/
theorem SystemInv.all_of_done {s : System n m} (inv : SystemInv (startThreads n winSize tableSize requests) s)
    (done : ∀ t, requests.length / n ≤ (s.client t).lastCompleted) {tag : Fin n × ℕ}
    (inside : tag.2 < requests.length / n) :
    tag ∈ s.tags ∧ ∃ a, s.answers tag.1 tag.2 = some a ∧ (s.client tag.1).res tag.2 = { a with ready := 0 } := by
  have all := done tag.1
  have counted := (inv.clients tag.1).completed_le
  refine ⟨(inv.tags_mem tag.1 tag.2).mpr ?_, (inv.clients tag.1).acknowledged tag.2 (by omega)⟩
  rw [System.copied]
  omega

/-- For any number of client and server threads whose status boards fit the shared area, any workload and
any run at the end of which all client threads have returned: every request was submitted exactly once, by
one thread, and has its result at its index, exactly when the number of threads divides the number of
requests. -/
theorem requests_covered_iff (fits : (startThreads n winSize tableSize requests).Fits)
    {s : System n m} (reached : (systemMachine (startThreads n winSize tableSize requests) m).Reachable s)
    (returned : ∀ t, (s.client t).pc = .done) :
    CoveredOnce (startThreads n winSize tableSize requests) requests s ↔ n ∣ requests.length := by
  have inv := SystemInv.of_reachable fits reached
  have done (t : Fin n) : requests.length / n ≤ (s.client t).lastCompleted := by
    have all := done_of_reachable reached t (returned t)
    rwa [startThreads_numReqs] at all
  constructor
  · intro covered
    by_contra remainder
    have less : n * (requests.length / n) < requests.length := by
      have le := Nat.mul_div_le requests.length n
      have ne : n * (requests.length / n) ≠ requests.length := fun eq => remainder ⟨_, eq.symm⟩
      omega
    obtain ⟨place, ⟨tag, tagged, index, _⟩, _⟩ := covered.submitted _ _ (List.getElem?_eq_getElem less)
    have inside := inv.tag_lt (List.mem_of_getElem? tagged)
    have row : (tag.1 + 1) * (requests.length / n) ≤ n * (requests.length / n) :=
      Nat.mul_le_mul_right _ tag.1.isLt
    rw [Nat.add_mul, Nat.one_mul] at row
    rw [requestIndex] at index
    omega
  · intro divides
    have owner (i : ℕ) (req : Request) (found : requests[i]? = some req) :
        ∃ tag : Fin n × ℕ, requestIndex requests tag = i ∧ tag.2 < requests.length / n := by
      have inside := (List.getElem?_eq_some_iff.mp found).1
      have whole := Nat.div_mul_cancel divides
      have part : 0 < requests.length / n := by
        apply Nat.pos_of_ne_zero
        intro zero
        rw [zero, Nat.zero_mul] at whole
        omega
      have row : i / (requests.length / n) < n := by
        apply Nat.div_lt_of_lt_mul
        rwa [whole]
      exact ⟨(⟨_, row⟩, i % (requests.length / n)), Nat.div_add_mod' .., Nat.mod_lt _ part⟩
    refine ⟨?_, ?_⟩
    · intro i req found
      obtain ⟨tag, rfl, inside⟩ := owner i req found
      obtain ⟨place, tagged⟩ := List.mem_iff_getElem?.mp (inv.all_of_done done inside).1
      refine ⟨place, ⟨tag, tagged, rfl, inv.submitted_eq tagged found⟩, ?_⟩
      rintro other ⟨tag', tagged', index, _⟩
      have same := requestIndex_inj (inv.tag_lt (List.mem_of_getElem? tagged')) inside index
      rw [same, ← tagged] at tagged'
      exact (List.getElem?_inj (List.getElem?_eq_some_iff.mp (tagged'.trans tagged)).1 inv.tags_nodup).mp tagged'
    · intro i req found
      obtain ⟨tag, rfl, inside⟩ := owner i req found
      obtain ⟨_, a, answer, result⟩ := inv.all_of_done done inside
      obtain ⟨_, bd, v, request, rfl⟩ := inv.answered tag.1 tag.2 a answer
      obtain ⟨_, _, req', found', kind, key, _⟩ := Config.request_eq_some request
      rw [startThreads_reqs tag.1 inside, found] at found'
      cases found'
      refine ⟨tag, _, rfl, answer, kind, key, ?_⟩
      rw [s.results_eq inside, result]

/-- Two requests for two threads. -/
def oneEach : List Request := [⟨5, 9, .get⟩, ⟨6, 0, .get⟩]

attribute [local instance] neZero_one neZero_two in
/-- Both threads submit, the server answers both, both threads return. -/
def bothReturn : List (SystemAction 2 1) :=
  List.replicate 8 (.client 0) ++ List.replicate 8 (.client 1) ++ List.replicate 26 (.server 0) ++
    List.replicate 7 (.client 0) ++ List.replicate 7 (.client 1)

theorem requests_covered_iff_one_each : ∃ s, (systemMachine (startThreads 2 1 1 oneEach) 1).Reachable s ∧
    (∀ t, (s.client t).pc = .done) ∧ CoveredOnce (startThreads 2 1 1 oneEach) oneEach s := by
  have finished : ((systemMachine (startThreads 2 1 1 oneEach) 1).run
      (.initial (startThreads 2 1 1 oneEach) 1 fun _ _ => .zero) bothReturn).map
      (fun s => ((s.client 0).pc, (s.client 1).pc)) = some (.done, .done) := by decide +kernel
  obtain ⟨s, run, returned⟩ := Option.map_eq_some_iff.mp finished
  have reached := (systemMachine (startThreads 2 1 1 oneEach) 1).reachable_of_run ⟨_, rfl⟩ bothReturn run
  have all : ∀ t, (s.client t).pc = .done :=
    Fin.forall_fin_two.mpr ⟨congrArg Prod.fst returned, congrArg Prod.snd returned⟩
  exact ⟨s, reached, all, (requests_covered_iff ⟨by decide, by decide⟩ reached all).mpr (by decide)⟩

/-- One request for two threads: both return at once and the request is never submitted. -/
theorem requests_covered_remainder : ∃ s, (systemMachine (startThreads 2 1 1 [⟨5, 9, .get⟩]) 1).Reachable s ∧
    (∀ t, (s.client t).pc = .done) ∧ s.ring.submitted = [] ∧
    ¬ CoveredOnce (startThreads 2 1 1 [⟨5, 9, .get⟩]) [⟨5, 9, .get⟩] s := by
  have reached := (systemMachine (startThreads 2 1 1 [⟨5, 9, .get⟩]) 1).reachable_of_run
    (s := .initial (startThreads 2 1 1 [⟨5, 9, .get⟩]) 1 fun _ _ => .zero) ⟨_, rfl⟩
    [.client 0, .client 0, .client 1, .client 1] rfl
  refine ⟨_, reached, by decide, rfl, ?_⟩
  intro covered
  obtain ⟨place, ⟨tag, tagged, _⟩, _⟩ := covered.submitted 0 ⟨5, 9, .get⟩ rfl
  cases tagged

end Cs537.KvStore
