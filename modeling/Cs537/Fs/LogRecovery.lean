import Cs537.Fs.LogSafety

/-! # Recovery ends, and what was committed stays

`recover_from_log` transfers each block that the header names and then clears the header, so that a kernel
left alone after a crash is ready after a number of steps that the header tells. An update that recovery has
found once is found by every later recovery.
-/

namespace Cs537.Fs.Log

open Cs537.Lib

variable {area : LogArea} {s t : St} {disk : ℕ → Block} {j : Journal ℕ Block}

/-- The steps that recovery has left. -/
def bootSteps (area : LogArea) (s : St) : ℕ := match s.pc with
  | .boot => (readHead (s.view area.logstart)).length + 3
  | .install true tail => s.lh.length - tail + 2
  | .clear true => 1
  | _ => 0

private theorem tick_booting (area : LogArea) (booting : s.pc.booting = true) :
    ∃ t, s.tick area = some t ∧ bootSteps area t + 1 = bootSteps area s ∧ (t.pc.booting = true ∨ t.pc = .ready) ∧
      s.pc ≠ .writeHead := by
  rw [St.tick]
  cases at_ : s.pc with
  | boot =>
    refine ⟨_, rfl, ?_, .inl rfl, by simp⟩
    simp [bootSteps, at_]
  | install boot tail =>
    simp only [at_, Pc.booting] at booting
    subst booting
    cases entry : s.lh[tail]? with
    | some b =>
      obtain ⟨inside, _⟩ := List.getElem?_eq_some_iff.mp entry
      simp only [entry]
      refine ⟨_, rfl, ?_, .inl rfl, by simp⟩
      simp only [bootSteps, at_]
      change (s.bread (area.logstart + tail + 1)).lh.length - (tail + 1) + 2 + 1 = _
      rw [lh_bread]
      omega
    | none =>
      have all : s.lh.length ≤ tail := List.getElem?_eq_none_iff.mp entry
      simp only [entry]
      refine ⟨_, rfl, ?_, .inl rfl, by simp⟩
      simp only [bootSteps, at_]
      omega
  | clear boot =>
    simp only [at_, Pc.booting] at booting
    subst booting
    refine ⟨_, rfl, ?_, .inr rfl, by simp⟩
    simp [bootSteps, at_]
  | ready => simp [at_, Pc.booting] at booting
  | writeLog tail => simp [at_, Pc.booting] at booting
  | writeHead => simp [at_, Pc.booting] at booting
  | committed => simp [at_, Pc.booting] at booting

/-- A recovery that is not interrupted comes to its end. -/
private theorem recovery_runs (count : ℕ) (left : bootSteps area s = count) (phase : s.pc.booting = true ∨ s.pc = .ready)
    (room : Room area s) (stays : Stays area j s) :
    ∃ t, (machine area).run s (List.replicate count .tick) = some t ∧ t.pc = .ready ∧ Room area t ∧ Stays area j t := by
  induction count generalizing s with
  | zero =>
    refine ⟨s, rfl, phase.resolve_left fun booting => ?_, room, stays⟩
    obtain ⟨t, _, fewer, _⟩ := tick_booting area booting
    omega
  | succ count ih =>
    have booting : s.pc.booting = true := by
      apply phase.resolve_right
      intro ready
      rw [bootSteps, ready] at left
      cases left
    obtain ⟨mid, next, fewer, later, before⟩ := tick_booting area booting
    have kept := tick_stays room stays.1 stays.2 next before
    obtain ⟨t, run, ready, roomy, same⟩ := ih (by omega) later (room.tick next) kept
    refine ⟨t, ?_, ready, roomy, same⟩
    rw [List.replicate_succ, Machine.run]
    change (step area s .tick).bind _ = _
    rw [step_running room.sane]
    change (s.tick area).bind _ = _
    rw [next]
    exact run

/-- In a ready kernel without open calls everything that can be read is durable. -/
theorem durable_of_idle (room : Room area s) (stored : Stored area s) (ready : s.pc = .ready) (idle : s.inOp = ∅)
    (b : ℕ) :
    s.view b = s.disk b ∧ recovered area s.disk b = s.disk b := by
  have cached := stored.cached
  have progress := stored.progress
  simp only [pinned, Progress, ready, room.idle ready idle] at cached progress
  exact ⟨view_of_unpinned cached List.not_mem_nil, congrFun (recovered_of_empty progress) b⟩

/-- After a crash at any moment of any run, a recovery that is left alone takes three steps more than the
header names blocks; then the log is empty, on the disk too, and both the disk and the readers have exactly
what recovery promises at the crash. -/
theorem recovery_completes (size : LOGSIZE ≤ area.nlog) (valid : ValidHead area (readHead (disk area.logstart)))
    {acts : List Action} (path : (machine area).Path (Careful area) (powerOn disk) acts s) :
    ∃ t, (machine area).run s
        (.crash :: List.replicate ((readHead (s.disk area.logstart)).length + 3) .tick) = some t ∧
      t.pc = .ready ∧ t.lh = [] ∧ readHead (t.disk area.logstart) = [] ∧
      ∀ b, Home area b → t.disk b = recovered area s.disk b ∧ t.view b = recovered area s.disk b := by
  obtain ⟨room, stored, j, _, keeps⟩ := keeps_of_path size valid path
  obtain ⟨crashed, j', _, promise⟩ := crash_matched (s := s) keeps
  obtain ⟨t, run, ready, roomy, stays⟩ := recovery_runs ((readHead (s.disk area.logstart)).length + 3) rfl (.inl rfl)
    room.crash ⟨crashed, promise⟩
  have closed : t.inOp = ∅ := by
    rw [← stays.2.opened, promise.opened]
    rfl
  have progress := stays.1.progress
  simp only [Progress, ready] at progress
  refine ⟨t, ?_, ready, roomy.idle ready closed, progress, fun b home => ?_⟩
  · rw [Machine.run]
    change (step area s .crash).bind _ = _
    rw [step_running room.sane]
    exact run
  · obtain ⟨seen, whole⟩ := durable_of_idle roomy stays.1 ready closed b
    have same : t.disk b = recovered area s.disk b := by
      rw [← whole, stays.2.durable b home, ← promise.durable b home]
      rfl
    exact ⟨same, seen.trans same⟩

theorem recovery_completes_interrupted :
    ∃ s t, (machine ⟨2, LOGSIZE⟩).Path (Careful ⟨2, LOGSIZE⟩) (powerOn blank) interrupted s ∧
      (machine ⟨2, LOGSIZE⟩).run s (.crash :: List.replicate ((readHead (s.disk 2)).length + 3) .tick) = some t ∧
      t.pc = .ready ∧ t.lh = [] ∧ readHead (t.disk 2) = [] ∧
      ∀ b, Home ⟨2, LOGSIZE⟩ b →
        t.disk b = recovered ⟨2, LOGSIZE⟩ s.disk b ∧ t.view b = recovered ⟨2, LOGSIZE⟩ s.disk b := by
  obtain ⟨s, path⟩ := interrupted_runs
  obtain ⟨t, completes⟩ := recovery_completes (Nat.le_refl _) blank_valid path
  exact ⟨s, t, path, completes⟩

/-- Along a run the journal's survivors only grow. -/
private theorem survivors_grow (size : LOGSIZE ≤ area.nlog) {acts : List Action} {base : ℕ → Block}
    (path : (machine area).Path (Careful area) s acts t) (room : Room area s) (stored : Stored area s)
    (reached : (Journal.machine base).Reachable j) (keeps : Keeps area s j) :
    ∃ j', j.survived <+: j'.survived ∧ (Journal.machine base).Reachable j' ∧ Keeps area t j' := by
  have start : Follows area base j s := ⟨room, stored, j, List.prefix_refl _, reached, keeps⟩
  exact (path.preserves (fun _ _ _ => Follows.step size) start).2.2

/-- What recovery would find at one moment it finds at every later one, with further updates made on top of
it; and once the kernel is ready with no call open, that is everything a reader sees. -/
theorem log_durable (size : LOGSIZE ≤ area.nlog) (valid : ValidHead area (readHead (disk area.logstart)))
    {first later : List Action} (path : (machine area).Path (Careful area) (powerOn disk) first s)
    (path' : (machine area).Path (Careful area) s later t) :
    ∃ kept more : List (Update ℕ Block),
      (∀ b, Home area b → recovered area s.disk b = applyUpdates kept (recovered area disk) b) ∧
      (∀ b, Home area b → recovered area t.disk b = applyUpdates (kept ++ more) (recovered area disk) b) ∧
      (∀ op, Update.of op kept ≠ [] → Update.of op kept = Update.of op s.issued) ∧
      (∀ op, Update.of op (kept ++ more) ≠ [] → Update.of op (kept ++ more) = Update.of op t.issued) ∧
      (s.pc = .ready → s.inOp = ∅ → ∀ b, s.view b = recovered area s.disk b) := by
  obtain ⟨room, stored, j, reached, keeps⟩ := keeps_of_path size valid path
  obtain ⟨j', ⟨more, split⟩, reached', keeps'⟩ := survivors_grow size path' room stored reached keeps
  have journal := Journal.valid_of_reachable reached
  have journal' := Journal.valid_of_reachable reached'
  refine ⟨j.survived, more, fun b home => ?_, fun b home => ?_, fun op found => ?_, fun op found => ?_,
    fun ready idle b => ?_⟩
  · rw [keeps.durable b home, Journal.durable, journal.base_eq]
  · rw [keeps'.durable b home, Journal.durable, journal'.base_eq, split]
  · rw [← keeps.issued]
    exact (journal.atomic op).resolve_right found
  · rw [split] at found ⊢
    rw [← keeps'.issued]
    exact (journal'.atomic op).resolve_right found
  · obtain ⟨seen, whole⟩ := durable_of_idle room stored ready idle b
    exact seen.trans whole.symm

theorem log_durable_interrupted : ∃ s, (machine ⟨2, LOGSIZE⟩).Path (Careful ⟨2, LOGSIZE⟩) (powerOn blank) interrupted s ∧
    ∃ kept more : List (Update ℕ Block),
      (∀ b, Home ⟨2, LOGSIZE⟩ b →
        recovered ⟨2, LOGSIZE⟩ s.disk b = applyUpdates kept (recovered ⟨2, LOGSIZE⟩ blank) b) ∧
      (∀ b, Home ⟨2, LOGSIZE⟩ b →
        recovered ⟨2, LOGSIZE⟩ s.disk b = applyUpdates (kept ++ more) (recovered ⟨2, LOGSIZE⟩ blank) b) ∧
      (∀ op, Update.of op kept ≠ [] → Update.of op kept = Update.of op s.issued) ∧
      (∀ op, Update.of op (kept ++ more) ≠ [] → Update.of op (kept ++ more) = Update.of op s.issued) ∧
      (s.pc = .ready → s.inOp = ∅ → ∀ b, s.view b = recovered ⟨2, LOGSIZE⟩ s.disk b) := by
  obtain ⟨s, path⟩ := interrupted_runs
  exact ⟨s, path, log_durable (Nat.le_refl _) blank_valid path (.nil s)⟩

end Cs537.Fs.Log
