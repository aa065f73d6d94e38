import Cs537.Fs.LogRoom

/-! # The log is crash safe

What recovery would make of the disk is, at every moment of every run, what a journal keeps: the updates of
the calls up to the last commit. It changes at one step only, the write of the header, and there by all
pending updates at once. The step relation of the log is matched with the journal's step by step, through
crashes that interrupt the committer or the recovery from an earlier crash.
-/

namespace Cs537.Fs.Log

open Cs537.Lib

variable {area : LogArea} {s t : St} {a : Action} {b x op : ℕ} {call : Call} {lh : List ℕ} {disk : ℕ → Block}

/-- Clean buffers hold what the disk does, and the dirty ones are those of some blocks. -/
structure Cached (disk : ℕ → Block) (cache : ℕ → Option Buf) (pins : List ℕ) : Prop where
  coherent : ∀ b buf, cache b = some buf → buf.dirty = false → buf.data = disk b
  dirty : ∀ b buf, cache b = some buf → buf.dirty = true → b ∈ pins
  kept : ∀ b ∈ pins, ∃ data, cache b = some ⟨data, true⟩

/-- The blocks that wait for their installation. -/
def pinned (s : St) : List ℕ := match s.pc with
  | .install booting tail => if booting then [] else s.lh.drop tail
  | _ => s.lh

variable {cache : ℕ → Option Buf} {pins pins' : List ℕ} {data : Block}

theorem Cached.write (cached : Cached disk cache pins) (left : ∀ b, b ∈ pins' ↔ b ∈ pins ∧ b ≠ x) :
    Cached (Function.update disk x data) (Function.update cache x (some ⟨data, false⟩)) pins' where
  coherent b buf held clean := by
    rcases eq_or_ne b x with rfl | other
    · rw [Function.update_self] at held ⊢
      cases held
      rfl
    · rw [Function.update_of_ne other] at held ⊢
      exact cached.coherent b buf held clean
  dirty b buf held soiled := by
    rcases eq_or_ne b x with rfl | other
    · rw [Function.update_self] at held
      cases held
      cases soiled
    · rw [Function.update_of_ne other] at held
      exact (left b).mpr ⟨cached.dirty b buf held soiled, other⟩
  kept b member := by
    obtain ⟨old, other⟩ := (left b).mp member
    rw [Function.update_of_ne other]
    exact cached.kept b old

private theorem cached_empty (disk : ℕ → Block) : Cached disk (fun _ => none) [] where
  coherent _ _ held := by cases held
  dirty _ _ held := by cases held
  kept _ member := absurd member List.not_mem_nil

private theorem Cached.soil (cached : Cached disk cache pins) (more : ∀ b, b ∈ pins' ↔ b ∈ pins ∨ b = x) :
    Cached disk (Function.update cache x (some ⟨data, true⟩)) pins' where
  coherent b buf held clean := by
    rcases eq_or_ne b x with rfl | other
    · rw [Function.update_self] at held
      cases held
      cases clean
    · rw [Function.update_of_ne other] at held
      exact cached.coherent b buf held clean
  dirty b buf held soiled := by
    rcases eq_or_ne b x with rfl | other
    · exact (more b).mpr (.inr rfl)
    · rw [Function.update_of_ne other] at held
      exact (more b).mpr (.inl (cached.dirty b buf held soiled))
  kept b member := by
    rcases eq_or_ne b x with rfl | other
    · exact ⟨data, Function.update_self ..⟩
    · rw [Function.update_of_ne other]
      exact cached.kept b (((more b).mp member).resolve_right other)

theorem Cached.load (cached : Cached disk cache pins) (absent : cache x = none) :
    Cached disk (Function.update cache x (some ⟨disk x, false⟩)) pins where
  coherent b buf held clean := by
    rcases eq_or_ne b x with rfl | other
    · rw [Function.update_self] at held
      cases held
      rfl
    · rw [Function.update_of_ne other] at held
      exact cached.coherent b buf held clean
  dirty b buf held soiled := by
    rcases eq_or_ne b x with rfl | other
    · rw [Function.update_self] at held
      cases held
      cases soiled
    · rw [Function.update_of_ne other] at held
      exact cached.dirty b buf held soiled
  kept b member := by
    obtain ⟨data, held⟩ := cached.kept b member
    rcases eq_or_ne b x with rfl | other
    · rw [absent] at held
      cases held
    · rw [Function.update_of_ne other]
      exact ⟨data, held⟩

theorem Cached.drop (cached : Cached disk cache pins) {buf : Buf} (present : cache x = some buf)
    (clean : buf.dirty = false) :
    Cached disk (Function.update cache x none) pins where
  coherent b kept held := by
    rcases eq_or_ne b x with rfl | other
    · rw [Function.update_self] at held
      cases held
    · rw [Function.update_of_ne other] at held
      exact cached.coherent b kept held
  dirty b kept held := by
    rcases eq_or_ne b x with rfl | other
    · rw [Function.update_self] at held
      cases held
    · rw [Function.update_of_ne other] at held
      exact cached.dirty b kept held
  kept b member := by
    obtain ⟨data, held⟩ := cached.kept b member
    rcases eq_or_ne b x with rfl | other
    · rw [present] at held
      cases held
      cases clean
    · rw [Function.update_of_ne other]
      exact ⟨data, held⟩

theorem view_of_unpinned (cached : Cached s.disk s.cache pins) (free : b ∉ pins) : s.view b = s.disk b := by
  rw [St.view]
  cases held : s.cache b with
  | none => rfl
  | some buf =>
    cases soiled : buf.dirty with
    | false => exact cached.coherent b buf held soiled
    | true => exact absurd (cached.dirty b buf held soiled) free

@[simp] theorem view_bread (s : St) (x b : ℕ) : (s.bread x).view b = s.view b := by
  rw [St.bread]
  cases held : s.cache x with
  | some _ => rfl
  | none =>
    rcases eq_or_ne b x with rfl | other
    · simp [St.view, held]
    · simp [St.view, other]

private theorem view_bwrite (s : St) (x b : ℕ) (data : Block) : (s.bwrite x data).view b = if b = x then data else s.view b := by
  rcases eq_or_ne b x with rfl | other
  · simp [St.view, St.bwrite]
  · simp [St.view, St.bwrite, other]

@[simp] theorem disk_bread (s : St) (x : ℕ) : (s.bread x).disk = s.disk := by rw [bread_eq]

@[simp] theorem lh_bread (s : St) (x : ℕ) : (s.bread x).lh = s.lh := by rw [bread_eq]

@[simp] theorem pc_bread (s : St) (x : ℕ) : (s.bread x).pc = s.pc := by rw [bread_eq]

theorem Cached.bread (cached : Cached s.disk s.cache pins) (x : ℕ) : Cached s.disk (s.bread x).cache pins := by
  rw [St.bread]
  cases held : s.cache x with
  | some _ => exact cached
  | none => exact cached.load held

/-- The log's blocks with their homes. -/
def entries (area : LogArea) (lh : List ℕ) (disk : ℕ → Block) : List (ℕ × Block) :=
  lh.zipIdx.map fun entry => (entry.1, disk (area.logstart + entry.2 + 1))

/-- What `recover_from_log` makes of a disk. -/
def recovered (area : LogArea) (disk : ℕ → Block) : ℕ → Block :=
  install (entries area (readHead (disk area.logstart)) disk) disk

theorem recovered_of_empty (empty : readHead (disk area.logstart) = []) : recovered area disk = disk := by
  rw [recovered, empty]
  rfl

@[simp] theorem keys_entries (area : LogArea) (lh : List ℕ) (disk : ℕ → Block) :
    (entries area lh disk).map Prod.fst = lh := by
  rw [entries, List.map_map]
  exact List.zipIdx_map_fst 0 lh

private theorem drop_entries {tail : ℕ} (entry : lh[tail]? = some b) :
    (entries area lh disk).drop tail = (b, disk (area.logstart + tail + 1)) :: (entries area lh disk).drop
    (tail + 1) := by
  obtain ⟨inside, rfl⟩ := List.getElem?_eq_some_iff.mp entry
  rw [List.drop_eq_getElem_cons (by rw [entries, List.length_map, List.length_zipIdx]; exact inside)]
  simp [entries]

/-- A home is no block of the log. -/
theorem Home.ne_log (home : Home area b) {i : ℕ} (inside : i < area.nlog) : b ≠ area.logstart + i := by
  obtain ⟨side, _⟩ := home
  omega

/-- Writing a home leaves the log as it is. -/
private theorem entries_update (home : Home area x) (fits : lh.length < area.nlog) :
    entries area lh (Function.update disk x data) = entries area lh disk := by
  apply List.map_congr_left
  rintro ⟨b, i⟩ member
  have inside := List.snd_lt_of_mem_zipIdx member
  have other := home.ne_log (i := i + 1) (by omega)
  rw [Function.update_of_ne (by omega)]

/-- The first blocks of the log hold what is cached for their homes. -/
def Logged (area : LogArea) (s : St) (count : ℕ) : Prop :=
  ∀ i b, i < count → s.lh[i]? = some b → s.disk (area.logstart + i + 1) = s.view b

/-- How far the committer is, in terms of what the disk holds. -/
def Progress (area : LogArea) (s : St) : Prop := match s.pc with
  | .ready | .committed => readHead (s.disk area.logstart) = []
  | .writeLog tail => readHead (s.disk area.logstart) = [] ∧ Logged area s tail
  | .writeHead => readHead (s.disk area.logstart) = [] ∧ Logged area s s.lh.length
  | .install booting tail => readHead (s.disk area.logstart) = s.lh ∧ (booting = false → Logged area s s.lh.length) ∧
      ∀ b, Home area b → install ((entries area s.lh s.disk).drop tail) s.disk b = recovered area s.disk b
  | .clear _ => ∀ b, Home area b → s.disk b = recovered area s.disk b
  | .boot => True

structure Stored (area : LogArea) (s : St) : Prop where
  cached : Cached s.disk s.cache (pinned s)
  nodup : s.pc.booting = false → s.lh.Nodup
  progress : Progress area s

/-- The log holds what a journal does. -/
structure Keeps (area : LogArea) (s : St) (j : Journal ℕ Block) : Prop where
  durable : ∀ b, Home area b → recovered area s.disk b = j.durable b
  current : s.pc.booting = false → ∀ b, Home area b → s.view b = j.current b
  lost : s.pc.booting = true → j.pending = []
  opened : j.opened = s.inOp
  next : j.next = s.next
  issued : j.issued = s.issued

variable {j : Journal ℕ Block}

/-- A step of the log that the journal does not see. -/
def Stays (area : LogArea) (j : Journal ℕ Block) (t : St) : Prop := Stored area t ∧ Keeps area t j

/-- A step of the log is a step of the journal, or none. -/
def Matched (area : LogArea) (j : Journal ℕ Block) (t : St) : Prop :=
  Stored area t ∧ ∃ j', (j' = j ∨ ∃ a, j.step a = some j') ∧ Keeps area t j'

private theorem Stays.matched (stays : Stays area j t) : Matched area j t := ⟨stays.1, j, .inl rfl, stays.2⟩

theorem Stored.congr (stored : Stored area s) (disk : t.disk = s.disk) (cache : t.cache = s.cache) (lh : t.lh = s.lh)
    (pc : t.pc = s.pc) : Stored area t := by
  cases s
  cases t
  simp only at disk cache lh pc
  subst disk cache lh pc
  exact ⟨stored.cached, stored.nodup, stored.progress⟩

theorem Stored.bread (stored : Stored area s) (x : ℕ) : Stored area (s.bread x) where
  cached := by
    have same : pinned (s.bread x) = pinned s := by simp only [pinned, pc_bread, lh_bread]
    rw [same, disk_bread]
    exact stored.cached.bread x
  nodup live := by
    rw [lh_bread]
    exact stored.nodup (by rwa [pc_bread] at live)
  progress := by
    have progress := stored.progress
    simp only [Progress, Logged, pc_bread, disk_bread, lh_bread, view_bread] at progress ⊢
    exact progress

theorem Keeps.bread (keeps : Keeps area s j) (x : ℕ) : Keeps area (s.bread x) j where
  durable := by
    rw [disk_bread]
    exact keeps.durable
  current live b home := by
    rw [view_bread]
    exact keeps.current (by rwa [pc_bread] at live) b home
  lost booting := keeps.lost (by rwa [pc_bread] at booting)
  opened := by
    rw [bread_eq]
    exact keeps.opened
  next := by
    rw [bread_eq]
    exact keeps.next
  issued := by
    rw [bread_eq]
    exact keeps.issued

private theorem beginOp_matched (stored : Stored area s) (keeps : Keeps area s j) (next : s.beginOp = some t) :
    Matched area j t := by
  obtain ⟨_, done⟩ := Option.ite_none_left_eq_some.mp next
  cases done
  refine ⟨stored.congr rfl rfl rfl rfl, _, .inr ⟨.beginOp, rfl⟩, ?_⟩
  exact
    { durable := keeps.durable
      current := keeps.current
      lost := keeps.lost
      opened := by rw [keeps.opened, keeps.next]
      next := by rw [keeps.next]
      issued := keeps.issued }

private theorem check_matched (stored : Stored area s) (keeps : Keeps area s j) (next : s.check area op call = some t) :
    Matched area j t := by
  obtain ⟨_, done⟩ := Option.ite_none_right_eq_some.mp next
  split_ifs at done
  all_goals
    cases done
    exact ⟨stored.congr rfl rfl rfl rfl, j, .inl rfl, keeps.durable, keeps.current, keeps.lost, keeps.opened,
      keeps.next, keeps.issued⟩

private theorem absorb_nodup (nodup : lh.Nodup) (b : ℕ) : (St.absorb lh b).Nodup := by
  rw [absorb_eq]
  split_ifs with member
  · exact nodup
  · rw [List.nodup_append]
    exact ⟨nodup, List.nodup_singleton b, fun c mem d same => by
      rw [List.mem_singleton.mp same]
      rintro rfl
      exact member mem⟩

private theorem append_matched (room : Room area s) (stored : Stored area s) (keeps : Keeps area s j)
    (next : s.append op = some t) : Matched area j t := by
  obtain ⟨call, held, done⟩ := Option.bind_eq_some_iff.mp next
  cases done
  obtain ⟨member, home, _⟩ := room.calls op call held
  have ready := room.ready member
  have live : s.pc.booting = false := by
    rw [ready]
    rfl
  have empty : readHead (s.disk area.logstart) = [] := by
    have progress := stored.progress
    simpa only [Progress, ready] using progress
  have view : ∀ b, (s.view b) = s.view b := fun _ => rfl
  refine ⟨⟨?_, fun _ => absorb_nodup (stored.nodup live) _, ?_⟩, _,
    .inr ⟨.write ⟨op, call.blockno, call.modify⟩, if_pos (keeps.opened ▸ member)⟩, ?_⟩
  · have cached := stored.cached
    simp only [pinned, ready] at cached ⊢
    exact cached.soil fun b => mem_absorb
  · simp only [Progress, ready]
    exact empty
  · refine
      { durable := keeps.durable
        current := fun _ b at_home => ?_
        lost := fun booting => absurd (live.symm.trans booting) Bool.false_ne_true
        opened := keeps.opened
        next := keeps.next
        issued := by rw [keeps.issued] }
    have here := keeps.current live call.blockno home
    have there := keeps.current live b at_home
    simp only [Journal.current, Journal.durable] at here there ⊢
    rw [applyUpdates_snoc, ← here]
    rcases eq_or_ne b call.blockno with rfl | other
    · simp [St.view]
    · rw [Function.update_of_ne other, ← there]
      simp [St.view, other]

private theorem endOp_matched (room : Room area s) (stored : Stored area s) (keeps : Keeps area s j)
    (next : s.endOp op = some t) : Matched area j t := by
  obtain ⟨⟨member, free⟩, done⟩ := Option.ite_none_right_eq_some.mp next
  have ready := room.ready member
  have live : s.pc.booting = false := by
    rw [ready]
    rfl
  have cached := stored.cached
  have progress := stored.progress
  have current := keeps.current live
  have opened : j.opened.erase op = s.inOp.erase op := by rw [keeps.opened]
  simp only [pinned, Progress, ready] at cached progress
  simp only [room.committing_eq member, Bool.false_eq_true, if_false] at done
  suffices both : Stored area t ∧ Keeps area t { j with opened := j.opened.erase op } from
    ⟨both.1, _, .inr ⟨.endOp op, if_pos (keeps.opened ▸ member)⟩, both.2⟩
  split_ifs at done with last waiting
  · cases done
    exact ⟨⟨cached, fun _ => stored.nodup live, progress, fun i b none => absurd none (Nat.not_lt_zero i)⟩,
      keeps.durable, fun _ => current, (by simp [Pc.booting]), opened, keeps.next, keeps.issued⟩
  · cases done
    exact ⟨⟨cached, fun _ => stored.nodup live, progress⟩,
      keeps.durable, fun _ => current, (by simp [Pc.booting]), opened, keeps.next, keeps.issued⟩
  · cases done
    exact ⟨stored.congr rfl rfl rfl rfl, keeps.durable, fun _ => current, keeps.lost, opened, keeps.next, keeps.issued⟩

private theorem recovered_bwrite_log (empty : readHead (s.disk area.logstart) = []) {i : ℕ} (inside : i + 1 < area.nlog)
    (home : Home area b) : recovered area (s.bwrite (area.logstart + i + 1) data).disk b = recovered area s.disk b := by
  have same : readHead ((s.bwrite (area.logstart + i + 1) data).disk area.logstart) = [] := by
    rw [St.bwrite]
    simp only [Function.update_of_ne (show area.logstart ≠ area.logstart + i + 1 by omega)]
    exact empty
  have other := home.ne_log inside
  rw [recovered_of_empty same, recovered_of_empty empty, St.bwrite]
  simp only [Function.update_of_ne (show b ≠ area.logstart + i + 1 by omega)]

/-- A block goes to the log. -/
private theorem writeLog_stays (room : Room area s) (stored : Stored area s) (keeps : Keeps area s j) {tail : ℕ}
    (at_ : s.pc = .writeLog tail) (entry : s.lh[tail]? = some b) :
    Stays area j { s.bwrite (area.logstart + tail + 1) (s.view b) with pc := .writeLog (tail + 1) } := by
  obtain ⟨inside, found⟩ := List.getElem?_eq_some_iff.mp entry
  have fits := room.small.1
  have cached := stored.cached
  have progress := stored.progress
  have current := keeps.current (by rw [at_]; rfl)
  simp only [pinned, Progress, at_] at cached progress
  have apart : ∀ c ∈ s.lh, c ≠ area.logstart + tail + 1 := fun c member =>
    (room.homes c member).ne_log (i := tail + 1) (by omega)
  have seen : ∀ c ∈ s.lh, (s.bwrite (area.logstart + tail + 1) (s.view b)).view c = s.view c := fun c member => by
    rw [view_bwrite, if_neg (apart c member)]
  refine ⟨⟨?_, fun _ => stored.nodup (by rw [at_]; rfl), ?_, ?_⟩, ?_⟩
  · exact cached.write fun c => ⟨fun member => ⟨member, apart c member⟩, And.left⟩
  · simp only [St.bwrite, Function.update_of_ne (show area.logstart ≠ area.logstart + tail + 1 by omega)]
    exact progress.1
  · intro i c earlier at_i
    have member := List.mem_of_getElem? at_i
    change Function.update s.disk (area.logstart + tail + 1) (s.view b) (area.logstart + i + 1) =
      (s.bwrite (area.logstart + tail + 1) (s.view b)).view c
    rw [seen c member]
    rcases Nat.lt_succ_iff_lt_or_eq.mp earlier with before | rfl
    · rw [Function.update_of_ne (by omega)]
      exact progress.2 i c before at_i
    · rw [Function.update_self]
      change s.lh[i]? = some c at at_i
      rw [entry] at at_i
      cases at_i
      rfl
  · refine
      { durable := fun c home => (recovered_bwrite_log progress.1 (by omega) home).trans (keeps.durable c home)
        current := fun _ c home => ?_
        lost := by simp [Pc.booting]
        opened := keeps.opened
        next := keeps.next
        issued := keeps.issued }
    change (s.bwrite (area.logstart + tail + 1) (s.view b)).view c = _
    have other := home.ne_log (i := tail + 1) (by omega)
    rw [view_bwrite, if_neg (by omega)]
    exact current c home

/-- The header commits: everything pending becomes durable at once. -/
private theorem writeHead_matched (room : Room area s) (stored : Stored area s) (keeps : Keeps area s j)
    (at_ : s.pc = .writeHead) :
    Matched area j
      { s.bwrite area.logstart (writeHead s.lh (s.view area.logstart)) with pc := .install false 0 } := by
  have some_ := Nat.zero_lt_of_lt room.small.1
  have cached := stored.cached
  have progress := stored.progress
  have live : s.pc.booting = false := by
    rw [at_]
    rfl
  have small := room.reserve_of_live live
  have current := keeps.current live
  simp only [LOGSIZE, MAXOPBLOCKS] at small
  simp only [pinned, Progress, at_] at cached progress
  have apart : ∀ c, Home area c → c ≠ area.logstart := fun c home => home.ne_start some_
  -- the new header names the blocks of the log, whose contents are those that readers see
  let written := Function.update s.disk area.logstart (writeHead s.lh (s.view area.logstart))
  have head : readHead (written area.logstart) = s.lh := by
    simp only [written, Function.update_self]
    exact readHead_writeHead _ (fun c member => (room.homes c member).2) (by omega)
  have sound : ∀ entry ∈ entries area s.lh written, entry.2 = s.view entry.1 := by
    intro logEntry member
    obtain ⟨⟨c, i⟩, zipped, rfl⟩ := List.mem_map.mp member
    have inside := List.snd_lt_of_mem_zipIdx zipped
    have entry : s.lh[i]? = some c := List.mk_mem_zipIdx_iff_getElem?.mp zipped
    simp only [written, Function.update_of_ne (show area.logstart + i + 1 ≠ area.logstart by omega)]
    exact progress.2 i c (by omega) entry
  have commits : ∀ c, Home area c → recovered area written c = s.view c := by
    intro c home
    rw [recovered, head]
    apply install_eq sound
    rw [keys_entries]
    intro absent
    simp only [written, Function.update_of_ne (apart c home)]
    exact (view_of_unpinned cached absent).symm
  have viewed : ∀ c, Home area c →
    (s.bwrite area.logstart (writeHead s.lh (s.view area.logstart))).view c = s.view c := by
    intro c home
    rw [view_bwrite, if_neg (apart c home)]
  have quiet : j.opened = ∅ := keeps.opened.trans (room.quiet (by simp [at_]))
  refine ⟨⟨?_, fun _ => stored.nodup live, ?_⟩, _, .inr ⟨.commit, if_pos quiet⟩, ?_⟩
  · simp only [pinned, Bool.false_eq_true, if_false, List.drop_zero]
    exact cached.write fun c => ⟨fun member => ⟨member, apart c (room.homes c member)⟩, And.left⟩
  · refine ⟨head, fun _ i c earlier entry => ?_, fun c home => ?_⟩
    · have member := List.mem_of_getElem? entry
      change written (area.logstart + i + 1) = (s.bwrite area.logstart _).view c
      rw [viewed c (room.homes c member)]
      simp only [written, Function.update_of_ne (show area.logstart + i + 1 ≠ area.logstart by omega)]
      exact progress.2 i c earlier entry
    · change install ((entries area s.lh written).drop 0) written c = recovered area written c
      rw [List.drop_zero, recovered, head]
  · have both : ∀ c, Home area c → s.view c = applyUpdates (j.survived ++ j.pending) j.base c := by
      intro c home
      rw [applyUpdates_append]
      exact current c home
    exact
      { durable := fun c home => (commits c home).trans (both c home)
        current := fun _ c home => (viewed c home).trans (both c home)
        lost := by simp [Pc.booting]
        opened := keeps.opened
        next := keeps.next
        issued := keeps.issued }

/-- A block of the log goes home, in a commit or in a recovery. -/
private theorem install_stays (room : Room area s) (stored : Stored area s) (keeps : Keeps area s j) {booting : Bool} {tail : ℕ}
    (at_ : s.pc = .install booting tail) (entry : s.lh[tail]? = some b) :
    Stays area j
      { s.bwrite b (s.view (area.logstart + tail + 1)) with pc := .install booting (tail + 1) } := by
  obtain ⟨inside, found⟩ := List.getElem?_eq_some_iff.mp entry
  have fits := room.small.1
  have some_ := Nat.zero_lt_of_lt fits
  have home := room.homes b (List.mem_of_getElem? entry)
  have cached := stored.cached
  have progress := stored.progress
  have nodup := stored.nodup
  have current := keeps.current
  simp only [pinned, Progress, at_] at cached progress nodup current
  obtain ⟨head, logged, rest⟩ := progress
  -- blocks of the log are never dirty
  have unpinned : area.logstart + tail + 1 ∉ (if booting then [] else s.lh.drop tail) := by
    split_ifs
    · exact List.not_mem_nil
    · intro member
      exact (room.homes _ (List.mem_of_mem_drop member)).ne_log (i := tail + 1) (by omega) rfl
  have content : s.view (area.logstart + tail + 1) = s.disk (area.logstart + tail + 1) := view_of_unpinned cached unpinned
  rw [content]
  let written := Function.update s.disk b (s.disk (area.logstart + tail + 1))
  have same : readHead (written area.logstart) = s.lh := by
    simp only [written, Function.update_of_ne (home.ne_start some_).symm]
    exact head
  have log : entries area s.lh written = entries area s.lh s.disk := entries_update home fits
  have goal : recovered area written = recovered area s.disk := by
    funext c
    rw [recovered, recovered, same, head, log]
    apply install_congr
    rw [keys_entries]
    intro absent
    apply Function.update_of_ne
    rintro rfl
    exact absent (List.mem_of_getElem? entry)
  have viewed : booting = false → ∀ c, (s.bwrite b (s.disk (area.logstart + tail + 1))).view c = s.view c := by
    intro live c
    rw [view_bwrite]
    split_ifs with here
    · rw [here]
      exact logged live tail b inside entry
    · rfl
  refine ⟨⟨?_, nodup, same, fun live i c earlier at_i => ?_, fun c at_home => ?_⟩, ?_⟩
  · cases booting with
    | true =>
      simp only [pinned, if_true] at cached ⊢
      exact cached.write fun c => by simp
    | false =>
      have split : s.lh.drop tail = b :: s.lh.drop (tail + 1) := by
        rw [List.drop_eq_getElem_cons inside, found]
      have distinct : (b :: s.lh.drop (tail + 1)).Nodup := split ▸ (nodup rfl).sublist (List.drop_sublist _ _)
      simp only [pinned, Bool.false_eq_true, if_false, split] at cached ⊢
      refine cached.write fun c => ⟨fun member => ⟨List.mem_cons_of_mem b member, ?_⟩, fun either => ?_⟩
      · rintro rfl
        exact (List.nodup_cons.mp distinct).1 member
      · exact (List.mem_cons.mp either.1).resolve_left either.2
  · change written (area.logstart + i + 1) = (s.bwrite b _).view c
    change i < s.lh.length at earlier
    have other := home.ne_log (i := i + 1) (by omega)
    rw [viewed live c, show written _ = s.disk _ from Function.update_of_ne (by omega) _ _]
    exact logged live i c earlier at_i
  · change install ((entries area s.lh written).drop (tail + 1)) written c = recovered area written c
    rw [goal, log, ← rest c at_home, drop_entries entry, install_cons]
  · exact
      { durable := fun c at_home => (congrFun goal c).trans (keeps.durable c at_home)
        current := fun live c at_home => (viewed live c).trans (current live c at_home)
        lost := fun boot => keeps.lost (by rw [at_]; exact boot)
        opened := keeps.opened
        next := keeps.next
        issued := keeps.issued }

private theorem clear_stays (room : Room area s) (stored : Stored area s) (keeps : Keeps area s j) {booting : Bool}
    (at_ : s.pc = .clear booting) :
    Stays area j { s.bwrite area.logstart (writeHead s.lh (s.view area.logstart)) with
      pc := if booting then .ready else .committed } := by
  have some_ := Nat.zero_lt_of_lt room.small.1
  have none := room.cleared booting (.inl at_)
  have cached := stored.cached
  have progress := stored.progress
  have current := keeps.current
  have lost := keeps.lost
  simp only [pinned, Progress, at_, none] at cached progress current lost
  let written := Function.update s.disk area.logstart (writeHead s.lh (s.view area.logstart))
  have head : readHead (written area.logstart) = [] := by
    simp only [written, Function.update_self, none]
    exact readHead_writeHead _ (by simp) (by simp)
  have homes : ∀ c, Home area c → recovered area written c = s.disk c := by
    intro c home
    rw [recovered_of_empty head]
    exact Function.update_of_ne (home.ne_start some_) _ _
  have viewed : ∀ c, Home area c →
    (s.bwrite area.logstart (writeHead s.lh (s.view area.logstart))).view c = s.view c := by
    intro c home
    rw [view_bwrite, if_neg (home.ne_start some_)]
  have reads : ∀ c, Home area c → s.view c = j.current c := by
    intro c home
    cases booting with
    | false => exact current rfl c home
    | true =>
      rw [Journal.current, lost rfl, applyUpdates_nil, ← keeps.durable c home, ← progress c home]
      exact view_of_unpinned cached List.not_mem_nil
  refine ⟨⟨?_, fun _ => ?_, ?_⟩, ?_⟩
  · have empty : pinned { s.bwrite area.logstart (writeHead s.lh (s.view area.logstart)) with
        pc := if booting then .ready else .committed } = [] := by
      cases booting <;> exact none
    rw [empty]
    exact cached.write fun c => by simp
  · change s.lh.Nodup
    rw [none]
    exact List.nodup_nil
  · cases booting <;> exact head
  · exact
      { durable := fun c home => (homes c home).trans ((progress c home).trans (keeps.durable c home))
        current := fun _ c home => (viewed c home).trans (reads c home)
        lost := by cases booting <;> simp [Pc.booting]
        opened := keeps.opened
        next := keeps.next
        issued := keeps.issued }

/-- Recovery starts from the header that it finds. -/
private theorem boot_stays (stored : Stored area s) (keeps : Keeps area s j) (cold : s.lh = []) (at_ : s.pc = .boot) :
    Stays area j { s with lh := readHead (s.view area.logstart), pc := .install true 0 } := by
  have cached := stored.cached
  simp only [pinned, at_, cold] at cached
  rw [view_of_unpinned cached List.not_mem_nil]
  refine ⟨⟨cached, by simp [Pc.booting], rfl, by simp, fun _ _ => rfl⟩, ?_⟩
  exact
    { durable := keeps.durable
      current := by simp [Pc.booting]
      lost := fun _ => keeps.lost (by rw [at_]; rfl)
      opened := keeps.opened
      next := keeps.next
      issued := keeps.issued }

/-- Every step of the committer but one leaves the journal alone. -/
theorem tick_stays (room : Room area s) (stored : Stored area s) (keeps : Keeps area s j) (next : s.tick area = some t)
    (before : s.pc ≠ .writeHead) : Stays area j t := by
  rw [St.tick] at next
  cases at_ : s.pc with
  | ready =>
    simp only [at_] at next
    cases next
  | writeLog tail =>
    simp only [at_] at next
    cases entry : s.lh[tail]? with
    | some b =>
      simp only [entry] at next
      cases next
      exact writeLog_stays (room.bread b) (stored.bread b) (keeps.bread b) (by rw [pc_bread, at_])
        (by rw [lh_bread, entry])
    | none =>
      simp only [entry] at next
      cases next
      have cached := stored.cached
      have progress := stored.progress
      have current := keeps.current
      have nodup := stored.nodup
      simp only [pinned, Progress, at_] at cached progress current nodup
      have all : s.lh.length ≤ tail := List.getElem?_eq_none_iff.mp entry
      exact ⟨⟨cached, nodup, progress.1, fun i b inside => progress.2 i b (Nat.lt_of_lt_of_le inside all)⟩,
        keeps.durable, current, by simp [Pc.booting], keeps.opened, keeps.next, keeps.issued⟩
  | writeHead => exact absurd at_ before
  | install booting tail =>
    simp only [at_] at next
    cases entry : s.lh[tail]? with
    | some b =>
      simp only [entry] at next
      cases next
      exact install_stays (room.bread _) (stored.bread _) (keeps.bread _) (by rw [pc_bread, at_])
        (by rw [lh_bread, entry])
    | none =>
      simp only [entry] at next
      cases next
      have all : s.lh.length ≤ tail := List.getElem?_eq_none_iff.mp entry
      have cached := stored.cached
      have progress := stored.progress
      have current := keeps.current
      have lost := keeps.lost
      simp only [pinned, Progress, at_, List.drop_eq_nil_of_le all, ite_self] at cached progress current lost
      refine ⟨⟨cached, fun _ => List.nodup_nil, fun b home => ?_⟩, keeps.durable, current, lost, keeps.opened,
        keeps.next, keeps.issued⟩
      have done := progress.2.2 b home
      rw [List.drop_eq_nil_of_le (by rw [entries, List.length_map, List.length_zipIdx]; exact all)] at done
      exact done
  | clear booting =>
    simp only [at_] at next
    cases next
    exact clear_stays room stored keeps at_
  | committed =>
    simp only [at_] at next
    cases next
    have cached := stored.cached
    have progress := stored.progress
    have current := keeps.current
    have nodup := stored.nodup
    simp only [pinned, Progress, at_] at cached progress current nodup
    exact ⟨⟨cached, nodup, progress⟩, keeps.durable, current, by simp [Pc.booting], keeps.opened, keeps.next,
      keeps.issued⟩
  | boot =>
    simp only [at_] at next
    cases next
    exact boot_stays (stored.bread _) (keeps.bread _) (by rw [lh_bread, room.start at_]) (by rw [pc_bread, at_])

private theorem tick_matched (room : Room area s) (stored : Stored area s) (keeps : Keeps area s j)
    (next : s.tick area = some t) :
    Matched area j t := by
  rcases eq_or_ne s.pc .writeHead with commits | before
  · simp only [St.tick, commits] at next
    cases next
    exact writeHead_matched room stored keeps commits
  · exact (tick_stays room stored keeps next before).matched

private theorem evict_matched (stored : Stored area s) (keeps : Keeps area s j) (next : s.evict b = some t) :
    Matched area j t := by
  obtain ⟨buf, present, rest⟩ := Option.bind_eq_some_iff.mp next
  obtain ⟨guard, done⟩ := Option.ite_none_left_eq_some.mp rest
  cases done
  simp only [not_or, Bool.not_eq_true] at guard
  have viewed : ∀ c, ({ s with cache := Function.update s.cache b none } : St).view c = s.view c := by
    intro c
    rcases eq_or_ne c b with rfl | other
    · simp only [St.view, Function.update_self, present]
      exact (stored.cached.coherent c buf present guard.1).symm
    · simp only [St.view, Function.update_of_ne other]
  refine ⟨⟨stored.cached.drop present guard.1, stored.nodup, ?_⟩, j, .inl rfl, keeps.durable, fun live c home => ?_,
    keeps.lost,
    keeps.opened, keeps.next, keeps.issued⟩
  · have progress := stored.progress
    simp only [Progress, Logged, viewed] at progress ⊢
    exact progress
  · exact (viewed c).trans (keeps.current live c home)

theorem crash_matched (keeps : Keeps area s j) : Matched area j s.crash := by
  refine ⟨⟨cached_empty s.disk, fun _ => List.nodup_nil, trivial⟩, _, .inr ⟨.crash, rfl⟩, ?_⟩
  exact
    { durable := keeps.durable
      current := by simp [St.crash, Pc.booting]
      lost := fun _ => rfl
      opened := rfl
      next := keeps.next
      issued := keeps.issued }

private theorem step_matched (room : Room area s) (stored : Stored area s) (keeps : Keeps area s j)
    (next : step area s a = some t) :
    Matched area j t := by
  rw [step_running room.sane, act.eq_def] at next
  cases a with
  | beginOp => exact beginOp_matched stored keeps next
  | check op call => exact check_matched stored keeps next
  | append op => exact append_matched room stored keeps next
  | endOp op => exact endOp_matched room stored keeps next
  | tick => exact tick_matched room stored keeps next
  | bread b =>
    obtain ⟨_, done⟩ := Option.ite_none_right_eq_some.mp next
    cases done
    exact ⟨stored.bread b, j, .inl rfl, keeps.bread b⟩
  | evict b => exact evict_matched stored keeps next
  | crash =>
    cases next
    exact crash_matched keeps

private theorem powerOn_matched (area : LogArea) (disk : ℕ → Block) :
    Stored area (powerOn disk) ∧ Keeps area (powerOn disk) (Journal.fresh (recovered area disk)) := by
  refine ⟨⟨cached_empty disk, fun _ => List.nodup_nil, trivial⟩, ⟨fun _ _ => rfl, ?_, fun _ => rfl, rfl, rfl, rfl⟩⟩
  simp [powerOn, Pc.booting]

/-- The log, and a journal that is no earlier than another one. -/
def Follows (area : LogArea) (base : ℕ → Block) (j : Journal ℕ Block) (s : St) : Prop :=
  Room area s ∧ Stored area s ∧ ∃ j', j.survived <+: j'.survived ∧ (Journal.machine base).Reachable j' ∧ Keeps area s j'

theorem Follows.step {base : ℕ → Block} (size : LOGSIZE ≤ area.nlog) (careful : Careful area s a)
    (next : (machine area).step s a = some t)
    (follows : Follows area base j s) : Follows area base j t := by
  obtain ⟨room, stored, k, grown, reached, keeps⟩ := follows
  obtain ⟨kept, k', same | ⟨act, move⟩, matched⟩ := step_matched room stored keeps next
  · exact ⟨room.step size careful next, kept, k, grown, reached, same ▸ matched⟩
  · exact ⟨room.step size careful next, kept, k', grown.trans (Journal.survived_grows move),
      reached.step trivial move, matched⟩

/-- Every run of the log from a disk is a run of the journal over what recovery makes of that disk. -/
theorem keeps_of_path (size : LOGSIZE ≤ area.nlog) (valid : ValidHead area (readHead (disk area.logstart)))
    {acts : List Action}
    (path : (machine area).Path (Careful area) (powerOn disk) acts t) :
    Room area t ∧ Stored area t ∧ ∃ j, (Journal.machine (recovered area disk)).Reachable j ∧ Keeps area t j := by
  obtain ⟨stored, keeps⟩ := powerOn_matched area disk
  have start : Follows area (recovered area disk) (Journal.fresh (recovered area disk)) (powerOn disk) :=
    ⟨room_powerOn valid, stored, _, List.prefix_refl _, .initial rfl, keeps⟩
  obtain ⟨room, stored', j, _, reached, keeps'⟩ := path.preserves (fun _ _ _ => Follows.step size) start
  exact ⟨room, stored', j, reached, keeps'⟩

/-- Whatever calls ran, in whatever interleaving, and whenever the power failed, also in the middle of a
commit or of a recovery: the disk that recovery yields is the first one with some of the issued updates
made, in their order and those of each call all or not at all. While the kernel runs, a reader sees these
and the updates not yet committed. -/
theorem log_crash_safe (size : LOGSIZE ≤ area.nlog) (valid : ValidHead area (readHead (disk area.logstart)))
    {acts : List Action} (path : (machine area).Path (Careful area) (powerOn disk) acts t) :
    ∃ survived pending : List (Update ℕ Block), (survived ++ pending).Sublist t.issued ∧
      (∀ op, Update.of op survived = Update.of op t.issued ∨ Update.of op survived = []) ∧
      (∀ b, Home area b → recovered area t.disk b = applyUpdates survived (recovered area disk) b) ∧
      (t.pc.booting = false → ∀ b, Home area b →
        t.view b = applyUpdates (survived ++ pending) (recovered area disk) b) := by
  obtain ⟨_, _, j, reached, keeps⟩ := keeps_of_path size valid path
  have journal := Journal.valid_of_reachable reached
  refine ⟨j.survived, j.pending, ?_, fun op => ?_, fun b home => ?_, fun live b home => ?_⟩
  · rw [← keeps.issued]
    exact journal.order
  · rw [← keeps.issued]
    exact journal.atomic op
  · rw [keeps.durable b home, Journal.durable, journal.base_eq]
  · rw [keeps.current live b home, Journal.current, Journal.durable, journal.base_eq, applyUpdates_append]

theorem log_crash_safe_interrupted :
    ∃ t, (machine ⟨2, LOGSIZE⟩).Path (Careful ⟨2, LOGSIZE⟩) (powerOn blank) interrupted t ∧
    ∃ survived pending : List (Update ℕ Block), (survived ++ pending).Sublist t.issued ∧
      (∀ op, Update.of op survived = Update.of op t.issued ∨ Update.of op survived = []) ∧
      (∀ b, Home ⟨2, LOGSIZE⟩ b →
        recovered ⟨2, LOGSIZE⟩ t.disk b = applyUpdates survived (recovered ⟨2, LOGSIZE⟩ blank) b) ∧
      (t.pc.booting = false → ∀ b, Home ⟨2, LOGSIZE⟩ b →
        t.view b = applyUpdates (survived ++ pending) (recovered ⟨2, LOGSIZE⟩ blank) b) := by
  obtain ⟨t, path⟩ := interrupted_runs
  exact ⟨t, path, log_crash_safe (Nat.le_refl _) blank_valid path⟩

end Cs537.Fs.Log
