import Cs537.Fs.Log
import Mathlib.Algebra.Order.BigOperators.Group.Finset
import Mathlib.Tactic.Linarith

/-! # The log never fills

`begin_op` reserves `MAXOPBLOCKS` blocks for each call, of a log of `LOGSIZE`, while `log_write` gives up
when the log has one block less than the log area, which `mkfs` makes `LOGSIZE` blocks with its header.
Calls that write at most `MAXOPBLOCKS - 1` different blocks keep clear of that, in every interleaving: what
is in the log and what the open calls may still add never exceeds `LOGSIZE - 2`.
-/

namespace Cs537.Fs.Log

open Cs537.Lib

variable {area : LogArea} {s t : St} {a : Action} {b op : ℕ} {call : Call}

/-- The blocks that a call may still add. -/
def allowance (s : St) (op : ℕ) : ℕ := MAXOPBLOCKS - 1 - (s.wrote op).card

/-- The books of the log. -/
structure Room (area : LogArea) (s : St) : Prop where
  sane : s.panicked = none
  count : s.outstanding = s.inOp.card
  quiet : s.pc ≠ .ready → s.inOp = ∅
  unlocked : s.pc = .ready ∨ s.pc.booting = true → s.committing = false
  busy : s.pc.booting = false → s.pc ≠ .ready → s.committing = true
  idle : s.pc = .ready → s.inOp = ∅ → s.lh = []
  cleared : ∀ booting, s.pc = .clear booting ∨ s.pc = .committed → s.lh = []
  small : s.lh.length < area.nlog ∧ s.lh.length ≤ LOGSIZE
  reserve : s.pc.booting = false → s.lh.length + ∑ op ∈ s.inOp, allowance s op + 2 ≤ LOGSIZE
  few : ∀ op ∈ s.inOp, (s.wrote op).card < MAXOPBLOCKS
  covered : ∀ op ∈ s.inOp, ∀ b ∈ s.wrote op, b ∈ s.lh
  homes : ∀ b ∈ s.lh, Home area b
  calls : ∀ op call, s.checked op = some call →
    op ∈ s.inOp ∧ Home area call.blockno ∧ (insert call.blockno (s.wrote op)).card < MAXOPBLOCKS
  fresh : ∀ op, s.next ≤ op → op ∉ s.inOp ∧ s.wrote op = ∅
  head : ValidHead area (readHead (s.disk area.logstart))
  -- before recovery has read the header, memory knows of no transaction
  start : s.pc = .boot → s.lh = []
  cold : s.pc = .boot → ∀ b buf, s.cache b = some buf → buf.data = s.disk b

theorem Room.ready (room : Room area s) (member : op ∈ s.inOp) : s.pc = .ready := by
  by_contra busy
  have empty := room.quiet busy
  rw [empty] at member
  exact Finset.notMem_empty op member

theorem Room.committing_eq (room : Room area s) (member : op ∈ s.inOp) : s.committing = false :=
  room.unlocked (.inl (room.ready member))

private theorem Room.reserved (room : Room area s) (member : op ∈ s.inOp) :
    s.lh.length + allowance s op + ∑ k ∈ s.inOp.erase op, allowance s k + 2 ≤ LOGSIZE := by
  have reserve := room.reserve (by rw [room.ready member]; rfl)
  rw [← Finset.add_sum_erase s.inOp (allowance s) member] at reserve
  omega

/-- Reading a block changes the cache alone. -/
theorem bread_eq (s : St) (b : ℕ) : s.bread b = { s with cache := (s.bread b).cache } := by
  rw [St.bread]
  cases s.cache b <;> rfl

theorem room_powerOn {disk : ℕ → Block} (valid : ValidHead area (readHead (disk area.logstart))) :
    Room area (powerOn disk) where
  sane := rfl
  count := rfl
  quiet _ := rfl
  unlocked _ := rfl
  busy booting := Bool.noConfusion booting
  idle _ _ := rfl
  cleared _ _ := rfl
  small := ⟨Nat.zero_lt_of_lt valid.fits, Nat.zero_le _⟩
  reserve booting := Bool.noConfusion booting
  few _ _ := by simp [powerOn, MAXOPBLOCKS]
  covered _ _ _ member := absurd member (Finset.notMem_empty _)
  homes _ member := absurd member List.not_mem_nil
  calls _ _ held := by cases held
  fresh _ _ := ⟨Finset.notMem_empty _, rfl⟩
  head := valid
  start _ := rfl
  cold _ _ _ held := by cases held

/-- Steps that only read blocks or forget them. -/
theorem Room.cache (room : Room area s) {cache : ℕ → Option Buf}
    (cold : s.pc = .boot → ∀ b buf, cache b = some buf → buf.data = s.disk b) :
    Room area { s with cache := cache } where
  sane := room.sane
  count := room.count
  quiet := room.quiet
  unlocked := room.unlocked
  busy := room.busy
  idle := room.idle
  cleared := room.cleared
  small := room.small
  reserve := room.reserve
  few := room.few
  covered := room.covered
  homes := room.homes
  calls := room.calls
  fresh := room.fresh
  head := room.head
  start := room.start
  cold := cold

/-- Steps of the committer, which runs while no call is open. -/
theorem Room.advance (room : Room area s) (busy : s.pc ≠ .ready) {disk : ℕ → Block} {cache : ℕ → Option Buf}
    {lh : List ℕ} {pc : Pc} {committing : Bool} (running : pc ≠ .boot)
    (unlocked : pc = .ready ∨ pc.booting = true → committing = false) (idle : pc = .ready → lh = [])
    (locked : pc.booting = false → pc ≠ .ready → committing = true)
    (cleared : ∀ booting, pc = .clear booting ∨ pc = .committed → lh = [])
    (small : lh.length < area.nlog ∧ lh.length ≤ LOGSIZE)
    (reserve : pc.booting = false → lh.length + 2 ≤ LOGSIZE) (homes : ∀ b ∈ lh, Home area b)
    (head : ValidHead area (readHead (disk area.logstart))) :
    Room area { s with disk := disk, cache := cache, lh := lh, pc := pc, committing := committing } where
  sane := room.sane
  count := room.count
  quiet _ := room.quiet busy
  unlocked := unlocked
  busy := locked
  idle done _ := idle done
  cleared := cleared
  small := small
  reserve live := by
    change _ + ∑ op ∈ s.inOp, _ + 2 ≤ _
    rw [room.quiet busy, Finset.sum_empty]
    exact reserve live
  few := room.few
  covered op member := by
    change op ∈ s.inOp at member
    rw [room.quiet busy] at member
    exact absurd member (Finset.notMem_empty op)
  homes := homes
  calls := room.calls
  fresh := room.fresh
  head := head
  start booting := absurd booting running
  cold booting := absurd booting running

theorem Room.bread (room : Room area s) (b : ℕ) : Room area (s.bread b) := by
  rw [bread_eq]
  apply room.cache
  intro booting c buf held
  rw [St.bread] at held
  cases cached : s.cache b with
  | some _ =>
    simp only [cached] at held
    exact room.cold booting c buf held
  | none =>
    simp only [cached] at held
    rcases eq_or_ne c b with rfl | other
    · rw [Function.update_self] at held
      cases held
      rfl
    · rw [Function.update_of_ne other] at held
      exact room.cold booting c buf held

theorem Room.evict (room : Room area s) (next : s.evict b = some t) : Room area t := by
  obtain ⟨buf, _, rest⟩ := Option.bind_eq_some_iff.mp next
  obtain ⟨_, done⟩ := Option.ite_none_left_eq_some.mp rest
  cases done
  apply room.cache
  intro booting c kept held
  rcases eq_or_ne c b with rfl | other
  · rw [Function.update_self] at held
    cases held
  · rw [Function.update_of_ne other] at held
    exact room.cold booting c kept held

theorem Room.beginOp (room : Room area s) (next : s.beginOp = some t) : Room area t := by
  obtain ⟨guard, done⟩ := Option.ite_none_left_eq_some.mp next
  cases done
  simp only [not_or, Bool.not_eq_true] at guard
  obtain ⟨live, unlocked, space⟩ := guard
  obtain ⟨absent, unwritten⟩ := room.fresh s.next (Nat.le_refl _)
  have ready : s.pc = .ready := by
    by_contra working
    rw [room.busy live working] at unlocked
    cases unlocked
  have others : ∀ op ∈ insert s.next s.inOp, op = s.next ∨ op ∈ s.inOp := fun op => Finset.mem_insert.mp
  refine
    { sane := room.sane
      count := ?count
      quiet := fun busy => absurd ready busy
      unlocked := fun _ => unlocked
      busy := room.busy
      idle := fun _ empty => absurd empty (Finset.insert_ne_empty _ _)
      cleared := room.cleared
      small := room.small
      reserve := ?reserve
      few := ?few
      covered := ?covered
      homes := room.homes
      calls := ?calls
      fresh := ?fresh
      head := room.head
      start := room.start
      cold := room.cold }
  case count =>
    change s.outstanding + 1 = ((insert s.next s.inOp).card : ℤ)
    rw [Finset.card_insert_of_notMem absent, room.count]
    rfl
  case reserve =>
    intro _
    change s.lh.length + ∑ op ∈ insert s.next s.inOp, allowance s op + 2 ≤ LOGSIZE
    have mine : allowance s s.next = MAXOPBLOCKS - 1 := by rw [allowance, unwritten, Finset.card_empty, Nat.sub_zero]
    have bound : ∑ op ∈ s.inOp, allowance s op ≤ s.inOp.card * (MAXOPBLOCKS - 1) :=
      Finset.sum_le_card_nsmul _ _ _ fun op _ => Nat.sub_le _ _
    rw [Finset.sum_insert absent, mine]
    rw [room.count] at space
    simp only [MAXOPBLOCKS, LOGSIZE] at bound space ⊢
    -- the first call finds the log empty, a second one at most ten blocks in it, a third one none
    rcases Finset.eq_empty_or_nonempty s.inOp with empty | some
    · rw [room.idle ready empty, empty]
      simp
    · have positive := Finset.card_pos.mpr some
      omega
  case few =>
    intro op member
    rcases others op member with rfl | old
    · simp [unwritten, MAXOPBLOCKS]
    · exact room.few op old
  case covered =>
    intro op member c wrote
    rcases others op member with rfl | old
    · change c ∈ s.wrote s.next at wrote
      rw [unwritten] at wrote
      exact absurd wrote (Finset.notMem_empty c)
    · exact room.covered op old c wrote
  case calls =>
    intro op call held
    obtain ⟨member, rest⟩ := room.calls op call held
    exact ⟨Finset.mem_insert_of_mem member, rest⟩
  case fresh =>
    intro op later
    obtain ⟨closed, clear⟩ := room.fresh op (by change s.next + 1 ≤ op at later; omega)
    refine ⟨?_, clear⟩
    simp only [Finset.mem_insert, not_or]
    exact ⟨by change s.next + 1 ≤ op at later; omega, closed⟩

theorem Room.check (room : Room area s) (size : LOGSIZE ≤ area.nlog) (careful : Careful area s (.check op call))
    (next : s.check area op call = some t) : Room area t := by
  obtain ⟨⟨member, free, _⟩, done⟩ := Option.ite_none_right_eq_some.mp next
  have reserve := room.reserved member
  have outstanding : 1 ≤ s.outstanding := by
    rw [room.count]
    exact_mod_cast Finset.card_pos.mpr ⟨op, member⟩
  rw [if_neg (by omega), if_neg (by omega)] at done
  cases done
  exact
    { room with
      calls := by
        intro k other held
        rcases eq_or_ne k op with rfl | different
        · change Function.update s.checked k (some call) k = some other at held
          rw [Function.update_self] at held
          cases held
          exact ⟨member, careful⟩
        · change Function.update s.checked op (some call) k = some other at held
          rw [Function.update_of_ne different] at held
          exact room.calls k other held }

private theorem absorb_length (lh : List ℕ) (b : ℕ) : lh.length ≤ (St.absorb lh b).length ∧
    (St.absorb lh b).length ≤ lh.length + 1 := by
  rw [absorb_eq]
  split <;> simp

theorem mem_absorb {lh : List ℕ} {c : ℕ} : c ∈ St.absorb lh b ↔ c ∈ lh ∨ c = b := by
  rw [absorb_eq]
  split_ifs with member
  · exact ⟨.inl, fun either => either.elim id fun same => same ▸ member⟩
  · simp

/-- A block that is new in the log is new for its call, and uses up a part of its allowance. -/
private theorem absorb_allowance (room : Room area s) (member : op ∈ s.inOp) (few : (insert b (s.wrote op)).card < MAXOPBLOCKS) :
    (St.absorb s.lh b).length + (MAXOPBLOCKS - 1 - (insert b (s.wrote op)).card) ≤ s.lh.length + allowance s op := by
  rw [absorb_eq, allowance]
  split_ifs with present
  · have more := Finset.card_le_card (Finset.subset_insert b (s.wrote op))
    omega
  · have new : b ∉ s.wrote op := fun wrote => present (room.covered op member b wrote)
    rw [Finset.card_insert_of_notMem new] at few ⊢
    rw [List.length_append, List.length_singleton]
    omega

theorem Room.append (room : Room area s) (size : LOGSIZE ≤ area.nlog) (next : s.append op = some t) : Room area t := by
  obtain ⟨call, held, done⟩ := Option.bind_eq_some_iff.mp next
  cases done
  obtain ⟨member, home, few⟩ := room.calls op call held
  have ready := room.ready member
  have spare := absorb_allowance room member few
  have reserved := room.reserved member
  have others : ∑ k ∈ s.inOp.erase op, (MAXOPBLOCKS - 1 -
      (Function.update s.wrote op (insert call.blockno (s.wrote op)) k).card) = ∑ k ∈ s.inOp.erase op, allowance s k := by
    apply Finset.sum_congr rfl
    intro k other
    rw [Function.update_of_ne (Finset.ne_of_mem_erase other), allowance]
  refine
    { sane := room.sane
      count := room.count
      quiet := room.quiet
      unlocked := room.unlocked
      busy := room.busy
      idle := fun _ empty => absurd member (by
        change s.inOp = ∅ at empty
        rw [empty]
        exact Finset.notMem_empty op)
      cleared := ?cleared
      small := ?small
      reserve := ?reserve
      few := ?few
      covered := ?covered
      homes := ?homes
      calls := ?calls
      fresh := ?fresh
      head := room.head
      start := fun booting => absurd (ready.symm.trans booting) (by simp)
      cold := fun booting => absurd (ready.symm.trans booting) (by simp) }
  case cleared =>
    rintro booting (busy | busy) <;> exact absurd (ready.symm.trans busy) (by simp)
  case small =>
    have := (absorb_length s.lh call.blockno).2
    change (St.absorb s.lh call.blockno).length < _ ∧ (St.absorb s.lh call.blockno).length ≤ _
    omega
  case reserve =>
    intro _
    change (St.absorb s.lh call.blockno).length + ∑ k ∈ s.inOp, (MAXOPBLOCKS - 1 -
      (Function.update s.wrote op (insert call.blockno (s.wrote op)) k).card) + 2 ≤ LOGSIZE
    rw [← Finset.add_sum_erase s.inOp _ member, Function.update_self, others]
    omega
  case few =>
    intro k mem
    change (Function.update s.wrote op _ k).card < _
    rcases eq_or_ne k op with rfl | other
    · rw [Function.update_self]
      exact few
    · rw [Function.update_of_ne other]
      exact room.few k mem
  case covered =>
    intro k mem c wrote
    apply mem_absorb.mpr
    change c ∈ Function.update s.wrote op _ k at wrote
    rcases eq_or_ne k op with rfl | other
    · rw [Function.update_self, Finset.mem_insert] at wrote
      exact wrote.elim .inr fun old => .inl (room.covered k mem c old)
    · rw [Function.update_of_ne other] at wrote
      exact .inl (room.covered k mem c wrote)
  case homes =>
    intro c mem
    rcases mem_absorb.mp mem with old | rfl
    · exact room.homes c old
    · exact home
  case calls =>
    intro k other checked
    change Function.update s.checked op none k = some other at checked
    rcases eq_or_ne k op with rfl | different
    · rw [Function.update_self] at checked
      cases checked
    · rw [Function.update_of_ne different] at checked
      change _ ∧ _ ∧ (insert _ (Function.update s.wrote op _ k)).card < _
      rw [Function.update_of_ne different]
      exact room.calls k other checked
  case fresh =>
    intro k later
    obtain ⟨closed, clear⟩ := room.fresh k later
    refine ⟨closed, ?_⟩
    change Function.update s.wrote op _ k = ∅
    rw [Function.update_of_ne (show k ≠ op by
      rintro rfl
      exact closed member)]
    exact clear

/-- A call that ends gives its reservation back. -/
theorem Room.close (room : Room area s) (member : op ∈ s.inOp) (free : s.checked op = none) {p : Pc} {c : Bool}
    (live : p.booting = false) (open_ : p = .ready → c = false ∧ s.inOp.erase op ≠ ∅)
    (last : p ≠ .ready → c = true ∧ s.inOp.erase op = ∅) (full : p = .committed → s.lh = [])
    (running : ∀ booting, p ≠ .clear booting) :
    Room area { s with
      outstanding := s.outstanding - 1, inOp := s.inOp.erase op, committing := c, pc := p } where
  sane := room.sane
  count := by
    change s.outstanding - 1 = ((s.inOp.erase op).card : ℤ)
    rw [room.count, ← Finset.card_erase_add_one member, Nat.cast_add, Nat.cast_one, add_sub_cancel_right]
  quiet busy := (last busy).2
  unlocked ready := (open_ (ready.resolve_right (by rw [live]; exact Bool.false_ne_true))).1
  busy _ busy := (last busy).1
  idle ready empty := absurd empty (open_ ready).2
  cleared booting done := done.elim (fun clear => absurd clear (running booting)) full
  small := room.small
  reserve _ := by
    have reserved := room.reserved member
    change s.lh.length + ∑ k ∈ s.inOp.erase op, allowance s k + 2 ≤ LOGSIZE
    omega
  few k mem := room.few k (Finset.mem_of_mem_erase mem)
  covered k mem := room.covered k (Finset.mem_of_mem_erase mem)
  homes := room.homes
  calls k call held := by
    obtain ⟨mem, rest⟩ := room.calls k call held
    refine ⟨Finset.mem_erase.mpr ⟨?_, mem⟩, rest⟩
    rintro rfl
    change s.checked k = some call at held
    rw [free] at held
    cases held
  fresh k later := ⟨fun mem => (room.fresh k later).1 (Finset.mem_of_mem_erase mem), (room.fresh k later).2⟩
  head := room.head
  start boot := absurd (live.symm.trans (congrArg Pc.booting boot)) Bool.false_ne_true
  cold boot := absurd (live.symm.trans (congrArg Pc.booting boot)) Bool.false_ne_true

theorem Room.endOp (room : Room area s) (next : s.endOp op = some t) : Room area t := by
  obtain ⟨⟨member, free⟩, done⟩ := Option.ite_none_right_eq_some.mp next
  have ready := room.ready member
  have unlocked := room.committing_eq member
  have left : (s.inOp.erase op).card + 1 = s.inOp.card := Finset.card_erase_add_one member
  have count : s.outstanding - 1 = ((s.inOp.erase op).card : ℤ) := by
    rw [room.count]
    omega
  simp only [unlocked, Bool.false_eq_true, if_false, count, Nat.cast_eq_zero, Finset.card_eq_zero] at done
  split_ifs at done with last waiting
  · -- the last call starts the commit
    cases done
    have closed := room.close member free (p := .writeLog 0) (c := true) rfl (fun r => by cases r)
      (fun _ => ⟨rfl, last⟩) (fun r => by cases r) (fun _ r => by cases r)
    rw [count] at closed
    exact closed
  · cases done
    have empty : s.lh = [] := List.length_eq_zero_iff.mp (by omega)
    have closed := room.close member free (p := .committed) (c := true) rfl (fun r => by cases r)
      (fun _ => ⟨rfl, last⟩) (fun _ => empty) (fun _ r => by cases r)
    rw [count] at closed
    exact closed
  · cases done
    have closed := room.close member free (p := .ready) (c := false) rfl (fun _ => ⟨rfl, last⟩)
      (fun r => absurd rfl r) (fun r => by cases r) (fun _ r => by cases r)
    rw [count, ← ready] at closed
    exact closed

theorem Room.crash (room : Room area s) : Room area s.crash where
  sane := rfl
  count := rfl
  quiet _ := rfl
  unlocked _ := rfl
  busy booting := Bool.noConfusion booting
  idle _ _ := rfl
  cleared _ _ := rfl
  small := ⟨Nat.zero_lt_of_lt room.small.1, Nat.zero_le _⟩
  reserve booting := Bool.noConfusion booting
  few _ member := absurd member (Finset.notMem_empty _)
  covered _ member := absurd member (Finset.notMem_empty _)
  homes _ member := absurd member List.not_mem_nil
  calls _ _ held := by cases held
  fresh op later := ⟨Finset.notMem_empty op, (room.fresh op later).2⟩
  head := room.head
  start _ := rfl
  cold _ _ _ held := by cases held

private theorem view_of_cold (cold : ∀ b buf, s.cache b = some buf → buf.data = s.disk b) (b : ℕ) : s.view b = s.disk b := by
  rw [St.view]
  cases cached : s.cache b with
  | none => rfl
  | some buf => exact cold b buf cached

/-- Transfers to blocks other than the header's leave the header on the disk as it is. -/
theorem head_update {x : ℕ} {data : Block} (head : ValidHead area (readHead (s.disk area.logstart)))
    (other : x ≠ area.logstart) : ValidHead area (readHead ((s.bwrite x data).disk area.logstart)) := by
  rw [St.bwrite]
  simp only [Function.update_of_ne (Ne.symm other)]
  exact head

private theorem Room.head_write (room : Room area s) (live : s.lh.length + 2 ≤ LOGSIZE) (m : Block) :
    ValidHead area (readHead ((s.bwrite area.logstart (writeHead s.lh m)).disk area.logstart)) := by
  rw [St.bwrite]
  simp only [Function.update_self]
  rw [readHead_writeHead m (fun b member => (room.homes b member).2) (by simp only [LOGSIZE, MAXOPBLOCKS] at live; omega)]
  exact ⟨room.small.1, room.small.2, room.homes⟩

theorem Home.ne_start (home : Home area b) (some_ : 0 < area.nlog) : b ≠ area.logstart := by
  obtain ⟨side, _⟩ := home
  omega

theorem Room.reserve_of_live (room : Room area s) (live : s.pc.booting = false) : s.lh.length + 2 ≤ LOGSIZE := by
  have reserve := room.reserve live
  omega

theorem Room.tick (room : Room area s) (next : s.tick area = some t) : Room area t := by
  have locked := room.busy
  have unlocked := room.unlocked
  have live := room.reserve_of_live
  have cleared := room.cleared
  rw [St.tick] at next
  have empty : ([] : List ℕ).length < area.nlog ∧ ([] : List ℕ).length ≤ LOGSIZE :=
    ⟨Nat.zero_lt_of_lt room.small.1, Nat.zero_le _⟩
  cases at_ : s.pc with
  | ready =>
    simp only [at_] at next
    cases next
  | writeLog tail =>
    simp only [at_] at next locked live
    have busy : s.pc ≠ .ready := by simp [at_]
    cases entry : s.lh[tail]? with
    | some b =>
      simp only [entry] at next
      cases next
      rw [bread_eq]
      exact room.advance busy (by simp) (by simp [Pc.booting]) (by simp) (fun _ _ => locked rfl (by simp)) (by simp)
        room.small (fun _ => live rfl) room.homes (head_update room.head (by omega))
    | none =>
      simp only [entry] at next
      cases next
      exact room.advance busy (by simp) (by simp [Pc.booting]) (by simp) (fun _ _ => locked rfl (by simp)) (by simp)
        room.small (fun _ => live rfl) room.homes room.head
  | writeHead =>
    simp only [at_] at next locked live
    have busy : s.pc ≠ .ready := by simp [at_]
    cases next
    exact room.advance busy (by simp) (by simp [Pc.booting]) (by simp) (fun _ _ => locked rfl (by simp)) (by simp)
      room.small (fun _ => live rfl) room.homes (room.head_write (live rfl) _)
  | install booting tail =>
    simp only [at_] at next locked live unlocked
    have busy : s.pc ≠ .ready := by simp [at_]
    cases entry : s.lh[tail]? with
    | some b =>
      simp only [entry] at next
      cases next
      rw [bread_eq]
      exact room.advance busy (by simp) (fun h => unlocked (h.imp (by simp) id)) (by simp)
        (fun h _ => locked h (by simp)) (by simp) room.small live room.homes
        (head_update room.head ((room.homes b (List.mem_of_getElem? entry)).ne_start (Nat.zero_lt_of_lt room.small.1)))
    | none =>
      simp only [entry] at next
      cases next
      exact room.advance busy (by simp) (fun h => unlocked (h.imp (by simp) id)) (by simp)
        (fun h _ => locked h (by simp)) (fun _ _ => rfl) empty (fun _ => by simp [LOGSIZE, MAXOPBLOCKS]) (by simp)
        room.head
  | clear booting =>
    have none := cleared booting (.inl at_)
    simp only [at_] at next locked unlocked
    have busy : s.pc ≠ .ready := by simp [at_]
    cases next
    have small : s.lh.length + 2 ≤ LOGSIZE := by
      rw [none]
      simp [LOGSIZE, MAXOPBLOCKS]
    cases booting with
    | true =>
      exact room.advance busy (by simp) (fun _ => unlocked (.inr rfl)) (fun _ => none) (fun _ h => absurd rfl h)
        (fun _ _ => none) room.small (fun _ => small) room.homes (room.head_write small _)
    | false =>
      exact room.advance busy (by simp) (fun h => by simp [Pc.booting] at h) (fun _ => none)
        (fun _ _ => locked rfl (by simp)) (fun _ _ => none) room.small (fun _ => small) room.homes
          (room.head_write small _)
  | committed =>
    have none := cleared false (.inr at_)
    simp only [at_] at next
    have busy : s.pc ≠ .ready := by simp [at_]
    cases next
    exact room.advance busy (by simp) (fun _ => rfl) (fun _ => none) (by simp) (by simp) room.small
      (fun _ => by rw [none]; simp [LOGSIZE, MAXOPBLOCKS]) room.homes room.head
  | boot =>
    have valid := room.head
    have seen := view_of_cold (room.cold at_)
    simp only [at_] at next locked unlocked
    have busy : s.pc ≠ .ready := by simp [at_]
    cases next
    have same : (s.bread area.logstart).view area.logstart = s.disk area.logstart := by
      rw [view_of_cold ((room.bread area.logstart).cold (by rw [bread_eq]; exact at_)), bread_eq]
    rw [same, bread_eq]
    exact room.advance busy (by simp) (fun _ => unlocked (.inr rfl)) (by simp) (by simp [Pc.booting]) (by simp)
      ⟨valid.fits, valid.small⟩ (by simp [Pc.booting]) valid.homes valid

/-- A step of a kernel that has not panicked. -/
theorem step_running (running : s.panicked = none) : step area s a = act area s a := by
  simp only [step, running]

theorem Room.step (size : LOGSIZE ≤ area.nlog) (careful : Careful area s a) (next : step area s a = some t)
    (room : Room area s) : Room area t := by
  rw [step_running room.sane, act.eq_def] at next
  cases a with
  | beginOp => exact room.beginOp next
  | check op call => exact room.check size careful next
  | append op => exact room.append size next
  | endOp op => exact room.endOp next
  | tick => exact room.tick next
  | bread b =>
    obtain ⟨_, done⟩ := Option.ite_none_right_eq_some.mp next
    cases done
    exact room.bread b
  | evict b => exact room.evict next
  | crash =>
    cases next
    exact room.crash

private theorem room_of_reachable (size : LOGSIZE ≤ area.nlog) (reached : (machine area).ReachableBy (Careful area) s) :
    Room area s := by
  apply reached.invariant
  · rintro _ ⟨disk, valid, rfl⟩
    exact room_powerOn valid
  · intro s a t careful next room
    exact room.step size careful next

/-- Calls that write fewer than `MAXOPBLOCKS` different blocks never make the kernel give up, whatever else
runs and whenever the power fails: the log keeps two of its `LOGSIZE` places free, and it is committed only
when no call is open. -/
theorem log_never_fills (size : LOGSIZE ≤ area.nlog) (reached : (machine area).ReachableBy (Careful area) s) :
    s.panicked = none ∧ (s.pc.booting = false → s.lh.length + 2 ≤ LOGSIZE) ∧ s.outstanding = s.inOp.card ∧
      (s.pc ≠ .ready → s.inOp = ∅) := by
  have room := room_of_reachable size reached
  exact ⟨room.sane, room.reserve_of_live, room.count, room.quiet⟩

/-- An empty disk. -/
def blank : ℕ → Block := fun _ _ => 0

theorem blank_valid : ValidHead ⟨2, LOGSIZE⟩ (readHead (blank 2)) :=
  ⟨by decide +kernel, by decide +kernel, by decide +kernel⟩

/-- Two overlapping calls, and a power failure when the first of their blocks has come home. -/
def interrupted : List Action :=
  [.tick, .tick, .tick, .beginOp, .check 0 ⟨50, fun _ _ => 1⟩, .append 0, .beginOp, .check 1 ⟨51, fun _ _ => 2⟩,
    .append 1,
    .endOp 1, .endOp 0, .tick, .tick, .tick, .tick, .tick, .crash, .tick]

theorem interrupted_runs :
    ∃ t, (machine ⟨2, LOGSIZE⟩).Path (Careful ⟨2, LOGSIZE⟩) (powerOn blank) interrupted t := by
  have success : ((machine ⟨2, LOGSIZE⟩).runBy (Careful ⟨2, LOGSIZE⟩) (powerOn blank) interrupted).isSome = true := by
    decide +kernel
  obtain ⟨t, run⟩ := Option.isSome_iff_exists.mp success
  exact ⟨t, Machine.path_of_runBy run⟩

theorem log_never_fills_interrupted : ∃ s, (machine ⟨2, LOGSIZE⟩).ReachableBy (Careful ⟨2, LOGSIZE⟩) s ∧
    s.panicked = none ∧ (s.pc.booting = false → s.lh.length + 2 ≤ LOGSIZE) ∧ s.outstanding = s.inOp.card ∧
      (s.pc ≠ .ready → s.inOp = ∅) := by
  obtain ⟨t, path⟩ := interrupted_runs
  have reached : (machine ⟨2, LOGSIZE⟩).ReachableBy (Careful ⟨2, LOGSIZE⟩) t := ⟨_, _, ⟨blank, blank_valid, rfl⟩, path⟩
  exact ⟨t, reached, log_never_fills (Nat.le_refl _) reached⟩

/-- Three calls under way that have put blocks into the log, and no `log_write` between its tests and its entry. -/
structure Three (first : ℕ) (lh : List ℕ) (s : St) : Prop where
  sane : s.panicked = none
  lh_eq : s.lh = lh
  outstanding : s.outstanding = 3
  opened : first ∈ s.inOp ∧ first + 1 ∈ s.inOp ∧ first + 2 ∈ s.inOp
  free : s.checked = fun _ => none

theorem Three.mem {first : ℕ} {lh : List ℕ} (three : Three first lh s) {i : ℕ} (small : i < 3) : first + i ∈ s.inOp := by
  obtain ⟨zero, one, two⟩ := three.opened
  obtain rfl | rfl | rfl : i = 0 ∨ i = 1 ∨ i = 2 := by omega
  · exact zero
  · exact one
  · exact two

/-- The `log_write`s of three calls in turn, each of ten blocks. -/
def writes (first : ℕ) (block : ℕ → ℕ) (modify : ℕ → Block → Block) (i : ℕ) : List Action :=
  [.check (first + i / MAXOPBLOCKS) ⟨block i, modify i⟩, .append (first + i / MAXOPBLOCKS)]

private theorem append_held (sane : s.panicked = none) (held : s.checked op = some call) :
    step area s (.append op) = some { s with
    lh := St.absorb s.lh call.blockno
    cache := Function.update s.cache call.blockno (some ⟨call.modify (s.view call.blockno), true⟩)
    checked := Function.update s.checked op none
    wrote := Function.update s.wrote op (insert call.blockno (s.wrote op))
    issued := s.issued ++ [⟨op, call.blockno, call.modify⟩] } := by
  rw [step_running sane, act, St.append, held]
  rfl

theorem Three.write {first i : ℕ} (start : ℕ) {lh : List ℕ} {block : ℕ → ℕ} (three : Three first lh s)
    (modify : ℕ → Block → Block) (count : lh.length = i) (below : i + 1 < LOGSIZE) (new : block i ∉ lh) :
    ∃ t, Three first (lh ++ [block i]) t ∧
    ∀ rest, (machine ⟨start, LOGSIZE⟩).run s (writes first block modify i ++ rest) =
      (machine ⟨start, LOGSIZE⟩).run t rest := by
  have small : i / MAXOPBLOCKS < 3 := by
    simp only [LOGSIZE, MAXOPBLOCKS] at below ⊢
    omega
  have member := three.mem small
  have unlocked : s.Unlocked (block i) := fun op _ => by simp [three.free]
  have checks : step ⟨start, LOGSIZE⟩ s (.check (first + i / MAXOPBLOCKS) ⟨block i, modify i⟩) =
      some { s with checked := Function.update s.checked (first + i / MAXOPBLOCKS) (some ⟨block i, modify i⟩) } := by
    rw [step_running three.sane]
    change s.check _ _ _ = _
    rw [St.check, if_pos ⟨member, by rw [three.free], unlocked⟩, three.lh_eq, three.outstanding, if_neg,
      if_neg (by omega)]
    dsimp only
    omega
  obtain ⟨t, enters, next⟩ : ∃ t, step ⟨start, LOGSIZE⟩ { s with
      checked := Function.update s.checked (first + i / MAXOPBLOCKS) (some ⟨block i, modify i⟩) }
        (.append (first + i / MAXOPBLOCKS)) = some t ∧ Three first (lh ++ [block i]) t := by
    refine ⟨_, append_held three.sane (Function.update_self ..), three.sane, ?_, three.outstanding, three.opened, ?_⟩
    · change St.absorb s.lh (block i) = _
      rw [absorb_eq, three.lh_eq, if_neg new]
    · change Function.update (Function.update s.checked _ _) _ none = _
      rw [Function.update_idem, three.free, Function.update_eq_self_iff]
  refine ⟨t, next, fun rest => ?_⟩
  rw [writes, List.cons_append, Machine.run]
  change (step ⟨start, LOGSIZE⟩ s _).bind _ = _
  rw [checks, Option.bind_some, List.cons_append, List.nil_append, Machine.run]
  change (step ⟨start, LOGSIZE⟩ _ _).bind _ = _
  rw [enters, Option.bind_some]

theorem Three.fill (first start : ℕ) {block : ℕ → ℕ} (modify : ℕ → Block → Block) (distinct : Function.Injective block)
    (left i : ℕ) (last : i + left + 1 = LOGSIZE) (three : Three first ((List.range i).map block) s) :
    ∃ t, (machine ⟨start, LOGSIZE⟩).run s ((List.range' i left).flatMap (writes first block modify) ++
        [.check (first + 2) ⟨block (LOGSIZE - 1), modify (LOGSIZE - 1)⟩]) = some t ∧
      t.panicked = some "too big a transaction" := by
  induction left generalizing i s with
  | zero =>
    refine ⟨{ s with panicked := some "too big a transaction" }, ?_, rfl⟩
    have unlocked : s.Unlocked (block (LOGSIZE - 1)) := fun op _ => by simp [three.free]
    rw [List.range'_zero, List.flatMap_nil, List.nil_append, Machine.run]
    change (step ⟨start, LOGSIZE⟩ s _).bind _ = _
    rw [step_running three.sane]
    change (s.check _ _ _).bind _ = _
    rw [St.check, if_pos ⟨three.mem (by omega), by rw [three.free], unlocked⟩, three.lh_eq, if_pos, Option.bind_some]
    · rfl
    · rw [List.length_map, List.length_range]
      dsimp only
      omega
  | succ left ih =>
    have new : block i ∉ (List.range i).map block := by
      intro member
      obtain ⟨k, below, same⟩ := List.mem_map.mp member
      rw [distinct same] at below
      exact absurd (List.mem_range.mp below) (Nat.lt_irrefl i)
    obtain ⟨mid, next, run⟩ := three.write start modify (by simp) (by omega) new
    rw [← List.map_singleton, ← List.map_append, ← List.range_succ] at next
    obtain ⟨t, rest, panics⟩ := ih (i + 1) (by omega) next
    refine ⟨t, ?_, panics⟩
    rw [List.range'_succ, List.flatMap_cons, List.append_assoc, run]
    exact rest

private theorem beginOp_ready (area : LogArea) (sane : s.panicked = none) (ready : s.pc = .ready)
    (unlocked : s.committing = false)
    (space : s.lh.length + (s.outstanding + 1) * MAXOPBLOCKS ≤ LOGSIZE) : step area s .beginOp =
      some { s with outstanding := s.outstanding + 1, inOp := insert s.next s.inOp, next := s.next + 1 } := by
  rw [step_running sane]
  change s.beginOp = _
  rw [St.beginOp, if_neg]
  simp only [ready, unlocked, Pc.booting, Bool.false_eq_true, false_or]
  omega

/-- On the log area that `mkfs` lays out, three calls that write `MAXOPBLOCKS` different blocks each, which
is what `begin_op` reserves for them, make the kernel give up at the last block, from every state in which
the log is idle. -/
theorem reservation_too_small {start : ℕ} {block : ℕ → ℕ} (modify : ℕ → Block → Block)
    (distinct : Function.Injective block)
    (reached : (machine ⟨start, LOGSIZE⟩).ReachableBy (Careful ⟨start, LOGSIZE⟩) s) (ready : s.pc = .ready)
    (idle : s.inOp = ∅) :
    ∃ t, (machine ⟨start, LOGSIZE⟩).run s
        (.beginOp :: .beginOp :: .beginOp :: (List.range (LOGSIZE - 1)).flatMap (writes s.next block modify) ++
          [.check (s.next + 2) ⟨block (LOGSIZE - 1), modify (LOGSIZE - 1)⟩]) = some t ∧
      t.panicked = some "too big a transaction" := by
  have room := room_of_reachable (Nat.le_refl _) reached
  have unlocked := room.unlocked (.inl ready)
  have empty := room.idle ready idle
  have none : s.outstanding = 0 := by
    rw [room.count, idle]
    rfl
  have free : s.checked = fun _ => Option.none := by
    funext op
    cases held : s.checked op with
    | none => rfl
    | some call =>
      have member := (room.calls op call held).1
      rw [idle] at member
      exact absurd member (Finset.notMem_empty op)
  -- three calls begin
  have one := beginOp_ready ⟨start, LOGSIZE⟩ room.sane ready unlocked (by simp [empty, none, LOGSIZE, MAXOPBLOCKS])
  have two := beginOp_ready ⟨start, LOGSIZE⟩
    (s := { s with outstanding := s.outstanding + 1, inOp := insert s.next s.inOp, next := s.next + 1 })
    room.sane ready unlocked (by simp [empty, none, LOGSIZE, MAXOPBLOCKS])
  have three := beginOp_ready ⟨start, LOGSIZE⟩
    (s := { s with
      outstanding := s.outstanding + 1 + 1, inOp := insert (s.next + 1) (insert s.next s.inOp), next := s.next + 1 + 1 })
    room.sane ready unlocked (by simp [empty, none, LOGSIZE, MAXOPBLOCKS])
  obtain ⟨t, run, panics⟩ := Three.fill s.next start modify distinct (LOGSIZE - 1) 0 rfl
    (s := { s with
      outstanding := s.outstanding + 1 + 1 + 1
      inOp := insert (s.next + 1 + 1) (insert (s.next + 1) (insert s.next s.inOp)), next := s.next + 1 + 1 + 1 })
    ⟨room.sane, empty, by rw [none]; rfl, by simp, free⟩
  refine ⟨t, ?_, panics⟩
  rw [List.range_eq_range', ← run]
  simp only [List.cons_append, Machine.run]
  change (step _ _ _).bind _ = _
  rw [one, Option.bind_some]
  change (step _ _ _).bind _ = _
  rw [two, Option.bind_some]
  change (step _ _ _).bind _ = _
  rw [three, Option.bind_some]

theorem reservation_too_small_booted : ∃ s t, (machine ⟨2, LOGSIZE⟩).ReachableBy (Careful ⟨2, LOGSIZE⟩) s ∧
    (machine ⟨2, LOGSIZE⟩).run s
        (.beginOp :: .beginOp :: .beginOp :: (List.range (LOGSIZE - 1)).flatMap (writes s.next (100 + ·) fun _ => id) ++
          [.check (s.next + 2) ⟨100 + (LOGSIZE - 1), id⟩]) = some t ∧
      t.panicked = some "too big a transaction" := by
  have ends : (((machine ⟨2, LOGSIZE⟩).runBy (Careful ⟨2, LOGSIZE⟩) (powerOn blank) [.tick, .tick, .tick]).map
      fun s => decide (s.pc = .ready ∧ s.inOp = ∅)) = some true := by
    decide +kernel
  obtain ⟨s, boots, ready⟩ := Option.map_eq_some_iff.mp ends
  obtain ⟨ready, idle⟩ := of_decide_eq_true ready
  have reached : (machine ⟨2, LOGSIZE⟩).ReachableBy (Careful ⟨2, LOGSIZE⟩) s :=
    Machine.reachableBy_of_runBy ⟨blank, blank_valid, rfl⟩ _ boots
  obtain ⟨t, panics⟩ := reservation_too_small (fun _ => id) (add_right_injective 100) reached ready idle
  exact ⟨s, t, reached, panics⟩

end Cs537.Fs.Log
