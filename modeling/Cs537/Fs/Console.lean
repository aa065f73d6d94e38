import Cs537.Lib.Fifo
import Cs537.Lib.Machine
import Mathlib.Data.List.Infix
import Mathlib.Tactic.SplitIfs

/-! # The console

`consoleintr` and `consoleread` of `console.c`: a buffer of `INPUT_BUF` bytes with three unsigned indices, in which the
interrupt handler edits the line that is typed while any number of processes read the lines before it. Both have the
console's lock, the reader from one sleep to the next. What was typed, and what left the buffer, is recorded as history.
-/

namespace Cs537.Fs.Console

open Cs537.Lib

def INPUT_BUF : ℕ := 128

def newline : UInt8 := 10

/-- Control-x. -/
def C (x : Char) : UInt8 := UInt8.ofNat (x.toNat - '@'.toNat)

/-- `input`: the read, write and edit index. -/
structure Input where
  buf : ℕ → UInt8
  r : ℕ
  w : ℕ
  e : ℕ

/-- `input.e--`. -/
def Input.back (s : Input) : Input := { s with e := (s.e + 2 ^ 32 - 1) % 2 ^ 32 }

/-- `input.buf[input.e++ % INPUT_BUF] = c`. -/
def Input.push (s : Input) (c : UInt8) : Input :=
  { s with buf := Function.update s.buf (s.e % INPUT_BUF) c, e := (s.e + 1) % 2 ^ 32 }

/-- `input.w = input.e`. -/
def Input.enter (s : Input) : Input := { s with w := s.e }

/-- The loop that kills a line. -/
def killLine : ℕ → Input → Input
  | 0, s => s
  | fuel + 1, s => if s.e ≠ s.w ∧ s.buf (s.back.e % INPUT_BUF) ≠ newline then killLine fuel s.back else s

/-- One round of `consoleintr`, and whether it wakes the readers. -/
def Input.key (s : Input) (c : UInt8) : Input × Bool :=
  if c = C 'P' then (s, false)
  else if c = C 'U' then (killLine INPUT_BUF s, false)
  else if c = C 'H' ∨ c = 127 then (if s.e ≠ s.w then s.back else s, false)
  else if c ≠ 0 ∧ (s.e + 2 ^ 32 - s.r) % 2 ^ 32 < INPUT_BUF then
    let c := if c = 13 then newline else c
    let s := s.push c
    if c = newline ∨ c = C 'D' ∨ s.e = (s.r + INPUT_BUF) % 2 ^ 32 then (s.enter, true) else (s, false)
  else (s, false)

def consoleintr : Input → List UInt8 → Input × Bool
  | s, [] => (s, false)
  | s, c :: cs =>
    let (s, woken) := s.key c
    let (s, later) := consoleintr s cs
    (s, woken || later)

/-- How `consoleread` gives up the lock; `eof` when it takes the end-of-file character with it. -/
inductive Stop
  | done
  | eof
  | empty
  deriving DecidableEq

/-- The byte that leaves the buffer and goes to no reader. -/
def Stop.extra (stop : Stop) : List UInt8 := if stop = .eof then [C 'D'] else []

/-- The loop of `consoleread`, for `n` of `target` bytes. -/
def consoleread (target : ℕ) : ℕ → Input → Input × List UInt8 × Stop
  | 0, s => (s, [], .done)
  | n + 1, s =>
    if s.r = s.w then (s, [], .empty)
    else
      let c := s.buf (s.r % INPUT_BUF)
      let next := { s with r := (s.r + 1) % 2 ^ 32 }
      if c = C 'D' then if n + 1 < target then (s, [], .done) else (next, [], .eof)
      else if c = newline then (next, [c], .done)
      else
        let rest := consoleread target n next
        (rest.1, c :: rest.2.1, rest.2.2)

/-- A process outside of `consoleread`, or in it with the bytes that it has. -/
inductive Proc
  | out
  | reading (target : ℕ) (got : List UInt8) (asleep : Bool)

/-- `wakeup(&input.r)`. -/
def Proc.wake : Proc → Proc
  | .reading target got _ => .reading target got false
  | p => p

/-- The console and its processes, with what was typed and how much had left the buffer by then, what has left it, and
what the calls for so many bytes have returned, which is none for -1. -/
structure St where
  input : Input
  proc : ℕ → Proc
  typed : List (UInt8 × ℕ)
  taken : List UInt8
  returned : List (ℕ × Option (List UInt8))

inductive Action
  | intr (cs : List UInt8)
  | read (p n : ℕ)
  | run (p : ℕ) (killed : Bool)
  | kill (p : ℕ)

def St.setProc (s : St) (p : ℕ) (x : Proc) : St := { s with proc := Function.update s.proc p x }

/-- A reader has come to the end of its loop, or to an empty buffer. -/
def St.stopped (s : St) (p target : ℕ) (got : List UInt8) (killed : Bool) : Stop → St
  | .empty =>
    if killed then { s.setProc p .out with returned := s.returned ++ [(target, none)] }
      else s.setProc p (.reading target got true)
  | _ => { s.setProc p .out with returned := s.returned ++ [(target, some got)] }

def St.step (s : St) : Action → Option St
  | .intr cs =>
    let (input, woken) := consoleintr s.input cs
    some { s with
      input := input
      proc := if woken then fun p => (s.proc p).wake else s.proc
      typed := s.typed ++ cs.map fun c => (c, s.taken.length) }
  | .read p n => match s.proc p with
    | .out => some (s.setProc p (.reading n [] false))
    | _ => none
  | .run p killed => match s.proc p with
    | .reading target got false =>
      let (input, bytes, stop) := consoleread target (target - got.length) s.input
      let s := { s with input := input, taken := s.taken ++ bytes ++ stop.extra }
      some (s.stopped p target (got ++ bytes) killed stop)
    | _ => none
  | .kill p => some (s.setProc p (s.proc p).wake)

/-- The console at boot, where the buffer is zero and nobody reads. -/
def machine : Machine St Action where
  init s := s = ⟨⟨fun _ => 0, 0, 0, 0⟩, fun _ => .out, [], [], []⟩
  step := St.step

/-- What has been entered, and the line that is typed. -/
structure Desk where
  entered : List UInt8
  line : List UInt8

/-- A key, pressed when `count` bytes had been read: the line is edited, and entered when it ends or the
buffer is full. -/
def Desk.key (d : Desk) : UInt8 × ℕ → Desk
  | (c, count) =>
    if c = C 'P' then d
    else if c = C 'U' then { d with line := [] }
    else if c = C 'H' ∨ c = 127 then { d with line := d.line.dropLast }
    else if c ≠ 0 ∧ d.entered.length - count + d.line.length < INPUT_BUF then
      let c := if c = 13 then newline else c
      if c = newline ∨ c = C 'D' ∨ d.entered.length - count + d.line.length + 1 = INPUT_BUF then
        ⟨d.entered ++ (d.line ++ [c]), []⟩
      else { d with line := d.line ++ [c] }
    else d

/-- What a session at the keyboard has come to. -/
def desk (typed : List (UInt8 × ℕ)) : Desk := typed.foldl Desk.key ⟨[], []⟩

/-- What the loop of `consoleread` does to the bytes that are there. -/
def takeLine (target : ℕ) : ℕ → List UInt8 → List UInt8 × List UInt8 × Stop
  | 0, ready => (ready, [], .done)
  | _ + 1, [] => ([], [], .empty)
  | n + 1, c :: ready =>
    if c = C 'D' then if n + 1 < target then (c :: ready, [], .done) else (ready, [], .eof)
    else if c = newline then (ready, [c], .done)
    else
      let rest := takeLine target n ready
      (rest.1, c :: rest.2.1, rest.2.2)

variable {s t : St} {a : Action} {i : Input} {front target n : ℕ} {ready line : List UInt8} {c : UInt8}

/-- The buffer holds the bytes that can be read and the line that is typed. -/
structure Shows (i : Input) (front : ℕ) (ready line : List UInt8) : Prop where
  fifo : Fifo i.buf INPUT_BUF front (ready ++ line)
  r : i.r = front % 2 ^ 32
  w : i.w = (front + ready.length) % 2 ^ 32
  e : i.e = (front + ready.length + line.length) % 2 ^ 32
  open_ : newline ∉ line

theorem Shows.fits (shows : Shows i front ready line) : ready.length + line.length ≤ 128 := by
  have fits := shows.fifo.fits
  rwa [List.length_append] at fits

private theorem Shows.edited_iff (shows : Shows i front ready line) : i.e ≠ i.w ↔ line ≠ [] := by
  have fits := shows.fits
  rw [shows.e, shows.w, ne_eq, ne_eq, not_iff_not, ← List.length_eq_zero_iff]
  omega

private theorem Input.back_eq (i : Input) : i.back.buf = i.buf ∧ i.back.r = i.r ∧ i.back.w = i.w := by
  rw [Input.back]
  exact ⟨rfl, rfl, rfl⟩

theorem Shows.back (shows : Shows i front ready (line ++ [c])) : i.buf (i.back.e % INPUT_BUF) = c ∧
    Shows i.back front ready line := by
  have fits := shows.fits
  rw [List.length_append, List.length_singleton] at fits
  have before : i.back.e = (front + ready.length + line.length) % 2 ^ 32 := by
    change (i.e + 2 ^ 32 - 1) % 2 ^ 32 = _
    rw [shows.e, List.length_append, List.length_singleton]
    omega
  have place : i.back.e % INPUT_BUF = (front + (ready ++ line).length) % INPUT_BUF := by
    rw [before, List.length_append]
    simp only [INPUT_BUF]
    omega
  have whole := shows.fifo
  rw [← List.append_assoc] at whole
  obtain ⟨buf, r, w⟩ := i.back_eq
  refine ⟨?_, by rw [buf]; exact whole.dropLast, by rw [r, shows.r], by rw [w, shows.w], before,
    fun member => shows.open_ (List.mem_append_left _ member)⟩
  rw [place, whole.item (ready ++ line).length (by simp)]
  simp

/-- The line is killed as a whole: there is no newline in it. -/
theorem Shows.killLine (shows : Shows i front ready line) {fuel : ℕ} (enough : line.length ≤ fuel) :
    Shows (Console.killLine fuel i) front ready [] := by
  induction fuel generalizing i line with
  | zero =>
    obtain rfl := List.eq_nil_of_length_eq_zero (Nat.le_zero.mp enough)
    exact shows
  | succ fuel ih =>
    rw [Console.killLine]
    rcases List.eq_nil_or_concat' line with rfl | ⟨front', last, rfl⟩
    · rw [if_neg fun more => shows.edited_iff.mp more.1 rfl]
      exact shows
    · obtain ⟨byte, shows'⟩ := shows.back
      rw [if_pos]
      · exact ih shows' (by rw [List.length_append, List.length_singleton] at enough; omega)
      · refine ⟨shows.edited_iff.mpr (by simp), ?_⟩
        rw [byte]
        rintro rfl
        exact shows.open_ (by simp)

private theorem Shows.room_iff (shows : Shows i front ready line) : (i.e + 2 ^ 32 - i.r) % 2 ^ 32 < INPUT_BUF ↔
    ready.length + line.length < INPUT_BUF := by
  have fits := shows.fits
  rw [shows.e, shows.r]
  simp only [INPUT_BUF]
  omega

/-- One more byte, at the edit index. -/
theorem Shows.push (shows : Shows i front ready line) (room : ready.length + line.length < INPUT_BUF) (c : UInt8) :
    Fifo (i.push c).buf INPUT_BUF front (ready ++ (line ++ [c])) ∧ (i.push c).r = front % 2 ^ 32 ∧
      (i.push c).w = (front + ready.length) % 2 ^ 32 ∧
      (i.push c).e = (front + ready.length + (line ++ [c]).length) % 2 ^ 32 := by
  have place : i.e % INPUT_BUF = (front + (ready ++ line).length) % INPUT_BUF := by
    rw [shows.e, List.length_append]
    simp only [INPUT_BUF]
    omega
  rw [Input.push]
  refine ⟨?_, shows.r, shows.w, ?_⟩
  · rw [place, ← List.append_assoc]
    exact shows.fifo.push (by rw [List.length_append]; exact room)
  · dsimp only
    rw [shows.e, List.length_append, List.length_singleton]
    omega

/-- The console holds what has been entered since `count` bytes were read. -/
structure Holds (i : Input) (count : ℕ) (d : Desk) : Prop where
  read : count ≤ d.entered.length
  shows : ∃ front, Shows i front (d.entered.drop count) d.line

variable {d : Desk} {count : ℕ}

theorem Shows.erase (shows : Shows i front ready line) :
    Shows (if i.e ≠ i.w then i.back else i) front ready line.dropLast := by
  rcases List.eq_nil_or_concat' line with rfl | ⟨line, last, rfl⟩
  · rw [if_neg fun more => shows.edited_iff.mp more rfl]
    exact shows
  · rw [if_pos (shows.edited_iff.mpr (by simp)), List.dropLast_concat]
    exact shows.back.2

/-- A key edits the line, or enters it. -/
theorem Holds.key (holds : Holds i count d) (c : UInt8) :
    Holds (i.key c).1 count (d.key (c, count)) ∧ ((i.key c).2 = false → (d.key (c, count)).entered = d.entered) := by
  obtain ⟨read, front, shows⟩ := holds
  have length : (d.entered.drop count).length = d.entered.length - count := List.length_drop
  have room := shows.room_iff
  rw [length] at room
  rw [Input.key, Desk.key]
  rcases eq_or_ne c (C 'P') with list | list
  · rw [if_pos list, if_pos list]
    exact ⟨⟨read, front, shows⟩, fun _ => rfl⟩
  rw [if_neg list, if_neg list]
  rcases eq_or_ne c (C 'U') with kill | kill
  · rw [if_pos kill, if_pos kill]
    exact ⟨⟨read, front, shows.killLine (Nat.le_trans (Nat.le_add_left _ _) shows.fits)⟩, fun _ => rfl⟩
  rw [if_neg kill, if_neg kill]
  by_cases erase : c = C 'H' ∨ c = 127
  · rw [if_pos erase, if_pos erase]
    exact ⟨⟨read, front, shows.erase⟩, fun _ => rfl⟩
  rw [if_neg erase, if_neg erase]
  by_cases fits : c ≠ 0 ∧ d.entered.length - count + d.line.length < INPUT_BUF
  · rw [if_pos ⟨fits.1, room.mpr fits.2⟩, if_pos fits]
    dsimp only
    generalize (if c = 13 then newline else c) = b
    obtain ⟨fifo, first, written, last⟩ := shows.push (by rw [length]; exact fits.2) b
    have full : (i.push b).e = ((i.push b).r + INPUT_BUF) % 2 ^ 32 ↔
      d.entered.length - count + d.line.length + 1 = INPUT_BUF := by
      have small := fits.2
      rw [last, first, length, List.length_append, List.length_singleton]
      simp only [INPUT_BUF] at small ⊢
      omega
    by_cases ends : b = newline ∨ b = C 'D' ∨ d.entered.length - count + d.line.length + 1 = INPUT_BUF
    · rw [if_pos ends, if_pos (ends.imp_right fun rest => rest.imp_right full.mpr)]
      refine ⟨⟨?_, front, ?_⟩, fun woken => by cases woken⟩
      · rw [List.length_append]
        exact Nat.le_trans read (Nat.le_add_right _ _)
      · rw [List.drop_append_of_le_length read]
        have all : front + (d.entered.drop count ++ (d.line ++ [b])).length = front + (d.entered.drop count).length +
          (d.line ++ [b]).length := by
          rw [List.length_append, Nat.add_assoc]
        refine ⟨by rw [List.append_nil]; exact fifo, first, by rw [all]; exact last, ?_, List.not_mem_nil⟩
        rw [List.length_nil, Nat.add_zero, all]
        exact last
    · rw [if_neg ends, if_neg fun more => ends (more.imp_right fun rest => rest.imp_right full.mp)]
      refine ⟨⟨read, front, fifo, first, written, last, fun member => ?_⟩, fun _ => rfl⟩
      rcases List.mem_append.mp member with inside | here
      · exact shows.open_ inside
      · exact ends (.inl (List.mem_singleton.mp here).symm)
  · rw [if_neg fits, if_neg fun more => fits ⟨more.1, room.mp more.2⟩]
    exact ⟨⟨read, front, shows⟩, fun _ => rfl⟩

private theorem Holds.consoleintr (holds : Holds i count d) (cs : List UInt8) :
    Holds (Console.consoleintr i cs).1 count ((cs.map fun c => (c, count)).foldl Desk.key d) ∧
      ((Console.consoleintr i cs).2 = false → ((cs.map fun c => (c, count)).foldl Desk.key d).entered = d.entered) := by
  induction cs generalizing i d with
  | nil => exact ⟨holds, fun _ => rfl⟩
  | cons c cs ih =>
    obtain ⟨next, quiet⟩ := holds.key c
    obtain ⟨final, rest⟩ := ih next
    refine ⟨final, fun silent => ?_⟩
    have both : ((i.key c).2 || (Console.consoleintr (i.key c).1 cs).2) = false := silent
    rw [Bool.or_eq_false_iff] at both
    exact (rest both.2).trans (quiet both.1)

/-- What is entered stays. -/
private theorem Desk.entered_prefix (d : Desk) (keys : List (UInt8 × ℕ)) : d.entered <+: (keys.foldl Desk.key d).entered := by
  induction keys generalizing d with
  | nil => exact List.prefix_rfl
  | cons key keys ih =>
    have step : d.entered <+: (d.key key).entered := by
      obtain ⟨c, count⟩ := key
      rw [Desk.key]
      dsimp only
      split_ifs
      all_goals first | exact List.prefix_rfl | exact List.prefix_append _ _
    exact step.trans (ih _)

theorem Shows.pop (shows : Shows i front (c :: ready) line) :
    i.buf (i.r % INPUT_BUF) = c ∧ Shows { i with r := (i.r + 1) % 2 ^ 32 } (front + 1) ready line := by
  obtain ⟨first, others⟩ := shows.fifo.pop
  have place : i.r % INPUT_BUF = front % INPUT_BUF := by
    rw [shows.r]
    simp only [INPUT_BUF]
    omega
  have written := shows.w
  have last := shows.e
  rw [List.length_cons] at written last
  refine ⟨by rw [place, first], others, ?_, ?_, ?_, shows.open_⟩
  · change (i.r + 1) % 2 ^ 32 = _
    rw [shows.r]
    omega
  · change i.w = _
    rw [written]
    omega
  · change i.e = _
    rw [last]
    omega

theorem Shows.empty_iff (shows : Shows i front ready line) : i.r = i.w ↔ ready = [] := by
  have fits := shows.fits
  rw [shows.r, shows.w, ← List.length_eq_zero_iff]
  omega

/-- The loop of `consoleread` takes a line, or what there is of it. -/
theorem Shows.consoleread (shows : Shows i front ready line) (target n : ℕ) :
    (Console.consoleread target n i).2 = (takeLine target n ready).2 ∧
      ∃ front', Shows (Console.consoleread target n i).1 front' (takeLine target n ready).1 line := by
  induction n generalizing i front ready with
  | zero => exact ⟨rfl, front, shows⟩
  | succ n ih =>
    rw [Console.consoleread]
    cases ready with
    | nil =>
      rw [if_pos (shows.empty_iff.mpr rfl)]
      exact ⟨rfl, front, shows⟩
    | cons c ready =>
      obtain ⟨byte, next⟩ := shows.pop
      rw [if_neg (fun none => (by cases shows.empty_iff.mp none)), takeLine]
      dsimp only
      rw [byte]
      split_ifs with eof later ends
      · exact ⟨rfl, front, shows⟩
      · exact ⟨rfl, front + 1, next⟩
      · exact ⟨rfl, front + 1, next⟩
      · obtain ⟨same, front', shows'⟩ := ih next
        exact ⟨by rw [same], front', shows'⟩

private theorem takeLine_books (target n : ℕ) (ready : List UInt8) :
    ready = (takeLine target n ready).2.1 ++ (takeLine target n ready).2.2.extra ++ (takeLine target n ready).1 := by
  induction n generalizing ready with
  | zero => rfl
  | succ n ih =>
    cases ready with
    | nil => rfl
    | cons c ready =>
      rw [takeLine]
      split_ifs with eof later ends
      · rfl
      · rw [eof]
        rfl
      · rfl
      · dsimp only
        rw [List.cons_append, List.cons_append, ← ih]

/-- A reader gets at most a line; it goes on without a newline, when nothing is left. -/
private theorem takeLine_line (target n : ℕ) (ready : List UInt8) :
    (takeLine target n ready).2.1.length ≤ n ∧ newline ∉ (takeLine target n ready).2.1.dropLast ∧
    C 'D' ∉ (takeLine target n ready).2.1 ∧
      ((takeLine target n ready).2.2 = .empty → newline ∉ (takeLine target n ready).2.1 ∧
      (takeLine target n ready).1 = []) := by
  induction n generalizing ready with
  | zero => exact ⟨Nat.le_refl _, List.not_mem_nil, List.not_mem_nil, fun empty => by cases empty⟩
  | succ n ih =>
    cases ready with
    | nil => exact ⟨Nat.zero_le _, List.not_mem_nil, List.not_mem_nil, fun _ => ⟨List.not_mem_nil, rfl⟩⟩
    | cons c ready =>
      rw [takeLine]
      split_ifs with eof later ends
      · exact ⟨Nat.zero_le _, List.not_mem_nil, List.not_mem_nil, fun empty => by cases empty⟩
      · exact ⟨Nat.zero_le _, List.not_mem_nil, List.not_mem_nil, fun empty => by cases empty⟩
      · exact ⟨Nat.succ_le_succ (Nat.zero_le _), List.not_mem_nil, fun member => eof (List.mem_singleton.mp member).symm,
          fun empty => by cases empty⟩
      · obtain ⟨short, line, plain, rest⟩ := ih ready
        dsimp only
        refine ⟨Nat.succ_le_succ short, fun member => ?_, fun member => ?_, fun empty =>
          ⟨fun member => ?_, (rest empty).2⟩⟩
        · cases got : (takeLine target n ready).2.1 with
          | nil =>
            rw [got] at member
            exact List.not_mem_nil member
          | cons b bs =>
            rw [got, List.dropLast_cons_cons] at member
            rw [got] at line
            exact (List.mem_cons.mp member).elim (fun same => ends same.symm) line
        · exact (List.mem_cons.mp member).elim (fun same => eof same.symm) plain
        · exact (List.mem_cons.mp member).elim (fun same => ends same.symm) (rest empty).1

/-- A process has part of a line, and sleeps only if nothing is ready. -/
def Proc.Ok (taken entered : List UInt8) : Proc → Prop
  | .out => True
  | .reading target got asleep => got.length ≤ target ∧ newline ∉ got ∧ C 'D' ∉ got ∧ (asleep = true → taken = entered)

theorem Proc.Ok.later {taken taken' entered : List UInt8} {x : Proc} (ok : x.Ok taken entered) (more : taken <+: taken')
    (within : taken' <+: entered) : x.Ok taken' entered := by
  cases x with
  | out => trivial
  | reading target got asleep =>
    obtain ⟨short, line, plain, nothing⟩ := ok
    refine ⟨short, line, plain, fun sleeps => within.eq_of_length_le ?_⟩
    rw [← nothing sleeps]
    exact more.length_le

theorem Proc.Ok.wake {taken entered entered' : List UInt8} {x : Proc} (ok : x.Ok taken entered) :
    x.wake.Ok taken entered' := by
  cases x with
  | out => trivial
  | reading target got asleep => exact ⟨ok.1, ok.2.1, ok.2.2.1, fun sleeps => by cases sleeps⟩

/-- What holds in every run. -/
structure Inv (s : St) : Prop where
  holds : Holds s.input s.taken.length (desk s.typed)
  books : s.taken <+: (desk s.typed).entered
  procs : ∀ p, (s.proc p).Ok s.taken (desk s.typed).entered
  returned : ∀ n l, (n, some l) ∈ s.returned → l.length ≤ n ∧ newline ∉ l.dropLast ∧ C 'D' ∉ l

theorem Inv.setProc (inv : Inv s) (p : ℕ) {x : Proc} (ok : x.Ok s.taken (desk s.typed).entered) :
    Inv (s.setProc p x) := by
  refine ⟨inv.holds, inv.books, fun q => ?_, inv.returned⟩
  change (Function.update s.proc p x q).Ok s.taken (desk s.typed).entered
  rcases eq_or_ne q p with rfl | other
  · rw [Function.update_self]
    exact ok
  · rw [Function.update_of_ne other]
    exact inv.procs q

theorem Inv.return (inv : Inv s) {n : ℕ} {r : Option (List UInt8)}
    (line : ∀ l, r = some l → l.length ≤ n ∧ newline ∉ l.dropLast ∧ C 'D' ∉ l) :
    Inv { s with returned := s.returned ++ [(n, r)] } := by
  refine ⟨inv.holds, inv.books, inv.procs, fun m l member => ?_⟩
  rcases List.mem_append.mp member with before | now
  · exact inv.returned m l before
  · rw [List.mem_singleton, Prod.mk.injEq] at now
    obtain ⟨rfl, rfl⟩ := now
    exact line l rfl

private theorem Inv.intr (inv : Inv s) (cs : List UInt8) (moved : s.step (.intr cs) = some t) : Inv t := by
  cases moved
  obtain ⟨holds, quiet⟩ := inv.holds.consoleintr cs
  have typed : desk (s.typed ++ cs.map fun c => (c, s.taken.length)) = (cs.map fun c =>
    (c, s.taken.length)).foldl Desk.key (desk s.typed) :=
    List.foldl_append
  refine ⟨by rw [← typed] at holds; exact holds, ?_, fun p => ?_, inv.returned⟩
  · change s.taken <+: (desk (s.typed ++ _)).entered
    rw [typed]
    exact inv.books.trans (Desk.entered_prefix _ _)
  · change Proc.Ok s.taken (desk (s.typed ++ _)).entered ((if (Console.consoleintr s.input cs).2 = true then
      fun p => (s.proc p).wake else s.proc) p)
    split_ifs with woken
    · exact (inv.procs p).wake
    · rw [typed, quiet (Bool.eq_false_iff.mpr woken)]
      exact inv.procs p

/-- What a reader has with the bytes that it takes now. -/
private theorem got_line {got bytes : List UInt8} (short : got.length ≤ target) (open_ : newline ∉ got) (plain : C 'D' ∉ got)
    (few : bytes.length ≤ target - got.length) (line : newline ∉ bytes.dropLast) (noEof : C 'D' ∉ bytes) :
    (got ++ bytes).length ≤ target ∧ newline ∉ (got ++ bytes).dropLast ∧ C 'D' ∉ got ++ bytes := by
  refine ⟨by rw [List.length_append]; omega, fun member => ?_, fun member => (List.mem_append.mp member).elim plain noEof⟩
  rcases eq_or_ne bytes [] with rfl | some
  · rw [List.append_nil] at member
    exact open_ (List.dropLast_subset got member)
  · rw [List.dropLast_append_of_ne_nil some] at member
    exact (List.mem_append.mp member).elim open_ line

theorem Inv.run (inv : Inv s) {p : ℕ} {killed : Bool} (moved : s.step (.run p killed) = some t) : Inv t := by
  have ok := inv.procs p
  rw [St.step] at moved
  cases here : s.proc p with
  | out =>
    rw [here] at moved
    cases moved
  | reading target got asleep =>
    rw [here] at moved ok
    cases asleep with
    | true => cases moved
    | false =>
      dsimp only at moved
      obtain ⟨short, open_, plain, _⟩ := ok
      obtain ⟨read, front, shows⟩ := inv.holds
      obtain ⟨same, front', shows'⟩ := shows.consoleread target (target - got.length)
      have books := takeLine_books target (target - got.length) ((desk s.typed).entered.drop s.taken.length)
      obtain ⟨few, line, noEof, last⟩ := takeLine_line target (target - got.length)
        ((desk s.typed).entered.drop s.taken.length)
      rw [← same] at books few line noEof last
      generalize (takeLine target (target - got.length) ((desk s.typed).entered.drop s.taken.length)).1 = rest
        at shows' books last
      generalize Console.consoleread target (target - got.length) s.input = result
        at moved shows' books few line noEof last
      obtain ⟨input, bytes, stop⟩ := result
      dsimp only at moved shows' books few line noEof last
      cases moved
      have entered : (desk s.typed).entered = (s.taken ++ bytes ++ stop.extra) ++ rest := by
        rw [List.append_assoc, List.append_assoc, ← List.append_assoc bytes, ← books]
        exact List.prefix_iff_eq_append.mp inv.books |>.symm
      have within : s.taken ++ bytes ++ stop.extra <+: (desk s.typed).entered := ⟨rest, entered.symm⟩
      have between : Inv { s with input := input, taken := s.taken ++ bytes ++ stop.extra } := by
        refine ⟨⟨within.length_le, front', ?_⟩, within, fun q => (inv.procs q).later ?_ within, inv.returned⟩
        · change Shows input front' ((desk s.typed).entered.drop (s.taken ++ bytes ++ stop.extra).length)
            (desk s.typed).line
          rw [entered, List.drop_left]
          exact shows'
        · rw [List.append_assoc]
          exact List.prefix_append _ _
      have got' := got_line short open_ plain few line noEof
      have finished : Inv { (St.setProc { s with input := input, taken := s.taken ++ bytes ++ stop.extra } p .out) with
          returned := s.returned ++ [(target, some (got ++ bytes))] } :=
        (between.setProc p (x := .out) trivial).return fun l same => by
          cases same
          exact got'
      cases stop with
      | done => exact finished
      | eof => exact finished
      | empty =>
        cases killed with
        | true => exact (between.setProc p (x := .out) trivial).return (r := none) fun l same => by cases same
        | false =>
          refine between.setProc p (x := .reading target (got ++ bytes) true) ⟨got'.1, fun member => ?_, got'.2.2,
            fun _ => ?_⟩
          · exact (List.mem_append.mp member).elim open_ (last rfl).1
          · rw [(last rfl).2, List.append_nil] at entered
            exact entered.symm

theorem Inv.step (inv : Inv s) (moved : s.step a = some t) : Inv t := by
  cases a with
  | intr cs => exact inv.intr cs moved
  | read p n =>
    rw [St.step] at moved
    cases here : s.proc p with
    | out =>
      rw [here] at moved
      cases moved
      exact inv.setProc p ⟨Nat.zero_le _, List.not_mem_nil, List.not_mem_nil, fun sleeps => by cases sleeps⟩
    | reading target got asleep =>
      rw [here] at moved
      cases moved
  | run p killed => exact inv.run moved
  | kill p =>
    cases moved
    exact inv.setProc p (inv.procs p).wake

/-- The keys of an action. -/
def Action.keys : Action → List UInt8
  | .intr cs => cs
  | _ => []

private theorem stopped_typed (s : St) (p target : ℕ) (got : List UInt8) (killed : Bool) (stop : Stop) :
    (s.stopped p target got killed stop).typed = s.typed := by
  cases stop with
  | done => rfl
  | eof => rfl
  | empty =>
    cases killed with
    | true => rfl
    | false => rfl

private theorem typed_step (moved : s.step a = some t) : t.typed.map Prod.fst = s.typed.map Prod.fst ++ a.keys := by
  cases a with
  | intr cs =>
    cases moved
    rw [List.map_append, List.map_map]
    exact congrArg _ (List.map_id cs)
  | read p n =>
    rw [St.step] at moved
    split at moved
    · cases moved
      exact (List.append_nil _).symm
    · cases moved
  | run p killed =>
    rw [St.step] at moved
    split at moved
    · cases moved
      rw [stopped_typed]
      exact (List.append_nil _).symm
    · cases moved
  | kill p =>
    cases moved
    exact (List.append_nil _).symm

/-- In every interleaving of keys with reads and kills, the keys edit one line and enter it, and the console holds what
has been entered and not been read yet, in order, behind which the line is open. A reader gets at most the bytes that it
asked for, all of one line and without an end-of-file character, and sleeps only when everything has been read. -/
theorem console_lines {acts : List Action} (start : machine.init s) (path : machine.Path (fun _ _ => True) s acts t) :
    t.typed.map Prod.fst = acts.flatMap Action.keys ∧ Inv t := by
  have initial : Inv s := by
    obtain rfl := start
    exact ⟨⟨Nat.le_refl _, 0, Fifo.empty _ _ _, rfl, rfl, rfl, List.not_mem_nil⟩, List.prefix_rfl,
      fun _ => trivial, fun n l member => by cases member⟩
  have run : ∀ {s t : St} {acts : List Action}, machine.Path (fun _ _ => True) s acts t → Inv s →
      t.typed.map Prod.fst = s.typed.map Prod.fst ++ acts.flatMap Action.keys ∧ Inv t := by
    intro s t acts path
    induction path with
    | nil => exact fun inv => ⟨(List.append_nil _).symm, inv⟩
    | cons _ moved _ ih =>
      intro inv
      obtain ⟨keys, final⟩ := ih (inv.step moved)
      refine ⟨?_, final⟩
      rw [keys, typed_step moved, List.flatMap_cons, List.append_assoc]
  obtain ⟨keys, final⟩ := run path initial
  obtain rfl := start
  exact ⟨keys, final⟩

/-- A reader sleeps, and gets a line from which a key was erased. -/
def session : List Action := [.read 0 10, .run 0 false, .intr [97, 98, 8, 13], .run 0 false]

theorem console_lines_session : ∃ t, t.returned = [(10, some [97, 10])] ∧
    t.typed.map Prod.fst = session.flatMap Action.keys ∧ Inv t := by
  have success : (machine.runBy (fun _ _ => True) ⟨⟨fun _ => 0, 0, 0, 0⟩, fun _ => .out, [], [], []⟩ session).any
      (fun t => t.returned = [(10, some [97, 10])]) = true := by
    decide +kernel
  obtain ⟨t, run, got⟩ := (Option.any_eq_true _ _).mp success
  exact ⟨t, of_decide_eq_true got, console_lines rfl (Machine.path_of_runBy run)⟩

end Cs537.Fs.Console
