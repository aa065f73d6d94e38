import Cs537.KvStore.System
import Cs537.Lib.Stdio

/-! # The workload file of the client

`read_input_files` goes through the file twice: `count_lines` counts the lines, and a second loop parses them
into the array. Both run until the end of the file has been seen, but the first leaves out the read that sees
it and the second does not. What that read finds decides whether the array has the right size: an unterminated
last line, or, after a terminated one, the line before once more.
-/

namespace Cs537.KvStore

open Lib

/-- `LINE_LEN`. -/
def lineLen : ℕ := 256

/-- The bytes that a read has put into a line buffer, or that were there before the first. -/
abbrev Line := List UInt8

/-- `PUT_STR`. -/
def putStr : List UInt8 := [112, 117, 116]

/-- `GET_STR`. -/
def getStr : List UInt8 := [103, 101, 116]

def getReqType (reqStr : List UInt8) : Option RequestType :=
  if reqStr = putStr then some .put else if reqStr = getStr then some .get else none

/-- The array `requests`: what its elements hold, and the indices that have been written to, in turn. -/
structure Requests where
  elem : ℕ → Request
  written : List ℕ

/-- A field of an element is written. -/
def Requests.set (r : Requests) (index : ℕ) (field : Request → Request) : Requests :=
  ⟨Function.update r.elem index (field (r.elem index)), r.written ++ [index]⟩

/-- An `int`, stored as a key or a value. -/
def word (x : ℤ) : UInt32 := UInt32.ofNat (uint32 x)

def addLineToReq (line : Line) (index : ℕ) (r : Requests) : Requests × ℤ :=
  match strtok 32 (cString line) with
  | [] => (r, -1)
  | tok :: rest =>
      match getReqType tok with
      | none => (r, -1)
      | some type =>
          let r := r.set index fun req => { req with t := type }
          match rest with
          | [] => (r, -1)
          | tok :: rest =>
              let r := r.set index fun req => { req with k := word (atoi tok) }
              if type = .put then
                match rest with
                | [] => (r, -1)
                | tok :: _ => (r.set index fun req => { req with v := word (atoi tok) }, 0)
              else (r, 0)

/-- The loop of `count_lines`. -/
def countLoop : ℕ → Stream → ℕ → ℕ
  | 0, _, nl => nl
  | fuel + 1, f, nl =>
      if f.eof then nl
      else
        let f := (fgets lineLen f).1
        if f.eof then nl else countLoop fuel f (nl + 1)

/-- `count_lines`; every read but the last takes a byte. -/
def countLines (file : List UInt8) : ℕ := countLoop (file.length + 1) (.start file) 0

/-- The second loop: where `fgets` reads nothing, the line is what it was. -/
def readLoop : ℕ → Stream → Line → ℕ → Requests → ℕ × Requests
  | 0, _, _, index, r => (index, r)
  | fuel + 1, f, line, index, r =>
      if f.eof then (index, r)
      else
        let (f, got) := fgets lineLen f
        let line := got.getD line
        let (r, rc) := addLineToReq line index r
        readLoop fuel f line (if rc < 0 then index else index + 1) r

/-- What `read_input_files` leaves: `num_requests`, which is also the length of the array, the array, and the
number of lines that have been accepted. -/
structure Input where
  numRequests : ℕ
  index : ℕ
  requests : Requests

/-- `read_input_files`, given what is in the line buffer and in the array before. -/
def readInputFiles (file : List UInt8) (line : Line) (elem : ℕ → Request) : Input :=
  let numRequests := countLines file
  let (index, requests) := readLoop (file.length + 1) (.start file) line 0 ⟨elem, []⟩
  ⟨numRequests, index, requests⟩

section Format

/-- The request of a line, without a value for a `get`; none for an invalid line. -/
def lineRequest (line : Line) : Option (RequestType × Key × Option Value) :=
  match strtok 32 (cString line) with
  | tok :: key :: rest =>
      if tok = putStr then rest.head?.map fun value => (.put, word (atoi key), some (word (atoi value)))
      else if tok = getStr then some (.get, word (atoi key), none)
      else none
  | _ => none

/-- A line that begins like a request, whether or not it is one. -/
def Begins (line : Line) : Prop :=
  (strtok 32 (cString line)).head? = some putStr ∨ (strtok 32 (cString line)).head? = some getStr

instance (line : Line) : Decidable (Begins line) := inferInstanceAs (Decidable (_ ∨ _))

/-- An element holds a request. -/
def Holds (req : Request) (parsed : RequestType × Key × Option Value) : Prop :=
  req.t = parsed.1 ∧ req.k = parsed.2.1 ∧ ∀ v, parsed.2.2 = some v → req.v = v

/-- A file of lines that fit into the buffer: terminated ones, and what stands behind the last newline. -/
structure Workload where
  lines : List Line
  tail : Line
  terminated : ∀ line ∈ lines, ∃ text, line = text ++ [newline] ∧ newline ∉ text
  unterminated : newline ∉ tail
  short : ∀ line ∈ lines, line.length < lineLen
  short_tail : tail.length < lineLen

variable (w : Workload)

def Workload.file : List UInt8 := w.lines.flatten ++ w.tail

/-- All lines of the file. -/
def Workload.all : List Line := if w.tail = [] then w.lines else w.lines ++ [w.tail]

/-- The requests of the valid lines, in the order of the file. -/
def Workload.requests : List (RequestType × Key × Option Value) := w.all.filterMap lineRequest

/-- The array has one request for each valid line, in the order of the file, and nothing has been written to
behind its end. -/
structure Workload.Loaded (input : Input) : Prop where
  index : input.index = w.requests.length
  stored : ∀ i parsed, w.requests[i]? = some parsed → Holds (input.requests.elem i) parsed
  inside : ∀ i ∈ input.requests.written, i < input.numRequests
  count : input.numRequests = input.index

end Format

section Line

variable {line : Line} {index i j : ℕ} {r : Requests}

private theorem getReqType_cases (reqStr : List UInt8) : reqStr = putStr ∧ getReqType reqStr = some .put ∨
    reqStr = getStr ∧ getReqType reqStr = some .get ∨ reqStr ≠ putStr ∧ reqStr ≠ getStr ∧ getReqType reqStr = none := by
  rw [getReqType]
  split_ifs with put get
  · exact .inl ⟨put, rfl⟩
  · exact .inr (.inl ⟨get, rfl⟩)
  · exact .inr (.inr ⟨put, get, rfl⟩)

private theorem Requests.set_of_ne (ne : j ≠ index) (r : Requests) (field : Request → Request) :
    (r.set index field).elem j = r.elem j := Function.update_of_ne ne ..

private theorem Requests.mem_set (r : Requests) (index : ℕ) (field : Request → Request) :
    i ∈ (r.set index field).written ↔ i ∈ r.written ∨ i = index := by
  simp [Requests.set]

/-- A valid line is stored; with any other the call fails. -/
theorem addLineToReq_cases (line : Line) (index : ℕ) (r : Requests) :
    (∃ parsed, lineRequest line = some parsed ∧ (addLineToReq line index r).2 = 0 ∧
        Holds ((addLineToReq line index r).1.elem index) parsed) ∨
      lineRequest line = none ∧ (addLineToReq line index r).2 = -1 := by
  simp only [addLineToReq, lineRequest]
  rcases strtok 32 (cString line) with _ | ⟨tok, rest⟩
  · exact .inr ⟨rfl, rfl⟩
  · rcases getReqType_cases tok with ⟨rfl, type⟩ | ⟨rfl, type⟩ | ⟨put, get, type⟩
    · simp only [type]
      rcases rest with _ | ⟨key, _ | ⟨value, rest⟩⟩
      · exact .inr ⟨rfl, rfl⟩
      · exact .inr ⟨rfl, rfl⟩
      · refine .inl ⟨_, rfl, rfl, ?_⟩
        simp [Holds, Requests.set]
    · simp only [type]
      rcases rest with _ | ⟨key, rest⟩
      · exact .inr ⟨rfl, rfl⟩
      · refine .inl ⟨_, rfl, rfl, ?_⟩
        simp [Holds, Requests.set]
    · simp only [type]
      refine .inr ⟨?_, trivial⟩
      cases rest <;> simp [put, get]

/-- Nothing but the element is written to. -/
private theorem addLineToReq_of_ne (ne : j ≠ index) : (addLineToReq line index r).1.elem j = r.elem j := by
  simp only [addLineToReq]
  split
  · rfl
  · split
    · rfl
    · split
      · simp only [Requests.set_of_ne ne]
      · split_ifs
        · split <;> simp only [Requests.set_of_ne ne]
        · simp only [Requests.set_of_ne ne]

/-- The element is written to as soon as the line begins like a request. -/
private theorem mem_addLineToReq : i ∈ (addLineToReq line index r).1.written ↔ i ∈ r.written ∨ i = index ∧ Begins line := by
  simp only [addLineToReq, Begins]
  rcases strtok 32 (cString line) with _ | ⟨tok, rest⟩
  · simp
  · rcases getReqType_cases tok with ⟨rfl, type⟩ | ⟨rfl, type⟩ | ⟨put, get, type⟩
    · simp only [type]
      rcases rest with _ | ⟨key, _ | ⟨value, rest⟩⟩ <;> simp [Requests.mem_set]
    · simp only [type]
      rcases rest with _ | ⟨key, rest⟩ <;> simp [Requests.mem_set]
    · simp [type, put, get]

end Line

section Lines

variable {lines : List Line} {index fuel nl : ℕ} {r : Requests}

/-- One line after the other is parsed. -/
def addLines : List Line → ℕ → Requests → ℕ × Requests
  | [], index, r => (index, r)
  | line :: lines, index, r =>
      let (r, rc) := addLineToReq line index r
      addLines lines (if rc < 0 then index else index + 1) r

/-- The requests of some lines. -/
def parsed (lines : List Line) : List (RequestType × Key × Option Value) := lines.filterMap lineRequest

private theorem parsed_cons (line : Line) (lines : List Line) : parsed (line :: lines) = parsed [line] ++ parsed lines := by
  cases valid : lineRequest line <;> simp [parsed, valid]

/-- The elements that some lines write to: a line that begins like a request writes to the one behind the requests of
the valid lines before it. -/
def Writes (lines : List Line) (index i : ℕ) : Prop :=
  ∃ front line back, lines = front ++ line :: back ∧ Begins line ∧ i = index + (parsed front).length

private theorem writes_cons {line : Line} {i : ℕ} : Writes (line :: lines) index i ↔
    i = index ∧ Begins line ∨ Writes lines (index + (parsed [line]).length) i := by
  constructor
  · rintro ⟨front, other, back, eq, begins, rfl⟩
    cases front with
    | nil =>
      obtain ⟨rfl, rfl⟩ := List.cons.inj eq
      exact .inl ⟨rfl, begins⟩
    | cons first front =>
      obtain ⟨rfl, rfl⟩ := List.cons.inj eq
      refine .inr ⟨front, other, back, rfl, begins, ?_⟩
      rw [parsed_cons, List.length_append]
      omega
  · rintro (⟨rfl, begins⟩ | ⟨front, other, back, rfl, begins, rfl⟩)
    · exact ⟨[], line, lines, rfl, begins, rfl⟩
    · refine ⟨line :: front, other, back, rfl, begins, ?_⟩
      rw [parsed_cons line front, List.length_append]
      omega

/-- What some lines leave in the array: the requests of the valid ones, from the index on. -/
structure Added (lines : List Line) (index : ℕ) (r : Requests) (out : ℕ × Requests) : Prop where
  next : out.1 = index + (parsed lines).length
  kept : ∀ j < index, out.2.elem j = r.elem j
  stored : ∀ i req, (parsed lines)[i]? = some req → Holds (out.2.elem (index + i)) req
  written : ∀ i, i ∈ out.2.written ↔ i ∈ r.written ∨ Writes lines index i

private theorem addLines_added (lines : List Line) (index : ℕ) (r : Requests) : Added lines index r (addLines lines index r) := by
  induction lines generalizing index r with
  | nil => exact ⟨rfl, fun _ _ => rfl, fun i req => by simp [parsed], fun i => by simp [addLines, Writes]⟩
  | cons line lines ih =>
    have next : (if (addLineToReq line index r).2 < 0 then index else index + 1) = index + (parsed [line]).length := by
      rcases addLineToReq_cases line index r with ⟨req, valid, rc, _⟩ | ⟨invalid, rc⟩
      · simp [rc, parsed, valid]
      · simp [rc, parsed, invalid]
    have rest := ih (index + (parsed [line]).length) (addLineToReq line index r).1
    simp only [addLines, next]
    generalize addLines lines _ _ = out at rest ⊢
    refine ⟨?_, fun j less => ?_, ?_, fun i => ?_⟩
    · rw [rest.next, parsed_cons line lines, List.length_append, Nat.add_assoc]
    · rw [rest.kept j (by omega), addLineToReq_of_ne less.ne]
    · intro i req found
      rcases addLineToReq_cases line index r with ⟨first, valid, _, holds⟩ | ⟨invalid, _⟩
      · have one : parsed [line] = [first] := by simp [parsed, valid]
        rw [parsed_cons, one] at found
        rw [one] at rest
        cases i with
        | zero =>
          obtain rfl : first = req := by simpa using found
          rw [Nat.add_zero, rest.kept index (by simp)]
          exact holds
        | succ i =>
          have position : index + (i + 1) = index + 1 + i := by omega
          rw [position]
          exact rest.stored i req (by simpa using found)
      · have none : parsed [line] = [] := by simp [parsed, invalid]
        rw [parsed_cons, none] at found
        rw [none] at rest
        exact rest.stored i req found
    · rw [rest.written, mem_addLineToReq, writes_cons, or_assoc]

private theorem addLines_append (front back : List Line) (index : ℕ) (r : Requests) :
    addLines (front ++ back) index r = addLines back (addLines front index r).1 (addLines front index r).2 := by
  induction front generalizing index r with
  | nil => rfl
  | cons line front ih =>
    simp only [List.cons_append, addLines]
    exact ih _ _

private theorem readLoop_eof (fuel : ℕ) (ahead : List UInt8) (line : Line) (index : ℕ) (r : Requests) :
    readLoop fuel ⟨ahead, true⟩ line index r = (index, r) := by
  cases fuel <;> rfl

/-- A round of the second loop. -/
theorem readLoop_succ {f f' : Stream} {line : Line} {got : Option Line} (more : f.eof = false)
    (reads : fgets lineLen f = (f', got)) (fuel : ℕ) (index : ℕ) (r : Requests) :
    readLoop (fuel + 1) f line index r = readLoop fuel f' (got.getD line)
      (addLines [got.getD line] index r).1 (addLines [got.getD line] index r).2 := by
  simp only [readLoop, more, reads, addLines, Bool.false_eq_true, if_false]

/-- A round of the first loop. -/
theorem countLoop_succ {f f' : Stream} {got : Option Line} (more : f.eof = false) (reads : fgets lineLen f = (f', got))
    (fuel nl : ℕ) : countLoop (fuel + 1) f nl = if f'.eof then nl else countLoop fuel f' (nl + 1) := by
  simp only [countLoop, more, reads, Bool.false_eq_true, if_false]

variable (terminated : ∀ line ∈ lines, ∃ text, line = text ++ [newline] ∧ newline ∉ text)
  (short : ∀ line ∈ lines, line.length < lineLen) (rest : List UInt8)

include terminated short

/-- The first loop goes through terminated lines. -/
private theorem countLoop_lines (fuel nl : ℕ) : countLoop (lines.length + fuel) ⟨lines.flatten ++ rest, false⟩ nl =
    countLoop fuel ⟨rest, false⟩ (nl + lines.length) := by
  induction lines generalizing nl with
  | nil => simp
  | cons line lines ih =>
    obtain ⟨text, rfl, plain⟩ := terminated line List.mem_cons_self
    have reads : fgets lineLen ⟨text ++ [newline] ++ (lines.flatten ++ rest), false⟩ =
        (⟨lines.flatten ++ rest, false⟩, some (text ++ [newline])) := fgets_line plain (short _ List.mem_cons_self)
    have rounds : ((text ++ [newline]) :: lines).length + fuel = lines.length + fuel + 1 := by
      rw [List.length_cons]
      omega
    rw [rounds, List.flatten_cons, List.append_assoc, countLoop_succ rfl reads]
    simp only [Bool.false_eq_true, if_false]
    rw [ih (fun line member => terminated line (List.mem_cons_of_mem _ member))
      fun line member => short line (List.mem_cons_of_mem _ member)]
    congr 1
    rw [List.length_cons]
    omega

/-- The second loop goes through terminated lines. -/
private theorem readLoop_lines (fuel : ℕ) (line : Line) (index : ℕ) (r : Requests) :
    readLoop (lines.length + fuel) ⟨lines.flatten ++ rest, false⟩ line index r =
      readLoop fuel ⟨rest, false⟩ (lines.getLastD line) (addLines lines index r).1 (addLines lines index r).2 := by
  induction lines generalizing line index r with
  | nil => simp [addLines]
  | cons first lines ih =>
    obtain ⟨text, rfl, plain⟩ := terminated first List.mem_cons_self
    have reads : fgets lineLen ⟨text ++ [newline] ++ (lines.flatten ++ rest), false⟩ =
        (⟨lines.flatten ++ rest, false⟩, some (text ++ [newline])) := fgets_line plain (short _ List.mem_cons_self)
    have rounds : ((text ++ [newline]) :: lines).length + fuel = lines.length + fuel + 1 := by
      rw [List.length_cons]
      omega
    rw [rounds, List.flatten_cons, List.append_assoc, readLoop_succ rfl reads]
    rw [ih (fun line member => terminated line (List.mem_cons_of_mem _ member))
      fun line member => short line (List.mem_cons_of_mem _ member)]
    rw [← addLines_append, Option.getD_some, List.singleton_append]
    congr 1
    exact (List.getLastD_cons ..).symm

end Lines

section Outcome

variable (w : Workload)

/-- The lines that are parsed: the end of the file is seen by a read that takes the last line, or by one that takes
nothing and leaves the line before in the buffer. -/
def Workload.passes (line : Line) : List Line :=
  w.lines ++ if w.tail = [] then [w.lines.getLastD line] else if w.tail.length + 1 = lineLen then [w.tail, w.tail]
    else [w.tail]

private theorem length_le_flatten {lines : List Line} (some : ∀ line ∈ lines, line ≠ []) :
    lines.length ≤ lines.flatten.length := by
  induction lines with
  | nil => rfl
  | cons line lines ih =>
    have first := List.length_pos_iff.mpr (some line List.mem_cons_self)
    have rest := ih fun line member => some line (List.mem_cons_of_mem _ member)
    rw [List.length_cons, List.flatten_cons, List.length_append]
    omega

/-- A terminated line has a byte. -/
theorem Workload.length_le : w.lines.length + w.tail.length ≤ w.file.length := by
  rw [Workload.file, List.length_append, Nat.add_le_add_iff_right]
  refine length_le_flatten fun line member => ?_
  obtain ⟨text, rfl, _⟩ := w.terminated line member
  simp

private theorem Workload.countLines_eq : countLines w.file = w.lines.length + if w.tail.length + 1 = lineLen then 1 else 0 := by
  have length := w.length_le
  obtain ⟨fuel, rounds⟩ : ∃ fuel, w.file.length + 1 = w.lines.length + (fuel + w.tail.length + 1) :=
    ⟨w.file.length - w.lines.length - w.tail.length, by omega⟩
  rw [countLines, rounds, Stream.start, Workload.file, countLoop_lines w.terminated w.short, Nat.zero_add]
  by_cases none : w.tail = []
  · rw [none, countLoop_succ rfl (fgets_end (by decide))]
    simp [lineLen]
  · rcases (show w.tail.length + 1 < lineLen ∨ w.tail.length + 1 = lineLen by have := w.short_tail; omega) with part
      | full
    · rw [countLoop_succ rfl (fgets_tail w.unterminated none part), if_neg part.ne]
      simp
    · obtain ⟨more, again⟩ : ∃ more, fuel + w.tail.length = more + 1 :=
        ⟨fuel + w.tail.length - 1, by simp only [lineLen] at full; omega⟩
      rw [countLoop_succ rfl (fgets_full w.unterminated none full), again, if_pos full]
      simp only [Bool.false_eq_true, if_false]
      rw [countLoop_succ rfl (fgets_end (by decide))]
      simp

theorem Workload.readLoop_eq (line : Line) (r : Requests) :
    readLoop (w.file.length + 1) (.start w.file) line 0 r = addLines (w.passes line) 0 r := by
  have length := w.length_le
  obtain ⟨fuel, rounds⟩ : ∃ fuel, w.file.length + 1 = w.lines.length + (fuel + w.tail.length + 1) :=
    ⟨w.file.length - w.lines.length - w.tail.length, by omega⟩
  rw [rounds, Stream.start, Workload.file, readLoop_lines w.terminated w.short, Workload.passes, addLines_append]
  generalize (addLines w.lines 0 r).1 = index
  generalize (addLines w.lines 0 r).2 = r
  by_cases none : w.tail = []
  · rw [if_pos none, none, readLoop_succ rfl (fgets_end (by decide)), readLoop_eof, Option.getD_none]
  · rw [if_neg none]
    rcases (show w.tail.length + 1 < lineLen ∨ w.tail.length + 1 = lineLen by have := w.short_tail; omega) with part
      | full
    · rw [if_neg part.ne, readLoop_succ rfl (fgets_tail w.unterminated none part), readLoop_eof, Option.getD_some]
    · obtain ⟨more, again⟩ : ∃ more, fuel + w.tail.length = more + 1 :=
        ⟨fuel + w.tail.length - 1, by simp only [lineLen] at full; omega⟩
      rw [if_pos full, readLoop_succ rfl (fgets_full w.unterminated none full), again,
        readLoop_succ rfl (fgets_end (by decide)), readLoop_eof, Option.getD_some, Option.getD_none, ← addLines_append]
      rfl

private theorem Workload.readInputFiles_eq (line : Line) (elem : ℕ → Request) : readInputFiles w.file line elem =
    ⟨w.lines.length + (if w.tail.length + 1 = lineLen then 1 else 0), (addLines (w.passes line) 0 ⟨elem, []⟩).1,
      (addLines (w.passes line) 0 ⟨elem, []⟩).2⟩ := by
  rw [readInputFiles, w.countLines_eq, w.readLoop_eq]

private theorem parsed_append (front back : List Line) : parsed (front ++ back) = parsed front ++ parsed back :=
    List.filterMap_append

private theorem length_parsed_le (lines : List Line) : (parsed lines).length ≤ lines.length := List.length_filterMap_le ..

private theorem parsed_singleton_eq_nil {line : Line} : parsed [line] = [] ↔ lineRequest line = none := by
  cases valid : lineRequest line <;> simp [parsed, valid]

private theorem length_parsed_singleton {line : Line} (valid : lineRequest line ≠ none) : (parsed [line]).length = 1 := by
  obtain ⟨req, eq⟩ := Option.ne_none_iff_exists'.mp valid
  simp [parsed, eq]

/-- Where there are as many requests as lines, all lines are valid. -/
private theorem valid_of_length (lines : List Line) (all : (parsed lines).length = lines.length) (line : Line)
    (member : line ∈ lines) : lineRequest line ≠ none := by
  intro invalid
  obtain ⟨front, back, rfl⟩ := List.append_of_mem member
  have first := length_parsed_le front
  have last := length_parsed_le back
  rw [parsed_append, parsed_cons, parsed_singleton_eq_nil.mpr invalid] at all
  simp only [List.length_append, List.length_cons, List.length_nil] at all
  omega

/-- A valid line begins like a request. -/
private theorem begins_of_valid {line : Line} (valid : lineRequest line ≠ none) : Begins line := by
  by_contra other
  apply valid
  rw [Begins] at other
  rw [lineRequest]
  generalize strtok 32 (cString line) = toks at other
  rcases toks with _ | ⟨tok, _ | ⟨key, rest⟩⟩
  · rfl
  · rfl
  · simp only [List.head?_cons, Option.some.injEq, not_or] at other
    simp only [if_neg other.1, if_neg other.2]

/-- When the array is loaded as it should be. The file is empty, and what is in the line buffer does not begin like a
request; or the last line is unterminated and does not fill the buffer, just one line of the file is invalid, and if
it is the last, it does not begin like a request. -/
def Workload.Matched (line : Line) : Prop :=
  w.lines = [] ∧ w.tail = [] ∧ ¬ Begins line ∨
    w.tail ≠ [] ∧ w.tail.length + 1 < lineLen ∧ w.requests.length = w.lines.length ∧
      (lineRequest w.tail = none → ¬ Begins w.tail)

/-- The end of the file is seen by a read that takes nothing. -/
private theorem Workload.loaded_nil (none : w.tail = []) (line : Line) (elem : ℕ → Request) :
    w.Loaded (readInputFiles w.file line elem) ↔ w.lines = [] ∧ ¬ Begins line := by
  have added := addLines_added (w.passes line) 0 ⟨elem, []⟩
  have passes : w.passes line = w.lines ++ [w.lines.getLastD line] := by rw [Workload.passes, if_pos none]
  have requests : w.requests = parsed w.lines := by rw [Workload.requests, Workload.all, if_pos none, parsed]
  rw [w.readInputFiles_eq, none, if_neg (by decide), Nat.add_zero]
  rw [passes] at added ⊢
  generalize addLines (w.lines ++ [w.lines.getLastD line]) 0 ⟨elem, []⟩ = out at added ⊢
  constructor
  · intro loaded
    have index := loaded.index
    have count := loaded.count
    dsimp only at index count
    have next := added.next
    rw [parsed_append, List.length_append] at next
    rw [requests] at index
    have last : parsed [w.lines.getLastD line] = [] := List.length_eq_zero_iff.mp (by omega)
    rw [parsed_singleton_eq_nil] at last
    have empty : w.lines = [] := by
      by_contra some
      refine valid_of_length w.lines (by omega) _ ?_ last
      rw [List.getLastD_eq_getLast?, List.getLast?_eq_getLast_of_ne_nil some]
      exact List.getLast_mem some
    refine ⟨empty, fun begins => ?_⟩
    have written := loaded.inside 0 ((added.written 0).mpr (.inr ⟨[], w.lines.getLastD line, [], ?_⟩))
    · rw [empty] at written
      exact Nat.not_lt_zero _ written
    · simp [empty, begins, parsed]
  · rintro ⟨empty, quiet⟩
    have invalid : lineRequest line = .none := by
      by_contra valid
      exact quiet (begins_of_valid valid)
    rw [empty, List.getLastD_nil, List.nil_append] at added
    have next := added.next
    rw [parsed_singleton_eq_nil.mpr invalid] at next
    rw [empty] at requests
    refine ⟨?_, ?_, ?_, ?_⟩
    · rw [requests]
      exact next
    · intro i req found
      rw [requests] at found
      simp [parsed] at found
    · intro i written
      rcases (added.written i).mp written with old | ⟨front, other, back, eq, begins, _⟩
      · cases old
      · obtain rfl : line = other := by
          cases front <;> simp_all
        exact (quiet begins).elim
    · rw [empty]
      exact next.symm

/-- The end of the file is seen by the read that takes the last line. -/
private theorem Workload.loaded_tail (some : w.tail ≠ []) (part : w.tail.length + 1 < lineLen) (line : Line)
    (elem : ℕ → Request) :
    w.Loaded (readInputFiles w.file line elem) ↔
      w.requests.length = w.lines.length ∧ (lineRequest w.tail = none → ¬ Begins w.tail) := by
  have added := addLines_added (w.passes line) 0 ⟨elem, []⟩
  have passes : w.passes line = w.lines ++ [w.tail] := by rw [Workload.passes, if_neg some, if_neg part.ne]
  have requests : w.requests = parsed (w.lines ++ [w.tail]) := by
    rw [Workload.requests, Workload.all, if_neg some, parsed]
  rw [w.readInputFiles_eq, if_neg part.ne, Nat.add_zero]
  rw [passes] at added ⊢
  generalize addLines (w.lines ++ [w.tail]) 0 ⟨elem, []⟩ = out at added ⊢
  have next : out.1 = w.requests.length := by rw [added.next, Nat.zero_add, requests]
  have split : w.requests.length = (parsed w.lines).length + (parsed [w.tail]).length := by
    rw [requests, parsed_append, List.length_append]
  constructor
  · intro loaded
    have count : w.lines.length = out.1 := loaded.count
    refine ⟨by omega, fun invalid begins => ?_⟩
    have inside := loaded.inside _ ((added.written _).mpr (.inr ⟨w.lines, w.tail, [], rfl, begins, rfl⟩))
    rw [parsed_singleton_eq_nil.mpr invalid, List.length_nil] at split
    dsimp only at inside
    omega
  · rintro ⟨one, quiet⟩
    refine ⟨next, ?_, ?_, by rw [next, one]⟩
    · intro i req found
      rw [requests] at found
      have stored := added.stored i req found
      rwa [Nat.zero_add] at stored
    · intro i written
      rcases (added.written i).mp written with old | ⟨front, other, back, eq, begins, rfl⟩
      · cases old
      · dsimp only
        have few := length_parsed_le front
        have length := congrArg List.length eq
        simp only [List.length_append, List.length_cons, List.length_nil] at length
        rcases List.eq_nil_or_concat back with rfl | ⟨back, last, rfl⟩
        · -- the last line, which is valid, so that an invalid one is among those before it
          obtain ⟨rfl, same⟩ := List.append_inj' eq rfl
          obtain rfl : w.tail = other := (List.cons.inj same).1
          have valid : lineRequest w.tail ≠ none := fun invalid => quiet invalid begins
          rw [length_parsed_singleton valid] at split
          omega
        · simp only [List.concat_eq_append, List.length_append, List.length_singleton] at length
          omega

/-- The last line fills the buffer and is parsed twice. -/
private theorem Workload.not_loaded_full (some : w.tail ≠ []) (full : w.tail.length + 1 = lineLen) (line : Line)
    (elem : ℕ → Request) :
    ¬ w.Loaded (readInputFiles w.file line elem) := by
  intro loaded
  have added := addLines_added (w.passes line) 0 ⟨elem, []⟩
  have passes : w.passes line = w.lines ++ [w.tail, w.tail] := by rw [Workload.passes, if_neg some, if_pos full]
  have requests : w.requests = parsed (w.lines ++ [w.tail]) := by
    rw [Workload.requests, Workload.all, if_neg some, parsed]
  have index := loaded.index
  have count := loaded.count
  have next := added.next
  have few := length_parsed_le w.lines
  rw [w.readInputFiles_eq, if_pos full] at index count
  dsimp only at index count
  rw [passes, parsed_append, parsed_cons, List.length_append, List.length_append] at next
  rw [requests, parsed_append, List.length_append] at index
  rw [passes] at index count
  omega

/-- For every file of lines that fit into the buffer: the array is as long as the file has valid lines and holds their
requests in order, without a write behind its end, if and only if the file is one of the few described above. -/
theorem readInputFiles_loaded_iff (line : Line) (elem : ℕ → Request) :
    w.Loaded (readInputFiles w.file line elem) ↔ w.Matched line := by
  rw [Workload.Matched]
  by_cases none : w.tail = []
  · rw [w.loaded_nil none]
    simp [none]
  · rcases (show w.tail.length + 1 < lineLen ∨ w.tail.length + 1 = lineLen by have := w.short_tail; omega) with part
      | full
    · rw [w.loaded_tail none part]
      simp [none, part]
    · refine iff_of_false (w.not_loaded_full none full line elem) ?_
      rintro (⟨_, empty, _⟩ | ⟨_, part, _⟩)
      · exact none empty
      · exact part.ne full

end Outcome

/-- The line `get 1`. -/
def oneLine : Workload where
  lines := [[103, 101, 116, 32, 49, 10]]
  tail := []
  terminated := by
    intro line member
    obtain rfl := List.mem_singleton.mp member
    exact ⟨[103, 101, 116, 32, 49], rfl, by decide⟩
  unterminated := by decide
  short := by decide
  short_tail := by decide

/-- The one line is read into an array of one element as two requests, the second behind its end. -/
theorem oneLine_twice : (readInputFiles oneLine.file [] fun _ => ⟨0, 0, .get⟩).numRequests = 1 ∧
    1 ∈ (readInputFiles oneLine.file [] fun _ => ⟨0, 0, .get⟩).requests.written ∧
    ¬ oneLine.Loaded (readInputFiles oneLine.file [] fun _ => ⟨0, 0, .get⟩) := by
  refine ⟨by decide +kernel, by decide +kernel, fun loaded => ?_⟩
  have twice : (readInputFiles oneLine.file [] fun _ => ⟨0, 0, .get⟩).index = 2 := by decide +kernel
  have once : oneLine.requests.length = 1 := by decide +kernel
  have index := loaded.index
  rw [twice, once] at index
  cases index

end Cs537.KvStore
