import Cs537.User.Grep
import Mathlib.Data.List.Basic

/-! # The lines that `grep` prints

The loop of `grep` reads what there is into what is left of its buffer, prints the lines in it that match and keeps
the beginning of the next line. It keeps nothing when the buffer has no newline, so that a line that comes in parts
may lose its first ones.
-/

namespace Cs537.User.Grep

def nul : Char := '\x00'

def newline : Char := '\n'

/-- `sizeof(buf)`. -/
def bufsize : ℕ := 1024

/-- `strchr`: what is before the first such character of the string, and what is behind it. -/
def strchr (c : Char) : List Char → Option (List Char × List Char)
  | [] => none
  | d :: rest => if d = c then some ([], rest) else if d = nul then none
      else (strchr c rest).map (Prod.map (List.cons d) id)

/-- The inner loop of `grep`: what it writes, and the buffer from `p` on. There are no more lines than characters. -/
def scan (re : List Char) : ℕ → List Char → List Char × List Char
  | 0, p => ([], p)
  | fuel + 1, p => match strchr newline p with
    | none => ([], p)
    | some (line, rest) => ((if match_ re line then line ++ [newline] else []) ++ (scan re fuel rest).1,
        (scan re fuel rest).2)

/-- `grep`, of an input of which each read gets so many characters if there is space for them, with the
buffer up to `m`. -/
def grep (re : List Char) : List ℕ → List Char → List Char → List Char
  | [], _, _ => []
  | k :: ks, kept, input =>
    let got := input.take (min k (bufsize - kept.length - 1))
    if got = [] then []
    else
      let buf := kept ++ got
      let p := (scan re buf.length buf).2
      (scan re buf.length buf).1 ++ grep re ks (if p.length = buf.length then [] else p) (input.drop got.length)

/-- The lines of a text. -/
def lines (s : List Char) : List (List Char) := (s.splitOn newline).dropLast

/-- What is behind the last line. -/
def remainder (s : List Char) : List Char := (s.splitOn newline).getLast (List.splitOn_ne_nil _ _)

/-- The lines that match. -/
def printed (re s : List Char) : List Char := ((lines s).filter (match_ re)).flatMap (· ++ [newline])

variable {re line rest s a b p kept input : List Char} {ks : List ℕ} {k : ℕ}

private theorem splitOn_line (whole : newline ∉ line) :
    (line ++ newline :: rest).splitOn newline = line :: rest.splitOn newline := by
  rw [List.splitOn_append_cons_self, List.splitOn_eq_singleton whole, List.singleton_append]

private theorem lines_line (whole : newline ∉ line) : lines (line ++ newline :: rest) = line :: lines rest := by
  rw [lines, splitOn_line whole, List.dropLast_cons_of_ne_nil (List.splitOn_ne_nil _ _), lines]

private theorem remainder_line (whole : newline ∉ line) : remainder (line ++ newline :: rest) = remainder rest := by
  simp only [remainder, splitOn_line whole, List.getLast_cons (List.splitOn_ne_nil _ _)]

private theorem lines_none (whole : newline ∉ s) :
    lines s = [] := by rw [lines, List.splitOn_eq_singleton whole, List.dropLast_singleton]

private theorem remainder_none (whole : newline ∉ s) :
    remainder s = s := by simp only [remainder, List.splitOn_eq_singleton whole, List.getLast_singleton]

/-- A text has a first line or none. -/
theorem first_line (s : List Char) : newline ∉ s ∨ ∃ line rest, s = line ++ newline :: rest ∧ newline ∉ line := by
  by_cases member : newline ∈ s
  · exact .inr (List.eq_append_cons_of_mem member)
  · exact .inl member

/-- Induction over the lines of a text. -/
theorem lines_induction {motive : List Char → Prop} (last : ∀ s, newline ∉ s → motive s)
    (next : ∀ line rest, newline ∉ line → motive rest → motive (line ++ newline :: rest)) (s : List Char) : motive s := by
  rcases first_line s with none | ⟨line, rest, rfl, whole⟩
  · exact last s none
  · exact next line rest whole (lines_induction last next rest)
  termination_by s.length
  decreasing_by
    subst_vars
    rw [List.length_append, List.length_cons]
    omega

/-- The lines of a longer text. -/
theorem splitOn_append (a b : List Char) : (a ++ b).splitOn newline = lines a ++ (remainder a ++ b).splitOn newline := by
  induction a using lines_induction with
  | last s none => rw [lines_none none, remainder_none none, List.nil_append]
  | next line rest whole ih =>
    rw [List.append_assoc, List.cons_append, splitOn_line whole, ih, lines_line whole, remainder_line whole,
      List.cons_append]

private theorem lines_append (a b : List Char) : lines (a ++ b) = lines a ++ lines (remainder a ++ b) := by
  rw [lines, splitOn_append, List.dropLast_append_of_ne_nil (List.splitOn_ne_nil _ _), ← lines]

private theorem printed_append (re a b : List Char) : printed re (a ++ b) = printed re a ++ printed re (remainder a ++ b) := by
  rw [printed, lines_append, List.filter_append, List.flatMap_append]
  rfl

private theorem printed_none (whole : newline ∉ s) : printed re s = [] := by
  rw [printed, lines_none whole]
  rfl

private theorem printed_line (whole : newline ∉ line) :
    printed re (line ++ newline :: rest) = (if match_ re line then line ++ [newline] else []) ++ printed re rest := by
  rw [printed, lines_line whole, List.filter_cons]
  split_ifs with found
  · rw [List.flatMap_cons, printed]
  · rfl

private theorem remainder_plain (s : List Char) : newline ∉ remainder s := by
  induction s using lines_induction with
  | last s none => rwa [remainder_none none]
  | next line rest whole ih => rwa [remainder_line whole]

private theorem remainder_suffix (s : List Char) : remainder s <:+ s := by
  induction s using lines_induction with
  | last s none => simp only [remainder_none none, List.suffix_refl]
  | next line rest whole ih =>
    rw [remainder_line whole]
    exact ih.trans (List.suffix_append_of_suffix (List.suffix_cons newline rest))

/-- The buffer has no newline exactly when it is all kept. -/
theorem remainder_length (s : List Char) : (remainder s).length = s.length ↔ newline ∉ s := by
  constructor
  · intro same
    rw [← (remainder_suffix s).eq_of_length same]
    exact remainder_plain s
  · exact fun none => by rw [remainder_none none]

private theorem strchr_none (whole : newline ∉ s) : strchr newline s = none := by
  induction s with
  | nil => rfl
  | cons d s ih =>
    rw [List.mem_cons, not_or] at whole
    rw [strchr, if_neg (Ne.symm whole.1), ih whole.2, Option.map_none, ite_self]

private theorem strchr_line (whole : newline ∉ line) (plain : nul ∉ line) :
    strchr newline (line ++ newline :: rest) = some (line, rest) := by
  induction line with
  | nil => rw [List.nil_append, strchr, if_pos rfl]
  | cons d line ih =>
    rw [List.mem_cons, not_or] at whole plain
    rw [List.cons_append, strchr, if_neg (Ne.symm whole.1), if_neg (Ne.symm plain.1), ih whole.2 plain.2]
    rfl

private theorem scan_eq (plain : nul ∉ p) {fuel : ℕ} (enough : p.length ≤ fuel) :
    scan re fuel p = (printed re p, remainder p) := by
  induction p using lines_induction generalizing fuel with
  | last s none =>
    rw [printed_none none, remainder_none none]
    cases fuel with
    | zero => rfl
    | succ fuel => rw [scan, strchr_none none]
  | next line rest whole ih =>
    rw [List.length_append, List.length_cons] at enough
    rw [List.mem_append, List.mem_cons, not_or, not_or] at plain
    obtain ⟨fuel, rfl⟩ := Nat.exists_eq_add_of_le' (show 1 ≤ fuel by omega)
    rw [scan, strchr_line whole plain.1]
    dsimp only
    rw [ih plain.2.2 (by omega), remainder_line whole, printed_line whole]

/-- One round of `grep`. -/
theorem grep_cons (plain : nul ∉ kept ++ input) {got : List Char}
    (read : got = input.take (min k (bufsize - kept.length - 1))) (some : got ≠ []) :
    grep re (k :: ks) kept input = printed re (kept ++ got) ++
      grep re ks (if newline ∈ kept ++ got then remainder (kept ++ got) else []) (input.drop got.length) := by
  have clean : nul ∉ kept ++ got := by
    intro member
    apply plain
    rcases List.mem_append.mp member with old | new
    · exact List.mem_append_left _ old
    · rw [read] at new
      exact List.mem_append_right _ (List.mem_of_mem_take new)
  rw [grep, ← read, if_neg some]
  dsimp only
  rw [scan_eq clean (Nat.le_refl _)]
  dsimp only
  by_cases found : newline ∈ kept ++ got
  · rw [if_pos found, if_neg fun same => (remainder_length _).mp same found]
  · rw [if_neg found, if_pos ((remainder_length _).mpr found)]

/-- Reads that leave a newline in the buffer each time, as long as the input has more. -/
def Fed : List ℕ → List Char → List Char → Prop
  | [], _, _ => True
  | k :: ks, kept, input =>
    let got := input.take (min k (bufsize - kept.length - 1))
    let input := input.drop got.length
    if newline ∈ kept ++ got then Fed ks (remainder (kept ++ got)) input else newline ∉ input

private theorem grep_nil (re : List Char) (ks : List ℕ) (kept : List Char) : grep re ks kept [] = [] := by
  cases ks with
  | nil => rfl
  | cons k ks => rw [grep, List.take_nil, if_pos rfl]

private theorem match_nil (text : List Char) : match_ [] text = true := by
  cases text with
  | nil => rfl
  | cons c text => rfl

/-- What one read gets, with what is left of the input. -/
structure Round (k : ℕ) (kept input got rest : List Char) : Prop where
  read : got = input.take (min k (bufsize - kept.length - 1))
  split : got ++ rest = input
  some : got ≠ []
  fits : (kept ++ got).length < bufsize

/-- A read gets something, as long as there is something. -/
theorem round_of_read (positive : 0 < k) (space : kept.length + 1 < bufsize) (more : input ≠ []) :
    ∃ got rest, Round k kept input got rest ∧ rest = input.drop got.length := by
  have length := List.length_pos_iff.mpr more
  refine ⟨_, _, ⟨rfl, List.prefix_iff_eq_append.mp (List.take_prefix _ _), ?_, ?_⟩, rfl⟩
  · rw [← List.length_pos_iff, List.length_take]
    omega
  · rw [List.length_append, List.length_take]
    omega

/-- What goes on after a round. -/
structure Between (kept input : List Char) : Prop where
  plain : nul ∉ kept ++ input
  part : newline ∉ kept
  space : kept.length + 1 < bufsize

theorem Between.next {got rest : List Char} (between : Between kept input) (round : Round k kept input got rest)
    (found : newline ∈ kept ++ got) :
    Between (remainder (kept ++ got)) rest := by
  have whole : kept ++ input = (kept ++ got) ++ rest := by rw [List.append_assoc, round.split]
  have shorter : (remainder (kept ++ got)).length ≠ (kept ++ got).length := fun same => (remainder_length _).mp same found
  have suffix := (remainder_suffix (kept ++ got)).length_le
  have fits := round.fits
  refine ⟨fun member => ?_, remainder_plain _, by omega⟩
  apply between.plain
  rw [whole]
  rcases List.mem_append.mp member with old | new
  · exact List.mem_append_left _ ((remainder_suffix _).subset old)
  · exact List.mem_append_right _ new

theorem Between.drop {got rest : List Char} (between : Between kept input) (round : Round k kept input got rest) :
    Between [] rest := by
  refine ⟨fun member => ?_, List.not_mem_nil, by decide⟩
  apply between.plain
  rw [← round.split]
  exact List.mem_append_right _ (List.mem_append_right _ member)

/-- Without a newline, nothing is printed. -/
private theorem grep_no_line (between : Between [] input) (none : newline ∉ input) (some : ∀ k ∈ ks, 0 < k) :
    grep re ks [] input = [] := by
  induction ks generalizing input with
  | nil => rfl
  | cons k ks ih =>
    rcases eq_or_ne input [] with rfl | more
    · exact grep_nil re _ _
    obtain ⟨got, rest, round, left⟩ := round_of_read (some k List.mem_cons_self) between.space more
    rw [← round.split, List.mem_append, not_or] at none
    rw [grep_cons between.plain round.read round.some, ← left, List.nil_append, if_neg none.1, printed_none none.1,
      List.nil_append]
    exact ih (between.drop round) none.2 fun k member => some k (List.mem_cons_of_mem _ member)

/-- Reads that leave no line in parts lose nothing. -/
theorem grep_of_fed (re : List Char) (between : Between kept input) (some : ∀ k ∈ ks, 0 < k)
    (enough : input.length < ks.length)
    (fed : Fed ks kept input) : grep re ks kept input = printed re (kept ++ input) := by
  induction ks generalizing kept input with
  | nil => exact absurd enough (Nat.not_lt_zero _)
  | cons k ks ih =>
    rcases eq_or_ne input [] with rfl | more
    · rw [grep_nil, List.append_nil, printed_none between.part]
    obtain ⟨got, rest, round, left⟩ := round_of_read (some k List.mem_cons_self) between.space more
    have lengths := congrArg List.length round.split
    have positive := List.length_pos_iff.mpr round.some
    rw [List.length_append] at lengths
    rw [List.length_cons] at enough
    have later : ∀ k ∈ ks, 0 < k := fun k member => some k (List.mem_cons_of_mem _ member)
    have whole : kept ++ input = (kept ++ got) ++ rest := by rw [List.append_assoc, round.split]
    rw [Fed, ← round.read, ← left] at fed
    rw [grep_cons between.plain round.read round.some, ← left, whole]
    split_ifs at fed ⊢ with found
    · rw [ih (between.next round found) later (by omega) fed, ← printed_append]
    · rw [grep_no_line (between.drop round) fed later, printed_none found, printed_none]
      · rfl
      · exact fun member => (List.mem_append.mp member).elim found fed

/-- Reads that leave a line in parts lose its beginning, which the empty pattern shows. -/
private theorem grep_lossy (between : Between kept input) (some : ∀ k ∈ ks, 0 < k) :
    (grep [] ks kept input).length ≤ (printed [] (kept ++ input)).length ∧
      (¬ Fed ks kept input → (grep [] ks kept input).length < (printed [] (kept ++ input)).length) := by
  induction ks generalizing kept input with
  | nil => exact ⟨Nat.zero_le _, fun unfed => absurd trivial unfed⟩
  | cons k ks ih =>
    rcases eq_or_ne input [] with rfl | more
    · rw [grep_nil]
      refine ⟨Nat.zero_le _, fun unfed => absurd ?_ unfed⟩
      rw [Fed, List.take_nil, List.append_nil, if_neg between.part]
      exact List.not_mem_nil
    obtain ⟨got, rest, round, left⟩ := round_of_read (some k List.mem_cons_self) between.space more
    have positive := List.length_pos_iff.mpr round.some
    have later : ∀ k ∈ ks, 0 < k := fun k member => some k (List.mem_cons_of_mem _ member)
    have whole : kept ++ input = (kept ++ got) ++ rest := by rw [List.append_assoc, round.split]
    rw [Fed, ← round.read, ← left, grep_cons between.plain round.read round.some, ← left, whole, List.length_append]
    split_ifs with found
    · have behind := ih (between.next round found) later
      rw [printed_append [] (kept ++ got) rest, List.length_append]
      exact ⟨by omega, fun unfed => by have less := behind.2 unfed; omega⟩
    · have behind := ih (between.drop round) later
      rw [List.nil_append] at behind
      rw [printed_none found, List.length_nil, Nat.zero_add, not_not]
      -- the line that begins in this buffer ends in a later one, or nowhere
      rcases first_line rest with none | ⟨line, last, rfl, part⟩
      · rw [printed_none none] at behind
        exact ⟨Nat.le_trans behind.1 (Nat.zero_le _), fun member => absurd member none⟩
      · have joined : newline ∉ kept ++ got ++ line := fun member => (List.mem_append.mp member).elim found part
        rw [← List.append_assoc, printed_line joined, if_pos (match_nil _)]
        rw [printed_line part, if_pos (match_nil _)] at behind
        simp only [List.length_append] at behind ⊢
        exact ⟨by omega, fun _ => by omega⟩

/-- `grep` prints the lines that match, for every pattern, exactly if each read leaves a newline in the buffer while
there are more to come. -/
theorem grep_prints_iff (plain : nul ∉ input) (some : ∀ k ∈ ks, 0 < k) (enough : input.length < ks.length) :
    (∀ re, grep re ks [] input = printed re input) ↔ Fed ks [] input := by
  have start : Between [] input := ⟨plain, List.not_mem_nil, by decide⟩
  constructor
  · intro all
    by_contra unfed
    have less := (grep_lossy start some).2 unfed
    rw [all, List.nil_append] at less
    exact Nat.lt_irrefl _ less
  · exact fun fed re => grep_of_fed re start some enough fed

theorem grep_prints_iff_typed : (∀ re, grep re [2, 3, 9, 9, 9, 9, 9] [] ['a', newline, 'b', 'c', newline] =
    printed re ['a', newline, 'b', 'c', newline]) ↔ Fed [2, 3, 9, 9, 9, 9, 9] [] ['a', newline, 'b', 'c', newline] :=
  grep_prints_iff (by decide) (by decide) (by decide)

private theorem short_part (part : newline ∉ a) (short : ∀ line ∈ (a ++ b).splitOn newline, line.length + 1 < bufsize) :
    a.length + 1 < bufsize := by
  rcases first_line b with none | ⟨line, rest, rfl, whole⟩
  · have joined : newline ∉ a ++ b := fun member => (List.mem_append.mp member).elim part none
    rw [List.splitOn_eq_singleton joined] at short
    have bound := short _ (List.mem_singleton_self _)
    rw [List.length_append] at bound
    omega
  · have joined : newline ∉ a ++ line := fun member => (List.mem_append.mp member).elim part whole
    rw [← List.append_assoc, splitOn_line joined] at short
    have bound := short _ List.mem_cons_self
    rw [List.length_append] at bound
    omega

/-- Reads that get as much as there is space for. -/
private theorem fed_of_file (between : Between kept input)
    (short : ∀ line ∈ (kept ++ input).splitOn newline, line.length + 1 < bufsize)
    (full : ∀ k ∈ ks, bufsize ≤ k + 1) : Fed ks kept input := by
  induction ks generalizing kept input with
  | nil => trivial
  | cons k ks ih =>
    have wide := full k List.mem_cons_self
    rcases eq_or_ne input [] with rfl | more
    · rw [Fed, List.take_nil, List.append_nil, if_neg between.part]
      exact List.not_mem_nil
    obtain ⟨got, rest, round, left⟩ := round_of_read (show 0 < k by rw [bufsize] at wide; omega) between.space more
    have whole : kept ++ input = (kept ++ got) ++ rest := by rw [List.append_assoc, round.split]
    rw [Fed, ← round.read, ← left]
    rw [whole] at short
    split_ifs with found
    · refine ih (between.next round found) (fun line member => short line ?_) fun k member =>
        full k (List.mem_cons_of_mem _ member)
      rw [splitOn_append]
      exact List.mem_append_right _ member
    · have bound := short_part found short
      have length := congrArg List.length round.read
      rw [List.length_take] at length
      rw [List.length_append] at bound
      rw [left, List.drop_eq_nil_of_le (by omega)]
      exact List.not_mem_nil

/-- Of a file whose lines fit into the buffer, `grep` prints those that match. -/
theorem grep_file (re : List Char) (plain : nul ∉ input)
    (short : ∀ line ∈ input.splitOn newline, line.length + 1 < bufsize)
    (full : ∀ k ∈ ks, bufsize ≤ k + 1) (enough : input.length < ks.length) : grep re ks [] input = printed re input := by
  have start : Between [] input := ⟨plain, List.not_mem_nil, by decide⟩
  refine grep_of_fed re start (fun k member => ?_) enough (fed_of_file start short full)
  have wide := full k member
  rw [bufsize] at wide
  omega

theorem grep_file_two_lines : grep ['b'] (List.replicate 6 1023) [] ['a', newline, 'b', 'c', newline] =
    printed ['b'] ['a', newline, 'b', 'c', newline] := by
  refine grep_file ['b'] (by decide) (fun line member => ?_) (fun k member => ?_) (by decide)
  · have two : ['a', newline, 'b', 'c', newline].splitOn newline = [['a'], ['b', 'c'], []] := by decide
    rw [two] at member
    simp only [List.mem_cons, List.not_mem_nil, or_false] at member
    rcases member with rfl | rfl | rfl <;> decide
  · rw [List.eq_of_mem_replicate member]
    decide

end Cs537.User.Grep
