import Cs537.Sh.Parse
import Mathlib.Data.List.DropRight

/-! # The tokens of a command line

The line as the list of its tokens, and what `peek` and `gettoken` see of the list.
-/

namespace Cs537.Sh

/-- A symbol, with `+` for two `>`, or a word. -/
inductive Tok
  | sym (c : Char)
  | word (w : Word)
  deriving DecidableEq

def Tok.of (kind : Char) (w : Word) : Tok := if kind = 'a' then .word w else .sym kind

def lexFuel : ℕ → Ptr → List Tok
  | 0, _ => []
  | fuel + 1, s =>
    let q := skip s
    if (token q).1 = nul then [] else Tok.of (token q).1 ⟨q, (token q).2⟩ :: lexFuel fuel (skip (token q).2)

/-- The tokens from a pointer on. -/
def lex (s : Ptr) : List Tok := lexFuel s.length s

/-- The first character of a symbol, and `a` for a word. -/
def Tok.head : Tok → Char
  | .sym c => if c = '+' then '>' else c
  | .word _ => 'a'

/-- Whether the first token is one of some symbols. -/
def starts (toks : List Char) : List Tok → Bool
  | [] => false
  | t :: _ => toks.contains t.head

variable {s s' : Ptr} {w : Word} {kind c : Char} {toks : List Char}

private theorem skip_skip (s : Ptr) : skip (skip s) = skip s := List.dropWhile_idempotent _ _

theorem skip_length (s : Ptr) : (skip s).length ≤ s.length := (List.dropWhile_suffix _).length_le

private theorem head_skip {rest : Ptr} (first : skip s = c :: rest) : whitespace.contains c = false := by
  have stop := List.head?_dropWhile_not whitespace.contains s
  rw [show s.dropWhile whitespace.contains = c :: rest from first] at stop
  simpa using stop

/-- The ways in which a token begins. -/
theorem token_cases (s : Ptr) :
    deref s = nul ∧ token s = (nul, s) ∨
    (∃ c rest, s = c :: rest ∧ c ∈ ['|', '(', ')', ';', '&', '<'] ∧ token s = (c, rest)) ∨
    (∃ rest, s = '>' :: '>' :: rest ∧ token s = ('+', rest)) ∨
    (∃ rest, s = '>' :: rest ∧ (∀ rest', rest ≠ '>' :: rest') ∧ token s = ('>', rest)) ∨
    (∃ c rest, s = c :: rest ∧ c ≠ nul ∧ symbols.contains c = false ∧ token s = ('a', s.dropWhile inWord)) := by
  cases s with
  | nil => exact .inl ⟨rfl, rfl⟩
  | cons c rest =>
    by_cases zero : c = nul
    · exact .inl ⟨zero, by rw [token, if_pos zero]⟩
    by_cases symbol : c ∈ ['|', '(', ')', ';', '&', '<']
    · exact .inr (.inl ⟨c, rest, rfl, symbol, by rw [token, if_neg zero, if_pos symbol]⟩)
    by_cases greater : c = '>'
    · subst greater
      by_cases twice : ∃ rest', rest = '>' :: rest'
      · obtain ⟨rest', rfl⟩ := twice
        exact .inr (.inr (.inl ⟨rest', rfl, rfl⟩))
      · refine .inr (.inr (.inr (.inl ⟨rest, rfl, fun rest' same => twice ⟨rest', same⟩, ?_⟩)))
        rw [token, if_neg zero, if_neg symbol, if_pos rfl, greater]
        exact fun rest' same => twice ⟨rest', same⟩
    · refine .inr (.inr (.inr (.inr ⟨c, rest, rfl, zero, ?_, by rw [token, if_neg zero, if_neg symbol, if_neg greater]⟩)))
      simp only [List.mem_cons, List.not_mem_nil, or_false, not_or] at symbol
      simp [symbols, symbol, greater]

/-- The first character behind white space begins a word if it is no symbol. -/
theorem inWord_head {rest : Ptr} (first : skip s = c :: rest) (plain : symbols.contains c = false) : inWord c = true := by
  rw [inWord, head_skip first, plain]
  rfl

theorem token_shorter (some : (token (skip s)).1 ≠ nul) : (token (skip s)).2.length < (skip s).length := by
  rcases token_cases (skip s) with ⟨_, same⟩ | ⟨c, rest, split, _, same⟩ | ⟨rest, split, same⟩ | ⟨rest, split, _, same⟩ |
    ⟨c, rest, split, _, plain, same⟩
  · rw [same] at some
    exact absurd rfl some
  · rw [same, split]
    exact Nat.lt_succ_self _
  · rw [same, split]
    exact Nat.lt_succ_of_lt (Nat.lt_succ_self _)
  · rw [same, split]
    exact Nat.lt_succ_self _
  · rw [same, split, List.dropWhile_cons_of_pos (inWord_head split plain)]
    exact Nat.lt_succ_of_le (List.dropWhile_suffix _).length_le

private theorem lexFuel_enough {n m : ℕ} (one : s.length ≤ n) (two : s.length ≤ m) : lexFuel n s = lexFuel m s := by
  have nothing : ∀ k, lexFuel k [] = [] := fun k => by cases k <;> rfl
  induction n generalizing m s with
  | zero =>
    obtain rfl := List.length_eq_zero_iff.mp (Nat.le_zero.mp one)
    rw [nothing, nothing]
  | succ n ih =>
    cases m with
    | zero =>
      obtain rfl := List.length_eq_zero_iff.mp (Nat.le_zero.mp two)
      rw [nothing, nothing]
    | succ m =>
      rw [lexFuel, lexFuel]
      split_ifs with none
      · rfl
      · have shorter := token_shorter none
        have skipped := skip_length s
        have again := skip_length (token (skip s)).2
        rw [ih (m := m) (by omega) (by omega)]

/-- The first token and the others. -/
theorem lex_eq (s : Ptr) : lex s =
    if (token (skip s)).1 = nul then []
    else Tok.of (token (skip s)).1 ⟨skip s, (token (skip s)).2⟩ :: lex (skip (token (skip s)).2) := by
  rw [lex, lexFuel_enough (m := s.length + 1) (Nat.le_refl _) (Nat.le_succ _), lexFuel]
  split_ifs with none
  · rfl
  · have shorter := token_shorter none
    have skipped := skip_length s
    have again := skip_length (token (skip s)).2
    rw [lex, lexFuel_enough (m := (skip (token (skip s)).2).length) (by omega) (Nat.le_refl _)]

theorem lex_skip (s : Ptr) : lex (skip s) = lex s := by
  rw [lex_eq, lex_eq s, skip_skip]

theorem lex_length (s : Ptr) : (lex s).length ≤ s.length := by
  have bounded : ∀ n (s : Ptr), (lexFuel n s).length ≤ n := by
    intro n
    induction n with
    | zero => exact fun _ => Nat.le_refl 0
    | succ n ih =>
      intro s
      rw [lexFuel]
      split_ifs
      · exact Nat.zero_le _
      · exact Nat.succ_le_succ (ih _)
  exact bounded s.length s

/-- `gettoken` returns the first token. -/
theorem gettoken_eq (s : Ptr) : ∃ kind w s', gettoken s = some (.ok ((kind, w), s')) ∧
    (kind = nul ∧ lex s = [] ∧ lex s' = [] ∨ kind ≠ nul ∧ lex s = Tok.of kind w :: lex s') := by
  refine ⟨(token (skip s)).1, ⟨skip s, (token (skip s)).2⟩, skip (token (skip s)).2, rfl, ?_⟩
  rw [lex_eq s]
  split_ifs with none
  · refine .inl ⟨none, rfl, ?_⟩
    rcases token_cases (skip s) with ⟨_, same⟩ | ⟨c, rest, _, symbol, same⟩ | ⟨rest, _, same⟩ | ⟨rest, _, _, same⟩ |
      ⟨c, rest, _, _, _, same⟩
    · rw [same, lex_skip, lex_skip, lex_eq, if_pos none]
    · rw [same] at none
      have zero : c = nul := none
      rw [zero] at symbol
      exact absurd symbol (by decide)
    · rw [same] at none
      exact absurd (show '+' = nul from none) (by decide)
    · rw [same] at none
      exact absurd (show '>' = nul from none) (by decide)
    · rw [same] at none
      exact absurd (show 'a' = nul from none) (by decide)
  · exact .inr ⟨none, rfl⟩

/-- `peek` looks at the first token. -/
theorem peek_eq (s : Ptr) (known : toks ⊆ symbols) :
    peek toks s = some (.ok (starts toks (lex s), skip s)) := by
  have absent : ∀ c, c ∉ symbols → toks.contains c = false := by
    intro c other
    rw [List.contains_eq_mem, decide_eq_false_iff_not]
    exact fun member => other (known member)
  rw [peek]
  congr 3
  rw [lex_eq s]
  rcases token_cases (skip s) with ⟨zero, same⟩ | ⟨c, rest, split, symbol, same⟩ | ⟨rest, split, same⟩
    | ⟨rest, split, _, same⟩ |
    ⟨c, rest, split, zero, plain, same⟩
  · rw [same, zero, if_pos rfl, starts, bne_self_eq_false, Bool.false_and]
  · have others : c ≠ nul ∧ c ≠ 'a' ∧ c ≠ '+' := by
      refine ⟨?_, ?_, ?_⟩ <;> rintro rfl <;> exact absurd symbol (by decide)
    rw [same, split, if_neg others.1, deref, List.headD_cons, Tok.of, if_neg others.2.1, starts, Tok.head,
      if_neg others.2.2,
      bne_iff_ne.mpr others.1, Bool.true_and]
  · rw [same, split]
    rfl
  · rw [same, split]
    rfl
  · have other : c ∉ symbols := by
      rw [List.contains_eq_mem, decide_eq_false_iff_not] at plain
      exact plain
    rw [same, split, deref, List.headD_cons, absent c other, Bool.and_false, if_neg (show 'a' ≠ nul by decide)]
    exact (absent 'a' (by decide)).symm

end Cs537.Sh
