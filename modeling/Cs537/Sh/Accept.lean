import Cs537.Sh.Grammar

/-! # What the parser accepts

The parser has an answer for every command line. It accepts exactly the lines whose tokens the grammar
derives, with the command of the derivation.
-/

namespace Cs537.Sh

variable {s s' : Ptr} {c cmd ret : Cmd Word} {fuel argc : ℕ} {α β : Type} {ts : List Tok}

private theorem peek_ne_none (toks : List Char) (s : Ptr) : peek toks s ≠ none := Option.some_ne_none _

private theorem gettoken_ne_none (s : Ptr) : gettoken s ≠ none := Option.some_ne_none _

private theorem pure_ne_none {a : α} (s : Ptr) : (pure a : Parser α) s ≠ none := Option.some_ne_none _

private theorem panic_ne_none (text : String) (s : Ptr) : (panic text : Parser α) s ≠ none := Option.some_ne_none _

private theorem parseredirs_total (enough : (lex s).length < fuel) : parseredirs fuel cmd s ≠ none := by
  induction fuel generalizing cmd s with
  | zero => exact absurd enough (Nat.not_lt_zero _)
  | succ fuel ih =>
    rw [parseredirs]
    refine bind_ne_none (peek_ne_none _ s) fun more one peeked => ?_
    obtain ⟨rfl, same⟩ := after_peek (by decide) peeked
    split_ifs with here
    · refine bind_ne_none (gettoken_ne_none one) fun first two got => ?_
      rw [← same] at here
      obtain ⟨read, _⟩ := after_symbol (by decide) here got
      refine bind_ne_none (gettoken_ne_none two) fun second three got' => ?_
      dsimp only
      split_ifs
      · exact panic_ne_none _ _
      · apply ih
        rw [← same, read, List.length_cons] at enough
        rcases after_gettoken got' with ⟨_, _, none⟩ | ⟨_, read'⟩
        · rw [none, List.length_nil]
          omega
        · rw [read', List.length_cons] at enough
          omega
    · exact pure_ne_none _

private theorem parseargs_total (enough : (lex s).length < fuel) : parseargs fuel argc ret s ≠ none := by
  induction fuel generalizing argc ret s with
  | zero => exact absurd enough (Nat.not_lt_zero _)
  | succ fuel ih =>
    rw [parseargs]
    refine bind_ne_none (peek_ne_none _ s) fun stop one peeked => ?_
    obtain ⟨rfl, same⟩ := after_peek (by decide) peeked
    cases starts ['|', ')', '&', ';'] (lex s) with
    | true => exact pure_ne_none _
    | false =>
      rw [if_neg Bool.false_ne_true]
      refine bind_ne_none (gettoken_ne_none one) fun first two got => ?_
      dsimp only
      split_ifs with zero
      · exact pure_ne_none _
      · exact panic_ne_none _ _
      · exact panic_ne_none _ _
      · have shorter : (lex two).length < fuel := by
          rcases after_gettoken got with ⟨zero', _⟩ | ⟨_, read⟩
          · exact absurd zero' zero
          · rw [← same, read, List.length_cons] at enough
            omega
        refine bind_ne_none (parseredirs_total shorter) fun ret' three redirected => ?_
        obtain ⟨redirs, _, _, read, _⟩ := parseredirs_sound redirected
        rw [read, List.length_append] at shorter
        exact ih (by omega)

private theorem parsebacks_total (enough : (lex s).length < fuel) : parsebacks fuel cmd s ≠ none := by
  induction fuel generalizing cmd s with
  | zero => exact absurd enough (Nat.not_lt_zero _)
  | succ fuel ih =>
    rw [parsebacks]
    refine bind_ne_none (peek_ne_none _ s) fun more one peeked => ?_
    obtain ⟨rfl, same⟩ := after_peek (by decide) peeked
    split_ifs with here
    · refine bind_ne_none (gettoken_ne_none one) fun first two got => ?_
      rw [← same] at here
      obtain ⟨read, _⟩ := after_symbol (by decide) here got
      rw [← same, read, List.length_cons] at enough
      exact ih (by omega)
    · exact pure_ne_none _

private theorem parse_total (fuel : ℕ) :
    (∀ s, 4 * (lex s).length + 4 ≤ fuel → parseline fuel s ≠ none) ∧
    (∀ s, 4 * (lex s).length + 3 ≤ fuel → parsepipe fuel s ≠ none) ∧
      (∀ s, 4 * (lex s).length + 1 ≤ fuel → parseblock fuel s ≠ none) ∧
      ∀ s, 4 * (lex s).length + 2 ≤ fuel → parseexec fuel s ≠ none := by
  induction fuel with
  | zero =>
    refine ⟨?_, ?_, ?_, ?_⟩ <;> intro s enough <;> exact absurd enough (Nat.not_succ_le_zero _)
  | succ fuel ih =>
    obtain ⟨line, pipe, block, exec⟩ := ih
    refine ⟨?_, ?_, ?_, ?_⟩ <;> intro s enough
    · rw [parseline]
      refine bind_ne_none (pipe s (by omega)) fun one mid first => ?_
      obtain ⟨ts, read, _⟩ := (parse_sound fuel).2.1 s one mid first
      rw [read, List.length_append] at enough
      refine bind_ne_none (parsebacks_total (by omega)) fun two mid' backed => ?_
      obtain ⟨count, read', _⟩ := parsebacks_sound backed
      rw [read', List.length_append] at enough
      refine bind_ne_none (peek_ne_none _ mid') fun more peeked peek => ?_
      obtain ⟨rfl, same⟩ := after_peek (by decide) peek
      split_ifs with here
      · refine bind_ne_none (gettoken_ne_none peeked) fun t behind got => ?_
        rw [← same] at here
        have symbol := after_one (by decide) (by decide) here got
        rw [← same, symbol, List.length_cons] at enough
        exact bind_ne_none (line behind (by omega)) fun right last _ => pure_ne_none _
      · exact pure_ne_none _
    · rw [parsepipe]
      refine bind_ne_none (exec s (by omega)) fun one mid first => ?_
      obtain ⟨ts, read, _⟩ := (parse_sound fuel).2.2.2 s one mid first
      rw [read, List.length_append] at enough
      refine bind_ne_none (peek_ne_none _ mid) fun more peeked peek => ?_
      obtain ⟨rfl, same⟩ := after_peek (by decide) peek
      split_ifs with here
      · refine bind_ne_none (gettoken_ne_none peeked) fun t behind got => ?_
        rw [← same] at here
        have symbol := after_one (by decide) (by decide) here got
        rw [← same, symbol, List.length_cons] at enough
        exact bind_ne_none (pipe behind (by omega)) fun right last _ => pure_ne_none _
      · exact pure_ne_none _
    · rw [parseblock]
      refine bind_ne_none (peek_ne_none _ s) fun b peeked peek => ?_
      obtain ⟨rfl, same⟩ := after_peek (by decide) peek
      split_ifs with here
      · exact panic_ne_none _ _
      rw [Bool.not_eq_true', Bool.not_eq_false, ← same] at here
      refine bind_ne_none (gettoken_ne_none peeked) fun t inside got => ?_
      have symbol := after_one (by decide) (by decide) here got
      rw [← same, symbol, List.length_cons] at enough
      refine bind_ne_none (line inside (by omega)) fun cmd mid inner => ?_
      obtain ⟨ts, read, _⟩ := (parse_sound fuel).1 inside cmd mid inner
      rw [read, List.length_append] at enough
      refine bind_ne_none (peek_ne_none _ mid) fun b' peeked' peek' => ?_
      obtain ⟨rfl, same'⟩ := after_peek (by decide) peek'
      split_ifs with here'
      · exact panic_ne_none _ _
      rw [Bool.not_eq_true', Bool.not_eq_false, ← same'] at here'
      refine bind_ne_none (gettoken_ne_none peeked') fun t' behind got' => ?_
      have symbol' := after_one (by decide) (by decide) here' got'
      rw [← same', symbol', List.length_cons] at enough
      exact parseredirs_total (by omega)
    · rw [parseexec]
      refine bind_ne_none (peek_ne_none _ s) fun b peeked peek => ?_
      obtain ⟨rfl, same⟩ := after_peek (by decide) peek
      rw [← same] at enough
      split_ifs with here
      · exact block peeked (by omega)
      · refine bind_ne_none (parseredirs_total (by omega)) fun ret mid redirected => ?_
        obtain ⟨redirs, _, _, read, _⟩ := parseredirs_sound redirected
        rw [read, List.length_append] at enough
        exact parseargs_total (by omega)

private theorem lex_nil_iff (plain : ∀ c ∈ s, c ≠ nul) : lex s = [] ↔ skip s = [] := by
  constructor
  · intro none
    rw [lex_eq] at none
    split_ifs at none with zero
    rcases token_cases (skip s) with ⟨here, _⟩ | ⟨c, rest, split, symbol, same⟩ | ⟨rest, _, same⟩ | ⟨rest, _, _, same⟩ |
      ⟨c, rest, _, _, _, same⟩
    · cases split : skip s with
      | nil => rfl
      | cons c rest =>
        rw [split, deref, List.headD_cons] at here
        have member : c ∈ s := (List.dropWhile_suffix _).subset (show c ∈ skip s by rw [split]; exact List.mem_cons_self)
        exact absurd here (plain c member)
    · rw [same] at zero
      have absurd' : c = nul := zero
      rw [absurd'] at symbol
      exact absurd symbol (by decide)
    · rw [same] at zero
      exact absurd (show '+' = nul from zero) (by decide)
    · rw [same] at zero
      exact absurd (show '>' = nul from zero) (by decide)
    · rw [same] at zero
      exact absurd (show 'a' = nul from zero) (by decide)
  · intro none
    rw [← lex_skip, none]
    rfl

/-- A parser that leaves a part of what it was given. -/
def Reads (x : Parser α) : Prop := ∀ s a s', x s = some (.ok (a, s')) → s' <:+ s

theorem Reads.bind {x : Parser α} {f : α → Parser β} (first : Reads x) (second : ∀ a, Reads (f a)) : Reads (x >>= f) := by
  intro s b s' run
  obtain ⟨a, mid, one, two⟩ := bind_ok run
  exact (second a mid b s' two).trans (first s a mid one)

theorem Reads.pure (a : α) : Reads (pure a) := by
  intro s b s' run
  cases run
  exact List.suffix_refl s

theorem Reads.panic (text : String) : Reads (panic text : Parser α) := by
  intro s b s' run
  cases run

theorem Reads.outOfFuel : Reads (outOfFuel : Parser α) := by
  intro s b s' run
  cases run

theorem skip_suffix (s : Ptr) : skip s <:+ s := List.dropWhile_suffix _

theorem Reads.peek (toks : List Char) : Reads (peek toks) := by
  intro s b s' run
  cases run
  exact skip_suffix s

theorem token_suffix (s : Ptr) : (token s).2 <:+ s := by
  rcases token_cases s with ⟨_, same⟩ | ⟨c, rest, rfl, _, same⟩ | ⟨rest, rfl, same⟩ | ⟨rest, rfl, _, same⟩
    | ⟨c, rest, rfl, _, _, same⟩
  · simp only [same, List.suffix_refl]
  · rw [same]
    exact List.suffix_cons c rest
  · rw [same]
    exact (List.suffix_cons _ rest).trans (List.suffix_cons _ _)
  · rw [same]
    exact List.suffix_cons _ rest
  · rw [same]
    exact List.dropWhile_suffix _

theorem Reads.gettoken : Reads gettoken := by
  intro s t s' run
  cases run
  exact (skip_suffix _).trans ((token_suffix _).trans (skip_suffix s))

theorem Reads.parseredirs : Reads (parseredirs fuel cmd) := by
  induction fuel generalizing cmd with
  | zero => exact .outOfFuel
  | succ fuel ih =>
    rw [Sh.parseredirs]
    refine (Reads.peek _).bind fun more => ?_
    split_ifs
    · refine Reads.gettoken.bind fun first => Reads.gettoken.bind fun second => ?_
      dsimp only
      split_ifs
      · exact .panic _
      · exact ih
    · exact .pure _

theorem Reads.parseargs : Reads (parseargs fuel argc ret) := by
  induction fuel generalizing argc ret with
  | zero => exact .outOfFuel
  | succ fuel ih =>
    rw [Sh.parseargs]
    refine (Reads.peek _).bind fun stop => ?_
    cases stop with
    | true => exact .pure _
    | false =>
      refine Reads.gettoken.bind fun first => ?_
      dsimp only
      split_ifs
      · exact .pure _
      · exact .panic _
      · exact .panic _
      · exact Reads.parseredirs.bind fun _ => ih

theorem Reads.parsebacks : Reads (parsebacks fuel cmd) := by
  induction fuel generalizing cmd with
  | zero => exact .outOfFuel
  | succ fuel ih =>
    rw [Sh.parsebacks]
    refine (Reads.peek _).bind fun more => ?_
    split_ifs
    · exact Reads.gettoken.bind fun _ => ih
    · exact .pure _

theorem Reads.parse (fuel : ℕ) : Reads (parseline fuel) ∧ Reads (parsepipe fuel) ∧ Reads (parseblock fuel) ∧
    Reads (parseexec fuel) := by
  induction fuel with
  | zero =>
    refine ⟨?_, ?_, ?_, ?_⟩
    · rw [parseline]
      exact .outOfFuel
    · rw [parsepipe]
      exact .outOfFuel
    · rw [parseblock]
      exact .outOfFuel
    · rw [parseexec]
      exact .outOfFuel
  | succ fuel ih =>
    obtain ⟨line, pipe, block, exec⟩ := ih
    refine ⟨?_, ?_, ?_, ?_⟩
    · rw [parseline]
      refine pipe.bind fun _ => Reads.parsebacks.bind fun _ => (Reads.peek _).bind fun more => ?_
      split_ifs
      · exact Reads.gettoken.bind fun _ => line.bind fun _ => .pure _
      · exact .pure _
    · rw [parsepipe]
      refine exec.bind fun _ => (Reads.peek _).bind fun more => ?_
      split_ifs
      · exact Reads.gettoken.bind fun _ => pipe.bind fun _ => .pure _
      · exact .pure _
    · rw [parseblock]
      refine (Reads.peek _).bind fun b => ?_
      split_ifs
      · exact .panic _
      refine Reads.gettoken.bind fun _ => line.bind fun _ => (Reads.peek _).bind fun b => ?_
      split_ifs
      · exact .panic _
      · exact Reads.gettoken.bind fun _ => Reads.parseredirs
    · rw [parseexec]
      refine (Reads.peek _).bind fun b => ?_
      split_ifs
      · exact block
      · exact Reads.parseredirs.bind fun _ => Reads.parseargs

theorem line_plain (buf : List Char) : ∀ c ∈ line buf, c ≠ nul := fun c member => by
  have passed := List.mem_takeWhile_imp member
  exact of_decide_eq_true passed

/-- Without white space at its end, an accepted line has been read whole. -/
theorem accepts_iff (buf : List Char) (enough : 4 * buf.length + 4 ≤ fuel) :
    parsecmd fuel buf = some (.ok c) ↔ Derives .line (lex (line buf)) c := by
  have tokens := lex_length (line buf)
  have shorter : (line buf).length ≤ buf.length := (List.takeWhile_prefix _).length_le
  constructor
  · intro run
    rw [parsecmd] at run
    cases parsed : parseline fuel (line buf) with
    | none =>
      rw [parsed] at run
      cases run
    | some outcome =>
      cases outcome with
      | error e =>
        rw [parsed] at run
        cases run
      | ok result =>
        obtain ⟨cmd, s'⟩ := result
        rw [parsed] at run
        dsimp only at run
        split_ifs at run with left
        · cases run
        cases run
        obtain ⟨ts, read, derived⟩ := (parse_sound fuel).1 _ _ _ parsed
        have none : lex s' = [] := by
          rw [← lex_skip, not_not.mp left]
          rfl
        rw [none, List.append_nil] at read
        rw [read]
        exact derived
  · intro derived
    have room : 4 * (lex (line buf)).length + Level.extra .line ≤ fuel := by
      change 4 * _ + 4 ≤ fuel
      omega
    have follow : Follow Level.line.follow [] := .inl rfl
    obtain ⟨s', parsed, none⟩ := parse_complete derived (List.append_nil _).symm follow room
    have suffix := (Reads.parse fuel).1 _ _ _ parsed
    rw [parsecmd, show parseline fuel (line buf) = _ from parsed]
    dsimp only
    rw [if_neg]
    rw [not_not]
    exact (lex_nil_iff fun c member => line_plain buf c (suffix.subset member)).mp none

/-- The parser has an answer for every command line, and accepts a line with a command exactly when its
tokens derive the command. -/
theorem parsecmd_iff (buf : List Char) (enough : 4 * buf.length + 4 ≤ fuel) :
    parsecmd fuel buf ≠ none ∧ ∀ c, parsecmd fuel buf = some (.ok c) ↔ Derives .line (lex (line buf)) c := by
  refine ⟨?_, fun c => accepts_iff buf enough⟩
  have tokens := lex_length (line buf)
  have shorter : (line buf).length ≤ buf.length := (List.takeWhile_prefix _).length_le
  rw [parsecmd]
  cases parsed : parseline fuel (line buf) with
  | none => exact absurd parsed ((parse_total fuel).1 (line buf) (by omega))
  | some outcome =>
    cases outcome with
    | error e => exact Option.some_ne_none _
    | ok result =>
      dsimp only
      split_ifs
      · exact Option.some_ne_none _
      · exact Option.some_ne_none _

/-- `(a >b; c) &`, and what is left in the buffer behind it. -/
def echo : List Char := ['(', 'a', ' ', '>', 'b', ';', ' ', 'c', ')', ' ', '&', nul, 'x']

theorem parsecmd_echo : ∃ c, parsecmd 100 echo = some (.ok c) := by
  have success : ((parsecmd 100 echo).any fun r => r.toOption.isSome) = true := by
    decide +kernel
  obtain ⟨r, run, ok⟩ := (Option.any_eq_true _ _).mp success
  cases r with
  | error e => cases ok
  | ok c => exact ⟨c, run⟩

theorem parsecmd_iff_echo : ∃ c, parsecmd 100 echo = some (.ok c) ∧ Derives .line (lex (line echo)) c := by
  obtain ⟨c, run⟩ := parsecmd_echo
  exact ⟨c, run, ((parsecmd_iff echo (by decide)).2 c).mp run⟩

end Cs537.Sh
