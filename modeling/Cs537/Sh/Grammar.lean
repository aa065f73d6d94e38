import Cs537.Sh.Tokens
import Mathlib.Logic.Function.Iterate

/-! # The grammar of commands

A line is pipelines that are joined by `;`, each followed by any number of `&`; a pipeline is joined by `|`;
its parts are lines in parentheses with redirections, or words and redirections in any order, with fewer
than `MAXARGS` words. What a function of the parser returns is derived from the tokens that it has read, and
it reads tokens that derive a command if one of the symbols that may follow comes next.
-/

namespace Cs537.Sh

/-- A word or a redirection of a simple command. -/
inductive Item
  | word (w : Word)
  | redir (kind : Char) (file : Word)

def Item.toks : Item → List Tok
  | .word w => [.word w]
  | .redir kind file => [.sym kind, .word file]

def Item.apply (cmd : Cmd Word) : Item → Cmd Word
  | .word w => cmd.arg w
  | .redir kind file => Sh.redir kind cmd file

/-- The kinds of redirections. -/
def Item.Known : Item → Prop
  | .word _ => True
  | .redir kind _ => kind ∈ ['<', '>', '+']

def Item.isWord : Item → Bool
  | .word _ => true
  | .redir .. => false

inductive Level
  | line
  | pipe
  | exec

/-- The tokens that derive a command. -/
inductive Derives : Level → List Tok → Cmd Word → Prop
  | items (items : List Item) (known : ∀ i ∈ items, i.Known) (few : items.countP Item.isWord < MAXARGS) :
      Derives .exec (items.flatMap Item.toks) (items.foldl Item.apply (.exec []))
  | block {ts : List Tok} {c : Cmd Word} (inner : Derives .line ts c) (redirs : List Item) (known : ∀ i ∈ redirs, i.Known)
      (noWord : ∀ i ∈ redirs, i.isWord = false) :
      Derives .exec (.sym '(' :: ts ++ .sym ')' :: redirs.flatMap Item.toks) (redirs.foldl Item.apply c)
  | part {ts : List Tok} {c : Cmd Word} (one : Derives .exec ts c) : Derives .pipe ts c
  | pipe {ts us : List Tok} {c d : Cmd Word} (one : Derives .exec ts c) (others : Derives .pipe us d) :
      Derives .pipe (ts ++ .sym '|' :: us) (.pipe c d)
  | backs {ts : List Tok} {c : Cmd Word} (one : Derives .pipe ts c) (count : ℕ) :
      Derives .line (ts ++ List.replicate count (.sym '&')) (Nat.iterate Cmd.back count c)
  | list {ts us : List Tok} {c d : Cmd Word} (one : Derives .pipe ts c) (count : ℕ) (others : Derives .line us d) :
      Derives .line (ts ++ List.replicate count (.sym '&') ++ .sym ';' :: us) (.list (Nat.iterate Cmd.back count c) d)

variable {s s' : Ptr} {c cmd ret : Cmd Word} {fuel argc : ℕ} {α β : Type} {ts : List Tok}

private theorem bind_of {x : Parser α} {f : α → Parser β} {a : α} (first : x s = some (.ok (a, s'))) : (x >>= f) s = f a s' := by
  change (x s).bind _ = _
  rw [first]
  rfl

theorem bind_ok {x : Parser α} {f : α → Parser β} {b : β} (both : (x >>= f) s = some (.ok (b, s'))) :
    ∃ a mid, x s = some (.ok (a, mid)) ∧ f a mid = some (.ok (b, s')) := by
  cases first : x s with
  | none =>
    change (x s).bind _ = _ at both
    rw [first] at both
    cases both
  | some outcome =>
    cases outcome with
    | error e =>
      change (x s).bind _ = _ at both
      rw [first] at both
      cases both
    | ok result =>
      rw [bind_of first] at both
      exact ⟨result.1, result.2, rfl, both⟩

theorem bind_ne_none {x : Parser α} {f : α → Parser β} (first : x s ≠ none)
    (second : ∀ a mid, x s = some (.ok (a, mid)) → f a mid ≠ none) : (x >>= f) s ≠ none := by
  cases run : x s with
  | none => exact absurd run first
  | some outcome =>
    cases outcome with
    | error e =>
      change (x s).bind _ ≠ _
      rw [run]
      exact Option.some_ne_none _
    | ok result =>
      rw [bind_of run]
      exact second result.1 result.2 run

private theorem pure_ok {a b : α} (run : (pure a : Parser α) s = some (.ok (b, s'))) : b = a ∧ s' = s := by
  cases run
  exact ⟨rfl, rfl⟩

/-- The first token is a symbol of some that are named. -/
private theorem starts_sym {toks : List Char} (word : 'a' ∉ toks) (here : starts toks ts = true) :
    ∃ k rest, ts = .sym k :: rest ∧ (Tok.sym k).head ∈ toks := by
  cases ts with
  | nil => cases here
  | cons t rest =>
    rw [starts, List.contains_eq_mem, decide_eq_true_eq] at here
    cases t with
    | sym k => exact ⟨k, rest, rfl, here⟩
    | word w => exact absurd here word

theorem after_peek {toks : List Char} {b : Bool} (known : toks ⊆ symbols) (run : peek toks s = some (.ok (b, s'))) :
    b = starts toks (lex s) ∧ lex s' = lex s := by
  rw [peek_eq s known] at run
  cases run
  exact ⟨rfl, lex_skip s⟩

theorem after_gettoken {kind : Char} {w : Word} (run : gettoken s = some (.ok ((kind, w), s'))) :
    kind = nul ∧ lex s = [] ∧ lex s' = [] ∨ kind ≠ nul ∧ lex s = Tok.of kind w :: lex s' := by
  obtain ⟨kind', w', mid, same, outcome⟩ := gettoken_eq s
  rw [same] at run
  cases run
  exact outcome

/-- The symbol that `peek` has seen is the one that `gettoken` returns. -/
theorem after_symbol {toks : List Char} {kind : Char} {w : Word} (word : 'a' ∉ toks) (here : starts toks (lex s) = true)
    (run : gettoken s = some (.ok ((kind, w), s'))) : lex s = .sym kind :: lex s' ∧ (Tok.sym kind).head ∈ toks := by
  obtain ⟨k, rest, first, member⟩ := starts_sym word here
  rcases after_gettoken run with ⟨_, none, _⟩ | ⟨_, some⟩
  · rw [none] at first
    cases first
  · have plain : kind ≠ 'a' := by
      rintro rfl
      rw [some] at first
      cases first
    rw [Tok.of, if_neg plain] at some
    rw [some] at first
    cases first
    exact ⟨some, member⟩

private theorem kind_of_head {k : Char} (member : (Tok.sym k).head ∈ ['<', '>']) : k ∈ ['<', '>', '+'] := by
  rw [Tok.head] at member
  split_ifs at member with plus
  · rw [plus]
    decide
  · simp only [List.mem_cons, List.not_mem_nil, or_false] at member ⊢
    rcases member with rfl | rfl
    · exact .inl rfl
    · exact .inr (.inl rfl)

theorem countP_redirs {redirs : List Item} (noWord : ∀ i ∈ redirs, i.isWord = false) : redirs.countP Item.isWord = 0 :=
  List.countP_eq_zero.mpr fun i member => by rw [noWord i member]; exact Bool.false_ne_true

/-- The redirections up to the first word, and what comes from there on. -/
theorem split_items (items : List Item) : ∃ redirs others : List Item, items = redirs ++ others ∧
    (∀ i ∈ redirs, i.isWord = false) ∧ ∀ i ∈ others.head?, i.isWord = true := by
  refine ⟨items.takeWhile (!·.isWord), items.dropWhile (!·.isWord), List.takeWhile_append_dropWhile.symm,
    fun i member => ?_,
    fun i member => ?_⟩
  · simpa using List.mem_takeWhile_imp member
  · have stop := List.head?_dropWhile_not (!·.isWord) items
    rw [Option.mem_def.mp member] at stop
    simpa using stop

theorem parseredirs_sound (run : parseredirs fuel cmd s = some (.ok (c, s'))) :
    ∃ redirs : List Item, (∀ i ∈ redirs, i.Known) ∧ (∀ i ∈ redirs, i.isWord = false) ∧
      lex s = redirs.flatMap Item.toks ++ lex s' ∧ c = redirs.foldl Item.apply cmd := by
  induction fuel generalizing cmd s with
  | zero => cases run
  | succ fuel ih =>
    rw [parseredirs] at run
    obtain ⟨more, one, peeked, run⟩ := bind_ok run
    obtain ⟨rfl, same⟩ := after_peek (by decide) peeked
    split_ifs at run with here
    · obtain ⟨⟨tok, w⟩, two, got, run⟩ := bind_ok run
      obtain ⟨⟨kind, file⟩, three, got', run⟩ := bind_ok run
      rw [← same] at here
      obtain ⟨first, member⟩ := after_symbol (by decide) here got
      dsimp only at run
      split_ifs at run with word
      · cases run
      · rw [not_not] at word
        subst word
        obtain ⟨redirs, known, noWord, rest, rfl⟩ := ih run
        have second : lex two = .word file :: lex three := by
          rcases after_gettoken got' with ⟨zero, _⟩ | ⟨_, some⟩
          · exact absurd zero (by decide)
          · exact some
        refine ⟨.redir tok file :: redirs, ?_, ?_, ?_, rfl⟩
        · rw [List.forall_mem_cons]
          exact ⟨kind_of_head member, known⟩
        · rw [List.forall_mem_cons]
          exact ⟨rfl, noWord⟩
        · rw [← same, first, second, rest]
          rfl
    · obtain ⟨rfl, rfl⟩ := pure_ok run
      exact ⟨[], fun _ member => absurd member List.not_mem_nil, fun _ member => absurd member List.not_mem_nil,
        same.symm, rfl⟩

private theorem parseargs_sound (few : argc < MAXARGS) (run : parseargs fuel argc ret s = some (.ok (c, s'))) :
    ∃ items : List Item, (∀ i ∈ items, i.Known) ∧ argc + items.countP Item.isWord < MAXARGS ∧
      lex s = items.flatMap Item.toks ++ lex s' ∧ c = items.foldl Item.apply ret := by
  induction fuel generalizing argc ret s with
  | zero => cases run
  | succ fuel ih =>
    rw [parseargs] at run
    obtain ⟨stop, one, peeked, run⟩ := bind_ok run
    obtain ⟨rfl, same⟩ := after_peek (by decide) peeked
    have done : lex s' = lex s → c = ret → ∃ items : List Item, (∀ i ∈ items, i.Known) ∧
      argc + items.countP Item.isWord < MAXARGS ∧
        lex s = items.flatMap Item.toks ++ lex s' ∧ c = items.foldl Item.apply ret :=
      fun unread result => ⟨[], fun _ member => absurd member List.not_mem_nil, few, unread.symm, result⟩
    cases here : starts ['|', ')', '&', ';'] (lex s) with
    | true =>
      rw [here, if_pos rfl] at run
      obtain ⟨rfl, rfl⟩ := pure_ok run
      exact done same rfl
    | false =>
      rw [here, if_neg Bool.false_ne_true] at run
      obtain ⟨⟨tok, w⟩, two, got, run⟩ := bind_ok run
      dsimp only at run
      split_ifs at run with zero word many
      · obtain ⟨rfl, rfl⟩ := pure_ok run
        refine done ?_ rfl
        rcases after_gettoken got with ⟨_, none, none'⟩ | ⟨nonzero, _⟩
        · rw [none', ← same, none]
        · exact absurd zero nonzero
      · cases run
      · cases run
      · rw [not_not] at word
        subst word
        obtain ⟨ret', three, redirected, run⟩ := bind_ok run
        obtain ⟨redirs, known, noWord, rest, rfl⟩ := parseredirs_sound redirected
        obtain ⟨items, known', few', rest', rfl⟩ := ih (Nat.lt_of_not_le many) run
        have first : lex one = .word w :: lex two := by
          rcases after_gettoken got with ⟨zero', _⟩ | ⟨_, some⟩
          · exact absurd zero' zero
          · exact some
        refine ⟨.word w :: (redirs ++ items), ?_, ?_, ?_, ?_⟩
        · rw [List.forall_mem_cons]
          exact ⟨trivial, List.forall_mem_append.mpr ⟨known, known'⟩⟩
        · rw [List.countP_cons_of_pos rfl, List.countP_append, countP_redirs noWord]
          omega
        · rw [← same, first, rest, rest', List.flatMap_cons, List.flatMap_append, List.append_assoc, List.append_assoc]
          rfl
        · rw [List.foldl_cons, List.foldl_append]
          rfl

theorem parsebacks_sound (run : parsebacks fuel cmd s = some (.ok (c, s'))) :
    ∃ count, lex s = List.replicate count (.sym '&') ++ lex s' ∧ c = Nat.iterate Cmd.back count cmd := by
  induction fuel generalizing cmd s with
  | zero => cases run
  | succ fuel ih =>
    rw [parsebacks] at run
    obtain ⟨more, one, peeked, run⟩ := bind_ok run
    obtain ⟨rfl, same⟩ := after_peek (by decide) peeked
    split_ifs at run with here
    · obtain ⟨⟨tok, w⟩, two, got, run⟩ := bind_ok run
      rw [← same] at here
      obtain ⟨first, member⟩ := after_symbol (by decide) here got
      obtain ⟨count, rest, rfl⟩ := ih run
      refine ⟨count + 1, ?_, rfl⟩
      have amp : tok = '&' := by
        rw [Tok.head] at member
        split_ifs at member
        · exact absurd member (by decide)
        · exact List.mem_singleton.mp member
      rw [← same, first, rest, amp]
      rfl
    · obtain ⟨rfl, rfl⟩ := pure_ok run
      exact ⟨0, same.symm, rfl⟩

/-- A single symbol that `peek` has seen. -/
theorem after_one {k tok : Char} {w : Word} (word : 'a' ≠ k) (greater : k ≠ '>') (here : starts [k] (lex s) = true)
    (run : gettoken s = some (.ok ((tok, w), s'))) : lex s = .sym k :: lex s' := by
  obtain ⟨first, member⟩ := after_symbol (by rw [List.mem_singleton]; exact word) here run
  rw [List.mem_singleton, Tok.head] at member
  split_ifs at member with plus
  · exact absurd member.symm greater
  · rw [first, member]

/-- What a result of each function derives. -/
theorem parse_sound (fuel : ℕ) :
    (∀ s c s', parseline fuel s = some (.ok (c, s')) → ∃ ts, lex s = ts ++ lex s' ∧ Derives .line ts c) ∧
      (∀ s c s', parsepipe fuel s = some (.ok (c, s')) → ∃ ts, lex s = ts ++ lex s' ∧ Derives .pipe ts c) ∧
      (∀ s c s', parseblock fuel s = some (.ok (c, s')) → ∃ ts, lex s = ts ++ lex s' ∧ Derives .exec ts c) ∧
      ∀ s c s', parseexec fuel s = some (.ok (c, s')) → ∃ ts, lex s = ts ++ lex s' ∧ Derives .exec ts c := by
  induction fuel with
  | zero =>
    refine ⟨?_, ?_, ?_, ?_⟩ <;> intro s c s' run
    · rw [parseline] at run
      cases run
    · rw [parsepipe] at run
      cases run
    · rw [parseblock] at run
      cases run
    · rw [parseexec] at run
      cases run
  | succ fuel ih =>
    obtain ⟨line, pipe, block, exec⟩ := ih
    refine ⟨?_, ?_, ?_, ?_⟩ <;> intro s c s' run
    · rw [parseline] at run
      obtain ⟨one, mid, first, run⟩ := bind_ok run
      obtain ⟨ts, read, derived⟩ := pipe s one mid first
      obtain ⟨two, mid', backed, run⟩ := bind_ok run
      obtain ⟨count, read', rfl⟩ := parsebacks_sound backed
      obtain ⟨more, peeked, peek, run⟩ := bind_ok run
      obtain ⟨rfl, same⟩ := after_peek (by decide) peek
      split_ifs at run with here
      · obtain ⟨⟨tok, w⟩, behind, got, run⟩ := bind_ok run
        rw [← same] at here
        have symbol := after_one (by decide) (by decide) here got
        obtain ⟨right, last, others, run⟩ := bind_ok run
        obtain ⟨us, read'', derived'⟩ := line behind right last others
        obtain ⟨rfl, rfl⟩ := pure_ok run
        refine ⟨_, ?_, .list derived count derived'⟩
        rw [read, read', ← same, symbol, read'']
        simp only [List.append_assoc, List.cons_append]
      · obtain ⟨rfl, rfl⟩ := pure_ok run
        refine ⟨_, ?_, .backs derived count⟩
        rw [read, read', same, List.append_assoc]
    · rw [parsepipe] at run
      obtain ⟨one, mid, first, run⟩ := bind_ok run
      obtain ⟨ts, read, derived⟩ := exec s one mid first
      obtain ⟨more, peeked, peek, run⟩ := bind_ok run
      obtain ⟨rfl, same⟩ := after_peek (by decide) peek
      split_ifs at run with here
      · obtain ⟨⟨tok, w⟩, behind, got, run⟩ := bind_ok run
        rw [← same] at here
        have symbol := after_one (by decide) (by decide) here got
        obtain ⟨right, last, others, run⟩ := bind_ok run
        obtain ⟨us, read', derived'⟩ := pipe behind right last others
        obtain ⟨rfl, rfl⟩ := pure_ok run
        refine ⟨_, ?_, .pipe derived derived'⟩
        rw [read, ← same, symbol, read']
        simp only [List.append_assoc, List.cons_append]
      · obtain ⟨rfl, rfl⟩ := pure_ok run
        exact ⟨ts, by rw [read, same], .part derived⟩
    · rw [parseblock] at run
      obtain ⟨b, peeked, peek, run⟩ := bind_ok run
      obtain ⟨rfl, same⟩ := after_peek (by decide) peek
      split_ifs at run with here
      · cases run
      rw [Bool.not_eq_true', Bool.not_eq_false, ← same] at here
      obtain ⟨⟨tok, w⟩, inside, got, run⟩ := bind_ok run
      have symbol := after_one (by decide) (by decide) here got
      obtain ⟨cmd, mid, inner, run⟩ := bind_ok run
      obtain ⟨ts, read, derived⟩ := line inside cmd mid inner
      obtain ⟨b, peeked', peek', run⟩ := bind_ok run
      obtain ⟨rfl, same'⟩ := after_peek (by decide) peek'
      split_ifs at run with here'
      · cases run
      rw [Bool.not_eq_true', Bool.not_eq_false, ← same'] at here'
      obtain ⟨⟨tok', w'⟩, behind, got', run⟩ := bind_ok run
      have symbol' := after_one (by decide) (by decide) here' got'
      obtain ⟨redirs, known, noWord, read', rfl⟩ := parseredirs_sound run
      refine ⟨_, ?_, .block derived redirs known noWord⟩
      rw [← same, symbol, read, ← same', symbol', read']
      simp only [List.append_assoc, List.cons_append]
    · rw [parseexec] at run
      obtain ⟨b, peeked, peek, run⟩ := bind_ok run
      obtain ⟨rfl, same⟩ := after_peek (by decide) peek
      split_ifs at run with here
      · rw [← same]
        exact block peeked c s' run
      · obtain ⟨ret, mid, redirected, run⟩ := bind_ok run
        obtain ⟨redirs, known, noWord, read, rfl⟩ := parseredirs_sound redirected
        obtain ⟨items, known', few, read', rfl⟩ := parseargs_sound (by decide) run
        have derived := Derives.items (redirs ++ items) (List.forall_mem_append.mpr ⟨known, known'⟩)
          (by rw [List.countP_append, countP_redirs noWord]; exact few)
        rw [List.foldl_append] at derived
        refine ⟨_, ?_, derived⟩
        rw [← same, read, read', List.flatMap_append, List.append_assoc]

/-- What may stand behind a part of a command. -/
def Follow (toks : List Char) (ts : List Tok) : Prop := ts = [] ∨ starts toks ts = true

private theorem Follow.starts_false {toks others : List Char} (follow : Follow toks ts)
    (apart : toks.all (· ∉ others) = true) : starts others ts = false := by
  rcases follow with rfl | here
  · rfl
  · cases ts with
    | nil => rfl
    | cons t rest =>
      rw [starts, List.contains_eq_mem, decide_eq_true_eq] at here
      rw [starts, List.contains_eq_mem, decide_eq_false_iff_not]
      exact of_decide_eq_true (List.all_eq_true.mp apart t.head here)

theorem Follow.mono {toks more : List Char} (follow : Follow toks ts) (fewer : toks ⊆ more) : Follow more ts := by
  rcases follow with none | here
  · exact .inl none
  · cases ts with
    | nil => exact .inl rfl
    | cons t rest =>
      rw [starts, List.contains_eq_mem, decide_eq_true_eq] at here
      refine .inr ?_
      rw [starts, List.contains_eq_mem, decide_eq_true_eq]
      exact fewer here

private theorem follow_sym {toks : List Char} {k : Char} (plain : k ≠ '+') (member : k ∈ toks) (rest : List Tok) :
    Follow toks (.sym k :: rest) := by
  refine .inr ?_
  rw [starts, Tok.head, if_neg plain, List.contains_eq_mem, decide_eq_true_eq]
  exact member

/-- `gettoken` in front of a known token. -/
theorem gettoken_of {t : Tok} {rest : List Tok} (first : lex s = t :: rest) :
    ∃ kind w s', gettoken s = some (.ok ((kind, w), s')) ∧ kind ≠ nul ∧ t = Tok.of kind w ∧ lex s' = rest := by
  obtain ⟨kind, w, s', run, ⟨_, none, _⟩ | ⟨some, here⟩⟩ := gettoken_eq s
  · rw [none] at first
    cases first
  · rw [here] at first
    cases first
    exact ⟨kind, w, s', run, some, rfl, rfl⟩

/-- `gettoken` in front of a symbol. -/
theorem gettoken_sym {k : Char} {rest : List Tok} (first : lex s = .sym k :: rest) :
    ∃ w s', gettoken s = some (.ok ((k, w), s')) ∧ lex s' = rest := by
  obtain ⟨kind, w, s', run, _, same, behind⟩ := gettoken_of first
  rw [Tok.of] at same
  split_ifs at same
  cases same
  exact ⟨w, s', run, behind⟩

private theorem gettoken_word {w : Word} {rest : List Tok} (first : lex s = .word w :: rest) :
    ∃ s', gettoken s = some (.ok (('a', w), s')) ∧ lex s' = rest := by
  obtain ⟨kind, w', s', run, _, same, behind⟩ := gettoken_of first
  rw [Tok.of] at same
  split_ifs at same with word
  cases same
  exact ⟨s', by rw [run, word], behind⟩

variable {rest : List Tok}

private theorem parseredirs_complete (cmd : Cmd Word) {redirs : List Item} (known : ∀ i ∈ redirs, i.Known)
    (noWord : ∀ i ∈ redirs, i.isWord = false)
    (read : lex s = redirs.flatMap Item.toks ++ rest) (stop : starts ['<', '>'] rest = false)
    (enough : redirs.length < fuel) :
    ∃ s', parseredirs fuel cmd s = some (.ok (redirs.foldl Item.apply cmd, s')) ∧ lex s' = rest := by
  induction redirs generalizing fuel cmd s with
  | nil =>
    obtain ⟨fuel, rfl⟩ := Nat.exists_eq_succ_of_ne_zero (Nat.ne_zero_of_lt enough)
    change lex s = rest at read
    refine ⟨skip s, ?_, (lex_skip s).trans read⟩
    rw [parseredirs, bind_of (peek_eq s (by decide)), read, stop, if_neg Bool.false_ne_true]
    rfl
  | cons i redirs ih =>
    obtain ⟨fuel, rfl⟩ := Nat.exists_eq_succ_of_ne_zero (Nat.ne_zero_of_lt enough)
    cases i with
    | word w => exact absurd (noWord _ List.mem_cons_self) Bool.true_eq_false.mp
    | redir kind file =>
      have kinds : kind ∈ ['<', '>', '+'] := known _ List.mem_cons_self
      have here : starts ['<', '>'] (lex s) = true := by
        rw [read, List.flatMap_cons, Item.toks, List.append_assoc]
        change ['<', '>'].contains (Tok.sym kind).head = true
        simp only [List.mem_cons, List.not_mem_nil, or_false] at kinds
        rcases kinds with rfl | rfl | rfl <;> rfl
      obtain ⟨w, two, got, behind⟩ := gettoken_sym ((lex_skip s).trans read)
      obtain ⟨three, got', behind'⟩ := gettoken_word behind
      obtain ⟨s', run, last⟩ := ih (redir kind cmd file) (fun i member => known i (List.mem_cons_of_mem _ member))
        (fun i member => noWord i (List.mem_cons_of_mem _ member)) behind'
        (Nat.lt_of_succ_lt_succ enough)
      refine ⟨s', ?_, last⟩
      rw [parseredirs, bind_of (peek_eq s (by decide)), here, if_pos rfl, bind_of got]
      dsimp only
      rw [bind_of got']
      exact run

private theorem parsebacks_complete (cmd : Cmd Word) {count : ℕ} (read : lex s = List.replicate count (.sym '&') ++ rest)
    (stop : starts ['&'] rest = false)
    (enough : count < fuel) : ∃ s', parsebacks fuel cmd s = some (.ok (Nat.iterate Cmd.back count cmd, s')) ∧
    lex s' = rest := by
  induction count generalizing fuel cmd s with
  | zero =>
    obtain ⟨fuel, rfl⟩ := Nat.exists_eq_succ_of_ne_zero (Nat.ne_zero_of_lt enough)
    change lex s = rest at read
    refine ⟨skip s, ?_, (lex_skip s).trans read⟩
    rw [parsebacks, bind_of (peek_eq s (by decide)), read, stop, if_neg Bool.false_ne_true]
    rfl
  | succ count ih =>
    obtain ⟨fuel, rfl⟩ := Nat.exists_eq_succ_of_ne_zero (Nat.ne_zero_of_lt enough)
    rw [List.replicate_succ, List.cons_append] at read
    have here : starts ['&'] (lex s) = true := by
      rw [read]
      rfl
    obtain ⟨w, two, got, behind⟩ := gettoken_sym ((lex_skip s).trans read)
    obtain ⟨s', run, last⟩ := ih (.back cmd) behind (Nat.lt_of_succ_lt_succ enough)
    refine ⟨s', ?_, last⟩
    rw [parsebacks, bind_of (peek_eq s (by decide)), here, if_pos rfl, bind_of got]
    exact run

/-- No symbol comes in front of a word. -/
theorem starts_items {toks others : List Char} {items : List Item} (follow : Follow toks rest)
    (first : ∀ i ∈ items.head?, i.isWord = true)
    (apart : toks.all (· ∉ others) = true) (word : 'a' ∉ others) :
    starts others (items.flatMap Item.toks ++ rest) = false := by
  cases items with
  | nil => exact follow.starts_false apart
  | cons i items =>
    cases i with
    | word w =>
      change others.contains 'a' = false
      rw [List.contains_eq_mem, decide_eq_false_iff_not]
      exact word
    | redir kind file => exact absurd (first _ rfl) Bool.false_ne_true

/-- The words and redirections behind those redirections that come first. -/
private theorem parseargs_complete (ret : Cmd Word) {items : List Item} (known : ∀ i ∈ items, i.Known)
    (few : argc + items.countP Item.isWord < MAXARGS)
    (first : ∀ i ∈ items.head?, i.isWord = true) (read : lex s = items.flatMap Item.toks ++ rest)
    (follow : Follow ['|', ')', '&', ';'] rest) (enough : items.length < fuel) :
    ∃ s', parseargs fuel argc ret s = some (.ok (items.foldl Item.apply ret, s')) ∧ lex s' = rest := by
  induction fuel generalizing items argc ret s with
  | zero => exact absurd enough (Nat.not_lt_zero _)
  | succ fuel ih =>
    cases items with
    | nil =>
      change lex s = rest at read
      rcases follow with rfl | here
      · obtain ⟨kind, w, s', run, ⟨zero, _, last⟩ | ⟨_, some⟩⟩ := gettoken_eq (skip s)
        · refine ⟨s', ?_, last⟩
          rw [parseargs, bind_of (peek_eq s (by decide)), read, if_neg (by decide), bind_of run]
          dsimp only
          rw [if_pos zero]
          rfl
        · rw [lex_skip, read] at some
          cases some
      · refine ⟨skip s, ?_, (lex_skip s).trans read⟩
        rw [parseargs, bind_of (peek_eq s (by decide)), read, here, if_pos rfl]
        rfl
    | cons i items =>
      cases i with
      | redir kind file => exact absurd (first _ rfl) Bool.false_ne_true
      | word w =>
        obtain ⟨redirs, others, rfl, noWord, next⟩ := split_items items
        rw [List.countP_cons_of_pos rfl, List.countP_append, countP_redirs noWord] at few
        rw [List.length_cons, List.length_append] at enough
        rw [List.forall_mem_cons, List.forall_mem_append] at known
        obtain ⟨_, known, known'⟩ := known
        have here : starts ['|', ')', '&', ';'] (lex s) = false := by
          rw [read]
          rfl
        obtain ⟨two, got, behind⟩ := gettoken_word ((lex_skip s).trans read)
        change lex two = (redirs ++ others).flatMap Item.toks ++ rest at behind
        rw [List.flatMap_append, List.append_assoc] at behind
        have stop : starts ['<', '>'] (others.flatMap Item.toks ++ rest) = false :=
          starts_items follow next (by decide) (by decide)
        obtain ⟨three, redirected, behind'⟩ := parseredirs_complete (ret.arg w) known noWord behind stop
          (show _ < fuel by omega)
        obtain ⟨s', run, last⟩ := ih (redirs.foldl Item.apply (ret.arg w)) known'
          (show argc + 1 + _ < _ by omega) next behind' (by omega)
        refine ⟨s', ?_, last⟩
        rw [parseargs, bind_of (peek_eq s (by decide)), here, if_neg Bool.false_ne_true, bind_of got]
        dsimp only
        rw [if_neg (by decide), if_neg (by decide), if_neg (by omega), bind_of redirected, run, List.foldl_cons,
          List.foldl_append]
        rfl

/-- The symbols that may stand behind a part, and the function that reads it. -/
def Level.follow : Level → List Char
  | .line => [')']
  | .pipe => ['&', ';', ')']
  | .exec => ['|', ')', '&', ';']

def Level.parse : Level → ℕ → Parser (Cmd Word)
  | .line => parseline
  | .pipe => parsepipe
  | .exec => parseexec

def Level.extra : Level → ℕ
  | .line => 4
  | .pipe => 3
  | .exec => 2

private theorem toks_length (items : List Item) : items.length ≤ (items.flatMap Item.toks).length := by
  induction items with
  | nil => exact Nat.le_refl 0
  | cons i items ih =>
    rw [List.flatMap_cons, List.length_append, List.length_cons]
    cases i with
    | word w =>
      change items.length + 1 ≤ 1 + _
      omega
    | redir kind file =>
      change items.length + 1 ≤ 2 + _
      omega

/-- Words and redirections are read as a command, with the redirections before the first word apart. -/
private theorem parseexec_items {items : List Item} (known : ∀ i ∈ items, i.Known) (few : items.countP Item.isWord < MAXARGS)
    (read : lex s = items.flatMap Item.toks ++ rest) (follow : Follow ['|', ')', '&', ';'] rest)
    (enough : 4 * (items.flatMap Item.toks).length + 2 ≤ fuel + 1) :
    ∃ s', parseexec (fuel + 1) s = some (.ok (items.foldl Item.apply (.exec []), s')) ∧ lex s' = rest := by
  have bound := toks_length items
  obtain ⟨redirs, others, rfl, noWord, next⟩ := split_items items
  rw [List.forall_mem_append] at known
  rw [List.flatMap_append, List.append_assoc] at read
  rw [List.countP_append, countP_redirs noWord, Nat.zero_add] at few
  rw [List.length_append] at bound
  have stop : starts ['<', '>'] (others.flatMap Item.toks ++ rest) = false :=
    starts_items follow next (by decide) (by decide)
  have paren : starts ['('] (lex s) = false := by
    rw [read]
    cases redirs with
    | nil =>
      change starts ['('] (others.flatMap Item.toks ++ rest) = false
      exact starts_items follow next (by decide) (by decide)
    | cons i redirs =>
      cases i with
      | word w => rfl
      | redir kind file =>
        have kinds : kind ∈ ['<', '>', '+'] := known.1 _ List.mem_cons_self
        simp only [List.mem_cons, List.not_mem_nil, or_false] at kinds
        rcases kinds with rfl | rfl | rfl <;> rfl
  obtain ⟨mid, redirected, behind⟩ := parseredirs_complete (.exec []) known.1 noWord ((lex_skip s).trans read) stop
    (show _ < fuel by omega)
  obtain ⟨s', run, last⟩ := parseargs_complete (redirs.foldl Item.apply (.exec [])) known.2
    (show 0 + _ < _ by omega) next behind follow (show _ < fuel by omega)
  refine ⟨s', ?_, last⟩
  rw [parseexec, bind_of (peek_eq s (by decide)), paren, if_neg Bool.false_ne_true, bind_of redirected, run,
    List.foldl_append]

theorem parse_complete {level : Level} (derived : Derives level ts c) (read : lex s = ts ++ rest)
    (follow : Follow level.follow rest)
    (enough : 4 * ts.length + level.extra ≤ fuel) : ∃ s', level.parse fuel s = some (.ok (c, s')) ∧ lex s' = rest := by
  induction derived generalizing fuel s rest with
  | items items known few =>
    obtain ⟨fuel, rfl⟩ := Nat.exists_eq_succ_of_ne_zero (Nat.ne_zero_of_lt enough)
    exact parseexec_items known few read follow enough
  | @block ts c inner redirs known noWord ih =>
    obtain ⟨fuel, rfl⟩ := Nat.exists_eq_add_of_le' (Nat.le_trans (Nat.le_add_left 2 _) enough)
    have bound := toks_length redirs
    simp only [List.length_append, List.length_cons, Level.extra] at enough ih
    have read' : lex s = .sym '(' :: (ts ++ .sym ')' :: (redirs.flatMap Item.toks ++ rest)) := by
      rw [read]
      simp only [List.append_assoc, List.cons_append]
    have open' : starts ['('] (lex s) = true := by
      rw [read']
      rfl
    obtain ⟨w, one, got, behind⟩ := gettoken_sym ((lex_skip _).trans ((lex_skip s).trans read'))
    obtain ⟨two, run, behind'⟩ := ih behind (follow_sym (by decide) (by decide) _) (show _ ≤ fuel by omega)
    have close' : starts [')'] (lex two) = true := by
      rw [behind']
      rfl
    obtain ⟨w', three, got', behind''⟩ := gettoken_sym ((lex_skip _).trans behind')
    obtain ⟨s', redirected, last⟩ := parseredirs_complete c known noWord behind'' (follow.starts_false (by decide))
      (show _ < fuel by omega)
    refine ⟨s', ?_, last⟩
    rw [Level.parse, parseexec, bind_of (peek_eq s (by decide)), open', if_pos rfl, parseblock,
      bind_of (peek_eq _ (by decide)), lex_skip, open']
    rw [if_neg (by decide), bind_of got]
    rw [bind_of (show parseline fuel one = _ from run), bind_of (peek_eq _ (by decide)), close', if_neg (by decide),
      bind_of got']
    exact redirected
  | @part ts c one ih =>
    obtain ⟨fuel, rfl⟩ := Nat.exists_eq_succ_of_ne_zero (Nat.ne_zero_of_lt enough)
    simp only [Level.extra] at enough ih
    obtain ⟨mid, run, behind⟩ := ih read (follow.mono (by decide)) (show _ ≤ fuel by omega)
    refine ⟨skip mid, ?_, (lex_skip mid).trans behind⟩
    rw [Level.parse, parsepipe, bind_of (show parseexec fuel s = _ from run), bind_of (peek_eq mid (by decide)), behind,
      follow.starts_false (by decide), if_neg Bool.false_ne_true]
    rfl
  | @pipe ts us c d one others ih ih' =>
    obtain ⟨fuel, rfl⟩ := Nat.exists_eq_succ_of_ne_zero (Nat.ne_zero_of_lt enough)
    simp only [List.length_append, List.length_cons, Level.extra] at enough ih ih'
    rw [List.append_assoc] at read
    obtain ⟨mid, run, behind⟩ := ih read (follow_sym (by decide) (by decide) _) (show _ ≤ fuel by omega)
    have bar : starts ['|'] (lex mid) = true := by
      rw [behind]
      rfl
    obtain ⟨w, two, got, behind'⟩ := gettoken_sym ((lex_skip mid).trans behind)
    obtain ⟨s', run', last⟩ := ih' behind' follow (show _ ≤ fuel by omega)
    refine ⟨s', ?_, last⟩
    rw [Level.parse, parsepipe, bind_of (show parseexec fuel s = _ from run), bind_of (peek_eq mid (by decide)), bar,
      if_pos rfl, bind_of got]
    rw [bind_of (show parsepipe fuel two = _ from run')]
    rfl
  | @backs ts c one count ih =>
    obtain ⟨fuel, rfl⟩ := Nat.exists_eq_succ_of_ne_zero (Nat.ne_zero_of_lt enough)
    simp only [List.length_append, List.length_replicate, Level.extra] at enough ih
    rw [List.append_assoc] at read
    have between : Follow ['&', ';', ')'] (List.replicate count (.sym '&') ++ rest) := by
      cases count with
      | zero => exact follow.mono (by decide)
      | succ count => exact follow_sym (by decide) (by decide) _
    obtain ⟨mid, run, behind⟩ := ih read between (show _ ≤ fuel by omega)
    obtain ⟨mid', backed, behind'⟩ := parsebacks_complete c behind (follow.starts_false (by decide))
      (show _ < fuel by omega)
    refine ⟨skip mid', ?_, (lex_skip mid').trans behind'⟩
    rw [Level.parse, parseline, bind_of (show parsepipe fuel s = _ from run), bind_of backed,
      bind_of (peek_eq mid' (by decide)), behind',
      follow.starts_false (by decide), if_neg Bool.false_ne_true]
    rfl
  | @list ts us c d one count others ih ih' =>
    obtain ⟨fuel, rfl⟩ := Nat.exists_eq_succ_of_ne_zero (Nat.ne_zero_of_lt enough)
    simp only [List.length_append, List.length_cons, List.length_replicate, Level.extra] at enough ih ih'
    rw [List.append_assoc, List.append_assoc] at read
    have between : Follow ['&', ';', ')'] (List.replicate count (.sym '&') ++ (.sym ';' :: us ++ rest)) := by
      cases count with
      | zero => exact follow_sym (by decide) (by decide) _
      | succ count => exact follow_sym (by decide) (by decide) _
    obtain ⟨mid, run, behind⟩ := ih read between (show _ ≤ fuel by omega)
    obtain ⟨mid', backed, behind'⟩ := parsebacks_complete c behind
      (show starts ['&'] (.sym ';' :: us ++ rest) = false from rfl) (show _ < fuel by omega)
    have semi : starts [';'] (lex mid') = true := by
      rw [behind']
      rfl
    obtain ⟨w, two, got, behind''⟩ := gettoken_sym ((lex_skip mid').trans behind')
    obtain ⟨s', run', last⟩ := ih' behind'' follow (show _ ≤ fuel by omega)
    refine ⟨s', ?_, last⟩
    rw [Level.parse, parseline, bind_of (show parsepipe fuel s = _ from run), bind_of backed,
      bind_of (peek_eq mid' (by decide)), semi,
      if_pos rfl, bind_of got, bind_of (show parseline fuel two = _ from run')]
    rfl

end Cs537.Sh
