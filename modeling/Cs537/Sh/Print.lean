import Cs537.Sh.Accept

/-! # The words of a command

The words that the parser cuts out of the line are not empty and hold no symbols and no white space; once
`nulterminate` has put a NUL behind each of them, every pointer that the parser kept leads to its word. A
command over such words, with fewer than `MAXARGS` of them in each place, can be written down with
parentheses around its parts, and the parser reads it back; no other command comes out of the parser.
-/

namespace Cs537.Sh

variable {s s' rest : Ptr} {c : Cmd Word} {fuel : ℕ} {ts : List Tok} {buf text : List Char} {w : Word} {level : Level}

/-- The characters of a word. -/
structure Plain (text : List Char) : Prop where
  some : text ≠ []
  chars : ∀ c ∈ text, inWord c = true ∧ c ≠ nul

/-- A word of a line: its characters, and behind them none that could belong to it. -/
structure Cut (whole : Ptr) (w : Word) : Prop where
  inside : w.q <:+ whole
  split : w.q = w.text ++ w.eq
  plain : Plain w.text
  stop : ∀ c ∈ w.eq.head?, inWord c = false

theorem Cut.mono {whole : Ptr} (cut : Cut s w) (suffix : s <:+ whole) : Cut whole w :=
  ⟨cut.inside.trans suffix, cut.split, cut.plain, cut.stop⟩

private theorem cut_token (plain : ∀ c ∈ s, c ≠ nul) {first : Char} {more : Ptr} (split : skip s = first :: more)
    (word : symbols.contains first = false) :
    Cut s ⟨skip s, (skip s).dropWhile inWord⟩ := by
  have text : Word.text ⟨skip s, (skip s).dropWhile inWord⟩ = (skip s).takeWhile inWord := by
    have whole := List.takeWhile_append_dropWhile (p := inWord) (l := skip s)
    have lengths := congrArg List.length whole
    rw [List.length_append] at lengths
    rw [Word.text]
    change (skip s).take ((skip s).length - ((skip s).dropWhile inWord).length) = _
    rw [show (skip s).length - ((skip s).dropWhile inWord).length = ((skip s).takeWhile inWord).length by omega]
    exact (List.prefix_iff_eq_take.mp (List.takeWhile_prefix inWord)).symm
  refine ⟨skip_suffix s, ?_, ⟨?_, fun c member => ?_⟩, fun c first => ?_⟩
  · rw [text]
    exact List.takeWhile_append_dropWhile.symm
  · rw [text, split, List.takeWhile_cons_of_pos (inWord_head split word)]
    exact List.cons_ne_nil _ _
  · rw [text] at member
    exact ⟨List.mem_takeWhile_imp member, plain c ((skip_suffix s).subset ((List.takeWhile_prefix inWord).subset member))⟩
  · have stop := List.head?_dropWhile_not inWord (skip s)
    rw [Option.mem_def.mp first] at stop
    simpa using stop

/-- All words among the tokens of a line are cut out of it. -/
theorem cut_lex (plain : ∀ c ∈ s, c ≠ nul) (member : .word w ∈ lex s) : Cut s w := by
  suffices bounded : ∀ n s, s.length ≤ n → (∀ c ∈ s, c ≠ nul) → .word w ∈ lex s →
    Cut s w from bounded s.length s (Nat.le_refl _) plain member
  intro n
  induction n with
  | zero =>
    intro s none _ member
    obtain rfl := List.length_eq_zero_iff.mp (Nat.le_zero.mp none)
    exact absurd member List.not_mem_nil
  | succ n ih =>
    intro s bound plain member
    rw [lex_eq] at member
    split_ifs at member with none
    · exact absurd member List.not_mem_nil
    rcases List.mem_cons.mp member with here | later
    · rcases token_cases (skip s) with ⟨_, same⟩ | ⟨c, more, _, symbol, same⟩ | ⟨more, _, same⟩ | ⟨more, _, _, same⟩ |
        ⟨c, more, split, _, word, same⟩
      · rw [same] at none
        exact absurd rfl none
      · rw [same, Tok.of, if_neg] at here
        · cases here
        · rintro rfl
          exact absurd symbol (by decide)
      · rw [same] at here
        cases here
      · rw [same] at here
        cases here
      · rw [same] at here
        cases here
        exact cut_token plain split word
    · have shorter := token_shorter none
      have skipped := skip_length s
      have again := skip_length (token (skip s)).2
      have suffix : skip (token (skip s)).2 <:+ s := (skip_suffix _).trans ((token_suffix _).trans (skip_suffix s))
      exact (ih _ (by omega) (fun c inside => plain c (suffix.subset inside)) later).mono suffix

variable {ω υ : Type}

def Cmd.words : Cmd ω → List ω
  | .exec argv => argv
  | .redir cmd file _ _ => cmd.words ++ [file]
  | .pipe left right => left.words ++ right.words
  | .list left right => left.words ++ right.words
  | .back cmd => cmd.words

private theorem words_arg {cmd : Cmd Word} {v : Word} (member : w ∈ (cmd.arg v).words) : w ∈ cmd.words ∨ w = v := by
  induction cmd with
  | exec argv =>
    rcases List.mem_append.mp member with old | new
    · exact .inl old
    · exact .inr (List.mem_singleton.mp new)
  | redir cmd file mode fd ih =>
    rcases List.mem_append.mp member with inside | last
    · exact (ih inside).imp_left fun old => List.mem_append_left _ old
    · exact .inl (List.mem_append_right _ last)
  | pipe _ _ => exact .inl member
  | list _ _ => exact .inl member
  | back _ => exact .inl member

private theorem words_redir {cmd : Cmd Word} {kind : Char} {v : Word} (member : w ∈ (redir kind cmd v).words) :
    w ∈ cmd.words ∨ w = v := by
  rw [redir] at member
  split_ifs at member
  · exact (List.mem_append.mp member).imp_right List.mem_singleton.mp
  · exact (List.mem_append.mp member).imp_right List.mem_singleton.mp
  · exact (List.mem_append.mp member).imp_right List.mem_singleton.mp
  · exact .inl member

private theorem words_items {items : List Item} {cmd : Cmd Word} (member : w ∈ (items.foldl Item.apply cmd).words) :
    w ∈ cmd.words ∨ .word w ∈ items.flatMap Item.toks := by
  induction items generalizing cmd with
  | nil => exact .inl member
  | cons i items ih =>
    rw [List.flatMap_cons, List.mem_append]
    rcases ih member with applied | later
    · cases i with
      | word v =>
        rcases words_arg applied with old | rfl
        · exact .inl old
        · exact .inr (.inl List.mem_cons_self)
      | redir kind v =>
        rcases words_redir applied with old | rfl
        · exact .inl old
        · exact .inr (.inl (List.mem_cons_of_mem _ List.mem_cons_self))
    · exact .inr (.inr later)

private theorem iterate_back_words (count : ℕ) (cmd : Cmd ω) : (Nat.iterate Cmd.back count cmd).words = cmd.words := by
  induction count generalizing cmd with
  | zero => rfl
  | succ count ih => exact ih (.back cmd)

theorem Derives.words (derived : Derives level ts c) (member : w ∈ c.words) : .word w ∈ ts := by
  induction derived with
  | items items => exact (words_items member).resolve_left List.not_mem_nil
  | block inner redirs _ _ ih =>
    rcases words_items member with inside | behind
    · exact List.mem_append_left _ (List.mem_cons_of_mem _ (ih inside))
    · exact List.mem_append_right _ (List.mem_cons_of_mem _ behind)
  | part one ih => exact ih member
  | pipe one others ih ih' =>
    rcases List.mem_append.mp member with left | right
    · exact List.mem_append_left _ (ih left)
    · exact List.mem_append_right _ (List.mem_cons_of_mem _ (ih' right))
  | backs one count ih =>
    rw [iterate_back_words] at member
    exact List.mem_append_left _ (ih member)
  | list one count others ih ih' =>
    rcases List.mem_append.mp member with left | right
    · rw [iterate_back_words] at left
      exact List.mem_append_left _ (List.mem_append_left _ (ih left))
    · exact List.mem_append_right _ (List.mem_cons_of_mem _ (ih' right))

/-- The words of an accepted line are cut out of it. -/
theorem cut_of_accepted (enough : 4 * buf.length + 4 ≤ fuel) (run : parsecmd fuel buf = some (.ok c))
    (member : w ∈ c.words) :
    Cut (line buf) w :=
  cut_lex (line_plain buf) (Derives.words ((accepts_iff buf enough).mp run) member)

private theorem getElem_terminate (es : ℕ) (words : List Word) (buf : List Char) (i : ℕ) :
    (words.foldl (terminate es) buf)[i]? = if ∃ w ∈ words, es - w.eq.length = i then buf[i]?.map fun _ => nul
    else buf[i]? := by
  induction words generalizing buf with
  | nil => simp
  | cons v words ih =>
    rw [List.foldl_cons, ih, terminate, List.getElem?_set]
    by_cases here : es - v.eq.length = i
    · have present : ∃ w ∈ v :: words, es - w.eq.length = i := ⟨v, List.mem_cons_self, here⟩
      subst here
      rw [if_pos present, if_pos rfl]
      by_cases inside : es - v.eq.length < buf.length
      · rw [if_pos inside, List.getElem?_eq_getElem inside]
        split_ifs <;> rfl
      · rw [if_neg inside, List.getElem?_eq_none (Nat.le_of_not_lt inside)]
        split_ifs <;> rfl
    · have moved : (∃ w ∈ v :: words, es - w.eq.length = i) ↔ ∃ w ∈ words, es - w.eq.length = i := by
        constructor
        · rintro ⟨w, member, same⟩
          rcases List.mem_cons.mp member with rfl | later
          · exact absurd same here
          · exact ⟨w, later, same⟩
        · rintro ⟨w, member, same⟩
          exact ⟨w, List.mem_cons_of_mem _ member, same⟩
      rw [if_neg here]
      simp only [moved]

private theorem nulterminate_eq (es : ℕ) (c : Cmd Word) (buf : List Char) :
    nulterminate es c buf = c.words.foldl (terminate es) buf := by
  induction c generalizing buf with
  | exec argv => rfl
  | redir cmd file mode fd ih => rw [nulterminate, ih, Cmd.words, List.foldl_append]; rfl
  | pipe left right ih ih' => rw [nulterminate, ih, ih', Cmd.words, List.foldl_append]
  | list left right ih ih' => rw [nulterminate, ih, ih', Cmd.words, List.foldl_append]
  | back cmd ih => exact ih buf

/-- A string that is known up to its NUL. -/
private theorem line_of (chars : ∀ c ∈ text, c ≠ nul) (same : ∀ k (inside : k < text.length), buf[k]? = some text[k])
    (stop : ∀ c ∈ buf[text.length]?, c = nul) : line buf = text := by
  induction text generalizing buf with
  | nil =>
    cases buf with
    | nil => rfl
    | cons c rest =>
      have zero : c = nul := stop c rfl
      rw [line, List.takeWhile_cons_of_neg]
      simpa using zero
  | cons a text ih =>
    have first := same 0 (Nat.succ_pos _)
    cases buf with
    | nil => cases first
    | cons c rest =>
      rw [List.getElem?_cons_zero, Option.some.injEq] at first
      obtain rfl : c = a := first
      rw [List.forall_mem_cons] at chars
      rw [line, List.takeWhile_cons, if_pos (decide_eq_true chars.1)]
      congr 1
      refine ih chars.2 (fun k inside => ?_) stop
      exact same (k + 1) (Nat.succ_lt_succ inside)

/-- After `nulterminate`, the string at the pointer to each word of the command is that word. -/
theorem nulterminate_words (enough : 4 * buf.length + 4 ≤ fuel) (run : parsecmd fuel buf = some (.ok c)) :
    ∀ w ∈ c.words, line ((nulterminate (line buf).length c buf).drop ((line buf).length - w.q.length)) = w.text := by
  intro w member
  have cut := cut_of_accepted enough run member
  obtain ⟨before, whole⟩ := cut.inside
  have start : (line buf).length - w.q.length = before.length := by
    rw [← whole, List.length_append, Nat.add_sub_cancel]
  have parts := congrArg List.length cut.split
  have lengths := congrArg List.length whole
  rw [List.length_append] at parts lengths
  have inLine : ∀ k, k < (line buf).length → buf[k]? = (line buf)[k]? := by
    intro k inside
    have first := List.takeWhile_prefix (p := (· ≠ nul)) (l := buf)
    rw [List.getElem?_eq_getElem inside, List.getElem?_eq_getElem (Nat.lt_of_lt_of_le inside first.length_le)]
    exact congrArg some (first.getElem inside).symm
  rw [nulterminate_eq, start]
  refine line_of (fun c inside => (cut.plain.chars c inside).2) (fun k inside => ?_) fun c stop => ?_
  · have char : (line buf)[before.length + k]? = some w.text[k] := by
      rw [← whole, List.getElem?_append_right (Nat.le_add_right _ _), Nat.add_sub_cancel_left, cut.split,
        List.getElem?_append_left inside, List.getElem?_eq_getElem inside]
    rw [List.getElem?_drop, getElem_terminate, if_neg, inLine _ (by omega), char]
    -- a NUL comes in the place of a character that belongs to no word, or at the end
    rintro ⟨v, member', same⟩
    have cut' := cut_of_accepted enough run member'
    have behind : v.eq <:+ line buf := by
      refine List.IsSuffix.trans ?_ cut'.inside
      rw [cut'.split]
      exact List.suffix_append _ _
    obtain ⟨before', whole'⟩ := behind
    have lengths' := congrArg List.length whole'
    rw [List.length_append] at lengths'
    have head : v.eq.head? = some w.text[k] := by
      rw [← char, ← whole', List.getElem?_append_right (by omega),
        show before.length + k - before'.length = 0 by omega, List.head?_eq_getElem?]
    have other := cut'.stop _ head
    rw [(cut.plain.chars _ (List.getElem_mem inside)).1] at other
    exact Bool.true_eq_false.mp other
  · rw [List.getElem?_drop, getElem_terminate, if_pos ⟨w, member, by omega⟩, Option.mem_def, Option.map_eq_some_iff]
      at stop
    obtain ⟨_, _, rfl⟩ := stop
    rfl

def Cmd.map (f : ω → υ) : Cmd ω → Cmd υ
  | .exec argv => .exec (argv.map f)
  | .redir cmd file mode fd => .redir (cmd.map f) (f file) mode fd
  | .pipe left right => .pipe (left.map f) (right.map f)
  | .list left right => .list (left.map f) (right.map f)
  | .back cmd => .back (cmd.map f)

/-- The commands that a line can say. -/
def Cmd.Valid : Cmd (List Char) → Prop
  | .exec argv => argv.length < MAXARGS ∧ ∀ w ∈ argv, Plain w
  | .redir cmd file mode fd => cmd.Valid ∧ Plain file ∧ (mode = O_RDONLY ∧ fd = 0 ∨ mode = O_WRONLY ||| O_CREATE ∧ fd = 1)
  | .pipe left right => left.Valid ∧ right.Valid
  | .list left right => left.Valid ∧ right.Valid
  | .back cmd => cmd.Valid

/-- A command as a line, with parentheses around the parts. -/
def Cmd.print : Cmd (List Char) → List Char
  | .exec argv => argv.flatMap (· ++ [' '])
  | .redir cmd file _ fd => '(' :: cmd.print ++ [')', if fd = 0 then '<' else '>'] ++ file ++ [' ']
  | .pipe left right => '(' :: left.print ++ [')', '|', '('] ++ right.print ++ [')']
  | .list left right => '(' :: left.print ++ [')', ';', '('] ++ right.print ++ [')']
  | .back cmd => '(' :: cmd.print ++ [')', '&']

/-- A symbol in front. -/
theorem lex_symbol {k : Char} (symbol : k ∈ ['|', '(', ')', ';', '&', '<']) : lex (k :: rest) = .sym k :: lex rest := by
  have here : skip (k :: rest) = k :: rest := by
    simp only [List.mem_cons, List.not_mem_nil, or_false] at symbol
    rcases symbol with rfl | rfl | rfl | rfl | rfl | rfl <;> rfl
  have others : k ≠ nul ∧ k ≠ 'a' := by
    refine ⟨?_, ?_⟩ <;> rintro rfl <;> exact absurd symbol (by decide)
  have same : token (k :: rest) = (k, rest) := by rw [token, if_neg others.1, if_pos symbol]
  rw [lex_eq, here, same, if_neg others.1, Tok.of, if_neg others.2, lex_skip]

/-- A `>` in front of something else. -/
private theorem lex_greater {first : Char} (other : first ≠ '>') :
    lex ('>' :: first :: rest) = .sym '>' :: lex (first :: rest) := by
  have same : token ('>' :: first :: rest) = ('>', first :: rest) := by
    rw [token, if_neg (by decide), if_neg (by decide), if_pos rfl, greater]
    rintro rest' same
    cases same
    exact other rfl
  rw [lex_eq, show skip ('>' :: first :: rest) = '>' :: first :: rest from rfl, same,
    if_neg (show '>' ≠ nul by decide), Tok.of,
    if_neg (show '>' ≠ 'a' by decide), lex_skip]

/-- A word in front, with a blank behind it. -/
theorem lex_word (rest : Ptr) (plain : Plain text) : ∃ w : Word, w.text = text ∧
    lex (text ++ ' ' :: rest) = .word w :: lex rest := by
  obtain ⟨first, more, rfl⟩ := List.exists_cons_of_ne_nil plain.some
  have begins := plain.chars first List.mem_cons_self
  have blank : lex (' ' :: rest) = lex rest := by rw [← lex_skip (' ' :: rest), ← lex_skip rest]; rfl
  have here : skip (first :: more ++ ' ' :: rest) = first :: more ++ ' ' :: rest := by
    have inside := begins.1
    rw [inWord, Bool.and_eq_true, Bool.not_eq_true'] at inside
    exact List.dropWhile_cons_of_neg (by rw [inside.1]; exact Bool.false_ne_true)
  have stop : (first :: more ++ ' ' :: rest).dropWhile inWord = ' ' :: rest := by
    rw [List.dropWhile_append_of_pos fun c member => (plain.chars c member).1]
    rfl
  have same : token (first :: more ++ ' ' :: rest) = ('a', ' ' :: rest) := by
    have known := begins.1
    rw [List.cons_append, token, if_neg begins.2, if_neg, if_neg, ← List.cons_append, stop]
    · rintro rfl
      exact absurd known (by decide)
    · intro symbol
      simp only [List.mem_cons, List.not_mem_nil, or_false] at symbol
      rcases symbol with rfl | rfl | rfl | rfl | rfl | rfl <;> exact absurd known (by decide)
  refine ⟨⟨first :: more ++ ' ' :: rest, ' ' :: rest⟩, ?_, ?_⟩
  · rw [Word.text, List.length_append, Nat.add_sub_cancel, List.take_left]
  · rw [lex_eq, here, same, if_neg (show 'a' ≠ nul by decide), Tok.of, if_pos rfl, lex_skip, blank]

private theorem lex_words (rest : Ptr) {argv : List (List Char)} (plain : ∀ w ∈ argv, Plain w) :
    ∃ ws : List Word, ws.map Word.text = argv ∧
    lex (argv.flatMap (· ++ [' ']) ++ rest) = ws.map Tok.word ++ lex rest := by
  induction argv with
  | nil => exact ⟨[], rfl, rfl⟩
  | cons text argv ih =>
    rw [List.forall_mem_cons] at plain
    obtain ⟨ws, texts, later⟩ := ih plain.2
    obtain ⟨w, rfl, first⟩ := lex_word (argv.flatMap (· ++ [' ']) ++ rest) plain.1
    refine ⟨w :: ws, by rw [List.map_cons, texts], ?_⟩
    rw [List.flatMap_cons, List.append_assoc, List.append_assoc, List.singleton_append, first, later]
    rfl

private theorem derives_words {ws : List Word} (few : ws.length < MAXARGS) : Derives .exec (ws.map Tok.word) (.exec ws) := by
  have toks : (ws.map Item.word).flatMap Item.toks = ws.map Tok.word := by
    rw [List.flatMap_map]
    exact List.flatMap_pure_eq_map Tok.word ws
  have count : (ws.map Item.word).countP Item.isWord = ws.length := by
    rw [List.countP_map]
    exact List.countP_eq_length.mpr fun _ _ => rfl
  have applied : ∀ argv : List Word, (ws.map Item.word).foldl Item.apply (.exec argv) = .exec (argv ++ ws) := by
    clear few toks count
    induction ws with
    | nil =>
      intro argv
      rw [List.append_nil]
      rfl
    | cons w ws ih =>
      intro argv
      have later := ih (argv ++ [w])
      rw [List.append_assoc, List.singleton_append] at later
      exact later
  have derived := Derives.items (ws.map Item.word) (fun i member =>
    by obtain ⟨w, _, rfl⟩ := List.mem_map.mp member; exact trivial)
    (by rw [count]; exact few)
  rw [toks, applied] at derived
  exact derived

theorem Derives.line {d : Cmd Word} (derived : Derives .pipe ts d) : Derives .line ts d := by
  have whole := Derives.backs derived 0
  rw [List.replicate_zero, List.append_nil] at whole
  exact whole

/-- The tokens of a command that has been written down derive it, whatever comes next. -/
def Printed (level : Level) (t : Cmd (List Char)) (text : List Char) : Prop :=
  ∀ rest, ∃ ts d, lex (text ++ rest) = ts ++ lex rest ∧ Derives level ts d ∧ d.map Word.text = t

variable {t u : Cmd (List Char)}

/-- Parentheses around a part. -/
theorem Printed.parens (inner : Printed .line t text) : Printed .exec t ('(' :: text ++ [')']) := by
  intro rest
  obtain ⟨ts, d, read, derived, texts⟩ := inner (')' :: rest)
  refine ⟨_, d, ?_, Derives.block derived [] (fun _ member => absurd member List.not_mem_nil) (fun _ member =>
    absurd member List.not_mem_nil),
    texts⟩
  rw [List.append_assoc, List.cons_append, lex_symbol (by decide), List.singleton_append, read, lex_symbol (by decide)]
  simp

theorem Printed.redir {file : List Char} {mode fd : ℕ} (inner : Printed .line t text) (plain : Plain file)
    (known : mode = O_RDONLY ∧ fd = 0 ∨ mode = O_WRONLY ||| O_CREATE ∧ fd = 1) :
    Printed .exec (.redir t file mode fd) ('(' :: text ++ [')', if fd = 0 then '<' else '>'] ++ file ++ [' ']) := by
  intro rest
  obtain ⟨ts, d, read, derived, rfl⟩ := inner (')' :: (if fd = 0 then '<' else '>') :: (file ++ ' ' :: rest))
  obtain ⟨w, rfl, word⟩ := lex_word rest plain
  obtain ⟨first, more, begins⟩ := List.exists_cons_of_ne_nil plain.some
  have notGreater : first ≠ '>' := by
    rintro rfl
    have inside := (plain.chars '>' (by rw [begins]; exact List.mem_cons_self)).1
    exact absurd inside (by decide)
  obtain ⟨kind, isKind, symbol, result⟩ : ∃ kind, kind ∈ ['<', '>', '+'] ∧
      lex ((if fd = 0 then '<' else '>') :: (w.text ++ ' ' :: rest)) = .sym kind :: .word w :: lex rest ∧
      Sh.redir kind d w = .redir d w mode fd := by
    rcases known with ⟨rfl, rfl⟩ | ⟨rfl, rfl⟩
    · refine ⟨'<', by decide, ?_, rfl⟩
      rw [if_pos rfl, lex_symbol (by decide), word]
    · refine ⟨'>', by decide, ?_, rfl⟩
      rw [if_neg Nat.one_ne_zero, ← word, begins, List.cons_append, lex_greater notGreater]
  have whole := Derives.block derived [.redir kind w] (by rw [List.forall_mem_singleton]; exact isKind)
    (by rw [List.forall_mem_singleton]; rfl)
  refine ⟨_, _, ?_, whole, ?_⟩
  · rw [show '(' :: text ++ [')', if fd = 0 then '<' else '>'] ++ w.text ++ [' '] ++ rest =
      '(' :: (text ++ ')' :: (if fd = 0 then '<' else '>') :: (w.text ++ ' ' :: rest)) by simp]
    rw [lex_symbol (by decide), read, lex_symbol (by decide), symbol]
    simp [Item.toks]
  · change (Sh.redir kind d w).map Word.text = _
    rw [result]
    rfl

theorem Cmd.Valid.printed (valid : t.Valid) : Printed .line t t.print := by
  induction t with
  | exec argv =>
    intro rest
    obtain ⟨ws, rfl, read⟩ := lex_words rest valid.2
    exact ⟨ws.map Tok.word, .exec ws, read,
      (Derives.part (derives_words (by rw [← List.length_map Word.text]; exact valid.1))).line, rfl⟩
  | redir cmd file mode fd ih =>
    intro rest
    obtain ⟨ts, d, read, derived, texts⟩ := (ih valid.1).redir valid.2.1 valid.2.2 rest
    exact ⟨ts, d, read, (Derives.part derived).line, texts⟩
  | pipe left right ih ih' =>
    intro rest
    obtain ⟨us, e, read', derived', rfl⟩ := (ih' valid.2).parens rest
    obtain ⟨ts, d, read, derived, rfl⟩ := (ih valid.1).parens ('|' :: ('(' :: (e.map Word.text).print ++ [')'] ++ rest))
    refine ⟨_, _, ?_, (Derives.pipe derived (.part derived')).line, rfl⟩
    rw [lex_symbol (by decide), read'] at read
    rw [List.append_assoc, List.cons_append, ← read]
    congr 1
    simp [Cmd.print]
  | list left right ih ih' =>
    intro rest
    obtain ⟨us, e, read', derived', rfl⟩ := (ih' valid.2).parens rest
    obtain ⟨ts, d, read, derived, rfl⟩ := (ih valid.1).parens (';' :: ('(' :: (e.map Word.text).print ++ [')'] ++ rest))
    refine ⟨_, _, ?_, Derives.list (.part derived) 0 (Derives.part derived').line, rfl⟩
    rw [lex_symbol (by decide), read'] at read
    rw [List.replicate_zero, List.append_nil, List.append_assoc, List.cons_append, ← read]
    congr 1
    simp [Cmd.print]
  | back cmd ih =>
    intro rest
    obtain ⟨ts, d, read, derived, rfl⟩ := (ih valid).parens ('&' :: rest)
    refine ⟨_, _, ?_, Derives.backs (.part derived) 1, rfl⟩
    rw [lex_symbol (by decide)] at read
    rw [List.append_assoc, List.replicate_one, List.singleton_append, ← read]
    congr 1
    simp [Cmd.print]

/-- So many more words may be added to a command. -/
def Cmd.Room (k : ℕ) : Cmd Word → Prop
  | .exec argv => argv.length + k < MAXARGS ∧ ∀ w ∈ argv, Plain w.text
  | .redir cmd file mode fd => cmd.Room k ∧ Plain file.text ∧
      (mode = O_RDONLY ∧ fd = 0 ∨ mode = O_WRONLY ||| O_CREATE ∧ fd = 1)
  | cmd => k = 0 ∧ (cmd.map Word.text).Valid

variable {cmd : Cmd Word} {k : ℕ}

private theorem room_zero_iff : cmd.Room 0 ↔ (cmd.map Word.text).Valid := by
  induction cmd with
  | exec argv =>
    rw [Cmd.Room, Cmd.map, Cmd.Valid, List.length_map, List.forall_mem_map, Nat.add_zero]
  | redir cmd file mode fd ih =>
    rw [Cmd.Room, Cmd.map, Cmd.Valid, ih]
  | pipe left right _ _ => exact and_iff_right rfl
  | list left right _ _ => exact and_iff_right rfl
  | back cmd _ => exact and_iff_right rfl

theorem Cmd.Room.arg (room : cmd.Room (k + 1)) (plain : Plain w.text) : (cmd.arg w).Room k := by
  induction cmd with
  | exec argv =>
    refine ⟨by rw [List.length_append, List.length_singleton]; have fits := room.1; omega, ?_⟩
    rw [List.forall_mem_append, List.forall_mem_singleton]
    exact ⟨room.2, plain⟩
  | redir cmd file mode fd ih => exact ⟨ih room.1, room.2⟩
  | pipe left right _ _ => exact absurd room.1 (Nat.succ_ne_zero k)
  | list left right _ _ => exact absurd room.1 (Nat.succ_ne_zero k)
  | back cmd _ => exact absurd room.1 (Nat.succ_ne_zero k)

theorem Cmd.Room.redir {kind : Char} (room : cmd.Room k) (plain : Plain w.text) (known : kind ∈ ['<', '>', '+']) :
    (Sh.redir kind cmd w).Room k := by
  simp only [List.mem_cons, List.not_mem_nil, or_false] at known
  rcases known with rfl | rfl | rfl
  · exact ⟨room, plain, .inl ⟨rfl, rfl⟩⟩
  · exact ⟨room, plain, .inr ⟨rfl, rfl⟩⟩
  · exact ⟨room, plain, .inr ⟨rfl, rfl⟩⟩

theorem Cmd.Room.items {items : List Item} (room : cmd.Room (items.countP Item.isWord)) (known : ∀ i ∈ items, i.Known)
    (plain : ∀ w, .word w ∈ items.flatMap Item.toks → Plain w.text) : (items.foldl Item.apply cmd).Room 0 := by
  induction items generalizing cmd with
  | nil => exact room
  | cons i items ih =>
    rw [List.forall_mem_cons] at known
    rw [List.flatMap_cons] at plain
    have later : ∀ w, .word w ∈ items.flatMap Item.toks → Plain w.text :=
      fun w member => plain w (List.mem_append_right _ member)
    cases i with
    | word w =>
      rw [List.countP_cons_of_pos rfl] at room
      exact ih (room.arg (plain w (List.mem_append_left _ List.mem_cons_self))) known.2 later
    | redir kind w =>
      rw [List.countP_cons_of_neg (by exact Bool.false_ne_true)] at room
      exact ih (room.redir (plain w (List.mem_append_left _ (List.mem_cons_of_mem _ List.mem_cons_self))) known.1)
        known.2 later

private theorem iterate_back_valid (count : ℕ) (valid : (c.map Word.text).Valid) :
    ((Nat.iterate Cmd.back count c).map Word.text).Valid := by
  induction count generalizing c with
  | zero => exact valid
  | succ count ih => exact ih (c := .back c) valid

theorem Derives.valid (derived : Derives level ts c) (plain : ∀ w, .word w ∈ ts → Plain w.text) :
    (c.map Word.text).Valid := by
  induction derived with
  | items items known few =>
    refine room_zero_iff.mp (Cmd.Room.items ⟨?_, fun _ member => absurd member List.not_mem_nil⟩ known plain)
    rw [List.length_nil, Nat.zero_add]
    exact few
  | block inner redirs known noWord ih =>
    have valid := ih fun w member => plain w (List.mem_append_left _ (List.mem_cons_of_mem _ member))
    refine room_zero_iff.mp (Cmd.Room.items ?_ known fun w member =>
      plain w (List.mem_append_right _ (List.mem_cons_of_mem _ member)))
    rw [countP_redirs noWord]
    exact room_zero_iff.mpr valid
  | part one ih => exact ih plain
  | pipe one others ih ih' =>
    exact ⟨ih fun w member => plain w (List.mem_append_left _ member),
      ih' fun w member => plain w (List.mem_append_right _ (List.mem_cons_of_mem _ member))⟩
  | backs one count ih => exact iterate_back_valid count (ih fun w member => plain w (List.mem_append_left _ member))
  | list one count others ih ih' =>
    refine ⟨iterate_back_valid count (ih fun w member => ?_), ih' fun w member => ?_⟩
    · exact plain w (List.mem_append_left _ (List.mem_append_left _ member))
    · exact plain w (List.mem_append_right _ (List.mem_cons_of_mem _ member))

theorem valid_of_accepted (enough : 4 * buf.length + 4 ≤ fuel) (run : parsecmd fuel buf = some (.ok c)) :
    (c.map Word.text).Valid :=
  Derives.valid ((accepts_iff buf enough).mp run) fun _ member => (cut_lex (line_plain buf) member).plain

private theorem print_plain (valid : t.Valid) : ∀ c ∈ t.print, c ≠ nul := by
  induction t with
  | exec argv =>
    intro c member
    obtain ⟨w, inside, here⟩ := List.mem_flatMap.mp member
    rcases List.mem_append.mp here with char | blank
    · exact ((valid.2 w inside).chars c char).2
    · rw [List.mem_singleton.mp blank]
      decide
  | redir cmd file mode fd ih =>
    rw [Cmd.print]
    simp only [List.forall_mem_append, List.forall_mem_cons]
    refine ⟨⟨⟨⟨by decide, ih valid.1⟩, by decide, ?_, ?_⟩, fun c member => (valid.2.1.chars c member).2⟩, by decide, ?_⟩
    · split_ifs <;> decide
    · exact List.forall_mem_nil _
    · exact List.forall_mem_nil _
  | pipe left right ih ih' | list left right ih ih' =>
    rw [Cmd.print]
    simp only [List.forall_mem_append, List.forall_mem_cons]
    exact ⟨⟨⟨⟨by decide, ih valid.1⟩, by decide, by decide, by decide, List.forall_mem_nil _⟩, ih' valid.2⟩,
      by decide, List.forall_mem_nil _⟩
  | back cmd ih =>
    rw [Cmd.print]
    simp only [List.forall_mem_append, List.forall_mem_cons]
    exact ⟨⟨by decide, ih valid⟩, by decide, by decide, List.forall_mem_nil _⟩

/-- A command is valid exactly when the parser reads it back from what is written down for it, and the
parser never returns any other command. -/
theorem parse_print (t : Cmd (List Char)) (enough : 4 * t.print.length + 4 ≤ fuel) :
    (t.Valid ↔ ∃ d, parsecmd fuel t.print = some (.ok d) ∧ d.map Word.text = t) ∧
      ∀ n buf d, 4 * buf.length + 4 ≤ n → parsecmd n buf = some (.ok d) → (d.map Word.text).Valid := by
  refine ⟨⟨fun valid => ?_, ?_⟩, fun n buf d enough' run => valid_of_accepted enough' run⟩
  · obtain ⟨ts, d, read, derived, texts⟩ := valid.printed []
    rw [List.append_nil] at read
    have whole : line t.print = t.print := List.takeWhile_eq_self_iff.mpr fun c member =>
      decide_eq_true (print_plain valid c member)
    refine ⟨d, (accepts_iff _ enough).mpr ?_, texts⟩
    rw [whole, read, show lex [] = [] from rfl, List.append_nil]
    exact derived
  · rintro ⟨d, run, rfl⟩
    exact valid_of_accepted enough run

/-- `(a bc )&`. -/
def job : Cmd (List Char) := .back (.exec [['a'], ['b', 'c']])

theorem parse_print_job : ∃ d, parsecmd 100 job.print = some (.ok d) ∧ d.map Word.text = job := by
  have plain : Plain ['a'] ∧ Plain ['b', 'c'] := by
    refine ⟨⟨List.cons_ne_nil _ _, ?_⟩, ⟨List.cons_ne_nil _ _, ?_⟩⟩ <;> simp [inWord, whitespace, symbols, nul]
  refine ((parse_print job (by decide)).1.mp ⟨by decide, ?_⟩)
  rw [List.forall_mem_cons, List.forall_mem_singleton]
  exact plain

end Cs537.Sh
