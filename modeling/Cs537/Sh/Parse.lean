import Mathlib.Control.Monad.Basic
import Mathlib.Data.List.Basic

/-! # The shell's parser

`sh.c`: recursive descent over the command line with one token of lookahead. A pointer into the line is what
stands from there to the end of the line, and a word is the pair of pointers that the parser keeps for it.
The functions call each other as often as parentheses are nested and commands are joined, so they take fuel;
out of fuel is no result, and `panic` is an error.
-/

namespace Cs537.Sh

/-- `MAXARGS`. -/
def MAXARGS : ℕ := 10

abbrev Ptr := List Char

def nul : Char := Char.ofNat 0

/-- `*s`. The character at the end of the line is NUL. -/
def deref (s : Ptr) : Char := s.headD nul

def whitespace : List Char := [' ', '\t', '\r', '\n', Char.ofNat 11]

def symbols : List Char := ['<', '|', '>', '&', ';', '(', ')']

def skip (s : Ptr) : Ptr := s.dropWhile whitespace.contains

/-- The characters that the loop for a word passes over. -/
def inWord (c : Char) : Bool := !whitespace.contains c && !symbols.contains c

/-- Behind a `>`, there may be another one. -/
def greater : Ptr → Char × Ptr
  | '>' :: rest => ('+', rest)
  | rest => ('>', rest)

/-- The switch of `gettoken`: the kind of the token, which is the symbol itself, `+` for two `>` and `a` for
a word, and its end. -/
def token (s : Ptr) : Char × Ptr := match s with
  | [] => (nul, s)
  | c :: rest =>
    if c = nul then (nul, s)
    else if c ∈ ['|', '(', ')', ';', '&', '<'] then (c, rest)
    else if c = '>' then greater rest
    else ('a', s.dropWhile inWord)

/-- A counted string, `q` up to `eq`. -/
structure Word where
  q : Ptr
  eq : Ptr
  deriving DecidableEq

def Word.text (w : Word) : List Char := w.q.take (w.q.length - w.eq.length)

/-- A parsed command over its words. -/
inductive Cmd (ω : Type)
  | exec (argv : List ω)
  | redir (cmd : Cmd ω) (file : ω) (mode fd : ℕ)
  | pipe (left right : Cmd ω)
  | list (left right : Cmd ω)
  | back (cmd : Cmd ω)
  deriving DecidableEq

/-- `cmd->argv[argc] = q`, through the pointer that `parseexec` keeps of the command inside the redirections. -/
def Cmd.arg {ω : Type} (w : ω) : Cmd ω → Cmd ω
  | .exec argv => .exec (argv ++ [w])
  | .redir cmd file mode fd => .redir (cmd.arg w) file mode fd
  | cmd => cmd

/-- What `panic` says, or the characters that are left over. -/
inductive Panic
  | panic (text : String)
  | leftovers (s : Ptr)
  deriving DecidableEq

abbrev Parser := StateT Ptr (ExceptT Panic Option)

/-- The kind and the place of a token, behind which the state moves. -/
def gettoken : Parser (Char × Word) := fun s =>
  let q := skip s
  let (ret, eq) := token q
  some (.ok ((ret, ⟨q, eq⟩), skip eq))

def peek (toks : List Char) : Parser Bool := fun s =>
  let s := skip s
  some (.ok (deref s != nul && toks.contains (deref s), s))

def panic (text : String) {α : Type} : Parser α := fun _ => some (.error (.panic text))

def outOfFuel {α : Type} : Parser α := fun _ => none

def O_RDONLY : ℕ := 0

def O_WRONLY : ℕ := 1

def O_CREATE : ℕ := 0x200

/-- `redircmd` for a kind of redirection. -/
def redir (tok : Char) (cmd : Cmd Word) (file : Word) : Cmd Word :=
  if tok = '<' then .redir cmd file O_RDONLY 0
  else if tok = '>' then .redir cmd file (O_WRONLY ||| O_CREATE) 1
  else if tok = '+' then .redir cmd file (O_WRONLY ||| O_CREATE) 1
  else cmd

def parseredirs : ℕ → Cmd Word → Parser (Cmd Word)
  | 0, _ => outOfFuel
  | fuel + 1, cmd => do
    if ← peek ['<', '>'] then
      let (tok, _) ← gettoken
      let (kind, file) ← gettoken
      if kind ≠ 'a' then panic "missing file for redirection" else parseredirs fuel (redir tok cmd file)
    else pure cmd

/-- The loop of `parseexec`. -/
def parseargs : ℕ → ℕ → Cmd Word → Parser (Cmd Word)
  | 0, _, _ => outOfFuel
  | fuel + 1, argc, ret => do
    if ← peek ['|', ')', '&', ';'] then pure ret
    else
      let (tok, w) ← gettoken
      if tok = nul then pure ret
      else if tok ≠ 'a' then panic "syntax"
      else if MAXARGS ≤ argc + 1 then panic "too many args"
      else
        let ret ← parseredirs fuel (ret.arg w)
        parseargs fuel (argc + 1) ret

/-- The loop of `parseline`. -/
def parsebacks : ℕ → Cmd Word → Parser (Cmd Word)
  | 0, _ => outOfFuel
  | fuel + 1, cmd => do
    if ← peek ['&'] then
      let _ ← gettoken
      parsebacks fuel (.back cmd)
    else pure cmd

mutual

def parseline : ℕ → Parser (Cmd Word)
  | 0 => outOfFuel
  | fuel + 1 => do
    let cmd ← parsepipe fuel
    let cmd ← parsebacks fuel cmd
    if ← peek [';'] then
      let _ ← gettoken
      let right ← parseline fuel
      pure (.list cmd right)
    else pure cmd

def parsepipe : ℕ → Parser (Cmd Word)
  | 0 => outOfFuel
  | fuel + 1 => do
    let cmd ← parseexec fuel
    if ← peek ['|'] then
      let _ ← gettoken
      let right ← parsepipe fuel
      pure (.pipe cmd right)
    else pure cmd

def parseblock : ℕ → Parser (Cmd Word)
  | 0 => outOfFuel
  | fuel + 1 => do
    if !(← peek ['(']) then panic "parseblock"
    else
      let _ ← gettoken
      let cmd ← parseline fuel
      if !(← peek [')']) then panic "syntax - missing )"
      else
        let _ ← gettoken
        parseredirs fuel cmd

def parseexec : ℕ → Parser (Cmd Word)
  | 0 => outOfFuel
  | fuel + 1 => do
    if ← peek ['('] then parseblock fuel
    else
      let ret ← parseredirs fuel (.exec [])
      parseargs fuel 0 ret

end

/-- `strlen` cuts the line off. -/
def line (buf : List Char) : Ptr := buf.takeWhile (· ≠ nul)

def parsecmd (fuel : ℕ) (buf : List Char) : Option (Except Panic (Cmd Word)) :=
  match parseline fuel (line buf) with
  | none => none
  | some (.error e) => some (.error e)
  | some (.ok (cmd, s)) =>
    let s := skip s
    if s ≠ [] then some (.error (.leftovers s)) else some (.ok cmd)

/-- `*eq = 0`, with `es` at the end of the line. -/
def terminate (es : ℕ) (buf : List Char) (w : Word) : List Char := buf.set (es - w.eq.length) nul

/-- NUL-terminate all the counted strings. -/
def nulterminate (es : ℕ) : Cmd Word → List Char → List Char
  | .exec argv, buf => argv.foldl (terminate es) buf
  | .redir cmd file _ _, buf => terminate es (nulterminate es cmd buf) file
  | .pipe left right, buf => nulterminate es right (nulterminate es left buf)
  | .list left right, buf => nulterminate es right (nulterminate es left buf)
  | .back cmd, buf => nulterminate es cmd buf

end Cs537.Sh
