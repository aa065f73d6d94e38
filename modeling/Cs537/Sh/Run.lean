import Cs537.Sh.Print
import Mathlib.Logic.Function.Basic

/-! # Running a command

`runcmd` forks, opens files and pipes and moves them to the descriptors that programs read from and write
to; a new descriptor is the lowest free one. The meaning of a command is simpler: its programs, each with
the file that it reads and the file that it writes, a pipe between the two sides of a `|`. A process that
starts with the three standard descriptors and no others gives each program exactly the files that the
meaning says, and no descriptor of a pipe is left open in it. `fork` is taken to succeed.
-/

namespace Cs537.Sh

/-- `NOFILE`. -/
def NOFILE : ℕ := 16

/-- A file that was opened, or an end of a pipe. -/
inductive File (φ : Type)
  | file (f : φ)
  | readEnd (id : ℕ)
  | writeEnd (id : ℕ)
  deriving DecidableEq

abbrev Fds (φ : Type) := ℕ → Option (File φ)

variable {φ : Type}

/-- The first free descriptor. -/
def fdalloc (t : Fds φ) (f : File φ) : Option (Fds φ × ℕ) :=
  ((List.range NOFILE).find? fun fd => (t fd).isNone).map fun fd => (Function.update t fd (some f), fd)

def close (t : Fds φ) (fd : ℕ) : Fds φ := Function.update t fd none

def dup (t : Fds φ) (fd : ℕ) : Fds φ := match (t fd).bind (fdalloc t) with
  | some (t, _) => t
  | none => t

/-- `sys_pipe`: the two descriptors. -/
def pipe (t : Fds φ) (id : ℕ) : Option (Fds φ × ℕ × ℕ) := do
  let (t, fd0) ← fdalloc t (.readEnd id)
  let (t, fd1) ← fdalloc t (.writeEnd id)
  some (t, fd0, fd1)

/-- What a command leads to: a program with its descriptors, or a line on descriptor 2. -/
inductive Event (φ : Type)
  | exec (argv : List (List Char)) (fds : Fds φ)
  | message (text : String) (file : List Char) (err : Option (File φ))

/-- What the file system has: the files that can be opened, and whether there is a program. -/
structure Env (φ : Type) where
  opens : List Char → ℕ → Option φ
  program : List Char → Bool

/-- `runcmd`, in a process with some descriptors; pipes are numbered. -/
def runcmd (env : Env φ) : Cmd (List Char) → Fds φ → ℕ → List (Event φ) × ℕ
  | .exec [], _, n => ([], n)
  | .exec (path :: argv), t, n =>
    if env.program path then ([.exec (path :: argv) t], n) else ([.message "exec %s failed" path (t 2)], n)
  | .redir cmd file mode fd, t, n =>
    let t := close t fd
    match (env.opens file mode).bind fun f => fdalloc t (.file f) with
    | none => ([.message "open %s failed" file (t 2)], n)
    | some (t, _) => runcmd env cmd t n
  | .list left right, t, n =>
    let (first, n) := runcmd env left t n
    let (second, n) := runcmd env right t n
    (first ++ second, n)
  | .pipe left right, t, n => match pipe t n with
    | none => ([.message "pipe" [] (t 2)], n)
    | some (t, p0, p1) =>
      let (first, n) := runcmd env left (close (close (dup (close t 1) p1) p0) p1) (n + 1)
      let (second, n) := runcmd env right (close (close (dup (close t 0) p0) p0) p1) n
      (first ++ second, n)
  | .back cmd, t, n => runcmd env cmd t n

/-- The meaning of a command between two files: its programs with what they read and write, or what could not be had. -/
inductive Wired (φ : Type)
  | program (argv : List (List Char)) (input output : File φ)
  | missing (text : String) (file : List Char)

def wire (env : Env φ) : Cmd (List Char) → File φ → File φ → ℕ → List (Wired φ) × ℕ
  | .exec [], _, _, n => ([], n)
  | .exec (path :: argv), input, output, n =>
    if env.program path then ([.program (path :: argv) input output], n) else ([.missing "exec %s failed" path], n)
  | .redir cmd file mode fd, input, output, n => match env.opens file mode with
    | none => ([.missing "open %s failed" file], n)
    | some f => if fd = 0 then wire env cmd (.file f) output n else wire env cmd input (.file f) n
  | .list left right, input, output, n =>
    let (first, n) := wire env left input output n
    let (second, n) := wire env right input output n
    (first ++ second, n)
  | .pipe left right, input, output, n =>
    let (first, next) := wire env left input (.writeEnd n) (n + 1)
    let (second, next) := wire env right (.readEnd n) output next
    (first ++ second, next)
  | .back cmd, input, output, n => wire env cmd input output n

/-- The three standard descriptors. -/
def standard (input output err : File φ) : Fds φ
  | 0 => some input
  | 1 => some output
  | 2 => some err
  | _ => none

/-- A program with the standard descriptors. -/
def Wired.event (err : File φ) : Wired φ → Event φ
  | .program argv input output => .exec argv (standard input output err)
  | .missing text file => .message text file (some err)

variable {env : Env φ} {input output err : File φ} {n : ℕ} {t : Fds φ} {c : Cmd (List Char)}

private theorem fdalloc_zero (f : File φ) :
    fdalloc (close (standard input output err) 0) f = some (standard f output err, 0) := by
  have free : (List.range NOFILE).find? (fun fd => (close (standard input output err) 0 fd).isNone) = some 0 := rfl
  rw [fdalloc, free, Option.map_some]
  congr 2
  funext fd
  rcases fd with _ | _ | _ | fd <;> rfl

private theorem fdalloc_one (f : File φ) : fdalloc (close (standard input output err) 1) f = some (standard input f err, 1) := by
  have free : (List.range NOFILE).find? (fun fd => (close (standard input output err) 1 fd).isNone) = some 1 := rfl
  rw [fdalloc, free, Option.map_some]
  congr 2
  funext fd
  rcases fd with _ | _ | _ | fd <;> rfl

/-- The standard descriptors and the ends of a pipe. -/
def piped (input output err : File φ) (n : ℕ) : Fds φ
  | 3 => some (.readEnd n)
  | 4 => some (.writeEnd n)
  | fd => standard input output err fd

private theorem pipe_standard : pipe (standard input output err) n = some (piped input output err n, 3, 4) := by
  have first : fdalloc (standard input output err) (.readEnd n) = some
    (Function.update (standard input output err) 3 (some (.readEnd n)), 3) := rfl
  have second : fdalloc (Function.update (standard input output err) 3 (some (.readEnd n))) (.writeEnd n) =
      some (Function.update (Function.update (standard input output err) 3 (some (.readEnd n))) 4
        (some (.writeEnd n)), 4) := rfl
  rw [pipe, first]
  simp only [Option.bind_eq_bind, Option.bind_some]
  rw [second, Option.bind_some]
  congr 2
  funext fd
  rcases fd with _ | _ | _ | _ | _ | fd <;> rfl

/-- The left side of a pipe writes to it and has no other descriptor of it. -/
private theorem left_fds : close (close (dup (close (piped input output err n) 1) 4) 3) 4 = standard input (.writeEnd n) err := by
  funext fd
  rcases fd with _ | _ | _ | _ | _ | fd <;> rfl

private theorem right_fds :
    close (close (dup (close (piped input output err n) 0) 3) 3) 4 = standard (.readEnd n) output err := by
  funext fd
  rcases fd with _ | _ | _ | _ | _ | fd <;> rfl

/-- A valid command gives its programs the files of its meaning, as standard descriptors, and nothing else. -/
private theorem runcmd_wired (valid : c.Valid) :
    runcmd env c (standard input output err) n = ((wire env c input output n).1.map (Wired.event err),
    (wire env c input output n).2) := by
  induction c generalizing input output n with
  | exec argv =>
    cases argv with
    | nil => rfl
    | cons path argv =>
      rw [runcmd, wire]
      split_ifs
      · rfl
      · rfl
  | redir cmd file mode fd ih =>
    rw [runcmd, wire]
    cases env.opens file mode with
    | none =>
      rcases valid.2.2 with ⟨_, rfl⟩ | ⟨_, rfl⟩
      · rfl
      · rfl
    | some f =>
      rcases valid.2.2 with ⟨_, rfl⟩ | ⟨_, rfl⟩
      · rw [Option.bind_some, fdalloc_zero]
        exact ih valid.1
      · rw [Option.bind_some, fdalloc_one]
        exact ih valid.1
  | pipe left right ih ih' =>
    rw [runcmd, pipe_standard, wire]
    dsimp only
    rw [left_fds, right_fds, ih valid.1, ih' valid.2, List.map_append]
  | list left right ih ih' =>
    rw [runcmd, wire]
    dsimp only
    rw [ih valid.1, ih' valid.2, List.map_append]
  | back cmd ih => exact ih valid

/-- The strings of a command as `runcmd` finds them, in the buffer that `nulterminate` has gone over. -/
def strings (buf : List Char) (c : Cmd Word) : Cmd (List Char) :=
  c.map fun w => line ((nulterminate (line buf).length c buf).drop ((line buf).length - w.q.length))

private theorem map_congr {ω υ : Type} {f g : ω → υ} {c : Cmd ω} (same : ∀ w ∈ c.words, f w = g w) : c.map f = c.map g := by
  induction c with
  | exec argv => exact congrArg Cmd.exec (List.map_congr_left same)
  | redir cmd file mode fd ih =>
    rw [Cmd.map, Cmd.map, ih fun w member => same w (List.mem_append_left _ member),
      same file (List.mem_append_right _ (List.mem_singleton_self file))]
  | pipe left right ih ih' | list left right ih ih' =>
    rw [Cmd.map, Cmd.map, ih fun w member => same w (List.mem_append_left _ member), ih' fun w member =>
      same w (List.mem_append_right _ member)]
  | back cmd ih => exact congrArg Cmd.back (ih same)

/-- A command line that is accepted leads to the programs that its command means, with the words of the line
as arguments; each has its two files and the shell's descriptor 2 open, and no others. -/
theorem shell_runs_line {fuel : ℕ} {buf : List Char} {c : Cmd Word} (enough : 4 * buf.length + 4 ≤ fuel)
    (parsed : parsecmd fuel buf = some (.ok c)) :
    runcmd env (strings buf c) (standard input output err) n =
      ((wire env (c.map Word.text) input output n).1.map (Wired.event err),
      (wire env (c.map Word.text) input output n).2) := by
  have words : strings buf c = c.map Word.text := map_congr (nulterminate_words enough parsed)
  rw [words]
  exact runcmd_wired (valid_of_accepted enough parsed)

theorem shell_runs_line_echo : ∃ c, parsecmd 100 echo = some (.ok c) ∧
    runcmd ⟨fun _ _ => some 7, fun _ => true⟩ (strings echo c) (standard (.file 0) (.file 1) (.file 2)) 0 =
      ((wire ⟨fun _ _ => some 7, fun _ => true⟩ (c.map Word.text) (.file 0) (.file 1) 0).1.map (Wired.event (.file 2)),
        (wire ⟨fun _ _ => some 7, fun _ => true⟩ (c.map Word.text) (.file 0) (.file 1) 0).2) := by
  obtain ⟨c, run⟩ := parsecmd_echo
  exact ⟨c, run, shell_runs_line (by decide) run⟩

end Cs537.Sh
