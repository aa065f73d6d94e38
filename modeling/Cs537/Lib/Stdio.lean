import Cs537.Lib.CInt
import Mathlib.Data.List.Basic

/-! # Reading a file line by line

A stream is what is ahead of the position together with the end-of-file indicator, which is set when a read
runs into the end and not when it stops right before it. `fgets` takes a line, or as much of it as the buffer
holds; where nothing is left it leaves the buffer as it is.
-/

namespace Cs537.Lib

/-- `FILE`, opened for reading. -/
structure Stream where
  ahead : List UInt8
  eof : Bool
deriving DecidableEq, Repr

/-- A file at its start, as `fopen` and `fseek` leave it. -/
def Stream.start (file : List UInt8) : Stream := ⟨file, false⟩

def newline : UInt8 := 10

/-- Read up to a number of bytes and up to a newline: the bytes, what is ahead of them, and whether the end was hit. -/
def readLine : ℕ → List UInt8 → List UInt8 × List UInt8 × Bool
  | 0, ahead => ([], ahead, false)
  | _ + 1, [] => ([], [], true)
  | n + 1, b :: ahead =>
      if b = newline then ([b], ahead, false)
      else
        let (bytes, rest, hit) := readLine n ahead
        (b :: bytes, rest, hit)

/-- `fgets`: the stream, and what is put into the buffer. -/
def fgets (size : ℕ) (f : Stream) : Stream × Option (List UInt8) :=
  let (bytes, rest, hit) := readLine (size - 1) f.ahead
  (⟨rest, f.eof || hit⟩, if bytes = [] then none else some bytes)

/-- A buffer as a string. -/
def cString (bytes : List UInt8) : List UInt8 := bytes.takeWhile (· ≠ 0)

/-- The tokens `strtok` gives one after the other. -/
def strtok (sep : UInt8) (s : List UInt8) : List (List UInt8) := (s.splitOnP (· == sep)).filter (· ≠ [])

/-- `isspace`. -/
def isSpace (c : UInt8) : Bool := c == 32 || 9 ≤ c && c ≤ 13

def isDigit (c : UInt8) : Bool := 48 ≤ c && c ≤ 57

/-- `strtol` in base 10, which stops at the bounds of `long`. -/
def strtol (s : List UInt8) : ℤ :=
  let number (s : List UInt8) : ℤ := (s.takeWhile isDigit).foldl (fun value c => 10 * value + (c.toNat - 48)) 0
  match s.dropWhile isSpace with
  | 45 :: rest => max (-2 ^ 63) (-number rest)
  | 43 :: rest => min (2 ^ 63 - 1) (number rest)
  | digits => min (2 ^ 63 - 1) (number digits)

/-- `atoi`. -/
def atoi (s : List UInt8) : ℤ := int32 (strtol s)

section Lines

variable {text rest : List UInt8} {n size : ℕ} {eof : Bool}

theorem readLine_newline (plain : newline ∉ text) (fits : text.length < n) :
    readLine n (text ++ newline :: rest) = (text ++ [newline], rest, false) := by
  induction text generalizing n with
  | nil =>
    cases n with
    | zero => simp at fits
    | succ n => simp [readLine]
  | cons b text ih =>
    cases n with
    | zero => simp at fits
    | succ n =>
      simp only [List.mem_cons, not_or] at plain
      simp only [List.length_cons, Nat.add_lt_add_iff_right] at fits
      rw [List.cons_append, readLine, if_neg (Ne.symm plain.1), ih plain.2 fits]
      rfl

theorem readLine_end (plain : newline ∉ text) (fits : text.length < n) : readLine n text = (text, [], true) := by
  induction text generalizing n with
  | nil =>
    cases n with
    | zero => simp at fits
    | succ n => rfl
  | cons b text ih =>
    cases n with
    | zero => simp at fits
    | succ n =>
      simp only [List.mem_cons, not_or] at plain
      simp only [List.length_cons, Nat.add_lt_add_iff_right] at fits
      rw [readLine, if_neg (Ne.symm plain.1), ih plain.2 fits]

/-- The buffer is full before the line is over. -/
theorem readLine_full (plain : newline ∉ text) : readLine text.length (text ++ rest) = (text, rest, false) := by
  induction text with
  | nil => rfl
  | cons b text ih =>
    simp only [List.mem_cons, not_or] at plain
    rw [List.length_cons, List.cons_append, readLine, if_neg (Ne.symm plain.1), ih plain.2]

theorem fgets_line (plain : newline ∉ text) (fits : (text ++ [newline]).length < size) :
    fgets size ⟨text ++ [newline] ++ rest, eof⟩ = (⟨rest, eof⟩, some (text ++ [newline])) := by
  simp only [List.length_append, List.length_singleton] at fits
  simp only [fgets, List.append_assoc, List.singleton_append,
    readLine_newline plain (show text.length < size - 1 by omega)]
  simp

/-- The last line has no newline. -/
theorem fgets_tail (plain : newline ∉ text) (some : text ≠ []) (fits : text.length + 1 < size) :
    fgets size ⟨text, eof⟩ = (⟨[], true⟩, .some text) := by
  simp only [fgets, readLine_end plain (show text.length < size - 1 by omega), if_neg some, Bool.or_true]

/-- The last line has no newline and fills the buffer, so the end is not seen yet. -/
theorem fgets_full (plain : newline ∉ text) (some : text ≠ []) (fits : text.length + 1 = size) :
    fgets size ⟨text, eof⟩ = (⟨[], eof⟩, .some text) := by
  have full : readLine text.length (text ++ []) = (text, [], false) := readLine_full plain
  rw [List.append_nil] at full
  have room : size - 1 = text.length := by omega
  simp only [fgets, room, full, if_neg some, Bool.or_false]

/-- Nothing is left. -/
theorem fgets_end (room : 1 < size) : fgets size ⟨[], eof⟩ = (⟨[], true⟩, none) := by
  have first : readLine (size - 1) [] = ([], [], true) := readLine_end (by simp) (by simp; omega)
  simp only [fgets, first, if_true, Bool.or_true]

end Lines

end Cs537.Lib
