import Cs537.Lib.CInt
import Mathlib.Tactic.Ring

/-! # Byte memory with little-endian words

A memory has a byte at every integer address. Numbers of any width are read and written least byte
first, signed numbers in two's complement. A store changes the bytes of its interval and nothing else;
a window is a stretch of memory moved to address zero, and stores inside it commute with taking it.
-/

namespace Cs537.Lib

/-- A byte at every address. -/
abbrev Memory := ℤ → UInt8

namespace Memory

/-- Write consecutive bytes. -/
def store (m : Memory) (a : ℤ) (bytes : List UInt8) : Memory := fun x =>
  if a ≤ x ∧ x < a + bytes.length then bytes.getD (x - a).toNat 0 else m x

/-- The bytes of an interval. -/
def load (m : Memory) (a : ℤ) : ℕ → List UInt8
  | 0 => []
  | n + 1 => m a :: m.load (a + 1) n

/-- The number whose least byte is at the address. -/
def le (m : Memory) (a : ℤ) : ℕ → ℕ
  | 0 => 0
  | w + 1 => (m a).toNat + 256 * m.le (a + 1) w

/-- The bytes of a number, least first. -/
def leBytes : ℕ → ℕ → List UInt8
  | 0, _ => []
  | w + 1, v => UInt8.ofNat v :: leBytes w (v / 256)

/-- A 4-byte signed number. -/
def int (m : Memory) (a : ℤ) : ℤ := int32 (m.le a 4)

/-- An 8-byte signed number. -/
def long (m : Memory) (a : ℤ) : ℤ := int64 (m.le a 8)

def setInt (m : Memory) (a v : ℤ) : Memory := m.store a (leBytes 4 (uint32 v))

def setLong (m : Memory) (a v : ℤ) : Memory := m.store a (leBytes 8 (uint64 v))

/-- A stretch of memory, moved to address zero. -/
def window (m : Memory) (a : ℤ) (len : ℕ) : Memory := fun x => if 0 ≤ x ∧ x < len then m (a + x) else 0

variable {m m' : Memory} {a b x : ℤ} {bytes : List UInt8} {len w v i : ℕ}

@[simp] theorem length_leBytes (w v : ℕ) : (leBytes w v).length = w := by
  induction w generalizing v with
  | zero => rfl
  | succ w ih => rw [leBytes, List.length_cons, ih]

@[simp] theorem length_load (m : Memory) (a : ℤ) (n : ℕ) : (m.load a n).length = n := by
  induction n generalizing a with
  | zero => rfl
  | succ n ih => rw [load, List.length_cons, ih]

theorem store_outside (outside : x < a ∨ a + bytes.length ≤ x) : m.store a bytes x = m x := by
  rw [store, if_neg (by omega)]

theorem store_inside (above : a ≤ x) (below : x < a + bytes.length) :
    m.store a bytes x = bytes.getD (x - a).toNat 0 := if_pos ⟨above, below⟩

theorem store_at (inside : i < bytes.length) : m.store a bytes (a + i) = bytes[i] := by
  rw [store_inside (by omega) (by omega), List.getD_eq_getElem?_getD]
  simp [inside]

theorem store_append (m : Memory) (a : ℤ) (front back : List UInt8) :
    m.store a (front ++ back) = (m.store a front).store (a + front.length) back := by
  funext x
  simp only [store, List.length_append, Nat.cast_add]
  by_cases later : a + front.length ≤ x ∧ x < a + front.length + back.length
  · have shift : (x - a).toNat - front.length = (x - (a + front.length)).toNat := by omega
    rw [if_pos (by omega), if_pos later, List.getD_eq_getElem?_getD, List.getElem?_append_right (by omega), shift,
      ← List.getD_eq_getElem?_getD]
  · rw [if_neg later]
    split_ifs
    · rw [List.getD_eq_getElem?_getD, List.getElem?_append_left (by omega), ← List.getD_eq_getElem?_getD]
    · omega
    · omega
    · rfl

theorem load_congr {n : ℕ} (same : ∀ x, a ≤ x → x < a + n → m x = m' x) : m.load a n = m'.load a n := by
  induction n generalizing a with
  | zero => rfl
  | succ n ih =>
    rw [load, load, same a le_rfl (by omega), ih fun x above below => same x (by omega) (by push_cast; omega)]

theorem getElem_load {n : ℕ} (inside : i < (m.load a n).length) : (m.load a n)[i] = m (a + i) := by
  induction n generalizing a i with
  | zero => simp [load] at inside
  | succ n ih =>
    cases i with
    | zero => simp [load]
    | succ i =>
      simp only [load, List.getElem_cons_succ]
      rw [ih]
      congr 1
      push_cast
      ring

theorem load_store : (m.store a bytes).load a bytes.length = bytes := by
  apply List.ext_getElem
  · exact length_load ..
  · intro i inside inside'
    rw [getElem_load, store_at inside']

theorem le_congr (same : ∀ x, a ≤ x → x < a + w → m x = m' x) : m.le a w = m'.le a w := by
  induction w generalizing a with
  | zero => rfl
  | succ w ih =>
    rw [le, le, same a le_rfl (by omega), ih fun x above below => same x (by omega) (by push_cast; omega)]

theorem le_lt (m : Memory) (a : ℤ) (w : ℕ) : m.le a w < 256 ^ w := by
  induction w generalizing a with
  | zero => simp [le]
  | succ w ih =>
    have low := (m a).toNat_lt
    have high := ih (a + 1)
    rw [le, pow_succ]
    omega

/-- A bit of a number is a bit of one of its bytes. -/
theorem testBit_le (small : i < 8 * w) : (m.le a w).testBit i = (m (a + (i / 8 : ℕ))).toNat.testBit (i % 8) := by
  induction w generalizing a i with
  | zero => omega
  | succ w ih =>
    have split : m.le a (w + 1) = 2 ^ 8 * m.le (a + 1) w + (m a).toNat := by
      rw [le]
      ring
    rw [split, Nat.testBit_two_pow_mul_add _ (m a).toNat_lt]
    split_ifs with first
    · rw [Nat.div_eq_of_lt first, Nat.mod_eq_of_lt first, Nat.cast_zero, add_zero]
    · have position : a + 1 + ((i - 8) / 8 : ℕ) = a + (i / 8 : ℕ) := by omega
      have same : (i - 8) % 8 = i % 8 := by omega
      rw [ih (by omega), position, same]

theorem eq_of_le_eq (same : m.le a w = m'.le a w) (above : a ≤ x) (below : x < a + w) : m x = m' x := by
  induction w generalizing a with
  | zero => omega
  | succ w ih =>
    have low := (m a).toNat_lt
    have low' := (m' a).toNat_lt
    simp only [le] at same
    by_cases first : x = a
    · rw [first]
      apply UInt8.toNat_inj.mp
      omega
    · have rest : m.le (a + 1) w = m'.le (a + 1) w := by omega
      exact ih rest (by omega) (by push_cast at below; omega)

theorem le_store_outside (outside : b + w ≤ a ∨ a + bytes.length ≤ b) : (m.store a bytes).le b w = m.le b w :=
  le_congr fun x above below => store_outside (by omega)

theorem le_store_leBytes (m : Memory) (a : ℤ) (w v : ℕ) : (m.store a (leBytes w v)).le a w = v % 256 ^ w := by
  have chars (bytes : List UInt8) (m : Memory) (a : ℤ) (same : ∀ i (inside : i < bytes.length), m (a + i) = bytes[i])
      (w v : ℕ) (eq : bytes = leBytes w v) : m.le a w = v % 256 ^ w := by
    induction w generalizing bytes a v with
    | zero => simp [le, Nat.mod_one]
    | succ w ih =>
      subst eq
      have head := same 0 (by simp [leBytes])
      have tail := ih (leBytes w (v / 256)) (a + 1) ?_ (v / 256) rfl
      · simp only [leBytes, List.getElem_cons_zero, Nat.cast_zero, add_zero] at head
        rw [le, tail, head, pow_succ, Nat.mul_comm (256 ^ w), Nat.mod_mul, UInt8.toNat_ofNat']
      · intro i inside
        have next := same (i + 1) (by simpa [leBytes] using inside)
        simp only [leBytes, List.getElem_cons_succ] at next
        rw [← next]
        congr 1
        push_cast
        ring
  exact chars _ _ _ (fun i inside => store_at inside) w v rfl

/-- A number among the bytes of a store. -/
theorem le_store_part (m : Memory) (a : ℤ) (front back : List UInt8) (w v : ℕ) :
    (m.store a (front ++ leBytes w v ++ back)).le (a + front.length) w = v % 256 ^ w := by
  rw [store_append, store_append, le_store_outside (by simp only [List.length_append, length_leBytes]; omega),
    le_store_leBytes]

theorem int_setInt (m : Memory) (a v : ℤ) : (m.setInt a v).int a = int32 v := by
  have small : uint32 v < 256 ^ 4 := uint32_lt v
  rw [int, setInt, le_store_leBytes, Nat.mod_eq_of_lt small, int32_uint32]

theorem long_setLong (m : Memory) (a v : ℤ) : (m.setLong a v).long a = int64 v := by
  have small : uint64 v < 256 ^ 8 := uint64_lt v
  rw [long, setLong, le_store_leBytes, Nat.mod_eq_of_lt small, int64_uint64]

theorem int_congr (same : ∀ x, a ≤ x → x < a + 4 → m x = m' x) : m.int a = m'.int a := by
  rw [int, int, le_congr (w := 4) same]

theorem long_congr (same : ∀ x, a ≤ x → x < a + 8 → m x = m' x) : m.long a = m'.long a := by
  rw [long, long, le_congr (w := 8) same]

theorem int_store_outside (outside : b + 4 ≤ a ∨ a + bytes.length ≤ b) : (m.store a bytes).int b = m.int b :=
  int_congr fun x above below => store_outside (by omega)

theorem long_store_outside (outside : b + 8 ≤ a ∨ a + bytes.length ≤ b) : (m.store a bytes).long b = m.long b :=
  long_congr fun x above below => store_outside (by omega)

/-- The bytes of a number. -/
theorem load_leBytes (m : Memory) (a : ℤ) (w : ℕ) : m.load a w = leBytes w (m.le a w) := by
  induction w generalizing a with
  | zero => rfl
  | succ w ih =>
    have low := (m a).toNat_lt
    rw [load, le, leBytes, ih]
    congr 1
    · apply UInt8.toNat_inj.mp
      rw [UInt8.toNat_ofNat']
      omega
    · congr 1
      omega

theorem load_drop (m : Memory) (a : ℤ) (count skip : ℕ) :
    (m.load a count).drop skip = m.load (a + skip) (count - skip) := by
  apply List.ext_getElem
  · simp
  · intro i inside inside'
    rw [List.getElem_drop, getElem_load, getElem_load]
    push_cast
    congr 1
    ring

theorem window_at (low : 0 ≤ x) (high : x < len) : m.window a len x = m (a + x) := if_pos ⟨low, high⟩

theorem window_congr (same : ∀ x, a ≤ x → x < a + len → m x = m' x) : m.window a len = m'.window a len := by
  funext x
  simp only [window]
  split_ifs with inside
  · exact same (a + x) (by omega) (by omega)
  · rfl

theorem eq_of_window_eq (same : m.window a len = m'.window a len) (above : a ≤ x) (below : x < a + len) :
    m x = m' x := by
  have at_x := congrFun same (x - a)
  rw [window_at (by omega) (by omega), window_at (by omega) (by omega)] at at_x
  rwa [add_sub_cancel] at at_x

theorem window_store_outside (outside : b + len ≤ a ∨ a + bytes.length ≤ b) :
    (m.store a bytes).window b len = m.window b len :=
  window_congr fun x above below => store_outside (by omega)

theorem window_store (low : 0 ≤ b) (high : b + bytes.length ≤ len) :
    (m.store (a + b) bytes).window a len = (m.window a len).store b bytes := by
  funext x
  simp only [window, store]
  by_cases inside : b ≤ x ∧ x < b + bytes.length
  · rw [if_pos (by omega), if_pos (by omega), if_pos inside]
    congr 2
    omega
  · rw [if_neg inside]
    split_ifs
    · omega
    · rfl
    · rfl

theorem le_shift (same : ∀ x, b ≤ x → x < b + w → m' x = m (a + x)) : m'.le b w = m.le (a + b) w := by
  induction w generalizing b with
  | zero => rfl
  | succ w ih =>
    rw [le, le, same b le_rfl (by omega), ih fun x above below => same x (by omega) (by push_cast; omega), add_assoc]

theorem le_window (low : 0 ≤ b) (high : b + w ≤ len) : (m.window a len).le b w = m.le (a + b) w :=
  le_shift fun x above below => window_at (by omega) (by omega)

theorem int_window (low : 0 ≤ b) (high : b + 4 ≤ len) : (m.window a len).int b = m.int (a + b) := by
  rw [int, int, le_window low high]

theorem long_window (low : 0 ≤ b) (high : b + 8 ≤ len) : (m.window a len).long b = m.long (a + b) := by
  rw [long, long, le_window low high]

end Memory

end Cs537.Lib
