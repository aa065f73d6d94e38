import Mathlib.Data.Nat.Basic

/-! # Descriptors shared by the client and the key-value server

`common.h` fixes 32-bit keys and values and the hash function; `ring_buffer.h` fixes the descriptor
that travels through the ring and comes back on the status board. `sizeof` values are those of the
x86-64 build: five 4-byte fields in a descriptor, and a packed ring rounded up to 64 bytes.
-/

namespace Cs537.KvStore

abbrev Key := UInt32
abbrev Value := UInt32

/-- `hash_function`: the unsigned remainder, an index below every positive table size. -/
def hashFunction (k : Key) (tableSize : ℕ) : ℕ := k.toNat % tableSize

theorem hashFunction_lt (k : Key) {tableSize : ℕ} (positive : 0 < tableSize) :
    hashFunction k tableSize < tableSize := Nat.mod_lt _ positive

/-- `enum REQUEST_TYPE`. A C enumeration can also hold a value that names no enumerator, and the
server has a branch for it. -/
inductive RequestType where
  | put
  | get
  | invalid (code : ℕ)
deriving DecidableEq, Repr, Inhabited

/-- `struct buffer_descriptor`. -/
structure BufferDescriptor where
  reqType : RequestType
  k : Key
  v : Value
  resOff : ℤ
  ready : ℤ
deriving DecidableEq, Repr

/-! The runs on fixed threads below take these two as instances, so that a thread's number is one term in all of
them. -/

theorem neZero_one : @NeZero ℕ Zero.ofOfNat0 1 := ⟨Nat.succ_ne_zero 0⟩

theorem neZero_two : @NeZero ℕ Zero.ofOfNat0 2 := ⟨Nat.succ_ne_zero 1⟩

/-- The descriptor whose bytes are all zero. -/
def BufferDescriptor.zero : BufferDescriptor := ⟨.put, 0, 0, 0, 0⟩

instance : Inhabited BufferDescriptor := ⟨.zero⟩

/-- `RING_SIZE`. -/
def ringSize : ℕ := 1024

/-- `sizeof(struct buffer_descriptor)`. -/
def descriptorBytes : ℕ := 20

/-- `sizeof(struct ring)`: four padded indices, the slots, two semaphores of 32 bytes and two mutexes
of 40, rounded up to the alignment. -/
def ringBytes : ℕ := (4 * 64 + ringSize * descriptorBytes + 2 * 32 + 2 * 40 + 63) / 64 * 64

theorem ringBytes_eq : ringBytes = 20928 := by decide

end Cs537.KvStore
