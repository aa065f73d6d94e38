import Cs537.Wmap.System
import Mathlib.Algebra.BigOperators.Group.Finset.Basic

/-! # The books of the file table

Faults, copies and write-backs move the offsets of files and nothing else that reference counting looks at:
the descriptors of the process, and the count and the type of each file.
-/

namespace Cs537.Wmap

open Lib

namespace Running

variable {s s' : Running} {a n v : ℕ} {input : ℕ → ℕ → UInt8} {me : MmapEntry} {f : Fin nfile}

/-- The descriptors of the process, and the count and the type of each file. -/
def books (s : Running) : (Fin nofile → Option (Fin nfile)) × (Fin nfile → ℤ × FdType) :=
  (s.ofile, fun f => ((s.file f).ref, (s.file f).type))

private theorem books_of_file (ofile : s'.ofile = s.ofile) (file : s'.file = s.file) : s'.books = s.books := by
  rw [books, books, ofile, file]

/-- A new value for a file with its count and its type. -/
theorem books_setFile (s : Running) {value : File} (ref : value.ref = (s.file f).ref)
    (type : value.type = (s.file f).type) : books { s with toKernel := s.setFile f value } = s.books := by
  have same (g : Fin nfile) : ((Function.update s.file f value g).ref, (Function.update s.file f value g).type) =
      ((s.file g).ref, (s.file g).type) := by
    by_cases here : g = f
    · subst here
      rw [Function.update_self, ref, type]
    · rw [Function.update_of_ne here]
  simp only [books, Kernel.setFile, same]

theorem kalloc_books {frame : ℕ} (done : s.kalloc = some (frame, s')) : s'.books = s.books :=
  books_of_file (congrArg Task.ofile (kalloc_task done)) (kalloc_files done).1

private theorem walkAlloc_books (done : s.walkAlloc v = some s') : s'.books = s.books := by
  refine books_of_file ?_ (walkAlloc_files done).1
  rw [walkAlloc] at done
  split at done
  · cases done
    rfl
  · split at done
    · cases done
    case h_2 allocated =>
      cases done
      have ofile := congrArg Task.ofile (kalloc_task allocated)
      exact ofile

private theorem fileread_books {from_ data : ℕ → UInt8} {k : Kernel} (done : s.toKernel.fileread f from_ = some (k, data)) :
    books { s with toKernel := k } = s.books := by
  rw [Kernel.fileread] at done
  split at done
  · cases done
  · split at done
    · cases done
    · cases done
      rfl
    · split at done
      · cases done
      · cases done
        exact books_setFile s rfl rfl

private theorem fill_books {data from_ : ℕ → UInt8} (done : s.fill me a from_ = some (s', data)) : s'.books = s.books := by
  rw [fill] at done
  split at done
  · cases done
    rfl
  case h_2 f _ =>
    split at done
    · cases done
      rfl
    · simp only at done
      split at done
      · cases done
      case h_2 read =>
        cases done
        have moved := fileread_books (s := { s with toKernel := s.setFile f { s.file f with
          off := uint32 ((a : ℤ) - me.addr - (a % 4096 : ℕ)) } }) read
        exact moved.trans (books_setFile s rfl rfl)

private theorem fault_books {from_ : ℕ → UInt8} (done : s.fault a from_ = some s') : s'.books = s.books := by
  obtain ⟨me, frame, data, s₁, s₂, s₃, _, allocated, filled, walked, _, _, rfl⟩ := fault_cases done
  calc books ((s₃.setPage _ _).countPage _)
    _ = s₃.books := rfl
    _ = s₂.books := walkAlloc_books walked
    _ = s₁.books := fill_books filled
    _ = s.books := kalloc_books allocated

theorem load_books {byte : UInt8} (done : s.load a input = some (s', byte)) : s'.books = s.books := by
  rw [load] at done
  split at done
  · cases done
  · split at done
    · cases done
      rfl
    · split at done
      · cases done
      case h_2 handled =>
        obtain ⟨page, _, pair⟩ := Option.map_eq_some_iff.mp done
        cases pair
        exact fault_books handled

private theorem poke_books {byte : UInt8} (done : s.poke a byte = some s') : s'.books = s.books := by
  rw [poke] at done
  split at done
  · cases done
  · split at done
    · cases done
      rfl
    · cases done

theorem store_books {byte : UInt8} (done : s.store a byte input = some s') : s'.books = s.books := by
  rw [store] at done
  split at done
  · cases done
  · split at done
    · exact poke_books done
    · split at done
      · cases done
      case h_2 handled => rw [poke_books done, fault_books handled]

private theorem memmove_books {dst src : ℕ} (done : s.memmove dst src n input = some s') : s'.books = s.books :=
  memmove_preserves (fun t => t.books = s.books) done (fun _ _ _ _ _ loaded same => (load_books loaded).trans same)
    (fun _ _ _ _ _ stored same => (store_books stored).trans same) rfl

private theorem pokeNullOff_books (done : s.pokeNullOff n = some s') : s'.books = s.books := by
  have rule (t : Running) (i : ℕ) (_ : i ∈ List.range 4) (t' : Running)
    (poked : t.poke (20 + i) (n / 256 ^ i).toUInt8 = some t')
      (keep : t.books = s.books) : t'.books = s.books := (poke_books poked).trans keep
  exact foldlM_preserves rule done rfl

private theorem filewrite_books {k : Kernel} {buffer : Option (List UInt8)} (done : s.toKernel.filewrite f buffer = some k) :
    books { s with toKernel := k } = s.books := by
  rcases Kernel.filewrite_spec done with ⟨_, rfl⟩ | ⟨bytes, _, _, _, rfl⟩
  · rfl
  · exact books_setFile s rfl rfl

private theorem writeBack_books {file : Option (Fin nfile)} {off : Option ℕ} (done : s.writeBack file off a = some s') :
    s'.books = s.books := by
  unfold writeBack at done
  split at done
  case h_1 f =>
    rw [onKernel] at done
    split at done
    · cases done
    case h_2 k written =>
      cases done
      have wrote := filewrite_books (s := { s with toKernel := s.setFile f { s.file f with
        off := off.getD (s.file f).off } }) written
      exact wrote.trans (books_setFile s rfl rfl)
  · split at done
    · cases done
    case h_2 t stored =>
      have same : t.books = s.books := by
        split at stored
        · cases stored
          rfl
        · exact pokeNullOff_books stored
      split at done
      · cases done
      · split at done
        · cases done
          exact same
        · cases done

private theorem protectPage_books (done : protectPage me s n = some s') : s'.books = s.books := by
  simp only [protectPage] at done
  split at done
  · cases done
  · split at done
    · split at done
      · cases done
      · exact poke_books done
    · split at done
      · cases done
        rfl
      · cases done
        rfl

theorem unmapPrivatePage_books (done : unmapPrivatePage me s n = some s') : s'.books = s.books := by
  simp only [unmapPrivatePage] at done
  split at done
  · cases done
  · cases done
    rfl

theorem unmapSharedPage_books {setsOff : Bool} (done : unmapSharedPage setsOff me s n = some s') :
    s'.books = s.books := by
  simp only [unmapSharedPage] at done
  split at done
  · cases done
  · split at done
    · cases done
      rfl
    · split at done
      · cases done
      case h_2 written =>
        cases done
        split at written
        · have same := writeBack_books written
          exact same
        · cases written
          rfl

private theorem writeLowPage_books {newsize : ℤ} (done : writeLowPage me newsize s n = some s') : s'.books = s.books := by
  simp only [writeLowPage] at done
  split at done
  · cases done
  · split at done
    · cases done
      rfl
    · split at done
      · exact writeBack_books done
      · cases done
        rfl

theorem forPages_books {r : Region} {body : Running → ℕ → Option Running}
    (keeps : ∀ s i s', body s i = some s' → s'.books = s.books) (done : s.forPages r body = some s') :
    s'.books = s.books := by
  rw [forPages] at done
  split at done
  · cases done
  case h_2 offsets _ =>
    have rule (t : Running) (i : ℕ) (_ : i ∈ offsets) (t' : Running) (round : body t i = some t')
        (keep : t.books = s.books) : t'.books = s.books := (keeps t i t' round).trans keep
    exact foldlM_preserves rule done rfl

theorem addMapping_books {frame addr flags : ℕ} {length : ℤ} {file : Option (Fin nfile)}
    (done : s.addMapping frame addr length flags file = some s') : s'.books = s.books := by
  simp only [addMapping] at done
  split at done
  · cases done
  case h_2 t marked =>
    cases done
    have same : t.books = s.books := by
      split at marked
      · exact forPages_books (fun _ _ _ => protectPage_books) marked
      · cases marked
        rfl
    exact same

theorem moveMapping_books {i frame newaddr : ℕ} {newsize : ℤ}
    (done : s.moveMapping i me frame newaddr newsize input = some s') : s'.books = s.books := by
  simp only [moveMapping] at done
  split at done
  · cases done
  case h_2 s₁ copied =>
    split at done
    · cases done
    case h_2 s₂ written =>
      cases done
      have same : s₂.books = s₁.books := by
        split at written
        · exact forPages_books (fun _ _ _ => writeLowPage_books) written
        · cases written
          rfl
      have moved := memmove_books copied
      exact same.trans moved

end Running

end Cs537.Wmap
