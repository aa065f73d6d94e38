import Cs537.Wmap.Books
import Mathlib.Algebra.BigOperators.Group.Finset.Piecewise
import Mathlib.Algebra.Order.BigOperators.Group.Finset

/-! # Counts of references

The file table is balanced for a count when each file has that many references, and is closed when it has
none. `filedup` and `fileclose` move the count by one, and the operations of a process keep the table balanced
for what others hold and what the process itself holds.
-/

namespace Cs537.Wmap

open Lib
open scoped BigOperators

private theorem sum_update {ι : Type*} [Fintype ι] [DecidableEq ι] (count : ι → ℕ) (i : ι) (value : ℕ) :
    ∑ j, Function.update count i value j + count i = ∑ j, count j + value := by
  have others : ∑ j ∈ Finset.univ.erase i, Function.update count i value j = ∑ j ∈ Finset.univ.erase i, count j :=
    Finset.sum_congr rfl fun j member => Function.update_of_ne (Finset.ne_of_mem_erase member) ..
  have before := Finset.sum_erase_add Finset.univ count (Finset.mem_univ i)
  have after := Finset.sum_erase_add Finset.univ (Function.update count i value) (Finset.mem_univ i)
  rw [Function.update_self] at after
  omega

/-- How many descriptors hold a file. -/
def fdCount (ofile : Fin nofile → Option (Fin nfile)) (f : Fin nfile) : ℕ :=
  (Finset.univ.filter fun fd => ofile fd = some f).card

/-- How many mappings are of a file. -/
def mapCount (mmaps : List MmapEntry) (f : Fin nfile) : ℕ := mmaps.countP (·.file = some f)

/-- How often a process holds a file. -/
def Task.held (t : Task) (f : Fin nfile) : ℕ := fdCount t.ofile f + mapCount t.mmaps f

private theorem fdCount_update (ofile : Fin nofile → Option (Fin nfile)) (fd : Fin nofile) (slot : Option (Fin nfile))
    (f : Fin nfile) : fdCount (Function.update ofile fd slot) f + (if ofile fd = some f then 1 else 0) =
      fdCount ofile f + if slot = some f then 1 else 0 := by
  have counts (slots : Fin nofile → Option (Fin nfile)) :
      fdCount slots f = ∑ i, if slots i = some f then 1 else 0 := by
    rw [fdCount, Finset.card_filter]
  have pointwise : (fun i => if Function.update ofile fd slot i = some f then 1 else 0) =
      Function.update (fun i => if ofile i = some f then 1 else 0) fd (if slot = some f then 1 else 0) := by
    funext i
    by_cases here : i = fd
    · subst here
      simp only [Function.update_self]
    · simp only [Function.update_of_ne here]
  rw [counts, counts, pointwise]
  exact sum_update _ fd _

theorem fdCount_set {ofile : Fin nofile → Option (Fin nfile)} {fd : Fin nofile} (empty : ofile fd = none)
    (f : Fin nfile) : fdCount (Function.update ofile fd (some f)) =
      Function.update (fdCount ofile) f (fdCount ofile f + 1) := by
  funext g
  have change := fdCount_update ofile fd (some f) g
  rw [empty] at change
  by_cases here : g = f
  · subst here
    rw [Function.update_self]
    simpa using change
  · rw [Function.update_of_ne here]
    simpa [Ne.symm here] using change

theorem fdCount_clear {ofile : Fin nofile → Option (Fin nfile)} {fd : Fin nofile} {f : Fin nfile}
    (slot : ofile fd = some f) : fdCount (Function.update ofile fd none) =
      Function.update (fdCount ofile) f (fdCount ofile f - 1) := by
  funext g
  have change := fdCount_update ofile fd none g
  rw [slot] at change
  by_cases here : g = f
  · subst here
    rw [Function.update_self]
    simp only [if_true, reduceCtorEq, if_false] at change
    omega
  · rw [Function.update_of_ne here]
    simpa [Ne.symm here] using change

theorem fdCount_eq_zero {ofile : Fin nofile → Option (Fin nfile)} (empty : ∀ fd, ofile fd = none) (f : Fin nfile) :
    fdCount ofile f = 0 := by
  simp [fdCount, empty]

theorem fdCount_pos {ofile : Fin nofile → Option (Fin nfile)} {fd : Fin nofile} {f : Fin nfile}
    (held : ofile fd = some f) : 0 < fdCount ofile f :=
  Finset.card_pos.mpr ⟨fd, Finset.mem_filter.mpr ⟨Finset.mem_univ fd, held⟩⟩

theorem mapCount_cons (me : MmapEntry) (rest : List MmapEntry) (f : Fin nfile) :
    mapCount (me :: rest) f = mapCount rest f + if me.file = some f then 1 else 0 := by
  simp only [mapCount, List.countP_cons, decide_eq_true_eq]

theorem mapCount_eq_zero {mmaps : List MmapEntry} (none : ∀ me ∈ mmaps, me.file = .none) (f : Fin nfile) :
    mapCount mmaps f = 0 := by
  refine List.countP_eq_zero.mpr fun me member => ?_
  simp [none me member]

theorem mapCount_pos {mmaps : List MmapEntry} {me : MmapEntry} {f : Fin nfile} (member : me ∈ mmaps)
    (file : me.file = some f) : 0 < mapCount mmaps f :=
  List.countP_pos_iff.mpr ⟨me, member, decide_eq_true file⟩

theorem mapCount_append (first second : List MmapEntry) (f : Fin nfile) :
    mapCount (first ++ second) f = mapCount first f + mapCount second f :=
  List.countP_append ..

/-- What reference counting looks at in a mapping. -/
def MmapEntry.tag (me : MmapEntry) : Option (Fin nfile) × ℕ := (me.file, me.flags)

private theorem mapCount_tags (mmaps : List MmapEntry) (f : Fin nfile) :
    mapCount mmaps f = (mmaps.map MmapEntry.tag).countP (·.1 = some f) := by
  rw [mapCount, List.countP_map]
  rfl

private theorem kinds_tags (mmaps : List MmapEntry) : (∀ me ∈ mmaps, isPrivate me.flags ≠ isShared me.flags) ↔
    ∀ entry ∈ mmaps.map MmapEntry.tag, isPrivate entry.2 ≠ isShared entry.2 := by
  rw [List.forall_mem_map]
  rfl

/-- Each file has as many references as counted, and is closed when it has none. -/
structure Balanced (k : Kernel) (count : Fin nfile → ℕ) : Prop where
  ref : ∀ f, (k.file f).ref = count f
  closed : ∀ f, (k.file f).type = .none ↔ count f = 0

theorem Kernel.calls_isSome {k : Kernel} {f : Fin nfile} (live : 1 ≤ (k.file f).ref) :
    (k.fileclose f).isSome ∧ (k.filedup f).isSome := by
  constructor
  · rw [Kernel.fileclose, if_neg (by omega)]
    split <;> rfl
  · rw [Kernel.filedup, if_neg (by omega)]
    rfl

namespace Balanced

variable {k k' : Kernel} {count count' : Fin nfile → ℕ} {f : Fin nfile}

theorem congr (balanced : Balanced k count) (same : ∀ f, count' f = count f) : Balanced k count' := by
  rw [show count' = count from funext same]
  exact balanced

theorem of_file (balanced : Balanced k count)
    (same : ∀ f, (k'.file f).ref = (k.file f).ref ∧ (k'.file f).type = (k.file f).type) : Balanced k' count where
  ref f := by rw [(same f).1, balanced.ref f]
  closed f := by rw [(same f).2, balanced.closed f]

/-- One file gets a new value. -/
theorem setFile (balanced : Balanced k count) {value : File} {n : ℕ} (ref : value.ref = n)
    (closed : value.type = .none ↔ n = 0) : Balanced (k.setFile f value) (Function.update count f n) := by
  constructor <;> intro g <;> simp only [Kernel.setFile] <;> by_cases here : g = f
  · subst here
    rw [Function.update_self, Function.update_self, ref]
  · rw [Function.update_of_ne here, Function.update_of_ne here, balanced.ref g]
  · subst here
    rw [Function.update_self, Function.update_self]
    exact closed
  · rw [Function.update_of_ne here, Function.update_of_ne here]
    exact balanced.closed g

/-- A file that is held can be duplicated and closed. -/
theorem calls (balanced : Balanced k count) (held : 0 < count f) : (k.fileclose f).isSome ∧ (k.filedup f).isSome :=
  Kernel.calls_isSome (by
    have ref := balanced.ref f
    omega)

theorem filedup (balanced : Balanced k count) (done : k.filedup f = some k') :
    Balanced k' (Function.update count f (count f + 1)) := by
  rw [Kernel.filedup] at done
  split at done
  · cases done
  case isFalse live =>
    cases done
    have ref := balanced.ref f
    refine balanced.setFile ?_ ?_
    · simp only
      omega
    · rw [balanced.closed f]
      omega

theorem fileclose (balanced : Balanced k count) (done : k.fileclose f = some k') :
    Balanced k' (Function.update count f (count f - 1)) := by
  obtain ⟨live, rfl⟩ := Kernel.fileclose_spec done
  have ref := balanced.ref f
  refine balanced.setFile ?_ ?_
  · simp only
    omega
  · have closed := balanced.closed f
    simp only
    split_ifs with last
    · refine iff_of_true rfl ?_
      omega
    · rw [closed]
      omega

end Balanced

/-- The table is balanced for what others hold and what the process holds, and each of its mappings is private
or shared. -/
structure Counted (others : Fin nfile → ℕ) (s : Running) : Prop where
  balanced : Balanced s.toKernel fun f => others f + s.held f
  kinds : ∀ me ∈ s.mmaps, isPrivate me.flags ≠ isShared me.flags

namespace Counted

open Running MmapEntry

variable {others : Fin nfile → ℕ} {s s' : Running} {f : Fin nfile} {fd : Fin nofile}

theorem file_of_books (same : s'.books = s.books) (f : Fin nfile) :
    (s'.file f).ref = (s.file f).ref ∧ (s'.file f).type = (s.file f).type := by
  have files := congrFun (congrArg Prod.snd same) f
  exact Prod.mk.inj files

/-- The mappings have the files and the flags that they had, in some order, and nothing else that counts has
changed. -/
theorem of_perm (counted : Counted others s) (perm : (s'.mmaps.map tag).Perm (s.mmaps.map tag))
    (books : s'.books = s.books) : Counted others s' := by
  refine ⟨(counted.balanced.of_file (file_of_books books)).congr fun f => ?_, ?_⟩
  · have slots : s'.ofile = s.ofile := congrArg Prod.fst books
    rw [Task.held, Task.held, slots, mapCount_tags, mapCount_tags, perm.countP_eq]
  · rw [kinds_tags]
    intro entry member
    exact (kinds_tags s.mmaps).mp counted.kinds entry (perm.mem_iff.mp member)

private theorem tags_cores (s : Running) : s.cores.map tag = s.mmaps.map tag := by
  rw [cores, List.map_map]
  rfl

/-- Nothing that counts has changed. -/
theorem of_same (counted : Counted others s) (cores : s'.cores = s.cores) (books : s'.books = s.books) :
    Counted others s' := by
  refine counted.of_perm ?_ books
  rw [← tags_cores, cores, tags_cores]

/-- A file that the process holds can be duplicated and closed. -/
theorem calls (counted : Counted others s) (held : 0 < s.held f) :
    (s.toKernel.fileclose f).isSome ∧ (s.toKernel.filedup f).isSome :=
  counted.balanced.calls (by omega)

theorem held_of_fd (slot : s.ofile fd = some f) : 0 < s.held f := by
  have := fdCount_pos slot
  rw [Task.held]
  omega

theorem argfd_some {n : ℤ} (found : s.argfd n = some (fd, f)) : s.ofile fd = some f := by
  rw [argfd] at found
  split at found
  · obtain ⟨_, slot, pair⟩ := Option.map_eq_some_iff.mp found
    cases pair
    exact slot
  · cases found

theorem fdalloc_some (done : s.fdalloc f = some (fd, s')) :
    s.ofile fd = none ∧ s' = { s with ofile := Function.update s.ofile fd (some f) } := by
  rw [fdalloc] at done
  split at done
  · cases done
  case h_2 found =>
    cases done
    have empty := List.find?_some found
    exact ⟨of_decide_eq_true empty, rfl⟩

/-- An operation of the kernel under a new descriptor table or list of mappings. -/
theorem of_kernel {k : Kernel} {t : Task} {count : Fin nfile → ℕ} (balanced : Balanced k count)
    (same : ∀ f, others f + t.held f = count f) (kinds : ∀ me ∈ t.mmaps, isPrivate me.flags ≠ isShared me.flags) :
    Counted others ⟨t, k⟩ :=
  ⟨balanced.congr same, kinds⟩

theorem onKernel_some {op : Kernel → Option Kernel} (done : s.onKernel op = some s') :
    ∃ k, op s.toKernel = some k ∧ s' = { s with toKernel := k } := by
  rw [onKernel] at done
  split at done
  · cases done
  case h_2 k made =>
    cases done
    exact ⟨k, made, rfl⟩

theorem sysClose (counted : Counted others s) {n : ℤ} {result : Bool} (done : s.sysClose n = some (s', result)) :
    Counted others s' := by
  rw [Running.sysClose] at done
  split at done
  · cases done
    exact counted
  case h_2 fd f found =>
    obtain ⟨t, closed, pair⟩ := Option.map_eq_some_iff.mp done
    cases pair
    obtain ⟨k, made, rfl⟩ := onKernel_some closed
    have slot := argfd_some found
    refine of_kernel (counted.balanced.fileclose made) (fun g => ?_) counted.kinds
    have positive := fdCount_pos slot
    simp only [Task.held, fdCount_clear slot]
    by_cases here : g = f
    · subst here
      rw [Function.update_self, Function.update_self]
      omega
    · rw [Function.update_of_ne here, Function.update_of_ne here]

theorem sysDup (counted : Counted others s) {n : ℤ} {result : Option (Fin nofile)}
    (done : s.sysDup n = some (s', result)) : Counted others s' := by
  rw [Running.sysDup] at done
  split at done
  · cases done
    exact counted
  case h_2 old f found =>
    split at done
    · cases done
      exact counted
    case h_2 fd s₁ allocated =>
      obtain ⟨t, dup, pair⟩ := Option.map_eq_some_iff.mp done
      cases pair
      obtain ⟨empty, rfl⟩ := fdalloc_some allocated
      obtain ⟨k, made, rfl⟩ := onKernel_some dup
      refine of_kernel (counted.balanced.filedup made) (fun g => ?_) counted.kinds
      simp only [Task.held, fdCount_set empty]
      by_cases here : g = f
      · subst here
        rw [Function.update_self, Function.update_self]
        omega
      · rw [Function.update_of_ne here, Function.update_of_ne here]

theorem filealloc_some {k k' : Kernel} (done : k.filealloc = some (f, k')) :
    (k.file f).ref = 0 ∧ k' = k.setFile f { k.file f with ref := 1 } := by
  rw [Kernel.filealloc] at done
  split at done
  · cases done
  case h_2 found =>
    cases done
    have free := List.find?_some found
    exact ⟨of_decide_eq_true free, rfl⟩

theorem sysOpen (counted : Counted others s) {ip omode : ℕ} {result : Option (Fin nofile)}
    (done : s.sysOpen ip omode = some (s', result)) : Counted others s' := by
  rw [Running.sysOpen] at done
  split at done
  · cases done
    exact counted
  case h_2 f k allocated =>
    obtain ⟨free, rfl⟩ := filealloc_some allocated
    have unused : others f + s.held f = 0 := by
      have ref := counted.balanced.ref f
      omega
    split at done
    · obtain ⟨t, closed, pair⟩ := Option.map_eq_some_iff.mp done
      cases pair
      obtain ⟨k, made, rfl⟩ := onKernel_some closed
      obtain ⟨_, rfl⟩ := Kernel.fileclose_spec made
      simp only [Kernel.setFile, Function.update_self, Function.update_idem]
      refine of_kernel (counted.balanced.setFile (n := 0) rfl (by simp)) (fun g => ?_) counted.kinds
      by_cases here : g = f
      · subst here
        rw [Function.update_self]
        exact unused
      · rw [Function.update_of_ne here]
    case h_2 fd s₁ slot =>
      cases done
      obtain ⟨empty, rfl⟩ := fdalloc_some slot
      simp only [Kernel.setFile, Function.update_self, Function.update_idem]
      refine of_kernel (counted.balanced.setFile (n := 1) rfl (by simp)) (fun g => ?_) counted.kinds
      simp only [Task.held, fdCount_set empty] at unused ⊢
      by_cases here : g = f
      · subst here
        rw [Function.update_self, Function.update_self]
        omega
      · rw [Function.update_of_ne here, Function.update_of_ne here]

theorem mapFile_held {flags : ℕ} {n : ℤ} (found : s.mapFile flags n = some (some f)) : 0 < s.held f := by
  rw [mapFile] at found
  split at found
  · cases found
  · split at found
    · obtain ⟨g, slot, same⟩ := Option.map_eq_some_iff.mp found
      cases same
      exact held_of_fd slot
    · cases found

theorem dupFile {count : Fin nfile → ℕ} {file : Option (Fin nfile)} (balanced : Balanced s.toKernel count)
    (done : s.dupFile file = some s') : Balanced s'.toKernel fun f => count f + if file = some f then 1 else 0 := by
  cases file with
  | none =>
    cases done
    exact balanced.congr fun f => by simp
  | some f =>
    have dup : s.onKernel (·.filedup f) = some s' := done
    obtain ⟨k, made, rfl⟩ := onKernel_some dup
    refine (balanced.filedup made).congr fun g => ?_
    by_cases here : g = f
    · subst here
      simp
    · rw [Function.update_of_ne here]
      simp [Ne.symm here]

theorem closeFile {count : Fin nfile → ℕ} {file : Option (Fin nfile)}
    (balanced : Balanced s.toKernel fun f => count f + if file = some f then 1 else 0)
    (done : s.closeFile file = some s') : Balanced s'.toKernel count := by
  cases file with
  | none =>
    cases done
    exact balanced.congr fun f => by simp
  | some f =>
    have closed : s.onKernel (·.fileclose f) = some s' := done
    obtain ⟨k, made, rfl⟩ := onKernel_some closed
    refine (balanced.fileclose made).congr fun g => ?_
    by_cases here : g = f
    · subst here
      simp
    · rw [Function.update_of_ne here]
      simp [Ne.symm here]

theorem wmap (counted : Counted others s) {addr flags : ℕ} {length fd : ℤ} {result : Option ℕ}
    (done : s.wmap addr length flags fd = some (s', result)) : Counted others s' := by
  rcases wmap_spec done with ⟨_, rfl⟩ | ⟨file, frame, base, s₁, s₂, kind, mapped, _, dup, allocated, added, _⟩
  · exact counted
  have books : s'.books = s₁.books := (addMapping_books added).trans (kalloc_books allocated)
  have task := (kalloc_task allocated).trans (dupFile_task dup)
  have tags : s'.mmaps.map tag = (file, flags) :: s.mmaps.map tag := by
    rw [← tags_cores, addMapping_cores added, List.map_cons, cores_of_mmaps (congrArg Task.mmaps task), tags_cores]
    rfl
  refine ⟨?_, ?_⟩
  · have slots : s'.ofile = s.ofile := (congrArg Prod.fst books).trans (congrArg Task.ofile (dupFile_task dup))
    refine ((dupFile counted.balanced dup).of_file (file_of_books books)).congr fun f => ?_
    rw [Task.held, Task.held, slots, mapCount_tags, tags, List.countP_cons, ← mapCount_tags]
    simp only [decide_eq_true_eq]
    omega
  · rw [kinds_tags, tags, List.forall_mem_cons]
    exact ⟨kind, (kinds_tags s.mmaps).mp counted.kinds⟩

theorem wunmap (counted : Counted others s) {addr : ℕ} {result : Bool}
    (kept : ∀ me, s.mmaps.find? (·.addr = addr) = some me → isPrivate me.flags → me.file = none)
    (done : s.wunmap addr = some (s', result)) : Counted others s' := by
  rcases wunmap_spec done with ⟨_, rfl, _⟩ | ⟨me, s₁, found, unmapped, rfl, _⟩
  · exact counted
  obtain ⟨here, before, after, entries, earlier⟩ := List.find?_eq_some_iff_append.mp found
  have rest : s.mmaps.eraseP (·.addr = addr) = before ++ after := by
    have gone : (me :: after).eraseP (·.addr = addr) = after := List.eraseP_cons_of_pos here
    rw [entries, List.eraseP_append_right _ (by simpa using earlier), gone]
  have count (f : Fin nfile) : mapCount s.mmaps f = mapCount (before ++ after) f + if me.file = some f then 1 else 0 := by
    rw [entries, mapCount_append, mapCount_append, mapCount_cons]
    omega
  have kind := counted.kinds me (List.mem_of_find?_eq_some found)
  have whole : Balanced s.toKernel fun f =>
      (others f + (fdCount s.ofile f + mapCount (before ++ after) f)) + if me.file = some f then 1 else 0 :=
    counted.balanced.congr fun f => by
      rw [Task.held, count]
      omega
  have closed : s₁.ofile = s.ofile ∧
      Balanced s₁.toKernel fun f => others f + (fdCount s.ofile f + mapCount (before ++ after) f) := by
    rw [unmapPages] at unmapped
    split at unmapped
    case isTrue isPrivate =>
      have books := forPages_books (fun _ _ _ => unmapPrivatePage_books) unmapped
      refine ⟨congrArg Prod.fst books, (whole.of_file (file_of_books books)).congr fun f => ?_⟩
      simp [kept me found isPrivate]
    case isFalse notPrivate =>
      split at unmapped
      · split at unmapped
        · cases unmapped
        case h_2 s₂ looped =>
          have books := forPages_books (fun _ _ _ => unmapSharedPage_books) looped
          have slots := congrArg Task.ofile (closeFile_task unmapped)
          exact ⟨slots.trans (congrArg Prod.fst books), closeFile (whole.of_file (file_of_books books)) unmapped⟩
      case isFalse notShared =>
        simp only [Bool.not_eq_true] at notPrivate notShared
        rw [notPrivate, notShared] at kind
        exact absurd rfl kind
  rw [rest]
  have removed : Counted others { s₁ with mmaps := before ++ after } := by
    refine of_kernel closed.2 (fun f => ?_) fun other member => ?_
    · rw [Task.held, closed.1]
    · refine counted.kinds other ?_
      rw [entries]
      rcases List.mem_append.mp member with left | right
      · exact List.mem_append_left _ left
      · exact List.mem_append_right _ (List.mem_cons_of_mem _ right)
  exact removed.of_same rfl rfl

theorem wremap (counted : Counted others s) {oldaddr flags : ℕ} {oldsize newsize : ℤ} {input : ℕ → ℕ → UInt8}
    {result : Option ℕ} (done : s.wremap oldaddr oldsize newsize flags input = some (s', result)) :
    Counted others s' := by
  rcases wremap_spec done with ⟨rfl, _⟩ | ⟨me, i, _, found, index,
    ⟨_, _, rfl⟩ | ⟨newaddr, frame, s₁, _, _, _, allocated, moved, _⟩⟩
  · exact counted
  · refine counted.of_perm (List.Perm.of_eq ?_) rfl
    apply List.ext_getElem?
    intro j
    simp only [List.getElem?_map, List.getElem?_modify]
    cases s.mmaps[j]? with
    | none => rfl
    | some other =>
      by_cases here : i = j
      · simp only [here, if_true]
        rfl
      · simp only [here, if_false]
        rfl
  · have here : s.mmaps[i]? = some me := by
      rw [List.find?_eq_getElem?_findIdx] at found
      rw [index]
      exact found
    obtain ⟨bound, entry⟩ := List.getElem?_eq_some_iff.mp here
    have task := kalloc_task allocated
    have cores : s'.cores = MmapEntry.core { me with addr := newaddr, length := newsize, frame := frame } ::
        s.cores.eraseIdx i := by
      rw [moveMapping_cores moved, cores_of_mmaps (congrArg Task.mmaps task)]
    refine counted.of_perm ?_ ((moveMapping_books moved).trans (kalloc_books allocated))
    have tags : s'.mmaps.map tag = me.tag :: (s.mmaps.eraseIdx i).map tag := by
      rw [← tags_cores, cores, List.map_cons, ← List.eraseIdx_map, tags_cores, List.eraseIdx_map]
      rfl
    rw [tags, ← entry, ← List.map_cons]
    exact (List.getElem_cons_eraseIdx_perm bound).map tag

end Counted

end Cs537.Wmap
