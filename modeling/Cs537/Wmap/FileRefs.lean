import Cs537.Wmap.Ledger

/-! # Reference counts of files over all processes

A file is referenced once for each descriptor and each mapping of a live process, in every run in which no
process with a file mapping forks and no private file mapping is taken down by `sys_wunmap`: `fork` copies the
mapping without a reference, and the private branch of `sys_wunmap` drops none.
-/

namespace Cs537.Wmap

open Lib
open scoped BigOperators

namespace Running

variable {s s' : Running} {f : Fin nfile} {count : Fin nfile → ℕ}

private theorem exitMappings_balanced {mmaps : List MmapEntry}
    (balanced : Balanced s.toKernel fun f => count f + mapCount mmaps f)
    (done : exitMappings mmaps s = some s') :
    Balanced s'.toKernel count ∧ s'.ofile = s.ofile ∧ s'.mmaps = [] := by
  induction mmaps generalizing s with
  | nil =>
    cases done
    exact ⟨balanced, rfl, rfl⟩
  | cons me rest ih =>
    rw [exitMappings] at done
    split at done
    · cases done
    · split at done
      · cases done
      case h_2 s₁ looped =>
        split at done
        · cases done
        case h_2 s₂ closed =>
          have books := forPages_books (fun _ _ _ => unmapSharedPage_books) looped
          have before : Balanced s₁.toKernel fun f => (count f + mapCount rest f) + if me.file = some f then 1 else 0 :=
            (balanced.of_file (Counted.file_of_books books)).congr fun f => by
              rw [mapCount_cons]
              omega
          have next : Balanced (toKernel ({ s₂ with mmaps := rest }.kfree me.frame)) fun f => count f + mapCount rest f :=
            (Counted.closeFile before closed).of_file fun _ => ⟨rfl, rfl⟩
          obtain ⟨after, slots, empty⟩ := ih next done
          have same : s₂.ofile = s.ofile :=
            (congrArg Task.ofile (closeFile_task closed)).trans (congrArg Prod.fst books)
          exact ⟨after, slots.trans same, empty⟩

private theorem closeFd_balanced {fd : Fin nofile} (balanced : Balanced s.toKernel fun f => count f + fdCount s.ofile f)
    (done : s.closeFd fd = some s') :
    Balanced s'.toKernel (fun f => count f + fdCount s'.ofile f) ∧ s'.mmaps = s.mmaps ∧
      s'.ofile = Function.update s.ofile fd none := by
  rw [closeFd] at done
  split at done
  case h_1 empty =>
    cases done
    refine ⟨balanced, rfl, ?_⟩
    rw [← empty, Function.update_eq_self]
  case h_2 f slot =>
    obtain ⟨t, closed, rfl⟩ := Option.map_eq_some_iff.mp done
    obtain ⟨k, made, rfl⟩ := Counted.onKernel_some closed
    refine ⟨(balanced.fileclose made).congr fun g => ?_, rfl, rfl⟩
    have positive := fdCount_pos slot
    simp only [fdCount_clear slot]
    by_cases here : g = f
    · subst here
      rw [Function.update_self, Function.update_self]
      omega
    · rw [Function.update_of_ne here, Function.update_of_ne here]

private theorem closeFds_balanced {fds : List (Fin nofile)} (balanced : Balanced s.toKernel fun f => count f + fdCount s.ofile f)
    (done : fds.foldlM closeFd s = some s') :
    Balanced s'.toKernel (fun f => count f + fdCount s'.ofile f) ∧ s'.mmaps = s.mmaps ∧
      ∀ fd, fd ∈ fds ∨ s.ofile fd = none → s'.ofile fd = none := by
  induction fds generalizing s with
  | nil =>
    cases done
    exact ⟨balanced, rfl, fun fd empty => empty.resolve_left (List.not_mem_nil)⟩
  | cons fd rest ih =>
    rw [List.foldlM_cons] at done
    obtain ⟨mid, closed, tail⟩ := Option.bind_eq_some_iff.mp done
    obtain ⟨balanced, mmaps, slots⟩ := closeFd_balanced balanced closed
    obtain ⟨balanced, mmaps', empty⟩ := ih balanced tail
    refine ⟨balanced, mmaps'.trans mmaps, fun other which => empty other ?_⟩
    by_cases here : other = fd
    · subst here
      rw [slots, Function.update_self]
      exact .inr rfl
    · rw [slots, Function.update_of_ne here]
      exact which.imp_left fun member => (List.mem_cons.mp member).resolve_left here

/-- `exit` gives back what the process holds. -/
private theorem exit_balanced {others : Fin nfile → ℕ} (counted : Counted others s) (done : s.exit = some s') :
    Balanced s'.toKernel others ∧ (∀ fd, s'.ofile fd = none) ∧ s'.mmaps = [] := by
  rw [exit] at done
  split at done
  · cases done
  case h_2 s₁ torn =>
    have start : Balanced s.toKernel fun f => (others f + fdCount s.ofile f) + mapCount s.mmaps f :=
      counted.balanced.congr fun f => by
        rw [Task.held]
        omega
    obtain ⟨balanced, slots, empty⟩ := exitMappings_balanced start torn
    rw [← slots] at balanced
    obtain ⟨balanced, mmaps, none⟩ := closeFds_balanced balanced done
    have closed (fd : Fin nofile) : s'.ofile fd = .none := none fd (.inl (List.mem_finRange fd))
    refine ⟨balanced.congr fun f => ?_, closed, mmaps.trans empty⟩
    rw [fdCount_eq_zero closed]
    rfl

private theorem copyFds_balanced {ofile : Fin nofile → Option (Fin nfile)} {fds : List (Fin nofile)} (distinct : fds.Nodup)
    (empty : ∀ fd ∈ fds, s.ofile fd = none) (balanced : Balanced s.toKernel fun f => count f + fdCount s.ofile f)
    (done : fds.foldlM (copyFd ofile) s = some s') :
    Balanced s'.toKernel (fun f => count f + fdCount s'.ofile f) ∧ s'.mmaps = s.mmaps := by
  induction fds generalizing s with
  | nil =>
    cases done
    exact ⟨balanced, rfl⟩
  | cons fd rest ih =>
    rw [List.foldlM_cons] at done
    obtain ⟨mid, copied, tail⟩ := Option.bind_eq_some_iff.mp done
    obtain ⟨fresh, distinct⟩ := List.nodup_cons.mp distinct
    obtain ⟨here, later⟩ := List.forall_mem_cons.mp empty
    rw [copyFd] at copied
    split at copied
    · cases copied
      exact ih distinct later balanced tail
    case h_2 f _ =>
      obtain ⟨t, dup, rfl⟩ := Option.map_eq_some_iff.mp copied
      obtain ⟨k, made, rfl⟩ := Counted.onKernel_some dup
      have slots (other : Fin nofile) (member : other ∈ rest) : Function.update s.ofile fd (some f) other = none := by
        rw [Function.update_of_ne (ne_of_mem_of_not_mem member fresh)]
        exact later other member
      have next : Balanced k fun g => count g + fdCount (Function.update s.ofile fd (some f)) g := by
        refine (balanced.filedup made).congr fun g => ?_
        rw [fdCount_set here]
        by_cases same : g = f
        · subst same
          rw [Function.update_self, Function.update_self]
          omega
        · rw [Function.update_of_ne same, Function.update_of_ne same]
      exact ih (s := { s with toKernel := k, ofile := Function.update s.ofile fd (some f) }) distinct slots next tail

private theorem protectCopied_same {me : MmapEntry} {offsets : List ℕ} {ok : Bool}
    (done : protectCopied me offsets s = some (s', ok)) : s'.mmaps = s.mmaps ∧ s'.books = s.books := by
  induction offsets generalizing s with
  | nil =>
    cases done
    exact ⟨rfl, rfl⟩
  | cons i rest ih =>
    simp only [protectCopied] at done
    split at done
    · cases done
    · split at done
      · cases done
        exact ⟨rfl, rfl⟩
      · split at done
        · exact ih done
        · obtain ⟨mmaps, books⟩ := ih done
          exact ⟨mmaps, books⟩

/-- The mappings of a child come from the slot or from the parent. -/
theorem copyMappings_spec {mmaps : List MmapEntry} {ok : Bool} (done : copyMappings mmaps s = some (s', ok)) :
    s'.books = s.books ∧ ∀ me ∈ s'.mmaps, me ∈ s.mmaps ∨ ∃ old ∈ mmaps, ∃ frame, me = { old with frame := frame } := by
  induction mmaps generalizing s with
  | nil =>
    cases done
    exact ⟨rfl, fun me member => .inl member⟩
  | cons me rest ih =>
    rw [copyMappings] at done
    split at done
    · cases done
      exact ⟨rfl, fun me member => .inl member⟩
    case h_2 frame s₁ allocated =>
      have same (s₂ : Running) (flag : Bool) (made : (if isPrivate me.flags then
          me.offsets.bind fun offsets => protectCopied me offsets s₁ else some (s₁, true)) = some (s₂, flag)) :
          s₂.mmaps = s.mmaps ∧ s₂.books = s.books := by
        have entries := congrArg Task.mmaps (kalloc_task allocated)
        split at made
        · obtain ⟨offsets, _, made⟩ := Option.bind_eq_some_iff.mp made
          obtain ⟨mmaps, books⟩ := protectCopied_same made
          exact ⟨mmaps.trans entries, books.trans (kalloc_books allocated)⟩
        · cases made
          exact ⟨entries, kalloc_books allocated⟩
      split at done
      · cases done
      case h_2 s₂ made =>
        cases done
        obtain ⟨mmaps, books⟩ := same _ _ made
        rw [mmaps]
        exact ⟨books, fun me member => .inl member⟩
      case h_3 s₂ made =>
        obtain ⟨mmaps, books⟩ := same _ _ made
        obtain ⟨books', members⟩ := ih done
        refine ⟨books'.trans books, fun other member => ?_⟩
        rcases members other member with new | ⟨old, listed, copy⟩
        · rcases List.mem_cons.mp new with rfl | older
          · exact .inr ⟨me, List.mem_cons_self .., frame, rfl⟩
          · rw [mmaps] at older
            exact .inl older
        · exact .inr ⟨old, List.mem_cons_of_mem _ listed, copy⟩

/-- The places where a system call of the process calls `filedup` or `fileclose`, with the kernel as it is then
and the file. -/
inductive Calls (s : Running) : Kernel → Fin nfile → Prop
  | open {k : Kernel} {f : Fin nfile} (allocated : s.filealloc = some (f, k))
      (full : fdalloc { s with toKernel := k } f = none) : Calls s k f
  | dup {fd : ℤ} {old new : Fin nofile} {f : Fin nfile} {t : Running} (found : s.argfd fd = some (old, f))
      (allocated : s.fdalloc f = some (new, t)) : Calls s t.toKernel f
  | close {fd : ℤ} {old : Fin nofile} {f : Fin nfile} (found : s.argfd fd = some (old, f)) : Calls s s.toKernel f
  | wmapDup {flags : ℕ} {fd : ℤ} {f : Fin nfile} (mapped : s.mapFile flags fd = some (some f)) :
      Calls s s.toKernel f
  | wmapFail {flags : ℕ} {fd : ℤ} {f : Fin nfile} {t : Running} (mapped : s.mapFile flags fd = some (some f))
      (dup : s.dupFile (some f) = some t) : Calls s t.toKernel f
  | wunmap {addr : ℕ} {me : MmapEntry} {f : Fin nfile} {t : Running}
      (found : s.mmaps.find? (·.addr = addr) = some me) (file : me.file = some f)
      (looped : s.forPages me.toRegion (unmapSharedPage true me) = some t) : Calls s t.toKernel f
  | exitMapping {torn rest : List MmapEntry} {me : MmapEntry} {f : Fin nfile} {t u : Running}
      (entries : s.mmaps = torn ++ me :: rest) (before : exitMappings torn s = some t) (file : me.file = some f)
      (looped : t.forPages me.toRegion (unmapSharedPage false me) = some u) : Calls s u.toKernel f
  | exitFd {closed rest : List (Fin nofile)} {fd : Fin nofile} {f : Fin nfile} {t u : Running}
      (torn : exitMappings s.mmaps s = some t) (order : List.finRange nofile = closed ++ fd :: rest)
      (before : closed.foldlM closeFd t = some u) (slot : u.ofile fd = some f) : Calls s u.toKernel f
  | fork {copied rest : List (Fin nofile)} {fd : Fin nofile} {f : Fin nfile} {child u : Running}
      (files : child.file = s.file) (unused : ∀ fd, child.ofile fd = none)
      (order : List.finRange nofile = copied ++ fd :: rest)
      (before : copied.foldlM (copyFd s.ofile) child = some u) (slot : s.ofile fd = some f) : Calls s u.toKernel f

/-- No such call panics. -/
private theorem Calls.safe {others : Fin nfile → ℕ} {k : Kernel} (counted : Counted others s) (call : s.Calls k f) :
    (k.fileclose f).isSome ∧ (k.filedup f).isSome := by
  cases call with
  | «open» allocated _ =>
    obtain ⟨_, rfl⟩ := Counted.filealloc_some allocated
    refine Kernel.calls_isSome ?_
    simp only [Kernel.setFile, Function.update_self, le_refl]
  | dup found allocated =>
    obtain ⟨_, rfl⟩ := Counted.fdalloc_some allocated
    exact counted.calls (Counted.held_of_fd (Counted.argfd_some found))
  | close found => exact counted.calls (Counted.held_of_fd (Counted.argfd_some found))
  | wmapDup mapped => exact counted.calls (Counted.mapFile_held mapped)
  | wmapFail mapped dup =>
    refine (Counted.dupFile counted.balanced dup).calls ?_
    simp
  | wunmap found file looped =>
    have books := forPages_books (fun _ _ _ => unmapSharedPage_books) looped
    have positive := mapCount_pos (List.mem_of_find?_eq_some found) file
    refine (counted.balanced.of_file (Counted.file_of_books books)).calls ?_
    rw [Task.held]
    omega
  | @exitMapping torn rest me f t u entries before file looped =>
    have start : Balanced s.toKernel fun f =>
        (others f + fdCount s.ofile f + mapCount (me :: rest) f) + mapCount torn f :=
      counted.balanced.congr fun f => by
        rw [Task.held, entries, mapCount_append]
        omega
    have books := forPages_books (fun _ _ _ => unmapSharedPage_books) looped
    have positive := mapCount_pos (List.mem_cons_self (l := rest)) file
    refine ((exitMappings_balanced start before).1.of_file (Counted.file_of_books books)).calls ?_
    omega
  | exitFd torn order before slot =>
    have start : Balanced s.toKernel fun f => (others f + fdCount s.ofile f) + mapCount s.mmaps f :=
      counted.balanced.congr fun f => by
        rw [Task.held]
        omega
    obtain ⟨balanced, slots, _⟩ := exitMappings_balanced start torn
    rw [← slots] at balanced
    have positive := fdCount_pos slot
    refine (closeFds_balanced balanced before).1.calls ?_
    omega
  | @fork copied rest fd f child u files unused order before slot =>
    have start : Balanced child.toKernel fun f => (others f + s.held f) + fdCount child.ofile f := by
      refine (counted.balanced.of_file fun f => ?_).congr fun f => ?_
      · rw [files]
        exact ⟨rfl, rfl⟩
      · rw [fdCount_eq_zero unused]
        rfl
    have distinct : copied.Nodup := by
      have all := List.nodup_finRange nofile
      rw [order] at all
      exact (List.nodup_append.mp all).1
    have positive := Counted.held_of_fd slot
    refine (copyFds_balanced distinct (fun fd _ => unused fd) start before).1.calls ?_
    omega

end Running

namespace System

variable {s s' : System} {p : Fin nproc} {f : Fin nfile}

/-- How often a slot of the process table holds a file: only live processes count. -/
def share (s : System) (f : Fin nfile) (p : Fin nproc) : ℕ := if s.Live p then (s.proc p).held f else 0

/-- The descriptors and the mappings of live processes that hold a file. -/
def holders (s : System) (f : Fin nfile) : ℕ := ∑ p, s.share f p

/-- The same without one process. -/
def others (s : System) (p : Fin nproc) (f : Fin nfile) : ℕ := ∑ q ∈ Finset.univ.erase p, s.share f q

private theorem holders_eq (s : System) (p : Fin nproc) (f : Fin nfile) : s.holders f = s.others p f + s.share f p :=
  (Finset.sum_erase_add _ _ (Finset.mem_univ p)).symm

private theorem holders_update (s : System) (p : Fin nproc) (value : Proc) (k : Kernel) (f : Fin nfile) :
    holders ⟨Function.update s.proc p value, k⟩ f =
      s.others p f + if value.state = .runnable then value.held f else 0 := by
  have rest (q : Fin nproc) (member : q ∈ Finset.univ.erase p) :
      share ⟨Function.update s.proc p value, k⟩ f q = s.share f q := by
    simp only [share, Live, Function.update_of_ne (Finset.ne_of_mem_erase member)]
  rw [holders_eq _ p, others, others, Finset.sum_congr rfl rest]
  congr 1
  simp only [share, Live, Function.update_self]

/-- The file table is balanced for the live processes, mappings are private or shared, and what is left in other
slots holds no file. -/
structure InOrder (s : System) : Prop where
  balanced : Balanced s.kernel s.holders
  kinds : ∀ p, ∀ me ∈ (s.proc p).mmaps, isPrivate me.flags ≠ isShared me.flags
  idle : ∀ p, ¬ s.Live p → (∀ fd, (s.proc p).ofile fd = none) ∧ ∀ me ∈ (s.proc p).mmaps, me.file = none

namespace InOrder

theorem counted (inv : InOrder s) (live : s.Live p) : Counted (s.others p) (s.running p) where
  balanced := inv.balanced.congr fun f => by
    rw [holders_eq s p, share, if_pos live]
    rfl
  kinds := inv.kinds p

/-- One slot and the kernel change. -/
theorem update (inv : InOrder s) {value : Proc} {k : Kernel}
    (balanced : Balanced k fun f => s.others p f + if value.state = .runnable then value.held f else 0)
    (kinds : ∀ me ∈ value.mmaps, isPrivate me.flags ≠ isShared me.flags)
    (idle : value.state ≠ .runnable → (∀ fd, value.ofile fd = none) ∧ ∀ me ∈ value.mmaps, me.file = none) :
    InOrder ⟨Function.update s.proc p value, k⟩ := by
  refine ⟨balanced.congr fun f => holders_update s p value k f, fun q => ?_, fun q dead => ?_⟩
  · by_cases here : q = p
    · subst here
      simp only [Function.update_self]
      exact kinds
    · simp only [Function.update_of_ne here]
      exact inv.kinds q
  · by_cases here : q = p
    · subst here
      simp only [Live, Function.update_self] at dead ⊢
      exact idle dead
    · simp only [Live, Function.update_of_ne here] at dead ⊢
      exact inv.idle q dead

theorem back (inv : InOrder s) (live : s.Live p) {r : Running} (counted : Counted (s.others p) r) :
    InOrder (s.back p r) := by
  refine inv.update (counted.balanced.congr fun f => ?_) counted.kinds fun dead => absurd live dead
  rw [if_pos (show (s.proc p).state = .runnable from live)]

/-- A slot that is not live gets other mappings without a file. -/
theorem giveUp (inv : InOrder s) (dead : ¬ s.Live p) {child : Running} {kstack : ℕ}
    (files : ∀ f, (child.file f).ref = (s.kernel.file f).ref ∧ (child.file f).type = (s.kernel.file f).type)
    (slots : child.ofile = (s.proc p).ofile) (kinds : ∀ me ∈ child.mmaps, isPrivate me.flags ≠ isShared me.flags)
    (none : ∀ me ∈ child.mmaps, me.file = .none) : InOrder (s.giveUp p child kstack) := by
  have state : (s.proc p).state ≠ .runnable := dead
  have table : Balanced (child.kfree kstack).toKernel s.holders := inv.balanced.of_file files
  refine inv.update (table.congr fun f => ?_) kinds fun _ => ⟨fun fd => ?_, none⟩
  · rw [if_neg state, holders_eq s p, share, if_neg dead]
  · exact (congrFun slots fd).trans ((inv.idle p dead).1 fd)

theorem reparent (inv : InOrder s) : InOrder (s.reparent p) := by
  have same (q : Fin nproc) : ((s.reparent p).proc q).toTask = (s.proc q).toTask ∧
      ((s.reparent p).proc q).state = (s.proc q).state := by
    simp only [System.reparent]
    split_ifs
    · exact ⟨rfl, rfl⟩
    · exact ⟨rfl, rfl⟩
  refine ⟨inv.balanced.congr fun f => ?_, fun q => ?_, fun q dead => ?_⟩
  · refine Finset.sum_congr rfl fun q _ => ?_
    simp only [share, Live, (same q).1, (same q).2]
  · rw [(same q).1]
    exact inv.kinds q
  · rw [Live, (same q).2] at dead
    rw [(same q).1]
    exact inv.idle q dead

theorem exit (inv : InOrder s) (live : s.Live p) (done : s.exit p = some s') : InOrder s' := by
  rw [System.exit] at done
  split at done
  · cases done
  · split at done
    · cases done
    case h_2 r left =>
      cases done
      obtain ⟨balanced, slots, empty⟩ := Running.exit_balanced (inv.counted live) left
      have none (f : Fin nfile) : r.held f = 0 := by
        rw [Task.held, fdCount_eq_zero slots, empty]
        rfl
      have after : Counted (s.others p) r :=
        ⟨balanced.congr fun f => by rw [none f, Nat.add_zero], by simp [empty]⟩
      have passed := (inv.back live after).reparent (p := p)
      have task : (((s.back p r).reparent p).proc p).toTask = r.toTask := by
        simp only [System.reparent, System.back, Function.update_self]
        split_ifs <;> rfl
      refine passed.update ?_ ?_ fun _ => ?_
      · refine passed.balanced.congr fun f => ?_
        have mine : share ((s.back p r).reparent p) f p = 0 := by
          rw [share, task, none f, ite_self]
        rw [holders_eq _ p, mine]
        rfl
      · simp [task, empty]
      · simp only [task, empty]
        exact ⟨slots, by simp⟩

theorem wait (inv : InOrder s) (free : List ℕ) : InOrder (s.wait p free) := by
  rw [System.wait]
  split
  · exact inv
  case h_2 q found =>
    have test := List.find?_some found
    simp only [decide_eq_true_eq] at test
    have dead : ¬ s.Live q := by
      rw [Live, test.2]
      decide
    have table : Balanced { s.kernel with free := free } s.holders := inv.balanced.of_file fun _ => ⟨rfl, rfl⟩
    refine inv.update (table.congr fun f => ?_) (inv.kinds q) fun _ => inv.idle q dead
    rw [holders_eq s q, share, if_neg dead]
    rfl

theorem fork (inv : InOrder s) {copied : Option Copied} {free : List ℕ}
    (anonymous : ∀ me ∈ (s.proc p).mmaps, me.file = none) (done : s.fork p copied free = some s') : InOrder s' := by
  rw [System.fork] at done
  split at done
  · cases done
    exact inv
  case h_2 np found =>
    have unused : (s.proc np).state = .unused := by simpa using List.find?_some found
    have dead : ¬ s.Live np := by
      rw [Live, unused]
      decide
    obtain ⟨slots, left⟩ := inv.idle np dead
    split at done
    · cases done
      exact inv
    case h_2 kstack child allocated =>
      have task := Running.kalloc_task allocated
      have files (f : Fin nfile) : child.file f = s.kernel.file f := congrFun (Running.kalloc_files allocated).1 f
      split at done
      · cases done
        have mmaps : child.mmaps = (s.proc np).mmaps := congrArg Task.mmaps task
        refine inv.giveUp dead (fun f => ?_) (congrArg Task.ofile task) ?_ ?_
        · have same := files f
          exact ⟨congrArg File.ref same, congrArg File.type same⟩
        · simp only [mmaps]
          exact inv.kinds np
        · simp only [mmaps]
          exact left
      case h_2 memory =>
        have mmaps : child.mmaps = (s.proc np).mmaps := congrArg Task.mmaps task
        have spec {child' : Running} {ok : Bool} (made : Running.copyMappings (s.proc p).mmaps
            { child with tables := memory.tables, page := memory.page, free := free } = some (child', ok)) :
            (∀ f, (child'.file f).ref = (s.kernel.file f).ref ∧ (child'.file f).type = (s.kernel.file f).type) ∧
              child'.ofile = (s.proc np).ofile ∧
              (∀ me ∈ child'.mmaps, isPrivate me.flags ≠ isShared me.flags) ∧ ∀ me ∈ child'.mmaps, me.file = none := by
          obtain ⟨books, members⟩ := Running.copyMappings_spec made
          have each (me : MmapEntry) (member : me ∈ child'.mmaps) :
              isPrivate me.flags ≠ isShared me.flags ∧ me.file = none := by
            rcases members me member with older | ⟨old, listed, frame, rfl⟩
            · simp only [mmaps] at older
              exact ⟨inv.kinds np me older, left me older⟩
            · exact ⟨inv.kinds p old listed, anonymous old listed⟩
          refine ⟨fun f => ?_, ?_, fun me member => (each me member).1, fun me member => (each me member).2⟩
          · rw [← files f]
            exact Counted.file_of_books books f
          · exact (congrArg Prod.fst books).trans (congrArg Task.ofile task)
        split at done
        · cases done
        case h_2 child' made =>
          cases done
          obtain ⟨files', slots', kinds, none⟩ := spec made
          exact inv.giveUp dead files' slots' kinds none
        case h_3 child' made =>
          obtain ⟨files', slots', kinds, none⟩ := spec made
          split at done
          · cases done
          case h_2 last copied =>
            cases done
            have start : Balanced child'.toKernel fun f => s.holders f + fdCount child'.ofile f := by
              refine (inv.balanced.of_file files').congr fun f => ?_
              rw [slots', fdCount_eq_zero slots, Nat.add_zero]
            obtain ⟨balanced, mmaps'⟩ := Running.copyFds_balanced (List.nodup_finRange nofile)
              (fun fd _ => (congrFun slots' fd).trans (slots fd)) start copied
            rw [← mmaps'] at kinds none
            refine inv.update (balanced.congr fun f => ?_) kinds fun dead => absurd rfl dead
            rw [if_pos rfl, Task.held, mapCount_eq_zero none, holders_eq s np, share, if_neg dead]
            rfl

theorem call (inv : InOrder s) (live : s.Live p) {call : Call} {r : Running}
    (kept : ∀ addr me, call = .wunmap addr → (s.proc p).mmaps.find? (·.addr = addr) = some me →
      isPrivate me.flags → me.file = none)
    (done : (s.running p).call call = some r) : InOrder (s.back p r) := by
  refine inv.back live ?_
  have counted := inv.counted live
  cases call with
  | «open» ip omode =>
    obtain ⟨⟨_, _⟩, called, rfl⟩ := Option.map_eq_some_iff.mp done
    exact counted.sysOpen called
  | dup fd =>
    obtain ⟨⟨_, _⟩, called, rfl⟩ := Option.map_eq_some_iff.mp done
    exact counted.sysDup called
  | close fd =>
    obtain ⟨⟨_, _⟩, called, rfl⟩ := Option.map_eq_some_iff.mp done
    exact counted.sysClose called
  | wmap addr length flags fd =>
    obtain ⟨⟨_, _⟩, called, rfl⟩ := Option.map_eq_some_iff.mp done
    exact counted.wmap called
  | wunmap addr =>
    obtain ⟨⟨_, _⟩, called, rfl⟩ := Option.map_eq_some_iff.mp done
    exact counted.wunmap (fun me => kept addr me rfl) called
  | wremap oldaddr oldsize newsize flags input =>
    obtain ⟨⟨_, _⟩, called, rfl⟩ := Option.map_eq_some_iff.mp done
    exact counted.wremap called
  | load a input =>
    obtain ⟨⟨_, _⟩, called, rfl⟩ := Option.map_eq_some_iff.mp done
    exact counted.of_same (Running.load_cores called) (Running.load_books called)
  | store a byte input => exact counted.of_same (Running.store_cores done) (Running.store_books done)
  | fork copied free => cases done
  | exit => cases done
  | wait free => cases done

end InOrder

/-- No process with a file mapping forks, and `sys_wunmap` takes no private file mapping down. -/
def Allowed (s : System) : Fin nproc × Call → Prop
  | (p, .fork ..) => ∀ me ∈ (s.proc p).mmaps, me.file = none
  | (p, .wunmap addr) => ∀ me ∈ (s.proc p).mmaps.find? (·.addr = addr), isPrivate me.flags → me.file = none
  | _ => True

instance (s : System) : ∀ act, Decidable (s.Allowed act)
  | (p, .fork ..) => inferInstanceAs (Decidable (∀ me ∈ (s.proc p).mmaps, me.file = none))
  | (p, .wunmap addr) => inferInstanceAs (Decidable (∀ me ∈ (s.proc p).mmaps.find? (·.addr = addr),
      isPrivate me.flags → me.file = none))
  | (_, .open ..) | (_, .dup _) | (_, .close _) | (_, .wmap ..) | (_, .wremap ..) | (_, .load ..) | (_, .store ..)
  | (_, .exit) | (_, .wait _) => isTrue trivial

theorem InOrder.step (inv : InOrder s) {act : Fin nproc × Call} (allowed : s.Allowed act) (done : s.step act = some s') :
    InOrder s' := by
  obtain ⟨p, call⟩ := act
  obtain ⟨live, done⟩ := Option.ite_none_right_eq_some.mp done
  have called (kept : ∀ addr me, call = .wunmap addr → (s.proc p).mmaps.find? (·.addr = addr) = some me →
      isPrivate me.flags → me.file = none) (made : ((s.running p).call call).map (s.back p) = some s') : InOrder s' := by
    obtain ⟨r, ran, rfl⟩ := Option.map_eq_some_iff.mp made
    exact inv.call live kept ran
  cases call with
  | fork copied free => exact inv.fork allowed done
  | exit => exact inv.exit live done
  | wait free =>
    cases done
    exact inv.wait free
  | wunmap addr =>
    refine called (fun other me same found => ?_) done
    cases same
    exact allowed me found
  | «open» | dup | close | wmap | wremap | load | store => exact called (fun _ _ same => by cases same) done

theorem Fresh.inOrder (fresh : Fresh s) : InOrder s := by
  obtain ⟨slots, empty, closed⟩ := fresh
  have none (f : Fin nfile) : s.holders f = 0 := by
    refine Finset.sum_eq_zero fun p _ => ?_
    rw [share, Task.held, fdCount_eq_zero (slots p), empty p]
    exact ite_self _
  refine ⟨⟨fun f => ?_, fun f => ?_⟩, fun p => ?_, fun p _ => ⟨slots p, ?_⟩⟩
  · rw [none f]
    exact (closed f).1
  · exact iff_of_true (closed f).2 (none f)
  · simp [empty p]
  · simp [empty p]

/-- In every run in which no process with a file mapping forks and no private file mapping is unmapped, each file
has one reference for each descriptor and mapping of a live process, no call of `filedup` or `fileclose`
panics, and a file is closed exactly when nothing holds it. -/
theorem references_counted {s : System} (reached : systemMachine.ReachableBy Allowed s) :
    (∀ f, (s.kernel.file f).ref = s.holders f) ∧
      (∀ p k f, s.Live p → (s.running p).Calls k f → (k.fileclose f).isSome ∧ (k.filedup f).isSome) ∧
      ∀ f, (s.kernel.file f).type = .none ↔ s.holders f = 0 := by
  have inv : InOrder s :=
    reached.invariant (fun s => Fresh.inOrder) fun s act s' allowed done inv => inv.step allowed done
  exact ⟨inv.balanced.ref, fun p k f live call => call.safe (inv.counted live), inv.balanced.closed⟩

/-- The first process runs, and everything is closed and free. -/
def boot : System where
  proc p := ⟨⟨fun _ => none, [], fun _ => false, fun _ => none⟩, if p = 0 then .runnable else .unused, none⟩
  kernel := ⟨fun _ => ⟨.none, 0, false, false, 0, 0⟩, fun _ => ⟨[], Nat.zero_le _⟩, [1, 2, 3, 4, 5, 6]⟩

theorem boot_fresh : Fresh boot := ⟨fun _ _ => rfl, fun _ => rfl, fun _ => ⟨rfl, rfl⟩⟩

/-- A child that has the descriptor of its parent maps the file, and the parent closes it. -/
def childMaps : List (Fin nproc × Call) :=
  [(0, .open 0 2), (0, .fork (some ⟨fun _ => false, fun _ => none⟩) [3, 4, 5, 6]), (1, .wmap 0 4096 2 0), (0, .close 0)]

theorem references_counted_childMaps : ∃ s, systemMachine.ReachableBy Allowed s ∧ s.holders 0 = 2 ∧
    (s.kernel.file 0).ref = 2 := by
  have run : (systemMachine.runBy Allowed boot childMaps).map (fun s => s.holders 0) = some 2 := by decide +kernel
  obtain ⟨s, run, held⟩ := Option.map_eq_some_iff.mp run
  have reached := Machine.reachableBy_of_runBy boot_fresh childMaps run
  refine ⟨s, reached, held, ?_⟩
  rw [(references_counted reached).1, held]
  rfl

/-- A process with a shared file mapping forks: two descriptors and two mappings, and three references. -/
theorem references_missing : ∃ s, systemMachine.Reachable s ∧ s.holders 0 = 4 ∧ (s.kernel.file 0).ref = 3 := by
  have run : (systemMachine.run boot [(0, .open 0 2), (0, .wmap 0 4096 2 0),
      (0, .fork (some ⟨fun _ => false, fun _ => none⟩) [3, 4, 5, 6])]).map
        (fun s => (s.holders 0, (s.kernel.file 0).ref)) = some (4, 3) := by decide +kernel
  obtain ⟨s, run, pair⟩ := Option.map_eq_some_iff.mp run
  obtain ⟨held, ref⟩ := Prod.mk.inj pair
  exact ⟨s, Machine.reachable_of_run systemMachine boot_fresh _ run, held, ref⟩

end System

end Cs537.Wmap
