import Cs537.Wmap.Marking

/-! # The memory of a child

`fork` with `allocproc`, `copyuvm` and `freevm`, down to the pages that they allocate. The page directory of a child
has the pages below the size of the parent and the page tables for them; that of a mapping is not copied.
-/

namespace Cs537.Wmap

open Lib

/-- The page directory that `copyuvm` builds: its page, those of the page tables, and the pages from address 0 on. -/
structure Vm where
  pgdir : ℕ
  kernelTables : List ℕ
  userTables : List ℕ
  pages : List Page

/-- The page tables that `kmap` takes. -/
def kmapTables : ℕ := 64

example : ((List.range 1024).filter fun r => isKernel (1024 * r)).length = kmapTables := by decide +kernel

namespace Vm

def page (d : Vm) (v : ℕ) : Option Page := d.pages[v]?

/-- The page tables apart from those of `kmap`. -/
def tables (d : Vm) (r : ℕ) : Bool := r < d.userTables.length

/-- The pages of a directory in the order of `freevm`. -/
def frames (d : Vm) : List ℕ := d.pages.map (·.frame) ++ (d.userTables ++ (d.kernelTables ++ [d.pgdir]))

def freevm (d : Vm) (k : Kernel) : Kernel := d.frames.foldl Kernel.kfree k

end Vm

/-- `mappages` of `kmap`, for a number of page tables. -/
def mapKernel : ℕ → Vm → Kernel → Kernel × Option Vm
  | 0, d, k => (k, some d)
  | n + 1, d, k =>
      match k.kalloc with
      | none => (d.freevm k, none)
      | some (table, k) => mapKernel n { d with kernelTables := d.kernelTables ++ [table] } k

def setupkvm (k : Kernel) : Kernel × Option Vm :=
  match k.kalloc with
  | none => (k, none)
  | some (pgdir, k) => mapKernel kmapTables ⟨pgdir, [], [], []⟩ k

/-- `walkpgdir` with `alloc` set, for the next page. -/
def Vm.walkAlloc (d : Vm) (k : Kernel) : Option (Vm × Kernel) :=
  if d.tables (d.pages.length / 1024) then some (d, k)
  else k.kalloc.map fun (table, k) => ({ d with userTables := d.userTables ++ [table] }, k)

/-- A round of `copyuvm`; no directory is left when `kalloc` fails, and a page of the parent that is not there is a
panic. -/
def copyPage (parent : Task) (d : Vm) (k : Kernel) : Option (Kernel × Option Vm) :=
  match parent.page d.pages.length with
  | none => none
  | some page =>
      match k.kalloc with
      | none => some (d.freevm k, none)
      | some (mem, k) =>
          match d.walkAlloc k with
          | none => some (d.freevm (k.kfree mem), none)
          | some (d, k) => some (k, some { d with pages := d.pages ++ [{ page with frame := mem }] })

def copyPages (parent : Task) : ℕ → Vm → Kernel → Option (Kernel × Option Vm)
  | 0, d, k => some (k, some d)
  | n + 1, d, k =>
      match copyPage parent d k with
      | none => none
      | some (k, none) => some (k, none)
      | some (k, some d) => copyPages parent n d k

/-- The number of rounds of `for(i = 0; i < sz; i += PGSIZE)`. -/
def pagesBelow (sz : ℕ) : ℕ := (sz + 4095) / 4096

def copyuvm (parent : Task) (sz : ℕ) (k : Kernel) : Option (Kernel × Option Vm) :=
  match setupkvm k with
  | (k, none) => some (k, none)
  | (k, some d) => copyPages parent (pagesBelow sz) d k

section Copying

variable {parent : Task} {sz n : ℕ} {d d' : Vm} {k k' k₀ : Kernel} {result : Option Vm}

private theorem Kernel.kalloc_eq_some {frame : ℕ} (done : k.kalloc = some (frame, k')) : k = k'.kfree frame := by
  rw [Kernel.kalloc] at done
  split at done
  · cases done
  case h_2 free =>
    cases done
    rw [Kernel.kfree, ← free]

private theorem Kernel.kalloc_eq_none : k.kalloc = none ↔ k.free = [] := by
  rw [Kernel.kalloc]
  split <;> simp_all

private theorem Kernel.kfree_all (frames : List ℕ) :
    frames.foldl Kernel.kfree k = { k with free := frames.reverse ++ k.free } := by
  induction frames generalizing k with
  | nil => rfl
  | cons frame rest ih =>
    rw [List.foldl_cons, ih]
    simp [Kernel.kfree]

/-- The pages that a child of a size of `n` pages takes. -/
def vmPages (n : ℕ) : ℕ := 1 + kmapTables + n + (n + 1023) / 1024

private theorem vmPages_mono {m : ℕ} (le : m ≤ n) : vmPages m ≤ vmPages n := by
  unfold vmPages
  omega

/-- The kernel has changed in its free pages only. -/
def OnlyFree (k k' : Kernel) : Prop := k'.file = k.file ∧ k'.inode = k.inode

theorem OnlyFree.eq (only : OnlyFree k k') : { k with free := k'.free } = k' := by
  rw [← only.1, ← only.2]

/-- A directory is being built from the pages that were free at the beginning. -/
structure Building (k₀ : Kernel) (d : Vm) (k : Kernel) : Prop where
  only : OnlyFree k₀ k
  frames : (d.frames ++ k.free).Perm k₀.free

theorem Building.take {x : ℕ} (built : Building k₀ d k) (d' : Vm) (allocated : k.kalloc = some (x, k'))
    (more : d'.frames.Perm (x :: d.frames)) : Building k₀ d' k' := by
  cases Kernel.kalloc_eq_some allocated
  exact ⟨built.only, (more.append_right _).trans (List.perm_middle.symm.trans built.frames)⟩

/-- `freevm` gives everything back. -/
theorem Building.freevm (built : Building k₀ d k) : OnlyFree k₀ (d.freevm k) ∧ (d.freevm k).free.Perm k₀.free := by
  rw [Vm.freevm, Kernel.kfree_all]
  exact ⟨built.only, ((List.reverse_perm _).append_right _).trans built.frames⟩

theorem Building.count (built : Building k₀ d k) : k₀.free.length =
    d.pages.length + (d.userTables.length + (d.kernelTables.length + 1)) + k.free.length := by
  rw [← built.frames.length_eq]
  simp only [Vm.frames, List.length_append, List.length_map, List.length_singleton]

/-- The directory has its first `n` pages and the page tables for them. -/
structure Complete (d : Vm) (n : ℕ) : Prop where
  pages : d.pages.length = n
  userTables : d.userTables.length = (n + 1023) / 1024
  kernelTables : d.kernelTables.length = kmapTables

/-- A part of `copyuvm` gives everything back, as there are too few pages for a child of `n`, or it has built the
directory for the first `n`. -/
def Outcome (k₀ k : Kernel) (n : ℕ) : Option Vm → Prop
  | none => OnlyFree k₀ k ∧ k.free.Perm k₀.free ∧ k₀.free.length < vmPages n
  | some d => Building k₀ d k ∧ Complete d n

/-- No page is free, and the directory is not that of `n` pages yet. -/
theorem Building.fails (built : Building k₀ d k) (full : k.free.length + d.pages.length +
    (d.userTables.length + d.kernelTables.length) < n + (n + 1023) / 1024 + kmapTables) :
    Outcome k₀ (d.freevm k) n none := by
  obtain ⟨only, back⟩ := built.freevm
  refine ⟨only, back, ?_⟩
  rw [built.count, vmPages]
  omega

private theorem Building.mapKernel (built : Building k₀ d k) (none : d.pages = [] ∧ d.userTables = [])
    (count : d.kernelTables.length + n = kmapTables) (made : mapKernel n d k = (k', result)) :
    Outcome k₀ k' 0 result := by
  induction n generalizing d k with
  | zero =>
    cases made
    exact ⟨built, by rw [none.1]; rfl, by rw [none.2]; rfl, count⟩
  | succ n ih =>
    rw [Wmap.mapKernel] at made
    split at made
    case h_1 full =>
      cases made
      refine built.fails ?_
      rw [Kernel.kalloc_eq_none.mp full, none.1, none.2]
      simp only [List.length_nil]
      omega
    case h_2 table k₁ allocated =>
      refine ih (built.take { d with kernelTables := d.kernelTables ++ [table] } allocated ?_) none ?_ made
      · simp only [Vm.frames, none.1, none.2, List.map_nil, List.nil_append, List.append_assoc, List.singleton_append]
        exact List.perm_middle
      · rw [List.length_append, List.length_singleton]
        omega

private theorem setupkvm_outcome (made : setupkvm k = (k', result)) : Outcome k k' 0 result := by
  rw [setupkvm] at made
  split at made
  case h_1 full =>
    cases made
    refine ⟨⟨rfl, rfl⟩, .rfl, ?_⟩
    rw [Kernel.kalloc_eq_none.mp full]
    decide
  case h_2 pgdir k₁ allocated =>
    cases Kernel.kalloc_eq_some allocated
    have built : Building (k₁.kfree pgdir) ⟨pgdir, [], [], []⟩ k₁ := ⟨⟨rfl, rfl⟩, .rfl⟩
    exact built.mapKernel ⟨rfl, rfl⟩ (Nat.zero_add _) made

/-- A round: the next page is there, and unless `kalloc` fails it is copied. -/
theorem Building.copyPage (built : Building k₀ d k) (complete : Complete d n)
    (made : copyPage parent d k = some (k', result)) : (parent.page n).isSome ∧ Outcome k₀ k' (n + 1) result := by
  obtain ⟨pages, userTables, kernelTables⟩ := complete
  rw [Wmap.copyPage, pages] at made
  split at made
  · cases made
  case h_2 page present =>
    refine ⟨by rw [present]; rfl, ?_⟩
    split at made
    case h_1 full =>
      cases made
      refine built.fails ?_
      rw [Kernel.kalloc_eq_none.mp full, List.length_nil, pages, userTables, kernelTables]
      omega
    case h_2 mem k₁ allocated =>
      rw [Vm.walkAlloc, pages] at made
      split at made
      case h_1 full =>
        split at full
        · cases full
        case isFalse absent =>
          cases made
          cases Kernel.kalloc_eq_some allocated
          refine built.fails ?_
          rw [Kernel.kfree, Kernel.kalloc_eq_none.mp (Option.map_eq_none_iff.mp full), List.length_singleton, pages,
            userTables, kernelTables]
          simp only [Vm.tables, userTables, decide_eq_true_eq] at absent
          omega
      case h_2 d₁ k₂ walked =>
        cases made
        split at walked
        case isTrue there =>
          cases walked
          refine ⟨built.take _ allocated ?_, ?_, ?_, kernelTables⟩
          · simp only [Vm.frames, List.map_append, List.map_singleton, List.append_assoc, List.singleton_append]
            exact List.perm_middle
          · rw [List.length_append, pages, List.length_singleton]
          · simp only [Vm.tables, userTables, decide_eq_true_eq] at there
            simp only [userTables]
            omega
        case isFalse absent =>
          obtain ⟨⟨table, k₃⟩, allocated', pair⟩ := Option.map_eq_some_iff.mp walked
          cases pair
          have enter := built.take { d with pages := d.pages ++ [{ page with frame := mem }] } allocated ?_
          · refine ⟨enter.take _ allocated' ?_, ?_, ?_, kernelTables⟩
            · simp only [Vm.frames, List.append_assoc, List.singleton_append]
              exact (List.perm_middle.append_left _).trans List.perm_middle
            · rw [List.length_append, pages, List.length_singleton]
            · simp only [Vm.tables, userTables, decide_eq_true_eq] at absent
              simp only [List.length_append, userTables, List.length_singleton]
              omega
          · simp only [Vm.frames, List.map_append, List.map_singleton, List.append_assoc, List.singleton_append]
            exact List.perm_middle

/-- The rounds of `copyuvm`: each page of the parent is there, and unless `kalloc` fails they are copied. -/
theorem Building.copyPages {m : ℕ} (built : Building k₀ d k) (complete : Complete d m)
    (made : copyPages parent n d k = some (k', result)) :
    (result.isSome → ∀ v, m ≤ v → v < m + n → (parent.page v).isSome) ∧ Outcome k₀ k' (m + n) result := by
  induction n generalizing d k m with
  | zero =>
    cases made
    exact ⟨fun _ v low high => by omega, built, complete⟩
  | succ n ih =>
    rw [Wmap.copyPages] at made
    split at made
    · cases made
    case h_2 k₁ copied =>
      cases made
      obtain ⟨_, only, back, few⟩ := built.copyPage complete copied
      exact ⟨(fun absurd => nomatch absurd), only, back, few.trans_le (vmPages_mono (by omega))⟩
    case h_3 k₁ d₁ copied =>
      obtain ⟨present, built₁, complete₁⟩ := built.copyPage complete copied
      obtain ⟨later, outcome⟩ := ih built₁ complete₁ made
      rw [Nat.add_right_comm, Nat.add_assoc] at outcome
      refine ⟨fun found v low high => ?_, outcome⟩
      rcases low.eq_or_lt with rfl | low
      · exact present
      · exact later found v low (by omega)

private theorem Building.copyPages_returns {m : ℕ} (built : Building k₀ d k) (complete : Complete d m)
    (present : ∀ v, m ≤ v → v < m + n → (parent.page v).isSome) : (Wmap.copyPages parent n d k).isSome := by
  induction n generalizing d k m with
  | zero => rfl
  | succ n ih =>
    rw [Wmap.copyPages]
    cases copied : Wmap.copyPage parent d k with
    | none =>
      have here := present m le_rfl (by omega)
      obtain ⟨page, found⟩ := Option.isSome_iff_exists.mp here
      rw [Wmap.copyPage, complete.pages, found] at copied
      simp only at copied
      split at copied
      · cases copied
      · split at copied <;> cases copied
    | some outcome =>
      obtain ⟨k₁, result⟩ := outcome
      cases result with
      | none => rfl
      | some d₁ =>
        obtain ⟨_, built₁, complete₁⟩ := built.copyPage complete copied
        exact ih built₁ complete₁ fun v low high => present v (by omega) (by omega)

/-- `copyuvm` gives everything back if there are too few pages for the child, and otherwise the directory has a page for
every page of the parent. -/
theorem copyuvm_outcome (made : copyuvm parent sz k = some (k', result)) :
    (result.isSome → ∀ v < pagesBelow sz, (parent.page v).isSome) ∧ Outcome k k' (pagesBelow sz) result := by
  rw [copyuvm] at made
  split at made
  case h_1 k₁ set =>
    cases made
    obtain ⟨only, back, few⟩ := setupkvm_outcome set
    exact ⟨(fun absurd => nomatch absurd), only, back, few.trans_le (vmPages_mono (Nat.zero_le _))⟩
  case h_2 k₁ d set =>
    obtain ⟨built, complete⟩ := setupkvm_outcome set
    obtain ⟨present, outcome⟩ := built.copyPages complete made
    rw [Nat.zero_add] at outcome
    exact ⟨fun found v below => present found v (Nat.zero_le v) (by omega), outcome⟩

/-- `copyuvm` does not panic if the pages of the parent are there. -/
private theorem copyuvm_returns (present : ∀ v < pagesBelow sz, (parent.page v).isSome) : (copyuvm parent sz k).isSome := by
  rw [copyuvm]
  split
  · rfl
  case h_2 k₁ d set =>
    obtain ⟨built, complete⟩ := setupkvm_outcome set
    exact built.copyPages_returns complete fun v _ below => present v (by omega)

/-- `copyuvm` fails if and only if there are too few pages. -/
theorem copyuvm_fails_iff (made : copyuvm parent sz k = some (k', result)) :
    result = none ↔ k.free.length < vmPages (pagesBelow sz) := by
  obtain ⟨_, outcome⟩ := copyuvm_outcome made
  cases result with
  | none => exact iff_of_true rfl outcome.2.2
  | some d =>
    obtain ⟨built, complete⟩ := outcome
    refine iff_of_false (fun absurd => nomatch absurd) ?_
    rw [built.count, complete.pages, complete.userTables, complete.kernelTables, vmPages]
    omega

end Copying

/-- What a child has of a mapping. -/
def MmapEntry.shape (me : MmapEntry) : Region × ℕ × Option (Fin nfile) := (me.toRegion, me.flags, me.file)

/-- The loop of `fork` over a private mapping ends, and there is a page table for each of its pages. -/
def Region.HasTables (r : Region) (tables : ℕ → Bool) : Prop :=
  r.offsets.isSome ∧ ∀ i ∈ r.rounds, isKernel (r.pageAt i) = false ∧ tables (r.pageAt i / 1024) = true

namespace Running

variable {s s' : Running} {me : MmapEntry} {offsets : List ℕ} {mmaps : List MmapEntry} {ok : Bool}
  {ofile : Fin nofile → Option (Fin nfile)} {fds : List (Fin nofile)}

/-- Marking changes the pages only, and succeeds if and only if there is a page table for each page. -/
private theorem protectCopied_spec (done : protectCopied me offsets s = some (s', ok)) :
    s' = { s with page := s'.page } ∧
      (ok = true → ∀ i ∈ offsets, isKernel (me.pageAt i) = false ∧ s.tables (me.pageAt i / 1024) = true) := by
  induction offsets generalizing s with
  | nil =>
    cases done
    exact ⟨rfl, fun _ _ outside => (List.not_mem_nil outside).elim⟩
  | cons i rest ih =>
    simp only [protectCopied] at done
    split at done
    · cases done
    case isFalse user =>
      split at done
      · cases done
        exact ⟨rfl, by rintro ⟨⟩⟩
      case isFalse table =>
        have here : isKernel (me.pageAt i) = false ∧ s.tables (me.pageAt i / 1024) = true :=
          ⟨Bool.eq_false_iff.mpr user, Bool.not_eq_false _ |>.mp table⟩
        split at done
        · obtain ⟨same, all⟩ := ih done
          exact ⟨same, fun good => List.forall_mem_cons.mpr ⟨here, all good⟩⟩
        · obtain ⟨same, all⟩ := ih done
          exact ⟨same, fun good => List.forall_mem_cons.mpr ⟨here, all good⟩⟩

private theorem protectCopied_returns
    (all : ∀ i ∈ offsets, isKernel (me.pageAt i) = false ∧ s.tables (me.pageAt i / 1024) = true) :
    ∃ s', protectCopied me offsets s = some (s', true) := by
  induction offsets generalizing s with
  | nil => exact ⟨s, rfl⟩
  | cons i rest ih =>
    obtain ⟨⟨user, table⟩, later⟩ := List.forall_mem_cons.mp all
    rw [Region.pageAt] at user table
    simp only [protectCopied, user, table, Bool.false_eq_true, Bool.true_eq_false, if_false]
    split
    · exact ih later
    · exact ih later

/-- `fork` marks the pages of a new entry. -/
def markCopied (me : MmapEntry) (s : Running) : Option (Running × Bool) :=
  if isPrivate me.flags then me.offsets.bind fun offsets => protectCopied me offsets s else some (s, true)

private theorem markCopied_spec (done : markCopied me s = some (s', ok)) :
    s' = { s with page := s'.page } ∧ (ok = true → isPrivate me.flags = true → me.HasTables s.tables) := by
  rw [markCopied] at done
  split at done
  · obtain ⟨offsets, loop, marked⟩ := Option.bind_eq_some_iff.mp done
    obtain ⟨same, all⟩ := protectCopied_spec marked
    rw [Region.rounds_of_offsets loop] at all
    exact ⟨same, fun good _ => ⟨by rw [loop]; rfl, all good⟩⟩
  case isFalse shared =>
    cases done
    exact ⟨rfl, fun _ notShared => absurd notShared shared⟩

private theorem markCopied_returns (tables : isPrivate me.flags = true → me.HasTables s.tables) :
    ∃ s', markCopied me s = some (s', true) := by
  rw [markCopied]
  split
  case isTrue notShared =>
    obtain ⟨loop, all⟩ := tables notShared
    obtain ⟨offsets, loop⟩ := Option.isSome_iff_exists.mp loop
    rw [← Region.rounds_of_offsets loop] at all
    rw [loop]
    exact protectCopied_returns all
  · exact ⟨s, rfl⟩

theorem copyMappings_cons {rest : List MmapEntry} : copyMappings (me :: rest) s =
    match s.kalloc with
    | none => some (s, false)
    | some (frame, s) =>
        match markCopied me s with
        | none => none
        | some (s, false) => some (s, false)
        | some (s, true) => copyMappings rest { s with mmaps := { me with frame := frame } :: s.mmaps } := rfl

/-- The copies come in front of what the slot has, and each has taken a page. -/
theorem copyMappings_copies (done : copyMappings mmaps s = some (s', true)) :
    s'.mmaps.map (·.shape) = (mmaps.map (·.shape)).reverse ++ s.mmaps.map (·.shape) ∧ s'.file = s.file ∧
      ∀ me ∈ mmaps, isPrivate me.flags = true → me.HasTables s.tables := by
  induction mmaps generalizing s with
  | nil =>
    cases done
    exact ⟨rfl, rfl, fun _ absurd => nomatch absurd⟩
  | cons me rest ih =>
    rw [copyMappings_cons] at done
    split at done
    · cases done
    case h_2 frame s₁ allocated =>
      split at done
      · cases done
      · cases done
      case h_3 s₂ marked =>
        obtain ⟨same, tables⟩ := markCopied_spec marked
        have task := kalloc_task allocated
        obtain ⟨mmaps, file, later⟩ := ih done
        rw [same] at mmaps file later
        rw [show s₁.tables = s.tables from congrArg Task.tables task] at tables later
        refine ⟨?_, file.trans (kalloc_files allocated).1, List.forall_mem_cons.mpr ⟨tables rfl, later⟩⟩
        rw [mmaps, show s₁.mmaps = s.mmaps from congrArg Task.mmaps task]
        simp [MmapEntry.shape]

/-- A page is taken for each entry that is begun. -/
theorem copyMappings_takes (done : copyMappings mmaps s = some (s', ok)) :
    s'.free.length ≤ s.free.length ∧ s.free.length ≤ s'.free.length + mmaps.length := by
  induction mmaps generalizing s with
  | nil =>
    cases done
    exact ⟨le_rfl, le_rfl⟩
  | cons me rest ih =>
    rw [copyMappings_cons] at done
    split at done
    · cases done
      exact ⟨le_rfl, Nat.le_add_right ..⟩
    case h_2 frame s₁ allocated =>
      have taken : s.free.length = s₁.free.length + 1 := by
        rw [(kalloc_free allocated).1, List.length_cons]
      rw [List.length_cons]
      split at done
      · cases done
      case h_2 s₂ marked =>
        cases done
        have same : s'.free = s₁.free := by
          rw [(markCopied_spec marked).1]
        rw [same]
        exact ⟨by omega, by omega⟩
      case h_3 s₂ marked =>
        have same : s₂.free = s₁.free := by
          rw [(markCopied_spec marked).1]
        have bounds := ih done
        simp only [same] at bounds
        exact ⟨by omega, by omega⟩

/-- `kalloc` succeeds for each entry that the copying loop comes to. -/
def Enough (mmaps : List MmapEntry) (s : Running) : Prop :=
  ∀ copied me rest r, mmaps = copied ++ me :: rest → copyMappings copied s = some (r, true) → r.kalloc ≠ none

private theorem copyMappings_returns (enough : Enough mmaps s)
    (tables : ∀ me ∈ mmaps, isPrivate me.flags = true → me.HasTables s.tables) :
    ∃ s', copyMappings mmaps s = some (s', true) := by
  induction mmaps generalizing s with
  | nil => exact ⟨s, rfl⟩
  | cons me rest ih =>
    cases allocated : s.kalloc with
    | none => exact absurd allocated (enough [] me rest s rfl rfl)
    | some r =>
      obtain ⟨frame, s₁⟩ := r
      have same : s₁.tables = s.tables := congrArg Task.tables (kalloc_task allocated)
      obtain ⟨here, later⟩ := List.forall_mem_cons.mp tables
      rw [← same] at here later
      obtain ⟨s₂, marked⟩ := markCopied_returns here
      have tables₂ : s₂.tables = s₁.tables := by
        rw [(markCopied_spec marked).1]
      rw [copyMappings_cons, allocated]
      simp only [marked]
      refine ih (fun copied other rest' r split done => ?_) (by rwa [← tables₂] at later)
      refine enough (me :: copied) other rest' r (by rw [split]; rfl) ?_
      rw [copyMappings_cons, allocated]
      simp only [marked]
      exact done

/-- As many free pages as entries are enough. -/
private theorem enough_of_length (many : mmaps.length ≤ s.free.length) : Enough mmaps s := by
  rintro copied me rest r rfl done none
  have bounds := copyMappings_takes done
  have empty : r.free = [] := by
    rw [kalloc] at none
    split at none
    case h_1 full => exact Kernel.kalloc_eq_none.mp full
    · cases none
  rw [List.length_append, List.length_cons] at many
  rw [empty, List.length_nil] at bounds
  omega

/-- `filedup` of an open descriptor does not panic if and only if its file has a reference. -/
theorem copyFds_isSome_iff : (fds.foldlM (copyFd ofile) s).isSome ↔
    ∀ fd ∈ fds, ∀ f, ofile fd = some f → 1 ≤ (s.file f).ref := by
  induction fds generalizing s with
  | nil => simp
  | cons fd rest ih =>
    rw [List.foldlM_cons, List.forall_mem_cons]
    cases slot : ofile fd with
    | none =>
      rw [copyFd, slot]
      simpa using ih
    | some f =>
      rw [copyFd, slot]
      by_cases counted : 1 ≤ (s.file f).ref
      · have dup : s.onKernel (·.filedup f) =
            some { s with toKernel := s.toKernel.setFile f { s.file f with ref := (s.file f).ref + 1 } } := by
          rw [onKernel, Kernel.filedup, if_neg (by omega)]
        have grows (g : Fin nfile) :
            1 ≤ ((s.toKernel.setFile f { s.file f with ref := (s.file f).ref + 1 }).file g).ref ↔ 1 ≤ (s.file g).ref := by
          by_cases here : g = f
          · subst here
            simp only [Kernel.setFile, Function.update_self]
            exact iff_of_true (by omega) counted
          · simp only [Kernel.setFile, Function.update_of_ne here]
        simp only [dup, Option.map_some, Option.bind_eq_bind, Option.bind_some, ih, grows]
        simp [counted]
      · have panics : s.onKernel (·.filedup f) = none := by
          rw [onKernel, Kernel.filedup, if_pos (by omega)]
        simp only [panics, Option.map_none, Option.bind_eq_bind, Option.bind_none]
        simp [counted]

theorem copyFds_memory (done : fds.foldlM (copyFd ofile) s = some s') : s'.mmaps = s.mmaps ∧ s'.page = s.page := by
  have rule (t : Running) (fd : Fin nofile) (_ : fd ∈ fds) (t' : Running) (copied : copyFd ofile t fd = some t')
      (keep : t.mmaps = s.mmaps ∧ t.page = s.page) : t'.mmaps = s.mmaps ∧ t'.page = s.page := by
    rw [copyFd] at copied
    split at copied
    · cases copied
      exact keep
    · obtain ⟨u, dup, rfl⟩ := Option.map_eq_some_iff.mp copied
      obtain ⟨k, _, rfl⟩ := Counted.onKernel_some dup
      exact keep
  exact foldlM_preserves rule done ⟨rfl, rfl⟩

end Running

/-- The process table with the fields that `fork` needs besides. A size stays below `KERNBASE`. -/
structure Procs extends System where
  pid : Fin nproc → ℕ
  kstack : Fin nproc → Option ℕ
  sz : Fin nproc → ℕ
  nextpid : ℕ
  below : ∀ p, sz p < 4096 * kernelPage

namespace Procs

/-- The slot that `allocproc` finds. -/
def unusedSlot (s : Procs) : Option (Fin nproc) := (List.finRange nproc).find? fun q => (s.proc q).state = .unused

def setState (s : Procs) (q : Fin nproc) (state : ProcState) : Procs :=
  { s with proc := Function.update s.proc q { s.proc q with state := state } }

/-- `allocproc`; the mappings of the slot stay. -/
def allocproc (s : Procs) : Procs × Option (Fin nproc) :=
  match s.unusedSlot with
  | none => (s, none)
  | some np =>
      let s := { s.setState np .embryo with pid := Function.update s.pid np s.nextpid, nextpid := s.nextpid + 1 }
      match s.kernel.kalloc with
      | none => ({ s.setState np .unused with kstack := Function.update s.kstack np none }, none)
      | some (kstack, k) => ({ s with kernel := k, kstack := Function.update s.kstack np (some kstack) }, some np)

/-- `kfree(np->kstack)`, `np->kstack = 0` and `np->state = UNUSED`, at each of the failures. -/
def release (s : Procs) (np : Fin nproc) : Procs :=
  { s.setState np .unused with
    kernel := (s.kstack np).toList.foldl Kernel.kfree s.kernel
    kstack := Function.update s.kstack np none }

/-- A process with the kernel is put back. -/
def store (s : Procs) (q : Fin nproc) (r : Running) : Procs := { s with toSystem := s.toSystem.back q r }

/-- The child before its mappings are copied. -/
def child (s : Procs) (np : Fin nproc) (d : Vm) (k : Kernel) : Running :=
  ⟨{ (s.proc np).toTask with tables := d.tables, page := d.page }, k⟩

/-- The last part of `fork`. -/
def start (s : Procs) (p np : Fin nproc) (r : Running) : Procs :=
  { s with
    proc := Function.update s.proc np ⟨r.toTask, .runnable, some p⟩
    kernel := r.toKernel
    sz := Function.update s.sz np (s.sz p)
    below := fun q => by
      by_cases here : q = np
      · rw [here, Function.update_self]
        exact s.below p
      · rw [Function.update_of_ne here]
        exact s.below q }

/-- `fork`: the process identifier of the child, or none for -1. -/
def fork (s : Procs) (p : Fin nproc) : Option (Procs × Option ℕ) :=
  match s.allocproc with
  | (s, none) => some (s, none)
  | (s, some np) =>
      match copyuvm (s.proc p).toTask (s.sz p) s.kernel with
      | none => none
      | some (k, none) => some ({ s with kernel := k }.release np, none)
      | some (k, some d) =>
          match Running.copyMappings (s.proc p).mmaps (s.child np d k) with
          | none => none
          | some (r, false) => some ((s.store np r).release np, none)
          | some (r, true) =>
              match (List.finRange nofile).foldlM (Running.copyFd (s.proc p).ofile) r with
              | none => none
              | some r => some (s.start p np r, some (s.pid np))

variable {s s' : Procs} {p np : Fin nproc} {pid kstack : ℕ} {k : Kernel}

/-- The table when `allocproc` has taken a slot. -/
def embryo (s : Procs) (np : Fin nproc) (kstack : ℕ) (k : Kernel) : Procs :=
  { s.setState np .embryo with
    kernel := k
    pid := Function.update s.pid np s.nextpid
    kstack := Function.update s.kstack np (some kstack)
    nextpid := s.nextpid + 1 }

@[simp] theorem setState_toTask (q : Fin nproc) (state : ProcState) :
    ((s.setState np state).proc q).toTask = (s.proc q).toTask := by
  by_cases here : q = np
  · subst here
    simp only [setState, Function.update_self]
  · simp only [setState, Function.update_of_ne here]

@[simp] theorem embryo_toTask (q : Fin nproc) : ((s.embryo np kstack k).proc q).toTask = (s.proc q).toTask :=
  setState_toTask q _

private theorem allocproc_eq (slot : s.unusedSlot = some np) (stack : s.kernel.kalloc = some (kstack, k)) :
    s.allocproc = (s.embryo np kstack k, some np) := by
  simp only [allocproc, slot, setState, stack]
  rfl

private theorem fork_eq (slot : s.unusedSlot = some np) (stack : s.kernel.kalloc = some (kstack, k)) : s.fork p =
    match copyuvm (s.proc p).toTask (s.sz p) k with
    | none => none
    | some (k, none) => some ((s.embryo np kstack k).release np, none)
    | some (k, some d) =>
        match Running.copyMappings (s.proc p).mmaps (s.child np d k) with
        | none => none
        | some (r, false) => some (((s.embryo np kstack k).store np r).release np, none)
        | some (r, true) =>
            match (List.finRange nofile).foldlM (Running.copyFd (s.proc p).ofile) r with
            | none => none
            | some r => some ((s.embryo np kstack k).start p np r, some s.nextpid) := by
  rw [fork, allocproc_eq slot stack]
  have pid : (s.embryo np kstack k).pid np = s.nextpid := Function.update_self ..
  have child (d : Vm) (k' : Kernel) : (s.embryo np kstack k).child np d k' = s.child np d k' := by
    rw [Procs.child, embryo_toTask, Procs.child]
  simp only [embryo_toTask, pid, child]
  rfl

private theorem fork_full (slot : s.unusedSlot = some np) (full : s.kernel.kalloc = none) :
    ∃ s', s.fork p = some (s', none) := by
  rw [fork, allocproc, slot]
  simp only [setState, full]
  exact ⟨_, rfl⟩

/-- There is a page table of the child for the pages of a 4 MB region that begins below the size. -/
def childTables (sz r : ℕ) : Bool := 4194304 * r < sz

private theorem tables_of_complete {d : Vm} {sz : ℕ} (complete : Complete d (pagesBelow sz)) : d.tables = childTables sz := by
  funext r
  rw [Vm.tables, childTables, complete.userTables, pagesBelow, decide_eq_decide]
  omega

/-- What a `fork` has to find in order to succeed, apart from free pages. -/
structure Forkable (s : Procs) (p : Fin nproc) : Prop where
  present : ∀ v < pagesBelow (s.sz p), ((s.proc p).page v).isSome
  tables : ∀ me ∈ (s.proc p).mmaps, isPrivate me.flags = true → me.HasTables (childTables (s.sz p))
  counted : ∀ fd f, (s.proc p).ofile fd = some f → 1 ≤ (s.kernel.file f).ref

/-- The child that `fork` has made in a slot. -/
structure Spawned (s s' : Procs) (p np : Fin nproc) (pid : ℕ) : Prop where
  pid : s'.pid np = pid
  parent : (s'.proc np).parent = some p
  mmaps : (s'.proc np).mmaps.map (·.shape) =
    ((s.proc p).mmaps.map (·.shape)).reverse ++ (s.proc np).mmaps.map (·.shape)

private theorem spawned_of_fork (slot : s.unusedSlot = some np) (done : s.fork p = some (s', some pid)) :
    Forkable s p ∧ Spawned s s' p np pid := by
  cases stack : s.kernel.kalloc with
  | none =>
    obtain ⟨s₁, failed⟩ := fork_full (p := p) slot stack
    rw [failed] at done
    cases done
  | some r =>
    obtain ⟨kstack, k⟩ := r
    rw [fork_eq slot stack] at done
    split at done
    · cases done
    · cases done
    case h_3 k₁ d copied =>
      split at done
      · cases done
      · cases done
      case h_3 r entries =>
        split at done
        · cases done
        case h_2 r' opened =>
          cases done
          obtain ⟨present, built, complete⟩ := copyuvm_outcome copied
          obtain ⟨mmaps, file, tables⟩ := Running.copyMappings_copies entries
          have counted := Running.copyFds_isSome_iff.mp (Option.isSome_iff_exists.mpr ⟨r', opened⟩)
          have files : r.file = s.kernel.file :=
            (file.trans built.only.1).trans (congrArg Kernel.file (Kernel.kalloc_eq_some stack)).symm
          refine ⟨⟨present rfl, ?_, fun fd f slot => ?_⟩, ?_, ?_, ?_⟩
          · rw [← tables_of_complete complete]
            exact tables
          · rw [← files]
            exact counted fd (List.mem_finRange fd) f slot
          · exact Function.update_self ..
          · simp only [start, Function.update_self]
          · simp only [start, Function.update_self]
            rw [(Running.copyFds_memory opened).1, mmaps]
            rfl

/-- Every `kalloc` of a `fork` into a slot succeeds. -/
def Allocates (s : Procs) (p np : Fin nproc) : Prop :=
  ∃ kstack k, s.kernel.kalloc = some (kstack, k) ∧
    ∀ k' result, copyuvm (s.proc p).toTask (s.sz p) k = some (k', result) →
      ∃ d, result = some d ∧ Running.Enough (s.proc p).mmaps (s.child np d k')

private theorem allocates_of_enough
    (enough : 1 + vmPages (pagesBelow (s.sz p)) + (s.proc p).mmaps.length ≤ s.kernel.free.length) :
    s.Allocates p np := by
  cases stack : s.kernel.kalloc with
  | none =>
    rw [Kernel.kalloc_eq_none.mp stack, List.length_nil] at enough
    omega
  | some r =>
    obtain ⟨kstack, k⟩ := r
    rw [Kernel.kalloc_eq_some stack, Kernel.kfree, List.length_cons] at enough
    refine ⟨kstack, k, stack, fun k' result copied => ?_⟩
    cases result with
    | none =>
      have few := (copyuvm_fails_iff copied).mp rfl
      omega
    | some d =>
      obtain ⟨_, built, complete⟩ := copyuvm_outcome copied
      refine ⟨d, rfl, Running.enough_of_length ?_⟩
      have total := built.count
      rw [complete.pages, complete.userTables, complete.kernelTables] at total
      rw [vmPages] at enough
      have same : (s.child np d k').free = k'.free := rfl
      rw [same]
      omega

private theorem fork_returns (slot : s.unusedSlot = some np) (allocates : s.Allocates p np) (forkable : Forkable s p) :
    ∃ s' pid, s.fork p = some (s', some pid) := by
  obtain ⟨kstack, k, stack, copies⟩ := allocates
  obtain ⟨⟨k₁, result⟩, copied⟩ := Option.isSome_iff_exists.mp (copyuvm_returns (k := k) forkable.present)
  obtain ⟨d, rfl, enough⟩ := copies k₁ result copied
  obtain ⟨_, built, complete⟩ := copyuvm_outcome copied
  have tables := forkable.tables
  rw [← tables_of_complete complete] at tables
  obtain ⟨r, entries⟩ := Running.copyMappings_returns enough tables
  have files : r.file = s.kernel.file := ((Running.copyMappings_copies entries).2.1.trans built.only.1).trans
    (congrArg Kernel.file (Kernel.kalloc_eq_some stack)).symm
  have opens : ((List.finRange nofile).foldlM (Running.copyFd (s.proc p).ofile) r).isSome := by
    refine Running.copyFds_isSome_iff.mpr fun fd _ f open_ => ?_
    rw [files]
    exact forkable.counted fd f open_
  obtain ⟨r', opened⟩ := Option.isSome_iff_exists.mp opens
  rw [fork_eq slot stack, copied]
  simp only [entries, opened]
  exact ⟨_, _, rfl⟩

end Procs

/-- `fork` returns the identifier of a child with exactly the mappings of the parent. -/
def Procs.ForksAlike (s : Procs) (p np : Fin nproc) : Prop :=
  ∃ s' pid, s.fork p = some (s', some pid) ∧ s'.pid np = pid ∧ (s'.proc np).parent = some p ∧
    ((s'.proc np).mmaps.map (·.shape)).Perm ((s.proc p).mmaps.map (·.shape))

open Procs in
/-- With a free slot, and when every `kalloc` succeeds: `fork` makes such a child if the parent has all its pages below
its size, every private mapping lies in 4 MB regions that begin below that size, every open file has a reference, and
the slot has no mappings left; and only then if no private mapping has pages of `kmap`. -/
theorem forks_alike_iff {s : Procs} {p np : Fin nproc} (slot : s.unusedSlot = some np) (allocates : s.Allocates p np) :
    (Forkable s p ∧ (s.proc np).mmaps = [] → ForksAlike s p np) ∧
      ((∀ me ∈ (s.proc p).mmaps, isPrivate me.flags = true → me.toRegion.InUser) → ForksAlike s p np →
        Forkable s p ∧ (s.proc np).mmaps = []) := by
  constructor
  · rintro ⟨forkable, clean⟩
    obtain ⟨s', pid, done⟩ := fork_returns slot allocates forkable
    obtain ⟨_, spawned⟩ := spawned_of_fork slot done
    refine ⟨s', pid, done, spawned.pid, spawned.parent, ?_⟩
    rw [spawned.mmaps, clean, List.map_nil, List.append_nil]
    exact List.reverse_perm _
  · rintro _ ⟨s', pid, done, _, _, alike⟩
    obtain ⟨forkable, spawned⟩ := spawned_of_fork slot done
    have lengths := alike.length_eq
    rw [spawned.mmaps] at lengths
    simp only [List.length_append, List.length_reverse, List.length_map] at lengths
    exact ⟨forkable, List.length_eq_zero_iff.mp (by omega)⟩

namespace Procs

variable {s s' : Procs} {p np : Fin nproc} {kstack : ℕ} {k : Kernel} {result : Option ℕ}

private theorem unused_of_slot (slot : s.unusedSlot = some np) : { s.proc np with state := .unused } = s.proc np := by
  have state : (s.proc np).state = .unused := by simpa using List.find?_some slot
  rw [← state]

/-- The process table after a failure: the slot is unused again, with the pages and mappings that the child has got. -/
private theorem release_store (slot : s.unusedSlot = some np) (r : Running) :
    (((s.embryo np kstack k).store np r).release np).toSystem = s.toSystem.giveUp np r kstack := by
  have state := congrArg Proc.state (unused_of_slot slot)
  simp only at state
  simp [release, store, embryo, setState, System.back, System.giveUp, Running.kfree, ← state]

private theorem release_embryo (slot : s.unusedSlot = some np) :
    ((s.embryo np kstack k).release np).toSystem = { s.toSystem with kernel := k.kfree kstack } := by
  simp [release, embryo, setState, unused_of_slot slot]

/-- The pages that `copyuvm` takes are the only thing that the system of all processes has to be told about. -/
theorem fork_refines (done : s.fork p = some (s', result)) :
    ∃ copied free, s.toSystem.fork p copied free = some s'.toSystem := by
  have find : s.unusedSlot = (List.finRange nproc).find? fun q => (s.proc q).state = .unused := rfl
  cases slot : s.unusedSlot with
  | none =>
    rw [fork, allocproc, slot] at done
    cases done
    exact ⟨none, [], by rw [System.fork, ← find, slot]⟩
  | some np =>
    cases stack : s.kernel.kalloc with
    | none =>
      have full : (s.running np).kalloc = none := by
        rw [Running.kalloc, System.running, stack]
      refine ⟨none, [], ?_⟩
      simp only [System.fork, ← find, slot, full]
      rw [fork, allocproc, slot] at done
      simp only [setState, stack] at done
      cases done
      simp [unused_of_slot slot]
    | some r =>
      obtain ⟨kstack, k⟩ := r
      have child : (s.running np).kalloc = some (kstack, { s.running np with toKernel := k }) := by
        rw [Running.kalloc, System.running, stack]
      rw [fork_eq slot stack] at done
      cases copied : copyuvm (s.proc p).toTask (s.sz p) k with
      | none =>
        rw [copied] at done
        cases done
      | some outcome =>
        obtain ⟨k', directory⟩ := outcome
        rw [copied] at done
        cases directory with
        | none =>
          cases done
          refine ⟨none, k'.free, ?_⟩
          simp only [System.fork, ← find, slot, child]
          have same := (copyuvm_outcome copied).2.1.eq
          rw [release_embryo slot, System.giveUp, System.back]
          simp [Running.kfree, System.running, same]
        | some d =>
          have same := (copyuvm_outcome copied).2.1.only.eq
          refine ⟨some ⟨d.tables, d.page⟩, k'.free, ?_⟩
          have begin : Running.mk { (s.running np).toTask with tables := d.tables, page := d.page }
              { k with free := k'.free } = s.child np d k' := by
            rw [same]
            rfl
          simp only [System.fork, ← find, slot, child, begin]
          cases entries : Running.copyMappings (s.proc p).mmaps (s.child np d k') with
          | none =>
            simp only [entries] at done
            cases done
          | some outcome =>
            obtain ⟨r, ok⟩ := outcome
            simp only [entries] at done
            cases ok with
            | false =>
              cases done
              exact congrArg some (release_store slot r).symm
            | true =>
              cases opened : (List.finRange nofile).foldlM (Running.copyFd (s.proc p).ofile) r with
              | none =>
                simp only [opened] at done
                cases done
              | some r' =>
                simp only [opened] at done
                cases done
                simp [opened, start, embryo, setState]

/-- A failed `fork` has left nothing behind, and a process that is created in the slot later starts with copies only. -/
structure Restored (s s' : Procs) (np : Fin nproc) : Prop where
  state : (s'.proc np).state = .unused
  kstack : s'.kstack np = none
  mmaps : (s'.proc np).mmaps = []
  free : s'.kernel.free.Perm s.kernel.free
  later : ∀ (t t' : Procs) (q : Fin nproc) (pid : ℕ), t.unusedSlot = some np → (t.proc np).toTask = (s'.proc np).toTask →
    t.fork q = some (t', some pid) → (t'.proc np).mmaps.map (·.shape) = ((t.proc q).mmaps.map (·.shape)).reverse

private theorem release_proc (s : Procs) (np : Fin nproc) : ((s.release np).proc np).toTask = (s.proc np).toTask ∧
    ((s.release np).proc np).state = .unused ∧ (s.release np).kstack np = none := by
  refine ⟨setState_toTask np _, ?_, Function.update_self ..⟩
  simp only [release, setState, Function.update_self]

/-- `copyuvm` has failed. -/
private theorem restored_of_copyuvm {k' : Kernel} (stack : s.kernel.kalloc = some (kstack, k))
    (copied : copyuvm (s.proc p).toTask (s.sz p) k = some (k', none)) :
    Restored s ((s.embryo np kstack k').release np) np ↔ (s.proc np).mmaps = [] := by
  obtain ⟨task, state, stackless⟩ := release_proc (s.embryo np kstack k') np
  rw [embryo_toTask] at task
  have mmaps : (((s.embryo np kstack k').release np).proc np).mmaps = (s.proc np).mmaps := congrArg Task.mmaps task
  constructor
  · intro restored
    rw [← mmaps]
    exact restored.mmaps
  · intro clean
    refine ⟨state, stackless, mmaps.trans clean, ?_, fun t t' q pid slot' same done => ?_⟩
    · have back : ((s.embryo np kstack k').release np).kernel.free = kstack :: k'.free := by
        simp [release, embryo, setState, Kernel.kfree]
      rw [back, Kernel.kalloc_eq_some stack]
      exact (copyuvm_outcome copied).2.2.1.cons kstack
    · obtain ⟨_, spawned⟩ := spawned_of_fork slot' done
      have empty : (t.proc np).mmaps = [] := (congrArg Task.mmaps same).trans (mmaps.trans clean)
      rw [spawned.mmaps, empty, List.map_nil, List.append_nil]

/-- The copying loop has failed. -/
private theorem not_restored_of_entries {k' : Kernel} {d : Vm} {r : Running} (stack : s.kernel.kalloc = some (kstack, k))
    (copied : copyuvm (s.proc p).toTask (s.sz p) k = some (k', some d))
    (entries : Running.copyMappings (s.proc p).mmaps (s.child np d k') = some (r, false)) :
    ¬ Restored s (((s.embryo np kstack k').store np r).release np) np := by
  intro restored
  have back : (((s.embryo np kstack k').store np r).release np).kernel.free = kstack :: r.free := by
    simp [release, store, embryo, setState, System.back, Kernel.kfree]
  obtain ⟨_, built, complete⟩ := copyuvm_outcome copied
  have fewer := (Running.copyMappings_takes entries).1
  have lengths := restored.free.length_eq
  rw [back, Kernel.kalloc_eq_some stack, Kernel.kfree, List.length_cons, List.length_cons, built.count] at lengths
  have same : (s.child np d k').free = k'.free := rfl
  rw [same] at fewer
  omega

end Procs

open Procs in
/-- A `fork` that fails after `allocproc` leaves nothing behind if and only if it is `copyuvm` that fails, for lack of
pages, and the slot had no mappings left. -/
theorem restored_iff {s s' : Procs} {p np : Fin nproc} (slot : s.unusedSlot = some np) (stack : s.kernel.free ≠ [])
    (failed : s.fork p = some (s', none)) :
    Restored s s' np ↔ (s.proc np).mmaps = [] ∧ s.kernel.free.length < 1 + vmPages (pagesBelow (s.sz p)) := by
  cases allocated : s.kernel.kalloc with
  | none => exact absurd (Kernel.kalloc_eq_none.mp allocated) stack
  | some r =>
    obtain ⟨kstack, k⟩ := r
    rw [fork_eq slot allocated] at failed
    have length : s.kernel.free.length = k.free.length + 1 := by
      rw [Kernel.kalloc_eq_some allocated, Kernel.kfree, List.length_cons]
    split at failed
    · cases failed
    case h_2 k' copied =>
      cases failed
      have few := (copyuvm_fails_iff copied).mp rfl
      rw [restored_of_copyuvm allocated copied]
      exact (and_iff_left (by omega)).symm
    case h_3 k' d copied =>
      have many := mt (copyuvm_fails_iff copied).mpr (Option.some_ne_none d)
      split at failed
      · cases failed
      case h_2 r entries =>
        cases failed
        exact iff_of_false (not_restored_of_entries allocated copied entries) fun both => by omega
      · split at failed <;> cases failed

namespace Procs

/-- The first process, of one page, with a hundred free pages. -/
def first : Procs where
  proc p := ⟨⟨fun _ => none, [], fun r => r = 0, fun v => if v = 0 then some ⟨fun _ => 0, true, 9⟩ else none⟩,
    if p = 0 then .runnable else .unused, none⟩
  kernel := ⟨fun _ => ⟨.none, 0, false, false, 0, 0⟩, fun _ => ⟨[], Nat.zero_le _⟩, List.range' 10 100⟩
  pid _ := 1
  kstack _ := none
  sz _ := 4096
  nextpid := 2
  below _ := by decide

private theorem first_fresh : Fresh first.toSystem := ⟨fun _ _ => rfl, fun _ => rfl, fun _ => ⟨rfl, rfl⟩⟩

end Procs

open Procs in
/-- The process has a shared mapping. -/
theorem forks_alike_shared : ∃ s : Procs, systemMachine.Reachable s.toSystem ∧ (s.proc 0).mmaps =
    [⟨⟨0x60000000, 4096⟩, 6, 0, none, 10⟩] ∧ ForksAlike s 0 1 := by
  have run : (systemMachine.run first.toSystem [(0, .wmap 0 4096 6 (-1))]).map (fun s => decide
      ((s.proc 0).mmaps = [⟨⟨0x60000000, 4096⟩, 6, 0, none, 10⟩] ∧ (s.proc 1).mmaps = [] ∧ s.kernel.free.length = 99 ∧
        ((s.proc 0).page 0).isSome ∧ (∀ fd, (s.proc 0).ofile fd = none) ∧
        { first with toSystem := s }.unusedSlot = some 1)) = some true := by decide +kernel
  obtain ⟨s, run, values⟩ := Option.map_eq_some_iff.mp run
  obtain ⟨mmaps, clean, free, present, closed, slot⟩ := of_decide_eq_true values
  refine ⟨{ first with toSystem := s }, Machine.reachable_of_run systemMachine first_fresh _ run, mmaps, ?_⟩
  refine (forks_alike_iff slot (allocates_of_enough ?_)).1
    ⟨⟨fun v below => ?_, fun me member => ?_, fun fd f open_ => ?_⟩, clean⟩
  · simp only [mmaps, free]
    decide
  · obtain rfl : v = 0 := by
      simp only [first, pagesBelow] at below
      omega
    exact present
  · simp only [mmaps, List.mem_singleton] at member
    subst member
    rintro ⟨⟩
  · rw [closed fd] at open_
    cases open_

namespace Procs

/-- The first process has a private mapping and then a shared one, and forks. -/
theorem first_forks : ∃ s s' : Procs, systemMachine.Reachable s.toSystem ∧ s.unusedSlot = some 1 ∧
    s.fork 0 = some (s', none) ∧ (s.sz 0 = 4096 ∧ s.kernel.free.length = 98 ∧ s'.kernel.free.length = 29) ∧
    (s.proc 0).mmaps = [⟨⟨0x60001000, 4096⟩, 6, 0, none, 11⟩, ⟨⟨0x60000000, 4096⟩, 5, 0, none, 10⟩] ∧
    (s.proc 1).mmaps = [] ∧ (s'.proc 1).mmaps.map (·.shape) = [(⟨0x60001000, 4096⟩, 6, none)] := by
  have run : (systemMachine.run first.toSystem [(0, .wmap 0 4096 5 (-1)), (0, .wmap 0 4096 6 (-1))]).map (fun s => decide
      (s.kernel.free.length = 98 ∧ (s.proc 0).mmaps =
          [⟨⟨0x60001000, 4096⟩, 6, 0, none, 11⟩, ⟨⟨0x60000000, 4096⟩, 5, 0, none, 10⟩] ∧
        (s.proc 1).mmaps = [] ∧ { first with toSystem := s }.unusedSlot = some 1 ∧
        (Procs.fork { first with toSystem := s } 0).map (fun r => decide (r.2 = none ∧ r.1.kernel.free.length = 29 ∧
          (r.1.proc 1).mmaps.map (·.shape) = [(⟨0x60001000, 4096⟩, 6, none)])) = some true)) = some true := by
            decide +kernel
  obtain ⟨s, run, values⟩ := Option.map_eq_some_iff.mp run
  obtain ⟨free, mmaps, clean, slot, forked⟩ := of_decide_eq_true values
  obtain ⟨⟨s', result⟩, done, after⟩ := Option.map_eq_some_iff.mp forked
  obtain ⟨rfl, free', mmaps'⟩ := of_decide_eq_true after
  exact ⟨{ first with toSystem := s }, s', Machine.reachable_of_run systemMachine first_fresh _ run, slot, done,
    ⟨rfl, free, free'⟩, mmaps, clean, mmaps'⟩

end Procs

open Procs in
/-- There are pages enough for a child, the slot is clean, and `fork` fails. -/
theorem fork_fails_private : ∃ s s' : Procs, systemMachine.Reachable s.toSystem ∧ s.unusedSlot = some 1 ∧
    s.Allocates 0 1 ∧ (s.proc 1).mmaps = [] ∧ s.fork 0 = some (s', none) := by
  obtain ⟨s, s', reached, slot, done, ⟨sz, free, _⟩, mmaps, clean, _⟩ := first_forks
  refine ⟨s, s', reached, slot, allocates_of_enough ?_, clean, done⟩
  rw [sz, free, mmaps]
  decide

open Procs in
/-- Such a `fork` leaves a mapping in the slot, and 69 pages that are on no list. -/
theorem fork_leaves_mapping : ∃ s s' : Procs, systemMachine.Reachable s.toSystem ∧ s.unusedSlot = some 1 ∧
    s.fork 0 = some (s', none) ∧ (s.proc 1).mmaps = [] ∧ (s'.proc 1).mmaps ≠ [] ∧
    s'.kernel.free.length + 69 = s.kernel.free.length := by
  obtain ⟨s, s', reached, slot, done, ⟨_, free, free'⟩, _, clean, mmaps'⟩ := first_forks
  refine ⟨s, s', reached, slot, done, clean, fun empty => ?_, by omega⟩
  rw [empty] at mmaps'
  cases mmaps'

open Procs in
/-- With three free pages it is `copyuvm` that fails. -/
theorem restored_few : ∃ s s' : Procs, s.kernel.free = [10, 11, 12] ∧ s.fork 0 = some (s', none) ∧ Restored s s' 1 := by
  have failed : (Procs.fork { first with kernel := { first.kernel with free := [10, 11, 12] } } 0).map (·.2) =
      some none := by decide +kernel
  obtain ⟨⟨s', result⟩, done, rfl⟩ := Option.map_eq_some_iff.mp failed
  exact ⟨_, s', rfl, done, (restored_iff (by decide +kernel) (by decide) done).mpr ⟨rfl, by decide⟩⟩

end Cs537.Wmap
