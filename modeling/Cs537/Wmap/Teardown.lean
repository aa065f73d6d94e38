import Cs537.Wmap.LoadOnly

/-! # Two ways to take mappings down

`exit` writes the pages of its mappings back as `sys_wunmap` does, but at the offset that each file happens
to have. The two run in lockstep, in states that differ in the offsets of files only, as long as every page
that is written begins at the offset of its file.
-/

namespace Cs537.Wmap

open Lib

/-- The same state with other file offsets. -/
def Kernel.withOffs (k : Kernel) (off : Fin nfile → ℕ) : Kernel :=
  { k with file := fun f => { k.file f with off := off f } }

namespace Kernel

variable {k : Kernel} {f : Fin nfile} {off : Fin nfile → ℕ}

private theorem setFile_withOffs (k : Kernel) (off : Fin nfile → ℕ) (f : Fin nfile) (value : File) :
    (k.setFile f value).withOffs off = (k.withOffs off).setFile f { value with off := off f } := by
  simp only [withOffs, setFile, mk.injEq, and_self, and_true]
  funext g
  by_cases here : g = f
  · subst here
    simp only [Function.update_self]
  · simp only [Function.update_of_ne here]

/-- The offset of a file is stored. -/
private theorem withOffs_setOff (k : Kernel) (off : Fin nfile → ℕ) (f : Fin nfile) (i : ℕ) :
    (k.withOffs off).setFile f { (k.withOffs off).file f with off := i } = k.withOffs (Function.update off f i) := by
  simp only [withOffs, setFile, mk.injEq, and_self, and_true]
  funext g
  by_cases here : g = f
  · subst here
    simp only [Function.update_self]
  · simp only [Function.update_of_ne here]

private theorem fileclose_withOffs (k : Kernel) (off : Fin nfile → ℕ) (f : Fin nfile) :
    (k.withOffs off).fileclose f = (k.fileclose f).map (·.withOffs off) := by
  rw [fileclose, fileclose]
  have ref : ((k.withOffs off).file f).ref = (k.file f).ref := rfl
  rw [ref]
  split_ifs
  · rfl
  · rw [Option.map_some, setFile_withOffs]
    rfl
  · rw [Option.map_some, setFile_withOffs]
    rfl

/-- `filewrite` at the same offset of the same file. -/
private theorem filewrite_withOffs {buffer : Option (List UInt8)}
    (same : (k.file f).writable = true → (k.file f).type = .inode → off f = (k.file f).off) :
    ∃ off', (k.withOffs off).filewrite f buffer = (k.filewrite f buffer).map (·.withOffs off') := by
  have writable : ((k.withOffs off).file f).writable = (k.file f).writable := rfl
  have type : ((k.withOffs off).file f).type = (k.file f).type := rfl
  unfold filewrite
  rw [writable, type]
  split_ifs with locked
  · exact ⟨off, rfl⟩
  · cases kind : (k.file f).type with
    | none => exact ⟨off, rfl⟩
    | pipe => exact ⟨off, rfl⟩
    | inode =>
      cases buffer with
      | none => exact ⟨off, rfl⟩
      | some bytes =>
        have here := same (by simpa using locked) kind
        refine ⟨Function.update off f (writeLoop (chunks bytes) (k.inode (k.file f).ip) (k.file f).off).2, ?_⟩
        simp only [Option.map_some, withOffs, setFile, Option.some.injEq, mk.injEq, here, and_true]
        funext g
        by_cases there : g = f
        · subst there
          simp only [Function.update_self]
        · simp only [Function.update_of_ne there]

end Kernel

namespace Running

variable {s a b : Running} {me : MmapEntry} {i : ℕ} {rest : List (MmapEntry × ℕ)}

/-- The same state with other file offsets. -/
def withOffs (s : Running) (off : Fin nfile → ℕ) : Running := { s with toKernel := s.toKernel.withOffs off }

/-- `filewrite` changes the file. -/
def Writes (s : Running) (f : Fin nfile) : Prop := (s.file f).writable = true ∧ (s.file f).type = .inode

instance (s : Running) (f : Fin nfile) : Decidable (s.Writes f) := by
  unfold Writes
  infer_instance

/-- The pages that the teardown of mappings comes to, in its order. -/
def visits (s : Running) : List (MmapEntry × ℕ) :=
  s.mmaps.flatMap fun me => (me.offsets.getD []).map fun i => (me, i)

/-- No page is one of `kmap`, every write-back finds the pages of its buffer present, and every page that is written
back begins at the offset of its file, and not behind its end: the first one of a file at the offset the file has, the
next one where the write before it ended. -/
def InStep (s : Running) : List (MmapEntry × ℕ) → (ℕ → Option Page) → (Fin nfile → ℕ) → Prop
  | [], _, _ => True
  | (me, i) :: rest, pages, off =>
      let a := uint32 (me.addr + i)
      let v := a / 4096
      isKernel v = false ∧ match pages v, me.file with
      | none, _ => InStep s rest pages off
      | some _, none => InStep s rest (Function.update pages v none) off
      | some page, some f =>
          (page.writable = true → (s.file f).writable = true → (pages (uint32 (a + 4095) / 4096)).isSome) ∧
          if page.writable = true ∧ s.Writes f then
            off f = i ∧ i ≤ (s.inode (s.file f).ip).bytes.length ∧
              InStep s rest (Function.update pages v none) (Function.update off f (i + room i))
          else InStep s rest (Function.update pages v none) off

/-- A state of `exit` and one of the calls of `sys_wunmap`, with the pages left to visit. -/
structure Lockstep (s : Running) (rest : List (MmapEntry × ℕ)) (a b : Running) : Prop where
  same : ∃ off, b = a.withOffs off
  file : ∀ f, (a.file f).writable = (s.file f).writable ∧ (a.file f).ip = (s.file f).ip ∧
    ((a.file f).type = (s.file f).type ∨ (a.file f).type = .none)
  size : ∀ n, (s.inode n).bytes.length ≤ (a.inode n).bytes.length
  inStep : InStep s rest a.page fun f => (a.file f).off

theorem bytesAt_length {n : ℕ} {addr : ℕ} {bytes : List UInt8} (read : s.bytesAt addr n = some bytes) :
    bytes.length = n := by
  have lengths {g : ℕ → Option UInt8} {l : List ℕ} {out : List UInt8} (done : l.mapM g = some out) :
      out.length = l.length := by
    induction l generalizing out with
    | nil =>
      cases done
      rfl
    | cons x rest ih =>
      rw [List.mapM_cons] at done
      obtain ⟨y, _, tail⟩ := Option.bind_eq_some_iff.mp done
      obtain ⟨ys, mapped, pair⟩ := Option.bind_eq_some_iff.mp tail
      cases pair
      rw [List.length_cons, List.length_cons, ih mapped]
  rw [lengths read, List.length_range]

/-- The write of one page, in states that agree on the offset. -/
private theorem writeBack_withOffs {f : Fin nfile} (addr : ℕ) (off : Fin nfile → ℕ)
    (same : (a.file f).writable = true → (a.file f).type = .inode → (a.file f).off = i) :
    ∃ off', (a.withOffs off).writeBack (some f) (some i) addr = (a.writeBack (some f) none addr).map
    (·.withOffs off') := by
  have self : a.toKernel.setFile f { a.file f with off := (a.file f).off } = a.toKernel := by
    simp only [Kernel.setFile, Function.update_eq_self]
  obtain ⟨off', written⟩ : ∃ off', (a.toKernel.withOffs (Function.update off f i)).filewrite f (a.bytesAt addr 4096) =
      (a.toKernel.filewrite f (a.bytesAt addr 4096)).map (·.withOffs off') :=
    Kernel.filewrite_withOffs fun writable type => by rw [Function.update_self, same writable type]
  refine ⟨off', ?_⟩
  have bytes : (a.withOffs off).bytesAt addr 4096 = a.bytesAt addr 4096 := rfl
  have kernel : (a.withOffs off).toKernel = a.toKernel.withOffs off := rfl
  simp only [writeBack, onKernel, Option.getD_some, Option.getD_none, self, bytes, kernel, Kernel.withOffs_setOff,
    written]
  cases a.toKernel.filewrite f (a.bytesAt addr 4096) with
  | none => rfl
  | some k => rfl

private theorem writeLoop_length_le (pieces : List (List UInt8)) (c : Content) (off : ℕ) :
    c.bytes.length ≤ (writeLoop pieces c off).1.bytes.length := by
  rcases le_or_gt off c.bytes.length with within | beyond
  · rw [(writeLoop_within within).1, length_splice within]
    omega
  · rw [writeLoop_beyond pieces beyond]

theorem Lockstep.writes {f : Fin nfile} (now : Lockstep s rest a b) (dynamic : a.Writes f) : s.Writes f := by
  obtain ⟨writable, _, type⟩ := now.file f
  refine ⟨writable ▸ dynamic.1, ?_⟩
  rcases type with type | type
  · rw [← type, dynamic.2]
  · rw [dynamic.2] at type
    cases type

/-- The write of a page by `exit` moves the offset of the file by as much as gets written. -/
theorem Lockstep.written {f : Fin nfile} {page : Page} {addr : ℕ} {a' : Running}
    (now : Lockstep s ((me, i) :: rest) a b) (file : me.file = some f)
    (present : a.page (uint32 (me.addr + i) / 4096) = some page) (writable : page.writable = true)
    (done : a.writeBack (some f) none addr = some a') :
    a'.toTask = a.toTask ∧ (∀ g, (a'.file g).writable = (s.file g).writable ∧ (a'.file g).ip = (s.file g).ip ∧
        ((a'.file g).type = (s.file g).type ∨ (a'.file g).type = .none)) ∧
      (∀ n, (s.inode n).bytes.length ≤ (a'.inode n).bytes.length) ∧
      InStep s rest (Function.update a.page (uint32 (me.addr + i) / 4096) none) fun g => (a'.file g).off := by
  obtain ⟨_, inStep⟩ := now.inStep
  simp only [file, present, writable, true_and] at inStep
  obtain ⟨_, inStep⟩ := inStep
  have self : a.toKernel.setFile f { a.file f with off := (a.file f).off } = a.toKernel := by
    simp only [Kernel.setFile, Function.update_eq_self]
  simp only [writeBack, onKernel, Option.getD_none, self] at done
  split at done
  · cases done
  case h_2 k wrote =>
    cases done
    rcases Kernel.filewrite_spec wrote with ⟨refused, rfl⟩ | ⟨bytes, flag, type, read, rfl⟩
    · have other : ¬ s.Writes f := by
        rintro ⟨flag, type⟩
        obtain ⟨flag', _, type'⟩ := now.file f
        rcases refused with locked | pipe
        · rw [flag', flag] at locked
          cases locked
        · rw [pipe, type] at type'
          rcases type' with wrong | wrong <;> cases wrong
      rw [if_neg other] at inStep
      exact ⟨rfl, now.file, now.size, inStep⟩
    · have writes := now.writes ⟨flag, type⟩
      rw [if_pos writes] at inStep
      obtain ⟨here, within, inStep⟩ := inStep
      obtain ⟨_, ip, _⟩ := now.file f
      have moved : (writeLoop (chunks bytes) (a.inode (a.file f).ip) (a.file f).off).2 = i + room i := by
        rw [here, (writeLoop_page (bytesAt_length read) ?_).2]
        have := now.size (s.file f).ip
        rw [ip]
        omega
      refine ⟨rfl, fun g => ?_, fun n => ?_, ?_⟩
      · by_cases other : g = f
        · subst other
          simpa only [Kernel.setFile, Function.update_self] using now.file g
        · simpa only [Kernel.setFile, Function.update_of_ne other] using now.file g
      · by_cases other : n = (a.file f).ip
        · subst other
          simp only [Function.update_self]
          exact (now.size _).trans (writeLoop_length_le ..)
        · simpa only [Function.update_of_ne other] using now.size n
      · convert inStep using 1
        funext g
        by_cases other : g = f
        · subst other
          simp only [Kernel.setFile, Function.update_self, moved]
        · simp only [Kernel.setFile, Function.update_of_ne other]

private theorem unmapSharedPage_lockstep (now : Lockstep s ((me, i) :: rest) a b) (backed : me.file.isSome) :
    Option.Rel (Lockstep s rest) (unmapSharedPage false me a i) (unmapSharedPage true me b i) := by
  obtain ⟨off, rfl⟩ := now.same
  obtain ⟨f, file⟩ := Option.isSome_iff_exists.mp backed
  obtain ⟨_, inStep⟩ := now.inStep
  simp only [file] at inStep
  simp only [unmapSharedPage]
  split
  · exact .none
  · have pages : (a.withOffs off).page = a.page := rfl
    rw [pages]
    cases present : a.page (uint32 (me.addr + i) / 4096) with
    | none =>
      simp only [present] at inStep
      exact .some ⟨⟨off, rfl⟩, now.file, now.size, inStep⟩
    | some page =>
      simp only [present] at inStep
      obtain ⟨_, inStep⟩ := inStep
      by_cases writable : page.writable = true
      · obtain ⟨off', written⟩ := writeBack_withOffs (a := a) (f := f) (i := i) (uint32 (me.addr + i)) off
          fun flag type => by
            rw [if_pos ⟨writable, now.writes ⟨flag, type⟩⟩] at inStep
            exact inStep.1
        simp only [writable, if_true, Bool.false_eq_true, if_false, file, written]
        cases wrote : a.writeBack (some f) none (uint32 (me.addr + i)) with
        | none => exact .none
        | some a' =>
          obtain ⟨task, files, sizes, inStep⟩ := now.written file present writable wrote
          refine .some ⟨⟨off', rfl⟩, files, sizes, ?_⟩
          have same : a'.page = a.page := congrArg Task.page task
          simp only [kfree, setPage, same]
          exact inStep
      · simp only [writable, false_and, if_false, Bool.false_eq_true] at inStep ⊢
        exact .some ⟨⟨off, rfl⟩, now.file, now.size, inStep⟩

private theorem closeFile_lockstep (now : Lockstep s rest a b) (file : Option (Fin nfile)) :
    Option.Rel (Lockstep s rest) (a.closeFile file) (b.closeFile file) := by
  cases file with
  | none => exact .some now
  | some f =>
    obtain ⟨off, rfl⟩ := now.same
    have kernel : (a.withOffs off).toKernel = a.toKernel.withOffs off := rfl
    simp only [closeFile, onKernel, kernel, Kernel.fileclose_withOffs]
    cases closed : a.toKernel.fileclose f with
    | none => exact .none
    | some k =>
      obtain ⟨_, rfl⟩ := Kernel.fileclose_spec closed
      refine .some ⟨⟨off, rfl⟩, fun g => ?_, now.size, ?_⟩
      · obtain ⟨writable, ip, type⟩ := now.file g
        by_cases here : g = f
        · subst here
          simp only [Kernel.setFile, Function.update_self]
          refine ⟨writable, ip, ?_⟩
          split_ifs
          · exact .inr rfl
          · exact type
        · simpa only [Kernel.setFile, Function.update_of_ne here] using now.file g
      · convert now.inStep using 1
        funext g
        by_cases here : g = f
        · subst here
          simp only [Kernel.setFile, Function.update_self]
        · simp only [Kernel.setFile, Function.update_of_ne here]

private theorem forPages_lockstep (backed : me.file.isSome)
    (now : Lockstep s (((me.offsets.getD []).map fun i => (me, i)) ++ rest) a b) :
    Option.Rel (Lockstep s rest) (a.forPages me.toRegion (unmapSharedPage false me))
      (b.forPages me.toRegion (unmapSharedPage true me)) := by
  rw [forPages, forPages]
  cases loop : me.offsets with
  | none => exact .none
  | some offsets =>
    rw [loop, Option.getD_some] at now
    have round (i : ℕ) (later : List ℕ) (a b : Running) (now : Lockstep s ((i :: later).map (me, ·) ++ rest) a b) :
        Option.Rel (Lockstep s (later.map (me, ·) ++ rest)) (unmapSharedPage false me a i)
          (unmapSharedPage true me b i) := unmapSharedPage_lockstep now backed
    exact foldlM_rel (fun later => Lockstep s (later.map (me, ·) ++ rest)) round now

/-- Every mapping is shared and has a file. -/
def AllShared (mmaps : List MmapEntry) : Prop :=
  ∀ me ∈ mmaps, isPrivate me.flags = false ∧ isShared me.flags = true ∧ me.file.isSome

/-- `sys_wunmap` of every mapping, in the order of the list. -/
def unmapEach (s : Running) : Option Running :=
  (s.mmaps.map (·.addr)).foldlM (fun s addr => (s.wunmap addr).map (·.1)) s

private theorem exitMappings_lockstep {mmaps : List MmapEntry} (shared : AllShared mmaps) (entries : a.mmaps = mmaps)
    (now : Lockstep s (mmaps.flatMap fun me => (me.offsets.getD []).map fun i => (me, i)) a b) :
    Option.Rel (fun a b => a.mmaps = [] ∧ Lockstep s [] a b) (exitMappings mmaps a)
      ((mmaps.map (·.addr)).foldlM (fun s addr => (s.wunmap addr).map (·.1)) b) := by
  induction mmaps generalizing a b with
  | nil =>
    rw [exitMappings]
    refine .some ⟨rfl, ?_⟩
    rw [← entries]
    exact now
  | cons me rest ih =>
    obtain ⟨⟨notPrivate, isShared, backed⟩, shared⟩ := List.forall_mem_cons.mp shared
    obtain ⟨off, same⟩ := now.same
    have found : b.mmaps.find? (·.addr = me.addr) = some me := by
      rw [same, withOffs, entries]
      exact List.find?_cons_of_pos (by simp)
    rw [List.flatMap_cons] at now
    rw [exitMappings, List.map_cons, List.foldlM_cons, wunmap, found]
    simp only [unmapPages, notPrivate, isShared, Bool.false_eq_true, if_false, if_true, false_or, Bool.true_eq_false]
    rcases rel_cases (forPages_lockstep backed now) with ⟨left, right⟩ | ⟨a₁, b₁, left, right, now₁⟩
    · rw [left, right]
      exact .none
    · rw [left, right]
      simp only
      rcases rel_cases (closeFile_lockstep now₁ me.file) with ⟨closed, closed'⟩ | ⟨a₂, b₂, closed, closed', now₂⟩
      · rw [closed, closed']
        exact .none
      · rw [closed, closed']
        have entries₂ : a₂.mmaps = me :: rest := by
          rw [congrArg Task.mmaps (closeFile_task closed), forPages_mmaps (fun _ _ _ => unmapSharedPage_mmaps) left,
            entries]
        obtain ⟨off, rfl⟩ := now₂.same
        have erased : (a₂.withOffs off).mmaps.eraseP (·.addr = me.addr) = rest := by
          rw [withOffs, entries₂]
          exact List.eraseP_cons_of_pos (by simp)
        simp only [erased]
        exact ih shared rfl ⟨⟨off, rfl⟩, now₂.file, now₂.size, now₂.inStep⟩

private theorem closeFd_lockstep (fd : Fin nofile) (now : Lockstep s rest a b) :
    Option.Rel (Lockstep s rest) (a.closeFd fd) (b.closeFd fd) := by
  obtain ⟨off, rfl⟩ := now.same
  have slots : (a.withOffs off).ofile = a.ofile := rfl
  rw [closeFd, closeFd, slots]
  cases held : a.ofile fd with
  | none => exact .some now
  | some f =>
    have closes := closeFile_lockstep now (some f)
    simp only [closeFile] at closes
    rcases rel_cases closes with ⟨left, right⟩ | ⟨a₁, b₁, left, right, now₁⟩
    · simp only [left, right]
      exact .none
    · simp only [left, right]
      obtain ⟨off₁, rfl⟩ := now₁.same
      exact .some ⟨⟨off₁, rfl⟩, now₁.file, now₁.size, now₁.inStep⟩

end Running

open Running in
/-- When every page that is written back begins at the offset of its file, and its buffer lies in pages that are there,
`exit` leaves the files as `sys_wunmap` of every mapping and then `exit` do. -/
theorem exit_agrees {s : Running} (shared : AllShared s.mmaps)
    (inStep : s.InStep s.visits s.page fun f => (s.file f).off) :
    s.exit.map (·.inode) = (s.unmapEach.bind exit).map (·.inode) := by
  have start : Lockstep s s.visits s s :=
    ⟨⟨fun f => (s.file f).off, rfl⟩, fun f => ⟨rfl, rfl, .inl rfl⟩, fun n => le_rfl, inStep⟩
  rw [exit, unmapEach]
  rcases rel_cases (exitMappings_lockstep shared rfl start) with ⟨left, right⟩ | ⟨a, b, left, right, empty, now⟩
  · rw [left, right]
    rfl
  · rw [left, right, Option.bind_some, exit]
    obtain ⟨off, rfl⟩ := now.same
    have nothing : exitMappings (a.withOffs off).mmaps (a.withOffs off) = some (a.withOffs off) := by
      have same : { a.withOffs off with mmaps := [] } = a.withOffs off := by
        rw [← empty]
        rfl
      rw [show (a.withOffs off).mmaps = [] from empty, exitMappings, same]
    have closes : Option.Rel (Lockstep s []) ((List.finRange nofile).foldlM closeFd a)
        ((List.finRange nofile).foldlM closeFd (a.withOffs off)) :=
      foldlM_rel (fun _ => Lockstep s []) (fun fd _ _ _ => closeFd_lockstep fd) now
    rw [nothing]
    simp only
    rcases rel_cases closes with ⟨left, right⟩ | ⟨a', b', left, right, now'⟩
    · rw [left, right]
    · rw [left, right]
      obtain ⟨off', rfl⟩ := now'.same
      rfl

/-- A process with an empty file mapped, after a fault on the first page and stores of nines to all of it. -/
def emptyFileMapped : Running where
  ofile fd := if fd = 0 then some 0 else none
  mmaps := [⟨⟨0x60000000, 4096⟩, 2, 1, some 0, 1⟩]
  tables w := w = 0x60000 / 1024
  page v := if v = 0x60000 then some ⟨fun _ => 9, true, 2⟩ else none
  file f := if f = 0 then ⟨.inode, 2, true, true, 0, 0⟩ else ⟨.none, 0, false, false, 0, 0⟩
  inode _ := ⟨[], Nat.zero_le _⟩
  free := [4]

theorem exit_agrees_emptyFile :
    emptyFileMapped.exit.map (·.inode) = (emptyFileMapped.unmapEach.bind Running.exit).map (·.inode) := by
  have visits : emptyFileMapped.visits = [(⟨⟨0x60000000, 4096⟩, 2, 1, some 0, 1⟩, 0)] := by decide +kernel
  have number : uint32 ((0x60000000 : ℕ) + (0 : ℕ)) / 4096 = 0x60000 := by decide +kernel
  have last : uint32 ((uint32 ((0x60000000 : ℕ) + (0 : ℕ)) : ℕ) + 4095) / 4096 = 0x60000 := by decide +kernel
  have user : isKernel 0x60000 = false := by decide
  refine exit_agrees (by unfold Running.AllShared; decide) ?_
  rw [visits]
  simp only [Running.InStep, number, last, user]
  simp [emptyFileMapped]

/-- A file of one byte: `exit` leaves the first byte as it was and writes the page behind it. -/
theorem exit_differs : ∃ s₁ s : Running, (openedFile 1 (by decide)).wmap 0 4096 2 0 = some (s₁, some 0x60000000) ∧
    s₁.store 0x60000000 9 (fun _ _ => 0) = some s ∧ Running.AllShared s.mmaps ∧
    s.exit.map (·.inode) ≠ (s.unmapEach.bind Running.exit).map (·.inode) := by
  have run : ((openedFile 1 (by decide)).wmap 0 4096 2 0).any (fun r => r.2 = some 0x60000000 ∧
      (r.1.store 0x60000000 9 fun _ _ => 0).any fun s =>
        (∀ me ∈ s.mmaps, isPrivate me.flags = false ∧ isShared me.flags = true ∧ me.file.isSome) ∧
          s.exit.map (fun t => (t.inode 0).bytes.head?) = some (some 7) ∧
          (s.unmapEach.bind Running.exit).map (fun t => (t.inode 0).bytes.head?) = some (some 9)) = true := by
    decide +kernel
  simp only [Option.any_eq_true, decide_eq_true_eq, Prod.exists] at run
  obtain ⟨s₁, base, mapped, rfl, s, stored, shared, left, right⟩ := run
  refine ⟨s₁, s, mapped, stored, shared, fun same => ?_⟩
  have first := congrArg (Option.map fun inode : ℕ → Content => (inode 0).bytes.head?) same
  rw [Option.map_map, Option.map_map] at first
  have wrong := left.symm.trans (first.trans right)
  cases wrong

end Cs537.Wmap
