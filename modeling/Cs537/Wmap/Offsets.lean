import Cs537.Wmap.Marking

/-! # The offset of a mapped file

A mapping shares the `struct file` of its descriptor. A fault sets the offset before it reads the page, and
`sys_wunmap` sets it before it writes one back, so a run that only goes through the mapping leaves the offset where
the last of these has ended.
-/

namespace Cs537.Wmap

open Lib

/-- Where in the file the handler looks for a page. -/
def Region.offsetOf (r : Region) (v : ℕ) : ℕ := uint32 ((4096 * v : ℕ) - (r.addr : ℤ))

/-- The length of a file after pages have been written back at these offsets. -/
def lengthAfter (length : ℕ) (offsets : List ℕ) : ℕ :=
  offsets.foldl (fun length i => if i ≤ length then max length (i + room i) else length) length

private theorem lengthAfter_snoc (length : ℕ) (offsets : List ℕ) (i : ℕ) : lengthAfter length (offsets ++ [i]) =
    if i ≤ lengthAfter length offsets then max (lengthAfter length offsets) (i + room i)
    else lengthAfter length offsets := by
  rw [lengthAfter, List.foldl_append]
  rfl

/-- No page is met in two rounds. -/
private theorem Region.nodup_pages (r : Region) : (r.rounds.map r.pageAt).Nodup := by
  refine List.Nodup.map_on ?_ ?_
  · intro i round j round' same
    obtain ⟨below, multiple⟩ := Region.mem_rounds.mp round
    obtain ⟨below', multiple'⟩ := Region.mem_rounds.mp round'
    simp only [pageAt, uint32] at below below' same
    omega
  · exact List.nodup_range.map fun i j same => Nat.eq_of_mul_eq_mul_left (by decide) same

namespace Running

variable {s s' t t' : Running} {me : MmapEntry} {r : Region} {f : Fin nfile} {a flags : ℕ} {pages : List ℕ}
  {input : ℕ → ℕ → UInt8}

/-- The length of the file behind a `struct file`. -/
def fileLength (s : Running) (f : Fin nfile) : ℕ := (s.inode (s.file f).ip).bytes.length

/-- An access through a mapping: a load, or a store of a byte. -/
def use (input : ℕ → ℕ → UInt8) (s : Running) (u : ℕ × Option UInt8) : Option Running :=
  match u.2 with
  | none => (s.load u.1 input).map (·.1)
  | some byte => s.store u.1 byte input

/-- The page is there and can be written. -/
def dirty (s : Running) (v : ℕ) : Bool := (s.page v).any (·.writable)

/-- What a file mapping and its file are after accesses that have brought these pages, the last one first. -/
structure Used (s : Running) (r : Region) (flags : ℕ) (f : Fin nfile) (pages : List ℕ) (t : Running) : Prop where
  head : ∃ me rest, t.mmaps = me :: rest ∧ me.toRegion = r ∧ me.flags = flags ∧ me.file = some f
  inode : t.inode = s.inode
  regular : (t.file f).type = .inode
  same : (t.file f).ip = (s.file f).ip ∧ (t.file f).writable = (s.file f).writable
  off : (t.file f).off = match pages with
    | [] => (s.file f).off
    | v :: _ => min (r.offsetOf v + 4096) (s.fileLength f)
  present : ∀ v, (t.page v).isSome ↔ (s.page v).isSome ∨ v ∈ pages
  dirty : isShared flags → ∀ v, t.dirty v ↔ s.dirty v ∨ v ∈ pages

private theorem offsetOf_fault (r : Region) (a : ℕ) : uint32 ((a : ℤ) - r.addr - (a % 4096 : ℕ)) = r.offsetOf (a / 4096) := by
  rw [Region.offsetOf]
  congr 1
  omega

/-- A page of a regular file is read at its offset, and the offset moves to its end or to the end of the file. -/
private theorem fill_regular {from_ data : ℕ → UInt8} (done : s.fill me a from_ = some (s', data)) (file : me.file = some f)
    (backed : isAnonymous me.flags = false) (regular : (s.file f).type = .inode) :
    s'.toTask = s.toTask ∧ s'.inode = s.inode ∧
      s'.file f = { s.file f with off := min (me.offsetOf (a / 4096) + 4096) (s.fileLength f) } := by
  refine ⟨(fill_task done).1, ?_⟩
  simp only [fill, file, backed, Bool.false_eq_true, if_false, offsetOf_fault, Kernel.fileread, Kernel.setFile,
    Function.update_self, regular, Content.readi] at done
  split at done
  · cases done
  case h_2 k bytes read =>
    cases done
    split at read
    · cases read
    · split at read
      · cases read
      case h_2 count content taken =>
        cases read
        split at taken
        · cases taken
        case isFalse within =>
          cases taken
          refine ⟨rfl, ?_⟩
          have moved : me.offsetOf (a / 4096) + min 4096 ((s.inode (s.file f).ip).bytes.length - me.offsetOf (a / 4096)) =
              min (me.offsetOf (a / 4096) + 4096) (s.fileLength f) := by
            rw [fileLength]
            omega
          simp only [Function.update_self, moved, regular]

/-- A fault in a mapping of a regular file. -/
theorem Used.fault (used : Used s r flags f pages t) (backed : isAnonymous flags = false) (inside : r.contains a)
    {from_ : ℕ → UInt8} (done : t.fault a from_ = some t') : Used s r flags f (a / 4096 :: pages) t' := by
  obtain ⟨q, frame, data, s₁, s₂, s₃, found, allocated, filled, walked, _, _, rfl⟩ := fault_cases done
  obtain ⟨me, rest, list, region, kind, file⟩ := used.head
  obtain ⟨file₁, inode₁⟩ := kalloc_files allocated
  obtain rfl : q = me := by
    rw [list, List.find?_cons_of_pos (by rw [region]; exact inside)] at found
    exact (Option.some.inj found).symm
  have regular : (s₁.file f).type = .inode := by
    rw [file₁]
    exact used.regular
  obtain ⟨task₂, inode₂, file₂⟩ := fill_regular filled file (kind ▸ backed) regular
  obtain ⟨file₃, inode₃⟩ := walkAlloc_files walked
  obtain ⟨mmaps₃, page₃⟩ := walkAlloc_page walked
  have mmaps : s₃.mmaps = q :: rest := by
    rw [mmaps₃, congrArg Task.mmaps task₂, congrArg Task.mmaps (kalloc_task allocated), list]
  have page : s₃.page = t.page := by
    rw [page₃, congrArg Task.page task₂, congrArg Task.page (kalloc_task allocated)]
  have length : s₁.fileLength f = s.fileLength f := by
    rw [fileLength, file₁, inode₁, used.inode, used.same.1, fileLength]
  rw [← file₃, file₁, length, region] at file₂
  refine ⟨⟨{ q with nLoadedPages := q.nLoadedPages + 1 }, rest, ?_, region, kind, file⟩, ?_, ?_, ?_, ?_, fun v => ?_,
    fun shared v => ?_⟩
  · have first : q.toRegion.contains a = true := by
      rw [region]
      exact inside
    simp only [countPage, setPage, mmaps, List.findIdx_cons, first, cond_true]
    rfl
  · exact ((inode₃.trans inode₂).trans inode₁).trans used.inode
  · exact (congrArg File.type file₂).trans used.regular
  · exact ⟨(congrArg File.ip file₂).trans used.same.1, (congrArg File.writable file₂).trans used.same.2⟩
  · exact congrArg File.off file₂
  · simp only [countPage, setPage, page, List.mem_cons]
    by_cases here : v = a / 4096
    · simp [here]
    · rw [Function.update_of_ne here, used.present]
      simp [here]
  · simp only [Running.dirty, countPage, setPage, page, List.mem_cons]
    by_cases here : v = a / 4096
    · simp [here]
    · rw [Function.update_of_ne here]
      have others := used.dirty shared v
      rw [Running.dirty, Running.dirty] at others
      rw [others]
      simp [here]

/-- A store to a page that is there. -/
theorem Used.poke (used : Used s r flags f pages t) {v : ℕ} {page page' : Page} (there : t.page v = some page)
    (writable : page'.writable = page.writable) : Used s r flags f pages (t.setPage v (some page')) := by
  refine ⟨used.head, used.inode, used.regular, used.same, used.off, fun w => ?_, fun shared w => ?_⟩
  · rw [← used.present]
    by_cases here : w = v
    · simp [setPage, here, there]
    · simp [setPage, here]
  · rw [← used.dirty shared]
    by_cases here : w = v
    · simp [Running.dirty, setPage, here, there, writable]
    · simp [Running.dirty, setPage, here]

/-- The pages that have been brought after one more access. -/
def bring (s : Running) (pages : List ℕ) (a : ℕ) : List ℕ :=
  if (s.page (a / 4096)).isSome ∨ a / 4096 ∈ pages then pages else a / 4096 :: pages

theorem Used.access (used : Used s r flags f pages t) (backed : isAnonymous flags = false) (inside : r.contains a)
    {from_ : ℕ → UInt8} (access : Access t a from_ t') : Used s r flags f (s.bring pages a) t' := by
  have there := used.present (a / 4096)
  cases access with
  | present page present =>
    rw [present] at there
    rw [bring, if_pos (there.mp rfl)]
    exact used
  | fault _ absent handled =>
    rw [absent] at there
    rw [bring, if_neg fun brought => Bool.false_ne_true (there.mpr brought)]
    exact used.fault backed inside handled

theorem Used.use (used : Used s r flags f pages t) (backed : isAnonymous flags = false) {u : ℕ × Option UInt8}
    (inside : r.contains u.1) (done : t.use input u = some t') : Used s r flags f (s.bring pages u.1) t' := by
  rw [Running.use] at done
  split at done
  · obtain ⟨⟨w, byte⟩, loaded, rfl⟩ := Option.map_eq_some_iff.mp done
    exact used.access backed inside (load_access loaded).1
  · obtain ⟨w, page, access, _, there, rfl⟩ := store_access done
    exact (used.access backed inside access).poke there rfl

/-- A run of accesses through the mapping. -/
theorem Used.uses (used : Used s r flags f pages t) (backed : isAnonymous flags = false) {us : List (ℕ × Option UInt8)}
    (inside : ∀ u ∈ us, r.contains u.1) (done : us.foldlM (Running.use input) t = some t') :
    Used s r flags f (us.foldl (fun pages u => s.bring pages u.1) pages) t' := by
  induction us generalizing pages t with
  | nil =>
    cases done
    exact used
  | cons u rest ih =>
    obtain ⟨first, later⟩ := List.forall_mem_cons.mp inside
    rw [List.foldlM_cons] at done
    obtain ⟨w, step, tail⟩ := Option.bind_eq_some_iff.mp done
    exact ih (used.use backed first step) later tail

section Unmapping

variable {i : ℕ} {l : List ℕ}

/-- Where writing a page back leaves the offset of the file. -/
def writeEnd (writable : Bool) (length i : ℕ) : ℕ := if writable ∧ i ≤ length then i + room i else i

/-- A page of a regular file is written back from its offset on. -/
private theorem writeBack_regular {addr : ℕ} (regular : (s.file f).type = .inode)
    (done : s.writeBack (some f) (some i) addr = some s') :
    s'.toTask = s.toTask ∧ s'.file f = { s.file f with off := writeEnd (s.file f).writable (s.fileLength f) i } ∧
      ((s.file f).writable = true → s'.fileLength f = lengthAfter (s.fileLength f) [i]) := by
  simp only [writeBack] at done
  refine ⟨onKernel_task done, ?_⟩
  rw [onKernel] at done
  split at done
  · cases done
  case h_2 k written =>
    cases done
    rcases Kernel.filewrite_spec written with ⟨locked, rfl⟩ | ⟨bytes, writable, _, read, rfl⟩
    · have locked : (s.file f).writable = false := by
        simpa [Kernel.setFile, regular] using locked
      simp [Kernel.setFile, writeEnd, locked]
    · have writable : (s.file f).writable = true := by
        simpa [Kernel.setFile] using writable
      have page := bytesAt_length read
      simp only [Kernel.setFile, Function.update_self, Option.getD_some, fileLength, lengthAfter, List.foldl_cons,
        List.foldl_nil,
        writeEnd, writable, true_and]
      by_cases within : i ≤ (s.inode (s.file f).ip).bytes.length
      · obtain ⟨content, moved⟩ := writeLoop_page page within
        have length : (bytes.take (room i)).length = room i := by
          have le := room_le i
          rw [List.length_take]
          omega
        rw [if_pos within, if_pos within, moved, content, length_splice within, length]
        exact ⟨rfl, fun _ => rfl⟩
      · rw [if_neg within, if_neg within, writeLoop_beyond _ (by omega)]
        exact ⟨rfl, fun _ => rfl⟩

/-- One round of the shared branch: only a page that is there and can be written moves the offset. -/
private theorem unmapSharedPage_regular (file : me.file = some f) (regular : (s.file f).type = .inode)
    (done : unmapSharedPage true me s i = some s') :
    (s.dirty (me.pageAt i) = false ∧ s'.toKernel.file = s.file ∧ s'.inode = s.inode) ∨
      (s.dirty (me.pageAt i) = true ∧
        s'.file f = { s.file f with off := writeEnd (s.file f).writable (s.fileLength f) i } ∧
        ((s.file f).writable = true → s'.fileLength f = lengthAfter (s.fileLength f) [i])) := by
  simp only [unmapSharedPage] at done
  split at done
  · cases done
  · rw [dirty, Region.pageAt]
    split at done
    case h_1 absent =>
      cases done
      rw [absent]
      exact .inl ⟨rfl, rfl, rfl⟩
    case h_2 page present =>
      rw [present, Option.any_some]
      split at done
      · cases done
      case h_2 t written =>
        cases done
        cases writable : page.writable with
        | false =>
          rw [writable] at written
          cases written
          exact .inl ⟨rfl, rfl, rfl⟩
        | true =>
          rw [writable, file] at written
          obtain ⟨_, moved, length⟩ := writeBack_regular regular written
          exact .inr ⟨rfl, moved, length⟩

/-- Where the rounds over these pages leave the offset: the last one of them decides. -/
def offsetAfter (s : Running) (f : Fin nfile) (offsets : List ℕ) : ℕ :=
  match offsets.getLast? with
  | none => (s.file f).off
  | some i => writeEnd (s.file f).writable (lengthAfter (s.fileLength f) offsets.dropLast) i

/-- The loop of the shared branch. -/
private theorem unmapShared_regular (file : me.file = some f) (regular : (s.file f).type = .inode)
    (distinct : (l.map me.pageAt).Nodup) (done : l.foldlM (unmapSharedPage true me) s = some s') :
    s'.file f = { s.file f with off := s.offsetAfter f (l.filter fun i => s.dirty (me.pageAt i)) } ∧
      ((s.file f).writable = true →
        s'.fileLength f = lengthAfter (s.fileLength f) (l.filter fun i => s.dirty (me.pageAt i))) := by
  induction l using List.reverseRecOn generalizing s' with
  | nil =>
    cases done
    exact ⟨rfl, fun _ => rfl⟩
  | append_singleton l i ih =>
    rw [List.foldlM_append] at done
    obtain ⟨t, front, last⟩ := Option.bind_eq_some_iff.mp done
    rw [List.foldlM_cons] at last
    obtain ⟨u, round, rest⟩ := Option.bind_eq_some_iff.mp last
    cases rest
    rw [List.map_append, List.nodup_append] at distinct
    obtain ⟨moved, length⟩ := ih distinct.1 front
    have page : t.page (me.pageAt i) = s.page (me.pageAt i) := by
      have clears (v : Running) (j : ℕ) (v' : Running) (step : unmapSharedPage true me v j = some v') :
          v'.page = Function.update v.page (me.pageAt j) none := (unmapSharedPage_file file step).1
      rw [foldlM_clears clears front, if_neg]
      rintro ⟨j, member, same⟩
      exact distinct.2.2 _ (List.mem_map_of_mem member) _ (List.mem_singleton_self _) same
    have dirty : t.dirty (me.pageAt i) = s.dirty (me.pageAt i) := by
      rw [Running.dirty, page, Running.dirty]
    have regular' : (t.file f).type = .inode := by
      rw [moved]
      exact regular
    have writable : (t.file f).writable = (s.file f).writable := by rw [moved]
    rw [List.filter_append]
    rcases unmapSharedPage_regular file regular' round with ⟨clean, files, inodes⟩ | ⟨written, moved', length'⟩
    · rw [dirty] at clean
      rw [List.filter_cons_of_neg (by simp [clean]), List.filter_nil, List.append_nil, fileLength, files, inodes]
      exact ⟨moved, length⟩
    · rw [dirty] at written
      rw [List.filter_cons_of_pos (by simp [written]), List.filter_nil]
      rw [writable] at moved' length'
      refine ⟨?_, fun open_ => ?_⟩
      · have last : writeEnd (s.file f).writable (t.fileLength f) i =
            s.offsetAfter f (l.filter (fun i => s.dirty (me.pageAt i)) ++ [i]) := by
          simp only [offsetAfter, List.getLast?_concat, List.dropLast_concat]
          cases open_ : (s.file f).writable with
          | false => rfl
          | true => rw [length open_]
        rw [moved', last, moved]
      · rw [length' open_, length open_, lengthAfter_snoc]
        rfl

end Unmapping

section Mapping

private theorem poke_present {byte : UInt8} (done : s.poke a byte = some s') :
    s'.toKernel = s.toKernel ∧ s'.mmaps = s.mmaps ∧ ∀ v, (s'.page v).isSome = (s.page v).isSome := by
  rw [poke] at done
  split at done
  · cases done
  case h_2 page present =>
    split at done
    · cases done
      refine ⟨rfl, rfl, fun v => ?_⟩
      by_cases here : v = a / 4096
      · simp [setPage, here, present]
      · simp [setPage, here]
    · cases done

/-- Marking takes no page away and does nothing to a file. -/
private theorem protectPage_present {i : ℕ} (done : protectPage me s i = some s') :
    s'.toKernel = s.toKernel ∧ s'.mmaps = s.mmaps ∧ ∀ v, (s'.page v).isSome = (s.page v).isSome := by
  simp only [protectPage] at done
  split at done
  · cases done
  · split at done
    · split at done
      · cases done
      · exact poke_present done
    · split at done
      · cases done
        exact ⟨rfl, rfl, fun _ => rfl⟩
      case h_2 page present =>
        cases done
        refine ⟨rfl, rfl, fun v => ?_⟩
        by_cases here : v = uint32 (me.addr + i) / 4096
        · simp [setPage, here, present]
        · simp [setPage, here]

private theorem mapFile_backed {fd : ℤ} (opened : s.mapFile flags fd = some (some f)) : isAnonymous flags = false := by
  rw [mapFile] at opened
  split at opened
  · cases opened
  case isFalse backed => simpa using backed

/-- A mapping that has just been made. -/
theorem Used.start {addr : ℕ} {length fd : ℤ} {base : ℕ} (opened : s.mapFile flags fd = some (some f))
    (regular : (s.file f).type = .inode) (done : s.wmap addr length flags fd = some (s', some base)) :
    Used s ⟨base, length⟩ flags f [] s' ∧ isPrivate flags ≠ isShared flags := by
  rcases wmap_spec done with ⟨absurd, _⟩ | ⟨file, frame, base', s₁, s₂, kind, mapped, _, dup, allocated, added, result⟩
  · cases absurd
  · cases result
    rw [opened] at mapped
    cases mapped
    refine ⟨?_, kind⟩
    obtain ⟨_, rfl⟩ := dupFile_some dup
    obtain ⟨file₂, inode₂⟩ := kalloc_files allocated
    have page₂ := congrArg Task.page (kalloc_task allocated)
    simp only [addMapping] at added
    split at added
    · cases added
    case h_2 u marked =>
      cases added
      have kept : u.toKernel = s₂.toKernel ∧ (∀ v, (u.page v).isSome = (s₂.page v).isSome) ∧
          (isShared flags = true → u = s₂) := by
        split at marked
        case isTrue isPriv =>
          have rule (v : Running) (i : ℕ) (v' : Running)
              (round : protectPage ⟨⟨base, length⟩, flags, 0, some f, frame⟩ v i = some v')
              (keep : v.toKernel = s₂.toKernel ∧ ∀ w, (v.page w).isSome = (s₂.page w).isSome) :
              v'.toKernel = s₂.toKernel ∧ ∀ w, (v'.page w).isSome = (s₂.page w).isSome := by
            obtain ⟨kernel, _, present⟩ := protectPage_present round
            exact ⟨kernel.trans keep.1, fun w => (present w).trans (keep.2 w)⟩
          obtain ⟨kernel, present⟩ := forPages_preserves rule marked ⟨rfl, fun _ => rfl⟩
          exact ⟨kernel, present, fun shared => absurd (isPriv.trans shared.symm) kind⟩
        case isFalse =>
          cases marked
          exact ⟨rfl, fun _ => rfl, fun _ => rfl⟩
      obtain ⟨kernel, present, same⟩ := kept
      have file : u.file f = { s.file f with ref := (s.file f).ref + 1 } := by
        rw [show u.file = s₂.file from congrArg Kernel.file kernel, file₂]
        exact Function.update_self ..
      obtain ⟨type, ip, writable, off⟩ : (u.file f).type = (s.file f).type ∧ (u.file f).ip = (s.file f).ip ∧
          (u.file f).writable = (s.file f).writable ∧ (u.file f).off = (s.file f).off := by
        rw [file]
        exact ⟨rfl, rfl, rfl, rfl⟩
      refine ⟨⟨_, u.mmaps, rfl, rfl, rfl, rfl⟩, (congrArg Kernel.inode kernel).trans inode₂, type.trans regular,
        ⟨ip, writable⟩, off, fun v => ?_, fun shared v => ?_⟩
      · change (u.page v).isSome ↔ _
        rw [present, page₂]
        simp
      · obtain rfl := same shared
        simp only [Running.dirty, List.not_mem_nil, or_false]
        rw [show u.page = s.page from page₂]

/-- Unmapping leaves the offset where the last page written back ends, or as it is. -/
private theorem wunmap_offset (used : Used s r flags f pages t) (kind : isPrivate flags ≠ isShared flags)
    (done : t.wunmap r.addr = some (s', true)) : (s'.file f).off =
      t.offsetAfter f (r.rounds.filter fun i => isShared flags && t.dirty (r.pageAt i)) := by
  obtain ⟨me, rest, list, region, flags_eq, file⟩ := used.head
  rcases wunmap_spec done with ⟨absurd, _⟩ | ⟨q, u, found, unmapped, rfl, _⟩
  · cases absurd
  · obtain rfl : q = me := by
      rw [list, List.find?_cons_of_pos (by simp [region])] at found
      exact (Option.some.inj found).symm
    change (u.file f).off = _
    simp only [unmapPages, flags_eq] at unmapped
    cases shared : isShared flags with
    | false =>
      have notShared : isPrivate flags = true := by
        rw [shared, ne_eq, Bool.not_eq_false] at kind
        exact kind
      rw [if_pos notShared] at unmapped
      have rule (v : Running) (i : ℕ) (v' : Running) (round : unmapPrivatePage q v i = some v')
          (keep : v.file = t.file) : v'.file = t.file := by
        rw [(unmapPrivatePage_iff.mp round).2]
        exact keep
      rw [forPages_preserves rule unmapped rfl]
      simp [offsetAfter]
    | true =>
      have notPrivate : ¬ isPrivate flags = true := by
        rw [shared] at kind
        exact kind
      rw [if_neg notPrivate, if_pos shared] at unmapped
      split at unmapped
      · cases unmapped
      case h_2 v loop =>
        have offset : (u.file f).off = (v.file f).off := by
          rw [file] at unmapped
          simp only [closeFile, onKernel] at unmapped
          split at unmapped
          · cases unmapped
          case h_2 k closed =>
            cases unmapped
            obtain ⟨_, rfl⟩ := Kernel.fileclose_spec closed
            simp [Kernel.setFile]
        rw [offset, (unmapShared_regular file used.regular (Region.nodup_pages _) (forPages_eq.mp loop).2).1, region]
        simp

/-- The pages that accesses bring, the last one first. -/
def brought (s : Running) (us : List (ℕ × Option UInt8)) : List ℕ := us.foldl (fun pages u => s.bring pages u.1) []

/-- The offsets of the pages that are written back: those that can be written, and those brought. -/
def writtenBack (s : Running) (r : Region) (flags : ℕ) (pages : List ℕ) : List ℕ :=
  r.rounds.filter fun i => isShared flags && (s.dirty (r.pageAt i) || decide (r.pageAt i ∈ pages))

/-- The last page written back ends where the offset is; or, if there is none, the last page brought ends there or
the file does; or nothing is written back or brought. -/
def OffsetReturns (s : Running) (f : Fin nfile) (r : Region) (flags : ℕ) (pages : List ℕ) : Prop :=
  match (s.writtenBack r flags pages).getLast?, pages with
  | some i, _ => writeEnd (s.file f).writable
      (lengthAfter (s.fileLength f) (s.writtenBack r flags pages).dropLast) i = (s.file f).off
  | none, v :: _ => min (r.offsetOf v + 4096) (s.fileLength f) = (s.file f).off
  | none, [] => True

private theorem Used.writtenBack (used : Used s r flags f pages t) :
    (r.rounds.filter fun i => isShared flags && t.dirty (r.pageAt i)) = s.writtenBack r flags pages := by
  refine List.filter_congr fun i _ => ?_
  cases shared : isShared flags with
  | false => rfl
  | true => rw [Bool.true_and, Bool.true_and, Bool.eq_iff_iff, used.dirty shared, Bool.or_eq_true, decide_eq_true_eq]

end Mapping

end Running

open Running in
/-- A process maps a regular file, goes through the mapping and unmaps it; the offset of the file is what it was if and
only if the last thing to move it has put it there. -/
theorem mapped_offset_iff {s s₁ t s' : Running} {addr flags base : ℕ} {length fd : ℤ} {f : Fin nfile}
    {input : ℕ → ℕ → UInt8} {us : List (ℕ × Option UInt8)} (opened : s.mapFile flags fd = some (some f))
    (regular : (s.file f).type = .inode) (mapped : s.wmap addr length flags fd = some (s₁, some base))
    (through : ∀ u ∈ us, Region.contains ⟨base, length⟩ u.1) (used : us.foldlM (use input) s₁ = some t)
    (unmapped : t.wunmap base = some (s', true)) :
    (s'.file f).off = (s.file f).off ↔ s.OffsetReturns f ⟨base, length⟩ flags (s.brought us) := by
  obtain ⟨start, kind⟩ := Used.start opened regular mapped
  have run : Used s ⟨base, length⟩ flags f (s.brought us) t := start.uses (mapFile_backed opened) through used
  rw [wunmap_offset run kind unmapped, run.writtenBack, offsetAfter, run.off, run.same.2]
  unfold OffsetReturns
  have size : t.fileLength f = s.fileLength f := by
    rw [fileLength, run.inode, run.same.1, fileLength]
  rw [size]
  cases (s.writtenBack ⟨base, length⟩ flags (s.brought us)).getLast? with
  | some i => rfl
  | none =>
    cases s.brought us with
    | nil => simp
    | cons v _ => rfl

/-- A process that has read a file of one page to its end. -/
def readToEnd : Running :=
  { openedFile 4096 (by decide) with file := fun _ => ⟨.inode, 1, true, true, 0, 4096⟩ }

open Running in
/-- A load and a store through a shared mapping; the page is written back and ends where the offset was. -/
theorem mapped_offset_iff_end : ∃ s₁ t s' : Running, readToEnd.wmap 0 4096 2 0 = some (s₁, some 0x60000000) ∧
    [(0x60000010, none), (0x60000000, some 5)].foldlM (use fun _ _ => 0) s₁ = some t ∧
    t.wunmap 0x60000000 = some (s', true) ∧ (s'.file 0).off = 4096 := by
  have run : (readToEnd.wmap 0 4096 2 0).any (fun r => r.2 = some 0x60000000 ∧
      ([(0x60000010, none), (0x60000000, some 5)].foldlM (use fun _ _ => 0) r.1).any fun t =>
        (t.wunmap 0x60000000).any fun r => r.2 = true) = true := by decide +kernel
  simp only [Option.any_eq_true, decide_eq_true_eq, Prod.exists] at run
  obtain ⟨s₁, base, mapped, rfl, t, used, s', done, unmapped, rfl⟩ := run
  have opened : readToEnd.mapFile 2 0 = some (some 0) := by decide +kernel
  have last : readToEnd.writtenBack ⟨0x60000000, 4096⟩ 2
      (readToEnd.brought [(0x60000010, none), (0x60000000, some 5)]) = [0] := by decide +kernel
  have stays := mapped_offset_iff opened rfl mapped (by decide +kernel) used unmapped
  unfold OffsetReturns at stays
  rw [last] at stays
  have ends : writeEnd true (lengthAfter (readToEnd.fileLength 0) []) 0 = 4096 := by decide +kernel
  exact ⟨s₁, t, s', mapped, used, unmapped, stays.mpr ends⟩

open Running in
/-- A file of one byte, mapped, loaded from and unmapped: a read at the descriptor now finds the end of the file. -/
theorem mapped_access_moves_offset : ∃ s s₁ t s' : Running, s.mapFile 2 0 = some (some 0) ∧ (s.file 0).type = .inode ∧
    s.wmap 0 4096 2 0 = some (s₁, some 0x60000000) ∧ [(0x60000000, none)].foldlM (use fun _ _ => 0) s₁ = some t ∧
    t.wunmap 0x60000000 = some (s', true) ∧ (s'.file 0).off ≠ (s.file 0).off := by
  have run : ((openedFile 1 (by decide)).wmap 0 4096 2 0).any (fun r => r.2 = some 0x60000000 ∧
      ([(0x60000000, none)].foldlM (use fun _ _ => 0) r.1).any fun t =>
        (t.wunmap 0x60000000).any fun r => r.2 = true ∧ (r.1.file 0).off = 4096) = true := by decide +kernel
  simp only [Option.any_eq_true, decide_eq_true_eq, Prod.exists] at run
  obtain ⟨s₁, base, mapped, rfl, t, used, s', done, unmapped, rfl, moved⟩ := run
  refine ⟨_, s₁, t, s', rfl, rfl, mapped, used, unmapped, ?_⟩
  rw [moved]
  decide

end Cs537.Wmap
