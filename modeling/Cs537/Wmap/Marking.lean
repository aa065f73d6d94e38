import Cs537.Wmap.NullFile

/-! # Marking a private mapping

`sys_wmap` clears the write bit of every page of a new private mapping. The walk gives a null pointer for a page
whose page table is not there, and the bit is then cleared at address 0 of the process.
-/

namespace Cs537.Wmap

open Lib

namespace Running

variable {s s' t : Running} {me : MmapEntry} {addr flags i : ℕ} {length fd : ℤ} {result : Option ℕ}

/-- The new entry of a call that `sys_wmap` accepts, and the state in which its pages are marked. -/
def accepted (s : Running) (addr : ℕ) (length : ℤ) (flags : ℕ) (fd : ℤ) : Option (MmapEntry × Running) :=
  if isPrivate flags = isShared flags then none
  else match s.mapFile flags fd with
    | none => none
    | some file =>
        match s.dupFile file with
        | none => none
        | some s =>
            match s.wmapAddr addr length flags with
            | some (some addr) => s.kalloc.map fun r => (⟨⟨addr, length⟩, flags, 0, file, r.1⟩, r.2)
            | _ => none

theorem wmap_of_accepted (accepted : s.accepted addr length flags fd = some (me, t)) :
    s.wmap addr length flags fd =
      (t.addMapping me.frame me.addr me.length me.flags me.file).map fun u => (u, some me.addr) := by
  rw [Running.accepted] at accepted
  split at accepted
  · cases accepted
  case isFalse kind =>
    split at accepted
    · cases accepted
    case h_2 file mapped =>
      split at accepted
      · cases accepted
      case h_2 s₁ dup =>
        split at accepted
        case h_1 base placed =>
          obtain ⟨⟨frame, s₂⟩, allocated, pair⟩ := Option.map_eq_some_iff.mp accepted
          cases pair
          simp only [wmap, if_neg kind, mapped, dup, placed, allocated]
        · cases accepted

theorem wmap_of_rejected (rejected : s.accepted addr length flags fd = none)
    (done : s.wmap addr length flags fd = some (s', result)) : s' = s := by
  rcases wmap_spec done with ⟨_, same⟩ | ⟨file, frame, base, s₁, s₂, both, mapped, placed, dup, allocated, _⟩
  · exact same
  · have addrs : s₁.wmapAddr addr length flags = s.wmapAddr addr length flags := by
      rw [wmapAddr, wmapAddr, regions, congrArg Task.mmaps (dupFile_task dup), ← regions]
    simp [accepted, both, mapped, dup, addrs, placed, allocated] at rejected

/-- Up to the loop only a reference is taken, and a page for the entry. -/
theorem accepted_spec (accepted : s.accepted addr length flags fd = some (me, t)) :
    me.flags = flags ∧ me.nLoadedPages = 0 ∧ t.toTask = s.toTask ∧ t.inode = s.inode ∧
      ∀ f, t.file f = if me.file = some f then { s.file f with ref := (s.file f).ref + 1 } else s.file f := by
  rw [Running.accepted] at accepted
  split at accepted
  · cases accepted
  · split at accepted
    · cases accepted
    case h_2 file mapped =>
      split at accepted
      · cases accepted
      case h_2 s₁ dup =>
        split at accepted
        case h_1 base placed =>
          obtain ⟨⟨frame, s₂⟩, allocated, pair⟩ := Option.map_eq_some_iff.mp accepted
          cases pair
          obtain ⟨file₂, inode₂⟩ := kalloc_files allocated
          refine ⟨rfl, rfl, (kalloc_task allocated).trans (dupFile_task dup), ?_, fun f => ?_⟩
          · rw [inode₂]
            cases file with
            | none =>
              cases dup
              rfl
            | some g =>
              rw [(dupFile_some dup).2]
              rfl
          · rw [file₂]
            cases file with
            | none =>
              cases dup
              rfl
            | some g =>
              rw [(dupFile_some dup).2]
              by_cases here : f = g
              · subst here
                simp [Kernel.setFile]
              · simp [Kernel.setFile, here, Ne.symm here]
        · cases accepted

/-- The walk to the page of a round gives a null pointer. -/
def walkIsNull (me : MmapEntry) (s : Running) (i : ℕ) : Bool :=
  !isKernel (me.pageAt i) && !s.tables (me.pageAt i / 1024)

/-- The rounds in which the marking loop follows a null pointer. -/
def nullPtes (me : MmapEntry) (s : Running) : List ℕ :=
  if isPrivate me.flags then touched (protectPage me) (walkIsNull me) me.rounds s else []

/-- One entry is put at the head, its file has one reference more, and apart from page-table entries of the new range
the process is as it was, to every byte of its memory. -/
structure OnlyAdds (s : Running) (me : MmapEntry) (s' : Running) : Prop where
  mmaps : s'.mmaps = me :: s.mmaps
  ofile : s'.ofile = s.ofile
  tables : s'.tables = s.tables
  byte : ∀ a, s'.byte a = s.byte a
  page : ∀ v, ¬ me.Spans v → s'.page v = s.page v
  inode : s'.inode = s.inode
  file : ∀ f, s'.file f = if me.file = some f then { s.file f with ref := (s.file f).ref + 1 } else s.file f

/-- What marking changes: the write bits of the pages of the range. -/
structure Marks (me : MmapEntry) (s t : Running) : Prop where
  kernel : t.toKernel = s.toKernel
  mmaps : t.mmaps = s.mmaps
  ofile : t.ofile = s.ofile
  tables : t.tables = s.tables
  byte : ∀ a, t.byte a = s.byte a
  page : ∀ v, ¬ me.Spans v → t.page v = s.page v

theorem Marks.refl (me : MmapEntry) (s : Running) : Marks me s s := ⟨rfl, rfl, rfl, rfl, fun _ => rfl, fun _ _ => rfl⟩

theorem Marks.trans {u : Running} (first : Marks me s t) (second : Marks me t u) : Marks me s u :=
  ⟨second.kernel.trans first.kernel, second.mmaps.trans first.mmaps, second.ofile.trans first.ofile,
    second.tables.trans first.tables, fun a => (second.byte a).trans (first.byte a),
    fun v outside => (second.page v outside).trans (first.page v outside)⟩

/-- A round whose page has a page table marks the page, if it is there. -/
private theorem protectPage_marks (user : isKernel (me.pageAt i) = false) (table : walkIsNull me s i = false)
    (round : i ∈ me.rounds) : ∃ t, protectPage me s i = some t ∧ Marks me s t := by
  rw [walkIsNull, user, Bool.not_false, Bool.true_and, Bool.not_eq_false'] at table
  have inside : me.Spans (me.pageAt i) := ⟨i, (Region.mem_rounds.mp round).1, rfl⟩
  simp only [protectPage, Region.pageAt] at user table inside ⊢
  rw [user, table]
  cases present : s.page (uint32 (me.addr + i) / 4096) with
  | none => exact ⟨s, rfl, .refl me s⟩
  | some page =>
    refine ⟨_, rfl, rfl, rfl, rfl, rfl, fun a => ?_, fun v outside => Function.update_of_ne ?_ _ _⟩
    · by_cases here : a / 4096 = uint32 (me.addr + i) / 4096
      · simp only [byte, setPage, here, Function.update_self, present]
      · simp only [byte, setPage, Function.update_of_ne here]
    · rintro rfl
      exact outside inside

/-- The loop follows no null pointer if and only if there is a page table for each of its pages. -/
private theorem nullPtes_eq_nil_iff (inUser : isPrivate me.flags = true → me.toRegion.InUser) : nullPtes me s = [] ↔
    (isPrivate me.flags = true → ∀ i ∈ me.rounds, s.tables (me.pageAt i / 1024) = true) := by
  have quiet (user : me.toRegion.InUser) (t : Running) (i : ℕ) (member : i ∈ me.rounds)
      (table : walkIsNull me t i = false) : ∃ t', protectPage me t i = some t' ∧ walkIsNull me t' = walkIsNull me t := by
    have user := user i member
    rw [walkIsNull, user, Bool.not_false, Bool.true_and, Bool.not_eq_false', Region.pageAt] at table
    rw [Region.pageAt] at user
    simp only [protectPage, user, table, Bool.false_eq_true, Bool.true_eq_false, if_false]
    cases t.page (uint32 (me.addr + i) / 4096) <;> exact ⟨_, rfl, rfl⟩
  rw [nullPtes]
  split
  case isTrue notShared =>
    have user := inUser notShared
    simp only [notShared, forall_const]
    rw [touched_eq_nil_iff (quiet user)]
    refine forall₂_congr fun i member => ?_
    simp [walkIsNull, user i member]
  case isFalse shared => simp [shared]

/-- A loop that follows no null pointer only marks. -/
private theorem addMapping_marks (never : nullPtes me s = [])
    (done : s.addMapping me.frame me.addr me.length me.flags me.file = some s') (fresh : me.nLoadedPages = 0) :
    ∃ t, Marks me s t ∧ s' = { t with mmaps := me :: t.mmaps } := by
  have entry : (⟨⟨me.addr, me.length⟩, me.flags, 0, me.file, me.frame⟩ : MmapEntry) = me := by
    rw [← fresh]
  simp only [addMapping, entry] at done
  split at done
  · cases done
  case h_2 t marked =>
    cases done
    refine ⟨t, ?_, rfl⟩
    split at marked
    case isTrue notShared =>
      rw [nullPtes, if_pos notShared] at never
      have rule (u : Running) (i : ℕ) (round : i ∈ me.rounds) (u' : Running) (table : walkIsNull me u i = false)
          (done : protectPage me u i = some u') (marks : Marks me s u) : Marks me s u' := by
        have user : isKernel (me.pageAt i) = false := by
          simp only [protectPage] at done
          split at done
          · cases done
          case isFalse user => exact Bool.eq_false_iff.mpr user
        obtain ⟨w, same, marks'⟩ := protectPage_marks user table round
        cases same.symm.trans done
        exact marks.trans marks'
      exact foldlM_untouched rule never (forPages_eq.mp marked).2 (.refl me s)
    · cases marked
      exact .refl me s

end Running

open Running in
/-- Where a private mapping does not get pages of `kmap`: `sys_wmap` follows no null pointer, and adds one entry and
nothing else, if and only if the mapping is shared or there is a page table for every page that it marks. -/
theorem wmap_only_adds_iff {s t : Running} {me : MmapEntry} {addr flags : ℕ} {length fd : ℤ}
    (accepted : s.accepted addr length flags fd = some (me, t)) (user : isPrivate flags = true → me.toRegion.InUser) :
    (nullPtes me t = [] ∧ ∀ s' result, s.wmap addr length flags fd = some (s', result) →
      result = some me.addr ∧ OnlyAdds s me s') ↔
      (isPrivate flags = true → ∀ i ∈ me.rounds, s.tables (me.pageAt i / 1024) = true) := by
  obtain ⟨rfl, fresh, task, inode, file⟩ := accepted_spec accepted
  have tables : t.tables = s.tables := congrArg Task.tables task
  rw [← tables, ← nullPtes_eq_nil_iff user]
  refine and_iff_left_of_imp fun never s' result done => ?_
  rw [wmap_of_accepted accepted] at done
  obtain ⟨u, added, pair⟩ := Option.map_eq_some_iff.mp done
  cases pair
  obtain ⟨w, marks, rfl⟩ := addMapping_marks never added fresh
  have mmaps : t.mmaps = s.mmaps := congrArg Task.mmaps task
  have ofile : t.ofile = s.ofile := congrArg Task.ofile task
  have page : t.page = s.page := congrArg Task.page task
  refine ⟨rfl, ⟨?_, marks.ofile.trans ofile, marks.tables.trans tables, fun a => ?_, fun v outside => ?_, ?_,
    fun f => ?_⟩⟩
  · rw [marks.mmaps, mmaps]
  · exact (marks.byte a).trans (by rw [byte, byte, page])
  · rw [← page]
    exact marks.page v outside
  · exact (congrArg Kernel.inode marks.kernel).trans inode
  · exact (congrFun (congrArg Kernel.file marks.kernel) f).trans (file f)

/-- The small process, with a page table for every page. -/
def tabledProcess : Running := { smallProcess with tables := fun _ => true }

open Running in
theorem wmap_only_adds_tabled : ∃ me t, tabledProcess.accepted 0 4096 5 (-1) = some (me, t) ∧ nullPtes me t = [] ∧
    ∀ s' result, tabledProcess.wmap 0 4096 5 (-1) = some (s', result) →
      result = some me.addr ∧ OnlyAdds tabledProcess me s' := by
  have accepts : (tabledProcess.accepted 0 4096 5 (-1)).isSome := by decide +kernel
  obtain ⟨⟨me, t⟩, accepted⟩ := Option.isSome_iff_exists.mp accepts
  have inside : (tabledProcess.accepted 0 4096 5 (-1)).map (fun r => r.1.rounds.map fun i => isKernel (r.1.pageAt i)) =
      some [false] := by decide +kernel
  rw [accepted, Option.map_some] at inside
  have user : me.toRegion.InUser := fun i round => by
    have listed : isKernel (me.pageAt i) ∈ me.rounds.map fun i => isKernel (me.pageAt i) :=
      List.mem_map.mpr ⟨i, round, rfl⟩
    rw [Option.some.inj inside] at listed
    exact List.mem_singleton.mp listed
  exact ⟨me, t, accepted, (wmap_only_adds_iff accepted fun _ => user).mpr fun _ _ _ => rfl⟩

/-- A process whose first page is full of sevens and that has no page table in the area of mappings. -/
def sevensProcess : Running :=
  { blankProcess with page := fun v => if v = 0 then some ⟨fun _ => 7, true, 9⟩ else none }

open Running in
/-- `sys_wmap` of a private mapping changes the byte at address 0 of such a process. -/
theorem wmap_writes_at_null : ∃ s', wmapMachine.Reachable sevensProcess ∧
    sevensProcess.wmap 0 4096 5 (-1) = some (s', some 0x60000000) ∧ sevensProcess.byte 0 = 7 ∧ s'.byte 0 = 5 := by
  have blank : wmapMachine.init sevensProcess := by
    refine ⟨rfl, fun v high => if_neg ?_⟩
    simp only [searchBase] at high
    omega
  have mapped : (sevensProcess.wmap 0 4096 5 (-1)).map (fun r => (r.2, r.1.byte 0)) = some (some 0x60000000, 5) := by
    decide +kernel
  obtain ⟨⟨s', result⟩, done, values⟩ := Option.map_eq_some_iff.mp mapped
  obtain ⟨rfl, after⟩ := Prod.mk.inj values
  exact ⟨s', Machine.ReachableBy.initial blank, done, rfl, after⟩

end Cs537.Wmap
