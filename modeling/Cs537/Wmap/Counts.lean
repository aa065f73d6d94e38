import Cs537.Wmap.Fork
import Cs537.Wmap.Frames
import Cs537.Wmap.Trap

/-! # Loaded pages

`n_loaded_pages` against the page table. A fault raises both by one; the other operations keep the counter, or copy it,
while they change the range or the page table under it.
-/

namespace Cs537.Wmap

open Lib

/-- The pages of the addresses that the fault handler takes for those of the region. -/
def Region.pages (r : Region) : List ℕ :=
  if r.addr < r.limit then List.range' (r.addr / 4096) ((r.limit - 1) / 4096 + 1 - r.addr / 4096) else []

private theorem Region.mem_pages {r : Region} {v : ℕ} : v ∈ r.pages ↔ r.HasPage v := by
  simp only [pages, HasPage, contains, decide_eq_true_eq]
  split
  case isTrue positive =>
    rw [List.mem_range'_1]
    constructor
    · rintro ⟨low, high⟩
      exact ⟨max r.addr (4096 * v), ⟨by omega, by omega⟩, by omega⟩
    · rintro ⟨a, ⟨low, high⟩, rfl⟩
      omega
  case isFalse empty =>
    refine iff_of_false List.not_mem_nil ?_
    rintro ⟨a, ⟨low, high⟩, _⟩
    omega

private theorem Region.pages_nodup (r : Region) : r.pages.Nodup := by
  rw [pages]
  split
  · exact List.nodup_range' ..
  · exact List.nodup_nil

namespace Task

/-- The page is in the page table: one of `kmap`, or one that was brought. -/
def present (t : Task) (v : ℕ) : Bool := isKernel v || (t.page v).isSome

/-- The number of pages of a range that are present. -/
def loaded (t : Task) (r : Region) : ℕ := r.pages.countP t.present

/-- Every counter is the number of pages of its range that are present. -/
def Tallied (t : Task) : Prop := ∀ me ∈ t.mmaps, me.nLoadedPages = t.loaded me.toRegion

end Task

/-- No two of the regions have the page. -/
def Lone (regions : List Region) (v : ℕ) : Prop := regions.Pairwise fun r q => ¬ (r.HasPage v ∧ q.HasPage v)

theorem Lone.index_unique {regions : List Region} {v i j : ℕ} {r q : Region} (lone : Lone regions v)
    (here : regions[i]? = some r) (there : regions[j]? = some q) (first : r.HasPage v) (second : q.HasPage v) :
    i = j := by
  obtain ⟨low, rfl⟩ := List.getElem?_eq_some_iff.mp here
  obtain ⟨low', rfl⟩ := List.getElem?_eq_some_iff.mp there
  have pairs := List.pairwise_iff_getElem.mp lone
  rcases lt_trichotomy i j with less | same | less
  · exact absurd ⟨first, second⟩ (pairs i j low low' less)
  · exact same
  · exact absurd ⟨second, first⟩ (pairs j i low' low less)

/-- A value that becomes true is counted once. -/
private theorem countP_update {α : Type*} [DecidableEq α] {p : α → Bool} {x : α} {l : List α} (nodup : l.Nodup)
    (off : p x = false) :
    l.countP (Function.update p x true) = l.countP p + if x ∈ l then 1 else 0 := by
  induction l with
  | nil => rfl
  | cons y rest ih =>
    obtain ⟨fresh, nodup⟩ := List.nodup_cons.mp nodup
    rw [List.countP_cons, List.countP_cons, ih nodup]
    by_cases here : y = x
    · subst here
      simp [fresh, off]
    · simp [Function.update_of_ne here, Ne.symm here]
      omega

namespace Task

variable {t t' : Task} {r : Region} {v : ℕ}

private theorem loaded_congr (same : ∀ v, r.HasPage v → t'.present v = t.present v) : t'.loaded r = t.loaded r :=
  List.countP_congr fun v member => by rw [same v (Region.mem_pages.mp member)]

private theorem loaded_enter (absent : t.present v = false) (entered : t'.present = Function.update t.present v true) :
    t'.loaded r = t.loaded r + if v ∈ r.pages then 1 else 0 := by
  rw [loaded, entered, countP_update r.pages_nodup absent, loaded]

theorem Tallied.congr (tallied : t.Tallied) (mmaps : t'.mmaps = t.mmaps) (present : t'.present = t.present) :
    t'.Tallied := by
  intro me member
  rw [mmaps] at member
  rw [loaded, present]
  exact tallied me member

end Task

namespace Running

variable {s s' : Running} {me : MmapEntry} {a : ℕ} {input : ℕ → ℕ → UInt8}

private theorem present_of_pool (same : s'.pool = s.pool) : s'.present = s.present := by
  funext v
  have table := congrFun (congrArg Pool.table same) v
  rw [pool_table, pool_table] at table
  rw [Task.present, Task.present, ← Option.isSome_map (x := s'.page v), table, Option.isSome_map]

/-- A fault brings one page and counts it at the first mapping that has the address. -/
theorem fault_counts {from_ : ℕ → UInt8} (done : s.fault a from_ = some s') :
    ∃ i me, s.mmaps[i]? = some me ∧ me.contains a = true ∧ s.present (a / 4096) = false ∧
      s'.present = Function.update s.present (a / 4096) true ∧
      s'.mmaps = s.mmaps.modify i fun me => { me with nLoadedPages := me.nLoadedPages + 1 } := by
  obtain ⟨me, frame, data, s₁, s₂, s₃, found, allocated, filled, walked, user, absent, rfl⟩ := fault_cases done
  obtain ⟨mmaps, page⟩ := walkAlloc_page walked
  have task := (fill_task filled).1.trans (kalloc_task allocated)
  have pages : s₃.page = s.page := page.trans (congrArg Task.page task)
  have entries : s₃.mmaps = s.mmaps := mmaps.trans (congrArg Task.mmaps task)
  have here : s.mmaps[s.mmaps.findIdx (·.contains a)]? = some me := by
    rw [← List.find?_eq_getElem?_findIdx, found]
  rw [pages] at absent
  refine ⟨_, me, here, by simpa using List.find?_some found, by rw [Task.present, user, absent]; rfl, ?_, ?_⟩
  · funext v
    by_cases same : v = a / 4096
    · subst same
      simp [Task.present, countPage, setPage]
    · simp [Task.present, countPage, setPage, Function.update_of_ne same, pages]
  · rw [countPage, setPage, entries]

private theorem fault_tallied (tallied : s.Tallied) {from_ : ℕ → UInt8} (lone : Lone s.regions (a / 4096))
    (done : s.fault a from_ = some s') : s'.Tallied := by
  obtain ⟨i, me, here, inside, absent, present, mmaps⟩ := fault_counts done
  intro other member
  rw [mmaps] at member
  obtain ⟨j, entry⟩ := List.mem_iff_getElem?.mp member
  rw [List.getElem?_modify] at entry
  obtain ⟨old, there, rfl⟩ := Option.map_eq_some_iff.mp entry
  have before := tallied old (List.mem_of_getElem? there)
  have mine : me.HasPage (a / 4096) := ⟨a, inside, rfl⟩
  by_cases same : i = j
  · subst same
    rw [here] at there
    cases there
    simp only [if_true]
    rw [Task.loaded_enter absent present, if_pos (Region.mem_pages.mpr mine), before]
  · rw [if_neg same]
    rw [Task.loaded_enter absent present, if_neg, before, Nat.add_zero]
    intro his
    exact same (lone.index_unique (region_here here) (region_here there) mine (Region.mem_pages.mp his))

/-- What an access keeps, when the page that it may bring lies in one mapping only. -/
structure Tallies (s t : Running) : Prop where
  tallied : s.Tallied → t.Tallied
  regions : t.regions = s.regions
  present : ∀ v, t.present v = false → s.present v = false

theorem Tallies.refl (s : Running) : Tallies s s := ⟨id, rfl, fun _ absent => absent⟩

theorem Tallies.trans {t u : Running} (first : Tallies s t) (second : Tallies t u) : Tallies s u :=
  ⟨fun tallied => second.tallied (first.tallied tallied), second.regions.trans first.regions,
    fun v absent => first.present v (second.present v absent)⟩

private theorem Access.tallies {from_ : ℕ → UInt8} (lone : s.present (a / 4096) = false → Lone s.regions (a / 4096))
    (access : Access s a from_ s') : Tallies s s' := by
  cases access with
  | present page there => exact .refl s
  | fault t absent handled =>
    obtain ⟨_, _, _, _, gone, present, _⟩ := fault_counts handled
    obtain ⟨_, _, _, _, _, _, _, cores, _⟩ := fault_spec handled
    refine ⟨fun tallied => fault_tallied tallied (lone gone) handled, regions_of_cores cores, fun v out => ?_⟩
    rw [present] at out
    by_cases here : v = a / 4096
    · rw [here]
      exact gone
    · rwa [Function.update_of_ne here] at out

private theorem load_tallies {byte : UInt8} (lone : s.present (a / 4096) = false → Lone s.regions (a / 4096))
    (done : s.load a input = some (s', byte)) : Tallies s s' :=
  (load_access done).1.tallies lone

private theorem store_tallies {byte : UInt8} (lone : s.present (a / 4096) = false → Lone s.regions (a / 4096))
    (done : s.store a byte input = some s') : Tallies s s' := by
  obtain ⟨t, page, access, _, there, rfl⟩ := store_access done
  have same : (t.setPage (a / 4096) (some { page with data := Function.update page.data (a % 4096) byte })).present =
      t.present := present_of_pool (pool_setPage there rfl)
  exact (access.tallies lone).trans ⟨fun tallied => tallied.congr rfl same, rfl, fun v absent => by rwa [same] at absent⟩

private theorem memmove_tallies {dst src n : ℕ} (lone : ∀ b, CopyAddr src n b ∨ CopyAddr dst n b →
    s.present (b / 4096) = false → Lone s.regions (b / 4096)) (done : s.memmove dst src n input = some s') :
    Tallies s s' := by
  have still {t : Running} {b : ℕ} (so_far : Tallies s t) (address : CopyAddr src n b ∨ CopyAddr dst n b)
      (absent : t.present (b / 4096) = false) : Lone t.regions (b / 4096) := by
    rw [so_far.regions]
    exact lone b address (so_far.present _ absent)
  exact memmove_preserves (Tallies s) done
    (fun _ _ _ _ address loaded so_far => so_far.trans (load_tallies (still so_far (.inl address)) loaded))
    (fun _ _ _ _ address stored so_far => so_far.trans (store_tallies (still so_far (.inr address)) stored)) (.refl s)

/-- The page is as it was, or one of the loop over the mapping and not there any more. -/
def Clears (me : MmapEntry) (s t : Running) : Prop :=
  ∀ v, t.present v = s.present v ∨ t.present v = false ∧ ∃ i ∈ me.rounds, me.pageAt i = v

theorem Clears.round {t t' : Running} {i : ℕ} (so_far : Clears me s t) (member : i ∈ me.rounds)
    (user : isKernel (me.pageAt i) = false)
    (table : t'.pool.table = Function.update t.pool.table (me.pageAt i) none) : Clears me s t' := by
  have present (v : ℕ) : t'.present v = Function.update t.present (me.pageAt i) false v := by
    rw [Task.present, ← Option.isSome_map (f := Page.frame), ← pool_table, table]
    by_cases here : v = me.pageAt i
    · rw [here, Function.update_self, Function.update_self, user]
      rfl
    · rw [Function.update_of_ne here, Function.update_of_ne here, pool_table, Option.isSome_map]
      rfl
  intro v
  rw [present]
  by_cases here : v = me.pageAt i
  · rw [here, Function.update_self]
    exact .inr ⟨rfl, i, member, rfl⟩
  · rw [Function.update_of_ne here]
    exact so_far v

private theorem unmapSharedPage_user {setsOff : Bool} {i : ℕ} (done : unmapSharedPage setsOff me s i = some s') :
    isKernel (me.pageAt i) = false := by
  simp only [unmapSharedPage] at done
  split at done
  · cases done
  case isFalse user => exact Bool.eq_false_iff.mpr user

private theorem unmapPages_clears (done : s.unmapPages me = some s') : Clears me s s' := by
  have start : Clears me s s := fun v => .inl rfl
  rw [unmapPages] at done
  split at done
  · refine foldlM_preserves (fun t i member t' round so_far => ?_) (forPages_eq.mp done).2 start
    exact so_far.round member (unmapPrivatePage_iff.mp round).1 (congrArg Pool.table (unmapPrivatePage_pool round))
  · split at done
    · split at done
      · cases done
      case h_2 t loop =>
        have cleared : Clears me s t := by
          refine foldlM_preserves (fun t i member t' round so_far => ?_) (forPages_eq.mp loop).2 start
          exact so_far.round member (unmapSharedPage_user round) (congrArg Pool.table (unmapSharedPage_pool round))
        intro v
        rw [present_of_pool (closeFile_pool done)]
        exact cleared v
    · cases done
      exact start

/-- The pages that `sys_wunmap` takes out of the page table lie in no other mapping. -/
def ClearsOwn (s : Running) (addr : ℕ) : Prop :=
  ∀ me ∈ s.mmaps.find? (·.addr = addr), ∀ i ∈ me.rounds, s.present (me.pageAt i) = true →
    ∀ other ∈ s.mmaps.eraseP (·.addr = addr), ¬ other.HasPage (me.pageAt i)

private theorem wunmap_tallied {addr : ℕ} {result : Bool} (tallied : s.Tallied) (own : s.ClearsOwn addr)
    (done : s.wunmap addr = some (s', result)) : s'.Tallied := by
  rcases wunmap_spec done with ⟨_, rfl, _⟩ | ⟨me, t, found, unmapped, rfl, _⟩
  · exact tallied
  · intro other member
    rw [tallied other (List.mem_of_mem_eraseP member)]
    refine (Task.loaded_congr fun v his => ?_).symm
    rcases unmapPages_clears unmapped v with same | ⟨gone, i, round, rfl⟩
    · exact same
    · cases before : s.present (me.pageAt i) with
      | false => exact gone
      | true => exact absurd his (own me found i round before other member)

/-- No page of the range that `sys_wmap` gives to a call is present. -/
def MapsAbsent (s : Running) (addr : ℕ) (length : ℤ) (flags : ℕ) (fd : ℤ) : Prop :=
  ∀ r ∈ s.accepted addr length flags fd, s.loaded r.1.toRegion = 0

private theorem wmap_tallied {addr flags : ℕ} {length fd : ℤ} {result : Option ℕ} (tallied : s.Tallied)
    (absent : s.MapsAbsent addr length flags fd) (done : s.wmap addr length flags fd = some (s', result)) :
    s'.Tallied := by
  cases accepts : s.accepted addr length flags fd with
  | none =>
    rw [wmap_of_rejected accepts done]
    exact tallied
  | some r =>
    obtain ⟨me, t⟩ := r
    rw [wmap_of_accepted accepts] at done
    obtain ⟨u, added, pair⟩ := Option.map_eq_some_iff.mp done
    cases pair
    obtain ⟨w, pool, mmaps, rfl⟩ := addMapping_pool added
    have task := (accepted_spec accepts).2.2.1
    have present : w.present = s.present := by
      rw [present_of_pool pool, task]
    have same (r : Region) : w.loaded r = s.loaded r := by
      rw [Task.loaded, present, Task.loaded]
    intro other member
    refine Eq.trans ?_ (same other.toRegion).symm
    rcases List.mem_cons.mp member with rfl | older
    · exact (absent _ accepts).symm
    · rw [mmaps, congrArg Task.mmaps task] at older
      exact tallied other older

/-- Where a mapping goes, as many pages are present as where it was, and a page that is copied from or to, and is not
there, lies in one mapping only. -/
structure MovesCounted (s : Running) (me : MmapEntry) (newaddr : ℕ) (newsize : ℤ) : Prop where
  loaded : s.loaded ⟨newaddr, newsize⟩ = s.loaded me.toRegion
  lone : ∀ b, CopyAddr me.addr (uint32 me.length) b ∨ CopyAddr newaddr (uint32 me.length) b →
    s.present (b / 4096) = false → Lone (⟨newaddr, newsize⟩ :: s.regions) (b / 4096)

/-- The range that a mapping gets has as many pages as the one that it had. -/
def ResizesCounted (s : Running) (oldaddr : ℕ) (oldsize newsize : ℤ) (flags : ℕ) : Prop :=
  ∀ i me, s.Target oldaddr oldsize i me → 0 < newsize →
    if mustMove s.regions i me.toRegion newsize = false then s.loaded ⟨me.addr, newsize⟩ = s.loaded me.toRegion
    else mayMove flags = true → s.free ≠ [] → ∀ newaddr, findAddr s.regions newsize = some newaddr →
      uint32 (newaddr + newsize) ≤ searchLimit → s.MovesCounted me newaddr newsize

private theorem moveMapping_tallied {i frame newaddr : ℕ} {newsize : ℤ} (tallied : s.Tallied) (here : s.mmaps[i]? = some me)
    (counted : s.MovesCounted me newaddr newsize) (done : s.moveMapping i me frame newaddr newsize input = some s') :
    s'.Tallied := by
  simp only [moveMapping] at done
  split at done
  · cases done
  case h_2 t copied =>
    split at done
    · cases done
    case h_2 u written =>
      cases done
      have begun : Task.Tallied { s with
          mmaps := { me with addr := newaddr, length := newsize, frame := frame } :: s.mmaps }.toTask := by
        intro other member
        rcases List.mem_cons.mp member with rfl | older
        · exact (tallied me (List.mem_of_getElem? here)).trans counted.loaded.symm
        · exact tallied other older
      have moved := (memmove_tallies counted.lone copied).tallied begun
      have same : u.pool = t.pool ∧ u.mmaps = t.mmaps := by
        split at written
        · refine ⟨?_, forPages_mmaps (fun _ _ _ => writeLowPage_mmaps) written⟩
          have rule (w : Running) (j : ℕ) (w' : Running) (round : writeLowPage me newsize w j = some w')
              (keep : w.pool = t.pool) : w'.pool = t.pool := (writeLowPage_pool round).trans keep
          exact forPages_preserves rule written rfl
        · cases written
          exact ⟨rfl, rfl⟩
      have kept : u.Tallied := moved.congr same.2 (present_of_pool same.1)
      exact fun other member => kept other (List.mem_of_mem_eraseIdx member)

/-- A mapping that has to move and may not stays as it is. -/
private theorem mayMove_of_wremap {oldaddr flags i : ℕ} {oldsize newsize : ℤ} {result : Option ℕ}
    (target : s.Target oldaddr oldsize i me) (positive : 0 < newsize)
    (moves : mustMove s.regions i me.toRegion newsize = true)
    (done : s.wremap oldaddr oldsize newsize flags input = some (s', result)) : mayMove flags = true ∨ s' = s := by
  obtain ⟨found, rfl⟩ := target
  rw [wremap, if_neg (by omega)] at done
  simp only [found, moves, Bool.true_eq_false, if_false] at done
  split at done
  · cases done
    exact .inr rfl
  case isFalse may => exact .inl (by simpa using may)

private theorem wremap_tallied {oldaddr flags : ℕ} {oldsize newsize : ℤ} {result : Option ℕ} (tallied : s.Tallied)
    (counted : s.ResizesCounted oldaddr oldsize newsize flags)
    (done : s.wremap oldaddr oldsize newsize flags input = some (s', result)) : s'.Tallied := by
  rcases wremap_spec done with ⟨rfl, _⟩ | ⟨me, i, positive, found, index, moved⟩
  · exact tallied
  have target : s.Target oldaddr oldsize i me := ⟨found, index⟩
  have rule := counted i me target positive
  rcases moved with ⟨stays, _, rfl⟩ | ⟨newaddr, frame, s₁, moves, searched, fits, allocated, moved, _⟩
  · rw [if_pos stays] at rule
    intro other member
    obtain ⟨j, entry⟩ := List.mem_iff_getElem?.mp member
    rw [List.getElem?_modify] at entry
    obtain ⟨old, there, rfl⟩ := Option.map_eq_some_iff.mp entry
    have before := tallied old (List.mem_of_getElem? there)
    by_cases same : i = j
    · subst same
      rw [target.here] at there
      cases there
      rw [if_pos rfl]
      exact before.trans rule.symm
    · rw [if_neg same]
      exact before
  · rw [if_neg (by rw [moves]; decide)] at rule
    rcases mayMove_of_wremap target positive moves done with mayMove | rfl
    · have free : s.free ≠ [] := by
        simp [(kalloc_free allocated).1]
      obtain ⟨task, k⟩ := s₁
      cases (kalloc_task allocated : task = s.toTask)
      obtain ⟨loaded, lone⟩ := rule mayMove free newaddr searched fits
      exact moveMapping_tallied (s := ⟨s.toTask, k⟩) tallied target.here ⟨loaded, lone⟩ moved
    · exact tallied

private theorem sysOpen_memory {ip omode : ℕ} {result : Option (Fin nofile)} (done : s.sysOpen ip omode = some (s', result)) :
    s'.mmaps = s.mmaps ∧ s'.page = s.page := by
  rw [sysOpen] at done
  split at done
  · cases done
    exact ⟨rfl, rfl⟩
  · split at done
    · obtain ⟨t, closed, pair⟩ := Option.map_eq_some_iff.mp done
      cases pair
      have task := onKernel_task closed
      exact ⟨(congrArg Task.mmaps task :), (congrArg Task.page task :)⟩
    case h_2 fd t allocated =>
      cases done
      rw [fdalloc] at allocated
      split at allocated
      · cases allocated
      · cases allocated
        exact ⟨rfl, rfl⟩

private theorem sysDup_memory {fd : ℤ} {result : Option (Fin nofile)} (done : s.sysDup fd = some (s', result)) :
    s'.mmaps = s.mmaps ∧ s'.page = s.page := by
  rw [sysDup] at done
  split at done
  · cases done
    exact ⟨rfl, rfl⟩
  · split at done
    · cases done
      exact ⟨rfl, rfl⟩
    case h_2 new t allocated =>
      obtain ⟨u, dup, pair⟩ := Option.map_eq_some_iff.mp done
      cases pair
      have task := onKernel_task dup
      rw [fdalloc] at allocated
      split at allocated
      · cases allocated
      · cases allocated
        exact ⟨(congrArg Task.mmaps task :), (congrArg Task.page task :)⟩

private theorem sysClose_memory {fd : ℤ} {result : Bool} (done : s.sysClose fd = some (s', result)) :
    s'.mmaps = s.mmaps ∧ s'.page = s.page := by
  rw [sysClose] at done
  split at done
  · cases done
    exact ⟨rfl, rfl⟩
  · obtain ⟨t, closed, pair⟩ := Option.map_eq_some_iff.mp done
    cases pair
    have task := onKernel_task closed
    exact ⟨(congrArg Task.mmaps task :), (congrArg Task.page task :)⟩

private theorem closeFd_mmaps {fd : Fin nofile} (done : closeFd s fd = some s') : s'.mmaps = s.mmaps := by
  rw [closeFd] at done
  split at done
  · cases done
    rfl
  · obtain ⟨t, closed, rfl⟩ := Option.map_eq_some_iff.mp done
    exact (congrArg Task.mmaps (onKernel_task closed) :)

/-- `exit` leaves no mapping. -/
private theorem exit_mmaps (done : s.exit = some s') : s'.mmaps = [] := by
  have torn {mmaps : List MmapEntry} {s t : Running} (done : exitMappings mmaps s = some t) : t.mmaps = [] := by
    induction mmaps generalizing s with
    | nil =>
      cases done
      rfl
    | cons me rest ih =>
      rw [exitMappings] at done
      split at done
      · cases done
      · split at done
        · cases done
        · split at done
          · cases done
          · exact ih done
  rw [exit] at done
  split at done
  · cases done
  case h_2 t emptied =>
    exact foldlM_preserves (fun _ _ _ _ closed empty => (closeFd_mmaps closed).trans empty) done (torn emptied)

private theorem protectCopied_present {offsets : List ℕ} {ok : Bool} (done : protectCopied me offsets s = some (s', ok)) :
    s'.present = s.present := by
  induction offsets generalizing s with
  | nil =>
    cases done
    rfl
  | cons i rest ih =>
    simp only [protectCopied] at done
    split at done
    · cases done
    · split at done
      · cases done
        rfl
      · split at done
        · exact ih done
        case h_2 page there => exact (ih done).trans (present_of_pool (pool_setPage there rfl))

/-- `fork` neither brings nor takes a page when it copies the mappings. -/
private theorem copyMappings_present {mmaps : List MmapEntry} {ok : Bool} (done : copyMappings mmaps s = some (s', ok)) :
    s'.present = s.present := by
  induction mmaps generalizing s with
  | nil =>
    cases done
    rfl
  | cons me rest ih =>
    rw [copyMappings_cons] at done
    split at done
    · cases done
      rfl
    case h_2 frame s₁ allocated =>
      have task := kalloc_task allocated
      have same (s₂ : Running) (flag : Bool) (marked : markCopied me s₁ = some (s₂, flag)) : s₂.present = s.present := by
        rw [← task]
        rw [markCopied] at marked
        split at marked
        · obtain ⟨offsets, _, marked⟩ := Option.bind_eq_some_iff.mp marked
          exact protectCopied_present marked
        · cases marked
          rfl
      split at done
      · cases done
      case h_2 s₂ marked =>
        cases done
        exact same _ _ marked
      case h_3 s₂ marked =>
        have later := ih done
        exact later.trans (same s₂ true marked)

/-- What keeps every counter in step: a new range has no page that is present, a range that changes keeps the number of
its pages that are, and a page that comes or goes lies in one mapping. -/
def CountsKept (s : Running) : Call → Prop
  | .wmap addr length flags fd => s.MapsAbsent addr length flags fd
  | .wunmap addr => s.ClearsOwn addr
  | .wremap oldaddr oldsize newsize flags _ => s.ResizesCounted oldaddr oldsize newsize flags
  | .load a _ | .store a _ _ => s.present (a / 4096) = false → Lone s.regions (a / 4096)
  | _ => True

private theorem call_tallied {call : Call} (tallied : s.Tallied) (kept : s.CountsKept call) (done : s.call call = some s') :
    s'.Tallied := by
  have memory (same : s'.mmaps = s.mmaps ∧ s'.page = s.page) : s'.Tallied :=
    tallied.congr same.1 (by funext v; rw [Task.present, Task.present, same.2])
  cases call with
  | «open» ip omode =>
    obtain ⟨⟨_, _⟩, called, rfl⟩ := Option.map_eq_some_iff.mp done
    exact memory (sysOpen_memory called)
  | dup fd =>
    obtain ⟨⟨_, _⟩, called, rfl⟩ := Option.map_eq_some_iff.mp done
    exact memory (sysDup_memory called)
  | close fd =>
    obtain ⟨⟨_, _⟩, called, rfl⟩ := Option.map_eq_some_iff.mp done
    exact memory (sysClose_memory called)
  | wmap addr length flags fd =>
    obtain ⟨⟨_, _⟩, called, rfl⟩ := Option.map_eq_some_iff.mp done
    exact wmap_tallied tallied kept called
  | wunmap addr =>
    obtain ⟨⟨_, _⟩, called, rfl⟩ := Option.map_eq_some_iff.mp done
    exact wunmap_tallied tallied kept called
  | wremap oldaddr oldsize newsize flags input =>
    obtain ⟨⟨_, _⟩, called, rfl⟩ := Option.map_eq_some_iff.mp done
    exact wremap_tallied tallied kept called
  | load a input =>
    obtain ⟨⟨_, _⟩, called, rfl⟩ := Option.map_eq_some_iff.mp done
    exact (load_tallies kept called).tallied tallied
  | store a byte input => exact (store_tallies kept done).tallied tallied
  | fork copied free => cases done
  | exit => cases done
  | wait free => cases done

end Running

/-- The number of pages of a range that a child gets. -/
def Copied.loaded (memory : Copied) (r : Region) : ℕ := r.pages.countP fun v => isKernel v || (memory.page v).isSome

/-- `sys_getwmapinfo`: address, length and loaded pages of the first mappings of the list. -/
def Task.getwmapinfo (t : Task) : List (ℕ × ℤ × ℕ) := (t.mmaps.take 16).map fun me =>
    (me.addr, me.length, me.nLoadedPages)

namespace System

variable {s s' : System} {p : Fin nproc}

/-- A child gets as many pages of each mapping as the counter says, which it takes over from the parent or from what the
slot has left. -/
def CopiesCounted (s : System) (p : Fin nproc) (copied : Option Copied) : Prop :=
  ∀ memory ∈ copied, ∀ np ∈ (List.finRange nproc).find? fun q => (s.proc q).state = .unused,
    ∀ me ∈ (s.proc p).mmaps ++ (s.proc np).mmaps, me.nLoadedPages = memory.loaded me.toRegion

/-- The steps that keep every counter. -/
def CountsKept (s : System) : Fin nproc × Call → Prop
  | (p, .fork copied _) => s.CopiesCounted p copied
  | (p, call) => (s.running p).CountsKept call

/-- Every counter of a process is right. -/
def AllTallied (s : System) : Prop := ∀ p, (s.proc p).state ≠ .unused → (s.proc p).Tallied

theorem AllTallied.back (inv : s.AllTallied) {r : Running} (tallied : r.Tallied) : (s.back p r).AllTallied := by
  intro q used
  by_cases here : q = p
  · subst here
    simpa only [System.back, Function.update_self] using tallied
  · simp only [System.back, Function.update_of_ne here] at used ⊢
    exact inv q used

private theorem reparent_task (s : System) (p q : Fin nproc) : ((s.reparent p).proc q).toTask = (s.proc q).toTask := by
  simp only [reparent]
  split <;> rfl

theorem AllTallied.reparent (inv : s.AllTallied) (p : Fin nproc) : (s.reparent p).AllTallied := by
  intro q used
  rw [reparent_task]
  refine inv q ?_
  simp only [System.reparent] at used
  split at used <;> exact used

theorem AllTallied.exit (inv : s.AllTallied) (done : s.exit p = some s') : s'.AllTallied := by
  rw [System.exit] at done
  split at done
  · cases done
  · split at done
    · cases done
    case h_2 r exited =>
      cases done
      have empty : r.mmaps = [] := Running.exit_mmaps exited
      have tallied : r.Tallied := fun me member => by rw [empty] at member; cases member
      have moved := (inv.back (p := p) tallied).reparent p
      intro q used
      by_cases here : q = p
      · subst here
        simp only [Function.update_self]
        intro me member
        have gone : (((s.back q r).reparent q).proc q).mmaps = [] := by
          refine (congrArg Task.mmaps (reparent_task (s.back q r) q q)).trans ?_
          simp only [System.back, Function.update_self]
          exact empty
        rw [gone] at member
        cases member
      · simp only [Function.update_of_ne here] at used ⊢
        exact moved q used

theorem AllTallied.wait (inv : s.AllTallied) (free : List ℕ) : (s.wait p free).AllTallied := by
  rw [System.wait]
  split
  · exact inv
  case h_2 q found =>
    intro other used
    by_cases here : other = q
    · subst here
      simp at used
    · simp only [Function.update_of_ne here] at used ⊢
      exact inv other used

theorem AllTallied.fork (inv : s.AllTallied) {copied : Option Copied} {free : List ℕ} (counted : s.CopiesCounted p copied)
    (done : s.fork p copied free = some s') : s'.AllTallied := by
  rw [System.fork] at done
  split at done
  · cases done
    exact inv
  case h_2 np found =>
    have unused : (s.proc np).state = .unused := by simpa using List.find?_some found
    have given (r : Running) (kstack : ℕ) : (s.giveUp np r kstack).AllTallied := by
      intro q used
      by_cases here : q = np
      · subst here
        simp [System.giveUp, System.back, unused] at used
      · simp only [System.giveUp, System.back, Function.update_of_ne here] at used ⊢
        exact inv q used
    split at done
    · cases done
      exact inv
    case h_2 kstack child allocated =>
      split at done
      · cases done
        exact given _ _
      case h_2 memory =>
        split at done
        · cases done
        · cases done
          exact given _ _
        case h_3 child' copied =>
          split at done
          · cases done
          case h_2 last opened =>
            cases done
            intro q used
            by_cases here : q = np
            · subst here
              obtain ⟨mmaps, page⟩ := Running.copyFds_memory opened
              have present := Running.copyMappings_present copied
              obtain ⟨_, members⟩ := Running.copyMappings_spec copied
              have slot : child.mmaps = (s.proc q).mmaps := congrArg Task.mmaps (Running.kalloc_task allocated)
              have loaded (r : Region) : last.loaded r = memory.loaded r := by
                rw [Task.loaded, Copied.loaded]
                congr 1
                funext v
                rw [Task.present, page]
                exact congrFun present v
              simp only [Function.update_self]
              intro me member
              rw [loaded]
              rw [mmaps] at member
              rcases members me member with older | ⟨old, listed, frame, rfl⟩
              · rw [slot] at older
                exact counted memory rfl q found me (List.mem_append_right _ older)
              · exact counted memory rfl q found old (List.mem_append_left _ listed)
            · simp only [Function.update_of_ne here] at used ⊢
              exact inv q used

theorem AllTallied.step (inv : s.AllTallied) {act : Fin nproc × Call} (kept : s.CountsKept act)
    (done : s.step act = some s') : s'.AllTallied := by
  obtain ⟨p, call⟩ := act
  obtain ⟨live, done⟩ := Option.ite_none_right_eq_some.mp done
  have used : (s.proc p).state ≠ .unused := by
    rw [show (s.proc p).state = .runnable from live]
    decide
  have called (kept : (s.running p).CountsKept call) (made : ((s.running p).call call).map (s.back p) = some s') :
      s'.AllTallied := by
    obtain ⟨r, ran, rfl⟩ := Option.map_eq_some_iff.mp made
    exact inv.back (Running.call_tallied (inv p used) kept ran)
  cases call with
  | fork copied free => exact inv.fork kept done
  | exit => exact inv.exit done
  | wait free =>
    cases done
    exact inv.wait free
  | «open» | dup | close | wmap | wunmap | wremap | load | store => exact called kept done

end System

/-- In every run whose steps keep the counters in step, the counter of every mapping of every process is the number of
its pages that are present, and `sys_getwmapinfo` reports that number. -/
theorem counts_loaded {s : System} (reached : systemMachine.ReachableBy System.CountsKept s) (p : Fin nproc)
    (used : (s.proc p).state ≠ .unused) :
    (∀ me ∈ (s.proc p).mmaps, me.nLoadedPages = (s.proc p).loaded me.toRegion) ∧ (s.proc p).getwmapinfo =
      ((s.proc p).mmaps.take 16).map fun me => (me.addr, me.length, (s.proc p).loaded me.toRegion) := by
  have inv : s.AllTallied := by
    refine reached.invariant (fun s fresh q _ me member => ?_) fun s act s' kept done inv => inv.step kept done
    rw [fresh.2.1 q] at member
    cases member
  have tallied := inv p used
  refine ⟨tallied, List.map_congr_left fun me member => ?_⟩
  rw [tallied me (List.mem_of_mem_take member)]

namespace System

/-- A process maps a page and loads it. -/
theorem counts_loaded_one : ∃ s, systemMachine.ReachableBy CountsKept s ∧ ∃ me, (s.proc 0).mmaps = [me] ∧
    me.nLoadedPages = 1 ∧ (s.proc 0).loaded me.toRegion = 1 := by
  have accepts : ((boot.running 0).accepted 0 4096 6 (-1)).map (fun r => (boot.running 0).loaded r.1.toRegion) =
    some 0 := by
    decide +kernel
  have run : (boot.step (0, .wmap 0 4096 6 (-1))).map (fun s => decide ((s.running 0).regions = [⟨0x60000000, 4096⟩] ∧
      (s.step (0, .load 0x60000000 fun _ _ => 0)).map (fun s => decide ((s.proc 0).state = .runnable ∧
        (s.proc 0).mmaps = [⟨⟨0x60000000, 4096⟩, 6, 1, none, 1⟩])) = some true)) = some true := by decide +kernel
  obtain ⟨s₁, mapped, values⟩ := Option.map_eq_some_iff.mp run
  obtain ⟨regions, run⟩ := of_decide_eq_true values
  obtain ⟨s, loaded, values⟩ := Option.map_eq_some_iff.mp run
  obtain ⟨state, mmaps⟩ := of_decide_eq_true values
  have absent : (boot.running 0).MapsAbsent 0 4096 6 (-1) := fun r accepted => by
    rw [Option.mem_def.mp accepted] at accepts
    exact Option.some.inj accepts
  have lone : Lone (s₁.running 0).regions (0x60000000 / 4096) := by
    rw [regions]
    exact List.pairwise_singleton ..
  have first : boot.CountsKept (0, .wmap 0 4096 6 (-1)) := absent
  have second : s₁.CountsKept (0, .load 0x60000000 fun _ _ => 0) := fun _ => lone
  have reached : systemMachine.ReachableBy CountsKept s :=
    ((Machine.ReachableBy.initial boot_fresh).step first mapped).step second loaded
  have used : (s.proc 0).state ≠ .unused := by
    rw [state]
    decide
  have counted := (counts_loaded reached 0 used).1 _ (by rw [mmaps]; exact List.mem_singleton_self _)
  exact ⟨s, reached, _, mmaps, rfl, counted.symm⟩

/-- A mapping of which a page was loaded moves: its counter says two, and one page is there. -/
theorem move_counts_twice : ∃ s, systemMachine.Reachable s ∧ ∃ me ∈ (s.proc 0).mmaps, me.toRegion = ⟨0x60002000, 8192⟩ ∧
    me.nLoadedPages = 2 ∧ (s.proc 0).loaded me.toRegion = 1 := by
  have run : (systemMachine.run boot [(0, .wmap 0 1 6 (-1)), (0, .wmap 0 1 6 (-1)),
      (0, .load 0x60000000 fun _ _ => 0), (0, .wremap 0x60000000 1 8192 1 fun _ _ => 0)]).map (fun s =>
        decide ((s.proc 0).mmaps.head? = some ⟨⟨0x60002000, 8192⟩, 6, 2, none, 5⟩ ∧
          (s.proc 0).loaded ⟨0x60002000, 8192⟩ = 1)) = some true := by decide +kernel
  obtain ⟨s, run, values⟩ := Option.map_eq_some_iff.mp run
  obtain ⟨head, loaded⟩ := of_decide_eq_true values
  exact ⟨s, Machine.reachable_of_run systemMachine boot_fresh _ run, _, List.mem_of_mem_head? head, rfl, rfl, loaded⟩

end System

end Cs537.Wmap
