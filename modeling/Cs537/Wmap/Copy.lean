import Cs537.Wmap.Search
import Mathlib.Data.List.Infix

/-! # The copy of a move, through page faults

The copy of `sys_wremap` reads the old range and writes the new one, and each first access to a page that is
not present brings it: from the file of the mapping, or filled with zeros. What a fault brings was visible
before, so that the bytes that the copy reads are the ones that the process saw at the old address, and they
are what it finds at the new one.
-/

namespace Cs537.Wmap

open Lib

namespace Running

variable {s s' t : Running} {a b v : ℕ} {me q : MmapEntry} {data from_ : ℕ → UInt8} {input : ℕ → ℕ → UInt8}
  {value : UInt8}

/-- Only offsets of files differ. -/
structure SameFiles (s t : Running) : Prop where
  inode : t.inode = s.inode
  file : ∀ f, t.file f = { s.file f with off := (t.file f).off }

theorem SameFiles.refl (s : Running) : SameFiles s s := ⟨rfl, fun _ => rfl⟩

theorem SameFiles.trans (first : SameFiles s t) (second : SameFiles t s') : SameFiles s s' where
  inode := second.inode.trans first.inode
  file f := by rw [second.file, first.file]

/-- The content of the page that a fault in a mapping brings. -/
def brings (s : Running) (me : MmapEntry) (v : ℕ) (from_ : ℕ → UInt8) : Option (ℕ → UInt8) :=
  (s.fill me (4096 * v) from_).map (·.2)

/-- The byte that is visible at an address of a mapping: of its page, or of the one that a fault would bring. -/
def seen (s : Running) (me : MmapEntry) (b : ℕ) (input : ℕ → ℕ → UInt8) : Option UInt8 :=
  match s.page (b / 4096) with
  | some page => some (page.data (b % 4096))
  | none => (s.brings me (b / 4096) (input (b / 4096))).map (· (b % 4096))

/-- A fault at an address uses the mapping. -/
def Serves (s : Running) (me : MmapEntry) (a : ℕ) : Prop := s.cores.find? (·.contains a) = some me.core

theorem serves_of_find (found : s.mmaps.find? (·.contains a) = some q) : s.Serves q a := by
  rw [Serves, cores, List.find?_map]
  change (s.mmaps.find? (·.contains a)).map MmapEntry.core = _
  rw [found]
  rfl

private theorem fill_core (same : q.core = me.core) : s.fill q a from_ = s.fill me a from_ := by
  simp only [MmapEntry.core, MmapEntry.mk.injEq] at same
  obtain ⟨region, flags, _, file, _⟩ := same
  rw [fill, fill, region, flags, file]

/-- A fault anywhere in a page reads the same part of the file. -/
theorem fill_page (s : Running) (me : MmapEntry) (a : ℕ) (from_ : ℕ → UInt8) :
    s.fill me a from_ = s.fill me (4096 * (a / 4096)) from_ := by
  have same : (a : ℤ) - me.addr - (a % 4096 : ℕ) =
      (4096 * (a / 4096) : ℕ) - me.addr - (4096 * (a / 4096) % 4096 : ℕ) := by
    omega
  rw [fill, fill, same]

theorem fill_files (done : s.fill me a from_ = some (s', data)) : SameFiles s s' ∧ s'.free = s.free := by
  rw [fill] at done
  split at done
  · cases done
    exact ⟨.refl s, rfl⟩
  case h_2 f _ =>
    split at done
    · cases done
      exact ⟨.refl s, rfl⟩
    · simp only at done
      split at done
      · cases done
      case h_2 k page read =>
        cases done
        simp only [Kernel.fileread] at read
        split at read
        · cases read
        · split at read
          · cases read
          · cases read
            refine ⟨⟨rfl, fun g => ?_⟩, rfl⟩
            by_cases here : g = f
            · subst here
              simp [Kernel.setFile]
            · simp [Kernel.setFile, Function.update_of_ne here]
          · split at read
            · cases read
            · cases read
              refine ⟨⟨rfl, fun g => ?_⟩, rfl⟩
              by_cases here : g = f
              · subst here
                simp [Kernel.setFile]
              · simp [Kernel.setFile, Function.update_of_ne here]

/-- What a fault brings does not depend on the offsets of the files. -/
theorem brings_congr (same : SameFiles s t) : t.brings me v from_ = s.brings me v from_ := by
  rw [brings, brings, fill, fill]
  cases me.file with
  | none => rfl
  | some f =>
    split_ifs with anonymous
    · rfl
    · have readable : (t.file f).readable = (s.file f).readable := by rw [same.file f]
      have type : (t.file f).type = (s.file f).type := by rw [same.file f]
      have ip : (t.file f).ip = (s.file f).ip := by rw [same.file f]
      simp only [Kernel.fileread, Kernel.setFile, Function.update_self, readable, type, ip, same.inode]
      cases (s.file f).readable with
      | false => rfl
      | true =>
        cases (s.file f).type with
        | none => rfl
        | pipe => rfl
        | inode =>
          simp only [Bool.true_eq_false, if_false]
          generalize uint32 _ = off
          cases (s.inode (s.file f).ip).readi off <;> rfl

private theorem brings_core (same : q.core = me.core) : s.brings q v from_ = s.brings me v from_ := by
  rw [brings, brings, fill_core same]

private theorem fill_brings (done : s.fill me a from_ = some (s', data)) : s.brings me (a / 4096) from_ = some data := by
  rw [brings, ← fill_page, done]
  rfl

theorem kalloc_free {frame : ℕ} (done : s.kalloc = some (frame, s')) : s.free = frame :: s'.free ∧ SameFiles s s' := by
  rw [kalloc, Kernel.kalloc] at done
  cases free : s.free with
  | nil =>
    rw [free] at done
    cases done
  | cons first rest =>
    rw [free] at done
    cases done
    exact ⟨rfl, rfl, fun _ => rfl⟩

theorem walkAlloc_free (done : s.walkAlloc v = some s') : s'.free <:+ s.free ∧ SameFiles s s' := by
  rw [walkAlloc] at done
  split at done
  · cases done
    exact ⟨List.suffix_rfl, .refl s⟩
  · split at done
    · cases done
    case h_2 frame t allocated =>
      cases done
      obtain ⟨free, files⟩ := kalloc_free allocated
      refine ⟨?_, files.inode, files.file⟩
      rw [free]
      exact List.suffix_cons ..

/-- After an access the page at an address is there: it was, or a fault has brought it. -/
inductive Access (s : Running) (a : ℕ) (from_ : ℕ → UInt8) : Running → Prop
  | present (page : Page) : s.page (a / 4096) = some page → Access s a from_ s
  | fault (t : Running) : s.page (a / 4096) = none → s.fault a from_ = some t → Access s a from_ t

theorem load_access (done : s.load a input = some (t, value)) : Access s a (input (a / 4096)) t ∧
    a / 4096 < kernelPage ∧ ∃ page, t.page (a / 4096) = some page ∧ value = page.data (a % 4096) := by
  rw [load] at done
  split at done
  · cases done
  case isFalse user =>
    split at done
    case h_1 page present =>
      cases done
      exact ⟨.present page present, by omega, page, present, rfl⟩
    case h_2 absent =>
      split at done
      · cases done
      case h_2 u handled =>
        obtain ⟨page, present, pair⟩ := Option.map_eq_some_iff.mp done
        cases pair
        exact ⟨.fault _ absent handled, by omega, page, present, rfl⟩

theorem store_access (done : s.store a value input = some s') : ∃ t page, Access s a (input (a / 4096)) t ∧
    a / 4096 < kernelPage ∧ t.page (a / 4096) = some page ∧
    s' = t.setPage (a / 4096) (some { page with data := Function.update page.data (a % 4096) value }) := by
  have poked {t : Running} (done : t.poke a value = some s') : ∃ page, t.page (a / 4096) = some page ∧
      s' = t.setPage (a / 4096) (some { page with data := Function.update page.data (a % 4096) value }) := by
    rw [poke] at done
    split at done
    · cases done
    case h_2 page present =>
      split at done
      · cases done
        exact ⟨page, present, rfl⟩
      · cases done
  rw [store] at done
  split at done
  · cases done
  case isFalse user =>
    split at done
    case h_1 page present =>
      obtain ⟨page', present', same⟩ := poked done
      exact ⟨s, page', .present page present, by omega, present', same⟩
    case h_2 absent =>
      split at done
      · cases done
      case h_2 u handled =>
        obtain ⟨page, present, same⟩ := poked done
        exact ⟨u, page, .fault u absent handled, by omega, present, same⟩

/-- What an access leaves alone. -/
structure Access.Frame (s t : Running) : Prop where
  cores : t.cores = s.cores
  files : SameFiles s t
  free : t.free <:+ s.free

/-- An access changes no page, or brings the one of the mapping that serves the address. -/
theorem Access.effect (access : Access s a from_ t) (serves : s.Serves me a) : Access.Frame s t ∧
    ((t = s ∧ ∃ page, s.page (a / 4096) = some page) ∨
      ∃ frame data, s.page (a / 4096) = none ∧ s.free ≠ [] ∧ s.brings me (a / 4096) from_ = some data ∧
        t.page = Function.update s.page (a / 4096) (some ⟨data, true, frame⟩)) := by
  cases access with
  | present page present => exact ⟨⟨rfl, .refl s, List.suffix_rfl⟩, .inl ⟨rfl, page, present⟩⟩
  | fault _ absent handled =>
    have effect := fault_cases handled
    obtain ⟨q, frame, data, s₁, s₂, s₃, found, allocated, filled, walked, _, _, same⟩ := effect
    obtain ⟨free, files⟩ := kalloc_free allocated
    obtain ⟨files', free'⟩ := fill_files filled
    obtain ⟨free'', files''⟩ := walkAlloc_free walked
    have page : s₃.page = s.page := by
      rw [(walkAlloc_page walked).2, congrArg Task.page (fill_task filled).1, congrArg Task.page (kalloc_task allocated)]
    have core : q.core = me.core := Option.some.inj ((serves_of_find found).symm.trans serves)
    have cores : t.cores = s.cores := by
      rw [same, cores_countPage]
      have mmaps : s₃.mmaps = s.mmaps := by
        rw [(walkAlloc_page walked).1, congrArg Task.mmaps (fill_task filled).1,
          congrArg Task.mmaps (kalloc_task allocated)]
      exact cores_of_mmaps mmaps
    subst same
    refine ⟨⟨cores, ?_, ?_⟩, .inr ⟨frame, data, absent, ?_, ?_, ?_⟩⟩
    · have all := (files.trans files').trans files''
      exact ⟨all.inode, all.file⟩
    · rw [free, ← free']
      exact free''.trans (List.suffix_cons ..)
    · rw [free]
      exact List.cons_ne_nil _ _
    · rw [← brings_core core, ← brings_congr files]
      exact fill_brings filled
    · rw [← page]
      rfl

/-- The pages after an access are the ones before it, and the one that is brought, which is writable. -/
theorem Access.pages (access : Access s a from_ t) (serves : s.Serves q a) :
    (t.page (a / 4096)).isSome ∧ (∀ v page, s.page v = some page → t.page v = some page) ∧
      ∀ v page, t.page v = some page →
        s.page v = some page ∨ v = a / 4096 ∧ page.writable = true ∧ s.free ≠ [] := by
  obtain ⟨_, ⟨rfl, page, present⟩ | ⟨frame, data, absent, free, _, pages⟩⟩ := access.effect serves
  · refine ⟨?_, fun _ _ there => there, fun _ _ there => .inl there⟩
    rw [present]
    rfl
  · refine ⟨?_, fun v page there => ?_, fun v page there => ?_⟩
    · rw [pages, Function.update_self]
      rfl
    · rw [pages, Function.update_of_ne, there]
      rintro rfl
      rw [absent] at there
      cases there
    · by_cases here : v = a / 4096
      · subst here
        rw [pages, Function.update_self] at there
        cases there
        exact .inr ⟨rfl, rfl, free⟩
      · rw [pages, Function.update_of_ne here] at there
        exact .inl there

theorem Access.Frame.refl (s : Running) : Access.Frame s s := ⟨rfl, .refl s, List.suffix_rfl⟩

theorem Access.Frame.trans (first : Access.Frame s t) (second : Access.Frame t s') : Access.Frame s s' where
  cores := second.cores.trans first.cores
  files := first.files.trans second.files
  free := second.free.trans first.free

theorem Access.Frame.serves (frame : Access.Frame s t) (serves : s.Serves me a) : t.Serves me a := by
  rw [Serves, frame.cores]
  exact serves

theorem seen_of_present {page : Page} (present : s.page (b / 4096) = some page) :
    s.seen me b input = some (page.data (b % 4096)) := by
  rw [seen, present]

theorem seen_congr (same : t.page (b / 4096) = s.page (b / 4096)) (files : SameFiles s t) :
    t.seen me b input = s.seen me b input := by
  rw [seen, seen, same, brings_congr files]

/-- The page that an access brings is what was visible there. -/
theorem Access.seen (access : Access s a (input (a / 4096)) t) (serves : s.Serves me a) :
    t.seen me b input = s.seen me b input := by
  obtain ⟨frame, ⟨rfl, _⟩ | ⟨f, data, absent, _, brought, page⟩⟩ := access.effect serves
  · rfl
  · by_cases here : b / 4096 = a / 4096
    · rw [Running.seen, Running.seen, page, here, Function.update_self, absent, brought]
      rfl
    · refine seen_congr ?_ frame.files
      rw [page, Function.update_of_ne here]

/-- An access changes nothing that is visible on other pages. -/
private theorem Access.seen_of_ne (access : Access s a from_ t) (serves : s.Serves q a)
    (other : t ≠ s → b / 4096 ≠ a / 4096) : t.seen me b input = s.seen me b input := by
  obtain ⟨frame, ⟨rfl, _⟩ | ⟨f, data, absent, _, _, page⟩⟩ := access.effect serves
  · rfl
  · have changed : t ≠ s := by
      rintro rfl
      have here := congrFun page (a / 4096)
      rw [absent, Function.update_self] at here
      cases here
    refine seen_congr ?_ frame.files
    rw [page, Function.update_of_ne (other changed)]

/-- A store changes one visible byte. -/
private theorem seen_setPage {page : Page} (present : t.page (a / 4096) = some page) (other : b ≠ a) :
    (t.setPage (a / 4096) (some { page with data := Function.update page.data (a % 4096) value })).seen me b input =
      t.seen me b input := by
  by_cases here : b / 4096 = a / 4096
  · rw [seen, seen, here, present]
    simp only [setPage, Function.update_self]
    rw [Function.update_of_ne (by omega)]
  · refine seen_congr ?_ ⟨rfl, fun _ => rfl⟩
    simp only [setPage, Function.update_of_ne here]

/-- The two ranges of a copy: they do not meet, the new one begins on a page boundary, and each is served by a
mapping of its own. -/
structure Ranges (s : Running) (me newme : MmapEntry) (src dst n : ℕ) : Prop where
  aligned : dst % 4096 = 0
  apart : src + n ≤ dst ∨ dst + n ≤ src
  low : src + n < 2 ^ 32
  low' : dst + n < 2 ^ 32
  old : ∀ j < n, s.Serves me (src + j)
  new : ∀ j < n, s.Serves newme (dst + j)

/-- The pages that the first rounds of a copy touch. -/
def Touched (src dst k v : ℕ) : Prop := ∃ j < k, (src + j) / 4096 = v ∨ (dst + j) / 4096 = v

/-- A state of the copy after some rounds: what was visible in the old range still is, and the bytes written are
what was visible. -/
structure Copying (s : Running) (me : MmapEntry) (input : ℕ → ℕ → UInt8) (src dst n k : ℕ) (t : Running) : Prop where
  frame : Access.Frame s t
  seen : ∀ j < n, t.seen me (src + j) input = s.seen me (src + j) input
  copied : ∀ j < k, ∃ page, t.page ((dst + j) / 4096) = some page ∧
    s.seen me (src + j) input = some (page.data ((dst + j) % 4096))
  kept : ∀ v page, s.page v = some page → ∃ page', t.page v = some page' ∧ page'.writable = page.writable
  fresh : ∀ v page, s.page v = none → t.page v = some page → page.writable = true ∧ s.free ≠ [] ∧ Touched src dst k v
  there : ∀ v, Touched src dst k v → (t.page v).isSome

section Copying

variable {newme : MmapEntry} {src dst n k : ℕ} {t₁ t₂ : Running}

theorem Copying.refl (s : Running) (me : MmapEntry) (input : ℕ → ℕ → UInt8) (src dst n : ℕ) :
    Copying s me input src dst n 0 s where
  frame := .refl s
  seen _ _ := rfl
  copied j below := by omega
  kept _ page present := ⟨page, present, rfl⟩
  fresh _ page absent present := by
    rw [absent] at present
    cases present
  there _ touched := by
    obtain ⟨j, below, _⟩ := touched
    omega

/-- A page that a store brings is no page of the old range: the first byte read has brought that one. -/
private theorem Copying.store_apart (ranges : s.Ranges me newme src dst n) (now : Copying s me input src dst n k t)
    (below : k < n) (access₁ : Access t (src + k) (input ((src + k) / 4096)) t₁) (serves : t.Serves me (src + k))
    (absent : t₁.page ((dst + k) / 4096) = none) : ∀ j < n, (src + j) / 4096 ≠ (dst + k) / 4096 := by
  intro j inside same
  have aligned := ranges.aligned
  obtain ⟨here, keeps, _⟩ := access₁.pages serves
  have first : (t₁.page (src / 4096)).isSome := by
    by_cases start : k = 0
    · subst start
      exact here
    · obtain ⟨page, present⟩ := Option.isSome_iff_exists.mp (now.there (src / 4096) ⟨0, by omega, .inl rfl⟩)
      rw [keeps _ _ present]
      rfl
  rcases ranges.apart with before | behind
  · omega
  · rw [show src / 4096 = (dst + k) / 4096 by omega, absent] at first
    cases first

theorem Copying.round (ranges : s.Ranges me newme src dst n) (now : Copying s me input src dst n k t) (below : k < n)
    (loaded : t.load (src + k) input = some (t₁, value)) (stored : t₁.store (dst + k) value input = some t₂) :
    Copying s me input src dst n (k + 1) t₂ := by
  obtain ⟨access₁, _, page₁, present₁, rfl⟩ := load_access loaded
  obtain ⟨u, page₂, access₂, _, present₂, rfl⟩ := store_access stored
  have serves₁ := now.frame.serves (ranges.old k below)
  obtain ⟨frame₁, _⟩ := access₁.effect serves₁
  have serves₂ := (now.frame.trans frame₁).serves (ranges.new k below)
  obtain ⟨frame₂, moved₂⟩ := access₂.effect serves₂
  obtain ⟨here₁, keeps₁, brings₁⟩ := access₁.pages serves₁
  obtain ⟨here₂, keeps₂, brings₂⟩ := access₂.pages serves₂
  have apart := ranges.apart
  have seen₁ (j : ℕ) (inside : j < n) : t₁.seen me (src + j) input = s.seen me (src + j) input :=
    (access₁.seen serves₁).trans (now.seen j inside)
  have far (changed : u ≠ t₁) (j : ℕ) (inside : j < n) : (src + j) / 4096 ≠ (dst + k) / 4096 := by
    rcases moved₂ with ⟨same, _⟩ | ⟨_, _, absent, _⟩
    · exact absurd same changed
    · exact now.store_apart ranges below access₁ serves₁ absent j inside
  have free {x : Running} (suffix : x.free <:+ s.free) (left : x.free ≠ []) : s.free ≠ [] := by
    intro empty
    rw [empty, List.suffix_nil] at suffix
    exact left suffix
  refine ⟨?_, fun j inside => ?_, fun j inside => ?_, fun v page present => ?_, fun v page absent present => ?_,
    fun v touched => ?_⟩
  · have frame := (now.frame.trans frame₁).trans frame₂
    exact ⟨frame.cores, ⟨frame.files.inode, frame.files.file⟩, frame.free⟩
  · rw [seen_setPage present₂ (by omega), access₂.seen_of_ne serves₂ fun changed => far changed j inside]
    exact seen₁ j inside
  · by_cases last : j = k
    · subst last
      refine ⟨_, Function.update_self .., ?_⟩
      simp only [Function.update_self]
      rw [← seen₁ j below, seen_of_present present₁]
    · obtain ⟨page, present, seen⟩ := now.copied j (by omega)
      have present' := keeps₂ _ _ (keeps₁ _ _ present)
      by_cases here : (dst + j) / 4096 = (dst + k) / 4096
      · rw [here] at present' ⊢
        cases present₂.symm.trans present'
        refine ⟨_, Function.update_self .., ?_⟩
        have other : (dst + j) % 4096 ≠ (dst + k) % 4096 := by omega
        simp only [Function.update_of_ne other]
        exact seen
      · refine ⟨page, ?_, seen⟩
        simp only [setPage, Function.update_of_ne here]
        exact present'
  · obtain ⟨page', present', same⟩ := now.kept v page present
    have present'' := keeps₂ _ _ (keeps₁ _ _ present')
    by_cases here : v = (dst + k) / 4096
    · subst here
      cases present₂.symm.trans present''
      exact ⟨_, Function.update_self .., same⟩
    · refine ⟨page', ?_, same⟩
      simp only [setPage, Function.update_of_ne here]
      exact present''
  · -- A page that was not there before is one that an access has brought.
    have later (page : Page) (there : u.page v = some page) :
        page.writable = true ∧ s.free ≠ [] ∧ Touched src dst (k + 1) v := by
      rcases brings₂ v page there with there | ⟨rfl, writable, some⟩
      · rcases brings₁ v page there with there | ⟨rfl, writable, some⟩
        · obtain ⟨writable, some, j, inside, touched⟩ := now.fresh v page absent there
          exact ⟨writable, some, j, by omega, touched⟩
        · exact ⟨writable, free now.frame.free some, k, by omega, .inl rfl⟩
      · exact ⟨writable, free (now.frame.trans frame₁).free some, k, by omega, .inr rfl⟩
    by_cases here : v = (dst + k) / 4096
    · subst here
      simp only [setPage, Function.update_self, Option.some.injEq] at present
      subst present
      exact later page₂ present₂
    · simp only [setPage, Function.update_of_ne here] at present
      exact later page present
  · by_cases here : v = (dst + k) / 4096
    · subst here
      simp only [setPage, Function.update_self]
      rfl
    · simp only [setPage, Function.update_of_ne here]
      have there : (t₁.page v).isSome := by
        obtain ⟨j, inside, touched⟩ := touched
        by_cases last : j = k
        · subst last
          rcases touched with rfl | rfl
          · exact here₁
          · exact absurd rfl here
        · obtain ⟨page, present⟩ := Option.isSome_iff_exists.mp (now.there v ⟨j, by omega, touched⟩)
          rw [keeps₁ _ _ present]
          rfl
      obtain ⟨page, present⟩ := Option.isSome_iff_exists.mp there
      rw [keeps₂ _ _ present]
      rfl

/-- The forward copy, from any round on. -/
theorem Copying.copyUp {m : ℕ} (ranges : s.Ranges me newme src dst n) (now : Copying s me input src dst n k t)
    (all : k + m = n) (done : Running.copyUp input m (dst + k) (src + k) t = some s') :
    Copying s me input src dst n n s' := by
  induction m generalizing k t with
  | zero =>
    cases done
    rw [Nat.add_zero] at all
    rw [← all] at now ⊢
    exact now
  | succ m ih =>
    have low := ranges.low
    have low' := ranges.low'
    rw [Running.copyUp] at done
    split at done
    · cases done
    case h_2 t₁ value loaded =>
      split at done
      · cases done
      case h_2 t₂ stored =>
        have next : uint32 ((dst + k : ℕ) + 1) = dst + (k + 1) := by
          rw [uint32]
          omega
        have next' : uint32 ((src + k : ℕ) + 1) = src + (k + 1) := by
          rw [uint32]
          omega
        rw [next, next'] at done
        exact ih (now.round ranges (by omega) loaded stored) (by omega) done

end Copying

end Running

end Cs537.Wmap
