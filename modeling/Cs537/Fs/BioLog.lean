import Cs537.Fs.BioSafety
import Mathlib.Logic.Relation

/-! # The cache that the log sees

The log's model has for each block of its device either nothing or a valid buffer. Seen so, every step of
the buffer cache is one of few: nothing happens, a block is read in, a block that is not dirty is dropped, a
block is written through, or new contents are pinned. These are the operations on the cache that the log's
model has.
-/

namespace Cs537.Fs.Bio

open Cs537.Lib Cs537.Fs.Log

variable {s t : St} {a : Action} {i dev n : ℕ} {b : Buf} {σ : Log.St}

def Buf.shown (b : Buf) : Option Log.Buf := if b.valid then some ⟨b.data, b.dirty⟩ else none

/-- The contents of the cache for a block. -/
def St.cached (s : St) (dev n : ℕ) : Option Log.Buf := (s.lookup dev n).bind fun i => (s.buf i).shown

/-- A state of the log over the disk and the cache of a device. -/
def St.under (s : St) (dev : ℕ) (σ : Log.St) : Log.St :=
  { σ with disk := fun n => s.disk (dev, n), cache := s.cached dev }

/-- What can happen to the cache and the disk. -/
inductive CacheStep : Log.St → Log.St → Prop
  | same (σ : Log.St) : CacheStep σ σ
  | bread (σ : Log.St) (n : ℕ) : CacheStep σ (σ.bread n)
  | evict (σ : Log.St) (n : ℕ) (b : Log.Buf) (cached : σ.cache n = some b) (clean : b.dirty = false) :
      CacheStep σ { σ with cache := Function.update σ.cache n none }
  | bwrite (σ : Log.St) (n : ℕ) (data : Block) : CacheStep σ (σ.bwrite n data)
  | pin (σ : Log.St) (n : ℕ) (data : Block) : CacheStep σ
      { σ with cache := Function.update σ.cache n (some ⟨data, true⟩) }

private theorem Inv.cached_of (inv : Inv s) (inside : i < NBUF) (key : (s.buf i).key = (dev, n)) (live : dev ≠ 0) :
    s.cached dev n = (s.buf i).shown := by
  obtain ⟨⟨l, ordered⟩, _, coherent, _⟩ := inv
  rw [St.cached]
  cases found : s.lookup dev n with
  | none => exact absurd key (lookup_none ordered found inside)
  | some j =>
    obtain ⟨inside', key'⟩ := lookup_some ordered found
    have used : (s.buf i).dev ≠ 0 := by
      rw [show (s.buf i).dev = dev from congrArg Prod.fst key]
      exact live
    rw [Option.bind_some, coherent.unique i j inside inside' used (key.trans key'.symm)]

private theorem Inv.cached_none (inv : Inv s) (absent : ∀ i < NBUF, (s.buf i).key ≠ (dev, n)) : s.cached dev n = none := by
  obtain ⟨⟨l, ordered⟩, _, _, _⟩ := inv
  rw [St.cached]
  cases found : s.lookup dev n with
  | none => rfl
  | some j =>
    obtain ⟨inside, key⟩ := lookup_some ordered found
    exact absurd key (absent j inside)

/-- A buffer that stays with its block. -/
theorem Inv.cached_change (inv : Inv s) (inv' : Inv t) (inside : i < NBUF) (live : dev ≠ 0)
    (buf : t.buf = Function.update s.buf i b) (key : b.key = (s.buf i).key) :
    t.cached dev n = if (s.buf i).key = (dev, n) then b.shown else s.cached dev n := by
  have keys : ∀ k, (t.buf k).key = (s.buf k).key := fun k => setBuf_key buf key
  split_ifs with here
  · rw [inv'.cached_of inside (by rw [keys, here]) live, buf, Function.update_self]
  · by_cases present : ∃ k < NBUF, (s.buf k).key = (dev, n)
    · obtain ⟨k, below, same⟩ := present
      have other : k ≠ i := by
        rintro rfl
        exact here same
      rw [inv.cached_of below same live, inv'.cached_of below (by rw [keys, same]) live, buf, Function.update_of_ne other]
    · push Not at present
      rw [inv.cached_none present, inv'.cached_none fun k below => by rw [keys]; exact present k below]

/-- A buffer that is taken for a block that no buffer is for. -/
private theorem Inv.cached_recycle (inv : Inv s) (inv' : Inv t) (inside : i < NBUF) (live : dev ≠ 0)
    (buf : t.buf = Function.update s.buf i b) (new : ∀ k < NBUF, (s.buf k).key ≠ b.key) (empty : b.valid = false) :
    t.cached dev n = if (s.buf i).key = (dev, n) then none else s.cached dev n := by
  have hidden : b.shown = none := by rw [Buf.shown, empty]; rfl
  have others : ∀ k, k ≠ i → t.buf k = s.buf k := fun k other => by rw [buf, Function.update_of_ne other]
  have self : t.buf i = b := by rw [buf, Function.update_self]
  by_cases here : b.key = (dev, n)
  · rw [inv'.cached_of inside (by rw [self, here]) live, self, hidden]
    rw [inv.cached_none fun k below => by rw [← here]; exact new k below, ite_self]
  · split_ifs with old
    · apply inv'.cached_none
      intro k below
      rcases eq_or_ne k i with rfl | other
      · rw [self]
        exact here
      · rw [others k other]
        intro same
        have used : (s.buf i).dev ≠ 0 := by
          rw [show (s.buf i).dev = dev from congrArg Prod.fst old]
          exact live
        exact other (inv.coherent.unique i k inside below used (old.trans same.symm)).symm
    · by_cases present : ∃ k < NBUF, (s.buf k).key = (dev, n)
      · obtain ⟨k, below, same⟩ := present
        have other : k ≠ i := by
          rintro rfl
          exact old same
        rw [inv.cached_of below same live, inv'.cached_of below (by rw [others k other, same]) live, others k other]
      · push Not at present
        rw [inv.cached_none present]
        apply inv'.cached_none
        intro k below
        rcases eq_or_ne k i with rfl | other
        · rw [self]
          exact here
        · rw [others k other]
          exact present k below

/-- Two states that agree on the disk and the cache of a device look the same to the log. -/
theorem under_congr (disk : ∀ n, t.disk (dev, n) = s.disk (dev, n)) (cached : ∀ n, t.cached dev n = s.cached dev n) :
    t.under dev σ = s.under dev σ := by
  rw [St.under, St.under, funext disk, funext cached]

/-- A step that shows nothing new. -/
theorem CacheStep.still (disk : t.disk = s.disk) (cached : ∀ n, t.cached dev n = s.cached dev n) :
    CacheStep (s.under dev σ) (t.under dev σ) := by
  rw [under_congr (fun n => by rw [disk]) cached]
  exact .same _

/-- A buffer whose shown contents stay. -/
theorem Inv.still (inv : Inv s) (inv' : Inv t) (inside : i < NBUF) (live : dev ≠ 0)
    (buf : t.buf = Function.update s.buf i b)
    (key : b.key = (s.buf i).key) (disk : t.disk = s.disk) (shown : b.shown = (s.buf i).shown) :
    CacheStep (s.under dev σ) (t.under dev σ) := by
  apply CacheStep.still disk
  intro n
  rw [inv.cached_change inv' inside live buf key]
  split_ifs with here
  · rw [shown, inv.cached_of inside here live]
  · rfl

/-- A buffer of the device whose shown contents change. -/
theorem Inv.cached_update (inv : Inv s) (inv' : Inv t) (inside : i < NBUF) (live : (s.buf i).dev ≠ 0)
    (buf : t.buf = Function.update s.buf i b) (key : b.key = (s.buf i).key) :
    t.cached (s.buf i).dev = Function.update (s.cached (s.buf i).dev) (s.buf i).blockno b.shown := by
  funext n
  rw [inv.cached_change inv' inside live buf key]
  rcases eq_or_ne n (s.buf i).blockno with rfl | other
  · rw [if_pos (by rw [Buf.key]), Function.update_self]
  · rw [Function.update_of_ne other, if_neg]
    intro same
    exact other (congrArg Prod.snd same).symm

/-- A buffer of another device. -/
theorem Inv.elsewhere (inv : Inv s) (inv' : Inv t) (inside : i < NBUF) (live : dev ≠ 0)
    (buf : t.buf = Function.update s.buf i b)
    (key : b.key = (s.buf i).key) (disk : ∀ k, k ≠ (s.buf i).key → t.disk k = s.disk k) (away : (s.buf i).dev ≠ dev) :
    CacheStep (s.under dev σ) (t.under dev σ) := by
  have apart : ∀ n, (s.buf i).key ≠ (dev, n) := fun n same => away (congrArg Prod.fst same)
  rw [under_congr (fun n => disk _ (apart n).symm) fun n => ?_]
  · exact .same _
  · rw [inv.cached_change inv' inside live buf key, if_neg (apart n)]

/-- A recycled buffer was dropped, or showed nothing. -/
theorem Inv.dropped (inv : Inv s) (inv' : Inv t) (inside : i < NBUF) (live : dev ≠ 0)
    (buf : t.buf = Function.update s.buf i b)
    (new : ∀ k < NBUF, (s.buf k).key ≠ b.key) (empty : b.valid = false) (disk : t.disk = s.disk)
    (clean : (s.buf i).dirty = false) : CacheStep (s.under dev σ) (t.under dev σ) := by
  have cached : ∀ n, t.cached dev n = if (s.buf i).key = (dev, n) then none else s.cached dev n :=
    fun n => inv.cached_recycle inv' inside live buf new empty
  by_cases held : (s.buf i).dev = dev ∧ (s.buf i).valid = true
  · obtain ⟨rfl, valid⟩ := held
    have shown : s.cached (s.buf i).dev (s.buf i).blockno = some ⟨(s.buf i).data, false⟩ := by
      rw [inv.cached_of inside rfl live, Buf.shown, valid, clean]
      rfl
    have left : t.cached (s.buf i).dev = Function.update (s.cached (s.buf i).dev) (s.buf i).blockno none := by
      funext n
      rw [cached]
      rcases eq_or_ne n (s.buf i).blockno with rfl | other
      · rw [if_pos (by rw [Buf.key]), Function.update_self]
      · rw [Function.update_of_ne other, if_neg]
        intro same
        exact other (congrArg Prod.snd same).symm
    have dropped := CacheStep.evict (s.under (s.buf i).dev σ) (s.buf i).blockno _ shown rfl
    rw [show t.under (s.buf i).dev σ = { s.under (s.buf i).dev σ with
      cache := Function.update (s.cached (s.buf i).dev) (s.buf i).blockno none } by rw [St.under, St.under, left, disk]]
    exact dropped
  · apply CacheStep.still disk
    intro n
    rw [cached]
    split_ifs with old
    · have invalid : (s.buf i).valid = false := by
        rw [Bool.eq_false_iff]
        exact fun valid => held ⟨congrArg Prod.fst old, valid⟩
      rw [inv.cached_of inside old live, Buf.shown, invalid]
      rfl
    · rfl

theorem Inv.simulated (inv : Inv s) (inv' : Inv t) (live : dev ≠ 0) (run : Bio.act s a = some t) :
    CacheStep (s.under dev σ) (t.under dev σ) := by
  cases a with
  | bget c dev' blockno =>
    rw [Bio.act] at run
    split_ifs at run
    cases run
    obtain ⟨l, ordered⟩ := inv.ordered
    rw [St.bget] at inv' ⊢
    cases found : s.lookup dev' blockno with
    | some i =>
      rw [found] at inv'
      exact inv.still inv' (lookup_some ordered found).1 live rfl rfl rfl rfl
    | none =>
      rw [found] at inv'
      cases taken : s.victim with
      | none =>
        rw [taken] at inv'
        exact .same _
      | some i =>
        rw [taken] at inv'
        obtain ⟨inside, _, clean⟩ := victim_some ordered taken
        exact inv.dropped inv' inside live rfl (fun k below => lookup_none ordered found below) rfl rfl clean
  | acquire c i =>
    rw [Bio.act, St.acquire] at run
    split_ifs at run with may
    cases run
    exact inv.still inv' (inv.referred.inside i c may.1) live rfl rfl rfl rfl
  | fill c i =>
    rw [Bio.act, St.fill] at run
    split_ifs at run with may
    obtain ⟨member, _, invalid⟩ := may
    cases run
    have inside := inv.referred.inside i c member
    rcases eq_or_ne (s.buf i).dev dev with rfl | away
    · have missing : s.cached (s.buf i).dev (s.buf i).blockno = none := by
        rw [inv.cached_of inside rfl live, Buf.shown, invalid]
        rfl
      have read := CacheStep.bread (s.under (s.buf i).dev σ) (s.buf i).blockno
      convert read using 1
      rw [Log.St.bread, show (s.under (s.buf i).dev σ).cache (s.buf i).blockno = none from missing, St.under,
        inv.cached_update inv' inside live rfl rfl]
      rfl
    · exact inv.elsewhere inv' inside live rfl rfl (fun _ _ => rfl) away
  | bwrite c i data =>
    rw [Bio.act, St.bwrite] at run
    split_ifs at run with may locked
    · obtain ⟨member, _, valid⟩ := may
      cases run
      have inside := inv.referred.inside i c member
      rcases eq_or_ne (s.buf i).dev dev with rfl | away
      · have written := CacheStep.bwrite (s.under (s.buf i).dev σ) (s.buf i).blockno data
        convert written using 1
        rw [Log.St.bwrite, St.under, inv.cached_update inv' inside live rfl rfl, Buf.shown]
        congr 1
        · funext n
          rcases eq_or_ne n (s.buf i).blockno with rfl | other
          · rw [Function.update_self]
            exact Function.update_self ..
          · rw [Function.update_of_ne other]
            exact Function.update_of_ne (fun same => other (congrArg Prod.snd same)) _ _
        · rw [if_pos valid]
          rfl
      · exact inv.elsewhere inv' inside live rfl rfl (fun k other => Function.update_of_ne other _ _) away
    · cases run
      exact .same _
  | logWrite c i data =>
    rw [Bio.act, St.logWrite] at run
    split_ifs at run with may
    obtain ⟨member, _, valid⟩ := may
    cases run
    have inside := inv.referred.inside i c member
    rcases eq_or_ne (s.buf i).dev dev with rfl | away
    · have pinned := CacheStep.pin (s.under (s.buf i).dev σ) (s.buf i).blockno data
      convert pinned using 1
      rw [St.under, inv.cached_update inv' inside live rfl rfl, Buf.shown, if_pos valid]
      rfl
    · exact inv.elsewhere inv' inside live rfl rfl (fun _ _ => rfl) away
  | unlock c i =>
    rw [Bio.act, St.unlock] at run
    split_ifs at run with may locked
    · cases run
      exact inv.still inv' (inv.referred.inside i c may.1) live rfl rfl rfl rfl
    · cases run
      exact .same _
  | brelse c i =>
    rw [Bio.act, St.brelse] at run
    dsimp only at run
    split_ifs at run with may last
    all_goals
      cases run
      exact inv.still inv' (inv.referred.inside i c may.1) live rfl rfl rfl rfl

/-- Over every run, what the log sees starts as its own empty cache and changes by the steps of the log's model only. -/
theorem log_cache_refined {disk : ℕ × ℕ → Block} {acts : List Action} (σ : Log.St) (live : dev ≠ 0)
    (path : machine.Path OnDevice (binit disk) acts s) :
    (∀ n, ((binit disk).under dev σ).cache n = none) ∧
      Relation.ReflTransGen CacheStep ((binit disk).under dev σ) (s.under dev σ) := by
  have start := Inv.binit disk
  refine ⟨fun n => start.cached_none fun i _ same => live (congrArg Prod.fst same).symm, ?_⟩
  generalize binit disk = first at path start
  induction path with
  | nil => exact .refl
  | @cons s mid t a rest allowed run _ ih =>
    have inv' := start.step allowed run
    refine .head ?_ (ih inv')
    change Bio.step s a = some mid at run
    rw [Bio.step] at run
    cases sane : s.panicked with
    | none =>
      rw [sane] at run
      exact start.simulated inv' live run
    | some text =>
      rw [sane] at run
      exact absurd run (Option.some_ne_none mid).symm

theorem log_cache_refined_session : ∃ s, machine.Path OnDevice (binit fun _ _ => 0) session s ∧
    Relation.ReflTransGen CacheStep ((binit fun _ _ => 0).under 1 (Log.powerOn fun _ _ => 0))
      (s.under 1 (Log.powerOn fun _ _ => 0)) := by
  obtain ⟨s, path⟩ := session_runs
  exact ⟨s, path, (log_cache_refined (Log.powerOn fun _ _ => 0) Nat.one_ne_zero path).2⟩

end Cs537.Fs.Bio
