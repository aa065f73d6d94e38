import Cs537.Wmap.Bytes
import Cs537.Wmap.Move
import Cs537.Wmap.Teardown

/-! # What a move writes to the file

After the copy `sys_wremap` writes a shared mapping back, but from the addresses `newsize + i` and not from those
of the mapping. A page of the process that happens to be there, present and writable, lands in the file at the
offset `i`, as far as the file reaches; so a move is harmless only when no such page is there.
-/

namespace Cs537.Wmap

open Lib

/-- Bytes that `filewrite` takes from memory into the file. -/
structure Piece where
  src : ℕ
  off : ℕ
  count : ℕ
deriving DecidableEq, Repr

/-- The bytes of a file after a piece is written. -/
def Piece.write (memory : ℕ → UInt8) (bytes : List UInt8) (p : Piece) : List UInt8 :=
  splice bytes p.off ((List.range p.count).map fun (o : ℕ) => memory (uint32 (p.src + o)))

namespace Running

variable {s s' t u : Running} {a i j k n : ℕ} {f : Fin nfile} {me : MmapEntry} {newsize : ℤ}

/-- What the write-back of one page takes into the file. -/
def backPieces (me : MmapEntry) (newsize : ℤ) (s : Running) (i : ℕ) : List Piece :=
  match me.file, s.page (uint32 (newsize + i) / 4096) with
  | some f, some page =>
      if page.writable = true ∧ s.Writes f ∧ i ≤ (s.inode (s.file f).ip).bytes.length then
        [⟨uint32 (newsize + i), i, room i⟩]
      else []
  | _, _ => []

/-- What the write-back loop takes into the file, page after page. -/
def backLog (me : MmapEntry) (newsize : ℤ) : List ℕ → Running → List Piece
  | [], _ => []
  | i :: rest, s =>
      backPieces me newsize s i ++ match writeLowPage me newsize s i with
        | none => []
        | some s => backLog me newsize rest s

private theorem backLog_append {offsets : List ℕ} (done : offsets.foldlM (writeLowPage me newsize) s = some t) (i : ℕ) :
    backLog me newsize (offsets ++ [i]) s = backLog me newsize offsets s ++ backPieces me newsize t i := by
  induction offsets generalizing s with
  | nil =>
    cases done
    rw [List.nil_append, backLog, backLog, List.nil_append]
    split
    · exact List.append_nil _
    · rw [backLog, List.append_nil]
  | cons j rest ih =>
    rw [List.foldlM_cons] at done
    obtain ⟨s₁, first, tail⟩ := Option.bind_eq_some_iff.mp done
    rw [List.cons_append, backLog, backLog, first]
    simp only
    rw [ih tail, List.append_assoc]

private theorem bytesAt_byte {bytes : List UInt8} (read : s.bytesAt a n = some bytes) :
    bytes = (List.range n).map fun (o : ℕ) => s.byte (uint32 (a + o)) := by
  have values {l : List ℕ} {out : List UInt8} (done : (l.mapM fun (o : ℕ) =>
      (s.page (uint32 (a + o) / 4096)).map (·.data (uint32 (a + o) % 4096))) = some out) :
      out = l.map fun (o : ℕ) => s.byte (uint32 (a + o)) := by
    induction l generalizing out with
    | nil =>
      cases done
      rfl
    | cons o rest ih =>
      rw [List.mapM_cons] at done
      obtain ⟨value, here, tail⟩ := Option.bind_eq_some_iff.mp done
      obtain ⟨later, mapped, pair⟩ := Option.bind_eq_some_iff.mp tail
      cases pair
      obtain ⟨page, present, rfl⟩ := Option.map_eq_some_iff.mp here
      rw [List.map_cons, ih mapped, byte_of_present present]
  exact values read

/-- What the loop leaves alone, and what it makes of the file. -/
structure Flushed (s : Running) (f : Fin nfile) (log : List Piece) (s' : Running) : Prop where
  task : s'.toTask = s.toTask
  file : ∀ g, s'.file g = { s.file g with off := (s'.file g).off }
  others : ∀ ip, ip ≠ (s.file f).ip → s'.inode ip = s.inode ip
  content : (s'.inode (s.file f).ip).bytes = log.foldl (Piece.write s.byte) (s.inode (s.file f).ip).bytes

theorem Flushed.refl (s : Running) (f : Fin nfile) : Flushed s f [] s := ⟨rfl, fun _ => rfl, fun _ _ => rfl, rfl⟩

theorem Flushed.trans {log log' : List Piece} (first : Flushed s f log t) (second : Flushed t f log' u) :
    Flushed s f (log ++ log') u := by
  have ip : (t.file f).ip = (s.file f).ip := by rw [first.file]
  have memory : t.byte = s.byte := byte_of_page (congrArg Task.page first.task)
  refine ⟨second.task.trans first.task, fun g => ?_, fun n other => ?_, ?_⟩
  · rw [second.file, first.file]
  · rw [second.others n (by rw [ip]; exact other), first.others n other]
  · rw [List.foldl_append, ← first.content, ← ip, second.content, memory]

theorem Flushed.writes {log : List Piece} (flushed : Flushed s f log t) : t.Writes f ↔ s.Writes f := by
  rw [Writes, Writes, flushed.file f]

/-- The write-back of one page. -/
private theorem writeLowPage_flushed (file : me.file = some f) (done : writeLowPage me newsize s i = some s') :
    Flushed s f (backPieces me newsize s i) s' := by
  simp only [writeLowPage] at done
  split at done
  · cases done
  · cases present : s.page (uint32 (newsize + i) / 4096) with
    | none =>
      rw [present] at done
      cases done
      rw [backPieces, file, present]
      exact .refl s f
    | some page =>
      simp only [present] at done
      simp only [backPieces, file, present]
      split at done
      case isFalse locked =>
        cases done
        rw [if_neg fun all => locked all.1]
        exact .refl s f
      case isTrue writable =>
        simp only [file, writeBack, Option.getD_some] at done
        rw [onKernel] at done
        split at done
        · cases done
        case h_2 k wrote =>
          cases done
          rcases Kernel.filewrite_spec wrote with ⟨refused, rfl⟩ | ⟨bytes, flag, type, read, rfl⟩
          · simp only [Kernel.setFile, Function.update_self] at refused
            have silent : ¬ s.Writes f := by
              rintro ⟨flag, type⟩
              rcases refused with locked | pipe
              · rw [flag] at locked
                cases locked
              · rw [type] at pipe
                cases pipe
            rw [if_neg fun all => silent all.2.1]
            refine ⟨rfl, fun g => ?_, fun _ _ => rfl, rfl⟩
            by_cases here : g = f
            · subst here
              simp [Kernel.setFile]
            · simp [Kernel.setFile, Function.update_of_ne here]
          · simp only [Kernel.setFile, Function.update_self] at flag type
            refine ⟨rfl, fun g => ?_, fun n other => ?_, ?_⟩
            · by_cases here : g = f
              · subst here
                simp [Kernel.setFile]
              · simp [Kernel.setFile, Function.update_of_ne here]
            · simp only [Kernel.setFile, Function.update_self, Function.update_of_ne other]
            · simp only [Kernel.setFile, Function.update_self, writable, true_and]
              rcases le_or_gt i (s.inode (s.file f).ip).bytes.length with within | beyond
              · rw [if_pos ⟨⟨flag, type⟩, within⟩, (writeLoop_page (bytesAt_length read) within).1, bytesAt_byte read]
                rw [List.foldl_cons, List.foldl_nil, Piece.write, ← List.map_take, List.take_range,
                  min_eq_left (room_le i)]
              · rw [if_neg fun all => absurd all.2 (Nat.not_le.mpr beyond), writeLoop_beyond _ beyond]
                rfl

/-- The piece that a page makes when it lands in the file. -/
def lowPiece (newsize : ℤ) (j : ℕ) : Piece := ⟨uint32 (newsize + (4096 * j : ℕ)), 4096 * j, room (4096 * j)⟩

/-- A page that the loop writes: it is present and writable. -/
def Dirty (s : Running) (newsize : ℤ) (j : ℕ) : Prop :=
  (s.page (uint32 (newsize + (4096 * j : ℕ)) / 4096)).any (·.writable) = true

instance (s : Running) (newsize : ℤ) (j : ℕ) : Decidable (s.Dirty newsize j) := inferInstanceAs (Decidable (_ = true))

/-- The file reaches a page: those before it that pass the end of the file are written. -/
def Reaches (dirty : ℕ → Prop) (length k : ℕ) : Prop :=
  4096 * k ≤ maxFile ∧ ∀ j < k, length < 4096 * (j + 1) → dirty j

/-- The loop over the first pages: what has landed in the file, and how long the file is. -/
structure Flushing (s : Running) (me : MmapEntry) (f : Fin nfile) (newsize : ℤ) (k : ℕ) (t : Running) : Prop where
  flushed : Flushed s f (backLog me newsize ((List.range k).map (4096 * ·)) s) t
  log : ∀ p, p ∈ backLog me newsize ((List.range k).map (4096 * ·)) s ↔ s.Writes f ∧ ∃ j < k,
    s.Dirty newsize j ∧ Reaches (s.Dirty newsize) (s.inode (s.file f).ip).bytes.length j ∧
      p = lowPiece newsize j
  low : (s.inode (s.file f).ip).bytes.length ≤ (t.inode (s.file f).ip).bytes.length
  high : (t.inode (s.file f).ip).bytes.length ≤ max (s.inode (s.file f).ip).bytes.length (4096 * k)
  reach : s.Writes f → (4096 * k ≤ (t.inode (s.file f).ip).bytes.length ↔
    Reaches (s.Dirty newsize) (s.inode (s.file f).ip).bytes.length k)

private theorem reaches_succ {dirty : ℕ → Prop} {length : ℕ} : Reaches dirty length (k + 1) ↔
    4096 * (k + 1) ≤ maxFile ∧ Reaches dirty length k ∧ (length < 4096 * (k + 1) → dirty k) := by
  constructor
  · rintro ⟨small, all⟩
    exact ⟨small, ⟨by omega, fun j below => all j (by omega)⟩, all k (by omega)⟩
  · rintro ⟨small, ⟨_, all⟩, last⟩
    refine ⟨small, fun j below beyond => ?_⟩
    rcases Nat.lt_succ_iff_lt_or_eq.mp below with earlier | rfl
    · exact all j earlier beyond
    · exact last beyond

theorem Flushing.refl (s : Running) (me : MmapEntry) (f : Fin nfile) (newsize : ℤ) : Flushing s me f newsize 0 s where
  flushed := .refl s f
  log p := by
    constructor
    · intro member
      cases member
    · rintro ⟨_, j, below, _⟩
      omega
  low := le_rfl
  high := le_max_left ..
  reach _ := by
    refine ⟨fun _ => ⟨by decide, fun j below => ?_⟩, fun _ => Nat.zero_le _⟩
    omega

/-- The pieces of a page, in terms of the state before the loop. -/
private theorem backPieces_eq (newsize : ℤ) (file : me.file = some f) {log : List Piece} (flushed : Flushed s f log t) (k : ℕ) :
    backPieces me newsize t (4096 * k) =
      if s.Dirty newsize k ∧ s.Writes f ∧ 4096 * k ≤ (t.inode (s.file f).ip).bytes.length then
        [lowPiece newsize k]
      else [] := by
  have page : s.page = t.page := (congrArg Task.page flushed.task).symm
  have ip : (t.file f).ip = (s.file f).ip := by rw [flushed.file]
  simp only [backPieces, file, Dirty, page, lowPiece]
  cases t.page (uint32 (newsize + (4096 * k : ℕ)) / 4096) with
  | none => simp
  | some page => simp only [flushed.writes, ip, Option.any_some]

/-- One more page. -/
theorem Flushing.step (file : me.file = some f) (now : Flushing s me f newsize k t)
    (done : writeLowPage me newsize t (4096 * k) = some u) (fold : ((List.range k).map (4096 * ·)).foldlM
      (writeLowPage me newsize) s = some t) : Flushing s me f newsize (k + 1) u := by
  have piece := writeLowPage_flushed file done
  have flushed := now.flushed.trans piece
  have ip : (t.file f).ip = (s.file f).ip := by rw [now.flushed.file]
  have log : backLog me newsize ((List.range (k + 1)).map (4096 * ·)) s =
      backLog me newsize ((List.range k).map (4096 * ·)) s ++ backPieces me newsize t (4096 * k) := by
    rw [List.range_succ, List.map_append, List.map_singleton, backLog_append fold]
  have content := piece.content
  have pieces := backPieces_eq newsize file now.flushed k
  have bound := (u.inode (s.file f).ip).bound
  rw [ip] at content
  have low := now.low
  have high := now.high
  by_cases lands : s.Dirty newsize k ∧ s.Writes f ∧ 4096 * k ≤ (t.inode (s.file f).ip).bytes.length
  · obtain ⟨dirty, writes, within⟩ := lands
    have reached := (now.reach writes).mp within
    rw [if_pos ⟨dirty, writes, within⟩] at pieces
    have length : (u.inode (s.file f).ip).bytes.length =
        max (t.inode (s.file f).ip).bytes.length (4096 * k + room (4096 * k)) := by
      rw [content, pieces, List.foldl_cons, List.foldl_nil, Piece.write, lowPiece, length_splice within,
        List.length_map, List.length_range]
    have le := room_le (4096 * k)
    refine ⟨log ▸ flushed, fun p => ?_, by omega, by omega, fun _ => ?_⟩
    · rw [log, List.mem_append, now.log, pieces, List.mem_singleton]
      constructor
      · rintro (⟨_, j, below, all⟩ | rfl)
        · exact ⟨writes, j, by omega, all⟩
        · exact ⟨writes, k, by omega, dirty, reached, rfl⟩
      · rintro ⟨_, j, below, all⟩
        rcases Nat.lt_succ_iff_lt_or_eq.mp below with earlier | rfl
        · exact .inl ⟨writes, j, earlier, all⟩
        · exact .inr all.2.2
    · rw [reaches_succ, length]
      constructor
      · intro
        exact ⟨by omega, reached, fun _ => dirty⟩
      · rintro ⟨small, _⟩
        have whole : room (4096 * k) = 4096 := by
          rw [room, if_pos (by omega)]
        omega
  · rw [if_neg lands] at pieces
    rw [pieces, List.foldl_nil] at content
    have length := congrArg List.length content
    refine ⟨log ▸ flushed, fun p => ?_, by omega, by omega, fun writes => ?_⟩
    · rw [log, pieces, List.append_nil, now.log]
      constructor
      · rintro ⟨writes, j, below, all⟩
        exact ⟨writes, j, by omega, all⟩
      · rintro ⟨writes, j, below, dirty, reached, same⟩
        rcases Nat.lt_succ_iff_lt_or_eq.mp below with earlier | rfl
        · exact ⟨writes, j, earlier, dirty, reached, same⟩
        · exact absurd ⟨dirty, writes, (now.reach writes).mpr reached⟩ lands
    · rw [reaches_succ, length]
      constructor
      · intro passed
        refine ⟨by omega, (now.reach writes).mp (by omega), fun beyond => ?_⟩
        omega
      · rintro ⟨_, reached, last⟩
        by_contra short
        exact lands ⟨last (by omega), writes, (now.reach writes).mpr reached⟩

/-- The loop over the first pages. -/
private theorem writeLow_flushing (file : me.file = some f) (done : ((List.range k).map (4096 * ·)).foldlM
    (writeLowPage me newsize) s = some t) : Flushing s me f newsize k t := by
  induction k generalizing t with
  | zero =>
    cases done
    exact .refl s me f newsize
  | succ k ih =>
    rw [List.range_succ, List.map_append, List.map_singleton, List.foldlM_append] at done
    obtain ⟨t₁, before, last⟩ := Option.bind_eq_some_iff.mp done
    rw [List.foldlM_cons] at last
    obtain ⟨u, written, same⟩ := Option.bind_eq_some_iff.mp last
    cases same
    exact (ih before).step file written before

private theorem wremap_positive {oldaddr flags : ℕ} {oldsize : ℤ} {input : ℕ → ℕ → UInt8}
    (done : s.wremap oldaddr oldsize newsize flags input = some (s', some a)) : 0 < newsize := by
  by_contra empty
  rw [wremap_refused (.inl (by omega))] at done
  cases done

/-- What a move takes into the file. -/
def moveLog (s : Running) (me : MmapEntry) (frame newaddr : ℕ) (newsize : ℤ) (input : ℕ → ℕ → UInt8) : List Piece :=
  match (s.begun (newEntry me frame newaddr newsize)).memmove newaddr me.addr (uint32 me.length) input with
  | none => []
  | some s =>
      if isPrivate me.flags = false ∧ isShared me.flags then backLog me newsize ((Region.offsets ⟨0, newsize⟩).getD []) s
      else []

/-- What `sys_wremap` takes into the file. -/
def wremapLog (s : Running) (oldaddr : ℕ) (oldsize newsize : ℤ) (flags : ℕ) (input : ℕ → ℕ → UInt8) : List Piece :=
  if newsize ≤ 0 then []
  else match s.mmaps.find? fun me => me.addr = oldaddr ∧ me.length = oldsize with
    | none => []
    | some me =>
        let i := s.mmaps.findIdx fun me => me.addr = oldaddr ∧ me.length = oldsize
        if mustMove s.regions i me.toRegion newsize = false ∨ mayMove flags = false then []
        else match findAddr s.regions newsize with
          | none => []
          | some newaddr =>
              if uint32 (newaddr + newsize) > searchLimit then []
              else match s.kalloc with
                | none => []
                | some (frame, s) => s.moveLog me frame newaddr newsize input

/-- The page at `newsize + i` is present and writable, or the copy brings it. -/
def Exposed (s : Running) (me : MmapEntry) (newaddr : ℕ) (newsize : ℤ) (j : ℕ) : Prop :=
  match s.page (uint32 (newsize + (4096 * j : ℕ)) / 4096) with
  | some page => page.writable = true
  | none => Touched me.addr newaddr (uint32 me.length) (uint32 (newsize + (4096 * j : ℕ)) / 4096)

section Moved

variable {oldaddr flags newaddr frame : ℕ} {oldsize : ℤ} {input : ℕ → ℕ → UInt8} {s₁ : Running}

/-- After the copy a page is present and writable if it was, or if the copy has brought it. -/
theorem Copying.dirty_iff {n : ℕ} {before : Running}
    (copying : Copying before me input me.addr newaddr n (uint32 me.length) t)
    (same : before.page = s.page) (j : ℕ) : t.Dirty newsize j ↔ s.Exposed me newaddr newsize j := by
  rw [Dirty, Exposed]
  cases before : s.page (uint32 (newsize + (4096 * j : ℕ)) / 4096) with
  | some page =>
    obtain ⟨page', present, writable⟩ := copying.kept _ page (by rw [same, before])
    rw [present, Option.any_some, writable]
  | none =>
    constructor
    · intro dirty
      obtain ⟨page, present, _⟩ := (Option.any_eq_true _ _).mp dirty
      exact (copying.fresh _ page (by rw [same, before]) present).2.2
    · intro touched
      obtain ⟨page, present⟩ := Option.isSome_iff_exists.mp (copying.there _ touched)
      rw [present, Option.any_some]
      exact (copying.fresh _ page (by rw [same, before]) present).1

theorem Moving.dirty_iff (moving : Moving s i me newaddr newsize input frame s₁ t u s') (j : ℕ) :
    t.Dirty newsize j ↔ s.Exposed me newaddr newsize j :=
  moving.copying.dirty_iff (congrArg Task.page (kalloc_task moving.allocated) :) j

theorem Moving.files (moving : Moving s i me newaddr newsize input frame s₁ t u s') : SameFiles s t := by
  have first := (kalloc_free moving.allocated).2
  have second := moving.copying.frame.files
  exact first.trans ⟨second.inode, second.file⟩

/-- The write-back of a move. -/
theorem Moving.flushing (moving : Moving s i me newaddr newsize input frame s₁ t u s') (file : me.file = some f)
    (shared : isPrivate me.flags = false ∧ isShared me.flags) (positive : 0 < newsize) (range : IsInt newsize) :
    s₁.moveLog me frame newaddr newsize input =
        backLog me newsize ((List.range ((newsize.toNat + 4095) / 4096)).map (4096 * ·)) t ∧
      Flushing t me f newsize ((newsize.toNat + 4095) / 4096) u := by
  obtain ⟨_, _⟩ := range
  have size : uint32 newsize = newsize.toNat := by
    rw [uint32]
    omega
  have offsets : Region.offsets ⟨0, newsize⟩ = some ((List.range ((newsize.toNat + 4095) / 4096)).map (4096 * ·)) := by
    rw [Region.offsets, if_neg (by simp only [size]; omega), size]
  have flushed := moving.flushed
  rw [if_pos shared, forPages, offsets] at flushed
  refine ⟨?_, writeLow_flushing file flushed⟩
  rw [moveLog, moving.copied]
  simp only [if_pos shared, offsets, Option.getD_some]

theorem Moving.log (moving : Moving s i me newaddr newsize input frame s₁ t u s') (positive : 0 < newsize)
    (target : s.Target oldaddr oldsize i me) (done : s.wremap oldaddr oldsize newsize flags input = some (s', some a)) :
    s.wremapLog oldaddr oldsize newsize flags input = s₁.moveLog me frame newaddr newsize input := by
  have free : mayMove flags = true := by
    by_contra bound
    rw [Bool.not_eq_true] at bound
    rw [wremap_bound positive target moving.moves bound] at done
    cases done
  obtain ⟨found, index⟩ := target
  have moves := moving.moves
  rw [index] at moves
  simp only [wremapLog, if_neg (not_le.mpr positive), found, moves, free, moving.searched, if_neg moving.fits,
    moving.allocated, Bool.true_eq_false, or_self, if_false]

end Moved

section Faithful

variable {oldaddr flags newaddr : ℕ} {oldsize : ℤ} {input : ℕ → ℕ → UInt8}

/-- The address holds the byte of the mapping at an offset, at its old place or at its new one. -/
def OwnByte (me : MmapEntry) (newaddr : ℕ) (newsize : ℤ) (b off : ℕ) : Prop :=
  (b = me.addr + off ∧ off < me.length) ∨ (b = newaddr + off ∧ off < newsize)

/-- Every byte that lands in the file is one of the mapping, at its own offset. -/
def AllOwn (me : MmapEntry) (newaddr : ℕ) (newsize : ℤ) (log : List Piece) : Prop :=
  ∀ p ∈ log, ∀ o < p.count, OwnByte me newaddr newsize (uint32 (p.src + (o : ℤ))) (p.off + o)

/-- The page at `newsize + i` is one of the mapping, at its own offset and up to its end. -/
def OwnPage (me : MmapEntry) (newaddr : ℕ) (newsize : ℤ) (j : ℕ) : Prop :=
  (newsize = me.addr ∧ (4096 * j + room (4096 * j) : ℕ) ≤ me.length) ∨
    (newsize = newaddr ∧ (4096 * j + room (4096 * j) : ℕ) ≤ newsize)

/-- No page outside the mapping is at an address `newsize + i` where the write-back finds it and the file reaches
it. -/
def Unexposed (s : Running) (me : MmapEntry) (f : Fin nfile) (newaddr : ℕ) (newsize : ℤ) : Prop :=
  s.Writes f → ∀ j : ℕ, (4096 * j : ℕ) < newsize → s.Exposed me newaddr newsize j →
    Reaches (s.Exposed me newaddr newsize) (s.inode (s.file f).ip).bytes.length j → OwnPage me newaddr newsize j

private theorem Moving.mem_log {frame : ℕ} {s₁ : Running} (moving : Moving s i me newaddr newsize input frame s₁ t u s')
    (file : me.file = some f) (shared : isPrivate me.flags = false ∧ isShared me.flags) (positive : 0 < newsize)
    (range : IsInt newsize) (p : Piece) : p ∈ s₁.moveLog me frame newaddr newsize input ↔ s.Writes f ∧
      ∃ j : ℕ, (4096 * j : ℕ) < newsize ∧ s.Exposed me newaddr newsize j ∧
        Reaches (s.Exposed me newaddr newsize) (s.inode (s.file f).ip).bytes.length j ∧
        p = lowPiece newsize j := by
  obtain ⟨log, flushing⟩ := moving.flushing file shared positive range
  have files := moving.files
  have dirty : t.Dirty newsize = s.Exposed me newaddr newsize := funext fun j => propext (moving.dirty_iff j)
  have writes : t.Writes f ↔ s.Writes f := by rw [Writes, Writes, files.file f]
  have ip : (t.file f).ip = (s.file f).ip := by rw [files.file f]
  have below (j : ℕ) : j < (newsize.toNat + 4095) / 4096 ↔ (4096 * j : ℕ) < newsize := by omega
  rw [log, flushing.log, writes, dirty, files.inode, ip]
  simp only [below]

/-- A page that lands in the file puts bytes of the mapping there only if it is a page of the mapping. -/
theorem ownPage_iff {length : ℕ} {dirty : ℕ → Prop} (reached : Reaches dirty length j) (inside : (4096 * j : ℕ) < newsize)
    (range : IsInt newsize) : (∀ o < (lowPiece newsize j).count,
      OwnByte me newaddr newsize (uint32 ((lowPiece newsize j).src + (o : ℤ))) ((lowPiece newsize j).off + o)) ↔
      OwnPage me newaddr newsize j := by
  obtain ⟨_, _⟩ := range
  have small := reached.1
  simp only [maxFile] at small
  have some : 0 < room (4096 * j) := by
    unfold room maxFile
    split_ifs <;> omega
  have le := room_le (4096 * j)
  have address (o : ℕ) (below : o < room (4096 * j)) :
      (uint32 ((uint32 (newsize + (4096 * j : ℕ)) : ℤ) + (o : ℕ)) : ℤ) = newsize + (4096 * j + o : ℕ) := by
    rw [uint32, uint32]
    omega
  simp only [lowPiece]
  constructor
  · intro all
    have last := all (room (4096 * j) - 1) (by omega)
    have here := address (room (4096 * j) - 1) (by omega)
    rcases last with ⟨same, within⟩ | ⟨same, within⟩
    · exact .inl ⟨by omega, by omega⟩
    · exact .inr ⟨by omega, by omega⟩
  · rintro own o below
    have here := address o below
    rcases own with ⟨same, within⟩ | ⟨same, within⟩
    · exact .inl ⟨by omega, by omega⟩
    · exact .inr ⟨by omega, by omega⟩

end Faithful

end Running

open Running in
/-- The log of a move is what has changed: the file is overwritten with its pieces, and no other file changes. -/
private theorem wremap_writes {s s' : Running} (exclusive : Exclusive s.regions) {oldaddr flags newaddr i : ℕ}
    {oldsize newsize : ℤ} {input : ℕ → ℕ → UInt8} {me : MmapEntry} {f : Fin nfile} (small : oldaddr < 2 ^ 32)
    (range : IsInt oldsize) (range' : IsInt newsize) (target : s.Target oldaddr oldsize i me)
    (shared : isPrivate me.flags = false ∧ isShared me.flags) (file : me.file = some f)
    (done : s.wremap oldaddr oldsize newsize flags input = some (s', some newaddr)) (moved : newaddr ≠ oldaddr) :
    (s'.inode (s.file f).ip).bytes = (s.wremapLog oldaddr oldsize newsize flags input).foldl (Piece.write s'.byte)
        (s.inode (s.file f).ip).bytes ∧
      ∀ ip, ip ≠ (s.file f).ip → s'.inode ip = s.inode ip := by
  obtain ⟨frame, s₁, t, u, moving⟩ := wremap_moving exclusive small range range' target done moved
  have positive := wremap_positive done
  obtain ⟨log, flushing⟩ := moving.flushing file shared positive range'
  have files := moving.files
  have flushed := flushing.flushed
  have ip : (t.file f).ip = (s.file f).ip := by rw [files.file f]
  have inode : s'.inode = u.inode := by
    rw [moving.task]
    rfl
  have memory : s'.byte = t.byte := by
    have same : u.byte = t.byte := byte_of_page (congrArg Task.page flushed.task)
    rw [moving.task]
    exact same
  rw [moving.log positive target done, log, inode, memory, ← ip, flushed.content, files.inode]
  exact ⟨rfl, fun n other => by rw [flushed.others n other, files.inode]⟩

open Running in
/-- For a mapping in the area of mappings: a page of the process must not be present and writable at `newsize + i`
up to the end of the file. -/
theorem unexposed_iff {s : Running} {me : MmapEntry} {f : Fin nfile} {newaddr : ℕ} {newsize : ℤ}
    (inside : me.toRegion.Inside) (positive : 0 < newsize) (low : searchBase ≤ newaddr)
    (high : newaddr + newsize ≤ searchLimit) : s.Unexposed me f newaddr newsize ↔
      (s.Writes f → ∀ j : ℕ, (4096 * j : ℕ) < newsize → 4096 * j ≤ (s.inode (s.file f).ip).bytes.length →
        ¬ s.Dirty newsize j) := by
  have start := inside.low
  have limit := inside.high
  have bound := (s.inode (s.file f).ip).bound
  simp only [searchBase, searchLimit] at low high start limit
  have exposed (j : ℕ) (within : (4096 * j : ℕ) < newsize) : s.Exposed me newaddr newsize j ↔ s.Dirty newsize j := by
    have below : uint32 (newsize + (4096 * j : ℕ)) < 0x40000000 := by
      rw [uint32]
      omega
    rw [Exposed, Dirty]
    cases s.page (uint32 (newsize + (4096 * j : ℕ)) / 4096) with
    | some page => simp
    | none =>
      simp only [Option.any_none, Bool.false_eq_true, iff_false]
      rintro ⟨o, _, touched⟩
      omega
  have foreign (j : ℕ) : ¬ OwnPage me newaddr newsize j := by
    rintro (⟨same, _⟩ | ⟨same, _⟩) <;> omega
  constructor
  · intro unexposed writes j within reached dirty
    refine foreign j (unexposed writes j within ((exposed j within).mpr dirty) ⟨by omega, fun k before passes => ?_⟩)
    omega
  · intro clean writes j within found reached
    -- The file grows to the page only over an earlier one that it already reaches.
    by_cases here : 4096 * j ≤ (s.inode (s.file f).ip).bytes.length
    · exact absurd ((exposed j within).mp found) (clean writes j within here)
    · have first := reached.2 ((s.inode (s.file f).ip).bytes.length / 4096) (by omega) (by omega)
      have within' : (4096 * ((s.inode (s.file f).ip).bytes.length / 4096) : ℕ) < newsize := by omega
      exact absurd ((exposed _ within').mp first) (clean writes _ within' (by omega))

open Running in
/-- A move of a shared mapping copies its bytes, and it takes only its bytes into the file if and only if no other
page is where the write-back looks. -/
theorem moved_faithfully_iff {s s' : Running} (exclusive : Exclusive s.regions) {oldaddr flags newaddr i : ℕ}
    {oldsize newsize : ℤ} {input : ℕ → ℕ → UInt8} {me : MmapEntry} {f : Fin nfile} (small : oldaddr < 2 ^ 32)
    (range : IsInt oldsize) (range' : IsInt newsize) (target : s.Target oldaddr oldsize i me)
    (shared : isPrivate me.flags = false ∧ isShared me.flags) (file : me.file = some f)
    (done : s.wremap oldaddr oldsize newsize flags input = some (s', some newaddr)) (moved : newaddr ≠ oldaddr) :
    ((∀ k : ℕ, k < oldsize → ∃ byte, s.Sees (oldaddr + k) input byte ∧ s'.Sees (newaddr + k) input byte) ∧
        AllOwn me newaddr newsize (s.wremapLog oldaddr oldsize newsize flags input)) ↔
      s.Unexposed me f newaddr newsize := by
  obtain ⟨frame, s₁, t, u, moving⟩ := wremap_moving exclusive small range range' target done moved
  have positive := wremap_positive done
  obtain ⟨rfl, rfl⟩ := target.asked
  have log := moving.log positive target done
  have member := moving.mem_log file shared positive range'
  obtain ⟨_, flushing⟩ := moving.flushing file shared positive range'
  rw [log]
  constructor
  · rintro ⟨_, own⟩ writes j inside exposed reached
    refine (ownPage_iff reached inside range').mp fun o below => ?_
    exact own _ ((member _).mpr ⟨writes, j, inside, exposed, reached, rfl⟩) o below
  · intro unexposed
    refine ⟨fun k inside => ?_, fun p listed o below => ?_⟩
    · have low := (findAddr_clear moving.searched (Nat.not_lt.mp moving.fits)).2.1
      obtain ⟨page, present, user, sees⟩ := moving.bytes exclusive target.here small low inside
      refine ⟨_, sees, sees_of_present user ?_⟩
      rw [moving.task, ← present, ← congrArg Task.page flushing.flushed.task]
      rfl
    · obtain ⟨writes, j, inside, exposed, reached, rfl⟩ := (member p).mp listed
      exact (ownPage_iff reached inside range').mpr (unexposed writes j inside exposed reached) o below

/-- A process that has opened a file of one byte. -/
def fileProcess : Running :=
  { blankProcess with
    ofile := Function.update blankProcess.ofile 0 (some 0)
    file := Function.update blankProcess.file 0 ⟨.inode, 1, true, true, 1, 0⟩
    inode := Function.update blankProcess.inode 1 ⟨[7], by decide⟩
    free := [1, 2, 3, 4, 5, 6, 7, 8] }

/-- The same with a page of its heap, at address 8192. -/
def heapProcess : Running :=
  { fileProcess with page := Function.update fileProcess.page 2 (some ⟨fun _ => 42, true, 9⟩) }

/-- A shared mapping of the file, and a mapping behind it. -/
def fileAndNext : List Action := [.wmap 0 1 2 0, .wmap 0 4096 6 (-1)]

private theorem fileProcess_blank : wmapMachine.init fileProcess := ⟨rfl, fun _ _ => rfl⟩

private theorem heapProcess_blank : wmapMachine.init heapProcess := by
  refine ⟨rfl, fun v high => Function.update_of_ne ?_ _ _⟩
  rintro rfl
  exact absurd high (by decide)

open Running in
/-- Without that page, the same move takes only bytes of the mapping into the file. -/
theorem moved_faithfully_file : ∃ s s' : Running, wmapMachine.Reachable s ∧
    s.wremap 0x60000000 1 8192 1 (fun _ _ => 0) = some (s', some 0x60002000) ∧
    (∃ byte, s.Sees 0x60000000 (fun _ _ => 0) byte ∧ s'.Sees 0x60002000 (fun _ _ => 0) byte) ∧
    ∃ me, AllOwn me 0x60002000 8192 (s.wremapLog 0x60000000 1 8192 1 fun _ _ => 0) := by
  have run : (wmapMachine.run fileProcess fileAndNext).map (fun s => decide
      ((s.mmaps.find? fun me => me.addr = 0x60000000 ∧ me.length = 1).map (fun me => (me.addr, me.flags, me.file)) =
          some (0x60000000, 2, some 0) ∧
        (s.wremap 0x60000000 1 8192 1 fun _ _ => 0).map (·.2) = some (some 0x60002000) ∧
        (s.page 2).isNone ∧ (s.page 3).isNone)) = some true := by decide +kernel
  obtain ⟨s, run, facts⟩ := Option.map_eq_some_iff.mp run
  obtain ⟨entry, called, second, third⟩ := of_decide_eq_true facts
  obtain ⟨me, found, entry⟩ := Option.map_eq_some_iff.mp entry
  simp only [Prod.mk.injEq] at entry
  obtain ⟨addr, flags, file⟩ := entry
  obtain ⟨⟨s', result⟩, done, rfl⟩ := Option.map_eq_some_iff.mp called
  have reached := Machine.reachable_of_run wmapMachine fileProcess_blank _ run
  have target : s.Target 0x60000000 1 _ me := ⟨found, rfl⟩
  have shared : isPrivate me.flags = false ∧ isShared me.flags := by
    rw [flags]
    decide
  have unexposed : s.Unexposed me 0 0x60002000 8192 := by
    intro _ j inside exposed _
    have number : uint32 (8192 + (4096 * j : ℕ)) / 4096 = 2 + j := by
      rw [uint32]
      omega
    have page : s.page (2 + j) = none := by
      rcases (by omega : j = 0 ∨ j = 1) with rfl | rfl
      · exact Option.isNone_iff_eq_none.mp second
      · exact Option.isNone_iff_eq_none.mp third
    rw [Exposed, number, page] at exposed
    obtain ⟨o, _, touched⟩ := exposed
    omega
  obtain ⟨bytes, own⟩ := (moved_faithfully_iff (exclusive_of_reachable reached) (by decide) ⟨by decide, by decide⟩
    ⟨by decide, by decide⟩ target shared file done (by decide)).mpr unexposed
  exact ⟨s, s', reached, done, bytes 0 (by decide), me, own⟩

open Running in
/-- The mapping grows to two pages and moves, and a page of the heap becomes the content of the file. -/
theorem move_leaks_heap : ∃ s, wmapMachine.Reachable s ∧ ∃ i me f s', s.Target 0x60000000 1 i me ∧
    (isPrivate me.flags = false ∧ isShared me.flags) ∧ me.file = some f ∧
    s.wremap 0x60000000 1 8192 1 (fun _ _ => 0) = some (s', some 0x60002000) ∧
    (∀ r ∈ s.regions, r.contains 8192 = false) ∧ s.byte 8192 = 42 ∧
    (s.inode (s.file f).ip).bytes = [7] ∧ (s'.inode (s.file f).ip).bytes[0]? = some 42 ∧
    ¬ AllOwn me 0x60002000 8192 (s.wremapLog 0x60000000 1 8192 1 fun _ _ => 0) := by
  have run : (wmapMachine.run heapProcess fileAndNext).map (fun s => decide
      ((s.mmaps.find? fun me => me.addr = 0x60000000 ∧ me.length = 1).map (fun me => (me.addr, me.flags, me.file)) =
          some (0x60000000, 2, some 0) ∧
        (s.wremap 0x60000000 1 8192 1 fun _ _ => 0).map (fun r => (r.2, r.1.byte 8192)) = some (some 0x60002000, 42) ∧
        s.wremapLog 0x60000000 1 8192 1 (fun _ _ => 0) = [⟨8192, 0, 4096⟩] ∧ (s.file 0).ip = 1 ∧
        (s.inode 1).bytes = [7] ∧ (∀ r ∈ s.regions, r.contains 8192 = false) ∧ s.byte 8192 = 42)) = some true := by
    decide +kernel
  obtain ⟨s, run, facts⟩ := Option.map_eq_some_iff.mp run
  obtain ⟨entry, called, log, ip, before, outside, heap⟩ := of_decide_eq_true facts
  obtain ⟨me, found, entry⟩ := Option.map_eq_some_iff.mp entry
  simp only [Prod.mk.injEq] at entry
  obtain ⟨addr, flags, file⟩ := entry
  obtain ⟨⟨s', result⟩, done, pair⟩ := Option.map_eq_some_iff.mp called
  simp only [Prod.mk.injEq] at pair
  obtain ⟨rfl, later⟩ := pair
  have reached := Machine.reachable_of_run wmapMachine heapProcess_blank _ run
  have target : s.Target 0x60000000 1 _ me := ⟨found, rfl⟩
  have shared : isPrivate me.flags = false ∧ isShared me.flags := by
    rw [flags]
    decide
  obtain ⟨content, _⟩ := wremap_writes (exclusive_of_reachable reached) (by decide) ⟨by decide, by decide⟩
    ⟨by decide, by decide⟩ target shared file done (by decide)
  rw [ip, before, log, List.foldl_cons, List.foldl_nil, Piece.write] at content
  have address : uint32 ((8192 : ℕ) + ((0 : ℕ) : ℤ)) = 8192 := by
    rw [uint32]
    rfl
  refine ⟨s, reached, _, me, 0, s', target, shared, file, done, outside, heap, ?_, ?_, ?_⟩
  · rw [ip]
    exact before
  · rw [ip, content, getElem?_splice (Nat.zero_le _), if_neg (by decide), if_pos (by simp), List.getElem?_map,
      List.getElem?_range (by decide), Option.map_some, address]
    exact congrArg some later
  · rw [log]
    intro own
    rcases own _ (List.mem_singleton.mpr rfl) 0 (by decide) with ⟨same, _⟩ | ⟨same, _⟩
    · rw [address, addr] at same
      omega
    · rw [address] at same
      omega

end Cs537.Wmap
