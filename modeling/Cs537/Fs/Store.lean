import Cs537.Fs.Truncate
import Cs537.Lib.Machine
import Cs537.Wmap.Files

/-! # The file layer as a store of byte strings

The calls of the file layer run one after the other on any inodes; between two calls the inode cache may
forget what it holds. What a caller sees is a table of byte strings: a write replaces a stretch of one of
them, a truncation empties one, a read changes nothing. On disk the table is spread over blocks that are
shared by nobody. The contents that the mappings of `wmap` read and write back are these strings.
-/

namespace Cs537.Fs

open Cs537.Lib

/-- The disk and the inodes that are valid in memory. -/
structure Store where
  disk : Disk
  icache : ℕ → Option Inode

/-- What `ilock` finds: the inode in memory, or else the one on disk, which has to have a type. -/
def Store.ilock (sb : Superblock) (s : Store) (j : ℕ) : Except String Inode :=
  match s.icache j with
  | some ip => .ok ip
  | none => if (readInode sb s.disk j).type = 0 then .error "ilock: no type" else .ok (readInode sb s.disk j)

/-- The type of an inode, in memory or else on disk. -/
def Store.type (sb : Superblock) (s : Store) (j : ℕ) : ℕ := ((s.icache j).getD (readInode sb s.disk j)).type

/-- The calls, with the inode number, and the loss of an inode from memory. -/
inductive Call
  | readi (j off n : ℕ) (console : Option (List UInt8))
  | writei (j off : ℕ) (src : List UInt8) (console : Option ℕ)
  | itrunc (j : ℕ)
  | forget (j : ℕ)

/-- What a call leaves, unless it panics. -/
def Store.after {ρ : Type} (s : Store) (j : ℕ) : Except String (Disk × Inode × ρ) → Option Store
  | .ok (d, ip, _) => some ⟨d, Function.update s.icache j (some ip)⟩
  | .error _ => none

/-- One call on a locked inode; offsets and lengths are of type `uint`. -/
def Store.call (sb : Superblock) (s : Store) : Call → Option Store
  | .readi j off n console =>
    if j < sb.ninodes ∧ off < 2 ^ 32 ∧ n < 2 ^ 32 then
      s.after j (s.ilock sb j >>= fun ip => Fs.readi sb s.disk ip off n console)
    else none
  | .writei j off src console =>
    if j < sb.ninodes ∧ off < 2 ^ 32 ∧ src.length < 2 ^ 32 then
      s.after j (s.ilock sb j >>= fun ip => Fs.writei sb s.disk j ip off src console)
    else none
  | .itrunc j =>
    if j < sb.ninodes then
      s.after j (s.ilock sb j >>= fun ip => (Fs.itrunc sb s.disk j ip).map fun (d, ip) => (d, ip, ()))
    else none
  | .forget j => some { s with icache := Function.update s.icache j none }

/-- The file layer over a disk on which nothing is cached yet. -/
def storeMachine (L : Layout) : Machine Store Call where
  init s := Proper L s.disk ∧ s.icache = fun _ => none
  step s := s.call L.toSuperblock

/-- A write is not to a device. -/
def ForFile (L : Layout) (s : Store) : Call → Prop
  | .writei j _ _ _ => s.type L.toSuperblock j ≠ T_DEV
  | .readi _ _ _ _ | .itrunc _ | .forget _ => True

instance (L : Layout) (s : Store) (c : Call) : Decidable (ForFile L s c) := match c with
  | .writei _ _ _ _ => inferInstanceAs (Decidable (_ ≠ _))
  | .readi _ _ _ _ => .isTrue trivial
  | .itrunc _ => .isTrue trivial
  | .forget _ => .isTrue trivial

/-- What a call is for. -/
def specify (files : ℕ → List UInt8) : Call → ℕ → List UInt8
  | .readi _ _ _ _ => files
  | .writei j off src _ =>
    if off ≤ (files j).length ∧ off + src.length ≤ MAXFILE * BSIZE then
      Function.update files j (splice (files j) off src)
    else files
  | .itrunc j => Function.update files j []
  | .forget _ => files

variable {L : Layout} {s t : Store} {c : Call}

/-- Inodes in memory are as on disk. -/
structure Kept (L : Layout) (s : Store) : Prop where
  proper : Proper L s.disk
  through : ∀ j ip, s.icache j = some ip → j < L.ninodes → ip = onDisk L.toSuperblock s.disk j

theorem Kept.type (kept : Kept L s) {j : ℕ} (inside : j < L.ninodes) :
    s.type L.toSuperblock j = (onDisk L.toSuperblock s.disk j).type := by
  rw [Store.type]
  cases cached : s.icache j with
  | none => rw [onDisk, if_pos inside, Option.getD_none]
  | some ip => rw [Option.getD_some, kept.through j ip cached inside]

theorem Kept.ilock (kept : Kept L s) {j : ℕ} {ip : Inode} (inside : j < L.ninodes)
    (locked : s.ilock L.toSuperblock j = .ok ip) : ip = onDisk L.toSuperblock s.disk j := by
  rw [Store.ilock] at locked
  cases cached : s.icache j with
  | none =>
    rw [cached] at locked
    dsimp only at locked
    split_ifs at locked
    cases locked
    exact (if_pos inside).symm
  | some ip' =>
    rw [cached] at locked
    cases locked
    exact kept.through j ip cached inside

theorem Store.of_after {ρ : Type} {j : ℕ} {x : Except String Inode} {f : Inode → Except String (Disk × Inode × ρ)}
    (done : s.after j (x >>= f) = some t) : ∃ ip, x = .ok ip ∧ s.after j (f ip) = some t := by
  cases x with
  | error e => cases done
  | ok ip => exact ⟨ip, rfl, done⟩

theorem readi_file {sb : Superblock} {d : Disk} {ip : Inode} {off n : ℕ} {console : Option (List UInt8)}
    (file : ip.type ≠ T_DEV) :
    readi sb d ip off n console = readData sb d ip off n := if_neg file

theorem writei_file {sb : Superblock} {d : Disk} {ip : Inode} {j off : ℕ} {src : List UInt8} {console : Option ℕ}
    (file : ip.type ≠ T_DEV) : writei sb d j ip off src console = writeData sb d j ip off src := if_neg file

theorem Kept.left (kept : Kept L s) {d' : Disk} {j : ℕ} {ip' : Inode} {bytes : List UInt8}
    (left : Left L s.disk d' j ip' bytes) :
    Kept L ⟨d', Function.update s.icache j (some ip')⟩ where
  proper := left.proper
  through i ip cached inside := by
    change Function.update s.icache j (some ip') i = some ip at cached
    change ip = onDisk L.toSuperblock d' i
    rw [left.inodes]
    rcases eq_or_ne i j with rfl | other
    · rw [Function.update_self] at cached ⊢
      cases cached
      rfl
    · rw [Function.update_of_ne other] at cached ⊢
      exact kept.through i ip cached inside

theorem length_files (L : Layout) (d : Disk) (j : ℕ) : (files L d j).length = (onDisk L.toSuperblock d j).size :=
  length_fileBytes _ _

/-- A call keeps the store and does what it is for. -/
theorem Kept.call (kept : Kept L s) (file : ForFile L s c) (done : s.call L.toSuperblock c = some t) :
    Kept L t ∧ files L t.disk = specify (files L s.disk) c := by
  have proper := kept.proper
  cases c with
  | readi j off n console =>
    obtain ⟨⟨inside, start, count⟩, done⟩ := Option.ite_none_right_eq_some.mp done
    obtain ⟨ip, locked, done⟩ := Store.of_after done
    obtain rfl := kept.ilock inside locked
    rcases eq_or_ne (onDisk L.toSuperblock s.disk j).type T_DEV with device | file
    · rw [readi, if_pos device] at done
      cases done
      exact ⟨kept.left (left_refl proper j), rfl⟩
    · rw [readi_file file, readData_eq proper j start count] at done
      cases done
      exact ⟨kept.left (left_refl proper j), rfl⟩
  | writei j off src console =>
    obtain ⟨⟨inside, start, count⟩, done⟩ := Option.ite_none_right_eq_some.mp done
    obtain ⟨ip, locked, done⟩ := Store.of_after done
    obtain rfl := kept.ilock inside locked
    have noDevice : s.type L.toSuperblock j ≠ T_DEV := file
    rw [kept.type inside] at noDevice
    rw [writei_file noDevice] at done
    cases wrote : writeData L.toSuperblock s.disk j (onDisk L.toSuperblock s.disk j) off src with
    | error e =>
      rw [wrote] at done
      cases done
    | ok result =>
      obtain ⟨d', ip', r⟩ := result
      rw [wrote] at done
      cases done
      have outcome := writeData_ok proper inside start count wrote
      rw [specify, length_files]
      split_ifs at outcome with refused
      · obtain ⟨_, rfl, rfl⟩ := outcome
        rw [if_neg (by omega)]
        exact ⟨kept.left (left_refl proper j), rfl⟩
      · rw [if_pos (by omega)]
        exact ⟨kept.left outcome.2, outcome.2.files⟩
  | itrunc j =>
    obtain ⟨inside, done⟩ := Option.ite_none_right_eq_some.mp done
    obtain ⟨ip, locked, done⟩ := Store.of_after done
    obtain rfl := kept.ilock inside locked
    obtain ⟨d', truncated, left, _⟩ := itrunc_ok proper inside
    rw [truncated] at done
    cases done
    exact ⟨kept.left left, left.files⟩
  | forget j =>
    cases done
    refine ⟨⟨proper, fun i ip cached inside => ?_⟩, rfl⟩
    rcases eq_or_ne i j with rfl | other
    · change Function.update s.icache i none i = some ip at cached
      rw [Function.update_self] at cached
      cases cached
    · change Function.update s.icache j none i = some ip at cached
      rw [Function.update_of_ne other] at cached
      exact kept.through i ip cached inside

/-- A disk of a hundred blocks with sixteen inodes. -/
def smallLayout : Layout where
  size := 100
  ninodes := 16
  inodestart := 32
  bmapstart := 35
  dataStart := 36
  inodes := by decide
  bitmap := by decide
  fits := by decide
  small := by decide

/-- All blocks are zero, but for the map, in which the metadata blocks are marked. -/
def emptyDisk : Disk := fun b x => if b = 35 then if x < 4 then 255 else if x = 4 then 15 else 0 else 0

theorem le_zero (a : ℤ) (w : ℕ) : Memory.le (fun _ => 0) a w = 0 := by
  induction w generalizing a with
  | zero => rfl
  | succ w ih =>
    simp only [Memory.le, ih]
    rfl

theorem onDisk_emptyDisk (j : ℕ) : onDisk smallLayout.toSuperblock emptyDisk j = .empty := by
  rw [onDisk]
  split_ifs with inside
  · have low := smallLayout.iblock_lt inside
    have zero : emptyDisk (iblock smallLayout.toSuperblock j) = fun _ => 0 := by
      funext x
      exact if_neg (Nat.ne_of_lt low)
    simp only [readInode, zero, le_zero, ite_self]
    rfl
  · rfl

theorem proper_emptyDisk : Proper smallLayout emptyDisk := by
  have none : ∀ j k, ref emptyDisk (onDisk smallLayout.toSuperblock emptyDisk j) k = .none := by
    intro j k
    rw [onDisk_emptyDisk, ref]
    split_ifs <;> rfl
  have marked : ∀ b < 36, b ∈ Used smallLayout.toSuperblock emptyDisk := by
    intro b low
    refine ⟨by change b < 100; omega, ?_⟩
    decide +revert
  have unmarked : ∀ b < 100, 36 ≤ b →
      (emptyDisk (bblock smallLayout.toSuperblock b) (b % BPB / 8 : ℕ)).toNat.testBit (b % 8) = false := by
    decide
  refine ⟨⟨⟨?_, ?_, ?_⟩, marked, fun j bn _ => ?_, fun j => ?_, fun b used low => ?_⟩, fun j => ?_⟩
  · intro s b has
    rw [held, none] at has
    cases has
  · intro s b has
    rw [held, none] at has
    cases has
  · intro s s' b has
    rw [held, none] at has
    cases has
  · rw [none, onDisk_emptyDisk]
    simp [Inode.empty, blocksOf, BSIZE]
  · rw [onDisk_emptyDisk]
    simp [Inode.empty, blocksOf, BSIZE]
  · have clear := unmarked b used.1 low
    rw [used.2] at clear
    cases clear
  · rw [onDisk_emptyDisk]
    exact Nat.zero_le _

/-- An empty file. -/
def newFile : Inode := { Inode.empty with type := T_FILE }

/-- The empty disk with two empty files. -/
def twoFiles : Disk := iupdate smallLayout.toSuperblock (iupdate smallLayout.toSuperblock emptyDisk 1 newFile) 2 newFile

private theorem proper_twoFiles : Proper smallLayout twoFiles := by
  have fits : newFile.Fits := ⟨by decide, by decide, by decide, by decide, by decide, fun _ => Nat.two_pow_pos 32,
    fun _ _ => rfl⟩
  have first : Left smallLayout emptyDisk _ 1 newFile _ := left_iupdate proper_emptyDisk (by decide) fits
    (by rw [onDisk_emptyDisk]; rfl) (by rw [onDisk_emptyDisk]; rfl)
  have other : onDisk smallLayout.toSuperblock (iupdate smallLayout.toSuperblock emptyDisk 1 newFile) 2 = .empty := by
    rw [first.inodes, Function.update_of_ne (by decide), onDisk_emptyDisk]
  exact (left_iupdate (j := 2) first.proper (by decide) fits (by rw [other]; rfl) (by rw [other]; rfl)).proper

/-- A write that needs the indirect block, with the inode then lost from memory, a read across its end, and
a truncation of another file. -/
def session : List Call :=
  [.writei 1 0 (List.replicate 6200 7) none, .forget 1, .writei 1 6200 [1, 2] none, .readi 1 6199 4 none, .itrunc 2]

theorem session_runs : ∃ t ip, (storeMachine smallLayout).Path (ForFile smallLayout) ⟨twoFiles, fun _ => none⟩ session t ∧
    t.ilock smallLayout.toSuperblock 1 = .ok ip ∧ ip.type ≠ T_DEV := by
  have success : ((storeMachine smallLayout).runBy (ForFile smallLayout) ⟨twoFiles, fun _ => none⟩ session).any
      (fun t => (t.ilock smallLayout.toSuperblock 1).toOption.any fun ip => decide (ip.type ≠ T_DEV)) = true := by
    decide +kernel
  obtain ⟨t, run, locks⟩ := (Option.any_eq_true _ _).mp success
  cases locked : t.ilock smallLayout.toSuperblock 1 with
  | error e =>
    rw [locked] at locks
    cases locks
  | ok ip =>
    rw [locked] at locks
    exact ⟨t, ip, Machine.path_of_runBy run, locked, of_decide_eq_true locks⟩

theorem Kept.initial (start : (storeMachine L).init s) :
    Kept L s := ⟨start.1, fun j ip cached => by rw [start.2] at cached; cases cached⟩

theorem Kept.path {acts : List Call} (kept : Kept L s) (path : (storeMachine L).Path (ForFile L) s acts t) :
    files L t.disk = acts.foldl specify (files L s.disk) ∧ Kept L t := by
  induction path with
  | nil => exact ⟨rfl, kept⟩
  | cons file step _ ih =>
    obtain ⟨next, made⟩ := kept.call file step
    obtain ⟨final, last⟩ := ih next
    rw [List.foldl_cons, ← made]
    exact ⟨final, last⟩

/-- In every run of calls the disk holds the byte strings that the calls are for, each file has just the
blocks that its length needs, every data block in use is in exactly one file, and the inodes in memory are
those on disk. -/
theorem store_refines {acts : List Call} (start : (storeMachine L).init s)
    (path : (storeMachine L).Path (ForFile L) s acts t) :
    files L t.disk = acts.foldl specify (files L s.disk) ∧ Kept L t := (Kept.initial start).path path

theorem store_refines_session : ∃ t :
    Store, files smallLayout t.disk = session.foldl specify (files smallLayout twoFiles) ∧ Kept smallLayout t := by
  obtain ⟨t, _, path, _⟩ := session_runs
  have start : (storeMachine smallLayout).init ⟨twoFiles, fun _ => none⟩ := ⟨proper_twoFiles, rfl⟩
  have holds := store_refines start path
  exact ⟨t, holds⟩

/-- In every run a read of a locked inode that is not a device returns what the calls before it put there
and changes nothing, a write panics only for want of a block, and a truncation never. -/
theorem store_answers {acts : List Call} (start : (storeMachine L).init s)
    (path : (storeMachine L).Path (ForFile L) s acts t)
    {j off : ℕ} (inside : j < L.ninodes) (low : off < 2 ^ 32) {ip : Inode} (locked : t.ilock L.toSuperblock j = .ok ip)
    (file : ip.type ≠ T_DEV) :
    (∀ n < 2 ^ 32, ∀ console, readi L.toSuperblock t.disk ip off n console = .ok (t.disk, ip,
      if (acts.foldl specify (files L s.disk) j).length < off ∨ 2 ^ 32 ≤ off + n then none
      else some (((acts.foldl specify (files L s.disk) j).drop off).take n))) ∧
    (∀ src console e, src.length < 2 ^ 32 → writei L.toSuperblock t.disk j ip off src console = .error e →
      e = "balloc: out of blocks") ∧
    ∀ e, itrunc L.toSuperblock t.disk j ip ≠ .error e := by
  obtain ⟨holds, kept⟩ := (Kept.initial start).path path
  obtain rfl := kept.ilock inside locked
  rw [← holds]
  refine ⟨fun n count console => ?_, fun src console e count failed => ?_, fun e failed => ?_⟩
  · rw [readi_file file, readData_eq kept.proper j low count, length_files]
  · rw [writei_file file] at failed
    exact writeData_error kept.proper low count failed
  · obtain ⟨d', truncated, _⟩ := itrunc_ok kept.proper inside
    rw [truncated] at failed
    cases failed

theorem store_answers_session : ∃ t : Store, ∃ ip : Inode, t.ilock smallLayout.toSuperblock 1 = .ok ip ∧
    (∀ n < 2 ^ 32, ∀ console, readi smallLayout.toSuperblock t.disk ip 5 n console = .ok (t.disk, ip,
        if (session.foldl specify (files smallLayout twoFiles) 1).length < 5 ∨ 2 ^ 32 ≤ 5 + n then none
        else some (((session.foldl specify (files smallLayout twoFiles) 1).drop 5).take n))) ∧
    (∀ src console e, src.length < 2 ^ 32 → writei smallLayout.toSuperblock t.disk 1 ip 5 src console = .error e →
      e = "balloc: out of blocks") ∧
    ∀ e, itrunc smallLayout.toSuperblock t.disk 1 ip ≠ .error e := by
  obtain ⟨t, ip, path, locked, file⟩ := session_runs
  have start : (storeMachine smallLayout).init ⟨twoFiles, fun _ => none⟩ := ⟨proper_twoFiles, rfl⟩
  have holds := store_answers start path (show 1 < smallLayout.ninodes by decide) (show 5 < 2 ^ 32 by decide) locked file
  exact ⟨t, ip, locked, holds⟩

/-- The byte strings of the mappings are files: `writei` and `readi` of a page act on a content as on the
file with its bytes. -/
theorem content_of_file {d d' : Disk} (proper : Proper L d) {j off : ℕ} (inside : j < L.ninodes) (low : off < 2 ^ 32)
    {content : Wmap.Content} (same : content.bytes = files L d j) {src : List UInt8} (count : src.length < 2 ^ 32)
    {ip' : Inode}
    (file : (onDisk L.toSuperblock d j).type ≠ T_DEV) {r console : Option ℕ}
    (done : writei L.toSuperblock d j (onDisk L.toSuperblock d j) off src console = .ok (d', ip', r)) :
    (content.writei off src).map Wmap.Content.bytes = r.map fun _ => files L d' j := by
  rw [writei_file file] at done
  have outcome := writeData_ok proper inside low count done
  have size := length_files L d j
  rw [← same] at size
  have bound : Wmap.maxFile = MAXFILE * BSIZE := rfl
  rw [Wmap.Content.writei]
  split_ifs at outcome with refused
  · obtain ⟨rfl, _, _⟩ := outcome
    rw [dif_neg (by omega)]
    rfl
  · obtain ⟨rfl, left⟩ := outcome
    rw [dif_pos ⟨by omega, by omega⟩, left.files]
    simp only [Option.map_some, Function.update_self, Option.some.injEq, ← same]
    rfl

/-- A file of three bytes is overwritten from its last byte on. -/
theorem content_of_file_short : ∃ d d' : Disk, ∃ r : Option ℕ, files smallLayout d 1 = [4, 5, 6] ∧ r = some 2 ∧
    ((⟨[4, 5, 6], by decide⟩ : Wmap.Content).writei 2 [7, 8]).map Wmap.Content.bytes = r.map fun _ =>
    files smallLayout d' 1 := by
  have success : ((storeMachine smallLayout).runBy (ForFile smallLayout) ⟨twoFiles, fun _ => none⟩
      [.writei 1 0 [4, 5, 6] none]).any (fun t => decide ((onDisk smallLayout.toSuperblock t.disk 1).type ≠ T_DEV) &&
        (writei smallLayout.toSuperblock t.disk 1 (onDisk smallLayout.toSuperblock t.disk 1) 2 [7, 8] none).toOption.any
          fun result => decide (result.2.2 = some 2)) = true := by
    decide +kernel
  obtain ⟨t, run, holds⟩ := (Option.any_eq_true _ _).mp success
  obtain ⟨file, writes⟩ := Bool.and_eq_true_iff.mp holds
  obtain ⟨made, kept⟩ := (Kept.initial (L := smallLayout) ⟨proper_twoFiles, rfl⟩).path (Machine.path_of_runBy run)
  have empty : files smallLayout twoFiles 1 = [] := List.eq_nil_of_length_eq_zero (by rw [length_files]; decide +kernel)
  have bytes : files smallLayout t.disk 1 = [4, 5, 6] := by
    rw [made, List.foldl_cons, List.foldl_nil, specify, empty, if_pos (by decide), Function.update_self]
    rfl
  cases wrote : writei smallLayout.toSuperblock t.disk 1 (onDisk smallLayout.toSuperblock t.disk 1) 2 [7, 8] none with
  | error e =>
    rw [wrote] at writes
    cases writes
  | ok result =>
    obtain ⟨d', ip', r⟩ := result
    rw [wrote] at writes
    exact ⟨t.disk, d', r, bytes, of_decide_eq_true writes,
      content_of_file kept.proper (by decide) (by decide) bytes.symm (by decide) (of_decide_eq_true file) wrote⟩

end Cs537.Fs
