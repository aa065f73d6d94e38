import Cs537.Wmap.Files

/-! # Mappings of the running process

`sys_wmap`, `sys_wunmap`, `sys_wremap`, the page fault handler and the teardown in `exit`, for the running
process and the kernel it runs on. Addresses are `uint` and lengths are `int`, and every sum of the two is
taken as the code takes it, modulo `2 ^ 32`. User pages are numbered by address; the pages of `kmap` belong
to the kernel, and a mapping operation that reaches one of them does not come back. A null page-table entry or a null
file is address 0 of the process, so that a store through one of them changes its first page.
-/

namespace Cs537.Wmap

open Lib

/-- `NOFILE`. -/
def nofile : ℕ := 16

instance : NeZero nofile := ⟨by decide⟩

/-- Where the search for an address begins. -/
def searchBase : ℕ := 0x60000000

/-- Where mappings have to end. -/
def searchLimit : ℕ := 0x80000000

/-- The number of the first page of the kernel. -/
def kernelPage : ℕ := 0x80000

/-- The pages that every page table has from `kmap`: the physical memory and the devices. -/
def isKernel (v : ℕ) : Bool := kernelPage ≤ v ∧ v < 0x8e000 ∨ 0xfe000 ≤ v

theorem isKernel_of_lt {v : ℕ} (low : v < kernelPage) : isKernel v = false := by
  simp only [isKernel, kernelPage] at low ⊢
  exact decide_eq_false (by omega)

/-- `flags & MAP_PRIVATE`. -/
def isPrivate (flags : ℕ) : Bool := flags.testBit 0

/-- `flags & MAP_SHARED`. -/
def isShared (flags : ℕ) : Bool := flags.testBit 1

/-- `flags & MAP_ANONYMOUS`. -/
def isAnonymous (flags : ℕ) : Bool := flags.testBit 2

/-- `flags & MAP_FIXED`. -/
def isFixed (flags : ℕ) : Bool := flags.testBit 3

/-- `flags & MREMAP_MAYMOVE`. -/
def mayMove (flags : ℕ) : Bool := flags.testBit 0

/-- `PGROUNDUP`. -/
def pgRoundUp (a : ℕ) : ℕ := uint32 (a + 4095) / 4096 * 4096

/-- The address and the length of a mapping. -/
structure Region where
  addr : ℕ
  length : ℤ
deriving DecidableEq, Repr

namespace Region

/-- `me->addr + me->length`. -/
def limit (r : Region) : ℕ := uint32 (r.addr + r.length)

/-- The test of the fault handler. -/
def contains (r : Region) (a : ℕ) : Bool := r.addr ≤ a ∧ a < r.limit

/-- The overlap test of `sys_wmap` and `sys_wremap` for a new range. -/
def overlaps (r : Region) (addr : ℕ) (length : ℤ) : Bool := addr < r.limit ∧ uint32 (addr + length) > r.addr

/-- The values of `i` in `for (uint i = 0; i < me->length; i += PGSIZE)`. For a length close to `2 ^ 32` the
counter wraps and the loop does not end. -/
def offsets (r : Region) : Option (List ℕ) :=
  if uint32 r.length > 0xfffff000 then none else some ((List.range ((uint32 r.length + 4095) / 4096)).map (4096 * ·))

end Region

/-- The address search. It ends at the first address that fits, or that is too high; after `fuel` rounds the
address has wrapped twice, and the search goes on forever. -/
def search (regions : List Region) (length : ℤ) : ℕ → ℕ → Option ℕ
  | 0, _ => none
  | fuel + 1, addr =>
      match regions.find? (·.overlaps addr length) with
      | none => some addr
      | some r =>
          let addr := pgRoundUp r.limit
          if uint32 (addr + length) > searchLimit then some addr else search regions length fuel addr

/-- The search as `sys_wmap` and `sys_wremap` start it. -/
def findAddr (regions : List Region) (length : ℤ) : Option ℕ :=
  search regions length (2 * regions.length + 3) searchBase

/-- `struct mmap_entry`; `frame` is the page it lives in. -/
structure MmapEntry extends Region where
  flags : ℕ
  nLoadedPages : ℕ
  file : Option (Fin nfile)
  frame : ℕ
deriving DecidableEq, Repr

/-- A present page. -/
structure Page where
  data : ℕ → UInt8
  writable : Bool
  frame : ℕ

/-- The open files, the mappings and the page directory of a process apart from `kmap`. -/
structure Task where
  ofile : Fin nofile → Option (Fin nfile)
  mmaps : List MmapEntry
  tables : ℕ → Bool
  page : ℕ → Option Page

/-- The running process with the kernel. -/
structure Running extends Task, Kernel

namespace Running

def setPage (s : Running) (v : ℕ) (value : Option Page) : Running := { s with page := Function.update s.page v value }

def regions (s : Running) : List Region := s.mmaps.map (·.toRegion)

/-- An operation of the kernel alone. -/
def onKernel (s : Running) (op : Kernel → Option Kernel) : Option Running :=
  match op s.toKernel with
  | none => none
  | some k => some { s with toKernel := k }

def kalloc (s : Running) : Option (ℕ × Running) :=
  match s.toKernel.kalloc with
  | none => none
  | some (frame, k) => some (frame, { s with toKernel := k })

def kfree (s : Running) (frame : ℕ) : Running := { s with toKernel := s.toKernel.kfree frame }

/-- `walkpgdir` with `alloc` set. -/
def walkAlloc (s : Running) (v : ℕ) : Option Running :=
  if s.tables (v / 1024) then some s
  else match s.kalloc with
    | none => none
    | some (_, s) => some { s with tables := Function.update s.tables (v / 1024) true }

/-- The content of a new page at a fault. -/
def fill (s : Running) (me : MmapEntry) (a : ℕ) (input : ℕ → UInt8) : Option (Running × (ℕ → UInt8)) :=
  match me.file with
  | none => some (s, fun _ => 0)
  | some f =>
      if isAnonymous me.flags then some (s, fun _ => 0)
      else
        let off := uint32 ((a : ℤ) - me.addr - (a % 4096 : ℕ))
        match (s.setFile f { s.file f with off := off }).fileread f input with
        | none => none
        | some (k, data) => some ({ s with toKernel := k }, data)

/-- `n_loaded_pages++` of the entry at a position. -/
def countPage (s : Running) (i : ℕ) : Running :=
  { s with mmaps := s.mmaps.modify i fun me => { me with nLoadedPages := me.nLoadedPages + 1 } }

/-- The page fault handler; nothing when the process is killed or the kernel panics. -/
def fault (s : Running) (a : ℕ) (input : ℕ → UInt8) : Option Running :=
  match s.mmaps.find? (·.contains a) with
  | none => none
  | some me =>
      match s.kalloc with
      | none => none
      | some (frame, s) =>
          match s.fill me a input with
          | none => none
          | some (s, data) =>
              match s.walkAlloc (a / 4096) with
              | none => none
              | some s =>
                  if isKernel (a / 4096) ∨ (s.page (a / 4096)).isSome then none
                  else some ((s.setPage (a / 4096) (some ⟨data, true, frame⟩)).countPage
                    (s.mmaps.findIdx (·.contains a)))

/-- A load of one byte; nothing above `KERNBASE`. -/
def load (s : Running) (a : ℕ) (input : ℕ → ℕ → UInt8) : Option (Running × UInt8) :=
  if kernelPage ≤ a / 4096 then none
  else match s.page (a / 4096) with
    | some page => some (s, page.data (a % 4096))
    | none =>
        match s.fault a (input (a / 4096)) with
        | none => none
        | some s => (s.page (a / 4096)).map fun page => (s, page.data (a % 4096))

/-- A store to a present page; a fault at a page that is present ends in `remap` or kills the process. -/
def poke (s : Running) (a : ℕ) (byte : UInt8) : Option Running :=
  match s.page (a / 4096) with
  | none => none
  | some page =>
      if page.writable then
        some (s.setPage (a / 4096) (some { page with data := Function.update page.data (a % 4096) byte }))
      else none

/-- A store of one byte; nothing above `KERNBASE`. -/
def store (s : Running) (a : ℕ) (byte : UInt8) (input : ℕ → ℕ → UInt8) : Option Running :=
  if kernelPage ≤ a / 4096 then none
  else match s.page (a / 4096) with
    | some _ => s.poke a byte
    | none =>
        match s.fault a (input (a / 4096)) with
        | none => none
        | some s => s.poke a byte

/-- The bytes of a buffer whose pages are all present. -/
def bytesAt (s : Running) (a n : ℕ) : Option (List UInt8) :=
  (List.range n).mapM fun (i : ℕ) => (s.page (uint32 (a + i) / 4096)).map (·.data (uint32 (a + i) % 4096))

/-- The offset of a `struct file` at address 0 is stored. -/
def pokeNullOff (s : Running) (off : ℕ) : Option Running :=
  (List.range 4).foldlM (fun s i => s.poke (20 + i) (off / 256 ^ i).toUInt8) s

/-- `filewrite` of the page at an address, at the offset of the file or at one that is set before. A null file
is written only if its ninth byte says so, and then its type is no type of a file. -/
def writeBack (s : Running) (file : Option (Fin nfile)) (off : Option ℕ) (a : ℕ) : Option Running :=
  match file with
  | some f =>
      s.onKernel fun k => Kernel.filewrite (k.setFile f { k.file f with off := off.getD (k.file f).off }) f
        (s.bytesAt a 4096)
  | none =>
      match (match off with
        | none => some s
        | some off => s.pokeNullOff off) with
      | none => none
      | some s =>
          match s.page 0 with
          | none => none
          | some page => if page.data 9 = 0 then some s else none

/-- `*pte &= ~PTE_W` for the page at an address; without a page table this clears a bit at address 0. -/
def protectPage (me : MmapEntry) (s : Running) (i : ℕ) : Option Running :=
  let v := uint32 (me.addr + i) / 4096
  if isKernel v then none
  else if s.tables (v / 1024) = false then
    match s.page 0 with
    | none => none
    | some page => s.poke 0 (page.data 0 &&& 0xfd)
  else match s.page v with
    | none => some s
    | some page => some (s.setPage v (some { page with writable := false }))

/-- The private branch of `sys_wunmap` for one page; the page is not freed. -/
def unmapPrivatePage (me : MmapEntry) (s : Running) (i : ℕ) : Option Running :=
  let v := uint32 (me.addr + i) / 4096
  if isKernel v then none else some (s.setPage v none)

/-- The shared branch for one page, with or without `me->file->off = i` before the write. -/
def unmapSharedPage (setsOff : Bool) (me : MmapEntry) (s : Running) (i : ℕ) : Option Running :=
  let a := uint32 (me.addr + i)
  if isKernel (a / 4096) then none
  else match s.page (a / 4096) with
    | none => some s
    | some page =>
        match (if page.writable then s.writeBack me.file (if setsOff then some i else none) a else some s) with
        | none => none
        | some s => some ((s.setPage (a / 4096) none).kfree page.frame)

/-- `for (uint i = 0; i < me->length; i += PGSIZE)`. -/
def forPages (s : Running) (r : Region) (body : Running → ℕ → Option Running) : Option Running :=
  match r.offsets with
  | none => none
  | some offsets => offsets.foldlM body s

/-- `if (f) fileclose(f)`. -/
def closeFile (s : Running) (file : Option (Fin nfile)) : Option Running :=
  match file with
  | none => some s
  | some f => s.onKernel (·.fileclose f)

theorem toNat_lt_nofile {fd : ℤ} (valid : 0 ≤ fd ∧ fd < nofile) : fd.toNat < nofile := by omega

/-- The file of a mapping: `curproc->ofile[fd]`, or none for an anonymous mapping. -/
def mapFile (s : Running) (flags : ℕ) (fd : ℤ) : Option (Option (Fin nfile)) :=
  if isAnonymous flags then some none
  else if valid : 0 ≤ fd ∧ fd < nofile then (s.ofile ⟨fd.toNat, toNat_lt_nofile valid⟩).map some
  else none

/-- `filedup(f)` for a file mapping. -/
def dupFile (s : Running) (file : Option (Fin nfile)) : Option Running :=
  match file with
  | none => some s
  | some f => s.onKernel (·.filedup f)

/-- The address of a new mapping, or none of them; no result when the search does not end. -/
def wmapAddr (s : Running) (addr : ℕ) (length : ℤ) (flags : ℕ) : Option (Option ℕ) :=
  if isFixed flags then
    some (if s.regions.any (·.overlaps addr length) then none else some addr)
  else match findAddr s.regions length with
    | none => none
    | some addr => some (if uint32 (addr + length) > searchLimit then none else some addr)

/-- The entry is made, marked and put at the head of the list. -/
def addMapping (s : Running) (frame addr : ℕ) (length : ℤ) (flags : ℕ) (file : Option (Fin nfile)) :
    Option Running :=
  let me : MmapEntry := ⟨⟨addr, length⟩, flags, 0, file, frame⟩
  match (if isPrivate flags then s.forPages me.toRegion (protectPage me) else some s) with
  | none => none
  | some s => some { s with mmaps := me :: s.mmaps }

/-- `sys_wmap`: the state and the address, or `FAILED`. -/
def wmap (s : Running) (addr : ℕ) (length : ℤ) (flags : ℕ) (fd : ℤ) : Option (Running × Option ℕ) :=
  if isPrivate flags = isShared flags then some (s, none)
  else match s.mapFile flags fd with
    | none => some (s, none)
    | some file =>
        match s.dupFile file with
        | none => none
        | some s =>
            match s.wmapAddr addr length flags with
            | none => none
            | some none => (s.closeFile file).map fun s => (s, none)
            | some (some addr) =>
                match s.kalloc with
                | none => (s.closeFile file).map fun s => (s, none)
                | some (frame, s) => (s.addMapping frame addr length flags file).map fun s => (s, some addr)

/-- The pages of a mapping are unmapped, and the file of a shared one is closed. -/
def unmapPages (s : Running) (me : MmapEntry) : Option Running :=
  if isPrivate me.flags then s.forPages me.toRegion (unmapPrivatePage me)
  else if isShared me.flags then
    match s.forPages me.toRegion (unmapSharedPage true me) with
    | none => none
    | some s => s.closeFile me.file
  else some s

/-- `sys_wunmap`: the state, and whether it returns `SUCCESS`. -/
def wunmap (s : Running) (addr : ℕ) : Option (Running × Bool) :=
  match s.mmaps.find? (·.addr = addr) with
  | none => some (s, false)
  | some me =>
      match s.unmapPages me with
      | none => none
      | some s => some ({ s with mmaps := s.mmaps.eraseP (·.addr = addr) }.kfree me.frame, true)

/-- The forward loop of `memmove`. -/
def copyUp (input : ℕ → ℕ → UInt8) : ℕ → ℕ → ℕ → Running → Option Running
  | 0, _, _, s => some s
  | n + 1, dst, src, s =>
      match s.load src input with
      | none => none
      | some (s, byte) =>
          match s.store dst byte input with
          | none => none
          | some s => copyUp input n (uint32 (dst + 1)) (uint32 (src + 1)) s

/-- The backward loop of `memmove`. -/
def copyDown (input : ℕ → ℕ → UInt8) : ℕ → ℕ → ℕ → Running → Option Running
  | 0, _, _, s => some s
  | n + 1, dst, src, s =>
      match s.load (uint32 (src + n)) input with
      | none => none
      | some (s, byte) =>
          match s.store (uint32 (dst + n)) byte input with
          | none => none
          | some s => copyDown input n dst src s

def memmove (s : Running) (dst src n : ℕ) (input : ℕ → ℕ → UInt8) : Option Running :=
  if src < dst ∧ uint32 (src + n) > dst then copyDown input n dst src s else copyUp input n dst src s

/-- The write-back in `sys_wremap`, which reads at `newsize + i`. -/
def writeLowPage (me : MmapEntry) (newsize : ℤ) (s : Running) (i : ℕ) : Option Running :=
  let a := uint32 (newsize + i)
  if isKernel (a / 4096) then none
  else match s.page (a / 4096) with
    | none => some s
    | some page => if page.writable then s.writeBack me.file (some i) a else some s

/-- Another mapping begins at or below the new end, so that the mapping at this position has to move. -/
def mustMove (regions : List Region) (i : ℕ) (r : Region) (newsize : ℤ) : Bool :=
  newsize > r.length ∧ (regions.eraseIdx i).any fun other => other.addr ≤ uint32 (r.addr + newsize)

/-- The mapping at a position gets a new entry at a new address, and its old pages stay as they are. -/
def moveMapping (s : Running) (i : ℕ) (me : MmapEntry) (frame newaddr : ℕ) (newsize : ℤ)
    (input : ℕ → ℕ → UInt8) : Option Running :=
  let newme : MmapEntry := { me with addr := newaddr, length := newsize, frame := frame }
  match { s with mmaps := newme :: s.mmaps }.memmove newaddr me.addr (uint32 me.length) input with
  | none => none
  | some s =>
      match (if isPrivate me.flags = false ∧ isShared me.flags then
        s.forPages ⟨0, newsize⟩ (writeLowPage me newsize) else some s) with
      | none => none
      | some s => some ({ s with mmaps := s.mmaps.eraseIdx (i + 1) }.kfree me.frame)

/-- `sys_wremap`: the state and the address, or `FAILED`. -/
def wremap (s : Running) (oldaddr : ℕ) (oldsize newsize : ℤ) (flags : ℕ) (input : ℕ → ℕ → UInt8) :
    Option (Running × Option ℕ) :=
  if newsize ≤ 0 then some (s, none)
  else match s.mmaps.find? fun me => me.addr = oldaddr ∧ me.length = oldsize with
    | none => some (s, none)
    | some me =>
        let i := s.mmaps.findIdx fun me => me.addr = oldaddr ∧ me.length = oldsize
        if mustMove s.regions i me.toRegion newsize = false then
          some ({ s with mmaps := s.mmaps.modify i fun me => { me with length := newsize } }, some oldaddr)
        else if mayMove flags = false then some (s, none)
        else match findAddr s.regions newsize with
          | none => none
          | some newaddr =>
              if uint32 (newaddr + newsize) > searchLimit then some (s, some oldaddr)
              else match s.kalloc with
                | none => some (s, some oldaddr)
                | some (frame, s) =>
                    (s.moveMapping i me frame newaddr newsize input).map fun s => (s, some newaddr)

/-- The teardown of mappings in `exit`. A private mapping stays at the head of the list, so that the loop does
not end; a shared one is written back at the offset its file happens to have. -/
def exitMappings : List MmapEntry → Running → Option Running
  | [], s => some { s with mmaps := [] }
  | me :: rest, s =>
      if isPrivate me.flags ∨ isShared me.flags = false then none
      else match s.forPages me.toRegion (unmapSharedPage false me) with
        | none => none
        | some s =>
            match s.closeFile me.file with
            | none => none
            | some s => exitMappings rest ({ s with mmaps := rest }.kfree me.frame)

/-- `exit` closes a descriptor. -/
def closeFd (s : Running) (fd : Fin nofile) : Option Running :=
  match s.ofile fd with
  | none => some s
  | some f => (s.onKernel (·.fileclose f)).map fun s => { s with ofile := Function.update s.ofile fd none }

/-- `exit` up to the process table. -/
def exit (s : Running) : Option Running :=
  match exitMappings s.mmaps s with
  | none => none
  | some s => (List.finRange nofile).foldlM closeFd s

end Running

end Cs537.Wmap
