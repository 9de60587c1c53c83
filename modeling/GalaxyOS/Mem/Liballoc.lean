import GalaxyOS.Lib.Records
import GalaxyOS.Lib.Transition
import GalaxyOS.Mem.Paging

/-! # The allocator

`liballoc.c` is there twice, as `kmalloc` and its relatives in the kernel and as `malloc` in the C
library; `LiballocVersion` says which of the two is meant where they differ.  Both take their memory
in blocks of pages from `liballoc_alloc`.  A block starts with a `struct liballoc_major`, and each
piece of it that is in use with a `struct liballoc_minor`; both are rows of six words, linked to each
other in both directions.

The structures are kept in the bytes of the memory that is being handed out, so that a program that
writes outside of its piece would change them.

What they do is shown in the modules behind this one, from the search for a place
(`HeapInv.malloc_iff`) and the removal of a piece (`free_ok`) to whole runs of calls (`Client.step`). -/

namespace GalaxyOS

open Transition Records

/-- What the allocator is given: the bytes of the memory, and the two hooks that take pages from the
system and give them back. -/
structure LiballocHooks (σ : Type) extends Bytes σ where
  liballocAlloc : σ → ℕ → Except Fault (ℕ × σ)
  liballocFree : σ → ℕ → ℕ → Int × σ

/-- The two copies of `liballoc.c`. -/
inductive LiballocVersion where
  | kernel
  | user
deriving DecidableEq, Repr

/-- The variables of `liballoc.c`, and the system that the hooks act on. -/
structure Liballoc (σ : Type) where
  sys : σ
  /-- `l_memRoot`, the first block. -/
  memRoot : ℕ
  /-- `l_bestBet`, the block with the most free memory. -/
  bestBet : ℕ
  allocated : ℕ
  inuse : ℕ
  warningCount : ℕ
  errorCount : ℕ
  possibleOverruns : ℕ

/-- The fields of `struct liballoc_major`, in order. -/
inductive MajorField where
  | prev | next | pages | size | usage | first
deriving DecidableEq, Repr

/-- The fields of `struct liballoc_minor`, in order. -/
inductive MinorField where
  | prev | next | block | magic | size | reqSize
deriving DecidableEq, Repr

def MajorField.index : MajorField → ℕ
  | .prev => 0
  | .next => 1
  | .pages => 2
  | .size => 3
  | .usage => 4
  | .first => 5

def MinorField.index : MinorField → ℕ
  | .prev => 0
  | .next => 1
  | .block => 2
  | .magic => 3
  | .size => 4
  | .reqSize => 5

def sizeofMajor : ℕ := 24

def sizeofMinor : ℕ := 24

/-- `ALIGNMENT`. -/
def alignment : ℕ := 16

/-- `ALIGN_INFO`. -/
def alignInfo : ℕ := 16

def liballocMagic : ℕ := 0xc001c0de

def liballocDead : ℕ := 0xdeaddead

def lPageSize : ℕ := 4096

def lPageCount : ℕ := 16

/-- A difference of two 32-bit numbers. -/
def sub32 (a b : ℕ) : ℕ := wrap32 (a + (0x100000000 - b))

/-- No list in the memory is longer than the memory. -/
def searchBound : ℕ := 0x100000000

variable {σ : Type} (H : LiballocHooks σ) (v : LiballocVersion)

namespace Liballoc

/-! ### Access to the structures -/

def word (st : Liballoc σ) (a i : ℕ) : Except Fault ℕ :=
  match H.readNum st.sys (a + 4 * i) 4 with
  | some x => .ok x
  | none => .error .wildAccess

def storeWord (st : Liballoc σ) (a i x : ℕ) : Except Fault (Liballoc σ) :=
  match H.writeNum st.sys (a + 4 * i) x 4 with
  | some sys => .ok { st with sys := sys }
  | none => .error .wildAccess

def byte (st : Liballoc σ) (a : ℕ) : Except Fault UInt8 :=
  match H.load st.sys a with
  | some b => .ok b
  | none => .error .wildAccess

def storeByte (st : Liballoc σ) (a : ℕ) (b : UInt8) : Except Fault (Liballoc σ) :=
  match H.load st.sys a with
  | some _ => .ok { st with sys := H.store st.sys a b }
  | none => .error .wildAccess

def major (st : Liballoc σ) (maj : ℕ) (f : MajorField) : Except Fault ℕ := st.word H maj f.index

def setMajor (st : Liballoc σ) (maj : ℕ) (f : MajorField) (x : ℕ) : Except Fault (Liballoc σ) :=
  st.storeWord H maj f.index x

def minor (st : Liballoc σ) (min : ℕ) (f : MinorField) : Except Fault ℕ := st.word H min f.index

def setMinor (st : Liballoc σ) (min : ℕ) (f : MinorField) (x : ℕ) : Except Fault (Liballoc σ) :=
  st.storeWord H min f.index x

/-- `if (maj != NULL) maj->f = x`. -/
def linkMajor (st : Liballoc σ) (maj : ℕ) (f : MajorField) (x : ℕ) : Except Fault (Liballoc σ) :=
  if maj = 0 then .ok st else st.setMajor H maj f x

/-- `if (min != NULL) min->f = x`. -/
def linkMinor (st : Liballoc σ) (min : ℕ) (f : MinorField) (x : ℕ) : Except Fault (Liballoc σ) :=
  if min = 0 then .ok st else st.setMinor H min f x

end Liballoc

/-- What `ALIGN` adds to a pointer to bring it to the next multiple of `ALIGNMENT`. -/
def alignDiff (ptr : ℕ) : ℕ :=
  if ptr % alignment = 0 then 0 else alignment - ptr % alignment

/-- `ALIGN`: the pointer that the caller gets, its distance noted in front of it. -/
def Liballoc.align (st : Liballoc σ) (ptr : ℕ) : Except Fault (ℕ × Liballoc σ) := do
  let ptr := wrap32 (ptr + alignInfo)
  let diff := alignDiff ptr
  let ptr := wrap32 (ptr + diff)
  let st ← st.storeByte H (sub32 ptr alignInfo) (UInt8.ofNat (diff + alignInfo))
  .ok (ptr, st)

/-- `UNALIGN`; the distance is a `char`. -/
def Liballoc.unalign (st : Liballoc σ) (ptr : ℕ) : Except Fault ℕ := do
  let diff ← st.byte H (sub32 ptr alignInfo)
  if diff.toNat < alignment + alignInfo then .ok (sub32 ptr diff.toNat) else .ok ptr

/-! ### `malloc` -/

def allocateNewPage (st : Liballoc σ) (size : ℕ) : Except Fault (ℕ × Liballoc σ) := do
  let need := wrap32 (wrap32 (size + sizeofMajor) + sizeofMinor)
  let need := if need % lPageSize = 0 then need / lPageSize else need / lPageSize + 1
  let pages := if need < lPageCount then lPageCount else need
  let (maj, sys) ← H.liballocAlloc st.sys pages
  let st := { st with sys := sys }
  if maj = 0 then .ok (0, { st with warningCount := st.warningCount + 1 })
  else do
    let st ← st.setMajor H maj .prev 0
    let st ← st.setMajor H maj .next 0
    let st ← st.setMajor H maj .pages pages
    let st ← st.setMajor H maj .size (wrap32 (pages * lPageSize))
    let st ← st.setMajor H maj .usage sizeofMajor
    let st ← st.setMajor H maj .first 0
    .ok (maj, { st with allocated := st.allocated + wrap32 (pages * lPageSize) })

/-- The end of the cases 2 to 4: the piece at `min` is given out. -/
def Liballoc.granted (st : Liballoc σ) (min size : ℕ) : Except Fault (Option ℕ × Liballoc σ) := do
  let (p, st) ← Liballoc.align H { st with inuse := st.inuse + size } (wrap32 (min + sizeofMinor))
  .ok (some p, st)

/-- `maj->usage += size + sizeof(struct liballoc_minor)`. -/
def Liballoc.use (st : Liballoc σ) (maj size : ℕ) : Except Fault (Liballoc σ) := do
  let usage ← st.major H maj .usage
  st.setMajor H maj .usage (wrap32 (usage + wrap32 (size + sizeofMinor)))

/-- CASE 2: a brand new block. -/
def mallocCase2 (st : Liballoc σ) (maj size reqSize : ℕ) : Except Fault (Option ℕ × Liballoc σ) := do
  let first := wrap32 (maj + sizeofMajor)
  let st ← st.setMajor H maj .first first
  let st ← st.setMinor H first .magic liballocMagic
  let st ← st.setMinor H first .prev 0
  let st ← st.setMinor H first .next 0
  let st ← st.setMinor H first .block maj
  let st ← st.setMinor H first .size size
  let st ← st.setMinor H first .reqSize reqSize
  let st ← st.use H maj size
  st.granted H first size

/-- CASE 3: space in front of the first piece `old`. -/
def mallocCase3 (st : Liballoc σ) (maj old size reqSize : ℕ) :
    Except Fault (Option ℕ × Liballoc σ) := do
  let first := wrap32 (maj + sizeofMajor)
  let st ← st.setMinor H old .prev first
  let st ← st.setMinor H first .next old
  let st ← st.setMajor H maj .first first
  let st ← st.setMinor H first .magic liballocMagic
  let st ← st.setMinor H first .prev 0
  let st ← st.setMinor H first .block maj
  let st ← st.setMinor H first .size size
  let st ← st.setMinor H first .reqSize reqSize
  let st ← st.use H maj size
  st.granted H first size

/-- CASE 4.1: space behind the last piece `min`, which has `len` bytes. -/
def mallocCase41 (st : Liballoc σ) (maj min len size reqSize : ℕ) :
    Except Fault (Option ℕ × Liballoc σ) := do
  let new := wrap32 (wrap32 (min + sizeofMinor) + len)
  let st ← st.setMinor H min .next new
  let st ← st.setMinor H new .prev min
  let st ← st.setMinor H new .next 0
  let st ← st.setMinor H new .magic liballocMagic
  let st ← st.setMinor H new .block maj
  let st ← st.setMinor H new .size size
  let st ← st.setMinor H new .reqSize reqSize
  let st ← st.use H maj size
  st.granted H new size

/-- CASE 4.2: space between `min`, which has `len` bytes, and the piece `next`. -/
def mallocCase42 (st : Liballoc σ) (maj min len next size reqSize : ℕ) :
    Except Fault (Option ℕ × Liballoc σ) := do
  let new := wrap32 (wrap32 (min + sizeofMinor) + len)
  let st ← st.setMinor H new .magic liballocMagic
  let st ← st.setMinor H new .next next
  let st ← st.setMinor H new .prev min
  let st ← st.setMinor H new .size size
  let st ← st.setMinor H new .reqSize reqSize
  let st ← st.setMinor H new .block maj
  let st ← st.setMinor H next .prev new
  let st ← st.setMinor H min .next new
  let st ← st.use H maj size
  st.granted H new size

/-- A round of CASE 4, at the piece `min`. -/
def mallocCase4 (st : Liballoc σ) (maj size reqSize min : ℕ) :
    Except Fault (ℕ ⊕ (Option ℕ × Liballoc σ)) :=
  if min = 0 then .ok (.inr (none, st))
  else do
    let next ← st.minor H min .next
    let len ← st.minor H min .size
    if next = 0 then do
      let total ← st.major H maj .size
      let diff := sub32 (sub32 (sub32 (wrap32 (maj + total)) min) sizeofMinor) len
      if wrap32 (size + sizeofMinor) ≤ diff then do
        let r ← mallocCase41 H st maj min len size reqSize
        .ok (.inr r)
      else .ok (.inl next)
    else
      let diff := sub32 (sub32 (sub32 next min) sizeofMinor) len
      if wrap32 (size + sizeofMinor) ≤ diff then do
        let r ← mallocCase42 H st maj min len next size reqSize
        .ok (.inr r)
      else .ok (.inl next)

/-- The cases 2 to 4: a piece of the block `maj`, if there is room for it in one place. -/
def mallocPlace (st : Liballoc σ) (maj size reqSize : ℕ) : Except Fault (Option ℕ × Liballoc σ) := do
  let first ← st.major H maj .first
  if first = 0 then mallocCase2 H st maj size reqSize
  else if wrap32 (size + sizeofMinor) ≤ sub32 (sub32 first maj) sizeofMajor then
    mallocCase3 H st maj first size reqSize
  else whileE .timeout (mallocCase4 H st maj size reqSize) searchBound first

/-- How the search goes on at the end of a case. -/
inductive Hop (σ : Type) where
  | go (st : Liballoc σ) (maj : ℕ) (startedBet : Bool)
  | stop (st : Liballoc σ)
  | fresh (st : Liballoc σ) (maj : ℕ)

/-- `maj->next = allocate_new_page(size)`, linked back unless there is none. -/
def appendMajor (st : Liballoc σ) (maj size : ℕ) : Except Fault (ℕ × Liballoc σ) := do
  let (new, st) ← allocateNewPage H st size
  let st ← st.setMajor H maj .next new
  let st ← st.linkMajor H new .prev maj
  .ok (new, st)

/-- CASE 1: there is not enough space in the block `maj`. -/
def mallocCase1 (st : Liballoc σ) (maj : ℕ) (startedBet : Bool) (size : ℕ) :
    Except Fault (Hop σ) := do
  let next ← st.major H maj .next
  if next ≠ 0 ∧ (v = .user ∨ maj ≠ next) then .ok (.go st next startedBet)
  else do
    -- only the kernel looks whether the block is linked to itself
    let st ← st.linkMajor H next .next 0
    if startedBet then .ok (.go st st.memRoot false)
    else do
      let (new, st) ← appendMajor H st maj size
      if new = 0 then .ok (.stop st) else .ok (.fresh st new)

/-- CASE 5: the space of the block `maj` is not in one place. -/
def mallocCase5 (st : Liballoc σ) (maj : ℕ) (startedBet : Bool) (size : ℕ) :
    Except Fault (Hop σ) := do
  let next ← st.major H maj .next
  if next ≠ 0 then .ok (.go st next startedBet)
  else if startedBet then .ok (.go st st.memRoot false)
  else do
    let (new, st) ← appendMajor H st maj size
    if new = 0 then .ok (.stop st) else .ok (.go st new startedBet)

/-- The local variables of `malloc`. -/
structure Search (σ : Type) where
  heap : Liballoc σ
  maj : ℕ
  startedBet : Bool
  bestSize : ℕ

/-- The cases 2 to 5. -/
def mallocInside (st : Liballoc σ) (maj : ℕ) (startedBet : Bool) (bestSize size reqSize : ℕ) :
    Except Fault (Search σ ⊕ (Option ℕ × Liballoc σ)) := do
  let (p, st) ← mallocPlace H st maj size reqSize
  match p with
  | some p => .ok (.inr (some p, st))
  | none =>
      match ← mallocCase5 H st maj startedBet size with
      | .go st maj startedBet => .ok (.inl ⟨st, maj, startedBet, bestSize⟩)
      | .stop st | .fresh st _ => .ok (.inr (none, st))

/-- A round of the search for a block with enough space. -/
def mallocRound (size reqSize : ℕ) (x : Search σ) :
    Except Fault (Search σ ⊕ (Option ℕ × Liballoc σ)) :=
  if x.maj = 0 then .ok (.inr (none, x.heap))
  else do
    let total ← x.heap.major H x.maj .size
    let usage ← x.heap.major H x.maj .usage
    let diff := sub32 total usage
    let st := if x.bestSize < diff then { x.heap with bestBet := x.maj } else x.heap
    let bestSize := if x.bestSize < diff then diff else x.bestSize
    if diff < wrap32 (size + sizeofMinor) then
      match ← mallocCase1 H v st x.maj x.startedBet size with
      | .go st maj startedBet => .ok (.inl ⟨st, maj, startedBet, bestSize⟩)
      | .stop st => .ok (.inr (none, st))
      | .fresh st maj => mallocInside H st maj x.startedBet bestSize size reqSize
    else mallocInside H st x.maj x.startedBet bestSize size reqSize

/-- The search starts at the best bet, if that has enough space. -/
def startSearch (st : Liballoc σ) (size : ℕ) : Except Fault (Search σ) :=
  if st.bestBet = 0 then .ok ⟨st, st.memRoot, false, 0⟩
  else do
    let total ← st.major H st.bestBet .size
    let usage ← st.major H st.bestBet .usage
    let bestSize := sub32 total usage
    if wrap32 (size + sizeofMinor) < bestSize then .ok ⟨st, st.bestBet, true, bestSize⟩
    else .ok ⟨st, st.memRoot, false, bestSize⟩

def mallocSearch (st : Liballoc σ) (size reqSize : ℕ) : Except Fault (ℕ × Liballoc σ) := do
  let x ← startSearch H st size
  let (p, st) ← whileE .timeout (mallocRound H v size reqSize) searchBound x
  match p with
  | some p => .ok (p, st)
  | none =>
      match v with
      | .kernel => .error (.panic "Out of physical memory")
      | .user => .ok (0, st)

/-- `malloc` with the size for the alignment added. -/
def mallocSized (st : Liballoc σ) (size reqSize : ℕ) : Except Fault (ℕ × Liballoc σ) :=
  if st.memRoot = 0 then do
    -- this is the first time we are being used
    let (root, st) ← allocateNewPage H st size
    let st := { st with memRoot := root }
    if root = 0 then .ok (0, st) else mallocSearch H v st size reqSize
  else mallocSearch H v st size reqSize

/-- `malloc`, in the kernel `kmalloc`; `0` stands for `NULL`. -/
def malloc (st : Liballoc σ) (reqSize : ℕ) : Except Fault (ℕ × Liballoc σ) :=
  let size := wrap32 (reqSize + (alignment + alignInfo))
  if size = 0 then
    mallocSized H v { st with warningCount := st.warningCount + 1 } (1 + (alignment + alignInfo)) 1
  else mallocSized H v st size reqSize

/-! ### `free` -/

/-- The structure in front of a pointer does not hold the magic number: a possible overrun is counted
if some of its bytes are left. -/
def Liballoc.badMagic (st : Liballoc σ) (magic : ℕ) : Liballoc σ :=
  { st with
    errorCount := st.errorCount + 1
    possibleOverruns :=
      if magic % 0x1000000 = liballocMagic % 0x1000000 ∨ magic % 0x10000 = liballocMagic % 0x10000 ∨
        magic % 0x100 = liballocMagic % 0x100
      then st.possibleOverruns + 1 else st.possibleOverruns }

/-- The kernel gives a block back that is completely unused. -/
def Liballoc.releaseMajor (st : Liballoc σ) (maj : ℕ) : Except Fault (Liballoc σ) := do
  let next ← st.major H maj .next
  let prev ← st.major H maj .prev
  let st := { st with
    memRoot := if st.memRoot = maj then next else st.memRoot
    bestBet := if st.bestBet = maj then 0 else st.bestBet }
  let st ← st.linkMajor H prev .next next
  let st ← st.linkMajor H next .prev prev
  let total ← st.major H maj .size
  let pages ← st.major H maj .pages
  .ok { st with allocated := st.allocated - total, sys := (H.liballocFree st.sys maj pages).2 }

/-- A C `int` with the bits of an unsigned number. -/
def toInt32 (n : ℕ) : Int := if n < 0x80000000 then n else n - 0x100000000

/-- The block from which a piece has been freed may be the best bet now. -/
def Liballoc.betOn (st : Liballoc σ) (maj : ℕ) : Except Fault (Liballoc σ) :=
  if st.bestBet = 0 then .ok st
  else do
    let bestTotal ← st.major H st.bestBet .size
    let bestUsage ← st.major H st.bestBet .usage
    let total ← st.major H maj .size
    let usage ← st.major H maj .usage
    if toInt32 (sub32 bestTotal bestUsage) < toInt32 (sub32 total usage) then
      .ok { st with bestBet := maj }
    else .ok st

/-- `if (min->prev == NULL) maj->first = min->next`. -/
def Liballoc.unlinkFirst (st : Liballoc σ) (maj prev next : ℕ) : Except Fault (Liballoc σ) :=
  if prev = 0 then st.setMajor H maj .first next else .ok st

/-- The piece `min` is taken out of its block. -/
def Liballoc.freeMinor (st : Liballoc σ) (min : ℕ) : Except Fault (Liballoc σ) := do
  let maj ← st.minor H min .block
  let size ← st.minor H min .size
  let usage ← st.major H maj .usage
  let st := { st with inuse := st.inuse - size }
  let st ← st.setMajor H maj .usage (sub32 usage (wrap32 (size + sizeofMinor)))
  let st ← st.setMinor H min .magic liballocDead
  let next ← st.minor H min .next
  let prev ← st.minor H min .prev
  let st ← st.linkMinor H next .prev prev
  let st ← st.linkMinor H prev .next next
  let st ← st.unlinkFirst H maj prev next
  let first ← st.major H maj .first
  if first = 0 then
    match v with
    | .kernel => st.releaseMajor H maj
    | .user => .ok st
  else st.betOn H maj

/-- `free`, in the kernel `kfree`. -/
def free (st : Liballoc σ) (ptr : ℕ) : Except Fault (Liballoc σ) :=
  if ptr = 0 then .ok { st with warningCount := st.warningCount + 1 }
  else do
    let ptr ← st.unalign H ptr
    let min := sub32 ptr sizeofMinor
    let magic ← st.minor H min .magic
    if magic ≠ liballocMagic then .ok (st.badMagic magic) else st.freeMinor H v min

/-! ### `calloc` and `realloc` -/

/-- `liballoc_memset`. -/
def liballocMemset (st : Liballoc σ) (a : ℕ) (b : UInt8) : ℕ → Except Fault (Liballoc σ)
  | 0 => .ok st
  | n + 1 => do
      let st ← st.storeByte H a b
      liballocMemset st (a + 1) b n

/-- The first loop of `liballoc_memcpy`, with `n` words left. -/
def copyWords (st : Liballoc σ) (dst src : ℕ) : ℕ → Except Fault (Liballoc σ)
  | 0 => .ok st
  | n + 1 => do
      let x ← st.word H src 0
      let st ← st.storeWord H dst 0 x
      copyWords st (dst + 4) (src + 4) n

/-- The second loop of `liballoc_memcpy`, with `n` bytes left. -/
def copyBytes (st : Liballoc σ) (dst src : ℕ) : ℕ → Except Fault (Liballoc σ)
  | 0 => .ok st
  | n + 1 => do
      let b ← st.byte H src
      let st ← st.storeByte H dst b
      copyBytes st (dst + 1) (src + 1) n

def liballocMemcpy (st : Liballoc σ) (dst src n : ℕ) : Except Fault (Liballoc σ) := do
  let st ← copyWords H st dst src (n / 4)
  copyBytes H st (dst + n / 4 * 4) (src + n / 4 * 4) (n % 4)

def calloc (st : Liballoc σ) (nobj size : ℕ) : Except Fault (ℕ × Liballoc σ) := do
  let realSize := wrap32 (nobj * size)
  let (p, st) ← malloc H v st realSize
  let st ← liballocMemset H st p 0 realSize
  .ok (p, st)

def realloc (st : Liballoc σ) (p size : ℕ) : Except Fault (ℕ × Liballoc σ) :=
  if size = 0 then do
    let st ← free H v st p
    .ok (0, st)
  else if p = 0 then malloc H v st size
  else do
    let ptr ← st.unalign H p
    let min := sub32 ptr sizeofMinor
    let magic ← st.minor H min .magic
    if magic ≠ liballocMagic then .ok (0, st.badMagic magic)
    else do
      let realSize ← st.minor H min .reqSize
      if size ≤ realSize then do
        let st ← st.setMinor H min .reqSize size
        .ok (p, st)
      else do
        let (ptr, st) ← malloc H v st size
        let st ← liballocMemcpy H st ptr p realSize
        let st ← free H v st p
        .ok (ptr, st)

end GalaxyOS
