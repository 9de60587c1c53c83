import GalaxyOS.Sched.Brk

/-! # The process loader

`pload_load_process` of `pload.c`: it reads the program headers of an ELF image, maps the pages
of every `PT_LOAD` segment in the page directory of the process and copies the segment there.
None of the header fields is checked.

Every access that depends on a header field is described by a `LoaderAccess` and passed to a
monitor, and the loader stops with `wildAccess` at the first one the monitor rejects.
`memoryPolicy` is the weakest monitor under which the model says what the code does: reads stay
inside the image, which is the file and what lies behind it, the array of page addresses of a segment
fits on the kernel's stack, and writes go to pages that this very load has mapped.

`ploadLoadProcess_faithful` says what a load leaves under any monitor that checks writes, and
`ploadLoadProcess_isolated_iff` which images keep inside the bounds. -/

namespace GalaxyOS

/-- An access of the loader whose place comes from the image. -/
inductive LoaderAccess where
  /-- An array of `len` bytes is put on a stack that has room for `room` bytes. -/
  | array (len room : ℕ)
  /-- `len` bytes of the image from `off` on, in an image of `size` bytes. -/
  | read (off len size : ℕ)
  /-- A user page is mapped at the address `addr`. -/
  | map (addr : ℕ)
  /-- `len` bytes are stored from `addr` on, the pages `mapped` being those of this load. -/
  | write (addr len : ℕ) (mapped : List ℕ)
  /-- The entry `psregions[i]` is stored. -/
  | region (i : ℕ)
deriving DecidableEq, Repr

/-- Whether every byte of `[addr, addr+len)` lies in one of the pages `mapped`. -/
def inPages (mapped : List ℕ) (addr len : ℕ) : Prop :=
  ∀ k < len, wrap32 (addr + k) / 0x1000 ∈ mapped

instance (mapped : List ℕ) (addr len : ℕ) : Decidable (inPages mapped addr len) :=
  inferInstanceAs (Decidable (∀ k < len, _))

/-- What the model of memory can follow. -/
def memoryPolicy : LoaderAccess → Prop
  | .array len room => len ≤ room
  | .read off len size => off + len ≤ size
  | .map _ => True
  | .write addr len mapped => inPages mapped addr len
  | .region i => i < 64

instance : DecidablePred memoryPolicy := fun a => by
  cases a <;> unfold memoryPolicy <;> infer_instance

/-! ### ELF images -/

/-- A little-endian number of `n` bytes. -/
def leBytes (data : List UInt8) (off : ℕ) : ℕ → ℕ
  | 0 => 0
  | n + 1 => (data.getD off 0).toNat + 0x100 * leBytes data (off + 1) n

variable (policy : LoaderAccess → Prop) [DecidablePred policy]

/-- Perform an access under the monitor. -/
def access (a : LoaderAccess) : Except Fault Unit :=
  if policy a then .ok () else .error .wildAccess

/-- A header field of `n` bytes at offset `off` of the image. -/
def readField (data : List UInt8) (off n : ℕ) : Except Fault ℕ := do
  access policy (.read off n data.length)
  .ok (leBytes data off n)

/-- The header fields that `elf_isvalid` looks at, in its order: offset, size, the value it asks
for and the result if the field has another one. -/
def elfChecks : List (ℕ × ℕ × ℕ × ℕ) :=
  [(0, 1, 0x7F, 1), (1, 1, 0x45, 1), (2, 1, 0x4C, 1), (3, 1, 0x46, 1), (18, 2, 3, 2),
    (16, 2, 2, 3), (20, 4, 1, 4), (7, 1, 0, 5), (4, 1, 1, 6), (5, 1, 1, 7)]

def elfCheckFields (data : List UInt8) : List (ℕ × ℕ × ℕ × ℕ) → Except Fault ℕ
  | [] => .ok 0
  | (off, n, value, code) :: rest => do
      let field ← readField policy data off n
      if field ≠ value then .ok code else elfCheckFields data rest

/-- `elf_isvalid`: `0` if the image is compatible. -/
def elfIsvalid (data : List UInt8) : Except Fault ℕ := elfCheckFields policy data elfChecks

/-- The fields of `struct elf32_progheader` that the loader uses. -/
structure ProgHeader where
  type : ℕ
  offset : ℕ
  vaddr : ℕ
  filesz : ℕ
  memsz : ℕ
deriving DecidableEq, Repr

def ptLoad : ℕ := 1

/-- The pages that a segment gets: its size in memory, rounded up. -/
def ProgHeader.pagecnt (ph : ProgHeader) : ℕ :=
  ph.memsz / 0x1000 + if ph.memsz % 0x1000 ≠ 0 then 1 else 0

/-- Read the program header at offset `off`; only `p_type` unless it is `PT_LOAD`. -/
def readProgHeader (data : List UInt8) (off : ℕ) : Except Fault ProgHeader := do
  let type ← readField policy data off 4
  if type ≠ ptLoad then .ok ⟨type, 0, 0, 0, 0⟩
  else
    let memsz ← readField policy data (off + 20) 4
    let vaddr ← readField policy data (off + 8) 4
    let offset ← readField policy data (off + 4) 4
    let filesz ← readField policy data (off + 16) 4
    .ok ⟨type, offset, vaddr, filesz, memsz⟩

/-! ### Mapping and filling a segment -/

/-- `vmm_map_pages_loc`: whether all pages were mapped, `loc` staying below the page tables. -/
def vmmMapPagesLoc (m : Mem) (loc flags : ℕ) : List ℕ → Except Fault (Bool × Mem)
  | [] => .ok (true, m)
  | page :: pages => do
      access policy (.map loc)
      let (r, m₁) ← vmmMapPage m page loc flags false
      if r = -1 then .ok (false, m₁)
      else
        let loc' := wrap32 (loc + 0x1000)
        if loc' ≥ 0xFFC00000 then .ok (false, m₁)
        else vmmMapPagesLoc m₁ loc' flags pages

/-- Store bytes at user addresses from `addr` on, through the page tables. -/
def storeBytes (m : Mem) (addr : ℕ) : List UInt8 → Mem
  | [] => m
  | b :: bs =>
      storeBytes { m with data := Function.update m.data (vmmGetPhysaddr m addr) b }
        (wrap32 (addr + 1)) bs

/-- What the loader has done so far for a process. -/
structure LoadState where
  mem : Mem
  /-- Page numbers mapped by this load. -/
  mapped : List ℕ
  psregions : List PsRegion
  pagesUsed : ℕ
  endAllocatedData : ℕ
  stackRoom : ℕ

/-- The page numbers of a segment. -/
def ProgHeader.pages (ph : ProgHeader) : List ℕ :=
  (List.range ph.pagecnt).map (fun i => ph.vaddr / 0x1000 + i)

/-- The bytes that `memcpy` takes from the image. -/
def readSegment (data : List UInt8) (ph : ProgHeader) : Except Fault Unit :=
  if ph.filesz = 0 then .ok () else access policy (.read ph.offset ph.filesz data.length)

/-- Load one `PT_LOAD` segment; `false` if its pages cannot be mapped. -/
def loadSegment (data : List UInt8) (st : LoadState) (ph : ProgHeader) :
    Except Fault (Bool × LoadState) := do
  -- address_t pages[pagecnt]
  access policy (.array (4 * ph.pagecnt) st.stackRoom)
  let (pages, m₁) ← pmmAllocPages st.mem ph.pagecnt
  let (mapped, m₂) ← vmmMapPagesLoc policy m₁ ph.vaddr 0x7 pages
  -- an address of 0 looks like a failure to the caller
  if !mapped ∨ ph.vaddr = 0 then .ok (false, { st with mem := m₂ })
  else
    let here := st.mapped ++ ph.pages
    readSegment policy data ph
    access policy (.write ph.vaddr ph.filesz here)
    let m₃ := storeBytes m₂ ph.vaddr ((data.drop ph.offset).take ph.filesz)
    let zeros := wrap32 (ph.memsz + 0x100000000 - ph.filesz)
    access policy (.write (wrap32 (ph.vaddr + ph.filesz)) zeros here)
    let m₄ := storeBytes m₃ (wrap32 (ph.vaddr + ph.filesz)) (List.replicate zeros 0)
    let segEnd := wrap32 (ph.memsz + ph.vaddr)
    access policy (.region st.psregions.length)
    .ok (true,
      { mem := m₄
        mapped := here
        psregions := st.psregions ++ [⟨ph.vaddr, wrap32 (ph.pagecnt * 0x1000)⟩]
        pagesUsed := st.pagesUsed + ph.pagecnt
        endAllocatedData :=
          if st.endAllocatedData < segEnd then segEnd else st.endAllocatedData
        stackRoom := st.stackRoom })

/-- Where program header `i` starts. -/
def phdrOffset (phoff phentsize i : ℕ) : ℕ := wrap32 (phoff + phentsize * i)

/-- The loop over the program headers, `n` of them left from index `i` on. -/
def loadSegments (data : List UInt8) (phoff phentsize : ℕ) (st : LoadState) (i : ℕ) :
    ℕ → Except Fault (Bool × LoadState)
  | 0 => .ok (true, st)
  | n + 1 => do
      let ph ← readProgHeader policy data (phdrOffset phoff phentsize i)
      if ph.type ≠ ptLoad then loadSegments data phoff phentsize st (i + 1) n
      else
        let (mapped, st') ← loadSegment policy data st ph
        if !mapped then .ok (false, st')
        else loadSegments data phoff phentsize st' (i + 1) n

/-- A field of the file header that is only read when there are program headers. -/
def readPhField (data : List UInt8) (phnum off n : ℕ) : Except Fault ℕ :=
  if phnum = 0 then .ok 0 else readField policy data off n

/-- The loader's work on the image of process `ps`: the state it leaves, and the entry point if
every segment was loaded. -/
def loadImage (ps : Process) (m : Mem) : Except Fault (Option ℕ × LoadState) := do
  let data := ps.image
  let st : LoadState :=
    { mem := { m with cr3 := ps.cr3 }, mapped := [], psregions := ps.psregions,
      pagesUsed := ps.pagesUsed, endAllocatedData := 0, stackRoom := m.stackRoom }
  let phnum ← readField policy data 44 2
  let phoff ← readPhField policy data phnum 28 4
  let phentsize ← readPhField policy data phnum 42 2
  let (loaded, st') ← loadSegments policy data phoff phentsize st 0 phnum
  if !loaded then .ok (none, st')
  else
    let entry ← readField policy data 24 4
    .ok (some entry, st')

/-- The process while its segments are loaded. -/
def Process.loading (ps : Process) (st : LoadState) : Process :=
  { ps with state := .loading, psregions := st.psregions, pagesUsed := st.pagesUsed }

/-- The loaded process, its heap starting behind its segments. -/
def Process.loaded (ps : Process) (st : LoadState) : Process :=
  { ps.loading st with
    brk := roundBrk st.endAllocatedData, pgbrk := roundBrk st.endAllocatedData
    image := [], state := .running }

/-- `pload_load_process(pid, tid)`. -/
def ploadLoadProcess (s : Kernel) (pid tid : Int) : Except Fault (Int × Kernel) := do
  let ps ← s.liveProcess pid
  let (entry, st) ← loadImage policy ps s.mem
  let mem := { st.mem with cr3 := s.mem.cr3 }
  match entry with
  | none => .ok (-1, { s.setProcess pid (some (ps.loading st)) with mem := mem, kmode := false })
  | some entry =>
      let s' := s.setProcess pid (some (ps.loaded st))
      let t ← s'.threadAt tid
      let t' := { t with frame := { t.frame with eip := entry }, state := .running }
      .ok (0, { s'.setThread tid (some t') with mem := mem, kmode := true })

end GalaxyOS
