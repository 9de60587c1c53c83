import Mathlib.Logic.Function.Basic
import Mathlib.Data.List.Basic

/-! # Frames and page tables

The physical frame stack of `pmm.c`, the two-level page tables of `vmm.c` and the kernel page
allocator of `liballoc-vmm.c`.

Physical memory that serves as a page directory or page table is kept as
`tables : frame → index → Option Pte`, an absent entry being `none`; `data` holds the bytes of
all other memory.  Directory entry 1023 of every directory maps the directory itself, so the
window at `PAGE_DIRECTORY_ADDR` shows the entries of the directory in `cr3` and the window at
`PAGE_TABLE_ADDR` those of the tables it refers to; the model reads and writes them directly.

`vmm_map_page` needs a frame for a missing page table and gets it from `liballoc_alloc(1)`,
which maps it with `vmm_map_page` again.  `vmmMapPageF` follows that recursion; each round
takes a frame off the stack, and when the stack is empty `pmm_alloc_page` panics.

There are no results here; `pageTables_partialMap` says what the page tables stand for, `liballoc_roundTrip`
what the page allocator gives and takes. -/

namespace GalaxyOS

/-- Why a kernel function does not return. -/
inductive Fault where
  | panic (msg : String)
  | nullDeref
  | useAfterFree
  | uninitialized
  | overrun
  | wildAccess
  | timeout
deriving DecidableEq, Repr

/-- A present entry of a page directory or page table. -/
structure Pte where
  frame : ℕ
  flags : ℕ
deriving DecidableEq, Repr

structure Mem where
  /-- `pmem_stack[0 .. pmem_stack_top)`, the top first. -/
  pmemStack : List ℕ
  tables : ℕ → ℕ → Option Pte
  data : ℕ → UInt8
  cr3 : ℕ
  endMappedKmemory : ℕ
  /-- What the frames of its callers leave of the kernel's stack to `pload_load_process`, in bytes. -/
  stackRoom : ℕ

/-- Addresses wrap at 32 bits. -/
def wrap32 (a : ℕ) : ℕ := a % 0x100000000

/-- The entry `physaddr | flags` with its low twelve bits split off. -/
def mkPte (physaddr flags : ℕ) : Pte :=
  ⟨physaddr / 0x1000 * 0x1000, (physaddr % 0x1000) ||| flags⟩

def pdindex (virtualaddr : ℕ) : ℕ := virtualaddr / 0x400000

def ptindex (virtualaddr : ℕ) : ℕ := virtualaddr / 0x1000 % 0x400

namespace Mem

def setEntry (m : Mem) (table i : ℕ) (e : Option Pte) : Mem :=
  { m with tables := Function.update m.tables table (Function.update (m.tables table) i e) }

/-- `memset(table, 0, PAGE_SIZE)`. -/
def clearTable (m : Mem) (table : ℕ) : Mem :=
  { m with tables := Function.update m.tables table (fun _ => none) }

end Mem

/-! ### Physical frames -/

def pmmAvailable (m : Mem) : ℕ := m.pmemStack.length

def pmmAllocPage (m : Mem) : Except Fault (ℕ × Mem) :=
  match m.pmemStack with
  | [] => .error (.panic "Out of physical memory")
  | page :: rest => .ok (page, { m with pmemStack := rest })

def pmmFreePage (m : Mem) (paddr : ℕ) : Mem := { m with pmemStack := paddr :: m.pmemStack }

/-! ### Page tables -/

/-- `vmm_get_physaddr`; `0` when the address is not mapped. -/
def vmmGetPhysaddr (m : Mem) (virtualaddr : ℕ) : ℕ :=
  match m.tables m.cr3 (pdindex virtualaddr) with
  | none => 0
  | some pde =>
      match m.tables pde.frame (ptindex virtualaddr) with
      | none => 0
      | some pte => pte.frame + virtualaddr % 0x1000

/-- The second half of `vmm_map_page`, the page table being `table`. -/
def mapEntry (m : Mem) (table physaddr virtualaddr flags : ℕ) (overwrite : Bool) : Int × Mem :=
  match m.tables table (ptindex virtualaddr) with
  | some _ =>
      if !overwrite then (-1, m)
      else (0, m.setEntry table (ptindex virtualaddr) (some (mkPte physaddr (flags % 0x1000 ||| 1))))
  | none =>
      (0, m.setEntry table (ptindex virtualaddr) (some (mkPte physaddr (flags % 0x1000 ||| 1))))

/-- `vmm_map_page`, with room for `n` nested page table allocations. -/
def vmmMapPageF : ℕ → Mem → ℕ → ℕ → ℕ → Bool → Except Fault (Int × Mem)
  | 0, _, _, _, _, _ => .error (.panic "Out of physical memory")
  | n + 1, m, physaddr, virtualaddr, flags, overwrite =>
      match m.tables m.cr3 (pdindex virtualaddr) with
      | some pde => .ok (mapEntry m pde.frame physaddr virtualaddr flags overwrite)
      | none => do
          -- liballoc_alloc(1): a frame, mapped at the end of the kernel heap
          let (page, m₁) ← pmmAllocPage m
          let newptaddr := m₁.endMappedKmemory
          let (r, m₂) ← vmmMapPageF n m₁ page newptaddr 0x3 false
          if r = -1 then .error .nullDeref
          else
            let m₃ := { m₂ with endMappedKmemory := m₂.endMappedKmemory + 0x1000 }
            if m₃.endMappedKmemory ≥ 0xFFC00000 then .error (.panic "Out of virtual memory")
            else
              let table := vmmGetPhysaddr m₃ newptaddr
              let m₄ := m₃.clearTable table
              let m₅ := m₄.setEntry m₄.cr3 (pdindex virtualaddr) (some (mkPte table 0x7))
              .ok (mapEntry m₅ (mkPte table 0x7).frame physaddr virtualaddr flags overwrite)

/-- `vmm_map_page`: `0`, or `-1` if the page is mapped and may not be overwritten. -/
def vmmMapPage (m : Mem) (physaddr virtualaddr flags : ℕ) (overwrite : Bool) :
    Except Fault (Int × Mem) :=
  vmmMapPageF (m.pmemStack.length + 1) m physaddr virtualaddr flags overwrite

/-- `vmm_unmap_page`: whether a page was there. -/
def vmmUnmapPage (m : Mem) (virtualaddr : ℕ) : Bool × Mem :=
  match m.tables m.cr3 (pdindex virtualaddr) with
  | none => (false, m)
  | some pde =>
      match m.tables pde.frame (ptindex virtualaddr) with
      | none => (false, m)
      | some _ => (true, m.setEntry pde.frame (ptindex virtualaddr) none)

/-- The loop of `vmm_map_pages_k`: whether every page was mapped. -/
def vmmMapPagesKLoop (m : Mem) : List ℕ → Except Fault (Bool × Mem)
  | [] => .ok (true, m)
  | page :: pages => do
      let (r, m₁) ← vmmMapPage m page m.endMappedKmemory 0x3 false
      if r = -1 then .ok (false, m₁)
      else
        let m₂ := { m₁ with endMappedKmemory := m₁.endMappedKmemory + 0x1000 }
        if m₂.endMappedKmemory ≥ 0xFFC00000 then .error (.panic "Out of virtual memory")
        else vmmMapPagesKLoop m₂ pages

/-- `vmm_map_pages_k`: the address of the first page, `0` on failure. -/
def vmmMapPagesK (m : Mem) (pages : List ℕ) : Except Fault (ℕ × Mem) := do
  let (ok, m') ← vmmMapPagesKLoop m pages
  .ok (if ok then m.endMappedKmemory else 0, m')

/-! ### The kernel page allocator -/

/-- Take `n` frames, in the order in which `liballoc_alloc` stores them. -/
def pmmAllocPages (m : Mem) : ℕ → Except Fault (List ℕ × Mem)
  | 0 => .ok ([], m)
  | n + 1 => do
      let (page, m₁) ← pmmAllocPage m
      let (pages, m₂) ← pmmAllocPages m₁ n
      .ok (page :: pages, m₂)

/-- `liballoc_alloc` of at most 1024 pages; `0` stands for `NULL`. -/
def liballocAllocSmall (m : Mem) (pages : ℕ) : Except Fault (ℕ × Mem) :=
  if pages < 1 then .ok (0, m)
  else do
    let (addr, m₁) ← pmmAllocPages m pages
    vmmMapPagesK m₁ addr

/-- `n` further blocks of 1024 pages. -/
def liballocAllocMore (m : Mem) : ℕ → Except Fault Mem
  | 0 => .ok m
  | n + 1 => do
      let (_, m₁) ← liballocAllocSmall m 1024
      liballocAllocMore m₁ n

def liballocAlloc (m : Mem) (pages : ℕ) : Except Fault (ℕ × Mem) :=
  if pages > 1024 then do
    let (start, m₁) ← liballocAllocSmall m 1024
    let m₂ ← liballocAllocMore m₁ (pages / 1024 - 1)
    let (_, m₃) ← liballocAllocSmall m₂ (pages % 1024)
    .ok (start, m₃)
  else liballocAllocSmall m pages

/-- The loop of `liballoc_free` with `n` pages left: `1` if a page was not mapped. -/
def liballocFreeLoop (m : Mem) (addr : ℕ) : ℕ → Int × Mem
  | 0 => (0, m)
  | n + 1 =>
      let physaddr := vmmGetPhysaddr m addr
      if physaddr = 0 then (1, m)
      else
        match vmmUnmapPage (pmmFreePage m physaddr) addr with
        | (false, m') => (1, m')
        | (true, m') => liballocFreeLoop m' (wrap32 (addr + 0x1000)) n

def liballocFree (m : Mem) (addr pages : ℕ) : Int × Mem := liballocFreeLoop m addr pages

/-! ### Thread stacks -/

/-- `vmm_map_stack`: the kernel address of an empty page table for a new stack. -/
def vmmMapStack (m : Mem) : Except Fault (ℕ × Mem) := do
  let (newptaddr, m₁) ← liballocAlloc m 1
  if newptaddr = 0 then .error .nullDeref
  else .ok (newptaddr, m₁.clearTable (vmmGetPhysaddr m₁ newptaddr))

/-- `vmm_switch_stack`: enter the stack table at `stackpt` into the directory mapped at
`cr3Virt`. -/
def vmmSwitchStack (m : Mem) (cr3Virt stackpdi stackpt : ℕ) : Except Fault Mem :=
  let pd := vmmGetPhysaddr m cr3Virt
  if pd = 0 then .error .nullDeref
  else .ok (m.setEntry pd stackpdi (some (mkPte (vmmGetPhysaddr m stackpt) 0x7)))

end GalaxyOS
