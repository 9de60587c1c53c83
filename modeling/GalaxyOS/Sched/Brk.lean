import GalaxyOS.Sched.State

/-! # The program break and the release of user memory

`sched_setbrk_true` moves the end of a process's heap, mapping or unmapping whole pages, and
`sched_free_all` gives back the heap and the regions that the loader mapped.  Both work in the
page directory of the process and restore `cr3` when they are done.

What a move of the break leaves is `schedSetbrkTrue_spec` in `ProgramBreak`, and whose frames are used and
given back is said in `UserMemory`. -/

namespace GalaxyOS

/-- Unmap `n` heap pages below `pgbrk`, giving their frames back. -/
def brkUnmap (m : Mem) (pgbrk : ℕ) : ℕ → ℕ × Mem
  | 0 => (pgbrk, m)
  | n + 1 =>
      let page := pgbrk - 0x1000
      let physaddr := vmmGetPhysaddr m page
      let m' := if physaddr ≠ 0 then
          (vmmUnmapPage (pmmFreePage m (physaddr / 0x1000 * 0x1000)) page).2
        else m
      brkUnmap m' page n

/-- Map `n` heap pages from `pgbrk` on: whether it failed, and the new `pgbrk`. -/
def brkMap (m : Mem) (pgbrk : ℕ) : ℕ → Except Fault (Bool × ℕ × Mem)
  | 0 => .ok (false, pgbrk, m)
  | n + 1 =>
      -- keep a reserve so pmm can't panic
      if pmmAvailable m < 8 then .ok (true, pgbrk, m)
      else do
        let (page, m₁) ← pmmAllocPage m
        let (r, m₂) ← vmmMapPage m₁ page pgbrk 0x7 false
        if r ≠ 0 then .ok (true, pgbrk, pmmFreePage m₂ page)
        else brkMap m₂ (pgbrk + 0x1000) n

/-- Map `pagecnt` heap pages if there are frames for them and for their page tables; a huge
request fails cleanly up front. -/
def brkReserve (m : Mem) (pgbrk pagecnt : ℕ) : Except Fault (Bool × ℕ × Mem) :=
  if pagecnt + (pagecnt / 1024 + 2) > pmmAvailable m then .ok (true, pgbrk, m)
  else brkMap m pgbrk pagecnt

/-- Grow the heap to `realbrk`, or leave it as it is. -/
def brkGrow (ps : Process) (m : Mem) (wantbrk realbrk : ℕ) : Except Fault (ℕ × Process × Mem) := do
  let (failed, pgbrk, m₁) ← brkReserve m ps.pgbrk ((realbrk - ps.pgbrk) / 0x1000)
  if failed then
    let (_, m₂) := brkUnmap m₁ pgbrk ((pgbrk - ps.pgbrk) / 0x1000)
    .ok (ps.brk, ps, m₂)
  else
    .ok (wantbrk,
      { ps with
        pgbrk := pgbrk
        brkOffset := wrap32 (ps.brkOffset + (realbrk - ps.pgbrk))
        brk := wantbrk },
      m₁)

/-- Shrink the heap to `realbrk`. -/
def brkShrink (ps : Process) (m : Mem) (wantbrk realbrk : ℕ) : ℕ × Process × Mem :=
  let (pgbrk, m₁) := brkUnmap m ps.pgbrk ((ps.pgbrk - realbrk) / 0x1000)
  (wantbrk,
    { ps with
      pgbrk := pgbrk
      brkOffset := wrap32 (ps.brkOffset + 0x100000000 - (ps.pgbrk - realbrk))
      brk := wantbrk },
    m₁)

/-- Move the heap to `realbrk` in the page directory that is loaded. -/
def brkMove (ps : Process) (m : Mem) (wantbrk realbrk : ℕ) : Except Fault (ℕ × Process × Mem) :=
  if ps.pgbrk < realbrk then brkGrow ps m wantbrk realbrk
  else .ok (brkShrink ps m wantbrk realbrk)

/-- `wantbrk` rounded up to a page, in 32 bits. -/
def roundBrk (wantbrk : ℕ) : ℕ :=
  if wantbrk % 0x1000 ≠ 0 then wrap32 (wantbrk + (0x1000 - wantbrk % 0x1000)) else wantbrk

theorem roundBrk_eq {addr : ℕ} (h : addr < kernelStart) :
    roundBrk addr = (addr + 0xFFF) / 0x1000 * 0x1000 := by
  unfold kernelStart at h
  unfold roundBrk wrap32
  split_ifs with hpage
  · omega
  · omega

/-- The lowest break of a process: where its loader put it. -/
def Process.minbrk (ps : Process) : ℕ := wrap32 (ps.pgbrk + 0x100000000 - ps.brkOffset)

/-- `sched_setbrk_true`: the new break, or the old one if it cannot be moved. -/
def schedSetbrkTrue (ps : Process) (m : Mem) (addr : ℕ) : Except Fault (ℕ × Process × Mem) :=
  let realbrk := roundBrk addr
  if addr = 0 then .ok (ps.brk, ps, m)
  -- stay above the loader break and below kernel space
  else if addr < ps.minbrk ∨ addr ≥ kernelStart then .ok (ps.brk, ps, m)
  else if realbrk < addr then .ok (ps.brk, ps, m)
  -- keep out of the thread stack region
  else if realbrk > kernelStart - 0x400000 then .ok (ps.brk, ps, m)
  else if ps.pgbrk = realbrk then .ok (addr, { ps with brk := addr }, m)
  else do
    let (retval, ps', m₁) ← brkMove ps { m with cr3 := ps.cr3 } addr realbrk
    .ok (retval, ps', { m₁ with cr3 := m.cr3 })

/-- Free `n` pages of a loader region from `addr` on. -/
def freeRegionPages (m : Mem) (addr : ℕ) : ℕ → Mem
  | 0 => m
  | n + 1 =>
      let physaddr := vmmGetPhysaddr m addr
      let m' := if physaddr ≠ 0 then (vmmUnmapPage (pmmFreePage m physaddr) addr).2 else m
      freeRegionPages m' (wrap32 (addr + 0x1000)) n

/-- `sched_free_all`. -/
def schedFreeAll (ps : Process) (m : Mem) : Except Fault Mem := do
  let m₀ := { m with cr3 := ps.cr3 }
  let (_, _, m₁) ← schedSetbrkTrue ps m₀ ps.minbrk
  let m₂ := ps.psregions.foldl (fun m r => freeRegionPages m r.offset (r.size / 0x1000)) m₁
  .ok { m₂ with cr3 := m.cr3 }

end GalaxyOS
