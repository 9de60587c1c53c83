import GalaxyOS.Sched.Frames
import GalaxyOS.Sched.Demand

/-! # The addresses of the kernel heap

`vmm_map_pages_k` maps every block behind the last one ever mapped.  `liballoc_free` gives the
frames of a block back but never its addresses: `end_mapped_kmemory` only grows, and once it has
reached the page tables the next page panics, however little is still in use.

`heap_space_exact` says that a run gets through exactly if its allocations together fit, freed or not.
`liballocAlloc_room` is one allocation, and `NeedsRoom.bind` adds two of them up. -/

namespace GalaxyOS

open Transition

/-- The panic of a kernel that has no addresses left. -/
def OutOfSpace (e : Fault) : Prop := e = .panic "Out of virtual memory"

/-- Half of the pages between `heapBase` and `heapLimit`. -/
def halfHeap : ℕ := 0x1F800

/-- Blocks of one page come and go, fewer than half of the pages of the heap being in use. -/
def Call.Singles (st : FrameState) : Call → Prop
  | .liballocAlloc pages =>
      pages = 1 ∧ st.blocks.length + 1 < halfHeap ∧ pages ≤ pmmAvailable st.kernel.mem
  | .liballocFree addr pages => (addr, pages) ∈ st.blocks
  | _ => False

/-- There is one block at a time, of at most half of the heap. -/
def Call.OneBlock (st : FrameState) : Call → Prop
  | .liballocAlloc pages =>
      st.blocks = [] ∧ pages ≤ halfHeap ∧ pages ≤ pmmAvailable st.kernel.mem
  | .liballocFree addr pages => (addr, pages) ∈ st.blocks
  | _ => False

/-- Blocks are allocated while there are enough frames, and freed while they are held. -/
def Call.Balanced (st : FrameState) : Call → Prop
  | .liballocAlloc pages => pages ≤ pmmAvailable st.kernel.mem
  | .liballocFree addr pages => (addr, pages) ∈ st.blocks
  | _ => False

/-- The bytes of address space that a call asks for. -/
def Call.bytes : Call → ℕ
  | .liballocAlloc pages => 0x1000 * pages
  | _ => 0

theorem Call.Singles.balanced {st : FrameState} {c : Call} (h : c.Singles st) : c.Balanced st := by
  cases c with
  | liballocAlloc pages => exact h.2.2
  | liballocFree addr pages => exact h
  | _ => exact h

theorem Call.OneBlock.balanced {st : FrameState} {c : Call} (h : c.OneBlock st) :
    c.Balanced st := by
  cases c with
  | liballocAlloc pages => exact h.2.2
  | liballocFree addr pages => exact h
  | _ => exact h

/-! ### Room for a block -/

/-- `x` succeeds if there is room for `n` pages behind `top`, and panics if not. -/
def NeedsRoom {α : Type} (top n : ℕ) (x : Except Fault α) : Prop :=
  (top + 0x1000 * n < heapLimit ∧ ∃ a, x = .ok a) ∨
    (heapLimit ≤ top + 0x1000 * n ∧ ∃ e, x = .error e ∧ OutOfSpace e)

section Room

variable {α β : Type} {top n k : ℕ} {role : ℕ → Role} {K : ℕ → ℕ} {m : Mem}

theorem NeedsRoom.ok (h : top < heapLimit) (a : α) : NeedsRoom top 0 (.ok a) :=
  .inl ⟨h, a, rfl⟩

/-- Two allocations one after the other. -/
theorem NeedsRoom.bind {x : Except Fault α} {f : α → Except Fault β} (hx : NeedsRoom top n x)
    (hf : ∀ a, x = .ok a → top + 0x1000 * n < heapLimit →
      NeedsRoom (top + 0x1000 * n) k (f a)) : NeedsRoom top (n + k) (x >>= f) := by
  rcases hx with ⟨hlt, a, ha⟩ | ⟨hle, e, he, hout⟩
  · have hrest := hf a ha hlt
    unfold NeedsRoom at hrest ⊢
    rw [ha, ok_bind, Nat.mul_add, ← Nat.add_assoc]
    exact hrest
  · exact .inr ⟨by omega, e, by rw [he, error_bind], hout⟩

theorem NeedsRoom.map {x : Except Fault α} (f : α → β) (hx : NeedsRoom top n x) :
    NeedsRoom top n (x >>= fun a => .ok (f a)) :=
  hx.bind (k := 0) fun a _ hlt => .ok hlt (f a)

theorem pmmAllocPages_some (h : n ≤ pmmAvailable m) : ∃ x, pmmAllocPages m n = .ok x := by
  induction n generalizing m with
  | zero => exact ⟨_, rfl⟩
  | succ n ih =>
      cases hstack : m.pmemStack with
      | nil =>
          unfold pmmAvailable at h
          rw [hstack, List.length_nil] at h
          omega
      | cons page rest =>
          unfold pmmAvailable at h
          rw [hstack, List.length_cons] at h
          obtain ⟨⟨pages, m₁⟩, hrest⟩ := ih (m := { m with pmemStack := rest }) (Nat.le_of_succ_le_succ h)
          exact ⟨(page :: pages, m₁), by
            simp only [pmmAllocPages, pmmAllocPage, hstack, ok_bind, hrest]⟩

/-- The pages of a block are mapped one after the other until there is no room. -/
theorem vmmMapPagesKLoop_room {pages : List ℕ} (h : Owned role K m)
    (hcr3 : Directory role K m m.cr3) (hnodup : pages.Nodup)
    (hloose : ∀ f ∈ pages, Loose role m f) :
    NeedsRoom m.endMappedKmemory pages.length (vmmMapPagesKLoop m pages) := by
  induction pages generalizing m role with
  | nil => exact .ok h.heap.2.1 _
  | cons page pages ih =>
      obtain ⟨fl, hpde⟩ := hcr3.kernel _ h.heap.pdindex.1 h.heap.pdindex.2
      have hnone := h.fresh _ h.heap (Nat.le_refl _)
      obtain ⟨m₁, hmap, hend₁⟩ : ∃ m₁, vmmMapPage m page m.endMappedKmemory 0x3 false = .ok (0, m₁) ∧
          m₁.endMappedKmemory = m.endMappedKmemory := by
        refine ⟨m.setEntry (K (pdindex m.endMappedKmemory)) (ptindex m.endMappedKmemory)
          (some (mkPte page (0x3 % 0x1000 ||| 1))), ?_, rfl⟩
        simp only [vmmMapPage, vmmMapPageF, hpde, mapEntry, hnone]
      rw [vmmMapPagesKLoop, hmap, ok_bind]
      simp only [hend₁]
      rw [if_neg (by decide)]
      split_ifs with hend
      · refine .inr ⟨Nat.le_trans hend ?_, _, rfl, rfl⟩
        apply Nat.add_le_add_left
        exact Nat.le_mul_of_pos_right 0x1000 (Nat.succ_pos _)
      · have hpage := hloose page List.mem_cons_self
        obtain ⟨-, -, hext⟩ := heapPage_ok 0 h hcr3 hpage hmap
          (by rw [hend₁]; exact Nat.lt_of_not_le hend)
        rw [List.nodup_cons] at hnodup
        have hrest := ih hext.owned (hext.loaded hcr3 (hcr3.ne_loose hpage)) hnodup.2 fun f hf =>
          hext.loose f (fun hc => hnodup.1 (hc ▸ hf)) (hloose f (List.mem_cons_of_mem _ hf))
        unfold NeedsRoom at hrest ⊢
        simp only [hend₁] at hrest
        rw [List.length_cons, Nat.mul_succ, Nat.add_comm (0x1000 * pages.length), ← Nat.add_assoc]
        exact hrest

theorem liballocAllocSmall_room (h : Owned role K m) (hcr3 : Directory role K m m.cr3)
    (hn : n ≤ pmmAvailable m) : NeedsRoom m.endMappedKmemory n (liballocAllocSmall m n) := by
  unfold liballocAllocSmall
  split_ifs with h0
  · obtain rfl : n = 0 := by omega
    exact .ok h.heap.2.1 _
  · obtain ⟨⟨pages, m₁⟩, hpop⟩ := pmmAllocPages_some hn
    obtain ⟨hlen, hnodup, hpages, hext⟩ := Extends.pops h hpop
    have hend : m₁.endMappedKmemory = m.endMappedKmemory := by rw [(pmmAllocPages_eq hpop).2.1]
    have hloop := vmmMapPagesKLoop_room hext.owned (hext.loaded hcr3 (Set.notMem_empty _)) hnodup
      fun f hf => (hpages f hf).2
    rw [hlen, hend] at hloop
    rw [hpop, ok_bind]
    exact hloop.map fun x => (if x.1 = true then m₁.endMappedKmemory else 0, x.2)

theorem Directory.heapTables (hcr3 : Directory role K m m.cr3) (h : Owned role K m) (n : ℕ) :
    HeapTables m n := by
  intro i _ hroom
  have hpage : HeapPage (m.endMappedKmemory + 0x1000 * i) := by
    obtain ⟨h1, h2, h3⟩ := h.heap
    refine ⟨Nat.le_trans h1 (Nat.le_add_right _ _), ?_, by omega⟩
    rcases hroom with rfl | hlt
    · exact h2
    · exact hlt
  obtain ⟨fl, hpde⟩ := hcr3.kernel _ hpage.pdindex.1 hpage.pdindex.2
  rw [hpde]
  exact Option.some_ne_none _

theorem liballocAllocSmall_available {m' : Mem} {addr : ℕ} (h : Owned role K m)
    (hcr3 : Directory role K m m.cr3) (hn : n ≤ pmmAvailable m)
    (halloc : liballocAllocSmall m n = .ok (addr, m')) : pmmAvailable m = pmmAvailable m' + n :=
  ((liballocAllocSmall_demand hn (hcr3.heapTables h n)).2 addr m' halloc).1

theorem liballocAllocMore_room (h : Owned role K m) (hcr3 : Directory role K m m.cr3)
    (hn : 1024 * n ≤ pmmAvailable m) :
    NeedsRoom m.endMappedKmemory (1024 * n) (liballocAllocMore m n) := by
  induction n generalizing m role with
  | zero => exact .ok h.heap.2.1 _
  | succ n ih =>
      rw [Nat.mul_succ, Nat.add_comm]
      apply (liballocAllocSmall_room h hcr3 (by omega)).bind
      rintro ⟨addr, m₁⟩ hsmall -
      obtain ⟨-, hend, role', hext, -⟩ := liballocAllocSmall_ok 0 h hcr3 hsmall
      have hav := liballocAllocSmall_available h hcr3 (by omega) hsmall
      rw [← hend]
      exact ih hext.owned (hext.loaded hcr3 (Set.notMem_empty _)) (by omega)

/-- `liballoc_alloc` succeeds exactly as long as there is room behind the last block. -/
theorem liballocAlloc_room (h : Owned role K m) (hcr3 : Directory role K m m.cr3)
    (hn : n ≤ pmmAvailable m) : NeedsRoom m.endMappedKmemory n (liballocAlloc m n) := by
  unfold liballocAlloc
  split_ifs with hbig
  · have hpages : 1024 + (1024 * (n / 1024 - 1) + n % 1024) = n := by omega
    rw [← hpages]
    apply (liballocAllocSmall_room h hcr3 (by omega)).bind
    rintro ⟨start, m₁⟩ h1 -
    obtain ⟨-, hend₁, role₁, hext₁, -⟩ := liballocAllocSmall_ok 0 h hcr3 h1
    have hcr3₁ := hext₁.loaded hcr3 (Set.notMem_empty _)
    have hav₁ := liballocAllocSmall_available h hcr3 (by omega) h1
    rw [hpages, ← hend₁]
    apply (liballocAllocMore_room hext₁.owned hcr3₁ (by omega)).bind
    intro m₂ h2 _
    obtain ⟨hend₂, role₂, hext₂, -⟩ := liballocAllocMore_ok 0 hext₁.owned hcr3₁ h2
    have hcr3₂ := hext₂.loaded hcr3₁ (Set.notMem_empty _)
    have hav₂ := ((liballocAllocMore_demand (n := n / 1024 - 1) (by omega)
      (hcr3₁.heapTables hext₁.owned _)).2 m₂ h2).1
    rw [← hend₂]
    have hlast := liballocAllocSmall_room (n := n % 1024) hext₂.owned hcr3₂ (by omega)
    exact hlast.map fun x => (start, x.2)
  · exact liballocAllocSmall_room h hcr3 hn

theorem liballocAlloc_available {m' : Mem} {addr : ℕ} (h : Owned role K m)
    (hcr3 : Directory role K m m.cr3) (hn : n ≤ pmmAvailable m)
    (halloc : liballocAlloc m n = .ok (addr, m')) : pmmAvailable m = pmmAvailable m' + n := by
  unfold liballocAlloc at halloc
  split_ifs at halloc with hbig
  · simp only [bind_ok, Prod.exists, Except.ok.injEq, Prod.mk.injEq] at halloc
    obtain ⟨start, m₁, h1, m₂, h2, last, m₃, h3, -, rfl⟩ := halloc
    obtain ⟨-, -, role₁, hext₁, -⟩ := liballocAllocSmall_ok 0 h hcr3 h1
    have hcr3₁ := hext₁.loaded hcr3 (Set.notMem_empty _)
    obtain ⟨-, role₂, hext₂, -⟩ := liballocAllocMore_ok 0 hext₁.owned hcr3₁ h2
    have hcr3₂ := hext₂.loaded hcr3₁ (Set.notMem_empty _)
    have hav₁ := liballocAllocSmall_available h hcr3 (by omega) h1
    have hav₂ := ((liballocAllocMore_demand (n := n / 1024 - 1) (by omega)
      (hcr3₁.heapTables hext₁.owned _)).2 m₂ h2).1
    have hav₃ := liballocAllocSmall_available hext₂.owned hcr3₂ (by omega) h3
    omega
  · exact liballocAllocSmall_available h hcr3 hn halloc

end Room

/-! ### Runs -/

/-- The end of the kernel heap in a state. -/
def FrameState.heapEnd (st : FrameState) : ℕ := st.kernel.mem.endMappedKmemory

/-- The invariant of the runs: every frame has one owner. -/
def FrameState.Sound (st : FrameState) : Prop := ∃ role K, FrameInv role K st.blocks st.kernel

theorem FrameState.Sound.step {st : FrameState} {c : Call} (h : st.Sound) (hc : c.Balanced st) :
    (st.heapEnd + c.bytes < heapLimit ∧
      ∃ st', st.exec c = .ok st' ∧ st'.Sound ∧ st'.heapEnd = st.heapEnd + c.bytes) ∨
    (heapLimit ≤ st.heapEnd + c.bytes ∧ ∃ e, st.exec c = .error e ∧ OutOfSpace e) := by
  obtain ⟨role, K, hinv⟩ := h
  cases c with
  | liballocAlloc pages =>
      rcases liballocAlloc_room hinv.owned hinv.cr3 hc with ⟨hlt, ⟨addr, mem⟩, ha⟩ | ⟨hle, e, he, hout⟩
      · obtain ⟨-, hend, -⟩ := liballocAlloc_ok hinv.owned hinv.cr3 ha
        obtain ⟨role', hinv'⟩ := hinv.allocBlock ha
        refine .inl ⟨hlt, ⟨{ st.kernel with mem := mem },
          (Call.liballocAlloc pages).noteBlock addr st.blocks⟩, ?_, ⟨role', K, hinv'⟩, hend⟩
        simp only [FrameState.exec, GalaxyOS.exec, ha, ok_bind]
      · refine .inr ⟨hle, e, ?_, hout⟩
        simp only [FrameState.exec, GalaxyOS.exec, he, error_bind]
  | liballocFree addr pages =>
      obtain ⟨role', hinv'⟩ := hinv.freeBlock hc
      have hend := (liballocFreeLoop_end st.kernel.mem addr pages).1
      exact .inl ⟨hinv.owned.heap.2.1, _, rfl, ⟨role', K, hinv'⟩, hend⟩
  | _ => exact hc.elim

theorem balanced_space {st : FrameState} {cs : List Call} (h : st.Sound)
    (hcs : Admits FrameState.exec (fun st c => c.Balanced st) cs st) :
    Avoids OutOfSpace (runAll FrameState.exec cs st) ↔
      st.heapEnd + totalCost Call.bytes cs < heapLimit := by
  apply runAll_budget (I := FrameState.Sound) ?_ ?_ h hcs
  · rintro st ⟨role, K, hinv⟩
    exact hinv.owned.heap.2.1
  · exact fun st c hI hc => hI.step hc

/-- **Freed address space is not reusable**: the panic comes when all allocations of the run
together have asked for the whole range, whatever has been freed. -/
theorem heap_space_exact {st : FrameState} {cs : List Call} (hst : FrameStart st)
    (hcs : Admits FrameState.exec (fun st c => c.Singles st) cs st ∨
      Admits FrameState.exec (fun st c => c.OneBlock st) cs st) :
    Avoids OutOfSpace (runAll FrameState.exec cs st) ↔
      heapBase + totalCost Call.bytes cs < heapLimit := by
  have hend : st.heapEnd = heapBase := by
    obtain ⟨mem, eflags, hboot, rfl⟩ := hst
    exact hboot.heap
  have hbalanced : Admits FrameState.exec (fun st c => c.Balanced st) cs st := by
    rcases hcs with hcs | hcs
    · exact hcs.mono fun _ _ hc => hc.balanced
    · exact hcs.mono fun _ _ hc => hc.balanced
  rw [← hend]
  exact balanced_space (FrameInv.started hst) hbalanced

/-- What an allocation leaves. -/
theorem FrameState.Sound.allocated {st st' : FrameState} {n : ℕ} (h : st.Sound) (h0 : n ≠ 0)
    (hn : n ≤ pmmAvailable st.kernel.mem) (halloc : st.exec (.liballocAlloc n) = .ok st') :
    st'.blocks = (st.heapEnd, n) :: st.blocks ∧
      pmmAvailable st.kernel.mem = pmmAvailable st'.kernel.mem + n := by
  obtain ⟨role, K, hinv⟩ := h
  simp only [FrameState.exec, GalaxyOS.exec, bind_ok, Prod.exists, Except.ok.injEq,
    Prod.mk.injEq] at halloc
  obtain ⟨r, s', ⟨addr, mem, ha, rfl, rfl⟩, rfl⟩ := halloc
  obtain ⟨haddr, -⟩ := liballocAlloc_ok hinv.owned hinv.cr3 ha
  have hav := liballocAlloc_available hinv.owned hinv.cr3 hn ha
  have hbase := hinv.owned.heap.1
  rw [if_neg h0] at haddr
  unfold heapBase at hbase
  refine ⟨?_, hav⟩
  simp only [Call.noteBlock]
  rw [if_neg (by omega), haddr]
  rfl

/-- A block of `n` pages is allocated and freed, and another one is allocated. -/
def twice (n : ℕ) : List Call :=
  [.liballocAlloc n, .liballocFree heapBase n, .liballocAlloc n]

theorem bootMachine_available (frames : ℕ) : pmmAvailable (bootMachine frames) = frames := by
  simp [pmmAvailable, bootMachine]

/-- The two allocations meet every condition but room on a machine with `2 * n` frames. -/
theorem twice_oneBlock {n : ℕ} (h0 : n ≠ 0) (hn : n ≤ halfHeap) :
    Admits FrameState.exec (fun st c => c.OneBlock st) (twice n)
      ⟨Kernel.boot (bootMachine (2 * n)) 0, []⟩ := by
  have hsound : FrameState.Sound ⟨Kernel.boot (bootMachine (2 * n)) 0, []⟩ :=
    FrameInv.started ⟨_, 0, bootMachine_boot _, rfl⟩
  have havail : pmmAvailable (Kernel.boot (bootMachine (2 * n)) 0).mem = 2 * n :=
    bootMachine_available _
  refine ⟨⟨rfl, hn, by simp only; omega⟩, fun st halloc => ?_⟩
  obtain ⟨hblocks, hav⟩ := hsound.allocated h0 (by simp only; omega) halloc
  have hend : st.blocks = [(heapBase, n)] := hblocks
  refine ⟨by simp [Call.OneBlock, hend], fun st₂ hfree => ?_⟩
  obtain rfl : ⟨{ st.kernel with mem := (liballocFree st.kernel.mem heapBase n).2 },
    st.blocks.erase (heapBase, n)⟩ = st₂ := Except.ok.inj hfree
  have hmore := (liballocFreeLoop_end st.kernel.mem heapBase n).2
  refine ⟨⟨by simp [hend], hn, ?_⟩, fun _ _ => trivial⟩
  simp only at hav ⊢
  exact Nat.le_trans (by omega) hmore

/-- Two small blocks, one after the other, fit. -/
theorem heap_space_exact_small : ∃ st, FrameStart st ∧
    Avoids OutOfSpace (runAll FrameState.exec (twice 8) st) :=
  ⟨_, ⟨_, 0, bootMachine_boot 16, rfl⟩, (heap_space_exact ⟨_, 0, bootMachine_boot 16, rfl⟩
    (.inr (twice_oneBlock (by decide) (by decide)))).mpr (by decide)⟩

/-- A block of half of the range is allocated and freed, and the next one of that size panics. -/
theorem heap_space_lost : ∃ st, FrameStart st ∧
    Admits FrameState.exec (fun st c => c.OneBlock st) (twice halfHeap) st ∧
      ¬Avoids OutOfSpace (runAll FrameState.exec (twice halfHeap) st) := by
  have hone := twice_oneBlock (n := halfHeap) (by decide) (Nat.le_refl _)
  have hstart : FrameStart ⟨Kernel.boot (bootMachine (2 * halfHeap)) 0, []⟩ :=
    ⟨_, 0, bootMachine_boot _, rfl⟩
  refine ⟨_, hstart, hone, fun havoid => ?_⟩
  have hlt := (balanced_space (FrameInv.started hstart) (hone.mono fun _ _ hc => hc.balanced)).mp havoid
  exact absurd hlt (by decide)

end GalaxyOS
