import GalaxyOS.Mem.LiballocKernel
import GalaxyOS.Sched.Frames

/-! # `kmalloc`

What the results about the allocator say about the kernel.  `kmalloc` fails only if neither its blocks
nor the free frames and the addresses behind the heap are enough, and no frame is lost, whatever is
allocated and freed.

`kmalloc_serves`, `kmalloc_serves_iff` and `kmalloc_conserves` are about every run of calls.  They follow
from `Client.step`, with the hooks of the kernel being lawful, from `HeapInv.malloc_iff` and
`KernelPages.refuses_iff`, and from `HeapInv.filled_eq`, which counts the frames. -/

namespace GalaxyOS

open Transition Records Linked BlockStore

variable {m : Mem} {k : ℕ} {total : Option ℕ} {h h' : Client Mem} {cs : List (HeapCall Mem)}

/-- A memory in which every frame has an owner. -/
theorem Owned.kernelPages {role : ℕ → Role} {K : ℕ → ℕ} (h : Owned role K m)
    (hcr3 : Directory role K m m.cr3) : KernelPages m := by
  obtain ⟨hlo, hhi, halign⟩ := h.heap
  have hpage : ∀ {p f : ℕ}, heapBase / 0x1000 ≤ p → translation m p = some f →
      ∃ u, role f = .kern (p * 0x1000) u := by
    intro p f hp hf
    have hlt : p < 0xFFC00 := by
      by_contra hge
      unfold translation at hf
      rw [if_neg hge] at hf
      cases hf
    have hheap : HeapPage (p * 0x1000) := by
      unfold heapBase at hp
      unfold HeapPage heapBase heapLimit
      omega
    unfold translation pageEntry at hf
    obtain ⟨fl, hpde⟩ := hcr3.kernel _ hheap.pdindex.1 hheap.pdindex.2
    rw [if_pos hlt, hpde, Option.bind_some, Option.map_eq_some_iff] at hf
    obtain ⟨pte, hpte, rfl⟩ := hf
    exact h.heapEntry _ hheap pte hpte
  refine ⟨hcr3.kernelTables, fun i hi => h.kernelApart hcr3 i (by omega), h.heap, fun p hp => ?_, fun f hf => ?_,
    h.nodup, fun p f hp hf => ?_, fun p q f hp hq hfp hfq => ?_⟩
  · by_cases hlt : p < 0xFFC00
    · obtain ⟨i, rfl⟩ := Nat.exists_eq_add_of_le hp
      apply h.unmapped hcr3
      unfold heapLimit
      omega
    · unfold translation
      rw [if_neg hlt]
  · exact h.frames f (by rw [h.free f hf]; exact Role.noConfusion)
  · obtain ⟨u, hu⟩ := hpage hp hf
    obtain ⟨haligned, hne⟩ := h.frames f (by rw [hu]; exact Role.noConfusion)
    refine ⟨haligned, hne, fun hin => ?_⟩
    rw [h.free f hin] at hu
    cases hu
  · obtain ⟨u, hu⟩ := hpage hp hfp
    obtain ⟨u', hu'⟩ := hpage hq hfq
    rw [hu] at hu'
    obtain ⟨heq, -⟩ := Role.kern.inj hu'
    omega

/-- When the kernel has no pages for a block. -/
theorem KernelPages.refuses_iff (h : KernelPages m) (hk : 1 ≤ k) :
    kernelHooks.Refuses m k ↔
      ¬(k ≤ pmmAvailable m ∧ m.endMappedKmemory + 0x1000 * k < heapLimit) := by
  rw [← h.alloc_iff hk]
  constructor
  · rintro (⟨e, he⟩ | ⟨m', hrun⟩) ⟨a, m'', hrun'⟩
    · rw [show kernelHooks.liballocAlloc m k = liballocAlloc m k from rfl, hrun'] at he
      cases he
    · obtain ⟨m₁, hrun₁, -⟩ := liballocAlloc_allocated (h.alloc_room hrun') hk
      have hzero : (0 : ℕ) = m.endMappedKmemory :=
        (Prod.mk.inj (Except.ok.inj (Eq.trans (Eq.symm hrun) hrun₁))).1
      have hlo := h.heap.1
      unfold heapBase at hlo
      omega
  · intro hno
    cases hrun : liballocAlloc m k with
    | error e => exact .inl ⟨e, hrun⟩
    | ok r => exact absurd ⟨r.1, r.2, hrun⟩ hno

/-- The kernel before anything has been allocated: sixteen frames for a first block, and some more. -/
def bootClient : Client Mem where
  heap :=
    { sys := bootMachine 24
      memRoot := 0
      bestBet := 0
      allocated := 0
      inuse := 0
      warningCount := 0
      errorCount := 0
      possibleOverruns := 0 }
  blocks := []
  others := kernelByte (bootMachine 24)

theorem bootClient_pages : KernelPages bootClient.heap.sys :=
  (bootMachine_boot 24).owned.kernelPages (bootMachine_boot 24).directory

/-- As long as the heap has no page, the frames are the free ones. -/
theorem KernelPages.frames_empty (h : KernelPages m) (hheap : m.endMappedKmemory = heapBase) :
    kernelFrames m = pmmAvailable m := by
  have hempty : ∀ p ∈ Finset.Ico (heapBase / 0x1000) (heapLimit / 0x1000),
      ¬(translation m p).isSome := by
    intro p hp
    obtain ⟨hlo, -⟩ := Finset.mem_Ico.mp hp
    rw [h.unmapped p (by rw [hheap]; exact hlo)]
    exact Bool.false_ne_true
  unfold kernelFrames Stretch.filled
  rw [Finset.filter_false_of_mem hempty, Finset.card_empty, Nat.add_zero]

theorem bootClient_frames : kernelFrames bootClient.heap.sys = 24 :=
  (bootClient_pages.frames_empty (bootMachine_boot 24).heap).trans
    ((List.length_map _).trans List.length_range)

theorem bootClient_fresh (total : Option ℕ) (htotal : ∀ t ∈ total, t = 24) :
    bootClient.Fresh kernelHooks (KernelOk total) :=
  ⟨⟨bootClient_pages, fun t ht => bootClient_frames.trans (htotal t ht).symm⟩, rfl, rfl, rfl, rfl, rfl, rfl⟩

/-- Between the calls of `kmalloc` and its relatives a page of the kernel heap is taken without them. -/
theorem bootClient_run : ∃ s others h',
    Admits (Client.call kernelHooks .kernel)
      (fun h c => c.Allowed kernelHooks (KernelOk (some 24)) 0xFFFFF h)
      (firstCalls 0xC0C00040 ++ .world s others :: laterCalls 0xC0C00040) bootClient ∧
    runAll (Client.call kernelHooks .kernel)
      (firstCalls 0xC0C00040 ++ .world s others :: laterCalls 0xC0C00040) bootClient = .ok h' ∧
    h'.HasLetter 0xC0C00040 ∧ pmmAvailable h'.heap.sys = 7 ∧ h'.heap.allocated = 0x10000 := by
  apply (bootClient_fresh (some 24) fun t ht => (Option.some.inj ht).symm).interrupted (n := 1)
    (kernelHooks_lawful (some 24)) (by decide)
  decide +kernel

/-- Until the frames or the addresses of the kernel heap are used up, `kmalloc` and its relatives keep
their promises. -/
theorem kmalloc_serves (hfresh : h.Fresh kernelHooks (KernelOk total))
    (hadm : Admits (Client.call kernelHooks .kernel)
      (fun h c => c.Allowed kernelHooks (KernelOk total) 0xFFFFF h) cs h) :
    (∃ h', runAll (Client.call kernelHooks .kernel) cs h = .ok h' ∧ h'.Sound kernelHooks) ∨
    ∃ done c rest h' n, cs = done ++ c :: rest ∧
      runAll (Client.call kernelHooks .kernel) done h = .ok h' ∧ h'.Sound kernelHooks ∧
      (∃ e, h'.call kernelHooks .kernel c = .error e) ∧ c.asked = some n ∧
      ¬(pagesFor (n + 32) ≤ pmmAvailable h'.heap.sys ∧
        h'.heap.sys.endMappedKmemory + 0x1000 * pagesFor (n + 32) < heapLimit) := by
  rcases liballoc_serves (kernelHooks_lawful total) hfresh hadm with hend | ⟨done, c, rest, h', rfl, hrun, hsound, he,
    n, hasked, hno⟩
  · exact .inl hend
  · obtain ⟨L, hinv, -⟩ := hfresh.run (kernelHooks_lawful total) hadm.front hrun
    refine .inr ⟨done, c, rest, h', n, rfl, hrun, hsound, he, hasked, ?_⟩
    exact (hinv.ok.1.refuses_iff (Nat.le_trans (by decide) (pagesFor_spec (n + 32)).1)).mp hno

theorem kmalloc_serves_boot : ∃ s others h',
    runAll (Client.call kernelHooks .kernel)
      (firstCalls 0xC0C00040 ++ .world s others :: laterCalls 0xC0C00040) bootClient = .ok h' ∧
    h'.HasLetter 0xC0C00040 ∧ h'.Sound kernelHooks := by
  obtain ⟨s, others, h', hadm, hrun, hletter, -⟩ := bootClient_run
  have hfresh := bootClient_fresh (some 24) fun t ht => (Option.some.inj ht).symm
  rcases kmalloc_serves hfresh hadm with ⟨h'', hrun', hsound⟩ |
    ⟨done, c, rest, h'', n, hcs, hdone, -, ⟨e, he⟩, -⟩
  · obtain rfl := Except.ok.inj (hrun.symm.trans hrun')
    exact ⟨s, others, h', hrun, hletter, hsound⟩
  · rw [hcs, runAll_append, hdone, ok_bind, runAll, he, error_bind] at hrun
    cases hrun

/-- After any run `kmalloc` serves a size exactly if there is a gap for it between the pieces, or frames
and addresses for another block. -/
theorem kmalloc_serves_iff (hfresh : h.Fresh kernelHooks (KernelOk total))
    (hadm : Admits (Client.call kernelHooks .kernel)
      (fun h c => c.Allowed kernelHooks (KernelOk total) 0xFFFFF h) cs h)
    (hrun : runAll (Client.call kernelHooks .kernel) cs h = .ok h') :
    ∃ L, HeapInv kernelHooks (KernelOk total) h'.heap L ∧ TracksBlocks L h'.blocks ∧
      ∀ n, n + 80 ≤ 0xFFFFF000 →
        ((∃ p st', malloc kernelHooks .kernel h'.heap n = .ok (p, st') ∧ p ≠ 0) ↔
          (∃ P ∈ L, ∃ g ∈ gaps P.start P.fin P.chunks, n + 56 ≤ g) ∨
            pagesFor (n + 32) ≤ pmmAvailable h'.heap.sys ∧
              h'.heap.sys.endMappedKmemory + 0x1000 * pagesFor (n + 32) < heapLimit) := by
  obtain ⟨L, hinv, -, ht, -⟩ := hfresh.run (kernelHooks_lawful total) hadm hrun
  refine ⟨L, hinv, ht, fun n hn => ?_⟩
  have hpages : 1 ≤ pagesFor (n + 32) :=
    Nat.le_trans (by decide : 1 ≤ lPageCount) (pagesFor_spec (n + 32)).1
  rw [hinv.malloc_iff (kernelHooks_lawful total) hn]
  refine or_congr_right ?_
  show ¬kernelHooks.Refuses h'.heap.sys (pagesFor (n + 32)) ↔ _
  rw [hinv.ok.1.refuses_iff hpages, not_not]

/-- After the run seven frames are left, too few for another block. -/
theorem kmalloc_serves_iff_boot : ∃ s others h',
    runAll (Client.call kernelHooks .kernel)
      (firstCalls 0xC0C00040 ++ .world s others :: laterCalls 0xC0C00040) bootClient = .ok h' ∧
    ∃ L, HeapInv kernelHooks (KernelOk (some 24)) h'.heap L ∧ TracksBlocks L h'.blocks ∧
      ((∃ p st', malloc kernelHooks .kernel h'.heap 5000 = .ok (p, st') ∧ p ≠ 0) ↔
        ∃ P ∈ L, ∃ g ∈ gaps P.start P.fin P.chunks, 5056 ≤ g) := by
  obtain ⟨s, others, h', hadm, hrun, -, havail, -⟩ := bootClient_run
  have hfresh := bootClient_fresh (some 24) fun t ht => (Option.some.inj ht).symm
  obtain ⟨L, hinv, ht, hiff⟩ := kmalloc_serves_iff hfresh hadm hrun
  refine ⟨s, others, h', hrun, L, hinv, ht, (hiff 5000 (by decide)).trans (or_iff_left fun hroom => ?_)⟩
  have hpages : 16 ≤ pagesFor (5000 + 32) := (pagesFor_spec (5000 + 32)).1
  omega

/-! ### No frame is lost -/

/-- The pages of the blocks. -/
def poolPages (L : List Pool) : List (ℕ × ℕ) := L.map fun P => (P.addr / 0x1000, P.pages)

theorem poolBytes_eq_pages : ∀ L : List Pool, poolBytes L = 0x1000 * Layout.total (poolPages L)
  | [] => rfl
  | P :: L => by
      have hrest := poolBytes_eq_pages L
      show P.pages * lPageSize + poolBytes L = 0x1000 * (P.pages + Layout.total (poolPages L))
      unfold lPageSize
      omega

/-- A page belongs to the blocks with all its bytes, or not at all. -/
theorem Geometry.mem_poolPages {L : List Pool} (h : Geometry L) (p : ℕ) :
    (∃ q ∈ poolPages L, q.1 ≤ p ∧ p < q.1 + q.2) ↔ InPools L (p * 0x1000) := by
  constructor
  · rintro ⟨q, hq, hlo, hhi⟩
    obtain ⟨P, hP, rfl⟩ := List.mem_map.mp hq
    have halign := (h.pages P hP).2
    refine ⟨P, hP, ?_⟩
    rw [mem_piece]
    unfold lPageSize at halign ⊢
    simp only at hlo hhi
    omega
  · rintro ⟨P, hP, hb⟩
    have halign := (h.pages P hP).2
    refine ⟨_, List.mem_map_of_mem hP, ?_⟩
    rw [mem_piece] at hb
    unfold lPageSize at halign hb
    simp only
    omega

theorem Geometry.poolPages_apart {L : List Pool} (h : Geometry L) :
    (poolPages L).Pairwise Layout.Apart := by
  apply List.pairwise_map.mpr
  apply (List.pairwise_map.mp h.blocks.apart).imp_of_mem
  intro P Q hP hQ hPQ
  have hP' := (h.pages P hP).2
  have hQ' := (h.pages Q hQ).2
  unfold Layout.Apart lPageSize at *
  simp only at hPQ ⊢
  omega

/-- The pages that the kernel heap has mapped are those of the allocator and those of others. -/
theorem HeapInv.filled_eq {st : Liballoc Mem} {L : List Pool} {B : ℕ → Option UInt8}
    (hI : HeapInv kernelHooks (KernelOk total) st L) (hacc : Account kernelHooks B L st.sys) :
    Stretch.filled (translation st.sys) (heapBase / 0x1000) (heapLimit / 0x1000) =
      Stretch.filled (fun p => B (p * 0x1000)) (heapBase / 0x1000) (heapLimit / 0x1000) +
        Layout.total (poolPages L) := by
  have hg := hI.geometry
  obtain ⟨S, hcard, hS⟩ := Layout.exists_bytes hg.poolPages_apart
  have hmem : ∀ p, p ∈ S ↔ InPools L (p * 0x1000) := fun p => (hS p).trans (hg.mem_poolPages p)
  have hpage : ∀ p, heapBase / 0x1000 ≤ p → p < heapLimit / 0x1000 →
      (kernelByte st.sys (p * 0x1000) = none ↔ translation st.sys p = none) := by
    intro p hlo hhi
    unfold heapBase at hlo
    unfold heapLimit at hhi
    have hheap : heapBase ≤ p * 0x1000 ∧ p * 0x1000 < heapLimit := by
      unfold heapBase heapLimit
      omega
    rw [kernelByte_eq_none, Nat.mul_div_cancel p (by decide)]
    exact ⟨fun h => h.resolve_left (not_not.mpr hheap), .inr⟩
  have hinside : ∀ p ∈ S, heapBase / 0x1000 ≤ p ∧ p < heapLimit / 0x1000 ∧
      (translation st.sys p).isSome := by
    intro p hp
    obtain ⟨P, hP, hlo, hhi⟩ := (hmem p).mp hp
    have hmap := hI.mapped P hP (p * 0x1000 - P.addr) (by omega)
    rw [Nat.add_sub_cancel' hlo] at hmap
    obtain ⟨hbase, hlimit, f, hf⟩ := kernelByte_ne_none hmap
    rw [Nat.mul_div_cancel p (by decide)] at hf
    have hlo' := Nat.div_le_div_right (c := 0x1000) hbase
    rw [Nat.mul_div_cancel p (by decide)] at hlo'
    refine ⟨hlo', ?_, by rw [hf]; rfl⟩
    unfold heapLimit at hlimit ⊢
    omega
  have hunion : (Finset.Ico (heapBase / 0x1000) (heapLimit / 0x1000)).filter
      (fun p => (translation st.sys p).isSome) =
      (Finset.Ico (heapBase / 0x1000) (heapLimit / 0x1000)).filter
        (fun p => (B (p * 0x1000)).isSome) ∪ S := by
    ext p
    rw [Finset.mem_union, Finset.mem_filter, Finset.mem_filter, Finset.mem_Ico]
    by_cases hp : p ∈ S
    · obtain ⟨hlo, hhi, hsome⟩ := hinside p hp
      exact iff_of_true ⟨⟨hlo, hhi⟩, hsome⟩ (.inr hp)
    · have hout := hacc.outside (p * 0x1000) fun hin => hp ((hmem p).mpr hin)
      have hiff : heapBase / 0x1000 ≤ p ∧ p < heapLimit / 0x1000 →
          ((translation st.sys p).isSome ↔ (B (p * 0x1000)).isSome) := by
        rintro ⟨hlo, hhi⟩
        rw [Option.isSome_iff_ne_none, Option.isSome_iff_ne_none, ne_eq, ne_eq, ← hpage p hlo hhi, ← hout]
        rfl
      rw [or_iff_left hp]
      exact and_congr_right hiff
  unfold Stretch.filled
  rw [hunion, Finset.card_union_of_disjoint, hcard]
  rw [Finset.disjoint_left]
  intro p hp hin
  rw [Finset.mem_filter, hacc.apart _ ((hmem p).mp hin)] at hp
  exact absurd hp.2 Bool.false_ne_true

/-- The counters are right after every run, the frames are free, or behind the pages of the allocator, or
behind other pages of the heap, and nothing is kept when everything has been freed. -/
theorem kmalloc_conserves {t : ℕ} (hfresh : h.Fresh kernelHooks (KernelOk (some t)))
    (hadm : Admits (Client.call kernelHooks .kernel)
      (fun h c => c.Allowed kernelHooks (KernelOk (some t)) 0xFFFFF h) cs h)
    (hrun : runAll (Client.call kernelHooks .kernel) cs h = .ok h') :
    h'.Balanced kernelHooks .kernel ∧
      0x1000 * pmmAvailable h'.heap.sys + h'.heap.allocated + 0x1000 * Stretch.filled
        (fun p => h'.others (p * 0x1000)) (heapBase / 0x1000) (heapLimit / 0x1000) = 0x1000 * t := by
  have hI := hfresh.run (kernelHooks_lawful (some t)) hadm hrun
  refine ⟨hI.balanced, ?_⟩
  obtain ⟨L, hinv, hacc, -⟩ := hI
  have htotal := hinv.ok.2 t rfl
  unfold kernelFrames at htotal
  rw [hinv.filled_eq hacc] at htotal
  rw [hinv.allocated, poolBytes_eq_pages]
  omega

/-- Seven frames are free, sixteen are behind the block, and one is behind the page that was taken without
`kmalloc`. -/
theorem kmalloc_conserves_boot : ∃ s others h',
    runAll (Client.call kernelHooks .kernel)
      (firstCalls 0xC0C00040 ++ .world s others :: laterCalls 0xC0C00040) bootClient = .ok h' ∧
    h'.Balanced kernelHooks .kernel ∧
    0x1000 * 7 + 0x10000 + 0x1000 * Stretch.filled (fun p => h'.others (p * 0x1000))
      (heapBase / 0x1000) (heapLimit / 0x1000) = 0x1000 * 24 := by
  obtain ⟨s, others, h', hadm, hrun, -, havail, hallocated⟩ := bootClient_run
  have hfresh := bootClient_fresh (some 24) fun t ht => (Option.some.inj ht).symm
  obtain ⟨hbalanced, htotal⟩ := kmalloc_conserves hfresh hadm hrun
  rw [havail, hallocated] at htotal
  exact ⟨s, others, h', hrun, hbalanced, htotal⟩

end GalaxyOS
