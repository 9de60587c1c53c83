import GalaxyOS.Mem.LiballocBooks
import GalaxyOS.Mem.RoundTrip

/-! # The allocator of the kernel

`kmalloc` and its relatives get their blocks from `liballoc_alloc`, which maps free frames at the end of
the kernel heap, and give them back with `liballoc_free`.  `KernelPages` is what the page tables and the
free frames have to be like for the allocator to work; both functions keep it.

`KernelPages.alloc_iff` says when `liballoc_alloc` returns, `KernelPages.allocated` and `KernelPages.free`
what the two functions leave; both go through the pages one by one. -/

namespace GalaxyOS

open Transition Records Linked BlockStore

/-- The byte behind an address of the kernel heap. -/
def kernelByte (m : Mem) (a : ℕ) : Option UInt8 :=
  if heapBase ≤ a ∧ a < heapLimit then
    (translation m (a / 0x1000)).map fun f => m.data (f + a % 0x1000)
  else none

/-- The hooks of `liballoc-vmm.c`. -/
def kernelHooks : LiballocHooks Mem where
  load := kernelByte
  store m a b := { m with data := Function.update m.data (vmmGetPhysaddr m a) b }
  liballocAlloc := liballocAlloc
  liballocFree := liballocFree

/-- The pages of the kernel heap have a frame each, which is not free, and nothing is mapped behind the
end of the heap. -/
structure KernelPages (m : Mem) : Prop where
  kernel : KernelTables m
  apart : TablesApart m 771
  heap : HeapPage m.endMappedKmemory
  unmapped : ∀ p, m.endMappedKmemory / 0x1000 ≤ p → translation m p = none
  frames : ∀ f ∈ m.pmemStack, f % 0x1000 = 0 ∧ f ≠ 0
  nodup : m.pmemStack.Nodup
  used : ∀ p f, heapBase / 0x1000 ≤ p → translation m p = some f →
    f % 0x1000 = 0 ∧ f ≠ 0 ∧ f ∉ m.pmemStack
  inj : ∀ p q f, heapBase / 0x1000 ≤ p → heapBase / 0x1000 ≤ q → translation m p = some f →
    translation m q = some f → p = q

variable {m m' m₁ : Mem} {n k a b f p : ℕ}

/-! ### Pages at the end of the heap -/

theorem KernelPages.room (h : KernelPages m) (hlimit : m.endMappedKmemory + 0x1000 * n < heapLimit)
    (havail : n ≤ pmmAvailable m) : HeapRoom m n :=
  ⟨h.kernel, h.apart, h.heap, hlimit, fun _ _ => h.unmapped _ (Nat.le_add_right _ _), h.frames, havail⟩

/-- Mapping frames at the end of the heap keeps the pages in order. -/
theorem KernelPages.allocated (h : KernelPages m) (hroom : HeapRoom m n) (ha : Allocated m n m') :
    KernelPages m' := by
  have hheap := h.heap
  have hlimit := hroom.limit
  have hlength := hroom.take_length
  have hsplit : (m.pmemStack.take n ++ m.pmemStack.drop n).Nodup := by
    rw [List.take_append_drop]
    exact h.nodup
  obtain ⟨htake, hdrop, hdisjoint⟩ := List.nodup_append.mp hsplit
  -- a page is one of the new ones, or it is as it was
  have hpage : ∀ {p f : ℕ}, translation m' p = some f →
      (f ∈ m.pmemStack.take n ∧ m.endMappedKmemory / 0x1000 ≤ p ∧
        (m.pmemStack.take n)[p - m.endMappedKmemory / 0x1000]? = some f) ∨ translation m p = some f := by
    intro p f hf
    rw [ha.translation] at hf
    unfold Stretch.insert at hf
    by_cases hin : m.endMappedKmemory / 0x1000 ≤ p ∧
        p < m.endMappedKmemory / 0x1000 + (m.pmemStack.take n).length
    · rw [if_pos hin] at hf
      exact .inl ⟨List.mem_of_getElem? hf, hin.1, hf⟩
    · rw [if_neg hin] at hf
      exact .inr hf
  refine ⟨ha.kernel, ha.apart, ?_, fun p hp => ?_, fun f hf => ?_, ?_, fun p f hp hf => ?_,
    fun p q f hp hq hfp hfq => ?_⟩
  · rw [ha.heap]
    obtain ⟨hlo, -, halign⟩ := hheap
    exact ⟨Nat.le_trans hlo (Nat.le_add_right _ _), hlimit, by omega⟩
  · rw [ha.heap] at hp
    rw [ha.translation, Stretch.insert_of_not_mem (by omega)]
    exact h.unmapped p (by omega)
  · rw [ha.stack] at hf
    exact h.frames f (List.mem_of_mem_drop hf)
  · rw [ha.stack]
    exact hdrop
  · rw [ha.stack]
    rcases hpage hf with ⟨hmem, -, -⟩ | hold
    · obtain ⟨halign, hne⟩ := h.frames f (List.mem_of_mem_take hmem)
      exact ⟨halign, hne, fun hin => hdisjoint f hmem f hin rfl⟩
    · obtain ⟨halign, hne, hnot⟩ := h.used p f hp hold
      exact ⟨halign, hne, fun hin => hnot (List.mem_of_mem_drop hin)⟩
  · rcases hpage hfp with ⟨hmem, hple, hip⟩ | hold <;> rcases hpage hfq with ⟨hmem', hqle, hiq⟩ | hold'
    · obtain ⟨hlt, heq⟩ := List.getElem?_eq_some_iff.mp hip
      obtain ⟨hlt', heq'⟩ := List.getElem?_eq_some_iff.mp hiq
      have hsame := htake.getElem_inj_iff.mp (heq.trans heq'.symm)
      omega
    · exact absurd (List.mem_of_mem_take hmem) (h.used q f hq hold').2.2
    · exact absurd (List.mem_of_mem_take hmem') (h.used p f hp hold).2.2
    · exact h.inj p q f hp hq hold hold'

/-- Pages are mapped only as long as there are addresses. -/
theorem vmmMapPagesKLoop_limit (pages : List ℕ) : ∀ {m m' : Mem} {r : Bool}, KernelTables m →
    TablesApart m 771 → HeapPage m.endMappedKmemory →
    (∀ p, m.endMappedKmemory / 0x1000 ≤ p → translation m p = none) → (∀ f ∈ pages, f % 0x1000 = 0) →
    vmmMapPagesKLoop m pages = .ok (r, m') → m.endMappedKmemory + 0x1000 * pages.length < heapLimit := by
  induction pages with
  | nil => exact fun _ _ hheap _ _ _ => hheap.2.1
  | cons f pages ih =>
      intro m m' r hkernel hapart hheap hunmapped haligned hrun
      obtain ⟨halign, haligned⟩ := List.forall_mem_cons.mp haligned
      obtain ⟨m₁, hmap, hcr3, -, hend, htranslation, hkernel₁, hapart₁⟩ :=
        vmmMapPage_heapEnd hkernel hapart hheap (hunmapped _ (Nat.le_refl _)) halign
      unfold vmmMapPagesKLoop at hrun
      rw [hmap, ok_bind] at hrun
      simp only at hrun
      rw [if_neg (by decide), hend] at hrun
      by_cases hfull : m.endMappedKmemory + 0x1000 ≥ 0xFFC00000
      · rw [if_pos hfull] at hrun
        cases hrun
      · rw [if_neg hfull] at hrun
        have hnext : m.endMappedKmemory + 0x1000 < heapLimit := Nat.not_le.mp hfull
        have hheap' : HeapPage (m.endMappedKmemory + 0x1000) := by
          have hzero := hheap.2.2
          exact ⟨Nat.le_trans hheap.1 (Nat.le_add_right _ _), hnext, by omega⟩
        generalize hm₂ : ({ m₁ with endMappedKmemory := m.endMappedKmemory + 0x1000 } : Mem) = m₂ at hrun
        have hend₂ : m₂.endMappedKmemory = m.endMappedKmemory + 0x1000 := by rw [← hm₂]
        have hrest := ih (m := m₂) (by rw [← hm₂]; exact hkernel₁) (by rw [← hm₂]; exact hapart₁)
          (hend₂ ▸ hheap') (fun p hp => by
            have hsame : translation m₂ = translation m₁ :=
              translation_of_tables (by rw [← hm₂]) (by rw [← hm₂])
            rw [hsame, htranslation, Function.update_of_ne (by omega)]
            exact hunmapped p (by omega)) haligned hrun
        have hsum : m.endMappedKmemory + 0x1000 * (f :: pages).length =
            m.endMappedKmemory + 0x1000 + 0x1000 * pages.length := by
          rw [List.length_cons]
          omega
        rw [hend₂] at hrest
        rw [hsum]
        exact hrest

/-- `liballoc_alloc` returns only if there are frames and addresses for all pages. -/
theorem KernelPages.small_room (h : KernelPages m) (hrun : liballocAllocSmall m n = .ok (a, m')) :
    HeapRoom m n := by
  unfold liballocAllocSmall at hrun
  by_cases hn : n < 1
  · obtain rfl : n = 0 := by omega
    exact h.room h.heap.2.1 (Nat.zero_le _)
  · rw [if_neg hn] at hrun
    obtain ⟨⟨pages, m₁⟩, hpop, hmap⟩ := bind_ok.mp hrun
    obtain ⟨hstack, heq, hlength⟩ := pmmAllocPages_eq hpop
    have havail : n ≤ pmmAvailable m := by
      unfold pmmAvailable
      rw [hstack, List.length_append]
      omega
    unfold vmmMapPagesK at hmap
    obtain ⟨⟨r, m₂⟩, hloop, -⟩ := bind_ok.mp hmap
    have hsame : translation m₁ = translation m := translation_of_tables (by rw [heq]) (by rw [heq])
    have hend : m₁.endMappedKmemory = m.endMappedKmemory := by rw [heq]
    have hlimit := vmmMapPagesKLoop_limit pages (m := m₁) (by rw [heq]; exact h.kernel)
      (by rw [heq]; exact h.apart) (hend ▸ h.heap) (by rw [hend, hsame]; exact h.unmapped)
      (fun f hf => (h.frames f (by rw [hstack]; exact List.mem_append_left _ hf)).1) hloop
    rw [hlength, hend] at hlimit
    exact h.room hlimit havail

/-- Room for some pages, and for further pages behind them. -/
theorem HeapRoom.append (h : KernelPages m) (hroom : HeapRoom m n) (ha : Allocated m n m₁)
    (hrest : HeapRoom m₁ k) : HeapRoom m (n + k) := by
  have hlimit := hrest.limit
  have havail := hrest.available
  have hsum : m.endMappedKmemory + 0x1000 * (n + k) = m.endMappedKmemory + 0x1000 * n + 0x1000 * k := by
    omega
  rw [ha.heap, ← hsum] at hlimit
  unfold pmmAvailable at havail
  rw [ha.stack, List.length_drop] at havail
  have hfirst := hroom.available
  unfold pmmAvailable at hfirst
  refine h.room hlimit ?_
  unfold pmmAvailable
  omega

theorem KernelPages.more_room (k : ℕ) : ∀ {m m' : Mem}, KernelPages m →
    liballocAllocMore m k = .ok m' → HeapRoom m (1024 * k) := by
  induction k with
  | zero => exact fun h _ => h.room h.heap.2.1 (Nat.zero_le _)
  | succ k ih =>
      intro m m' h hrun
      obtain ⟨⟨addr, m₁⟩, hfirst, hrest⟩ := bind_ok.mp hrun
      have hroom := h.small_room hfirst
      obtain ⟨addr', m₁', hfirst', -, ha⟩ := liballocAllocSmall_allocated hroom
      obtain ⟨-, rfl⟩ := Prod.mk.inj (Except.ok.inj (hfirst.symm.trans hfirst'))
      rw [Nat.mul_succ, Nat.add_comm]
      exact hroom.append h ha (ih (h.allocated hroom ha) hrest)

theorem KernelPages.alloc_room (h : KernelPages m) (hrun : liballocAlloc m n = .ok (a, m')) :
    HeapRoom m n := by
  unfold liballocAlloc at hrun
  by_cases hlarge : n > 1024
  · rw [if_pos hlarge] at hrun
    obtain ⟨⟨addr, m₁⟩, hfirst, hrun⟩ := bind_ok.mp hrun
    obtain ⟨m₂, hmore, hrun⟩ := bind_ok.mp hrun
    obtain ⟨⟨addr₃, m₃⟩, hlast, -⟩ := bind_ok.mp hrun
    have hroom := h.small_room hfirst
    obtain ⟨_, _, hfirst', -, ha⟩ := liballocAllocSmall_allocated hroom
    obtain ⟨-, rfl⟩ := Prod.mk.inj (Except.ok.inj (hfirst.symm.trans hfirst'))
    have h₁ := h.allocated hroom ha
    have hroom₁ := KernelPages.more_room _ h₁ hmore
    obtain ⟨_, hmore', ha₁⟩ := liballocAllocMore_allocated _ hroom₁
    obtain rfl := Except.ok.inj (hmore.symm.trans hmore')
    have hroom₂ := (h₁.allocated hroom₁ ha₁).small_room hlast
    have hsum : n = 1024 + (1024 * (n / 1024 - 1) + n % 1024) := by omega
    rw [hsum]
    exact hroom.append h ha (hroom₁.append h₁ ha₁ hroom₂)
  · rw [if_neg hlarge] at hrun
    exact h.small_room hrun

/-- `liballoc_alloc` returns exactly if there is room for the pages. -/
theorem KernelPages.alloc_iff (h : KernelPages m) (hn : 1 ≤ n) :
    (∃ a m', liballocAlloc m n = .ok (a, m')) ↔
      n ≤ pmmAvailable m ∧ m.endMappedKmemory + 0x1000 * n < heapLimit := by
  constructor
  · rintro ⟨a, m', hrun⟩
    have hroom := h.alloc_room hrun
    exact ⟨hroom.available, hroom.limit⟩
  · rintro ⟨havail, hlimit⟩
    obtain ⟨m', hrun, -⟩ := liballocAlloc_allocated (h.room hlimit havail) hn
    exact ⟨_, m', hrun⟩

/-! ### The bytes -/

theorem vmmMapPagesKLoop_data (pages : List ℕ) : ∀ {m m' : Mem} {r : Bool},
    vmmMapPagesKLoop m pages = .ok (r, m') → m'.data = m.data := by
  induction pages with
  | nil =>
      intro m m' r hrun
      rw [(Prod.mk.inj (Except.ok.inj hrun)).2]
  | cons f pages ih =>
      intro m m' r hrun
      obtain ⟨⟨x, m₁⟩, hmap, hrun⟩ := bind_ok.mp hrun
      have hdata : m₁.data = m.data := vmmMapPageF_data _ hmap
      simp only at hrun
      split_ifs at hrun
      · rw [← (Prod.mk.inj (Except.ok.inj hrun)).2, hdata]
      · exact (ih hrun).trans hdata

theorem liballocAllocSmall_data (hrun : liballocAllocSmall m n = .ok (a, m')) : m'.data = m.data := by
  unfold liballocAllocSmall at hrun
  split_ifs at hrun
  · rw [(Prod.mk.inj (Except.ok.inj hrun)).2]
  · obtain ⟨⟨pages, m₁⟩, hpop, hmap⟩ := bind_ok.mp hrun
    obtain ⟨-, heq, -⟩ := pmmAllocPages_eq hpop
    unfold vmmMapPagesK at hmap
    obtain ⟨⟨r, m₂⟩, hloop, hend⟩ := bind_ok.mp hmap
    rw [← (Prod.mk.inj (Except.ok.inj hend)).2, vmmMapPagesKLoop_data pages hloop, heq]

theorem liballocAllocMore_data (k : ℕ) : ∀ {m m' : Mem}, liballocAllocMore m k = .ok m' →
    m'.data = m.data := by
  induction k with
  | zero =>
      intro m m' hrun
      rw [Except.ok.inj hrun]
  | succ k ih =>
      intro m m' hrun
      obtain ⟨⟨addr, m₁⟩, hfirst, hrest⟩ := bind_ok.mp hrun
      exact (ih hrest).trans (liballocAllocSmall_data hfirst)

theorem liballocAlloc_data (hrun : liballocAlloc m n = .ok (a, m')) : m'.data = m.data := by
  unfold liballocAlloc at hrun
  split_ifs at hrun
  · obtain ⟨⟨addr, m₁⟩, hfirst, hrun⟩ := bind_ok.mp hrun
    obtain ⟨m₂, hmore, hrun⟩ := bind_ok.mp hrun
    obtain ⟨⟨addr₃, m₃⟩, hlast, hend⟩ := bind_ok.mp hrun
    rw [← (Prod.mk.inj (Except.ok.inj hend)).2, liballocAllocSmall_data hlast,
      liballocAllocMore_data _ hmore, liballocAllocSmall_data hfirst]
  · exact liballocAllocSmall_data hrun

theorem kernelByte_eq_none : kernelByte m a = none ↔
    ¬(heapBase ≤ a ∧ a < heapLimit) ∨ translation m (a / 0x1000) = none := by
  unfold kernelByte
  split_ifs with hheap
  · rw [Option.map_eq_none_iff]
    exact ⟨.inr, fun h => h.resolve_left (not_not.mpr hheap)⟩
  · exact iff_of_true rfl (.inl hheap)

/-- A byte that is there has a frame. -/
theorem kernelByte_ne_none (h : kernelByte m a ≠ none) :
    heapBase ≤ a ∧ a < heapLimit ∧ ∃ f, translation m (a / 0x1000) = some f := by
  rw [ne_eq, kernelByte_eq_none, not_or, not_not] at h
  obtain ⟨⟨hlo, hhi⟩, hpage⟩ := h
  exact ⟨hlo, hhi, Option.ne_none_iff_exists'.mp hpage⟩

theorem kernelByte_congr (hpage : translation m' (a / 0x1000) = translation m (a / 0x1000))
    (hdata : m'.data = m.data) : kernelByte m' a = kernelByte m a := by
  unfold kernelByte
  rw [hpage, hdata]

/-- The bytes do not matter. -/
theorem KernelPages.setData (h : KernelPages m) (data : ℕ → UInt8) :
    KernelPages { m with data := data } := by
  have hsame : translation { m with data := data } = translation m := translation_of_tables rfl rfl
  refine ⟨h.kernel, h.apart, h.heap, ?_, h.frames, h.nodup, ?_, ?_⟩
  · rw [hsame]
    exact h.unmapped
  · rw [hsame]
    exact h.used
  · rw [hsame]
    exact h.inj

/-- A byte is stored where it is read, and nowhere else. -/
theorem KernelPages.load_store (h : KernelPages m) (b : UInt8) (ha : kernelByte m a ≠ none) :
    kernelByte { m with data := Function.update m.data (vmmGetPhysaddr m a) b } =
      Function.update (kernelByte m) a (some b) := by
  obtain ⟨hlo, hhi, f, hf⟩ := kernelByte_ne_none ha
  have hpa : heapBase / 0x1000 ≤ a / 0x1000 := Nat.div_le_div_right hlo
  have haddr : vmmGetPhysaddr m a = f + a % 0x1000 := by
    rw [vmmGetPhysaddr_eq hhi, hf]
    rfl
  have hsame : translation { m with data := Function.update m.data (vmmGetPhysaddr m a) b } =
      translation m := translation_of_tables rfl rfl
  obtain ⟨hfa, -⟩ := h.used _ f hpa hf
  funext x
  unfold kernelByte
  rw [hsame, haddr]
  by_cases hx : x = a
  · subst hx
    rw [Function.update_self, if_pos ⟨hlo, hhi⟩, hf]
    show some (Function.update m.data _ b _) = _
    rw [Function.update_self]
  · rw [Function.update_of_ne hx]
    split_ifs with hheap
    · cases hg : translation m (x / 0x1000) with
      | none => rfl
      | some g =>
          have hpx : heapBase / 0x1000 ≤ x / 0x1000 := Nat.div_le_div_right hheap.1
          obtain ⟨hga, -⟩ := h.used _ g hpx hg
          show some (Function.update m.data _ b _) = some (m.data _)
          rw [Function.update_of_ne]
          intro heq
          have hfg : g = f := by omega
          have hpage := h.inj _ _ f hpx hpa (hfg ▸ hg) hf
          omega
    · rfl

/-- Unmapping a page leaves the bytes and the directory alone. -/
theorem vmmUnmapPage_keeps (hapart : TablesApart m 771) (hlo : 771 ≤ pdindex a) (hlt : a < heapLimit) :
    (vmmUnmapPage m a).2.cr3 = m.cr3 ∧ (vmmUnmapPage m a).2.data = m.data ∧
      (vmmUnmapPage m a).2.tables m.cr3 = m.tables m.cr3 := by
  unfold vmmUnmapPage
  cases hpde : m.tables m.cr3 (pdindex a) with
  | none => exact ⟨rfl, rfl, rfl⟩
  | some pde =>
      have hself := (hapart _ hlo (pdindex_lt_window hlt) pde hpde).1
      simp only
      cases hpte : m.tables pde.frame (ptindex a) with
      | none => exact ⟨rfl, rfl, rfl⟩
      | some pte => exact ⟨rfl, rfl, setEntry_row hself.symm _ _ _⟩

/-- What `liballoc_free` leaves alone. -/
theorem liballocFreeLoop_keeps (n : ℕ) : ∀ {m : Mem} {a : ℕ}, TablesApart m 771 → heapBase ≤ a →
    a + 0x1000 * n < heapLimit →
    (liballocFreeLoop m a n).2.cr3 = m.cr3 ∧ (liballocFreeLoop m a n).2.data = m.data ∧
      (liballocFreeLoop m a n).2.tables m.cr3 = m.tables m.cr3 := by
  induction n with
  | zero => exact fun _ _ _ => ⟨rfl, rfl, rfl⟩
  | succ n ih =>
      intro m a hapart hbase hlimit
      have hlt : a < heapLimit := Nat.lt_of_le_of_lt (Nat.le_add_right _ _) hlimit
      have hnext : a + 0x1000 + 0x1000 * n < heapLimit := by
        refine Nat.lt_of_le_of_lt ?_ hlimit
        omega
      have hwrap : wrap32 (a + 0x1000) = a + 0x1000 := by
        have hle : a + 0x1000 < heapLimit := Nat.lt_of_le_of_lt (Nat.le_add_right _ _) hnext
        unfold heapLimit at hle
        unfold wrap32
        omega
      have hlo : 771 ≤ pdindex a := by
        unfold heapBase at hbase
        unfold pdindex
        omega
      obtain ⟨hcr3, hdata, hrow⟩ := vmmUnmapPage_keeps (m := pmmFreePage m (vmmGetPhysaddr m a))
        (hapart.of_row rfl rfl) hlo hlt
      unfold liballocFreeLoop
      simp only [hwrap]
      split_ifs with h0
      · exact ⟨rfl, rfl, rfl⟩
      · cases hu : vmmUnmapPage (pmmFreePage m (vmmGetPhysaddr m a)) a with
        | mk done m₁ =>
            rw [hu] at hcr3 hdata hrow
            simp only at hcr3 hdata hrow
            cases done with
            | false => exact ⟨hcr3, hdata, hrow⟩
            | true =>
                obtain ⟨hcr3', hdata', hrow'⟩ := ih (m := m₁) (a := a + 0x1000)
                  (hapart.of_row hcr3 hrow) (Nat.le_trans hbase (Nat.le_add_right _ _)) hnext
                rw [hcr3] at hrow'
                exact ⟨hcr3'.trans hcr3, hdata'.trans hdata, hrow'.trans hrow⟩

/-! ### The hooks -/

/-- The frames that are free, or that the kernel heap has. -/
def kernelFrames (m : Mem) : ℕ :=
  pmmAvailable m + Stretch.filled (translation m) (heapBase / 0x1000) (heapLimit / 0x1000)

/-- The pages of the kernel heap are in order, and if `total` is given it is the number of their frames
and of the free ones. -/
def KernelOk (total : Option ℕ) (m : Mem) : Prop := KernelPages m ∧ ∀ t ∈ total, kernelFrames m = t

variable {total : Option ℕ}

/-- Frames move between the stack and the kernel heap. -/
theorem kernelFrames_alloc (h : KernelPages m) (hroom : HeapRoom m n) (ha : Allocated m n m') :
    kernelFrames m' = kernelFrames m := by
  have hlimit := hroom.limit
  have hlength := hroom.take_length
  have havail := hroom.available
  obtain ⟨hlo, -, halign⟩ := h.heap
  have hfilled : Stretch.filled (translation m') (heapBase / 0x1000) (heapLimit / 0x1000) =
      Stretch.filled (translation m) (heapBase / 0x1000) (heapLimit / 0x1000) + n :=
    Stretch.filled_add (Nat.div_le_div_right hlo)
    (by
      refine Nat.le_trans ?_ (Nat.div_le_div_right (Nat.le_of_lt hlimit))
      omega)
    (fun p hp _ => h.unmapped p hp)
    (fun p hp hp' => by
      rw [ha.translation]
      unfold Stretch.insert
      rw [if_pos (by omega), ne_eq, List.getElem?_eq_none_iff]
      omega)
    (fun p hp => by rw [ha.translation, Stretch.insert_of_not_mem (by omega)])
  unfold kernelFrames
  rw [hfilled]
  unfold pmmAvailable at havail ⊢
  rw [ha.stack, List.length_drop]
  omega

/-- Frames go back from a stretch of the kernel heap to the stack. -/
theorem KernelPages.removed {start : ℕ} {fs : List ℕ} (h : KernelPages m) (hcr3 : m'.cr3 = m.cr3)
    (hrow : m'.tables m.cr3 = m.tables m.cr3) (hend : m'.endMappedKmemory = m.endMappedKmemory)
    (hstack : m'.pmemStack = fs.reverse ++ m.pmemStack)
    (htranslation : translation m' = Stretch.remove (translation m) start n)
    (hlo : heapBase / 0x1000 ≤ start) (hnodup : fs.Nodup)
    (hfs : ∀ f ∈ fs, ∃ p, start ≤ p ∧ p < start + n ∧ translation m p = some f) : KernelPages m' := by
  have hsome : ∀ p f, translation m' p = some f →
      translation m p = some f ∧ ¬(start ≤ p ∧ p < start + n) := by
    intro p f hf
    rw [htranslation] at hf
    unfold Stretch.remove at hf
    by_cases hin : start ≤ p ∧ p < start + n
    · rw [if_pos hin] at hf
      cases hf
    · rw [if_neg hin] at hf
      exact ⟨hf, hin⟩
  refine ⟨fun i hle hlt => ?_, h.apart.of_row hcr3 hrow, hend ▸ h.heap, fun p hp => ?_, fun f hf => ?_, ?_,
    fun p f hp hf => ?_, fun p q f hp hq hfp hfq => ?_⟩
  · rw [hcr3, hrow]
    exact h.kernel i hle hlt
  · rw [hend] at hp
    rw [htranslation]
    unfold Stretch.remove
    rw [h.unmapped p hp, ite_self]
  · rw [hstack, List.mem_append, List.mem_reverse] at hf
    cases hf with
    | inl hnew =>
        obtain ⟨p, hp, -, hpf⟩ := hfs f hnew
        have hu := h.used p f (Nat.le_trans hlo hp) hpf
        exact ⟨hu.1, hu.2.1⟩
    | inr hold => exact h.frames f hold
  · rw [hstack, List.nodup_append]
    refine ⟨List.nodup_reverse.mpr hnodup, h.nodup, fun f hf g hg heq => ?_⟩
    obtain ⟨p, hp, -, hpf⟩ := hfs f (List.mem_reverse.mp hf)
    exact (h.used p f (Nat.le_trans hlo hp) hpf).2.2 (heq ▸ hg)
  · obtain ⟨hold, hout⟩ := hsome p f hf
    obtain ⟨haligned, hne, hnot⟩ := h.used p f hp hold
    refine ⟨haligned, hne, fun hin => ?_⟩
    rw [hstack, List.mem_append, List.mem_reverse] at hin
    cases hin with
    | inl hnew =>
        obtain ⟨q, hq, hq', hqf⟩ := hfs f hnew
        exact hout (h.inj q p f (Nat.le_trans hlo hq) hp hqf hold ▸ ⟨hq, hq'⟩)
    | inr hin => exact hnot hin
  · exact h.inj p q f hp hq (hsome p f hfp).1 (hsome q f hfq).1

/-- A stretch of mapped pages lies in the kernel heap. -/
theorem KernelPages.mapped (h : KernelPages m) (halign : a % 0x1000 = 0)
    (hmapped : kernelHooks.Mapped m a ((n + 1) * lPageSize)) :
    heapBase ≤ a ∧ a + 0x1000 * (n + 1) < heapLimit ∧
      ∀ i < n + 1, ∃ f, translation m (a / 0x1000 + i) = some f := by
  unfold lPageSize at hmapped
  have hpage : ∀ i < n + 1, ∃ f, translation m (a / 0x1000 + i) = some f := by
    intro i hi
    obtain ⟨-, -, f, hf⟩ := kernelByte_ne_none (hmapped (i * 0x1000) (by omega))
    rw [show (a + i * 0x1000) / 0x1000 = a / 0x1000 + i by omega] at hf
    exact ⟨f, hf⟩
  have hfirst := (kernelByte_ne_none (hmapped 0 (by omega))).1
  have hbelow : a + 0x1000 * (n + 1) ≤ m.endMappedKmemory := by
    have hend := h.heap.2.2
    by_contra hover
    obtain ⟨f, hf⟩ := hpage n (Nat.lt_succ_self n)
    rw [h.unmapped (a / 0x1000 + n) (by omega)] at hf
    cases hf
  exact ⟨hfirst, Nat.lt_of_le_of_lt hbelow h.heap.2.1, hpage⟩

/-- `liballoc_free` of pages that are mapped. -/
theorem KernelPages.free (h : KernelPages m) (halign : a % 0x1000 = 0)
    (hmapped : kernelHooks.Mapped m a (n * lPageSize)) :
    KernelPages (liballocFree m a n).2 ∧ kernelFrames (liballocFree m a n).2 = kernelFrames m ∧
      (liballocFree m a n).2.data = m.data ∧
      translation (liballocFree m a n).2 = Stretch.remove (translation m) (a / 0x1000) n := by
  cases n with
  | zero => exact ⟨h, rfl, rfl, (Stretch.remove_zero _ _).symm⟩
  | succ n =>
      obtain ⟨hbase, hlimit, hpage⟩ := h.mapped halign hmapped
      have hlo : heapBase / 0x1000 ≤ a / 0x1000 := Nat.div_le_div_right hbase
      -- the frames that are found
      generalize hfs : (List.range (n + 1)).map (fun i => (translation m (a / 0x1000 + i)).getD 0) = fs
      have hlen : fs.length = n + 1 := by rw [← hfs, List.length_map, List.length_range]
      have hget : ∀ i f, fs[i]? = some f → i < n + 1 ∧ translation m (a / 0x1000 + i) = some f := by
        intro i f hf
        obtain ⟨hi, -⟩ := List.getElem?_eq_some_iff.mp hf
        rw [hlen] at hi
        obtain ⟨g, hg⟩ := hpage i hi
        rw [← hfs, List.getElem?_map, List.getElem?_range hi, Option.map_some, hg] at hf
        exact ⟨hi, hf ▸ hg⟩
      have hnodup : fs.Nodup := by
        rw [List.nodup_iff_injective_get]
        intro i j hij
        have hi := hget i (fs.get i) (List.getElem?_eq_getElem i.2)
        have hj := hget j (fs.get j) (List.getElem?_eq_getElem j.2)
        rw [← hij] at hj
        have hpages := h.inj _ _ _ (by omega) (by omega) hi.2 hj.2
        exact Fin.ext (by omega)
      obtain ⟨m', hfree, hstack, htranslation⟩ := liballocFreeLoop_frees fs h.apart hbase halign
        (by rw [hlen]; exact hlimit) (fun i f hf => by
          have ht := (hget i f hf).2
          exact ⟨ht, (h.used _ f (by omega) ht).2.1⟩)
      obtain ⟨hcr3, hdata, hrow⟩ := liballocFreeLoop_keeps (n + 1) h.apart hbase hlimit
      have hend := (liballocFreeLoop_end m a (n + 1)).1
      rw [hlen] at hfree htranslation
      unfold liballocFree
      rw [hfree] at hcr3 hdata hrow hend ⊢
      simp only at hcr3 hdata hrow hend ⊢
      refine ⟨h.removed hcr3 hrow hend hstack htranslation hlo hnodup fun f hf => ?_, ?_, hdata, htranslation⟩
      · obtain ⟨i, hi⟩ := List.mem_iff_getElem?.mp hf
        obtain ⟨hlt, ht⟩ := hget i f hi
        exact ⟨a / 0x1000 + i, Nat.le_add_right _ _, Nat.add_lt_add_left hlt _, ht⟩
      · have hfilled : Stretch.filled (translation m) (heapBase / 0x1000) (heapLimit / 0x1000) =
            Stretch.filled (translation m') (heapBase / 0x1000) (heapLimit / 0x1000) + (n + 1) :=
          Stretch.filled_add hlo
          (by
            refine Nat.le_trans ?_ (Nat.div_le_div_right (Nat.le_of_lt hlimit))
            omega)
          (fun p hp hp' => by
            rw [htranslation]
            exact if_pos ⟨hp, hp'⟩)
          (fun p hp hp' => by
            obtain ⟨f, hf⟩ := hpage (p - a / 0x1000) (by omega)
            rw [Nat.add_sub_cancel' hp] at hf
            rw [hf]
            exact Option.some_ne_none f)
          (fun p hp => by
            rw [htranslation]
            exact (if_neg hp).symm)
        unfold kernelFrames pmmAvailable
        rw [hfilled, hstack, List.length_append, List.length_reverse, hlen]
        omega

/-- What is behind an address of one of `n` pages. -/
theorem mem_pages (halign : a % 0x1000 = 0) : b ∈ piece a (n * lPageSize) ↔
    a / 0x1000 ≤ b / 0x1000 ∧ b / 0x1000 < a / 0x1000 + n := by
  rw [mem_piece]
  unfold lPageSize
  omega

/-- The kernel gives the allocator what it needs. -/
theorem kernelHooks_lawful (total : Option ℕ) :
    kernelHooks.Lawful .kernel (KernelOk total) 0xFFFFF where
  bytes :=
    { ok_store := fun _ _ _ h _ => ⟨h.1.setData _, h.2⟩
      load_store := fun _ _ b h ha => h.1.load_store b ha }
  pages := by
    unfold lPageCount lPageSize
    omega
  null := fun m _ => (kernelByte_eq_none (m := m) (a := 0)).mpr (.inl (by decide))
  refused := by
    intro m n m' h _ hrun
    have hroom := h.1.alloc_room hrun
    cases n with
    | zero =>
        obtain rfl : m = m' := (Prod.mk.inj (Except.ok.inj hrun)).2
        exact ⟨h, rfl⟩
    | succ n =>
        obtain ⟨m'', hrun', -⟩ := liballocAlloc_allocated hroom (Nat.succ_pos n)
        have hzero : (0 : ℕ) = m.endMappedKmemory := (Prod.mk.inj (Except.ok.inj (hrun.symm.trans hrun'))).1
        have hlo := h.1.heap.1
        unfold heapBase at hlo
        omega
  fresh := by
    intro m n a m' h _ hrun ha
    have hroom := h.1.alloc_room hrun
    cases n with
    | zero => exact absurd (Prod.mk.inj (Except.ok.inj hrun)).1.symm ha
    | succ n =>
        obtain ⟨m'', hrun', halloc⟩ := liballocAlloc_allocated hroom (Nat.succ_pos n)
        obtain ⟨rfl, rfl⟩ := Prod.mk.inj (Except.ok.inj (hrun.symm.trans hrun'))
        have hdata := liballocAlloc_data hrun
        obtain ⟨hlo, -, halign⟩ := h.1.heap
        have hlimit := hroom.limit
        have hlength := hroom.take_length
        have hkeep : ∀ b, b ∉ piece m.endMappedKmemory ((n + 1) * lPageSize) →
            kernelByte m' b = kernelByte m b := by
          intro b hb
          rw [mem_pages halign] at hb
          refine kernelByte_congr ?_ hdata
          rw [halloc.translation, Stretch.insert_of_not_mem (by rw [hlength]; exact hb)]
        refine ⟨⟨h.1.allocated hroom halloc, fun t ht => ?_⟩, halign, ?_, fun b hb => ⟨?_, ?_⟩, hkeep⟩
        · rw [kernelFrames_alloc h.1 hroom halloc]
          exact h.2 t ht
        · unfold heapLimit at hlimit
          unfold lPageSize
          omega
        · rw [mem_pages halign] at hb
          exact kernelByte_eq_none.mpr (.inr (h.1.unmapped _ hb.1))
        · have hin := (mem_pages halign).mp hb
          rw [mem_piece] at hb
          rw [ne_eq, show kernelHooks.load m' b = kernelByte m' b from rfl, kernelByte_eq_none, not_or, not_not]
          refine ⟨⟨Nat.le_trans hlo hb.1, ?_⟩, ?_⟩
          · refine Nat.lt_trans hb.2 ?_
            rw [Nat.mul_comm]
            exact hlimit
          · rw [halloc.translation]
            unfold Stretch.insert
            rw [if_pos (by rw [hlength]; exact hin), List.getElem?_eq_none_iff, hlength]
            omega
  freed := by
    intro _ m a n h halign hmapped
    obtain ⟨hpages, hframes, hdata, htranslation⟩ := h.1.free halign hmapped
    refine ⟨⟨hpages, fun t ht => hframes.trans (h.2 t ht)⟩, fun b hb => ?_, fun b hb => ?_⟩
    · rw [mem_pages halign] at hb
      refine kernelByte_eq_none.mpr (.inr ?_)
      show translation (liballocFree m a n).2 _ = none
      rw [htranslation]
      exact if_pos hb
    · rw [mem_pages halign] at hb
      refine kernelByte_congr ?_ hdata
      show translation (liballocFree m a n).2 _ = _
      rw [htranslation]
      exact if_neg hb

end GalaxyOS
