import GalaxyOS.Mem.Translation
import GalaxyOS.Lib.Stretch

/-! # Pages of the kernel heap, there and back

`liballoc_alloc` maps frames at the end of the kernel heap, in pieces of 1024 pages; since the end moves
on with every page the pieces lie next to each other.  `liballoc_free` finds the frames again page by
page.  The map of pages is back to what it was then, and so are the free frames.

`liballoc_roundTrip` is put together from `vmmMapPagesKLoop_maps`, an induction over the pages of a piece,
`liballocAlloc_allocated`, one over the pieces, and `liballocFreeLoop_frees` for the way back. -/

namespace GalaxyOS

open Transition

variable {m m' m₁ : Mem} {n k a : ℕ}

/-! ### Allocating -/

/-- There are `n` free frames and, at the end of the kernel heap, `n` pages to map them at. -/
structure HeapRoom (m : Mem) (n : ℕ) : Prop where
  kernel : KernelTables m
  apart : TablesApart m 771
  heap : HeapPage m.endMappedKmemory
  limit : m.endMappedKmemory + 0x1000 * n < heapLimit
  unmapped : ∀ i < n, translation m (m.endMappedKmemory / 0x1000 + i) = none
  frames : ∀ f ∈ m.pmemStack, f % 0x1000 = 0 ∧ f ≠ 0
  available : n ≤ pmmAvailable m

/-- The first `n` free frames have been mapped one after the other at the end of the kernel heap. -/
structure Allocated (m : Mem) (n : ℕ) (m' : Mem) : Prop where
  cr3 : m'.cr3 = m.cr3
  stack : m'.pmemStack = m.pmemStack.drop n
  heap : m'.endMappedKmemory = m.endMappedKmemory + 0x1000 * n
  translation : translation m' =
    Stretch.insert (translation m) (m.endMappedKmemory / 0x1000) (m.pmemStack.take n)
  kernel : KernelTables m'
  apart : TablesApart m' 771

theorem HeapRoom.mono (h : HeapRoom m n) (hle : k ≤ n) : HeapRoom m k :=
  { h with
    limit := by
      have hlimit := h.limit
      omega
    unmapped := fun i hi => h.unmapped i (Nat.lt_of_lt_of_le hi hle)
    available := Nat.le_trans hle h.available }

theorem HeapRoom.take_length (h : HeapRoom m n) : (m.pmemStack.take n).length = n := by
  rw [List.length_take]
  exact Nat.min_eq_left h.available

theorem Allocated.refl (h : HeapRoom m n) : Allocated m 0 m :=
  { cr3 := rfl
    stack := rfl
    heap := rfl
    translation := (Stretch.insert_nil _ _).symm
    kernel := h.kernel
    apart := h.apart }

/-- What is left of the room. -/
theorem HeapRoom.rest (h : HeapRoom m (n + k)) (ha : Allocated m n m₁) : HeapRoom m₁ k := by
  have hlimit := h.limit
  have hheap := h.heap
  have hlength := (h.mono (Nat.le_add_right n k)).take_length
  have hpage : m₁.endMappedKmemory / 0x1000 = m.endMappedKmemory / 0x1000 + n := by
    rw [ha.heap]
    omega
  refine ⟨ha.kernel, ha.apart, ⟨?_, ?_, ?_⟩, ?_, fun i hi => ?_, fun f hf => ?_, ?_⟩
  · rw [ha.heap]
    exact Nat.le_trans hheap.1 (Nat.le_add_right _ _)
  · rw [ha.heap]
    omega
  · have halign := hheap.2.2
    rw [ha.heap]
    omega
  · rw [ha.heap]
    omega
  · rw [hpage, ha.translation, Stretch.insert_of_not_mem (by omega), Nat.add_assoc]
    exact h.unmapped (n + i) (by omega)
  · rw [ha.stack] at hf
    exact h.frames f (List.mem_of_mem_drop hf)
  · have havail := h.available
    unfold pmmAvailable at havail ⊢
    rw [ha.stack, List.length_drop]
    omega

theorem Allocated.trans (h : HeapRoom m (n + k)) (ha : Allocated m n m₁) (ha' : Allocated m₁ k m') :
    Allocated m (n + k) m' := by
  have hlength := (h.mono (Nat.le_add_right n k)).take_length
  refine ⟨ha'.cr3.trans ha.cr3, ?_, ?_, ?_, ha'.kernel, ha'.apart⟩
  · rw [ha'.stack, ha.stack, List.drop_drop]
  · rw [ha'.heap, ha.heap]
    omega
  · have hpage : m₁.endMappedKmemory / 0x1000 = m.endMappedKmemory / 0x1000 + n := by
      rw [ha.heap]
      omega
    rw [ha'.translation, ha.translation, ha.stack, hpage, List.take_add, Stretch.insert_append, hlength]

theorem pmmAllocPages_take (n : ℕ) : ∀ {m : Mem}, n ≤ pmmAvailable m →
    pmmAllocPages m n = .ok (m.pmemStack.take n, { m with pmemStack := m.pmemStack.drop n }) := by
  induction n with
  | zero => exact fun _ => rfl
  | succ n ih =>
      intro m havail
      unfold pmmAvailable at havail ih
      unfold pmmAllocPages pmmAllocPage
      cases hstack : m.pmemStack with
      | nil =>
          rw [hstack] at havail
          cases havail
      | cons f stack =>
          rw [hstack, List.length_cons] at havail
          simp only
          rw [ok_bind]
          simp only
          rw [ih (m := { m with pmemStack := stack }) (Nat.le_of_succ_le_succ havail), ok_bind]
          rfl

theorem pdindex_heap {a : ℕ} (h : HeapPage a) : 771 ≤ pdindex a := by
  have hlo := h.1
  unfold heapBase at hlo
  unfold pdindex
  omega

/-- One page is mapped at the end of the kernel heap. -/
theorem vmmMapPage_heapEnd {f : ℕ} (hkernel : KernelTables m) (hapart : TablesApart m 771)
    (hheap : HeapPage m.endMappedKmemory) (hunmapped : translation m (m.endMappedKmemory / 0x1000) = none)
    (halign : f % 0x1000 = 0) : ∃ m', vmmMapPage m f m.endMappedKmemory 0x3 false = .ok (0, m') ∧
      m'.cr3 = m.cr3 ∧ m'.pmemStack = m.pmemStack ∧ m'.endMappedKmemory = m.endMappedKmemory ∧
      translation m' = Function.update (translation m) (m.endMappedKmemory / 0x1000) (some f) ∧
      KernelTables m' ∧ TablesApart m' 771 := by
  obtain ⟨pde, hpde⟩ := hkernel.heap hheap
  have hlo := pdindex_heap hheap
  have hlt := hheap.2.1
  have hself := (hapart _ hlo (pdindex_lt_window hlt) pde hpde).1
  rcases vmmMapPage_entry _ hlt hpde with ⟨hne, -⟩ | ⟨-, hmap⟩
  · exact absurd hunmapped hne
  refine ⟨_, hmap, rfl, rfl, rfl, ?_, fun i h1 h2 => ?_, hapart.set hlo hlt hpde _ _⟩
  · rw [hapart.translation_set hlo hlt hpde, mkPte_eq halign]
    rfl
  · show (m.setEntry _ _ _).tables m.cr3 i ≠ none
    rw [setEntry_row hself.symm]
    exact hkernel i h1 h2

/-- Frames that are not on the stack any more are mapped one after the other. -/
theorem vmmMapPagesKLoop_maps (pages : List ℕ) : ∀ {m : Mem}, KernelTables m → TablesApart m 771 →
    HeapPage m.endMappedKmemory → m.endMappedKmemory + 0x1000 * pages.length < heapLimit →
    (∀ i < pages.length, translation m (m.endMappedKmemory / 0x1000 + i) = none) →
    (∀ f ∈ pages, f % 0x1000 = 0) →
    ∃ m', vmmMapPagesKLoop m pages = .ok (true, m') ∧ m'.cr3 = m.cr3 ∧ m'.pmemStack = m.pmemStack ∧
      m'.endMappedKmemory = m.endMappedKmemory + 0x1000 * pages.length ∧
      translation m' = Stretch.insert (translation m) (m.endMappedKmemory / 0x1000) pages ∧
      KernelTables m' ∧ TablesApart m' 771 := by
  induction pages with
  | nil =>
      intro m hkernel hapart _ _ _ _
      exact ⟨m, rfl, rfl, rfl, rfl, (Stretch.insert_nil _ _).symm, hkernel, hapart⟩
  | cons f pages ih =>
      intro m hkernel hapart hheap hlimit hunmapped haligned
      rw [List.length_cons] at hlimit hunmapped
      obtain ⟨halign, haligned⟩ := List.forall_mem_cons.mp haligned
      have hnext : m.endMappedKmemory + 0x1000 < heapLimit := by
        refine Nat.lt_of_le_of_lt ?_ hlimit
        omega
      have hpage : (m.endMappedKmemory + 0x1000) / 0x1000 = m.endMappedKmemory / 0x1000 + 1 := by omega
      obtain ⟨m₁, hmap, hcr3, hstack, hend, htranslation, hkernel₁, hapart₁⟩ :=
        vmmMapPage_heapEnd hkernel hapart hheap (hunmapped 0 (Nat.succ_pos _)) halign
      have hheap' : HeapPage (m.endMappedKmemory + 0x1000) := by
        have hzero := hheap.2.2
        exact ⟨Nat.le_trans hheap.1 (Nat.le_add_right _ _), hnext, by omega⟩
      generalize hm₂ : ({ m₁ with endMappedKmemory := m.endMappedKmemory + 0x1000 } : Mem) = m₂
      have hend₂ : m₂.endMappedKmemory = m.endMappedKmemory + 0x1000 := by rw [← hm₂]
      have hsame : translation m₂ = translation m₁ := translation_of_tables (by rw [← hm₂]) (by rw [← hm₂])
      obtain ⟨m', hloop, hcr3', hstack', hend', htranslation', hkernel', hapart'⟩ :=
        ih (m := m₂) (by rw [← hm₂]; exact hkernel₁) (by rw [← hm₂]; exact hapart₁) (hend₂ ▸ hheap')
          (by rw [hend₂]; omega)
          (fun i hi => by
            have hfree := hunmapped (i + 1) (Nat.succ_lt_succ hi)
            rw [hsame, htranslation, hend₂, hpage, Function.update_of_ne (by omega), Nat.add_assoc,
              Nat.add_comm 1]
            exact hfree)
          haligned
      have hcr3₂ : m₂.cr3 = m.cr3 := by rw [← hm₂, ← hcr3]
      have hstack₂ : m₂.pmemStack = m.pmemStack := by rw [← hm₂, ← hstack]
      refine ⟨m', ?_, hcr3'.trans hcr3₂, hstack'.trans hstack₂, ?_, ?_, hkernel', hapart'⟩
      · unfold vmmMapPagesKLoop
        rw [hmap, ok_bind]
        simp only
        rw [if_neg (by decide), hend]
        refine (if_neg (Nat.not_le.mpr hnext)).trans ?_
        rw [hm₂]
        exact hloop
      · rw [hend', hend₂, List.length_cons]
        omega
      · rw [htranslation', hsame, hend₂, hpage, Stretch.insert_cons, ← htranslation]

/-- At most 1024 pages, or none. -/
theorem liballocAllocSmall_allocated (h : HeapRoom m n) : ∃ addr m', liballocAllocSmall m n = .ok (addr, m') ∧
    (1 ≤ n → addr = m.endMappedKmemory) ∧ Allocated m n m' := by
  unfold liballocAllocSmall
  by_cases hn : n < 1
  · obtain rfl : n = 0 := by omega
    rw [if_pos hn]
    exact ⟨0, m, rfl, fun h => absurd h (by decide), .refl h⟩
  · rw [if_neg hn, pmmAllocPages_take n h.available, ok_bind]
    have hlength := h.take_length
    obtain ⟨m', hloop, hcr3, hstack, hend, htranslation, hkernel, hapart⟩ :=
      vmmMapPagesKLoop_maps (m.pmemStack.take n) (m := { m with pmemStack := m.pmemStack.drop n })
        h.kernel h.apart h.heap (by rw [hlength]; exact h.limit)
        (by rw [hlength]; exact h.unmapped) fun f hf => (h.frames f (List.mem_of_mem_take hf)).1
    rw [hlength] at hend
    refine ⟨m.endMappedKmemory, m', ?_, fun _ => rfl, hcr3, hstack, hend, htranslation, hkernel, hapart⟩
    simp only [vmmMapPagesK]
    rw [hloop, ok_bind]
    rfl

theorem liballocAllocMore_allocated (n : ℕ) : ∀ {m : Mem}, HeapRoom m (1024 * n) →
    ∃ m', liballocAllocMore m n = .ok m' ∧ Allocated m (1024 * n) m' := by
  induction n with
  | zero => exact fun {m} h => ⟨m, rfl, .refl h⟩
  | succ n ih =>
      intro m h
      rw [Nat.mul_succ, Nat.add_comm] at h
      obtain ⟨addr, m₁, hfirst, -, hone⟩ := liballocAllocSmall_allocated (h.mono (Nat.le_add_right 1024 _))
      obtain ⟨m', hrest, hmore⟩ := ih (h.rest hone)
      refine ⟨m', ?_, ?_⟩
      · unfold liballocAllocMore
        rw [hfirst, ok_bind]
        exact hrest
      · rw [Nat.mul_succ, Nat.add_comm]
        exact hone.trans h hmore

/-- `liballoc_alloc` of any number of pages: the pieces add up to it. -/
theorem liballocAlloc_allocated (h : HeapRoom m n) (hn : 1 ≤ n) :
    ∃ m', liballocAlloc m n = .ok (m.endMappedKmemory, m') ∧ Allocated m n m' := by
  unfold liballocAlloc
  by_cases hlarge : n > 1024
  · have hsum : n = 1024 + (1024 * (n / 1024 - 1) + n % 1024) := by omega
    generalize n / 1024 - 1 = pieces at hsum
    generalize n % 1024 = left at hsum
    rw [if_pos hlarge]
    rw [hsum] at h ⊢
    obtain ⟨addr, m₁, hfirst, haddr, hone⟩ :=
      liballocAllocSmall_allocated (h.mono (Nat.le_add_right 1024 _))
    have hroom := h.rest hone
    obtain ⟨m₂, hmore, hpieces⟩ := liballocAllocMore_allocated pieces (hroom.mono (Nat.le_add_right _ _))
    obtain ⟨addr', m₃, hlast, -, hleft⟩ := liballocAllocSmall_allocated (hroom.rest hpieces)
    refine ⟨m₃, ?_, hone.trans h (hpieces.trans hroom hleft)⟩
    rw [hfirst, ok_bind]
    simp only
    rw [hmore, ok_bind, hlast, ok_bind, haddr (by decide)]
  · rw [if_neg hlarge]
    obtain ⟨addr, m', hrun, haddr, hone⟩ := liballocAllocSmall_allocated h
    rw [haddr hn] at hrun
    exact ⟨m', hrun, hone⟩

/-! ### Freeing -/

theorem vmmUnmapPage_stack (m : Mem) (a : ℕ) : (vmmUnmapPage m a).2.pmemStack = m.pmemStack := by
  unfold vmmUnmapPage
  split
  · rfl
  · split <;> rfl

/-- `liballoc_free` finds the frames and gives them back one after the other. -/
theorem liballocFreeLoop_frees (frames : List ℕ) : ∀ {m : Mem} {a : ℕ}, TablesApart m 771 →
    heapBase ≤ a → a % 0x1000 = 0 → a + 0x1000 * frames.length < heapLimit →
    (∀ i f, frames[i]? = some f → translation m (a / 0x1000 + i) = some f ∧ f ≠ 0) →
    ∃ m', liballocFreeLoop m a frames.length = (0, m') ∧
      m'.pmemStack = frames.reverse ++ m.pmemStack ∧
      translation m' = Stretch.remove (translation m) (a / 0x1000) frames.length := by
  induction frames with
  | nil =>
      intro m a _ _ _ _ _
      exact ⟨m, rfl, rfl, (Stretch.remove_zero _ _).symm⟩
  | cons f frames ih =>
      intro m a hapart hbase halign hlimit hmapped
      rw [List.length_cons] at hlimit ⊢
      have hlt : a + 0x1000 < heapLimit := by
        refine Nat.lt_of_le_of_lt ?_ hlimit
        omega
      have hpage : (a + 0x1000) / 0x1000 = a / 0x1000 + 1 := by omega
      have ha : HeapPage a := ⟨hbase, Nat.lt_of_le_of_lt (Nat.le_add_right _ _) hlt, halign⟩
      obtain ⟨hfirst, hne⟩ := hmapped 0 f rfl
      have haddr : vmmGetPhysaddr m a = f := by
        rw [vmmGetPhysaddr_eq ha.2.1, halign]
        rw [Nat.add_zero] at hfirst
        rw [hfirst]
        rfl
      have hsame : translation (pmmFreePage m f) = translation m := translation_of_tables rfl rfl
      obtain ⟨hthere, htranslation, hapart₁⟩ := TablesApart.vmmUnmapPage (m := pmmFreePage m f)
        (hapart.of_row rfl rfl) (pdindex_heap ha) ha.2.1
      have hstack := vmmUnmapPage_stack (pmmFreePage m f) a
      unfold liballocFreeLoop
      simp only [haddr, if_neg hne]
      cases hunmap : vmmUnmapPage (pmmFreePage m f) a with
      | mk done m₁ =>
          rw [hunmap] at hthere htranslation hapart₁ hstack
          rw [hsame] at hthere htranslation
          have hdone : done = true := hthere.mpr (by rw [← Nat.add_zero (a / 0x1000), hfirst]; simp)
          subst hdone
          have hwrap : wrap32 (a + 0x1000) = a + 0x1000 := by
            unfold heapLimit at hlt
            unfold wrap32
            omega
          obtain ⟨m', hloop, hstack', htranslation'⟩ := ih hapart₁ (a := a + 0x1000)
            (Nat.le_trans hbase (Nat.le_add_right _ _)) (by omega)
            (by
              refine Nat.lt_of_le_of_lt ?_ hlimit
              omega)
            (fun i g hg => by
              obtain ⟨hrest, hg0⟩ := hmapped (i + 1) g hg
              rw [htranslation, hpage, Function.update_of_ne (by omega), Nat.add_assoc, Nat.add_comm 1]
              exact ⟨hrest, hg0⟩)
          refine ⟨m', ?_, ?_, ?_⟩
          · simp only [hwrap]
            exact hloop
          · rw [hstack', hstack, List.reverse_cons, List.append_assoc]
            rfl
          · rw [htranslation', htranslation, hpage, Stretch.remove_succ]

/-! ### There and back -/

/-- `liballoc_alloc` maps the first `n` free frames to the pages from its result on and leaves every other
address alone; `liballoc_free` undoes this and gives back these frames. -/
theorem liballoc_roundTrip (h : HeapRoom m n) (hnodup : m.pmemStack.Nodup) (hn : 1 ≤ n) :
    ∃ m', liballocAlloc m n = .ok (m.endMappedKmemory, m') ∧
      (m.pmemStack.take n).length = n ∧ (m.pmemStack.take n).Nodup ∧
      m'.pmemStack = m.pmemStack.drop n ∧
      (∀ b < heapLimit, vmmGetPhysaddr m' b =
        if m.endMappedKmemory ≤ b ∧ b < m.endMappedKmemory + 0x1000 * n then
          (m.pmemStack.take n).getD ((b - m.endMappedKmemory) / 0x1000) 0 + b % 0x1000
        else vmmGetPhysaddr m b) ∧
      ∃ m'', liballocFree m' m.endMappedKmemory n = (0, m'') ∧ m''.pmemStack.Perm m.pmemStack ∧
        ∀ b < heapLimit, vmmGetPhysaddr m'' b = vmmGetPhysaddr m b := by
  obtain ⟨m', halloc, hm'⟩ := liballocAlloc_allocated h hn
  have hlength := h.take_length
  have halign := h.heap.2.2
  generalize hframes : m.pmemStack.take n = frames at hlength
  have htranslation := hm'.translation
  rw [hframes] at htranslation
  refine ⟨m', halloc, hlength, ?_, hm'.stack, fun b hb => ?_, ?_⟩
  · rw [← hframes]
    exact hnodup.sublist (List.take_sublist _ _)
  · rw [vmmGetPhysaddr_eq hb, vmmGetPhysaddr_eq hb, htranslation]
    unfold Stretch.insert
    rw [hlength]
    by_cases hrange : m.endMappedKmemory ≤ b ∧ b < m.endMappedKmemory + 0x1000 * n
    · have hindex : b / 0x1000 - m.endMappedKmemory / 0x1000 = (b - m.endMappedKmemory) / 0x1000 := by
        omega
      have hlt : (b - m.endMappedKmemory) / 0x1000 < frames.length := by
        rw [hlength]
        omega
      rw [if_pos hrange, if_pos (by omega), hindex, List.getD_eq_getElem?_getD,
        List.getElem?_eq_getElem hlt]
      rfl
    · rw [if_neg hrange, if_neg (by omega)]
  · have hmapped : ∀ i f, frames[i]? = some f →
        translation m' (m.endMappedKmemory / 0x1000 + i) = some f ∧ f ≠ 0 := by
      intro i f hf
      obtain ⟨hi, -⟩ := List.getElem?_eq_some_iff.mp hf
      have hmem : f ∈ m.pmemStack := List.mem_of_mem_take (hframes ▸ List.mem_of_getElem? hf)
      refine ⟨?_, (h.frames f hmem).2⟩
      rw [htranslation]
      unfold Stretch.insert
      rw [if_pos (by omega), Nat.add_sub_cancel_left]
      exact hf
    obtain ⟨m'', hfree, hstack, hback⟩ := liballocFreeLoop_frees frames hm'.apart h.heap.1 halign
      (by rw [hlength]; exact h.limit) hmapped
    rw [hlength] at hfree
    have hsame : translation m'' = translation m := by
      rw [hback, htranslation]
      exact Stretch.remove_insert fun i hi => h.unmapped i (hlength ▸ hi)
    refine ⟨m'', hfree, ?_, fun b hb => ?_⟩
    · rw [hstack, hm'.stack]
      have hperm : (frames.reverse ++ m.pmemStack.drop n).Perm (frames ++ m.pmemStack.drop n) :=
        (List.reverse_perm frames).append_right _
      rw [← hframes, List.take_append_drop] at hperm
      rw [← hframes]
      exact hperm
    · rw [vmmGetPhysaddr_eq hb, vmmGetPhysaddr_eq hb, hsame]

/-! ### Memory in which every frame has an owner -/

section Owned

variable {role : ℕ → Role} {K : ℕ → ℕ}

theorem Directory.kernelTables (h : Directory role K m m.cr3) : KernelTables m := by
  intro i hlo hhi
  obtain ⟨fl, hpde⟩ := h.kernel i (by omega) hhi
  rw [hpde]
  exact Option.some_ne_none _

/-- The kernel's page tables are apart from each other, from the directory and from those of users. -/
theorem Owned.kernelApart (h : Owned role K m) (hcr3 : Directory role K m m.cr3) :
    TablesApart m 768 := by
  intro i hlo hhi pde hpde
  obtain ⟨fl, hentry⟩ := hcr3.kernel i hlo hhi
  obtain rfl := Option.some.inj (hpde.symm.trans hentry)
  refine ⟨hcr3.notKernel i hlo hhi, fun j hj pde' hpde' hframe => ?_⟩
  by_cases hj' : 768 ≤ j
  · obtain ⟨fl', hentry'⟩ := hcr3.kernel j hj' hj
    obtain rfl := Option.some.inj (hpde'.symm.trans hentry')
    exact h.kernelInj j i hj' hj hlo hhi hframe
  · obtain ⟨a, huser⟩ := hcr3.user j (by omega) pde' hpde'
    rw [hframe, h.kernel i hlo hhi] at huser
    cases huser

/-- A directory whose user entries refer to different page tables refers to each table once. -/
theorem Owned.tablesApart (h : Owned role K m) (hcr3 : Directory role K m m.cr3)
    (hseparate : Separate m m.cr3) : TablesApart m 0 := by
  intro i _ hhi pde hpde
  by_cases hlo : 768 ≤ i
  · exact h.kernelApart hcr3 i hlo hhi pde hpde
  · obtain ⟨a, huser⟩ := hcr3.user i (by omega) pde hpde
    refine ⟨(hcr3.ne_of_role (by simp [huser]) (by simp [huser])).symm, fun j hj pde' hpde' hframe => ?_⟩
    by_cases hj' : 768 ≤ j
    · obtain ⟨fl, hentry⟩ := hcr3.kernel j hj' hj
      obtain rfl := Option.some.inj (hpde'.symm.trans hentry)
      rw [← hframe, h.kernel j hj' hj] at huser
      cases huser
    · exact hseparate j (by omega) i (by omega) pde' pde hpde' hpde hframe

theorem Owned.unmapped (h : Owned role K m) (hcr3 : Directory role K m m.cr3) {i : ℕ}
    (hi : m.endMappedKmemory + 0x1000 * i < heapLimit) :
    translation m (m.endMappedKmemory / 0x1000 + i) = none := by
  have hheap := h.heap
  have hpage : HeapPage (m.endMappedKmemory + 0x1000 * i) :=
    ⟨Nat.le_trans hheap.1 (Nat.le_add_right _ _), hi, by
      have halign := hheap.2.2
      omega⟩
  have hindex : m.endMappedKmemory / 0x1000 + i = (m.endMappedKmemory + 0x1000 * i) / 0x1000 := by
    omega
  obtain ⟨fl, hpde⟩ := hcr3.kernel _ hpage.pdindex.1 hpage.pdindex.2
  rw [hindex, translation_page hi]
  unfold pageEntry
  rw [hpde, Option.bind_some, h.fresh _ hpage (Nat.le_add_right _ _)]
  rfl

/-- Such a memory has room for as many pages as it has free frames and addresses. -/
theorem Owned.heapRoom (h : Owned role K m) (hcr3 : Directory role K m m.cr3)
    (hlimit : m.endMappedKmemory + 0x1000 * n < heapLimit) (havail : n ≤ pmmAvailable m) :
    HeapRoom m n ∧ m.pmemStack.Nodup := by
  refine ⟨⟨hcr3.kernelTables, fun i hlo => h.kernelApart hcr3 i (by omega), h.heap, hlimit, fun i hi => ?_,
    fun f hf => h.frames f (by rw [h.free f hf]; simp), havail⟩, h.nodup⟩
  refine h.unmapped hcr3 (Nat.lt_trans ?_ hlimit)
  omega

/-- It has room for a page table if it has a free frame. -/
theorem Owned.tableRoom {f : ℕ} (h : Owned role K m) (hcr3 : Directory role K m m.cr3)
    (htop : m.pmemStack.head? = some f) : TableRoom m f := by
  have hmem : f ∈ m.pmemStack := List.mem_of_head? htop
  have hfree := h.free f hmem
  refine ⟨h.heap, ?_, htop, (h.frames f (by rw [hfree]; simp)).1, ?_, fun i hi pde hpde hframe => ?_⟩
  · have hnone := h.unmapped hcr3 (i := 0) h.heap.2.1
    rwa [Nat.add_zero] at hnone
  · exact (hcr3.ne_of_role (by simp [hfree]) (by simp [hfree])).symm
  · by_cases hlo : 768 ≤ i
    · obtain ⟨fl, hentry⟩ := hcr3.kernel i hlo hi
      obtain rfl := Option.some.inj (hpde.symm.trans hentry)
      rw [← hframe, h.kernel i hlo hi] at hfree
      cases hfree
    · obtain ⟨a, huser⟩ := hcr3.user i (by omega) pde hpde
      rw [hframe, hfree] at huser
      cases huser

end Owned

/-! ### Two pieces -/

/-- The memory `m` with `n` free frames. -/
def Mem.withFrames (m : Mem) (n : ℕ) : Mem :=
  { m with pmemStack := (List.range n).map fun i => 0x400000 + 0x1000 * i }

theorem withFrames_end : (m.withFrames n).endMappedKmemory = m.endMappedKmemory := rfl

theorem withFrames_translation : translation (m.withFrames n) = translation m := rfl

theorem withFrames_frame {f : ℕ} (h : f ∈ (m.withFrames n).pmemStack) :
    ∃ i, f = 0x400000 + 0x1000 * i := by
  obtain ⟨i, -, rfl⟩ := List.mem_map.mp h
  exact ⟨i, rfl⟩

theorem withFrames_get {i : ℕ} (h : i < n) :
    ((m.withFrames n).pmemStack.take n).getD i 0 = 0x400000 + 0x1000 * i := by
  simp [Mem.withFrames, List.getD_eq_getElem?_getD, h]

theorem withFrames_nodup : (m.withFrames n).pmemStack.Nodup := by
  refine List.Nodup.map (fun i j hij => ?_) List.nodup_range
  have hsum : 0x400000 + 0x1000 * i = 0x400000 + 0x1000 * j := hij
  omega

theorem withFrames_length : (m.withFrames n).pmemStack.length = n := by
  simp only [Mem.withFrames, List.length_map, List.length_range]

theorem withFrames_heapRoom (hkernel : KernelTables m) (hapart : TablesApart m 0)
    (hheap : HeapPage m.endMappedKmemory) (hlimit : m.endMappedKmemory + 0x1000 * n < heapLimit)
    (hunmapped : ∀ i, translation m (m.endMappedKmemory / 0x1000 + i) = none) :
    HeapRoom (m.withFrames n) n := by
  refine ⟨hkernel, fun i _ => hapart i (Nat.zero_le i), hheap, hlimit, fun i _ => hunmapped i,
    fun f hf => ?_, Nat.le_of_eq withFrames_length.symm⟩
  obtain ⟨i, rfl⟩ := withFrames_frame hf
  omega

/-- After `vmm_init` nothing is mapped through the page tables of the heap. -/
theorem emptyMem_unmapped (page : ℕ) : translation (vmmInit emptyMem 0x100000) page = none := by
  obtain ⟨hcr3, hothers, -⟩ := vmmInit_tables emptyMem 0x100000
  unfold translation
  split_ifs
  · rw [hcr3, Option.map_eq_none_iff]
    by_contra hentry
    obtain ⟨pde, hpde, hpte⟩ := pageEntry_ne_none.mp hentry
    obtain ⟨hi, hframe⟩ := emptyMem_entry hpde
    have hne : pde.frame ≠ emptyMem.cr3 := by
      show pde.frame ≠ 0x1000
      omega
    rw [hothers _ hne] at hpte
    exact hpte rfl
  · rfl

/-- The second piece of 2000 pages starts at the 1024th; all the pages are given back. -/
theorem liballoc_twoPieces : ∃ m m' m'' : Mem, liballocAlloc m 2000 = .ok (heapBase, m') ∧
    m'.pmemStack = [] ∧ vmmGetPhysaddr m' (heapBase + 0x5DC123) = 0x9DC123 ∧
    liballocFree m' heapBase 2000 = (0, m'') ∧ m''.pmemStack.Perm m.pmemStack ∧
    vmmGetPhysaddr m'' (heapBase + 0x5DC123) = 0 := by
  have hkernel := vmmInit_kernelTables emptyMem 0x100000
  have hunmapped := emptyMem_unmapped
  have hheap : (vmmInit emptyMem 0x100000).endMappedKmemory = heapBase :=
    (vmmInit_stack emptyMem 0x100000).2
  have hapart := emptyMem_apart
  generalize vmmInit emptyMem 0x100000 = m at hkernel hunmapped hheap hapart
  have hroom : HeapRoom (m.withFrames 2000) 2000 :=
    withFrames_heapRoom hkernel hapart (hheap ▸ ⟨Nat.le_refl _, by decide, by decide⟩)
      (by rw [hheap]; decide) fun _ => hunmapped _
  obtain ⟨m', halloc, -, -, hstack, hmapped, m'', hfree, hperm, hback⟩ :=
    liballoc_roundTrip hroom withFrames_nodup (by decide)
  have haddr := hmapped (heapBase + 0x5DC123) (by decide)
  have hunmap := hback (heapBase + 0x5DC123) (by decide)
  rw [withFrames_end, hheap] at halloc haddr hfree
  refine ⟨m.withFrames 2000, m', m'', halloc, ?_, ?_, hfree, hperm, ?_⟩
  · rw [hstack, List.drop_eq_nil_iff, withFrames_length]
  · rw [haddr, if_pos (by decide), withFrames_get (by decide)]
    decide
  · rw [hunmap, vmmGetPhysaddr_eq (by decide), withFrames_translation, hunmapped]
    rfl

end GalaxyOS
