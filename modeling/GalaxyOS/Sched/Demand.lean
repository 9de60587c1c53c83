import Mathlib.Data.List.Nodup
import GalaxyOS.Sched.AddressSpace

/-! # What a step takes off the free stack

`pmm_alloc_page` does not report an empty stack, it panics; so before a function of the kernel asks
for frames somebody has to know how many it will need.  This module says it for the functions of
`vmm.c` and `liballoc-vmm.c`, for the loader and for the copy loop of `sched_fork_thread`.

A frame for a page table is mapped at the end of the kernel heap.  `HeapTables m n` says that the
next `n` pages there have their page table, and `Intact m d` that the directory `d` is one of the
kernel's own making and that the free frames are not among its page tables.

`Intact.mapPage` is the step for one page, `vmmMapPagesKLoop_demand` and `liballocAllocSmall_demand` are the
loops over it; `Takes` adds up what they take. -/

namespace GalaxyOS

open Transition

variable {m m' m₁ : Mem} {d n k a f flags : ℕ}

/-- The panics of a kernel that has run out of frames or ids. -/
def Exhausted (e : Fault) : Prop :=
  e = .panic "Out of physical memory" ∨ e = .panic "Out of process ids" ∨
    e = .panic "Out of thread ids"

instance : DecidablePred Exhausted := fun _ => inferInstanceAs (Decidable (_ ∨ _ ∨ _))

/-- The next `n` pages of the kernel heap have a page table in the directory that is loaded. -/
def HeapTables (m : Mem) (n : ℕ) : Prop :=
  ∀ i < n, (i = 0 ∨ m.endMappedKmemory + 0x1000 * i < heapLimit) →
    m.tables m.cr3 (pdindex (m.endMappedKmemory + 0x1000 * i)) ≠ none

instance (m : Mem) (n : ℕ) : Decidable (HeapTables m n) :=
  inferInstanceAs (Decidable (∀ i < n, _))

/-- The directory `d` has the page tables of the kernel half and maps itself, and the pages of the
free frames are distinct and are neither the directory nor a page table of it. -/
structure Intact (m : Mem) (d : ℕ) : Prop where
  heap : HeapPage m.endMappedKmemory
  kernel : ∀ i < 1023, 768 ≤ i → m.tables d i ≠ none
  self : (m.tables d 1023).map Pte.frame = some d
  tables : ∀ i < 1023, ∀ pde, m.tables d i = some pde →
    pde.frame ≠ d ∧ ∀ f ∈ m.pmemStack, pde.frame ≠ f / 0x1000 * 0x1000
  dir : ∀ f ∈ m.pmemStack, f / 0x1000 * 0x1000 ≠ d
  nodup : (m.pmemStack.map fun f => f / 0x1000 * 0x1000).Nodup

/-- From `m` to `m'` at most `n` frames have been taken off the stack, and what `d` maps is still
mapped. -/
structure Takes (d n : ℕ) (m m' : Mem) : Prop where
  cr3 : m'.cr3 = m.cr3
  stack : ∃ taken, m.pmemStack = taken ++ m'.pmemStack ∧ taken.length ≤ n
  row : ∀ i, m.tables d i ≠ none → m'.tables d i = m.tables d i
  pages : ∀ b < 0x100000000, pageEntry m d b ≠ none → pageEntry m' d b ≠ none
  intact : Intact m' d

/-! ### Frames -/

theorem exhausted_nullDeref : ¬Exhausted .nullDeref := by decide

theorem exhausted_virtual : ¬Exhausted (.panic "Out of virtual memory") := by decide

theorem pmmAllocPage_avoids (h : 0 < pmmAvailable m) : Avoids Exhausted (pmmAllocPage m) := by
  obtain ⟨page, rest, hstack⟩ := List.exists_cons_of_length_pos h
  simp only [pmmAllocPage, hstack]
  exact .ok _

theorem pmmAllocPage_ok (h : pmmAllocPage m = .ok (f, m')) :
    m.pmemStack = f :: m'.pmemStack ∧ m' = { m with pmemStack := m'.pmemStack } := by
  unfold pmmAllocPage at h
  cases hstack : m.pmemStack with
  | nil => simp [hstack] at h
  | cons g rest =>
      simp only [hstack, Except.ok.injEq, Prod.mk.injEq] at h
      obtain ⟨rfl, rfl⟩ := h
      exact ⟨rfl, rfl⟩

theorem pmmAllocPage_available (h : pmmAllocPage m = .ok (f, m')) :
    pmmAvailable m = pmmAvailable m' + 1 := by
  unfold pmmAvailable
  rw [(pmmAllocPage_ok h).1, List.length_cons]

theorem pmmAllocPages_avoids (h : n ≤ pmmAvailable m) : Avoids Exhausted (pmmAllocPages m n) := by
  induction n generalizing m with
  | zero => exact .ok _
  | succ n ih =>
      refine .bind (pmmAllocPage_avoids (by omega)) ?_
      rintro ⟨page, m₁⟩ hpop
      have havail := pmmAllocPage_available hpop
      refine .bind (ih (by omega)) ?_
      rintro ⟨pages, m₂⟩ -
      exact .ok _

/-! ### Pointers -/

/-- Mapping a page needs a frame only where the page table is missing. -/
theorem vmmMapPage_avoids {overwrite : Bool}
    (h : m.tables m.cr3 (pdindex a) = none → 0 < pmmAvailable m ∧ HeapTables m 1) :
    Avoids Exhausted (vmmMapPage m f a flags overwrite) := by
  unfold vmmMapPage
  cases hpde : m.tables m.cr3 (pdindex a) with
  | some pde =>
      simp only [vmmMapPageF, hpde]
      exact .ok _
  | none =>
      obtain ⟨havail, hheap⟩ := h hpde
      obtain ⟨T, rest, hstack⟩ := List.exists_cons_of_length_pos havail
      obtain ⟨pde, hkernel⟩ := Option.ne_none_iff_exists'.mp (hheap 0 Nat.one_pos (.inl rfl))
      rw [Nat.mul_zero, Nat.add_zero] at hkernel
      rw [hstack, List.length_cons, vmmMapPageF]
      simp only [hpde]
      refine .bind (pmmAllocPage_avoids havail) ?_
      rintro ⟨page, m₁⟩ hpop
      obtain ⟨-, hm₁⟩ := pmmAllocPage_ok hpop
      have hentry : m₁.tables m₁.cr3 (pdindex m₁.endMappedKmemory) = some pde := by
        rw [hm₁]
        exact hkernel
      refine .bind ?_ ?_
      · -- the page table of the heap is there, so there is no second round
        simp only [vmmMapPageF, hentry]
        exact .ok _
      rintro ⟨r, m₂⟩ -
      simp only
      split_ifs with hr hend
      · exact .error exhausted_nullDeref
      · exact .error exhausted_virtual
      · exact .ok _

/-- An entry of a page table is set, unless there is one. -/
theorem mapEntry_false {T : ℕ} {r : Int} (h : mapEntry m T f a flags false = (r, m')) :
    (m.tables T (ptindex a) ≠ none ∧ r = -1 ∧ m' = m) ∨
    (m.tables T (ptindex a) = none ∧ r = 0 ∧
      m' = m.setEntry T (ptindex a) (some (mkPte f (flags % 0x1000 ||| 1)))) := by
  unfold mapEntry at h
  cases hpte : m.tables T (ptindex a) with
  | some pte =>
      simp only [hpte, Bool.not_false, if_true, Prod.mk.injEq] at h
      exact .inl ⟨by simp, h.1.symm, h.2.symm⟩
  | none =>
      simp only [hpte, Prod.mk.injEq] at h
      exact .inr ⟨rfl, h.1.symm, h.2.symm⟩

/-- Entries that are there stay. -/
theorem setEntry_keeps {T R i j : ℕ} {e : Option Pte} (hnone : m.tables T i = none)
    (h : m.tables R j ≠ none) : (m.setEntry T i e).tables R j = m.tables R j := by
  refine setEntry_of_ne ?_ m e
  by_cases hR : R = T
  · refine .inr fun hj => h ?_
    rw [hR, hj, hnone]
  · exact .inl hR

/-! ### A directory that is intact -/

theorem Takes.refl (h : Intact m d) : Takes d 0 m m :=
  ⟨rfl, ⟨[], rfl, Nat.le_refl 0⟩, fun _ _ => rfl, fun _ _ hb => hb, h⟩

theorem Takes.trans (h : Takes d n m m₁) (h' : Takes d k m₁ m') : Takes d (n + k) m m' := by
  obtain ⟨taken, hstack, hlen⟩ := h.stack
  obtain ⟨taken', hstack', hlen'⟩ := h'.stack
  refine ⟨h'.cr3.trans h.cr3, ⟨taken ++ taken', ?_, ?_⟩, fun i hi => ?_,
    fun b hlt hb => h'.pages b hlt (h.pages b hlt hb), h'.intact⟩
  · rw [hstack, hstack', List.append_assoc]
  · rw [List.length_append]
    omega
  · rw [← h.row i hi]
    exact h'.row i (h.row i hi ▸ hi)

theorem Takes.mono (h : Takes d n m m') (hle : n ≤ k) : Takes d k m m' := by
  obtain ⟨taken, hstack, hlen⟩ := h.stack
  exact ⟨h.cr3, ⟨taken, hstack, Nat.le_trans hlen hle⟩, h.row, h.pages, h.intact⟩

theorem Takes.available (h : Takes d n m m') : pmmAvailable m ≤ pmmAvailable m' + n := by
  obtain ⟨taken, hstack, hlen⟩ := h.stack
  unfold pmmAvailable
  rw [hstack, List.length_append]
  omega

theorem pageEntry_ne_none {b : ℕ} : pageEntry m d b ≠ none ↔
    ∃ pde, m.tables d (pdindex b) = some pde ∧ m.tables pde.frame (ptindex b) ≠ none := by
  unfold pageEntry
  cases m.tables d (pdindex b) with
  | none => simp
  | some pde => simp

theorem Intact.heapTables (h : Intact m d) (hcr3 : m.cr3 = d) (n : ℕ) : HeapTables m n := by
  subst hcr3
  intro i _ hi
  have h1 := h.heap.1
  have h2 := h.heap.2.1
  unfold heapBase at h1
  unfold heapLimit at h2 hi
  refine h.kernel _ ?_ ?_
  · unfold pdindex
    omega
  · unfold pdindex
    omega

/-- Taking frames off the stack leaves the directory intact. -/
theorem Intact.pops (h : Intact m d) (taken : List ℕ)
    (hstack : m.pmemStack = taken ++ m'.pmemStack)
    (hm : m' = { m with pmemStack := m'.pmemStack }) : Takes d taken.length m m' := by
  have hsub : ∀ f ∈ m'.pmemStack, f ∈ m.pmemStack := fun f hf =>
    hstack ▸ List.mem_append_right taken hf
  have hnodup := h.nodup
  rw [hstack, List.map_append, List.nodup_append] at hnodup
  have htables : m'.tables = m.tables := by rw [hm]
  have hheap : m'.endMappedKmemory = m.endMappedKmemory := by rw [hm]
  refine ⟨by rw [hm], ⟨taken, hstack, Nat.le_refl _⟩, fun i _ => by rw [htables], fun b _ hb => ?_,
    hheap ▸ h.heap, htables ▸ h.kernel, htables ▸ h.self, fun i hi pde hpde => ?_,
    fun f hf => h.dir f (hsub f hf), hnodup.2.1⟩
  · unfold pageEntry at hb ⊢
    rwa [htables]
  · rw [htables] at hpde
    obtain ⟨h1, h2⟩ := h.tables i hi pde hpde
    exact ⟨h1, fun f hf => h2 f (hsub f hf)⟩

/-- An entry is set that was not there, but not in the directory. -/
theorem Intact.setEntry {T i : ℕ} {e : Pte} (h : Intact m d) (hT : T ≠ d)
    (hnone : m.tables T i = none) : Takes d 0 m (m.setEntry T i (some e)) := by
  have hrow : (m.setEntry T i (some e)).tables d = m.tables d := setEntry_row hT.symm m i (some e)
  refine ⟨rfl, ⟨[], rfl, Nat.le_refl 0⟩, fun j _ => congrFun hrow j, fun b _ hb => ?_,
    h.heap, hrow ▸ h.kernel, hrow ▸ h.self, hrow ▸ h.tables, h.dir, h.nodup⟩
  obtain ⟨pde, hpde, hpte⟩ := pageEntry_ne_none.mp hb
  refine pageEntry_ne_none.mpr ⟨pde, hrow ▸ hpde, ?_⟩
  rw [setEntry_keeps hnone hpte]
  exact hpte

/-- `vmm_map_page` where the page table is there. -/
theorem Intact.mapPage_present {r : Int} {pde : Pte} (h : Intact m m.cr3) (ha : pdindex a < 1023)
    (hpde : m.tables m.cr3 (pdindex a) = some pde)
    (hmap : vmmMapPage m f a flags false = .ok (r, m')) :
    Takes m.cr3 0 m m' ∧ pageEntry m' m.cr3 a ≠ none := by
  simp only [vmmMapPage, vmmMapPageF, hpde, Except.ok.injEq] at hmap
  rcases mapEntry_false hmap with ⟨hpte, -, rfl⟩ | ⟨hnone, -, rfl⟩
  · exact ⟨.refl h, pageEntry_ne_none.mpr ⟨pde, hpde, hpte⟩⟩
  · have hT := (h.tables _ ha pde hpde).1
    have hrow := setEntry_row hT.symm m (ptindex a) (some (mkPte f (flags % 0x1000 ||| 1)))
    refine ⟨h.setEntry hT hnone, pageEntry_ne_none.mpr ⟨pde, hrow ▸ hpde, ?_⟩⟩
    rw [setEntry_self]
    simp

/-- The memory after a page table has been made at `T`, the page of the frame `g`, and the page `a`
mapped there. -/
structure TableMade (m : Mem) (g T a : ℕ) (m' : Mem) : Prop where
  cr3 : m'.cr3 = m.cr3
  heap : m'.endMappedKmemory = m.endMappedKmemory + 0x1000
  limit : m'.endMappedKmemory < heapLimit
  stack : m.pmemStack = g :: m'.pmemStack
  dir : m'.tables m.cr3 = Function.update (m.tables m.cr3) (pdindex a) (some ⟨T, 0x7⟩)
  entry : m'.tables T (ptindex a) ≠ none
  others : ∀ R, R ≠ m.cr3 → R ≠ T → ∀ i, m.tables R i ≠ none → m'.tables R i = m.tables R i

theorem mkPte_self (T fl : ℕ) : mkPte (T / 0x1000 * 0x1000) fl = ⟨T / 0x1000 * 0x1000, fl⟩ :=
  mkPte_eq (Nat.mul_mod_left _ _) fl

/-- `vmm_map_page` where the page table is missing. -/
theorem Intact.mapPage_table {r : Int} (h : Intact m m.cr3)
    (hpde : m.tables m.cr3 (pdindex a) = none)
    (hmap : vmmMapPage m f a flags false = .ok (r, m')) :
    ∃ g, TableMade m g (g / 0x1000 * 0x1000) a m' := by
  have hrange := h.heap.pdindex
  obtain ⟨pde, hkernel⟩ := Option.ne_none_iff_exists'.mp (h.kernel _ hrange.2 hrange.1)
  have hKd := (h.tables _ hrange.2 pde hkernel).1
  simp only [vmmMapPage, vmmMapPageF, hpde, bind_ok, Prod.exists] at hmap
  obtain ⟨g, m₁, hpop, r₁, m₂, hinner, hmap⟩ := hmap
  obtain ⟨hstack, hm₁⟩ := pmmAllocPage_ok hpop
  have hTd := h.dir g (hstack ▸ List.mem_cons_self)
  have hTK := (h.tables _ hrange.2 pde hkernel).2 g (hstack ▸ List.mem_cons_self)
  generalize hrest : m₁.pmemStack = rest at hstack hm₁
  subst hm₁
  rw [hstack, List.length_cons] at hinner
  simp only [vmmMapPageF, hkernel, Except.ok.injEq] at hinner
  split_ifs at hmap with hr hend
  -- the frame is mapped at the end of the kernel heap
  rcases mapEntry_false hinner with ⟨-, rfl, -⟩ | ⟨hnone, rfl, rfl⟩
  · exact absurd rfl hr
  let m₃ : Mem := { ({ m with pmemStack := rest } : Mem).setEntry pde.frame
    (ptindex m.endMappedKmemory) (some (mkPte g (0x3 % 0x1000 ||| 1))) with
      endMappedKmemory := m.endMappedKmemory + 0x1000 }
  have hrow : m₃.tables m.cr3 = m.tables m.cr3 := setEntry_row hKd.symm _ _ _
  have hself : m₃.tables pde.frame (ptindex m.endMappedKmemory) = some ⟨g / 0x1000 * 0x1000, _⟩ :=
    setEntry_self ..
  have haddr : vmmGetPhysaddr m₃ m.endMappedKmemory = g / 0x1000 * 0x1000 := by
    unfold vmmGetPhysaddr
    rw [show m₃.cr3 = m.cr3 from rfl, hrow, hkernel]
    simp only [hself, h.heap.2.2, Nat.add_zero]
  generalize hT : g / 0x1000 * 0x1000 = T at hTd hTK haddr
  have hpte : mkPte T 0x7 = ⟨T, 0x7⟩ := by rw [← hT, mkPte_self]
  let m₅ : Mem := (m₃.clearTable T).setEntry m.cr3 (pdindex a) (some ⟨T, 0x7⟩)
  have hlast : mapEntry m₅ T f a flags false = (r, m') := by
    have hmap' := Except.ok.inj hmap
    change mapEntry ((m₃.clearTable (vmmGetPhysaddr m₃ m.endMappedKmemory)).setEntry m.cr3 (pdindex a)
      (some (mkPte (vmmGetPhysaddr m₃ m.endMappedKmemory) 0x7)))
      (mkPte (vmmGetPhysaddr m₃ m.endMappedKmemory) 0x7).frame f a flags false = (r, m') at hmap'
    rw [haddr, hpte] at hmap'
    exact hmap'
  have hclear : m₅.tables T = fun _ => none :=
    (setEntry_row hTd _ _ _).trans (Function.update_self ..)
  have hdir : m₅.tables m.cr3 = Function.update (m.tables m.cr3) (pdindex a) (some ⟨T, 0x7⟩) := by
    show Function.update _ _ _ m.cr3 = _
    rw [Function.update_self]
    refine congrArg (fun row => Function.update row _ _) ?_
    exact (Function.update_of_ne hTd.symm _ _).trans hrow
  rcases mapEntry_false hlast with ⟨hc, -, -⟩ | ⟨-, -, rfl⟩
  · exact absurd (congrFun hclear _) hc
  refine ⟨g, rfl, rfl, Nat.lt_of_not_le hend, hstack, ?_, ?_, fun R hRd hRT i hi => ?_⟩
  · rw [setEntry_row hTd.symm, hdir, hT]
  · rw [hT, setEntry_self]
    simp
  · rw [hT] at hRT
    rw [setEntry_row hRT]
    calc m₅.tables R i = m₃.tables R i :=
          congrFun ((setEntry_row hRd _ _ _).trans (Function.update_of_ne hRT _ _)) i
      _ = m.tables R i := setEntry_keeps (m := { m with pmemStack := rest }) hnone hi

/-- No page table of the directory, and not the directory itself, is the page of a free frame. -/
theorem Intact.table_ne {b g : ℕ} {pde : Pte} (h : Intact m d) (hb : b < 0x100000000)
    (hpde : m.tables d (pdindex b) = some pde) (hg : g ∈ m.pmemStack) :
    pde.frame ≠ g / 0x1000 * 0x1000 := by
  by_cases hlast : pdindex b = 1023
  · have hself := h.self
    rw [hlast] at hpde
    rw [hpde, Option.map_some, Option.some.injEq] at hself
    exact hself ▸ (h.dir g hg).symm
  · refine (h.tables _ ?_ pde hpde).2 g hg
    unfold pdindex at hlast ⊢
    omega

/-- The new page table leaves the directory intact. -/
theorem TableMade.takes {g : ℕ} (h : Intact m m.cr3) (hpde : m.tables m.cr3 (pdindex a) = none)
    (ht : TableMade m g (g / 0x1000 * 0x1000) a m') :
    Takes m.cr3 1 m m' ∧ pageEntry m' m.cr3 a ≠ none := by
  have hg : g ∈ m.pmemStack := ht.stack ▸ List.mem_cons_self
  have hsub : ∀ f ∈ m'.pmemStack, f ∈ m.pmemStack := fun f hf =>
    ht.stack ▸ List.mem_cons_of_mem g hf
  have hnodup := h.nodup
  rw [ht.stack, List.map_cons, List.nodup_cons] at hnodup
  have hself := h.self
  have hrow : ∀ i, m.tables m.cr3 i ≠ none → m'.tables m.cr3 i = m.tables m.cr3 i := by
    intro i hi
    rw [ht.dir, Function.update_of_ne]
    rintro rfl
    exact hi hpde
  have hne : (1023 : ℕ) ≠ pdindex a := by
    intro hc
    rw [hc, hpde] at hself
    cases hself
  refine ⟨⟨ht.cr3, ⟨[g], ht.stack, Nat.le_refl 1⟩, hrow, fun b hlt hb => ?_, ?_, fun i h1 h2 => ?_, ?_,
    fun i hi pde hi' => ?_, fun f hf => h.dir f (hsub f hf), hnodup.2⟩, ?_⟩
  · obtain ⟨pde, hb1, hb2⟩ := pageEntry_ne_none.mp hb
    have hb1' := hrow _ (by rw [hb1]; simp)
    refine pageEntry_ne_none.mpr ⟨pde, hb1'.trans hb1, ?_⟩
    by_cases hd : pde.frame = m.cr3
    · rw [hd] at hb2 ⊢
      rw [hrow _ hb2]
      exact hb2
    · rw [ht.others _ hd (h.table_ne hlt hb1 hg) _ hb2]
      exact hb2
  · have h1 := h.heap
    refine ⟨?_, ht.limit, ?_⟩
    · rw [ht.heap]
      exact Nat.le_trans h1.1 (Nat.le_add_right _ _)
    · rw [ht.heap]
      have h3 := h1.2.2
      omega
  · rw [hrow i (h.kernel i h1 h2)]
    exact h.kernel i h1 h2
  · rw [ht.dir, Function.update_of_ne hne]
    exact hself
  · by_cases hia : i = pdindex a
    · subst hia
      rw [ht.dir, Function.update_self] at hi'
      obtain rfl := Option.some.inj hi'
      refine ⟨h.dir g hg, fun f hf hc => hnodup.1 ?_⟩
      exact List.mem_map.mpr ⟨f, hf, hc.symm⟩
    · rw [ht.dir, Function.update_of_ne hia] at hi'
      obtain ⟨h1, h2⟩ := h.tables i hi pde hi'
      exact ⟨h1, fun f hf => h2 f (hsub f hf)⟩
  · refine pageEntry_ne_none.mpr ⟨⟨g / 0x1000 * 0x1000, 0x7⟩, ?_, ht.entry⟩
    rw [ht.dir, Function.update_self]

/-- The page `a` is mapped, if it was not; its page table may need a frame. -/
theorem Intact.mapPage {r : Int} (h : Intact m d) (hcr3 : m.cr3 = d) (ha : pdindex a < 1023)
    (hmap : vmmMapPage m f a flags false = .ok (r, m')) :
    Takes d (if m.tables d (pdindex a) = none then 1 else 0) m m' ∧ pageEntry m' d a ≠ none := by
  subst hcr3
  split_ifs with hpde
  · obtain ⟨g, hmade⟩ := h.mapPage_table hpde hmap
    exact hmade.takes h hpde
  · obtain ⟨pde, hpde⟩ := Option.ne_none_iff_exists'.mp hpde
    exact h.mapPage_present ha hpde hmap

theorem HeapTables.mono (h : HeapTables m n) (hle : k ≤ n) : HeapTables m k :=
  fun i hi => h i (Nat.lt_of_lt_of_le hi hle)

/-- The end of the kernel heap has moved by one page. -/
theorem HeapTables.next (h : HeapTables m (n + 1)) (hcr3 : m'.cr3 = m.cr3)
    (hheap : m'.endMappedKmemory = m.endMappedKmemory + 0x1000)
    (hlimit : m'.endMappedKmemory < heapLimit)
    (hrow : ∀ i, m.tables m.cr3 i ≠ none → m'.tables m.cr3 i ≠ none) : HeapTables m' n := by
  intro i hi hroom
  have haddr : m'.endMappedKmemory + 0x1000 * i = m.endMappedKmemory + 0x1000 * (i + 1) := by
    rw [hheap, Nat.mul_succ]
    omega
  rw [hcr3, haddr]
  refine hrow _ (h (i + 1) (Nat.succ_lt_succ hi) (.inr ?_))
  rw [← haddr]
  rcases hroom with rfl | hroom
  · rw [Nat.mul_zero, Nat.add_zero]
    exact hlimit
  · exact hroom

/-- The loop of `vmm_map_pages_k` takes no frames where the page tables are there. -/
theorem vmmMapPagesKLoop_demand {pages : List ℕ} (h : HeapTables m pages.length) :
    Avoids Exhausted (vmmMapPagesKLoop m pages) ∧
    ∀ mapped m', vmmMapPagesKLoop m pages = .ok (mapped, m') → pmmAvailable m' = pmmAvailable m ∧
      ∀ k, HeapTables m (pages.length + k) → HeapTables m' k := by
  induction pages generalizing m with
  | nil =>
      refine ⟨.ok _, fun mapped m' hloop => ?_⟩
      obtain ⟨-, rfl⟩ := Prod.mk.inj (Except.ok.inj hloop)
      exact ⟨rfl, fun k hk => hk.mono (Nat.le_add_left k _)⟩
  | cons page pages ih =>
      obtain ⟨pde, hpde⟩ := Option.ne_none_iff_exists'.mp (h 0 (Nat.succ_pos _) (.inl rfl))
      rw [Nat.mul_zero, Nat.add_zero] at hpde
      obtain ⟨r, m₁, hentry⟩ : ∃ r m₁,
          mapEntry m pde.frame page m.endMappedKmemory 0x3 false = (r, m₁) := ⟨_, _, rfl⟩
      have hmap : vmmMapPage m page m.endMappedKmemory 0x3 false = .ok (r, m₁) := by
        simp only [vmmMapPage, vmmMapPageF, hpde, hentry]
      -- what the end of the loop says about the rest of it
      have hrest : r ≠ -1 → m₁.endMappedKmemory + 0x1000 < heapLimit →
          pmmAvailable m₁ = pmmAvailable m ∧ ∀ k, HeapTables m (k + 1) →
            HeapTables { m₁ with endMappedKmemory := m₁.endMappedKmemory + 0x1000 } k := by
        intro hr hend
        rcases mapEntry_false hentry with ⟨-, hr', -⟩ | ⟨hnone, -, rfl⟩
        · exact absurd hr' hr
        · refine ⟨rfl, fun k hk => hk.next rfl rfl hend fun i hi => ?_⟩
          have hkept := setEntry_keeps (i := ptindex m.endMappedKmemory)
            (e := some (mkPte page (0x3 % 0x1000 ||| 1))) hnone hi
          exact fun hc => hi (hkept.symm.trans hc)
      unfold vmmMapPagesKLoop
      rw [hmap, ok_bind]
      simp only
      split_ifs with hr hend
      · refine ⟨.ok _, fun mapped m' hloop => ?_⟩
        obtain ⟨-, rfl⟩ := Prod.mk.inj (Except.ok.inj hloop)
        rcases mapEntry_false hentry with ⟨-, -, rfl⟩ | ⟨-, rfl, -⟩
        · exact ⟨rfl, fun k hk => hk.mono (Nat.le_add_left k _)⟩
        · exact absurd hr (by decide)
      · exact ⟨.error exhausted_virtual, fun mapped m' hloop => (by cases hloop)⟩
      · obtain ⟨hfrees, hheap⟩ := hrest hr (Nat.lt_of_not_le hend)
        obtain ⟨havoid, hloop⟩ := ih (hheap _ h)
        refine ⟨havoid, fun mapped m' hm' => ?_⟩
        obtain ⟨hav, htab⟩ := hloop mapped m' hm'
        refine ⟨hav.trans hfrees, fun k hk => htab k (hheap _ ?_)⟩
        rw [List.length_cons] at hk
        exact hk.mono (by omega)

/-- `liballoc_alloc` of at most 1024 pages takes as many frames. -/
theorem liballocAllocSmall_demand (hn : n ≤ pmmAvailable m) (h : HeapTables m n) :
    Avoids Exhausted (liballocAllocSmall m n) ∧
    ∀ addr m', liballocAllocSmall m n = .ok (addr, m') → pmmAvailable m = pmmAvailable m' + n ∧
      ∀ k, HeapTables m (n + k) → HeapTables m' k := by
  unfold liballocAllocSmall
  split_ifs with h0
  · refine ⟨.ok _, fun addr m' halloc => ?_⟩
    obtain ⟨-, rfl⟩ := Prod.mk.inj (Except.ok.inj halloc)
    exact ⟨by omega, fun k hk => hk.mono (Nat.le_add_left k n)⟩
  have hafter : ∀ pages m₁, pmmAllocPages m n = .ok (pages, m₁) →
      pages.length = n ∧ pmmAvailable m = pmmAvailable m₁ + n ∧
        ∀ k, HeapTables m k → HeapTables m₁ k := by
    intro pages m₁ hpop
    obtain ⟨hstack, hm₁, hlen⟩ := pmmAllocPages_eq hpop
    refine ⟨hlen, ?_, fun k hk => by rw [hm₁]; exact hk⟩
    unfold pmmAvailable
    rw [hstack, List.length_append, hlen, Nat.add_comm]
  constructor
  · refine .bind (pmmAllocPages_avoids hn) ?_
    rintro ⟨pages, m₁⟩ hpop
    obtain ⟨hlen, -, hheap⟩ := hafter pages m₁ hpop
    refine .bind (vmmMapPagesKLoop_demand (hlen ▸ hheap n h)).1 ?_
    rintro ⟨mapped, m₂⟩ -
    exact .ok _
  · intro addr m' halloc
    simp only [vmmMapPagesK, bind_ok, Prod.exists, Except.ok.injEq, Prod.mk.injEq] at halloc
    obtain ⟨pages, m₁, hpop, mapped, m₂, hloop, -, rfl⟩ := halloc
    obtain ⟨hlen, hav, hheap⟩ := hafter pages m₁ hpop
    obtain ⟨hav', htab⟩ := (vmmMapPagesKLoop_demand (hlen ▸ hheap n h)).2 mapped m₂ hloop
    exact ⟨by omega, fun k hk => htab k (hlen ▸ hheap _ hk)⟩

theorem liballocAllocMore_demand (hn : 1024 * n ≤ pmmAvailable m) (h : HeapTables m (1024 * n)) :
    Avoids Exhausted (liballocAllocMore m n) ∧
    ∀ m', liballocAllocMore m n = .ok m' → pmmAvailable m = pmmAvailable m' + 1024 * n ∧
      ∀ k, HeapTables m (1024 * n + k) → HeapTables m' k := by
  induction n generalizing m with
  | zero =>
      refine ⟨.ok _, fun m' hmore => ?_⟩
      obtain rfl := Except.ok.inj hmore
      exact ⟨rfl, fun k hk => hk.mono (Nat.le_add_left k _)⟩
  | succ n ih =>
      obtain ⟨hsmall, hrest⟩ := liballocAllocSmall_demand (n := 1024) (by omega) (h.mono (by omega))
      constructor
      · rw [liballocAllocMore]
        refine .bind hsmall ?_
        rintro ⟨addr, m₁⟩ hone
        obtain ⟨hav, hheap⟩ := hrest addr m₁ hone
        exact (ih (by omega) (hheap _ (h.mono (by omega)))).1
      · intro m' hmore
        simp only [liballocAllocMore, bind_ok, Prod.exists] at hmore
        obtain ⟨addr, m₁, hone, hmore⟩ := hmore
        obtain ⟨hav, hheap⟩ := hrest addr m₁ hone
        obtain ⟨hav', htab⟩ := (ih (by omega) (hheap _ (h.mono (by omega)))).2 m' hmore
        refine ⟨?_, fun k hk => htab k (hheap _ (hk.mono (by omega)))⟩
        rw [hav, hav', Nat.mul_succ, Nat.add_assoc]

/-- A page that has been allocated at the end of the kernel heap. -/
structure PageTaken (d addr g : ℕ) (m m' : Mem) : Prop where
  takes : Takes d 1 m m'
  stack : m.pmemStack = g :: m'.pmemStack
  start : addr = m.endMappedKmemory
  page : ∃ fl, pageEntry m' d addr = some ⟨g / 0x1000 * 0x1000, fl⟩
  others : ∀ R i, m.tables R i ≠ none → m'.tables R i = m.tables R i

theorem liballocAlloc_one (m : Mem) : liballocAlloc m 1 = (do
    let (page, m₁) ← pmmAllocPage m
    vmmMapPagesK m₁ [page]) := by
  unfold liballocAlloc liballocAllocSmall
  rw [if_neg (by decide), if_neg (by decide)]
  cases hpop : pmmAllocPage m with
  | error e => simp only [pmmAllocPages, hpop, error_bind]
  | ok x => simp only [pmmAllocPages, hpop, ok_bind]

/-- `liballoc_alloc(1)` maps the first free frame at the end of the kernel heap. -/
theorem Intact.allocPage_eq {addr : ℕ} (h : Intact m m.cr3)
    (halloc : liballocAlloc m 1 = .ok (addr, m')) (haddr : addr ≠ 0) :
    ∃ g rest pde, m.pmemStack = g :: rest ∧ addr = m.endMappedKmemory ∧
      m.endMappedKmemory + 0x1000 < 0xFFC00000 ∧
      m.tables m.cr3 (pdindex m.endMappedKmemory) = some pde ∧
      m.tables pde.frame (ptindex m.endMappedKmemory) = none ∧
      m' = { Mem.setEntry { m with pmemStack := rest } pde.frame (ptindex m.endMappedKmemory)
        (some (mkPte g (0x3 % 0x1000 ||| 1))) with endMappedKmemory := m.endMappedKmemory + 0x1000 } := by
  have hrange := h.heap.pdindex
  obtain ⟨pde, hkernel⟩ := Option.ne_none_iff_exists'.mp (h.kernel _ hrange.2 hrange.1)
  rw [liballocAlloc_one] at halloc
  simp only [vmmMapPagesK, bind_ok, Prod.exists, Except.ok.injEq, Prod.mk.injEq] at halloc
  obtain ⟨g, m₁, hpop, mapped, m₂, hloop, rfl, rfl⟩ := halloc
  obtain ⟨hstack, hm₁⟩ := pmmAllocPage_ok hpop
  generalize hrest : m₁.pmemStack = rest at hstack hm₁
  subst hm₁
  have hmapped : mapped = true := by
    cases mapped with
    | true => rfl
    | false => exact absurd rfl haddr
  subst hmapped
  simp only [vmmMapPagesKLoop, vmmMapPage, vmmMapPageF, hkernel, bind_ok, Prod.exists,
    Except.ok.injEq] at hloop
  obtain ⟨r, m₃, hentry, hloop⟩ := hloop
  split_ifs at hloop with hr hend
  · cases (Prod.mk.inj (Except.ok.inj hloop)).1
  obtain ⟨-, rfl⟩ := Prod.mk.inj (Except.ok.inj hloop)
  rcases mapEntry_false hentry with ⟨-, hr', -⟩ | ⟨hnone, -, rfl⟩
  · exact absurd hr' hr
  · exact ⟨g, rest, pde, hstack, rfl, Nat.lt_of_not_le hend, hkernel, hnone, rfl⟩

/-- `liballoc_alloc(1)` in a directory that is intact. -/
theorem Intact.allocPage {addr : ℕ} (h : Intact m d) (hcr3 : m.cr3 = d)
    (halloc : liballocAlloc m 1 = .ok (addr, m')) (haddr : addr ≠ 0) :
    ∃ g, PageTaken d addr g m m' := by
  subst hcr3
  obtain ⟨g, rest, pde, hstack, rfl, hend, hkernel, hnone, rfl⟩ := h.allocPage_eq halloc haddr
  have hKd := (h.tables _ h.heap.pdindex.2 pde hkernel).1
  have hpops : Takes m.cr3 1 m { m with pmemStack := rest } := h.pops [g] hstack rfl
  have hset := hpops.intact.setEntry (e := mkPte g (0x3 % 0x1000 ||| 1)) hKd hnone
  have hrow := setEntry_row hKd.symm { m with pmemStack := rest } (ptindex m.endMappedKmemory)
    (some (mkPte g (0x3 % 0x1000 ||| 1)))
  refine ⟨g, ⟨?_, hstack, rfl, ⟨g % 0x1000 ||| (0x3 % 0x1000 ||| 1), ?_⟩,
    fun R i hi => setEntry_keeps hnone hi⟩⟩
  · have htakes := hpops.trans hset
    have hheap := htakes.intact.heap
    refine ⟨htakes.cr3, htakes.stack, htakes.row, htakes.pages, ⟨?_, hend, ?_⟩,
      htakes.intact.kernel, htakes.intact.self, htakes.intact.tables, htakes.intact.dir,
      htakes.intact.nodup⟩
    · exact Nat.le_trans hheap.1 (Nat.le_add_right _ _)
    · have halign := h.heap.2.2
      show (m.endMappedKmemory + 0x1000) % 0x1000 = 0
      omega
  · unfold pageEntry
    show ((Mem.setEntry _ _ _ _).tables m.cr3 (pdindex m.endMappedKmemory)).bind _ = _
    rw [hrow, hkernel]
    exact setEntry_self ..

/-- What is stored in the page that has been taken is no page table of the directory. -/
theorem PageTaken.setRow {addr g : ℕ} (h : Intact m d) (ht : PageTaken d addr g m m')
    (row : ℕ → Option Pte) : Takes d 1 m (m'.setRow (g / 0x1000 * 0x1000) row) := by
  have hg : g ∈ m.pmemStack := ht.stack ▸ List.mem_cons_self
  have hrow : (m'.setRow (g / 0x1000 * 0x1000) row).tables d = m'.tables d :=
    Function.update_of_ne (h.dir g hg).symm _ _
  have hin := ht.takes.intact
  refine ⟨ht.takes.cr3, ht.takes.stack, fun i hi => ?_, fun b hlt hb => ?_,
    hin.heap, hrow ▸ hin.kernel, hrow ▸ hin.self, hrow ▸ hin.tables, hin.dir, hin.nodup⟩
  · rw [hrow]
    exact ht.takes.row i hi
  · obtain ⟨pde, hpde, hpte⟩ := pageEntry_ne_none.mp hb
    refine pageEntry_ne_none.mpr ⟨pde, ?_, ?_⟩
    · rw [hrow, ht.takes.row _ (by rw [hpde]; simp), hpde]
    · have hne := h.table_ne hlt hpde hg
      show Function.update m'.tables _ row pde.frame (ptindex b) ≠ none
      rw [Function.update_of_ne hne, ht.others _ _ hpte]
      exact hpte

theorem PageTaken.physaddr {addr g : ℕ} (h : Intact m d) (hcr3 : m.cr3 = d)
    (ht : PageTaken d addr g m m') : vmmGetPhysaddr m' addr = g / 0x1000 * 0x1000 := by
  obtain ⟨fl, hpage⟩ := ht.page
  obtain ⟨pde, hpde, hpte⟩ := pageEntry_some hpage
  have halign : addr % 0x1000 = 0 := ht.start ▸ h.heap.2.2
  unfold vmmGetPhysaddr
  rw [ht.takes.cr3, hcr3, hpde]
  simp only [hpte, halign, Nat.add_zero]

/-- The table of a new stack is empty. -/
theorem vmmMapStack_taken {stackpt : ℕ} (h : Intact m d) (hcr3 : m.cr3 = d)
    (hmap : vmmMapStack m = .ok (stackpt, m')) :
    ∃ g m₁, PageTaken d stackpt g m m₁ ∧ m' = m₁.clearTable (g / 0x1000 * 0x1000) := by
  simp only [vmmMapStack, bind_ok, Prod.exists] at hmap
  obtain ⟨addr, m₁, halloc, hmap⟩ := hmap
  split_ifs at hmap with h0
  obtain ⟨rfl, rfl⟩ := Prod.mk.inj (Except.ok.inj hmap)
  obtain ⟨g, htaken⟩ := h.allocPage hcr3 halloc h0
  exact ⟨g, m₁, htaken, by rw [htaken.physaddr h hcr3]⟩

end GalaxyOS
