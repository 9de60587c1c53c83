import GalaxyOS.Sched.Demand

/-! # Page tables as a partial map

`translation m` is the map from pages to frames that the loaded directory stands for, below the window at
`PAGE_TABLE_ADDR`.  As long as the directory refers to each page table once, mapping and unmapping a page
change this map in one place.  A page table that is missing is made in a page of the kernel heap, which is
mapped then as well.

`vmmMapPage_partialMap` says the same in terms of `vmm_get_physaddr`.

`pageTables_partialMap` collects what the three functions do to the map: `vmmGetPhysaddr_eq`,
`vmmMapPage_translation` and `TablesApart.vmmUnmapPage`. -/

namespace GalaxyOS

open Transition

variable {m m' : Mem} {lo a f p flags : ℕ}

/-! ### The directory at the start -/

/-- `vmm_init`: the page tables of the kernel half, the first three of which the boot code enters. -/
def vmmInit (m : Mem) (pagetable : ℕ) : Mem :=
  (List.range' 3 252).foldl
    (fun m i => m.setEntry m.cr3 (i + 768) (some (mkPte (pagetable + 0x1000 * i + 0x3) 0))) m

/-- The page tables of the kernel half are entered in the directory. -/
def KernelTables (m : Mem) : Prop := ∀ i, 771 ≤ i → i < 1023 → m.tables m.cr3 i ≠ none

theorem vmmInit_loop (m : Mem) (pagetable : ℕ) (n k : ℕ) :
    let m' := (List.range' k n).foldl
      (fun m i => m.setEntry m.cr3 (i + 768) (some (mkPte (pagetable + 0x1000 * i + 0x3) 0))) m
    m'.cr3 = m.cr3 ∧ (∀ d ≠ m.cr3, m'.tables d = m.tables d) ∧ ∀ i, m'.tables m.cr3 i =
      if k + 768 ≤ i ∧ i < k + n + 768 then some (mkPte (pagetable + 0x1000 * (i - 768) + 0x3) 0)
      else m.tables m.cr3 i := by
  induction n generalizing m k with
  | zero =>
      refine ⟨rfl, fun _ _ => rfl, fun i => ?_⟩
      rw [if_neg (by omega)]
      rfl
  | succ n ih =>
      rw [List.range'_succ]
      simp only [List.foldl_cons]
      obtain ⟨hcr3, hothers, hrow⟩ :=
        ih (m.setEntry m.cr3 (k + 768) (some (mkPte (pagetable + 0x1000 * k + 0x3) 0))) (k + 1)
      refine ⟨hcr3, fun d hd => (hothers d hd).trans (setEntry_row hd _ _ _), fun i => ?_⟩
      refine (hrow i).trans ?_
      by_cases hi : i = k + 768
      · subst hi
        rw [if_neg (by omega), if_pos (by omega), Nat.add_sub_cancel]
        exact setEntry_self ..
      · have hsame := setEntry_of_ne (T := m.cr3) (.inr hi : m.cr3 ≠ m.cr3 ∨ i ≠ k + 768) m
          (some (mkPte (pagetable + 0x1000 * k + 0x3) 0))
        by_cases hrange : k + 1 + 768 ≤ i ∧ i < k + 1 + n + 768
        · rw [if_pos hrange, if_pos (by omega)]
        · rw [if_neg hrange, if_neg (by omega)]
          exact hsame

theorem vmmInit_tables (m : Mem) (pagetable : ℕ) :
    (vmmInit m pagetable).cr3 = m.cr3 ∧ (∀ d ≠ m.cr3, (vmmInit m pagetable).tables d = m.tables d) ∧
      ∀ i, (vmmInit m pagetable).tables m.cr3 i =
        if 771 ≤ i ∧ i < 1023 then some (mkPte (pagetable + 0x1000 * (i - 768) + 0x3) 0)
        else m.tables m.cr3 i :=
  vmmInit_loop m pagetable 252 3

theorem vmmInit_kernelTables (m : Mem) (pagetable : ℕ) : KernelTables (vmmInit m pagetable) := by
  obtain ⟨hcr3, -, hrow⟩ := vmmInit_tables m pagetable
  intro i hlo hhi
  rw [hcr3, hrow, if_pos ⟨hlo, hhi⟩]
  exact Option.some_ne_none _

/-! ### The map -/

/-- The frame behind a page. -/
def translation (m : Mem) (page : ℕ) : Option ℕ :=
  if page < 0xFFC00 then (pageEntry m m.cr3 (page * 0x1000)).map Pte.frame else none

theorem pageEntry_pageStart (m : Mem) (d b : ℕ) : pageEntry m d (b / 0x1000 * 0x1000) = pageEntry m d b := by
  have hpd : pdindex (b / 0x1000 * 0x1000) = pdindex b := by
    unfold pdindex
    omega
  have hpt : ptindex (b / 0x1000 * 0x1000) = ptindex b := by
    unfold ptindex
    omega
  unfold pageEntry
  rw [hpd, hpt]

theorem translation_page {b : ℕ} (hb : b < heapLimit) :
    translation m (b / 0x1000) = (pageEntry m m.cr3 b).map Pte.frame := by
  unfold translation
  unfold heapLimit at hb
  rw [if_pos (by omega), pageEntry_pageStart]

/-- `vmm_get_physaddr` looks the page up in the map. -/
theorem vmmGetPhysaddr_eq {b : ℕ} (hb : b < heapLimit) :
    vmmGetPhysaddr m b = (translation m (b / 0x1000)).elim 0 (· + b % 0x1000) := by
  rw [translation_page hb]
  unfold vmmGetPhysaddr pageEntry
  cases m.tables m.cr3 (pdindex b) with
  | none => rfl
  | some pde =>
      show _ = ((m.tables pde.frame (ptindex b)).map Pte.frame).elim 0 _
      simp only
      cases m.tables pde.frame (ptindex b) with
      | none => rfl
      | some pte => rfl

theorem pdindex_lt_window (ha : a < heapLimit) : pdindex a < 1023 := by
  unfold heapLimit at ha
  unfold pdindex
  omega

/-- The directory refers to the page tables from the entry `lo` on once each, and is none of them. -/
def TablesApart (m : Mem) (lo : ℕ) : Prop :=
  ∀ i, lo ≤ i → i < 1023 → ∀ pde, m.tables m.cr3 i = some pde → pde.frame ≠ m.cr3 ∧
    ∀ j < 1023, ∀ pde', m.tables m.cr3 j = some pde' → pde'.frame = pde.frame → j = i

theorem TablesApart.of_row (h : TablesApart m lo) (hcr3 : m'.cr3 = m.cr3)
    (hrow : m'.tables m.cr3 = m.tables m.cr3) : TablesApart m' lo := by
  unfold TablesApart
  rw [hcr3, hrow]
  exact h

theorem translation_of_tables (hcr3 : m'.cr3 = m.cr3) (htables : m'.tables = m.tables) :
    translation m' = translation m := by
  funext page
  unfold translation pageEntry
  rw [hcr3, htables]

/-- Setting an entry of a page table changes the map for one page. -/
theorem TablesApart.translation_set (h : TablesApart m lo) (hlo : lo ≤ pdindex a) (ha : a < heapLimit)
    {pde : Pte} (hpde : m.tables m.cr3 (pdindex a) = some pde) (x : Option Pte) :
    translation (m.setEntry pde.frame (ptindex a) x) =
      Function.update (translation m) (a / 0x1000) (x.map Pte.frame) := by
  obtain ⟨hself, hinj⟩ := h _ hlo (pdindex_lt_window ha) pde hpde
  have hrow : (m.setEntry pde.frame (ptindex a) x).tables m.cr3 = m.tables m.cr3 :=
    setEntry_row hself.symm m _ x
  funext page
  by_cases hpage : page = a / 0x1000
  · subst hpage
    rw [translation_page ha, Function.update_self]
    unfold pageEntry
    show (((m.setEntry pde.frame (ptindex a) x).tables m.cr3 (pdindex a)).bind _).map _ = _
    rw [hrow, hpde]
    exact congrArg (Option.map Pte.frame) (setEntry_self m pde.frame (ptindex a) x)
  · rw [Function.update_of_ne hpage]
    unfold translation
    split_ifs with hlt
    · unfold pageEntry
      show (((m.setEntry pde.frame (ptindex a) x).tables m.cr3 _).bind _).map _ = _
      rw [hrow]
      cases hpde' : m.tables m.cr3 (pdindex (page * 0x1000)) with
      | none => rfl
      | some pde' =>
          refine congrArg (Option.map Pte.frame) (setEntry_of_ne ?_ m x)
          by_cases hframe : pde'.frame = pde.frame
          · -- the same table, so another entry of it
            refine .inr fun hindex => hpage ?_
            have hdir := hinj _ (by unfold pdindex; omega) pde' hpde' hframe
            unfold pdindex at hdir
            unfold ptindex at hindex
            omega
          · exact .inl hframe
    · rfl

theorem TablesApart.set (h : TablesApart m lo) (hlo : lo ≤ pdindex a) (ha : a < heapLimit) {pde : Pte}
    (hpde : m.tables m.cr3 (pdindex a) = some pde) (i : ℕ) (x : Option Pte) :
    TablesApart (m.setEntry pde.frame i x) lo :=
  h.of_row rfl (setEntry_row (h _ hlo (pdindex_lt_window ha) pde hpde).1.symm m i x)

/-! ### Mapping where the page table is there -/

/-- `vmm_map_page` refuses a page that is mapped, and maps another one. -/
theorem vmmMapPage_entry {pde : Pte} (flags : ℕ) (ha : a < heapLimit)
    (hpde : m.tables m.cr3 (pdindex a) = some pde) :
    (translation m (a / 0x1000) ≠ none ∧ vmmMapPage m p a flags false = .ok (-1, m)) ∨
    (translation m (a / 0x1000) = none ∧ vmmMapPage m p a flags false =
      .ok (0, m.setEntry pde.frame (ptindex a) (some (mkPte p (flags % 0x1000 ||| 1))))) := by
  have hentry : translation m (a / 0x1000) = (m.tables pde.frame (ptindex a)).map Pte.frame := by
    rw [translation_page ha]
    unfold pageEntry
    rw [hpde]
    rfl
  unfold vmmMapPage vmmMapPageF
  rw [hpde, hentry]
  simp only
  rcases hmap : mapEntry m pde.frame p a flags false with ⟨r, m'⟩
  rcases mapEntry_false hmap with ⟨hpte, rfl, rfl⟩ | ⟨hpte, rfl, rfl⟩
  · refine .inl ⟨fun hnone => hpte (Option.map_eq_none_iff.mp hnone), rfl⟩
  · exact .inr ⟨Option.map_eq_none_iff.mpr hpte, rfl⟩

/-- `vmm_unmap_page` takes a page out of the map. -/
theorem TablesApart.vmmUnmapPage (h : TablesApart m lo) (hlo : lo ≤ pdindex a) (ha : a < heapLimit) :
    ((vmmUnmapPage m a).1 = true ↔ translation m (a / 0x1000) ≠ none) ∧
      translation (vmmUnmapPage m a).2 = Function.update (translation m) (a / 0x1000) none ∧
      TablesApart (vmmUnmapPage m a).2 lo := by
  have hpage := translation_page (m := m) ha
  unfold pageEntry at hpage
  unfold GalaxyOS.vmmUnmapPage
  cases hpde : m.tables m.cr3 (pdindex a) with
  | none =>
      rw [hpde] at hpage
      have hnone : translation m (a / 0x1000) = none := hpage
      refine ⟨iff_of_false Bool.false_ne_true fun hne => hne hnone, ?_, h⟩
      rw [← hnone, Function.update_eq_self]
  | some pde =>
      rw [hpde] at hpage
      simp only
      cases hpte : m.tables pde.frame (ptindex a) with
      | none =>
          rw [Option.bind_some, hpte] at hpage
          have hnone : translation m (a / 0x1000) = none := hpage
          refine ⟨iff_of_false Bool.false_ne_true fun hne => hne hnone, ?_, h⟩
          rw [← hnone, Function.update_eq_self]
      | some pte =>
          rw [Option.bind_some, hpte] at hpage
          refine ⟨iff_of_true rfl ?_, h.translation_set hlo ha hpde none, h.set hlo ha hpde _ none⟩
          rw [hpage]
          exact Option.some_ne_none _

/-! ### Mapping where the page table is missing -/

/-- The frame is aligned, and neither the loaded directory nor a page table of it. -/
structure FreeFrame (m : Mem) (f : ℕ) : Prop where
  aligned : f % 0x1000 = 0
  notDirectory : f ≠ m.cr3
  notTable : ∀ i < 1023, ∀ pde, m.tables m.cr3 i = some pde → pde.frame ≠ f

/-- There is a frame for another page table, and a page of the kernel heap to map it at. -/
structure TableRoom (m : Mem) (f : ℕ) : Prop where
  heap : HeapPage m.endMappedKmemory
  unmapped : translation m (m.endMappedKmemory / 0x1000) = none
  top : m.pmemStack.head? = some f
  frame : FreeFrame m f

theorem FreeFrame.of_row (h : FreeFrame m f) (hcr3 : m'.cr3 = m.cr3)
    (hrow : m'.tables m.cr3 = m.tables m.cr3) : FreeFrame m' f :=
  { aligned := h.aligned
    notDirectory := hcr3 ▸ h.notDirectory
    notTable := by
      rw [hcr3, hrow]
      exact h.notTable }

/-- Entering an empty page table maps nothing. -/
theorem FreeFrame.enter (h : FreeFrame m f) (hapart : TablesApart m 0) {i : ℕ} (hi : i < 1023)
    (hnone : m.tables m.cr3 i = none) (fl : ℕ) :
    translation ((m.clearTable f).setEntry m.cr3 i (some ⟨f, fl⟩)) = translation m ∧
      TablesApart ((m.clearTable f).setEntry m.cr3 i (some ⟨f, fl⟩)) 0 := by
  generalize hm' : (m.clearTable f).setEntry m.cr3 i (some ⟨f, fl⟩) = m'
  have hcr3 : m'.cr3 = m.cr3 := by rw [← hm']; rfl
  have hrow : m'.tables m.cr3 = Function.update (m.tables m.cr3) i (some ⟨f, fl⟩) := by
    rw [← hm']
    show Function.update _ m.cr3 _ m.cr3 = _
    rw [Function.update_self]
    exact congrArg (Function.update · i _) (Function.update_of_ne h.notDirectory.symm _ _)
  have hempty : m'.tables f = fun _ => none := by
    rw [← hm']
    exact (setEntry_row h.notDirectory _ _ _).trans (Function.update_self ..)
  have hothers : ∀ T, T ≠ m.cr3 → T ≠ f → m'.tables T = m.tables T := by
    intro T hT hTf
    rw [← hm']
    exact (setEntry_row hT _ _ _).trans (Function.update_of_ne hTf _ _)
  constructor
  · funext page
    unfold translation
    split_ifs with hpage
    · unfold pageEntry
      rw [hcr3, hrow]
      by_cases hdir : pdindex (page * 0x1000) = i
      · rw [hdir, Function.update_self, hnone]
        show ((m'.tables f) _).map Pte.frame = none
        rw [hempty]
        rfl
      · rw [Function.update_of_ne hdir]
        cases hpde : m.tables m.cr3 (pdindex (page * 0x1000)) with
        | none => rfl
        | some pde =>
            have hlt : pdindex (page * 0x1000) < 1023 := by
              unfold pdindex
              omega
            rw [Option.bind_some, Option.bind_some, hothers pde.frame
              (hapart _ (Nat.zero_le _) hlt pde hpde).1 (h.notTable _ hlt pde hpde)]
    · rfl
  · intro j _ hj pde hpde
    rw [hcr3, hrow] at hpde ⊢
    by_cases hji : j = i
    · subst hji
      rw [Function.update_self] at hpde
      obtain rfl := Option.some.inj hpde
      refine ⟨h.notDirectory, fun k hk pde' hpde' hframe => ?_⟩
      by_contra hkj
      rw [Function.update_of_ne hkj] at hpde'
      exact h.notTable k hk pde' hpde' hframe
    · rw [Function.update_of_ne hji] at hpde
      obtain ⟨hself, hinj⟩ := hapart j (Nat.zero_le _) hj pde hpde
      refine ⟨hself, fun k hk pde' hpde' hframe => ?_⟩
      by_cases hki : k = i
      · subst hki
        rw [Function.update_self] at hpde'
        obtain rfl := Option.some.inj hpde'
        exact absurd hframe.symm (h.notTable j hj pde hpde)
      · rw [Function.update_of_ne hki] at hpde'
        exact hinj k hk pde' hpde' hframe

/-- The memory after the frame `f` has been taken and mapped by the table `K` at the end of the kernel
heap. -/
def heapMapped (m : Mem) (K f : ℕ) : Mem :=
  { { m with pmemStack := m.pmemStack.tail }.setEntry K (ptindex m.endMappedKmemory)
      (some ⟨f, 0x3⟩) with
    endMappedKmemory := m.endMappedKmemory + 0x1000 }

/-- The memory after an empty page table in that frame has been entered for the address `a`. -/
def withTable (m : Mem) (K f a : ℕ) : Mem :=
  ((heapMapped m K f).clearTable f).setEntry m.cr3 (pdindex a) (some ⟨f, 0x7⟩)

section NewTable

variable {pde : Pte} (hroom : TableRoom m f) (hapart : TablesApart m 0)
  (hpde : m.tables m.cr3 (pdindex m.endMappedKmemory) = some pde)

include hroom hapart hpde

theorem heapMapped_translation : translation (heapMapped m pde.frame f) =
    Function.update (translation m) (m.endMappedKmemory / 0x1000) (some f) :=
  (translation_of_tables rfl rfl).trans
    (hapart.translation_set (Nat.zero_le _) hroom.heap.2.1 hpde (some ⟨f, 0x3⟩))

theorem heapMapped_physaddr :
    vmmGetPhysaddr (heapMapped m pde.frame f) m.endMappedKmemory = f := by
  rw [vmmGetPhysaddr_eq hroom.heap.2.1, heapMapped_translation hroom hapart hpde, Function.update_self,
    hroom.heap.2.2]
  rfl

/-- Where there is no page table, `vmm_map_page` makes one first. -/
theorem vmmMapPage_newTable (hnone : m.tables m.cr3 (pdindex a) = none) :
    vmmMapPage m p a flags false =
      if heapLimit ≤ m.endMappedKmemory + 0x1000 then .error (.panic "Out of virtual memory")
      else .ok (mapEntry (withTable m pde.frame f a) f p a flags false) := by
  have hset (fl : ℕ) : mkPte f fl = ⟨f, fl⟩ := mkPte_eq hroom.frame.aligned fl
  obtain ⟨stack, hstack⟩ := List.head?_eq_some_iff.mp hroom.top
  have hlength : m.pmemStack.length = m.pmemStack.tail.length + 1 := by rw [hstack]; rfl
  have hpop : pmmAllocPage m = .ok (f, { m with pmemStack := m.pmemStack.tail }) := by
    unfold pmmAllocPage
    rw [hstack]
    rfl
  -- the nested call maps the frame in the kernel heap
  have hmapped : vmmMapPageF (m.pmemStack.tail.length + 1) { m with pmemStack := m.pmemStack.tail } f
      m.endMappedKmemory 0x3 false = .ok (0, { m with pmemStack := m.pmemStack.tail }.setEntry
        pde.frame (ptindex m.endMappedKmemory) (some ⟨f, 0x3⟩)) := by
    rcases vmmMapPage_entry (m := { m with pmemStack := m.pmemStack.tail }) (p := f) 0x3
      hroom.heap.2.1 hpde with ⟨hne, -⟩ | ⟨-, hinner⟩
    · exact absurd hroom.unmapped hne
    · rw [hset] at hinner
      exact hinner
  unfold vmmMapPage
  rw [hlength]
  unfold vmmMapPageF
  rw [hnone]
  simp only
  rw [hpop, ok_bind]
  simp only
  rw [hmapped, ok_bind]
  simp only
  rw [if_neg (by decide)]
  by_cases hend : heapLimit ≤ m.endMappedKmemory + 0x1000
  · rw [if_pos hend]
    exact if_pos hend
  rw [if_neg hend]
  refine (if_neg hend).trans ?_
  show Except.ok (mapEntry
    (((heapMapped m pde.frame f).clearTable
      (vmmGetPhysaddr (heapMapped m pde.frame f) m.endMappedKmemory)).setEntry m.cr3 (pdindex a)
        (some (mkPte (vmmGetPhysaddr (heapMapped m pde.frame f) m.endMappedKmemory) 0x7)))
    (mkPte (vmmGetPhysaddr (heapMapped m pde.frame f) m.endMappedKmemory) 0x7).frame p a flags false) = _
  rw [heapMapped_physaddr hroom hapart hpde, hset]
  rfl

/-- The new table is in the map, and the directory still refers to each table once. -/
theorem withTable_translation (ha : a < heapLimit) (hnone : m.tables m.cr3 (pdindex a) = none) :
    translation (withTable m pde.frame f a) =
      Function.update (translation m) (m.endMappedKmemory / 0x1000) (some f) ∧
    TablesApart (withTable m pde.frame f a) 0 := by
  have hself := (hapart _ (Nat.zero_le _) (pdindex_lt_window hroom.heap.2.1) pde hpde).1
  have hrow : (heapMapped m pde.frame f).tables m.cr3 = m.tables m.cr3 :=
    setEntry_row hself.symm { m with pmemStack := m.pmemStack.tail } _ _
  have hfree : FreeFrame (heapMapped m pde.frame f) f := hroom.frame.of_row rfl hrow
  obtain ⟨hsame, hapart'⟩ := hfree.enter (hapart.of_row rfl hrow) (pdindex_lt_window ha)
    ((congrFun hrow _).trans hnone) 0x7
  exact ⟨hsame.trans (heapMapped_translation hroom hapart hpde), hapart'⟩

end NewTable

/-! ### Mapping and unmapping -/

/-- The map in which `vmm_map_page` enters the page: with that of a page table, if one is needed. -/
def tableMap (m : Mem) (f a : ℕ) : ℕ → Option ℕ :=
  if m.tables m.cr3 (pdindex a) = none then
    Function.update (translation m) (m.endMappedKmemory / 0x1000) (some f)
  else translation m

theorem KernelTables.heap (h : KernelTables m) (hheap : HeapPage m.endMappedKmemory) :
    ∃ pde, m.tables m.cr3 (pdindex m.endMappedKmemory) = some pde := by
  obtain ⟨hlo, hhi, -⟩ := hheap
  unfold heapBase at hlo
  refine Option.ne_none_iff_exists'.mp (h _ ?_ (pdindex_lt_window hhi))
  unfold pdindex
  omega

theorem translation_missing (ha : a < heapLimit) (hnone : m.tables m.cr3 (pdindex a) = none) :
    translation m (a / 0x1000) = none := by
  rw [translation_page ha]
  unfold pageEntry
  rw [hnone]
  rfl

/-- `vmm_map_page` either refuses a page that is mapped or enters it in the map. -/
theorem vmmMapPage_translation (hkernel : KernelTables m) (hapart : TablesApart m 0)
    (hroom : TableRoom m f) (hp : p % 0x1000 = 0) (ha : a < heapLimit) {r : Int}
    (h : vmmMapPage m p a flags false = .ok (r, m')) :
    (r = -1 ∧ translation m' = translation m) ∨
    (r = 0 ∧ translation m (a / 0x1000) = none ∧ TablesApart m' 0 ∧
      translation m' = Function.update (tableMap m f a) (a / 0x1000) (some p)) := by
  have hframe : (some (mkPte p (flags % 0x1000 ||| 1))).map Pte.frame = some p := by
    rw [mkPte_eq hp]
    rfl
  unfold tableMap
  by_cases hnone : m.tables m.cr3 (pdindex a) = none
  · obtain ⟨kernel, hkpde⟩ := hkernel.heap hroom.heap
    rw [vmmMapPage_newTable hroom hapart hkpde hnone] at h
    split_ifs at h
    obtain ⟨hmap, hapart'⟩ := withTable_translation hroom hapart hkpde ha hnone
    have hpde : (withTable m kernel.frame f a).tables (withTable m kernel.frame f a).cr3 (pdindex a) =
        some ⟨f, 0x7⟩ := setEntry_self ..
    have hother : a / 0x1000 ≠ m.endMappedKmemory / 0x1000 := by
      intro hpage
      have hdir : pdindex a = pdindex m.endMappedKmemory := by
        unfold pdindex
        omega
      rw [hdir, hkpde] at hnone
      cases hnone
    have hfresh : translation (withTable m kernel.frame f a) (a / 0x1000) = none := by
      rw [hmap, Function.update_of_ne hother]
      exact translation_missing ha hnone
    have hentry : vmmMapPage (withTable m kernel.frame f a) p a flags false = .ok (r, m') := by
      rw [← h]
      unfold vmmMapPage vmmMapPageF
      rw [hpde]
    rcases vmmMapPage_entry flags ha hpde with ⟨hne, -⟩ | ⟨-, hset⟩
    · exact absurd hfresh hne
    obtain ⟨rfl, rfl⟩ := Prod.mk.inj (Except.ok.inj (hentry.symm.trans hset))
    refine .inr ⟨rfl, translation_missing ha hnone, hapart'.set (Nat.zero_le _) ha hpde _ _, ?_⟩
    refine (hapart'.translation_set (Nat.zero_le _) ha hpde _).trans ?_
    rw [hframe, hmap, if_pos hnone]
  · obtain ⟨pde, hpde⟩ := Option.ne_none_iff_exists'.mp hnone
    rcases vmmMapPage_entry flags ha hpde with ⟨-, hset⟩ | ⟨hfresh, hset⟩
    · obtain ⟨rfl, rfl⟩ := Prod.mk.inj (Except.ok.inj (h.symm.trans hset))
      exact .inl ⟨rfl, rfl⟩
    · obtain ⟨rfl, rfl⟩ := Prod.mk.inj (Except.ok.inj (h.symm.trans hset))
      refine .inr ⟨rfl, hfresh, hapart.set (Nat.zero_le _) ha hpde _ _, ?_⟩
      rw [hapart.translation_set (Nat.zero_le _) ha hpde, hframe, if_neg hnone]

/-- It returns unless the address space of the kernel ends behind the page for a table. -/
theorem vmmMapPage_returns (hkernel : KernelTables m) (hapart : TablesApart m 0) (hroom : TableRoom m f)
    (ha : a < heapLimit) (hend : m.endMappedKmemory + 0x1000 < heapLimit) :
    ∃ x, vmmMapPage m p a flags false = .ok x := by
  cases hpde : m.tables m.cr3 (pdindex a) with
  | none =>
      obtain ⟨kernel, hkpde⟩ := hkernel.heap hroom.heap
      rw [vmmMapPage_newTable hroom hapart hkpde hpde, if_neg (Nat.not_le.mpr hend)]
      exact ⟨_, rfl⟩
  | some pde =>
      cases vmmMapPage_entry flags ha hpde with
      | inl h => exact ⟨_, h.2⟩
      | inr h => exact ⟨_, h.2⟩

/-- The page at `b` is the one that has been mapped for a new page table. -/
def TablePage (m : Mem) (a b : ℕ) : Prop :=
  m.tables m.cr3 (pdindex a) = none ∧ b / 0x1000 = m.endMappedKmemory / 0x1000

instance TablePage.decidable (m : Mem) (a b : ℕ) : Decidable (TablePage m a b) :=
  inferInstanceAs (Decidable (_ ∧ _))

/-- The page that is mapped itself is not that of its page table. -/
theorem not_tablePage (hkernel : KernelTables m) (hheap : HeapPage m.endMappedKmemory) {b : ℕ}
    (hb : b / 0x1000 = a / 0x1000) : ¬TablePage m a b := by
  rintro ⟨hnone, hpage⟩
  obtain ⟨kernel, hkpde⟩ := hkernel.heap hheap
  have hdir : pdindex a = pdindex m.endMappedKmemory := by
    unfold pdindex
    omega
  rw [hdir, hkpde] at hnone
  cases hnone

theorem tableMap_apply (f a b : ℕ) : tableMap m f a (b / 0x1000) =
    if TablePage m a b then some f else translation m (b / 0x1000) := by
  unfold tableMap
  by_cases hnone : m.tables m.cr3 (pdindex a) = none
  · rw [if_pos hnone]
    by_cases hpage : b / 0x1000 = m.endMappedKmemory / 0x1000
    · rw [if_pos (show TablePage m a b from ⟨hnone, hpage⟩), hpage, Function.update_self]
    · rw [if_neg fun h : TablePage m a b => hpage h.2, Function.update_of_ne hpage]
  · rw [if_neg hnone, if_neg fun h : TablePage m a b => hnone h.1]

/-- The page tables are a partial map for `vmm_get_physaddr`, `vmm_map_page` and `vmm_unmap_page`: a page
is mapped, refused or unmapped, and no other page but that of a new page table changes. -/
theorem pageTables_partialMap (hkernel : KernelTables m) (hapart : TablesApart m 0)
    (hroom : TableRoom m f) (hp : p % 0x1000 = 0) (ha : a < heapLimit) :
    (m.endMappedKmemory + 0x1000 < heapLimit → ∃ x, vmmMapPage m p a flags false = .ok x) ∧
    (∀ m', vmmMapPage m p a flags false = .ok (0, m') → ∀ b < heapLimit,
      (vmmGetPhysaddr m' b = if b / 0x1000 = a / 0x1000 then p + b % 0x1000
        else if TablePage m a b then f + b % 0x1000 else vmmGetPhysaddr m b) ∧
      vmmGetPhysaddr (vmmUnmapPage m' a).2 b =
        if TablePage m a b then f + b % 0x1000 else vmmGetPhysaddr m b) ∧
    (∀ r m', vmmMapPage m p a flags false = .ok (r, m') → r = 0 ∨
      r = -1 ∧ ∀ b < heapLimit, vmmGetPhysaddr m' b = vmmGetPhysaddr m b) ∧
    ∀ b < heapLimit, vmmGetPhysaddr (vmmUnmapPage m a).2 b =
      if b / 0x1000 = a / 0x1000 then 0 else vmmGetPhysaddr m b := by
  have hlookup (b : ℕ) : (tableMap m f a (b / 0x1000)).elim 0 (· + b % 0x1000) =
      if TablePage m a b then f + b % 0x1000
      else (translation m (b / 0x1000)).elim 0 (· + b % 0x1000) := by
    rw [tableMap_apply]
    split_ifs <;> rfl
  refine ⟨vmmMapPage_returns hkernel hapart hroom ha, fun m' h b hb => ?_, fun r m' h => ?_,
    fun b hb => ?_⟩
  · rcases vmmMapPage_translation hkernel hapart hroom hp ha h with ⟨hr, -⟩ | ⟨-, hfresh, hapart', hmap⟩
    · exact absurd hr (by decide)
    have hunmap := (hapart'.vmmUnmapPage (Nat.zero_le _) ha).2.1
    simp only [vmmGetPhysaddr_eq hb, hunmap, hmap, Function.update_idem]
    by_cases hpage : b / 0x1000 = a / 0x1000
    · rw [if_pos hpage, if_neg (not_tablePage hkernel hroom.heap hpage), hpage, Function.update_self,
        Function.update_self, hfresh]
      exact ⟨rfl, rfl⟩
    · rw [if_neg hpage, Function.update_of_ne hpage, Function.update_of_ne hpage, hlookup]
      exact ⟨rfl, rfl⟩
  · rcases vmmMapPage_translation hkernel hapart hroom hp ha h with ⟨hr, hmap⟩ | ⟨hr, -⟩
    · refine .inr ⟨hr, fun b hb => ?_⟩
      rw [vmmGetPhysaddr_eq hb, vmmGetPhysaddr_eq hb, hmap]
    · exact .inl hr
  · rw [vmmGetPhysaddr_eq hb, vmmGetPhysaddr_eq hb, (hapart.vmmUnmapPage (Nat.zero_le _) ha).2.1]
    by_cases hpage : b / 0x1000 = a / 0x1000
    · rw [if_pos hpage, hpage, Function.update_self]
      rfl
    · rw [if_neg hpage, Function.update_of_ne hpage]

/-- A directory without user pages, and one free frame. -/
def emptyMem : Mem :=
  { pmemStack := [0x5000]
    tables := fun _ _ => none
    data := fun _ => 0
    cr3 := 0x1000
    endMappedKmemory := heapBase
    stackRoom := 0x1000 }

theorem emptyMem_entry {i : ℕ} {pde : Pte}
    (h : (vmmInit emptyMem 0x100000).tables 0x1000 i = some pde) :
    (771 ≤ i ∧ i < 1023) ∧ pde.frame = 0x100000 + 0x1000 * (i - 768) := by
  obtain ⟨-, -, hrow⟩ := vmmInit_tables emptyMem 0x100000
  have hi := (hrow i).symm.trans h
  split_ifs at hi with hrange
  · refine ⟨hrange, ?_⟩
    obtain rfl := Option.some.inj hi
    unfold mkPte
    simp only
    omega
  · cases hi

theorem emptyMem_apart : TablesApart (vmmInit emptyMem 0x100000) 0 := by
  intro i _ _ pde hpde
  rw [(vmmInit_tables emptyMem 0x100000).1] at hpde ⊢
  obtain ⟨hi, hframe⟩ := emptyMem_entry hpde
  refine ⟨?_, fun j _ pde' hpde' hsame => ?_⟩
  · show pde.frame ≠ 0x1000
    omega
  · obtain ⟨hj, hframe'⟩ := emptyMem_entry hpde'
    omega

theorem vmmInit_stack (m : Mem) (pagetable : ℕ) :
    (vmmInit m pagetable).pmemStack = m.pmemStack ∧
      (vmmInit m pagetable).endMappedKmemory = m.endMappedKmemory := by
  unfold vmmInit
  generalize List.range' 3 252 = is
  induction is generalizing m with
  | nil => exact ⟨rfl, rfl⟩
  | cons i is ih => exact ih _

theorem emptyMem_room : TableRoom (vmmInit emptyMem 0x100000) 0x5000 := by
  obtain ⟨hstack, hend⟩ := vmmInit_stack emptyMem 0x100000
  obtain ⟨hcr3, hothers, -⟩ := vmmInit_tables emptyMem 0x100000
  have hentries (i : ℕ) (pde : Pte) := @emptyMem_entry i pde
  generalize vmmInit emptyMem 0x100000 = m at hstack hend hcr3 hothers hentries ⊢
  have hheap : HeapPage emptyMem.endMappedKmemory := ⟨Nat.le_refl _, by decide, by decide⟩
  refine ⟨hend ▸ hheap, ?_, by rw [hstack]; rfl, by decide, by rw [hcr3]; decide, fun i _ pde hpde => ?_⟩
  · rw [hend, translation_page hheap.2.1, hcr3]
    by_cases hentry : pageEntry m emptyMem.cr3 emptyMem.endMappedKmemory = none
    · rw [hentry]
      rfl
    · obtain ⟨pde, hpde, hpte⟩ := pageEntry_ne_none.mp hentry
      obtain ⟨hi, hframe⟩ := hentries _ pde hpde
      have hne : pde.frame ≠ emptyMem.cr3 := by
        show pde.frame ≠ 0x1000
        omega
      rw [hothers _ hne] at hpte
      exact absurd rfl hpte
  · rw [hcr3] at hpde
    obtain ⟨hi, hframe⟩ := hentries i pde hpde
    omega

theorem emptyMem_mapped :
    OkAnd (vmmMapPage (vmmInit emptyMem 0x100000) 0x7000 0x400000 0x7 false) fun x => x.1 = 0 := by
  decide +kernel

theorem pageTables_user : ∃ m', vmmMapPage (vmmInit emptyMem 0x100000) 0x7000 0x400000 0x7 false =
    .ok (0, m') ∧ vmmGetPhysaddr m' 0x400123 = 0x7123 := by
  obtain ⟨-, hmapped, -⟩ := pageTables_partialMap (p := 0x7000) (a := 0x400000) (f := 0x5000)
    (vmmInit_kernelTables emptyMem 0x100000) emptyMem_apart emptyMem_room (by decide) (by decide)
  obtain ⟨⟨r, m'⟩, hok, rfl⟩ := emptyMem_mapped.exists_ok
  have haddr := (hmapped m' hok 0x400123 (by decide)).1
  rw [if_pos (by decide)] at haddr
  exact ⟨m', hok, haddr⟩

end GalaxyOS
