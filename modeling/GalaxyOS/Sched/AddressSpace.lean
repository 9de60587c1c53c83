import Mathlib.Data.Finset.Card
import Mathlib.Data.List.Perm.Basic
import GalaxyOS.Sched.UserMemory

/-! # The pages of an address space

`pageEntry m d a` is what the directory `d` maps at the address `a`.  `Space m d lo` says that the
directory is in order and that the kernel heap has room for the page tables it may still need from
the entry `lo` up to the stack region; mapping and unmapping a page change one page and keep it.

A page table that was needed stays when its last page goes, so what a function takes from the free
stack for good are page tables: `TablesTaken`.

`Space.mapPage` and `Space.unmapPage` are the two operations; the page table is there
(`vmmMapPage_present`) or is made first (`vmmMapPage_missing`). -/

namespace GalaxyOS

open Transition

variable {role : ℕ → Role} {K : ℕ → ℕ} {m m' m₁ m₂ : Mem} {d lo a f : ℕ}

/-- The entry behind a page in the directory `d`. -/
def pageEntry (m : Mem) (d a : ℕ) : Option Pte :=
  (m.tables d (pdindex a)).bind fun pde => m.tables pde.frame (ptindex a)

/-- Different user entries of `d` refer to different page tables. -/
def Separate (m : Mem) (d : ℕ) : Prop :=
  ∀ i < 768, ∀ j < 768, ∀ p q, m.tables d i = some p → m.tables d j = some q →
    p.frame = q.frame → i = j

/-- How many page tables the directory does not have yet between the entry `lo` and the entry 767,
that of the stack region. -/
def missingTables (m : Mem) (d lo : ℕ) : ℕ :=
  ((Finset.range 767).filter fun i => lo ≤ i ∧ m.tables d i = none).card

/-- The address space of `d` is in order: every frame has one owner, the directory refers to page
tables, to each of them once, and the kernel heap has room for those that are missing. -/
def Space (m : Mem) (d lo : ℕ) : Prop :=
  (∃ role K, Owned role K m ∧ Directory role K m d) ∧ Separate m d ∧
    m.endMappedKmemory + 0x1000 * missingTables m d lo < heapLimit

/-- Of the free frames only page tables that the directory needed are gone. -/
structure TablesTaken (d : ℕ) (m m' : Mem) : Prop where
  kept : ∀ i pde, m.tables d i = some pde → m'.tables d i = some pde
  frames : ∃ new, m.pmemStack.Perm (new ++ m'.pmemStack) ∧
    ∀ T ∈ new, ∃ i < 767, m.tables d i = none ∧ ∃ fl, m'.tables d i = some ⟨T, fl⟩

/-- The pages of the user half are what they were. -/
def SamePages (d : ℕ) (m m' : Mem) : Prop := ∀ b < kernelStart, pageEntry m' d b = pageEntry m d b

/-! ### Entries of a directory -/

theorem pageEntry_eq (hd : m'.tables d (pdindex a) = m.tables d (pdindex a))
    (hT : ∀ pde, m.tables d (pdindex a) = some pde →
      m'.tables pde.frame (ptindex a) = m.tables pde.frame (ptindex a)) :
    pageEntry m' d a = pageEntry m d a := by
  unfold pageEntry
  rw [hd]
  cases hpde : m.tables d (pdindex a) with
  | none => rfl
  | some pde => exact hT pde hpde

theorem pageEntry_some {pte : Pte} (h : pageEntry m d a = some pte) :
    ∃ pde, m.tables d (pdindex a) = some pde ∧ m.tables pde.frame (ptindex a) = some pte :=
  Option.bind_eq_some_iff.mp h

/-- A page is known by its two indices. -/
theorem indices_ne {b : ℕ} (hne : b / 0x1000 ≠ a / 0x1000) (hpd : pdindex b = pdindex a) :
    ptindex b ≠ ptindex a := by
  unfold pdindex at hpd
  unfold ptindex
  omega

theorem missingTables_congr (h : m'.tables d = m.tables d) :
    missingTables m' d lo = missingTables m d lo := by
  unfold missingTables
  rw [h]

/-- A page table that was missing is there. -/
theorem missingTables_update {i : ℕ} {pde : Pte} (hlo : lo ≤ i) (hi : i < 767)
    (hnone : m.tables d i = none)
    (h : m'.tables d = Function.update (m.tables d) i (some pde)) :
    missingTables m d lo = missingTables m' d lo + 1 := by
  unfold missingTables
  have hmem : i ∈ (Finset.range 767).filter fun j => lo ≤ j ∧ m.tables d j = none :=
    Finset.mem_filter.mpr ⟨Finset.mem_range.mpr hi, hlo, hnone⟩
  have herase : (Finset.range 767).filter (fun j => lo ≤ j ∧ m'.tables d j = none) =
      ((Finset.range 767).filter fun j => lo ≤ j ∧ m.tables d j = none).erase i := by
    ext j
    rw [h]
    by_cases hj : j = i
    · subst hj
      simp
    · simp [hj]
  rw [herase, Finset.card_erase_add_one hmem]

/-! ### What is taken -/

theorem TablesTaken.refl (d : ℕ) (m : Mem) : TablesTaken d m m :=
  ⟨fun _ _ h => h, [], .refl _, fun _ hT => absurd hT List.not_mem_nil⟩

theorem TablesTaken.trans (h : TablesTaken d m m₁) (h' : TablesTaken d m₁ m₂) :
    TablesTaken d m m₂ := by
  obtain ⟨new, hperm, hnew⟩ := h.frames
  obtain ⟨new', hperm', hnew'⟩ := h'.frames
  refine ⟨fun i pde hpde => h'.kept i pde (h.kept i pde hpde), new ++ new', ?_, fun T hT => ?_⟩
  · rw [List.append_assoc]
    exact hperm.trans (hperm'.append_left new)
  · rcases List.mem_append.mp hT with hT | hT
    · obtain ⟨i, hi, hnone, fl, hfl⟩ := hnew T hT
      exact ⟨i, hi, hnone, fl, h'.kept i _ hfl⟩
    · obtain ⟨i, hi, hnone, hfl⟩ := hnew' T hT
      refine ⟨i, hi, ?_, hfl⟩
      -- an entry that was there is still there
      cases hpde : m.tables d i with
      | none => rfl
      | some pde => exact absurd (h.kept i pde hpde) (by rw [hnone]; simp)

/-- A frame that was taken off the stack is pushed again. -/
theorem TablesTaken.giveBack {rest : List ℕ} (h : TablesTaken d { m with pmemStack := rest } m₁)
    (hstack : m.pmemStack = f :: rest) (hpush : m'.pmemStack = f :: m₁.pmemStack)
    (hd : m'.tables d = m₁.tables d) : TablesTaken d m m' := by
  obtain ⟨new, hperm, hnew⟩ := h.frames
  refine ⟨fun i pde hpde => ?_, new, ?_, fun T hT => ?_⟩
  · rw [hd]
    exact h.kept i pde hpde
  · rw [hstack, hpush]
    exact (hperm.cons f).trans List.perm_middle.symm
  · rw [hd]
    exact hnew T hT

/-! ### Mapping a page -/

theorem pmmAllocPage_data (h : pmmAllocPage m = .ok (f, m')) : m'.data = m.data := by
  unfold pmmAllocPage at h
  cases hstack : m.pmemStack with
  | nil =>
      simp only [hstack] at h
      cases h
  | cons page rest =>
      simp only [hstack, Except.ok.injEq, Prod.mk.injEq] at h
      exact h.2 ▸ rfl

theorem mapEntry_data {T flags : ℕ} {overwrite : Bool} {r : Int}
    (h : mapEntry m T f a flags overwrite = (r, m')) : m'.data = m.data := by
  unfold mapEntry at h
  cases hpte : m.tables T (ptindex a) with
  | some pte =>
      simp only [hpte] at h
      split_ifs at h
      · exact (Prod.mk.inj h).2 ▸ rfl
      · exact (Prod.mk.inj h).2 ▸ rfl
  | none =>
      simp only [hpte] at h
      exact (Prod.mk.inj h).2 ▸ rfl

/-- `vmm_map_page` does not write to the pages. -/
theorem vmmMapPageF_data {flags : ℕ} {overwrite : Bool} {r : Int} (n : ℕ)
    (h : vmmMapPageF n m f a flags overwrite = .ok (r, m')) : m'.data = m.data := by
  induction n generalizing m f a flags overwrite r m' with
  | zero => cases h
  | succ n ih =>
      unfold vmmMapPageF at h
      cases hpde : m.tables m.cr3 (pdindex a) with
      | some pde =>
          simp only [hpde, Except.ok.injEq] at h
          exact mapEntry_data h
      | none =>
          simp only [hpde, bind_ok, Prod.exists] at h
          obtain ⟨page, m₁, hpop, r₂, m₂, hpage, h⟩ := h
          split_ifs at h
          exact (mapEntry_data (Except.ok.inj h)).trans ((ih hpage).trans (pmmAllocPage_data hpop))

/-- `vmm_map_page` where the page table is there. -/
theorem vmmMapPage_present {pde : Pte} {flags : ℕ} (hpde : m.tables m.cr3 (pdindex a) = some pde)
    (hnone : m.tables pde.frame (ptindex a) = none) :
    vmmMapPage m f a flags false =
      .ok (0, m.setEntry pde.frame (ptindex a) (some (mkPte f (flags % 0x1000 ||| 1)))) := by
  simp only [vmmMapPage, vmmMapPageF, hpde, mapEntry, hnone]

/-- The rows of the memory after a page table has been added at `T` and one page mapped by it. -/
structure TableAdded (K : ℕ → ℕ) (m : Mem) (T a : ℕ) (pte : Pte) (m' : Mem) : Prop where
  cr3 : m'.cr3 = m.cr3
  heap : m'.endMappedKmemory = m.endMappedKmemory + 0x1000
  stack : m.pmemStack = T :: m'.pmemStack
  dir : m'.tables m.cr3 = Function.update (m.tables m.cr3) (pdindex a) (some ⟨T, 0x7⟩)
  table : m'.tables T = Function.update (fun _ => none) (ptindex a) (some pte)
  others : ∀ R, R ≠ m.cr3 → R ≠ T → (∀ i, 768 ≤ i → i < 1023 → R ≠ K i) → m'.tables R = m.tables R

/-- What `vmm_map_page` does once the new page table at `T` is mapped at the end of the heap. -/
theorem vmmMapPageF_missing {T n flags : ℕ} (hpde : m.tables m.cr3 (pdindex a) = none)
    (hpop : pmmAllocPage m = .ok (T, m₁))
    (hmap : vmmMapPageF n m₁ T m₁.endMappedKmemory 0x3 false = .ok (0, m₂))
    (hend : m₂.endMappedKmemory + 0x1000 < heapLimit) (halign : T % 0x1000 = 0)
    (haddr : vmmGetPhysaddr { m₂ with endMappedKmemory := m₂.endMappedKmemory + 0x1000 }
      m₁.endMappedKmemory = T) :
    vmmMapPageF (n + 1) m f a flags false = .ok (mapEntry
      ((({ m₂ with endMappedKmemory := m₂.endMappedKmemory + 0x1000 } : Mem).clearTable T).setEntry
        m₂.cr3 (pdindex a) (some ⟨T, 0x7⟩)) T f a flags false) := by
  have hroom : ¬m₂.endMappedKmemory + 0x1000 ≥ 0xFFC00000 := Nat.not_le_of_lt hend
  simp only [vmmMapPageF, hpde, hpop, ok_bind, hmap, haddr, mkPte_eq halign, if_neg hroom]
  rfl

/-- `vmm_map_page` where the page table is missing. -/
theorem vmmMapPage_missing {T flags : ℕ} {rest : List ℕ} (h : Owned role K m)
    (hd : Directory role K m m.cr3) (hpde : m.tables m.cr3 (pdindex a) = none)
    (hstack : m.pmemStack = T :: rest) (hend : m.endMappedKmemory + 0x1000 < heapLimit) :
    ∃ m', vmmMapPage m f a flags false = .ok (0, m') ∧
      TableAdded K m T a (mkPte f (flags % 0x1000 ||| 1)) m' := by
  have hpop : pmmAllocPage m = .ok (T, { m with pmemStack := rest }) := by
    simp only [pmmAllocPage, hstack]
  obtain ⟨-, hT, hext⟩ := Extends.pop h hpop
  generalize hm₁ : ({ m with pmemStack := rest } : Mem) = m₁ at hpop hT hext
  have htables : m₁.tables = m.tables := by rw [← hm₁]
  have hheap : m₁.endMappedKmemory = m.endMappedKmemory := by rw [← hm₁]
  have hrest : m₁.pmemStack = rest := by rw [← hm₁]
  have hloaded := hext.loaded hd (Set.notMem_empty _)
  have halign := hext.owned.loose_aligned hT
  have hrange := h.heap.pdindex
  have hTd : m₁.cr3 ≠ T := hloaded.ne_loose hT
  have hKd := hloaded.notKernel _ hrange.1 hrange.2
  obtain ⟨fl, hkernel⟩ := hloaded.kernel _ hrange.1 hrange.2
  have hfresh := hext.owned.fresh _ hext.owned.heap (Nat.le_refl _)
  rw [← hheap] at hkernel hKd
  -- the frame is mapped at the end of the kernel heap, where no table is missing
  let m₂ := m₁.setEntry (K (pdindex m₁.endMappedKmemory)) (ptindex m₁.endMappedKmemory)
    (some ⟨T, 0x3⟩)
  have hmap : vmmMapPageF (rest.length + 1) m₁ T m₁.endMappedKmemory 0x3 false = .ok (0, m₂) := by
    simp only [vmmMapPageF, hkernel, mapEntry, hfresh, mkPte_eq halign]
    rfl
  have hrow : m₂.tables m₂.cr3 = m₁.tables m₁.cr3 := setEntry_row hKd.symm _ _ _
  have hentry : m₂.tables (K (pdindex m₁.endMappedKmemory)) (ptindex m₁.endMappedKmemory) =
      some ⟨T, 0x3⟩ := setEntry_self ..
  have haddr : vmmGetPhysaddr { m₂ with endMappedKmemory := m₂.endMappedKmemory + 0x1000 }
      m₁.endMappedKmemory = T := by
    unfold vmmGetPhysaddr
    simp only [hrow, hkernel, hentry, hext.owned.heap.2.2, Nat.add_zero]
  have hcalc : vmmMapPageF (rest.length + 2) m f a flags false = _ :=
    vmmMapPageF_missing hpde hpop hmap (hheap ▸ hend) halign haddr
  let m₃ := (({ m₂ with endMappedKmemory := m₂.endMappedKmemory + 0x1000 } : Mem).clearTable
    T).setEntry m₂.cr3 (pdindex a) (some ⟨T, 0x7⟩)
  have hTd₂ : T ≠ m₂.cr3 := hTd.symm
  have hclear : m₃.tables T = fun _ => none :=
    (setEntry_row hTd₂ _ _ _).trans (Function.update_self ..)
  have hentry₃ : mapEntry m₃ T f a flags false =
      (0, m₃.setEntry T (ptindex a) (some (mkPte f (flags % 0x1000 ||| 1)))) := by
    simp only [mapEntry, hclear]
  refine ⟨m₃.setEntry T (ptindex a) (some (mkPte f (flags % 0x1000 ||| 1))), ?_, ?_⟩
  · rw [vmmMapPage, hstack, List.length_cons, hcalc]
    exact congrArg Except.ok hentry₃
  · have hcr3 : m₂.cr3 = m.cr3 := hext.cr3
    refine ⟨hcr3, congrArg (· + 0x1000) hheap, ?_, ?_, ?_, ?_⟩
    · show m.pmemStack = T :: m₁.pmemStack
      rw [hstack, hrest]
    · have hrow₂ : Function.update m₂.tables T (fun _ => none) m₂.cr3 = m.tables m₂.cr3 :=
        (Function.update_of_ne hTd₂.symm _ _).trans (hrow.trans (congrFun htables _))
      rw [← hcr3, setEntry_row hTd₂.symm]
      show Function.update _ _ _ m₂.cr3 = _
      rw [Function.update_self]
      exact congrArg (fun row => Function.update row (pdindex a) (some ⟨T, 0x7⟩)) hrow₂
    · show Function.update _ _ _ T = _
      rw [Function.update_self, hclear]
    · intro R hRd hRT hRK
      rw [← hcr3] at hRd
      rw [setEntry_row hRT]
      calc m₃.tables R = m₂.tables R :=
            (setEntry_row hRd _ _ _).trans (Function.update_of_ne hRT _ _)
        _ = m₁.tables R := setEntry_row (hheap ▸ hRK _ hrange.1 hrange.2) _ _ _
        _ = m.tables R := congrFun htables R

/-! ### Address spaces that are in order -/

theorem Separate.congr (h : Separate m d) (hd : m'.tables d = m.tables d) : Separate m' d := by
  unfold Separate
  rw [hd]
  exact h

/-- A page table that no entry refers to is entered. -/
theorem Separate.update {i T fl : ℕ} (h : Separate m d)
    (hd : m'.tables d = Function.update (m.tables d) i (some ⟨T, fl⟩))
    (hT : ∀ j < 768, ∀ p, m.tables d j = some p → p.frame ≠ T) : Separate m' d := by
  intro j hj k hk p q hp hq hpq
  rw [hd] at hp hq
  by_cases hji : j = i
  · by_cases hki : k = i
    · exact hji.trans hki.symm
    · subst hji
      rw [Function.update_self, Option.some.injEq] at hp
      rw [Function.update_of_ne hki] at hq
      subst hp
      exact absurd hpq.symm (hT k hk q hq)
  · rw [Function.update_of_ne hji] at hp
    by_cases hki : k = i
    · subst hki
      rw [Function.update_self, Option.some.injEq] at hq
      subst hq
      exact absurd hpq (hT j hj p hp)
    · rw [Function.update_of_ne hki] at hq
      exact h j hj k hk p q hp hq hpq

theorem Space.setCr3 (h : Space m d lo) (c : ℕ) : Space { m with cr3 := c } d lo := by
  obtain ⟨⟨role, K, hown, hdir⟩, hsep, hroom⟩ := h
  exact ⟨⟨role, K, hown.setCr3 c, hdir.mono rfl fun _ _ => rfl⟩, hsep, hroom⟩

/-- The frame `f` is mapped at the page `a`, and nothing else is. -/
structure PageMapped (d lo a f : ℕ) (m m' : Mem) : Prop where
  space : Space m' d lo
  cr3 : m'.cr3 = m.cr3
  page : pageEntry m' d a = some ⟨f, 0x7⟩
  others : ∀ b < kernelStart, b / 0x1000 ≠ a / 0x1000 → pageEntry m' d b = pageEntry m d b
  taken : TablesTaken d m m'

/-- A page table is no directory, no table of the kernel half and no free frame. -/
theorem Directory.table_ne {b : ℕ} {pde : Pte} (hd : Directory role K m d) (h : Owned role K m)
    (hb : b < kernelStart) (hpde : m.tables d (pdindex b) = some pde) :
    pde.frame ≠ d ∧ (∀ i, 768 ≤ i → i < 1023 → pde.frame ≠ K i) ∧
      ∀ g, role g = .free → pde.frame ≠ g := by
  obtain ⟨c, hc⟩ := hd.user _ (pdindex_user hb) pde hpde
  refine ⟨fun hd' => ?_, fun i h1 h2 hK => ?_, fun g hg hT => ?_⟩
  · exact hd.userRow.notTable c (hd' ▸ hc)
  · rw [hK, h.kernel i h1 h2] at hc
    cases hc
  · rw [hT, hg] at hc
    cases hc

theorem mapPage_present {pde : Pte} (h : Owned role K m) (hd : Directory role K m m.cr3)
    (hsep : Separate m m.cr3)
    (hroom : m.endMappedKmemory + 0x1000 * missingTables m m.cr3 lo < heapLimit)
    (hf : Loose role m f) (ha : a < kernelStart) (hpde : m.tables m.cr3 (pdindex a) = some pde)
    (hnone : m.tables pde.frame (ptindex a) = none) :
    ∃ m', vmmMapPage m f a 0x7 false = .ok (0, m') ∧ PageMapped m.cr3 lo a f m m' := by
  have hmap : vmmMapPage m f a 0x7 false =
      .ok (0, m.setEntry pde.frame (ptindex a) (some ⟨f, 0x7⟩)) := by
    rw [vmmMapPage_present hpde hnone, mkPte_eq (h.loose_aligned hf)]
    rfl
  obtain ⟨role', hext, -⟩ := vmmMapPage_ok h hd hf (pdindex_user ha) hmap
  obtain ⟨hTd, -, -⟩ := hd.table_ne h ha hpde
  have hrow : (m.setEntry pde.frame (ptindex a) (some ⟨f, 0x7⟩)).tables m.cr3 = m.tables m.cr3 :=
    setEntry_row hTd.symm _ _ _
  refine ⟨_, hmap, ⟨⟨role', K, hext.owned, hext.loaded hd (hd.ne_loose hf)⟩, hsep.congr hrow, ?_⟩,
    rfl, ?_, ?_, fun i p hp => ?_, [], .refl _, ?_⟩
  · rw [missingTables_congr hrow]
    exact hroom
  · unfold pageEntry
    rw [hrow, hpde]
    exact setEntry_self ..
  · intro b hb hne
    refine pageEntry_eq (congrFun hrow _) fun q hq => setEntry_of_ne ?_ _ _
    by_cases hq' : q.frame = pde.frame
    · exact .inr (indices_ne hne (hsep _ (pdindex_user hb) _ (pdindex_user ha) q pde hq hpde hq'))
    · exact .inl hq'
  · rw [hrow]
    exact hp
  · exact fun T hT => absurd hT List.not_mem_nil

/-- A new page table with one page is no change to the other pages. -/
theorem TableAdded.page {T : ℕ} (h : Owned role K m) (hd : Directory role K m m.cr3)
    (hsep : Separate m m.cr3) (hT : role T = .free) (hpde : m.tables m.cr3 (pdindex a) = none)
    {pte : Pte} (hadd : TableAdded K m T a pte m') :
    Separate m' m.cr3 ∧ pageEntry m' m.cr3 a = some pte ∧
      ∀ b < kernelStart, b / 0x1000 ≠ a / 0x1000 → pageEntry m' m.cr3 b = pageEntry m m.cr3 b := by
  have hothers : ∀ b < kernelStart, ∀ q, m.tables m.cr3 (pdindex b) = some q →
      m'.tables q.frame = m.tables q.frame := by
    intro b hb q hq
    obtain ⟨h1, h2, h3⟩ := hd.table_ne h hb hq
    exact hadd.others _ h1 (h3 T hT) h2
  refine ⟨hsep.update hadd.dir fun j hj p hp hpT => ?_, ?_, fun b hb hne => ?_⟩
  · obtain ⟨c, hc⟩ := hd.user j hj p hp
    rw [hpT, hT] at hc
    cases hc
  · unfold pageEntry
    rw [hadd.dir, Function.update_self, Option.bind_some, hadd.table, Function.update_self]
  · by_cases hpd : pdindex b = pdindex a
    · have hnone : pageEntry m m.cr3 b = none := by
        unfold pageEntry
        rw [hpd, hpde, Option.bind_none]
      rw [hnone]
      unfold pageEntry
      rw [hadd.dir, hpd, Function.update_self, Option.bind_some, hadd.table,
        Function.update_of_ne (indices_ne hne hpd)]
    · refine pageEntry_eq ?_ fun q hq => congrFun (hothers b hb q hq) _
      rw [hadd.dir, Function.update_of_ne hpd]

theorem mapPage_missing {T : ℕ} {rest : List ℕ} (h : Owned role K m)
    (hd : Directory role K m m.cr3) (hsep : Separate m m.cr3)
    (hroom : m.endMappedKmemory + 0x1000 * missingTables m m.cr3 lo < heapLimit)
    (hf : Loose role m f) (hlo : lo ≤ pdindex a) (hhi : pdindex a < 767)
    (hstack : m.pmemStack = T :: rest) (hpde : m.tables m.cr3 (pdindex a) = none) :
    ∃ m', vmmMapPage m f a 0x7 false = .ok (0, m') ∧ PageMapped m.cr3 lo a f m m' := by
  have hmissing : 0 < missingTables m m.cr3 lo := by
    apply Finset.card_pos.mpr
    exact ⟨pdindex a, Finset.mem_filter.mpr ⟨Finset.mem_range.mpr hhi, hlo, hpde⟩⟩
  obtain ⟨m', hmap, hadd⟩ : ∃ m', vmmMapPage m f a 0x7 false = .ok (0, m') ∧
      TableAdded K m T a ⟨f, 0x7⟩ m' := by
    rw [← mkPte_eq (h.loose_aligned hf)]
    exact vmmMapPage_missing h hd hpde hstack (by omega)
  have hT : role T = .free := h.free T (hstack ▸ List.mem_cons_self)
  obtain ⟨role', hext, -⟩ := vmmMapPage_ok h hd hf (Nat.lt_succ_of_lt hhi) hmap
  obtain ⟨hsep', hpage, hothers⟩ := hadd.page h hd hsep hT hpde
  have hcount := missingTables_update hlo hhi hpde hadd.dir
  refine ⟨m', hmap, ⟨⟨role', K, hext.owned, ?_⟩, hsep', ?_⟩, hadd.cr3, hpage, hothers, ?_, ?_⟩
  · exact hadd.cr3 ▸ hext.loaded hd (hd.ne_loose hf)
  · rw [hadd.heap]
    omega
  · intro i p hp
    rw [hadd.dir, Function.update_of_ne]
    · exact hp
    · rintro rfl
      rw [hpde] at hp
      cases hp
  · refine ⟨[T], ?_, fun g hg => ?_⟩
    · rw [hadd.stack]
      exact .refl _
    · rw [List.mem_singleton] at hg
      subst hg
      exact ⟨pdindex a, hhi, hpde, 0x7, by rw [hadd.dir, Function.update_self]⟩

/-- `vmm_map_page` on a user page that is not mapped, with a frame left for the page table. -/
theorem Space.mapPage {rest : List ℕ} (h : Space m d lo) (hcr3 : m.cr3 = d)
    (hstack : m.pmemStack = f :: rest) (hrest : rest ≠ []) (hlo : lo ≤ pdindex a)
    (hhi : pdindex a < 767) (hfree : pageEntry m d a = none) :
    ∃ m', vmmMapPage { m with pmemStack := rest } f a 0x7 false = .ok (0, m') ∧
      PageMapped d lo a f { m with pmemStack := rest } m' := by
  subst hcr3
  obtain ⟨⟨role, K, hown, hdir⟩, hsep, hroom⟩ := h
  have hpop : pmmAllocPage m = .ok (f, { m with pmemStack := rest }) := by
    simp only [pmmAllocPage, hstack]
  obtain ⟨-, hloose, hext⟩ := Extends.pop hown hpop
  have hloaded := hext.loaded hdir (Set.notMem_empty _)
  cases hpde : m.tables m.cr3 (pdindex a) with
  | some pde =>
      have hnone : m.tables pde.frame (ptindex a) = none := by
        unfold pageEntry at hfree
        rwa [hpde] at hfree
      have ha : a < kernelStart := by
        unfold pdindex at hhi
        unfold kernelStart
        omega
      exact mapPage_present hext.owned hloaded hsep hroom hloose ha hpde hnone
  | none =>
      obtain ⟨T, rest', rfl⟩ := List.exists_cons_of_ne_nil hrest
      exact mapPage_missing hext.owned hloaded hsep hroom hloose hlo hhi rfl hpde

/-! ### Unmapping a page -/

/-- The page `a` is unmapped and the frame `f` behind it is free, and nothing else has changed. -/
structure PageUnmapped (d lo a f : ℕ) (m m' : Mem) : Prop where
  space : Space m' d lo
  cr3 : m'.cr3 = m.cr3
  stack : m'.pmemStack = f :: m.pmemStack
  dir : m'.tables d = m.tables d
  page : pageEntry m' d a = none
  others : ∀ b < kernelStart, b / 0x1000 ≠ a / 0x1000 → pageEntry m' d b = pageEntry m d b

/-- A round of the loop that unmaps heap pages, at a page that is mapped. -/
theorem Space.unmapPage {pte : Pte} (h : Space m d lo) (hcr3 : m.cr3 = d) (ha : a < kernelStart)
    (halign : a % 0x1000 = 0) (hentry : pageEntry m d a = some pte) :
    ∃ m', (∀ n, brkUnmap m (a + 0x1000) (n + 1) = brkUnmap m' a n) ∧
      PageUnmapped d lo a pte.frame m m' := by
  subst hcr3
  obtain ⟨⟨role, K, hown, hdir⟩, hsep, hroom⟩ := h
  obtain ⟨pde, hpde, hpte⟩ := pageEntry_some hentry
  obtain ⟨c, hT⟩ := hdir.user _ (pdindex_user ha) pde hpde
  have hframe := hown.frames pte.frame (by rw [hown.userEntry _ c hT _ pte hpte]; simp)
  have haddr : vmmGetPhysaddr m a = pte.frame := by
    simp only [vmmGetPhysaddr, hpde, hpte, halign, Nat.add_zero]
  have hunmap : vmmUnmapPage (pmmFreePage m pte.frame) a =
      (true, (pmmFreePage m pte.frame).setEntry pde.frame (ptindex a) none) := by
    simp only [vmmUnmapPage, pmmFreePage, hpde, hpte]
  have hmask : pte.frame / 0x1000 * 0x1000 = pte.frame := by omega
  have hext := Extends.unmapUser hown hT hpte
  obtain ⟨hTd, -, -⟩ := hdir.table_ne hown ha hpde
  have hrow : ((pmmFreePage m pte.frame).setEntry pde.frame (ptindex a) none).tables m.cr3 =
      m.tables m.cr3 := setEntry_row hTd.symm _ _ _
  refine ⟨(pmmFreePage m pte.frame).setEntry pde.frame (ptindex a) none, fun n => ?_,
    ⟨⟨_, K, hext.owned, hext.loaded hdir (Set.notMem_empty _)⟩, hsep.congr hrow, ?_⟩, rfl, rfl, hrow,
    ?_, ?_⟩
  · rw [brkUnmap, Nat.add_sub_cancel]
    simp only [haddr, hmask, hunmap, if_pos hframe.2]
  · rw [missingTables_congr hrow]
    exact hroom
  · unfold pageEntry
    rw [hrow, hpde]
    exact setEntry_self ..
  · intro b hb hne
    refine pageEntry_eq (congrFun hrow _) fun q hq => setEntry_of_ne ?_ _ _
    by_cases hq' : q.frame = pde.frame
    · exact .inr (indices_ne hne (hsep _ (pdindex_user hb) _ (pdindex_user ha) q pde hq hpde hq'))
    · exact .inl hq'

end GalaxyOS
