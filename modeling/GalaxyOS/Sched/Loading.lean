import GalaxyOS.Sched.AddressSpace

/-! # Filling an address space

What the loader does to the address space of a process, page by page and byte by byte.  `userByte` is
the byte that a program sees at an address of the directory `d`.  `AddressSpace role K m` says that the
directory which is loaded is in order; under it two addresses of user pages never name the same byte,
so a store changes the byte at one address, and mapping a page changes one page.

`AddressSpace.store` and `AddressSpace.mapPage` are these two changes, `AddressSpace.storeBytes` and
`AddressSpace.mapPagesLoc` the loops over them. -/

namespace GalaxyOS

open Transition

variable {role role' : ℕ → Role} {K : ℕ → ℕ} {m m' m₁ : Mem} {d a b f x : ℕ}

/-! ### What a program sees -/

/-- The physical address behind the address `a` in the directory `d`. -/
def userCell (m : Mem) (d a : ℕ) : Option ℕ := (pageEntry m d a).map fun pte => pte.frame + a % 0x1000

/-- The byte at the address `a` in the directory `d`. -/
def userByte (m : Mem) (d a : ℕ) : Option UInt8 := (userCell m d a).map m.data

/-- The directory that is loaded is in order: every frame has one owner, and different entries of the
user half refer to different page tables. -/
structure AddressSpace (role : ℕ → Role) (K : ℕ → ℕ) (m : Mem) : Prop where
  owned : Owned role K m
  dir : Directory role K m m.cr3
  separate : Separate m m.cr3

theorem userCell_eq : userCell m d a = some x ↔
    ∃ pte, pageEntry m d a = some pte ∧ pte.frame + a % 0x1000 = x := Option.map_eq_some_iff

theorem userCell_ne_none : userCell m d a ≠ none ↔ pageEntry m d a ≠ none :=
  not_congr Option.map_eq_none_iff

theorem vmmGetPhysaddr_cell (m : Mem) (a : ℕ) :
    vmmGetPhysaddr m a = (userCell m m.cr3 a).getD 0 := by
  unfold vmmGetPhysaddr userCell pageEntry
  cases m.tables m.cr3 (pdindex a) with
  | none => rfl
  | some pde =>
      rw [Option.bind_some]
      cases hpte : m.tables pde.frame (ptindex a) with
      | none => simp only [hpte, Option.map_none, Option.getD_none]
      | some pte => simp only [hpte, Option.map_some, Option.getD_some]

/-- Two user addresses with the same byte behind them are the same. -/
theorem AddressSpace.cell_inj (h : AddressSpace role K m) (ha : a < kernelStart) (hb : b < kernelStart)
    (hxa : userCell m m.cr3 a = some x) (hxb : userCell m m.cr3 b = some x) : a = b := by
  obtain ⟨p, hp, hxp⟩ := userCell_eq.mp hxa
  obtain ⟨q, hq, hxq⟩ := userCell_eq.mp hxb
  obtain ⟨pde, hpde, hpte⟩ := pageEntry_some hp
  obtain ⟨qde, hqde, hqte⟩ := pageEntry_some hq
  obtain ⟨u, hu⟩ := h.dir.user _ (pdindex_user ha) pde hpde
  obtain ⟨v, hv⟩ := h.dir.user _ (pdindex_user hb) qde hqde
  have hrole := h.owned.userEntry _ u hu _ p hpte
  have hrole' := h.owned.userEntry _ v hv _ q hqte
  have halign := (h.owned.frames p.frame (by rw [hrole]; simp)).1
  have halign' := (h.owned.frames q.frame (by rw [hrole']; simp)).1
  have hframe : p.frame = q.frame := by omega
  have howner : Role.user pde.frame (ptindex a) = .user qde.frame (ptindex b) := by
    rw [← hrole, hframe, hrole']
  injection howner with htable hindex
  have hpd := h.separate _ (pdindex_user ha) _ (pdindex_user hb) pde qde hpde hqde htable
  have hpage : a / 0x1000 = b / 0x1000 := by
    by_contra hne
    exact indices_ne (a := b) hne hpd hindex
  omega

/-! ### Stores -/

/-- The contents of the pages do not matter. -/
theorem AddressSpace.setData (h : AddressSpace role K m) (data : ℕ → UInt8) :
    AddressSpace role K { m with data := data } :=
  ⟨h.owned.setData data, h.dir.mono rfl fun _ _ => rfl, h.separate⟩

/-- A store changes the byte at its address. -/
theorem AddressSpace.store (h : AddressSpace role K m) (ha : a < kernelStart)
    (hpage : pageEntry m m.cr3 a ≠ none) (v : UInt8) (hb : b < kernelStart) :
    userByte { m with data := Function.update m.data (vmmGetPhysaddr m a) v } m.cr3 b =
      if b = a then some v else userByte m m.cr3 b := by
  obtain ⟨x, hx⟩ := Option.ne_none_iff_exists'.mp (userCell_ne_none.mpr hpage)
  have haddr : vmmGetPhysaddr m a = x := by
    rw [vmmGetPhysaddr_cell, hx, Option.getD_some]
  rw [haddr]
  have hcell : userCell { m with data := Function.update m.data x v } m.cr3 b =
      userCell m m.cr3 b := rfl
  unfold userByte
  rw [hcell]
  by_cases hba : b = a
  · rw [if_pos hba, hba, hx, Option.map_some]
    exact congrArg some (Function.update_self ..)
  · rw [if_neg hba]
    cases hy : userCell m m.cr3 b with
    | none => rfl
    | some y =>
        have hne : y ≠ x := fun hyx => hba (h.cell_inj hb ha hy (hyx ▸ hx))
        exact congrArg some (Function.update_of_ne hne _ _)

/-- `storeBytes` changes the bytes at its addresses. -/
theorem AddressSpace.storeBytes {addr : ℕ} {bs : List UInt8} (h : AddressSpace role K m)
    (hend : addr + bs.length ≤ kernelStart)
    (hpages : ∀ k < bs.length, pageEntry m m.cr3 (addr + k) ≠ none) (hb : b < kernelStart) :
    userByte (storeBytes m addr bs) m.cr3 b =
      if addr ≤ b ∧ b < addr + bs.length then bs[b - addr]? else userByte m m.cr3 b := by
  induction bs generalizing m addr with
  | nil =>
      rw [if_neg (by rw [List.length_nil]; omega)]
      rfl
  | cons v bs ih =>
      rw [List.length_cons] at hend hpages ⊢
      have hwrap : wrap32 (addr + 1) = addr + 1 := by
        unfold kernelStart at hend
        unfold wrap32
        omega
      have hfirst := h.store (b := b) (show addr < kernelStart by omega)
        (hpages 0 (Nat.succ_pos _)) v hb
      unfold GalaxyOS.storeBytes
      rw [hwrap]
      have hbytes : ∀ k < bs.length, pageEntry m m.cr3 (addr + 1 + k) ≠ none := by
        intro k hk
        rw [show addr + 1 + k = addr + (k + 1) by omega]
        exact hpages (k + 1) (Nat.succ_lt_succ hk)
      have hrest := ih (h.setData (Function.update m.data (vmmGetPhysaddr m addr) v))
        (show addr + 1 + bs.length ≤ kernelStart by omega) hbytes
      refine hrest.trans ?_
      by_cases hin : addr + 1 ≤ b ∧ b < addr + 1 + bs.length
      · rw [if_pos hin, if_pos (by omega), show b - addr = b - (addr + 1) + 1 by omega,
          List.getElem?_cons_succ]
      · rw [if_neg hin]
        refine hfirst.trans ?_
        by_cases hba : b = addr
        · rw [if_pos hba, if_pos (by omega), hba, Nat.sub_self, List.getElem?_cons_zero]
        · rw [if_neg hba, if_neg (by omega)]

/-! ### Mapping pages -/

/-- The page `a` has been added with the frame `f`, and nothing else has changed. -/
structure PageAdded (a f : ℕ) (m m' : Mem) : Prop where
  cr3 : m'.cr3 = m.cr3
  page : pageEntry m' m.cr3 a = some ⟨f, 0x7⟩
  others : ∀ b < kernelStart, b / 0x1000 ≠ a / 0x1000 → pageEntry m' m.cr3 b = pageEntry m m.cr3 b
  data : m'.data = m.data

/-- A page table that is missing was made from a free frame, if `vmm_map_page` returns. -/
theorem vmmMapPage_room {flags : ℕ} {r : Int} (h : Owned role K m) (hd : Directory role K m m.cr3)
    (hpde : m.tables m.cr3 (pdindex a) = none) (hmap : vmmMapPage m f a flags false = .ok (r, m')) :
    ∃ T rest, m.pmemStack = T :: rest ∧ m.endMappedKmemory + 0x1000 < heapLimit := by
  simp only [vmmMapPage, vmmMapPageF, hpde, bind_ok, Prod.exists] at hmap
  obtain ⟨page, m₁, hpop, r₂, m₂, hpage, hmap⟩ := hmap
  split_ifs at hmap with hr hend
  obtain ⟨hmem, hloose, hext⟩ := Extends.pop h hpop
  obtain ⟨-, hheap, -⟩ := heapPage_ok m₁.endMappedKmemory hext.owned
    (hext.loaded hd (Set.notMem_empty _)) hloose hpage (Nat.lt_of_not_le hend)
  cases hstack : m.pmemStack with
  | nil =>
      rw [hstack] at hmem
      cases hmem
  | cons T rest =>
      refine ⟨T, rest, rfl, ?_⟩
      simp only [pmmAllocPage, hstack, Except.ok.injEq, Prod.mk.injEq] at hpop
      obtain ⟨-, rfl⟩ := hpop
      exact hheap ▸ Nat.lt_of_not_le hend

/-- `vmm_map_page` on a user page: it maps the page, unless it is mapped. -/
theorem AddressSpace.mapPage {r : Int} (h : AddressSpace role K m) (hf : Loose role m f)
    (ha : pdindex a < 767) (hmap : vmmMapPage m f a 0x7 false = .ok (r, m')) :
    (r = -1 ∧ m' = m ∧ pageEntry m m.cr3 a ≠ none) ∨
    (r = 0 ∧ pageEntry m m.cr3 a = none ∧ PageAdded a f m m' ∧
      ∃ role', Extends K {f} role m role' m' ∧ AddressSpace role' K m') := by
  have hdata := vmmMapPageF_data _ hmap
  have hlt : a < kernelStart := by
    unfold pdindex at ha
    unfold kernelStart
    omega
  obtain ⟨role', hext, -⟩ := vmmMapPage_ok h.owned h.dir hf (Nat.lt_succ_of_lt ha) hmap
  have hcr3 := hext.cr3
  have hdir := hext.loaded h.dir (h.dir.ne_loose hf)
  cases hpde : m.tables m.cr3 (pdindex a) with
  | some pde =>
      cases hpte : m.tables pde.frame (ptindex a) with
      | some pte =>
          have hpage : pageEntry m m.cr3 a = some pte := by
            unfold pageEntry
            rw [hpde]
            exact hpte
          have hfail : vmmMapPage m f a 0x7 false = .ok (-1, m) := by
            simp only [vmmMapPage, vmmMapPageF, hpde, mapEntry, hpte, Bool.not_false, if_true]
          obtain ⟨rfl, rfl⟩ := Prod.mk.inj (Except.ok.inj (hfail.symm.trans hmap))
          exact .inl ⟨rfl, rfl, by rw [hpage]; exact Option.some_ne_none _⟩
      | none =>
          have hroom : m.endMappedKmemory + 0x1000 * missingTables m m.cr3 767 < heapLimit := by
            have hnone : missingTables m m.cr3 767 = 0 := by
              refine Finset.card_eq_zero.mpr (Finset.filter_eq_empty_iff.mpr fun i hi => ?_)
              have hi' := Finset.mem_range.mp hi
              omega
            rw [hnone, Nat.mul_zero]
            exact h.owned.heap.2.1
          obtain ⟨m₂, hmap₂, hpage⟩ := mapPage_present h.owned h.dir h.separate hroom hf hlt hpde hpte
          obtain ⟨rfl, rfl⟩ := Prod.mk.inj (Except.ok.inj (hmap₂.symm.trans hmap))
          refine .inr ⟨rfl, ?_, ⟨hcr3, hpage.page, hpage.others, hdata⟩, role', hext, hext.owned, hdir, ?_⟩
          · unfold pageEntry
            rw [hpde]
            exact hpte
          · rw [hcr3]
            exact hpage.space.2.1
  | none =>
      obtain ⟨T, rest, hstack, hend⟩ := vmmMapPage_room h.owned h.dir hpde hmap
      obtain ⟨m₂, hmap₂, hadd⟩ : ∃ m₂, vmmMapPage m f a 0x7 false = .ok (0, m₂) ∧
          TableAdded K m T a (mkPte f (0x7 % 0x1000 ||| 1)) m₂ :=
        vmmMapPage_missing h.owned h.dir hpde hstack hend
      obtain ⟨rfl, rfl⟩ := Prod.mk.inj (Except.ok.inj (hmap₂.symm.trans hmap))
      have hT : role T = .free := h.owned.free T (hstack ▸ List.mem_cons_self)
      obtain ⟨hsep, hpage, hothers⟩ := hadd.page h.owned h.dir h.separate hT hpde
      rw [mkPte_eq (h.owned.loose_aligned hf)] at hpage
      refine .inr ⟨rfl, ?_, ⟨hcr3, hpage, hothers, hdata⟩, role', hext, hext.owned, hdir, ?_⟩
      · unfold pageEntry
        rw [hpde]
        rfl
      · rw [hcr3]
        exact hsep

/-- The kernel has run out of frames or of room for page tables. -/
def IsPanic (e : Fault) : Prop := ∃ msg, e = .panic msg

/-- `vmm_map_page` ends only for want of memory. -/
theorem AddressSpace.mapPage_error {e : Fault} (h : AddressSpace role K m)
    (hmap : vmmMapPage m f a 0x7 false = .error e) : IsPanic e := by
  unfold vmmMapPage vmmMapPageF at hmap
  cases hpde : m.tables m.cr3 (pdindex a) with
  | some pde =>
      rw [hpde] at hmap
      cases hmap
  | none =>
      simp only [hpde] at hmap
      cases hstack : m.pmemStack with
      | nil =>
          simp only [pmmAllocPage, hstack, error_bind, Except.error.injEq] at hmap
          exact ⟨_, hmap.symm⟩
      | cons page rest =>
          obtain ⟨fl, hkernel⟩ := h.dir.kernel _ h.owned.heap.pdindex.1 h.owned.heap.pdindex.2
          have hfresh := h.owned.fresh _ h.owned.heap (Nat.le_refl _)
          simp only [pmmAllocPage, hstack, ok_bind, List.length_cons, vmmMapPageF, hkernel, mapEntry,
            hfresh] at hmap
          rw [if_neg (by decide)] at hmap
          split_ifs at hmap with hend
          exact ⟨_, (Except.error.inj hmap).symm⟩

theorem pageEntry_congr (h : a / 0x1000 = b / 0x1000) : pageEntry m d a = pageEntry m d b := by
  have hpd : pdindex a = pdindex b := by
    unfold pdindex
    omega
  have hpt : ptindex a = ptindex b := by
    unfold ptindex
    omega
  unfold pageEntry
  rw [hpd, hpt]

/-- The `n` pages from that of `loc` on have been added, and nothing else has changed. -/
structure PagesAdded (loc n : ℕ) (m m' : Mem) : Prop where
  cr3 : m'.cr3 = m.cr3
  data : m'.data = m.data
  new : ∀ j < n, pageEntry m m.cr3 (loc + 0x1000 * j) = none
  pages : ∀ b < kernelStart, ∀ j < n, b / 0x1000 = loc / 0x1000 + j → pageEntry m' m.cr3 b ≠ none
  others : ∀ b < kernelStart, (∀ j < n, b / 0x1000 ≠ loc / 0x1000 + j) →
    pageEntry m' m.cr3 b = pageEntry m m.cr3 b

theorem PagesAdded.zero (loc : ℕ) (m : Mem) : PagesAdded loc 0 m m :=
  ⟨rfl, rfl, fun _ hj => absurd hj (Nat.not_lt_zero _), fun _ _ _ hj => absurd hj (Nat.not_lt_zero _),
    fun _ _ _ => rfl⟩

/-- A page in front of the others. -/
theorem PagesAdded.cons {loc n : ℕ} (h : PageAdded loc f m m₁)
    (hnone : pageEntry m m.cr3 loc = none) (h' : PagesAdded (loc + 0x1000) n m₁ m')
    (hbelow : ∀ j < n, loc + 0x1000 + 0x1000 * j < kernelStart) : PagesAdded loc (n + 1) m m' := by
  have hcr3 := h.cr3
  refine ⟨h'.cr3.trans hcr3, h'.data.trans h.data, fun j hj => ?_, fun b hb j hj hpage => ?_,
    fun b hb hout => ?_⟩
  · cases j with
    | zero => exact hnone
    | succ j =>
        have hnew := h'.new j (Nat.lt_of_succ_lt_succ hj)
        have hlt := hbelow j (Nat.lt_of_succ_lt_succ hj)
        rw [hcr3, h.others _ hlt (by omega)] at hnew
        rw [show loc + 0x1000 * (j + 1) = loc + 0x1000 + 0x1000 * j by omega]
        exact hnew
  · rw [← hcr3]
    cases j with
    | zero =>
        rw [h'.others b hb fun i hi => by omega, hcr3, pageEntry_congr hpage, h.page]
        exact Option.some_ne_none _
    | succ j => exact h'.pages b hb j (Nat.lt_of_succ_lt_succ hj) (by omega)
  · have hfirst := hout 0 (Nat.succ_pos n)
    rw [← hcr3, h'.others b hb fun j hj => ?_, hcr3, h.others b hb hfirst]
    have hnext := hout (j + 1) (Nat.succ_lt_succ hj)
    omega

theorem page_tail (loc j : ℕ) : loc + 0x1000 + 0x1000 * j = loc + 0x1000 * (j + 1) := by
  omega

theorem below_tail {policy : LoaderAccess → Prop} {loc n : ℕ}
    (h : ∀ j < n + 1, policy (.map (loc + 0x1000 * j)) → loc + 0x1000 * j < 767 * 0x400000) :
    ∀ j < n, policy (.map (loc + 0x1000 + 0x1000 * j)) →
      loc + 0x1000 + 0x1000 * j < 767 * 0x400000 := by
  intro j hj
  rw [page_tail]
  exact h (j + 1) (Nat.succ_lt_succ hj)

variable {policy : LoaderAccess → Prop} [DecidablePred policy] {loc : ℕ} {pages : List ℕ}

/-- A round of `vmm_map_pages_loc`: the monitor stops it, memory runs out, the page is mapped already,
or it is added. -/
theorem AddressSpace.mapPagesLoc_cons {page : ℕ} (pages : List ℕ) (h : AddressSpace role K m)
    (hfirst : Loose role m page) (hbelow : policy (.map loc) → loc < 767 * 0x400000) :
    (¬policy (.map loc) ∧
      vmmMapPagesLoc policy m loc 0x7 (page :: pages) = .error .wildAccess) ∨
    policy (.map loc) ∧
      ((∃ e, IsPanic e ∧ vmmMapPagesLoc policy m loc 0x7 (page :: pages) = .error e) ∨
      (pageEntry m m.cr3 loc ≠ none ∧
        vmmMapPagesLoc policy m loc 0x7 (page :: pages) = .ok (false, m)) ∨
      ∃ role₁ m₁, vmmMapPagesLoc policy m loc 0x7 (page :: pages) =
          vmmMapPagesLoc policy m₁ (loc + 0x1000) 0x7 pages ∧
        pageEntry m m.cr3 loc = none ∧ PageAdded loc page m m₁ ∧ Extends K {page} role m role₁ m₁ ∧
        AddressSpace role₁ K m₁) := by
  unfold vmmMapPagesLoc access
  by_cases hallowed : policy (.map loc)
  · refine .inr ⟨hallowed, ?_⟩
    have hloc := hbelow hallowed
    have hpd : pdindex loc < 767 := by
      unfold pdindex
      omega
    rw [if_pos hallowed, ok_bind]
    cases hpage : vmmMapPage m page loc 0x7 false with
    | error e => exact .inl ⟨e, h.mapPage_error hpage, rfl⟩
    | ok x =>
        obtain ⟨r, m₁⟩ := x
        cases h.mapPage hfirst hpd hpage with
        | inl hfail =>
            obtain ⟨rfl, rfl, hpresent⟩ := hfail
            exact .inr (.inl ⟨hpresent, rfl⟩)
        | inr hdone =>
            obtain ⟨rfl, hnone, hadded, role₁, hext, h₁⟩ := hdone
            have hwrap : wrap32 (loc + 0x1000) = loc + 0x1000 := by
              unfold wrap32
              omega
            refine .inr (.inr ⟨role₁, m₁, ?_, hnone, hadded, hext, h₁⟩)
            simp only [ok_bind, hwrap]
            rw [if_neg (by decide), if_neg (by omega)]
            cases pages with
            | nil => rfl
            | cons page' pages => rfl
  · refine .inl ⟨hallowed, ?_⟩
    rw [if_neg hallowed, error_bind]

/-- `vmm_map_pages_loc`, as long as the monitor or the caller keeps it below the stack region: it adds
pages until one is mapped already. -/
theorem AddressSpace.mapPagesLoc {mapped : Bool} (h : AddressSpace role K m) (hnodup : pages.Nodup)
    (hloose : ∀ f ∈ pages, Loose role m f)
    (hbelow : ∀ j < pages.length, policy (.map (loc + 0x1000 * j)) → loc + 0x1000 * j < 767 * 0x400000)
    (hmap : vmmMapPagesLoc policy m loc 0x7 pages = .ok (mapped, m')) :
    ∃ role' n, Extends K {f | f ∈ pages} role m role' m' ∧ AddressSpace role' K m' ∧
      PagesAdded loc n m m' ∧ (∀ j ≤ n, j < pages.length → policy (.map (loc + 0x1000 * j))) ∧
      ((mapped = true ∧ n = pages.length) ∨
        (mapped = false ∧ n < pages.length ∧ pageEntry m m.cr3 (loc + 0x1000 * n) ≠ none)) := by
  induction pages generalizing m role loc with
  | nil =>
      obtain ⟨rfl, rfl⟩ := Prod.mk.inj (Except.ok.inj hmap)
      exact ⟨role, 0, .refl h.owned, h, .zero loc m, fun _ _ hj => absurd hj (Nat.not_lt_zero _),
        .inl ⟨rfl, rfl⟩⟩
  | cons page pages ih =>
      rw [List.length_cons] at hbelow ⊢
      rw [List.nodup_cons] at hnodup
      have hfirst := hloose page List.mem_cons_self
      obtain ⟨-, hstop⟩ | ⟨hallowed, ⟨e, -, hstop⟩ | ⟨hpresent, hstop⟩ |
        ⟨role₁, m₁, hnext, hnone, hadded, hext₁, h₁⟩⟩ :=
        h.mapPagesLoc_cons pages hfirst (hbelow 0 (Nat.succ_pos _))
      · cases hstop.symm.trans hmap
      · cases hstop.symm.trans hmap
      · obtain ⟨rfl, rfl⟩ := Prod.mk.inj (Except.ok.inj (hstop.symm.trans hmap))
        refine ⟨role, 0, .refl h.owned, h, .zero loc _, fun j hj _ => ?_,
          .inr ⟨rfl, Nat.succ_pos _, hpresent⟩⟩
        obtain rfl := Nat.le_zero.mp hj
        exact hallowed
      · have hrest : ∀ f ∈ pages, f ∉ ({page} : Set ℕ) := fun f hf hc => hnodup.1 (hc ▸ hf)
        have hsub : ({page} : Set ℕ) ⊆ {f | f ∈ page :: pages} := by
          rintro f rfl
          exact List.mem_cons_self
        have hbelow' := below_tail hbelow
        obtain ⟨role', n, hext', h', hpages, hchecked, hend⟩ := ih h₁ hnodup.2
          (fun f hf => hext₁.loose f (hrest f hf) (hloose f (List.mem_cons_of_mem _ hf))) hbelow'
          (hnext.symm.trans hmap)
        have hlt : ∀ j ≤ n, j < pages.length → loc + 0x1000 + 0x1000 * j < kernelStart := by
          intro j hj hlen
          have hnext := hbelow' j hlen (hchecked j hj hlen)
          unfold kernelStart
          omega
        have hlast : n ≤ pages.length := by
          cases hend with
          | inl hall => exact Nat.le_of_eq hall.2
          | inr hpart => exact Nat.le_of_lt hpart.2.1
        refine ⟨role', n + 1, (hext₁.mono hsub).trans
          (hext'.mono fun f hf => List.mem_cons_of_mem _ hf), h', .cons hadded hnone hpages ?_, ?_, ?_⟩
        · intro j hj
          exact hlt j (Nat.le_of_lt hj) (Nat.lt_of_lt_of_le hj hlast)
        · intro j hj hlen
          cases j with
          | zero => exact hallowed
          | succ j =>
              rw [← page_tail]
              exact hchecked j (Nat.le_of_succ_le_succ hj) (Nat.lt_of_succ_lt_succ hlen)
        · cases hend with
          | inl hall => exact .inl ⟨hall.1, congrArg (· + 1) hall.2⟩
          | inr hpart =>
              obtain ⟨hfalse, hn, hpresent⟩ := hpart
              refine .inr ⟨hfalse, Nat.succ_lt_succ hn, ?_⟩
              rw [hadded.cr3, hadded.others _ (hlt n (Nat.le_refl n) hn) (by omega), page_tail]
                at hpresent
              exact hpresent

/-- The monitor stops `vmm_map_pages_loc` at an address that it rejects, the pages before it being
mapped. -/
theorem AddressSpace.mapPagesLoc_error {e : Fault} (h : AddressSpace role K m) (hnodup : pages.Nodup)
    (hloose : ∀ f ∈ pages, Loose role m f)
    (hbelow : ∀ j < pages.length, policy (.map (loc + 0x1000 * j)) → loc + 0x1000 * j < 767 * 0x400000)
    (hmap : vmmMapPagesLoc policy m loc 0x7 pages = .error e) :
    IsPanic e ∨ (e = .wildAccess ∧ ∃ n < pages.length, ¬policy (.map (loc + 0x1000 * n)) ∧
      ∀ i < n, policy (.map (loc + 0x1000 * i)) ∧ pageEntry m m.cr3 (loc + 0x1000 * i) = none) := by
  induction pages generalizing m role loc with
  | nil => cases hmap
  | cons page pages ih =>
      rw [List.length_cons] at hbelow ⊢
      rw [List.nodup_cons] at hnodup
      have hfirst := hloose page List.mem_cons_self
      obtain ⟨hstop, heq⟩ | ⟨hallowed, ⟨e, hpanic, heq⟩ | ⟨-, heq⟩ |
        ⟨role₁, m₁, hnext, hnone, hadded, hext₁, h₁⟩⟩ :=
        h.mapPagesLoc_cons pages hfirst (hbelow 0 (Nat.succ_pos _))
      · obtain rfl := Except.error.inj (heq.symm.trans hmap)
        exact .inr ⟨rfl, 0, Nat.succ_pos _, hstop, fun i hi => absurd hi (Nat.not_lt_zero i)⟩
      · obtain rfl := Except.error.inj (heq.symm.trans hmap)
        exact .inl hpanic
      · cases heq.symm.trans hmap
      · have hrest : ∀ f ∈ pages, f ∉ ({page} : Set ℕ) := fun f hf hc => hnodup.1 (hc ▸ hf)
        have hbelow' := below_tail hbelow
        apply (ih h₁ hnodup.2 (fun f hf => hext₁.loose f (hrest f hf)
          (hloose f (List.mem_cons_of_mem _ hf))) hbelow' (hnext.symm.trans hmap)).imp_right
        rintro ⟨rfl, n, hn, hstop, hbefore⟩
        rw [page_tail] at hstop
        refine ⟨rfl, n + 1, Nat.succ_lt_succ hn, hstop, fun i hi => ?_⟩
        cases i with
        | zero => exact ⟨hallowed, hnone⟩
        | succ i =>
            obtain ⟨hpass, hentry⟩ := hbefore i (Nat.lt_of_succ_lt_succ hi)
            have hlt := hbelow' i (by omega) hpass
            rw [hadded.cr3, hadded.others _ (by unfold kernelStart; omega) (by omega), page_tail] at hentry
            rw [page_tail] at hpass
            exact ⟨hpass, hentry⟩

end GalaxyOS
