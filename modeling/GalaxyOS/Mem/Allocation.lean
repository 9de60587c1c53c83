import Mathlib.Data.Set.Insert
import GalaxyOS.Lib.Transition
import GalaxyOS.Mem.Ownership

/-! # What the memory functions do with frames

`Extends K L role m role' m'` says that a function which was free to use the frames `L` has led
from the memory `m` to `m'`: all frames have owners again, and the page tables, directories and
pages of the kernel heap outside `L` are what they were.  Every function of `pmm.c`, `vmm.c` and
`liballoc-vmm.c` that the kernel calls has one lemma of this form.

The lemmas for callers are `vmmMapPageF_ok`, `popMap_ok`, `liballocAlloc_ok` and `vmmSwitchStack_ok`; each
is a sequence of elementary changes, put together with `Extends.trans`. -/

namespace GalaxyOS

open Transition

structure Extends (K : ℕ → ℕ) (L : Set ℕ) (role : ℕ → Role) (m : Mem) (role' : ℕ → Role)
    (m' : Mem) : Prop where
  owned : Owned role' K m'
  kept : ∀ f, f ∉ L → (role f = .boot ∨ ∃ a u, role f = .kern a u) → role' f = role f
  loose : ∀ f, f ∉ L → Loose role m f → Loose role' m' f
  dirs : ∀ d, d ∉ L → Directory role K m d → Directory role' K m' d
  cr3 : m'.cr3 = m.cr3

variable {role role' role₁ role₂ : ℕ → Role} {K : ℕ → ℕ} {m m' m₁ m₂ : Mem} {L L' : Set ℕ}

theorem Extends.refl (h : Owned role K m) : Extends K L role m role m :=
  ⟨h, fun _ _ _ => rfl, fun _ _ hf => hf, fun _ _ hd => hd, rfl⟩

theorem Extends.trans (h : Extends K L role m role₁ m₁) (h' : Extends K L role₁ m₁ role₂ m₂) :
    Extends K L role m role₂ m₂ := by
  refine ⟨h'.owned, fun f hf hr => ?_, fun f hf hl => h'.loose f hf (h.loose f hf hl),
    fun d hd hdir => h'.dirs d hd (h.dirs d hd hdir), h'.cr3.trans h.cr3⟩
  have hstep : role₁ f = role f := h.kept f hf hr
  exact (h'.kept f hf (by rw [hstep]; exact hr)).trans hstep

theorem Extends.mono (h : Extends K L role m role' m') (hL : L ⊆ L') :
    Extends K L' role m role' m' :=
  ⟨h.owned, fun f hf => h.kept f fun hc => hf (hL hc), fun f hf => h.loose f fun hc => hf (hL hc),
    fun d hd => h.dirs d fun hc => hd (hL hc), h.cr3⟩

/-- Nobody outside can tell that a function has used frames from the free stack. -/
theorem Extends.of_stack (h : Extends K L role m role' m') (hm : Owned role K m)
    (hL : ∀ f ∈ L, f ∈ m.pmemStack) : Extends K ∅ role m role' m' := by
  have hout : ∀ f, role f ≠ .free → f ∉ L := fun f hf hc => hf (hm.free f (hL f hc))
  refine ⟨h.owned, fun f _ hr => h.kept f (hout f ?_) hr, fun f _ hl => ?_, fun d _ hd => ?_, h.cr3⟩
  · rcases hr with hr | ⟨a, u, hr⟩ <;> simp [hr]
  · exact h.loose f (fun hc => hl.2 (hL f hc)) hl
  · refine h.dirs d (hout d ?_) hd
    rcases hd.role with hr | ⟨a, pid, hr⟩ <;> simp [hr]

/-- The directory that is loaded is not touched. -/
theorem Extends.loaded (h : Extends K L role m role' m') (hcr3 : Directory role K m m.cr3)
    (hL : m.cr3 ∉ L) : Directory role' K m' m'.cr3 := by
  rw [h.cr3]
  exact h.dirs _ hL hcr3

/-- A loose frame is neither loaded nor a directory. -/
theorem Directory.ne_loose {d f : ℕ} (h : Directory role K m d) (hf : Loose role m f) :
    d ∉ ({f} : Set ℕ) :=
  h.ne_of_role (by rw [hf.1]; simp) (fun a pid => by rw [hf.1]; simp)

/-! ### Elementary changes -/

theorem Loose.update {f g : ℕ} {r : Role} (h : Loose role m g) (hne : g ≠ f)
    (hstack : m'.pmemStack = m.pmemStack) : Loose (Function.update role f r) m' g :=
  ⟨by rw [Function.update_of_ne hne, h.1], by rw [hstack]; exact h.2⟩

theorem pmmAllocPages_eq {n : ℕ} {pages : List ℕ} (halloc : pmmAllocPages m n = .ok (pages, m')) :
    m.pmemStack = pages ++ m'.pmemStack ∧ m' = { m with pmemStack := m'.pmemStack } ∧
      pages.length = n := by
  induction n generalizing m m' pages with
  | zero =>
      simp only [pmmAllocPages, Except.ok.injEq, Prod.mk.injEq] at halloc
      obtain ⟨rfl, rfl⟩ := halloc
      exact ⟨rfl, rfl, rfl⟩
  | succ n ih =>
      simp only [pmmAllocPages, bind_ok, Prod.exists, Except.ok.injEq, Prod.mk.injEq] at halloc
      obtain ⟨page, m₁, hpop, rest, m₂, hrest, rfl, rfl⟩ := halloc
      unfold pmmAllocPage at hpop
      cases hstack : m.pmemStack with
      | nil => simp [hstack] at hpop
      | cons g stack =>
          simp only [hstack, Except.ok.injEq, Prod.mk.injEq] at hpop
          obtain ⟨rfl, rfl⟩ := hpop
          obtain ⟨hsplit, heq, hlen⟩ := ih hrest
          refine ⟨?_, by rw [heq], by rw [List.length_cons, hlen]⟩
          rw [List.cons_append, ← hsplit]

/-- Frames that are taken off the stack are loose. -/
theorem Extends.pops {n : ℕ} {pages : List ℕ} (h : Owned role K m)
    (halloc : pmmAllocPages m n = .ok (pages, m')) :
    pages.length = n ∧ pages.Nodup ∧ (∀ f ∈ pages, f ∈ m.pmemStack ∧ Loose role m' f) ∧
      Extends K ∅ role m role m' := by
  obtain ⟨hsplit, heq, hlen⟩ := pmmAllocPages_eq halloc
  obtain ⟨hown, hloose⟩ := h.pop hsplit
  rw [← heq] at hown hloose
  have hmem : ∀ f ∈ pages, f ∈ m.pmemStack := fun f hf => hsplit ▸ List.mem_append_left _ hf
  have hsub : ∀ f ∈ m'.pmemStack, f ∈ m.pmemStack := fun f hf =>
    hsplit ▸ List.mem_append_right _ hf
  have hnodup := h.nodup
  rw [hsplit, List.nodup_append] at hnodup
  have hrow : ∀ d, m'.tables d = m.tables d := by
    rw [heq]
    exact fun _ => rfl
  refine ⟨hlen, hnodup.1, fun f hf => ⟨hmem f hf, hloose f hf⟩, hown, fun _ _ _ => rfl,
    fun e _ he => ⟨he.1, fun hc => he.2 (hsub e hc)⟩,
    fun d _ hd => hd.mono (hrow d) fun _ _ => rfl, by rw [heq]⟩

theorem Extends.pop {f : ℕ} (h : Owned role K m) (hpop : pmmAllocPage m = .ok (f, m')) :
    f ∈ m.pmemStack ∧ Loose role m' f ∧ Extends K ∅ role m role m' := by
  have halloc : pmmAllocPages m 1 = .ok ([f], m') := by
    simp only [pmmAllocPages, hpop, ok_bind]
  obtain ⟨-, -, hpages, hext⟩ := Extends.pops h halloc
  obtain ⟨hmem, hloose⟩ := hpages f (List.mem_singleton_self f)
  exact ⟨hmem, hloose, hext⟩

theorem Extends.push {f : ℕ} (h : Owned role K m) (hf : Loose role m f) :
    Extends K {f} role m role (pmmFreePage m f) := by
  refine ⟨h.push hf, fun _ _ _ => rfl, fun g hg hl => ⟨hl.1, fun hc => ?_⟩,
    fun d _ hd => hd.mono rfl fun _ _ => rfl, rfl⟩
  rcases List.mem_cons.mp hc with hc | hc
  · exact hg hc
  · exact hl.2 hc

theorem Extends.mapUser {T a i f fl : ℕ} (h : Owned role K m) (hT : role T = .kern a .table)
    (hf : Loose role m f) : Extends K {f} role m (Function.update role f (.user T i))
      (m.setEntry T i (some ⟨f, fl⟩)) := by
  have hkept : ∀ g, role g ≠ .free → Function.update role f (.user T i) g = role g := fun g hg =>
    Function.update_of_ne (role_ne hf.1 hg) _ _
  have hfixed : ∀ g, (role g = .boot ∨ ∃ a u, role g = .kern a u) →
      Function.update role f (.user T i) g = role g := fun g hg =>
    hkept g (by rcases hg with hg | ⟨b, u, hg⟩ <;> simp [hg])
  refine ⟨h.mapUser hT hf, fun g _ => hfixed g, fun g hg hl => hl.update hg rfl,
    fun d _ hd => hd.mono ?_ hfixed, rfl⟩
  exact setEntry_row (hd.ne_of_role (by rw [hT]; simp) fun b pid => by rw [hT]; simp) m i _

theorem Extends.mapKernel {f fl b : ℕ} (h : Owned role K m) (hf : Loose role m f)
    (hend : m.endMappedKmemory + 0x1000 < heapLimit) :
    Extends K {f} role m (Function.update role f (.kern m.endMappedKmemory (.block b)))
      { m.setEntry (K (pdindex m.endMappedKmemory)) (ptindex m.endMappedKmemory) (some ⟨f, fl⟩) with
        endMappedKmemory := m.endMappedKmemory + 0x1000 } := by
  have hrange := h.heap.pdindex
  have hfixed : ∀ g, (role g = .boot ∨ ∃ a u, role g = .kern a u) →
      Function.update role f (.kern m.endMappedKmemory (.block b)) g = role g := fun g hg =>
    Function.update_of_ne (role_ne hf.1 (by rcases hg with hg | ⟨c, u, hg⟩ <;> simp [hg])) _ _
  refine ⟨h.mapKernel hf hend, fun g _ => hfixed g, fun g hg hl => hl.update hg rfl,
    fun d _ hd => hd.mono ?_ hfixed, rfl⟩
  exact setEntry_row (hd.notKernel _ hrange.1 hrange.2).symm m _ _

theorem Extends.retype {f a b : ℕ} {u : Use} {row : ℕ → Option Pte} (h : Owned role K m)
    (hf : role f = .kern a (.block b)) (htable : u = .table → ∀ i, row i = none)
    (hdir : ∀ pid, u = .dir pid →
      Directory (Function.update role f (.kern a u)) K (m.setRow f row) f) :
    Extends K {f} role m (Function.update role f (.kern a u)) (m.setRow f row) :=
  ⟨h.retype hf htable hdir, fun _ hg _ => Function.update_of_ne hg _ _,
    fun _ hg hl => hl.update hg rfl,
    fun _ hd hdir => hdir.retype hf (Function.update_of_ne hd _ _) hd, rfl⟩

theorem Extends.setEntry {d T a i : ℕ} (h : Owned role K m) (hd : Directory role K m d)
    (hT : role T = .kern a .table) (hi : i < 768) (fl : ℕ) :
    Extends K ∅ role m role (m.setEntry d i (some ⟨T, fl⟩)) :=
  ⟨h.setEntry hd hT hi, fun _ _ _ => rfl, fun _ _ hl => hl, fun _ _ hd' => hd'.setEntry hT hi, rfl⟩

theorem Extends.unmapKernel {f a : ℕ} {u : Use} (h : Owned role K m) (hf : role f = .kern a u)
    (hu : u ≠ .table) : Extends K {f} role m (Function.update role f .free)
      ((pmmFreePage m f).setEntry (K (pdindex a)) (ptindex a) none) := by
  have hrange := (h.home f a u hf).1.pdindex
  refine ⟨h.unmapKernel hf hu, fun _ hg _ => Function.update_of_ne hg _ _, fun g hg hl => ?_,
    fun d hd hdir => ?_, rfl⟩
  · refine ⟨by rw [Function.update_of_ne hg, hl.1], fun hc => ?_⟩
    rcases List.mem_cons.mp hc with hc | hc
    · exact hg hc
    · exact hl.2 hc
  · exact hdir.release hf hu
      (setEntry_row (hdir.notKernel _ hrange.1 hrange.2).symm (pmmFreePage m f) _ _) hd

theorem Extends.unmapUser {T a i : ℕ} {pte : Pte} (h : Owned role K m)
    (hT : role T = .kern a .table) (hpte : m.tables T i = some pte) :
    Extends K ∅ role m (Function.update role pte.frame .free)
      ((pmmFreePage m pte.frame).setEntry T i none) := by
  have hf := h.userEntry T a hT i pte hpte
  have hfixed : ∀ g, (role g = .boot ∨ ∃ a u, role g = .kern a u) →
      Function.update role pte.frame .free g = role g := fun g hg =>
    Function.update_of_ne (role_ne hf (by rcases hg with hg | ⟨c, u, hg⟩ <;> simp [hg])) _ _
  refine ⟨h.unmapUser hT hpte, fun g _ => hfixed g, fun g _ hl => ?_, fun d _ hd => hd.mono ?_ hfixed,
    rfl⟩
  · have hne : g ≠ pte.frame := role_ne hf (by rw [hl.1]; simp)
    refine ⟨by rw [Function.update_of_ne hne, hl.1], fun hc => ?_⟩
    rcases List.mem_cons.mp hc with hc | hc
    · exact hne hc
    · exact hl.2 hc
  · exact setEntry_row (hd.ne_of_role (by rw [hT]; simp) fun b pid => by rw [hT]; simp)
      (pmmFreePage m pte.frame) i _

/-! ### Addresses of the kernel heap -/

theorem mkPte_eq {f : ℕ} (hf : f % 0x1000 = 0) (fl : ℕ) : mkPte f fl = ⟨f, fl⟩ := by
  have hframe := mkPte_frame hf fl
  have hflags : (mkPte f fl).flags = fl := by simp [mkPte, hf]
  calc mkPte f fl = ⟨(mkPte f fl).frame, (mkPte f fl).flags⟩ := rfl
    _ = ⟨f, fl⟩ := by rw [hframe, hflags]

theorem Owned.aligned {f a : ℕ} {u : Use} (h : Owned role K m) (hf : role f = .kern a u) :
    f % 0x1000 = 0 ∧ f ≠ 0 := h.frames f (by rw [hf]; simp)

theorem Owned.loose_aligned {f : ℕ} (h : Owned role K m) (hf : Loose role m f) : f % 0x1000 = 0 :=
  (h.frames f (by rw [hf.1]; simp)).1

/-- Every directory shows the kernel heap. -/
theorem Owned.translate {f a : ℕ} {u : Use} (h : Owned role K m)
    (hcr3 : Directory role K m m.cr3) (hf : role f = .kern a u) : vmmGetPhysaddr m a = f := by
  obtain ⟨ha, -, fl, hhome⟩ := h.home f a u hf
  obtain ⟨fl', hpde⟩ := hcr3.kernel _ ha.pdindex.1 ha.pdindex.2
  unfold vmmGetPhysaddr
  simp only [hpde, hhome, ha.2.2, Nat.add_zero]

/-- Mapping a loose frame at the end of the kernel heap never fails. -/
theorem heapPage_ok {f n : ℕ} {r : Int} (b : ℕ) (h : Owned role K m)
    (hcr3 : Directory role K m m.cr3) (hf : Loose role m f)
    (hmap : vmmMapPageF n m f m.endMappedKmemory 0x3 false = .ok (r, m'))
    (hend : m'.endMappedKmemory + 0x1000 < heapLimit) :
    r = 0 ∧ m'.endMappedKmemory = m.endMappedKmemory ∧
      Extends K {f} role m (Function.update role f (.kern m.endMappedKmemory (.block b)))
        { m' with endMappedKmemory := m'.endMappedKmemory + 0x1000 } := by
  cases n with
  | zero => simp [vmmMapPageF] at hmap
  | succ n =>
      obtain ⟨fl, hpde⟩ := hcr3.kernel _ h.heap.pdindex.1 h.heap.pdindex.2
      have hnone := h.fresh _ h.heap (Nat.le_refl _)
      simp only [vmmMapPageF, hpde, mapEntry, hnone, Except.ok.injEq, Prod.mk.injEq] at hmap
      obtain ⟨rfl, rfl⟩ := hmap
      rw [mkPte_eq (h.loose_aligned hf)]
      exact ⟨rfl, rfl, .mapKernel h hf hend⟩

/-! ### User pages -/

theorem mapEntry_ok {T a f virtualaddr flags : ℕ} {r : Int} (h : Owned role K m)
    (hT : role T = .kern a .table) (hf : Loose role m f)
    (hmap : mapEntry m T f virtualaddr flags false = (r, m')) :
    ∃ role', Extends K {f} role m role' m' ∧ (r ≠ 0 → Loose role' m' f) := by
  unfold mapEntry at hmap
  cases hpte : m.tables T (ptindex virtualaddr) with
  | some pte =>
      simp only [hpte, Bool.not_false, ↓reduceIte, Prod.mk.injEq] at hmap
      obtain ⟨-, rfl⟩ := hmap
      exact ⟨role, .refl h, fun _ => hf⟩
  | none =>
      simp only [hpte, Prod.mk.injEq] at hmap
      obtain ⟨rfl, rfl⟩ := hmap
      rw [mkPte_eq (h.loose_aligned hf)]
      exact ⟨_, .mapUser h hT hf, fun hc => absurd rfl hc⟩

/-- A loose frame becomes an empty page table at the end of the kernel heap. -/
theorem newTable_ok {f n : ℕ} {r : Int} (h : Owned role K m) (hcr3 : Directory role K m m.cr3)
    (hf : Loose role m f) (hmap : vmmMapPageF n m f m.endMappedKmemory 0x3 false = .ok (r, m'))
    (hend : m'.endMappedKmemory + 0x1000 < heapLimit) :
    vmmGetPhysaddr { m' with endMappedKmemory := m'.endMappedKmemory + 0x1000 }
      m.endMappedKmemory = f ∧
    ∃ role', role' f = .kern m.endMappedKmemory .table ∧ Extends K {f} role m role'
      (({ m' with endMappedKmemory := m'.endMappedKmemory + 0x1000 } : Mem).clearTable f) := by
  obtain ⟨-, -, hext⟩ := heapPage_ok m.endMappedKmemory h hcr3 hf hmap hend
  have hself : Function.update role f (.kern m.endMappedKmemory (.block m.endMappedKmemory)) f =
      .kern m.endMappedKmemory (.block m.endMappedKmemory) := Function.update_self ..
  refine ⟨hext.owned.translate (hext.loaded hcr3 (hcr3.ne_loose hf)) hself, _, Function.update_self ..,
    hext.trans (.retype (u := .table) hext.owned hself (fun _ _ => rfl) fun pid hc => ?_)⟩
  cases hc

/-- `vmm_map_page` on a user address either maps the loose frame or leaves it loose. -/
theorem vmmMapPageF_ok {f n virtualaddr flags : ℕ} {r : Int} (h : Owned role K m)
    (hcr3 : Directory role K m m.cr3) (hf : Loose role m f) (ha : pdindex virtualaddr < 768)
    (hmap : vmmMapPageF n m f virtualaddr flags false = .ok (r, m')) :
    ∃ role', Extends K {f} role m role' m' ∧ (r ≠ 0 → Loose role' m' f) := by
  cases n with
  | zero => simp [vmmMapPageF] at hmap
  | succ n =>
      cases hpde : m.tables m.cr3 (pdindex virtualaddr) with
      | some pde =>
          simp only [vmmMapPageF, hpde, Except.ok.injEq] at hmap
          obtain ⟨a, hT⟩ := hcr3.user _ ha pde hpde
          exact mapEntry_ok h hT hf hmap
      | none =>
          simp only [vmmMapPageF, hpde, bind_ok, Prod.exists] at hmap
          obtain ⟨page, m₁, hpop, r₂, m₂, hpage, hmap⟩ := hmap
          split_ifs at hmap with hr hend
          obtain ⟨hmem, hloose, hext₁⟩ := Extends.pop h hpop
          have hcr3₁ := hext₁.loaded hcr3 (Set.notMem_empty _)
          obtain ⟨haddr, role₄, hT, hext₄⟩ := newTable_ok hext₁.owned hcr3₁ hloose hpage
            (Nat.lt_of_not_le hend)
          have hne : f ∉ ({page} : Set ℕ) := fun hc => hf.2 (hc ▸ hmem)
          have halign : page % 0x1000 = 0 := (hext₄.owned.aligned hT).1
          have hext : Extends K ∅ role m role₄ _ :=
            ((hext₁.mono (Set.empty_subset _)).trans hext₄).of_stack h (by simpa using hmem)
          have hcr3₄ := hext.loaded hcr3 (Set.notMem_empty _)
          rw [haddr, mkPte_eq halign] at hmap
          have hext₅ := hext.trans (.setEntry hext.owned hcr3₄ hT ha 0x7)
          have hf₅ := hext₅.loose f (Set.notMem_empty _) hf
          obtain ⟨role', hext', hr'⟩ := mapEntry_ok hext₅.owned hT hf₅ (Except.ok.inj hmap)
          exact ⟨role', (hext₅.mono (Set.empty_subset _)).trans hext', hr'⟩

theorem vmmMapPage_ok {f virtualaddr flags : ℕ} {r : Int} (h : Owned role K m)
    (hcr3 : Directory role K m m.cr3) (hf : Loose role m f) (ha : pdindex virtualaddr < 768)
    (hmap : vmmMapPage m f virtualaddr flags false = .ok (r, m')) :
    ∃ role', Extends K {f} role m role' m' ∧ (r ≠ 0 → Loose role' m' f) :=
  vmmMapPageF_ok h hcr3 hf ha hmap

/-- A frame from the stack is mapped for a user; it is lost if the page was mapped before. -/
theorem popMap_ok {f virtualaddr flags : ℕ} {r : Int} (h : Owned role K m)
    (hcr3 : Directory role K m m.cr3) (ha : pdindex virtualaddr < 768)
    (hpop : pmmAllocPage m = .ok (f, m₁))
    (hmap : vmmMapPage m₁ f virtualaddr flags false = .ok (r, m')) :
    f ∈ m.pmemStack ∧ ∃ role', Extends K ∅ role m role' m' ∧ (r ≠ 0 → Loose role' m' f) := by
  obtain ⟨hmem, hloose, hext₁⟩ := Extends.pop h hpop
  obtain ⟨role', hext', hr⟩ := vmmMapPage_ok hext₁.owned
    (hext₁.loaded hcr3 (Set.notMem_empty _)) hloose ha hmap
  exact ⟨hmem, role', ((hext₁.mono (Set.empty_subset _)).trans hext').of_stack h (by simpa using hmem),
    hr⟩

/-! ### The kernel page allocator -/

/-- The `n` pages from `start` on belong to the block `b`. -/
def BlockAt (role : ℕ → Role) (b start n : ℕ) : Prop :=
  ∀ i < n, ∃ f, role f = .kern (start + 0x1000 * i) (.block b)

theorem BlockAt.extends {b start n : ℕ} (h : BlockAt role b start n)
    (hext : Extends K ∅ role m role' m') : BlockAt role' b start n := by
  intro i hi
  obtain ⟨f, hf⟩ := h i hi
  exact ⟨f, (hext.kept f (Set.notMem_empty _) (.inr ⟨_, _, hf⟩)).trans hf⟩

theorem BlockAt.append {b start n k : ℕ} (h : BlockAt role b start n)
    (h' : BlockAt role b (start + 0x1000 * n) k) : BlockAt role b start (n + k) := by
  intro i hi
  by_cases hn : i < n
  · exact h i hn
  · obtain ⟨f, hf⟩ := h' (i - n) (by omega)
    refine ⟨f, hf.trans ?_⟩
    rw [show start + 0x1000 * n + 0x1000 * (i - n) = start + 0x1000 * i by omega]

/-- A page at the end of the kernel heap has never been mapped. -/
theorem vmmMapPage_end {f : ℕ} {r : Int} (h : Owned role K m) (hcr3 : Directory role K m m.cr3)
    (hmap : vmmMapPage m f m.endMappedKmemory 0x3 false = .ok (r, m')) : r = 0 := by
  obtain ⟨fl, hpde⟩ := hcr3.kernel _ h.heap.pdindex.1 h.heap.pdindex.2
  have hnone := h.fresh _ h.heap (Nat.le_refl _)
  simp only [vmmMapPage, vmmMapPageF, hpde, mapEntry, hnone, Except.ok.injEq,
    Prod.mk.injEq] at hmap
  exact hmap.1.symm

theorem blockAt_of_mem {b start n : ℕ} {fs : List ℕ}
    (h : ∀ i < n, ∃ f ∈ fs, role f = .kern (start + 0x1000 * i) (.block b)) :
    BlockAt role b start n := by
  intro i hi
  obtain ⟨f, -, hf⟩ := h i hi
  exact ⟨f, hf⟩

/-- Loose frames are mapped one after the other at the end of the kernel heap. -/
theorem vmmMapPagesKLoop_ok {pages : List ℕ} {mapped : Bool} (b : ℕ) (h : Owned role K m)
    (hcr3 : Directory role K m m.cr3) (hnodup : pages.Nodup) (hloose : ∀ f ∈ pages, Loose role m f)
    (hloop : vmmMapPagesKLoop m pages = .ok (mapped, m')) :
    mapped = true ∧ m'.endMappedKmemory = m.endMappedKmemory + 0x1000 * pages.length ∧
      ∃ role', Extends K {f | f ∈ pages} role m role' m' ∧
        ∀ i < pages.length, ∃ f ∈ pages, role' f = .kern (m.endMappedKmemory + 0x1000 * i) (.block b) := by
  induction pages generalizing m role with
  | nil =>
      simp only [vmmMapPagesKLoop, Except.ok.injEq, Prod.mk.injEq] at hloop
      obtain ⟨rfl, rfl⟩ := hloop
      exact ⟨rfl, rfl, role, .refl h, by simp⟩
  | cons page pages ih =>
      simp only [vmmMapPagesKLoop, bind_ok, Prod.exists] at hloop
      obtain ⟨r, m₁, hmap, hloop⟩ := hloop
      split_ifs at hloop with hr hend
      · have hzero := vmmMapPage_end h hcr3 hmap
        omega
      · have hpage := hloose page List.mem_cons_self
        obtain ⟨-, hsame, hext₁⟩ := heapPage_ok b h hcr3 hpage hmap (Nat.lt_of_not_le hend)
        rw [List.nodup_cons] at hnodup
        have hrest : ∀ f ∈ pages, f ∉ ({page} : Set ℕ) := fun f hf hc => hnodup.1 (hc ▸ hf)
        obtain ⟨hok, hlast, role', hext₂, hpages⟩ := ih hext₁.owned
          (hext₁.loaded hcr3 (hcr3.ne_loose hpage)) hnodup.2
          (fun f hf => hext₁.loose f (hrest f hf) (hloose f (List.mem_cons_of_mem _ hf))) hloop
        simp only [hsame] at hlast hpages
        refine ⟨hok, by rw [hlast, List.length_cons]; omega, role', ?_, ?_⟩
        · refine (hext₁.mono ?_).trans (hext₂.mono fun f hf => List.mem_cons_of_mem _ hf)
          rintro f rfl
          exact List.mem_cons_self
        · intro i hi
          cases i with
          | zero =>
              refine ⟨page, List.mem_cons_self, ?_⟩
              rw [hext₂.kept page hnodup.1 (.inr ⟨_, _, Function.update_self ..⟩),
                Function.update_self, Nat.mul_zero, Nat.add_zero]
          | succ i =>
              obtain ⟨f, hf, hrole⟩ := hpages i (Nat.lt_of_succ_lt_succ hi)
              refine ⟨f, List.mem_cons_of_mem _ hf, hrole.trans ?_⟩
              rw [Nat.mul_succ, Nat.add_assoc, Nat.add_comm 0x1000]

/-- A block of at most 1024 pages. -/
theorem liballocAllocSmall_ok {pages addr : ℕ} (b : ℕ) (h : Owned role K m)
    (hcr3 : Directory role K m m.cr3) (halloc : liballocAllocSmall m pages = .ok (addr, m')) :
    addr = (if pages = 0 then 0 else m.endMappedKmemory) ∧
      m'.endMappedKmemory = m.endMappedKmemory + 0x1000 * pages ∧
      ∃ role', Extends K ∅ role m role' m' ∧ ∀ i < pages, ∃ f ∈ m.pmemStack,
        role' f = .kern (m.endMappedKmemory + 0x1000 * i) (.block b) := by
  unfold liballocAllocSmall at halloc
  split_ifs at halloc with h0
  · simp only [Except.ok.injEq, Prod.mk.injEq] at halloc
    obtain ⟨rfl, rfl⟩ := halloc
    obtain rfl : pages = 0 := by omega
    exact ⟨rfl, rfl, role, .refl h, by simp⟩
  · simp only [vmmMapPagesK, bind_ok, Prod.exists, Except.ok.injEq, Prod.mk.injEq] at halloc
    obtain ⟨frames, m₁, hpop, mapped, m₂, hloop, rfl, rfl⟩ := halloc
    obtain ⟨hlen, hnodup, hframes, hext₁⟩ := Extends.pops h hpop
    have hend : m₁.endMappedKmemory = m.endMappedKmemory := by rw [(pmmAllocPages_eq hpop).2.1]
    obtain ⟨rfl, hlast, role', hext₂, hpages⟩ := vmmMapPagesKLoop_ok b hext₁.owned
      (hext₁.loaded hcr3 (Set.notMem_empty _)) hnodup (fun f hf => (hframes f hf).2) hloop
    rw [hlen, hend] at hlast hpages
    refine ⟨?_, hlast, role', ?_, fun i hi => ?_⟩
    · rw [if_pos rfl, hend, if_neg (Nat.pos_iff_ne_zero.mp (Nat.not_lt.mp h0))]
    · exact ((hext₁.mono (Set.empty_subset _)).trans hext₂).of_stack h fun f hf => (hframes f hf).1
    · obtain ⟨f, hf, hrole⟩ := hpages i hi
      exact ⟨f, (hframes f hf).1, hrole⟩

theorem liballocAllocMore_ok {n : ℕ} (b : ℕ) (h : Owned role K m) (hcr3 : Directory role K m m.cr3)
    (halloc : liballocAllocMore m n = .ok m') :
    m'.endMappedKmemory = m.endMappedKmemory + 0x1000 * (1024 * n) ∧
      ∃ role', Extends K ∅ role m role' m' ∧ BlockAt role' b m.endMappedKmemory (1024 * n) := by
  induction n generalizing m role with
  | zero =>
      simp only [liballocAllocMore, Except.ok.injEq] at halloc
      subst halloc
      exact ⟨rfl, role, .refl h, by simp [BlockAt]⟩
  | succ n ih =>
      simp only [liballocAllocMore, bind_ok, Prod.exists] at halloc
      obtain ⟨addr, m₁, hsmall, halloc⟩ := halloc
      obtain ⟨-, hend₁, role₁, hext₁, hblock₁⟩ := liballocAllocSmall_ok b h hcr3 hsmall
      obtain ⟨hend, role', hext', hblock'⟩ := ih hext₁.owned
        (hext₁.loaded hcr3 (Set.notMem_empty _)) halloc
      refine ⟨by omega, role', hext₁.trans hext', ?_⟩
      rw [Nat.mul_succ, Nat.add_comm]
      exact ((blockAt_of_mem hblock₁).extends hext').append (hend₁ ▸ hblock')

/-- `liballoc_alloc` returns the start of a block that is all new. -/
theorem liballocAlloc_ok {pages addr : ℕ} (h : Owned role K m) (hcr3 : Directory role K m m.cr3)
    (halloc : liballocAlloc m pages = .ok (addr, m')) :
    addr = (if pages = 0 then 0 else m.endMappedKmemory) ∧
      m'.endMappedKmemory = m.endMappedKmemory + 0x1000 * pages ∧
      ∃ role', Extends K ∅ role m role' m' ∧
        BlockAt role' m.endMappedKmemory m.endMappedKmemory pages := by
  unfold liballocAlloc at halloc
  split_ifs at halloc with hbig
  · simp only [bind_ok, Prod.exists, Except.ok.injEq, Prod.mk.injEq] at halloc
    obtain ⟨start, m₁, h1, m₂, h2, addr₃, m₃, h3, rfl, rfl⟩ := halloc
    obtain ⟨hstart, hend₁, role₁, hext₁, hblock₁⟩ :=
      liballocAllocSmall_ok m.endMappedKmemory h hcr3 h1
    have hcr3₁ := hext₁.loaded hcr3 (Set.notMem_empty _)
    obtain ⟨hend₂, role₂, hext₂, hblock₂⟩ :=
      liballocAllocMore_ok m.endMappedKmemory hext₁.owned hcr3₁ h2
    have hcr3₂ := hext₂.loaded hcr3₁ (Set.notMem_empty _)
    obtain ⟨-, hend₃, role₃, hext₃, hblock₃⟩ :=
      liballocAllocSmall_ok m.endMappedKmemory hext₂.owned hcr3₂ h3
    have hfirst := (blockAt_of_mem hblock₁).extends hext₂
    have hmost := (hfirst.append (hend₁ ▸ hblock₂)).extends hext₃
    have hlast : BlockAt role₃ m.endMappedKmemory
        (m.endMappedKmemory + 0x1000 * (1024 + 1024 * (pages / 1024 - 1))) (pages % 1024) := by
      rw [Nat.mul_add, ← Nat.add_assoc, ← hend₁, ← hend₂]
      exact blockAt_of_mem hblock₃
    refine ⟨by rw [hstart, if_neg (by omega), if_neg (by omega)], by omega, role₃,
      (hext₁.trans hext₂).trans hext₃, ?_⟩
    have htotal : 1024 + 1024 * (pages / 1024 - 1) + pages % 1024 = pages := by omega
    exact htotal ▸ hmost.append hlast
  · obtain ⟨haddr, hend, role', hext, hblock⟩ :=
      liballocAllocSmall_ok m.endMappedKmemory h hcr3 halloc
    exact ⟨haddr, hend, role', hext, blockAt_of_mem hblock⟩

/-- `liballoc_alloc(1)`: a frame of the stack becomes a page of the kernel heap. -/
theorem liballocAlloc_page {addr : ℕ} (h : Owned role K m) (hcr3 : Directory role K m m.cr3)
    (halloc : liballocAlloc m 1 = .ok (addr, m')) :
    ∃ f ∈ m.pmemStack, ∃ role', Extends K ∅ role m role' m' ∧ role' f = .kern addr (.block addr) ∧
      vmmGetPhysaddr m' addr = f := by
  have hsmall : liballocAllocSmall m 1 = .ok (addr, m') := by simpa [liballocAlloc] using halloc
  obtain ⟨rfl, -, role', hext, hblock⟩ := liballocAllocSmall_ok m.endMappedKmemory h hcr3 hsmall
  obtain ⟨f, hf, hrole⟩ := hblock 0 (by decide)
  rw [Nat.mul_zero, Nat.add_zero] at hrole
  exact ⟨f, hf, role', hext, hrole, hext.owned.translate (hext.loaded hcr3 (Set.notMem_empty _)) hrole⟩

/-- Frames of the stack are in use by nobody, so what becomes of them is no change to others. -/
theorem Extends.trans_of_stack {f : ℕ} (h : Extends K ∅ role m role₁ m₁)
    (h' : Extends K {f} role₁ m₁ role₂ m₂) (hm : Owned role K m) (hf : f ∈ m.pmemStack) :
    Extends K ∅ role m role₂ m₂ :=
  ((h.mono (Set.empty_subset _)).trans h').of_stack hm (by simpa using hf)

/-! ### Stack tables -/

theorem vmmMapStack_ok {stackpt : ℕ} (h : Owned role K m) (hcr3 : Directory role K m m.cr3)
    (hnew : vmmMapStack m = .ok (stackpt, m')) :
    ∃ role', Extends K ∅ role m role' m' ∧ ∃ F, role' F = .kern stackpt .table := by
  simp only [vmmMapStack, bind_ok, Prod.exists] at hnew
  obtain ⟨addr, m₁, halloc, hnew⟩ := hnew
  split_ifs at hnew with h0
  simp only [Except.ok.injEq, Prod.mk.injEq] at hnew
  obtain ⟨rfl, rfl⟩ := hnew
  obtain ⟨f, hf, role₁, hext, hrole, haddr⟩ := liballocAlloc_page h hcr3 halloc
  rw [haddr]
  refine ⟨_, hext.trans_of_stack (.retype (u := .table) hext.owned hrole (fun _ _ => rfl)
    fun pid hc => ?_) h hf, f, Function.update_self ..⟩
  cases hc

/-- Both addresses that `vmm_switch_stack` is given are pages of the kernel heap. -/
theorem vmmSwitchStack_ok {d F cr3Virt stackpdi stackpt : ℕ} {pid : Int} (h : Owned role K m)
    (hcr3 : Directory role K m m.cr3) (hd : role d = .kern cr3Virt (.dir pid))
    (hF : role F = .kern stackpt .table) (hi : stackpdi < 768)
    (hswitch : vmmSwitchStack m cr3Virt stackpdi stackpt = .ok m') :
    Extends K ∅ role m role m' := by
  unfold vmmSwitchStack at hswitch
  simp only [h.translate hcr3 hd, h.translate hcr3 hF, if_neg (h.aligned hd).2, Except.ok.injEq,
    mkPte_eq (h.aligned hF).1] at hswitch
  subst hswitch
  exact .setEntry h (h.dir d _ pid hd) hF hi 0x7

/-! ### Giving pages of the kernel heap back -/

/-- Freeing never moves the end of the kernel heap, and takes no frame. -/
theorem liballocFreeLoop_end (m : Mem) (addr n : ℕ) :
    (liballocFreeLoop m addr n).2.endMappedKmemory = m.endMappedKmemory ∧
      pmmAvailable m ≤ pmmAvailable (liballocFreeLoop m addr n).2 := by
  induction n generalizing m addr with
  | zero => exact ⟨rfl, Nat.le_refl _⟩
  | succ n ih =>
      have hunmap : ∀ (m : Mem) (a : ℕ),
          (vmmUnmapPage m a).2.endMappedKmemory = m.endMappedKmemory ∧
            pmmAvailable (vmmUnmapPage m a).2 = pmmAvailable m := by
        intro m a
        unfold vmmUnmapPage
        repeat' split
        all_goals exact ⟨rfl, rfl⟩
      have hfree : pmmAvailable (pmmFreePage m (vmmGetPhysaddr m addr)) = pmmAvailable m + 1 :=
        List.length_cons
      have hone := hunmap (pmmFreePage m (vmmGetPhysaddr m addr)) addr
      unfold liballocFreeLoop
      simp only
      split_ifs with h0
      · exact ⟨rfl, Nat.le_refl _⟩
      · cases hu : vmmUnmapPage (pmmFreePage m (vmmGetPhysaddr m addr)) addr with
        | mk done m₁ =>
            rw [hu] at hone
            cases done with
            | false => exact ⟨hone.1, by simp only at hone ⊢; omega⟩
            | true =>
                obtain ⟨hend, hav⟩ := ih m₁ (wrap32 (addr + 0x1000))
                exact ⟨hend.trans hone.1, by simp only at hone ⊢; omega⟩

/-- One round of `liballoc_free` on a page that is mapped. -/
theorem liballocFreeLoop_page {f a n : ℕ} {u : Use} (h : Owned role K m)
    (hcr3 : Directory role K m m.cr3) (hf : role f = .kern a u) :
    liballocFreeLoop m a (n + 1) = liballocFreeLoop
      ((pmmFreePage m f).setEntry (K (pdindex a)) (ptindex a) none) (a + 0x1000) n := by
  obtain ⟨ha, -, fl, hhome⟩ := h.home f a u hf
  obtain ⟨fl', hpde⟩ := hcr3.kernel _ ha.pdindex.1 ha.pdindex.2
  have hunmap : vmmUnmapPage (pmmFreePage m f) a =
      (true, (pmmFreePage m f).setEntry (K (pdindex a)) (ptindex a) none) := by
    simp only [vmmUnmapPage, pmmFreePage, hpde, hhome]
  have hwrap : wrap32 (a + 0x1000) = a + 0x1000 := by
    have hlt := ha.2.1
    unfold heapLimit at hlt
    unfold wrap32
    omega
  simp only [liballocFreeLoop, h.translate hcr3 hf, if_neg (h.aligned hf).2, hunmap, hwrap]

/-- The page of a directory is freed. -/
theorem liballocFree_dir {d a : ℕ} {pid : Int} (h : Owned role K m) (hcr3 : Directory role K m m.cr3)
    (hd : role d = .kern a (.dir pid)) :
    Extends K {d} role m (Function.update role d .free) (liballocFree m a 1).2 := by
  unfold liballocFree
  rw [liballocFreeLoop_page h hcr3 hd]
  exact .unmapKernel h hd (by simp)

/-- The frames of a block. -/
def blockFrames (role : ℕ → Role) (b : ℕ) : Set ℕ := {f | ∃ a, role f = .kern a (.block b)}

/-- A whole block is freed, page by page. -/
theorem liballocFreeLoop_ok {b start n : ℕ} (h : Owned role K m) (hcr3 : Directory role K m m.cr3)
    (hblock : BlockAt role b start n) :
    ∃ role', Extends K (blockFrames role b) role m role' (liballocFreeLoop m start n).2 := by
  induction n generalizing m role start with
  | zero => exact ⟨role, .refl h⟩
  | succ n ih =>
      obtain ⟨f, hf⟩ := hblock 0 (Nat.succ_pos n)
      rw [Nat.mul_zero, Nat.add_zero] at hf
      rw [liballocFreeLoop_page h hcr3 hf]
      have hext := Extends.unmapKernel h hf (by simp)
      have hsub : blockFrames (Function.update role f .free) b ⊆ blockFrames role b := by
        rintro g ⟨a, hg⟩
        exact ⟨a, (role_update hg (by simp)).2⟩
      have hcr3f : m.cr3 ∉ ({f} : Set ℕ) :=
        hcr3.ne_of_role (by rw [hf]; simp) fun a pid => by rw [hf]; simp
      have hrest : BlockAt (Function.update role f .free) b (start + 0x1000) n := by
        intro i hi
        obtain ⟨g, hg⟩ := hblock (i + 1) (Nat.succ_lt_succ hi)
        have hne : g ≠ f := by
          rintro rfl
          rw [hf] at hg
          have haddr := (Role.kern.inj hg).1
          omega
        refine ⟨g, ?_⟩
        rw [Function.update_of_ne hne, hg, Nat.mul_succ, Nat.add_assoc, Nat.add_comm 0x1000]
      obtain ⟨role', hext'⟩ := ih hext.owned (hext.loaded hcr3 hcr3f) hrest
      refine ⟨role', (hext.mono ?_).trans (hext'.mono hsub)⟩
      rintro g rfl
      exact ⟨start, hf⟩

end GalaxyOS
