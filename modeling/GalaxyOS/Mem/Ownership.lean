import GalaxyOS.Mem.Paging

/-! # Who owns a frame

Every frame that ever was on the free stack has one `Role`: it is free, it is mapped by one entry of
a user page table, or it is mapped at one page of the kernel heap.  A page of the kernel heap is a
block of its client, a page directory or a page table.  `Owned role K m` says that the memory `m`
agrees with the roles; `K i` is the page table that all directories share for the entry `i` of the
kernel half.

The first part of this file shows that the elementary changes of memory keep `Owned`, with the roles
they give to the frame concerned: `Owned.pop`, `Owned.mapUser`, `Owned.mapKernel`, `Owned.retype`,
`Owned.unmapKernel` and `Owned.push`.  Each of them rests on `Directory.mono`, which says what a
directory depends on. -/

namespace GalaxyOS

/-- The first page of the kernel heap: `end_mapped_kmemory` at the start.  The pages below it are
the window through which the boot code maps the first twelve megabytes, free or not. -/
def heapBase : ℕ := 0xC0C00000

/-- `PAGE_TABLE_ADDR`, behind the kernel heap. -/
def heapLimit : ℕ := 0xFFC00000

/-- What a page of the kernel heap holds. -/
inductive Use where
  | block (start : ℕ)
  | dir (pid : Int)
  | table
deriving DecidableEq

/-- What a frame is used for. -/
inductive Role where
  | boot
  | free
  | user (table i : ℕ)
  | kern (addr : ℕ) (use : Use)
deriving DecidableEq

/-- The address of a page of the kernel heap. -/
def HeapPage (a : ℕ) : Prop := heapBase ≤ a ∧ a < heapLimit ∧ a % 0x1000 = 0

/-- The page directory `d` shares the kernel half and maps itself, and the rest of its entries refer
to page tables. -/
structure Directory (role : ℕ → Role) (K : ℕ → ℕ) (m : Mem) (d : ℕ) : Prop where
  kernel : ∀ i, 768 ≤ i → i < 1023 → ∃ fl, m.tables d i = some ⟨K i, fl⟩
  self : ∃ fl, m.tables d 1023 = some ⟨d, fl⟩
  user : ∀ i < 768, ∀ pde, m.tables d i = some pde → ∃ a, role pde.frame = .kern a .table
  notKernel : ∀ i, 768 ≤ i → i < 1023 → K i ≠ d
  role : role d = .boot ∨ ∃ a pid, role d = .kern a (.dir pid)

structure Owned (role : ℕ → Role) (K : ℕ → ℕ) (m : Mem) : Prop where
  nodup : m.pmemStack.Nodup
  free : ∀ f ∈ m.pmemStack, role f = .free
  frames : ∀ f, role f ≠ .boot → f % 0x1000 = 0 ∧ f ≠ 0
  kernel : ∀ i, 768 ≤ i → i < 1023 → role (K i) = .boot
  kernelInj : ∀ i j, 768 ≤ i → i < 1023 → 768 ≤ j → j < 1023 → K i = K j → i = j
  heapEntry : ∀ a, HeapPage a → ∀ pte, m.tables (K (pdindex a)) (ptindex a) = some pte →
    ∃ u, role pte.frame = .kern a u
  home : ∀ f a u, role f = .kern a u → HeapPage a ∧ a < m.endMappedKmemory ∧
    ∃ fl, m.tables (K (pdindex a)) (ptindex a) = some ⟨f, fl⟩
  fresh : ∀ a, HeapPage a → m.endMappedKmemory ≤ a →
    m.tables (K (pdindex a)) (ptindex a) = none
  userEntry : ∀ T a, role T = .kern a .table → ∀ i pte, m.tables T i = some pte →
    role pte.frame = .user T i
  dir : ∀ d a pid, role d = .kern a (.dir pid) → Directory role K m d
  heap : HeapPage m.endMappedKmemory

/-- The frame is in nobody's hands but the caller's. -/
def Loose (role : ℕ → Role) (m : Mem) (f : ℕ) : Prop := role f = .free ∧ f ∉ m.pmemStack

variable {role role' : ℕ → Role} {K : ℕ → ℕ} {m m' : Mem}

/-! ### Addresses -/

theorem HeapPage.pdindex {a : ℕ} (h : HeapPage a) : 768 ≤ pdindex a ∧ pdindex a < 1023 := by
  obtain ⟨h1, h2, -⟩ := h
  unfold heapBase at h1
  unfold heapLimit at h2
  unfold GalaxyOS.pdindex
  omega

theorem page_eq {a b : ℕ} (ha : a % 0x1000 = 0) (hb : b % 0x1000 = 0) (hpd : pdindex a = pdindex b)
    (hpt : ptindex a = ptindex b) : a = b := by
  unfold pdindex at hpd
  unfold ptindex at hpt
  omega

theorem mkPte_frame {f : ℕ} (hf : f % 0x1000 = 0) (fl : ℕ) : (mkPte f fl).frame = f := by
  unfold mkPte
  simp only
  omega

/-- Two pages of the kernel heap have different entries. -/
theorem Owned.heap_ne (h : Owned role K m) {a b : ℕ} (ha : HeapPage a) (hb : HeapPage b)
    (hne : a ≠ b) : K (pdindex a) ≠ K (pdindex b) ∨ ptindex a ≠ ptindex b := by
  by_contra hc
  rw [not_or, not_not, not_not] at hc
  have hpd := h.kernelInj _ _ ha.pdindex.1 ha.pdindex.2 hb.pdindex.1 hb.pdindex.2 hc.1
  exact hne (page_eq ha.2.2 hb.2.2 hpd hc.2)

/-! ### Entries -/

theorem setEntry_self (m : Mem) (T i : ℕ) (e : Option Pte) : (m.setEntry T i e).tables T i = e := by
  simp [Mem.setEntry]

theorem setEntry_row {T T' : ℕ} (hne : T' ≠ T) (m : Mem) (i : ℕ) (e : Option Pte) :
    (m.setEntry T i e).tables T' = m.tables T' := Function.update_of_ne hne _ _

theorem setEntry_of_ne {T T' i i' : ℕ} (hne : T' ≠ T ∨ i' ≠ i) (m : Mem) (e : Option Pte) :
    (m.setEntry T i e).tables T' i' = m.tables T' i' := by
  by_cases hT : T' = T
  · subst hT
    have hi : i' ≠ i := by
      rcases hne with h | h
      · exact absurd rfl h
      · exact h
    simp [Mem.setEntry, hi]
  · rw [setEntry_row hT]

theorem setEntry_other {m : Mem} {T T' i i' : ℕ} {e : Option Pte} {pte : Pte}
    (h : (m.setEntry T i e).tables T' i' = some pte) :
    T' = T ∧ i' = i ∧ e = some pte ∨ (T' ≠ T ∨ i' ≠ i) ∧ m.tables T' i' = some pte := by
  by_cases hT : T' = T
  · by_cases hi : i' = i
    · subst hT hi
      rw [setEntry_self] at h
      exact .inl ⟨rfl, rfl, h⟩
    · rw [setEntry_of_ne (.inr hi)] at h
      exact .inr ⟨.inr hi, h⟩
  · rw [setEntry_of_ne (.inl hT)] at h
    exact .inr ⟨.inl hT, h⟩

theorem role_ne {f g : ℕ} {r : Role} (hf : role f = r) (hg : role g ≠ r) : g ≠ f :=
  fun hc => hg (hc ▸ hf)

/-- The role of a frame other than `f` is as before. -/
theorem role_update {f g : ℕ} {r r' : Role} (h : Function.update role f r g = r') (hr : r ≠ r') :
    g ≠ f ∧ role g = r' := by
  have hne : g ≠ f := by
    rintro rfl
    rw [Function.update_self] at h
    exact hr h
  rw [Function.update_of_ne hne] at h
  exact ⟨hne, h⟩

/-- A directory stays one when its entries and the roles of all frames in use stay. -/
theorem Directory.mono {d : ℕ} (h : Directory role K m d) (hrow : m'.tables d = m.tables d)
    (hrole : ∀ f, (role f = .boot ∨ ∃ a u, role f = .kern a u) → role' f = role f) :
    Directory role' K m' d := by
  refine ⟨?_, ?_, ?_, h.notKernel, ?_⟩
  · rw [hrow]
    exact h.kernel
  · rw [hrow]
    exact h.self
  · intro i hi pde hpde
    rw [hrow] at hpde
    obtain ⟨a, ha⟩ := h.user i hi pde hpde
    exact ⟨a, (hrole _ (.inr ⟨a, _, ha⟩)).trans ha⟩
  · rcases h.role with hb | ⟨a, pid, hd⟩
    · exact .inl ((hrole d (.inl hb)).trans hb)
    · exact .inr ⟨a, pid, (hrole d (.inr ⟨a, _, hd⟩)).trans hd⟩

/-- A directory is neither free nor a page table nor mapped for a user. -/
theorem Directory.ne_of_role {d f : ℕ} (h : Directory role K m d) (hboot : role f ≠ .boot)
    (hdir : ∀ a pid, role f ≠ .kern a (.dir pid)) : d ≠ f := by
  rintro rfl
  rcases h.role with hb | ⟨a, pid, hd⟩
  · exact hboot hb
  · exact hdir a pid hd

/-- A directory stays one when a block of the kernel heap gets another use. -/
theorem Directory.retype {d f a b : ℕ} {u : Use} (h : Directory role K m d)
    (hf : role f = .kern a (.block b)) (hrow : m'.tables d = m.tables d) (hne : d ≠ f) :
    Directory (Function.update role f (.kern a u)) K m' d := by
  refine ⟨?_, ?_, ?_, h.notKernel, ?_⟩
  · rw [hrow]
    exact h.kernel
  · rw [hrow]
    exact h.self
  · intro i hi pde hpde
    rw [hrow] at hpde
    obtain ⟨c, hc⟩ := h.user i hi pde hpde
    have hpf : pde.frame ≠ f := role_ne hf (by rw [hc]; simp)
    exact ⟨c, by rw [Function.update_of_ne hpf, hc]⟩
  · rw [Function.update_of_ne hne]
    exact h.role

/-- A directory stays one when a frame that is no page table is given back. -/
theorem Directory.release {d f a : ℕ} {u : Use} (h : Directory role K m d)
    (hf : role f = .kern a u) (hu : u ≠ .table) (hrow : m'.tables d = m.tables d) (hne : d ≠ f) :
    Directory (Function.update role f .free) K m' d := by
  refine ⟨?_, ?_, ?_, h.notKernel, ?_⟩
  · rw [hrow]
    exact h.kernel
  · rw [hrow]
    exact h.self
  · intro i hi pde hpde
    rw [hrow] at hpde
    obtain ⟨c, hc⟩ := h.user i hi pde hpde
    have hpf : pde.frame ≠ f := by
      intro hcf
      rw [hcf, hf] at hc
      exact hu (Role.kern.inj hc).2
    exact ⟨c, by rw [Function.update_of_ne hpf, hc]⟩
  · rw [Function.update_of_ne hne]
    exact h.role

/-! ### The free stack -/

theorem Owned.setCr3 (h : Owned role K m) (cr3 : ℕ) : Owned role K { m with cr3 := cr3 } :=
  ⟨h.nodup, h.free, h.frames, h.kernel, h.kernelInj, h.heapEntry, h.home, h.fresh, h.userEntry,
    fun d a pid hd => (h.dir d a pid hd).mono rfl fun _ _ => rfl, h.heap⟩

/-- The contents of memory do not matter. -/
theorem Owned.setData (h : Owned role K m) (data : ℕ → UInt8) :
    Owned role K { m with data := data } :=
  ⟨h.nodup, h.free, h.frames, h.kernel, h.kernelInj, h.heapEntry, h.home, h.fresh, h.userEntry,
    fun d a pid hd => (h.dir d a pid hd).mono rfl fun _ _ => rfl, h.heap⟩

/-- The first frames of the stack are taken off it. -/
theorem Owned.pop {fs rest : List ℕ} (h : Owned role K m) (hm : m.pmemStack = fs ++ rest) :
    Owned role K { m with pmemStack := rest } ∧
      ∀ f ∈ fs, Loose role { m with pmemStack := rest } f := by
  have hnodup := h.nodup
  rw [hm, List.nodup_append] at hnodup
  have hfree : ∀ g ∈ rest, role g = .free := fun g hg =>
    h.free g (hm ▸ List.mem_append_right fs hg)
  refine ⟨⟨hnodup.2.1, hfree, h.frames, h.kernel, h.kernelInj, h.heapEntry, h.home, h.fresh,
    h.userEntry, fun d a pid hd => (h.dir d a pid hd).mono rfl fun _ _ => rfl, h.heap⟩, ?_⟩
  intro f hf
  exact ⟨h.free f (hm ▸ List.mem_append_left rest hf), fun hc => hnodup.2.2 f hf f hc rfl⟩

theorem Owned.push {f : ℕ} (h : Owned role K m) (hf : Loose role m f) :
    Owned role K (pmmFreePage m f) := by
  refine ⟨List.nodup_cons.mpr ⟨hf.2, h.nodup⟩, ?_, h.frames, h.kernel, h.kernelInj, h.heapEntry,
    h.home, h.fresh, h.userEntry, fun d a pid hd => (h.dir d a pid hd).mono rfl fun _ _ => rfl,
    h.heap⟩
  intro g hg
  rcases List.mem_cons.mp hg with rfl | hg
  · exact hf.1
  · exact h.free g hg

/-! ### Mapping a frame -/

/-- The frame `f` is mapped by the entry `i` of the user page table `T`. -/
theorem Owned.mapUser {T a i f fl : ℕ} (h : Owned role K m) (hT : role T = .kern a .table)
    (hf : Loose role m f) :
    Owned (Function.update role f (.user T i)) K (m.setEntry T i (some ⟨f, fl⟩)) := by
  have hkept : ∀ g, role g ≠ .free → Function.update role f (.user T i) g = role g := fun g hg =>
    Function.update_of_ne (role_ne hf.1 hg) _ _
  have hK : ∀ j, 768 ≤ j → j < 1023 → K j ≠ T := fun j h1 h2 =>
    role_ne hT (by rw [h.kernel j h1 h2]; simp)
  have hheap : ∀ b, HeapPage b → (m.setEntry T i (some ⟨f, fl⟩)).tables (K (pdindex b)) (ptindex b) =
      m.tables (K (pdindex b)) (ptindex b) := fun b hb =>
    setEntry_of_ne (.inl (hK _ hb.pdindex.1 hb.pdindex.2)) m _
  refine ⟨h.nodup, ?_, ?_, ?_, h.kernelInj, ?_, ?_, ?_, ?_, ?_, h.heap⟩
  · intro g hg
    have hne : g ≠ f := fun hc => hf.2 (hc ▸ hg)
    rw [Function.update_of_ne hne]
    exact h.free g hg
  · intro g hg
    by_cases hgf : g = f
    · subst hgf
      exact h.frames g (by rw [hf.1]; simp)
    · rw [Function.update_of_ne hgf] at hg
      exact h.frames g hg
  · intro j h1 h2
    rw [hkept _ (by rw [h.kernel j h1 h2]; simp)]
    exact h.kernel j h1 h2
  · intro b hb pte hpte
    rw [hheap b hb] at hpte
    obtain ⟨u, hu⟩ := h.heapEntry b hb pte hpte
    exact ⟨u, (hkept _ (by rw [hu]; simp)).trans hu⟩
  · intro g b u hg
    obtain ⟨-, hg⟩ := role_update hg (by simp)
    obtain ⟨hb, hlt, hhome⟩ := h.home g b u hg
    rw [hheap b hb]
    exact ⟨hb, hlt, hhome⟩
  · intro b hb hle
    rw [hheap b hb]
    exact h.fresh b hb hle
  · intro T' b hT' j pte hpte
    obtain ⟨-, hT'⟩ := role_update hT' (by simp)
    rcases setEntry_other hpte with ⟨rfl, rfl, he⟩ | ⟨-, hold⟩
    · obtain rfl := Option.some.inj he
      exact Function.update_self ..
    · have hrole := h.userEntry T' b hT' j pte hold
      rw [hkept _ (by rw [hrole]; simp), hrole]
  · intro d b pid hd
    obtain ⟨-, hd⟩ := role_update hd (by simp)
    refine (h.dir d b pid hd).mono ?_ fun g hg => hkept g ?_
    · exact setEntry_row (role_ne hT (by rw [hd]; simp)) m i _
    · rcases hg with hg | ⟨c, u, hg⟩ <;> simp [hg]

/-- The frame `f` is mapped at the end of the kernel heap. -/
theorem Owned.mapKernel {f fl b : ℕ} (h : Owned role K m) (hf : Loose role m f)
    (hend : m.endMappedKmemory + 0x1000 < heapLimit) :
    Owned (Function.update role f (.kern m.endMappedKmemory (.block b))) K
      { m.setEntry (K (pdindex m.endMappedKmemory)) (ptindex m.endMappedKmemory) (some ⟨f, fl⟩) with
        endMappedKmemory := m.endMappedKmemory + 0x1000 } := by
  have hkept : ∀ g, role g ≠ .free →
      Function.update role f (.kern m.endMappedKmemory (.block b)) g = role g := fun g hg =>
    Function.update_of_ne (role_ne hf.1 hg) _ _
  have hrange := h.heap.pdindex
  have hboot := h.kernel _ hrange.1 hrange.2
  have hheap : ∀ c, HeapPage c → c ≠ m.endMappedKmemory →
      (m.setEntry (K (pdindex m.endMappedKmemory)) (ptindex m.endMappedKmemory)
        (some ⟨f, fl⟩)).tables (K (pdindex c)) (ptindex c) =
      m.tables (K (pdindex c)) (ptindex c) := fun c hc hne =>
    setEntry_of_ne (h.heap_ne hc h.heap hne) m _
  have hrow : ∀ g, role g ≠ .boot → (m.setEntry (K (pdindex m.endMappedKmemory))
      (ptindex m.endMappedKmemory) (some ⟨f, fl⟩)).tables g = m.tables g := fun g hg =>
    setEntry_row (role_ne hboot hg) m _ _
  refine ⟨h.nodup, ?_, ?_, ?_, h.kernelInj, ?_, ?_, ?_, ?_, ?_, ?_⟩
  · intro g hg
    have hne : g ≠ f := fun hc => hf.2 (hc ▸ hg)
    rw [Function.update_of_ne hne]
    exact h.free g hg
  · intro g hg
    by_cases hgf : g = f
    · subst hgf
      exact h.frames g (by rw [hf.1]; simp)
    · rw [Function.update_of_ne hgf] at hg
      exact h.frames g hg
  · intro j h1 h2
    rw [hkept _ (by rw [h.kernel j h1 h2]; simp)]
    exact h.kernel j h1 h2
  · intro c hc pte hpte
    by_cases hne : c = m.endMappedKmemory
    · subst hne
      simp only [setEntry_self, Option.some.injEq] at hpte
      subst hpte
      exact ⟨_, Function.update_self ..⟩
    · simp only [hheap c hc hne] at hpte
      obtain ⟨u, hu⟩ := h.heapEntry c hc pte hpte
      exact ⟨u, (hkept _ (by rw [hu]; simp)).trans hu⟩
  · intro g c u hg
    by_cases hgf : g = f
    · subst hgf
      rw [Function.update_self] at hg
      obtain ⟨rfl, -⟩ := Role.kern.inj hg
      exact ⟨h.heap, Nat.lt_add_of_pos_right (by decide), fl, setEntry_self ..⟩
    · rw [Function.update_of_ne hgf] at hg
      obtain ⟨hc, hlt, hhome⟩ := h.home g c u hg
      refine ⟨hc, Nat.lt_add_right _ hlt, ?_⟩
      simp only [hheap c hc (Nat.ne_of_lt hlt)]
      exact hhome
  · intro c hc hle
    simp only at hle
    have hne : c ≠ m.endMappedKmemory := by omega
    simp only [hheap c hc hne]
    exact h.fresh c hc (by omega)
  · intro T c hT j pte hpte
    have hT' : role T = .kern c .table := by
      by_cases hTf : T = f
      · subst hTf
        rw [Function.update_self] at hT
        exact absurd (Role.kern.inj hT).2 (by simp)
      · rwa [Function.update_of_ne hTf] at hT
    simp only [hrow T (by rw [hT']; simp)] at hpte
    have hrole := h.userEntry T c hT' j pte hpte
    rw [hkept _ (by rw [hrole]; simp), hrole]
  · intro d c pid hd
    have hd' : role d = .kern c (.dir pid) := by
      by_cases hdf : d = f
      · subst hdf
        rw [Function.update_self] at hd
        exact absurd (Role.kern.inj hd).2 (by simp)
      · rwa [Function.update_of_ne hdf] at hd
    refine (h.dir d c pid hd').mono (hrow d (by rw [hd']; simp)) fun g hg => hkept g ?_
    rcases hg with hg | ⟨e, u, hg⟩ <;> simp [hg]
  · obtain ⟨h1, h2, h3⟩ := h.heap
    exact ⟨by simp only; omega, hend, by simp only; omega⟩

/-! ### A new use for a page of the kernel heap -/

/-- `memset` and the like: the row of a table is replaced. -/
def Mem.setRow (m : Mem) (table : ℕ) (row : ℕ → Option Pte) : Mem :=
  { m with tables := Function.update m.tables table row }

/-- A block of the kernel heap becomes a page table or a page directory. -/
theorem Owned.retype {f a b : ℕ} {u : Use} {row : ℕ → Option Pte} (h : Owned role K m)
    (hf : role f = .kern a (.block b)) (htable : u = .table → ∀ i, row i = none)
    (hdir : ∀ pid, u = .dir pid →
      Directory (Function.update role f (.kern a u)) K (m.setRow f row) f) :
    Owned (Function.update role f (.kern a u)) K (m.setRow f row) := by
  have hrow : ∀ g, g ≠ f → (m.setRow f row).tables g = m.tables g := fun g hg =>
    Function.update_of_ne hg _ _
  have hself : Function.update role f (.kern a u) f = .kern a u := Function.update_self ..
  have hkept : ∀ g, (∀ c v, role g ≠ .kern c v) → Function.update role f (.kern a u) g = role g :=
    fun g hg => Function.update_of_ne (fun hc => hg a _ (hc ▸ hf)) _ _
  have hheap : ∀ c, HeapPage c → (m.setRow f row).tables (K (pdindex c)) = m.tables (K (pdindex c)) :=
    fun c hc => hrow _ (role_ne hf (by rw [h.kernel _ hc.pdindex.1 hc.pdindex.2]; simp))
  have hold : ∀ g c v, Function.update role f (.kern a u) g = .kern c v →
      ∃ w, role g = .kern c w := by
    intro g c v hg
    by_cases hgf : g = f
    · subst hgf
      rw [hself] at hg
      obtain ⟨rfl, -⟩ := Role.kern.inj hg
      exact ⟨_, hf⟩
    · rw [Function.update_of_ne hgf] at hg
      exact ⟨v, hg⟩
  refine ⟨h.nodup, ?_, ?_, ?_, h.kernelInj, ?_, ?_, ?_, ?_, ?_, h.heap⟩
  · intro g hg
    have hfree := h.free g hg
    rw [hkept g (by rw [hfree]; simp), hfree]
  · intro g hg
    by_cases hgf : g = f
    · subst hgf
      exact h.frames g (by rw [hf]; simp)
    · rw [Function.update_of_ne hgf] at hg
      exact h.frames g hg
  · intro j h1 h2
    have hboot := h.kernel j h1 h2
    rw [hkept _ (by rw [hboot]; simp), hboot]
  · intro c hc pte hpte
    rw [hheap c hc] at hpte
    obtain ⟨v, hv⟩ := h.heapEntry c hc pte hpte
    by_cases hpf : pte.frame = f
    · rw [hpf, hf] at hv
      rw [hpf, hself]
      exact ⟨u, by rw [(Role.kern.inj hv).1]⟩
    · rw [Function.update_of_ne hpf]
      exact ⟨v, hv⟩
  · intro g c v hg
    obtain ⟨w, hw⟩ := hold g c v hg
    obtain ⟨hc, hlt, hhome⟩ := h.home g c w hw
    rw [hheap c hc]
    exact ⟨hc, hlt, hhome⟩
  · intro c hc hle
    rw [hheap c hc]
    exact h.fresh c hc hle
  · intro T c hT j pte hpte
    by_cases hTf : T = f
    · subst hTf
      rw [hself] at hT
      have hnone : (m.setRow T row).tables T j = none := by
        simp [Mem.setRow, htable (Role.kern.inj hT).2 j]
      rw [hnone] at hpte
      cases hpte
    · rw [Function.update_of_ne hTf] at hT
      rw [hrow T hTf] at hpte
      have hrole := h.userEntry T c hT j pte hpte
      rw [hkept _ (by rw [hrole]; simp), hrole]
  · intro d c pid hd
    by_cases hdf : d = f
    · subst hdf
      rw [hself] at hd
      exact hdir pid (Role.kern.inj hd).2
    · rw [Function.update_of_ne hdf] at hd
      refine (h.dir d c pid hd).retype hf (hrow d hdf) hdf

/-! ### A page table in a directory -/

/-- A page table is entered into the user half of a directory. -/
theorem Directory.setEntry {d d' T a i fl : ℕ} (h : Directory role K m d')
    (hT : role T = .kern a .table) (hi : i < 768) :
    Directory role K (m.setEntry d i (some ⟨T, fl⟩)) d' := by
  refine ⟨?_, ?_, ?_, h.notKernel, h.role⟩
  · intro j h1 h2
    rw [setEntry_of_ne (.inr (by omega))]
    exact h.kernel j h1 h2
  · rw [setEntry_of_ne (.inr (by omega))]
    exact h.self
  · intro j hj pde hpde
    rcases setEntry_other hpde with ⟨-, -, he⟩ | ⟨-, hold⟩
    · obtain rfl := Option.some.inj he
      exact ⟨a, hT⟩
    · exact h.user j hj pde hold

theorem Owned.setEntry {d T a i fl : ℕ} (h : Owned role K m) (hd : Directory role K m d)
    (hT : role T = .kern a .table) (hi : i < 768) :
    Owned role K (m.setEntry d i (some ⟨T, fl⟩)) := by
  have hheap : ∀ b, HeapPage b → (m.setEntry d i (some ⟨T, fl⟩)).tables (K (pdindex b)) =
      m.tables (K (pdindex b)) := fun b hb =>
    setEntry_row (hd.notKernel _ hb.pdindex.1 hb.pdindex.2) m i _
  refine ⟨h.nodup, h.free, h.frames, h.kernel, h.kernelInj, ?_, ?_, ?_, ?_, ?_, h.heap⟩
  · intro b hb
    rw [hheap b hb]
    exact h.heapEntry b hb
  · intro g b u hg
    rw [hheap b (h.home g b u hg).1]
    exact h.home g b u hg
  · intro b hb
    rw [hheap b hb]
    exact h.fresh b hb
  · intro T' b hT' j pte hpte
    have hne : T' ≠ d := by
      rintro rfl
      rcases hd.role with hb | ⟨c, pid, hc⟩
      · simp [hT'] at hb
      · simp [hT'] at hc
    rw [setEntry_row hne] at hpte
    exact h.userEntry T' b hT' j pte hpte
  · intro d' b pid hd'
    exact (h.dir d' b pid hd').setEntry hT hi

/-! ### Unmapping a frame -/

/-- A page of the kernel heap that is no page table is unmapped and its frame is given back. -/
theorem Owned.unmapKernel {f a : ℕ} {u : Use} (h : Owned role K m) (hf : role f = .kern a u)
    (hu : u ≠ .table) :
    Owned (Function.update role f .free) K
      ((pmmFreePage m f).setEntry (K (pdindex a)) (ptindex a) none) := by
  obtain ⟨ha, hlt, hhome⟩ := h.home f a u hf
  have hboot := h.kernel _ ha.pdindex.1 ha.pdindex.2
  have hkept : ∀ g, g ≠ f → Function.update role f .free g = role g := fun g hg =>
    Function.update_of_ne hg _ _
  have hnot : ∀ g r, role g = r → r ≠ .kern a u → g ≠ f := by
    rintro g r rfl hr rfl
    exact hr hf
  have hheap : ∀ c, HeapPage c → c ≠ a →
      ((pmmFreePage m f).setEntry (K (pdindex a)) (ptindex a) none).tables (K (pdindex c)) (ptindex c) =
      m.tables (K (pdindex c)) (ptindex c) := fun c hc hne =>
    setEntry_of_ne (h.heap_ne hc ha hne) (pmmFreePage m f) _
  have hrow : ∀ g, role g ≠ .boot →
      ((pmmFreePage m f).setEntry (K (pdindex a)) (ptindex a) none).tables g = m.tables g :=
    fun g hg => setEntry_row (role_ne hboot hg) (pmmFreePage m f) _ _
  have hhomes : ∀ g v, role g = .kern a v → g = f := by
    intro g v hg
    obtain ⟨fl, h1⟩ := hhome
    obtain ⟨-, -, fl', h2⟩ := h.home g a v hg
    rw [h1] at h2
    exact (Pte.mk.inj (Option.some.inj h2)).1.symm
  refine ⟨?_, ?_, ?_, ?_, h.kernelInj, ?_, ?_, ?_, ?_, ?_, h.heap⟩
  · refine List.nodup_cons.mpr ⟨fun hmem => ?_, h.nodup⟩
    have hfree := h.free f hmem
    simp [hf] at hfree
  · intro g hg
    by_cases hgf : g = f
    · subst hgf
      exact Function.update_self ..
    · rw [hkept g hgf]
      rcases List.mem_cons.mp hg with hg | hg
      · exact absurd hg hgf
      · exact h.free g hg
  · intro g hg
    by_cases hgf : g = f
    · subst hgf
      exact h.frames g (by rw [hf]; simp)
    · rw [hkept g hgf] at hg
      exact h.frames g hg
  · intro j h1 h2
    rw [hkept _ (hnot _ _ (h.kernel j h1 h2) (by simp)), h.kernel j h1 h2]
  · intro c hc pte hpte
    by_cases hne : c = a
    · subst hne
      rw [setEntry_self] at hpte
      cases hpte
    · rw [hheap c hc hne] at hpte
      obtain ⟨v, hv⟩ := h.heapEntry c hc pte hpte
      refine ⟨v, (hkept _ (hnot _ _ hv ?_)).trans hv⟩
      exact fun heq => hne (Role.kern.inj heq).1
  · intro g c v hg
    have hgf : g ≠ f := by
      rintro rfl
      rw [Function.update_self] at hg
      cases hg
    rw [hkept g hgf] at hg
    obtain ⟨hc, hclt, hchome⟩ := h.home g c v hg
    have hne : c ≠ a := by
      rintro rfl
      exact hgf (hhomes g v hg)
    rw [hheap c hc hne]
    exact ⟨hc, hclt, hchome⟩
  · intro c hc hle
    have hne : c ≠ a := by
      rintro rfl
      exact Nat.not_le_of_lt hlt hle
    rw [hheap c hc hne]
    exact h.fresh c hc hle
  · intro T c hT j pte hpte
    have hTf : T ≠ f := by
      rintro rfl
      rw [Function.update_self] at hT
      cases hT
    rw [hkept T hTf] at hT
    rw [hrow T (by rw [hT]; simp)] at hpte
    have hrole := h.userEntry T c hT j pte hpte
    rw [hkept _ (hnot _ _ hrole (by simp)), hrole]
  · intro d c pid hd
    have hdf : d ≠ f := by
      rintro rfl
      rw [Function.update_self] at hd
      cases hd
    rw [hkept d hdf] at hd
    exact (h.dir d c pid hd).release hf hu (hrow d (by rw [hd]; simp)) hdf

/-- The frame behind an entry of a user page table is unmapped and given back. -/
theorem Owned.unmapUser {T a i : ℕ} {pte : Pte} (h : Owned role K m) (hT : role T = .kern a .table)
    (hpte : m.tables T i = some pte) :
    Owned (Function.update role pte.frame .free) K ((pmmFreePage m pte.frame).setEntry T i none) := by
  have hf := h.userEntry T a hT i pte hpte
  have hkept : ∀ g, (∀ T' j, role g ≠ .user T' j) →
      Function.update role pte.frame .free g = role g := fun g hg =>
    Function.update_of_ne (role_ne hf (hg T i)) _ _
  have hK : ∀ j, 768 ≤ j → j < 1023 → K j ≠ T := fun j h1 h2 =>
    role_ne hT (by rw [h.kernel j h1 h2]; simp)
  have hheap : ∀ b, HeapPage b → ((pmmFreePage m pte.frame).setEntry T i none).tables
      (K (pdindex b)) = m.tables (K (pdindex b)) := fun b hb =>
    setEntry_row (hK _ hb.pdindex.1 hb.pdindex.2) (pmmFreePage m pte.frame) i _
  refine ⟨?_, ?_, ?_, ?_, h.kernelInj, ?_, ?_, ?_, ?_, ?_, h.heap⟩
  · refine List.nodup_cons.mpr ⟨fun hmem => ?_, h.nodup⟩
    have hfree := h.free _ hmem
    simp [hf] at hfree
  · intro g hg
    by_cases hgf : g = pte.frame
    · subst hgf
      exact Function.update_self ..
    · rw [Function.update_of_ne hgf]
      rcases List.mem_cons.mp hg with hg | hg
      · exact absurd hg hgf
      · exact h.free g hg
  · intro g hg
    by_cases hgf : g = pte.frame
    · subst hgf
      exact h.frames _ (by rw [hf]; simp)
    · rw [Function.update_of_ne hgf] at hg
      exact h.frames g hg
  · intro j h1 h2
    rw [hkept _ (by rw [h.kernel j h1 h2]; simp), h.kernel j h1 h2]
  · intro b hb pte' hpte'
    rw [hheap b hb] at hpte'
    obtain ⟨u, hu⟩ := h.heapEntry b hb pte' hpte'
    exact ⟨u, (hkept _ (by rw [hu]; simp)).trans hu⟩
  · intro g b u hg
    obtain ⟨-, hg⟩ := role_update hg (by simp)
    rw [hheap b (h.home g b u hg).1]
    exact h.home g b u hg
  · intro b hb
    rw [hheap b hb]
    exact h.fresh b hb
  · intro T' b hT' j pte' hpte'
    obtain ⟨-, hT'⟩ := role_update hT' (by simp)
    rcases setEntry_other hpte' with ⟨-, -, he⟩ | ⟨hne, hold⟩
    · cases he
    · have hrole := h.userEntry T' b hT' j pte' hold
      have hgf : pte'.frame ≠ pte.frame := by
        intro hc
        rw [hc, hf] at hrole
        obtain ⟨rfl, rfl⟩ := Role.user.inj hrole
        simp at hne
      rw [Function.update_of_ne hgf, hrole]
  · intro d b pid hd
    obtain ⟨-, hd⟩ := role_update hd (by simp)
    refine (h.dir d b pid hd).mono ?_ fun g hg => hkept g ?_
    · exact setEntry_row (role_ne hT (by rw [hd]; simp)) (pmmFreePage m pte.frame) i _
    · rcases hg with hg | ⟨c, u, hg⟩ <;> simp [hg]

end GalaxyOS
