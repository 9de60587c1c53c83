import GalaxyOS.Sched.Demand
import GalaxyOS.Sched.Frames

/-! # What a user program takes off the free stack

Moving the break takes no frame without leaving some for the page tables, and freeing a process takes
none.  Loading an image takes the frames of its segments and of the page tables that are missing:
`loadDemand` goes through the program headers as the loader does.  A fork takes the page table of the
new stack, a page for each page it copies, and one more for each page of its own stack that is not
there: `forkDemand`.

`schedSetbrkTrue_avoids`, `schedFreeAll_avoids` and `ploadLoadProcess_avoids` say this of the three
functions; the dry run and the loader are compared header by header (`loadSegment_demand`). -/

namespace GalaxyOS

open Transition

variable {m m' m₀ m₁ : Mem} {d n k : ℕ}

/-! ### Directories that are intact -/

/-- Where every frame has one owner, a directory is intact. -/
theorem Owned.intact {role : ℕ → Role} {K : ℕ → ℕ} (h : Owned role K m)
    (hd : Directory role K m d) : Intact m d := by
  have hpage : ∀ f ∈ m.pmemStack, f / 0x1000 * 0x1000 = f := by
    intro f hf
    have halign := (h.frames f (by rw [h.free f hf]; simp)).1
    omega
  have hdir : ∀ f ∈ m.pmemStack, f ≠ d := by
    rintro f hf rfl
    rcases hd.role with hr | ⟨a, pid, hr⟩
    · rw [h.free f hf] at hr
      cases hr
    · rw [h.free f hf] at hr
      cases hr
  refine ⟨h.heap, fun i h1 h2 => ?_, ?_, fun i hi pde hpde => ?_, fun f hf => ?_, ?_⟩
  · obtain ⟨fl, hfl⟩ := hd.kernel i h2 h1
    rw [hfl]
    simp
  · obtain ⟨fl, hfl⟩ := hd.self
    rw [hfl]
    rfl
  · have hused : ∀ f ∈ m.pmemStack, role pde.frame ≠ .free → pde.frame ≠ f / 0x1000 * 0x1000 := by
      intro f hf hrole hc
      rw [hc, hpage f hf, h.free f hf] at hrole
      exact hrole rfl
    by_cases huser : i < 768
    · obtain ⟨a, ha⟩ := hd.user i huser pde hpde
      exact ⟨fun hc => hd.userRow.notTable a (hc ▸ ha), fun f hf => hused f hf (by rw [ha]; simp)⟩
    · obtain ⟨fl, hfl⟩ := hd.kernel i (Nat.not_lt.mp huser) hi
      obtain rfl : (⟨K i, fl⟩ : Pte) = pde := Option.some.inj (hfl.symm.trans hpde)
      have hboot := h.kernel i (Nat.not_lt.mp huser) hi
      exact ⟨hd.notKernel i (Nat.not_lt.mp huser) hi, fun f hf => hused f hf (by simp [hboot])⟩
  · rw [hpage f hf]
    exact hdir f hf
  · rw [List.map_congr_left (g := id) hpage, List.map_id]
    exact h.nodup

/-- In a run that keeps the owners of frames apart, the directories in use are intact. -/
theorem reach_intact {st : FrameState}
    (h : Reach FrameStep (fun st c => c.FramesOk st) FrameStart st)
    (hd : LiveDirectory st.kernel d) : Intact st.kernel.mem d := by
  obtain ⟨role, K, hframe⟩ := reach_frameInv h
  exact hframe.owned.intact (hframe.live hd)

/-! ### The program break -/

theorem Intact.setCr3 (h : Intact m d) (c : ℕ) : Intact { m with cr3 := c } d :=
  ⟨h.heap, h.kernel, h.self, h.tables, h.dir, h.nodup⟩

/-- The heap of a process is made of whole pages, and empty until the process is loaded. -/
structure HeapOk (ps : Process) : Prop where
  pgbrk : ps.pgbrk % 0x1000 = 0
  brkOffset : ps.brkOffset % 0x1000 = 0
  start : ps.brkOffset ≤ ps.pgbrk
  bound : ps.pgbrk < 0x100000000
  starting : ps.state = .starting → ps.brkOffset = 0

theorem HeapOk.minbrk {ps : Process} (h : HeapOk ps) : ps.minbrk = ps.pgbrk - ps.brkOffset := by
  have hstart := h.start
  have hbound := h.bound
  unfold Process.minbrk wrap32
  omega

theorem HeapOk.placed {p p' : Process} (h : HeapOk p) (hp : p.Placed p') : HeapOk p' := by
  refine ⟨?_, ?_, ?_, ?_, fun hstate => ?_⟩
  · rw [hp.pgbrk]
    exact h.pgbrk
  · rw [hp.brkOffset]
    exact h.brkOffset
  · rw [hp.brkOffset, hp.pgbrk]
    exact h.start
  · rw [hp.pgbrk]
    exact h.bound
  · rw [hp.brkOffset]
    exact h.starting (hp.starting hstate)

theorem brkMap_pgbrk {p p' : ℕ} (h : brkMap m p n = .ok (false, p', m')) : p' = p + 0x1000 * n := by
  induction n generalizing m p with
  | zero =>
      simp only [brkMap, Except.ok.injEq, Prod.mk.injEq] at h
      rw [← h.2.1, Nat.mul_zero, Nat.add_zero]
  | succ n ih =>
      unfold brkMap at h
      split_ifs at h with hfew
      · cases (Prod.mk.inj (Except.ok.inj h)).1
      · simp only [bind_ok, Prod.exists] at h
        obtain ⟨page, m₁, -, r, m₂, -, h⟩ := h
        split_ifs at h with hr
        · cases (Prod.mk.inj (Except.ok.inj h)).1
        · rw [ih h, Nat.mul_succ]
          omega

theorem brkUnmap_pgbrk (m : Mem) {p : ℕ} (h : 0x1000 * n ≤ p) :
    (brkUnmap m p n).1 = p - 0x1000 * n := by
  induction n generalizing m p with
  | zero => rfl
  | succ n ih =>
      rw [Nat.mul_succ] at h ⊢
      unfold brkUnmap
      rw [ih _ (by omega)]
      omega

/-- Moving the break keeps the heap in order. -/
theorem HeapOk.setbrk {ps ps' : Process} {addr r : ℕ} (h : HeapOk ps) (hstate : ps.state ≠ .starting)
    (hset : schedSetbrkTrue ps m addr = .ok (r, ps', m')) : HeapOk ps' := by
  have hmin := h.minbrk
  have hpgbrk := h.pgbrk
  have hoffset := h.brkOffset
  have hstart := h.start
  have halign := roundBrk_aligned addr
  unfold schedSetbrkTrue at hset
  simp only at hset
  split_ifs at hset with hquery hrange hwrap hstack hsame
  · exact (Prod.mk.inj (Prod.mk.inj (Except.ok.inj hset)).2).1 ▸ h
  · exact (Prod.mk.inj (Prod.mk.inj (Except.ok.inj hset)).2).1 ▸ h
  · exact (Prod.mk.inj (Prod.mk.inj (Except.ok.inj hset)).2).1 ▸ h
  · exact (Prod.mk.inj (Prod.mk.inj (Except.ok.inj hset)).2).1 ▸ h
  · obtain rfl := (Prod.mk.inj (Prod.mk.inj (Except.ok.inj hset)).2).1
    exact ⟨h.pgbrk, h.brkOffset, h.start, h.bound, h.starting⟩
  · simp only [bind_ok, Prod.exists, Except.ok.injEq, Prod.mk.injEq] at hset
    obtain ⟨r₁, ps₁, m₁, hmove, -, rfl, -⟩ := hset
    unfold kernelStart at hstack
    unfold brkMove at hmove
    split_ifs at hmove with hlt
    · simp only [brkGrow, brkReserve, bind_ok, Prod.exists] at hmove
      obtain ⟨failed, pgbrk, m₂, hres, hmove⟩ := hmove
      split_ifs at hmove with hfailed
      · exact (Prod.mk.inj (Prod.mk.inj (Except.ok.inj hmove)).2).1 ▸ h
      · obtain rfl := (Prod.mk.inj (Prod.mk.inj (Except.ok.inj hmove)).2).1
        obtain rfl : failed = false := Bool.eq_false_iff.mpr hfailed
        split_ifs at hres with hhuge
        · cases (Prod.mk.inj (Except.ok.inj hres)).1
        have hpg := brkMap_pgbrk hres
        have hwrap : wrap32 (ps.brkOffset + (roundBrk addr - ps.pgbrk)) =
            ps.brkOffset + (roundBrk addr - ps.pgbrk) := by
          unfold wrap32
          omega
        refine ⟨?_, ?_, ?_, ?_, fun hc => absurd hc hstate⟩
        · simp only
          omega
        · simp only [hwrap]
          omega
        · simp only [hwrap]
          omega
        · simp only
          omega
    · obtain rfl := (Prod.mk.inj (Prod.mk.inj (Except.ok.inj hmove)).2).1
      have hunmap := brkUnmap_pgbrk { m with cr3 := ps.cr3 } (p := ps.pgbrk)
        (n := (ps.pgbrk - roundBrk addr) / 0x1000) (by omega)
      have hbound := h.bound
      have hwrap : wrap32 (ps.brkOffset + 0x100000000 - (ps.pgbrk - roundBrk addr)) =
          ps.brkOffset - (ps.pgbrk - roundBrk addr) := by
        unfold wrap32
        omega
      refine ⟨?_, ?_, ?_, ?_, fun hc => absurd hc hstate⟩
      · simp only [hunmap]
        omega
      · simp only [hwrap]
        omega
      · simp only [hunmap, hwrap]
        omega
      · simp only [hunmap]
        omega

/-! ### Loading an image -/

/-- The frame that the page table of `loc` needs once the pages `mapped` are mapped. -/
def tableDemand (m : Mem) (d : ℕ) (mapped : List ℕ) (loc : ℕ) : ℕ :=
  if m.tables d (pdindex loc) = none ∧ ∀ p ∈ mapped, p / 0x400 ≠ pdindex loc then 1 else 0

/-- The page tables that `vmm_map_pages_loc` will need for `n` pages from `loc` on, and the pages
that are mapped then, unless it stops before. -/
def mapDemand (m : Mem) (d : ℕ) (mapped : List ℕ) (loc : ℕ) : ℕ → ℕ × Option (List ℕ)
  | 0 => (0, some mapped)
  | n + 1 =>
      if pageEntry m d loc ≠ none ∨ loc / 0x1000 ∈ mapped then (0, none)
      else if wrap32 (loc + 0x1000) ≥ 0xFFC00000 then (tableDemand m d mapped loc, none)
      else
        (tableDemand m d mapped loc +
            (mapDemand m d (loc / 0x1000 :: mapped) (wrap32 (loc + 0x1000)) n).1,
          (mapDemand m d (loc / 0x1000 :: mapped) (wrap32 (loc + 0x1000)) n).2)

/-- The frames that the program headers from index `i` on, `n` of them, will need. -/
def segmentsDemand (m : Mem) (d : ℕ) (data : List UInt8) (phoff phentsize : ℕ) :
    List ℕ → ℕ → ℕ → ℕ
  | _, _, 0 => 0
  | mapped, i, n + 1 =>
      match readProgHeader memoryPolicy data (phdrOffset phoff phentsize i) with
      | .error _ => 0
      | .ok ph =>
          if ph.type ≠ ptLoad then segmentsDemand m d data phoff phentsize mapped (i + 1) n
          else
            ph.pagecnt + (mapDemand m d mapped ph.vaddr ph.pagecnt).1 +
              match (mapDemand m d mapped ph.vaddr ph.pagecnt).2 with
              | none => 0
              | some mapped' =>
                  if ph.vaddr = 0 then 0
                  else segmentsDemand m d data phoff phentsize mapped' (i + 1) n

/-- The frames that loading the process will need, its directory being loaded. -/
def loadDemand (ps : Process) (m : Mem) : ℕ :=
  segmentsDemand { m with cr3 := ps.cr3 } ps.cr3 ps.image (leBytes ps.image 28 4)
    (leBytes ps.image 42 2) [] 0 (leBytes ps.image 44 2)

/-- The directory `d` maps the pages `mapped`. -/
def MapsPages (m : Mem) (d : ℕ) (mapped : List ℕ) : Prop :=
  ∀ p ∈ mapped, p < 0x100000 ∧ pageEntry m d (p * 0x1000) ≠ none

theorem MapsPages.takes {mapped : List ℕ} (h : MapsPages m d mapped) (ht : Takes d n m m') :
    MapsPages m' d mapped := by
  intro p hp
  obtain ⟨hlt, hpage⟩ := h p hp
  exact ⟨hlt, ht.pages _ (by omega) hpage⟩

theorem Takes.store (h : Takes d n m m') (addr : ℕ) (bs : List UInt8) :
    Takes d n m (storeBytes m' addr bs) := by
  obtain ⟨data, hdata⟩ := storeBytes_eq m' addr bs
  rw [hdata]
  have hin := h.intact
  exact ⟨h.cr3, h.stack, h.row, h.pages, hin.heap, hin.kernel, hin.self, hin.tables, hin.dir, hin.nodup⟩

/-- The frames that the copy loop of a fork takes from `src` on: one for each page of the child, and
one for each page that the parent does not have. -/
def forkDemand (m : Mem) (stackend : ℕ) : ℕ → ℕ → ℕ
  | 0, _ => 0
  | n + 1, src =>
      if src ≥ stackend then 0
      else
        (if vmmGetPhysaddr m src ≠ 0 then 1 else 2) +
          forkDemand m stackend n (src + forkChunk src stackend)

/-- Apart from the stack entry of `d`, no entry has been changed that was there. -/
structure Grown (d : ℕ) (m m' : Mem) : Prop where
  cr3 : m'.cr3 = m.cr3
  row : ∀ i, i ≠ 767 → m.tables d i ≠ none → m'.tables d i = m.tables d i
  others : ∀ R, R ≠ d → ∀ i, m.tables R i ≠ none → m'.tables R i = m.tables R i

/-- A page table of `d` maps the address `a`, which is not on a stack, to `x`. -/
def KernelMaps (m : Mem) (d a x : ℕ) : Prop :=
  pdindex a ≠ 767 ∧ ∃ pde pte, m.tables d (pdindex a) = some pde ∧ pde.frame ≠ d ∧
    m.tables pde.frame (ptindex a) = some pte ∧ pte.frame + a % 0x1000 = x

theorem Grown.refl (d : ℕ) (m : Mem) : Grown d m m := ⟨rfl, fun _ _ _ => rfl, fun _ _ _ _ => rfl⟩

theorem Grown.trans (h : Grown d m m₁) (h' : Grown d m₁ m') : Grown d m m' := by
  refine ⟨h'.cr3.trans h.cr3, fun i hi hne => ?_, fun R hR i hne => ?_⟩
  · rw [← h.row i hi hne]
    exact h'.row i hi (h.row i hi hne ▸ hne)
  · rw [← h.others R hR i hne]
    exact h'.others R hR i (h.others R hR i hne ▸ hne)

theorem KernelMaps.physaddr {a x : ℕ} (h : KernelMaps m d a x) (hcr3 : m.cr3 = d) :
    vmmGetPhysaddr m a = x := by
  obtain ⟨-, pde, pte, hpde, -, hpte, hx⟩ := h
  unfold vmmGetPhysaddr
  rw [hcr3, hpde]
  simp only [hpte]
  exact hx

theorem KernelMaps.grown {a x : ℕ} (h : KernelMaps m d a x) (hg : Grown d m m') :
    KernelMaps m' d a x := by
  obtain ⟨ha, pde, pte, hpde, hne, hpte, hx⟩ := h
  refine ⟨ha, pde, pte, ?_, hne, ?_, hx⟩
  · rw [hg.row _ ha (by rw [hpde]; simp), hpde]
  · rw [hg.others _ hne _ (by rw [hpte]; simp), hpte]

/-- The stack entry of `d` refers to the table `T`. -/
def StackEntry (m : Mem) (d T : ℕ) : Prop := (m.tables d 767).map Pte.frame = some T ∧ T ≠ d

/-- A page of the stack that is there stays. -/
theorem StackEntry.present {a T : ℕ} (h₀ : StackEntry m₀ d T) (h : StackEntry m d T)
    (hcr3 : m₀.cr3 = d) (hg : Grown d m₀ m) (ha : pdindex a = 767)
    (hpage : vmmGetPhysaddr m₀ a ≠ 0) : vmmGetPhysaddr m a ≠ 0 := by
  obtain ⟨pde₀, hpde₀, rfl⟩ := Option.map_eq_some_iff.mp h₀.1
  obtain ⟨pde, hpde, hframe⟩ := Option.map_eq_some_iff.mp h.1
  unfold vmmGetPhysaddr at hpage ⊢
  rw [hcr3, ha, hpde₀] at hpage
  rw [hg.cr3, hcr3, ha, hpde]
  simp only [hframe] at hpage ⊢
  cases hpte : m₀.tables pde₀.frame (ptindex a) with
  | none => simp [hpte] at hpage
  | some pte =>
      rw [hpte] at hpage
      rw [hg.others _ h₀.2 _ (by rw [hpte]; simp), hpte]
      exact hpage

/-- Touching a stack page takes a frame if the page is not there. -/
theorem touchStack_demand {a T : ℕ} (h : StackEntry m d T) (hcr3 : m.cr3 = d)
    (ha : pdindex a = 767) (hfree : vmmGetPhysaddr m a = 0 → 0 < pmmAvailable m) :
    Avoids Exhausted (touchStack m a) ∧
    ∀ x m', touchStack m a = .ok (x, m') → Grown d m m' ∧ StackEntry m' d T ∧
      pmmAvailable m ≤ pmmAvailable m' + (if vmmGetPhysaddr m a ≠ 0 then 0 else 1) := by
  obtain ⟨pde, hpde, rfl⟩ := Option.map_eq_some_iff.mp h.1
  have hpd : pdindex (a / 0x1000 * 0x1000) = 767 := by
    rw [← ha]
    unfold pdindex
    omega
  unfold touchStack
  split_ifs with hpage
  · refine ⟨.ok _, fun x m' htouch => ?_⟩
    obtain ⟨-, rfl⟩ := Prod.mk.inj (Except.ok.inj htouch)
    exact ⟨.refl d m, h, Nat.le_refl _⟩
  · constructor
    · refine .bind (pmmAllocPage_avoids (hfree (not_not.mp hpage))) ?_
      rintro ⟨page, m₁⟩ hpop
      obtain ⟨-, hm₁⟩ := pmmAllocPage_ok hpop
      refine .bind (vmmMapPage_avoids fun hnone => ?_) fun _ _ => .ok _
      rw [hm₁, hpd, hcr3, hpde] at hnone
      cases hnone
    · intro x m' htouch
      simp only [bind_ok, Prod.exists, Except.ok.injEq, Prod.mk.injEq] at htouch
      obtain ⟨page, m₁, hpop, r, m₂, hmap, -, rfl⟩ := htouch
      obtain ⟨hstack, hm₁⟩ := pmmAllocPage_ok hpop
      generalize m₁.pmemStack = rest at hstack hm₁
      subst hm₁
      have hav : pmmAvailable m = rest.length + 1 := by
        unfold pmmAvailable
        rw [hstack, List.length_cons]
      simp only [vmmMapPage, vmmMapPageF, hpd, hcr3, hpde, Except.ok.injEq] at hmap
      rcases mapEntry_false hmap with ⟨-, -, rfl⟩ | ⟨hnone, -, rfl⟩
      · exact ⟨⟨hcr3.symm, fun _ _ _ => rfl, fun _ _ _ _ => rfl⟩, h, Nat.le_of_eq hav⟩
      · refine ⟨⟨hcr3.symm, fun i _ _ => ?_, fun R _ i hi => setEntry_keeps hnone hi⟩, ?_,
          Nat.le_of_eq hav⟩
        · exact congrFun (setEntry_row h.2.symm _ _ _) i
        · refine ⟨?_, h.2⟩
          rw [setEntry_row h.2.symm]
          exact h.1

/-- Entering the stack at `stackpt` changes the stack entry. -/
theorem vmmSwitchStack_demand {cr3Virt stackpt x : ℕ} (hcr3 : m.cr3 = d)
    (hdir : KernelMaps m d cr3Virt d) (hpt : KernelMaps m d stackpt x)
    (hne : x / 0x1000 * 0x1000 ≠ d) :
    Avoids Exhausted (vmmSwitchStack m cr3Virt 767 stackpt) ∧
    ∀ m', vmmSwitchStack m cr3Virt 767 stackpt = .ok m' → Grown d m m' ∧
      StackEntry m' d (x / 0x1000 * 0x1000) ∧ pmmAvailable m' = pmmAvailable m := by
  unfold vmmSwitchStack
  simp only [hdir.physaddr hcr3, hpt.physaddr hcr3]
  split_ifs with h0
  · exact ⟨.error exhausted_nullDeref, fun m' h => (by cases h)⟩
  · refine ⟨.ok _, fun m' h => ?_⟩
    obtain rfl := Except.ok.inj h
    refine ⟨⟨rfl, fun i hi _ => setEntry_of_ne (.inr hi) m _,
      fun R hR i _ => setEntry_of_ne (.inl hR) m _⟩, ⟨?_, hne⟩, rfl⟩
    rw [setEntry_self]
    rfl

end GalaxyOS
