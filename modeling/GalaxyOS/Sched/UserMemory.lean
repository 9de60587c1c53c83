import GalaxyOS.Mem.Allocation
import GalaxyOS.Sched.Process

/-! # The frames behind the memory of a process

What moving the program break, loading an image, forking a stack and freeing a process do to the
owners of frames.  A process is freed after the page of its directory has been given back, so its
user memory is walked through a directory that nobody owns any more; `UserRow` is what is left of
it then.

`schedSetbrkTrue_ok`, `loadImage_ok` and `forkCopy_ok` are the functions; each is an induction over pages
whose step is one of the elementary changes of `Ownership`. -/

namespace GalaxyOS

open Transition

variable {role role' : ℕ → Role} {K : ℕ → ℕ} {m m' : Mem} {L : Set ℕ}

/-- The entries of the user half of `d` refer to page tables. -/
structure UserRow (role : ℕ → Role) (m : Mem) (d : ℕ) : Prop where
  notTable : ∀ a, role d ≠ .kern a .table
  user : ∀ i < 768, ∀ pde, m.tables d i = some pde → ∃ a, role pde.frame = .kern a .table

theorem Directory.userRow {d : ℕ} (h : Directory role K m d) : UserRow role m d := by
  refine ⟨fun a hc => ?_, h.user⟩
  rcases h.role with hr | ⟨b, pid, hr⟩ <;> simp [hc] at hr

theorem pdindex_user {a : ℕ} (ha : a < kernelStart) : pdindex a < 768 := by
  unfold kernelStart at ha
  unfold pdindex
  omega

/-- A function may change `cr3` if it restores it. -/
theorem Extends.restore {cr3 : ℕ} (h : Extends K L role { m with cr3 := cr3 } role' m') :
    Extends K L role m role' { m' with cr3 := m.cr3 } :=
  ⟨h.owned.setCr3 m.cr3, h.kept, fun f hf hl => h.loose f hf hl,
    fun d hd hdir => (h.dirs d hd (hdir.mono rfl fun _ _ => rfl)).mono rfl fun _ _ => rfl, rfl⟩

/-! ### Freeing user pages -/

/-- A user page that is mapped. -/
theorem userPage {page : ℕ} (hrow : UserRow role m m.cr3) (ha : page < kernelStart)
    (hpage : vmmGetPhysaddr m page ≠ 0) :
    ∃ T a pte, role T = .kern a .table ∧ m.tables T (ptindex page) = some pte ∧
      vmmGetPhysaddr m page = pte.frame + page % 0x1000 ∧
      ∀ f, vmmUnmapPage (pmmFreePage m f) page =
        (true, (pmmFreePage m f).setEntry T (ptindex page) none) := by
  unfold vmmGetPhysaddr at hpage ⊢
  cases hpde : m.tables m.cr3 (pdindex page) with
  | none => simp [hpde] at hpage
  | some pde =>
      simp only [hpde] at hpage ⊢
      cases hpte : m.tables pde.frame (ptindex page) with
      | none => simp [hpte] at hpage
      | some pte =>
          obtain ⟨a, hT⟩ := hrow.user _ (pdindex_user ha) pde hpde
          refine ⟨pde.frame, a, pte, hT, hpte, rfl, fun f => ?_⟩
          simp only [vmmUnmapPage, pmmFreePage, hpde, hpte]

/-- The frame behind a user page is given back and the page is unmapped. -/
theorem freeUserPage (page : ℕ) (h : Owned role K m) (hrow : UserRow role m m.cr3)
    (ha : page < kernelStart) (hpage : vmmGetPhysaddr m page ≠ 0) :
    ∃ role', Extends K ∅ role m role'
        (vmmUnmapPage (pmmFreePage m (vmmGetPhysaddr m page / 0x1000 * 0x1000)) page).2 ∧
      UserRow role'
        (vmmUnmapPage (pmmFreePage m (vmmGetPhysaddr m page / 0x1000 * 0x1000)) page).2 m.cr3 := by
  obtain ⟨T, a, pte, hT, hpte, haddr, hunmap⟩ := userPage hrow ha hpage
  have hrole := h.userEntry T a hT _ pte hpte
  have hframe := h.frames pte.frame (by rw [hrole]; simp)
  have hmask : vmmGetPhysaddr m page / 0x1000 * 0x1000 = pte.frame := by omega
  rw [hmask, hunmap]
  refine ⟨_, .unmapUser h hT hpte, ?_, ?_⟩
  · intro b hb
    exact hrow.notTable b (role_update hb (by simp)).2
  · intro i hi pde hpde
    have hne : m.cr3 ≠ T := fun hc => hrow.notTable a (hc ▸ hT)
    simp only [setEntry_row hne] at hpde
    obtain ⟨b, hb⟩ := hrow.user i hi pde hpde
    exact ⟨b, by rw [Function.update_of_ne (role_ne hrole (by rw [hb]; simp)), hb]⟩

theorem brkUnmap_ok (pgbrk n : ℕ) (h : Owned role K m) (hrow : UserRow role m m.cr3)
    (hle : pgbrk ≤ kernelStart) (hn : 0x1000 * n ≤ pgbrk) :
    (brkUnmap m pgbrk n).1 = pgbrk - 0x1000 * n ∧
      ∃ role', Extends K ∅ role m role' (brkUnmap m pgbrk n).2 ∧
        UserRow role' (brkUnmap m pgbrk n).2 m.cr3 := by
  induction n generalizing m role pgbrk with
  | zero => exact ⟨rfl, role, .refl h, hrow⟩
  | succ n ih =>
      have hlast : pgbrk - 0x1000 - 0x1000 * n = pgbrk - 0x1000 * (n + 1) := by omega
      unfold brkUnmap
      simp only
      split_ifs with h0
      · obtain ⟨role₁, hext₁, hrow₁⟩ := freeUserPage (pgbrk - 0x1000) h hrow (by omega) h0
        have hcr3 := hext₁.cr3
        obtain ⟨h1, role', hext', hrow'⟩ := ih (pgbrk - 0x1000) hext₁.owned (hcr3 ▸ hrow₁)
          (by omega) (by omega)
        exact ⟨h1.trans hlast, role', hext₁.trans hext', hcr3 ▸ hrow'⟩
      · obtain ⟨h1, hrest⟩ := ih (pgbrk - 0x1000) h hrow (by omega) (by omega)
        exact ⟨h1.trans hlast, hrest⟩

theorem freeRegionPages_ok (addr n : ℕ) (h : Owned role K m) (hrow : UserRow role m m.cr3)
    (halign : 0 < n → addr % 0x1000 = 0) (hle : addr + 0x1000 * n ≤ kernelStart) :
    ∃ role', Extends K ∅ role m role' (freeRegionPages m addr n) ∧
      UserRow role' (freeRegionPages m addr n) m.cr3 := by
  induction n generalizing m role addr with
  | zero => exact ⟨role, .refl h, hrow⟩
  | succ n ih =>
      have hpage := halign (Nat.succ_pos n)
      have hwrap : wrap32 (addr + 0x1000) = addr + 0x1000 := by
        unfold kernelStart at hle
        unfold wrap32
        omega
      unfold freeRegionPages
      simp only [hwrap]
      split_ifs with h0
      · have hphys : vmmGetPhysaddr m addr / 0x1000 * 0x1000 = vmmGetPhysaddr m addr := by
          obtain ⟨T, a, pte, hT, hpte, haddr, -⟩ := userPage hrow (by omega) h0
          have hrole := h.userEntry T a hT _ pte hpte
          have hframe := h.frames pte.frame (by rw [hrole]; simp)
          omega
        obtain ⟨role₁, hext₁, hrow₁⟩ := freeUserPage addr h hrow (by omega) h0
        rw [hphys] at hext₁ hrow₁
        have hcr3 := hext₁.cr3
        obtain ⟨role', hext', hrow'⟩ := ih (addr + 0x1000) hext₁.owned (hcr3 ▸ hrow₁)
          (by omega) (by omega)
        exact ⟨role', hext₁.trans hext', hcr3 ▸ hrow'⟩
      · exact ih (addr + 0x1000) h hrow (by omega) (by omega)

/-! ### The program break -/

/-- The heap of a process consists of whole pages below the kernel. -/
structure BrkOk (ps : Process) : Prop where
  pgbrk : ps.pgbrk % 0x1000 = 0
  brkOffset : ps.brkOffset % 0x1000 = 0
  start : ps.brkOffset ≤ ps.pgbrk
  bound : ps.pgbrk ≤ kernelStart

theorem BrkOk.minbrk {ps : Process} (h : BrkOk ps) : ps.minbrk = ps.pgbrk - ps.brkOffset := by
  have hle := h.start
  have hbound := h.bound
  unfold kernelStart at hbound
  unfold Process.minbrk wrap32
  omega

theorem roundBrk_aligned (b : ℕ) : roundBrk b % 0x1000 = 0 := by
  unfold roundBrk wrap32
  split_ifs with h
  · omega
  · omega

theorem roundBrk_le {b : ℕ} (h : b ≤ kernelStart) : roundBrk b ≤ kernelStart := by
  unfold kernelStart at h ⊢
  unfold roundBrk wrap32
  split_ifs with hb
  · omega
  · omega

/-- Pages of the heap are mapped until one fails. -/
theorem brkMap_ok (pgbrk n : ℕ) {failed : Bool} {pgbrk' : ℕ} (h : Owned role K m)
    (hcr3 : Directory role K m m.cr3) (hle : pgbrk + 0x1000 * n ≤ kernelStart)
    (hmap : brkMap m pgbrk n = .ok (failed, pgbrk', m')) :
    (∃ k ≤ n, pgbrk' = pgbrk + 0x1000 * k ∧ (failed = false → k = n)) ∧
      ∃ role', Extends K ∅ role m role' m' := by
  induction n generalizing m role pgbrk with
  | zero =>
      simp only [brkMap, Except.ok.injEq, Prod.mk.injEq] at hmap
      obtain ⟨-, rfl, rfl⟩ := hmap
      exact ⟨⟨0, Nat.le_refl 0, rfl, fun _ => rfl⟩, role, .refl h⟩
  | succ n ih =>
      unfold brkMap at hmap
      split_ifs at hmap with hfew
      · simp only [Except.ok.injEq, Prod.mk.injEq] at hmap
        obtain ⟨rfl, rfl, rfl⟩ := hmap
        exact ⟨⟨0, Nat.zero_le _, rfl, fun hc => by cases hc⟩, role, .refl h⟩
      · simp only [bind_ok, Prod.exists] at hmap
        obtain ⟨page, m₁, hpop, r, m₂, hpage, hmap⟩ := hmap
        obtain ⟨hmem, role₂, hext₂, hloose⟩ := popMap_ok h hcr3 (pdindex_user (by omega)) hpop hpage
        split_ifs at hmap with hr
        · simp only [Except.ok.injEq, Prod.mk.injEq] at hmap
          obtain ⟨rfl, rfl, rfl⟩ := hmap
          refine ⟨⟨0, Nat.zero_le _, rfl, fun hc => by cases hc⟩, role₂, ?_⟩
          exact hext₂.trans_of_stack (.push hext₂.owned (hloose hr)) h hmem
        · obtain ⟨⟨k, hk, hlast, hall⟩, role', hext'⟩ := ih (pgbrk + 0x1000) hext₂.owned
            (hext₂.loaded hcr3 (Set.notMem_empty _)) (by omega) hmap
          refine ⟨⟨k + 1, by omega, by omega, fun hc => ?_⟩, role', hext₂.trans hext'⟩
          rw [hall hc]

/-- Growing the heap to a whole number of pages. -/
theorem brkGrow_ok {ps ps' : Process} {wantbrk realbrk r : ℕ} (h : Owned role K m)
    (hcr3 : Directory role K m m.cr3) (hb : BrkOk ps) (halign : realbrk % 0x1000 = 0)
    (hlt : ps.pgbrk < realbrk) (hle : realbrk ≤ kernelStart)
    (hgrow : brkGrow ps m wantbrk realbrk = .ok (r, ps', m')) :
    BrkOk ps' ∧ (∃ pgbrk brkOffset brk, ps' = { ps with
        pgbrk := pgbrk, brkOffset := brkOffset, brk := brk }) ∧
      ∃ role', Extends K ∅ role m role' m' := by
  obtain ⟨h1, h2, h3, h4⟩ := hb
  simp only [brkGrow, bind_ok, Prod.exists] at hgrow
  obtain ⟨failed, pgbrk, m₁, hres, hgrow⟩ := hgrow
  have hpages : 0x1000 * ((realbrk - ps.pgbrk) / 0x1000) = realbrk - ps.pgbrk := by omega
  have hmapped : (∃ k ≤ (realbrk - ps.pgbrk) / 0x1000, pgbrk = ps.pgbrk + 0x1000 * k ∧
      (failed = false → k = (realbrk - ps.pgbrk) / 0x1000)) ∧
        ∃ role₁, Extends K ∅ role m role₁ m₁ := by
    unfold brkReserve at hres
    split_ifs at hres with hfew
    · simp only [Except.ok.injEq, Prod.mk.injEq] at hres
      obtain ⟨rfl, rfl, rfl⟩ := hres
      exact ⟨⟨0, Nat.zero_le _, rfl, fun hc => by cases hc⟩, role, .refl h⟩
    · exact brkMap_ok _ _ h hcr3 (by omega) hres
  obtain ⟨⟨k, hk, hlast, hall⟩, role₁, hext₁⟩ := hmapped
  split_ifs at hgrow with hfail
  · simp only [Except.ok.injEq, Prod.mk.injEq] at hgrow
    obtain ⟨rfl, rfl, rfl⟩ := hgrow
    have hrow := (hext₁.loaded hcr3 (Set.notMem_empty _)).userRow
    obtain ⟨-, role', hext', -⟩ := brkUnmap_ok pgbrk ((pgbrk - ps.pgbrk) / 0x1000) hext₁.owned hrow
      (by omega) (by omega)
    exact ⟨⟨h1, h2, h3, h4⟩, ⟨_, _, _, rfl⟩, role', hext₁.trans hext'⟩
  · simp only [Except.ok.injEq, Prod.mk.injEq] at hgrow
    obtain ⟨rfl, rfl, rfl⟩ := hgrow
    have hfull := hall (by simpa using hfail)
    refine ⟨⟨?_, ?_, ?_, ?_⟩, ⟨_, _, _, rfl⟩, role₁, hext₁⟩
    · simp only
      omega
    · simp only [wrap32]
      omega
    · simp only [wrap32]
      omega
    · simp only
      omega

/-- Shrinking the heap, down to its start at most. -/
theorem brkShrink_ok {ps : Process} {realbrk : ℕ} (wantbrk : ℕ) (h : Owned role K m)
    (hrow : UserRow role m m.cr3) (hb : BrkOk ps) (halign : realbrk % 0x1000 = 0)
    (hle : realbrk ≤ ps.pgbrk) (hmin : ps.minbrk ≤ realbrk) :
    BrkOk (brkShrink ps m wantbrk realbrk).2.1 ∧
      (∃ pgbrk brkOffset brk, (brkShrink ps m wantbrk realbrk).2.1 = { ps with
        pgbrk := pgbrk, brkOffset := brkOffset, brk := brk }) ∧
      ∃ role', Extends K ∅ role m role' (brkShrink ps m wantbrk realbrk).2.2 ∧
        UserRow role' (brkShrink ps m wantbrk realbrk).2.2 m.cr3 := by
  rw [hb.minbrk] at hmin
  obtain ⟨h1, h2, h3, h4⟩ := hb
  unfold kernelStart at h4
  obtain ⟨hlast, hrest⟩ := brkUnmap_ok ps.pgbrk ((ps.pgbrk - realbrk) / 0x1000) h hrow
    h4 (by omega)
  have hpgbrk : (brkUnmap m ps.pgbrk ((ps.pgbrk - realbrk) / 0x1000)).1 = realbrk := by omega
  refine ⟨⟨?_, ?_, ?_, ?_⟩, ⟨_, _, _, rfl⟩, hrest⟩
  · simp only [brkShrink, hpgbrk]
    exact halign
  · simp only [brkShrink, wrap32]
    omega
  · simp only [brkShrink, hpgbrk, wrap32]
    omega
  · simp only [brkShrink, hpgbrk, kernelStart]
    omega

/-- `sched_setbrk_true` in the directory of a live process. -/
theorem schedSetbrkTrue_ok {ps ps' : Process} {addr r : ℕ} (h : Owned role K m)
    (hd : Directory role K m ps.cr3) (hb : BrkOk ps)
    (hset : schedSetbrkTrue ps m addr = .ok (r, ps', m')) :
    BrkOk ps' ∧ (∃ pgbrk brkOffset brk, ps' = { ps with
        pgbrk := pgbrk, brkOffset := brkOffset, brk := brk }) ∧
      ∃ role', Extends K ∅ role m role' m' := by
  unfold schedSetbrkTrue at hset
  simp only at hset
  split_ifs at hset with h0 hrange hwrap hstack hsame
  any_goals
    simp only [Except.ok.injEq, Prod.mk.injEq] at hset
    obtain ⟨-, rfl, rfl⟩ := hset
    exact ⟨⟨hb.pgbrk, hb.brkOffset, hb.start, hb.bound⟩, ⟨_, _, _, rfl⟩, role, .refl h⟩
  simp only [bind_ok, Prod.exists, Except.ok.injEq, Prod.mk.injEq] at hset
  obtain ⟨r₁, ps₁, m₁, hmove, rfl, rfl, rfl⟩ := hset
  have hown := h.setCr3 ps.cr3
  have hcr3 : Directory role K { m with cr3 := ps.cr3 } ps.cr3 := hd.mono rfl fun _ _ => rfl
  unfold brkMove at hmove
  split_ifs at hmove with hlt
  · obtain ⟨hb', hps, role', hext⟩ := brkGrow_ok hown hcr3 hb (roundBrk_aligned addr) hlt
      (by omega) hmove
    exact ⟨hb', hps, role', hext.restore⟩
  · obtain ⟨hb', hps, role', hext, -⟩ := brkShrink_ok addr hown hcr3.userRow hb
      (roundBrk_aligned addr) (Nat.not_lt.mp hlt) (by omega)
    rw [Except.ok.inj hmove] at hb' hps hext
    exact ⟨hb', hps, role', hext.restore⟩

/-! ### Freeing a process -/

/-- Every region of the process lies below the kernel. -/
def Process.RegionsBelow (ps : Process) : Prop := ∀ r ∈ ps.psregions, r.offset + r.size ≤ kernelStart

/-- Every region that has a page starts at a page. -/
def Process.RegionsAligned (ps : Process) : Prop :=
  ∀ r ∈ ps.psregions, 0x1000 ≤ r.size → r.offset % 0x1000 = 0

instance (ps : Process) : Decidable ps.RegionsAligned :=
  inferInstanceAs (Decidable (∀ r ∈ ps.psregions, _))

/-- Moving the break down to its minimum, in a directory that may already be free. -/
theorem schedSetbrkTrue_minbrk {ps ps' : Process} {r : ℕ} (h : Owned role K m)
    (hrow : UserRow role m m.cr3) (hcr3 : m.cr3 = ps.cr3) (hb : BrkOk ps)
    (hset : schedSetbrkTrue ps m ps.minbrk = .ok (r, ps', m')) :
    ∃ role', Extends K ∅ role m role' m' ∧ UserRow role' m' m.cr3 := by
  have hround : roundBrk ps.minbrk = ps.minbrk := by
    have h1 := hb.pgbrk
    have h2 := hb.brkOffset
    have h3 := hb.start
    rw [hb.minbrk]
    unfold roundBrk
    rw [if_neg (by omega)]
  have hle : ps.minbrk ≤ ps.pgbrk := hb.minbrk ▸ Nat.sub_le _ _
  have hself : ({ m with cr3 := ps.cr3 } : Mem) = m := by rw [← hcr3]
  unfold schedSetbrkTrue at hset
  simp only [hround, hself] at hset
  split_ifs at hset with h0 hrange hwrap hstack hsame
  any_goals
    simp only [Except.ok.injEq, Prod.mk.injEq] at hset
    obtain ⟨-, -, rfl⟩ := hset
    exact ⟨role, .refl h, hrow⟩
  have halign : ps.minbrk % 0x1000 = 0 := hround ▸ roundBrk_aligned ps.minbrk
  obtain ⟨-, -, role', hext, hrow'⟩ := brkShrink_ok ps.minbrk h hrow hb halign hle (Nat.le_refl _)
  rcases hshrink : brkShrink ps m ps.minbrk ps.minbrk with ⟨r₁, ps₁, m₁⟩
  rw [hshrink] at hext hrow'
  simp only [brkMove, if_neg (Nat.not_lt.mpr hle), hshrink, ok_bind, Except.ok.injEq,
    Prod.mk.injEq] at hset
  obtain ⟨-, -, rfl⟩ := hset
  have hback : ({ m₁ with cr3 := m.cr3 } : Mem) = m₁ := by rw [← hext.cr3]
  rw [hback]
  exact ⟨role', hext, hrow'⟩

theorem freeRegions_ok {rs : List PsRegion} (h : Owned role K m) (hrow : UserRow role m m.cr3)
    (hbelow : ∀ r ∈ rs, r.offset + r.size ≤ kernelStart)
    (haligned : ∀ r ∈ rs, 0x1000 ≤ r.size → r.offset % 0x1000 = 0) :
    ∃ role', Extends K ∅ role m role'
      (rs.foldl (fun m r => freeRegionPages m r.offset (r.size / 0x1000)) m) := by
  induction rs generalizing m role with
  | nil => exact ⟨role, .refl h⟩
  | cons r rs ih =>
      have hr := hbelow r List.mem_cons_self
      obtain ⟨role₁, hext₁, hrow₁⟩ := freeRegionPages_ok r.offset (r.size / 0x1000) h hrow
        (fun hpos => haligned r List.mem_cons_self (by omega)) (by omega)
      have hcr3 := hext₁.cr3
      obtain ⟨role', hext'⟩ := ih hext₁.owned (hcr3 ▸ hrow₁)
        (fun q hq => hbelow q (List.mem_cons_of_mem r hq))
        (fun q hq => haligned q (List.mem_cons_of_mem r hq))
      exact ⟨role', hext₁.trans hext'⟩

theorem schedFreeAll_ok {ps : Process} (h : Owned role K m) (hrow : UserRow role m ps.cr3)
    (hb : BrkOk ps) (hbelow : ps.RegionsBelow) (haligned : ps.RegionsAligned)
    (hfree : schedFreeAll ps m = .ok m') : ∃ role', Extends K ∅ role m role' m' := by
  simp only [schedFreeAll, bind_ok, Prod.exists, Except.ok.injEq] at hfree
  obtain ⟨r, ps', m₁, hset, rfl⟩ := hfree
  obtain ⟨role₁, hext₁, hrow₁⟩ :=
    schedSetbrkTrue_minbrk (h.setCr3 ps.cr3) ⟨hrow.notTable, hrow.user⟩ rfl hb hset
  have hcr3 := hext₁.cr3
  obtain ⟨role', hext'⟩ := freeRegions_ok hext₁.owned (hcr3 ▸ hrow₁) hbelow haligned
  exact ⟨role', (hext₁.trans hext').restore⟩

/-! ### Loading an image -/

/-- `vmm_map_pages_loc` below the kernel. -/
theorem vmmMapPagesLoc_ok {loc flags : ℕ} {pages : List ℕ} {mapped : Bool} (h : Owned role K m)
    (hcr3 : Directory role K m m.cr3) (hnodup : pages.Nodup) (hloose : ∀ f ∈ pages, Loose role m f)
    (hle : loc + 0x1000 * pages.length ≤ kernelStart)
    (hmap : vmmMapPagesLoc memoryPolicy m loc flags pages = .ok (mapped, m')) :
    ∃ role', Extends K {f | f ∈ pages} role m role' m' := by
  induction pages generalizing m role loc with
  | nil =>
      simp only [vmmMapPagesLoc, Except.ok.injEq, Prod.mk.injEq] at hmap
      obtain ⟨-, rfl⟩ := hmap
      exact ⟨role, .refl h⟩
  | cons page pages ih =>
      rw [List.length_cons] at hle
      rw [List.nodup_cons] at hnodup
      simp only [vmmMapPagesLoc, bind_ok, Prod.exists] at hmap
      obtain ⟨-, -, r, m₁, hpage, hmap⟩ := hmap
      have hfirst := hloose page List.mem_cons_self
      obtain ⟨role₁, hext₁, -⟩ := vmmMapPage_ok h hcr3 hfirst (pdindex_user (by omega)) hpage
      have hsub : ({page} : Set ℕ) ⊆ {f | f ∈ page :: pages} := by
        rintro f rfl
        exact List.mem_cons_self
      split_ifs at hmap with hr hend
      · obtain ⟨-, rfl⟩ := Prod.mk.inj (Except.ok.inj hmap)
        exact ⟨role₁, hext₁.mono hsub⟩
      · obtain ⟨-, rfl⟩ := Prod.mk.inj (Except.ok.inj hmap)
        exact ⟨role₁, hext₁.mono hsub⟩
      · have hwrap : wrap32 (loc + 0x1000) = loc + 0x1000 := by
          unfold kernelStart at hle
          unfold wrap32
          omega
        have hrest : ∀ f ∈ pages, f ∉ ({page} : Set ℕ) := fun f hf hc => hnodup.1 (hc ▸ hf)
        rw [hwrap] at hmap
        obtain ⟨role', hext'⟩ := ih hext₁.owned (hext₁.loaded hcr3 (hcr3.ne_loose hfirst)) hnodup.2
          (fun f hf => hext₁.loose f (hrest f hf) (hloose f (List.mem_cons_of_mem _ hf)))
          (by omega) hmap
        exact ⟨role', (hext₁.mono hsub).trans (hext'.mono fun f hf => List.mem_cons_of_mem _ hf)⟩

theorem storeBytes_eq (m : Mem) (addr : ℕ) (bs : List UInt8) :
    ∃ data, storeBytes m addr bs = { m with data := data } := by
  induction bs generalizing m addr with
  | nil => exact ⟨m.data, rfl⟩
  | cons b bs ih =>
      obtain ⟨data, hdata⟩ := ih { m with data := Function.update m.data (vmmGetPhysaddr m addr) b }
        (wrap32 (addr + 1))
      exact ⟨data, hdata⟩

theorem Extends.store (h : Extends K L role m role' m') (addr : ℕ) (bs : List UInt8) :
    Extends K L role m role' (storeBytes m' addr bs) := by
  obtain ⟨data, hdata⟩ := storeBytes_eq m' addr bs
  rw [hdata]
  exact ⟨h.owned.setData data, h.kept, fun f hf hl => h.loose f hf hl,
    fun d hd hdir => (h.dirs d hd hdir).mono rfl fun _ _ => rfl, h.cr3⟩

/-- The pages of a segment lie below the kernel. -/
def ProgHeader.Below (ph : ProgHeader) : Prop := ph.vaddr + 0x1000 * ph.pagecnt ≤ kernelStart

instance (ph : ProgHeader) : Decidable ph.Below := inferInstanceAs (Decidable (_ ≤ _))

/-- What loading segments below the kernel keeps. -/
structure LoadOk (K : ℕ → ℕ) (role : ℕ → Role) (st : LoadState) : Prop where
  owned : Owned role K st.mem
  cr3 : Directory role K st.mem st.mem.cr3
  regions : ∀ r ∈ st.psregions, r.offset + r.size ≤ kernelStart
  endAllocatedData : st.endAllocatedData ≤ kernelStart

theorem loadSegment_ok {data : List UInt8} {st st' : LoadState} {ph : ProgHeader} {mapped : Bool}
    (h : LoadOk K role st) (hph : ph.Below)
    (hload : loadSegment memoryPolicy data st ph = .ok (mapped, st')) :
    ∃ role', Extends K ∅ role st.mem role' st'.mem ∧ LoadOk K role' st' := by
  simp only [loadSegment, bind_ok, Prod.exists] at hload
  obtain ⟨-, -, pages, m₁, hpop, ok, m₂, hmap, hload⟩ := hload
  obtain ⟨hlen, hnodup, hpages, hext₁⟩ := Extends.pops h.owned hpop
  have hcr3₁ := hext₁.loaded h.cr3 (Set.notMem_empty _)
  unfold ProgHeader.Below at hph
  obtain ⟨role', hext₂⟩ := vmmMapPagesLoc_ok hext₁.owned hcr3₁ hnodup (fun f hf => (hpages f hf).2)
    (hlen ▸ hph) hmap
  have hext : Extends K ∅ role st.mem role' m₂ :=
    ((hext₁.mono (Set.empty_subset _)).trans hext₂).of_stack h.owned fun f hf => (hpages f hf).1
  by_cases hfail : (!ok) = true ∨ ph.vaddr = 0
  · rw [if_pos hfail] at hload
    obtain ⟨-, rfl⟩ := Prod.mk.inj (Except.ok.inj hload)
    exact ⟨role', hext, hext.owned, hext.loaded h.cr3 (Set.notMem_empty _), h.regions,
      h.endAllocatedData⟩
  · rw [if_neg hfail] at hload
    simp only [bind_ok, Except.ok.injEq, Prod.mk.injEq] at hload
    obtain ⟨-, -, -, -, -, -, -, -, -, rfl⟩ := hload
    have hext' := (hext.store ph.vaddr ((data.drop ph.offset).take ph.filesz)).store
      (wrap32 (ph.vaddr + ph.filesz))
      (List.replicate (wrap32 (ph.memsz + 0x100000000 - ph.filesz)) 0)
    have hmemsz : ph.memsz ≤ 0x1000 * ph.pagecnt := by
      unfold ProgHeader.pagecnt
      split_ifs <;> omega
    unfold kernelStart at hph
    refine ⟨role', hext', hext'.owned, hext'.loaded h.cr3 (Set.notMem_empty _), ?_, ?_⟩
    · intro r hr
      simp only [List.mem_append, List.mem_singleton] at hr
      rcases hr with hr | rfl
      · exact h.regions r hr
      · simp only [wrap32, kernelStart]
        omega
    · have hend := h.endAllocatedData
      have hseg : wrap32 (ph.memsz + ph.vaddr) ≤ kernelStart := by
        unfold wrap32 kernelStart
        omega
      simp only
      split_ifs
      · exact hseg
      · exact hend

/-- The segments of the image lie below the kernel. -/
def LoadsBelow (data : List UInt8) : Prop :=
  ∀ i < leBytes data 44 2, ∀ ph, readProgHeader memoryPolicy data
    (phdrOffset (leBytes data 28 4) (leBytes data 42 2) i) = .ok ph → ph.type = ptLoad → ph.Below

instance (data : List UInt8) : Decidable (LoadsBelow data) :=
  have : ∀ x : Except Fault ProgHeader, Decidable (∀ ph, x = .ok ph → ph.type = ptLoad → ph.Below) :=
    fun x => decidableForallOk x
  inferInstanceAs (Decidable (∀ i < leBytes data 44 2, _))

theorem loadSegments_ok {data : List UInt8} {phoff phentsize : ℕ} {st st' : LoadState} {loaded : Bool}
    (i n : ℕ) (h : LoadOk K role st)
    (hbelow : ∀ j < i + n, ∀ ph, readProgHeader memoryPolicy data (phdrOffset phoff phentsize j) =
      .ok ph → ph.type = ptLoad → ph.Below)
    (hload : loadSegments memoryPolicy data phoff phentsize st i n = .ok (loaded, st')) :
    ∃ role', Extends K ∅ role st.mem role' st'.mem ∧ LoadOk K role' st' := by
  induction n generalizing st role i with
  | zero =>
      simp only [loadSegments, Except.ok.injEq, Prod.mk.injEq] at hload
      obtain ⟨-, rfl⟩ := hload
      exact ⟨role, .refl h.owned, h⟩
  | succ n ih =>
      simp only [loadSegments, bind_ok] at hload
      obtain ⟨ph, hph, hload⟩ := hload
      have hrest : ∀ j < i + 1 + n, ∀ ph, readProgHeader memoryPolicy data
          (phdrOffset phoff phentsize j) = .ok ph → ph.type = ptLoad → ph.Below :=
        fun j hj => hbelow j (by omega)
      by_cases htype : ph.type ≠ ptLoad
      · rw [if_pos htype] at hload
        exact ih (i + 1) h hrest hload
      · rw [if_neg htype] at hload
        simp only [bind_ok, Prod.exists] at hload
        obtain ⟨mapped, st₁, hseg, hload⟩ := hload
        obtain ⟨role₁, hext₁, h₁⟩ :=
          loadSegment_ok h (hbelow i (by omega) ph hph (not_not.mp htype)) hseg
        split_ifs at hload with hfail
        · obtain ⟨-, rfl⟩ := Prod.mk.inj (Except.ok.inj hload)
          exact ⟨role₁, hext₁, h₁⟩
        · obtain ⟨role', hext', h'⟩ := ih (i + 1) h₁ hrest hload
          exact ⟨role', hext₁.trans hext', h'⟩

theorem readField_ok {policy : LoaderAccess → Prop} [DecidablePred policy] {data : List UInt8}
    {off n field : ℕ} (h : readField policy data off n = .ok field) : field = leBytes data off n := by
  simp only [readField, bind_ok, Except.ok.injEq] at h
  obtain ⟨-, -, rfl⟩ := h
  rfl

/-- Loading an image whose segments lie below the kernel. -/
theorem loadImage_ok {ps : Process} {entry : Option ℕ} {st : LoadState} (h : Owned role K m)
    (hd : Directory role K m ps.cr3) (hregions : ps.RegionsBelow) (hbelow : LoadsBelow ps.image)
    (hload : loadImage memoryPolicy ps m = .ok (entry, st)) :
    ∃ role', Extends K ∅ role m role' { st.mem with cr3 := m.cr3 } ∧ LoadOk K role' st := by
  simp only [loadImage, bind_ok, Prod.exists] at hload
  obtain ⟨phnum, hphnum, phoff, hphoff, phentsize, hphentsize, loaded, st', hsegs, hload⟩ := hload
  have hstart : LoadOk K role
      { mem := { m with cr3 := ps.cr3 }, mapped := [], psregions := ps.psregions,
        pagesUsed := ps.pagesUsed, endAllocatedData := 0, stackRoom := m.stackRoom } :=
    ⟨h.setCr3 ps.cr3, hd.mono rfl fun _ _ => rfl, hregions, Nat.zero_le _⟩
  have hheaders : ∀ j < 0 + phnum, ∀ ph, readProgHeader memoryPolicy ps.image
      (phdrOffset phoff phentsize j) = .ok ph → ph.type = ptLoad → ph.Below := by
    intro j hj ph hph
    have hpos : phnum ≠ 0 := by omega
    simp only [readPhField, if_neg hpos] at hphoff hphentsize
    obtain rfl := readField_ok hphnum
    obtain rfl := readField_ok hphoff
    obtain rfl := readField_ok hphentsize
    exact hbelow j (by omega) ph hph
  obtain ⟨role', hext, hok⟩ := loadSegments_ok 0 phnum hstart hheaders hsegs
  have hst : st = st' := by
    split_ifs at hload with hfail
    · exact (Prod.mk.inj (Except.ok.inj hload)).2.symm
    · simp only [bind_ok, Except.ok.injEq, Prod.mk.injEq] at hload
      obtain ⟨-, -, -, rfl⟩ := hload
      rfl
  rw [hst]
  exact ⟨role', hext.restore, hok⟩

/-! ### Creating a process and forking a thread -/

/-- The page directory of a new process. -/
theorem newDirectory_ok {cr3Virt cr3 : ℕ} (pid : Int) (h : Owned role K m)
    (hcr3 : Directory role K m m.cr3) (hnew : newDirectory m = .ok (cr3Virt, cr3, m')) :
    ∃ role', Extends K ∅ role m role' m' ∧ role' cr3 = .kern cr3Virt (.dir pid) := by
  simp only [newDirectory, bind_ok, Prod.exists] at hnew
  obtain ⟨addr, m₁, halloc, hnew⟩ := hnew
  split_ifs at hnew with h0
  simp only [Except.ok.injEq, Prod.mk.injEq] at hnew
  obtain ⟨f, hf, role₁, hext, hrole, haddr⟩ := liballocAlloc_page h hcr3 halloc
  obtain ⟨rfl, rfl, rfl⟩ := hnew
  rw [haddr]
  have hloaded := hext.loaded hcr3 (Set.notMem_empty _)
  have halign := (hext.owned.aligned hrole).1
  refine ⟨_, hext.trans_of_stack (.retype (u := .dir pid) hext.owned hrole (fun hc => ?_)
    fun pid' _ => ?_) h hf, Function.update_self ..⟩
  · cases hc
  · refine ⟨?_, ?_, ?_, ?_, ?_⟩
    · intro i h1 h2
      obtain ⟨fl, hfl⟩ := hloaded.kernel i h1 h2
      refine ⟨fl, ?_⟩
      simp only [Mem.setRow, Function.update_self, if_neg (Nat.ne_of_lt h2), if_pos (And.intro h1 h2),
        hfl]
    · refine ⟨0x3, ?_⟩
      simp only [Mem.setRow, Function.update_self, ↓reduceIte, mkPte_eq halign]
    · intro i hi pde hpde
      simp only [Mem.setRow, Function.update_self, if_neg (show i ≠ 1023 by omega),
        if_neg (show ¬(768 ≤ i ∧ i < 1023) by omega)] at hpde
      cases hpde
    · intro i h1 h2
      exact role_ne hrole (by rw [hext.owned.kernel i h1 h2]; simp)
    · exact .inr ⟨addr, pid, Function.update_self ..⟩

theorem touchStack_ok {addr physaddr : ℕ} (h : Owned role K m) (hcr3 : Directory role K m m.cr3)
    (ha : addr < kernelStart) (htouch : touchStack m addr = .ok (physaddr, m')) :
    ∃ role', Extends K ∅ role m role' m' := by
  unfold touchStack at htouch
  split_ifs at htouch with h0
  · obtain ⟨-, rfl⟩ := Prod.mk.inj (Except.ok.inj htouch)
    exact ⟨role, .refl h⟩
  · simp only [bind_ok, Prod.exists, Except.ok.injEq, Prod.mk.injEq] at htouch
    obtain ⟨page, m₁, hpop, r, m₂, hmap, -, rfl⟩ := htouch
    obtain ⟨-, role', hext, -⟩ := popMap_ok h hcr3 (pdindex_user (by omega)) hpop hmap
    exact ⟨role', hext⟩

/-- Copying a stack switches between the stack tables of the two threads. -/
theorem forkCopy_ok {d cr3Virt stackend : ℕ} {pid : Int} {parent child : Thread} {F G : ℕ}
    (n src dst : ℕ) (h : Owned role K m) (hcr3 : Directory role K m m.cr3)
    (hd : role d = .kern cr3Virt (.dir pid)) (hF : role F = .kern parent.stackpt .table)
    (hG : role G = .kern child.stackpt .table) (hparent : parent.stackpdi < 768)
    (hchild : child.stackpdi < 768) (hend : stackend ≤ kernelStart) (hdst : dst = src)
    (hcopy : forkCopy cr3Virt parent child stackend n src dst m = .ok m') :
    ∃ role', Extends K ∅ role m role' m' := by
  subst hdst
  induction n generalizing m role dst with
  | zero => simp [forkCopy] at hcopy
  | succ n ih =>
      unfold forkCopy at hcopy
      split_ifs at hcopy with hdone
      · obtain rfl := Except.ok.inj hcopy
        exact ⟨role, .refl h⟩
      · simp only [bind_ok, Prod.exists] at hcopy
        obtain ⟨p₁, m₁, ht₁, m₂, hs₂, p₃, m₃, ht₃, m₅, hs₅, hcopy⟩ := hcopy
        have hloaded : ∀ {role' m'}, Extends K ∅ role m role' m' → Directory role' K m' m'.cr3 :=
          fun hext => hext.loaded hcr3 (Set.notMem_empty _)
        have hkept : ∀ {role' m'} f a u, Extends K ∅ role m role' m' → role f = .kern a u →
            role' f = .kern a u := fun f a u hext hf =>
          (hext.kept f (Set.notMem_empty _) (.inr ⟨a, u, hf⟩)).trans hf
        obtain ⟨role₁, hext₁⟩ := touchStack_ok h hcr3 (by omega) ht₁
        have hext₂ := hext₁.trans (vmmSwitchStack_ok hext₁.owned (hloaded hext₁)
          (hkept d _ _ hext₁ hd) (hkept G _ _ hext₁ hG) hchild hs₂)
        obtain ⟨role₃, hext₃⟩ := touchStack_ok hext₂.owned (hloaded hext₂) (by omega) ht₃
        have hext₄ : Extends K ∅ role m role₃ (m₃.copyData p₃ p₁ (forkChunk dst stackend)) := by
          have hext := hext₂.trans hext₃
          exact ⟨hext.owned.setData _, hext.kept, fun f hf hl => hext.loose f hf hl,
            fun d hd hdir => (hext.dirs d hd hdir).mono rfl fun _ _ => rfl, hext.cr3⟩
        have hext₅ := hext₄.trans (vmmSwitchStack_ok hext₄.owned (hloaded hext₄)
          (hkept d _ _ hext₄ hd) (hkept F _ _ hext₄ hF) hparent hs₅)
        obtain ⟨role', hext'⟩ := ih _ hext₅.owned (hloaded hext₅) (hkept d _ _ hext₅ hd)
          (hkept F _ _ hext₅ hF) (hkept G _ _ hext₅ hG) hcopy
        exact ⟨role', hext₅.trans hext'⟩

end GalaxyOS
