import GalaxyOS.Sched.AddressSpace
import GalaxyOS.Sched.Frames

/-! # The program break

The loader leaves the break of a process at `L`; from then on `sched_setbrk_true` moves it.  The
first part says what the two page loops do: the loop that maps pages either maps all of them, or the
loop that unmaps pages takes the address space back to what it was.  `BreakAt L ps m` ties the break,
the end of the heap and the mapped pages together, and `setbrk_exact` says that every call keeps
them tied, whatever the free memory, and either moves the break or changes nothing.

`setbrk_exact` is about every sequence of calls.  One of them is `schedSetbrkTrue_spec`, from `brkGrow_spec`
and `brkShrink_spec`, which are inductions over the pages. -/

namespace GalaxyOS

open Transition

variable {m m' m₁ : Mem} {d lo p q : ℕ}

/-- The end of the heap region; behind it lies the region of the thread stacks. -/
def heapTop : ℕ := kernelStart - 0x400000

/-! ### The page loops -/

/-- The pages of `[p, q)` are mapped, and the others are what they were. -/
structure PagesMapped (d lo p q : ℕ) (m m' : Mem) : Prop where
  space : Space m' d lo
  cr3 : m'.cr3 = m.cr3
  mapped : ∀ b, p ≤ b → b < q → (pageEntry m' d b).isSome
  others : ∀ b < kernelStart, b < p ∨ q ≤ b → pageEntry m' d b = pageEntry m d b

/-- The pages of `[p, q)` are not mapped, and the others are what they were. -/
structure PagesUnmapped (d lo p q : ℕ) (m m' : Mem) : Prop where
  space : Space m' d lo
  cr3 : m'.cr3 = m.cr3
  unmapped : ∀ b, p ≤ b → b < q → pageEntry m' d b = none
  others : ∀ b < kernelStart, b < p ∨ q ≤ b → pageEntry m' d b = pageEntry m d b

/-- The address space is what it was, and only page tables are gone from the free frames. -/
structure SpaceRestored (d lo : ℕ) (m m' : Mem) : Prop where
  space : Space m' d lo
  cr3 : m'.cr3 = m.cr3
  pages : SamePages d m m'
  taken : TablesTaken d m m'

theorem pageEntry_page {a b : ℕ} (h : b / 0x1000 = a / 0x1000) :
    pageEntry m d b = pageEntry m d a := by
  have hpd : pdindex b = pdindex a := by
    unfold pdindex
    omega
  have hpt : ptindex b = ptindex a := by
    unfold ptindex
    rw [h]
  unfold pageEntry
  rw [hpd, hpt]

/-- The last round of the loop that unmaps heap pages. -/
theorem brkUnmap_last (m : Mem) (p n : ℕ) :
    brkUnmap m p (n + 1) = brkUnmap (brkUnmap m p n).2 (brkUnmap m p n).1 1 := by
  induction n generalizing m p with
  | zero => rfl
  | succ n ih =>
      rw [brkUnmap]
      exact ih _ _

theorem brkUnmap_spec {n : ℕ} (h : Space m d lo) (hcr3 : m.cr3 = d) (halign : p % 0x1000 = 0)
    (hle : p + 0x1000 * n ≤ kernelStart)
    (hmapped : ∀ b, p ≤ b → b < p + 0x1000 * n → (pageEntry m d b).isSome) :
    ∃ m', brkUnmap m (p + 0x1000 * n) n = (p, m') ∧ PagesUnmapped d lo p (p + 0x1000 * n) m m' := by
  induction n generalizing m with
  | zero => exact ⟨m, rfl, h, rfl, fun b h1 h2 => absurd h2 (Nat.not_lt_of_le h1), fun _ _ _ => rfl⟩
  | succ n ih =>
      obtain ⟨pte, hpte⟩ := Option.isSome_iff_exists.mp
        (hmapped (p + 0x1000 * n) (by omega) (by omega))
      obtain ⟨m₁, hround, hun⟩ := h.unmapPage hcr3 (by omega) (by omega) hpte
      have hkept : ∀ b < kernelStart, b < p + 0x1000 * n ∨ p + 0x1000 * (n + 1) ≤ b →
          pageEntry m₁ d b = pageEntry m d b := fun b hb hout => hun.others b hb (by omega)
      obtain ⟨m', hloop, hemp⟩ := ih hun.space (hun.cr3.trans hcr3) (by omega) fun b h1 h2 => by
        rw [hkept b (by omega) (.inl h2)]
        exact hmapped b h1 (by omega)
      refine ⟨m', ?_, hemp.space, hemp.cr3.trans hun.cr3, fun b h1 h2 => ?_, fun b hb hout => ?_⟩
      · rw [Nat.mul_succ, ← Nat.add_assoc, hround n]
        exact hloop
      · by_cases hlast : b < p + 0x1000 * n
        · exact hemp.unmapped b h1 hlast
        · rw [hemp.others b (by omega) (.inr (by omega)),
            pageEntry_page (show b / 0x1000 = (p + 0x1000 * n) / 0x1000 by omega)]
          exact hun.page
      · rw [hemp.others b hb (by omega)]
        exact hkept b hb (by omega)

/-- The loop that maps heap pages: it maps them all, or unmapping those it has mapped takes the
address space back. -/
theorem brkMap_spec {n : ℕ} (h : Space m d lo) (hcr3 : m.cr3 = d) (halign : p % 0x1000 = 0)
    (hlo : lo ≤ pdindex p) (hle : p + 0x1000 * n ≤ heapTop)
    (hfree : ∀ b, p ≤ b → b < p + 0x1000 * n → pageEntry m d b = none) :
    (∃ m', brkMap m p n = .ok (false, p + 0x1000 * n, m') ∧
      PagesMapped d lo p (p + 0x1000 * n) m m') ∨
    ∃ k m', brkMap m p n = .ok (true, p + 0x1000 * k, m') ∧
      (brkUnmap m' (p + 0x1000 * k) k).1 = p ∧
      SpaceRestored d lo m (brkUnmap m' (p + 0x1000 * k) k).2 := by
  induction n generalizing m p with
  | zero =>
      exact .inl ⟨m, rfl, h, rfl, fun b h1 h2 => absurd h2 (Nat.not_lt_of_le h1), fun _ _ _ => rfl⟩
  | succ n ih =>
      rw [Nat.mul_succ, ← Nat.add_assoc] at hle hfree ⊢
      by_cases hfew : pmmAvailable m < 8
      · refine .inr ⟨0, m, ?_, rfl, h, rfl, fun _ _ => rfl, .refl d m⟩
        rw [brkMap, if_pos hfew, Nat.mul_zero, Nat.add_zero]
      · have hlen : 8 ≤ m.pmemStack.length := Nat.not_lt.mp hfew
        obtain ⟨f, rest, hstack⟩ := List.exists_cons_of_length_pos (show 0 < m.pmemStack.length by omega)
        have hrest : rest ≠ [] := by
          rintro rfl
          rw [hstack] at hlen
          simp at hlen
        unfold heapTop kernelStart at hle
        obtain ⟨m₂, hmap, hpage⟩ := h.mapPage hcr3 hstack hrest hlo
          (show pdindex p < 767 by unfold pdindex; omega) (hfree p (by omega) (by omega))
        have hround : brkMap m p (n + 1) = brkMap m₂ (p + 0x1000) n := by
          rw [brkMap, if_neg hfew]
          simp only [pmmAllocPage, hstack, ok_bind, hmap]
          rfl
        have hkept : ∀ b < kernelStart, b < p ∨ p + 0x1000 ≤ b →
            pageEntry m₂ d b = pageEntry m d b := fun b hb hout => hpage.others b hb (by omega)
        rcases ih (p := p + 0x1000) hpage.space (hpage.cr3.trans hcr3) (by omega)
            (by unfold pdindex at hlo ⊢; omega) (by unfold heapTop kernelStart; omega)
            fun b h1 h2 => by
              rw [hkept b (by unfold kernelStart; omega) (.inr h1)]
              exact hfree b (by omega) (by omega) with
          ⟨m', hloop, hfill⟩ | ⟨k, m', hloop, hback, hres⟩
        · rw [Nat.add_right_comm] at hloop hfill
          refine .inl ⟨m', hround.trans hloop, hfill.space, hfill.cr3.trans hpage.cr3,
            fun b h1 h2 => ?_, fun b hb hout => ?_⟩
          · by_cases hfirst : b < p + 0x1000
            · rw [hfill.others b (by unfold kernelStart; omega) (.inl hfirst),
                pageEntry_page (show b / 0x1000 = p / 0x1000 by omega), hpage.page]
              rfl
            · exact hfill.mapped b (by omega) h2
          · rw [hfill.others b hb (by omega)]
            exact hkept b hb (by omega)
        · refine .inr ⟨k + 1, m', ?_, ?_⟩
          · rw [hround, hloop, Nat.mul_succ, ← Nat.add_assoc, Nat.add_right_comm]
          rw [Nat.mul_succ, ← Nat.add_assoc, Nat.add_right_comm, brkUnmap_last, hback]
          have hp : p < kernelStart := by
            unfold kernelStart
            omega
          -- the last round unmaps the page that was mapped first, and its frame is free again
          obtain ⟨m₃, hlastRound, hun⟩ := hres.space.unmapPage
            (hres.cr3.trans (hpage.cr3.trans hcr3)) hp halign ((hres.pages p hp).trans hpage.page)
          rw [hlastRound 0]
          refine ⟨rfl, hun.space, hun.cr3.trans (hres.cr3.trans hpage.cr3), fun b hb => ?_,
            (hpage.taken.trans hres.taken).giveBack hstack hun.stack hun.dir⟩
          by_cases hpageb : b / 0x1000 = p / 0x1000
          · show pageEntry m₃ d b = pageEntry m d b
            rw [pageEntry_page hpageb, hun.page, hfree b (by omega) (by omega)]
          · exact (hun.others b hb hpageb).trans ((hres.pages b hb).trans (hpage.others b hb hpageb))

/-! ### The break -/

/-- The break lies in the last page of the heap, which begins at `L`, and exactly the pages of the
heap are mapped. -/
structure BreakAt (L : ℕ) (ps : Process) (m : Mem) : Prop where
  offset : ps.pgbrk = L + ps.brkOffset
  round : ps.pgbrk = (ps.brk + 0xFFF) / 0x1000 * 0x1000
  lower : L ≤ ps.brk
  upper : ps.pgbrk ≤ heapTop
  pages : ∀ a, L ≤ a → a < heapTop → ((pageEntry m ps.cr3 a).isSome ↔ a < ps.pgbrk)

/-- What a call of `sched_setbrk_true` has done: the pages that stay in the heap, or stay outside it,
are what they were, and unless the break has been moved nothing has changed. -/
structure BreakMoved (L : ℕ) (ps : Process) (m : Mem) (addr r : ℕ) (ps' : Process) (m' : Mem) :
    Prop where
  at_break : BreakAt L ps' m'
  cr3 : ps'.cr3 = ps.cr3
  kept : ∀ a < kernelStart, (a < ps.pgbrk ↔ a < ps'.pgbrk) →
    pageEntry m' ps.cr3 a = pageEntry m ps.cr3 a
  moved : r = addr ↔ ps'.brk = addr
  unmoved : r ≠ addr → r = ps.brk ∧ ps' = ps ∧ SamePages ps.cr3 m m' ∧ TablesTaken ps.cr3 m m'

theorem BreakAt.minbrk {L : ℕ} {ps : Process} (h : BreakAt L ps m) : ps.minbrk = L := by
  have hoffset := h.offset
  have hupper := h.upper
  unfold heapTop kernelStart at hupper
  unfold Process.minbrk wrap32
  omega

theorem BreakAt.le_pgbrk {L : ℕ} {ps : Process} (h : BreakAt L ps m) : L ≤ ps.pgbrk :=
  h.offset ▸ Nat.le_add_right L _

theorem BreakAt.aligned {L : ℕ} {ps : Process} (h : BreakAt L ps m) : ps.pgbrk % 0x1000 = 0 := by
  rw [h.round]
  exact Nat.mul_mod_left _ _

/-- Behind the heap nothing is mapped. -/
theorem BreakAt.none_behind {L a : ℕ} {ps : Process} (h : BreakAt L ps m) (h1 : ps.pgbrk ≤ a)
    (h2 : a < heapTop) : pageEntry m ps.cr3 a = none := by
  have hpage := h.pages a (Nat.le_trans h.le_pgbrk h1) h2
  cases hentry : pageEntry m ps.cr3 a with
  | none => rfl
  | some pte =>
      rw [hentry] at hpage
      exact absurd (hpage.mp rfl) (Nat.not_lt_of_le h1)

theorem lt_kernelStart {a : ℕ} (h : a < heapTop) : a < kernelStart := by
  unfold heapTop at h
  omega

theorem BreakAt.samePages {L : ℕ} {ps : Process} (h : BreakAt L ps m)
    (hm : SamePages ps.cr3 m m') : BreakAt L ps m' := by
  refine ⟨h.offset, h.round, h.lower, h.upper, fun a h1 h2 => ?_⟩
  rw [hm a (lt_kernelStart h2)]
  exact h.pages a h1 h2

/-- The call has changed nothing. -/
theorem BreakAt.stay {L : ℕ} {ps : Process} (addr : ℕ) (h : BreakAt L ps m)
    (hm : SamePages ps.cr3 m m') (ht : TablesTaken ps.cr3 m m') :
    BreakMoved L ps m addr ps.brk ps m' :=
  ⟨h.samePages hm, rfl, fun a ha _ => hm a ha, Iff.rfl, fun _ => ⟨rfl, rfl, hm, ht⟩⟩

/-- The break has been moved to `addr`, and the pages between the old and the new end of the heap
have been mapped or unmapped. -/
theorem BreakAt.move {L addr : ℕ} {ps ps' : Process} (h : BreakAt L ps m) (hcr3 : ps'.cr3 = ps.cr3)
    (hbrk : ps'.brk = addr) (hoffset : ps'.pgbrk = L + ps'.brkOffset)
    (hround : ps'.pgbrk = (addr + 0xFFF) / 0x1000 * 0x1000) (hlower : L ≤ addr)
    (hupper : ps'.pgbrk ≤ heapTop)
    (hkept : ∀ a < kernelStart, (a < ps.pgbrk ↔ a < ps'.pgbrk) →
      pageEntry m' ps.cr3 a = pageEntry m ps.cr3 a)
    (hmapped : ∀ a, ps.pgbrk ≤ a → a < ps'.pgbrk → (pageEntry m' ps.cr3 a).isSome)
    (hunmapped : ∀ a, ps'.pgbrk ≤ a → a < ps.pgbrk → pageEntry m' ps.cr3 a = none) :
    BreakMoved L ps m addr addr ps' m' := by
  refine ⟨⟨hoffset, hbrk ▸ hround, hbrk ▸ hlower, hupper, fun a h1 h2 => ?_⟩, hcr3, hkept,
    iff_of_true rfl hbrk, fun hne => absurd rfl hne⟩
  rw [hcr3]
  by_cases hold : a < ps.pgbrk
  · by_cases hnew : a < ps'.pgbrk
    · rw [hkept a (lt_kernelStart h2) (iff_of_true hold hnew), h.pages a h1 h2]
      exact iff_of_true hold hnew
    · rw [hunmapped a (Nat.not_lt.mp hnew) hold]
      exact iff_of_false (by decide) hnew
  · by_cases hnew : a < ps'.pgbrk
    · exact iff_of_true (hmapped a (Nat.not_lt.mp hold) hnew) hnew
    · rw [hkept a (lt_kernelStart h2) (iff_of_false hold hnew), h.pages a h1 h2]
      exact iff_of_false hold hnew

theorem brkReserve_spec {n : ℕ} (h : Space m d lo) (hcr3 : m.cr3 = d) (halign : p % 0x1000 = 0)
    (hlo : lo ≤ pdindex p) (hle : p + 0x1000 * n ≤ heapTop)
    (hfree : ∀ b, p ≤ b → b < p + 0x1000 * n → pageEntry m d b = none) :
    (∃ m', brkReserve m p n = .ok (false, p + 0x1000 * n, m') ∧
      PagesMapped d lo p (p + 0x1000 * n) m m') ∨
    ∃ k m', brkReserve m p n = .ok (true, p + 0x1000 * k, m') ∧
      (brkUnmap m' (p + 0x1000 * k) k).1 = p ∧
      SpaceRestored d lo m (brkUnmap m' (p + 0x1000 * k) k).2 := by
  unfold brkReserve
  split_ifs with hhuge
  · exact .inr ⟨0, m, rfl, rfl, h, rfl, fun _ _ => rfl, .refl d m⟩
  · exact brkMap_spec h hcr3 halign hlo hle hfree

/-- Growing the heap moves the break or changes nothing. -/
theorem brkGrow_spec {L addr : ℕ} {ps : Process} (h : BreakAt L ps m)
    (hs : Space m ps.cr3 (pdindex L)) (hcr3 : m.cr3 = ps.cr3) (haddr : addr < kernelStart)
    (hle : L ≤ addr) (htop : roundBrk addr ≤ heapTop) (hlt : ps.pgbrk < roundBrk addr) :
    ∃ r ps' m', brkGrow ps m addr (roundBrk addr) = .ok (r, ps', m') ∧
      BreakMoved L ps m addr r ps' m' ∧ Space m' ps.cr3 (pdindex L) := by
  have hround := roundBrk_eq haddr
  have halign := h.aligned
  obtain ⟨n, hn⟩ : ∃ n, roundBrk addr = ps.pgbrk + 0x1000 * n :=
    ⟨(roundBrk addr - ps.pgbrk) / 0x1000, by have := roundBrk_aligned addr; omega⟩
  have hpages : (roundBrk addr - ps.pgbrk) / 0x1000 = n := by omega
  unfold brkGrow
  rw [hpages]
  rcases brkReserve_spec hs hcr3 halign (Nat.div_le_div_right h.le_pgbrk) (hn ▸ htop)
    (fun b h1 h2 => h.none_behind h1 (by omega)) with
    ⟨m', hmap, hfill⟩ | ⟨k, m', hmap, hback, hres⟩
  · have hoffset := h.offset
    have hwrap : wrap32 (ps.brkOffset + (roundBrk addr - ps.pgbrk)) =
        ps.brkOffset + (roundBrk addr - ps.pgbrk) := by
      unfold heapTop kernelStart at htop
      unfold wrap32
      omega
    rw [← hn] at hmap hfill
    have hmove : BreakMoved L ps m addr addr { ps with
        pgbrk := roundBrk addr
        brkOffset := ps.brkOffset + (roundBrk addr - ps.pgbrk)
        brk := addr } m' := by
      refine h.move rfl rfl ?_ hround hle htop (fun a ha hiff => ?_) hfill.mapped (fun a h1 h2 => ?_)
      · simp only
        omega
      · simp only at hiff
        exact hfill.others a ha (by omega)
      · simp only at h1
        omega
    refine ⟨addr, _, m', ?_, hmove, hfill.space⟩
    rw [hmap, hwrap]
    rfl
  · have hk : (ps.pgbrk + 0x1000 * k - ps.pgbrk) / 0x1000 = k := by omega
    refine ⟨ps.brk, ps, (brkUnmap m' (ps.pgbrk + 0x1000 * k) k).2, ?_,
      h.stay addr hres.pages hres.taken, hres.space⟩
    rw [hmap, ok_bind]
    simp only [hk]
    rfl

/-- Shrinking the heap moves the break. -/
theorem brkShrink_spec {L addr : ℕ} {ps : Process} (h : BreakAt L ps m)
    (hs : Space m ps.cr3 (pdindex L)) (hcr3 : m.cr3 = ps.cr3) (haddr : addr < kernelStart)
    (hle : L ≤ addr) (hlt : roundBrk addr < ps.pgbrk) :
    ∃ ps' m', brkShrink ps m addr (roundBrk addr) = (addr, ps', m') ∧
      BreakMoved L ps m addr addr ps' m' ∧ Space m' ps.cr3 (pdindex L) := by
  have hround := roundBrk_eq haddr
  have halign := h.aligned
  have hupper := h.upper
  have hoffset := h.offset
  obtain ⟨n, hn⟩ : ∃ n, ps.pgbrk = roundBrk addr + 0x1000 * n :=
    ⟨(ps.pgbrk - roundBrk addr) / 0x1000, by have := roundBrk_aligned addr; omega⟩
  have hpages : (ps.pgbrk - roundBrk addr) / 0x1000 = n := by omega
  obtain ⟨m', hunmap, hemp⟩ := brkUnmap_spec hs hcr3 (roundBrk_aligned addr)
    (show roundBrk addr + 0x1000 * n ≤ kernelStart by unfold heapTop at hupper; omega)
    (fun b h1 h2 => (h.pages b (by omega) (by omega)).mpr (by omega))
  rw [← hn] at hunmap hemp
  unfold brkShrink
  rw [hpages, hunmap]
  have hwrap : wrap32 (ps.brkOffset + 0x100000000 - (ps.pgbrk - roundBrk addr)) =
      ps.brkOffset - (ps.pgbrk - roundBrk addr) := by
    unfold heapTop kernelStart at hupper
    unfold wrap32
    omega
  refine ⟨_, m', rfl, h.move rfl rfl ?_ hround hle ?_ (fun a ha hiff => ?_) (fun a h1 h2 => ?_)
    hemp.unmapped, hemp.space⟩
  · simp only [hwrap]
    omega
  · simp only
    omega
  · simp only at hiff
    exact hemp.others a ha (by omega)
  · simp only at h2
    omega

/-- Moving the break in the directory of the process. -/
theorem brkMove_spec {L addr : ℕ} {ps : Process} (h : BreakAt L ps m)
    (hs : Space m ps.cr3 (pdindex L)) (hcr3 : m.cr3 = ps.cr3) (haddr : addr < kernelStart)
    (hle : L ≤ addr) (htop : roundBrk addr ≤ heapTop) (hne : ps.pgbrk ≠ roundBrk addr) :
    ∃ r ps' m', brkMove ps m addr (roundBrk addr) = .ok (r, ps', m') ∧
      BreakMoved L ps m addr r ps' m' ∧ Space m' ps.cr3 (pdindex L) := by
  unfold brkMove
  split_ifs with hlt
  · exact brkGrow_spec h hs hcr3 haddr hle htop hlt
  · obtain ⟨ps', m', hshrink, hmoved, hspace⟩ :=
      brkShrink_spec h hs hcr3 haddr hle (Nat.lt_of_le_of_ne (Nat.not_lt.mp hlt) hne.symm)
    exact ⟨addr, ps', m', congrArg Except.ok hshrink, hmoved, hspace⟩

/-- What a process sees does not depend on the directory that is loaded. -/
theorem BreakMoved.setCr3 {L addr r c c' : ℕ} {ps ps' : Process}
    (h : BreakMoved L ps { m with cr3 := c } addr r ps' m') :
    BreakMoved L ps m addr r ps' { m' with cr3 := c' } := by
  obtain ⟨h1, h2, h3, h4, h5⟩ := h
  refine ⟨⟨h1.offset, h1.round, h1.lower, h1.upper, h1.pages⟩, h2, h3, h4, fun hne => ?_⟩
  obtain ⟨hr, hps, hpages, htaken⟩ := h5 hne
  exact ⟨hr, hps, hpages, htaken.kept, htaken.frames⟩

/-- **One call of `sched_setbrk_true`.**  It returns, for every address and whatever the free
memory is. -/
theorem schedSetbrkTrue_spec {L : ℕ} {ps : Process} (addr : ℕ) (h : BreakAt L ps m)
    (hs : Space m ps.cr3 (pdindex L)) :
    ∃ r ps' m', schedSetbrkTrue ps m addr = .ok (r, ps', m') ∧ BreakMoved L ps m addr r ps' m' ∧
      Space m' ps.cr3 (pdindex L) := by
  have hstay := h.stay addr (fun _ _ => rfl) (.refl ps.cr3 m)
  unfold schedSetbrkTrue
  rw [h.minbrk]
  simp only
  split_ifs with hquery hrange hwrap hstack hsame
  · exact ⟨ps.brk, ps, m, rfl, hstay, hs⟩
  · exact ⟨ps.brk, ps, m, rfl, hstay, hs⟩
  · exact ⟨ps.brk, ps, m, rfl, hstay, hs⟩
  · exact ⟨ps.brk, ps, m, rfl, hstay, hs⟩
  · refine ⟨addr, _, m, rfl, h.move rfl rfl h.offset ?_ (by omega) h.upper (fun _ _ _ => rfl) ?_ ?_, hs⟩
    · rw [← roundBrk_eq (by omega)]
      exact hsame
    · exact fun a h1 h2 => absurd h2 (Nat.not_lt_of_le h1)
    · exact fun a h1 h2 => absurd h2 (Nat.not_lt_of_le h1)
  · have hself : BreakAt L ps { m with cr3 := ps.cr3 } :=
      ⟨h.offset, h.round, h.lower, h.upper, h.pages⟩
    obtain ⟨r, ps', m', hmove, hmoved, hspace⟩ := brkMove_spec hself (hs.setCr3 ps.cr3) rfl
      (show addr < kernelStart by omega) (by omega) (Nat.not_lt.mp hstack) hsame
    refine ⟨r, ps', { m' with cr3 := m.cr3 }, ?_, hmoved.setCr3, hspace.setCr3 m.cr3⟩
    rw [hmove]
    rfl

/-! ### Runs -/

/-- A process and the memory. -/
structure HeapState where
  ps : Process
  mem : Mem

/-- What happens to the heap of a process: it moves its break, or the rest of the kernel runs. -/
inductive HeapAct where
  | setbrk (addr : ℕ)
  | other

/-- The rest of the kernel may take and give back any frames, but leaves the pages of the process
alone and its address space in order. -/
inductive HeapStep (L : ℕ) : HeapState → HeapAct → HeapState → Prop
  | setbrk {st : HeapState} {addr r : ℕ} {ps' : Process} {m' : Mem} :
      schedSetbrkTrue st.ps st.mem addr = .ok (r, ps', m') → HeapStep L st (.setbrk addr) ⟨ps', m'⟩
  | other {st : HeapState} {m' : Mem} : SamePages st.ps.cr3 st.mem m' →
      Space m' st.ps.cr3 (pdindex L) → HeapStep L st .other ⟨st.ps, m'⟩

/-- The loader has put the break at `L`, and nothing is mapped behind it. -/
structure HeapStart (L : ℕ) (st : HeapState) : Prop where
  aligned : L % 0x1000 = 0
  upper : L ≤ heapTop
  brk : st.ps.brk = L
  pgbrk : st.ps.pgbrk = L
  brkOffset : st.ps.brkOffset = 0
  none : ∀ a, L ≤ a → a < heapTop → pageEntry st.mem st.ps.cr3 a = none
  space : Space st.mem st.ps.cr3 (pdindex L)

theorem HeapStart.breakAt {L : ℕ} {st : HeapState} (h : HeapStart L st) :
    BreakAt L st.ps st.mem := by
  have halign := h.aligned
  refine ⟨?_, ?_, ?_, ?_, fun a h1 h2 => ?_⟩
  · rw [h.pgbrk, h.brkOffset, Nat.add_zero]
  · rw [h.pgbrk, h.brk]
    omega
  · rw [h.brk]
  · rw [h.pgbrk]
    exact h.upper
  · rw [h.none a h1 h2, h.pgbrk]
    exact iff_of_false (by decide) (Nat.not_lt_of_le h1)

theorem HeapStep.keeps {L : ℕ} {st st' : HeapState} {a : HeapAct} (h : HeapStep L st a st')
    (hb : BreakAt L st.ps st.mem) (hs : Space st.mem st.ps.cr3 (pdindex L)) :
    BreakAt L st'.ps st'.mem ∧ Space st'.mem st'.ps.cr3 (pdindex L) := by
  cases h with
  | @setbrk addr r ps' m' hset =>
      obtain ⟨r₁, ps₁, m₁, hset₁, hmoved, hspace⟩ := schedSetbrkTrue_spec addr hb hs
      rw [hset] at hset₁
      simp only [Except.ok.injEq, Prod.mk.injEq] at hset₁
      obtain ⟨rfl, rfl, rfl⟩ := hset₁
      exact ⟨hmoved.at_break, hmoved.cr3 ▸ hspace⟩
  | @other m' hpages hspace =>
      exact ⟨hb.samePages hpages, hspace⟩

/-- **The program break.**  Whatever calls a process has made, whatever the rest of the kernel has
done with the free frames, the next call returns, leaves the break, the end of the heap and the pages
of the heap in agreement, and either moves the break or gives everything back. -/
theorem setbrk_exact {L : ℕ} {st : HeapState}
    (h : Reach (HeapStep L) (fun _ _ => True) (HeapStart L) st) (addr : ℕ) :
    ∃ r ps' m', schedSetbrkTrue st.ps st.mem addr = .ok (r, ps', m') ∧
      BreakMoved L st.ps st.mem addr r ps' m' := by
  have hinv : BreakAt L st.ps st.mem ∧ Space st.mem st.ps.cr3 (pdindex L) := by
    refine h.invariant (I := fun st => BreakAt L st.ps st.mem ∧ Space st.mem st.ps.cr3 (pdindex L))
      (fun st hst => ⟨hst.breakAt, hst.space⟩) ?_
    rintro st a st' ⟨hb, hs⟩ - hstep
    exact hstep.keeps hb hs
  obtain ⟨r, ps', m', hset, hmoved, -⟩ := schedSetbrkTrue_spec addr hinv.1 hinv.2
  exact ⟨r, ps', m', hset, hmoved⟩

/-- In a run of the kernel the address space of a process is in order, as far as frames go. -/
theorem reach_space {st : FrameState} {pid : Int} {ps : Process}
    (h : Reach FrameStep (fun st c => c.FramesOk st) FrameStart st)
    (hp : st.kernel.processes pid = some ps) (hsep : Separate st.kernel.mem ps.cr3)
    (hroom : st.kernel.mem.endMappedKmemory + 0x1000 * missingTables st.kernel.mem ps.cr3 lo <
      heapLimit) : Space st.kernel.mem ps.cr3 lo := by
  obtain ⟨role, K, hframe⟩ := reach_frameInv h
  exact ⟨⟨role, K, hframe.owned, hframe.live (.inr ⟨pid, ps, hp, rfl⟩)⟩, hsep, hroom⟩

/-! ### A heap -/

theorem missingTables_le (m : Mem) (d lo : ℕ) : missingTables m d lo ≤ 767 :=
  Nat.le_trans (Finset.card_filter_le _ _) (Nat.le_of_eq (Finset.card_range 767))

/-- The directory of the boot code maps no user page. -/
theorem BootMem.space (h : BootMem m) (lo : ℕ) : Space m m.cr3 lo := by
  have hmissing := missingTables_le m m.cr3 lo
  refine ⟨⟨_, _, h.owned, h.directory⟩, fun i hi j _ p q hp => ?_, ?_⟩
  · rw [h.user i hi] at hp
    cases hp
  · rw [h.heap]
    unfold heapBase heapLimit
    omega

/-- A process in the directory of the boot code, which was loaded below 4 MiB. -/
def bootHeap : HeapState :=
  { ps := { name := [], tids := [0], tidsSize := 128, tidsCap := 128, cr3 := 0x2FF000, cr3Virt := 0,
            pid := 0, image := [], environ := [], environSize := 0, pwd := none, argv := [],
            brk := 0x400000, pgbrk := 0x400000, brkOffset := 0, psregions := [], pagesUsed := 0,
            privilegeLevel := 3, state := .running, exitcode := 0, waitingThreads := 0, procerr := 0,
            procerrUnhandled := 0, procerrhandler := 0 }
    mem := bootMachine 24 }

theorem bootHeap_starts (frames : ℕ) :
    HeapStart 0x400000 { bootHeap with mem := bootMachine frames } := by
  have hboot := bootMachine_boot frames
  refine ⟨by decide, by decide, rfl, rfl, rfl, fun a _ ha => ?_, hboot.space _⟩
  show pageEntry (bootMachine frames) (bootMachine frames).cr3 a = none
  unfold pageEntry
  rw [hboot.user _ (pdindex_user (lt_kernelStart ha)), Option.bind_none]

theorem bootHeap_start : HeapStart 0x400000 bootHeap := bootHeap_starts 24

/-- The process of `bootHeap` takes two pages. -/
theorem setbrk_exact_grown : ∃ r ps' m',
    schedSetbrkTrue bootHeap.ps bootHeap.mem 0x401234 = .ok (r, ps', m') ∧
      BreakMoved 0x400000 bootHeap.ps bootHeap.mem 0x401234 r ps' m' :=
  setbrk_exact (.start bootHeap_start) 0x401234

/-- With ten free frames there are two pages to be had, but not three. -/
example : OkAnd (schedSetbrkTrue bootHeap.ps (bootMachine 10) 0x402000) (fun x => x.1 = 0x402000) ∧
    OkAnd (schedSetbrkTrue bootHeap.ps (bootMachine 10) 0x403000) (fun x => x.1 = 0x400000) := by
  decide +kernel

end GalaxyOS
