import GalaxyOS.Sched.ProgramBreak

/-! # `sbrk` of the C library

`sbrk` asks the kernel for the break with a null pointer, then asks for the sum, and takes the answer
to the second call for a refusal if it is the answer to the first.  An increment of 0 asks for the
break that is there already, so that it is reported as a failure.

The page hook of the allocator takes its blocks from `sbrk`.  A block that does not fit below the end
of the address space is an increment that wraps around, and the kernel may take the wrapped sum for a
lower break: the hook then returns a block that nothing backs.

`sbrk_exact_iff` says when `sbrk` keeps to its contract and that the blocks of the hook are apart in every
run whose requests fit.  `sbrk_spec` is one call, from `internalBrk_spec`, and `HookStep.stacked` and
`HookStep.not_below` are the steps of the runs. -/

namespace GalaxyOS

open Transition

/-! ### The calls -/

/-- `internal_brk`: the system call. -/
def internalBrk (st : HeapState) (addr : ℕ) : Except Fault (ℕ × HeapState) := do
  let (retvalue, ps, m) ← schedSetbrkTrue st.ps st.mem addr
  .ok (retvalue, ⟨ps, m⟩)

/-- `sbrk`; the memory is `m` when its second system call is made.  The increment is an `intptr_t`, and
the result `(void*)-1` is `0xFFFFFFFF`. -/
def sbrk (st : HeapState) (m : Mem) (increment : UInt32) : Except Fault (ℕ × HeapState) := do
  -- this syscall returns the current brk value when given NULL
  let (currentbrk, st₁) ← internalBrk st 0
  let newbrk := wrap32 (currentbrk + increment.toNat)
  let (changedbrk, st₂) ← internalBrk { st₁ with mem := m } newbrk
  if changedbrk = currentbrk then .ok (0xFFFFFFFF, st₂)
  else .ok (currentbrk, st₂)

/-- `liballoc_alloc` of the library: the address of the block, or 0. -/
def liballocPages (st : HeapState) (m : Mem) (pages : UInt32) : Except Fault (ℕ × HeapState) := do
  let (retval, st') ← sbrk st m (pages * 0x1000)
  if retval = 0xFFFFFFFF then .ok (0, st')
  else .ok (retval, st')

/-- The break that `sbrk` asks for, as a 32-bit address. -/
def HeapState.newbrk (st : HeapState) (increment : UInt32) : ℕ :=
  wrap32 (st.ps.brk + increment.toNat)

/-- The rest of the kernel has left the memory `m`. -/
def HeapState.Meanwhile (L : ℕ) (st : HeapState) (m : Mem) : Prop :=
  SamePages st.ps.cr3 st.mem m ∧ Space m st.ps.cr3 (pdindex L)

/-- The break lies where the pages of the heap end, and the address space is in order. -/
def HeapState.InOrder (L : ℕ) (st : HeapState) : Prop :=
  BreakAt L st.ps st.mem ∧ Space st.mem st.ps.cr3 (pdindex L)

/-- What `sbrk` and the kernel agree on: the result is the previous break exactly if the break is now
the sum, and in every other case it is `(void*)-1` and the break has not moved. -/
def SbrkAgrees (st : HeapState) (m : Mem) (increment : UInt32) : Prop :=
  ∃ r st', sbrk st m increment = .ok (r, st') ∧
    (r = st.ps.brk ↔ st'.ps.brk = st.newbrk increment) ∧
    (r ≠ st.ps.brk → r = 0xFFFFFFFF ∧ st'.ps.brk = st.ps.brk)

/-! ### One call -/

section Calls

variable {L : ℕ} {st : HeapState} {m : Mem} {increment : UInt32}

theorem HeapState.InOrder.meanwhile (h : st.InOrder L) (hm : st.Meanwhile L m) :
    HeapState.InOrder L { st with mem := m } :=
  ⟨h.1.samePages hm.1, hm.2⟩

theorem HeapState.InOrder.brk_lt (h : st.InOrder L) : st.ps.brk < kernelStart := by
  have hround := h.1.round
  have hupper := h.1.upper
  unfold heapTop kernelStart at hupper
  unfold kernelStart
  omega

/-- The kernel moves the break to the address, or answers with the break that it leaves. -/
theorem internalBrk_spec (addr : ℕ) (h : st.InOrder L) :
    ∃ r st', internalBrk st addr = .ok (r, st') ∧ st'.InOrder L ∧ st'.ps.brk = r ∧
      (r ≠ addr → r = st.ps.brk) := by
  obtain ⟨r, ps', m', hset, hmoved, hspace⟩ := schedSetbrkTrue_spec addr h.1 h.2
  refine ⟨r, ⟨ps', m'⟩, ?_, ⟨hmoved.at_break, ?_⟩, ?_, ?_⟩
  · unfold internalBrk
    rw [hset]
    rfl
  · rw [hmoved.cr3]
    exact hspace
  · by_cases hr : r = addr
    · rw [hmoved.moved.mp hr, hr]
    · obtain ⟨hold, hps, -⟩ := hmoved.unmoved hr
      rw [hps, hold]
  · intro hr
    exact (hmoved.unmoved hr).1

theorem internalBrk_null (st : HeapState) : internalBrk st 0 = .ok (st.ps.brk, st) := rfl

/-- A break that is not below the loader's is lowered whatever the memory holds. -/
theorem internalBrk_lower {addr : ℕ} (h : st.InOrder L) (h0 : addr ≠ 0) (hL : L ≤ addr)
    (hle : addr ≤ st.ps.brk) : ∃ st', internalBrk st addr = .ok (addr, st') := by
  have hbrk := h.brk_lt
  have hround := h.1.round
  have hupper := h.1.upper
  have hreal := roundBrk_eq (show addr < kernelStart by omega)
  unfold internalBrk schedSetbrkTrue
  rw [h.1.minbrk]
  simp only
  unfold heapTop at hupper
  rw [if_neg h0, if_neg (by omega), if_neg (by omega), if_neg (by omega)]
  split_ifs with hsame
  · exact ⟨_, rfl⟩
  · unfold brkMove
    rw [if_neg (by omega)]
    exact ⟨_, rfl⟩

/-- The sum is the break itself only if nothing is added. -/
theorem HeapState.InOrder.newbrk_eq_iff (increment : UInt32) (h : st.InOrder L) :
    st.newbrk increment = st.ps.brk ↔ increment = 0 := by
  have hbrk := h.brk_lt
  have hlt := increment.toNat_lt
  have hzero : increment = 0 ↔ increment.toNat = 0 := by
    rw [← UInt32.toNat_inj, UInt32.toNat_zero]
  rw [hzero]
  unfold HeapState.newbrk wrap32
  unfold kernelStart at hbrk
  omega

/-- `sbrk` returns.  It has moved the break and returns the old one, or it has not and says so. -/
theorem sbrk_spec (increment : UInt32) (h : st.InOrder L) (hm : st.Meanwhile L m) :
    ∃ r st', sbrk st m increment = .ok (r, st') ∧ st'.InOrder L ∧
      ((r = st.ps.brk ∧ st'.ps.brk = st.newbrk increment ∧ increment ≠ 0 ∧
        st.newbrk increment ≠ 0) ∨ (r = 0xFFFFFFFF ∧ st'.ps.brk = st.ps.brk)) := by
  have hnew := h.newbrk_eq_iff increment
  obtain ⟨r, st', hset, horder, hbrk, hold⟩ :=
    internalBrk_spec (st.newbrk increment) (h.meanwhile hm)
  have hrun : sbrk st m increment =
      if r = st.ps.brk then .ok (0xFFFFFFFF, st') else .ok (st.ps.brk, st') := by
    unfold sbrk
    rw [internalBrk_null, ok_bind]
    show (internalBrk { st with mem := m } (st.newbrk increment) >>= _) = _
    rw [hset]
    rfl
  by_cases hr : r = st.ps.brk
  · refine ⟨0xFFFFFFFF, st', ?_, horder, .inr ⟨rfl, hbrk.trans hr⟩⟩
    rw [hrun, if_pos hr]
  · have haddr : r = st.newbrk increment := by
      by_contra hne
      exact hr (hold hne)
    refine ⟨st.ps.brk, st', ?_, horder, .inl ⟨rfl, hbrk.trans haddr, ?_, ?_⟩⟩
    · rw [hrun, if_neg hr]
    · intro hzero
      exact hr (haddr.trans (hnew.mpr hzero))
    · intro hnull
      rw [hnull, internalBrk_null] at hset
      simp only [Except.ok.injEq, Prod.mk.injEq] at hset
      exact hr hset.1.symm

/-- A sum that has wrapped around to an address below the break, but not below the loader's, moves the
break down. -/
theorem sbrk_lower (h : st.InOrder L) (hm : st.Meanwhile L m) (h0 : st.newbrk increment ≠ 0)
    (hL : L ≤ st.newbrk increment) (hlt : st.newbrk increment < st.ps.brk) :
    ∃ st', sbrk st m increment = .ok (st.ps.brk, st') := by
  obtain ⟨st', hset⟩ := internalBrk_lower (h.meanwhile hm) h0 hL (Nat.le_of_lt hlt)
  refine ⟨st', ?_⟩
  unfold sbrk
  rw [internalBrk_null, ok_bind]
  show (internalBrk { st with mem := m } (st.newbrk increment) >>= _) = _
  rw [hset]
  show (if st.newbrk increment = st.ps.brk then _ else _) = _
  rw [if_neg (Nat.ne_of_lt hlt)]

theorem sbrkAgrees_iff (h : st.InOrder L) (hm : st.Meanwhile L m) :
    SbrkAgrees st m increment ↔ increment ≠ 0 := by
  have hlt := h.brk_lt
  have hnew := h.newbrk_eq_iff increment
  unfold kernelStart at hlt
  obtain ⟨r, st', hrun, -, hcase⟩ := sbrk_spec increment h hm
  constructor
  · rintro ⟨r₁, st₁, hrun₁, hiff, -⟩ hzero
    rw [hrun] at hrun₁
    simp only [Except.ok.injEq, Prod.mk.injEq] at hrun₁
    obtain ⟨rfl, rfl⟩ := hrun₁
    rcases hcase with ⟨-, -, hne, -⟩ | ⟨hr, hbrk⟩
    · exact hne hzero
    · have hreturned := hiff.mpr (hbrk.trans (hnew.mpr hzero).symm)
      omega
  · intro hne
    refine ⟨r, st', hrun, ?_, ?_⟩
    · rcases hcase with ⟨hr, hbrk, -, -⟩ | ⟨hr, hbrk⟩
      · exact iff_of_true hr hbrk
      · apply iff_of_false
        · omega
        · intro hsum
          exact hne (hnew.mp (hsum.symm.trans hbrk))
    · intro hr
      rcases hcase with ⟨hr', -⟩ | hfailed
      · exact absurd hr' hr
      · exact hfailed

end Calls

/-! ### The page hook -/

/-- The heap of a process and the blocks that the page hook has returned, as address and pages. -/
structure HookState where
  heap : HeapState
  blocks : List (ℕ × ℕ)

/-- What happens to it: the program moves its break itself, the hook is called, or the rest of the
kernel runs. -/
inductive HookAct where
  | setbrk (addr : ℕ)
  | alloc (pages : UInt32)
  | other

inductive HookStep (L : ℕ) : HookState → HookAct → HookState → Prop
  | setbrk {st : HookState} {addr r : ℕ} {heap' : HeapState} :
      internalBrk st.heap addr = .ok (r, heap') → HookStep L st (.setbrk addr) ⟨heap', st.blocks⟩
  | alloc {st : HookState} {m : Mem} {pages : UInt32} {r : ℕ} {heap' : HeapState} :
      st.heap.Meanwhile L m → liballocPages st.heap m pages = .ok (r, heap') →
      HookStep L st (.alloc pages)
        ⟨heap', if r = 0 then st.blocks else (r, pages.toNat) :: st.blocks⟩
  | other {st : HookState} {m : Mem} : st.heap.Meanwhile L m →
      HookStep L st .other ⟨{ st.heap with mem := m }, st.blocks⟩

/-- The program has just been loaded and holds no block. -/
def HookStart (L : ℕ) (st : HookState) : Prop := HeapStart L st.heap ∧ st.blocks = []

/-- The program does not lower its break itself.  A block ends below the end of the address space, or
the kernel refuses the sum that has wrapped around. -/
def HookAct.Fits (st : HookState) : HookAct → Prop
  | .setbrk addr => addr = 0 ∨ addr < st.heap.ps.minbrk ∨ st.heap.ps.brk ≤ addr
  | .alloc pages =>
      st.heap.ps.brk + 0x1000 * pages.toNat < 0x100000000 ∨
        st.heap.newbrk (pages * 0x1000) = 0 ∨
        st.heap.newbrk (pages * 0x1000) < st.heap.ps.minbrk ∨
        st.heap.newbrk (pages * 0x1000) = st.heap.ps.brk ∨
        heapTop < st.heap.newbrk (pages * 0x1000)
  | .other => True

/-- No two blocks have an address in common, and all of them lie below the break. -/
structure HookState.BlocksOk (st : HookState) : Prop where
  disjoint : st.blocks.Pairwise fun b c => ∀ a, ¬((b.1 ≤ a ∧ a < b.1 + 0x1000 * b.2) ∧
    c.1 ≤ a ∧ a < c.1 + 0x1000 * c.2)
  below : ∀ b ∈ st.blocks, b.1 + 0x1000 * b.2 ≤ st.heap.ps.brk

/-- A later block begins where the earlier ones have ended, or behind that. -/
structure HookState.Stacked (st : HookState) : Prop where
  ordered : st.blocks.Pairwise fun b c => c.1 + 0x1000 * c.2 ≤ b.1
  below : ∀ b ∈ st.blocks, b.1 + 0x1000 * b.2 ≤ st.heap.ps.brk

theorem HookState.Stacked.blocksOk {st : HookState} (h : st.Stacked) : st.BlocksOk := by
  refine ⟨h.ordered.imp ?_, h.below⟩
  intro b c hbc a hin
  omega

theorem HookState.Stacked.raise {st : HookState} {heap' : HeapState} (h : st.Stacked)
    (hle : st.heap.ps.brk ≤ heap'.ps.brk) : HookState.Stacked ⟨heap', st.blocks⟩ := by
  refine ⟨h.ordered, fun b hb => ?_⟩
  exact Nat.le_trans (h.below b hb) hle

/-- A block that begins at the old break and ends at the new one. -/
theorem HookState.Stacked.push {st : HookState} {heap' : HeapState} {pages : ℕ} (h : st.Stacked)
    (hle : st.heap.ps.brk + 0x1000 * pages ≤ heap'.ps.brk) :
    HookState.Stacked ⟨heap', (st.heap.ps.brk, pages) :: st.blocks⟩ := by
  constructor
  · apply List.Pairwise.cons
    · exact h.below
    · exact h.ordered
  · intro b hb
    rcases List.mem_cons.mp hb with rfl | hb
    · exact hle
    · have hbelow := h.below b hb
      show _ ≤ heap'.ps.brk
      omega

section Hook

variable {L : ℕ} {st st' : HookState} {m : Mem} {pages : UInt32}

theorem liballocPages_spec (pages : UInt32) (h : st.heap.InOrder L) (hm : st.heap.Meanwhile L m) :
    ∃ r heap', liballocPages st.heap m pages = .ok (r, heap') ∧ heap'.InOrder L ∧
      ((r = st.heap.ps.brk ∧ heap'.ps.brk = st.heap.newbrk (pages * 0x1000) ∧
        pages * 0x1000 ≠ 0 ∧ st.heap.newbrk (pages * 0x1000) ≠ 0) ∨
        (r = 0 ∧ heap'.ps.brk = st.heap.ps.brk)) := by
  have hlt := h.brk_lt
  unfold kernelStart at hlt
  obtain ⟨r, heap', hrun, horder, hcase⟩ := sbrk_spec (pages * 0x1000) h hm
  unfold liballocPages
  rw [hrun, ok_bind]
  rcases hcase with ⟨hr, hmoved⟩ | ⟨hr, hbrk⟩
  · refine ⟨r, heap', ?_, horder, .inl ⟨hr, hmoved⟩⟩
    show (if r = 0xFFFFFFFF then _ else _) = _
    rw [if_neg (by omega)]
  · refine ⟨0, heap', ?_, horder, .inr ⟨rfl, hbrk⟩⟩
    show (if r = 0xFFFFFFFF then _ else _) = _
    rw [if_pos hr]

theorem HookStep.inOrder {a : HookAct} (hstep : HookStep L st a st') (h : st.heap.InOrder L) :
    st'.heap.InOrder L := by
  cases hstep with
  | @setbrk addr r heap' hset =>
      obtain ⟨r₁, heap₁, hset₁, horder, -⟩ := internalBrk_spec addr h
      rw [hset] at hset₁
      simp only [Except.ok.injEq, Prod.mk.injEq] at hset₁
      obtain ⟨rfl, rfl⟩ := hset₁
      exact horder
  | @alloc m pages r heap' hm hrun =>
      obtain ⟨r₁, heap₁, hrun₁, horder, -⟩ := liballocPages_spec pages h hm
      rw [hrun] at hrun₁
      simp only [Except.ok.injEq, Prod.mk.injEq] at hrun₁
      obtain ⟨rfl, rfl⟩ := hrun₁
      exact horder
  | @other m hm => exact h.meanwhile hm

theorem HookStart.inOrder (h : HookStart L st) : st.heap.InOrder L := ⟨h.1.breakAt, h.1.space⟩

theorem reach_inOrder (h : Reach (HookStep L) (fun _ _ => True) (HookStart L) st) :
    st.heap.InOrder L := by
  refine h.invariant (I := fun st => st.heap.InOrder L) (fun st hst => hst.inOrder) ?_
  rintro st a st' horder - hstep
  exact hstep.inOrder horder

/-- 32-bit arithmetic on the size of a block. -/
theorem HeapState.newbrk_pages (st : HeapState) (pages : UInt32) :
    st.newbrk (pages * 0x1000) = (st.ps.brk + 0x1000 * pages.toNat) % 0x100000000 := by
  unfold HeapState.newbrk wrap32
  rw [UInt32.toNat_mul]
  show (st.ps.brk + pages.toNat * 0x1000 % 0x100000000) % 0x100000000 = _
  omega

/-- The kernel keeps the break between the loader's and the top of the heap. -/
theorem HeapState.InOrder.newbrk_range {st' : HeapState} (h : st'.InOrder L) :
    L ≤ st'.ps.brk ∧ st'.ps.brk ≤ heapTop := by
  have hlower := h.1.lower
  have hround := h.1.round
  have hupper := h.1.upper
  omega

/-- A step that fits keeps the blocks apart and below the break. -/
theorem HookStep.stacked {a : HookAct} (hstep : HookStep L st a st') (h : st.heap.InOrder L)
    (hfits : a.Fits st) (hs : st.Stacked) : st'.Stacked := by
  cases hstep with
  | @setbrk addr r heap' hset =>
      obtain ⟨r₁, heap₁, hset₁, horder, hbrk, hold⟩ := internalBrk_spec addr h
      rw [hset] at hset₁
      simp only [Except.ok.injEq, Prod.mk.injEq] at hset₁
      obtain ⟨rfl, rfl⟩ := hset₁
      apply hs.raise
      by_cases hr : r = addr
      · have hrange := horder.newbrk_range
        have hmin := h.1.minbrk
        rcases hfits with hzero | hlow | hge
        · rw [hzero, internalBrk_null] at hset
          simp only [Except.ok.injEq, Prod.mk.injEq] at hset
          rw [hset.2]
        · omega
        · omega
      · rw [hbrk, hold hr]
  | @alloc m pages r heap' hm hrun =>
      obtain ⟨r₁, heap₁, hrun₁, horder, hcase⟩ := liballocPages_spec pages h hm
      rw [hrun] at hrun₁
      simp only [Except.ok.injEq, Prod.mk.injEq] at hrun₁
      obtain ⟨rfl, rfl⟩ := hrun₁
      have hrange := horder.newbrk_range
      have hmin := h.1.minbrk
      have hnew := st.heap.newbrk_pages pages
      have hzero := h.newbrk_eq_iff (pages * 0x1000)
      rcases hcase with ⟨hr, hbrk, hne, hnull⟩ | ⟨hr, hbrk⟩
      · have hgrown : st.heap.ps.brk + 0x1000 * pages.toNat ≤ heap'.ps.brk := by
          rcases hfits with hlt | hz | hlow | hsame | htop
          · omega
          · exact absurd hz hnull
          · omega
          · exact absurd (hzero.mp hsame) hne
          · omega
        split_ifs with hr0
        · apply hs.raise
          omega
        · rw [hr]
          exact hs.push hgrown
      · rw [if_pos hr]
        apply hs.raise
        omega
  | @other m hm => exact hs.raise (Nat.le_refl _)

/-- The block of a request that does not fit is not below the break. -/
theorem HookStep.not_below (hstep : HookStep L st (.alloc pages) st') (h : st.heap.InOrder L)
    (hpages : pages.toNat ≤ 0x100000) (hfits : ¬(HookAct.alloc pages).Fits st) :
    ¬st'.BlocksOk := by
  intro hok
  have hmin := h.1.minbrk
  have hnew := st.heap.newbrk_pages pages
  have hrange := h.newbrk_range
  unfold heapTop kernelStart at hrange
  unfold HookAct.Fits at hfits
  simp only [not_or] at hfits
  obtain ⟨hwrap, hnull, hlow, hsame, -⟩ := hfits
  cases hstep with
  | @alloc m pages r heap' hm hrun =>
      obtain ⟨heap₁, hrun₁⟩ := sbrk_lower h hm hnull (by omega) (by omega)
      have hret : liballocPages st.heap m pages = .ok (st.heap.ps.brk, heap₁) := by
        unfold liballocPages
        rw [hrun₁, ok_bind]
        show (if st.heap.ps.brk = 0xFFFFFFFF then _ else _) = _
        rw [if_neg (by omega)]
      rw [hret] at hrun
      simp only [Except.ok.injEq, Prod.mk.injEq] at hrun
      obtain ⟨rfl, rfl⟩ := hrun
      obtain ⟨r₂, heap₂, hrun₂, horder, -⟩ := liballocPages_spec pages h hm
      rw [hret] at hrun₂
      simp only [Except.ok.injEq, Prod.mk.injEq] at hrun₂
      obtain ⟨-, rfl⟩ := hrun₂
      have hrange' := horder.newbrk_range
      unfold heapTop kernelStart at hrange'
      have hbelow := hok.below (st.heap.ps.brk, pages.toNat) (by
        rw [if_neg (by omega)]
        exact List.mem_cons_self)
      simp only at hbelow
      omega

theorem reach_stacked (h : Reach (HookStep L) (fun st a => a.Fits st) (HookStart L) st) :
    st.Stacked := by
  have hinv : st.heap.InOrder L ∧ st.Stacked := by
    refine h.invariant (I := fun st => st.heap.InOrder L ∧ st.Stacked) (fun st hst => ?_) ?_
    · refine ⟨hst.inOrder, ?_, ?_⟩
      · rw [hst.2]
        exact .nil
      · rw [hst.2]
        exact fun b hb => absurd hb List.not_mem_nil
    · rintro st a st' ⟨horder, hs⟩ hfits hstep
      exact ⟨hstep.inOrder horder, hstep.stacked horder hfits hs⟩
  exact hinv.2

end Hook

/-! ### Runs -/

/-- **`sbrk` and the kernel.**  In every state of the break, and whatever the rest of the kernel does
between the two system calls, they agree on every increment but 0.  The blocks of the page hook are
disjoint and below the break in every run in which every request fits; one that does not fit (of at
most the pages of the address space) is answered with a block that is not below the break. -/
theorem sbrk_exact_iff {L : ℕ} {st : HookState}
    (h : Reach (HookStep L) (fun _ _ => True) (HookStart L) st) :
    (∀ m increment, st.heap.Meanwhile L m → (SbrkAgrees st.heap m increment ↔ increment ≠ 0)) ∧
      (Reach (HookStep L) (fun st a => a.Fits st) (HookStart L) st → st.BlocksOk) ∧
      (∀ pages st', HookStep L st (.alloc pages) st' → pages.toNat ≤ 0x100000 →
        ¬(HookAct.alloc pages).Fits st → ¬st'.BlocksOk) := by
  have horder := reach_inOrder h
  refine ⟨?_, ?_, ?_⟩
  · intro m increment hm
    exact sbrkAgrees_iff horder hm
  · intro hfits
    exact (reach_stacked hfits).blocksOk
  · intro pages st' hstep hpages hfits
    exact hstep.not_below horder hpages hfits

/-- The process of `bootHeap`, whose break is where the loader put it. -/
def bootHook : HookState := ⟨bootHeap, []⟩

theorem bootHook_start : HookStart 0x400000 bootHook := ⟨bootHeap_start, rfl⟩

/-- The hook of `bootHook` is asked for one page and returns it. -/
theorem sbrk_exact_page : ∃ heap',
    Reach (HookStep 0x400000) (fun _ _ => True) (HookStart 0x400000)
      ⟨heap', [(0x400000, 1)]⟩ ∧
    HookState.BlocksOk ⟨heap', [(0x400000, 1)]⟩ ∧ SbrkAgrees heap' heap'.mem 1 := by
  have hm : bootHook.heap.Meanwhile 0x400000 bootHeap.mem :=
    ⟨fun _ _ => rfl, bootHeap_start.space⟩
  have hrun : OkAnd (liballocPages bootHeap bootHeap.mem 1) (fun x => x.1 = 0x400000) := by
    decide +kernel
  obtain ⟨⟨r, heap'⟩, hrun, hr⟩ := hrun.exists_ok
  simp only at hr
  subst hr
  have hstep : HookStep 0x400000 bootHook (.alloc 1) ⟨heap', [(0x400000, 1)]⟩ := .alloc hm hrun
  have hfits : (HookAct.alloc 1).Fits bootHook := .inl (by decide)
  have hreach : Reach (HookStep 0x400000) (fun _ _ => True) (HookStart 0x400000) _ :=
    .next (.start bootHook_start) trivial hstep
  have horder := hstep.inOrder bootHook_start.inOrder
  obtain ⟨hagrees, hblocks, -⟩ := sbrk_exact_iff hreach
  refine ⟨heap', hreach, hblocks (.next (.start bootHook_start) hfits hstep), ?_⟩
  exact (hagrees heap'.mem 1 ⟨fun _ _ => rfl, horder.2⟩).mpr (by decide)

/-- `sbrk(0)` is answered with -1, though the break is the old break plus 0. -/
theorem sbrk_zero_refused : sbrk bootHeap bootHeap.mem 0 = .ok (0xFFFFFFFF, bootHeap) ∧
    ¬SbrkAgrees bootHeap bootHeap.mem 0 := by
  have hrun : sbrk bootHeap bootHeap.mem 0 = .ok (0xFFFFFFFF, bootHeap) := rfl
  refine ⟨hrun, ?_⟩
  rintro ⟨r, st', hrun', hiff, -⟩
  rw [hrun] at hrun'
  simp only [Except.ok.injEq, Prod.mk.injEq] at hrun'
  obtain ⟨rfl, rfl⟩ := hrun'
  exact absurd (hiff.mpr rfl) (by decide)

/-- With two pages in use, a request for 0xFFFFF pages takes one of them away: the break is lowered to
0x401000, and the block begins at 0x402000. -/
example : OkAnd (liballocPages bootHeap bootHeap.mem 2 >>= fun x =>
      liballocPages x.2 x.2.mem 0xFFFFF)
    (fun x => x.1 = 0x402000 ∧ x.2.ps.brk = 0x401000) := by
  decide +kernel

end GalaxyOS
