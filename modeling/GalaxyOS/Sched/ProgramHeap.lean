import GalaxyOS.Libc.Sbrk
import GalaxyOS.Mem.LiballocChecked
import GalaxyOS.Sched.Loading

/-! # The allocator of a program

The C library takes the blocks of its `malloc` from `sbrk`, which moves the program break with the `brk`
system call, and never gives them back.  The pages that come with a larger break were not there before.
But the size is added to the break in 32 bits, so that a huge request can make the break smaller; then
there is nothing where the new block should be.

`program_malloc_serves` and `program_malloc_killed_iff` are about every run of a program.  They are the
results about lawful hooks for the hooks that fail where nothing is mapped: `programHooks_lawful` says that
these are lawful, from `ProgramOk.sbrk`, and `program_step` is one call. -/

namespace GalaxyOS

open Transition Records Linked BlockStore

/-- A byte of the program, below the region of the thread stacks. -/
def programByte (st : HeapState) (a : ℕ) : Option UInt8 :=
  if a < heapTop then userByte st.mem st.ps.cr3 a else none

/-- A store of the program. -/
def programStore (st : HeapState) (a : ℕ) (b : UInt8) : HeapState :=
  match userCell st.mem st.ps.cr3 a with
  | none => st
  | some x => { st with mem := { st.mem with data := Function.update st.mem.data x b } }

/-- The hooks of `liballoc-sys.c`; `liballoc_free` does nothing. -/
def programHooks : LiballocHooks HeapState where
  load := programByte
  store := programStore
  liballocAlloc st pages := liballocPages st st.mem (UInt32.ofNat pages)
  liballocFree st _ _ := (0, st)

/-- The loader has put the break at `L`, only whole pages have been added, and nothing is mapped at the
null pointer. -/
structure ProgramOk (L : ℕ) (st : HeapState) : Prop where
  start : 0 < L
  break_at : BreakAt L st.ps st.mem
  space : Space st.mem st.ps.cr3 (pdindex L)
  aligned : st.ps.brk % 0x1000 = 0
  null : pageEntry st.mem st.ps.cr3 0 = none

variable {L a n k r addr : ℕ} {st st' : HeapState} {m m' : Mem} {ps ps' : Process}

/-! ### The bytes -/

theorem brkUnmap_data (p n : ℕ) : (brkUnmap m p n).2.data = m.data := by
  induction n generalizing m p with
  | zero => rfl
  | succ n ih =>
      have hunmap : ∀ (m : Mem) (a : ℕ), (vmmUnmapPage m a).2.data = m.data := by
        intro m a
        unfold vmmUnmapPage
        split
        · rfl
        · split <;> rfl
      unfold brkUnmap
      refine (ih _).trans ?_
      split_ifs
      · exact hunmap _ _
      · rfl

theorem brkMap_data {failed : Bool} (n : ℕ) : ∀ {m m' : Mem} {p q : ℕ},
    brkMap m p n = .ok (failed, q, m') → m'.data = m.data := by
  induction n with
  | zero =>
      intro m m' p q h
      rw [(Prod.mk.inj (Prod.mk.inj (Except.ok.inj h)).2).2]
  | succ n ih =>
      intro m m' p q h
      unfold brkMap at h
      split_ifs at h
      · rw [(Prod.mk.inj (Prod.mk.inj (Except.ok.inj h)).2).2]
      · obtain ⟨⟨page, m₁⟩, hpop, h⟩ := bind_ok.mp h
        obtain ⟨⟨r, m₂⟩, hmap, h⟩ := bind_ok.mp h
        have hdata : m₂.data = m.data := (vmmMapPageF_data _ hmap).trans (pmmAllocPage_data hpop)
        simp only at h
        split_ifs at h
        · rw [← (Prod.mk.inj (Prod.mk.inj (Except.ok.inj h)).2).2, ← hdata]
          rfl
        · exact (ih h).trans hdata

/-- Moving the break does not write to the pages. -/
theorem schedSetbrkTrue_data (h : schedSetbrkTrue ps m addr = .ok (r, ps', m')) : m'.data = m.data := by
  unfold schedSetbrkTrue at h
  simp only at h
  split_ifs at h
  all_goals try rw [← (Prod.mk.inj (Prod.mk.inj (Except.ok.inj h)).2).2]
  obtain ⟨⟨r', ps₁, m₁⟩, hmove, h⟩ := bind_ok.mp h
  rw [← (Prod.mk.inj (Prod.mk.inj (Except.ok.inj h)).2).2]
  show m₁.data = m.data
  unfold brkMove at hmove
  split_ifs at hmove
  · obtain ⟨⟨failed, q, m₂⟩, hmap, hmove⟩ := bind_ok.mp hmove
    have hdata : m₂.data = m.data := by
      unfold brkReserve at hmap
      split_ifs at hmap
      · rw [← (Prod.mk.inj (Prod.mk.inj (Except.ok.inj hmap)).2).2]
      · exact (brkMap_data _ hmap : m₂.data = ({ m with cr3 := ps.cr3 } : Mem).data)
    simp only at hmove
    split_ifs at hmove
    · rw [← (Prod.mk.inj (Prod.mk.inj (Except.ok.inj hmove)).2).2, ← hdata]
      exact brkUnmap_data _ _
    · rw [← (Prod.mk.inj (Prod.mk.inj (Except.ok.inj hmove)).2).2, ← hdata]
  · rw [← (Prod.mk.inj (Prod.mk.inj (Except.ok.inj hmove)).2).2]
    exact brkUnmap_data _ _

theorem programByte_congr (hpage : pageEntry st'.mem st'.ps.cr3 a = pageEntry st.mem st.ps.cr3 a)
    (hdata : st'.mem.data = st.mem.data) : programByte st' a = programByte st a := by
  unfold programByte userByte userCell
  rw [hpage, hdata]

theorem programByte_eq_none (ha : a < heapTop) :
    programByte st a = none ↔ pageEntry st.mem st.ps.cr3 a = none := by
  unfold programByte userByte userCell
  rw [if_pos ha, Option.map_eq_none_iff, Option.map_eq_none_iff]

theorem programByte_lt (h : programByte st a ≠ none) : a < heapTop := by
  by_contra hge
  unfold programByte at h
  rw [if_neg hge] at h
  exact h rfl

/-- The directory of the process, loaded. -/
theorem ProgramOk.addressSpace (h : ProgramOk L st) :
    ∃ role K, AddressSpace role K { st.mem with cr3 := st.ps.cr3 } := by
  obtain ⟨⟨role, K, howned, hdir⟩, hseparate, -⟩ := h.space
  exact ⟨role, K, howned.setCr3 _, hdir.mono rfl fun _ _ => rfl, hseparate⟩

/-- A byte is stored where it is read, and nowhere else. -/
theorem ProgramOk.load_store (h : ProgramOk L st) (b : UInt8) (ha : programByte st a ≠ none) :
    programByte (programStore st a b) = Function.update (programByte st) a (some b) := by
  have hlt := programByte_lt ha
  obtain ⟨role, K, hspace⟩ := h.addressSpace
  have hpage := mt (programByte_eq_none hlt).mpr ha
  obtain ⟨x, hx⟩ := Option.ne_none_iff_exists'.mp (userCell_ne_none.mpr hpage)
  have hstored : programStore st a b =
      { st with mem := { st.mem with data := Function.update st.mem.data x b } } := by
    unfold programStore
    rw [hx]
  rw [hstored]
  funext y
  have hcell : userCell { st.mem with data := Function.update st.mem.data x b } st.ps.cr3 y =
      userCell st.mem st.ps.cr3 y := rfl
  unfold programByte userByte
  simp only [hcell]
  by_cases hya : y = a
  · subst hya
    rw [Function.update_self, if_pos hlt, hx, Option.map_some, Function.update_self]
  · rw [Function.update_of_ne hya]
    split_ifs with hy
    · cases hz : userCell st.mem st.ps.cr3 y with
      | none => rfl
      | some z =>
          rw [Option.map_some, Option.map_some, Function.update_of_ne]
          rintro rfl
          exact hya (hspace.cell_inj (lt_kernelStart hy) (lt_kernelStart hlt) hz hx)
    · rfl

theorem ProgramOk.store (h : ProgramOk L st) (b : UInt8) : ProgramOk L (programStore st a b) := by
  unfold programStore
  cases hx : userCell st.mem st.ps.cr3 a with
  | none => exact h
  | some x =>
      obtain ⟨⟨role, K, howned, hdir⟩, hseparate, hroom⟩ := h.space
      exact ⟨h.start, ⟨h.break_at.offset, h.break_at.round, h.break_at.lower, h.break_at.upper,
        h.break_at.pages⟩, ⟨⟨role, K, howned.setData _, hdir.mono rfl fun _ _ => rfl⟩, hseparate, hroom⟩,
        h.aligned, h.null⟩

/-! ### The program break -/

/-- The program break of a program that adds whole pages is the end of its pages. -/
theorem ProgramOk.pgbrk (h : ProgramOk L st) : st.ps.pgbrk = st.ps.brk := by
  have hround := h.break_at.round
  have halign := h.aligned
  omega

/-- A program can always give pages back. -/
theorem ProgramOk.setbrk_lower (h : ProgramOk L st) (haddr : addr % 0x1000 = 0) (hlo : L ≤ addr)
    (hhi : addr ≤ st.ps.brk) : ∃ ps' m', schedSetbrkTrue st.ps st.mem addr = .ok (addr, ps', m') := by
  have hupper := h.break_at.upper
  have hpgbrk := h.break_at.round
  have halign := h.aligned
  have hround := roundBrk_eq (show addr < kernelStart by unfold heapTop kernelStart at *; omega)
  have hstart := h.start
  unfold schedSetbrkTrue
  rw [h.break_at.minbrk]
  simp only
  rw [if_neg (by omega), if_neg (by unfold heapTop kernelStart at *; omega), if_neg (by omega),
    if_neg (by unfold heapTop kernelStart at *; omega)]
  split_ifs with hsame
  · exact ⟨_, _, rfl⟩
  · unfold brkMove
    rw [if_neg (by omega)]
    exact ⟨_, _, rfl⟩

/-- A `brk` of whole pages. -/
theorem ProgramOk.internalBrk (h : ProgramOk L st) (haddr : addr % 0x1000 = 0) :
    ∃ r st', GalaxyOS.internalBrk st addr = .ok (r, st') ∧ ProgramOk L st' ∧
      BreakMoved L st.ps st.mem addr r st'.ps st'.mem ∧ st'.mem.data = st.mem.data ∧
      (L ≤ addr → addr ≤ st.ps.brk → r = addr) := by
  obtain ⟨r, ps', m', hrun, hmoved, hspace⟩ := schedSetbrkTrue_spec addr h.break_at h.space
  refine ⟨r, ⟨ps', m'⟩, ?_, ⟨h.start, hmoved.at_break, ?_, ?_, ?_⟩, hmoved, schedSetbrkTrue_data hrun,
    fun hlo hhi => ?_⟩
  · unfold GalaxyOS.internalBrk
    rw [hrun, ok_bind]
  · show Space m' ps'.cr3 (pdindex L)
    rw [hmoved.cr3]
    exact hspace
  · show ps'.brk % 0x1000 = 0
    by_cases hr : r = addr
    · rw [hmoved.moved.mp hr]
      exact haddr
    · rw [(hmoved.unmoved hr).2.1]
      exact h.aligned
  · show pageEntry m' ps'.cr3 0 = none
    have hlower := hmoved.at_break.le_pgbrk
    have hlower' := h.break_at.le_pgbrk
    have hstart := h.start
    rw [hmoved.cr3, hmoved.kept 0 (by decide) (iff_of_true (by omega) (by omega))]
    exact h.null
  · obtain ⟨ps'', m'', hrun'⟩ := h.setbrk_lower haddr hlo hhi
    exact (Prod.mk.inj (Except.ok.inj (hrun.symm.trans hrun'))).1

/-- The break that `sbrk` asks for. -/
def wantedBrk (st : HeapState) (n : ℕ) : ℕ := wrap32 (st.ps.brk + n * 0x1000)

/-- `sbrk` of some pages: the break stays, or it moves. -/
theorem ProgramOk.sbrk (h : ProgramOk L st) (n : ℕ) : ∃ r st',
    liballocPages st st.mem (UInt32.ofNat n) = .ok (r, st') ∧ ProgramOk L st' ∧ st'.mem.data = st.mem.data ∧
      st'.ps.cr3 = st.ps.cr3 ∧
      (∀ a < kernelStart, (a < st.ps.brk ↔ a < st'.ps.brk) →
        pageEntry st'.mem st.ps.cr3 a = pageEntry st.mem st.ps.cr3 a) ∧
      ((r = 0 ∧ st'.ps.brk = st.ps.brk ∧ ¬(L ≤ wantedBrk st n ∧ wantedBrk st n < st.ps.brk)) ∨
        (r = st.ps.brk ∧ st'.ps.brk = wantedBrk st n ∧ st'.ps.brk ≠ st.ps.brk)) := by
  have halign := h.aligned
  have hupper := h.break_at.upper
  rw [h.pgbrk] at hupper
  unfold heapTop kernelStart at hupper
  have hwrap : wrap32 (st.ps.brk + (UInt32.ofNat n * 0x1000).toNat) = wantedBrk st n := by
    rw [UInt32.toNat_mul, UInt32.toNat_ofNat']
    show wrap32 (st.ps.brk + n % 2 ^ 32 * 0x1000 % 2 ^ 32) = _
    unfold wantedBrk wrap32
    omega
  have hwanted : wantedBrk st n % 0x1000 = 0 := by
    unfold wantedBrk wrap32
    omega
  obtain ⟨r, st', hrun, hok, hmoved, hdata, hback⟩ := h.internalBrk hwanted
  have hsbrk : GalaxyOS.sbrk st st.mem (UInt32.ofNat n * 0x1000) =
      .ok (if r = st.ps.brk then 0xFFFFFFFF else st.ps.brk, st') := by
    unfold GalaxyOS.sbrk
    rw [internalBrk_null, ok_bind]
    simp only
    rw [hwrap, hrun, ok_bind]
    split_ifs <;> rfl
  have hall : liballocPages st st.mem (UInt32.ofNat n) =
      .ok (if (if r = st.ps.brk then 0xFFFFFFFF else st.ps.brk) = 0xFFFFFFFF then 0 else
        (if r = st.ps.brk then 0xFFFFFFFF else st.ps.brk), st') := by
    unfold liballocPages
    rw [hsbrk, ok_bind]
    simp only
    split_ifs <;> rfl
  have hkept := hmoved.kept
  rw [h.pgbrk, hok.pgbrk] at hkept
  refine ⟨_, st', hall, hok, hdata, hmoved.cr3, hkept, ?_⟩
  by_cases hstay : r = st.ps.brk
  · rw [if_pos hstay, if_pos rfl]
    refine .inl ⟨rfl, ?_, fun hlow => ?_⟩
    · by_cases hr : r = wantedBrk st n
      · rw [hmoved.moved.mp hr, ← hr, hstay]
      · rw [(hmoved.unmoved hr).2.1]
    · have hr := hback hlow.1 (Nat.le_of_lt hlow.2)
      omega
  · have hr : r = wantedBrk st n := by
      by_contra hne
      exact hstay (hmoved.unmoved hne).1
    have hbrk := hmoved.moved.mp hr
    rw [if_neg hstay, if_neg (by omega)]
    refine .inr ⟨rfl, hbrk, ?_⟩
    rw [hbrk, ← hr]
    exact hstay

/-- The pages of the program are those below its break. -/
theorem ProgramOk.mapped_iff (h : ProgramOk L st) (h1 : L ≤ a) (h2 : a < heapTop) :
    programByte st a ≠ none ↔ a < st.ps.brk := by
  rw [ne_eq, programByte_eq_none h2, ← h.pgbrk, ← h.break_at.pages a h1 h2, Option.isSome_iff_ne_none]

/-- Behind a break that has become smaller nothing is mapped. -/
theorem ProgramOk.none_at_break (h : ProgramOk L st) (hle : st.ps.brk ≤ a) : programByte st a = none := by
  by_contra hthere
  have hlt := programByte_lt hthere
  have hbrk := (h.mapped_iff (Nat.le_trans h.break_at.lower hle) hlt).mp hthere
  omega

/-- A program that asks for some pages is killed exactly if the break becomes smaller. -/
theorem ProgramOk.alloc_error_iff (h : ProgramOk L st) (n : ℕ) :
    (∃ e, programHooks.checked.liballocAlloc st n = .error e) ↔
      L ≤ wantedBrk st n ∧ wantedBrk st n < st.ps.brk := by
  obtain ⟨r, st', hrun, hok, -, -, -, hend⟩ := h.sbrk n
  have hchecked : programHooks.checked.liballocAlloc st n =
      if r ≠ 0 ∧ programByte st' r = none then .error .wildAccess else .ok (r, st') := by
    show (liballocPages st st.mem (UInt32.ofNat n) >>= _) = _
    rw [hrun]
    rfl
  have hlower := h.break_at.lower
  have hlower' := hok.break_at.lower
  have hstart := h.start
  rw [hchecked]
  rcases hend with ⟨rfl, -, hno⟩ | ⟨rfl, hbrk, hmoved⟩
  · rw [if_neg (fun hz => hz.1 rfl)]
    refine iff_of_false ?_ hno
    rintro ⟨e, he⟩
    cases he
  · rw [← hbrk]
    by_cases hless : st'.ps.brk < st.ps.brk
    · rw [if_pos ⟨by omega, hok.none_at_break (Nat.le_of_lt hless)⟩]
      exact iff_of_true ⟨_, rfl⟩ ⟨hlower', hless⟩
    · have hmapped : programByte st' st.ps.brk ≠ none := by
        have hupper := hok.break_at.upper
        rw [hok.pgbrk] at hupper
        exact (hok.mapped_iff hlower (by omega)).mpr (by omega)
      rw [if_neg (fun hz => hmapped hz.2)]
      refine iff_of_false ?_ fun hz => hless hz.2
      rintro ⟨e, he⟩
      cases he

/-- The C library gets what its allocator needs, as long as the break does not become smaller. -/
theorem programHooks_lawful (L : ℕ) : programHooks.checked.Lawful .user (ProgramOk L) 0xFFFFF where
  bytes :=
    { ok_store := fun _ _ b h _ => h.store b
      load_store := fun _ _ b h ha => h.load_store b ha }
  pages := by
    unfold lPageCount lPageSize
    omega
  null := fun _ h => (programByte_eq_none (by decide)).mpr h.null
  refused := by
    intro st n st' h hn hrun
    obtain ⟨r, st'', hrun', hok, hdata, hcr3, hkept, hend⟩ := h.sbrk n
    obtain ⟨x, hx, hrun⟩ := bind_ok.mp hrun
    obtain rfl := Except.ok.inj (hx.symm.trans hrun')
    have hlower := h.break_at.lower
    have hstart := h.start
    simp only at hrun
    split_ifs at hrun
    obtain ⟨rfl, rfl⟩ := Prod.mk.inj (Except.ok.inj hrun)
    have hsame : st''.ps.brk = st.ps.brk := by
      rcases hend with ⟨-, hbrk, -⟩ | ⟨hbrk, -⟩
      · exact hbrk
      · omega
    refine ⟨hok, funext fun a => ?_⟩
    by_cases ha : a < heapTop
    · refine programByte_congr ?_ hdata
      rw [hcr3]
      exact hkept a (lt_kernelStart ha) (by rw [hsame])
    · show programByte st'' a = programByte st a
      unfold programByte
      rw [if_neg ha, if_neg ha]
  fresh := by
    intro st n a st' h hn hrun hne
    obtain ⟨r, st'', hrun', hok, hdata, hcr3, hkept, hend⟩ := h.sbrk n
    obtain ⟨x, hx, hrun⟩ := bind_ok.mp hrun
    obtain rfl := Except.ok.inj (hx.symm.trans hrun')
    simp only at hrun
    split_ifs at hrun with hmiss
    obtain ⟨rfl, rfl⟩ := Prod.mk.inj (Except.ok.inj hrun)
    obtain ⟨rfl, hbrk, hmoved⟩ := hend.resolve_left fun hzero => hne hzero.1
    have hupper := h.break_at.upper
    have hupper' := hok.break_at.upper
    have hlower := h.break_at.lower
    rw [h.pgbrk] at hupper
    rw [hok.pgbrk] at hupper'
    have hmore : st.ps.brk < st''.ps.brk := by
      by_contra hle
      exact hmiss ⟨hne, hok.none_at_break (Nat.not_lt.mp hle)⟩
    have hsum : st''.ps.brk = st.ps.brk + n * 0x1000 := by
      unfold wantedBrk wrap32 at hbrk
      unfold heapTop kernelStart at hupper
      omega
    refine ⟨hok, h.aligned, ?_, fun b hb => ?_, fun b hb => ?_⟩
    · unfold heapTop kernelStart at hupper'
      unfold lPageSize
      omega
    · rw [mem_piece] at hb
      unfold lPageSize at hb
      have htop : b < heapTop := by omega
      have hold := h.mapped_iff (a := b) (by omega) htop
      have hnew := hok.mapped_iff (a := b) (by omega) htop
      exact ⟨not_not.mp (mt hold.mp (by omega)), hnew.mpr (by omega)⟩
    · rw [mem_piece] at hb
      unfold lPageSize at hb
      by_cases htop : b < heapTop
      · refine programByte_congr ?_ hdata
        rw [hcr3]
        exact hkept b (lt_kernelStart htop) (by omega)
      · show programByte st'' b = programByte st b
        unfold programByte
        rw [if_neg htop, if_neg htop]
  freed := fun hv => LiballocVersion.noConfusion hv

/-! ### Runs of a program -/

variable {h h' : Client HeapState} {cs : List (HeapCall HeapState)}

/-- The size of the block that is asked for leads from the break to a break that is lower. -/
def BreakWraps (L : ℕ) (st : HeapState) (size : ℕ) : Prop :=
  L ≤ wantedBrk st (pagesFor (size + 32)) ∧ wantedBrk st (pagesFor (size + 32)) < st.ps.brk

/-- A call for which a program is killed: the break would wrap, or `calloc` and `realloc` use the null
pointer that they have got. -/
def HeapCall.Killed (L : ℕ) (h : Client HeapState) (c : HeapCall HeapState) : Prop :=
  ∃ size, c.asked = some size ∧ (BreakWraps L h.heap.sys size ∨
    (∃ st', liballocPages h.heap.sys h.heap.sys.mem (UInt32.ofNat (pagesFor (size + 32))) = .ok (0, st')) ∧
      ∀ n, c ≠ .malloc n)

/-- One call of a program. -/
theorem program_step (hI : h.Inv programHooks.checked .user (ProgramOk L)) {c : HeapCall HeapState}
    (hc : c.Allowed programHooks (ProgramOk L) 0xFFFFF h) :
    (∃ h', h.call programHooks .user c = .ok h' ∧ h'.Inv programHooks.checked .user (ProgramOk L)) ∨
      (∃ e, h.call programHooks .user c = .error e) ∧ c.Killed L h := by
  have hstep := Client.step (programHooks_lawful L) hI (allowed_checked.mpr hc)
  unfold StepOk at hstep
  rw [call_checked] at hstep
  obtain hok | ⟨⟨e, herror⟩, n, hasked, hno⟩ := hstep
  · exact .inl hok
  · obtain ⟨L', hinv, -⟩ := hI
    refine .inr ⟨⟨e, herror⟩, n, hasked, ?_⟩
    rcases hno with halloc | ⟨st', halloc⟩
    · exact .inl ((hinv.ok.alloc_error_iff _).mp halloc)
    · refine .inr ⟨⟨st', ?_⟩, fun n' hmalloc => ?_⟩
      · obtain ⟨x, hx, hrest⟩ := bind_ok.mp halloc
        simp only at hrest
        split_ifs at hrest
        rw [← Except.ok.inj hrest]
        exact hx
      · subst hmalloc
        obtain rfl := Option.some.inj hasked
        have hfail : ∃ e, malloc programHooks.checked .user h.heap n' = .error e := by
          rw [malloc_checked]
          cases hrun : malloc programHooks .user h.heap n' with
          | error e => exact ⟨e, rfl⟩
          | ok r =>
              unfold Client.call at herror
              rw [show HeapCall.exec programHooks .user h.heap (.malloc n') = .ok r from hrun, ok_bind] at herror
              cases herror
        obtain ⟨-, e', halloc'⟩ := (hinv.malloc_error_iff (programHooks_lawful L) hc).mp hfail
        rw [halloc] at halloc'
        cases halloc'

theorem program_fresh_inv (hfresh : h.Fresh programHooks (ProgramOk L)) :
    h.Inv programHooks.checked .user (ProgramOk L) := hfresh.checked.inv

/-- A program that has not allocated anything yet, with 40 free frames. -/
def programStart : Client HeapState where
  heap :=
    { sys := { bootHeap with mem := bootMachine 40 }
      memRoot := 0
      bestBet := 0
      allocated := 0
      inuse := 0
      warningCount := 0
      errorCount := 0
      possibleOverruns := 0 }
  blocks := []
  others := programByte { bootHeap with mem := bootMachine 40 }

theorem programStart_fresh : programStart.Fresh programHooks (ProgramOk 0x400000) := by
  have hstart := bootHeap_starts 40
  refine ⟨⟨by decide, hstart.breakAt, hstart.space, rfl, ?_⟩, rfl, rfl, rfl, rfl, rfl, rfl⟩
  show pageEntry (bootMachine 40) (bootMachine 40).cr3 0 = none
  unfold pageEntry
  rw [(bootMachine_boot 40).user _ (pdindex_user (by decide)), Option.bind_none]

/-- In the middle of the run another part of the program moves the break by a page. -/
theorem programStart_run : ∃ s others h',
    Admits (Client.call programHooks .user)
      (fun h c => c.Allowed programHooks (ProgramOk 0x400000) 0xFFFFF h)
      (firstCalls 0x400040 ++ .world s others :: laterCalls 0x400040) programStart ∧
    runAll (Client.call programHooks .user)
      (firstCalls 0x400040 ++ .world s others :: laterCalls 0x400040) programStart = .ok h' ∧
    h'.HasLetter 0x400040 ∧ h'.heap.sys.ps.brk = 0x411000 ∧ h'.heap.allocated = 0x10000 := by
  have hinterrupted : ∃ s others h',
      Admits (Client.call programHooks.checked .user)
        (fun h c => c.Allowed programHooks.checked (ProgramOk 0x400000) 0xFFFFF h)
        (firstCalls 0x400040 ++ .world s others :: laterCalls 0x400040) programStart ∧
      runAll (Client.call programHooks.checked .user)
        (firstCalls 0x400040 ++ .world s others :: laterCalls 0x400040) programStart = .ok h' ∧
      h'.HasLetter 0x400040 ∧ h'.heap.sys.ps.brk = 0x411000 ∧ h'.heap.allocated = 0x10000 := by
    apply programStart_fresh.checked.interrupted (n := 1) (programHooks_lawful 0x400000) (by decide)
    rw [call_checked]
    decide +kernel
  rw [call_checked] at hinterrupted
  obtain ⟨s, others, h', hadm, hrun, hP⟩ := hinterrupted
  exact ⟨s, others, h', hadm.mono fun _ _ hc => allowed_checked.mp hc, hrun, hP⟩

/-- The heap of a program keeps its promises until the program is killed. -/
theorem program_malloc_serves (hfresh : h.Fresh programHooks (ProgramOk L))
    (hadm : Admits (Client.call programHooks .user)
      (fun h c => c.Allowed programHooks (ProgramOk L) 0xFFFFF h) cs h) :
    (∃ h', runAll (Client.call programHooks .user) cs h = .ok h' ∧ h'.Sound programHooks) ∨
    ∃ done c rest h', cs = done ++ c :: rest ∧ runAll (Client.call programHooks .user) done h = .ok h' ∧
      h'.Sound programHooks ∧ (∃ e, h'.call programHooks .user c = .error e) ∧ c.Killed L h' := by
  rcases runAll_stops (fun _ _ hI hc => program_step hI hc) (program_fresh_inv hfresh) hadm with
    ⟨h', hrun, hI⟩ | ⟨done, c, rest, h', hcs, hrun, hI, hkilled⟩
  · exact .inl ⟨h', hrun, hI.sound.unchecked⟩
  · exact .inr ⟨done, c, rest, h', hcs, hrun, hI.sound.unchecked, hkilled⟩

theorem program_malloc_serves_start : ∃ s others h',
    runAll (Client.call programHooks .user)
      (firstCalls 0x400040 ++ .world s others :: laterCalls 0x400040) programStart = .ok h' ∧
    h'.HasLetter 0x400040 ∧ h'.Sound programHooks := by
  obtain ⟨s, others, h', hadm, hrun, hletter, -⟩ := programStart_run
  rcases program_malloc_serves programStart_fresh hadm with ⟨h'', hrun', hsound⟩ |
    ⟨done, c, rest, h'', hcs, hdone, -, ⟨e, he⟩, -⟩
  · obtain rfl := Except.ok.inj (hrun.symm.trans hrun')
    exact ⟨s, others, h', hrun, hletter, hsound⟩
  · rw [hcs, runAll_append, hdone, ok_bind, runAll, he, error_bind] at hrun
    cases hrun

/-- After any run, `malloc` kills the program exactly if there is no gap for the size and the break would
wrap. -/
theorem program_malloc_killed_iff (hfresh : h.Fresh programHooks (ProgramOk L))
    (hadm : Admits (Client.call programHooks .user)
      (fun h c => c.Allowed programHooks (ProgramOk L) 0xFFFFF h) cs h)
    (hrun : runAll (Client.call programHooks .user) cs h = .ok h') :
    ∃ L', HeapInv programHooks.checked (ProgramOk L) h'.heap L' ∧ TracksBlocks L' h'.blocks ∧
      ∀ n, n + 80 ≤ 0xFFFFF000 →
        ((∃ e, malloc programHooks .user h'.heap n = .error e) ↔
          (∀ P ∈ L', ∀ g ∈ gaps P.start P.fin P.chunks, g < n + 56) ∧ BreakWraps L h'.heap.sys n) := by
  have hI : h'.Inv programHooks.checked .user (ProgramOk L) := by
    refine runAll_invariant (fun s c t hI hc ht => ?_) (program_fresh_inv hfresh) hadm hrun
    rcases program_step hI hc with ⟨u, hu, hIu⟩ | ⟨⟨e, he⟩, -⟩
    · exact Except.ok.inj (hu.symm.trans ht) ▸ hIu
    · rw [he] at ht
      cases ht
  obtain ⟨L', hinv, -, ht, -⟩ := hI
  refine ⟨L', hinv, ht, fun n hn => ?_⟩
  rw [← malloc_checked, hinv.malloc_error_iff (programHooks_lawful L) hn]
  exact and_congr_right fun _ => hinv.ok.alloc_error_iff _

/-- With a block of 64 KiB and a page behind it, a request for 4 GiB less 32 KiB takes the break back into
the block. -/
theorem program_malloc_killed_iff_start : ∃ s others h',
    runAll (Client.call programHooks .user)
      (firstCalls 0x400040 ++ .world s others :: laterCalls 0x400040) programStart = .ok h' ∧
    ∃ e, malloc programHooks .user h'.heap 0xFFFF7FB0 = .error e := by
  obtain ⟨s, others, h', hadm, hrun, -, hbrk, hallocated⟩ := programStart_run
  obtain ⟨L', hinv, -, hiff⟩ := program_malloc_killed_iff programStart_fresh hadm hrun
  refine ⟨s, others, h', hrun, (hiff 0xFFFF7FB0 (by decide)).mpr ⟨fun P hP g hgap => ?_, ?_, ?_⟩⟩
  · have hle := (hinv.geometry.fits P hP).gap_le hgap
    have hpool := pool_le_bytes hP
    rw [← hinv.allocated, hallocated] at hpool
    unfold Pool.start Pool.fin at hle
    omega
  · unfold wantedBrk
    rw [hbrk]
    decide
  · unfold wantedBrk
    rw [hbrk]
    decide

end GalaxyOS
