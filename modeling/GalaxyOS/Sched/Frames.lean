import Mathlib.Data.List.Nodup
import GalaxyOS.Sched.Tables
import GalaxyOS.Sched.UserMemory

/-! # Frame ownership

A frame on the free stack should be in nobody's use: not a page directory or page table, not mapped
by one, not in `cr3`.  Freeing a process breaks this in two ways.  Its directory goes on the stack
first, while `cr3` may hold it, and `sched_free_all` gives back what `vmm_get_physaddr` says for the
start of a region of the loader, which is no frame when the region does not start at a page.

In a run that frees processes only while another directory is loaded and with aligned regions, and
that loads images below the kernel, the frames on the stack are free in every state.

`frames_exact` is this statement.  `FrameInv` says who owns which frame; `FrameInv.exec` keeps it, one
lemma for each kind of call, from what `Allocation` and `UserMemory` say about the memory. -/

namespace GalaxyOS

open Transition

/-! ### Frames in use -/

/-- A directory that is loaded or belongs to a process. -/
def LiveDirectory (s : Kernel) (d : ℕ) : Prop :=
  d = s.mem.cr3 ∨ ∃ pid p, s.processes pid = some p ∧ p.cr3 = d

/-- The stack table of a userland thread. -/
def StackTable (s : Kernel) (T : ℕ) : Prop :=
  ∃ tid t, s.threads tid = some t ∧ t.privilegeLevel ≠ 0 ∧ T = vmmGetPhysaddr s.mem t.stackpt

/-- The directory entry `i` of a live directory refers to the page table `T`. -/
def TableAt (s : Kernel) (i T : ℕ) : Prop :=
  ∃ d pde, LiveDirectory s d ∧ i < 1024 ∧ s.mem.tables d i = some pde ∧ pde.frame = T

/-- The window below `heapBase` shows the first twelve megabytes, free or not. -/
def bootWindow (i : ℕ) : Prop := 768 ≤ i ∧ i < 771

/-- A live page table maps the frame. -/
def Mapped (s : Kernel) (f : ℕ) : Prop :=
  ∃ T j pte, ((∃ i, TableAt s i T ∧ ¬bootWindow i) ∨ StackTable s T) ∧ j < 1024 ∧
    s.mem.tables T j = some pte ∧ pte.frame = f

/-- The frames on the free stack are distinct, aligned and in nobody's use. -/
structure FramesExact (s : Kernel) : Prop where
  nodup : s.mem.pmemStack.Nodup
  aligned : ∀ f ∈ s.mem.pmemStack, f % 0x1000 = 0
  directories : ∀ d, LiveDirectory s d → d ∉ s.mem.pmemStack
  tables : ∀ i T, TableAt s i T → T ∉ s.mem.pmemStack
  stackTables : ∀ T, StackTable s T → T ∉ s.mem.pmemStack
  mapped : ∀ f, Mapped s f → f ∉ s.mem.pmemStack

/-! ### The blocks of the kernel heap -/

/-- A state of the kernel and the blocks that clients of `liballoc_alloc` hold: start and number of
pages. -/
structure FrameState where
  kernel : Kernel
  blocks : List (ℕ × ℕ)

/-- What a call makes of the blocks; `r` is its result. -/
def Call.noteBlock (c : Call) (r : Int) (blocks : List (ℕ × ℕ)) : List (ℕ × ℕ) :=
  match c with
  | .liballocAlloc pages => if r = 0 then blocks else (r.toNat, pages) :: blocks
  | .liballocFree addr pages => blocks.erase (addr, pages)
  | _ => blocks

/-- A call, the blocks being recorded. -/
def FrameState.exec (st : FrameState) (c : Call) : Except Fault FrameState := do
  let (r, s') ← GalaxyOS.exec st.kernel c
  .ok ⟨s', c.noteBlock r st.blocks⟩

def FrameStep (st : FrameState) (c : Call) (st' : FrameState) : Prop := st.exec c = .ok st'

theorem FrameStep.exists_exec {st st' : FrameState} {c : Call} (h : FrameStep st c st') :
    ∃ r s', GalaxyOS.exec st.kernel c = .ok (r, s') ∧ st' = ⟨s', c.noteBlock r st.blocks⟩ := by
  simp only [FrameStep, FrameState.exec, bind_ok, Prod.exists, Except.ok.injEq] at h
  obtain ⟨r, s', hexec, rfl⟩ := h
  exact ⟨r, s', hexec, rfl⟩

/-! ### The start -/

/-- The page table behind the entry `i` of the directory that is loaded. -/
def kernelTable (m : Mem) (i : ℕ) : ℕ := ((m.tables m.cr3 i).map Pte.frame).getD 0

/-- Memory after `vmm_init`: a free stack of distinct page-aligned frames, and a directory with the
page tables of the kernel half, none of them on the stack, and an empty kernel heap. -/
structure BootMem (m : Mem) : Prop where
  nodup : m.pmemStack.Nodup
  aligned : ∀ f ∈ m.pmemStack, f % 0x1000 = 0 ∧ f ≠ 0
  cr3 : m.cr3 ∉ m.pmemStack
  kernel : ∀ i, 768 ≤ i → i < 1023 → m.tables m.cr3 i ≠ none
  self : ∃ fl, m.tables m.cr3 1023 = some ⟨m.cr3, fl⟩
  user : ∀ i < 768, m.tables m.cr3 i = none
  tables : ∀ i, 768 ≤ i → i < 1023 → kernelTable m i ∉ m.pmemStack ∧ kernelTable m i ≠ m.cr3
  distinct : ∀ i j, 768 ≤ i → i < 1023 → 768 ≤ j → j < 1023 →
    kernelTable m i = kernelTable m j → i = j
  heap : m.endMappedKmemory = heapBase
  fresh : ∀ a, HeapPage a → m.tables (kernelTable m (pdindex a)) (ptindex a) = none

/-- The globals before `sched_init`, with nothing allocated. -/
def FrameStart (st : FrameState) : Prop :=
  ∃ mem eflags, BootMem mem ∧ st = ⟨Kernel.boot mem eflags, []⟩

/-- `sched_init` is two calls that a run can make itself. -/
theorem schedInit_steps {mem : Mem} {eflags idleLoop : ℕ} {s : Kernel}
    (h : schedInit mem eflags idleLoop = .ok s) :
    ∃ s₁, Step (Kernel.boot mem eflags) (.createProcess 0 "(idle)".toUTF8.toList) s₁ ∧
      Step s₁ (.createThread 0 true idleLoop) s := by
  simp only [schedInit, bind_ok, Prod.exists, Except.ok.injEq] at h
  obtain ⟨pid, s₁, hcreate, tid, s₂, hthread, hs⟩ := h
  obtain ⟨rfl, hcreated⟩ := schedCreateProcess_ok hcreate
  obtain ⟨rfl, hspawned⟩ := schedCreateThread_ok hthread
  have hself : { s₂ with idletid := s₁.lastTid } = s₂ := by
    obtain ⟨p, mem₁, -, rfl⟩ := hcreated
    obtain ⟨-, p', t, mem₂, -, -, rfl⟩ := hspawned
    rfl
  rw [hself] at hs
  exact ⟨s₁, ⟨_, hcreate⟩, _, hs ▸ hthread⟩

/-! ### What the callers promise, and the condition -/

/-- Blocks are freed once, as they were allocated; system calls come from userland threads of a
process that has been loaded; `cr3` is loaded for a thread whose process is still there. -/
def Call.Promised (st : FrameState) : Call → Prop
  | .liballocFree addr pages => (addr, pages) ∈ st.blocks
  | .forkThread tid _ => tid = st.kernel.currenttid ∧
      ∀ t, st.kernel.threads st.kernel.currenttid = some t → t.privilegeLevel ≠ 0
  | .setbrk _ => ∀ p, st.kernel.currentProcess = .ok p → p.privilegeLevel ≠ 0 → p.state ≠ .starting
  | .loadCr3 => ∀ t, st.kernel.threads st.kernel.currenttid = some t →
      st.kernel.processes t.pid ≠ none
  | _ => True

/-- The process can be freed: its directory is not loaded, and its regions start at pages. -/
def Process.Releasable (p : Process) (m : Mem) : Prop := p.cr3 ≠ m.cr3 ∧ p.RegionsAligned

instance (p : Process) (m : Mem) : Decidable (p.Releasable m) := inferInstanceAs (Decidable (_ ∧ _))

/-- If the round frees the process that its thread has waited for, that process can be freed. -/
def RoundReleases (st : Kernel × Bool) : Prop :=
  ∀ t, st.1.threads (pickFetch st.1 st.2).1 = some t → t.state = .waiting → t.waitMsg = none →
    ∀ p, st.1.processes t.wait = some p → p.threadcount = 0 → p.waitingThreads = 1 →
      p.Releasable st.1.mem

instance (st : Kernel × Bool) : Decidable (RoundReleases st) := by
  unfold RoundReleases
  infer_instance

/-- Every process that the call frees can be freed, and an image that it accepts lies below the
kernel. -/
def Call.FramesSafe (s : Kernel) : Call → Prop
  | .loadProcess q => LoadsBelow q.image
  | .exitProcess _ => ∀ p, s.currentProcess = .ok p → p.waitingThreads = 0 → p.Releasable s.mem
  | .killProcess pid => ∀ cur, s.currentProcess = .ok cur → ∀ p, s.processes pid = some p →
      pid ≠ cur.pid → cur.privilegeLevel ≤ p.privilegeLevel → p.waitingThreads = 0 →
      p.Releasable s.mem
  | .pickNext => Call.Rounds RoundReleases s .pickNext
  | _ => True

instance Call.Promised.decidable (st : FrameState) (c : Call) : Decidable (c.Promised st) :=
  Call.casesOn (motive := fun c => Decidable (c.Promised st)) c
    (fun _ _ => .isTrue trivial) (fun _ _ _ => .isTrue trivial)
    (fun _ _ => @instDecidableAnd _ _ inferInstance
      (decidableForallSome (st.kernel.threads st.kernel.currenttid)))
    (fun _ => .isTrue trivial) (.isTrue trivial) (fun _ => .isTrue trivial)
    (fun _ => .isTrue trivial) (fun _ _ => .isTrue trivial) (fun _ => .isTrue trivial)
    (fun _ => .isTrue trivial) (.isTrue trivial) (fun _ _ _ => .isTrue trivial)
    (fun _ _ => .isTrue trivial) (fun _ _ _ _ _ _ => .isTrue trivial)
    (fun _ _ _ _ _ _ => .isTrue trivial) (fun _ _ => .isTrue trivial)
    (fun _ => decidableForallOk st.kernel.currentProcess)
    (fun _ _ _ => .isTrue trivial) (fun _ => .isTrue trivial)
    (fun addr pages => inferInstanceAs (Decidable ((addr, pages) ∈ st.blocks)))
    (decidableForallSome (st.kernel.threads st.kernel.currenttid))

instance Call.FramesSafe.decidable (s : Kernel) (c : Call) : Decidable (c.FramesSafe s) :=
  Call.casesOn (motive := fun c => Decidable (c.FramesSafe s)) c
    (fun _ _ => .isTrue trivial) (fun _ _ _ => .isTrue trivial) (fun _ _ => .isTrue trivial)
    (fun q => inferInstanceAs (Decidable (LoadsBelow q.image))) (.isTrue trivial)
    (fun _ => decidableForallOk s.currentProcess)
    (fun pid =>
      @decidableForallOk _ _ _ (fun _ => decidableForallSome (s.processes pid)) s.currentProcess)
    (fun _ _ => .isTrue trivial) (fun _ => .isTrue trivial) (fun _ => .isTrue trivial)
    (Call.Rounds.decidable s .pickNext) (fun _ _ _ => .isTrue trivial)
    (fun _ _ => .isTrue trivial) (fun _ _ _ _ _ _ => .isTrue trivial)
    (fun _ _ _ _ _ _ => .isTrue trivial) (fun _ _ => .isTrue trivial) (fun _ => .isTrue trivial)
    (fun _ _ _ => .isTrue trivial) (fun _ => .isTrue trivial) (fun _ _ => .isTrue trivial)
    (.isTrue trivial)

/-! ### The invariant -/

structure ProcOk (role : ℕ → Role) (pid : Int) (p : Process) : Prop where
  dir : role p.cr3 = .kern p.cr3Virt (.dir pid)
  brk : BrkOk p
  regions : p.RegionsBelow
  image : p.state = .starting → p.privilegeLevel ≠ 0 → LoadsBelow p.image ∧ p.brkOffset = 0

structure ThreadOk (role : ℕ → Role) (processes : Int → Option Process) (t : Thread) : Prop where
  stack : t.privilegeLevel ≠ 0 → ∃ F, role F = .kern t.stackpt .table
  proc : ∀ p, processes t.pid = some p → p.cr3 = t.cr3 ∧ p.privilegeLevel = t.privilegeLevel

structure BlocksOk (role : ℕ → Role) (blocks : List (ℕ × ℕ)) : Prop where
  nodup : (blocks.map Prod.fst).Nodup
  block : ∀ b ∈ blocks, 0 < b.2 ∧ BlockAt role b.1 b.1 b.2

structure FrameInv (role : ℕ → Role) (K : ℕ → ℕ) (blocks : List (ℕ × ℕ)) (s : Kernel) : Prop where
  owned : Owned role K s.mem
  cr3 : Directory role K s.mem s.mem.cr3
  procs : ∀ pid p, s.processes pid = some p → ProcOk role pid p
  threads : ∀ tid t, s.threads tid = some t → ThreadOk role s.processes t
  blocks : BlocksOk role blocks

variable {role role' : ℕ → Role} {K : ℕ → ℕ} {blocks blocks' : List (ℕ × ℕ)} {s s' : Kernel}

/-- Frames with a role other than `free` are not on the stack. -/
theorem Owned.notMem {m : Mem} (h : Owned role K m) {f : ℕ} (hf : role f ≠ .free) :
    f ∉ m.pmemStack := fun hc => hf (h.free f hc)

theorem FrameInv.live (h : FrameInv role K blocks s) {d : ℕ} (hd : LiveDirectory s d) :
    Directory role K s.mem d := by
  rcases hd with rfl | ⟨pid, p, hp, rfl⟩
  · exact h.cr3
  · exact h.owned.dir _ _ pid (h.procs pid p hp).dir

theorem FrameInv.stackTable (h : FrameInv role K blocks s) {T : ℕ} (hT : StackTable s T) :
    ∃ a, role T = .kern a .table := by
  obtain ⟨tid, t, ht, hpriv, rfl⟩ := hT
  obtain ⟨F, hF⟩ := (h.threads tid t ht).stack hpriv
  exact ⟨t.stackpt, by rw [h.owned.translate h.cr3 hF, hF]⟩

/-- The address of the entry `j` of page table `i`. -/
theorem pageAddr_index {i j : ℕ} (hj : j < 1024) :
    pdindex (i * 0x400000 + j * 0x1000) = i ∧ ptindex (i * 0x400000 + j * 0x1000) = j := by
  unfold pdindex ptindex
  omega

/-- What the entry `i` of a live directory refers to is in use, and so is what that maps. -/
theorem FrameInv.tableAt (h : FrameInv role K blocks s) {i T : ℕ} (hT : TableAt s i T) :
    role T ≠ .free ∧ (¬bootWindow i → ∀ j < 1024, ∀ pte, s.mem.tables T j = some pte →
      role pte.frame ≠ .free) := by
  obtain ⟨d, pde, hlive, hi, hpde, rfl⟩ := hT
  have hd := h.live hlive
  have hentry : ∀ j < 1024, ∀ pte, s.mem.tables d j = some pte → role pte.frame ≠ .free := by
    intro j hj pte hpte
    by_cases huser : j < 768
    · obtain ⟨a, ha⟩ := hd.user j huser pte hpte
      simp [ha]
    · by_cases hself : j = 1023
      · subst hself
        obtain ⟨fl, hfl⟩ := hd.self
        obtain rfl : (⟨d, fl⟩ : Pte) = pte := Option.some.inj (hfl.symm.trans hpte)
        rcases hd.role with hr | ⟨a, pid, hr⟩ <;> simp [hr]
      · obtain ⟨fl, hfl⟩ := hd.kernel j (by omega) (by omega)
        obtain rfl : (⟨K j, fl⟩ : Pte) = pte := Option.some.inj (hfl.symm.trans hpte)
        simp [h.owned.kernel j (by omega) (by omega)]
  refine ⟨hentry i hi pde hpde, fun hwin j hj pte hpte => ?_⟩
  by_cases huser : i < 768
  · obtain ⟨a, ha⟩ := hd.user i huser pde hpde
    simp [h.owned.userEntry pde.frame a ha j pte hpte]
  · by_cases hself : i = 1023
    · subst hself
      obtain ⟨fl, hfl⟩ := hd.self
      obtain rfl : (⟨d, fl⟩ : Pte) = pde := Option.some.inj (hfl.symm.trans hpde)
      exact hentry j hj pte hpte
    · obtain ⟨fl, hfl⟩ := hd.kernel i (by omega) (by omega)
      obtain rfl : (⟨K i, fl⟩ : Pte) = pde := Option.some.inj (hfl.symm.trans hpde)
      obtain ⟨hpd, hpt⟩ := pageAddr_index hj (i := i)
      have hpage : HeapPage (i * 0x400000 + j * 0x1000) := by
        unfold bootWindow at hwin
        unfold HeapPage heapBase heapLimit
        omega
      obtain ⟨u, hu⟩ := h.owned.heapEntry _ hpage pte (by rw [hpd, hpt]; exact hpte)
      simp [hu]

/-- The invariant says that the free stack is exact. -/
theorem FrameInv.exact (h : FrameInv role K blocks s) : FramesExact s := by
  refine ⟨h.owned.nodup, ?_, ?_, ?_, ?_, ?_⟩
  · intro f hf
    exact (h.owned.frames f (by rw [h.owned.free f hf]; simp)).1
  · intro d hd
    refine h.owned.notMem ?_
    rcases (h.live hd).role with hr | ⟨a, pid, hr⟩ <;> simp [hr]
  · intro i T hT
    exact h.owned.notMem (h.tableAt hT).1
  · intro T hT
    obtain ⟨a, ha⟩ := h.stackTable hT
    exact h.owned.notMem (by simp [ha])
  · rintro f ⟨T, j, pte, (⟨i, hT, hwin⟩ | hT), hj, hpte, rfl⟩
    · exact h.owned.notMem ((h.tableAt hT).2 hwin j hj pte hpte)
    · obtain ⟨a, ha⟩ := h.stackTable hT
      exact h.owned.notMem (by simp [h.owned.userEntry T a ha j pte hpte])

/-! ### States that agree on memory -/

/-- `p'` agrees with `p` on what its frames depend on. -/
structure Process.Placed (p p' : Process) : Prop where
  cr3 : p'.cr3 = p.cr3
  cr3Virt : p'.cr3Virt = p.cr3Virt
  pgbrk : p'.pgbrk = p.pgbrk
  brkOffset : p'.brkOffset = p.brkOffset
  psregions : p'.psregions = p.psregions
  image : p'.image = p.image
  privilegeLevel : p'.privilegeLevel = p.privilegeLevel
  starting : p'.state = .starting → p.state = .starting

theorem Process.Placed.refl (p : Process) : p.Placed p := ⟨rfl, rfl, rfl, rfl, rfl, rfl, rfl, id⟩

theorem ProcOk.placed {pid : Int} {p p' : Process} (h : ProcOk role pid p) (hp : p.Placed p') :
    ProcOk role pid p' := by
  refine ⟨?_, ⟨?_, ?_, ?_, ?_⟩, ?_, fun hstate hpriv => ?_⟩
  · rw [hp.cr3, hp.cr3Virt]
    exact h.dir
  · rw [hp.pgbrk]
    exact h.brk.pgbrk
  · rw [hp.brkOffset]
    exact h.brk.brkOffset
  · rw [hp.brkOffset, hp.pgbrk]
    exact h.brk.start
  · rw [hp.pgbrk]
    exact h.brk.bound
  · unfold Process.RegionsBelow
    rw [hp.psregions]
    exact h.regions
  · rw [hp.image, hp.brkOffset]
    exact h.image (hp.starting hstate) (hp.privilegeLevel ▸ hpriv)

/-- `t'` agrees with `t` on what its stack depends on. -/
structure Thread.Placed (t t' : Thread) : Prop where
  cr3 : t'.cr3 = t.cr3
  pid : t'.pid = t.pid
  privilegeLevel : t'.privilegeLevel = t.privilegeLevel
  stackpt : t'.stackpt = t.stackpt

theorem Thread.Placed.refl (t : Thread) : t.Placed t := ⟨rfl, rfl, rfl, rfl⟩

theorem ThreadOk.placed {ps ps' : Int → Option Process} {t t' : Thread} (h : ThreadOk role ps t)
    (ht : t.Placed t') (hps : Carried Process.Placed ps ps') : ThreadOk role ps' t' := by
  constructor
  · rw [ht.stackpt, ht.privilegeLevel]
    exact h.stack
  · intro p' hp'
    rw [ht.pid] at hp'
    obtain ⟨p, hp, hpp⟩ := hps _ p' hp'
    rw [ht.cr3, ht.privilegeLevel, hpp.cr3, hpp.privilegeLevel]
    exact h.proc p hp

/-- A frame that a change may take: a page of a block that is no longer held, or the directory of a
process that is gone. -/
def Spare (role : ℕ → Role) (processes : Int → Option Process) (blocks : List (ℕ × ℕ)) (f : ℕ) :
    Prop :=
  (∃ a b, role f = .kern a (.block b) ∧ b ∉ blocks.map Prod.fst) ∨
    ∃ a pid, role f = .kern a (.dir pid) ∧ processes pid = none

theorem BlocksOk.sublist {L : Set ℕ} {m m' : Mem} (h : BlocksOk role blocks)
    (hsub : blocks'.Sublist blocks) (hext : Extends K L role m role' m')
    (hL : ∀ f ∈ L, ∀ a b, role f = .kern a (.block b) → b ∉ blocks'.map Prod.fst) :
    BlocksOk role' blocks' := by
  refine ⟨h.nodup.sublist (hsub.map Prod.fst), fun b hb => ?_⟩
  obtain ⟨hpos, hblock⟩ := h.block b (hsub.subset hb)
  refine ⟨hpos, fun i hi => ?_⟩
  obtain ⟨f, hf⟩ := hblock i hi
  have hout : f ∉ L := fun hc => hL f hc _ _ hf (List.mem_map_of_mem hb)
  exact ⟨f, (hext.kept f hout (.inr ⟨_, _, hf⟩)).trans hf⟩

/-- Memory has changed, and processes and threads agree on what their frames depend on. -/
theorem FrameInv.placed {L : Set ℕ} (h : FrameInv role K blocks s)
    (hext : Extends K L role s.mem role' s'.mem)
    (hL : ∀ f ∈ L, Spare role s'.processes blocks' f) (hcr3 : s.mem.cr3 ∉ L)
    (hps : Carried Process.Placed s.processes s'.processes)
    (hts : Carried Thread.Placed s.threads s'.threads) (hsub : blocks'.Sublist blocks) :
    FrameInv role' K blocks' s' := by
  refine ⟨hext.owned, hext.loaded h.cr3 hcr3, ?_, ?_, ?_⟩
  · intro pid p' hp'
    obtain ⟨p, hp, hpp⟩ := hps pid p' hp'
    have hproc := h.procs pid p hp
    have hout : p.cr3 ∉ L := by
      intro hc
      rcases hL _ hc with ⟨a, b, hb, -⟩ | ⟨a, pid', hd, hnone⟩
      · rw [hproc.dir] at hb
        cases hb
      · rw [hproc.dir] at hd
        obtain ⟨-, hpid⟩ := Role.kern.inj hd
        rw [← Use.dir.inj hpid, hp'] at hnone
        cases hnone
    have hdir : role' p.cr3 = .kern p.cr3Virt (.dir pid) :=
      (hext.kept _ hout (.inr ⟨_, _, hproc.dir⟩)).trans hproc.dir
    exact ProcOk.placed ⟨hdir, hproc.brk, hproc.regions, hproc.image⟩ hpp
  · intro tid t' ht'
    obtain ⟨t, ht, htt⟩ := hts tid t' ht'
    have hthread := h.threads tid t ht
    refine ThreadOk.placed ⟨fun hpriv => ?_, hthread.proc⟩ htt hps
    obtain ⟨F, hF⟩ := hthread.stack hpriv
    have hout : F ∉ L := by
      intro hc
      rcases hL _ hc with ⟨a, b, hb, -⟩ | ⟨a, pid', hd, -⟩
      · rw [hF] at hb
        cases hb
      · rw [hF] at hd
        cases hd
    exact ⟨F, (hext.kept F hout (.inr ⟨_, _, hF⟩)).trans hF⟩
  · refine h.blocks.sublist hsub hext fun f hf a b hb => ?_
    rcases hL f hf with ⟨a', b', hb', hnot⟩ | ⟨a', pid', hd, -⟩
    · rw [hb] at hb'
      rwa [Use.block.inj (Role.kern.inj hb').2]
    · rw [hb] at hd
      cases hd

/-- A change that takes no frame from anybody. -/
theorem FrameInv.extend (h : FrameInv role K blocks s) (hext : Extends K ∅ role s.mem role' s'.mem)
    (hps : Carried Process.Placed s.processes s'.processes)
    (hts : Carried Thread.Placed s.threads s'.threads) : FrameInv role' K blocks s' :=
  h.placed hext (fun _ hf => absurd hf (Set.notMem_empty _)) (Set.notMem_empty _) hps hts
    (.refl blocks)

/-- Memory has not changed. -/
theorem FrameInv.still (h : FrameInv role K blocks s) (hmem : s'.mem = s.mem)
    (hps : Carried Process.Placed s.processes s'.processes)
    (hts : Carried Thread.Placed s.threads s'.threads) : FrameInv role K blocks s' := by
  have hext : Extends K ∅ role s.mem role s'.mem := by
    rw [hmem]
    exact .refl h.owned
  exact h.extend hext hps hts

/-- Only memory has changed. -/
theorem FrameInv.setMem {mem : Mem} (h : FrameInv role K blocks s)
    (hext : Extends K ∅ role s.mem role' mem) : FrameInv role' K blocks { s with mem := mem } :=
  h.extend hext (.refl .refl _) (.refl .refl _)

/-- One thread has changed. -/
theorem FrameInv.setThread {tid : Int} {t : Thread} (t' : Thread) (h : FrameInv role K blocks s)
    (ht : s.threads tid = some t) (htt : t.Placed t') :
    FrameInv role K blocks (s.setThread tid (some t')) :=
  h.still rfl (.refl .refl _) (.update .refl ht fun _ hb => Option.some.inj hb ▸ htt)

/-- One process has changed, and its memory is still in order. -/
theorem FrameInv.setProcess {pid : Int} {p p' : Process} (h : FrameInv role K blocks s)
    (hp : s.processes pid = some p) (hp' : ProcOk role pid p') (hcr3 : p'.cr3 = p.cr3)
    (hpriv : p'.privilegeLevel = p.privilegeLevel) :
    FrameInv role K blocks (s.setProcess pid (some p')) := by
  refine ⟨h.owned, h.cr3, ?_, ?_, h.blocks⟩
  · intro i q hq
    rw [Kernel.setProcess_processes] at hq
    by_cases hi : i = pid
    · subst hi
      rw [Function.update_self] at hq
      exact Option.some.inj hq ▸ hp'
    · rw [Function.update_of_ne hi] at hq
      exact h.procs i q hq
  · intro tid t ht
    have hthread := h.threads tid t ht
    refine ⟨hthread.stack, fun q hq => ?_⟩
    rw [Kernel.setProcess_processes] at hq
    by_cases hi : t.pid = pid
    · rw [hi, Function.update_self] at hq
      obtain rfl := Option.some.inj hq
      rw [hcr3, hpriv]
      exact hthread.proc p (hi ▸ hp)
    · rw [Function.update_of_ne hi] at hq
      exact hthread.proc q hq

/-! ### Creation -/

theorem FrameInv.addProcess {p : Process} (h : FrameInv role K blocks s) (hs : Tables s)
    (hp : ProcOk role s.lastPid p) (hmem : s'.mem = s.mem)
    (hps : s'.processes = Function.update s.processes s.lastPid (some p))
    (hts : s'.threads = s.threads) : FrameInv role K blocks s' := by
  refine ⟨hmem ▸ h.owned, hmem ▸ h.cr3, ?_, ?_, h.blocks⟩
  · intro i q hq
    rw [hps] at hq
    by_cases hi : i = s.lastPid
    · subst hi
      rw [Function.update_self] at hq
      exact Option.some.inj hq ▸ hp
    · rw [Function.update_of_ne hi] at hq
      exact h.procs i q hq
  · intro tid t ht
    rw [hts] at ht
    have hthread := h.threads tid t ht
    refine ⟨hthread.stack, fun q hq => ?_⟩
    have hne : t.pid ≠ s.lastPid := Int.ne_of_lt (hs.tid tid t ht).2.1.2
    rw [hps, Function.update_of_ne hne] at hq
    exact hthread.proc q hq

theorem FrameInv.addThread (tid : Int) (t : Thread) (h : FrameInv role K blocks s)
    (ht : ThreadOk role s'.processes t) (hmem : s'.mem = s.mem)
    (hps : Carried Process.Placed s.processes s'.processes)
    (hts : s'.threads = Function.update s.threads tid (some t)) : FrameInv role K blocks s' := by
  have hold : FrameInv role K blocks { s' with threads := s.threads } :=
    h.still hmem hps (.refl .refl _)
  refine ⟨hold.owned, hold.cr3, hold.procs, fun i t' ht' => ?_, hold.blocks⟩
  rw [hts] at ht'
  by_cases hi : i = tid
  · subst hi
    rw [Function.update_self] at ht'
    exact Option.some.inj ht' ▸ ht
  · rw [Function.update_of_ne hi] at ht'
    exact hold.threads i t' ht'

/-- A process with the new directory and nothing else is in order. -/
theorem procOk_new {pid : Int} {p : Process} (hdir : role p.cr3 = .kern p.cr3Virt (.dir pid))
    (hpgbrk : p.pgbrk = 0) (hoffset : p.brkOffset = 0) (hregions : p.psregions = [])
    (himage : LoadsBelow p.image) : ProcOk role pid p := by
  refine ⟨hdir, ⟨?_, ?_, ?_, ?_⟩, ?_, fun _ _ => ⟨himage, hoffset⟩⟩
  · rw [hpgbrk]
  · rw [hoffset]
  · rw [hoffset]
    exact Nat.zero_le _
  · rw [hpgbrk]
    exact Nat.zero_le _
  · unfold Process.RegionsBelow
    simp [hregions]

theorem loadsBelow_nil : LoadsBelow [] := fun _ hi => absurd hi (Nat.not_lt_zero _)

/-- The process that `sched_create_process` adds. -/
theorem FrameInv.createProcess {privilege : ℕ} {name : CString} {r : Int}
    (h : FrameInv role K blocks s) (hs : Tables s)
    (hcreate : schedCreateProcess s privilege name = .ok (r, s')) :
    r = s.lastPid ∧ ∃ role', FrameInv role' K blocks s' ∧ ∃ p, s'.processes r = some p ∧
      p.pgbrk = 0 ∧ p.brkOffset = 0 ∧ p.psregions = [] := by
  unfold schedCreateProcess at hcreate
  split_ifs at hcreate with hmax
  simp only [bind_ok, Except.ok.injEq, Prod.mk.injEq, Prod.exists] at hcreate
  obtain ⟨cr3Virt, cr3, mem, hnew, rfl, rfl⟩ := hcreate
  rw [growProcesses_eq] at hnew ⊢
  obtain ⟨role', hext, hdir⟩ := newDirectory_ok s.lastPid h.owned h.cr3 hnew
  refine ⟨rfl, role', ?_, _, Function.update_self .., rfl, rfl, rfl⟩
  refine (h.setMem hext).addProcess (hs.keeps ⟨rfl, rfl, .refl _, .refl _⟩) ?_ rfl rfl rfl
  exact procOk_new hdir rfl rfl rfl loadsBelow_nil

theorem addTid_placed {p p' : Process} {size tid : Int} (h : p.addTid size tid = .ok p') :
    p.Placed p' := by
  rw [addTid_ok h]
  exact ⟨rfl, rfl, rfl, rfl, rfl, rfl, rfl, id⟩

/-- A user thread gets a stack table. -/
theorem newStack_ok {m m' : Mem} {privilege stackpt : ℕ} (h : Owned role K m)
    (hcr3 : Directory role K m m.cr3) (hnew : newStack m privilege = .ok (stackpt, m')) :
    ∃ role', Extends K ∅ role m role' m' ∧ (privilege ≠ 0 → ∃ F, role' F = .kern stackpt .table) := by
  unfold newStack at hnew
  split_ifs at hnew with hk
  · obtain ⟨-, rfl⟩ := Prod.mk.inj (Except.ok.inj hnew)
    exact ⟨role, .refl h, fun hc => absurd hk hc⟩
  · obtain ⟨role', hext, hF⟩ := vmmMapStack_ok h hcr3 hnew
    exact ⟨role', hext, fun _ => hF⟩

theorem FrameInv.createThread {ownerpid r : Int} {noqueue : Bool} {entrypoint : ℕ}
    (h : FrameInv role K blocks s)
    (hcreate : schedCreateThread s ownerpid noqueue entrypoint = .ok (r, s')) :
    ∃ role', FrameInv role' K blocks s' := by
  unfold schedCreateThread at hcreate
  split_ifs at hcreate with hmax
  rw [growThreads_eq] at hcreate
  simp only at hcreate
  split_ifs at hcreate with hcap
  simp only [bind_ok, Kernel.liveProcess_ok, Except.ok.injEq, Prod.mk.injEq, Prod.exists] at hcreate
  obtain ⟨p, hp, stackpt, mem, hstack, p', hp', s₃, hs₃, -, rfl⟩ := hcreate
  obtain ⟨-, hs₃⟩ := enqueueNew_ok rfl hs₃
  have hpp := addTid_placed hp'
  obtain ⟨role', hext, hF⟩ := newStack_ok h.owned h.cr3 hstack
  refine ⟨role', (h.setMem hext).addThread s.lastTid
    (newThread p ownerpid s.lastTid entrypoint s.eflags stackpt) ⟨hF, ?_⟩ ?_ ?_ ?_⟩
  · intro q hq
    rw [hs₃] at hq
    have hq' : p' = q := by simpa [newThread] using hq
    subst hq'
    exact ⟨hpp.cr3, hpp.privilegeLevel⟩
  · rw [hs₃]
  · rw [hs₃]
    exact .update .refl hp fun _ hb => Option.some.inj hb ▸ hpp
  · rw [hs₃]
    rfl

theorem inheritEnviron_placed {p p' : Process} {nodup : Bool}
    (h : inheritEnviron s p nodup = .ok p') : p.Placed p' := by
  unfold inheritEnviron at h
  split_ifs at h with hn
  · obtain rfl := Except.ok.inj h
    exact ⟨rfl, rfl, rfl, rfl, rfl, rfl, rfl, id⟩
  · simp only [bind_ok] at h
    obtain ⟨cur, -, h⟩ := h
    cases hpwd : cur.pwd with
    | none => simp [hpwd] at h
    | some pwd =>
        simp only [hpwd, Except.ok.injEq] at h
        subst h
        exact ⟨rfl, rfl, rfl, rfl, rfl, rfl, rfl, id⟩

theorem FrameInv.loadProcess {q : LoadRequest} {r : Int} (h : FrameInv role K blocks s)
    (hs : Tables s) (hbelow : LoadsBelow q.image) (hload : ploadCreateProcess s q = .ok (r, s')) :
    ∃ role', FrameInv role' K blocks s' := by
  simp only [ploadCreateProcess, bind_ok] at hload
  obtain ⟨elfvalid, -, hload⟩ := hload
  split_ifs at hload with hv
  · simp only [Except.ok.injEq, Prod.mk.injEq] at hload
    exact ⟨role, hload.2 ▸ h⟩
  · simp only [bind_ok, Prod.exists, Kernel.liveProcess_ok, Except.ok.injEq, Prod.mk.injEq] at hload
    obtain ⟨pid, s₁, hcreate, p, hp, p₁, hp₁, tid, s₂, hthread, -, rfl⟩ := hload
    obtain ⟨-, role₁, h₁, p₀, hp₀, hpgbrk, hoffset, hregions⟩ := h.createProcess hs hcreate
    obtain rfl : p = p₀ := Option.some.inj (hp.symm.trans hp₀)
    have hpp := inheritEnviron_placed hp₁
    have hdir : role₁ p.cr3 = .kern p.cr3Virt (.dir pid) := (h₁.procs pid p hp).dir
    have hnew : ProcOk role₁ pid { p with image := q.image, argv := q.args } :=
      procOk_new hdir hpgbrk hoffset hregions hbelow
    exact (h₁.setProcess hp (hnew.placed hpp) hpp.cr3 hpp.privilegeLevel).createThread hthread

theorem FrameInv.forkThread {tid r : Int} {regs : Regs} (h : FrameInv role K blocks s)
    (hs : Tables s) (htid : tid = s.currenttid)
    (huser : ∀ t, s.threads s.currenttid = some t → t.privilegeLevel ≠ 0)
    (hfork : schedForkThread s tid regs = .ok (r, s')) : ∃ role', FrameInv role' K blocks s' := by
  subst htid
  unfold schedForkThread at hfork
  split_ifs at hfork with h1 h2
  · simp only [Except.ok.injEq, Prod.mk.injEq] at hfork
    exact ⟨role, hfork.2 ▸ h⟩
  · simp only [Except.ok.injEq, Prod.mk.injEq] at hfork
    exact ⟨role, hfork.2 ▸ h⟩
  simp only [bind_ok, Kernel.threadAt_ok] at hfork
  obtain ⟨t, ht, hfork⟩ := hfork
  split_ifs at hfork with h3
  · simp only [Except.ok.injEq, Prod.mk.injEq] at hfork
    exact ⟨role, hfork.2 ▸ h⟩
  simp only [bind_ok, Except.ok.injEq, Prod.mk.injEq, Prod.exists, Kernel.threadAt_ok,
    Kernel.liveProcess_ok] at hfork
  obtain ⟨rv, s₁, hcreate, child, hchild, parent, hparent, p, hp, mem, hcopy, rfl, rfl⟩ := hfork
  obtain ⟨role₁, h₁⟩ := h.createThread hcreate
  obtain ⟨rfl, hspawn⟩ := schedCreateThread_ok hcreate
  have hs₁ := hs.spawned hspawn
  obtain ⟨-, p₀, t₀, mem₀, -, hfresh, hs₁eq⟩ := hspawn
  have hcur : s₁.currenttid = s.currenttid := by rw [hs₁eq]
  have hlt := (hs.tid _ t ht).1.2
  obtain rfl : t = parent := by
    rw [hcur, hs₁eq] at hparent
    simp only [Function.update_of_ne (Int.ne_of_lt hlt)] at hparent
    exact Option.some.inj (ht.symm.trans hparent)
  have hchild_pid : child.pid = t.pid := by
    rw [hs₁eq] at hchild
    simp only [Function.update_self, Option.some.injEq] at hchild
    exact hchild ▸ hfresh.pid
  have hparentOk := h₁.threads _ t hparent
  have hchildOk := h₁.threads _ child hchild
  have hpriv : child.privilegeLevel ≠ 0 := by
    rw [← (hchildOk.proc p hp).2, (hparentOk.proc p (hchild_pid ▸ hp)).2]
    exact huser t ht
  obtain ⟨F, hF⟩ := hparentOk.stack (huser t ht)
  obtain ⟨G, hG⟩ := hchildOk.stack hpriv
  have hpdi : t.stackpdi = 767 := (hs.tid _ t ht).2.2
  have hcpdi : child.stackpdi = 767 := (hs₁.tid _ child hchild).2.2
  obtain ⟨role', hext⟩ := forkCopy_ok _ _ _ h₁.owned h₁.cr3 (h₁.procs _ p hp).dir hF hG
    (by omega) (by omega) (by unfold kernelStart; omega) (by omega) hcopy
  exact ⟨role', (h₁.setMem hext).setThread _ hchild ⟨rfl, rfl, rfl, rfl⟩⟩

/-! ### Freeing a process -/

/-- What is left of a directory whose page has been given back. -/
theorem liballocFree_userRow {m : Mem} {d a : ℕ} {pid : Int} (h : Owned role K m)
    (hcr3 : Directory role K m m.cr3) (hd : role d = .kern a (.dir pid)) :
    UserRow (Function.update role d .free) (liballocFree m a 1).2 d := by
  have hdir := h.dir d a pid hd
  have hrange := (h.home d a _ hd).1.pdindex
  unfold liballocFree
  rw [liballocFreeLoop_page h hcr3 hd]
  refine ⟨fun b hb => ?_, fun i hi pde hpde => ?_⟩
  · rw [Function.update_self] at hb
    cases hb
  · have hrow : ((pmmFreePage m d).setEntry (K (pdindex a)) (ptindex a) none).tables d =
        m.tables d := setEntry_row (hdir.notKernel _ hrange.1 hrange.2).symm (pmmFreePage m d) _ _
    simp only [liballocFreeLoop, hrow] at hpde
    obtain ⟨b, hb⟩ := hdir.user i hi pde hpde
    have hne : pde.frame ≠ d := role_ne hd (by rw [hb]; simp)
    exact ⟨b, by rw [Function.update_of_ne hne, hb]⟩

/-- A process that can be freed takes its frames with it. -/
theorem FrameInv.free {pid : Int} {p : Process} {mem : Mem} (h : FrameInv role K blocks s)
    (hp : s.processes pid = some p) (hrel : p.Releasable s.mem)
    (hfree : schedFreeAll p (liballocFree s.mem p.cr3Virt 1).2 = .ok mem) (hmem : s'.mem = mem)
    (hps : s'.processes = Function.update s.processes pid none) (hts : s'.threads = s.threads) :
    ∃ role', FrameInv role' K blocks s' := by
  have hproc := h.procs pid p hp
  have hext₁ := liballocFree_dir h.owned h.cr3 hproc.dir
  have hrow := liballocFree_userRow h.owned h.cr3 hproc.dir
  obtain ⟨role', hext₂⟩ :=
    schedFreeAll_ok hext₁.owned hrow hproc.brk hproc.regions hrel.2 hfree
  have hext := hext₁.trans (hext₂.mono (Set.empty_subset _))
  refine ⟨role', h.placed (hmem ▸ hext) ?_ (fun hc => hrel.1 hc.symm) ?_ ?_ (.refl blocks)⟩
  · rintro f rfl
    exact .inr ⟨_, pid, hproc.dir, by rw [hps, Function.update_self]⟩
  · rw [hps]
    exact .erase .refl _ pid
  · rw [hts]
    exact .refl .refl _

theorem Process.dropTids_placed (p : Process) : p.Placed p.dropTids := by
  unfold Process.dropTids
  split_ifs
  · exact .refl p
  · exact ⟨rfl, rfl, rfl, rfl, rfl, rfl, rfl, id⟩

/-- The reaper, on a process that can be freed if nobody waits for it. -/
theorem FrameInv.reap {pid : Int} (h : FrameInv role K blocks s)
    (hrel : ∀ p, s.processes pid = some p → p.waitingThreads = 0 → p.Releasable s.mem)
    (hreap : schedReapProcess s pid = .ok s') : ∃ role', FrameInv role' K blocks s' := by
  unfold schedReapProcess at hreap
  split_ifs at hreap with hr
  · exact ⟨role, Except.ok.inj hreap ▸ h⟩
  · cases hp : s.processes pid with
    | none =>
        simp only [hp, Except.ok.injEq] at hreap
        exact ⟨role, hreap ▸ h⟩
    | some p =>
        simp only [hp, bind_ok] at hreap
        obtain ⟨s₁, hm, hreap⟩ := hreap
        obtain ⟨rfl, -⟩ := markDead_ok hm
        have hplaced := p.dropTids_placed
        have h₁ : FrameInv role K blocks { s with
            threads := deadThreads s.threads p.tids
            processes := Function.update s.processes pid (some p.dropTids) } :=
          h.still rfl (.update .refl hp fun _ hb => Option.some.inj hb ▸ hplaced)
            (.mapSome .refl (fun _ => ⟨rfl, rfl, rfl, rfl⟩) (· ∈ p.tids) s.threads)
        split_ifs at hreap with h0
        · simp only [freeProcess, bind_ok, Except.ok.injEq] at hreap
          obtain ⟨mem, hfree, rfl⟩ := hreap
          have hrel' : p.dropTids.Releasable s.mem := by
            unfold Process.Releasable Process.RegionsAligned
            rw [hplaced.cr3, hplaced.psregions]
            exact hrel p hp h0
          exact h₁.free (Function.update_self ..) hrel' hfree rfl
            (by simp only [Kernel.setProcess, Function.update_idem]) rfl
        · exact ⟨role, Except.ok.inj hreap ▸ h₁⟩

theorem markExiting_placed (p : Process) (exitcode : Int) : p.Placed (p.markExiting exitcode) :=
  ⟨rfl, rfl, rfl, rfl, rfl, rfl, rfl, fun hc => by cases hc⟩

/-- A process is marked exiting and reaped. -/
theorem FrameInv.endProcess {pid : Int} {p : Process} {exitcode : Int}
    (h : FrameInv role K blocks s) (hp : s.processes pid = some p)
    (hrel : p.waitingThreads = 0 → p.Releasable s.mem)
    (hreap : schedReapProcess (s.setProcess pid (some (p.markExiting exitcode))) pid = .ok s') :
    ∃ role', FrameInv role' K blocks s' := by
  have hplaced := markExiting_placed p exitcode
  have h₁ : FrameInv role K blocks (s.setProcess pid (some (p.markExiting exitcode))) :=
    h.still rfl (.update .refl hp fun _ hb => Option.some.inj hb ▸ hplaced) (.refl .refl _)
  refine h₁.reap (fun q hq h0 => ?_) hreap
  obtain rfl : p.markExiting exitcode = q := by simpa using hq
  exact hrel h0

/-! ### The scheduler loop -/

theorem FrameInv.select {tid : Int} {t : Thread} (h : FrameInv role K blocks s) (hs : Tables s)
    (ht : s.threads tid = some t) (hselect : pickSelect s tid t = .ok s') :
    FrameInv role K blocks s' ∧ s'.mem.cr3 = s.mem.cr3 ∧ s'.processes = s.processes ∧
      s'.threads = s.threads := by
  simp only [pickSelect, bind_ok, Except.ok.injEq] at hselect
  obtain ⟨mem, hswitch, rfl⟩ := hselect
  have hext : Extends K ∅ role s.mem role mem := by
    unfold switchStackTo at hswitch
    split_ifs at hswitch with hk
    · exact Except.ok.inj hswitch ▸ .refl h.owned
    · simp only [bind_ok, Kernel.liveProcess_ok] at hswitch
      obtain ⟨p, hp, hswitch⟩ := hswitch
      obtain ⟨F, hF⟩ := (h.threads tid t ht).stack hk
      have hpdi : t.stackpdi < 768 := by
        rw [(hs.tid tid t ht).2.2]
        decide
      exact vmmSwitchStack_ok h.owned h.cr3 (h.procs _ p hp).dir hF hpdi hswitch
  exact ⟨h.extend hext (.refl .refl _) (.refl .refl _), hext.cr3, rfl, rfl⟩

theorem FrameInv.load {pid tid r : Int} {p : Process} (h : FrameInv role K blocks s)
    (hp : s.processes pid = some p) (hstate : p.state = .starting) (hpriv : p.privilegeLevel ≠ 0)
    (hload : ploadLoadProcess memoryPolicy s pid tid = .ok (r, s')) :
    ∃ role', FrameInv role' K blocks s' := by
  unfold ploadLoadProcess at hload
  simp only [bind_ok, Kernel.liveProcess_ok, hp, Option.some.injEq, exists_eq_left',
    Prod.exists] at hload
  obtain ⟨entry, st, himage, hload⟩ := hload
  have hproc := h.procs pid p hp
  obtain ⟨hbelow, hoffset⟩ := hproc.image hstate hpriv
  obtain ⟨role', hext, hok⟩ := loadImage_ok h.owned (h.owned.dir _ _ pid hproc.dir) hproc.regions
    hbelow himage
  have hdir := (h.setMem hext).procs pid p hp
  have h₁ := h.setMem hext
  cases entry with
  | none =>
      simp only [Except.ok.injEq, Prod.mk.injEq] at hload
      obtain ⟨-, rfl⟩ := hload
      have hloading : ProcOk role' pid (p.loading st) := by
        refine ⟨hdir.dir, ⟨hdir.brk.pgbrk, hdir.brk.brkOffset, hdir.brk.start, hdir.brk.bound⟩,
          hok.regions, fun hc => ?_⟩
        cases hc
      have h₂ := h₁.setProcess hp hloading rfl rfl
      exact ⟨role', h₂.still rfl (Carried.refl Process.Placed.refl _)
        (Carried.refl Thread.Placed.refl _)⟩
  | some entry =>
      simp only [bind_ok, Kernel.threadAt_ok, Kernel.setProcess_threads, Except.ok.injEq,
        Prod.mk.injEq] at hload
      obtain ⟨t, ht, -, rfl⟩ := hload
      have hloaded : ProcOk role' pid (p.loaded st) := by
        refine ⟨hdir.dir, ⟨roundBrk_aligned _, hdir.brk.brkOffset, ?_, ?_⟩, hok.regions,
          fun hc => ?_⟩
        · simp only [Process.loaded, Process.loading, hoffset]
          exact Nat.zero_le _
        · exact roundBrk_le hok.endAllocatedData
        · cases hc
      have h₂ := h₁.setProcess hp hloaded rfl rfl
      refine ⟨role', h₂.still rfl (Carried.refl Process.Placed.refl _) ?_⟩
      exact .update .refl ht fun _ hb => Option.some.inj hb ▸ ⟨rfl, rfl, rfl, rfl⟩

theorem FrameInv.starting {tid : Int} {t : Thread} (h : FrameInv role K blocks s)
    (ht : s.threads tid = some t) (hstart : pickStarting s tid t = .ok s') :
    ∃ role', FrameInv role' K blocks s' := by
  have hrun := h.setThread { t with state := .running } ht ⟨rfl, rfl, rfl, rfl⟩
  unfold pickStarting at hstart
  split_ifs at hstart with hk
  · exact ⟨role, Except.ok.inj hstart ▸ hrun⟩
  · simp only [bind_ok, Kernel.liveProcess_ok] at hstart
    obtain ⟨p, hp, hstart⟩ := hstart
    have hpriv : p.privilegeLevel ≠ 0 := by
      rw [((h.threads tid t ht).proc p hp).2]
      exact hk
    cases hps : p.state with
    | starting =>
        simp only [hps, bind_ok, Prod.exists, Except.ok.injEq] at hstart
        obtain ⟨r, s₁, hload, rfl⟩ := hstart
        exact h.load hp hps hpriv hload
    | running =>
        simp only [hps, Except.ok.injEq] at hstart
        exact ⟨role, hstart ▸ hrun⟩
    | loading =>
        simp only [hps, Except.ok.injEq] at hstart
        exact ⟨role, hstart ▸ hrun⟩
    | exiting =>
        simp only [hps, Except.ok.injEq] at hstart
        exact ⟨role, hstart ▸ h⟩

theorem waiter_placed (p : Process) (n : Int) : p.Placed { p with waitingThreads := n } :=
  ⟨rfl, rfl, rfl, rfl, rfl, rfl, rfl, id⟩

theorem FrameInv.dead {tid : Int} {t : Thread} (h : FrameInv role K blocks s)
    (hdead : pickDead s tid t = .ok s') : FrameInv role K blocks s' := by
  obtain ⟨-, -, rfl⟩ := pickDead_ok hdead
  refine h.still rfl ?_ (.erase .refl _ tid)
  simp only [Kernel.freed, droppedWaiter]
  split_ifs with h0
  · exact .refl .refl _
  · cases hp : s.processes t.wait with
    | none => exact .erase .refl _ _
    | some p =>
        refine .update .refl hp fun q hq => ?_
        obtain rfl : { p with waitingThreads := p.waitingThreads - 1 } = q := by simpa using hq
        exact waiter_placed p _

/-- Resuming a waiter frees the process if it was the last one. -/
theorem FrameInv.resume {tid : Int} {t : Thread} {p : Process} (h : FrameInv role K blocks s)
    (hs : Tables s) (ht : s.threads tid = some t) (hp : s.processes t.wait = some p)
    (hrel : p.waitingThreads = 1 → p.Releasable s.mem)
    (hresume : pickResume (s.unwaited tid t p) tid t.wait = .ok s') :
    ∃ role', FrameInv role' K blocks s' := by
  have h₁ : FrameInv role K blocks (s.unwaited tid t p) :=
    h.still rfl (.update .refl hp fun _ hb => Option.some.inj hb ▸ waiter_placed p _)
      (.update .refl ht fun _ hb => Option.some.inj hb ▸ ⟨rfl, rfl, rfl, rfl⟩)
  have hs₁ : Tables (s.unwaited tid t p) := by
    refine hs.keeps ⟨rfl, rfl, .update hp fun _ hb => ?_, .update ht rfl rfl⟩
    exact Option.some.inj hb ▸ rfl
  simp only [pickResume, bind_ok, Kernel.threadAt_ok, Kernel.liveProcess_ok] at hresume
  obtain ⟨t₁, ht₁, s₁, hsel, p₁, hp₁, hreap⟩ := hresume
  obtain ⟨h₂, hcr3, hps, hts⟩ := h₁.select hs₁ ht₁ hsel
  have ht₂ : s₁.threads tid = some t₁ := by
    rw [hts]
    exact ht₁
  have h₃ := h₂.setThread { t₁ with frame := { t₁.frame with eax := regOfInt p₁.exitcode } } ht₂
    ⟨rfl, rfl, rfl, rfl⟩
  refine h₃.reap (fun q hq h0 => ?_) hreap
  rw [Kernel.setThread_processes, hps] at hq
  obtain rfl : { p with waitingThreads := p.waitingThreads - 1 } = q := by
    simpa [Kernel.unwaited] using hq
  simp only at h0
  obtain ⟨hne, hal⟩ := hrel (by omega)
  exact ⟨fun hc => hne (hc.trans hcr3), hal⟩

theorem FrameInv.waiting {tid : Int} {t : Thread} (h : FrameInv role K blocks s) (hs : Tables s)
    (ht : s.threads tid = some t)
    (hrel : t.waitMsg = none → ∀ p, s.processes t.wait = some p → p.threadcount = 0 →
      p.waitingThreads = 1 → p.Releasable s.mem)
    (hwait : pickWaiting s tid t = .ok s') : ∃ role', FrameInv role' K blocks s' := by
  have hset : ∀ t', t.Placed t' → FrameInv role K blocks (s.setThread tid (some t')) := fun t' htt =>
    h.setThread t' ht htt
  unfold pickWaiting at hwait
  cases hmsg : t.waitMsg with
  | some addr =>
      simp only [hmsg, bind_ok] at hwait
      obtain ⟨i, -, hwait⟩ := hwait
      split_ifs at hwait with hm
      · exact ⟨role, Except.ok.inj hwait ▸ hset _ ⟨rfl, rfl, rfl, rfl⟩⟩
      · exact ⟨role, Except.ok.inj hwait ▸ h⟩
  | none =>
      simp only [hmsg] at hwait
      rcases schedCheckWaitingThread_cases s tid t with ⟨-, hc⟩ | hc | ⟨p, hrange, hp, hno, hc⟩
      · simp only [hc, ↓reduceIte, Except.ok.injEq] at hwait
        exact ⟨role, hwait ▸ hset _ ⟨rfl, rfl, rfl, rfl⟩⟩
      · simp only [hc, ↓reduceIte, Except.ok.injEq] at hwait
        exact ⟨role, hwait ▸ h⟩
      · simp only [hc] at hwait
        rw [if_neg (by omega)] at hwait
        exact h.resume hs ht hp (hrel hmsg p hp (List.length_eq_zero_iff.mpr hno)) hwait

/-- One round of `sched_pick_next`. -/
theorem FrameInv.round {s₂ : Kernel} {loop : Bool} (h : FrameInv role K blocks s) (hs : Tables s)
    (hok : RoundReleases (s, loop))
    (hd : pickDispatch (pickFetch s loop).2.1 (pickFetch s loop).1 = .ok s₂) :
    ∃ role', FrameInv role' K blocks s₂ := by
  unfold RoundReleases at hok
  generalize (pickFetch s loop).1 = tid at hd hok
  have hs₁ := hs.keeps (pickFetch_keeps s loop)
  obtain ⟨l, hl⟩ := pickFetch_eq s loop
  rw [hl] at hd hs₁
  have h₁ : FrameInv role K blocks { s with queueLoc := l } :=
    h.still rfl (.refl .refl _) (.refl .refl _)
  unfold pickDispatch at hd
  cases ht : s.threads tid with
  | none => simp [ht] at hd
  | some t =>
      simp only [ht, bind_ok] at hd
      obtain ⟨-, -, hd⟩ := hd
      cases hstate : t.state with
      | running =>
          simp only [hstate] at hd
          exact ⟨role, (h₁.select hs₁ ht hd).1⟩
      | suspended =>
          simp only [hstate, Except.ok.injEq] at hd
          exact ⟨role, hd ▸ h₁⟩
      | waiting =>
          simp only [hstate] at hd
          exact h₁.waiting hs₁ ht (hok t ht hstate) hd
      | starting =>
          simp only [hstate] at hd
          exact h₁.starting ht hd
      | exiting =>
          simp only [hstate, Except.ok.injEq] at hd
          exact ⟨role, hd ▸ h₁.setThread _ ht ⟨rfl, rfl, rfl, rfl⟩⟩
      | dead =>
          simp only [hstate] at hd
          exact ⟨role, h₁.dead hd⟩

/-! ### The calls -/

/-- A new block starts where no other block does. -/
theorem FrameInv.allocBlock {pages addr : ℕ} {mem : Mem} (h : FrameInv role K blocks s)
    (halloc : liballocAlloc s.mem pages = .ok (addr, mem)) :
    ∃ role', FrameInv role' K (if (addr : Int) = 0 then blocks else (addr, pages) :: blocks)
      { s with mem := mem } := by
  obtain ⟨haddr, -, role', hext, hblock⟩ := liballocAlloc_ok h.owned h.cr3 halloc
  have hmem := h.setMem hext
  have hheap := h.owned.heap.1
  unfold heapBase at hheap
  by_cases h0 : pages = 0
  · rw [if_pos h0] at haddr
    rw [if_pos (by omega)]
    exact ⟨role', hmem⟩
  · rw [if_neg h0] at haddr
    rw [if_neg (by omega), haddr]
    refine ⟨role', hmem.owned, hmem.cr3, hmem.procs, hmem.threads, ?_, ?_⟩
    · rw [List.map_cons, List.nodup_cons]
      refine ⟨fun hc => ?_, h.blocks.nodup⟩
      obtain ⟨b, hb, hstart⟩ := List.mem_map.mp hc
      obtain ⟨hpos, hold⟩ := h.blocks.block b hb
      obtain ⟨f, hf⟩ := hold 0 hpos
      have hlt := (h.owned.home f _ _ hf).2.1
      omega
    · intro b hb
      rcases List.mem_cons.mp hb with rfl | hb
      · exact ⟨Nat.pos_of_ne_zero h0, hblock⟩
      · exact hmem.blocks.block b hb

/-- A block that is held is freed, and no other block starts where it did. -/
theorem FrameInv.freeBlock {addr pages : ℕ} (h : FrameInv role K blocks s)
    (hheld : (addr, pages) ∈ blocks) :
    ∃ role', FrameInv role' K (blocks.erase (addr, pages))
      { s with mem := (liballocFree s.mem addr pages).2 } := by
  obtain ⟨role', hext⟩ := liballocFreeLoop_ok h.owned h.cr3 (h.blocks.block _ hheld).2
  have hgone : addr ∉ (blocks.erase (addr, pages)).map Prod.fst := by
    have hnodup := ((List.perm_cons_erase hheld).map Prod.fst).nodup_iff.mp h.blocks.nodup
    rw [List.map_cons, List.nodup_cons] at hnodup
    exact hnodup.1
  refine ⟨role', h.placed hext ?_ ?_ (.refl .refl _) (.refl .refl _) List.erase_sublist⟩
  · rintro f ⟨a, hf⟩
    exact .inl ⟨a, addr, hf, hgone⟩
  · rintro ⟨a, hf⟩
    rcases h.cr3.role with hr | ⟨b, pid, hr⟩ <;> simp [hf] at hr

theorem FrameInv.loadCr3 (h : FrameInv role K blocks s)
    (hlive : ∀ t, s.threads s.currenttid = some t → s.processes t.pid ≠ none)
    (hload : loadThreadCr3 s = .ok s') : FrameInv role K blocks s' := by
  simp only [loadThreadCr3, bind_ok, Kernel.threadAt_ok, Except.ok.injEq] at hload
  obtain ⟨t, ht, rfl⟩ := hload
  obtain ⟨p, hp⟩ := Option.ne_none_iff_exists'.mp (hlive t ht)
  have hcr3 := ((h.threads _ t ht).proc p hp).1
  have hdir := h.owned.dir _ _ _ (h.procs _ p hp).dir
  rw [hcr3] at hdir
  exact ⟨h.owned.setCr3 t.cr3, hdir.mono rfl fun _ _ => rfl, h.procs, h.threads, h.blocks⟩

theorem FrameInv.setbrk {addr : ℕ} {r : Int} (h : FrameInv role K blocks s) (hs : Tables s)
    (hloaded : ∀ p, s.currentProcess = .ok p → p.privilegeLevel ≠ 0 → p.state ≠ .starting)
    (hset : schedSetbrk s addr = .ok (r, s')) : ∃ role', FrameInv role' K blocks s' := by
  simp only [schedSetbrk, bind_ok, Prod.exists, Except.ok.injEq, Prod.mk.injEq] at hset
  obtain ⟨p, hcur, r', p', m', hbrk, -, rfl⟩ := hset
  obtain ⟨pid, -, hp⟩ := Kernel.currentProcess_ok.mp hcur
  rw [(hs.pid pid p hp).1]
  have hproc := h.procs pid p hp
  obtain ⟨hb', ⟨pgbrk, brkOffset, brk, rfl⟩, role', hext⟩ :=
    schedSetbrkTrue_ok h.owned (h.owned.dir _ _ pid hproc.dir) hproc.brk hbrk
  have hmem := h.setMem hext
  have hproc' := hmem.procs pid p hp
  refine ⟨role', hmem.setProcess hp ⟨hproc'.dir, hb', hproc'.regions, fun hstate hpriv => ?_⟩ rfl rfl⟩
  exact absurd hstate (hloaded p hcur hpriv)

theorem FrameInv.userFault {eno errorcode cr2 : ℕ} (h : FrameInv role K blocks s) (hs : Tables s)
    (hfault : schedUserFault s eno errorcode cr2 = .ok s') : ∃ role', FrameInv role' K blocks s' := by
  simp only [schedUserFault, bind_ok, Kernel.threadAt_ok] at hfault
  obtain ⟨t, ht, hfault⟩ := hfault
  split_ifs at hfault with h1 h2
  · simp only [bind_ok, Prod.exists, Except.ok.injEq] at hfault
    obtain ⟨page, m₁, hpop, r, m₂, hmap, rfl⟩ := hfault
    have hpage : cr2 / 0x1000 * 0x1000 < kernelStart := by
      have hstack := h1.2.2
      rw [(hs.tid _ t ht).2.2] at hstack
      simp only [inStackRegion, Bool.and_eq_true, decide_eq_true_eq] at hstack
      unfold kernelStart
      omega
    obtain ⟨-, role', hext, -⟩ := popMap_ok h.owned h.cr3 (pdindex_user hpage) hpop hmap
    exact ⟨role', h.setMem hext⟩
  · exact ⟨role, Except.ok.inj hfault ▸ h⟩
  · simp only [bind_ok, Kernel.currentProcess_ok, Except.ok.injEq] at hfault
    obtain ⟨p, ⟨pid, -, hp⟩, rfl⟩ := hfault
    rw [(hs.pid pid p hp).1]
    refine ⟨role, h.still rfl ?_ (.refl .refl _)⟩
    exact .update .refl hp fun _ hb => Option.some.inj hb ▸ ⟨rfl, rfl, rfl, rfl, rfl, rfl, rfl, id⟩

theorem FrameInv.interfaces (h : FrameInv role K blocks s) (hi : s.Interfaces s') :
    FrameInv role K blocks s' := by
  obtain ⟨intfaces, size, next, rfl⟩ := hi
  exact h.still rfl (.refl .refl _) (.refl .refl _)

/-- A call that keeps its promise and frees only what can be freed keeps the invariant. -/
theorem FrameInv.exec {st : FrameState} {s' : Kernel} {c : Call} {r : Int}
    (h : FrameInv role K st.blocks st.kernel) (hs : Tables st.kernel) (hp : c.Promised st)
    (hsafe : c.FramesSafe st.kernel) (hexec : exec st.kernel c = .ok (r, s')) :
    ∃ role', FrameInv role' K (c.noteBlock r st.blocks) s' := by
  cases c with
  | createProcess privilege name =>
      obtain ⟨-, role', h', -⟩ := h.createProcess hs hexec
      exact ⟨role', h'⟩
  | createThread ownerpid noqueue entrypoint => exact h.createThread hexec
  | forkThread tid regs => exact h.forkThread hs hp.1 hp.2 hexec
  | loadProcess q => exact h.loadProcess hs hsafe hexec
  | exitThread =>
      obtain ⟨t, ht, rfl⟩ := schedExitThread_ok (noResult_ok hexec)
      exact ⟨role, h.setThread _ ht ⟨rfl, rfl, rfl, rfl⟩⟩
  | exitProcess exitcode =>
      simp only [GalaxyOS.exec, schedExitProcess, bind_ok, Except.ok.injEq, Prod.mk.injEq] at hexec
      obtain ⟨p, hcur, s₂, hreap, -, rfl⟩ := hexec
      obtain ⟨pid, -, hproc⟩ := Kernel.currentProcess_ok.mp hcur
      rw [(hs.pid pid p hproc).1] at hreap
      exact h.endProcess hproc (hsafe p hcur) hreap
  | killProcess pid =>
      simp only [GalaxyOS.exec, schedKillProcess] at hexec
      split_ifs at hexec with hr
      · exact ⟨role, (exec_pair hexec).2 ▸ h⟩
      · cases hproc : st.kernel.processes pid with
        | none =>
            simp only [hproc] at hexec
            exact ⟨role, (exec_pair hexec).2 ▸ h⟩
        | some p =>
            simp only [hproc, bind_ok] at hexec
            obtain ⟨cur, hcur, hexec⟩ := hexec
            split_ifs at hexec with h1 h2
            · exact ⟨role, (exec_pair hexec).2 ▸ h⟩
            · exact ⟨role, (exec_pair hexec).2 ▸ h⟩
            · simp only [bind_ok, Except.ok.injEq, Prod.mk.injEq] at hexec
              obtain ⟨s₂, hreap, -, rfl⟩ := hexec
              exact h.endProcess hproc (hsafe cur hcur p hproc h1 (by omega)) hreap
  | suspendThread irq tid =>
      obtain ⟨t, ht, rfl⟩ := schedSuspendThread_ok (noResult_ok hexec)
      exact ⟨role, h.setThread _ ht ⟨rfl, rfl, rfl, rfl⟩⟩
  | checkSuspended irq =>
      obtain rfl : schedCheckSuspendedThreads st.kernel irq = s' := (exec_pair hexec).2
      refine ⟨role, h.still rfl (.refl .refl _) (.map (fun t => ?_) _)⟩
      unfold Thread.wake
      split_ifs
      · exact ⟨rfl, rfl, rfl, rfl⟩
      · exact .refl t
  | waitProcess pid =>
      rcases schedWaitProcess_ok hexec with ⟨rfl, -⟩ | ⟨-, t, p, -, hproc, ht, rfl⟩
      · exact ⟨role, h⟩
      · exact ⟨role, h.still rfl
          (.update .refl hproc fun _ hb => Option.some.inj hb ▸ waiter_placed p _)
          (.update .refl ht fun _ hb => Option.some.inj hb ▸ ⟨rfl, rfl, rfl, rfl⟩)⟩
  | pickNext =>
      have hstart : FrameInv role K st.blocks { st.kernel with currenttid := -1 } :=
        h.still rfl (.refl .refl _) (.refl .refl _)
      refine (schedPickNext_inv (I := fun s => Tables s ∧ ∃ role', FrameInv role' K st.blocks s)
        ⟨hs.keeps ⟨rfl, rfl, .refl _, .refl _⟩, role, hstart⟩ ?_ hsafe (noResult_ok hexec)).2
      rintro s loop s₂ ⟨hs, role₁, h₁⟩ hok hd
      exact ⟨hs.round hd, h₁.round hs hok hd⟩
  | interfaceCreate name pid flags =>
      exact ⟨role, (exec_pair hexec).2 ▸ h.interfaces (interfaceCreate_interfaces ..)⟩
  | interfaceDelete name pid =>
      obtain rfl := (exec_pair hexec).2
      rcases interfaceDelete_eq st.kernel name pid with hd | ⟨addr, intfaces, hd⟩
      · rw [hd]
        exact ⟨role, h⟩
      · rw [hd]
        refine ⟨role, h.still rfl (.refl .refl _) (.map (fun t => ?_) _)⟩
        unfold Thread.unwait
        split_ifs
        · exact ⟨rfl, rfl, rfl, rfl⟩
        · exact .refl t
  | interfaceSend um name senderpid recvpid buf size =>
      exact ⟨role, (exec_pair hexec).2 ▸ h.interfaces (interfaceSend_interfaces ..)⟩
  | interfaceRecv um name recvpid buf size sizeOut =>
      exact ⟨role, (exec_pair hexec).2 ▸ h.interfaces (interfaceRecv_interfaces ..)⟩
  | interfaceWait name tid =>
      rcases interfaceWait_ok hexec with ⟨rfl, -⟩ | ⟨-, t, addr, ht, rfl⟩
      · exact ⟨role, h⟩
      · exact ⟨role, h.setThread _ ht ⟨rfl, rfl, rfl, rfl⟩⟩
  | setbrk addr => exact h.setbrk hs hp hexec
  | userFault eno errorcode cr2 => exact h.userFault hs (noResult_ok hexec)
  | liballocAlloc pages =>
      simp only [GalaxyOS.exec, bind_ok, Prod.exists, Except.ok.injEq, Prod.mk.injEq] at hexec
      obtain ⟨addr, mem, halloc, rfl, rfl⟩ := hexec
      exact h.allocBlock halloc
  | liballocFree addr pages =>
      obtain rfl := (exec_pair hexec).2
      exact h.freeBlock hp
  | loadCr3 => exact ⟨role, h.loadCr3 hp (noResult_ok hexec)⟩

/-! ### Runs -/

/-- At the start every frame is free or belongs to the boot code. -/
def bootRole (m : Mem) (f : ℕ) : Role := if f ∈ m.pmemStack then .free else .boot

theorem bootRole_boot {m : Mem} {f : ℕ} (h : f ∉ m.pmemStack) : bootRole m f = .boot := if_neg h

theorem bootRole_cases (m : Mem) (f : ℕ) : bootRole m f = .free ∨ bootRole m f = .boot := by
  unfold bootRole
  split_ifs
  · exact .inl rfl
  · exact .inr rfl

theorem BootMem.owned {m : Mem} (h : BootMem m) : Owned (bootRole m) (kernelTable m) m := by
  have hnot : ∀ f r, r ≠ .free → r ≠ .boot → bootRole m f ≠ r := by
    intro f r h1 h2 hc
    rcases bootRole_cases m f with hr | hr
    · exact h1 (hc.symm.trans hr)
    · exact h2 (hc.symm.trans hr)
  refine ⟨h.nodup, fun f hf => if_pos hf, ?_, ?_, h.distinct, ?_, ?_, ?_, ?_, ?_, ?_⟩
  · intro f hf
    by_cases hmem : f ∈ m.pmemStack
    · exact h.aligned f hmem
    · exact absurd (bootRole_boot hmem) hf
  · exact fun i h1 h2 => bootRole_boot (h.tables i h1 h2).1
  · intro a ha pte hpte
    rw [h.fresh a ha] at hpte
    cases hpte
  · exact fun f a u hf => absurd hf (hnot f _ (by simp) (by simp))
  · exact fun a ha _ => h.fresh a ha
  · exact fun T a hT => absurd hT (hnot T _ (by simp) (by simp))
  · exact fun d a pid hd => absurd hd (hnot d _ (by simp) (by simp))
  · rw [h.heap]
    exact ⟨by decide, by decide, by decide⟩

theorem BootMem.directory {m : Mem} (h : BootMem m) :
    Directory (bootRole m) (kernelTable m) m m.cr3 := by
  refine ⟨fun i h1 h2 => ?_, h.self, fun i hi pde hpde => ?_, fun i h1 h2 => (h.tables i h1 h2).2,
    .inl (bootRole_boot h.cr3)⟩
  · obtain ⟨pde, hpde⟩ := Option.ne_none_iff_exists'.mp (h.kernel i h1 h2)
    exact ⟨pde.flags, by simp [kernelTable, hpde]⟩
  · rw [h.user i hi] at hpde
    cases hpde

theorem FrameInv.started {st : FrameState} (h : FrameStart st) :
    ∃ role K, FrameInv role K st.blocks st.kernel := by
  obtain ⟨mem, eflags, hboot, rfl⟩ := h
  exact ⟨bootRole mem, kernelTable mem, hboot.owned, hboot.directory,
    fun _ _ hp => by simp [Kernel.boot] at hp, fun _ _ ht => by simp [Kernel.boot] at ht,
    List.nodup_nil, by simp⟩

/-- The condition on a call. -/
def Call.FramesOk (st : FrameState) (c : Call) : Prop := c.Promised st ∧ c.FramesSafe st.kernel

instance : DecidableRel fun (st : FrameState) (c : Call) => c.FramesOk st :=
  fun _ _ => inferInstanceAs (Decidable (_ ∧ _))

theorem reach_frameTables {ok : FrameState → Call → Prop} {st : FrameState}
    (h : Reach FrameStep ok FrameStart st) : Tables st.kernel := by
  refine h.invariant (I := fun st => Tables st.kernel) ?_ ?_
  · rintro st ⟨mem, eflags, -, rfl⟩
    exact .boot mem eflags
  · rintro st c st' hs - hstep
    obtain ⟨r, s', hexec, rfl⟩ := hstep.exists_exec
    exact hs.exec hexec

/-- In such a run every frame has one owner in every state. -/
theorem reach_frameInv {st : FrameState}
    (h : Reach FrameStep (fun st c => c.FramesOk st) FrameStart st) :
    ∃ role K, FrameInv role K st.blocks st.kernel := by
  have hinv : Tables st.kernel ∧ ∃ role K, FrameInv role K st.blocks st.kernel := by
    refine h.invariant (I := fun st => Tables st.kernel ∧
      ∃ role K, FrameInv role K st.blocks st.kernel) ?_ ?_
    · intro st hst
      obtain ⟨mem, eflags, -, rfl⟩ := id hst
      exact ⟨.boot mem eflags, FrameInv.started hst⟩
    · rintro st c st' ⟨hs, role, K, hframe⟩ hok hstep
      obtain ⟨r, s', hexec, rfl⟩ := hstep.exists_exec
      obtain ⟨role', h'⟩ := hframe.exec hs hok.1 hok.2 hexec
      exact ⟨hs.exec hexec, role', K, h'⟩
  exact hinv.2

/-- **The free stack is exact** in a run that frees processes only while another directory is loaded
and with aligned regions, and that loads images below the kernel. -/
theorem frames_exact {st : FrameState}
    (h : Reach FrameStep (fun st c => c.FramesOk st) FrameStart st) : FramesExact st.kernel := by
  obtain ⟨role, K, hframe⟩ := reach_frameInv h
  exact hframe.exact

/-! ### A machine -/

/-- A machine with `frames` free frames from 16 MiB on; its page tables lie from 2 MiB on, and the
directory behind them. -/
def bootMachine (frames : ℕ) : Mem :=
  { pmemStack := (List.range frames).map fun i => 0x1000000 + 0x1000 * i
    tables := fun table i =>
      if table = 0x2FF000 then
        if 768 ≤ i ∧ i < 1023 then some ⟨0x200000 + 0x1000 * (i - 768), 0x7⟩
        else if i = 1023 then some ⟨0x2FF000, 0x3⟩
        else none
      else if 0x200000 ≤ table ∧ table < 0x203000 then
        some ⟨(table - 0x200000) * 0x400 + 0x1000 * i, 0x3⟩
      else none
    data := fun _ => 0
    cr3 := 0x2FF000
    endMappedKmemory := heapBase
    stackRoom := 0x1000 }

theorem bootMachine_kernelTable {frames i : ℕ} (h1 : 768 ≤ i) (h2 : i < 1023) :
    kernelTable (bootMachine frames) i = 0x200000 + 0x1000 * (i - 768) := by
  simp [kernelTable, bootMachine, h1, h2]

theorem bootMachine_mem {frames f : ℕ} (h : f ∈ (bootMachine frames).pmemStack) :
    ∃ i, f = 0x1000000 + 0x1000 * i := by
  obtain ⟨i, -, rfl⟩ := List.mem_map.mp h
  exact ⟨i, rfl⟩

theorem bootMachine_boot (frames : ℕ) : BootMem (bootMachine frames) := by
  refine ⟨?_, ?_, ?_, ?_, ⟨0x3, rfl⟩, ?_, ?_, ?_, rfl, ?_⟩
  · refine List.Nodup.map (fun i j hij => ?_) List.nodup_range
    have hsum : 0x1000000 + 0x1000 * i = 0x1000000 + 0x1000 * j := hij
    omega
  · intro f hf
    obtain ⟨i, rfl⟩ := bootMachine_mem hf
    omega
  · intro hc
    obtain ⟨i, hi⟩ := bootMachine_mem hc
    simp only [bootMachine] at hi
    omega
  · intro i h1 h2
    simp [bootMachine, h1, h2]
  · intro i hi
    have hout : ¬(768 ≤ i ∧ i < 1023) := by omega
    have hself : i ≠ 1023 := by omega
    simp [bootMachine, hout, hself]
  · intro i h1 h2
    rw [bootMachine_kernelTable h1 h2]
    refine ⟨fun hc => ?_, ?_⟩
    · obtain ⟨j, hj⟩ := bootMachine_mem hc
      omega
    · simp only [bootMachine]
      omega
  · intro i j h1 h2 h3 h4 hij
    rw [bootMachine_kernelTable h1 h2, bootMachine_kernelTable h3 h4] at hij
    omega
  · intro a ha
    have hrange := ha.pdindex
    rw [bootMachine_kernelTable hrange.1 hrange.2]
    have hheap : 771 ≤ pdindex a := by
      have h1 := ha.1
      unfold heapBase at h1
      unfold pdindex
      omega
    have hdir : ¬0x200000 + 0x1000 * (pdindex a - 768) = 0x2FF000 := by omega
    have hwin : ¬(0x200000 ≤ 0x200000 + 0x1000 * (pdindex a - 768) ∧
        0x200000 + 0x1000 * (pdindex a - 768) < 0x203000) := by omega
    simp only [bootMachine, if_neg hdir, if_neg hwin]

/-- The machine is started; process 1 belongs to the kernel, and process 2 is loaded from the image
and runs. -/
def sampleCalls (vaddr : List UInt8) : List Call :=
  [.createProcess 0 [], .createThread 0 true 0, .createProcess 0 [], .createThread 1 false 0,
    .loadProcess ⟨sampleImage vaddr, [], 3, [], [], true⟩, .pickNext, .pickNext, .loadCr3]

theorem FrameState.runs_reach {ok : FrameState → Call → Prop} {P : FrameState → Prop}
    {cs : List Call}
    (h : Runs FrameState.exec ok P cs ⟨Kernel.boot (bootMachine 24) 0, []⟩) :
    ∃ st, Reach FrameStep ok FrameStart st ∧ P st :=
  h.reach (fun _ _ _ hstep => hstep) (.start ⟨_, 0, bootMachine_boot 24, rfl⟩)

/-- Process 2 takes a stack page and a heap page, and process 1 kills it. -/
theorem frames_exact_killed : ∃ st : FrameState,
    (st.kernel.lastPid = 3 ∧ st.kernel.processes 2 = none ∧ st.blocks ≠ []) ∧
      FramesExact st.kernel := by
  have hrun : Runs FrameState.exec (fun st c => c.FramesOk st)
      (fun st => st.kernel.lastPid = 3 ∧ st.kernel.processes 2 = none ∧ st.blocks ≠ [])
      (sampleCalls [0, 0, 0x40, 0] ++ [.userFault 14 4 0xBFFFFFF0, .setbrk 0x402000, .liballocAlloc 2,
        .pickNext, .loadCr3, .killProcess 2]) ⟨Kernel.boot (bootMachine 24) 0, []⟩ := by
    decide +kernel
  obtain ⟨st, hst, hP⟩ := FrameState.runs_reach hrun
  exact ⟨st, hP, frames_exact hst⟩

/-- A segment that does not start at a page puts an address that is no frame on the stack, and a
process that exits leaves its directory on the stack and in `cr3`. -/
theorem frames_broken :
    (∃ st, Reach FrameStep (fun st c => c.Promised st) FrameStart st ∧
      (∃ f ∈ st.kernel.mem.pmemStack, f % 0x1000 ≠ 0) ∧ ¬FramesExact st.kernel) ∧
    ∃ st, Reach FrameStep (fun st c => c.Promised st) FrameStart st ∧
      st.kernel.mem.cr3 ∈ st.kernel.mem.pmemStack ∧ ¬FramesExact st.kernel := by
  have hkill : Runs FrameState.exec (fun st c => c.Promised st)
      (fun st => ∃ f ∈ st.kernel.mem.pmemStack, f % 0x1000 ≠ 0)
      (sampleCalls [0x10, 0, 0x40, 0] ++ [.pickNext, .loadCr3, .killProcess 2])
      ⟨Kernel.boot (bootMachine 24) 0, []⟩ := by
    decide +kernel
  have hexit : Runs FrameState.exec (fun st c => c.Promised st)
      (fun st => st.kernel.mem.cr3 ∈ st.kernel.mem.pmemStack)
      (sampleCalls [0, 0, 0x40, 0] ++ [.exitProcess 0]) ⟨Kernel.boot (bootMachine 24) 0, []⟩ := by
    decide +kernel
  constructor
  · obtain ⟨st, hst, f, hf, hne⟩ := FrameState.runs_reach hkill
    exact ⟨st, hst, ⟨f, hf, hne⟩, fun hc => hne (hc.aligned f hf)⟩
  · obtain ⟨st, hst, hmem⟩ := FrameState.runs_reach hexit
    exact ⟨st, hst, hmem, fun hc => hc.directories _ (.inl rfl) hmem⟩

end GalaxyOS
