import GalaxyOS.Sched.UserDemand

/-! # Running out of frames and ids

What a user program does may make the kernel ask for frames, process ids and thread ids.
`sched_fork_thread` checks the ids and sixteen frames before it starts, and `sched_setbrk_true` keeps
a reserve of eight frames; the other paths check nothing.  A stack fault takes the frames of the
reserve, `exec` counts no ids, and the loader takes whatever the program headers ask for, so
`pmm_alloc_page`, `sched_create_process` and `sched_create_thread` can panic.

The kernel's heap asks for frames as well: whatever a system call puts there with `kmalloc` may need a
block from `liballoc_alloc`, which checks nothing either.  A `UserAction` is a call together with the
blocks that the heap takes for it; which ones these are depends on the heap, and is left open.

`Call.Affordable` says of the state before a call that there is enough for it.  In a run of actions whose
blocks and calls all are affordable the kernel never panics for want of frames or ids
(`never_exhausted`): `exec_avoids` is the lemma about one call, `Kernel.HeapsOk` the invariant of the
runs. -/

namespace GalaxyOS

open Transition

/-! ### The condition on a call -/

/-- A process can be created: there is an id, and a frame for its directory. -/
def Kernel.ProcessRoom (s : Kernel) : Prop :=
  s.lastPid < maxProcesses ∧ 0 < pmmAvailable s.mem ∧ HeapTables s.mem 1

/-- A thread of the process `ownerpid` can be created: there is an id, and a frame for the page table
of its stack. -/
def Kernel.ThreadRoom (s : Kernel) (ownerpid : Int) : Prop :=
  s.lastTid < maxThreads ∧ ∀ p, s.processes ownerpid = some p → p.privilegeLevel ≠ 0 →
    0 < pmmAvailable s.mem ∧ HeapTables s.mem 1

/-- The program can be started: a process, and a thread with its stack. -/
def Kernel.LoadRoom (s : Kernel) (q : LoadRequest) : Prop :=
  ∀ elfvalid, elfIsvalid memoryPolicy q.image = .ok elfvalid → elfvalid = 0 →
    s.ProcessRoom ∧ s.lastTid < maxThreads ∧
      (q.privilege ≠ 0 → 1 < pmmAvailable s.mem ∧ Intact s.mem s.mem.cr3)

/-- A fork that passes the checks of `sched_fork_thread` has the frames for the pages it copies. -/
def Kernel.ForkRoom (s : Kernel) (tid : Int) (r : Regs) : Prop :=
  ∀ t, s.threads tid = some t → s.lastTid < maxThreads → 16 ≤ pmmAvailable s.mem →
    inStackRegion t.stackpdi r.useresp = true → Intact s.mem s.mem.cr3 ∧
      1 + forkDemand s.mem (t.stackpdi * 0x400000 + 0x400000) 1026 r.useresp ≤ pmmAvailable s.mem

/-- A page fault on the stack finds a frame, and one for the page table if that is missing. -/
def Kernel.FaultRoom (s : Kernel) (eno errorcode cr2 : ℕ) : Prop :=
  ∀ t, s.threads s.currenttid = some t →
    eno = 0x0E ∧ errorcode % 2 = 0 ∧ inStackRegion t.stackpdi cr2 = true →
    0 < pmmAvailable s.mem ∧
      (s.mem.tables s.mem.cr3 (pdindex (cr2 / 0x1000 * 0x1000)) = none →
        1 < pmmAvailable s.mem ∧ HeapTables s.mem 1)

/-- If the heap of the process is to grow, its directory is intact. -/
def Kernel.BrkRoom (s : Kernel) (addr : ℕ) : Prop :=
  ∀ p, s.currentProcess = .ok p → p.pgbrk < roundBrk addr → Intact s.mem p.cr3

/-- If the round loads a process, there are the frames for it. -/
def RoundAffords (st : Kernel × Bool) : Prop :=
  ∀ t, st.1.threads (pickFetch st.1 st.2).1 = some t → t.state = .starting →
    t.privilegeLevel ≠ 0 → ∀ p, st.1.processes t.pid = some p → p.state = .starting →
      Intact st.1.mem p.cr3 ∧ loadDemand p st.1.mem ≤ pmmAvailable st.1.mem

/-- There are enough frames and ids for the call. -/
def Call.Affordable (s : Kernel) : Call → Prop
  | .createProcess _ _ => s.ProcessRoom
  | .createThread ownerpid _ _ => s.ThreadRoom ownerpid
  | .forkThread tid r => s.ForkRoom tid r
  | .loadProcess q => s.LoadRoom q
  | .pickNext => Call.Rounds RoundAffords s .pickNext
  | .setbrk addr => s.BrkRoom addr
  | .userFault eno errorcode cr2 => s.FaultRoom eno errorcode cr2
  | .liballocAlloc pages => pages ≤ pmmAvailable s.mem ∧ HeapTables s.mem pages
  | _ => True

/-- The kernel address `a` is mapped. -/
def OnHeap (m : Mem) (a : ℕ) : Prop := kernelStart ≤ a ∧ a < heapLimit ∧ pageEntry m m.cr3 a ≠ none

/-- The userland thread `t` of the process `p` runs: its directory is loaded, and its stack is
entered there. -/
structure Kernel.RunsHere (s : Kernel) (t : Thread) (p : Process) : Prop where
  privilege : p.privilegeLevel ≠ 0
  dir : OnHeap s.mem p.cr3Virt ∧ vmmGetPhysaddr s.mem p.cr3Virt = s.mem.cr3
  stack : OnHeap s.mem t.stackpt ∧ (s.mem.tables s.mem.cr3 767).map Pte.frame =
    some (vmmGetPhysaddr s.mem t.stackpt / 0x1000 * 0x1000)

/-- System calls come from the thread that runs, and its process has been loaded. -/
def Call.InPlace (s : Kernel) : Call → Prop
  | .forkThread tid _ => tid = s.currenttid ∧ ∀ t, s.threads tid = some t →
      ∀ p, s.processes t.pid = some p → s.RunsHere t p
  | .setbrk _ => ∀ p, s.currentProcess = .ok p → p.state ≠ .starting
  | _ => True

/-- The break is moved for a process that has been loaded. -/
def Call.BreakLoaded (s : Kernel) : Call → Prop
  | .setbrk _ => ∀ p, s.currentProcess = .ok p → p.state ≠ .starting
  | _ => True

section Avoids

variable {s : Kernel}

end Avoids

/-! ### Creation -/

variable {s s' : Kernel}

/-- The memory and the process after the creation of a process. -/
theorem schedCreateProcess_new {privilege : ℕ} {name : CString} {pid : Int}
    (h : schedCreateProcess s privilege name = .ok (pid, s')) :
    ∃ cr3Virt cr3 p, newDirectory s.mem = .ok (cr3Virt, cr3, s'.mem) ∧ s'.processes pid = some p ∧
      p.privilegeLevel = privilege ∧ HeapOk p ∧ pid = s.lastPid ∧
      s'.processes = Function.update s.processes s.lastPid (some p) ∧ s'.lastTid = s.lastTid := by
  unfold schedCreateProcess at h
  split_ifs at h with hmax
  rw [growProcesses_eq] at h
  simp only [bind_ok, Except.ok.injEq, Prod.mk.injEq, Prod.exists] at h
  obtain ⟨cr3Virt, cr3, mem, hnew, rfl, rfl⟩ := h
  exact ⟨cr3Virt, cr3, _, hnew, Function.update_self .., rfl,
    ⟨rfl, rfl, Nat.le_refl 0, Nat.succ_pos _, fun _ => rfl⟩, rfl, rfl, rfl⟩

/-- The memory, the thread and the process after the creation of a thread. -/
theorem schedCreateThread_stack {ownerpid tid : Int} {noqueue : Bool} {entrypoint : ℕ}
    (h : schedCreateThread s ownerpid noqueue entrypoint = .ok (tid, s')) :
    tid = s.lastTid ∧ ∃ p stackpt, s.processes ownerpid = some p ∧
      newStack s.mem p.privilegeLevel = .ok (stackpt, s'.mem) ∧
      s'.threads = Function.update s.threads s.lastTid
        (some (newThread p ownerpid s.lastTid entrypoint s.eflags stackpt)) ∧
      (∀ p', s'.processes ownerpid = some p' → p.Placed p') ∧ s'.currenttid = s.currenttid := by
  unfold schedCreateThread at h
  split_ifs at h with hmax
  rw [growThreads_eq] at h
  simp only at h
  split_ifs at h with hcap
  simp only [bind_ok, Kernel.liveProcess_ok, Except.ok.injEq, Prod.mk.injEq, Prod.exists] at h
  obtain ⟨p, hp, stackpt, mem, hstack, p', hp', s₃, hs₃, rfl, rfl⟩ := h
  obtain ⟨-, hs₃⟩ := enqueueNew_ok rfl hs₃
  subst hs₃
  refine ⟨rfl, p, stackpt, hp, hstack, rfl, fun q hq => ?_, rfl⟩
  obtain rfl : p' = q := by simpa [Kernel.setProcess, Kernel.setThread] using hq
  exact addTid_placed hp'

/-! ### Forks -/

theorem OnHeap.maps {m m' : Mem} {a x : ℕ} (h : OnHeap m a) (hin : Intact m m.cr3)
    (hx : vmmGetPhysaddr m a = x) (hrow : ∀ i, m.tables m.cr3 i ≠ none →
      m'.tables m.cr3 i = m.tables m.cr3 i)
    (hpages : ∀ pde, m.tables m.cr3 (pdindex a) = some pde → m.tables pde.frame (ptindex a) ≠ none →
      m'.tables pde.frame (ptindex a) = m.tables pde.frame (ptindex a)) :
    KernelMaps m' m.cr3 a x := by
  obtain ⟨hlow, hhigh, hpage⟩ := h
  obtain ⟨pde, hpde, hpte⟩ := pageEntry_ne_none.mp hpage
  obtain ⟨pte, hsome⟩ := Option.ne_none_iff_exists'.mp hpte
  unfold kernelStart at hlow
  unfold heapLimit at hhigh
  have hpd : 768 ≤ pdindex a ∧ pdindex a < 1023 := by
    unfold pdindex
    omega
  refine ⟨by omega, pde, pte, ?_, (hin.tables _ hpd.2 pde hpde).1, ?_, ?_⟩
  · rw [hrow _ (by rw [hpde]; simp), hpde]
  · rw [hpages pde hpde hpte, hsome]
  · rw [← hx]
    unfold vmmGetPhysaddr
    simp only [hpde, hsome]

/-- What the new stack has changed for the thread that forks. -/
structure StackAdded (m m' : Mem) (stackpt : ℕ) : Prop where
  takes : Takes m.cr3 1 m m'
  child : ∃ y, KernelMaps m' m.cr3 stackpt y ∧ y / 0x1000 * 0x1000 ≠ m.cr3
  pages : ∀ a < 0x100000000, ∀ pde, m.tables m.cr3 (pdindex a) = some pde →
    m.tables pde.frame (ptindex a) ≠ none →
      m'.tables pde.frame (ptindex a) = m.tables pde.frame (ptindex a)

/-- The directory maps the new stack table. -/
theorem PageTaken.child {m m₁ : Mem} {stackpt g : ℕ} (h : Intact m m.cr3)
    (htaken : PageTaken m.cr3 stackpt g m m₁) :
    KernelMaps (m₁.clearTable (g / 0x1000 * 0x1000)) m.cr3 stackpt (g / 0x1000 * 0x1000) := by
  have hg : g ∈ m.pmemStack := htaken.stack ▸ List.mem_cons_self
  have hrange := h.heap.pdindex
  obtain ⟨fl, hpage⟩ := htaken.page
  obtain ⟨pde, hpde, hpte⟩ := pageEntry_some hpage
  have hstart := htaken.start
  -- the page table that maps the new page is one of the kernel half
  have hold : m.tables m.cr3 (pdindex m.endMappedKmemory) = some pde := by
    rw [hstart] at hpde
    rw [← htaken.takes.row _ (h.kernel _ hrange.2 hrange.1)]
    exact hpde
  have htable := h.tables _ hrange.2 pde hold
  refine ⟨?_, pde, ⟨g / 0x1000 * 0x1000, fl⟩, ?_, htable.1, ?_, ?_⟩
  · rw [hstart]
    omega
  · show Function.update m₁.tables _ _ m.cr3 _ = _
    rw [Function.update_of_ne (h.dir g hg).symm]
    exact hpde
  · show Function.update m₁.tables _ _ pde.frame _ = _
    rw [Function.update_of_ne (htable.2 g hg)]
    exact hpte
  · show g / 0x1000 * 0x1000 + stackpt % 0x1000 = g / 0x1000 * 0x1000
    rw [hstart, h.heap.2.2, Nat.add_zero]

theorem vmmMapStack_added {m m' : Mem} {stackpt : ℕ} (h : Intact m m.cr3)
    (hmap : vmmMapStack m = .ok (stackpt, m')) : StackAdded m m' stackpt := by
  obtain ⟨g, m₁, htaken, rfl⟩ := vmmMapStack_taken h rfl hmap
  have hg : g ∈ m.pmemStack := htaken.stack ▸ List.mem_cons_self
  have hclear : m₁.clearTable (g / 0x1000 * 0x1000) =
      m₁.setRow (g / 0x1000 * 0x1000) (fun _ => none) := rfl
  refine ⟨hclear ▸ htaken.setRow h _, ⟨g / 0x1000 * 0x1000, htaken.child h, ?_⟩,
    fun a ha q hq hq' => ?_⟩
  · rw [Nat.mul_div_cancel _ (by decide)]
    exact h.dir g hg
  · show Function.update m₁.tables _ _ q.frame _ = _
    rw [Function.update_of_ne (h.table_ne ha hq hg)]
    exact htaken.others _ _ hq'

/-- A page that is mapped is still mapped. -/
theorem StackAdded.present {m m' : Mem} {stackpt a : ℕ} (h : StackAdded m m' stackpt)
    (ha : a < 0x100000000) (hpage : vmmGetPhysaddr m a ≠ 0) : vmmGetPhysaddr m' a ≠ 0 := by
  unfold vmmGetPhysaddr at hpage ⊢
  rw [h.takes.cr3]
  cases hpde : m.tables m.cr3 (pdindex a) with
  | none => simp [hpde] at hpage
  | some pde =>
      rw [hpde] at hpage
      rw [h.takes.row _ (by rw [hpde]; simp), hpde]
      simp only at hpage ⊢
      cases hpte : m.tables pde.frame (ptindex a) with
      | none => simp [hpte] at hpage
      | some pte =>
          rw [hpte] at hpage
          rw [h.pages a ha pde hpde (by rw [hpte]; simp), hpte]
          exact hpage

/-- The heap of every process is in order. -/
def Kernel.HeapsOk (s : Kernel) : Prop := ∀ pid p, s.processes pid = some p → HeapOk p

theorem Kernel.HeapsOk.placed (h : s.HeapsOk)
    (hp : Carried Process.Placed s.processes s'.processes) : s'.HeapsOk := by
  intro pid p' hp'
  obtain ⟨p, hold, hplaced⟩ := hp pid p' hp'
  exact (h pid p hold).placed hplaced

/-- The process table is the same. -/
theorem Kernel.HeapsOk.still (h : s.HeapsOk) (hp : s'.processes = s.processes) : s'.HeapsOk := by
  intro pid p hpid
  rw [hp] at hpid
  exact h pid p hpid

theorem Kernel.HeapsOk.update {pid : Int} {o : Option Process} (h : s.HeapsOk)
    (ho : ∀ p ∈ o, HeapOk p) (hp : s'.processes = Function.update s.processes pid o) :
    s'.HeapsOk := by
  intro i p hi
  rw [hp] at hi
  by_cases hpid : i = pid
  · subst hpid
    rw [Function.update_self] at hi
    exact ho p hi
  · rw [Function.update_of_ne hpid] at hi
    exact h i p hi

theorem Kernel.HeapsOk.spawned {pid : Int} {noqueue : Bool} (h : s.HeapsOk)
    (hs : s.Spawned pid noqueue s') : s'.HeapsOk := by
  obtain ⟨-, p, t, mem, hp, -, rfl⟩ := hs
  refine h.update (fun q hq => ?_) rfl
  obtain rfl := Option.some.inj hq
  exact (h pid p hp).placed ⟨rfl, rfl, rfl, rfl, rfl, rfl, rfl, id⟩

theorem reaped_placed {p p' : Process} (h : p' ∈ p.reaped) : p.Placed p' := by
  unfold Process.reaped at h
  split_ifs at h
  · simp at h
  · obtain rfl : p.dropTids = p' := by simpa using h
    exact p.dropTids_placed

theorem Kernel.HeapsOk.endProcess {pid : Int} {p : Process} (h : s.HeapsOk)
    (hp : s.processes pid = some p) (exitcode : Int) (mem : Mem) :
    (s.endProcess pid p exitcode mem).HeapsOk :=
  h.update (fun _ hq =>
    ((h pid p hp).placed (markExiting_placed p exitcode)).placed (reaped_placed hq)) rfl

theorem roundBrk_lt {b : ℕ} (h : b < 0x100000000) : roundBrk b < 0x100000000 := by
  unfold roundBrk
  split_ifs
  · exact Nat.mod_lt _ (by decide)
  · exact h

/-! ### The scheduler loop -/

theorem loadSegments_end {data : List UInt8} {phoff phentsize i n : ℕ} {st st' : LoadState}
    {loaded : Bool} (h : st.endAllocatedData < 0x100000000)
    (hload : loadSegments memoryPolicy data phoff phentsize st i n = .ok (loaded, st')) :
    st'.endAllocatedData < 0x100000000 := by
  induction n generalizing st i with
  | zero =>
      obtain ⟨-, rfl⟩ := Prod.mk.inj (Except.ok.inj hload)
      exact h
  | succ n ih =>
      simp only [loadSegments, bind_ok] at hload
      obtain ⟨ph, -, hload⟩ := hload
      split_ifs at hload with htype
      · exact ih h hload
      simp only [bind_ok, Prod.exists] at hload
      obtain ⟨mapped, st₁, hseg, hload⟩ := hload
      have h₁ : st₁.endAllocatedData < 0x100000000 := by
        simp only [loadSegment, bind_ok, Prod.exists] at hseg
        obtain ⟨-, -, pages, m₁, -, ok, m₂, -, hseg⟩ := hseg
        by_cases hfail : (!ok) = true ∨ ph.vaddr = 0
        · rw [if_pos hfail] at hseg
          obtain ⟨-, rfl⟩ := Prod.mk.inj (Except.ok.inj hseg)
          exact h
        · rw [if_neg hfail] at hseg
          simp only [bind_ok, Except.ok.injEq, Prod.mk.injEq] at hseg
          obtain ⟨-, -, -, -, -, -, -, -, -, rfl⟩ := hseg
          simp only
          split_ifs
          · exact Nat.mod_lt _ (by decide)
          · exact h
      split_ifs at hload
      · obtain ⟨-, rfl⟩ := Prod.mk.inj (Except.ok.inj hload)
        exact h₁
      · exact ih h₁ hload

theorem loadImage_end {p : Process} {m : Mem} {entry : Option ℕ} {st : LoadState}
    (h : loadImage memoryPolicy p m = .ok (entry, st)) : st.endAllocatedData < 0x100000000 := by
  simp only [loadImage, bind_ok, Prod.exists] at h
  obtain ⟨phnum, -, phoff, -, phentsize, -, loaded, st₁, hsegs, h⟩ := h
  have hend := loadSegments_end (Nat.succ_pos _) hsegs
  split_ifs at h
  · obtain ⟨-, rfl⟩ := Prod.mk.inj (Except.ok.inj h)
    exact hend
  · simp only [bind_ok, Except.ok.injEq, Prod.mk.injEq] at h
    obtain ⟨entry', -, -, rfl⟩ := h
    exact hend

/-- The loader puts the break behind the segments. -/
theorem Kernel.HeapsOk.load {pid tid r : Int} {p : Process} (h : s.HeapsOk)
    (hp : s.processes pid = some p) (hstate : p.state = .starting)
    (hload : ploadLoadProcess memoryPolicy s pid tid = .ok (r, s')) : s'.HeapsOk := by
  unfold ploadLoadProcess at hload
  simp only [bind_ok, Kernel.liveProcess_ok, hp, Option.some.injEq, exists_eq_left',
    Prod.exists] at hload
  obtain ⟨entry, st, himage, hload⟩ := hload
  have hheap := h pid p hp
  cases entry with
  | none =>
      simp only [Except.ok.injEq, Prod.mk.injEq] at hload
      obtain ⟨-, rfl⟩ := hload
      refine h.update (fun q hq => ?_) rfl
      obtain rfl := Option.some.inj hq
      exact ⟨hheap.pgbrk, hheap.brkOffset, hheap.start, hheap.bound, fun hc => by cases hc⟩
  | some entry =>
      simp only [bind_ok, Kernel.threadAt_ok, Kernel.setProcess_threads, Except.ok.injEq,
        Prod.mk.injEq] at hload
      obtain ⟨t, ht, -, rfl⟩ := hload
      refine h.update (fun q hq => ?_) rfl
      obtain rfl := Option.some.inj hq
      have h0 := hheap.starting hstate
      refine ⟨roundBrk_aligned _, hheap.brkOffset, ?_, ?_, fun hc => by cases hc⟩
      · show p.brkOffset ≤ _
        rw [h0]
        exact Nat.zero_le _
      · exact roundBrk_lt (loadImage_end himage)

theorem Kernel.HeapsOk.starting {tid : Int} {t : Thread} (h : s.HeapsOk)
    (hstart : pickStarting s tid t = .ok s') : s'.HeapsOk := by
  unfold pickStarting at hstart
  split_ifs at hstart with hk
  · obtain rfl := Except.ok.inj hstart
    exact h.still rfl
  simp only [bind_ok, Kernel.liveProcess_ok] at hstart
  obtain ⟨p, hp, hstart⟩ := hstart
  cases hps : p.state with
  | starting =>
      simp only [hps, bind_ok, Prod.exists, Except.ok.injEq] at hstart
      obtain ⟨r, s₁, hload, rfl⟩ := hstart
      exact h.load hp hps hload
  | running | loading | exiting =>
      simp only [hps, Except.ok.injEq] at hstart
      subst hstart
      exact h.still rfl

/-- One round of `sched_pick_next` keeps the heaps in order. -/
theorem Kernel.HeapsOk.dispatch {tid : Int} (h : s.HeapsOk) (hd : pickDispatch s tid = .ok s') :
    s'.HeapsOk := by
  obtain ⟨t, ht, -, heff⟩ := pickDispatch_ok hd
  by_cases hstate : t.state = .starting
  · unfold pickDispatch at hd
    simp only [ht, hstate, bind_ok] at hd
    obtain ⟨-, -, hd⟩ := hd
    exact h.starting hd
  cases heff with
  | load _ _ _ _ _ hc => exact absurd hc hstate
  | resume p mem frame hw hmsg hrange hp hno =>
      exact h.update (fun _ hq =>
        ((h _ p hp).placed (waiter_placed p _)).placed (reaped_placed hq)) rfl
  | dead hw hrange hq =>
      refine h.placed ?_
      simp only [Kernel.freed, droppedWaiter]
      split_ifs with h0
      · exact .refl .refl _
      · cases hp : s.processes t.wait with
        | none => exact .erase .refl _ _
        | some p =>
            refine .update .refl hp fun q hq => ?_
            obtain rfl : { p with waitingThreads := p.waitingThreads - 1 } = q := by simpa using hq
            exact waiter_placed p _
  | select | skip | message | stale | start | exit => exact h.still rfl

theorem Kernel.HeapsOk.round {loop : Bool} (h : s.HeapsOk)
    (hd : pickDispatch (pickFetch s loop).2.1 (pickFetch s loop).1 = .ok s') : s'.HeapsOk := by
  obtain ⟨l, hl⟩ := pickFetch_eq s loop
  have h₁ : (pickFetch s loop).2.1.HeapsOk := h.still (by rw [hl])
  exact h₁.dispatch hd

/-- Every call keeps the heaps in order. -/
theorem Kernel.HeapsOk.exec {c : Call} {r : Int} (h : s.HeapsOk) (hs : Tables s)
    (hp : c.BreakLoaded s) (hexec : exec s c = .ok (r, s')) : s'.HeapsOk := by
  cases c with
  | createProcess privilege name =>
      obtain ⟨cr3Virt, cr3, p, -, -, -, hheap, -, hps, -⟩ := schedCreateProcess_new hexec
      exact h.update (fun q hq => Option.some.inj hq ▸ hheap) hps
  | createThread ownerpid noqueue entrypoint => exact h.spawned (schedCreateThread_ok hexec).2
  | forkThread tid regs =>
      rcases schedForkThread_ok hexec with ⟨rfl, -⟩ | ⟨-, pid, hspawn⟩
      · exact h
      · exact h.spawned hspawn
  | loadProcess q =>
      simp only [GalaxyOS.exec, ploadCreateProcess, bind_ok] at hexec
      obtain ⟨elfvalid, -, hload⟩ := hexec
      split_ifs at hload with hv
      · exact (exec_pair hload).2 ▸ h
      simp only [bind_ok, Prod.exists, Kernel.liveProcess_ok, Except.ok.injEq, Prod.mk.injEq] at hload
      obtain ⟨pid, s₁, hcreate, p, hproc, p₁, hp₁, tid, s₂, hthread, -, rfl⟩ := hload
      obtain ⟨cr3Virt, cr3, p₀, -, hnew, -, hheap, -, hps, -⟩ := schedCreateProcess_new hcreate
      obtain rfl : p = p₀ := Option.some.inj (hproc.symm.trans hnew)
      have h₁ : s₁.HeapsOk := h.update (fun q hq => Option.some.inj hq ▸ hheap) hps
      have himage : HeapOk { p with image := q.image, argv := q.args } :=
        ⟨hheap.pgbrk, hheap.brkOffset, hheap.start, hheap.bound, hheap.starting⟩
      have h₂ : (s₁.setProcess pid (some p₁)).HeapsOk := h₁.update (fun q hq =>
        Option.some.inj hq ▸ himage.placed (inheritEnviron_placed hp₁)) rfl
      exact h₂.spawned (schedCreateThread_ok hthread).2
  | exitThread =>
      obtain ⟨t, ht, rfl⟩ := schedExitThread_ok (noResult_ok hexec)
      exact h.still rfl
  | exitProcess exitcode =>
      obtain ⟨pid, p, mem, hproc, rfl⟩ := schedExitProcess_ok hs hexec
      exact h.endProcess hproc exitcode mem
  | killProcess pid =>
      rcases schedKillProcess_ok hexec with rfl | ⟨p, exitcode, mem, hproc, rfl⟩
      · exact h
      · exact h.endProcess hproc exitcode mem
  | suspendThread irq tid =>
      obtain ⟨t, ht, rfl⟩ := schedSuspendThread_ok (noResult_ok hexec)
      exact h.still rfl
  | checkSuspended irq =>
      obtain rfl : schedCheckSuspendedThreads s irq = s' := (exec_pair hexec).2
      exact h.still rfl
  | waitProcess pid =>
      rcases schedWaitProcess_ok hexec with ⟨rfl, -⟩ | ⟨-, t, p, -, hproc, ht, rfl⟩
      · exact h
      · exact h.placed (.update .refl hproc fun _ hq => Option.some.inj hq ▸ waiter_placed p _)
  | pickNext =>
      exact schedPickNext_inv (h.still rfl) (fun _ _ _ hI _ hd => hI.round hd) (heads_true _ _)
        (noResult_ok hexec)
  | interfaceCreate name pid flags =>
      obtain ⟨intfaces, size, next, hi⟩ := interfaceCreate_interfaces s name pid flags
      exact h.still (by rw [← (exec_pair hexec).2, hi])
  | interfaceDelete name pid =>
      obtain rfl := (exec_pair hexec).2
      rcases interfaceDelete_eq s name pid with hd | ⟨addr, intfaces, hd⟩
      · exact h.still (by rw [hd])
      · exact h.still (by rw [hd])
  | interfaceSend um name senderpid recvpid buf size =>
      obtain ⟨intfaces, size', next, hi⟩ := interfaceSend_interfaces s um name senderpid recvpid buf size
      exact h.still (by rw [← (exec_pair hexec).2, hi])
  | interfaceRecv um name recvpid buf size sizeOut =>
      obtain ⟨intfaces, size', next, hi⟩ := interfaceRecv_interfaces s um name recvpid buf size sizeOut
      exact h.still (by rw [← (exec_pair hexec).2, hi])
  | interfaceWait name tid =>
      rcases interfaceWait_ok hexec with ⟨rfl, -⟩ | ⟨-, t, addr, ht, rfl⟩
      · exact h
      · exact h.still rfl
  | setbrk addr =>
      simp only [GalaxyOS.exec, schedSetbrk, bind_ok, Prod.exists, Except.ok.injEq,
        Prod.mk.injEq] at hexec
      obtain ⟨p, hcur, r', p', m', hbrk, -, rfl⟩ := hexec
      obtain ⟨pid, -, hproc⟩ := Kernel.currentProcess_ok.mp hcur
      exact h.update (fun q hq => Option.some.inj hq ▸ (h pid p hproc).setbrk (hp p hcur) hbrk) rfl
  | userFault eno errorcode cr2 =>
      have hfault := noResult_ok hexec
      simp only [schedUserFault, bind_ok, Kernel.threadAt_ok] at hfault
      obtain ⟨t, ht, hfault⟩ := hfault
      split_ifs at hfault with h1 h2
      · simp only [bind_ok, Prod.exists, Except.ok.injEq] at hfault
        obtain ⟨page, m₁, -, r', m₂, -, rfl⟩ := hfault
        exact h.still rfl
      · exact Except.ok.inj hfault ▸ h
      · simp only [bind_ok, Kernel.currentProcess_ok, Except.ok.injEq] at hfault
        obtain ⟨p, ⟨pid, -, hproc⟩, rfl⟩ := hfault
        refine h.update (fun q hq => ?_) rfl
        exact Option.some.inj hq ▸ (h pid p hproc).placed ⟨rfl, rfl, rfl, rfl, rfl, rfl, rfl, id⟩
  | liballocAlloc pages =>
      simp only [GalaxyOS.exec, bind_ok, Prod.exists, Except.ok.injEq, Prod.mk.injEq] at hexec
      obtain ⟨addr, mem, -, -, rfl⟩ := hexec
      exact h.still rfl
  | liballocFree addr pages => exact h.still (by rw [← (exec_pair hexec).2])
  | loadCr3 =>
      have hload := noResult_ok hexec
      simp only [loadThreadCr3, bind_ok, Kernel.threadAt_ok, Except.ok.injEq] at hload
      obtain ⟨t, ht, rfl⟩ := hload
      exact h.still rfl

theorem Kernel.HeapsOk.started (h : Started s) : s.HeapsOk := by
  obtain ⟨mem, eflags, idleLoop, h⟩ := h
  simp only [schedInit, bind_ok, Prod.exists, Except.ok.injEq] at h
  obtain ⟨pid, s₁, hcreate, tid, s₂, hthread, rfl⟩ := h
  have h0 : (Kernel.boot mem eflags).HeapsOk := fun _ _ hp => by simp [Kernel.boot] at hp
  obtain ⟨cr3Virt, cr3, p, -, -, -, hheap, -, hps, -⟩ := schedCreateProcess_new hcreate
  have h₁ : s₁.HeapsOk := h0.update (fun q hq => Option.some.inj hq ▸ hheap) hps
  exact (h₁.spawned (schedCreateThread_ok hthread).2).still rfl

/-! ### Actions of user programs -/

/-- What a program makes the kernel do.  For what is put on the kernel's heap by `kmalloc` (a message, a
copy of a string, the file of an `exec`, the record of a thread) the heap takes `blocks` from
`liballoc_alloc`, given by their numbers of pages, and then the call is made.  There is no call if the
system call only copies data. -/
structure UserAction where
  blocks : List ℕ
  call : Option Call

namespace UserAction

/-- The blocks first: they take as many frames as they do in the middle of the call. -/
def calls (a : UserAction) : List Call := a.blocks.map .liballocAlloc ++ a.call.toList

def exec (s : Kernel) (a : UserAction) : Except Fault Kernel := runAll execState a.calls s

/-- The action and the step it makes. -/
def Step (s : Kernel) (a : UserAction) (s' : Kernel) : Prop := exec s a = .ok s'

/-- There are enough frames and ids for the blocks and for the call. -/
def Affordable (s : Kernel) (a : UserAction) : Prop :=
  Admits execState (fun s c => c.Affordable s) a.calls s

/-- A system call that only the running thread can make comes from it. -/
def InPlace (s : Kernel) (a : UserAction) : Prop :=
  Admits execState (fun s c => c.InPlace s) a.calls s

end UserAction

/-- The entry `i` of the directory `d`: it is there in the kernel half, and its table is neither the
directory nor one of `pages`. -/
def entryIntact (m : Mem) (d : ℕ) (pages : List ℕ) (i : ℕ) : Bool :=
  match m.tables d i with
  | none => Nat.blt i 768
  | some pde => !Nat.beq pde.frame d && pages.all fun page => !Nat.beq pde.frame page

theorem entryIntact_iff {m : Mem} {d i : ℕ} {pages : List ℕ} : entryIntact m d pages i = true ↔
    (768 ≤ i → m.tables d i ≠ none) ∧
      ∀ pde, m.tables d i = some pde → pde.frame ≠ d ∧ ∀ page ∈ pages, pde.frame ≠ page := by
  unfold entryIntact
  cases m.tables d i with
  | none =>
    have hlt : Nat.blt i 768 = true ↔ ¬768 ≤ i := by rw [Nat.blt_eq, Nat.not_le]
    simp only [hlt, ne_eq, not_true_eq_false, imp_false, reduceCtorEq, IsEmpty.forall_iff,
      implies_true, and_true]
  | some pde => simp [← Bool.not_eq_true]

instance (m : Mem) (d : ℕ) : Decidable (Intact m d) :=
  decidable_of_iff
    ((heapBase ≤ m.endMappedKmemory ∧ m.endMappedKmemory < heapLimit ∧
        m.endMappedKmemory % 0x1000 = 0) ∧
      (m.tables d 1023).map Pte.frame = some d ∧
      (List.range 1023).all
        (entryIntact m d (m.pmemStack.map fun f => f / 0x1000 * 0x1000)) = true ∧
      (∀ f ∈ m.pmemStack, f / 0x1000 * 0x1000 ≠ d) ∧
      (m.pmemStack.map fun f => f / 0x1000 * 0x1000).Nodup)
    ⟨fun ⟨h1, h3, h4, h5, h6⟩ =>
      have hall := fun i (hi : i < 1023) =>
        entryIntact_iff.1 (List.all_eq_true.1 h4 i (List.mem_range.2 hi))
      ⟨h1, fun i hi => (hall i hi).1, h3, fun i hi pde hpde =>
        ⟨((hall i hi).2 pde hpde).1, fun _ hf =>
          ((hall i hi).2 pde hpde).2 _ (List.mem_map_of_mem hf)⟩, h5, h6⟩,
      fun ⟨h1, h2, h3, h4, h5, h6⟩ => ⟨h1, h3, List.all_eq_true.2 fun i hi =>
        have hi := List.mem_range.1 hi
        entryIntact_iff.2 ⟨h2 i hi, fun pde hpde => ⟨(h4 i hi pde hpde).1, fun _ hpage =>
          have ⟨f, hf, heq⟩ := List.mem_map.1 hpage
          heq ▸ (h4 i hi pde hpde).2 f hf⟩⟩, h5, h6⟩⟩

instance (s : Kernel) : Decidable s.ProcessRoom := inferInstanceAs (Decidable (_ ∧ _ ∧ _))

instance (st : Kernel × Bool) : Decidable (RoundAffords st) := by
  unfold RoundAffords
  have : ∀ t : Thread, Decidable (∀ p, st.1.processes t.pid = some p → p.state = .starting →
      Intact st.1.mem p.cr3 ∧ loadDemand p st.1.mem ≤ pmmAvailable st.1.mem) :=
    fun t => decidableForallSome (st.1.processes t.pid)
  exact decidableForallSome (st.1.threads (pickFetch st.1 st.2).1)

instance (m : Mem) (a : ℕ) : Decidable (OnHeap m a) := inferInstanceAs (Decidable (_ ∧ _ ∧ _))

instance (s : Kernel) (t : Thread) (p : Process) : Decidable (s.RunsHere t p) :=
  decidable_of_iff
    (p.privilegeLevel ≠ 0 ∧
      (OnHeap s.mem p.cr3Virt ∧ vmmGetPhysaddr s.mem p.cr3Virt = s.mem.cr3) ∧
      OnHeap s.mem t.stackpt ∧ (s.mem.tables s.mem.cr3 767).map Pte.frame =
        some (vmmGetPhysaddr s.mem t.stackpt / 0x1000 * 0x1000))
    ⟨fun ⟨h1, h2, h3⟩ => ⟨h1, h2, h3⟩, fun ⟨h1, h2, h3⟩ => ⟨h1, h2, h3⟩⟩

instance Call.InPlace.decidable (s : Kernel) (c : Call) : Decidable (c.InPlace s) :=
  Call.casesOn (motive := fun c => Decidable (c.InPlace s)) c
    (fun _ _ => .isTrue trivial) (fun _ _ _ => .isTrue trivial)
    (fun tid _ => @instDecidableAnd _ _ inferInstance (@decidableForallSome _ _
      (fun t => decidableForallSome (s.processes t.pid)) (s.threads tid)))
    (fun _ => .isTrue trivial) (.isTrue trivial) (fun _ => .isTrue trivial)
    (fun _ => .isTrue trivial) (fun _ _ => .isTrue trivial) (fun _ => .isTrue trivial)
    (fun _ => .isTrue trivial) (.isTrue trivial) (fun _ _ _ => .isTrue trivial)
    (fun _ _ => .isTrue trivial) (fun _ _ _ _ _ _ => .isTrue trivial)
    (fun _ _ _ _ _ _ => .isTrue trivial) (fun _ _ => .isTrue trivial)
    (fun _ => decidableForallOk s.currentProcess) (fun _ _ _ => .isTrue trivial)
    (fun _ => .isTrue trivial) (fun _ _ => .isTrue trivial) (.isTrue trivial)

instance Call.Affordable.decidable (s : Kernel) (c : Call) : Decidable (c.Affordable s) :=
  Call.casesOn (motive := fun c => Decidable (c.Affordable s)) c
    (fun _ _ => inferInstanceAs (Decidable s.ProcessRoom))
    (fun ownerpid _ _ => @instDecidableAnd _ _ inferInstance
      (decidableForallSome (s.processes ownerpid)))
    (fun tid _ => decidableForallSome (s.threads tid))
    (fun q => decidableForallOk (elfIsvalid memoryPolicy q.image)) (.isTrue trivial)
    (fun _ => .isTrue trivial) (fun _ => .isTrue trivial) (fun _ _ => .isTrue trivial)
    (fun _ => .isTrue trivial) (fun _ => .isTrue trivial)
    (Call.Rounds.decidable s .pickNext) (fun _ _ _ => .isTrue trivial)
    (fun _ _ => .isTrue trivial) (fun _ _ _ _ _ _ => .isTrue trivial)
    (fun _ _ _ _ _ _ => .isTrue trivial) (fun _ _ => .isTrue trivial)
    (fun _ => decidableForallOk s.currentProcess)
    (fun _ _ _ => decidableForallSome (s.threads s.currenttid))
    (fun pages => inferInstanceAs (Decidable (pages ≤ pmmAvailable s.mem ∧ HeapTables s.mem pages)))
    (fun _ _ => .isTrue trivial) (.isTrue trivial)

instance UserAction.InPlace.decidable (s : Kernel) (a : UserAction) : Decidable (a.InPlace s) :=
  have : DecidableRel fun (s : Kernel) (c : Call) => c.InPlace s := Call.InPlace.decidable
  Admits.decidable a.calls s

instance UserAction.Affordable.decidable (s : Kernel) (a : UserAction) : Decidable (a.Affordable s) :=
  have : DecidableRel fun (s : Kernel) (c : Call) => c.Affordable s := Call.Affordable.decidable
  Admits.decidable a.calls s

/-- An action for which the heap has room. -/
def UserAction.plain (c : Call) : UserAction := ⟨[], some c⟩

/-- The registers of a thread that forks with its stack pointer at `useresp`. -/
def forkRegs (useresp : ℕ) : Regs := { startFrame 3 0 0x400000 767 0 with useresp := useresp }

end GalaxyOS
