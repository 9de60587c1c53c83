import GalaxyOS.Lib.Transition
import GalaxyOS.Pload

/-! # Processes and threads

The part of `sched.c` that creates, suspends, kills and reaps: every function changes the state
of the kernel and may end in a fault, a panic of the kernel or an access the C program has no
right to make.

What each of these functions changes is said in `Effects`, one lemma for each. -/

namespace GalaxyOS

/-! ### Creation -/

/-- A fresh page directory: its kernel address, its physical address and the memory with the
kernel half of the current directory copied into it and its last entry mapping itself. -/
def newDirectory (m : Mem) : Except Fault (ℕ × ℕ × Mem) := do
  let (cr3Virt, m₁) ← liballocAlloc m 1
  if cr3Virt = 0 then .error .nullDeref
  else
    let cr3 := vmmGetPhysaddr m₁ cr3Virt
    let entries := fun i =>
      if i = 1023 then some (mkPte cr3 0x3)
      else if 768 ≤ i ∧ i < 1023 then m₁.tables m₁.cr3 i
      else none
    .ok (cr3Virt, cr3, { m₁ with tables := Function.update m₁.tables cr3 entries })

/-- The reallocations of `sched_create_process`. -/
def Kernel.growProcesses (s : Kernel) : Kernel :=
  if s.lastPid ≥ s.processesSize then
    { s with
      queueCap := s.processesSize + reallocIncrement
      processesSize := s.processesSize + reallocIncrement }
  else s

def schedCreateProcess (s : Kernel) (privilege : ℕ) (name : CString) :
    Except Fault (Int × Kernel) :=
  if s.lastPid ≥ maxProcesses then .error (.panic "Out of process ids")
  else do
    let s₁ := s.growProcesses
    let (cr3Virt, cr3, mem) ← newDirectory s₁.mem
    let p : Process :=
      { name := name, tids := [], tidsSize := defaultPTidListSize, tidsCap := defaultPTidListSize,
        cr3 := cr3, cr3Virt := cr3Virt, pid := s₁.lastPid, image := [], environ := [],
        environSize := 0, pwd := none, argv := [], brk := 0, pgbrk := 0, brkOffset := 0,
        psregions := [], pagesUsed := 0, privilegeLevel := privilege, state := .starting,
        exitcode := 0, waitingThreads := 0, procerr := 0, procerrUnhandled := 0,
        procerrhandler := 0 }
    .ok (s₁.lastPid,
      { s₁.setProcess s₁.lastPid (some p) with
        mem := mem, processesCount := s₁.processesCount + 1, lastPid := s₁.lastPid + 1 })

/-- The reallocation of `threads` in `sched_create_thread`. -/
def Kernel.growThreads (s : Kernel) : Kernel :=
  if s.lastTid ≥ s.processesSize then
    { s with
      threadsSize := s.threadsSize + reallocIncrement
      threadsCap := s.threadsSize + reallocIncrement }
  else s

/-- The frame from which a new thread starts; a kernel thread's has no `useresp` and `ss`. -/
def startFrame (privilege tid entrypoint stackpdi eflags : ℕ) : Regs :=
  if privilege = 0 then
    { gs := 0x10, fs := 0x10, es := 0x10, ds := 0x10, edi := 0, esi := 0, ebp := 0, esp := 0,
      ebx := 0, edx := 0, ecx := 0, eax := tid, intNo := 0, errCode := 0, eip := entrypoint,
      cs := 0x08, eflags := eflags, useresp := 0, ss := 0 }
  else
    { gs := 0x23, fs := 0x23, es := 0x23, ds := 0x23, edi := 0, esi := 0, ebp := 0, esp := 0,
      ebx := 0, edx := 0, ecx := 0, eax := tid, intNo := 0, errCode := 0, eip := entrypoint,
      cs := 0x1B, eflags := 0b1000000010, useresp := (stackpdi + 1) * 0x400000, ss := 0x23 }

/-- The reallocation of `tids`, which looks at the size of `threads`. -/
def Process.growTids (p : Process) (threadsSize : Int) : Process :=
  if (p.threadcount : Int) ≥ threadsSize then
    { p with
      tidsSize := p.tidsSize + smallReallocIncrement
      tidsCap := p.tidsSize + smallReallocIncrement }
  else p

/-- Append a thread id to the list of its process. -/
def Process.addTid (p : Process) (threadsSize tid : Int) : Except Fault Process :=
  if (p.threadcount : Int) ≥ (p.growTids threadsSize).tidsCap then .error .overrun
  else .ok { p.growTids threadsSize with tids := p.tids ++ [tid] }

/-- Append a thread id to the run queue. -/
def Kernel.enqueue (s : Kernel) (tid : Int) : Except Fault Kernel :=
  if s.queueEnd ≥ s.queueCap then .error .overrun
  else .ok { s with
    queue := Function.update s.queue s.queueEnd tid
    queueEnd := (s.queueEnd + 1) % s.processesSize }

/-- The stack of a new thread: a kernel thread needs no page table. -/
def newStack (m : Mem) (privilege : ℕ) : Except Fault (ℕ × Mem) :=
  if privilege = 0 then .ok (0, m) else vmmMapStack m

/-- The queue step of `sched_create_thread`. -/
def Kernel.enqueueNew (s : Kernel) (noqueue : Bool) (tid : Int) : Except Fault Kernel :=
  if noqueue then .ok s else s.enqueue tid

/-- The thread that `sched_create_thread` sets up for the process `p`. -/
def newThread (p : Process) (ownerpid tid : Int) (entrypoint eflags stackpt : ℕ) : Thread :=
  { frame := startFrame p.privilegeLevel tid.toNat entrypoint 767 eflags
    cr3 := p.cr3, privilegeLevel := p.privilegeLevel, pid := ownerpid, wait := 0,
    stackpdi := 767, stackpt := stackpt, state := .starting, waitMsg := none }

def schedCreateThread (s : Kernel) (ownerpid : Int) (noqueue : Bool) (entrypoint : ℕ) :
    Except Fault (Int × Kernel) :=
  if s.lastTid ≥ maxThreads then .error (.panic "Out of thread ids")
  else do
    let s₁ := s.growThreads
    if s₁.lastTid ≥ s₁.threadsCap then .error .overrun
    else
      let p ← s₁.liveProcess ownerpid
      let (stackpt, mem) ← newStack s₁.mem p.privilegeLevel
      let t := newThread p ownerpid s₁.lastTid entrypoint s₁.eflags stackpt
      -- add the thread to the process
      let p' ← p.addTid s₁.threadsSize s₁.lastTid
      let s₂ := { (s₁.setThread s₁.lastTid (some t)).setProcess ownerpid (some p') with mem := mem }
      let s₃ ← s₂.enqueueNew noqueue s₁.lastTid
      .ok (s₁.lastTid, { s₃ with lastTid := s₃.lastTid + 1 })

/-! ### Page faults on the stack and fork -/

/-- The address lies in the stack region of a thread with this `stackpdi`. -/
def inStackRegion (stackpdi addr : ℕ) : Bool :=
  stackpdi * 0x400000 ≤ addr && addr < stackpdi * 0x400000 + 0x400000

/-- `sched_user_fault` for a page fault: allocate the stack page, or report an error. -/
def schedUserFault (s : Kernel) (eno errorcode cr2 : ℕ) : Except Fault Kernel := do
  let t ← s.threadAt s.currenttid
  if eno = 0x0E ∧ errorcode % 2 = 0 ∧ inStackRegion t.stackpdi cr2 then
    let (newpage, m₁) ← pmmAllocPage s.mem
    let (_, m₂) ← vmmMapPage m₁ newpage (cr2 / 0x1000 * 0x1000) 0x7 false
    .ok { s with mem := m₂ }
  else if eno = 0x01 then .ok s
  else
    let p ← s.currentProcess
    .ok (s.setProcess p.pid (some { p with procerr := (eno + 1) % 0x100 }))

/-- The physical address behind a stack address that the kernel touches, after the page fault
that a missing page causes. -/
def touchStack (m : Mem) (addr : ℕ) : Except Fault (ℕ × Mem) :=
  if vmmGetPhysaddr m addr ≠ 0 then .ok (vmmGetPhysaddr m addr, m)
  else do
    let (newpage, m₁) ← pmmAllocPage m
    let (_, m₂) ← vmmMapPage m₁ newpage (addr / 0x1000 * 0x1000) 0x7 false
    .ok (vmmGetPhysaddr m₂ addr, m₂)

/-- `memcpy` of `len` bytes between physical addresses. -/
def Mem.copyData (m : Mem) (dst src len : ℕ) : Mem :=
  { m with data := fun a => if dst ≤ a ∧ a < dst + len then m.data (src + (a - dst)) else m.data a }

/-- The bytes copied at once from `src` on: up to the end of the page and of the stack. -/
def forkChunk (src stackend : ℕ) : ℕ :=
  let chunk := 0x1000 - src % 0x1000
  if chunk > stackend - src then stackend - src else chunk

/-- The copy loop of `sched_fork_thread`, from the parent's address `src` on; `dst` is the
matching address in the child, and `n` bounds the pages left. -/
def forkCopy (cr3Virt : ℕ) (parent child : Thread) (stackend : ℕ) :
    ℕ → ℕ → ℕ → Mem → Except Fault Mem
  | 0, _, _, _ => .error .timeout
  | n + 1, src, dst, m =>
      if src ≥ stackend then .ok m
      else do
        let chunk := forkChunk src stackend
        let (from_, m₁) ← touchStack m src
        -- the page goes through a kernel buffer, only one stack is mapped at a time
        let m₂ ← vmmSwitchStack m₁ cr3Virt child.stackpdi child.stackpt
        let (to_, m₃) ← touchStack m₂ dst
        let m₄ := m₃.copyData to_ from_ chunk
        let m₅ ← vmmSwitchStack m₄ cr3Virt parent.stackpdi parent.stackpt
        forkCopy cr3Virt parent child stackend n (src + chunk) (dst + chunk) m₅

/-- The frame of a forked thread. -/
def forkFrame (f r : Regs) : Regs :=
  { f with
    edi := r.edi, esi := r.esi, ebp := r.ebp, ebx := r.ebx, edx := r.edx, ecx := r.ecx,
    eax := 0, eflags := r.eflags, useresp := r.useresp }

/-- `sched_fork_thread`. -/
def schedForkThread (s : Kernel) (tid : Int) (r : Regs) : Except Fault (Int × Kernel) :=
  if s.lastTid ≥ maxThreads then .ok (-EAGAIN, s)
  else if pmmAvailable s.mem < 16 then .ok (-ENOMEM, s)
  else do
    let t ← s.threadAt tid
    let stackbase := t.stackpdi * 0x400000
    let stackend := stackbase + 0x400000
    if r.useresp < stackbase ∨ r.useresp ≥ stackend then .ok (-EFAULT, s)
    else
      let (retvalue, s₁) ← schedCreateThread s t.pid false r.eip
      let child ← s₁.threadAt retvalue
      let parent ← s₁.threadAt s₁.currenttid
      let p ← s₁.liveProcess child.pid
      let newdst := child.stackpdi * 0x400000 + (r.useresp - stackbase)
      let mem ← forkCopy p.cr3Virt parent child stackend 1026 r.useresp newdst s₁.mem
      .ok (retvalue,
        { s₁.setThread retvalue (some { child with frame := forkFrame child.frame r }) with
          mem := mem })

/-! ### Suspension and waiting -/

def schedSuspendThread (s : Kernel) (irq : ℕ) (tid : Int) : Except Fault Kernel := do
  let t ← s.threadAt tid
  .ok (s.setThread tid (some { t with wait := irq, state := .suspended }))

/-- What `sched_check_suspended_threads` does to each thread. -/
def Thread.wake (irq : ℕ) (t : Thread) : Thread :=
  if t.state = .suspended ∧ t.wait = irq then { t with state := .running } else t

def schedCheckSuspendedThreads (s : Kernel) (irq : ℕ) : Kernel :=
  { s with threads := fun i => (s.threads i).map (Thread.wake irq) }

def schedWaitProcess (s : Kernel) (pid : Int) : Except Fault (Int × Kernel) :=
  if pid < 0 ∨ pid ≥ s.lastPid then .ok (-ESRCH, s)
  else
    match s.processes pid with
    | none => .ok (-ESRCH, s)
    | some p => do
        let cur ← s.currentProcess
        if pid = cur.pid then .ok (-EINVAL, s)
        else
          let t ← s.threadAt s.currenttid
          let s₁ := s.setThread s.currenttid
            (some { t with wait := pid, waitMsg := none, state := .waiting })
          .ok (0, s₁.setProcess pid (some { p with waitingThreads := p.waitingThreads + 1 }))

/-! ### Exit and reaping -/

/-- Mark the threads of a process dead; a thread that is already freed is a null pointer. -/
def markDead (s : Kernel) : List Int → Except Fault Kernel
  | [] => .ok s
  | tid :: tids => do
      let t ← s.threadAt tid
      markDead (s.setThread tid (some { t with state := .dead })) tids

/-- `tids_size = 0; threadcount = 0`, unless there are no threads. -/
def Process.dropTids (p : Process) : Process :=
  if p.tids = [] then p else { p with tids := [], tidsSize := 0 }

/-- Free a process that no thread waits for. -/
def freeProcess (s : Kernel) (pid : Int) (p : Process) : Except Fault Kernel := do
  let (_, m₁) := liballocFree s.mem p.cr3Virt 1
  let m₂ ← schedFreeAll p m₁
  .ok { s.setProcess pid none with mem := m₂, processesCount := s.processesCount - 1 }

def schedReapProcess (s : Kernel) (pid : Int) : Except Fault Kernel :=
  if pid < 0 ∨ pid ≥ s.lastPid then .ok s
  else
    match s.processes pid with
    | none => .ok s
    | some p => do
        -- if there are any threads still active, kill them all
        let s₁ ← markDead s p.tids
        -- check if there are still any waiting threads
        if p.waitingThreads = 0 then freeProcess s₁ pid p.dropTids
        else .ok (s₁.setProcess pid (some p.dropTids))

/-- The process with its exit code set and marked exiting. -/
def Process.markExiting (p : Process) (exitcode : Int) : Process :=
  { p with exitcode := exitcode, state := .exiting }

def schedExitProcess (s : Kernel) (exitcode : Int) : Except Fault (Int × Kernel) := do
  let p ← s.currentProcess
  let s₁ := s.setProcess p.pid (some (p.markExiting exitcode))
  let s₂ ← schedReapProcess s₁ p.pid
  .ok (0, s₂)

def schedExitThread (s : Kernel) : Except Fault Kernel := do
  let t ← s.threadAt s.currenttid
  .ok (s.setThread s.currenttid (some { t with state := .exiting }))

def schedKillProcess (s : Kernel) (pid : Int) : Except Fault (Int × Kernel) :=
  if pid < 0 ∨ pid ≥ s.lastPid then .ok (-ESRCH, s)
  else
    match s.processes pid with
    | none => .ok (-ESRCH, s)
    | some p => do
        let cur ← s.currentProcess
        if pid = cur.pid then .ok (-EINVAL, s)
        else if p.privilegeLevel < cur.privilegeLevel then .ok (-EACCES, s)
        else
          let s₁ := s.setProcess pid (some (p.markExiting (cur.pid + 255)))
          let s₂ ← schedReapProcess s₁ pid
          .ok (0, s₂)

/-- The state after thread `tid` has stopped waiting because the process `p` has ended. -/
def Kernel.unwaited (s : Kernel) (tid : Int) (t : Thread) (p : Process) : Kernel :=
  (s.setProcess t.wait (some { p with waitingThreads := p.waitingThreads - 1 })).setThread tid
    (some { t with wait := 0, state := .running })

/-- `sched_check_waiting_thread(tid)`. -/
def schedCheckWaitingThread (s : Kernel) (tid : Int) (t : Thread) : Int × Kernel :=
  let pid := t.wait
  let resumed := { t with wait := 0, state := ThreadState.running }
  if pid < 0 ∨ pid ≥ s.lastPid then (-1, s.setThread tid (some resumed))
  else
    match s.processes pid with
    -- waited process vanished, don't dereference a stale pid
    | none => (-1, s.setThread tid (some resumed))
    | some p => if p.threadcount = 0 then (pid, s.unwaited tid t p) else (-1, s)

end GalaxyOS
