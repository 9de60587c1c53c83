import GalaxyOS.Sched.Current
import GalaxyOS.Syscall.Strings

/-! # Exceptions

`exception_handle` gives a fault of a user program to the handler that the process has registered, and
ends the process if it has none or if the handler faults itself.  `procerr_unhandled` is set by a
delivery and stands for a handler that has not returned yet; `syscall_eret`, with which a handler
returns, does not reset it.  After `sched_exit_process` the function stores to `currentps`, which is
freed by then unless some thread waits for the process.

A `Machine` is the kernel between the interrupts: a running thread makes a call, faults or is
interrupted, and after a call or an interrupt the scheduler runs.

`fault_protocol_iff` says for which runs every fault gets what the program has asked for, and
`current_process_kept` when the process of the running thread is never one that has been freed.  Both rest
on `MachineInv`: `exceptionHandle_ok` is the step of an exception, `Syscall.run_ok` that of a system call,
and `MachineInv.step` puts them together. -/

namespace GalaxyOS

open Transition

/-! ### The exception handler -/

/-- `cpumessages`. -/
def cpumessages : List String :=
  ["Division Error", "Debug", "Non-maskable Interrupt", "Breakpoint", "Overflow",
    "Bound Range Exceeded", "Invalid Opcode", "Device Not Available", "Double Fault",
    "Coprocessor Segment Overrun", "Invalid TSS", "Segment Not Present", "Stack-Segment Fault",
    "General Protection Fault", "Page Fault", "Unknown", "x87 Floating-Point Exception",
    "Alignment Check", "Machine Check", "SIMD Floating-Point Exception", "Virtualization Exception",
    "Control Protection Exception", "Unknown", "Unknown", "Unknown", "Unknown", "Unknown", "Unknown",
    "Hypervisor Injection Exception", "VMM Communication Exception", "Security Exception", "Unknown"]

/-- The text of the panic that an exception of a kernel thread causes. -/
def exceptionPanic (intNo : ℕ) : String :=
  "CPU exception occurred: " ++ (cpumessages[intNo]?).getD "" ++ " (0x" ++
    String.ofList (Nat.toDigits 16 intNo) ++ ")"

/-- What happens after `exception_handle`: the thread goes on, it goes on in the handler with these
registers and this memory, or `int $0x30` has taken the processor from it. -/
inductive ExceptionEnd where
  | resume
  | deliver (r : Regs) (um : UserMem)
  | yield

def ExceptionEnd.delivers : ExceptionEnd → Bool
  | .deliver .. => true
  | _ => false

/-- Store to fields of `*currentps`. -/
def Kernel.updateCurrent (s : Kernel) (f : Process → Process) : Except Fault Kernel := do
  let p ← s.currentProcess
  .ok (s.setProcess p.pid (some (f p)))

/-- Hand the exception to the scheduler. -/
def exceptionReport (s : Kernel) (r : Regs) (cr2 : ℕ) : Except Fault Kernel :=
  if s.currenttid = -1 then .ok s
  else do
    let t ← s.threadAt s.currenttid
    if t.privilegeLevel ≠ 0 then schedUserFault s r.intNo r.errCode cr2
    else if r.intNo < 32 then .error (.panic (exceptionPanic r.intNo))
    else .ok s

/-- `sched_exit_process(currentps->procerr)`, the stores to `currentps` behind it and the switch. -/
def exitFaulted (s : Kernel) (procerr : ℕ) (f : Process → Process) :
    Except Fault (ExceptionEnd × Kernel) := do
  let (_, s₁) ← schedExitProcess s procerr
  let s₂ ← s₁.updateCurrent f
  .ok (.yield, s₂)

/-- The error of the current process `p`, in user mode. -/
def deliverError (s : Kernel) (um : UserMem) (r : Regs) (p : Process) :
    Except Fault (ExceptionEnd × Kernel) :=
  if p.procerrUnhandled ≠ 0 then
    -- double faulted handler
    exitFaulted s p.procerr fun p => { p with procerrUnhandled := 0, procerr := 0 }
  else if p.procerrhandler ≠ 0 then
    -- fake a call to procerrhandler
    if r.useresp < 8 then exitFaulted s p.procerr fun p => { p with procerr := 0 }
    else
      match safecpyToUser um (r.useresp - 8) (sizeBytes r.eip ++ sizeBytes p.procerr) with
      | (rval, um') =>
          -- bad handler stack, kill the process instead
          if rval = -1 then exitFaulted s p.procerr fun p => { p with procerr := 0 }
          else do
            let s₁ ← s.updateCurrent fun p => { p with procerrUnhandled := 1, procerr := 0 }
            .ok (.deliver { r with useresp := r.useresp - 8, eip := p.procerrhandler } um', s₁)
  else
    -- the process hasn't set one, so just kill it
    exitFaulted s p.procerr fun p => { p with procerr := 0 }

/-- `exception_handle`; the memory of the user program is `um`, and `cr2` the address of a page
fault. -/
def exceptionHandle (s : Kernel) (um : UserMem) (r : Regs) (cr2 : ℕ) :
    Except Fault (ExceptionEnd × Kernel) := do
  let s₁ ← exceptionReport s r cr2
  if s₁.currentps = none then .ok (.resume, s₁)
  else
    let p ← s₁.currentProcess
    if p.procerr = 0 then .ok (.resume, s₁)
    else if r.cs % 4 ≠ 0 then deliverError s₁ um r p
    else .error (.panic ("Kernel process crashed: code " ++ toString p.procerr))

/-! ### The machine -/

/-- What a system call does with the current process that is of no concern to the scheduler and to
`exception_handle`: its files, its environment, its terminal. -/
structure ProcessUse where
  run : Process → Int × Process
  like : ∀ p : Process, p.Like (run p).2
  marks : ∀ p : Process, p.SameMarks (run p).2

/-- `syscall_eret`. -/
def syscallEret (s : Kernel) (value : Int) : Except Fault (Int × Kernel) :=
  if value < 0 then schedExitProcess s (-value) else .ok (0, s)

/-- `syscall_ehndlr`. -/
def syscallEhndlr (s : Kernel) (handler : ℕ) : Except Fault (Int × Kernel) :=
  if handler ≠ 0 ∧ handler ≥ kernelStart then .ok (-EFAULT, s)
  else do
    let s₁ ← s.updateCurrent fun p => { p with procerrhandler := handler }
    .ok (0, s₁)

/-- A system call that uses the current process only. -/
def syscallProcess (s : Kernel) (use : ProcessUse) : Except Fault (Int × Kernel) := do
  let p ← s.currentProcess
  .ok ((use.run p).1, s.setProcess p.pid (some (use.run p).2))

/-- The system calls: a call of the scheduler, the loader or the interfaces, or one of the others. -/
inductive Syscall where
  | call (c : Call)
  | eret (value : Int)
  | ehndlr (handler : ℕ)
  | process (use : ProcessUse)

def Syscall.run (s : Kernel) : Syscall → Except Fault (Int × Kernel)
  | .call c => exec s c
  | .eret value => syscallEret s value
  | .ehndlr handler => syscallEhndlr s handler
  | .process use => syscallProcess s use

/-- `syscall_handler`. -/
def syscallHandler (s : Kernel) (c : Syscall) : Except Fault (Int × Kernel) := do
  let (r, s₁) ← c.run { s with kmode := false }
  .ok (r, { s₁ with kmode := true })

/-- The kernel, and whether the thread that was running has left the processor to the scheduler.  A
fault has been delivered to the handlers of the processes in `delivered`, and those of the processes
in `outstanding` have not returned since. -/
structure Machine where
  kernel : Kernel
  leaving : Bool
  delivered : Int → Bool
  outstanding : Int → Bool

/-- What happens next: the running thread makes a system call or causes an exception, an interrupt
arrives, `sched_loop` selects a thread and the stub loads its `cr3`, or the kernel does something of its
own, at boot, in one of its threads or in a driver. -/
inductive MachineAct where
  | syscall (c : Syscall)
  | exception (um : UserMem) (r : Regs) (cr2 : ℕ)
  | interrupt (irq : ℕ)
  | schedule
  | kernel (c : Call)

/-- Set the mark of the current process. -/
def Kernel.noteCurrent (s : Kernel) (b : Bool) (marks : Int → Bool) : Int → Bool :=
  match s.currentps with
  | none => marks
  | some pid => Function.update marks pid b

/-- A handler returns with `syscall_eret` and does not ask for the end of its process. -/
def Syscall.returns : Syscall → Bool
  | .eret value => decide (0 ≤ value)
  | _ => false

/-- The call takes the processor from the thread that makes it. -/
def Call.suspends : Call → Bool
  | .suspendThread .. => true
  | _ => false

def Machine.exec (m : Machine) : MachineAct → Except Fault Machine
  | .syscall c => do
      let (_, s) ← syscallHandler m.kernel c
      .ok { m with
        kernel := s
        leaving := true
        outstanding :=
          if c.returns then m.kernel.noteCurrent false m.outstanding else m.outstanding }
  | .exception um r cr2 => do
      let (e, s) ← exceptionHandle m.kernel um r cr2
      .ok (match e with
        | .resume => { m with kernel := s }
        | .deliver .. => { m with
            kernel := s
            delivered := m.kernel.noteCurrent true m.delivered
            outstanding := m.kernel.noteCurrent true m.outstanding }
        | .yield => { m with kernel := s, leaving := true })
  | .interrupt irq =>
      .ok { m with kernel := schedCheckSuspendedThreads m.kernel irq, leaving := true }
  | .schedule => do
      let s ← schedPickNext m.kernel
      let s₁ ← loadThreadCr3 s
      .ok { m with kernel := s₁, leaving := false }
  | .kernel c => do
      let (_, s) ← GalaxyOS.exec m.kernel c
      .ok { m with kernel := s, leaving := m.leaving || c.suspends }

def MachineStep (m : Machine) (a : MachineAct) (m' : Machine) : Prop := m.exec a = .ok m'

def MachineStart (m : Machine) : Prop :=
  Started m.kernel ∧ m.leaving = false ∧ (m.delivered = fun _ => false) ∧
    m.outstanding = fun _ => false

/-- What a system call of the running thread consists of, for its process and in its own name. -/
def Call.OfThread (s : Kernel) : Call → Prop
  | .exitProcess _ | .waitProcess _ | .loadProcess _ | .setbrk _ | .killProcess _ | .exitThread => True
  | .interfaceCreate _ pid _ | .interfaceDelete _ pid => s.currentps = some pid
  | .interfaceSend _ _ senderpid _ _ _ => s.currentps = some senderpid
  | .interfaceRecv _ _ recvpid _ _ _ => s.currentps = some recvpid
  | .forkThread tid _ | .interfaceWait _ tid => tid = s.currenttid
  | _ => False

/-- What the kernel does of its own: it creates processes and threads, waits for a device, takes memory
and uses interfaces. -/
def Call.OfKernel (s : Kernel) : Call → Prop
  | .createProcess .. | .createThread .. | .loadProcess .. | .interfaceCreate .. | .interfaceDelete ..
  | .interfaceSend .. | .interfaceRecv .. | .liballocAlloc .. | .liballocFree .. | .loadCr3 => True
  | .suspendThread _ tid => tid = s.currenttid
  | _ => False

instance Call.OfThread.decidable (s : Kernel) : ∀ c : Call, Decidable (c.OfThread s)
  | .exitProcess _ | .waitProcess _ | .loadProcess _ | .setbrk _ | .killProcess _ | .exitThread =>
      .isTrue trivial
  | .interfaceCreate .. | .interfaceDelete .. | .interfaceSend .. | .interfaceRecv .. =>
      inferInstanceAs (Decidable (s.currentps = _))
  | .forkThread .. | .interfaceWait .. => inferInstanceAs (Decidable (_ = s.currenttid))
  | .createProcess .. | .createThread .. | .suspendThread .. | .checkSuspended .. | .pickNext
  | .userFault .. | .liballocAlloc .. | .liballocFree .. | .loadCr3 => .isFalse id

instance Call.OfKernel.decidable (s : Kernel) : ∀ c : Call, Decidable (c.OfKernel s)
  | .createProcess .. | .createThread .. | .loadProcess .. | .interfaceCreate .. | .interfaceDelete ..
  | .interfaceSend .. | .interfaceRecv .. | .liballocAlloc .. | .liballocFree .. | .loadCr3 =>
      .isTrue trivial
  | .suspendThread .. => inferInstanceAs (Decidable (_ = s.currenttid))
  | .exitProcess _ | .waitProcess _ | .setbrk _ | .killProcess _ | .exitThread | .forkThread ..
  | .interfaceWait .. | .checkSuspended .. | .pickNext | .userFault .. => .isFalse id

/-- A thread that has left the processor does nothing more, calls are made by running threads, and the
numbers of the exceptions are below 32. -/
def MachineAct.Allowed (m : Machine) : MachineAct → Prop
  | .syscall (.call c) => m.leaving = false ∧ c.OfThread m.kernel ∧ c.ByLiving m.kernel
  | .syscall _ => m.leaving = false
  | .exception _ r _ => m.leaving = false ∧ r.intNo < 32
  | .interrupt _ | .schedule => True
  | .kernel c => m.leaving = false ∧ c.OfKernel m.kernel ∧ c.ByLiving m.kernel

instance MachineAct.Allowed.decidable (m : Machine) : ∀ a : MachineAct, Decidable (a.Allowed m)
  | .syscall (.call _) | .kernel _ => inferInstanceAs (Decidable (_ ∧ _ ∧ _))
  | .syscall (.eret _) | .syscall (.ehndlr _) | .syscall (.process _) =>
      inferInstanceAs (Decidable (_ = _))
  | .exception .. => inferInstanceAs (Decidable (_ ∧ _))
  | .interrupt _ | .schedule => .isTrue trivial

/-- In every state that a run of the machine reaches. -/
def MachineReach : Machine → Prop := Reach MachineStep (fun m a => a.Allowed m) MachineStart

/-! ### The invariant -/

/-- The tables are in order, the current process has not ended while its thread runs, no error is
pending, and the marks say to which processes an error has been delivered. -/
structure MachineInv (m : Machine) : Prop where
  tables : Tables m.kernel
  threads : ThreadsLive m.kernel
  current : m.leaving = false → m.kernel.CurrentLive
  calm : ∀ pid p, m.kernel.processes pid = some p → p.procerr = 0
  marked : ∀ pid p, m.kernel.processes pid = some p → p.state ≠ .exiting →
    (p.procerrUnhandled ≠ 0 ↔ m.delivered pid = true)
  fresh : ∀ pid, m.kernel.lastPid ≤ pid → m.delivered pid = false

variable {m m' : Machine} {s : Kernel}

/-- The part of the invariant that speaks of the marks. -/
theorem MachineInv.marks (h : MachineInv m) (hk : m.kernel.KeepsMarks s) :
    (∀ pid p, s.processes pid = some p → p.procerr = 0) ∧
      (∀ pid p, s.processes pid = some p → p.state ≠ .exiting →
        (p.procerrUnhandled ≠ 0 ↔ m.delivered pid = true)) ∧
      ∀ pid, s.lastPid ≤ pid → m.delivered pid = false := by
  refine ⟨?_, ?_, fun pid hpid => h.fresh pid (Int.le_trans hk.lastPid hpid)⟩
  · intro pid p' hp'
    cases hk.processes pid p' hp' with
    | inl hold =>
        obtain ⟨p, hp, hmarks, -⟩ := hold
        exact hmarks.procerr.trans (h.calm pid p hp)
    | inr hnew => exact hnew.2.procerr
  · intro pid p' hp' hstate
    cases hk.processes pid p' hp' with
    | inl hold =>
        obtain ⟨p, hp, hmarks, hexit⟩ := hold
        rw [hmarks.procerrUnhandled]
        exact h.marked pid p hp fun hx => hstate (hexit hx)
    | inr hnew =>
        rw [hnew.2.procerrUnhandled, h.fresh pid hnew.1]
        decide

/-- A step that keeps the marks. -/
theorem MachineInv.keeps {leaving : Bool} {outstanding : Int → Bool} (h : MachineInv m)
    (hk : m.kernel.KeepsMarks s) (htables : Tables s) (hthreads : ThreadsLive s)
    (hcurrent : leaving = false → s.CurrentLive) :
    MachineInv { m with kernel := s, leaving := leaving, outstanding := outstanding } := by
  obtain ⟨hcalm, hmarked, hfresh⟩ := h.marks hk
  exact ⟨htables, hthreads, hcurrent, hcalm, hmarked, hfresh⟩

theorem MachineStart.inv (h : MachineStart m) : MachineInv m := by
  obtain ⟨hstart, -, hdelivered, -⟩ := h
  have htables := Tables.started hstart
  have hthreads := ThreadsLive.started hstart
  obtain ⟨mem, eflags, idleLoop, h⟩ := hstart
  simp only [schedInit, bind_ok, Prod.exists, Except.ok.injEq] at h
  obtain ⟨pid, s₁, hcreate, tid, s₂, hthread, hk⟩ := h
  have hkeeps := (schedCreateProcess_keepsMarks hcreate).trans (schedCreateThread_ok hthread).2.keepsMarks
  have hps : m.kernel.processes = s₂.processes := by rw [← hk]
  have hcur : m.kernel.currentps = none := by
    have hspawned := (schedCreateThread_ok hthread).2.staysLive
    have hcreated := (schedCreateProcess_ok hcreate).2.staysLive (Tables.boot mem eflags)
    rw [← hk]
    exact hspawned.currentps.trans hcreated.currentps
  have hunmarked : ∀ pid p, m.kernel.processes pid = some p → p.Unmarked := by
    intro pid p hp
    rw [hps] at hp
    cases hkeeps.processes pid p hp with
    | inl hold =>
        obtain ⟨p₀, hp₀, -⟩ := hold
        cases hp₀
    | inr hnew => exact hnew.2
  refine ⟨htables, hthreads, fun _ pid hpid => ?_, fun pid p hp => (hunmarked pid p hp).procerr, ?_, ?_⟩
  · rw [hcur] at hpid
    cases hpid
  · intro pid p hp _
    rw [(hunmarked pid p hp).procerrUnhandled, hdelivered]
    exact ⟨fun hne => absurd rfl hne, fun hc => absurd hc Bool.false_ne_true⟩
  · intro pid _
    rw [hdelivered]

/-! ### Steps -/

/-- The tables and the threads are in order. -/
def Kernel.Sane (s : Kernel) : Prop := Tables s ∧ ThreadsLive s

theorem Kernel.Sane.kmode (h : s.Sane) (kmode : Bool) : Kernel.Sane { s with kmode := kmode } :=
  ⟨⟨h.1.lastPid, h.1.lastTid, h.1.pid, h.1.tid⟩, h.2⟩

/-- A process is replaced by one that the scheduler cannot tell from it. -/
theorem Kernel.Sane.put {pid : Int} {p p' : Process} (h : s.Sane) (hp : s.processes pid = some p)
    (hl : p.Like p') : (s.setProcess pid (some p')).Sane := by
  have hlike : LikeTable s.processes (s.setProcess pid (some p')).processes := .update hp hl
  have hquiet : s.Quiet (s.setProcess pid (some p')) :=
    ⟨s.mem, _, s.intfaces, s.intfacesSize, s.nextIntf, hlike, rfl⟩
  exact ⟨h.1.keeps hquiet.keeps, h.2.keeps ⟨threadsAlive_refl s.threads, .like hlike⟩⟩

theorem Kernel.Sane.exec {s' : Kernel} {c : Call} {r : Int} (h : s.Sane) (hc : c.ByLiving s)
    (hexec : exec s c = .ok (r, s')) : s'.Sane :=
  ⟨h.1.exec hexec, h.2.exec h.1 hc hexec⟩

theorem Call.ByLiving.kmode {c : Call} (h : c.ByLiving s) (kmode : Bool) :
    c.ByLiving { s with kmode := kmode } := by
  refine ⟨?_, h.owner⟩
  have hactor := h.actor
  cases c <;> exact hactor

theorem byLiving_exitProcess (s : Kernel) (exitcode : Int) :
    (Call.exitProcess exitcode).ByLiving s :=
  ⟨fun _ h => (by cases h), fun _ h => (by cases h)⟩

theorem Kernel.updateCurrent_ok {s' : Kernel} {f : Process → Process} (hs : Tables s)
    (h : s.updateCurrent f = .ok s') : ∃ pid p, s.currentps = some pid ∧
      s.processes pid = some p ∧ s' = s.setProcess pid (some (f p)) := by
  simp only [updateCurrent, bind_ok, Kernel.currentProcess_ok, Except.ok.injEq] at h
  obtain ⟨p, ⟨pid, hcur, hp⟩, rfl⟩ := h
  rw [(hs.pid pid p hp).1]
  exact ⟨pid, p, hcur, hp, rfl⟩

/-- Every system call keeps the marks, the tables and the threads. -/
theorem Syscall.run_ok {s' : Kernel} {c : Syscall} {r : Int} (hs : s.Sane)
    (hc : ∀ c', c = .call c' → c'.OfThread s ∧ c'.ByLiving s) (h : c.run s = .ok (r, s')) :
    s.KeepsMarks s' ∧ s'.Sane := by
  cases c with
  | call c' =>
      obtain ⟨hthread, hliving⟩ := hc c' rfl
      have hnot : ∀ eno errorcode cr2, c' ≠ .userFault eno errorcode cr2 := by
        rintro eno errorcode cr2 rfl
        exact hthread
      exact ⟨exec_keepsMarks hs.1 hnot h, hs.exec hliving h⟩
  | eret value =>
      unfold Syscall.run syscallEret at h
      simp only at h
      split_ifs at h with hneg
      · have hexec : exec s (.exitProcess (-value)) = .ok (r, s') := h
        exact ⟨exec_keepsMarks hs.1 (fun _ _ _ hx => (by cases hx)) hexec,
          hs.exec (byLiving_exitProcess s _) hexec⟩
      · obtain rfl := (Prod.mk.inj (Except.ok.inj h)).2
        exact ⟨.same rfl rfl, hs⟩
  | ehndlr handler =>
      unfold Syscall.run syscallEhndlr at h
      simp only at h
      split_ifs at h with hfault
      · obtain rfl := (Prod.mk.inj (Except.ok.inj h)).2
        exact ⟨.same rfl rfl, hs⟩
      · simp only [bind_ok, Except.ok.injEq, Prod.mk.injEq] at h
        obtain ⟨s₁, hupdate, -, rfl⟩ := h
        obtain ⟨pid, p, -, hp, rfl⟩ := Kernel.updateCurrent_ok hs.1 hupdate
        refine ⟨.put rfl hp rfl fun p' hp' => ?_, hs.put hp ⟨rfl, rfl, rfl, rfl, rfl, Iff.rfl⟩⟩
        obtain rfl := Option.some.inj hp'
        exact ⟨⟨rfl, rfl⟩, id⟩
  | process use =>
      simp only [Syscall.run, syscallProcess, bind_ok, Kernel.currentProcess_ok, Except.ok.injEq,
        Prod.mk.injEq] at h
      obtain ⟨p, ⟨pid, -, hp⟩, -, rfl⟩ := h
      rw [(hs.1.pid pid p hp).1]
      refine ⟨.put rfl hp rfl fun p' hp' => ?_, hs.put hp (use.like p)⟩
      obtain rfl := Option.some.inj hp'
      exact ⟨use.marks p, fun hx => (use.like p).exiting.mpr hx⟩

theorem syscallHandler_ok {s' : Kernel} {c : Syscall} {r : Int} (hs : s.Sane)
    (hc : ∀ c', c = .call c' → c'.OfThread s ∧ c'.ByLiving s)
    (h : syscallHandler s c = .ok (r, s')) : s.KeepsMarks s' ∧ s'.Sane := by
  simp only [syscallHandler, bind_ok, Prod.exists, Except.ok.injEq, Prod.mk.injEq] at h
  obtain ⟨r', s₁, hrun, -, rfl⟩ := h
  have hkmode : ∀ c', c = .call c' → c'.OfThread { s with kmode := false } ∧
      c'.ByLiving { s with kmode := false } := by
    intro c' hc'
    obtain ⟨hthread, hliving⟩ := hc c' hc'
    refine ⟨?_, hliving.kmode false⟩
    cases c' <;> exact hthread
  obtain ⟨hmarks, hsane⟩ := Syscall.run_ok (hs.kmode false) hkmode hrun
  exact ⟨⟨hmarks.lastPid, hmarks.processes⟩, hsane.kmode true⟩

/-! ### Exceptions -/

theorem exceptionReport_ok {s' : Kernel} {r : Regs} {cr2 : ℕ} (hs : Tables s)
    (h : exceptionReport s r cr2 = .ok s') : (∃ mem, s' = { s with mem := mem }) ∨
      ∃ pid p, s.currentps = some pid ∧ s.processes pid = some p ∧ (∃ t,
        s.threads s.currenttid = some t ∧ t.privilegeLevel ≠ 0 ∧
          ¬(r.intNo = 0x0E ∧ r.errCode % 2 = 0 ∧ inStackRegion t.stackpdi cr2 = true)) ∧
        r.intNo ≠ 1 ∧ s' = s.setProcess pid (some { p with procerr := (r.intNo + 1) % 0x100 }) := by
  unfold exceptionReport at h
  by_cases hidle : s.currenttid = -1
  · rw [if_pos hidle] at h
    obtain rfl := Except.ok.inj h
    exact .inl ⟨s.mem, rfl⟩
  · rw [if_neg hidle] at h
    obtain ⟨t, ht, h⟩ := bind_ok.mp h
    split_ifs at h with huser hcpu
    · simp only [schedUserFault, ht, ok_bind] at h
      split_ifs at h with hstack hdebug
      · simp only [bind_ok, Prod.exists, Except.ok.injEq] at h
        obtain ⟨newpage, m₁, -, rval, m₂, -, rfl⟩ := h
        exact .inl ⟨m₂, rfl⟩
      · obtain rfl := Except.ok.inj h
        exact .inl ⟨s.mem, rfl⟩
      · simp only [bind_ok, Kernel.currentProcess_ok, Except.ok.injEq] at h
        obtain ⟨p, ⟨pid, hcur, hp⟩, rfl⟩ := h
        have hpid := (hs.pid pid p hp).1
        exact .inr ⟨pid, p, hcur, hp, ⟨t, Kernel.threadAt_ok.mp ht, huser, hstack⟩, hdebug,
          congrArg (s.setProcess · _) hpid⟩
    · obtain rfl := Except.ok.inj h
      exact .inl ⟨s.mem, rfl⟩

theorem Kernel.Sane.mem (h : s.Sane) (mem : Mem) : Kernel.Sane { s with mem := mem } :=
  ⟨⟨h.1.lastPid, h.1.lastTid, h.1.pid, h.1.tid⟩, h.2⟩

theorem Kernel.Sane.ended {pid : Int} {p : Process} (h : s.Sane) (hp : s.processes pid = some p)
    (exitcode : Int) (mem : Mem) : (s.endProcess pid p exitcode mem).Sane :=
  ⟨h.1.keeps (Kernel.endProcess_keeps hp exitcode mem), h.2.ended hp exitcode mem⟩

/-- A process that is killed for an error is left exiting and without the error, as far as the code
gets. -/
theorem exitFaulted_ok {s' : Kernel} {procerr : ℕ} {f : Process → Process} {e : ExceptionEnd}
    (hs : s.Sane) (hf : ∀ p : Process, p.Like (f p)) (hcalm : ∀ p, (f p).procerr = 0)
    (h : exitFaulted s procerr f = .ok (e, s')) : e = .yield ∧ s'.Sane ∧
      ∃ pid p q, s.currentps = some pid ∧ s.processes pid = some p ∧ p.waitingThreads ≠ 0 ∧
        s'.lastPid = s.lastPid ∧ s'.processes = Function.update s.processes pid (some q) ∧
        q.state = .exiting ∧ q.procerr = 0 := by
  simp only [exitFaulted, bind_ok, Prod.exists, Except.ok.injEq, Prod.mk.injEq] at h
  obtain ⟨rval, s₁, hexit, s₂, hupdate, rfl, rfl⟩ := h
  obtain ⟨pid, p, mem, hcur, hp, rfl⟩ := schedExitProcess_current hs.1 hexit
  have hended := hs.ended hp procerr mem
  obtain ⟨pid', q, hcur', hq, rfl⟩ := Kernel.updateCurrent_ok hended.1 hupdate
  obtain rfl : pid = pid' := Option.some.inj (hcur.symm.trans hcur')
  have hreaped : (p.markExiting procerr).reaped = some q := by
    simpa only [Kernel.endProcess, Function.update_self] using hq
  have hwaited : p.waitingThreads ≠ 0 := by
    intro h0
    have hnone := Process.reaped_eq_none.mpr (show (p.markExiting procerr).waitingThreads = 0 from h0)
    rw [hnone] at hreaped
    cases hreaped
  obtain ⟨-, hstate⟩ := Process.reaped_marks hreaped
  refine ⟨rfl, hended.put hq (hf q), pid, p, f q, hcur, hp, hwaited, rfl, ?_, ?_, hcalm q⟩
  · simp only [Kernel.setProcess_processes, Kernel.endProcess, Function.update_idem]
  · exact (hf q).exiting.mpr hstate

/-- What an exception does to the tables and to the processes. -/
inductive ExceptionEffect (s : Kernel) (s' : Kernel) : ExceptionEnd → Prop
  | resume : s.KeepsMarks s' → s.StaysLive s' → ExceptionEffect s s' .resume
  | deliver (pid : Int) (p : Process) (r : Regs) (um : UserMem) : s.currentps = some pid →
      s.processes pid = some p →
      s' = s.setProcess pid (some { p with procerrUnhandled := 1, procerr := 0 }) →
      ExceptionEffect s s' (.deliver r um)
  | yield (pid : Int) (p q : Process) : s.currentps = some pid → s.processes pid = some p →
      s'.lastPid = s.lastPid → s'.processes = Function.update s.processes pid (some q) →
      q.state = .exiting → q.procerr = 0 → ExceptionEffect s s' .yield

theorem deliverError_ok {s' : Kernel} {um : UserMem} {r : Regs} {e : ExceptionEnd} {pid : Int}
    {p : Process} {n : ℕ} (hs : s.Sane) (hcur : s.currentps = some pid) (hp : s.processes pid = some p)
    (h : deliverError (s.setProcess pid (some { p with procerr := n })) um r { p with procerr := n } =
      .ok (e, s')) : s'.Sane ∧ ExceptionEffect s s' e := by
  have hmarked : (s.setProcess pid (some { p with procerr := n })).Sane :=
    hs.put hp ⟨rfl, rfl, rfl, rfl, rfl, Iff.rfl⟩
  have hkill : ∀ f : Process → Process, (∀ p : Process, p.Like (f p)) → (∀ p, (f p).procerr = 0) →
      exitFaulted (s.setProcess pid (some { p with procerr := n })) n f = .ok (e, s') →
      s'.Sane ∧ ExceptionEffect s s' e := by
    intro f hf hcalm hexit
    obtain ⟨rfl, hsane, pid', p', q, hcur', -, -, hlast, hps, hstate, hproc⟩ :=
      exitFaulted_ok hmarked hf hcalm hexit
    obtain rfl : pid = pid' := Option.some.inj (hcur.symm.trans hcur')
    rw [Kernel.setProcess_processes, Function.update_idem] at hps
    exact ⟨hsane, .yield pid p q hcur hp hlast hps hstate hproc⟩
  unfold deliverError at h
  simp only at h
  split_ifs at h with hdouble hhandler hesp hbad
  · exact hkill (fun p => { p with procerrUnhandled := 0, procerr := 0 })
      (fun p => ⟨rfl, rfl, rfl, rfl, rfl, Iff.rfl⟩) (fun _ => rfl) h
  · exact hkill (fun p => { p with procerr := 0 })
      (fun p => ⟨rfl, rfl, rfl, rfl, rfl, Iff.rfl⟩) (fun _ => rfl) h
  · exact hkill (fun p => { p with procerr := 0 })
      (fun p => ⟨rfl, rfl, rfl, rfl, rfl, Iff.rfl⟩) (fun _ => rfl) h
  · simp only [bind_ok, Except.ok.injEq, Prod.mk.injEq] at h
    obtain ⟨s₁, hupdate, rfl, rfl⟩ := h
    obtain ⟨pid', p', hcur', hp', rfl⟩ := Kernel.updateCurrent_ok hmarked.1 hupdate
    obtain rfl : pid = pid' := Option.some.inj (hcur.symm.trans hcur')
    rw [Kernel.setProcess_processes, Function.update_self] at hp'
    obtain rfl := Option.some.inj hp'
    refine ⟨hmarked.put (Function.update_self ..) ⟨rfl, rfl, rfl, rfl, rfl, Iff.rfl⟩,
      .deliver pid p _ _ hcur hp ?_⟩
    simp only [Kernel.setProcess, Function.update_idem]
  · exact hkill (fun p => { p with procerr := 0 })
      (fun p => ⟨rfl, rfl, rfl, rfl, rfl, Iff.rfl⟩) (fun _ => rfl) h

/-- An exception while no error is pending. -/
theorem exceptionHandle_ok {s' : Kernel} {um : UserMem} {r : Regs} {cr2 : ℕ} {e : ExceptionEnd}
    (hs : s.Sane) (hcalm : ∀ pid p, s.processes pid = some p → p.procerr = 0)
    (h : exceptionHandle s um r cr2 = .ok (e, s')) : s'.Sane ∧ ExceptionEffect s s' e := by
  unfold exceptionHandle at h
  obtain ⟨s₁, hreport, h⟩ := bind_ok.mp h
  cases exceptionReport_ok hs.1 hreport with
  | inl hmem =>
      obtain ⟨mem, rfl⟩ := hmem
      have hsane := hs.mem mem
      by_cases hnone : s.currentps = none
      · rw [if_pos hnone] at h
        obtain ⟨rfl, rfl⟩ := Prod.mk.inj (Except.ok.inj h)
        exact ⟨hsane, .resume (.same rfl rfl) (.same rfl rfl)⟩
      · rw [if_neg hnone] at h
        obtain ⟨p, hp, h⟩ := bind_ok.mp h
        obtain ⟨pid, -, hproc⟩ := Kernel.currentProcess_ok.mp hp
        rw [if_pos (hcalm pid p hproc)] at h
        obtain ⟨rfl, rfl⟩ := Prod.mk.inj (Except.ok.inj h)
        exact ⟨hsane, .resume (.same rfl rfl) (.same rfl rfl)⟩
  | inr hmarked =>
      obtain ⟨pid, p, hcur, hp, -, -, rfl⟩ := hmarked
      have hself : (s.setProcess pid (some { p with procerr := (r.intNo + 1) % 0x100 })).currentProcess =
          .ok { p with procerr := (r.intNo + 1) % 0x100 } :=
        Kernel.currentProcess_ok.mpr ⟨pid, hcur, Function.update_self ..⟩
      have hsome : (s.setProcess pid (some { p with procerr := (r.intNo + 1) % 0x100 })).currentps ≠
          none := by
        show s.currentps ≠ none
        rw [hcur]
        exact Option.some_ne_none pid
      rw [if_neg hsome, hself, ok_bind] at h
      split_ifs at h with h0 huser
      · obtain ⟨rfl, rfl⟩ := Prod.mk.inj (Except.ok.inj h)
        refine ⟨hs.put hp ⟨rfl, rfl, rfl, rfl, rfl, Iff.rfl⟩, .resume (.put rfl hp rfl ?_)
          (.put rfl hp rfl rfl)⟩
        intro p' hp'
        obtain rfl := Option.some.inj hp'
        exact ⟨⟨h0.trans (hcalm pid p hp).symm, rfl⟩, id⟩
      · exact deliverError_ok hs hcur hp h

theorem loadThreadCr3_ok {s' : Kernel} (h : loadThreadCr3 s = .ok s') :
    ∃ mem, s' = { s with mem := mem } := by
  simp only [loadThreadCr3, bind_ok, Except.ok.injEq] at h
  obtain ⟨t, -, rfl⟩ := h
  exact ⟨_, rfl⟩

theorem byLiving_pickNext (s : Kernel) : Call.pickNext.ByLiving s :=
  ⟨fun _ h => (by cases h), fun _ h => (by cases h)⟩

/-- A delivery marks the current process. -/
theorem MachineInv.delivered {pid : Int} {p : Process} (h : MachineInv m)
    (hcur : m.kernel.currentps = some pid) (hp : m.kernel.processes pid = some p)
    (hsane : (m.kernel.setProcess pid
      (some { p with procerrUnhandled := 1, procerr := 0 })).Sane) : MachineInv { m with
        kernel := m.kernel.setProcess pid (some { p with procerrUnhandled := 1, procerr := 0 })
        delivered := m.kernel.noteCurrent true m.delivered
        outstanding := m.kernel.noteCurrent true m.outstanding } := by
  have hnote : m.kernel.noteCurrent true m.delivered = Function.update m.delivered pid true := by
    unfold Kernel.noteCurrent
    rw [hcur]
  rw [hnote]
  refine ⟨hsane.1, hsane.2, fun hrun => (h.current hrun).stays (.put rfl hp rfl rfl), ?_, ?_, ?_⟩
  · intro i q hq
    simp only [Kernel.setProcess_processes] at hq
    by_cases hi : i = pid
    · rw [hi, Function.update_self] at hq
      obtain rfl := Option.some.inj hq
      rfl
    · rw [Function.update_of_ne hi] at hq
      exact h.calm i q hq
  · intro i q hq hstate
    simp only [Kernel.setProcess_processes] at hq
    by_cases hi : i = pid
    · rw [hi, Function.update_self] at hq
      obtain rfl := Option.some.inj hq
      rw [hi]
      simp only [Function.update_self]
      exact ⟨fun _ => trivial, fun _ => Nat.one_ne_zero⟩
    · rw [Function.update_of_ne hi] at hq
      simp only [Function.update_of_ne hi]
      exact h.marked i q hq hstate
  · intro i hi
    have hrange := (h.tables.pid pid p hp).2.2
    have hlast : m.kernel.lastPid ≤ i := hi
    simp only [Function.update_of_ne (show i ≠ pid by omega)]
    exact h.fresh i hi

/-- An exception that ends the current process leaves it without an error. -/
theorem MachineInv.killed {pid : Int} {q : Process} (h : MachineInv m) (hsane : s.Sane)
    (hlast : s.lastPid = m.kernel.lastPid)
    (hps : s.processes = Function.update m.kernel.processes pid (some q)) (hstate : q.state = .exiting)
    (hcalm : q.procerr = 0) : MachineInv { m with kernel := s, leaving := true } := by
  refine ⟨hsane.1, hsane.2, fun hrun => (by cases hrun), ?_, ?_, ?_⟩
  · intro i p hp
    simp only [hps] at hp
    by_cases hi : i = pid
    · rw [hi, Function.update_self] at hp
      obtain rfl := Option.some.inj hp
      exact hcalm
    · rw [Function.update_of_ne hi] at hp
      exact h.calm i p hp
  · intro i p hp hlive
    simp only [hps] at hp
    by_cases hi : i = pid
    · rw [hi, Function.update_self] at hp
      obtain rfl := Option.some.inj hp
      exact absurd hstate hlive
    · rw [Function.update_of_ne hi] at hp
      exact h.marked i p hp hlive
  · intro i hi
    simp only [hlast] at hi
    exact h.fresh i hi

theorem MachineInv.step {a : MachineAct} (h : MachineInv m) (ha : a.Allowed m)
    (hstep : MachineStep m a m') : MachineInv m' := by
  have hsane : m.kernel.Sane := ⟨h.tables, h.threads⟩
  cases a with
  | syscall c =>
      obtain ⟨⟨r, s⟩, hcall, hm⟩ := bind_ok.mp hstep
      obtain rfl := Except.ok.inj hm
      have hc : ∀ c', c = .call c' → c'.OfThread m.kernel ∧ c'.ByLiving m.kernel := by
        rintro c' rfl
        exact ha.2
      obtain ⟨hmarks, hsane'⟩ := syscallHandler_ok hsane hc hcall
      exact h.keeps hmarks hsane'.1 hsane'.2 fun hrun => (by cases hrun)
  | exception um r cr2 =>
      obtain ⟨⟨e, s⟩, hexc, hm⟩ := bind_ok.mp hstep
      obtain ⟨hsane', heff⟩ := exceptionHandle_ok hsane h.calm hexc
      cases heff with
      | resume hmarks hstays =>
          obtain rfl := Except.ok.inj hm
          exact h.keeps hmarks hsane'.1 hsane'.2 fun hrun => (h.current hrun).stays hstays
      | deliver pid p r' um' hcur hp hs =>
          obtain rfl := Except.ok.inj hm
          subst hs
          exact h.delivered hcur hp hsane'
      | yield pid p q hcur hp hlast hps hstate hcalm =>
          obtain rfl := Except.ok.inj hm
          exact h.killed hsane' hlast hps hstate hcalm
  | interrupt irq =>
      obtain rfl := Except.ok.inj hstep
      have hexec : exec m.kernel (.checkSuspended irq) =
          .ok (0, schedCheckSuspendedThreads m.kernel irq) := rfl
      have hsane' := hsane.exec ⟨fun _ hx => (by cases hx), fun _ hx => (by cases hx)⟩ hexec
      exact h.keeps (.same rfl rfl) hsane'.1 hsane'.2 fun hrun => (by cases hrun)
  | schedule =>
      obtain ⟨s, hpick, hm⟩ := bind_ok.mp hstep
      obtain ⟨s₁, hload, hm⟩ := bind_ok.mp hm
      obtain ⟨mem, rfl⟩ := loadThreadCr3_ok hload
      obtain rfl := Except.ok.inj hm
      have hexec : exec m.kernel .pickNext = .ok (0, s) := by
        show noResult (schedPickNext m.kernel) = _
        rw [hpick]
        rfl
      have hsane' := (hsane.exec (byLiving_pickNext _) hexec).mem mem
      have hmarks := schedPickNext_keepsMarks hpick
      have hcurrent := schedPickNext_currentLive h.threads hpick
      exact h.keeps ⟨hmarks.lastPid, hmarks.processes⟩ hsane'.1 hsane'.2 fun _ =>
        hcurrent.congr rfl rfl
  | kernel c =>
      obtain ⟨⟨r, s⟩, hcall, hm⟩ := bind_ok.mp hstep
      obtain rfl := Except.ok.inj hm
      obtain ⟨hrun, hkernel, hliving⟩ := ha
      have hnot : ∀ eno errorcode cr2, c ≠ .userFault eno errorcode cr2 := by
        rintro eno errorcode cr2 rfl
        exact hkernel
      have hharmless : c.harmless = true := by
        cases c with
        | exitProcess | killProcess | pickNext => exact hkernel.elim
        | _ => rfl
      have hsane' := hsane.exec hliving hcall
      exact h.keeps (exec_keepsMarks h.tables hnot hcall) hsane'.1 hsane'.2 fun _ =>
        (h.current hrun).stays (exec_staysLive h.tables hharmless hcall)

theorem MachineReach.inv (h : MachineReach m) : MachineInv m := by
  refine Reach.invariant (I := MachineInv) (fun m hm => hm.inv) ?_ h
  intro m a m' hinv ha hstep
  exact hinv.step ha hstep

/-! ### Delivery -/

/-- The running thread belongs to a user program, and the kernel has no answer of its own to the
exception: it is no page of the stack that has not been allocated yet, and no debugger interrupt. -/
structure Kernel.UserFault (s : Kernel) (r : Regs) (cr2 : ℕ) : Prop where
  thread : ∃ t, s.threads s.currenttid = some t ∧ t.privilegeLevel ≠ 0 ∧
    ¬(r.intNo = 0x0E ∧ r.errCode % 2 = 0 ∧ inStackRegion t.stackpdi cr2 = true)
  number : r.intNo < 32
  debug : r.intNo ≠ 1
  mode : r.cs % 4 ≠ 0

/-- The frame of the handler fits on the stack of the program. -/
def UserMem.HandlerStack (um : UserMem) (r : Regs) : Prop :=
  8 ≤ r.useresp ∧ um.Stores (r.useresp - 8) 8

/-- The thread goes on in the handler, and finds where it was interrupted and the error code on its
stack. -/
def Kernel.Delivers (s : Kernel) (um : UserMem) (r : Regs) (cr2 handler : ℕ) : Prop :=
  ∃ um' s', exceptionHandle s um r cr2 =
      .ok (.deliver { r with useresp := r.useresp - 8, eip := handler } um', s') ∧
    um'.byte = overlay (r.useresp - 8) (sizeBytes r.eip ++ sizeBytes (r.intNo + 1)) um.byte

/-- The state in which the current process has the error. -/
def Kernel.withError (s : Kernel) (pid : Int) (p : Process) (r : Regs) : Kernel :=
  s.setProcess pid (some { p with procerr := r.intNo + 1 })

theorem Kernel.UserFault.currentProcess {r : Regs} {pid : Int} {p : Process}
    (hcur : s.currentps = some pid) :
    (s.withError pid p r).currentProcess = .ok { p with procerr := r.intNo + 1 } :=
  Kernel.currentProcess_ok.mpr ⟨pid, hcur, Function.update_self ..⟩

/-- A fault that the kernel cannot resolve is an error of the current process. -/
theorem Kernel.UserFault.handle {um : UserMem} {r : Regs} {cr2 : ℕ} {pid : Int} {p : Process}
    (h : s.UserFault r cr2) (hs : Tables s) (hcur : s.currentps = some pid)
    (hp : s.processes pid = some p) : exceptionHandle s um r cr2 =
      deliverError (s.withError pid p r) um r { p with procerr := r.intNo + 1 } := by
  obtain ⟨t, ht, huser, hstack⟩ := h.thread
  have hnumber := h.number
  have hrun : s.currenttid ≠ -1 := by
    have := (hs.tid s.currenttid t ht).1.1
    omega
  have hmod : (r.intNo + 1) % 0x100 = r.intNo + 1 := by omega
  have hset : s.setProcess p.pid (some { p with procerr := r.intNo + 1 }) = s.withError pid p r :=
    congrArg (s.setProcess · _) (hs.pid pid p hp).1
  have hreport : exceptionReport s r cr2 = .ok (s.withError pid p r) := by
    unfold exceptionReport schedUserFault
    rw [if_neg hrun, Kernel.threadAt_ok.mpr ht, ok_bind, if_pos huser, ok_bind, if_neg hstack,
      if_neg h.debug, Kernel.currentProcess_ok.mpr ⟨pid, hcur, hp⟩, ok_bind, hmod, hset]
  have hsome : (s.withError pid p r).currentps ≠ none := by
    show s.currentps ≠ none
    rw [hcur]
    exact Option.some_ne_none pid
  unfold exceptionHandle
  rw [hreport, ok_bind, if_neg hsome, Kernel.UserFault.currentProcess hcur, ok_bind,
    if_neg (Nat.succ_ne_zero _), if_pos h.mode]

/-- The frame reaches the stack. -/
theorem UserMem.HandlerStack.frame {um : UserMem} {r : Regs} (h : um.HandlerStack r) (n : ℕ) :
    (safecpyToUser um (r.useresp - 8) (sizeBytes r.eip ++ sizeBytes n)).1 ≠ -1 :=
  (safecpyToUser_stores_iff um (r.useresp - 8)
    (show sizeBytes r.eip ++ sizeBytes n ≠ [] from List.cons_ne_nil _ _)).mpr h.2

/-- A first fault is delivered. -/
theorem Kernel.UserFault.delivers {um : UserMem} {r : Regs} {cr2 : ℕ} {pid : Int} {p : Process}
    (h : s.UserFault r cr2) (hs : Tables s) (hcur : s.currentps = some pid)
    (hp : s.processes pid = some p) (hhandler : p.procerrhandler ≠ 0) (hstack : um.HandlerStack r)
    (hfirst : p.procerrUnhandled = 0) : s.Delivers um r cr2 p.procerrhandler := by
  have hframe := hstack.frame (r.intNo + 1)
  unfold Kernel.Delivers
  rw [h.handle hs hcur hp]
  unfold deliverError
  rw [if_neg (not_not.mpr hfirst), if_pos hhandler, if_neg (Nat.not_lt.mpr hstack.1)]
  cases hcopy : safecpyToUser um (r.useresp - 8) (sizeBytes r.eip ++ sizeBytes (r.intNo + 1)) with
  | mk rval um' =>
      rw [hcopy] at hframe
      simp only
      rw [if_neg hframe]
      unfold Kernel.updateCurrent
      rw [Kernel.UserFault.currentProcess hcur, ok_bind, ok_bind]
      exact ⟨um', _, rfl, safecpyToUser_ok hcopy hframe⟩

/-- Once an error has been delivered, the next fault ends the process. -/
theorem Kernel.UserFault.kills {um : UserMem} {r : Regs} {cr2 : ℕ} {pid : Int} {p : Process}
    {e : ExceptionEnd} {s' : Kernel} (h : s.UserFault r cr2) (hs : s.Sane)
    (hcur : s.currentps = some pid) (hp : s.processes pid = some p) (hmarked : p.procerrUnhandled ≠ 0)
    (hexc : exceptionHandle s um r cr2 = .ok (e, s')) :
    e = .yield ∧ ∀ p', s'.processes pid = some p' → p'.state = .exiting := by
  rw [h.handle hs.1 hcur hp] at hexc
  unfold deliverError at hexc
  rw [if_pos hmarked] at hexc
  have hsane : (s.withError pid p r).Sane := hs.put hp ⟨rfl, rfl, rfl, rfl, rfl, Iff.rfl⟩
  obtain ⟨rfl, -, pid', p', q, hcur', -, -, -, hps, hstate, -⟩ :=
    exitFaulted_ok hsane (f := fun p => { p with procerrUnhandled := 0, procerr := 0 })
      (fun p => ⟨rfl, rfl, rfl, rfl, rfl, Iff.rfl⟩) (fun _ => rfl) hexc
  obtain rfl : pid = pid' := Option.some.inj (hcur.symm.trans hcur')
  refine ⟨rfl, fun p' hp' => ?_⟩
  rw [hps, Function.update_self] at hp'
  obtain rfl := Option.some.inj hp'
  exact hstate

/-- **The fault protocol.**  In every reachable state, a fault of a process with a handler and a
writable stack follows the protocol, that is, it is delivered if no invocation of the handler is
outstanding, exactly if one is outstanding or no fault has been delivered to the process before.  After
the first delivery every fault ends the process. -/
theorem fault_protocol_iff (h : MachineReach m) {um : UserMem} {r : Regs} {cr2 : ℕ} {pid : Int}
    {p : Process} (hcur : m.kernel.currentps = some pid) (hp : m.kernel.processes pid = some p)
    (hrun : m.leaving = false) (hfault : m.kernel.UserFault r cr2) (hhandler : p.procerrhandler ≠ 0)
    (hstack : um.HandlerStack r) :
    ((m.outstanding pid = false → m.kernel.Delivers um r cr2 p.procerrhandler) ↔
      m.outstanding pid = true ∨ m.delivered pid = false) ∧
      (m.delivered pid = true → ∀ e s', exceptionHandle m.kernel um r cr2 = .ok (e, s') →
        e = .yield ∧ ∀ p', s'.processes pid = some p' → p'.state = .exiting) := by
  have hinv := h.inv
  have hsane : m.kernel.Sane := ⟨hinv.tables, hinv.threads⟩
  obtain ⟨p', hp', hlive⟩ := hinv.current hrun pid hcur
  obtain rfl : p = p' := Option.some.inj (hp.symm.trans hp')
  have hmarked := hinv.marked pid p hp hlive
  refine ⟨⟨fun hprotocol => ?_, fun hcond hout => ?_⟩, fun hdelivered e s' hexc => ?_⟩
  · by_contra hno
    obtain ⟨hout, hdelivered⟩ := not_or.mp hno
    obtain ⟨um', s', hexc, -⟩ := hprotocol (Bool.not_eq_true _ ▸ hout)
    have hbefore : p.procerrUnhandled ≠ 0 := hmarked.mpr (Bool.not_eq_false _ ▸ hdelivered)
    exact absurd (hfault.kills hsane hcur hp hbefore hexc).1 (fun heq => (by cases heq))
  · cases hcond with
    | inl hpending => exact absurd (hout.symm.trans hpending) Bool.false_ne_true
    | inr hfirst =>
        apply hfault.delivers hinv.tables hcur hp hhandler hstack
        by_contra hne
        exact absurd (hfirst.symm.trans (hmarked.mp hne)) Bool.false_ne_true
  · exact hfault.kills hsane hcur hp (hmarked.mpr hdelivered) hexc

/-! ### Two faults -/

/-- A division by zero at `0x400010`. -/
def divideRegs : Regs :=
  { gs := 0x23, fs := 0x23, es := 0x23, ds := 0x23, edi := 0, esi := 0, ebp := 0, esp := 0, ebx := 0,
    edx := 0, ecx := 0, eax := 0, intNo := 0, errCode := 0, eip := 0x400010, cs := 0x1B, eflags := 0x202,
    useresp := 0xBFFFF000, ss := 0x23 }

/-- A program is loaded and registers a handler. -/
def handlerRun : List MachineAct :=
  [.kernel (.loadProcess ⟨sampleImage [0, 0, 0x40, 0], [], 3, [], [], true⟩), .schedule, .interrupt 0,
    .schedule, .syscall (.ehndlr 0x400020), .schedule]

/-- Its thread runs, no invocation of the handler is outstanding, and the next fault can be
delivered. -/
def Machine.HandlerReady (m : Machine) (delivered : Bool) : Prop :=
  m.leaving = false ∧ m.kernel.currentps = some 1 ∧ m.outstanding 1 = false ∧
    m.delivered 1 = delivered ∧ (∃ p ∈ m.kernel.processes 1, p.procerrhandler = 0x400020) ∧
    ∃ t ∈ m.kernel.threads m.kernel.currenttid, t.privilegeLevel ≠ 0

instance (m : Machine) (delivered : Bool) : Decidable (m.HandlerReady delivered) :=
  inferInstanceAs (Decidable (_ ∧ _))

theorem Machine.HandlerReady.fault {delivered : Bool} (h : m.HandlerReady delivered) :
    m.kernel.UserFault divideRegs 0 := by
  obtain ⟨t, ht, huser⟩ := h.2.2.2.2.2
  exact ⟨⟨t, ht, huser, fun hpage => absurd hpage.1 (by decide)⟩, by decide, by decide, by decide⟩

theorem divideRegs_stack : flatMemory.HandlerStack divideRegs :=
  ⟨by decide, by decide, fun _ _ => rfl⟩

theorem machine_reach {P : Machine → Prop} {as : List MachineAct}
    (h : BootRuns (fun s => ⟨s, false, fun _ => false, fun _ => false⟩) Machine.exec
      (fun m a => a.Allowed m) P as) : ∃ m, MachineReach m ∧ P m :=
  h.reach (fun _ _ _ hstep => hstep) fun _ hs => ⟨hs, rfl, rfl, rfl⟩

/-- The first fault of the program is delivered. -/
theorem fault_protocol_first : ∃ m : Machine, m.HandlerReady false ∧
    m.kernel.Delivers flatMemory divideRegs 0 0x400020 := by
  have hrun : BootRuns (fun s => ⟨s, false, fun _ => false, fun _ => false⟩) Machine.exec
      (fun m a => a.Allowed m) (fun m => m.HandlerReady false) handlerRun := by
    decide +kernel
  obtain ⟨m, hm, hready⟩ := machine_reach hrun
  obtain ⟨hleaving, hcur, hout, hfirst, ⟨p, hp, hhandler⟩, -⟩ := id hready
  have hprotocol := fault_protocol_iff hm hcur hp hleaving hready.fault
    (by rw [hhandler]; decide) divideRegs_stack
  rw [hhandler] at hprotocol
  exact ⟨m, hready, hprotocol.1.mpr (.inr hfirst) hout⟩

/-- After the handler has returned, the second fault is not. -/
theorem fault_protocol_second : ∃ m : Machine, MachineReach m ∧ m.HandlerReady true ∧
    m.kernel.UserFault divideRegs 0 ∧ flatMemory.HandlerStack divideRegs ∧
      ¬m.kernel.Delivers flatMemory divideRegs 0 0x400020 := by
  have hrun : BootRuns (fun s => ⟨s, false, fun _ => false, fun _ => false⟩) Machine.exec
      (fun m a => a.Allowed m) (fun m => m.HandlerReady true ∧
        ¬OkAnd (exceptionHandle m.kernel flatMemory divideRegs 0) fun x => x.1.delivers = true)
      (handlerRun ++ [.exception flatMemory divideRegs 0, .syscall (.eret 0), .schedule]) := by
    decide +kernel
  obtain ⟨m, hm, hready, hno⟩ := machine_reach hrun
  refine ⟨m, hm, hready, hready.fault, divideRegs_stack, ?_⟩
  rintro ⟨um', s', hexc, -⟩
  apply hno
  rw [hexc]
  exact rfl

/-! ### The process after its end -/

/-- The exception ends the current process although no thread waits for it: the handler has not
returned or there is none, or the stack has no room for the frame. -/
def MachineAct.EndsUnwaited (m : Machine) : MachineAct → Prop
  | .exception um r cr2 => m.kernel.UserFault r cr2 ∧ ∃ pid p, m.kernel.currentps = some pid ∧
      m.kernel.processes pid = some p ∧ p.waitingThreads = 0 ∧
        (p.procerrUnhandled ≠ 0 ∨ p.procerrhandler = 0 ∨ ¬um.HandlerStack r)
  | _ => False

theorem Kernel.updateCurrent_freed {f : Process → Process} (h : s.CurrentLive) :
    Avoids Freed (s.updateCurrent f) := .bind h.freed fun _ _ => .ok _

theorem Kernel.CurrentLive.withError {pid : Int} {p : Process} (h : s.CurrentLive)
    (hp : s.processes pid = some p) (r : Regs) : (s.withError pid p r).CurrentLive :=
  h.stays (.put rfl hp rfl rfl)

/-- What `sched_exit_process` leaves of the current process is there as long as a thread waits. -/
theorem exitFaulted_freed {procerr : ℕ} {f : Process → Process} {pid : Int} {p : Process}
    (hs : Tables s) (h : s.CurrentLive) (hcur : s.currentps = some pid)
    (hp : s.processes pid = some p) (hwaited : p.waitingThreads ≠ 0) :
    Avoids Freed (exitFaulted s procerr f) := by
  refine .bind (schedExitProcess_freed h) ?_
  rintro ⟨rval, s₁⟩ hexit
  obtain ⟨pid', p', mem, hcur', hp', rfl⟩ := schedExitProcess_current hs hexit
  obtain rfl : pid = pid' := Option.some.inj (hcur.symm.trans hcur')
  obtain rfl : p = p' := Option.some.inj (hp.symm.trans hp')
  obtain ⟨q, hq⟩ := Option.ne_none_iff_exists'.mp
    (mt Process.reaped_eq_none.mp (show (p.markExiting procerr).waitingThreads ≠ 0 from hwaited))
  have hself : (s.endProcess pid p procerr mem).currentProcess = .ok q := by
    refine Kernel.currentProcess_ok.mpr ⟨pid, hcur, ?_⟩
    simp only [Kernel.endProcess, Function.update_self]
    exact hq
  refine .bind ?_ fun _ _ => .ok _
  unfold Kernel.updateCurrent
  rw [hself, ok_bind]
  exact .ok _

/-- A process for which no thread waits is freed, and then stored to. -/
theorem exitFaulted_unwaited {procerr : ℕ} {f : Process → Process} {pid : Int} {p : Process}
    {x : Int × Kernel} (hs : Tables s) (hcur : s.currentps = some pid)
    (hp : s.processes pid = some p) (hunwaited : p.waitingThreads = 0)
    (hexit : schedExitProcess s procerr = .ok x) :
    exitFaulted s procerr f = .error .useAfterFree := by
  obtain ⟨pid', p', mem, hcur', hp', hx⟩ := schedExitProcess_current (r := x.1) hs hexit
  obtain rfl : pid = pid' := Option.some.inj (hcur.symm.trans hcur')
  obtain rfl : p = p' := Option.some.inj (hp.symm.trans hp')
  have hgone : x.2.processes pid = none := by
    rw [hx]
    simp only [Kernel.endProcess, Function.update_self]
    exact Process.reaped_eq_none.mpr hunwaited
  have hcur₁ : x.2.currentps = some pid := by
    rw [hx]
    exact hcur
  unfold exitFaulted
  rw [hexit, ok_bind]
  unfold Kernel.updateCurrent Kernel.currentProcess
  simp only [hcur₁, hgone]
  rfl

theorem Syscall.run_freed {c : Syscall} (hs : Tables s) (h : s.CurrentLive)
    (hc : ∀ c', c = .call c' → c' ≠ .pickNext) : Avoids Freed (c.run s) := by
  cases c with
  | call c' => exact exec_freed hs h (hc c' rfl)
  | eret value =>
      unfold Syscall.run syscallEret
      simp only
      split_ifs
      · exact schedExitProcess_freed h
      · exact .ok _
  | ehndlr handler =>
      unfold Syscall.run syscallEhndlr
      simp only
      split_ifs
      · exact .ok _
      · exact .bind (Kernel.updateCurrent_freed h) fun _ _ => .ok _
  | process use => exact .bind h.freed fun _ _ => .ok _

theorem exceptionReport_freed (h : s.CurrentLive) (r : Regs) (cr2 : ℕ) :
    Avoids Freed (exceptionReport s r cr2) := by
  unfold exceptionReport
  by_cases hidle : s.currenttid = -1
  · rw [if_pos hidle]
    exact .ok _
  · rw [if_neg hidle]
    refine .bind (threadAt_freed _) fun t _ => ?_
    split_ifs
    · exact schedUserFault_freed h
    · exact .error (by simp [Freed])
    · exact .ok _

/-- The error of a process for which some thread waits, or whose handler can be called. -/
theorem deliverError_freed {um : UserMem} {r : Regs} {cr2 : ℕ} {pid : Int} {p : Process}
    (hs : s.Sane) (h : s.CurrentLive) (hcur : s.currentps = some pid)
    (hp : s.processes pid = some p) (hfault : s.UserFault r cr2)
    (hok : p.waitingThreads = 0 →
      ¬(p.procerrUnhandled ≠ 0 ∨ p.procerrhandler = 0 ∨ ¬um.HandlerStack r)) :
    Avoids Freed (deliverError (s.withError pid p r) um r { p with procerr := r.intNo + 1 }) := by
  by_cases hwaited : p.waitingThreads = 0
  · obtain ⟨hfirst, hhandler, hstack⟩ : p.procerrUnhandled = 0 ∧ p.procerrhandler ≠ 0 ∧
        um.HandlerStack r := by
      have := hok hwaited
      tauto
    obtain ⟨um', s', hexc, -⟩ := hfault.delivers hs.1 hcur hp hhandler hstack hfirst
    rw [hfault.handle hs.1 hcur hp] at hexc
    rw [hexc]
    exact .ok _
  · have hkill : ∀ f : Process → Process,
        Avoids Freed (exitFaulted (s.withError pid p r) (r.intNo + 1 : ℕ) f) := by
      intro f
      have hsane : (s.withError pid p r).Sane := hs.put hp ⟨rfl, rfl, rfl, rfl, rfl, Iff.rfl⟩
      exact exitFaulted_freed hsane.1 (h.withError hp r) hcur (Function.update_self ..) hwaited
    unfold deliverError
    split_ifs with hdouble hhandler hesp
    · exact hkill _
    · exact hkill _
    · cases safecpyToUser um (r.useresp - 8) (sizeBytes r.eip ++ sizeBytes (r.intNo + 1)) with
      | mk rval um' =>
          simp only
          split_ifs with hbad
          · exact hkill _
          · exact .bind (Kernel.updateCurrent_freed (h.withError hp r)) fun _ _ => .ok _
    · exact hkill _

/-- An exception that does not end an unwaited process. -/
theorem exceptionHandle_freed {um : UserMem} {r : Regs} {cr2 : ℕ} (h : MachineInv m)
    (hrun : m.leaving = false) (hnumber : r.intNo < 32)
    (hok : ¬(MachineAct.exception um r cr2).EndsUnwaited m) :
    Avoids Freed (exceptionHandle m.kernel um r cr2) := by
  have hlive := h.current hrun
  refine .bind (exceptionReport_freed hlive r cr2) fun s₁ hreport => ?_
  cases exceptionReport_ok h.tables hreport with
  | inl hmem =>
      obtain ⟨mem, rfl⟩ := hmem
      by_cases hnone : m.kernel.currentps = none
      · rw [if_pos hnone]
        exact .ok _
      · rw [if_neg hnone]
        refine .bind (hlive.congr rfl rfl).freed fun p hp => ?_
        obtain ⟨pid, -, hproc⟩ := Kernel.currentProcess_ok.mp hp
        rw [if_pos (h.calm pid p hproc)]
        exact .ok _
  | inr hmarked =>
      obtain ⟨pid, p, hcur, hp, hthread, hdebug, rfl⟩ := hmarked
      have hmod : (r.intNo + 1) % 0x100 = r.intNo + 1 := by omega
      have hset : m.kernel.setProcess pid (some { p with procerr := (r.intNo + 1) % 0x100 }) =
          m.kernel.withError pid p r := by
        rw [hmod]
        rfl
      have hsome : (m.kernel.withError pid p r).currentps ≠ none := by
        show m.kernel.currentps ≠ none
        rw [hcur]
        exact Option.some_ne_none pid
      rw [hset, if_neg hsome, Kernel.UserFault.currentProcess hcur, ok_bind,
        if_neg (Nat.succ_ne_zero _)]
      split_ifs with hmode
      · have hfault : m.kernel.UserFault r cr2 := ⟨hthread, hnumber, hdebug, hmode⟩
        exact deliverError_freed ⟨h.tables, h.threads⟩ hlive hcur hp hfault fun h0 hend =>
          hok ⟨hfault, pid, p, hcur, hp, h0, hend⟩
      · exact .error (by simp [Freed])

/-- An exception that ends a process for which no thread waits. -/
theorem exceptionHandle_unwaited {um : UserMem} {r : Regs} {cr2 : ℕ} {pid : Int} {p : Process}
    (hs : s.Sane) (hcur : s.currentps = some pid) (hp : s.processes pid = some p)
    (hfault : s.UserFault r cr2) (h0 : p.waitingThreads = 0)
    (hend : p.procerrUnhandled ≠ 0 ∨ p.procerrhandler = 0 ∨ ¬um.HandlerStack r)
    (hexit : ∃ x, schedExitProcess (s.withError pid p r) (r.intNo + 1) = .ok x) :
    exceptionHandle s um r cr2 = .error .useAfterFree := by
  obtain ⟨x, hx⟩ := hexit
  have hsane : (s.withError pid p r).Sane := hs.put hp ⟨rfl, rfl, rfl, rfl, rfl, Iff.rfl⟩
  have hkill : ∀ f : Process → Process,
      exitFaulted (s.withError pid p r) (r.intNo + 1 : ℕ) f = .error .useAfterFree := fun f =>
    exitFaulted_unwaited hsane.1 hcur (Function.update_self ..) h0 hx
  rw [hfault.handle hs.1 hcur hp]
  unfold deliverError
  simp only
  split_ifs with hdouble hhandler hesp hbad
  · exact hkill _
  · exact hkill _
  · exact hkill _
  · exfalso
    refine hend.elim hdouble fun hrest => hrest.elim hhandler fun hstack => hstack ⟨?_, ?_⟩
    · exact Nat.not_lt.mp hesp
    · exact (safecpyToUser_stores_iff um (r.useresp - 8)
        (show sizeBytes r.eip ++ sizeBytes (r.intNo + 1) ≠ [] from List.cons_ne_nil _ _)).mp hbad
  · exact hkill _

theorem syscallHandler_freed {c : Syscall} (hs : Tables s) (h : s.CurrentLive)
    (hc : ∀ c', c = .call c' → c' ≠ .pickNext) : Avoids Freed (syscallHandler s c) :=
  .bind (Syscall.run_freed ⟨hs.lastPid, hs.lastTid, hs.pid, hs.tid⟩ (h.congr rfl rfl) hc)
    fun _ _ => .ok _

/-- A step of the machine other than the scheduler that ends no unwaited process by an exception. -/
theorem MachineInv.exec_freed {a : MachineAct} (h : MachineInv m) (ha : a.Allowed m)
    (hnot : a ≠ .schedule) (hok : ¬a.EndsUnwaited m) : Avoids Freed (m.exec a) := by
  cases a with
  | syscall c =>
      have hrun : m.leaving = false := by
        cases c with
        | call c' => exact ha.1
        | eret | ehndlr | process => exact ha
      refine .bind (syscallHandler_freed h.tables (h.current hrun) ?_) fun _ _ => .ok _
      rintro c' rfl rfl
      exact ha.2.1
  | exception um r cr2 => exact .bind (exceptionHandle_freed h ha.1 ha.2 hok) fun _ _ => .ok _
  | interrupt irq => exact .ok _
  | schedule => exact absurd rfl hnot
  | kernel c =>
      refine .bind (GalaxyOS.exec_freed h.tables (h.current ha.1) ?_) fun _ _ => .ok _
      rintro rfl
      exact ha.2.1

/-- **The current process.**  In every reachable state the current process is in the table and has not
ended, unless its thread has left the processor.  No step before the next run of the scheduler uses it
after it has been freed, except for an exception that ends it while no thread waits for it; and such an
exception does, once `sched_exit_process` has returned. -/
theorem current_process_kept (h : MachineReach m) :
    (m.leaving = false → ∀ pid, m.kernel.currentps = some pid →
      ∃ p, m.kernel.processes pid = some p ∧ p.state ≠ .exiting) ∧
      (∀ a : MachineAct, a.Allowed m → a ≠ .schedule → ¬a.EndsUnwaited m →
        m.exec a ≠ .error .useAfterFree) ∧
      ∀ um r cr2, (MachineAct.exception um r cr2).EndsUnwaited m →
        (∀ pid p, m.kernel.currentps = some pid → m.kernel.processes pid = some p →
          ∃ x, schedExitProcess (m.kernel.withError pid p r) (r.intNo + 1) = .ok x) →
        m.exec (.exception um r cr2) = .error .useAfterFree := by
  have hinv := h.inv
  refine ⟨fun hrun => hinv.current hrun, ?_, ?_⟩
  · intro a ha hnot hok herror
    exact hinv.exec_freed ha hnot hok .useAfterFree herror rfl
  · rintro um r cr2 ⟨hfault, pid, p, hcur, hp, h0, hend⟩ hexit
    simp only [Machine.exec]
    rw [exceptionHandle_unwaited ⟨hinv.tables, hinv.threads⟩ hcur hp hfault h0 hend
      (hexit pid p hcur hp)]
    rfl

/-- The process of the running thread is in the table. -/
theorem current_process_kept_handler : ∃ m : Machine, m.kernel.currentps = some 1 ∧
    ∃ p, m.kernel.processes 1 = some p ∧ p.state ≠ .exiting := by
  have hrun : BootRuns (fun s => ⟨s, false, fun _ => false, fun _ => false⟩) Machine.exec
      (fun m a => a.Allowed m) (fun m => m.HandlerReady false) handlerRun := by
    decide +kernel
  obtain ⟨m, hm, hready⟩ := machine_reach hrun
  exact ⟨m, hready.2.1, (current_process_kept hm).1 hready.1 1 hready.2.1⟩

/-- The second fault of the program ends its process, for which nobody waits, and `procerr_unhandled` is
stored to after that. -/
theorem current_process_freed : ∃ m : Machine, MachineReach m ∧
    (MachineAct.exception flatMemory divideRegs 0).Allowed m ∧
      m.exec (.exception flatMemory divideRegs 0) = .error .useAfterFree := by
  have hrun : BootRuns (fun s => ⟨s, false, fun _ => false, fun _ => false⟩) Machine.exec
      (fun m a => a.Allowed m) (fun m => (MachineAct.exception flatMemory divideRegs 0).Allowed m ∧
        ¬Avoids Freed (m.exec (.exception flatMemory divideRegs 0)))
      (handlerRun ++ [.exception flatMemory divideRegs 0, .syscall (.eret 0), .schedule]) := by
    decide +kernel
  obtain ⟨m, hm, hallowed, hfreed⟩ := machine_reach hrun
  exact ⟨m, hm, hallowed, eq_error_of_not_avoids hfreed⟩

end GalaxyOS
