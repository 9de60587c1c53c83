import GalaxyOS.Interface
import GalaxyOS.Sched.Process

/-! # The scheduler loop and the calls of the kernel

`sched_pick_next` walks the run queue from where it stopped until it has selected a thread,
starting over at most once before it falls back on the idle thread; on the way it removes dead
threads and resumes threads whose wait is over.  Its loop is `whileE pickBody`, and each round
is `pickFetch` (which thread is next) followed by `pickDispatch` (what to do with it).

`Call` lists the entry points of the kernel that the results are about and `exec` runs one of
them; a run of the kernel is a sequence of such calls from the state that `sched_init` leaves.

A run that is written down as a list of calls is one of the runs that the results are about
(`BootRuns.reach`). -/

namespace GalaxyOS

open Transition

/-- `sched_pop_next_tid`; `-1` when no thread is left. -/
def schedPopNextTid (s : Kernel) : Int × Kernel :=
  if s.queueEnd - s.queueLoc > 0 then
    (s.queue s.queueLoc, { s with queueLoc := s.queueLoc + 1 })
  else (-1, s)

/-- The next thread to look at, and whether the queue has been refreshed. -/
def pickFetch (s : Kernel) (loop : Bool) : Int × Kernel × Bool :=
  match schedPopNextTid s with
  | (nexttid, s₁) =>
      if nexttid ≠ -1 then (nexttid, s₁, loop)
      -- we have no active threads
      else if loop then (s.idletid, s₁, true)
      else
        -- refresh the queue
        match schedPopNextTid { s₁ with queueLoc := s₁.queueStart } with
        | (nexttid, s₂) => (if nexttid = -1 then s.idletid else nexttid, s₂, true)

/-- Enter the stack of a userland thread. -/
def switchStackTo (s : Kernel) (t : Thread) : Except Fault Mem :=
  if t.privilegeLevel = 0 then .ok s.mem
  else do
    let p ← s.liveProcess t.pid
    vmmSwitchStack s.mem p.cr3Virt t.stackpdi t.stackpt

/-- Select a thread. -/
def pickSelect (s : Kernel) (tid : Int) (t : Thread) : Except Fault Kernel := do
  let mem ← switchStackTo s t
  .ok { s with
    mem := mem
    currentps := (s.processes t.pid).map fun _ => t.pid
    currenttid := tid }

/-- A 32-bit register holding a C `int`. -/
def regOfInt (n : Int) : ℕ := (n % 0x100000000).toNat

/-- Select a thread whose wait for the process `pid` is over and reap that process. -/
def pickResume (s : Kernel) (tid pid : Int) : Except Fault Kernel := do
  let t ← s.threadAt tid
  let s₁ ← pickSelect s tid t
  let p ← s₁.liveProcess pid
  let frame := { t.frame with eax := regOfInt p.exitcode }
  schedReapProcess (s₁.setThread tid (some { t with frame := frame })) pid

/-- `case THREAD_STATE_WAITING`. -/
def pickWaiting (s : Kernel) (tid : Int) (t : Thread) : Except Fault Kernel :=
  match t.waitMsg with
  | some addr => do
      -- we're waiting for a message queue
      let i ← s.interfaceAt addr
      if interfaceHasMsg i t.pid then
        .ok (s.setThread tid (some { t with waitMsg := none, state := .running }))
      else .ok s
  | none =>
      -- check for the process the thread is waiting for
      match schedCheckWaitingThread s tid t with
      | (pid, s₁) =>
          -- a process that has exited is a reason to resume the thread
          if pid = -1 then .ok s₁ else pickResume s₁ tid pid

/-- `case THREAD_STATE_STARTING`. -/
def pickStarting (s : Kernel) (tid : Int) (t : Thread) : Except Fault Kernel :=
  if t.privilegeLevel = 0 then .ok (s.setThread tid (some { t with state := .running }))
  else do
    let p ← s.liveProcess t.pid
    match p.state with
    | .starting => do
        let (_, s₁) ← ploadLoadProcess memoryPolicy s t.pid tid
        .ok s₁
    | .running | .loading => .ok (s.setThread tid (some { t with state := .running }))
    | .exiting => .ok s

/-- The queue without its entry at `queue_loc - 1`, the entries behind it moved up. -/
def Kernel.dequeue (s : Kernel) : Except Fault Kernel :=
  if s.queueLoc - 1 < 0 ∧ s.queueLoc < s.queueEnd then .error .overrun
  else .ok { s with
    queue := fun i => if s.queueLoc - 1 ≤ i ∧ i < s.queueEnd - 1 then s.queue (i + 1) else s.queue i
    queueEnd := s.queueEnd - 1
    queueLoc := s.queueLoc - 1 }

/-- Take a removed thread out of the count of the process it was waiting for. -/
def dropWaiter (s : Kernel) (t : Thread) : Except Fault Kernel :=
  if t.wait = 0 then .ok s
  else do
    let waited ← s.processAt t.wait
    match waited with
    | none => .ok s
    | some p => .ok (s.setProcess t.wait (some { p with waitingThreads := p.waitingThreads - 1 }))

/-- `case THREAD_STATE_DEAD`: take the thread out of the queue and free it. -/
def pickDead (s : Kernel) (tid : Int) (t : Thread) : Except Fault Kernel := do
  let s₁ ← s.dequeue
  let s₂ ← dropWaiter s₁ t
  .ok (s₂.setThread tid none)

/-- The sanity checks of `sched_pick_next`. -/
def pickCheck (s : Kernel) (t : Thread) : Except Fault Unit :=
  match s.processes t.pid with
  | none =>
      if t.state ≠ .dead then .error (.panic "Tried to schedule null process") else .ok ()
  | some p =>
      if p.state = .exiting ∧ t.state ≠ .dead then
        .error (.panic "Tried to schedule exiting process")
      else .ok ()

/-- What `sched_pick_next` does with the thread it looks at. -/
def pickDispatch (s : Kernel) (tid : Int) : Except Fault Kernel :=
  match s.threads tid with
  | none => .error (.panic "Tried to schedule null thread")
  | some t => do
      pickCheck s t
      match t.state with
      | .running => pickSelect s tid t
      | .suspended => .ok s
      | .waiting => pickWaiting s tid t
      | .starting => pickStarting s tid t
      | .exiting => .ok (s.setThread tid (some { t with state := .dead }))
      | .dead => pickDead s tid t

/-- One round of the loop. -/
def pickBody : Kernel × Bool → Except Fault ((Kernel × Bool) ⊕ Kernel)
  | (s, loop) =>
      match pickFetch s loop with
      | (nexttid, s₁, loop₁) =>
          match pickDispatch s₁ nexttid with
          | .error e => .error e
          | .ok s₂ => .ok (if s₂.currenttid = -1 then .inl (s₂, loop₁) else .inr s₂)

/-- More rounds than the loop can make before it selects the idle thread. -/
def pickFuel (s : Kernel) : ℕ :=
  (s.queueEnd - s.queueLoc).toNat + (s.queueEnd - s.queueStart).toNat + 4

def schedPickNext (s : Kernel) : Except Fault Kernel :=
  whileE .timeout pickBody (pickFuel s) ({ s with currenttid := -1 }, false)

/-! ### The initial state -/

/-- The globals as `sched_init` and `interface_init` set them up, before the idle process. -/
def Kernel.boot (mem : Mem) (eflags : ℕ) : Kernel :=
  { mem := mem, kmode := false, eflags := eflags
    processes := fun _ => none, processesSize := defaultListSize, lastPid := 0, processesCount := 0
    threads := fun _ => none, threadsSize := defaultListSize
    -- sizeof(struct thread) * DEFAULT_THREAD_LIST_SIZE bytes
    threadsCap := 37 * defaultListSize / 4
    lastTid := 0
    queue := fun _ => 0, queueCap := defaultListSize, queueStart := 0, queueLoc := 0, queueEnd := 0
    currenttid := -1, currentps := none, idletid := 0
    intfaces := [], intfacesSize := 32, nextIntf := 0 }

/-- `sched_init`; `idleLoop` is the address of `idle_loop`. -/
def schedInit (mem : Mem) (eflags idleLoop : ℕ) : Except Fault Kernel := do
  let (idlepid, s₁) ← schedCreateProcess (Kernel.boot mem eflags) 0 "(idle)".toUTF8.toList
  let (idletid, s₂) ← schedCreateThread s₁ idlepid true idleLoop
  .ok { s₂ with idletid := idletid }

/-! ### Calls -/

/-- The arguments of `pload_create_process` for a userland program: `data` points to the file, and
`behind` is what the memory of the kernel holds behind it. -/
structure LoadRequest where
  data : List UInt8
  behind : List UInt8
  privilege : ℕ
  name : CString
  args : List CString
  nodup : Bool

/-- What the loader finds from `data` on: nothing tells it where the file ends. -/
def LoadRequest.image (q : LoadRequest) : List UInt8 := q.data ++ q.behind

/-- The environment and the working directory of a loaded process. -/
def inheritEnviron (s : Kernel) (p : Process) (nodup : Bool) : Except Fault Process :=
  if nodup then .ok { p with environ := [], environSize := 1, pwd := some [] }
  else do
    let cur ← s.currentProcess
    match cur.pwd with
    | none => .error .nullDeref
    | some pwd =>
        .ok { p with
          environ := cur.environ, environSize := cur.environ.length + 1, pwd := some pwd }

/-- `pload_create_process`: a process that the scheduler will load, with one thread. -/
def ploadCreateProcess (s : Kernel) (q : LoadRequest) : Except Fault (Int × Kernel) := do
  let elfvalid ← elfIsvalid memoryPolicy q.image
  if elfvalid ≠ 0 then .ok (-1, s)
  else
    let (pid, s₁) ← schedCreateProcess s q.privilege q.name
    let p ← s₁.liveProcess pid
    let p₁ ← inheritEnviron s₁ { p with image := q.image, argv := q.args } q.nodup
    let (_, s₂) ← schedCreateThread (s₁.setProcess pid (some p₁)) pid false 0xFEFEFEFE
    .ok (pid, s₂)

/-- An entry point of the kernel with its arguments. -/
inductive Call where
  | createProcess (privilege : ℕ) (name : CString)
  | createThread (ownerpid : Int) (noqueue : Bool) (entrypoint : ℕ)
  | forkThread (tid : Int) (r : Regs)
  | loadProcess (q : LoadRequest)
  | exitThread
  | exitProcess (exitcode : Int)
  | killProcess (pid : Int)
  | suspendThread (irq : ℕ) (tid : Int)
  | checkSuspended (irq : ℕ)
  | waitProcess (pid : Int)
  | pickNext
  | interfaceCreate (name : CString) (pid : Int) (flags : ℕ)
  | interfaceDelete (name : CString) (pid : Int)
  | interfaceSend (um : UserMem) (name : CString) (senderpid recvpid : Int) (buf size : ℕ)
  | interfaceRecv (um : UserMem) (name : CString) (recvpid : Int) (buf size sizeOut : ℕ)
  | interfaceWait (name : CString) (tid : Int)
  | setbrk (addr : ℕ)
  | userFault (eno errorcode cr2 : ℕ)
  | liballocAlloc (pages : ℕ)
  | liballocFree (addr pages : ℕ)
  | loadCr3

/-- A function without a return value. -/
def noResult (x : Except Fault Kernel) : Except Fault (Int × Kernel) := do
  let s ← x
  .ok (0, s)

/-- `sched_setbrk`. -/
def schedSetbrk (s : Kernel) (addr : ℕ) : Except Fault (Int × Kernel) := do
  let p ← s.currentProcess
  let (retval, p', mem) ← schedSetbrkTrue p s.mem addr
  .ok (retval, { s.setProcess p.pid (some p') with mem := mem })

/-- Load `cr3` from the current thread, as the interrupt stub does before it returns. -/
def loadThreadCr3 (s : Kernel) : Except Fault Kernel := do
  let t ← s.threadAt s.currenttid
  .ok { s with mem := { s.mem with cr3 := t.cr3 } }

/-- Run a call: its return value and the state it leaves. -/
def exec (s : Kernel) : Call → Except Fault (Int × Kernel)
  | .createProcess privilege name => schedCreateProcess s privilege name
  | .createThread ownerpid noqueue entrypoint => schedCreateThread s ownerpid noqueue entrypoint
  | .forkThread tid r => schedForkThread s tid r
  | .loadProcess q => ploadCreateProcess s q
  | .exitThread => noResult (schedExitThread s)
  | .exitProcess exitcode => schedExitProcess s exitcode
  | .killProcess pid => schedKillProcess s pid
  | .suspendThread irq tid => noResult (schedSuspendThread s irq tid)
  | .checkSuspended irq => .ok (0, schedCheckSuspendedThreads s irq)
  | .waitProcess pid => schedWaitProcess s pid
  | .pickNext => noResult (schedPickNext s)
  | .interfaceCreate name pid flags => .ok (interfaceCreate s name pid flags)
  | .interfaceDelete name pid => .ok (interfaceDelete s name pid)
  | .interfaceSend um name senderpid recvpid buf size =>
      .ok ((interfaceSend s um name senderpid recvpid buf size).1,
        (interfaceSend s um name senderpid recvpid buf size).2.2)
  | .interfaceRecv um name recvpid buf size sizeOut =>
      .ok ((interfaceRecv s um name recvpid buf size sizeOut).1,
        (interfaceRecv s um name recvpid buf size sizeOut).2.2)
  | .interfaceWait name tid => interfaceWait s name tid
  | .setbrk addr => schedSetbrk s addr
  | .userFault eno errorcode cr2 => noResult (schedUserFault s eno errorcode cr2)
  | .liballocAlloc pages => do
      let (addr, mem) ← liballocAlloc s.mem pages
      .ok (addr, { s with mem := mem })
  | .liballocFree addr pages =>
      .ok ((liballocFree s.mem addr pages).1, { s with mem := (liballocFree s.mem addr pages).2 })
  | .loadCr3 => noResult (loadThreadCr3 s)

/-- A call and the step it makes. -/
def Step (s : Kernel) (c : Call) (s' : Kernel) : Prop := ∃ r, exec s c = .ok (r, s')

/-- The states in which a run of the kernel can start. -/
def Started (s : Kernel) : Prop := ∃ mem eflags idleLoop, schedInit mem eflags idleLoop = .ok s

/-- `C` holds wherever the call begins a round of `sched_pick_next`, for the kernel and the flag
`loop` of that round. -/
def Call.Rounds (C : Kernel × Bool → Prop) (s : Kernel) : Call → Prop
  | .pickNext => Heads C pickBody (pickFuel s) ({ s with currenttid := -1 }, false)
  | _ => True

instance Call.Rounds.decidable {C : Kernel × Bool → Prop} [DecidablePred C] (s : Kernel) (c : Call) :
    Decidable (c.Rounds C s) := by
  cases c
  case pickNext =>
    exact Heads.decidable (C := C) (pickFuel s) ({ s with currenttid := -1 }, false)
  all_goals exact .isTrue trivial

/-- A machine with `frames` free frames from 1 MiB on, whose kernel heap starts at `0xD0000000`
with an empty page table. -/
def smallMachine (frames : ℕ) : Mem :=
  { pmemStack := (List.range frames).map fun i => 0x100000 + 0x1000 * i
    tables := fun table i => if table = 0x1000 ∧ i = 832 then some ⟨0x2000, 0x7⟩ else none
    data := fun _ => 0
    cr3 := 0x1000
    endMappedKmemory := 0xD0000000
    stackRoom := 0x1000 }

/-- An executable with one segment of one byte, which it puts at the address `vaddr`. -/
def sampleImage (vaddr : List UInt8) : List UInt8 :=
  [0x7F, 0x45, 0x4C, 0x46, 1, 1, 0, 0, 0, 0, 0, 0, 0, 0, 0, 0, 2, 0, 3, 0, 1, 0, 0, 0] ++
    [0, 0, 0x40, 0, 52, 0, 0, 0, 0, 0, 0, 0, 0, 0, 0, 0, 52, 0, 32, 0, 1, 0, 0, 0, 0, 0, 0, 0] ++
    [1, 0, 0, 0, 0, 0, 0, 0] ++ vaddr ++ [0, 0, 0, 0, 0, 0, 0, 0, 1, 0, 0, 0, 7, 0, 0, 0, 0, 0, 0, 0]

/-- The state that a call leaves. -/
def execState (s : Kernel) (c : Call) : Except Fault Kernel := do
  let (_, s') ← exec s c
  .ok s'

theorem execState_step {s s' : Kernel} {c : Call} (h : execState s c = .ok s') : Step s c s' := by
  simp only [execState, bind_ok, Prod.exists, Except.ok.injEq] at h
  obtain ⟨r, s₁, hexec, rfl⟩ := h
  exact ⟨r, hexec⟩

section BootRuns

variable {σ ι : Type} {record : Kernel → σ} {run : σ → ι → Except Fault σ}
  {ok : σ → ι → Prop} {P : σ → Prop} {cs : List ι}

/-- The small machine with 16 free frames starts and makes the calls `cs`; `record` is the initial
state of a system that follows the kernel and makes its steps with `run`. -/
def BootRuns (record : Kernel → σ) (run : σ → ι → Except Fault σ) (ok : σ → ι → Prop)
    (P : σ → Prop) (cs : List ι) : Prop :=
  OkAnd (schedInit (smallMachine 16) 0 0) fun s => Runs run ok P cs (record s)

instance [DecidableRel ok] [DecidablePred P] : Decidable (BootRuns record run ok P cs) :=
  have : DecidablePred fun s => Runs run ok P cs (record s) :=
    fun s => Runs.decidable cs (record s)
  inferInstanceAs
    (Decidable (OkAnd (schedInit (smallMachine 16) 0 0) fun s => Runs run ok P cs (record s)))

theorem BootRuns.reach {step : σ → ι → σ → Prop} {init : σ → Prop}
    (h : BootRuns record run ok P cs) (hstep : ∀ s c s', run s c = .ok s' → step s c s')
    (hinit : ∀ s, Started s → init (record s)) : ∃ s, Reach step ok init s ∧ P s := by
  obtain ⟨s, hs, h⟩ := h.exists_ok
  exact h.reach hstep (.start (hinit s ⟨_, _, _, hs⟩))

end BootRuns

end GalaxyOS
