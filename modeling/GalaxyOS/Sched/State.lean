import GalaxyOS.Safecpy
import GalaxyOS.Mem.Paging

/-! # Kernel state

The structures of `sched.h` and `interface.h` and the global variables of `sched.c`,
`interface.c` and `kernel.c`.

A table of pointers is a function on indices with `none` for `NULL`.  A pointer to a process is
its pid and a pointer to an interface is a number that no other interface ever gets, so a
pointer that outlives its object is recognised.  `tids` holds the entries
`tids[0 .. threadcount)`; the capacity of an array is kept beside the size the code records for
it where the two can differ.

There are no results here, only the lemmas that say when an access to a table succeeds. -/

namespace GalaxyOS

/-- `REALLOC_INCREMENT`. -/
def reallocIncrement : Int := 512

/-- `DEFAULT_PROCESS_LIST_SIZE` and `DEFAULT_THREAD_LIST_SIZE`. -/
def defaultListSize : Int := 1024

/-- `MAX_PROCESSES`. -/
def maxProcesses : Int := 65536

/-- `MAX_THREADS`. -/
def maxThreads : Int := 131072

/-- `SMALL_REALLOC_INCREMENT`. -/
def smallReallocIncrement : Int := 64

/-- `DEFAULT_P_TID_LIST_SIZE`. -/
def defaultPTidListSize : Int := 128

inductive ThreadState where
  | running | suspended | waiting | starting | exiting | dead
deriving DecidableEq, Repr

inductive ProcessState where
  | running | exiting | starting | loading
deriving DecidableEq, Repr

/-- `struct regs`, which is also the frame that `esp_k` points at. -/
structure Regs where
  gs : ℕ
  fs : ℕ
  es : ℕ
  ds : ℕ
  edi : ℕ
  esi : ℕ
  ebp : ℕ
  esp : ℕ
  ebx : ℕ
  edx : ℕ
  ecx : ℕ
  eax : ℕ
  intNo : ℕ
  errCode : ℕ
  eip : ℕ
  cs : ℕ
  eflags : ℕ
  useresp : ℕ
  ss : ℕ
deriving DecidableEq, Repr

/-- `struct thread`; `frame` is the frame at `esp_k`. -/
structure Thread where
  frame : Regs
  cr3 : ℕ
  privilegeLevel : ℕ
  pid : Int
  wait : Int
  stackpdi : ℕ
  stackpt : ℕ
  state : ThreadState
  waitMsg : Option ℕ
deriving DecidableEq, Repr

structure PsRegion where
  offset : ℕ
  size : ℕ
deriving DecidableEq, Repr

/-- `struct process`, without the open files and the terminal.  `image` is the ELF file whose
address `pload_create_process` keeps in `entrypoint` until the process is loaded. -/
structure Process where
  name : CString
  tids : List Int
  tidsSize : Int
  tidsCap : Int
  cr3 : ℕ
  cr3Virt : ℕ
  pid : Int
  image : List UInt8
  environ : List CString
  environSize : ℕ
  pwd : Option CString
  argv : List CString
  brk : ℕ
  pgbrk : ℕ
  brkOffset : ℕ
  psregions : List PsRegion
  pagesUsed : ℕ
  privilegeLevel : ℕ
  state : ProcessState
  exitcode : Int
  waitingThreads : Int
  procerr : ℕ
  procerrUnhandled : ℕ
  procerrhandler : ℕ
deriving DecidableEq, Repr

/-- `threadcount`. -/
def Process.threadcount (p : Process) : ℕ := p.tids.length

/-- `struct interface_message`; its `size` is the length of `buf`. -/
structure InterfaceMessage where
  pid : Int
  sender : Int
  buf : List UInt8
deriving DecidableEq, Repr

def InterfaceMessage.size (m : InterfaceMessage) : ℕ := m.buf.length

/-- `struct interface`; `addr` tells it from every other interface ever created. -/
structure Interface where
  addr : ℕ
  name : CString
  creatorPid : Int
  messages : List InterfaceMessage
  messagesSize : ℕ
  flags : ℕ
deriving DecidableEq, Repr

/-- The global variables of the kernel. -/
structure Kernel where
  mem : Mem
  kmode : Bool
  eflags : ℕ
  processes : Int → Option Process
  processesSize : Int
  lastPid : Int
  processesCount : Int
  threads : Int → Option Thread
  threadsSize : Int
  threadsCap : Int
  lastTid : Int
  queue : Int → Int
  queueCap : Int
  queueStart : Int
  queueLoc : Int
  queueEnd : Int
  currenttid : Int
  currentps : Option Int
  idletid : Int
  intfaces : List Interface
  intfacesSize : ℕ
  nextIntf : ℕ

namespace Kernel

/-- `processes[pid] = p`. -/
def setProcess (s : Kernel) (pid : Int) (p : Option Process) : Kernel :=
  { s with processes := Function.update s.processes pid p }

/-- `threads[tid] = t`. -/
def setThread (s : Kernel) (tid : Int) (t : Option Thread) : Kernel :=
  { s with threads := Function.update s.threads tid t }

/-- `processes[pid]`, which is initialised below `last_pid` only. -/
def processAt (s : Kernel) (pid : Int) : Except Fault (Option Process) :=
  if pid < 0 ∨ pid ≥ s.lastPid then .error .uninitialized else .ok (s.processes pid)

/-- `*threads[tid]`. -/
def threadAt (s : Kernel) (tid : Int) : Except Fault Thread :=
  match s.threads tid with
  | none => .error .nullDeref
  | some t => .ok t

/-- `*processes[pid]`. -/
def liveProcess (s : Kernel) (pid : Int) : Except Fault Process :=
  match s.processes pid with
  | none => .error .nullDeref
  | some p => .ok p

/-- `*currentps`. -/
def currentProcess (s : Kernel) : Except Fault Process :=
  match s.currentps with
  | none => .error .nullDeref
  | some pid =>
      match s.processes pid with
      | none => .error .useAfterFree
      | some p => .ok p

/-- `intfaces[_]` at the address `addr`. -/
def interfaceAt (s : Kernel) (addr : ℕ) : Except Fault Interface :=
  match s.intfaces.find? (fun i => i.addr = addr) with
  | none => .error .useAfterFree
  | some i => .ok i

@[simp] theorem setProcess_processes (s : Kernel) (pid : Int) (p : Option Process) :
    (s.setProcess pid p).processes = Function.update s.processes pid p := rfl

@[simp] theorem setProcess_threads (s : Kernel) (pid : Int) (p : Option Process) :
    (s.setProcess pid p).threads = s.threads := rfl

@[simp] theorem setThread_threads (s : Kernel) (tid : Int) (t : Option Thread) :
    (s.setThread tid t).threads = Function.update s.threads tid t := rfl

@[simp] theorem setThread_processes (s : Kernel) (tid : Int) (t : Option Thread) :
    (s.setThread tid t).processes = s.processes := rfl

theorem threadAt_ok {s : Kernel} {tid : Int} {t : Thread} :
    s.threadAt tid = .ok t ↔ s.threads tid = some t := by
  unfold threadAt
  cases s.threads tid <;> simp

theorem liveProcess_ok {s : Kernel} {pid : Int} {p : Process} :
    s.liveProcess pid = .ok p ↔ s.processes pid = some p := by
  unfold liveProcess
  cases s.processes pid <;> simp

theorem currentProcess_ok {s : Kernel} {p : Process} :
    s.currentProcess = .ok p ↔ ∃ pid, s.currentps = some pid ∧ s.processes pid = some p := by
  unfold currentProcess
  cases h : s.currentps with
  | none => simp
  | some pid => cases h' : s.processes pid <;> simp [h']

theorem processAt_ok {s : Kernel} {pid : Int} {p : Option Process} :
    s.processAt pid = .ok p ↔ (0 ≤ pid ∧ pid < s.lastPid) ∧ s.processes pid = p := by
  unfold processAt
  split_ifs with h
  · simp; omega
  · simp; omega

end Kernel

end GalaxyOS
