import GalaxyOS.Exception
import GalaxyOS.Syscall.Access
import GalaxyOS.Syscall.Results

/-! # The system calls

`syscall_handler` with all the functions of its table, as computations over the memory of the caller.
The handlers access user memory through the functions of `safecpy.c`, with two exceptions:
`syscall_setup` stores the arguments of the program to its stack, and `sched_fork_thread` copies the
stack.

That no handler leaves user memory is `syscalls_touch_user`; what single handlers do is shown for the
functions they call. -/

namespace GalaxyOS

open Transition

/-- The kernel as the system calls see it: `environ pid` is the environment of `processes[pid]`,
`terminal` what has been written to the terminal, and `junk` what kernel memory holds when it is
allocated. -/
structure CallState (ι δ : Type) where
  system : SystemState ι δ
  environ : Int → Environ
  terminal : List UInt8
  gitBranch : CString
  pmemStackSize : ℕ
  kernelEnd : ℕ
  junk : ℕ → UInt8
  /-- What the kernel's memory holds behind the file of an `exec`. -/
  behind : List UInt8

/-- The return value of a system call, the registers of the caller and the state after it. -/
structure CallResult (ι δ : Type) where
  value : Int
  regs : Regs
  state : CallState ι δ

/-- A function of the table.  The registers are those that `args[6]` points to. -/
abbrev Handler (ι δ : Type) := CallState ι δ → SyscallArgs → Regs → UserM (CallResult ι δ)

variable {ι δ : Type}

namespace CallState

def kernel (st : CallState ι δ) : Kernel := st.system.files.kernel

def setFiles (st : CallState ι δ) (files : FileLayer ι δ) : CallState ι δ :=
  { st with system := { st.system with files := files } }

def setKernel (st : CallState ι δ) (k : Kernel) : CallState ι δ :=
  st.setFiles { st.system.files with
    kernel := k
    table := newTables st.kernel k st.system.files.table }

/-- Return a value, the registers being unchanged. -/
def ret (st : CallState ι δ) (r : Regs) (value : Int) : UserM (CallResult ι δ) :=
  pure ⟨value, r, st⟩

/-- A handler that makes a call of the kernel and returns its result. -/
def kernelCall (st : CallState ι δ) (r : Regs) (x : Except Fault (Int × Kernel)) :
    UserM (CallResult ι δ) := do
  let (value, k) ← UserM.kernel x
  (st.setKernel k).ret r value

/-- The same for a call on a descriptor. -/
def filesCall (st : CallState ι δ) (r : Regs) (x : Except Fault (Int × FileLayer ι δ)) :
    UserM (CallResult ι δ) := do
  let (value, files) ← UserM.kernel x
  (st.setFiles files).ret r value

/-- The number and the environment of the current process. -/
def currentEnviron (st : CallState ι δ) : Except Fault (Int × Environ) := do
  let p ← st.kernel.currentProcess
  .ok (p.pid, st.environ p.pid)

end CallState

/-- A path as the file layer sees it. -/
def pathChars (path : CString) : List Char := path.map fun b => Char.ofNat b.toNat

/-- The bytes of a path. -/
def pathBytes (path : List Char) : CString := path.map fun c => UInt8.ofNat c.toNat

/-- `kstrdup_user`. -/
def UserM.kstrdup (uptr : UInt32) (maxlen : ℕ) : UserM (Except Int CString) :=
  UserM.user fun um => kstrdupUser um uptr.toNat maxlen

/-! ### Arguments of a new program -/

/-- `MAX_EXEC_ARGS`. -/
def maxExecArgs : ℕ := 1024

/-- `MAX_EXEC_ARG_SIZE`. -/
def maxExecArgSize : ℕ := 65536

/-- `MAX_EXEC_ARGS_TOTAL`. -/
def maxExecArgsTotal : ℕ := 1024 * 1024

/-- The loop of `kargv_user`, the strings `argv` of `total` bytes being copied.  It ends at the latest
when there are `MAX_EXEC_ARGS` of them, and `n` bounds its rounds. -/
def kargvLoop (uargv : ℕ) : ℕ → List CString → ℕ → UserM (Except Int (List CString))
  | 0, _, _ => UserM.kernel (.error .timeout)
  | n + 1, argv, total => do
      let element ← UserM.ptr uargv (4 * argv.length)
      match ← UserM.user fun um => safecpyFromUser um element 4 with
      | none => pure (.error (-EFAULT))
      | some bytes =>
          let uarg := leBytes bytes 0 4
          if uarg = 0 then pure (.ok argv)
          else if argv.length ≥ maxExecArgs then pure (.error (-E2BIG))
          else do
            match ← UserM.user fun um => safelenMaxErr um uarg maxExecArgSize with
            | .error lerr => pure (.error (if lerr = -ENAMETOOLONG then -E2BIG else lerr))
            | .ok len =>
                if len + 1 > maxExecArgsTotal - total then pure (.error (-E2BIG))
                else do
                  match ← UserM.user fun um => safecpyFromUser um uarg (len + 1) with
                  | none => pure (.error (-EFAULT))
                  | some copy => kargvLoop uargv n (argv ++ [cString copy]) (total + (len + 1))

/-- `kargv_user`; without an `argv` there are no strings. -/
def kargvUser (uargv : UInt32) : UserM (Except Int (List CString)) :=
  if uargv = 0 then pure (.ok []) else kargvLoop uargv.toNat (maxExecArgs + 1) [] 0

/-- `vfs_file_name`. -/
def vfsFileName (s : FileLayer ι δ) (fd : Int) : Except Fault CString := do
  let (_, t) ← s.currentFiles
  match t.lookup fd with
  | none => .error .nullDeref
  | some a => do
      let o ← s.fileOpenAt a
      .ok (pathBytes (s.vfs.file o.file).name)

/-- `pload_create_process_file(path, args, 0)`. -/
def ploadCreateProcessFile [DecidableEq ι] (st : CallState ι δ) (path : CString) (args : List CString) :
    Except Fault (Int × CallState ι δ) := do
  let (fd, files) ← vfsOpen st.system.files (pathChars path) 0b000001
  if fd < 0 then .ok (fd, st.setFiles files)
  else do
    let (rval, filestats) ← vfsFstat files fd
    if rval = -1 then do
      let (_, files) ← vfsClose files fd
      .ok (-1, st.setFiles files)
    else
      match filestats with
      | none => .error .uninitialized
      | some filestats => do
          let (rval, data, files) ←
            vfsRead files fd ((List.range (filestats.stSize + 1)).map st.junk) filestats.stSize
          if rval = -1 then do
            let (_, files) ← vfsClose files fd
            .ok (-1, st.setFiles files)
          else do
            let name ← vfsFileName files fd
            let (retval, k) ← ploadCreateProcess files.kernel ⟨data, st.behind, 3, name, args, false⟩
            let environ ←
              if retval < 0 then .ok st.environ
              else do
                let (_, e) ← st.currentEnviron
                let e' ← e.inherit
                .ok (Function.update st.environ retval e')
            let st' := (st.setFiles files).setKernel k
            let (_, files) ← vfsClose st'.system.files fd
            .ok (retval, { st'.setFiles files with environ := environ })

/-- The bytes that an argument takes on the stack, which keep the stack pointer aligned. -/
def argSize (arg : CString) : ℕ :=
  let arglen := arg.length + 1
  if arglen % 4 ≠ 0 then arglen + (4 - arglen % 4) else arglen

/-- Push the arguments to the user stack, of which `useresp` is the pointer.  The addresses of those
that have been pushed are `targv`; if there is no room for one, the flag is `false`. -/
def pushArgs (stackbase : ℕ) (junk : ℕ → UInt8) :
    List CString → ℕ → List ℕ → UserM (Bool × ℕ × List ℕ)
  | [], useresp, targv => pure (true, useresp, targv)
  | arg :: args, useresp, targv =>
      let arglen := argSize arg
      if arglen > useresp - stackbase then pure (false, useresp, targv)
      else do
        UserM.memcpy (useresp - arglen)
          (arg ++ 0 :: (List.range (arglen - (arg.length + 1))).map junk)
        pushArgs stackbase junk args (useresp - arglen) (targv ++ [useresp - arglen])

/-- Store `targv` and a `NULL` to `userargv`, from index `i` on. -/
def storeArgv (userargv : ℕ) : ℕ → List ℕ → UserM Unit
  | i, [] => do
      let slot ← UserM.ptr userargv (4 * i)
      UserM.memcpy slot (sizeBytes 0)
  | i, targ :: targv => do
      let slot ← UserM.ptr userargv (4 * i)
      UserM.memcpy slot (sizeBytes targ)
      storeArgv userargv (i + 1) targv

/-! ### The stack of a forked thread -/

/-- `forkCopy`, with its accesses to the stack. -/
def forkCopyUser (cr3Virt : ℕ) (parent child : Thread) (stackend : ℕ) : ℕ → ℕ → ℕ → Mem → UserM Mem
  | 0, _, _, _ => UserM.kernel (.error .timeout)
  | n + 1, src, dst, m =>
      if src ≥ stackend then pure m
      else do
        let chunk := forkChunk src stackend
        UserM.touch src chunk
        let (from_, m₁) ← UserM.kernel (touchStack m src)
        let m₂ ← UserM.kernel (vmmSwitchStack m₁ cr3Virt child.stackpdi child.stackpt)
        UserM.touch dst chunk
        let (to_, m₃) ← UserM.kernel (touchStack m₂ dst)
        let m₄ := m₃.copyData to_ from_ chunk
        let m₅ ← UserM.kernel (vmmSwitchStack m₄ cr3Virt parent.stackpdi parent.stackpt)
        let src' ← UserM.ptr src chunk
        let dst' ← UserM.ptr dst chunk
        forkCopyUser cr3Virt parent child stackend n src' dst' m₅

/-- `sched_fork_thread`, with its accesses to the stack. -/
def schedForkThreadUser (s : Kernel) (tid : Int) (r : Regs) : UserM (Int × Kernel) :=
  if s.lastTid ≥ maxThreads then pure (-EAGAIN, s)
  else if pmmAvailable s.mem < 16 then pure (-ENOMEM, s)
  else do
    let t ← UserM.kernel (s.threadAt tid)
    let stackbase := t.stackpdi * 0x400000
    let stackend := stackbase + 0x400000
    if r.useresp < stackbase ∨ r.useresp ≥ stackend then pure (-EFAULT, s)
    else do
      let (retvalue, s₁) ← UserM.kernel (schedCreateThread s t.pid false r.eip)
      let child ← UserM.kernel (s₁.threadAt retvalue)
      let parent ← UserM.kernel (s₁.threadAt s₁.currenttid)
      let p ← UserM.kernel (s₁.liveProcess child.pid)
      let newdst ← UserM.ptr (child.stackpdi * 0x400000) (r.useresp - stackbase)
      let mem ← forkCopyUser p.cr3Virt parent child stackend 1026 r.useresp newdst s₁.mem
      pure (retvalue,
        { s₁.setThread retvalue (some { child with frame := forkFrame child.frame r }) with
          mem := mem })

/-! ### The table -/

namespace Handler

def syscallExit : Handler ι δ := fun st args r =>
  st.kernelCall r (schedExitProcess st.kernel (args.int 0))

def syscallWait : Handler ι δ := fun st args r =>
  st.kernelCall r (schedWaitProcess st.kernel (args.int 0))

def syscallRead : Handler ι δ := fun st args r => do
  let (value, system) ← UserM.call fun um => do
    let (value, um', system) ← GalaxyOS.syscallRead st.system um args st.junk
    .ok ((value, system), um')
  CallState.ret { st with system := system } r value

def syscallWrite : Handler ι δ := fun st args r =>
  if args 2 = 0 then st.ret r 0
  else
    let buf := (args 1).toNat
    let count := ioCount args
    if !userBufferOk buf count then st.ret r (-EFAULT)
    else do
      match ← UserM.user fun um => safecpyFromUser um buf count with
      | none => st.ret r (-EFAULT)
      | some newbuf =>
          if args.int 0 = 0 then st.ret r 0
          else if args.int 0 = 1 ∨ args.int 0 = 2 then do
            let _ ← UserM.kernel st.kernel.currentProcess
            CallState.ret { st with terminal := st.terminal ++ newbuf } r newbuf.length
          else do
            let (retval, _, files) ←
              UserM.kernel (vfsWrite st.system.files (args.int 0 - 3) newbuf count)
            (st.setFiles files).ret r retval

def syscallOpen [DecidableEq ι] : Handler ι δ := fun st args r => do
  match ← UserM.kstrdup (args 0) maxPathLen with
  | .error err => st.ret r err
  | .ok path => do
      let (retval, files) ← UserM.kernel (vfsOpen st.system.files (pathChars path) (args 1).toNat)
      (st.setFiles files).ret r (if retval ≥ 0 then retval + 3 else retval)

def syscallClose [DecidableEq ι] : Handler ι δ := fun st args r =>
  -- stdin/stdout/stderr can't be closed
  if args.int 0 < 3 then st.ret r (-EBADF)
  else st.filesCall r (vfsClose st.system.files (args.int 0 - 3))

def syscallExec [DecidableEq ι] : Handler ι δ := fun st args r => do
  match ← UserM.kstrdup (args 0) maxPathLen with
  | .error err => st.ret r err
  | .ok path => do
      match ← kargvUser (args 1) with
      | .error err => st.ret r err
      | .ok argv => do
          let (retval, st') ← UserM.kernel (ploadCreateProcessFile st path argv)
          st'.ret r retval

def syscallBrk : Handler ι δ := fun st args r =>
  st.kernelCall r (schedSetbrk st.kernel (args 0).toNat)

def syscallSize : Handler ι δ := fun st args r =>
  if args.int 0 < 3 then st.ret r (-EBADF)
  else do
    let size ← UserM.kernel (vfsSize st.system.files (args.int 0 - 3))
    st.ret r size

def syscallEret : Handler ι δ := fun st args r =>
  st.kernelCall r (GalaxyOS.syscallEret st.kernel (args.int 0))

def syscallEhndlr : Handler ι δ := fun st args r =>
  st.kernelCall r (GalaxyOS.syscallEhndlr st.kernel (args 0).toNat)

/-- Copy the first `n` bytes of a value. -/
def copyCut (buf n : ℕ) (eval : CString) : UserM Int :=
  if n > 0 then UserM.user fun um => safecpyToUser um buf (eval.take n) else pure 0

/-- The end of `syscall_getenv`. -/
def copyValue (buf size : ℕ) (eval : CString) : UserM Int :=
  if size = 0 then pure 0
  else if eval.length + 1 > size then do
    let n := size - 1
    let rval ← copyCut buf n eval
    if rval = -1 then pure (-EFAULT)
    else do
      let dst ← UserM.ptr buf n
      let rval ← UserM.user fun um => safecpyToUser um dst [0]
      pure (if rval = -1 then -EFAULT else 0)
  else do
    let rval ← UserM.user fun um => safecpyToUser um buf (eval ++ [0])
    pure (if rval = -1 then -EFAULT else 0)

def syscallGetenv : Handler ι δ := fun st args r => do
  match ← UserM.kstrdup (args 0) maxEnvNameSize with
  | .error err => st.ret r err
  | .ok name => do
      let (_, e) ← UserM.kernel st.currentEnviron
      match ← UserM.kernel (e.findVariable name e.environc 0) with
      | none => st.ret r (-ENOENT)
      | some (_, var) => do
          let value ← copyValue (args 1).toNat (args 2).toNat (var.drop (name.length + 1))
          st.ret r value

def syscallSetenv : Handler ι δ := fun st args r => do
  match ← UserM.kstrdup (args 0) maxEnvNameSize with
  | .error err => st.ret r err
  | .ok name =>
      if name.length = 0 then st.ret r (-EINVAL)
      else do
        match ← UserM.user fun um => safelenMaxErr um (args 1).toNat (maxEnvValueSize + 1) with
        | .error err => st.ret r (if err = -ENAMETOOLONG then -E2BIG else err)
        | .ok vallen => do
            let (pid, e) ← UserM.kernel st.currentEnviron
            let found ← UserM.kernel (e.findVariable name e.environc 0)
            match ← UserM.user fun um => safecpyFromUser um (args 1).toNat vallen with
            | none => st.ret r (-EFAULT)
            | some value => do
                let newvar := cString (name ++ equalSign :: value ++ [0])
                let (rval, e') ← UserM.kernel (e.storeVariable (found.map Prod.fst) newvar)
                CallState.ret { st with environ := Function.update st.environ pid e' } r rval

def syscallSetup : Handler ι δ := fun st _ r => do
  let t ← UserM.kernel (st.kernel.threadAt st.kernel.currenttid)
  let stackbase := t.stackpdi * 0x400000
  let stackend := stackbase + 0x400000
  let p ← UserM.kernel st.kernel.currentProcess
  let argc := p.argv.length
  if argc ≥ 0x80000000 then st.ret r (-EINVAL)
  else if r.useresp < stackbase ∨ r.useresp > stackend then st.ret r (-EFAULT)
  else do
    let (room, useresp, targv) ← pushArgs stackbase st.junk p.argv r.useresp []
    if !room then st.ret { r with useresp := useresp } (-E2BIG)
    else
      let argvsize := 4 * (argc + 1)
      if argvsize > useresp - stackbase then st.ret { r with useresp := useresp } (-E2BIG)
      else do
        let userargv := useresp - argvsize
        storeArgv userargv 0 targv
        if 8 > userargv - stackbase then st.ret { r with useresp := userargv } (-E2BIG)
        else do
          UserM.memcpy (userargv - 4) (sizeBytes userargv)
          UserM.memcpy (userargv - 8) (sizeBytes argc)
          st.ret { r with useresp := userargv - 8 } 0

def syscallGetver : Handler ι δ := fun st args r => do
  let value ← UserM.user fun um => GalaxyOS.syscallGetver st.gitBranch um args
  st.ret r value

def syscallChdir : Handler ι δ := fun st args r => do
  match ← UserM.kstrdup (args 0) maxPathLen with
  | .error err => st.ret r err
  | .ok path =>
      match vfsFindDirectory st.system.files.vfs (pathChars path) with
      | none => st.ret r (-ENOENT)
      | some newdir =>
          match vfsGetPathDirectory st.system.files.vfs newdir maxPathLen with
          | none => st.ret r (-ENAMETOOLONG)
          | some (_, newpwd) => do
              let k ← UserM.kernel (st.kernel.updateCurrent fun p =>
                { p with pwd := some (cString (pathBytes newpwd)) })
              (st.setKernel k).ret r 0

def syscallList : Handler ι δ := fun st args r => do
  let value ← UserM.user fun um => GalaxyOS.syscallList st.system.files.vfs um args
  st.ret r value

def syscallGetcwd : Handler ι δ := fun st args r => do
  let p ← UserM.kernel st.kernel.currentProcess
  let value ← UserM.user fun um => GalaxyOS.syscallGetcwd p.pwd um args
  st.ret r value

/-- `pmm_used`. -/
def pmmUsed (st : CallState ι δ) : ℕ :=
  wrap32 (st.pmemStackSize + (st.kernelEnd - kernelStart) / 0x1000 + 0x100000000 -
    pmmAvailable st.kernel.mem)

def syscallMemusage : Handler ι δ := fun st _ r => do
  let used := pmmUsed st
  let available := pmmAvailable st.kernel.mem
  let p ← UserM.kernel st.kernel.currentProcess
  st.ret { r with
    ecx := wrap32 (used * 0x1000)
    edx := wrap32 (available * 0x1000)
    ebx := wrap32 ((used + available) * 0x1000) } (intOfReg (p.pagesUsed * 0x1000 + p.brkOffset))

/-- `MAX_INTERFACE_NAME_LEN`. -/
def maxInterfaceNameLen : ℕ := 1024

/-- A call on an interface: the name is copied first, then the call made in the name of the current
process. -/
def interfaceCall (st : CallState ι δ) (args : SyscallArgs) (r : Regs)
    (f : CString → Int → UserM (Int × Kernel)) : UserM (CallResult ι δ) := do
  match ← UserM.kstrdup (args 0) maxInterfaceNameLen with
  | .error err => st.ret r err
  | .ok name => do
      let p ← UserM.kernel st.kernel.currentProcess
      let (retval, k) ← f name p.pid
      (st.setKernel k).ret r retval

def syscallIntfc : Handler ι δ := fun st args r => interfaceCall st args r fun name pid =>
  pure (interfaceCreate st.kernel name pid (args 1).toNat)

def syscallIntfd : Handler ι δ := fun st args r => interfaceCall st args r fun name pid =>
  pure (interfaceDelete st.kernel name pid)

def syscallIntfs : Handler ι δ := fun st args r => interfaceCall st args r fun name pid =>
  UserM.user fun um =>
    let (retval, um', k) :=
      interfaceSend st.kernel um name pid (args.int 1) (args 2).toNat (args 3).toNat
    ((retval, k), um')

def syscallIntfr : Handler ι δ := fun st args r => interfaceCall st args r fun name pid =>
  UserM.user fun um =>
    let (retval, um', k) :=
      interfaceRecv st.kernel um name pid (args 1).toNat (args 2).toNat (args 3).toNat
    ((retval, k), um')

def syscallIntfw : Handler ι δ := fun st args r => do
  match ← UserM.kstrdup (args 0) maxInterfaceNameLen with
  | .error err => st.ret r err
  | .ok name => st.kernelCall r (interfaceWait st.kernel name st.kernel.currenttid)

def syscallTfork : Handler ι δ := fun st _ r => do
  let (value, k) ← schedForkThreadUser st.kernel st.kernel.currenttid r
  (st.setKernel k).ret r value

def syscallSpstate : Handler ι δ := fun st args r =>
  if args.int 0 = 0 then st.ret r 0
  else if args.int 0 = 1 then st.ret r (-ENOSYS)
  else if args.int 0 = 2 then do
    let p ← UserM.kernel st.kernel.currentProcess
    -- only init may reboot
    if p.pid ≠ 1 then st.ret r (-EACCES) else throw .reboot
  else st.ret r (-EINVAL)

def syscallKill : Handler ι δ := fun st args r =>
  st.kernelCall r (schedKillProcess st.kernel (args.int 0))

def syscallPscount : Handler ι δ := fun st _ r => st.ret r st.kernel.processesCount

/-- The loop of `syscall_pslist`, with `n` pids left from `i` on and `count` of them stored. -/
def pslistLoop (s : Kernel) (buf size : ℕ) : ℕ → ℕ → ℕ → UserM Int
  | 0, _, count => pure (intOfReg count)
  | n + 1, i, count =>
      if ¬count < size then pure (intOfReg count)
      else if s.processes i ≠ none then do
        let slot ← UserM.ptr buf (4 * count)
        let rval ← UserM.user fun um => safecpyToUser um slot (sizeBytes i)
        if rval ≠ 0 then pure (-EFAULT) else pslistLoop s buf size n (i + 1) (count + 1)
      else pslistLoop s buf size n (i + 1) count

def syscallPslist : Handler ι δ := fun st args r => do
  let value ← pslistLoop st.kernel (args 0).toNat (args 1).toNat st.kernel.lastPid.toNat 0 0
  st.ret r value

def syscallTexit : Handler ι δ := fun st _ r => st.kernelCall r (noResult (schedExitThread st.kernel))

end Handler

/-- `syscalltable`, as `syscall_init` fills it. -/
def syscalltable [DecidableEq ι] : ℕ → Option (Handler ι δ)
  | 1 => some Handler.syscallExit
  | 2 => some Handler.syscallWait
  | 3 => some Handler.syscallRead
  | 4 => some Handler.syscallWrite
  | 5 => some Handler.syscallOpen
  | 6 => some Handler.syscallClose
  | 7 => some Handler.syscallExec
  | 8 => some Handler.syscallBrk
  | 9 => some Handler.syscallSize
  | 10 => some Handler.syscallEret
  | 11 => some Handler.syscallEhndlr
  | 12 => some Handler.syscallGetenv
  | 13 => some Handler.syscallSetenv
  | 14 => some Handler.syscallSetup
  | 15 => some Handler.syscallGetver
  | 16 => some Handler.syscallChdir
  | 17 => some Handler.syscallList
  | 18 => some Handler.syscallGetcwd
  | 19 => some Handler.syscallMemusage
  | 20 => some Handler.syscallIntfc
  | 21 => some Handler.syscallIntfd
  | 22 => some Handler.syscallIntfs
  | 23 => some Handler.syscallIntfr
  | 24 => some Handler.syscallIntfw
  | 25 => some Handler.syscallTfork
  | 26 => some Handler.syscallSpstate
  | 27 => some Handler.syscallKill
  | 28 => some Handler.syscallPscount
  | 29 => some Handler.syscallPslist
  | 30 => some Handler.syscallTexit
  | _ => none

/-- The arguments of a system call. -/
def Regs.args (r : Regs) : SyscallArgs := fun i =>
  UInt32.ofNat (([r.ecx, r.edx, r.ebx, r.esi, r.edi, r.ebp][i.val]?).getD 0)

/-- Set `kmode`. -/
def CallState.setKmode (st : CallState ι δ) (kmode : Bool) : CallState ι δ :=
  st.setFiles { st.system.files with kernel := { st.kernel with kmode := kmode } }

/-- `syscall_handler`. -/
def handleSyscall [DecidableEq ι] (st : CallState ι δ) (r : Regs) : UserM (Regs × CallState ι δ) :=
  if r.eax < 31 ∧ r.eax ≠ 0 then
    match syscalltable r.eax with
    | none => UserM.kernel (.error .nullDeref)
    | some handler => do
        let res ← handler (st.setKmode false) r.args r
        pure ({ res.regs with eax := regOfInt res.value }, res.state.setKmode true)
  else pure ({ r with eax := regOfInt (-ENOSYS) }, st.setKmode true)

end GalaxyOS
