import GalaxyOS.Sched.State

/-! # The interface manager

The message queues of `interface.c`.  An interface is found by its name; only its creator may
delete it.  A message is addressed to a pid, to the creator (`0`) or to anyone (`-1`), and a
receiver takes the first message in the queue that is meant for it.

Names are kernel copies, so they are plain strings here.  The message payload and the buffers
of the receiver are in user memory and every access to them may fault.

The results about them are in `InterfaceTable` (`interfaces_bounded`, `interfaces_atomic`) and `Delivery`
(`mail_exact`). -/

namespace GalaxyOS

/-- `MAX_INTERFACE_MESSAGE_SIZE`. -/
def maxInterfaceMessageSize : ℕ := 1024 * 1024

/-- `MAX_INTERFACE_QUEUE_BYTES`. -/
def maxInterfaceQueueBytes : ℕ := 4 * 1024 * 1024

/-- `MAX_INTERFACE_MESSAGES`. -/
def maxInterfaceMessages : ℕ := 1024

/-- `MAX_INTERFACES`. -/
def maxInterfaces : ℕ := 256

/-- `flags & INTERFACE_FLAG_PRIVATE`. -/
def Interface.isPrivate (i : Interface) : Bool := i.flags % 2 = 1

/-- `interface_find`: the index of the interface called `name`, or `-ENOENT`. -/
def interfaceFind (intfaces : List Interface) (name : CString) : Except Int ℕ :=
  match intfaces.findIdx? (fun i => i.name = name) with
  | none => .error (-ENOENT)
  | some qid => .ok qid

/-- The interface that `interface_create` sets up. -/
def newInterface (s : Kernel) (name : CString) (pid : Int) (flags : ℕ) : Interface :=
  { addr := s.nextIntf, name := name, creatorPid := pid, messages := [], messagesSize := 32,
    flags := flags }

/-- The capacity of `intfaces` after making room for one more. -/
def Kernel.grownIntfaces (s : Kernel) : ℕ :=
  if s.intfaces.length ≥ s.intfacesSize then s.intfacesSize + 32 else s.intfacesSize

def interfaceCreate (s : Kernel) (name : CString) (pid : Int) (flags : ℕ) : Int × Kernel :=
  match interfaceFind s.intfaces name with
  | .ok _ => (-EEXIST, s)
  | .error _ =>
      if s.intfaces.length ≥ maxInterfaces then (-ENOSPC, s)
      else
        (0, { s with
          intfaces := s.intfaces ++ [newInterface s name pid flags]
          intfacesSize := s.grownIntfaces
          nextIntf := s.nextIntf + 1 })

/-- What `interface_delete` does to a thread that waits on the interface at `addr`. -/
def Thread.unwait (addr : ℕ) (t : Thread) : Thread :=
  if t.state = .waiting ∧ t.waitMsg = some addr then
    { t with waitMsg := none, wait := 0, state := .running }
  else t

def interfaceDelete (s : Kernel) (name : CString) (pid : Int) : Int × Kernel :=
  match interfaceFind s.intfaces name with
  | .error e => (e, s)
  | .ok qid =>
      match s.intfaces[qid]? with
      | none => (-ENOENT, s)
      | some intface =>
          if intface.creatorPid ≠ pid then (-EACCES, s)
          else
            (0, { s with
              threads := fun i => (s.threads i).map (Thread.unwait intface.addr)
              intfaces := s.intfaces.eraseIdx qid })

/-- The `queued` loop of `interface_send`, in 32-bit arithmetic. -/
def queuedBytes (messages : List InterfaceMessage) : ℕ :=
  messages.foldl (fun queued m => wrap32 (queued + m.size)) 0

/-- Replace the interface at index `qid`. -/
def Kernel.setInterface (s : Kernel) (qid : ℕ) (i : Interface) : Kernel :=
  { s with intfaces := s.intfaces.set qid i }

/-- The capacity of `messages` after making room for one more. -/
def Interface.grownSize (i : Interface) : ℕ :=
  if i.messages.length ≥ i.messagesSize then i.messagesSize + 32 else i.messagesSize

/-- The refusals of `interface_send`, before anything is allocated. -/
def interfaceSendCheck (s : Kernel) (i : Interface) (senderpid recvpid : Int) (size : ℕ) :
    Option Int :=
  let queued := queuedBytes i.messages
  if size > maxInterfaceMessageSize then some (-EMSGSIZE)
  else if i.messages.length ≥ maxInterfaceMessages then some (-ENOSPC)
  else if queued > maxInterfaceQueueBytes ∨ size > maxInterfaceQueueBytes - queued then
    some (-ENOSPC)
  else if i.isPrivate ∧ senderpid ≠ i.creatorPid ∧ recvpid ≠ 0 then some (-EACCES)
  else if recvpid = 0 ∧ s.processes i.creatorPid = none then some (-EOWNERDEAD)
  else none

def interfaceSend (s : Kernel) (um : UserMem) (name : CString) (senderpid recvpid : Int)
    (buf size : ℕ) : Int × UserMem × Kernel :=
  match interfaceFind s.intfaces name with
  | .error e => (e, um, s)
  | .ok qid =>
      match s.intfaces[qid]? with
      | none => (-ENOENT, um, s)
      | some i =>
          match interfaceSendCheck s i senderpid recvpid size with
          | some e => (e, um, s)
          | none =>
              match safecpyFromUser um buf size with
              | (none, um') =>
                  (-EFAULT, um', s.setInterface qid { i with messagesSize := i.grownSize })
              | (some bytes, um') =>
                  (0, um', s.setInterface qid { i with
                    messagesSize := i.grownSize
                    messages := i.messages ++ [⟨recvpid, senderpid, bytes⟩] })

/-- The test that `interface_recv` and `interface_has_msg` make of a message. -/
def Interface.delivers (i : Interface) (recvpid : Int) (m : InterfaceMessage) : Bool :=
  if m.pid = recvpid then true
  else if m.pid = 0 then i.creatorPid = recvpid
  else if m.pid = -1 then true
  else false

/-- The four bytes of a `size_t`. -/
def sizeBytes (n : ℕ) : List UInt8 :=
  [UInt8.ofNat n, UInt8.ofNat (n / 0x100), UInt8.ofNat (n / 0x10000), UInt8.ofNat (n / 0x1000000)]

/-- `truesize`: the bytes of the message that fit into the buffer of the receiver. -/
def recvSize (size : ℕ) (m : InterfaceMessage) : ℕ := if size < m.size then size else m.size

/-- Copy a message and its size to the receiver; `false` if either copy faults. -/
def recvCopy (um : UserMem) (m : InterfaceMessage) (buf size sizeOut : ℕ) : Bool × UserMem :=
  match safecpyToUser um buf (m.buf.take (recvSize size m)) with
  | (r, um₁) =>
      if r = -1 then (false, um₁)
      else
        match safecpyToUser um₁ sizeOut (sizeBytes (recvSize size m)) with
        | (r', um₂) => (r' ≠ -1, um₂)

def interfaceRecv (s : Kernel) (um : UserMem) (name : CString) (recvpid : Int)
    (buf size sizeOut : ℕ) : Int × UserMem × Kernel :=
  match interfaceFind s.intfaces name with
  | .error e => (e, um, s)
  | .ok qid =>
      match s.intfaces[qid]? with
      | none => (-ENOENT, um, s)
      | some i =>
          match i.messages.findIdx? (i.delivers recvpid) with
          | none => (-EAGAIN, um, s)
          | some mid =>
              match i.messages[mid]? with
              | none => (-EAGAIN, um, s)
              | some m =>
                  match recvCopy um m buf size sizeOut with
                  | (false, um') => (-EFAULT, um', s)
                  | (true, um') =>
                      (m.sender, um', s.setInterface qid
                        { i with messages := i.messages.eraseIdx mid })

def interfaceHasMsg (i : Interface) (recvpid : Int) : Bool :=
  i.messages.any (i.delivers recvpid)

/-- `interface_wait(name, threads[tid])`. -/
def interfaceWait (s : Kernel) (name : CString) (tid : Int) : Except Fault (Int × Kernel) :=
  match interfaceFind s.intfaces name with
  | .error e => .ok (e, s)
  | .ok qid =>
      match s.intfaces[qid]? with
      | none => .ok (-ENOENT, s)
      | some i =>
          match s.threads tid with
          | none => .error .nullDeref
          | some t =>
              .ok (0, s.setThread tid
                (some { t with state := .waiting, wait := 0, waitMsg := some i.addr }))

end GalaxyOS
