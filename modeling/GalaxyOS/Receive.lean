import GalaxyOS.Wakeup

/-! # Blocking receive

`psInterfaceRecieve` of the userland library makes up to three system calls: a receive, and if
there is no message for the process a wait and one more receive.  Between any two of them other
threads run.

* `receive_eagain`: the second receive can come back empty, because another thread took the message
  that ended the wait.
* `receive_blocks`: as long as nobody does that, `psInterfaceRecieve` returns the sender of a
  message, or `-ENOENT` after the interface has been deleted.

`ReceiveInv.call` carries the calls that have not returned through any call of the kernel, and
`Kernel.Answered.exec` the message that a thread has been resumed for; `recv_valid` is the last step. -/

namespace GalaxyOS

open Transition

/-! ### The library -/

/-- `psInterfaceRecieveNB`, that is `SYSCALL_INTFR` of the current process. -/
def psInterfaceRecieveNB (s : Kernel) (um : UserMem) (name : CString) (buf size sizeout : ℕ) :
    Except Fault (Int × Kernel) := do
  let p ← s.currentProcess
  exec s (.interfaceRecv um name p.pid buf size sizeout)

/-- `psInterfaceWait`, that is `SYSCALL_INTFW` of the current thread. -/
def psInterfaceWait (s : Kernel) (name : CString) : Except Fault (Int × Kernel) :=
  exec s (.interfaceWait name s.currenttid)

/-- A call of `psInterfaceRecieve`: the thread, the arguments, and how far it has come. -/
structure ReceiveCall where
  tid : Int
  name : CString
  buf : ℕ
  size : ℕ
  sizeout : ℕ
  /-- The interface of that name at the time of the call. -/
  intface : Option ℕ
  /-- `psInterfaceWait` has been called. -/
  waited : Bool

/-- A call that has returned. -/
structure ReceiveReturn where
  call : ReceiveCall
  retvalue : Int
  /-- The first message for the process when the last receive was made. -/
  offered : Option InterfaceMessage

/-- The kernel, the calls of `psInterfaceRecieve` that have not returned and those that have, and
the interfaces deleted so far. -/
structure ReceiveState where
  kernel : Kernel
  pending : List ReceiveCall
  returned : List ReceiveReturn
  deleted : List ℕ

/-- Any call of the kernel, or the next step of `psInterfaceRecieve` in the current thread. -/
inductive ReceiveAct where
  | call (c : Call)
  | receive (um : UserMem) (name : CString) (buf size sizeout : ℕ)
  | wait
  | retry (um : UserMem)

/-- The interface called `name`. -/
def Kernel.addrOf (s : Kernel) (name : CString) : Option ℕ :=
  (s.intfaces.find? fun i => i.name = name).map Interface.addr

/-- The first message of the interface `name` for the current process. -/
def Kernel.offered (s : Kernel) (name : CString) : Option InterfaceMessage :=
  s.currentps.bind fun pid =>
    (s.intfaces.find? fun i => i.name = name).bind fun i => i.messages.find? (i.delivers pid)

/-- The record of the deleted interfaces after a call with result `r`. -/
def Call.noteDeleted (c : Call) (r : Int) (s : Kernel) (deleted : List ℕ) : List ℕ :=
  match c with
  | .interfaceDelete name _ => if r = 0 then (s.addrOf name).toList ++ deleted else deleted
  | _ => deleted

namespace ReceiveState

/-- The call that the current thread is in, before or after `psInterfaceWait`. -/
def current (st : ReceiveState) (waited : Bool) : Option ReceiveCall :=
  st.pending.find? fun q => q.tid = st.kernel.currenttid ∧ q.waited = waited

/-- The calls of the other threads. -/
def others (st : ReceiveState) : List ReceiveCall :=
  st.pending.filter fun q => q.tid ≠ st.kernel.currenttid

/-- `psInterfaceRecieve`, step by step, among the other calls of the kernel. -/
def exec (st : ReceiveState) : ReceiveAct → Except Fault ReceiveState
  | .call c => do
      let (r, s) ← GalaxyOS.exec st.kernel c
      .ok { st with kernel := s, deleted := c.noteDeleted r st.kernel st.deleted }
  | .receive um name buf size sizeout => do
      let q := ⟨st.kernel.currenttid, name, buf, size, sizeout, st.kernel.addrOf name, false⟩
      let (retvalue, s) ← psInterfaceRecieveNB st.kernel um name buf size sizeout
      if retvalue = -EAGAIN then .ok { st with kernel := s, pending := q :: st.pending }
      else .ok { st with
        kernel := s, returned := ⟨q, retvalue, st.kernel.offered name⟩ :: st.returned }
  | .wait =>
      match st.current false with
      | none => .ok st
      | some q => do
          -- the result is not looked at
          let (_, s) ← psInterfaceWait st.kernel q.name
          .ok { st with kernel := s, pending := { q with waited := true } :: st.others }
  | .retry um =>
      match st.current true with
      | none => .ok st
      | some q => do
          let (retvalue, s) ← psInterfaceRecieveNB st.kernel um q.name q.buf q.size q.sizeout
          .ok { st with
            kernel := s, pending := st.others
            returned := ⟨q, retvalue, st.kernel.offered q.name⟩ :: st.returned }

end ReceiveState

def ReceiveStep (st : ReceiveState) (a : ReceiveAct) (st' : ReceiveState) : Prop := st.exec a = .ok st'

def ReceiveStart (st : ReceiveState) : Prop :=
  Started st.kernel ∧ st.pending = [] ∧ st.returned = [] ∧ st.deleted = []

/-- The call has returned with a message, or because its interface has been deleted. -/
def ReceiveReturn.Blocking (x : ReceiveReturn) (deleted : List ℕ) : Prop :=
  (∃ m ∈ x.offered, x.retvalue = m.sender ∧ 0 ≤ m.sender) ∨
  x.retvalue = -ENOENT ∧ ∃ addr ∈ x.call.intface, addr ∈ deleted

instance (x : ReceiveReturn) (deleted : List ℕ) : Decidable (x.Blocking deleted) :=
  inferInstanceAs (Decidable (_ ∨ _))

/-! ### What callers promise -/

/-- The buffers are memory of the process. -/
def ValidBuffers (um : UserMem) (buf size sizeout : ℕ) : Prop :=
  (buf + size ≤ kernelStart ∧ ∀ k < size, um.writable (buf + k) = true) ∧
  sizeout + 4 ≤ kernelStart ∧ ∀ k < 4, um.writable (sizeout + k) = true

instance (um : UserMem) (buf size sizeout : ℕ) : Decidable (ValidBuffers um buf size sizeout) :=
  inferInstanceAs (Decidable (_ ∧ _))

/-- The current thread can make a system call. -/
def Kernel.Running (s : Kernel) : Prop := ∃ t ∈ s.threads s.currenttid, t.state = .running

instance (s : Kernel) : Decidable s.Running :=
  inferInstanceAs (Decidable (∃ t ∈ s.threads s.currenttid, t.state = .running))

/-- `psInterfaceRecieve` is called by running threads for an existing interface and with valid
buffers, and a thread makes no other system call before it has returned. -/
def ReceiveAct.Allowed (st : ReceiveState) : ReceiveAct → Prop
  | .call c => c.SenderPid ∧ c.ByLiving st.kernel ∧
      ∀ tid ∈ c.actor st.kernel, ∀ q ∈ st.pending, q.tid ≠ tid
  | .receive um name buf size sizeout => st.kernel.Running ∧
      (∃ i ∈ st.kernel.intfaces, i.name = name) ∧ ValidBuffers um buf size sizeout
  | .wait => st.kernel.Running
  | .retry um => st.kernel.Running ∧
      ∀ q ∈ st.current true, ValidBuffers um q.buf q.size q.sizeout

instance (st : ReceiveState) : ∀ a : ReceiveAct, Decidable (a.Allowed st)
  | .call _ => inferInstanceAs (Decidable (_ ∧ _))
  | .receive .. => inferInstanceAs (Decidable (_ ∧ _))
  | .wait => inferInstanceAs (Decidable st.kernel.Running)
  | .retry _ => inferInstanceAs (Decidable (_ ∧ _))

/-! ### Whose message it is -/

/-- The arguments of `interface_recv`. -/
structure RecvRequest where
  um : UserMem
  name : CString
  recvpid : Int
  buf : ℕ
  size : ℕ
  sizeout : ℕ

/-- The receive that a call makes. -/
def Call.request : Call → Option RecvRequest
  | .interfaceRecv um name recvpid buf size sizeout => some ⟨um, name, recvpid, buf, size, sizeout⟩
  | _ => none

/-- The name under which the call creates an interface. -/
def Call.newName : Call → Option CString
  | .interfaceCreate name _ _ => some name
  | _ => none

/-- The call of the kernel that an act comes down to. -/
def ReceiveAct.kernelCall (st : ReceiveState) : ReceiveAct → Option Call
  | .call c => some c
  | .receive um name buf size sizeout => st.kernel.currentps.map fun pid =>
      .interfaceRecv um name pid buf size sizeout
  | .wait => (st.current false).map fun q => .interfaceWait q.name st.kernel.currenttid
  | .retry um => (st.current true).bind fun q => st.kernel.currentps.map fun pid =>
      .interfaceRecv um q.name pid q.buf q.size q.sizeout

/-- The calls of `psInterfaceRecieve` that an act of another thread can disturb. -/
def ReceiveAct.bystanders (st : ReceiveState) : ReceiveAct → List ReceiveCall
  | .call _ | .receive .. => st.pending
  | .wait | .retry _ => st.others

/-- The thread is neither dead nor waiting for a message. -/
def Thread.Awake (t : Thread) : Prop := t.state ≠ .dead ∧ (t.state = .waiting → t.waitMsg = none)

instance (t : Thread) : Decidable t.Awake :=
  inferInstanceAs (Decidable (t.state ≠ .dead ∧ (t.state = .waiting → t.waitMsg = none)))

/-- If the receive takes a message, then there is another one for `t`. -/
def RecvRequest.Leaves (rq : RecvRequest) (s : Kernel) (t : Thread) : Prop :=
  ∀ i ∈ s.intfaces, i.name = rq.name → ∀ mid ∈ i.messages.findIdx? (i.delivers rq.recvpid),
    ∀ m ∈ i.messages[mid]?, (recvCopy rq.um m rq.buf rq.size rq.sizeout).1 = true →
      interfaceHasMsg { i with messages := i.messages.eraseIdx mid } t.pid = true

/-- The call of the kernel takes no message away from `q`, which waits no more, and does not
replace the interface of `q` by a new one. -/
def Call.Spares (c : Call) (s : Kernel) (q : ReceiveCall) : Prop :=
  ∀ t ∈ s.threads q.tid, q.waited = true → t.Awake →
    (∀ rq ∈ c.request, rq.name = q.name → rq.Leaves s t) ∧
    ∀ name ∈ c.newName, name = q.name → ∃ i ∈ s.intfaces, i.name = name

/-- No resumed call loses its message or its interface to another thread. -/
def ReceiveAct.Spares (st : ReceiveState) (a : ReceiveAct) : Prop :=
  ∀ c ∈ a.kernelCall st, ∀ q ∈ a.bystanders st, c.Spares st.kernel q

instance (rq : RecvRequest) (s : Kernel) (t : Thread) : Decidable (rq.Leaves s t) :=
  inferInstanceAs (Decidable (∀ i ∈ s.intfaces, i.name = rq.name → _))

instance (c : Call) (s : Kernel) (q : ReceiveCall) : Decidable (c.Spares s q) :=
  inferInstanceAs (Decidable (∀ t ∈ s.threads q.tid, _))

instance (st : ReceiveState) (a : ReceiveAct) : Decidable (a.Spares st) :=
  inferInstanceAs (Decidable (∀ c ∈ a.kernelCall st, _))

/-! ### The outcome of a receive -/

/-- What `interface_recv` finds, and what it returns and leaves then. -/
inductive RecvOutcome (s : Kernel) (um : UserMem) (name : CString) (recvpid : Int)
    (buf size sizeout : ℕ) : Int → Kernel → Prop
  | missing : (∀ i ∈ s.intfaces, i.name ≠ name) →
      RecvOutcome s um name recvpid buf size sizeout (-ENOENT) s
  | empty {i : Interface} : i ∈ s.intfaces → i.name = name → interfaceHasMsg i recvpid = false →
      RecvOutcome s um name recvpid buf size sizeout (-EAGAIN) s
  | faulted {m : InterfaceMessage} : (recvCopy um m buf size sizeout).1 = false →
      RecvOutcome s um name recvpid buf size sizeout (-EFAULT) s
  | taken {qid mid : ℕ} {i : Interface} {m : InterfaceMessage} : s.intfaces[qid]? = some i →
      i.name = name → i.messages.findIdx? (i.delivers recvpid) = some mid →
      i.messages[mid]? = some m → (recvCopy um m buf size sizeout).1 = true →
      RecvOutcome s um name recvpid buf size sizeout m.sender
        (s.setInterface qid { i with messages := i.messages.eraseIdx mid })

theorem interfaceRecv_outcome (s : Kernel) (um : UserMem) (name : CString) (recvpid : Int)
    (buf size sizeout : ℕ) : RecvOutcome s um name recvpid buf size sizeout
      (interfaceRecv s um name recvpid buf size sizeout).1
      (interfaceRecv s um name recvpid buf size sizeout).2.2 := by
  unfold interfaceRecv
  cases hf : interfaceFind s.intfaces name with
  | error e =>
      obtain rfl : e = -ENOENT := by
        unfold interfaceFind at hf
        cases hidx : s.intfaces.findIdx? (fun i => i.name = name) with
        | none =>
            rw [hidx] at hf
            exact (Except.error.inj hf).symm
        | some qid =>
            rw [hidx] at hf
            cases hf
      exact .missing (interfaceFind_error hf).2
  | ok qid =>
      obtain ⟨i, hi, hname⟩ := interfaceFind_ok hf
      simp only [hi]
      cases hmid : i.messages.findIdx? (i.delivers recvpid) with
      | none =>
          refine .empty (List.mem_of_getElem? hi) hname (List.any_eq_false.mpr fun m hm => ?_)
          simp [List.findIdx?_eq_none_iff.mp hmid m hm]
      | some mid =>
          obtain ⟨hlt, -, -⟩ := List.findIdx?_eq_some_iff_getElem.mp hmid
          have hm := List.getElem?_eq_getElem hlt
          simp only [hm]
          cases hcopy : recvCopy um i.messages[mid] buf size sizeout with
          | mk ok um' =>
              cases ok with
              | false => exact .faulted (congrArg Prod.fst hcopy)
              | true => exact .taken hi hname hmid hm (congrArg Prod.fst hcopy)

theorem safecpyToUserLoop_valid : ∀ (data : List UInt8) (um : UserMem) (dst : ℕ),
    (∀ k < data.length, um.writable (dst + k) = true) →
    (safecpyToUserLoop um dst data).1 = 0 ∧ (safecpyToUserLoop um dst data).2.writable = um.writable
  | [], um, dst, _ => ⟨rfl, rfl⟩
  | b :: data, um, dst, h => by
      have hfirst : um.writable dst = true := h 0 (Nat.zero_lt_succ _)
      have hrest := safecpyToUserLoop_valid data
        { um with byte := Function.update um.byte dst b, touched := dst :: um.touched } (dst + 1)
        fun k hk => by
          rw [Nat.add_assoc, Nat.add_comm 1 k]
          exact h (k + 1) (Nat.succ_lt_succ hk)
      unfold safecpyToUserLoop UserMem.store
      rw [if_pos hfirst]
      exact hrest

theorem safecpyToUser_valid {um : UserMem} {dst n : ℕ} {data : List UInt8} (hn : data.length ≤ n)
    (hend : dst + n ≤ kernelStart) (h : ∀ k < n, um.writable (dst + k) = true) :
    (safecpyToUser um dst data).1 = 0 ∧ (safecpyToUser um dst data).2.writable = um.writable := by
  unfold safecpyToUser
  split_ifs with h0 hc
  · exact ⟨rfl, rfl⟩
  · have huser : safecpyCheckUser dst data.length = true :=
      safecpyCheckUser_iff.mpr ⟨by omega, by omega⟩
    simp [huser] at hc
  · exact safecpyToUserLoop_valid data um dst fun k hk => h k (Nat.lt_of_lt_of_le hk hn)

/-- Copies to valid buffers do not fail. -/
theorem ValidBuffers.copies {um : UserMem} {buf size sizeout : ℕ}
    (h : ValidBuffers um buf size sizeout) (m : InterfaceMessage) :
    (recvCopy um m buf size sizeout).1 = true := by
  have hlen : (m.buf.take (recvSize size m)).length ≤ size := by
    rw [List.length_take]
    unfold recvSize
    split_ifs <;> omega
  obtain ⟨hdata, hwritable⟩ := safecpyToUser_valid hlen h.1.1 h.1.2
  unfold recvCopy
  cases hcopy : safecpyToUser um buf (m.buf.take (recvSize size m)) with
  | mk r um₁ =>
      rw [hcopy] at hdata hwritable
      have hlast : ∀ k < 4, um₁.writable (sizeout + k) = true := fun k hk => by
        rw [hwritable]
        exact h.2.2 k hk
      have hfour : (sizeBytes (recvSize size m)).length ≤ 4 := Nat.le_refl 4
      have hsize := safecpyToUser_valid hfour h.2.1 hlast
      simp only at hdata
      simp [hdata, hsize.1]

/-! ### The current thread -/

/-- `currentps` is the process of the current thread. -/
structure TurnExact (s : Kernel) : Prop where
  lastTid : s.currenttid < s.lastTid
  pid : ∀ t, s.threads s.currenttid = some t → ∀ pid ∈ s.currentps, pid = t.pid

/-- No thread changes its process. -/
theorem Kernel.Keeps.pids {s s' : Kernel} (h : s.Keeps s') :
    s.ThreadsStep (fun t t' => t'.pid = t.pid) s' :=
  (Kernel.ThreadsStep.of_carried h.threads h.lastTid).mono fun _ _ hplace => hplace.1

theorem TurnExact.step {s s' : Kernel} (h : TurnExact s)
    (hthreads : s.ThreadsStep (fun t t' => t'.pid = t.pid) s')
    (hturn : s'.currenttid = s.currenttid ∧ s'.currentps = s.currentps) : TurnExact s' := by
  obtain ⟨hcur, hps⟩ := hturn
  constructor
  · rw [hcur]
    exact Int.lt_of_lt_of_le h.lastTid hthreads.lastTid
  · intro t' ht' pid hpid
    rw [hcur] at ht'
    rw [hps] at hpid
    rcases hthreads.slots _ t' ht' with ⟨t, ht, hp⟩ | ⟨hnew, -⟩
    · rw [hp]
      exact h.pid t ht pid hpid
    · exact absurd h.lastTid (Int.not_lt.mpr hnew)

theorem PickEffect.turnExact {s s' : Kernel} {tid : Int} {t : Thread} (hs : Tables s)
    (ht : s.threads tid = some t) (h : PickEffect s tid t s') (hturn : TurnExact s) :
    TurnExact s' := by
  have hlast : tid < s.lastTid := (hs.tid tid t ht).1.2
  have hpids := (h.keeps ht).pids
  cases h with
  | select mem hstate =>
      refine ⟨hlast, fun t' ht' pid hpid => ?_⟩
      obtain rfl := Option.some.inj (ht.symm.trans ht')
      obtain ⟨p, -, rfl⟩ := Option.map_eq_some_iff.mp hpid
      rfl
  | resume p mem frame =>
      refine ⟨hlast, fun t' ht' pid hpid => ?_⟩
      simp only [Kernel.resumed, Function.update_self, Option.some.injEq] at ht'
      obtain ⟨p, -, rfl⟩ := Option.map_eq_some_iff.mp hpid
      rw [← ht']
  | skip => exact hturn
  | message | stale | start | load | exit | dead => exact hturn.step hpids ⟨rfl, rfl⟩

theorem TurnExact.exec {s s' : Kernel} {c : Call} {r : Int} (hs : Tables s) (h : TurnExact s)
    (hexec : exec s c = .ok (r, s')) : TurnExact s' := by
  cases c with
  | pickNext =>
      have hneg : (-1 : Int) < 0 := by decide
      have hstart : TurnExact { s with currenttid := -1 } := by
        refine ⟨Int.lt_of_lt_of_le hneg hs.lastTid, fun t ht => ?_⟩
        exact absurd (hs.tid _ t ht).1.1 (Int.not_le.mpr hneg)
      have hinv : Tables s' ∧ TurnExact s' := by
        refine schedPickNext_inv (I := fun s => Tables s ∧ TurnExact s)
          ⟨hs.keeps ⟨rfl, rfl, .refl s.processes, .refl s.threads⟩, hstart⟩ ?_ (heads_true _ _)
          (noResult_ok hexec)
        rintro s loop s₂ ⟨hs, h⟩ - hd
        refine ⟨hs.round hd, ?_⟩
        obtain ⟨t, ht, -, heff⟩ := pickDispatch_ok hd
        obtain ⟨l, hl⟩ := pickFetch_eq s loop
        rw [hl] at ht heff
        have hmoved : Tables { s with queueLoc := l } :=
          hs.keeps ⟨rfl, rfl, .refl s.processes, .refl s.threads⟩
        exact heff.turnExact hmoved ht ⟨h.lastTid, h.pid⟩
      exact hinv.2
  | interfaceDelete name pid =>
      have hturn := (exec_frame hs hexec).turn (by simp)
      obtain rfl := (exec_pair hexec).2
      exact h.step ((interfaceDelete_follows s name pid).mono fun _ _ hf => hf.pid) hturn
  | interfaceWait name tid =>
      have hturn := (exec_frame hs hexec).turn (by simp)
      rcases interfaceWait_ok hexec with ⟨rfl, -⟩ | ⟨-, t, addr, ht, rfl⟩
      · exact h
      · have hkeeps : s.Keeps (s.setThread tid
            (some { t with state := .waiting, wait := 0, waitMsg := some addr })) :=
          Kernel.setThread_keeps ht rfl rfl
        exact h.step hkeeps.pids hturn
  | _ =>
      refine h.step ((exec_keeps hs rfl hexec).mono fun _ _ hr => hr.1.pid) ?_
      exact (exec_frame hs hexec).turn (by simp)

theorem TurnExact.started {s : Kernel} (h : Started s) : TurnExact s := by
  have hs := Tables.started h
  obtain ⟨mem, eflags, idleLoop, h⟩ := h
  simp only [schedInit, bind_ok, Prod.exists, Except.ok.injEq] at h
  obtain ⟨pid, s₁, hcreate, tid, s₂, hthread, rfl⟩ := h
  obtain ⟨-, p, mem', -, rfl⟩ := schedCreateProcess_ok hcreate
  obtain ⟨-, -, p', t, mem'', -, -, rfl⟩ := schedCreateThread_ok hthread
  have hneg : (-1 : Int) < 0 := by decide
  exact ⟨Int.lt_of_lt_of_le hneg hs.lastTid, fun t ht pid hpid => by cases hpid⟩

/-- What holds of the kernel in every run in which the senders of messages are pids. -/
structure Kernel.Sound (s : Kernel) : Prop where
  tables : Tables s
  addrs : AddrsValid s
  turn : TurnExact s
  names : (s.intfaces.map Interface.name).Nodup
  senders : SendersValid s

theorem reach_sound {s : Kernel} (h : Reach Step (fun _ c => c.SenderPid) Started s) : s.Sound := by
  have hinv : Tables s ∧ AddrsValid s ∧ TurnExact s := by
    refine h.invariant (I := fun s => Tables s ∧ AddrsValid s ∧ TurnExact s) ?_ ?_
    · intro s hs
      refine ⟨.started hs, ⟨?_, ?_⟩, .started hs⟩
      all_goals simp [started_intfaces hs]
    · rintro s c s' ⟨hs, haddrs, hturn⟩ - ⟨r, hexec⟩
      exact ⟨hs.exec hexec, (exec_interfaces hs hexec).addrsValid haddrs, hturn.exec hs hexec⟩
  exact ⟨hinv.1, hinv.2.1, hinv.2.2, (reach_bounded h).2.names,
    reach_sendersValid (fun _ _ hok => hok) h⟩

/-! ### Messages that stay -/

/-- If there is an interface called `name`, then it has a message for `pid`. -/
def Kernel.Answered (s : Kernel) (name : CString) (pid : Int) : Prop :=
  ∀ i ∈ s.intfaces, i.name = name → interfaceHasMsg i pid = true

section Answered

variable {s s' : Kernel} {c : Call} {r : Int} {q : ReceiveCall} {t : Thread}

theorem Kernel.Answered.set {name : CString} {pid : Int} {qid : ℕ} {i' : Interface}
    (h : s.Answered name pid) (hmsg : i'.name = name → interfaceHasMsg i' pid = true) :
    (s.setInterface qid i').Answered name pid := by
  intro j hj hjname
  cases List.mem_or_eq_of_mem_set hj with
  | inl hj => exact h j hj hjname
  | inr hj =>
      subst hj
      exact hmsg hjname

theorem Kernel.Answered.received {um : UserMem} {name : CString} {recvpid : Int}
    {buf size sizeout : ℕ} (h : s.Answered q.name t.pid)
    (hleaves : name = q.name → RecvRequest.Leaves ⟨um, name, recvpid, buf, size, sizeout⟩ s t)
    (hout : RecvOutcome s um name recvpid buf size sizeout r s') : s'.Answered q.name t.pid := by
  cases hout with
  | missing | empty | faulted => exact h
  | taken hi hname hmid hm hcopy =>
      refine h.set fun hsame => ?_
      exact hleaves (hname.symm.trans hsame) _ (List.mem_of_getElem? hi) hname _ hmid _ hm hcopy

/-- A message that waits for a resumed thread stays, if the call spares it. -/
theorem Kernel.Answered.exec (hs : Tables s) (h : s.Answered q.name t.pid)
    (hleaves : ∀ rq ∈ c.request, rq.name = q.name → rq.Leaves s t)
    (hnew : ∀ name ∈ c.newName, name = q.name → ∃ i ∈ s.intfaces, i.name = name)
    (hexec : exec s c = .ok (r, s')) : s'.Answered q.name t.pid := by
  cases exec_interfaces hs hexec with
  | same hr hsame =>
      unfold Kernel.Answered
      rw [hsame.intfaces]
      exact h
  | @created name pid flags hno hmax hs' =>
      subst hs'
      intro i hi hname
      cases List.mem_append.mp hi with
      | inl hi => exact h i hi hname
      | inr hi =>
          obtain rfl := List.mem_singleton.mp hi
          obtain ⟨j, hj, hjname⟩ := hnew name rfl hname
          exact absurd hjname (hno j hj)
  | deleted hi hs' =>
      subst hs'
      exact fun i hi => h i (List.mem_of_mem_eraseIdx hi)
  | @changed _ _ qid i i' hi hstep hs' =>
      cases hstep with
      | faulted =>
          subst hs'
          exact h.set (h i (List.mem_of_getElem? hi))
      | sent =>
          subst hs'
          refine h.set fun hname => ?_
          have hmsg := h i (List.mem_of_getElem? hi) hname
          exact List.any_append.trans (Bool.or_eq_true_iff.mpr (.inl hmsg))
      | @received um recvpid buf size sizeOut mid m hm hdel =>
          obtain ⟨hr, rfl⟩ := exec_pair hexec
          exact h.received (hleaves _ rfl)
            (interfaceRecv_outcome s um i.name recvpid buf size sizeOut)

/-- Unless it is deleted, an interface keeps its address and its name. -/
theorem InterfaceStep.persists (h : InterfaceStep s s' c r)
    (hnames : (s.intfaces.map Interface.name).Nodup) {i : Interface} (hi : i ∈ s.intfaces) :
    (∃ i' ∈ s'.intfaces, i'.addr = i.addr ∧ i'.name = i.name) ∨
    ∃ pid, c = .interfaceDelete i.name pid ∧ r = 0 := by
  cases h with
  | same hr hsame => exact .inl ⟨i, hsame.intfaces ▸ hi, rfl, rfl⟩
  | created hno hmax hs' =>
      subst hs'
      exact .inl ⟨i, List.mem_append_left _ hi, rfl, rfl⟩
  | @deleted pid qid j hj hs' =>
      subst hs'
      cases (eraseIdx_keys hnames hj).2.2 i hi with
      | inl hij =>
          subst hij
          exact .inr ⟨pid, rfl, rfl⟩
      | inr hi => exact .inl ⟨i, hi, rfl, rfl⟩
  | @changed _ _ qid j j' hj hstep hs' =>
      subst hs'
      obtain ⟨-, hmem, -, hall⟩ := set_keys hnames hj hstep.name_eq
      cases hall i hi with
      | inl hij =>
          subst hij
          exact .inl ⟨j', hmem, hstep.addr_eq, hstep.name_eq⟩
      | inr hi => exact .inl ⟨i, hi, rfl, rfl⟩

end Answered

/-! ### Calls that wait for a message -/

theorem Thread.Awake.of_not_waitsOn {t : Thread} (halive : t.state ≠ .dead)
    (h : ∀ addr, ¬t.WaitsOn addr) : t.Awake := by
  refine ⟨halive, fun hstate => ?_⟩
  cases hmsg : t.waitMsg with
  | none => rfl
  | some addr => exact absurd ⟨hstate, hmsg⟩ (h addr)

/-- Unless it has ended, the thread waits for a message of its interface, or it does not wait and
finds one. -/
def ReceiveCall.Awaited (q : ReceiveCall) (s : Kernel) : Prop :=
  ∀ t, s.threads q.tid = some t → t.state ≠ .dead →
    (∃ i ∈ s.intfaces, i.name = q.name ∧ t.WaitsOn i.addr) ∨
    (∀ addr, ¬t.WaitsOn addr) ∧ s.Answered q.name t.pid

section Awaited

variable {s s' : Kernel} {c : Call} {r : Int} {q : ReceiveCall}

/-- A thread that does not wait, and does not begin to, finds its message later, too. -/
theorem Thread.Follows.awake {t t' : Thread} (h : t.Follows t') (hno : ∀ addr, ¬t.WaitsOn addr)
    (hans : s'.Answered q.name t.pid) :
    (∀ addr, ¬t'.WaitsOn addr) ∧ s'.Answered q.name t'.pid := by
  refine ⟨fun addr hw => hno addr (h.waits addr hw ▸ hw), ?_⟩
  rw [h.pid]
  exact hans

theorem ReceiveCall.Awaited.round {s₂ : Kernel} {loop : Bool} (haddrs : AddrsValid s)
    (hnames : (s.intfaces.map Interface.name).Nodup) (h : q.Awaited s)
    (hd : pickDispatch (pickFetch s loop).2.1 (pickFetch s loop).1 = .ok s₂) : q.Awaited s₂ := by
  obtain ⟨t₀, ht₀, -, heff⟩ := pickDispatch_ok hd
  have hsame := (pickFetch_sameInterfaces s loop).trans heff.sameInterfaces
  obtain ⟨l, hl⟩ := pickFetch_eq s loop
  intro t' ht' halive
  unfold Kernel.Answered
  rw [hsame.intfaces]
  by_cases htid : q.tid = (pickFetch s loop).1
  · rw [← htid, hl] at ht₀ heff hd
    by_cases hdead : t₀.state = .dead
    · rw [heff.freed hdead] at ht'
      simp [Kernel.freed] at ht'
    · rcases h t₀ ht₀ hdead with ⟨i, hi, hname, hw⟩ | ⟨hno, hans⟩
      · -- it goes on as soon as the interface has a message for it
        have hat : Kernel.interfaceAt { s with queueLoc := l } i.addr = .ok i :=
          haddrs.interfaceAt hi
        rw [pickDispatch_waitsOn ht₀ hw, hat, ok_bind] at hd
        obtain ⟨_, -, hd⟩ := bind_ok.mp hd
        split_ifs at hd with hmsg
        · obtain rfl := Except.ok.inj hd
          rw [Kernel.setThread_threads, Function.update_self, Option.some.injEq] at ht'
          subst ht'
          refine .inr ⟨fun addr hw' => (by cases hw'.1), fun j hj hjname => ?_⟩
          obtain rfl := List.inj_on_of_nodup_map hnames hj hi (hjname.trans hname.symm)
          exact hmsg
        · obtain rfl := Except.ok.inj hd
          obtain rfl : t₀ = t' := Option.some.inj (ht₀.symm.trans ht')
          exact .inl ⟨i, hi, hname, hw⟩
      · obtain ⟨t, ht, hf⟩ := heff.follows ht₀ q.tid t' ht'
        obtain rfl : t₀ = t := Option.some.inj (ht₀.symm.trans ht)
        have hlater : (∀ addr, ¬t'.WaitsOn addr) ∧ s.Answered q.name t'.pid := hf.awake hno hans
        exact .inr hlater
  · rw [heff.other htid, hl] at ht'
    exact h t' ht' halive

/-- The deletion of its interface wakes a thread, which then finds nothing by that name. -/
theorem ReceiveCall.Awaited.deleted {qid : ℕ} {i : Interface} (haddrs : AddrsValid s)
    (hnames : (s.intfaces.map Interface.name).Nodup) (hi : s.intfaces[qid]? = some i)
    (h : q.Awaited s) : q.Awaited { s with
      threads := fun tid => (s.threads tid).map (Thread.unwait i.addr)
      intfaces := s.intfaces.eraseIdx qid } := by
  intro t' ht' halive
  obtain ⟨t, ht, rfl⟩ := Option.map_eq_some_iff.mp ht'
  have halive' : t.state ≠ .dead := by
    intro hdead
    rw [Thread.unwait, if_neg (by simp [hdead])] at halive
    exact halive hdead
  rcases h t ht halive' with ⟨j, hj, hjname, hw⟩ | ⟨hno, hans⟩
  · obtain ⟨-, hold, hall⟩ := eraseIdx_keys hnames hi
    cases hall j hj with
    | inl hji =>
        subst hji
        have hwoken : t.unwait j.addr = { t with waitMsg := none, wait := 0, state := .running } :=
          if_pos hw
        rw [hwoken]
        refine .inr ⟨fun addr hw' => (by cases hw'.1), fun k hk hkname => ?_⟩
        exact absurd (hkname.trans hjname.symm) (hold k hk).2
    | inr hj =>
        have hne : j.addr ≠ i.addr := ((eraseIdx_keys haddrs.nodup hi).2.1 j hj).2
        rw [Thread.unwait, if_neg fun hu => hne (Option.some.inj (hw.2.symm.trans hu.2))]
        exact .inl ⟨j, hj, hjname, hw⟩
  · exact .inr ((Thread.Follows.unwait i.addr t).awake hno fun j hj =>
      hans j (List.mem_of_mem_eraseIdx hj))

theorem ReceiveCall.Awaited.exec (hs : s.Sound) (h : q.Awaited s) (htid : q.tid < s.lastTid)
    (hwaited : q.waited = true) (hok : c.ByLiving s) (hactor : c.actor s ≠ some q.tid)
    (hspares : c.Spares s q) (hexec : exec s c = .ok (r, s')) : q.Awaited s' := by
  -- what another thread does to the interfaces
  have hans : ∀ t, s.threads q.tid = some t → t.state ≠ .dead → (∀ addr, ¬t.WaitsOn addr) →
      s.Answered q.name t.pid → s'.Answered q.name t.pid := by
    intro t ht halive hno hans
    obtain ⟨hleaves, hnew⟩ := hspares t ht hwaited (.of_not_waitsOn halive hno)
    exact hans.exec hs.tables hleaves hnew hexec
  have hpersists := fun i (hi : i ∈ s.intfaces) =>
    (exec_interfaces hs.tables hexec).persists hs.names hi
  cases c with
  | interfaceWait name tid =>
      rcases interfaceWait_ok hexec with ⟨rfl, -⟩ | ⟨-, t₁, addr₁, -, rfl⟩
      · exact h
      · intro t ht
        have hne : q.tid ≠ tid := fun he => hactor (congrArg some he.symm)
        rw [Kernel.setThread_threads, Function.update_of_ne hne] at ht
        exact h t ht
  | interfaceDelete name pid =>
      obtain ⟨hr, rfl⟩ := exec_pair hexec
      rcases interfaceDelete_cases s name pid with ⟨-, hsame⟩ | ⟨-, qid, i, hi, rfl, hdel⟩
      · rw [hsame]
        exact h
      · rw [hdel]
        exact h.deleted hs.addrs hs.names hi
  | pickNext =>
      have hinv : AddrsValid s' ∧ (s'.intfaces.map Interface.name).Nodup ∧ q.Awaited s' := by
        refine schedPickNext_inv
          (I := fun s => AddrsValid s ∧ (s.intfaces.map Interface.name).Nodup ∧ q.Awaited s)
          ⟨hs.addrs.same ⟨rfl, rfl, rfl⟩, hs.names, h⟩ ?_ (heads_true _ _) (noResult_ok hexec)
        rintro s loop s₂ ⟨haddrs, hnames, h⟩ - hd
        obtain ⟨t₀, -, -, heff⟩ := pickDispatch_ok hd
        have hsame := (pickFetch_sameInterfaces s loop).trans heff.sameInterfaces
        exact ⟨haddrs.same hsame, hsame.intfaces ▸ hnames, h.round haddrs hnames hd⟩
      exact hinv.2.2
  | _ =>
      intro t' ht' halive
      rcases (exec_keeps hs.tables rfl hexec).slots q.tid t' ht' with ⟨t, ht, hf, hsl⟩ | ⟨hnew, -⟩
      · have hsleeps := hsl hok
        have halive' : t.state ≠ .dead := fun hdead => halive (hsleeps.dead hdead)
        rcases h t ht halive' with ⟨i, hi, hname, hw⟩ | ⟨hno, hanswered⟩
        · obtain rfl : t' = t := (hsleeps.asleep i.addr hw).resolve_right halive
          rcases hpersists i hi with ⟨i', hi', haddr, hname'⟩ | ⟨pid, hc, -⟩
          · exact .inl ⟨i', hi', hname'.trans hname, haddr ▸ hw⟩
          · cases hc
        · exact .inr (hf.awake hno (hans t ht halive' hno hanswered))
      · exact absurd htid (Int.not_lt.mpr hnew)

end Awaited

/-! ### What the receives of `psInterfaceRecieve` return -/

section Outcome

variable {s s' : Kernel} {um : UserMem} {name : CString} {buf size sizeout : ℕ} {pid r : Int}

theorem find_name (hnames : (s.intfaces.map Interface.name).Nodup) {i : Interface}
    (hi : i ∈ s.intfaces) : (s.intfaces.find? fun j => j.name = i.name) = some i := by
  cases hf : s.intfaces.find? fun j => j.name = i.name with
  | none =>
      have hno := List.find?_eq_none.mp hf i hi
      simp at hno
  | some j =>
      have hname : j.name = i.name := by simpa using List.find?_some hf
      rw [List.inj_on_of_nodup_map hnames (List.mem_of_find?_eq_some hf) hi hname]

theorem psInterfaceRecieveNB_ok (hs : Tables s)
    (h : psInterfaceRecieveNB s um name buf size sizeout = .ok (r, s')) :
    ∃ pid, s.currentps = some pid ∧
      exec s (.interfaceRecv um name pid buf size sizeout) = .ok (r, s') := by
  obtain ⟨p, hp, hexec⟩ := bind_ok.mp h
  obtain ⟨pid, hps, hpid⟩ := Kernel.currentProcess_ok.mp hp
  rw [(hs.pid pid p hpid).1] at hexec
  exact ⟨pid, hps, hexec⟩

/-- With valid buffers a receive returns the sender of the message it is offered, unless there is
no message or no interface. -/
theorem recv_valid (hs : s.Sound) (hps : s.currentps = some pid)
    (hvalid : ValidBuffers um buf size sizeout)
    (h : exec s (.interfaceRecv um name pid buf size sizeout) = .ok (r, s')) :
    (∃ m ∈ s.offered name, r = m.sender ∧ 0 ≤ m.sender) ∨
    (r = -ENOENT ∧ ∀ i ∈ s.intfaces, i.name ≠ name) ∨
    r = -EAGAIN ∧ ∃ i ∈ s.intfaces, i.name = name ∧ interfaceHasMsg i pid = false := by
  obtain ⟨rfl, rfl⟩ := exec_pair h
  have hout := interfaceRecv_outcome s um name pid buf size sizeout
  generalize (interfaceRecv s um name pid buf size sizeout).1 = r at hout ⊢
  generalize (interfaceRecv s um name pid buf size sizeout).2.2 = s' at hout
  cases hout with
  | missing hno => exact .inr (.inl ⟨rfl, hno⟩)
  | empty hi hname hmsg => exact .inr (.inr ⟨rfl, _, hi, hname, hmsg⟩)
  | @faulted m hcopy =>
      rw [hvalid.copies m] at hcopy
      cases hcopy
  | @taken qid mid i m hi hname hmid hm hcopy =>
      have hmem := List.mem_of_getElem? hi
      refine .inl ⟨m, ?_, rfl, hs.senders i hmem m (List.mem_of_getElem? hm)⟩
      have hfind : i.messages.find? (i.delivers pid) = some m := by
        rw [List.find?_eq_bind_findIdx?_getElem?, hmid]
        exact hm
      unfold Kernel.offered
      rw [hps, Option.bind_some, ← hname, find_name hs.names hmem, Option.bind_some, hfind]
      rfl

end Outcome

/-! ### Runs -/

/-- The interface of the call exists, or has been deleted. -/
structure ReceiveCall.Registered (q : ReceiveCall) (s : Kernel) (deleted : List ℕ) : Prop where
  lastTid : q.tid < s.lastTid
  intface : ∃ addr ∈ q.intface,
    addr ∈ deleted ∨ ∃ i ∈ s.intfaces, i.addr = addr ∧ i.name = q.name

theorem Call.noteDeleted_mono (c : Call) (r : Int) (s : Kernel) {deleted : List ℕ} {addr : ℕ}
    (h : addr ∈ deleted) : addr ∈ c.noteDeleted r s deleted := by
  cases c with
  | interfaceDelete name pid =>
      unfold Call.noteDeleted
      split_ifs
      · exact List.mem_append_right _ h
      · exact h
  | _ => exact h

theorem ReceiveCall.Registered.exec {s s' : Kernel} {c : Call} {r : Int} {q : ReceiveCall}
    {deleted : List ℕ} (hs : s.Sound) (h : q.Registered s deleted) (hexec : exec s c = .ok (r, s')) :
    q.Registered s' (c.noteDeleted r s deleted) := by
  refine ⟨Int.lt_of_lt_of_le h.lastTid (exec_grows hs.tables hexec).lastTid, ?_⟩
  obtain ⟨addr, haddr, hdel | ⟨i, hi, rfl, hname⟩⟩ := h.intface
  · exact ⟨addr, haddr, .inl (c.noteDeleted_mono r s hdel)⟩
  · refine ⟨i.addr, haddr, ?_⟩
    rcases (exec_interfaces hs.tables hexec).persists hs.names hi with
      ⟨i', hi', haddr', hname'⟩ | ⟨pid, rfl, rfl⟩
    · exact .inr ⟨i', hi', haddr', hname'.trans hname⟩
    · have hnote : s.addrOf i.name = some i.addr := by
        rw [Kernel.addrOf, find_name hs.names hi, Option.map_some]
      simp [Call.noteDeleted, hnote]

/-- What is known of a call that has not returned. -/
structure ReceiveCall.Pending (q : ReceiveCall) (s : Kernel) (deleted : List ℕ) : Prop where
  registered : q.Registered s deleted
  awaited : q.waited = true → q.Awaited s

theorem ReceiveCall.Pending.exec {s s' : Kernel} {c : Call} {r : Int} {q : ReceiveCall}
    {deleted : List ℕ} (hs : s.Sound) (h : q.Pending s deleted) (hok : c.ByLiving s)
    (hactor : c.actor s ≠ some q.tid) (hspares : c.Spares s q) (hexec : exec s c = .ok (r, s')) :
    q.Pending s' (c.noteDeleted r s deleted) :=
  ⟨h.registered.exec hs hexec, fun hwaited =>
    (h.awaited hwaited).exec hs h.registered.lastTid hwaited hok hactor hspares hexec⟩

theorem ReceiveReturn.Blocking.mono {x : ReceiveReturn} {deleted deleted' : List ℕ}
    (h : x.Blocking deleted) (hsub : ∀ addr ∈ deleted, addr ∈ deleted') : x.Blocking deleted' := by
  rcases h with hmsg | ⟨hret, addr, haddr, hdel⟩
  · exact .inl hmsg
  · exact .inr ⟨hret, addr, haddr, hsub addr hdel⟩

/-- A receive may be made at any time. -/
theorem recv_allowed (s : Kernel) (um : UserMem) (name : CString) (pid : Int)
    (buf size sizeout : ℕ) : (Call.interfaceRecv um name pid buf size sizeout).SenderPid ∧
      (Call.interfaceRecv um name pid buf size sizeout).ByLiving s :=
  ⟨fun _ h => (by cases h), fun _ h => (by cases h), fun _ h => (by cases h)⟩

structure ReceiveInv (st : ReceiveState) : Prop where
  kernel : Reach Step (fun _ c => c.SenderPid) Started st.kernel
  pending : ∀ q ∈ st.pending, q.Pending st.kernel st.deleted
  returned : ∀ x ∈ st.returned, x.Blocking st.deleted

theorem ReceiveState.current_some {st : ReceiveState} {waited : Bool} {q : ReceiveCall}
    (h : st.current waited = some q) :
    q ∈ st.pending ∧ q.tid = st.kernel.currenttid ∧ q.waited = waited := by
  have hq : q.tid = st.kernel.currenttid ∧ q.waited = waited := by
    simpa using List.find?_some h
  exact ⟨List.mem_of_find?_eq_some h, hq⟩

theorem ReceiveState.mem_others {st : ReceiveState} {q : ReceiveCall} (h : q ∈ st.others) :
    q ∈ st.pending ∧ q.tid ≠ st.kernel.currenttid := by
  simpa [ReceiveState.others] using h

theorem ReceiveInv.call {st st' : ReceiveState} {c : Call} (h : ReceiveInv st)
    (hallowed : (ReceiveAct.call c).Allowed st) (hspares : (ReceiveAct.call c).Spares st)
    (hstep : ReceiveStep st (.call c) st') : ReceiveInv st' := by
  simp only [ReceiveStep, ReceiveState.exec, bind_ok, Prod.exists, Except.ok.injEq] at hstep
  obtain ⟨r, s, hexec, rfl⟩ := hstep
  obtain ⟨hsender, hok, hactor⟩ := hallowed
  have hs := reach_sound h.kernel
  refine ⟨h.kernel.next hsender ⟨r, hexec⟩, fun q hq => ?_, fun x hx => ?_⟩
  · exact (h.pending q hq).exec hs hok (fun ha => hactor q.tid ha q hq rfl)
      (hspares c rfl q hq) hexec
  · exact (h.returned x hx).mono fun addr hdel => c.noteDeleted_mono r st.kernel hdel

theorem ReceiveInv.receive {st st' : ReceiveState} {um : UserMem} {name : CString}
    {buf size sizeout : ℕ} (h : ReceiveInv st)
    (hallowed : (ReceiveAct.receive um name buf size sizeout).Allowed st)
    (hspares : (ReceiveAct.receive um name buf size sizeout).Spares st)
    (hstep : ReceiveStep st (.receive um name buf size sizeout) st') : ReceiveInv st' := by
  simp only [ReceiveStep, ReceiveState.exec, bind_ok, Prod.exists] at hstep
  obtain ⟨r, s, hrecv, hstep⟩ := hstep
  obtain ⟨⟨t, ht, hrun⟩, ⟨i, hi, hname⟩, hvalid⟩ := hallowed
  have hs := reach_sound h.kernel
  obtain ⟨pid, hps, hexec⟩ := psInterfaceRecieveNB_ok hs.tables hrecv
  obtain ⟨hsender, hliving⟩ := recv_allowed st.kernel um name pid buf size sizeout
  have hkernel := h.kernel.next hsender ⟨r, hexec⟩
  have hpending : ∀ q ∈ st.pending, q.Pending s st.deleted := fun q hq =>
    (h.pending q hq).exec hs hliving (fun ha => by cases ha)
      (hspares _ (by simp [ReceiveAct.kernelCall, hps]) q hq) hexec
  split_ifs at hstep with hagain
  · obtain rfl := Except.ok.inj hstep
    refine ⟨hkernel, fun q hq => ?_, h.returned⟩
    cases List.mem_cons.mp hq with
    | inr hq => exact hpending q hq
    | inl hq =>
        -- the new call
        subst hq
        refine ⟨.exec hs ⟨hs.turn.lastTid, i.addr, ?_, .inr ⟨i, hi, rfl, hname⟩⟩ hexec,
          fun hwaited => by cases hwaited⟩
        rw [← hname]
        simp [Kernel.addrOf, find_name hs.names hi]
  · obtain rfl := Except.ok.inj hstep
    refine ⟨hkernel, hpending, fun x hx => ?_⟩
    cases List.mem_cons.mp hx with
    | inr hx => exact h.returned x hx
    | inl hx =>
        subst hx
        rcases recv_valid hs hps hvalid hexec with hmsg | ⟨-, hno⟩ | ⟨hr, -⟩
        · exact .inl hmsg
        · exact absurd hname (hno i hi)
        · exact absurd hr hagain

theorem ReceiveInv.wait {st st' : ReceiveState} (h : ReceiveInv st)
    (hallowed : ReceiveAct.wait.Allowed st) (hspares : ReceiveAct.wait.Spares st)
    (hstep : ReceiveStep st .wait st') : ReceiveInv st' := by
  simp only [ReceiveStep, ReceiveState.exec] at hstep
  cases hq : st.current false with
  | none =>
      rw [hq] at hstep
      obtain rfl := Except.ok.inj hstep
      exact h
  | some q =>
      simp only [hq, bind_ok, Prod.exists, Except.ok.injEq] at hstep
      obtain ⟨r, s, hexec, rfl⟩ := hstep
      obtain ⟨hmem, htid, -⟩ := ReceiveState.current_some hq
      obtain ⟨t, ht, hrun⟩ := hallowed
      have hs := reach_sound h.kernel
      have hok : Call.ByLiving st.kernel (.interfaceWait q.name st.kernel.currenttid) := by
        refine ⟨fun tid htid t' ht' => ?_, fun _ ho => by cases ho⟩
        obtain rfl := Option.some.inj htid
        obtain rfl := Option.some.inj (ht.symm.trans ht')
        exact hrun
      refine ⟨h.kernel.next (fun _ hsend => by cases hsend) ⟨r, hexec⟩, fun q' hq' => ?_, h.returned⟩
      cases List.mem_cons.mp hq' with
      | inr hq' =>
          obtain ⟨hmem', hother⟩ := ReceiveState.mem_others hq'
          refine (h.pending q' hmem').exec hs hok (fun ha => hother (Option.some.inj ha).symm) ?_ hexec
          exact hspares _ (by simp [ReceiveAct.kernelCall, hq]) q' hq'
      | inl hq' =>
          subst hq'
          have hreg := (h.pending q hmem).registered.exec hs hexec
          refine ⟨⟨hreg.lastTid, hreg.intface⟩, fun _ t' ht' _ => ?_⟩
          rcases interfaceWait_found hexec with ⟨hno, rfl⟩ | ⟨t₁, i, hi, hname, -, rfl⟩
          · refine .inr ⟨fun addr hw => ?_, fun i hi hname => absurd hname (hno i hi)⟩
            obtain rfl := Option.some.inj (ht.symm.trans (htid ▸ ht'))
            rw [hw.1] at hrun
            cases hrun
          · rw [Kernel.setThread_threads, htid, Function.update_self, Option.some.injEq] at ht'
            subst ht'
            exact .inl ⟨i, hi, hname, rfl, rfl⟩

theorem ReceiveInv.retry {st st' : ReceiveState} {um : UserMem} (h : ReceiveInv st)
    (hallowed : (ReceiveAct.retry um).Allowed st) (hspares : (ReceiveAct.retry um).Spares st)
    (hstep : ReceiveStep st (.retry um) st') : ReceiveInv st' := by
  simp only [ReceiveStep, ReceiveState.exec] at hstep
  cases hq : st.current true with
  | none =>
      rw [hq] at hstep
      obtain rfl := Except.ok.inj hstep
      exact h
  | some q =>
      simp only [hq, bind_ok, Prod.exists, Except.ok.injEq] at hstep
      obtain ⟨r, s, hrecv, rfl⟩ := hstep
      obtain ⟨hmem, htid, hwaited⟩ := ReceiveState.current_some hq
      obtain ⟨⟨t, ht, hrun⟩, hvalid⟩ := hallowed
      have hs := reach_sound h.kernel
      obtain ⟨pid, hps, hexec⟩ := psInterfaceRecieveNB_ok hs.tables hrecv
      obtain ⟨hsender, hliving⟩ := recv_allowed st.kernel um q.name pid q.buf q.size q.sizeout
      refine ⟨h.kernel.next hsender ⟨r, hexec⟩, fun q' hq' => ?_, fun x hx => ?_⟩
      · obtain ⟨hmem', hother⟩ := ReceiveState.mem_others hq'
        exact (h.pending q' hmem').exec hs hliving (fun ha => by cases ha)
          (hspares _ (by simp [ReceiveAct.kernelCall, hq, hps]) q' hq') hexec
      · cases List.mem_cons.mp hx with
        | inr hx => exact h.returned x hx
        | inl hx =>
            subst hx
            have hp := h.pending q hmem
            rcases recv_valid hs hps (hvalid q hq) hexec with
              hmsg | ⟨hr, hno⟩ | ⟨-, i, hi, hname, hempty⟩
            · exact .inl hmsg
            · obtain ⟨addr, haddr, hdel | ⟨i, hi, -, hname⟩⟩ := hp.registered.intface
              · exact .inr ⟨hr, addr, haddr, hdel⟩
              · exact absurd hname (hno i hi)
            · -- a running thread waits for nothing, so its message is still there
              have hpid : pid = t.pid := hs.turn.pid t ht pid hps
              rw [← htid] at ht
              rcases hp.awaited hwaited t ht (by simp [hrun]) with ⟨j, -, -, hw⟩ | ⟨-, hans⟩
              · rw [hw.1] at hrun
                cases hrun
              · have hmsg := hans i hi hname
                rw [← hpid, hempty] at hmsg
                cases hmsg

theorem ReceiveInv.step {st st' : ReceiveState} {a : ReceiveAct} (h : ReceiveInv st)
    (hallowed : a.Allowed st) (hspares : a.Spares st) (hstep : ReceiveStep st a st') :
    ReceiveInv st' := by
  cases a with
  | call c => exact h.call hallowed hspares hstep
  | receive um name buf size sizeout => exact h.receive hallowed hspares hstep
  | wait => exact h.wait hallowed hspares hstep
  | retry um => exact h.retry hallowed hspares hstep

/-- **Blocking receive blocks**, as long as nobody takes the message of a thread that has been
resumed: every call of `psInterfaceRecieve` that has returned has returned a message, or the
interface it was made for has been deleted. -/
theorem receive_blocks {st : ReceiveState}
    (h : Reach ReceiveStep (fun st a => a.Allowed st ∧ a.Spares st) ReceiveStart st) :
    ∀ x ∈ st.returned, x.Blocking st.deleted := by
  have hinv : ReceiveInv st := by
    refine h.invariant (I := ReceiveInv) ?_ ?_
    · rintro st ⟨hst, hpending, hreturned, -⟩
      refine ⟨.start hst, ?_, ?_⟩
      · simp [hpending]
      · simp [hreturned]
    · rintro st a st' hinv ⟨hallowed, hspares⟩ hstep
      exact hinv.step hallowed hspares hstep
  exact hinv.returned

/-- Thread 1 waits for a message, process 2 sends it, and thread 1 receives it. -/
theorem receive_blocks_woken : ∃ st : ReceiveState,
    (∃ x ∈ st.returned, x.call.waited = true ∧ x.retvalue = 2) ∧
    ∀ x ∈ st.returned, x.Blocking st.deleted := by
  have hrun : BootRuns (fun s => (⟨s, [], [], []⟩ : ReceiveState)) ReceiveState.exec
      (fun st a => a.Allowed st ∧ a.Spares st)
      (fun st => ∃ x ∈ st.returned, x.call.waited = true ∧ x.retvalue = 2)
      [.call (.createProcess 0 []), .call (.createThread 1 false 0), .call (.createProcess 0 []),
        .call (.createThread 2 false 0), .call (.interfaceCreate [0x61] 1 0), .call .pickNext,
        .receive flatMemory [0x61] 0x2000 8 0x3000, .wait, .call .pickNext,
        .call (.interfaceSend flatMemory [0x61] 2 0 0x1000 4), .call .pickNext, .call .pickNext,
        .retry flatMemory] := by decide +kernel
  have hstart : ∀ s, Started s → ReceiveStart ⟨s, [], [], []⟩ := fun _ hs => ⟨hs, rfl, rfl, rfl⟩
  obtain ⟨st, hst, hreturned⟩ := hrun.reach (fun _ _ _ (h : ReceiveStep _ _ _) => h) hstart
  exact ⟨st, hreturned, receive_blocks hst⟩

/-- Threads 1 and 2 of process 1 wait, process 2 sends one message, and both are resumed: the second
to look for the message returns with `-EAGAIN`. -/
theorem receive_eagain : ∃ st, Reach ReceiveStep (fun st a => a.Allowed st) ReceiveStart st ∧
    ∃ x ∈ st.returned, x.retvalue = -EAGAIN ∧ ¬x.Blocking st.deleted := by
  have hrun : BootRuns (fun s => (⟨s, [], [], []⟩ : ReceiveState)) ReceiveState.exec
      (fun st a => a.Allowed st)
      (fun st => ∃ x ∈ st.returned, x.retvalue = -EAGAIN ∧ ¬x.Blocking st.deleted)
      [.call (.createProcess 0 []), .call (.createThread 1 false 0),
        .call (.createThread 1 false 0), .call (.createProcess 0 []),
        .call (.createThread 2 false 0), .call (.interfaceCreate [0x61] 1 0), .call .pickNext,
        .receive flatMemory [0x61] 0x2000 8 0x3000, .wait, .call .pickNext,
        .receive flatMemory [0x61] 0x2000 8 0x3000, .wait, .call .pickNext,
        .call (.interfaceSend flatMemory [0x61] 2 0 0x1000 4), .call .pickNext, .call .pickNext,
        .retry flatMemory, .call .pickNext, .retry flatMemory] := by decide +kernel
  exact hrun.reach (fun _ _ _ (h : ReceiveStep _ _ _) => h) fun _ hs => ⟨hs, rfl, rfl, rfl⟩

end GalaxyOS
