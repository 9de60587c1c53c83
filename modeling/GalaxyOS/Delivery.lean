import GalaxyOS.Lib.Mailbox
import GalaxyOS.Sched.Tables

/-! # Delivery of messages

`MailState` records, for every interface from its creation to its deletion, the messages whose send
has returned 0 and the receives that have returned a sender.  The record is made from the
arguments and results of the calls and from the memory of the callers alone; it does not look at
the queue.

`mail_exact`: in every reachable state the record explains the queue of every interface.  Each
message has been received exactly once or is still queued, only by a process it was meant for and
with its own bytes, and every process receives its messages in the order in which they were sent.

`MailInv` is the invariant behind it: `interfaceCreate_cases`, `interfaceSend_cases` and
`interfaceRecv_cases` say what a call does to a queue, `MailInv.set` lets the record of one interface
follow, and `MailInv.exec` goes over all calls. -/

namespace GalaxyOS

open Transition Mailbox

/-- A successful receive: its arguments, its result and the memory of the receiver before and
after it. -/
structure Receipt where
  pid : Int
  buf : ℕ
  size : ℕ
  sizeOut : ℕ
  sender : Int
  before : ℕ → UInt8
  after : ℕ → UInt8

/-- What went through an interface since it was created by the process `creator`. -/
structure Traffic where
  creator : Int
  sent : List InterfaceMessage
  receipts : List Receipt

/-- A state of the kernel and the traffic of every interface, by name. -/
structure MailState where
  kernel : Kernel
  mail : CString → Option Traffic

/-- The message that a send asks for. -/
def sentMessage (um : UserMem) (senderpid recvpid : Int) (buf size : ℕ) : InterfaceMessage :=
  ⟨recvpid, senderpid, (List.range size).map fun i => um.byte (buf + i)⟩

def Traffic.send (tr : Traffic) (m : InterfaceMessage) : Traffic :=
  { tr with sent := tr.sent ++ [m] }

def Traffic.receive (tr : Traffic) (rc : Receipt) : Traffic :=
  { tr with receipts := tr.receipts ++ [rc] }

/-- The record after a call with result `r`. -/
def Call.noteMail (c : Call) (r : Int) (s : Kernel) (mail : CString → Option Traffic) :
    CString → Option Traffic :=
  match c with
  | .interfaceCreate name pid _ =>
      if r = 0 then Function.update mail name (some ⟨pid, [], []⟩) else mail
  | .interfaceDelete name _ => if r = 0 then Function.update mail name none else mail
  | .interfaceSend um name senderpid recvpid buf size =>
      if r = 0 then
        Function.update mail name
          ((mail name).map fun tr => tr.send (sentMessage um senderpid recvpid buf size))
      else mail
  | .interfaceRecv um name recvpid buf size sizeOut =>
      if 0 ≤ r then
        Function.update mail name ((mail name).map fun tr => tr.receive
          { pid := recvpid, buf := buf, size := size, sizeOut := sizeOut, sender := r
            before := um.byte
            after := (GalaxyOS.interfaceRecv s um name recvpid buf size sizeOut).2.1.byte })
      else mail
  | _ => mail

/-- A call, the traffic being recorded. -/
def MailState.exec (st : MailState) (c : Call) : Except Fault MailState := do
  let (r, s') ← GalaxyOS.exec st.kernel c
  .ok ⟨s', c.noteMail r st.kernel st.mail⟩

def MailStep (st : MailState) (c : Call) (st' : MailState) : Prop := st.exec c = .ok st'

theorem MailStep.exists_exec {st st' : MailState} {c : Call} (h : MailStep st c st') :
    ∃ r s', GalaxyOS.exec st.kernel c = .ok (r, s') ∧
      st' = ⟨s', c.noteMail r st.kernel st.mail⟩ := by
  simp only [MailStep, MailState.exec, bind_ok, Prod.exists, Except.ok.injEq] at h
  obtain ⟨r, s', hexec, rfl⟩ := h
  exact ⟨r, s', hexec, rfl⟩

def MailStart (st : MailState) : Prop := Started st.kernel ∧ st.mail = fun _ => none

/-- The process `pid` may receive the message. -/
def Eligible (creator pid : Int) (m : InterfaceMessage) : Prop :=
  m.pid = pid ∨ m.pid = 0 ∧ creator = pid ∨ m.pid = -1

/-- Memory with the bytes `bs` written from `a` on. -/
def overlay (a : ℕ) (bs : List UInt8) (f : ℕ → UInt8) : ℕ → UInt8 :=
  fun x => if a ≤ x then (bs[x - a]?).getD (f x) else f x

/-- The receive returned the sender of the message and stored its first `size` bytes, and then how
many these were. -/
def Returns (m : InterfaceMessage) (rc : Receipt) : Prop :=
  rc.sender = m.sender ∧ rc.after = overlay rc.sizeOut (sizeBytes (min rc.size m.size))
    (overlay rc.buf (m.buf.take rc.size) rc.before)

/-- The traffic of an interface explains its queue. -/
def Traffic.Delivered (tr : Traffic) (queue : List InterfaceMessage) : Prop :=
  ∃ taken waiting, Explains (Eligible tr.creator) Returns Receipt.pid tr.sent tr.receipts queue
    taken waiting

/-- The interfaces are those that have been created and not deleted, one for each name, and the
traffic of each explains its queue. -/
structure MailExact (st : MailState) : Prop where
  names : (st.kernel.intfaces.map Interface.name).Nodup
  exists_interface : ∀ name tr, st.mail name = some tr →
    ∃ i ∈ st.kernel.intfaces, i.name = name
  delivered : ∀ i ∈ st.kernel.intfaces, ∃ tr, st.mail i.name = some tr ∧
    tr.creator = i.creatorPid ∧ tr.Delivered i.messages

/-- In whose name the call sends a message. -/
def Call.sender : Call → Option Int
  | .interfaceSend _ _ senderpid _ _ _ => some senderpid
  | _ => none

/-- The sender of a message is a pid: `currentps->pid` of the caller. -/
def Call.SenderPid (c : Call) : Prop := ∀ pid, c.sender = some pid → 0 ≤ pid

instance (c : Call) : Decidable c.SenderPid := decidableForallSome c.sender

/-! ### Copies to and from the memory of a process -/

theorem safecpyFromUserLoop_some : ∀ {n : ℕ} {um um' : UserMem} {src : ℕ} {bs : List UInt8},
    safecpyFromUserLoop um src n = (some bs, um') →
      bs = (List.range n).map fun i => um.byte (src + i)
  | 0, um, um', src, bs, h => by
      simp only [safecpyFromUserLoop, Prod.mk.injEq, Option.some.injEq] at h
      exact h.1.symm
  | n + 1, um, um', src, bs, h => by
      unfold safecpyFromUserLoop UserMem.load at h
      simp only at h
      split_ifs at h with hr
      · simp only at h
        split at h
        · simp at h
        · rename_i bs' um'' hloop
          simp only [Prod.mk.injEq, Option.some.injEq] at h
          rw [← h.1, safecpyFromUserLoop_some hloop, List.range_succ_eq_map, List.map_cons,
            List.map_map]
          refine congrArg₂ List.cons rfl (List.map_congr_left fun i _ => ?_)
          simp only [Function.comp_apply, Nat.succ_eq_add_one]
          congr 1
          omega
      · simp at h

theorem safecpyFromUser_some {um um' : UserMem} {src size : ℕ} {bs : List UInt8}
    (h : safecpyFromUser um src size = (some bs, um')) :
    bs = (List.range size).map fun i => um.byte (src + i) := by
  unfold safecpyFromUser at h
  split_ifs at h with h0 hc
  · simp only [Prod.mk.injEq, Option.some.injEq] at h
    rw [h0, ← h.1]
    rfl
  · simp at h
  · exact safecpyFromUserLoop_some h

theorem overlay_nil (a : ℕ) (f : ℕ → UInt8) : overlay a [] f = f := by
  funext x
  simp [overlay]

theorem overlay_cons (a : ℕ) (b : UInt8) (bs : List UInt8) (f : ℕ → UInt8) :
    overlay a (b :: bs) f = overlay (a + 1) bs (Function.update f a b) := by
  funext x
  unfold overlay
  by_cases hlt : x < a
  · rw [if_neg (by omega), if_neg (by omega), Function.update_of_ne (by omega)]
  · by_cases heq : x = a
    · subst heq
      rw [if_pos (by omega), if_neg (by omega), Function.update_self]
      simp
    · obtain ⟨k, rfl⟩ := Nat.exists_eq_add_of_le (show a + 1 ≤ x by omega)
      rw [if_pos (by omega), if_pos (by omega), Function.update_of_ne heq,
        show a + 1 + k - a = k + 1 by omega, Nat.add_sub_cancel_left, List.getElem?_cons_succ]

theorem safecpyToUserLoop_zero : ∀ {data : List UInt8} {um um' : UserMem} {dst : ℕ},
    safecpyToUserLoop um dst data = (0, um') → um'.byte = overlay dst data um.byte
  | [], um, um', dst, h => by
      simp only [safecpyToUserLoop, Prod.mk.injEq, true_and] at h
      rw [overlay_nil, h]
  | b :: data, um, um', dst, h => by
      unfold safecpyToUserLoop UserMem.store at h
      split_ifs at h with hw
      · rw [safecpyToUserLoop_zero h, overlay_cons]
      · simp at h

theorem safecpyToUserLoop_result : ∀ (data : List UInt8) (um : UserMem) (dst : ℕ),
    (safecpyToUserLoop um dst data).1 = 0 ∨ (safecpyToUserLoop um dst data).1 = -1
  | [], _, _ => .inl rfl
  | b :: data, um, dst => by
      unfold safecpyToUserLoop UserMem.store
      split_ifs
      · exact safecpyToUserLoop_result data _ (dst + 1)
      · exact .inr rfl

theorem safecpyToUser_ok {um um' : UserMem} {dst : ℕ} {data : List UInt8} {r : Int}
    (h : safecpyToUser um dst data = (r, um')) (hr : r ≠ -1) :
    um'.byte = overlay dst data um.byte := by
  unfold safecpyToUser at h
  split_ifs at h with h0 hc
  · simp only [Prod.mk.injEq] at h
    rw [List.length_eq_zero_iff.mp h0, overlay_nil, h.2]
  · simp only [Prod.mk.injEq] at h
    exact absurd h.1.symm hr
  · rcases safecpyToUserLoop_result data um dst with hz | hz
    · rw [h] at hz
      simp only at hz
      subst hz
      exact safecpyToUserLoop_zero h
    · rw [h] at hz
      exact absurd hz hr

theorem recvCopy_true {um um' : UserMem} {m : InterfaceMessage} {buf size sizeOut : ℕ}
    (h : recvCopy um m buf size sizeOut = (true, um')) :
    um'.byte = overlay sizeOut (sizeBytes (min size m.size))
      (overlay buf (m.buf.take size) um.byte) := by
  have hsize : recvSize size m = min size m.size := by
    unfold recvSize
    split_ifs <;> omega
  have htake : m.buf.take (min size m.size) = m.buf.take size := by
    unfold InterfaceMessage.size
    exact List.take_eq_take_min.symm
  unfold recvCopy at h
  rw [hsize, htake] at h
  cases hc : safecpyToUser um buf (m.buf.take size) with
  | mk r um₁ =>
      simp only [hc] at h
      split_ifs at h with hr
      · simp at h
      · cases hc' : safecpyToUser um₁ sizeOut (sizeBytes (min size m.size)) with
        | mk r' um₂ =>
            simp only [hc', Prod.mk.injEq, decide_eq_true_eq] at h
            obtain ⟨hr', rfl⟩ := h
            rw [safecpyToUser_ok hc' hr', safecpyToUser_ok hc hr]

/-! ### The interface functions -/

theorem interfaceFind_ok {intfaces : List Interface} {name : CString} {qid : ℕ}
    (h : interfaceFind intfaces name = .ok qid) : ∃ i, intfaces[qid]? = some i ∧ i.name = name := by
  unfold interfaceFind at h
  cases hf : intfaces.findIdx? (fun i => i.name = name) with
  | none => simp [hf] at h
  | some k =>
      simp only [hf, Except.ok.injEq] at h
      subst h
      obtain ⟨hk, hname, -⟩ := List.findIdx?_eq_some_iff_getElem.mp hf
      exact ⟨_, List.getElem?_eq_getElem hk, by simpa using hname⟩

theorem interfaceFind_error {intfaces : List Interface} {name : CString} {e : Int}
    (h : interfaceFind intfaces name = .error e) : e < 0 ∧ ∀ i ∈ intfaces, i.name ≠ name := by
  unfold interfaceFind at h
  cases hf : intfaces.findIdx? (fun i => i.name = name) with
  | none =>
      simp only [hf, Except.error.injEq] at h
      refine ⟨by rw [← h]; decide, fun i hi => ?_⟩
      simpa using List.findIdx?_eq_none_iff.mp hf i hi
  | some k => simp [hf] at h

/-- An interface is created only under a name that is not in use. -/
theorem interfaceCreate_cases (s : Kernel) (name : CString) (pid : Int) (flags : ℕ) :
    ((interfaceCreate s name pid flags).1 < 0 ∧ (interfaceCreate s name pid flags).2 = s) ∨
    (interfaceCreate s name pid flags).1 = 0 ∧ (∀ i ∈ s.intfaces, i.name ≠ name) ∧
      s.intfaces.length < maxInterfaces ∧ (interfaceCreate s name pid flags).2 = { s with
        intfaces := s.intfaces ++ [newInterface s name pid flags]
        intfacesSize := s.grownIntfaces
        nextIntf := s.nextIntf + 1 } := by
  unfold interfaceCreate
  cases hf : interfaceFind s.intfaces name with
  | ok qid => exact .inl ⟨by simp only; decide, rfl⟩
  | error e =>
      simp only
      split_ifs with hmax
      · exact .inl ⟨by simp only; decide, rfl⟩
      · exact .inr ⟨rfl, (interfaceFind_error hf).2, Nat.lt_of_not_le hmax, rfl⟩

theorem interfaceDelete_cases (s : Kernel) (name : CString) (pid : Int) :
    ((interfaceDelete s name pid).1 < 0 ∧ (interfaceDelete s name pid).2 = s) ∨
    (interfaceDelete s name pid).1 = 0 ∧ ∃ qid i, s.intfaces[qid]? = some i ∧ i.name = name ∧
      (interfaceDelete s name pid).2 = { s with
        threads := fun tid => (s.threads tid).map (Thread.unwait i.addr)
        intfaces := s.intfaces.eraseIdx qid } := by
  unfold interfaceDelete
  cases hf : interfaceFind s.intfaces name with
  | error e => exact .inl ⟨(interfaceFind_error hf).1, rfl⟩
  | ok qid =>
      obtain ⟨i, hi, hname⟩ := interfaceFind_ok hf
      simp only [hi]
      split_ifs with hpid
      · exact .inl ⟨by simp only; decide, rfl⟩
      · exact .inr ⟨rfl, qid, i, hi, hname, rfl⟩

theorem interfaceSendCheck_neg {s : Kernel} {i : Interface} {senderpid recvpid e : Int} {size : ℕ}
    (h : interfaceSendCheck s i senderpid recvpid size = some e) : e < 0 := by
  unfold interfaceSendCheck at h
  simp only at h
  split_ifs at h <;> (rw [← Option.some.inj h]; decide)

/-- A send refuses, or fails to copy the message, or passes the checks and appends it. -/
theorem interfaceSend_cases (s : Kernel) (um : UserMem) (name : CString) (senderpid recvpid : Int)
    (buf size : ℕ) :
    (interfaceSend s um name senderpid recvpid buf size).1 < 0 ∧
        (interfaceSend s um name senderpid recvpid buf size).2.2 = s ∨
    ∃ qid i, s.intfaces[qid]? = some i ∧ i.name = name ∧
      interfaceSendCheck s i senderpid recvpid size = none ∧
      ((interfaceSend s um name senderpid recvpid buf size).1 < 0 ∧
          (interfaceSend s um name senderpid recvpid buf size).2.2 =
            s.setInterface qid { i with messagesSize := i.grownSize } ∨
        (interfaceSend s um name senderpid recvpid buf size).1 = 0 ∧
          (interfaceSend s um name senderpid recvpid buf size).2.2 = s.setInterface qid { i with
            messagesSize := i.grownSize
            messages := i.messages ++ [sentMessage um senderpid recvpid buf size] }) := by
  unfold interfaceSend
  cases hf : interfaceFind s.intfaces name with
  | error e => exact .inl ⟨(interfaceFind_error hf).1, rfl⟩
  | ok qid =>
      obtain ⟨i, hi, hname⟩ := interfaceFind_ok hf
      simp only [hi]
      cases hcheck : interfaceSendCheck s i senderpid recvpid size with
      | some e => exact .inl ⟨interfaceSendCheck_neg hcheck, rfl⟩
      | none =>
          refine .inr ⟨qid, i, hi, hname, hcheck, ?_⟩
          cases hcopy : safecpyFromUser um buf size with
          | mk o um' =>
              cases o with
              | none => exact .inl ⟨by simp only; decide, rfl⟩
              | some bytes =>
                  obtain rfl := safecpyFromUser_some hcopy
                  exact .inr ⟨rfl, rfl⟩

/-- A receive changes nothing, or returns the sender of the first message that is meant for the
receiver and removes it. -/
theorem interfaceRecv_cases (s : Kernel) (um : UserMem) (name : CString) (recvpid : Int)
    (buf size sizeOut : ℕ) :
    (interfaceRecv s um name recvpid buf size sizeOut).1 < 0 ∧
        (interfaceRecv s um name recvpid buf size sizeOut).2.2 = s ∨
    ∃ qid i mid m, s.intfaces[qid]? = some i ∧ i.name = name ∧ i.messages[mid]? = some m ∧
      i.delivers recvpid m = true ∧
      (∀ j < mid, ∀ m', i.messages[j]? = some m' → i.delivers recvpid m' = false) ∧
      (interfaceRecv s um name recvpid buf size sizeOut).1 = m.sender ∧
      (interfaceRecv s um name recvpid buf size sizeOut).2.1.byte =
        overlay sizeOut (sizeBytes (min size m.size)) (overlay buf (m.buf.take size) um.byte) ∧
      (interfaceRecv s um name recvpid buf size sizeOut).2.2 =
        s.setInterface qid { i with messages := i.messages.eraseIdx mid } := by
  unfold interfaceRecv
  cases hf : interfaceFind s.intfaces name with
  | error e => exact .inl ⟨(interfaceFind_error hf).1, rfl⟩
  | ok qid =>
      obtain ⟨i, hi, hname⟩ := interfaceFind_ok hf
      simp only [hi]
      cases hmid : i.messages.findIdx? (i.delivers recvpid) with
      | none => exact .inl ⟨by simp only; decide, rfl⟩
      | some mid =>
          obtain ⟨hlt, hdel, hfirst⟩ := List.findIdx?_eq_some_iff_getElem.mp hmid
          simp only [List.getElem?_eq_getElem hlt]
          cases hcopy : recvCopy um i.messages[mid] buf size sizeOut with
          | mk ok um' =>
              cases ok with
              | false => exact .inl ⟨by simp only; decide, rfl⟩
              | true =>
                  refine .inr ⟨qid, i, mid, _, hi, hname, List.getElem?_eq_getElem hlt, hdel, ?_,
                    rfl, recvCopy_true hcopy, rfl⟩
                  intro j hj m' hm'
                  obtain ⟨hj', rfl⟩ := List.getElem?_eq_some_iff.mp hm'
                  exact Bool.eq_false_iff.mpr (hfirst j hj)

theorem delivers_iff {i : Interface} {pid : Int} {m : InterfaceMessage} :
    i.delivers pid m = true ↔ Eligible i.creatorPid pid m := by
  unfold Interface.delivers Eligible
  split_ifs with h1 h2 h3
  · simp [h1]
  · simp [h2]
    omega
  · simp [h3]
  · simp [h1, h2, h3]

/-! ### The table of interfaces -/

/-- Removing an entry of a list whose keys are distinct. -/
theorem eraseIdx_keys {α κ : Type} {f : α → κ} {l : List α} {k : ℕ} {a : α}
    (hnodup : (l.map f).Nodup) (ha : l[k]? = some a) :
    ((l.eraseIdx k).map f).Nodup ∧ (∀ b ∈ l.eraseIdx k, b ∈ l ∧ f b ≠ f a) ∧
      ∀ b ∈ l, b = a ∨ b ∈ l.eraseIdx k := by
  obtain ⟨hk, rfl⟩ := List.getElem?_eq_some_iff.mp ha
  have hperm : (l[k] :: l.eraseIdx k).Perm l := List.getElem_cons_eraseIdx_perm hk
  have hcons := (hperm.map f).nodup_iff.mpr hnodup
  rw [List.map_cons, List.nodup_cons] at hcons
  refine ⟨hcons.2, fun b hb => ⟨List.mem_of_mem_eraseIdx hb, fun hc => ?_⟩, fun b hb => ?_⟩
  · exact hcons.1 (hc ▸ List.mem_map_of_mem hb)
  · exact List.mem_cons.mp (hperm.mem_iff.mpr hb)

/-- Replacing an entry by one with the same key. -/
theorem set_keys {α κ : Type} {f : α → κ} {l : List α} {k : ℕ} {a a' : α}
    (hnodup : (l.map f).Nodup) (ha : l[k]? = some a) (hkey : f a' = f a) :
    ((l.set k a').map f).Nodup ∧ a' ∈ l.set k a' ∧
      (∀ b ∈ l.set k a', b = a' ∨ b ∈ l ∧ f b ≠ f a) ∧ ∀ b ∈ l, b = a ∨ b ∈ l.set k a' := by
  obtain ⟨hk, hget⟩ := List.getElem?_eq_some_iff.mp ha
  obtain ⟨hnodup', hold, hall⟩ := eraseIdx_keys hnodup ha
  have hperm : (l.set k a').Perm (a' :: l.eraseIdx k) := List.set_perm_cons_eraseIdx hk a'
  have hsame : ((l.set k a').map f).Perm (l.map f) := by
    refine (hperm.map f).trans ?_
    rw [List.map_cons, hkey, ← hget]
    exact (List.getElem_cons_eraseIdx_perm hk).map f
  refine ⟨hsame.nodup_iff.mpr hnodup, List.mem_set hk a', fun b hb => ?_, fun b hb => ?_⟩
  · rcases List.mem_cons.mp (hperm.mem_iff.mp hb) with rfl | hb
    · exact .inl rfl
    · exact .inr (hold b hb)
  · rcases hall b hb with rfl | hb
    · exact .inl rfl
    · exact .inr (hperm.mem_iff.mpr (List.mem_cons_of_mem a' hb))

/-! ### The invariant -/

structure MailInv (s : Kernel) (mail : CString → Option Traffic) : Prop where
  names : (s.intfaces.map Interface.name).Nodup
  exists_interface : ∀ name tr, mail name = some tr → ∃ i ∈ s.intfaces, i.name = name
  delivered : ∀ i ∈ s.intfaces, ∃ tr, mail i.name = some tr ∧
    tr.creator = i.creatorPid ∧ (∀ m ∈ tr.sent, 0 ≤ m.sender) ∧ tr.Delivered i.messages

theorem MailInv.exact {st : MailState} (h : MailInv st.kernel st.mail) : MailExact st := by
  refine ⟨h.names, h.exists_interface, fun i hi => ?_⟩
  obtain ⟨tr, htr, hcreator, -, hdel⟩ := h.delivered i hi
  exact ⟨tr, htr, hcreator, hdel⟩

/-- What a receive returns is not an error. -/
theorem MailInv.sender_nonneg {s : Kernel} {mail : CString → Option Traffic} {qid mid : ℕ}
    {i : Interface} {m : InterfaceMessage} (h : MailInv s mail) (hi : s.intfaces[qid]? = some i)
    (hm : i.messages[mid]? = some m) : 0 ≤ m.sender := by
  obtain ⟨tr, -, -, hpos, taken, waiting, hexp⟩ := h.delivered i (List.mem_of_getElem? hi)
  have hmem : m ∈ waiting.map Prod.snd := hexp.queue ▸ List.mem_of_getElem? hm
  obtain ⟨x, hx, rfl⟩ := List.mem_map.mp hmem
  exact hpos _ (List.mem_of_getElem? (hexp.waits x hx))

theorem MailInv.same {s s' : Kernel} {mail : CString → Option Traffic} (h : MailInv s mail)
    (hs : s'.intfaces = s.intfaces) : MailInv s' mail := by
  refine ⟨?_, ?_, ?_⟩
  · rw [hs]
    exact h.names
  · rw [hs]
    exact h.exists_interface
  · rw [hs]
    exact h.delivered

theorem MailInv.created {s s' : Kernel} {mail : CString → Option Traffic} {i : Interface}
    (h : MailInv s mail) (hnew : ∀ j ∈ s.intfaces, j.name ≠ i.name) (hmsg : i.messages = [])
    (hs : s'.intfaces = s.intfaces ++ [i]) :
    MailInv s' (Function.update mail i.name (some ⟨i.creatorPid, [], []⟩)) := by
  refine ⟨?_, ?_, ?_⟩
  · rw [hs, List.map_append, List.nodup_append]
    refine ⟨h.names, List.nodup_cons.mpr ⟨by simp, List.nodup_nil⟩, ?_⟩
    intro n hn n' hn'
    obtain ⟨j, hj, rfl⟩ := List.mem_map.mp hn
    obtain rfl : n' = i.name := by simpa using hn'
    exact hnew j hj
  · intro name tr htr
    rw [hs]
    by_cases hname : name = i.name
    · exact ⟨i, by simp, hname.symm⟩
    · rw [Function.update_of_ne hname] at htr
      obtain ⟨j, hj, hjn⟩ := h.exists_interface name tr htr
      exact ⟨j, List.mem_append_left _ hj, hjn⟩
  · intro j hj
    rw [hs] at hj
    rcases List.mem_append.mp hj with hj | hj
    · rw [Function.update_of_ne (hnew j hj)]
      exact h.delivered j hj
    · obtain rfl := List.mem_singleton.mp hj
      refine ⟨_, Function.update_self .., rfl, by simp, [], [], ?_⟩
      rw [hmsg]
      exact explains_empty

theorem MailInv.deleted {s s' : Kernel} {mail : CString → Option Traffic} {qid : ℕ} {i : Interface}
    (h : MailInv s mail) (hi : s.intfaces[qid]? = some i)
    (hs : s'.intfaces = s.intfaces.eraseIdx qid) :
    MailInv s' (Function.update mail i.name none) := by
  obtain ⟨hnodup, hold, hall⟩ := eraseIdx_keys h.names hi
  refine ⟨hs ▸ hnodup, ?_, ?_⟩
  · intro name tr htr
    rw [hs]
    by_cases hname : name = i.name
    · simp [hname] at htr
    · rw [Function.update_of_ne hname] at htr
      obtain ⟨j, hj, rfl⟩ := h.exists_interface name tr htr
      rcases hall j hj with rfl | hj
      · exact absurd rfl hname
      · exact ⟨j, hj, rfl⟩
  · intro j hj
    rw [hs] at hj
    rw [Function.update_of_ne (hold j hj).2]
    exact h.delivered j (hold j hj).1

/-- One interface gets another queue, and its traffic follows. -/
theorem MailInv.set {s s' : Kernel} {mail : CString → Option Traffic} {qid : ℕ} {i i' : Interface}
    {f : Traffic → Traffic} (h : MailInv s mail) (hi : s.intfaces[qid]? = some i)
    (hs : s'.intfaces = s.intfaces.set qid i') (hname : i'.name = i.name)
    (hcreator : i'.creatorPid = i.creatorPid)
    (hf : ∀ tr, mail i.name = some tr → tr.creator = i.creatorPid →
      (∀ m ∈ tr.sent, 0 ≤ m.sender) → tr.Delivered i.messages →
      (f tr).creator = tr.creator ∧ (∀ m ∈ (f tr).sent, 0 ≤ m.sender) ∧
        (f tr).Delivered i'.messages) :
    MailInv s' (Function.update mail i.name ((mail i.name).map f)) := by
  obtain ⟨hnodup, hmem, hold, hall⟩ := set_keys h.names hi hname
  refine ⟨hs ▸ hnodup, ?_, ?_⟩
  · intro name tr htr
    rw [hs]
    by_cases hn : name = i.name
    · exact ⟨i', hmem, hname.trans hn.symm⟩
    · rw [Function.update_of_ne hn] at htr
      obtain ⟨j, hj, rfl⟩ := h.exists_interface name tr htr
      rcases hall j hj with rfl | hj
      · exact absurd rfl hn
      · exact ⟨j, hj, rfl⟩
  · intro j hj
    rw [hs] at hj
    rcases hold j hj with rfl | ⟨hj, hne⟩
    · obtain ⟨hk, rfl⟩ := List.getElem?_eq_some_iff.mp hi
      obtain ⟨tr, htr, hcr, hpos, hdel⟩ := h.delivered _ (List.getElem_mem hk)
      obtain ⟨h1, h2, h3⟩ := hf tr htr hcr hpos hdel
      refine ⟨f tr, ?_, by rw [h1, hcr, hcreator], h2, h3⟩
      rw [hname, Function.update_self, htr, Option.map_some]
    · rw [Function.update_of_ne hne]
      exact h.delivered j hj

/-! ### Runs -/

/-- The calls that change the table of interfaces. -/
def Call.onInterfaces : Call → Bool
  | .interfaceCreate .. | .interfaceDelete .. | .interfaceSend .. | .interfaceRecv .. => true
  | _ => false

theorem Call.noteMail_eq {c : Call} (hc : c.onInterfaces = false) (r : Int) (s : Kernel)
    (mail : CString → Option Traffic) : c.noteMail r s mail = mail := by
  cases c with
  | interfaceCreate | interfaceDelete | interfaceSend | interfaceRecv =>
      simp [Call.onInterfaces] at hc
  | _ => rfl

/-- The interfaces are the same, and so is what is recorded about their table. -/
structure Kernel.SameInterfaces (s s' : Kernel) : Prop where
  intfaces : s'.intfaces = s.intfaces
  size : s'.intfacesSize = s.intfacesSize
  next : s'.nextIntf = s.nextIntf

theorem Kernel.SameInterfaces.refl (s : Kernel) : s.SameInterfaces s := ⟨rfl, rfl, rfl⟩

theorem Kernel.SameInterfaces.trans {s₁ s₂ s₃ : Kernel} (h : s₁.SameInterfaces s₂)
    (h' : s₂.SameInterfaces s₃) : s₁.SameInterfaces s₃ :=
  ⟨h'.intfaces.trans h.intfaces, h'.size.trans h.size, h'.next.trans h.next⟩

theorem pickFetch_sameInterfaces (s : Kernel) (loop : Bool) :
    s.SameInterfaces (pickFetch s loop).2.1 := by
  obtain ⟨l, hl⟩ := pickFetch_eq s loop
  rw [hl]
  exact ⟨rfl, rfl, rfl⟩

theorem PickEffect.sameInterfaces {s s' : Kernel} {tid : Int} {t : Thread}
    (h : PickEffect s tid t s') : s.SameInterfaces s' := by
  cases h <;> exact ⟨rfl, rfl, rfl⟩

theorem schedPickNext_sameInterfaces {s s' : Kernel} (h : schedPickNext s = .ok s') :
    s.SameInterfaces s' := by
  refine schedPickNext_inv (I := fun s' => s.SameInterfaces s') ⟨rfl, rfl, rfl⟩ ?_ (heads_true _ _) h
  intro s₁ loop s₂ hI _ hd
  obtain ⟨t, -, -, heff⟩ := pickDispatch_ok hd
  exact hI.trans ((pickFetch_sameInterfaces s₁ loop).trans heff.sameInterfaces)

/-- What a call leaves alone: the interfaces, unless it is about them, and the current thread,
unless it picks another one. -/
structure Call.Frame (c : Call) (s s' : Kernel) : Prop where
  interfaces : c.onInterfaces = false → s.SameInterfaces s'
  turn : c ≠ .pickNext → s'.currenttid = s.currenttid ∧ s'.currentps = s.currentps

theorem Call.Frame.refl (c : Call) (s : Kernel) : c.Frame s s := ⟨fun _ => .refl s, fun _ => ⟨rfl, rfl⟩⟩

theorem exec_frame {s s' : Kernel} {c : Call} {r : Int} (hs : Tables s)
    (h : exec s c = .ok (r, s')) : c.Frame s s' := by
  cases c with
  | createProcess privilege name =>
      obtain ⟨-, p, mem, -, rfl⟩ := schedCreateProcess_ok h
      exact ⟨fun _ => ⟨rfl, rfl, rfl⟩, fun _ => ⟨rfl, rfl⟩⟩
  | createThread ownerpid noqueue entrypoint =>
      obtain ⟨-, -, p, t, mem, -, -, rfl⟩ := schedCreateThread_ok h
      exact ⟨fun _ => ⟨rfl, rfl, rfl⟩, fun _ => ⟨rfl, rfl⟩⟩
  | forkThread tid regs =>
      rcases schedForkThread_ok h with ⟨rfl, -⟩ | ⟨-, pid, -, p, t, mem, -, -, rfl⟩
      · exact .refl _ s'
      · exact ⟨fun _ => ⟨rfl, rfl, rfl⟩, fun _ => ⟨rfl, rfl⟩⟩
  | loadProcess q =>
      rcases ploadCreateProcess_ok h with rfl | ⟨s₁, ⟨p, mem, -, rfl⟩, -, p', t, mem', -, -, rfl⟩
      · exact .refl _ s'
      · exact ⟨fun _ => ⟨rfl, rfl, rfl⟩, fun _ => ⟨rfl, rfl⟩⟩
  | exitThread =>
      obtain ⟨t, -, rfl⟩ := schedExitThread_ok (noResult_ok h)
      exact ⟨fun _ => ⟨rfl, rfl, rfl⟩, fun _ => ⟨rfl, rfl⟩⟩
  | exitProcess exitcode =>
      obtain ⟨pid, p, mem, -, rfl⟩ := schedExitProcess_ok hs h
      exact ⟨fun _ => ⟨rfl, rfl, rfl⟩, fun _ => ⟨rfl, rfl⟩⟩
  | killProcess pid =>
      rcases schedKillProcess_ok h with rfl | ⟨p, exitcode, mem, -, rfl⟩
      · exact .refl _ s'
      · exact ⟨fun _ => ⟨rfl, rfl, rfl⟩, fun _ => ⟨rfl, rfl⟩⟩
  | suspendThread irq tid =>
      obtain ⟨t, -, rfl⟩ := schedSuspendThread_ok (noResult_ok h)
      exact ⟨fun _ => ⟨rfl, rfl, rfl⟩, fun _ => ⟨rfl, rfl⟩⟩
  | checkSuspended irq =>
      obtain rfl : schedCheckSuspendedThreads s irq = s' := (exec_pair h).2
      exact ⟨fun _ => ⟨rfl, rfl, rfl⟩, fun _ => ⟨rfl, rfl⟩⟩
  | waitProcess pid =>
      rcases schedWaitProcess_ok h with ⟨rfl, -⟩ | ⟨-, t, p, -, -, -, rfl⟩
      · exact .refl _ s'
      · exact ⟨fun _ => ⟨rfl, rfl, rfl⟩, fun _ => ⟨rfl, rfl⟩⟩
  | pickNext =>
      exact ⟨fun _ => schedPickNext_sameInterfaces (noResult_ok h), fun hne => absurd rfl hne⟩
  | interfaceDelete name pid =>
      obtain rfl := (exec_pair h).2
      refine ⟨fun hc => (by cases hc), fun _ => ?_⟩
      rcases interfaceDelete_eq s name pid with hd | ⟨addr, intfaces, hd⟩
      · rw [hd]
        exact ⟨rfl, rfl⟩
      · rw [hd]
        exact ⟨rfl, rfl⟩
  | interfaceWait name tid =>
      rcases interfaceWait_ok h with ⟨rfl, -⟩ | ⟨-, t, addr, -, rfl⟩
      · exact .refl _ s'
      · exact ⟨fun _ => ⟨rfl, rfl, rfl⟩, fun _ => ⟨rfl, rfl⟩⟩
  | setbrk addr =>
      simp only [exec, schedSetbrk, bind_ok, Prod.exists, Except.ok.injEq, Prod.mk.injEq] at h
      obtain ⟨p, -, r', p', m', -, -, rfl⟩ := h
      exact ⟨fun _ => ⟨rfl, rfl, rfl⟩, fun _ => ⟨rfl, rfl⟩⟩
  | userFault eno errorcode cr2 =>
      have h' := noResult_ok h
      simp only [schedUserFault, bind_ok] at h'
      obtain ⟨t, -, h'⟩ := h'
      split_ifs at h' with h1 h2
      · simp only [bind_ok, Prod.exists, Except.ok.injEq] at h'
        obtain ⟨newpage, m₁, -, r, m₂, -, rfl⟩ := h'
        exact ⟨fun _ => ⟨rfl, rfl, rfl⟩, fun _ => ⟨rfl, rfl⟩⟩
      · obtain rfl := Except.ok.inj h'
        exact .refl _ s
      · simp only [bind_ok, Except.ok.injEq] at h'
        obtain ⟨p, -, rfl⟩ := h'
        exact ⟨fun _ => ⟨rfl, rfl, rfl⟩, fun _ => ⟨rfl, rfl⟩⟩
  | liballocAlloc pages =>
      simp only [exec, bind_ok, Prod.exists, Except.ok.injEq, Prod.mk.injEq] at h
      obtain ⟨addr, mem, -, -, rfl⟩ := h
      exact ⟨fun _ => ⟨rfl, rfl, rfl⟩, fun _ => ⟨rfl, rfl⟩⟩
  | liballocFree addr pages =>
      obtain rfl := (exec_pair h).2
      exact ⟨fun _ => ⟨rfl, rfl, rfl⟩, fun _ => ⟨rfl, rfl⟩⟩
  | loadCr3 =>
      have h' := noResult_ok h
      simp only [loadThreadCr3, bind_ok, Except.ok.injEq] at h'
      obtain ⟨t, -, rfl⟩ := h'
      exact ⟨fun _ => ⟨rfl, rfl, rfl⟩, fun _ => ⟨rfl, rfl⟩⟩
  | interfaceCreate | interfaceSend | interfaceRecv =>
      obtain ⟨mem, processes, intfaces, size, next, -, rfl⟩ := exec_quiet hs rfl h
      exact ⟨fun hc => (by cases hc), fun _ => ⟨rfl, rfl⟩⟩

theorem exec_sameInterfaces {s s' : Kernel} {c : Call} {r : Int} (hs : Tables s)
    (hc : c.onInterfaces = false) (h : exec s c = .ok (r, s')) : s.SameInterfaces s' :=
  (exec_frame hs h).interfaces hc

theorem MailInv.resized {s : Kernel} {mail : CString → Option Traffic} {qid : ℕ} {i : Interface}
    (h : MailInv s mail) (hi : s.intfaces[qid]? = some i) (sz : ℕ) :
    MailInv (s.setInterface qid { i with messagesSize := sz }) mail := by
  have hset : MailInv (s.setInterface qid { i with messagesSize := sz })
      (Function.update mail i.name ((mail i.name).map id)) :=
    h.set hi rfl rfl rfl fun tr _ _ hpos hdel => ⟨rfl, hpos, hdel⟩
  rwa [Option.map_id, id_eq, Function.update_eq_self] at hset

theorem MailInv.sent {s : Kernel} {mail : CString → Option Traffic} {qid : ℕ} {i : Interface}
    (h : MailInv s mail) (hi : s.intfaces[qid]? = some i) (sz : ℕ) {m : InterfaceMessage}
    (hm : 0 ≤ m.sender) :
    MailInv (s.setInterface qid { i with messagesSize := sz, messages := i.messages ++ [m] })
      (Function.update mail i.name ((mail i.name).map fun tr => tr.send m)) := by
  refine h.set hi rfl rfl rfl ?_
  rintro tr - - hpos ⟨taken, waiting, hexp⟩
  refine ⟨rfl, ?_, taken, _, hexp.send m⟩
  intro m' hm'
  rcases List.mem_append.mp hm' with hm' | hm'
  · exact hpos m' hm'
  · obtain rfl := List.mem_singleton.mp hm'
    exact hm

theorem MailInv.received {s : Kernel} {mail : CString → Option Traffic} {qid : ℕ} {i : Interface}
    {mid : ℕ} {m : InterfaceMessage} {rc : Receipt} (h : MailInv s mail)
    (hi : s.intfaces[qid]? = some i) (hm : i.messages[mid]? = some m)
    (hdel : i.delivers rc.pid m = true)
    (hfirst : ∀ j < mid, ∀ m', i.messages[j]? = some m' → i.delivers rc.pid m' = false)
    (hret : Returns m rc) :
    MailInv (s.setInterface qid { i with messages := i.messages.eraseIdx mid })
      (Function.update mail i.name ((mail i.name).map fun tr => tr.receive rc)) := by
  refine h.set hi rfl rfl rfl ?_
  rintro tr - hcreator hpos ⟨taken, waiting, hexp⟩
  obtain ⟨k, hexp'⟩ := hexp.receive hm hret (by rw [hcreator]; exact delivers_iff.mp hdel) (by
    intro j hj m' hm' helig
    rw [hcreator] at helig
    have hno := hfirst j hj m' hm'
    rw [delivers_iff.mpr helig] at hno
    cases hno)
  exact ⟨rfl, hpos, _, _, hexp'⟩

theorem MailInv.exec {s s' : Kernel} {mail : CString → Option Traffic} {c : Call} {r : Int}
    (h : MailInv s mail) (hs : Tables s) (hpid : c.SenderPid)
    (hexec : exec s c = .ok (r, s')) : MailInv s' (c.noteMail r s mail) := by
  cases c with
  | interfaceCreate name pid flags =>
      obtain ⟨rfl, rfl⟩ := exec_pair hexec
      rcases interfaceCreate_cases s name pid flags with ⟨hneg, hsame⟩ | ⟨hzero, hnew, -, hadd⟩
      · simp only [Call.noteMail, if_neg (Int.ne_of_lt hneg), hsame]
        exact h
      · simp only [Call.noteMail, if_pos hzero]
        exact h.created (i := newInterface s name pid flags) hnew rfl (by rw [hadd])
  | interfaceDelete name pid =>
      obtain ⟨rfl, rfl⟩ := exec_pair hexec
      rcases interfaceDelete_cases s name pid with ⟨hneg, hsame⟩ | ⟨hzero, qid, i, hi, rfl, hdel⟩
      · simp only [Call.noteMail, if_neg (Int.ne_of_lt hneg), hsame]
        exact h
      · simp only [Call.noteMail, if_pos hzero]
        exact h.deleted hi (by rw [hdel])
  | interfaceSend um name senderpid recvpid buf size =>
      obtain ⟨rfl, rfl⟩ := exec_pair hexec
      rcases interfaceSend_cases s um name senderpid recvpid buf size with
        ⟨hneg, hsame⟩ | ⟨qid, i, hi, rfl, -, ⟨hneg, hsize⟩ | ⟨hzero, hsent⟩⟩
      · simp only [Call.noteMail, if_neg (Int.ne_of_lt hneg), hsame]
        exact h
      · simp only [Call.noteMail, if_neg (Int.ne_of_lt hneg), hsize]
        exact h.resized hi i.grownSize
      · simp only [Call.noteMail, if_pos hzero, hsent]
        exact h.sent hi i.grownSize (hpid senderpid rfl)
  | interfaceRecv um name recvpid buf size sizeOut =>
      obtain ⟨rfl, rfl⟩ := exec_pair hexec
      rcases interfaceRecv_cases s um name recvpid buf size sizeOut with
        ⟨hneg, hsame⟩ | ⟨qid, i, mid, m, hi, rfl, hm, hdel, hfirst, hr, hmem, hrest⟩
      · simp only [Call.noteMail, if_neg (Int.not_le.mpr hneg), hsame]
        exact h
      · have hpos : 0 ≤ m.sender := h.sender_nonneg hi hm
        simp only [Call.noteMail, hr, if_pos hpos, hrest]
        exact h.received hi hm hdel hfirst ⟨rfl, hmem⟩
  | _ =>
      rw [Call.noteMail_eq rfl]
      exact h.same (exec_sameInterfaces hs rfl hexec).intfaces

theorem MailInv.started {s : Kernel} (h : Started s) : MailInv s fun _ => none := by
  have hno : s.intfaces = [] := by
    obtain ⟨mem, eflags, idleLoop, h⟩ := h
    simp only [schedInit, bind_ok, Prod.exists, Except.ok.injEq] at h
    obtain ⟨pid, s₁, hcreate, tid, s₂, hthread, rfl⟩ := h
    obtain ⟨-, p, mem', -, rfl⟩ := schedCreateProcess_ok hcreate
    obtain ⟨-, -, p', t, mem'', -, -, rfl⟩ := schedCreateThread_ok hthread
    rfl
  refine ⟨?_, fun _ _ htr => (by cases htr), ?_⟩
  · rw [hno]
    exact List.nodup_nil
  · rw [hno]
    simp

/-- **Message queues deliver exactly once and in order**: in every state of every run, each
interface has delivered what the record of its traffic says, and its queue is the rest. -/
theorem mail_exact {st : MailState} (h : Reach MailStep (fun _ c => c.SenderPid) MailStart st) :
    MailExact st := by
  have hinv : Tables st.kernel ∧ MailInv st.kernel st.mail := by
    refine h.invariant (I := fun st => Tables st.kernel ∧ MailInv st.kernel st.mail) ?_ ?_
    · rintro ⟨s, mail⟩ ⟨hst, rfl⟩
      exact ⟨.started hst, .started hst⟩
    · rintro st c st' ⟨hs, hinv⟩ hpid hstep
      obtain ⟨r, s', hexec, rfl⟩ := hstep.exists_exec
      exact ⟨hs.exec hexec, hinv.exec hs hpid hexec⟩
  exact hinv.2.exact

/-- Memory in which every address may be read and written. -/
def flatMemory : UserMem :=
  { byte := fun a => UInt8.ofNat a, readable := fun _ => true, writable := fun _ => true
    touched := [] }

/-- Process 2 sends two messages to the creator and one to anyone; process 3 and process 1 receive. -/
theorem mail_exact_received : ∃ st : MailState, (∃ tr ∈ st.mail [0x61],
    tr.sent.length = 3 ∧ tr.receipts.map Receipt.pid = [3, 1]) ∧ MailExact st := by
  have hrun : BootRuns (fun s => (⟨s, fun _ => none⟩ : MailState)) MailState.exec
      (fun _ c => c.SenderPid)
      (fun st => ∃ tr ∈ st.mail [0x61], tr.sent.length = 3 ∧ tr.receipts.map Receipt.pid = [3, 1])
      [.createProcess 0 [], .interfaceCreate [0x61] 1 0,
        .interfaceSend flatMemory [0x61] 2 0 0x1000 4, .interfaceSend flatMemory [0x61] 2 (-1) 0x1004 4,
        .interfaceSend flatMemory [0x61] 2 0 0x1008 4,
        .interfaceRecv flatMemory [0x61] 3 0x2000 8 0x3000,
        .interfaceRecv flatMemory [0x61] 1 0x2000 2 0x3000] := by decide +kernel
  have hstart : ∀ s, Started s → MailStart ⟨s, fun _ => none⟩ := fun _ hs => ⟨hs, rfl⟩
  obtain ⟨st, hst, htr⟩ := hrun.reach (fun _ _ _ (h : MailStep _ _ _) => h) hstart
  exact ⟨st, htr, mail_exact hst⟩

end GalaxyOS
