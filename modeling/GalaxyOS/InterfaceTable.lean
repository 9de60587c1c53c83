import GalaxyOS.Delivery

/-! # The table of interfaces

What every call does to the interfaces, `InterfaceStep`, and what follows from it for all runs.

* `interfaces_bounded`: the limits of `interface.c` hold in every reachable state, and the sum of
  the queued sizes that `interface_send` computes in 32 bits is the true one.
* `interfaces_atomic`: a call that returns an error leaves all interfaces as they were, and a call
  that succeeds touches no interface but the one it names.
* `private_unspoofed`: what other processes receive from a private interface comes from its creator,
  and what they send to it goes to its creator.

`InterfaceStep.bounded` and `MessageStep.toCreator` are the steps of the first and the third, and
`Reach.invariant` makes runs of them. -/

namespace GalaxyOS

open Transition Mailbox

/-! ### The effect of a call -/

/-- What a send or a receive with result `r` does to the interface it names. -/
inductive MessageStep (s : Kernel) (i : Interface) : Call → Int → Interface → Prop
  | faulted {um : UserMem} {senderpid recvpid : Int} {buf size : ℕ} {r : Int} : r < 0 →
      interfaceSendCheck s i senderpid recvpid size = none →
      MessageStep s i (.interfaceSend um i.name senderpid recvpid buf size) r
        { i with messagesSize := i.grownSize }
  | sent {um : UserMem} {senderpid recvpid : Int} {buf size : ℕ} :
      interfaceSendCheck s i senderpid recvpid size = none →
      MessageStep s i (.interfaceSend um i.name senderpid recvpid buf size) 0 { i with
        messagesSize := i.grownSize
        messages := i.messages ++ [sentMessage um senderpid recvpid buf size] }
  | received {um : UserMem} {recvpid : Int} {buf size sizeOut mid : ℕ} {m : InterfaceMessage} :
      i.messages[mid]? = some m → i.delivers recvpid m = true →
      MessageStep s i (.interfaceRecv um i.name recvpid buf size sizeOut) m.sender
        { i with messages := i.messages.eraseIdx mid }

/-- What a call with result `r` does to the interfaces. -/
inductive InterfaceStep (s s' : Kernel) : Call → Int → Prop
  | same {c : Call} {r : Int} : (c.onInterfaces = true → r < 0) → s.SameInterfaces s' →
      InterfaceStep s s' c r
  | created {name : CString} {pid : Int} {flags : ℕ} : (∀ i ∈ s.intfaces, i.name ≠ name) →
      s.intfaces.length < maxInterfaces →
      s' = { s with
        intfaces := s.intfaces ++ [newInterface s name pid flags]
        intfacesSize := s.grownIntfaces
        nextIntf := s.nextIntf + 1 } →
      InterfaceStep s s' (.interfaceCreate name pid flags) 0
  | deleted {pid : Int} {qid : ℕ} {i : Interface} : s.intfaces[qid]? = some i →
      s' = { s with
        threads := fun tid => (s.threads tid).map (Thread.unwait i.addr)
        intfaces := s.intfaces.eraseIdx qid } →
      InterfaceStep s s' (.interfaceDelete i.name pid) 0
  | changed {c : Call} {r : Int} {qid : ℕ} {i i' : Interface} : s.intfaces[qid]? = some i →
      MessageStep s i c r i' → s' = s.setInterface qid i' → InterfaceStep s s' c r

theorem exec_interfaces {s s' : Kernel} {c : Call} {r : Int} (hs : Tables s)
    (h : exec s c = .ok (r, s')) : InterfaceStep s s' c r := by
  cases c with
  | interfaceCreate name pid flags =>
      obtain ⟨rfl, rfl⟩ := exec_pair h
      rcases interfaceCreate_cases s name pid flags with ⟨hneg, hsame⟩ | ⟨hzero, hnew, hmax, hadd⟩
      · rw [hsame]
        exact .same (fun _ => hneg) (.refl s)
      · rw [hzero]
        exact .created hnew hmax hadd
  | interfaceDelete name pid =>
      obtain ⟨rfl, rfl⟩ := exec_pair h
      rcases interfaceDelete_cases s name pid with ⟨hneg, hsame⟩ | ⟨hzero, qid, i, hi, rfl, hdel⟩
      · rw [hsame]
        exact .same (fun _ => hneg) (.refl s)
      · rw [hzero]
        exact .deleted hi hdel
  | interfaceSend um name senderpid recvpid buf size =>
      obtain ⟨rfl, rfl⟩ := exec_pair h
      rcases interfaceSend_cases s um name senderpid recvpid buf size with
        ⟨hneg, hsame⟩ | ⟨qid, i, hi, rfl, hcheck, ⟨hneg, hfault⟩ | ⟨hzero, hsent⟩⟩
      · rw [hsame]
        exact .same (fun _ => hneg) (.refl s)
      · exact .changed hi (.faulted hneg hcheck) hfault
      · rw [hzero]
        exact .changed hi (.sent hcheck) hsent
  | interfaceRecv um name recvpid buf size sizeOut =>
      obtain ⟨rfl, rfl⟩ := exec_pair h
      rcases interfaceRecv_cases s um name recvpid buf size sizeOut with
        ⟨hneg, hsame⟩ | ⟨qid, i, mid, m, hi, rfl, hm, hdel, -, hr, -, hrest⟩
      · rw [hsame]
        exact .same (fun _ => hneg) (.refl s)
      · rw [hr]
        exact .changed hi (.received hm hdel) hrest
  | _ => exact .same (fun hc => by cases hc) (exec_sameInterfaces hs rfl h)

section Steps

variable {s s' : Kernel} {c : Call} {r : Int}

/-- A property of single interfaces that new ones have and that sends and receives keep. -/
theorem InterfaceStep.forall_mem {P : Interface → Prop} (h : InterfaceStep s s' c r)
    (hs : ∀ i ∈ s.intfaces, P i)
    (hnew : ∀ name pid flags, P (newInterface s name pid flags))
    (hq : ∀ i i', P i → MessageStep s i c r i' → P i') : ∀ i ∈ s'.intfaces, P i := by
  cases h with
  | same hr hsame =>
      rw [hsame.intfaces]
      exact hs
  | created hname hmax hs' =>
      subst hs'
      intro i hi
      cases List.mem_append.mp hi with
      | inl hi => exact hs i hi
      | inr hi =>
          obtain rfl := List.mem_singleton.mp hi
          exact hnew _ _ _
  | deleted hi hs' =>
      subst hs'
      exact fun i hi => hs i (List.mem_of_mem_eraseIdx hi)
  | changed hi hstep hs' =>
      subst hs'
      intro j hj
      cases List.mem_or_eq_of_mem_set hj with
      | inl hj => exact hs j hj
      | inr hj =>
          subst hj
          exact hq _ _ (hs _ (List.mem_of_getElem? hi)) hstep

theorem MessageStep.name_eq {i i' : Interface} (h : MessageStep s i c r i') : i'.name = i.name := by
  cases h <;> rfl

theorem InterfaceStep.names (h : InterfaceStep s s' c r)
    (hs : (s.intfaces.map Interface.name).Nodup) : (s'.intfaces.map Interface.name).Nodup := by
  cases h with
  | same hr hsame => rwa [hsame.intfaces]
  | @created name pid flags hname hmax hs' =>
      subst hs'
      rw [List.map_append, List.nodup_append]
      refine ⟨hs, List.pairwise_singleton _ _, fun n hn n' hn' => ?_⟩
      obtain ⟨j, hj, rfl⟩ := List.mem_map.mp hn
      obtain rfl : n' = name := List.mem_singleton.mp hn'
      exact hname j hj
  | deleted hi hs' =>
      subst hs'
      exact (eraseIdx_keys hs hi).1
  | changed hi hstep hs' =>
      subst hs'
      exact (set_keys hs hi hstep.name_eq).1

end Steps

/-! ### Limits -/

/-- The bytes in the messages of a queue. -/
def totalSize : List InterfaceMessage → ℕ
  | [] => 0
  | m :: messages => m.size + totalSize messages

/-- The queue of an interface stays within the limits; what `interface_send` sums up, up to any
point of its loop, does not overflow. -/
structure Interface.Bounded (i : Interface) : Prop where
  count : i.messages.length ≤ maxInterfaceMessages
  capacity : i.messages.length ≤ i.messagesSize
  size : ∀ m ∈ i.messages, m.size ≤ maxInterfaceMessageSize
  total : totalSize i.messages ≤ maxInterfaceQueueBytes
  queued : ∀ l, l <+: i.messages → queuedBytes l = totalSize l

structure InterfacesBounded (s : Kernel) : Prop where
  names : (s.intfaces.map Interface.name).Nodup
  count : s.intfaces.length ≤ maxInterfaces
  capacity : s.intfaces.length ≤ s.intfacesSize
  queues : ∀ i ∈ s.intfaces, i.Bounded

theorem totalSize_append (l l' : List InterfaceMessage) :
    totalSize (l ++ l') = totalSize l + totalSize l' := by
  induction l with
  | nil => simp [totalSize]
  | cons m l ih => rw [List.cons_append, totalSize, totalSize, ih, Nat.add_assoc]

theorem totalSize_eraseIdx (l : List InterfaceMessage) (k : ℕ) :
    totalSize (l.eraseIdx k) ≤ totalSize l := by
  have hsplit : totalSize l = totalSize (l.take k) + totalSize (l.drop k) := by
    rw [← totalSize_append, List.take_append_drop]
  rw [List.eraseIdx_eq_take_drop_succ, totalSize_append, hsplit]
  refine Nat.add_le_add_left ?_ _
  cases hdrop : l.drop k with
  | nil => rw [← List.tail_drop, hdrop, List.tail_nil]
  | cons m rest =>
      rw [← List.tail_drop, hdrop, List.tail_cons, totalSize]
      exact Nat.le_add_left _ _

theorem queuedBytes_eq {l : List InterfaceMessage} (h : totalSize l < 0x100000000) :
    queuedBytes l = totalSize l := by
  have hfold : ∀ (l : List InterfaceMessage) (n : ℕ), n + totalSize l < 0x100000000 →
      l.foldl (fun queued m => wrap32 (queued + m.size)) n = n + totalSize l := by
    intro l
    induction l with
    | nil =>
        intro n hn
        rfl
    | cons m l ih =>
        intro n hn
        rw [totalSize] at hn
        have hwrap : wrap32 (n + m.size) = n + m.size := Nat.mod_eq_of_lt (by omega)
        rw [List.foldl_cons, hwrap, ih (n + m.size) (by omega), totalSize, Nat.add_assoc]
  have hzero := hfold l 0 (by omega)
  rwa [Nat.zero_add] at hzero

/-- No sum of queued sizes overflows as long as they fit into the queue. -/
theorem Interface.Bounded.mk' {i : Interface} (hcount : i.messages.length ≤ maxInterfaceMessages)
    (hcap : i.messages.length ≤ i.messagesSize)
    (hsize : ∀ m ∈ i.messages, m.size ≤ maxInterfaceMessageSize)
    (htotal : totalSize i.messages ≤ maxInterfaceQueueBytes) : i.Bounded := by
  refine ⟨hcount, hcap, hsize, htotal, ?_⟩
  rintro l ⟨rest, hrest⟩
  refine queuedBytes_eq (Nat.lt_of_le_of_lt (Nat.le_trans ?_ htotal) (by decide))
  rw [← hrest, totalSize_append]
  exact Nat.le_add_right _ _

theorem interfaceSendCheck_none {s : Kernel} {i : Interface} {senderpid recvpid : Int} {size : ℕ}
    (h : interfaceSendCheck s i senderpid recvpid size = none) :
    size ≤ maxInterfaceMessageSize ∧ i.messages.length < maxInterfaceMessages ∧
      queuedBytes i.messages + size ≤ maxInterfaceQueueBytes ∧
      (i.isPrivate = true → senderpid ≠ i.creatorPid → recvpid = 0) := by
  unfold interfaceSendCheck at h
  simp only at h
  split_ifs at h with hmsg hcount hqueued hprivate howner
  refine ⟨by omega, by omega, by omega, fun hp hs => ?_⟩
  by_contra hr
  exact hprivate ⟨hp, hs, hr⟩

theorem Interface.grownSize_gt {i : Interface} (h : i.messages.length ≤ i.messagesSize) :
    i.messages.length < i.grownSize ∧ i.messagesSize ≤ i.grownSize := by
  unfold Interface.grownSize
  split_ifs <;> omega

theorem sentMessage_size (um : UserMem) (senderpid recvpid : Int) (buf size : ℕ) :
    (sentMessage um senderpid recvpid buf size).size = size := by
  simp [sentMessage, InterfaceMessage.size]

theorem newInterface_bounded (s : Kernel) (name : CString) (pid : Int) (flags : ℕ) :
    (newInterface s name pid flags).Bounded :=
  .mk' (Nat.zero_le _) (Nat.zero_le _) (by simp [newInterface]) (Nat.zero_le _)

theorem MessageStep.bounded {s : Kernel} {i i' : Interface} {c : Call} {r : Int}
    (h : MessageStep s i c r i') (hi : i.Bounded) : i'.Bounded := by
  have hgrown := Interface.grownSize_gt hi.capacity
  cases h with
  | faulted hr hcheck =>
      exact .mk' hi.count (Nat.le_of_lt hgrown.1) hi.size hi.total
  | sent hcheck =>
      obtain ⟨hsize, hcount, hqueued, -⟩ := interfaceSendCheck_none hcheck
      rw [hi.queued _ (List.prefix_refl _)] at hqueued
      refine .mk' ?_ ?_ ?_ ?_
      · rw [List.length_append]
        exact hcount
      · rw [List.length_append]
        exact hgrown.1
      · intro m hm
        cases List.mem_append.mp hm with
        | inl hm => exact hi.size m hm
        | inr hm =>
            obtain rfl := List.mem_singleton.mp hm
            rwa [sentMessage_size]
      · rw [totalSize_append, totalSize, totalSize, sentMessage_size]
        exact hqueued
  | received hm hdel =>
      have hsub := List.eraseIdx_sublist i.messages ‹ℕ›
      refine .mk' (Nat.le_trans hsub.length_le hi.count) (Nat.le_trans hsub.length_le hi.capacity)
        (fun m hm => hi.size m (List.mem_of_mem_eraseIdx hm))
        (Nat.le_trans (totalSize_eraseIdx _ _) hi.total)

theorem InterfaceStep.count {s s' : Kernel} {c : Call} {r : Int} (h : InterfaceStep s s' c r)
    (hs : s.intfaces.length ≤ maxInterfaces) : s'.intfaces.length ≤ maxInterfaces := by
  cases h with
  | same hr hsame => rwa [hsame.intfaces]
  | created hname hmax hs' =>
      subst hs'
      rw [List.length_append]
      exact hmax
  | deleted hi hs' =>
      subst hs'
      exact Nat.le_trans (List.eraseIdx_sublist s.intfaces _).length_le hs
  | changed hi hstep hs' =>
      subst hs'
      exact (List.length_set ..).trans_le hs

theorem InterfaceStep.capacity {s s' : Kernel} {c : Call} {r : Int} (h : InterfaceStep s s' c r)
    (hs : s.intfaces.length ≤ s.intfacesSize) : s'.intfaces.length ≤ s'.intfacesSize := by
  cases h with
  | same hr hsame => rwa [hsame.intfaces, hsame.size]
  | created hname hmax hs' =>
      subst hs'
      simp only [List.length_append, List.length_singleton, Kernel.grownIntfaces]
      split_ifs <;> omega
  | deleted hi hs' =>
      subst hs'
      exact Nat.le_trans (List.eraseIdx_sublist s.intfaces _).length_le hs
  | changed hi hstep hs' =>
      subst hs'
      exact (List.length_set ..).trans_le hs

theorem InterfaceStep.bounded {s s' : Kernel} {c : Call} {r : Int} (h : InterfaceStep s s' c r)
    (hs : InterfacesBounded s) : InterfacesBounded s' :=
  ⟨h.names hs.names, h.count hs.count, h.capacity hs.capacity,
    h.forall_mem hs.queues (newInterface_bounded s) fun _ _ hi hq => hq.bounded hi⟩

theorem started_intfaces {s : Kernel} (h : Started s) : s.intfaces = [] := by
  obtain ⟨mem, eflags, idleLoop, h⟩ := h
  simp only [schedInit, bind_ok, Prod.exists, Except.ok.injEq] at h
  obtain ⟨pid, s₁, hcreate, tid, s₂, hthread, rfl⟩ := h
  obtain ⟨-, p, mem', -, rfl⟩ := schedCreateProcess_ok hcreate
  obtain ⟨-, -, p', t, mem'', -, -, rfl⟩ := schedCreateThread_ok hthread
  rfl

theorem Started.bounded {s : Kernel} (h : Started s) : InterfacesBounded s := by
  have hno := started_intfaces h
  constructor
  all_goals simp [hno]

theorem reach_bounded {ok : Kernel → Call → Prop} {s : Kernel} (h : Reach Step ok Started s) :
    Tables s ∧ InterfacesBounded s := by
  refine h.invariant (I := fun s => Tables s ∧ InterfacesBounded s) ?_ ?_
  · exact fun s hs => ⟨.started hs, hs.bounded⟩
  · rintro s c s' ⟨hs, hb⟩ - ⟨r, hexec⟩
    exact ⟨hs.exec hexec, (exec_interfaces hs hexec).bounded hb⟩

/-- **The limits of the interface table** hold in every reachable state. -/
theorem interfaces_bounded {s : Kernel} (h : Reach Step (fun _ _ => True) Started s) :
    InterfacesBounded s := (reach_bounded h).2

/-- Two interfaces, one of them with two queued messages. -/
theorem interfaces_bounded_queued : ∃ s : Kernel, s.intfaces.map (·.messages.length) = [2, 0] ∧
    InterfacesBounded s := by
  have hrun : BootRuns id execState (fun _ _ => True)
      (fun s => s.intfaces.map (·.messages.length) = [2, 0])
      [.createProcess 3 [], .interfaceCreate [0x61] 1 0, .interfaceCreate [0x62] 1 1,
        .interfaceCreate [0x61] 2 0, .interfaceSend flatMemory [0x61] 2 0 0x1000 4,
        .interfaceSend flatMemory [0x61] 2 (-1) 0x1004 4] := by decide +kernel
  obtain ⟨s, hs, hlen⟩ := hrun.reach (fun _ _ _ => execState_step) fun _ hs => hs
  exact ⟨s, hlen, interfaces_bounded hs⟩

/-! ### Atomic calls -/

/-- What a call that fails may not change. -/
def Interface.content (i : Interface) : CString × Int × ℕ × List InterfaceMessage :=
  (i.name, i.creatorPid, i.flags, i.messages)

/-- The interface that a call on the table names. -/
def Call.interfaceName : Call → Option CString
  | .interfaceCreate name _ _ => some name
  | .interfaceDelete name _ => some name
  | .interfaceSend _ name _ _ _ _ => some name
  | .interfaceRecv _ name _ _ _ _ => some name
  | _ => none

/-- The interfaces with other names. -/
def Kernel.others (s : Kernel) (name : CString) : List Interface :=
  s.intfaces.filter fun i => i.name ≠ name

/-- A call that fails leaves the interfaces as they were, and one that succeeds leaves all but the
one it names as they were. -/
structure CallAtomic (s s' : Kernel) (c : Call) (r : Int) : Prop where
  failed : r < 0 → s'.intfaces.map Interface.content = s.intfaces.map Interface.content
  others : ∀ name, c.interfaceName = some name → 0 ≤ r → s'.others name = s.others name

theorem map_set_eq {α β : Type} {f : α → β} {l : List α} {k : ℕ} {a a' : α} (ha : l[k]? = some a)
    (hf : f a' = f a) : (l.set k a').map f = l.map f := by
  obtain ⟨hk, rfl⟩ := List.getElem?_eq_some_iff.mp ha
  rw [List.map_set, hf, ← List.getElem_map f (h := by rwa [List.length_map]), List.set_getElem_self]

/-- An entry that is filtered out may be left out. -/
theorem filter_eq_take_drop {α : Type} {p : α → Bool} {l : List α} {k : ℕ} {a : α}
    (ha : l[k]? = some a) (hp : p a = false) :
    l.filter p = (l.take k).filter p ++ (l.drop (k + 1)).filter p := by
  obtain ⟨hk, rfl⟩ := List.getElem?_eq_some_iff.mp ha
  calc
    l.filter p = (l.take k ++ l[k] :: l.drop (k + 1)).filter p := by
      rw [← List.drop_eq_getElem_cons hk, List.take_append_drop]
    _ = (l.take k).filter p ++ (l.drop (k + 1)).filter p := by
      rw [List.filter_append, List.filter_cons_of_neg (Bool.eq_false_iff.mp hp)]

theorem filter_set_eq {α : Type} {p : α → Bool} {l : List α} {k : ℕ} {a a' : α}
    (ha : l[k]? = some a) (hp : p a = false) (hp' : p a' = false) :
    (l.set k a').filter p = l.filter p := by
  obtain ⟨hk, -⟩ := List.getElem?_eq_some_iff.mp ha
  rw [List.set_eq_take_append_cons_drop, if_pos hk, List.filter_append,
    List.filter_cons_of_neg (Bool.eq_false_iff.mp hp'), filter_eq_take_drop ha hp]

theorem filter_eraseIdx_eq {α : Type} {p : α → Bool} {l : List α} {k : ℕ} {a : α}
    (ha : l[k]? = some a) (hp : p a = false) : (l.eraseIdx k).filter p = l.filter p := by
  rw [List.eraseIdx_eq_take_drop_succ, List.filter_append, filter_eq_take_drop ha hp]

/-- What a call that succeeds returns is not an error: only a receive returns more than 0, the
sender of a message. -/
def SendersValid (s : Kernel) : Prop := ∀ i ∈ s.intfaces, ∀ m ∈ i.messages, 0 ≤ m.sender

theorem InterfaceStep.sendersValid {s s' : Kernel} {c : Call} {r : Int}
    (h : InterfaceStep s s' c r) (hpid : c.SenderPid) (hs : SendersValid s) : SendersValid s' := by
  refine h.forall_mem (P := fun i => ∀ m ∈ i.messages, 0 ≤ m.sender) hs ?_ ?_
  · intro name pid flags
    simp [newInterface]
  · intro i i' hi hq
    cases hq with
    | faulted hr hcheck => exact hi
    | sent hcheck =>
        intro m hm
        cases List.mem_append.mp hm with
        | inl hm => exact hi m hm
        | inr hm =>
            obtain rfl := List.mem_singleton.mp hm
            exact hpid _ rfl
    | received hm hdel => exact fun m hm => hi m (List.mem_of_mem_eraseIdx hm)

theorem InterfaceStep.atomic {s s' : Kernel} {c : Call} {r : Int} (h : InterfaceStep s s' c r)
    (hs : SendersValid s) : CallAtomic s s' c r := by
  have hother : ∀ name : CString, ∀ i : Interface, i.name = name →
      decide (i.name ≠ name) = false := fun name i hi => by simp [hi]
  cases h with
  | same hr hsame =>
      constructor
      · intro _
        rw [hsame.intfaces]
      · intro name _ _
        unfold Kernel.others
        rw [hsame.intfaces]
  | created hname hmax hs' =>
      subst hs'
      refine ⟨fun hneg => absurd hneg (by decide), ?_⟩
      rintro name ⟨⟩ -
      exact (List.filter_append ..).trans (by simp [newInterface, Kernel.others])
  | deleted hi hs' =>
      subst hs'
      refine ⟨fun hneg => absurd hneg (by decide), ?_⟩
      rintro name ⟨⟩ -
      exact filter_eraseIdx_eq hi (hother _ _ rfl)
  | changed hi hstep hs' =>
      subst hs'
      have hmem := List.mem_of_getElem? hi
      have hname := hstep.name_eq
      cases hstep with
      | faulted hr hcheck =>
          refine ⟨fun _ => map_set_eq hi rfl, ?_⟩
          rintro name ⟨⟩ -
          exact filter_set_eq hi (hother _ _ rfl) (hother _ _ hname)
      | sent hcheck =>
          refine ⟨fun hneg => absurd hneg (by decide), ?_⟩
          rintro name ⟨⟩ -
          exact filter_set_eq hi (hother _ _ rfl) (hother _ _ hname)
      | received hm hdel =>
          have hpos := hs _ hmem _ (List.mem_of_getElem? hm)
          refine ⟨fun hneg => absurd hpos (Int.not_le.mpr hneg), ?_⟩
          rintro name ⟨⟩ -
          exact filter_set_eq hi (hother _ _ rfl) (hother _ _ hname)

theorem reach_sendersValid {ok : Kernel → Call → Prop} (hok : ∀ s c, ok s c → c.SenderPid)
    {s : Kernel} (h : Reach Step ok Started s) : SendersValid s := by
  have hinv : Tables s ∧ SendersValid s := by
    refine h.invariant (I := fun s => Tables s ∧ SendersValid s) ?_ ?_
    · intro s hs
      refine ⟨.started hs, ?_⟩
      simp [SendersValid, started_intfaces hs]
    · rintro s c s' ⟨hs, hv⟩ hpid ⟨r, hexec⟩
      exact ⟨hs.exec hexec, (exec_interfaces hs hexec).sendersValid (hok s c hpid) hv⟩
  exact hinv.2

/-- **Calls on the interface table are atomic**, in every reachable state, and local to the one
interface that they name. -/
theorem interfaces_atomic {s s' : Kernel} {c : Call} {r : Int}
    (h : Reach Step (fun _ c => c.SenderPid) Started s) (hexec : exec s c = .ok (r, s')) :
    (s.intfaces.map Interface.name).Nodup ∧ CallAtomic s s' c r := by
  obtain ⟨hs, hb⟩ := reach_bounded h
  exact ⟨hb.names,
    (exec_interfaces hs hexec).atomic (reach_sendersValid (fun _ _ hpid => hpid) h)⟩

/-- Memory that cannot be written. -/
def readOnlyMemory : UserMem :=
  { byte := fun a => UInt8.ofNat a, readable := fun _ => true, writable := fun _ => false
    touched := [] }

/-- A receive into a buffer that cannot be written fails and keeps the message. -/
theorem interfaces_atomic_faulted : ∃ s s' : Kernel, s.intfaces.map (·.messages.length) = [1] ∧
    exec s (.interfaceRecv readOnlyMemory [0x61] 1 0x2000 8 0x3000) = .ok (-EFAULT, s') ∧
    CallAtomic s s' (.interfaceRecv readOnlyMemory [0x61] 1 0x2000 8 0x3000) (-EFAULT) := by
  have hrun : BootRuns id execState (fun _ c => c.SenderPid)
      (fun s => s.intfaces.map (·.messages.length) = [1] ∧
        (interfaceRecv s readOnlyMemory [0x61] 1 0x2000 8 0x3000).1 = -EFAULT)
      [.createProcess 3 [], .interfaceCreate [0x61] 1 0,
        .interfaceSend flatMemory [0x61] 2 0 0x1000 4] := by decide +kernel
  obtain ⟨s, hs, hlen, hfault⟩ := hrun.reach (fun _ _ _ => execState_step) fun _ hs => hs
  have hexec : exec s (.interfaceRecv readOnlyMemory [0x61] 1 0x2000 8 0x3000) =
      .ok (-EFAULT, (interfaceRecv s readOnlyMemory [0x61] 1 0x2000 8 0x3000).2.2) := by
    rw [exec, hfault]
  exact ⟨s, _, hlen, hexec, (interfaces_atomic hs hexec).2⟩

/-! ### Private interfaces -/

/-- In whose name the call receives a message. -/
def Call.receiver : Call → Option Int
  | .interfaceRecv _ _ recvpid _ _ _ => some recvpid
  | _ => none

/-- The receiver of a message is `currentps->pid` of the caller, and the idle process makes no
system calls. -/
def Call.ReceiverPid (c : Call) : Prop := ∀ pid, c.receiver = some pid → 0 < pid

instance (c : Call) : Decidable c.ReceiverPid := decidableForallSome c.receiver

/-- What other processes have received comes from the creator, and the creator has received what
other processes have sent. -/
structure Unspoofed (tr : Traffic) (queue : List InterfaceMessage) : Prop where
  received : ∀ rc ∈ tr.receipts, rc.pid ≠ tr.creator → rc.sender = tr.creator
  delivered : ∃ taken waiting, Explains (Eligible tr.creator) Returns Receipt.pid tr.sent tr.receipts
      queue taken waiting ∧
    ∀ x ∈ taken, ∀ m, tr.sent[x.1]? = some m → m.sender ≠ tr.creator → x.2.pid = tr.creator

/-- The messages that other processes have sent are addressed to the creator. -/
def Traffic.ToCreator (tr : Traffic) : Prop :=
  (∀ m ∈ tr.sent, m.sender ≠ tr.creator → m.pid = 0) ∧ ∀ rc ∈ tr.receipts, 0 < rc.pid

theorem Traffic.ToCreator.unspoofed {tr : Traffic} {queue : List InterfaceMessage}
    (h : tr.ToCreator) (hdel : tr.Delivered queue) : Unspoofed tr queue := by
  obtain ⟨taken, waiting, hexp⟩ := hdel
  have htaken : ∀ x ∈ taken, ∀ m, tr.sent[x.1]? = some m → m.sender ≠ tr.creator →
      x.2.pid = tr.creator := by
    intro x hx m hm hsender
    obtain ⟨m', hm', -, helig⟩ := hexp.returned x hx
    obtain rfl : m = m' := Option.some.inj (hm.symm.trans hm')
    have hpid : m.pid = 0 := h.1 m (List.mem_of_getElem? hm) hsender
    have hpos : 0 < x.2.pid := h.2 _ (hexp.receipts ▸ List.mem_map_of_mem hx)
    unfold Eligible at helig
    omega
  refine ⟨fun rc hrc hpid => ?_, taken, waiting, hexp, htaken⟩
  rw [← hexp.receipts] at hrc
  obtain ⟨x, hx, rfl⟩ := List.mem_map.mp hrc
  obtain ⟨m, hm, hret, -⟩ := hexp.returned x hx
  rw [hret.1]
  by_contra hsender
  exact hpid (htaken x hx m hm hsender)

/-- The traffic of every private interface goes to or comes from the creator. -/
def PrivateInv (s : Kernel) (mail : CString → Option Traffic) : Prop :=
  ∀ i ∈ s.intfaces, i.isPrivate = true → ∀ tr, mail i.name = some tr →
    tr.creator = i.creatorPid → tr.ToCreator

theorem Call.noteMail_of_ne {c : Call} {name : CString} (h : c.interfaceName ≠ some name) (r : Int)
    (s : Kernel) (mail : CString → Option Traffic) : c.noteMail r s mail name = mail name := by
  have hne : ∀ (p : Prop) [Decidable p] (n : CString) (o : Option Traffic), some n ≠ some name →
      (if p then Function.update mail n o else mail) name = mail name := by
    intro p _ n o hn
    split_ifs
    · exact Function.update_of_ne (fun he => hn (by rw [he])) ..
    · rfl
  cases c with
  | interfaceCreate | interfaceDelete | interfaceSend | interfaceRecv => exact hne _ _ _ h
  | _ => rfl

theorem Call.noteMail_failed {c : Call} {r : Int} (h : c.onInterfaces = true → r < 0) (s : Kernel)
    (mail : CString → Option Traffic) : c.noteMail r s mail = mail := by
  cases c with
  | interfaceCreate | interfaceDelete | interfaceSend =>
      exact if_neg (Int.ne_of_lt (h rfl))
  | interfaceRecv => exact if_neg (Int.not_le.mpr (h rfl))
  | _ => rfl

theorem Traffic.ToCreator.send {tr : Traffic} {m : InterfaceMessage} (h : tr.ToCreator)
    (hm : m.sender ≠ tr.creator → m.pid = 0) : (tr.send m).ToCreator := by
  refine ⟨fun m' hm' => ?_, h.2⟩
  cases List.mem_append.mp hm' with
  | inl hm' => exact h.1 m' hm'
  | inr hm' =>
      obtain rfl := List.mem_singleton.mp hm'
      exact hm

theorem Traffic.ToCreator.receive {tr : Traffic} {rc : Receipt} (h : tr.ToCreator)
    (hrc : 0 < rc.pid) : (tr.receive rc).ToCreator := by
  refine ⟨h.1, fun rc' hrc' => ?_⟩
  cases List.mem_append.mp hrc' with
  | inl hrc' => exact h.2 rc' hrc'
  | inr hrc' =>
      obtain rfl := List.mem_singleton.mp hrc'
      exact hrc

/-- A send to a private interface, or a receive from it, keeps the traffic as it has to be. -/
theorem MessageStep.toCreator {s : Kernel} {mail : CString → Option Traffic} {i i' : Interface}
    {c : Call} {r : Int} {tr : Traffic} (hstep : MessageStep s i c r i') (hok : c.ReceiverPid)
    (hpriv : i.isPrivate = true)
    (h : ∀ tr, mail i.name = some tr → tr.creator = i.creatorPid → tr.ToCreator)
    (htr : c.noteMail r s mail i.name = some tr) (hcreator : tr.creator = i.creatorPid) :
    tr.ToCreator := by
  cases hstep with
  | faulted hr hcheck =>
      rw [Call.noteMail_failed fun _ => hr] at htr
      exact h tr htr hcreator
  | sent hcheck =>
      simp only [Call.noteMail, if_true, Function.update_self] at htr
      obtain ⟨tr₀, htr₀, rfl⟩ := Option.map_eq_some_iff.mp htr
      obtain ⟨-, -, -, hto⟩ := interfaceSendCheck_none hcheck
      exact (h tr₀ htr₀ hcreator).send fun hsender => hto hpriv (hcreator ▸ hsender)
  | received hm hdel =>
      simp only [Call.noteMail] at htr
      split_ifs at htr with hpos
      · rw [Function.update_self] at htr
        obtain ⟨tr₀, htr₀, rfl⟩ := Option.map_eq_some_iff.mp htr
        exact (h tr₀ htr₀ hcreator).receive (hok _ rfl)
      · exact h tr htr hcreator

theorem PrivateInv.step {s s' : Kernel} {mail : CString → Option Traffic} {c : Call} {r : Int}
    (h : PrivateInv s mail) (hnames : (s.intfaces.map Interface.name).Nodup) (hok : c.ReceiverPid)
    (hstep : InterfaceStep s s' c r) : PrivateInv s' (c.noteMail r s mail) := by
  cases hstep with
  | same hr hsame =>
      rw [Call.noteMail_failed hr]
      intro i hi
      exact h i (hsame.intfaces ▸ hi)
  | @created name pid flags hname hmax hs' =>
      subst hs'
      intro i hi hpriv tr htr hcreator
      cases List.mem_append.mp hi with
      | inl hi =>
          have hne : (Call.interfaceCreate name pid flags).interfaceName ≠ some i.name :=
            fun he => hname i hi (Option.some.inj he).symm
          rw [Call.noteMail_of_ne hne] at htr
          exact h i hi hpriv tr htr hcreator
      | inr hi =>
          obtain rfl := List.mem_singleton.mp hi
          simp only [Call.noteMail, if_true, newInterface, Function.update_self,
            Option.some.injEq] at htr
          subst htr
          constructor
          all_goals simp
  | @deleted pid qid i hi hs' =>
      subst hs'
      intro j hj hpriv tr htr hcreator
      obtain ⟨-, hold, -⟩ := eraseIdx_keys hnames hi
      obtain ⟨hj, hname⟩ := hold j hj
      have hne : (Call.interfaceDelete i.name pid).interfaceName ≠ some j.name :=
        fun he => hname (Option.some.inj he).symm
      rw [Call.noteMail_of_ne hne] at htr
      exact h j hj hpriv tr htr hcreator
  | @changed c r qid i i' hi hstep hs' =>
      subst hs'
      intro j hj hpriv tr htr hcreator
      obtain ⟨-, -, hold, -⟩ := set_keys hnames hi hstep.name_eq
      have hcall : c.interfaceName = some i.name := by cases hstep <;> rfl
      rcases hold j hj with rfl | ⟨hj, hne⟩
      · rw [hstep.name_eq] at htr
        have hsame : j.creatorPid = i.creatorPid ∧ j.isPrivate = i.isPrivate := by
          cases hstep <;> exact ⟨rfl, rfl⟩
        exact hstep.toCreator hok (hsame.2 ▸ hpriv)
          (h i (List.mem_of_getElem? hi) (hsame.2 ▸ hpriv)) htr (hsame.1 ▸ hcreator)
      · rw [Call.noteMail_of_ne fun he => hne (Option.some.inj (hcall.symm.trans he)).symm] at htr
        exact h j hj hpriv tr htr hcreator

/-- **Private interfaces cannot be spoofed**: whatever has been received from a private interface
since its creation came from its creator or was received by its creator. -/
theorem private_unspoofed {st : MailState}
    (h : Reach MailStep (fun _ c => c.SenderPid ∧ c.ReceiverPid) MailStart st) :
    ∀ i ∈ st.kernel.intfaces, i.isPrivate = true →
      ∃ tr, st.mail i.name = some tr ∧ tr.creator = i.creatorPid ∧ Unspoofed tr i.messages := by
  have hinv : Tables st.kernel ∧ MailInv st.kernel st.mail ∧ PrivateInv st.kernel st.mail := by
    refine h.invariant
      (I := fun st => Tables st.kernel ∧ MailInv st.kernel st.mail ∧ PrivateInv st.kernel st.mail)
      ?_ ?_
    · rintro ⟨s, mail⟩ ⟨hst, rfl⟩
      refine ⟨.started hst, .started hst, ?_⟩
      simp [PrivateInv]
    · rintro st c st' ⟨hs, hmail, hpriv⟩ ⟨hsend, hrecv⟩ hstep
      obtain ⟨r, s', hexec, rfl⟩ := hstep.exists_exec
      exact ⟨hs.exec hexec, hmail.exec hs hsend hexec,
        hpriv.step hmail.names hrecv (exec_interfaces hs hexec)⟩
  intro i hi hprivate
  obtain ⟨tr, htr, hcreator, -, hdel⟩ := hinv.2.1.delivered i hi
  exact ⟨tr, htr, hcreator, (hinv.2.2 i hi hprivate tr htr hcreator).unspoofed hdel⟩

/-- Processes 1 and 2 send to the private interface of process 1, and processes 2 and 1 receive. -/
theorem private_unspoofed_received : ∃ st : MailState,
    (∃ i ∈ st.kernel.intfaces, i.isPrivate = true ∧ i.name = [0x61]) ∧
    (∃ tr ∈ st.mail [0x61], tr.receipts.map (fun rc => (rc.pid, rc.sender)) = [(2, 1), (1, 2)]) ∧
    ∀ i ∈ st.kernel.intfaces, i.isPrivate = true →
      ∃ tr, st.mail i.name = some tr ∧ tr.creator = i.creatorPid ∧ Unspoofed tr i.messages := by
  have hrun : BootRuns (fun s => (⟨s, fun _ => none⟩ : MailState)) MailState.exec
      (fun _ c => c.SenderPid ∧ c.ReceiverPid)
      (fun st => (∃ i ∈ st.kernel.intfaces, i.isPrivate = true ∧ i.name = [0x61]) ∧
        ∃ tr ∈ st.mail [0x61],
          tr.receipts.map (fun rc => (rc.pid, rc.sender)) = [(2, 1), (1, 2)])
      [.createProcess 3 [], .interfaceCreate [0x61] 1 1,
        .interfaceSend flatMemory [0x61] 2 0 0x1000 4, .interfaceSend flatMemory [0x61] 1 2 0x1000 4,
        .interfaceRecv flatMemory [0x61] 2 0x2000 8 0x3000,
        .interfaceRecv flatMemory [0x61] 1 0x2000 8 0x3000] := by decide +kernel
  have hstart : ∀ s, Started s → MailStart ⟨s, fun _ => none⟩ := fun _ hs => ⟨hs, rfl⟩
  obtain ⟨st, hst, hi, htr⟩ := hrun.reach (fun _ _ _ (h : MailStep _ _ _) => h) hstart
  exact ⟨st, hi, htr, private_unspoofed hst⟩

end GalaxyOS
