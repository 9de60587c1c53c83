import GalaxyOS.Syscall.Strings

/-! # The power service

`init` answers requests on the interface `sys:power`: a client sends `shutdown` or `reboot` to the
creator of the interface and waits for an `int`.  Only one byte of the `int` is sent and received, and
the service compares the name of the command in a buffer that still holds what earlier messages have
left behind the end of the message.

The buffers of the client and the service are in user memory.  `replies` records what the service has
answered and no client has received yet.

`power_exact_iff` says for which messages every client gets the answer to what it has asked for.
`command_decided_iff` is about the buffer, `Interface.Serves` is the invariant of the queue, and
`PowerInv.step` puts the two together. -/

namespace GalaxyOS

open Transition

/-! ### Names and values -/

/-- `"sys:power"`. -/
def sysPower : CString := [0x73, 0x79, 0x73, 0x3A, 0x70, 0x6F, 0x77, 0x65, 0x72]

/-- `"shutdown"`. -/
def shutdownName : CString := [0x73, 0x68, 0x75, 0x74, 0x64, 0x6F, 0x77, 0x6E]

/-- `"reboot"`. -/
def rebootName : CString := [0x72, 0x65, 0x62, 0x6F, 0x6F, 0x74]

/-- The bytes at the address of a string. -/
def CString.at (s : CString) : ℕ → UInt8 := fun i => (s[i]?).getD 0

/-- `strncmp` from byte `i` on. -/
def strncmp (s1 s2 : ℕ → UInt8) (i : ℕ) : ℕ → Int
  | 0 => 0
  | n + 1 =>
      if s1 i ≠ s2 i then (s1 i).toNat - (s2 i).toNat
      else if s1 i = 0 then 0
      else strncmp s1 s2 (i + 1) n

/-- What the service does with a message. -/
inductive PowerCommand where
  | shutdown | reboot | unknown
deriving DecidableEq

/-- The command in the buffer. -/
def powerCommand (buf : ℕ → UInt8) : PowerCommand :=
  if strncmp buf shutdownName.at 0 256 = 0 then .shutdown
  else if strncmp buf rebootName.at 0 256 = 0 then .reboot
  else .unknown

/-- `ret` for each of the commands.  `reboot` answers before it kills the processes. -/
def powerResult : PowerCommand → Int
  | .shutdown => -ENOSYS
  | .reboot => 0
  | .unknown => -ENOSYS

/-- The four bytes of an `int`. -/
def intBytes (ret : Int) : List UInt8 := sizeBytes (ret % 0x100000000).toNat

/-- The `int` at an address. -/
def UserMem.intAt (um : UserMem) (a : ℕ) : Int :=
  intOfReg ((um.byte a).toNat + 0x100 * (um.byte (a + 1)).toNat + 0x10000 * (um.byte (a + 2)).toNat +
    0x1000000 * (um.byte (a + 3)).toNat)

/-! ### The client -/

/-- `powerShutdown` and `powerReboot` up to the receive: the request and its terminator are sent to the
creator. -/
def powerSend (s : Kernel) (um : UserMem) (pid : Int) (name : CString) (buf : ℕ) :
    Int × UserMem × Kernel :=
  interfaceSend s um sysPower pid 0 buf (name.length + 1)

/-- The rest of them: one byte is received into `comret`. -/
def powerReply (s : Kernel) (um : UserMem) (pid : Int) (comret sizeread : ℕ) :
    Int × UserMem × Kernel :=
  match interfaceRecv s um sysPower pid comret 1 sizeread with
  | (rval, um', s') => if rval < 0 then (rval, um', s') else (um'.intAt comret, um', s')

/-! ### The service -/

/-- The kernel, the buffer of the power thread, the message that it is answering, and the answers that
no client has received. -/
structure PowerState where
  kernel : Kernel
  buf : ℕ → UInt8
  serving : Option (Int × PowerCommand)
  replies : List (Int × Int)

/-- The power thread receives a message and then answers it; in between, and before it receives the
next one, other threads make calls.  The buffer, `sizeread` and `ret` are at the given addresses. -/
inductive PowerAct where
  | call (c : Call)
  | receive (um : UserMem) (buf sizeread : ℕ)
  | reply (um : UserMem) (ret : ℕ)

/-- The answers after a call with result `r`. -/
def Call.collected (c : Call) (r : Int) (replies : List (Int × Int)) : List (Int × Int) :=
  match c with
  | .interfaceRecv _ name recvpid _ _ _ =>
      if name = sysPower ∧ 0 ≤ r then replies.eraseP (·.1 = recvpid) else replies
  | _ => replies

/-- `powerthread` of the process `init`, which answers the commands with `result`. -/
def PowerState.exec (init : Int) (result : PowerCommand → Int) (st : PowerState) :
    PowerAct → Except Fault PowerState
  | .call c => do
      let (r, s') ← GalaxyOS.exec st.kernel c
      .ok { st with kernel := s', replies := c.collected r st.replies }
  | .receive um buf sizeread =>
      match interfaceRecv st.kernel um sysPower init buf 256 sizeread with
      | (sender, um', s') =>
          .ok { st with
            kernel := s'
            buf := fun i => um'.byte (buf + i)
            -- if (sender < 0) continue;
            serving :=
              if sender < 0 then none else some (sender, powerCommand fun i => um'.byte (buf + i)) }
  | .reply um ret =>
      match st.serving with
      | none => .ok st
      | some (sender, command) =>
          match interfaceSend st.kernel um sysPower init sender ret 1 with
          | (r, _, s') =>
              .ok { st with
                kernel := s'
                serving := none
                replies :=
                  if r = 0 then st.replies ++ [(sender, result command)] else st.replies }

def PowerStep (init : Int) (result : PowerCommand → Int) (st : PowerState) (a : PowerAct)
    (st' : PowerState) : Prop := st.exec init result a = .ok st'

/-- The message that a receive of `pid` on the interface takes. -/
def Kernel.firstMessage (s : Kernel) (name : CString) (pid : Int) : Option InterfaceMessage :=
  (s.intfaces.find? fun i => i.name = name).bind fun i => i.messages.find? (i.delivers pid)

/-- `init` has created the interface with `INTERFACE_FLAG_PRIVATE` in a run of the kernel. -/
def PowerStart (init : Int) (st : PowerState) : Prop :=
  0 < init ∧ (∃ s, Reach Step (fun _ c => c.SenderPid) Started s ∧
    interfaceCreate s sysPower init 1 = (0, st.kernel)) ∧
  st.buf = (fun _ => 0) ∧ st.serving = none ∧ st.replies = []

/-- The calls of the other processes: they have pids, `init` does nothing else with the interface, and
only its creator may delete it. -/
def Call.NotInit (init : Int) : Call → Prop
  | .interfaceSend _ name senderpid _ _ _ => 0 < senderpid ∧ (name = sysPower → senderpid ≠ init)
  | .interfaceRecv _ name recvpid _ _ _ => name = sysPower → 0 < recvpid ∧ recvpid ≠ init
  | .interfaceDelete name pid => name = sysPower → pid ≠ init
  | _ => True

instance (init : Int) : ∀ c : Call, Decidable (c.NotInit init)
  | .interfaceSend .. => inferInstanceAs (Decidable (_ ∧ _))
  | .interfaceRecv .. => inferInstanceAs (Decidable (_ → _))
  | .interfaceDelete .. => inferInstanceAs (Decidable (_ → _))
  | .createProcess .. | .createThread .. | .forkThread .. | .loadProcess .. | .exitThread
  | .exitProcess .. | .killProcess .. | .suspendThread .. | .checkSuspended .. | .waitProcess ..
  | .pickNext | .interfaceCreate .. | .interfaceWait .. | .setbrk .. | .userFault ..
  | .liballocAlloc .. | .liballocFree .. | .loadCr3 => .isTrue trivial

/-- The power thread receives when it is not answering, its buffer holds what it has left there and
does not overlap `sizeread`, and `ret` holds its answer. -/
def PowerAct.Allowed (init : Int) (result : PowerCommand → Int) (st : PowerState) :
    PowerAct → Prop
  | .call c => c.NotInit init
  | .receive um buf sizeread => st.serving = none ∧
      (∀ i < 256, um.byte (buf + i) = st.buf i) ∧ (sizeread + 4 ≤ buf ∨ buf + 256 ≤ sizeread)
  | .reply um ret => ∀ x ∈ st.serving, [um.byte ret] = (intBytes (result x.2)).take 1

instance (init : Int) (result : PowerCommand → Int) (st : PowerState) :
    ∀ a : PowerAct, Decidable (a.Allowed init result st)
  | .call c => inferInstanceAs (Decidable (c.NotInit init))
  | .receive .. => inferInstanceAs (Decidable (_ ∧ _))
  | .reply .. => inferInstanceAs (Decidable (∀ x ∈ st.serving, _))

/-! ### Commands -/

/-- The buffer begins with the string and its terminator. -/
def Holds (buf : ℕ → UInt8) (s : CString) : Prop := ∀ i ≤ s.length, buf i = s.at i

/-- A message that is the beginning of the name of a command, without a terminator. -/
def Unterminated (m : List UInt8) : Prop := m <+: shutdownName ∨ m <+: rebootName

/-- The command of a message that does not depend on the buffer: the one in a buffer of zeros. -/
def messageCommand (m : List UInt8) : PowerCommand :=
  powerCommand (overlay 0 (m.take 256) fun _ => 0)

theorem CString.at_length (s : CString) : s.at s.length = 0 := by
  unfold CString.at
  rw [List.getElem?_eq_none (Nat.le_refl _), Option.getD_none]

theorem CString.at_ne_zero {s : CString} {i : ℕ} (hs : 0 ∉ s) (hi : i < s.length) : s.at i ≠ 0 := by
  unfold CString.at
  rw [List.getElem?_eq_getElem hi, Option.getD_some]
  exact fun h => hs (h ▸ List.getElem_mem hi)

/-- The comparison goes on up to the terminator. -/
theorem strncmp_eq_zero_iff {buf : ℕ → UInt8} {s : CString} (hs : 0 ∉ s) :
    ∀ {n i : ℕ}, i ≤ s.length → s.length < i + n →
      (strncmp buf s.at i n = 0 ↔ ∀ j, i ≤ j → j ≤ s.length → buf j = s.at j)
  | 0, i, hi, h => absurd h (by omega)
  | n + 1, i, hi, h => by
      unfold strncmp
      split_ifs with hne hzero
      · constructor
        · intro hsub
          apply absurd (UInt8.toNat_inj.mp _) hne
          omega
        · intro hall
          exact absurd (hall i (Nat.le_refl i) hi) hne
      · have heq := not_not.mp hne
        apply iff_of_true rfl
        intro j h1 h2
        have hlast : i = s.length := by
          by_contra hlt
          exact CString.at_ne_zero hs (by omega) (heq ▸ hzero)
        obtain rfl : j = i := by omega
        exact heq
      · have heq := not_not.mp hne
        have hlt : i < s.length := by
          by_contra hge
          obtain rfl : i = s.length := by omega
          exact hzero (heq.trans s.at_length)
        rw [strncmp_eq_zero_iff hs hlt (by omega)]
        constructor
        · intro hall j h1 h2
          by_cases hj : j = i
          · exact hj ▸ heq
          · exact hall j (by omega) h2
        · intro hall j h1 h2
          exact hall j (by omega) h2

theorem holds_iff {buf : ℕ → UInt8} {s : CString} (hs : 0 ∉ s) (hlen : s.length < 256) :
    strncmp buf s.at 0 256 = 0 ↔ Holds buf s := by
  rw [strncmp_eq_zero_iff hs (Nat.zero_le _) (by omega)]
  exact ⟨fun h i hi => h i (Nat.zero_le i) hi, fun h j _ hj => h j hj⟩

theorem shutdownName_holds {buf : ℕ → UInt8} :
    strncmp buf shutdownName.at 0 256 = 0 ↔ Holds buf shutdownName :=
  holds_iff (by decide) (by decide)

theorem rebootName_holds {buf : ℕ → UInt8} :
    strncmp buf rebootName.at 0 256 = 0 ↔ Holds buf rebootName :=
  holds_iff (by decide) (by decide)

/-- Buffers that hold the same commands. -/
theorem powerCommand_congr {buf buf' : ℕ → UInt8}
    (h1 : Holds buf shutdownName ↔ Holds buf' shutdownName)
    (h2 : Holds buf rebootName ↔ Holds buf' rebootName) : powerCommand buf = powerCommand buf' := by
  have hshutdown := shutdownName_holds.trans (h1.trans shutdownName_holds.symm)
  have hreboot := rebootName_holds.trans (h2.trans rebootName_holds.symm)
  exact if_congr hshutdown rfl (if_congr hreboot rfl rfl)

theorem powerCommand_agree {buf buf' : ℕ → UInt8} (h : ∀ i < 256, buf i = buf' i) :
    powerCommand buf = powerCommand buf' := by
  have hholds : ∀ s : CString, s.length < 256 → (Holds buf s ↔ Holds buf' s) := by
    intro s hs
    constructor
    · intro hb i hi
      rw [← h i (by omega)]
      exact hb i hi
    · intro hb i hi
      rw [h i (by omega)]
      exact hb i hi
  exact powerCommand_congr (hholds _ (by decide)) (hholds _ (by decide))

theorem overlay_at {m : List UInt8} {buf : ℕ → UInt8} {i : ℕ} :
    overlay 0 m buf i = (m[i]?).getD (buf i) := by
  unfold overlay
  rw [if_pos (Nat.zero_le i), Nat.sub_zero]

/-- A message that is not the beginning of a name decides whether the buffer holds the name. -/
theorem overlay_holds_congr {m : List UInt8} {s : CString} (h : ¬m <+: s) (buf buf' : ℕ → UInt8) :
    Holds (overlay 0 m buf) s ↔ Holds (overlay 0 m buf') s := by
  by_cases hlen : s.length < m.length
  · have hsame : ∀ i ≤ s.length, overlay 0 m buf i = overlay 0 m buf' i := by
      intro i hi
      rw [overlay_at, overlay_at, List.getElem?_eq_getElem (show i < m.length by omega)]
      rfl
    unfold Holds
    constructor
    · intro hb i hi
      exact (hsame i hi).symm.trans (hb i hi)
    · intro hb i hi
      exact (hsame i hi).trans (hb i hi)
  · -- some byte of the message differs from the name
    have hdiff : ∃ i, ∃ hi : i < m.length, m[i] ≠ s.at i := by
      by_contra hno
      simp only [not_exists, not_not] at hno
      apply h
      rw [List.prefix_iff_eq_take]
      apply List.ext_getElem
      · rw [List.length_take]
        omega
      · intro i h1 h2
        rw [hno i h1, List.getElem_take]
        unfold CString.at
        rw [List.getElem?_eq_getElem (show i < s.length by omega), Option.getD_some]
    obtain ⟨i, hi, hne⟩ := hdiff
    have hnot : ∀ b, ¬Holds (overlay 0 m b) s := by
      intro b hb
      have hbyte := hb i (by omega)
      rw [overlay_at, List.getElem?_eq_getElem hi] at hbyte
      exact hne hbyte
    exact iff_of_false (hnot buf) (hnot buf')

theorem powerCommand_shutdown {buf : ℕ → UInt8} :
    powerCommand buf = .shutdown ↔ Holds buf shutdownName := by
  rw [← shutdownName_holds]
  unfold powerCommand
  split_ifs with h1 h2
  · exact iff_of_true rfl h1
  · exact iff_of_false (by decide) h1
  · exact iff_of_false (by decide) h1

theorem powerCommand_reboot {buf : ℕ → UInt8} :
    powerCommand buf = .reboot ↔ Holds buf rebootName := by
  rw [← rebootName_holds]
  unfold powerCommand
  split_ifs with h1 h2
  · apply iff_of_false (by decide)
    intro h2
    have hs := shutdownName_holds.mp h1 0 (by decide)
    have hr := rebootName_holds.mp h2 0 (by decide)
    exact absurd (hs.symm.trans hr) (by decide)
  · exact iff_of_true rfl h2
  · exact iff_of_false (by decide) h2

/-- The bytes behind the beginning of a name can complete it. -/
theorem overlay_completes {m : List UInt8} {s : CString} (h : m <+: s) :
    Holds (overlay 0 m s.at) s := by
  obtain ⟨rest, rfl⟩ := h
  intro i _
  rw [overlay_at]
  by_cases hi : i < m.length
  · unfold CString.at
    rw [List.getElem?_append_left hi, List.getElem?_eq_getElem hi]
    rfl
  · rw [List.getElem?_eq_none (by omega), Option.getD_none]

/-- Other bytes behind the beginning of a name spoil it. -/
theorem overlay_spoils {m : List UInt8} {s : CString} {b : UInt8} (h : m <+: s) (hb : b ∉ s)
    (hb0 : b ≠ 0) : ¬Holds (overlay 0 m fun _ => b) s := by
  intro hholds
  have hbyte := hholds m.length h.length_le
  rw [overlay_at, List.getElem?_eq_none (Nat.le_refl _), Option.getD_none] at hbyte
  unfold CString.at at hbyte
  cases hget : s[m.length]? with
  | none =>
      rw [hget, Option.getD_none] at hbyte
      exact hb0 hbyte
  | some c =>
      rw [hget, Option.getD_some] at hbyte
      exact hb (hbyte ▸ List.mem_of_getElem? hget)

theorem take_prefix {m : List UInt8} {s : CString} (hs : s.length < 256) :
    m.take 256 <+: s ↔ m <+: s := by
  by_cases hlen : m.length ≤ 256
  · rw [List.take_of_length_le hlen]
  · apply iff_of_false
    · intro h
      have hle := h.length_le
      rw [List.length_take] at hle
      omega
    · intro h
      have hle := h.length_le
      omega

/-- What the power thread does with a message depends on the message alone, unless it is the beginning
of a name. -/
theorem command_decided_iff (m : List UInt8) :
    (∀ buf, powerCommand (overlay 0 (m.take 256) buf) = messageCommand m) ↔ ¬Unterminated m := by
  have hshutdown : m.take 256 <+: shutdownName ↔ m <+: shutdownName := take_prefix (by decide)
  have hreboot : m.take 256 <+: rebootName ↔ m <+: rebootName := take_prefix (by decide)
  unfold Unterminated
  rw [← hshutdown, ← hreboot]
  constructor
  · rintro hsame (h | h)
    · have hyes := powerCommand_shutdown.mpr (overlay_completes h)
      rw [hsame, ← hsame (fun _ => 1)] at hyes
      exact overlay_spoils h (by decide) (by decide) (powerCommand_shutdown.mp hyes)
    · have hyes := powerCommand_reboot.mpr (overlay_completes h)
      rw [hsame, ← hsame (fun _ => 1)] at hyes
      exact overlay_spoils h (by decide) (by decide) (powerCommand_reboot.mp hyes)
  · intro hno buf
    rw [not_or] at hno
    exact powerCommand_congr (overlay_holds_congr hno.1 buf _) (overlay_holds_congr hno.2 buf _)

/-! ### The queue of the service -/

/-- The answer to a client. -/
def answerMessage (init : Int) (x : Int × Int) : InterfaceMessage := ⟨x.1, init, (intBytes x.2).take 1⟩

/-- The interface is private to `init`, the requests in it come from other processes, and everything
else in it is the answers that no client has received. -/
structure Interface.Serves (init : Int) (replies : List (Int × Int)) (i : Interface) : Prop where
  name : i.name = sysPower
  creator : i.creatorPid = init
  isPrivate : i.isPrivate = true
  requests : ∀ m ∈ i.messages, m.pid = 0 → 0 < m.sender ∧ m.sender ≠ init
  answers : i.messages.filter (·.pid ≠ 0) = replies.map (answerMessage init)
  clients : ∀ x ∈ replies, 0 < x.1 ∧ x.1 ≠ init

structure PowerQueue (init : Int) (s : Kernel) (replies : List (Int × Int)) : Prop where
  names : (s.intfaces.map Interface.name).Nodup
  intface : ∃ i ∈ s.intfaces, i.Serves init replies

section Queue

variable {init : Int} {s s' : Kernel} {replies replies' : List (Int × Int)} {i i' : Interface}
  {qid mid : ℕ} {m : InterfaceMessage}

theorem PowerQueue.same (h : PowerQueue init s replies) (hs : s'.intfaces = s.intfaces) :
    PowerQueue init s' replies := by
  constructor
  · rw [hs]
    exact h.names
  · rw [hs]
    exact h.intface

/-- An entry of the table is replaced. -/
theorem PowerQueue.set (h : PowerQueue init s replies) (hi : s.intfaces[qid]? = some i)
    (hs : s'.intfaces = s.intfaces.set qid i') (hname : i'.name = i.name)
    (hother : i.name ≠ sysPower → replies' = replies)
    (hsys : i.Serves init replies → i'.Serves init replies') : PowerQueue init s' replies' := by
  obtain ⟨hnodup, hmem, -, hall⟩ := set_keys h.names hi hname
  obtain ⟨j, hj, hserves⟩ := h.intface
  refine ⟨hs ▸ hnodup, ?_⟩
  rw [hs]
  by_cases hn : i.name = sysPower
  · have hji : j = i :=
      List.inj_on_of_nodup_map h.names hj (List.mem_of_getElem? hi) (hserves.name.trans hn.symm)
    exact ⟨i', hmem, hsys (hji ▸ hserves)⟩
  · rcases hall j hj with hji | hj'
    · exact absurd (hji ▸ hserves.name) hn
    · refine ⟨j, hj', ?_⟩
      rw [hother hn]
      exact hserves

/-- A request is appended. -/
theorem Interface.Serves.request (h : i.Serves init replies) (size : ℕ) (hm : m.pid = 0)
    (hsender : 0 < m.sender ∧ m.sender ≠ init) :
    Interface.Serves init replies
      { i with messagesSize := size, messages := i.messages ++ [m] } := by
  refine ⟨h.name, h.creator, h.isPrivate, ?_, ?_, h.clients⟩
  · intro m' hm' hpid'
    rcases List.mem_append.mp hm' with hm' | hm'
    · exact h.requests m' hm' hpid'
    · obtain rfl := List.mem_singleton.mp hm'
      exact hsender
  · rw [List.filter_append, List.filter_singleton, hm, h.answers]
    simp

/-- An answer is appended. -/
theorem Interface.Serves.answer {x : Int × Int} (h : i.Serves init replies) (size : ℕ)
    (hx : 0 < x.1 ∧ x.1 ≠ init) :
    Interface.Serves init (replies ++ [x])
      { i with messagesSize := size, messages := i.messages ++ [answerMessage init x] } := by
  refine ⟨h.name, h.creator, h.isPrivate, ?_, ?_, ?_⟩
  · intro m' hm' hpid'
    rcases List.mem_append.mp hm' with hm' | hm'
    · exact h.requests m' hm' hpid'
    · obtain rfl := List.mem_singleton.mp hm'
      exact absurd hpid' (Int.ne_of_gt hx.1)
  · have hne : (answerMessage init x).pid ≠ 0 := Int.ne_of_gt hx.1
    rw [List.filter_append, List.filter_singleton, h.answers, List.map_append]
    simp [hne]
  · intro y hy
    rcases List.mem_append.mp hy with hy | hy
    · exact h.clients y hy
    · obtain rfl := List.mem_singleton.mp hy
      exact hx

/-- What a process other than `init` may take out of the queue is the answers addressed to it. -/
theorem Interface.Serves.delivers {pid : Int} (h : i.Serves init replies) (hne : pid ≠ init)
    (hm : m ∈ i.messages) : i.delivers pid m = decide (m.pid = pid) := by
  have hcreator := h.creator
  unfold Interface.delivers
  split_ifs with h1 h2 h3
  · exact (decide_eq_true h1).symm
  · rw [decide_eq_false (fun h' => hne (h'.symm.trans hcreator)), decide_eq_false h1]
  · have hanswer : m ∈ i.messages.filter (·.pid ≠ 0) :=
      List.mem_filter.mpr ⟨hm, decide_eq_true h2⟩
    rw [h.answers] at hanswer
    obtain ⟨x, hx, rfl⟩ := List.mem_map.mp hanswer
    have hpos := (h.clients x hx).1
    have hneg : x.1 = -1 := h3
    omega
  · exact (decide_eq_false h1).symm

/-- A client takes its first answer. -/
theorem Interface.Serves.collect {pid : Int} (h : i.Serves init replies)
    (hpid : 0 < pid ∧ pid ≠ init) (hm : i.messages[mid]? = some m) (hdel : i.delivers pid m = true)
    (hfirst : ∀ j < mid, ∀ m', i.messages[j]? = some m' → i.delivers pid m' = false) :
    (∃ ret, replies.find? (·.1 = pid) = some (pid, ret) ∧ m = answerMessage init (pid, ret)) ∧
      Interface.Serves init (replies.eraseP (·.1 = pid))
        { i with messages := i.messages.eraseIdx mid } := by
  obtain ⟨hlt, hget⟩ := List.getElem?_eq_some_iff.mp hm
  have hidx : i.messages.findIdx? (fun m' => decide (m'.pid = pid)) = some mid := by
    rw [List.findIdx?_eq_some_iff_getElem]
    refine ⟨hlt, ?_, ?_⟩
    · rw [← h.delivers hpid.2 (List.getElem_mem hlt), hget]
      exact hdel
    · intro j hj
      have hj' : j < i.messages.length := by omega
      rw [← h.delivers hpid.2 (List.getElem_mem hj'),
        hfirst j hj _ (List.getElem?_eq_getElem hj')]
      decide
  have herase : i.messages.eraseP (fun m' => decide (m'.pid = pid)) = i.messages.eraseIdx mid := by
    rw [List.eraseP_eq_eraseIdx, hidx]
  have hpq : ∀ m' : InterfaceMessage, (decide (m'.pid ≠ 0) && decide (m'.pid = pid)) =
      decide (m'.pid = pid) := by
    intro m'
    by_cases hm' : m'.pid = pid
    · simp [hm', Int.ne_of_gt hpid.1]
    · simp [hm']
  have hanswer : (fun m' : InterfaceMessage => decide (m'.pid = pid)) ∘ answerMessage init =
      fun x => decide (x.1 = pid) := rfl
  constructor
  · have hfind : (i.messages.filter (·.pid ≠ 0)).find? (fun m' => decide (m'.pid = pid)) =
        some m := by
      rw [List.find?_filter]
      simp only [Bool.decide_and, Bool.decide_eq_true, hpq]
      rw [List.find?_eq_some_iff_getElem]
      obtain ⟨hlt', hp, hno⟩ := List.findIdx?_eq_some_iff_getElem.mp hidx
      refine ⟨hget ▸ hp, mid, hlt, hget, fun j hj => ?_⟩
      simpa using hno j hj
    rw [h.answers, List.find?_map, hanswer] at hfind
    obtain ⟨x, hx, rfl⟩ := Option.map_eq_some_iff.mp hfind
    obtain rfl : x.1 = pid := by simpa using List.find?_some hx
    exact ⟨x.2, hx, rfl⟩
  · refine ⟨h.name, h.creator, h.isPrivate, ?_, ?_, ?_⟩
    · intro m' hm'
      exact h.requests m' (List.mem_of_mem_eraseIdx hm')
    · have hcomm : (i.messages.filter (·.pid ≠ 0)).eraseP (fun m' => decide (m'.pid = pid)) =
          (i.messages.eraseP fun m' => decide (m'.pid = pid)).filter (·.pid ≠ 0) := by
        rw [List.eraseP_filter]
        congr 2
        funext m'
        rw [Bool.and_comm]
        exact hpq m'
      show (i.messages.eraseIdx mid).filter _ = _
      rw [← herase, ← hcomm, h.answers, List.eraseP_map, hanswer]
    · intro x hx
      exact h.clients x (List.mem_of_mem_eraseP hx)

/-- `init` takes a request. -/
theorem Interface.Serves.takeRequest (h : i.Serves init replies) (hm : i.messages[mid]? = some m)
    (hdel : i.delivers init m = true) :
    (0 < m.sender ∧ m.sender ≠ init) ∧
      Interface.Serves init replies { i with messages := i.messages.eraseIdx mid } := by
  obtain ⟨hlt, hget⟩ := List.getElem?_eq_some_iff.mp hm
  have hmem : m ∈ i.messages := List.mem_of_getElem? hm
  have hrequest : m.pid = 0 := by
    by_contra hne
    have hanswer : m ∈ i.messages.filter (·.pid ≠ 0) :=
      List.mem_filter.mpr ⟨hmem, decide_eq_true hne⟩
    rw [h.answers] at hanswer
    obtain ⟨x, hx, rfl⟩ := List.mem_map.mp hanswer
    obtain ⟨hpos, hclient⟩ := h.clients x hx
    rcases delivers_iff.mp hdel with hpid | ⟨hpid, -⟩ | hpid
    · exact hclient hpid
    · exact hne hpid
    · have hneg : x.1 = -1 := hpid
      omega
  refine ⟨h.requests m hmem hrequest, h.name, h.creator, h.isPrivate, ?_, ?_, h.clients⟩
  · intro m' hm'
    exact h.requests m' (List.mem_of_mem_eraseIdx hm')
  · have hsplit : i.messages = i.messages.take mid ++ m :: i.messages.drop (mid + 1) := by
      rw [← hget, List.cons_getElem_drop_succ, List.take_append_drop]
    have hanswers := h.answers
    rw [hsplit, List.filter_append, List.filter_cons_of_neg (by simp [hrequest])] at hanswers
    show (i.messages.eraseIdx mid).filter _ = _
    rw [List.eraseIdx_eq_take_drop_succ, List.filter_append]
    exact hanswers

theorem Interface.Serves.resize (h : i.Serves init replies) (size : ℕ) :
    Interface.Serves init replies { i with messagesSize := size } :=
  ⟨h.name, h.creator, h.isPrivate, h.requests, h.answers, h.clients⟩

/-- Nobody but the creator may address a message on a private interface. -/
theorem interfaceSendCheck_private {senderpid recvpid : Int} {size : ℕ}
    (h : interfaceSendCheck s i senderpid recvpid size = none) (hprivate : i.isPrivate = true)
    (hne : senderpid ≠ i.creatorPid) : recvpid = 0 := by
  by_contra hpid
  unfold interfaceSendCheck at h
  simp only at h
  split_ifs at h with h1 h2 h3 h4
  exact h4 ⟨hprivate, hne, hpid⟩

/-- Another process sends a message, to this interface or to another one. -/
theorem PowerQueue.send {um : UserMem} {name : CString} {senderpid recvpid : Int} {buf size : ℕ}
    (h : PowerQueue init s replies) (hpos : 0 < senderpid)
    (hne : name = sysPower → senderpid ≠ init) :
    PowerQueue init (interfaceSend s um name senderpid recvpid buf size).2.2 replies := by
  rcases interfaceSend_cases s um name senderpid recvpid buf size with
    ⟨-, hsame⟩ | ⟨qid, i, hi, hname, hcheck, ⟨-, hsize⟩ | ⟨-, hsent⟩⟩
  · rw [hsame]
    exact h
  · rw [hsize]
    exact h.set hi rfl rfl (fun _ => rfl) fun hserves => hserves.resize _
  · rw [hsent]
    refine h.set hi rfl rfl (fun _ => rfl) fun hserves => ?_
    have hsender := hne (hname.symm.trans hserves.name)
    have hpid : recvpid = 0 := interfaceSendCheck_private hcheck hserves.isPrivate
      (by rw [hserves.creator]; exact hsender)
    exact hserves.request _ hpid ⟨hpos, hsender⟩

/-- `init` answers. -/
theorem PowerQueue.answer {um : UserMem} {x : Int × Int} {ret : ℕ} (h : PowerQueue init s replies)
    (hx : 0 < x.1 ∧ x.1 ≠ init) (hret : [um.byte ret] = (intBytes x.2).take 1) :
    PowerQueue init (interfaceSend s um sysPower init x.1 ret 1).2.2
      (if (interfaceSend s um sysPower init x.1 ret 1).1 = 0 then replies ++ [x] else replies) := by
  rcases interfaceSend_cases s um sysPower init x.1 ret 1 with
    ⟨hneg, hsame⟩ | ⟨qid, i, hi, hname, -, ⟨hneg, hsize⟩ | ⟨hzero, hsent⟩⟩
  · rw [hsame, if_neg (Int.ne_of_lt hneg)]
    exact h
  · rw [hsize, if_neg (Int.ne_of_lt hneg)]
    exact h.set hi rfl rfl (fun _ => rfl) fun hserves => hserves.resize _
  · rw [hsent, if_pos hzero]
    have hmsg : sentMessage um init x.1 ret 1 = answerMessage init x := by
      unfold answerMessage
      rw [← hret]
      rfl
    rw [hmsg]
    exact h.set hi rfl rfl (fun hother => absurd hname hother) fun hserves => hserves.answer _ hx

/-- Another process receives a message. -/
theorem PowerQueue.recv {um : UserMem} {name : CString} {recvpid : Int} {buf size sizeOut : ℕ}
    (h : PowerQueue init s replies) (hpid : name = sysPower → 0 < recvpid ∧ recvpid ≠ init)
    (hinit : 0 < init) :
    PowerQueue init (interfaceRecv s um name recvpid buf size sizeOut).2.2
      (if name = sysPower ∧ 0 ≤ (interfaceRecv s um name recvpid buf size sizeOut).1 then
        replies.eraseP (·.1 = recvpid) else replies) := by
  rcases interfaceRecv_cases s um name recvpid buf size sizeOut with
    ⟨hneg, hsame⟩ | ⟨qid, i, mid, m, hi, hname, hm, hdel, hfirst, hr, -, hrest⟩
  · rw [hsame, if_neg (fun hc => absurd hc.2 (Int.not_le.mpr hneg))]
    exact h
  · rw [hrest]
    refine h.set hi rfl rfl (fun hother => ?_) fun hserves => ?_
    · rw [if_neg (fun hc => hother (hname.trans hc.1))]
    · have hsys := hname.symm.trans hserves.name
      obtain ⟨⟨ret, -, hanswer⟩, hcollected⟩ := hserves.collect (hpid hsys) hm hdel hfirst
      have hsender : m.sender = init := hanswer ▸ rfl
      rw [if_pos ⟨hsys, by omega⟩]
      exact hcollected

/-- `init` receives a request, from another process. -/
theorem PowerQueue.take (um : UserMem) (buf size sizeOut : ℕ) (h : PowerQueue init s replies) :
    PowerQueue init (interfaceRecv s um sysPower init buf size sizeOut).2.2 replies ∧
      (0 ≤ (interfaceRecv s um sysPower init buf size sizeOut).1 →
        0 < (interfaceRecv s um sysPower init buf size sizeOut).1 ∧
          (interfaceRecv s um sysPower init buf size sizeOut).1 ≠ init) := by
  rcases interfaceRecv_cases s um sysPower init buf size sizeOut with
    ⟨hneg, hsame⟩ | ⟨qid, i, mid, m, hi, hname, hm, hdel, hfirst, hr, -, hrest⟩
  · rw [hsame]
    exact ⟨h, fun hpos => absurd hpos (Int.not_le.mpr hneg)⟩
  · rw [hrest, hr]
    obtain ⟨j, hj, hserves⟩ := h.intface
    have hji : j = i :=
      List.inj_on_of_nodup_map h.names hj (List.mem_of_getElem? hi) (hserves.name.trans hname.symm)
    refine ⟨h.set hi rfl rfl (fun _ => rfl) fun hserves => (hserves.takeRequest hm hdel).2, fun _ => ?_⟩
    exact ((hji ▸ hserves).takeRequest hm hdel).1

/-- Another interface is created. -/
theorem PowerQueue.create (h : PowerQueue init s replies) (name : CString) (pid : Int) (flags : ℕ) :
    PowerQueue init (interfaceCreate s name pid flags).2 replies := by
  rcases interfaceCreate_cases s name pid flags with ⟨-, hsame⟩ | ⟨-, hnew, -, hadd⟩
  · rw [hsame]
    exact h
  · rw [hadd]
    obtain ⟨j, hj, hserves⟩ := h.intface
    refine ⟨?_, j, List.mem_append_left _ hj, hserves⟩
    rw [List.map_append, List.nodup_append]
    refine ⟨h.names, List.nodup_singleton _, ?_⟩
    intro n hn n' hn'
    obtain ⟨k, hk, rfl⟩ := List.mem_map.mp hn
    obtain rfl : n' = name := List.mem_singleton.mp hn'
    exact hnew k hk

/-- Another process deletes an interface. -/
theorem PowerQueue.delete {name : CString} {pid : Int} (h : PowerQueue init s replies)
    (hpid : name = sysPower → pid ≠ init) :
    PowerQueue init (interfaceDelete s name pid).2 replies := by
  obtain ⟨j, hj, hserves⟩ := h.intface
  cases hfind : interfaceFind s.intfaces name with
  | error e =>
      have hsame : (interfaceDelete s name pid).2 = s := by
        unfold interfaceDelete
        rw [hfind]
      rw [hsame]
      exact h
  | ok qid =>
      obtain ⟨i, hi, hname⟩ := interfaceFind_ok hfind
      by_cases hcreator : i.creatorPid = pid
      · have hdel : (interfaceDelete s name pid).2.intfaces = s.intfaces.eraseIdx qid := by
          unfold interfaceDelete
          rw [hfind]
          simp only [hi, if_neg (not_not.mpr hcreator)]
        obtain ⟨hnodup, -, hall⟩ := eraseIdx_keys h.names hi
        refine ⟨hdel ▸ hnodup, j, ?_, hserves⟩
        rw [hdel]
        rcases hall j hj with rfl | hj'
        · exact absurd (hcreator.symm.trans hserves.creator) (hpid (hname.symm.trans hserves.name))
        · exact hj'
      · have hsame : (interfaceDelete s name pid).2 = s := by
          unfold interfaceDelete
          rw [hfind]
          simp only [hi, if_pos hcreator]
        rw [hsame]
        exact h

end Queue

/-! ### Runs -/

structure PowerInv (init : Int) (st : PowerState) : Prop where
  init_pos : 0 < init
  tables : Tables st.kernel
  queue : PowerQueue init st.kernel st.replies
  serving : ∀ x ∈ st.serving, 0 < x.1 ∧ x.1 ≠ init

section Runs

variable {init : Int} {result : PowerCommand → Int} {st st' : PowerState}

theorem PowerInv.call {c : Call} {r : Int} {s' : Kernel} (h : PowerInv init st)
    (hc : c.NotInit init) (hexec : exec st.kernel c = .ok (r, s')) :
    PowerInv init { st with kernel := s', replies := c.collected r st.replies } := by
  refine ⟨h.init_pos, h.tables.exec hexec, ?_, h.serving⟩
  cases c with
  | interfaceCreate name pid flags =>
      obtain ⟨-, rfl⟩ := exec_pair hexec
      exact h.queue.create name pid flags
  | interfaceDelete name pid =>
      obtain ⟨-, rfl⟩ := exec_pair hexec
      exact h.queue.delete hc
  | interfaceSend um name senderpid recvpid buf size =>
      obtain ⟨-, rfl⟩ := exec_pair hexec
      exact h.queue.send hc.1 hc.2
  | interfaceRecv um name recvpid buf size sizeOut =>
      obtain ⟨rfl, rfl⟩ := exec_pair hexec
      exact h.queue.recv hc h.init_pos
  | _ => exact h.queue.same (exec_sameInterfaces h.tables rfl hexec).intfaces

theorem PowerStart.inv (h : PowerStart init st) : PowerInv init st := by
  obtain ⟨hpos, ⟨s, hreach, hcreate⟩, -, hserving, hreplies⟩ := h
  have hs := reach_sound hreach
  have hexec : exec s (.interfaceCreate sysPower init 1) = .ok (0, st.kernel) := by
    show Except.ok (interfaceCreate s sysPower init 1) = _
    rw [hcreate]
  refine ⟨hpos, hs.tables.exec hexec, ?_, ?_⟩
  · rcases interfaceCreate_cases s sysPower init 1 with ⟨hneg, -⟩ | ⟨-, hnew, -, hadd⟩
    · rw [hcreate] at hneg
      exact absurd hneg (Int.lt_irrefl 0)
    · rw [hcreate] at hadd
      simp only at hadd
      rw [hadd, hreplies]
      refine ⟨?_, newInterface s sysPower init 1, List.mem_append_right _ List.mem_cons_self, rfl, rfl,
        rfl, ?_, rfl, ?_⟩
      · rw [List.map_append, List.nodup_append]
        refine ⟨hs.names, List.nodup_singleton _, ?_⟩
        intro n hn n' hn'
        obtain ⟨k, hk, rfl⟩ := List.mem_map.mp hn
        obtain rfl : n' = sysPower := List.mem_singleton.mp hn'
        exact hnew k hk
      · exact fun m hm => absurd hm List.not_mem_nil
      · exact fun x hx => absurd hx List.not_mem_nil
  · rw [hserving]
    exact fun x hx => (by cases hx)

theorem PowerInv.step {a : PowerAct} (h : PowerInv init st) (ha : a.Allowed init result st)
    (hstep : PowerStep init result st a st') : PowerInv init st' := by
  cases a with
  | call c =>
      obtain ⟨⟨r, s'⟩, hexec, hst⟩ := bind_ok.mp hstep
      obtain rfl := Except.ok.inj hst
      exact h.call ha hexec
  | receive um buf sizeread =>
      obtain rfl := Except.ok.inj hstep
      have htake := h.queue.take um buf 256 sizeread
      have hexec : exec st.kernel (.interfaceRecv um sysPower init buf 256 sizeread) =
          .ok (_, _) := rfl
      refine ⟨h.init_pos, h.tables.exec hexec, htake.1, ?_⟩
      intro x hx
      simp only at hx
      split_ifs at hx with hneg
      · cases hx
      · obtain rfl := Option.some.inj hx
        exact htake.2 (Int.not_lt.mp hneg)
  | reply um ret =>
      cases hserving : st.serving with
      | none =>
          unfold PowerStep PowerState.exec at hstep
          rw [hserving] at hstep
          obtain rfl := Except.ok.inj hstep
          exact h
      | some x =>
          unfold PowerStep PowerState.exec at hstep
          rw [hserving] at hstep
          obtain rfl := Except.ok.inj hstep
          have hanswer := h.queue.answer (x := (x.1, result x.2)) (h.serving x hserving)
            (ha x hserving)
          have hexec : exec st.kernel (.interfaceSend um sysPower init x.1 ret 1) = .ok (_, _) := rfl
          exact ⟨h.init_pos, h.tables.exec hexec, hanswer, fun y hy => (by cases hy)⟩

theorem reach_powerInv
    (h : Reach (PowerStep init result) (fun st a => a.Allowed init result st) (PowerStart init) st) :
    PowerInv init st := by
  refine h.invariant (I := PowerInv init) (fun st hst => hst.inv) ?_
  intro st a st' hinv ha hstep
  exact hinv.step ha hstep

/-- The number in a buffer of zeros into which one byte has been received. -/
theorem UserMem.intAt_byte {um : UserMem} {a : ℕ} {b : UInt8} (h0 : um.byte a = b)
    (h1 : um.byte (a + 1) = 0) (h2 : um.byte (a + 2) = 0) (h3 : um.byte (a + 3) = 0) :
    um.intAt a = b.toNat := by
  have hb := b.toNat_lt
  unfold UserMem.intAt
  rw [h0, h1, h2, h3]
  show intOfReg (b.toNat + 0 + 0 + 0) = _
  unfold intOfReg
  rw [if_pos (by omega)]
  omega

/-- The byte of the answer. -/
theorem intBytes_head (ret : Int) :
    ∃ b : UInt8, (intBytes ret).take 1 = [b] ∧ (b.toNat : Int) = ret % 256 := by
  refine ⟨UInt8.ofNat (ret % 0x100000000).toNat, rfl, ?_⟩
  rw [UInt8.toNat_ofNat']
  omega

/-- A client whose answer is in the queue receives a message. -/
theorem powerReply_found {um : UserMem} {pid ret : Int} {comret sizeread : ℕ} (h : PowerInv init st)
    (hret : st.replies.find? (·.1 = pid) = some (pid, ret))
    (hvalid : ValidBuffers um comret 1 sizeread) :
    0 ≤ (interfaceRecv st.kernel um sysPower pid comret 1 sizeread).1 := by
  obtain ⟨i, hi, hserves⟩ := h.queue.intface
  have hclient : 0 < pid ∧ pid ≠ init := hserves.clients _ (List.mem_of_find?_eq_some hret)
  have hunique : ∀ j ∈ st.kernel.intfaces, j.name = sysPower → j = i := fun j hj hname =>
    List.inj_on_of_nodup_map h.queue.names hj hi (hname.trans hserves.name.symm)
  have houtcome := interfaceRecv_outcome st.kernel um sysPower pid comret 1 sizeread
  generalize (interfaceRecv st.kernel um sysPower pid comret 1 sizeread).1 = r at houtcome ⊢
  generalize (interfaceRecv st.kernel um sysPower pid comret 1 sizeread).2.2 = s' at houtcome
  cases houtcome with
  | missing hno => exact absurd hserves.name (hno i hi)
  | @empty j hj hname hno =>
      exfalso
      obtain rfl := hunique j hj hname
      have hanswer : answerMessage init (pid, ret) ∈ j.messages.filter (·.pid ≠ 0) := by
        rw [hserves.answers]
        exact List.mem_map_of_mem (List.mem_of_find?_eq_some hret)
      have hmem := (List.mem_filter.mp hanswer).1
      have hdel := List.any_eq_false.mp hno _ hmem
      rw [hserves.delivers hclient.2 hmem] at hdel
      exact hdel (decide_eq_true rfl)
  | faulted hfault => exact absurd (hvalid.copies _) (by rw [hfault]; decide)
  | @taken qid mid j m hj hname hmid hm hcopy =>
      obtain rfl := hunique j (List.mem_of_getElem? hj) hname
      obtain ⟨hlt, hdel, hfirst⟩ := List.findIdx?_eq_some_iff_getElem.mp hmid
      obtain ⟨hlt', rfl⟩ := List.getElem?_eq_some_iff.mp hm
      have hfirst' : ∀ k < mid, ∀ m', j.messages[k]? = some m' → j.delivers pid m' = false := by
        intro k hk m' hm'
        obtain ⟨hk', rfl⟩ := List.getElem?_eq_some_iff.mp hm'
        exact Bool.eq_false_iff.mpr (hfirst k hk)
      obtain ⟨⟨ret', -, hanswer⟩, -⟩ := hserves.collect hclient hm hdel hfirst'
      rw [hanswer]
      exact Int.le_of_lt h.init_pos

/-- It returns the low byte of the answer. -/
theorem powerReply_value {um : UserMem} {pid ret : Int} {comret sizeread : ℕ} (h : PowerInv init st)
    (hret : st.replies.find? (·.1 = pid) = some (pid, ret))
    (hvalid : ValidBuffers um comret 1 sizeread)
    (hapart : sizeread + 4 ≤ comret ∨ comret + 4 ≤ sizeread)
    (hzero : ∀ k < 4, um.byte (comret + k) = 0) :
    (powerReply st.kernel um pid comret sizeread).1 = ret % 256 := by
  obtain ⟨i, hi, hserves⟩ := h.queue.intface
  have hclient : 0 < pid ∧ pid ≠ init := hserves.clients _ (List.mem_of_find?_eq_some hret)
  have hunique : ∀ j ∈ st.kernel.intfaces, j.name = sysPower → j = i := fun j hj hname =>
    List.inj_on_of_nodup_map h.queue.names hj hi (hname.trans hserves.name.symm)
  rcases interfaceRecv_cases st.kernel um sysPower pid comret 1 sizeread with
    ⟨hneg, -⟩ | ⟨qid, j, mid, m, hj, hname, hm, hdel, hfirst, hr, hbyte, -⟩
  · exact absurd hneg (Int.not_lt.mpr (powerReply_found h hret hvalid))
  · obtain rfl := hunique j (List.mem_of_getElem? hj) hname
    obtain ⟨⟨ret', hret', rfl⟩, -⟩ := hserves.collect hclient hm hdel hfirst
    rw [hret] at hret'
    obtain rfl : ret = ret' := (Prod.mk.inj (Option.some.inj hret')).2
    obtain ⟨b, hb, hval⟩ := intBytes_head ret
    have hbuf : (answerMessage init (pid, ret)).buf.take 1 = [b] := by
      show ((intBytes ret).take 1).take 1 = [b]
      rw [hb]
      rfl
    have hfour : (sizeBytes (min 1 (answerMessage init (pid, ret)).size)).length = 4 := rfl
    have hread : ∀ k < 4, (interfaceRecv st.kernel um sysPower pid comret 1 sizeread).2.1.byte
        (comret + k) = if k = 0 then b else 0 := by
      intro k hk
      rw [hbyte, overlay_outside (by omega), hbuf, overlay_cons, overlay_nil]
      split_ifs with hk0
      · rw [hk0, Nat.add_zero, Function.update_self]
      · rw [Function.update_of_ne (by omega)]
        exact hzero k hk
    have hsender : (interfaceRecv st.kernel um sysPower pid comret 1 sizeread).1 = init := hr
    unfold powerReply
    simp only
    rw [hsender, if_neg (Int.not_lt.mpr (Int.le_of_lt h.init_pos)), ← hval]
    exact UserMem.intAt_byte (hread 0 (by decide)) (hread 1 (by decide)) (hread 2 (by decide))
      (hread 3 (by decide))

theorem PowerStep.serving_eq {um : UserMem} {buf sizeread : ℕ}
    (h : PowerStep init result st (.receive um buf sizeread) st') :
    st'.serving = if (interfaceRecv st.kernel um sysPower init buf 256 sizeread).1 < 0 then none
      else some ((interfaceRecv st.kernel um sysPower init buf 256 sizeread).1,
        powerCommand fun i =>
          (interfaceRecv st.kernel um sysPower init buf 256 sizeread).2.1.byte (buf + i)) :=
  (congrArg PowerState.serving (Except.ok.inj h)).symm

/-- What the power thread takes out of the queue, and the command that it finds in its buffer. -/
theorem PowerInv.received {um : UserMem} {buf sizeread : ℕ} {sender : Int} {command : PowerCommand}
    (h : PowerInv init st) (ha : (PowerAct.receive um buf sizeread).Allowed init result st)
    (hstep : PowerStep init result st (.receive um buf sizeread) st')
    (hserving : st'.serving = some (sender, command)) :
    ∃ m, st.kernel.firstMessage sysPower init = some m ∧ sender = m.sender ∧
      command = powerCommand (overlay 0 (m.buf.take 256) st.buf) := by
  rw [hstep.serving_eq] at hserving
  split_ifs at hserving with hneg
  obtain ⟨rfl, rfl⟩ := Prod.mk.inj (Option.some.inj hserving)
  rcases interfaceRecv_cases st.kernel um sysPower init buf 256 sizeread with
    ⟨hneg', -⟩ | ⟨qid, i, mid, m, hi, hname, hm, hdel, hfirst, hr, hbyte, -⟩
  · exact absurd hneg' hneg
  · refine ⟨m, ?_, hr, ?_⟩
    · unfold Kernel.firstMessage
      rw [← hname, find_name h.queue.names (List.mem_of_getElem? hi), Option.bind_some,
        List.find?_eq_some_iff_getElem]
      obtain ⟨hlt, hget⟩ := List.getElem?_eq_some_iff.mp hm
      refine ⟨hdel, mid, hlt, hget, fun j hj => ?_⟩
      rw [hfirst j hj _ (List.getElem?_eq_getElem (by omega))]
      rfl
    · apply powerCommand_agree
      intro k hk
      have hfour : (sizeBytes (min 256 m.size)).length = 4 := rfl
      have hapart := ha.2.2
      rw [hbyte, overlay_outside (by omega), overlay_at, ← ha.2.1 k hk]
      unfold overlay
      rw [if_pos (by omega), Nat.add_sub_cancel_left]

/-- **The power service.**  In every run in which other processes send and receive what they like, and
whatever the service answers: a client whose answer is in the queue returns it exactly if it is a number
of one byte; the command that the service executes is that of the message alone, unless the message is
the unterminated beginning of a name; and a message of that kind gets its command from what earlier
messages have left. -/
theorem power_exact_iff
    (h : Reach (PowerStep init result) (fun st a => a.Allowed init result st) (PowerStart init) st) :
    (∀ pid ret um comret sizeread, st.replies.find? (·.1 = pid) = some (pid, ret) →
        ValidBuffers um comret 1 sizeread → (sizeread + 4 ≤ comret ∨ comret + 4 ≤ sizeread) →
        (∀ k < 4, um.byte (comret + k) = 0) →
        ((powerReply st.kernel um pid comret sizeread).1 = ret ↔ 0 ≤ ret ∧ ret ≤ 255)) ∧
      (∀ m ∈ st.kernel.firstMessage sysPower init, ¬Unterminated m.buf → ∀ um buf sizeread st',
        (PowerAct.receive um buf sizeread).Allowed init result st →
        PowerStep init result st (.receive um buf sizeread) st' → ∀ sender command,
        st'.serving = some (sender, command) → command = messageCommand m.buf) ∧
      ∀ m, (∀ buf, powerCommand (overlay 0 (m.take 256) buf) = messageCommand m) ↔
        ¬Unterminated m := by
  have hinv := reach_powerInv h
  refine ⟨?_, ?_, command_decided_iff⟩
  · intro pid ret um comret sizeread hret hvalid hapart hzero
    rw [powerReply_value hinv hret hvalid hapart hzero]
    omega
  · intro m hm hdecided um buf sizeread st' ha hstep sender command hserving
    obtain ⟨m', hm', -, hcommand⟩ := hinv.received ha hstep hserving
    obtain rfl := Option.some.inj (hm'.symm.trans hm)
    rw [hcommand]
    exact (command_decided_iff m'.buf).mpr hdecided st.buf

end Runs

/-! ### Two requests -/

/-- Memory in which the bytes `bs` stand at `0x1000`, and zeros everywhere else. -/
def textMemory (bs : List UInt8) : UserMem := { flatMemory with byte := overlay 0x1000 bs fun _ => 0 }

/-- The service after `init`, which is process 1, has created the interface. -/
def powerStarted (s : Kernel) : PowerState := ⟨(interfaceCreate s sysPower 1 1).2, fun _ => 0, none, []⟩

/-- A service that has been started after boot makes the steps `as`. -/
theorem power_reach {P : PowerState → Prop} {as : List PowerAct}
    (h : BootRuns id execState (fun _ c => c.SenderPid) (fun s =>
      (interfaceCreate s sysPower 1 1).1 = 0 ∧
        Runs (PowerState.exec 1 powerResult) (fun st a => a.Allowed 1 powerResult st) P as
          (powerStarted s)) [.createProcess 0 []]) :
    ∃ st, Reach (PowerStep 1 powerResult) (fun st a => a.Allowed 1 powerResult st) (PowerStart 1) st ∧
      P st := by
  obtain ⟨s, hs, hcreate, hruns⟩ := h.reach (fun _ _ _ => execState_step) fun _ hstart => hstart
  have hstart : PowerStart 1 (powerStarted s) :=
    ⟨by decide, ⟨s, hs, Prod.ext hcreate rfl⟩, rfl, rfl, rfl⟩
  exact hruns.reach (fun _ _ _ hstep => hstep) (.start hstart)

/-- Process 2 asks for a reboot, and the answer is 0. -/
theorem power_exact_reboot : ∃ st : PowerState, st.replies.find? (·.1 = 2) = some (2, 0) ∧
    (powerReply st.kernel (textMemory []) 2 0x2000 0x1000).1 = 0 := by
  have hrun : BootRuns id execState (fun _ c => c.SenderPid) (fun s =>
      (interfaceCreate s sysPower 1 1).1 = 0 ∧
        Runs (PowerState.exec 1 powerResult) (fun st a => a.Allowed 1 powerResult st)
          (fun st => st.replies = [(2, 0)])
          [.call (.interfaceSend (textMemory (rebootName ++ [0])) sysPower 2 0 0x1000 7),
            .receive (textMemory []) 0x2000 0x1000, .reply (textMemory []) 0x3000]
          (powerStarted s)) [.createProcess 0 []] := by
    decide +kernel
  obtain ⟨st, hst, hreplies⟩ := power_reach hrun
  have hfind : st.replies.find? (·.1 = 2) = some (2, 0) := by
    rw [hreplies]
    rfl
  refine ⟨st, hfind, ?_⟩
  exact ((power_exact_iff hst).1 2 0 (textMemory []) 0x2000 0x1000 hfind (by decide) (by decide)
    (by decide)).mpr (by decide)

/-- The answer to a shutdown is `-ENOSYS`, which is -1, and process 2 returns 255.  A message of no
bytes then shuts the system down once more. -/
theorem power_reply_truncated :
    (∃ st : PowerState,
      Reach (PowerStep 1 powerResult) (fun st a => a.Allowed 1 powerResult st) (PowerStart 1) st ∧
      st.replies.find? (·.1 = 2) = some (2, -1) ∧
      (powerReply st.kernel (textMemory []) 2 0x2000 0x1000).1 = 255) ∧
    ∃ st : PowerState,
      Reach (PowerStep 1 powerResult) (fun st a => a.Allowed 1 powerResult st) (PowerStart 1) st ∧
      st.serving = some (2, .shutdown) ∧ messageCommand [] = .unknown := by
  have hshutdown : BootRuns id execState (fun _ c => c.SenderPid) (fun s =>
      (interfaceCreate s sysPower 1 1).1 = 0 ∧
        Runs (PowerState.exec 1 powerResult) (fun st a => a.Allowed 1 powerResult st)
          (fun st => st.replies = [(2, -1)] ∧
            (powerReply st.kernel (textMemory []) 2 0x2000 0x1000).1 = 255)
          [.call (.interfaceSend (textMemory (shutdownName ++ [0])) sysPower 2 0 0x1000 9),
            .receive (textMemory []) 0x2000 0x1000, .reply (textMemory [0xFF]) 0x1000]
          (powerStarted s)) [.createProcess 0 []] := by
    decide +kernel
  have hempty : BootRuns id execState (fun _ c => c.SenderPid) (fun s =>
      (interfaceCreate s sysPower 1 1).1 = 0 ∧
        Runs (PowerState.exec 1 powerResult) (fun st a => a.Allowed 1 powerResult st)
          (fun st => st.serving = some (2, .shutdown))
          [.call (.interfaceSend (textMemory (shutdownName ++ [0])) sysPower 2 0 0x1000 9),
            .receive (textMemory []) 0x1000 0x3000, .reply (textMemory [0xFF]) 0x1000,
            .call (.interfaceSend (textMemory []) sysPower 2 0 0x1000 0),
            .receive (textMemory shutdownName) 0x1000 0x3000]
          (powerStarted s)) [.createProcess 0 []] := by
    decide +kernel
  obtain ⟨st, hst, hreplies, hvalue⟩ := power_reach hshutdown
  obtain ⟨st', hst', hserving⟩ := power_reach hempty
  refine ⟨⟨st, hst, ?_, hvalue⟩, st', hst', hserving, by decide +kernel⟩
  rw [hreplies]
  rfl

end GalaxyOS
