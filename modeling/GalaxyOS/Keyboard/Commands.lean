import GalaxyOS.Keyboard.Handler
import GalaxyOS.Lib.Ring

/-! # Commands to the keyboard

Commands wait in a ring of 1024 cells; the first one is sent, and taken from the queue when the device
answers 0xFA.  The handler does not look whether a command has been sent: 0xFA takes the first command
away also if none is in flight, and with an empty queue it moves the indices past each other, so that the
whole ring is sent; 0xFE sends what is at the start of the ring also if the queue is empty.

`keyboardCommands_iff` says that nothing else goes wrong: the driver keeps to the protocol exactly as long
as the device answers to commands only.

`Tracks` relates the driver to the protocol: `ps2kbResendCommand_tracks` and `acked_tracks` keep it, and
`refused_strays` shows how it is lost. -/

namespace GalaxyOS

open Transition StopAndWait
open Fifo (Explained explained_snoc)

variable (beyond : Bool → UInt8 → UInt8)

/-! ### The queue -/

/-- The commands in the queue. -/
def CommandQueue.waiting (q : CommandQueue) : List UInt8 :=
  Ring.contents q.commandQueue q.commandQueueStart q.commandQueueEnd

theorem CommandQueue.waiting_eq_nil {q : CommandQueue} :
    q.waiting = [] ↔ q.commandQueueStart = q.commandQueueEnd :=
  Ring.contents_eq_nil

/-- The first command is at the start of the ring. -/
theorem CommandQueue.waiting_pop {q : CommandQueue} (h : q.waiting ≠ []) :
    q.waiting = q.commandQueue q.commandQueueStart ::
      Ring.contents q.commandQueue (q.commandQueueStart + 1) q.commandQueueEnd :=
  Ring.contents_pop fun heq => h (waiting_eq_nil.mpr heq)

theorem CommandQueue.waiting_push {q : CommandQueue} (h : q.commandQueueEnd + 1 ≠ q.commandQueueStart)
    (byte : UInt8) : Ring.contents (Function.update q.commandQueue q.commandQueueEnd byte)
      q.commandQueueStart (q.commandQueueEnd + 1) = q.waiting ++ [byte] :=
  Ring.contents_push byte (Ring.count_room h)

/-- The log is one of the protocol, with these commands pending, and the driver knows if one of them is
in flight. -/
def Tracks (log : List (Event UInt8)) (q : CommandQueue) : Prop :=
  ∃ link : Link UInt8, Explained LinkStep .init log link ∧ link.pending = q.waiting ∧
    (link.flying = true → q.isSendingCommand = true ∧ q.waiting ≠ [])

/-- The log is one of the protocol, and the commands in the queue are those that have been queued and are
not finished. -/
def Ps2kbHistory.Protocol (h : Ps2kbHistory) : Prop :=
  ∃ link : Link UInt8, Explained LinkStep .init h.seen.commands link ∧
    link.pending = h.driver.commands.waiting ∧
    link.finished ++ h.driver.commands.waiting = queueds h.seen.commands

theorem Tracks.protocol {h : Ps2kbHistory} (ht : Tracks h.seen.commands h.driver.commands) :
    h.Protocol := by
  obtain ⟨link, hlink, hpending, -⟩ := ht
  exact ⟨link, hlink, hpending, hpending ▸ Link.queueds_eq hlink⟩

/-! ### Calls -/

theorem ps2kbSendCommand_tracks {log : List (Event UInt8)} {kb : Ps2kb} (h : Tracks log kb.commands)
    (byte : UInt8) : Tracks (log ++ (ps2kbSendCommand kb byte).1.commands)
      (ps2kbSendCommand kb byte).2.commands := by
  unfold ps2kbSendCommand
  simp only
  split_ifs with hfull
  · rw [show Observed.nothing.commands = [] from rfl, List.append_nil]
    exact h
  · obtain ⟨link, hlink, hpending, hflying⟩ := h
    have hwaiting := CommandQueue.waiting_push hfull byte
    refine ⟨_, hlink.snoc (.queued link byte), ?_, fun hl => ⟨(hflying hl).1, ?_⟩⟩
    · show link.pending ++ [byte] = _
      rw [hpending]
      exact hwaiting.symm
    · unfold CommandQueue.waiting
      simp only [hwaiting]
      exact List.append_ne_nil_of_right_ne_nil _ (List.cons_ne_nil _ _)

/-- Sending the first command, which must not be in flight unless it has been refused. -/
theorem ps2kbResendCommand_tracks {log : List (Event UInt8)} {kb : Ps2kb} {link : Link UInt8}
    (hlink : Explained LinkStep .init log link) (hpending : link.pending = kb.commands.waiting)
    (hflying : link.flying = true → kb.commands.isSendingCommand = true ∧ kb.commands.waiting ≠ [])
    (hmay : link.flying = false ∨ link.mayRepeat = true) (delivered : Bool)
    (hwaiting : (kb.port = 1 ∨ kb.port = 2) → delivered = true → kb.commands.waiting ≠ []) :
    Tracks (log ++ (ps2kbResendCommand kb delivered).1.commands)
      (ps2kbResendCommand kb delivered).2.commands := by
  unfold ps2kbResendCommand
  by_cases hport : kb.port = 1 ∨ kb.port = 2
  · rw [if_pos hport]
    cases delivered with
    | false =>
        refine ⟨link, ?_, hpending, fun hl => ⟨rfl, (hflying hl).2⟩⟩
        show Explained LinkStep .init (log ++ []) link
        rw [List.append_nil]
        exact hlink
    | true =>
        have hne := hwaiting hport rfl
        have hfirst := hpending.trans (CommandQueue.waiting_pop hne)
        exact ⟨_, hlink.snoc (.sent hfirst hmay), hpending, fun _ => ⟨rfl, hne⟩⟩
  · rw [if_neg hport]
    refine ⟨link, ?_, hpending, hflying⟩
    rw [show Observed.nothing.commands = [] from rfl, List.append_nil]
    exact hlink

theorem ps2kbLoop_tracks {log : List (Event UInt8)} {kb : Ps2kb} (h : Tracks log kb.commands)
    (delivered : Bool) : Tracks (log ++ (ps2kbLoop kb delivered).1.commands)
      (ps2kbLoop kb delivered).2.commands := by
  unfold ps2kbLoop
  by_cases hsend : kb.commands.commandQueueEnd ≠ kb.commands.commandQueueStart ∧
      kb.commands.isSendingCommand = false
  · rw [if_pos hsend]
    obtain ⟨link, hlink, hpending, hflying⟩ := h
    obtain ⟨hne, hidle⟩ := hsend
    refine ps2kbResendCommand_tracks hlink hpending hflying (.inl ?_) delivered fun _ _ => ?_
    · by_contra hl
      rw [(hflying (by simpa using hl)).1] at hidle
      cases hidle
    · exact fun hempty => hne (CommandQueue.waiting_eq_nil.mp hempty).symm
  · rw [if_neg hsend, show Observed.nothing.commands = [] from rfl, List.append_nil]
    exact h

/-! ### Answers -/

/-- The answer is one to a command in flight. -/
def Ps2kbCall.Solicited (h : Ps2kbHistory) : Ps2kbCall → Prop
  | .interrupt key delivered =>
      (key = 0xFA → awaiting h.seen.commands = true) ∧
        (key = 0xFE → (h.driver.port = 1 ∨ h.driver.port = 2) → delivered = true →
          h.driver.commands.waiting ≠ [])
  | _ => True

/-- 0xFA takes the first command from the queue, which the protocol does only if it is in flight. -/
theorem acked_tracks {log : List (Event UInt8)} {kb : Ps2kb} (h : Tracks log kb.commands)
    (hflying : awaiting log = true) : Tracks (log ++ [.acked]) (ps2kbSucceedCommand kb).commands := by
  obtain ⟨link, hlink, hpending, hknown⟩ := h
  rw [← Link.flying_eq hlink] at hflying
  have hfirst := hpending.trans (CommandQueue.waiting_pop (hknown hflying).2)
  exact ⟨_, hlink.snoc (.acked hfirst hflying), rfl, fun hl => Bool.noConfusion hl⟩

theorem acked_lost {log : List (Event UInt8)} {kb : Ps2kb} (h : Tracks log kb.commands)
    (hidle : awaiting log = false) {link : Link UInt8}
    (hlink : Explained LinkStep .init (log ++ [.acked]) link) :
    link.pending ≠ (ps2kbSucceedCommand kb).commands.waiting := by
  obtain ⟨before, hbefore, hstep⟩ := explained_snoc.mp hlink
  obtain ⟨link', hlink', hpending, -⟩ := h
  obtain rfl := Link.unique hbefore hlink'
  cases hstep with
  | acked _ hflying => rw [Link.flying_eq hbefore, hidle] at hflying; cases hflying
  | ignored =>
      rw [hpending]
      exact (Ring.contents_next_ne (by decide : 1 < 1024)).symm

theorem refused_tracks {log : List (Event UInt8)} {kb : Ps2kb} (h : Tracks log kb.commands)
    (delivered : Bool) (hwaiting : (kb.port = 1 ∨ kb.port = 2) → delivered = true →
      kb.commands.waiting ≠ []) :
    Tracks (log ++ ([.refused] ++ (ps2kbResendCommand kb delivered).1.commands))
      (ps2kbResendCommand kb delivered).2.commands := by
  obtain ⟨link, hlink, hpending, hflying⟩ := h
  rw [← List.append_assoc]
  refine ps2kbResendCommand_tracks (hlink.snoc (.refused link)) hpending hflying ?_ delivered hwaiting
  cases hl : link.flying with
  | false => exact .inl rfl
  | true => exact .inr rfl

/-- With an empty queue 0xFE sends what is not in it. -/
theorem refused_strays {log : List (Event UInt8)} {kb : Ps2kb} (h : Tracks log kb.commands)
    (hport : kb.port = 1 ∨ kb.port = 2) (hempty : kb.commands.waiting = []) (link : Link UInt8) :
    ¬Explained LinkStep .init (log ++ ([.refused] ++ (ps2kbResendCommand kb true).1.commands)) link := by
  unfold ps2kbResendCommand
  rw [if_pos hport, ← List.append_assoc]
  intro hlink
  obtain ⟨before, hbefore, hstep⟩ := explained_snoc.mp hlink
  obtain ⟨link', hlink', hpending, -⟩ := h
  obtain rfl := Link.unique hbefore (hlink'.snoc (.refused link'))
  cases hstep with
  | sent hfirst =>
      rw [hempty] at hpending
      rw [show _ = [] from hpending] at hfirst
      cases hfirst

/-! ### Runs -/

theorem scanByte_commands (kb : Ps2kb) (key : UInt8) :
    (scanByte beyond kb key).1.commands = [] ∧ (scanByte beyond kb key).2.commands = kb.commands := by
  unfold scanByte
  cases kb.state with
  | release => exact ⟨rfl, rfl⟩
  | extended => exact ⟨rfl, rfl⟩
  | make =>
      simp only
      split_ifs
      · exact ⟨rfl, rfl⟩
      · exact ⟨rfl, rfl⟩
      · unfold pressKey
        simp only
        split_ifs <;> exact ⟨rfl, rfl⟩

/-- A call follows the protocol exactly if an answer is one to a command, and then the driver goes on
knowing what is in flight; the call leads to `r`. -/
def Ps2kbHistory.Follows (h : Ps2kbHistory) (a : Ps2kbCall) (r : Observed × Ps2kb) : Prop :=
  ((Ps2kbHistory.mk r.2 (h.seen.append r.1)).Protocol ↔ a.Solicited h) ∧
    (a.Solicited h → Tracks (h.seen.commands ++ r.1.commands) r.2.commands)

section Follows

variable {h : Ps2kbHistory} {a : Ps2kbCall} {r : Observed × Ps2kb}

theorem Ps2kbHistory.Follows.solicited (hnext : Tracks (h.seen.commands ++ r.1.commands) r.2.commands)
    (hsol : a.Solicited h) : h.Follows a r :=
  ⟨iff_of_true (Tracks.protocol (h := ⟨r.2, h.seen.append r.1⟩) hnext) hsol, fun _ => hnext⟩

theorem Ps2kbHistory.Follows.unsolicited
    (hnext : ¬(Ps2kbHistory.mk r.2 (h.seen.append r.1)).Protocol) (hsol : ¬a.Solicited h) :
    h.Follows a r :=
  ⟨iff_of_false hnext hsol, fun hsol' => absurd hsol' hsol⟩

end Follows

theorem ps2kbHandler_follows {h : Ps2kbHistory} (ht : Tracks h.seen.commands h.driver.commands)
    (key : UInt8) (delivered : Bool) :
    h.Follows (.interrupt key delivered) (ps2kbHandler beyond h.driver key delivered) := by
  unfold ps2kbHandler
  by_cases hFA : key = 0xFA
  · rw [if_pos hFA]
    have hFE : key ≠ 0xFE := by rw [hFA]; decide
    cases hflying : awaiting h.seen.commands with
    | true => exact .solicited (acked_tracks ht hflying) ⟨fun _ => hflying, fun heq => absurd heq hFE⟩
    | false =>
        refine .unsolicited ?_ fun hsol => ?_
        · rintro ⟨link, hlink, hpending, -⟩
          exact acked_lost ht hflying hlink hpending
        · rw [hsol.1 hFA] at hflying
          cases hflying
  rw [if_neg hFA]
  by_cases hFE : key = 0xFE
  · rw [if_pos hFE]
    by_cases hstray : (h.driver.port = 1 ∨ h.driver.port = 2) ∧ delivered = true ∧
        h.driver.commands.waiting = []
    · obtain ⟨hport, rfl, hempty⟩ := hstray
      refine .unsolicited ?_ fun hsol => hsol.2 hFE hport rfl hempty
      rintro ⟨link, hlink, -⟩
      exact refused_strays ht hport hempty link hlink
    · have hwaiting : (h.driver.port = 1 ∨ h.driver.port = 2) → delivered = true →
          h.driver.commands.waiting ≠ [] :=
        fun hport hdelivered hempty => hstray ⟨hport, hdelivered, hempty⟩
      exact .solicited (refused_tracks ht delivered hwaiting)
        ⟨fun heq => absurd heq hFA, fun _ => hwaiting⟩
  · rw [if_neg hFE]
    obtain ⟨hcommands, hsame⟩ := scanByte_commands beyond h.driver key
    refine .solicited ?_ ⟨fun heq => absurd heq hFA, fun heq => absurd heq hFE⟩
    rw [hcommands, List.append_nil, hsame]
    exact ht

theorem Ps2kbCall.run_follows {h : Ps2kbHistory} (ht : Tracks h.seen.commands h.driver.commands)
    (a : Ps2kbCall) : h.Follows a (a.run beyond h.driver) := by
  cases a with
  | interrupt key delivered => exact ps2kbHandler_follows beyond ht key delivered
  | sendCommand byte => exact .solicited (ps2kbSendCommand_tracks ht byte) trivial
  | loop delivered => exact .solicited (ps2kbLoop_tracks ht delivered) trivial
  | readChars size =>
      refine .solicited ?_ trivial
      show Tracks (h.seen.commands ++ []) h.driver.commands
      rw [List.append_nil]
      exact ht

theorem freshPs2kb_tracks (port : UInt8) :
    Tracks (freshPs2kb port).seen.commands (freshPs2kb port).driver.commands :=
  ⟨.init, .nil, (CommandQueue.waiting_eq_nil.mpr rfl).symm, fun h => Bool.noConfusion h⟩

theorem trace_protocol {h : Ps2kbHistory} (ht : Tracks h.seen.commands h.driver.commands)
    (as : List Ps2kbCall) : (∀ t ∈ trace (Ps2kbHistory.step beyond) h as, t.Protocol) ↔
      Admitted (Ps2kbHistory.step beyond) (fun h a => a.Solicited h) h as := by
  refine trace_iff_of _ (I := fun h : Ps2kbHistory => Tracks h.seen.commands h.driver.commands) ?_ ?_ ht
  · exact fun h a ht => (Ps2kbCall.run_follows beyond ht a).1
  · exact fun h a ht => (Ps2kbCall.run_follows beyond ht a).2

/-- The driver keeps to the protocol in every state of a run exactly if the device answers to commands
only. -/
theorem keyboardCommands_iff (port : UInt8) (as : List Ps2kbCall) :
    (∀ h ∈ trace (Ps2kbHistory.step beyond) (freshPs2kb port) as, h.Protocol) ↔
      Admitted (Ps2kbHistory.step beyond) (fun h a => a.Solicited h) (freshPs2kb port) as :=
  trace_protocol beyond (freshPs2kb_tracks port) as

/-- The device acknowledges before the command has been sent: it never is. -/
theorem early_ack_drops : ¬∀ h ∈ trace (Ps2kbHistory.step fun _ _ => 0) (freshPs2kb 1)
    [.sendCommand 0xED, .interrupt 0xFA true], h.Protocol := by
  rw [trace_protocol _ (freshPs2kb_tracks 1)]
  rintro ⟨-, hsol, -⟩
  exact absurd (hsol.1 rfl) (by decide)

end GalaxyOS
