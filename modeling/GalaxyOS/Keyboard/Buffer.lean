import GalaxyOS.Keyboard.Handler
import GalaxyOS.Lib.Ring

/-! # The key buffer

The key buffer is a ring of 1024 cells that is empty when its two indices meet, so it has room for 1023
characters.  The handler stores a character without looking whether there is room: with 1023 unread
characters the indices meet, and all 1024 are lost.

`keyboardBuffer_iff` says that this is the only thing that goes wrong: a run delivers what has been typed
like a queue exactly when no character is typed while 1023 are unread.

`Ring.contents_push` and `Ring.contents_overflow` are the two cases of a character,
`Ps2kbHistory.step_delivers` is one call, and `trace_iff` goes from calls to runs. -/

namespace GalaxyOS

open Transition Fifo

variable (beyond : Bool → UInt8 → UInt8)

/-! ### The buffer as a queue -/

/-- The characters that have not been read. -/
def Keyboard.unread (kb : Keyboard) : List UInt8 := Ring.contents kb.keybuf kb.keybufStart kb.keybufEnd

theorem Keyboard.unread_length_lt (kb : Keyboard) : kb.unread.length < 1024 := by
  unfold Keyboard.unread
  rw [Ring.contents_length]
  exact Ring.count_lt _ _

theorem Keyboard.store_unread {kb : Keyboard} (h : kb.unread.length < 1023) (c : UInt8) :
    (kb.store c).unread = kb.unread ++ [c] := by
  unfold Keyboard.unread at h
  rw [Ring.contents_length] at h
  have hroom : Ring.count kb.keybufStart kb.keybufEnd + 1 < 1024 := by omega
  exact Ring.contents_push c hroom

theorem Keyboard.store_full {kb : Keyboard} (h : ¬kb.unread.length < 1023) (c : UInt8) :
    (kb.store c).unread = [] := by
  have hlt := kb.unread_length_lt
  unfold Keyboard.unread at h hlt
  rw [Ring.contents_length] at h hlt
  have hfull : Ring.count kb.keybufStart kb.keybufEnd + 1 = 1024 := by omega
  exact Ring.contents_overflow c hfull

/-- A read takes the first characters, as many as are there. -/
theorem ps2kbReadChars_unread (size : ℕ) : ∀ kb : Keyboard,
    (ps2kbReadChars kb size).1 = kb.unread.take size ∧
      (ps2kbReadChars kb size).2.unread = kb.unread.drop size := by
  induction size with
  | zero => exact fun _ => ⟨rfl, rfl⟩
  | succ size ih =>
      intro kb
      unfold ps2kbReadChars
      by_cases hempty : kb.keybufStart = kb.keybufEnd
      · have hnil : kb.unread = [] := Ring.contents_eq_nil.mpr hempty
        rw [if_pos hempty, hnil]
        exact ⟨rfl, rfl⟩
      · obtain ⟨hread, hrest⟩ := ih { kb with keybufStart := kb.keybufStart + 1 }
        have hpop : kb.unread = kb.keybuf kb.keybufStart ::
            Keyboard.unread { kb with keybufStart := kb.keybufStart + 1 } := Ring.contents_pop hempty
        rw [if_neg hempty, hpop]
        exact ⟨congrArg (kb.keybuf kb.keybufStart :: ·) hread, hrest⟩

/-! ### What a call does to it -/

/-- The character of a key that is pressed while others are down. -/
def keyCharacter (keydown : UInt8 → Bool) (key : UInt8) : Option UInt8 :=
  let c := scancode beyond (shifted (press keydown key)) key
  if c = 0 then none else some c

/-- The character that a byte from the device types. -/
def Ps2kb.typed (kb : Ps2kb) (key : UInt8) : Option UInt8 :=
  if kb.state = .make ∧ key ≠ 0xFA ∧ key ≠ 0xFE ∧ key ≠ 0xF0 ∧ key ≠ 0xE0 then
    keyCharacter beyond kb.keydown key
  else none

/-- The character that a call has to store. -/
def Ps2kbCall.character (kb : Ps2kb) : Ps2kbCall → Option UInt8
  | .interrupt key _ => kb.typed beyond key
  | _ => none

/-- A call leaves the buffer alone, stores a character, or reads from it. -/
inductive BufferEffect (kb : Ps2kb) (a : Ps2kbCall) : Observed × Ps2kb → Prop
  | none {seen : Observed} {kb' : Ps2kb} : a.character beyond kb = none → seen.keys = [] →
      kb'.keyboard = kb.keyboard → BufferEffect kb a (seen, kb')
  | stored {seen : Observed} {kb' : Ps2kb} (c : UInt8) : a.character beyond kb = some c →
      seen.keys = [.put c] → kb'.keyboard = kb.keyboard.store c → BufferEffect kb a (seen, kb')
  | read {seen : Observed} {kb' : Ps2kb} (size : ℕ) : a.character beyond kb = none →
      seen.keys = [.got size (kb.keyboard.unread.take size)] →
      kb'.keyboard.unread = kb.keyboard.unread.drop size → BufferEffect kb a (seen, kb')

theorem ps2kbResendCommand_keys (kb : Ps2kb) (delivered : Bool) :
    (ps2kbResendCommand kb delivered).1.keys = [] ∧
      (ps2kbResendCommand kb delivered).2.keyboard = kb.keyboard := by
  unfold ps2kbResendCommand
  split <;> exact ⟨rfl, rfl⟩

theorem ps2kbHandler_buffer (kb : Ps2kb) (key : UInt8) (delivered : Bool) :
    BufferEffect beyond kb (.interrupt key delivered) (ps2kbHandler beyond kb key delivered) := by
  unfold ps2kbHandler
  by_cases hFA : key = 0xFA
  · rw [if_pos hFA]
    exact .none (if_neg fun h => h.2.1 hFA) rfl rfl
  rw [if_neg hFA]
  by_cases hFE : key = 0xFE
  · rw [if_pos hFE]
    obtain ⟨hkeys, hkeyboard⟩ := ps2kbResendCommand_keys kb delivered
    exact .none (if_neg fun h => h.2.2.1 hFE) hkeys hkeyboard
  rw [if_neg hFE]
  unfold scanByte
  cases hstate : kb.state with
  | release => exact .none (if_neg fun h => by simp [hstate] at h) rfl rfl
  | extended => exact .none (if_neg fun h => by simp [hstate] at h) rfl rfl
  | make =>
      simp only
      by_cases hF0 : key = 0xF0
      · rw [if_pos hF0]
        exact .none (if_neg fun h => h.2.2.2.1 hF0) rfl rfl
      rw [if_neg hF0]
      by_cases hE0 : key = 0xE0
      · rw [if_pos hE0]
        exact .none (if_neg fun h => h.2.2.2.2 hE0) rfl rfl
      rw [if_neg hE0]
      have htyped : kb.typed beyond key = keyCharacter beyond kb.keydown key :=
        if_pos ⟨hstate, hFA, hFE, hF0, hE0⟩
      unfold pressKey
      simp only
      by_cases hc : scancode beyond (shifted (press kb.keydown key)) key = 0
      · rw [if_pos hc]
        exact .none (htyped.trans (if_pos hc)) rfl rfl
      · rw [if_neg hc]
        exact .stored _ (htyped.trans (if_neg hc)) rfl rfl

theorem Ps2kbCall.run_buffer (kb : Ps2kb) (a : Ps2kbCall) : BufferEffect beyond kb a (a.run beyond kb) := by
  cases a with
  | interrupt key delivered => exact ps2kbHandler_buffer beyond kb key delivered
  | readChars size =>
      obtain ⟨hread, hrest⟩ := ps2kbReadChars_unread size kb.keyboard
      exact .read size rfl (by rw [← hread]) hrest
  | sendCommand byte =>
      unfold Ps2kbCall.run ps2kbSendCommand
      simp only
      split <;> exact .none rfl rfl rfl
  | loop delivered =>
      unfold Ps2kbCall.run ps2kbLoop
      simp only
      split
      · obtain ⟨hkeys, hkeyboard⟩ := ps2kbResendCommand_keys kb delivered
        exact .none rfl hkeys hkeyboard
      · exact .none rfl rfl rfl

/-! ### Runs -/

/-- What has been typed and read is what a queue with room for 1023 characters does, and it holds what
is unread. -/
def Ps2kbHistory.Delivers (h : Ps2kbHistory) : Prop :=
  Explained (FifoStep 1023) [] h.seen.keys h.driver.keyboard.unread

/-- There is room for the character to store, if any. -/
def Ps2kbCall.Fits (h : Ps2kbHistory) (a : Ps2kbCall) : Prop :=
  a.character beyond h.driver ≠ none → h.driver.keyboard.unread.length < 1023

/-- Storing a character that does not fit is not what a queue does, even if it may drop it. -/
theorem Ps2kbHistory.step_delivers (h : Ps2kbHistory) (a : Ps2kbCall) (hd : h.Delivers) :
    (h.step beyond a).Delivers ↔ a.Fits beyond h := by
  have heffect := a.run_buffer beyond h.driver
  unfold Ps2kbHistory.step Ps2kbCall.Fits
  generalize a.run beyond h.driver = r at heffect
  cases heffect with
  | none hc hkeys hkeyboard =>
      refine iff_of_true ?_ fun hne => absurd hc hne
      simp only [Delivers, Observed.append, hkeys, hkeyboard, List.append_nil]
      exact hd
  | read size hc hkeys hkeyboard =>
      refine iff_of_true ?_ fun hne => absurd hc hne
      simp only [Delivers, Observed.append, hkeys, hkeyboard]
      exact hd.snoc (.got _ size)
  | stored c hc hkeys hkeyboard =>
      simp only [Delivers, Observed.append, hkeys, hkeyboard, hc]
      by_cases hroom : h.driver.keyboard.unread.length < 1023
      · refine iff_of_true ?_ fun _ => hroom
        rw [Keyboard.store_unread hroom]
        exact hd.snoc (.stored _ c)
      · refine iff_of_false ?_ fun hfits => hroom (hfits (Option.some_ne_none c))
        rw [Keyboard.store_full hroom, explained_snoc]
        rintro ⟨q, -, hstep⟩
        generalize hnil : ([] : List UInt8) = q' at hstep
        cases hstep with
        | stored => exact absurd hnil.symm (List.append_ne_nil_of_right_ne_nil _ (List.cons_ne_nil _ _))
        | dropped _ hfull => simp [← hnil] at hfull

theorem freshPs2kb_delivers (port : UInt8) : (freshPs2kb port).Delivers := by
  unfold Ps2kbHistory.Delivers Keyboard.unread
  rw [show Ring.contents _ (freshPs2kb port).driver.keyboard.keybufStart
    (freshPs2kb port).driver.keyboard.keybufEnd = [] from Ring.contents_empty _ _]
  exact .nil

/-- In every state of a run what has been read and what is unread are, in this order, characters that
have been typed, and the buffer is a queue, exactly if no character is typed while 1023 are unread. -/
theorem keyboardBuffer_iff (port : UInt8) (as : List Ps2kbCall) :
    (∀ h ∈ trace (Ps2kbHistory.step beyond) (freshPs2kb port) as, h.Delivers ∧
        (gots h.seen.keys ++ h.driver.keyboard.unread).Sublist (puts h.seen.keys)) ↔
      Admitted (Ps2kbHistory.step beyond) (fun h a => a.Fits beyond h) (freshPs2kb port) as := by
  rw [← trace_iff _ (Ps2kbHistory.step_delivers beyond) (freshPs2kb_delivers port)]
  exact forall₂_congr fun h _ => and_iff_left_of_imp fun hd => FifoStep.sublist hd

/-! ### A full buffer -/

/-- The key `A`, on the keyboard or repeated by it. -/
def pressA : Ps2kbCall := .interrupt 0x1C true

theorem scancode_A (upper : Bool) : scancode beyond upper 0x1C ≠ 0 := by
  cases upper
  · exact (by decide : (0x61 : UInt8) ≠ 0)
  · exact (by decide : (0x41 : UInt8) ≠ 0)

theorem pressA_character {kb : Ps2kb} (h : kb.state = .make) : pressA.character beyond kb ≠ none := by
  have htyped : pressA.character beyond kb = keyCharacter beyond kb.keydown 0x1C :=
    if_pos ⟨h, by decide, by decide, by decide, by decide⟩
  rw [htyped]
  unfold keyCharacter
  simp only
  rw [if_neg (scancode_A beyond _)]
  exact Option.some_ne_none _

theorem pressA_step {h : Ps2kbHistory} (hstate : h.driver.state = .make)
    (hroom : h.driver.keyboard.unread.length < 1023) :
    (h.step beyond pressA).driver.state = .make ∧
      (h.step beyond pressA).driver.keyboard.unread.length = h.driver.keyboard.unread.length + 1 := by
  have heffect := pressA.run_buffer beyond h.driver
  have hnone := pressA_character beyond hstate
  have hmake : (pressA.run beyond h.driver).2.state = .make := by
    show (ps2kbHandler beyond h.driver 0x1C true).2.state = .make
    unfold ps2kbHandler scanByte
    rw [if_neg (by decide), if_neg (by decide), hstate]
    simp only
    rw [if_neg (by decide), if_neg (by decide)]
    unfold pressKey
    simp only
    split <;> exact hstate
  unfold Ps2kbHistory.step
  generalize pressA.run beyond h.driver = r at heffect hmake
  cases heffect with
  | none hc => exact absurd hc hnone
  | read _ hc => exact absurd hc hnone
  | stored c _ _ hkeyboard =>
      refine ⟨hmake, ?_⟩
      simp only [hkeyboard]
      rw [Keyboard.store_unread hroom, List.length_append]
      rfl

/-- Pressed and not read, the key fits in until the buffer is full. -/
theorem admitted_pressA (n : ℕ) : ∀ {h : Ps2kbHistory}, h.driver.state = .make →
    Admitted (Ps2kbHistory.step beyond) (fun h a => a.Fits beyond h) h (List.replicate n pressA) →
    h.driver.keyboard.unread.length + n < 1024 := by
  induction n with
  | zero => exact fun {h} _ _ => h.driver.keyboard.unread_length_lt
  | succ n ih =>
      intro h hstate hadmitted
      obtain ⟨hfits, hrest⟩ := hadmitted
      have hroom := hfits (pressA_character beyond hstate)
      obtain ⟨hmake, hlength⟩ := pressA_step beyond hstate hroom
      have hlt := ih hmake hrest
      omega

/-- 1024 presses that nobody reads are more than the buffer can keep. -/
theorem full_keybuf_lost :
    ¬∀ h ∈ trace (Ps2kbHistory.step fun _ _ => 0) (freshPs2kb 1) (List.replicate 1024 pressA),
      h.Delivers := by
  rw [trace_iff _ (Ps2kbHistory.step_delivers _) (freshPs2kb_delivers 1)]
  intro hadmitted
  have hlt := admitted_pressA _ 1024 rfl hadmitted
  omega

end GalaxyOS
