import GalaxyOS.Keyboard.Buffer

/-! # Decoding

A key sends its make code when it is pressed and 0xF0 with its code when it is released; the keys of the
extended set send 0xE0 before that.  What is typed are the characters of the keys outside the extended
set that are pressed, from one table or the other as the modifiers are.

The handler takes every byte after 0xE0 for the last one, so that it takes the code of an extended key
that is released for the code of a key that is pressed.  It also looks up any code in its tables, which
end at 0x7F, before the code of `F7`.  `keyboardDecoding_iff` says that nothing else goes wrong: these
are exactly the keys that may not occur in a stream.

`Decoder.At.key` is the decoding of one key, `Decoder.decoded` that of a stream, and
`not_decodes_keyA` finds each key out that may not occur. -/

namespace GalaxyOS

open Transition Fifo

variable (beyond : Bool → UInt8 → UInt8)

/-! ### What is typed -/

/-- What the keyboard sends when a key is pressed or released. -/
structure KeySequence where
  extended : Bool
  released : Bool
  code : UInt8
  code_lt : code < 0xE0

def KeySequence.encode (e : KeySequence) : List UInt8 :=
  (if e.extended then [0xE0] else []) ++ (if e.released then [0xF0] else []) ++ [e.code]

/-- The keys that change what others type. -/
structure Modifiers where
  leftShift : Bool
  rightShift : Bool
  capsLock : Bool

namespace Modifiers

def none : Modifiers := ⟨false, false, false⟩

def upper (m : Modifiers) : Bool := m.leftShift || m.rightShift || m.capsLock

/-- Shift keys are held, caps lock is toggled. -/
def after (m : Modifiers) (e : KeySequence) : Modifiers :=
  if e.extended then m
  else
    { leftShift := if e.code = 0x12 then !e.released else m.leftShift
      rightShift := if e.code = 0x59 then !e.released else m.rightShift
      capsLock := if e.code = 0x58 ∧ e.released = false then !m.capsLock else m.capsLock }

end Modifiers

/-- The characters in the table at `code`. -/
def tableCharacter (upper : Bool) (code : UInt8) : List UInt8 :=
  ((scancodeTable upper)[code.toNat]?.toList).filter (· ≠ 0)

/-- The characters that a sequence types. -/
def KeySequence.character (m : Modifiers) (e : KeySequence) : List UInt8 :=
  if e.extended || e.released then [] else tableCharacter m.upper e.code

/-- The characters that are typed. -/
def typed : Modifiers → List KeySequence → List UInt8
  | _, [] => []
  | m, e :: es => e.character (m.after e) ++ typed (m.after e) es

/-! ### The decoder -/

/-- The part of the driver that decodes, what it has looked up and what it has typed. -/
structure Decoder where
  keydown : UInt8 → Bool
  state : DecoderState
  lookups : List UInt8
  characters : List UInt8

def Decoder.press (d : Decoder) (key : UInt8) : Decoder :=
  { keydown := GalaxyOS.press d.keydown key
    state := d.state
    lookups := d.lookups ++ [key]
    characters := d.characters ++ (keyCharacter beyond d.keydown key).toList }

def Decoder.byte (d : Decoder) (key : UInt8) : Decoder :=
  match d.state with
  | .make =>
      if key = 0xF0 then { d with state := .release }
      else if key = 0xE0 then { d with state := .extended }
      else d.press beyond key
  | .release => { d with keydown := release d.keydown key, state := .make }
  | .extended => { d with state := .make }

def Ps2kbHistory.decoder (h : Ps2kbHistory) : Decoder :=
  { keydown := h.driver.keydown
    state := h.driver.state
    lookups := h.seen.lookups
    characters := puts h.seen.keys }

/-- The byte of a key that a call brings. -/
def Ps2kbCall.scancode : Ps2kbCall → Option UInt8
  | .interrupt key _ => if key = 0xFA ∨ key = 0xFE then none else some key
  | _ => none

/-- A call that brings no byte of a key leaves the decoder alone. -/
theorem Ps2kbHistory.decoder_same {h : Ps2kbHistory} {r : Observed × Ps2kb}
    (hkeydown : r.2.keydown = h.driver.keydown) (hstate : r.2.state = h.driver.state)
    (hlookups : r.1.lookups = []) (hputs : puts r.1.keys = []) :
    Ps2kbHistory.decoder ⟨r.2, h.seen.append r.1⟩ = h.decoder := by
  unfold decoder Observed.append
  simp only [hkeydown, hstate, hlookups, List.append_nil, Decoder.mk.injEq, true_and]
  unfold puts at hputs ⊢
  rw [List.flatMap_append, hputs, List.append_nil]

theorem ps2kbResendCommand_decoder (h : Ps2kbHistory) (delivered : Bool) (events : List (StopAndWait.Event UInt8)) :
    Ps2kbHistory.decoder ⟨(ps2kbResendCommand h.driver delivered).2,
      h.seen.append (Observed.append ⟨[], [], events⟩ (ps2kbResendCommand h.driver delivered).1)⟩ =
        h.decoder := by
  unfold ps2kbResendCommand
  split
  · exact Ps2kbHistory.decoder_same (r := (_, _)) rfl rfl rfl rfl
  · exact Ps2kbHistory.decoder_same (r := (_, _)) rfl rfl rfl rfl

theorem Ps2kbHistory.scanByte_decoder (h : Ps2kbHistory) (key : UInt8) :
    Ps2kbHistory.decoder ⟨(scanByte beyond h.driver key).2, h.seen.append (scanByte beyond h.driver key).1⟩ =
      h.decoder.byte beyond key := by
  unfold scanByte Decoder.byte
  have hsame : h.decoder.state = h.driver.state := rfl
  rw [hsame]
  cases hstate : h.driver.state with
  | release => simp [decoder, Observed.append, Observed.nothing, puts]
  | extended => simp [decoder, Observed.append, Observed.nothing, puts]
  | make =>
      simp only
      split_ifs
      · simp [decoder, Observed.append, Observed.nothing, puts]
      · simp [decoder, Observed.append, Observed.nothing, puts]
      · have hkeydown : h.decoder.keydown = h.driver.keydown := rfl
        unfold pressKey Decoder.press keyCharacter
        simp only [hkeydown]
        split_ifs with hc <;> simp [decoder, Observed.append, puts, hstate]

theorem Ps2kbHistory.step_decoder (h : Ps2kbHistory) (a : Ps2kbCall) :
    (h.step beyond a).decoder = a.scancode.toList.foldl (Decoder.byte beyond) h.decoder := by
  cases a with
  | readChars size => exact decoder_same (r := (_, _)) rfl rfl rfl rfl
  | sendCommand byte =>
      show decoder ⟨(ps2kbSendCommand h.driver byte).2, h.seen.append (ps2kbSendCommand h.driver byte).1⟩ =
        h.decoder
      unfold ps2kbSendCommand
      simp only
      split <;> exact decoder_same (r := (_, _)) rfl rfl rfl rfl
  | loop delivered =>
      show decoder ⟨(ps2kbLoop h.driver delivered).2, h.seen.append (ps2kbLoop h.driver delivered).1⟩ =
        h.decoder
      unfold ps2kbLoop
      split
      · exact ps2kbResendCommand_decoder h delivered []
      · exact decoder_same (r := (_, _)) rfl rfl rfl rfl
  | interrupt key delivered =>
      show decoder ⟨(ps2kbHandler beyond h.driver key delivered).2,
        h.seen.append (ps2kbHandler beyond h.driver key delivered).1⟩ = _
      unfold ps2kbHandler
      by_cases hFA : key = 0xFA
      · have hscan : (Ps2kbCall.interrupt key delivered).scancode = none := if_pos (.inl hFA)
        rw [if_pos hFA, hscan]
        exact decoder_same (r := (_, _)) rfl rfl rfl rfl
      by_cases hFE : key = 0xFE
      · have hscan : (Ps2kbCall.interrupt key delivered).scancode = none := if_pos (.inr hFE)
        rw [if_neg hFA, if_pos hFE, hscan]
        exact ps2kbResendCommand_decoder h delivered [.refused]
      have hscan : (Ps2kbCall.interrupt key delivered).scancode = some key :=
        if_neg (not_or.mpr ⟨hFA, hFE⟩)
      rw [if_neg hFA, if_neg hFE, hscan]
      exact h.scanByte_decoder beyond key

/-- The bytes of keys are decoded one after the other, whatever happens in between. -/
theorem Ps2kbHistory.decoder_run (as : List Ps2kbCall) : ∀ h : Ps2kbHistory,
    (as.foldl (Ps2kbHistory.step beyond) h).decoder =
      (as.filterMap Ps2kbCall.scancode).foldl (Decoder.byte beyond) h.decoder := by
  induction as with
  | nil => exact fun _ => rfl
  | cons a as ih =>
      intro h
      have hstep := h.step_decoder beyond a
      rw [List.foldl_cons, ih, hstep]
      cases hscan : a.scancode with
      | none => rw [List.filterMap_cons_none hscan]; rfl
      | some key => rw [List.filterMap_cons_some hscan]; rfl

/-! ### One key -/

/-- The decoder is between two sequences, and its array of keys shows the modifiers. -/
structure Decoder.At (d : Decoder) (m : Modifiers) : Prop where
  make : d.state = .make
  leftShift : d.keydown 0x12 = m.leftShift
  rightShift : d.keydown 0x59 = m.rightShift
  capsLock : d.keydown 0x58 = m.capsLock

/-- The code is in the tables, and neither a character nor a modifier. -/
def TypesNothing (code : UInt8) : Prop :=
  code.toNat < 128 ∧ (∀ upper, tableCharacter upper code = []) ∧
    code ≠ 0x12 ∧ code ≠ 0x59 ∧ code ≠ 0x58

instance TypesNothing.decidable (code : UInt8) : Decidable (TypesNothing code) :=
  inferInstanceAs (Decidable (_ ∧ _))

/-- The handler decodes the sequence: a code outside the extended set that is pressed is in the tables,
and an extended one that is released does nothing when it is pressed. -/
def KeySequence.Decodable (e : KeySequence) : Prop :=
  match e.extended, e.released with
  | false, false => e.code.toNat < 128
  | true, true => TypesNothing e.code
  | _, _ => True

instance KeySequence.decodable (e : KeySequence) : Decidable e.Decodable :=
  match h : e.extended, h' : e.released with
  | false, false => decidable_of_iff (e.code.toNat < 128) (by simp [Decodable, h, h'])
  | true, true => decidable_of_iff (TypesNothing e.code) (by simp [Decodable, h, h'])
  | true, false => .isTrue (by simp [Decodable, h, h'])
  | false, true => .isTrue (by simp [Decodable, h, h'])

theorem keyCharacter_table (keydown : UInt8 → Bool) {key : UInt8} (h : key.toNat < 128) :
    (keyCharacter beyond keydown key).toList = tableCharacter (shifted (press keydown key)) key := by
  unfold keyCharacter tableCharacter scancode
  have hlt : key.toNat < (scancodeTable (shifted (press keydown key))).length := by
    rw [scancodeTable_length]
    exact h
  rw [List.getElem?_eq_getElem hlt]
  simp only [Option.getD_some]
  split_ifs with hc <;> simp [hc]

theorem KeySequence.ne_prefix (e : KeySequence) : e.code ≠ 0xF0 ∧ e.code ≠ 0xE0 := by
  have hlt := e.code_lt
  constructor <;> rintro h <;> rw [h] at hlt <;> exact absurd hlt (by decide)

theorem Decoder.byte_code {d : Decoder} (hd : d.state = .make) (e : KeySequence) :
    d.byte beyond e.code = d.press beyond e.code := by
  unfold Decoder.byte
  rw [hd]
  simp only
  rw [if_neg e.ne_prefix.1, if_neg e.ne_prefix.2]

/-- Where the decoder is after a sequence it decodes. -/
structure Decoder.Decoded (d : Decoder) (m : Modifiers) (e : KeySequence) (d' : Decoder) : Prop where
  at_after : d'.At (m.after e)
  characters : d'.characters = d.characters ++ e.character (m.after e)
  lookups : ∀ k ∈ d'.lookups, k ∈ d.lookups ∨ k.toNat < 128

theorem press_of_ne {key k : UInt8} (keydown : UInt8 → Bool) (h : key ≠ k) :
    press keydown key k = keydown k :=
  Function.update_of_ne h.symm _ _

/-- A key other than caps lock is down when it is pressed, until it is released. -/
theorem keydown_key {k : UInt8} (hk : k ≠ 0x58) (keydown : UInt8 → Bool) (code : UInt8) (released : Bool) :
    (if released then release keydown code else press keydown code) k =
      if code = k then !released else keydown k := by
  by_cases hcode : code = k
  · subst hcode
    rw [if_pos rfl]
    cases released with
    | false =>
        show Function.update keydown code _ code = true
        rw [Function.update_self, if_neg hk]
    | true =>
        show release keydown code code = false
        unfold release
        rw [if_neg hk, Function.update_self]
  · rw [if_neg hcode]
    cases released with
    | false => exact press_of_ne keydown hcode
    | true =>
        show release keydown code k = keydown k
        unfold release
        split_ifs
        · rfl
        · exact Function.update_of_ne (Ne.symm hcode) _ _

/-- Caps lock is toggled when it is pressed. -/
theorem keydown_caps (keydown : UInt8 → Bool) (code : UInt8) (released : Bool) :
    (if released then release keydown code else press keydown code) 0x58 =
      if code = 0x58 ∧ released = false then !keydown 0x58 else keydown 0x58 := by
  by_cases hcode : code = 0x58
  · subst hcode
    cases released with
    | false =>
        show Function.update keydown 0x58 (!keydown 0x58) 0x58 = _
        rw [if_pos ⟨rfl, rfl⟩]
        exact Function.update_self ..
    | true => rfl
  · have hright : ¬(code = 0x58 ∧ released = false) := fun h => hcode h.1
    rw [if_neg hright]
    cases released with
    | false => exact press_of_ne keydown hcode
    | true =>
        show release keydown code 0x58 = keydown 0x58
        unfold release
        rw [if_neg hcode, Function.update_of_ne (Ne.symm hcode)]

/-- A key that is not extended sets the modifiers as the handler sets its array of keys. -/
theorem Decoder.At.key {d d' : Decoder} {m : Modifiers} (hd : d.At m) {e : KeySequence}
    (hplain : e.extended = false) (hmake : d'.state = .make)
    (hkeydown : d'.keydown =
      if e.released then release d.keydown e.code else GalaxyOS.press d.keydown e.code) :
    d'.At (m.after e) := by
  unfold Modifiers.after
  rw [if_neg (by rw [hplain]; decide)]
  exact
    { make := hmake
      leftShift := by rw [hkeydown, keydown_key (by decide), hd.leftShift]
      rightShift := by rw [hkeydown, keydown_key (by decide), hd.rightShift]
      capsLock := by rw [hkeydown, keydown_caps, hd.capsLock] }

theorem Decoder.pressed {d : Decoder} {m : Modifiers} (hd : d.At m) {e : KeySequence}
    (hplain : e.extended = false) (hmake : e.released = false) (hlt : e.code.toNat < 128) :
    d.Decoded m e (d.press beyond e.code) := by
  have hat : (d.press beyond e.code).At (m.after e) :=
    hd.key hplain hd.make (by rw [hmake]; rfl)
  have hshift : shifted (GalaxyOS.press d.keydown e.code) = (m.after e).upper := by
    unfold shifted Modifiers.upper
    rw [← hat.leftShift, ← hat.rightShift, ← hat.capsLock]
    rfl
  refine ⟨hat, ?_, ?_⟩
  · unfold KeySequence.character
    rw [hplain, hmake, if_neg (by decide), ← hshift, ← keyCharacter_table beyond d.keydown hlt]
    rfl
  · intro k hk
    rcases List.mem_append.mp hk with hk | hk
    · exact .inl hk
    · rw [List.mem_singleton.mp hk]
      exact .inr hlt


/-- One sequence after the other. -/
theorem Decoder.decoded {d : Decoder} {m : Modifiers} (hd : d.At m) {e : KeySequence}
    (he : e.Decodable) : d.Decoded m e (e.encode.foldl (Decoder.byte beyond) d) := by
  have hbyte : ∀ {d : Decoder} (_ : d.state = .make), d.byte beyond 0xE0 = { d with state := .extended } :=
    fun h => by unfold Decoder.byte; rw [h]; rfl
  have hF0 : ∀ {d : Decoder} (_ : d.state = .make), d.byte beyond 0xF0 = { d with state := .release } :=
    fun h => by unfold Decoder.byte; rw [h]; rfl
  unfold KeySequence.Decodable at he
  unfold KeySequence.encode
  cases hext : e.extended with
  | false =>
      cases hrel : e.released with
      | false =>
          rw [hext, hrel] at he
          show d.Decoded m e (d.byte beyond e.code)
          rw [Decoder.byte_code beyond hd.make]
          exact Decoder.pressed beyond hd hext hrel he
      | true =>
          show d.Decoded m e ((d.byte beyond 0xF0).byte beyond e.code)
          rw [hF0 hd.make]
          refine ⟨hd.key hext rfl (by rw [hrel]; rfl), ?_, fun k hk => .inl hk⟩
          unfold KeySequence.character
          rw [hrel, Bool.or_true, if_pos rfl, List.append_nil]
          rfl
  | true =>
      have hafter : m.after e = m := if_pos hext
      have hnone : ∀ m, e.character m = [] := fun m => by
        unfold KeySequence.character
        rw [hext, Bool.true_or, if_pos rfl]
      cases hrel : e.released with
      | false =>
          show d.Decoded m e ((d.byte beyond 0xE0).byte beyond e.code)
          rw [hbyte hd.make]
          refine ⟨?_, by rw [hnone, List.append_nil]; rfl, fun k hk => .inl hk⟩
          rw [hafter]
          exact { hd with make := rfl }
      | true =>
          rw [hext, hrel] at he
          obtain ⟨hlt, htypes, hleft, hright, hcaps⟩ := he
          show d.Decoded m e (((d.byte beyond 0xE0).byte beyond 0xF0).byte beyond e.code)
          -- the handler takes 0xF0 for the code
          have hswallowed : Decoder.byte beyond { d with state := .extended } 0xF0 = d := by
            show { d with state := .make } = d
            rw [← hd.make]
          rw [hbyte hd.make, hswallowed, Decoder.byte_code beyond hd.make]
          refine ⟨?_, ?_, ?_⟩
          · rw [hafter]
            exact
              { make := hd.make
                leftShift := (press_of_ne d.keydown hleft).trans hd.leftShift
                rightShift := (press_of_ne d.keydown hright).trans hd.rightShift
                capsLock := (press_of_ne d.keydown hcaps).trans hd.capsLock }
          · show d.characters ++ (keyCharacter beyond d.keydown e.code).toList = _
            rw [keyCharacter_table beyond d.keydown hlt, htypes, hnone]
          · intro k hk
            rcases List.mem_append.mp hk with hk | hk
            · exact .inl hk
            · rw [List.mem_singleton.mp hk]
              exact .inr hlt


/-! ### Streams -/

/-- The tables are read inside their bounds, and the characters stored are those that the keys type. -/
def Ps2kbHistory.Decodes (h : Ps2kbHistory) (es : List KeySequence) : Prop :=
  (∀ k ∈ h.seen.lookups, k.toNat < 128) ∧ puts h.seen.keys = typed .none es

/-- Whatever is called in between, the bytes of these keys are decoded right. -/
def StreamDecodes (es : List KeySequence) : Prop :=
  ∀ (port : UInt8) (as : List Ps2kbCall), as.filterMap Ps2kbCall.scancode = es.flatMap KeySequence.encode →
    (as.foldl (Ps2kbHistory.step beyond) (freshPs2kb port)).Decodes es

theorem Decoder.stream (es : List KeySequence) : ∀ {d : Decoder} {m : Modifiers}, d.At m →
    (∀ e ∈ es, e.Decodable) → ∃ d', (es.flatMap KeySequence.encode).foldl (Decoder.byte beyond) d = d' ∧
      d'.characters = d.characters ++ typed m es ∧ ∀ k ∈ d'.lookups, k ∈ d.lookups ∨ k.toNat < 128 := by
  induction es with
  | nil =>
      intro d m _ _
      exact ⟨d, rfl, (List.append_nil _).symm, fun k hk => .inl hk⟩
  | cons e es ih =>
      intro d m hd hes
      obtain ⟨he, hes⟩ := List.forall_mem_cons.mp hes
      have hone := Decoder.decoded beyond hd he
      obtain ⟨d', hrun, hcharacters, hlookups⟩ := ih hone.at_after hes
      refine ⟨d', ?_, ?_, fun k hk => ?_⟩
      · rw [List.flatMap_cons, List.foldl_append, hrun]
      · rw [hcharacters, hone.characters, List.append_assoc]
        rfl
      · cases hlookups k hk with
        | inl hk => exact hone.lookups k hk
        | inr hk => exact .inr hk

theorem freshPs2kb_at (port : UInt8) : (freshPs2kb port).decoder.At .none :=
  { make := rfl, leftShift := rfl, rightShift := rfl, capsLock := rfl }

theorem streamDecodes_of_decodable {es : List KeySequence} (h : ∀ e ∈ es, e.Decodable) :
    StreamDecodes beyond es := by
  intro port as has
  obtain ⟨d', hrun, hcharacters, hlookups⟩ := Decoder.stream beyond es (freshPs2kb_at port) h
  rw [← has, ← Ps2kbHistory.decoder_run] at hrun
  subst hrun
  exact ⟨fun k hk => (hlookups k hk).resolve_left List.not_mem_nil, hcharacters⟩

/-! ### Keys that are not decoded -/

/-- A run that only brings the bytes of some keys. -/
def keyBytes (es : List KeySequence) : List Ps2kbCall :=
  (es.flatMap KeySequence.encode).map fun key => .interrupt key true

/-- No byte of a key is the answer to a command. -/
theorem KeySequence.encode_scancode {e : KeySequence} {key : UInt8} (h : key ∈ e.encode) :
    (Ps2kbCall.interrupt key true).scancode = some key := by
  have hlt := e.code_lt
  refine if_neg ?_
  unfold encode at h
  rcases List.mem_append.mp h with h | h
  · have hprefix : key = 0xE0 ∨ key = 0xF0 := by
      cases e.extended <;> cases e.released <;> simp at h <;> tauto
    rcases hprefix with rfl | rfl <;> decide
  · rw [List.mem_singleton.mp h]
    rintro (h | h) <;> rw [h] at hlt <;> exact absurd hlt (by decide)

theorem keyBytes_scancode (es : List KeySequence) :
    (keyBytes es).filterMap Ps2kbCall.scancode = es.flatMap KeySequence.encode := by
  unfold keyBytes
  rw [List.filterMap_map]
  refine (List.filterMap_congr fun key hkey => ?_).trans List.filterMap_some
  obtain ⟨e, -, he⟩ := List.mem_flatMap.mp hkey
  exact e.encode_scancode he

/-- The tables have characters for the same keys. -/
theorem tableCharacter_nil : ∀ code < 128, ∀ upper upper', tableCharacter upper (UInt8.ofNat code) = [] →
    tableCharacter upper' (UInt8.ofNat code) = [] := by
  decide

theorem keyA_lt : (0x1C : UInt8) < 0xE0 := by decide

/-- A key with a character, pressed and not extended. -/
def keyA : KeySequence := ⟨false, false, 0x1C, keyA_lt⟩

/-- The decoder when the code of `e` and that of `keyA` have been taken for keys that are pressed. -/
def pressedBoth (e : KeySequence) : Decoder :=
  ((freshPs2kb 1).decoder.press beyond e.code).press beyond keyA.code

theorem pressedBoth_characters {e : KeySequence} (hlt : e.code.toNat < 128) :
    (pressedBoth beyond e).characters =
      tableCharacter (shifted (press (fun _ => false) e.code)) e.code ++
        tableCharacter (shifted (press (press (fun _ => false) e.code) keyA.code)) keyA.code := by
  rw [← keyCharacter_table beyond _ hlt, ← keyCharacter_table beyond _ (by decide : keyA.code.toNat < 128)]
  rfl

/-- The handler takes the codes of both keys for keys that are pressed. -/
theorem undecodable_pressed {e : KeySequence} (he : ¬e.Decodable) :
    ([e, keyA].flatMap KeySequence.encode).foldl (Decoder.byte beyond) (freshPs2kb 1).decoder =
      pressedBoth beyond e := by
  have hbytes : [e, keyA].flatMap KeySequence.encode =
      (if e.extended then [0xE0, 0xF0] else []) ++ [e.code, keyA.code] := by
    unfold KeySequence.Decodable at he
    unfold List.flatMap KeySequence.encode
    cases hext : e.extended <;> cases hrel : e.released <;> simp [hext, hrel] at he ⊢ <;> rfl
  have hcodes : [e.code, keyA.code].foldl (Decoder.byte beyond) (freshPs2kb 1).decoder =
      pressedBoth beyond e := by
    have hfirst : (freshPs2kb 1).decoder.byte beyond e.code = (freshPs2kb 1).decoder.press beyond e.code :=
      Decoder.byte_code beyond rfl e
    show ((freshPs2kb 1).decoder.byte beyond e.code).byte beyond keyA.code = _
    rw [hfirst]
    exact Decoder.byte_code beyond rfl keyA
  rw [hbytes, List.foldl_append]
  cases e.extended with
  | false => exact hcodes
  | true => exact hcodes

/-- Either the code of an extended key has a character, or it is that of a modifier. -/
theorem undecodable_cases {e : KeySequence} (he : ¬e.Decodable) (hlt : e.code.toNat < 128) :
    e.extended = true ∧ ((∃ upper, tableCharacter upper e.code ≠ []) ∨
      e.code = 0x12 ∨ e.code = 0x59 ∨ e.code = 0x58) := by
  unfold KeySequence.Decodable at he
  cases hext : e.extended <;> cases hrel : e.released <;> simp only [hext, hrel, not_true_eq_false] at he
  · exact absurd hlt he
  · refine ⟨rfl, ?_⟩
    by_contra hnone
    push Not at hnone
    exact he ⟨hlt, hnone.1, hnone.2.1, hnone.2.2.1, hnone.2.2.2⟩

/-- An undecodable key is found out when another one types a character. -/
theorem not_decodes_keyA {e : KeySequence} (he : ¬e.Decodable) : ¬StreamDecodes beyond [e, keyA] := by
  intro hdecodes
  obtain ⟨hlookups, hcharacters⟩ := hdecodes 1 (keyBytes [e, keyA]) (keyBytes_scancode _)
  have hrun := Ps2kbHistory.decoder_run beyond (keyBytes [e, keyA]) (freshPs2kb 1)
  rw [keyBytes_scancode, undecodable_pressed beyond he] at hrun
  have hlt : e.code.toNat < 128 := by
    apply hlookups
    show e.code ∈ (Ps2kbHistory.decoder _).lookups
    rw [hrun]
    exact List.mem_cons_self
  obtain ⟨hext, hcases⟩ := undecodable_cases he hlt
  have htyped : typed .none [e, keyA] = [0x61] := by
    have hafter : Modifiers.none.after e = .none := if_pos hext
    have hnothing : e.character .none = [] := if_pos (by rw [hext]; rfl)
    unfold typed
    rw [hafter, hnothing]
    rfl
  have hboth : (pressedBoth beyond e).characters = [0x61] := by
    rw [← hrun, ← htyped]
    exact hcharacters
  rw [pressedBoth_characters beyond hlt] at hboth
  have hA : ∀ upper, (tableCharacter upper keyA.code).length = 1 := by decide
  cases hcases with
  | inl htypes =>
      obtain ⟨upper, hupper⟩ := htypes
      have hlength := congrArg List.length hboth
      rw [List.length_append, hA] at hlength
      have hnil : tableCharacter (shifted (press (fun _ => false) e.code)) e.code = [] :=
        List.eq_nil_of_length_eq_zero (by simpa using hlength)
      have hnone := tableCharacter_nil e.code.toNat hlt (shifted (press (fun _ => false) e.code)) upper
      rw [UInt8.ofNat_toNat] at hnone
      exact hupper (hnone hnil)
  | inr hmodifier =>
      rcases hmodifier with h | h | h <;> rw [h] at hboth <;> exact absurd hboth (by decide)

/-- A stream is decoded right if all of its keys are ones that the handler decodes, and these are the
only keys that may occur in every such stream. -/
theorem keyboardDecoding_iff :
    (∀ es : List KeySequence, (∀ e ∈ es, e.Decodable) → StreamDecodes beyond es) ∧
      ∀ e : KeySequence, e.Decodable ↔ ∀ before after : List KeySequence,
        (∀ e ∈ before, e.Decodable) → (∀ e ∈ after, e.Decodable) →
          StreamDecodes beyond (before ++ e :: after) := by
  refine ⟨fun es => streamDecodes_of_decodable beyond, fun e => ⟨fun he before after hbefore hafter => ?_,
    fun hstreams => ?_⟩⟩
  · apply streamDecodes_of_decodable beyond
    intro e' he'
    rcases List.mem_append.mp he' with h | h
    · exact hbefore e' h
    · exact List.forall_mem_cons.mpr ⟨he, hafter⟩ e' h
  · by_contra he
    have hA : ∀ e ∈ [keyA], e.Decodable := by decide
    exact not_decodes_keyA beyond he (hstreams [] [keyA] (fun _ h => absurd h List.not_mem_nil) hA)

theorem leftShift_lt : (0x12 : UInt8) < 0xE0 := by decide

/-- The left shift key, pressed or released. -/
def leftShiftKey (released : Bool) : KeySequence := ⟨false, released, 0x12, leftShift_lt⟩

theorem keyboardDecoding_shift :
    StreamDecodes (fun _ _ => 0) [leftShiftKey false, keyA, leftShiftKey true, keyA] :=
  (keyboardDecoding_iff fun _ _ => 0).1 _ (by decide)

theorem endKey_lt : (0x69 : UInt8) < 0xE0 := by decide

/-- The key `End` of the extended set, pressed or released. -/
def endKey (released : Bool) : KeySequence := ⟨true, released, 0x69, endKey_lt⟩

/-- `End` types `1` when it is released. -/
theorem end_types_one : ¬StreamDecodes (fun _ _ => 0) [endKey false, endKey true] := by
  intro hdecodes
  obtain ⟨-, hcharacters⟩ := hdecodes 1 (keyBytes _) (keyBytes_scancode _)
  exact absurd hcharacters (by decide +kernel)

end GalaxyOS
