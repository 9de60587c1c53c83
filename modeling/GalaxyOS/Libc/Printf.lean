import GalaxyOS.Libc.Itoa
import GalaxyOS.Syscall.Strings

/-! # `printf` and `sprintf`

The two functions go through the format in the same way; `formatLoop` is their common body, with the
call that puts bytes out as a parameter.  What a format means is said by `items` and `render`: its
directives, and the text that they make of the arguments.

`sprintf_agrees_iff` says that the two functions agree exactly if no number overruns the buffer in which
they format it.  `nextDirective_round` is one round of the loop, `formatLoop_outcome` the loop for any
call that puts bytes out, and `print_emits` and `sprint_emits` are the two calls. -/

namespace GalaxyOS

open Transition Numeral

/-! ### The code -/

/-- A string that is passed to a function: the terminator is none of its bytes. -/
abbrev Text := {s : CString // 0 ∉ s}

/-- An argument after the format. -/
inductive Arg where
  | int (i : Int32)
  | str (s : Text)

/-- `va_arg(parameters, int)`. -/
def vaInt : List Arg → Except Fault (Int32 × List Arg)
  | .int i :: args => .ok (i, args)
  | _ => .error .uninitialized

/-- `va_arg(parameters, const char*)`. -/
def vaStr : List Arg → Except Fault (Text × List Arg)
  | .str s :: args => .ok (s, args)
  | _ => .error .uninitialized

/-- `strlen` of the memory from a pointer on. -/
def strlen (str : List UInt8) : ℕ := (str.takeWhile fun c => c ≠ 0).length

/-- `memset`. -/
def memset (mem : ℕ → UInt8) (p : ℕ) (value : UInt8) (size : ℕ) : ℕ → UInt8 :=
  overlay p (List.replicate size value) mem

/-- `strncpy` from other memory, with the bytes from `s2` on. -/
def strncpy (mem : ℕ → UInt8) (s1 : ℕ) (s2 : List UInt8) (n : ℕ) : ℕ → UInt8 :=
  let size := strlen s2
  let size := if size > n then n else size
  let mem := if size ≠ n then memset mem (s1 + size) 0 (n - size) else mem
  overlay s1 (s2.take size) mem

/-- `print`, where `write` is what the system call returns after `out` has been written.  It may write
fewer bytes than it is given, and its error numbers other than `-1` are not noticed. -/
def print (write : List UInt8 → List UInt8 → Int) (out data : List UInt8) (length : ℕ) :
    Except Fault (Bool × List UInt8) :=
  if data.length < length then .error .overrun
  else
    let written := write out (data.take length)
    if written = -1 then .ok (false, out) else .ok (true, out ++ (data.take length).take written.toNat)

/-- `sprint` to the buffer at address `0` of `str`. -/
def sprint (str : ℕ → UInt8) (data : List UInt8) (length : ℕ) (index : Int32) :
    Except Fault (Bool × (ℕ → UInt8)) :=
  .ok (true, strncpy str index.toInt.toNat data length)

/-- What one round of the loop puts out: `length` of the bytes at `data`. -/
structure Directive where
  data : List UInt8
  length : ℕ
  /-- The round compares `length` with `maxrem`. -/
  checked : Bool
  format : List UInt8
  args : List Arg
  buf : List UInt8

/-- The branches of the loop.  `above` is what follows the local variable `c` in memory. -/
def nextDirective (above format : List UInt8) (args : List Arg) (buf : List UInt8) :
    Except Fault Directive :=
  if format.head? ≠ some 0x25 ∨ format.tail.head? = some 0x25 then
    let format := if format.head? = some 0x25 then format.tail else format
    let amount := 1 + (format.tail.takeWhile fun c => c ≠ 0x25).length
    .ok ⟨format, amount, true, format.drop amount, args, buf⟩
  else
    let formatBegunAt := format
    let format := format.tail
    if format.head? = some 0x63 then do
      let (i, args) ← vaInt args
      .ok ⟨i.toUInt32.toUInt8 :: above, 1, true, format.tail, args, buf⟩
    else if format.head? = some 0x73 then do
      let (str, args) ← vaStr args
      .ok ⟨str.1, strlen str.1, true, format.tail, args, buf⟩
    else if format.head? = some 0x69 then do
      let (i, args) ← vaInt args
      let buf ← itoa i buf 10
      .ok ⟨buf, strlen buf, false, format.tail, args, buf⟩
    else if format.head? = some 0x78 then do
      let (i, args) ← vaInt args
      let buf ← itoa i buf 16
      .ok ⟨buf, strlen buf, false, format.tail, args, buf⟩
    else
      let len := strlen formatBegunAt
      .ok ⟨formatBegunAt, len, true, formatBegunAt.drop len, args, buf⟩

/-- `INT_MAX`. -/
def intMax : Int32 := 0x7FFFFFFF

/-- The loop, up to the end of the format or an early return of `-1`. -/
def formatLoop {σ : Type} (emit : σ → List UInt8 → ℕ → Int32 → Except Fault (Bool × σ))
    (above : List UInt8) : ℕ → List UInt8 → List Arg → List UInt8 → Int32 → σ →
    Except Fault (Option Int32 × σ × List Arg)
  | 0, _, _, _, _, _ => .error .timeout
  | fuel + 1, format, args, buf, written, out =>
      if format = [] then .ok (some written, out, args)
      else do
        let d ← nextDirective above format args buf
        let maxrem := (intMax - written).toUInt32
        if d.checked ∧ maxrem.toNat < d.length then .ok (none, out, d.args)
        else do
          let (done, out) ← emit out d.data d.length written
          if !done then .ok (none, out, d.args)
          else formatLoop emit above fuel d.format d.args d.buf (written + Int32.ofNat d.length) out

/-- `printf`: what it returns, what it has written, and the arguments that it has not taken.  A round
consumes a character of the format. -/
def printf (write : List UInt8 → List UInt8 → Int) (above : List UInt8) (buf : Vector UInt8 11)
    (format : Text) (args : List Arg) : Except Fault (Int32 × List UInt8 × List Arg) := do
  let (written, out, args) ← formatLoop (fun out data length _ => print write out data length)
    above (format.1.length + 1) format.1 args buf.toList 0 []
  match written with
  | none => .ok (-1, out, args)
  | some written => .ok (written, out, args)

/-- `sprintf`: what it returns, the memory of `str`, and the arguments that it has not taken. -/
def sprintf (above : List UInt8) (buf : Vector UInt8 11) (str : ℕ → UInt8) (format : Text)
    (args : List Arg) : Except Fault (Int32 × (ℕ → UInt8) × List Arg) := do
  let (written, str, args) ← formatLoop sprint
    above (format.1.length + 1) format.1 args buf.toList 0 str
  match written with
  | none => .ok (-1, str, args)
  | some written => .ok (written, overlay written.toInt.toNat [0] str, args)

/-! ### The meaning of a format -/

/-- A directive of a format, or a character that stands for itself. -/
inductive Item where
  | literal (c : UInt8)
  | char
  | string
  | decimal
  | hex

/-- What a character behind a `%` makes of it. -/
def conversion (c : UInt8) : Option Item :=
  if c = 0x25 then some (.literal c)
  else if c = 0x63 then some .char
  else if c = 0x73 then some .string
  else if c = 0x69 then some .decimal
  else if c = 0x78 then some .hex
  else none

/-- The items of a format; from an unknown directive on, all of it stands for itself. -/
def items : List UInt8 → List Item
  | [] => []
  | [c] => [.literal c]
  | c :: d :: format =>
      if c ≠ 0x25 then .literal c :: items (d :: format)
      else
        match conversion d with
        | some item => item :: items format
        | none => (c :: d :: format).map .literal

/-- The text of an item, and the arguments that are left; `none` if the next one does not match. -/
def Item.text : Item → List Arg → Option (List UInt8 × List Arg)
  | .literal c, args => some ([c], args)
  | .char, .int i :: args => some ([i.toUInt32.toUInt8], args)
  | .string, .str s :: args => some (s.1, args)
  | .decimal, .int i :: args => some (decimalText i.toInt, args)
  | .hex, .int i :: args => some (numeral 16 i.toUInt32.toNat, args)
  | _, _ => none

/-- The text of a format, if the arguments match. -/
def render : List Item → List Arg → Option (List UInt8 × List Arg)
  | [], args => some ([], args)
  | item :: its, args =>
      (item.text args).bind fun r => (render its r.2).map fun r' => (r.1 ++ r'.1, r'.2)

/-- The numbers that `%i` is to format. -/
def decimals : List Item → List Arg → List Int32
  | [], _ => []
  | .literal _ :: its, args => decimals its args
  | .decimal :: its, .int i :: args => i :: decimals its args
  | _ :: its, args => decimals its args.tail

/-- Each of the numbers fits the buffer with its terminator. -/
def NumbersFit (its : List Item) (args : List Arg) : Prop :=
  ∀ i ∈ decimals its args, -1000000000 < i.toInt

/-! ### Items -/

variable {c : UInt8} {format rest data out w output : List UInt8} {args left : List Arg} {n : ℕ}

theorem items_cons (hc : c ≠ 0x25) (format : List UInt8) :
    items (c :: format) = .literal c :: items format := by
  cases format with
  | nil => rfl
  | cons d format =>
      rw [items]
      exact if_pos hc

theorem items_percent (d : UInt8) (format : List UInt8) : items (0x25 :: d :: format) =
    match conversion d with
    | some item => item :: items format
    | none => (0x25 :: d :: format).map .literal := by
  rw [items]
  exact if_neg fun h => h rfl

/-- Characters other than `%` stand for themselves. -/
theorem items_append (hs : 0x25 ∉ data) (format : List UInt8) :
    items (data ++ format) = data.map .literal ++ items format := by
  induction data with
  | nil => rfl
  | cons c data ih =>
      rw [List.mem_cons, not_or] at hs
      rw [List.cons_append, items_cons (Ne.symm hs.1), ih hs.2]
      rfl

theorem render_literals (its : List Item) (args : List Arg) :
    render (data.map .literal ++ its) args =
      (render its args).map fun r => (data ++ r.1, r.2) := by
  induction data with
  | nil =>
      rw [List.map_nil, List.nil_append]
      exact (congrFun Option.map_id (render its args)).symm
  | cons c data ih =>
      rw [List.map_cons, List.cons_append, render, Item.text, Option.bind_some, ih, Option.map_map]
      rfl

theorem decimals_literals (its : List Item) (args : List Arg) :
    decimals (data.map .literal ++ its) args = decimals its args := by
  induction data with
  | nil => rfl
  | cons c data ih =>
      rw [List.map_cons, List.cons_append, decimals]
      exact ih

/-! ### Strings -/

theorem ne_zero_of_text (hs : 0 ∉ data) : ∀ c ∈ data, decide (c ≠ 0) = true := by
  intro c hc
  apply decide_eq_true
  rintro rfl
  exact hs hc

theorem strlen_text (hs : 0 ∉ data) : strlen data = data.length := by
  unfold strlen
  rw [List.takeWhile_eq_self_iff.mpr (ne_zero_of_text hs)]

/-- The bytes behind the terminator do not count. -/
theorem strlen_terminated (hs : 0 ∉ data) (rest : List UInt8) :
    strlen (data ++ 0 :: rest) = data.length := by
  unfold strlen
  rw [List.takeWhile_append_of_pos (ne_zero_of_text hs), List.takeWhile_cons_of_neg (by decide),
    List.append_nil]

/-- Bytes that `strncpy` copies as they are: none of them is a terminator, or there is only one. -/
def Plain (data : List UInt8) (n : ℕ) : Prop := n ≤ data.length ∧ (0 ∉ data.take n ∨ n = 1)

theorem le_strlen (hn : n ≤ data.length) (hs : 0 ∉ data.take n) : n ≤ strlen data := by
  have htake := List.length_take_of_le hn
  rw [← List.take_append_drop n data]
  unfold strlen
  rw [List.takeWhile_append_of_pos (ne_zero_of_text hs), List.length_append, htake]
  exact Nat.le_add_right n _

theorem strncpy_plain (h : Plain data n) (mem : ℕ → UInt8) (p : ℕ) :
    strncpy mem p data n = overlay p (data.take n) mem := by
  obtain ⟨hn, hplain⟩ := h
  unfold strncpy
  by_cases hs : 0 ∈ data.take n
  · obtain rfl := hplain.resolve_left fun h => h hs
    cases data with
    | nil => exact absurd hn (by decide)
    | cons c data =>
        rw [List.take_succ_cons, List.take_zero, List.mem_singleton] at hs
        subst hs
        have hzero : strlen (0 :: data) = 0 := rfl
        simp only [hzero]
        rw [if_neg (by decide), if_pos (by decide), List.take_zero, overlay_nil]
        rfl
  · have hle := le_strlen hn hs
    have hsize : (if strlen data > n then n else strlen data) = n := by
      split_ifs
      · rfl
      · omega
    simp only [hsize]
    rw [if_neg fun h => h rfl]

/-! ### One round -/

/-- The round puts the first part of the text out, and leaves the rest to the rounds after it. -/
structure Directive.Splits (d : Directive) (format : List UInt8) (args : List Arg)
    (rendered : List UInt8) (left : List Arg) : Prop where
  plain : Plain d.data d.length
  text : ∃ rest, rendered = d.data.take d.length ++ rest ∧
    render (items d.format) d.args = some (rest, left)
  fit : NumbersFit (items format) args ↔ NumbersFit (items d.format) d.args
  shorter : d.format.length < format.length
  noNul : 0 ∉ d.format
  buf : d.buf.length = 11

theorem render_cons {item : Item} {its : List Item} {rendered : List UInt8}
    (h : render (item :: its) args = some (rendered, left)) :
    ∃ t args' rest, item.text args = some (t, args') ∧ render its args' = some (rest, left) ∧
      rendered = t ++ rest := by
  rw [render, Option.bind_eq_some_iff] at h
  obtain ⟨⟨t, args'⟩, htext, h⟩ := h
  obtain ⟨⟨rest, left'⟩, hrest, h⟩ := Option.map_eq_some_iff.mp h
  cases h
  exact ⟨t, args', rest, htext, hrest, rfl⟩

theorem text_of_render {item : Item} {its : List Item} {rendered : List UInt8}
    (hitems : items format = item :: its) (h : render (items format) args = some (rendered, left)) :
    ∃ t args', item.text args = some (t, args') := by
  rw [hitems] at h
  obtain ⟨t, args', _, htext, -⟩ := render_cons h
  exact ⟨t, args', htext⟩

/-- An argument that is an `int`, for each of the items that take one. -/
theorem Item.text_int {item : Item} {t : List UInt8}
    (htake : item = .char ∨ item = .decimal ∨ item = .hex) (h : item.text args = some (t, left)) :
    ∃ i, args = .int i :: left := by
  obtain rfl | rfl | rfl := htake
  all_goals
    cases args with
    | nil => cases h
    | cons arg args =>
        cases arg with
        | int i =>
            cases h
            exact ⟨i, rfl⟩
        | str s => cases h

theorem Item.text_str {t : List UInt8} (h : Item.string.text args = some (t, left)) :
    ∃ s : Text, args = .str s :: left ∧ t = s.1 := by
  cases args with
  | nil => cases h
  | cons arg args =>
      cases arg with
      | int i => cases h
      | str s =>
          cases h
          exact ⟨s, rfl, rfl⟩

/-- A round for one item that is not a literal. -/
theorem splits_item {item : Item} {args' : List Arg} {rendered t buf : List UInt8} {checked : Bool}
    (hitems : items format = item :: items rest) (hshort : rest.length < format.length)
    (hnul : 0 ∉ rest) (htext : item.text args = some (t, args')) (hdata : data.take n = t)
    (hplain : Plain data n) (hbuf : buf.length = 11)
    (hfit : NumbersFit (item :: items rest) args ↔ NumbersFit (items rest) args')
    (hrender : render (items format) args = some (rendered, left)) :
    (⟨data, n, checked, rest, args', buf⟩ : Directive).Splits format args rendered left where
  plain := hplain
  text := by
    rw [hitems] at hrender
    obtain ⟨t', args'', r, htext', hrest, rfl⟩ := render_cons hrender
    rw [htext] at htext'
    cases htext'
    exact ⟨r, by rw [hdata], hrest⟩
  fit := by rw [hitems]; exact hfit
  shorter := hshort
  noNul := hnul
  buf := hbuf

/-- A round for a number, whose text is in the buffer. -/
theorem splits_number {item : Item} {arg : Arg} {args' : List Arg} {rendered t after : List UInt8}
    (hitems : items format = item :: items rest) (hshort : rest.length < format.length)
    (hnul : 0 ∉ rest) (htext : item.text (arg :: args') = some (t, args')) (ht : 0 ∉ t)
    (hlength : (t ++ 0 :: after).length = 11)
    (hfit : NumbersFit (items format) (arg :: args') ↔ NumbersFit (items rest) args')
    (hrender : render (items format) (arg :: args') = some (rendered, left)) :
    (⟨t ++ 0 :: after, strlen (t ++ 0 :: after), false, rest, args', t ++ 0 :: after⟩ :
      Directive).Splits format (arg :: args') rendered left := by
  have hstrlen := strlen_terminated ht after
  have htake : (t ++ 0 :: after).take (strlen (t ++ 0 :: after)) = t := by
    rw [hstrlen, List.take_left]
  refine splits_item hitems hshort hnul htext htake ⟨?_, .inl ?_⟩ hlength ?_ hrender
  · rw [hstrlen, List.length_append]
    exact Nat.le_add_right _ _
  · rw [htake]
    exact ht
  · rw [← hitems]
    exact hfit

/-- The text up to the next `%`, and what follows. -/
theorem exists_text (format : List UInt8) : ∃ text after, format = text ++ after ∧ 0x25 ∉ text ∧
    (format.takeWhile fun c => c ≠ 0x25) = text := by
  refine ⟨format.takeWhile fun c => c ≠ 0x25, format.dropWhile fun c => c ≠ 0x25,
    List.takeWhile_append_dropWhile.symm, ?_, rfl⟩
  intro hmem
  have hne := List.mem_takeWhile_imp hmem
  exact of_decide_eq_true hne rfl

/-- A round for a character that stands for itself and for those behind it up to the next `%`. -/
theorem splits_literal {rendered buf : List UInt8}
    (hitems : items format = .literal c :: items rest) (hshort : rest.length < format.length)
    (hnul : 0 ∉ c :: rest) (hbuf : buf.length = 11)
    (hrender : render (items format) args = some (rendered, left)) :
    (⟨c :: rest, 1 + (rest.takeWhile fun c => c ≠ 0x25).length, true,
      (c :: rest).drop (1 + (rest.takeWhile fun c => c ≠ 0x25).length), args, buf⟩ : Directive).Splits
      format args rendered left := by
  obtain ⟨text, after, rfl, hpercent, htext⟩ := exists_text rest
  have htake : (c :: (text ++ after)).take (1 + text.length) = c :: text := by
    rw [Nat.add_comm, List.take_succ_cons, List.take_left]
  have hdrop : (c :: (text ++ after)).drop (1 + text.length) = after := by
    rw [Nat.add_comm, List.drop_succ_cons, List.drop_left]
  have hall : items format = (c :: text).map .literal ++ items after := by
    rw [hitems, items_append hpercent]
    rfl
  rw [htext, hdrop]
  refine ⟨⟨?_, .inl ?_⟩, ?_, ?_, ?_, ?_, hbuf⟩
  · show 1 + text.length ≤ (c :: (text ++ after)).length
    rw [List.length_cons, List.length_append]
    omega
  · rw [htake]
    intro hzero
    exact hnul (List.cons_subset_cons c (List.subset_append_left text after) hzero)
  · rw [hall, render_literals] at hrender
    obtain ⟨⟨r, left'⟩, hrest, h⟩ := Option.map_eq_some_iff.mp hrender
    cases h
    exact ⟨r, by rw [htake], hrest⟩
  · unfold NumbersFit
    rw [hall, decimals_literals]
  · rw [List.length_append] at hshort
    exact Nat.lt_of_le_of_lt (Nat.le_add_left _ _) hshort
  · intro hzero
    exact hnul (List.mem_cons_of_mem c (List.mem_append_right text hzero))

/-- A round for the rest of the format, which begins with an unknown directive. -/
theorem splits_unknown {rendered buf : List UInt8}
    (hitems : items format = format.map .literal) (hne : format ≠ []) (hnul : 0 ∉ format)
    (hbuf : buf.length = 11) (hrender : render (items format) args = some (rendered, left)) :
    (⟨format, strlen format, true, format.drop (strlen format), args, buf⟩ : Directive).Splits
      format args rendered left := by
  have hlength := strlen_text hnul
  have hall : items format = format.map .literal ++ [] := hitems.trans (List.append_nil _).symm
  rw [hlength, List.drop_length]
  refine ⟨⟨Nat.le_refl _, .inl ?_⟩, ?_, ?_, ?_, List.not_mem_nil, hbuf⟩
  · rw [List.take_length]
    exact hnul
  · rw [hall, render_literals] at hrender
    rw [List.take_length]
    cases hrender
    exact ⟨[], rfl, rfl⟩
  · unfold NumbersFit
    rw [hall, decimals_literals]
    exact Iff.rfl
  · exact List.length_pos_of_ne_nil hne

/-- One round of the loop splits the text, or overruns the buffer with a number that does not fit. -/
def Round (above format : List UInt8) (args : List Arg) (buf rendered : List UInt8)
    (left : List Arg) : Prop :=
  (∃ d, nextDirective above format args buf = .ok d ∧ d.Splits format args rendered left) ∨
  (nextDirective above format args buf = .error .overrun ∧ ¬NumbersFit (items format) args)

section

variable {above rendered buf : List UInt8}

theorem length_lt_conversion (k : UInt8) (format : List UInt8) :
    format.length < (0x25 :: k :: format).length := by
  rw [List.length_cons, List.length_cons]
  omega

theorem round_literal (hc : c ≠ 0x25) (hnul : 0 ∉ c :: format) (hbuf : buf.length = 11)
    (hrender : render (items (c :: format)) args = some (rendered, left)) :
    Round above (c :: format) args buf rendered left := by
  refine .inl ⟨_, ?_, splits_literal (items_cons hc format) (Nat.lt_succ_self _) hnul hbuf hrender⟩
  have hhead : (c :: format).head? ≠ some 0x25 := fun h => hc (Option.some.inj h)
  unfold nextDirective
  rw [if_pos (.inl hhead)]
  simp only [if_neg hhead]
  rfl

theorem round_percent (hnul : 0 ∉ 0x25 :: format) (hbuf : buf.length = 11)
    (hrender : render (items (0x25 :: 0x25 :: format)) args = some (rendered, left)) :
    Round above (0x25 :: 0x25 :: format) args buf rendered left :=
  .inl ⟨_, rfl, splits_literal (c := 0x25) (items_percent 0x25 format)
    (length_lt_conversion 0x25 format) hnul hbuf hrender⟩

theorem round_char (hnul : 0 ∉ format) (hbuf : buf.length = 11)
    (hrender : render (items (0x25 :: 0x63 :: format)) args = some (rendered, left)) :
    Round above (0x25 :: 0x63 :: format) args buf rendered left := by
  have hitems : items (0x25 :: 0x63 :: format) = .char :: items format := items_percent 0x63 format
  obtain ⟨t, args', htext⟩ := text_of_render hitems hrender
  obtain ⟨i, rfl⟩ := Item.text_int (.inl rfl) htext
  exact .inl ⟨_, rfl, splits_item hitems (length_lt_conversion 0x63 format) hnul rfl rfl
    ⟨Nat.succ_le_succ (Nat.zero_le _), .inr rfl⟩ hbuf Iff.rfl hrender⟩

theorem round_string (hnul : 0 ∉ format) (hbuf : buf.length = 11)
    (hrender : render (items (0x25 :: 0x73 :: format)) args = some (rendered, left)) :
    Round above (0x25 :: 0x73 :: format) args buf rendered left := by
  have hitems : items (0x25 :: 0x73 :: format) = .string :: items format := items_percent 0x73 format
  obtain ⟨t, args', htext⟩ := text_of_render hitems hrender
  obtain ⟨s, rfl, -⟩ := Item.text_str htext
  have hlength := strlen_text s.2
  have htake : s.1.take (strlen s.1) = s.1 := by rw [hlength, List.take_length]
  have hplain : Plain s.1 (strlen s.1) := by
    refine ⟨Nat.le_of_eq hlength, .inl ?_⟩
    rw [htake]
    exact s.2
  exact .inl ⟨_, rfl, splits_item hitems (length_lt_conversion 0x73 format) hnul rfl htake hplain hbuf
    Iff.rfl hrender⟩

/-- The only round that can overrun the buffer. -/
theorem round_decimal (hnul : 0 ∉ format) (hbuf : buf.length = 11)
    (hrender : render (items (0x25 :: 0x69 :: format)) args = some (rendered, left)) :
    Round above (0x25 :: 0x69 :: format) args buf rendered left := by
  have hitems : items (0x25 :: 0x69 :: format) = .decimal :: items format := items_percent 0x69 format
  obtain ⟨t, args', htext⟩ := text_of_render hitems hrender
  obtain ⟨i, rfl⟩ := Item.text_int (.inr (.inl rfl)) htext
  have hrun : nextDirective above (0x25 :: 0x69 :: format) (.int i :: args') buf =
      itoa i buf 10 >>= fun buf => .ok ⟨buf, strlen buf, false, format, args', buf⟩ := rfl
  have hdecimals : decimals (items (0x25 :: 0x69 :: format)) (.int i :: args') =
      i :: decimals (items format) args' := by
    rw [hitems]
    rfl
  cases itoa_buffer i hbuf with
  | inl hfits =>
      obtain ⟨hlow, after, hitoa, hlength⟩ := hfits
      refine .inl ⟨_, by rw [hrun, hitoa, ok_bind], ?_⟩
      apply splits_number hitems (length_lt_conversion 0x69 format) hnul rfl
        (decimalText_zero_notMem _) hlength _ hrender
      unfold NumbersFit
      rw [hdecimals, List.forall_mem_cons]
      exact and_iff_right hlow
  | inr hover =>
      refine .inr ⟨by rw [hrun, hover.2, error_bind], fun hfit => ?_⟩
      have hlow := hfit i (hdecimals ▸ List.mem_cons_self ..)
      exact absurd hlow (Int.not_lt.mpr hover.1)

theorem round_hex (hnul : 0 ∉ format) (hbuf : buf.length = 11)
    (hrender : render (items (0x25 :: 0x78 :: format)) args = some (rendered, left)) :
    Round above (0x25 :: 0x78 :: format) args buf rendered left := by
  have hitems : items (0x25 :: 0x78 :: format) = .hex :: items format := items_percent 0x78 format
  obtain ⟨t, args', htext⟩ := text_of_render hitems hrender
  obtain ⟨i, rfl⟩ := Item.text_int (.inr (.inr rfl)) htext
  have hrun : nextDirective above (0x25 :: 0x78 :: format) (.int i :: args') buf =
      itoa i buf 16 >>= fun buf => .ok ⟨buf, strlen buf, false, format, args', buf⟩ := rfl
  obtain ⟨after, hitoa, hlength⟩ := itoa_buffer_hex i hbuf
  have hnumeral : IsNumeral 16 (numeral 16 i.toUInt32.toNat) i.toUInt32.toNat :=
    isNumeral_numeral (by decide) (by decide) _
  refine .inl ⟨_, by rw [hrun, hitoa, ok_bind], ?_⟩
  apply splits_number hitems (length_lt_conversion 0x78 format) hnul rfl
    (hnumeral.zero_notMem (by decide)) hlength _ hrender
  rw [hitems]
  exact Iff.rfl

theorem round_unknown {k : UInt8} (hk : conversion k = none) (hnul : 0 ∉ 0x25 :: k :: format)
    (hbuf : buf.length = 11)
    (hrender : render (items (0x25 :: k :: format)) args = some (rendered, left)) :
    Round above (0x25 :: k :: format) args buf rendered left := by
  have hitems := items_percent k format
  rw [hk] at hitems
  have hne : ∀ c : UInt8, conversion c ≠ none → (k :: format).head? ≠ some c := by
    intro c hc h
    obtain rfl := Option.some.inj h
    exact hc hk
  refine .inl ⟨_, ?_, splits_unknown hitems (List.cons_ne_nil _ _) hnul hbuf hrender⟩
  have hpercent : ¬((0x25 :: k :: format).head? ≠ some 0x25 ∨
      (0x25 :: k :: format).tail.head? = some 0x25) := by
    rintro (h | h)
    · exact h rfl
    · exact hne _ (by decide) h
  exact (if_neg hpercent).trans <| (if_neg (hne _ (by decide))).trans <|
    (if_neg (hne _ (by decide))).trans <| (if_neg (hne _ (by decide))).trans <|
    if_neg (hne _ (by decide))

/-- A round for each of the branches. -/
theorem nextDirective_round (above : List UInt8) (hne : format ≠ []) (hnul : 0 ∉ format)
    (hbuf : buf.length = 11) (hrender : render (items format) args = some (rendered, left)) :
    Round above format args buf rendered left := by
  obtain ⟨c, format, rfl⟩ := List.exists_cons_of_ne_nil hne
  by_cases hc : c = 0x25
  · subst hc
    cases format with
    | nil => exact .inl ⟨_, rfl, splits_unknown rfl hne hnul hbuf hrender⟩
    | cons k format =>
        have hnul' : 0 ∉ k :: format := fun h => hnul (List.mem_cons_of_mem _ h)
        have hnulRest : 0 ∉ format := fun h => hnul' (List.mem_cons_of_mem _ h)
        by_cases hconversion : conversion k = none
        · exact round_unknown hconversion hnul hbuf hrender
        · unfold conversion at hconversion
          split_ifs at hconversion with hpercent hchar hstring hdecimal hhex
          · subst hpercent
            exact round_percent hnul' hbuf hrender
          · subst hchar
            exact round_char hnulRest hbuf hrender
          · subst hstring
            exact round_string hnulRest hbuf hrender
          · subst hdecimal
            exact round_decimal hnulRest hbuf hrender
          · subst hhex
            exact round_hex hnulRest hbuf hrender
          · exact absurd rfl hconversion
  · exact round_literal hc hnul hbuf hrender

end

/-! ### The loop -/

section

variable {σ : Type} {emit : σ → List UInt8 → ℕ → Int32 → Except Fault (Bool × σ)}
  {Has : σ → List UInt8 → Prop}

/-- A call that puts plain bytes out behind those that are there, up to the whole of `output`. -/
def Emits (emit : σ → List UInt8 → ℕ → Int32 → Except Fault (Bool × σ)) (Has : σ → List UInt8 → Prop)
    (output : List UInt8) : Prop :=
  ∀ out w data n, Has out w → w ++ data.take n <+: output → Plain data n →
    ∃ out', emit out data n (Int32.ofNat w.length) = .ok (true, out') ∧ Has out' (w ++ data.take n)

/-- There is room for what is left of an output that is short enough. -/
theorem maxrem_toNat {k : ℕ} (hk : k ≤ 0x7FFFFFFF) :
    (intMax - Int32.ofNat k).toUInt32.toNat = 0x7FFFFFFF - k := by
  have hlt : k < 2 ^ 32 := by omega
  have hmax : intMax.toUInt32.toNat = 0x7FFFFFFF := rfl
  have hofNat : (UInt32.ofNat k).toNat = k := UInt32.toNat_ofNat_of_lt' hlt
  rw [Int32.toUInt32_sub, Int32.toUInt32_ofNat', UInt32.toNat_sub_of_le]
  · rw [hmax, hofNat]
  · rw [UInt32.le_iff_toNat_le, hmax, hofNat]
    exact hk

/-- The loop puts the text of the format out, or overruns the buffer. -/
theorem formatLoop_outcome (hemit : Emits emit Has output) (hout : output.length < 0x7FFFFFFF)
    (above : List UInt8) {fuel : ℕ} {buf : List UInt8} {out : σ} (hfuel : format.length < fuel)
    (hnul : 0 ∉ format) (hbuf : buf.length = 11) (hhas : Has out w)
    (hrender : render (items format) args = some (rest, left)) (hsum : w ++ rest = output) :
    (NumbersFit (items format) args ∧ ∃ out', Has out' output ∧
      formatLoop emit above fuel format args buf (Int32.ofNat w.length) out =
        .ok (some (Int32.ofNat output.length), out', left)) ∨
    (¬NumbersFit (items format) args ∧
      formatLoop emit above fuel format args buf (Int32.ofNat w.length) out = .error .overrun) := by
  induction fuel generalizing format args buf w rest out with
  | zero => exact absurd hfuel (Nat.not_lt_zero _)
  | succ fuel ih =>
      unfold formatLoop
      by_cases hempty : format = []
      · subst hempty
        cases hrender
        rw [List.append_nil] at hsum
        subst hsum
        rw [if_pos rfl]
        exact .inl ⟨fun i hi => absurd hi List.not_mem_nil, out, hhas, rfl⟩
      · rw [if_neg hempty]
        cases nextDirective_round above hempty hnul hbuf hrender with
        | inr hover => exact .inr ⟨hover.2, by rw [hover.1, error_bind]⟩
        | inl hround =>
            obtain ⟨d, hrun, hsplits⟩ := hround
            obtain ⟨after, rfl, hafter⟩ := hsplits.text
            have hfront : w ++ d.data.take d.length <+: output := by
              rw [← hsum, ← List.append_assoc]
              exact List.prefix_append _ _
            have htake := List.length_take_of_le hsplits.plain.1
            have hlength := hfront.length_le
            rw [List.length_append, htake] at hlength
            have hroom : ¬(d.checked = true ∧
                (intMax - Int32.ofNat w.length).toUInt32.toNat < d.length) := by
              rw [maxrem_toNat (by omega)]
              omega
            obtain ⟨out', hdone, hhas'⟩ := hemit out w d.data d.length hhas hfront hsplits.plain
            rw [hrun, ok_bind]
            simp only
            rw [if_neg hroom, hdone, ok_bind]
            have hwritten : Int32.ofNat w.length + Int32.ofNat d.length =
                Int32.ofNat (w ++ d.data.take d.length).length := by
              rw [List.length_append, htake, Int32.ofNat_add]
            rw [hwritten, hsplits.fit]
            exact ih (Nat.lt_of_lt_of_le hsplits.shorter (Nat.le_of_lt_succ hfuel)) hsplits.noNul
              hsplits.buf hhas' hafter (by rw [List.append_assoc, hsum])

end

/-! ### `printf` and `sprintf` -/

/-- No `write` of an output fails, or writes fewer bytes than it is given. -/
def WritesSucceed (write : List UInt8 → List UInt8 → Int) (output : List UInt8) : Prop :=
  ∀ before data after, before ++ data ++ after = output →
    write before data ≠ -1 ∧ data.length ≤ (write before data).toNat

theorem print_emits {write : List UInt8 → List UInt8 → Int} (h : WritesSucceed write output) :
    Emits (fun out data length _ => print write out data length) Eq output := by
  rintro out w data n rfl ⟨after, hafter⟩ hplain
  refine ⟨out ++ data.take n, ?_, rfl⟩
  show print write out data n = _
  obtain ⟨hdone, hall⟩ := h out _ after hafter
  unfold print
  simp only
  rw [if_neg (Nat.not_lt.mpr hplain.1), if_neg hdone, List.take_of_length_le hall]

theorem toInt_ofNat_length {k : ℕ} (hk : k < 0x7FFFFFFF) : (Int32.ofNat k).toInt = k :=
  Int32.toInt_ofNat_of_lt (by omega)

theorem sprint_emits (str : ℕ → UInt8) (hout : output.length < 0x7FFFFFFF) :
    Emits sprint (fun mem w => mem = overlay 0 w str) output := by
  rintro mem w data n rfl hfront hplain
  have hlength := hfront.length_le
  rw [List.length_append] at hlength
  refine ⟨_, rfl, ?_⟩
  rw [strncpy_plain hplain, toInt_ofNat_length (by omega), Int.toNat_natCast]
  show _ = overlay 0 (w ++ data.take n) str
  rw [overlay_append, Nat.zero_add]

/-- The two functions return the same count, `sprintf` fills that many bytes of `str` with the bytes
that `printf` writes, and a terminator, and no other bytes, and they take the same arguments. -/
def Agree (write : List UInt8 → List UInt8 → Int) (above above' : List UInt8)
    (buf buf' : Vector UInt8 11) (str : ℕ → UInt8) (format : Text) (args : List Arg)
    (output : List UInt8) (left : List Arg) : Prop :=
  ∃ n : Int32, n.toInt = output.length ∧
    printf write above buf format args = .ok (n, output, left) ∧
    sprintf above' buf' str format args = .ok (n, overlay 0 (output ++ [0]) str, left)

/-- The start of the count. -/
theorem written_zero : (0 : Int32) = Int32.ofNat ([] : List UInt8).length := rfl

section

variable {write : List UInt8 → List UInt8 → Int} {format : Text}

theorem printf_outcome (above : List UInt8) (buf : Vector UInt8 11)
    (hrender : render (items format.1) args = some (output, left))
    (hout : output.length < 0x7FFFFFFF) (hwrites : WritesSucceed write output) :
    (NumbersFit (items format.1) args ∧
      printf write above buf format args = .ok (Int32.ofNat output.length, output, left)) ∨
    (¬NumbersFit (items format.1) args ∧
      printf write above buf format args = .error .overrun) := by
  unfold printf
  rw [written_zero]
  cases formatLoop_outcome (print_emits hwrites) hout above (Nat.lt_succ_self format.1.length)
      format.2 buf.length_toList rfl hrender (List.nil_append _) with
  | inl hprint =>
      obtain ⟨hfit, out, hhas, hloop⟩ := hprint
      rw [show out = output from hhas] at hloop
      refine .inl ⟨hfit, ?_⟩
      rw [hloop]
      rfl
  | inr hover =>
      refine .inr ⟨hover.1, ?_⟩
      rw [hover.2]
      rfl

theorem sprintf_outcome (above : List UInt8) (buf : Vector UInt8 11) (str : ℕ → UInt8)
    (hrender : render (items format.1) args = some (output, left))
    (hout : output.length < 0x7FFFFFFF) :
    (NumbersFit (items format.1) args ∧ sprintf above buf str format args =
      .ok (Int32.ofNat output.length, overlay 0 (output ++ [0]) str, left)) ∨
    (¬NumbersFit (items format.1) args ∧
      sprintf above buf str format args = .error .overrun) := by
  have hnil : str = overlay 0 [] str := (overlay_nil 0 str).symm
  unfold sprintf
  rw [written_zero]
  cases formatLoop_outcome (sprint_emits str hout) hout above (Nat.lt_succ_self format.1.length)
      format.2 buf.length_toList hnil hrender (List.nil_append _) with
  | inl hsprint =>
      obtain ⟨hfit, mem, hmem, hloop⟩ := hsprint
      rw [show mem = overlay 0 output str from hmem] at hloop
      refine .inl ⟨hfit, ?_⟩
      rw [hloop, overlay_append, Nat.zero_add]
      simp only [ok_bind, toInt_ofNat_length hout, Int.toNat_natCast]
  | inr hover =>
      refine .inr ⟨hover.1, ?_⟩
      rw [hover.2]
      rfl

end

/-- `printf` and `sprintf` agree on every output that is short enough, exactly if no number overruns
the buffer in which both format it. -/
theorem sprintf_agrees_iff (write : List UInt8 → List UInt8 → Int) (above above' : List UInt8)
    (buf buf' : Vector UInt8 11) (str : ℕ → UInt8) (format : Text) (args : List Arg)
    (output : List UInt8) (left : List Arg)
    (hrender : render (items format.1) args = some (output, left))
    (hout : output.length < 0x7FFFFFFF) (hwrites : WritesSucceed write output) :
    Agree write above above' buf buf' str format args output left ↔
      NumbersFit (items format.1) args := by
  have hprintf := printf_outcome above buf hrender hout hwrites
  have hsprintf := sprintf_outcome above' buf' str hrender hout
  constructor
  · rintro ⟨n, -, hrun, -⟩
    cases hprintf with
    | inl hprint => exact hprint.1
    | inr hover =>
        rw [hover.2] at hrun
        cases hrun
  · intro hfit
    have hprint := hprintf.resolve_right fun h => h.1 hfit
    have hsprint := hsprintf.resolve_right fun h => h.1 hfit
    exact ⟨Int32.ofNat output.length, toInt_ofNat_length hout, hprint.2, hsprint.2⟩

/-- `"%i%%%q"` with one argument more than it takes. -/
theorem sprintf_agrees_minus : Agree (fun _ data => data.length) [0x41] [] (Vector.replicate 11 0)
    (Vector.replicate 11 1) (fun _ => 0) ⟨[0x25, 0x69, 0x25, 0x25, 0x25, 0x71], by decide⟩
    [.int (-42), .int 1] [0x2D, 0x34, 0x32, 0x25, 0x25, 0x71] [.int 1] ↔
    NumbersFit (items [0x25, 0x69, 0x25, 0x25, 0x25, 0x71]) [.int (-42), .int 1] :=
  sprintf_agrees_iff _ _ _ _ _ _ _ _ _ _ rfl (by decide) fun _ data _ _ =>
    ⟨fun h => by omega, Nat.le_of_eq (Int.toNat_natCast data.length).symm⟩

/-- A `write` that takes two bytes of `"abc"` does not change the count. -/
example : printf (fun _ _ => 2) [] (Vector.replicate 11 0) ⟨[0x61, 0x62, 0x63], by decide⟩ [] =
    .ok (3, [0x61, 0x62], []) := rfl

/-- `"%i"` with `-1000000000`, whose text and terminator take twelve bytes. -/
theorem sprintf_overrun : ¬∀ (format : Text) (args : List Arg) (output : List UInt8)
    (left : List Arg), render (items format.1) args = some (output, left) →
    output.length < 0x7FFFFFFF →
    Agree (fun _ data => data.length) [] [] (Vector.replicate 11 0) (Vector.replicate 11 0) (fun _ => 0)
      format args output left := by
  intro hagree
  have hrender : render (items [0x25, 0x69]) [.int (-1000000000)] =
      some (decimalText (-1000000000), []) := rfl
  obtain ⟨n, -, hrun, -⟩ :=
    hagree ⟨[0x25, 0x69], by decide⟩ [.int (-1000000000)] _ _ hrender (by decide)
  have hover : printf (fun _ data => data.length) [] (Vector.replicate 11 0) ⟨[0x25, 0x69], by decide⟩
      [.int (-1000000000)] = .error .overrun := rfl
  rw [hover] at hrun
  cases hrun

end GalaxyOS
