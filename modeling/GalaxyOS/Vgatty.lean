import GalaxyOS.Lib.Transition
import GalaxyOS.Mem.Paging

/-! # The text console

The VGA text mode driver of `vgatty.c`: a cursor that moves over 25 rows of 80 cells.  A character
is printed at the cursor, a newline or a full row moves on, the last row scrolls, and `0x7F` erases
backwards.  The counters are 32 bits wide.

`touched` records every cell that is loaded or stored, with the index that the code computes.
`terminal_onScreen_iff` says which texts stay on the screen: those that never erase at the first
cell.

`terminalPutchar_onScreen` is the step of one character, `Terminal.Swept` what the loops over rows and
columns do to the screen. -/

namespace GalaxyOS

open Transition

/-- `VGA_WIDTH`. -/
def vgaWidth : ℕ := 80

/-- `VGA_HEIGHT`. -/
def vgaHeight : ℕ := 25

/-- `enum vga_color`. -/
inductive VgaColor where
  | black | blue | green | cyan | red | magenta | brown | lightGrey | darkGrey | lightBlue
  | lightGreen | lightCyan | lightRed | lightMagenta | lightBrown | white
deriving DecidableEq, Repr

/-- The number of a color, in the order of the enumeration. -/
def VgaColor.value (c : VgaColor) : UInt8 := UInt8.ofNat c.ctorIdx

/-- `vga_entry_color`. -/
def vgaEntryColor (fg bg : VgaColor) : UInt8 := fg.value ||| bg.value <<< 4

/-- `vga_entry`. -/
def vgaEntry (uc color : UInt8) : UInt16 := uc.toUInt16 ||| color.toUInt16 <<< 8

/-- The variables of the driver, the position of the hardware cursor and the cells that have been
accessed. -/
structure Terminal where
  row : ℕ
  column : ℕ
  color : UInt8
  fg : VgaColor
  bg : VgaColor
  buffer : ℕ → UInt16
  cursor : ℕ
  touched : List ℕ

namespace Terminal

/-- `terminal_buffer[index] = e`. -/
def store (t : Terminal) (index : ℕ) (e : UInt16) : Terminal :=
  { t with buffer := Function.update t.buffer index e, touched := index :: t.touched }

/-- `terminal_buffer[index] = terminal_buffer[src]`. -/
def move (t : Terminal) (index src : ℕ) : Terminal :=
  { t with
    buffer := Function.update t.buffer index (t.buffer src), touched := index :: src :: t.touched }

/-- The body `f` of the loops over the columns of one row. -/
def forColumns (t : Terminal) (f : Terminal → ℕ → Terminal) : Terminal :=
  (List.range vgaWidth).foldl f t

/-- Blank every cell, row by row. -/
def blank (t : Terminal) : Terminal :=
  (List.range vgaHeight).foldl
    (fun t y => t.forColumns fun t x => t.store (y * vgaWidth + x) (vgaEntry 0x20 t.color)) t

end Terminal

/-- `terminal_initialize`, over what the buffer held before. -/
def terminalInitialize (buffer : ℕ → UInt16) : Terminal :=
  Terminal.blank
    { row := 0, column := 0, color := vgaEntryColor .lightGrey .black, fg := .lightGrey, bg := .black
      buffer := buffer, cursor := 0, touched := [] }

def terminalSetfgcolor (t : Terminal) (fg : VgaColor) : Terminal :=
  { t with fg := fg, color := vgaEntryColor fg t.bg }

def terminalSetbgcolor (t : Terminal) (bg : VgaColor) : Terminal :=
  { t with bg := bg, color := vgaEntryColor t.fg bg }

def terminalPutentryat (t : Terminal) (c color : UInt8) (x y : ℕ) : Terminal :=
  t.store (wrap32 (y * vgaWidth + x)) (vgaEntry c color)

/-- `terminal_scroll`: every row moves up by one, the last one becomes blank. -/
def terminalScroll (t : Terminal) : Terminal :=
  let moved := (List.range (vgaHeight - 1)).foldl
    (fun t y => t.forColumns fun t x =>
      t.move (y * vgaWidth + x) (y * vgaWidth + x + vgaWidth)) t
  moved.forColumns fun t x =>
    t.store ((vgaHeight - 1) * vgaWidth + x) (vgaEntry 0x20 t.color)

/-- `n--` of a `size_t`. -/
def decrement32 (n : ℕ) : ℕ := wrap32 (n + 0x100000000 - 1)

/-- The switch of `terminal_putchar`. -/
def terminalSwitch (t : Terminal) (c : UInt8) : Terminal :=
  if c = 0x0A then { t with row := wrap32 (t.row + 1), column := 0 }
  else if c = 0x7F then
    if t.column = 0 then { t with row := decrement32 t.row, column := vgaWidth - 1 }
    else
      terminalPutentryat { t with column := t.column - 1 } 0 t.color (t.column - 1) t.row
  else
    { terminalPutentryat t c t.color t.column t.row with column := wrap32 (t.column + 1) }

/-- Go on in the next row when the row is full. -/
def Terminal.wrapColumn (t : Terminal) : Terminal :=
  if t.column = vgaWidth then { t with column := 0, row := wrap32 (t.row + 1) } else t

/-- Scroll when the last row is full. -/
def Terminal.wrapRow (t : Terminal) : Terminal :=
  if t.row = vgaHeight then
    { terminalScroll t with column := 0, row := decrement32 (terminalScroll t).row }
  else t

/-- `terminal_update_cursor`. -/
def terminalUpdateCursor (t : Terminal) (x y : ℕ) : Terminal :=
  { t with cursor := (y * vgaWidth + x) % 0x10000 }

def terminalPutchar (t : Terminal) (c : UInt8) : Terminal :=
  let t' := (terminalSwitch t c).wrapColumn.wrapRow
  terminalUpdateCursor t' t'.column t'.row

def terminalWrite (t : Terminal) (data : List UInt8) : Terminal := data.foldl terminalPutchar t

def terminalClear (t : Terminal) : Terminal := { t.blank with row := 0, column := 0 }

/-! ### Sessions -/

/-- A call of the driver. -/
inductive TerminalOp where
  | write (data : List UInt8)
  | clear
  | setfgcolor (fg : VgaColor)
  | setbgcolor (bg : VgaColor)

def TerminalOp.run (t : Terminal) : TerminalOp → Terminal
  | .write data => terminalWrite t data
  | .clear => terminalClear t
  | .setfgcolor fg => terminalSetfgcolor t fg
  | .setbgcolor bg => terminalSetbgcolor t bg

/-- What the driver does at a time: a single character, or a call that is not `terminal_write`. -/
inductive TerminalEvent where
  | putchar (c : UInt8)
  | clear
  | setfgcolor (fg : VgaColor)
  | setbgcolor (bg : VgaColor)

def TerminalEvent.run (t : Terminal) : TerminalEvent → Terminal
  | .putchar c => terminalPutchar t c
  | .clear => terminalClear t
  | .setfgcolor fg => terminalSetfgcolor t fg
  | .setbgcolor bg => terminalSetbgcolor t bg

def TerminalOp.events : TerminalOp → List TerminalEvent
  | .write data => data.map .putchar
  | .clear => [.clear]
  | .setfgcolor fg => [.setfgcolor fg]
  | .setbgcolor bg => [.setbgcolor bg]

theorem TerminalOp.events_run (t : Terminal) (op : TerminalOp) :
    op.events.foldl TerminalEvent.run t = op.run t := by
  cases op with
  | write data => exact List.foldl_map
  | _ => rfl

/-- The states after every character and every other call. -/
def terminalStates (t : Terminal) (ops : List TerminalOp) : List Terminal :=
  trace TerminalEvent.run t (ops.flatMap TerminalOp.events)

/-- The cursor is on the screen, and so is every cell accessed so far. -/
structure Terminal.OnScreen (t : Terminal) : Prop where
  row : t.row < vgaHeight
  column : t.column < vgaWidth
  cells : ∀ index ∈ t.touched, index < vgaWidth * vgaHeight

instance (t : Terminal) : Decidable t.OnScreen :=
  decidable_of_iff (t.row < vgaHeight ∧ t.column < vgaWidth ∧
    ∀ index ∈ t.touched, index < vgaWidth * vgaHeight)
    ⟨fun h => ⟨h.1, h.2.1, h.2.2⟩, fun h => ⟨h.row, h.column, h.cells⟩⟩

/-- Not a `0x7F` with the cursor at the first cell. -/
def TerminalEvent.ErasesInside (t : Terminal) : TerminalEvent → Prop
  | .putchar c => c = 0x7F → ¬(t.row = 0 ∧ t.column = 0)
  | _ => True

/-- No character of the session erases at the first cell. -/
def ErasesInside (t : Terminal) (ops : List TerminalOp) : Prop :=
  Admitted TerminalEvent.run TerminalEvent.ErasesInside t (ops.flatMap TerminalOp.events)

/-! ### Loops over the cells -/

/-- `t'` is `t` with other cells of the screen accessed and perhaps changed. -/
structure Terminal.Swept (t t' : Terminal) : Prop where
  row : t'.row = t.row
  column : t'.column = t.column
  cells : ∀ index ∈ t'.touched, index ∈ t.touched ∨ index < vgaWidth * vgaHeight

namespace Terminal

theorem Swept.refl (t : Terminal) : t.Swept t := ⟨rfl, rfl, fun _ h => .inl h⟩

theorem Swept.trans {t₁ t₂ t₃ : Terminal} (h : t₁.Swept t₂) (h' : t₂.Swept t₃) : t₁.Swept t₃ := by
  refine ⟨h'.row.trans h.row, h'.column.trans h.column, fun index hi => ?_⟩
  cases h'.cells index hi with
  | inl hi => exact h.cells index hi
  | inr hi => exact .inr hi

theorem Swept.store (t : Terminal) {index : ℕ} (h : index < vgaWidth * vgaHeight) (e : UInt16) :
    t.Swept (t.store index e) := by
  refine ⟨rfl, rfl, fun i hi => ?_⟩
  cases List.mem_cons.mp hi with
  | inl hi => exact .inr (hi ▸ h)
  | inr hi => exact .inl hi

theorem Swept.move (t : Terminal) {index src : ℕ} (h : index < vgaWidth * vgaHeight)
    (h' : src < vgaWidth * vgaHeight) : t.Swept (t.move index src) := by
  refine ⟨rfl, rfl, fun i hi => ?_⟩
  simp only [Terminal.move, List.mem_cons] at hi
  obtain rfl | rfl | hi := hi
  · exact .inr h
  · exact .inr h'
  · exact .inl hi

theorem Swept.loop {f : Terminal → ℕ → Terminal} {n : ℕ}
    (h : ∀ (t : Terminal), ∀ i < n, t.Swept (f t i)) (t : Terminal) : t.Swept ((List.range n).foldl f t) := by
  refine List.foldlRecOn (List.range n) f (.refl t) fun t' ht' i hi => ?_
  exact ht'.trans (h t' i (List.mem_range.mp hi))

/-- A cell of row `y` and column `x` is on the screen. -/
theorem index_lt {x y : ℕ} (hx : x < vgaWidth) (hy : y < vgaHeight) :
    y * vgaWidth + x < vgaWidth * vgaHeight := by
  unfold vgaWidth vgaHeight at *
  omega

theorem blank_swept (t : Terminal) : t.Swept t.blank := by
  refine Swept.loop (fun t y hy => ?_) t
  exact Swept.loop (fun t x hx => .store t (index_lt hx hy) (vgaEntry 0x20 t.color)) t

end Terminal

theorem terminalScroll_swept (t : Terminal) : t.Swept (terminalScroll t) := by
  refine Terminal.Swept.trans (Terminal.Swept.loop (fun t y hy => ?_) t)
    (Terminal.Swept.loop (fun t x hx => ?_) _)
  · refine Terminal.Swept.loop (fun t x hx => .move t ?_ ?_) t
    · exact Terminal.index_lt hx (by omega)
    · have hnext := Terminal.index_lt (y := y + 1) hx (by omega)
      rwa [Nat.succ_mul, Nat.add_right_comm] at hnext
  · exact .store t (Terminal.index_lt hx (by decide)) _

/-! ### One character -/

theorem Terminal.OnScreen.swept {t t' : Terminal} (ht : t.OnScreen) (h : t.Swept t') :
    t'.OnScreen := by
  refine ⟨h.row ▸ ht.row, h.column ▸ ht.column, fun index hi => ?_⟩
  cases h.cells index hi with
  | inl hi => exact ht.cells index hi
  | inr hi => exact hi

/-- Only the switch has been done: the row may be one too far, and so may the column. -/
structure Terminal.AfterSwitch (t : Terminal) : Prop where
  row : t.row ≤ vgaHeight
  column : t.column ≤ vgaWidth
  last : t.row = vgaHeight → t.column = 0
  cells : ∀ index ∈ t.touched, index < vgaWidth * vgaHeight

theorem terminalPutentryat_swept (t : Terminal) (c color : UInt8) {x y : ℕ} (hx : x < vgaWidth)
    (hy : y < vgaHeight) : t.Swept (terminalPutentryat t c color x y) := by
  have hlt := Terminal.index_lt hx hy
  have hwrap : wrap32 (y * vgaWidth + x) = y * vgaWidth + x := by
    exact Nat.mod_eq_of_lt (Nat.lt_of_lt_of_le hlt (by decide))
  unfold terminalPutentryat
  rw [hwrap]
  exact .store t hlt _

theorem wrap32_succ {n : ℕ} (h : n < vgaWidth) : wrap32 (n + 1) = n + 1 := by
  refine Nat.mod_eq_of_lt ?_
  unfold vgaWidth at h
  omega

theorem decrement32_eq {n : ℕ} (h : 0 < n) (hn : n < 0x100000000) : decrement32 n = n - 1 := by
  unfold decrement32 wrap32
  omega

theorem terminalSwitch_after {t : Terminal} {c : UInt8} (ht : t.OnScreen)
    (hc : c = 0x7F → ¬(t.row = 0 ∧ t.column = 0)) : (terminalSwitch t c).AfterSwitch := by
  have hrow : t.row < 25 := ht.row
  have hcol : t.column < 80 := ht.column
  have hnext : wrap32 (t.row + 1) = t.row + 1 := Nat.mod_eq_of_lt (by omega)
  unfold terminalSwitch
  split_ifs with hnl herase hzero
  · exact ⟨hnext.trans_le ht.row, Nat.zero_le _, fun _ => rfl, ht.cells⟩
  · have hpos : 0 < t.row := Nat.pos_of_ne_zero fun h => hc herase ⟨h, hzero⟩
    have hprev : decrement32 t.row = t.row - 1 := decrement32_eq hpos (by omega)
    refine ⟨?_, Nat.sub_le _ _, fun h => ?_, ht.cells⟩
    · show decrement32 t.row ≤ 25
      omega
    · have hlast : decrement32 t.row = 25 := h
      omega
  · have hback : ({ t with column := t.column - 1 } : Terminal).OnScreen :=
      ⟨ht.row, show t.column - 1 < 80 by omega, ht.cells⟩
    have hput := hback.swept (terminalPutentryat_swept _ 0 t.color hback.column hback.row)
    exact ⟨Nat.le_of_lt hput.row, Nat.le_of_lt hput.column,
      fun h => absurd h (Nat.ne_of_lt hput.row), hput.cells⟩
  · have hput := terminalPutentryat_swept t c t.color ht.column ht.row
    have hright : wrap32 (t.column + 1) = t.column + 1 := wrap32_succ ht.column
    refine ⟨?_, ?_, fun h => ?_, (ht.swept hput).cells⟩
    · exact Nat.le_of_lt (ht.swept hput).row
    · exact hright.trans_le ht.column
    · exact absurd h (Nat.ne_of_lt (ht.swept hput).row)

theorem wrapRow_onScreen {t : Terminal} (hrow : t.row ≤ vgaHeight) (hcol : t.column < vgaWidth)
    (hcells : ∀ index ∈ t.touched, index < vgaWidth * vgaHeight) : t.wrapRow.OnScreen := by
  unfold Terminal.wrapRow
  split_ifs with hlast
  · have hscroll := terminalScroll_swept t
    refine ⟨?_, Nat.zero_lt_succ _, fun index hi => ?_⟩
    · show decrement32 (terminalScroll t).row < vgaHeight
      rw [hscroll.row, hlast]
      decide
    · cases hscroll.cells index hi with
      | inl hi => exact hcells index hi
      | inr hi => exact hi
  · exact ⟨Nat.lt_of_le_of_ne hrow hlast, hcol, hcells⟩

theorem Terminal.AfterSwitch.wrap {t : Terminal} (h : t.AfterSwitch) :
    t.wrapColumn.wrapRow.OnScreen := by
  unfold Terminal.wrapColumn
  split_ifs with hfull
  · have hrow : t.row < vgaHeight := by
      refine Nat.lt_of_le_of_ne h.row fun hlast => ?_
      rw [h.last hlast] at hfull
      exact absurd hfull (by decide)
    refine wrapRow_onScreen ?_ (Nat.zero_lt_succ _) h.cells
    exact (wrap32_succ (Nat.lt_trans hrow (by decide))).trans_le hrow
  · exact wrapRow_onScreen h.row (Nat.lt_of_le_of_ne h.column hfull) h.cells

/-- A character keeps the cursor on the screen unless it erases at the first cell; there the row
becomes the largest number. -/
theorem terminalPutchar_onScreen {t : Terminal} (ht : t.OnScreen) (c : UInt8) :
    (terminalPutchar t c).OnScreen ↔ (c = 0x7F → ¬(t.row = 0 ∧ t.column = 0)) := by
  constructor
  · rintro hput rfl ⟨hrow, hcol⟩
    have hfar : (terminalPutchar t 0x7F).row = 0xFFFFFFFF := by
      simp [terminalPutchar, terminalUpdateCursor, terminalSwitch, Terminal.wrapColumn,
        Terminal.wrapRow, hrow, hcol, decrement32, wrap32, vgaWidth, vgaHeight]
    have hlt := hput.row
    rw [hfar] at hlt
    exact absurd hlt (by decide)
  · intro hc
    have hon := (terminalSwitch_after ht hc).wrap
    exact ⟨hon.row, hon.column, hon.cells⟩

/-! ### Whole sessions -/

theorem TerminalEvent.run_onScreen (t : Terminal) (e : TerminalEvent) (ht : t.OnScreen) :
    (e.run t).OnScreen ↔ e.ErasesInside t := by
  cases e with
  | putchar c => exact terminalPutchar_onScreen ht c
  | clear =>
      refine iff_of_true ?_ trivial
      have hblank := ht.swept t.blank_swept
      exact ⟨Nat.zero_lt_succ _, Nat.zero_lt_succ _, hblank.cells⟩
  | setfgcolor fg => exact iff_of_true ⟨ht.row, ht.column, ht.cells⟩ trivial
  | setbgcolor bg => exact iff_of_true ⟨ht.row, ht.column, ht.cells⟩ trivial

theorem terminalInitialize_onScreen (buffer : ℕ → UInt16) : (terminalInitialize buffer).OnScreen := by
  refine Terminal.OnScreen.swept ?_ (Terminal.blank_swept _)
  exact ⟨Nat.zero_lt_succ _, Nat.zero_lt_succ _, by simp⟩

/-- **The console stays on screen**, after every character of every session, exactly if no
character erases at the first cell. -/
theorem terminal_onScreen_iff (buffer : ℕ → UInt16) (ops : List TerminalOp) :
    (∀ t ∈ terminalStates (terminalInitialize buffer) ops, t.OnScreen) ↔
      ErasesInside (terminalInitialize buffer) ops :=
  trace_iff TerminalEvent.run TerminalEvent.run_onScreen (terminalInitialize_onScreen buffer)

/-- An erase right after the start leaves the cursor in row `2 ^ 32 - 1`, and the next character is
stored far behind the screen. -/
theorem terminal_offScreen : ∃ t t', terminalStates (terminalInitialize fun _ => 0)
      [.write [0x7F, 0x61]] = [t, t'] ∧ t.row = 0xFFFFFFFF ∧ 0xFFFFFFFF ∈ t'.touched ∧
    ¬∀ t ∈ terminalStates (terminalInitialize fun _ => 0) [.write [0x7F, 0x61]], t.OnScreen := by
  have hrow : (terminalPutchar (terminalInitialize fun _ => 0) 0x7F).row = 0xFFFFFFFF := by
    decide +kernel
  have hcell : 0xFFFFFFFF ∈
      (terminalPutchar (terminalPutchar (terminalInitialize fun _ => 0) 0x7F) 0x61).touched := by
    decide +kernel
  refine ⟨_, _, rfl, hrow, hcell, fun hall => ?_⟩
  have hlt := (hall _ (List.mem_cons_self ..)).row
  rw [TerminalEvent.run, hrow] at hlt
  exact absurd hlt (by decide)

end GalaxyOS
