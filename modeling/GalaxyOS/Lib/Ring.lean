import Mathlib.Algebra.Ring.Nat
import Mathlib.Data.Fin.Basic
import Mathlib.Logic.Function.Basic

/-! # Ring buffers

A buffer of `N` cells, with the index from which is read and the one to which is written.  The cells
from the first up to the second, around the end of the buffer, are its contents; it is empty if the two
are the same, so it holds at most `N - 1` elements.

`contents_push` and `contents_pop` are the rules of a queue, and `contents_overflow` says what happens
to the element for which there is no cell. -/

namespace Ring

variable {α : Type} {N : ℕ} {start stop : Fin N}

/-- The number of cells from `start` up to `stop`. -/
def count (start stop : Fin N) : ℕ := (stop - start).val

theorem count_eq (start stop : Fin N) :
    count start stop = if start.val ≤ stop.val then stop.val - start.val
      else N + stop.val - start.val := by
  have hstart := start.isLt
  have hstop := stop.isLt
  unfold count
  rw [Fin.val_sub]
  split_ifs with hle
  · rw [show N - start.val + stop.val = N + (stop.val - start.val) by omega, Nat.add_mod_left]
    exact Nat.mod_eq_of_lt (by omega)
  · rw [Nat.mod_eq_of_lt (by omega)]
    omega

theorem count_lt (start stop : Fin N) : count start stop < N := (stop - start).isLt

theorem count_eq_zero : count start stop = 0 ↔ start = stop := by
  have hstart := start.isLt
  have hstop := stop.isLt
  rw [count_eq, Fin.ext_iff]
  split_ifs <;> omega

variable [NeZero N]

/-- The `n` cells from `i` on. -/
def cells (buf : Fin N → α) : Fin N → ℕ → List α
  | _, 0 => []
  | i, n + 1 => buf i :: cells buf (i + 1) n

/-- The contents. -/
def contents (buf : Fin N → α) (start stop : Fin N) : List α := cells buf start (count start stop)

/-! ### Indices -/

theorem val_next (i : Fin N) : (i + 1).val = if i.val + 1 < N then i.val + 1 else 0 := by
  have hi := i.isLt
  have hone : (1 : Fin N).val = 1 % N := Fin.val_one' N
  rw [Fin.val_add, hone, Nat.add_mod_mod]
  split_ifs with hlt
  · exact Nat.mod_eq_of_lt hlt
  · rw [show i.val + 1 = N by omega, Nat.mod_self]

theorem count_succ (h : start ≠ stop) : count start stop = count (start + 1) stop + 1 := by
  have hne := Fin.val_ne_of_ne h
  have hstart := start.isLt
  have hstop := stop.isLt
  rw [count_eq, count_eq, val_next]
  split_ifs <;> omega

theorem count_push (h : count start stop + 1 < N) :
    count start (stop + 1) = count start stop + 1 := by
  have hstart := start.isLt
  have hstop := stop.isLt
  rw [count_eq] at h ⊢
  rw [count_eq, val_next]
  split_ifs at h ⊢ <;> omega

/-- One element too many, and the buffer looks empty. -/
theorem count_full (h : count start stop + 1 = N) : count start (stop + 1) = 0 := by
  have hstart := start.isLt
  have hstop := stop.isLt
  rw [count_eq] at h ⊢
  rw [val_next]
  split_ifs at h ⊢ <;> omega

/-- There is room for another element unless the indices would meet. -/
theorem count_room (h : stop + 1 ≠ start) : count start stop + 1 < N := by
  have hlt := count_lt start stop
  have hne : count start stop + 1 ≠ N := fun hfull => h (count_eq_zero.mp (count_full hfull)).symm
  omega

/-! ### Contents -/

section Contents

variable {buf : Fin N → α}

theorem cells_length (buf : Fin N → α) (n : ℕ) : ∀ i, (cells buf i n).length = n := by
  induction n with
  | zero => exact fun _ => rfl
  | succ n ih => exact fun i => congrArg (· + 1) (ih (i + 1))

theorem contents_length (buf : Fin N → α) (start stop : Fin N) :
    (contents buf start stop).length = count start stop :=
  cells_length buf _ start

theorem contents_empty (buf : Fin N → α) (start : Fin N) : contents buf start start = [] := by
  unfold contents
  rw [count_eq_zero.mpr rfl]
  rfl

theorem contents_eq_nil : contents buf start stop = [] ↔ start = stop := by
  rw [← List.length_eq_zero_iff, contents_length, count_eq_zero]

/-- Taking from the buffer changes its contents, also when there is nothing to take. -/
theorem contents_next_ne (hN : 1 < N) : contents buf (start + 1) stop ≠ contents buf start stop := by
  intro heq
  have hlength := congrArg List.length heq
  rw [contents_length, contents_length] at hlength
  by_cases hempty : start = stop
  · rw [count_eq_zero.mpr hempty, count_eq_zero, ← hempty, Fin.ext_iff, val_next] at hlength
    have hstart := start.isLt
    split_ifs at hlength <;> omega
  · rw [count_succ hempty] at hlength
    omega

theorem contents_pop (h : start ≠ stop) :
    contents buf start stop = buf start :: contents buf (start + 1) stop := by
  unfold contents
  rw [count_succ h]
  rfl

theorem cells_update (c : α) (n : ℕ) : ∀ start : Fin N, count start stop = n →
    cells (Function.update buf stop c) start (n + 1) = cells buf start n ++ [c] := by
  induction n with
  | zero =>
      intro start hn
      obtain rfl := count_eq_zero.mp hn
      show [Function.update buf start c start] = [c]
      rw [Function.update_self]
  | succ n ih =>
      intro start hn
      have hne : start ≠ stop := fun heq => by
        rw [count_eq_zero.mpr heq] at hn
        cases hn
      have hrest := count_succ hne
      show Function.update buf stop c start :: cells (Function.update buf stop c) (start + 1) (n + 1) =
        buf start :: (cells buf (start + 1) n ++ [c])
      rw [ih (start + 1) (by omega), Function.update_of_ne hne]

/-- As long as one cell stays free, a new element comes last. -/
theorem contents_push (c : α) (h : count start stop + 1 < N) :
    contents (Function.update buf stop c) start (stop + 1) = contents buf start stop ++ [c] := by
  unfold contents
  rw [count_push h]
  exact cells_update c _ start rfl

/-- An element for which no cell stays free makes the buffer empty. -/
theorem contents_overflow (c : α) (h : count start stop + 1 = N) :
    contents (Function.update buf stop c) start (stop + 1) = [] := by
  unfold contents
  rw [count_full h]
  rfl

end Contents

end Ring
