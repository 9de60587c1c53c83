import Mathlib.Data.Finset.Card
import Mathlib.Data.List.Basic
import Mathlib.Logic.Function.Basic
import Mathlib.Order.Interval.Finset.Nat

/-! # Stretches of a partial map

A partial map on numbers in which a list is entered at consecutive places, or consecutive places are
made empty.  Both can be done one place after the other, or a part of the stretch after another.

`remove_insert` undoes an entry, and `filled_add` counts the places. -/

namespace Stretch

variable {α : Type}

/-- The elements of `l` are entered from `start` on. -/
def insert (t : ℕ → Option α) (start : ℕ) (l : List α) (i : ℕ) : Option α :=
  if start ≤ i ∧ i < start + l.length then l[i - start]? else t i

/-- The `n` places from `start` on are made empty. -/
def remove (t : ℕ → Option α) (start n i : ℕ) : Option α :=
  if start ≤ i ∧ i < start + n then none else t i

/-- How many of the places of `[lo, hi)` are not empty. -/
def filled (t : ℕ → Option α) (lo hi : ℕ) : ℕ := ((Finset.Ico lo hi).filter fun i => (t i).isSome).card

variable {t t' : ℕ → Option α} {start n i lo hi : ℕ} {l : List α}

theorem insert_of_not_mem (h : ¬(start ≤ i ∧ i < start + l.length)) : insert t start l i = t i :=
  if_neg h

theorem insert_nil (t : ℕ → Option α) (start : ℕ) : insert t start [] = t := by
  funext i
  refine insert_of_not_mem ?_
  rw [List.length_nil]
  omega

theorem insert_cons (t : ℕ → Option α) (start : ℕ) (a : α) (l : List α) :
    insert t start (a :: l) = insert (Function.update t start (some a)) (start + 1) l := by
  funext i
  unfold insert
  rw [List.length_cons]
  by_cases hfirst : i = start
  · subst hfirst
    rw [if_pos (by omega), if_neg (by omega), Function.update_self, Nat.sub_self]
    rfl
  · rw [Function.update_of_ne hfirst]
    by_cases hrest : start + 1 ≤ i ∧ i < start + 1 + l.length
    · rw [if_pos (by omega), if_pos hrest, show i - start = (i - (start + 1)) + 1 by omega,
        List.getElem?_cons_succ]
    · rw [if_neg (by omega), if_neg hrest]

theorem insert_append (l' : List α) : ∀ (t : ℕ → Option α) (start : ℕ), insert t start (l ++ l') =
    insert (insert t start l) (start + l.length) l' := by
  induction l with
  | nil =>
      intro t start
      rw [List.nil_append, insert_nil]
      rfl
  | cons a l ih =>
      intro t start
      rw [List.cons_append, insert_cons, ih, insert_cons, List.length_cons,
        show start + 1 + l.length = start + (l.length + 1) by omega]

theorem remove_zero (t : ℕ → Option α) (start : ℕ) : remove t start 0 = t := by
  funext i
  exact if_neg (by omega)

theorem remove_succ (t : ℕ → Option α) (start n : ℕ) :
    remove t start (n + 1) = remove (Function.update t start none) (start + 1) n := by
  funext i
  unfold remove
  by_cases hfirst : i = start
  · subst hfirst
    rw [if_pos (by omega), if_neg (by omega), Function.update_self]
  · rw [Function.update_of_ne hfirst]
    by_cases hrest : start + 1 ≤ i ∧ i < start + 1 + n
    · rw [if_pos (by omega), if_pos hrest]
    · rw [if_neg (by omega), if_neg hrest]

/-- What has been entered at empty places can be taken out again. -/
theorem remove_insert (h : ∀ i < l.length, t (start + i) = none) :
    remove (insert t start l) start l.length = t := by
  funext i
  unfold remove
  split_ifs with hi
  · have hnone := h (i - start) (by omega)
    rw [show start + (i - start) = i by omega] at hnone
    exact hnone.symm
  · exact insert_of_not_mem hi

/-- Filling a stretch of empty places. -/
theorem filled_add (hlo : lo ≤ start) (hhi : start + n ≤ hi)
    (hnone : ∀ i, start ≤ i → i < start + n → t i = none)
    (hsome : ∀ i, start ≤ i → i < start + n → t' i ≠ none)
    (hsame : ∀ i, ¬(start ≤ i ∧ i < start + n) → t' i = t i) : filled t' lo hi = filled t lo hi + n := by
  have hunion : (Finset.Ico lo hi).filter (fun i => (t' i).isSome) =
      (Finset.Ico lo hi).filter (fun i => (t i).isSome) ∪ Finset.Ico start (start + n) := by
    ext i
    rw [Finset.mem_union, Finset.mem_filter, Finset.mem_filter, Finset.mem_Ico, Finset.mem_Ico]
    by_cases hin : start ≤ i ∧ i < start + n
    · have hfull := Option.isSome_iff_ne_none.mpr (hsome i hin.1 hin.2)
      exact iff_of_true ⟨⟨by omega, by omega⟩, hfull⟩ (.inr hin)
    · rw [hsame i hin]
      exact ⟨.inl, fun h => h.resolve_right hin⟩
  unfold filled
  rw [hunion, Finset.card_union_of_disjoint, Nat.card_Ico, Nat.add_sub_cancel_left]
  rw [Finset.disjoint_left]
  intro i hi hin
  rw [Finset.mem_filter] at hi
  rw [Finset.mem_Ico] at hin
  rw [hnone i hin.1 hin.2] at hi
  exact absurd hi.2 Bool.false_ne_true

end Stretch
