import Mathlib.Data.List.Basic
import Mathlib.Data.List.Infix

/-! # Filling a container in order

Elements that have weights are put into a container, one after the other, until one does not fit into what
is left of its capacity.  `fitting_isLongest` says that they are the longest part at the front of the list
that fits as a whole. -/

namespace Fitting

variable {α : Type} {w : α → ℕ} {cap : ℕ}

/-- The weight of a list. -/
def weight (w : α → ℕ) : List α → ℕ
  | [] => 0
  | x :: xs => w x + weight w xs

/-- The elements that are put into a container with the capacity `cap`. -/
def fitting (w : α → ℕ) (cap : ℕ) : List α → List α
  | [] => []
  | x :: xs => if w x ≤ cap then x :: fitting w (cap - w x) xs else []

/-- The list `front` is the longest one at the front of `xs` that has a property. -/
structure IsLongestFront (P : List α → Prop) (xs front : List α) : Prop where
  atFront : front <+: xs
  holds : P front
  longest : ∀ other, other <+: xs → P other → other <+: front

theorem fitting_cons_of_le {x : α} {xs : List α} (h : w x ≤ cap) :
    fitting w cap (x :: xs) = x :: fitting w (cap - w x) xs := if_pos h

theorem fitting_cons_of_lt {x : α} {xs : List α} (h : cap < w x) : fitting w cap (x :: xs) = [] :=
  if_neg (Nat.not_le.mpr h)

/-- Everything fits. -/
theorem fitting_eq_self : ∀ {xs : List α} {cap : ℕ}, weight w xs ≤ cap → fitting w cap xs = xs
  | [], _, _ => rfl
  | x :: xs, cap, h => by
      unfold weight at h
      rw [fitting_cons_of_le (by omega), fitting_eq_self (by omega)]

theorem fitting_front : ∀ (xs : List α) (cap : ℕ), fitting w cap xs <+: xs
  | [], _ => List.prefix_refl []
  | x :: xs, cap => by
      unfold fitting
      split_ifs with h
      · apply (List.prefix_cons_inj x).mpr
        exact fitting_front xs (cap - w x)
      · exact List.nil_prefix

theorem weight_fitting_le : ∀ (xs : List α) (cap : ℕ), weight w (fitting w cap xs) ≤ cap
  | [], cap => Nat.zero_le cap
  | x :: xs, cap => by
      unfold fitting
      split_ifs with h
      · have hrest := weight_fitting_le xs (cap - w x)
        unfold weight
        omega
      · exact Nat.zero_le cap

theorem front_fitting : ∀ {xs other : List α} {cap : ℕ}, other <+: xs → weight w other ≤ cap →
    other <+: fitting w cap xs
  | _, [], _, _, _ => List.nil_prefix
  | xs, y :: other, cap, hfront, hle => by
      unfold weight at hle
      cases xs with
      | nil => exact absurd (List.prefix_nil.mp hfront) (List.cons_ne_nil y other)
      | cons x xs =>
          obtain ⟨rfl, hrest⟩ := List.cons_prefix_cons.mp hfront
          rw [fitting_cons_of_le (by omega)]
          apply (List.prefix_cons_inj y).mpr
          exact front_fitting hrest (by omega)

/-- The scan takes as much from the front of the list as fits. -/
theorem fitting_isLongest (w : α → ℕ) (cap : ℕ) (xs : List α) :
    IsLongestFront (fun front => weight w front ≤ cap) xs (fitting w cap xs) :=
  ⟨fitting_front xs cap, weight_fitting_le xs cap, fun _ => front_fitting⟩

/-- A container that is made for the whole list, or has the given capacity, holds the same elements. -/
theorem fitting_size (w : α → ℕ) (cap : ℕ) (xs : List α) {size : ℕ}
    (hsize : weight w xs ≤ cap ∧ weight w xs ≤ size ∨ size = cap) :
    fitting w size xs = fitting w cap xs := by
  cases hsize with
  | inl hwhole => rw [fitting_eq_self hwhole.1, fitting_eq_self hwhole.2]
  | inr hcap => rw [hcap]

end Fitting
