import Mathlib.Algebra.BigOperators.Group.Finset.Basic
import Mathlib.Algebra.BigOperators.Group.Finset.Piecewise

/-! # Counting labels in a table

A table gives each index of `[0, n)` a label, and `count f n k` is the number of indices with the
label `k`.  The lemmas say how it changes when one label changes and when the table grows.
`total g n` is the sum of a table of numbers.

`count_update` and `count_succ` are the rules for a table that changes in one place and one that grows,
`total_update` and `total_extend` those for the sum. -/

namespace Count

variable {κ : Type} [DecidableEq κ] {f g : ℤ → κ} {n i : ℤ} {k : κ}

/-- The number of indices in `[0, n)` with the label `k`. -/
def count (f : ℤ → κ) (n : ℤ) (k : κ) : ℕ :=
  ((Finset.range n.toNat).filter fun i : ℕ => f i = k).card

theorem count_eq_sum (f : ℤ → κ) (n : ℤ) (k : κ) :
    count f n k = ∑ j ∈ Finset.range n.toNat, if f j = k then 1 else 0 := Finset.card_filter _ _

theorem count_update (hi : 0 ≤ i ∧ i < n) (k' : κ) :
    count (Function.update f i k') n k + (if f i = k then 1 else 0) =
      count f n k + if k' = k then 1 else 0 := by
  obtain ⟨m, rfl⟩ := Int.eq_ofNat_of_zero_le hi.1
  have hmem : m ∈ Finset.range n.toNat := Finset.mem_range.mpr (by omega)
  rw [count_eq_sum, count_eq_sum, ← Finset.add_sum_erase _ _ hmem,
    ← Finset.add_sum_erase (Finset.range n.toNat) (fun j : ℕ => if f j = k then 1 else 0) hmem,
    Function.update_self]
  have hrest : ∑ j ∈ (Finset.range n.toNat).erase m,
        (if Function.update f m k' (j : ℤ) = k then 1 else 0) =
      ∑ j ∈ (Finset.range n.toNat).erase m, if f j = k then 1 else 0 := by
    refine Finset.sum_congr rfl fun j hj => ?_
    have hne : (j : ℤ) ≠ m := by exact_mod_cast Finset.ne_of_mem_erase hj
    rw [Function.update_of_ne hne]
  rw [hrest]
  omega

theorem count_succ (hn : 0 ≤ n) :
    count f (n + 1) k = count f n k + if f n = k then 1 else 0 := by
  obtain ⟨m, rfl⟩ := Int.eq_ofNat_of_zero_le hn
  have hsucc : ((m : ℤ) + 1).toNat = m + 1 := by omega
  rw [count_eq_sum, count_eq_sum, hsucc, Int.toNat_natCast, Finset.sum_range_succ]

theorem count_congr (h : ∀ j, 0 ≤ j → j < n → (f j = k ↔ g j = k)) : count f n k = count g n k := by
  unfold count
  congr 1
  refine Finset.filter_congr fun j hj => ?_
  have hlt := Finset.mem_range.mp hj
  exact h j (by omega) (by omega)

theorem count_pos : 0 < count f n k ↔ ∃ j, (0 ≤ j ∧ j < n) ∧ f j = k := by
  unfold count
  rw [Finset.card_pos]
  constructor
  · rintro ⟨j, hj⟩
    obtain ⟨hmem, hk⟩ := Finset.mem_filter.mp hj
    have hlt := Finset.mem_range.mp hmem
    exact ⟨j, by omega, hk⟩
  · rintro ⟨j, hj, hk⟩
    obtain ⟨m, rfl⟩ := Int.eq_ofNat_of_zero_le hj.1
    exact ⟨m, Finset.mem_filter.mpr ⟨Finset.mem_range.mpr (by omega), hk⟩⟩

theorem count_eq_zero (h : ∀ j, 0 ≤ j → j < n → f j ≠ k) : count f n k = 0 := by
  by_contra hne
  obtain ⟨j, ⟨h0, hlt⟩, hk⟩ := count_pos.mp (Nat.pos_of_ne_zero hne)
  exact h j h0 hlt hk

/-! ### Totals -/

section Total

variable {a b : ℤ → ℕ} {m : ℤ}

/-- The sum of the entries with indices in `[0, n)`. -/
def total (a : ℤ → ℕ) (n : ℤ) : ℕ := ∑ j ∈ Finset.range n.toNat, a j

theorem total_congr (h : ∀ j, 0 ≤ j → j < n → a j = b j) : total a n = total b n := by
  refine Finset.sum_congr rfl fun j hj => ?_
  have hlt := Finset.mem_range.mp hj
  apply h
  · omega
  · omega

theorem total_eq_zero (h : ∀ j, 0 ≤ j → j < n → a j = 0) : total a n = 0 := by
  refine Finset.sum_eq_zero fun j hj => ?_
  have hlt := Finset.mem_range.mp hj
  apply h
  · omega
  · omega

/-- One entry changes. -/
theorem total_update (hi : 0 ≤ i ∧ i < n) (h : ∀ j, j ≠ i → b j = a j) :
    total b n + a i = total a n + b i := by
  obtain ⟨m, rfl⟩ := Int.eq_ofNat_of_zero_le hi.1
  have hmem : m ∈ Finset.range n.toNat := Finset.mem_range.mpr (by omega)
  unfold total
  rw [← Finset.add_sum_erase _ (fun j : ℕ => b j) hmem,
    ← Finset.add_sum_erase _ (fun j : ℕ => a j) hmem]
  have hrest : ∑ j ∈ (Finset.range n.toNat).erase m, b j =
      ∑ j ∈ (Finset.range n.toNat).erase m, a j := by
    refine Finset.sum_congr rfl fun j hj => ?_
    apply h
    exact_mod_cast Finset.ne_of_mem_erase hj
  rw [hrest]
  omega

/-- Entries that are zero do not count. -/
theorem total_extend (hm : n ≤ m) (h : ∀ j, n ≤ j → j < m → a j = 0) : total a m = total a n := by
  symm
  refine Finset.sum_subset (Finset.range_mono (Int.toNat_le_toNat hm)) fun j hj hn => ?_
  have hlt := Finset.mem_range.mp hj
  have hge : ¬j < n.toNat := fun h => hn (Finset.mem_range.mpr h)
  apply h
  · omega
  · omega

end Total

end Count
