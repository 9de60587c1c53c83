import Mathlib.Data.Set.Function
import Mathlib.Data.Int.Order.Basic

/-! # Array segments without repetition

An array is a function on the integers, and the part that is in use is `[lo, hi)`.
`Enumerates f lo hi P` says that this part lists the elements of the set `P`, each exactly once.
An element is appended at `hi`, and the element at an index is removed by moving all later
elements down by one.

`Enumerates.push` and `Enumerates.eraseAt` are the rules for these two steps. -/

namespace Segment

variable {α : Type} {f : ℤ → α} {lo hi l : ℤ} {P : Set α} {a : α}

/-- The indices of the part in use. -/
def indices (lo hi : ℤ) : Set ℤ := {i | lo ≤ i ∧ i < hi}

/-- The entries of `f` in `[lo, hi)` are the elements of `P`, each once. -/
def Enumerates (f : ℤ → α) (lo hi : ℤ) (P : Set α) : Prop := Set.BijOn f (indices lo hi) P

theorem enumerates_empty (f : ℤ → α) (lo : ℤ) : Enumerates f lo lo ∅ := by
  have hno : indices lo lo = ∅ := Set.eq_empty_of_forall_notMem fun i hi => by
    obtain ⟨h1, h2⟩ := hi
    omega
  unfold Enumerates
  rw [hno]
  exact Set.bijOn_empty f

theorem Enumerates.congr {P' : Set α} (h : Enumerates f lo hi P) (hP : ∀ b, b ∈ P' ↔ b ∈ P) :
    Enumerates f lo hi P' := (Set.ext hP : P' = P) ▸ h

theorem Enumerates.mem (h : Enumerates f lo hi P) (h1 : lo ≤ l) (h2 : l < hi) : f l ∈ P :=
  h.mapsTo ⟨h1, h2⟩

theorem Enumerates.eq (h : Enumerates f lo hi P) {i j : ℤ} (h1 : i ∈ indices lo hi)
    (h2 : j ∈ indices lo hi) (heq : f i = f j) : i = j := h.injOn h1 h2 heq

theorem Enumerates.existsUnique (h : Enumerates f lo hi P) (ha : a ∈ P) :
    ∃! i, lo ≤ i ∧ i < hi ∧ f i = a := by
  obtain ⟨i, h1, hfi⟩ := h.surjOn ha
  refine ⟨i, ⟨h1.1, h1.2, hfi⟩, ?_⟩
  rintro j ⟨h2, h3, hfj⟩
  exact h.eq ⟨h2, h3⟩ h1 (hfj.trans hfi.symm)

/-- Appending an element that is not in the segment. -/
theorem Enumerates.push (h : Enumerates f lo hi P) (hle : lo ≤ hi) (ha : a ∉ P) :
    Enumerates (Function.update f hi a) lo (hi + 1) (insert a P) := by
  have hold : ∀ i, i < hi → Function.update f hi a i = f i := fun i hlt =>
    Function.update_of_ne (by omega) a f
  refine ⟨?_, ?_, ?_⟩
  · rintro i ⟨h1, h2⟩
    by_cases hi' : i = hi
    · rw [hi', Function.update_self]
      exact Set.mem_insert a P
    · rw [hold i (by omega)]
      exact Set.mem_insert_of_mem a (h.mem h1 (by omega))
  · rintro i ⟨h1, h2⟩ j ⟨h3, h4⟩ heq
    by_cases hi' : i = hi <;> by_cases hj' : j = hi
    · rw [hi', hj']
    · rw [hi', Function.update_self, hold j (by omega)] at heq
      exact absurd (heq ▸ h.mem h3 (by omega)) ha
    · rw [hj', Function.update_self, hold i (by omega)] at heq
      exact absurd (heq ▸ h.mem h1 (by omega)) ha
    · rw [hold i (by omega), hold j (by omega)] at heq
      exact h.eq ⟨h1, by omega⟩ ⟨h3, by omega⟩ heq
  · intro b hb
    rcases Set.mem_insert_iff.mp hb with rfl | hb
    · exact ⟨hi, ⟨hle, by omega⟩, Function.update_self hi b f⟩
    · obtain ⟨i, ⟨h1, h2⟩, rfl⟩ := h.surjOn hb
      exact ⟨i, ⟨h1, by omega⟩, hold i h2⟩

/-- The first part of the segment. -/
theorem Enumerates.shorten {hi' : ℤ} (h : Enumerates f lo hi P) (hle : hi' ≤ hi) :
    ∃ Q ⊆ P, Enumerates f lo hi' Q := by
  have hsub : indices lo hi' ⊆ indices lo hi := fun i hi => ⟨hi.1, Int.lt_of_lt_of_le hi.2 hle⟩
  refine ⟨f '' indices lo hi', ?_, (h.injOn.mono hsub).bijOn_image⟩
  rintro a ⟨i, hi, rfl⟩
  exact h.mapsTo (hsub hi)

/-- The array with the element at `l` removed, the later ones moved down. -/
def eraseAt (f : ℤ → α) (l hi : ℤ) : ℤ → α :=
  fun i => if l ≤ i ∧ i < hi - 1 then f (i + 1) else f i

theorem eraseAt_eq (f : ℤ → α) {l hi i : ℤ} (h : i < hi - 1) :
    eraseAt f l hi i = f (if l ≤ i then i + 1 else i) := by
  unfold eraseAt
  by_cases hl : l ≤ i
  · rw [if_pos ⟨hl, h⟩, if_pos hl]
  · rw [if_neg (fun hc => hl hc.1), if_neg hl]

/-- Where the entry at `i` was before the entry at `l` was removed. -/
theorem skip_mem {i : ℤ} (h1 : lo ≤ i) (h2 : i < hi - 1) :
    (if l ≤ i then i + 1 else i) ∈ indices lo hi := by
  split_ifs
  · exact ⟨by omega, by omega⟩
  · exact ⟨h1, by omega⟩

/-- Removing the element at an index of the segment. -/
theorem Enumerates.eraseAt (h : Enumerates f lo hi P) (h1 : lo ≤ l) (h2 : l < hi) :
    Enumerates (eraseAt f l hi) lo (hi - 1) (P \ {f l}) := by
  refine ⟨?_, ?_, ?_⟩
  · rintro i ⟨h3, h4⟩
    rw [eraseAt_eq f h4]
    refine ⟨h.mapsTo (skip_mem h3 h4), fun heq => ?_⟩
    have := h.eq (skip_mem h3 h4) ⟨h1, h2⟩ heq
    split_ifs at this <;> omega
  · rintro i ⟨h3, h4⟩ j ⟨h5, h6⟩ heq
    rw [eraseAt_eq f h4, eraseAt_eq f h6] at heq
    have := h.eq (skip_mem h3 h4) (skip_mem h5 h6) heq
    split_ifs at this <;> omega
  · rintro b ⟨hb, hne⟩
    obtain ⟨i, ⟨h3, h4⟩, rfl⟩ := h.surjOn hb
    have hil : i ≠ l := fun hc => hne (by rw [hc]; rfl)
    by_cases hlt : i < l
    · refine ⟨i, ⟨h3, by omega⟩, ?_⟩
      rw [eraseAt_eq f (by omega), if_neg (by omega)]
    · refine ⟨i - 1, ⟨by omega, by omega⟩, ?_⟩
      rw [eraseAt_eq f (by omega), if_pos (by omega), Int.sub_add_cancel]

end Segment
