import Mathlib.Data.List.Basic

/-! # Chunks of one length

A list that is made of chunks of the same length `n`, one for each entry of another list.  Dropping
and taking a multiple of `n` drops and takes chunks, so a window of the long list can be cut out of
the chunks that cover it.

`flatMap_window` is this fact, from `flatMap_getElem?` for one entry. -/

namespace Chunks

variable {α β : Type} {g : α → List β} {n : ℕ}

theorem flatMap_length (h : ∀ a, (g a).length = n) (l : List α) :
    (l.flatMap g).length = l.length * n := by
  induction l with
  | nil => rw [List.flatMap_nil, List.length_nil, List.length_nil, Nat.zero_mul]
  | cons a l ih => rw [List.flatMap_cons, List.length_append, h, ih, List.length_cons, Nat.succ_mul,
      Nat.add_comm]

theorem flatMap_drop (h : ∀ a, (g a).length = n) (l : List α) (i : ℕ) :
    (l.flatMap g).drop (i * n) = (l.drop i).flatMap g := by
  induction l generalizing i with
  | nil => rw [List.flatMap_nil, List.drop_nil, List.drop_nil, List.flatMap_nil]
  | cons a l ih =>
    cases i with
    | zero => rw [Nat.zero_mul, List.drop_zero, List.drop_zero]
    | succ i =>
        rw [List.flatMap_cons, List.drop_succ_cons, ← ih, Nat.succ_mul, Nat.add_comm,
          ← List.drop_drop]
        congr 1
        rw [← h a, List.drop_left]

theorem flatMap_take (h : ∀ a, (g a).length = n) (l : List α) (i : ℕ) :
    (l.flatMap g).take (i * n) = (l.take i).flatMap g := by
  induction l generalizing i with
  | nil => rw [List.flatMap_nil, List.take_nil, List.take_nil, List.flatMap_nil]
  | cons a l ih =>
    cases i with
    | zero => rw [Nat.zero_mul, List.take_zero, List.take_zero, List.flatMap_nil]
    | succ i =>
        rw [List.flatMap_cons, List.take_succ_cons, List.flatMap_cons, ← ih, Nat.succ_mul,
          Nat.add_comm, List.take_append, h a, List.take_of_length_le (by rw [h a]; omega),
          Nat.add_sub_cancel_left]

/-- An entry of a chunk is found at its place in the long list. -/
theorem flatMap_getElem? (h : ∀ a, (g a).length = n) (l : List α) (i : ℕ) {r : ℕ} (hr : r < n) :
    (l.flatMap g)[i * n + r]? = (l[i]?).bind fun a => (g a)[r]? := by
  have hdrop : (l.flatMap g)[i * n + r]? = ((l.flatMap g).drop (i * n))[r]? := by
    rw [List.getElem?_drop]
  rw [hdrop, flatMap_drop h]
  cases hi : l[i]? with
  | none =>
      rw [List.drop_eq_nil_of_le (List.getElem?_eq_none_iff.mp hi)]
      rfl
  | some a =>
      obtain ⟨hlt, rfl⟩ := List.getElem?_eq_some_iff.mp hi
      rw [List.drop_eq_getElem_cons hlt, List.flatMap_cons, List.getElem?_append_left (by rw [h]; omega)]
      rfl

/-- A window of `m` entries from `r` on in `k` chunks from the chunk `i` on. -/
theorem flatMap_window (h : ∀ a, (g a).length = n) (l : List α) {i k r m : ℕ} (hm : r + m ≤ k * n) :
    ((((l.drop i).take k).flatMap g).drop r).take m = ((l.flatMap g).drop (i * n + r)).take m := by
  rw [← flatMap_take h, ← flatMap_drop h, ← List.drop_drop, List.drop_take, List.take_take,
    Nat.min_eq_left (by omega)]

end Chunks
