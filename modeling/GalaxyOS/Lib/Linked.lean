import Mathlib.Data.List.Basic

/-! # Doubly linked lists

The nodes are numbers, and `next` and `prev` are their links.  `Seg next prev p l q` says that the
nodes `l` are linked one after the other, with `p` before the first and `q` after the last.  A node is
put in or taken out by changing the links of its neighbours only.

`Seg.insert` and `Seg.erase` do this; both cut the list with `Seg.cut` and link the ends again. -/

namespace Linked

variable {next prev next' prev' : ℕ → ℕ} {p q p' q' a b : ℕ} {l l₁ l₂ : List ℕ}

/-- The nodes `l` are linked to each other, to `p` before them and to `q` behind them. -/
def Seg (next prev : ℕ → ℕ) : ℕ → List ℕ → ℕ → Prop
  | _, [], _ => True
  | p, a :: l, q => prev a = p ∧ next a = l.headD q ∧ Seg next prev a l q

theorem seg_append : ∀ {l₁ : List ℕ} {p : ℕ}, Seg next prev p (l₁ ++ l₂) q ↔
    Seg next prev p l₁ (l₂.headD q) ∧ Seg next prev (l₁.getLastD p) l₂ q
  | [], p => by simp [Seg]
  | a :: l₁, p => by
      have hhead : (l₁ ++ l₂).headD q = l₁.headD (l₂.headD q) := by
        cases l₁ with
        | nil => rfl
        | cons b l₁ => rfl
      have hrest : Seg next prev a (l₁ ++ l₂) q ↔
          Seg next prev a l₁ (l₂.headD q) ∧ Seg next prev (l₁.getLastD a) l₂ q := seg_append
      rw [List.cons_append, List.getLastD_cons]
      simp only [Seg, hrest, hhead, and_assoc]

/-- The links of a node. -/
theorem Seg.links (h : Seg next prev p (l₁ ++ a :: l₂) q) :
    prev a = l₁.getLastD p ∧ next a = l₂.headD q := by
  obtain ⟨hprev, hnext, -⟩ := (seg_append.mp h).2
  exact ⟨hprev, hnext⟩

theorem Seg.head_prev (h : Seg next prev p l q) (ha : l.head? = some a) : prev a = p := by
  obtain ⟨l', rfl⟩ := List.head?_eq_some_iff.mp ha
  exact h.1

theorem Seg.last_next (h : Seg next prev p l q) (ha : l.getLast? = some a) : next a = q := by
  obtain ⟨l', rfl⟩ := List.getLast?_eq_some_iff.mp ha
  exact (Seg.links h).2

theorem Seg.congr : ∀ {l : List ℕ} {p : ℕ}, Seg next prev p l q → (∀ a ∈ l, next' a = next a) →
    (∀ a ∈ l, prev' a = prev a) → Seg next' prev' p l q
  | [], _, _, _, _ => trivial
  | a :: _, _, ⟨hp, hn, h⟩, hnext, hprev =>
      ⟨(hprev a List.mem_cons_self).trans hp, (hnext a List.mem_cons_self).trans hn,
        h.congr (fun b hb => hnext b (List.mem_cons_of_mem a hb))
          fun b hb => hprev b (List.mem_cons_of_mem a hb)⟩

/-- Only the outer links of a segment change. -/
theorem Seg.relink : ∀ {l : List ℕ} {p p' : ℕ}, Seg next prev p l q → l.Nodup →
    (∀ a ∈ l, next' a = if l.getLast? = some a then q' else next a) →
    (∀ a ∈ l, prev' a = if l.head? = some a then p' else prev a) → Seg next' prev' p' l q'
  | [], _, _, _, _, _, _ => trivial
  | a :: l, p, p', ⟨_, hn, h⟩, hnd, hnext, hprev => by
      obtain ⟨ha, hl⟩ := List.nodup_cons.mp hnd
      refine ⟨?_, ?_, h.relink hl (fun b hb => ?_) fun b hb => ?_⟩
      · rw [hprev a List.mem_cons_self]
        simp
      · rw [hnext a List.mem_cons_self]
        cases l with
        | nil => simp
        | cons b l =>
            rw [if_neg, hn]
            · rfl
            · rw [List.getLast?_cons_cons]
              exact fun heq => ha (List.mem_of_getLast? heq)
      · rw [hnext b (List.mem_cons_of_mem a hb)]
        cases l with
        | nil => exact absurd hb List.not_mem_nil
        | cons c l => rw [List.getLast?_cons_cons]
      · have hne : a ≠ b := by
          rintro rfl
          exact ha hb
        rw [hprev b (List.mem_cons_of_mem a hb), if_neg (by simp [hne])]
        by_cases hhead : l.head? = some b
        · rw [if_pos hhead, h.head_prev hhead]
        · rw [if_neg hhead]

/-- Two segments are cut loose: the first gets a new end, the second a new start. -/
theorem Seg.cut {r r' x y : ℕ} (h₁ : Seg next prev p l₁ r) (h₂ : Seg next prev r' l₂ q)
    (hnd : (l₁ ++ l₂).Nodup)
    (hnext : ∀ a ∈ l₁ ++ l₂, next' a = if l₁.getLast? = some a then x else next a)
    (hprev : ∀ a ∈ l₁ ++ l₂, prev' a = if l₂.head? = some a then y else prev a) :
    Seg next' prev' p l₁ x ∧ Seg next' prev' y l₂ q := by
  obtain ⟨hnd₁, hnd₂, hdisj⟩ := List.nodup_append.mp hnd
  constructor
  · apply h₁.relink hnd₁ fun a ha => hnext a (List.mem_append_left l₂ ha)
    intro a ha
    rw [hprev a (List.mem_append_left l₂ ha), if_neg fun heq => hdisj a ha a (List.mem_of_head? heq) rfl]
    by_cases hhead : l₁.head? = some a
    · rw [if_pos hhead, h₁.head_prev hhead]
    · rw [if_neg hhead]
  · refine h₂.relink hnd₂ (fun a ha => ?_) fun a ha => hprev a (List.mem_append_right l₁ ha)
    rw [hnext a (List.mem_append_right l₁ ha),
      if_neg fun heq => hdisj a (List.mem_of_getLast? heq) a ha rfl]
    by_cases hlast : l₂.getLast? = some a
    · rw [if_pos hlast, h₂.last_next hlast]
    · rw [if_neg hlast]

/-- A node is put between two neighbours. -/
theorem Seg.insert (h : Seg next prev p (l₁ ++ l₂) q) (hnd : (l₁ ++ l₂).Nodup)
    (hnextb : next' b = l₂.headD q) (hprevb : prev' b = l₁.getLastD p)
    (hnext : ∀ a ∈ l₁ ++ l₂, next' a = if l₁.getLast? = some a then b else next a)
    (hprev : ∀ a ∈ l₁ ++ l₂, prev' a = if l₂.head? = some a then b else prev a) :
    Seg next' prev' p (l₁ ++ b :: l₂) q := by
  obtain ⟨h₁, h₂⟩ := seg_append.mp h
  obtain ⟨h₁', h₂'⟩ := h₁.cut h₂ hnd hnext hprev
  exact seg_append.mpr ⟨h₁', hprevb, hnextb, h₂'⟩

/-- A node is taken out, and its neighbours are linked to each other. -/
theorem Seg.erase (h : Seg next prev p (l₁ ++ b :: l₂) q) (hnd : (l₁ ++ l₂).Nodup)
    (hnext : ∀ a ∈ l₁ ++ l₂, next' a = if l₁.getLast? = some a then l₂.headD q else next a)
    (hprev : ∀ a ∈ l₁ ++ l₂, prev' a = if l₂.head? = some a then l₁.getLastD p else prev a) :
    Seg next' prev' p (l₁ ++ l₂) q := by
  obtain ⟨h₁, -, -, h₂⟩ := seg_append.mp h
  exact seg_append.mpr (h₁.cut h₂ hnd hnext hprev)

end Linked
