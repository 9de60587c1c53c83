import Mathlib.Data.List.Pairwise
import Mathlib.Order.Interval.Finset.Nat

/-! # Pieces of memory

A piece is an address with a size.  `Disjoint lo hi ps` says that the pieces lie between two addresses and
do not overlap; pieces are added at either end.  Together they are not larger than the space between the
two addresses.

`Disjoint.below` and `Disjoint.above` add a piece, and `Disjoint.total_le` is the bound. -/

namespace Layout

variable {lo lo' hi hi' a n : ℕ} {ps : List (ℕ × ℕ)}

/-- The piece lies between two addresses. -/
def Inside (lo hi : ℕ) (p : ℕ × ℕ) : Prop := lo ≤ p.1 ∧ p.1 + p.2 ≤ hi

/-- One of the pieces ends before the other one starts. -/
def Apart (p q : ℕ × ℕ) : Prop := p.1 + p.2 ≤ q.1 ∨ q.1 + q.2 ≤ p.1

/-- The pieces lie between two addresses, and no two of them overlap. -/
structure Disjoint (lo hi : ℕ) (ps : List (ℕ × ℕ)) : Prop where
  inside : ∀ p ∈ ps, Inside lo hi p
  apart : ps.Pairwise Apart

theorem Disjoint.nil (lo hi : ℕ) : Disjoint lo hi [] := ⟨fun _ h => absurd h List.not_mem_nil, .nil⟩

theorem Disjoint.mono (h : Disjoint lo hi ps) (hlo : lo' ≤ lo) (hhi : hi ≤ hi') : Disjoint lo' hi' ps :=
  ⟨fun p hp => ⟨Nat.le_trans hlo (h.inside p hp).1, Nat.le_trans (h.inside p hp).2 hhi⟩, h.apart⟩

/-- A piece below the others. -/
theorem Disjoint.below (h : Disjoint lo hi ps) (ha : a + n ≤ lo) (hle : lo ≤ hi) :
    Disjoint a hi ((a, n) :: ps) := by
  constructor
  · intro p hp
    cases List.mem_cons.mp hp with
    | inl hfirst => exact hfirst ▸ ⟨Nat.le_refl a, Nat.le_trans ha hle⟩
    | inr hrest =>
        obtain ⟨hlow, hhigh⟩ := h.inside p hrest
        exact ⟨by omega, hhigh⟩
  · apply List.Pairwise.cons _ h.apart
    exact fun p hp => .inl (Nat.le_trans ha (h.inside p hp).1)

/-- A piece above the others. -/
theorem Disjoint.above (h : Disjoint lo hi ps) (hle : lo ≤ hi) (ha : hi ≤ a) :
    Disjoint lo (a + n) ((a, n) :: ps) := by
  constructor
  · intro p hp
    cases List.mem_cons.mp hp with
    | inl hfirst => exact hfirst ▸ ⟨Nat.le_trans hle ha, Nat.le_refl _⟩
    | inr hrest =>
        obtain ⟨hlow, hhigh⟩ := h.inside p hrest
        exact ⟨hlow, by omega⟩
  · apply List.Pairwise.cons _ h.apart
    exact fun p hp => .inr (Nat.le_trans (h.inside p hp).2 ha)

/-- The size of all the pieces. -/
def total : List (ℕ × ℕ) → ℕ
  | [] => 0
  | p :: ps => p.2 + total ps

/-- There are as many bytes in pieces that do not overlap as their sizes say. -/
theorem exists_bytes : ∀ {ps : List (ℕ × ℕ)}, ps.Pairwise Apart →
    ∃ S : Finset ℕ, S.card = total ps ∧ ∀ x, x ∈ S ↔ ∃ p ∈ ps, p.1 ≤ x ∧ x < p.1 + p.2
  | [], _ => ⟨∅, rfl, fun x => by simp⟩
  | p :: ps, h => by
      obtain ⟨hp, hps⟩ := List.pairwise_cons.mp h
      obtain ⟨S, hcard, hS⟩ := exists_bytes hps
      refine ⟨Finset.Ico p.1 (p.1 + p.2) ∪ S, ?_, fun x => ?_⟩
      · rw [Finset.card_union_of_disjoint, hcard, Nat.card_Ico, Nat.add_sub_cancel_left]
        · rfl
        · apply Finset.disjoint_left.mpr
          intro x hx hxS
          obtain ⟨q, hq, hlo, hhi⟩ := (hS x).mp hxS
          rw [Finset.mem_Ico] at hx
          have hapart := hp q hq
          unfold Apart at hapart
          omega
      · rw [Finset.mem_union, Finset.mem_Ico, hS, List.exists_mem_cons_iff]

/-- Pieces that do not overlap take no more room than there is. -/
theorem Disjoint.total_le (h : Disjoint lo hi ps) : total ps ≤ hi - lo := by
  obtain ⟨S, hcard, hS⟩ := exists_bytes h.apart
  rw [← hcard, ← Nat.card_Ico]
  apply Finset.card_le_card
  intro x hx
  obtain ⟨p, hp, hlo, hhi⟩ := (hS x).mp hx
  obtain ⟨hlow, hhigh⟩ := h.inside p hp
  exact Finset.mem_Ico.mpr ⟨by omega, by omega⟩

end Layout
