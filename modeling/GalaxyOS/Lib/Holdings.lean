import Mathlib.Data.List.Nodup
import Mathlib.Logic.Function.Basic

/-! # Blocks and their holders

A heap is the list of the blocks that are allocated.  Some of them are held: `held k` is what the
holder `k` has got, if there is such a holder.  `Held` says that nobody holds a block that is not
allocated and that no block is held twice; it is kept by allocating and by freeing, as long as a block
is freed by its holder only.

The rules are `Held.alloc`, `Held.free`, `Held.grant` for blocks that go to a holder, and
`Held.release` for a holder that gives them back. -/

namespace Holdings

variable {κ α : Type}

/-- Every block that is held is allocated, and it is held once. -/
structure Held (held : κ → Option (List α)) (heap : List α) : Prop where
  nodup : heap.Nodup
  each : ∀ k l, held k = some l → l.Nodup
  allocated : ∀ k l, held k = some l → ∀ a ∈ l, a ∈ heap
  apart : ∀ k k' l l', k ≠ k' → held k = some l → held k' = some l' → ∀ a ∈ l, a ∉ l'

variable {held held' : κ → Option (List α)} {heap l : List α} {k : κ} {a : α}

/-- Holders may be forgotten. -/
theorem Held.forget (h : Held held heap) (hsub : ∀ k l, held' k = some l → held k = some l) :
    Held held' heap :=
  ⟨h.nodup, fun k l hk => h.each k l (hsub k l hk), fun k l hk => h.allocated k l (hsub k l hk),
    fun k k' l l' hne hk hk' => h.apart k k' l l' hne (hsub k l hk) (hsub k' l' hk')⟩

/-- A block is allocated that nobody holds. -/
theorem Held.alloc (h : Held held heap) (ha : a ∉ heap) : Held held (a :: heap) :=
  ⟨List.nodup_cons.mpr ⟨ha, h.nodup⟩, h.each,
    fun k l hk b hb => List.mem_cons_of_mem a (h.allocated k l hk b hb), h.apart⟩

/-- A block is freed that nobody holds. -/
theorem Held.free [DecidableEq α] (h : Held held heap) (ha : ∀ k l, held k = some l → a ∉ l) :
    Held held (heap.erase a) := by
  refine ⟨h.nodup.erase a, h.each, fun k l hk b hb => ?_, h.apart⟩
  have hne : b ≠ a := fun heq => ha k l hk (heq ▸ hb)
  exact (List.mem_erase_of_ne hne).mpr (h.allocated k l hk b hb)

variable [DecidableEq κ]

/-- New blocks go to a holder. -/
theorem Held.grant (h : Held held heap) (hl : l.Nodup) (hnew : ∀ a ∈ l, a ∉ heap) :
    Held (Function.update held k (some l)) (l ++ heap) := by
  refine ⟨?_, fun i li hi => ?_, fun i li hi a ha => ?_, fun i j li lj hne hi hj a ha hc => ?_⟩
  · exact List.nodup_append.mpr ⟨hl, h.nodup, fun a ha b hb heq => hnew a ha (heq ▸ hb)⟩
  · by_cases hik : i = k
    · subst hik
      rw [Function.update_self] at hi
      exact Option.some.inj hi ▸ hl
    · rw [Function.update_of_ne hik] at hi
      exact h.each i li hi
  · apply List.mem_append.mpr
    by_cases hik : i = k
    · subst hik
      rw [Function.update_self] at hi
      exact .inl (Option.some.inj hi ▸ ha)
    · rw [Function.update_of_ne hik] at hi
      exact .inr (h.allocated i li hi a ha)
  · by_cases hik : i = k
    · have hjk : j ≠ k := fun hj => hne (hik.trans hj.symm)
      subst hik
      rw [Function.update_self] at hi
      rw [Function.update_of_ne hjk] at hj
      exact hnew a (Option.some.inj hi ▸ ha) (h.allocated j lj hj a hc)
    · rw [Function.update_of_ne hik] at hi
      by_cases hjk : j = k
      · subst hjk
        rw [Function.update_self] at hj
        exact hnew a (Option.some.inj hj ▸ hc) (h.allocated i li hi a ha)
      · rw [Function.update_of_ne hjk] at hj
        exact h.apart i j li lj hne hi hj a ha hc

/-- A holder gives back all that it holds. -/
theorem Held.release [DecidableEq α] (h : Held held heap) (hk : held k = some l) :
    Held (Function.update held k none) (heap.diff l) := by
  have hother : ∀ i li, Function.update held k none i = some li → i ≠ k ∧ held i = some li := by
    intro i li hi
    by_cases hik : i = k
    · rw [hik, Function.update_self] at hi
      cases hi
    · rw [Function.update_of_ne hik] at hi
      exact ⟨hik, hi⟩
  refine ⟨h.nodup.diff, fun i li hi => h.each i li (hother i li hi).2, fun i li hi a ha => ?_,
    fun i j li lj hne hi hj => h.apart i j li lj hne (hother i li hi).2 (hother j lj hj).2⟩
  obtain ⟨hik, hi⟩ := hother i li hi
  exact h.nodup.mem_sdiff_iff.mpr ⟨h.allocated i li hi a ha, h.apart i k li l hik hi hk a ha⟩

end Holdings
