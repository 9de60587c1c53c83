import Mathlib.Data.List.Nodup
import Mathlib.Logic.Function.Basic

/-! # Heaps of blocks

A heap hands out numbered blocks, never the same number twice, and takes them back.  A request can be
refused.  `Owns h₀ h owned` says that the heap `h` has come from `h₀` and differs from it in the blocks
`owned` only, all of which are new; when they have been given back, the blocks are those of `h₀`
again.

`Owns.malloc`, `Owns.modify` and `Owns.free` are its rules, and `Owns.block_eq` is what is left at the
end. -/

namespace BlockHeap

/-- The contents of the blocks that are in use, the number of the next block, and the requests that are
granted. -/
structure Heap (β : Type) where
  block : ℕ → Option β
  next : ℕ
  grants : ℕ → Bool
  unused : ∀ b, next ≤ b → block b = none

variable {β : Type} {h₀ h : Heap β} {owned : List ℕ} {b : ℕ}

namespace Heap

/-- No request is refused. -/
def Grants (h : Heap β) : Prop := ∀ k, h.grants k = true

theorem unused_update (h : Heap β) (x : Option β) :
    ∀ b, h.next + 1 ≤ b → Function.update h.block h.next x b = none := fun b hb => by
  rw [Function.update_of_ne (by omega)]
  exact h.unused b (by omega)

/-- A new block with contents, or a request that is refused. -/
def malloc (h : Heap β) (c : β) : Option ℕ × Heap β :=
  if h.grants h.next then
    (some h.next, ⟨Function.update h.block h.next (some c), h.next + 1, h.grants, h.unused_update _⟩)
  else (none, ⟨h.block, h.next + 1, h.grants, fun b hb => h.unused b (by omega)⟩)

theorem unused_free (h : Heap β) (b : ℕ) :
    ∀ b', h.next ≤ b' → Function.update h.block b none b' = none := fun b' hb' => by
  by_cases hb : b' = b
  · rw [hb, Function.update_self]
  · rw [Function.update_of_ne hb]
    exact h.unused b' hb'

/-- Give a block back. -/
def free (h : Heap β) (b : ℕ) : Heap β :=
  ⟨Function.update h.block b none, h.next, h.grants, h.unused_free b⟩

theorem unused_modify (h : Heap β) (b : ℕ) (f : β → β) :
    ∀ b', h.next ≤ b' → Function.update h.block b ((h.block b).map f) b' = none := fun b' hb' => by
  by_cases hb : b' = b
  · rw [hb, Function.update_self, h.unused b (hb ▸ hb'), Option.map_none]
  · rw [Function.update_of_ne hb]
    exact h.unused b' hb'

/-- Change the contents of a block. -/
def modify (h : Heap β) (b : ℕ) (f : β → β) : Heap β :=
  ⟨Function.update h.block b ((h.block b).map f), h.next, h.grants, h.unused_modify b f⟩

theorem free_of_ne {b' : ℕ} (hne : b' ≠ b) : (h.free b).block b' = h.block b' :=
  Function.update_of_ne hne _ _

theorem modify_of_ne {b' : ℕ} (hne : b' ≠ b) (f : β → β) : (h.modify b f).block b' = h.block b' :=
  Function.update_of_ne hne _ _

theorem modify_self {c : β} (hb : h.block b = some c) (f : β → β) :
    (h.modify b f).block b = some (f c) :=
  (Function.update_self _ _ _).trans (congrArg (Option.map f) hb)

end Heap

/-- The heap has come from another one and differs from it in new blocks only. -/
structure Owns (h₀ h : Heap β) (owned : List ℕ) : Prop where
  fresh : ∀ b ∈ owned, h₀.next ≤ b ∧ b < h.next
  nodup : owned.Nodup
  rest : ∀ b, b ∉ owned → h.block b = h₀.block b
  next : h₀.next ≤ h.next
  grants : h.grants = h₀.grants

namespace Owns

theorem refl (h : Heap β) : Owns h h [] :=
  ⟨fun _ hb => absurd hb List.not_mem_nil, List.nodup_nil, fun _ _ => rfl, Nat.le_refl _, rfl⟩

theorem perm {owned' : List ℕ} (ho : Owns h₀ h owned) (hp : owned.Perm owned') : Owns h₀ h owned' :=
  ⟨fun b hb => ho.fresh b (hp.mem_iff.mpr hb), hp.nodup_iff.mp ho.nodup,
    fun b hb => ho.rest b fun hmem => hb (hp.mem_iff.mp hmem), ho.next, ho.grants⟩

/-- With nothing left, the blocks are the old ones. -/
theorem block_eq (ho : Owns h₀ h []) : h.block = h₀.block :=
  funext fun b => ho.rest b List.not_mem_nil

theorem next_notMem (ho : Owns h₀ h owned) : h.next ∉ owned := fun hmem =>
  absurd (ho.fresh h.next hmem).2 (Nat.lt_irrefl _)

/-- A block is added, or the request is refused. -/
theorem malloc (ho : Owns h₀ h owned) (c : β) :
    (∃ b h', h.malloc c = (some b, h') ∧ Owns h₀ h' (b :: owned) ∧ h'.block b = some c ∧
      ∀ b' ∈ owned, h'.block b' = h.block b') ∨
    ∃ h', h.malloc c = (none, h') ∧ Owns h₀ h' owned ∧ h'.block = h.block ∧ ¬h₀.Grants := by
  unfold Heap.malloc
  by_cases hgrant : h.grants h.next = true
  · rw [if_pos hgrant]
    refine .inl ⟨_, _, rfl, ⟨fun b hb => ?_, ?_, fun b hb => ?_, ?_, ho.grants⟩, ?_, fun b hb => ?_⟩
    · cases List.mem_cons.mp hb with
      | inl hnew =>
          rw [hnew]
          exact ⟨ho.next, Nat.lt_succ_self _⟩
      | inr hold => exact ⟨(ho.fresh b hold).1, Nat.lt_succ_of_lt (ho.fresh b hold).2⟩
    · exact List.nodup_cons.mpr ⟨ho.next_notMem, ho.nodup⟩
    · obtain ⟨hne, hrest⟩ := not_or.mp (fun h' => hb (List.mem_cons.mpr h'))
      exact (Function.update_of_ne hne _ _).trans (ho.rest b hrest)
    · exact Nat.le_succ_of_le ho.next
    · exact Function.update_self _ _ _
    · exact Function.update_of_ne (Nat.ne_of_lt (ho.fresh b hb).2) _ _
  · rw [if_neg hgrant]
    refine .inr ⟨_, rfl, ⟨fun b hb => ?_, ho.nodup, ho.rest, Nat.le_succ_of_le ho.next, ho.grants⟩, rfl, ?_⟩
    · exact ⟨(ho.fresh b hb).1, Nat.lt_succ_of_lt (ho.fresh b hb).2⟩
    · intro hall
      rw [ho.grants] at hgrant
      exact hgrant (hall _)

theorem free (ho : Owns h₀ h (b :: owned)) : Owns h₀ (h.free b) owned := by
  obtain ⟨hnot, hnodup⟩ := List.nodup_cons.mp ho.nodup
  refine ⟨fun b' hb' => ho.fresh b' (List.mem_cons_of_mem b hb'), hnodup, fun b' hb' => ?_, ho.next, ho.grants⟩
  by_cases heq : b' = b
  · rw [heq]
    have hold := h₀.unused b (ho.fresh b List.mem_cons_self).1
    exact (Function.update_self _ _ _).trans hold.symm
  · rw [Heap.free_of_ne heq]
    exact ho.rest b' fun hmem => (List.mem_cons.mp hmem).elim heq hb'

theorem modify (ho : Owns h₀ h owned) (hb : b ∈ owned) (f : β → β) : Owns h₀ (h.modify b f) owned := by
  refine ⟨ho.fresh, ho.nodup, fun b' hb' => ?_, ho.next, ho.grants⟩
  have hne : b' ≠ b := fun heq => hb' (heq ▸ hb)
  rw [Heap.modify_of_ne hne]
  exact ho.rest b' hb'

end Owns

end BlockHeap
