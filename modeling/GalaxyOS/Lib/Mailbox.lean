import Mathlib.Data.List.Basic
import Mathlib.Data.List.Perm.Basic
import Mathlib.Data.List.Range

/-! # A queue with selective receive

Messages are appended to a queue, and a receiver removes the first message that is meant for it,
which need not be the first of the queue.  `Explains` relates what has been sent, in order, and
what has been received to the queue that is left: it assigns to every receipt, and to every entry
of the queue, the position of the message among those sent.

Every position is assigned exactly once, and the receipts of one receiver have increasing
positions.  The two operations keep such an assignment (`Explains.send` and `Explains.receive`). -/

namespace Mailbox

variable {μ ρ π : Type}

/-- `taken` pairs the receipts with positions in `sent`, and `waiting` the entries of the queue.
`eligible p m` says that the message `m` is meant for `p`, `returns m r` that the receipt `r` is
one of `m`, and `dest r` is the receiver. -/
structure Explains (eligible : π → μ → Prop) (returns : μ → ρ → Prop) (dest : ρ → π) (sent : List μ)
    (receipts : List ρ) (queue : List μ) (taken : List (ℕ × ρ)) (waiting : List (ℕ × μ)) :
    Prop where
  receipts : taken.map Prod.snd = receipts
  queue : waiting.map Prod.snd = queue
  /-- Every message sent has been received once, or is queued. -/
  once : (taken.map Prod.fst ++ waiting.map Prod.fst).Perm (List.range sent.length)
  waits : ∀ x ∈ waiting, sent[x.1]? = some x.2
  /-- Only messages are received, and only by receivers they are meant for. -/
  returned : ∀ x ∈ taken, ∃ m, sent[x.1]? = some m ∧ returns m x.2 ∧ eligible (dest x.2) m
  /-- The messages of one receiver come out in the order in which they were sent. -/
  inOrder : taken.Pairwise fun x y => dest x.2 = dest y.2 → x.1 < y.1
  sorted : waiting.Pairwise fun x y => x.1 < y.1
  /-- What was sent before a receipt and is still queued is not meant for that receiver. -/
  passed : ∀ x ∈ taken, ∀ y ∈ waiting, y.1 < x.1 → ¬eligible (dest x.2) y.2

section

variable {eligible : π → μ → Prop} {returns : μ → ρ → Prop} {dest : ρ → π} {sent : List μ}
  {receipts : List ρ} {queue : List μ} {taken : List (ℕ × ρ)} {waiting : List (ℕ × μ)}

theorem explains_empty : Explains eligible returns dest [] [] [] [] [] :=
  ⟨rfl, rfl, List.Perm.refl _, by simp, by simp, by simp, by simp, by simp⟩

/-- Every assigned position is one of a message. -/
theorem Explains.lt_length (h : Explains eligible returns dest sent receipts queue taken waiting)
    {k : ℕ} (hk : k ∈ taken.map Prod.fst ++ waiting.map Prod.fst) : k < sent.length :=
  List.mem_range.mp (h.once.mem_iff.mp hk)

theorem Explains.taken_lt (h : Explains eligible returns dest sent receipts queue taken waiting)
    {x : ℕ × ρ} (hx : x ∈ taken) : x.1 < sent.length :=
  h.lt_length (List.mem_append_left _ (List.mem_map_of_mem hx))

theorem Explains.waiting_lt (h : Explains eligible returns dest sent receipts queue taken waiting)
    {x : ℕ × μ} (hx : x ∈ waiting) : x.1 < sent.length :=
  h.lt_length (List.mem_append_right _ (List.mem_map_of_mem hx))

/-- Sending appends to the queue. -/
theorem Explains.send (h : Explains eligible returns dest sent receipts queue taken waiting) (m : μ) :
    Explains eligible returns dest (sent ++ [m]) receipts (queue ++ [m]) taken
      (waiting ++ [(sent.length, m)]) := by
  have hold : ∀ k, k < sent.length → (sent ++ [m])[k]? = sent[k]? := fun k hk =>
    List.getElem?_append_left hk
  refine ⟨h.receipts, by simp [h.queue], ?_, ?_, ?_, h.inOrder, ?_, ?_⟩
  · rw [List.map_append, ← List.append_assoc, List.length_append, List.length_singleton,
      List.range_succ]
    exact h.once.append_right _
  · intro x hx
    rcases List.mem_append.mp hx with hx | hx
    · rw [hold _ (h.waiting_lt hx)]
      exact h.waits x hx
    · obtain rfl := List.mem_singleton.mp hx
      simp
  · intro x hx
    obtain ⟨m', hm', hret⟩ := h.returned x hx
    exact ⟨m', by rw [hold _ (h.taken_lt hx), hm'], hret⟩
  · refine List.pairwise_append.mpr ⟨h.sorted, List.pairwise_singleton _ _, ?_⟩
    intro x hx y hy
    obtain rfl := List.mem_singleton.mp hy
    exact h.waiting_lt hx
  · intro x hx y hy hlt
    rcases List.mem_append.mp hy with hy | hy
    · exact h.passed x hx y hy hlt
    · obtain rfl := List.mem_singleton.mp hy
      have hx' := h.taken_lt hx
      simp only at hlt
      omega

/-- A receiver takes the first message in the queue that is meant for it. -/
theorem Explains.receive (h : Explains eligible returns dest sent receipts queue taken waiting)
    {k : ℕ} {m : μ} {r : ρ} (hm : queue[k]? = some m) (hret : returns m r)
    (helig : eligible (dest r) m) (hfirst : ∀ j < k, ∀ m', queue[j]? = some m' → ¬eligible (dest r) m') :
    ∃ i, Explains eligible returns dest sent (receipts ++ [r]) (queue.eraseIdx k) (taken ++ [(i, r)])
      (waiting.eraseIdx k) := by
  rw [← h.queue, List.getElem?_map] at hm
  obtain ⟨⟨i, m'⟩, hx, rfl⟩ := Option.map_eq_some_iff.mp hm
  obtain ⟨hk, hget⟩ := List.getElem?_eq_some_iff.mp hx
  have hmem : (i, m') ∈ waiting := hget ▸ List.getElem_mem hk
  have hbefore : ∀ y ∈ waiting, y.1 < i → ¬eligible (dest r) y.2 := by
    intro y hy hlt
    obtain ⟨j, hj, rfl⟩ := List.getElem_of_mem hy
    have hjk : j < k := by
      by_contra hge
      have hle : i ≤ waiting[j].1 := by
        rcases Nat.eq_or_lt_of_le (Nat.le_of_not_lt hge) with rfl | hlt'
        · rw [hget]
        · have := List.pairwise_iff_getElem.mp h.sorted k j hk hj hlt'
          rw [hget] at this
          omega
      omega
    refine hfirst j hjk _ ?_
    rw [← h.queue, List.getElem?_map, List.getElem?_eq_getElem hj]
    rfl
  have hperm : ((i, m') :: waiting.eraseIdx k).Perm waiting := by
    rw [← hget]
    exact List.getElem_cons_eraseIdx_perm hk
  refine ⟨i, ?_, ?_, ?_, ?_, ?_, ?_, ?_, ?_⟩
  · rw [List.map_append, h.receipts]
    rfl
  · rw [← h.queue, List.eraseIdx_map]
  · rw [List.map_append, List.append_assoc]
    refine (List.Perm.append_left _ ?_).trans h.once
    exact hperm.map Prod.fst
  · exact fun x hx => h.waits x (List.mem_of_mem_eraseIdx hx)
  · intro x hx
    rcases List.mem_append.mp hx with hx | hx
    · exact h.returned x hx
    · obtain rfl := List.mem_singleton.mp hx
      exact ⟨m', h.waits _ hmem, hret, helig⟩
  · refine List.pairwise_append.mpr ⟨h.inOrder, List.pairwise_singleton _ _, ?_⟩
    intro x hx y hy hdest
    obtain rfl := List.mem_singleton.mp hy
    -- a message that was sent before would have been taken by the same receiver earlier
    by_contra hge
    have hnodup : x.1 ≠ i := by
      have hn := List.nodup_append.mp (h.once.nodup_iff.mpr List.nodup_range)
      exact hn.2.2 x.1 (List.mem_map_of_mem hx) i (List.mem_map_of_mem hmem)
    simp only at hdest hge
    exact h.passed x hx _ hmem (by simp only; omega) (by rw [hdest]; exact helig)
  · exact h.sorted.sublist (List.eraseIdx_sublist _ _)
  · intro x hx y hy hlt
    have hy' := List.mem_of_mem_eraseIdx hy
    rcases List.mem_append.mp hx with hx | hx
    · exact h.passed x hx y hy' hlt
    · obtain rfl := List.mem_singleton.mp hx
      exact hbefore y hy' hlt

end

end Mailbox
