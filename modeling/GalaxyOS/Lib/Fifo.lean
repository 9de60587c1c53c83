import Mathlib.Data.List.Basic

/-! # Logs and queues

A log of what a component has been seen to do is explained by an abstract machine if the machine can do
the same (`Explained`).  The machine here is a queue of bounded capacity that may drop a new element when
it is full: what has been taken from it and what it still holds are then, in order, elements that have
been put into it (`FifoStep.sublist`).

`explained_snoc` adds a step to a log, and `explained_unique` says that a deterministic machine is in one
state behind a log. -/

namespace Fifo

variable {σ ε α : Type}

/-! ### Explained logs -/

/-- From `init` on the machine `spec` can make the steps of the log, and be in a state then. -/
inductive Explained (spec : σ → ε → σ → Prop) (init : σ) : List ε → σ → Prop
  | nil : Explained spec init [] init
  | snoc {log : List ε} {s t : σ} {e : ε} :
      Explained spec init log s → spec s e t → Explained spec init (log ++ [e]) t

theorem explained_snoc {spec : σ → ε → σ → Prop} {init t : σ} {log : List ε} {e : ε} :
    Explained spec init (log ++ [e]) t ↔ ∃ s, Explained spec init log s ∧ spec s e t := by
  constructor
  · intro h
    generalize hlog : log ++ [e] = log' at h
    cases h with
    | nil => exact absurd hlog (List.append_ne_nil_of_right_ne_nil _ (List.cons_ne_nil _ _))
    | snoc h hstep =>
        obtain ⟨rfl, he⟩ := List.append_inj' hlog rfl
        obtain rfl := (List.cons.inj he).1
        exact ⟨_, h, hstep⟩
  · rintro ⟨s, h, hstep⟩
    exact h.snoc hstep

/-- A deterministic machine explains a log in at most one way. -/
theorem explained_unique {spec : σ → ε → σ → Prop} (hspec : ∀ s e t t', spec s e t → spec s e t' → t = t')
    {init t t' : σ} {log : List ε} (h : Explained spec init log t) (h' : Explained spec init log t') :
    t = t' := by
  induction h generalizing t' with
  | nil =>
      generalize hlog : ([] : List ε) = log at h'
      cases h' with
      | nil => rfl
      | snoc => exact absurd hlog.symm (List.append_ne_nil_of_right_ne_nil _ (List.cons_ne_nil _ _))
  | snoc _ hstep ih =>
      obtain ⟨s', h', hstep'⟩ := explained_snoc.mp h'
      obtain rfl := ih h'
      exact hspec _ _ _ _ hstep hstep'

/-! ### A bounded queue -/

/-- An element is put into the queue, or as many as `n` are asked for and some are taken from it. -/
inductive Event (α : Type) where
  | put (a : α)
  | got (n : ℕ) (l : List α)
deriving DecidableEq, Repr

/-- The elements that have been put into the queue. -/
def puts (log : List (Event α)) : List α :=
  log.flatMap fun
    | .put a => [a]
    | .got _ _ => []

/-- The elements that have been taken from the queue. -/
def gots (log : List (Event α)) : List α :=
  log.flatMap fun
    | .put _ => []
    | .got _ l => l

/-- A queue with room for `capacity` elements. -/
inductive FifoStep (capacity : ℕ) : List α → Event α → List α → Prop
  | stored (q : List α) (a : α) : FifoStep capacity q (.put a) (q ++ [a])
  | dropped {q : List α} (a : α) : capacity ≤ q.length → FifoStep capacity q (.put a) q
  | got (q : List α) (n : ℕ) : FifoStep capacity q (.got n (q.take n)) (q.drop n)

theorem puts_snoc (log : List (Event α)) (e : Event α) : puts (log ++ [e]) = puts log ++ puts [e] :=
  List.flatMap_append ..

theorem gots_snoc (log : List (Event α)) (e : Event α) : gots (log ++ [e]) = gots log ++ gots [e] :=
  List.flatMap_append ..

/-- No element is lost or repeated, and the order is kept, but for elements that have been dropped. -/
theorem FifoStep.sublist {capacity : ℕ} {log : List (Event α)} {q : List α}
    (h : Explained (FifoStep capacity) [] log q) : (gots log ++ q).Sublist (puts log) := by
  induction h with
  | nil => exact List.Sublist.refl []
  | @snoc log q q' e h hstep ih =>
      rw [puts_snoc, gots_snoc]
      cases hstep with
      | stored a =>
          show ((gots log ++ []) ++ (q ++ [a])).Sublist (puts log ++ [a])
          rw [List.append_nil, ← List.append_assoc]
          exact ih.append_right [a]
      | dropped a hfull =>
          show ((gots log ++ []) ++ q).Sublist (puts log ++ [a])
          rw [List.append_nil]
          exact ih.trans (List.sublist_append_left _ _)
      | got n =>
          show ((gots log ++ (q.take n ++ [])) ++ q.drop n).Sublist (puts log ++ [])
          rw [List.append_nil, List.append_nil, List.append_assoc, List.take_append_drop]
          exact ih

end Fifo
