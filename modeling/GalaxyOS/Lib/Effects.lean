import Mathlib.Logic.Basic

/-! # Computations with effects

A computation over a state may end in an error, and the state that it has reached by then stays.
`Guarantees R Q x` says of the computation `x` that every run, also one that ends in an error, leads
to a state related to the first one by `R`, and that every result satisfies `Q`.  It is built from
rules for the ways to compose computations, for a relation that is reflexive and transitive.

`Yields Q x s` says that the run from one state ends without an error, in a result and a state that
satisfy `Q`.

`Guarantees.bind` and `Yields.bind` are the rules for sequences. -/

namespace Transition

/-- Computations over states `σ` that may end in an error `ε`. -/
abbrev Effect (ε σ α : Type) := ExceptT ε (StateM σ) α

variable {ε σ α β : Type}

/-- The result of a computation, and the state that it leaves. -/
def Effect.exec (x : Effect ε σ α) (s : σ) : Except ε α × σ := x.run.run s

/-- A function of the state. -/
def Effect.act (f : σ → α × σ) : Effect ε σ α := ExceptT.mk fun s => (.ok (f s).1, (f s).2)

/-- A result or an error that does not depend on the state. -/
def Effect.ofExcept (x : Except ε α) : Effect ε σ α := ExceptT.mk fun s => (x, s)

/-- A computation that reaches its error before it changes the state. -/
def Effect.attempt (f : σ → Except ε (α × σ)) : Effect ε σ α := ExceptT.mk fun s =>
  match f s with
  | .ok (a, s') => (.ok a, s')
  | .error e => (.error e, s)

@[simp] theorem Effect.exec_pure (a : α) (s : σ) :
    (pure a : Effect ε σ α).exec s = (.ok a, s) := rfl

@[simp] theorem Effect.exec_act (f : σ → α × σ) (s : σ) :
    (Effect.act f : Effect ε σ α).exec s = (.ok (f s).1, (f s).2) := rfl

@[simp] theorem Effect.exec_ofExcept (x : Except ε α) (s : σ) :
    (Effect.ofExcept x : Effect ε σ α).exec s = (x, s) := rfl

theorem Effect.exec_bind (x : Effect ε σ α) (f : α → Effect ε σ β) (s : σ) :
    (x >>= f).exec s =
      match x.exec s with
      | (.ok a, s') => (f a).exec s'
      | (.error e, s') => (.error e, s') := by
  have hrun : (x >>= f).exec s = ExceptT.bindCont f (x.exec s).1 (x.exec s).2 := rfl
  rw [hrun]
  cases x.exec s with
  | mk r s' => cases r <;> rfl

/-- Every run relates the states by `R`, and every result satisfies `Q`. -/
def Guarantees (R : σ → σ → Prop) (Q : α → Prop) (x : Effect ε σ α) : Prop :=
  ∀ s, R s (x.exec s).2 ∧ ∀ a, (x.exec s).1 = .ok a → Q a

section Rules

variable {R : σ → σ → Prop} {Q : α → Prop} {Q' : β → Prop}

theorem Guarantees.pure (hrefl : ∀ s, R s s) {a : α} (ha : Q a) :
    Guarantees R Q (Pure.pure a : Effect ε σ α) := by
  intro s
  refine ⟨hrefl s, fun b hb => ?_⟩
  obtain rfl := Except.ok.inj hb
  exact ha

theorem Guarantees.bind (htrans : ∀ s₁ s₂ s₃, R s₁ s₂ → R s₂ s₃ → R s₁ s₃) {x : Effect ε σ α}
    {f : α → Effect ε σ β} (hx : Guarantees R Q x) (hf : ∀ a, Q a → Guarantees R Q' (f a)) :
    Guarantees R Q' (x >>= f) := by
  intro s
  obtain ⟨hstate, hresult⟩ := hx s
  rw [Effect.exec_bind]
  cases hrun : x.exec s with
  | mk r s' =>
      rw [hrun] at hstate hresult
      cases r with
      | error e => exact ⟨hstate, fun b hb => by cases hb⟩
      | ok a =>
          have hnext := hf a (hresult a rfl) s'
          exact ⟨htrans _ _ _ hstate hnext.1, hnext.2⟩

theorem Guarantees.act {f : σ → α × σ} (h : ∀ s, R s (f s).2 ∧ Q (f s).1) :
    Guarantees R Q (Effect.act f : Effect ε σ α) := by
  intro s
  refine ⟨(h s).1, fun a ha => ?_⟩
  obtain rfl := Except.ok.inj ha
  exact (h s).2

theorem Guarantees.ofExcept (hrefl : ∀ s, R s s) {x : Except ε α} (h : ∀ a, x = .ok a → Q a) :
    Guarantees R Q (Effect.ofExcept x : Effect ε σ α) := fun s => ⟨hrefl s, h⟩

theorem Guarantees.attempt (hrefl : ∀ s, R s s) {f : σ → Except ε (α × σ)}
    (h : ∀ s a s', f s = .ok (a, s') → R s s' ∧ Q a) :
    Guarantees R Q (Effect.attempt f : Effect ε σ α) := by
  intro s
  unfold Effect.attempt Effect.exec
  cases hrun : f s with
  | error e =>
      simp only [ExceptT.run_mk, StateT.run, hrun]
      exact ⟨hrefl s, fun a ha => by cases ha⟩
  | ok p =>
      simp only [ExceptT.run_mk, StateT.run, hrun]
      refine ⟨(h s p.1 p.2 hrun).1, fun a ha => ?_⟩
      obtain rfl := Except.ok.inj ha
      exact (h s p.1 p.2 hrun).2

theorem Guarantees.mono {Q₂ : α → Prop} {x : Effect ε σ α} (h : Guarantees R Q x)
    (hQ : ∀ a, Q a → Q₂ a) : Guarantees R Q₂ x :=
  fun s => ⟨(h s).1, fun a ha => hQ a ((h s).2 a ha)⟩

theorem Guarantees.ite {c : Prop} [Decidable c] {x y : Effect ε σ α}
    (hx : c → Guarantees R Q x) (hy : ¬c → Guarantees R Q y) :
    Guarantees R Q (if c then x else y) := by
  by_cases hc : c
  · rw [if_pos hc]
    exact hx hc
  · rw [if_neg hc]
    exact hy hc

end Rules

/-! ### Runs that return -/

/-- The run of `x` from `s` ends without an error, and its result and its last state satisfy `Q`. -/
def Yields (Q : α → σ → Prop) (x : Effect ε σ α) (s : σ) : Prop :=
  ∃ a s', x.exec s = (.ok a, s') ∧ Q a s'

section Yields

variable {Q : α → σ → Prop} {Q' : β → σ → Prop} {x : Effect ε σ α} {s : σ}

theorem Yields.pure {a : α} (h : Q a s) : Yields Q (Pure.pure a : Effect ε σ α) s := ⟨a, s, rfl, h⟩

theorem Yields.act {f : σ → α × σ} (h : Q (f s).1 (f s).2) :
    Yields Q (Effect.act f : Effect ε σ α) s := ⟨_, _, rfl, h⟩

theorem Yields.ofExcept {r : Except ε α} {a : α} (hr : r = .ok a) (h : Q a s) :
    Yields Q (Effect.ofExcept r) s := ⟨a, s, congrArg (·, s) hr, h⟩

theorem Yields.bind {f : α → Effect ε σ β} (hx : Yields Q x s)
    (hf : ∀ a s', Q a s' → Yields Q' (f a) s') : Yields Q' (x >>= f) s := by
  obtain ⟨a, s₁, hrun, ha⟩ := hx
  obtain ⟨b, s₂, hrun', hb⟩ := hf a s₁ ha
  refine ⟨b, s₂, ?_, hb⟩
  rw [Effect.exec_bind, hrun]
  exact hrun'

theorem Yields.mono {Q₂ : α → σ → Prop} (h : Yields Q x s) (hQ : ∀ a s', Q a s' → Q₂ a s') :
    Yields Q₂ x s := by
  obtain ⟨a, s', hrun, ha⟩ := h
  exact ⟨a, s', hrun, hQ a s' ha⟩

/-- A run has one result. -/
theorem Yields.and {Q₂ : α → σ → Prop} (h : Yields Q x s) (h₂ : Yields Q₂ x s) :
    Yields (fun a s' => Q a s' ∧ Q₂ a s') x s := by
  obtain ⟨a, s', hrun, ha⟩ := h
  obtain ⟨a₂, s₂, hrun₂, ha₂⟩ := h₂
  obtain ⟨hresult, rfl⟩ := Prod.mk.inj (hrun.symm.trans hrun₂)
  obtain rfl := Except.ok.inj hresult
  exact ⟨a, s', hrun, ha, ha₂⟩

end Yields

end Transition
