import GalaxyOS.Lib.Transition

/-! # Monitored computations

A computation that a monitor stops with the error `bad`, and that may also end for want of some
resource, in one of the errors `lim`.  `Monitored lim bad C P x` says that the condition `C` decides
about the monitor: if `x` returns, `C` holds, and the result satisfies `P`; if `x` is stopped, `C` does
not hold.  The conditions of a sequence are the conjunction of those of its parts.

`Monitored.bind` is the rule for this, and `Monitored.decides` reads the condition off a program. -/

namespace Transition

variable {ε α β : Type} {lim : ε → Prop} {bad : ε} {C D : Prop} {P Q : α → Prop} {R : β → Prop}

structure Monitored (lim : ε → Prop) (bad : ε) (C : Prop) (P : α → Prop) (x : Except ε α) : Prop where
  ok : ∀ a, x = .ok a → C ∧ P a
  error : ∀ e, x = .error e → lim e ∨ (e = bad ∧ ¬C)

theorem Monitored.pure {a : α} (h : P a) : Monitored lim bad True P (.ok a : Except ε α) := by
  refine ⟨fun b hb => ?_, fun e he => (by cases he)⟩
  obtain rfl := Except.ok.inj hb
  exact ⟨trivial, h⟩

theorem Monitored.congr {x : Except ε α} (h : Monitored lim bad C P x) (hCD : C ↔ D) :
    Monitored lim bad D P x := by
  refine ⟨fun a ha => ?_, fun e he => ?_⟩
  · have hok := h.ok a ha
    exact ⟨hCD.mp hok.1, hok.2⟩
  · apply (h.error e he).imp_right
    exact fun herr => ⟨herr.1, fun hD => herr.2 (hCD.mpr hD)⟩

/-- A sequence is stopped unless both of its parts are let through. -/
theorem Monitored.bind {x : Except ε α} {f : α → Except ε β} (hx : Monitored lim bad C P x)
    (hf : ∀ a, x = .ok a → C → P a → Monitored lim bad D R (f a)) :
    Monitored lim bad (C ∧ D) R (x >>= f) := by
  cases x with
  | error e =>
      rw [error_bind]
      refine ⟨fun b hb => (by cases hb), fun e' he' => ?_⟩
      obtain rfl := Except.error.inj he'
      apply (hx.error e rfl).imp_right
      exact fun herr => ⟨herr.1, fun hCD => herr.2 hCD.1⟩
  | ok a =>
      rw [ok_bind]
      obtain ⟨hC, ha⟩ := hx.ok a rfl
      have hfa := hf a rfl hC ha
      refine ⟨fun b hb => ?_, fun e he => ?_⟩
      · obtain ⟨hD, hb'⟩ := hfa.ok b hb
        exact ⟨⟨hC, hD⟩, hb'⟩
      · apply (hfa.error e he).imp_right
        exact fun herr => ⟨herr.1, fun hCD => herr.2 hCD.2⟩

/-- What follows a part that is let through without a condition. -/
theorem Monitored.seq {x : Except ε α} {f : α → Except ε β} (hx : Monitored lim bad True P x)
    (hf : ∀ a, x = .ok a → P a → Monitored lim bad D R (f a)) : Monitored lim bad D R (x >>= f) :=
  (hx.bind fun a ha _ hP => hf a ha hP).congr (and_iff_right trivial)

theorem Monitored.mono {x : Except ε α} (h : Monitored lim bad C P x) (hPQ : ∀ a, P a → Q a) :
    Monitored lim bad C Q x := by
  refine ⟨fun a ha => ?_, h.error⟩
  have hok := h.ok a ha
  exact ⟨hok.1, hPQ a hok.2⟩

/-- A program that begins with a monitored part and goes on without the monitor is stopped if the
condition fails, and only then, unless it ends before for want of a resource. -/
theorem Monitored.decides {x : Except ε α} {f : α → Except ε β} (h : Monitored lim bad C P x)
    (hbad : ¬lim bad) (hf : ∀ a, f a ≠ .error bad) :
    (C → (x >>= f) ≠ .error bad) ∧
    ((∀ e, lim e → (x >>= f) ≠ .error e) → ((x >>= f) ≠ .error bad ↔ C)) := by
  cases x with
  | ok a =>
      rw [ok_bind]
      exact ⟨fun _ => hf a, fun _ => iff_of_true (hf a) (h.ok a rfl).1⟩
  | error e =>
      rw [error_bind]
      have hpasses : C → (.error e : Except ε β) ≠ .error bad := by
        intro hC he
        obtain rfl := Except.error.inj he
        cases h.error e rfl with
        | inl hlim => exact hbad hlim
        | inr herr => exact herr.2 hC
      refine ⟨hpasses, fun hlim => ⟨fun hne => ?_, hpasses⟩⟩
      cases h.error e rfl with
      | inl hend => exact absurd rfl (hlim e hend)
      | inr herr => exact absurd (congrArg Except.error herr.1) hne

end Transition
