import Mathlib.Order.Basic
import Mathlib.Logic.Function.Basic

/-! # Transition systems, failing steps and bounded loops

General support for programs that are modelled as functions on an explicit state and that
may fail.

* `Reach step ok init` is the set of states reached from `init` by steps that meet the side
  condition `ok`; `Reach.invariant` is the induction rule for it.
* `whileE body n s` runs a loop body at most `n` times.  The body returns `.inl s'` to go on
  and `.inr b` to leave the loop.  `Heads C` says that the condition `C` holds at every state
  in which the body is entered, and `whileE_rule` is the rule of loop invariants relative to
  such a condition.
* `bind_ok` inverts a successful sequence of failing computations, and `Avoids E` says that a
  computation does not fail in one of the ways `E`.

`Runs` and `runAll` are runs that can be computed, and `Admits` says that all their steps meet the side
condition; `runAll_invariant`, `runAll_iff` and `Admits.avoids` are the rules for them. -/

namespace Transition

variable {ε α β σ τ ι : Type}

/-! ### Failing computations -/

theorem bind_ok {x : Except ε α} {f : α → Except ε β} {b : β} :
    (x >>= f) = .ok b ↔ ∃ a, x = .ok a ∧ f a = .ok b := by
  cases x with
  | error e => simp [bind, Except.bind]
  | ok a => simp [bind, Except.bind]

theorem pure_ok {a b : α} : (pure a : Except ε α) = .ok b ↔ a = b := by
  simp [pure, Except.pure]

theorem ok_bind {a : α} {f : α → Except ε β} : ((.ok a : Except ε α) >>= f) = f a := rfl

theorem error_bind {e : ε} {f : α → Except ε β} :
    ((.error e : Except ε α) >>= f) = .error e := rfl

/-- The computation succeeds with a result that satisfies `P`. -/
def OkAnd (x : Except ε α) (P : α → Prop) : Prop :=
  match x with
  | .ok a => P a
  | .error _ => False

instance {x : Except ε α} {P : α → Prop} [DecidablePred P] : Decidable (OkAnd x P) :=
  match x with
  | .ok a => inferInstanceAs (Decidable (P a))
  | .error _ => inferInstanceAs (Decidable False)

theorem OkAnd.exists_ok {x : Except ε α} {P : α → Prop} (h : OkAnd x P) :
    ∃ a, x = .ok a ∧ P a := by
  cases x with
  | error e => exact h.elim
  | ok a => exact ⟨a, rfl, h⟩

/-- The computation does not fail in one of the ways `E`. -/
def Avoids (E : ε → Prop) (x : Except ε α) : Prop := ∀ e, x = .error e → ¬E e

section Avoids

variable {E : ε → Prop}

theorem Avoids.ok (a : α) : Avoids E (.ok a : Except ε α) := fun _ h => (by cases h)

theorem Avoids.error {e : ε} (h : ¬E e) : Avoids E (.error e : Except ε α) := by
  intro e' he
  obtain rfl := Except.error.inj he
  exact h

theorem Avoids.not_error {e : ε} (h : Avoids E (.error e : Except ε α)) : ¬E e := h e rfl

/-- A computation that does not avoid an error fails with it. -/
theorem eq_error_of_not_avoids {x : Except ε α} {e : ε} (h : ¬Avoids (· = e) x) : x = .error e := by
  cases x with
  | ok a => exact absurd (.ok a) h
  | error e' =>
      by_contra hne
      exact h (.error fun he => hne (congrArg _ he))

instance Avoids.decidable [DecidablePred E] : ∀ x : Except ε α, Decidable (Avoids E x)
  | .ok a => .isTrue (.ok a)
  | .error e => decidable_of_iff (¬E e) ⟨.error, Avoids.not_error⟩

/-- A sequence of computations avoids what its parts avoid. -/
theorem Avoids.bind {x : Except ε α} {f : α → Except ε β} (hx : Avoids E x)
    (hf : ∀ a, x = .ok a → Avoids E (f a)) : Avoids E (x >>= f) := by
  cases x with
  | error e =>
      rw [error_bind]
      exact .error (hx e rfl)
  | ok a =>
      rw [ok_bind]
      exact hf a rfl

end Avoids

/-! ### Related options -/

theorem rel_some_left {r : α → β → Prop} {a : α} {o : Option β} (h : Option.Rel r (some a) o) :
    ∃ b, o = some b ∧ r a b := by
  cases h with
  | some h => exact ⟨_, rfl, h⟩

theorem rel_some_right {r : α → β → Prop} {b : β} {o : Option α} (h : Option.Rel r o (some b)) :
    ∃ a, o = some a ∧ r a b := by
  cases h with
  | some h => exact ⟨_, rfl, h⟩

theorem rel_none_right {r : α → β → Prop} {o : Option α} (h : Option.Rel r o none) : o = none := by
  cases h with
  | none => rfl

/-- Tables related at every index stay so when related values are stored. -/
theorem rel_update {κ : Type} [DecidableEq κ] {r : α → α → Prop} (hr : ∀ a, r a a)
    {f : κ → Option α} {k : κ} {a b : α} (hf : f k = some a) (h : r a b) (i : κ) :
    Option.Rel r (f i) (Function.update f k (some b) i) := by
  by_cases hi : i = k
  · subst hi
    rw [Function.update_self, hf]
    exact .some h
  · rw [Function.update_of_ne hi]
    cases f i with
    | none => exact .none
    | some c => exact .some (hr c)

theorem rel_refl {r : α → α → Prop} (hr : ∀ a, r a a) (o : Option α) : Option.Rel r o o := by
  cases o with
  | none => exact .none
  | some c => exact .some (hr c)

theorem rel_map {r : α → α → Prop} {f : α → α} (h : ∀ a, r a (f a)) (o : Option α) :
    Option.Rel r o (o.map f) := by
  cases o with
  | none => exact .none
  | some c => exact .some (h c)

/-- Whatever `f'` stores, `f` stores something related in the same place. -/
def Carried {κ : Type} (r : α → β → Prop) (f : κ → Option α) (f' : κ → Option β) : Prop :=
  ∀ k b, f' k = some b → ∃ a, f k = some a ∧ r a b

section Carried

variable {κ : Type} {r : α → α → Prop} {f : κ → Option α}

theorem Carried.refl (hr : ∀ a, r a a) (f : κ → Option α) : Carried r f f := fun _ a h => ⟨a, h, hr a⟩

theorem Carried.trans (hr : ∀ {a b c}, r a b → r b c → r a c) {f' f'' : κ → Option α}
    (h : Carried r f f') (h' : Carried r f' f'') : Carried r f f'' := by
  intro k c hc
  obtain ⟨b, hb, hbc⟩ := h' k c hc
  obtain ⟨a, ha, hab⟩ := h k b hb
  exact ⟨a, ha, hr hab hbc⟩

theorem Carried.update [DecidableEq κ] (hr : ∀ a, r a a) {k : κ} {a : α} {o : Option α}
    (hf : f k = some a) (ho : ∀ b ∈ o, r a b) : Carried r f (Function.update f k o) := by
  intro i b h
  by_cases hi : i = k
  · subst hi
    rw [Function.update_self] at h
    exact ⟨a, hf, ho b h⟩
  · rw [Function.update_of_ne hi] at h
    exact ⟨b, h, hr b⟩

theorem Carried.erase [DecidableEq κ] (hr : ∀ a, r a a) (f : κ → Option α) (k : κ) :
    Carried r f (Function.update f k none) := by
  intro i b h
  by_cases hi : i = k
  · subst hi
    simp at h
  · rw [Function.update_of_ne hi] at h
    exact ⟨b, h, hr b⟩

theorem Carried.map {g : α → α} (hg : ∀ a, r a (g a)) (f : κ → Option α) :
    Carried r f (fun k => (f k).map g) := by
  intro k b h
  obtain ⟨a, ha, rfl⟩ := Option.map_eq_some_iff.mp h
  exact ⟨a, ha, hg a⟩

/-- Some of what is stored is changed by `g`. -/
theorem Carried.mapSome {g : α → α} (hr : ∀ a, r a a) (hg : ∀ a, r a (g a)) (p : κ → Prop)
    [DecidablePred p] (f : κ → Option α) :
    Carried r f (fun k => if p k then (f k).map g else f k) := by
  intro k b h
  simp only at h
  split_ifs at h with hp
  · exact Carried.map hg f k b h
  · exact ⟨b, h, hr b⟩

end Carried

/-- A property of what is stored, if anything is, can be decided. -/
def decidableForallSome {P : α → Prop} [DecidablePred P] :
    ∀ o : Option α, Decidable (∀ a, o = some a → P a)
  | none => .isTrue fun _ h => (by cases h)
  | some a => decidable_of_iff (P a) ⟨fun h _ hb => Option.some.inj hb ▸ h, fun h => h a rfl⟩

def decidableForallOk {P : α → Prop} [DecidablePred P] :
    ∀ x : Except ε α, Decidable (∀ a, x = .ok a → P a)
  | .error _ => .isTrue fun _ h => (by cases h)
  | .ok a => decidable_of_iff (P a) ⟨fun h _ hb => Except.ok.inj hb ▸ h, fun h => h a rfl⟩

/-! ### Reachable states -/

/-- The states reached from `init` by steps `s -a→ t` with `ok s a`. -/
inductive Reach (step : σ → ι → σ → Prop) (ok : σ → ι → Prop) (init : σ → Prop) : σ → Prop
  | start {s : σ} : init s → Reach step ok init s
  | next {s t : σ} {a : ι} : Reach step ok init s → ok s a → step s a t → Reach step ok init t

/-- An invariant that holds at the start and is kept by every admitted step holds throughout. -/
theorem Reach.invariant {step : σ → ι → σ → Prop} {ok : σ → ι → Prop} {init : σ → Prop}
    {I : σ → Prop} (h0 : ∀ s, init s → I s)
    (hs : ∀ s a t, I s → ok s a → step s a t → I t) {s : σ} (h : Reach step ok init s) : I s := by
  induction h with
  | start h => exact h0 _ h
  | next _ hok hst ih => exact hs _ _ _ ih hok hst

theorem Reach.mono {step : σ → ι → σ → Prop} {ok ok' : σ → ι → Prop} {init : σ → Prop}
    (hok : ∀ s a, ok s a → ok' s a) {s : σ} (h : Reach step ok init s) :
    Reach step ok' init s := by
  induction h with
  | start h => exact .start h
  | next _ h hst ih => exact .next ih (hok _ _ h) hst

/-- A system that records more than another has a run for each run of the other one. -/
theorem Reach.lift {step : σ → ι → σ → Prop} {ok : σ → ι → Prop} {init : σ → Prop}
    {step' : τ → ι → τ → Prop} {init' : τ → Prop} (proj : τ → σ)
    (h0 : ∀ s, init s → ∃ t, proj t = s ∧ init' t)
    (hs : ∀ t a s', step (proj t) a s' → ∃ t', proj t' = s' ∧ step' t a t') {s : σ}
    (h : Reach step ok init s) :
    ∃ t, proj t = s ∧ Reach step' (fun t a => ok (proj t) a) init' t := by
  induction h with
  | start h =>
      obtain ⟨t, rfl, ht⟩ := h0 _ h
      exact ⟨t, rfl, .start ht⟩
  | next _ hok hst ih =>
      obtain ⟨t, rfl, ht⟩ := ih
      obtain ⟨t', rfl, hst'⟩ := hs t _ _ hst
      exact ⟨t', rfl, ht.next hok hst'⟩

/-! ### Runs that can be computed -/

/-- The steps `as` can be made one after the other from `s`, each where `ok` admits it, and `P`
holds of the state they lead to. -/
def Runs (run : σ → ι → Except ε σ) (ok : σ → ι → Prop) (P : σ → Prop) : List ι → σ → Prop
  | [], s => P s
  | a :: as, s => ok s a ∧ OkAnd (run s a) (Runs run ok P as)

instance Runs.decidable {run : σ → ι → Except ε σ} {ok : σ → ι → Prop} {P : σ → Prop}
    [DecidableRel ok] [DecidablePred P] : ∀ as s, Decidable (Runs run ok P as s)
  | [], s => inferInstanceAs (Decidable (P s))
  | a :: as, s =>
      have : DecidablePred (Runs run ok P as) := Runs.decidable as
      inferInstanceAs (Decidable (ok s a ∧ OkAnd (run s a) (Runs run ok P as)))

theorem Runs.reach {run : σ → ι → Except ε σ} {step : σ → ι → σ → Prop} {ok : σ → ι → Prop}
    {init P : σ → Prop} (hstep : ∀ s a t, run s a = .ok t → step s a t) {as : List ι} {s : σ}
    (h : Runs run ok P as s) (hs : Reach step ok init s) : ∃ t, Reach step ok init t ∧ P t := by
  induction as generalizing s with
  | nil => exact ⟨s, hs, h⟩
  | cons a as ih =>
      obtain ⟨hok, h⟩ := h
      obtain ⟨t, ht, h⟩ := h.exists_ok
      exact ih h (hs.next hok (hstep s a t ht))

/-- The state after the steps `as`, made one after the other. -/
def runAll (run : σ → ι → Except ε σ) : List ι → σ → Except ε σ
  | [], s => .ok s
  | a :: as, s => do
      let t ← run s a
      runAll run as t

/-- Each of the steps `as` that is made is made in a state where `ok` admits it. -/
def Admits (run : σ → ι → Except ε σ) (ok : σ → ι → Prop) : List ι → σ → Prop
  | [], _ => True
  | a :: as, s => ok s a ∧ ∀ t, run s a = .ok t → Admits run ok as t

instance Admits.decidable {run : σ → ι → Except ε σ} {ok : σ → ι → Prop} [DecidableRel ok] :
    ∀ as s, Decidable (Admits run ok as s)
  | [], _ => .isTrue trivial
  | a :: as, s =>
      have : DecidablePred (Admits run ok as) := Admits.decidable as
      have : Decidable (∀ t, run s a = .ok t → Admits run ok as t) := decidableForallOk (run s a)
      inferInstanceAs (Decidable (ok s a ∧ ∀ t, run s a = .ok t → Admits run ok as t))

theorem Admits.mono {run : σ → ι → Except ε σ} {ok ok' : σ → ι → Prop}
    (hok : ∀ s a, ok s a → ok' s a) : ∀ {as : List ι} {s : σ}, Admits run ok as s →
      Admits run ok' as s
  | [], _, _ => trivial
  | _ :: _, s, h => ⟨hok s _ h.1, fun t ht => (h.2 t ht).mono hok⟩

/-- Steps that two conditions admit are admitted by both together. -/
theorem Admits.and {run : σ → ι → Except ε σ} {ok ok' : σ → ι → Prop} :
    ∀ {as : List ι} {s : σ}, Admits run ok as s → Admits run ok' as s →
      Admits run (fun s a => ok s a ∧ ok' s a) as s
  | [], _, _, _ => trivial
  | _ :: _, _, h, h' => ⟨⟨h.1, h'.1⟩, fun t ht => (h.2 t ht).and (h'.2 t ht)⟩

/-- An invariant that admitted steps keep holds after all of them. -/
theorem Admits.invariant {run : σ → ι → Except ε σ} {ok : σ → ι → Prop} {I : σ → Prop}
    (hI : ∀ s a t, I s → ok s a → run s a = .ok t → I t) :
    ∀ {as : List ι} {s t : σ}, Admits run ok as s → I s → runAll run as s = .ok t → I t
  | [], _, _, _, hs, h => Except.ok.inj h ▸ hs
  | a :: _, s, _, hadm, hs, h => by
      obtain ⟨u, hu, h⟩ := bind_ok.mp h
      exact (hadm.2 u hu).invariant hI (hI s a u hs hadm.1 hu) h

/-- The first steps of a run are admitted. -/
theorem Admits.front {run : σ → ι → Except ε σ} {ok : σ → ι → Prop} {bs : List ι} :
    ∀ {as : List ι} {s : σ}, Admits run ok (as ++ bs) s → Admits run ok as s
  | [], _, _ => trivial
  | _ :: _, _, h => ⟨h.1, fun t ht => (h.2 t ht).front⟩

theorem Admits.append {run : σ → ι → Except ε σ} {ok : σ → ι → Prop} {bs : List ι} :
    ∀ {as : List ι} {s : σ}, Admits run ok as s →
      (∀ t, Transition.runAll run as s = .ok t → Admits run ok bs t) → Admits run ok (as ++ bs) s
  | [], s, _, hbs => hbs s rfl
  | _ :: _, _, has, hbs =>
      ⟨has.1, fun t ht => (has.2 t ht).append fun u hu => hbs u (bind_ok.mpr ⟨t, ht, hu⟩)⟩

theorem runAll_append {run : σ → ι → Except ε σ} (bs : List ι) :
    ∀ (as : List ι) (s : σ), runAll run (as ++ bs) s = runAll run as s >>= runAll run bs
  | [], _ => rfl
  | a :: as, s => by
      rw [List.cons_append, runAll, runAll, bind_assoc]
      exact congrArg _ (funext fun t => runAll_append bs as t)

/-- Steps that can be made are admitted and lead somewhere. -/
theorem Runs.runAll {run : σ → ι → Except ε σ} {ok : σ → ι → Prop} {P : σ → Prop} :
    ∀ {as : List ι} {s : σ}, Runs run ok P as s →
      Admits run ok as s ∧ ∃ t, Transition.runAll run as s = .ok t ∧ P t
  | [], s, h => ⟨trivial, s, rfl, h⟩
  | a :: as, s, h => by
      obtain ⟨hok, h⟩ := h
      obtain ⟨u, hu, h⟩ := h.exists_ok
      obtain ⟨hadm, t, ht, hP⟩ := Runs.runAll h
      refine ⟨⟨hok, fun v hv => ?_⟩, t, ?_, hP⟩
      · obtain rfl := Except.ok.inj (hu.symm.trans hv)
        exact hadm
      · rw [Transition.runAll, hu, ok_bind]
        exact ht

/-- What a run that has gone wrong has lost, it does not get back. -/
theorem runAll_lost {run : σ → ι → Except ε σ} {P : σ → Prop}
    (hlost : ∀ s a t, run s a = .ok t → P t → P s) :
    ∀ {as : List ι} {s t : σ}, runAll run as s = .ok t → P t → P s
  | [], s, t, h, hP => Except.ok.inj h ▸ hP
  | a :: as, s, t, h, hP => by
      obtain ⟨u, hu, h⟩ := bind_ok.mp h
      exact hlost s a u hu (runAll_lost hlost h hP)

/-- The rule for a property that exactly the clean steps keep and that, once lost, is lost for good:
it holds at the end of a run exactly when it holds at the start and all steps have been clean.  The
invariant `I` is kept by the clean steps. -/
theorem runAll_iff {run : σ → ι → Except ε σ} {ok clean : σ → ι → Prop} {I P : σ → Prop}
    (hI : ∀ s a t, I s → ok s a → clean s a → run s a = .ok t → I t)
    (hP : ∀ s a t, I s → ok s a → run s a = .ok t → (P t ↔ P s ∧ clean s a))
    (hlost : ∀ s a t, run s a = .ok t → P t → P s) :
    ∀ {as : List ι} {s t : σ}, I s → Admits run ok as s → runAll run as s = .ok t →
      (P t ↔ P s ∧ Admits run clean as s)
  | [], s, t, _, _, h => by
      obtain rfl := Except.ok.inj h
      exact ⟨fun hP => ⟨hP, trivial⟩, fun hP => hP.1⟩
  | a :: as, s, t, hs, hok, h => by
      obtain ⟨u, hu, h⟩ := bind_ok.mp h
      have hstep := hP s a u hs hok.1 hu
      constructor
      · intro hPt
        obtain ⟨hPs, hclean⟩ := hstep.mp (runAll_lost hlost h hPt)
        have hrest := runAll_iff hI hP hlost (hI s a u hs hok.1 hclean hu) (hok.2 u hu) h
        refine ⟨hPs, hclean, fun v hv => ?_⟩
        obtain rfl := Except.ok.inj (hu.symm.trans hv)
        exact (hrest.mp hPt).2
      · rintro ⟨hPs, hclean, hrest⟩
        have hadm := runAll_iff hI hP hlost (hI s a u hs hok.1 hclean hu) (hok.2 u hu) h
        exact hadm.mpr ⟨hstep.mpr ⟨hPs, hclean⟩, hrest u hu⟩

/-- What the steps `as` cost together. -/
def totalCost (cost : ι → ℕ) : List ι → ℕ
  | [] => 0
  | a :: as => cost a + totalCost cost as

/-- The rule for a resource that is never given back: if an admitted step spends its cost as long
as that leaves something and fails in one of the ways `E` otherwise, then a run avoids `E` exactly
when there is enough for all of its steps. -/
theorem runAll_budget {run : σ → ι → Except ε σ} {ok : σ → ι → Prop} {I : σ → Prop} {E : ε → Prop}
    {spent : σ → ℕ} {cost : ι → ℕ} {limit : ℕ} (hleft : ∀ s, I s → spent s < limit)
    (hs : ∀ s a, I s → ok s a →
      (spent s + cost a < limit ∧ ∃ t, run s a = .ok t ∧ I t ∧ spent t = spent s + cost a) ∨
      (limit ≤ spent s + cost a ∧ ∃ e, run s a = .error e ∧ E e)) :
    ∀ {as : List ι} {s : σ}, I s → Admits run ok as s →
      (Avoids E (runAll run as s) ↔ spent s + totalCost cost as < limit)
  | [], s, hI, _ => iff_of_true (.ok s) (hleft s hI)
  | a :: as, s, hI, hok => by
      rcases hs s a hI hok.1 with ⟨-, t, hrun, hIt, hspent⟩ | ⟨hover, e, hrun, he⟩
      · have hrest := runAll_budget hleft hs hIt (hok.2 t hrun)
        rw [hspent, Nat.add_assoc] at hrest
        rw [runAll, hrun, ok_bind]
        exact hrest
      · rw [runAll, hrun, error_bind]
        refine iff_of_false (fun havoid => havoid.not_error he) fun hlt => ?_
        have htotal : totalCost cost (a :: as) = cost a + totalCost cost as := rfl
        omega

/-- The rule for an invariant of a run. -/
theorem runAll_invariant {run : σ → ι → Except ε σ} {ok : σ → ι → Prop} {I : σ → Prop}
    (hs : ∀ s a t, I s → ok s a → run s a = .ok t → I t) :
    ∀ {as : List ι} {s t : σ}, I s → Admits run ok as s → runAll run as s = .ok t → I t
  | [], _, _, hI, _, h => Except.ok.inj h ▸ hI
  | a :: as, s, t, hI, hok, h => by
      obtain ⟨u, hu, h⟩ := bind_ok.mp h
      exact runAll_invariant hs (hs s a u hI hok.1 hu) (hok.2 u hu) h

/-- The rule for a service that may be refused: if each admitted step keeps `I`, unless it is `Blocked`
and cannot be made, then a run comes to its end or to a step that is blocked. -/
theorem runAll_stops {run : σ → ι → Except ε σ} {ok Blocked : σ → ι → Prop} {I : σ → Prop}
    (hs : ∀ s a, I s → ok s a →
      (∃ t, run s a = .ok t ∧ I t) ∨ (∃ e, run s a = .error e) ∧ Blocked s a) :
    ∀ {as : List ι} {s : σ}, I s → Admits run ok as s →
      (∃ t, runAll run as s = .ok t ∧ I t) ∨
      ∃ done a rest t, as = done ++ a :: rest ∧ runAll run done s = .ok t ∧ I t ∧
        (∃ e, run t a = .error e) ∧ Blocked t a
  | [], s, hI, _ => .inl ⟨s, rfl, hI⟩
  | a :: as, s, hI, hok => by
      rcases hs s a hI hok.1 with ⟨u, hu, hIu⟩ | hblocked
      · rcases runAll_stops hs hIu (hok.2 u hu) with ⟨t, ht, hIt⟩ | ⟨done, b, rest, t, rfl, ht, hrest⟩
        · exact .inl ⟨t, by rw [runAll, hu, ok_bind, ht], hIt⟩
        · exact .inr ⟨a :: done, b, rest, t, rfl, by rw [runAll, hu, ok_bind, ht], hrest⟩
      · exact .inr ⟨[], a, as, s, rfl, rfl, hI, hblocked⟩

/-! ### Paths -/

/-- The steps `as` are made one after the other from `s`, each where `ok` admits it and each to the
state it is listed with. -/
def Path (step : σ → ι → σ → Prop) (ok : σ → ι → Prop) : σ → List (ι × σ) → Prop
  | _, [] => True
  | s, (a, t) :: as => ok s a ∧ step s a t ∧ Path step ok t as

/-- As long as `I` holds no step is `B`, and each step keeps `I` or is `G`: then some step of a
path that ends with `B` is `G`.  `R` may be assumed of every state that a step starts from. -/
theorem Path.before {step : σ → ι → σ → Prop} {ok : σ → ι → Prop} {I R : σ → Prop}
    {G B : ι → σ → Prop} (hs : ∀ s a t, I s → R s → ok s a → step s a t →
      ¬B a t ∧ (G a t ∨ I t)) {as : List (ι × σ)} {s u : σ} {b : ι} (hI : I s) (hR : R s)
    (hall : ∀ x ∈ as, R x.2) (h : Path step ok s (as ++ [(b, u)])) (hb : B b u) :
    ∃ x ∈ as, G x.1 x.2 := by
  induction as generalizing s with
  | nil =>
      obtain ⟨hok, hstep, -⟩ := h
      exact absurd hb (hs s b u hI hR hok hstep).1
  | cons x as ih =>
      obtain ⟨a, t⟩ := x
      obtain ⟨hok, hstep, h⟩ := h
      rcases (hs s a t hI hR hok hstep).2 with hg | hI'
      · exact ⟨(a, t), List.mem_cons_self, hg⟩
      · obtain ⟨x, hx, hg⟩ := ih hI' (hall _ List.mem_cons_self)
          (fun x hx => hall x (List.mem_cons_of_mem _ hx)) h
        exact ⟨x, List.mem_cons_of_mem _ hx, hg⟩

/-! ### Runs of a total step function -/

section Trace

variable (step : σ → ι → σ)

/-- The states that the steps `as` go through, from `s` on. -/
def trace : σ → List ι → List σ
  | _, [] => []
  | s, a :: as => step s a :: trace (step s a) as

/-- Each of the steps `as` is made in a state where `ok` admits it. -/
def Admitted (ok : σ → ι → Prop) : σ → List ι → Prop
  | _, [] => True
  | s, a :: as => ok s a ∧ Admitted ok (step s a) as

/-- A property that, under an invariant of the admitted steps, exactly these have, holds throughout
exactly the admitted runs. -/
theorem trace_iff_of {I P : σ → Prop} {ok : σ → ι → Prop}
    (hP : ∀ s a, I s → (P (step s a) ↔ ok s a)) (hI : ∀ s a, I s → ok s a → I (step s a))
    {s : σ} {as : List ι} (hs : I s) : (∀ t ∈ trace step s as, P t) ↔ Admitted step ok s as := by
  induction as generalizing s with
  | nil => simp [trace, Admitted]
  | cons a as ih =>
      rw [trace, List.forall_mem_cons, Admitted, hP s a hs]
      exact and_congr_right fun hok => ih (hI s a hs hok)

/-- An invariant that exactly the admitted steps keep holds throughout exactly the admitted runs. -/
theorem trace_iff {I : σ → Prop} {ok : σ → ι → Prop}
    (h : ∀ s a, I s → (I (step s a) ↔ ok s a)) {s : σ} {as : List ι} (hs : I s) :
    (∀ t ∈ trace step s as, I t) ↔ Admitted step ok s as :=
  trace_iff_of step h (fun s a hI hok => (h s a hI).mpr hok) hs

end Trace

/-! ### Bounded loops -/

/-- Run `body` at most `n` times; `timeout` is the outcome of a loop that is still going. -/
def whileE (timeout : ε) (body : σ → Except ε (σ ⊕ β)) : ℕ → σ → Except ε β
  | 0, _ => .error timeout
  | n + 1, s =>
      match body s with
      | .error e => .error e
      | .ok (.inl s') => whileE timeout body n s'
      | .ok (.inr b) => .ok b

/-- `C` holds at every state in which the loop enters its body. -/
def Heads (C : σ → Prop) (body : σ → Except ε (σ ⊕ β)) : ℕ → σ → Prop
  | 0, _ => True
  | n + 1, s => C s ∧ ∀ s', body s = .ok (.inl s') → Heads C body n s'

instance Heads.decidable {C : σ → Prop} [DecidablePred C] {body : σ → Except ε (σ ⊕ β)} :
    ∀ (n : ℕ) (s : σ), Decidable (Heads C body n s)
  | 0, _ => .isTrue trivial
  | n + 1, s =>
      match hb : body s with
      | .ok (.inl s') =>
          have : Decidable (Heads C body n s') := Heads.decidable n s'
          decidable_of_iff (C s ∧ Heads C body n s')
            (and_congr_right fun _ => by simp [hb])
      | .ok (.inr b) => decidable_of_iff (C s) (by simp [Heads, hb])
      | .error e => decidable_of_iff (C s) (by simp [Heads, hb])

theorem Heads.mono {C D : σ → Prop} {body : σ → Except ε (σ ⊕ β)} (hCD : ∀ s, C s → D s) :
    ∀ {n : ℕ} {s : σ}, Heads C body n s → Heads D body n s
  | 0, _, _ => trivial
  | _ + 1, _, h => ⟨hCD _ h.1, fun s' hs' => (h.2 s' hs').mono hCD⟩

theorem Heads.and {C D : σ → Prop} {body : σ → Except ε (σ ⊕ β)} :
    ∀ {n : ℕ} {s : σ}, Heads C body n s → Heads D body n s → Heads (fun s => C s ∧ D s) body n s
  | 0, _, _, _ => trivial
  | _ + 1, _, hC, hD => ⟨⟨hC.1, hD.1⟩, fun s' hs' => (hC.2 s' hs').and (hD.2 s' hs')⟩

theorem heads_true {body : σ → Except ε (σ ⊕ β)} :
    ∀ (n : ℕ) (s : σ), Heads (fun _ => True) body n s
  | 0, _ => trivial
  | n + 1, _ => ⟨trivial, fun s' _ => heads_true n s'⟩

/-- An invariant of the loop may be used at every state in which the body is entered. -/
theorem Heads.of_invariant {I C D : σ → Prop} {body : σ → Except ε (σ ⊕ β)}
    (hgo : ∀ s s', I s → C s → body s = .ok (.inl s') → I s') (hD : ∀ s, I s → C s → D s) :
    ∀ {n : ℕ} {s : σ}, I s → Heads C body n s → Heads D body n s
  | 0, _, _, _ => trivial
  | _ + 1, s, hI, h =>
      ⟨hD s hI h.1, fun s' hs' => (h.2 s' hs').of_invariant hgo hD (hgo s s' hI h.1 hs')⟩

/-- The rule of loop invariants: `I` is kept by every round that goes on, and gives `Q` when
the loop is left. -/
theorem whileE_rule {timeout : ε} {body : σ → Except ε (σ ⊕ β)} {I C : σ → Prop} {Q : β → Prop}
    (hgo : ∀ s s', I s → C s → body s = .ok (.inl s') → I s')
    (hexit : ∀ s b, I s → C s → body s = .ok (.inr b) → Q b) :
    ∀ {n : ℕ} {s : σ} {b : β}, I s → Heads C body n s → whileE timeout body n s = .ok b → Q b
  | 0, s, b, _, _, h => by simp [whileE] at h
  | n + 1, s, b, hI, hC, h => by
      unfold whileE at h
      cases hb : body s with
      | error e => simp [hb] at h
      | ok r =>
          cases r with
          | inl s' =>
              simp only [hb] at h
              exact whileE_rule hgo hexit (hgo s s' hI hC.1 hb) (hC.2 s' hb) h
          | inr b' =>
              simp only [hb, Except.ok.injEq] at h
              exact h ▸ hexit s b' hI hC.1 hb

/-- The rule of termination: while `I` holds every round succeeds, and one that goes on makes the
measure smaller, so that the loop is left before its bound is reached. -/
theorem whileE_total {timeout : ε} {body : σ → Except ε (σ ⊕ β)} {I C : σ → Prop} {μ : σ → ℕ}
    (hbody : ∀ s, I s → C s → ∃ r, body s = .ok r)
    (hgo : ∀ s s', I s → C s → body s = .ok (.inl s') → I s' ∧ μ s' < μ s) :
    ∀ {n : ℕ} {s : σ}, I s → Heads C body n s → μ s < n →
      ∃ b, whileE timeout body n s = .ok b
  | 0, _, _, _, hlt => absurd hlt (Nat.not_lt_zero _)
  | n + 1, s, hI, hC, hlt => by
      obtain ⟨r, hr⟩ := hbody s hI hC.1
      unfold whileE
      cases r with
      | inr b => exact ⟨b, by rw [hr]⟩
      | inl s' =>
          obtain ⟨hI', hless⟩ := hgo s s' hI hC.1 hr
          have hlt' : μ s' < n := Nat.lt_of_lt_of_le hless (Nat.le_of_lt_succ hlt)
          obtain ⟨b, hb⟩ := whileE_total hbody hgo hI' (hC.2 s' hr) hlt'
          exact ⟨b, by rw [hr]; exact hb⟩

/-- The rule of total correctness: with at most `k` rounds to go, each round goes on with fewer to go,
or is the last and leaves, or fails, with an outcome as promised. -/
theorem whileE_outcome {timeout : ε} {body : σ → Except ε (σ ⊕ β)} {I : ℕ → σ → Prop}
    {O : Except ε β → Prop}
    (hround : ∀ k s, I k s → (∃ k' s', body s = .ok (.inl s') ∧ I k' s' ∧ k' < k) ∨
      (∃ b, body s = .ok (.inr b) ∧ O (.ok b)) ∨ ∃ e, body s = .error e ∧ O (.error e)) :
    ∀ {n k : ℕ} {s : σ}, I k s → k < n → O (whileE timeout body n s)
  | 0, _, _, _, hlt => absurd hlt (Nat.not_lt_zero _)
  | n + 1, k, s, hI, hlt => by
      unfold whileE
      rcases hround k s hI with ⟨k', s', hs', hI', hless⟩ | ⟨b, hb, hO⟩ | ⟨e, he, hO⟩
      · rw [hs']
        exact whileE_outcome hround hI' (Nat.lt_of_lt_of_le hless (Nat.le_of_lt_succ hlt))
      · rw [hb]
        exact hO
      · rw [he]
        exact hO

/-- What a round needs in order to succeed has been there in every round of a loop that has been
left. -/
theorem Heads.of_ok {timeout : ε} {body : σ → Except ε (σ ⊕ β)} {I D : σ → Prop}
    (hD : ∀ s r, I s → body s = .ok r → D s)
    (hgo : ∀ s s', I s → body s = .ok (.inl s') → I s') :
    ∀ {n : ℕ} {s : σ} {b : β}, I s → whileE timeout body n s = .ok b → Heads D body n s
  | 0, _, _, _, _ => trivial
  | n + 1, s, b, hI, h => by
      unfold whileE at h
      cases hb : body s with
      | error e => simp [hb] at h
      | ok r =>
          refine ⟨hD s r hI hb, fun s' hs' => ?_⟩
          obtain rfl := Except.ok.inj (hb.symm.trans hs')
          simp only [hb] at h
          exact Heads.of_ok hD hgo (hgo s s' hI hb) h

/-- What the rounds of a loop leave behind, `f` saying what each of them leaves. -/
def gather {α : Type} (f : σ → List α) (body : σ → Except ε (σ ⊕ β)) : ℕ → σ → List α
  | 0, _ => []
  | n + 1, s =>
      f s ++ match body s with
        | .ok (.inl s') => gather f body n s'
        | _ => []

/-- A loop whose rounds leave at most one thing behind each, and less of a rank that is never used up,
leaves no more than the rank behind. -/
theorem gather_length_le {α : Type} {f : σ → List α} {body : σ → Except ε (σ ⊕ β)} {I : σ → Prop}
    {μ : σ → ℕ} (hf : ∀ s, (f s).length ≤ 1) (hpos : ∀ s, I s → 0 < μ s)
    (hgo : ∀ s s', I s → body s = .ok (.inl s') → I s' ∧ μ s' < μ s) :
    ∀ {n : ℕ} {s : σ}, I s → (gather f body n s).length ≤ μ s
  | 0, s, _ => Nat.zero_le _
  | n + 1, s, hI => by
      have hone := hf s
      have hleft := hpos s hI
      unfold gather
      rw [List.length_append]
      cases hb : body s with
      | error e =>
          simp only [List.length_nil]
          omega
      | ok r =>
          cases r with
          | inl s' =>
              obtain ⟨hI', hlt⟩ := hgo s s' hI hb
              have hrest := gather_length_le hf hpos hgo (n := n) hI'
              simp only
              omega
          | inr b =>
              simp only [List.length_nil]
              omega

/-- The rule of loop invariants for a loop whose rounds leave something behind: the invariant
speaks of all that has been left so far. -/
theorem whileE_gather {α : Type} {f : σ → List α} {timeout : ε} {body : σ → Except ε (σ ⊕ β)}
    {I : σ → List α → Prop} {C : σ → Prop} {Q : β → List α → Prop}
    (hgo : ∀ s l s', I s l → C s → body s = .ok (.inl s') → I s' (l ++ f s))
    (hexit : ∀ s l b, I s l → C s → body s = .ok (.inr b) → Q b (l ++ f s)) :
    ∀ {n : ℕ} {s : σ} {l : List α} {b : β}, I s l → Heads C body n s →
      whileE timeout body n s = .ok b → Q b (l ++ gather f body n s)
  | 0, s, l, b, _, _, h => by simp [whileE] at h
  | n + 1, s, l, b, hI, hC, h => by
      unfold whileE at h
      unfold gather
      cases hb : body s with
      | error e => simp [hb] at h
      | ok r =>
          cases r with
          | inl s' =>
              simp only [hb] at h
              have hrest := whileE_gather hgo hexit (hgo s l s' hI hC.1 hb) (hC.2 s' hb) h
              rwa [List.append_assoc] at hrest
          | inr b' =>
              simp only [hb, Except.ok.injEq] at h
              rw [List.append_nil]
              exact h ▸ hexit s l b' hI hC.1 hb

end Transition
