import Mathlib.Data.List.TakeWhile

/-! # The pieces of a text

`tokens p s` are the longest parts of `s` without delimiters, which are the elements with `p`, and
`pieces d s` those between the delimiters `d`.  They are read off from the left: delimiters in front
do not count, and a piece ends at the first delimiter after it.

`tokens_cons_of_neg` and `pieces_cons_of_ne` are these readings, and `pieces_join` takes words that have
been joined apart again. -/

namespace Pieces

variable {α : Type} {p : α → Bool} {a : α} {s t w : List α}

/-! ### Parts without delimiters -/

/-- The non-empty parts of `s` between elements with `p`. -/
def tokens (p : α → Bool) (s : List α) : List (List α) := (s.splitOnP p).filter fun w => w ≠ []

theorem tokens_nil (p : α → Bool) : tokens p [] = [] := by
  simp [tokens, List.splitOnP_nil]

theorem tokens_append_cons (ha : p a = true) (s t : List α) :
    tokens p (s ++ a :: t) = tokens p s ++ tokens p t := by
  unfold tokens
  rw [List.splitOnP_append_cons s t ha, List.filter_append]

theorem tokens_cons_self (ha : p a = true) (s : List α) : tokens p (a :: s) = tokens p s := by
  have happend := tokens_append_cons ha [] s
  rw [tokens_nil, List.nil_append, List.nil_append] at happend
  exact happend

theorem tokens_eq_singleton (hw : w ≠ []) (hp : ∀ a ∈ w, p a = false) : tokens p w = [w] := by
  simp [tokens, List.splitOnP_eq_singleton hp, hw]

/-- Delimiters in front do not count. -/
theorem tokens_dropWhile (p : α → Bool) (s : List α) : tokens p (s.dropWhile p) = tokens p s := by
  induction s with
  | nil => rfl
  | cons a s ih =>
    by_cases ha : p a = true
    · rw [List.dropWhile_cons_of_pos ha, ih, tokens_cons_self ha]
    · rw [List.dropWhile_cons_of_neg ha]

/-- The first part runs to the first delimiter, and the others follow after it. -/
theorem tokens_cons_of_neg (ha : p a = false) (s : List α) : tokens p (a :: s) =
    (a :: s.takeWhile fun b => !p b) :: tokens p (s.dropWhile fun b => !p b).tail := by
  have htake : ∀ b ∈ a :: s.takeWhile fun b => !p b, p b = false := by
    intro b hb
    cases List.mem_cons.mp hb with
    | inl heq => rw [heq, ha]
    | inr hmem => simpa using List.mem_takeWhile_imp hmem
  have hsplit : a :: s = (a :: s.takeWhile fun b => !p b) ++ s.dropWhile fun b => !p b := by
    rw [List.cons_append, List.takeWhile_append_dropWhile]
  cases hrest : s.dropWhile fun b => !p b with
  | nil =>
    rw [hsplit, hrest, List.append_nil, tokens_eq_singleton (List.cons_ne_nil _ _) htake,
      List.tail_nil, tokens_nil]
  | cons b rest =>
    have hb : p b = true := by
      simpa [hrest] using List.head_dropWhile_not (fun b => !p b) (l := s) (by simp [hrest])
    rw [hsplit, hrest, tokens_append_cons hb, tokens_eq_singleton (List.cons_ne_nil _ _) htake,
      List.singleton_append, List.tail_cons]

/-- A part is a stretch of the text, without delimiters. -/
theorem mem_tokens (h : w ∈ tokens p s) : w ≠ [] ∧ (∀ a ∈ w, p a = false) ∧ w <:+: s := by
  induction hn : s.length using Nat.strongRecOn generalizing s with
  | _ n ih =>
    rw [← tokens_dropWhile] at h
    have hsuffix : s.dropWhile p <:+ s := List.dropWhile_suffix p
    cases hrest : s.dropWhile p with
    | nil =>
      rw [hrest, tokens_nil] at h
      exact absurd h List.not_mem_nil
    | cons a t =>
      rw [hrest] at h hsuffix
      have ha : p a = false := by
        simpa [hrest] using List.head_dropWhile_not p (l := s) (by simp [hrest])
      rw [tokens_cons_of_neg ha] at h
      cases List.mem_cons.mp h with
      | inl hfirst =>
        refine ⟨hfirst ▸ List.cons_ne_nil _ _, ?_, ?_⟩
        · intro b hb
          rw [hfirst] at hb
          cases List.mem_cons.mp hb with
          | inl heq => rw [heq, ha]
          | inr hmem => simpa using List.mem_takeWhile_imp hmem
        · have hfront : w <+: a :: t := by
            rw [hfirst]
            exact List.prefix_cons_inj a |>.mpr (List.takeWhile_prefix _)
          exact hfront.isInfix.trans hsuffix.isInfix
      | inr hlater =>
        have hlt : (t.dropWhile fun b => !p b).tail.length < n := by
          have h1 := (List.dropWhile_suffix (l := t) fun b => !p b).length_le
          have h2 := hsuffix.length_le
          rw [List.length_cons] at h2
          rw [List.length_tail]
          omega
        obtain ⟨hne, hnot, hpart⟩ := ih _ hlt hlater rfl
        refine ⟨hne, hnot, hpart.trans ?_⟩
        have htail : (t.dropWhile fun b => !p b).tail <:+ a :: t :=
          (List.tail_suffix _).trans ((List.dropWhile_suffix _).trans (List.suffix_cons a t))
        exact htail.isInfix.trans hsuffix.isInfix

/-- There are no more parts than elements. -/
theorem tokens_length_le (p : α → Bool) (s : List α) : (tokens p s).length ≤ s.length := by
  induction hn : s.length using Nat.strongRecOn generalizing s with
  | _ n ih =>
    rw [← tokens_dropWhile]
    have hle := (List.dropWhile_suffix (l := s) p).length_le
    cases hrest : s.dropWhile p with
    | nil =>
      rw [tokens_nil]
      exact Nat.zero_le n
    | cons a t =>
      have ha : p a = false := by
        simpa [hrest] using List.head_dropWhile_not p (l := s) (by simp [hrest])
      have htail := (List.dropWhile_suffix (l := t) fun b => !p b).length_le
      rw [hrest, List.length_cons, hn] at hle
      have hlater := ih _ (show (t.dropWhile fun b => !p b).tail.length < n by
        rw [List.length_tail]; omega) _ rfl
      rw [List.length_tail] at hlater
      rw [tokens_cons_of_neg ha, List.length_cons]
      omega

/-! ### Parts between one delimiter -/

variable [DecidableEq α] {d : α}

/-- The non-empty parts of `s` between delimiters. -/
def pieces (d : α) (s : List α) : List (List α) := (s.splitOn d).filter fun w => w ≠ []

@[simp] theorem pieces_nil (d : α) : pieces d [] = [] := tokens_nil _

theorem pieces_append_cons (d : α) (s t : List α) :
    pieces d (s ++ d :: t) = pieces d s ++ pieces d t :=
  tokens_append_cons (p := fun a => decide (a = d)) (decide_eq_true rfl) s t

@[simp] theorem pieces_cons_self (d : α) (s : List α) : pieces d (d :: s) = pieces d s :=
  tokens_cons_self (p := fun a => decide (a = d)) (decide_eq_true rfl) s

theorem decide_eq_false_of_notMem (hd : d ∉ w) : ∀ a ∈ w, decide (a = d) = false :=
  fun _ ha => decide_eq_false fun h => hd (h ▸ ha)

theorem pieces_eq_singleton (hw : w ≠ []) (hd : d ∉ w) : pieces d w = [w] :=
  tokens_eq_singleton hw (decide_eq_false_of_notMem hd)

/-- A piece ends at the delimiter after it. -/
theorem pieces_token (hw : w ≠ []) (hd : d ∉ w) (s : List α) :
    pieces d (w ++ d :: s) = w :: pieces d s := by
  rw [pieces_append_cons, pieces_eq_singleton hw hd, List.singleton_append]

theorem pieces_dropWhile (d : α) (s : List α) :
    pieces d (s.dropWhile fun a => a = d) = pieces d s := tokens_dropWhile _ s

/-- The first piece runs to the first delimiter, and the others follow after it. -/
theorem pieces_cons_of_ne (ha : a ≠ d) (s : List α) :
    pieces d (a :: s) =
      (a :: s.takeWhile fun b => b ≠ d) :: pieces d (s.dropWhile fun b => b ≠ d).tail := by
  have hcons := tokens_cons_of_neg (p := fun a => decide (a = d)) (decide_eq_false ha) s
  simp only [← decide_not] at hcons
  exact hcons

theorem takeWhile_first (hu : d ∉ w) (s : List α) :
    (w ++ d :: s).takeWhile (fun a => a ≠ d) = w := by
  rw [List.takeWhile_append_of_pos fun a ha => by simpa using fun h : a = d => hu (h ▸ ha)]
  simp

theorem dropWhile_first (hu : d ∉ w) (s : List α) :
    (w ++ d :: s).dropWhile (fun a => a ≠ d) = d :: s := by
  rw [List.dropWhile_append_of_pos fun a ha => by simpa using fun h : a = d => hu (h ▸ ha)]
  simp

theorem dropWhile_notMem (hu : d ∉ w) : w.dropWhile (fun a => a ≠ d) = [] := by
  have hall : ∀ a ∈ w, decide (a ≠ d) = true :=
    fun a ha => by simpa using fun h : a = d => hu (h ▸ ha)
  exact List.dropWhile_eq_nil_iff.mpr hall

theorem pieces_eq_nil (h : pieces d s = []) : ∀ a ∈ s, a = d := by
  induction s with
  | nil => simp
  | cons a s ih =>
    by_cases ha : a = d
    · subst ha
      rw [pieces_cons_self] at h
      simpa using ih h
    · rw [pieces_cons_of_ne ha] at h
      cases h

/-! ### Words and pieces -/

/-- Non-empty words that are joined with delimiters are the pieces of the result. -/
theorem pieces_join {ws : List (List α)} (h : ∀ w ∈ ws, w ≠ [] ∧ d ∉ w) :
    pieces d ([d].intercalate ws) = ws := by
  induction ws with
  | nil => simp [List.intercalate]
  | cons w ws ih =>
    have hw := h w List.mem_cons_self
    have hws := ih fun v hv => h v (List.mem_cons_of_mem w hv)
    cases ws with
    | nil => simpa [List.intercalate] using pieces_eq_singleton hw.1 hw.2
    | cons v vs =>
      rw [List.intercalate_cons_cons, List.append_assoc, List.singleton_append,
        pieces_token hw.1 hw.2, hws]

theorem mem_pieces (h : w ∈ pieces d s) : w ≠ [] ∧ d ∉ w := by
  obtain ⟨hne, hnot, -⟩ := mem_tokens (p := fun a => decide (a = d)) h
  exact ⟨hne, fun hd => of_decide_eq_false (hnot d hd) rfl⟩

end Pieces
