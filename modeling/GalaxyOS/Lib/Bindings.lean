import Mathlib.Data.List.Basic

/-! # Bindings written as words

A list of words `name c value`, where `c` is a separator, searched from the front by name.  A word
is a binding of every name that is followed by a separator in it, so a name with a separator can
read what another name has bound.

`lookup` gives the value of the first binding of a name, and `assign` replaces that binding or adds
one at the end.

`lookup_assign_self` and `lookup_assign_other` say what is looked up after an assignment;
`valueIn_plain` that names without a separator keep apart. -/

namespace Bindings

variable {α : Type} {c : α}

/-- The word `name c value`. -/
def binding (c : α) (name value : List α) : List α := name ++ c :: value

theorem binding_drop (name v : List α) : (binding c name v).drop (name.length + 1) = v := by
  simp [binding]

variable [DecidableEq α]

/-- The value that a word gives to `name`. -/
def valueIn (c : α) (name w : List α) : Option (List α) :=
  if w.take name.length = name ∧ w[name.length]? = some c then some (w.drop (name.length + 1))
  else none

theorem valueIn_eq_some {name w v : List α} :
    valueIn c name w = some v ↔ w = binding c name v := by
  unfold valueIn binding
  constructor
  · intro h
    split_ifs at h with hw
    obtain ⟨htake, hc⟩ := hw
    obtain ⟨hlt, hget⟩ := List.getElem?_eq_some_iff.mp hc
    calc w = w.take name.length ++ w.drop name.length := (List.take_append_drop _ w).symm
      _ = name ++ c :: w.drop (name.length + 1) := by
          rw [htake, List.drop_eq_getElem_cons hlt, hget]
      _ = name ++ c :: v := by rw [Option.some.inj h]
  · rintro rfl
    rw [if_pos (by simp)]
    exact congrArg some (binding_drop name v)

@[simp] theorem valueIn_binding (name v : List α) : valueIn c name (binding c name v) = some v :=
  valueIn_eq_some.mpr rfl

/-- Names without a separator do not read each other's bindings. -/
theorem valueIn_plain {name name' : List α} (v : List α) (h : c ∉ name) (h' : c ∉ name')
    (hne : name' ≠ name) : valueIn c name' (binding c name v) = none := by
  apply Option.eq_none_iff_forall_ne_some.mpr
  intro v' hv
  obtain ⟨m, hm⟩ | ⟨m, hm⟩ := List.append_eq_append_iff.mp (valueIn_eq_some.mp hv)
  · cases m with
    | nil => exact hne (by simpa using hm.1)
    | cons a m =>
        have ha : c = a := by simpa using congrArg List.head? hm.2
        exact h' (hm.1 ▸ by simp [ha])
  · cases m with
    | nil => exact hne (by simpa using hm.1.symm)
    | cons a m =>
        have ha : c = a := by simpa using congrArg List.head? hm.2
        exact h (hm.1 ▸ by simp [ha])

/-- The value of the first binding of `name`. -/
def lookup (c : α) (name : List α) (ws : List (List α)) : Option (List α) :=
  ws.findSome? (valueIn c name)

/-- Bind `name`, in the place of its first binding if it has one. -/
def assign (c : α) (name v : List α) : List (List α) → List (List α)
  | [] => [binding c name v]
  | w :: ws =>
      if (valueIn c name w).isSome then binding c name v :: ws else w :: assign c name v ws

@[simp] theorem lookup_nil (name : List α) : lookup c name [] = none := rfl

theorem lookup_cons (name w : List α) (ws : List (List α)) :
    lookup c name (w :: ws) = (valueIn c name w).or (lookup c name ws) := by
  unfold lookup
  rw [List.findSome?_cons]
  cases valueIn c name w <;> rfl

theorem lookup_assign_self (name v : List α) (ws : List (List α)) :
    lookup c name (assign c name v ws) = some v := by
  induction ws with
  | nil => simp [assign, lookup_cons]
  | cons w ws ih =>
    unfold assign
    split_ifs with h
    · simp [lookup_cons]
    · rw [lookup_cons, Option.not_isSome_iff_eq_none.mp h, Option.none_or, ih]

/-- A name that reads neither the new binding nor the one in whose place it comes keeps its value. -/
theorem lookup_assign_other {name name' v : List α} {ws : List (List α)}
    (hnew : valueIn c name' (binding c name v) = none)
    (hold : ∀ u, lookup c name ws = some u → valueIn c name' (binding c name u) = none) :
    lookup c name' (assign c name v ws) = lookup c name' ws := by
  induction ws with
  | nil => simp [assign, lookup_cons, hnew]
  | cons w ws ih =>
    unfold assign
    split_ifs with h
    · obtain ⟨u, hu⟩ := Option.isSome_iff_exists.mp h
      have hw : valueIn c name' w = none := by
        rw [valueIn_eq_some.mp hu]
        exact hold u (by rw [lookup_cons, hu, Option.some_or])
      rw [lookup_cons, lookup_cons, hnew, hw]
    · rw [lookup_cons, lookup_cons, ih]
      intro u hu
      exact hold u (by rw [lookup_cons, Option.not_isSome_iff_eq_none.mp h, Option.none_or, hu])

/-! ### The place of the binding -/

/-- The position of the first binding of `name`. -/
def position (c : α) (name : List α) (ws : List (List α)) : Option ℕ :=
  ws.findIdx? fun w => (valueIn c name w).isSome

theorem assign_of_position {name v : List α} {ws : List (List α)} {i : ℕ}
    (h : position c name ws = some i) : assign c name v ws = ws.set i (binding c name v) := by
  induction ws generalizing i with
  | nil => cases h
  | cons w ws ih =>
    unfold position at h ih
    rw [List.findIdx?_cons] at h
    unfold assign
    split_ifs at h ⊢ with hw
    · obtain rfl := Option.some.inj h
      rfl
    · obtain ⟨j, hj, rfl⟩ := Option.map_eq_some_iff.mp h
      rw [ih hj, List.set_cons_succ]

theorem assign_of_no_position {name v : List α} {ws : List (List α)}
    (h : position c name ws = none) : assign c name v ws = ws ++ [binding c name v] := by
  induction ws with
  | nil => rfl
  | cons w ws ih =>
    unfold position at h ih
    rw [List.findIdx?_cons] at h
    unfold assign
    split_ifs at h ⊢ with hw
    rw [ih (Option.map_eq_none_iff.mp h), List.cons_append]

theorem lookup_of_position {name : List α} {ws : List (List α)} {i : ℕ}
    (h : position c name ws = some i) :
    ∃ v, lookup c name ws = some v ∧ ws[i]? = some (binding c name v) := by
  obtain ⟨hi, hsome, hbefore⟩ := List.findIdx?_eq_some_iff_getElem.mp h
  obtain ⟨v, hv⟩ := Option.isSome_iff_exists.mp hsome
  refine ⟨v, ?_, ?_⟩
  · apply List.findSome?_eq_some_iff.mpr
    refine ⟨ws.take i, ws[i], ws.drop (i + 1), ?_, hv, ?_⟩
    · rw [← List.drop_eq_getElem_cons hi, List.take_append_drop]
    · intro w hw
      obtain ⟨j, hj, rfl⟩ := List.mem_take_iff_getElem.mp hw
      simpa using hbefore j (by omega)
  · rw [List.getElem?_eq_getElem hi, valueIn_eq_some.mp hv]

theorem lookup_of_no_position {name : List α} {ws : List (List α)}
    (h : position c name ws = none) : lookup c name ws = none := by
  apply List.findSome?_eq_none_iff.mpr
  intro w hw
  simpa using List.findIdx?_eq_none_iff.mp h w hw

end Bindings
