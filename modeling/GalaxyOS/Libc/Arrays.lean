import GalaxyOS.Lib.Transition
import GalaxyOS.Mem.Paging

/-! # Arrays of characters

An array is the list of its bytes.  An access outside of it is a fault.

`setChars_next` and `arrayAt_next` are what the loops over arrays use, `setChar_overrun` what happens
behind the end. -/

namespace GalaxyOS

open Transition

/-- `str[i]` of an array. -/
def arrayAt (str : List UInt8) (i : ℕ) : Except Fault UInt8 :=
  match str[i]? with
  | none => .error .overrun
  | some c => .ok c

/-- `str[i] = c`. -/
def setChar (str : List UInt8) (i : ℕ) (c : UInt8) : Except Fault (List UInt8) :=
  if i < str.length then .ok (str.set i c) else .error .overrun

/-- `chars` from `str[i]` on, one after the other. -/
def setChars (str : List UInt8) (i : ℕ) : List UInt8 → Except Fault (List UInt8)
  | [] => .ok str
  | c :: chars => do
      let str ← setChar str i c
      setChars str (i + 1) chars

variable {str chars old : List UInt8} {i : ℕ}

/-- A byte is stored behind the bytes that are there already. -/
theorem setChar_next (pre : List UInt8) (old c : UInt8) (rest : List UInt8) :
    setChar (pre ++ old :: rest) pre.length c = .ok (pre ++ c :: rest) := by
  unfold setChar
  rw [if_pos (by simp), List.set_append_right _ _ (Nat.le_refl _), Nat.sub_self, List.set_cons_zero]

theorem setChar_overrun (hi : str.length ≤ i) (c : UInt8) : setChar str i c = .error .overrun := by
  unfold setChar
  rw [if_neg (Nat.not_lt.mpr hi)]

theorem arrayAt_next (pre : List UInt8) (c : UInt8) (rest : List UInt8) :
    arrayAt (pre ++ c :: rest) pre.length = .ok c := by
  unfold arrayAt
  rw [List.getElem?_append_right (Nat.le_refl _), Nat.sub_self]
  rfl

/-- Bytes take the place of as many others. -/
theorem setChars_next (pre rest : List UInt8) (hold : old.length = chars.length) :
    setChars (pre ++ (old ++ rest)) pre.length chars = .ok (pre ++ (chars ++ rest)) := by
  induction chars generalizing pre old with
  | nil => rw [List.length_eq_zero_iff.mp hold]; rfl
  | cons c chars ih =>
      obtain ⟨o, old, rfl⟩ := List.exists_cons_of_length_eq_add_one hold
      have hrest := ih (pre ++ [c]) (Nat.succ.inj hold)
      simp only [List.append_assoc, List.singleton_append, List.length_append,
        List.length_singleton] at hrest
      unfold setChars
      rw [List.cons_append, setChar_next, ok_bind]
      exact hrest

theorem setChars_overrun (hi : i ≤ str.length) (hlong : str.length < i + chars.length) :
    setChars str i chars = .error .overrun := by
  induction chars generalizing str i with
  | nil => exact absurd hlong (Nat.not_lt.mpr hi)
  | cons c chars ih =>
      rw [List.length_cons] at hlong
      unfold setChars
      by_cases hroom : i < str.length
      · have hset : setChar str i c = .ok (str.set i c) := if_pos hroom
        rw [hset, ok_bind]
        apply ih
        · rw [List.length_set]
          exact hroom
        · rw [List.length_set]
          omega
      · rw [setChar_overrun (Nat.le_of_not_lt hroom), error_bind]

/-- The bytes of an array up to an index. -/
theorem exists_split (str : List UInt8) {k : ℕ} (hk : k ≤ str.length) :
    ∃ first last, str = first ++ last ∧ first.length = k :=
  ⟨str.take k, str.drop k, (List.take_append_drop k str).symm, List.length_take_of_le hk⟩

end GalaxyOS
