import Mathlib.Data.Nat.Digits.Lemmas

/-! # Numerals

The numeral of a number in a base is the text of its digits, the highest first and without zeros in
front.  Digits above `9` are small letters.

`isNumeral_numeral` says that the text is the numeral, and `digitChars_length_le` and
`lt_digitChars_length` how long it is. -/

namespace Numeral

variable {b m : ℕ}

/-- The character of a digit. -/
def digitChar (d : ℕ) : UInt8 := UInt8.ofNat (if d > 9 then (d - 10) + 0x61 else d + 0x30)

/-- The digit of a character. -/
def digitValue (c : UInt8) : ℕ := if c.toNat ≥ 0x61 then c.toNat - 0x61 + 10 else c.toNat - 0x30

/-- The number that follows from `v` when the digits of `s` are read. -/
def readDigits (b v : ℕ) (s : List UInt8) : ℕ := s.foldl (fun v c => v * b + digitValue c) v

/-- The number that `s` denotes in base `b`. -/
def numeralValue (b : ℕ) (s : List UInt8) : ℕ := readDigits b 0 s

/-- The characters of the digits, the lowest first; none for `0`. -/
def digitChars (b m : ℕ) : List UInt8 := (Nat.digits b m).map digitChar

/-- The numeral of `m`. -/
def numeral (b m : ℕ) : List UInt8 := if m = 0 then [digitChar 0] else (digitChars b m).reverse

theorem digitChar_toNat {d : ℕ} (hd : d < 16) :
    (digitChar d).toNat = if d > 9 then (d - 10) + 0x61 else d + 0x30 := by
  unfold digitChar
  apply UInt8.toNat_ofNat_of_lt'
  split_ifs
  all_goals simp only [UInt8.size]
  all_goals omega

theorem digitValue_digitChar {d : ℕ} (hd : d < 16) : digitValue (digitChar d) = d := by
  unfold digitValue
  rw [digitChar_toNat hd]
  split_ifs
  all_goals omega

@[simp] theorem digitChars_zero (b : ℕ) : digitChars b 0 = [] := by
  simp only [digitChars, Nat.digits_zero, List.map_nil]

theorem digitChars_of_pos (hb : 1 < b) (hm : 0 < m) :
    digitChars b m = digitChar (m % b) :: digitChars b (m / b) := by
  unfold digitChars
  rw [Nat.digits_def' hb hm, List.map_cons]

/-- A number below `b ^ k` has at most `k` digits. -/
theorem digitChars_length_le {k : ℕ} (hb : 1 < b) (hm : m < b ^ k) : (digitChars b m).length ≤ k := by
  unfold digitChars
  rw [List.length_map]
  exact (Nat.digits_length_le_iff hb m).mpr hm

/-- A number from `b ^ k` on has more than `k` digits. -/
theorem lt_digitChars_length {k : ℕ} (hb : 1 < b) (hm : b ^ k ≤ m) : k < (digitChars b m).length := by
  unfold digitChars
  rw [List.length_map]
  exact (Nat.lt_digits_length_iff hb m).mpr hm

theorem digitChars_ne_nil (hm : m ≠ 0) : digitChars b m ≠ [] := by
  unfold digitChars
  rw [ne_eq, List.map_eq_nil_iff]
  exact Nat.digits_ne_nil_iff_ne_zero.mpr hm

theorem readDigits_append (b v : ℕ) (s t : List UInt8) :
    readDigits b v (s ++ t) = readDigits b (readDigits b v s) t := List.foldl_append

theorem readDigits_cons (b v : ℕ) (c : UInt8) (s : List UInt8) :
    readDigits b v (c :: s) = readDigits b (v * b + digitValue c) s := rfl

theorem numeralValue_digitChars (hb : 1 < b) (hb' : b ≤ 16) (m : ℕ) :
    numeralValue b (digitChars b m).reverse = m := by
  induction m using Nat.strongRecOn with
  | ind m ih =>
      by_cases hm : m = 0
      · rw [hm, digitChars_zero]
        rfl
      · have hpos : 0 < m := Nat.pos_of_ne_zero hm
        have hdigit : m % b < 16 := Nat.lt_of_lt_of_le (Nat.mod_lt m (by omega)) hb'
        unfold numeralValue at ih ⊢
        rw [digitChars_of_pos hb hpos, List.reverse_cons, readDigits_append,
          ih (m / b) (Nat.div_lt_self hpos hb), readDigits_cons, digitValue_digitChar hdigit]
        exact Nat.div_add_mod' m b

theorem numeral_length_le {k : ℕ} (hb : 1 < b) (hk : 1 ≤ k) (hm : m < b ^ k) :
    (numeral b m).length ≤ k := by
  unfold numeral
  by_cases hzero : m = 0
  · rw [if_pos hzero]
    exact hk
  · rw [if_neg hzero, List.length_reverse]
    exact digitChars_length_le hb hm

theorem lt_numeral_length {k : ℕ} (hb : 1 < b) (hm : b ^ k ≤ m) : k < (numeral b m).length := by
  have hpos : 0 < b ^ k := Nat.pow_pos (Nat.lt_of_succ_lt hb)
  unfold numeral
  rw [if_neg (by omega), List.length_reverse]
  exact lt_digitChars_length hb hm

/-! ### Numerals in general -/

/-- `s` is the numeral of `m` in base `b`. -/
structure IsNumeral (b : ℕ) (s : List UInt8) (m : ℕ) : Prop where
  digits : ∀ c ∈ s, ∃ d < b, c = digitChar d
  value : numeralValue b s = m
  nonempty : s ≠ []
  /-- There is no zero in front of another digit. -/
  canonical : s.head? = some (digitChar 0) → s = [digitChar 0]

theorem isNumeral_zero (hb : 1 < b) : IsNumeral b [digitChar 0] 0 where
  digits := by
    intro c hc
    exact ⟨0, Nat.lt_of_succ_lt hb, List.mem_singleton.mp hc⟩
  value := by
    unfold numeralValue
    rw [readDigits_cons, Nat.zero_mul, digitValue_digitChar (by decide)]
    rfl
  nonempty := List.cons_ne_nil _ _
  canonical := fun _ => rfl

/-- The highest digit of a positive number is not zero. -/
theorem head_digitChars (hb : 1 < b) (hb' : b ≤ 16) (hm : m ≠ 0) :
    (digitChars b m).reverse.head? ≠ some (digitChar 0) := by
  rw [List.head?_reverse]
  unfold digitChars
  rw [List.getLast?_map]
  have hne : Nat.digits b m ≠ [] := Nat.digits_ne_nil_iff_ne_zero.mpr hm
  rw [List.getLast?_eq_some_getLast hne, Option.map_some]
  intro hzero
  apply Nat.getLast_digit_ne_zero b hm
  have hlt : (Nat.digits b m).getLast hne < 16 :=
    Nat.lt_of_lt_of_le (Nat.digits_lt_base hb (List.getLast_mem hne)) hb'
  calc (Nat.digits b m).getLast hne
      = digitValue (digitChar ((Nat.digits b m).getLast hne)) := (digitValue_digitChar hlt).symm
    _ = digitValue (digitChar 0) := congrArg digitValue (Option.some.inj hzero)
    _ = 0 := digitValue_digitChar (by decide)

theorem isNumeral_digitChars (hb : 1 < b) (hb' : b ≤ 16) (hm : m ≠ 0) :
    IsNumeral b (digitChars b m).reverse m where
  digits := by
    intro c hc
    rw [List.mem_reverse] at hc
    unfold digitChars at hc
    obtain ⟨d, hd, rfl⟩ := List.mem_map.mp hc
    exact ⟨d, Nat.digits_lt_base hb hd, rfl⟩
  value := numeralValue_digitChars hb hb' m
  nonempty := fun hnil => digitChars_ne_nil hm (List.reverse_eq_nil_iff.mp hnil)
  canonical := fun hzero => absurd hzero (head_digitChars hb hb' hm)

/-- The numeral of a number. -/
theorem isNumeral_numeral (hb : 1 < b) (hb' : b ≤ 16) (m : ℕ) : IsNumeral b (numeral b m) m := by
  unfold numeral
  by_cases hm : m = 0
  · rw [if_pos hm, hm]
    exact isNumeral_zero hb
  · rw [if_neg hm]
    exact isNumeral_digitChars hb hb' hm

theorem digitChar_ne_zero {d : ℕ} (hd : d < 16) : digitChar d ≠ 0 := by
  intro hzero
  have htoNat := digitChar_toNat hd
  rw [hzero, UInt8.toNat_zero] at htoNat
  split_ifs at htoNat

/-- No character of a numeral is a terminator. -/
theorem IsNumeral.zero_notMem {s : List UInt8} (h : IsNumeral b s m) (hb' : b ≤ 16) : 0 ∉ s := by
  intro hmem
  obtain ⟨d, hd, hzero⟩ := h.digits 0 hmem
  exact digitChar_ne_zero (Nat.lt_of_lt_of_le hd hb') hzero.symm

end Numeral
