import GalaxyOS.Lib.Numeral
import GalaxyOS.Lib.Transition
import GalaxyOS.Libc.Arrays

/-! # `itoa` and `atoi` of the C library

`itoa` writes the digits from the lowest on, the sign behind them, and then turns the text around.
`printf` and `sprintf` hand it a buffer of 11 bytes, which a negative number of ten digits does not
fit, and the most negative number stays negative when it is negated.

`formats_iff` says for which numbers both are right in a buffer of 11 bytes.  `digitLoop_ok` and
`digitLoop_overrun` are the loop, `reverse_text` turns the digits around, and `itoa_decimal`,
`itoa_decimal_overrun` and `itoa_hex` are the whole function. -/

namespace GalaxyOS

open Transition Numeral

/-! ### The code -/

def swap (str : List UInt8) (a b : ℕ) : Except Fault (List UInt8) := do
  let temp ← arrayAt str a
  let other ← arrayAt str b
  let str ← setChar str a other
  setChar str b temp

/-- The loop of `reverse`; `end` goes down to `start`. -/
def reverseLoop (str : List UInt8) (start : ℕ) : ℕ → Except Fault (List UInt8)
  | 0 => .ok str
  | stop + 1 =>
      if start < stop + 1 then do
        let str ← swap str start (stop + 1)
        reverseLoop str (start + 1) stop
      else .ok str

/-- `reverse`. -/
def reverse (str : List UInt8) : ℕ → Except Fault (List UInt8)
  | 0 => .ok str
  | length + 1 => reverseLoop str 0 length

/-- The two loops over the digits: signed for base 10, unsigned for the others.  A round stores a
byte, so there are no more rounds than bytes. -/
def digitLoop {α : Type} [DecidableEq α] (zero : α) (digit : α → UInt8) (quot : α → α) :
    ℕ → α → List UInt8 → ℕ → Except Fault (List UInt8 × ℕ)
  | 0, _, _, _ => .error .timeout
  | fuel + 1, num, str, i =>
      if num = zero then .ok (str, i)
      else do
        let str ← setChar str i (digit num)
        digitLoop zero digit quot fuel (quot num) str (i + 1)

/-- `(rem > 9)? (rem-10) + 'a' : rem + '0'`. -/
def remChar (rem : Int32) : UInt8 :=
  (if rem > 9 then (rem - 10) + 0x61 else rem + 0x30).toUInt32.toUInt8

/-- The same of an unsigned remainder. -/
def truenumChar (rem : UInt32) : UInt8 :=
  (if rem > 9 then (rem - 10) + 0x61 else rem + 0x30).toUInt8

/-- The sign, the terminator and the order of the digits. -/
def itoaEnd (str : List UInt8) (i : ℕ) (isNegative : Bool) : Except Fault (List UInt8) := do
  let (str, i) ← if isNegative then (do
      let str ← setChar str i 0x2D
      .ok (str, i + 1)) else .ok (str, i)
  let str ← setChar str i 0
  reverse str i

/-- `itoa`, for a base other than `0`. -/
def itoa (num : Int32) (str : List UInt8) (base : Int32) : Except Fault (List UInt8) :=
  if num = 0 then do
    let str ← setChar str 0 0x30
    setChar str 1 0
  else do
    let isNegative := decide (base = 10 ∧ num < 0)
    let (str, i) ←
      if base = 10 then
        digitLoop 0 (fun num => remChar (num % base)) (fun num => num / base) (str.length + 1)
          (if num < 0 then -num else num) str 0
      else
        digitLoop 0 (fun truenum => truenumChar (truenum % base.toUInt32))
          (fun truenum => truenum / base.toUInt32) (str.length + 1) num.toUInt32 str 0
    itoaEnd str i isNegative

/-- The loop of `atoi`. -/
def atoiLoop : List UInt8 → Int32 → Except Fault Int32
  | [], _ => .error .overrun
  | c :: s, acum =>
      if c ≥ 0x30 ∧ c ≤ 0x39 then atoiLoop s (acum * 10 + (Int32.ofNat c.toNat - 48)) else .ok acum

/-- `atoi`. -/
def atoi (s : List UInt8) : Except Fault Int32 := do
  let first ← arrayAt s 0
  let factor : Int32 := if first = 0x2D then -1 else 1
  let acum ← atoiLoop (if first = 0x2D then s.tail else s) 0
  .ok (factor * acum)

/-! ### Turning a text around -/

variable {str : List UInt8}

/-- The ends of a stretch change places. -/
theorem swap_ends (pre mid rest : List UInt8) (x y : UInt8) :
    swap (pre ++ x :: (mid ++ y :: rest)) pre.length (pre.length + mid.length + 1) =
      .ok (pre ++ y :: (mid ++ x :: rest)) := by
  have hx := arrayAt_next pre x (mid ++ y :: rest)
  have hy := arrayAt_next (pre ++ x :: mid) y rest
  have hsetx := setChar_next pre x y (mid ++ y :: rest)
  have hsety := setChar_next (pre ++ y :: mid) y x rest
  simp only [List.append_assoc, List.cons_append, List.length_append, List.length_cons,
    ← Nat.add_assoc] at hy hsety
  unfold swap
  rw [hx, ok_bind, hy, ok_bind, hsetx, ok_bind, hsety]

theorem reverseLoop_stretch (mid pre rest : List UInt8) :
    reverseLoop (pre ++ (mid ++ rest)) pre.length (pre.length + mid.length - 1) =
      .ok (pre ++ (mid.reverse ++ rest)) := by
  induction mid using List.bidirectionalRec generalizing pre rest with
  | nil =>
      cases hstop : pre.length + ([] : List UInt8).length - 1 with
      | zero => rfl
      | succ stop =>
          unfold reverseLoop
          rw [List.length_nil] at hstop
          rw [if_neg (by omega)]
          rfl
  | singleton x =>
      cases hstop : pre.length + [x].length - 1 with
      | zero => rfl
      | succ stop =>
          unfold reverseLoop
          simp only [List.length_singleton] at hstop
          rw [if_neg (by omega)]
          rfl
  | cons_append x mid y ih =>
      have hstop : pre.length + (x :: (mid ++ [y])).length - 1 = pre.length + mid.length + 1 := by
        simp only [List.length_cons, List.length_append, List.length_nil]
        omega
      have hrest := ih (pre ++ [y]) (x :: rest)
      simp only [List.length_append, List.length_singleton, List.append_assoc,
        List.singleton_append] at hrest
      rw [hstop]
      unfold reverseLoop
      rw [if_pos (by omega)]
      simp only [List.cons_append, List.append_assoc, List.nil_append, List.reverse_cons,
        List.reverse_append]
      rw [swap_ends, ok_bind, show pre.length + mid.length = pre.length + 1 + mid.length - 1 by omega]
      exact hrest

/-- The text in front is turned around. -/
theorem reverse_text (text rest : List UInt8) :
    reverse (text ++ rest) text.length = .ok (text.reverse ++ rest) := by
  cases text with
  | nil => rfl
  | cons c text =>
      have hloop := reverseLoop_stretch (c :: text) [] rest
      simp only [List.nil_append, List.length_nil, Nat.zero_add, List.length_cons,
        Nat.add_sub_cancel] at hloop
      exact hloop

/-! ### The digits -/

/-- One round takes the lowest digit of `value num` off. -/
structure DigitStep {α : Type} (b : ℕ) (zero : α) (digit : α → UInt8) (quot : α → α)
    (value : α → ℕ) (Good : α → Prop) : Prop where
  zero_iff : ∀ num, Good num → (num = zero ↔ value num = 0)
  digit_eq : ∀ num, Good num → digit num = digitChar (value num % b)
  quot_eq : ∀ num, Good num → value (quot num) = value num / b
  quot_good : ∀ num, Good num → Good (quot num)

section

variable {α : Type} [DecidableEq α] {b fuel : ℕ} {zero : α} {digit : α → UInt8} {quot : α → α}
  {value : α → ℕ} {Good : α → Prop}

/-- The loop writes the digits, the lowest first. -/
theorem digitLoop_ok (hstep : DigitStep b zero digit quot value Good) (hb : 1 < b) (num : α)
    (hgood : Good num) (pre old rest : List UInt8) (hold : old.length = (digitChars b (value num)).length)
    (hfuel : old.length < fuel) :
    digitLoop zero digit quot fuel num (pre ++ (old ++ rest)) pre.length =
      .ok (pre ++ (digitChars b (value num) ++ rest), pre.length + old.length) := by
  induction fuel generalizing num pre old with
  | zero => exact absurd hfuel (Nat.not_lt_zero _)
  | succ fuel ih =>
      unfold digitLoop
      by_cases hzero : num = zero
      · rw [if_pos hzero]
        rw [(hstep.zero_iff num hgood).mp hzero, digitChars_zero] at hold ⊢
        rw [List.length_eq_zero_iff.mp hold]
        rfl
      · rw [if_neg hzero]
        have hpos : 0 < value num := Nat.pos_of_ne_zero (mt (hstep.zero_iff num hgood).mpr hzero)
        rw [digitChars_of_pos hb hpos] at hold ⊢
        obtain ⟨o, old, rfl⟩ := List.exists_cons_of_length_eq_add_one hold
        rw [List.length_cons, List.length_cons, Nat.add_right_cancel_iff] at hold
        rw [List.cons_append, setChar_next, ok_bind]
        have hrest := ih (quot num) (hstep.quot_good num hgood) (pre ++ [digit num]) old
          (by rw [hold, hstep.quot_eq num hgood])
          (Nat.lt_of_succ_lt_succ hfuel)
        rw [hstep.quot_eq num hgood, hstep.digit_eq num hgood] at hrest
        rw [hstep.digit_eq num hgood]
        simp only [List.append_assoc, List.singleton_append, List.length_append,
          List.length_singleton] at hrest
        rw [hrest, List.length_cons, List.cons_append, Nat.add_assoc, Nat.add_comm 1 old.length]

/-- Too many digits overrun the array. -/
theorem digitLoop_overrun (hstep : DigitStep b zero digit quot value Good) (hb : 1 < b) (num : α)
    (hgood : Good num) (pre old : List UInt8) (hold : old.length < (digitChars b (value num)).length)
    (hfuel : old.length < fuel) :
    digitLoop zero digit quot fuel num (pre ++ old) pre.length = .error .overrun := by
  induction fuel generalizing num pre old with
  | zero => exact absurd hfuel (Nat.not_lt_zero _)
  | succ fuel ih =>
      unfold digitLoop
      have hpos : 0 < value num := by
        apply Nat.pos_of_ne_zero
        intro hzero
        rw [hzero, digitChars_zero] at hold
        exact Nat.not_lt_zero _ hold
      have hzero : num ≠ zero := fun hzero =>
        Nat.ne_of_gt hpos ((hstep.zero_iff num hgood).mp hzero)
      rw [if_neg hzero]
      cases old with
      | nil =>
          rw [List.append_nil, setChar_overrun (Nat.le_refl _), error_bind]
      | cons o old =>
          rw [digitChars_of_pos hb hpos, List.length_cons, List.length_cons] at hold
          rw [setChar_next, ok_bind]
          have hrest := ih (quot num) (hstep.quot_good num hgood) (pre ++ [digit num]) old
            (by rw [hstep.quot_eq num hgood]; exact Nat.lt_of_succ_lt_succ hold)
            (Nat.lt_of_succ_lt_succ hfuel)
          simp only [List.append_assoc, List.singleton_append, List.length_append,
            List.length_singleton] at hrest
          exact hrest

end

theorem remChar_digit : ∀ d < 10, remChar (Int32.ofNat d) = digitChar d := by decide

theorem truenumChar_digit : ∀ d < 16, truenumChar (UInt32.ofNat d) = digitChar d := by decide

/-- The signed loop on a number that is not negative. -/
theorem digitStep_signed : DigitStep 10 (0 : Int32) (fun num => remChar (num % 10))
    (fun num => num / 10) (fun num => num.toInt.toNat) (fun num => 0 ≤ num.toInt) where
  zero_iff := by
    intro num hnum
    rw [← Int32.toInt_inj, Int32.toInt_zero]
    omega
  digit_eq := by
    intro num hnum
    have hrem : num % 10 = Int32.ofNat (num.toInt.toNat % 10) := by
      rw [← Int32.toInt_inj, Int32.toInt_mod, Int32.toInt_ofNat_of_lt (by omega)]
      rw [show (10 : Int32).toInt = 10 from rfl, Int.tmod_eq_emod_of_nonneg hnum]
      omega
    show remChar (num % 10) = _
    rw [hrem]
    exact remChar_digit _ (Nat.mod_lt _ (by decide))
  quot_eq := by
    intro num hnum
    have hlt := num.toInt_lt
    rw [Int32.toInt_div, show (10 : Int32).toInt = 10 from rfl, Int.tdiv_eq_ediv_of_nonneg hnum,
      Int.bmod_eq_of_le (by omega) (by omega)]
    omega
  quot_good := by
    intro num hnum
    have hlt := num.toInt_lt
    rw [Int32.toInt_div, show (10 : Int32).toInt = 10 from rfl, Int.tdiv_eq_ediv_of_nonneg hnum,
      Int.bmod_eq_of_le (by omega) (by omega)]
    omega

/-- The unsigned loop. -/
theorem digitStep_unsigned : DigitStep 16 (0 : UInt32) (fun truenum => truenumChar (truenum % 16))
    (fun truenum => truenum / 16) UInt32.toNat (fun _ => True) where
  zero_iff := by
    intro truenum _
    rw [← UInt32.toNat_inj, UInt32.toNat_zero]
  digit_eq := by
    intro truenum _
    have hrem : truenum % 16 = UInt32.ofNat (truenum.toNat % 16) := by
      have hlt : truenum.toNat % 16 < UInt32.size := by
        simp only [UInt32.size]
        omega
      rw [← UInt32.toNat_inj, UInt32.toNat_mod, UInt32.toNat_ofNat_of_lt' hlt]
      rfl
    show truenumChar (truenum % 16) = _
    rw [hrem]
    exact truenumChar_digit _ (Nat.mod_lt _ (by decide))
  quot_eq := fun truenum _ => UInt32.toNat_div truenum 16
  quot_good := fun _ _ => trivial

/-! ### `itoa` -/

/-- The decimal text of a number. -/
def decimalText (n : Int) : List UInt8 :=
  if n < 0 then 0x2D :: numeral 10 n.natAbs else numeral 10 n.natAbs

/-- The absolute value, which the most negative number does not have. -/
theorem abs_toInt {num : Int32} (hmin : num ≠ Int32.minValue) :
    (if num < 0 then -num else num).toInt = num.toInt.natAbs := by
  have hle := num.le_toInt
  have hlt := num.toInt_lt
  have hne : num.toInt ≠ -2147483648 := fun h => hmin (Int32.toInt_inj.mp h)
  by_cases hneg : num < 0
  · rw [if_pos hneg, Int32.toInt_neg]
    rw [Int32.lt_iff_toInt_lt, Int32.toInt_zero] at hneg
    rw [Int.bmod_eq_of_le (by omega) (by omega)]
    omega
  · rw [if_neg hneg]
    rw [Int32.lt_iff_toInt_lt, Int32.toInt_zero] at hneg
    omega

theorem itoa_zero (o o' : UInt8) (rest : List UInt8) (base : Int32) :
    itoa 0 (o :: o' :: rest) base = .ok (0x30 :: 0 :: rest) := rfl

/-- The digits of a signed number in an array. -/
theorem digits_signed {num : Int32} (hmin : num ≠ Int32.minValue) (old rest : List UInt8)
    (hold : old.length = (digitChars 10 num.toInt.natAbs).length) :
    digitLoop 0 (fun num => remChar (num % 10)) (fun num => num / 10) ((old ++ rest).length + 1)
        (if num < 0 then -num else num) (old ++ rest) 0 =
      .ok (digitChars 10 num.toInt.natAbs ++ rest, old.length) := by
  have habs := abs_toInt hmin
  have hloop := digitLoop_ok digitStep_signed (by decide) (if num < 0 then -num else num)
    (by rw [habs]; omega) [] old rest (by rw [habs]; exact hold)
    (show old.length < (old ++ rest).length + 1 by rw [List.length_append]; omega)
  simp only [habs, Int.toNat_natCast, List.nil_append, List.length_nil, Nat.zero_add] at hloop
  exact hloop

/-- Room for the terminator, and for the sign of a negative number. -/
theorem itoaEnd_ok (digits old rest : List UInt8) (isNegative : Bool)
    (hold : old.length = if isNegative then 2 else 1) :
    itoaEnd (digits ++ (old ++ rest)) digits.length isNegative =
      .ok ((if isNegative then 0x2D :: digits.reverse else digits.reverse) ++ 0 :: rest) := by
  unfold itoaEnd
  cases isNegative with
  | true =>
      obtain ⟨o, old, rfl⟩ := List.exists_cons_of_length_eq_add_one hold
      obtain ⟨o', old, rfl⟩ := List.exists_cons_of_length_eq_add_one (Nat.succ.inj hold)
      obtain rfl : old = [] := List.length_eq_zero_iff.mp (Nat.succ.inj (Nat.succ.inj hold))
      have hend := setChar_next (digits ++ [0x2D]) o' 0 rest
      have hreverse := reverse_text (digits ++ [0x2D]) (0 :: rest)
      simp only [List.append_assoc, List.singleton_append, List.length_append,
        List.length_singleton, List.reverse_append, List.reverse_singleton] at hend hreverse
      simp only [List.cons_append, List.nil_append, setChar_next, ok_bind, hend, hreverse, if_true]
  | false =>
      obtain ⟨o, old, rfl⟩ := List.exists_cons_of_length_eq_add_one hold
      obtain rfl : old = [] := List.length_eq_zero_iff.mp (Nat.succ.inj hold)
      have hreverse := reverse_text digits (0 :: rest)
      simp only [List.cons_append, List.nil_append, Bool.false_eq_true, if_false, ok_bind,
        setChar_next, hreverse]

theorem itoaEnd_overrun (digits old : List UInt8) (isNegative : Bool)
    (hold : old.length < if isNegative then 2 else 1) :
    itoaEnd (digits ++ old) digits.length isNegative = .error .overrun := by
  unfold itoaEnd
  cases isNegative with
  | true =>
      cases old with
      | nil =>
          rw [if_pos rfl, List.append_nil, setChar_overrun (Nat.le_refl _)]
          rfl
      | cons o old =>
          obtain rfl : old = [] := by
            apply List.length_eq_zero_iff.mp
            rw [if_pos rfl, List.length_cons] at hold
            omega
          rw [if_pos rfl, setChar_next]
          simp only [ok_bind]
          rw [setChar_overrun (by simp), error_bind]
  | false =>
      obtain rfl : old = [] := by
        apply List.length_eq_zero_iff.mp
        rw [if_neg Bool.false_ne_true] at hold
        omega
      rw [if_neg Bool.false_ne_true, List.append_nil]
      simp only [ok_bind]
      rw [setChar_overrun (Nat.le_refl _), error_bind]

/-- The text of a number that is not zero. -/
theorem decimalText_digits {num : Int32} (hzero : num ≠ 0) : decimalText num.toInt =
    if decide (num < 0) then 0x2D :: (digitChars 10 num.toInt.natAbs).reverse
    else (digitChars 10 num.toInt.natAbs).reverse := by
  have hne : num.toInt ≠ 0 := fun h => hzero (Int32.toInt_inj.mp h)
  have hpos : num.toInt.natAbs ≠ 0 := by omega
  unfold decimalText numeral
  rw [if_neg hpos]
  simp only [decide_eq_true_eq, Int32.lt_iff_toInt_lt, Int32.toInt_zero]

/-- What is left of `itoa` in base 10 for a number that is not zero. -/
theorem itoa_of_ne_zero {num : Int32} (hzero : num ≠ 0) (str : List UInt8) : itoa num str 10 =
    digitLoop 0 (fun num => remChar (num % 10)) (fun num => num / 10) (str.length + 1)
      (if num < 0 then -num else num) str 0 >>= fun p => itoaEnd p.1 p.2 (decide (num < 0)) := by
  unfold itoa
  rw [if_neg hzero]
  simp only [if_true, true_and]

/-- `itoa` in base 10, for an array with enough room. -/
theorem itoa_decimal {num : Int32} (hmin : num ≠ Int32.minValue) (old rest : List UInt8)
    (hold : old.length = (decimalText num.toInt).length + 1) :
    itoa num (old ++ rest) 10 = .ok (decimalText num.toInt ++ 0 :: rest) := by
  by_cases hzero : num = 0
  · subst hzero
    obtain ⟨o, old, rfl⟩ := List.exists_cons_of_length_eq_add_one hold
    obtain ⟨o', old, rfl⟩ := List.exists_cons_of_length_eq_add_one (Nat.succ.inj hold)
    obtain rfl : old = [] := List.length_eq_zero_iff.mp (Nat.succ.inj (Nat.succ.inj hold))
    exact itoa_zero o o' rest 10
  · rw [decimalText_digits hzero] at hold ⊢
    -- the first bytes take the digits, the others the sign and the terminator
    have hdigits : (digitChars 10 num.toInt.natAbs).length ≤ old.length := by
      rw [hold]
      split_ifs
      all_goals simp only [List.length_cons, List.length_reverse]
      all_goals omega
    obtain ⟨first, last, rfl, hfirst⟩ := exists_split _ hdigits
    have hlast : last.length = if decide (num < 0) then 2 else 1 := by
      rw [List.length_append, hfirst] at hold
      split_ifs at hold ⊢
      all_goals simp only [List.length_cons, List.length_reverse] at hold
      all_goals omega
    rw [itoa_of_ne_zero hzero, List.append_assoc, digits_signed hmin first (last ++ rest) hfirst,
      ok_bind, hfirst]
    exact itoaEnd_ok _ last rest _ hlast

/-- `itoa` in base 10 runs out of an array that is too short. -/
theorem itoa_decimal_overrun {num : Int32} (hmin : num ≠ Int32.minValue) {str : List UInt8}
    (hstr : str.length ≤ (decimalText num.toInt).length) : itoa num str 10 = .error .overrun := by
  by_cases hzero : num = 0
  · subst hzero
    cases str with
    | nil => rfl
    | cons o str =>
        have hnil : str.length = 0 := Nat.le_zero.mp (Nat.le_of_succ_le_succ hstr)
        obtain rfl : str = [] := List.length_eq_zero_iff.mp hnil
        rfl
  · rw [decimalText_digits hzero] at hstr
    rw [itoa_of_ne_zero hzero]
    by_cases hdigits : str.length < (digitChars 10 num.toInt.natAbs).length
    · have habs := abs_toInt hmin
      have hloop := digitLoop_overrun digitStep_signed (by decide) (if num < 0 then -num else num)
        (by rw [habs]; omega) [] str
        (by simp only [habs, Int.toNat_natCast]; exact hdigits) (Nat.lt_succ_self _)
      rw [List.nil_append, List.length_nil] at hloop
      rw [hloop, error_bind]
    · obtain ⟨first, last, rfl, hfirst⟩ := exists_split _ (Nat.le_of_not_lt hdigits)
      have hlast : last.length < if decide (num < 0) then 2 else 1 := by
        rw [List.length_append, hfirst] at hstr
        split_ifs at hstr ⊢
        all_goals simp only [List.length_cons, List.length_reverse] at hstr
        all_goals omega
      rw [digits_signed hmin first last hfirst, ok_bind, hfirst]
      exact itoaEnd_overrun _ last _ hlast

/-- `itoa` in base 16. -/
theorem itoa_hex (num : Int32) (old rest : List UInt8)
    (hold : old.length = (numeral 16 num.toUInt32.toNat).length + 1) :
    itoa num (old ++ rest) 16 = .ok (numeral 16 num.toUInt32.toNat ++ 0 :: rest) := by
  by_cases hzero : num = 0
  · subst hzero
    obtain ⟨o, old, rfl⟩ := List.exists_cons_of_length_eq_add_one hold
    obtain ⟨o', old, rfl⟩ := List.exists_cons_of_length_eq_add_one (Nat.succ.inj hold)
    obtain rfl : old = [] := List.length_eq_zero_iff.mp (Nat.succ.inj (Nat.succ.inj hold))
    exact itoa_zero o o' rest 16
  · have hpos : num.toUInt32.toNat ≠ 0 := by
      intro h
      apply hzero
      exact congrArg UInt32.toInt32 (UInt32.toNat_inj.mp h)
    unfold numeral at hold ⊢
    rw [if_neg hpos] at hold ⊢
    rw [List.length_reverse] at hold
    obtain ⟨first, last, rfl, hfirst⟩ :=
      exists_split old (k := (digitChars 16 num.toUInt32.toNat).length) (by omega)
    rw [List.length_append, hfirst, Nat.add_left_cancel_iff] at hold
    have hfuel : first.length < (first ++ last ++ rest).length + 1 := by
      simp only [List.length_append]
      omega
    have hloop := digitLoop_ok digitStep_unsigned (by decide) num.toUInt32 trivial [] first
      (last ++ rest) hfirst hfuel
    rw [List.nil_append, List.nil_append, List.length_nil, Nat.zero_add,
      ← List.append_assoc first] at hloop
    unfold itoa
    rw [if_neg hzero, if_neg (by decide)]
    have hbase : (16 : Int32).toUInt32 = 16 := rfl
    simp only [hbase, hloop, ok_bind, hfirst]
    exact itoaEnd_ok _ last rest false hold

/-! ### `atoi` -/

theorem atoi_digit : ∀ d < 10, digitChar d ≥ 0x30 ∧ digitChar d ≤ 0x39 ∧
    Int32.ofNat (digitChar d).toNat - 48 = Int32.ofNat (digitValue (digitChar d)) := by decide

/-- The loop reads digits up to the terminator, in the arithmetic of `int`. -/
theorem atoiLoop_digits {s : List UInt8} (hs : ∀ c ∈ s, ∃ d < 10, c = digitChar d) (v : ℕ)
    (rest : List UInt8) :
    atoiLoop (s ++ 0 :: rest) (Int32.ofNat v) = .ok (Int32.ofNat (readDigits 10 v s)) := by
  induction s generalizing v with
  | nil => rfl
  | cons c s ih =>
      obtain ⟨d, hd, rfl⟩ := hs c (List.mem_cons_self ..)
      obtain ⟨hlow, hhigh, hvalue⟩ := atoi_digit d hd
      rw [List.cons_append, readDigits_cons]
      unfold atoiLoop
      rw [if_pos ⟨hlow, hhigh⟩, hvalue, ← ih fun c hc => hs c (List.mem_cons_of_mem _ hc)]
      rw [Int32.ofNat_add, Int32.ofNat_mul]
      rfl

/-- `s` is the decimal text of `n`. -/
def IsDecimal (n : Int) (s : List UInt8) : Prop :=
  ∃ digits, IsNumeral 10 digits n.natAbs ∧ s = if n < 0 then 0x2D :: digits else digits

theorem isDecimal_decimalText (n : Int) : IsDecimal n (decimalText n) :=
  ⟨numeral 10 n.natAbs, isNumeral_numeral (by decide) (by decide) _, rfl⟩

theorem decimalText_zero_notMem (n : Int) : 0 ∉ decimalText n := by
  have hnumeral : IsNumeral 10 (numeral 10 n.natAbs) n.natAbs :=
    isNumeral_numeral (by decide) (by decide) _
  have hzero := hnumeral.zero_notMem (by decide)
  unfold decimalText
  split_ifs
  · rw [List.mem_cons, not_or]
    exact ⟨by decide, hzero⟩
  · exact hzero

/-- `atoi` reads a decimal text back. -/
theorem atoi_decimal {num : Int32} {s : List UInt8} (hs : IsDecimal num.toInt s) (rest : List UInt8) :
    atoi (s ++ 0 :: rest) = .ok num := by
  obtain ⟨digits, hnumeral, rfl⟩ := hs
  have hloop := atoiLoop_digits hnumeral.digits 0 rest
  have hvalue : readDigits 10 0 digits = num.toInt.natAbs := hnumeral.value
  rw [hvalue] at hloop
  have hzero : (0 : Int32) = Int32.ofNat 0 := rfl
  unfold atoi
  by_cases hneg : num.toInt < 0
  · rw [if_pos hneg]
    have hfirst : arrayAt (0x2D :: digits ++ 0 :: rest) 0 = .ok 0x2D := rfl
    rw [hfirst, ok_bind, if_pos rfl, if_pos rfl, List.cons_append, List.tail_cons, hzero, hloop,
      ok_bind]
    congr 1
    rw [← Int32.ofInt_eq_ofNat, show (-1 : Int32) = Int32.ofInt (-1) from rfl, ← Int32.ofInt_mul]
    rw [show -1 * (num.toInt.natAbs : Int) = num.toInt by omega, Int32.ofInt_toInt]
  · rw [if_neg hneg]
    obtain ⟨c, digits, rfl⟩ := List.exists_cons_of_ne_nil hnumeral.nonempty
    obtain ⟨d, hd, rfl⟩ := hnumeral.digits c (List.mem_cons_self ..)
    have hfirst : arrayAt (digitChar d :: digits ++ 0 :: rest) 0 = .ok (digitChar d) := rfl
    have hsign : digitChar d ≠ 0x2D := by
      intro h
      have hlow := (atoi_digit d hd).1
      rw [h] at hlow
      exact absurd hlow (by decide)
    rw [hfirst, ok_bind, if_neg hsign, if_neg hsign, hzero, hloop, ok_bind]
    congr 1
    rw [← Int32.ofInt_eq_ofNat, show (1 : Int32) = Int32.ofInt 1 from rfl, ← Int32.ofInt_mul]
    rw [show 1 * (num.toInt.natAbs : Int) = num.toInt by omega, Int32.ofInt_toInt]

/-! ### The buffer of `printf` and `sprintf` -/

/-- The texts that leave room for the terminator. -/
theorem decimalText_length_le {n : Int} (hlow : -1000000000 < n) (hhigh : n < 10000000000) :
    (decimalText n).length ≤ 10 := by
  unfold decimalText
  by_cases hneg : n < 0
  · rw [if_pos hneg, List.length_cons]
    apply Nat.succ_le_succ
    apply numeral_length_le (by decide) (by decide)
    simp only [Nat.reducePow]
    omega
  · rw [if_neg hneg]
    apply numeral_length_le (by decide) (by decide)
    simp only [Nat.reducePow]
    omega

theorem le_decimalText_length {n : Int} (hlow : n ≤ -1000000000) : 11 ≤ (decimalText n).length := by
  unfold decimalText
  rw [if_pos (by omega), List.length_cons]
  apply Nat.succ_le_succ
  apply lt_numeral_length (by decide)
  simp only [Nat.reducePow]
  omega

/-- The most negative number stays negative, and overruns the buffer too. -/
theorem itoa_minValue {buf : List UInt8} (hbuf : buf.length = 11) :
    itoa Int32.minValue buf 10 = .error .overrun := by
  -- the contents of the buffer do not matter, but the computation has to see its eleven bytes
  iterate 11
    obtain ⟨_, buf, rfl⟩ := List.exists_cons_of_length_eq_add_one hbuf
    replace hbuf := Nat.succ.inj hbuf
  obtain rfl : buf = [] := List.length_eq_zero_iff.mp hbuf
  rfl

/-- What the formatting of a number is to do in a buffer. -/
structure Formats (num : Int32) (buf : List UInt8) : Prop where
  decimal : ∃ s rest, itoa num buf 10 = .ok (s ++ 0 :: rest) ∧ IsDecimal num.toInt s ∧
    atoi (s ++ 0 :: rest) = .ok num
  hex : ∃ s rest, itoa num buf 16 = .ok (s ++ 0 :: rest) ∧ IsNumeral 16 s num.toUInt32.toNat

/-- In base 10 the 11 bytes suffice for the numbers above `-1000000000`, and for no others. -/
theorem itoa_buffer (num : Int32) {buf : List UInt8} (hbuf : buf.length = 11) :
    (-1000000000 < num.toInt ∧ ∃ rest, itoa num buf 10 = .ok (decimalText num.toInt ++ 0 :: rest) ∧
      (decimalText num.toInt ++ 0 :: rest).length = 11) ∨
    (num.toInt ≤ -1000000000 ∧ itoa num buf 10 = .error .overrun) := by
  by_cases hlow : -1000000000 < num.toInt
  · have hlt := num.toInt_lt
    have hfits := decimalText_length_le hlow (by omega)
    have hmin : num ≠ Int32.minValue := by
      rintro rfl
      exact absurd hlow (by decide)
    obtain ⟨old, rest, rfl, hold⟩ :=
      exists_split buf (k := (decimalText num.toInt).length + 1) (by omega)
    refine .inl ⟨hlow, rest, itoa_decimal hmin old rest hold, ?_⟩
    rw [List.length_append] at hbuf ⊢
    rw [List.length_cons]
    omega
  · refine .inr ⟨by omega, ?_⟩
    by_cases hmin : num = Int32.minValue
    · rw [hmin]
      exact itoa_minValue hbuf
    · apply itoa_decimal_overrun hmin
      rw [hbuf]
      exact le_decimalText_length (by omega)

/-- In base 16 they always suffice. -/
theorem itoa_buffer_hex (num : Int32) {buf : List UInt8} (hbuf : buf.length = 11) :
    ∃ rest, itoa num buf 16 = .ok (numeral 16 num.toUInt32.toNat ++ 0 :: rest) ∧
      (numeral 16 num.toUInt32.toNat ++ 0 :: rest).length = 11 := by
  have hlt := num.toUInt32.toNat_lt
  have hfits : (numeral 16 num.toUInt32.toNat).length ≤ 8 :=
    numeral_length_le (by decide) (by decide) hlt
  obtain ⟨old, rest, rfl, hold⟩ :=
    exists_split buf (k := (numeral 16 num.toUInt32.toNat).length + 1) (by omega)
  refine ⟨rest, itoa_hex num old rest hold, ?_⟩
  rw [List.length_append] at hbuf ⊢
  rw [List.length_cons]
  omega

/-- A number is formatted in the buffer of `printf` and `sprintf`, and read back, exactly if it is
above `-1000000000`. -/
theorem formats_iff (num : Int32) (buf : Vector UInt8 11) :
    Formats num buf.toList ↔ -1000000000 < num.toInt := by
  constructor
  · intro hformats
    cases itoa_buffer num buf.length_toList with
    | inl hfits => exact hfits.1
    | inr hover =>
        obtain ⟨s, rest, hrun, -⟩ := hformats.decimal
        rw [hover.2] at hrun
        cases hrun
  · intro hlow
    obtain ⟨hexRest, hhex, -⟩ := itoa_buffer_hex num buf.length_toList
    cases itoa_buffer num buf.length_toList with
    | inl hfits =>
        obtain ⟨-, rest, hrun, -⟩ := hfits
        have hdecimal := isDecimal_decimalText num.toInt
        exact
          { decimal := ⟨_, rest, hrun, hdecimal, atoi_decimal hdecimal rest⟩
            hex := ⟨_, hexRest, hhex, isNumeral_numeral (by decide) (by decide) _⟩ }
    | inr hover => exact absurd hlow (Int.not_lt.mpr hover.1)

/-- The first number with ten digits and a sign writes its terminator behind the buffer. -/
theorem tenDigits_overrun : ¬Formats (-1000000000) (List.replicate 11 0) := by
  rintro ⟨⟨s, rest, hrun, -⟩, -⟩
  have hover : itoa (-1000000000) (List.replicate 11 0) 10 = .error .overrun := by decide
  rw [hover] at hrun
  cases hrun

end GalaxyOS
