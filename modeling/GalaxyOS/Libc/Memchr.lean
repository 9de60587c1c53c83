import GalaxyOS.Lib.Transition
import GalaxyOS.Mem.Paging

/-! # `memchr` of the C library

`memchr` compares single bytes up to a multiple of four, skips four bytes at a time as long as a
test of the whole word says that none of them can match, and compares single bytes again.  The test
may report a match that is not there, but it never misses one (`mayMatch_of_byte`), so the position
and the count that the three loops hand on describe the same bytes.

`memchr_result` is the theorem; `memchrAlign_result`, `memchrWords_result` and `memchrTail_result` are
the three loops. -/

namespace GalaxyOS

open Transition

/-- The memory of a program: the byte at an address, if it can be read. -/
abbrev ReadableMem := ℕ → Option UInt8

variable {mem : ReadableMem} {target : UInt8} {p n : ℕ}

/-! ### The code -/

/-- `*p`; a page fault if the byte cannot be read. -/
def loadByte (mem : ReadableMem) (p : ℕ) : Except Fault UInt8 :=
  match mem p with
  | none => .error .wildAccess
  | some b => .ok b

/-- Four bytes as a word, the lowest first. -/
def wordOf (b₀ b₁ b₂ b₃ : UInt8) : BitVec 32 :=
  b₃.toBitVec ++ b₂.toBitVec ++ b₁.toBitVec ++ b₀.toBitVec

/-- `*word_ptr`, at a multiple of four. -/
def loadWord (mem : ReadableMem) (p : ℕ) : Except Fault (BitVec 32) := do
  let b₀ ← loadByte mem p
  let b₁ ← loadByte mem (p + 1)
  let b₂ ← loadByte mem (p + 2)
  let b₃ ← loadByte mem (p + 3)
  .ok (wordOf b₀ b₁ b₂ b₃)

/-- `(unsigned char)c`. -/
def uchar (c : Int) : UInt8 := UInt8.ofNat (c % 0x100).toNat

/-- The loop that fills `mask`, with `n` rounds left. -/
def fillMask (target : UInt8) (mask : BitVec 32) : ℕ → BitVec 32
  | 0 => mask
  | n + 1 => fillMask target ((mask <<< 8) ||| target.toBitVec.setWidth 32) n

def lowBits : BitVec 32 := BitVec.allOnes 32 / 0xff#32

def highBits : BitVec 32 := BitVec.allOnes 32 / 0xff#32 * 0x80#32

/-- The test of a word, a byte of which is zero where the bytes agree. -/
def mayMatch (word : BitVec 32) : Bool := ((word - lowBits) &&& ~~~word &&& highBits) != 0#32

/-- The loop up to a multiple of four: where it stands, or what it returns. -/
def memchrAlign (mem : ReadableMem) (target : UInt8) (p : ℕ) : ℕ → Except Fault ((ℕ × ℕ) ⊕ ℕ)
  | 0 => if p % 4 = 0 then .ok (.inl (p, 0)) else .ok (.inr 0)
  | n + 1 =>
      if p % 4 = 0 then .ok (.inl (p, n + 1))
      else do
        let b ← loadByte mem p
        if b = target then .ok (.inr p) else memchrAlign mem target (wrap32 (p + 1)) n

/-- The loop over the words. -/
def memchrWords (mem : ReadableMem) (mask : BitVec 32) (p : ℕ) : ℕ → Except Fault (ℕ × ℕ)
  | n + 4 => do
      let word ← loadWord mem p
      if mayMatch (word ^^^ mask) then .ok (p, n + 4)
      else memchrWords mem mask (wrap32 (p + 4)) n
  | n => .ok (p, n)

/-- The last loop. -/
def memchrTail (mem : ReadableMem) (target : UInt8) (p : ℕ) : ℕ → Except Fault ℕ
  | 0 => .ok 0
  | n + 1 => do
      let b ← loadByte mem p
      if b = target then .ok p else memchrTail mem target (wrap32 (p + 1)) n

/-- `memchr`; `0` stands for `NULL`. -/
def memchr (mem : ReadableMem) (s : ℕ) (c : Int) (n : ℕ) : Except Fault ℕ := do
  let target := uchar c
  let aligned ← memchrAlign mem target s n
  match aligned with
  | .inr r => .ok r
  | .inl (p, n) =>
      if n ≥ 4 then do
        let (p, n) ← memchrWords mem (fillMask target 0 4) p n
        memchrTail mem target p n
      else memchrTail mem target p n

/-! ### The test of a word -/

theorem lowBits_eq : lowBits = 0x01010101#32 := by decide

theorem highBits_eq : highBits = 0x80808080#32 := by decide

/-- A byte that is zero is found: the lowest one cannot have lent to the bytes below it. -/
theorem mayMatch_of_byte {w : BitVec 32}
    (h : w.toNat % 0x100 = 0 ∨ w.toNat / 0x100 % 0x100 = 0 ∨ w.toNat / 0x10000 % 0x100 = 0 ∨
      w.toNat / 0x1000000 = 0) : mayMatch w = true := by
  unfold mayMatch
  rw [lowBits_eq, highBits_eq, bne_iff_ne]
  intro hzero
  -- the highest bit of a byte is clear in `w - lowBits` or set in `w`
  have hbit : ∀ i < 32, (0x80808080#32).getLsbD i = true →
      (w - 0x01010101#32).getLsbD i = true → w.getLsbD i = true := by
    intro i hi hhigh hsub
    have hbit := congrArg (fun v => v.getLsbD i) hzero
    simp only [BitVec.getLsbD_and, BitVec.getLsbD_not, hhigh, hsub, hi, BitVec.getLsbD_zero,
      Bool.and_true, decide_true, Bool.true_and, Bool.not_eq_false'] at hbit
    exact hbit
  have h7 := hbit 7 (by decide) (by decide)
  have h15 := hbit 15 (by decide) (by decide)
  have h23 := hbit 23 (by decide) (by decide)
  have h31 := hbit 31 (by decide) (by decide)
  simp only [BitVec.getLsbD, BitVec.toNat_sub, Nat.testBit_eq_decide_div_mod_eq, decide_eq_true_eq,
    Nat.reducePow, BitVec.reduceToNat] at h7 h15 h23 h31
  have hlt := w.isLt
  simp only [Nat.reducePow] at hlt
  omega

theorem wordOf_toNat (b₀ b₁ b₂ b₃ : UInt8) : (wordOf b₀ b₁ b₂ b₃).toNat =
    b₀.toNat + 0x100 * b₁.toNat + 0x10000 * b₂.toNat + 0x1000000 * b₃.toNat := by
  have hbyte : ∀ (v : ℕ) (b : UInt8), v <<< 8 ||| b.toNat = v * 0x100 + b.toNat := by
    intro v b
    rw [← Nat.shiftLeft_add_eq_or_of_lt b.toNat_lt, Nat.shiftLeft_eq]
  unfold wordOf
  simp only [BitVec.toNat_append, hbyte, UInt8.toNat_toBitVec]
  omega

theorem fillMask_toBitVec : ∀ t : BitVec 8,
    fillMask ⟨t⟩ 0 4 = (t ++ t ++ t ++ t : BitVec 32) := by decide +kernel

theorem fillMask_eq (target : UInt8) : fillMask target 0 4 = wordOf target target target target :=
  fillMask_toBitVec target.toBitVec

theorem wordOf_xor (b₀ b₁ b₂ b₃ t : UInt8) : wordOf b₀ b₁ b₂ b₃ ^^^ wordOf t t t t =
    wordOf (b₀ ^^^ t) (b₁ ^^^ t) (b₂ ^^^ t) (b₃ ^^^ t) := by
  refine (BitVec.xor_append).trans (congrArg (· ++ (b₀ ^^^ t).toBitVec) ?_)
  refine (BitVec.xor_append).trans (congrArg (· ++ (b₁ ^^^ t).toBitVec) ?_)
  exact BitVec.xor_append

/-- A word that the test skips has no byte that matches. -/
theorem no_match {b₀ b₁ b₂ b₃ t : UInt8}
    (h : ¬mayMatch (wordOf b₀ b₁ b₂ b₃ ^^^ fillMask t 0 4) = true) :
    b₀ ≠ t ∧ b₁ ≠ t ∧ b₂ ≠ t ∧ b₃ ≠ t := by
  rw [fillMask_eq, wordOf_xor] at h
  have hbytes := mt mayMatch_of_byte h
  rw [wordOf_toNat] at hbytes
  have hxor : ∀ b : UInt8, (b ^^^ t).toNat ≠ 0 → b ≠ t := by
    rintro b hb rfl
    exact hb (by rw [UInt8.xor_self]; rfl)
  have h0 := (b₀ ^^^ t).toNat_lt
  have h1 := (b₁ ^^^ t).toNat_lt
  have h2 := (b₂ ^^^ t).toNat_lt
  have h3 := (b₃ ^^^ t).toNat_lt
  exact ⟨hxor b₀ (by omega), hxor b₁ (by omega), hxor b₂ (by omega), hxor b₃ (by omega)⟩

/-! ### Searching -/

/-- None of the `k` bytes from `p` on matches. -/
def NoMatch (mem : ReadableMem) (target : UInt8) (p k : ℕ) : Prop :=
  ∀ i < k, mem (wrap32 (p + i)) ≠ some target

/-- What a search of the `n` bytes from `p` on is to return: the address of the first match, or
`NULL`. -/
def SearchResult (mem : ReadableMem) (target : UInt8) (p n r : ℕ) : Prop :=
  (∃ i < n, mem (wrap32 (p + i)) = some target ∧ NoMatch mem target p i ∧ r = wrap32 (p + i)) ∨
  NoMatch mem target p n ∧ r = 0

/-- The `n` bytes from `p` on can be read. -/
def CanRead (mem : ReadableMem) (p n : ℕ) : Prop := ∀ i < n, mem (wrap32 (p + i)) ≠ none

theorem wrap32_lt (a : ℕ) : wrap32 a < 0x100000000 := Nat.mod_lt a (by decide)

theorem wrap32_zero (hp : p < 0x100000000) : wrap32 (p + 0) = p := Nat.mod_eq_of_lt hp

theorem wrap32_add (p k i : ℕ) : wrap32 (wrap32 (p + k) + i) = wrap32 (p + (k + i)) := by
  unfold wrap32
  omega

theorem NoMatch.zero (mem : ReadableMem) (target : UInt8) (p : ℕ) : NoMatch mem target p 0 :=
  fun i hi => absurd hi (Nat.not_lt_zero i)

theorem NoMatch.one {b : UInt8} (hp : p < 0x100000000) (hb : mem p = some b) (hne : b ≠ target) :
    NoMatch mem target p 1 := by
  intro i hi
  obtain rfl := Nat.lt_one_iff.mp hi
  rw [wrap32_zero hp, hb]
  exact fun hc => hne (Option.some.inj hc)

theorem NoMatch.add {k m : ℕ} (h : NoMatch mem target p k)
    (h' : NoMatch mem target (wrap32 (p + k)) m) : NoMatch mem target p (k + m) := by
  intro i hi
  by_cases hik : i < k
  · exact h i hik
  · have hrest := h' (i - k) (by omega)
    rw [wrap32_add, show k + (i - k) = i by omega] at hrest
    exact hrest

/-- Bytes that do not match can be skipped. -/
theorem SearchResult.skip {k r : ℕ} (hskip : NoMatch mem target p k)
    (h : SearchResult mem target (wrap32 (p + k)) n r) : SearchResult mem target p (k + n) r := by
  cases h with
  | inl hfound =>
      obtain ⟨i, hi, hmatch, hfirst, rfl⟩ := hfound
      rw [wrap32_add] at hmatch
      exact .inl ⟨k + i, Nat.add_lt_add_left hi k, hmatch, hskip.add hfirst, wrap32_add p k i⟩
  | inr hnone => exact .inr ⟨hskip.add hnone.1, hnone.2⟩

theorem SearchResult.here (hp : p < 0x100000000) (hb : mem p = some target) :
    SearchResult mem target p (n + 1) p := by
  refine .inl ⟨0, Nat.succ_pos n, ?_, .zero mem target p, (wrap32_zero hp).symm⟩
  rw [wrap32_zero hp]
  exact hb

theorem CanRead.skip {k : ℕ} (h : CanRead mem p (k + n)) : CanRead mem (wrap32 (p + k)) n := by
  intro i hi
  rw [wrap32_add]
  exact h (k + i) (Nat.add_lt_add_left hi k)

theorem CanRead.byte {k : ℕ} (h : CanRead mem p n) (hk : k < n) :
    ∃ b, mem (wrap32 (p + k)) = some b := Option.ne_none_iff_exists'.mp (h k hk)

/-! ### The loops -/

theorem loadByte_ok {b : UInt8} (h : mem p = some b) : loadByte mem p = .ok b := by
  unfold loadByte
  rw [h]

/-- The last loop finds the first match. -/
theorem memchrTail_result (target : UInt8) (hp : p < 0x100000000) (hmem : CanRead mem p n) :
    ∃ r, memchrTail mem target p n = .ok r ∧ SearchResult mem target p n r := by
  induction n generalizing p with
  | zero => exact ⟨0, rfl, .inr ⟨.zero mem target p, rfl⟩⟩
  | succ n ih =>
      obtain ⟨b, hb⟩ := hmem.byte (Nat.succ_pos n)
      rw [wrap32_zero hp] at hb
      unfold memchrTail
      rw [loadByte_ok hb, ok_bind]
      by_cases hmatch : b = target
      · rw [if_pos hmatch]
        exact ⟨p, rfl, .here hp (hmatch ▸ hb)⟩
      · rw [if_neg hmatch]
        rw [Nat.add_comm n 1] at hmem ⊢
        obtain ⟨r, hr, hresult⟩ := ih (wrap32_lt _) hmem.skip
        exact ⟨r, hr, hresult.skip (.one hp hb hmatch)⟩

/-- The loop up to a multiple of four skips bytes, or returns what it is to return. -/
theorem memchrAlign_result (target : UInt8) (hp : p < 0x100000000) (hmem : CanRead mem p n) :
    (∃ k ≤ n, memchrAlign mem target p n = .ok (.inl (wrap32 (p + k), n - k)) ∧
      wrap32 (p + k) % 4 = 0 ∧ NoMatch mem target p k) ∨
    ∃ r, memchrAlign mem target p n = .ok (.inr r) ∧ SearchResult mem target p n r := by
  induction n generalizing p with
  | zero =>
      unfold memchrAlign
      by_cases haligned : p % 4 = 0
      · rw [if_pos haligned]
        refine .inl ⟨0, Nat.le_refl 0, ?_, ?_, .zero mem target p⟩
        · rw [wrap32_zero hp]
        · rw [wrap32_zero hp]
          exact haligned
      · rw [if_neg haligned]
        exact .inr ⟨0, rfl, .inr ⟨.zero mem target p, rfl⟩⟩
  | succ n ih =>
      obtain ⟨b, hb⟩ := hmem.byte (Nat.succ_pos n)
      rw [wrap32_zero hp] at hb
      unfold memchrAlign
      by_cases haligned : p % 4 = 0
      · rw [if_pos haligned]
        refine .inl ⟨0, Nat.zero_le _, ?_, ?_, .zero mem target p⟩
        · rw [wrap32_zero hp, Nat.sub_zero]
        · rw [wrap32_zero hp]
          exact haligned
      · rw [if_neg haligned, loadByte_ok hb, ok_bind]
        by_cases hmatch : b = target
        · rw [if_pos hmatch]
          exact .inr ⟨p, rfl, .here hp (hmatch ▸ hb)⟩
        · rw [if_neg hmatch]
          have hfirst : NoMatch mem target p 1 := .one hp hb hmatch
          rw [Nat.add_comm n 1] at hmem ⊢
          cases ih (wrap32_lt (p + 1)) hmem.skip with
          | inl hskip =>
              obtain ⟨k, hk, hrun, hal, hno⟩ := hskip
              rw [wrap32_add] at hrun hal
              refine .inl ⟨1 + k, Nat.add_le_add_left hk 1, ?_, hal, hfirst.add hno⟩
              rw [hrun, Nat.add_sub_add_left]
          | inr hdone =>
              obtain ⟨r, hrun, hresult⟩ := hdone
              exact .inr ⟨r, hrun, hresult.skip hfirst⟩

theorem memchrWords_short (mem : ReadableMem) (mask : BitVec 32) (p : ℕ) (hn : n < 4) :
    memchrWords mem mask p n = .ok (p, n) := by
  obtain rfl | rfl | rfl | rfl : n = 0 ∨ n = 1 ∨ n = 2 ∨ n = 3 := by omega
  all_goals rfl

/-- The four bytes of an aligned word do not wrap around. -/
theorem loadWord_ok (hp : p < 0x100000000) (haligned : p % 4 = 0) (hmem : CanRead mem p (4 + n)) :
    ∃ b₀ b₁ b₂ b₃, loadWord mem p = .ok (wordOf b₀ b₁ b₂ b₃) ∧ mem (wrap32 (p + 0)) = some b₀ ∧
      mem (wrap32 (p + 1)) = some b₁ ∧ mem (wrap32 (p + 2)) = some b₂ ∧
      mem (wrap32 (p + 3)) = some b₃ := by
  have hwrap : ∀ k < 4, wrap32 (p + k) = p + k := by
    intro k hk
    unfold wrap32
    omega
  obtain ⟨b₀, h0⟩ := hmem.byte (show 0 < 4 + n by omega)
  obtain ⟨b₁, h1⟩ := hmem.byte (show 1 < 4 + n by omega)
  obtain ⟨b₂, h2⟩ := hmem.byte (show 2 < 4 + n by omega)
  obtain ⟨b₃, h3⟩ := hmem.byte (show 3 < 4 + n by omega)
  refine ⟨b₀, b₁, b₂, b₃, ?_, h0, h1, h2, h3⟩
  rw [hwrap 0 (by decide), Nat.add_zero] at h0
  rw [hwrap 1 (by decide)] at h1
  rw [hwrap 2 (by decide)] at h2
  rw [hwrap 3 (by decide)] at h3
  unfold loadWord
  simp only [loadByte_ok h0, loadByte_ok h1, loadByte_ok h2, loadByte_ok h3, ok_bind]

/-- The loop over the words skips bytes that do not match. -/
theorem memchrWords_result (target : UInt8) (hp : p < 0x100000000) (haligned : p % 4 = 0)
    (hmem : CanRead mem p n) :
    ∃ k ≤ n, memchrWords mem (fillMask target 0 4) p n = .ok (wrap32 (p + k), n - k) ∧
      NoMatch mem target p k := by
  induction n using Nat.strongRecOn generalizing p with
  | ind n ih =>
      by_cases hn : n < 4
      · refine ⟨0, Nat.zero_le n, ?_, .zero mem target p⟩
        rw [memchrWords_short _ _ _ hn, wrap32_zero hp, Nat.sub_zero]
      · obtain ⟨m, rfl⟩ : ∃ m, n = 4 + m := ⟨n - 4, by omega⟩
        obtain ⟨b₀, b₁, b₂, b₃, hword, h0, h1, h2, h3⟩ := loadWord_ok hp haligned hmem
        rw [Nat.add_comm 4 m] at hmem ⊢
        unfold memchrWords
        rw [hword, ok_bind]
        by_cases hmay : mayMatch (wordOf b₀ b₁ b₂ b₃ ^^^ fillMask target 0 4) = true
        · rw [if_pos hmay]
          refine ⟨0, Nat.zero_le _, ?_, .zero mem target p⟩
          rw [wrap32_zero hp, Nat.sub_zero]
        · rw [if_neg hmay]
          obtain ⟨n0, n1, n2, n3⟩ := no_match hmay
          have hskip : NoMatch mem target p 4 := by
            intro i hi hc
            obtain rfl | rfl | rfl | rfl : i = 0 ∨ i = 1 ∨ i = 2 ∨ i = 3 := by omega
            · exact n0 (Option.some.inj (h0.symm.trans hc))
            · exact n1 (Option.some.inj (h1.symm.trans hc))
            · exact n2 (Option.some.inj (h2.symm.trans hc))
            · exact n3 (Option.some.inj (h3.symm.trans hc))
          have haligned' : wrap32 (p + 4) % 4 = 0 := by
            unfold wrap32
            omega
          rw [Nat.add_comm m 4] at hmem ⊢
          obtain ⟨k, hk, hrun, hno⟩ := ih m (by omega) (wrap32_lt _) haligned' hmem.skip
          rw [wrap32_add] at hrun
          refine ⟨4 + k, Nat.add_le_add_left hk 4, ?_, hskip.add hno⟩
          rw [hrun, Nat.add_sub_add_left]

/-- `memchr` returns the address of the first of the `n` bytes that is `(unsigned char)c`, or `NULL`,
and reads no other byte. -/
theorem memchr_result (mem : ReadableMem) (s : ℕ) (c : Int) (n : ℕ) (hs : s < 0x100000000)
    (hmem : CanRead mem s n) :
    ∃ r, memchr mem s c n = .ok r ∧ SearchResult mem (uchar c) s n r := by
  unfold memchr
  cases memchrAlign_result (uchar c) hs hmem with
  | inl hskip =>
      obtain ⟨k, hk, hrun, haligned, hno⟩ := hskip
      obtain ⟨m, rfl⟩ : ∃ m, n = k + m := ⟨n - k, by omega⟩
      rw [Nat.add_sub_cancel_left] at hrun
      have hrest := hmem.skip
      simp only [hrun, ok_bind]
      by_cases hm : m ≥ 4
      · rw [if_pos hm]
        obtain ⟨j, hj, hwords, hno'⟩ := memchrWords_result (uchar c) (wrap32_lt _) haligned hrest
        obtain ⟨i, rfl⟩ : ∃ i, m = j + i := ⟨m - j, by omega⟩
        rw [Nat.add_sub_cancel_left] at hwords
        obtain ⟨r, htail, hresult⟩ := memchrTail_result (uchar c) (wrap32_lt _) hrest.skip
        refine ⟨r, ?_, (hresult.skip hno').skip hno⟩
        simp only [hwords, ok_bind]
        exact htail
      · rw [if_neg hm]
        obtain ⟨r, htail, hresult⟩ := memchrTail_result (uchar c) (wrap32_lt _) hrest
        exact ⟨r, htail, hresult.skip hno⟩
  | inr hdone =>
      obtain ⟨r, hrun, hresult⟩ := hdone
      refine ⟨r, ?_, hresult⟩
      simp only [hrun, ok_bind]

/-- Nine bytes from an address that is no multiple of four on, the last of which matches. -/
theorem memchr_last : ∃ r, memchr (fun a => if a < 20 then some (UInt8.ofNat a) else none) 3 0x10B 9 =
    .ok r ∧ SearchResult (fun a => if a < 20 then some (UInt8.ofNat a) else none) 11 3 9 r :=
  memchr_result _ 3 0x10B 9 (by decide) (by unfold CanRead; decide)

end GalaxyOS
