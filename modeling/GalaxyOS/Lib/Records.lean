import Mathlib.Data.Set.Insert
import Mathlib.Logic.Function.Basic

/-! # Records in a memory of bytes

A memory answers loads and stores of bytes; a byte that is not there cannot be loaded.  A record is a
row of little-endian words, and `Table` says what the words of several records are: they are read and
written one word at a time, and what is written into one record leaves the others as they are.

`Table.write` is the rule for one word and `Table.insert` the one for a new record; both rest on
`writeNum_ok`, which is about the bytes of a number. -/

namespace Records

variable {σ : Type}

/-- A memory of bytes, some of which may be missing. -/
structure Bytes (σ : Type) where
  load : σ → ℕ → Option UInt8
  store : σ → ℕ → UInt8 → σ

namespace Bytes

variable (M : Bytes σ)

/-- A store to a byte that is there changes this byte and keeps `Ok`. -/
structure Lawful (Ok : σ → Prop) : Prop where
  ok_store : ∀ s a b, Ok s → M.load s a ≠ none → Ok (M.store s a b)
  load_store : ∀ s a b, Ok s → M.load s a ≠ none →
    M.load (M.store s a b) = Function.update (M.load s) a (some b)

/-- The number in `n` bytes, the least significant byte first. -/
def readNum (s : σ) (a : ℕ) : ℕ → Option ℕ
  | 0 => some 0
  | n + 1 =>
      match M.load s a, readNum s (a + 1) n with
      | some b, some v => some (b.toNat + 0x100 * v)
      | _, _ => none

/-- Store a number in `n` bytes, the least significant byte first. -/
def writeNum (s : σ) (a v : ℕ) : ℕ → Option σ
  | 0 => some s
  | n + 1 =>
      match M.load s a with
      | some _ => writeNum (M.store s a (UInt8.ofNat v)) (a + 1) (v / 0x100) n
      | none => none

/-- Each of the `n` bytes from `a` on is there. -/
def Mapped (s : σ) (a n : ℕ) : Prop := ∀ i < n, M.load s (a + i) ≠ none

/-- The bytes outside `X` are the same, and no byte has come or gone. -/
structure Frame (X : Set ℕ) (s s' : σ) : Prop where
  outside : ∀ b, b ∉ X → M.load s' b = M.load s b
  mapped : ∀ b, M.load s' b = none ↔ M.load s b = none

end Bytes

variable {M : Bytes σ} {Ok : σ → Prop} {s s' s'' : σ} {X Y : Set ℕ} {a n v : ℕ}

/-- The piece of `n` bytes from `a` on. -/
def piece (a n : ℕ) : Set ℕ := {b | a ≤ b ∧ b < a + n}

theorem mem_piece {b : ℕ} : b ∈ piece a n ↔ a ≤ b ∧ b < a + n := Iff.rfl

theorem piece_subset {b m : ℕ} (hlo : b ≤ a) (hhi : a + n ≤ b + m) : piece a n ⊆ piece b m := by
  intro x hx
  rw [mem_piece] at hx ⊢
  omega

theorem Bytes.Frame.refl (X : Set ℕ) (s : σ) : M.Frame X s s := ⟨fun _ _ => rfl, fun _ => Iff.rfl⟩

theorem Bytes.Frame.trans (h : M.Frame X s s') (h' : M.Frame X s' s'') : M.Frame X s s'' :=
  ⟨fun b hb => (h'.outside b hb).trans (h.outside b hb), fun b => (h'.mapped b).trans (h.mapped b)⟩

theorem Bytes.Frame.mono (h : M.Frame X s s') (hsub : X ⊆ Y) : M.Frame Y s s' :=
  ⟨fun b hb => h.outside b fun hX => hb (hsub hX), h.mapped⟩

theorem Bytes.Frame.mapped_of (h : M.Frame X s s') (hm : M.Mapped s a n) : M.Mapped s' a n :=
  fun i hi hnone => hm i hi ((h.mapped _).mp hnone)

theorem Bytes.Mapped.sub {b m : ℕ} (h : M.Mapped s a n) (hlo : a ≤ b) (hhi : b + m ≤ a + n) :
    M.Mapped s b m := by
  intro i hi
  have hbyte := h (b - a + i) (by omega)
  rwa [show a + (b - a + i) = b + i by omega] at hbyte

/-! ### Numbers -/

theorem readNum_congr : ∀ {n a : ℕ}, (∀ i < n, M.load s' (a + i) = M.load s (a + i)) →
    M.readNum s' a n = M.readNum s a n
  | 0, _, _ => rfl
  | n + 1, a, h => by
      have hfirst := h 0 (Nat.succ_pos n)
      have hrest : M.readNum s' (a + 1) n = M.readNum s (a + 1) n := by
        apply readNum_congr
        intro i hi
        have hnext := h (i + 1) (Nat.succ_lt_succ hi)
        rwa [show a + (i + 1) = a + 1 + i by omega] at hnext
      unfold Bytes.readNum
      rw [hrest]
      rw [Nat.add_zero] at hfirst
      rw [hfirst]

theorem Bytes.Frame.readNum (h : M.Frame X s s') (hX : ∀ b ∈ X, b < a ∨ a + n ≤ b) :
    M.readNum s' a n = M.readNum s a n := by
  apply readNum_congr
  intro i hi
  apply h.outside
  intro hmem
  have hout := hX _ hmem
  omega

theorem readNum_mapped : ∀ {n a : ℕ}, M.Mapped s a n → ∃ v, M.readNum s a n = some v
  | 0, _, _ => ⟨0, rfl⟩
  | n + 1, a, h => by
      obtain ⟨v, hv⟩ := readNum_mapped (h.sub (Nat.le_succ a) (m := n) (by omega))
      obtain ⟨b, hb⟩ := Option.ne_none_iff_exists'.mp (h 0 (Nat.succ_pos n))
      refine ⟨b.toNat + 0x100 * v, ?_⟩
      unfold Bytes.readNum
      rw [Nat.add_zero] at hb
      rw [hb, hv]

theorem mapped_of_readNum : ∀ {n a v : ℕ}, M.readNum s a n = some v → M.Mapped s a n
  | 0, _, _, _ => fun i hi => absurd hi (Nat.not_lt_zero i)
  | n + 1, a, v, h => by
      unfold Bytes.readNum at h
      cases hb : M.load s a with
      | none => simp [hb] at h
      | some b =>
          cases hv : M.readNum s (a + 1) n with
          | none => simp [hb, hv] at h
          | some v' =>
              have hrest := mapped_of_readNum hv
              intro i hi
              cases i with
              | zero => simp [hb]
              | succ i =>
                  have hnext := hrest i (by omega)
                  rwa [show a + 1 + i = a + (i + 1) by omega] at hnext

/-- The number that the lowest `n` bytes of `v` make. -/
def low (v : ℕ) : ℕ → ℕ
  | 0 => 0
  | n + 1 => v % 0x100 + 0x100 * low (v / 0x100) n

theorem low_four (hv : v < 0x100000000) : low v 4 = v := by
  simp only [low]
  omega

/-- A number that has been stored is read back, and the other bytes are as before. -/
theorem writeNum_ok (hM : M.Lawful Ok) : ∀ {n a v : ℕ} {s : σ}, Ok s → M.Mapped s a n →
    ∃ s', M.writeNum s a v n = some s' ∧ Ok s' ∧ M.readNum s' a n = some (low v n) ∧
      M.Frame (piece a n) s s'
  | 0, a, v, s, hs, _ => ⟨s, rfl, hs, rfl, .refl _ _⟩
  | n + 1, a, v, s, hs, hm => by
      have hbyte := hm 0 (Nat.succ_pos n)
      rw [Nat.add_zero] at hbyte
      have hload := hM.load_store s a (UInt8.ofNat v) hs hbyte
      have hfirst : M.Frame (piece a 1) s (M.store s a (UInt8.ofNat v)) := by
        refine ⟨fun b hb => ?_, fun b => ?_⟩
        · rw [hload, Function.update_of_ne]
          intro heq
          exact hb ⟨Nat.le_of_eq heq.symm, by omega⟩
        · rw [hload]
          by_cases hb : b = a
          · rw [hb, Function.update_self]
            exact iff_of_false (Option.some_ne_none _) hbyte
          · rw [Function.update_of_ne hb]
      have hm' : M.Mapped (M.store s a (UInt8.ofNat v)) (a + 1) n :=
        hfirst.mapped_of (hm.sub (Nat.le_succ a) (by omega))
      obtain ⟨s', hrun, hok, hread, hframe⟩ :=
        writeNum_ok hM (v := v / 0x100) (hM.ok_store s a _ hs hbyte) hm'
      refine ⟨s', ?_, hok, ?_, ?_⟩
      · unfold Bytes.writeNum
        obtain ⟨b, hb⟩ := Option.ne_none_iff_exists'.mp hbyte
        rw [hb]
        exact hrun
      · have hsame : M.load s' a = some (UInt8.ofNat v) := by
          rw [hframe.outside a fun hmem => by have := hmem.1; omega, hload, Function.update_self]
        unfold Bytes.readNum low
        rw [hsame, hread]
        simp only [UInt8.toNat_ofNat']
      · exact (hfirst.mono (piece_subset (Nat.le_refl a) (by omega))).trans
          (hframe.mono (piece_subset (Nat.le_succ a) (by omega)))

/-- A byte of a number, counted from the least significant one. -/
def byteAt : ℕ → ℕ → UInt8
  | v, 0 => UInt8.ofNat v
  | v, i + 1 => byteAt (v / 0x100) i

/-- The bytes of a number that has been read. -/
theorem readNum_bytes : ∀ {n a v : ℕ}, M.readNum s a n = some v →
    ∀ i < n, M.load s (a + i) = some (byteAt v i)
  | 0, _, _, _ => fun i hi => absurd hi (Nat.not_lt_zero i)
  | n + 1, a, v, h => by
      unfold Bytes.readNum at h
      cases hb : M.load s a with
      | none => simp [hb] at h
      | some b =>
          cases hv : M.readNum s (a + 1) n with
          | none => simp [hb, hv] at h
          | some v' =>
              simp only [hb, hv, Option.some.injEq] at h
              have hlt := b.toNat_lt
              have hrest := readNum_bytes hv
              intro i hi
              cases i with
              | zero =>
                  rw [Nat.add_zero, hb, ← h]
                  unfold byteAt
                  congr 1
                  apply UInt8.toNat_inj.mp
                  rw [UInt8.toNat_ofNat']
                  omega
              | succ i =>
                  have hnext := hrest i (by omega)
                  rw [show a + 1 + i = a + (i + 1) by omega] at hnext
                  have hdiv : v / 0x100 = v' := by omega
                  rw [hnext]
                  show some (byteAt v' i) = some (byteAt (v / 0x100) i)
                  rw [hdiv]

/-! ### Records -/

/-- The records at the addresses in `D` are `k` words long, they do not overlap, and `w` says what
their words are. -/
structure Table (M : Bytes σ) (k : ℕ) (D : Set ℕ) (w : ℕ → ℕ → ℕ) (s : σ) : Prop where
  word : ∀ a ∈ D, ∀ i < k, M.readNum s (a + 4 * i) 4 = some (w a i)
  apart : ∀ a ∈ D, ∀ b ∈ D, a ≠ b → a + 4 * k ≤ b ∨ b + 4 * k ≤ a

/-- Word `i` of the record at `a` becomes `v`. -/
def setWord (w : ℕ → ℕ → ℕ) (a i v : ℕ) : ℕ → ℕ → ℕ :=
  Function.update w a (Function.update (w a) i v)

theorem setWord_self (w : ℕ → ℕ → ℕ) (a i v : ℕ) : setWord w a i v a i = v := by
  simp [setWord]

theorem setWord_field {i j : ℕ} (w : ℕ → ℕ → ℕ) (a v : ℕ) (h : j ≠ i) (b : ℕ) :
    setWord w a i v b j = w b j := by
  by_cases hb : b = a
  · rw [hb]
    simp [setWord, h]
  · simp [setWord, hb]

theorem setWord_record {b : ℕ} (w : ℕ → ℕ → ℕ) (a i v : ℕ) (h : b ≠ a) :
    setWord w a i v b = w b := by
  simp [setWord, h]

variable {k : ℕ} {D E : Set ℕ} {w : ℕ → ℕ → ℕ}

theorem Table.mono (h : Table M k D w s) (hsub : E ⊆ D) : Table M k E w s :=
  ⟨fun a ha => h.word a (hsub ha), fun a ha b hb => h.apart a (hsub ha) b (hsub hb)⟩

theorem Table.frame (h : Table M k D w s) (hf : M.Frame X s s')
    (hX : ∀ a ∈ D, ∀ b ∈ X, b < a ∨ a + 4 * k ≤ b) : Table M k D w s' := by
  refine ⟨fun a ha i hi => ?_, h.apart⟩
  rw [hf.readNum fun b hb => ?_]
  · exact h.word a ha i hi
  · have hout := hX a ha b hb
    omega

theorem Table.mapped (h : Table M k D w s) (ha : a ∈ D) : M.Mapped s a (4 * k) := by
  intro i hi
  have hword := mapped_of_readNum (h.word a ha (i / 4) (by omega)) (i % 4) (Nat.mod_lt i (by decide))
  rwa [show a + 4 * (i / 4) + i % 4 = a + i by omega] at hword

theorem Table.write {i : ℕ} (hM : M.Lawful Ok) (hs : Ok s) (h : Table M k D w s) (ha : a ∈ D)
    (hi : i < k) (hv : v < 0x100000000) :
    ∃ s', M.writeNum s (a + 4 * i) v 4 = some s' ∧ Ok s' ∧ Table M k D (setWord w a i v) s' ∧
      M.Frame (piece a (4 * k)) s s' := by
  obtain ⟨s', hrun, hok, hread, hframe⟩ :=
    writeNum_ok hM (v := v) hs ((h.mapped ha).sub (b := a + 4 * i) (m := 4) (by omega) (by omega))
  rw [low_four hv] at hread
  refine ⟨s', hrun, hok, ⟨fun b hb j hj => ?_, h.apart⟩, hframe.mono (piece_subset (by omega) (by omega))⟩
  by_cases heq : b = a ∧ j = i
  · obtain ⟨rfl, rfl⟩ := heq
    rw [hread, setWord_self]
  · have hold : setWord w a i v b j = w b j := by
      by_cases hba : b = a
      · exact setWord_field w a v (fun hji => heq ⟨hba, hji⟩) b
      · rw [setWord_record w a i v hba]
    rw [hold, hframe.readNum fun x hx => ?_]
    · exact h.word b hb j hj
    · rw [mem_piece] at hx
      by_cases hba : b = a
      · have hji : j ≠ i := fun hji => heq ⟨hba, hji⟩
        omega
      · have hapart := h.apart b hb a ha hba
        omega

/-- A new record, of whatever the memory holds. -/
theorem Table.insert (h : Table M k D w s) (hm : M.Mapped s a (4 * k))
    (hapart : ∀ b ∈ D, a + 4 * k ≤ b ∨ b + 4 * k ≤ a) (hnew : a ∉ D) :
    ∃ r, Table M k (insert a D) (Function.update w a r) s := by
  have hwords : ∀ i, ∃ x, i < k → M.readNum s (a + 4 * i) 4 = some x := by
    intro i
    by_cases hi : i < k
    · obtain ⟨x, hx⟩ := readNum_mapped (hm.sub (b := a + 4 * i) (m := 4) (by omega) (by omega))
      exact ⟨x, fun _ => hx⟩
    · exact ⟨0, fun h => absurd h hi⟩
  obtain ⟨r, hr⟩ := Classical.axiomOfChoice hwords
  refine ⟨r, fun b hb i hi => ?_, ?_⟩
  · cases hb with
    | inl heq =>
        rw [heq, Function.update_self]
        exact hr i hi
    | inr hold =>
        have hne : b ≠ a := by
          rintro rfl
          exact hnew hold
        rw [Function.update_of_ne hne]
        exact h.word b hold i hi
  · intro b hb c hc hne
    cases hb with
    | inl hbnew =>
        cases hc with
        | inl hcnew => exact absurd (hbnew.trans hcnew.symm) hne
        | inr hcold => exact hbnew ▸ hapart c hcold
    | inr hbold =>
        cases hc with
        | inl hcnew =>
            rw [hcnew]
            exact (hapart b hbold).symm
        | inr hcold => exact h.apart b hbold c hcold hne

end Records
