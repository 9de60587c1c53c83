import GalaxyOS.Syscall.Read

/-! # Strings passed by user programs

`kstrdup_user` measures a string behind a user pointer and then copies it, byte by byte, with the
checked accesses of `safecpy.c`.  `UserString` says that a terminated string can be read at a user
address; a copy succeeds exactly on those, and no load changes the memory.

The second half is about the way back: a copy to a user buffer that succeeds stores all its bytes,
and one that fails stores nothing outside of the buffer.

`UserString.unique` says that there is one string at an address, and `safecpyToUser_stores_iff` when a copy
succeeds. -/

namespace GalaxyOS

/-! ### Loads -/

/-- The same memory, except for the record of the accesses. -/
structure UserMem.Same (um um' : UserMem) : Prop where
  byte : um'.byte = um.byte
  readable : um'.readable = um.readable
  writable : um'.writable = um.writable

theorem UserMem.Same.refl (um : UserMem) : um.Same um := ⟨rfl, rfl, rfl⟩

theorem UserMem.Same.trans {u₁ u₂ u₃ : UserMem} (h₁ : u₁.Same u₂) (h₂ : u₂.Same u₃) : u₁.Same u₃ :=
  ⟨h₂.byte.trans h₁.byte, h₂.readable.trans h₁.readable, h₂.writable.trans h₁.writable⟩

theorem UserMem.load_same (um : UserMem) (a : ℕ) : um.Same (um.load a).2 := ⟨rfl, rfl, rfl⟩

theorem UserMem.load_some {um : UserMem} {a : ℕ} {b : UInt8} :
    (um.load a).1 = some b ↔ um.readable a = true ∧ um.byte a = b := by
  unfold UserMem.load
  split_ifs with h <;> simp [h]

/-- The `n` bytes from `a` on. -/
def UserMem.bytesAt (um : UserMem) (a n : ℕ) : List UInt8 := (List.range n).map fun i => um.byte (a + i)

@[simp] theorem UserMem.bytesAt_length (um : UserMem) (a n : ℕ) : (um.bytesAt a n).length = n := by
  simp [UserMem.bytesAt]

theorem UserMem.bytesAt_succ (um : UserMem) (a n : ℕ) :
    um.bytesAt a (n + 1) = um.byte a :: um.bytesAt (a + 1) n := by
  unfold UserMem.bytesAt
  rw [List.range_succ_eq_map, List.map_cons, List.map_map, Nat.add_zero]
  refine congrArg _ (List.map_congr_left fun i _ => congrArg um.byte ?_)
  omega

theorem UserMem.Same.bytesAt {um um' : UserMem} (h : um.Same um') (a n : ℕ) :
    um'.bytesAt a n = um.bytesAt a n := by
  unfold UserMem.bytesAt
  rw [h.byte]

theorem safecpyFromUserLoop_same : ∀ (n : ℕ) (um : UserMem) (src : ℕ),
    um.Same (safecpyFromUserLoop um src n).2
  | 0, um, _ => .refl um
  | n + 1, um, src => by
      have h1 := um.load_same src
      simp only [safecpyFromUserLoop]
      split
      · rename_i um' e
        rwa [e] at h1
      · rename_i b um' e
        rw [e] at h1
        have h2 := safecpyFromUserLoop_same n um' (src + 1)
        split <;> (rename_i e'; rw [e'] at h2; exact h1.trans h2)

theorem safecpyFromUser_same (um : UserMem) (src size : ℕ) :
    um.Same (safecpyFromUser um src size).2 := by
  unfold safecpyFromUser
  split_ifs
  · exact .refl um
  · exact .refl um
  · exact safecpyFromUserLoop_same size um src

/-! ### Terminated strings -/

/-- A string that ends with its first NUL can be read at the user address `ptr`. -/
structure UserString (um : UserMem) (ptr : ℕ) (s : CString) : Prop where
  bytes : um.bytesAt ptr s.length = s
  noNul : 0 ∉ s
  terminator : um.byte (ptr + s.length) = 0

/-- Memory holds one string at an address. -/
theorem UserString.unique {um : UserMem} {ptr : ℕ} {s t : CString} (hs : UserString um ptr s)
    (ht : UserString um ptr t) : s = t := by
  have hget : ∀ {s : CString}, UserString um ptr s → ∀ i, ∀ h : i < s.length,
      um.byte (ptr + i) = s[i] := by
    intro s hs i h
    have hi := congrArg (fun l => l[i]?) hs.bytes
    simp only [UserMem.bytesAt, List.getElem?_map, List.getElem?_range h, Option.map_some,
      List.getElem?_eq_getElem h, Option.some.injEq] at hi
    exact hi
  have hle : ∀ {s t : CString}, UserString um ptr s → UserString um ptr t →
      s.length ≤ t.length := by
    intro s t hs ht
    by_contra hlt
    have h0 := hget hs t.length (by omega)
    rw [ht.terminator] at h0
    exact hs.noNul (h0 ▸ List.getElem_mem _)
  have hlen : s.length = t.length := Nat.le_antisymm (hle hs ht) (hle ht hs)
  rw [← hs.bytes, hlen, ht.bytes]

theorem UserString.same {um um' : UserMem} {ptr : ℕ} {s : CString} (h : um.Same um') :
    UserString um' ptr s ↔ UserString um ptr s := by
  constructor
  · rintro ⟨h1, h2, h3⟩
    exact ⟨by rwa [h.bytesAt] at h1, h2, by rwa [h.byte] at h3⟩
  · rintro ⟨h1, h2, h3⟩
    exact ⟨by rwa [h.bytesAt], h2, by rwa [h.byte]⟩

theorem safelenMaxErrLoop_same (base : ℕ) : ∀ (n : ℕ) (um : UserMem) (len : ℕ),
    um.Same (safelenMaxErrLoop um base n len).2
  | 0, um, _ => .refl um
  | n + 1, um, len => by
      have h1 := um.load_same (base + len)
      simp only [safelenMaxErrLoop]
      split
      · rename_i um' e
        rwa [e] at h1
      · rename_i test um' e
        rw [e] at h1
        split_ifs
        · exact h1
        · exact h1.trans (safelenMaxErrLoop_same base n um' (len + 1))

/-- The loop stops at the first NUL. -/
theorem safelenMaxErrLoop_ok {base : ℕ} : ∀ {n : ℕ} {um : UserMem} {len k : ℕ},
    (safelenMaxErrLoop um base n len).1 = .ok k →
      len ≤ k ∧ k < len + n ∧ um.byte (base + k) = 0 ∧
        ∀ i, len ≤ i → i < k → um.byte (base + i) ≠ 0
  | 0, um, len, k, h => by cases h
  | n + 1, um, len, k, h => by
      simp only [safelenMaxErrLoop] at h
      split at h
      · cases h
      · rename_i test um' e
        have hb := (UserMem.load_some.mp (congrArg Prod.fst e)).2
        have hsame : um.Same um' := by
          have := um.load_same (base + len)
          rwa [e] at this
        split_ifs at h with h0
        · obtain rfl := Except.ok.inj h
          refine ⟨Nat.le_refl _, by omega, hb.trans h0, fun i h1 h2 => by omega⟩
        · obtain ⟨h1, h2, h3, h4⟩ := safelenMaxErrLoop_ok h
          rw [hsame.byte] at h3 h4
          refine ⟨by omega, by omega, h3, fun i hi hk => ?_⟩
          rcases Nat.lt_or_ge len i with hlt | hge
          · exact h4 i hlt hk
          · obtain rfl : i = len := by omega
            exact fun hi0 => h0 (hb.symm.trans hi0)

theorem safelenMaxErr_same (um : UserMem) (str max : ℕ) :
    um.Same (safelenMaxErr um str max).2 := by
  unfold safelenMaxErr
  split_ifs
  · exact .refl um
  · exact safelenMaxErrLoop_same str _ um 0

theorem safelenMaxErr_ok {um : UserMem} {str max k : ℕ}
    (h : (safelenMaxErr um str max).1 = .ok k) :
    k < max ∧ UserString um str (um.bytesAt str k) := by
  unfold safelenMaxErr at h
  split_ifs at h with h1
  obtain ⟨-, hlt, hend, hbefore⟩ := safelenMaxErrLoop_ok h
  refine ⟨by split_ifs at hlt <;> omega, ?_⟩
  constructor
  · rw [UserMem.bytesAt_length]
  · intro h0
    obtain ⟨i, hi, hb⟩ := List.mem_map.mp h0
    exact hbefore i (Nat.zero_le i) (List.mem_range.mp hi) hb
  · rwa [UserMem.bytesAt_length]

/-! ### `kstrdup_user` -/

/-- The C string at the start of a buffer. -/
def cString (buf : List UInt8) : CString := buf.takeWhile fun b => b ≠ 0

theorem cString_append {s : CString} (h : 0 ∉ s) (rest : List UInt8) :
    cString (s ++ 0 :: rest) = s := by
  unfold cString
  rw [List.takeWhile_append_of_pos fun b hb => by simpa using fun h0 : b = 0 => h (h0 ▸ hb)]
  simp

/-- `kstrdup_user`: the string copied, or the error. -/
def kstrdupUser (um : UserMem) (uptr maxlen : ℕ) : Except Int CString × UserMem :=
  match safelenMaxErr um uptr maxlen with
  | (.error err, um') => (.error err, um')
  | (.ok len, um') =>
      match safecpyFromUser um' uptr (len + 1) with
      | (none, um'') => (.error (-EFAULT), um'')
      | (some buf, um'') => (.ok (cString buf), um'')

theorem kstrdupUser_same (um : UserMem) (uptr maxlen : ℕ) :
    um.Same (kstrdupUser um uptr maxlen).2 := by
  have h1 := safelenMaxErr_same um uptr maxlen
  unfold kstrdupUser
  split
  · rename_i e
    rwa [e] at h1
  · rename_i len um' e
    rw [e] at h1
    have h2 := safecpyFromUser_same um' uptr (len + 1)
    split <;> (rename_i e'; rw [e'] at h2; exact h1.trans h2)

theorem kstrdupUser_ok {um : UserMem} {uptr maxlen : ℕ} {s : CString}
    (h : (kstrdupUser um uptr maxlen).1 = .ok s) : UserString um uptr s ∧ s.length < maxlen := by
  have h1 := safelenMaxErr_same um uptr maxlen
  unfold kstrdupUser at h
  split at h
  · cases h
  · rename_i len um' e
    rw [e] at h1
    obtain ⟨hlt, hs⟩ := safelenMaxErr_ok (congrArg Prod.fst e)
    split at h
    · cases h
    · rename_i buf um'' e'
      have hbuf : buf = um'.bytesAt uptr (len + 1) := safecpyFromUser_some e'
      have hend := hs.terminator
      rw [UserMem.bytesAt_length] at hend
      have hsplit : um.bytesAt uptr (len + 1) = um.bytesAt uptr len ++ [0] := by
        unfold UserMem.bytesAt
        rw [List.range_succ, List.map_append, List.map_singleton, hend]
      have hcopy : s = um.bytesAt uptr len := by
        rw [← Except.ok.inj h, hbuf, h1.bytesAt, hsplit, cString_append hs.noNul]
      rw [hcopy]
      exact ⟨hs, by rwa [UserMem.bytesAt_length]⟩

theorem safelenMaxErrLoop_error {base : ℕ} : ∀ {n : ℕ} {um : UserMem} {len : ℕ} {err : Int},
    (safelenMaxErrLoop um base n len).1 = .error err → err = -EFAULT ∨ err = -ENAMETOOLONG
  | 0, um, len, err, h => .inr (Except.error.inj h).symm
  | n + 1, um, len, err, h => by
      simp only [safelenMaxErrLoop] at h
      split at h
      · exact .inl (Except.error.inj h).symm
      · split_ifs at h
        exact safelenMaxErrLoop_error h

theorem safelenMaxErr_error {um : UserMem} {str max : ℕ} {err : Int}
    (h : (safelenMaxErr um str max).1 = .error err) : err = -EFAULT ∨ err = -ENAMETOOLONG := by
  unfold safelenMaxErr at h
  split_ifs at h
  · exact .inl (Except.error.inj h).symm
  · exact safelenMaxErrLoop_error h

theorem kstrdupUser_error {um : UserMem} {uptr maxlen : ℕ} {err : Int}
    (h : (kstrdupUser um uptr maxlen).1 = .error err) : err = -EFAULT ∨ err = -ENAMETOOLONG := by
  unfold kstrdupUser at h
  split at h
  · rename_i e
    obtain rfl := Except.error.inj h
    exact safelenMaxErr_error (congrArg Prod.fst e)
  · split at h
    · exact .inl (Except.error.inj h).symm
    · cases h

/-! ### Stores -/

theorem overlay_append (a : ℕ) (xs ys : List UInt8) (f : ℕ → UInt8) :
    overlay a (xs ++ ys) f = overlay (a + xs.length) ys (overlay a xs f) := by
  induction xs generalizing a f with
  | nil => rw [List.nil_append, overlay_nil, List.length_nil, Nat.add_zero]
  | cons x xs ih =>
    rw [List.cons_append, overlay_cons, ih, overlay_cons, List.length_cons]
    congr 1
    omega

theorem overlay_outside {a x : ℕ} {bs : List UInt8} {f : ℕ → UInt8}
    (h : x < a ∨ a + bs.length ≤ x) : overlay a bs f x = f x := by
  unfold overlay
  split_ifs with ha
  · rw [List.getElem?_eq_none (by omega), Option.getD_none]
  · rfl

theorem overlay_inside {a k : ℕ} {bs : List UInt8} {f : ℕ → UInt8} (h : k < bs.length) :
    overlay a bs f (a + k) = bs[k] := by
  unfold overlay
  rw [if_pos (by omega), Nat.add_sub_cancel_left, List.getElem?_eq_getElem h, Option.getD_some]

/-- The bytes that a copy has stored when it ends, all of them if it succeeds. -/
theorem safecpyToUserLoop_puts : ∀ (data : List UInt8) (um : UserMem) (dst : ℕ),
    ∃ n ≤ data.length, (safecpyToUserLoop um dst data).2.byte =
        overlay dst (data.take n) um.byte ∧
      (safecpyToUserLoop um dst data).2.writable = um.writable ∧
      ((safecpyToUserLoop um dst data).1 = 0 ∧ n = data.length ∨
        (safecpyToUserLoop um dst data).1 = -1)
  | [], um, dst => ⟨0, Nat.le_refl 0, (overlay_nil dst um.byte).symm, rfl, .inl ⟨rfl, rfl⟩⟩
  | b :: data, um, dst => by
      unfold safecpyToUserLoop UserMem.store
      cases hw : um.writable dst with
      | false => exact ⟨0, Nat.zero_le _, (overlay_nil dst um.byte).symm, rfl, .inr rfl⟩
      | true =>
          obtain ⟨n, hn, hbyte, hwritable, hr⟩ := safecpyToUserLoop_puts data
            { um with byte := Function.update um.byte dst b, touched := dst :: um.touched } (dst + 1)
          rw [← overlay_cons] at hbyte
          refine ⟨n + 1, Nat.succ_le_succ hn, hbyte, hwritable, ?_⟩
          rcases hr with ⟨hr, rfl⟩ | hr
          · exact .inl ⟨hr, rfl⟩
          · exact .inr hr

/-- Every byte of the user range can be stored to. -/
def UserMem.Stores (um : UserMem) (buf size : ℕ) : Prop :=
  safecpyCheckUser buf size = true ∧ ∀ k < size, um.writable (buf + k) = true

theorem safecpyToUser_puts (um : UserMem) (dst : ℕ) (data : List UInt8) :
    ∃ n ≤ data.length, (safecpyToUser um dst data).2.byte = overlay dst (data.take n) um.byte ∧
      (safecpyToUser um dst data).2.writable = um.writable ∧
      ((safecpyToUser um dst data).1 = 0 ∧ n = data.length ∨ (safecpyToUser um dst data).1 = -1) := by
  unfold safecpyToUser
  split_ifs with h0 hc
  · exact ⟨0, Nat.zero_le _, (overlay_nil dst um.byte).symm, rfl, .inl ⟨rfl, h0.symm⟩⟩
  · exact ⟨0, Nat.zero_le _, (overlay_nil dst um.byte).symm, rfl, .inr rfl⟩
  · exact safecpyToUserLoop_puts data um dst

theorem safecpyToUser_outside {um : UserMem} {dst x : ℕ} {data : List UInt8}
    (h : x < dst ∨ dst + data.length ≤ x) : (safecpyToUser um dst data).2.byte x = um.byte x := by
  obtain ⟨n, hn, hbyte, -, -⟩ := safecpyToUser_puts um dst data
  rw [hbyte]
  apply overlay_outside
  rw [List.length_take]
  omega

/-- A copy of at least one byte succeeds exactly where the range can be stored to. -/
theorem safecpyToUser_stores_iff (um : UserMem) (dst : ℕ) {data : List UInt8} (hne : data ≠ []) :
    (safecpyToUser um dst data).1 ≠ -1 ↔ um.Stores dst data.length := by
  have hlen : data.length ≠ 0 := fun h => hne (List.length_eq_zero_iff.mp h)
  unfold UserMem.Stores
  cases hc : safecpyCheckUser dst data.length with
  | false =>
      have hr : (safecpyToUser um dst data).1 = -1 := by simp [safecpyToUser, hlen, hc]
      simp [hr]
  | true =>
      obtain ⟨hdst, hend⟩ := safecpyCheckUser_iff.mp hc
      rw [Ne, safecpyToUser_fault hdst hend]
      simp

end GalaxyOS
