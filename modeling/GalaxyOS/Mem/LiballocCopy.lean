import GalaxyOS.Mem.LiballocFree
import GalaxyOS.Mem.LiballocServe

/-! # Pieces are filled and copied

What is written into the part of a piece that its caller may use leaves the heap as it is.  So `calloc`
and `realloc` keep the heap, and with it the other pieces.

`HeapInv.store` is about one byte; `HeapInv.memset` and `HeapInv.memcpy` follow by induction over the
bytes and words. -/

namespace GalaxyOS

open Transition Records Linked

variable {σ : Type} {H : LiballocHooks σ} {Ok : σ → Prop} {v : LiballocVersion}
  {st : Liballoc σ} {a n x src dst : ℕ} {L : List Pool} {c d : Chunk}

section Body

variable (hM : H.toBytes.Lawful Ok) (hI : HeapInv H Ok st L) (hc : c ∈ chunksOf L)

include hM hI hc

/-- A byte that the caller may use. -/
theorem HeapInv.store (b : UInt8) (hlo : c.ptr ≤ a) (hhi : a < c.ptr + c.req) :
    H.load st.sys a ≠ none ∧ HeapInv H Ok { st with sys := H.store st.sys a b } L ∧
      H.load (H.store st.sys a b) = Function.update (H.load st.sys) a (some b) := by
  obtain ⟨P, hP, hcP⟩ := List.mem_flatMap.mp hc
  obtain ⟨w, hholds, hrep⟩ := hI.rep
  have hcb := hI.geometry.chunk hP hcP
  have hspec := c.ptr_spec
  have hlow : c.addr + sizeofMinor ≤ a := by
    unfold sizeofMinor
    omega
  have hhigh : a < c.fin := by
    unfold Chunk.fin sizeofMinor
    omega
  have hthere : H.load st.sys a ≠ none := by
    have hmap := hI.mapped P hP (a - P.addr) (by
      have hend : P.fin = P.addr + P.pages * lPageSize := rfl
      omega)
    rwa [Nat.add_sub_cancel' (by omega)] at hmap
  obtain ⟨sys, hrun, hholds', hload⟩ :=
    Liballoc.storeByte_ok hM hholds b hthere (hI.geometry.body_apart hc hlow hhigh)
  have hsys : sys = H.store st.sys a b := by
    unfold Liballoc.storeByte at hrun
    cases hb : H.load st.sys a with
    | none => exact absurd hb hthere
    | some y =>
        rw [hb] at hrun
        exact (congrArg Liballoc.sys (Except.ok.inj hrun)).symm
  subst hsys
  refine ⟨hthere, ?_, hload⟩
  refine hI.keep ⟨w, hholds', hrep⟩ (fun b => ?_) (fun e he => ?_) hI.best rfl rfl
  · rw [hload]
    by_cases hb : b = a
    · rw [hb, Function.update_self]
      exact iff_of_false (Option.some_ne_none _) hthere
    · rw [Function.update_of_ne hb]
  · rw [hload, Function.update_of_ne]
    have hes := e.ptr_spec
    by_cases hec : e = c
    · rw [hec]
      unfold alignInfo
      omega
    · obtain ⟨helo, hehi⟩ := hI.geometry.align_inside he
      have hapart := hI.geometry.bodies_apart he hc hec
      omega

end Body

section Fill

variable (hM : H.toBytes.Lawful Ok) (hc : c ∈ chunksOf L)

include hM hc

theorem HeapInv.storeByte (hI : HeapInv H Ok st L) (b : UInt8) (hlo : c.ptr ≤ a)
    (hhi : a < c.ptr + c.req) :
    st.storeByte H a b = .ok { st with sys := H.store st.sys a b } := by
  obtain ⟨y, hy⟩ := Option.ne_none_iff_exists'.mp (hI.store hM hc b hlo hhi).1
  unfold Liballoc.storeByte
  rw [hy]

/-- `liballoc_memset` inside a piece. -/
theorem HeapInv.memset (b : UInt8) : ∀ {n a : ℕ} {st : Liballoc σ}, HeapInv H Ok st L → c.ptr ≤ a →
    a + n ≤ c.ptr + c.req → ∃ sys, liballocMemset H st a b n = .ok { st with sys := sys } ∧
      HeapInv H Ok { st with sys := sys } L ∧
      ∀ x, H.load sys x = if a ≤ x ∧ x < a + n then some b else H.load st.sys x
  | 0, a, st, hI, _, _ => ⟨st.sys, rfl, hI, fun x => by rw [if_neg (by omega)]⟩
  | n + 1, a, st, hI, hlo, hhi => by
      obtain ⟨-, hI', hload⟩ := hI.store hM hc b hlo (by omega)
      obtain ⟨sys, hrun, hI'', hrest⟩ := memset b hI' (Nat.le_succ_of_le hlo) (n := n) (by omega)
      refine ⟨sys, ?_, hI'', fun x => ?_⟩
      · unfold liballocMemset
        rw [hI.storeByte hM hc b hlo (by omega), ok_bind]
        exact hrun
      · rw [hrest x, hload]
        by_cases hx : x = a
        · rw [hx, if_neg (by omega), if_pos (by omega), Function.update_self]
        · rw [Function.update_of_ne hx]
          by_cases hin : a + 1 ≤ x ∧ x < a + 1 + n
          · rw [if_pos hin, if_pos (by omega)]
          · rw [if_neg hin, if_neg (by omega)]

/-- A number is stored inside a piece. -/
theorem HeapInv.writeNum : ∀ {n a v : ℕ} {st : Liballoc σ}, HeapInv H Ok st L → c.ptr ≤ a →
    a + n ≤ c.ptr + c.req → ∃ sys, H.writeNum st.sys a v n = some sys ∧
      HeapInv H Ok { st with sys := sys } L ∧
      ∀ x, H.load sys x = if a ≤ x ∧ x < a + n then some (byteAt v (x - a)) else H.load st.sys x
  | 0, a, v, st, hI, _, _ => ⟨st.sys, rfl, hI, fun x => by rw [if_neg (by omega)]⟩
  | n + 1, a, v, st, hI, hlo, hhi => by
      obtain ⟨hthere, hI', hload⟩ := hI.store hM hc (UInt8.ofNat v) hlo (by omega)
      obtain ⟨sys, hrun, hI'', hrest⟩ :=
        writeNum (v := v / 0x100) hI' (Nat.le_succ_of_le hlo) (n := n) (by omega)
      refine ⟨sys, ?_, hI'', fun x => ?_⟩
      · unfold Bytes.writeNum
        obtain ⟨y, hy⟩ := Option.ne_none_iff_exists'.mp hthere
        rw [hy]
        exact hrun
      · rw [hrest x, hload]
        by_cases hx : x = a
        · rw [hx, if_neg (by omega), if_pos (by omega), Function.update_self, Nat.sub_self]
          rfl
        · rw [Function.update_of_ne hx]
          by_cases hin : a + 1 ≤ x ∧ x < a + 1 + n
          · rw [if_pos hin, if_pos (by omega), show x - a = x - (a + 1) + 1 by omega]
            rfl
          · rw [if_neg hin, if_neg (by omega)]

/-- The words that `liballoc_memcpy` copies. -/
theorem HeapInv.copyWords : ∀ {n src dst : ℕ} {st : Liballoc σ}, HeapInv H Ok st L →
    H.Mapped st.sys src (4 * n) → c.ptr ≤ dst → dst + 4 * n ≤ c.ptr + c.req →
    (src + 4 * n ≤ dst ∨ dst + 4 * n ≤ src) →
    ∃ sys, GalaxyOS.copyWords H st dst src n = .ok { st with sys := sys } ∧
      HeapInv H Ok { st with sys := sys } L ∧ ∀ x, H.load sys x =
        if dst ≤ x ∧ x < dst + 4 * n then H.load st.sys (src + (x - dst)) else H.load st.sys x
  | 0, src, dst, st, hI, _, _, _, _ => ⟨st.sys, rfl, hI, fun x => by rw [if_neg (by omega)]⟩
  | n + 1, src, dst, st, hI, hmap, hlo, hhi, hapart => by
      obtain ⟨v, hv⟩ := readNum_mapped (hmap.sub (Nat.le_refl src) (m := 4) (by omega))
      obtain ⟨sys₁, hrun₁, hI₁, hload₁⟩ := hI.writeNum hM hc (n := 4) (a := dst) (v := v) hlo (by omega)
      have hsrc : ∀ y, src + 4 ≤ y → y < src + 4 * (n + 1) → H.load sys₁ y = H.load st.sys y := by
        intro y hylo hyhi
        rw [hload₁, if_neg (by omega)]
      have hmap₁ : H.Mapped sys₁ (src + 4) (4 * n) := by
        intro i hi
        rw [hsrc _ (by omega) (by omega), Nat.add_assoc]
        exact hmap (4 + i) (by omega)
      obtain ⟨sys, hrun, hI', hload⟩ := copyWords hI₁ hmap₁
        (show c.ptr ≤ dst + 4 by omega) (by omega) (by omega)
      refine ⟨sys, ?_, hI', fun x => ?_⟩
      · unfold GalaxyOS.copyWords Liballoc.word Liballoc.storeWord
        simp only [Nat.mul_zero, Nat.add_zero, hv, ok_bind, hrun₁]
        exact hrun
      · rw [hload x]
        by_cases hfirst : dst ≤ x ∧ x < dst + 4
        · rw [if_neg (by omega), if_pos (by omega), hload₁, if_pos hfirst,
            readNum_bytes hv _ (by omega)]
        · by_cases hin : dst + 4 ≤ x ∧ x < dst + 4 + 4 * n
          · rw [if_pos hin, if_pos (by omega), show src + 4 + (x - (dst + 4)) = src + (x - dst) by omega]
            exact hsrc _ (by omega) (by omega)
          · rw [if_neg hin, if_neg (by omega), hload₁, if_neg hfirst]

/-- The bytes that are left. -/
theorem HeapInv.copyBytes : ∀ {n src dst : ℕ} {st : Liballoc σ}, HeapInv H Ok st L →
    H.Mapped st.sys src n → c.ptr ≤ dst → dst + n ≤ c.ptr + c.req → (src + n ≤ dst ∨ dst + n ≤ src) →
    ∃ sys, GalaxyOS.copyBytes H st dst src n = .ok { st with sys := sys } ∧
      HeapInv H Ok { st with sys := sys } L ∧ ∀ x, H.load sys x =
        if dst ≤ x ∧ x < dst + n then H.load st.sys (src + (x - dst)) else H.load st.sys x
  | 0, src, dst, st, hI, _, _, _, _ => ⟨st.sys, rfl, hI, fun x => by rw [if_neg (by omega)]⟩
  | n + 1, src, dst, st, hI, hmap, hlo, hhi, hapart => by
      have hthere := hmap 0 (Nat.succ_pos n)
      rw [Nat.add_zero] at hthere
      obtain ⟨b, hb⟩ := Option.ne_none_iff_exists'.mp hthere
      obtain ⟨-, hI₁, hload₁⟩ := hI.store hM hc b hlo (by omega)
      have hsrc : ∀ y, src + 1 ≤ y → y < src + (n + 1) →
          H.load (H.store st.sys dst b) y = H.load st.sys y := by
        intro y hylo hyhi
        rw [hload₁, Function.update_of_ne (by omega)]
      have hmap₁ : H.Mapped (H.store st.sys dst b) (src + 1) n := by
        intro i hi
        rw [hsrc _ (by omega) (by omega), Nat.add_assoc]
        exact hmap (1 + i) (by omega)
      obtain ⟨sys, hrun, hI', hload⟩ := copyBytes hI₁ hmap₁ (Nat.le_succ_of_le hlo) (by omega) (by omega)
      refine ⟨sys, ?_, hI', fun x => ?_⟩
      · unfold GalaxyOS.copyBytes Liballoc.byte
        simp only [hb, ok_bind, hI.storeByte hM hc b hlo (by omega)]
        exact hrun
      · rw [hload x, hload₁]
        by_cases hfirst : x = dst
        · rw [hfirst, if_neg (by omega), if_pos (by omega), Function.update_self, Nat.sub_self,
            Nat.add_zero, hb]
        · by_cases hin : dst + 1 ≤ x ∧ x < dst + 1 + n
          · rw [if_pos hin, if_pos (by omega), show src + 1 + (x - (dst + 1)) = src + (x - dst) by omega,
              Function.update_of_ne (by omega)]
          · rw [if_neg hin, if_neg (by omega), Function.update_of_ne hfirst]

/-- `liballoc_memcpy` into a piece. -/
theorem HeapInv.memcpy (hI : HeapInv H Ok st L) (hmap : H.Mapped st.sys src n) (hlo : c.ptr ≤ dst)
    (hhi : dst + n ≤ c.ptr + c.req) (hapart : src + n ≤ dst ∨ dst + n ≤ src) :
    ∃ sys, liballocMemcpy H st dst src n = .ok { st with sys := sys } ∧
      HeapInv H Ok { st with sys := sys } L ∧ ∀ x, H.load sys x =
        if dst ≤ x ∧ x < dst + n then H.load st.sys (src + (x - dst)) else H.load st.sys x := by
  obtain ⟨sys₁, hrun₁, hI₁, hload₁⟩ := HeapInv.copyWords hM hc (n := n / 4) hI
    (hmap.sub (Nat.le_refl src) (by omega)) hlo (by omega) (by omega)
  have hsrc : ∀ y, src + 4 * (n / 4) ≤ y → y < src + n → H.load sys₁ y = H.load st.sys y := by
    intro y hylo hyhi
    rw [hload₁, if_neg (by omega)]
  have hmap₁ : H.Mapped sys₁ (src + n / 4 * 4) (n % 4) := by
    intro i hi
    rw [hsrc _ (by omega) (by omega), Nat.add_assoc]
    exact hmap _ (by omega)
  obtain ⟨sys, hrun, hI', hload⟩ := HeapInv.copyBytes hM hc hI₁ hmap₁
    (show c.ptr ≤ dst + n / 4 * 4 by omega) (by omega) (by omega)
  refine ⟨sys, ?_, hI', fun x => ?_⟩
  · unfold liballocMemcpy
    rw [hrun₁, ok_bind]
    exact hrun
  · rw [hload x]
    by_cases hlast : dst + n / 4 * 4 ≤ x ∧ x < dst + n / 4 * 4 + n % 4
    · rw [if_pos hlast, if_pos (by omega),
        show src + n / 4 * 4 + (x - (dst + n / 4 * 4)) = src + (x - dst) by omega]
      exact hsrc _ (by omega) (by omega)
    · rw [if_neg hlast, hload₁]
      by_cases hin : dst ≤ x ∧ x < dst + 4 * (n / 4)
      · rw [if_pos hin, if_pos (by omega)]
      · rw [if_neg hin, if_neg (by omega)]

end Fill

/-! ### A piece gets smaller -/

section Shrink

variable {L₁ L₂ : List Pool} {P : Pool} {m₁ m₂ : List Chunk}

/-- The piece with another size noted as the one that was asked for. -/
def Chunk.asking (c : Chunk) (n : ℕ) : Chunk := { c with req := n }

theorem Fits.asking {lo hi : ℕ} (h : Fits lo hi (m₁ ++ c :: m₂)) :
    Fits lo hi (m₁ ++ c.asking n :: m₂) := by
  obtain ⟨h₁, h₂⟩ := fits_append.mp h
  exact fits_append.mpr ⟨h₁, h₂⟩

theorem Geometry.asking (h : Geometry (L₁ ++ P :: L₂)) (hm : P.chunks = m₁ ++ c :: m₂) (hn : n ≤ c.req) :
    Geometry (L₁ ++ P.holding (m₁ ++ c.asking n :: m₂) :: L₂) := by
  have hP : P ∈ L₁ ++ P :: L₂ := List.mem_append_right _ List.mem_cons_self
  have hfits := h.fits P hP
  have hroom := h.room P hP
  rw [hm] at hfits hroom
  apply h.holding hfits.asking
  intro d hd
  cases List.mem_append.mp hd with
  | inl hd₁ => exact hroom d (List.mem_append_left _ hd₁)
  | inr hd₂ =>
      cases List.mem_cons.mp hd₂ with
      | inl heq =>
          have hc := hroom c (List.mem_append_right _ List.mem_cons_self)
          rw [heq]
          exact Nat.le_trans (Nat.add_le_add_right hn _) hc
      | inr hd₂ => exact hroom d (List.mem_append_right _ (List.mem_cons_of_mem c hd₂))

theorem headers_asking (hm : P.chunks = m₁ ++ c :: m₂) :
    headers (L₁ ++ P.holding (m₁ ++ c.asking n :: m₂) :: L₂) = headers (L₁ ++ P :: L₂) := by
  ext a
  rw [mem_headers_split, mem_headers_split, hm]
  simp only [Pool.holding, Chunk.asking, List.mem_append, List.mem_cons, or_and_right, exists_or,
    exists_eq_left]

theorem HeapRep.asking {w : ℕ → ℕ → ℕ} {root : ℕ} (h : HeapRep w root (L₁ ++ P :: L₂))
    (hg : Geometry (L₁ ++ P :: L₂)) (hm : P.chunks = m₁ ++ c :: m₂) :
    HeapRep (setWord w c.addr 5 n) root (L₁ ++ P.holding (m₁ ++ c.asking n :: m₂) :: L₂) := by
  have hP : P ∈ L₁ ++ P :: L₂ := List.mem_append_right _ List.mem_cons_self
  have hc : c ∈ P.chunks := hm ▸ List.mem_append_right m₁ List.mem_cons_self
  have hne : P.addr ≠ c.addr := (hg.chunk_ne_pool hP hc hP).symm
  have hrep := h.pool P hP
  have haddrs : (m₁ ++ c.asking n :: m₂).map Chunk.addr = P.chunks.map Chunk.addr := by
    rw [hm]
    simp [Chunk.asking]
  apply h.update hg
  · intro a _ _ hout j _
    rw [setWord_record w c.addr 5 n (hout c hc)]
  · rw [setWord_record w c.addr 5 n hne]
    exact ⟨rfl, rfl⟩
  · have hpool : ∀ j, setWord w c.addr 5 n P.addr j = w P.addr j := fun j => by
      rw [setWord_record w c.addr 5 n hne]
    have hlink : ∀ a j, j ≠ 5 → setWord w c.addr 5 n a j = w a j := fun a j hj =>
      setWord_field w c.addr n hj a
    refine ⟨(hpool 2).trans hrep.pages, (hpool 3).trans hrep.size, ?_, ?_, ?_, fun d hd => ?_⟩
    · have husage := hrep.usage
      rw [hm] at husage
      refine (hpool 4).trans (husage.trans ?_)
      show sizeofMajor + used (m₁ ++ c :: m₂) = sizeofMajor + used (m₁ ++ c.asking n :: m₂)
      rw [used_append, used_append]
      rfl
    · show setWord w c.addr 5 n P.addr 5 = ((m₁ ++ c.asking n :: m₂).map Chunk.addr).headD 0
      rw [haddrs]
      exact (hpool 5).trans hrep.first
    · show Seg _ _ 0 ((m₁ ++ c.asking n :: m₂).map Chunk.addr) 0
      rw [haddrs]
      exact hrep.chain.congr (fun a _ => hlink a 1 (by decide)) fun a _ => hlink a 0 (by decide)
    · have hnd := (hg.fits P hP).nodup
      rw [hm, List.map_append, List.map_cons] at hnd
      have hother : ∀ d, d ∈ m₁ ∨ d ∈ m₂ → d ∈ P.chunks ∧ d.addr ≠ c.addr := by
        intro d hd
        have hmid := (List.nodup_append.mp hnd).2
        rw [hm]
        cases hd with
        | inl hd₁ =>
            exact ⟨List.mem_append_left _ hd₁, hmid.2 _ (List.mem_map_of_mem hd₁) _ List.mem_cons_self⟩
        | inr hd₂ =>
            refine ⟨List.mem_append_right _ (List.mem_cons_of_mem c hd₂), fun heq => ?_⟩
            exact (List.nodup_cons.mp hmid.1).1 (heq ▸ List.mem_map_of_mem hd₂)
      have hold : ∀ d, d ∈ m₁ ∨ d ∈ m₂ → setWord w c.addr 5 n d.addr 2 = P.addr ∧
          setWord w c.addr 5 n d.addr 3 = liballocMagic ∧ setWord w c.addr 5 n d.addr 4 = d.size ∧
            setWord w c.addr 5 n d.addr 5 = d.req := by
        intro d hd
        obtain ⟨hdP, hdc⟩ := hother d hd
        rw [setWord_record w c.addr 5 n hdc]
        exact hrep.chunk d hdP
      cases List.mem_append.mp hd with
      | inl hd₁ => exact hold d (.inl hd₁)
      | inr hd₂ =>
          cases List.mem_cons.mp hd₂ with
          | inr hd₂ => exact hold d (.inr hd₂)
          | inl heq =>
              obtain ⟨g2, g3, g4, -⟩ := hrep.chunk c hc
              rw [heq]
              exact ⟨(hlink _ 2 (by decide)).trans g2, (hlink _ 3 (by decide)).trans g3,
                (hlink _ 4 (by decide)).trans g4, setWord_self w c.addr 5 n⟩

/-- The size that is asked for is noted in the structure. -/
theorem HeapInv.setReqSize (hM : H.toBytes.Lawful Ok) (hI : HeapInv H Ok st (L₁ ++ P :: L₂))
    (hm : P.chunks = m₁ ++ c :: m₂) (hn : n ≤ c.req) :
    ∃ sys, st.setMinor H c.addr .reqSize n = .ok { st with sys := sys } ∧
      HeapInv H Ok { st with sys := sys } (L₁ ++ P.holding (m₁ ++ c.asking n :: m₂) :: L₂) ∧
      Kept H (L₁ ++ P :: L₂) st.sys sys := by
  obtain ⟨w, hholds, hrep⟩ := hI.rep
  have hP : P ∈ L₁ ++ P :: L₂ := List.mem_append_right _ List.mem_cons_self
  have hc : c ∈ P.chunks := hm ▸ List.mem_append_right m₁ List.mem_cons_self
  have hcb := hI.geometry.chunk hP hc
  have hbounds := hI.geometry.bounds hP
  have hlt : n < 0x100000000 := by
    unfold Chunk.fin at hcb
    omega
  obtain ⟨sys, hstore, hholds', hframe⟩ := Liballoc.storeAll_ok hM [(c.addr, 5, n)] st hholds fun x hx => by
    rw [List.mem_singleton.mp hx]
    exact ⟨Chunk.mem_headers hP hc, (by decide : 5 < 6), hlt⟩
  have hkept := hI.kept_of_frame hframe
  have hmem : ∀ d, d ∈ chunksOf (L₁ ++ P.holding (m₁ ++ c.asking n :: m₂) :: L₂) →
      d = c.asking n ∨ d ∈ chunksOf (L₁ ++ P :: L₂) := by
    intro d hd
    simp only [chunksOf_split, Pool.holding, hm, List.mem_append, List.mem_cons] at hd ⊢
    tauto
  have hcL : c ∈ chunksOf (L₁ ++ P :: L₂) := List.mem_flatMap.mpr ⟨P, hP, hc⟩
  refine ⟨sys, ?_, ⟨hI.geometry.asking hm hn, ⟨setWord w c.addr 5 n, ?_, hrep.asking hI.geometry hm⟩,
    hI.mapped_holding _ hkept.mapped, fun d hd => ?_, ?_, ?_, ?_⟩, hkept⟩
  · simp only [Liballoc.storeAll, bind_ok, Except.ok.injEq] at hstore
    obtain ⟨st', hone, rfl⟩ := hstore
    exact hone
  · rw [headers_asking hm]
    exact hholds'
  · have halign : ∀ e ∈ chunksOf (L₁ ++ P :: L₂), H.load sys (e.ptr - alignInfo) =
        some (UInt8.ofNat (e.ptr - (e.addr + sizeofMinor))) := by
      intro e he
      obtain ⟨hlo, hhi⟩ := hI.geometry.align_inside he
      exact (hkept.bodies e he _ hlo hhi).trans (hI.aligns e he)
    cases hmem d hd with
    | inl heq => exact heq ▸ halign c hcL
    | inr hold => exact halign d hold
  · rw [Pool.addrs_holding]
    exact hI.best
  · rw [poolBytes_holding]
    exact hI.allocated
  · show st.inuse = _
    rw [hI.inuse]
    simp only [chunksOf_split, Pool.holding, hm, chunkBytes_append, chunkBytes, Chunk.asking]

end Shrink

end GalaxyOS
