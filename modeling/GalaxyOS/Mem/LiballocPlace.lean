import Mathlib.Tactic.IntervalCases
import GalaxyOS.Mem.LiballocHeap

/-! # A piece is put into a block

`malloc` puts a piece into a gap between two others in four ways, which differ in the order of their
stores.  `Inserts` says what the words of the structures are after any of them.

`HeapRep.inserted` carries the words over to the whole heap, with `Inserts.outside` for the structures that
are not concerned, and `place_ok` is what any of the four ways leaves. -/

namespace GalaxyOS

open Transition Records Linked

variable {σ : Type} {H : LiballocHooks σ} {Ok : σ → Prop} {st : Liballoc σ} {D : Set ℕ}
  {w w' : ℕ → ℕ → ℕ} {a i x : ℕ} {L L₁ L₂ : List Pool} {P : Pool} {c : Chunk} {m₁ m₂ : List Chunk}

/-! ### Words -/

/-- The bytes of the structures. -/
def headerRecordBytes (D : Set ℕ) : Set ℕ := {b | ∃ a ∈ D, b ∈ piece a 24}

/-- Store several words, one after the other. -/
def Liballoc.storeAll (H : LiballocHooks σ) (st : Liballoc σ) :
    List (ℕ × ℕ × ℕ) → Except Fault (Liballoc σ)
  | [] => .ok st
  | x :: xs => do
      let st ← st.storeWord H x.1 x.2.1 x.2.2
      Liballoc.storeAll H st xs

/-- The words after these stores. -/
def setAll (w : ℕ → ℕ → ℕ) : List (ℕ × ℕ × ℕ) → ℕ → ℕ → ℕ
  | [] => w
  | x :: xs => setAll (setWord w x.1 x.2.1 x.2.2) xs

theorem setWord_apply (w : ℕ → ℕ → ℕ) (a i x b j : ℕ) :
    setWord w a i x b j = if b = a ∧ j = i then x else w b j := by
  by_cases hb : b = a
  · rw [hb]
    by_cases hj : j = i
    · rw [hj, setWord_self, if_pos ⟨rfl, rfl⟩]
    · rw [setWord_field w a x hj, if_neg fun h => hj h.2]
  · rw [setWord_record w a i x hb, if_neg fun h => hb h.1]

theorem Liballoc.word_ok (h : HeapHolds H Ok D w st.sys) (ha : a ∈ D) (hi : i < 6) :
    st.word H a i = .ok (w a i) := by
  unfold Liballoc.word
  rw [h.table.word a ha i hi]

theorem Liballoc.storeAll_ok (hM : H.toBytes.Lawful Ok) :
    ∀ (xs : List (ℕ × ℕ × ℕ)) {w : ℕ → ℕ → ℕ} (st : Liballoc σ), HeapHolds H Ok D w st.sys →
      (∀ x ∈ xs, x.1 ∈ D ∧ x.2.1 < 6 ∧ x.2.2 < 0x100000000) →
      ∃ sys, st.storeAll H xs = .ok { st with sys := sys } ∧ HeapHolds H Ok D (setAll w xs) sys ∧
        H.Frame (headerRecordBytes D) st.sys sys
  | [], w, st, h, _ => ⟨st.sys, rfl, h, .refl _ _⟩
  | x :: xs, w, st, h, hxs => by
      obtain ⟨ha, hi, hx⟩ := hxs x List.mem_cons_self
      obtain ⟨sys, hrun, hok, htable, hframe⟩ := h.table.write hM h.ok ha hi hx
      have hone : st.storeWord H x.1 x.2.1 x.2.2 = .ok { st with sys := sys } := by
        unfold Liballoc.storeWord
        rw [hrun]
      have hnext : HeapHolds H Ok D (setWord w x.1 x.2.1 x.2.2) { st with sys := sys }.sys :=
        ⟨hok, htable⟩
      obtain ⟨sys', hrun', hholds, hframe'⟩ :=
        storeAll_ok hM xs { st with sys := sys } hnext fun y hy => hxs y (List.mem_cons_of_mem x hy)
      have hsub : piece x.1 (4 * 6) ⊆ headerRecordBytes D := fun b hb => ⟨x.1, ha, hb⟩
      refine ⟨sys', ?_, hholds, (hframe.mono hsub).trans hframe'⟩
      unfold Liballoc.storeAll
      rw [hone, ok_bind]
      exact hrun'

/-- A store to a byte that belongs to no structure. -/
theorem Liballoc.storeByte_ok (hM : H.toBytes.Lawful Ok) (h : HeapHolds H Ok D w st.sys) (b : UInt8)
    (hthere : H.load st.sys a ≠ none) (ha : a ∉ headerRecordBytes D) :
    ∃ sys, st.storeByte H a b = .ok { st with sys := sys } ∧ HeapHolds H Ok D w sys ∧
      H.load sys = Function.update (H.load st.sys) a (some b) := by
  have hload := hM.load_store st.sys a b h.ok hthere
  have hframe : H.Frame {a} st.sys (H.store st.sys a b) := by
    refine ⟨fun y hy => ?_, fun y => ?_⟩
    · rw [hload, Function.update_of_ne fun heq => hy heq]
    · rw [hload]
      by_cases hy : y = a
      · rw [hy, Function.update_self]
        exact iff_of_false (Option.some_ne_none _) hthere
      · rw [Function.update_of_ne hy]
  refine ⟨H.store st.sys a b, ?_, ⟨hM.ok_store st.sys a b h.ok hthere, h.table.frame hframe ?_⟩, hload⟩
  · unfold Liballoc.storeByte
    obtain ⟨y, hy⟩ := Option.ne_none_iff_exists'.mp hthere
    rw [hy]
  · rintro d hd y rfl
    by_contra hin
    exact ha ⟨d, hd, by rw [mem_piece]; omega⟩

/-! ### The bytes of the callers -/

/-- The bytes of the pieces `L` are the same. -/
def KeepsBodies (H : LiballocHooks σ) (L : List Pool) (s s' : σ) : Prop :=
  ∀ c ∈ chunksOf L, ∀ b, c.addr + sizeofMinor ≤ b → b < c.fin → H.load s' b = H.load s b

theorem KeepsBodies.trans {s s' s'' : σ} (h : KeepsBodies H L s s') (h' : KeepsBodies H L s' s'') :
    KeepsBodies H L s s'' :=
  fun c hc b hlo hhi => (h' c hc b hlo hhi).trans (h c hc b hlo hhi)

/-- The bytes of a piece belong to no structure and to no other piece. -/
theorem Geometry.body_apart (h : Geometry L) (hc : c ∈ chunksOf L) {b : ℕ}
    (hlo : c.addr + sizeofMinor ≤ b) (hhi : b < c.fin) : b ∉ headerRecordBytes (headers L) := by
  obtain ⟨P, hP, hcP⟩ := List.mem_flatMap.mp hc
  rintro ⟨a, ⟨Q, hQ, haQ⟩, hab⟩
  rw [mem_piece] at hab
  have hcb := h.chunk hP hcP
  have hPb := h.bounds hP
  have hQb := h.bounds hQ
  have hin : Q.addr ≤ a ∧ a + 24 ≤ Q.fin := by
    rcases haQ with rfl | ⟨d, hd, rfl⟩
    · omega
    · have hdb := h.chunk hQ hd
      unfold Chunk.fin sizeofMinor at hdb
      omega
  by_cases hPQ : P = Q
  · subst hPQ
    rcases haQ with rfl | ⟨d, hd, rfl⟩
    · unfold sizeofMinor at hlo
      omega
    · by_cases hcd : c = d
      · subst hcd
        unfold sizeofMinor at hlo
        omega
      · have hapart := (h.fits P hP).apart hcP hd hcd
        unfold Chunk.fin sizeofMinor at *
        omega
  · have hapart := h.apart hP hQ hPQ
    unfold sizeofMinor at hlo
    omega

theorem Geometry.bodies_apart (h : Geometry L) {d : Chunk} (hc : c ∈ chunksOf L)
    (hd : d ∈ chunksOf L) (hne : c ≠ d) : c.fin ≤ d.addr ∨ d.fin ≤ c.addr := by
  obtain ⟨P, hP, hcP⟩ := List.mem_flatMap.mp hc
  obtain ⟨Q, hQ, hdQ⟩ := List.mem_flatMap.mp hd
  by_cases hPQ : P = Q
  · subst hPQ
    exact (h.fits P hP).apart hcP hdQ hne
  · have hapart := h.apart hP hQ hPQ
    have hcb := h.chunk hP hcP
    have hdb := h.chunk hQ hdQ
    omega

/-- A byte of one of the blocks. -/
def InPools (L : List Pool) (b : ℕ) : Prop := ∃ P ∈ L, b ∈ piece P.addr (P.pages * lPageSize)

theorem inPools_split {b : ℕ} : InPools (L₁ ++ P :: L₂) b ↔
    InPools (L₁ ++ L₂) b ∨ b ∈ piece P.addr (P.pages * lPageSize) := by
  simp only [InPools, List.mem_append, List.mem_cons]
  grind

theorem inPools_of (hP : P ∈ L) {b : ℕ} (hlo : P.addr ≤ b) (hhi : b < P.fin) :
    InPools L b := ⟨P, hP, hlo, hhi⟩

/-- The structures and the pieces lie in the blocks. -/
theorem Geometry.record_inside (h : Geometry L) {b : ℕ} (hb : b ∈ headerRecordBytes (headers L)) :
    InPools L b := by
  obtain ⟨a, ha, hab⟩ := hb
  obtain ⟨P, hP, hlo, hhi⟩ := h.header ha
  rw [mem_piece] at hab
  exact inPools_of hP (by omega) (by omega)

theorem Geometry.body_inside (h : Geometry L) (hc : c ∈ chunksOf L) {b : ℕ}
    (hlo : c.addr + sizeofMinor ≤ b) (hhi : b < c.fin) : InPools L b := by
  obtain ⟨P, hP, hcP⟩ := List.mem_flatMap.mp hc
  have hcb := h.chunk hP hcP
  unfold sizeofMinor at hlo
  exact inPools_of hP (by omega) (by omega)

/-- The bytes of the pieces are kept, nothing outside the blocks has changed, and no byte has come or
gone. -/
structure Kept (H : LiballocHooks σ) (L : List Pool) (s s' : σ) : Prop where
  bodies : KeepsBodies H L s s'
  outside : ∀ b, ¬InPools L b → H.load s' b = H.load s b
  mapped : ∀ b, H.load s' b = none ↔ H.load s b = none

/-- A store to structures of the heap leaves the pieces as they are. -/
theorem HeapInv.kept_of_frame {s' : σ} (hI : HeapInv H Ok st L)
    (hf : H.Frame (headerRecordBytes (headers L)) st.sys s') : Kept H L st.sys s' :=
  ⟨fun _ hc b hlo hhi => hf.outside b (hI.geometry.body_apart hc hlo hhi),
    fun b hb => hf.outside b fun hrec => hb (hI.geometry.record_inside hrec), hf.mapped⟩

/-! ### Links -/

/-- The piece `c` is linked in between `m₁` and `m₂`. -/
structure Inserts (w w' : ℕ → ℕ → ℕ) (D : Set ℕ) (P : Pool) (m₁ m₂ : List Chunk) (c : Chunk) :
    Prop where
  prev_new : w' c.addr 0 = (m₁.map Chunk.addr).getLastD 0
  next_new : w' c.addr 1 = (m₂.map Chunk.addr).headD 0
  new : w' c.addr 2 = P.addr ∧ w' c.addr 3 = liballocMagic ∧ w' c.addr 4 = c.size ∧
    w' c.addr 5 = c.req
  next : ∀ a ∈ D, w' a 1 = if (m₁.map Chunk.addr).getLast? = some a then c.addr else w a 1
  prev : ∀ a ∈ D, w' a 0 = if (m₂.map Chunk.addr).head? = some a then c.addr else w a 0
  first : w' P.addr 5 = if m₁ = [] then c.addr else w P.addr 5
  rest : ∀ a ∈ D, w' a 2 = w a 2 ∧ w' a 3 = w a 3 ∧ w' a 4 = w a 4 ∧ (a ≠ P.addr → w' a 5 = w a 5)

/-- The block with other pieces. -/
def Pool.holding (P : Pool) (l : List Chunk) : Pool := { P with chunks := l }

theorem Pool.mem_holding {Q : Pool} {l : List Chunk} (hQ : Q ∈ L₁ ++ P.holding l :: L₂) :
    Q = P.holding l ∨ Q ∈ L₁ ++ P :: L₂ := by
  simp only [List.mem_append, List.mem_cons] at hQ ⊢
  tauto

theorem Pool.addrs_holding (l : List Chunk) :
    (L₁ ++ P.holding l :: L₂).map Pool.addr = (L₁ ++ P :: L₂).map Pool.addr := by
  simp [Pool.holding]

theorem mem_headers_split : a ∈ headers (L₁ ++ P :: L₂) ↔
    a ∈ headers L₁ ∨ (a = P.addr ∨ ∃ c ∈ P.chunks, a = c.addr) ∨ a ∈ headers L₂ := by
  unfold headers
  simp only [Set.mem_ofPred_eq, List.mem_append, List.mem_cons, or_and_right, exists_or, exists_eq_left]

theorem headers_insert (hm : P.chunks = m₁ ++ m₂) :
    headers (L₁ ++ P.holding (m₁ ++ c :: m₂) :: L₂) = insert c.addr (headers (L₁ ++ P :: L₂)) := by
  ext a
  simp only [Set.mem_insert_iff, mem_headers_split, Pool.holding, hm, List.mem_append, List.mem_cons,
    or_and_right, exists_or, exists_eq_left]
  grind

/-- A block may be linked to other blocks. -/
theorem PoolRep.relinked {Q : Pool} (h : PoolRep w Q)
    (hpool : ∀ j, 2 ≤ j → j < 6 → w' Q.addr j = w Q.addr j)
    (hchunk : ∀ d ∈ Q.chunks, ∀ j < 6, w' d.addr j = w d.addr j) : PoolRep w' Q := by
  have hlink : ∀ a ∈ Q.chunks.map Chunk.addr, ∀ j < 6, w' a j = w a j := by
    intro a ha
    obtain ⟨d, hd, rfl⟩ := List.mem_map.mp ha
    exact hchunk d hd
  refine ⟨?_, ?_, ?_, ?_, ?_, fun d hd => ?_⟩
  · rw [hpool 2 (by decide) (by decide), h.pages]
  · rw [hpool 3 (by decide) (by decide), h.size]
  · rw [hpool 4 (by decide) (by decide), h.usage]
  · rw [hpool 5 (by decide) (by decide), h.first]
  · exact h.chain.congr (fun a ha => hlink a ha 1 (by decide)) fun a ha => hlink a ha 0 (by decide)
  · rw [hchunk d hd 2 (by decide), hchunk d hd 3 (by decide), hchunk d hd 4 (by decide),
      hchunk d hd 5 (by decide)]
    exact h.chunk d hd

theorem PoolRep.congr {Q : Pool} (h : PoolRep w Q)
    (hsame : ∀ a, (a = Q.addr ∨ ∃ d ∈ Q.chunks, a = d.addr) → ∀ j < 6, w' a j = w a j) :
    PoolRep w' Q :=
  h.relinked (fun j _ hj => hsame Q.addr (.inl rfl) j hj) fun d hd => hsame d.addr (.inr ⟨d, hd, rfl⟩)

theorem Geometry.chunk_ne_chunk (h : Geometry L) {Q : Pool} {d : Chunk} (hP : P ∈ L)
    (hc : c ∈ P.chunks) (hQ : Q ∈ L) (hd : d ∈ Q.chunks) (hne : P ≠ Q) : c.addr ≠ d.addr := by
  intro heq
  have hapart := h.apart hP hQ hne
  have hcb := h.chunk hP hc
  have hdb := h.chunk hQ hd
  unfold Chunk.fin sizeofMinor at hcb hdb
  omega

/-- Only the pieces of one block have changed. -/
theorem HeapRep.update {root : ℕ} (h : HeapRep w root (L₁ ++ P :: L₂)) (hg : Geometry (L₁ ++ P :: L₂))
    (hout : ∀ a ∈ headers (L₁ ++ P :: L₂), a ≠ P.addr → (∀ d ∈ P.chunks, a ≠ d.addr) →
      ∀ j < 6, w' a j = w a j)
    (hlinks : w' P.addr 0 = w P.addr 0 ∧ w' P.addr 1 = w P.addr 1) {l : List Chunk}
    (hrep : PoolRep w' (P.holding l)) : HeapRep w' root (L₁ ++ P.holding l :: L₂) := by
  have hP : P ∈ L₁ ++ P :: L₂ := List.mem_append_right _ List.mem_cons_self
  have hpools : (L₁ ++ P.holding l :: L₂).map Pool.addr = (L₁ ++ P :: L₂).map Pool.addr :=
    Pool.addrs_holding l
  have hnd := hg.nodup
  rw [List.map_append, List.map_cons] at hnd
  have hother : ∀ Q ∈ L₁ ++ P :: L₂, Q.addr ≠ P.addr → ∀ a,
      (a = Q.addr ∨ ∃ d ∈ Q.chunks, a = d.addr) → ∀ j < 6, w' a j = w a j := by
    intro Q hQ hne a ha
    have hQP : Q ≠ P := fun heq => hne (congrArg Pool.addr heq)
    apply hout a ⟨Q, hQ, ha⟩
    · rcases ha with rfl | ⟨d, hd, rfl⟩
      · exact hne
      · exact hg.chunk_ne_pool hQ hd hP
    · intro d hd
      rcases ha with rfl | ⟨e, he, rfl⟩
      · exact (hg.chunk_ne_pool hP hd hQ).symm
      · exact hg.chunk_ne_chunk hQ he hP hd hQP
  have hpool : ∀ a ∈ (L₁ ++ P :: L₂).map Pool.addr, w' a 0 = w a 0 ∧ w' a 1 = w a 1 := by
    intro a ha
    obtain ⟨Q, hQ, rfl⟩ := List.mem_map.mp ha
    by_cases hne : Q.addr = P.addr
    · rw [hne]
      exact hlinks
    · have hsame := hother Q hQ hne Q.addr (.inl rfl)
      exact ⟨hsame 0 (by decide), hsame 1 (by decide)⟩
  refine ⟨?_, ?_, fun Q hQ => ?_⟩
  · rw [hpools]
    exact h.root
  · rw [hpools]
    exact h.chain.congr (fun a ha => (hpool a ha).2) fun a ha => (hpool a ha).1
  · have hold : ∀ Q, Q ∈ L₁ ∨ Q ∈ L₂ → PoolRep w' Q := by
      intro Q hQ
      have hmem : Q ∈ L₁ ++ P :: L₂ := by
        rcases hQ with hQ | hQ
        · exact List.mem_append_left _ hQ
        · exact List.mem_append_right _ (List.mem_cons_of_mem P hQ)
      apply (h.pool Q hmem).congr
      apply hother Q hmem
      rcases hQ with hQ | hQ
      · exact (List.nodup_append.mp hnd).2.2 _ (List.mem_map_of_mem hQ) _ List.mem_cons_self
      · intro heq
        apply (List.nodup_cons.mp (List.nodup_append.mp hnd).2.1).1
        rw [← heq]
        exact List.mem_map_of_mem hQ
    rcases List.mem_append.mp hQ with hQ₁ | hQ₂
    · exact hold Q (.inl hQ₁)
    · rcases List.mem_cons.mp hQ₂ with rfl | hQ₂
      · exact hrep
      · exact hold Q (.inr hQ₂)

/-- A structure that is no neighbour stays as it is. -/
theorem Inserts.outside (hi : Inserts w w' D P m₁ m₂ c) (ha : a ∈ D) (hP : a ≠ P.addr)
    (hno : ∀ d ∈ m₁ ++ m₂, a ≠ d.addr) : ∀ j < 6, w' a j = w a j := by
  have hout : ∀ m : List Chunk, (∀ d ∈ m, d ∈ m₁ ++ m₂) → a ∉ m.map Chunk.addr := by
    intro m hsub hmem
    obtain ⟨d, hd, hda⟩ := List.mem_map.mp hmem
    exact hno d (hsub d hd) hda.symm
  have hout₁ := hout m₁ fun d hd => List.mem_append_left m₂ hd
  have hout₂ := hout m₂ fun d hd => List.mem_append_right m₁ hd
  obtain ⟨h2, h3, h4, h5⟩ := hi.rest a ha
  intro j hj
  interval_cases j
  · rw [hi.prev a ha, if_neg fun hhead => hout₂ (List.mem_of_head? hhead)]
  · rw [hi.next a ha, if_neg fun hlast => hout₁ (List.mem_of_getLast? hlast)]
  · exact h2
  · exact h3
  · exact h4
  · exact h5 hP

/-- The words describe the block with the piece put in. -/
theorem PoolRep.inserted (h : PoolRep w P) (hm : P.chunks = m₁ ++ m₂)
    (hi : Inserts w w' D P m₁ m₂ c) (hPD : P.addr ∈ D) (hD : ∀ d ∈ P.chunks, d.addr ∈ D)
    (hnd : (P.chunks.map Chunk.addr).Nodup) (hold : ∀ d ∈ P.chunks, d.addr ≠ P.addr)
    (hcne : c.addr ≠ P.addr) :
    PoolRep (setWord w' P.addr 4 (w' P.addr 4 + (c.size + sizeofMinor)))
      (P.holding (m₁ ++ c :: m₂)) := by
  have hfield : ∀ a j, j ≠ 4 →
      setWord w' P.addr 4 (w' P.addr 4 + (c.size + sizeofMinor)) a j = w' a j :=
    fun a j hj => setWord_field w' P.addr _ hj a
  have hrecord : ∀ a j, a ≠ P.addr →
      setWord w' P.addr 4 (w' P.addr 4 + (c.size + sizeofMinor)) a j = w' a j :=
    fun a j ha => by rw [setWord_record w' P.addr 4 _ ha]
  obtain ⟨h2, h3, h4, -⟩ := hi.rest P.addr hPD
  refine ⟨?_, ?_, ?_, ?_, ?_, fun d hd => ?_⟩
  · rw [hfield _ 2 (by decide)]
    exact h2.trans h.pages
  · rw [hfield _ 3 (by decide)]
    exact h3.trans h.size
  · show setWord w' P.addr 4 _ P.addr 4 = sizeofMajor + used (m₁ ++ c :: m₂)
    rw [setWord_self, h4, h.usage, hm, used_append, used_append, used_cons]
    omega
  · rw [hfield _ 5 (by decide)]
    show w' P.addr 5 = ((m₁ ++ c :: m₂).map Chunk.addr).headD 0
    rw [hi.first, h.first, hm]
    cases m₁ with
    | nil => rfl
    | cons d m₁ => rfl
  · show Seg _ _ 0 ((m₁ ++ c :: m₂).map Chunk.addr) 0
    have hchain := h.chain
    have hmem : ∀ a ∈ P.chunks.map Chunk.addr, a ∈ D := by
      intro a ha
      obtain ⟨d, hd, rfl⟩ := List.mem_map.mp ha
      exact hD d hd
    rw [hm, List.map_append] at hchain hnd hmem
    rw [List.map_append, List.map_cons]
    refine hchain.insert hnd ?_ ?_ (fun a ha => ?_) fun a ha => ?_
    · rw [hfield _ 1 (by decide)]
      exact hi.next_new
    · rw [hfield _ 0 (by decide)]
      exact hi.prev_new
    · rw [hfield _ 1 (by decide)]
      exact hi.next a (hmem a ha)
    · rw [hfield _ 0 (by decide)]
      exact hi.prev a (hmem a ha)
  · have hmem : d = c ∨ d ∈ P.chunks := by
      rw [hm]
      rcases List.mem_append.mp hd with hd₁ | hd₂
      · exact .inr (List.mem_append_left _ hd₁)
      · rcases List.mem_cons.mp hd₂ with rfl | hd₂
        · exact .inl rfl
        · exact .inr (List.mem_append_right _ hd₂)
    cases hmem with
    | inl heq =>
        rw [heq, hrecord _ 2 hcne, hrecord _ 3 hcne, hrecord _ 4 hcne, hrecord _ 5 hcne]
        exact hi.new
    | inr hdP =>
        have hne := hold d hdP
        obtain ⟨g2, g3, g4, g5⟩ := hi.rest d.addr (hD d hdP)
        rw [hrecord _ 2 hne, hrecord _ 3 hne, hrecord _ 4 hne, hrecord _ 5 hne, g2, g3, g4, g5 hne]
        exact h.chunk d hdP

/-- The words describe the heap with the piece put in. -/
theorem HeapRep.inserted {root : ℕ} (h : HeapRep w root (L₁ ++ P :: L₂))
    (hg : Geometry (L₁ ++ P :: L₂)) (hm : P.chunks = m₁ ++ m₂)
    (hi : Inserts w w' (headers (L₁ ++ P :: L₂)) P m₁ m₂ c) (hnew : c.addr ∉ headers (L₁ ++ P :: L₂)) :
    HeapRep (setWord w' P.addr 4 (w' P.addr 4 + (c.size + sizeofMinor))) root
      (L₁ ++ P.holding (m₁ ++ c :: m₂) :: L₂) := by
  have hP : P ∈ L₁ ++ P :: L₂ := List.mem_append_right _ List.mem_cons_self
  have hPD := Pool.mem_headers hP
  have hold : ∀ d ∈ P.chunks, d.addr ≠ P.addr := fun d hd => hg.chunk_ne_pool hP hd hP
  have hcne : c.addr ≠ P.addr := fun heq => hnew (heq ▸ hPD)
  have hends : ∀ m : List Chunk, (∀ d ∈ m, d ∈ P.chunks) → P.addr ∉ m.map Chunk.addr := by
    intro m hsub hmem
    obtain ⟨d, hd, heq⟩ := List.mem_map.mp hmem
    exact hold d (hsub d hd) heq
  apply h.update hg
  · intro a ha haP hno j hj
    rw [setWord_record w' P.addr 4 _ haP]
    exact hi.outside ha haP (hm ▸ hno) j hj
  · rw [setWord_field w' P.addr _ (by decide), setWord_field w' P.addr _ (by decide),
      hi.prev _ hPD, hi.next _ hPD, if_neg fun hhead => ?_, if_neg fun hlast => ?_]
    · exact ⟨rfl, rfl⟩
    · exact hends m₁ (fun d hd => hm ▸ List.mem_append_left m₂ hd) (List.mem_of_getLast? hlast)
    · exact hends m₂ (fun d hd => hm ▸ List.mem_append_right m₁ hd) (List.mem_of_head? hhead)
  · exact (h.pool P hP).inserted hm hi hPD (fun d hd => Chunk.mem_headers hP hd)
      (hg.fits P hP).nodup hold hcne

theorem HeapRep.congr {root : ℕ} (h : HeapRep w root L)
    (hsame : ∀ a ∈ headers L, ∀ j < 6, w' a j = w a j) : HeapRep w' root L := by
  have hpool : ∀ a ∈ L.map Pool.addr, ∀ j < 6, w' a j = w a j := by
    intro a ha
    obtain ⟨Q, hQ, rfl⟩ := List.mem_map.mp ha
    exact hsame Q.addr (Pool.mem_headers hQ)
  exact ⟨h.root, h.chain.congr (fun a ha => hpool a ha 1 (by decide))
    fun a ha => hpool a ha 0 (by decide), fun Q hQ => (h.pool Q hQ).congr fun a ha =>
      hsame a ⟨Q, hQ, ha⟩⟩

/-! ### The totals -/

theorem chunkBytes_append : ∀ {l l' : List Chunk}, chunkBytes (l ++ l') = chunkBytes l + chunkBytes l'
  | [], _ => (Nat.zero_add _).symm
  | c :: l, l' => by
      simp only [List.cons_append, chunkBytes, chunkBytes_append (l := l), Nat.add_assoc]

theorem poolBytes_append : ∀ {L₁ L₂ : List Pool}, poolBytes (L₁ ++ L₂) = poolBytes L₁ + poolBytes L₂
  | [], _ => (Nat.zero_add _).symm
  | P :: L₁, L₂ => by
      have hrest : poolBytes (L₁ ++ L₂) = poolBytes L₁ + poolBytes L₂ := poolBytes_append
      simp only [List.cons_append, poolBytes, hrest, Nat.add_assoc]

theorem chunksOf_split : chunksOf (L₁ ++ P :: L₂) = chunksOf L₁ ++ P.chunks ++ chunksOf L₂ := by
  simp [chunksOf]

theorem mem_chunksOf_insert (hm : P.chunks = m₁ ++ m₂) {d : Chunk} :
    d ∈ chunksOf (L₁ ++ P.holding (m₁ ++ c :: m₂) :: L₂) ↔ d = c ∨ d ∈ chunksOf (L₁ ++ P :: L₂) := by
  simp only [chunksOf_split, Pool.holding, hm, List.mem_append, List.mem_cons]
  grind

theorem chunkBytes_insert (hm : P.chunks = m₁ ++ m₂) :
    chunkBytes (chunksOf (L₁ ++ P.holding (m₁ ++ c :: m₂) :: L₂)) =
      chunkBytes (chunksOf (L₁ ++ P :: L₂)) + c.size := by
  simp only [chunksOf_split, Pool.holding, hm, chunkBytes_append, chunkBytes]
  omega

theorem poolBytes_holding (l : List Chunk) :
    poolBytes (L₁ ++ P.holding l :: L₂) = poolBytes (L₁ ++ P :: L₂) := by
  simp only [poolBytes_append, poolBytes, Pool.holding]

/-! ### A piece is put in -/

/-- Other pieces in one of the blocks. -/
theorem Geometry.holding (h : Geometry (L₁ ++ P :: L₂)) {l : List Chunk} (hfits : Fits P.start P.fin l)
    (hroom : ∀ d ∈ l, d.req + (alignment + alignInfo) ≤ d.size) :
    Geometry (L₁ ++ P.holding l :: L₂) := by
  have hP : P ∈ L₁ ++ P :: L₂ := List.mem_append_right _ List.mem_cons_self
  refine ⟨?_, fun Q hQ => ?_, fun Q hQ => ?_, fun Q hQ => ?_⟩
  · have hsame : (L₁ ++ P.holding l :: L₂).map (fun P => (P.addr, P.pages * lPageSize)) =
        (L₁ ++ P :: L₂).map fun P => (P.addr, P.pages * lPageSize) := by
      simp [Pool.holding]
    rw [hsame]
    exact h.blocks
  · rcases Pool.mem_holding hQ with rfl | hold
    · exact h.pages P hP
    · exact h.pages Q hold
  · rcases Pool.mem_holding hQ with rfl | hold
    · exact hfits
    · exact h.fits Q hold
  · rcases Pool.mem_holding hQ with rfl | hold
    · exact hroom
    · exact h.room Q hold

/-- The bytes of the blocks are there whatever the pieces are. -/
theorem HeapInv.mapped_holding {s : σ} (hI : HeapInv H Ok st (L₁ ++ P :: L₂)) (l : List Chunk)
    (hm : ∀ b, H.load s b = none ↔ H.load st.sys b = none) :
    ∀ Q ∈ L₁ ++ P.holding l :: L₂, H.Mapped s Q.addr (Q.pages * lPageSize) := by
  intro Q hQ i hi hnone
  have hP : P ∈ L₁ ++ P :: L₂ := List.mem_append_right _ List.mem_cons_self
  rcases Pool.mem_holding hQ with rfl | hold
  · exact hI.mapped P hP i hi ((hm _).mp hnone)
  · exact hI.mapped Q hold i hi ((hm _).mp hnone)

theorem Geometry.insert (h : Geometry (L₁ ++ P :: L₂)) (hm : P.chunks = m₁ ++ m₂)
    (haddr : c.addr = lastEnd P.start m₁) (hfin : c.fin ≤ firstStart P.fin m₂)
    (hroom : c.req + (alignment + alignInfo) ≤ c.size) :
    Geometry (L₁ ++ P.holding (m₁ ++ c :: m₂) :: L₂) := by
  have hP : P ∈ L₁ ++ P :: L₂ := List.mem_append_right _ List.mem_cons_self
  have hfits := h.fits P hP
  have hold := h.room P hP
  rw [hm] at hfits hold
  apply h.holding (hfits.insert haddr hfin)
  intro d hd
  rcases List.mem_append.mp hd with hd₁ | hd₂
  · exact hold d (List.mem_append_left _ hd₁)
  · rcases List.mem_cons.mp hd₂ with rfl | hd₂
    · exact hroom
    · exact hold d (List.mem_append_right _ hd₂)

theorem Geometry.fresh (h : Geometry (L₁ ++ P.holding (m₁ ++ c :: m₂) :: L₂))
    (hm : P.chunks = m₁ ++ m₂) : c.addr ∉ headers (L₁ ++ P :: L₂) := by
  have hP : P.holding (m₁ ++ c :: m₂) ∈ L₁ ++ P.holding (m₁ ++ c :: m₂) :: L₂ :=
    List.mem_append_right _ List.mem_cons_self
  have hc : c ∈ (P.holding (m₁ ++ c :: m₂)).chunks :=
    List.mem_append_right m₁ List.mem_cons_self
  have hnd := (h.fits _ hP).nodup
  have hother : ∀ Q, Q ∈ L₁ ∨ Q ∈ L₂ → c.addr ≠ Q.addr ∧ ∀ d ∈ Q.chunks, c.addr ≠ d.addr := by
    intro Q hQ
    have hmem : Q ∈ L₁ ++ P.holding (m₁ ++ c :: m₂) :: L₂ := by
      rcases hQ with hQ | hQ
      · exact List.mem_append_left _ hQ
      · exact List.mem_append_right _ (List.mem_cons_of_mem _ hQ)
    refine ⟨h.chunk_ne_pool hP hc hmem, fun d hd => ?_⟩
    refine h.chunk_ne_chunk hP hc hmem hd ?_
    rintro rfl
    have hnodup := h.nodup
    rw [List.map_append, List.map_cons] at hnodup
    rcases hQ with hQ | hQ
    · exact (List.nodup_append.mp hnodup).2.2 _ (List.mem_map_of_mem hQ) _ List.mem_cons_self rfl
    · exact (List.nodup_cons.mp (List.nodup_append.mp hnodup).2.1).1 (List.mem_map_of_mem hQ)
  intro hmem
  rcases mem_headers_split.mp hmem with ⟨Q, hQ, heq⟩ | heq | ⟨Q, hQ, heq⟩
  · rcases heq with heq | ⟨d, hd, heq⟩
    · exact (hother Q (.inl hQ)).1 heq
    · exact (hother Q (.inl hQ)).2 d hd heq
  · rcases heq with heq | ⟨d, hd, heq⟩
    · exact h.chunk_ne_pool hP hc hP heq
    · rw [hm] at hd
      have hnd' : ((m₁ ++ c :: m₂).map Chunk.addr).Nodup := hnd
      rw [List.map_append, List.map_cons, List.nodup_append, List.nodup_cons] at hnd'
      rcases List.mem_append.mp hd with hd₁ | hd₂
      · exact hnd'.2.2 _ (List.mem_map_of_mem hd₁) _ List.mem_cons_self heq.symm
      · exact hnd'.2.1.1 (heq ▸ List.mem_map_of_mem hd₂)
  · rcases heq with heq | ⟨d, hd, heq⟩
    · exact (hother Q (.inr hQ)).1 heq
    · exact (hother Q (.inr hQ)).2 d hd heq

/-- What a piece that has been put in changes besides the heap. -/
structure Granted (H : LiballocHooks σ) (L : List Pool) (st st' : Liballoc σ) (size : ℕ) : Prop where
  kept : Kept H L st.sys st'.sys
  rest : st' = { st with sys := st'.sys, inuse := st.inuse + size }

theorem wrap32_of_lt {n : ℕ} (h : n < 0x100000000) : wrap32 n = n := Nat.mod_eq_of_lt h

theorem sub32_of_le {n k : ℕ} (h : k ≤ n) (hn : n < 0x100000000) : sub32 n k = n - k := by
  unfold sub32 wrap32
  omega

/-- The end of the memory may have wrapped to `0`. -/
theorem sub32_wrap {n k : ℕ} (h : k ≤ n) (hn : n ≤ 0x100000000) (hk : k ≠ 0) :
    sub32 (wrap32 n) k = n - k := by
  unfold sub32 wrap32
  omega

theorem Liballoc.use_ok (hM : H.toBytes.Lawful Ok) (st : Liballoc σ) {maj size : ℕ} (h : HeapHolds H Ok D w st.sys)
    (ha : maj ∈ D) (hlt : w maj 4 + (size + sizeofMinor) < 0x100000000) :
    ∃ sys, st.use H maj size = .ok { st with sys := sys } ∧
      HeapHolds H Ok D (setWord w maj 4 (w maj 4 + (size + sizeofMinor))) sys ∧
      H.Frame (headerRecordBytes D) st.sys sys := by
  obtain ⟨sys, hrun, hholds, hframe⟩ := Liballoc.storeAll_ok hM
    [(maj, 4, w maj 4 + (size + sizeofMinor))] st h fun x hx => by
      rw [List.mem_singleton.mp hx]
      exact ⟨ha, (by decide : 4 < 6), hlt⟩
  refine ⟨sys, ?_, hholds, hframe⟩
  unfold Liballoc.use Liballoc.major Liballoc.setMajor
  rw [show MajorField.usage.index = 4 from rfl, Liballoc.word_ok h ha (by decide), ok_bind,
    wrap32_of_lt (n := size + sizeofMinor) (by omega), wrap32_of_lt hlt]
  simp only [Liballoc.storeAll] at hrun
  rw [← hrun]
  cases st.storeWord H maj 4 (w maj 4 + (size + sizeofMinor)) <;> rfl

theorem Liballoc.granted_ok (hM : H.toBytes.Lawful Ok) (st : Liballoc σ) (h : HeapHolds H Ok D w st.sys)
    (hfin : c.fin ≤ 0x100000000) (hroom : c.req + (alignment + alignInfo) ≤ c.size)
    (hthere : H.load st.sys (c.ptr - alignInfo) ≠ none)
    (hout : c.ptr - alignInfo ∉ headerRecordBytes D) :
    ∃ sys, st.granted H c.addr c.size =
        .ok (some c.ptr, { st with sys := sys, inuse := st.inuse + c.size }) ∧
      HeapHolds H Ok D w sys ∧ H.load sys = Function.update (H.load st.sys) (c.ptr - alignInfo)
        (some (UInt8.ofNat (c.ptr - (c.addr + sizeofMinor)))) := by
  obtain ⟨sys, hrun, hholds, hload⟩ := Liballoc.storeByte_ok hM h
    (UInt8.ofNat (c.ptr - (c.addr + sizeofMinor))) hthere hout
  refine ⟨sys, ?_, hholds, hload⟩
  have hspec := c.ptr_spec
  have hptr : c.ptr = c.addr + 24 + 16 + alignDiff (c.addr + 24 + 16) := rfl
  unfold Chunk.fin sizeofMinor at hfin
  unfold alignment alignInfo at hroom
  have h24 : wrap32 (c.addr + sizeofMinor) = c.addr + 24 := wrap32_of_lt (by unfold sizeofMinor; omega)
  have h40 : wrap32 (c.addr + 24 + alignInfo) = c.addr + 24 + 16 :=
    wrap32_of_lt (by unfold alignInfo; omega)
  have hp : wrap32 (c.addr + 24 + 16 + alignDiff (c.addr + 24 + 16)) = c.ptr :=
    wrap32_of_lt (by omega)
  have hat : sub32 c.ptr alignInfo = c.ptr - alignInfo :=
    sub32_of_le (by unfold alignInfo; omega) (by omega)
  have hval : alignDiff (c.addr + 24 + 16) + alignInfo = c.ptr - (c.addr + sizeofMinor) := by
    unfold alignInfo sizeofMinor
    omega
  unfold Liballoc.granted Liballoc.align
  simp only [h24, h40, hp, hat, hval]
  have hrun' : Liballoc.storeByte H { st with inuse := st.inuse + c.size } (c.ptr - alignInfo)
      (UInt8.ofNat (c.ptr - (c.addr + sizeofMinor))) =
        .ok { st with sys := sys, inuse := st.inuse + c.size } := by
    unfold Liballoc.storeByte at hrun ⊢
    simp only at hrun ⊢
    cases hb : H.load st.sys (c.ptr - alignInfo) with
    | none => exact absurd hb hthere
    | some b =>
        simp only [hb, Except.ok.injEq] at hrun ⊢
        have hsys := congrArg Liballoc.sys hrun
        simp only at hsys
        rw [hsys]
  rw [hrun']
  rfl

/-- The stores of one of the cases, the count of the bytes in use and the alignment together put the
piece into the heap. -/
theorem place_ok (hM : H.toBytes.Lawful Ok) (hI : HeapInv H Ok st (L₁ ++ P :: L₂))
    (hm : P.chunks = m₁ ++ m₂) (haddr : c.addr = lastEnd P.start m₁)
    (hfin : c.fin ≤ firstStart P.fin m₂) (hroom : c.req + (alignment + alignInfo) ≤ c.size)
    (xs : List (ℕ × ℕ × ℕ))
    (hxs : ∀ x ∈ xs, x.1 ∈ headers (L₁ ++ P.holding (m₁ ++ c :: m₂) :: L₂) ∧ x.2.1 < 6 ∧
      x.2.2 < 0x100000000)
    (hins : ∀ w, HeapRep w st.memRoot (L₁ ++ P :: L₂) →
      Inserts w (setAll w xs) (headers (L₁ ++ P :: L₂)) P m₁ m₂ c) :
    ∃ st', (do
        let st ← st.storeAll H xs
        let st ← st.use H P.addr c.size
        st.granted H c.addr c.size) = .ok (some c.ptr, st') ∧
      HeapInv H Ok st' (L₁ ++ P.holding (m₁ ++ c :: m₂) :: L₂) ∧
      Granted H (L₁ ++ P :: L₂) st st' c.size := by
  obtain ⟨w, hholds, hrep⟩ := hI.rep
  have hP : P ∈ L₁ ++ P :: L₂ := List.mem_append_right _ List.mem_cons_self
  have hgeo := hI.geometry.insert hm haddr hfin hroom
  have hfresh := hgeo.fresh hm
  have hP' : P.holding (m₁ ++ c :: m₂) ∈ L₁ ++ P.holding (m₁ ++ c :: m₂) :: L₂ :=
    List.mem_append_right _ List.mem_cons_self
  have hc' : c ∈ (P.holding (m₁ ++ c :: m₂)).chunks := List.mem_append_right m₁ List.mem_cons_self
  have hcD := Chunk.mem_headers hP' hc'
  have hcall : c ∈ chunksOf (L₁ ++ P.holding (m₁ ++ c :: m₂) :: L₂) :=
    (mem_chunksOf_insert hm).mpr (.inl rfl)
  obtain ⟨hlow, hhigh, -⟩ := hgeo.chunk hP' hc'
  have hbounds := hI.geometry.bounds hP
  have hspec := c.ptr_spec
  have hinP : c.fin ≤ P.fin := hhigh
  have hlowP : P.addr + 24 ≤ c.addr := hlow
  have hthere : ∀ b, P.addr ≤ b → b < P.fin → H.load st.sys b ≠ none := by
    intro b hlo hhi
    have hmap := hI.mapped P hP (b - P.addr) (by unfold Pool.fin at hhi; omega)
    rwa [Nat.add_sub_cancel' hlo] at hmap
  have hnew : H.Mapped st.sys c.addr (4 * 6) := by
    intro i hi
    unfold Chunk.fin sizeofMinor at hinP
    exact hthere _ (by omega) (by omega)
  have hapart : ∀ b ∈ headers (L₁ ++ P :: L₂), c.addr + 4 * 6 ≤ b ∨ b + 4 * 6 ≤ c.addr := by
    intro b hb
    apply hgeo.headers_apart hcD
    · rw [headers_insert hm]
      exact .inr hb
    · rintro rfl
      exact hfresh hb
  obtain ⟨r, htable⟩ := hholds.table.insert hnew hapart hfresh
  rw [← headers_insert hm] at htable
  have hrep' : HeapRep (Function.update w c.addr r) st.memRoot (L₁ ++ P :: L₂) := by
    apply hrep.congr
    intro a ha j _
    rw [Function.update_of_ne]
    rintro rfl
    exact hfresh ha
  have hI' := hins _ hrep'
  have hfinal := hrep'.inserted hI.geometry hm hI' hfresh
  obtain ⟨s₁, hrun₁, hholds₁, hframe₁⟩ := Liballoc.storeAll_ok hM xs st ⟨hholds.ok, htable⟩ hxs
  have hPD : P.addr ∈ headers (L₁ ++ P.holding (m₁ ++ c :: m₂) :: L₂) :=
    show (P.holding (m₁ ++ c :: m₂)).addr ∈ _ from Pool.mem_headers hP'
  have husage := (hfinal.pool _ hP').usage
  have hfits := (hgeo.fits _ hP').le
  rw [show (P.holding (m₁ ++ c :: m₂)).addr = P.addr from rfl, setWord_self] at husage
  have hlt : setAll (Function.update w c.addr r) xs P.addr 4 + (c.size + sizeofMinor) <
      0x100000000 := by
    rw [husage]
    have hstart : (P.holding (m₁ ++ c :: m₂)).start = P.addr + sizeofMajor := rfl
    have hend : (P.holding (m₁ ++ c :: m₂)).fin = P.fin := rfl
    omega
  obtain ⟨s₂, hrun₂, hholds₂, hframe₂⟩ :=
    Liballoc.use_ok hM { st with sys := s₁ } hholds₁ hPD hlt
  have hframe := hframe₁.trans hframe₂
  have hbody := hgeo.body_apart hcall (b := c.ptr - alignInfo)
    (by unfold sizeofMinor alignInfo; omega)
    (by unfold Chunk.fin sizeofMinor alignInfo; unfold alignment alignInfo at hroom; omega)
  have hptr : H.load s₂ (c.ptr - alignInfo) ≠ none := by
    intro hnone
    refine hthere (c.ptr - alignInfo) (by unfold alignInfo; omega) ?_ ((hframe.mapped _).mp hnone)
    unfold Chunk.fin sizeofMinor at hinP
    unfold alignInfo
    unfold alignment alignInfo at hroom
    omega
  obtain ⟨s₃, hrun₃, hholds₃, hload₃⟩ :=
    Liballoc.granted_ok hM { st with sys := s₂ } hholds₂ (by omega) hroom hptr hbody
  have hsame : ∀ d ∈ chunksOf (L₁ ++ P :: L₂), ∀ b, d.addr + sizeofMinor ≤ b → b < d.fin →
      H.load s₃ b = H.load st.sys b := by
    intro d hd b hlo hhi
    have hd' : d ∈ chunksOf (L₁ ++ P.holding (m₁ ++ c :: m₂) :: L₂) :=
      (mem_chunksOf_insert hm).mpr (.inr hd)
    have hdc : d ≠ c := by
      rintro rfl
      obtain ⟨Q, hQ, hdQ⟩ := List.mem_flatMap.mp hd
      exact hfresh (Chunk.mem_headers hQ hdQ)
    rw [hload₃, Function.update_of_ne, hframe.outside b (hgeo.body_apart hd' hlo hhi)]
    have hbodies := hgeo.bodies_apart hd' hcall hdc
    unfold Chunk.fin sizeofMinor alignInfo at *
    unfold alignment at hroom
    omega
  have hmapped : ∀ b, H.load s₃ b = none ↔ H.load st.sys b = none := by
    intro b
    rw [← hframe.mapped b, hload₃]
    by_cases hb : b = c.ptr - alignInfo
    · rw [hb, Function.update_self]
      exact iff_of_false (Option.some_ne_none _) hptr
    · rw [Function.update_of_ne hb]
  have houtside : ∀ b, ¬InPools (L₁ ++ P :: L₂) b → H.load s₃ b = H.load st.sys b := by
    intro b hb
    have hb' : ¬InPools (L₁ ++ P.holding (m₁ ++ c :: m₂) :: L₂) b := by
      rw [inPools_split] at hb ⊢
      exact hb
    rw [hload₃, Function.update_of_ne, hframe.outside b fun hrec => hb' (hgeo.record_inside hrec)]
    rintro rfl
    refine hb (inPools_of hP (by unfold alignInfo; omega) ?_)
    unfold Chunk.fin sizeofMinor at hinP
    unfold alignInfo
    unfold alignment alignInfo at hroom
    omega
  refine ⟨{ st with sys := s₃, inuse := st.inuse + c.size }, ?_, ?_, ⟨⟨hsame, houtside, hmapped⟩, rfl⟩⟩
  · rw [hrun₁, ok_bind, hrun₂, ok_bind, hrun₃]
  · refine ⟨hgeo, ⟨_, hholds₃, hfinal⟩, hI.mapped_holding _ hmapped, fun d hd => ?_, ?_, ?_, ?_⟩
    · rcases (mem_chunksOf_insert hm).mp hd with rfl | hold
      · show H.load s₃ _ = _
        rw [hload₃, Function.update_self]
      · have hds := d.ptr_spec
        obtain ⟨Q, hQ, hdQ⟩ := List.mem_flatMap.mp hold
        have hdroom := (hI.geometry.chunk hQ hdQ).2.2
        show H.load s₃ _ = _
        rw [hsame d hold _ (by unfold sizeofMinor alignInfo; omega)
          (by unfold Chunk.fin sizeofMinor alignInfo; omega)]
        exact hI.aligns d hold
    · rw [Pool.addrs_holding]
      exact hI.best
    · rw [poolBytes_holding]
      exact hI.allocated
    · rw [chunkBytes_insert hm]
      show st.inuse + c.size = _
      rw [hI.inuse]

end GalaxyOS
