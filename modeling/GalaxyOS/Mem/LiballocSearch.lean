import GalaxyOS.Mem.LiballocMalloc

/-! # The search through the blocks

`malloc` goes through the blocks, first from the best bet and then from the root.  It asks the system
for pages only when no gap of any block is large enough; the new block is linked behind the last one.

`allocateNewPage_ok` and `appendMajor_ok` are about the new block, `HeapInv.next_ok` and
`HeapInv.last_bet` about the step to the next one. -/

namespace GalaxyOS

open Transition Records Linked

variable {σ : Type} {H : LiballocHooks σ} {Ok : σ → Prop} {v : LiballocVersion} {top : ℕ}
  {st : Liballoc σ} {w w' : ℕ → ℕ → ℕ} {size req root : ℕ} {L L₁ L₂ : List Pool} {P Q : Pool}

/-- What `liballoc_alloc` and `liballoc_free` do: new pages were not there before, and nothing else
changes.  There is nothing at the null pointer. -/
structure LiballocHooks.Lawful (H : LiballocHooks σ) (v : LiballocVersion) (Ok : σ → Prop)
    (top : ℕ) : Prop where
  bytes : H.toBytes.Lawful Ok
  pages : lPageCount ≤ top ∧ top * lPageSize < 0x100000000
  null : ∀ s, Ok s → H.load s 0 = none
  refused : ∀ s n s', Ok s → n ≤ top → H.liballocAlloc s n = .ok (0, s') → Ok s' ∧ H.load s' = H.load s
  fresh : ∀ s n a s', Ok s → n ≤ top → H.liballocAlloc s n = .ok (a, s') → a ≠ 0 →
    Ok s' ∧ a % lPageSize = 0 ∧ a + n * lPageSize ≤ 0x100000000 ∧
      (∀ b ∈ piece a (n * lPageSize), H.load s b = none ∧ H.load s' b ≠ none) ∧
      ∀ b ∉ piece a (n * lPageSize), H.load s' b = H.load s b
  -- the C library never gives pages back
  freed : v = .kernel → ∀ s a n, Ok s → a % lPageSize = 0 → H.Mapped s a (n * lPageSize) →
    Ok (H.liballocFree s a n).2 ∧
      (∀ b ∈ piece a (n * lPageSize), H.load (H.liballocFree s a n).2 b = none) ∧
      ∀ b ∉ piece a (n * lPageSize), H.load (H.liballocFree s a n).2 b = H.load s b

/-! ### A new block -/

/-- The pages that are asked for when there is no room for `size` bytes. -/
def pagesFor (size : ℕ) : ℕ :=
  max lPageCount ((size + sizeofMajor + sizeofMinor + (lPageSize - 1)) / lPageSize)

theorem pagesFor_spec (size : ℕ) :
    lPageCount ≤ pagesFor size ∧ size + sizeofMajor + sizeofMinor ≤ pagesFor size * lPageSize := by
  unfold pagesFor lPageCount lPageSize sizeofMajor sizeofMinor
  omega

theorem LiballocHooks.Lawful.pagesFor_le (hH : H.Lawful v Ok top)
    (hlt : size + sizeofMajor + sizeofMinor ≤ top * lPageSize) : pagesFor size ≤ top := by
  have hpages := hH.pages.1
  unfold pagesFor lPageSize at *
  omega

theorem LiballocHooks.Lawful.size_lt (hH : H.Lawful v Ok top)
    (hlt : size + sizeofMajor + sizeofMinor ≤ top * lPageSize) :
    size + sizeofMajor + sizeofMinor < 0x100000000 := Nat.lt_of_le_of_lt hlt hH.pages.2

theorem headers_snoc (hQ : Q.chunks = []) : headers (L ++ [Q]) = insert Q.addr (headers L) := by
  ext a
  rw [mem_headers_split, Set.mem_insert_iff, hQ]
  simp [headers, or_comm]

theorem Geometry.snoc (h : Geometry L) (hQ : Q.chunks = []) (hne : Q.addr ≠ 0)
    (hpages : lPageCount ≤ Q.pages ∧ Q.addr % lPageSize = 0) (hfin : Q.fin ≤ 0x100000000)
    (hapart : ∀ P ∈ L, P.fin ≤ Q.addr ∨ Q.fin ≤ P.addr) : Geometry (L ++ [Q]) := by
  have hcases : ∀ P ∈ L ++ [Q], P ∈ L ∨ P = Q := by
    intro P hP
    simpa using hP
  have hpos := hpages.1
  unfold lPageCount at hpos
  refine ⟨⟨?_, ?_⟩, fun P hP => ?_, fun P hP => ?_, fun P hP => ?_⟩
  · intro p hp
    obtain ⟨P, hP, rfl⟩ := List.mem_map.mp hp
    cases hcases P hP with
    | inl hold => exact h.blocks.inside _ (List.mem_map_of_mem hold)
    | inr heq =>
        have halign := hpages.2
        unfold lPageSize at halign ⊢
        rw [heq]
        exact ⟨by simp only; omega, hfin⟩
  · rw [List.map_append, List.pairwise_append]
    refine ⟨h.blocks.apart, List.pairwise_singleton _ _, fun p hp q hq => ?_⟩
    obtain ⟨P, hP, rfl⟩ := List.mem_map.mp hp
    obtain rfl := List.mem_singleton.mp hq
    exact hapart P hP
  · cases hcases P hP with
    | inl hold => exact h.pages P hold
    | inr heq => exact heq ▸ hpages
  · cases hcases P hP with
    | inl hold => exact h.fits P hold
    | inr heq =>
        rw [heq, hQ]
        unfold Fits Pool.start Pool.fin sizeofMajor lPageSize
        omega
  · cases hcases P hP with
    | inl hold => exact h.room P hold
    | inr heq =>
        rw [heq, hQ]
        exact fun c hc => absurd hc List.not_mem_nil

/-- The words of a new block, linked behind the last one. -/
theorem HeapRep.snoc (h : HeapRep w root L) (hQ : PoolRep w' Q) (hnodup : ((L ++ [Q]).map Pool.addr).Nodup)
    (hlinks : w' Q.addr 0 = (L.map Pool.addr).getLastD 0 ∧ w' Q.addr 1 = 0)
    (hold : ∀ a ∈ headers L, ∀ j < 6, w' a j =
      if j = 1 ∧ (L.map Pool.addr).getLast? = some a then Q.addr else w a j)
    (hpool : ∀ P ∈ L, ∀ c ∈ P.chunks, (L.map Pool.addr).getLast? ≠ some c.addr) :
    HeapRep w' (if L = [] then Q.addr else root) (L ++ [Q]) := by
  have hmem : ∀ a ∈ L.map Pool.addr, a ∈ headers L := by
    intro a ha
    obtain ⟨P, hP, rfl⟩ := List.mem_map.mp ha
    exact Pool.mem_headers hP
  have hroot := h.root
  refine ⟨?_, ?_, fun P hP => ?_⟩
  · cases L with
    | nil => simp
    | cons P L => simpa using hroot
  · have hchain := h.chain
    rw [List.map_append, List.map_cons, List.map_nil] at hnodup ⊢
    have hnd := (List.nodup_append.mp hnodup).1
    rw [← List.append_nil (L.map Pool.addr)] at hchain hnd
    refine hchain.insert hnd ?_ ?_ (fun a ha => ?_) fun a ha => ?_
    · exact hlinks.2
    · exact hlinks.1
    · rw [List.append_nil] at ha
      simp [hold a (hmem a ha) 1 (by decide)]
    · rw [List.append_nil] at ha
      simp [hold a (hmem a ha) 0 (by decide)]
  · cases List.mem_append.mp hP with
    | inr hnew => exact List.mem_singleton.mp hnew ▸ hQ
    | inl hP =>
        apply (h.pool P hP).relinked
        · intro j hlo hj
          rw [hold _ (Pool.mem_headers hP) j hj, if_neg]
          omega
        · intro c hc j hj
          rw [hold _ (Chunk.mem_headers hP hc) j hj, if_neg fun hand => hpool P hP c hc hand.2]

/-- The pages of the block `Q` have been added to the memory, and the pieces keep their bytes. -/
structure PoolGrown (H : LiballocHooks σ) (L : List Pool) (Q : Pool) (s s' : σ) : Prop where
  bodies : KeepsBodies H L s s'
  outside : ∀ b, ¬InPools L b → b ∉ piece Q.addr (Q.pages * lPageSize) → H.load s' b = H.load s b
  fresh : ∀ b ∈ piece Q.addr (Q.pages * lPageSize), H.load s b = none
  mapped : ∀ b, H.load s' b ≠ none ↔ H.load s b ≠ none ∨ b ∈ piece Q.addr (Q.pages * lPageSize)

/-- The block `Q` has been made of new pages; it is not linked to the others yet. -/
structure NewBlock (H : LiballocHooks σ) (Ok : σ → Prop) (st : Liballoc σ) (L : List Pool) (Q : Pool)
    (sys : σ) : Prop where
  geometry : Geometry (L ++ [Q])
  rep : ∃ w, HeapHolds H Ok (headers (L ++ [Q])) w sys ∧ HeapRep w st.memRoot L ∧ PoolRep w Q ∧
    w Q.addr 0 = 0 ∧ w Q.addr 1 = 0
  grown : PoolGrown H L Q st.sys sys

/-- A structure in memory that stays as it is. -/
theorem HeapHolds.same {D : Set ℕ} {s s' : σ} (h : HeapHolds H Ok D w s) (hok : Ok s')
    (hsame : ∀ a ∈ D, ∀ i < 24, H.load s' (a + i) = H.load s (a + i)) : HeapHolds H Ok D w s' := by
  refine ⟨hok, fun a ha i hi => ?_, h.table.apart⟩
  rw [readNum_congr (s := s) fun j hj => ?_]
  · exact h.table.word a ha i hi
  · rw [Nat.add_assoc]
    exact hsame a ha _ (by omega)

section NewPage

variable (hH : H.Lawful v Ok top) (hI : HeapInv H Ok st L)

include hH hI

/-- Pages that were not there before make a block. -/
theorem HeapInv.newBlock {n a : ℕ} {s : σ} (hrun : H.liballocAlloc st.sys n = .ok (a, s)) (ha : a ≠ 0)
    (hn : lPageCount ≤ n) (hle : n ≤ top) :
    ∃ sys, Liballoc.storeAll H { st with sys := s } [(a, 0, 0), (a, 1, 0), (a, 2, n),
        (a, 3, n * lPageSize), (a, 4, sizeofMajor), (a, 5, 0)] = .ok { st with sys := sys } ∧
      NewBlock H Ok st L ⟨a, n, []⟩ sys := by
  obtain ⟨w, hholds, hrep⟩ := hI.rep
  obtain ⟨hok, halign, hend, hnew, hsame⟩ := hH.fresh _ _ _ _ hholds.ok hle hrun ha
  have hn' := hn
  have hend' := hend
  unfold lPageCount at hn'
  unfold lPageSize at hend'
  -- the bytes of the blocks were there before
  have hblock : ∀ P ∈ L, ∀ b, P.addr ≤ b → b < P.fin → b ∉ piece a (n * lPageSize) := by
    intro P hP b hlo hhi hb
    have hmap := hI.mapped P hP (b - P.addr) (by unfold Pool.fin at hhi; omega)
    rw [Nat.add_sub_cancel' hlo] at hmap
    exact hmap (hnew b hb).1
  have hapart : ∀ P ∈ L, P.fin ≤ a ∨ a + n * lPageSize ≤ P.addr := by
    intro P hP
    have hbounds := hI.geometry.bounds hP
    have hfirst := hblock P hP P.addr (Nat.le_refl _) (by omega)
    have hlast := hblock P hP a
    rw [mem_piece] at hfirst hlast
    unfold lPageSize at hfirst hlast ⊢
    omega
  have hgeo : Geometry (L ++ [⟨a, n, []⟩]) := hI.geometry.snoc rfl ha ⟨hn, halign⟩ hend hapart
  have hholds₁ : HeapHolds H Ok (headers L) w s := by
    apply hholds.same hok
    intro d hd i hi
    obtain ⟨P, hP, hlo, hhi⟩ := hI.geometry.header hd
    exact hsame _ (hblock P hP _ (by omega) (by omega))
  have hmem : a ∈ headers (L ++ [⟨a, n, []⟩]) := Pool.mem_headers (List.mem_append_right L List.mem_cons_self)
  have hnotin : a ∉ headers L := by
    intro hd
    obtain ⟨P, hP, hlo, hhi⟩ := hI.geometry.header hd
    have hout := hapart P hP
    unfold lPageSize at hout
    omega
  have hthere : H.Mapped s a (4 * 6) := by
    intro i hi
    refine (hnew _ ?_).2
    rw [mem_piece]
    unfold lPageSize
    omega
  obtain ⟨r, htable⟩ := hholds₁.table.insert hthere (fun b hb => by
    apply hgeo.headers_apart hmem
    · rw [headers_snoc rfl]
      exact .inr hb
    · rintro rfl
      exact hnotin hb) hnotin
  rw [← headers_snoc (Q := ⟨a, n, []⟩) rfl] at htable
  have hstart : HeapHolds H Ok (headers (L ++ [⟨a, n, []⟩])) (Function.update w a r)
      { st with sys := s }.sys := ⟨hok, htable⟩
  obtain ⟨sys, hstore, hholds₂, hframe⟩ := Liballoc.storeAll_ok hH.bytes
    [(a, 0, 0), (a, 1, 0), (a, 2, n), (a, 3, n * lPageSize), (a, 4, sizeofMajor), (a, 5, 0)]
    { st with sys := s } hstart fun x hx => by
      simp only [List.mem_cons, List.not_mem_nil, or_false] at hx
      unfold sizeofMajor lPageSize at hx
      rcases hx with rfl | rfl | rfl | rfl | rfl | rfl <;> simp [hmem] <;> omega
  refine ⟨sys, hstore, hgeo, ⟨_, hholds₂, ?_, ?_, ?_, ?_⟩, ?_, ?_, ?_, ?_⟩
  · apply hrep.congr
    intro b hb j _
    have hne : b ≠ a := by
      rintro rfl
      exact hnotin hb
    simp only [setAll, setWord_apply, hne, false_and, if_false]
    rw [Function.update_of_ne hne]
  · refine ⟨?_, ?_, ?_, ?_, trivial, fun c hc => absurd hc List.not_mem_nil⟩
    all_goals simp [setAll, setWord_apply, used]
  · simp [setAll, setWord_apply]
  · simp [setAll, setWord_apply]
  · intro c hc b hlo hhi
    obtain ⟨P, hP, hcP⟩ := List.mem_flatMap.mp hc
    have hcb := hI.geometry.chunk hP hcP
    have hc' : c ∈ chunksOf (L ++ [⟨a, n, []⟩]) :=
      List.mem_flatMap.mpr ⟨P, List.mem_append_left _ hP, hcP⟩
    rw [hframe.outside b (hgeo.body_apart hc' hlo hhi)]
    refine hsame b (hblock P hP b ?_ (by omega))
    unfold sizeofMinor at hlo
    omega
  · intro b hb hout
    rw [hframe.outside b fun hrec => ?_]
    · exact hsame b hout
    · have hin := hgeo.record_inside hrec
      rw [inPools_split, List.append_nil] at hin
      exact hin.elim hb hout
  · exact fun b hb => (hnew b hb).1
  · intro b
    rw [ne_eq, hframe.mapped b]
    show H.load s b ≠ none ↔ _
    by_cases hb : b ∈ piece a (n * lPageSize)
    · exact iff_of_true (hnew b hb).2 (.inr hb)
    · rw [hsame b hb, or_iff_left hb]

/-- `allocate_new_page` fails if the hook does, gives nothing if there are no pages, and else makes a
block of the new pages. -/
theorem allocateNewPage_ok (hlt : size + sizeofMajor + sizeofMinor ≤ top * lPageSize) :
    (∃ e, H.liballocAlloc st.sys (pagesFor size) = .error e ∧ allocateNewPage H st size = .error e) ∨
    (∃ s, H.liballocAlloc st.sys (pagesFor size) = .ok (0, s) ∧ allocateNewPage H st size =
      .ok (0, { st with sys := s, warningCount := st.warningCount + 1 })) ∨
    ∃ a s sys, a ≠ 0 ∧ H.liballocAlloc st.sys (pagesFor size) = .ok (a, s) ∧
      allocateNewPage H st size =
        .ok (a, { st with sys := sys, allocated := st.allocated + pagesFor size * lPageSize }) ∧
      NewBlock H Ok st L ⟨a, pagesFor size, []⟩ sys := by
  have hlt' := hH.size_lt hlt
  have hle := hH.pagesFor_le hlt
  have hpages : (if (if wrap32 (wrap32 (size + sizeofMajor) + sizeofMinor) % lPageSize = 0 then
        wrap32 (wrap32 (size + sizeofMajor) + sizeofMinor) / lPageSize else
        wrap32 (wrap32 (size + sizeofMajor) + sizeofMinor) / lPageSize + 1) < lPageCount then lPageCount
      else if wrap32 (wrap32 (size + sizeofMajor) + sizeofMinor) % lPageSize = 0 then
        wrap32 (wrap32 (size + sizeofMajor) + sizeofMinor) / lPageSize else
        wrap32 (wrap32 (size + sizeofMajor) + sizeofMinor) / lPageSize + 1) = pagesFor size := by
    rw [wrap32_of_lt (n := size + sizeofMajor) (by omega), wrap32_of_lt hlt']
    unfold pagesFor lPageCount lPageSize
    split_ifs <;> omega
  obtain ⟨w, hholds, -⟩ := hI.rep
  unfold allocateNewPage
  simp only [hpages]
  cases hrun : H.liballocAlloc st.sys (pagesFor size) with
  | error e => exact .inl ⟨e, rfl, rfl⟩
  | ok r =>
      obtain ⟨a, s⟩ := r
      rw [ok_bind]
      by_cases ha : a = 0
      · subst ha
        exact .inr (.inl ⟨s, rfl, by rw [if_pos rfl]⟩)
      · obtain ⟨sys, hstore, hnew⟩ := hI.newBlock hH hrun ha (pagesFor_spec size).1 hle
        have hwrap : wrap32 (pagesFor size * lPageSize) = pagesFor size * lPageSize := by
          have hfin := (hH.fresh _ _ _ _ hholds.ok hle hrun ha).2.2.1
          exact wrap32_of_lt (by omega)
        refine .inr (.inr ⟨a, s, sys, ha, rfl, ?_, hnew⟩)
        rw [if_neg ha, hwrap]
        have hall : ∀ st₁ : Liballoc σ, (do
            let st ← st₁.setMajor H a .prev 0
            let st ← st.setMajor H a .next 0
            let st ← st.setMajor H a .pages (pagesFor size)
            let st ← st.setMajor H a .size (pagesFor size * lPageSize)
            let st ← st.setMajor H a .usage sizeofMajor
            let st ← st.setMajor H a .first 0
            .ok (a, { st with allocated := st.allocated + pagesFor size * lPageSize })) = (do
            let st ← st₁.storeAll H [(a, 0, 0), (a, 1, 0), (a, 2, pagesFor size),
              (a, 3, pagesFor size * lPageSize), (a, 4, sizeofMajor), (a, 5, 0)]
            .ok (a, { st with allocated := st.allocated + pagesFor size * lPageSize })) := by
          intro st₁
          simp only [Liballoc.storeAll, Liballoc.setMajor, MajorField.index, bind_assoc, ok_bind]
        rw [hall, hstore, ok_bind]

end NewPage

theorem chunksOf_snoc (hQ : Q.chunks = []) : chunksOf (L ++ [Q]) = chunksOf L := by
  simp [chunksOf, hQ]

theorem poolBytes_snoc : poolBytes (L ++ [Q]) = poolBytes L + Q.pages * lPageSize := by
  simp only [poolBytes_append, poolBytes, Nat.add_zero]

/-- The new block has been linked to the others. -/
theorem NewBlock.heapInv {sys : σ} {st' : Liballoc σ} (h : NewBlock H Ok st L Q sys)
    (hI : HeapInv H Ok st L) (hQ : Q.chunks = [])
    (hrep : ∃ w, HeapHolds H Ok (headers (L ++ [Q])) w st'.sys ∧ HeapRep w st'.memRoot (L ++ [Q]))
    (hframe : H.Frame (headerRecordBytes (headers (L ++ [Q]))) sys st'.sys) (hbest : st'.bestBet = st.bestBet)
    (hallocated : st'.allocated = st.allocated + Q.pages * lPageSize) (hinuse : st'.inuse = st.inuse) :
    HeapInv H Ok st' (L ++ [Q]) ∧ PoolGrown H L Q st.sys st'.sys := by
  have hbodies : KeepsBodies H L sys st'.sys := by
    intro c hc b hlo hhi
    rw [← chunksOf_snoc hQ] at hc
    exact hframe.outside b (h.geometry.body_apart hc hlo hhi)
  have hgrown : PoolGrown H L Q st.sys st'.sys := by
    refine ⟨h.grown.bodies.trans hbodies, fun b hb hout => ?_, h.grown.fresh, fun b => ?_⟩
    · rw [hframe.outside b fun hrec => ?_]
      · exact h.grown.outside b hb hout
      · have hin := h.geometry.record_inside hrec
        rw [inPools_split, List.append_nil] at hin
        exact hin.elim hb hout
    · rw [ne_eq, hframe.mapped b]
      exact h.grown.mapped b
  refine ⟨⟨h.geometry, hrep, fun P hP => ?_, fun c hc => ?_, ?_, ?_, ?_⟩, hgrown⟩
  · intro i hi
    refine (hgrown.mapped (P.addr + i)).mpr ?_
    cases List.mem_append.mp hP with
    | inl hold => exact .inl (hI.mapped P hold i hi)
    | inr hnew =>
        obtain rfl := List.mem_singleton.mp hnew
        right
        rw [mem_piece]
        omega
  · rw [chunksOf_snoc hQ] at hc
    obtain ⟨P, hP, hcP⟩ := List.mem_flatMap.mp hc
    have hspec := c.ptr_spec
    have hroom := (hI.geometry.chunk hP hcP).2.2
    rw [hgrown.bodies c hc _ (by unfold sizeofMinor alignInfo; omega)
      (by unfold Chunk.fin sizeofMinor alignInfo; omega)]
    exact hI.aligns c hc
  · rw [hbest, List.map_append, List.mem_append]
    exact hI.best.imp_right Or.inl
  · rw [hallocated, hI.allocated, poolBytes_snoc]
  · rw [hinuse, hI.inuse, chunksOf_snoc hQ]

/-- The first block. -/
theorem NewBlock.first {sys : σ} (h : NewBlock H Ok st [] Q sys) (hI : HeapInv H Ok st [])
    (hQ : Q.chunks = []) :
    HeapInv H Ok { st with
        sys := sys
        allocated := st.allocated + Q.pages * lPageSize
        memRoot := Q.addr } [Q] ∧ PoolGrown H [] Q st.sys sys := by
  obtain ⟨w, hholds, -, hrep, hprev, hnext⟩ := h.rep
  refine h.heapInv hI hQ ?_ (.refl _ sys) rfl rfl rfl
  refine ⟨w, hholds, rfl, ⟨hprev, hnext, trivial⟩, fun P hP => ?_⟩
  exact List.mem_singleton.mp hP ▸ hrep

/-- A block behind the others. -/
theorem NewBlock.append {sys : σ} {st₁ : Liballoc σ} (hH : H.Lawful v Ok top)
    (h : NewBlock H Ok st (L ++ [P]) Q sys) (hI : HeapInv H Ok st (L ++ [P])) (hQ : Q.chunks = [])
    (hst₁ : st₁ = { st with sys := sys, allocated := st.allocated + Q.pages * lPageSize }) :
    ∃ st', st₁.storeAll H [(P.addr, 1, Q.addr), (Q.addr, 0, P.addr)] = .ok st' ∧
      HeapInv H Ok st' (L ++ [P] ++ [Q]) ∧ PoolGrown H (L ++ [P]) Q st.sys st'.sys := by
  obtain ⟨w, hholds, hrep, hQrep, -, hnext⟩ := h.rep
  have hPL : P ∈ L ++ [P] := List.mem_append_right L List.mem_cons_self
  have hP : P ∈ L ++ [P] ++ [Q] := List.mem_append_left _ hPL
  have hQmem : Q ∈ L ++ [P] ++ [Q] := List.mem_append_right _ List.mem_cons_self
  have hPb := h.geometry.bounds hP
  have hQb := h.geometry.bounds hQmem
  have hnodup := h.geometry.nodup
  have hlast : ((L ++ [P]).map Pool.addr).getLast? = some P.addr := by simp
  have hne : ∀ a ∈ headers (L ++ [P]), a ≠ Q.addr := by
    rintro a ⟨R, hR, rfl | ⟨c, hc, rfl⟩⟩
    · rw [List.map_append] at hnodup
      exact (List.nodup_append.mp hnodup).2.2 _ (List.mem_map_of_mem hR) _ List.mem_cons_self
    · exact h.geometry.chunk_ne_pool (List.mem_append_left _ hR) hc hQmem
  have hPQ := hne P.addr (Pool.mem_headers hPL)
  subst hst₁
  obtain ⟨sys', hstore, hholds', hframe⟩ := Liballoc.storeAll_ok hH.bytes
    [(P.addr, 1, Q.addr), (Q.addr, 0, P.addr)]
    { st with sys := sys, allocated := st.allocated + Q.pages * lPageSize } hholds fun x hx => by
      simp only [List.mem_cons, List.not_mem_nil, or_false] at hx
      rcases hx with rfl | rfl
      · exact ⟨Pool.mem_headers hP, (by decide : 1 < 6), show Q.addr < _ by omega⟩
      · exact ⟨Pool.mem_headers hQmem, (by decide : 0 < 6), show P.addr < _ by omega⟩
  refine ⟨_, hstore, ?_⟩
  refine h.heapInv hI hQ ⟨_, hholds', ?_⟩ hframe rfl rfl rfl
  have hroot : (if L ++ [P] = [] then Q.addr else st.memRoot) = st.memRoot := if_neg (by simp)
  show HeapRep _ st.memRoot _
  rw [← hroot]
  refine hrep.snoc ?_ hnodup ?_ ?_ ?_
  · refine ⟨?_, ?_, ?_, ?_, by rw [hQ]; trivial, by rw [hQ]; exact fun c hc => absurd hc List.not_mem_nil⟩
    all_goals simp only [setAll, setWord_apply, hPQ.symm, false_and, if_false]
    · exact hQrep.pages
    · exact hQrep.size
    · exact hQrep.usage
    · exact hQrep.first
  · simp [setAll, setWord_apply, hPQ.symm, hnext]
  · intro a ha j _
    rw [hlast]
    simp only [setAll, setWord_apply, hne a ha, false_and, if_false, Option.some.injEq]
    simp only [and_comm, eq_comm]
  · intro R hR c hc heq
    rw [hlast] at heq
    exact h.geometry.chunk_ne_pool (List.mem_append_left _ hR) hc hP (Option.some.inj heq).symm

/-- The heap is kept by what leaves its structures as they are. -/
theorem HeapInv.keep {st' : Liballoc σ} (hI : HeapInv H Ok st L)
    (hrep : ∃ w, HeapHolds H Ok (headers L) w st'.sys ∧ HeapRep w st'.memRoot L)
    (hmapped : ∀ b, H.load st'.sys b = none ↔ H.load st.sys b = none)
    (haligns : ∀ c ∈ chunksOf L, H.load st'.sys (c.ptr - alignInfo) = H.load st.sys (c.ptr - alignInfo))
    (hbest : st'.bestBet = 0 ∨ st'.bestBet ∈ L.map Pool.addr) (hallocated : st'.allocated = st.allocated)
    (hinuse : st'.inuse = st.inuse) : HeapInv H Ok st' L where
  geometry := hI.geometry
  rep := hrep
  mapped := fun P hP i hi hnone => hI.mapped P hP i hi ((hmapped _).mp hnone)
  aligns := fun c hc => (haligns c hc).trans (hI.aligns c hc)
  best := hbest
  allocated := hallocated.trans hI.allocated
  inuse := hinuse.trans hI.inuse

/-- Where the distance to the structure is noted. -/
theorem Geometry.align_inside (h : Geometry L) {c : Chunk} (hc : c ∈ chunksOf L) :
    c.addr + sizeofMinor ≤ c.ptr - alignInfo ∧ c.ptr - alignInfo < c.fin := by
  obtain ⟨P, hP, hcP⟩ := List.mem_flatMap.mp hc
  have hspec := c.ptr_spec
  have hroom := (h.chunk hP hcP).2.2
  unfold Chunk.fin sizeofMinor alignInfo
  omega

theorem HeapInv.bet (hI : HeapInv H Ok st L) {b : ℕ} (hb : b = 0 ∨ b ∈ L.map Pool.addr) :
    HeapInv H Ok { st with bestBet := b } L :=
  hI.keep hI.rep (fun _ => Iff.rfl) (fun _ _ => rfl) hb rfl rfl

/-- No gap of any block is `n` bytes long. -/
def NoRoom (L : List Pool) (n : ℕ) : Prop := ∀ P ∈ L, P.NoGap n

section Append

variable (hH : H.Lawful v Ok top) (hI : HeapInv H Ok st (L ++ [P]))

include hH hI

/-- The last block gets a next one, if there are pages for it. -/
theorem appendMajor_ok (hlt : size + sizeofMajor + sizeofMinor ≤ top * lPageSize) :
    (∃ e, H.liballocAlloc st.sys (pagesFor size) = .error e ∧
      appendMajor H st P.addr size = .error e) ∨
    (∃ s st', H.liballocAlloc st.sys (pagesFor size) = .ok (0, s) ∧
      appendMajor H st P.addr size = .ok (0, st') ∧ HeapInv H Ok st' (L ++ [P]) ∧
      Kept H (L ++ [P]) st.sys st'.sys) ∨
    ∃ a s st', a ≠ 0 ∧ H.liballocAlloc st.sys (pagesFor size) = .ok (a, s) ∧
      appendMajor H st P.addr size = .ok (a, st') ∧
      HeapInv H Ok st' (L ++ [P] ++ [⟨a, pagesFor size, []⟩]) ∧
      PoolGrown H (L ++ [P]) ⟨a, pagesFor size, []⟩ st.sys st'.sys := by
  unfold appendMajor
  rcases allocateNewPage_ok hH hI hlt with ⟨e, halloc, hrun⟩ | ⟨s, halloc, hrun⟩ | ⟨a, s, sys, ha, halloc, hrun, hnew⟩
  · exact .inl ⟨e, halloc, by rw [hrun, error_bind]⟩
  · obtain ⟨w, hholds, hrep, -⟩ := hI.pool_rep
    obtain ⟨hok, hload⟩ := hH.refused _ _ _ hholds.ok (hH.pagesFor_le hlt) halloc
    have hholds₁ : HeapHolds H Ok (headers (L ++ [P])) w s :=
      hholds.same hok fun _ _ _ _ => by rw [hload]
    have hP : P ∈ L ++ [P] := List.mem_append_right L List.mem_cons_self
    have hnext : w P.addr 1 = 0 := by
      have hchain := hrep.chain
      rw [List.map_append, List.map_cons] at hchain
      exact hchain.links.2
    obtain ⟨sys, hstore, hholds₂, hframe⟩ := Liballoc.storeAll_ok hH.bytes [(P.addr, 1, 0)]
      { st with sys := s, warningCount := st.warningCount + 1 } hholds₁ fun x hx => by
        rw [List.mem_singleton.mp hx]
        exact ⟨Pool.mem_headers hP, (by decide : 1 < 6), (by decide : 0 < 0x100000000)⟩
    have hkept : Kept H (L ++ [P]) st.sys sys := by
      refine ⟨fun c hc b hlo hhi => ?_, fun b hb => ?_, fun b => ?_⟩
      · rw [hframe.outside b (hI.geometry.body_apart hc hlo hhi)]
        exact congrFun hload b
      · rw [hframe.outside b fun hrec => hb (hI.geometry.record_inside hrec)]
        exact congrFun hload b
      · rw [hframe.mapped b]
        exact iff_of_eq (congrArg (· = none) (congrFun hload b))
    refine .inr (.inl ⟨s, { st with sys := sys, warningCount := st.warningCount + 1 }, halloc, ?_, ?_,
      hkept⟩)
    · simp only [Liballoc.storeAll, bind_ok] at hstore
      obtain ⟨st', hone, heq⟩ := hstore
      rw [hrun, ok_bind]
      unfold Liballoc.setMajor
      simp only [MajorField.index]
      rw [hone, ok_bind, Except.ok.inj heq]
      rfl
    · refine hI.keep ⟨w, ⟨hholds₂.ok, ?_, hholds₂.table.apart⟩, hrep⟩ hkept.mapped (fun c hc => ?_)
        hI.best rfl rfl
      · intro a ha i hi
        rw [hholds₂.table.word a ha i hi]
        simp only [setAll, setWord_apply]
        by_cases heq : a = P.addr ∧ i = 1
        · rw [if_pos heq, heq.1, heq.2, hnext]
        · rw [if_neg heq]
      · exact hkept.bodies c hc _ (hI.geometry.align_inside hc).1 (hI.geometry.align_inside hc).2
  · obtain ⟨st', hstore, hI', hgrown⟩ := hnew.append hH hI rfl rfl
    refine .inr (.inr ⟨a, s, st', ha, halloc, ?_, hI', hgrown⟩)
    rw [hrun, ok_bind]
    unfold Liballoc.linkMajor Liballoc.setMajor
    simp only [if_neg ha, MajorField.index]
    simp only [Liballoc.storeAll, bind_ok, Except.ok.injEq] at hstore
    obtain ⟨st₁, hone, st₂, htwo, rfl⟩ := hstore
    rw [hone, ok_bind, htwo, ok_bind]

end Append

/-! ### The rounds -/

/-- The heap with the piece `c` put into one of its blocks. -/
def PutIn (L : List Pool) (c : Chunk) (L' : List Pool) : Prop :=
  ∃ L₁ P L₂ m₁ m₂, L = L₁ ++ P :: L₂ ∧ P.chunks = m₁ ++ m₂ ∧
    L' = L₁ ++ P.holding (m₁ ++ c :: m₂) :: L₂

/-- A piece with the sizes that were asked for has been given out. -/
structure GivenOut (H : LiballocHooks σ) (Ok : σ → Prop) (s : σ) (L : List Pool) (size req : ℕ)
    (c : Chunk) (st' : Liballoc σ) (L' : List Pool) : Prop where
  put : PutIn L c L'
  sized : c.size = size
  asked : c.req = req
  inv : HeapInv H Ok st' L'
  kept : Kept H L s st'.sys

/-- What comes of it when the system is asked for pages. -/
def Refilled (H : LiballocHooks σ) (Ok : σ → Prop) (s : σ) (L : List Pool) (size req : ℕ)
    (r : Except Fault (Option ℕ × Liballoc σ)) : Prop :=
  (∃ e, H.liballocAlloc s (pagesFor size) = .error e ∧ r = .error e) ∨
  (∃ s' st', H.liballocAlloc s (pagesFor size) = .ok (0, s') ∧ r = .ok (none, st') ∧
    HeapInv H Ok st' L ∧ Kept H L s st'.sys) ∨
  ∃ a s' c st', a ≠ 0 ∧ H.liballocAlloc s (pagesFor size) = .ok (a, s') ∧ r = .ok (some c.ptr, st') ∧
    c.size = size ∧ c.req = req ∧ HeapInv H Ok st' (L ++ [⟨a, pagesFor size, [c]⟩]) ∧
    PoolGrown H L ⟨a, pagesFor size, [c]⟩ s st'.sys

/-- The outcome of the search: a place in one of the blocks, or pages are asked for because there is
none. -/
def MallocSearchResult (H : LiballocHooks σ) (Ok : σ → Prop) (s : σ) (L : List Pool) (size req : ℕ)
    (r : Except Fault (Option ℕ × Liballoc σ)) : Prop :=
  (∃ c st' L', r = .ok (some c.ptr, st') ∧ GivenOut H Ok s L size req c st' L') ∨
    (NoRoom L (size + sizeofMinor) ∧ Refilled H Ok s L size req r)

section Links

variable (hI : HeapInv H Ok st (L₁ ++ P :: L₂))

include hI

/-- There is a next block. -/
theorem HeapInv.next_ok (v : LiballocVersion) (size : ℕ) (hL₂ : L₂ = Q :: L) (b : Bool) :
    mallocCase1 H v st P.addr b size = .ok (.go st Q.addr b) ∧
      mallocCase5 H st P.addr b size = .ok (.go st Q.addr b) := by
  subst hL₂
  have hQ : Q ∈ L₁ ++ P :: Q :: L := List.mem_append_right _ (List.mem_cons_of_mem P List.mem_cons_self)
  have hbounds := hI.geometry.bounds hQ
  have hne : Q.addr ≠ 0 := by omega
  have hPQ : P.addr ≠ Q.addr := by
    have hnodup := hI.geometry.nodup
    rw [List.map_append, List.map_cons, List.map_cons] at hnodup
    intro heq
    apply (List.nodup_cons.mp (List.nodup_append.mp hnodup).2.1).1
    rw [heq]
    exact List.mem_cons_self
  unfold mallocCase1 mallocCase5
  rw [hI.major_links.1, ok_bind]
  simp [hne, hPQ, ok_bind]

/-- The search goes back to the root if it did not start there. -/
theorem HeapInv.last_bet (v : LiballocVersion) (size : ℕ) (hL₂ : L₂ = []) :
    mallocCase1 H v st P.addr true size = .ok (.go st st.memRoot false) ∧
      mallocCase5 H st P.addr true size = .ok (.go st st.memRoot false) := by
  subst hL₂
  unfold mallocCase1 mallocCase5
  rw [hI.major_links.1, ok_bind]
  simp [Liballoc.linkMajor, ok_bind]

/-- Behind the last block, the system is asked. -/
theorem HeapInv.last_ask (v : LiballocVersion) (size : ℕ) (hL₂ : L₂ = []) :
    (mallocCase1 H v st P.addr false size = do
      let (new, st) ← appendMajor H st P.addr size
      if new = 0 then .ok (.stop st) else .ok (.fresh st new)) ∧
    (mallocCase5 H st P.addr false size = do
      let (new, st) ← appendMajor H st P.addr size
      if new = 0 then .ok (.stop st) else .ok (.go st new false)) := by
  subst hL₂
  unfold mallocCase1 mallocCase5
  rw [hI.major_links.1, ok_bind]
  simp [Liballoc.linkMajor, ok_bind]

end Links

section Fill

variable {a : ℕ} (hM : H.toBytes.Lawful Ok) (hroom : req + (alignment + alignInfo) ≤ size)
  (hlt : size + sizeofMajor + sizeofMinor < 0x100000000) (hreq : req < 0x100000000)

include hM hroom hlt hreq

/-- The piece has room in a new block. -/
theorem HeapInv.fill (hI : HeapInv H Ok st (L ++ [⟨a, pagesFor size, []⟩])) :
    ∃ c st', mallocPlace H st a size req = .ok (some c.ptr, st') ∧ c.size = size ∧ c.req = req ∧
      HeapInv H Ok st' (L ++ [⟨a, pagesFor size, [c]⟩]) ∧
      Kept H (L ++ [⟨a, pagesFor size, []⟩]) st.sys st'.sys := by
  have hspec := (pagesFor_spec size).2
  have hneed : size + sizeofMinor ≤ pagesFor size * lPageSize - (sizeofMajor + used []) := by
    unfold used
    omega
  have hresult := mallocPlace_ok hM hI hroom (by omega) hreq hneed
  rcases hresult with ⟨c, st', L', hrun, hplaced⟩ | ⟨-, hno⟩
  · obtain ⟨m₁, m₂, hm, rfl⟩ := hplaced.put
    obtain ⟨rfl, rfl⟩ := List.append_eq_nil_iff.mp hm.symm
    exact ⟨c, st', hrun, hplaced.sized, hplaced.asked, hplaced.inv, hplaced.granted.kept⟩
  · have hgap := hno _ List.mem_cons_self
    unfold Pool.fin Pool.start at hgap
    simp only at hgap
    omega

/-- The cases 2 to 5 in a new block. -/
theorem HeapInv.fill_inside (hI : HeapInv H Ok st (L ++ [⟨a, pagesFor size, []⟩])) {s s' : σ}
    (ha : a ≠ 0) (halloc : H.liballocAlloc s (pagesFor size) = .ok (a, s'))
    (hgrown : PoolGrown H L ⟨a, pagesFor size, []⟩ s st.sys) (b : Bool) (bestSize : ℕ) :
    ∃ r, mallocInside H st a b bestSize size req = .ok (.inr r) ∧
      Refilled H Ok s L size req (.ok r) := by
  obtain ⟨c, st', hrun, hsize, hasked, hI', hkept⟩ := hI.fill hM hroom hlt hreq
  refine ⟨(some c.ptr, st'), ?_, .inr (.inr ⟨a, s', c, st', ha, halloc, rfl, hsize, hasked, hI', ?_⟩)⟩
  · unfold mallocInside
    rw [hrun, ok_bind]
  · refine ⟨hgrown.bodies.trans fun d hd => hkept.bodies d ?_, fun b hb hout => ?_, hgrown.fresh, fun b => ?_⟩
    · rwa [chunksOf_snoc rfl]
    · rw [hkept.outside b, hgrown.outside b hb hout]
      rw [inPools_split, List.append_nil]
      exact fun h => h.elim hb hout
    · rw [ne_eq, hkept.mapped b]
      exact hgrown.mapped b

end Fill

end GalaxyOS
