import GalaxyOS.Mem.LiballocPlace

/-! # The search for a place

`malloc` goes through the blocks, first from the best bet and then from the root, and through the gaps
of each block that has enough room in all.  It asks the system for pages only if no gap of any block is
large enough.

`mallocPlace_ok` is this for one block: `mallocCase2_ok` and `mallocCase4_ok` are the rounds of the loop
over its gaps, and `HeapInv.placed` is what a place that has been found leaves. -/

namespace GalaxyOS

open Transition Records Linked

variable {σ : Type} {H : LiballocHooks σ} {Ok : σ → Prop} {v : LiballocVersion} {st : Liballoc σ}
  {D : Set ℕ} {w : ℕ → ℕ → ℕ} {size req : ℕ} {L L₁ L₂ : List Pool} {P : Pool} {c d e : Chunk}
  {m m₁ m₂ : List Chunk}

/-! ### The four ways to put a piece in -/

theorem inserts_case2 (hfresh : ∀ a ∈ D, a ≠ c.addr) (hP : P.addr ∈ D) :
    Inserts w (setAll w [(P.addr, 5, c.addr), (c.addr, 3, liballocMagic), (c.addr, 0, 0), (c.addr, 1, 0),
      (c.addr, 2, P.addr), (c.addr, 4, c.size), (c.addr, 5, c.req)]) D P [] [] c := by
  have hne := hfresh _ hP
  refine ⟨?_, ?_, ?_, fun a ha => ?_, fun a ha => ?_, ?_, fun a ha => ?_⟩
  all_goals simp only [setAll, setWord_apply]
  all_goals grind

theorem inserts_case3 (hfresh : ∀ a ∈ D, a ≠ c.addr) (hP : P.addr ∈ D) (hd : d.addr ∈ D) :
    Inserts w (setAll w [(d.addr, 0, c.addr), (c.addr, 1, d.addr), (P.addr, 5, c.addr),
      (c.addr, 3, liballocMagic), (c.addr, 0, 0), (c.addr, 2, P.addr), (c.addr, 4, c.size),
      (c.addr, 5, c.req)]) D P [] (d :: m₂) c := by
  have hne := hfresh _ hP
  have hdne := hfresh _ hd
  refine ⟨?_, ?_, ?_, fun a ha => ?_, fun a ha => ?_, ?_, fun a ha => ?_⟩
  all_goals simp only [setAll, setWord_apply, List.map_cons, List.map_nil]
  all_goals grind

theorem inserts_case41 (hfresh : ∀ a ∈ D, a ≠ c.addr) (hP : P.addr ∈ D) (hd : d.addr ∈ D) :
    Inserts w (setAll w [(d.addr, 1, c.addr), (c.addr, 0, d.addr), (c.addr, 1, 0),
      (c.addr, 3, liballocMagic), (c.addr, 2, P.addr), (c.addr, 4, c.size), (c.addr, 5, c.req)])
      D P (m ++ [d]) [] c := by
  have hne := hfresh _ hP
  have hsnoc : m ++ [d] ≠ [] := by simp
  have hdne := hfresh _ hd
  refine ⟨?_, ?_, ?_, fun a ha => ?_, fun a ha => ?_, ?_, fun a ha => ?_⟩
  all_goals simp only [setAll, setWord_apply, List.map_append, List.map_cons, List.map_nil]
  all_goals grind

theorem inserts_case42 (hfresh : ∀ a ∈ D, a ≠ c.addr) (hP : P.addr ∈ D) (hd : d.addr ∈ D)
    (he : e.addr ∈ D) :
    Inserts w (setAll w [(c.addr, 3, liballocMagic), (c.addr, 1, e.addr), (c.addr, 0, d.addr),
      (c.addr, 4, c.size), (c.addr, 5, c.req), (c.addr, 2, P.addr), (e.addr, 0, c.addr),
      (d.addr, 1, c.addr)]) D P (m ++ [d]) (e :: m₂) c := by
  have hne := hfresh _ hP
  have hsnoc : m ++ [d] ≠ [] := by simp
  have hdne := hfresh _ hd
  have hene := hfresh _ he
  refine ⟨?_, ?_, ?_, fun a ha => ?_, fun a ha => ?_, ?_, fun a ha => ?_⟩
  all_goals simp only [setAll, setWord_apply, List.map_append, List.map_cons, List.map_nil]
  all_goals grind

theorem mallocCase2_eq (st : Liballoc σ) (maj size req : ℕ) : mallocCase2 H st maj size req = (do
    let a := wrap32 (maj + sizeofMajor)
    let st ← st.storeAll H [(maj, 5, a), (a, 3, liballocMagic), (a, 0, 0), (a, 1, 0), (a, 2, maj),
      (a, 4, size), (a, 5, req)]
    let st ← st.use H maj size
    st.granted H a size) := by
  simp only [mallocCase2, Liballoc.storeAll, Liballoc.setMajor, Liballoc.setMinor, MajorField.index,
    MinorField.index, bind_assoc, ok_bind]

theorem mallocCase3_eq (st : Liballoc σ) (maj old size req : ℕ) :
    mallocCase3 H st maj old size req = (do
      let a := wrap32 (maj + sizeofMajor)
      let st ← st.storeAll H [(old, 0, a), (a, 1, old), (maj, 5, a), (a, 3, liballocMagic), (a, 0, 0),
        (a, 2, maj), (a, 4, size), (a, 5, req)]
      let st ← st.use H maj size
      st.granted H a size) := by
  simp only [mallocCase3, Liballoc.storeAll, Liballoc.setMajor, Liballoc.setMinor, MajorField.index,
    MinorField.index, bind_assoc, ok_bind]

theorem mallocCase41_eq (st : Liballoc σ) (maj min len size req : ℕ) :
    mallocCase41 H st maj min len size req = (do
      let a := wrap32 (wrap32 (min + sizeofMinor) + len)
      let st ← st.storeAll H [(min, 1, a), (a, 0, min), (a, 1, 0), (a, 3, liballocMagic), (a, 2, maj),
        (a, 4, size), (a, 5, req)]
      let st ← st.use H maj size
      st.granted H a size) := by
  simp only [mallocCase41, Liballoc.storeAll, Liballoc.setMinor, MinorField.index, bind_assoc, ok_bind]

theorem mallocCase42_eq (st : Liballoc σ) (maj min len next size req : ℕ) :
    mallocCase42 H st maj min len next size req = (do
      let a := wrap32 (wrap32 (min + sizeofMinor) + len)
      let st ← st.storeAll H [(a, 3, liballocMagic), (a, 1, next), (a, 0, min), (a, 4, size),
        (a, 5, req), (a, 2, maj), (next, 0, a), (min, 1, a)]
      let st ← st.use H maj size
      st.granted H a size) := by
  simp only [mallocCase42, Liballoc.storeAll, Liballoc.setMinor, MinorField.index, bind_assoc, ok_bind]

/-! ### Reading the structures -/

theorem headers_pool : P.addr ∈ headers (L₁ ++ P :: L₂) :=
  Pool.mem_headers (List.mem_append_right _ List.mem_cons_self)

section Reading

variable (hI : HeapInv H Ok st (L₁ ++ P :: L₂))

include hI

theorem HeapInv.pool_rep : ∃ w, HeapHolds H Ok (headers (L₁ ++ P :: L₂)) w st.sys ∧
    HeapRep w st.memRoot (L₁ ++ P :: L₂) ∧ PoolRep w P := by
  obtain ⟨w, hholds, hrep⟩ := hI.rep
  exact ⟨w, hholds, hrep, hrep.pool P (List.mem_append_right _ List.mem_cons_self)⟩

theorem HeapInv.major_links : st.major H P.addr .next = .ok ((L₂.map Pool.addr).headD 0) ∧
    st.major H P.addr .prev = .ok ((L₁.map Pool.addr).getLastD 0) := by
  obtain ⟨w, hholds, hrep, -⟩ := hI.pool_rep
  have hchain := hrep.chain
  rw [List.map_append, List.map_cons] at hchain
  obtain ⟨hprev, hnext⟩ := hchain.links
  exact ⟨(Liballoc.word_ok hholds headers_pool (by decide)).trans (congrArg _ hnext),
    (Liballoc.word_ok hholds headers_pool (by decide)).trans (congrArg _ hprev)⟩

theorem HeapInv.major_size : st.major H P.addr .size = .ok (P.pages * lPageSize) := by
  obtain ⟨w, hholds, -, hrep⟩ := hI.pool_rep
  exact (Liballoc.word_ok hholds headers_pool (by decide)).trans (congrArg _ hrep.size)

theorem HeapInv.major_usage : st.major H P.addr .usage = .ok (sizeofMajor + used P.chunks) := by
  obtain ⟨w, hholds, -, hrep⟩ := hI.pool_rep
  exact (Liballoc.word_ok hholds headers_pool (by decide)).trans (congrArg _ hrep.usage)

theorem HeapInv.major_first :
    st.major H P.addr .first = .ok ((P.chunks.map Chunk.addr).headD 0) := by
  obtain ⟨w, hholds, -, hrep⟩ := hI.pool_rep
  exact (Liballoc.word_ok hholds headers_pool (by decide)).trans (congrArg _ hrep.first)

/-- The fields of the structure of a piece. -/
theorem HeapInv.minor_fields (hm : P.chunks = m₁ ++ d :: m₂) :
    st.minor H d.addr .next = .ok ((m₂.map Chunk.addr).headD 0) ∧
      st.minor H d.addr .prev = .ok ((m₁.map Chunk.addr).getLastD 0) ∧
      st.minor H d.addr .block = .ok P.addr ∧ st.minor H d.addr .magic = .ok liballocMagic ∧
      st.minor H d.addr .size = .ok d.size ∧ st.minor H d.addr .reqSize = .ok d.req := by
  obtain ⟨w, hholds, -, hrep⟩ := hI.pool_rep
  have hd : d ∈ P.chunks := hm ▸ List.mem_append_right m₁ List.mem_cons_self
  have hD : d.addr ∈ headers (L₁ ++ P :: L₂) :=
    Chunk.mem_headers (List.mem_append_right L₁ List.mem_cons_self) hd
  have hchain := hrep.chain
  rw [hm, List.map_append, List.map_cons] at hchain
  obtain ⟨hprev, hnext⟩ := hchain.links
  obtain ⟨hblock, hmagic, hsize, hreq⟩ := hrep.chunk d hd
  exact ⟨(Liballoc.word_ok hholds hD (by decide)).trans (congrArg _ hnext),
    (Liballoc.word_ok hholds hD (by decide)).trans (congrArg _ hprev),
    (Liballoc.word_ok hholds hD (by decide)).trans (congrArg _ hblock),
    (Liballoc.word_ok hholds hD (by decide)).trans (congrArg _ hmagic),
    (Liballoc.word_ok hholds hD (by decide)).trans (congrArg _ hsize),
    (Liballoc.word_ok hholds hD (by decide)).trans (congrArg _ hreq)⟩

end Reading

/-! ### One block -/

/-- A piece with the sizes that were asked for has been put into the block `P`. -/
structure Placed (H : LiballocHooks σ) (Ok : σ → Prop) (st : Liballoc σ) (L₁ : List Pool) (P : Pool)
    (L₂ : List Pool) (size req : ℕ) (c : Chunk) (st' : Liballoc σ) (L' : List Pool) : Prop where
  put : ∃ m₁ m₂, P.chunks = m₁ ++ m₂ ∧ L' = L₁ ++ P.holding (m₁ ++ c :: m₂) :: L₂
  sized : c.size = size
  asked : c.req = req
  inv : HeapInv H Ok st' L'
  granted : Granted H (L₁ ++ P :: L₂) st st' size

/-- No gap of the block is `n` bytes long. -/
def Pool.NoGap (P : Pool) (n : ℕ) : Prop := ∀ g ∈ gaps P.start P.fin P.chunks, g < n

/-- The outcome of the cases 2 to 4 in one block. -/
def PlaceResult (H : LiballocHooks σ) (Ok : σ → Prop) (st : Liballoc σ) (L₁ : List Pool) (P : Pool)
    (L₂ : List Pool) (size req : ℕ) (r : Except Fault (Option ℕ × Liballoc σ)) : Prop :=
  (∃ c st' L', r = .ok (some c.ptr, st') ∧ Placed H Ok st L₁ P L₂ size req c st' L') ∨
    (r = .ok (none, st) ∧ P.NoGap (size + sizeofMinor))

/-- The cases 2 to 4 do not fail. -/
theorem PlaceResult.returns {r : Except Fault (Option ℕ × Liballoc σ)}
    (h : PlaceResult H Ok st L₁ P L₂ size req r) :
    ∃ x, r = .ok x ∧ PlaceResult H Ok st L₁ P L₂ size req (.ok x) := by
  obtain ⟨c, st', L', rfl, hplaced⟩ | ⟨rfl, hno⟩ := h
  · exact ⟨_, rfl, .inl ⟨c, st', L', rfl, hplaced⟩⟩
  · exact ⟨_, rfl, .inr ⟨rfl, hno⟩⟩

section Place

variable (hM : H.toBytes.Lawful Ok) (hI : HeapInv H Ok st (L₁ ++ P :: L₂))
  (hroom : req + (alignment + alignInfo) ≤ size)

include hM hI hroom

/-- A piece in the room between `m₁` and `m₂`. -/
theorem HeapInv.placed (hm : P.chunks = m₁ ++ m₂) (hc : c = ⟨lastEnd P.start m₁, size, req⟩)
    (hfin : c.fin ≤ firstStart P.fin m₂) {xs : List (ℕ × ℕ × ℕ)}
    (hxs : ∀ x ∈ xs, (x.1 = c.addr ∨ x.1 ∈ headers (L₁ ++ P :: L₂)) ∧ x.2.1 < 6 ∧
      x.2.2 < 0x100000000)
    (hins : (∀ a ∈ headers (L₁ ++ P :: L₂), a ≠ c.addr) → ∀ w,
      Inserts w (setAll w xs) (headers (L₁ ++ P :: L₂)) P m₁ m₂ c) :
    PlaceResult H Ok st L₁ P L₂ size req (do
      let st ← st.storeAll H xs
      let st ← st.use H P.addr size
      st.granted H c.addr size) := by
  have haddr : c.addr = lastEnd P.start m₁ := by rw [hc]
  have hsize : c.size = size := by rw [hc]
  have hreq : c.req = req := by rw [hc]
  have hcroom : c.req + (alignment + alignInfo) ≤ c.size := by
    rw [hsize, hreq]
    exact hroom
  have hfresh := (hI.geometry.insert hm haddr hfin hcroom).fresh hm
  obtain ⟨st', hrun, hI', hgranted⟩ := place_ok hM hI hm haddr hfin hcroom xs
    (fun x hx => by
      rw [headers_insert hm]
      exact hxs x hx)
    fun w _ => hins (fun a ha heq => hfresh (heq ▸ ha)) w
  rw [hsize] at hrun hgranted
  exact .inl ⟨c, st', _, hrun, ⟨_, _, hm, rfl⟩, hsize, hreq, hI', hgranted⟩

variable (hlt : size + sizeofMinor < 0x100000000) (hreq : req < 0x100000000)

include hlt hreq

/-- The first block may be empty. -/
theorem mallocCase2_ok (hm : P.chunks = []) (hdiff : size + sizeofMinor ≤ P.fin - P.start) :
    PlaceResult H Ok st L₁ P L₂ size req (mallocCase2 H st P.addr size req) := by
  have hbounds := hI.geometry.bounds (List.mem_append_right L₁ (List.mem_cons_self (a := P) (l := L₂)))
  unfold sizeofMinor at hlt
  unfold Pool.start sizeofMinor sizeofMajor at hdiff
  have haddr : wrap32 (P.addr + sizeofMajor) = P.addr + 24 :=
    wrap32_of_lt (by unfold sizeofMajor; omega)
  rw [mallocCase2_eq]
  simp only [haddr]
  have hm' : P.chunks = [] ++ [] := hm
  apply hI.placed hM hroom hm' (c := ⟨P.addr + 24, size, req⟩) rfl
  · show P.addr + 24 + 24 + size ≤ P.fin
    omega
  · intro x hx
    have hPD : P.addr ∈ headers (L₁ ++ P :: L₂) := headers_pool
    simp only [List.mem_cons, List.not_mem_nil, or_false] at hx
    unfold liballocMagic at hx
    rcases hx with rfl | rfl | rfl | rfl | rfl | rfl | rfl <;> simp [hPD] <;> omega
  · exact fun hfresh w => inserts_case2 hfresh headers_pool

theorem mallocCase3_ok (hm : P.chunks = d :: m₂) (hdiff : size + sizeofMinor ≤ d.addr - P.start) :
    PlaceResult H Ok st L₁ P L₂ size req (mallocCase3 H st P.addr d.addr size req) := by
  have hP : P ∈ L₁ ++ P :: L₂ := List.mem_append_right L₁ List.mem_cons_self
  have hbounds := hI.geometry.bounds hP
  have hd : d ∈ P.chunks := hm ▸ List.mem_cons_self
  have hdb := hI.geometry.chunk hP hd
  have hdD := Chunk.mem_headers hP hd
  unfold Chunk.fin sizeofMinor at hdb
  unfold sizeofMinor at hlt
  unfold Pool.start sizeofMinor sizeofMajor at hdiff
  have haddr : wrap32 (P.addr + sizeofMajor) = P.addr + 24 :=
    wrap32_of_lt (by unfold sizeofMajor; omega)
  rw [mallocCase3_eq]
  simp only [haddr]
  have hm' : P.chunks = [] ++ d :: m₂ := hm
  apply hI.placed hM hroom hm' (c := ⟨P.addr + 24, size, req⟩) rfl
  · show P.addr + 24 + 24 + size ≤ d.addr
    omega
  · intro x hx
    have hPD : P.addr ∈ headers (L₁ ++ P :: L₂) := headers_pool
    simp only [List.mem_cons, List.not_mem_nil, or_false] at hx
    unfold liballocMagic at hx
    rcases hx with rfl | rfl | rfl | rfl | rfl | rfl | rfl | rfl <;> simp [hPD, hdD] <;> omega
  · exact fun hfresh w => inserts_case3 hfresh headers_pool hdD

theorem mallocCase41_ok (hm : P.chunks = m ++ [d]) (hdiff : size + sizeofMinor ≤ P.fin - d.fin) :
    PlaceResult H Ok st L₁ P L₂ size req (mallocCase41 H st P.addr d.addr d.size size req) := by
  have hP : P ∈ L₁ ++ P :: L₂ := List.mem_append_right L₁ List.mem_cons_self
  have hbounds := hI.geometry.bounds hP
  have hd : d ∈ P.chunks := hm ▸ List.mem_append_right m List.mem_cons_self
  have hdb := hI.geometry.chunk hP hd
  have hdD := Chunk.mem_headers hP hd
  unfold Chunk.fin sizeofMinor at hdb hdiff
  unfold sizeofMinor at hlt
  have haddr : wrap32 (wrap32 (d.addr + sizeofMinor) + d.size) = d.addr + 24 + d.size := by
    unfold sizeofMinor
    rw [wrap32_of_lt (n := d.addr + 24) (by omega), wrap32_of_lt (by omega)]
  rw [mallocCase41_eq]
  simp only [haddr]
  have hm' : P.chunks = (m ++ [d]) ++ [] := by rw [hm, List.append_nil]
  apply hI.placed hM hroom hm' (c := ⟨d.addr + 24 + d.size, size, req⟩)
  · rw [lastEnd_snoc]
    rfl
  · show d.addr + 24 + d.size + 24 + size ≤ P.fin
    omega
  · intro x hx
    have hPD : P.addr ∈ headers (L₁ ++ P :: L₂) := headers_pool
    simp only [List.mem_cons, List.not_mem_nil, or_false] at hx
    unfold liballocMagic at hx
    rcases hx with rfl | rfl | rfl | rfl | rfl | rfl | rfl <;> simp [hdD] <;> omega
  · exact fun hfresh w => inserts_case41 hfresh headers_pool hdD

theorem mallocCase42_ok (hm : P.chunks = m ++ d :: e :: m₂)
    (hdiff : size + sizeofMinor ≤ e.addr - d.fin) :
    PlaceResult H Ok st L₁ P L₂ size req (mallocCase42 H st P.addr d.addr d.size e.addr size req) := by
  have hP : P ∈ L₁ ++ P :: L₂ := List.mem_append_right L₁ List.mem_cons_self
  have hbounds := hI.geometry.bounds hP
  have hd : d ∈ P.chunks := hm ▸ List.mem_append_right m List.mem_cons_self
  have he : e ∈ P.chunks := hm ▸ List.mem_append_right m (List.mem_cons_of_mem d List.mem_cons_self)
  have hdb := hI.geometry.chunk hP hd
  have heb := hI.geometry.chunk hP he
  have hdD := Chunk.mem_headers hP hd
  have heD := Chunk.mem_headers hP he
  unfold Chunk.fin sizeofMinor at hdb heb hdiff
  unfold sizeofMinor at hlt
  have haddr : wrap32 (wrap32 (d.addr + sizeofMinor) + d.size) = d.addr + 24 + d.size := by
    unfold sizeofMinor
    rw [wrap32_of_lt (n := d.addr + 24) (by omega), wrap32_of_lt (by omega)]
  rw [mallocCase42_eq]
  simp only [haddr]
  have hm' : P.chunks = (m ++ [d]) ++ e :: m₂ := by simp [hm]
  apply hI.placed hM hroom hm' (c := ⟨d.addr + 24 + d.size, size, req⟩)
  · rw [lastEnd_snoc]
    rfl
  · show d.addr + 24 + d.size + 24 + size ≤ e.addr
    omega
  · intro x hx
    have hPD : P.addr ∈ headers (L₁ ++ P :: L₂) := headers_pool
    simp only [List.mem_cons, List.not_mem_nil, or_false] at hx
    unfold liballocMagic at hx
    rcases hx with rfl | rfl | rfl | rfl | rfl | rfl | rfl | rfl <;> simp [hdD, heD] <;> omega
  · exact fun hfresh w => inserts_case42 hfresh headers_pool hdD heD

/-- A round of the loop over the gaps behind the pieces. -/
theorem mallocCase4_ok (hm : P.chunks = m₁ ++ d :: m₂) :
    (∃ r, mallocCase4 H st P.addr size req d.addr = .ok (.inr r) ∧
        PlaceResult H Ok st L₁ P L₂ size req (.ok r)) ∨
      (mallocCase4 H st P.addr size req d.addr = .ok (.inl ((m₂.map Chunk.addr).headD 0)) ∧
        firstStart P.fin m₂ - d.fin < size + sizeofMinor) := by
  have hP : P ∈ L₁ ++ P :: L₂ := List.mem_append_right L₁ List.mem_cons_self
  have hbounds := hI.geometry.bounds hP
  have hd : d ∈ P.chunks := hm ▸ List.mem_append_right m₁ List.mem_cons_self
  have hdb := hI.geometry.chunk hP hd
  have hdne : d.addr ≠ 0 := by omega
  obtain ⟨hnext, -, -, -, hsize, -⟩ := hI.minor_fields hm
  have hneed : wrap32 (size + sizeofMinor) = size + sizeofMinor := wrap32_of_lt hlt
  have hdiff : ∀ {x : ℕ}, d.fin ≤ x → x ≤ 0x100000000 →
      sub32 (sub32 (sub32 (wrap32 x) d.addr) sizeofMinor) d.size = x - d.fin := by
    intro x hlo hhi
    unfold Chunk.fin sizeofMinor at *
    rw [sub32_wrap (n := x) (by omega) hhi hdne, sub32_of_le (n := x - d.addr) (by omega) (by omega),
      sub32_of_le (by omega) (by omega)]
    omega
  unfold mallocCase4
  rw [if_neg hdne, hnext, ok_bind, hsize, ok_bind]
  cases m₂ with
  | nil =>
      simp only [List.map_nil, List.headD_nil, if_true, hI.major_size, ok_bind]
      rw [show P.addr + P.pages * lPageSize = P.fin from rfl, hdiff hdb.2.1 hbounds.2.2, hneed]
      by_cases hle : size + sizeofMinor ≤ P.fin - d.fin
      · obtain ⟨r, hr, hres⟩ := (mallocCase41_ok hM hI hroom hlt hreq hm hle).returns
        rw [if_pos hle, hr]
        exact .inl ⟨r, rfl, hres⟩
      · rw [if_neg hle]
        exact .inr ⟨rfl, Nat.lt_of_not_le hle⟩
  | cons e m₂ =>
      have he : e ∈ P.chunks := hm ▸ List.mem_append_right m₁ (List.mem_cons_of_mem d List.mem_cons_self)
      have heb := hI.geometry.chunk hP he
      have hfits := hI.geometry.fits P hP
      rw [hm] at hfits
      have hle' : d.fin ≤ e.addr := (fits_append.mp hfits).2.1
      have hene : e.addr ≠ 0 := by omega
      have helt : e.addr < 0x100000000 := by
        unfold Chunk.fin sizeofMinor at heb
        omega
      have hd' := hdiff hle' (Nat.le_of_lt helt)
      rw [wrap32_of_lt helt] at hd'
      simp only [List.map_cons, List.headD_cons, if_neg hene]
      rw [hd', hneed]
      by_cases hle : size + sizeofMinor ≤ e.addr - d.fin
      · obtain ⟨r, hr, hres⟩ := (mallocCase42_ok hM hI hroom hlt hreq hm hle).returns
        rw [if_pos hle, hr]
        exact .inl ⟨r, rfl, hres⟩
      · rw [if_neg hle]
        exact .inr ⟨rfl, Nat.lt_of_not_le hle⟩

/-- The cases 2 to 4 find a gap of the block that is large enough, if there is one. -/
theorem mallocPlace_ok (hdiff : size + sizeofMinor ≤ P.pages * lPageSize - (sizeofMajor + used P.chunks)) :
    PlaceResult H Ok st L₁ P L₂ size req (mallocPlace H st P.addr size req) := by
  have hP : P ∈ L₁ ++ P :: L₂ := List.mem_append_right L₁ List.mem_cons_self
  have hbounds := hI.geometry.bounds hP
  have hfits := hI.geometry.fits P hP
  have hneed : wrap32 (size + sizeofMinor) = size + sizeofMinor := wrap32_of_lt hlt
  unfold mallocPlace
  rw [hI.major_first, ok_bind]
  cases hm : P.chunks with
  | nil =>
      simp only [List.map_nil, List.headD_nil, if_true]
      apply mallocCase2_ok hM hI hroom hlt hreq hm
      rw [hm] at hdiff
      unfold used at hdiff
      unfold Pool.fin Pool.start
      omega
  | cons d m =>
      have hd : d ∈ P.chunks := hm ▸ List.mem_cons_self
      have hdb := hI.geometry.chunk hP hd
      have hdne : d.addr ≠ 0 := by omega
      have hgap : sub32 (sub32 d.addr P.addr) sizeofMajor = d.addr - P.start := by
        unfold Chunk.fin at hdb
        unfold Pool.start sizeofMajor
        rw [sub32_of_le (n := d.addr) (by omega) (by omega), sub32_of_le (by omega) (by omega)]
        omega
      simp only [List.map_cons, List.headD_cons, if_neg hdne]
      rw [hgap, hneed]
      by_cases hle : size + sizeofMinor ≤ d.addr - P.start
      · rw [if_pos hle]
        exact mallocCase3_ok hM hI hroom hlt hreq hm hle
      · rw [if_neg hle]
        -- the gaps up to the piece at hand are too small
        let I : ℕ → ℕ → Prop := fun k min =>
          (∃ m₁ e m₂, P.chunks = m₁ ++ e :: m₂ ∧ min = e.addr ∧ k = m₂.length + 1 ∧
            ∀ g ∈ gaps P.start e.addr m₁, g < size + sizeofMinor) ∨
          (min = 0 ∧ P.NoGap (size + sizeofMinor))
        have hround : ∀ k min, I k min →
            (∃ k' min', mallocCase4 H st P.addr size req min = .ok (.inl min') ∧ I k' min' ∧ k' < k) ∨
            (∃ r, mallocCase4 H st P.addr size req min = .ok (.inr r) ∧
              PlaceResult H Ok st L₁ P L₂ size req (.ok r)) ∨
            ∃ e, mallocCase4 H st P.addr size req min = .error e ∧
              PlaceResult H Ok st L₁ P L₂ size req (.error e) := by
          rintro k min (⟨m₁, e, m₂, hm', rfl, rfl, hgaps⟩ | ⟨rfl, hno⟩)
          · cases mallocCase4_ok hM hI hroom hlt hreq hm' with
            | inl hres => exact .inr (.inl hres)
            | inr hgo =>
                obtain ⟨hrun, hsmall⟩ := hgo
                refine .inl ⟨m₂.length, _, hrun, ?_, Nat.lt_succ_self _⟩
                cases m₂ with
                | nil =>
                    refine .inr ⟨rfl, ?_⟩
                    unfold Pool.NoGap
                    rw [hm', gaps_append]
                    intro g hg
                    cases List.mem_append.mp hg with
                    | inl hfront => exact hgaps g hfront
                    | inr hlast => exact List.mem_singleton.mp hlast ▸ hsmall
                | cons e' m₂ =>
                    refine .inl ⟨m₁ ++ [e], e', m₂, by simp [hm'], rfl, rfl, fun g hg => ?_⟩
                    rw [gaps_append] at hg
                    cases List.mem_append.mp hg with
                    | inl hfront => exact hgaps g hfront
                    | inr hlast => exact List.mem_singleton.mp hlast ▸ hsmall
          · refine .inr (.inl ⟨(none, st), ?_, .inr ⟨rfl, hno⟩⟩)
            unfold mallocCase4
            rw [if_pos rfl]
        have hstart : I (m.length + 1) d.addr := by
          refine .inl ⟨[], d, m, hm, rfl, rfl, fun g hg => ?_⟩
          exact List.mem_singleton.mp hg ▸ Nat.lt_of_not_le hle
        have hlen := hfits.length
        rw [hm, List.length_cons] at hlen
        apply whileE_outcome (I := I) (O := PlaceResult H Ok st L₁ P L₂ size req) hround hstart
        unfold searchBound
        unfold sizeofMinor at hlen
        omega

end Place

end GalaxyOS
