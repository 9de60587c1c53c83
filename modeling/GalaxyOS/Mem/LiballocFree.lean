import GalaxyOS.Mem.LiballocSearch

/-! # A piece is freed

`free` finds the structure of the piece through the distance in front of the pointer, takes the piece
out of its block, and gives the block back if it was the last piece in it; only the kernel does the
latter.

`free_ok` is the whole function.  `HeapInv.erased` takes the piece out of the list and `releaseMajor_ok`
gives the block back; that the other structures stay is `Erases.outside`. -/

namespace GalaxyOS

open Transition Records Linked

variable {σ : Type} {H : LiballocHooks σ} {Ok : σ → Prop} {v : LiballocVersion} {top : ℕ}
  {st : Liballoc σ} {s s' : σ} {D : Set ℕ} {w w' : ℕ → ℕ → ℕ} {a maj p q root : ℕ}
  {L L₁ L₂ : List Pool} {P : Pool} {c : Chunk} {m₁ m₂ : List Chunk}

/-! ### The piece is taken out -/

/-- The piece `c` has been taken out from between `m₁` and `m₂`. -/
structure Erases (w w' : ℕ → ℕ → ℕ) (D : Set ℕ) (P : Pool) (m₁ m₂ : List Chunk) (c : Chunk) :
    Prop where
  next : ∀ a ∈ D, w' a 1 = if (m₁.map Chunk.addr).getLast? = some a then (m₂.map Chunk.addr).headD 0
    else w a 1
  prev : ∀ a ∈ D, w' a 0 = if (m₂.map Chunk.addr).head? = some a then (m₁.map Chunk.addr).getLastD 0
    else w a 0
  first : w' P.addr 5 = if m₁ = [] then (m₂.map Chunk.addr).headD 0 else w P.addr 5
  usage : w' P.addr 4 = w P.addr 4 - (c.size + sizeofMinor)
  rest : ∀ a ∈ D, w' a 2 = w a 2 ∧ (a ≠ c.addr → w' a 3 = w a 3) ∧
    (a ≠ P.addr → w' a 4 = w a 4 ∧ w' a 5 = w a 5)

/-- What is stored to take a piece out, when `p` is in front of it and `q` behind it. -/
def unlinks (maj p q : ℕ) : List (ℕ × ℕ × ℕ) :=
  (if q = 0 then [] else [(q, 0, p)]) ++ if p = 0 then [(maj, 5, q)] else [(p, 1, q)]

theorem unlinks_eq {α : Type} (st : Liballoc σ) (maj p q : ℕ) (f : Liballoc σ → Except Fault α) : (do
    let st ← st.linkMinor H q .prev p
    let st ← st.linkMinor H p .next q
    let st ← st.unlinkFirst H maj p q
    f st) = (do
    let st ← st.storeAll H (unlinks maj p q)
    f st) := by
  unfold unlinks
  by_cases hq : q = 0 <;> by_cases hp : p = 0 <;>
    simp [hp, hq, Liballoc.linkMinor, Liballoc.unlinkFirst, Liballoc.storeAll, Liballoc.setMinor,
      Liballoc.setMajor, MinorField.index, MajorField.index, ok_bind, bind_assoc]

/-- The links of the neighbours, when none of the structures is at `0`. -/
theorem erases_stores (hP : ∀ a ∈ D, a ≠ P.addr → a ≠ 0)
    (hm : ∀ d ∈ m₁ ++ m₂, d.addr ∈ D ∧ d.addr ≠ P.addr ∧ d.addr ≠ c.addr) (hc : c.addr ≠ P.addr) :
    Erases w (setAll w ([(P.addr, 4, w P.addr 4 - (c.size + sizeofMinor)), (c.addr, 3, liballocDead)] ++
      unlinks P.addr ((m₁.map Chunk.addr).getLastD 0) ((m₂.map Chunk.addr).headD 0))) D P m₁ m₂ c := by
  have hne : ∀ d ∈ m₁ ++ m₂, d.addr ≠ 0 := fun d hd => hP _ (hm d hd).1 (hm d hd).2.1
  unfold unlinks
  cases List.eq_nil_or_concat m₁ with
  | inl hm₁ =>
      subst hm₁
      cases m₂ with
      | nil =>
          refine ⟨fun a ha => ?_, fun a ha => ?_, ?_, ?_, fun a ha => ?_⟩
          all_goals simp [setAll, setWord_apply]
          all_goals grind
      | cons e m₂ =>
          have he := hm e (by simp)
          have hene := hne e (by simp)
          refine ⟨fun a ha => ?_, fun a ha => ?_, ?_, ?_, fun a ha => ?_⟩
          all_goals simp [setAll, setWord_apply, hene]
          all_goals grind
  | inr hsnoc =>
      obtain ⟨m, d, rfl⟩ := hsnoc
      have hd := hm d (by simp)
      have hdne := hne d (by simp)
      cases m₂ with
      | nil =>
          refine ⟨fun a ha => ?_, fun a ha => ?_, ?_, ?_, fun a ha => ?_⟩
          all_goals simp [setAll, setWord_apply, hdne]
          all_goals grind
      | cons e m₂ =>
          have he := hm e (by simp)
          have hene := hne e (by simp)
          refine ⟨fun a ha => ?_, fun a ha => ?_, ?_, ?_, fun a ha => ?_⟩
          all_goals simp [setAll, setWord_apply, hdne, hene]
          all_goals grind

theorem mem_of_erase (hm : P.chunks = m₁ ++ c :: m₂) {d : Chunk} (hd : d ∈ m₁ ++ m₂) : d ∈ P.chunks := by
  rw [hm]
  cases List.mem_append.mp hd with
  | inl hd₁ => exact List.mem_append_left _ hd₁
  | inr hd₂ => exact List.mem_append_right _ (List.mem_cons_of_mem c hd₂)

/-- The other pieces lie elsewhere. -/
theorem addr_ne_erased (hm : P.chunks = m₁ ++ c :: m₂) (hnd : (P.chunks.map Chunk.addr).Nodup) {d : Chunk}
    (hd : d ∈ m₁ ++ m₂) : d.addr ≠ c.addr := by
  rw [hm, List.map_append, List.map_cons] at hnd
  have hmid := (List.nodup_append.mp hnd).2
  intro heq
  cases List.mem_append.mp hd with
  | inl hd₁ => exact hmid.2 _ (List.mem_map_of_mem hd₁) _ List.mem_cons_self heq
  | inr hd₂ => exact (List.nodup_cons.mp hmid.1).1 (heq ▸ List.mem_map_of_mem hd₂)

/-- The words describe the block without the piece. -/
theorem PoolRep.erased (h : PoolRep w P) (hm : P.chunks = m₁ ++ c :: m₂) (he : Erases w w' D P m₁ m₂ c)
    (hPD : P.addr ∈ D) (hD : ∀ d ∈ P.chunks, d.addr ∈ D) (hnd : (P.chunks.map Chunk.addr).Nodup)
    (hold : ∀ d ∈ P.chunks, d.addr ≠ P.addr) : PoolRep w' (P.holding (m₁ ++ m₂)) := by
  have hc := hold c (hm ▸ List.mem_append_right m₁ List.mem_cons_self)
  have hmem : ∀ d ∈ m₁ ++ m₂, d ∈ P.chunks := fun d => mem_of_erase hm
  have hother : ∀ d ∈ m₁ ++ m₂, d.addr ≠ c.addr := fun d => addr_ne_erased hm hnd
  obtain ⟨h2, h3, -⟩ := he.rest P.addr hPD
  have hchain := h.chain
  rw [hm, List.map_append, List.map_cons] at hnd hchain
  have hnd' : (m₁.map Chunk.addr ++ m₂.map Chunk.addr).Nodup :=
    hnd.sublist (List.Sublist.append_left (List.sublist_cons_self _ _) _)
  have haddr : ∀ a ∈ m₁.map Chunk.addr ++ m₂.map Chunk.addr, a ∈ D := by
    intro a ha
    rw [← List.map_append] at ha
    obtain ⟨d, hd, rfl⟩ := List.mem_map.mp ha
    exact hD d (hmem d hd)
  refine ⟨?_, ?_, ?_, ?_, ?_, fun d hd => ?_⟩
  · exact h2.trans h.pages
  · exact (h3 hc.symm).trans h.size
  · show w' P.addr 4 = sizeofMajor + used (m₁ ++ m₂)
    rw [he.usage, h.usage, hm, used_append, used_append, used_cons]
    omega
  · show w' P.addr 5 = ((m₁ ++ m₂).map Chunk.addr).headD 0
    rw [he.first, h.first, hm]
    cases m₁ with
    | nil => rfl
    | cons d m₁ => rfl
  · show Seg _ _ 0 ((m₁ ++ m₂).map Chunk.addr) 0
    rw [List.map_append]
    exact hchain.erase hnd' (fun a ha => he.next a (haddr a ha)) fun a ha => he.prev a (haddr a ha)
  · have hdP := hmem d hd
    have hdc := hother d hd
    obtain ⟨g2, g3, g45⟩ := he.rest d.addr (hD d hdP)
    rw [g2, g3 hdc, (g45 (hold d hdP)).1, (g45 (hold d hdP)).2]
    exact h.chunk d hdP

/-- A structure that is no neighbour stays as it is. -/
theorem Erases.outside (he : Erases w w' D P m₁ m₂ c) (ha : a ∈ D) (hP : a ≠ P.addr)
    (hno : ∀ d ∈ m₁ ++ c :: m₂, a ≠ d.addr) : ∀ j < 6, w' a j = w a j := by
  have hout : ∀ m : List Chunk, (∀ d ∈ m, d ∈ m₁ ++ c :: m₂) → a ∉ m.map Chunk.addr := by
    intro m hsub hmem
    obtain ⟨d, hd, hda⟩ := List.mem_map.mp hmem
    exact hno d (hsub d hd) hda.symm
  have hout₁ := hout m₁ fun d hd => List.mem_append_left _ hd
  have hout₂ := hout m₂ fun d hd => List.mem_append_right m₁ (List.mem_cons_of_mem c hd)
  obtain ⟨h2, h3, h45⟩ := he.rest a ha
  intro j hj
  interval_cases j
  · rw [he.prev a ha, if_neg fun hhead => hout₂ (List.mem_of_head? hhead)]
  · rw [he.next a ha, if_neg fun hlast => hout₁ (List.mem_of_getLast? hlast)]
  · exact h2
  · exact h3 (hno c (List.mem_append_right m₁ List.mem_cons_self))
  · exact (h45 hP).1
  · exact (h45 hP).2

/-- The words describe the heap without the piece. -/
theorem HeapRep.erased (h : HeapRep w root (L₁ ++ P :: L₂)) (hg : Geometry (L₁ ++ P :: L₂))
    (hm : P.chunks = m₁ ++ c :: m₂) (he : Erases w w' (headers (L₁ ++ P :: L₂)) P m₁ m₂ c) :
    HeapRep w' root (L₁ ++ P.holding (m₁ ++ m₂) :: L₂) := by
  have hP : P ∈ L₁ ++ P :: L₂ := List.mem_append_right _ List.mem_cons_self
  have hPD := Pool.mem_headers hP
  have hne : ∀ m : List Chunk, (∀ d ∈ m, d ∈ P.chunks) → P.addr ∉ m.map Chunk.addr := by
    intro m hsub hmem
    obtain ⟨d, hd, heq⟩ := List.mem_map.mp hmem
    exact hg.chunk_ne_pool hP (hsub d hd) hP heq
  have hm₁ := hne m₁ fun d hd => hm ▸ List.mem_append_left _ hd
  have hm₂ := hne m₂ fun d hd => hm ▸ List.mem_append_right m₁ (List.mem_cons_of_mem c hd)
  apply h.update hg
  · intro a ha haP hout
    exact he.outside ha haP (hm ▸ hout)
  · rw [he.prev _ hPD, he.next _ hPD, if_neg fun hhead => hm₂ (List.mem_of_head? hhead),
      if_neg fun hlast => hm₁ (List.mem_of_getLast? hlast)]
    exact ⟨rfl, rfl⟩
  · exact (h.pool P hP).erased hm he hPD (fun d hd => Chunk.mem_headers hP hd) (hg.fits P hP).nodup
      fun d hd => hg.chunk_ne_pool hP hd hP

/-- The pieces of the block `P` are some of those it had. -/
theorem Geometry.erase (h : Geometry (L₁ ++ P :: L₂)) (hm : P.chunks = m₁ ++ c :: m₂) :
    Geometry (L₁ ++ P.holding (m₁ ++ m₂) :: L₂) := by
  have hP : P ∈ L₁ ++ P :: L₂ := List.mem_append_right _ List.mem_cons_self
  have hfits := h.fits P hP
  rw [hm] at hfits
  exact h.holding hfits.erase fun d hd => h.room P hP d (mem_of_erase hm hd)

theorem mem_chunksOf_erase (hm : P.chunks = m₁ ++ c :: m₂) {d : Chunk}
    (hd : d ∈ chunksOf (L₁ ++ P.holding (m₁ ++ m₂) :: L₂)) : d ∈ chunksOf (L₁ ++ P :: L₂) := by
  simp only [chunksOf_split, Pool.holding, hm, List.mem_append, List.mem_cons] at hd ⊢
  tauto

theorem headers_erase (hm : P.chunks = m₁ ++ c :: m₂) :
    headers (L₁ ++ P.holding (m₁ ++ m₂) :: L₂) ⊆ headers (L₁ ++ P :: L₂) := by
  intro a ha
  rw [mem_headers_split] at ha ⊢
  rw [hm]
  simp only [Pool.holding, List.mem_append, List.mem_cons] at ha ⊢
  rcases ha with h | (h | ⟨d, hd, h⟩) | h
  · exact .inl h
  · exact .inr (.inl (.inl h))
  · exact .inr (.inl (.inr ⟨d, by tauto, h⟩))
  · exact .inr (.inr h)

theorem setAll_append (w : ℕ → ℕ → ℕ) (xs ys : List (ℕ × ℕ × ℕ)) :
    setAll w (xs ++ ys) = setAll (setAll w xs) ys := by
  induction xs generalizing w with
  | nil => rfl
  | cons x xs ih => exact ih _

theorem headD_zero : ∀ l : List ℕ, l.headD 0 = 0 ∨ l.headD 0 ∈ l
  | [] => .inl rfl
  | _ :: _ => .inr List.mem_cons_self

theorem getLastD_zero (l : List ℕ) : l.getLastD 0 = 0 ∨ l.getLastD 0 ∈ l := by
  cases List.eq_nil_or_concat l with
  | inl h => exact .inl (by rw [h]; rfl)
  | inr h =>
      obtain ⟨l', x, rfl⟩ := h
      exact .inr (by simp)

section Unlink

variable (hI : HeapInv H Ok st (L₁ ++ P :: L₂)) (hm : P.chunks = m₁ ++ c :: m₂)

include hI hm

/-- The other pieces of the block are structures of the heap. -/
theorem HeapInv.other_pieces {d : Chunk} (hd : d ∈ m₁ ++ m₂) :
    d.addr ∈ headers (L₁ ++ P :: L₂) ∧ d.addr ≠ P.addr ∧ d.addr ≠ c.addr ∧ d.addr < 0x100000000 := by
  have hP : P ∈ L₁ ++ P :: L₂ := List.mem_append_right _ List.mem_cons_self
  have hdP := mem_of_erase hm hd
  have hbounds := hI.geometry.bounds hP
  have hdb := hI.geometry.chunk hP hdP
  refine ⟨Chunk.mem_headers hP hdP, hI.geometry.chunk_ne_pool hP hdP hP,
    addr_ne_erased hm (hI.geometry.fits P hP).nodup hd, ?_⟩
  unfold Chunk.fin sizeofMinor at hdb
  omega

/-- The neighbours of the piece are structures of the heap, where there are any. -/
theorem HeapInv.neighbours {p q : ℕ} (hp : (m₁.map Chunk.addr).getLastD 0 = p)
    (hq : (m₂.map Chunk.addr).headD 0 = q) :
    (p = 0 ∨ p < 0x100000000 ∧ p ∈ headers (L₁ ++ P :: L₂)) ∧
      (q = 0 ∨ q < 0x100000000 ∧ q ∈ headers (L₁ ++ P :: L₂)) := by
  have haddr : ∀ x ∈ (m₁ ++ m₂).map Chunk.addr, x < 0x100000000 ∧ x ∈ headers (L₁ ++ P :: L₂) := by
    intro x hx
    obtain ⟨d, hd, rfl⟩ := List.mem_map.mp hx
    obtain ⟨hdD, -, -, hlt⟩ := hI.other_pieces hm hd
    exact ⟨hlt, hdD⟩
  rw [List.map_append] at haddr
  constructor
  · rw [← hp]
    exact (getLastD_zero _).imp_right fun hx => haddr _ (List.mem_append_left _ hx)
  · rw [← hq]
    exact (headD_zero _).imp_right fun hx => haddr _ (List.mem_append_right _ hx)

/-- The heap without the piece is in order. -/
theorem HeapInv.erased {w : ℕ → ℕ → ℕ} {s : σ} (hkept : Kept H (L₁ ++ P :: L₂) st.sys s)
    (hholds : HeapHolds H Ok (headers (L₁ ++ P :: L₂)) w s)
    (hrep : HeapRep w st.memRoot (L₁ ++ P.holding (m₁ ++ m₂) :: L₂)) :
    HeapInv H Ok { st with sys := s, inuse := st.inuse - c.size } (L₁ ++ P.holding (m₁ ++ m₂) :: L₂) := by
  refine ⟨hI.geometry.erase hm, ⟨_, ⟨hholds.ok, hholds.table.mono (headers_erase hm)⟩, hrep⟩,
    hI.mapped_holding _ hkept.mapped, fun d hd => ?_, ?_, ?_, ?_⟩
  · have hold := mem_chunksOf_erase hm hd
    obtain ⟨hlo, hhi⟩ := hI.geometry.align_inside hold
    exact (hkept.bodies d hold _ hlo hhi).trans (hI.aligns d hold)
  · rw [Pool.addrs_holding]
    exact hI.best
  · rw [poolBytes_holding]
    exact hI.allocated
  · show st.inuse - c.size = _
    rw [hI.inuse]
    simp only [chunksOf_split, Pool.holding, hm, chunkBytes_append, chunkBytes]
    omega

/-- The piece is taken out; then the block is given back or may be the best bet. -/
theorem freeMinor_eq (hM : H.toBytes.Lawful Ok) (v : LiballocVersion) :
    ∃ st', st' = { st with sys := st'.sys, inuse := st.inuse - c.size } ∧
      HeapInv H Ok st' (L₁ ++ P.holding (m₁ ++ m₂) :: L₂) ∧ Kept H (L₁ ++ P :: L₂) st.sys st'.sys ∧
      st.freeMinor H v c.addr =
        if ((m₁ ++ m₂).map Chunk.addr).headD 0 = 0 then
          match v with
          | .kernel => st'.releaseMajor H P.addr
          | .user => .ok st'
        else st'.betOn H P.addr := by
  obtain ⟨w, hholds, hrep⟩ := hI.rep
  have hP : P ∈ L₁ ++ P :: L₂ := List.mem_append_right _ List.mem_cons_self
  have hc : c ∈ P.chunks := hm ▸ List.mem_append_right m₁ List.mem_cons_self
  have hPD := Pool.mem_headers hP
  have hcD := Chunk.mem_headers hP hc
  have hbounds := hI.geometry.bounds hP
  have hcP := hI.geometry.chunk_ne_pool hP hc hP
  have hcb := hI.geometry.chunk hP hc
  have hfits := hI.geometry.fits P hP
  have hprep := hrep.pool P hP
  have husage : w P.addr 4 = sizeofMajor + used P.chunks := hprep.usage
  have hsize : w c.addr 4 = c.size := (hprep.chunk c hc).2.2.1
  have hblock : w c.addr 2 = P.addr := (hprep.chunk c hc).1
  have hused : used P.chunks = used m₁ + (c.size + sizeofMinor + used m₂) := by
    rw [hm, used_append, used_cons]
  have hle := hfits.le
  have hlinks : w c.addr 0 = (m₁.map Chunk.addr).getLastD 0 ∧
      w c.addr 1 = (m₂.map Chunk.addr).headD 0 := by
    have hchain := hprep.chain
    rw [hm, List.map_append, List.map_cons] at hchain
    exact hchain.links
  have herases := erases_stores (w := w) (D := headers (L₁ ++ P :: L₂)) (P := P) (c := c)
    (fun a ha _ => by
      obtain ⟨Q, hQ, hlo, hhi⟩ := hI.geometry.header ha
      have hQb := hI.geometry.bounds hQ
      omega)
    (fun d hd => by
      obtain ⟨hdD, hdP, hdc, -⟩ := hI.other_pieces hm hd
      exact ⟨hdD, hdP, hdc⟩) hcP
  generalize hp : (m₁.map Chunk.addr).getLastD 0 = p at herases hlinks
  generalize hq : (m₂.map Chunk.addr).headD 0 = q at herases hlinks
  obtain ⟨hp', hq'⟩ := hI.neighbours hm hp hq
  -- the count and the magic number
  obtain ⟨s₁, hstore₁, hholds₁, hframe₁⟩ := Liballoc.storeAll_ok hM
    [(P.addr, 4, w P.addr 4 - (c.size + sizeofMinor)), (c.addr, 3, liballocDead)]
    { st with inuse := st.inuse - c.size } hholds fun x hx => by
      simp only [List.mem_cons, List.not_mem_nil, or_false] at hx
      unfold liballocDead at hx
      have hstart : P.start = P.addr + sizeofMajor := rfl
      rcases hx with rfl | rfl
      · exact ⟨hPD, (by decide : 4 < 6), show w P.addr 4 - (c.size + sizeofMinor) < _ by omega⟩
      · exact ⟨hcD, (by decide : 3 < 6), show 0xdeaddead < _ by omega⟩
  -- the links
  obtain ⟨s₂, hstore₂, hholds₂, hframe₂⟩ := Liballoc.storeAll_ok hM (unlinks P.addr p q)
    { st with sys := s₁, inuse := st.inuse - c.size } hholds₁ fun x hx => by
      unfold unlinks at hx
      grind
  rw [← setAll_append] at hholds₂
  have hkept := hI.kept_of_frame (hframe₁.trans hframe₂)
  have hrep' := hrep.erased hI.geometry hm herases
  refine ⟨{ st with sys := s₂, inuse := st.inuse - c.size }, rfl, hI.erased hm hkept hholds₂ hrep', hkept, ?_⟩
  have hw₁ : ∀ j, j ≠ 3 → setAll w [(P.addr, 4, w P.addr 4 - (c.size + sizeofMinor)),
      (c.addr, 3, liballocDead)] c.addr j = w c.addr j := by
    intro j hj
    simp [setAll, setWord_apply, hcP, hj]
  have husage' : sub32 (w P.addr 4) (wrap32 (c.size + sizeofMinor)) =
      w P.addr 4 - (c.size + sizeofMinor) := by
    have hstart : P.start = P.addr + sizeofMajor := rfl
    rw [wrap32_of_lt (by omega), sub32_of_le (by omega) (by omega)]
  have hread₁ : ∀ j < 6, j ≠ 3 →
      Liballoc.word H { st with sys := s₁, inuse := st.inuse - c.size } c.addr j = .ok (w c.addr j) :=
    fun j hj hne => (Liballoc.word_ok hholds₁ hcD hj).trans (congrArg Except.ok (hw₁ j hne))
  have hfirst : Liballoc.word H { st with sys := s₂, inuse := st.inuse - c.size } P.addr 5 =
      .ok (((m₁ ++ m₂).map Chunk.addr).headD 0) := by
    have hrep₂ := hrep'.pool (P.holding (m₁ ++ m₂)) (List.mem_append_right _ List.mem_cons_self)
    exact (Liballoc.word_ok hholds₂ hPD (by decide)).trans (congrArg Except.ok hrep₂.first)
  unfold Liballoc.freeMinor
  simp only [Liballoc.minor, Liballoc.major, Liballoc.setMajor, Liballoc.setMinor, MinorField.index,
    MajorField.index]
  rw [Liballoc.word_ok hholds hcD (by decide), ok_bind, hblock, Liballoc.word_ok hholds hcD (by decide),
    ok_bind, hsize, Liballoc.word_ok hholds hPD (by decide), ok_bind, husage']
  simp only [Liballoc.storeAll, bind_ok, Except.ok.injEq] at hstore₁
  obtain ⟨st₁, hone, st₂, htwo, rfl⟩ := hstore₁
  rw [hone, ok_bind, htwo, ok_bind, hread₁ 1 (by decide) (by decide), ok_bind, hlinks.2,
    hread₁ 0 (by decide) (by decide), ok_bind, hlinks.1, unlinks_eq, hstore₂, ok_bind, hfirst]
  exact ok_bind

end Unlink

/-! ### The block is given back -/

/-- The block between `L₁` and `L₂` is no longer linked. -/
structure Bypasses (w w' : ℕ → ℕ → ℕ) (D : Set ℕ) (L₁ L₂ : List Pool) : Prop where
  next : ∀ a ∈ D, w' a 1 = if (L₁.map Pool.addr).getLast? = some a then (L₂.map Pool.addr).headD 0
    else w a 1
  prev : ∀ a ∈ D, w' a 0 = if (L₂.map Pool.addr).head? = some a then (L₁.map Pool.addr).getLastD 0
    else w a 0
  rest : ∀ a ∈ D, ∀ j, 2 ≤ j → w' a j = w a j

/-- What is stored to link two blocks, or the ends of the list, to each other. -/
def bypass (p q : ℕ) : List (ℕ × ℕ × ℕ) :=
  (if p = 0 then [] else [(p, 1, q)]) ++ if q = 0 then [] else [(q, 0, p)]

theorem bypass_eq {α : Type} (st : Liballoc σ) (p q : ℕ) (f : Liballoc σ → Except Fault α) : (do
    let st ← st.linkMajor H p .next q
    let st ← st.linkMajor H q .prev p
    f st) = (do
    let st ← st.storeAll H (bypass p q)
    f st) := by
  unfold bypass
  by_cases hq : q = 0 <;> by_cases hp : p = 0 <;>
    simp [hp, hq, Liballoc.linkMajor, Liballoc.storeAll, Liballoc.setMajor, MajorField.index, ok_bind,
      bind_assoc]

theorem bypasses_stores (hne : ∀ P ∈ L₁ ++ L₂, P.addr ≠ 0) :
    Bypasses w (setAll w (bypass ((L₁.map Pool.addr).getLastD 0) ((L₂.map Pool.addr).headD 0))) D L₁ L₂ := by
  unfold bypass
  cases List.eq_nil_or_concat L₁ with
  | inl hL₁ =>
      subst hL₁
      cases L₂ with
      | nil =>
          refine ⟨fun a _ => ?_, fun a _ => ?_, fun a _ j hj => ?_⟩
          all_goals simp [setAll]
      | cons Q L₂ =>
          have hQ := hne Q (by simp)
          refine ⟨fun a _ => ?_, fun a _ => ?_, fun a _ j hj => ?_⟩
          all_goals simp [setAll, setWord_apply, hQ]
          all_goals grind
  | inr hsnoc =>
      obtain ⟨L, R, rfl⟩ := hsnoc
      have hR := hne R (by simp)
      cases L₂ with
      | nil =>
          refine ⟨fun a _ => ?_, fun a _ => ?_, fun a _ j hj => ?_⟩
          all_goals simp [setAll, setWord_apply, hR]
          all_goals grind
      | cons Q L₂ =>
          have hQ := hne Q (by simp)
          refine ⟨fun a _ => ?_, fun a _ => ?_, fun a _ j hj => ?_⟩
          all_goals simp [setAll, setWord_apply, hR, hQ]
          all_goals grind

theorem mem_headers_remove (ha : a ∈ headers (L₁ ++ L₂)) : a ∈ headers (L₁ ++ P :: L₂) := by
  obtain ⟨Q, hQ, hQa⟩ := ha
  refine ⟨Q, ?_, hQa⟩
  cases List.mem_append.mp hQ with
  | inl h => exact List.mem_append_left _ h
  | inr h => exact List.mem_append_right _ (List.mem_cons_of_mem P h)

theorem Geometry.remove (h : Geometry (L₁ ++ P :: L₂)) : Geometry (L₁ ++ L₂) := by
  have hsub : (L₁ ++ L₂).Sublist (L₁ ++ P :: L₂) :=
    List.Sublist.append_left (List.sublist_cons_self P L₂) L₁
  refine ⟨⟨fun p hp => ?_, ?_⟩, fun Q hQ => h.pages Q (hsub.subset hQ),
    fun Q hQ => h.fits Q (hsub.subset hQ), fun Q hQ => h.room Q (hsub.subset hQ)⟩
  · exact h.blocks.inside p ((hsub.map _).subset hp)
  · exact h.blocks.apart.sublist (hsub.map _)

/-- The words describe the heap without the block. -/
theorem HeapRep.removed (h : HeapRep w root (L₁ ++ P :: L₂)) (hg : Geometry (L₁ ++ P :: L₂))
    (hb : Bypasses w w' (headers (L₁ ++ P :: L₂)) L₁ L₂) :
    HeapRep w' (if root = P.addr then (L₂.map Pool.addr).headD 0 else root) (L₁ ++ L₂) := by
  have hsub : (L₁ ++ L₂).Sublist (L₁ ++ P :: L₂) :=
    List.Sublist.append_left (List.sublist_cons_self P L₂) L₁
  have hnd := hg.nodup
  have hnd' := hnd.sublist (hsub.map Pool.addr)
  rw [List.map_append, List.map_cons] at hnd
  rw [List.map_append] at hnd'
  have haddr : ∀ a ∈ L₁.map Pool.addr ++ L₂.map Pool.addr, a ∈ headers (L₁ ++ P :: L₂) := by
    intro a ha
    rw [← List.map_append] at ha
    obtain ⟨Q, hQ, rfl⟩ := List.mem_map.mp ha
    exact Pool.mem_headers (hsub.subset hQ)
  refine ⟨?_, ?_, fun Q hQ => ?_⟩
  · have hroot := h.root
    cases L₁ with
    | nil =>
        exact if_pos hroot
    | cons Q L₁ =>
        rw [if_neg, hroot]
        · rfl
        · rw [hroot]
          exact (List.nodup_append.mp hnd).2.2 _ List.mem_cons_self _ List.mem_cons_self
  · have hchain := h.chain
    rw [List.map_append, List.map_cons] at hchain
    rw [List.map_append]
    exact hchain.erase hnd' (fun a ha => hb.next a (haddr a ha)) fun a ha => hb.prev a (haddr a ha)
  · have hQ' := hsub.subset hQ
    have hchunk : ∀ d ∈ Q.chunks, ∀ j < 6, w' d.addr j = w d.addr j := by
      intro d hd j _
      have hdD := Chunk.mem_headers hQ' hd
      have hout : d.addr ∉ L₁.map Pool.addr ++ L₂.map Pool.addr := by
        intro hmem
        rw [← List.map_append] at hmem
        obtain ⟨R, hR, heq⟩ := List.mem_map.mp hmem
        exact hg.chunk_ne_pool hQ' hd (hsub.subset hR) heq.symm
      by_cases hj : 2 ≤ j
      · exact hb.rest _ hdD j hj
      · obtain rfl | rfl : j = 0 ∨ j = 1 := by omega
        · rw [hb.prev _ hdD, if_neg]
          exact fun hhead => hout (List.mem_append_right _ (List.mem_of_head? hhead))
        · rw [hb.next _ hdD, if_neg]
          exact fun hlast => hout (List.mem_append_left _ (List.mem_of_getLast? hlast))
    exact (h.pool Q hQ').relinked (fun j hlo _ => hb.rest _ (Pool.mem_headers hQ') j hlo) hchunk

/-- The pages of the block `Q` have been given back, and the pieces keep their bytes. -/
structure Shrunk (H : LiballocHooks σ) (L : List Pool) (Q : Pool) (s s' : σ) : Prop where
  bodies : KeepsBodies H L s s'
  outside : ∀ b, ¬InPools L b → b ∉ piece Q.addr (Q.pages * lPageSize) → H.load s' b = H.load s b
  gone : ∀ b ∈ piece Q.addr (Q.pages * lPageSize), H.load s' b = none

theorem chunksOf_remove (hP : P.chunks = []) : chunksOf (L₁ ++ P :: L₂) = chunksOf (L₁ ++ L₂) := by
  simp [chunksOf, hP]

/-- The kernel gives back a block without pieces. -/
theorem releaseMajor_ok (hH : H.Lawful .kernel Ok top) (hI : HeapInv H Ok st (L₁ ++ P :: L₂))
    (hP : P.chunks = []) :
    ∃ st', st.releaseMajor H P.addr = .ok st' ∧ HeapInv H Ok st' (L₁ ++ L₂) ∧
      Shrunk H (L₁ ++ L₂) P st.sys st'.sys := by
  obtain ⟨w, hholds, hrep⟩ := hI.rep
  have hPL : P ∈ L₁ ++ P :: L₂ := List.mem_append_right _ List.mem_cons_self
  have hPD := Pool.mem_headers hPL
  have hbounds := hI.geometry.bounds hPL
  have hsub : (L₁ ++ L₂).Sublist (L₁ ++ P :: L₂) :=
    List.Sublist.append_left (List.sublist_cons_self P L₂) L₁
  have hnd := hI.geometry.nodup
  rw [List.map_append, List.map_cons] at hnd
  have hne : ∀ Q ∈ L₁ ++ L₂, Q.addr ≠ P.addr := by
    intro Q hQ
    cases List.mem_append.mp hQ with
    | inl hQ₁ => exact (List.nodup_append.mp hnd).2.2 _ (List.mem_map_of_mem hQ₁) _ List.mem_cons_self
    | inr hQ₂ =>
        intro heq
        apply (List.nodup_cons.mp (List.nodup_append.mp hnd).2.1).1
        rw [← heq]
        exact List.mem_map_of_mem hQ₂
  have hapart : ∀ Q ∈ L₁ ++ L₂, Q.fin ≤ P.addr ∨ P.fin ≤ Q.addr := fun Q hQ =>
    hI.geometry.apart (hsub.subset hQ) hPL fun heq => hne Q hQ (congrArg Pool.addr heq)
  have hbypass : Bypasses w (setAll w (bypass ((L₁.map Pool.addr).getLastD 0)
      ((L₂.map Pool.addr).headD 0))) (headers (L₁ ++ P :: L₂)) L₁ L₂ :=
    bypasses_stores fun Q hQ => by
      have hQb := hI.geometry.bounds (hsub.subset hQ)
      omega
  have hrep' := hrep.removed hI.geometry hbypass
  obtain ⟨hnext, hprev⟩ := hI.major_links
  have haddr : ∀ x ∈ L₁.map Pool.addr ++ L₂.map Pool.addr,
      x < 0x100000000 ∧ x ∈ headers (L₁ ++ P :: L₂) := by
    intro x hx
    rw [← List.map_append] at hx
    obtain ⟨Q, hQ, rfl⟩ := List.mem_map.mp hx
    have hQb := hI.geometry.bounds (hsub.subset hQ)
    exact ⟨by omega, Pool.mem_headers (hsub.subset hQ)⟩
  have hp' := (getLastD_zero (L₁.map Pool.addr)).imp_right fun hx => haddr _ (List.mem_append_left _ hx)
  have hq' := (headD_zero (L₂.map Pool.addr)).imp_right fun hx => haddr _ (List.mem_append_right _ hx)
  generalize (L₁.map Pool.addr).getLastD 0 = p at *
  generalize (L₂.map Pool.addr).headD 0 = q at *
  obtain ⟨s₁, hstore, hholds₁, hframe⟩ := Liballoc.storeAll_ok hH.bytes (bypass p q)
    { st with
      memRoot := if st.memRoot = P.addr then q else st.memRoot
      bestBet := if st.bestBet = P.addr then 0 else st.bestBet } hholds fun x hx => by
      unfold bypass at hx
      grind
  have hkept := hI.kept_of_frame hframe
  have hread : ∀ j, 2 ≤ j → j < 6 → Liballoc.word H { st with
      sys := s₁
      memRoot := if st.memRoot = P.addr then q else st.memRoot
      bestBet := if st.bestBet = P.addr then 0 else st.bestBet } P.addr j = .ok (w P.addr j) :=
    fun j hlo hj => (Liballoc.word_ok hholds₁ hPD hj).trans (congrArg _ (hbypass.rest _ hPD j hlo))
  have hthere : H.Mapped s₁ P.addr (P.pages * lPageSize) :=
    fun i hi hnone => hI.mapped P hPL i hi ((hkept.mapped _).mp hnone)
  obtain ⟨hok, hgone, hsame⟩ :=
    hH.freed rfl s₁ P.addr P.pages hholds₁.ok (hI.geometry.pages P hPL).2 hthere
  have hinside : ∀ Q ∈ L₁ ++ L₂, ∀ b, Q.addr ≤ b → b < Q.fin →
      H.load (H.liballocFree s₁ P.addr P.pages).2 b = H.load s₁ b := by
    intro Q hQ b hlo hhi
    apply hsame
    rw [mem_piece]
    have hPQ := hapart Q hQ
    unfold Pool.fin at hPQ hhi
    omega
  have hshrunk : Shrunk H (L₁ ++ L₂) P st.sys (H.liballocFree s₁ P.addr P.pages).2 := by
    refine ⟨fun c hc b hlo hhi => ?_, fun b hb hout => ?_, hgone⟩
    · obtain ⟨Q, hQ, hcQ⟩ := List.mem_flatMap.mp hc
      have hcb := hI.geometry.chunk (hsub.subset hQ) hcQ
      rw [hinside Q hQ b (by unfold sizeofMinor at hlo; omega) (by omega)]
      rw [← chunksOf_remove hP] at hc
      exact hkept.bodies c hc b hlo hhi
    · rw [hsame b hout]
      apply hkept.outside b
      rw [inPools_split]
      exact fun h => h.elim hb hout
  refine ⟨{ st with
    sys := (H.liballocFree s₁ P.addr P.pages).2
    memRoot := if st.memRoot = P.addr then q else st.memRoot
    bestBet := if st.bestBet = P.addr then 0 else st.bestBet
    allocated := st.allocated - P.pages * lPageSize }, ?_, ?_, hshrunk⟩
  · have hprep := hrep.pool P hPL
    unfold Liballoc.releaseMajor
    rw [hnext, ok_bind, hprev, ok_bind]
    simp only
    rw [bypass_eq, hstore, ok_bind]
    unfold Liballoc.major
    simp only [MajorField.index]
    rw [hread 3 (by decide) (by decide), ok_bind, hread 2 (by decide) (by decide), ok_bind, hprep.size,
      hprep.pages]
  · refine ⟨hI.geometry.remove, ⟨_, ?_, hrep'⟩, fun Q hQ i hi => ?_, fun c hc => ?_, ?_, ?_, ?_⟩
    · have hholds₂ : HeapHolds H Ok (headers (L₁ ++ L₂)) (setAll w (bypass p q)) s₁ :=
        ⟨hholds₁.ok, hholds₁.table.mono fun a ha => mem_headers_remove ha⟩
      apply hholds₂.same hok
      intro a ha i hi
      obtain ⟨Q, hQ, hlo, hhi⟩ := hI.geometry.remove.header ha
      exact hinside Q hQ _ (by omega) (by omega)
    · show H.load _ _ ≠ none
      rw [hinside Q hQ _ (Nat.le_add_right _ _) (Nat.add_lt_add_left hi _)]
      exact fun hnone => hI.mapped Q (hsub.subset hQ) i hi ((hkept.mapped _).mp hnone)
    · obtain ⟨hlo, hhi⟩ := hI.geometry.remove.align_inside hc
      show H.load _ _ = _
      rw [hshrunk.bodies c hc _ hlo hhi]
      rw [← chunksOf_remove hP] at hc
      exact hI.aligns c hc
    · show (if st.bestBet = P.addr then 0 else st.bestBet) = 0 ∨ _
      by_cases hbest : st.bestBet = P.addr
      · exact .inl (if_pos hbest)
      · rw [if_neg hbest]
        refine hI.best.imp_right fun hmem => ?_
        rw [List.map_append, List.map_cons, List.mem_append, List.mem_cons] at hmem
        rw [List.map_append, List.mem_append]
        exact hmem.imp_right fun h => h.resolve_left hbest
    · show st.allocated - P.pages * lPageSize = _
      rw [hI.allocated, poolBytes_append, poolBytes_append, poolBytes]
      omega
    · show st.inuse = _
      rw [hI.inuse, chunksOf_remove hP]

/-! ### `free` -/

/-- The best bet is a block of the heap. -/
theorem betOn_ok (hI : HeapInv H Ok st (L₁ ++ P :: L₂)) :
    ∃ st', st.betOn H P.addr = .ok st' ∧ st'.sys = st.sys ∧ HeapInv H Ok st' (L₁ ++ P :: L₂) := by
  have hP : P ∈ L₁ ++ P :: L₂ := List.mem_append_right _ List.mem_cons_self
  unfold Liballoc.betOn
  by_cases hbet : st.bestBet = 0
  · rw [if_pos hbet]
    exact ⟨st, rfl, rfl, hI⟩
  · obtain ⟨Q, hQ, hQbet⟩ := List.mem_map.mp (hI.best.resolve_left hbet)
    obtain ⟨L₃, L₄, hsplit⟩ := List.append_of_mem hQ
    have hI' := hI
    rw [hsplit] at hI'
    rw [if_neg hbet, ← hQbet, hI'.major_size, ok_bind, hI'.major_usage, ok_bind, hI.major_size, ok_bind,
      hI.major_usage, ok_bind]
    split_ifs
    · exact ⟨_, rfl, rfl, hI.bet (.inr (List.mem_map_of_mem hP))⟩
    · exact ⟨st, rfl, rfl, hI⟩

/-- The heap without the piece `c`; the kernel does not keep a block without pieces. -/
def TakenOut (v : LiballocVersion) (L : List Pool) (c : Chunk) (L' : List Pool) : Prop :=
  ∃ L₁ P L₂ m₁ m₂, L = L₁ ++ P :: L₂ ∧ P.chunks = m₁ ++ c :: m₂ ∧
    (v = .kernel ∧ m₁ ++ m₂ = [] ∧ L' = L₁ ++ L₂ ∨
      ¬(v = .kernel ∧ m₁ ++ m₂ = []) ∧ L' = L₁ ++ P.holding (m₁ ++ m₂) :: L₂)

/-- Besides the blocks, the memory holds the bytes `B`. -/
structure Account (H : LiballocHooks σ) (B : ℕ → Option UInt8) (L : List Pool) (s : σ) : Prop where
  outside : ∀ b, ¬InPools L b → H.load s b = B b
  apart : ∀ b, InPools L b → B b = none

/-- The distance to the structure is read back. -/
theorem HeapInv.unalign_ok (hI : HeapInv H Ok st L) (hc : c ∈ chunksOf L) :
    st.unalign H c.ptr = .ok (c.addr + sizeofMinor) := by
  obtain ⟨P, hP, hcP⟩ := List.mem_flatMap.mp hc
  have hcb := hI.geometry.chunk hP hcP
  have hbounds := hI.geometry.bounds hP
  have hspec := c.ptr_spec
  have halign := hI.aligns c hc
  unfold Chunk.fin sizeofMinor at hcb
  have hat : sub32 c.ptr alignInfo = c.ptr - alignInfo :=
    sub32_of_le (by unfold alignInfo; omega) (by omega)
  have hdiff : c.ptr - (c.addr + sizeofMinor) < 0x100 := by
    unfold sizeofMinor
    omega
  have hnat : (UInt8.ofNat (c.ptr - (c.addr + sizeofMinor))).toNat = c.ptr - (c.addr + sizeofMinor) := by
    rw [UInt8.toNat_ofNat']
    exact Nat.mod_eq_of_lt hdiff
  have hsmall : c.ptr - (c.addr + sizeofMinor) < alignment + alignInfo := by
    unfold alignment alignInfo sizeofMinor
    omega
  have hback : sub32 c.ptr (c.ptr - (c.addr + sizeofMinor)) = c.addr + sizeofMinor := by
    unfold sizeofMinor
    rw [sub32_of_le (by omega) (by omega)]
    omega
  unfold Liballoc.unalign Liballoc.byte
  rw [hat, halign]
  simp only [ok_bind, hnat, hback]
  rw [if_pos hsmall]

variable {B : ℕ → Option UInt8}

theorem Account.kept {L' : List Pool} (hB : Account H B L s) (hs : Kept H L s s')
    (hpools : ∀ b, InPools L' b ↔ InPools L b) : Account H B L' s' := by
  refine ⟨fun b hb => ?_, fun b hb => hB.apart b ((hpools b).mp hb)⟩
  rw [hpools] at hb
  exact (hs.outside b hb).trans (hB.outside b hb)

theorem Account.grown {Q : Pool} (hB : Account H B L s) (hs : PoolGrown H L Q s s') :
    Account H B (L ++ [Q]) s' := by
  refine ⟨fun b hb => ?_, fun b hb => ?_⟩
  · rw [inPools_split, List.append_nil, not_or] at hb
    exact (hs.outside b hb.1 hb.2).trans (hB.outside b hb.1)
  · rw [inPools_split, List.append_nil] at hb
    by_cases hold : InPools L b
    · exact hB.apart b hold
    · rw [← hB.outside b hold]
      exact hs.fresh b (hb.resolve_left hold)

/-- Giving a block back leaves the other blocks and the rest of the memory. -/
theorem Account.shrunk (hB : Account H B (L₁ ++ P :: L₂) s) (hs : Shrunk H (L₁ ++ L₂) P s s') :
    Account H B (L₁ ++ L₂) s' := by
  refine ⟨fun b hb => ?_, fun b hb => hB.apart b (inPools_split.mpr (.inl hb))⟩
  by_cases hP : b ∈ piece P.addr (P.pages * lPageSize)
  · rw [hs.gone b hP, hB.apart b (inPools_split.mpr (.inr hP))]
  · rw [hs.outside b hb hP]
    apply hB.outside b
    rw [inPools_split]
    exact fun h => h.elim hb hP

/-- `free` of a piece. -/
theorem free_ok (hH : H.Lawful v Ok top) (hI : HeapInv H Ok st L) (hc : c ∈ chunksOf L) :
    ∃ st' L', free H v st c.ptr = .ok st' ∧ HeapInv H Ok st' L' ∧ TakenOut v L c L' ∧
      KeepsBodies H L' st.sys st'.sys ∧
      ∀ B, Account H B L st.sys → Account H B L' st'.sys := by
  obtain ⟨P, hP, hcP⟩ := List.mem_flatMap.mp hc
  obtain ⟨L₁, L₂, rfl⟩ := List.append_of_mem hP
  obtain ⟨m₁, m₂, hm⟩ := List.append_of_mem hcP
  have hspec := c.ptr_spec
  have hcb := hI.geometry.chunk hP hcP
  have hbounds := hI.geometry.bounds hP
  obtain ⟨st₁, -, hI₁, hkept, hrun⟩ := freeMinor_eq hI hm hH.bytes v
  have hptr : c.ptr ≠ 0 := by omega
  have hmin : sub32 (c.addr + sizeofMinor) sizeofMinor = c.addr := by
    unfold Chunk.fin at hcb
    rw [sub32_of_le (Nat.le_add_left _ _) (by omega), Nat.add_sub_cancel]
  have hfree : free H v st c.ptr = st.freeMinor H v c.addr := by
    unfold free
    rw [if_neg hptr, hI.unalign_ok hc, ok_bind]
    simp only [hmin]
    rw [(hI.minor_fields hm).2.2.2.1, ok_bind, if_neg (fun h => h rfl)]
  have hpools : ∀ b, InPools (L₁ ++ P.holding (m₁ ++ m₂) :: L₂) b ↔ InPools (L₁ ++ P :: L₂) b := by
    intro b
    rw [inPools_split, inPools_split]
    rfl
  have hsub : KeepsBodies H (L₁ ++ P.holding (m₁ ++ m₂) :: L₂) st.sys st₁.sys :=
    fun d hd => hkept.bodies d (mem_chunksOf_erase hm hd)
  have haccount : ∀ B, Account H B (L₁ ++ P :: L₂) st.sys →
      Account H B (L₁ ++ P.holding (m₁ ++ m₂) :: L₂) st₁.sys := fun B hB => hB.kept hkept hpools
  rw [hfree, hrun]
  by_cases hempty : m₁ ++ m₂ = []
  · have hfirst : ((m₁ ++ m₂).map Chunk.addr).headD 0 = 0 := by rw [hempty]; rfl
    rw [if_pos hfirst]
    cases v with
    | user =>
        exact ⟨st₁, _, rfl, hI₁, ⟨L₁, P, L₂, m₁, m₂, rfl, hm, .inr ⟨by simp, rfl⟩⟩, hsub, haccount⟩
    | kernel =>
        obtain ⟨st', hrelease, hI', hshrunk⟩ := releaseMajor_ok hH hI₁ hempty
        refine ⟨st', L₁ ++ L₂, hrelease, hI', ⟨L₁, P, L₂, m₁, m₂, rfl, hm, .inl ⟨rfl, hempty, rfl⟩⟩,
          ?_, fun B hB => ?_⟩
        · apply KeepsBodies.trans _ hshrunk.bodies
          intro d hd
          apply hsub
          rwa [chunksOf_remove hempty]
        · exact (haccount B hB).shrunk hshrunk
  · have hfirst : ((m₁ ++ m₂).map Chunk.addr).headD 0 ≠ 0 := by
      cases hrest : m₁ ++ m₂ with
      | nil => exact absurd hrest hempty
      | cons d m =>
          have hd : d ∈ (P.holding (m₁ ++ m₂)).chunks := show d ∈ m₁ ++ m₂ from hrest ▸ List.mem_cons_self
          have hdb := hI₁.geometry.chunk (List.mem_append_right L₁ List.mem_cons_self) hd
          have hlow : P.addr + 24 ≤ d.addr := hdb.1
          show d.addr ≠ 0
          omega
    rw [if_neg hfirst]
    obtain ⟨st', hbet, hsys, hI'⟩ := betOn_ok hI₁
    rw [← hsys] at hsub haccount
    exact ⟨st', _, hbet, hI', ⟨L₁, P, L₂, m₁, m₂, rfl, hm, .inr ⟨fun h => hempty h.2, rfl⟩⟩, hsub,
      haccount⟩

end GalaxyOS
