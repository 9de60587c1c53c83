import GalaxyOS.Lib.BlockStore
import GalaxyOS.Mem.LiballocCopy

/-! # The callers of the allocator

Whatever sequence of calls the users of the allocator make, with pointers that they have been given and
sizes that leave room for the structures, what they have written into their pieces stays there until
they change it or free the piece, and nobody else's memory is touched.  A call fails only if the system
has no pages.

`malloc_gains`, `calloc_gains`, `realloc_shrinks` and `realloc_moves` say so of the single calls, in terms
of the pieces that a call adds (`Gains`), takes away (`Loses`) or replaces (`Swaps`). -/

namespace GalaxyOS

open Transition Records Linked BlockStore

variable {σ : Type} {H : LiballocHooks σ} {Ok : σ → Prop} {v : LiballocVersion} {top : ℕ} {st : Liballoc σ}
  {s s' : σ} {req a n p : ℕ} {L L' : List Pool} {c d : Chunk} {B : ℕ → Option UInt8}

/-! ### One call -/

/-- The system has no `n` pages to give. -/
def LiballocHooks.Refuses (H : LiballocHooks σ) (s : σ) (n : ℕ) : Prop :=
  (∃ e, H.liballocAlloc s n = .error e) ∨ ∃ s', H.liballocAlloc s n = .ok (0, s')

/-- No block is without pieces. -/
def Tight (L : List Pool) : Prop := ∀ P ∈ L, P.chunks ≠ []

/-- The heap `L` has become `L'`, which has the piece `c` besides those of `L`. -/
structure Gains (H : LiballocHooks σ) (Ok : σ → Prop) (s : σ) (L : List Pool) (c : Chunk)
    (st' : Liballoc σ) (L' : List Pool) : Prop where
  inv : HeapInv H Ok st' L'
  chunks : (chunksOf L').Perm (c :: chunksOf L)
  bodies : KeepsBodies H L s st'.sys
  account : ∀ B, Account H B L s → Account H B L' st'.sys
  tight : Tight L → Tight L'

/-- The heap `L` has become `L'`, which no longer has the piece `c`. -/
structure Loses (H : LiballocHooks σ) (Ok : σ → Prop) (v : LiballocVersion) (s : σ) (L : List Pool)
    (c : Chunk) (st' : Liballoc σ) (L' : List Pool) : Prop where
  inv : HeapInv H Ok st' L'
  chunks : (chunksOf L).Perm (c :: chunksOf L')
  bodies : KeepsBodies H L' s st'.sys
  account : ∀ B, Account H B L s → Account H B L' st'.sys
  tight : v = .kernel → Tight L → Tight L'

theorem PutIn.chunks (h : PutIn L c L') : (chunksOf L').Perm (c :: chunksOf L) := by
  obtain ⟨L₁, P, L₂, m₁, m₂, rfl, hm, rfl⟩ := h
  rw [chunksOf_split, chunksOf_split, hm]
  have hmid : (chunksOf L₁ ++ (m₁ ++ c :: m₂)).Perm (c :: (chunksOf L₁ ++ (m₁ ++ m₂))) := by
    rw [← List.append_assoc, ← List.append_assoc]
    exact List.perm_middle
  exact hmid.append_right (chunksOf L₂)

theorem PutIn.pools (h : PutIn L c L') (b : ℕ) : InPools L' b ↔ InPools L b := by
  obtain ⟨L₁, P, L₂, m₁, m₂, rfl, hm, rfl⟩ := h
  rw [inPools_split, inPools_split]
  rfl

theorem PutIn.tight (h : PutIn L c L') (hL : Tight L) : Tight L' := by
  obtain ⟨L₁, P, L₂, m₁, m₂, rfl, hm, rfl⟩ := h
  intro Q hQ
  rcases Pool.mem_holding hQ with rfl | hold
  · exact List.append_ne_nil_of_right_ne_nil m₁ (List.cons_ne_nil c m₂)
  · exact hL Q hold

theorem TakenOut.chunks (h : TakenOut v L c L') : (chunksOf L).Perm (c :: chunksOf L') := by
  obtain ⟨L₁, P, L₂, m₁, m₂, rfl, hm, ⟨-, hempty, rfl⟩ | ⟨-, rfl⟩⟩ := h
  · obtain ⟨rfl, rfl⟩ := List.append_eq_nil_iff.mp hempty
    rw [chunksOf_split, hm]
    simp only [chunksOf, List.flatMap_append, List.nil_append, List.append_assoc, List.singleton_append]
    exact List.perm_middle
  · exact PutIn.chunks ⟨L₁, P.holding (m₁ ++ m₂), L₂, m₁, m₂, rfl, rfl, by simp [Pool.holding, ← hm]⟩

theorem TakenOut.tight (h : TakenOut v L c L') (hv : v = .kernel) (hL : Tight L) : Tight L' := by
  obtain ⟨L₁, P, L₂, m₁, m₂, rfl, hm, ⟨-, -, rfl⟩ | ⟨hne, rfl⟩⟩ := h
  · intro Q hQ
    apply hL
    cases List.mem_append.mp hQ with
    | inl hQ₁ => exact List.mem_append_left _ hQ₁
    | inr hQ₂ => exact List.mem_append_right _ (List.mem_cons_of_mem P hQ₂)
  · intro Q hQ
    rcases Pool.mem_holding hQ with rfl | hold
    · exact fun hempty => hne ⟨hv, hempty⟩
    · exact hL Q hold

/-- `malloc` adds a piece, or the system has no pages for one. -/
theorem malloc_gains (hH : H.Lawful v Ok top) (hI : HeapInv H Ok st L) (hlt : req + 80 ≤ top * lPageSize) :
    (∃ c st' L', malloc H v st req = .ok (c.ptr, st') ∧ c.req = req ∧ Gains H Ok st.sys L c st' L') ∨
    H.Refuses st.sys (pagesFor (req + (alignment + alignInfo))) ∧
      ((∃ st', malloc H v st req = .ok (0, st') ∧ HeapInv H Ok st' L ∧ Kept H L st.sys st'.sys) ∨
        ∃ e, malloc H v st req = .error e) := by
  rcases malloc_ok hH hI hlt with ⟨c, st', L', hrun, hgiven⟩ | ⟨-, ⟨e, halloc, hrun⟩ |
    ⟨s', halloc, ⟨-, hrun⟩ | ⟨-, st', hrun, hI', hkept⟩⟩ |
    ⟨a, s', c, st', ha, halloc, hrun, hsize, hreq, hI', hgrown⟩⟩
  · exact .inl ⟨c, st', L', hrun, hgiven.asked, hgiven.inv, hgiven.put.chunks, hgiven.kept.bodies,
      fun B hB => hB.kept hgiven.kept hgiven.put.pools, hgiven.put.tight⟩
  · exact .inr ⟨.inl ⟨e, halloc⟩, .inr ⟨e, hrun⟩⟩
  · exact .inr ⟨.inr ⟨s', halloc⟩, .inr ⟨_, hrun⟩⟩
  · exact .inr ⟨.inr ⟨s', halloc⟩, .inl ⟨st', hrun, hI', hkept⟩⟩
  · refine .inl ⟨c, st', _, hrun, hreq, hI', ?_, hgrown.bodies, fun B hB => hB.grown hgrown, fun hL => ?_⟩
    · simp only [chunksOf, List.flatMap_append, List.flatMap_cons, List.flatMap_nil, List.append_nil]
      exact List.perm_append_singleton _ _
    · intro Q hQ
      cases List.mem_append.mp hQ with
      | inl hold => exact hL Q hold
      | inr hnew =>
          rw [List.mem_singleton.mp hnew]
          exact List.cons_ne_nil c []

theorem free_loses (hH : H.Lawful v Ok top) (hI : HeapInv H Ok st L) (hc : c ∈ chunksOf L) :
    ∃ st' L', free H v st c.ptr = .ok st' ∧ Loses H Ok v st.sys L c st' L' := by
  obtain ⟨st', L', hrun, hI', htaken, hbodies, haccount⟩ := free_ok hH hI hc
  exact ⟨st', L', hrun, hI', htaken.chunks, hbodies, haccount, htaken.tight⟩

/-! ### `calloc` and `realloc` -/

theorem HeapInv.ok (hI : HeapInv H Ok st L) : Ok st.sys := by
  obtain ⟨w, hholds, -⟩ := hI.rep
  exact hholds.ok

/-- No piece is there twice. -/
theorem Geometry.chunks_nodup (h : Geometry L) : (chunksOf L).Nodup := by
  apply List.nodup_flatMap.mpr
  refine ⟨fun P hP => (h.fits P hP).nodup.of_map, ?_⟩
  apply (List.pairwise_map.mp h.nodup).imp_of_mem
  intro P Q hP hQ hne c hcP hcQ
  exact h.chunk_ne_chunk hP hcP hQ hcQ (fun heq => hne (congrArg Pool.addr heq)) rfl

/-- The pieces are told apart by their pointers. -/
theorem Geometry.ptr_inj (h : Geometry L) (hc : c ∈ chunksOf L) (hd : d ∈ chunksOf L)
    (heq : c.ptr = d.ptr) : c = d := by
  by_contra hne
  have hapart := h.bodies_apart hc hd hne
  obtain ⟨hclo, hchi⟩ := h.align_inside hc
  obtain ⟨hdlo, hdhi⟩ := h.align_inside hd
  rw [heq] at hclo hchi
  omega

theorem Geometry.ptrs_nodup (h : Geometry L) : ((chunksOf L).map Chunk.ptr).Nodup :=
  h.chunks_nodup.map_on fun _ hc _ hd heq => h.ptr_inj hc hd heq

/-- The new piece is filled. -/
theorem Gains.fill {st' : Liballoc σ} {sys : σ} (hg : Gains H Ok s L c st' L')
    (hI : HeapInv H Ok { st' with sys := sys } L')
    (hout : ∀ x, ¬(c.ptr ≤ x ∧ x < c.ptr + c.req) → H.load sys x = H.load st'.sys x) :
    Gains H Ok s L c { st' with sys := sys } L' := by
  have hc : c ∈ chunksOf L' := hg.chunks.symm.subset List.mem_cons_self
  have hspec := c.ptr_spec
  have hroom : c.req + 32 ≤ c.size := by
    obtain ⟨P, hP, hcP⟩ := List.mem_flatMap.mp hc
    exact (hI.geometry.chunk hP hcP).2.2
  refine ⟨hI, hg.chunks, fun d hd b hlo hhi => ?_, fun B hB => ?_, hg.tight⟩
  · rw [← hg.bodies d hd b hlo hhi]
    apply hout
    rintro ⟨hbc, hbc'⟩
    have hd' : d ∈ chunksOf L' := hg.chunks.symm.subset (List.mem_cons_of_mem c hd)
    have hne : d ≠ c := by
      rintro rfl
      have hnd := hg.chunks.nodup_iff.mp hI.geometry.chunks_nodup
      exact (List.nodup_cons.mp hnd).1 hd
    have hapart := hI.geometry.bodies_apart hd' hc hne
    unfold Chunk.fin sizeofMinor at *
    omega
  · have hB' := hg.account B hB
    refine ⟨fun b hb => ?_, hB'.apart⟩
    refine (hout b fun hin => hb ?_).trans (hB'.outside b hb)
    apply hI.geometry.body_inside hc
    · unfold sizeofMinor
      omega
    · unfold Chunk.fin sizeofMinor
      omega

/-- `calloc` adds a piece of zeroes. -/
theorem calloc_gains {nobj size : ℕ} (hH : H.Lawful v Ok top) (hI : HeapInv H Ok st L)
    (hlt : nobj * size + 80 ≤ top * lPageSize) :
    (∃ c st' L', calloc H v st nobj size = .ok (c.ptr, st') ∧ c.req = nobj * size ∧
      Gains H Ok st.sys L c st' L' ∧ ∀ i < nobj * size, H.load st'.sys (c.ptr + i) = some 0) ∨
    H.Refuses st.sys (pagesFor (nobj * size + (alignment + alignInfo))) ∧
      ((∃ st', calloc H v st nobj size = .ok (0, st') ∧ HeapInv H Ok st' L ∧
        Kept H L st.sys st'.sys) ∨ ∃ e, calloc H v st nobj size = .error e) := by
  have hsize : wrap32 (nobj * size) = nobj * size := by
    have hpages := hH.pages.2
    exact wrap32_of_lt (by omega)
  unfold calloc
  simp only [hsize]
  rcases malloc_gains hH hI hlt with ⟨c, st', L', hrun, hreq, hg⟩ | ⟨hno, ⟨st', hrun, hI', hkept⟩ |
    ⟨e, hrun⟩⟩
  · have hc : c ∈ chunksOf L' := hg.chunks.symm.subset List.mem_cons_self
    obtain ⟨sys, hset, hI', hload⟩ := HeapInv.memset hH.bytes hc 0 hg.inv (Nat.le_refl _)
      (Nat.le_of_eq (congrArg (c.ptr + ·) hreq.symm))
    refine .inl ⟨c, { st' with sys := sys }, L', ?_, hreq, hg.fill hI' fun x hx => ?_, fun i hi => ?_⟩
    · rw [hrun, ok_bind]
      simp only
      rw [hset, ok_bind]
    · rw [hload, if_neg (hreq ▸ hx)]
    · rw [hload, if_pos ⟨Nat.le_add_right _ _, Nat.add_lt_add_left hi _⟩]
  · refine .inr ⟨hno, ?_⟩
    rw [hrun, ok_bind]
    simp only
    cases hn : nobj * size with
    | zero => exact .inl ⟨st', rfl, hI', hkept⟩
    | succ k =>
        refine .inr ⟨.wildAccess, ?_⟩
        unfold liballocMemset Liballoc.storeByte
        rw [hH.null _ hI'.ok]
        rfl
  · exact .inr ⟨hno, .inr ⟨e, by rw [hrun, error_bind]⟩⟩

/-- The piece `d` has taken the place of `c`, and holds what `c` held as far as both go. -/
structure Swaps (H : LiballocHooks σ) (Ok : σ → Prop) (v : LiballocVersion) (s : σ) (L : List Pool)
    (c d : Chunk) (st' : Liballoc σ) (L' : List Pool) : Prop where
  inv : HeapInv H Ok st' L'
  chunks : ∃ rest, (chunksOf L).Perm (c :: rest) ∧ (chunksOf L').Perm (d :: rest) ∧
    ∀ e ∈ rest, ∀ b, e.addr + sizeofMinor ≤ b → b < e.fin → H.load st'.sys b = H.load s b
  copied : ∀ i < c.req, i < d.req → H.load st'.sys (d.ptr + i) = H.load s (c.ptr + i)
  account : ∀ B, Account H B L s → Account H B L' st'.sys
  tight : v = .kernel → Tight L → Tight L'

/-- The part of a piece that the caller may use. -/
theorem Geometry.usable (h : Geometry L) (hc : c ∈ chunksOf L) {i : ℕ} (hi : i < c.req) :
    c.addr + sizeofMinor ≤ c.ptr + i ∧ c.ptr + i < c.fin := by
  obtain ⟨P, hP, hcP⟩ := List.mem_flatMap.mp hc
  have hspec := c.ptr_spec
  have hroom := (h.chunk hP hcP).2.2
  unfold Chunk.fin sizeofMinor
  omega

theorem HeapInv.mapped_usable (hI : HeapInv H Ok st L) (hc : c ∈ chunksOf L) :
    H.Mapped st.sys c.ptr c.req := by
  intro i hi
  obtain ⟨hlo, hhi⟩ := hI.geometry.usable hc hi
  obtain ⟨P, hP, hcP⟩ := List.mem_flatMap.mp hc
  have hcb := hI.geometry.chunk hP hcP
  have hmap := hI.mapped P hP (c.ptr + i - P.addr) (by
    have hend : P.fin = P.addr + P.pages * lPageSize := rfl
    omega)
  rwa [Nat.add_sub_cancel' (by unfold sizeofMinor at hlo; omega)] at hmap

/-- Nothing can be copied to the null pointer. -/
theorem memcpy_null (hnull : H.load st.sys 0 = none) (src : ℕ) (hn : 0 < n) :
    ∃ e, liballocMemcpy H st 0 src n = .error e := by
  have hwords : ∀ k, ∃ e, copyWords H st 0 src (k + 1) = .error e := by
    intro k
    unfold copyWords Liballoc.storeWord Bytes.writeNum
    simp only [Nat.mul_zero, Nat.add_zero, hnull]
    cases st.word H src 0 with
    | error e => exact ⟨e, rfl⟩
    | ok x => exact ⟨_, rfl⟩
  have hbytes : ∀ k, ∃ e, copyBytes H st 0 src (k + 1) = .error e := by
    intro k
    unfold copyBytes Liballoc.storeByte
    simp only [hnull]
    cases st.byte H src with
    | error e => exact ⟨e, rfl⟩
    | ok x => exact ⟨_, rfl⟩
  unfold liballocMemcpy
  cases hw : n / 4 with
  | succ k =>
      obtain ⟨e, he⟩ := hwords k
      exact ⟨e, by rw [he, error_bind]⟩
  | zero =>
      cases hb : n % 4 with
      | zero => omega
      | succ k =>
          obtain ⟨e, he⟩ := hbytes k
          exact ⟨e, by rw [copyWords, ok_bind, Nat.zero_mul, Nat.add_zero, Nat.add_zero, he]⟩

section Realloc

variable (hH : H.Lawful v Ok top) (hI : HeapInv H Ok st L) (hc : c ∈ chunksOf L)

include hI hc

/-- What `realloc` does with a piece. -/
theorem realloc_eq (v : LiballocVersion) (hn : n ≠ 0) : realloc H v st c.ptr n =
    if n ≤ c.req then
      st.setMinor H c.addr .reqSize n >>= fun st => .ok (c.ptr, st)
    else
      malloc H v st n >>= fun r => liballocMemcpy H r.2 r.1 c.ptr c.req >>= fun st =>
        free H v st c.ptr >>= fun st => .ok (r.1, st) := by
  obtain ⟨P, hP, hcP⟩ := List.mem_flatMap.mp hc
  obtain ⟨L₁, L₂, rfl⟩ := List.append_of_mem hP
  obtain ⟨m₁, m₂, hm⟩ := List.append_of_mem hcP
  have hspec := c.ptr_spec
  have hcb := hI.geometry.chunk hP hcP
  have hbounds := hI.geometry.bounds hP
  have hptr : c.ptr ≠ 0 := by omega
  have hmin : sub32 (c.addr + sizeofMinor) sizeofMinor = c.addr := by
    unfold Chunk.fin at hcb
    rw [sub32_of_le (Nat.le_add_left _ _) (by omega), Nat.add_sub_cancel]
  obtain ⟨-, -, -, hmagic, -, hreq⟩ := hI.minor_fields hm
  unfold realloc
  rw [if_neg hn, if_neg hptr, hI.unalign_ok hc, ok_bind]
  simp only [hmin]
  rw [hmagic, ok_bind, if_neg (fun h => h rfl), hreq, ok_bind]

include hH

/-- A piece gets smaller where it is. -/
theorem realloc_shrinks (hn : n ≠ 0) (hle : n ≤ c.req) :
    ∃ st' L', realloc H v st c.ptr n = .ok (c.ptr, st') ∧
      Swaps H Ok v st.sys L c (c.asking n) st' L' := by
  rw [realloc_eq hI hc v hn, if_pos hle]
  obtain ⟨P, hP, hcP⟩ := List.mem_flatMap.mp hc
  obtain ⟨L₁, L₂, rfl⟩ := List.append_of_mem hP
  obtain ⟨m₁, m₂, hm⟩ := List.append_of_mem hcP
  obtain ⟨sys, hrun, hI', hkept⟩ := hI.setReqSize hH.bytes hm hle
  have hsplit : ∀ e : Chunk, (chunksOf (L₁ ++ P.holding (m₁ ++ e :: m₂) :: L₂)).Perm
      (e :: (chunksOf L₁ ++ (m₁ ++ m₂) ++ chunksOf L₂)) := by
    intro e
    have hput : PutIn (L₁ ++ P.holding (m₁ ++ m₂) :: L₂) e (L₁ ++ P.holding (m₁ ++ e :: m₂) :: L₂) :=
      ⟨L₁, P.holding (m₁ ++ m₂), L₂, m₁, m₂, rfl, rfl, rfl⟩
    have hperm := hput.chunks
    rwa [chunksOf_split (P := P.holding (m₁ ++ m₂))] at hperm
  have hold : L₁ ++ P :: L₂ = L₁ ++ P.holding (m₁ ++ c :: m₂) :: L₂ := by
    rw [← hm]
    rfl
  have hperm := hsplit c
  rw [← hold] at hperm
  refine ⟨{ st with sys := sys }, _, by rw [hrun, ok_bind], hI',
    ⟨_, hperm, hsplit _, fun e he => ?_⟩, fun i hi _ => ?_, fun B hB => ?_, fun _ hL => ?_⟩
  · exact hkept.bodies e (hperm.symm.subset (List.mem_cons_of_mem c he))
  · obtain ⟨hlo, hhi⟩ := hI.geometry.usable hc hi
    exact hkept.bodies c hc _ hlo hhi
  · apply hB.kept hkept
    intro b
    rw [inPools_split, inPools_split]
    rfl
  · intro Q hQ
    rcases Pool.mem_holding hQ with rfl | hQL
    · exact List.append_ne_nil_of_right_ne_nil m₁ (List.cons_ne_nil _ m₂)
    · exact hL Q hQL

/-- A piece that is too small is copied into a larger one. -/
theorem realloc_moves (hlt : n + 80 ≤ top * lPageSize) (hmore : c.req < n) :
    (∃ d st' L', realloc H v st c.ptr n = .ok (d.ptr, st') ∧ d.req = n ∧
      Swaps H Ok v st.sys L c d st' L') ∨
    H.Refuses st.sys (pagesFor (n + (alignment + alignInfo))) ∧
      ((c.req = 0 ∧ ∃ st' L', realloc H v st c.ptr n = .ok (0, st') ∧ Loses H Ok v st.sys L c st' L') ∨
        ∃ e, realloc H v st c.ptr n = .error e) := by
  rw [realloc_eq hI hc v (by omega), if_neg (by omega)]
  rcases malloc_gains hH hI hlt with ⟨d, st₁, L₁, hrun, hreq, hg⟩ | ⟨hno, ⟨st₁, hrun, hI₁, hkept⟩ |
    ⟨e, hrun⟩⟩
  · have hd : d ∈ chunksOf L₁ := hg.chunks.symm.subset List.mem_cons_self
    have hc₁ : c ∈ chunksOf L₁ := hg.chunks.symm.subset (List.mem_cons_of_mem d hc)
    have hne : c ≠ d := by
      rintro rfl
      exact (List.nodup_cons.mp (hg.chunks.nodup_iff.mp hg.inv.geometry.chunks_nodup)).1 hc
    have hcreq : ∀ i < c.req, c.addr + sizeofMinor ≤ c.ptr + i ∧ c.ptr + i < c.fin := fun i hi =>
      hg.inv.geometry.usable hc₁ hi
    have hdreq : ∀ i < d.req, d.addr + sizeofMinor ≤ d.ptr + i ∧ d.ptr + i < d.fin := fun i hi =>
      hg.inv.geometry.usable hd hi
    have hapart : c.ptr + c.req ≤ d.ptr ∨ d.ptr + c.req ≤ c.ptr := by
      have hbodies := hg.inv.geometry.bodies_apart hc₁ hd hne
      have hcs := c.ptr_spec
      have hds := d.ptr_spec
      by_cases hzero : c.req = 0
      · omega
      · have hclast := hcreq (c.req - 1) (by omega)
        have hdlast := hdreq (c.req - 1) (by omega)
        omega
    obtain ⟨sys₂, hcopy, hI₂, hload₂⟩ := HeapInv.memcpy hH.bytes hd hg.inv
      (hg.inv.mapped_usable hc₁) (Nat.le_refl _) (by omega) hapart
    have hg₂ := hg.fill hI₂ fun x hx => by
      rw [hload₂, if_neg]
      omega
    obtain ⟨st₃, L₃, hfree, hl⟩ := free_loses hH hI₂ hc₁
    obtain ⟨rest, hrest⟩ : ∃ rest, (chunksOf L).Perm (c :: rest) := ⟨_, List.perm_cons_erase hc⟩
    have hL₃ : (chunksOf L₃).Perm (d :: rest) := by
      have hall := (hl.chunks.symm.trans hg.chunks).trans ((hrest.cons d).trans (List.Perm.swap c d rest))
      exact hall.cons_inv
    refine .inl ⟨d, st₃, L₃, ?_, hreq, hl.inv, ⟨rest, hrest, hL₃, fun e he b hlo hhi => ?_⟩,
      fun i hi hid => ?_, fun B hB => hl.account B (hg₂.account B hB), fun hv hL => hl.tight hv (hg₂.tight hL)⟩
    · rw [hrun, ok_bind]
      simp only
      rw [hcopy, ok_bind, hfree, ok_bind]
    · rw [hl.bodies e (hL₃.symm.subset (List.mem_cons_of_mem d he)) b hlo hhi]
      exact hg₂.bodies e (hrest.symm.subset (List.mem_cons_of_mem c he)) b hlo hhi
    · rw [hl.bodies d (hL₃.symm.subset List.mem_cons_self) _ (hdreq i hid).1 (hdreq i hid).2]
      show H.load sys₂ _ = _
      rw [hload₂, if_pos (by omega), Nat.add_sub_cancel_left]
      exact hg.bodies c hc _ (hcreq i hi).1 (hcreq i hi).2
  · refine .inr ⟨hno, ?_⟩
    rw [hrun, ok_bind]
    by_cases hzero : c.req = 0
    · obtain ⟨st', L', hfree, hl⟩ := free_loses hH hI₁ hc
      refine .inl ⟨hzero, st', L', ?_, hl.inv, hl.chunks, fun e he => ?_, fun B hB => ?_, hl.tight⟩
      · rw [hzero]
        show (free H v st₁ c.ptr >>= fun st => .ok (0, st)) = _
        rw [hfree, ok_bind]
      · have heL : e ∈ chunksOf L := hl.chunks.symm.subset (List.mem_cons_of_mem c he)
        exact fun b hlo hhi => (hl.bodies e he b hlo hhi).trans (hkept.bodies e heL b hlo hhi)
      · exact hl.account B (hB.kept hkept fun _ => Iff.rfl)
    · obtain ⟨e, he⟩ := memcpy_null (hH.null _ hI₁.ok) c.ptr (Nat.pos_of_ne_zero hzero)
      exact .inr ⟨e, by simp only [he, error_bind]⟩
  · exact .inr ⟨hno, .inr ⟨e, by rw [hrun, error_bind]⟩⟩

end Realloc

end GalaxyOS
