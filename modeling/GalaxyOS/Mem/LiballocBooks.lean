import Mathlib.Data.Set.Card
import GalaxyOS.Mem.LiballocRuns

/-! # The books of the allocator

`l_allocated` and `l_inuse` are counted along by the allocator.  They are right after every run, and with
them goes that the kernel gives back what nobody uses.  The system is asked for pages only when no place
between the pieces is large enough.

The former is `Client.Inv.balanced`, the latter `HeapInv.malloc_iff` and `HeapInv.malloc_error_iff`, for
the two copies of the allocator.  `PutIn.gap` and `Fits.gap` turn a place that has been found into a gap
between the pieces. -/

namespace GalaxyOS

open Transition Records Linked BlockStore

/-- The counters of the allocator agree with what it has, and with what its users have. -/
structure Client.Balanced {σ : Type} (H : LiballocHooks σ) (v : LiballocVersion) (h : Client σ) : Prop where
  allocated : h.heap.allocated = Set.ncard {b | h.Owns H b}
  inuse : Layout.total (pieces h.blocks) + 32 * h.blocks.length ≤ h.heap.inuse
  overhead : h.heap.inuse + 24 * h.blocks.length ≤ h.heap.allocated
  /-- Nothing is kept when the users have freed everything. -/
  empty : v = .kernel → h.blocks = [] →
    h.heap.memRoot = 0 ∧ h.heap.allocated = 0 ∧ h.heap.inuse = 0 ∧ H.load h.heap.sys = h.others

variable {σ : Type} {H : LiballocHooks σ} {v : LiballocVersion} {Ok : σ → Prop} {top : ℕ}
  {h h' : Client σ} {st : Liballoc σ} {L : List Pool} {S : Store} {l m₁ m₂ : List Chunk} {lo hi n : ℕ}

/-! ### Totals -/

/-- A block has as many bytes as its pieces and the structures need, at least. -/
theorem used_eq : ∀ l : List Chunk, used l = chunkBytes l + 24 * l.length
  | [] => rfl
  | c :: l => by
      have hrest := used_eq l
      unfold used chunkBytes sizeofMinor
      rw [List.length_cons, hrest]
      omega

theorem Geometry.chunkBytes_le : ∀ {L : List Pool}, Geometry L →
    chunkBytes (chunksOf L) + 24 * (chunksOf L).length ≤ poolBytes L := by
  intro L h
  have hpool : ∀ P ∈ L, chunkBytes P.chunks + 24 * P.chunks.length ≤ P.pages * lPageSize := by
    intro P hP
    have hfits := (h.fits P hP).le
    rw [used_eq] at hfits
    unfold Pool.start Pool.fin at hfits
    omega
  clear h
  induction L with
  | nil => exact Nat.le_refl _
  | cons P L ih =>
      have hfirst := hpool P List.mem_cons_self
      have hrest := ih fun Q hQ => hpool Q (List.mem_cons_of_mem P hQ)
      have hsplit : chunksOf (P :: L) = P.chunks ++ chunksOf L := rfl
      rw [hsplit, chunkBytes_append, List.length_append]
      unfold poolBytes
      omega

theorem pool_le_bytes {P : Pool} : ∀ {L : List Pool}, P ∈ L → P.pages * lPageSize ≤ poolBytes L
  | Q :: L, hP => by
      unfold poolBytes
      cases List.mem_cons.mp hP with
      | inl heq => exact heq ▸ Nat.le_add_right _ _
      | inr hrest =>
          have hle := pool_le_bytes hrest
          omega

theorem poolBytes_eq_total : ∀ L : List Pool,
    poolBytes L = Layout.total (L.map fun P => (P.addr, P.pages * lPageSize))
  | [] => rfl
  | P :: L => congrArg (P.pages * lPageSize + ·) (poolBytes_eq_total L)

/-- The bytes of the blocks are counted right. -/
theorem Geometry.ncard_inPools (h : Geometry L) : Set.ncard {b | InPools L b} = poolBytes L := by
  obtain ⟨S, hcard, hS⟩ := Layout.exists_bytes h.blocks.apart
  have hset : {b | InPools L b} = ↑S := by
    ext b
    rw [Set.mem_ofPred_eq, Finset.mem_coe, hS]
    constructor
    · rintro ⟨P, hP, hb⟩
      exact ⟨_, List.mem_map_of_mem hP, hb⟩
    · rintro ⟨q, hq, hb⟩
      obtain ⟨P, hP, rfl⟩ := List.mem_map.mp hq
      exact ⟨P, hP, hb⟩
  rw [hset, Set.ncard_coe_finset, hcard, poolBytes_eq_total]

theorem total_perm {ps qs : List (ℕ × ℕ)} (h : ps.Perm qs) : Layout.total ps = Layout.total qs := by
  induction h with
  | nil => rfl
  | cons p _ ih => exact congrArg (p.2 + ·) ih
  | swap p q _ => exact Nat.add_left_comm _ _ _
  | trans _ _ ih₁ ih₂ => exact ih₁.trans ih₂

/-- Each piece has room for what was asked for and for the distance in front of it. -/
theorem asked_le : ∀ {l : List Chunk}, (∀ c ∈ l, c.req + 32 ≤ c.size) →
    Layout.total (l.map fun c => (c.ptr, c.req)) + 32 * l.length ≤ chunkBytes l
  | [], _ => Nat.le_refl _
  | c :: l, h => by
      have hfirst := h c List.mem_cons_self
      have hrest := asked_le fun d hd => h d (List.mem_cons_of_mem c hd)
      rw [List.map_cons, List.length_cons]
      unfold Layout.total chunkBytes
      omega

theorem Client.Inv.balanced (hI : h.Inv H v Ok) : h.Balanced H v := by
  obtain ⟨L, hinv, hacc, ht, -, htight⟩ := hI
  have hg := hinv.geometry
  have howns : {b | h.Owns H b} = {b | InPools L b} := Set.ext (owns_iff hinv hacc)
  have hlen : (chunksOf L).length = h.blocks.length := by
    have hperm := ht.length_eq
    rwa [List.length_map, pieces, List.length_map] at hperm
  refine ⟨?_, ?_, ?_, fun hv hblocks => ?_⟩
  · rw [howns, hg.ncard_inPools, hinv.allocated]
  · have hasked := asked_le (l := chunksOf L) fun c hc => by
      obtain ⟨P, hP, hcP⟩ := List.mem_flatMap.mp hc
      exact (hg.chunk hP hcP).2.2
    rw [total_perm ht, hlen] at hasked
    rw [hinv.inuse]
    exact hasked
  · have hle := hg.chunkBytes_le
    rw [hlen] at hle
    rw [hinv.inuse, hinv.allocated]
    exact hle
  · have hL : L = [] := by
      rw [hblocks, List.length_nil, List.length_eq_zero_iff] at hlen
      cases hL : L with
      | nil => rfl
      | cons P L' =>
          rw [hL] at hlen htight
          exact absurd (List.append_eq_nil_iff.mp hlen).1 (htight hv P List.mem_cons_self)
    subst hL
    obtain ⟨w, -, hrep⟩ := hinv.rep
    refine ⟨hrep.root, hinv.allocated, hinv.inuse, funext fun b => hacc.outside b ?_⟩
    rintro ⟨P, hP, -⟩
    cases hP

/-! ### Room between the pieces -/

/-- A place between two pieces is one of the gaps. -/
theorem gap_mem : ∀ {m₁ : List Chunk} {lo : ℕ},
    firstStart hi m₂ - lastEnd lo m₁ ∈ gaps lo hi (m₁ ++ m₂)
  | [], lo => by
      cases m₂ with
      | nil => exact List.mem_singleton_self _
      | cons c m₂ => exact List.mem_cons_self
  | c :: m₁, _ => List.mem_cons_of_mem _ gap_mem

/-- Where a piece has been put there was room for it. -/
theorem Fits.gap (h : Fits lo hi (m₁ ++ c :: m₂)) : ∃ g ∈ gaps lo hi (m₁ ++ m₂), c.size + 24 ≤ g := by
  obtain ⟨h₁, h₂⟩ := fits_append.mp h
  refine ⟨_, gap_mem, ?_⟩
  have hlast : lastEnd lo m₁ ≤ c.addr := h₁.lastEnd_le.2
  have hfirst : c.fin ≤ firstStart hi m₂ := by
    cases m₂ with
    | nil => exact h₂
    | cons d m₂ => exact h₂.1
  unfold Chunk.fin sizeofMinor at hfirst
  omega

/-- A piece that has been put in had a gap before. -/
theorem PutIn.gap {L' : List Pool} {c : Chunk} (h : PutIn L c L') (hg : Geometry L') :
    ∃ P ∈ L, ∃ g ∈ gaps P.start P.fin P.chunks, c.size + 24 ≤ g := by
  obtain ⟨L₁, P, L₂, m₁, m₂, rfl, hm, rfl⟩ := h
  refine ⟨P, List.mem_append_right L₁ List.mem_cons_self, ?_⟩
  rw [hm]
  exact (hg.fits (P.holding (m₁ ++ c :: m₂)) (List.mem_append_right L₁ List.mem_cons_self)).gap

/-- `malloc` finds every place that is large enough, and otherwise asks the system for pages. -/
theorem HeapInv.malloc_iff (hH : H.Lawful v Ok top) (hI : HeapInv H Ok st L)
    (hlt : n + 80 ≤ top * lPageSize) :
    (∃ p st', malloc H v st n = .ok (p, st') ∧ p ≠ 0) ↔
      (∃ P ∈ L, ∃ g ∈ gaps P.start P.fin P.chunks, n + 56 ≤ g) ∨
        ¬H.Refuses st.sys (pagesFor (n + (alignment + alignInfo))) := by
  have hptr : ∀ c : Chunk, c.ptr ≠ 0 := fun c => by
    have hspec := c.ptr_spec
    omega
  rcases malloc_ok hH hI hlt with ⟨c, st', L', hrun, hgiven⟩ | ⟨hno, ⟨e, halloc, hrun⟩ |
    ⟨s', halloc, hend⟩ | ⟨a, s', c, st', ha, halloc, hrun, hsize, hreq, hI', hgrown⟩⟩
  · refine iff_of_true ⟨c.ptr, st', hrun, hptr c⟩ (.inl ?_)
    obtain ⟨P, hP, g, hgap, hle⟩ := hgiven.put.gap hgiven.inv.geometry
    rw [hgiven.sized] at hle
    exact ⟨P, hP, g, hgap, hle⟩
  all_goals
    have hnone : ¬∃ P ∈ L, ∃ g ∈ gaps P.start P.fin P.chunks, n + 56 ≤ g := by
      rintro ⟨P, hP, g, hgap, hle⟩
      exact absurd (hno P hP g hgap) (Nat.not_lt.mpr hle)
  · refine iff_of_false ?_ (not_or.mpr ⟨hnone, fun h => h (.inl ⟨e, halloc⟩)⟩)
    rintro ⟨p, st', hrun', -⟩
    rw [hrun] at hrun'
    cases hrun'
  · refine iff_of_false ?_ (not_or.mpr ⟨hnone, fun h => h (.inr ⟨s', halloc⟩)⟩)
    rintro ⟨p, st', hrun', hp⟩
    rcases hend with ⟨-, hrun⟩ | ⟨-, st'', hrun, -⟩
    · rw [hrun] at hrun'
      cases hrun'
    · rw [hrun] at hrun'
      exact hp (congrArg Prod.fst (Except.ok.inj hrun')).symm
  · refine iff_of_true ⟨c.ptr, st', hrun, hptr c⟩ (.inr ?_)
    rintro (⟨e, halloc'⟩ | ⟨s'', halloc'⟩)
    · rw [halloc] at halloc'
      cases halloc'
    · rw [halloc] at halloc'
      exact ha (congrArg Prod.fst (Except.ok.inj halloc'))

/-- The `malloc` of the C library fails only if the system fails when it is asked for pages. -/
theorem HeapInv.malloc_error_iff (hH : H.Lawful .user Ok top) (hI : HeapInv H Ok st L)
    (hlt : n + 80 ≤ top * lPageSize) :
    (∃ e, malloc H .user st n = .error e) ↔
      (∀ P ∈ L, ∀ g ∈ gaps P.start P.fin P.chunks, g < n + 56) ∧
        ∃ e, H.liballocAlloc st.sys (pagesFor (n + (alignment + alignInfo))) = .error e := by
  rcases malloc_ok hH hI hlt with ⟨c, st', L', hrun, hgiven⟩ | ⟨hno, ⟨e, halloc, hrun⟩ |
    ⟨s', halloc, ⟨⟨hv, -⟩, -⟩ | ⟨-, st', hrun, -⟩⟩ | ⟨a, s', c, st', ha, halloc, hrun, -⟩⟩
  · refine iff_of_false ?_ ?_
    · rintro ⟨e, hrun'⟩
      rw [hrun] at hrun'
      cases hrun'
    · rintro ⟨hno, -⟩
      obtain ⟨P, hP, g, hgap, hle⟩ := hgiven.put.gap hgiven.inv.geometry
      rw [hgiven.sized] at hle
      exact absurd (hno P hP g hgap) (Nat.not_lt.mpr hle)
  · exact iff_of_true ⟨e, hrun⟩ ⟨hno, e, halloc⟩
  · cases hv
  · refine iff_of_false ?_ ?_
    · rintro ⟨e, hrun'⟩
      rw [hrun] at hrun'
      cases hrun'
    · rintro ⟨-, e, halloc'⟩
      rw [halloc] at halloc'
      cases halloc'
  · refine iff_of_false ?_ ?_
    · rintro ⟨e, hrun'⟩
      rw [hrun] at hrun'
      cases hrun'
    · rintro ⟨-, e, halloc'⟩
      rw [halloc] at halloc'
      cases halloc'

end GalaxyOS
