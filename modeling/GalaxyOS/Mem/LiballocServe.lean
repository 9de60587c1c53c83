import GalaxyOS.Mem.LiballocSearch

/-! # What `malloc` gives out

`Searching` says how far the search has come and how many rounds it may take.  `mallocRound_ok` is the step,
by the kind of search; `mallocLoop_ok` is the induction over the rounds, whose number is bounded by the
number of blocks (`Geometry.length_le`), and `malloc_ok` the whole of `malloc`. -/

namespace GalaxyOS

open Transition Records Linked

variable {σ : Type} {H : LiballocHooks σ} {Ok : σ → Prop} {v : LiballocVersion} {top : ℕ}
  {st : Liballoc σ} {s : σ} {size req : ℕ} {L L₁ L₂ : List Pool} {P Q : Pool}

/-- How far the search has come, with at most `k` rounds to go. -/
inductive Searching (H : LiballocHooks σ) (Ok : σ → Prop) (s : σ) (L : List Pool) (size : ℕ) :
    ℕ → Search σ → Prop where
  /-- From the best bet on. -/
  | bet {st L₁ P L₂ bestSize} (hI : HeapInv H Ok st L) (hs : st.sys = s) (hL : L = L₁ ++ P :: L₂) :
      Searching H Ok s L size (L₂.length + L.length + 4) ⟨st, P.addr, true, bestSize⟩
  /-- From the root on. -/
  | root {st L₁ P L₂ bestSize} (hI : HeapInv H Ok st L) (hs : st.sys = s) (hL : L = L₁ ++ P :: L₂)
      (hno : NoRoom L₁ (size + sizeofMinor)) :
      Searching H Ok s L size (L₂.length + 3) ⟨st, P.addr, false, bestSize⟩
  /-- At a new block. -/
  | fresh {st a s' bestSize} (hI : HeapInv H Ok st (L ++ [⟨a, pagesFor size, []⟩])) (ha : a ≠ 0)
      (halloc : H.liballocAlloc s (pagesFor size) = .ok (a, s'))
      (hgrown : PoolGrown H L ⟨a, pagesFor size, []⟩ s st.sys) (hno : NoRoom L (size + sizeofMinor)) :
      Searching H Ok s L size 1 ⟨st, a, false, bestSize⟩

/-- A round goes on with the search, or is the last. -/
def RoundResult (H : LiballocHooks σ) (Ok : σ → Prop) (s : σ) (L : List Pool) (size req k : ℕ)
    (r : Except Fault (Search σ ⊕ (Option ℕ × Liballoc σ))) : Prop :=
  (∃ k' x', r = .ok (.inl x') ∧ Searching H Ok s L size k' x' ∧ k' < k) ∨
    (∃ b, r = .ok (.inr b) ∧ MallocSearchResult H Ok s L size req (.ok b)) ∨
    ∃ e, r = .error e ∧ MallocSearchResult H Ok s L size req (.error e)

/-- What is free in a block, in all. -/
theorem Geometry.free_eq (h : Geometry L) (hP : P ∈ L) :
    sub32 (P.pages * lPageSize) (sizeofMajor + used P.chunks) = P.fin - P.start - used P.chunks ∧
      P.start + used P.chunks ≤ P.fin := by
  have hle := (h.fits P hP).le
  have hbounds := h.bounds hP
  unfold Pool.start sizeofMajor at hle ⊢
  unfold Pool.fin at hbounds hle ⊢
  refine ⟨?_, hle⟩
  rw [sub32_of_le (by omega) (by omega)]
  omega

theorem Pool.noGap_of_free (hfits : Fits P.start P.fin P.chunks) {n : ℕ}
    (hlt : P.fin - P.start - used P.chunks < n) : P.NoGap n := by
  intro g hg
  have hle := hfits.gap_le hg
  omega

theorem NoRoom.snoc {n : ℕ} (h : NoRoom L n) (hP : P.NoGap n) : NoRoom (L ++ [P]) n := by
  intro Q hQ
  cases List.mem_append.mp hQ with
  | inl hold => exact h Q hold
  | inr hlast => exact List.mem_singleton.mp hlast ▸ hP

/-- There is no place in the block `P`, and the search from the best bet goes on. -/
theorem HeapInv.bet_goes_on (hI : HeapInv H Ok st (L₁ ++ P :: L₂)) (bestSize : ℕ) :
    RoundResult H Ok st.sys (L₁ ++ P :: L₂) size req (L₂.length + (L₁ ++ P :: L₂).length + 4) (do
      match ← mallocCase1 H v st P.addr true size with
      | .go st maj startedBet => .ok (.inl ⟨st, maj, startedBet, bestSize⟩)
      | .stop st => .ok (.inr (none, st))
      | .fresh st maj => mallocInside H st maj true bestSize size req) ∧
    RoundResult H Ok st.sys (L₁ ++ P :: L₂) size req (L₂.length + (L₁ ++ P :: L₂).length + 4) (do
      match ← mallocCase5 H st P.addr true size with
      | .go st maj startedBet => .ok (.inl ⟨st, maj, startedBet, bestSize⟩)
      | .stop st | .fresh st _ => .ok (.inr (none, st))) := by
  cases hL₂ : L₂ with
  | cons Q L₂' =>
      obtain ⟨h₁, h₅⟩ := hI.next_ok v size hL₂ true
      have hnext : Searching H Ok st.sys (L₁ ++ P :: L₂) size
          (L₂'.length + (L₁ ++ P :: L₂).length + 4) ⟨st, Q.addr, true, bestSize⟩ := by
        refine Searching.bet hI rfl (?_ : _ = (L₁ ++ [P]) ++ Q :: L₂')
        rw [hL₂]
        simp
      rw [h₁, h₅, ok_bind, ok_bind, ← hL₂]
      have hless : L₂'.length + (L₁ ++ P :: L₂).length + 4 < L₂.length + (L₁ ++ P :: L₂).length + 4 := by
        rw [hL₂, List.length_cons]
        omega
      exact ⟨.inl ⟨_, _, rfl, hnext, hless⟩, .inl ⟨_, _, rfl, hnext, hless⟩⟩
  | nil =>
      subst hL₂
      obtain ⟨h₁, h₅⟩ := hI.last_bet v size rfl
      obtain ⟨w, -, hrep, -⟩ := hI.pool_rep
      have hnext : ∃ k, k < (L₁ ++ [P]).length + 4 ∧ Searching H Ok st.sys (L₁ ++ [P]) size k
          ⟨st, st.memRoot, false, bestSize⟩ := by
        rw [hrep.root]
        cases hL : L₁ ++ [P] with
        | nil => simp at hL
        | cons Q L =>
            rw [hL] at hI
            refine ⟨L.length + 3, by simp, Searching.root hI rfl (List.nil_append (Q :: L)).symm ?_⟩
            exact fun R hR => absurd hR List.not_mem_nil
      obtain ⟨k, hk, hnext⟩ := hnext
      rw [h₁, h₅, ok_bind, ok_bind, List.length_nil, Nat.zero_add]
      exact ⟨.inl ⟨k, _, rfl, hnext, hk⟩, .inl ⟨k, _, rfl, hnext, hk⟩⟩

/-- What a round at a block of the heap does. -/
theorem HeapInv.round_eq (hI : HeapInv H Ok st (L₁ ++ P :: L₂)) (v : LiballocVersion) (req : ℕ)
    (hlt : size + sizeofMinor < 0x100000000) (b : Bool) (bestSize : ℕ) :
    ∃ st' best, st'.sys = st.sys ∧ HeapInv H Ok st' (L₁ ++ P :: L₂) ∧
      mallocRound H v size req ⟨st, P.addr, b, bestSize⟩ =
        if P.fin - P.start - used P.chunks < size + sizeofMinor then do
          match ← mallocCase1 H v st' P.addr b size with
          | .go st maj startedBet => .ok (.inl ⟨st, maj, startedBet, best⟩)
          | .stop st => .ok (.inr (none, st))
          | .fresh st maj => mallocInside H st maj b best size req
        else mallocInside H st' P.addr b best size req := by
  have hP : P ∈ L₁ ++ P :: L₂ := List.mem_append_right L₁ List.mem_cons_self
  have hbounds := hI.geometry.bounds hP
  have hne : P.addr ≠ 0 := by omega
  have hfree := (hI.geometry.free_eq hP).1
  unfold mallocRound
  simp only [if_neg hne, hI.major_size, hI.major_usage, ok_bind, hfree, wrap32_of_lt hlt]
  refine ⟨_, _, ?_, ?_, rfl⟩
  · split_ifs <;> rfl
  · split_ifs
    · exact hI.bet (.inr (List.mem_map_of_mem hP))
    · exact hI

section Rounds

variable (hH : H.Lawful v Ok top) (hroom : req + (alignment + alignInfo) ≤ size)
  (hlt : size + sizeofMajor + sizeofMinor ≤ top * lPageSize) (hreq : req < 0x100000000)

include hH hroom hlt hreq

/-- There is no place in the block `P`, and the search from the root goes on. -/
theorem HeapInv.root_goes_on (hI : HeapInv H Ok st (L₁ ++ P :: L₂)) (hno : NoRoom L₁ (size + sizeofMinor))
    (hgap : P.NoGap (size + sizeofMinor)) (bestSize : ℕ) :
    RoundResult H Ok st.sys (L₁ ++ P :: L₂) size req (L₂.length + 3) (do
      match ← mallocCase1 H v st P.addr false size with
      | .go st maj startedBet => .ok (.inl ⟨st, maj, startedBet, bestSize⟩)
      | .stop st => .ok (.inr (none, st))
      | .fresh st maj => mallocInside H st maj false bestSize size req) ∧
    RoundResult H Ok st.sys (L₁ ++ P :: L₂) size req (L₂.length + 3) (do
      match ← mallocCase5 H st P.addr false size with
      | .go st maj startedBet => .ok (.inl ⟨st, maj, startedBet, bestSize⟩)
      | .stop st | .fresh st _ => .ok (.inr (none, st))) := by
  cases hL₂ : L₂ with
  | cons Q L₂' =>
      obtain ⟨h₁, h₅⟩ := hI.next_ok v size hL₂ false
      have hnext : Searching H Ok st.sys (L₁ ++ P :: L₂) size (L₂'.length + 3)
          ⟨st, Q.addr, false, bestSize⟩ := by
        apply Searching.root hI rfl _ (hno.snoc hgap)
        rw [hL₂]
        simp
      rw [h₁, h₅, ok_bind, ok_bind, ← hL₂]
      have hless : L₂'.length + 3 < L₂.length + 3 := by
        rw [hL₂, List.length_cons]
        omega
      exact ⟨.inl ⟨_, _, rfl, hnext, hless⟩, .inl ⟨_, _, rfl, hnext, hless⟩⟩
  | nil =>
      subst hL₂
      obtain ⟨h₁, h₅⟩ := hI.last_ask v size rfl
      have hnone : NoRoom (L₁ ++ [P]) (size + sizeofMinor) := hno.snoc hgap
      rw [h₁, h₅]
      rcases appendMajor_ok hH hI hlt with ⟨e, halloc, hrun⟩ | ⟨s', st', halloc, hrun, hI', hkept⟩ |
        ⟨a, s', st', ha, halloc, hrun, hI', hgrown⟩
      · rw [hrun]
        have hres : MallocSearchResult H Ok st.sys (L₁ ++ [P]) size req (.error e) :=
          .inr ⟨hnone, .inl ⟨e, halloc, rfl⟩⟩
        exact ⟨.inr (.inr ⟨e, rfl, hres⟩), .inr (.inr ⟨e, rfl, hres⟩)⟩
      · rw [hrun]
        have hres : MallocSearchResult H Ok st.sys (L₁ ++ [P]) size req (.ok (none, st')) :=
          .inr ⟨hnone, .inr (.inl ⟨s', st', halloc, rfl, hI', hkept⟩)⟩
        exact ⟨.inr (.inl ⟨_, rfl, hres⟩), .inr (.inl ⟨_, rfl, hres⟩)⟩
      · rw [hrun]
        simp only [ok_bind, if_neg ha]
        obtain ⟨r, hfill, hres⟩ := hI'.fill_inside hH.bytes hroom (hH.size_lt hlt) hreq ha halloc hgrown false bestSize
        refine ⟨.inr (.inl ⟨r, hfill, .inr ⟨hnone, hres⟩⟩), .inl ⟨1, _, rfl, ?_, by simp⟩⟩
        exact .fresh hI' ha halloc hgrown hnone

/-- A round at a block of the heap. -/
theorem mallocRound_at (hI : HeapInv H Ok st (L₁ ++ P :: L₂)) {b : Bool} {bestSize k : ℕ}
    (hgo : ∀ st', st'.sys = st.sys → HeapInv H Ok st' (L₁ ++ P :: L₂) → P.NoGap (size + sizeofMinor) →
      ∀ bestSize, RoundResult H Ok st.sys (L₁ ++ P :: L₂) size req k (do
        match ← mallocCase1 H v st' P.addr b size with
        | .go st maj startedBet => .ok (.inl ⟨st, maj, startedBet, bestSize⟩)
        | .stop st => .ok (.inr (none, st))
        | .fresh st maj => mallocInside H st maj b bestSize size req) ∧
      RoundResult H Ok st.sys (L₁ ++ P :: L₂) size req k (do
        match ← mallocCase5 H st' P.addr b size with
        | .go st maj startedBet => .ok (.inl ⟨st, maj, startedBet, bestSize⟩)
        | .stop st | .fresh st _ => .ok (.inr (none, st)))) :
    RoundResult H Ok st.sys (L₁ ++ P :: L₂) size req k
      (mallocRound H v size req ⟨st, P.addr, b, bestSize⟩) := by
  have hP : P ∈ L₁ ++ P :: L₂ := List.mem_append_right L₁ List.mem_cons_self
  have hlt' : size + sizeofMinor < 0x100000000 := by
    have hwhole := hH.size_lt hlt
    omega
  obtain ⟨st', best, hsys, hI', hround⟩ := hI.round_eq v req hlt' b bestSize
  rw [hround]
  by_cases hsmall : P.fin - P.start - used P.chunks < size + sizeofMinor
  · rw [if_pos hsmall]
    exact (hgo st' hsys hI' (Pool.noGap_of_free (hI.geometry.fits P hP) hsmall) best).1
  · rw [if_neg hsmall]
    have hdiff : size + sizeofMinor ≤ P.pages * lPageSize - (sizeofMajor + used P.chunks) := by
      unfold Pool.fin Pool.start at hsmall
      omega
    unfold mallocInside
    rcases mallocPlace_ok hH.bytes hI' hroom hlt' hreq hdiff with ⟨c, st₁, L', hrun, hplaced⟩ |
      ⟨hrun, hgap⟩
    · rw [hrun, ok_bind]
      refine .inr (.inl ⟨_, rfl, .inl ⟨c, st₁, L', rfl, ?_⟩⟩)
      obtain ⟨m₁, m₂, hm, hL'⟩ := hplaced.put
      refine ⟨⟨L₁, P, L₂, m₁, m₂, rfl, hm, hL'⟩, hplaced.sized, hplaced.asked, hplaced.inv, ?_⟩
      rw [← hsys]
      exact hplaced.granted.kept
    · rw [hrun, ok_bind]
      exact (hgo st' hsys hI' hgap best).2

/-- Each round of the search. -/
theorem mallocRound_ok {k : ℕ} {x : Search σ} (hx : Searching H Ok s L size k x) :
    RoundResult H Ok s L size req k (mallocRound H v size req x) := by
  cases hx with
  | bet hI hs hL =>
      subst hs hL
      apply mallocRound_at hH hroom hlt hreq hI
      intro st' hsys hI' _ bestSize
      rw [← hsys]
      exact hI'.bet_goes_on bestSize
  | root hI hs hL hno =>
      subst hs hL
      apply mallocRound_at hH hroom hlt hreq hI
      intro st' hsys hI' hgap bestSize
      rw [← hsys]
      exact hI'.root_goes_on hH hroom hlt hreq hno hgap bestSize
  | @fresh st a s' bestSize hI ha halloc hgrown hno =>
      have hlt' : size + sizeofMinor < 0x100000000 := by
        have hwhole := hH.size_lt hlt
        omega
      obtain ⟨st', best, hsys, hI', hround⟩ := hI.round_eq v req hlt' false bestSize
      have hspec := (pagesFor_spec size).2
      have henough : ¬ a + pagesFor size * lPageSize - (a + sizeofMajor) - 0 < size + sizeofMinor := by
        omega
      simp only at hround
      rw [hround]
      unfold Pool.fin Pool.start used
      rw [if_neg henough]
      rw [← hsys] at hgrown
      obtain ⟨r, hfill, hres⟩ := hI'.fill_inside hH.bytes hroom (hH.size_lt hlt) hreq ha halloc hgrown false best
      exact .inr (.inl ⟨r, hfill, .inr ⟨hno, hres⟩⟩)

/-- The loop ends, with the outcome of the search. -/
theorem mallocLoop_ok {k : ℕ} {x : Search σ} (hx : Searching H Ok s L size k x) (hk : k < searchBound) :
    MallocSearchResult H Ok s L size req (whileE .timeout (mallocRound H v size req) searchBound x) :=
  whileE_outcome (I := Searching H Ok s L size) (O := MallocSearchResult H Ok s L size req)
    (fun _ _ hx => mallocRound_ok hH hroom hlt hreq hx) hx hk

end Rounds

/-- Each block has 16 pages at least. -/
theorem Geometry.length_le (h : Geometry L) : L.length ≤ 0x10000 := by
  have hsum : ∀ {l : List Pool}, (∀ P ∈ l, 0x10000 ≤ P.pages * lPageSize) →
      l.length * 0x10000 ≤ Layout.total (l.map fun P => (P.addr, P.pages * lPageSize)) := by
    intro l
    induction l with
    | nil => exact fun _ => Nat.le_of_eq (Nat.zero_mul _)
    | cons P l ih =>
        intro hpages
        have hrest := ih fun Q hQ => hpages Q (List.mem_cons_of_mem P hQ)
        have hfirst := hpages P List.mem_cons_self
        rw [List.map_cons, List.length_cons, Nat.succ_mul, Nat.add_comm]
        exact Nat.add_le_add hfirst hrest
  have htotal := h.blocks.total_le
  have hle := hsum fun P hP => by
    have hpages := (h.pages P hP).1
    unfold lPageCount at hpages
    unfold lPageSize
    omega
  have hall := Nat.le_trans hle htotal
  unfold lPageSize at hall
  omega

/-- Where the search starts. -/
theorem startSearch_ok (hI : HeapInv H Ok st L) (hL : L ≠ []) (hlt : size + sizeofMinor < 0x100000000) :
    ∃ k x, startSearch H st size = .ok x ∧ Searching H Ok st.sys L size k x ∧ k < searchBound := by
  obtain ⟨w, -, hrep⟩ := hI.rep
  have hlen := hI.geometry.length_le
  have hroot : ∀ bestSize, ∃ k, Searching H Ok st.sys L size k ⟨st, st.memRoot, false, bestSize⟩ ∧
      k < searchBound := by
    intro bestSize
    rw [hrep.root]
    cases L with
    | nil => exact absurd rfl hL
    | cons P L =>
        refine ⟨L.length + 3, Searching.root hI rfl (List.nil_append (P :: L)).symm ?_, ?_⟩
        · exact fun R hR => absurd hR List.not_mem_nil
        · rw [List.length_cons] at hlen
          unfold searchBound
          omega
  unfold startSearch
  by_cases hbet : st.bestBet = 0
  · obtain ⟨k, hk, hlt⟩ := hroot 0
    rw [if_pos hbet]
    exact ⟨k, _, rfl, hk, hlt⟩
  · obtain ⟨P, hP, hPbet⟩ := List.mem_map.mp (hI.best.resolve_left hbet)
    obtain ⟨L₁, L₂, hsplit⟩ := List.append_of_mem hP
    have hI' := hI
    rw [hsplit] at hI'
    rw [if_neg hbet, ← hPbet, hI'.major_size, ok_bind, hI'.major_usage, ok_bind]
    simp only [wrap32_of_lt hlt]
    by_cases henough : size + sizeofMinor < sub32 (P.pages * lPageSize) (sizeofMajor + used P.chunks)
    · rw [if_pos henough]
      refine ⟨_, _, rfl, .bet hI rfl hsplit, ?_⟩
      have hlen' : L₂.length ≤ L.length := by
        rw [hsplit, List.length_append, List.length_cons]
        omega
      unfold searchBound
      omega
    · obtain ⟨k, hk, hlt⟩ := hroot (sub32 (P.pages * lPageSize) (sizeofMajor + used P.chunks))
      rw [if_neg henough]
      exact ⟨k, _, rfl, hk, hlt⟩

/-! ### The outcome -/

/-- What `malloc` does when no gap is large enough: it fails if the system does, and if there are no
pages the kernel stops, once it has a heap. -/
def Grows (H : LiballocHooks σ) (Ok : σ → Prop) (v : LiballocVersion) (st : Liballoc σ) (L : List Pool)
    (size req : ℕ) (r : Except Fault (ℕ × Liballoc σ)) : Prop :=
  (∃ e, H.liballocAlloc st.sys (pagesFor size) = .error e ∧ r = .error e) ∨
  (∃ s', H.liballocAlloc st.sys (pagesFor size) = .ok (0, s') ∧
    ((v = .kernel ∧ L ≠ []) ∧ r = .error (.panic "Out of physical memory") ∨
      ¬(v = .kernel ∧ L ≠ []) ∧
        ∃ st', r = .ok (0, st') ∧ HeapInv H Ok st' L ∧ Kept H L st.sys st'.sys)) ∨
  ∃ a s' c st', a ≠ 0 ∧ H.liballocAlloc st.sys (pagesFor size) = .ok (a, s') ∧ r = .ok (c.ptr, st') ∧
    c.size = size ∧ c.req = req ∧ HeapInv H Ok st' (L ++ [⟨a, pagesFor size, [c]⟩]) ∧
    PoolGrown H L ⟨a, pagesFor size, [c]⟩ st.sys st'.sys

/-- The outcome of `malloc`. -/
def MallocResult (H : LiballocHooks σ) (Ok : σ → Prop) (v : LiballocVersion) (st : Liballoc σ)
    (L : List Pool) (size req : ℕ) (r : Except Fault (ℕ × Liballoc σ)) : Prop :=
  (∃ c st' L', r = .ok (c.ptr, st') ∧ GivenOut H Ok st.sys L size req c st' L') ∨
    (NoRoom L (size + sizeofMinor) ∧ Grows H Ok v st L size req r)

/-- The end of `malloc`: the kernel stops if nothing has been found. -/
theorem MallocSearchResult.finish {r : Except Fault (Option ℕ × Liballoc σ)}
    (h : MallocSearchResult H Ok st.sys L size req r)
    (hL : L ≠ [] ∨ ∃ a s', a ≠ 0 ∧ H.liballocAlloc st.sys (pagesFor size) = .ok (a, s')) :
    MallocResult H Ok v st L size req (do
      let (p, st) ← r
      match p with
      | some p => .ok (p, st)
      | none =>
          match v with
          | .kernel => .error (.panic "Out of physical memory")
          | .user => .ok (0, st)) := by
  rcases h with ⟨c, st', L', rfl, hgiven⟩ | ⟨hno, ⟨e, halloc, rfl⟩ | ⟨s', st', halloc, rfl, hI, hkept⟩ |
    ⟨a, s', c, st', ha, halloc, rfl, hgrown⟩⟩
  · exact .inl ⟨c, st', L', rfl, hgiven⟩
  · exact .inr ⟨hno, .inl ⟨e, halloc, rfl⟩⟩
  · have hne : L ≠ [] := by
      rcases hL with hL | ⟨a, s'', ha, halloc'⟩
      · exact hL
      · rw [halloc] at halloc'
        exact absurd (congrArg Prod.fst (Except.ok.inj halloc')).symm ha
    cases v with
    | kernel => exact .inr ⟨hno, .inr (.inl ⟨s', halloc, .inl ⟨⟨rfl, hne⟩, rfl⟩⟩)⟩
    | user => exact .inr ⟨hno, .inr (.inl ⟨s', halloc, .inr ⟨by simp, st', rfl, hI, hkept⟩⟩)⟩
  · exact .inr ⟨hno, .inr (.inr ⟨a, s', c, st', ha, halloc, rfl, hgrown⟩)⟩

section Outcome

variable (hH : H.Lawful v Ok top) (hI : HeapInv H Ok st L)

include hH hI

theorem mallocSized_ok (hroom : req + (alignment + alignInfo) ≤ size)
    (hlt : size + sizeofMajor + sizeofMinor ≤ top * lPageSize) :
    MallocResult H Ok v st L size req (mallocSized H v st size req) := by
  have hreq : req < 0x100000000 := by
    have hwhole := hH.size_lt hlt
    omega
  have hlt' : size + sizeofMinor < 0x100000000 := by
    have hwhole := hH.size_lt hlt
    omega
  obtain ⟨w, hholds, hrep⟩ := hI.rep
  unfold mallocSized
  cases hL : L with
  | nil =>
      rw [hL] at hI hrep hholds
      have hroot : st.memRoot = 0 := hrep.root
      have hbet : st.bestBet = 0 := hI.best.resolve_right List.not_mem_nil
      have hno : NoRoom [] (size + sizeofMinor) := fun P hP => absurd hP List.not_mem_nil
      rw [if_pos hroot]
      refine .inr ⟨hno, ?_⟩
      rcases allocateNewPage_ok hH hI hlt with ⟨e, halloc, hrun⟩ | ⟨s', halloc, hrun⟩ |
        ⟨a, s', sys, ha, halloc, hrun, hnew⟩
      · exact .inl ⟨e, halloc, by rw [hrun, error_bind]⟩
      · obtain ⟨hok, hload⟩ := hH.refused _ _ _ hholds.ok (hH.pagesFor_le hlt) halloc
        refine .inr (.inl ⟨s', halloc, .inr ⟨fun h => h.2 rfl,
          { st with sys := s', memRoot := 0, warningCount := st.warningCount + 1 }, ?_, ?_, ?_⟩⟩)
        · rw [hrun]
          rfl
        · refine hI.keep ⟨w, hholds.same hok fun _ _ _ _ => by rw [hload], ?_⟩ (fun b => ?_)
            (fun c hc => absurd hc List.not_mem_nil) hI.best rfl rfl
          · rw [← hroot]
            exact hrep
          · exact iff_of_eq (congrArg (· = none) (congrFun hload b))
        · exact ⟨fun c hc => absurd hc List.not_mem_nil, fun b _ => congrFun hload b, fun b =>
            iff_of_eq (congrArg (· = none) (congrFun hload b))⟩
      · obtain ⟨hI', hgrown⟩ := hnew.first hI rfl
        rw [hrun, ok_bind]
        simp only [if_neg ha]
        unfold mallocSearch startSearch
        rw [if_pos hbet, ok_bind]
        have hsearching : Searching H Ok st.sys [] size 1 ⟨_, a, false, 0⟩ :=
          .fresh hI' ha halloc hgrown hno
        have hloop := mallocLoop_ok (v := v) hH hroom hlt hreq hsearching (by decide)
        rcases hloop.finish (v := v) (.inr ⟨a, s', ha, halloc⟩) with ⟨c, st', L', -, hgiven⟩ | ⟨-, hgrows⟩
        · obtain ⟨L₁, P, L₂, -, -, hL, -⟩ := hgiven.put
          simp at hL
        · exact hgrows
  | cons P L' =>
      rw [hL] at hI hrep
      have hP : P ∈ P :: L' := List.mem_cons_self
      have hbounds := hI.geometry.bounds hP
      have hroot : st.memRoot ≠ 0 := by
        have heq : st.memRoot = P.addr := hrep.root
        omega
      rw [if_neg hroot]
      obtain ⟨k, x, hstart, hx, hk⟩ := startSearch_ok hI (List.cons_ne_nil P L') hlt'
      unfold mallocSearch
      rw [hstart, ok_bind]
      exact (mallocLoop_ok hH hroom hlt hreq hx hk).finish (.inl (List.cons_ne_nil P L'))

/-- `malloc` of a number of bytes that leaves room for the structures. -/
theorem malloc_ok (hlt : req + 80 ≤ top * lPageSize) :
    MallocResult H Ok v st L (req + (alignment + alignInfo)) req (malloc H v st req) := by
  have hall : req + (alignment + alignInfo) + sizeofMajor + sizeofMinor ≤ top * lPageSize := hlt
  have hwrap : wrap32 (req + (alignment + alignInfo)) = req + (alignment + alignInfo) := by
    have hwhole := hH.size_lt hall
    exact wrap32_of_lt (by omega)
  have hne : req + (alignment + alignInfo) ≠ 0 := by
    unfold alignment
    omega
  unfold malloc
  simp only [hwrap, if_neg hne]
  exact mallocSized_ok hH hI (Nat.le_refl _) hall

end Outcome

end GalaxyOS
