import GalaxyOS.Mem.LiballocClient

/-! # Runs of the allocator

The users of the allocator call it and store bytes in their pieces, and the rest of the system moves on
in between.  `Client` keeps beside the allocator what the users expect to find in their pieces, and what
the rest of the system has in the other bytes of the memory.

`Client.step` keeps `Client.Sound` with one lemma for each kind of call (`Gains.client`, `Loses.client`,
`Swaps.client`, `HeapInv.client_store`), and `Client.Fresh.run` goes from a fresh allocator through a run.
-/

namespace GalaxyOS

open Transition Records Linked BlockStore

/-- What the users of the allocator, and the rest of the system, do. -/
inductive HeapCall (σ : Type) where
  | malloc (size : ℕ)
  | calloc (nobj size : ℕ)
  | realloc (p size : ℕ)
  | free (p : ℕ)
  /-- A user stores a byte in one of its pieces. -/
  | store (p i : ℕ) (b : UInt8)
  /-- Something else happens in the system, which now has the bytes `others` for itself. -/
  | world (s : σ) (others : ℕ → Option UInt8)

/-- The allocator, what the pieces should hold, and the bytes that belong to others. -/
structure Client (σ : Type) where
  heap : Liballoc σ
  blocks : Store
  others : ℕ → Option UInt8

variable {σ : Type} (H : LiballocHooks σ) (v : LiballocVersion)

/-- The call itself: its result and the allocator after it. -/
def HeapCall.exec (st : Liballoc σ) : HeapCall σ → Except Fault (ℕ × Liballoc σ)
  | .malloc size => GalaxyOS.malloc H v st size
  | .calloc nobj size => GalaxyOS.calloc H v st nobj size
  | .realloc p size => GalaxyOS.realloc H v st p size
  | .free p => do
      let st ← GalaxyOS.free H v st p
      .ok (0, st)
  | .store p i b => do
      let st ← st.storeByte H (p + i) b
      .ok (0, st)
  | .world s _ => .ok (0, { st with sys := s })

/-- What a user expects of a new piece at `r`: whatever the memory holds there. -/
def newBlock (load : ℕ → Option UInt8) (S : Store) (r size : ℕ) : Store :=
  if r = 0 then S else (r, bytesFrom load r size) :: S

/-- What the users expect of their pieces after a call with result `r`. -/
def HeapCall.expect (load : ℕ → Option UInt8) (S : Store) (r : ℕ) : HeapCall σ → Store
  | .malloc size => newBlock load S r size
  | .calloc nobj size => if r = 0 then S else (r, List.replicate (nobj * size) 0) :: S
  | .realloc p size =>
      match contents S p with
      | none => newBlock load S r size
      | some bs =>
          if r = 0 then remove S p
          else (r, bs.take size ++ bytesFrom load (r + bs.length) (size - bs.length)) :: remove S p
  | .free p => remove S p
  | .store p i b =>
      match contents S p with
      | none => S
      | some bs => put S p (bs.set i b)
  | .world _ _ => S

/-- The bytes that belong to others after the call. -/
def HeapCall.leaves (others : ℕ → Option UInt8) : HeapCall σ → ℕ → Option UInt8
  | .world _ others' => others'
  | _ => others

def Client.call (h : Client σ) (c : HeapCall σ) : Except Fault (Client σ) := do
  let (r, heap) ← c.exec H v h.heap
  .ok ⟨heap, c.expect (H.load heap.sys) h.blocks r, c.leaves h.others⟩

/-- A byte of the memory that the system has given to the allocator. -/
def Client.Owns (h : Client σ) (b : ℕ) : Prop := h.others b = none ∧ H.load h.heap.sys b ≠ none

/-- Users only pass pointers that they have been given and not freed since, sizes that leave room for
the structures, and store inside their pieces; the rest of the system leaves the bytes of the allocator
alone. -/
def HeapCall.Allowed (Ok : σ → Prop) (top : ℕ) (h : Client σ) : HeapCall σ → Prop
  | .malloc size => size + 80 ≤ top * lPageSize
  | .calloc nobj size => nobj * size + 80 ≤ top * lPageSize
  | .realloc p size => size + 80 ≤ top * lPageSize ∧ (p = 0 ∨ p ∈ addrs h.blocks)
  | .free p => p = 0 ∨ p ∈ addrs h.blocks
  | .store p i _ => ∃ bs, (p, bs) ∈ h.blocks ∧ i < bs.length
  | .world s others => Ok s ∧
      (∀ b, h.Owns H b → H.load s b = H.load h.heap.sys b ∧ others b = none) ∧
      ∀ b, ¬h.Owns H b → H.load s b = others b

/-- The size for which the system may be asked for pages. -/
def HeapCall.asked : HeapCall σ → Option ℕ
  | .malloc size | .realloc _ size => some size
  | .calloc nobj size => some (nobj * size)
  | _ => none

/-- The system refuses the pages that the call may need. -/
def HeapCall.Refused (h : Client σ) (c : HeapCall σ) : Prop :=
  ∃ n, c.asked = some n ∧ H.Refuses h.heap.sys (pagesFor (n + (alignment + alignInfo)))

/-- Nothing has been allocated yet. -/
structure Client.Fresh (Ok : σ → Prop) (h : Client σ) : Prop where
  ok : Ok h.heap.sys
  root : h.heap.memRoot = 0
  bet : h.heap.bestBet = 0
  allocated : h.heap.allocated = 0
  inuse : h.heap.inuse = 0
  blocks : h.blocks = []
  others : h.others = H.load h.heap.sys

/-- The pieces are aligned, they do not overlap each other or what belongs to others, and everyone finds
the bytes that he has stored. -/
structure Client.Sound (h : Client σ) : Prop where
  aligned : ∀ p ∈ addrs h.blocks, p % alignment = 0
  distinct : (addrs h.blocks).Nodup
  apart : Layout.Disjoint 1 0x100000000 (pieces h.blocks)
  own : ∀ x ∈ h.blocks, ∀ i < x.2.length, h.others (x.1 + i) = none
  reads : Reads (H.load h.heap.sys) h.blocks
  others : ∀ b, h.others b ≠ none → H.load h.heap.sys b = h.others b

/-- The pieces of the heap are those that the users have. -/
def TracksBlocks (L : List Pool) (S : Store) : Prop :=
  ((chunksOf L).map fun c => (c.ptr, c.req)).Perm (pieces S)

/-- The allocator has a heap with the pieces that the users have. -/
def Client.Inv (Ok : σ → Prop) (h : Client σ) : Prop :=
  ∃ L, HeapInv H Ok h.heap L ∧ Account H h.others L h.heap.sys ∧ TracksBlocks L h.blocks ∧
    Reads (H.load h.heap.sys) h.blocks ∧ (v = .kernel → Tight L)

/-! ### The pieces of the users -/

variable {H : LiballocHooks σ} {v : LiballocVersion} {Ok : σ → Prop} {top : ℕ}
  {h h' : Client σ} {st st' : Liballoc σ} {s : σ} {L L' : List Pool} {S : Store} {bs : List UInt8}
  {c d : Chunk} {rest : List Chunk} {r p n : ℕ} {B : ℕ → Option UInt8}

theorem TracksBlocks.addrs (ht : TracksBlocks L S) : ((chunksOf L).map Chunk.ptr).Perm (BlockStore.addrs S) := by
  have hperm := ht.map Prod.fst
  rwa [List.map_map, pieces, List.map_map] at hperm

theorem TracksBlocks.nodup (ht : TracksBlocks L S) (hg : Geometry L) : (BlockStore.addrs S).Nodup :=
  ht.addrs.nodup_iff.mp hg.ptrs_nodup

/-- A pointer that a user has. -/
theorem TracksBlocks.chunk_of_addr (ht : TracksBlocks L S) (hp : p ∈ BlockStore.addrs S) :
    ∃ c ∈ chunksOf L, c.ptr = p :=
  List.mem_map.mp (ht.addrs.symm.subset hp)

/-- The piece behind a block of a user. -/
theorem TracksBlocks.chunk (ht : TracksBlocks L S) (hx : (p, bs) ∈ S) :
    ∃ c ∈ chunksOf L, c.ptr = p ∧ c.req = bs.length := by
  have hmem : (p, bs.length) ∈ pieces S := List.mem_map.mpr ⟨(p, bs), hx, rfl⟩
  obtain ⟨c, hc, heq⟩ := List.mem_map.mp (ht.symm.subset hmem)
  exact ⟨c, hc, congrArg Prod.fst heq, congrArg Prod.snd heq⟩

/-- The block that a user has in a piece. -/
theorem TracksBlocks.block (ht : TracksBlocks L S) (hc : c ∈ chunksOf L) :
    ∃ bs, (c.ptr, bs) ∈ S ∧ bs.length = c.req := by
  have hmem : (c.ptr, c.req) ∈ pieces S := ht.subset (List.mem_map.mpr ⟨c, hc, rfl⟩)
  obtain ⟨x, hx, heq⟩ := List.mem_map.mp hmem
  have haddr : x.1 = c.ptr := congrArg Prod.fst heq
  refine ⟨x.2, ?_, congrArg Prod.snd heq⟩
  rw [← haddr]
  exact hx

theorem TracksBlocks.gain (ht : TracksBlocks L S) (hL : (chunksOf L').Perm (c :: chunksOf L))
    (hbs : bs.length = c.req) :
    TracksBlocks L' ((c.ptr, bs) :: S) := by
  refine (hL.map _).trans ?_
  rw [List.map_cons, ← hbs]
  exact ht.cons _

/-- The blocks in the other pieces. -/
theorem TracksBlocks.without (ht : TracksBlocks L S) (hg : Geometry L) (hL : (chunksOf L).Perm (c :: rest)) :
    (rest.map fun e => (e.ptr, e.req)).Perm (pieces (remove S c.ptr)) := by
  obtain ⟨bs, hx, hlen⟩ := ht.block (hL.symm.subset List.mem_cons_self)
  have hS := (perm_remove (ht.nodup hg) hx).map fun x : ℕ × List UInt8 => (x.1, x.2.length)
  have hC := hL.map fun e => (e.ptr, e.req)
  rw [List.map_cons] at hS hC
  rw [hlen] at hS
  exact ((hC.symm.trans ht).trans hS).cons_inv

/-- A memory that agrees on the pieces holds the same blocks. -/
theorem reads_of_chunks {load load' : ℕ → Option UInt8} (hr : Reads load S)
    (hC : (rest.map fun e => (e.ptr, e.req)).Perm (pieces S))
    (hsame : ∀ e ∈ rest, ∀ i < e.req, load' (e.ptr + i) = load (e.ptr + i)) : Reads load' S := by
  apply hr.congr
  intro x hx i hi
  have hmem : (x.1, x.2.length) ∈ pieces S := List.mem_map.mpr ⟨x, hx, rfl⟩
  obtain ⟨e, he, heq⟩ := List.mem_map.mp (hC.symm.subset hmem)
  have haddr : e.ptr = x.1 := congrArg Prod.fst heq
  have hlen : e.req = x.2.length := congrArg Prod.snd heq
  rw [← haddr]
  exact hsame e he i (hlen ▸ hi)

/-- The pieces that are kept hold what they held. -/
theorem KeepsBodies.reads {s' : σ} (hk : KeepsBodies H L s s') (hg : Geometry L)
    (hr : Reads (H.load s) S) (ht : TracksBlocks L S) : Reads (H.load s') S :=
  reads_of_chunks hr ht fun e he _ hi => hk e he _ (hg.usable he hi).1 (hg.usable he hi).2

/-! ### Steps -/

theorem Client.Inv.sound (hI : h.Inv H v Ok) : h.Sound H := by
  obtain ⟨L, hinv, hacc, ht, hr, -⟩ := hI
  have hg := hinv.geometry
  have hinside : ∀ c ∈ chunksOf L, ∃ P ∈ L, c ∈ P.chunks ∧ 0x1000 ≤ c.ptr ∧ c.ptr + c.req < c.fin ∧
      c.fin ≤ 0x100000000 := by
    intro c hc
    obtain ⟨P, hP, hcP⟩ := List.mem_flatMap.mp hc
    have hcb := hg.chunk hP hcP
    have hbounds := hg.bounds hP
    have hspec := c.ptr_spec
    exact ⟨P, hP, hcP, by omega, c.ptr_inside hcb.2.2, by omega⟩
  refine ⟨fun p hp => ?_, ht.nodup hg, ⟨fun q hq => ?_, ?_⟩, fun x hx i hi => ?_, hr, fun b hb => ?_⟩
  · obtain ⟨c, -, rfl⟩ := ht.chunk_of_addr hp
    exact c.ptr_spec.1
  · obtain ⟨c, hc, rfl⟩ := List.mem_map.mp (ht.symm.subset hq)
    obtain ⟨P, hP, hcP, hlo, hreq, hhi⟩ := hinside c hc
    exact ⟨show 1 ≤ c.ptr by omega, show c.ptr + c.req ≤ _ by omega⟩
  · apply (ht.pairwise_iff fun hpq => hpq.symm).mp
    apply List.pairwise_map.mpr
    apply List.Pairwise.imp_of_mem _ hg.chunks_nodup
    intro c d hc hd hne
    have hapart := hg.bodies_apart hc hd hne
    obtain ⟨-, -, -, -, hcreq, -⟩ := hinside c hc
    obtain ⟨-, -, -, -, hdreq, -⟩ := hinside d hd
    have hcs := c.ptr_spec
    have hds := d.ptr_spec
    unfold Layout.Apart
    simp only
    omega
  · obtain ⟨c, hc, hptr, hreq⟩ := ht.chunk hx
    have hu := hg.usable hc (hreq ▸ hi)
    rw [← hptr]
    exact hacc.apart _ (hg.body_inside hc hu.1 hu.2)
  · apply hacc.outside
    exact fun hin => hb (hacc.apart b hin)

section Changes

variable (hI : HeapInv H Ok st L) (hacc : Account H B L st.sys) (ht : TracksBlocks L S)
  (hr : Reads (H.load st.sys) S) (htight : v = .kernel → Tight L)

include hI hacc ht hr htight

/-- A piece has been added. -/
theorem Gains.client (hg : Gains H Ok st.sys L c st' L') (hlen : bs.length = c.req)
    (hbs : ∀ i < bs.length, H.load st'.sys (c.ptr + i) = bs[i]?) :
    Client.Inv H v Ok ⟨st', (c.ptr, bs) :: S, B⟩ :=
  ⟨L', hg.inv, hg.account B hacc, ht.gain hg.chunks hlen,
    (hg.bodies.reads hI.geometry hr ht).cons hbs, fun hv => hg.tight (htight hv)⟩

/-- Nothing has been added. -/
theorem Kept.client (hk : Kept H L st.sys st'.sys) (hI' : HeapInv H Ok st' L) :
    Client.Inv H v Ok ⟨st', S, B⟩ :=
  ⟨L, hI', hacc.kept hk fun _ => Iff.rfl, ht, hk.bodies.reads hI.geometry hr ht, htight⟩

/-- A piece has been freed. -/
theorem Loses.client (hl : Loses H Ok v st.sys L c st' L') :
    Client.Inv H v Ok ⟨st', remove S c.ptr, B⟩ := by
  have ht' : TracksBlocks L' (remove S c.ptr) := ht.without hI.geometry hl.chunks
  exact ⟨L', hl.inv, hl.account B hacc, ht', hl.bodies.reads hl.inv.geometry (hr.remove _) ht',
    fun hv => hl.tight hv (htight hv)⟩

/-- A piece has taken the place of another one. -/
theorem Swaps.client (hs : Swaps H Ok v st.sys L c d st' L') (hx : (c.ptr, bs) ∈ S) :
    Client.Inv H v Ok ⟨st', (d.ptr, bs.take d.req ++
      bytesFrom (H.load st'.sys) (d.ptr + bs.length) (d.req - bs.length)) :: remove S c.ptr, B⟩ := by
  obtain ⟨rest, hL, hL', hbodies⟩ := hs.chunks
  have hwithout := ht.without hI.geometry hL
  have hd : d ∈ chunksOf L' := hL'.symm.subset List.mem_cons_self
  have hlen : bs.length = c.req := by
    obtain ⟨e, he, hptr, hreq⟩ := ht.chunk hx
    rw [← hreq, hI.geometry.ptr_inj he (hL.symm.subset List.mem_cons_self) hptr]
  refine ⟨L', hs.inv, hs.account B hacc, ?_, Reads.cons ?_ fun i hi => ?_, fun hv => hs.tight hv (htight hv)⟩
  · refine (hL'.map _).trans ?_
    rw [List.map_cons]
    have hsize : (bs.take d.req ++
        bytesFrom (H.load st'.sys) (d.ptr + bs.length) (d.req - bs.length)).length = d.req := by
      rw [List.length_append, List.length_take, length_bytesFrom]
      omega
    show ((d.ptr, d.req) :: _).Perm ((d.ptr, List.length _) :: pieces (remove S c.ptr))
    rw [hsize]
    exact hwithout.cons _
  · apply reads_of_chunks (hr.remove _) hwithout
    intro e he i hi
    have heL : e ∈ chunksOf L' := hL'.symm.subset (List.mem_cons_of_mem d he)
    have hu := hs.inv.geometry.usable heL hi
    exact hbodies e he _ hu.1 hu.2
  · rw [List.length_append, List.length_take, length_bytesFrom] at hi
    by_cases hold : i < bs.length ∧ i < d.req
    · rw [List.getElem?_append_left (by rw [List.length_take]; omega), List.getElem?_take_of_lt hold.2,
        hs.copied i (hlen ▸ hold.1) hold.2]
      exact hr _ hx i hold.1
    · have htake : (bs.take d.req).length = bs.length := by
        rw [List.length_take]
        omega
      rw [List.getElem?_append_right (by omega), htake, getElem?_bytesFrom (by omega),
        show d.ptr + bs.length + (i - bs.length) = d.ptr + i by omega]
      have hthere := hs.inv.mapped_usable hd i (by omega)
      obtain ⟨b, hb⟩ := Option.ne_none_iff_exists'.mp hthere
      rw [hb, Option.getD_some]

/-- A user has stored a byte. -/
theorem HeapInv.client_store (hM : H.toBytes.Lawful Ok) {i : ℕ} (b : UInt8) (hx : (p, bs) ∈ S)
    (hi : i < bs.length) :
    st.storeByte H (p + i) b = .ok { st with sys := H.store st.sys (p + i) b } ∧
      Client.Inv H v Ok ⟨{ st with sys := H.store st.sys (p + i) b }, put S p (bs.set i b), B⟩ := by
  obtain ⟨c, hc, rfl, hreq⟩ := ht.chunk hx
  have hlt : c.ptr + i < c.ptr + c.req := by omega
  obtain ⟨-, hI', hload⟩ := hI.store hM hc b (Nat.le_add_right _ i) hlt
  refine ⟨HeapInv.storeByte hM hc hI b (Nat.le_add_right _ i) hlt, L, hI', ⟨fun y hy => ?_, hacc.apart⟩,
    ?_, Reads.cons ?_ fun j hj => ?_, htight⟩
  · have hu := hI.geometry.usable hc (i := i) (by omega)
    show H.load (H.store st.sys (c.ptr + i) b) y = _
    rw [hload, Function.update_of_ne]
    · exact hacc.outside y hy
    · rintro rfl
      exact hy (hI.geometry.body_inside hc hu.1 hu.2)
  · have hS := (perm_remove (ht.nodup hI.geometry) hx).map fun x : ℕ × List UInt8 => (x.1, x.2.length)
    refine ht.trans (hS.trans ?_)
    rw [List.map_cons]
    show ((c.ptr, bs.length) :: _).Perm ((c.ptr, (bs.set i b).length) :: pieces (remove S c.ptr))
    rw [List.length_set]
    exact List.Perm.refl _
  · obtain ⟨rest, hL⟩ : ∃ rest, (chunksOf L).Perm (c :: rest) := ⟨_, List.perm_cons_erase hc⟩
    apply reads_of_chunks (hr.remove _) (ht.without hI.geometry hL)
    intro e he j hj
    have heL : e ∈ chunksOf L := hL.symm.subset (List.mem_cons_of_mem c he)
    have hne : e ≠ c := by
      rintro rfl
      exact (List.nodup_cons.mp (hL.nodup_iff.mp hI.geometry.chunks_nodup)).1 he
    have hue := hI.geometry.usable heL hj
    have huc := hI.geometry.usable hc (i := i) (by omega)
    have hapart := hI.geometry.bodies_apart heL hc hne
    show H.load (H.store st.sys (c.ptr + i) b) _ = _
    rw [hload, Function.update_of_ne (by omega)]
  · rw [List.length_set] at hj
    show H.load (H.store st.sys (c.ptr + i) b) _ = _
    rw [hload]
    by_cases hij : j = i
    · rw [hij, Function.update_self, List.getElem?_set_self (by omega)]
    · rw [Function.update_of_ne (by omega), List.getElem?_set_ne (Ne.symm hij)]
      exact hr _ hx j hj

end Changes

/-- A call keeps the invariant, unless the system has no pages for it. -/
def StepOk (H : LiballocHooks σ) (v : LiballocVersion) (Ok : σ → Prop) (h : Client σ) (c : HeapCall σ) :
    Prop :=
  (∃ h', h.call H v c = .ok h' ∧ h'.Inv H v Ok) ∨ (∃ e, h.call H v c = .error e) ∧ c.Refused H h

theorem StepOk.of_ok {c : HeapCall σ} (hexec : c.exec H v h.heap = .ok (r, st'))
    (hI : Client.Inv H v Ok ⟨st', c.expect (H.load st'.sys) h.blocks r, c.leaves h.others⟩) :
    StepOk H v Ok h c := by
  refine .inl ⟨_, ?_, hI⟩
  unfold Client.call
  rw [hexec, ok_bind]

theorem StepOk.of_error {c : HeapCall σ} {e : Fault} (hexec : c.exec H v h.heap = .error e)
    (hasked : c.asked = some n) (hno : H.Refuses h.heap.sys (pagesFor (n + (alignment + alignInfo)))) :
    StepOk H v Ok h c := by
  refine .inr ⟨⟨e, ?_⟩, n, hasked, hno⟩
  unfold Client.call
  rw [hexec, error_bind]

theorem TracksBlocks.zero_notMem (ht : TracksBlocks L S) : 0 ∉ BlockStore.addrs S := by
  intro hmem
  obtain ⟨c, -, hc⟩ := ht.chunk_of_addr hmem
  have hspec := c.ptr_spec
  omega

theorem contents_of_notMem (hp : p ∉ BlockStore.addrs S) : contents S p = none := by
  unfold contents
  rw [Option.map_eq_none_iff, List.find?_eq_none]
  intro x hx heq
  exact hp (List.mem_map.mpr ⟨x, hx, by simpa using heq⟩)

/-- A byte that the allocator owns is a byte of its blocks. -/
theorem Client.owns_iff (hI : HeapInv H Ok h.heap L) (hacc : Account H h.others L h.heap.sys) (b : ℕ) :
    h.Owns H b ↔ InPools L b := by
  constructor
  · rintro ⟨hnone, hthere⟩
    by_contra hout
    rw [hacc.outside b hout] at hthere
    exact hthere hnone
  · intro hin
    refine ⟨hacc.apart b hin, ?_⟩
    obtain ⟨P, hP, hlo, hhi⟩ := hin
    have hmap := hI.mapped P hP (b - P.addr) (by omega)
    rwa [Nat.add_sub_cancel' hlo] at hmap

section Calls

variable (hH : H.Lawful v Ok top) (hI : HeapInv H Ok h.heap L) (hacc : Account H h.others L h.heap.sys)
  (ht : TracksBlocks L h.blocks) (hr : Reads (H.load h.heap.sys) h.blocks) (htight : v = .kernel → Tight L)

include hH hI hacc ht hr htight

/-- A call that does what `malloc` does. -/
theorem Client.malloc_step (hlt : n + 80 ≤ top * lPageSize) {c : HeapCall σ}
    (hexec : c.exec H v h.heap = GalaxyOS.malloc H v h.heap n) (hasked : c.asked = some n)
    (hexpect : ∀ load r, c.expect load h.blocks r = newBlock load h.blocks r n)
    (hleaves : c.leaves h.others = h.others) : StepOk H v Ok h c := by
  rcases malloc_gains hH hI hlt with ⟨d, st', L', hrun, hreq, hg⟩ | ⟨hno, ⟨st', hrun, hI', hk⟩ | ⟨e, hrun⟩⟩
  · refine .of_ok (hexec.trans hrun) ?_
    have hspec := d.ptr_spec
    have hd : d ∈ chunksOf L' := hg.chunks.symm.subset List.mem_cons_self
    have hpos : d.ptr ≠ 0 := by omega
    rw [hexpect, hleaves, newBlock, if_neg hpos]
    apply hg.client hI hacc ht hr htight
    · rw [length_bytesFrom, hreq]
    · exact reads_bytesFrom fun i hi => hg.inv.mapped_usable hd i (hreq ▸ hi)
  · refine .of_ok (hexec.trans hrun) ?_
    rw [hexpect, hleaves, newBlock, if_pos rfl]
    exact hk.client hI hacc ht hr htight hI'
  · exact .of_error (hexec.trans hrun) hasked hno

theorem Client.calloc_step {nobj size : ℕ} (hlt : nobj * size + 80 ≤ top * lPageSize) :
    StepOk H v Ok h (.calloc nobj size) := by
  rcases calloc_gains hH hI hlt with ⟨d, st', L', hrun, hreq, hg, hzero⟩ | ⟨hno, ⟨st', hrun, hI', hk⟩ |
    ⟨e, hrun⟩⟩
  · have hspec := d.ptr_spec
    have hpos : d.ptr ≠ 0 := by omega
    refine .of_ok (c := .calloc nobj size) hrun ?_
    rw [HeapCall.expect, if_neg hpos]
    apply hg.client hI hacc ht hr htight
    · rw [List.length_replicate, hreq]
    · intro i hi
      rw [List.length_replicate] at hi
      rw [hzero i hi, List.getElem?_replicate, if_pos hi]
  · refine .of_ok (c := .calloc nobj size) hrun ?_
    exact hk.client hI hacc ht hr htight hI'
  · exact .of_error (c := .calloc nobj size) hrun rfl hno

theorem Client.free_step (hp : p = 0 ∨ p ∈ addrs h.blocks) : StepOk H v Ok h (.free p) := by
  by_cases hzero : p = 0
  · subst hzero
    have hexec : (HeapCall.free 0 : HeapCall σ).exec H v h.heap =
        .ok (0, { h.heap with warningCount := h.heap.warningCount + 1 }) := rfl
    refine .of_ok hexec ?_
    rw [HeapCall.expect, remove_of_notMem ht.zero_notMem]
    exact ⟨L, hI.keep hI.rep (fun _ => Iff.rfl) (fun _ _ => rfl) hI.best rfl rfl, hacc, ht, hr, htight⟩
  · obtain ⟨c, hc, rfl⟩ := ht.chunk_of_addr (hp.resolve_left hzero)
    obtain ⟨st', L', hrun, hl⟩ := free_loses hH hI hc
    have hexec : (HeapCall.free c.ptr : HeapCall σ).exec H v h.heap = .ok (0, st') := by
      show (GalaxyOS.free H v h.heap c.ptr >>= fun st => .ok (0, st)) = _
      rw [hrun, ok_bind]
    exact .of_ok hexec (hl.client hI hacc ht hr htight)

theorem Client.realloc_step (hlt : n + 80 ≤ top * lPageSize) (hp : p = 0 ∨ p ∈ addrs h.blocks) :
    StepOk H v Ok h (.realloc p n) := by
  by_cases hzero : p = 0
  · subst hzero
    have hnone := contents_of_notMem ht.zero_notMem
    by_cases hn : n = 0
    · subst hn
      have hexec : (HeapCall.realloc 0 0 : HeapCall σ).exec H v h.heap =
          .ok (0, { h.heap with warningCount := h.heap.warningCount + 1 }) := rfl
      refine .of_ok hexec ?_
      rw [HeapCall.expect, hnone]
      exact ⟨L, hI.keep hI.rep (fun _ => Iff.rfl) (fun _ _ => rfl) hI.best rfl rfl, hacc, ht, hr, htight⟩
    · apply Client.malloc_step hH hI hacc ht hr htight hlt _ rfl _ rfl
      · unfold HeapCall.exec realloc
        simp only [if_neg hn, if_true]
      · intro load r
        rw [HeapCall.expect, hnone]
  · obtain ⟨c, hc, rfl⟩ := ht.chunk_of_addr (hp.resolve_left hzero)
    obtain ⟨bs, hx, hlen⟩ := ht.block hc
    have hsome : contents h.blocks c.ptr = some bs := (contents_eq_some (ht.nodup hI.geometry)).mpr hx
    have hswap : ∀ {d st' L'}, realloc H v h.heap c.ptr n = .ok (d.ptr, st') → d.req = n →
        Swaps H Ok v h.heap.sys L c d st' L' → StepOk H v Ok h (.realloc c.ptr n) := by
      intro d st' L' hrun hreq hs
      have hspec := d.ptr_spec
      refine .of_ok (c := .realloc c.ptr n) hrun ?_
      have hpos : d.ptr ≠ 0 := by omega
      rw [HeapCall.expect, hsome]
      simp only
      rw [if_neg hpos, ← hreq]
      exact hs.client hI hacc ht hr htight hx
    have hlose : ∀ {st' L'}, realloc H v h.heap c.ptr n = .ok (0, st') →
        Loses H Ok v h.heap.sys L c st' L' → StepOk H v Ok h (.realloc c.ptr n) := by
      intro st' L' hrun hl
      refine .of_ok (c := .realloc c.ptr n) hrun ?_
      rw [HeapCall.expect, hsome]
      exact hl.client hI hacc ht hr htight
    by_cases hn : n = 0
    · obtain ⟨st', L', hrun, hl⟩ := free_loses hH hI hc
      refine hlose ?_ hl
      unfold realloc
      rw [if_pos hn, hrun, ok_bind]
    · by_cases hle : n ≤ c.req
      · obtain ⟨st', L', hrun, hs⟩ := realloc_shrinks hH hI hc hn hle
        exact hswap (d := c.asking n) hrun rfl hs
      · rcases realloc_moves hH hI hc hlt (by omega) with ⟨d, st', L', hrun, hreq, hs⟩ |
          ⟨hno, ⟨-, st', L', hrun, hl⟩ | ⟨e, hrun⟩⟩
        · exact hswap hrun hreq hs
        · exact hlose hrun hl
        · exact .of_error (c := .realloc c.ptr n) hrun rfl hno

end Calls

theorem Client.store_step (hH : H.Lawful v Ok top) (hI : HeapInv H Ok h.heap L)
    (hacc : Account H h.others L h.heap.sys) (ht : TracksBlocks L h.blocks)
    (hr : Reads (H.load h.heap.sys) h.blocks) (htight : v = .kernel → Tight L) {i : ℕ} (b : UInt8)
    (hx : (p, bs) ∈ h.blocks) (hi : i < bs.length) : StepOk H v Ok h (.store p i b) := by
  obtain ⟨hstore, hI'⟩ := hI.client_store hacc ht hr htight hH.bytes b hx hi
  have hexec : (HeapCall.store p i b : HeapCall σ).exec H v h.heap =
      .ok (0, { h.heap with sys := H.store h.heap.sys (p + i) b }) := by
    show (h.heap.storeByte H (p + i) b >>= fun st => .ok (0, st)) = _
    rw [hstore, ok_bind]
  refine .of_ok hexec ?_
  rw [HeapCall.expect, (contents_eq_some (ht.nodup hI.geometry)).mpr hx]
  exact hI'

/-- The rest of the system does not see the blocks of the allocator. -/
theorem Client.world_step (hI : HeapInv H Ok h.heap L) (hacc : Account H h.others L h.heap.sys)
    (ht : TracksBlocks L h.blocks) (hr : Reads (H.load h.heap.sys) h.blocks) (htight : v = .kernel → Tight L)
    {others : ℕ → Option UInt8} (hc : (HeapCall.world s others).Allowed H Ok top h) :
    StepOk H v Ok h (.world s others) := by
  obtain ⟨hok, hown, hrest⟩ := hc
  have hsame : ∀ b, InPools L b → H.load s b = H.load h.heap.sys b := fun b hb =>
    (hown b ((owns_iff hI hacc b).mpr hb)).1
  have hg := hI.geometry
  have hexec : (HeapCall.world s others : HeapCall σ).exec H v h.heap =
      .ok (0, { h.heap with sys := s }) := rfl
  refine .of_ok hexec ?_
  obtain ⟨w, hholds, hrep⟩ := hI.rep
  refine ⟨L, ⟨hg, ⟨w, hholds.same hok fun a ha i hi => ?_, hrep⟩, fun P hP i hi => ?_, fun c hc => ?_,
    hI.best, hI.allocated, hI.inuse⟩, ⟨fun b hb => ?_, fun b hb => ?_⟩, ht, ?_, htight⟩
  · obtain ⟨P, hP, hlo, hhi⟩ := hg.header ha
    apply hsame
    exact ⟨P, hP, by rw [mem_piece]; unfold Pool.fin at hhi; omega⟩
  · rw [hsame _ ⟨P, hP, by rw [mem_piece]; omega⟩]
    exact hI.mapped P hP i hi
  · rw [hsame _ ?_]
    · exact hI.aligns c hc
    · have hin := hg.align_inside hc
      exact hg.body_inside hc hin.1 hin.2
  · exact hrest b fun hb' => hb ((owns_iff hI hacc b).mp hb')
  · exact (hown b ((owns_iff hI hacc b).mpr hb)).2
  · exact KeepsBodies.reads (fun c hc b hlo hhi => hsame b (hg.body_inside hc hlo hhi)) hg hr ht

/-- One call that the users may make, or a step of the rest of the system. -/
theorem Client.step (hH : H.Lawful v Ok top) (hI : h.Inv H v Ok) {c : HeapCall σ} (hc : c.Allowed H Ok top h) :
    StepOk H v Ok h c := by
  obtain ⟨L, hinv, hacc, ht, hr, htight⟩ := hI
  cases c with
  | malloc size =>
      apply malloc_step hH hinv hacc ht hr htight hc rfl rfl _ rfl
      exact fun _ _ => rfl
  | calloc nobj size => exact calloc_step hH hinv hacc ht hr htight hc
  | realloc p size => exact realloc_step hH hinv hacc ht hr htight hc.1 hc.2
  | free p => exact free_step hH hinv hacc ht hr htight hc
  | store p i b =>
      obtain ⟨bs, hx, hi⟩ := hc
      exact store_step hH hinv hacc ht hr htight b hx hi
  | world s others => exact world_step hinv hacc ht hr htight hc

/-- A heap without blocks. -/
theorem HeapInv.empty (hok : Ok st.sys) (hroot : st.memRoot = 0) (hbet : st.bestBet = 0)
    (hallocated : st.allocated = 0) (hinuse : st.inuse = 0) : HeapInv H Ok st [] where
  geometry :=
    ⟨⟨fun _ hq => absurd hq List.not_mem_nil, .nil⟩, fun _ hP => absurd hP List.not_mem_nil,
      fun _ hP => absurd hP List.not_mem_nil, fun _ hP => absurd hP List.not_mem_nil⟩
  rep := by
    have hno : ∀ a, a ∉ headers [] := by
      rintro a ⟨P, hP, -⟩
      cases hP
    exact ⟨fun _ _ => 0, ⟨hok, fun a ha => absurd ha (hno a), fun a ha => absurd ha (hno a)⟩, hroot,
      trivial, fun _ hP => absurd hP List.not_mem_nil⟩
  mapped := fun _ hP => absurd hP List.not_mem_nil
  aligns := fun _ hc => absurd hc List.not_mem_nil
  best := .inl hbet
  allocated := hallocated
  inuse := hinuse

theorem Client.Fresh.inv (hf : h.Fresh H Ok) : h.Inv H v Ok := by
  have hno : ∀ b, ¬InPools [] b := by
    rintro b ⟨P, hP, -⟩
    cases hP
  refine ⟨[], .empty hf.ok hf.root hf.bet hf.allocated hf.inuse,
    ⟨fun b _ => by rw [hf.others], fun b hb => absurd hb (hno b)⟩, ?_, ?_, ?_⟩
  · rw [hf.blocks]
    exact List.Perm.refl _
  · rw [hf.blocks]
    exact fun _ hx => absurd hx List.not_mem_nil
  · exact fun _ _ hP => absurd hP List.not_mem_nil

/-- The invariant of the runs that start with an empty heap. -/
theorem Client.Fresh.run (hH : H.Lawful v Ok top) (hfresh : h.Fresh H Ok) {cs : List (HeapCall σ)}
    (hadm : Admits (Client.call H v) (fun h c => c.Allowed H Ok top h) cs h)
    (hrun : runAll (Client.call H v) cs h = .ok h') : h'.Inv H v Ok := by
  refine runAll_invariant (fun s c t hI hc ht => ?_) hfresh.inv hadm hrun
  rcases Client.step hH hI hc with ⟨u, hu, hIu⟩ | ⟨⟨e, he⟩, -⟩
  · exact Except.ok.inj (hu.symm.trans ht) ▸ hIu
  · rw [he] at ht
    cases ht

/-! ### Runs that are computed -/

variable (H Ok top) in
/-- A call that a user may make. -/
def HeapCall.Own (h : Client σ) (c : HeapCall σ) : Prop :=
  (∀ s others, c ≠ .world s others) ∧ c.Allowed H Ok top h

/-- Whether a user may make a call can be decided if its conditions can. -/
def HeapCall.ownDecidable {call : HeapCall σ} (hcall : ∀ s others, call ≠ .world s others)
    (hd : Decidable (call.Allowed H Ok top h)) : Decidable (call.Own H Ok top h) :=
  decidable_of_iff (call.Allowed H Ok top h) (and_iff_right hcall).symm

instance HeapCall.Own.decidable (h : Client σ) (call : HeapCall σ) : Decidable (call.Own H Ok top h) :=
  HeapCall.casesOn (motive := fun call => Decidable (call.Own H Ok top h)) call
    (fun size => ownDecidable (fun _ _ heq => by cases heq)
      (inferInstanceAs (Decidable (size + 80 ≤ top * lPageSize))))
    (fun nobj size => ownDecidable (fun _ _ heq => by cases heq)
      (inferInstanceAs (Decidable (nobj * size + 80 ≤ top * lPageSize))))
    (fun p size => ownDecidable (fun _ _ heq => by cases heq)
      (inferInstanceAs (Decidable (size + 80 ≤ top * lPageSize ∧ (p = 0 ∨ p ∈ addrs h.blocks)))))
    (fun p => ownDecidable (fun _ _ heq => by cases heq)
      (inferInstanceAs (Decidable (p = 0 ∨ p ∈ addrs h.blocks))))
    (fun p i _ => ownDecidable (fun _ _ heq => by cases heq)
      (decidable_of_iff (∃ x ∈ h.blocks, x.1 = p ∧ i < x.2.length)
        ⟨fun ⟨x, hx, hp, hi⟩ => ⟨x.2, hp ▸ hx, hi⟩, fun ⟨_, hx, hi⟩ => ⟨_, hx, rfl, hi⟩⟩))
    (fun s others => .isFalse fun hown => hown.1 s others rfl)

variable (H) in
/-- What belongs to others when they have made `s` of the system: all bytes but those of the allocator. -/
def Client.othersIn (h : Client σ) (s : σ) (b : ℕ) : Option UInt8 :=
  if h.others b = none ∧ H.load h.heap.sys b ≠ none then none else H.load s b

/-- Others may take pages, too. -/
theorem HeapCall.allowed_alloc (hH : H.Lawful v Ok top) (hok : Ok h.heap.sys) (hn : n ≤ top)
    (hrun : H.liballocAlloc h.heap.sys n = .ok (r, s)) (hr : r ≠ 0) :
    (HeapCall.world s (h.othersIn H s)).Allowed H Ok top h := by
  obtain ⟨hok', -, -, hnew, hsame⟩ := hH.fresh _ _ _ _ hok hn hrun hr
  exact ⟨hok', fun b hb => ⟨hsame b fun hin => hb.2 (hnew b hin).1, if_pos hb⟩, fun b hb => (if_neg hb).symm⟩

/-- A run of users' calls in the middle of which others take pages. -/
theorem Client.Fresh.interrupted (hH : H.Lawful v Ok top) (hfresh : h.Fresh H Ok) {cs ds : List (HeapCall σ)}
    {P : Client σ → Prop} (hn : n ≤ top)
    (hrun : Runs (Client.call H v) (fun h c => c.Own H Ok top h) (fun h =>
      OkAnd (H.liballocAlloc h.heap.sys n) fun x => x.1 ≠ 0 ∧
        Runs (Client.call H v) (fun h c => c.Own H Ok top h) P ds
          ⟨{ h.heap with sys := x.2 }, h.blocks, h.othersIn H x.2⟩) cs h) :
    ∃ s others h', Admits (Client.call H v) (fun h c => c.Allowed H Ok top h)
        (cs ++ .world s others :: ds) h ∧
      runAll (Client.call H v) (cs ++ .world s others :: ds) h = .ok h' ∧ P h' := by
  have hown : ∀ (h : Client σ) (c : HeapCall σ), c.Own H Ok top h → c.Allowed H Ok top h :=
    fun _ _ hc => hc.2
  obtain ⟨hadm, t, ht, hP⟩ := hrun.runAll
  obtain ⟨⟨a, s⟩, halloc, ha, hrest⟩ := hP.exists_ok
  obtain ⟨hadm', h', ht', hP'⟩ := hrest.runAll
  have hadm := hadm.mono hown
  obtain ⟨L, hinv, -⟩ := hfresh.run hH hadm ht
  have hworld := HeapCall.allowed_alloc hH hinv.ok hn halloc ha
  refine ⟨s, t.othersIn H s, h', hadm.append fun u hu => ?_, ?_, hP'⟩
  · obtain rfl := Except.ok.inj (ht.symm.trans hu)
    refine ⟨hworld, fun w hw => ?_⟩
    obtain rfl := Except.ok.inj hw
    exact hadm'.mono hown
  · rw [runAll_append, ht, ok_bind]
    exact ht'

/-- A user who gets the pointer `p` for 20 bytes stores a letter there. -/
def firstCalls (p : ℕ) : List (HeapCall σ) := [.malloc 20, .store p 7 0x41]

/-- The same user gets a piece of zeros behind the first one, which then has to move to grow, and frees
the zeros again. -/
def laterCalls (p : ℕ) : List (HeapCall σ) := [.calloc 4 8, .realloc p 300, .free (p + 0x50)]

/-- The piece that has moved holds the letter. -/
def Client.HasLetter (p : ℕ) (h : Client σ) : Prop :=
  h.blocks.map (fun x => (x.1, x.2.length, x.2[7]?)) = [(p + 0xB0, 300, some 0x41)]

instance (p : ℕ) (h : Client σ) : Decidable (h.HasLetter p) := inferInstanceAs (Decidable (_ = _))

/-- Whatever the users do, the allocator keeps its promises until the system has no pages. -/
theorem liballoc_serves (hH : H.Lawful v Ok top) (hfresh : h.Fresh H Ok) {cs : List (HeapCall σ)}
    (hadm : Admits (Client.call H v) (fun h c => c.Allowed H Ok top h) cs h) :
    (∃ h', runAll (Client.call H v) cs h = .ok h' ∧ h'.Sound H) ∨
    ∃ done c rest h', cs = done ++ c :: rest ∧ runAll (Client.call H v) done h = .ok h' ∧
      h'.Sound H ∧ (∃ e, h'.call H v c = .error e) ∧ c.Refused H h' := by
  have hstep : ∀ (h : Client σ) (c : HeapCall σ), h.Inv H v Ok → c.Allowed H Ok top h →
      StepOk H v Ok h c := fun h c hI hc => Client.step hH hI hc
  rcases runAll_stops hstep hfresh.inv hadm with ⟨h', hrun, hI⟩ | ⟨done, c, rest, h', hcs, hrun, hI, hno⟩
  · exact .inl ⟨h', hrun, hI.sound⟩
  · exact .inr ⟨done, c, rest, h', hcs, hrun, hI.sound, hno⟩

end GalaxyOS
