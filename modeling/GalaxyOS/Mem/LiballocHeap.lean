import GalaxyOS.Lib.Layout
import GalaxyOS.Lib.Linked
import GalaxyOS.Mem.Liballoc

/-! # The blocks of the allocator

A heap is a list of blocks, each with the list of its pieces that are in use, in the order of their
addresses.  `HeapInv` says that the structures in the memory describe such a heap: the links lead from
block to block and from piece to piece, and each block knows how much of it is in use.

The geometry comes from `Fits`, which is about one block: `Fits.insert` and `Fits.erase` keep the pieces in
order, and `Geometry.headers_apart` says that a store to one structure leaves the others alone. -/

namespace GalaxyOS

open Transition Records Linked

/-- A piece of a block: its structure is at `addr`, `size` bytes follow, and `req` of them were asked
for. -/
structure Chunk where
  addr : ℕ
  size : ℕ
  req : ℕ
deriving DecidableEq

/-- A block of pages with its pieces. -/
structure Pool where
  addr : ℕ
  pages : ℕ
  chunks : List Chunk

/-- The end of the piece. -/
def Chunk.fin (c : Chunk) : ℕ := c.addr + sizeofMinor + c.size

/-- The pointer that the caller has. -/
def Chunk.ptr (c : Chunk) : ℕ :=
  c.addr + sizeofMinor + alignInfo + alignDiff (c.addr + sizeofMinor + alignInfo)

def Pool.fin (P : Pool) : ℕ := P.addr + P.pages * lPageSize

/-- The first address behind the structure of the block. -/
def Pool.start (P : Pool) : ℕ := P.addr + sizeofMajor

/-! ### Pieces in order -/

/-- The pieces lie between two addresses, one behind the other. -/
def Fits (lo hi : ℕ) : List Chunk → Prop
  | [] => lo ≤ hi
  | c :: l => lo ≤ c.addr ∧ Fits c.fin hi l

/-- The room in front of each of the pieces, and behind the last one. -/
def gaps (lo hi : ℕ) : List Chunk → List ℕ
  | [] => [hi - lo]
  | c :: l => (c.addr - lo) :: gaps c.fin hi l

/-- What the pieces take, their structures included. -/
def used : List Chunk → ℕ
  | [] => 0
  | c :: l => c.size + sizeofMinor + used l

/-- Where the pieces end. -/
def lastEnd (lo : ℕ) : List Chunk → ℕ
  | [] => lo
  | c :: l => lastEnd c.fin l

/-- Where the pieces start. -/
def firstStart (hi : ℕ) : List Chunk → ℕ
  | [] => hi
  | c :: _ => c.addr

variable {lo hi n : ℕ} {c d : Chunk} {l m₁ m₂ : List Chunk} {P Q : Pool}

theorem fits_append : ∀ {m₁ : List Chunk} {lo : ℕ}, Fits lo hi (m₁ ++ d :: m₂) ↔
    Fits lo d.addr m₁ ∧ Fits d.fin hi m₂
  | [], _ => Iff.rfl
  | c :: m₁, lo => by
      have hrest : Fits c.fin hi (m₁ ++ d :: m₂) ↔ Fits c.fin d.addr m₁ ∧ Fits d.fin hi m₂ :=
        fits_append
      simp only [List.cons_append, Fits, hrest, and_assoc]

theorem gaps_append : ∀ {m₁ : List Chunk} {lo : ℕ}, gaps lo hi (m₁ ++ d :: m₂) =
    gaps lo d.addr m₁ ++ gaps d.fin hi m₂
  | [], _ => rfl
  | c :: m₁, lo => by
      have hrest : gaps c.fin hi (m₁ ++ d :: m₂) = gaps c.fin d.addr m₁ ++ gaps d.fin hi m₂ := gaps_append
      simp only [List.cons_append, gaps, hrest]

theorem used_cons (c : Chunk) (l : List Chunk) : used (c :: l) = c.size + sizeofMinor + used l := rfl

theorem used_append : ∀ {m₁ : List Chunk}, used (m₁ ++ m₂) = used m₁ + used m₂
  | [] => (Nat.zero_add _).symm
  | c :: m₁ => by
      have hrest : used (m₁ ++ m₂) = used m₁ + used m₂ := used_append
      simp only [List.cons_append, used, hrest, Nat.add_assoc]

theorem Fits.le : ∀ {l : List Chunk} {lo : ℕ}, Fits lo hi l → lo + used l ≤ hi
  | [], _, h => h
  | c :: l, lo, ⟨hlo, h⟩ => by
      have hrest := h.le
      unfold Chunk.fin at hrest
      unfold used
      omega

theorem Fits.inside : ∀ {l : List Chunk} {lo : ℕ}, Fits lo hi l → c ∈ l → lo ≤ c.addr ∧ c.fin ≤ hi
  | d :: l, lo, ⟨hlo, h⟩, hc => by
      cases List.mem_cons.mp hc with
      | inl heq =>
          rw [heq]
          have hrest := h.le
          exact ⟨hlo, by omega⟩
      | inr hmem =>
          have hin := h.inside hmem
          unfold Chunk.fin at hin ⊢
          exact ⟨by omega, hin.2⟩

/-- What is free between the pieces. -/
theorem Fits.gap_le : ∀ {l : List Chunk} {lo g : ℕ}, Fits lo hi l → g ∈ gaps lo hi l →
    lo + used l + g ≤ hi
  | [], lo, g, h, hg => by
      have heq := List.mem_singleton.mp hg
      unfold Fits at h
      unfold used
      omega
  | c :: l, lo, g, ⟨hlo, h⟩, hg => by
      have hrest := h.le
      unfold Chunk.fin at hrest
      unfold used
      cases List.mem_cons.mp hg with
      | inl heq => omega
      | inr hmem =>
          have hgap := h.gap_le hmem
          unfold Chunk.fin at hgap
          omega

theorem Fits.length (h : Fits lo hi l) : l.length * sizeofMinor ≤ hi - lo := by
  have hle := h.le
  have hlen : ∀ l : List Chunk, l.length * sizeofMinor ≤ used l := by
    intro l
    induction l with
    | nil => simp
    | cons c l ih =>
        rw [List.length_cons, Nat.succ_mul]
        unfold used
        omega
  have := hlen l
  omega

theorem Fits.apart : ∀ {l : List Chunk} {lo : ℕ}, Fits lo hi l → c ∈ l → d ∈ l → c ≠ d →
    c.fin ≤ d.addr ∨ d.fin ≤ c.addr
  | e :: l, lo, ⟨_, h⟩, hc, hd, hne => by
      cases List.mem_cons.mp hc with
      | inl hce =>
          cases List.mem_cons.mp hd with
          | inl hde => exact absurd (hce.trans hde.symm) hne
          | inr hdl => exact .inl (hce ▸ (h.inside hdl).1)
      | inr hcl =>
          cases List.mem_cons.mp hd with
          | inl hde => exact .inr (hde ▸ (h.inside hcl).1)
          | inr hdl => exact h.apart hcl hdl hne

theorem Fits.nodup : ∀ {l : List Chunk} {lo : ℕ}, Fits lo hi l → (l.map Chunk.addr).Nodup
  | [], _, _ => List.nodup_nil
  | c :: l, lo, ⟨_, h⟩ => by
      rw [List.map_cons, List.nodup_cons]
      refine ⟨fun hmem => ?_, h.nodup⟩
      obtain ⟨d, hd, heq⟩ := List.mem_map.mp hmem
      have hlow := (h.inside hd).1
      unfold Chunk.fin sizeofMinor at hlow
      omega

theorem lastEnd_snoc : ∀ {l : List Chunk} {lo : ℕ}, lastEnd lo (l ++ [c]) = c.fin
  | [], _ => rfl
  | _ :: l, _ => lastEnd_snoc (l := l)

theorem fits_split : ∀ {m₁ : List Chunk} {lo : ℕ}, Fits lo hi (m₁ ++ m₂) ↔
    Fits lo (lastEnd lo m₁) m₁ ∧ Fits (lastEnd lo m₁) hi m₂
  | [], _ => ⟨fun h => ⟨Nat.le_refl _, h⟩, fun h => h.2⟩
  | c :: m₁, lo => by
      have hrest : Fits c.fin hi (m₁ ++ m₂) ↔
          Fits c.fin (lastEnd c.fin m₁) m₁ ∧ Fits (lastEnd c.fin m₁) hi m₂ := fits_split
      simp only [List.cons_append, Fits, lastEnd, hrest, and_assoc]

/-- A piece is put into the room between two others. -/
theorem Fits.insert (h : Fits lo hi (m₁ ++ m₂)) (haddr : c.addr = lastEnd lo m₁)
    (hfin : c.fin ≤ firstStart hi m₂) : Fits lo hi (m₁ ++ c :: m₂) := by
  obtain ⟨h₁, h₂⟩ := fits_split.mp h
  refine fits_append.mpr ⟨haddr ▸ h₁, ?_⟩
  cases m₂ with
  | nil => exact hfin
  | cons d m₂ => exact ⟨hfin, h₂.2⟩

/-- The pieces fill the room up to their end. -/
theorem Fits.lastEnd_le : ∀ {l : List Chunk} {lo : ℕ}, Fits lo hi l →
    Fits lo (lastEnd lo l) l ∧ lastEnd lo l ≤ hi
  | [], _, h => ⟨Nat.le_refl _, h⟩
  | d :: l, lo, h => by
      obtain ⟨hl, hle⟩ := Fits.lastEnd_le h.2
      exact ⟨⟨h.1, hl⟩, hle⟩

/-- A piece is taken out. -/
theorem Fits.erase (h : Fits lo hi (m₁ ++ c :: m₂)) : Fits lo hi (m₁ ++ m₂) := by
  obtain ⟨h₁, h₂⟩ := fits_append.mp h
  obtain ⟨hm, hle⟩ := h₁.lastEnd_le
  refine fits_split.mpr ⟨hm, ?_⟩
  cases m₂ with
  | nil =>
      unfold Fits at h₂ ⊢
      unfold Chunk.fin at h₂
      omega
  | cons d m₂ =>
      refine ⟨?_, h₂.2⟩
      have hd := h₂.1
      unfold Chunk.fin at hd
      omega

/-! ### The pointer of a piece -/

theorem alignDiff_spec (p : ℕ) : (p + alignDiff p) % 16 = 0 ∧ alignDiff p < 16 := by
  unfold alignDiff alignment
  split_ifs <;> omega

theorem Chunk.ptr_spec (c : Chunk) : c.ptr % 16 = 0 ∧ c.addr + 40 ≤ c.ptr ∧ c.ptr ≤ c.addr + 55 := by
  have h := alignDiff_spec (c.addr + sizeofMinor + alignInfo)
  unfold Chunk.ptr
  unfold sizeofMinor alignInfo at h ⊢
  omega

/-- The part of the piece that the caller may use. -/
theorem Chunk.ptr_inside (h : c.req + 32 ≤ c.size) : c.ptr + c.req < c.fin := by
  have hptr := c.ptr_spec
  unfold Chunk.fin sizeofMinor
  omega

/-! ### Heaps -/

/-- The blocks are made of pages and do not overlap, and the pieces of each block lie in it. -/
structure Geometry (L : List Pool) : Prop where
  blocks : Layout.Disjoint lPageSize 0x100000000 (L.map fun P => (P.addr, P.pages * lPageSize))
  pages : ∀ P ∈ L, lPageCount ≤ P.pages ∧ P.addr % lPageSize = 0
  fits : ∀ P ∈ L, Fits P.start P.fin P.chunks
  room : ∀ P ∈ L, ∀ c ∈ P.chunks, c.req + (alignment + alignInfo) ≤ c.size

/-- The addresses of the structures. -/
def headers (L : List Pool) : Set ℕ := {a | ∃ P ∈ L, a = P.addr ∨ ∃ c ∈ P.chunks, a = c.addr}

variable {L L₁ L₂ : List Pool} {w w' : ℕ → ℕ → ℕ} {root a b : ℕ}

theorem Pool.mem_headers (hP : P ∈ L) : P.addr ∈ headers L := ⟨P, hP, .inl rfl⟩

theorem Chunk.mem_headers (hP : P ∈ L) (hc : c ∈ P.chunks) : c.addr ∈ headers L :=
  ⟨P, hP, .inr ⟨c, hc, rfl⟩⟩

theorem Geometry.bounds (h : Geometry L) (hP : P ∈ L) :
    0x1000 ≤ P.addr ∧ P.addr + 0x10000 ≤ P.fin ∧ P.fin ≤ 0x100000000 := by
  obtain ⟨hlo, hhi⟩ := h.blocks.inside (P.addr, P.pages * lPageSize) (List.mem_map_of_mem hP)
  have hpages := (h.pages P hP).1
  unfold Pool.fin lPageCount at *
  unfold lPageSize at *
  omega

theorem Geometry.chunk (h : Geometry L) (hP : P ∈ L) (hc : c ∈ P.chunks) :
    P.addr + 24 ≤ c.addr ∧ c.fin ≤ P.fin ∧ c.req + 32 ≤ c.size :=
  ⟨((h.fits P hP).inside hc).1, ((h.fits P hP).inside hc).2, h.room P hP c hc⟩

theorem Geometry.apart (h : Geometry L) (hP : P ∈ L) (hQ : Q ∈ L) (hne : P ≠ Q) :
    P.fin ≤ Q.addr ∨ Q.fin ≤ P.addr := by
  have hpair := List.pairwise_map.mp h.blocks.apart
  have hsym : Std.Symm fun P Q : Pool => Layout.Apart (P.addr, P.pages * lPageSize)
      (Q.addr, Q.pages * lPageSize) := ⟨fun _ _ hPQ => hPQ.symm⟩
  exact hpair.forall hP hQ hne

theorem Geometry.nodup (h : Geometry L) : (L.map Pool.addr).Nodup := by
  apply List.pairwise_map.mpr
  apply (List.pairwise_map.mp h.blocks.apart).imp_of_mem
  intro P Q hP hQ hPQ heq
  have hP := h.bounds hP
  have hQ := h.bounds hQ
  unfold Pool.fin at hP hQ
  unfold Layout.Apart at hPQ
  simp only at hPQ
  omega

/-- A structure lies in its block. -/
theorem Geometry.header (h : Geometry L) (ha : a ∈ headers L) :
    ∃ P ∈ L, P.addr ≤ a ∧ a + 24 ≤ P.fin := by
  obtain ⟨P, hP, heq | ⟨c, hc, heq⟩⟩ := ha
  · have hP' := h.bounds hP
    exact ⟨P, hP, by omega, by omega⟩
  · have hc' := h.chunk hP hc
    unfold Chunk.fin sizeofMinor at hc'
    exact ⟨P, hP, by omega, by omega⟩

/-- The structures do not overlap. -/
theorem Geometry.headers_apart (h : Geometry L) (ha : a ∈ headers L) (hb : b ∈ headers L)
    (hne : a ≠ b) : a + 24 ≤ b ∨ b + 24 ≤ a := by
  by_cases hsame : ∃ P ∈ L, (a = P.addr ∨ ∃ c ∈ P.chunks, a = c.addr) ∧
      (b = P.addr ∨ ∃ c ∈ P.chunks, b = c.addr)
  · obtain ⟨P, hP, rfl | ⟨c, hc, rfl⟩, rfl | ⟨d, hd, rfl⟩⟩ := hsame
    · exact absurd rfl hne
    · exact .inl (h.chunk hP hd).1
    · exact .inr (h.chunk hP hc).1
    · have hcd := (h.fits P hP).apart hc hd fun heq => hne (congrArg Chunk.addr heq)
      unfold Chunk.fin sizeofMinor at hcd
      omega
  · obtain ⟨P, hP, haP⟩ := ha
    obtain ⟨Q, hQ, hbQ⟩ := hb
    have hPQ : P ≠ Q := by
      rintro rfl
      exact hsame ⟨P, hP, haP, hbQ⟩
    have hapart := h.apart hP hQ hPQ
    have inside : ∀ {R : Pool} {x : ℕ}, R ∈ L → (x = R.addr ∨ ∃ c ∈ R.chunks, x = c.addr) →
        R.addr ≤ x ∧ x + 24 ≤ R.fin := by
      intro R x hR hx
      have hb := h.bounds hR
      cases hx with
      | inl heq => omega
      | inr hex =>
          obtain ⟨c, hc, rfl⟩ := hex
          have hc' := h.chunk hR hc
          unfold Chunk.fin sizeofMinor at hc'
          omega
    have ha' := inside hP haP
    have hb' := inside hQ hbQ
    omega

/-- A piece that is not the first has a structure of its own. -/
theorem Geometry.chunk_ne_pool (h : Geometry L) (hP : P ∈ L) (hc : c ∈ P.chunks) (hQ : Q ∈ L) :
    c.addr ≠ Q.addr := by
  intro heq
  have hc' := h.chunk hP hc
  by_cases hPQ : P = Q
  · rw [← hPQ] at heq
    omega
  · have hapart := h.apart hP hQ hPQ
    have hQ' := h.bounds hQ
    unfold Chunk.fin sizeofMinor at hc'
    omega

/-- The words of the structures of a block and of its pieces. -/
structure PoolRep (w : ℕ → ℕ → ℕ) (P : Pool) : Prop where
  pages : w P.addr 2 = P.pages
  size : w P.addr 3 = P.pages * lPageSize
  usage : w P.addr 4 = sizeofMajor + used P.chunks
  first : w P.addr 5 = (P.chunks.map Chunk.addr).headD 0
  chain : Seg (w · 1) (w · 0) 0 (P.chunks.map Chunk.addr) 0
  chunk : ∀ c ∈ P.chunks, w c.addr 2 = P.addr ∧ w c.addr 3 = liballocMagic ∧ w c.addr 4 = c.size ∧
    w c.addr 5 = c.req

/-- The words of all structures. -/
structure HeapRep (w : ℕ → ℕ → ℕ) (root : ℕ) (L : List Pool) : Prop where
  root : root = (L.map Pool.addr).headD 0
  chain : Seg (w · 1) (w · 0) 0 (L.map Pool.addr) 0
  pool : ∀ P ∈ L, PoolRep w P

/-- The bytes of all blocks together. -/
def poolBytes : List Pool → ℕ
  | [] => 0
  | P :: L => P.pages * lPageSize + poolBytes L

/-- The bytes of all pieces together. -/
def chunkBytes : List Chunk → ℕ
  | [] => 0
  | c :: l => c.size + chunkBytes l

/-- All pieces. -/
def chunksOf (L : List Pool) : List Chunk := L.flatMap Pool.chunks

/-- The words of the structures `D` are `w`, and the system is in order. -/
structure HeapHolds {σ : Type} (H : LiballocHooks σ) (Ok : σ → Prop) (D : Set ℕ) (w : ℕ → ℕ → ℕ)
    (s : σ) : Prop where
  ok : Ok s
  table : Table H.toBytes 6 D w s

/-- The allocator has the heap `L`: its structures are in the memory, every byte of its blocks is
there, each pointer has its distance noted in front of it, and the totals are right. -/
structure HeapInv {σ : Type} (H : LiballocHooks σ) (Ok : σ → Prop) (st : Liballoc σ)
    (L : List Pool) : Prop where
  geometry : Geometry L
  rep : ∃ w, HeapHolds H Ok (headers L) w st.sys ∧ HeapRep w st.memRoot L
  mapped : ∀ P ∈ L, H.Mapped st.sys P.addr (P.pages * lPageSize)
  aligns : ∀ c ∈ chunksOf L,
    H.load st.sys (c.ptr - alignInfo) = some (UInt8.ofNat (c.ptr - (c.addr + sizeofMinor)))
  best : st.bestBet = 0 ∨ st.bestBet ∈ L.map Pool.addr
  allocated : st.allocated = poolBytes L
  inuse : st.inuse = chunkBytes (chunksOf L)

end GalaxyOS
