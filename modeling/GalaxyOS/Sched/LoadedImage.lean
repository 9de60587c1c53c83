import GalaxyOS.Sched.Exhaustion
import GalaxyOS.Sched.Loading

/-! # A program that has been loaded

What `pload_load_process` leaves of an image whose segments lie inside the file, on pages of their own
and below the stack region.  `Loaded` is what holds of the segments that have been loaded so far: the
pages of the address space are theirs, and every byte of them is the byte of the file or zero.

The loader maps as many pages as the size of a segment needs, from the page of its start on.  A segment
that runs over the end of the last one stores to a page that is not mapped, and is never loaded.

`ploadLoadProcess_faithful` says what is behind every address then.  `Loaded.segment` adds one segment,
from `LoadSpace.mapSegment` for its pages and `Loaded.covered` for its bytes, and `Loaded.segments` goes
through the headers. -/

namespace GalaxyOS

open Transition

/-! ### Images -/

/-- The program header at the offset `off`. -/
def progHeader (data : List UInt8) (off : ℕ) : ProgHeader :=
  ⟨leBytes data off 4, leBytes data (off + 4) 4, leBytes data (off + 8) 4, leBytes data (off + 16) 4,
    leBytes data (off + 20) 4⟩

/-- The `PT_LOAD` headers among the `n` headers from the one with the number `i` on. -/
def segmentsFrom (data : List UInt8) (phoff phentsize : ℕ) (i : ℕ) : ℕ → List ProgHeader
  | 0 => []
  | n + 1 =>
      let ph := progHeader data (phdrOffset phoff phentsize i)
      if ph.type = ptLoad then ph :: segmentsFrom data phoff phentsize (i + 1) n
      else segmentsFrom data phoff phentsize (i + 1) n

/-- The segments of the image: `e_phnum` headers of `e_phentsize` bytes from `e_phoff` on. -/
def segments (data : List UInt8) : List ProgHeader :=
  segmentsFrom data (leBytes data 28 4) (leBytes data 42 2) 0 (leBytes data 44 2)

namespace ProgHeader

/-- Where the segment ends in memory. -/
def segEnd (ph : ProgHeader) : ℕ := ph.vaddr + ph.memsz

/-- What the byte `k` of the segment is to be. -/
def byte (ph : ProgHeader) (data : List UInt8) (k : ℕ) : UInt8 :=
  if k < ph.filesz then data.getD (ph.offset + k) 0 else 0

/-- The region that the loader records. -/
def region (ph : ProgHeader) : PsRegion := ⟨ph.vaddr, ph.pagecnt * 0x1000⟩

/-- The segment lies inside the file and below the stack region. -/
structure Placed (ph : ProgHeader) (data : List UInt8) : Prop where
  size : ph.filesz ≤ ph.memsz
  file : ph.offset + ph.filesz ≤ data.length
  below : ph.segEnd ≤ 767 * 0x400000

/-- The segments have no page in common. -/
def Apart (ph q : ProgHeader) : Prop :=
  ∀ x y, ph.vaddr ≤ x → x < ph.segEnd → q.vaddr ≤ y → y < q.segEnd → x / 0x1000 ≠ y / 0x1000

theorem mul_pagecnt (ph : ProgHeader) {i : ℕ} (hi : i < ph.pagecnt) : 0x1000 * i < ph.memsz := by
  unfold pagecnt at hi
  split_ifs at hi <;> omega

theorem pagecnt_mul (ph : ProgHeader) : ph.pagecnt * 0x1000 < ph.memsz + 0x1000 := by
  unfold pagecnt
  split_ifs <;> omega

/-- Every page of a segment holds one of its bytes. -/
theorem mem_pages {ph : ProgHeader} {q : ℕ} (h : q ∈ ph.pages) :
    ∃ x, ph.vaddr ≤ x ∧ x < ph.segEnd ∧ x / 0x1000 = q := by
  obtain ⟨i, hi, rfl⟩ := List.mem_map.mp h
  have hlt := ph.mul_pagecnt (List.mem_range.mp hi)
  unfold segEnd
  exact ⟨ph.vaddr + 0x1000 * i, by omega, by omega, by omega⟩

theorem mem_pages_iff {ph : ProgHeader} {q : ℕ} :
    q ∈ ph.pages ↔ ∃ j < ph.pagecnt, q = ph.vaddr / 0x1000 + j := by
  unfold pages
  rw [List.mem_map]
  constructor
  · rintro ⟨j, hj, rfl⟩
    exact ⟨j, List.mem_range.mp hj, rfl⟩
  · rintro ⟨j, hj, rfl⟩
    exact ⟨j, List.mem_range.mpr hj, rfl⟩

end ProgHeader

/-! ### The segments loaded so far -/

variable {role : ℕ → Role} {K : ℕ → ℕ} {data : List UInt8} {d : ℕ} {done : List ProgHeader}
  {st st' : LoadState} {ph : ProgHeader}

/-- The pages of the directory `d` are those that this load has mapped. -/
structure LoadSpace (role : ℕ → Role) (K : ℕ → ℕ) (d : ℕ) (st : LoadState) : Prop where
  space : AddressSpace role K st.mem
  cr3 : st.mem.cr3 = d
  pages : ∀ b < kernelStart, pageEntry st.mem d b ≠ none ↔ b / 0x1000 ∈ st.mapped

/-- The segments `done` have been loaded into the directory `d`, which had no user page before. -/
structure Loaded (role : ℕ → Role) (K : ℕ → ℕ) (data : List UInt8) (d : ℕ) (done : List ProgHeader)
    (st : LoadState) : Prop where
  loadSpace : LoadSpace role K d st
  mapped : st.mapped = done.flatMap ProgHeader.pages
  psregions : st.psregions = done.map ProgHeader.region
  bytes : ∀ ph ∈ done, ∀ k < ph.memsz, userByte st.mem d (ph.vaddr + k) = some (ph.byte data k)
  endAllocatedData : st.endAllocatedData = (done.map ProgHeader.segEnd).foldl max 0

/-- A page of a segment apart from those loaded is not mapped yet. -/
theorem Loaded.fresh {b : ℕ} (h : Loaded role K data d done st) (hapart : ∀ q ∈ done, ph.Apart q)
    (h1 : ph.vaddr ≤ b) (h2 : b < ph.segEnd) : b / 0x1000 ∉ st.mapped := by
  rw [h.mapped]
  intro hmem
  obtain ⟨q, hq, hpage⟩ := List.mem_flatMap.mp hmem
  obtain ⟨y, h3, h4, hy⟩ := ProgHeader.mem_pages hpage
  exact hapart q hq b y h1 h2 h3 h4 hy.symm

/-- The monitor stops a store to a page that this load has not mapped. -/
def ChecksWrites (policy : LoaderAccess → Prop) : Prop :=
  ∀ addr len mapped, policy (.write addr len mapped) → inPages mapped addr len

theorem memoryPolicy_writes : ChecksWrites memoryPolicy := fun _ _ _ h => h

variable {policy : LoaderAccess → Prop} [DecidablePred policy]

theorem access_ok {x : LoaderAccess} {u : Unit} (h : access policy x = .ok u) : policy x := by
  unfold access at h
  split_ifs at h with ha
  exact ha

/-- What loading a segment does, if its pages can be mapped. -/
theorem loadSegment_inv (h : loadSegment policy data st ph = .ok (true, st')) :
    ∃ pages m₁ m₂, pmmAllocPages st.mem ph.pagecnt = .ok (pages, m₁) ∧
      vmmMapPagesLoc policy m₁ ph.vaddr 0x7 pages = .ok (true, m₂) ∧
      policy (.write ph.vaddr ph.filesz (st.mapped ++ ph.pages)) ∧
      policy (.write (wrap32 (ph.vaddr + ph.filesz)) (wrap32 (ph.memsz + 0x100000000 - ph.filesz))
        (st.mapped ++ ph.pages)) ∧
      st'.mem = storeBytes (storeBytes m₂ ph.vaddr ((data.drop ph.offset).take ph.filesz))
        (wrap32 (ph.vaddr + ph.filesz))
        (List.replicate (wrap32 (ph.memsz + 0x100000000 - ph.filesz)) 0) ∧
      st'.mapped = st.mapped ++ ph.pages ∧
      st'.psregions = st.psregions ++ [⟨ph.vaddr, wrap32 (ph.pagecnt * 0x1000)⟩] ∧
      st'.endAllocatedData = if st.endAllocatedData < wrap32 (ph.memsz + ph.vaddr) then
        wrap32 (ph.memsz + ph.vaddr) else st.endAllocatedData := by
  simp only [loadSegment, bind_ok, Prod.exists] at h
  obtain ⟨-, -, pages, m₁, hpop, ok, m₂, hmap, h⟩ := h
  by_cases hfail : (!ok) = true ∨ ph.vaddr = 0
  · rw [if_pos hfail] at h
    cases (Prod.mk.inj (Except.ok.inj h)).1
  · rw [if_neg hfail] at h
    simp only [bind_ok, Except.ok.injEq, Prod.mk.injEq] at h
    obtain ⟨_, -, _, hwrite, _, hzero, _, -, -, rfl⟩ := h
    have hok : ok = true := by
      cases ok with
      | true => rfl
      | false => exact absurd (.inl rfl) hfail
    subst hok
    exact ⟨pages, m₁, m₂, hpop, hmap, access_ok hwrite, access_ok hzero, rfl, rfl, rfl, rfl⟩

/-! ### The bytes of a segment -/

/-- The memory after the bytes of the segment have been stored. -/
def ProgHeader.stored (ph : ProgHeader) (data : List UInt8) (m : Mem) : Mem :=
  storeBytes (storeBytes m ph.vaddr ((data.drop ph.offset).take ph.filesz)) (ph.vaddr + ph.filesz)
    (List.replicate (ph.memsz - ph.filesz) 0)

/-- Stores change nothing but the contents of pages. -/
theorem storeBytes_twice (m : Mem) (addr addr' : ℕ) (bs bs' : List UInt8) :
    ∃ bytes, storeBytes (storeBytes m addr bs) addr' bs' = { m with data := bytes } := by
  obtain ⟨first, hfirst⟩ := storeBytes_eq m addr bs
  obtain ⟨second, hsecond⟩ := storeBytes_eq { m with data := first } addr' bs'
  refine ⟨second, ?_⟩
  rw [hfirst, hsecond]

theorem ProgHeader.Placed.stored_byte {m : Mem} (hph : ph.Placed data) (h : AddressSpace role K m)
    (hpages : ∀ k < ph.memsz, pageEntry m m.cr3 (ph.vaddr + k) ≠ none) {b : ℕ} (hb : b < kernelStart) :
    userByte (ph.stored data m) m.cr3 b =
      if ph.vaddr ≤ b ∧ b < ph.segEnd then some (ph.byte data (b - ph.vaddr))
      else userByte m m.cr3 b := by
  have hsize := hph.size
  have hfile := hph.file
  have hbelow := hph.below
  unfold ProgHeader.segEnd at hbelow ⊢
  have hlen : ((data.drop ph.offset).take ph.filesz).length = ph.filesz := by
    rw [List.length_take, List.length_drop]
    omega
  have hstart : kernelStart = 768 * 0x400000 := by decide
  have hfirst := h.storeBytes (b := b)
    (show ph.vaddr + ((data.drop ph.offset).take ph.filesz).length ≤ kernelStart by omega)
    (fun k hk => hpages k (by omega)) hb
  obtain ⟨bytes, hbytes⟩ := storeBytes_eq m ph.vaddr ((data.drop ph.offset).take ph.filesz)
  unfold ProgHeader.stored
  rw [hlen] at hfirst
  rw [hbytes] at hfirst ⊢
  have hpages' : ∀ k < (List.replicate (ph.memsz - ph.filesz) (0 : UInt8)).length,
      pageEntry m m.cr3 (ph.vaddr + ph.filesz + k) ≠ none := by
    intro k hk
    rw [List.length_replicate] at hk
    rw [Nat.add_assoc]
    exact hpages _ (by omega)
  have hsecond := (h.setData bytes).storeBytes (b := b)
    (by rw [List.length_replicate]; omega) hpages' hb
  rw [List.length_replicate] at hsecond
  refine hsecond.trans ?_
  by_cases hzero : ph.vaddr + ph.filesz ≤ b ∧ b < ph.vaddr + ph.filesz + (ph.memsz - ph.filesz)
  · rw [if_pos hzero, if_pos (by omega), List.getElem?_replicate, if_pos (by omega)]
    unfold ProgHeader.byte
    rw [if_neg (by omega)]
  · rw [if_neg hzero]
    refine hfirst.trans ?_
    by_cases hin : ph.vaddr ≤ b ∧ b < ph.vaddr + ph.filesz
    · rw [if_pos hin, if_pos (by omega), List.getElem?_take_of_lt (by omega), List.getElem?_drop]
      unfold ProgHeader.byte
      rw [if_pos (by omega), List.getD_eq_getElem?_getD,
        List.getElem?_eq_getElem (show ph.offset + (b - ph.vaddr) < data.length by omega),
        Option.getD_some]
    · rw [if_neg hin, if_neg (by omega)]

/-! ### Loading a segment -/

theorem userByte_congr {m m' : Mem} {b : ℕ} (hpage : pageEntry m' d b = pageEntry m d b)
    (hdata : m'.data = m.data) : userByte m' d b = userByte m d b := by
  unfold userByte userCell
  rw [hpage, hdata]

theorem userByte_page {m : Mem} {b : ℕ} {v : UInt8} (h : userByte m d b = some v) :
    pageEntry m d b ≠ none := by
  intro hc
  unfold userByte userCell at h
  rw [hc] at h
  cases h

/-- A segment whose bytes were stored under the monitor has all of them on pages of its own. -/
theorem Loaded.covered (h : Loaded role K data d done st) (hph : ph.Placed data)
    (hapart : ∀ q ∈ done, ph.Apart q) (hwrite : inPages (st.mapped ++ ph.pages) ph.vaddr ph.filesz)
    (hzero : inPages (st.mapped ++ ph.pages) (ph.vaddr + ph.filesz) (ph.memsz - ph.filesz))
    {k : ℕ} (hk : k < ph.memsz) : (ph.vaddr + k) / 0x1000 ∈ ph.pages := by
  have hbelow := hph.below
  unfold ProgHeader.segEnd at hbelow
  have hwrap : wrap32 (ph.vaddr + k) = ph.vaddr + k := Nat.mod_eq_of_lt (by omega)
  have hin : (ph.vaddr + k) / 0x1000 ∈ st.mapped ++ ph.pages := by
    by_cases hfile : k < ph.filesz
    · have hpage := hwrite k hfile
      rw [hwrap] at hpage
      exact hpage
    · have hpage := hzero (k - ph.filesz) (by omega)
      rw [show ph.vaddr + ph.filesz + (k - ph.filesz) = ph.vaddr + k by omega, hwrap] at hpage
      exact hpage
  apply (List.mem_append.mp hin).resolve_left
  exact h.fresh hapart (Nat.le_add_right _ _) (Nat.add_lt_add_left hk _)

/-- The addresses that the loader computes do not wrap. -/
theorem ProgHeader.Placed.wraps (hph : ph.Placed data) :
    wrap32 (ph.vaddr + ph.filesz) = ph.vaddr + ph.filesz ∧
    wrap32 (ph.memsz + 0x100000000 - ph.filesz) = ph.memsz - ph.filesz ∧
    wrap32 (ph.pagecnt * 0x1000) = ph.pagecnt * 0x1000 ∧ wrap32 (ph.memsz + ph.vaddr) = ph.segEnd := by
  have hsize := hph.size
  have hbelow := hph.below
  have hcnt := ph.pagecnt_mul
  unfold segEnd at hbelow ⊢
  unfold wrap32
  omega

/-- The addresses where the pages of a segment are mapped lie below the stack region. -/
theorem ProgHeader.Placed.page_below (hph : ph.Placed data) {j : ℕ} (hj : j < ph.pagecnt) :
    ph.vaddr + 0x1000 * j < 767 * 0x400000 := by
  have hlt := ph.mul_pagecnt hj
  have hbelow := hph.below
  unfold segEnd at hbelow
  omega

/-- The directory after the pages of a segment have been mapped: no other page of the user half has
changed. -/
structure SegmentMapped (role : ℕ → Role) (K : ℕ → ℕ) (d : ℕ) (ph : ProgHeader) (m m' : Mem) : Prop where
  space : AddressSpace role K m'
  cr3 : m'.cr3 = d
  data : m'.data = m.data
  new : ∀ b < kernelStart, b / 0x1000 ∈ ph.pages → pageEntry m' d b ≠ none
  old : ∀ b < kernelStart, b / 0x1000 ∉ ph.pages → pageEntry m' d b = pageEntry m d b

/-- The address space after the frames for a segment have been taken off the stack. -/
theorem LoadSpace.popped {m₁ : Mem} {pages : List ℕ} (h : LoadSpace role K d st)
    (hpop : pmmAllocPages st.mem ph.pagecnt = .ok (pages, m₁)) :
    AddressSpace role K m₁ ∧ m₁.cr3 = d ∧ m₁.data = st.mem.data ∧
      ∀ b, pageEntry m₁ d b = pageEntry st.mem d b := by
  obtain ⟨-, -, -, hext⟩ := Extends.pops h.space.owned hpop
  obtain ⟨-, heq, -⟩ := pmmAllocPages_eq hpop
  have htables : m₁.tables = st.mem.tables := by rw [heq]
  have hsep : Separate m₁ m₁.cr3 := by
    have hsep := h.space.separate
    unfold Separate at hsep ⊢
    rw [htables, hext.cr3]
    exact hsep
  refine ⟨⟨hext.owned, hext.loaded h.space.dir (Set.notMem_empty _), hsep⟩, hext.cr3.trans h.cr3,
    by rw [heq], fun b => ?_⟩
  unfold pageEntry
  rw [htables]

/-- The pages of a segment are mapped, up to the first one that is mapped already. -/
theorem LoadSpace.mapSegment {m₁ m₂ : Mem} {pages : List ℕ} {mapped : Bool} (h : LoadSpace role K d st)
    (hbelow : ∀ j < ph.pagecnt, policy (.map (ph.vaddr + 0x1000 * j)) →
      ph.vaddr + 0x1000 * j < 767 * 0x400000)
    (hpop : pmmAllocPages st.mem ph.pagecnt = .ok (pages, m₁))
    (hmap : vmmMapPagesLoc policy m₁ ph.vaddr 0x7 pages = .ok (mapped, m₂)) :
    ∃ n, (∀ j ≤ n, j < ph.pagecnt → policy (.map (ph.vaddr + 0x1000 * j))) ∧
      (∀ j < n, ph.vaddr / 0x1000 + j ∉ st.mapped) ∧
      ((mapped = true ∧ n = ph.pagecnt ∧ ∃ role', SegmentMapped role' K d ph st.mem m₂) ∨
        (mapped = false ∧ n < ph.pagecnt ∧ ph.vaddr / 0x1000 + n ∈ st.mapped)) := by
  obtain ⟨hlen, hnodup, hframes, -⟩ := Extends.pops h.space.owned hpop
  obtain ⟨h₁, hcr3, hdata, hentry⟩ := h.popped hpop
  have hloose : ∀ f ∈ pages, Loose role m₁ f := fun f hf => (hframes f hf).2
  rw [← hlen] at hbelow ⊢
  obtain ⟨role', n, -, h₂, hadded, hchecked, hn⟩ := h₁.mapPagesLoc hnodup hloose hbelow hmap
  have hpage : ∀ j, (ph.vaddr + 0x1000 * j) / 0x1000 = ph.vaddr / 0x1000 + j := fun j => by omega
  have hlt : ∀ j ≤ n, j < pages.length → ph.vaddr + 0x1000 * j < kernelStart := by
    intro j hj hlen
    have hlow := hbelow j hlen (hchecked j hj hlen)
    unfold kernelStart
    omega
  have hlast : n ≤ pages.length := by
    cases hn with
    | inl hall => exact Nat.le_of_eq hall.2
    | inr hpart => exact Nat.le_of_lt hpart.2.1
  refine ⟨n, hchecked, fun j hj hc => ?_, ?_⟩
  · have hlow := hlt j (Nat.le_of_lt hj) (Nat.lt_of_lt_of_le hj hlast)
    rw [← hpage] at hc
    apply (h.pages _ hlow).mpr hc
    rw [← hentry, ← hcr3]
    exact hadded.new j hj
  · cases hn with
    | inl hall =>
        obtain ⟨rfl, rfl⟩ := hall
        refine .inl ⟨rfl, rfl, role', h₂, hadded.cr3.trans hcr3, hadded.data.trans hdata, ?_, ?_⟩
        · intro b hb hpage
          obtain ⟨j, hj, hj'⟩ := ProgHeader.mem_pages_iff.mp hpage
          rw [← hcr3]
          exact hadded.pages b hb j (hlen.symm ▸ hj) hj'
        · intro b hb hpage
          have hsame := hadded.others b hb fun j hj hc =>
            hpage (ProgHeader.mem_pages_iff.mpr ⟨j, hlen ▸ hj, hc⟩)
          rw [hcr3, hentry] at hsame
          exact hsame
    | inr hpart =>
        obtain ⟨rfl, hn, hpresent⟩ := hpart
        refine .inr ⟨rfl, hn, ?_⟩
        rw [hcr3, hentry] at hpresent
        rw [← hpage]
        exact (h.pages _ (hlt n (Nat.le_refl n) hn)).mp hpresent

/-- The pages of the segment and those before it are mapped, whatever is stored to them. -/
theorem SegmentMapped.loadSpace {m₂ : Mem} {role' : ℕ → Role} {bytes : ℕ → UInt8}
    (h : LoadSpace role K d st) (hmap : SegmentMapped role' K d ph st.mem m₂)
    (hmem : st'.mem = { m₂ with data := bytes }) (hmapped : st'.mapped = st.mapped ++ ph.pages) :
    LoadSpace role' K d st' := by
  refine ⟨?_, ?_, fun b hb => ?_⟩
  · rw [hmem]
    exact hmap.space.setData bytes
  · rw [hmem]
    exact hmap.cr3
  · have hpage : pageEntry st'.mem d b = pageEntry m₂ d b := by
      rw [hmem]
      rfl
    rw [hpage, hmapped, List.mem_append]
    by_cases hin : b / 0x1000 ∈ ph.pages
    · exact iff_of_true (hmap.new b hb hin) (.inr hin)
    · rw [hmap.old b hb hin, h.pages b hb, or_iff_left hin]

/-- Another segment is loaded. -/
theorem Loaded.segment (hpolicy : ChecksWrites policy) (h : Loaded role K data d done st)
    (hdone : ∀ q ∈ done, q.Placed data) (hph : ph.Placed data) (hapart : ∀ q ∈ done, ph.Apart q)
    (hload : loadSegment policy data st ph = .ok (true, st')) :
    ∃ role', Loaded role' K data d (done ++ [ph]) st' := by
  obtain ⟨pages, m₁, m₂, hpop, hmap, hwrite, hzero, hmem, hmapped, hregions, hend⟩ :=
    loadSegment_inv hload
  obtain ⟨hwrap, hwrap', hsize, hsegEnd⟩ := hph.wraps
  rw [hwrap, hwrap'] at hzero hmem
  rw [hsegEnd] at hend
  rw [hsize] at hregions
  obtain ⟨role', hseg⟩ : ∃ role', SegmentMapped role' K d ph st.mem m₂ := by
    obtain ⟨n, -, -, ⟨-, -, hseg⟩ | ⟨hfalse, -⟩⟩ :=
      h.loadSpace.mapSegment (fun j hj _ => hph.page_below hj) hpop hmap
    · exact hseg
    · cases hfalse
  have hstart : kernelStart = 768 * 0x400000 := by decide
  have hbelow := hph.below
  have hcovered : ∀ k < ph.memsz, pageEntry m₂ m₂.cr3 (ph.vaddr + k) ≠ none := by
    intro k hk
    rw [hseg.cr3]
    unfold ProgHeader.segEnd at hbelow
    apply hseg.new _ (by omega)
    exact h.covered hph hapart (hpolicy _ _ _ hwrite) (hpolicy _ _ _ hzero) hk
  have hstored : st'.mem = ph.stored data m₂ := hmem
  have hbyte : ∀ b < kernelStart, userByte st'.mem d b =
      if ph.vaddr ≤ b ∧ b < ph.segEnd then some (ph.byte data (b - ph.vaddr)) else userByte m₂ d b := by
    intro b hb
    rw [hstored, ← hseg.cr3]
    exact hph.stored_byte hseg.space hcovered hb
  obtain ⟨bytes, hbytes⟩ : ∃ bytes, ph.stored data m₂ = { m₂ with data := bytes } :=
    storeBytes_twice ..
  rw [hbytes] at hstored
  refine ⟨role', hseg.loadSpace h.loadSpace hstored hmapped, ?_, ?_, ?_, ?_⟩
  · rw [hmapped, h.mapped, List.flatMap_append, List.flatMap_singleton]
  · rw [hregions, h.psregions, List.map_append]
    rfl
  · intro q hq k hk
    have hqend : q.vaddr + k < q.segEnd := Nat.add_lt_add_left hk _
    cases List.mem_append.mp hq with
    | inl hq =>
        -- the bytes of the other segments lie on other pages
        have hqbelow := (hdone q hq).below
        have hlt : q.vaddr + k < kernelStart := by omega
        have hout : (q.vaddr + k) / 0x1000 ∉ ph.pages := by
          intro hpage
          obtain ⟨x, h1, h2, hx⟩ := ProgHeader.mem_pages hpage
          exact hapart q hq x _ h1 h2 (Nat.le_add_right _ _) hqend hx
        rw [hbyte _ hlt, if_neg fun hc => hapart q hq _ _ hc.1 hc.2 (Nat.le_add_right _ _) hqend rfl,
          userByte_congr (hseg.old _ hlt hout) hseg.data]
        exact h.bytes q hq k hk
    | inr hq =>
        obtain rfl := List.mem_singleton.mp hq
        rw [hbyte _ (by omega), if_pos ⟨Nat.le_add_right _ _, hqend⟩, Nat.add_sub_cancel_left]
  · rw [hend, h.endAllocatedData, List.map_append, List.foldl_append, List.map_singleton,
      List.foldl_cons, List.foldl_nil]
    split_ifs with hlt
    · exact (Nat.max_eq_right (Nat.le_of_lt hlt)).symm
    · exact (Nat.max_eq_left (Nat.le_of_not_lt hlt)).symm

/-! ### Loading an image -/

theorem ProgHeader.Apart.symm {q : ProgHeader} (h : ph.Apart q) : q.Apart ph :=
  fun x y h1 h2 h3 h4 hxy => h y x h3 h4 h1 h2 hxy.symm

/-- A header that is read is that of the image, as far as the loader looks at it. -/
theorem readProgHeader_ok {off : ℕ} (h : readProgHeader policy data off = .ok ph) :
    (ph.type = ptLoad → ph = progHeader data off) ∧
    (ph.type ≠ ptLoad → (progHeader data off).type ≠ ptLoad) := by
  simp only [readProgHeader, bind_ok] at h
  obtain ⟨type, htype, h⟩ := h
  have htype := readField_ok htype
  split_ifs at h with hne
  · obtain rfl := Except.ok.inj h
    refine ⟨fun hc => absurd hc hne, fun _ => ?_⟩
    rw [htype] at hne
    exact hne
  · simp only [bind_ok, Except.ok.injEq] at h
    obtain ⟨memsz, hmemsz, vaddr, hvaddr, offset, hoffset, filesz, hfilesz, rfl⟩ := h
    refine ⟨fun _ => ?_, fun hc => absurd (not_not.mp hne) hc⟩
    unfold progHeader
    rw [htype, readField_ok hmemsz, readField_ok hvaddr, readField_ok hoffset, readField_ok hfilesz]

/-- The loop over the program headers. -/
theorem Loaded.segments {phoff phentsize : ℕ} (hpolicy : ChecksWrites policy) (i n : ℕ)
    (h : Loaded role K data d done st)
    (hplaced : ∀ q ∈ done ++ segmentsFrom data phoff phentsize i n, q.Placed data)
    (hapart : (done ++ segmentsFrom data phoff phentsize i n).Pairwise ProgHeader.Apart)
    (hload : loadSegments policy data phoff phentsize st i n = .ok (true, st')) :
    ∃ role', Loaded role' K data d (done ++ segmentsFrom data phoff phentsize i n) st' := by
  induction n generalizing i done st role with
  | zero =>
      obtain ⟨-, rfl⟩ := Prod.mk.inj (Except.ok.inj hload)
      unfold segmentsFrom
      rw [List.append_nil]
      exact ⟨role, h⟩
  | succ n ih =>
      simp only [loadSegments, bind_ok] at hload
      obtain ⟨ph, hread, hload⟩ := hload
      obtain ⟨hsame, hother⟩ := readProgHeader_ok hread
      unfold segmentsFrom at hplaced hapart ⊢
      by_cases htype : ph.type = ptLoad
      · obtain rfl := hsame htype
        simp only [if_pos htype] at hplaced hapart ⊢
        rw [if_neg (not_not.mpr htype)] at hload
        simp only [bind_ok, Prod.exists] at hload
        obtain ⟨mapped, st₁, hseg, hload⟩ := hload
        cases mapped with
        | false => cases (Prod.mk.inj (Except.ok.inj hload)).1
        | true =>
            have hdone : ∀ q ∈ done, (progHeader data (phdrOffset phoff phentsize i)).Apart q :=
              fun q hq => ((List.pairwise_append.mp hapart).2.2 q hq _ List.mem_cons_self).symm
            obtain ⟨role₁, h₁⟩ := h.segment hpolicy (fun q hq => hplaced q (List.mem_append_left _ hq))
              (hplaced _ (List.mem_append_right _ List.mem_cons_self)) hdone hseg
            rw [List.append_cons] at hplaced hapart ⊢
            exact ih (i + 1) h₁ hplaced hapart hload
      · have hskip := hother htype
        simp only [if_neg hskip] at hplaced hapart ⊢
        rw [if_pos htype] at hload
        exact ih (i + 1) h hplaced hapart hload

/-! ### Loading a process -/

/-- An ELF image in order: `elf_isvalid` accepts it, its headers lie inside the file, and its segments
have pages of their own, below the stack region. -/
structure ElfImage (data : List UInt8) : Prop where
  valid : elfIsvalid memoryPolicy data = .ok 0
  header : 52 ≤ data.length
  progHeaders : ∀ i < leBytes data 44 2,
    phdrOffset (leBytes data 28 4) (leBytes data 42 2) i + 32 ≤ data.length
  placed : ∀ ph ∈ segments data, ph.Placed data
  apart : (segments data).Pairwise ProgHeader.Apart

/-- The highest end of a segment. -/
def highestEnd (data : List UInt8) : ℕ := ((segments data).map ProgHeader.segEnd).foldl max 0

theorem foldl_max_le {l : List ℕ} {a b : ℕ} (ha : a ≤ b) (hl : ∀ x ∈ l, x ≤ b) : l.foldl max a ≤ b := by
  induction l generalizing a with
  | nil => exact ha
  | cons x l ih =>
      apply ih (Nat.max_le.mpr ⟨ha, hl x List.mem_cons_self⟩)
      exact fun y hy => hl y (List.mem_cons_of_mem _ hy)

theorem ElfImage.highestEnd_le (h : ElfImage data) : highestEnd data ≤ 767 * 0x400000 := by
  apply foldl_max_le (Nat.zero_le _)
  intro x hx
  obtain ⟨ph, hph, rfl⟩ := List.mem_map.mp hx
  exact (h.placed ph hph).below

/-- The process is as `pload_create_process` leaves it: it has an image, and nothing is mapped. -/
structure Kernel.Unloaded (s : Kernel) (pid : Int) (p : Process) : Prop where
  process : s.processes pid = some p
  psregions : p.psregions = []
  memory : ∃ role K, Owned role K s.mem ∧ Directory role K s.mem p.cr3
  user : ∀ i < 768, s.mem.tables p.cr3 i = none

/-- The region has the page `q`: one of those that `sched_free_process` gives back for it. -/
def PsRegion.HasPage (r : PsRegion) (q : ℕ) : Prop := ∃ i < r.size / 0x1000, q = r.offset / 0x1000 + i

/-- What a program finds: its segments, on the pages of its regions, and its break behind them. -/
structure Faithful (data : List UInt8) (m : Mem) (p : Process) : Prop where
  file : ∀ ph ∈ segments data, ∀ k < ph.filesz,
    userByte m p.cr3 (ph.vaddr + k) = data[ph.offset + k]?
  zero : ∀ ph ∈ segments data, ∀ k, ph.filesz ≤ k → k < ph.memsz →
    userByte m p.cr3 (ph.vaddr + k) = some 0
  mapped : ∀ ph ∈ segments data, ∀ k < ph.memsz, pageEntry m p.cr3 (ph.vaddr + k) ≠ none
  regions : ∀ b < kernelStart, pageEntry m p.cr3 b ≠ none ↔ ∃ r ∈ p.psregions, r.HasPage (b / 0x1000)
  brk : p.brk = (highestEnd data + 0xFFF) / 0x1000 * 0x1000
  pgbrk : p.pgbrk = (highestEnd data + 0xFFF) / 0x1000 * 0x1000

theorem Kernel.Unloaded.loaded {s : Kernel} {pid : Int} {p : Process} (h : s.Unloaded pid p) :
    ∃ role K, Loaded role K data p.cr3 []
      ⟨{ s.mem with cr3 := p.cr3 }, [], p.psregions, p.pagesUsed, 0, s.mem.stackRoom⟩ := by
  obtain ⟨role, K, howned, hdir⟩ := h.memory
  have hempty : ∀ b < kernelStart, pageEntry { s.mem with cr3 := p.cr3 } p.cr3 b = none := by
    intro b hb
    show pageEntry s.mem p.cr3 b = none
    unfold pageEntry
    rw [h.user _ (pdindex_user hb)]
    rfl
  refine ⟨role, K, ⟨⟨howned.setCr3 _, hdir.mono rfl fun _ _ => rfl, ?_⟩, rfl, ?_⟩, rfl, h.psregions,
    ?_, rfl⟩
  · intro i hi j hj pde pde' hpde
    cases (h.user i hi).symm.trans hpde
  · intro b hb
    rw [hempty b hb]
    exact iff_of_false (fun hc => hc rfl) List.not_mem_nil
  · exact fun ph hph => absurd hph List.not_mem_nil

/-- What `pload_load_process` has done when it returns 0. -/
theorem ploadLoadProcess_loads {s s' : Kernel} {pid tid : Int} {p : Process}
    (hp : s.processes pid = some p) (hload : ploadLoadProcess policy s pid tid = .ok (0, s')) :
    ∃ st, loadSegments policy p.image (leBytes p.image 28 4) (leBytes p.image 42 2)
        ⟨{ s.mem with cr3 := p.cr3 }, [], p.psregions, p.pagesUsed, 0, s.mem.stackRoom⟩ 0
          (leBytes p.image 44 2) = .ok (true, st) ∧
      s'.processes pid = some (p.loaded st) ∧ s'.mem = { st.mem with cr3 := s.mem.cr3 } := by
  simp only [ploadLoadProcess, bind_ok, Kernel.liveProcess_ok, hp, Option.some.injEq, exists_eq_left',
    Prod.exists] at hload
  obtain ⟨entry, st, himage, hload⟩ := hload
  cases entry with
  | none => cases (Prod.mk.inj (Except.ok.inj hload)).1
  | some entry =>
      simp only [bind_ok, Except.ok.injEq, Prod.mk.injEq] at hload
      obtain ⟨t, -, -, rfl⟩ := hload
      simp only [loadImage, bind_ok, Prod.exists] at himage
      obtain ⟨phnum, hphnum, phoff, hphoff, phentsize, hphentsize, loaded, st₁, hsegs, himage⟩ := himage
      have hn := readField_ok hphnum
      split_ifs at himage with hfail
      · cases (Prod.mk.inj (Except.ok.inj himage)).1
      · simp only [bind_ok, Except.ok.injEq, Prod.mk.injEq] at himage
        obtain ⟨-, -, -, rfl⟩ := himage
        have hloaded : loaded = true := by
          cases loaded with
          | true => rfl
          | false => exact absurd rfl hfail
        subst hloaded
        refine ⟨st₁, ?_, Function.update_self .., rfl⟩
        by_cases hzero : phnum = 0
        · rw [← hn, hzero]
          rw [hzero] at hsegs
          exact hsegs
        · simp only [readPhField, if_neg hzero] at hphoff hphentsize
          rw [← hn, ← readField_ok hphoff, ← readField_ok hphentsize]
          exact hsegs

theorem ProgHeader.region_hasPage {q : ℕ} : ph.region.HasPage q ↔ q ∈ ph.pages := by
  unfold PsRegion.HasPage region
  rw [mem_pages_iff, Nat.mul_div_cancel _ (by decide)]

/-- The pages of the segments are those of the recorded regions. -/
theorem Loaded.regions {b : ℕ} (h : Loaded role K data d done st) (hb : b < kernelStart) :
    pageEntry st.mem d b ≠ none ↔ ∃ r ∈ st.psregions, r.HasPage (b / 0x1000) := by
  rw [h.loadSpace.pages b hb, h.mapped, h.psregions, List.mem_flatMap]
  constructor
  · rintro ⟨ph, hph, hpage⟩
    exact ⟨ph.region, List.mem_map_of_mem hph, ProgHeader.region_hasPage.mpr hpage⟩
  · rintro ⟨r, hr, hpage⟩
    obtain ⟨ph, hph, rfl⟩ := List.mem_map.mp hr
    exact ⟨ph, hph, ProgHeader.region_hasPage.mp hpage⟩

/-- A load that succeeds is faithful to the image, whatever the monitor allows besides stores to pages
that are not mapped. -/
theorem ploadLoadProcess_faithful {s s' : Kernel} {pid tid : Int} {p : Process}
    (hpolicy : ChecksWrites policy) (hps : s.Unloaded pid p) (himage : ElfImage p.image)
    (hload : ploadLoadProcess policy s pid tid = .ok (0, s')) :
    ∃ p', s'.processes pid = some p' ∧ Faithful p.image s'.mem p' := by
  obtain ⟨st, hsegs, hp', hmem⟩ := ploadLoadProcess_loads hps.process hload
  obtain ⟨role, K, hstart⟩ : ∃ role K, Loaded role K p.image p.cr3 []
      ⟨{ s.mem with cr3 := p.cr3 }, [], p.psregions, p.pagesUsed, 0, s.mem.stackRoom⟩ := hps.loaded
  obtain ⟨role', h⟩ := hstart.segments hpolicy 0 (leBytes p.image 44 2) himage.placed himage.apart hsegs
  have hend : roundBrk st.endAllocatedData = (highestEnd p.image + 0xFFF) / 0x1000 * 0x1000 := by
    have hle := himage.highestEnd_le
    have heq : st.endAllocatedData = highestEnd p.image := h.endAllocatedData
    rw [heq]
    apply roundBrk_eq
    unfold kernelStart
    omega
  refine ⟨p.loaded st, hp', ?_, ?_, ?_, ?_, hend, hend⟩
  · intro ph hph k hk
    have hplaced := himage.placed ph hph
    have hfile := hplaced.file
    have hbyte := h.bytes ph hph k (Nat.lt_of_lt_of_le hk hplaced.size)
    rw [hmem]
    refine hbyte.trans ?_
    unfold ProgHeader.byte
    rw [if_pos hk, List.getD_eq_getElem?_getD,
      List.getElem?_eq_getElem (show ph.offset + k < p.image.length by omega), Option.getD_some]
  · intro ph hph k hk hk'
    have hbyte := h.bytes ph hph k hk'
    rw [hmem]
    refine hbyte.trans ?_
    unfold ProgHeader.byte
    rw [if_neg (Nat.not_lt.mpr hk)]
  · intro ph hph k hk
    rw [hmem]
    exact userByte_page (h.bytes ph hph k hk)
  · intro b hb
    rw [hmem]
    exact h.regions hb

/-! ### A process that is created -/

/-- A new stack table changes no directory. -/
theorem vmmMapStack_row {m m' : Mem} {stackpt : ℕ} (h : Owned role K m)
    (hcr3 : Directory role K m m.cr3) (hd : Directory role K m d)
    (hnew : vmmMapStack m = .ok (stackpt, m')) : m'.tables d = m.tables d := by
  simp only [vmmMapStack, bind_ok, Prod.exists] at hnew
  obtain ⟨addr, m₁, halloc, hnew⟩ := hnew
  split_ifs at hnew with h0
  obtain ⟨rfl, rfl⟩ := Prod.mk.inj (Except.ok.inj hnew)
  obtain ⟨f, hf, -, -, -, haddr⟩ := liballocAlloc_page h hcr3 halloc
  obtain ⟨g, rest, pde, -, -, -, hpde, -, rfl⟩ := (h.intact hcr3).allocPage_eq halloc h0
  rw [haddr]
  -- the page goes into a table of the kernel half, and its frame was free
  obtain ⟨fl, hkernel⟩ := hcr3.kernel _ h.heap.pdindex.1 h.heap.pdindex.2
  have htable : pde.frame ≠ d := by
    obtain rfl := Option.some.inj (hpde.symm.trans hkernel)
    exact hd.notKernel _ h.heap.pdindex.1 h.heap.pdindex.2
  have hfree : d ≠ f := by
    rintro rfl
    have hrole := hd.role
    rw [h.free _ hf] at hrole
    simp at hrole
  show Function.update (Function.update _ _ _) f _ d = _
  rw [Function.update_of_ne hfree, Function.update_of_ne htable.symm]

/-- The directory of a new process maps nothing in its user half. -/
theorem schedCreateProcess_empty {s s' : Kernel} {privilege : ℕ} {name : CString} {pid : Int}
    {p : Process} (hcreate : schedCreateProcess s privilege name = .ok (pid, s'))
    (hp : s'.processes pid = some p) : ∀ i < 768, s'.mem.tables p.cr3 i = none := by
  unfold schedCreateProcess at hcreate
  split_ifs at hcreate with hmax
  simp only [bind_ok, Except.ok.injEq, Prod.mk.injEq, Prod.exists, newDirectory] at hcreate
  obtain ⟨cr3Virt, cr3, mem, ⟨addr, m₁, -, hnew⟩, rfl, rfl⟩ := hcreate
  split_ifs at hnew with h0
  obtain ⟨rfl, rfl, rfl⟩ := Prod.mk.inj (Except.ok.inj hnew) |>.imp_right Prod.mk.inj
  simp only [Kernel.setProcess, Function.update_self, Option.some.injEq] at hp
  subst hp
  intro i hi
  show Function.update m₁.tables _ _ _ i = none
  rw [Function.update_self, if_neg (by omega), if_neg (by omega)]

theorem newStack_row {m m' : Mem} {privilege stackpt : ℕ} (h : Owned role K m)
    (hcr3 : Directory role K m m.cr3) (hd : Directory role K m d)
    (hnew : newStack m privilege = .ok (stackpt, m')) : m'.tables d = m.tables d := by
  unfold newStack at hnew
  split_ifs at hnew with hk
  · obtain ⟨-, rfl⟩ := Prod.mk.inj (Except.ok.inj hnew)
    rfl
  · exact vmmMapStack_row h hcr3 hd hnew

/-- A file with nothing behind it. -/
theorem LoadRequest.image_nil {privilege : ℕ} {name : CString} {args : List CString} {nodup : Bool} :
    LoadRequest.image ⟨data, [], privilege, name, args, nodup⟩ = data :=
  List.append_nil data

/-- What `pload_create_process` leaves for the loader. -/
theorem ploadCreateProcess_unloaded {s s' : Kernel} {blocks : List (ℕ × ℕ)} {q : LoadRequest}
    {pid : Int} (h : FrameInv role K blocks s) (hs : Tables s)
    (hvalid : elfIsvalid memoryPolicy q.image = .ok 0) (hload : ploadCreateProcess s q = .ok (pid, s')) :
    ∃ p, p.image = q.image ∧ s'.Unloaded pid p := by
  simp only [ploadCreateProcess, hvalid, ok_bind, ne_eq, not_true_eq_false, if_false, bind_ok,
    Prod.exists, Kernel.liveProcess_ok, Except.ok.injEq, Prod.mk.injEq] at hload
  obtain ⟨pid, s₁, hcreate, p, hp, p₁, hp₁, tid, s₂, hthread, rfl, rfl⟩ := hload
  obtain ⟨-, role₁, h₁, p₀, hp₀, -, -, hregions⟩ := h.createProcess hs hcreate
  obtain rfl : p = p₀ := Option.some.inj (hp.symm.trans hp₀)
  have hplaced₁ := inheritEnviron_placed hp₁
  obtain ⟨-, p₂, stackpt, hp₂, hstack, -, hplaced, -⟩ := schedCreateThread_stack hthread
  obtain rfl : p₁ = p₂ := by
    simp only [Kernel.setProcess_processes, Function.update_self, Option.some.injEq] at hp₂
    exact hp₂
  obtain ⟨-, -, p₂, t, mem, -, -, rfl⟩ := schedCreateThread_ok hthread
  have hplaced₂ := hplaced _ (Function.update_self ..)
  have hcr3 := hplaced₂.cr3.trans hplaced₁.cr3
  have hrole := (h₁.procs pid p hp).dir
  have hdir := h₁.owned.dir _ _ pid hrole
  refine ⟨_, hplaced₂.image.trans hplaced₁.image, Function.update_self ..,
    hplaced₂.psregions.trans (hplaced₁.psregions.trans hregions), ?_, fun i hi => ?_⟩
  · obtain ⟨role', hext, -⟩ := newStack_ok h₁.owned h₁.cr3 hstack
    refine ⟨role', K, hext.owned, ?_⟩
    rw [hcr3]
    exact hext.dirs _ (Set.notMem_empty _) hdir
  · have hrow := newStack_row h₁.owned h₁.cr3 hdir hstack
    have hempty := schedCreateProcess_empty hcreate hp i hi
    rw [hcr3]
    exact (congrFun hrow i).trans hempty

/-- Two bytes of text that start in the middle of a page, with four bytes behind them to be zeroed, and
three bytes of data on the next page that are not in the file. -/
def twoSegments : List UInt8 :=
  [0x7F, 0x45, 0x4C, 0x46, 1, 1, 0, 0, 0, 0, 0, 0, 0, 0, 0, 0, 2, 0, 3, 0, 1, 0, 0, 0] ++
    [0xF4, 0x0F, 0x40, 0, 52, 0, 0, 0, 0, 0, 0, 0, 0, 0, 0, 0, 52, 0, 32, 0, 2, 0, 0, 0, 0, 0, 0, 0] ++
    [1, 0, 0, 0, 116, 0, 0, 0, 0xF4, 0x0F, 0x40, 0, 0, 0, 0, 0] ++
    [2, 0, 0, 0, 6, 0, 0, 0, 5, 0, 0, 0, 0, 0, 0, 0] ++
    [1, 0, 0, 0, 0, 0, 0, 0, 0, 0x10, 0x40, 0, 0, 0, 0, 0] ++
    [0, 0, 0, 0, 3, 0, 0, 0, 6, 0, 0, 0, 0, 0, 0, 0] ++ [0xEB, 0xFE]

theorem segments_twoSegments :
    segments twoSegments = [⟨1, 116, 0x400FF4, 2, 6⟩, ⟨1, 0, 0x401000, 0, 3⟩] := by decide

theorem elfImage_twoSegments : ElfImage twoSegments := by
  refine ⟨by decide +kernel, by decide, by decide, ?_, ?_⟩
  · rw [segments_twoSegments]
    intro ph hph
    cases List.mem_cons.mp hph with
    | inl h =>
        subst h
        exact ⟨by decide, by decide, by decide⟩
    | inr h =>
        obtain rfl := List.mem_singleton.mp h
        exact ⟨by decide, by decide, by decide⟩
  · rw [segments_twoSegments]
    apply List.pairwise_pair.mpr
    intro x y h1 h2 h3 h4
    simp only [ProgHeader.segEnd] at h1 h2 h3 h4
    omega

/-- The process that is made of the image can be loaded. -/
def Kernel.CanLoad (s : Kernel) (data : List UInt8) : Prop :=
  OkAnd (ploadCreateProcess s ⟨data, [], 3, [], [], true⟩) fun x =>
    OkAnd (ploadLoadProcess memoryPolicy x.2 x.1 (x.2.lastTid - 1)) fun y => y.1 = 0

instance (s : Kernel) (data : List UInt8) : Decidable (s.CanLoad data) := by
  unfold Kernel.CanLoad
  infer_instance

theorem canLoad_run : Runs FrameState.exec (fun st c => c.FramesOk st)
    (fun st => st.kernel.CanLoad twoSegments)
    [.createProcess 0 [], .createThread 0 true 0] ⟨Kernel.boot (bootMachine 24) 0, []⟩ := by
  decide +kernel

theorem ploadLoadProcess_two : ∃ (s' : Kernel) (p' : Process), Faithful twoSegments s'.mem p' := by
  obtain ⟨st, hst, hok⟩ := FrameState.runs_reach canLoad_run
  obtain ⟨role, K, hframe⟩ := reach_frameInv hst
  obtain ⟨⟨pid, s⟩, hcreate, hok⟩ := hok.exists_ok
  obtain ⟨⟨r, s'⟩, hload, rfl⟩ := hok.exists_ok
  obtain ⟨p, himage, hps⟩ := ploadCreateProcess_unloaded hframe (reach_frameTables hst)
    (LoadRequest.image_nil.symm ▸ elfImage_twoSegments.valid) hcreate
  have himage : p.image = twoSegments := himage.trans LoadRequest.image_nil
  have helf : ElfImage p.image := himage.symm ▸ elfImage_twoSegments
  obtain ⟨p', -, hp'⟩ := ploadLoadProcess_faithful memoryPolicy_writes hps helf hload
  rw [himage] at hp'
  exact ⟨s', p', hp'⟩

end GalaxyOS
