import Mathlib.Data.List.Range
import Mathlib.Data.List.Perm.Subperm
import Mathlib.Data.List.Nodup
import GalaxyOS.Lib.Transition
import GalaxyOS.Mem.Paging

/-! # The boot loader's memory map

`pmm_init` fills the frame stack from the memory map of the boot loader.  It walks over the
entries and pushes, for each available region, the addresses `addr_low + j` with
`j = 0, 0x1000, …` below `len_low` that lie above the kernel image.

A region is described by 64-bit numbers and the loop computes with their low halves in 32 bits.
So the frames pushed are real exactly if every page that an entry offers above the kernel starts
on a page boundary, is complete and lies below 4 GiB, and no low half of a length is so long that
`j` wraps around (`pmmInit_real_iff`).  The one exception, a page at or above 4 GiB whose low half
names a page of another region, needs a region of 4 GiB or more below it.

`pmmInit_handsOutMemory_iff` is put together from both directions: `pmmInit_pushes` says what a finished
loop has pushed and `withinReach_of_offers` what follows for the map, and `pmmInitRegion_ends` says that
within reach the loop ends. -/

namespace GalaxyOS

open Transition

/-- `MAX_PAGES`, the length of `pmem_stack`. -/
def maxPages : ℕ := 0x100000

/-- `struct multiboot_mmap_entry`; `size`, which `pmm_init` does not read, is left out. -/
structure MmapEntry where
  addrLow : UInt32
  addrHigh : UInt32
  lenLow : UInt32
  lenHigh : UInt32
  type : UInt32
deriving DecidableEq, Repr

/-- `MULTIBOOT_MEMORY_AVAILABLE`. -/
def multibootMemoryAvailable : UInt32 := 1

/-! ### `pmm_init` -/

/-- `pmem_stack[pmem_stack_top++] = paddr`. -/
def pmmPush (m : Mem) (paddr : UInt32) : Except Fault Mem :=
  if m.pmemStack.length < maxPages then .ok (pmmFreePage m paddr.toNat) else .error .overrun

/-- The loop over `j`, with room for `n` rounds. -/
def pmmInitRegion (kernelEnd : UInt32) (mmmt : MmapEntry) :
    ℕ → UInt32 → Mem → Except Fault Mem
  | 0, _, _ => .error .timeout
  | n + 1, j, m =>
      if j < mmmt.lenLow then
        if mmmt.addrLow + j > kernelEnd - 0xC0000000 then do
          let m₁ ← pmmPush m (mmmt.addrLow + j)
          pmmInitRegion kernelEnd mmmt n (j + 0x1000) m₁
        else pmmInitRegion kernelEnd mmmt n (j + 0x1000) m
      else .ok m

/-- `pmm_init` on the entries of the memory map, which stand one after the other. -/
def pmmInit (n : ℕ) (kernelEnd : UInt32) : List MmapEntry → Mem → Except Fault Mem
  | [], m => .ok m
  | mmmt :: rest, m =>
      if mmmt.type = multibootMemoryAvailable then do
        let m₁ ← pmmInitRegion kernelEnd mmmt n 0 m
        pmmInit n kernelEnd rest m₁
      else pmmInit n kernelEnd rest m

/-! ### Regions and the pages offered -/

namespace MmapEntry

variable (e : MmapEntry)

def Available : Prop := e.type = multibootMemoryAvailable

instance : Decidable e.Available := inferInstanceAs (Decidable (e.type = _))

/-- The address of the region. -/
def base : ℕ := e.addrHigh.toNat * 0x100000000 + e.addrLow.toNat

/-- The length of the region. -/
def len : ℕ := e.lenHigh.toNat * 0x100000000 + e.lenLow.toNat

def Contains (a : ℕ) : Prop := e.base ≤ a ∧ a < e.base + e.len

/-- The frame at `a` lies inside the region. -/
def HasFrame (a : ℕ) : Prop := e.base ≤ a ∧ a + 0x1000 ≤ e.base + e.len

/-- The number of pages that the loop visits. -/
def pages : ℕ := (e.lenLow.toNat + 0xFFF) / 0x1000

/-- The value of `addr_low + j` in the round of page `k`. -/
def lowAddr (k : ℕ) : ℕ := wrap32 (e.addrLow.toNat + 0x1000 * k)

end MmapEntry

/-- The physical address of the end of the kernel image. -/
def kernelTop (kernelEnd : UInt32) : ℕ := (kernelEnd - 0xC0000000).toNat

/-- Page `k` of the region is pushed. -/
def MmapEntry.Offers (kernelEnd : UInt32) (e : MmapEntry) (k : ℕ) : Prop :=
  e.Available ∧ k < e.pages ∧ kernelTop kernelEnd < e.lowAddr k

/-- The addresses pushed for pages `k` and following. -/
def offersFrom (kernelEnd : UInt32) (e : MmapEntry) (k : ℕ) : List ℕ :=
  ((List.range' k (e.pages - k)).map e.lowAddr).filter (kernelTop kernelEnd < ·)

/-- The addresses pushed for the whole map, in order. -/
def allOffers (kernelEnd : UInt32) : List MmapEntry → List ℕ
  | [] => []
  | e :: rest =>
      (if e.Available then offersFrom kernelEnd e 0 else []) ++ allOffers kernelEnd rest

/-- The frames on the stack are real memory, above the kernel image and pairwise different. -/
structure HandsOutMemory (kernelEnd : UInt32) (mmap : List MmapEntry) (m : Mem) : Prop where
  aligned : ∀ p ∈ m.pmemStack, p % 0x1000 = 0
  inside : ∀ p ∈ m.pmemStack, ∃ e ∈ mmap, e.Available ∧ e.HasFrame p
  above : ∀ p ∈ m.pmemStack, kernelTop kernelEnd ≤ p
  nodup : m.pmemStack.Nodup
  count : m.pmemStack.length ≤ maxPages

/-- The pages that the entries offer lie in the part of memory that the loop computes in. -/
structure WithinReach (kernelEnd : UInt32) (mmap : List MmapEntry) : Prop where
  /-- `j` passes the end of every available region. -/
  ends : ∀ e ∈ mmap, e.Available → e.lenLow.toNat ≤ 0xFFFFF000
  aligned : ∀ e ∈ mmap, ∀ k, e.Offers kernelEnd k → e.addrLow.toNat % 0x1000 = 0
  /-- A page below 4 GiB is complete. -/
  whole : ∀ e ∈ mmap, ∀ k, e.Offers kernelEnd k → e.base + 0x1000 * k < 0x100000000 →
    0x1000 * (k + 1) ≤ e.len
  /-- The low half of a page above 4 GiB names a page of a region of 4 GiB or more. -/
  lent : ∀ e ∈ mmap, ∀ k, e.Offers kernelEnd k → 0x100000000 ≤ e.base + 0x1000 * k →
    ∃ e' ∈ mmap, e'.Available ∧ e'.lenHigh ≠ 0 ∧ e'.HasFrame (e.lowAddr k)
  /-- Different pages do not have the same low half. -/
  apart : mmap.Pairwise fun e e' => ∀ k k', e.Offers kernelEnd k → e'.Offers kernelEnd k' →
    e.lowAddr k = e'.lowAddr k' → e.base + 0x1000 * k = e'.base + 0x1000 * k'

/-! ### The loop over `j` -/

section Region

variable {kernelEnd : UInt32} {e : MmapEntry}

theorem toNat_addrLow_add {j : UInt32} {k : ℕ} (hj : j.toNat = 0x1000 * k) :
    (e.addrLow + j).toNat = e.lowAddr k := by
  rw [UInt32.toNat_add, hj]
  rfl

theorem pushed_iff {j : UInt32} {k : ℕ} (hj : j.toNat = 0x1000 * k) :
    e.addrLow + j > kernelEnd - 0xC0000000 ↔ kernelTop kernelEnd < e.lowAddr k := by
  rw [← toNat_addrLow_add hj]
  exact UInt32.lt_iff_toNat_lt

theorem pages_le (h : e.lenLow.toNat ≤ 0xFFFFF000) : e.pages ≤ 0xFFFFF := by
  unfold MmapEntry.pages
  omega

theorem lt_pages_iff {k : ℕ} : k < e.pages ↔ 0x1000 * k < e.lenLow.toNat := by
  unfold MmapEntry.pages
  omega

/-- The next page's offset does not wrap below `0xFFFFF000`. -/
theorem toNat_next {j : UInt32} {k : ℕ} (hj : j.toNat = 0x1000 * k) (hk : k < 0xFFFFF) :
    (j + 0x1000).toNat = 0x1000 * (k + 1) := by
  rw [UInt32.toNat_add, hj]
  show (0x1000 * k + 0x1000) % 0x100000000 = 0x1000 * (k + 1)
  omega

theorem offersFrom_step {k : ℕ} (hk : k < e.pages) :
    offersFrom kernelEnd e k =
      if kernelTop kernelEnd < e.lowAddr k then e.lowAddr k :: offersFrom kernelEnd e (k + 1)
      else offersFrom kernelEnd e (k + 1) := by
  have hlen : e.pages - k = e.pages - (k + 1) + 1 := by omega
  unfold offersFrom
  rw [hlen, List.range'_succ, List.map_cons, List.filter_cons]
  simp only [decide_eq_true_eq]

theorem offersFrom_end {k : ℕ} (hk : e.pages ≤ k) : offersFrom kernelEnd e k = [] := by
  unfold offersFrom
  rw [Nat.sub_eq_zero_of_le hk]
  rfl

theorem pmmPush_ok {m m' : Mem} {p : UInt32} :
    pmmPush m p = .ok m' ↔
      m.pmemStack.length < maxPages ∧ m' = { m with pmemStack := p.toNat :: m.pmemStack } := by
  unfold pmmPush pmmFreePage
  split <;> simp_all [eq_comm]

/-- A region whose low length does not wrap `j`: what a finished loop has pushed. -/
theorem pmmInitRegion_pushes (hend : e.lenLow.toNat ≤ 0xFFFFF000) :
    ∀ {n k : ℕ} {j : UInt32} {m m' : Mem}, j.toNat = 0x1000 * k → k ≤ e.pages →
      pmmInitRegion kernelEnd e n j m = .ok m' →
      m' = { m with pmemStack := (offersFrom kernelEnd e k).reverse ++ m.pmemStack }
  | 0, k, j, m, m', _, _, h => by cases h
  | n + 1, k, j, m, m', hj, hk, h => by
      have hpages := pages_le hend
      unfold pmmInitRegion at h
      by_cases hlt : j < e.lenLow
      · have hk' : k < e.pages := lt_pages_iff.2 (hj ▸ UInt32.lt_iff_toNat_lt.1 hlt)
        have hnext := toNat_next hj (by omega)
        rw [if_pos hlt] at h
        rw [offersFrom_step hk']
        by_cases hp : e.addrLow + j > kernelEnd - 0xC0000000
        · rw [if_pos hp] at h
          rw [if_pos ((pushed_iff hj).1 hp)]
          obtain ⟨m₁, h₁, h₂⟩ := bind_ok.1 h
          obtain ⟨-, rfl⟩ := pmmPush_ok.1 h₁
          rw [pmmInitRegion_pushes hend hnext hk' h₂, toNat_addrLow_add hj]
          simp
        · rw [if_neg hp] at h
          rw [if_neg (mt (pushed_iff hj).2 hp)]
          exact pmmInitRegion_pushes hend hnext hk' h
      · have hk' : ¬k < e.pages := fun hc =>
          hlt (UInt32.lt_iff_toNat_lt.2 (hj ▸ lt_pages_iff.1 hc))
        rw [if_neg hlt] at h
        rw [offersFrom_end (by omega)]
        exact (Except.ok.inj h).symm

variable (kernelEnd) in
/-- With room on the stack for what the region offers, the loop ends. -/
theorem pmmInitRegion_ends (hend : e.lenLow.toNat ≤ 0xFFFFF000) :
    ∀ {n k : ℕ} {j : UInt32} {m : Mem}, j.toNat = 0x1000 * k → k ≤ e.pages → e.pages < n + k →
      (offersFrom kernelEnd e k).length + m.pmemStack.length ≤ maxPages →
      ∃ m', pmmInitRegion kernelEnd e n j m = .ok m'
  | 0, k, j, m, _, hk, hn, _ => absurd hk (by omega)
  | n + 1, k, j, m, hj, hk, hn, hroom => by
      have hpages := pages_le hend
      unfold pmmInitRegion
      by_cases hlt : j < e.lenLow
      · have hk' : k < e.pages := lt_pages_iff.2 (hj ▸ UInt32.lt_iff_toNat_lt.1 hlt)
        have hnext := toNat_next hj (by omega)
        rw [if_pos hlt]
        rw [offersFrom_step hk'] at hroom
        by_cases hp : e.addrLow + j > kernelEnd - 0xC0000000
        · rw [if_pos ((pushed_iff hj).1 hp), List.length_cons] at hroom
          rw [if_pos hp]
          have hpush := pmmPush_ok.2 ⟨(by omega : m.pmemStack.length < maxPages),
            (rfl : _ = { m with pmemStack := (e.addrLow + j).toNat :: m.pmemStack })⟩
          rw [hpush, ok_bind]
          apply pmmInitRegion_ends hend hnext hk' (by omega)
          rw [List.length_cons]
          omega
        · rw [if_neg (mt (pushed_iff hj).2 hp)] at hroom
          rw [if_neg hp]
          exact pmmInitRegion_ends hend hnext hk' (by omega) hroom
      · exact ⟨m, if_neg hlt⟩

/-- `j` stays a multiple of the page size, so it never reaches a longer low length. -/
theorem pmmInitRegion_endless (hend : ¬e.lenLow.toNat ≤ 0xFFFFF000) :
    ∀ {n : ℕ} {j : UInt32} {m m' : Mem}, j.toNat % 0x1000 = 0 →
      pmmInitRegion kernelEnd e n j m ≠ .ok m'
  | 0, j, m, m', _, h => by cases h
  | n + 1, j, m, m', hj, h => by
      have hlt : j < e.lenLow := by
        have := j.toNat_lt
        exact UInt32.lt_iff_toNat_lt.2 (by omega)
      have hnext : (j + 0x1000).toNat % 0x1000 = 0 := by
        rw [UInt32.toNat_add]
        show (j.toNat + 0x1000) % 0x100000000 % 0x1000 = 0
        omega
      unfold pmmInitRegion at h
      rw [if_pos hlt] at h
      by_cases hp : e.addrLow + j > kernelEnd - 0xC0000000
      · rw [if_pos hp] at h
        obtain ⟨m₁, -, h₂⟩ := bind_ok.1 h
        exact pmmInitRegion_endless hend hnext h₂
      · rw [if_neg hp] at h
        exact pmmInitRegion_endless hend hnext h

end Region

/-! ### The whole map -/

section Map

variable {kernelEnd : UInt32} {mmap : List MmapEntry}

theorem allOffers_cons {e : MmapEntry} :
    allOffers kernelEnd (e :: mmap) =
      (if e.Available then offersFrom kernelEnd e 0 else []) ++ allOffers kernelEnd mmap := rfl

theorem mem_offers {e : MmapEntry} {p : ℕ} :
    p ∈ (if e.Available then offersFrom kernelEnd e 0 else []) ↔
      ∃ k, e.Offers kernelEnd k ∧ e.lowAddr k = p := by
  unfold MmapEntry.Offers
  by_cases ha : e.Available
  · rw [if_pos ha]
    simp only [offersFrom, List.mem_filter, List.mem_map, List.mem_range'_1, decide_eq_true_eq, ha,
      true_and]
    constructor
    · rintro ⟨⟨k, hk, rfl⟩, hp⟩
      exact ⟨k, ⟨by omega, hp⟩, rfl⟩
    · rintro ⟨k, ⟨hk, hp⟩, rfl⟩
      exact ⟨⟨k, by omega, rfl⟩, hp⟩
  · rw [if_neg ha]
    simp [ha]

theorem mem_allOffers {p : ℕ} :
    p ∈ allOffers kernelEnd mmap ↔
      ∃ e ∈ mmap, ∃ k, e.Offers kernelEnd k ∧ e.lowAddr k = p := by
  induction mmap with
  | nil => simp [allOffers]
  | cons e rest ih => rw [allOffers_cons, List.mem_append, ih, mem_offers, List.exists_mem_cons_iff]

theorem lowAddr_lt {e : MmapEntry} {k : ℕ} : e.lowAddr k < 0x100000000 :=
  Nat.mod_lt _ (by decide)

/-- Two pages of one region have different low halves. -/
theorem lowAddr_inj {e : MmapEntry} (hend : e.lenLow.toNat ≤ 0xFFFFF000) {k k' : ℕ}
    (hk : k < e.pages) (hk' : k' < e.pages) (h : e.lowAddr k = e.lowAddr k') : k = k' := by
  have := pages_le hend
  unfold MmapEntry.lowAddr wrap32 at h
  omega

variable (kernelEnd) in
theorem nodup_offers {e : MmapEntry} (hend : e.Available → e.lenLow.toNat ≤ 0xFFFFF000) :
    (if e.Available then offersFrom kernelEnd e 0 else []).Nodup := by
  by_cases ha : e.Available
  · rw [if_pos ha]
    apply List.Nodup.filter
    apply List.Nodup.map_on _ (List.nodup_range' _)
    intro k hk k' hk' h
    rw [List.mem_range'_1] at hk hk'
    exact lowAddr_inj (hend ha) (by omega) (by omega) h
  · rw [if_neg ha]
    exact List.nodup_nil

/-- No address is offered by both entries. -/
def DistinctOffers (kernelEnd : UInt32) (e e' : MmapEntry) : Prop :=
  ∀ k k', e.Offers kernelEnd k → e'.Offers kernelEnd k' → e.lowAddr k ≠ e'.lowAddr k'

instance : Std.Symm (DistinctOffers kernelEnd) :=
  ⟨fun _ _ h k k' hk hk' => (h k' k hk' hk).symm⟩

theorem nodup_allOffers (hend : ∀ e ∈ mmap, e.Available → e.lenLow.toNat ≤ 0xFFFFF000) :
    (allOffers kernelEnd mmap).Nodup ↔ mmap.Pairwise (DistinctOffers kernelEnd) := by
  induction mmap with
  | nil => simp [allOffers]
  | cons e rest ih =>
      rw [allOffers_cons, List.nodup_append, List.pairwise_cons,
        ih fun e' he' => hend e' (List.mem_cons_of_mem e he')]
      have hfirst := nodup_offers kernelEnd (hend e List.mem_cons_self)
      constructor
      · rintro ⟨-, hrest, hdisj⟩
        refine ⟨fun e' he' k k' hk hk' => ?_, hrest⟩
        exact hdisj _ (mem_offers.2 ⟨k, hk, rfl⟩) _ (mem_allOffers.2 ⟨e', he', k', hk', rfl⟩)
      · rintro ⟨hdisj, hrest⟩
        refine ⟨hfirst, hrest, ?_⟩
        intro p hp q hq
        obtain ⟨k, hk, rfl⟩ := mem_offers.1 hp
        obtain ⟨e', he', k', hk', rfl⟩ := mem_allOffers.1 hq
        exact hdisj e' he' k k' hk hk'

/-- The stack after a finished `pmm_init`. -/
theorem pmmInit_pushes {n : ℕ} :
    ∀ {mmap : List MmapEntry} {m m' : Mem}, pmmInit n kernelEnd mmap m = .ok m' →
      (∀ e ∈ mmap, e.Available → e.lenLow.toNat ≤ 0xFFFFF000) ∧
        m' = { m with pmemStack := (allOffers kernelEnd mmap).reverse ++ m.pmemStack }
  | [], m, m', h => ⟨fun _ he => (by cases he), (Except.ok.inj h).symm⟩
  | e :: rest, m, m', h => by
      unfold pmmInit at h
      by_cases ha : e.type = multibootMemoryAvailable
      · rw [if_pos ha] at h
        obtain ⟨m₁, h₁, h₂⟩ := bind_ok.1 h
        have hend : e.lenLow.toNat ≤ 0xFFFFF000 := by
          by_contra hlong
          exact pmmInitRegion_endless hlong (by decide) h₁
        have hm₁ := pmmInitRegion_pushes hend (by rfl) (Nat.zero_le _) h₁
        obtain ⟨hends, hm'⟩ := pmmInit_pushes h₂
        refine ⟨List.forall_mem_cons.2 ⟨fun _ => hend, hends⟩, ?_⟩
        rw [hm', hm₁, allOffers_cons, if_pos (show e.Available from ha)]
        simp
      · rw [if_neg ha] at h
        obtain ⟨hends, hm'⟩ := pmmInit_pushes h
        refine ⟨List.forall_mem_cons.2 ⟨fun hc => absurd hc ha, hends⟩, ?_⟩
        rw [hm', allOffers_cons, if_neg (show ¬e.Available from ha), List.nil_append]

variable (kernelEnd) in
theorem pmmInit_ends {n : ℕ} (hn : 0xFFFFF < n) :
    ∀ {mmap : List MmapEntry} {m : Mem},
      (∀ e ∈ mmap, e.Available → e.lenLow.toNat ≤ 0xFFFFF000) →
      (allOffers kernelEnd mmap).length + m.pmemStack.length ≤ maxPages →
      ∃ m', pmmInit n kernelEnd mmap m = .ok m'
  | [], m, _, _ => ⟨m, rfl⟩
  | e :: rest, m, hends, hroom => by
      obtain ⟨hend, hrest⟩ := List.forall_mem_cons.1 hends
      rw [allOffers_cons, List.length_append] at hroom
      unfold pmmInit
      by_cases ha : e.type = multibootMemoryAvailable
      · have hpages := pages_le (hend ha)
        rw [if_pos (show e.Available from ha)] at hroom
        rw [if_pos ha]
        obtain ⟨m₁, h₁⟩ := pmmInitRegion_ends kernelEnd (hend ha) (n := n) (m := m)
          (by rfl : (0 : UInt32).toNat = 0x1000 * 0) (Nat.zero_le _) (by omega) (by omega)
        have hm₁ := pmmInitRegion_pushes (hend ha) (by rfl) (Nat.zero_le _) h₁
        rw [h₁, ok_bind]
        apply pmmInit_ends hn hrest
        rw [hm₁]
        simp only [List.length_append, List.length_reverse]
        omega
      · rw [if_neg ha]
        exact pmmInit_ends hn hrest (by omega)

/-- A list of different frames is no longer than the stack. -/
theorem length_frames_le {l : List ℕ} (hnodup : l.Nodup)
    (hframe : ∀ p ∈ l, p % 0x1000 = 0 ∧ p < 0x100000000) : l.length ≤ maxPages := by
  have hinj : (l.map (· / 0x1000)).Nodup := by
    apply List.Nodup.map_on _ hnodup
    intro p hp q hq h
    have := (hframe p hp).1
    have := (hframe q hq).1
    omega
  have hsub : l.map (· / 0x1000) ⊆ List.range maxPages := by
    intro i hi
    obtain ⟨p, hp, rfl⟩ := List.mem_map.1 hi
    have := (hframe p hp).2
    rw [List.mem_range]
    unfold maxPages
    omega
  have hle := (hinj.subperm hsub).length_le
  rwa [List.length_map, List.length_range] at hle

end Map

/-! ### Real memory -/

/-- No address belongs to both regions. -/
def MmapEntry.Apart (e e' : MmapEntry) : Prop := ∀ a, ¬(e.Contains a ∧ e'.Contains a)

section Real

variable {kernelEnd : UInt32} {e e' : MmapEntry} {k k' : ℕ}

instance : Std.Symm MmapEntry.Apart := ⟨fun _ _ h a ha => h a ha.symm⟩

theorem MmapEntry.Offers.contains (h : e.Offers kernelEnd k) :
    e.Contains (e.base + 0x1000 * k) := by
  have := lt_pages_iff.1 h.2.1
  unfold MmapEntry.Contains MmapEntry.len
  omega

/-- Below 4 GiB the loop computes the page's address. -/
theorem lowAddr_eq (h : e.base + 0x1000 * k < 0x100000000) :
    e.lowAddr k = e.base + 0x1000 * k := by
  unfold MmapEntry.base at h
  unfold MmapEntry.lowAddr MmapEntry.base wrap32
  omega

theorem HasFrame.contains {a : ℕ} (h : e.HasFrame a) : e.Contains a := by
  unfold MmapEntry.HasFrame at h
  unfold MmapEntry.Contains
  omega

/-- The address of a page at or above 4 GiB is taken to lie outside its own region. -/
theorem not_hasFrame_lowAddr (ho : e.Offers kernelEnd k)
    (hend : e.lenLow.toNat ≤ 0xFFFFF000) (hhigh : 0x100000000 ≤ e.base + 0x1000 * k) :
    ¬e.HasFrame (e.lowAddr k) := by
  have := pages_le hend
  have := ho.2.1
  have := e.addrLow.toNat_lt
  unfold MmapEntry.base at hhigh
  unfold MmapEntry.HasFrame MmapEntry.base MmapEntry.lowAddr wrap32
  omega

/-- A region of less than 4 GiB with aligned base offers each of its frames below 4 GiB. -/
theorem offers_of_hasFrame {a : ℕ} (ha : e.Available) (hshort : e.lenHigh = 0)
    (hframe : e.HasFrame a) (halign : a % 0x1000 = 0) (hlt : a < 0x100000000)
    (habove : kernelTop kernelEnd < a)
    (haligned : ∀ k, e.Offers kernelEnd k → e.addrLow.toNat % 0x1000 = 0) :
    ∃ k, e.Offers kernelEnd k ∧ e.lowAddr k = a := by
  have hhigh : e.lenHigh.toNat = 0 := by rw [hshort]; rfl
  unfold MmapEntry.HasFrame MmapEntry.len at hframe
  -- the first page of the region at or after `a`
  obtain ⟨k, hk⟩ : ∃ k, k = (a - e.base + 0xFFF) / 0x1000 := ⟨_, rfl⟩
  have hlow : e.lowAddr k = e.base + 0x1000 * k := lowAddr_eq (by omega)
  have hoffers : e.Offers kernelEnd k :=
    ⟨ha, lt_pages_iff.2 (by omega), by rw [hlow]; omega⟩
  refine ⟨k, hoffers, ?_⟩
  have hbase : e.base % 0x1000 = 0 := by
    have := haligned k hoffers
    unfold MmapEntry.base
    omega
  rw [hlow]
  omega

variable {mmap : List MmapEntry} (hdisj : mmap.Pairwise MmapEntry.Apart)
include hdisj

theorem eq_of_contains (he : e ∈ mmap) (he' : e' ∈ mmap) {a : ℕ} (h : e.Contains a)
    (h' : e'.Contains a) : e = e' := by
  by_contra hne
  exact hdisj.forall he he' hne a ⟨h, h'⟩

/-- What the offered addresses tell about the map when they are real. -/
theorem withinReach_of_offers
    (hends : ∀ e ∈ mmap, e.Available → e.lenLow.toNat ≤ 0xFFFFF000)
    (halign : ∀ p ∈ allOffers kernelEnd mmap, p % 0x1000 = 0)
    (hinside : ∀ p ∈ allOffers kernelEnd mmap, ∃ e ∈ mmap, e.Available ∧ e.HasFrame p)
    (hnodup : (allOffers kernelEnd mmap).Nodup) : WithinReach kernelEnd mmap := by
  have hapart := (nodup_allOffers hends).1 hnodup
  have hmem : ∀ e ∈ mmap, ∀ k, e.Offers kernelEnd k → e.lowAddr k ∈ allOffers kernelEnd mmap :=
    fun e he k hk => mem_allOffers.2 ⟨e, he, k, hk, rfl⟩
  have haligned : ∀ e ∈ mmap, ∀ k, e.Offers kernelEnd k → e.addrLow.toNat % 0x1000 = 0 := by
    intro e he k hk
    have := halign _ (hmem e he k hk)
    unfold MmapEntry.lowAddr wrap32 at this
    omega
  refine ⟨hends, haligned, ?_, ?_, ?_⟩
  · intro e he k hk hlow
    obtain ⟨e', he', -, hframe⟩ := hinside _ (hmem e he k hk)
    rw [lowAddr_eq hlow] at hframe
    obtain rfl := eq_of_contains hdisj he he' hk.contains (HasFrame.contains hframe)
    have := hframe.2
    omega
  · intro e he k hk hhigh
    obtain ⟨e', he', ha', hframe⟩ := hinside _ (hmem e he k hk)
    refine ⟨e', he', ha', ?_, hframe⟩
    intro hshort
    obtain ⟨k', hk', heq⟩ := offers_of_hasFrame ha' hshort hframe
      (halign _ (hmem e he k hk)) lowAddr_lt hk.2.2 (haligned e' he')
    have hne : e ≠ e' := by
      rintro rfl
      exact not_hasFrame_lowAddr hk (hends e he hk.1) hhigh hframe
    exact hapart.forall he he' hne k k' hk hk' heq.symm
  · exact hapart.imp fun h k k' hk hk' heq => absurd heq (h k k' hk hk')

/-- Conversely, what a map within reach offers is real. -/
theorem WithinReach.offers (h : WithinReach kernelEnd mmap) :
    (∀ p ∈ allOffers kernelEnd mmap, p % 0x1000 = 0) ∧
      (∀ p ∈ allOffers kernelEnd mmap, ∃ e ∈ mmap, e.Available ∧ e.HasFrame p) ∧
      (allOffers kernelEnd mmap).Nodup := by
  refine ⟨?_, ?_, (nodup_allOffers h.ends).2 ?_⟩
  · intro p hp
    obtain ⟨e, he, k, hk, rfl⟩ := mem_allOffers.1 hp
    have := h.aligned e he k hk
    unfold MmapEntry.lowAddr wrap32
    omega
  · intro p hp
    obtain ⟨e, he, k, hk, rfl⟩ := mem_allOffers.1 hp
    by_cases hlow : e.base + 0x1000 * k < 0x100000000
    · refine ⟨e, he, hk.1, ?_⟩
      have := h.whole e he k hk hlow
      rw [lowAddr_eq hlow]
      unfold MmapEntry.HasFrame
      omega
    · obtain ⟨e', he', ha', -, hframe⟩ := h.lent e he k hk (by omega)
      exact ⟨e', he', ha', hframe⟩
  · apply (hdisj.and h.apart).imp
    rintro e e' ⟨hap, hsame⟩ k k' hk hk' heq
    refine hap _ ⟨hk.contains, ?_⟩
    rw [hsame k k' hk hk' heq]
    exact hk'.contains

end Real

/-- `pmm_init` terminates and hands out real memory exactly if every page that an available
region offers lies within reach of the loop. -/
theorem pmmInit_handsOutMemory_iff (kernelEnd : UInt32) (mmap : List MmapEntry) (m : Mem)
    (hm : m.pmemStack = []) (hdisj : mmap.Pairwise MmapEntry.Apart) :
    (∃ n m', pmmInit n kernelEnd mmap m = .ok m' ∧ HandsOutMemory kernelEnd mmap m') ↔
      WithinReach kernelEnd mmap := by
  constructor
  · rintro ⟨n, m', hrun, hreal⟩
    obtain ⟨hends, rfl⟩ := pmmInit_pushes hrun
    have hstack : ∀ p, p ∈ allOffers kernelEnd mmap →
        p ∈ (allOffers kernelEnd mmap).reverse ++ m.pmemStack :=
      fun p hp => List.mem_append_left _ (List.mem_reverse.2 hp)
    apply withinReach_of_offers hdisj hends
    · exact fun p hp => hreal.aligned p (hstack p hp)
    · exact fun p hp => hreal.inside p (hstack p hp)
    · exact List.nodup_reverse.1 (List.nodup_append.1 hreal.nodup).1
  · intro h
    obtain ⟨halign, hinside, hnodup⟩ := h.offers hdisj
    have hbound : ∀ p ∈ allOffers kernelEnd mmap,
        kernelTop kernelEnd < p ∧ p < 0x100000000 := by
      intro p hp
      obtain ⟨e, -, k, hk, rfl⟩ := mem_allOffers.1 hp
      exact ⟨hk.2.2, lowAddr_lt⟩
    have hcount := length_frames_le hnodup fun p hp => ⟨halign p hp, (hbound p hp).2⟩
    obtain ⟨m', hrun⟩ := pmmInit_ends kernelEnd (n := 0x100000) (by decide) h.ends
      (by rw [hm]; exact hcount : _ + m.pmemStack.length ≤ maxPages)
    refine ⟨0x100000, m', hrun, ?_⟩
    obtain ⟨-, rfl⟩ := pmmInit_pushes hrun
    rw [hm, List.append_nil]
    constructor
    · exact fun p hp => halign p (List.mem_reverse.1 hp)
    · exact fun p hp => hinside p (List.mem_reverse.1 hp)
    · exact fun p hp => (hbound p (List.mem_reverse.1 hp)).1.le
    · exact List.nodup_reverse.2 hnodup
    · rw [List.length_reverse]
      exact hcount

/-- A memory with nothing on the frame stack. -/
def unusedMem : Mem := ⟨[], fun _ _ => none, fun _ => 0, 0, 0, 0x1000⟩

/-- Conventional memory up to `0x9FC00` and 2 MiB from the first megabyte on. -/
def smallMap : List MmapEntry := [⟨0, 0, 0x9FC00, 0, 1⟩, ⟨0x100000, 0, 0x200000, 0, 1⟩]

theorem smallMap_withinReach : WithinReach 0xC0200000 smallMap := by
  have hoffers : ∀ e ∈ smallMap, ∀ k, e.Offers 0xC0200000 k →
      e = ⟨0x100000, 0, 0x200000, 0, 1⟩ ∧ k < 0x200 := by
    intro e he k hk
    rcases List.mem_pair.1 he with rfl | rfl
    · have hpages : k < 160 := hk.2.1
      have habove : 0x200000 < (0 + 0x1000 * k) % 0x100000000 := hk.2.2
      omega
    · exact ⟨rfl, hk.2.1⟩
  constructor
  · decide
  · intro e he k hk
    obtain ⟨rfl, -⟩ := hoffers e he k hk
    rfl
  · intro e he k hk _
    obtain ⟨rfl, hlt⟩ := hoffers e he k hk
    show 0x1000 * (k + 1) ≤ 0x200000
    omega
  · intro e he k hk hhigh
    obtain ⟨rfl, hlt⟩ := hoffers e he k hk
    replace hhigh : 0x100000000 ≤ 0x100000 + 0x1000 * k := hhigh
    omega
  · apply List.pairwise_pair.2
    intro k k' hk _ _
    obtain ⟨hfirst, -⟩ := hoffers _ List.mem_cons_self k hk
    exact absurd hfirst (by decide)

theorem pmmInit_handsOutMemory_smallMap :
    ∃ n m', pmmInit n 0xC0200000 smallMap unusedMem = .ok m' ∧
      HandsOutMemory 0xC0200000 smallMap m' := by
  apply (pmmInit_handsOutMemory_iff 0xC0200000 smallMap unusedMem rfl _).2 smallMap_withinReach
  apply List.pairwise_pair.2
  rintro a ⟨⟨_, hlt⟩, hle, _⟩
  replace hlt : a < 0 + 0x9FC00 := hlt
  replace hle : 0x100000 ≤ a := hle
  omega

/-- One page at `0x101000000`, above 4 GiB: its low half goes onto the stack. -/
theorem pmmInit_above_4G :
    ¬∃ n m', pmmInit n 0xC0200000 [⟨0x1000000, 1, 0x1000, 0, 1⟩] unusedMem = .ok m' ∧
      HandsOutMemory 0xC0200000 [⟨0x1000000, 1, 0x1000, 0, 1⟩] m' := by
  rintro ⟨n, m', hrun, hreal⟩
  obtain ⟨-, rfl⟩ := pmmInit_pushes hrun
  obtain ⟨e, he, -, hframe⟩ := hreal.inside 0x1000000 (by decide)
  obtain rfl := List.mem_singleton.1 he
  exact absurd hframe.1 (by decide)

end GalaxyOS
