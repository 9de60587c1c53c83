import GalaxyOS.Mem.LiballocBooks

/-! # Blocks that are not there

If `liballoc_alloc` returns an address where nothing is mapped, the first thing that happens is a store to
it, which fails.  So the allocator does the same with hooks that fail themselves in this case, and for
those the results about lawful hooks apply.

`malloc_checked`, `call_checked` and `allowed_checked` carry the calls over, one function after the other
(`bind_checked`), and `Client.Sound.unchecked` brings the result back. -/

namespace GalaxyOS

open Transition Records Linked BlockStore

variable {σ : Type}

/-- The hooks, failing where the block that they return is not mapped. -/
def LiballocHooks.checked (H : LiballocHooks σ) : LiballocHooks σ :=
  { H with
    liballocAlloc := fun s n => do
      let (a, s') ← H.liballocAlloc s n
      if a ≠ 0 ∧ H.load s' a = none then .error .wildAccess else .ok (a, s') }

variable {H : LiballocHooks σ} {v : LiballocVersion} {Ok : σ → Prop} {h : Client σ}

/-- Where the failure would come anyway, it does not matter that it comes sooner. -/
theorem bind_checked {α : Type} (s : σ) (n : ℕ) (k : ℕ × σ → Except Fault α)
    (hk : ∀ a s', a ≠ 0 → H.load s' a = none → k (a, s') = .error .wildAccess) :
    (H.checked.liballocAlloc s n >>= k) = (H.liballocAlloc s n >>= k) := by
  show ((H.liballocAlloc s n >>= fun r =>
    if r.1 ≠ 0 ∧ H.load r.2 r.1 = none then .error .wildAccess else .ok (r.1, r.2)) >>= k) = _
  cases H.liballocAlloc s n with
  | error e => rfl
  | ok r =>
      rw [ok_bind, ok_bind]
      by_cases hmiss : r.1 ≠ 0 ∧ H.load r.2 r.1 = none
      · rw [if_pos hmiss, error_bind, hk r.1 r.2 hmiss.1 hmiss.2]
      · rw [if_neg hmiss, ok_bind]

theorem allocateNewPage_checked (st : Liballoc σ) (size : ℕ) :
    allocateNewPage H.checked st size = allocateNewPage H st size := by
  refine bind_checked st.sys _ _ fun a s ha hload => ?_
  have hstore : Liballoc.setMajor H.checked { st with sys := s } a .prev 0 = .error .wildAccess := by
    unfold Liballoc.setMajor Liballoc.storeWord Bytes.writeNum
    rw [show H.checked.load s (a + 4 * MajorField.prev.index) = none from hload]
  simp only [if_neg ha, hstore, error_bind]

theorem appendMajor_checked (st : Liballoc σ) (maj size : ℕ) :
    appendMajor H.checked st maj size = appendMajor H st maj size := by
  unfold appendMajor
  rw [allocateNewPage_checked]
  rfl

theorem mallocCase1_checked (st : Liballoc σ) (maj : ℕ) (b : Bool) (size : ℕ) :
    mallocCase1 H.checked v st maj b size = mallocCase1 H v st maj b size := by
  unfold mallocCase1
  simp only [appendMajor_checked]
  rfl

theorem mallocCase5_checked (st : Liballoc σ) (maj : ℕ) (b : Bool) (size : ℕ) :
    mallocCase5 H.checked st maj b size = mallocCase5 H st maj b size := by
  unfold mallocCase5
  simp only [appendMajor_checked]
  rfl

theorem mallocInside_checked (st : Liballoc σ) (maj : ℕ) (b : Bool) (bestSize size req : ℕ) :
    mallocInside H.checked st maj b bestSize size req = mallocInside H st maj b bestSize size req := by
  unfold mallocInside
  simp only [mallocCase5_checked]
  rfl

theorem mallocRound_checked (size req : ℕ) :
    mallocRound H.checked v size req = mallocRound H v size req := by
  funext x
  unfold mallocRound
  simp only [mallocCase1_checked, mallocInside_checked]
  rfl

theorem mallocSized_checked (st : Liballoc σ) (size req : ℕ) :
    mallocSized H.checked v st size req = mallocSized H v st size req := by
  unfold mallocSized mallocSearch
  simp only [allocateNewPage_checked, mallocRound_checked]
  rfl

theorem malloc_checked (st : Liballoc σ) (req : ℕ) : malloc H.checked v st req = malloc H v st req := by
  unfold malloc
  simp only [mallocSized_checked]

theorem liballocMemset_checked (b : UInt8) (n : ℕ) : ∀ (st : Liballoc σ) (a : ℕ),
    liballocMemset H.checked st a b n = liballocMemset H st a b n := by
  induction n with
  | zero => exact fun _ _ => rfl
  | succ n ih =>
      intro st a
      unfold liballocMemset
      simp only [ih]
      rfl

theorem liballocMemcpy_checked (st : Liballoc σ) (dst src n : ℕ) :
    liballocMemcpy H.checked st dst src n = liballocMemcpy H st dst src n := by
  have hwords : ∀ (k : ℕ) (st : Liballoc σ) (dst src : ℕ),
      copyWords H.checked st dst src k = copyWords H st dst src k := by
    intro k
    induction k with
    | zero => exact fun _ _ _ => rfl
    | succ k ih =>
        intro st dst src
        unfold copyWords
        simp only [ih]
        rfl
  have hbytes : ∀ (k : ℕ) (st : Liballoc σ) (dst src : ℕ),
      copyBytes H.checked st dst src k = copyBytes H st dst src k := by
    intro k
    induction k with
    | zero => exact fun _ _ _ => rfl
    | succ k ih =>
        intro st dst src
        unfold copyBytes
        simp only [ih]
        rfl
  unfold liballocMemcpy
  simp only [hwords, hbytes]

theorem exec_checked (st : Liballoc σ) (c : HeapCall σ) : c.exec H.checked v st = c.exec H v st := by
  cases c with
  | malloc size => exact malloc_checked st size
  | calloc nobj size =>
      show calloc H.checked v st nobj size = calloc H v st nobj size
      unfold calloc
      simp only [malloc_checked, liballocMemset_checked]
  | realloc p size =>
      show realloc H.checked v st p size = realloc H v st p size
      unfold realloc
      simp only [malloc_checked, liballocMemcpy_checked]
      rfl
  | free p => rfl
  | store p i b => rfl
  | world s others => rfl

theorem call_checked : Client.call H.checked v = Client.call H v := by
  funext h c
  unfold Client.call
  rw [exec_checked]
  rfl

/-- The users may do the same. -/
theorem allowed_checked {top : ℕ} {c : HeapCall σ} :
    c.Allowed H.checked Ok top h ↔ c.Allowed H Ok top h := by
  cases c <;> exact Iff.rfl

theorem Client.Fresh.checked (hf : h.Fresh H Ok) : h.Fresh H.checked Ok :=
  ⟨hf.ok, hf.root, hf.bet, hf.allocated, hf.inuse, hf.blocks, hf.others⟩

theorem Client.Sound.unchecked (hs : h.Sound H.checked) : h.Sound H :=
  ⟨hs.aligned, hs.distinct, hs.apart, hs.own, hs.reads, hs.others⟩

end GalaxyOS
