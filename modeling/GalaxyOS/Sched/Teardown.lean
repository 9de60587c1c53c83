import GalaxyOS.Lib.Holdings
import GalaxyOS.Sched.Waiters

/-! # Freeing the blocks of a thread

`sched_create_thread` allocates the record of a thread and its kernel stack with `kmalloc`, and the
page table of a userland stack with `liballoc_alloc`.  It does not keep the base of the kernel stack:
`esp_k` points at the frame of the thread, and `set_thread_stack` moves it at every interrupt.
`sched_pick_next` passes `esp_k` to `kfree` when it removes the thread, and it never gives the page
table back.

What `kmalloc` returns is an input, and so are the blocks that the rest of the kernel allocates and
frees between the calls.

`removals_right_iff` says for which runs every removal gives back what has been allocated.
`StackInv.step` keeps the blocks of the threads apart, and `StackInv.step_right` is the equivalence for
one step. -/

namespace GalaxyOS

open Transition Holdings

/-- `THREAD_STACK_SIZE`. -/
def threadStackSize : ℕ := 4096 * 2

/-- What `kmalloc` returns for `struct thread` and for the kernel stack. -/
structure Grant where
  record : ℕ
  stack : ℕ
deriving DecidableEq, Repr

/-- The blocks that `kmalloc` has allocated, and the pages that hold the tables of stacks. -/
structure Blocks where
  heap : List ℕ
  pages : List ℕ
deriving DecidableEq, Repr

/-- A pointer passed to `kfree`, and the blocks that were allocated then. -/
structure KfreeCall where
  ptr : ℕ
  heap : List ℕ
deriving DecidableEq, Repr

/-- The removal of a thread: what its creation had allocated, the pointers passed to `kfree`, and what
is allocated afterwards. -/
structure Removal where
  made : Grant
  pages : List ℕ
  frees : List KfreeCall
  left : Blocks
deriving DecidableEq, Repr

/-- Every pointer passed to `kfree` is the one that `kmalloc` has returned for an allocated block, and
nothing that the creation allocated is left. -/
def Removal.Right (x : Removal) : Prop :=
  (∀ c ∈ x.frees, c.ptr ∈ c.heap) ∧ (x.made.record ∉ x.left.heap ∧ x.made.stack ∉ x.left.heap) ∧
    ∀ a ∈ x.pages, a ∉ x.left.pages

instance : DecidablePred Removal.Right := fun _ => inferInstanceAs (Decidable (_ ∧ _))

/-- The kernel with the blocks of its threads: `espK` is the field `esp_k`, `made` and `pages` are what
the creation of each thread has allocated. -/
structure StackState where
  kernel : Kernel
  blocks : Blocks
  made : Int → Grant
  pages : Int → List ℕ
  espK : Int → ℕ
  removals : List Removal

/-- The page table of a userland stack. -/
def Thread.stackTable (t : Thread) : List ℕ := if t.privilegeLevel = 0 then [] else [t.stackpt]

/-- The size of the frame that `sched_create_thread` puts on the kernel stack. -/
def Thread.frameSize (t : Thread) : ℕ := if t.privilegeLevel = 0 then 68 else 76

/-- The blocks of `sched_create_thread` for the thread `tid`. -/
def StackState.create (st : StackState) (g : Grant) (tid : Int) (t : Thread) : StackState :=
  { st with
    blocks := ⟨[g.stack, g.record] ++ st.blocks.heap, t.stackTable ++ st.blocks.pages⟩
    made := Function.update st.made tid g
    pages := Function.update st.pages tid t.stackTable
    espK := Function.update st.espK tid (wrap32 (g.stack + threadStackSize - t.frameSize)) }

/-- The threads that a round removes. -/
def roundRemoved (st : Kernel × Bool) : List Int :=
  match st.1.threads (pickFetch st.1 st.2).1 with
  | none => []
  | some t => if t.state = .dead then [(pickFetch st.1 st.2).1] else []

/-- The threads that a call removes. -/
def Call.removed (s : Kernel) : Call → List Int
  | .pickNext => gather roundRemoved pickBody (pickFuel s) ({ s with currenttid := -1 }, false)
  | _ => []

section Teardown

-- the blocks that are left when `kfree` is given a pointer that is none of them
variable (stray : List ℕ → ℕ → List ℕ)

def kfree (heap : List ℕ) (ptr : ℕ) : List ℕ :=
  if ptr ∈ heap then heap.erase ptr else stray heap ptr

/-- `kfree(threads[nexttid]->esp_k); kfree(threads[nexttid]);` -/
def StackState.teardown (st : StackState) (tid : Int) : StackState :=
  let heap₁ := kfree stray st.blocks.heap (st.espK tid)
  let heap₂ := kfree stray heap₁ (st.made tid).record
  { st with
    blocks := ⟨heap₂, st.blocks.pages⟩
    removals := st.removals ++ [⟨st.made tid, st.pages tid,
      [⟨st.espK tid, st.blocks.heap⟩, ⟨(st.made tid).record, heap₁⟩], ⟨heap₂, st.blocks.pages⟩⟩] }

/-- A call, an interrupt, or an allocation by the rest of the kernel. -/
inductive StackAct where
  | call (c : Call) (g : Grant)
  | setThreadStack (espK : ℕ) (frame : Regs)
  | kmalloc (ptr : ℕ)
  | kfree (ptr : ℕ)

/-- `set_thread_stack`; `frame` is what the interrupt has put there. -/
def setThreadStack (st : StackState) (espK : ℕ) (frame : Regs) : Except Fault StackState :=
  if st.kernel.currenttid = -1 then .ok st
  else do
    let t ← st.kernel.threadAt st.kernel.currenttid
    .ok { st with
      kernel := st.kernel.setThread st.kernel.currenttid (some { t with frame := frame })
      espK := Function.update st.espK st.kernel.currenttid espK }

/-- The blocks of a thread that the kernel has just created, if it has. -/
def StackState.spawn (st : StackState) (g : Grant) (lastTid : Int) : Except Fault StackState :=
  if st.kernel.lastTid = lastTid then .ok st
  else if g.record = 0 then .error .nullDeref
  else if g.stack = 0 then .error .wildAccess
  else do
    let t ← st.kernel.threadAt lastTid
    .ok (st.create g lastTid t)

def StackState.exec (st : StackState) : StackAct → Except Fault StackState
  | .call c g => do
      let (_, s') ← GalaxyOS.exec st.kernel c
      let st₁ := (c.removed st.kernel).foldl (StackState.teardown stray) st
      StackState.spawn { st₁ with kernel := s' } g st.kernel.lastTid
  | .setThreadStack espK frame => setThreadStack st espK frame
  | .kmalloc ptr => .ok { st with blocks := { st.blocks with heap := ptr :: st.blocks.heap } }
  | .kfree ptr =>
      .ok { st with blocks := { st.blocks with heap := GalaxyOS.kfree stray st.blocks.heap ptr } }

end Teardown

/-- `kmalloc` returns blocks that are not allocated. -/
def Grant.Fresh (g : Grant) (heap : List ℕ) : Prop :=
  g.record ∉ heap ∧ g.stack ∉ heap ∧ g.record ≠ g.stack

/-- The pages that a call gives back with `liballoc_free`: the first address and their number. -/
def Call.freedPages : Call → ℕ × ℕ
  | .liballocFree addr pages => (addr, pages)
  | _ => (0, 0)

/-- No page table is among the pages that a call gives back. -/
def Call.SparesTables (tables : List ℕ) (c : Call) : Prop :=
  ∀ a ∈ tables, ¬(c.freedPages.1 ≤ a ∧ a < c.freedPages.1 + 0x1000 * c.freedPages.2)

/-- What the allocator and the rest of the kernel promise: new blocks are not allocated, and nobody
frees anything but an allocated block that no thread has got from its creation. -/
def StackAct.Promised (st : StackState) : StackAct → Prop
  | .call c g => g.Fresh st.blocks.heap ∧ c.SparesTables st.blocks.pages
  | .setThreadStack _ _ => True
  | .kmalloc ptr => ptr ∉ st.blocks.heap
  | .kfree ptr => ptr ∈ st.blocks.heap ∧ ∀ tid < st.kernel.lastTid.toNat, ∀ t,
      st.kernel.threads tid = some t → ptr ≠ (st.made tid).record ∧ ptr ≠ (st.made tid).stack

/-- The thread has no page table, and its stack pointer is the base of its kernel stack. -/
def StackState.AtBase (st : StackState) (tid : Int) : Prop :=
  st.pages tid = [] ∧ st.espK tid = (st.made tid).stack

/-- Every thread that is removed is at the base of its kernel stack. -/
def StackAct.Clean (st : StackState) : StackAct → Prop
  | .call c _ => ∀ tid ∈ c.removed st.kernel, st.AtBase tid
  | _ => True

/-- All removals so far have been right. -/
def StackState.AllRight (st : StackState) : Prop := ∀ x ∈ st.removals, x.Right

/-- The state after `sched_init`, which creates the idle thread, a kernel thread. -/
def StackState.start (s : Kernel) (g : Grant) (heap : List ℕ) : StackState :=
  { kernel := s
    blocks := ⟨[g.stack, g.record] ++ heap, []⟩
    made := fun _ => g
    pages := fun _ => []
    espK := fun _ => wrap32 (g.stack + threadStackSize - 68)
    removals := [] }

def StackStart (st : StackState) : Prop :=
  ∃ s g heap, Started s ∧ heap.Nodup ∧ g.Fresh heap ∧ st = StackState.start s g heap

/-! ### Removals -/

theorem exists_of_roundRemoved {st : Kernel × Bool} {tid : Int} (h : tid ∈ roundRemoved st) :
    tid = (pickFetch st.1 st.2).1 ∧ ∃ t, st.1.threads tid = some t ∧ t.state = .dead := by
  unfold roundRemoved at h
  cases ht : st.1.threads (pickFetch st.1 st.2).1 with
  | none => simp [ht] at h
  | some t =>
      simp only [ht] at h
      split_ifs at h with hdead
      · obtain rfl := List.mem_singleton.mp h
        exact ⟨rfl, t, ht, hdead⟩
      · cases h

theorem roundRemoved_nodup (st : Kernel × Bool) : (roundRemoved st).Nodup := by
  unfold roundRemoved
  cases st.1.threads (pickFetch st.1 st.2).1 with
  | none => exact List.nodup_nil
  | some t =>
      simp only
      split_ifs
      · exact List.nodup_singleton _
      · exact List.nodup_nil

/-- The threads `l` have been removed since `s`, each of them once. -/
structure Kernel.Removed (s : Kernel) (l : List Int) (s' : Kernel) : Prop where
  nodup : l.Nodup
  was : ∀ tid ∈ l, ∃ t, s.threads tid = some t
  gone : ∀ tid ∈ l, s'.threads tid = none
  keeps : s.Keeps s'

theorem Kernel.Keeps.none {s s' : Kernel} {tid : Int} (h : s.Keeps s') (ht : s.threads tid = none) :
    s'.threads tid = none := by
  cases ht' : s'.threads tid with
  | none => rfl
  | some t' =>
      obtain ⟨t, hold, -⟩ := h.threads tid t' ht'
      rw [ht] at hold
      cases hold

theorem Kernel.Removed.round {s s₁ s₂ : Kernel} {loop : Bool} {l : List Int} (h : s.Removed l s₁)
    (hd : pickDispatch (pickFetch s₁ loop).2.1 (pickFetch s₁ loop).1 = .ok s₂) :
    s.Removed (l ++ roundRemoved (s₁, loop)) s₂ := by
  obtain ⟨t, ht, -, heff⟩ := pickDispatch_ok hd
  have hkeep := (pickFetch_keeps s₁ loop).trans (heff.keeps ht)
  refine ⟨?_, fun tid htid => ?_, fun tid htid => ?_, h.keeps.trans hkeep⟩
  · apply List.nodup_append.mpr
    refine ⟨h.nodup, roundRemoved_nodup _, fun i hi j hj hij => ?_⟩
    obtain ⟨-, u, hu, -⟩ := exists_of_roundRemoved hj
    have hgone := h.gone i hi
    rw [hij] at hgone
    rw [hgone] at hu
    cases hu
  · cases List.mem_append.mp htid with
    | inl hold => exact h.was tid hold
    | inr hnew =>
        obtain ⟨-, u, hu, -⟩ := exists_of_roundRemoved hnew
        obtain ⟨u₀, hu₀, -⟩ := h.keeps.threads tid u hu
        exact ⟨u₀, hu₀⟩
  · cases List.mem_append.mp htid with
    | inl hold => exact hkeep.none (h.gone tid hold)
    | inr hnew =>
        obtain ⟨rfl, u, hu, hdead⟩ := exists_of_roundRemoved hnew
        obtain ⟨l, hl⟩ := pickFetch_eq s₁ loop
        simp only [hl] at ht heff
        obtain rfl := Option.some.inj (hu.symm.trans ht)
        rw [heff.freed hdead]
        exact Function.update_self ..

theorem schedPickNext_removed {s s' : Kernel} (h : schedPickNext s = .ok s') :
    s.Removed (Call.pickNext.removed s) s' := by
  have hstart : s.Removed [] { s with currenttid := -1 } :=
    ⟨List.nodup_nil, fun _ htid => absurd htid List.not_mem_nil,
      fun _ htid => absurd htid List.not_mem_nil, rfl, rfl, .refl s.processes, .refl s.threads⟩
  have hrounds := whileE_gather (f := roundRemoved) (I := fun st l => s.Removed l st.1)
    (C := fun _ => True) (Q := fun s' l => s.Removed l s') ?_ ?_ (l := []) hstart (heads_true _ _) h
  · exact hrounds
  · rintro ⟨s₁, loop⟩ l st' hI - hb
    obtain ⟨s₂, hd, -, rfl⟩ := pickBody_inl hb
    exact hI.round hd
  · rintro ⟨s₁, loop⟩ l s₂ hI - hb
    exact hI.round (pickBody_inr hb).1

/-! ### Who holds which block -/

/-- Every thread holds its record and its kernel stack. -/
def holdings (threads : Int → Option Thread) (made : Int → Grant) : Int → Option (List ℕ) :=
  fun tid => (threads tid).map fun _ => [(made tid).stack, (made tid).record]

theorem holdings_some {threads : Int → Option Thread} {made : Int → Grant} {tid : Int} {t : Thread}
    (ht : threads tid = some t) :
    holdings threads made tid = some [(made tid).stack, (made tid).record] := by
  unfold holdings
  rw [ht]
  rfl

/-- The blocks belong to the threads `threads`. -/
structure StackState.Owns (st : StackState) (threads : Int → Option Thread) : Prop where
  held : Held (holdings threads st.made) st.blocks.heap
  pages : ∀ tid t, threads tid = some t → ∀ a ∈ st.pages tid, a ∈ st.blocks.pages

section Steps

variable {stray : List ℕ → ℕ → List ℕ} {st st' : StackState} {threads threads' : Int → Option Thread}
  {tid : Int} {t : Thread}

theorem StackState.Owns.forget (h : st.Owns threads)
    (hsub : ∀ tid t', threads' tid = some t' → ∃ t, threads tid = some t) : st.Owns threads' := by
  refine ⟨h.held.forget fun i l hi => ?_, fun i t' ht' => ?_⟩
  · obtain ⟨t', ht', rfl⟩ := Option.map_eq_some_iff.mp hi
    obtain ⟨t, ht⟩ := hsub i t' ht'
    exact holdings_some ht
  · obtain ⟨t, ht⟩ := hsub i t' ht'
    exact h.pages i t ht

theorem StackState.Owns.blocks (h : st.Owns threads) (ht : threads tid = some t) :
    (st.made tid).stack ∈ st.blocks.heap ∧ (st.made tid).record ∈ st.blocks.heap ∧
      (st.made tid).stack ≠ (st.made tid).record := by
  have hheld : holdings threads st.made tid = some [(st.made tid).stack, (st.made tid).record] :=
    holdings_some ht
  have hin := h.held.allocated tid _ hheld
  have hne := h.held.each tid _ hheld
  simp only [List.nodup_cons, List.mem_singleton] at hne
  exact ⟨hin _ List.mem_cons_self, hin _ (List.mem_cons_of_mem _ List.mem_cons_self), hne.1⟩

theorem kfree_of_mem {heap : List ℕ} {ptr : ℕ} (h : ptr ∈ heap) :
    kfree stray heap ptr = heap.erase ptr := if_pos h

theorem holdings_erase (threads : Int → Option Thread) (made : Int → Grant) (tid : Int) :
    holdings (Function.update threads tid none) made =
      Function.update (holdings threads made) tid none := by
  funext i
  unfold holdings
  by_cases hi : i = tid
  · rw [hi, Function.update_self, Function.update_self]
    rfl
  · rw [Function.update_of_ne hi, Function.update_of_ne hi]

variable (stray)

/-- At the base of its stack, a thread is given back block by block. -/
theorem StackState.AtBase.heap (hbase : st.AtBase tid) (h : st.Owns threads)
    (ht : threads tid = some t) : (st.teardown stray tid).blocks.heap =
      st.blocks.heap.diff [(st.made tid).stack, (st.made tid).record] := by
  obtain ⟨hstack, hrecord, hne⟩ := h.blocks ht
  have hrecord₁ := (List.mem_erase_of_ne hne.symm).mpr hrecord
  simp only [StackState.teardown, hbase.2, kfree_of_mem hstack, kfree_of_mem hrecord₁,
    List.diff_cons, List.diff_nil]

/-- The removal of a thread is right exactly if the thread is at the base of its stack. -/
theorem StackState.Owns.teardown_right (h : st.Owns threads) (ht : threads tid = some t) :
    (st.teardown stray tid).AllRight ↔ st.AllRight ∧ st.AtBase tid := by
  obtain ⟨hstack, hrecord, hne⟩ := h.blocks ht
  have hnodup := h.held.nodup
  unfold StackState.AllRight StackState.teardown
  rw [List.forall_mem_append, List.forall_mem_singleton]
  refine and_congr_right fun _ => ⟨fun hright => ?_, fun hbase => ?_⟩
  · obtain ⟨hfrees, ⟨-, hleft⟩, hpages⟩ := hright
    simp only [List.forall_mem_cons] at hfrees
    obtain ⟨hesp, hrec, -⟩ := hfrees
    rw [kfree_of_mem hesp] at hrec hleft
    rw [kfree_of_mem hrec] at hleft
    constructor
    · exact List.eq_nil_iff_forall_not_mem.mpr fun a ha => hpages a ha (h.pages tid t ht a ha)
    · by_contra hesp_ne
      apply hleft
      exact (List.mem_erase_of_ne hne).mpr ((List.mem_erase_of_ne fun heq => hesp_ne heq.symm).mpr hstack)
  · have hrecord₁ := (List.mem_erase_of_ne hne.symm).mpr hrecord
    unfold Removal.Right
    simp only [hbase.1, hbase.2, kfree_of_mem hstack, kfree_of_mem hrecord₁, List.forall_mem_cons]
    refine ⟨⟨hstack, hrecord₁, fun _ hc => absurd hc List.not_mem_nil⟩, ⟨?_, ?_⟩,
      fun _ hc => absurd hc List.not_mem_nil⟩
    · exact (hnodup.erase _).not_mem_erase
    · exact fun hmem => hnodup.not_mem_erase (List.mem_of_mem_erase hmem)

theorem StackState.Owns.teardown (h : st.Owns threads) (ht : threads tid = some t)
    (hbase : st.AtBase tid) : (st.teardown stray tid).Owns (Function.update threads tid none) := by
  refine ⟨?_, fun i t' ht' => ?_⟩
  · rw [hbase.heap stray h ht]
    show Held (holdings (Function.update threads tid none) st.made) _
    rw [holdings_erase]
    exact h.held.release (holdings_some ht)
  · by_cases hi : i = tid
    · rw [hi, Function.update_self] at ht'
      cases ht'
    · rw [Function.update_of_ne hi] at ht'
      exact h.pages i t' ht'

theorem StackState.allRight_of_teardowns : ∀ {l : List Int} {st : StackState},
    (l.foldl (StackState.teardown stray) st).AllRight → st.AllRight
  | [], _, h => h
  | tid :: l, st, h => by
      have hfirst : (st.teardown stray tid).AllRight := StackState.allRight_of_teardowns (l := l) h
      exact fun x hx => hfirst x (List.mem_append_left _ hx)

theorem StackState.Owns.teardowns_right : ∀ {l : List Int} {st : StackState}
    {threads : Int → Option Thread}, st.Owns threads → l.Nodup →
    (∀ tid ∈ l, ∃ t, threads tid = some t) →
    ((l.foldl (StackState.teardown stray) st).AllRight ↔ st.AllRight ∧ ∀ tid ∈ l, st.AtBase tid)
  | [], st, threads, _, _, _ => by simp
  | tid :: l, st, threads, h, hl, hwas => by
      obtain ⟨htid, hl⟩ := List.nodup_cons.mp hl
      obtain ⟨⟨t, ht⟩, hwas⟩ := List.forall_mem_cons.mp hwas
      rw [List.foldl_cons, List.forall_mem_cons]
      have hfirst := h.teardown_right stray ht
      by_cases hbase : st.AtBase tid
      · have hrest := (h.teardown stray ht hbase).teardowns_right hl
          fun i hi => by
            have hne : i ≠ tid := fun heq => htid (heq ▸ hi)
            rw [Function.update_of_ne hne]
            exact hwas i hi
        rw [hrest, hfirst, and_assoc]
        rfl
      · constructor
        · exact fun hall => absurd (hfirst.mp (StackState.allRight_of_teardowns stray hall)).2 hbase
        · exact fun hall => absurd hall.2.1 hbase

theorem StackState.Owns.teardowns : ∀ {l : List Int} {st : StackState}
    {threads threads' : Int → Option Thread}, st.Owns threads → l.Nodup →
    (∀ tid ∈ l, ∃ t, threads tid = some t) → (∀ tid ∈ l, st.AtBase tid) →
    (∀ tid t', threads' tid = some t' → tid ∉ l ∧ ∃ t, threads tid = some t) →
    (l.foldl (StackState.teardown stray) st).Owns threads'
  | [], st, threads, threads', h, _, _, _, hsub => h.forget fun i t' ht' => (hsub i t' ht').2
  | tid :: l, st, threads, threads', h, hl, hwas, hbase, hsub => by
      obtain ⟨htid, hl⟩ := List.nodup_cons.mp hl
      obtain ⟨⟨t, ht⟩, hwas⟩ := List.forall_mem_cons.mp hwas
      obtain ⟨hfirst, hbase⟩ := List.forall_mem_cons.mp hbase
      have hown := h.teardown stray ht hfirst
      refine hown.teardowns hl (fun i hi => ?_) hbase fun i t' ht' => ?_
      · have hne : i ≠ tid := fun heq => htid (heq ▸ hi)
        rw [Function.update_of_ne hne]
        exact hwas i hi
      · obtain ⟨hnot, hold⟩ := hsub i t' ht'
        obtain ⟨hne, hnot⟩ := not_or.mp fun hc => hnot (List.mem_cons.mpr hc)
        rw [Function.update_of_ne hne]
        exact ⟨hnot, hold⟩

/-! ### Creation -/

theorem holdings_create (threads : Int → Option Thread) (made : Int → Grant) (g : Grant) (tid : Int)
    (t : Thread) :
    holdings (Function.update threads tid (some t)) (Function.update made tid g) =
      Function.update (holdings threads made) tid (some [g.stack, g.record]) := by
  funext i
  unfold holdings
  by_cases hi : i = tid
  · rw [hi, Function.update_self, Function.update_self, Function.update_self]
    rfl
  · rw [Function.update_of_ne hi, Function.update_of_ne hi, Function.update_of_ne hi]

theorem Grant.Fresh.blocks {g : Grant} {heap : List ℕ} (hg : g.Fresh heap) :
    [g.stack, g.record].Nodup ∧ ∀ a ∈ [g.stack, g.record], a ∉ heap := by
  obtain ⟨hrecord, hstack, hne⟩ := hg
  constructor
  · exact List.nodup_cons.mpr ⟨fun hmem => hne (List.mem_singleton.mp hmem).symm,
      List.nodup_singleton _⟩
  · intro a ha
    rw [List.mem_cons, List.mem_singleton] at ha
    cases ha with
    | inl hs => rwa [hs]
    | inr hr => rwa [hr]

theorem StackState.Owns.create {g : Grant} (h : st.Owns threads) (hg : g.Fresh st.blocks.heap) :
    (st.create g tid t).Owns (Function.update threads tid (some t)) := by
  refine ⟨?_, fun i t' ht' a ha => ?_⟩
  · show Held (holdings (Function.update threads tid (some t)) (Function.update st.made tid g)) _
    rw [holdings_create]
    exact h.held.grant hg.blocks.1 hg.blocks.2
  · apply List.mem_append.mpr
    by_cases hi : i = tid
    · subst hi
      simp only [StackState.create, Function.update_self] at ha
      exact .inl ha
    · simp only [StackState.create, Function.update_of_ne hi] at ha
      rw [Function.update_of_ne hi] at ht'
      exact .inr (h.pages i t' ht' a ha)

theorem StackState.spawn_ok {g : Grant} {lastTid : Int} (h : st.spawn g lastTid = .ok st') :
    st.kernel.lastTid = lastTid ∧ st' = st ∨ st.kernel.lastTid ≠ lastTid ∧
      ∃ t, st.kernel.threads lastTid = some t ∧ st' = st.create g lastTid t := by
  unfold StackState.spawn at h
  by_cases hlast : st.kernel.lastTid = lastTid
  · rw [if_pos hlast] at h
    exact .inl ⟨hlast, (Except.ok.inj h).symm⟩
  · rw [if_neg hlast] at h
    split_ifs at h with hrecord hstack
    obtain ⟨t, ht, h⟩ := bind_ok.mp h
    exact .inr ⟨hlast, t, Kernel.threadAt_ok.mp ht, (Except.ok.inj h).symm⟩

/-- A thread that has been created is the only new one. -/
theorem Kernel.Change.newThread {s s' : Kernel} (h : s.Change s') :
    (s'.lastTid = s.lastTid ∧ ∀ tid t', s'.threads tid = some t' → ∃ t, s.threads tid = some t) ∨
      (s'.lastTid ≠ s.lastTid ∧ ∃ t, s'.threads = Function.update s.threads s.lastTid (some t)) := by
  cases h with
  | keeps hkeep =>
      refine .inl ⟨hkeep.lastTid, fun tid t' ht' => ?_⟩
      obtain ⟨t, ht, -⟩ := hkeep.threads tid t' ht'
      exact ⟨t, ht⟩
  | created hcreate =>
      obtain ⟨p, mem, -, rfl⟩ := hcreate
      exact .inl ⟨rfl, fun tid t' ht' => ⟨t', ht'⟩⟩
  | spawned hspawn =>
      obtain ⟨-, p, t, mem, -, -, rfl⟩ := hspawn
      exact .inr ⟨Int.ne_of_gt (Int.lt_succ _), t, rfl⟩
  | loaded hcreate hspawn =>
      obtain ⟨p₀, mem₀, -, rfl⟩ := hcreate
      obtain ⟨-, p, t, mem, -, -, rfl⟩ := hspawn
      exact .inr ⟨Int.ne_of_gt (Int.lt_succ _), t, rfl⟩

/-! ### Steps -/

/-- What holds before every step: the blocks belong to the threads that are not removed. -/
structure StackInv (st : StackState) : Prop where
  tables : Tables st.kernel
  owns : st.Owns st.kernel.threads

theorem StackInv.callRight {c : Call} {g : Grant} (h : StackInv st)
    (hstep : st.exec stray (.call c g) = .ok st') :
    st'.AllRight ↔ st.AllRight ∧ StackAct.Clean st (.call c g) := by
  obtain ⟨⟨r, s'⟩, hexec, hspawn⟩ := bind_ok.mp hstep
  have hlog : st'.AllRight ↔ ((c.removed st.kernel).foldl (StackState.teardown stray) st).AllRight := by
    rcases StackState.spawn_ok hspawn with ⟨-, rfl⟩ | ⟨-, t, -, rfl⟩
    · rfl
    · rfl
  rw [hlog]
  cases c with
  | pickNext =>
      have hrem := schedPickNext_removed (noResult_ok hexec)
      exact h.owns.teardowns_right stray hrem.nodup hrem.was
  | _ => exact h.owns.teardowns_right stray List.nodup_nil fun _ hc => absurd hc List.not_mem_nil

theorem StackInv.other {c : Call} {g : Grant} {s' : Kernel} {r : Int} (h : StackInv st)
    (hg : g.Fresh st.blocks.heap) (hexec : exec st.kernel c = .ok (r, s'))
    (hspawn : StackState.spawn { st with kernel := s' } g st.kernel.lastTid = .ok st') :
    st'.Owns st'.kernel.threads := by
  rcases (exec_change h.tables hexec).newThread with ⟨hlast, hsub⟩ | ⟨hlast, t, hthreads⟩
  · rcases StackState.spawn_ok hspawn with ⟨-, rfl⟩ | ⟨hne, -⟩
    · have hown := h.owns.forget hsub
      exact ⟨hown.held, hown.pages⟩
    · exact absurd hlast hne
  · rcases StackState.spawn_ok hspawn with ⟨heq, -⟩ | ⟨-, u, hu, rfl⟩
    · exact absurd heq hlast
    · simp only [hthreads, Function.update_self, Option.some.injEq] at hu
      obtain rfl := hu
      have hown : StackState.Owns { st with kernel := s' } st.kernel.threads :=
        ⟨h.owns.held, h.owns.pages⟩
      show (StackState.create { st with kernel := s' } g st.kernel.lastTid t).Owns s'.threads
      rw [hthreads]
      exact hown.create hg

theorem StackInv.call {c : Call} {g : Grant} (h : StackInv st) (hg : g.Fresh st.blocks.heap)
    (hclean : StackAct.Clean st (.call c g)) (hstep : st.exec stray (.call c g) = .ok st') :
    StackInv st' := by
  obtain ⟨⟨r, s'⟩, hexec, hspawn⟩ := bind_ok.mp hstep
  have htables : Tables st'.kernel := by
    have htables := h.tables.exec hexec
    rcases StackState.spawn_ok hspawn with ⟨-, rfl⟩ | ⟨-, t, -, rfl⟩
    · exact htables
    · exact htables
  refine ⟨htables, ?_⟩
  cases c with
  | pickNext =>
      have hrem := schedPickNext_removed (noResult_ok hexec)
      rcases StackState.spawn_ok hspawn with ⟨-, rfl⟩ | ⟨hne, -⟩
      · have hsub : ∀ tid t', s'.threads tid = some t' →
            tid ∉ Call.pickNext.removed st.kernel ∧ ∃ t, st.kernel.threads tid = some t := by
          intro tid t' ht'
          obtain ⟨t, ht, -⟩ := hrem.keeps.threads tid t' ht'
          refine ⟨fun hmem => ?_, t, ht⟩
          rw [hrem.gone tid hmem] at ht'
          cases ht'
        have hown := h.owns.teardowns stray hrem.nodup hrem.was hclean hsub
        exact ⟨hown.held, hown.pages⟩
      · exact absurd hrem.keeps.lastTid hne
  | _ => exact h.other hg hexec hspawn

theorem setThreadStack_ok {espK : ℕ} {frame : Regs} (h : setThreadStack st espK frame = .ok st') :
    st' = st ∨ ∃ t, st.kernel.threads st.kernel.currenttid = some t ∧ st' = { st with
      kernel := st.kernel.setThread st.kernel.currenttid (some { t with frame := frame })
      espK := Function.update st.espK st.kernel.currenttid espK } := by
  unfold setThreadStack at h
  split_ifs at h with hcur
  · exact .inl (Except.ok.inj h).symm
  · obtain ⟨t, ht, h⟩ := bind_ok.mp h
    exact .inr ⟨t, Kernel.threadAt_ok.mp ht, (Except.ok.inj h).symm⟩

theorem StackInv.setThreadStack {espK : ℕ} {frame : Regs} (h : StackInv st)
    (hset : setThreadStack st espK frame = .ok st') : StackInv st' := by
  rcases setThreadStack_ok hset with rfl | ⟨t, ht, rfl⟩
  · exact h
  · have hkeep : st.kernel.Keeps
        (st.kernel.setThread st.kernel.currenttid (some { t with frame := frame })) :=
      Kernel.setThread_keeps ht rfl rfl
    have hown := h.owns.forget fun i t' ht' => by
      obtain ⟨t, ht, -⟩ := hkeep.threads i t' ht'
      exact ⟨t, ht⟩
    exact ⟨h.tables.keeps hkeep, hown.held, hown.pages⟩

/-- The invariant is kept by the steps that are clean. -/
theorem StackInv.step {a : StackAct} (h : StackInv st) (hok : a.Promised st) (hclean : a.Clean st)
    (hstep : st.exec stray a = .ok st') : StackInv st' := by
  cases a with
  | call c g => exact h.call stray hok.1 hclean hstep
  | setThreadStack espK frame => exact h.setThreadStack hstep
  | kmalloc ptr =>
      obtain rfl := Except.ok.inj hstep
      exact ⟨h.tables, h.owns.held.alloc hok, h.owns.pages⟩
  | kfree ptr =>
      obtain rfl := Except.ok.inj hstep
      refine ⟨h.tables, ?_, h.owns.pages⟩
      rw [kfree_of_mem hok.1]
      apply h.owns.held.free
      intro tid l hl
      obtain ⟨t, ht, rfl⟩ := Option.map_eq_some_iff.mp hl
      obtain ⟨hrange, -⟩ := h.tables.tid tid t ht
      have htid : (tid.toNat : Int) = tid := Int.toNat_of_nonneg hrange.1
      have hlt : tid.toNat < st.kernel.lastTid.toNat := by omega
      have hfree := hok.2 tid.toNat hlt
      rw [htid] at hfree
      obtain ⟨hrecord, hstack⟩ := hfree t ht
      rw [List.mem_cons, List.mem_singleton]
      exact fun hmem => hmem.elim hstack hrecord

/-- A step leaves all removals right exactly if they were right and the step is clean. -/
theorem StackInv.step_right {a : StackAct} (h : StackInv st) (hstep : st.exec stray a = .ok st') :
    st'.AllRight ↔ st.AllRight ∧ a.Clean st := by
  cases a with
  | call c g => exact h.callRight stray hstep
  | setThreadStack espK frame =>
      rcases setThreadStack_ok hstep with rfl | ⟨t, ht, rfl⟩
      · exact (and_iff_left trivial).symm
      · exact (and_iff_left trivial).symm
  | kmalloc ptr =>
      obtain rfl := Except.ok.inj hstep
      exact (and_iff_left trivial).symm
  | kfree ptr =>
      obtain rfl := Except.ok.inj hstep
      exact (and_iff_left trivial).symm

/-- A removal that has been wrong stays on record. -/
theorem StackState.allRight_of_step {a : StackAct} (hstep : st.exec stray a = .ok st')
    (hright : st'.AllRight) : st.AllRight := by
  cases a with
  | call c g =>
      obtain ⟨⟨r, s'⟩, -, hspawn⟩ := bind_ok.mp hstep
      apply StackState.allRight_of_teardowns stray (l := c.removed st.kernel)
      rcases StackState.spawn_ok hspawn with ⟨-, rfl⟩ | ⟨-, t, -, rfl⟩
      · exact hright
      · exact hright
  | setThreadStack espK frame =>
      rcases setThreadStack_ok hstep with rfl | ⟨t, ht, rfl⟩
      · exact hright
      · exact hright
  | kmalloc ptr =>
      obtain rfl := Except.ok.inj hstep
      exact hright
  | kfree ptr =>
      obtain rfl := Except.ok.inj hstep
      exact hright

end Steps

/-! ### Runs -/

/-- `sched_init` creates the idle thread and no other. -/
theorem Started.threads {s : Kernel} (h : Started s) :
    ∃ t, s.threads = Function.update (fun _ => none) s.idletid (some t) := by
  obtain ⟨mem, eflags, idleLoop, h⟩ := h
  simp only [schedInit, bind_ok, Prod.exists, Except.ok.injEq] at h
  obtain ⟨pid, s₁, hcreate, tid, s₂, hthread, rfl⟩ := h
  obtain ⟨-, p, mem₁, -, rfl⟩ := schedCreateProcess_ok hcreate
  obtain ⟨rfl, -, q, t, mem₂, -, -, rfl⟩ := schedCreateThread_ok hthread
  exact ⟨t, rfl⟩

theorem StackInv.start {st : StackState} (h : StackStart st) : StackInv st ∧ st.AllRight := by
  obtain ⟨s, g, heap, hs, hheap, hg, rfl⟩ := h
  obtain ⟨t, hthreads⟩ := hs.threads
  have hnone : Held (fun _ : Int => none) heap :=
    ⟨hheap, fun _ _ h => (by cases h), fun _ _ h => (by cases h), fun _ _ _ _ _ h => (by cases h)⟩
  refine ⟨⟨.started hs, ?_, fun _ _ _ _ ha => absurd ha List.not_mem_nil⟩,
    fun _ hx => absurd hx List.not_mem_nil⟩
  apply (hnone.grant (k := s.idletid) hg.blocks.1 hg.blocks.2).forget
  intro tid l hl
  obtain ⟨u, hu, rfl⟩ := Option.map_eq_some_iff.mp hl
  have htid : tid = s.idletid := by
    by_contra hne
    simp only [StackState.start, hthreads, Function.update_of_ne hne] at hu
    cases hu
  rw [htid, Function.update_self]
  rfl

/-- **Removing a thread frees what its creation has allocated** exactly as long as every thread that is
removed is a kernel thread whose saved stack pointer is the base of its kernel stack. -/
theorem removals_right_iff (stray : List ℕ → ℕ → List ℕ) {st st' : StackState} {as : List StackAct}
    (hst : StackStart st) (hok : Admits (StackState.exec stray) (fun st a => a.Promised st) as st)
    (hrun : runAll (StackState.exec stray) as st = .ok st') :
    st'.AllRight ↔ Admits (StackState.exec stray) (fun st a => a.Clean st) as st := by
  obtain ⟨hinv, hright⟩ := StackInv.start hst
  have hiff : st'.AllRight ↔ st.AllRight ∧
      Admits (StackState.exec stray) (fun st a => a.Clean st) as st :=
    runAll_iff (I := StackInv)
      (fun _ _ _ h hok hclean hstep => h.step stray hok hclean hstep)
      (fun _ _ _ h _ hstep => h.step_right stray hstep)
      (fun _ _ _ hstep => StackState.allRight_of_step stray hstep) hinv hok hrun
  exact hiff.trans (and_iff_right hright)

instance (g : Grant) (heap : List ℕ) : Decidable (g.Fresh heap) :=
  inferInstanceAs (Decidable (_ ∧ _))

instance (tables : List ℕ) (c : Call) : Decidable (c.SparesTables tables) :=
  List.decidableBAll _ tables

instance : DecidableRel fun (st : StackState) (a : StackAct) => a.Promised st
  | st, .call c g =>
      inferInstanceAs (Decidable (g.Fresh st.blocks.heap ∧ c.SparesTables st.blocks.pages))
  | _, .setThreadStack _ _ => .isTrue trivial
  | st, .kmalloc ptr => inferInstanceAs (Decidable (ptr ∉ st.blocks.heap))
  | st, .kfree ptr =>
      have : ∀ tid < st.kernel.lastTid.toNat, Decidable (∀ t, st.kernel.threads tid = some t →
          ptr ≠ (st.made tid).record ∧ ptr ≠ (st.made tid).stack) := fun _ _ => decidableForallSome _
      inferInstanceAs (Decidable (_ ∧ _))

/-- What `liballoc` does with a pointer that is no block: nothing. -/
def noStray (heap : List ℕ) (_ : ℕ) : List ℕ := heap

theorem StackState.bootRuns {P : StackState → Prop} {as : List StackAct}
    (h : BootRuns (fun s => StackState.start s ⟨0xD0000030, 0xD0000100⟩ []) (StackState.exec noStray)
      (fun st a => a.Promised st) P as) :
    ∃ st st', StackStart st ∧ Admits (StackState.exec noStray) (fun st a => a.Promised st) as st ∧
      runAll (StackState.exec noStray) as st = .ok st' ∧ P st' := by
  obtain ⟨s, hs, h⟩ := OkAnd.exists_ok h
  obtain ⟨hadm, st', hrun, hP⟩ := h.runAll
  exact ⟨_, st', ⟨s, _, [], ⟨_, _, _, hs⟩, List.nodup_nil, by decide, rfl⟩, hadm, hrun, hP⟩

/-- A kernel thread is created, runs, is interrupted with its stack pointer at `espK`, and ends. -/
def threadLife (espK : ℕ) : List StackAct :=
  [.call (.createProcess 0 []) ⟨1, 2⟩, .call (.createThread 1 false 0) ⟨0xD0003000, 0xD0003080⟩,
    .call .pickNext ⟨1, 2⟩, .setThreadStack espK (startFrame 0 1 0 767 0), .call .exitThread ⟨1, 2⟩,
    .call .pickNext ⟨1, 2⟩, .call .pickNext ⟨1, 2⟩]

/-- With a stack that is used to its last byte, the thread is freed. -/
theorem removals_right_full : ∃ st st', StackStart st ∧
    runAll (StackState.exec noStray) (threadLife 0xD0003080) st = .ok st' ∧ st'.removals ≠ [] ∧
    Admits (StackState.exec noStray) (fun st a => a.Clean st) (threadLife 0xD0003080) st := by
  have hlife : BootRuns (fun s => StackState.start s ⟨0xD0000030, 0xD0000100⟩ [])
      (StackState.exec noStray) (fun st a => a.Promised st)
      (fun st => st.removals ≠ [] ∧ ∀ x ∈ st.removals, x.Right) (threadLife 0xD0003080) := by
    decide +kernel
  obtain ⟨st, st', hst, hok, hrun, hne, hright⟩ := StackState.bootRuns hlife
  exact ⟨st, st', hst, hrun, hne, (removals_right_iff noStray hst hok hrun).mp hright⟩

/-- Interrupted where it has begun, with its frame at the top of its stack, the thread is not freed:
`esp_k` is no block, and the stack is left. -/
theorem removals_wrong_top : ∃ st st', StackStart st ∧
    Admits (StackState.exec noStray) (fun st a => a.Promised st) (threadLife 0xD000503C) st ∧
    runAll (StackState.exec noStray) (threadLife 0xD000503C) st = .ok st' ∧ ¬st'.AllRight := by
  have hlife : BootRuns (fun s => StackState.start s ⟨0xD0000030, 0xD0000100⟩ [])
      (StackState.exec noStray) (fun st a => a.Promised st)
      (fun st => ∃ x ∈ st.removals, ¬x.Right) (threadLife 0xD000503C) := by decide +kernel
  obtain ⟨st, st', hst, hok, hrun, x, hx, hwrong⟩ := StackState.bootRuns hlife
  exact ⟨st, st', hst, hok, hrun, fun hall => hwrong (hall x hx)⟩

end GalaxyOS
