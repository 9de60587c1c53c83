import GalaxyOS.Lib.Segment
import GalaxyOS.Sched.Tables

/-! # The run queue

A thread that is created with `noqueue = 0` is appended to the run queue and stays there until it
is freed.  `QueueExact` says that the queue lists exactly these threads, each once.

The index at which a thread is appended is taken modulo `processes_size`, although nothing else
treats the queue as a ring: when the queue holds `processes_size - 1` threads, one more creation
sets `queue_end` to zero and all of them are lost.  As long as the modulus does not bite the queue
is exact in every reachable state.

`runQueue_exact` says so.  `pickFetch_queue` is what a round finds, `QueueInv.freed` what the removal of a
thread does to the queue, and `QueueInv.exec` puts the calls together; `runQueue_lost` is the run that
loses its threads. -/

namespace GalaxyOS

open Transition Segment

/-- A state of the kernel with the ids of all threads created with `noqueue = 0` so far. -/
structure QueueState where
  kernel : Kernel
  queued : Set Int

/-- Whether the threads that a call creates stay out of the run queue. -/
def Call.noqueue : Call → Bool
  | .createThread _ noqueue _ => noqueue
  | _ => false

/-- The threads that a call from `s` to `s'` has created with `noqueue = 0`. -/
def Call.queuedTids (c : Call) (s s' : Kernel) : Set Int :=
  {tid | c.noqueue = false ∧ s.lastTid ≤ tid ∧ tid < s'.lastTid}

/-- The record after a call that has led to `s'`. -/
def QueueState.next (st : QueueState) (c : Call) (s' : Kernel) : QueueState :=
  ⟨s', st.queued ∪ c.queuedTids st.kernel s'⟩

/-- A call, the threads it creates being recorded. -/
def QueueStep (st : QueueState) (c : Call) (st' : QueueState) : Prop :=
  ∃ s', Step st.kernel c s' ∧ st' = st.next c s'

theorem QueueState.step_next {st : QueueState} {c : Call} {r : Int} {s' : Kernel}
    (h : exec st.kernel c = .ok (r, s')) : QueueStep st c (st.next c s') := ⟨s', ⟨r, h⟩, rfl⟩

/-- The idle thread is the only one so far, and it is not queued. -/
def QueueStart (st : QueueState) : Prop := Started st.kernel ∧ st.queued = ∅

/-- Every queued thread that has not been freed is in the queue exactly once, and the queue holds
no freed thread. -/
def QueueExact (st : QueueState) : Prop :=
  (∀ tid ∈ st.queued, st.kernel.threads tid ≠ none →
    ∃! i, st.kernel.queueStart ≤ i ∧ i < st.kernel.queueEnd ∧ st.kernel.queue i = tid) ∧
  ∀ i, st.kernel.queueStart ≤ i → i < st.kernel.queueEnd →
    st.kernel.threads (st.kernel.queue i) ≠ none

/-- The index behind the entry that the call appends is not cut off by the modulus. -/
def Call.QueueRoom (s : Kernel) : Call → Prop
  | .createThread _ noqueue _ => noqueue = false → s.queueEnd + 1 < s.processesSize
  | .forkThread _ _ => s.queueEnd + 1 < s.processesSize
  | .loadProcess _ => s.queueEnd + 1 < s.growProcesses.processesSize
  | _ => True

/-! ### The invariant -/

/-- The queued threads that have not been freed. -/
def liveQueued (s : Kernel) (Q : Set Int) : Set Int := {tid | tid ∈ Q ∧ s.threads tid ≠ none}

structure QueueInv (s : Kernel) (Q : Set Int) : Prop where
  start : s.queueStart = 0
  loc : 0 ≤ s.queueLoc ∧ s.queueLoc ≤ s.queueEnd
  entries : Enumerates s.queue 0 s.queueEnd (liveQueued s Q)
  known : ∀ tid ∈ Q, tid < s.lastTid

theorem QueueInv.exact {st : QueueState} (h : QueueInv st.kernel st.queued) : QueueExact st := by
  constructor
  · intro tid hQ hlive
    rw [h.start]
    exact h.entries.existsUnique ⟨hQ, hlive⟩
  · intro i h1 h2
    rw [h.start] at h1
    exact (h.entries.mem h1 h2).2

/-- The queue and the set of threads that exist are the same. -/
structure Kernel.SameQueue (s s' : Kernel) : Prop where
  queue : s'.queue = s.queue
  queueStart : s'.queueStart = s.queueStart
  queueLoc : s'.queueLoc = s.queueLoc
  queueEnd : s'.queueEnd = s.queueEnd
  lastTid : s'.lastTid = s.lastTid
  threads : ∀ tid, s'.threads tid = none ↔ s.threads tid = none

theorem QueueInv.same {s s' : Kernel} {Q : Set Int} (h : QueueInv s Q) (hs : s.SameQueue s') :
    QueueInv s' Q := by
  have hlive : liveQueued s' Q = liveQueued s Q := by
    ext tid
    exact and_congr_right fun _ => not_congr (hs.threads tid)
  refine ⟨hs.queueStart.trans h.start, ?_, ?_, ?_⟩
  · rw [hs.queueLoc, hs.queueEnd]
    exact h.loc
  · rw [hs.queue, hs.queueEnd, hlive]
    exact h.entries
  · rw [hs.lastTid]
    exact h.known

theorem update_some_eq_none {ts : Int → Option Thread} {tid : Int} {t t' : Thread}
    (ht : ts tid = some t) (i : Int) :
    Function.update ts tid (some t') i = none ↔ ts i = none := by
  by_cases hi : i = tid
  · simp [hi, ht]
  · rw [Function.update_of_ne hi]

theorem Kernel.setThread_sameQueue {s : Kernel} {tid : Int} {t : Thread} (t' : Thread)
    (ht : s.threads tid = some t) : s.SameQueue (s.setThread tid (some t')) :=
  ⟨rfl, rfl, rfl, rfl, rfl, update_some_eq_none ht⟩

theorem Kernel.Quiet.sameQueue {s s' : Kernel} (h : s.Quiet s') : s.SameQueue s' := by
  obtain ⟨mem, processes, intfaces, size, next, -, rfl⟩ := h
  exact ⟨rfl, rfl, rfl, rfl, rfl, fun _ => Iff.rfl⟩

theorem Kernel.Created.sameQueue {s s' : Kernel} (h : s.Created s') : s.SameQueue s' := by
  obtain ⟨p, mem, -, rfl⟩ := h
  exact ⟨rfl, rfl, rfl, rfl, rfl, fun _ => Iff.rfl⟩

theorem QueueInv.spawned {s s' : Kernel} {Q : Set Int} {pid : Int} {noqueue : Bool}
    (hs : Tables s) (h : QueueInv s Q) (hspawn : s.Spawned pid noqueue s')
    (hroom : noqueue = false → s.queueEnd + 1 < s.processesSize) :
    QueueInv s' (Q ∪ {tid | noqueue = false ∧ s.lastTid ≤ tid ∧ tid < s'.lastTid}) := by
  obtain ⟨-, p, t, mem, -, -, rfl⟩ := hspawn
  have hloc := h.loc
  have hold : ∀ tid ∈ Q, Function.update s.threads s.lastTid (some t) tid ≠ none ↔
      s.threads tid ≠ none := fun tid hQ => by rw [Function.update_of_ne (h.known tid hQ).ne]
  cases noqueue with
  | true =>
      refine ⟨h.start, hloc, ?_, ?_⟩
      · refine h.entries.congr fun tid => ⟨?_, ?_⟩
        · rintro ⟨hQ | ⟨hc, -⟩, hlive⟩
          · exact ⟨hQ, (hold tid hQ).mp hlive⟩
          · cases hc
        · rintro ⟨hQ, hlive⟩
          exact ⟨.inl hQ, (hold tid hQ).mpr hlive⟩
      · rintro tid (hQ | ⟨hc, -⟩)
        · exact (h.known tid hQ).trans (Int.lt_succ _)
        · cases hc
  | false =>
      have hroom := hroom rfl
      have hmod : (s.queueEnd + 1) % s.processesSize = s.queueEnd + 1 :=
        Int.emod_eq_of_lt (by omega) hroom
      have hpush := h.entries.push (a := s.lastTid) (by omega) fun hc => hc.2 hs.fresh_tid
      refine ⟨h.start, ?_, ?_, ?_⟩
      · simp only [Kernel.queued, Bool.false_eq_true, ↓reduceIte, hmod]
        omega
      · simp only [Kernel.queued, Bool.false_eq_true, ↓reduceIte, hmod]
        refine hpush.congr fun tid => ⟨?_, ?_⟩
        · rintro ⟨hQ | ⟨-, hge, hlt⟩, hlive⟩
          · exact .inr ⟨hQ, (hold tid hQ).mp hlive⟩
          · exact .inl (Int.le_antisymm (Int.lt_add_one_iff.mp hlt) hge)
        · rintro (rfl | ⟨hQ, hlive⟩)
          · exact ⟨.inr ⟨trivial, le_refl _, Int.lt_succ _⟩, by simp⟩
          · exact ⟨.inl hQ, (hold tid hQ).mpr hlive⟩
      · rintro tid (hQ | ⟨-, -, hlt⟩)
        · exact (h.known tid hQ).trans (Int.lt_succ _)
        · exact hlt

/-! ### Rounds of the scheduler -/

theorem Kernel.setQueueLoc_eq {s : Kernel} {l : Int} (h : s.queueLoc = l) :
    { s with queueLoc := l } = s := by
  subst h
  rfl

/-- What a round finds: the entry of the queue at `queue_loc` or, when it starts over, at the
front; or, at the end of the queue for the second time, the idle thread. -/
theorem pickFetch_scan {s : Kernel} (hstart : s.queueStart = 0) (hloc : 0 ≤ s.queueLoc)
    (hentry : ∀ i, 0 ≤ i → i < s.queueEnd → s.queue i ≠ -1) (loop : Bool) :
    (∃ l loop', 0 ≤ l ∧ l < s.queueEnd ∧ (l = s.queueLoc ∧ loop' = loop ∨
        s.queueEnd ≤ s.queueLoc ∧ l = 0 ∧ loop = false ∧ loop' = true) ∧
      pickFetch s loop = (s.queue l, { s with queueLoc := l + 1 }, loop')) ∨
    s.queueEnd ≤ s.queueLoc ∧ (loop = true ∨ s.queueEnd ≤ 0) ∧
      pickFetch s loop =
        (s.idletid, { s with queueLoc := if loop then s.queueLoc else 0 }, true) := by
  unfold pickFetch
  rcases schedPopNextTid_cases s with ⟨hlt, hpop⟩ | ⟨hle, hpop⟩
  · simp only [hpop, if_pos (hentry s.queueLoc hloc hlt)]
    exact .inl ⟨s.queueLoc, loop, hloc, hlt, .inl ⟨rfl, rfl⟩, rfl⟩
  · cases loop with
    | true =>
        simp only [hpop, ne_eq, not_true_eq_false, ↓reduceIte]
        exact .inr ⟨hle, .inl trivial, trivial⟩
    | false =>
        simp only [hpop, ne_eq, not_true_eq_false, Bool.false_eq_true, ↓reduceIte]
        rcases schedPopNextTid_cases { s with queueLoc := s.queueStart } with ⟨hlt, hp⟩ | ⟨hle', hp⟩
        · have hlt' : s.queueStart < s.queueEnd := hlt
          simp only [hp, if_neg (hentry s.queueStart (by omega) hlt)]
          exact .inl ⟨s.queueStart, true, by omega, hlt, .inr ⟨hle, hstart, trivial, rfl⟩, rfl⟩
        · have hle'' : s.queueEnd ≤ s.queueStart := hle'
          simp only [hp, ↓reduceIte]
          exact .inr ⟨hle, .inr (by omega), by rw [hstart]⟩

theorem pickFetch_entry {s : Kernel} {Q : Set Int} (hs : Tables s) (h : QueueInv s Q) (loop : Bool) :
    (∃ l loop', 0 ≤ l ∧ l < s.queueEnd ∧ (l = s.queueLoc ∧ loop' = loop ∨
        s.queueLoc = s.queueEnd ∧ l = 0 ∧ loop = false ∧ loop' = true) ∧
      pickFetch s loop = (s.queue l, { s with queueLoc := l + 1 }, loop')) ∨
    s.queueLoc = s.queueEnd ∧ (loop = true ∨ s.queueEnd = 0) ∧
      pickFetch s loop = (s.idletid, { s with queueLoc := s.queueEnd }, true) := by
  have hentry : ∀ i, 0 ≤ i → i < s.queueEnd → s.queue i ≠ -1 := by
    intro i h1 h2 hc
    have hlive := (h.entries.mem h1 h2).2
    rw [hc] at hlive
    obtain ⟨t, ht⟩ := Option.ne_none_iff_exists'.mp hlive
    have := (hs.tid _ _ ht).1.1
    omega
  have hloc := h.loc
  cases pickFetch_scan h.start hloc.1 hentry loop with
  | inl hentry =>
      obtain ⟨l, loop', h0, hlt, hl, hf⟩ := hentry
      exact .inl ⟨l, loop', h0, hlt, hl.imp_right fun hl => ⟨by omega, hl.2⟩, hf⟩
  | inr hidle =>
      obtain ⟨hle, hend, hf⟩ := hidle
      have hloc' : (if loop then s.queueLoc else 0) = s.queueEnd := by
        cases hend with
        | inl hloop =>
            rw [if_pos hloop]
            omega
        | inr hend => split_ifs <;> omega
      rw [hloc'] at hf
      exact .inr ⟨by omega, hend.imp_right fun hend => by omega, hf⟩

/-- What a round finds: the entry of the queue it has moved past, or the idle thread. -/
theorem pickFetch_queue {s : Kernel} {Q : Set Int} (hs : Tables s) (h : QueueInv s Q) (loop : Bool) :
    (∃ l loop', 0 ≤ l ∧ l < s.queueEnd ∧
      pickFetch s loop = (s.queue l, { s with queueLoc := l + 1 }, loop')) ∨
    pickFetch s loop = (s.idletid, { s with queueLoc := s.queueEnd }, true) := by
  rcases pickFetch_entry hs h loop with ⟨l, loop', h1, h2, -, hf⟩ | ⟨-, -, hf⟩
  · exact .inl ⟨l, loop', h1, h2, hf⟩
  · exact .inr hf

theorem PickEffect.sameQueue {s s' : Kernel} {tid : Int} {t : Thread} (ht : s.threads tid = some t)
    (h : PickEffect s tid t s') (hd : t.state ≠ .dead) : s.SameQueue s' := by
  cases h with
  | select mem hstate => exact ⟨rfl, rfl, rfl, rfl, rfl, fun _ => Iff.rfl⟩
  | skip => exact ⟨rfl, rfl, rfl, rfl, rfl, fun _ => Iff.rfl⟩
  | message addr hstate hmsg => exact Kernel.setThread_sameQueue _ ht
  | stale hstate hmsg hw => exact Kernel.setThread_sameQueue _ ht
  | resume p mem frame hstate hmsg hrange hp hno =>
      exact ⟨rfl, rfl, rfl, rfl, rfl, update_some_eq_none ht⟩
  | start hstate => exact Kernel.setThread_sameQueue _ ht
  | load p p' t' mem kmode hstate hp hl hl' =>
      exact ⟨rfl, rfl, rfl, rfl, rfl, update_some_eq_none ht⟩
  | exit hstate => exact Kernel.setThread_sameQueue _ ht
  | dead hstate hw hq => exact absurd hstate hd

theorem QueueInv.moved {s : Kernel} {Q : Set Int} {l : Int} (h : QueueInv s Q)
    (hl : 0 ≤ l ∧ l ≤ s.queueEnd) : QueueInv { s with queueLoc := l } Q :=
  ⟨h.start, hl, h.entries, h.known⟩

/-- A dead thread is freed and its entry, the one the round has just moved past, is removed. -/
theorem QueueInv.freed {s : Kernel} {Q : Set Int} {l : Int} (h : QueueInv s Q)
    (hl : 0 ≤ l ∧ l < s.queueEnd) (t : Thread) :
    QueueInv ({ s with queueLoc := l + 1 }.freed (s.queue l) t) Q := by
  have herase := h.entries.eraseAt hl.1 hl.2
  have hloc : l + 1 - 1 = l := by omega
  refine ⟨h.start, ?_, ?_, h.known⟩
  · simp only [Kernel.freed]
    omega
  · have hqueue : ({ s with queueLoc := l + 1 }.freed (s.queue l) t).queue =
        eraseAt s.queue l s.queueEnd := by
      simp only [Kernel.freed, hloc]
      rfl
    rw [hqueue]
    refine herase.congr fun tid => ⟨?_, ?_⟩
    · rintro ⟨hQ, hlive⟩
      have hne : tid ≠ s.queue l := by
        rintro rfl
        simp [Kernel.freed] at hlive
      refine ⟨⟨hQ, ?_⟩, hne⟩
      simpa only [Kernel.freed, Function.update_of_ne hne] using hlive
    · rintro ⟨⟨hQ, hlive⟩, hne⟩
      refine ⟨hQ, ?_⟩
      simpa only [Kernel.freed, Function.update_of_ne hne] using hlive

/-- The idle thread has been freed by the round before, at the end of the queue: the next round
panics. -/
def IdleFreed (st : Kernel × Bool) : Prop :=
  st.2 = true ∧ st.1.queueEnd ≤ st.1.queueLoc ∧ st.1.threads st.1.idletid = none

theorem IdleFreed.fails {s s' : Kernel} {loop : Bool} (h : IdleFreed (s, loop)) :
    pickDispatch (pickFetch s loop).2.1 (pickFetch s loop).1 ≠ .ok s' := by
  obtain ⟨hloop, hend, hidle⟩ := h
  simp only at hloop hend hidle
  subst hloop
  intro hd
  rcases schedPopNextTid_cases s with ⟨hlt, -⟩ | ⟨-, hpop⟩
  · omega
  · obtain ⟨t, ht, -⟩ := pickDispatch_ok hd
    simp [pickFetch, hpop, hidle] at ht

/-- What holds when a round begins. -/
def QueueRound (Q : Set Int) (st : Kernel × Bool) : Prop :=
  Tables st.1 ∧ QueueInv st.1 Q ∧ st.1.currenttid = -1 ∨ IdleFreed st

theorem queue_round {s s₂ : Kernel} {loop : Bool} {Q : Set Int} (h : QueueRound Q (s, loop))
    (hd : pickDispatch (pickFetch s loop).2.1 (pickFetch s loop).1 = .ok s₂) :
    QueueInv s₂ Q ∨ s₂.currenttid = -1 ∧ IdleFreed (s₂, (pickFetch s loop).2.2) := by
  rcases h with ⟨hs, hinv, hcur⟩ | hidle
  · rcases pickFetch_queue hs hinv loop with ⟨l, loop', h1, h2, hf⟩ | hf
    · rw [hf] at hd
      obtain ⟨t, ht, -, heff⟩ := pickDispatch_ok hd
      left
      by_cases hdead : t.state = .dead
      · rw [heff.freed hdead]
        exact hinv.freed ⟨h1, h2⟩ t
      · exact (hinv.moved ⟨by omega, by omega⟩).same (heff.sameQueue ht hdead)
    · rw [hf] at hd ⊢
      obtain ⟨t, ht, -, heff⟩ := pickDispatch_ok hd
      by_cases hdead : t.state = .dead
      · right
        rw [heff.freed hdead]
        exact ⟨hcur, rfl, by simp only [Kernel.freed]; omega, by simp [Kernel.freed]⟩
      · have hloc := hinv.loc
        exact .inl ((hinv.moved ⟨by omega, le_refl _⟩).same (heff.sameQueue ht hdead))
  · exact absurd hd hidle.fails

theorem queueRound_next {s s₂ : Kernel} {loop : Bool} {Q : Set Int} (hI : QueueRound Q (s, loop))
    (hd : pickDispatch (pickFetch s loop).2.1 (pickFetch s loop).1 = .ok s₂)
    (hcur : s₂.currenttid = -1) : QueueRound Q (s₂, (pickFetch s loop).2.2) := by
  rcases queue_round hI hd with hinv | ⟨-, hidle⟩
  · rcases hI with ⟨hs, -⟩ | hidle
    · exact .inl ⟨hs.round hd, hinv, hcur⟩
    · exact absurd hd hidle.fails
  · exact .inr hidle

theorem QueueInv.pickNext {s s' : Kernel} {Q : Set Int} (hs : Tables s) (h : QueueInv s Q)
    (hp : schedPickNext s = .ok s') : QueueInv s' Q := by
  refine schedPickNext_rule (I := QueueRound Q) (Q := fun s => QueueInv s Q)
    (.inl ⟨?_, ?_, rfl⟩) ?_ ?_ (heads_true _ _) hp
  · exact hs.keeps ⟨rfl, rfl, .refl s.processes, .refl s.threads⟩
  · exact h.same ⟨rfl, rfl, rfl, rfl, rfl, fun _ => Iff.rfl⟩
  · exact fun s loop s₂ hI _ hd hcur => queueRound_next hI hd hcur
  · intro s loop s₂ hI _ hd hcur
    rcases queue_round hI hd with hinv | ⟨hc, -⟩
    · exact hinv
    · exact absurd hc hcur

theorem schedPickNext_lastTid {s s' : Kernel} (h : schedPickNext s = .ok s') :
    s'.lastTid = s.lastTid := by
  refine schedPickNext_inv (I := fun s' => s'.lastTid = s.lastTid) rfl ?_ (heads_true _ _) h
  intro s₁ loop s₂ hI _ hd
  obtain ⟨t, ht, -, heff⟩ := pickDispatch_ok hd
  rw [(heff.keeps ht).lastTid, (pickFetch_keeps s₁ loop).lastTid, hI]

/-! ### All calls -/

/-- The calls that neither create a thread nor schedule. -/
def Call.keepsQueue : Call → Bool
  | .createThread .. | .forkThread .. | .loadProcess .. | .pickNext => false
  | _ => true

theorem exec_sameQueue {s s' : Kernel} {c : Call} {r : Int} (hs : Tables s)
    (hc : c.keepsQueue = true) (h : exec s c = .ok (r, s')) : s.SameQueue s' := by
  have hrefl : s.SameQueue s := ⟨rfl, rfl, rfl, rfl, rfl, fun _ => Iff.rfl⟩
  cases c with
  | createProcess privilege name => exact (schedCreateProcess_ok h).2.sameQueue
  | createThread | forkThread | loadProcess | pickNext => simp [Call.keepsQueue] at hc
  | exitThread =>
      obtain ⟨t, ht, rfl⟩ := schedExitThread_ok (noResult_ok h)
      exact Kernel.setThread_sameQueue _ ht
  | exitProcess exitcode =>
      obtain ⟨pid, p, mem, hp, rfl⟩ := schedExitProcess_ok hs h
      exact ⟨rfl, rfl, rfl, rfl, rfl, fun _ => deadThreads_eq_none⟩
  | killProcess pid =>
      rcases schedKillProcess_ok h with rfl | ⟨p, exitcode, mem, hp, rfl⟩
      · exact hrefl
      · exact ⟨rfl, rfl, rfl, rfl, rfl, fun _ => deadThreads_eq_none⟩
  | suspendThread irq tid =>
      obtain ⟨t, ht, rfl⟩ := schedSuspendThread_ok (noResult_ok h)
      exact Kernel.setThread_sameQueue _ ht
  | checkSuspended irq =>
      obtain rfl : schedCheckSuspendedThreads s irq = s' := (exec_pair h).2
      exact ⟨rfl, rfl, rfl, rfl, rfl, fun _ => Option.map_eq_none_iff⟩
  | waitProcess pid =>
      rcases schedWaitProcess_ok h with ⟨rfl, -⟩ | ⟨-, t, p, -, hp, ht, rfl⟩
      · exact hrefl
      · exact ⟨rfl, rfl, rfl, rfl, rfl, update_some_eq_none ht⟩
  | interfaceDelete name pid =>
      obtain rfl := (exec_pair h).2
      rcases interfaceDelete_eq s name pid with hd | ⟨addr, intfaces, hd⟩
      · rw [hd]
        exact hrefl
      · rw [hd]
        exact ⟨rfl, rfl, rfl, rfl, rfl, fun _ => Option.map_eq_none_iff⟩
  | interfaceWait name tid =>
      rcases interfaceWait_ok h with ⟨rfl, -⟩ | ⟨-, t, addr, ht, rfl⟩
      · exact hrefl
      · exact Kernel.setThread_sameQueue _ ht
  | _ => exact (exec_quiet hs rfl h).sameQueue

/-- Nothing is recorded by a call that creates no thread. -/
theorem QueueInv.unchanged {s s' : Kernel} {Q : Set Int} {b : Bool} (h : QueueInv s' Q)
    (hlast : s'.lastTid = s.lastTid) :
    QueueInv s' (Q ∪ {tid | b = false ∧ s.lastTid ≤ tid ∧ tid < s'.lastTid}) := by
  convert h using 1
  rw [hlast]
  ext tid
  constructor
  · rintro (hQ | ⟨-, h1, h2⟩)
    · exact hQ
    · exact absurd h1 (not_le.mpr h2)
  · exact fun hQ => .inl hQ

theorem QueueInv.exec {s s' : Kernel} {Q : Set Int} {c : Call} {r : Int} (hs : Tables s)
    (hinv : QueueInv s Q) (hroom : c.QueueRoom s) (h : exec s c = .ok (r, s')) :
    QueueInv s' (Q ∪ c.queuedTids s s') := by
  cases c with
  | createThread ownerpid noqueue entrypoint =>
      exact hinv.spawned hs (schedCreateThread_ok h).2 hroom
  | forkThread tid regs =>
      rcases schedForkThread_ok h with ⟨rfl, -⟩ | ⟨-, pid, hspawn⟩
      · exact hinv.unchanged rfl
      · exact hinv.spawned hs hspawn fun _ => hroom
  | loadProcess q =>
      rcases ploadCreateProcess_ok h with rfl | ⟨s₁, hcreate, hspawn⟩
      · exact hinv.unchanged rfl
      · have hs₁ := hs.created hcreate
        have hinv₁ := hinv.same hcreate.sameQueue
        obtain ⟨p, mem, -, rfl⟩ := hcreate
        have hspawned := hinv₁.spawned hs₁ hspawn fun _ => hroom
        exact hspawned
  | pickNext =>
      have hp := noResult_ok h
      exact (hinv.pickNext hs hp).unchanged (schedPickNext_lastTid hp)
  | _ =>
      have hsame := exec_sameQueue hs rfl h
      exact (hinv.same hsame).unchanged hsame.lastTid

theorem queueInv_start {st : QueueState} (h : QueueStart st) : QueueInv st.kernel st.queued := by
  obtain ⟨⟨mem, eflags, idleLoop, hinit⟩, hempty⟩ := h
  simp only [schedInit, bind_ok, Prod.exists, Except.ok.injEq] at hinit
  obtain ⟨pid, s₁, hcreate, tid, s₂, hthread, hs⟩ := hinit
  obtain ⟨-, p, mem₁, -, rfl⟩ := schedCreateProcess_ok hcreate
  obtain ⟨-, -, p', t, mem₂, -, -, rfl⟩ := schedCreateThread_ok hthread
  rw [← hs, hempty]
  refine ⟨rfl, ⟨le_refl _, le_refl _⟩, ?_, ?_⟩
  · exact (enumerates_empty _ _).congr fun tid => ⟨fun h => h.1.elim, fun h => h.elim⟩
  · rintro tid ⟨⟩

/-- **The run queue is exact** in every state of a run in which no append reaches the modulus. -/
theorem runQueue_exact {st : QueueState}
    (h : Reach QueueStep (fun st c => c.QueueRoom st.kernel) QueueStart st) : QueueExact st := by
  have hinv : Tables st.kernel ∧ QueueInv st.kernel st.queued := by
    refine h.invariant (I := fun st => Tables st.kernel ∧ QueueInv st.kernel st.queued) ?_ ?_
    · exact fun st hst => ⟨.started hst.1, queueInv_start hst⟩
    · rintro st c st' ⟨hs, hinv⟩ hroom ⟨s', ⟨r, hexec⟩, rfl⟩
      exact ⟨hs.exec hexec, hinv.exec hs hroom hexec⟩
  exact hinv.2.exact

theorem runQueue_exact_spawned : ∃ st, st.kernel.queueEnd = 1 ∧ QueueExact st := by
  have hrun : OkAnd (schedInit (smallMachine 16) 0 0) fun s₀ =>
      OkAnd (exec s₀ (.createProcess 0 [])) fun x₁ =>
      OkAnd (exec x₁.2 (.createThread 1 false 0)) fun x₂ =>
      x₁.2.queueEnd + 1 < x₁.2.processesSize ∧ x₂.2.queueEnd = 1 := by decide
  obtain ⟨s₀, h0, hrun⟩ := hrun.exists_ok
  obtain ⟨⟨r₁, s₁⟩, h1, hrun⟩ := hrun.exists_ok
  obtain ⟨⟨r₂, s₂⟩, h2, hroom, hend⟩ := hrun.exists_ok
  have hstart : QueueStart ⟨s₀, ∅⟩ := ⟨⟨_, _, _, h0⟩, rfl⟩
  have hcall : (Call.createThread 1 false 0).QueueRoom s₁ := fun _ => hroom
  exact ⟨_, hend, runQueue_exact (((Reach.start hstart).next trivial
    (QueueState.step_next h1)).next hcall (QueueState.step_next h2))⟩

/-! ### A full queue -/

/-- The threads `1 .. n` have been created, the first 128 for process 1, the next for process 2
and so on. -/
structure Filled (st : QueueState) (n : ℕ) : Prop where
  lastTid : st.kernel.lastTid = n + 1
  queueStart : st.kernel.queueStart = 0
  queueEnd : st.kernel.queueEnd = (n % 1024 : ℕ)
  queueCap : st.kernel.queueCap = 1024
  processesSize : st.kernel.processesSize = 1024
  threadsSize : 1024 ≤ st.kernel.threadsSize
  threadsCap : 1024 ≤ st.kernel.threadsCap
  queued : 1 ≤ n → (1 : Int) ∈ st.queued
  live : 1 ≤ n → st.kernel.threads 1 ≠ none
  processes : ∀ i : ℕ, 1 ≤ i → i ≤ 8 → ∃ p, st.kernel.processes i = some p ∧
    p.privilegeLevel = 0 ∧ p.tidsCap = 128 ∧ p.threadcount = min 128 (n - 128 * (i - 1))

theorem enqueue_of_lt {s : Kernel} {tid : Int} (h : s.queueEnd < s.queueCap) :
    s.enqueue tid = .ok { s with
      queue := Function.update s.queue s.queueEnd tid
      queueEnd := (s.queueEnd + 1) % s.processesSize } := if_neg (not_le.mpr h)

/-- A kernel thread is created when there is room in the three lists. -/
theorem schedCreateThread_kernel {s : Kernel} {pid : Int} {p : Process} (entrypoint : ℕ)
    (hp : s.processes pid = some p) (hkernel : p.privilegeLevel = 0) (hmax : s.lastTid < maxThreads)
    (hcap : s.lastTid < s.growThreads.threadsCap)
    (hsize : (p.threadcount : Int) < s.growThreads.threadsSize)
    (htids : (p.threadcount : Int) < p.tidsCap) (hqueue : s.queueEnd < s.queueCap) :
    ∃ r s', schedCreateThread s pid false entrypoint = .ok (r, s') := by
  have hadd : p.addTid s.growThreads.threadsSize s.lastTid =
      .ok { p with tids := p.tids ++ [s.lastTid] } := by
    have hgrow : p.growTids s.growThreads.threadsSize = p := if_neg (not_le.mpr hsize)
    unfold Process.addTid
    rw [hgrow, if_neg (not_le.mpr htids)]
  unfold schedCreateThread
  rw [if_neg (not_le.mpr hmax)]
  rw [growThreads_eq]
  simp only
  rw [if_neg (not_le.mpr hcap)]
  simp only [Kernel.liveProcess, hp, ok_bind, newStack, hkernel, ↓reduceIte, hadd,
    Kernel.enqueueNew, Bool.false_eq_true]
  rw [enqueue_of_lt (by exact hqueue)]
  exact ⟨_, _, rfl⟩

theorem Filled.next {st : QueueState} {n : ℕ} (h : Filled st n) (hn : n < 1024) :
    ∃ c st', QueueStep st c st' ∧ Filled st' (n + 1) := by
  obtain ⟨p, hp, hkernel, htids, hcount⟩ := h.processes (1 + n / 128) (by omega) (by omega)
  have hlast := h.lastTid
  have hgrow : 1024 ≤ st.kernel.growThreads.threadsSize ∧
      1024 ≤ st.kernel.growThreads.threadsCap ∧
      st.kernel.lastTid < st.kernel.growThreads.threadsCap := by
    have h1 := h.threadsSize
    have h2 := h.threadsCap
    have h3 := h.processesSize
    unfold Kernel.growThreads reallocIncrement
    split_ifs
    · refine ⟨?_, ?_, ?_⟩ <;> simp only <;> omega
    · exact ⟨h1, h2, by omega⟩
  have hqend := h.queueEnd
  obtain ⟨r, s', hcreate⟩ := schedCreateThread_kernel 0 hp hkernel
    (by unfold maxThreads; omega) hgrow.2.2 (by omega) (by omega) (by rw [h.queueCap]; omega)
  have hspawn := (schedCreateThread_ok hcreate).2
  refine ⟨.createThread (1 + n / 128 : ℕ) false 0, ⟨s', _⟩, QueueState.step_next hcreate, ?_⟩
  obtain ⟨-, p', t, mem, hp', -, rfl⟩ := hspawn
  obtain rfl : p = p' := Option.some.inj (hp.symm.trans hp')
  refine ⟨by simp only; omega, h.queueStart, ?_, h.queueCap, h.processesSize, hgrow.1,
    hgrow.2.1, ?_, ?_, ?_⟩
  · simp only [Kernel.queued, Bool.false_eq_true, ↓reduceIte, hqend, h.processesSize]
    omega
  · intro _
    by_cases hn1 : 1 ≤ n
    · exact .inl (h.queued hn1)
    · refine .inr ⟨rfl, by omega, ?_⟩
      simp only
      omega
  · intro _
    by_cases hn1 : 1 ≤ n
    · simp only
      rw [Function.update_of_ne (by omega)]
      exact h.live hn1
    · have h1 : st.kernel.lastTid = 1 := by omega
      simp [h1]
  · intro i h1 h8
    by_cases hi : i = 1 + n / 128
    · subst hi
      refine ⟨_, Function.update_self .., hkernel, ?_, ?_⟩
      · have hgrow : p.growTids st.kernel.growThreads.threadsSize = p :=
          if_neg (not_le.mpr (by omega))
        rw [hgrow, htids]
      · simp only [Process.threadcount, List.length_append, List.length_singleton] at hcount ⊢
        omega
    · obtain ⟨q, hq, hq1, hq2, hq3⟩ := h.processes i h1 h8
      refine ⟨q, ?_, hq1, hq2, ?_⟩
      · simp only
        rw [Function.update_of_ne (by exact_mod_cast hi)]
        exact hq
      · rw [hq3]
        omega

/-- Eight kernel processes next to the idle process, and no thread but the idle one. -/
theorem eightProcesses : BootRuns id execState (fun _ _ => True) (fun s =>
    (s.lastTid = 1 ∧ s.queueStart = 0 ∧ s.queueEnd = 0 ∧ s.queueCap = 1024 ∧
      s.processesSize = 1024 ∧ 1024 ≤ s.threadsSize ∧ 1024 ≤ s.threadsCap) ∧
    ∀ i : Fin 9, 1 ≤ i.val → ∃ p ∈ s.processes i.val,
      p.privilegeLevel = 0 ∧ p.tidsCap = 128 ∧ p.threadcount = 0)
    (List.replicate 8 (.createProcess 0 [])) := by
  decide

/-- Every run of the kernel can be recorded. -/
theorem queueStep_lift {ok : Kernel → Call → Prop} {s : Kernel} (h : Reach Step ok Started s) :
    ∃ st : QueueState, st.kernel = s ∧ Reach QueueStep (fun st c => ok st.kernel c) QueueStart st :=
  h.lift QueueState.kernel (fun s hs => ⟨⟨s, ∅⟩, rfl, hs, rfl⟩)
    fun st c s' hs => ⟨st.next c s', rfl, s', hs, rfl⟩

theorem filled_zero : ∃ st, Reach QueueStep (fun _ _ => True) QueueStart st ∧ Filled st 0 := by
  obtain ⟨s, hrun, ⟨h1, h2, h3, h4, h5, h6, h7⟩, hp⟩ :=
    eightProcesses.reach (fun _ _ _ => execState_step) fun _ hs => hs
  obtain ⟨st, rfl, hreach⟩ := queueStep_lift hrun
  refine ⟨st, hreach, h1, h2, h3, h4, h5, h6, h7, by omega, by omega, fun i hi1 hi8 => ?_⟩
  obtain ⟨p, hp, h1, h2, h3⟩ := hp ⟨i, by omega⟩ hi1
  exact ⟨p, hp, h1, h2, by omega⟩

/-- The thread whose creation brings `queue_end` to 1024 empties the queue. -/
theorem runQueue_lost : ∃ st, Reach QueueStep (fun _ _ => True) QueueStart st ∧
    ¬QueueExact st := by
  have hfilled : ∀ n ≤ 1024, ∃ st, Reach QueueStep (fun _ _ => True) QueueStart st ∧
      Filled st n := by
    intro n
    induction n with
    | zero => exact fun _ => filled_zero
    | succ n ih =>
        intro hn
        obtain ⟨st, hreach, hst⟩ := ih (by omega)
        obtain ⟨c, st', hstep, hst'⟩ := hst.next (by omega)
        exact ⟨st', hreach.next trivial hstep, hst'⟩
  obtain ⟨st, hreach, hst⟩ := hfilled 1024 le_rfl
  refine ⟨st, hreach, fun hexact => ?_⟩
  obtain ⟨i, ⟨h1, h2, -⟩, -⟩ := hexact.1 1 (hst.queued (by omega)) (hst.live (by omega))
  have hstart := hst.queueStart
  have hend := hst.queueEnd
  omega

end GalaxyOS
