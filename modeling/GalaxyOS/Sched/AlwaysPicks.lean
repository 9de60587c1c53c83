import GalaxyOS.Sched.Current
import GalaxyOS.Sched.Scan
import GalaxyOS.Sched.Turns

/-! # The scheduler always picks a thread

`sched_pick_next` ends with a running thread of a live process whenever every round can do its work
(`pickNext_picks_iff`): the directory of a user-mode thread that is selected must be mapped where the
kernel writes the stack table, and a thread that is removed must not hold, in `wait`, a number that is no
process id.  The second one is not so for a thread that has been suspended and resumed, whose `wait`
still holds the number of the interrupt.

`PickInv` collects what holds whenever a round begins.  That a round can do its work is put together from
its branches (`PickInv.body`), that the rounds come to an end from the entries that are left
(`roundsLeft_lt`); the latter bounds the scan of every reachable state, whether it succeeds or not
(`pickNext_bounded`). -/

namespace GalaxyOS

open Transition Segment

variable {s s' : Kernel}

/-! ### The conditions of a round -/

/-- The thread is selected when a round looks at it: it runs, or the process that it waits for has no
threads left. -/
def Kernel.Selects (s : Kernel) (t : Thread) : Prop :=
  t.state = .running ∨ t.state = .waiting ∧ t.waitMsg = none ∧
    (0 ≤ t.wait ∧ t.wait < s.lastPid) ∧ ∃ p ∈ s.processes t.wait, p.tids = []

/-- The directory of the thread's process is mapped. -/
def Kernel.DirectoryMapped (s : Kernel) (t : Thread) : Prop :=
  ∀ p, s.processes t.pid = some p → vmmGetPhysaddr s.mem p.cr3Virt ≠ 0

/-- The `wait` of the thread is empty or a process id. -/
def Kernel.WaitKnown (s : Kernel) (t : Thread) : Prop :=
  t.wait ≠ 0 → 0 ≤ t.wait ∧ t.wait < s.lastPid

/-- What a round needs in order to look at the thread. -/
structure Kernel.ClearFor (s : Kernel) (t : Thread) : Prop where
  directory : t.privilegeLevel ≠ 0 → s.Selects t → s.DirectoryMapped t
  wait : t.state = .dead → s.WaitKnown t

/-- The round can do its work. -/
def RoundClear (st : Kernel × Bool) : Prop :=
  ∀ t, st.1.threads (pickFetch st.1 st.2).1 = some t → st.1.ClearFor t

/-- The load that the round makes returns. -/
def LoadReturns (st : Kernel × Bool) : Prop :=
  ∀ pid, (pickFetch st.1 st.2).2.1.loads (pickFetch st.1 st.2).1 = some pid →
    OkAnd (ploadLoadProcess memoryPolicy (pickFetch st.1 st.2).2.1 pid (pickFetch st.1 st.2).1)
      fun _ => True

/-! ### Each branch of a round -/

theorem switchStackTo_total {t : Thread} {p : Process} (hp : s.processes t.pid = some p)
    (hdir : t.privilegeLevel ≠ 0 → vmmGetPhysaddr s.mem p.cr3Virt ≠ 0) :
    ∃ mem, switchStackTo s t = .ok mem := by
  unfold switchStackTo
  split_ifs with hk
  · exact ⟨s.mem, rfl⟩
  · rw [Kernel.liveProcess_ok.mpr hp, ok_bind, vmmSwitchStack]
    rw [if_neg (hdir hk)]
    exact ⟨_, rfl⟩

theorem pickSelect_total {tid : Int} {t : Thread} {p : Process} (hp : s.processes t.pid = some p)
    (hdir : t.privilegeLevel ≠ 0 → vmmGetPhysaddr s.mem p.cr3Virt ≠ 0) :
    ∃ s', pickSelect s tid t = .ok s' := by
  obtain ⟨mem, hmem⟩ := switchStackTo_total hp hdir
  unfold pickSelect
  rw [hmem, ok_bind]
  exact ⟨_, rfl⟩

/-- The memory of a process whose heap is in order can be freed: the break does not move up. -/
theorem schedFreeAll_total {ps : Process} (h : HeapOk ps) (m : Mem) :
    ∃ m', schedFreeAll ps m = .ok m' := by
  have hmin := h.minbrk
  have hpgbrk := h.pgbrk
  have hoffset := h.brkOffset
  have hround : roundBrk ps.minbrk = ps.minbrk := by
    unfold roundBrk
    rw [if_neg (by omega)]
  have hset : ∃ x, schedSetbrkTrue ps { m with cr3 := ps.cr3 } ps.minbrk = .ok x := by
    unfold schedSetbrkTrue
    simp only [hround]
    split_ifs
    · exact ⟨_, rfl⟩
    · exact ⟨_, rfl⟩
    · exact ⟨_, rfl⟩
    · exact ⟨_, rfl⟩
    · exact ⟨_, rfl⟩
    · unfold brkMove
      rw [if_neg (by omega), ok_bind]
      exact ⟨_, rfl⟩
  obtain ⟨⟨r, ps', m₁⟩, hset⟩ := hset
  unfold schedFreeAll
  simp only [hset, ok_bind]
  exact ⟨_, rfl⟩

/-- Reaping a process that has no threads left. -/
theorem schedReapProcess_total {pid : Int} {p : Process} (hp : s.processes pid = some p)
    (hno : p.tids = []) (hheap : HeapOk p) : ∃ s', schedReapProcess s pid = .ok s' := by
  unfold schedReapProcess
  split_ifs
  · exact ⟨s, rfl⟩
  · simp only [hp, hno, markDead, ok_bind]
    split_ifs
    · obtain ⟨m', hm'⟩ := schedFreeAll_total (hheap.placed p.dropTids_placed)
        (liballocFree s.mem p.dropTids.cr3Virt 1).2
      unfold freeProcess
      simp only [hm', ok_bind]
      exact ⟨_, rfl⟩
    · exact ⟨_, rfl⟩

/-- A waiter whose process has ended is resumed. -/
theorem pickResume_total {tid : Int} {t : Thread} {p q : Process} (hno : p.tids = [])
    (hheap : HeapOk p) (hq : s.processes t.pid = some q) (hne : t.pid ≠ t.wait)
    (hdir : t.privilegeLevel ≠ 0 → vmmGetPhysaddr s.mem q.cr3Virt ≠ 0) :
    ∃ s', pickResume (s.unwaited tid t p) tid t.wait = .ok s' := by
  have hown : (s.unwaited tid t p).processes t.pid = some q := by
    simp only [Kernel.unwaited, Kernel.setThread_processes, Kernel.setProcess_processes,
      Function.update_of_ne hne]
    exact hq
  have hthread : (s.unwaited tid t p).threadAt tid =
      .ok { t with wait := 0, state := .running } := by
    rw [Kernel.threadAt_ok]
    simp [Kernel.unwaited]
  have hselect : ∃ s₁, pickSelect (s.unwaited tid t p) tid { t with wait := 0, state := .running } =
      .ok s₁ := pickSelect_total hown hdir
  obtain ⟨s₁, hsel⟩ := hselect
  have hwaited : s₁.processes t.wait = some { p with waitingThreads := p.waitingThreads - 1 } := by
    obtain ⟨mem, rfl⟩ := pickSelect_ok hsel
    simp [Kernel.unwaited]
  unfold pickResume
  rw [hthread, ok_bind, hsel, ok_bind, Kernel.liveProcess_ok.mpr hwaited, ok_bind]
  exact schedReapProcess_total hwaited hno (hheap.placed (waiter_placed p _))

theorem pickWaiting_total {tid : Int} {t : Thread} {q : Process} (hwaiters : WaitersLive s)
    (hheaps : s.HeapsOk) (ht : s.threads tid = some t) (hstate : t.state = .waiting)
    (hq : s.processes t.pid = some q) (hmem : tid ∈ q.tids)
    (hdir : t.privilegeLevel ≠ 0 → s.Selects t → vmmGetPhysaddr s.mem q.cr3Virt ≠ 0) :
    ∃ s', pickWaiting s tid t = .ok s' := by
  unfold pickWaiting
  cases hmsg : t.waitMsg with
  | some addr =>
      obtain ⟨i, -, -, hat⟩ := interfaceAt_of_mem (hwaiters tid t addr ht ⟨hstate, hmsg⟩)
      simp only [hat, ok_bind]
      split_ifs
      · exact ⟨_, rfl⟩
      · exact ⟨_, rfl⟩
  | none =>
      simp only
      rcases schedCheckWaitingThread_cases s tid t with ⟨-, hc⟩ | hc | ⟨p, hrange, hp, hno, hc⟩
      · rw [hc]
        exact ⟨_, rfl⟩
      · rw [hc]
        exact ⟨_, rfl⟩
      · simp only [hc]
        rw [if_neg (by omega)]
        have hne : t.pid ≠ t.wait := by
          intro heq
          rw [heq, hp] at hq
          obtain rfl := Option.some.inj hq
          rw [hno] at hmem
          exact List.not_mem_nil hmem
        refine pickResume_total hno (hheaps _ p hp) hq hne fun hpriv => ?_
        exact hdir hpriv (.inr ⟨hstate, hmsg, hrange, p, hp, hno⟩)

theorem pickStarting_total {tid : Int} {t : Thread} {q : Process} (ht : s.threads tid = some t)
    (hstate : t.state = .starting) (hq : s.processes t.pid = some q)
    (hload : ∀ pid, s.loads tid = some pid →
      OkAnd (ploadLoadProcess memoryPolicy s pid tid) fun _ => True) :
    ∃ s', pickStarting s tid t = .ok s' := by
  unfold pickStarting
  split_ifs with hk
  · exact ⟨_, rfl⟩
  · rw [Kernel.liveProcess_ok.mpr hq, ok_bind]
    cases hps : q.state with
    | starting =>
        have hloads : s.loads tid = some t.pid := by
          simp only [Kernel.loads, ht, Option.bind_some, hq]
          exact if_pos ⟨hstate, hk, hps⟩
        obtain ⟨x, hx, -⟩ := (hload t.pid hloads).exists_ok
        simp only [hx, ok_bind]
        exact ⟨_, rfl⟩
    | running | loading | exiting => exact ⟨_, rfl⟩

theorem dropWaiter_total {t : Thread} (hwait : s.WaitKnown t) : ∃ s', dropWaiter s t = .ok s' := by
  unfold dropWaiter
  split_ifs with h0
  · exact ⟨s, rfl⟩
  · rw [Kernel.processAt_ok.mpr ⟨hwait h0, rfl⟩, ok_bind]
    cases s.processes t.wait with
    | none => exact ⟨_, rfl⟩
    | some p => exact ⟨_, rfl⟩

theorem pickDead_total {tid : Int} {t : Thread} (hloc : 0 < s.queueLoc) (hwait : s.WaitKnown t) :
    ∃ s', pickDead s tid t = .ok s' := by
  have hdequeue : ∃ s₁, s.dequeue = .ok s₁ ∧ s₁.lastPid = s.lastPid := by
    unfold Kernel.dequeue
    rw [if_neg (by omega)]
    exact ⟨_, rfl, rfl⟩
  obtain ⟨s₁, hs₁, hlast⟩ := hdequeue
  have hwait₁ : s₁.WaitKnown t := by
    unfold Kernel.WaitKnown
    rw [hlast]
    exact hwait
  obtain ⟨s₂, hs₂⟩ := dropWaiter_total hwait₁
  unfold pickDead
  rw [hs₁, ok_bind, hs₂, ok_bind]
  exact ⟨_, rfl⟩

/-- The sanity checks let a dead thread pass. -/
theorem pickCheck_dead {t : Thread} (h : t.state = .dead) : pickCheck s t = .ok () := by
  unfold pickCheck
  cases s.processes t.pid with
  | none => simp [h]
  | some p => simp [h]

/-! ### A round -/

/-- What holds whenever a round begins. -/
structure PickInv (s : Kernel) : Prop where
  tables : Tables s
  live : ThreadsLive s
  waiters : WaitersLive s
  heaps : s.HeapsOk
  idle : IdleInv s
  queue : ∃ P, ScanInv s P

theorem PickInv.moved {l : Int} (h : PickInv s) (hl : 0 ≤ l) : PickInv { s with queueLoc := l } := by
  obtain ⟨P, hqueue⟩ := h.queue
  exact ⟨h.tables.keeps ⟨rfl, rfl, .refl s.processes, .refl s.threads⟩, h.live, h.waiters,
    h.heaps.still rfl, ⟨h.idle.thread, h.idle.listed⟩, P, hqueue.moved hl⟩

theorem PickInv.round {loop : Bool} (h : PickInv s)
    (hd : pickDispatch (pickFetch s loop).2.1 (pickFetch s loop).1 = .ok s') : PickInv s' := by
  obtain ⟨P, hqueue⟩ := h.queue
  exact ⟨h.tables.round hd, h.live.round hd, h.waiters.round hd, h.heaps.round hd, h.idle.round hd,
    hqueue.round h.tables h.idle hd⟩

/-- The round can look at the thread. -/
theorem PickInv.dispatch {tid : Int} {t : Thread} (h : PickInv s) (ht : s.threads tid = some t)
    (hclear : s.ClearFor t) (hloc : t.state = .dead → 0 < s.queueLoc)
    (hload : ∀ pid, s.loads tid = some pid →
      OkAnd (ploadLoadProcess memoryPolicy s pid tid) fun _ => True) :
    ∃ s', pickDispatch s tid = .ok s' := by
  unfold pickDispatch
  simp only [ht]
  by_cases hdead : t.state = .dead
  · rw [pickCheck_dead hdead, ok_bind]
    simp only [hdead]
    exact pickDead_total (hloc hdead) (hclear.wait hdead)
  · obtain ⟨q, hq, -, hmem⟩ := h.live tid t ht hdead
    have hdir : t.privilegeLevel ≠ 0 → s.Selects t → vmmGetPhysaddr s.mem q.cr3Virt ≠ 0 :=
      fun hpriv hsel => hclear.directory hpriv hsel q hq
    rw [h.live.pickCheck ht hdead, ok_bind]
    cases hstate : t.state with
    | running => exact pickSelect_total hq fun hpriv => hdir hpriv (.inl hstate)
    | suspended => exact ⟨s, rfl⟩
    | waiting => exact pickWaiting_total h.waiters h.heaps ht hstate hq hmem hdir
    | starting => exact pickStarting_total ht hstate hq hload
    | exiting => exact ⟨_, rfl⟩
    | dead => exact absurd hstate hdead

/-- A round that can do its work succeeds. -/
theorem PickInv.body {st : Kernel × Bool} (h : PickInv st.1) (hclear : RoundClear st)
    (hload : LoadReturns st) : ∃ r, pickBody st = .ok r := by
  obtain ⟨s, loop⟩ := st
  obtain ⟨P, hqueue⟩ := h.queue
  have hlook : ∃ s₂, pickDispatch (pickFetch s loop).2.1 (pickFetch s loop).1 = .ok s₂ := by
    unfold LoadReturns at hload
    simp only at h hload hqueue
    cases hqueue.fetch h.tables loop with
    | inl hentry =>
        obtain ⟨l, hc⟩ := hentry
        obtain ⟨t, ht⟩ := Option.ne_none_iff_exists'.mp (hqueue.live _ (hqueue.entries.mem hc.lo hc.hi))
        have hlo := hc.lo
        have hfor := hclear t (hc.tid ▸ ht)
        rw [hc.kernel, hc.tid] at hload ⊢
        refine (h.moved (l := l + 1) (by omega)).dispatch ht ⟨hfor.directory, hfor.wait⟩ ?_ hload
        intro _
        simp only
        omega
    | inr hend =>
        obtain ⟨t, ht, hidles⟩ := h.idle.thread
        have hfor := hclear t (by simp only [hend.fetch]; exact ht)
        have hloc := hqueue.loc
        have hl : 0 ≤ if loop then s.queueLoc else 0 := by split_ifs <;> omega
        rw [hend.fetch] at hload ⊢
        refine (h.moved hl).dispatch ht ⟨hfor.directory, hfor.wait⟩ (fun hdead => ?_) hload
        have hstate := hidles.state
        simp [hdead] at hstate
  obtain ⟨s₂, hd⟩ := hlook
  unfold pickBody
  simp only [hd]
  exact ⟨_, rfl⟩

/-! ### The rounds that are left -/

/-- A bound on the rounds to come: the entries ahead, those of a second pass, and the one or two
rounds in which the idle thread is selected. -/
def roundsLeft (st : Kernel × Bool) : ℕ :=
  (st.1.queueEnd - st.1.queueLoc).toNat + (if st.2 then 0 else st.1.queueEnd.toNat) +
    if (st.1.threads st.1.idletid).map Thread.state = some .starting then 2 else 1

theorem roundsLeft_lt {loop : Bool} (h : PickInv s)
    (hd : pickDispatch (pickFetch s loop).2.1 (pickFetch s loop).1 = .ok s')
    (hcur : s'.currenttid = -1) : roundsLeft (s', (pickFetch s loop).2.2) < roundsLeft (s, loop) := by
  obtain ⟨P, hqueue⟩ := h.queue
  cases hqueue.fetch h.tables loop with
  | inl hentry =>
      obtain ⟨l, hc⟩ := hentry
      have hlo := hc.lo
      have hhi := hc.hi
      -- the idle thread is not the one that is looked at
      have hne : s.idletid ≠ s.queue l := fun heq => hqueue.apart (heq ▸ hqueue.entries.mem hlo hhi)
      obtain ⟨t, ht, hround⟩ := hqueue.entry_round hc hd
      have hmoved : s'.threads s'.idletid = s.threads s.idletid ∧
          (s'.queueEnd = s.queueEnd ∧ s'.queueLoc = l + 1 ∨
            s'.queueEnd = s.queueEnd - 1 ∧ s'.queueLoc = l) := by
        rcases hround with ⟨hdead, heff, -⟩ | ⟨-, rfl, -⟩
        · have hsame := PickEffect.sameQueue (s := { s with queueLoc := l + 1 }) ht heff hdead
          rw [heff.idletid]
          exact ⟨heff.other hne, .inl ⟨hsame.queueEnd, hsame.queueLoc⟩⟩
        · refine ⟨Function.update_of_ne hne .., .inr ⟨rfl, ?_⟩⟩
          simp only [Kernel.freed]
          omega
      obtain ⟨hidle, hloc⟩ := hmoved
      unfold roundsLeft
      rcases hc.place with ⟨rfl, hflag⟩ | ⟨hend, rfl, rfl, hflag⟩
      · simp only [hidle, hflag]
        split_ifs <;> omega
      · simp only [hidle, hflag, Bool.false_eq_true, ↓reduceIte]
        split_ifs <;> omega
  | inr hend =>
      obtain ⟨l, t, hl, hle, ht, hidles, hdisp, heff, -⟩ := hqueue.end_round h.idle hend hd
      have hknown := h.idle.known h.tables
      cases hidles.state with
      | inl hstart =>
          have ht' : Kernel.threads { s with queueLoc := l } s.idletid = some t := ht
          cases pickDispatch_starting ht' hstart hdisp with
          | load p r hpriv => exact absurd hidles.privilegeLevel hpriv
          | start =>
              -- the idle thread runs now
              have hends := hend.ends
              unfold roundsLeft
              simp only [hend.fetch, Kernel.setThread, Function.update_self, ht, hstart,
                Option.map_some, ↓reduceIte, reduceCtorEq, Option.some.injEq]
              split_ifs <;> omega
      | inr hrun =>
          have hsel := (heff.selected hrun).1
          omega

theorem PickInv.unselected (h : PickInv s) : PickInv { s with currenttid := -1 } := by
  obtain ⟨P, hqueue⟩ := h.queue
  exact ⟨h.tables.keeps ⟨rfl, rfl, .refl s.processes, .refl s.threads⟩, h.live, h.waiters,
    h.heaps.still rfl, ⟨h.idle.thread, h.idle.listed⟩, P, hqueue.start, hqueue.loc, hqueue.ends,
    hqueue.entries, hqueue.live, hqueue.apart⟩

/-- `sched_pick_next` returns if all its rounds can do their work. -/
theorem PickInv.returns (h : PickInv s) (hclear : Call.pickNext.Rounds RoundClear s)
    (hload : Call.pickNext.Rounds LoadReturns s) : ∃ s', schedPickNext s = .ok s' := by
  refine whileE_total (I := fun st => PickInv st.1) (μ := roundsLeft) ?_ ?_ h.unselected
    (Heads.and hclear hload) ?_
  · rintro st hI ⟨hclear, hload⟩
    exact hI.body hclear hload
  · rintro ⟨s, loop⟩ st' hI - hb
    obtain ⟨s₂, hd, hcur, rfl⟩ := pickBody_inl hb
    exact ⟨hI.round hd, roundsLeft_lt hI hd hcur⟩
  · obtain ⟨P, hqueue⟩ := h.queue
    have hstart := hqueue.start
    unfold roundsLeft pickFuel
    simp only [hstart, Int.sub_zero, Bool.false_eq_true, ↓reduceIte]
    split_ifs <;> omega

/-! ### What a round that succeeds has needed -/

/-- The directory has been mapped where a stack has been entered. -/
theorem switchStackTo_mapped {t : Thread} {mem : Mem} (hpriv : t.privilegeLevel ≠ 0)
    (h : switchStackTo s t = .ok mem) : s.DirectoryMapped t := by
  intro p hp hzero
  unfold switchStackTo at h
  rw [if_neg hpriv, Kernel.liveProcess_ok.mpr hp, ok_bind, vmmSwitchStack, if_pos hzero] at h
  cases h

theorem pickSelect_mapped {tid : Int} {t : Thread} (hpriv : t.privilegeLevel ≠ 0)
    (h : pickSelect s tid t = .ok s') : s.DirectoryMapped t := by
  obtain ⟨mem, hmem, -⟩ := bind_ok.mp h
  exact switchStackTo_mapped hpriv hmem

/-- The waiter has entered its own stack, and a count of waiters is no part of a directory. -/
theorem pickResume_mapped {tid : Int} {t : Thread} {p : Process} (hp : s.processes t.wait = some p)
    (hpriv : t.privilegeLevel ≠ 0) (h : pickResume (s.unwaited tid t p) tid t.wait = .ok s') :
    s.DirectoryMapped t := by
  simp only [pickResume, bind_ok, Kernel.threadAt_ok] at h
  obtain ⟨t₁, ht₁, s₁, hsel, -⟩ := h
  obtain rfl : { t with wait := 0, state := .running } = t₁ := by
    simpa [Kernel.unwaited] using ht₁
  have hmapped := pickSelect_mapped hpriv hsel
  intro q hq
  by_cases hpid : t.pid = t.wait
  · obtain rfl := Option.some.inj (hp.symm.trans (hpid ▸ hq))
    refine hmapped { p with waitingThreads := p.waitingThreads - 1 } ?_
    simp [Kernel.unwaited, hpid]
  · refine hmapped q ?_
    simp only [Kernel.unwaited, Kernel.setThread_processes, Kernel.setProcess_processes,
      Function.update_of_ne hpid]
    exact hq

theorem schedCheckWaitingThread_ended {tid : Int} {t : Thread} {p : Process}
    (hrange : 0 ≤ t.wait ∧ t.wait < s.lastPid) (hp : s.processes t.wait = some p)
    (hno : p.tids = []) : schedCheckWaitingThread s tid t = (t.wait, s.unwaited tid t p) := by
  unfold schedCheckWaitingThread
  simp only
  rw [if_neg (by omega), hp]
  simp only [Process.threadcount, hno, List.length_nil, ↓reduceIte]

/-- A round that has looked at a thread had what it needs. -/
theorem pickDispatch_clear {tid : Int} {t : Thread} (ht : s.threads tid = some t)
    (hd : pickDispatch s tid = .ok s') : s.ClearFor t := by
  obtain ⟨t₁, ht₁, -, heff⟩ := pickDispatch_ok hd
  obtain rfl := Option.some.inj (ht.symm.trans ht₁)
  simp only [pickDispatch, ht, bind_ok] at hd
  obtain ⟨-, -, hd⟩ := hd
  refine ⟨fun hpriv hsel => ?_, fun hdead => ?_⟩
  · rcases hsel with hrun | ⟨hwait, hmsg, hrange, p, hp, hno⟩
    · simp only [hrun] at hd
      exact pickSelect_mapped hpriv hd
    · simp only [hwait, pickWaiting, hmsg, schedCheckWaitingThread_ended hrange hp hno] at hd
      rw [if_neg (by omega)] at hd
      exact pickResume_mapped hp hpriv hd
  · simp only [hdead] at hd
    exact (pickDead_ok hd).1

/-- The rounds of a call that has returned could do their work. -/
theorem schedPickNext_clear (hp : schedPickNext s = .ok s') : Call.pickNext.Rounds RoundClear s := by
  refine Heads.of_ok (I := fun _ => True) ?_ (fun _ _ _ _ => trivial) trivial hp
  rintro ⟨s, loop⟩ r - hb t ht
  obtain ⟨l, hl⟩ := pickFetch_eq s loop
  have hlook : ∃ s₂, pickDispatch { s with queueLoc := l } (pickFetch s loop).1 = .ok s₂ := by
    rw [← hl]
    cases r with
    | inl st' =>
        obtain ⟨s₂, hd, -⟩ := pickBody_inl hb
        exact ⟨s₂, hd⟩
    | inr s₂ => exact ⟨s₂, (pickBody_inr hb).1⟩
  obtain ⟨s₂, hd⟩ := hlook
  have ht' : Kernel.threads { s with queueLoc := l } (pickFetch s loop).1 = some t := ht
  have hclear := pickDispatch_clear ht' hd
  exact ⟨hclear.directory, hclear.wait⟩

/-! ### The thread that is picked -/

/-- The thread that the round looks at, if the scan has started over at `queue_start`. -/
def roundScanned (st : Kernel × Bool) : List Int :=
  if (pickFetch st.1 st.2).2.2 then [(pickFetch st.1 st.2).1] else []

/-- The threads that the last pass from `queue_start` on has looked at. -/
def Kernel.scanned (s : Kernel) : List Int :=
  gather roundScanned pickBody (pickFuel s) ({ s with currenttid := -1 }, false)

/-- A running thread of a live process has been selected; if it is the idle thread, then the last
pass has looked at every queued thread that has not been freed. -/
structure Picked (s s' : Kernel) : Prop where
  thread : s'.SelectedLive
  idle : s'.currenttid = s'.idletid →
    ∀ tid, s.Queued tid → tid ∈ s.scanned ∨ s'.threads tid = none

/-- What holds when a round begins, the threads of `l` having been looked at in the pass from
`queue_start` on: the thread is in the queue or has been freed, and a pass has looked at all entries
up to the place where it goes on. -/
structure PassInv (tid : Int) (st : Kernel × Bool) (l : List Int) : Prop where
  inv : PickInv st.1
  unselected : st.1.currenttid = -1
  kept : st.1.Queued tid ∨ st.1.threads tid = none
  passed : st.2 = true → ∀ i, 0 ≤ i → i < st.1.queueLoc → i < st.1.queueEnd → st.1.queue i ∈ l

/-- A freed thread does not come back. -/
theorem pickRound_none {loop : Bool} {tid : Int}
    (hd : pickDispatch (pickFetch s loop).2.1 (pickFetch s loop).1 = .ok s')
    (hnone : s.threads tid = none) : s'.threads tid = none := by
  obtain ⟨t, ht, -, heff⟩ := pickDispatch_ok hd
  have hkeep := (pickFetch_keeps s loop).trans (heff.keeps ht)
  by_contra hsome
  obtain ⟨t', ht'⟩ := Option.ne_none_iff_exists'.mp hsome
  obtain ⟨t₀, ht₀, -⟩ := hkeep.threads tid t' ht'
  rw [hnone] at ht₀
  cases ht₀

/-- The scan moves past an entry. -/
theorem PassInv.entry {tid l : Int} {ls : List Int} {loop : Bool} (h : PassInv tid (s, loop) ls)
    (hc : s.ComesTo loop l) (hd : pickDispatch (pickFetch s loop).2.1 (pickFetch s loop).1 = .ok s')
    (hcur : s'.currenttid = -1) :
    PassInv tid (s', (pickFetch s loop).2.2) (ls ++ roundScanned (s, loop)) := by
  obtain ⟨hinv, -, hkept, hpassed⟩ := h
  obtain ⟨P, hqueue⟩ := hinv.queue
  simp only at hinv hkept hpassed hqueue
  obtain ⟨t, ht, hround⟩ := hqueue.entry_round hc hd
  have hlo := hc.lo
  have hhi := hc.hi
  -- the entries up to the one that is looked at are in the list
  have hseen : (pickFetch s loop).2.2 = true → ∀ i, 0 ≤ i → i ≤ l →
      s.queue i ∈ ls ++ roundScanned (s, loop) := by
    intro hflag i h0 hil
    by_cases heq : i = l
    · refine List.mem_append_right _ ?_
      simp only [roundScanned, hflag, ↓reduceIte, hc.tid, heq]
      exact List.mem_singleton_self _
    · refine List.mem_append_left _ ?_
      rcases hc.place with ⟨rfl, hsame⟩ | ⟨-, rfl, -, -⟩
      · exact hpassed (hsame ▸ hflag) i h0 (by omega) (by omega)
      · omega
  refine ⟨hinv.round hd, hcur, ?_, fun hflag i h0 hi hend => ?_⟩
  · rcases hkept with ⟨j, h0, hj, hqj⟩ | hnone
    · rcases hround with ⟨hdead, heff, -⟩ | ⟨-, rfl, hqueue'⟩
      · have hsame := PickEffect.sameQueue (s := { s with queueLoc := l + 1 }) ht heff hdead
        refine .inl ⟨j, ?_, ?_, ?_⟩
        · rw [hsame.queueStart]
          exact h0
        · rw [hsame.queueEnd]
          exact hj
        · rw [hsame.queue]
          exact hqj
      · by_cases htid : tid = s.queue l
        · refine .inr ?_
          simp only [Kernel.freed, htid, Function.update_self]
        · rw [hqueue.start] at h0
          have hmem : tid ∈ P := hqj ▸ hqueue.entries.mem h0 hj
          obtain ⟨j', ⟨h0', hj'⟩, hqj'⟩ := hqueue'.entries.surjOn ⟨hmem, htid⟩
          exact .inl ⟨j', hqueue'.start ▸ h0', hj', hqj'⟩
    · exact .inr (pickRound_none hd hnone)
  · rcases hround with ⟨hdead, heff, -⟩ | ⟨-, rfl, -⟩
    · have hsame := PickEffect.sameQueue (s := { s with queueLoc := l + 1 }) ht heff hdead
      simp only [hsame.queueLoc] at hi
      rw [hsame.queue]
      exact hseen hflag i h0 (by omega)
    · have hi' : i < l + 1 - 1 := hi
      rw [s.freed_queue, eraseAt_eq _ hend, if_neg (by omega)]
      exact hseen hflag i h0 (by omega)

/-- At the end of the queue a pass has looked at all entries. -/
theorem PassInv.all {tid : Int} {ls : List Int} {loop : Bool} (h : PassInv tid (s, loop) ls)
    (hc : s.ComesToEnd loop) {i : Int} (h0 : 0 ≤ i) (hi : i < s.queueEnd) : s.queue i ∈ ls := by
  have hends := hc.ends
  cases hc.passed with
  | inl hloop => exact h.passed hloop i h0 (Int.lt_of_lt_of_le hi hends) hi
  | inr hle => omega

theorem PassInv.turn {tid : Int} {ls : List Int} {loop : Bool} (h : PassInv tid (s, loop) ls)
    (hc : s.ComesToEnd loop) (hd : pickDispatch (pickFetch s loop).2.1 (pickFetch s loop).1 = .ok s')
    (hcur : s'.currenttid = -1) :
    PassInv tid (s', (pickFetch s loop).2.2) (ls ++ roundScanned (s, loop)) := by
  obtain ⟨P, hqueue⟩ := h.inv.queue
  obtain ⟨l, t, -, -, ht, hidles, -, heff, -⟩ := hqueue.end_round h.inv.idle hc hd
  have halive : t.state ≠ .dead := by
    intro hdead
    have hstate := hidles.state
    simp [hdead] at hstate
  have hsame := PickEffect.sameQueue (s := { s with queueLoc := l }) ht heff halive
  refine ⟨h.inv.round hd, hcur, ?_, fun _ i h0 _ hend => ?_⟩
  · rcases h.kept with ⟨j, h0, hj, hqj⟩ | hnone
    · refine .inl ⟨j, ?_, ?_, ?_⟩
      · rw [hsame.queueStart]
        exact h0
      · rw [hsame.queueEnd]
        exact hj
      · rw [hsame.queue]
        exact hqj
    · exact .inr (pickRound_none hd hnone)
  · simp only [hsame.queueEnd] at hend
    simp only [hsame.queue]
    exact List.mem_append_left _ (h.all hc h0 hend)

/-- The idle thread is selected at the end of the queue only. -/
theorem PassInv.selected {tid : Int} {ls : List Int} {loop : Bool} (h : PassInv tid (s, loop) ls)
    (hd : pickDispatch (pickFetch s loop).2.1 (pickFetch s loop).1 = .ok s')
    (hsel : s'.currenttid ≠ -1) (hidle : s'.currenttid = s'.idletid) :
    tid ∈ ls ∨ s'.threads tid = none := by
  obtain ⟨P, hqueue⟩ := h.inv.queue
  have hunselected := h.unselected
  simp only at hqueue hunselected
  cases hqueue.fetch h.inv.tables loop with
  | inl hentry =>
      obtain ⟨l, hc⟩ := hentry
      obtain ⟨t, ht, hround⟩ := hqueue.entry_round hc hd
      rcases hround with ⟨-, heff, -⟩ | ⟨-, rfl, -⟩
      · have hcur := heff.currenttid.resolve_left fun heq => hsel (heq.trans hunselected)
        have hmem := hqueue.entries.mem hc.lo hc.hi
        rw [← hcur, hidle, heff.idletid] at hmem
        exact absurd hmem hqueue.apart
      · exact absurd hunselected hsel
  | inr hend =>
      rcases h.kept with ⟨j, h0, hj, hqj⟩ | hnone
      · simp only [hqueue.start] at h0
        exact .inl (hqj ▸ h.all hend h0 hj)
      · exact .inr (pickRound_none hd hnone)

theorem PickInv.fullPass {tid : Int} (h : PickInv s) (hp : schedPickNext s = .ok s')
    (hidle : s'.currenttid = s'.idletid) (hq : s.Queued tid) :
    tid ∈ s.scanned ∨ s'.threads tid = none := by
  have hstart : PassInv tid ({ s with currenttid := -1 }, false) [] :=
    ⟨h.unselected, rfl, .inl hq, fun hc => by cases hc⟩
  refine whileE_gather (I := PassInv tid) (f := roundScanned)
    (Q := fun s' l => s'.currenttid = s'.idletid → tid ∈ l ∨ s'.threads tid = none) ?_ ?_ hstart
    (heads_true _ _) hp hidle
  · rintro ⟨s, loop⟩ l st' hI - hb
    obtain ⟨s₂, hd, hcur, rfl⟩ := pickBody_inl hb
    obtain ⟨P, hqueue⟩ := hI.inv.queue
    cases hqueue.fetch hI.inv.tables loop with
    | inl hentry =>
        obtain ⟨i, hc⟩ := hentry
        exact hI.entry hc hd hcur
    | inr hend => exact hI.turn hend hd hcur
  · rintro ⟨s, loop⟩ l s₂ hI - hb hidle
    obtain ⟨hd, hsel⟩ := pickBody_inr hb
    exact (hI.selected hd hsel hidle).imp_left fun hmem => List.mem_append_left _ hmem

/-! ### Runs -/

theorem PickInv.exec {c : Call} {r : Int} (h : PickInv s) (hok : c.Disciplined s)
    (hexec : exec s c = .ok (r, s')) : PickInv s' := by
  obtain ⟨P, hqueue⟩ := h.queue
  exact ⟨h.tables.exec hexec, h.live.exec h.tables hok.living hexec, h.waiters.exec h.tables hexec,
    h.heaps.exec h.tables hok.loaded hexec, h.idle.exec h.tables hok hexec,
    hqueue.exec h.tables h.idle hexec⟩

theorem reach_pickInv (h : Reach Step (fun s c => c.Disciplined s) Started s) : PickInv s := by
  refine h.invariant (I := PickInv) (fun s hs => ?_) ?_
  · exact ⟨.started hs, .started hs, reach_waitersLive (.start hs : Reach Step (fun _ _ => True) Started s),
      .started hs, .started hs, ScanInv.started hs⟩
  · rintro s c s' hI hok ⟨r, hexec⟩
    exact hI.exec hok hexec

/-- The threads that the scan looks at in its first `n` rounds. -/
def Kernel.looked (s : Kernel) (n : ℕ) : List Int :=
  gather (fun st => [(pickFetch st.1 st.2).1]) pickBody n ({ s with currenttid := -1 }, false)

/-- **The scan is bounded** in every state that disciplined calls lead to: it looks at the entries ahead,
at those of a second pass and at most twice at the idle thread, and then it has selected a thread or
failed. -/
theorem pickNext_bounded (h : Reach Step (fun s c => c.Disciplined s) Started s) (n : ℕ) :
    (s.looked n).length ≤ (s.queueEnd - s.queueLoc).toNat + s.queueEnd.toNat + 2 := by
  have hrounds : (s.looked n).length ≤ roundsLeft ({ s with currenttid := -1 }, false) := by
    refine gather_length_le (I := fun st => PickInv st.1) (fun _ => Nat.le_refl _) (fun st _ => ?_) ?_
      (reach_pickInv h).unselected
    · unfold roundsLeft
      split_ifs <;> omega
    · rintro ⟨s, loop⟩ st' hI hb
      obtain ⟨s₂, hd, hcur, rfl⟩ := pickBody_inl hb
      exact ⟨hI.round hd, roundsLeft_lt hI hd hcur⟩
  refine Nat.le_trans hrounds ?_
  unfold roundsLeft
  simp only [Bool.false_eq_true, ↓reduceIte]
  split_ifs <;> omega

/-- **The scheduler always picks**, in every state that disciplined calls lead to, if the loads that
it makes return: it ends with a running thread of a live process selected exactly if every round can
do its work. -/
theorem pickNext_picks_iff (h : Reach Step (fun s c => c.Disciplined s) Started s)
    (hload : Call.pickNext.Rounds LoadReturns s) :
    (∃ s', schedPickNext s = .ok s' ∧ Picked s s') ↔ Call.pickNext.Rounds RoundClear s := by
  have hinv := reach_pickInv h
  constructor
  · rintro ⟨s', hp, -⟩
    exact schedPickNext_clear hp
  · intro hclear
    obtain ⟨s', hp⟩ := hinv.returns hclear hload
    exact ⟨s', hp, schedPickNext_selectedLive hinv.live hp,
      fun hidle tid hq => hinv.fullPass hp hidle hq⟩

/-! ### Examples of runs -/

instance (s : Kernel) (t : Thread) : Decidable (s.Selects t) := inferInstanceAs (Decidable (_ ∨ _))

instance (s : Kernel) (t : Thread) : Decidable (s.DirectoryMapped t) :=
  decidableForallSome (s.processes t.pid)

instance (s : Kernel) (t : Thread) : Decidable (s.WaitKnown t) := inferInstanceAs (Decidable (_ → _))

instance (s : Kernel) (t : Thread) : Decidable (s.ClearFor t) :=
  decidable_of_iff ((t.privilegeLevel ≠ 0 → s.Selects t → s.DirectoryMapped t) ∧
    (t.state = .dead → s.WaitKnown t)) ⟨fun h => ⟨h.1, h.2⟩, fun h => ⟨h.1, h.2⟩⟩

instance : DecidablePred RoundClear := fun st =>
  decidableForallSome (st.1.threads (pickFetch st.1 st.2).1)

instance : DecidablePred LoadReturns := fun st =>
  decidableForallSome ((pickFetch st.1 st.2).2.1.loads (pickFetch st.1 st.2).1)

instance Call.BreakLoaded.decidable (s : Kernel) (c : Call) : Decidable (c.BreakLoaded s) :=
  Call.casesOn (motive := fun c => Decidable (c.BreakLoaded s)) c
    (fun _ _ => .isTrue trivial) (fun _ _ _ => .isTrue trivial) (fun _ _ => .isTrue trivial)
    (fun _ => .isTrue trivial) (.isTrue trivial) (fun _ => .isTrue trivial)
    (fun _ => .isTrue trivial) (fun _ _ => .isTrue trivial) (fun _ => .isTrue trivial)
    (fun _ => .isTrue trivial) (.isTrue trivial) (fun _ _ _ => .isTrue trivial)
    (fun _ _ => .isTrue trivial) (fun _ _ _ _ _ _ => .isTrue trivial)
    (fun _ _ _ _ _ _ => .isTrue trivial) (fun _ _ => .isTrue trivial)
    (fun _ => decidableForallOk s.currentProcess) (fun _ _ _ => .isTrue trivial)
    (fun _ => .isTrue trivial) (fun _ _ => .isTrue trivial) (.isTrue trivial)

instance : DecidableRel fun (s : Kernel) (c : Call) => c.Disciplined s := fun s c =>
  have : Decidable (∀ p, s.currentProcess = .ok p → p.privilegeLevel ≠ 0) :=
    decidableForallOk s.currentProcess
  decidable_of_iff (c.ByLiving s ∧ c.actor s ≠ some s.idletid ∧
    (c.ends = true → ∀ p, s.currentProcess = .ok p → p.privilegeLevel ≠ 0) ∧ c.BreakLoaded s)
    ⟨fun h => ⟨h.1, h.2.1, h.2.2.1, h.2.2.2⟩, fun h => ⟨h.1, h.2, h.3, h.4⟩⟩

/-- A user-mode process is loaded, and its thread waits for the interrupt 14. -/
def suspendedCalls : List Call :=
  [.loadProcess ⟨sampleImage [0, 0, 0x40, 0], [], 3, [], [], true⟩, .pickNext, .suspendThread 14 1]

/-- While the thread waits, a scan looks at it once and at the idle thread twice. -/
theorem pickNext_bounded_idle : ∃ s : Kernel, s.queueEnd = 1 ∧ s.queueLoc = 1 ∧ s.looked 9 = [1, 0, 0] ∧
    (s.looked 9).length ≤ (s.queueEnd - s.queueLoc).toNat + s.queueEnd.toNat + 2 := by
  have hrun : BootRuns id execState (fun s c => c.Disciplined s)
      (fun s => s.queueEnd = 1 ∧ s.queueLoc = 1 ∧ s.looked 9 = [1, 0, 0]) suspendedCalls := by
    decide +kernel
  obtain ⟨s, hs, hend, hloc, hlooked⟩ := hrun.reach (fun _ _ _ => execState_step) fun _ hs => hs
  exact ⟨s, hend, hloc, hlooked, pickNext_bounded hs 9⟩

/-- While the thread waits, the idle thread is picked. -/
theorem pickNext_picks_idle : ∃ s s', s.queueEnd = 1 ∧ s'.currenttid = s'.idletid ∧ Picked s s' := by
  have hrun : BootRuns id execState (fun s c => c.Disciplined s)
      (fun s => s.queueEnd = 1 ∧ OkAnd (schedPickNext s) (fun s' => s'.currenttid = s'.idletid) ∧
        Call.pickNext.Rounds LoadReturns s ∧ Call.pickNext.Rounds RoundClear s)
      suspendedCalls := by decide +kernel
  obtain ⟨s, hs, hend, hpick, hload, hclear⟩ := hrun.reach (fun _ _ _ => execState_step) fun _ hs => hs
  obtain ⟨s₁, h₁, hidle⟩ := hpick.exists_ok
  obtain ⟨s', hp, hpicked⟩ := (pickNext_picks_iff hs hload).mpr hclear
  obtain rfl := Except.ok.inj (h₁.symm.trans hp)
  exact ⟨s, _, hend, hidle, hpicked⟩

/-- The interrupt wakes the thread, and then its process exits. -/
theorem pickNext_stale_wait : ∃ s, Reach Step (fun s c => c.Disciplined s) Started s ∧
    Call.pickNext.Rounds LoadReturns s ∧ schedPickNext s = .error .uninitialized := by
  have hrun : BootRuns id execState (fun s c => c.Disciplined s)
      (fun s => Call.pickNext.Rounds LoadReturns s ∧
        ¬Avoids (· = .uninitialized) (schedPickNext s))
      (suspendedCalls ++ [.pickNext, .checkSuspended 14, .pickNext, .exitProcess 0]) := by
    decide +kernel
  obtain ⟨s, hs, hload, hfails⟩ := hrun.reach (fun _ _ _ => execState_step) fun _ hs => hs
  exact ⟨s, hs, hload, eq_error_of_not_avoids hfails⟩

end GalaxyOS
