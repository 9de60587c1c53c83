import GalaxyOS.Sched.Effects

/-! # What a round of the scheduler can do

`PickEffect s tid t s'` lists everything that `sched_pick_next` may do with the thread `t` whose
id is `tid`, one constructor for each way through the switch.  `pickDispatch_ok` says that these
are all, together with what the sanity checks of the round have established.

`PickEffect.other`, `PickEffect.selected` and `PickEffect.freed` read off what most invariants need. -/

namespace GalaxyOS

open Transition

/-! ### The loader -/

theorem Process.Like.trans {p₁ p₂ p₃ : Process} (h : p₁.Like p₂) (h' : p₂.Like p₃) :
    p₁.Like p₃ :=
  ⟨h'.tids.trans h.tids, h'.tidsSize.trans h.tidsSize, h'.tidsCap.trans h.tidsCap,
    h'.pid.trans h.pid, h'.waitingThreads.trans h.waitingThreads, h'.exiting.trans h.exiting⟩

/-- What the loader may do to the thread it was called for: set its entry point and start it. -/
def Thread.Loaded (t t' : Thread) : Prop :=
  t' = t ∨ ∃ frame, t' = { t with frame := frame, state := .running }

/-- A load that fails leaves the process loading, and one that succeeds starts it. -/
theorem ploadLoadProcess_cases {policy : LoaderAccess → Prop} [DecidablePred policy]
    {s s' : Kernel} {pid tid r : Int} {t : Thread} {p : Process} (ht : s.threads tid = some t)
    (hp : s.processes pid = some p) (h : ploadLoadProcess policy s pid tid = .ok (r, s')) :
    (r = -1 ∧ ∃ st mem, s' = { s with
      mem := mem, kmode := false
      processes := Function.update s.processes pid (some (p.loading st)) }) ∨
    r = 0 ∧ ∃ st entry mem, s' = { s with
      mem := mem, kmode := true
      processes := Function.update s.processes pid (some (p.loaded st))
      threads := Function.update s.threads tid
        (some { t with frame := { t.frame with eip := entry }, state := .running }) } := by
  unfold ploadLoadProcess at h
  simp only [bind_ok, Kernel.liveProcess_ok, hp, Option.some.injEq, exists_eq_left',
    Prod.exists] at h
  obtain ⟨entry, st, -, h⟩ := h
  cases entry with
  | none =>
      simp only [Except.ok.injEq, Prod.mk.injEq] at h
      exact .inl ⟨h.1.symm, st, _, h.2.symm⟩
  | some entry =>
      simp only [bind_ok, Kernel.threadAt_ok, Kernel.setProcess_threads, ht, Option.some.injEq,
        exists_eq_left', Except.ok.injEq, Prod.mk.injEq] at h
      exact .inr ⟨h.1.symm, st, entry, _, h.2.symm⟩

theorem ploadLoadProcess_ok {policy : LoaderAccess → Prop} [DecidablePred policy]
    {s s' : Kernel} {pid tid r : Int} {t : Thread} {p : Process} (ht : s.threads tid = some t)
    (hp : s.processes pid = some p) (hstate : p.state = .starting)
    (h : ploadLoadProcess policy s pid tid = .ok (r, s')) :
    ∃ p' t' mem kmode, p.Like p' ∧ t.Loaded t' ∧ s' = { s with
      mem := mem, kmode := kmode
      processes := Function.update s.processes pid (some p')
      threads := Function.update s.threads tid (some t') } := by
  rcases ploadLoadProcess_cases ht hp h with ⟨-, st, mem, rfl⟩ | ⟨-, st, entry, mem, rfl⟩
  · refine ⟨p.loading st, t, mem, false, ⟨rfl, rfl, rfl, rfl, rfl, ?_⟩, .inl rfl, ?_⟩
    · simp [Process.loading, hstate]
    · have hself : Function.update s.threads tid (some t) = s.threads :=
        Function.update_eq_self_iff.mpr ht.symm
      rw [hself]
  · refine ⟨p.loaded st, _, mem, true, ⟨rfl, rfl, rfl, rfl, rfl, ?_⟩, .inr ⟨_, rfl⟩, rfl⟩
    simp [Process.loaded, hstate]

/-! ### Fetching a thread -/

theorem schedPopNextTid_cases (s : Kernel) :
    (s.queueLoc < s.queueEnd ∧
      schedPopNextTid s = (s.queue s.queueLoc, { s with queueLoc := s.queueLoc + 1 })) ∨
    (s.queueEnd ≤ s.queueLoc ∧ schedPopNextTid s = (-1, s)) := by
  unfold schedPopNextTid
  split_ifs with h
  · exact .inl ⟨by omega, rfl⟩
  · exact .inr ⟨by omega, rfl⟩

/-- Fetching moves `queue_loc` and nothing else. -/
theorem pickFetch_eq (s : Kernel) (loop : Bool) :
    ∃ l, (pickFetch s loop).2.1 = { s with queueLoc := l } := by
  unfold pickFetch
  have hpop : ∀ s : Kernel, ∃ l, (schedPopNextTid s).2 = { s with queueLoc := l } := fun s => by
    rcases schedPopNextTid_cases s with ⟨-, h⟩ | ⟨-, h⟩
    · exact ⟨_, by rw [h]⟩
    · exact ⟨s.queueLoc, by rw [h]⟩
  obtain ⟨l, hl⟩ := hpop s
  simp only [hl]
  split_ifs
  · exact ⟨l, rfl⟩
  · exact ⟨l, rfl⟩
  · exact hpop _
  · exact hpop _

/-! ### The switch of `sched_pick_next` -/

/-- The process table after the removal of a thread with this `wait`. -/
def droppedWaiter (processes : Int → Option Process) (wait : Int) : Int → Option Process :=
  if wait = 0 then processes
  else Function.update processes wait ((processes wait).map fun p =>
    { p with waitingThreads := p.waitingThreads - 1 })

/-- The state after the dead thread `t` has been taken out of the queue and freed. -/
def Kernel.freed (s : Kernel) (tid : Int) (t : Thread) : Kernel :=
  { s with
    queue := fun i => if s.queueLoc - 1 ≤ i ∧ i < s.queueEnd - 1 then s.queue (i + 1) else s.queue i
    queueEnd := s.queueEnd - 1, queueLoc := s.queueLoc - 1
    processes := droppedWaiter s.processes t.wait
    threads := Function.update s.threads tid none }

/-- The state after the waiting thread `t` has been resumed because the process `p` has ended;
the last waiter takes the process with it. -/
def Kernel.resumed (s : Kernel) (tid : Int) (t : Thread) (p : Process) (mem : Mem) (frame : Regs) :
    Kernel :=
  { s with
    mem := mem
    processesCount := if p.waitingThreads - 1 = 0 then s.processesCount - 1 else s.processesCount
    threads := Function.update s.threads tid
      (some { t with wait := 0, state := .running, frame := frame })
    processes := Function.update s.processes t.wait
      { p with waitingThreads := p.waitingThreads - 1 }.reaped
    currentps := (s.processes t.pid).map fun _ => t.pid
    currenttid := tid }

/-- Everything that a round may do with the thread `t`. -/
inductive PickEffect (s : Kernel) (tid : Int) (t : Thread) : Kernel → Prop
  | select (mem : Mem) : t.state = .running → PickEffect s tid t
      { s with mem := mem, currentps := (s.processes t.pid).map fun _ => t.pid, currenttid := tid }
  | skip : t.state ≠ .dead → t.state ≠ .running → t.state ≠ .exiting → PickEffect s tid t s
  | message (addr : ℕ) : t.state = .waiting → t.waitMsg = some addr → PickEffect s tid t
      (s.setThread tid (some { t with waitMsg := none, state := .running }))
  | stale : t.state = .waiting → t.waitMsg = none →
      (t.wait < 0 ∨ t.wait ≥ s.lastPid ∨ s.processes t.wait = none) → PickEffect s tid t
      (s.setThread tid (some { t with wait := 0, state := .running }))
  | resume (p : Process) (mem : Mem) (frame : Regs) : t.state = .waiting → t.waitMsg = none →
      0 ≤ t.wait ∧ t.wait < s.lastPid → s.processes t.wait = some p → p.tids = [] →
      PickEffect s tid t (s.resumed tid t p mem frame)
  | start : t.state = .starting → PickEffect s tid t
      (s.setThread tid (some { t with state := .running }))
  | load (p p' : Process) (t' : Thread) (mem : Mem) (kmode : Bool) : t.state = .starting →
      s.processes t.pid = some p → p.Like p' → t.Loaded t' → PickEffect s tid t
      { s with
        mem := mem, kmode := kmode
        processes := Function.update s.processes t.pid (some p')
        threads := Function.update s.threads tid (some t') }
  | exit : t.state = .exiting → PickEffect s tid t
      (s.setThread tid (some { t with state := .dead }))
  | dead : t.state = .dead → (t.wait ≠ 0 → 0 ≤ t.wait ∧ t.wait < s.lastPid) →
      ¬(s.queueLoc - 1 < 0 ∧ s.queueLoc < s.queueEnd) → PickEffect s tid t (s.freed tid t)

/-- A round that meets a dead thread frees it. -/
theorem PickEffect.freed {s s' : Kernel} {tid : Int} {t : Thread} (h : PickEffect s tid t s')
    (hd : t.state = .dead) : s' = s.freed tid t := by
  cases h with
  | skip h1 => exact absurd hd h1
  | dead hstate hw hq => rfl
  | select _ hstate | message _ hstate | stale hstate | resume _ _ _ hstate | start hstate
  | load _ _ _ _ _ hstate | exit hstate =>
      rw [hstate] at hd
      cases hd

/-- A round changes no thread but the one it looks at. -/
theorem PickEffect.other {s s' : Kernel} {tid tid' : Int} {t : Thread} (h : PickEffect s tid t s')
    (hne : tid' ≠ tid) : s'.threads tid' = s.threads tid' := by
  cases h with
  | select | skip => rfl
  | message | stale | start | exit | resume | load | dead => exact Function.update_of_ne hne ..

/-- A round that selects a thread selects the one it looks at. -/
theorem PickEffect.currenttid {s s' : Kernel} {tid : Int} {t : Thread} (h : PickEffect s tid t s') :
    s'.currenttid = s.currenttid ∨ s'.currenttid = tid := by
  cases h with
  | select | resume => exact .inr rfl
  | skip | message | stale | start | load | exit | dead => exact .inl rfl

/-- A round that meets a running thread selects it. -/
theorem PickEffect.selected {s s' : Kernel} {tid : Int} {t : Thread} (h : PickEffect s tid t s')
    (hrun : t.state = .running) : s'.currenttid = tid ∧ s'.threads = s.threads := by
  cases h with
  | select => exact ⟨rfl, rfl⟩
  | skip _ hstate => exact absurd hrun hstate
  | message _ hstate | stale hstate | resume _ _ _ hstate | start hstate | load _ _ _ _ _ hstate
  | exit hstate | dead hstate =>
      rw [hstate] at hrun
      cases hrun

theorem PickEffect.idletid {s s' : Kernel} {tid : Int} {t : Thread} (h : PickEffect s tid t s') :
    s'.idletid = s.idletid := by
  cases h <;> rfl

theorem pickSelect_ok {s s' : Kernel} {tid : Int} {t : Thread} (h : pickSelect s tid t = .ok s') :
    ∃ mem, s' = { s with
      mem := mem, currentps := (s.processes t.pid).map fun _ => t.pid, currenttid := tid } := by
  simp only [pickSelect, bind_ok, Except.ok.injEq] at h
  obtain ⟨mem, -, rfl⟩ := h
  exact ⟨mem, rfl⟩

theorem dropWaiter_ok {s s' : Kernel} {t : Thread} (h : dropWaiter s t = .ok s') :
    (t.wait ≠ 0 → 0 ≤ t.wait ∧ t.wait < s.lastPid) ∧
    s' = { s with processes := droppedWaiter s.processes t.wait } := by
  unfold dropWaiter at h
  unfold droppedWaiter
  split_ifs at h ⊢ with h0
  · exact ⟨fun h1 => absurd h0 h1, (Except.ok.inj h).symm⟩
  · simp only [bind_ok, Kernel.processAt_ok] at h
    obtain ⟨waited, ⟨hrange, hw⟩, h⟩ := h
    refine ⟨fun _ => hrange, ?_⟩
    cases waited with
    | none =>
        rw [← Except.ok.inj h, hw, Option.map_none, Function.update_eq_self_iff.mpr hw.symm]
    | some p =>
        rw [← Except.ok.inj h, hw]
        rfl

theorem pickDead_ok {s s' : Kernel} {tid : Int} {t : Thread} (h : pickDead s tid t = .ok s') :
    (t.wait ≠ 0 → 0 ≤ t.wait ∧ t.wait < s.lastPid) ∧
    ¬(s.queueLoc - 1 < 0 ∧ s.queueLoc < s.queueEnd) ∧ s' = s.freed tid t := by
  simp only [pickDead, bind_ok, Except.ok.injEq] at h
  obtain ⟨s₁, h1, s₂, h2, rfl⟩ := h
  unfold Kernel.dequeue at h1
  split_ifs at h1 with hq
  obtain rfl := Except.ok.inj h1
  obtain ⟨hw, rfl⟩ := dropWaiter_ok h2
  exact ⟨hw, hq, rfl⟩

theorem pickStarting_ok {s s' : Kernel} {tid : Int} {t : Thread} (ht : s.threads tid = some t)
    (hstate : t.state = .starting) (h : pickStarting s tid t = .ok s') : PickEffect s tid t s' := by
  unfold pickStarting at h
  split_ifs at h with hk
  · obtain rfl := Except.ok.inj h
    exact .start hstate
  · simp only [bind_ok, Kernel.liveProcess_ok] at h
    obtain ⟨p, hp, h⟩ := h
    cases hps : p.state with
    | starting =>
        simp only [hps, bind_ok, Prod.exists, Except.ok.injEq] at h
        obtain ⟨r, s₁, hload, rfl⟩ := h
        obtain ⟨p', t', mem, kmode, hl, hl', rfl⟩ := ploadLoadProcess_ok ht hp hps hload
        exact .load p p' t' mem kmode hstate hp hl hl'
    | running =>
        simp only [hps, Except.ok.injEq] at h
        subst h
        exact .start hstate
    | loading =>
        simp only [hps, Except.ok.injEq] at h
        subst h
        exact .start hstate
    | exiting =>
        simp only [hps, Except.ok.injEq] at h
        subst h
        exact .skip (by simp [hstate]) (by simp [hstate]) (by simp [hstate])

theorem schedReapProcess_resumed {s s' : Kernel} {pid : Int} (p : Process)
    (h : schedReapProcess s pid = .ok s') (hrange : 0 ≤ pid ∧ pid < s.lastPid)
    (hp : s.processes pid = some p) (hno : p.tids = []) :
    ∃ mem, s' = { s with
      mem := mem
      processesCount := if p.waitingThreads = 0 then s.processesCount - 1 else s.processesCount
      processes := Function.update s.processes pid p.reaped } := by
  rcases schedReapProcess_ok h with ⟨-, hq | hq | hq⟩ | ⟨p', mem, hp', -, -, hs⟩
  · omega
  · omega
  · simp [hp] at hq
  · obtain rfl : p = p' := Option.some.inj (hp.symm.trans hp')
    refine ⟨mem, hs.trans ?_⟩
    rw [hno, deadThreads_nil]

/-- The three outcomes of `sched_check_waiting_thread`. -/
theorem schedCheckWaitingThread_cases (s : Kernel) (tid : Int) (t : Thread) :
    ((t.wait < 0 ∨ t.wait ≥ s.lastPid ∨ s.processes t.wait = none) ∧
      schedCheckWaitingThread s tid t =
        (-1, s.setThread tid (some { t with wait := 0, state := .running }))) ∨
    schedCheckWaitingThread s tid t = (-1, s) ∨
    ∃ p, (0 ≤ t.wait ∧ t.wait < s.lastPid) ∧ s.processes t.wait = some p ∧ p.tids = [] ∧
      schedCheckWaitingThread s tid t = (t.wait, s.unwaited tid t p) := by
  unfold schedCheckWaitingThread
  simp only
  split_ifs with hr
  · exact .inl ⟨by omega, rfl⟩
  · cases hp : s.processes t.wait with
    | none => exact .inl ⟨.inr (.inr rfl), rfl⟩
    | some p =>
        simp only
        split_ifs with h0
        · exact .inr (.inr ⟨p, by omega, rfl, List.length_eq_zero_iff.mp h0, rfl⟩)
        · exact .inr (.inl rfl)

theorem currentps_update {processes : Int → Option Process} {pid : Int} {p p' : Process}
    (hp : processes pid = some p) (i : Int) :
    (Function.update processes pid (some p') i).map (fun _ => i) =
      (processes i).map fun _ => i := by
  by_cases hi : i = pid
  · subst hi
    simp [hp]
  · rw [Function.update_of_ne hi]

/-- A resumed thread finds the exit code of the process in `eax`. -/
theorem pickResume_frame {s s' : Kernel} {tid : Int} {t : Thread} {p : Process}
    (hrange : 0 ≤ t.wait ∧ t.wait < s.lastPid) (hp : s.processes t.wait = some p)
    (hno : p.tids = []) (h : pickResume (s.unwaited tid t p) tid t.wait = .ok s') :
    ∃ mem, s' = s.resumed tid t p mem { t.frame with eax := regOfInt p.exitcode } := by
  simp only [pickResume, bind_ok, Kernel.threadAt_ok, Kernel.liveProcess_ok] at h
  obtain ⟨t₁, ht₁, s₁, hsel, p₁, hp₁, hreap⟩ := h
  obtain ⟨mem, rfl⟩ := pickSelect_ok hsel
  obtain rfl : { t with wait := 0, state := .running } = t₁ := by
    simpa [Kernel.unwaited] using ht₁
  obtain rfl : { p with waitingThreads := p.waitingThreads - 1 } = p₁ := by
    simpa [Kernel.unwaited] using hp₁
  obtain ⟨mem', rfl⟩ := schedReapProcess_resumed
    { p with waitingThreads := p.waitingThreads - 1 } hreap hrange (by simp [Kernel.unwaited]) hno
  refine ⟨mem', ?_⟩
  simp only [Kernel.unwaited, Kernel.setThread, Kernel.setProcess, Kernel.resumed,
    Function.update_idem, currentps_update hp]

theorem pickResume_ok {s s' : Kernel} {tid : Int} {t : Thread} {p : Process}
    (hrange : 0 ≤ t.wait ∧ t.wait < s.lastPid) (hp : s.processes t.wait = some p)
    (hno : p.tids = []) (h : pickResume (s.unwaited tid t p) tid t.wait = .ok s') :
    ∃ mem frame, s' = s.resumed tid t p mem frame := by
  obtain ⟨mem, hs⟩ := pickResume_frame hrange hp hno h
  exact ⟨mem, _, hs⟩

theorem pickWaiting_ok {s s' : Kernel} {tid : Int} {t : Thread} (hstate : t.state = .waiting)
    (h : pickWaiting s tid t = .ok s') : PickEffect s tid t s' := by
  have hskip : PickEffect s tid t s :=
    .skip (by simp [hstate]) (by simp [hstate]) (by simp [hstate])
  unfold pickWaiting at h
  cases hmsg : t.waitMsg with
  | some addr =>
      simp only [hmsg, bind_ok] at h
      obtain ⟨i, -, h⟩ := h
      split_ifs at h with hm
      · obtain rfl := Except.ok.inj h
        exact .message addr hstate hmsg
      · obtain rfl := Except.ok.inj h
        exact hskip
  | none =>
      simp only [hmsg] at h
      rcases schedCheckWaitingThread_cases s tid t with ⟨hs, hc⟩ | hc | ⟨p, hrange, hp, hno, hc⟩
      · simp only [hc, ↓reduceIte, Except.ok.injEq] at h
        subst h
        exact .stale hstate hmsg hs
      · simp only [hc, ↓reduceIte, Except.ok.injEq] at h
        subst h
        exact hskip
      · simp only [hc] at h
        rw [if_neg (by omega)] at h
        obtain ⟨mem, frame, rfl⟩ := pickResume_ok hrange hp hno h
        exact .resume p mem frame hstate hmsg hrange hp hno

/-- A round that does not fail looks at a thread that exists; unless the thread is dead, its
process exists and is not exiting. -/
theorem pickDispatch_ok {s s' : Kernel} {tid : Int} (h : pickDispatch s tid = .ok s') :
    ∃ t, s.threads tid = some t ∧
      (t.state ≠ .dead → ∃ p, s.processes t.pid = some p ∧ p.state ≠ .exiting) ∧
      PickEffect s tid t s' := by
  unfold pickDispatch at h
  cases ht : s.threads tid with
  | none => simp [ht] at h
  | some t =>
      simp only [ht, bind_ok] at h
      obtain ⟨_, hcheck, h⟩ := h
      refine ⟨t, rfl, fun hd => ?_, ?_⟩
      · unfold pickCheck at hcheck
        cases hp : s.processes t.pid with
        | none => simp [hp, hd] at hcheck
        | some p =>
            simp only [hp] at hcheck
            split_ifs at hcheck with he
            exact ⟨p, rfl, fun hx => he ⟨hx, hd⟩⟩
      · cases hstate : t.state with
        | running =>
            simp only [hstate] at h
            obtain ⟨mem, rfl⟩ := pickSelect_ok h
            exact .select mem hstate
        | suspended =>
            simp only [hstate, Except.ok.injEq] at h
            subst h
            exact .skip (by simp [hstate]) (by simp [hstate]) (by simp [hstate])
        | waiting =>
            simp only [hstate] at h
            exact pickWaiting_ok hstate h
        | starting =>
            simp only [hstate] at h
            exact pickStarting_ok ht hstate h
        | exiting =>
            simp only [hstate, Except.ok.injEq] at h
            subst h
            exact .exit hstate
        | dead =>
            simp only [hstate] at h
            obtain ⟨hw, hq, rfl⟩ := pickDead_ok h
            exact .dead hstate hw hq

/-- A round that looks at a thread waiting for a process that exists leaves everything as it is,
or the process has no threads left and the thread receives its exit code. -/
theorem pickDispatch_waiting {s s' : Kernel} {tid : Int} {t : Thread} {p : Process}
    (ht : s.threads tid = some t) (hstate : t.state = .waiting) (hmsg : t.waitMsg = none)
    (hrange : 0 ≤ t.wait ∧ t.wait < s.lastPid) (hp : s.processes t.wait = some p)
    (h : pickDispatch s tid = .ok s') : s' = s ∨ p.tids = [] ∧ ∃ mem,
      s' = s.resumed tid t p mem { t.frame with eax := regOfInt p.exitcode } := by
  simp only [pickDispatch, ht, bind_ok, hstate, pickWaiting, hmsg] at h
  obtain ⟨-, -, h⟩ := h
  rcases schedCheckWaitingThread_cases s tid t with ⟨hs, -⟩ | hc | ⟨p', -, hp', hno, hc⟩
  · rcases hs with hs | hs | hs
    · omega
    · omega
    · rw [hp] at hs
      cases hs
  · simp only [hc, ↓reduceIte, Except.ok.injEq] at h
    exact .inl h.symm
  · obtain rfl := Option.some.inj (hp.symm.trans hp')
    simp only [hc] at h
    rw [if_neg (by omega)] at h
    exact .inr ⟨hno, pickResume_frame hrange hp hno h⟩

end GalaxyOS
