import GalaxyOS.Lib.Count
import GalaxyOS.Sched.Tables

/-! # Threads that wait for a process

`waiting_threads` of a process should be the number of threads that wait for its end.  The id of
that process is kept in `wait` of the waiting thread, and so is the IRQ number of a suspended
thread.  Nothing clears the IRQ number when the thread is woken up; when the thread dies later, the
number is taken for the id of a process.  A wait for process 0, on the other hand, looks like no
wait at all.

`WaitState` records for each thread how its field was last set.  In a run that removes no thread
with an IRQ number in the field, and none that waits for process 0, every counter is exact and
every removal touches the right one.

`waiters_exact` is this statement.  `WaitInv.set` changes the record of one thread, `WaitInv.round_effect`
follows it through a round, and `WaitInv.exec` through a call. -/

namespace GalaxyOS

open Transition Count

/-- What `wait` of a thread stands for. -/
inductive WaitUse where
  | none
  | irq
  | pid (pid : Int)
deriving DecidableEq, Repr

/-- What a call makes of `wait`; `r` is its result. -/
def Call.noteWait (c : Call) (r : Int) (s : Kernel) (use : Int → WaitUse) : Int → WaitUse :=
  match c with
  | .waitProcess pid => if r = 0 then Function.update use s.currenttid (.pid pid) else use
  | .suspendThread irq tid => Function.update use tid (if irq = 0 then .none else .irq)
  | .interfaceWait _ tid => if r = 0 then Function.update use tid .none else use
  | _ => use

/-- A thread that runs has been resumed, and one that has been freed waits no longer. -/
def settle (s : Kernel) (use : Int → WaitUse) : Int → WaitUse := fun tid =>
  match s.threads tid, use tid with
  | none, _ => .none
  | some _, .none => .none
  | some _, .irq => .irq
  | some t, .pid pid => if t.state = .running then .none else .pid pid

/-- When the round frees a dead thread, `wait` is 0 or the process that the thread waits for. -/
def RemovalRight (use : Int → WaitUse) (st : Kernel × Bool) : Prop :=
  ∀ t, st.1.threads (pickFetch st.1 st.2).1 = some t → t.state = .dead → t.wait ≠ 0 →
    use (pickFetch st.1 st.2).1 = .pid t.wait ∧ 0 ≤ t.wait ∧ t.wait < st.1.lastPid

/-- All removals of the call are right. -/
def Call.RemovalsRight (s : Kernel) (use : Int → WaitUse) (c : Call) : Prop :=
  c.Rounds (RemovalRight use) s

/-- A state of the kernel and the meaning of every `wait` in it. -/
structure WaitState where
  kernel : Kernel
  use : Int → WaitUse

/-- The record after a call with result `r` that has led to `s'`. -/
def WaitState.next (st : WaitState) (c : Call) (r : Int) (s' : Kernel) : WaitState :=
  ⟨s', settle s' (c.noteWait r st.kernel st.use)⟩

/-- A call, what it does to the waiters being recorded. -/
def WaitState.exec (st : WaitState) (c : Call) : Except Fault WaitState := do
  let (r, s') ← GalaxyOS.exec st.kernel c
  .ok (st.next c r s')

def WaitStep (st : WaitState) (c : Call) (st' : WaitState) : Prop := st.exec c = .ok st'

theorem WaitStep.exists_exec {st st' : WaitState} {c : Call} (h : WaitStep st c st') :
    ∃ r s', GalaxyOS.exec st.kernel c = .ok (r, s') ∧ st' = st.next c r s' := by
  simp only [WaitStep, WaitState.exec, bind_ok, Prod.exists, Except.ok.injEq] at h
  obtain ⟨r, s', hexec, rfl⟩ := h
  exact ⟨r, s', hexec, rfl⟩

def WaitStart (st : WaitState) : Prop := Started st.kernel ∧ st.use = fun _ => .none

/-- Every counter is the number of threads that wait for the process. -/
def WaitersExact (st : WaitState) : Prop :=
  ∀ pid p, st.kernel.processes pid = some p →
    p.waitingThreads = count st.use st.kernel.lastTid (.pid pid)

/-- The thread that the call puts to sleep. -/
def Call.sleeper (s : Kernel) : Call → Option Int
  | .waitProcess _ => some s.currenttid
  | .suspendThread _ tid => some tid
  | .interfaceWait _ tid => some tid
  | _ => none

/-- The thread that a system call or a driver puts to sleep is one that runs. -/
def Call.OnRunning (s : Kernel) (c : Call) : Prop :=
  ∀ tid, c.sleeper s = some tid → ∀ t, s.threads tid = some t → t.state = .running

/-- If the round frees a dead thread, then its `wait` does not hold an IRQ number and the thread
does not wait for process 0. -/
def RemovalClean (use : Int → WaitUse) (st : Kernel × Bool) : Prop :=
  ∀ t, st.1.threads (pickFetch st.1 st.2).1 = some t → t.state = .dead →
    use (pickFetch st.1 st.2).1 ≠ .irq ∧ use (pickFetch st.1 st.2).1 ≠ .pid 0

instance (use : Int → WaitUse) (st : Kernel × Bool) : Decidable (RemovalClean use st) := by
  unfold RemovalClean
  infer_instance

instance (s : Kernel) (c : Call) : Decidable (c.OnRunning s) :=
  have : DecidablePred fun tid => ∀ t, s.threads tid = some t → t.state = .running :=
    fun tid => decidableForallSome (s.threads tid)
  decidableForallSome (c.sleeper s)

/-- All removals of the call are clean. -/
def Call.RemovalsClean (s : Kernel) (use : Int → WaitUse) (c : Call) : Prop :=
  c.Rounds (RemovalClean use) s

/-! ### The invariant -/

structure WaitInv (s : Kernel) (use : Int → WaitUse) : Prop where
  waiter : ∀ tid pid, use tid = .pid pid → ∃ t, s.threads tid = some t ∧
    (t.state = .waiting ∨ t.state = .exiting ∨ t.state = .dead) ∧ t.wait = pid ∧
    (0 ≤ pid ∧ pid < s.lastPid) ∧ (t.state = .waiting → t.waitMsg = none)
  waiting : ∀ tid t, s.threads tid = some t → t.state = .waiting → t.waitMsg = none →
    use tid = .pid t.wait
  clean : ∀ tid t, s.threads tid = some t → use tid = .none → t.wait = 0
  gone : ∀ tid, s.threads tid = none → use tid = .none
  count : ∀ pid p, s.processes pid = some p →
    p.waitingThreads = Count.count use s.lastTid (.pid pid)

/-- The record does not change when nothing has been resumed or freed. -/
theorem WaitInv.settle {s : Kernel} {use : Int → WaitUse} (h : WaitInv s use) :
    settle s use = use := by
  funext tid
  unfold GalaxyOS.settle
  cases ht : s.threads tid with
  | none => simp only [h.gone tid ht]
  | some t =>
      cases hu : use tid with
      | none => rfl
      | irq => rfl
      | pid pid =>
          obtain ⟨t', ht', hstate, -⟩ := h.waiter tid pid hu
          obtain rfl : t = t' := Option.some.inj (ht.symm.trans ht')
          have hne : t.state ≠ .running := by
            rcases hstate with hc | hc | hc <;> simp [hc]
          simp only [if_neg hne]

/-! ### Steps that leave the waiters alone -/

/-- What may happen to a thread without a change of what it waits for. -/
inductive Thread.SameWait (t t' : Thread) : Prop
  /-- Its state and what it waits for are the same. -/
  | same : t'.wait = t.wait → t'.state = t.state → t'.waitMsg = t.waitMsg → Thread.SameWait t t'
  /-- It does not wait any more, but a thread that waited, or was about to end, ends. -/
  | ending : t'.wait = t.wait → t'.state ≠ .waiting →
      (t.state = .waiting ∨ t.state = .exiting ∨ t.state = .dead →
        t'.state = .exiting ∨ t'.state = .dead) → Thread.SameWait t t'
  /-- It has waited for a message. -/
  | message : t.state = .waiting → t.waitMsg ≠ none → t'.state = .running →
      (t'.wait = t.wait ∨ t'.wait = 0) → Thread.SameWait t t'

/-- No process gets another count, and no thread waits for something else. -/
structure Kernel.SameWaits (s s' : Kernel) : Prop where
  lastPid : s'.lastPid = s.lastPid
  lastTid : s'.lastTid = s.lastTid
  processes : ∀ pid p', s'.processes pid = some p' →
    ∃ p, s.processes pid = some p ∧ p'.waitingThreads = p.waitingThreads
  threads : ∀ tid, Option.Rel Thread.SameWait (s.threads tid) (s'.threads tid)

theorem WaitInv.same {s s' : Kernel} {use : Int → WaitUse} (h : WaitInv s use)
    (hs : s.SameWaits s') : WaitInv s' use := by
  refine ⟨?_, ?_, ?_, ?_, ?_⟩
  · intro tid pid hu
    obtain ⟨t, ht, hstate, hwait, hrange, hmsg⟩ := h.waiter tid pid hu
    obtain ⟨t', ht', hrel⟩ := rel_some_left (ht ▸ hs.threads tid)
    rw [hs.lastPid]
    refine ⟨t', ht', ?_⟩
    cases hrel with
    | same h1 h2 h3 => exact ⟨h2 ▸ hstate, h1.trans hwait, hrange, by rw [h2, h3]; exact hmsg⟩
    | ending h1 h2 h3 => exact ⟨.inr (h3 hstate), h1.trans hwait, hrange, fun hc => absurd hc h2⟩
    | message h1 h2 h3 h4 => exact absurd (hmsg h1) h2
  · intro tid t' ht' hstate' hmsg'
    obtain ⟨t, ht, hrel⟩ := rel_some_right (ht' ▸ hs.threads tid)
    cases hrel with
    | same h1 h2 h3 => rw [h1]; exact h.waiting tid t ht (h2 ▸ hstate') (h3 ▸ hmsg')
    | ending h1 h2 h3 => exact absurd hstate' h2
    | message h1 h2 h3 h4 => simp [h3] at hstate'
  · intro tid t' ht' hu
    obtain ⟨t, ht, hrel⟩ := rel_some_right (ht' ▸ hs.threads tid)
    have h0 := h.clean tid t ht hu
    cases hrel with
    | same h1 h2 h3 => exact h1.trans h0
    | ending h1 h2 h3 => exact h1.trans h0
    | message h1 h2 h3 h4 => rcases h4 with h4 | h4 <;> omega
  · intro tid ht'
    exact h.gone tid (rel_none_right (ht' ▸ hs.threads tid))
  · intro pid p' hp'
    obtain ⟨p, hp, hcount⟩ := hs.processes pid p' hp'
    rw [hcount, hs.lastTid]
    exact h.count pid p hp

/-! ### Steps that change what one thread waits for -/

/-- The entry of the thread `tid` becomes `v`; the counters follow. -/
theorem WaitInv.set {s s' : Kernel} {use : Int → WaitUse} {tid : Int} {v : WaitUse}
    (h : WaitInv s use) (hrange : 0 ≤ tid ∧ tid < s.lastTid) (hlast : s'.lastPid = s.lastPid)
    (hlastTid : s'.lastTid = s.lastTid) (hother : ∀ i, i ≠ tid → s'.threads i = s.threads i)
    (hwaiter : ∀ pid, v = .pid pid → ∃ t, s'.threads tid = some t ∧
      (t.state = .waiting ∨ t.state = .exiting ∨ t.state = .dead) ∧ t.wait = pid ∧
      (0 ≤ pid ∧ pid < s.lastPid) ∧ (t.state = .waiting → t.waitMsg = none))
    (hself : ∀ t, s'.threads tid = some t →
      (t.state = .waiting → t.waitMsg = none → v = .pid t.wait) ∧ (v = .none → t.wait = 0))
    (hgone : s'.threads tid = none → v = .none)
    (hproc : ∀ pid p', s'.processes pid = some p' → ∃ p, s.processes pid = some p ∧
      p'.waitingThreads + (if use tid = .pid pid then 1 else 0) =
        p.waitingThreads + if v = .pid pid then 1 else 0) :
    WaitInv s' (Function.update use tid v) := by
  refine ⟨?_, ?_, ?_, ?_, ?_⟩
  · intro i pid hu
    by_cases hi : i = tid
    · subst hi
      rw [hlast]
      exact hwaiter pid (by simpa using hu)
    · rw [Function.update_of_ne hi] at hu
      rw [hother i hi, hlast]
      exact h.waiter i pid hu
  · intro i t ht hstate hmsg
    by_cases hi : i = tid
    · subst hi
      rw [Function.update_self]
      exact (hself t ht).1 hstate hmsg
    · rw [hother i hi] at ht
      rw [Function.update_of_ne hi]
      exact h.waiting i t ht hstate hmsg
  · intro i t ht hu
    by_cases hi : i = tid
    · subst hi
      rw [Function.update_self] at hu
      exact (hself t ht).2 hu
    · rw [hother i hi] at ht
      rw [Function.update_of_ne hi] at hu
      exact h.clean i t ht hu
  · intro i ht
    by_cases hi : i = tid
    · subst hi
      rw [Function.update_self]
      exact hgone ht
    · rw [hother i hi] at ht
      rw [Function.update_of_ne hi]
      exact h.gone i ht
  · intro pid p' hp'
    obtain ⟨p, hp, hw⟩ := hproc pid p' hp'
    have hold := h.count pid p hp
    have hupdate := count_update (f := use) (k := .pid pid) hrange v
    rw [hlastTid]
    split_ifs at hw hupdate <;> omega

theorem settle_of_set {s : Kernel} {use : Int → WaitUse} {tid : Int}
    (h : WaitInv s (Function.update use tid .none)) (h0 : GalaxyOS.settle s use tid = .none) :
    GalaxyOS.settle s use = Function.update use tid .none := by
  have hs := h.settle
  funext i
  by_cases hi : i = tid
  · subst hi
    rw [h0, Function.update_self]
  · have hsi := congrFun hs i
    unfold GalaxyOS.settle at hsi ⊢
    rw [Function.update_of_ne hi] at hsi ⊢
    exact hsi

/-! ### The calls -/

theorem Thread.SameWait.refl (t : Thread) : t.SameWait t := .same rfl rfl rfl

theorem sameWaits_threads (s : Kernel) : ∀ tid, Option.Rel Thread.SameWait (s.threads tid)
    (s.threads tid) := fun tid => rel_refl Thread.SameWait.refl (s.threads tid)

theorem sameCounts_refl (ps : Int → Option Process) : ∀ pid p', ps pid = some p' →
    ∃ p, ps pid = some p ∧ p'.waitingThreads = p.waitingThreads := fun _ p h => ⟨p, h, rfl⟩

theorem sameCounts_like {ps ps' : Int → Option Process} (h : LikeTable ps ps') :
    ∀ pid p', ps' pid = some p' →
      ∃ p, ps pid = some p ∧ p'.waitingThreads = p.waitingThreads := fun _ _ hp' => by
  obtain ⟨p, hp, hl⟩ := h.of_some hp'
  exact ⟨p, hp, hl.waitingThreads⟩

theorem Process.reaped_waitingThreads {p p' : Process} (h : p' ∈ p.reaped) :
    p'.waitingThreads = p.waitingThreads ∧ p'.waitingThreads ≠ 0 := by
  unfold Process.reaped Process.dropTids at h
  split_ifs at h with h0 hno
  · simp at h
  · obtain rfl : p = p' := by simpa using h
    exact ⟨rfl, h0⟩
  · obtain rfl : { p with tids := [], tidsSize := 0 } = p' := by simpa using h
    exact ⟨rfl, h0⟩

theorem Kernel.Quiet.sameWaits {s s' : Kernel} (h : s.Quiet s') : s.SameWaits s' := by
  obtain ⟨mem, processes, intfaces, size, next, hl, rfl⟩ := h
  exact ⟨rfl, rfl, sameCounts_like hl, sameWaits_threads s⟩

theorem Kernel.setThread_sameWaits {s : Kernel} {tid : Int} {t t' : Thread}
    (ht : s.threads tid = some t) (h : t.SameWait t') : s.SameWaits (s.setThread tid (some t')) :=
  ⟨rfl, rfl, sameCounts_refl s.processes, rel_update Thread.SameWait.refl ht h⟩

theorem Kernel.endProcess_sameWaits {s : Kernel} {pid : Int} {p : Process}
    (hp : s.processes pid = some p) (exitcode : Int) (mem : Mem) :
    s.SameWaits (s.endProcess pid p exitcode mem) := by
  refine ⟨rfl, rfl, ?_, ?_⟩
  · intro i p' hp'
    by_cases hi : i = pid
    · subst hi
      simp only [Kernel.endProcess, Function.update_self] at hp'
      exact ⟨p, hp, (Process.reaped_waitingThreads hp').1⟩
    · simp only [Kernel.endProcess, Function.update_of_ne hi] at hp'
      exact ⟨p', hp', rfl⟩
  · intro tid
    simp only [Kernel.endProcess, deadThreads]
    split_ifs
    · exact rel_map (fun t => .ending rfl (by simp) fun _ => .inr rfl) (s.threads tid)
    · exact sameWaits_threads s tid

theorem WaitInv.created {s s' : Kernel} {use : Int → WaitUse} (h : WaitInv s use)
    (hc : s.Created s') : WaitInv s' use := by
  obtain ⟨p₀, mem, hfresh, rfl⟩ := hc
  refine ⟨?_, h.waiting, h.clean, h.gone, ?_⟩
  · intro tid pid hu
    obtain ⟨t, ht, hstate, hwait, hrange, hmsg⟩ := h.waiter tid pid hu
    exact ⟨t, ht, hstate, hwait, ⟨hrange.1, by simp only; omega⟩, hmsg⟩
  · intro pid p hp
    by_cases hi : pid = s.lastPid
    · obtain rfl : p₀ = p := by simpa [hi] using hp
      rw [hfresh.waitingThreads, count_eq_zero, Int.natCast_zero]
      intro tid _ _ hu
      obtain ⟨t, -, -, -, hrange, -⟩ := h.waiter tid pid hu
      omega
    · simp only [Function.update_of_ne hi] at hp
      exact h.count pid p hp

theorem WaitInv.spawned {s s' : Kernel} {use : Int → WaitUse} {pid : Int} {noqueue : Bool}
    (hs : Tables s) (h : WaitInv s use) (hc : s.Spawned pid noqueue s') : WaitInv s' use := by
  obtain ⟨-, p₀, t₀, mem, hp₀, hfresh, rfl⟩ := hc
  have hnew := h.gone _ hs.fresh_tid
  have hold : ∀ tid, tid ≠ s.lastTid →
      Function.update s.threads s.lastTid (some t₀) tid = s.threads tid :=
    fun tid htid => Function.update_of_ne htid _ _
  refine ⟨?_, ?_, ?_, ?_, ?_⟩
  · intro tid q hu
    have hne : tid ≠ s.lastTid := by
      rintro rfl
      rw [hnew] at hu
      cases hu
    simp only [hold tid hne]
    exact h.waiter tid q hu
  · intro tid t ht hstate
    by_cases hi : tid = s.lastTid
    · obtain rfl : t₀ = t := by simpa [hi] using ht
      rw [hfresh.state] at hstate
      cases hstate
    · simp only [hold tid hi] at ht
      exact h.waiting tid t ht hstate
  · intro tid t ht hu
    by_cases hi : tid = s.lastTid
    · obtain rfl : t₀ = t := by simpa [hi] using ht
      exact hfresh.wait
    · simp only [hold tid hi] at ht
      exact h.clean tid t ht hu
  · intro tid ht
    by_cases hi : tid = s.lastTid
    · simp [hi] at ht
    · simp only [hold tid hi] at ht
      exact h.gone tid ht
  · intro i p hp
    have hcount : Count.count use (s.lastTid + 1) (.pid i) = Count.count use s.lastTid (.pid i) := by
      rw [count_succ hs.lastTid, hnew]
      simp
    simp only [hcount]
    by_cases hi : i = pid
    · simp only [hi, Function.update_self, Option.some.injEq] at hp ⊢
      subst hp
      exact h.count pid p₀ hp₀
    · simp only [Function.update_of_ne hi] at hp
      exact h.count i p hp

/-- A thread that runs waits for no process. -/
theorem WaitInv.not_waiting {s : Kernel} {use : Int → WaitUse} {tid : Int} {t : Thread}
    (h : WaitInv s use) (ht : s.threads tid = some t) (hrun : t.state = .running) (pid : Int) :
    use tid ≠ .pid pid := by
  intro hu
  obtain ⟨t', ht', hstate, -⟩ := h.waiter tid pid hu
  obtain rfl : t = t' := Option.some.inj (ht.symm.trans ht')
  rcases hstate with hc | hc | hc <;> simp [hrun] at hc

theorem WaitInv.waited {s : Kernel} {use : Int → WaitUse} {pid : Int} {t : Thread} {p : Process}
    (hs : Tables s) (h : WaitInv s use) (hrange : 0 ≤ pid ∧ pid < s.lastPid)
    (hp : s.processes pid = some p) (ht : s.threads s.currenttid = some t)
    (hrun : t.state = .running) :
    WaitInv (s.waited pid t p) (Function.update use s.currenttid (.pid pid)) := by
  have hthread : (s.waited pid t p).threads s.currenttid =
      some { t with wait := pid, waitMsg := none, state := .waiting } := Function.update_self ..
  refine h.set (hs.tid _ t ht).1 rfl rfl (fun i hi => Function.update_of_ne hi _ _) ?_ ?_ ?_ ?_
  · intro q hq
    cases hq
    exact ⟨_, hthread, .inl rfl, rfl, hrange, fun _ => rfl⟩
  · intro t' ht'
    obtain rfl := Option.some.inj (hthread.symm.trans ht')
    exact ⟨fun _ _ => rfl, fun hc => by cases hc⟩
  · intro hc
    rw [hthread] at hc
    cases hc
  · intro i p' hp'
    rw [if_neg (h.not_waiting ht hrun i)]
    by_cases hi : i = pid
    · simp only [Kernel.waited, hi, Function.update_self, Option.some.injEq] at hp'
      subst hp'
      exact ⟨p, hi ▸ hp, by simp [hi]⟩
    · simp only [Kernel.waited, Function.update_of_ne hi] at hp'
      refine ⟨p', hp', ?_⟩
      rw [if_neg (fun hc => hi (by cases hc; rfl))]

/-- A running thread is put to sleep for something else than a process. -/
theorem WaitInv.slept {s : Kernel} {use : Int → WaitUse} {tid : Int} {t t' : Thread} {v : WaitUse}
    (hs : Tables s) (h : WaitInv s use) (ht : s.threads tid = some t) (hrun : t.state = .running)
    (hv : ∀ pid, v ≠ .pid pid) (hself : t'.state = .waiting → t'.waitMsg ≠ none)
    (hclean : v = .none → t'.wait = 0) :
    WaitInv (s.setThread tid (some t')) (Function.update use tid v) := by
  have hthread : (s.setThread tid (some t')).threads tid = some t' := Function.update_self ..
  refine h.set (hs.tid _ t ht).1 rfl rfl (fun i hi => Function.update_of_ne hi _ _) ?_ ?_ ?_ ?_
  · exact fun pid hc => absurd hc (hv pid)
  · intro t'' ht''
    obtain rfl := Option.some.inj (hthread.symm.trans ht'')
    exact ⟨fun hw hm => absurd hm (hself hw), hclean⟩
  · intro hc
    rw [hthread] at hc
    cases hc
  · intro i p hp
    exact ⟨p, hp, by rw [if_neg (h.not_waiting ht hrun i), if_neg (hv i)]⟩

/-! ### Rounds of the scheduler -/

theorem WaitInv.stale {s : Kernel} {use : Int → WaitUse} {tid : Int} {t : Thread} (hs : Tables s)
    (h : WaitInv s use) (ht : s.threads tid = some t) (hstate : t.state = .waiting)
    (hmsg : t.waitMsg = none)
    (hgone : t.wait < 0 ∨ t.wait ≥ s.lastPid ∨ s.processes t.wait = none) :
    WaitInv (s.setThread tid (some { t with wait := 0, state := .running }))
      (Function.update use tid .none) := by
  have hthread : (s.setThread tid (some { t with wait := 0, state := .running })).threads tid =
      some { t with wait := 0, state := .running } := Function.update_self ..
  refine h.set (hs.tid _ t ht).1 rfl rfl (fun i hi => Function.update_of_ne hi _ _) ?_ ?_ ?_ ?_
  · exact fun pid hc => by cases hc
  · intro t'' ht''
    obtain rfl := Option.some.inj (hthread.symm.trans ht'')
    exact ⟨fun hw _ => (by cases hw), fun _ => rfl⟩
  · exact fun _ => rfl
  · intro i p hp
    have hne : use tid ≠ .pid i := by
      rw [h.waiting tid t ht hstate hmsg]
      intro hc
      obtain rfl : t.wait = i := by cases hc; rfl
      have hrange := (hs.pid _ p hp).2
      rcases hgone with hg | hg | hg
      · omega
      · omega
      · rw [Kernel.setThread_processes, hg] at hp
        cases hp
    exact ⟨p, hp, by rw [if_neg hne, if_neg (fun hc => by cases hc)]⟩

theorem WaitInv.resumed {s : Kernel} {use : Int → WaitUse} {tid : Int} {t : Thread} {p : Process}
    (h : WaitInv s use) (mem : Mem) (frame : Regs) (hs : Tables s) (ht : s.threads tid = some t)
    (hstate : t.state = .waiting) (hmsg : t.waitMsg = none) (hp : s.processes t.wait = some p) :
    WaitInv (s.resumed tid t p mem frame) (Function.update use tid .none) := by
  have hthread : (s.resumed tid t p mem frame).threads tid =
      some { t with wait := 0, state := .running, frame := frame } := Function.update_self ..
  refine h.set (hs.tid _ t ht).1 rfl rfl (fun i hi => Function.update_of_ne hi _ _) ?_ ?_ ?_ ?_
  · exact fun pid hc => by cases hc
  · intro t'' ht''
    obtain rfl := Option.some.inj (hthread.symm.trans ht'')
    exact ⟨fun hw _ => (by cases hw), fun _ => rfl⟩
  · exact fun _ => rfl
  · intro i p' hp'
    rw [h.waiting tid t ht hstate hmsg]
    by_cases hi : i = t.wait
    · simp only [Kernel.resumed, hi, Function.update_self] at hp'
      refine ⟨p, hi ▸ hp, ?_⟩
      rw [(Process.reaped_waitingThreads hp').1]
      simp [hi]
    · simp only [Kernel.resumed, Function.update_of_ne hi] at hp'
      exact ⟨p', hp', by simp [Ne.symm hi]⟩

theorem WaitInv.freed {s : Kernel} {use : Int → WaitUse} {tid : Int} {t : Thread} (hs : Tables s)
    (h : WaitInv s use) (ht : s.threads tid = some t) (hirq : use tid ≠ .irq)
    (hzero : use tid ≠ .pid 0) : WaitInv (s.freed tid t) (Function.update use tid .none) := by
  have hthread : (s.freed tid t).threads tid = none := Function.update_self ..
  refine h.set (hs.tid _ t ht).1 rfl rfl (fun i hi => Function.update_of_ne hi _ _) ?_ ?_ ?_ ?_
  · exact fun pid hc => by cases hc
  · intro t'' ht''
    rw [hthread] at ht''
    cases ht''
  · exact fun _ => rfl
  · intro i p' hp'
    simp only [Kernel.freed, droppedWaiter] at hp'
    cases hu : use tid with
    | irq => exact absurd hu hirq
    | none =>
        rw [h.clean tid t ht hu, if_pos rfl] at hp'
        exact ⟨p', hp', by simp⟩
    | pid q =>
        obtain ⟨t', ht', -, hwait, -⟩ := h.waiter tid q hu
        obtain rfl : t = t' := Option.some.inj (ht.symm.trans ht')
        have h0 : t.wait ≠ 0 := fun hc => hzero (by rw [hu, ← hwait, hc])
        rw [if_neg h0] at hp'
        by_cases hi : i = t.wait
        · subst hi
          rw [Function.update_self] at hp'
          obtain ⟨p, hp, rfl⟩ := Option.map_eq_some_iff.mp hp'
          exact ⟨p, hp, by simp [hwait]⟩
        · rw [Function.update_of_ne hi] at hp'
          refine ⟨p', hp', ?_⟩
          rw [if_neg (fun hc => hi (by cases hc; exact hwait.symm)), if_neg (fun hc => by cases hc)]

theorem settle_running {s : Kernel} {use : Int → WaitUse} {tid : Int} {t : Thread}
    (ht : s.threads tid = some t) (hrun : t.state = .running) (hirq : use tid ≠ .irq) :
    GalaxyOS.settle s use tid = .none := by
  unfold GalaxyOS.settle
  rw [ht]
  cases hu : use tid with
  | none => rfl
  | irq => exact absurd hu hirq
  | pid q => simp only [if_pos hrun]

theorem settle_gone {s : Kernel} {tid : Int} (use : Int → WaitUse) (ht : s.threads tid = none) :
    GalaxyOS.settle s use tid = .none := by
  unfold GalaxyOS.settle
  rw [ht]

/-- What a round does to the record: a thread that is resumed or freed is struck off. -/
theorem WaitInv.round_effect {s s₂ : Kernel} {use : Int → WaitUse} {tid : Int} {t : Thread}
    (h : WaitInv s use) (hs : Tables s) (ht : s.threads tid = some t) (heff : PickEffect s tid t s₂)
    (hclean : t.state = .dead → use tid ≠ .irq ∧ use tid ≠ .pid 0) :
    WaitInv s₂ (GalaxyOS.settle s₂ use) := by
  have hsame : ∀ {s₂ : Kernel}, s.SameWaits s₂ → WaitInv s₂ (GalaxyOS.settle s₂ use) := by
    intro s₂ hw
    rw [(h.same hw).settle]
    exact h.same hw
  have hresumed : t.state = .waiting → t.waitMsg = none → use tid ≠ .irq := by
    intro hstate hmsg hc
    rw [h.waiting tid t ht hstate hmsg] at hc
    cases hc
  cases heff with
  | select mem hstate => exact hsame ⟨rfl, rfl, sameCounts_refl s.processes, sameWaits_threads s⟩
  | skip => exact hsame ⟨rfl, rfl, sameCounts_refl s.processes, sameWaits_threads s⟩
  | message addr hstate hmsg =>
      exact hsame (Kernel.setThread_sameWaits ht (.message hstate (by simp [hmsg]) rfl (.inl rfl)))
  | stale hstate hmsg hw =>
      have hset := h.stale hs ht hstate hmsg hw
      rw [settle_of_set hset
        (settle_running (Function.update_self ..) rfl (hresumed hstate hmsg))]
      exact hset
  | resume p mem frame hstate hmsg hrange hp hno =>
      have hset := h.resumed mem frame hs ht hstate hmsg hp
      rw [settle_of_set hset
        (settle_running (Function.update_self ..) rfl (hresumed hstate hmsg))]
      exact hset
  | start hstate =>
      exact hsame (Kernel.setThread_sameWaits ht (.ending rfl (by simp) (by simp [hstate])))
  | load p p' t' mem kmode hstate hp hl hl' =>
      refine hsame ⟨rfl, rfl, sameCounts_like (.update hp hl), ?_⟩
      refine rel_update Thread.SameWait.refl ht ?_
      rcases hl' with rfl | ⟨frame, rfl⟩
      · exact .refl _
      · exact .ending rfl (by simp) (by simp [hstate])
  | exit hstate =>
      exact hsame (Kernel.setThread_sameWaits ht (.ending rfl (by simp) fun _ => .inr rfl))
  | dead hstate hw hq =>
      have hset := h.freed hs ht (hclean hstate).1 (hclean hstate).2
      rw [settle_of_set hset (settle_gone use (Function.update_self ..))]
      exact hset

/-- A thread that runs or has been freed stays so in a round. -/
theorem PickEffect.settled {s s₂ : Kernel} {tid : Int} {t : Thread} (ht : s.threads tid = some t)
    (heff : PickEffect s tid t s₂) (use : Int → WaitUse) :
    GalaxyOS.settle s₂ (GalaxyOS.settle s use) = GalaxyOS.settle s₂ use := by
  funext i
  by_cases hi : i = tid
  · subst hi
    unfold GalaxyOS.settle
    rw [ht]
    cases hu : use i with
    | none => rfl
    | irq => rfl
    | pid q =>
        by_cases hrun : t.state = .running
        · simp only [(heff.selected hrun).2, ht, if_pos hrun]
        · simp only [if_neg hrun]
  · unfold GalaxyOS.settle
    rw [heff.other hi]
    cases s.threads i with
    | none => rfl
    | some t' =>
        cases use i with
        | none => rfl
        | irq => rfl
        | pid q => by_cases hrun : t'.state = .running <;> simp [hrun]

/-! ### Runs -/

theorem settle_of_not_running {s : Kernel} {tid : Int} {t : Thread} (use : Int → WaitUse)
    (ht : s.threads tid = some t) (hrun : t.state ≠ .running) :
    GalaxyOS.settle s use tid = use tid := by
  unfold GalaxyOS.settle
  rw [ht]
  cases use tid with
  | none => rfl
  | irq => rfl
  | pid q => simp only [if_neg hrun]

/-- The invariant of the rounds; `use` is the record before the call. -/
def RoundInv (use : Int → WaitUse) (s : Kernel) : Prop :=
  Tables s ∧ WaitInv s (GalaxyOS.settle s use)

theorem RoundInv.start {s : Kernel} {use : Int → WaitUse} (hs : Tables s) (h : WaitInv s use) :
    RoundInv use { s with currenttid := -1 } := by
  refine ⟨hs.keeps ⟨rfl, rfl, .refl s.processes, .refl s.threads⟩, ?_⟩
  have hsame : WaitInv { s with currenttid := -1 } use :=
    h.same ⟨rfl, rfl, sameCounts_refl s.processes, sameWaits_threads s⟩
  rw [hsame.settle]
  exact hsame

theorem RoundInv.round {use : Int → WaitUse} {s s₂ : Kernel} {loop : Bool} (h : RoundInv use s)
    (hclean : RemovalClean use (s, loop))
    (hd : pickDispatch (pickFetch s loop).2.1 (pickFetch s loop).1 = .ok s₂) : RoundInv use s₂ := by
  obtain ⟨hs, hinv⟩ := h
  refine ⟨hs.round hd, ?_⟩
  obtain ⟨t, ht, -, heff⟩ := pickDispatch_ok hd
  have hs₁ := hs.keeps (pickFetch_keeps s loop)
  obtain ⟨l, hl⟩ := pickFetch_eq s loop
  rw [hl] at ht heff hs₁
  have hmoved : WaitInv { s with queueLoc := l } (GalaxyOS.settle { s with queueLoc := l } use) :=
    hinv.same ⟨rfl, rfl, sameCounts_refl s.processes, sameWaits_threads s⟩
  rw [← heff.settled ht use]
  refine hmoved.round_effect hs₁ ht heff fun hdead => ?_
  rw [settle_of_not_running use ht (by simp [hdead])]
  exact hclean t ht hdead

theorem RoundInv.removal {use : Int → WaitUse} {s : Kernel} {loop : Bool} (h : RoundInv use s)
    (hclean : RemovalClean use (s, loop)) : RemovalRight use (s, loop) := by
  intro t ht hdead hwait
  obtain ⟨hirq, hzero⟩ := hclean t ht hdead
  have hsettle := settle_of_not_running use ht (by simp [hdead])
  cases hu : use (pickFetch s loop).1 with
  | irq => exact absurd hu hirq
  | none => exact absurd (h.2.clean _ t ht (hsettle.trans hu)) hwait
  | pid q =>
      obtain ⟨t', ht', -, hq, hrange, -⟩ := h.2.waiter _ q (hsettle.trans hu)
      obtain rfl : t = t' := Option.some.inj (ht.symm.trans ht')
      rw [hq]
      exact ⟨rfl, hrange⟩

theorem WaitInv.removals {s : Kernel} {use : Int → WaitUse} {c : Call} (hs : Tables s)
    (h : WaitInv s use) (hclean : c.RemovalsClean s use) : c.RemovalsRight s use :=
  Call.Rounds.of_invariant (RoundInv.start hs h) (fun _ _ _ hI hC hd => hI.round hC hd)
    (fun _ _ hI hC => hI.removal hC) hclean

/-- The invariant after a call that has not changed what any thread waits for. -/
theorem WaitInv.unnoted {s : Kernel} {use : Int → WaitUse} (h : WaitInv s use) :
    WaitInv s (GalaxyOS.settle s use) := by
  rw [h.settle]
  exact h

theorem WaitInv.exec {s s' : Kernel} {use : Int → WaitUse} {c : Call} {r : Int} (hs : Tables s)
    (hinv : WaitInv s use) (hrun : c.OnRunning s) (hclean : c.RemovalsClean s use)
    (h : exec s c = .ok (r, s')) : WaitInv s' (GalaxyOS.settle s' (c.noteWait r s use)) := by
  cases c with
  | createProcess privilege name => exact (hinv.created (schedCreateProcess_ok h).2).unnoted
  | createThread ownerpid noqueue entrypoint =>
      exact (hinv.spawned hs (schedCreateThread_ok h).2).unnoted
  | forkThread tid regs =>
      rcases schedForkThread_ok h with ⟨rfl, -⟩ | ⟨-, pid, hspawn⟩
      · exact hinv.unnoted
      · exact (hinv.spawned hs hspawn).unnoted
  | loadProcess q =>
      rcases ploadCreateProcess_ok h with rfl | ⟨s₁, hcreate, hspawn⟩
      · exact hinv.unnoted
      · exact ((hinv.created hcreate).spawned (hs.created hcreate) hspawn).unnoted
  | exitThread =>
      obtain ⟨t, ht, rfl⟩ := schedExitThread_ok (noResult_ok h)
      refine WaitInv.unnoted (hinv.same (Kernel.setThread_sameWaits ht ?_))
      exact .ending rfl (by simp) fun _ => .inl rfl
  | exitProcess exitcode =>
      obtain ⟨pid, p, mem, hp, rfl⟩ := schedExitProcess_ok hs h
      exact (hinv.same (Kernel.endProcess_sameWaits hp exitcode mem)).unnoted
  | killProcess pid =>
      rcases schedKillProcess_ok h with rfl | ⟨p, exitcode, mem, hp, rfl⟩
      · exact hinv.unnoted
      · exact (hinv.same (Kernel.endProcess_sameWaits hp exitcode mem)).unnoted
  | suspendThread irq tid =>
      obtain ⟨t, ht, rfl⟩ := schedSuspendThread_ok (noResult_ok h)
      refine (hinv.slept hs ht (hrun _ rfl t ht) ?_ (by simp) ?_).unnoted
      · intro pid
        split_ifs <;> simp
      · intro hv
        split_ifs at hv with h0
        rw [h0]
        rfl
  | checkSuspended irq =>
      obtain rfl : schedCheckSuspendedThreads s irq = s' := (exec_pair h).2
      refine WaitInv.unnoted (hinv.same ⟨rfl, rfl, sameCounts_refl s.processes, fun tid => ?_⟩)
      refine rel_map (fun t => ?_) (s.threads tid)
      unfold Thread.wake
      split_ifs with hw
      · exact .ending rfl (by simp) (by simp [hw.1])
      · exact .refl t
  | waitProcess pid =>
      rcases schedWaitProcess_ok h with ⟨rfl, hr⟩ | ⟨rfl, t, p, hrange, hp, ht, rfl⟩
      · simp only [Call.noteWait, if_neg (Int.ne_of_lt hr)]
        exact hinv.unnoted
      · exact (hinv.waited hs hrange hp ht (hrun _ rfl t ht)).unnoted
  | pickNext =>
      exact (schedPickNext_inv (RoundInv.start hs hinv) (fun _ _ _ hI hC hd => hI.round hC hd)
        hclean (noResult_ok h)).2
  | interfaceDelete name pid =>
      obtain rfl := (exec_pair h).2
      rcases interfaceDelete_eq s name pid with hd | ⟨addr, intfaces, hd⟩
      · rw [hd]
        exact hinv.unnoted
      · rw [hd]
        refine WaitInv.unnoted (hinv.same ⟨rfl, rfl, sameCounts_refl s.processes, fun tid => ?_⟩)
        refine rel_map (fun t => ?_) (s.threads tid)
        unfold Thread.unwait
        split_ifs with hw
        · exact .message hw.1 (by simp [hw.2]) rfl (.inr rfl)
        · exact .refl t
  | interfaceWait name tid =>
      rcases interfaceWait_ok h with ⟨rfl, hr⟩ | ⟨rfl, t, addr, ht, rfl⟩
      · simp only [Call.noteWait, if_neg (Int.ne_of_lt hr)]
        exact hinv.unnoted
      · exact (hinv.slept hs ht (hrun _ rfl t ht) (by simp) (by simp) (by simp)).unnoted
  | _ => exact (hinv.same (exec_quiet hs rfl h).sameWaits).unnoted

theorem WaitInv.started {s : Kernel} (h : Started s) : WaitInv s fun _ => .none := by
  obtain ⟨mem, eflags, idleLoop, h⟩ := h
  simp only [schedInit, bind_ok, Prod.exists, Except.ok.injEq] at h
  obtain ⟨pid, s₁, hcreate, tid, s₂, hthread, rfl⟩ := h
  have h0 := Tables.boot mem eflags
  have hw0 : WaitInv (Kernel.boot mem eflags) fun _ => .none :=
    ⟨fun _ _ h => by simp at h, fun _ _ h => by simp [Kernel.boot] at h,
      fun _ _ h => by simp [Kernel.boot] at h, fun _ _ => rfl,
      fun _ _ h => by simp [Kernel.boot] at h⟩
  have hcreate := (schedCreateProcess_ok hcreate).2
  have h2 := (hw0.created hcreate).spawned (h0.created hcreate) (schedCreateThread_ok hthread).2
  exact h2.same ⟨rfl, rfl, sameCounts_refl s₂.processes, sameWaits_threads s₂⟩

/-- What the callers of a call promise, and that its removals are clean. -/
def Call.WaitsClean (st : WaitState) (c : Call) : Prop :=
  c.OnRunning st.kernel ∧ c.RemovalsClean st.kernel st.use

instance : DecidableRel fun (st : WaitState) (c : Call) => c.OnRunning st.kernel :=
  fun st c => inferInstanceAs (Decidable (c.OnRunning st.kernel))

instance : DecidableRel fun (st : WaitState) (c : Call) => c.WaitsClean st := fun st c =>
  have : Decidable (c.RemovalsClean st.kernel st.use) := Call.Rounds.decidable st.kernel c
  inferInstanceAs (Decidable (_ ∧ _))

theorem WaitInv.reach {st : WaitState} (h : Reach WaitStep (fun st c => c.WaitsClean st) WaitStart st) :
    Tables st.kernel ∧ WaitInv st.kernel st.use := by
  refine h.invariant (I := fun st => Tables st.kernel ∧ WaitInv st.kernel st.use) ?_ ?_
  · rintro ⟨s, use⟩ ⟨hst, rfl⟩
    exact ⟨.started hst, .started hst⟩
  · rintro st c st' ⟨hs, hinv⟩ ⟨hrun, hclean⟩ hstep
    obtain ⟨r, s', hexec, rfl⟩ := hstep.exists_exec
    exact ⟨hs.exec hexec, hinv.exec hs hrun hclean hexec⟩

theorem WaitStep.tables {ok : WaitState → Call → Prop} {st : WaitState}
    (h : Reach WaitStep ok WaitStart st) : Tables st.kernel := by
  refine h.invariant (I := fun st => Tables st.kernel) (fun _ hst => .started hst.1) ?_
  intro st c st' hs _ hstep
  obtain ⟨r, s', hexec, rfl⟩ := hstep.exists_exec
  exact hs.exec hexec

/-- **Waiter accounting**: as long as the removals are clean, every counter is exact, and so is
every removal of the next call, even of one that fails. -/
theorem waiters_exact {st : WaitState} (h : Reach WaitStep (fun st c => c.WaitsClean st) WaitStart st) :
    WaitersExact st ∧ ∀ c : Call, c.RemovalsClean st.kernel st.use →
      c.RemovalsRight st.kernel st.use := by
  obtain ⟨hs, hinv⟩ := WaitInv.reach h
  exact ⟨hinv.count, fun _ hclean => hinv.removals hs hclean⟩

/-- The record before the first call. -/
def WaitState.start (s : Kernel) : WaitState := ⟨s, fun _ => .none⟩

theorem WaitState.bootRuns_reach {ok : WaitState → Call → Prop} {P : WaitState → Prop}
    {cs : List Call} (h : BootRuns WaitState.start WaitState.exec ok P cs) :
    ∃ st, Reach WaitStep ok WaitStart st ∧ P st :=
  h.reach (fun _ _ _ h => h) fun _ hs => ⟨hs, rfl⟩

/-- Thread 2 waits for process 1. -/
theorem waiters_exact_waiting : ∃ st : WaitState, st.use 2 = .pid 1 ∧ WaitersExact st := by
  have hrun : BootRuns WaitState.start WaitState.exec
      (fun st c => c.WaitsClean st) (fun st => st.use 2 = .pid 1)
      [.createProcess 0 [], .createThread 1 false 0, .createProcess 0 [],
        .createThread 2 false 0, .pickNext, .pickNext, .waitProcess 1, .pickNext] := by decide
  obtain ⟨st, hst, huse⟩ := WaitState.bootRuns_reach hrun
  exact ⟨st, huse, (waiters_exact hst).1⟩

/-- Thread 2 has been suspended for IRQ 1 and dies later: process 1 has lost a waiter that it never
had. -/
theorem waiters_negative : ∃ st, Reach WaitStep (fun st c => c.OnRunning st.kernel) WaitStart st ∧
    ¬WaitersExact st := by
  have hrun : BootRuns WaitState.start WaitState.exec
      (fun st c => c.OnRunning st.kernel)
      (fun st => ∃ p ∈ st.kernel.processes 1, p.waitingThreads = -1)
      [.createProcess 0 [], .createThread 1 false 0, .createProcess 0 [],
        .createThread 2 false 0, .pickNext, .pickNext, .suspendThread 1 2, .pickNext,
        .checkSuspended 1, .pickNext, .exitProcess 0, .pickNext, .pickNext] := by decide
  obtain ⟨st, hst, p, hp, hneg⟩ := WaitState.bootRuns_reach hrun
  refine ⟨st, hst, fun hexact => ?_⟩
  have hcount := hexact 1 p hp
  omega

end GalaxyOS
