import GalaxyOS.Sched.Waiters

/-! # Exited processes are released

A process that has exited keeps its slot until the last thread that waits for it is gone.  A waiter
that is resumed runs the reaper again; one that dies before it is resumed only lowers the counter.
When it was the last one, nothing ever looks at the process again.

In a run whose removals are clean and never take the last waiter of an exited process, every slot
of an exited process has a waiter, and `processes_count` is the number of slots in use.

`exited_released` says so of every state of such a run, from `SlotsInv.put` for one slot and
`SlotsInv.freed` for the round that removes a thread; `exited_zombie` is a run that leaves a zombie. -/

namespace GalaxyOS

open Transition Count

/-- Which slots of the process table are in use. -/
def occupied (ps : Int → Option Process) : Int → Bool := fun pid => (ps pid).isSome

/-- Every slot of an exited process without threads has a waiter that has not been freed, and the
slots in use are counted. -/
structure NoZombies (st : WaitState) : Prop where
  awaited : ∀ pid p, st.kernel.processes pid = some p → p.state = .exiting → p.threadcount = 0 →
    ∃ tid, st.kernel.threads tid ≠ none ∧ st.use tid = .pid pid
  processesCount : st.kernel.processesCount =
    count (occupied st.kernel.processes) st.kernel.lastPid true

/-- If the round frees a dead thread that waits for an exited process, then it is not the last
one to do so. -/
def RemovalReleases (use : Int → WaitUse) (st : Kernel × Bool) : Prop :=
  RemovalClean use st ∧ ∀ t, st.1.threads (pickFetch st.1 st.2).1 = some t → t.state = .dead →
    ∀ p, st.1.processes t.wait = some p → use (pickFetch st.1 st.2).1 = .pid t.wait →
      p.state = .exiting → p.threadcount = 0 → p.waitingThreads ≠ 1

instance (use : Int → WaitUse) (st : Kernel × Bool) : Decidable (RemovalReleases use st) := by
  unfold RemovalReleases
  infer_instance

/-- What the callers of a call promise, and that its removals are clean and leave no process
without a waiter. -/
def Call.ReleasesClean (st : WaitState) (c : Call) : Prop :=
  c.OnRunning st.kernel ∧ c.Rounds (RemovalReleases st.use) st.kernel

instance : DecidableRel fun (st : WaitState) (c : Call) => c.ReleasesClean st := fun st c =>
  have : Decidable (c.Rounds (RemovalReleases st.use) st.kernel) :=
    Call.Rounds.decidable st.kernel c
  inferInstanceAs (Decidable (_ ∧ _))

/-! ### The invariant -/

/-- An exited process without threads has a waiter. -/
def Process.Awaited (p : Process) : Prop :=
  p.state = .exiting → p.tids = [] → p.waitingThreads ≠ 0

structure SlotsInv (s : Kernel) : Prop where
  awaited : ∀ pid p, s.processes pid = some p → p.Awaited
  count : s.processesCount = Count.count (occupied s.processes) s.lastPid true

theorem SlotsInv.noZombies {st : WaitState} (h : SlotsInv st.kernel)
    (hinv : WaitInv st.kernel st.use) : NoZombies st := by
  refine ⟨fun pid p hp hstate hno => ?_, h.count⟩
  have hwait : p.waitingThreads ≠ 0 := h.awaited pid p hp hstate (List.length_eq_zero_iff.mp hno)
  have hcount := hinv.count pid p hp
  obtain ⟨tid, -, huse⟩ := count_pos.mp 
    (show 0 < Count.count st.use st.kernel.lastTid (.pid pid) by omega)
  obtain ⟨t, ht, -⟩ := hinv.waiter tid pid huse
  exact ⟨tid, by simp [ht], huse⟩

theorem Process.Like.awaited {p p' : Process} (h : p.Like p') (hp : p.Awaited) : p'.Awaited := by
  intro hstate hno
  rw [h.waitingThreads]
  exact hp (h.exiting.mp hstate) (h.tids ▸ hno)

theorem Process.reaped_awaited {p p' : Process} (h : p' ∈ p.reaped) : p'.Awaited :=
  fun _ _ => (Process.reaped_waitingThreads h).2

theorem Process.reaped_isSome (p : Process) : p.reaped.isSome = decide (p.waitingThreads ≠ 0) := by
  unfold Process.reaped
  split_ifs with h0 <;> simp [h0]

theorem occupied_like {ps ps' : Int → Option Process} (h : LikeTable ps ps') :
    occupied ps' = occupied ps := by
  funext pid
  have hnone : ps' pid = none ↔ ps pid = none := h.eq_none
  unfold occupied
  cases hp : ps pid <;> cases hp' : ps' pid <;> simp_all

theorem occupied_update (ps : Int → Option Process) (pid : Int) (o : Option Process) :
    occupied (Function.update ps pid o) = Function.update (occupied ps) pid o.isSome := by
  funext i
  by_cases hi : i = pid
  · subst hi
    simp [occupied]
  · simp [occupied, hi]

theorem SlotsInv.like {s s' : Kernel} (h : SlotsInv s) (hl : LikeTable s.processes s'.processes)
    (hlast : s'.lastPid = s.lastPid) (hcount : s'.processesCount = s.processesCount) :
    SlotsInv s' := by
  constructor
  · intro pid p' hp'
    obtain ⟨p, hp, hlike⟩ := hl.of_some hp'
    exact hlike.awaited (h.awaited pid p hp)
  · rw [hcount, hlast, occupied_like hl]
    exact h.count

/-- One slot in use is stored to; if it is emptied, the process is counted out. -/
theorem SlotsInv.put {s s' : Kernel} {pid : Int} {p : Process} {o : Option Process} (h : SlotsInv s)
    (hs : Tables s) (hp : s.processes pid = some p)
    (hproc : s'.processes = Function.update s.processes pid o) (ho : ∀ p' ∈ o, p'.Awaited)
    (hlast : s'.lastPid = s.lastPid)
    (hcount : s'.processesCount = if o.isSome then s.processesCount else s.processesCount - 1) :
    SlotsInv s' := by
  constructor
  · intro i p' hp'
    rw [hproc] at hp'
    by_cases hi : i = pid
    · subst hi
      rw [Function.update_self] at hp'
      exact ho p' hp'
    · rw [Function.update_of_ne hi] at hp'
      exact h.awaited i p' hp'
  · have hupdate := count_update (f := occupied s.processes) (k := true) (hs.pid pid p hp).2 o.isSome
    have hocc : occupied s.processes pid = true := by simp [occupied, hp]
    have hold := h.count
    rw [hcount, hlast, hproc, occupied_update]
    rw [if_pos hocc] at hupdate
    split_ifs at hupdate ⊢ <;> omega

theorem SlotsInv.created {s s' : Kernel} (h : SlotsInv s) (hs : Tables s) (hc : s.Created s') :
    SlotsInv s' := by
  obtain ⟨p, mem, hfresh, rfl⟩ := hc
  constructor
  · intro pid p' hp'
    by_cases hi : pid = s.lastPid
    · subst hi
      obtain rfl : p = p' := by simpa using hp'
      intro hstate
      rw [hfresh.state] at hstate
      cases hstate
    · simp only [Function.update_of_ne hi] at hp'
      exact h.awaited pid p' hp'
  · have hsame : Count.count (occupied (Function.update s.processes s.lastPid (some p))) s.lastPid
        true = Count.count (occupied s.processes) s.lastPid true := by
      refine count_congr fun i _ hlt => ?_
      rw [occupied_update, Function.update_of_ne (Int.ne_of_lt hlt)]
    simp only
    rw [count_succ hs.lastPid, hsame, h.count]
    simp [occupied]

theorem SlotsInv.spawned {s s' : Kernel} {pid : Int} {noqueue : Bool} (h : SlotsInv s)
    (hs : Tables s) (hc : s.Spawned pid noqueue s') : SlotsInv s' := by
  obtain ⟨-, p, t, mem, hp, -, rfl⟩ := hc
  refine h.put hs hp rfl ?_ rfl rfl
  intro p' hp' _ hno
  simp only [Option.mem_some_iff] at hp'
  subst hp'
  simp at hno

theorem SlotsInv.ended {s : Kernel} {pid : Int} {p : Process} (h : SlotsInv s) (hs : Tables s)
    (hp : s.processes pid = some p) (exitcode : Int) (mem : Mem) :
    SlotsInv (s.endProcess pid p exitcode mem) := by
  refine h.put hs hp rfl (fun _ => Process.reaped_awaited) rfl ?_
  simp only [Kernel.endProcess, Process.reaped_isSome, Process.markExiting]
  by_cases h0 : p.waitingThreads = 0 <;> simp [h0]

theorem SlotsInv.waited {s : Kernel} {use : Int → WaitUse} {pid : Int} {t : Thread} {p : Process}
    (h : SlotsInv s) (hs : Tables s) (hinv : WaitInv s use) (hp : s.processes pid = some p) :
    SlotsInv (s.waited pid t p) := by
  refine h.put hs hp rfl ?_ rfl rfl
  intro p' hp' _ _
  have hcount := hinv.count pid p hp
  simp only [Option.mem_some_iff] at hp'
  subst hp'
  simp only
  omega

theorem SlotsInv.resumed {s : Kernel} {tid : Int} {t : Thread} {p : Process} (h : SlotsInv s)
    (hs : Tables s) (hp : s.processes t.wait = some p) (mem : Mem) (frame : Regs) :
    SlotsInv (s.resumed tid t p mem frame) := by
  refine h.put hs hp rfl (fun _ => Process.reaped_awaited) rfl ?_
  simp only [Kernel.resumed, Process.reaped_isSome]
  by_cases h0 : p.waitingThreads - 1 = 0 <;> simp [h0]

theorem SlotsInv.freed {s : Kernel} {tid : Int} {t : Thread} (h : SlotsInv s) (hs : Tables s)
    (hlast : t.wait ≠ 0 → ∀ p, s.processes t.wait = some p → p.state = .exiting →
      p.threadcount = 0 → p.waitingThreads ≠ 1) : SlotsInv (s.freed tid t) := by
  by_cases h0 : t.wait = 0
  · have hsame : (s.freed tid t).processes = s.processes := by
      simp only [Kernel.freed, droppedWaiter, if_pos h0]
    exact h.like (hsame ▸ .refl s.processes) rfl rfl
  · cases hp : s.processes t.wait with
    | none =>
        have hsame : (s.freed tid t).processes = s.processes := by
          simp only [Kernel.freed, droppedWaiter, if_neg h0, hp, Option.map_none]
          exact Function.update_eq_self_iff.mpr hp.symm
        exact h.like (hsame ▸ .refl s.processes) rfl rfl
    | some p =>
        refine h.put (o := some { p with waitingThreads := p.waitingThreads - 1 }) hs hp ?_ ?_ rfl rfl
        · simp only [Kernel.freed, droppedWaiter, if_neg h0, hp, Option.map_some]
        · intro p' hp' hstate hno
          simp only [Option.mem_some_iff] at hp'
          subst hp'
          have hne := hlast h0 p hp hstate (List.length_eq_zero_iff.mpr hno)
          simp only
          omega

/-! ### Rounds and calls -/

theorem SlotsInv.round {use : Int → WaitUse} {s s₂ : Kernel} {loop : Bool} (h : SlotsInv s)
    (hround : RoundInv use s) (hok : RemovalReleases use (s, loop))
    (hd : pickDispatch (pickFetch s loop).2.1 (pickFetch s loop).1 = .ok s₂) : SlotsInv s₂ := by
  obtain ⟨t, ht, -, heff⟩ := pickDispatch_ok hd
  have hs₁ := hround.1.keeps (pickFetch_keeps s loop)
  obtain ⟨l, hl⟩ := pickFetch_eq s loop
  rw [hl] at ht heff hs₁
  have hmoved : SlotsInv { s with queueLoc := l } := h.like (.refl s.processes) rfl rfl
  cases heff with
  | select | skip | message | stale | start | exit =>
      exact hmoved.like (.refl s.processes) rfl rfl
  | resume p mem frame _ _ _ hp => exact hmoved.resumed hs₁ hp mem frame
  | load p p' t' mem kmode _ hp hlike => exact hmoved.like (.update hp hlike) rfl rfl
  | dead hdead =>
      refine hmoved.freed hs₁ fun hwait p hp hstate hno => ?_
      obtain ⟨huse, -⟩ := hround.removal hok.1 t ht hdead hwait
      exact hok.2 t ht hdead p hp huse hstate hno

theorem Call.ReleasesClean.waitsClean {st : WaitState} {c : Call} (h : c.ReleasesClean st) :
    c.WaitsClean st := by
  refine ⟨h.1, ?_⟩
  exact Call.Rounds.of_invariant (I := fun _ => True) trivial (fun _ _ _ _ _ _ => trivial)
    (fun _ _ _ hC => hC.1) h.2

theorem SlotsInv.exec {st : WaitState} {s' : Kernel} {c : Call} {r : Int}
    (h : SlotsInv st.kernel) (hs : Tables st.kernel) (hinv : WaitInv st.kernel st.use)
    (hok : c.ReleasesClean st) (hexec : exec st.kernel c = .ok (r, s')) : SlotsInv s' := by
  cases c with
  | createProcess privilege name => exact h.created hs (schedCreateProcess_ok hexec).2
  | createThread ownerpid noqueue entrypoint => exact h.spawned hs (schedCreateThread_ok hexec).2
  | forkThread tid regs =>
      rcases schedForkThread_ok hexec with ⟨rfl, -⟩ | ⟨-, pid, hspawn⟩
      · exact h
      · exact h.spawned hs hspawn
  | loadProcess q =>
      rcases ploadCreateProcess_ok hexec with rfl | ⟨s₁, hcreate, hspawn⟩
      · exact h
      · exact (h.created hs hcreate).spawned (hs.created hcreate) hspawn
  | exitThread =>
      obtain ⟨t, ht, rfl⟩ := schedExitThread_ok (noResult_ok hexec)
      exact h.like (.refl _) rfl rfl
  | exitProcess exitcode =>
      obtain ⟨pid, p, mem, hp, rfl⟩ := schedExitProcess_ok hs hexec
      exact h.ended hs hp exitcode mem
  | killProcess pid =>
      rcases schedKillProcess_ok hexec with rfl | ⟨p, exitcode, mem, hp, rfl⟩
      · exact h
      · exact h.ended hs hp exitcode mem
  | suspendThread irq tid =>
      obtain ⟨t, ht, rfl⟩ := schedSuspendThread_ok (noResult_ok hexec)
      exact h.like (.refl _) rfl rfl
  | checkSuspended irq =>
      obtain rfl : schedCheckSuspendedThreads st.kernel irq = s' := (exec_pair hexec).2
      exact h.like (.refl _) rfl rfl
  | waitProcess pid =>
      rcases schedWaitProcess_ok hexec with ⟨rfl, -⟩ | ⟨-, t, p, -, hp, ht, rfl⟩
      · exact h
      · exact h.waited hs hinv hp
  | pickNext =>
      have hstart : SlotsInv { st.kernel with currenttid := -1 } := h.like (.refl _) rfl rfl
      exact (schedPickNext_inv (I := fun s => RoundInv st.use s ∧ SlotsInv s)
        ⟨RoundInv.start hs hinv, hstart⟩
        (fun _ _ _ hI hC hd => ⟨hI.1.round hC.1 hd, hI.2.round hI.1 hC hd⟩)
        hok.2 (noResult_ok hexec)).2
  | interfaceDelete name pid =>
      obtain rfl := (exec_pair hexec).2
      rcases interfaceDelete_eq st.kernel name pid with hd | ⟨addr, intfaces, hd⟩
      · rw [hd]
        exact h
      · rw [hd]
        exact h.like (.refl _) rfl rfl
  | interfaceWait name tid =>
      rcases interfaceWait_ok hexec with ⟨rfl, -⟩ | ⟨-, t, addr, ht, rfl⟩
      · exact h
      · exact h.like (.refl _) rfl rfl
  | _ =>
      obtain ⟨mem, processes, intfaces, size, next, hl, rfl⟩ := exec_quiet hs rfl hexec
      exact h.like hl rfl rfl

theorem SlotsInv.started {s : Kernel} (h : Started s) : SlotsInv s := by
  obtain ⟨mem, eflags, idleLoop, h⟩ := h
  simp only [schedInit, bind_ok, Prod.exists, Except.ok.injEq] at h
  obtain ⟨pid, s₁, hcreate, tid, s₂, hthread, rfl⟩ := h
  have h0 := Tables.boot mem eflags
  have hslots : SlotsInv (Kernel.boot mem eflags) := by
    refine ⟨fun _ _ hp => by simp [Kernel.boot] at hp, ?_⟩
    rw [count_eq_zero fun i _ _ => by simp [occupied, Kernel.boot]]
    rfl
  have hcreate := (schedCreateProcess_ok hcreate).2
  have h2 := (hslots.created h0 hcreate).spawned (h0.created hcreate)
    (schedCreateThread_ok hthread).2
  exact h2.like (.refl _) rfl rfl

/-- **No process is left as a zombie** in a run whose removals are clean and never take the last
waiter of an exited process. -/
theorem exited_released {st : WaitState}
    (h : Reach WaitStep (fun st c => c.ReleasesClean st) WaitStart st) : NoZombies st := by
  have hinv : Tables st.kernel ∧ WaitInv st.kernel st.use ∧ SlotsInv st.kernel := by
    refine h.invariant (I := fun st => Tables st.kernel ∧ WaitInv st.kernel st.use ∧
      SlotsInv st.kernel) ?_ ?_
    · rintro ⟨s, use⟩ ⟨hst, rfl⟩
      exact ⟨.started hst, .started hst, .started hst⟩
    · rintro st c st' ⟨hs, hwait, hslots⟩ hok hstep
      obtain ⟨r, s', hexec, rfl⟩ := hstep.exists_exec
      obtain ⟨hrun, hclean⟩ := hok.waitsClean
      exact ⟨hs.exec hexec, hwait.exec hs hrun hclean hexec, hslots.exec hs hwait hok hexec⟩
  exact hinv.2.2.noZombies hinv.2.1

/-- Process 1 has exited, and process 2 waits for it. -/
theorem exited_released_waiting : ∃ st : WaitState, (∃ p ∈ st.kernel.processes 1,
    p.state = .exiting ∧ p.threadcount = 0) ∧ NoZombies st := by
  have hrun : BootRuns WaitState.start WaitState.exec
      (fun st c => c.ReleasesClean st)
      (fun st => ∃ p ∈ st.kernel.processes 1, p.state = .exiting ∧ p.threadcount = 0)
      [.createProcess 0 [], .createThread 1 false 0, .createProcess 0 [],
        .createThread 2 false 0, .pickNext, .pickNext, .waitProcess 1, .pickNext,
        .exitProcess 0] := by decide
  obtain ⟨st, hst, hp⟩ := WaitState.bootRuns_reach hrun
  exact ⟨st, hp, exited_released hst⟩

/-- Thread 2 waits for process 1; then thread 3 kills process 1 and process 2.  Process 1 keeps its
slot though no thread waits for it. -/
theorem exited_zombie : ∃ st, Reach WaitStep (fun st c => c.OnRunning st.kernel) WaitStart st ∧
    ¬NoZombies st := by
  have hrun : BootRuns WaitState.start WaitState.exec
      (fun st c => c.OnRunning st.kernel)
      (fun st => (∃ p ∈ st.kernel.processes 1, p.state = .exiting ∧ p.threadcount = 0) ∧
        st.kernel.lastTid = 4 ∧ ∀ i : Fin 4, st.use i.val ≠ .pid 1)
      [.createProcess 0 [], .createThread 1 false 0, .createProcess 0 [],
        .createThread 2 false 0, .createProcess 0 [], .createThread 3 false 0, .pickNext,
        .pickNext, .waitProcess 1, .pickNext, .killProcess 1, .killProcess 2,
        .pickNext] := by decide +kernel
  obtain ⟨st, hst, ⟨p, hp, hstate, hno⟩, hlast, huse⟩ := 
    WaitState.bootRuns_reach hrun
  refine ⟨st, hst, fun hzombies => ?_⟩
  obtain ⟨tid, hlive, hwait⟩ := hzombies.awaited 1 p hp hstate hno
  obtain ⟨t, ht⟩ := Option.ne_none_iff_exists'.mp hlive
  have hrange := ((WaitStep.tables hst).tid tid t ht).1
  rw [hlast] at hrange
  refine huse ⟨tid.toNat, by omega⟩ ?_
  rwa [Int.toNat_of_nonneg hrange.1]

end GalaxyOS
