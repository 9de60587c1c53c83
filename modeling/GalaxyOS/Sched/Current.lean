import GalaxyOS.Wakeup

/-! # The current process

`currentps` points at the process of the thread that `sched_pick_next` has selected.  While that thread
runs the process is in the table, so that a call may use it: no call but the scheduler ends in a use
after free (`exec_freed`).  `Process.SameMarks` is about the two fields of a process that
`exception_handle` keeps its state in.

`Kernel.StaysLive` and `Kernel.KeepsMarks` compare two states and are closed under `trans`, so that
`exec_freed` and `exec_keepsMarks` go through the functions one after the other. -/

namespace GalaxyOS

open Transition

/-- A use after free. -/
def Freed (e : Fault) : Prop := e = .useAfterFree

instance : DecidablePred Freed := fun e => inferInstanceAs (Decidable (e = _))

/-- The current process has not ended. -/
def Kernel.CurrentLive (s : Kernel) : Prop :=
  ∀ pid, s.currentps = some pid → ∃ p, s.processes pid = some p ∧ p.state ≠ .exiting

theorem Kernel.CurrentLive.congr {s s' : Kernel} (h : s.CurrentLive)
    (hcur : s'.currentps = s.currentps) (hps : s'.processes = s.processes) : s'.CurrentLive := by
  unfold CurrentLive
  rw [hcur, hps]
  exact h

/-! ### Memory -/

section Freed

variable {m : Mem} {s : Kernel}

theorem pmmAllocPage_freed : Avoids Freed (pmmAllocPage m) := by
  unfold pmmAllocPage
  cases m.pmemStack with
  | nil => exact .error (by decide)
  | cons page rest => exact .ok _

theorem vmmMapPageF_freed {n physaddr virtualaddr flags : ℕ} {overwrite : Bool} :
    Avoids Freed (vmmMapPageF n m physaddr virtualaddr flags overwrite) := by
  induction n generalizing m physaddr virtualaddr flags overwrite with
  | zero => exact .error (by decide)
  | succ n ih =>
      unfold vmmMapPageF
      cases m.tables m.cr3 (pdindex virtualaddr) with
      | some pde => exact .ok _
      | none =>
          refine .bind pmmAllocPage_freed ?_
          rintro ⟨page, m₁⟩ -
          refine .bind ih ?_
          rintro ⟨r, m₂⟩ -
          simp only
          split_ifs
          · exact .error (by decide)
          · exact .error (by decide)
          · exact .ok _

theorem vmmMapPage_freed {physaddr virtualaddr flags : ℕ} {overwrite : Bool} :
    Avoids Freed (vmmMapPage m physaddr virtualaddr flags overwrite) := vmmMapPageF_freed

theorem vmmMapPagesKLoop_freed {pages : List ℕ} : Avoids Freed (vmmMapPagesKLoop m pages) := by
  induction pages generalizing m with
  | nil => exact .ok _
  | cons page pages ih =>
      refine .bind vmmMapPage_freed ?_
      rintro ⟨r, m₁⟩ -
      simp only
      split_ifs
      · exact .ok _
      · exact .error (by decide)
      · exact ih

theorem pmmAllocPages_freed {n : ℕ} : Avoids Freed (pmmAllocPages m n) := by
  induction n generalizing m with
  | zero => exact .ok _
  | succ n ih => exact .bind pmmAllocPage_freed fun _ _ => .bind ih fun _ _ => .ok _

theorem liballocAllocSmall_freed {pages : ℕ} : Avoids Freed (liballocAllocSmall m pages) := by
  unfold liballocAllocSmall
  split_ifs
  · exact .ok _
  · exact .bind pmmAllocPages_freed fun _ _ => .bind vmmMapPagesKLoop_freed fun _ _ => .ok _

theorem liballocAllocMore_freed {n : ℕ} : Avoids Freed (liballocAllocMore m n) := by
  induction n generalizing m with
  | zero => exact .ok _
  | succ n ih => exact .bind liballocAllocSmall_freed fun _ _ => ih

theorem liballocAlloc_freed {pages : ℕ} : Avoids Freed (liballocAlloc m pages) := by
  unfold liballocAlloc
  split_ifs
  · exact .bind liballocAllocSmall_freed fun _ _ => .bind liballocAllocMore_freed fun _ _ =>
      .bind liballocAllocSmall_freed fun _ _ => .ok _
  · exact liballocAllocSmall_freed

theorem newDirectory_freed : Avoids Freed (newDirectory m) := by
  refine .bind liballocAlloc_freed ?_
  rintro ⟨cr3Virt, m₁⟩ -
  simp only
  split_ifs
  · exact .error (by decide)
  · exact .ok _

theorem vmmMapStack_freed : Avoids Freed (vmmMapStack m) := by
  refine .bind liballocAlloc_freed ?_
  rintro ⟨newptaddr, m₁⟩ -
  simp only
  split_ifs
  · exact .error (by decide)
  · exact .ok _

theorem vmmSwitchStack_freed {cr3Virt stackpdi stackpt : ℕ} :
    Avoids Freed (vmmSwitchStack m cr3Virt stackpdi stackpt) := by
  unfold vmmSwitchStack
  simp only
  split_ifs
  · exact .error (by decide)
  · exact .ok _

theorem brkMap_freed {pgbrk n : ℕ} : Avoids Freed (brkMap m pgbrk n) := by
  induction n generalizing m pgbrk with
  | zero => exact .ok _
  | succ n ih =>
      unfold brkMap
      split_ifs
      · exact .ok _
      · refine .bind pmmAllocPage_freed ?_
        rintro ⟨page, m₁⟩ -
        refine .bind vmmMapPage_freed ?_
        rintro ⟨r, m₂⟩ -
        simp only
        split_ifs
        · exact .ok _
        · exact ih

theorem schedSetbrkTrue_freed {ps : Process} {addr : ℕ} :
    Avoids Freed (schedSetbrkTrue ps m addr) := by
  have hreserve : ∀ m pgbrk pagecnt, Avoids Freed (brkReserve m pgbrk pagecnt) := by
    intro m pgbrk pagecnt
    unfold brkReserve
    split_ifs
    · exact .ok _
    · exact brkMap_freed
  have hmove : ∀ m wantbrk realbrk, Avoids Freed (brkMove ps m wantbrk realbrk) := by
    intro m wantbrk realbrk
    unfold brkMove
    split_ifs
    · refine .bind (hreserve _ _ _) ?_
      rintro ⟨failed, pgbrk, m₁⟩ -
      simp only
      split_ifs
      · exact .ok _
      · exact .ok _
    · exact .ok _
  unfold schedSetbrkTrue
  simp only
  split_ifs
  · exact .ok _
  · exact .ok _
  · exact .ok _
  · exact .ok _
  · exact .ok _
  · exact .bind (hmove _ _ _) fun _ _ => .ok _

theorem schedFreeAll_freed {ps : Process} : Avoids Freed (schedFreeAll ps m) :=
  .bind schedSetbrkTrue_freed fun _ _ => .ok _

theorem touchStack_freed {addr : ℕ} : Avoids Freed (touchStack m addr) := by
  unfold touchStack
  split_ifs
  · exact .ok _
  · exact .bind pmmAllocPage_freed fun _ _ => .bind vmmMapPage_freed fun _ _ => .ok _

theorem forkCopy_freed {cr3Virt stackend n src dst : ℕ} {parent child : Thread} :
    Avoids Freed (forkCopy cr3Virt parent child stackend n src dst m) := by
  induction n generalizing m src dst with
  | zero => exact .error (by decide)
  | succ n ih =>
      unfold forkCopy
      split_ifs
      · exact .ok _
      · exact .bind touchStack_freed fun _ _ => .bind vmmSwitchStack_freed fun _ _ =>
          .bind touchStack_freed fun _ _ => .bind vmmSwitchStack_freed fun _ _ => ih

/-! ### Calls -/

theorem threadAt_freed (tid : Int) : Avoids Freed (s.threadAt tid) := by
  unfold Kernel.threadAt
  cases s.threads tid with
  | none => exact .error (by decide)
  | some t => exact .ok t

theorem liveProcess_freed (pid : Int) : Avoids Freed (s.liveProcess pid) := by
  unfold Kernel.liveProcess
  cases s.processes pid with
  | none => exact .error (by decide)
  | some p => exact .ok p

theorem Kernel.CurrentLive.freed (h : s.CurrentLive) : Avoids Freed s.currentProcess := by
  unfold currentProcess
  cases hcur : s.currentps with
  | none => exact .error (by decide)
  | some pid =>
      obtain ⟨p, hp, -⟩ := h pid hcur
      simp only [hp]
      exact .ok p

theorem noResult_freed {x : Except Fault Kernel} (h : Avoids Freed x) : Avoids Freed (noResult x) :=
  .bind h fun _ _ => .ok _

theorem schedCreateProcess_freed {privilege : ℕ} {name : CString} :
    Avoids Freed (schedCreateProcess s privilege name) := by
  unfold schedCreateProcess
  split_ifs
  · exact .error (by decide)
  · exact .bind newDirectory_freed fun _ _ => .ok _

theorem schedCreateThread_freed {ownerpid : Int} {noqueue : Bool} {entrypoint : ℕ} :
    Avoids Freed (schedCreateThread s ownerpid noqueue entrypoint) := by
  unfold schedCreateThread
  split_ifs with hmax
  · exact .error (by decide)
  simp only
  split_ifs with hcap
  · exact .error (by decide)
  refine .bind (liveProcess_freed ownerpid) fun p _ => .bind ?_ fun stack _ => .bind ?_ fun p' _ =>
    .bind ?_ fun _ _ => .ok _
  · unfold newStack
    split_ifs
    · exact .ok _
    · exact vmmMapStack_freed
  · unfold Process.addTid
    split_ifs
    · exact .error (by decide)
    · exact .ok _
  · unfold Kernel.enqueueNew Kernel.enqueue
    split_ifs
    · exact .ok _
    · exact .error (by decide)
    · exact .ok _

theorem schedForkThread_freed {tid : Int} {r : Regs} : Avoids Freed (schedForkThread s tid r) := by
  unfold schedForkThread
  split_ifs with hmax hfew
  · exact .ok _
  · exact .ok _
  refine .bind (threadAt_freed tid) fun t _ => ?_
  simp only
  split_ifs
  · exact .ok _
  · exact .bind schedCreateThread_freed fun _ _ => .bind (threadAt_freed _) fun _ _ =>
      .bind (threadAt_freed _) fun _ _ => .bind (liveProcess_freed _) fun _ _ =>
        .bind forkCopy_freed fun _ _ => .ok _

theorem schedReapProcess_freed {pid : Int} : Avoids Freed (schedReapProcess s pid) := by
  have hdead : ∀ (s : Kernel) tids, Avoids Freed (markDead s tids) := by
    intro s tids
    induction tids generalizing s with
    | nil => exact .ok s
    | cons tid tids ih => exact .bind (threadAt_freed tid) fun _ _ => ih _
  unfold schedReapProcess
  split_ifs
  · exact .ok _
  cases s.processes pid with
  | none => exact .ok _
  | some p =>
      refine .bind (hdead s _) fun s₁ _ => ?_
      split_ifs
      · exact .bind schedFreeAll_freed fun _ _ => .ok _
      · exact .ok _

theorem schedExitProcess_freed (h : s.CurrentLive) {exitcode : Int} :
    Avoids Freed (schedExitProcess s exitcode) :=
  .bind h.freed fun _ _ => .bind schedReapProcess_freed fun _ _ => .ok _

theorem schedKillProcess_freed (h : s.CurrentLive) {pid : Int} :
    Avoids Freed (schedKillProcess s pid) := by
  unfold schedKillProcess
  split_ifs
  · exact .ok _
  cases s.processes pid with
  | none => exact .ok _
  | some p =>
      refine .bind h.freed fun cur _ => ?_
      split_ifs
      · exact .ok _
      · exact .ok _
      · exact .bind schedReapProcess_freed fun _ _ => .ok _

theorem schedWaitProcess_freed (h : s.CurrentLive) {pid : Int} :
    Avoids Freed (schedWaitProcess s pid) := by
  unfold schedWaitProcess
  split_ifs
  · exact .ok _
  cases s.processes pid with
  | none => exact .ok _
  | some p =>
      refine .bind h.freed fun cur _ => ?_
      split_ifs
      · exact .ok _
      · exact .bind (threadAt_freed _) fun _ _ => .ok _

theorem schedUserFault_freed (h : s.CurrentLive) {eno errorcode cr2 : ℕ} :
    Avoids Freed (schedUserFault s eno errorcode cr2) := by
  refine .bind (threadAt_freed _) fun t _ => ?_
  split_ifs
  · exact .bind pmmAllocPage_freed fun _ _ => .bind vmmMapPage_freed fun _ _ => .ok _
  · exact .ok _
  · exact .bind h.freed fun _ _ => .ok _

theorem elfIsvalid_freed {data : List UInt8} : Avoids Freed (elfIsvalid memoryPolicy data) := by
  unfold elfIsvalid
  generalize elfChecks = checks
  induction checks with
  | nil => exact .ok 0
  | cons check rest ih =>
      refine .bind (.bind ?_ fun _ _ => .ok _) fun field _ => ?_
      · unfold access
        split_ifs
        · exact .ok _
        · exact .error (by decide)
      · split_ifs
        · exact .ok _
        · exact ih

/-- A new process leaves the current one as it is. -/
theorem Kernel.CurrentLive.created {s' : Kernel} (hs : Tables s) (h : s.CurrentLive)
    (hc : s.Created s') : s'.CurrentLive := by
  obtain ⟨p₀, mem, -, rfl⟩ := hc
  intro pid hcur
  obtain ⟨p, hp, hstate⟩ := h pid hcur
  have hlt := (hs.pid pid p hp).2.2
  refine ⟨p, ?_, hstate⟩
  simp only [Function.update_of_ne (show pid ≠ s.lastPid by omega)]
  exact hp

theorem ploadCreateProcess_freed (hs : Tables s) (h : s.CurrentLive) {q : LoadRequest} :
    Avoids Freed (ploadCreateProcess s q) := by
  unfold ploadCreateProcess
  refine .bind elfIsvalid_freed fun elfvalid _ => ?_
  split_ifs with h0
  · exact .ok _
  refine .bind schedCreateProcess_freed ?_
  rintro ⟨pid, s₁⟩ hcreate
  have hlive := h.created hs (schedCreateProcess_ok hcreate).2
  refine .bind (liveProcess_freed pid) fun p _ => .bind ?_ fun p₁ _ =>
    .bind schedCreateThread_freed fun _ _ => .ok _
  unfold inheritEnviron
  split_ifs
  · exact .ok _
  · refine .bind hlive.freed fun cur _ => ?_
    cases cur.pwd with
    | none => exact .error (by decide)
    | some pwd => exact .ok _

/-- While the current process is there, no call but the scheduler uses freed memory. -/
theorem exec_freed {c : Call} (hs : Tables s) (h : s.CurrentLive) (hc : c ≠ .pickNext) :
    Avoids Freed (exec s c) := by
  cases c with
  | createProcess privilege name => exact schedCreateProcess_freed
  | createThread ownerpid noqueue entrypoint => exact schedCreateThread_freed
  | forkThread tid r => exact schedForkThread_freed
  | loadProcess q => exact ploadCreateProcess_freed hs h
  | exitThread => exact noResult_freed (.bind (threadAt_freed _) fun _ _ => .ok _)
  | exitProcess exitcode => exact schedExitProcess_freed h
  | killProcess pid => exact schedKillProcess_freed h
  | suspendThread irq tid => exact noResult_freed (.bind (threadAt_freed _) fun _ _ => .ok _)
  | waitProcess pid => exact schedWaitProcess_freed h
  | pickNext => exact absurd rfl hc
  | interfaceWait name tid =>
      simp only [exec, interfaceWait]
      cases interfaceFind s.intfaces name with
      | error e => exact .ok _
      | ok qid =>
          simp only
          cases s.intfaces[qid]? with
          | none => exact .ok _
          | some i =>
              simp only
              cases s.threads tid with
              | none => exact .error (by decide)
              | some t => exact .ok _
  | setbrk addr => exact .bind h.freed fun _ _ => .bind schedSetbrkTrue_freed fun _ _ => .ok _
  | userFault eno errorcode cr2 => exact noResult_freed (schedUserFault_freed h)
  | liballocAlloc pages => exact .bind liballocAlloc_freed fun _ _ => .ok _
  | loadCr3 => exact noResult_freed (.bind (threadAt_freed _) fun _ _ => .ok _)
  | checkSuspended irq | interfaceCreate name pid flags | interfaceDelete name pid
  | interfaceSend um name senderpid recvpid buf size
  | interfaceRecv um name recvpid buf size sizeOut | liballocFree addr pages => exact .ok _

end Freed

/-! ### What happens to the current process -/

section Current

variable {s s' : Kernel}

/-- The current process stays the same, and no process that has not ended ends. -/
structure Kernel.StaysLive (s s' : Kernel) : Prop where
  currentps : s'.currentps = s.currentps
  processes : ∀ pid p, s.processes pid = some p → p.state ≠ .exiting →
    ∃ p', s'.processes pid = some p' ∧ p'.state ≠ .exiting

theorem Kernel.CurrentLive.stays (h : s.CurrentLive) (hs : s.StaysLive s') : s'.CurrentLive := by
  intro pid hcur
  rw [hs.currentps] at hcur
  obtain ⟨p, hp, hstate⟩ := h pid hcur
  exact hs.processes pid p hp hstate

theorem Kernel.StaysLive.same (hcur : s'.currentps = s.currentps)
    (hps : s'.processes = s.processes) : s.StaysLive s' := by
  refine ⟨hcur, fun pid p hp hstate => ⟨p, ?_, hstate⟩⟩
  rw [hps]
  exact hp

theorem Kernel.StaysLive.like (hcur : s'.currentps = s.currentps)
    (hl : LikeTable s.processes s'.processes) : s.StaysLive s' := by
  refine ⟨hcur, fun pid p hp hstate => ?_⟩
  have hpid := hl pid
  rw [hp] at hpid
  obtain ⟨p', hp', hlike⟩ := rel_some_left hpid
  exact ⟨p', hp', fun hx => hstate (hlike.exiting.mp hx)⟩

theorem Kernel.StaysLive.put {pid : Int} {p p' : Process} (hcur : s'.currentps = s.currentps)
    (hp : s.processes pid = some p) (hps : s'.processes = Function.update s.processes pid (some p'))
    (hstate : p'.state = p.state) : s.StaysLive s' := by
  refine ⟨hcur, fun i q hq hlive => ?_⟩
  rw [hps]
  by_cases hi : i = pid
  · subst hi
    obtain rfl := Option.some.inj (hp.symm.trans hq)
    rw [Function.update_self]
    exact ⟨p', rfl, hstate ▸ hlive⟩
  · rw [Function.update_of_ne hi]
    exact ⟨q, hq, hlive⟩

theorem Kernel.StaysLive.trans {s'' : Kernel} (h : s.StaysLive s') (h' : s'.StaysLive s'') :
    s.StaysLive s'' := by
  refine ⟨h'.currentps.trans h.currentps, fun pid p hp hstate => ?_⟩
  obtain ⟨p', hp', hstate'⟩ := h.processes pid p hp hstate
  exact h'.processes pid p' hp' hstate'

theorem Kernel.Created.staysLive (hs : Tables s) (h : s.Created s') : s.StaysLive s' := by
  obtain ⟨p₀, mem, -, rfl⟩ := h
  refine ⟨rfl, fun pid p hp hstate => ⟨p, ?_, hstate⟩⟩
  have hlt := (hs.pid pid p hp).2.2
  simp only [Function.update_of_ne (show pid ≠ s.lastPid by omega)]
  exact hp

theorem Kernel.Spawned.staysLive {pid : Int} {noqueue : Bool} (h : s.Spawned pid noqueue s') :
    s.StaysLive s' := by
  obtain ⟨-, p, t, mem, hp, -, rfl⟩ := h
  exact .put rfl hp rfl rfl

/-- The calls that end no process and select no thread. -/
def Call.harmless : Call → Bool
  | .exitProcess _ | .killProcess _ | .pickNext => false
  | _ => true

theorem exec_staysLive {c : Call} {r : Int} (hs : Tables s) (hc : c.harmless = true)
    (h : exec s c = .ok (r, s')) : s.StaysLive s' := by
  cases c with
  | createProcess privilege name => exact (schedCreateProcess_ok h).2.staysLive hs
  | createThread ownerpid noqueue entrypoint => exact (schedCreateThread_ok h).2.staysLive
  | forkThread tid regs =>
      rcases schedForkThread_ok h with ⟨rfl, -⟩ | ⟨-, pid, hspawn⟩
      · exact .same rfl rfl
      · exact hspawn.staysLive
  | loadProcess q =>
      rcases ploadCreateProcess_ok h with rfl | ⟨s₁, hcreate, hspawn⟩
      · exact .same rfl rfl
      · exact (hcreate.staysLive hs).trans hspawn.staysLive
  | exitThread =>
      obtain ⟨t, ht, rfl⟩ := schedExitThread_ok (noResult_ok h)
      exact .same rfl rfl
  | exitProcess | killProcess | pickNext => cases hc
  | suspendThread irq tid =>
      obtain ⟨t, ht, rfl⟩ := schedSuspendThread_ok (noResult_ok h)
      exact .same rfl rfl
  | checkSuspended irq =>
      obtain rfl : schedCheckSuspendedThreads s irq = s' := (exec_pair h).2
      exact .same rfl rfl
  | waitProcess pid =>
      rcases schedWaitProcess_ok h with ⟨rfl, -⟩ | ⟨-, t, p, -, hp, ht, rfl⟩
      · exact .same rfl rfl
      · exact .put rfl hp rfl rfl
  | interfaceDelete name pid =>
      obtain rfl := (exec_pair h).2
      rcases interfaceDelete_eq s name pid with hd | ⟨addr, intfaces, hd⟩
      · rw [hd]
        exact .same rfl rfl
      · rw [hd]
        exact .same rfl rfl
  | interfaceWait name tid =>
      rcases interfaceWait_ok h with ⟨rfl, -⟩ | ⟨-, t, addr, ht, rfl⟩
      · exact .same rfl rfl
      · exact .same rfl rfl
  | _ =>
      obtain ⟨mem, processes, intfaces, size, next, hl, rfl⟩ := exec_quiet hs rfl h
      exact .like rfl hl

/-- A running thread of a process that has not ended is selected, and that process is the current
one. -/
def Kernel.SelectedLive (s : Kernel) : Prop :=
  ∃ t p, s.threads s.currenttid = some t ∧ t.state = .running ∧
    s.currentps = some t.pid ∧ s.processes t.pid = some p ∧ p.state ≠ .exiting

theorem Kernel.SelectedLive.currentLive (h : s.SelectedLive) : s.CurrentLive := by
  obtain ⟨t, p, -, -, hcur, hp, hstate⟩ := h
  intro pid hpid
  obtain rfl := Option.some.inj (hcur.symm.trans hpid)
  exact ⟨p, hp, hstate⟩

theorem PickEffect.selectedLive {tid : Int} {t : Thread} (hlive : ThreadsLive s)
    (ht : s.threads tid = some t) (h : PickEffect s tid t s') (hidle : s.currenttid = -1)
    (hsel : s'.currenttid ≠ -1) : s'.SelectedLive := by
  cases h with
  | select mem hstate =>
      obtain ⟨p, hp, hne, -⟩ := hlive tid t ht (by rw [hstate]; decide)
      exact ⟨t, p, ht, hstate, by simp only [hp, Option.map_some], hp, hne⟩
  | resume p mem frame hstate hmsg hrange hp hno =>
      obtain ⟨q, hq, hne, hmem⟩ := hlive tid t ht (by rw [hstate]; decide)
      have hother : t.pid ≠ t.wait := by
        intro heq
        rw [heq, hp] at hq
        obtain rfl := Option.some.inj hq
        rw [hno] at hmem
        exact List.not_mem_nil hmem
      refine ⟨_, q, Function.update_self .., rfl, ?_, ?_, hne⟩
      · simp only [Kernel.resumed, hq, Option.map_some]
      · simp only [Kernel.resumed, Function.update_of_ne hother]
        exact hq
  | skip | message | stale | start | load | exit | dead => exact absurd hidle hsel

theorem schedPickNext_selectedLive (hs : ThreadsLive s) (h : schedPickNext s = .ok s') :
    s'.SelectedLive := by
  refine schedPickNext_rule (I := fun st => ThreadsLive st.1 ∧ st.1.currenttid = -1)
    ⟨hs, rfl⟩ ?_ ?_ (heads_true _ _) h
  · rintro s loop s₂ ⟨hI, -⟩ - hd hcur
    exact ⟨hI.round hd, hcur⟩
  · rintro s loop s₂ ⟨hI, hidle⟩ - hd hsel
    obtain ⟨t, ht, -, heff⟩ := pickDispatch_ok hd
    obtain ⟨l, hl⟩ := pickFetch_eq s loop
    rw [hl] at ht heff
    have hmoved : ThreadsLive { s with queueLoc := l } := hI
    exact heff.selectedLive hmoved ht hidle hsel

theorem schedPickNext_currentLive (hs : ThreadsLive s) (h : schedPickNext s = .ok s') :
    s'.CurrentLive := (schedPickNext_selectedLive hs h).currentLive

end Current

/-! ### The marks of `exception_handle` -/

/-- The processes have the same error. -/
structure Process.SameMarks (p p' : Process) : Prop where
  procerr : p'.procerr = p.procerr
  procerrUnhandled : p'.procerrUnhandled = p.procerrUnhandled

theorem Process.SameMarks.refl (p : Process) : p.SameMarks p := ⟨rfl, rfl⟩

/-- The process has no error, and none has been delivered to it. -/
structure Process.Unmarked (p : Process) : Prop where
  procerr : p.procerr = 0
  procerrUnhandled : p.procerrUnhandled = 0

section Marks

variable {s s' s'' : Kernel}

/-- Every process keeps its marks, new processes have none, and no process comes back to life. -/
structure Kernel.KeepsMarks (s s' : Kernel) : Prop where
  lastPid : s.lastPid ≤ s'.lastPid
  processes : ∀ pid p', s'.processes pid = some p' →
    (∃ p, s.processes pid = some p ∧ p.SameMarks p' ∧ (p.state = .exiting → p'.state = .exiting)) ∨
      s.lastPid ≤ pid ∧ p'.Unmarked

theorem Kernel.KeepsMarks.same (hlast : s'.lastPid = s.lastPid) (hps : s'.processes = s.processes) :
    s.KeepsMarks s' := by
  refine ⟨Int.le_of_eq hlast.symm, fun pid p' hp' => .inl ⟨p', ?_, .refl p', id⟩⟩
  rw [← hps]
  exact hp'

theorem Kernel.KeepsMarks.put {pid : Int} {p : Process} {o : Option Process}
    (hlast : s'.lastPid = s.lastPid) (hp : s.processes pid = some p)
    (hps : s'.processes = Function.update s.processes pid o)
    (ho : ∀ p' ∈ o, p.SameMarks p' ∧ (p.state = .exiting → p'.state = .exiting)) :
    s.KeepsMarks s' := by
  refine ⟨Int.le_of_eq hlast.symm, fun i q hq => .inl ?_⟩
  rw [hps] at hq
  by_cases hi : i = pid
  · subst hi
    rw [Function.update_self] at hq
    exact ⟨p, hp, ho q hq⟩
  · rw [Function.update_of_ne hi] at hq
    exact ⟨q, hq, .refl q, id⟩

theorem Kernel.KeepsMarks.trans (h : s.KeepsMarks s') (h' : s'.KeepsMarks s'') :
    s.KeepsMarks s'' := by
  refine ⟨Int.le_trans h.lastPid h'.lastPid, fun pid p'' hp'' => ?_⟩
  cases h'.processes pid p'' hp'' with
  | inl hold =>
      obtain ⟨p', hp', hmarks', hexit'⟩ := hold
      cases h.processes pid p' hp' with
      | inl hold =>
          obtain ⟨p, hp, hmarks, hexit⟩ := hold
          exact .inl ⟨p, hp, ⟨hmarks'.procerr.trans hmarks.procerr,
            hmarks'.procerrUnhandled.trans hmarks.procerrUnhandled⟩, fun hx => hexit' (hexit hx)⟩
      | inr hnew =>
          exact .inr ⟨hnew.1, hmarks'.procerr.trans hnew.2.procerr,
            hmarks'.procerrUnhandled.trans hnew.2.procerrUnhandled⟩
  | inr hnew => exact .inr ⟨Int.le_trans h.lastPid hnew.1, hnew.2⟩

theorem schedCreateProcess_keepsMarks {privilege : ℕ} {name : CString} {r : Int}
    (h : schedCreateProcess s privilege name = .ok (r, s')) : s.KeepsMarks s' := by
  unfold schedCreateProcess at h
  split_ifs at h with hmax
  rw [growProcesses_eq] at h
  simp only [bind_ok, Except.ok.injEq, Prod.mk.injEq, Prod.exists] at h
  obtain ⟨cr3Virt, cr3, mem, -, -, rfl⟩ := h
  refine ⟨by simp only; omega, fun pid p' hp' => ?_⟩
  simp only [Kernel.setProcess_processes] at hp'
  by_cases hi : pid = s.lastPid
  · rw [hi, Function.update_self] at hp'
    obtain rfl := Option.some.inj hp'
    exact .inr ⟨Int.le_of_eq hi.symm, rfl, rfl⟩
  · rw [Function.update_of_ne hi] at hp'
    exact .inl ⟨p', hp', .refl p', id⟩

theorem Kernel.Spawned.keepsMarks {pid : Int} {noqueue : Bool} (h : s.Spawned pid noqueue s') :
    s.KeepsMarks s' := by
  obtain ⟨-, p, t, mem, hp, -, rfl⟩ := h
  refine .put rfl hp rfl fun p' hp' => ?_
  obtain rfl := Option.some.inj hp'
  exact ⟨⟨rfl, rfl⟩, id⟩

theorem inheritEnviron_marks {p p' : Process} {nodup : Bool} (h : inheritEnviron s p nodup = .ok p') :
    p.SameMarks p' ∧ p'.state = p.state := by
  unfold inheritEnviron at h
  split_ifs at h
  · obtain rfl := Except.ok.inj h
    exact ⟨⟨rfl, rfl⟩, rfl⟩
  · obtain ⟨cur, -, h⟩ := bind_ok.mp h
    cases hpwd : cur.pwd with
    | none =>
        rw [hpwd] at h
        cases h
    | some pwd =>
        rw [hpwd] at h
        obtain rfl := Except.ok.inj h
        exact ⟨⟨rfl, rfl⟩, rfl⟩

theorem ploadCreateProcess_keepsMarks {q : LoadRequest} {r : Int}
    (h : ploadCreateProcess s q = .ok (r, s')) : s.KeepsMarks s' := by
  simp only [ploadCreateProcess, bind_ok] at h
  obtain ⟨elfvalid, -, hload⟩ := h
  split_ifs at hload with hv
  · obtain rfl := (Prod.mk.inj (Except.ok.inj hload)).2
    exact .same rfl rfl
  simp only [bind_ok, Prod.exists, Kernel.liveProcess_ok, Except.ok.injEq, Prod.mk.injEq] at hload
  obtain ⟨pid, s₁, hcreate, p, hp, p₁, hp₁, tid, s₂, hthread, -, rfl⟩ := hload
  have hmarks := inheritEnviron_marks hp₁
  have hset : s₁.KeepsMarks (s₁.setProcess pid (some p₁)) := by
    refine .put rfl hp rfl fun p' hp' => ?_
    obtain rfl := Option.some.inj hp'
    exact ⟨⟨hmarks.1.procerr, hmarks.1.procerrUnhandled⟩, fun hx => hmarks.2.trans hx⟩
  exact (schedCreateProcess_keepsMarks hcreate).trans
    (hset.trans (schedCreateThread_ok hthread).2.keepsMarks)

theorem Process.reaped_marks {p p' : Process} (h : p' ∈ p.reaped) :
    p.SameMarks p' ∧ p'.state = p.state := by
  unfold Process.reaped Process.dropTids at h
  split_ifs at h with h0 hno
  · cases h
  · obtain rfl := Option.some.inj h
    exact ⟨.refl _, rfl⟩
  · obtain rfl := Option.some.inj h
    exact ⟨⟨rfl, rfl⟩, rfl⟩

theorem Kernel.endProcess_keepsMarks {pid : Int} {p : Process} (hp : s.processes pid = some p)
    (exitcode : Int) (mem : Mem) : s.KeepsMarks (s.endProcess pid p exitcode mem) := by
  refine .put rfl hp rfl fun p' hp' => ?_
  obtain ⟨hmarks, hstate⟩ := Process.reaped_marks hp'
  exact ⟨⟨hmarks.procerr, hmarks.procerrUnhandled⟩, fun _ => hstate⟩

theorem Kernel.KeepsMarks.dropped (hlast : s'.lastPid = s.lastPid) {wait : Int}
    (hps : s'.processes = droppedWaiter s.processes wait) : s.KeepsMarks s' := by
  unfold droppedWaiter at hps
  split_ifs at hps with h0
  · exact .same hlast hps
  · cases hp : s.processes wait with
    | none =>
        rw [hp, Option.map_none, Function.update_eq_self_iff.mpr hp.symm] at hps
        exact .same hlast hps
    | some p =>
        rw [hp] at hps
        refine .put hlast hp hps fun p' hp' => ?_
        obtain rfl := Option.some.inj hp'
        exact ⟨⟨rfl, rfl⟩, id⟩

/-- A load leaves the marks alone. -/
theorem pickStarting_keepsMarks {tid : Int} {t : Thread} (ht : s.threads tid = some t)
    (h : pickStarting s tid t = .ok s') : s.KeepsMarks s' := by
  unfold pickStarting at h
  split_ifs at h with hk
  · obtain rfl := Except.ok.inj h
    exact .same rfl rfl
  · simp only [bind_ok, Kernel.liveProcess_ok] at h
    obtain ⟨p, hp, h⟩ := h
    cases hps : p.state with
    | starting =>
        simp only [hps, bind_ok, Prod.exists, Except.ok.injEq] at h
        obtain ⟨r, s₁, hload, rfl⟩ := h
        cases ploadLoadProcess_cases ht hp hload with
        | inl hfailed =>
            obtain ⟨-, st, mem, rfl⟩ := hfailed
            refine .put rfl hp rfl fun p' hp' => ?_
            obtain rfl := Option.some.inj hp'
            exact ⟨⟨rfl, rfl⟩, fun hx => absurd (hps.symm.trans hx) (by decide)⟩
        | inr hloaded =>
            obtain ⟨-, st, entry, mem, rfl⟩ := hloaded
            refine .put rfl hp rfl fun p' hp' => ?_
            obtain rfl := Option.some.inj hp'
            exact ⟨⟨rfl, rfl⟩, fun hx => absurd (hps.symm.trans hx) (by decide)⟩
    | running | loading =>
        simp only [hps, Except.ok.injEq] at h
        subst h
        exact .same rfl rfl
    | exiting =>
        simp only [hps, Except.ok.injEq] at h
        subst h
        exact .same rfl rfl

theorem pickDispatch_keepsMarks {tid : Int} (h : pickDispatch s tid = .ok s') :
    s.KeepsMarks s' := by
  obtain ⟨t, ht, -, heff⟩ := pickDispatch_ok h
  by_cases hstate : t.state = .starting
  · unfold pickDispatch at h
    simp only [ht, bind_ok, hstate] at h
    obtain ⟨-, -, h⟩ := h
    exact pickStarting_keepsMarks ht h
  · cases heff with
    | select | skip | message | stale | start | exit => exact .same rfl rfl
    | resume p mem frame hw hmsg hrange hp hno =>
        refine .put rfl hp rfl fun p' hp' => ?_
        obtain ⟨hmarks, hstate'⟩ := Process.reaped_marks hp'
        exact ⟨⟨hmarks.procerr, hmarks.procerrUnhandled⟩, fun hx => hstate'.trans hx⟩
    | load p p' t' mem kmode hs => exact absurd hs hstate
    | dead => exact .dropped rfl rfl

theorem schedPickNext_keepsMarks (h : schedPickNext s = .ok s') : s.KeepsMarks s' := by
  refine schedPickNext_inv (I := fun s₁ => s.KeepsMarks s₁) (.same rfl rfl) ?_ (heads_true _ _) h
  intro s₁ loop s₂ hI _ hd
  obtain ⟨l, hl⟩ := pickFetch_eq s₁ loop
  rw [hl] at hd
  have hfetch : s₁.KeepsMarks { s₁ with queueLoc := l } := .same rfl rfl
  exact hI.trans (hfetch.trans (pickDispatch_keepsMarks hd))

/-- Only exceptions change the marks. -/
theorem exec_keepsMarks {c : Call} {r : Int} (hs : Tables s)
    (hc : ∀ eno errorcode cr2, c ≠ .userFault eno errorcode cr2) (h : exec s c = .ok (r, s')) :
    s.KeepsMarks s' := by
  cases c with
  | createProcess privilege name => exact schedCreateProcess_keepsMarks h
  | createThread ownerpid noqueue entrypoint => exact (schedCreateThread_ok h).2.keepsMarks
  | forkThread tid regs =>
      cases schedForkThread_ok h with
      | inl hsame => exact .same (by rw [hsame.1]) (by rw [hsame.1])
      | inr hspawn =>
          obtain ⟨-, pid, hspawn⟩ := hspawn
          exact hspawn.keepsMarks
  | loadProcess q => exact ploadCreateProcess_keepsMarks h
  | exitThread =>
      obtain ⟨t, ht, rfl⟩ := schedExitThread_ok (noResult_ok h)
      exact .same rfl rfl
  | exitProcess exitcode =>
      obtain ⟨pid, p, mem, hp, rfl⟩ := schedExitProcess_ok hs h
      exact Kernel.endProcess_keepsMarks hp exitcode mem
  | killProcess pid =>
      cases schedKillProcess_ok h with
      | inl hsame => exact .same (by rw [hsame]) (by rw [hsame])
      | inr hended =>
          obtain ⟨p, exitcode, mem, hp, rfl⟩ := hended
          exact Kernel.endProcess_keepsMarks hp exitcode mem
  | suspendThread irq tid =>
      obtain ⟨t, ht, rfl⟩ := schedSuspendThread_ok (noResult_ok h)
      exact .same rfl rfl
  | waitProcess pid =>
      cases schedWaitProcess_ok h with
      | inl hsame => exact .same (by rw [hsame.1]) (by rw [hsame.1])
      | inr hwaited =>
          obtain ⟨-, t, p, -, hp, ht, rfl⟩ := hwaited
          refine .put rfl hp rfl fun p' hp' => ?_
          obtain rfl := Option.some.inj hp'
          exact ⟨⟨rfl, rfl⟩, id⟩
  | pickNext => exact schedPickNext_keepsMarks (noResult_ok h)
  | interfaceWait name tid =>
      cases interfaceWait_ok h with
      | inl hsame => exact .same (by rw [hsame.1]) (by rw [hsame.1])
      | inr hwait =>
          obtain ⟨-, t, addr, ht, rfl⟩ := hwait
          exact .same rfl rfl
  | interfaceDelete name pid =>
      obtain rfl := (exec_pair h).2
      cases interfaceDelete_eq s name pid with
      | inl hd => exact .same (by rw [hd]) (by rw [hd])
      | inr hd =>
          obtain ⟨addr, intfaces, hd⟩ := hd
          rw [hd]
          exact .same rfl rfl
  | setbrk addr =>
      simp only [exec, schedSetbrk, bind_ok, Kernel.currentProcess_ok, Prod.exists,
        Except.ok.injEq, Prod.mk.injEq] at h
      obtain ⟨p, ⟨pid, -, hp⟩, r', p', m', hbrk, -, rfl⟩ := h
      have hp' : s.processes p.pid = some p := by rwa [(hs.pid pid p hp).1]
      obtain ⟨brk, pgbrk, brkOffset, rfl⟩ := schedSetbrkTrue_eq hbrk
      refine .put rfl hp' rfl fun q hq => ?_
      obtain rfl := Option.some.inj hq
      exact ⟨⟨rfl, rfl⟩, id⟩
  | userFault eno errorcode cr2 => exact absurd rfl (hc eno errorcode cr2)
  | checkSuspended irq | liballocFree addr pages =>
      obtain rfl := (exec_pair h).2
      exact .same rfl rfl
  | interfaceCreate name pid flags =>
      obtain rfl := (exec_pair h).2
      obtain ⟨intfaces, size, next, heq⟩ := interfaceCreate_interfaces s name pid flags
      rw [heq]
      exact .same rfl rfl
  | interfaceSend um name senderpid recvpid buf size =>
      obtain rfl := (exec_pair h).2
      obtain ⟨intfaces, n, next, heq⟩ :=
        interfaceSend_interfaces s um name senderpid recvpid buf size
      simp only [heq]
      exact .same rfl rfl
  | interfaceRecv um name recvpid buf size sizeOut =>
      obtain rfl := (exec_pair h).2
      obtain ⟨intfaces, n, next, heq⟩ :=
        interfaceRecv_interfaces s um name recvpid buf size sizeOut
      simp only [heq]
      exact .same rfl rfl
  | liballocAlloc pages =>
      simp only [exec, bind_ok, Prod.exists, Except.ok.injEq, Prod.mk.injEq] at h
      obtain ⟨addr, mem, -, -, rfl⟩ := h
      exact .same rfl rfl
  | loadCr3 =>
      have h' := noResult_ok h
      simp only [loadThreadCr3, bind_ok, Except.ok.injEq] at h'
      obtain ⟨t, -, rfl⟩ := h'
      exact .same rfl rfl

end Marks

end GalaxyOS
