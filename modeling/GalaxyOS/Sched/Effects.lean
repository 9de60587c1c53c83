import GalaxyOS.Sched.Pick

/-! # What each kernel call changes

One lemma for every function of the scheduler: from the outcome `.ok` it recovers the state that
the function leaves as an update of the state before it.  The changes to memory are not spelled
out; the results on the scheduler hold for any of them.

They compare states by relations that are closed under composition (`Process.Like`, `QuietRel`), and
creation by `Kernel.Spawned`; an invariant needs no more than these. -/

namespace GalaxyOS

open Transition

/-! ### Processes that differ outside the scheduler -/

/-- `p'` agrees with `p` on what the scheduler keeps about a process. -/
structure Process.Like (p p' : Process) : Prop where
  tids : p'.tids = p.tids
  tidsSize : p'.tidsSize = p.tidsSize
  tidsCap : p'.tidsCap = p.tidsCap
  pid : p'.pid = p.pid
  waitingThreads : p'.waitingThreads = p.waitingThreads
  exiting : p'.state = .exiting ↔ p.state = .exiting

theorem Process.Like.refl (p : Process) : p.Like p := ⟨rfl, rfl, rfl, rfl, rfl, Iff.rfl⟩

/-- Process tables whose slots agree on what the scheduler keeps. -/
def LikeTable (ps ps' : Int → Option Process) : Prop :=
  ∀ pid, Option.Rel Process.Like (ps pid) (ps' pid)

theorem LikeTable.refl (ps : Int → Option Process) : LikeTable ps ps := fun pid => by
  cases ps pid with
  | none => exact .none
  | some p => exact .some (.refl p)

theorem LikeTable.update {ps : Int → Option Process} {pid : Int} {p p' : Process}
    (hp : ps pid = some p) (h : p.Like p') : LikeTable ps (Function.update ps pid (some p')) :=
  fun i => by
    by_cases hi : i = pid
    · subst hi
      rw [Function.update_self, hp]
      exact .some h
    · rw [Function.update_of_ne hi]
      exact LikeTable.refl ps i

theorem LikeTable.eq_none {ps ps' : Int → Option Process} (h : LikeTable ps ps') {pid : Int} :
    ps' pid = none ↔ ps pid = none := by
  have hpid := h pid
  generalize ps pid = o at hpid
  generalize ps' pid = o' at hpid
  cases hpid <;> simp

theorem LikeTable.of_some {ps ps' : Int → Option Process} (h : LikeTable ps ps') {pid : Int}
    {p' : Process} (hp : ps' pid = some p') : ∃ p, ps pid = some p ∧ p.Like p' := by
  have hpid := h pid
  rw [hp] at hpid
  generalize ps pid = o at hpid
  cases hpid with
  | some hl => exact ⟨_, rfl, hl⟩

/-- `s'` is `s` but for memory, the interfaces and what the scheduler does not look at. -/
def Kernel.Quiet (s s' : Kernel) : Prop :=
  ∃ mem processes intfaces size next, LikeTable s.processes processes ∧ s' = { s with
    mem := mem, processes := processes
    intfaces := intfaces, intfacesSize := size, nextIntf := next }

/-! ### Creation -/

theorem growProcesses_eq (s : Kernel) :
    s.growProcesses = { s with
      queueCap := s.growProcesses.queueCap, processesSize := s.growProcesses.processesSize } := by
  unfold Kernel.growProcesses
  split_ifs <;> rfl

theorem growThreads_eq (s : Kernel) :
    s.growThreads = { s with
      threadsSize := s.growThreads.threadsSize, threadsCap := s.growThreads.threadsCap } := by
  unfold Kernel.growThreads
  split_ifs <;> rfl

/-- A new process has no threads, room for 128, and nobody waits for it. -/
structure Process.Fresh (p : Process) (pid : Int) : Prop where
  tids : p.tids = []
  tidsSize : p.tidsSize = defaultPTidListSize
  pid : p.pid = pid
  state : p.state = .starting
  waitingThreads : p.waitingThreads = 0

/-- `s'` is `s` with one more process. -/
def Kernel.Created (s s' : Kernel) : Prop :=
  ∃ p mem, p.Fresh s.lastPid ∧ s' = { s with
    mem := mem, queueCap := s.growProcesses.queueCap, processesSize := s.growProcesses.processesSize
    processes := Function.update s.processes s.lastPid (some p)
    processesCount := s.processesCount + 1, lastPid := s.lastPid + 1 }

theorem schedCreateProcess_ok {s s' : Kernel} {privilege : ℕ} {name : CString} {r : Int}
    (h : schedCreateProcess s privilege name = .ok (r, s')) : r = s.lastPid ∧ s.Created s' := by
  unfold schedCreateProcess at h
  split_ifs at h with hmax
  simp only [bind_ok, Except.ok.injEq, Prod.mk.injEq] at h
  obtain ⟨⟨cr3Virt, cr3, mem⟩, -, h1, h2⟩ := h
  rw [growProcesses_eq] at h1 h2
  exact ⟨h1.symm, _, mem, ⟨rfl, rfl, rfl, rfl, rfl⟩, h2.symm⟩

theorem growTids_eq (p : Process) (size : Int) :
    p.growTids size = { p with
      tidsSize := (p.growTids size).tidsSize, tidsCap := (p.growTids size).tidsCap } := by
  unfold Process.growTids
  split_ifs <;> rfl

theorem addTid_ok {p p' : Process} {size tid : Int} (h : p.addTid size tid = .ok p') :
    p' = { p with
      tids := p.tids ++ [tid], tidsSize := (p.growTids size).tidsSize
      tidsCap := (p.growTids size).tidsCap } := by
  unfold Process.addTid at h
  split_ifs at h with hcap
  rw [← Except.ok.inj h, growTids_eq]

theorem enqueue_ok {s s' : Kernel} {tid : Int} (h : s.enqueue tid = .ok s') :
    s.queueEnd < s.queueCap ∧ s' = { s with
      queue := Function.update s.queue s.queueEnd tid
      queueEnd := (s.queueEnd + 1) % s.processesSize } := by
  unfold Kernel.enqueue at h
  split_ifs at h with hq
  exact ⟨by omega, (Except.ok.inj h).symm⟩

/-- A new thread is starting and waits for nothing. -/
structure Thread.Fresh (t : Thread) (pid : Int) : Prop where
  pid : t.pid = pid
  state : t.state = .starting
  wait : t.wait = 0
  waitMsg : t.waitMsg = none
  stackpdi : t.stackpdi = 767

theorem newThread_fresh (p : Process) (pid tid : Int) (entrypoint eflags stackpt : ℕ) :
    (newThread p pid tid entrypoint eflags stackpt).Fresh pid := ⟨rfl, rfl, rfl, rfl, rfl⟩

/-- The queue after `sched_create_thread`. -/
def Kernel.queued (s : Kernel) (noqueue : Bool) : (Int → Int) × Int :=
  if noqueue then (s.queue, s.queueEnd)
  else (Function.update s.queue s.queueEnd s.lastTid, (s.queueEnd + 1) % s.processesSize)

theorem enqueueNew_ok {s s' : Kernel} {noqueue : Bool} {tid : Int} (htid : tid = s.lastTid)
    (h : s.enqueueNew noqueue tid = .ok s') :
    (noqueue = false → s.queueEnd < s.queueCap) ∧
    s' = { s with queue := (s.queued noqueue).1, queueEnd := (s.queued noqueue).2 } := by
  subst htid
  unfold Kernel.enqueueNew at h
  cases noqueue with
  | true => exact ⟨by simp, (Except.ok.inj h).symm⟩
  | false =>
      obtain ⟨hq, hs⟩ := enqueue_ok h
      exact ⟨fun _ => hq, hs⟩

/-- `s'` is `s` with one more thread, which belongs to the process `pid`. -/
def Kernel.Spawned (s : Kernel) (pid : Int) (noqueue : Bool) (s' : Kernel) : Prop :=
  (noqueue = false → s.queueEnd < s.queueCap) ∧
  ∃ p t mem, s.processes pid = some p ∧ t.Fresh pid ∧ s' = { s with
    mem := mem, threadsSize := s.growThreads.threadsSize, threadsCap := s.growThreads.threadsCap
    threads := Function.update s.threads s.lastTid (some t)
    processes := Function.update s.processes pid (some { p with
      tids := p.tids ++ [s.lastTid], tidsSize := (p.growTids s.growThreads.threadsSize).tidsSize
      tidsCap := (p.growTids s.growThreads.threadsSize).tidsCap })
    queue := (s.queued noqueue).1, queueEnd := (s.queued noqueue).2
    lastTid := s.lastTid + 1 }

theorem schedCreateThread_ok {s s' : Kernel} {ownerpid : Int} {noqueue : Bool} {entrypoint : ℕ}
    {r : Int} (h : schedCreateThread s ownerpid noqueue entrypoint = .ok (r, s')) :
    r = s.lastTid ∧ s.Spawned ownerpid noqueue s' := by
  unfold schedCreateThread at h
  split_ifs at h with hmax
  rw [growThreads_eq] at h
  simp only at h
  split_ifs at h with hcap
  simp only [bind_ok, Kernel.liveProcess_ok, Except.ok.injEq, Prod.mk.injEq, Prod.exists] at h
  obtain ⟨p, hp, stackpt, mem, -, p', hp', s₃, hs₃, h1, h2⟩ := h
  obtain ⟨hq, hs₃⟩ := enqueueNew_ok rfl hs₃
  refine ⟨h1.symm, hq, p, newThread p ownerpid s.lastTid entrypoint s.eflags stackpt,
    mem, hp, newThread_fresh .., ?_⟩
  rw [← addTid_ok hp', ← h2, hs₃]
  rfl

/-- A new thread has the privilege of its process. -/
theorem schedCreateThread_privilege {s s' : Kernel} {ownerpid : Int} {noqueue : Bool}
    {entrypoint : ℕ} {r : Int} (h : schedCreateThread s ownerpid noqueue entrypoint = .ok (r, s')) :
    ∃ p t, s.processes ownerpid = some p ∧ s'.threads s.lastTid = some t ∧
      t.privilegeLevel = p.privilegeLevel := by
  unfold schedCreateThread at h
  split_ifs at h with hmax
  rw [growThreads_eq] at h
  simp only at h
  split_ifs at h with hcap
  simp only [bind_ok, Kernel.liveProcess_ok, Except.ok.injEq, Prod.mk.injEq, Prod.exists] at h
  obtain ⟨p, hp, stackpt, mem, -, p', -, s₃, hs₃, -, rfl⟩ := h
  obtain ⟨-, rfl⟩ := enqueueNew_ok rfl hs₃
  exact ⟨p, _, hp, Function.update_self .., rfl⟩

/-- A frame or memory written after the creation does not matter. -/
theorem Kernel.Spawned.setFrame {s s₁ : Kernel} {pid : Int} {noqueue : Bool} {child : Thread}
    (h : s.Spawned pid noqueue s₁) (hc : s₁.threads s.lastTid = some child) (mem : Mem)
    (frame : Regs) : s.Spawned pid noqueue { s₁ with
      mem := mem
      threads := Function.update s₁.threads s.lastTid (some { child with frame := frame }) } := by
  obtain ⟨hq, p, t, mem', hp, ht, rfl⟩ := h
  obtain rfl : t = child := by simpa using hc
  refine ⟨hq, p, { t with frame := frame }, mem, hp,
    ⟨ht.pid, ht.state, ht.wait, ht.waitMsg, ht.stackpdi⟩, ?_⟩
  simp only [Function.update_idem]

/-- `sched_fork_thread` either changes nothing or creates a thread of the same process. -/
theorem schedForkThread_spawned {s s' : Kernel} {tid : Int} {regs : Regs} {r : Int}
    (h : schedForkThread s tid regs = .ok (r, s')) :
    s' = s ∧ r < 0 ∨
      r = s.lastTid ∧ ∃ t, s.threads tid = some t ∧ s.Spawned t.pid false s' := by
  unfold schedForkThread at h
  split_ifs at h with h1 h2
  · simp only [Except.ok.injEq, Prod.mk.injEq] at h
    exact .inl ⟨h.2.symm, by rw [← h.1]; decide⟩
  · simp only [Except.ok.injEq, Prod.mk.injEq] at h
    exact .inl ⟨h.2.symm, by rw [← h.1]; decide⟩
  · simp only [bind_ok] at h
    obtain ⟨t, ht, h⟩ := h
    rw [Kernel.threadAt_ok] at ht
    split_ifs at h with h3
    · simp only [Except.ok.injEq, Prod.mk.injEq] at h
      exact .inl ⟨h.2.symm, by rw [← h.1]; decide⟩
    · simp only [bind_ok, Except.ok.injEq, Prod.mk.injEq, Prod.exists, Kernel.threadAt_ok] at h
      obtain ⟨rv, s₁, hc, child, hchild, parent, -, p, -, mem, -, rfl, rfl⟩ := h
      obtain ⟨rfl, hs⟩ := schedCreateThread_ok hc
      exact .inr ⟨rfl, t, ht, hs.setFrame hchild mem _⟩

theorem schedForkThread_privilege {s s' : Kernel} {tid : Int} {regs : Regs} {r : Int}
    (h : schedForkThread s tid regs = .ok (r, s')) :
    s' = s ∨ ∃ t p child, s.threads tid = some t ∧ s.processes t.pid = some p ∧
      s'.threads s.lastTid = some child ∧ child.privilegeLevel = p.privilegeLevel := by
  unfold schedForkThread at h
  split_ifs at h with h1 h2
  · simp only [Except.ok.injEq, Prod.mk.injEq] at h
    exact .inl h.2.symm
  · simp only [Except.ok.injEq, Prod.mk.injEq] at h
    exact .inl h.2.symm
  · simp only [bind_ok] at h
    obtain ⟨t, ht, h⟩ := h
    rw [Kernel.threadAt_ok] at ht
    split_ifs at h with h3
    · simp only [Except.ok.injEq, Prod.mk.injEq] at h
      exact .inl h.2.symm
    · simp only [bind_ok, Except.ok.injEq, Prod.mk.injEq, Prod.exists, Kernel.threadAt_ok] at h
      obtain ⟨rv, s₁, hc, child, hchild, parent, -, q, -, mem, -, rfl, rfl⟩ := h
      obtain ⟨p, t', hp, ht', hpriv⟩ := schedCreateThread_privilege hc
      obtain ⟨rfl, -⟩ := schedCreateThread_ok hc
      obtain rfl := Option.some.inj (hchild.symm.trans ht')
      exact .inr ⟨t, p, _, ht, hp, Function.update_self .., hpriv⟩

theorem schedForkThread_ok {s s' : Kernel} {tid : Int} {regs : Regs} {r : Int}
    (h : schedForkThread s tid regs = .ok (r, s')) :
    s' = s ∧ r < 0 ∨ r = s.lastTid ∧ ∃ pid, s.Spawned pid false s' := by
  rcases schedForkThread_spawned h with hsame | ⟨hr, t, -, hspawn⟩
  · exact .inl hsame
  · exact .inr ⟨hr, t.pid, hspawn⟩

theorem inheritEnviron_fresh {s : Kernel} {p p' : Process} {pid : Int} {nodup : Bool}
    (h : inheritEnviron s p nodup = .ok p') (hp : p.Fresh pid) : p'.Fresh pid := by
  unfold inheritEnviron at h
  split_ifs at h with hn
  · obtain rfl := Except.ok.inj h
    exact ⟨hp.tids, hp.tidsSize, hp.pid, hp.state, hp.waitingThreads⟩
  · simp only [bind_ok] at h
    obtain ⟨cur, -, h⟩ := h
    cases hpwd : cur.pwd with
    | none => simp [hpwd] at h
    | some pwd =>
        simp only [hpwd, Except.ok.injEq] at h
        subst h
        exact ⟨hp.tids, hp.tidsSize, hp.pid, hp.state, hp.waitingThreads⟩

/-- `pload_create_process` refuses the image or creates a process and its first thread, which has
the privilege of the process. -/
theorem ploadCreateProcess_spawned {s s' : Kernel} {q : LoadRequest} {r : Int}
    (h : ploadCreateProcess s q = .ok (r, s')) :
    s' = s ∨ ∃ s₁ p t, s.Created s₁ ∧ s₁.Spawned s.lastPid false s' ∧
      s₁.processes s.lastPid = some p ∧ s'.threads s₁.lastTid = some t ∧
      t.privilegeLevel = p.privilegeLevel := by
  simp only [ploadCreateProcess, bind_ok] at h
  obtain ⟨elfvalid, -, h⟩ := h
  split_ifs at h with hv
  · simp only [Except.ok.injEq, Prod.mk.injEq] at h
    exact .inl h.2.symm
  · simp only [bind_ok, Prod.exists, Kernel.liveProcess_ok, Except.ok.injEq, Prod.mk.injEq] at h
    obtain ⟨pid, s₁, hcreate, p, hp, p₁, hp₁, tid, s₂, hthread, -, rfl⟩ := h
    obtain ⟨rfl, p₀, mem, hfresh, rfl⟩ := schedCreateProcess_ok hcreate
    obtain rfl : p₀ = p := by simpa using hp
    have hfresh₁ : p₁.Fresh s.lastPid := inheritEnviron_fresh hp₁
      ⟨hfresh.tids, hfresh.tidsSize, hfresh.pid, hfresh.state, hfresh.waitingThreads⟩
    obtain ⟨p₂, t, hp₂, ht, hpriv⟩ := schedCreateThread_privilege hthread
    refine .inr ⟨_, p₂, t, ⟨p₁, mem, hfresh₁, ?_⟩, (schedCreateThread_ok hthread).2, hp₂, ht, hpriv⟩
    simp only [Kernel.setProcess, Function.update_idem]

theorem ploadCreateProcess_ok {s s' : Kernel} {q : LoadRequest} {r : Int}
    (h : ploadCreateProcess s q = .ok (r, s')) :
    s' = s ∨ ∃ s₁, s.Created s₁ ∧ s₁.Spawned s.lastPid false s' := by
  rcases ploadCreateProcess_spawned h with hsame | ⟨s₁, p, t, hcreate, hspawn, -⟩
  · exact .inl hsame
  · exact .inr ⟨s₁, hcreate, hspawn⟩

/-! ### Exit and reaping -/

/-- The thread table with the threads `tids` marked dead. -/
def deadThreads (threads : Int → Option Thread) (tids : List Int) : Int → Option Thread :=
  fun i => if i ∈ tids then (threads i).map fun t => { t with state := .dead } else threads i

@[simp] theorem deadThreads_nil (threads : Int → Option Thread) :
    deadThreads threads [] = threads := by
  funext i
  simp [deadThreads]

theorem deadThreads_cons {threads : Int → Option Thread} {tid : Int} {t : Thread}
    (ht : threads tid = some t) (tids : List Int) :
    deadThreads (Function.update threads tid (some { t with state := .dead })) tids =
      deadThreads threads (tid :: tids) := by
  funext i
  by_cases hi : i = tid
  · subst hi
    simp [deadThreads, ht]
  · simp [deadThreads, hi]

theorem deadThreads_eq_none {threads : Int → Option Thread} {tids : List Int} {i : Int} :
    deadThreads threads tids i = none ↔ threads i = none := by
  unfold deadThreads
  split_ifs <;> simp

theorem markDead_ok : ∀ {tids : List Int} {s s' : Kernel}, markDead s tids = .ok s' →
    s' = { s with threads := deadThreads s.threads tids } ∧ ∀ tid ∈ tids, s.threads tid ≠ none
  | [], s, s', h => by
      obtain rfl := Except.ok.inj h
      exact ⟨by rw [deadThreads_nil], by simp⟩
  | tid :: tids, s, s', h => by
      unfold markDead at h
      obtain ⟨t, ht, h⟩ := bind_ok.mp h
      rw [Kernel.threadAt_ok] at ht
      obtain ⟨rfl, hnn⟩ := markDead_ok h
      refine ⟨by simp only [Kernel.setThread, deadThreads_cons ht], fun i hi => ?_⟩
      by_cases hi' : i = tid
      · simp [hi', ht]
      · have := hnn i (List.mem_of_ne_of_mem hi' hi)
        rwa [Kernel.setThread_threads, Function.update_of_ne hi'] at this

theorem freeProcess_ok {s s' : Kernel} {pid : Int} {p : Process}
    (h : freeProcess s pid p = .ok s') :
    ∃ mem, s' = { s with
      mem := mem, processes := Function.update s.processes pid none
      processesCount := s.processesCount - 1 } := by
  unfold freeProcess at h
  simp only [bind_ok, Except.ok.injEq] at h
  obtain ⟨m₂, -, h⟩ := h
  exact ⟨m₂, h.symm⟩

/-- What remains of a reaped process: nothing, or its record without threads. -/
def Process.reaped (p : Process) : Option Process :=
  if p.waitingThreads = 0 then none else some p.dropTids

theorem Process.reaped_eq_none {p : Process} : p.reaped = none ↔ p.waitingThreads = 0 := by
  unfold Process.reaped
  split_ifs with h0
  · simp [h0]
  · simp [h0]

theorem schedReapProcess_ok {s s' : Kernel} {pid : Int} (h : schedReapProcess s pid = .ok s') :
    s' = s ∧ (pid < 0 ∨ pid ≥ s.lastPid ∨ s.processes pid = none) ∨
    ∃ p mem, s.processes pid = some p ∧ (0 ≤ pid ∧ pid < s.lastPid) ∧
      (∀ tid ∈ p.tids, s.threads tid ≠ none) ∧
      s' = { s with
        mem := mem
        processesCount := if p.waitingThreads = 0 then s.processesCount - 1 else s.processesCount
        threads := deadThreads s.threads p.tids
        processes := Function.update s.processes pid p.reaped } := by
  unfold schedReapProcess at h
  split_ifs at h with hr
  · exact .inl ⟨(Except.ok.inj h).symm, by omega⟩
  · cases hp : s.processes pid with
    | none =>
        simp only [hp, Except.ok.injEq] at h
        exact .inl ⟨h.symm, .inr (.inr rfl)⟩
    | some p =>
        simp only [hp, bind_ok] at h
        obtain ⟨s₁, hm, h⟩ := h
        obtain ⟨rfl, hnn⟩ := markDead_ok hm
        refine .inr ⟨p, ?_⟩
        unfold Process.reaped
        split_ifs at h ⊢ with h0
        · obtain ⟨mem, rfl⟩ := freeProcess_ok h
          exact ⟨mem, rfl, by omega, hnn, rfl⟩
        · obtain rfl := Except.ok.inj h
          exact ⟨s.mem, rfl, by omega, hnn, rfl⟩

/-- The state after the process `pid` has been marked exiting and has been reaped. -/
def Kernel.endProcess (s : Kernel) (pid : Int) (p : Process) (exitcode : Int) (mem : Mem) : Kernel :=
  { s with
    mem := mem
    processesCount := if p.waitingThreads = 0 then s.processesCount - 1 else s.processesCount
    threads := deadThreads s.threads p.tids
    processes := Function.update s.processes pid
      (p.markExiting exitcode).reaped }

theorem reap_exiting_ok {s s' : Kernel} {pid : Int} {p : Process} {exitcode : Int}
    (hpid : 0 ≤ pid ∧ pid < s.lastPid)
    (h : schedReapProcess (s.setProcess pid (some (p.markExiting exitcode))) pid = .ok s') :
    ∃ mem, s' = s.endProcess pid p exitcode mem := by
  rcases schedReapProcess_ok h with ⟨-, hp | hp | hp⟩ | ⟨p', mem, hp, -, -, hs⟩
  · omega
  · simp only [Kernel.setProcess] at hp
    omega
  · simp at hp
  · obtain rfl : p.markExiting exitcode = p' := by simpa using hp
    refine ⟨mem, hs.trans ?_⟩
    simp only [Kernel.setProcess, Kernel.endProcess, Function.update_idem]
    rfl

/-- The slots of the tables hold processes and threads that know their place. -/
structure Tables (s : Kernel) : Prop where
  lastPid : 0 ≤ s.lastPid
  lastTid : 0 ≤ s.lastTid
  pid : ∀ pid p, s.processes pid = some p → p.pid = pid ∧ 0 ≤ pid ∧ pid < s.lastPid
  tid : ∀ tid t, s.threads tid = some t →
    (0 ≤ tid ∧ tid < s.lastTid) ∧ (0 ≤ t.pid ∧ t.pid < s.lastPid) ∧ t.stackpdi = 767

theorem schedExitProcess_current {s s' : Kernel} {exitcode r : Int} (hs : Tables s)
    (h : schedExitProcess s exitcode = .ok (r, s')) :
    ∃ pid p mem, s.currentps = some pid ∧ s.processes pid = some p ∧
      s' = s.endProcess pid p exitcode mem := by
  simp only [schedExitProcess, bind_ok, Kernel.currentProcess_ok, Except.ok.injEq,
    Prod.mk.injEq] at h
  obtain ⟨p, ⟨pid, hcur, hp⟩, s₂, hreap, -, rfl⟩ := h
  obtain ⟨hpid, hrange⟩ := hs.pid pid p hp
  rw [hpid] at hreap
  obtain ⟨mem, hmem⟩ := reap_exiting_ok hrange hreap
  exact ⟨pid, p, mem, hcur, hp, hmem⟩

theorem schedExitProcess_ok {s s' : Kernel} {exitcode r : Int} (hs : Tables s)
    (h : schedExitProcess s exitcode = .ok (r, s')) :
    ∃ pid p mem, s.processes pid = some p ∧ s' = s.endProcess pid p exitcode mem := by
  obtain ⟨pid, p, mem, -, hp, hmem⟩ := schedExitProcess_current hs h
  exact ⟨pid, p, mem, hp, hmem⟩

/-- A kill that is not refused ends another process of no lower privilege. -/
theorem schedKillProcess_killed {s s' : Kernel} {pid r : Int}
    (h : schedKillProcess s pid = .ok (r, s')) :
    s' = s ∧ r < 0 ∨ ∃ p cur mem, s.processes pid = some p ∧ s.currentProcess = .ok cur ∧
      pid ≠ cur.pid ∧ cur.privilegeLevel ≤ p.privilegeLevel ∧
      s' = s.endProcess pid p (cur.pid + 255) mem := by
  unfold schedKillProcess at h
  split_ifs at h with hr
  · simp only [Except.ok.injEq, Prod.mk.injEq] at h
    exact .inl ⟨h.2.symm, by rw [← h.1]; decide⟩
  · cases hp : s.processes pid with
    | none =>
        simp only [hp, Except.ok.injEq, Prod.mk.injEq] at h
        exact .inl ⟨h.2.symm, by rw [← h.1]; decide⟩
    | some p =>
        simp only [hp, bind_ok] at h
        obtain ⟨cur, hcur, h⟩ := h
        split_ifs at h with h1 h2
        · simp only [Except.ok.injEq, Prod.mk.injEq] at h
          exact .inl ⟨h.2.symm, by rw [← h.1]; decide⟩
        · simp only [Except.ok.injEq, Prod.mk.injEq] at h
          exact .inl ⟨h.2.symm, by rw [← h.1]; decide⟩
        · simp only [bind_ok, Except.ok.injEq, Prod.mk.injEq] at h
          obtain ⟨s₂, hreap, -, rfl⟩ := h
          obtain ⟨mem, hmem⟩ := reap_exiting_ok (by omega) hreap
          exact .inr ⟨p, cur, mem, rfl, hcur, h1, by omega, hmem⟩

theorem schedKillProcess_ok {s s' : Kernel} {pid r : Int} (h : schedKillProcess s pid = .ok (r, s')) :
    s' = s ∨ ∃ p exitcode mem, s.processes pid = some p ∧ s' = s.endProcess pid p exitcode mem := by
  rcases schedKillProcess_killed h with ⟨hsame, -⟩ | ⟨p, cur, mem, hp, -, -, -, hs⟩
  · exact .inl hsame
  · exact .inr ⟨p, cur.pid + 255, mem, hp, hs⟩

/-! ### Suspension and waiting -/

theorem schedExitThread_ok {s s' : Kernel} (h : schedExitThread s = .ok s') :
    ∃ t, s.threads s.currenttid = some t ∧
      s' = s.setThread s.currenttid (some { t with state := .exiting }) := by
  simp only [schedExitThread, bind_ok, Kernel.threadAt_ok, Except.ok.injEq] at h
  obtain ⟨t, ht, rfl⟩ := h
  exact ⟨t, ht, rfl⟩

theorem schedSuspendThread_ok {s s' : Kernel} {irq : ℕ} {tid : Int}
    (h : schedSuspendThread s irq tid = .ok s') :
    ∃ t, s.threads tid = some t ∧
      s' = s.setThread tid (some { t with wait := irq, state := .suspended }) := by
  simp only [schedSuspendThread, bind_ok, Kernel.threadAt_ok, Except.ok.injEq] at h
  obtain ⟨t, ht, rfl⟩ := h
  exact ⟨t, ht, rfl⟩

theorem interfaceWait_ok {s s' : Kernel} {name : CString} {tid r : Int}
    (h : interfaceWait s name tid = .ok (r, s')) :
    s' = s ∧ r < 0 ∨ r = 0 ∧ ∃ t addr, s.threads tid = some t ∧
      s' = s.setThread tid (some { t with state := .waiting, wait := 0, waitMsg := some addr }) := by
  unfold interfaceWait interfaceFind at h
  cases hf : s.intfaces.findIdx? (fun i => i.name = name) with
  | none =>
      simp only [hf, Except.ok.injEq, Prod.mk.injEq] at h
      exact .inl ⟨h.2.symm, by rw [← h.1]; decide⟩
  | some qid =>
      simp only [hf] at h
      cases hi : s.intfaces[qid]? with
      | none =>
          simp only [hi, Except.ok.injEq, Prod.mk.injEq] at h
          exact .inl ⟨h.2.symm, by rw [← h.1]; decide⟩
      | some i =>
          simp only [hi] at h
          cases ht : s.threads tid with
          | none => simp [ht] at h
          | some t =>
              simp only [ht, Except.ok.injEq, Prod.mk.injEq] at h
              exact .inr ⟨h.1.symm, t, i.addr, rfl, h.2.symm⟩

/-- The state after the current thread `t` has begun to wait for the process `pid`. -/
def Kernel.waited (s : Kernel) (pid : Int) (t : Thread) (p : Process) : Kernel :=
  { s with
    threads := Function.update s.threads s.currenttid
      (some { t with wait := pid, waitMsg := none, state := .waiting })
    processes := Function.update s.processes pid
      (some { p with waitingThreads := p.waitingThreads + 1 }) }

theorem schedWaitProcess_ok {s s' : Kernel} {pid r : Int}
    (h : schedWaitProcess s pid = .ok (r, s')) :
    s' = s ∧ r < 0 ∨ r = 0 ∧ ∃ t p, (0 ≤ pid ∧ pid < s.lastPid) ∧ s.processes pid = some p ∧
      s.threads s.currenttid = some t ∧ s' = s.waited pid t p := by
  unfold schedWaitProcess at h
  split_ifs at h with hr
  · simp only [Except.ok.injEq, Prod.mk.injEq] at h
    exact .inl ⟨h.2.symm, by rw [← h.1]; decide⟩
  · cases hp : s.processes pid with
    | none =>
        simp only [hp, Except.ok.injEq, Prod.mk.injEq] at h
        exact .inl ⟨h.2.symm, by rw [← h.1]; decide⟩
    | some p =>
        simp only [hp, bind_ok] at h
        obtain ⟨cur, -, h⟩ := h
        split_ifs at h with h1
        · simp only [Except.ok.injEq, Prod.mk.injEq] at h
          exact .inl ⟨h.2.symm, by rw [← h.1]; decide⟩
        · simp only [bind_ok, Kernel.threadAt_ok, Except.ok.injEq, Prod.mk.injEq] at h
          obtain ⟨t, ht, hr0, rfl⟩ := h
          exact .inr ⟨hr0.symm, t, p, by omega, rfl, ht, rfl⟩

/-! ### Calls outside the scheduler -/

/-- Moving the heap changes the break and nothing else of the process. -/
theorem brkMove_eq {p p' : Process} {m m' : Mem} {wantbrk realbrk r : ℕ}
    (h : brkMove p m wantbrk realbrk = .ok (r, p', m')) :
    ∃ brk pgbrk brkOffset, p' = { p with brk := brk, pgbrk := pgbrk, brkOffset := brkOffset } := by
  unfold brkMove at h
  split_ifs at h with hlt
  · simp only [brkGrow, bind_ok, Prod.exists] at h
    obtain ⟨failed, pgbrk, m₁, -, h⟩ := h
    split_ifs at h with hf
    · simp only [Except.ok.injEq, Prod.mk.injEq] at h
      exact ⟨p.brk, p.pgbrk, p.brkOffset, h.2.1.symm⟩
    · simp only [Except.ok.injEq, Prod.mk.injEq] at h
      exact ⟨_, _, _, h.2.1.symm⟩
  · simp only [brkShrink, Except.ok.injEq, Prod.mk.injEq] at h
    exact ⟨_, _, _, h.2.1.symm⟩

theorem schedSetbrkTrue_eq {p p' : Process} {m m' : Mem} {addr r : ℕ}
    (h : schedSetbrkTrue p m addr = .ok (r, p', m')) :
    ∃ brk pgbrk brkOffset, p' = { p with brk := brk, pgbrk := pgbrk, brkOffset := brkOffset } := by
  unfold schedSetbrkTrue at h
  simp only at h
  split_ifs at h
  all_goals try
    simp only [Except.ok.injEq, Prod.mk.injEq] at h
    exact ⟨_, p.pgbrk, p.brkOffset, h.2.1.symm⟩
  simp only [bind_ok, Prod.exists, Except.ok.injEq, Prod.mk.injEq] at h
  obtain ⟨r', p₁, m₁, hmove, -, rfl, -⟩ := h
  exact brkMove_eq hmove

/-- A relation between a process before and after a call that the break and the faults keep. -/
structure QuietRel (R : Process → Process → Prop) : Prop where
  refl : ∀ p, R p p
  setbrk : ∀ {p p' : Process} {m m' : Mem} {addr r : ℕ},
    schedSetbrkTrue p m addr = .ok (r, p', m') → R p p'
  procerr : ∀ (p : Process) (n : ℕ), R p { p with procerr := n }

theorem Process.Like.quietRel : QuietRel Process.Like := by
  refine ⟨.refl, fun h => ?_, fun _ _ => ⟨rfl, rfl, rfl, rfl, rfl, Iff.rfl⟩⟩
  obtain ⟨brk, pgbrk, brkOffset, rfl⟩ := schedSetbrkTrue_eq h
  exact ⟨rfl, rfl, rfl, rfl, rfl, Iff.rfl⟩

/-- `s'` is `s` but for memory, the interfaces and processes related by `R`. -/
def Kernel.QuietBy (R : Process → Process → Prop) (s s' : Kernel) : Prop :=
  ∃ mem processes intfaces size next, (∀ pid, Option.Rel R (s.processes pid) (processes pid)) ∧
    s' = { s with
      mem := mem, processes := processes
      intfaces := intfaces, intfacesSize := size, nextIntf := next }

section QuietBy

variable {R : Process → Process → Prop}

theorem QuietRel.same (hR : QuietRel R) (s : Kernel) : s.QuietBy R s :=
  ⟨s.mem, s.processes, s.intfaces, s.intfacesSize, s.nextIntf,
    fun _ => rel_refl hR.refl _, rfl⟩

theorem QuietRel.schedSetbrk (hR : QuietRel R) {s s' : Kernel} {addr : ℕ} {r : Int} (hs : Tables s)
    (h : schedSetbrk s addr = .ok (r, s')) : s.QuietBy R s' := by
  simp only [GalaxyOS.schedSetbrk, bind_ok, Kernel.currentProcess_ok, Prod.exists, Except.ok.injEq,
    Prod.mk.injEq] at h
  obtain ⟨p, ⟨pid, -, hp⟩, r', p', m', hbrk, -, rfl⟩ := h
  have hp' : s.processes p.pid = some p := by rwa [(hs.pid pid p hp).1]
  exact ⟨m', _, s.intfaces, s.intfacesSize, s.nextIntf,
    rel_update hR.refl hp' (hR.setbrk hbrk), rfl⟩

theorem QuietRel.schedUserFault (hR : QuietRel R) {s s' : Kernel} {eno errorcode cr2 : ℕ}
    (hs : Tables s) (h : schedUserFault s eno errorcode cr2 = .ok s') : s.QuietBy R s' := by
  simp only [GalaxyOS.schedUserFault, bind_ok] at h
  obtain ⟨t, -, h⟩ := h
  split_ifs at h with h1 h2
  · simp only [bind_ok, Prod.exists, Except.ok.injEq] at h
    obtain ⟨newpage, m₁, -, r, m₂, -, rfl⟩ := h
    exact ⟨m₂, s.processes, s.intfaces, s.intfacesSize, s.nextIntf,
      fun _ => rel_refl hR.refl _, rfl⟩
  · obtain rfl := Except.ok.inj h
    exact hR.same s
  · simp only [bind_ok, Kernel.currentProcess_ok, Except.ok.injEq] at h
    obtain ⟨p, ⟨pid, -, hp⟩, rfl⟩ := h
    have hp' : s.processes p.pid = some p := by rwa [(hs.pid pid p hp).1]
    exact ⟨s.mem, _, s.intfaces, s.intfacesSize, s.nextIntf,
      rel_update hR.refl hp' (hR.procerr p _), rfl⟩

end QuietBy

/-- `s'` is `s` but for the interfaces. -/
def Kernel.Interfaces (s s' : Kernel) : Prop :=
  ∃ intfaces size next, s' = { s with
    intfaces := intfaces, intfacesSize := size, nextIntf := next }

theorem Kernel.Interfaces.refl (s : Kernel) : s.Interfaces s :=
  ⟨s.intfaces, s.intfacesSize, s.nextIntf, rfl⟩

theorem Kernel.Interfaces.quietBy {R : Process → Process → Prop} (hR : QuietRel R) {s s' : Kernel}
    (h : s.Interfaces s') : s.QuietBy R s' := by
  obtain ⟨intfaces, size, next, rfl⟩ := h
  exact ⟨s.mem, s.processes, intfaces, size, next, fun _ => rel_refl hR.refl _, rfl⟩

theorem interfaceCreate_interfaces (s : Kernel) (name : CString) (pid : Int) (flags : ℕ) :
    s.Interfaces (interfaceCreate s name pid flags).2 := by
  unfold interfaceCreate
  split
  · exact .refl s
  · split_ifs
    · exact .refl s
    · exact ⟨_, _, _, rfl⟩

theorem Kernel.setInterface_interfaces (s : Kernel) (qid : ℕ) (i : Interface) :
    s.Interfaces (s.setInterface qid i) := ⟨_, s.intfacesSize, s.nextIntf, rfl⟩

theorem interfaceSend_interfaces (s : Kernel) (um : UserMem) (name : CString)
    (senderpid recvpid : Int) (buf size : ℕ) :
    s.Interfaces (interfaceSend s um name senderpid recvpid buf size).2.2 := by
  unfold interfaceSend
  repeat' split
  all_goals first | exact .refl s | exact s.setInterface_interfaces ..

theorem interfaceRecv_interfaces (s : Kernel) (um : UserMem) (name : CString) (recvpid : Int)
    (buf size sizeOut : ℕ) :
    s.Interfaces (interfaceRecv s um name recvpid buf size sizeOut).2.2 := by
  unfold interfaceRecv
  repeat' split
  all_goals first | exact .refl s | exact s.setInterface_interfaces ..

theorem interfaceDelete_eq (s : Kernel) (name : CString) (pid : Int) :
    (interfaceDelete s name pid).2 = s ∨ ∃ addr intfaces, (interfaceDelete s name pid).2 = { s with
      threads := fun i => (s.threads i).map (Thread.unwait addr), intfaces := intfaces } := by
  unfold interfaceDelete
  repeat' split
  all_goals first | exact .inl rfl | exact .inr ⟨_, _, rfl⟩

theorem noResult_ok {x : Except Fault Kernel} {s' : Kernel} {r : Int}
    (h : noResult x = .ok (r, s')) : x = .ok s' := by
  simp only [noResult, bind_ok, Except.ok.injEq, Prod.mk.injEq] at h
  obtain ⟨s, rfl, -, rfl⟩ := h
  rfl

theorem exec_pair {x : Int × Kernel} {s' : Kernel} {r : Int}
    (h : (.ok x : Except Fault (Int × Kernel)) = .ok (r, s')) : x.1 = r ∧ x.2 = s' := by
  obtain rfl := Except.ok.inj h
  exact ⟨rfl, rfl⟩

/-- The calls that leave the data of the scheduler alone. -/
def Call.quiet : Call → Bool
  | .interfaceCreate .. | .interfaceSend .. | .interfaceRecv .. | .setbrk .. | .userFault ..
  | .liballocAlloc .. | .liballocFree .. | .loadCr3 => true
  | _ => false

theorem exec_quietBy {R : Process → Process → Prop} (hR : QuietRel R) {s s' : Kernel} {c : Call}
    {r : Int} (hs : Tables s) (hc : c.quiet = true) (h : exec s c = .ok (r, s')) :
    s.QuietBy R s' := by
  have hmem : ∀ mem, s.QuietBy R { s with mem := mem } := fun mem =>
    ⟨mem, s.processes, s.intfaces, s.intfacesSize, s.nextIntf, fun _ => rel_refl hR.refl _, rfl⟩
  cases c with
  | interfaceCreate name pid flags =>
      exact (exec_pair h).2 ▸ (interfaceCreate_interfaces s name pid flags).quietBy hR
  | interfaceSend um name senderpid recvpid buf size =>
      exact (exec_pair h).2 ▸
        (interfaceSend_interfaces s um name senderpid recvpid buf size).quietBy hR
  | interfaceRecv um name recvpid buf size sizeOut =>
      exact (exec_pair h).2 ▸
        (interfaceRecv_interfaces s um name recvpid buf size sizeOut).quietBy hR
  | setbrk addr => exact hR.schedSetbrk hs h
  | userFault eno errorcode cr2 => exact hR.schedUserFault hs (noResult_ok h)
  | liballocAlloc pages =>
      simp only [exec, bind_ok, Prod.exists, Except.ok.injEq, Prod.mk.injEq] at h
      obtain ⟨addr, mem, -, -, rfl⟩ := h
      exact hmem mem
  | liballocFree addr pages =>
      obtain rfl := (exec_pair h).2
      exact hmem _
  | loadCr3 =>
      have h' := noResult_ok h
      simp only [loadThreadCr3, bind_ok, Except.ok.injEq] at h'
      obtain ⟨t, -, rfl⟩ := h'
      exact hmem _
  | _ => simp [Call.quiet] at hc

theorem exec_quiet {s s' : Kernel} {c : Call} {r : Int} (hs : Tables s) (hc : c.quiet = true)
    (h : exec s c = .ok (r, s')) : s.Quiet s' :=
  exec_quietBy Process.Like.quietRel hs hc h

end GalaxyOS
