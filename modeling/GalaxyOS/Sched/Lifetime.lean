import GalaxyOS.Sched.Tables

/-! # Which processes a call removes

A process is removed from the table when it is reaped and no thread waits for it: by the call that
ends it, or later by the scheduler, which resumes the last waiter.  `Call.FreesOnly closed` says,
of the state before each of these events, that the process which would be removed is one of
`closed`; `exec_census` follows the table through a call under this condition.

`Kernel.Census.round` is a round of the scheduler, `Kernel.Census.put` any other store to the table. -/

namespace GalaxyOS

open Transition

/-- From `s` to `s'` processes are added at the end of the table, and all that are removed are in
`closed`. -/
structure Kernel.Census (closed : Int → Prop) (s s' : Kernel) : Prop where
  lastPid : s.lastPid ≤ s'.lastPid
  kept : ∀ pid, pid < s.lastPid → s'.processes pid ≠ none → s.processes pid ≠ none
  freed : ∀ pid, s.processes pid ≠ none → s'.processes pid = none → closed pid

variable {closed : Int → Prop} {s s' s'' : Kernel}

theorem Kernel.Census.refl (s : Kernel) : s.Census closed s :=
  ⟨Int.le_refl _, fun _ _ h => h, fun _ h h' => absurd h' h⟩

theorem Kernel.Census.trans (h : s.Census closed s') (h' : s'.Census closed s'') :
    s.Census closed s'' := by
  refine ⟨Int.le_trans h.lastPid h'.lastPid, fun pid hlt hp => ?_, fun pid hp hp'' => ?_⟩
  · exact h.kept pid hlt (h'.kept pid (Int.lt_of_lt_of_le hlt h.lastPid) hp)
  · by_cases hp' : s'.processes pid = none
    · exact h.freed pid hp hp'
    · exact h'.freed pid hp' hp''

/-- If the round resumes the last thread that waits for an exited process, that process is in
`closed`. -/
def RoundFrees (closed : Int → Prop) (st : Kernel × Bool) : Prop :=
  ∀ t, st.1.threads (pickFetch st.1 st.2).1 = some t → t.state = .waiting → t.waitMsg = none →
    ∀ p, st.1.processes t.wait = some p → p.tids = [] → p.waitingThreads = 1 → closed t.wait

/-- Whatever process the call removes is in `closed`: one that it ends while nobody waits for it,
or one whose last waiter it resumes. -/
def Call.FreesOnly (closed : Int → Prop) (s : Kernel) (c : Call) : Prop :=
  (match c with
  | .exitProcess _ => ∀ pid, s.currentps = some pid → ∀ p, s.processes pid = some p →
      p.waitingThreads = 0 → closed pid
  | .killProcess pid => ∀ p, s.processes pid = some p → ∀ cur, s.currentProcess = .ok cur →
      pid ≠ cur.pid → cur.privilegeLevel ≤ p.privilegeLevel → p.waitingThreads = 0 → closed pid
  | _ => True) ∧ c.Rounds (RoundFrees closed) s

/-! ### The steps of the table -/

theorem Kernel.Census.same (hlast : s'.lastPid = s.lastPid) (hproc : s'.processes = s.processes) :
    s.Census closed s' := by
  refine ⟨by omega, fun pid _ hp => ?_, fun pid hp hp' => ?_⟩
  · rwa [hproc] at hp
  · rw [hproc] at hp'
    exact absurd hp' hp

theorem Kernel.Census.like (hlast : s'.lastPid = s.lastPid)
    (hl : LikeTable s.processes s'.processes) : s.Census closed s' := by
  refine ⟨by omega, fun pid _ hp hnone => ?_, fun pid hp hp' => ?_⟩
  · exact hp (hl.eq_none.mpr hnone)
  · exact absurd (hl.eq_none.mp hp') hp

/-- One slot in use is stored to. -/
theorem Kernel.Census.put {pid : Int} {p : Process} {o : Option Process}
    (hlast : s'.lastPid = s.lastPid) (hp : s.processes pid = some p)
    (hproc : s'.processes = Function.update s.processes pid o) (ho : o = none → closed pid) :
    s.Census closed s' := by
  refine ⟨by omega, fun i _ hi => ?_, fun i hi hi' => ?_⟩
  · by_cases heq : i = pid
    · rw [heq, hp]
      exact Option.some_ne_none p
    · rwa [hproc, Function.update_of_ne heq] at hi
  · rw [hproc] at hi'
    by_cases heq : i = pid
    · subst heq
      rw [Function.update_self] at hi'
      exact ho hi'
    · rw [Function.update_of_ne heq] at hi'
      exact absurd hi' hi

theorem Kernel.Census.dropped (hlast : s'.lastPid = s.lastPid) {wait : Int}
    (hproc : s'.processes = droppedWaiter s.processes wait) : s.Census closed s' := by
  unfold droppedWaiter at hproc
  split_ifs at hproc with h0
  · exact .same hlast hproc
  · cases hp : s.processes wait with
    | none =>
        rw [hp, Option.map_none, Function.update_eq_self_iff.mpr hp.symm] at hproc
        exact .same hlast hproc
    | some p =>
        rw [hp] at hproc
        exact .put hlast hp hproc fun h => (by cases h)

theorem Kernel.Census.created (hc : s.Created s') : s.Census closed s' := by
  obtain ⟨p, mem, -, rfl⟩ := hc
  refine ⟨by simp only; omega, fun pid hlt hp => ?_, fun pid hp hp' => ?_⟩
  · simp only at hp
    rwa [Function.update_of_ne (by omega)] at hp
  · simp only at hp'
    by_cases hi : pid = s.lastPid
    · subst hi
      simp at hp'
    · rw [Function.update_of_ne hi] at hp'
      exact absurd hp' hp

theorem Kernel.Census.spawned {pid : Int} {noqueue : Bool} (h : s.Spawned pid noqueue s') :
    s.Census closed s' := by
  obtain ⟨-, p, t, mem, hp, -, rfl⟩ := h
  exact .put rfl hp rfl fun h => (by cases h)

theorem Kernel.Census.ended {pid : Int} {p : Process} {exitcode : Int} {mem : Mem}
    (hp : s.processes pid = some p) (h : p.waitingThreads = 0 → closed pid) :
    s.Census closed (s.endProcess pid p exitcode mem) :=
  .put rfl hp rfl fun hnone => h (show (p.markExiting exitcode).waitingThreads = 0 from
    Process.reaped_eq_none.mp hnone)

/-- A round removes only what `RoundFrees` allows. -/
theorem Kernel.Census.round {s₂ : Kernel} {loop : Bool} (hC : RoundFrees closed (s, loop))
    (h : pickDispatch (pickFetch s loop).2.1 (pickFetch s loop).1 = .ok s₂) :
    s.Census closed s₂ := by
  obtain ⟨t, ht, -, heff⟩ := pickDispatch_ok h
  have hC := hC t
  generalize (pickFetch s loop).1 = tid at *
  obtain ⟨l, hl⟩ := pickFetch_eq s loop
  rw [hl] at ht heff
  cases heff with
  | select mem hstate => exact .same rfl rfl
  | skip => exact .same rfl rfl
  | message addr hstate hmsg => exact .same rfl rfl
  | stale hstate hmsg hw => exact .same rfl rfl
  | resume p mem frame hstate hmsg hrange hp hno =>
      refine .put rfl hp rfl fun hnone => hC ht hstate hmsg p hp hno ?_
      have h0 : p.waitingThreads - 1 = 0 := Process.reaped_eq_none.mp hnone
      omega
  | start hstate => exact .same rfl rfl
  | load p p' t' mem kmode hstate hp hlike hloaded => exact .like rfl (.update hp hlike)
  | exit hstate => exact .same rfl rfl
  | dead hstate hw hq => exact .dropped rfl rfl

/-- A call removes only what `FreesOnly` allows. -/
theorem exec_census {c : Call} {r : Int} (hs : Tables s) (hc : c.FreesOnly closed s)
    (h : exec s c = .ok (r, s')) : s.Census closed s' := by
  cases c with
  | createProcess privilege name => exact .created (schedCreateProcess_ok h).2
  | createThread ownerpid noqueue entrypoint => exact .spawned (schedCreateThread_ok h).2
  | forkThread tid regs =>
      rcases schedForkThread_ok h with ⟨rfl, -⟩ | ⟨-, pid, hspawn⟩
      · exact .refl _
      · exact .spawned hspawn
  | loadProcess q =>
      rcases ploadCreateProcess_ok h with rfl | ⟨s₁, hcreate, hspawn⟩
      · exact .refl _
      · exact (Kernel.Census.created hcreate).trans (.spawned hspawn)
  | exitThread =>
      obtain ⟨t, ht, rfl⟩ := schedExitThread_ok (noResult_ok h)
      exact .same rfl rfl
  | exitProcess exitcode =>
      obtain ⟨pid, p, mem, hcur, hp, rfl⟩ := schedExitProcess_current hs h
      exact .ended hp fun h0 => hc.1 pid hcur p hp h0
  | killProcess pid =>
      rcases schedKillProcess_killed h with ⟨rfl, -⟩ | ⟨p, cur, mem, hp, hcur, hne, hpriv, rfl⟩
      · exact .refl _
      · exact .ended hp fun h0 => hc.1 p hp cur hcur hne hpriv h0
  | suspendThread irq tid =>
      obtain ⟨t, ht, rfl⟩ := schedSuspendThread_ok (noResult_ok h)
      exact .same rfl rfl
  | checkSuspended irq =>
      obtain rfl : schedCheckSuspendedThreads s irq = s' := (exec_pair h).2
      exact .same rfl rfl
  | waitProcess pid =>
      rcases schedWaitProcess_ok h with ⟨rfl, -⟩ | ⟨-, t, p, -, hp, ht, rfl⟩
      · exact .refl _
      · exact .put rfl hp rfl fun h => (by cases h)
  | pickNext =>
      refine schedPickNext_inv (I := fun s₁ => s.Census closed s₁) (.same rfl rfl) ?_ hc.2
        (noResult_ok h)
      intro s₁ loop s₂ hI hC hd
      exact hI.trans (.round hC hd)
  | interfaceDelete name pid =>
      obtain rfl := (exec_pair h).2
      rcases interfaceDelete_eq s name pid with hd | ⟨addr, intfaces, hd⟩
      · rw [hd]
        exact .refl s
      · rw [hd]
        exact .same rfl rfl
  | interfaceWait name tid =>
      rcases interfaceWait_ok h with ⟨rfl, -⟩ | ⟨-, t, addr, ht, rfl⟩
      · exact .refl _
      · exact .same rfl rfl
  | _ =>
      obtain ⟨mem, processes, intfaces, size, next, hl, rfl⟩ := exec_quiet hs rfl h
      exact .like rfl hl

theorem Call.freesOnly_true (s : Kernel) (c : Call) : c.FreesOnly (fun _ => True) s := by
  constructor
  · cases c <;> simp
  · cases c with
    | pickNext => exact (heads_true _ _).mono fun _ _ _ _ _ _ _ _ _ _ => trivial
    | _ => trivial

theorem Call.FreesOnly.mono {closed' : Int → Prop} {c : Call} (h : c.FreesOnly closed s)
    (hcl : ∀ pid, closed pid → closed' pid) : c.FreesOnly closed' s := by
  refine ⟨?_, ?_⟩
  · cases c with
    | exitProcess exitcode => exact fun pid hcur p hp h0 => hcl pid (h.1 pid hcur p hp h0)
    | killProcess pid =>
        exact fun p hp cur hcur hne hpriv h0 => hcl pid (h.1 p hp cur hcur hne hpriv h0)
    | _ => trivial
  · cases c with
    | pickNext =>
        exact Heads.mono (fun st hst t ht hw hm p hp hno h1 => hcl _ (hst t ht hw hm p hp hno h1)) h.2
    | _ => trivial

end GalaxyOS
