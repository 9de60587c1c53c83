import GalaxyOS.Sched.Tables

/-! # The thread lists of processes

`tids[0 .. threadcount)` of a process that is not exiting should list exactly its threads.  The
lists grow in `sched_create_thread` and are dropped as a whole by `sched_reap_process`; the branch
of `sched_pick_next` that frees a dead thread does not touch them.  A thread that ended with
`sched_exit_thread` is therefore freed while its id stays in the list, and the reaper of its
process writes through a null pointer later.

`RemovalOk` says that this branch is only taken for threads whose process has exited.  In a run
that meets it every list is exact.

`threadLists_exact` is this statement, `ListsInv.round` its step for the scheduler, and
`threadLists_stale` a run that does not meet the condition. -/

namespace GalaxyOS

open Transition

/-- The lists of all processes that are not exiting are exact, no list of any process has an entry
that has been freed, and a process without threads has an empty list. -/
structure ListsExact (s : Kernel) : Prop where
  nodup : ∀ pid p, s.processes pid = some p → p.state ≠ .exiting → p.tids.Nodup
  exact : ∀ pid p, s.processes pid = some p → p.state ≠ .exiting →
    ∀ tid, tid ∈ p.tids ↔ ∃ t, s.threads tid = some t ∧ t.pid = pid
  reapable : ∀ pid p, s.processes pid = some p → ∀ tid ∈ p.tids, s.threads tid ≠ none
  released : ∀ pid p, s.processes pid = some p →
    (∀ tid t, s.threads tid = some t → t.pid ≠ pid) → p.threadcount = 0

/-- If the round frees a dead thread, then the process of the thread is gone or exiting. -/
def RemovalOk (st : Kernel × Bool) : Prop :=
  ∀ t, st.1.threads (pickFetch st.1 st.2).1 = some t → t.state = .dead →
    ∀ p, st.1.processes t.pid = some p → p.state = .exiting

instance (st : Kernel × Bool) : Decidable (RemovalOk st) := by
  unfold RemovalOk
  infer_instance

/-- The scheduler removes only threads of exited processes. -/
def Call.RemovesOk (s : Kernel) (c : Call) : Prop := c.Rounds RemovalOk s

instance : DecidableRel Call.RemovesOk := fun s c => Call.Rounds.decidable s c

/-! ### The invariant -/

structure ListsInv (s : Kernel) : Prop where
  nodup : ∀ pid p, s.processes pid = some p → p.tids.Nodup
  listed : ∀ pid p, s.processes pid = some p → ∀ tid ∈ p.tids,
    ∃ t, s.threads tid = some t ∧ t.pid = pid ∧ (p.state = .exiting → t.state ≠ .dead)
  complete : ∀ pid p, s.processes pid = some p → p.state ≠ .exiting →
    ∀ tid t, s.threads tid = some t → t.pid = pid → tid ∈ p.tids

theorem ListsInv.exact {s : Kernel} (h : ListsInv s) : ListsExact s := by
  refine ⟨fun pid p hp _ => h.nodup pid p hp, ?_, ?_, ?_⟩
  · intro pid p hp hstate tid
    constructor
    · intro htid
      obtain ⟨t, ht, hpid, -⟩ := h.listed pid p hp tid htid
      exact ⟨t, ht, hpid⟩
    · rintro ⟨t, ht, hpid⟩
      exact h.complete pid p hp hstate tid t ht hpid
  · intro pid p hp tid htid
    obtain ⟨t, ht, -⟩ := h.listed pid p hp tid htid
    simp [ht]
  · intro pid p hp hno
    by_contra hne
    obtain ⟨tid, htid⟩ := List.exists_mem_of_ne_nil p.tids fun hc => hne (by
      rw [Process.threadcount, hc, List.length_nil])
    obtain ⟨t, ht, hpid, -⟩ := h.listed pid p hp tid htid
    exact hno tid t ht hpid

/-! ### Steps that change no list -/

/-- A process keeps its list and whether it is exiting. -/
def Process.SameList (p p' : Process) : Prop :=
  p'.tids = p.tids ∧ (p'.state = .exiting ↔ p.state = .exiting)

/-- A thread keeps its process, and dies only if this process is not exiting. -/
def Kernel.MayBecome (s : Kernel) (t t' : Thread) : Prop :=
  t'.pid = t.pid ∧ (t'.state = .dead →
    t.state = .dead ∨ ∀ p, s.processes t.pid = some p → p.state ≠ .exiting)

theorem Kernel.MayBecome.of_alive {s : Kernel} {t t' : Thread} (hpid : t'.pid = t.pid)
    (hstate : t'.state ≠ .dead) : s.MayBecome t t' := ⟨hpid, fun hd => absurd hd hstate⟩

theorem Kernel.MayBecome.of_same {s : Kernel} {t t' : Thread} (hpid : t'.pid = t.pid)
    (hstate : t'.state = t.state) : s.MayBecome t t' := ⟨hpid, fun hd => .inl (hstate ▸ hd)⟩

/-- No thread enters or leaves the table. -/
def Kernel.ThreadsBecome (s : Kernel) (ts : Int → Option Thread) : Prop :=
  ∀ tid, Option.Rel s.MayBecome (s.threads tid) (ts tid)

theorem Kernel.ThreadsBecome.refl (s : Kernel) : s.ThreadsBecome s.threads := fun tid => by
  cases s.threads tid with
  | none => exact .none
  | some t => exact .some (.of_same rfl rfl)

theorem Kernel.ThreadsBecome.update {s : Kernel} {tid : Int} {t t' : Thread}
    (ht : s.threads tid = some t) (h : s.MayBecome t t') :
    s.ThreadsBecome (Function.update s.threads tid (some t')) := fun i => by
  by_cases hi : i = tid
  · subst hi
    rw [Function.update_self, ht]
    exact .some h
  · rw [Function.update_of_ne hi]
    exact Kernel.ThreadsBecome.refl s i

theorem Kernel.ThreadsBecome.map {s : Kernel} {f : Thread → Thread}
    (h : ∀ t, s.MayBecome t (f t)) : s.ThreadsBecome (fun i => (s.threads i).map f) := fun i => by
  simp only
  cases s.threads i with
  | none => exact .none
  | some t => exact .some (h t)

/-- Nothing enters or leaves a list, and threads of exiting processes do not die. -/
structure Kernel.SameLists (s s' : Kernel) : Prop where
  processes : ∀ pid p', s'.processes pid = some p' → ∃ p, s.processes pid = some p ∧ p.SameList p'
  threads : s.ThreadsBecome s'.threads

theorem ListsInv.same {s s' : Kernel} (h : ListsInv s) (hs : s.SameLists s') : ListsInv s' := by
  refine ⟨?_, ?_, ?_⟩
  · intro pid p' hp'
    obtain ⟨p, hp, htids, -⟩ := hs.processes pid p' hp'
    rw [htids]
    exact h.nodup pid p hp
  · intro pid p' hp' tid htid
    obtain ⟨p, hp, htids, hexit⟩ := hs.processes pid p' hp'
    rw [htids] at htid
    obtain ⟨t, ht, hpid, hdead⟩ := h.listed pid p hp tid htid
    have hrel := hs.threads tid
    rw [ht] at hrel
    generalize s'.threads tid = o at hrel
    obtain ⟨hpid', hdead'⟩ := hrel
    refine ⟨_, rfl, hpid'.trans hpid, fun hx hd => ?_⟩
    rcases hdead' hd with hd' | hp'
    · exact hdead (hexit.mp hx) hd'
    · exact hp' p (hpid ▸ hp) (hexit.mp hx)
  · intro pid p' hp' hstate tid t' ht' hpid'
    obtain ⟨p, hp, htids, hexit⟩ := hs.processes pid p' hp'
    have hrel := hs.threads tid
    rw [ht'] at hrel
    generalize ht : s.threads tid = o at hrel
    obtain ⟨hpid, -⟩ := hrel
    rw [htids]
    exact h.complete pid p hp (fun hc => hstate (hexit.mpr hc)) tid _ ht (hpid.symm.trans hpid')

theorem Process.SameList.refl (p : Process) : p.SameList p := ⟨rfl, Iff.rfl⟩

theorem sameList_refl (ps : Int → Option Process) :
    ∀ pid p', ps pid = some p' → ∃ p, ps pid = some p ∧ p.SameList p' :=
  fun _ p h => ⟨p, h, .refl p⟩

theorem sameList_like {ps ps' : Int → Option Process} (h : LikeTable ps ps') :
    ∀ pid p', ps' pid = some p' → ∃ p, ps pid = some p ∧ p.SameList p' := fun _ _ hp' => by
  obtain ⟨p, hp, hl⟩ := h.of_some hp'
  exact ⟨p, hp, hl.tids, hl.exiting⟩

theorem sameList_update {ps : Int → Option Process} {pid : Int} {p : Process} {o : Option Process}
    (hp : ps pid = some p) (ho : ∀ p' ∈ o, p.SameList p') :
    ∀ i p', Function.update ps pid o i = some p' → ∃ p, ps i = some p ∧ p.SameList p' := by
  intro i p' h
  by_cases hi : i = pid
  · subst hi
    rw [Function.update_self] at h
    exact ⟨p, hp, ho p' h⟩
  · rw [Function.update_of_ne hi] at h
    exact ⟨p', h, .refl p'⟩

theorem sameList_dropped (ps : Int → Option Process) (wait : Int) :
    ∀ i p', droppedWaiter ps wait i = some p' → ∃ p, ps i = some p ∧ p.SameList p' := by
  unfold droppedWaiter
  split_ifs with h0
  · exact sameList_refl ps
  · cases hp : ps wait with
    | none =>
        rw [Option.map_none, Function.update_eq_self_iff.mpr hp.symm]
        exact sameList_refl ps
    | some p =>
        refine sameList_update hp fun p' h => ?_
        obtain rfl : { p with waitingThreads := p.waitingThreads - 1 } = p' := by simpa using h
        exact ⟨rfl, Iff.rfl⟩

theorem Process.reaped_sameList {p p' : Process} (hno : p.tids = []) (h : p' ∈ p.reaped) :
    p.SameList p' := by
  unfold Process.reaped Process.dropTids at h
  rw [if_pos hno] at h
  split_ifs at h
  · simp at h
  · obtain rfl : p = p' := by simpa using h
    exact .refl p

theorem Kernel.Quiet.sameLists {s s' : Kernel} (h : s.Quiet s') : s.SameLists s' := by
  obtain ⟨mem, processes, intfaces, size, next, hl, rfl⟩ := h
  exact ⟨sameList_like hl, .refl s⟩

theorem Kernel.setThread_sameLists {s : Kernel} {tid : Int} {t t' : Thread}
    (ht : s.threads tid = some t) (h : s.MayBecome t t') :
    s.SameLists (s.setThread tid (some t')) := ⟨sameList_refl s.processes, .update ht h⟩

theorem Kernel.waited_sameLists {s : Kernel} {pid : Int} {t : Thread} {p : Process}
    (ht : s.threads s.currenttid = some t) (hp : s.processes pid = some p) :
    s.SameLists (s.waited pid t p) := by
  refine ⟨sameList_update hp fun p' h => ?_, .update ht (.of_alive rfl (by simp))⟩
  obtain rfl : { p with waitingThreads := p.waitingThreads + 1 } = p' := by simpa using h
  exact ⟨rfl, Iff.rfl⟩

/-- Every round but the one that frees a thread leaves the lists alone. -/
theorem PickEffect.sameLists {s s' : Kernel} {tid : Int} {t : Thread} (ht : s.threads tid = some t)
    (hproc : t.state ≠ .dead → ∃ p, s.processes t.pid = some p ∧ p.state ≠ .exiting)
    (h : PickEffect s tid t s') (hd : t.state ≠ .dead) : s.SameLists s' := by
  cases h with
  | select mem hstate => exact ⟨sameList_refl s.processes, .refl s⟩
  | skip => exact ⟨sameList_refl s.processes, .refl s⟩
  | message addr hstate hmsg => exact Kernel.setThread_sameLists ht (.of_alive rfl (by simp))
  | stale hstate hmsg hw => exact Kernel.setThread_sameLists ht (.of_alive rfl (by simp))
  | resume p mem frame hstate hmsg hrange hp hno =>
      refine ⟨sameList_update hp fun p' h => ?_, .update ht (.of_alive rfl (by simp))⟩
      have hsame := Process.reaped_sameList (p := { p with waitingThreads := p.waitingThreads - 1 })
        hno h
      exact hsame
  | start hstate => exact Kernel.setThread_sameLists ht (.of_alive rfl (by simp))
  | load p p' t' mem kmode hstate hp hl hl' =>
      refine ⟨sameList_like (.update hp hl), .update ht ?_⟩
      rcases hl' with rfl | ⟨frame, rfl⟩
      · exact .of_same rfl rfl
      · exact .of_alive rfl (by simp)
  | exit hstate =>
      obtain ⟨p, hp, hne⟩ := hproc hd
      refine Kernel.setThread_sameLists ht ⟨rfl, fun _ => .inr fun q hq => ?_⟩
      rw [hp] at hq
      exact Option.some.inj hq ▸ hne
  | dead hstate hw hq => exact absurd hstate hd

/-! ### Steps that change a list -/

theorem ListsInv.created {s s' : Kernel} (hs : Tables s) (h : ListsInv s) (hc : s.Created s') :
    ListsInv s' := by
  obtain ⟨p₀, mem, hfresh, rfl⟩ := hc
  refine ⟨?_, ?_, ?_⟩
  · intro pid p hp
    by_cases hi : pid = s.lastPid
    · obtain rfl : p₀ = p := by simpa [hi] using hp
      simp [hfresh.tids]
    · simp only [Function.update_of_ne hi] at hp
      exact h.nodup pid p hp
  · intro pid p hp tid htid
    by_cases hi : pid = s.lastPid
    · obtain rfl : p₀ = p := by simpa [hi] using hp
      simp [hfresh.tids] at htid
    · simp only [Function.update_of_ne hi] at hp
      exact h.listed pid p hp tid htid
  · intro pid p hp hstate tid t ht hpid
    by_cases hi : pid = s.lastPid
    · have hlt := (hs.tid tid t ht).2.1.2
      omega
    · simp only [Function.update_of_ne hi] at hp
      exact h.complete pid p hp hstate tid t ht hpid

theorem ListsInv.spawned {s s' : Kernel} {pid : Int} {noqueue : Bool} (hs : Tables s)
    (h : ListsInv s) (hc : s.Spawned pid noqueue s') : ListsInv s' := by
  obtain ⟨-, p₀, t₀, mem, hp₀, hfresh, rfl⟩ := hc
  have hnew := hs.fresh_tid
  have hold : ∀ tid t, s.threads tid = some t →
      Function.update s.threads s.lastTid (some t₀) tid = some t := by
    intro tid t ht
    have hne : tid ≠ s.lastTid := by
      rintro rfl
      rw [hnew] at ht
      cases ht
    rw [Function.update_of_ne hne, ht]
  have hnot : ∀ i p, s.processes i = some p → s.lastTid ∉ p.tids := by
    intro i p hp hmem
    obtain ⟨t, ht, -⟩ := h.listed i p hp _ hmem
    rw [hnew] at ht
    cases ht
  refine ⟨?_, ?_, ?_⟩
  · intro i p hp
    by_cases hi : i = pid
    · simp only [hi, Function.update_self, Option.some.injEq] at hp
      subst hp
      refine List.nodup_append.mpr ⟨h.nodup pid p₀ hp₀, by simp, ?_⟩
      rintro a ha b hb rfl
      exact hnot pid p₀ hp₀ (List.mem_singleton.mp hb ▸ ha)
    · simp only [Function.update_of_ne hi] at hp
      exact h.nodup i p hp
  · intro i p hp tid htid
    by_cases hi : i = pid
    · simp only [hi, Function.update_self, Option.some.injEq] at hp
      subst hp
      rcases List.mem_append.mp htid with hmem | hmem
      · obtain ⟨t, ht, hpid, hdead⟩ := h.listed pid p₀ hp₀ tid hmem
        exact ⟨t, hold tid t ht, hpid.trans hi.symm, hdead⟩
      · obtain rfl := List.mem_singleton.mp hmem
        exact ⟨t₀, Function.update_self .., hfresh.pid.trans hi.symm, fun _ => by
          simp [hfresh.state]⟩
    · simp only [Function.update_of_ne hi] at hp
      obtain ⟨t, ht, hrest⟩ := h.listed i p hp tid htid
      exact ⟨t, hold tid t ht, hrest⟩
  · intro i p hp hstate tid t ht hpid
    by_cases hi : i = pid
    · simp only [hi, Function.update_self, Option.some.injEq] at hp
      subst hp
      by_cases htid : tid = s.lastTid
      · simp [htid]
      · simp only [Function.update_of_ne htid] at ht
        exact List.mem_append_left _ (h.complete pid p₀ hp₀ hstate tid t ht (hpid.trans hi))
    · simp only [Function.update_of_ne hi] at hp
      by_cases htid : tid = s.lastTid
      · simp only [htid, Function.update_self, Option.some.injEq] at ht
        subst ht
        exact absurd (hpid.symm.trans hfresh.pid) hi
      · simp only [Function.update_of_ne htid] at ht
        exact h.complete i p hp hstate tid t ht hpid

theorem ListsInv.ended {s : Kernel} {pid : Int} {p₀ : Process} (h : ListsInv s)
    (hp₀ : s.processes pid = some p₀) (exitcode : Int) (mem : Mem) :
    ListsInv (s.endProcess pid p₀ exitcode mem) := by
  have hgone : ∀ p, (s.endProcess pid p₀ exitcode mem).processes pid = some p →
      p.tids = [] ∧ p.state = .exiting := by
    intro p hp
    simp only [Kernel.endProcess, Function.update_self, Process.reaped] at hp
    split_ifs at hp
    obtain rfl := Option.some.inj hp
    unfold Process.dropTids
    split_ifs with hno
    · exact ⟨hno, rfl⟩
    · exact ⟨rfl, rfl⟩
  have hother : ∀ i, i ≠ pid → (s.endProcess pid p₀ exitcode mem).processes i = s.processes i :=
    fun i hi => Function.update_of_ne hi _ _
  refine ⟨?_, ?_, ?_⟩
  · intro i p hp
    by_cases hi : i = pid
    · subst hi
      rw [(hgone p hp).1]
      exact List.nodup_nil
    · rw [hother i hi] at hp
      exact h.nodup i p hp
  · intro i p hp tid htid
    by_cases hi : i = pid
    · subst hi
      rw [(hgone p hp).1] at htid
      cases htid
    · rw [hother i hi] at hp
      obtain ⟨t, ht, hpid, hdead⟩ := h.listed i p hp tid htid
      refine ⟨t, ?_, hpid, hdead⟩
      have hnot : tid ∉ p₀.tids := by
        intro hmem
        obtain ⟨t', ht', hpid', -⟩ := h.listed pid p₀ hp₀ tid hmem
        rw [ht] at ht'
        obtain rfl := Option.some.inj ht'
        exact hi (hpid.symm.trans hpid')
      simp only [Kernel.endProcess, deadThreads, if_neg hnot, ht]
  · intro i p hp hstate tid t' ht' hpid'
    by_cases hi : i = pid
    · subst hi
      exact absurd (hgone p hp).2 hstate
    · rw [hother i hi] at hp
      obtain ⟨t, ht, hpid, -⟩ := KeptThreads.dead s.threads p₀.tids tid t' ht'
      exact h.complete i p hp hstate tid t ht (hpid.symm.trans hpid')

theorem ListsInv.freed {s : Kernel} {tid₀ : Int} {t₀ : Thread} (h : ListsInv s)
    (ht₀ : s.threads tid₀ = some t₀) (hdead : t₀.state = .dead)
    (hok : ∀ p, s.processes t₀.pid = some p → p.state = .exiting) :
    ListsInv (s.freed tid₀ t₀) := by
  have hps := sameList_dropped s.processes t₀.wait
  refine ⟨?_, ?_, ?_⟩
  · intro pid p' hp'
    obtain ⟨p, hp, htids, -⟩ := hps pid p' hp'
    rw [htids]
    exact h.nodup pid p hp
  · intro pid p' hp' tid htid
    obtain ⟨p, hp, htids, hexit⟩ := hps pid p' hp'
    rw [htids] at htid
    obtain ⟨t, ht, hpid, hd⟩ := h.listed pid p hp tid htid
    -- the freed thread is dead, so an exiting process does not list it
    have hne : tid ≠ tid₀ := by
      rintro rfl
      rw [ht₀] at ht
      obtain rfl := Option.some.inj ht
      exact hd (hok p (hpid ▸ hp)) hdead
    exact ⟨t, by simp only [Kernel.freed, Function.update_of_ne hne, ht], hpid,
      fun hx => hd (hexit.mp hx)⟩
  · intro pid p' hp' hstate tid t ht hpid
    obtain ⟨p, hp, htids, hexit⟩ := hps pid p' hp'
    have hne : tid ≠ tid₀ := by
      rintro rfl
      simp [Kernel.freed] at ht
    simp only [Kernel.freed, Function.update_of_ne hne] at ht
    rw [htids]
    exact h.complete pid p hp (fun hc => hstate (hexit.mpr hc)) tid t ht hpid

/-! ### Runs -/

theorem ListsInv.round {s s₂ : Kernel} {loop : Bool} (h : ListsInv s) (hok : RemovalOk (s, loop))
    (hd : pickDispatch (pickFetch s loop).2.1 (pickFetch s loop).1 = .ok s₂) : ListsInv s₂ := by
  obtain ⟨t, ht, hproc, heff⟩ := pickDispatch_ok hd
  obtain ⟨l, hl⟩ := pickFetch_eq s loop
  rw [hl] at ht hproc heff
  have hmoved : ListsInv { s with queueLoc := l } := h.same ⟨sameList_refl _, .refl s⟩
  by_cases hdead : t.state = .dead
  · rw [heff.freed hdead]
    exact hmoved.freed ht hdead (hok t ht hdead)
  · exact hmoved.same (heff.sameLists ht hproc hdead)

theorem ListsInv.exec {s s' : Kernel} {c : Call} {r : Int} (hs : Tables s) (hinv : ListsInv s)
    (hok : c.RemovesOk s) (h : exec s c = .ok (r, s')) : ListsInv s' := by
  cases c with
  | createProcess privilege name => exact hinv.created hs (schedCreateProcess_ok h).2
  | createThread ownerpid noqueue entrypoint => exact hinv.spawned hs (schedCreateThread_ok h).2
  | forkThread tid regs =>
      rcases schedForkThread_ok h with ⟨rfl, -⟩ | ⟨-, pid, hspawn⟩
      · exact hinv
      · exact hinv.spawned hs hspawn
  | loadProcess q =>
      rcases ploadCreateProcess_ok h with rfl | ⟨s₁, hcreate, hspawn⟩
      · exact hinv
      · exact (hinv.created hs hcreate).spawned (hs.created hcreate) hspawn
  | exitThread =>
      obtain ⟨t, ht, rfl⟩ := schedExitThread_ok (noResult_ok h)
      exact hinv.same (Kernel.setThread_sameLists ht (.of_alive rfl (by simp)))
  | exitProcess exitcode =>
      obtain ⟨pid, p, mem, hp, rfl⟩ := schedExitProcess_ok hs h
      exact hinv.ended hp exitcode mem
  | killProcess pid =>
      rcases schedKillProcess_ok h with rfl | ⟨p, exitcode, mem, hp, rfl⟩
      · exact hinv
      · exact hinv.ended hp exitcode mem
  | suspendThread irq tid =>
      obtain ⟨t, ht, rfl⟩ := schedSuspendThread_ok (noResult_ok h)
      exact hinv.same (Kernel.setThread_sameLists ht (.of_alive rfl (by simp)))
  | checkSuspended irq =>
      obtain rfl : schedCheckSuspendedThreads s irq = s' := (exec_pair h).2
      refine hinv.same ⟨sameList_refl s.processes, .map fun t => ?_⟩
      unfold Thread.wake
      split_ifs
      · exact .of_alive rfl (by simp)
      · exact .of_same rfl rfl
  | waitProcess pid =>
      rcases schedWaitProcess_ok h with ⟨rfl, -⟩ | ⟨-, t, p, -, hp, ht, rfl⟩
      · exact hinv
      · exact hinv.same (Kernel.waited_sameLists ht hp)
  | pickNext =>
      exact schedPickNext_inv (hinv.same ⟨sameList_refl s.processes, .refl s⟩)
        (fun _ _ _ hI hC hd => hI.round hC hd) hok (noResult_ok h)
  | interfaceDelete name pid =>
      obtain rfl := (exec_pair h).2
      rcases interfaceDelete_eq s name pid with hd | ⟨addr, intfaces, hd⟩
      · rw [hd]
        exact hinv
      · rw [hd]
        refine hinv.same ⟨sameList_refl s.processes, .map fun t => ?_⟩
        unfold Thread.unwait
        split_ifs
        · exact .of_alive rfl (by simp)
        · exact .of_same rfl rfl
  | interfaceWait name tid =>
      rcases interfaceWait_ok h with ⟨rfl, -⟩ | ⟨-, t, addr, ht, rfl⟩
      · exact hinv
      · exact hinv.same (Kernel.setThread_sameLists ht (.of_alive rfl (by simp)))
  | _ => exact hinv.same (exec_quiet hs rfl h).sameLists

theorem ListsInv.started {s : Kernel} (h : Started s) : ListsInv s := by
  obtain ⟨mem, eflags, idleLoop, h⟩ := h
  simp only [schedInit, bind_ok, Prod.exists, Except.ok.injEq] at h
  obtain ⟨pid, s₁, hcreate, tid, s₂, hthread, rfl⟩ := h
  have h0 := Tables.boot mem eflags
  have hl0 : ListsInv (Kernel.boot mem eflags) :=
    ⟨fun _ _ h => by simp [Kernel.boot] at h, fun _ _ h => by simp [Kernel.boot] at h,
      fun _ _ h => by simp [Kernel.boot] at h⟩
  have hcreate := (schedCreateProcess_ok hcreate).2
  have h2 := (hl0.created h0 hcreate).spawned (h0.created hcreate) (schedCreateThread_ok hthread).2
  exact h2.same ⟨sameList_refl s₂.processes, .refl s₂⟩

/-- **Thread lists are exact** in every state of a run in which the scheduler only frees threads
whose process has exited. -/
theorem threadLists_exact {s : Kernel}
    (h : Reach Step Call.RemovesOk Started s) : ListsExact s := by
  have hinv : Tables s ∧ ListsInv s := by
    refine h.invariant (I := fun s => Tables s ∧ ListsInv s) ?_ ?_
    · exact fun s hst => ⟨.started hst, .started hst⟩
    · rintro s c s' ⟨hs, hinv⟩ hok ⟨r, hexec⟩
      exact ⟨hs.exec hexec, hinv.exec hs hok hexec⟩
  exact hinv.2.exact

theorem threadLists_exact_spawned :
    ∃ s p, s.processes 1 = some p ∧ p.tids = [1] ∧ ListsExact s := by
  have hrun : BootRuns id execState Call.RemovesOk (fun s => ∃ p ∈ s.processes 1, p.tids = [1])
      [.createProcess 0 [], .createThread 1 false 0, .pickNext, .createProcess 0 [],
        .createThread 2 false 0, .killProcess 2, .pickNext] := by decide
  obtain ⟨s, hs, p, hp, htids⟩ := hrun.reach (fun _ _ _ => execState_step) fun _ hs => hs
  exact ⟨s, p, hp, htids, threadLists_exact hs⟩

/-- Thread 1 of process 1 exits by itself and is freed, but process 1 still lists it. -/
theorem threadLists_stale : ∃ s, Reach Step (fun _ _ => True) Started s ∧ ¬ListsExact s := by
  have hrun : BootRuns id execState (fun _ _ => True)
      (fun s => (∃ p ∈ s.processes 1, 1 ∈ p.tids) ∧ s.threads 1 = none)
      [.createProcess 0 [], .createThread 1 false 0, .pickNext, .exitThread, .pickNext,
        .pickNext] := by decide
  obtain ⟨s, hs, ⟨p, hp, htid⟩, hfreed⟩ := hrun.reach (fun _ _ _ => execState_step) fun _ hs => hs
  exact ⟨s, hs, fun h => h.reapable 1 p hp 1 htid hfreed⟩

end GalaxyOS
