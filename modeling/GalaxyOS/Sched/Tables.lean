import GalaxyOS.Sched.Dispatch

/-! # The tables of processes and threads

No call takes a process or a thread from one slot to another, and only creation fills a slot.
`Kernel.Keeps` says this of two states; every function of the scheduler but the two that create
keeps the tables, and `Tables` is an invariant of all runs.

`Tables.exec` is the step, and `schedPickNext_rule` the rule for the loop of the scheduler that it and the
later invariants use. -/

namespace GalaxyOS

open Transition

/-! ### Threads that keep their place -/

/-- The thread has not moved. -/
def Thread.SamePlace (t t' : Thread) : Prop := t'.pid = t.pid ∧ t'.stackpdi = t.stackpdi

theorem Thread.SamePlace.refl (t : Thread) : t.SamePlace t := ⟨rfl, rfl⟩

/-- A thread table with some threads changed, but none moved. -/
def KeptThreads (ts ts' : Int → Option Thread) : Prop := Carried Thread.SamePlace ts ts'

theorem KeptThreads.refl (ts : Int → Option Thread) : KeptThreads ts ts := Carried.refl .refl ts

theorem KeptThreads.update {ts : Int → Option Thread} {tid : Int} {t t' : Thread}
    (ht : ts tid = some t) (hpid : t'.pid = t.pid) (hstack : t'.stackpdi = t.stackpdi) :
    KeptThreads ts (Function.update ts tid (some t')) := by
  refine Carried.update .refl ht fun t'' h => ?_
  obtain rfl := Option.some.inj h
  exact ⟨hpid, hstack⟩

theorem KeptThreads.erase (ts : Int → Option Thread) (tid : Int) :
    KeptThreads ts (Function.update ts tid none) := Carried.erase .refl ts tid

theorem KeptThreads.map {f : Thread → Thread} (hpid : ∀ t, (f t).pid = t.pid)
    (hstack : ∀ t, (f t).stackpdi = t.stackpdi) (ts : Int → Option Thread) :
    KeptThreads ts (fun i => (ts i).map f) := Carried.map (fun t => ⟨hpid t, hstack t⟩) ts

theorem KeptThreads.dead (ts : Int → Option Thread) (tids : List Int) :
    KeptThreads ts (deadThreads ts tids) :=
  Carried.mapSome .refl (fun _ => ⟨rfl, rfl⟩) (· ∈ tids) ts

/-- The process has not moved. -/
def Process.SamePlace (p p' : Process) : Prop := p'.pid = p.pid

theorem Process.SamePlace.refl (p : Process) : p.SamePlace p := rfl

/-- Process tables whose processes keep their place. -/
def KeptProcesses (ps ps' : Int → Option Process) : Prop := Carried Process.SamePlace ps ps'

theorem KeptProcesses.refl (ps : Int → Option Process) : KeptProcesses ps ps := Carried.refl .refl ps

theorem KeptProcesses.like {ps ps' : Int → Option Process} (h : LikeTable ps ps') :
    KeptProcesses ps ps' := fun _ _ hp' => by
  obtain ⟨p, hp, hl⟩ := h.of_some hp'
  exact ⟨p, hp, hl.pid⟩

theorem KeptProcesses.update {ps : Int → Option Process} {pid : Int} {p : Process}
    (hp : ps pid = some p) {o : Option Process} (ho : ∀ p' ∈ o, p'.pid = p.pid) :
    KeptProcesses ps (Function.update ps pid o) := Carried.update .refl hp ho

theorem Process.dropTids_pid (p : Process) : p.dropTids.pid = p.pid := by
  unfold Process.dropTids
  split_ifs <;> rfl

theorem Process.reaped_pid {p p' : Process} (h : p' ∈ p.reaped) : p'.pid = p.pid := by
  unfold Process.reaped at h
  split_ifs at h
  · simp at h
  · obtain rfl : p.dropTids = p' := by simpa using h
    exact p.dropTids_pid

theorem KeptProcesses.dropped (ps : Int → Option Process) (wait : Int) :
    KeptProcesses ps (droppedWaiter ps wait) := by
  unfold droppedWaiter
  split_ifs with h0
  · exact .refl ps
  · cases hp : ps wait with
    | none =>
        rw [Option.map_none, Function.update_eq_self_iff.mpr hp.symm]
        exact .refl ps
    | some p =>
        refine .update hp fun p' h => ?_
        obtain rfl : { p with waitingThreads := p.waitingThreads - 1 } = p' := by simpa using h
        rfl

/-! ### States with the same tables -/

/-- Every process and every thread of `s'` is in `s`, in the same slot. -/
structure Kernel.Keeps (s s' : Kernel) : Prop where
  lastPid : s'.lastPid = s.lastPid
  lastTid : s'.lastTid = s.lastTid
  processes : KeptProcesses s.processes s'.processes
  threads : KeptThreads s.threads s'.threads

theorem Kernel.Keeps.refl (s : Kernel) : s.Keeps s := ⟨rfl, rfl, .refl s.processes, .refl s.threads⟩

theorem Kernel.Keeps.trans {s₁ s₂ s₃ : Kernel} (h : s₁.Keeps s₂) (h' : s₂.Keeps s₃) : s₁.Keeps s₃ :=
  ⟨h'.lastPid.trans h.lastPid, h'.lastTid.trans h.lastTid,
    Carried.trans (r := Process.SamePlace) (fun h h' => Eq.trans h' h) h.processes h'.processes,
    Carried.trans (r := Thread.SamePlace) (fun h h' => ⟨h'.1.trans h.1, h'.2.trans h.2⟩)
      h.threads h'.threads⟩

theorem Tables.keeps {s s' : Kernel} (hs : Tables s) (h : s.Keeps s') : Tables s' := by
  refine ⟨by rw [h.lastPid]; exact hs.lastPid, by rw [h.lastTid]; exact hs.lastTid, ?_, ?_⟩
  · intro pid p' hp'
    obtain ⟨p, hp, hpid⟩ := h.processes pid p' hp'
    rw [hpid, h.lastPid]
    exact hs.pid pid p hp
  · intro tid t' ht'
    obtain ⟨t, ht, hpid, hstack⟩ := h.threads tid t' ht'
    rw [hpid, hstack, h.lastPid, h.lastTid]
    exact hs.tid tid t ht

/-! ### The calls keep the tables -/

theorem Kernel.Quiet.keeps {s s' : Kernel} (h : s.Quiet s') : s.Keeps s' := by
  obtain ⟨mem, processes, intfaces, size, next, hl, rfl⟩ := h
  exact ⟨rfl, rfl, .like hl, .refl s.threads⟩

theorem Kernel.setThread_keeps {s : Kernel} {tid : Int} {t t' : Thread} (ht : s.threads tid = some t)
    (hpid : t'.pid = t.pid) (hstack : t'.stackpdi = t.stackpdi) :
    s.Keeps (s.setThread tid (some t')) :=
  ⟨rfl, rfl, .refl s.processes, .update ht hpid hstack⟩

theorem Kernel.endProcess_keeps {s : Kernel} {pid : Int} {p : Process} (hp : s.processes pid = some p)
    (exitcode : Int) (mem : Mem) : s.Keeps (s.endProcess pid p exitcode mem) :=
  ⟨rfl, rfl, .update hp fun _ h => (Process.reaped_pid h).trans rfl, .dead s.threads p.tids⟩

theorem Kernel.waited_keeps {s : Kernel} {pid : Int} {t : Thread} {p : Process}
    (ht : s.threads s.currenttid = some t) (hp : s.processes pid = some p) :
    s.Keeps (s.waited pid t p) :=
  ⟨rfl, rfl, .update hp fun p' h => by
    obtain rfl : { p with waitingThreads := p.waitingThreads + 1 } = p' := by simpa using h
    rfl, .update ht rfl rfl⟩

theorem PickEffect.keeps {s s' : Kernel} {tid : Int} {t : Thread} (ht : s.threads tid = some t)
    (h : PickEffect s tid t s') : s.Keeps s' := by
  cases h with
  | select mem hstate => exact ⟨rfl, rfl, .refl s.processes, .refl s.threads⟩
  | skip => exact .refl s
  | message addr hstate hmsg => exact Kernel.setThread_keeps ht rfl rfl
  | stale hstate hmsg hw => exact Kernel.setThread_keeps ht rfl rfl
  | resume p mem frame hstate hmsg hrange hp hno =>
      refine ⟨rfl, rfl, .update hp fun p' h => ?_, .update ht rfl rfl⟩
      exact (Process.reaped_pid h).trans rfl
  | start hstate => exact Kernel.setThread_keeps ht rfl rfl
  | load p p' t' mem kmode hstate hp hl hl' =>
      refine ⟨rfl, rfl, .like (.update hp hl), ?_⟩
      rcases hl' with rfl | ⟨frame, rfl⟩
      · exact .update ht rfl rfl
      · exact .update ht rfl rfl
  | exit hstate => exact Kernel.setThread_keeps ht rfl rfl
  | dead hstate hw hq => exact ⟨rfl, rfl, .dropped s.processes t.wait, .erase s.threads tid⟩

theorem pickFetch_keeps (s : Kernel) (loop : Bool) : s.Keeps (pickFetch s loop).2.1 := by
  obtain ⟨l, hl⟩ := pickFetch_eq s loop
  rw [hl]
  exact ⟨rfl, rfl, .refl s.processes, .refl s.threads⟩

theorem Tables.fresh_tid {s : Kernel} (hs : Tables s) : s.threads s.lastTid = none := by
  by_contra hne
  obtain ⟨t, ht⟩ := Option.ne_none_iff_exists'.mp hne
  exact absurd (hs.tid _ _ ht).1.2 (Int.lt_irrefl _)

theorem Tables.created {s s' : Kernel} (hs : Tables s) (h : s.Created s') : Tables s' := by
  obtain ⟨p, mem, hfresh, rfl⟩ := h
  have hlast := hs.lastPid
  refine ⟨by simp only; omega, hs.lastTid, ?_, ?_⟩
  · intro pid p' hp'
    by_cases hi : pid = s.lastPid
    · subst hi
      obtain rfl : p = p' := by simpa using hp'
      exact ⟨hfresh.pid, hlast, by simp only; omega⟩
    · simp only [Function.update_of_ne hi] at hp'
      have hpid := hs.pid pid p' hp'
      exact ⟨hpid.1, hpid.2.1, by simp only; omega⟩
  · intro tid t ht
    obtain ⟨htid, htpid, hstack⟩ := hs.tid tid t ht
    exact ⟨htid, ⟨htpid.1, by simp only; omega⟩, hstack⟩

theorem Tables.spawned {s s' : Kernel} {pid : Int} {noqueue : Bool} (hs : Tables s)
    (h : s.Spawned pid noqueue s') : Tables s' := by
  obtain ⟨-, p, t, mem, hp, hfresh, rfl⟩ := h
  obtain ⟨hpid, hrange⟩ := hs.pid pid p hp
  have hlast := hs.lastTid
  refine ⟨hs.lastPid, by simp only; omega, ?_, ?_⟩
  · intro i p' hp'
    by_cases hi : i = pid
    · subst hi
      simp only [Function.update_self, Option.some.injEq] at hp'
      subst hp'
      exact ⟨hpid, hrange⟩
    · simp only [Function.update_of_ne hi] at hp'
      exact hs.pid i p' hp'
  · intro tid t' ht'
    by_cases hi : tid = s.lastTid
    · subst hi
      obtain rfl : t = t' := by simpa using ht'
      exact ⟨⟨hlast, by simp only; omega⟩, by rw [hfresh.pid]; exact hrange, hfresh.stackpdi⟩
    · simp only [Function.update_of_ne hi] at ht'
      obtain ⟨htid, htpid, hstack⟩ := hs.tid tid t' ht'
      exact ⟨⟨htid.1, by simp only; omega⟩, htpid, hstack⟩

/-! ### Rounds and calls -/

/-- A round that goes on has dispatched a thread and selected none. -/
theorem pickBody_inl {s : Kernel} {loop : Bool} {st' : Kernel × Bool}
    (h : pickBody (s, loop) = .ok (.inl st')) :
    ∃ s₂, pickDispatch (pickFetch s loop).2.1 (pickFetch s loop).1 = .ok s₂ ∧
      s₂.currenttid = -1 ∧ st' = (s₂, (pickFetch s loop).2.2) := by
  unfold pickBody at h
  cases hd : pickDispatch (pickFetch s loop).2.1 (pickFetch s loop).1 with
  | error e => simp [hd] at h
  | ok s₂ =>
      simp only [hd, Except.ok.injEq] at h
      split_ifs at h with hcur
      exact ⟨s₂, rfl, hcur, (Sum.inl.inj h).symm⟩

/-- The last round has selected a thread. -/
theorem pickBody_inr {s s₂ : Kernel} {loop : Bool} (h : pickBody (s, loop) = .ok (.inr s₂)) :
    pickDispatch (pickFetch s loop).2.1 (pickFetch s loop).1 = .ok s₂ ∧ s₂.currenttid ≠ -1 := by
  unfold pickBody at h
  cases hd : pickDispatch (pickFetch s loop).2.1 (pickFetch s loop).1 with
  | error e => simp [hd] at h
  | ok s₂' =>
      simp only [hd, Except.ok.injEq] at h
      split_ifs at h with hcur
      obtain rfl := Sum.inr.inj h
      exact ⟨rfl, hcur⟩

/-- The rule for `sched_pick_next`: `I` holds when a round begins, with the flag `loop` of the
round, and each round either goes on with `I` or selects a thread with `Q`.  `C` may be assumed
of every state in which a round begins. -/
theorem schedPickNext_rule {I C : Kernel × Bool → Prop} {Q : Kernel → Prop} {s s' : Kernel}
    (h0 : I ({ s with currenttid := -1 }, false))
    (hgo : ∀ s loop s₂, I (s, loop) → C (s, loop) →
      pickDispatch (pickFetch s loop).2.1 (pickFetch s loop).1 = .ok s₂ →
      s₂.currenttid = -1 → I (s₂, (pickFetch s loop).2.2))
    (hexit : ∀ s loop s₂, I (s, loop) → C (s, loop) →
      pickDispatch (pickFetch s loop).2.1 (pickFetch s loop).1 = .ok s₂ →
      s₂.currenttid ≠ -1 → Q s₂)
    (hC : Heads C pickBody (pickFuel s) ({ s with currenttid := -1 }, false))
    (h : schedPickNext s = .ok s') : Q s' := by
  refine whileE_rule ?_ ?_ h0 hC h
  · rintro ⟨s, loop⟩ st' hI hC hb
    obtain ⟨s₂, hd, hcur, rfl⟩ := pickBody_inl hb
    exact hgo s loop s₂ hI hC hd hcur
  · rintro ⟨s, loop⟩ s₂ hI hC hb
    obtain ⟨hd, hcur⟩ := pickBody_inr hb
    exact hexit s loop s₂ hI hC hd hcur

/-- The rule for an invariant that does not mention `loop`. -/
theorem schedPickNext_inv {I : Kernel → Prop} {C : Kernel × Bool → Prop} {s s' : Kernel}
    (h0 : I { s with currenttid := -1 })
    (hround : ∀ s loop s₂, I s → C (s, loop) →
      pickDispatch (pickFetch s loop).2.1 (pickFetch s loop).1 = .ok s₂ → I s₂)
    (hC : Heads C pickBody (pickFuel s) ({ s with currenttid := -1 }, false))
    (h : schedPickNext s = .ok s') : I s' :=
  schedPickNext_rule (I := fun st => I st.1) h0
    (fun s loop s₂ hI hC hd _ => hround s loop s₂ hI hC hd)
    (fun s loop s₂ hI hC hd _ => hround s loop s₂ hI hC hd) hC h

/-- An invariant of the rounds may be used wherever a round begins. -/
theorem Call.Rounds.of_invariant {I : Kernel → Prop} {C D : Kernel × Bool → Prop} {s : Kernel}
    {c : Call} (h0 : I { s with currenttid := -1 })
    (hround : ∀ s loop s₂, I s → C (s, loop) →
      pickDispatch (pickFetch s loop).2.1 (pickFetch s loop).1 = .ok s₂ → I s₂)
    (hD : ∀ s loop, I s → C (s, loop) → D (s, loop)) (hC : c.Rounds C s) : c.Rounds D s := by
  cases c with
  | pickNext =>
      refine Heads.of_invariant (I := fun st => I st.1) ?_ (fun st hI hC => hD st.1 st.2 hI hC) h0 hC
      rintro ⟨s, loop⟩ st' hI hC hb
      obtain ⟨s₂, hd, -, rfl⟩ := pickBody_inl hb
      exact hround s loop s₂ hI hC hd
  | _ => trivial

theorem Tables.round {s s₂ : Kernel} {loop : Bool} (hs : Tables s)
    (h : pickDispatch (pickFetch s loop).2.1 (pickFetch s loop).1 = .ok s₂) : Tables s₂ := by
  obtain ⟨t, ht, -, heff⟩ := pickDispatch_ok h
  exact (hs.keeps (pickFetch_keeps s loop)).keeps (heff.keeps ht)

/-- What a call does to the tables: they are kept, or a process or a thread has been created, or both. -/
inductive Kernel.Change (s : Kernel) : Kernel → Prop
  | keeps {s' : Kernel} : s.Keeps s' → s.Change s'
  | created {s' : Kernel} : s.Created s' → s.Change s'
  | spawned {s' : Kernel} {pid : Int} {noqueue : Bool} : s.Spawned pid noqueue s' → s.Change s'
  | loaded {s₁ s' : Kernel} {pid : Int} {noqueue : Bool} :
      s.Created s₁ → s₁.Spawned pid noqueue s' → s.Change s'

theorem schedPickNext_keeps {s s' : Kernel} (h : schedPickNext s = .ok s') : s.Keeps s' := by
  refine schedPickNext_inv (I := s.Keeps) ⟨rfl, rfl, .refl s.processes, .refl s.threads⟩ ?_
    (heads_true _ _) h
  intro s₁ loop s₂ hI _ hd
  obtain ⟨t, ht, -, heff⟩ := pickDispatch_ok hd
  exact (hI.trans (pickFetch_keeps s₁ loop)).trans (heff.keeps ht)

theorem exec_change {s s' : Kernel} {c : Call} {r : Int} (hs : Tables s)
    (h : exec s c = .ok (r, s')) : s.Change s' := by
  cases c with
  | createProcess privilege name => exact .created (schedCreateProcess_ok h).2
  | createThread ownerpid noqueue entrypoint => exact .spawned (schedCreateThread_ok h).2
  | forkThread tid regs =>
      rcases schedForkThread_ok h with ⟨rfl, -⟩ | ⟨-, pid, hspawn⟩
      · exact .keeps (.refl _)
      · exact .spawned hspawn
  | loadProcess q =>
      rcases ploadCreateProcess_ok h with rfl | ⟨s₁, hcreate, hspawn⟩
      · exact .keeps (.refl _)
      · exact .loaded hcreate hspawn
  | exitThread =>
      obtain ⟨t, ht, rfl⟩ := schedExitThread_ok (noResult_ok h)
      exact .keeps (Kernel.setThread_keeps ht rfl rfl)
  | exitProcess exitcode =>
      obtain ⟨pid, p, mem, hp, rfl⟩ := schedExitProcess_ok hs h
      exact .keeps (Kernel.endProcess_keeps hp exitcode mem)
  | killProcess pid =>
      rcases schedKillProcess_ok h with rfl | ⟨p, exitcode, mem, hp, rfl⟩
      · exact .keeps (.refl _)
      · exact .keeps (Kernel.endProcess_keeps hp exitcode mem)
  | suspendThread irq tid =>
      obtain ⟨t, ht, rfl⟩ := schedSuspendThread_ok (noResult_ok h)
      exact .keeps (Kernel.setThread_keeps ht rfl rfl)
  | checkSuspended irq =>
      obtain rfl : schedCheckSuspendedThreads s irq = s' := (exec_pair h).2
      exact .keeps ⟨rfl, rfl, .refl s.processes,
        .map (fun t => by unfold Thread.wake; split_ifs <;> rfl)
          (fun t => by unfold Thread.wake; split_ifs <;> rfl) s.threads⟩
  | waitProcess pid =>
      rcases schedWaitProcess_ok h with ⟨rfl, -⟩ | ⟨-, t, p, -, hp, ht, rfl⟩
      · exact .keeps (.refl _)
      · exact .keeps (Kernel.waited_keeps ht hp)
  | pickNext => exact .keeps (schedPickNext_keeps (noResult_ok h))
  | interfaceDelete name pid =>
      obtain rfl := (exec_pair h).2
      rcases interfaceDelete_eq s name pid with hd | ⟨addr, intfaces, hd⟩
      · rw [hd]
        exact .keeps (.refl _)
      · rw [hd]
        exact .keeps ⟨rfl, rfl, .refl s.processes,
          .map (fun t => by unfold Thread.unwait; split_ifs <;> rfl)
            (fun t => by unfold Thread.unwait; split_ifs <;> rfl) s.threads⟩
  | interfaceWait name tid =>
      rcases interfaceWait_ok h with ⟨rfl, -⟩ | ⟨-, t, addr, ht, rfl⟩
      · exact .keeps (.refl _)
      · exact .keeps (Kernel.setThread_keeps ht rfl rfl)
  | _ => exact .keeps (exec_quiet hs rfl h).keeps

/-- Tables are kept by every call. -/
theorem Tables.exec {s s' : Kernel} {c : Call} {r : Int} (hs : Tables s)
    (h : exec s c = .ok (r, s')) : Tables s' := by
  cases exec_change hs h with
  | keeps hkeep => exact hs.keeps hkeep
  | created hcreate => exact hs.created hcreate
  | spawned hspawn => exact hs.spawned hspawn
  | loaded hcreate hspawn => exact (hs.created hcreate).spawned hspawn

/-- The ids in use have not shrunk, and the idle thread is the same. -/
structure Kernel.Grows (s s' : Kernel) : Prop where
  lastPid : s.lastPid ≤ s'.lastPid
  lastTid : s.lastTid ≤ s'.lastTid
  idletid : s'.idletid = s.idletid

theorem Kernel.Grows.of_eq {s s' : Kernel} (h1 : s'.lastPid = s.lastPid) (h2 : s'.lastTid = s.lastTid)
    (h3 : s'.idletid = s.idletid) : s.Grows s' := ⟨Int.le_of_eq h1.symm, Int.le_of_eq h2.symm, h3⟩

theorem Kernel.Grows.refl (s : Kernel) : s.Grows s := .of_eq rfl rfl rfl

theorem Kernel.Grows.trans {s₁ s₂ s₃ : Kernel} (h : s₁.Grows s₂) (h' : s₂.Grows s₃) : s₁.Grows s₃ :=
  ⟨Int.le_trans h.lastPid h'.lastPid, Int.le_trans h.lastTid h'.lastTid,
    h'.idletid.trans h.idletid⟩

theorem Kernel.Created.grows {s s' : Kernel} (h : s.Created s') : s.Grows s' := by
  obtain ⟨p, mem, -, rfl⟩ := h
  exact ⟨Int.le_of_lt (Int.lt_succ _), Int.le_refl _, rfl⟩

theorem Kernel.Spawned.grows {s s' : Kernel} {pid : Int} {noqueue : Bool}
    (h : s.Spawned pid noqueue s') : s.Grows s' := by
  obtain ⟨-, p, t, mem, -, -, rfl⟩ := h
  exact ⟨Int.le_refl _, Int.le_of_lt (Int.lt_succ _), rfl⟩

theorem pickRound_grows {s s₂ : Kernel} {loop : Bool}
    (h : pickDispatch (pickFetch s loop).2.1 (pickFetch s loop).1 = .ok s₂) : s.Grows s₂ := by
  obtain ⟨t, ht, -, heff⟩ := pickDispatch_ok h
  have hkeep := heff.keeps ht
  have hfetch := pickFetch_keeps s loop
  refine .of_eq (hkeep.lastPid.trans hfetch.lastPid) (hkeep.lastTid.trans hfetch.lastTid) ?_
  obtain ⟨l, hl⟩ := pickFetch_eq s loop
  rw [heff.idletid, hl]

theorem exec_grows {s s' : Kernel} {c : Call} {r : Int} (hs : Tables s)
    (h : exec s c = .ok (r, s')) : s.Grows s' := by
  cases c with
  | createProcess privilege name => exact (schedCreateProcess_ok h).2.grows
  | createThread ownerpid noqueue entrypoint => exact (schedCreateThread_ok h).2.grows
  | forkThread tid regs =>
      rcases schedForkThread_ok h with ⟨rfl, -⟩ | ⟨-, pid, hspawn⟩
      · exact .refl _
      · exact hspawn.grows
  | loadProcess q =>
      rcases ploadCreateProcess_ok h with rfl | ⟨s₁, hcreate, hspawn⟩
      · exact .refl _
      · exact hcreate.grows.trans hspawn.grows
  | exitThread =>
      obtain ⟨t, ht, rfl⟩ := schedExitThread_ok (noResult_ok h)
      exact .of_eq rfl rfl rfl
  | exitProcess exitcode =>
      obtain ⟨pid, p, mem, hp, rfl⟩ := schedExitProcess_ok hs h
      exact .of_eq rfl rfl rfl
  | killProcess pid =>
      rcases schedKillProcess_ok h with rfl | ⟨p, exitcode, mem, hp, rfl⟩
      · exact .refl _
      · exact .of_eq rfl rfl rfl
  | suspendThread irq tid =>
      obtain ⟨t, ht, rfl⟩ := schedSuspendThread_ok (noResult_ok h)
      exact .of_eq rfl rfl rfl
  | checkSuspended irq =>
      obtain rfl : schedCheckSuspendedThreads s irq = s' := (exec_pair h).2
      exact .of_eq rfl rfl rfl
  | waitProcess pid =>
      rcases schedWaitProcess_ok h with ⟨rfl, -⟩ | ⟨-, t, p, -, hp, ht, rfl⟩
      · exact .refl _
      · exact .of_eq rfl rfl rfl
  | pickNext =>
      refine schedPickNext_inv (I := s.Grows) (.of_eq rfl rfl rfl) ?_ (heads_true _ _)
        (noResult_ok h)
      exact fun s₁ loop s₂ hI _ hd => hI.trans (pickRound_grows hd)
  | interfaceDelete name pid =>
      obtain rfl := (exec_pair h).2
      rcases interfaceDelete_eq s name pid with hd | ⟨addr, intfaces, hd⟩
      · rw [hd]
        exact .refl _
      · rw [hd]
        exact .of_eq rfl rfl rfl
  | interfaceWait name tid =>
      rcases interfaceWait_ok h with ⟨rfl, -⟩ | ⟨-, t, addr, ht, rfl⟩
      · exact .refl _
      · exact .of_eq rfl rfl rfl
  | _ =>
      obtain ⟨mem, processes, intfaces, size, next, -, rfl⟩ := exec_quiet hs rfl h
      exact .of_eq rfl rfl rfl

theorem Tables.boot (mem : Mem) (eflags : ℕ) : Tables (Kernel.boot mem eflags) :=
  ⟨by simp [Kernel.boot], by simp [Kernel.boot], fun _ _ h => by simp [Kernel.boot] at h,
    fun _ _ h => by simp [Kernel.boot] at h⟩

theorem Tables.started {s : Kernel} (h : Started s) : Tables s := by
  obtain ⟨mem, eflags, idleLoop, h⟩ := h
  simp only [schedInit, bind_ok, Prod.exists, Except.ok.injEq] at h
  obtain ⟨pid, s₁, hcreate, tid, s₂, hthread, rfl⟩ := h
  have h0 := Tables.boot mem eflags
  have h2 := (h0.created (schedCreateProcess_ok hcreate).2).spawned (schedCreateThread_ok hthread).2
  exact h2.keeps ⟨rfl, rfl, .refl s₂.processes, .refl s₂.threads⟩

end GalaxyOS
