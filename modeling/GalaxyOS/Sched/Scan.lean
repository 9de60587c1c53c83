import GalaxyOS.Sched.FailedLoads
import GalaxyOS.Sched.RunQueue
import GalaxyOS.Sched.Exhaustion
import GalaxyOS.Wakeup

/-! # What a scan of the run queue can rely on

`ScanInv` says that the queue lists threads that exist, and `IdleInv` that the idle thread can be
selected at any time.  Both hold of every state of a run in which system calls are made by running
threads and processes are ended by user-mode ones.

`ScanInv.entry_round` and `ScanInv.end_round` are the two kinds of rounds, `ScanInv.exec` and
`IdleInv.exec` go over all calls. -/

namespace GalaxyOS

open Transition Segment

variable {s s' : Kernel} {P : Set Int}

/-! ### The queue -/

/-- The queue lists threads that exist, each of them once, and not the idle thread.  The scan may go
on behind its end, since the modulus can cut the queue off. -/
structure ScanInv (s : Kernel) (P : Set Int) : Prop where
  start : s.queueStart = 0
  loc : 0 ≤ s.queueLoc
  ends : 0 ≤ s.queueEnd
  entries : Enumerates s.queue 0 s.queueEnd P
  live : ∀ tid ∈ P, s.threads tid ≠ none
  apart : s.idletid ∉ P

theorem ScanInv.same (h : ScanInv s P) (hs : s.SameQueue s') (hidle : s'.idletid = s.idletid) :
    ScanInv s' P := by
  refine ⟨hs.queueStart.trans h.start, ?_, ?_, ?_, fun tid htid hnone => ?_, ?_⟩
  · rw [hs.queueLoc]
    exact h.loc
  · rw [hs.queueEnd]
    exact h.ends
  · rw [hs.queue, hs.queueEnd]
    exact h.entries
  · exact h.live tid htid ((hs.threads tid).mp hnone)
  · rw [hidle]
    exact h.apart

theorem ScanInv.moved {l : Int} (h : ScanInv s P) (hl : 0 ≤ l) :
    ScanInv { s with queueLoc := l } P := ⟨h.start, hl, h.ends, h.entries, h.live, h.apart⟩

theorem ScanInv.entry (hs : Tables s) (h : ScanInv s P) {i : Int} (h0 : 0 ≤ i) (hlt : i < s.queueEnd) :
    s.queue i ≠ -1 := by
  intro hc
  have hlive := h.live _ (h.entries.mem h0 hlt)
  rw [hc] at hlive
  obtain ⟨t, ht⟩ := Option.ne_none_iff_exists'.mp hlive
  have := (hs.tid _ _ ht).1.1
  omega

/-- The modulus moves an index back, if at all. -/
theorem emod_bounds {a : Int} (n : Int) (h : 0 ≤ a) : 0 ≤ a % n ∧ a % n ≤ a := by
  obtain ⟨k, rfl⟩ := Int.eq_ofNat_of_zero_le h
  have hnat : ∀ m : ℕ, 0 ≤ (k : Int) % m ∧ (k : Int) % m ≤ k := fun m => by
    rw [← Int.natCast_mod]
    exact ⟨Int.natCast_nonneg _, Int.ofNat_le.mpr (Nat.mod_le k m)⟩
  cases n with
  | ofNat m => exact hnat m
  | negSucc m =>
      rw [Int.negSucc_eq, Int.emod_neg]
      exact hnat (m + 1)

theorem ScanInv.spawned {pid : Int} {noqueue : Bool} (h : ScanInv s P) (hs : Tables s)
    (hidle : s.idletid < s.lastTid) (hspawn : s.Spawned pid noqueue s') : ∃ P', ScanInv s' P' := by
  obtain ⟨-, p, t, mem, -, -, rfl⟩ := hspawn
  have hlive : ∀ tid, tid = s.lastTid ∨ tid ∈ P →
      Function.update s.threads s.lastTid (some t) tid ≠ none := by
    intro tid htid
    by_cases hi : tid = s.lastTid
    · simp [hi]
    · rw [Function.update_of_ne hi]
      exact h.live tid (htid.resolve_left hi)
  have hends := h.ends
  cases noqueue with
  | true => exact ⟨P, h.start, h.loc, h.ends, h.entries, fun tid htid => hlive tid (.inr htid), h.apart⟩
  | false =>
      have hfresh : s.lastTid ∉ P := fun hc => h.live _ hc hs.fresh_tid
      have hbound := emod_bounds s.processesSize (a := s.queueEnd + 1) (by omega)
      obtain ⟨Q, hQ, hentries⟩ := (h.entries.push hends hfresh).shorten hbound.2
      refine ⟨Q, h.start, h.loc, hbound.1, hentries, fun tid htid => hlive tid (hQ htid), fun hc => ?_⟩
      cases hQ hc with
      | inl heq => exact absurd heq hidle.ne
      | inr hmem => exact h.apart hmem

/-- The queue without the entry that the scan has just passed. -/
theorem Kernel.freed_queue (s : Kernel) (l tid : Int) (t : Thread) :
    ({ s with queueLoc := l + 1 }.freed tid t).queue = eraseAt s.queue l s.queueEnd := by
  simp only [Kernel.freed, Int.add_sub_cancel]
  rfl

/-- The entry that the scan has just passed is removed with its thread. -/
theorem ScanInv.freed {l : Int} (h : ScanInv s P) (h0 : 0 ≤ l) (hlt : l < s.queueEnd) (t : Thread) :
    ScanInv ({ s with queueLoc := l + 1 }.freed (s.queue l) t) (P \ {s.queue l}) := by
  refine ⟨h.start, ?_, ?_, ?_, ?_, fun hc => h.apart hc.1⟩
  · simp only [Kernel.freed]
    omega
  · simp only [Kernel.freed]
    omega
  · rw [s.freed_queue]
    exact h.entries.eraseAt h0 hlt
  · rintro tid ⟨htid, hne⟩
    simp only [Kernel.freed, Function.update_of_ne (show tid ≠ s.queue l from hne)]
    exact h.live tid htid

/-! ### The idle thread -/

/-- The thread belongs to the kernel, and it runs or is about to. -/
structure Thread.Idles (t : Thread) : Prop where
  privilegeLevel : t.privilegeLevel = 0
  state : t.state = .starting ∨ t.state = .running

/-- The idle thread is there, and only a process of the kernel lists it. -/
structure IdleInv (s : Kernel) : Prop where
  thread : ∃ t, s.threads s.idletid = some t ∧ t.Idles
  listed : ∀ pid p, s.processes pid = some p → s.idletid ∈ p.tids → p.privilegeLevel = 0

/-- The process keeps its privilege level and gets no threads. -/
structure Process.Shrinks (p p' : Process) : Prop where
  privilegeLevel : p'.privilegeLevel = p.privilegeLevel
  tids : ∀ tid ∈ p'.tids, tid ∈ p.tids

theorem Process.Shrinks.refl (p : Process) : p.Shrinks p := ⟨rfl, fun _ h => h⟩

theorem Process.Shrinks.quietRel : QuietRel Process.Shrinks := by
  refine ⟨.refl, fun h => ?_, fun _ _ => ⟨rfl, fun _ h => h⟩⟩
  obtain ⟨brk, pgbrk, brkOffset, rfl⟩ := schedSetbrkTrue_eq h
  exact ⟨rfl, fun _ h => h⟩

theorem Process.reaped_shrinks {p p' : Process} (h : p' ∈ p.reaped) : p.Shrinks p' := by
  unfold Process.reaped Process.dropTids at h
  split_ifs at h with h0 hno
  · cases h
  · obtain rfl := Option.some.inj h
    exact .refl p
  · obtain rfl := Option.some.inj h
    exact ⟨rfl, fun _ hc => absurd hc List.not_mem_nil⟩

theorem shrinks_dropped (ps : Int → Option Process) (wait : Int) :
    Carried Process.Shrinks ps (droppedWaiter ps wait) := by
  unfold droppedWaiter
  split_ifs with h0
  · exact .refl .refl ps
  · cases hp : ps wait with
    | none =>
        rw [Option.map_none]
        exact .erase .refl ps wait
    | some p =>
        refine .update .refl hp fun p' hp' => ?_
        obtain rfl := Option.some.inj hp'
        exact ⟨rfl, fun _ h => h⟩

theorem IdleInv.known (h : IdleInv s) (hs : Tables s) : 0 ≤ s.idletid ∧ s.idletid < s.lastTid := by
  obtain ⟨t, ht, -⟩ := h.thread
  exact (hs.tid _ t ht).1

/-- What the idle thread and the lists of threads may turn into. -/
theorem IdleInv.keeps (h : IdleInv s) (hidle : s'.idletid = s.idletid)
    (hthread : ∀ t, s.threads s.idletid = some t → t.Idles →
      ∃ t', s'.threads s.idletid = some t' ∧ t'.Idles)
    (hp : Carried Process.Shrinks s.processes s'.processes) : IdleInv s' := by
  obtain ⟨t, ht, hidles⟩ := h.thread
  refine ⟨by rw [hidle]; exact hthread t ht hidles, fun pid p' hp' hmem => ?_⟩
  obtain ⟨p, hold, hshrinks⟩ := hp pid p' hp'
  rw [hidle] at hmem
  rw [hshrinks.privilegeLevel]
  exact h.listed pid p hold (hshrinks.tids _ hmem)

/-- Another thread has changed. -/
theorem IdleInv.setThread {tid : Int} {t' : Thread} (h : IdleInv s) (hne : tid ≠ s.idletid) :
    IdleInv (s.setThread tid (some t')) := by
  refine h.keeps rfl (fun t ht hidles => ⟨t, ?_, hidles⟩) (.refl .refl s.processes)
  rw [Kernel.setThread_threads, Function.update_of_ne hne.symm]
  exact ht

theorem IdleInv.created (h : IdleInv s) (hc : s.Created s') : IdleInv s' := by
  obtain ⟨p₀, mem, hfresh, rfl⟩ := hc
  refine ⟨h.thread, fun pid p hp hmem => ?_⟩
  by_cases hpid : pid = s.lastPid
  · subst hpid
    obtain rfl : p₀ = p := by simpa using hp
    rw [hfresh.tids] at hmem
    exact absurd hmem List.not_mem_nil
  · simp only [Function.update_of_ne hpid] at hp
    exact h.listed pid p hp hmem

theorem IdleInv.spawned {pid : Int} {noqueue : Bool} (h : IdleInv s) (hs : Tables s)
    (hspawn : s.Spawned pid noqueue s') : IdleInv s' := by
  have hne := (h.known hs).2.ne
  obtain ⟨-, p₀, t₀, mem, hp₀, -, rfl⟩ := hspawn
  obtain ⟨t, ht, hidles⟩ := h.thread
  refine ⟨⟨t, ?_, hidles⟩, fun i p hp hmem => ?_⟩
  · simp only [Function.update_of_ne hne]
    exact ht
  · by_cases hi : i = pid
    · subst hi
      simp only [Function.update_self, Option.some.injEq] at hp
      subst hp
      refine h.listed i p₀ hp₀ ?_
      cases List.mem_append.mp hmem with
      | inl hmem => exact hmem
      | inr hmem => exact absurd (List.mem_singleton.mp hmem) hne
    · simp only [Function.update_of_ne hi] at hp
      exact h.listed i p hp hmem

/-- A process of user mode ends. -/
theorem IdleInv.ended {pid : Int} {p : Process} (h : IdleInv s) (hp : s.processes pid = some p)
    (hpriv : p.privilegeLevel ≠ 0) (exitcode : Int) (mem : Mem) :
    IdleInv (s.endProcess pid p exitcode mem) := by
  refine h.keeps rfl (fun t ht hidles => ⟨t, ?_, hidles⟩) (.update .refl hp fun p' hp' => ?_)
  · have hno : s.idletid ∉ p.tids := fun hmem => hpriv (h.listed pid p hp hmem)
    simp only [Kernel.endProcess, deadThreads, if_neg hno]
    exact ht
  · have hshrinks := Process.reaped_shrinks hp'
    exact ⟨hshrinks.privilegeLevel, hshrinks.tids⟩

/-! ### Rounds of the scheduler -/

/-- The round comes to the entry of the queue at `l`: the scan goes on there, or it starts over. -/
structure Kernel.ComesTo (s : Kernel) (loop : Bool) (l : Int) : Prop where
  lo : 0 ≤ l
  hi : l < s.queueEnd
  place : l = s.queueLoc ∧ (pickFetch s loop).2.2 = loop ∨
    s.queueEnd ≤ s.queueLoc ∧ l = 0 ∧ loop = false ∧ (pickFetch s loop).2.2 = true
  tid : (pickFetch s loop).1 = s.queue l
  kernel : (pickFetch s loop).2.1 = { s with queueLoc := l + 1 }

/-- The round comes to the end of the queue and turns to the idle thread. -/
structure Kernel.ComesToEnd (s : Kernel) (loop : Bool) : Prop where
  ends : s.queueEnd ≤ s.queueLoc
  passed : loop = true ∨ s.queueEnd ≤ 0
  fetch : pickFetch s loop =
    (s.idletid, { s with queueLoc := if loop then s.queueLoc else 0 }, true)

theorem ScanInv.fetch (h : ScanInv s P) (hs : Tables s) (loop : Bool) :
    (∃ l, s.ComesTo loop l) ∨ s.ComesToEnd loop := by
  cases pickFetch_scan h.start h.loc (fun _ h0 hlt => h.entry hs h0 hlt) loop with
  | inl hentry =>
      obtain ⟨l, loop', h0, hlt, hl, hf⟩ := hentry
      refine .inl ⟨l, h0, hlt, ?_, ?_, ?_⟩
      · rw [hf]
        exact hl
      · rw [hf]
      · rw [hf]
  | inr hend =>
      obtain ⟨hle, hover, hf⟩ := hend
      exact .inr ⟨hle, hover, hf⟩

theorem pickDispatch_shrinks {tid : Int} {t : Thread} (ht : s.threads tid = some t)
    (hd : pickDispatch s tid = .ok s') : Carried Process.Shrinks s.processes s'.processes := by
  by_cases hstate : t.state = .starting
  · cases pickDispatch_starting ht hstate hd with
    | start => exact .refl .refl s.processes
    | load p r hpriv hp hps hload =>
        cases ploadLoadProcess_cases ht hp hload with
        | inl hfailed =>
            obtain ⟨-, st, mem, rfl⟩ := hfailed
            refine .update .refl hp fun p' hp' => ?_
            obtain rfl := Option.some.inj hp'
            exact ⟨rfl, fun _ h => h⟩
        | inr hloaded =>
            obtain ⟨-, st, entry, mem, rfl⟩ := hloaded
            refine .update .refl hp fun p' hp' => ?_
            obtain rfl := Option.some.inj hp'
            exact ⟨rfl, fun _ h => h⟩
  · obtain ⟨t₁, ht₁, -, heff⟩ := pickDispatch_ok hd
    obtain rfl := Option.some.inj (ht.symm.trans ht₁)
    cases heff with
    | select | skip | message | stale | exit => exact .refl .refl s.processes
    | start hc | load _ _ _ _ _ hc => exact absurd hc hstate
    | resume p mem frame hw hmsg hrange hp hno =>
        refine .update .refl hp fun p' hp' => ?_
        have hshrinks := Process.reaped_shrinks hp'
        exact ⟨hshrinks.privilegeLevel, hshrinks.tids⟩
    | dead => exact shrinks_dropped s.processes t.wait

/-- A round that looks at the idle thread selects it or makes it run. -/
theorem Thread.Idles.effect {tid : Int} {t : Thread} (hidles : t.Idles) (ht : s.threads tid = some t)
    (heff : PickEffect s tid t s') : ∃ t', s'.threads tid = some t' ∧ t'.Idles := by
  have hrun : Thread.Idles { t with state := .running } := ⟨hidles.privilegeLevel, .inr rfl⟩
  have hstate := hidles.state
  cases heff with
  | select | skip => exact ⟨t, ht, hidles⟩
  | start => exact ⟨_, Function.update_self .., hrun⟩
  | load p p' t' mem kmode hs hp hl hl' =>
      refine ⟨t', Function.update_self .., ?_⟩
      rcases hl' with rfl | ⟨frame, rfl⟩
      · exact hidles
      · exact ⟨hidles.privilegeLevel, .inr rfl⟩
  | message _ hw | stale hw | resume _ _ _ hw | exit hw | dead hw => simp [hw] at hstate

theorem IdleInv.dispatch {tid : Int} (h : IdleInv s) (hd : pickDispatch s tid = .ok s') :
    IdleInv s' := by
  obtain ⟨t₁, ht₁, -, heff⟩ := pickDispatch_ok hd
  refine h.keeps heff.idletid (fun t ht hidles => ?_) (pickDispatch_shrinks ht₁ hd)
  by_cases htid : s.idletid = tid
  · rw [htid] at ht ⊢
    obtain rfl := Option.some.inj (ht.symm.trans ht₁)
    exact hidles.effect ht heff
  · rw [heff.other htid]
    exact ⟨t, ht, hidles⟩

theorem IdleInv.round {loop : Bool} (h : IdleInv s)
    (hd : pickDispatch (pickFetch s loop).2.1 (pickFetch s loop).1 = .ok s') : IdleInv s' := by
  obtain ⟨l, hl⟩ := pickFetch_eq s loop
  rw [hl] at hd
  have hmoved : IdleInv { s with queueLoc := l } := ⟨h.thread, h.listed⟩
  exact hmoved.dispatch hd

/-- What a round does to the queue: it moves on, or it removes a dead thread. -/
theorem ScanInv.entry_round {loop : Bool} {l : Int} (h : ScanInv s P) (hc : s.ComesTo loop l)
    (hd : pickDispatch (pickFetch s loop).2.1 (pickFetch s loop).1 = .ok s') :
    ∃ t, s.threads (s.queue l) = some t ∧
      ((t.state ≠ .dead ∧ PickEffect { s with queueLoc := l + 1 } (s.queue l) t s' ∧ ScanInv s' P) ∨
        (t.state = .dead ∧ s' = { s with queueLoc := l + 1 }.freed (s.queue l) t ∧
          ScanInv s' (P \ {s.queue l}))) := by
  rw [hc.kernel, hc.tid] at hd
  obtain ⟨t, ht, -, heff⟩ := pickDispatch_ok hd
  have hlo := hc.lo
  refine ⟨t, ht, ?_⟩
  by_cases hdead : t.state = .dead
  · have hfreed := heff.freed hdead
    exact .inr ⟨hdead, hfreed, hfreed ▸ h.freed hlo hc.hi t⟩
  · refine .inl ⟨hdead, heff, ?_⟩
    exact (h.moved (by omega)).same (heff.sameQueue ht hdead) heff.idletid

/-- At the end of the queue the round looks at the idle thread. -/
theorem ScanInv.end_round {loop : Bool} (h : ScanInv s P) (hidle : IdleInv s) (hc : s.ComesToEnd loop)
    (hd : pickDispatch (pickFetch s loop).2.1 (pickFetch s loop).1 = .ok s') :
    ∃ l t, 0 ≤ l ∧ s.queueEnd ≤ l ∧ s.threads s.idletid = some t ∧ t.Idles ∧
      pickDispatch { s with queueLoc := l } s.idletid = .ok s' ∧
      PickEffect { s with queueLoc := l } s.idletid t s' ∧ ScanInv s' P := by
  rw [hc.fetch] at hd
  obtain ⟨t, ht, hidles⟩ := hidle.thread
  obtain ⟨t₁, ht₁, -, heff⟩ := pickDispatch_ok hd
  obtain rfl := Option.some.inj (ht.symm.trans ht₁)
  have hloc := h.loc
  have hends := hc.ends
  have hl : 0 ≤ (if loop then s.queueLoc else 0) ∧ s.queueEnd ≤ if loop then s.queueLoc else 0 := by
    cases hc.passed with
    | inl hloop =>
        rw [if_pos hloop]
        exact ⟨hloc, hends⟩
    | inr hle => split_ifs <;> omega
  have halive : t.state ≠ .dead := by
    intro hdead
    have hstate := hidles.state
    simp [hdead] at hstate
  exact ⟨_, t, hl.1, hl.2, ht, hidles, hd, heff,
    (h.moved hl.1).same (heff.sameQueue ht₁ halive) heff.idletid⟩

theorem ScanInv.round {loop : Bool} (h : ScanInv s P) (hs : Tables s) (hidle : IdleInv s)
    (hd : pickDispatch (pickFetch s loop).2.1 (pickFetch s loop).1 = .ok s') : ∃ P', ScanInv s' P' := by
  cases h.fetch hs loop with
  | inl hentry =>
      obtain ⟨l, hc⟩ := hentry
      obtain ⟨t, -, hround⟩ := h.entry_round hc hd
      cases hround with
      | inl hpassed => exact ⟨P, hpassed.2.2⟩
      | inr hremoved => exact ⟨_, hremoved.2.2⟩
  | inr hend =>
      obtain ⟨l, t, -, -, -, -, -, -, hinv⟩ := h.end_round hidle hend hd
      exact ⟨P, hinv⟩

/-! ### Calls -/

/-- The call ends a process. -/
def Call.ends : Call → Bool
  | .exitProcess _ | .killProcess _ => true
  | _ => false

/-- System calls are made by running threads other than the idle one, processes are ended by
user-mode processes, and the break is moved for a process that has been loaded. -/
structure Call.Disciplined (s : Kernel) (c : Call) : Prop where
  living : c.ByLiving s
  apart : c.actor s ≠ some s.idletid
  user : c.ends = true → ∀ p, s.currentProcess = .ok p → p.privilegeLevel ≠ 0
  loaded : c.BreakLoaded s

theorem Call.Disciplined.ne {c : Call} {tid : Int} (h : c.Disciplined s) (hc : c.actor s = some tid) :
    tid ≠ s.idletid := fun heq => h.apart (heq ▸ hc)

theorem IdleInv.exec {c : Call} {r : Int} (h : IdleInv s) (hs : Tables s) (hok : c.Disciplined s)
    (hexec : exec s c = .ok (r, s')) : IdleInv s' := by
  cases c with
  | createProcess privilege name => exact h.created (schedCreateProcess_ok hexec).2
  | createThread ownerpid noqueue entrypoint => exact h.spawned hs (schedCreateThread_ok hexec).2
  | forkThread tid regs =>
      rcases schedForkThread_ok hexec with ⟨rfl, -⟩ | ⟨-, pid, hspawn⟩
      · exact h
      · exact h.spawned hs hspawn
  | loadProcess q =>
      rcases ploadCreateProcess_ok hexec with rfl | ⟨s₁, hcreate, hspawn⟩
      · exact h
      · exact (h.created hcreate).spawned (hs.created hcreate) hspawn
  | exitThread =>
      obtain ⟨t, -, rfl⟩ := schedExitThread_ok (noResult_ok hexec)
      exact h.setThread (hok.ne rfl)
  | exitProcess exitcode =>
      obtain ⟨pid, p, mem, hcur, hp, rfl⟩ := schedExitProcess_current hs hexec
      exact h.ended hp (hok.user rfl p (Kernel.currentProcess_ok.mpr ⟨pid, hcur, hp⟩)) exitcode mem
  | killProcess pid =>
      rcases schedKillProcess_killed hexec with ⟨rfl, -⟩ | ⟨p, cur, mem, hp, hcur, -, hle, rfl⟩
      · exact h
      · have hpos := hok.user rfl cur hcur
        exact h.ended hp (by omega) _ mem
  | suspendThread irq tid =>
      obtain ⟨t, -, rfl⟩ := schedSuspendThread_ok (noResult_ok hexec)
      exact h.setThread (hok.ne rfl)
  | checkSuspended irq =>
      obtain rfl : schedCheckSuspendedThreads s irq = s' := (exec_pair hexec).2
      refine h.keeps rfl (fun t ht hidles => ⟨t, ?_, hidles⟩) (.refl .refl s.processes)
      have hstate := hidles.state
      simp only [schedCheckSuspendedThreads, ht, Option.map_some, Thread.wake, Option.some.injEq]
      exact if_neg fun hw => by simp [hw.1] at hstate
  | waitProcess pid =>
      rcases schedWaitProcess_ok hexec with ⟨rfl, -⟩ | ⟨-, t₁, p, -, hp, -, rfl⟩
      · exact h
      · have hne := hok.ne rfl
        refine h.keeps rfl (fun t ht hidles => ⟨t, ?_, hidles⟩) (.update .refl hp fun p' hp' => ?_)
        · simp only [Kernel.waited, Function.update_of_ne hne.symm]
          exact ht
        · obtain rfl := Option.some.inj hp'
          exact ⟨rfl, fun _ h => h⟩
  | pickNext =>
      exact schedPickNext_inv (I := IdleInv) ⟨h.thread, h.listed⟩ (fun _ _ _ hI _ hd => hI.round hd)
        (heads_true _ _) (noResult_ok hexec)
  | interfaceDelete name pid =>
      obtain rfl := (exec_pair hexec).2
      rcases interfaceDelete_eq s name pid with hd | ⟨addr, intfaces, hd⟩
      · rw [hd]
        exact h
      · rw [hd]
        refine h.keeps rfl (fun t ht hidles => ⟨t, ?_, hidles⟩) (.refl .refl s.processes)
        have hstate := hidles.state
        simp only [ht, Option.map_some, Thread.unwait, Option.some.injEq]
        exact if_neg fun hw => by simp [hw.1] at hstate
  | interfaceWait name tid =>
      rcases interfaceWait_ok hexec with ⟨rfl, -⟩ | ⟨-, t, addr, -, rfl⟩
      · exact h
      · exact h.setThread (hok.ne rfl)
  | _ =>
      obtain ⟨mem, processes, intfaces, size, next, hrel, rfl⟩ :=
        exec_quietBy Process.Shrinks.quietRel hs rfl hexec
      refine h.keeps rfl (fun t ht hidles => ⟨t, ht, hidles⟩) fun pid p' hp' => ?_
      have hpid := hrel pid
      simp only at hp'
      rw [hp'] at hpid
      exact rel_some_right hpid

theorem ScanInv.pickNext (h : ScanInv s P) (hs : Tables s) (hidle : IdleInv s)
    (hp : schedPickNext s = .ok s') : ∃ P', ScanInv s' P' := by
  have hinv : Tables s' ∧ IdleInv s' ∧ ∃ P', ScanInv s' P' := by
    refine schedPickNext_inv (I := fun s => Tables s ∧ IdleInv s ∧ ∃ P', ScanInv s P')
      ⟨hs.keeps ⟨rfl, rfl, .refl s.processes, .refl s.threads⟩, ⟨hidle.thread, hidle.listed⟩, P,
        ⟨h.start, h.loc, h.ends, h.entries, h.live, h.apart⟩⟩ ?_ (heads_true _ _) hp
    rintro s loop s₂ ⟨hs, hidle, P, h⟩ - hd
    exact ⟨hs.round hd, hidle.round hd, h.round hs hidle hd⟩
  exact hinv.2.2

theorem ScanInv.exec {c : Call} {r : Int} (h : ScanInv s P) (hs : Tables s) (hidle : IdleInv s)
    (hexec : exec s c = .ok (r, s')) : ∃ P', ScanInv s' P' := by
  have hknown := (hidle.known hs).2
  cases c with
  | createThread ownerpid noqueue entrypoint =>
      exact h.spawned hs hknown (schedCreateThread_ok hexec).2
  | forkThread tid regs =>
      rcases schedForkThread_ok hexec with ⟨rfl, -⟩ | ⟨-, pid, hspawn⟩
      · exact ⟨P, h⟩
      · exact h.spawned hs hknown hspawn
  | loadProcess q =>
      rcases ploadCreateProcess_ok hexec with rfl | ⟨s₁, hcreate, hspawn⟩
      · exact ⟨P, h⟩
      · have hs₁ := hs.created hcreate
        exact (h.same hcreate.sameQueue hcreate.grows.idletid).spawned hs₁
          ((hidle.created hcreate).known hs₁).2 hspawn
  | pickNext => exact h.pickNext hs hidle (noResult_ok hexec)
  | _ => exact ⟨P, h.same (exec_sameQueue hs rfl hexec) (exec_grows hs hexec).idletid⟩

theorem IdleInv.started (h : Started s) : IdleInv s := by
  obtain ⟨mem, eflags, idleLoop, h⟩ := h
  simp only [schedInit, bind_ok, Prod.exists, Except.ok.injEq] at h
  obtain ⟨pid, s₁, hcreate, tid, s₂, hthread, rfl⟩ := h
  obtain ⟨cr3Virt, cr3, p, -, hp, hpriv, -, hpid, hps, -⟩ := schedCreateProcess_new hcreate
  obtain ⟨p₁, t₁, hp₁, ht₁, hpriv₁⟩ := schedCreateThread_privilege hthread
  obtain ⟨rfl, -, p₂, t, mem₂, hp₂, hfresh, rfl⟩ := schedCreateThread_ok hthread
  obtain rfl := Option.some.inj (hp.symm.trans hp₁)
  obtain rfl := Option.some.inj (hp.symm.trans hp₂)
  obtain rfl : t = t₁ := by simpa using ht₁
  refine ⟨⟨t, Function.update_self .., hpriv₁.trans hpriv, .inl hfresh.state⟩, fun i q hq _ => ?_⟩
  by_cases hi : i = pid
  · subst hi
    simp only [Function.update_self, Option.some.injEq] at hq
    exact hq ▸ hpriv
  · simp only [Function.update_of_ne hi, hps, Function.update_of_ne (hpid ▸ hi)] at hq
    cases hq

theorem ScanInv.started (h : Started s) : ∃ P, ScanInv s P := by
  obtain ⟨mem, eflags, idleLoop, h⟩ := h
  simp only [schedInit, bind_ok, Prod.exists, Except.ok.injEq] at h
  obtain ⟨pid, s₁, hcreate, tid, s₂, hthread, rfl⟩ := h
  obtain ⟨-, p, mem₁, -, rfl⟩ := schedCreateProcess_ok hcreate
  obtain ⟨-, -, p', t, mem₂, -, -, rfl⟩ := schedCreateThread_ok hthread
  exact ⟨∅, rfl, Int.le_refl _, Int.le_refl _, enumerates_empty _ _, fun _ h => h.elim, fun h => h⟩

end GalaxyOS
