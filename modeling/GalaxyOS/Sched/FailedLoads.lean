import GalaxyOS.Sched.Waiters

/-! # Loads that fail

`pload_load_process` marks the process as loading and clears `kmode` before it can fail, and an
error leaves both so.  The scheduler drops the error: the thread that was to be loaded is still
starting, and at the next pass `sched_pick_next` takes the mark for a load that another thread has
begun and starts the thread, whose entry point is still the number that
`pload_create_process` has put there.

A failed load stays contained as long as no pass comes back to such a thread, and `kmode` is as it
was if it was zero.

`failures_contained` says so of every failed load of a run.  `FailInv.load` and `FailInv.start` are the
rounds of the scheduler that load and start, and `FailInv.other` covers the other calls. -/

namespace GalaxyOS

open Transition

/-- The entry point of a thread whose process is still to be loaded. -/
def placeholder : ℕ := 0xFEFEFEFE

/-- A load that has returned an error, with `kmode` before and after it. -/
structure LoadFailure where
  pid : Int
  before : Bool
  after : Bool
deriving DecidableEq, Repr

/-- The process that a round loads when it looks at the thread. -/
def Kernel.loads (s : Kernel) (tid : Int) : Option Int :=
  (s.threads tid).bind fun t => (s.processes t.pid).bind fun p =>
    if t.state = .starting ∧ t.privilegeLevel ≠ 0 ∧ p.state = .starting then some t.pid else none

/-- The failure of a load, if it fails. -/
def loadFailure (s : Kernel) (tid pid : Int) : List LoadFailure :=
  match ploadLoadProcess memoryPolicy s pid tid with
  | .ok (r, s') => if r ≠ 0 then [⟨pid, s.kmode, s'.kmode⟩] else []
  | .error _ => []

/-- The failure of the load that a round makes. -/
def roundFailures (st : Kernel × Bool) : List LoadFailure :=
  (((pickFetch st.1 st.2).2.1.loads (pickFetch st.1 st.2).1).map
    (loadFailure (pickFetch st.1 st.2).2.1 (pickFetch st.1 st.2).1)).getD []

/-- The failed loads of a call. -/
def Call.failures (s : Kernel) : Call → List LoadFailure
  | .pickNext => gather roundFailures pickBody (pickFuel s) ({ s with currenttid := -1 }, false)
  | _ => []

/-- A call, or an assignment to `kmode` as at the end of the boot and around every system call. -/
inductive FailAct where
  | call (c : Call)
  | setKmode (kmode : Bool)

/-- A state of the kernel with the loads that have failed so far. -/
structure FailState where
  kernel : Kernel
  failures : List LoadFailure

def FailState.exec (st : FailState) : FailAct → Except Fault FailState
  | .call c => do
      let (_, s') ← GalaxyOS.exec st.kernel c
      .ok ⟨s', st.failures ++ c.failures st.kernel⟩
  | .setKmode kmode => .ok ⟨{ st.kernel with kmode := kmode }, st.failures⟩

def FailStep (st : FailState) (a : FailAct) (st' : FailState) : Prop := st.exec a = .ok st'

def FailStart (st : FailState) : Prop := Started st.kernel ∧ st.failures = []

/-- No thread of a process that has failed to load runs from the placeholder, and every failed load
has left `kmode` as it was. -/
def FailuresContained (st : FailState) : Prop :=
  ∀ x ∈ st.failures, x.after = x.before ∧ ∀ tid t, st.kernel.threads tid = some t →
    t.pid = x.pid → t.state = .running → t.frame.eip ≠ placeholder

/-- A load of the round that fails begins with `kmode` zero, and the round does not look at a
starting thread with the placeholder whose process is marked as loading. -/
def LoadClean (st : Kernel × Bool) : Prop :=
  (∀ x ∈ roundFailures st, x.before = false) ∧
  ∀ t, st.1.threads (pickFetch st.1 st.2).1 = some t → t.state = .starting →
    t.privilegeLevel ≠ 0 → (st.1.processes t.pid).map Process.state = some .loading →
    t.frame.eip ≠ placeholder

instance LoadClean.decidable : DecidablePred LoadClean := fun st =>
  have : DecidablePred fun t : Thread => t.state = .starting → t.privilegeLevel ≠ 0 →
      (st.1.processes t.pid).map Process.state = some .loading → t.frame.eip ≠ placeholder :=
    fun _ => inferInstanceAs (Decidable (_ → _))
  have : Decidable (∀ t, st.1.threads (pickFetch st.1 st.2).1 = some t → t.state = .starting →
      t.privilegeLevel ≠ 0 → (st.1.processes t.pid).map Process.state = some .loading →
      t.frame.eip ≠ placeholder) := decidableForallSome _
  inferInstanceAs (Decidable (_ ∧ _))

/-- What the callers promise. -/
def FailAct.Promised (st : FailState) : FailAct → Prop
  | .call c => c.OnRunning st.kernel
  | .setKmode _ => True

/-- What the callers promise, and that the rounds are clean. -/
def FailAct.Clean (st : FailState) : FailAct → Prop
  | .call c => c.OnRunning st.kernel ∧ c.Rounds LoadClean st.kernel
  | .setKmode _ => True

instance : DecidableRel fun (st : FailState) (a : FailAct) => a.Promised st
  | st, .call c => inferInstanceAs (Decidable (c.OnRunning st.kernel))
  | _, .setKmode _ => .isTrue trivial

instance : DecidableRel fun (st : FailState) (a : FailAct) => a.Clean st
  | st, .call c => inferInstanceAs (Decidable (c.OnRunning st.kernel ∧ c.Rounds LoadClean st.kernel))
  | _, .setKmode _ => .isTrue trivial

/-! ### The invariant -/

/-- The thread has not begun to run, or it has ended. -/
def Thread.Unstarted (t : Thread) : Prop :=
  t.state = .starting ∨ t.state = .exiting ∨ t.state = .dead

/-- What is known of the threads and the process of a failed load. -/
structure LoadFailure.Contained (x : LoadFailure) (s : Kernel) : Prop where
  kmode : x.after = x.before
  known : x.pid < s.lastPid
  process : ∀ p, s.processes x.pid = some p →
    (p.state = .loading ∨ p.state = .exiting) ∧ p.privilegeLevel ≠ 0
  thread : ∀ tid t, s.threads tid = some t → t.pid = x.pid →
    t.privilegeLevel ≠ 0 ∧ (t.Unstarted ∨ t.frame.eip ≠ placeholder)

structure FailInv (s : Kernel) (failures : List LoadFailure) : Prop where
  level : ∀ tid t p, s.threads tid = some t → s.processes t.pid = some p →
    t.privilegeLevel = p.privilegeLevel
  unstarted : ∀ tid t p, s.threads tid = some t → s.processes t.pid = some p →
    p.state = .starting → t.privilegeLevel ≠ 0 → t.Unstarted
  contained : ∀ x ∈ failures, x.Contained s

variable {s s' : Kernel} {fs : List LoadFailure}

theorem FailInv.exact {st : FailState} (h : FailInv st.kernel st.failures) :
    FailuresContained st := by
  intro x hx
  have hc := h.contained x hx
  refine ⟨hc.kmode, fun tid t ht hpid hrun => ?_⟩
  apply (hc.thread tid t ht hpid).2.resolve_left
  unfold Thread.Unstarted
  simp [hrun]

/-! ### Steps that load nothing -/

/-- The thread keeps its entry point, and if it has not begun to run, it still has not. -/
structure Thread.SameEntry (t t' : Thread) : Prop where
  pid : t'.pid = t.pid
  privilegeLevel : t'.privilegeLevel = t.privilegeLevel
  eip : t'.frame.eip = t.frame.eip
  unstarted : t.Unstarted → t'.Unstarted

theorem Thread.SameEntry.refl (t : Thread) : t.SameEntry t := ⟨rfl, rfl, rfl, id⟩

/-- The process has kept its state, or it is ending. -/
structure Process.SameLoad (p p' : Process) : Prop where
  privilegeLevel : p'.privilegeLevel = p.privilegeLevel
  state : p'.state = p.state ∨ p'.state = .exiting

theorem Process.SameLoad.refl (p : Process) : p.SameLoad p := ⟨rfl, .inl rfl⟩

/-- Threads and processes are the same but for what no load depends on. -/
structure Kernel.SameLoads (s s' : Kernel) : Prop where
  lastPid : s'.lastPid = s.lastPid
  processes : Carried Process.SameLoad s.processes s'.processes
  threads : Carried Thread.SameEntry s.threads s'.threads

theorem Kernel.SameLoads.refl (s : Kernel) : s.SameLoads s :=
  ⟨rfl, .refl .refl s.processes, .refl .refl s.threads⟩

theorem LoadFailure.Contained.same {x : LoadFailure} (h : x.Contained s) (hs : s.SameLoads s') :
    x.Contained s' := by
  refine ⟨h.kmode, by rw [hs.lastPid]; exact h.known, ?_, ?_⟩
  · intro p' hp'
    obtain ⟨p, hp, hsame⟩ := hs.processes _ p' hp'
    obtain ⟨hstate, hpriv⟩ := h.process p hp
    refine ⟨?_, by rw [hsame.privilegeLevel]; exact hpriv⟩
    rcases hsame.state with hc | hc
    · rwa [hc]
    · exact .inr hc
  · intro tid t' ht' hpid
    obtain ⟨t, ht, hsame⟩ := hs.threads tid t' ht'
    rw [hsame.pid] at hpid
    obtain ⟨hpriv, heip⟩ := h.thread tid t ht hpid
    rw [hsame.privilegeLevel, hsame.eip]
    exact ⟨hpriv, heip.imp_left hsame.unstarted⟩

theorem FailInv.same (h : FailInv s fs) (hs : s.SameLoads s') : FailInv s' fs := by
  refine ⟨?_, ?_, fun x hx => (h.contained x hx).same hs⟩
  · intro tid t' p' ht' hp'
    obtain ⟨t, ht, hst⟩ := hs.threads tid t' ht'
    obtain ⟨p, hp, hsp⟩ := hs.processes _ p' hp'
    rw [hst.pid] at hp
    rw [hst.privilegeLevel, hsp.privilegeLevel]
    exact h.level tid t p ht hp
  · intro tid t' p' ht' hp' hstate hpriv
    obtain ⟨t, ht, hst⟩ := hs.threads tid t' ht'
    obtain ⟨p, hp, hsp⟩ := hs.processes _ p' hp'
    rw [hst.pid] at hp
    rw [hst.privilegeLevel] at hpriv
    apply hst.unstarted
    apply h.unstarted tid t p ht hp ?_ hpriv
    rcases hsp.state with hc | hc
    · rwa [hc] at hstate
    · rw [hc] at hstate
      cases hstate

/-! ### Creation -/

theorem FailInv.created (h : FailInv s fs) (hs : Tables s) (hc : s.Created s') : FailInv s' fs := by
  obtain ⟨p₀, mem, hfresh, rfl⟩ := hc
  have hold : ∀ tid t, s.threads tid = some t →
      Function.update s.processes s.lastPid (some p₀) t.pid = s.processes t.pid := by
    intro tid t ht
    have hrange := (hs.tid tid t ht).2.1
    exact Function.update_of_ne (by omega) _ _
  refine ⟨?_, ?_, ?_⟩
  · intro tid t p ht hp
    simp only [hold tid t ht] at hp
    exact h.level tid t p ht hp
  · intro tid t p ht hp
    simp only [hold tid t ht] at hp
    exact h.unstarted tid t p ht hp
  · intro x hx
    have hc := h.contained x hx
    have hknown := hc.known
    refine ⟨hc.kmode, by simp only; omega, fun p hp => ?_, hc.thread⟩
    simp only [Function.update_of_ne (show x.pid ≠ s.lastPid by omega)] at hp
    exact hc.process p hp

/-- A thread is created with the privilege of its process. -/
theorem FailInv.spawned {pid : Int} {noqueue : Bool} {p : Process} {t : Thread} (h : FailInv s fs)
    (hspawn : s.Spawned pid noqueue s') (hp : s.processes pid = some p)
    (ht : s'.threads s.lastTid = some t) (hpriv : t.privilegeLevel = p.privilegeLevel) :
    FailInv s' fs := by
  obtain ⟨-, q, t₁, mem, hq, hfresh, rfl⟩ := hspawn
  obtain rfl := Option.some.inj (hp.symm.trans hq)
  obtain rfl : t₁ = t := by simpa using ht
  have hnew : t₁.Unstarted := .inl hfresh.state
  -- the process has one more thread in its list
  have hproc : ∀ i p', Function.update s.processes pid (some { p with
      tids := p.tids ++ [s.lastTid], tidsSize := (p.growTids s.growThreads.threadsSize).tidsSize
      tidsCap := (p.growTids s.growThreads.threadsSize).tidsCap }) i = some p' →
      ∃ p₀, s.processes i = some p₀ ∧ p'.privilegeLevel = p₀.privilegeLevel ∧ p'.state = p₀.state :=
    Carried.update (r := fun p₀ p' : Process => p'.privilegeLevel = p₀.privilegeLevel ∧
      p'.state = p₀.state) (fun _ => ⟨rfl, rfl⟩) hp fun p' hp' => by
        obtain rfl := Option.some.inj hp'
        exact ⟨rfl, rfl⟩
  refine ⟨?_, ?_, fun x hx => ?_⟩
  · intro tid t' p' ht' hp'
    obtain ⟨p₀, hp₀, hlevel, -⟩ := hproc _ p' hp'
    rw [hlevel]
    by_cases hi : tid = s.lastTid
    · obtain rfl : t₁ = t' := by simpa [hi] using ht'
      rw [hfresh.pid, hp] at hp₀
      rw [hpriv, Option.some.inj hp₀]
    · simp only [Function.update_of_ne hi] at ht'
      exact h.level tid t' p₀ ht' hp₀
  · intro tid t' p' ht' hp' hstate hne
    obtain ⟨p₀, hp₀, -, hst⟩ := hproc _ p' hp'
    by_cases hi : tid = s.lastTid
    · obtain rfl : t₁ = t' := by simpa [hi] using ht'
      exact hnew
    · simp only [Function.update_of_ne hi] at ht'
      exact h.unstarted tid t' p₀ ht' hp₀ (hst ▸ hstate) hne
  · have hc := h.contained x hx
    refine ⟨hc.kmode, hc.known, fun p' hp' => ?_, fun tid t' ht' hpid => ?_⟩
    · obtain ⟨p₀, hp₀, hlevel, hst⟩ := hproc _ p' hp'
      rw [hlevel, hst]
      exact hc.process p₀ hp₀
    · by_cases hi : tid = s.lastTid
      · obtain rfl : t₁ = t' := by simpa [hi] using ht'
        rw [hfresh.pid] at hpid
        subst hpid
        rw [hpriv]
        exact ⟨(hc.process p hp).2, .inl hnew⟩
      · simp only [Function.update_of_ne hi] at ht'
        exact hc.thread tid t' ht' hpid

/-! ### Rounds of the scheduler -/

theorem sameEntry_set {ts : Int → Option Thread} {tid : Int} {t t' : Thread} (ht : ts tid = some t)
    (h : t.SameEntry t') : Carried Thread.SameEntry ts (Function.update ts tid (some t')) :=
  Carried.update .refl ht fun t'' ht'' => by
    obtain rfl := Option.some.inj ht''
    exact h

/-- A thread that has begun to run and has not ended may change its state at will. -/
theorem Thread.SameEntry.of_started {t t' : Thread} (hpid : t'.pid = t.pid)
    (hpriv : t'.privilegeLevel = t.privilegeLevel) (heip : t'.frame.eip = t.frame.eip)
    (hstate : ¬t.Unstarted) : t.SameEntry t' := ⟨hpid, hpriv, heip, fun h => absurd h hstate⟩

theorem Process.reaped_sameLoad {p p' : Process} (h : p.reaped = some p') : p.SameLoad p' := by
  unfold Process.reaped Process.dropTids at h
  split_ifs at h <;> cases h <;> exact ⟨rfl, .inl rfl⟩

/-- A round that does not look at a starting thread loads nothing. -/
theorem pickDispatch_sameLoads {tid : Int} {t : Thread} (ht : s.threads tid = some t)
    (hstate : t.state ≠ .starting) (hd : pickDispatch s tid = .ok s') : s.SameLoads s' := by
  have hset : ∀ t' : Thread, t.SameEntry t' → s.SameLoads (s.setThread tid (some t')) := fun t' h =>
    ⟨rfl, .refl .refl s.processes, sameEntry_set ht h⟩
  obtain ⟨t₁, ht₁, -, heff⟩ := pickDispatch_ok hd
  obtain rfl := Option.some.inj (ht.symm.trans ht₁)
  cases heff with
  | select => exact ⟨rfl, .refl .refl s.processes, .refl .refl s.threads⟩
  | skip => exact .refl s
  | message addr hw hmsg => exact hset _ (.of_started rfl rfl rfl (by simp [Thread.Unstarted, hw]))
  | stale hw hmsg => exact hset _ (.of_started rfl rfl rfl (by simp [Thread.Unstarted, hw]))
  | resume p mem frame hw hmsg hrange hp hno =>
      rcases pickDispatch_waiting ht hw hmsg hrange hp hd with hsame | ⟨-, mem', hres⟩
      · rw [hsame]
        exact .refl s
      · rw [hres]
        refine ⟨rfl, Carried.update .refl hp fun p' hp' => ?_, sameEntry_set ht ?_⟩
        · have hsame := Process.reaped_sameLoad hp'
          exact ⟨hsame.privilegeLevel, hsame.state⟩
        · exact .of_started rfl rfl rfl (by simp [Thread.Unstarted, hw])
  | start h | load _ _ _ _ _ h => exact absurd h hstate
  | exit hw => exact hset _ ⟨rfl, rfl, rfl, fun _ => .inr (.inr rfl)⟩
  | dead =>
      refine ⟨rfl, ?_, .erase .refl s.threads tid⟩
      simp only [Kernel.freed, droppedWaiter]
      split_ifs with h0
      · exact .refl .refl s.processes
      · cases hp : s.processes t.wait with
        | none =>
            rw [Option.map_none, Function.update_eq_self_iff.mpr hp.symm]
            exact .refl .refl s.processes
        | some p =>
            refine Carried.update .refl hp fun p' hp' => ?_
            obtain rfl : { p with waitingThreads := p.waitingThreads - 1 } = p' := by simpa using hp'
            exact ⟨rfl, .inl rfl⟩

/-- What a round does with a starting thread. -/
inductive StartEffect (s : Kernel) (tid : Int) (t : Thread) : Kernel → Prop
  | start : (t.privilegeLevel ≠ 0 → ∃ p, s.processes t.pid = some p ∧ p.state ≠ .starting) →
      StartEffect s tid t (s.setThread tid (some { t with state := .running }))
  | load (p : Process) (r : Int) {s' : Kernel} : t.privilegeLevel ≠ 0 →
      s.processes t.pid = some p → p.state = .starting →
      ploadLoadProcess memoryPolicy s t.pid tid = .ok (r, s') → StartEffect s tid t s'

theorem pickDispatch_starting {tid : Int} {t : Thread} (ht : s.threads tid = some t)
    (hstate : t.state = .starting) (hd : pickDispatch s tid = .ok s') : StartEffect s tid t s' := by
  obtain ⟨t₁, ht₁, hlive, -⟩ := pickDispatch_ok hd
  obtain rfl := Option.some.inj (ht.symm.trans ht₁)
  simp only [pickDispatch, ht, bind_ok, hstate, pickStarting] at hd
  obtain ⟨-, -, hd⟩ := hd
  split_ifs at hd with hpriv
  · obtain rfl := Except.ok.inj hd
    exact .start fun hne => absurd hpriv hne
  · simp only [bind_ok, Kernel.liveProcess_ok] at hd
    obtain ⟨p, hp, hd⟩ := hd
    cases hps : p.state with
    | starting =>
        simp only [hps, bind_ok, Prod.exists, Except.ok.injEq] at hd
        obtain ⟨r, s₁, hload, rfl⟩ := hd
        exact .load p r hpriv hp hps hload
    | running =>
        simp only [hps, Except.ok.injEq] at hd
        subst hd
        exact .start fun _ => ⟨p, hp, by simp [hps]⟩
    | loading =>
        simp only [hps, Except.ok.injEq] at hd
        subst hd
        exact .start fun _ => ⟨p, hp, by simp [hps]⟩
    | exiting =>
        obtain ⟨q, hq, hne⟩ := hlive (by simp [hstate])
        obtain rfl := Option.some.inj (hp.symm.trans hq)
        exact absurd hps hne

theorem loads_of_start {tid : Int} {t : Thread} (ht : s.threads tid = some t)
    (h : t.privilegeLevel ≠ 0 → ∃ p, s.processes t.pid = some p ∧ p.state ≠ .starting) :
    s.loads tid = none := by
  simp only [Kernel.loads, ht, Option.bind_some]
  cases hp : s.processes t.pid with
  | none => rfl
  | some p =>
      rw [Option.bind_some, if_neg]
      rintro ⟨-, hpriv, hps⟩
      obtain ⟨q, hq, hne⟩ := h hpriv
      obtain rfl := Option.some.inj (hp.symm.trans hq)
      exact hne hps

/-- A thread that is started is not one of a process that has failed to load. -/
theorem FailInv.start {tid : Int} {t : Thread} (h : FailInv s fs) (ht : s.threads tid = some t)
    (hproc : t.privilegeLevel ≠ 0 → ∃ p, s.processes t.pid = some p ∧ p.state ≠ .starting)
    (hlive : ∃ p, s.processes t.pid = some p ∧ p.state ≠ .exiting)
    (hclean : t.privilegeLevel ≠ 0 → (s.processes t.pid).map Process.state = some .loading →
      t.frame.eip ≠ placeholder) :
    FailInv (s.setThread tid (some { t with state := .running })) fs := by
  refine ⟨?_, ?_, fun x hx => ?_⟩
  · intro i t' p ht' hp
    by_cases hi : i = tid
    · subst hi
      simp only [Kernel.setThread_threads, Function.update_self, Option.some.injEq] at ht'
      subst ht'
      exact h.level i t p ht hp
    · simp only [Kernel.setThread_threads, Function.update_of_ne hi] at ht'
      exact h.level i t' p ht' hp
  · intro i t' p ht' hp hps hpriv
    by_cases hi : i = tid
    · subst hi
      simp only [Kernel.setThread_threads, Function.update_self, Option.some.injEq] at ht'
      subst ht'
      obtain ⟨q, hq, hne⟩ := hproc hpriv
      obtain rfl := Option.some.inj (hq.symm.trans hp)
      exact absurd hps hne
    · simp only [Kernel.setThread_threads, Function.update_of_ne hi] at ht'
      exact h.unstarted i t' p ht' hp hps hpriv
  · have hc := h.contained x hx
    refine ⟨hc.kmode, hc.known, hc.process, fun i t' ht' hpid => ?_⟩
    by_cases hi : i = tid
    · subst hi
      simp only [Kernel.setThread_threads, Function.update_self, Option.some.injEq] at ht'
      subst ht'
      have hpriv := (hc.thread i t ht hpid).1
      obtain ⟨p, hp, hne⟩ := hlive
      have hpx : s.processes x.pid = some p := by
        rw [← hpid]
        exact hp
      have hloading : p.state = .loading := (hc.process p hpx).1.resolve_right hne
      exact ⟨hpriv, .inr (hclean hpriv (by rw [hp, Option.map_some, hloading]))⟩
    · simp only [Kernel.setThread_threads, Function.update_of_ne hi] at ht'
      exact hc.thread i t' ht' hpid

/-- The process of a load that is still to be made has not failed to load before. -/
theorem FailInv.fresh {pid : Int} {p : Process} (h : FailInv s fs) (hp : s.processes pid = some p)
    (hps : p.state = .starting) {x : LoadFailure} (hx : x ∈ fs) : x.pid ≠ pid := by
  intro hpid
  rcases ((h.contained x hx).process p (hpid ▸ hp)).1 with hc | hc
  · rw [hps] at hc
    cases hc
  · rw [hps] at hc
    cases hc

theorem FailInv.loaded {tid : Int} {t : Thread} {p : Process} (h : FailInv s fs)
    (ht : s.threads tid = some t) (hp : s.processes t.pid = some p) (hps : p.state = .starting)
    (p' : Process) (t' : Thread)
    (hpriv : p'.privilegeLevel = p.privilegeLevel) (hps' : p'.state ≠ .starting)
    (hpid : t'.pid = t.pid) (hlevel : t'.privilegeLevel = t.privilegeLevel) (mem : Mem)
    (kmode : Bool) : FailInv { s with
      mem := mem, kmode := kmode
      processes := Function.update s.processes t.pid (some p')
      threads := Function.update s.threads tid (some t') } fs := by
  refine ⟨?_, ?_, fun x hx => ?_⟩
  · intro i u q hu hq
    by_cases hi : i = tid
    · subst hi
      obtain rfl : t' = u := by simpa using hu
      rw [hpid] at hq
      obtain rfl : p' = q := by simpa using hq
      rw [hlevel, hpriv]
      exact h.level i t p ht hp
    · simp only [Function.update_of_ne hi] at hu
      by_cases hj : u.pid = t.pid
      · rw [hj] at hq
        obtain rfl : p' = q := by simpa using hq
        rw [hpriv]
        exact h.level i u p hu (hj ▸ hp)
      · simp only [Function.update_of_ne hj] at hq
        exact h.level i u q hu hq
  · intro i u q hu hq hqs hne
    by_cases hj : u.pid = t.pid
    · rw [hj] at hq
      obtain rfl : p' = q := by simpa using hq
      exact absurd hqs hps'
    · have hi : i ≠ tid := by
        rintro rfl
        obtain rfl : t' = u := by simpa using hu
        exact hj hpid
      simp only [Function.update_of_ne hi] at hu
      simp only [Function.update_of_ne hj] at hq
      exact h.unstarted i u q hu hq hqs hne
  · have hc := h.contained x hx
    have hx := h.fresh hp hps hx
    refine ⟨hc.kmode, hc.known, fun q hq => ?_, fun i u hu hupid => ?_⟩
    · simp only [Function.update_of_ne hx] at hq
      exact hc.process q hq
    · have hi : i ≠ tid := by
        rintro rfl
        obtain rfl : t' = u := by simpa using hu
        exact hx (hupid.symm.trans hpid)
      simp only [Function.update_of_ne hi] at hu
      exact hc.thread i u hu hupid

/-- The invariant is kept by a load, and a failure of the load is contained. -/
theorem FailInv.load {tid r : Int} {t : Thread} {p : Process} (hs : Tables s) (h : FailInv s fs)
    (ht : s.threads tid = some t) (hpriv : t.privilegeLevel ≠ 0)
    (hp : s.processes t.pid = some p) (hps : p.state = .starting)
    (hclean : ∀ x ∈ loadFailure s tid t.pid, x.before = false)
    (hload : ploadLoadProcess memoryPolicy s t.pid tid = .ok (r, s')) :
    FailInv s' (fs ++ loadFailure s tid t.pid) := by
  unfold loadFailure at hclean ⊢
  simp only [hload] at hclean ⊢
  rcases ploadLoadProcess_cases ht hp hload with ⟨rfl, st, mem, rfl⟩ | ⟨rfl, st, entry, mem, rfl⟩
  · rw [if_pos (by decide)] at hclean ⊢
    have hk : s.kmode = false := hclean _ List.mem_cons_self
    have hself : Function.update s.threads tid (some t) = s.threads :=
      Function.update_eq_self_iff.mpr ht.symm
    have hbase := h.loaded ht hp hps (p.loading st) t rfl (by simp [Process.loading]) rfl rfl mem false
    rw [hself] at hbase
    refine ⟨hbase.level, hbase.unstarted, fun x hx => ?_⟩
    rcases List.mem_append.mp hx with hx | hx
    · exact hbase.contained x hx
    · obtain rfl := List.mem_singleton.mp hx
      have hlevel := h.level tid t p ht hp
      refine ⟨hk.symm, (hs.tid tid t ht).2.1.2, fun q hq => ?_, fun i u hu hupid => ?_⟩
      · obtain rfl : p.loading st = q := by simpa using hq
        exact ⟨.inl rfl, hlevel ▸ hpriv⟩
      · have hpu : s.processes u.pid = some p := by
          rw [hupid]
          exact hp
        have hne : u.privilegeLevel ≠ 0 := by
          rw [h.level i u p hu hpu, ← hlevel]
          exact hpriv
        exact ⟨hne, .inl (h.unstarted i u p hu hpu hps hne)⟩
  · rw [if_neg (by decide), List.append_nil]
    exact h.loaded ht hp hps (p.loaded st)
      { t with frame := { t.frame with eip := entry }, state := .running } rfl
      (by simp [Process.loaded]) rfl rfl mem true

/-- What holds at the rounds of a pass, with the failures so far. -/
def FailRound (s : Kernel) (fs : List LoadFailure) : Prop := Tables s ∧ FailInv s fs

theorem FailRound.round {loop : Bool} {s₂ : Kernel} (h : FailRound s fs)
    (hclean : LoadClean (s, loop))
    (hd : pickDispatch (pickFetch s loop).2.1 (pickFetch s loop).1 = .ok s₂) :
    FailRound s₂ (fs ++ roundFailures (s, loop)) := by
  obtain ⟨hs, hinv⟩ := h
  refine ⟨hs.round hd, ?_⟩
  obtain ⟨hbefore, hentry⟩ := hclean
  unfold roundFailures at hbefore ⊢
  simp only at hbefore hentry ⊢
  obtain ⟨l, hl⟩ := pickFetch_eq s loop
  have hs₁ := hs.keeps (pickFetch_keeps s loop)
  rw [hl] at hd hs₁ hbefore ⊢
  generalize (pickFetch s loop).1 = tid at hd hbefore hentry ⊢
  have hinv₁ : FailInv { s with queueLoc := l } fs :=
    hinv.same ⟨rfl, .refl .refl s.processes, .refl .refl s.threads⟩
  obtain ⟨t, ht, hlive, -⟩ := pickDispatch_ok hd
  by_cases hstate : t.state = .starting
  · cases pickDispatch_starting ht hstate hd with
    | start hproc =>
        rw [loads_of_start ht hproc, Option.map_none, Option.getD_none, List.append_nil]
        exact hinv₁.start ht hproc (hlive (by simp [hstate])) (hentry t ht hstate)
    | load p r hpriv hp hps hload =>
        have ht₁ : s.threads tid = some t := ht
        have hp₁ : s.processes t.pid = some p := hp
        have hloads : Kernel.loads { s with queueLoc := l } tid = some t.pid := by
          simp [Kernel.loads, ht₁, hp₁, hstate, hpriv, hps]
        rw [hloads, Option.map_some, Option.getD_some] at hbefore ⊢
        exact hinv₁.load hs₁ ht hpriv hp hps hbefore hload
  · have hloads : Kernel.loads { s with queueLoc := l } tid = none := by
      have ht₁ : s.threads tid = some t := ht
      simp only [Kernel.loads, ht₁, Option.bind_some, hstate, false_and, if_false]
      cases s.processes t.pid <;> rfl
    rw [hloads, Option.map_none, Option.getD_none, List.append_nil]
    exact hinv₁.same (pickDispatch_sameLoads ht hstate hd)

theorem FailInv.pickNext (hs : Tables s) (h : FailInv s fs)
    (hclean : Call.pickNext.Rounds LoadClean s) (hpick : schedPickNext s = .ok s') :
    FailInv s' (fs ++ Call.pickNext.failures s) := by
  have hround : FailRound s' (fs ++ Call.pickNext.failures s) := by
    apply whileE_gather (I := fun st l => FailRound st.1 l) (C := LoadClean) (Q := FailRound) ?_ ?_
      ?_ hclean hpick
    · rintro ⟨s, loop⟩ l st' hI hC hb
      obtain ⟨s₂, hd, -, rfl⟩ := pickBody_inl hb
      exact hI.round hC hd
    · rintro ⟨s, loop⟩ l s₂ hI hC hb
      exact hI.round hC (pickBody_inr hb).1
    · exact ⟨hs.keeps ⟨rfl, rfl, .refl s.processes, .refl s.threads⟩,
        h.same ⟨rfl, .refl .refl s.processes, .refl .refl s.threads⟩⟩
  exact hround.2

/-! ### The calls -/

theorem Process.SameLoad.quietRel : QuietRel Process.SameLoad := by
  refine ⟨.refl, fun h => ?_, fun _ _ => ⟨rfl, .inl rfl⟩⟩
  obtain ⟨brk, pgbrk, brkOffset, rfl⟩ := schedSetbrkTrue_eq h
  exact ⟨rfl, .inl rfl⟩

theorem Kernel.QuietBy.sameLoads (h : s.QuietBy Process.SameLoad s') : s.SameLoads s' := by
  obtain ⟨mem, processes, intfaces, size, next, hrel, rfl⟩ := h
  refine ⟨rfl, fun pid p' hp' => ?_, .refl .refl s.threads⟩
  have hpid := hrel pid
  simp only at hp'
  rw [hp'] at hpid
  exact rel_some_right hpid

theorem Kernel.endProcess_sameLoads {pid : Int} {p : Process} (hp : s.processes pid = some p)
    (exitcode : Int) (mem : Mem) : s.SameLoads (s.endProcess pid p exitcode mem) := by
  refine ⟨rfl, Carried.update .refl hp fun p' hp' => ?_, Carried.mapSome .refl
    (fun _ => ⟨rfl, rfl, rfl, fun _ => .inr (.inr rfl)⟩) (· ∈ p.tids) s.threads⟩
  have hsame := Process.reaped_sameLoad hp'
  refine ⟨hsame.privilegeLevel, .inr ?_⟩
  rcases hsame.state with hc | hc
  · exact hc
  · exact hc

/-- A call that goes to sleep is made by a thread that has begun to run. -/
theorem Call.OnRunning.started {c : Call} {tid : Int} {t : Thread} (h : c.OnRunning s)
    (hc : c.sleeper s = some tid) (ht : s.threads tid = some t) : ¬t.Unstarted := by
  have hrun := h tid hc t ht
  simp [Thread.Unstarted, hrun]

/-- The calls other than `sched_pick_next` load nothing. -/
theorem FailInv.other {c : Call} {r : Int} (hs : Tables s) (h : FailInv s fs) (hc : c ≠ .pickNext)
    (hrun : c.OnRunning s) (hexec : exec s c = .ok (r, s')) : FailInv s' fs := by
  have hset : ∀ {tid : Int} {t t' : Thread}, s.threads tid = some t → t.SameEntry t' →
      s.SameLoads (s.setThread tid (some t')) := fun ht ht' =>
    ⟨rfl, .refl .refl s.processes, sameEntry_set ht ht'⟩
  cases c with
  | pickNext => exact absurd rfl hc
  | createProcess privilege name =>
      exact h.created hs (schedCreateProcess_ok hexec).2
  | createThread ownerpid noqueue entrypoint =>
      obtain ⟨p, t, hp, ht, hpriv⟩ := schedCreateThread_privilege hexec
      exact h.spawned (schedCreateThread_ok hexec).2 hp ht hpriv
  | forkThread tid regs =>
      rcases schedForkThread_spawned hexec with ⟨rfl, -⟩ | ⟨-, t, ht, hspawn⟩
      · exact h
      · rcases schedForkThread_privilege hexec with rfl | ⟨t', p, child, ht', hp, hchild, hpriv⟩
        · exact h
        · obtain rfl := Option.some.inj (ht.symm.trans ht')
          exact h.spawned hspawn hp hchild hpriv
  | loadProcess q =>
      rcases ploadCreateProcess_spawned hexec with
        rfl | ⟨s₁, p, t, hcreate, hspawn, hp, ht, hpriv⟩
      · exact h
      · exact (h.created hs hcreate).spawned hspawn hp ht hpriv
  | exitThread =>
      obtain ⟨t, ht, rfl⟩ := schedExitThread_ok (noResult_ok hexec)
      exact h.same (hset ht ⟨rfl, rfl, rfl, fun _ => .inr (.inl rfl)⟩)
  | exitProcess exitcode =>
      obtain ⟨pid, p, mem, hp, rfl⟩ := schedExitProcess_ok hs hexec
      exact h.same (Kernel.endProcess_sameLoads hp exitcode mem)
  | killProcess pid =>
      rcases schedKillProcess_ok hexec with rfl | ⟨p, exitcode, mem, hp, rfl⟩
      · exact h
      · exact h.same (Kernel.endProcess_sameLoads hp exitcode mem)
  | suspendThread irq tid =>
      obtain ⟨t, ht, rfl⟩ := schedSuspendThread_ok (noResult_ok hexec)
      exact h.same (hset ht (.of_started rfl rfl rfl (hrun.started rfl ht)))
  | checkSuspended irq =>
      obtain rfl : schedCheckSuspendedThreads s irq = s' := (exec_pair hexec).2
      refine h.same ⟨rfl, .refl .refl s.processes, .map (fun t => ?_) s.threads⟩
      unfold Thread.wake
      split_ifs with hw
      · exact .of_started rfl rfl rfl (by simp [Thread.Unstarted, hw.1])
      · exact .refl t
  | waitProcess pid =>
      rcases schedWaitProcess_ok hexec with ⟨rfl, -⟩ | ⟨-, t, p, -, hp, ht, rfl⟩
      · exact h
      · refine h.same ⟨rfl, Carried.update .refl hp fun p' hp' => ?_,
          sameEntry_set ht (.of_started rfl rfl rfl (hrun.started rfl ht))⟩
        obtain rfl := Option.some.inj hp'
        exact ⟨rfl, .inl rfl⟩
  | interfaceDelete name pid =>
      obtain rfl := (exec_pair hexec).2
      rcases interfaceDelete_eq s name pid with hd | ⟨addr, intfaces, hd⟩
      · rw [hd]
        exact h
      · rw [hd]
        refine h.same ⟨rfl, .refl .refl s.processes, .map (fun t => ?_) s.threads⟩
        unfold Thread.unwait
        split_ifs with hw
        · exact .of_started rfl rfl rfl (by simp [Thread.Unstarted, hw.1])
        · exact .refl t
  | interfaceWait name tid =>
      rcases interfaceWait_ok hexec with ⟨rfl, -⟩ | ⟨-, t, addr, ht, rfl⟩
      · exact h
      · exact h.same (hset ht (.of_started rfl rfl rfl (hrun.started rfl ht)))
  | _ =>
      exact h.same (exec_quietBy Process.SameLoad.quietRel hs rfl hexec).sameLoads

theorem Call.failures_eq_nil {c : Call} (hc : c ≠ .pickNext) (s : Kernel) : c.failures s = [] := by
  cases c with
  | pickNext => exact absurd rfl hc
  | _ => rfl

theorem FailInv.exec {c : Call} {r : Int} (hs : Tables s) (h : FailInv s fs)
    (hrun : c.OnRunning s) (hclean : c.Rounds LoadClean s) (hexec : exec s c = .ok (r, s')) :
    FailInv s' (fs ++ c.failures s) := by
  by_cases hc : c = .pickNext
  · subst hc
    exact h.pickNext hs hclean (noResult_ok hexec)
  · rw [Call.failures_eq_nil hc, List.append_nil]
    exact h.other hs hc hrun hexec

/-! ### Runs -/

theorem FailInv.started (hst : Started s) : FailInv s [] := by
  obtain ⟨mem, eflags, idleLoop, h⟩ := hst
  simp only [schedInit, bind_ok, Prod.exists, Except.ok.injEq] at h
  obtain ⟨pid, s₁, hcreate, tid, s₂, hthread, rfl⟩ := h
  have h0 : FailInv (Kernel.boot mem eflags) [] :=
    ⟨fun _ _ _ h => by simp [Kernel.boot] at h, fun _ _ _ h => by simp [Kernel.boot] at h,
      fun _ hx => by cases hx⟩
  have h1 := h0.created (.boot mem eflags) (schedCreateProcess_ok hcreate).2
  obtain ⟨p, t, hp, ht, hpriv⟩ := schedCreateThread_privilege hthread
  have h2 := h1.spawned (schedCreateThread_ok hthread).2 hp ht hpriv
  exact h2.same ⟨rfl, .refl .refl s₂.processes, .refl .refl s₂.threads⟩

theorem FailState.step_inv {st st' : FailState} {a : FailAct}
    (h : Tables st.kernel ∧ FailInv st.kernel st.failures) (hok : a.Clean st)
    (hstep : FailStep st a st') : Tables st'.kernel ∧ FailInv st'.kernel st'.failures := by
  obtain ⟨hs, hinv⟩ := h
  cases a with
  | call c =>
      simp only [FailStep, FailState.exec, bind_ok, Prod.exists, Except.ok.injEq] at hstep
      obtain ⟨r, s', hexec, rfl⟩ := hstep
      exact ⟨hs.exec hexec, hinv.exec hs hok.1 hok.2 hexec⟩
  | setKmode kmode =>
      simp only [FailStep, FailState.exec, Except.ok.injEq] at hstep
      obtain rfl := hstep
      exact ⟨hs.keeps ⟨rfl, rfl, .refl _, .refl _⟩, hinv.same ⟨rfl, .refl .refl _, .refl .refl _⟩⟩

/-- **Failed loads are contained** as long as every load that fails begins with `kmode` zero and no
pass comes back to a thread that still has the placeholder. -/
theorem failures_contained {st : FailState}
    (h : Reach FailStep (fun st a => a.Clean st) FailStart st) : FailuresContained st := by
  have hinv : Tables st.kernel ∧ FailInv st.kernel st.failures := by
    apply h.invariant (I := fun st => Tables st.kernel ∧ FailInv st.kernel st.failures)
    · rintro ⟨s, fs⟩ ⟨hst, rfl⟩
      exact ⟨.started hst, .started hst⟩
    · exact fun st a st' hI hok hstep => FailState.step_inv hI hok hstep
  exact hinv.2.exact

theorem FailState.bootRuns_reach {ok : FailState → FailAct → Prop} {P : FailState → Prop}
    {as : List FailAct} (h : BootRuns (fun s => ⟨s, []⟩) FailState.exec ok P as) :
    ∃ st, Reach FailStep ok FailStart st ∧ P st :=
  h.reach (fun _ _ _ h => h) fun _ hs => ⟨hs, rfl⟩

/-- Thread 1 runs; process 2 has an image whose segment lies at address 0, which the loader takes
for a failure. -/
def badImage : List FailAct :=
  [.call (.createProcess 0 []), .call (.createThread 1 false 0), .call .pickNext,
    .call (.loadProcess ⟨sampleImage [0, 0, 0, 0], [], 3, [], [], true⟩)]

/-- The process is killed before the scheduler comes back to its thread. -/
theorem failures_contained_killed : ∃ st : FailState,
    st.failures = [⟨2, false, false⟩] ∧ FailuresContained st := by
  have hrun : BootRuns (fun s => ⟨s, []⟩) FailState.exec (fun st a => a.Clean st)
      (fun st => st.failures = [⟨2, false, false⟩])
      (badImage ++ [.call .pickNext, .call (.killProcess 2), .call .pickNext]) := by decide +kernel
  obtain ⟨st, hst, hfail⟩ := FailState.bootRuns_reach hrun
  exact ⟨st, hfail, failures_contained hst⟩

/-- The thread runs from the placeholder after the next pass; and if `kmode` is set when the load
begins, it is not set again. -/
theorem failures_escape :
    (∃ st, Reach FailStep (fun st a => a.Promised st) FailStart st ∧
      (∃ x ∈ st.failures, x.pid = 2) ∧ ¬FailuresContained st) ∧
    ∃ st, Reach FailStep (fun st a => a.Promised st) FailStart st ∧
      (∃ x ∈ st.failures, x.before ≠ x.after) ∧ ¬FailuresContained st := by
  have hruns : BootRuns (fun s => ⟨s, []⟩) FailState.exec (fun st a => a.Promised st)
      (fun st => (∃ x ∈ st.failures, x.pid = 2) ∧ ∃ t ∈ st.kernel.threads 2, t.pid = 2 ∧
        t.state = .running ∧ t.frame.eip = placeholder)
      (badImage ++ [.call .pickNext, .call .pickNext]) := by decide +kernel
  have hlost : BootRuns (fun s => ⟨s, []⟩) FailState.exec (fun st a => a.Promised st)
      (fun st => ∃ x ∈ st.failures, x.before ≠ x.after)
      (badImage ++ [.setKmode true, .call .pickNext]) := by decide +kernel
  constructor
  · obtain ⟨st, hst, ⟨x, hx, hpid⟩, t, ht, htpid, hrun, heip⟩ := FailState.bootRuns_reach hruns
    refine ⟨st, hst, ⟨x, hx, hpid⟩, fun hc => ?_⟩
    exact (hc x hx).2 2 t ht (htpid.trans hpid.symm) hrun heip
  · obtain ⟨st, hst, x, hx, hne⟩ := FailState.bootRuns_reach hlost
    exact ⟨st, hst, ⟨x, hx, hne⟩, fun hc => hne (hc x hx).1.symm⟩

end GalaxyOS
