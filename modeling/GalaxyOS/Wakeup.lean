import GalaxyOS.InterfaceTable
import GalaxyOS.Sched.ThreadLists
import GalaxyOS.Sched.Waiters

/-! # Threads that wait for messages

A thread that has called `interface_wait` keeps a pointer to the interface until the scheduler
finds a message for it or the interface is deleted.

* `waiters_live`: no such pointer outlives its interface.
* `wakeup_exact`: the scheduler resumes the thread exactly if a receive would find a message.

`Thread.Follows` says what every call but `interface_wait` does to a thread, and `Thread.Sleeps`
what most of them do to a thread that waits: nothing, or they end it.

Both are invariants of all runs; `pickDispatch_waitsOn` is the round of the scheduler that looks at a
thread that waits. -/

namespace GalaxyOS

open Transition

/-- The thread waits for a message of the interface at `addr`. -/
def Thread.WaitsOn (t : Thread) (addr : ℕ) : Prop := t.state = .waiting ∧ t.waitMsg = some addr

instance (t : Thread) (addr : ℕ) : Decidable (t.WaitsOn addr) :=
  inferInstanceAs (Decidable (t.state = .waiting ∧ t.waitMsg = some addr))

/-! ### Addresses of interfaces -/

/-- The addresses of the interfaces are distinct and have been given out. -/
structure AddrsValid (s : Kernel) : Prop where
  nodup : (s.intfaces.map Interface.addr).Nodup
  fresh : ∀ i ∈ s.intfaces, i.addr < s.nextIntf

theorem AddrsValid.same {s s' : Kernel} (hs : AddrsValid s) (h : s.SameInterfaces s') :
    AddrsValid s' := by
  constructor
  · rw [h.intfaces]
    exact hs.nodup
  · rw [h.intfaces, h.next]
    exact hs.fresh

theorem MessageStep.addr_eq {s : Kernel} {i i' : Interface} {c : Call} {r : Int}
    (h : MessageStep s i c r i') : i'.addr = i.addr := by
  cases h <;> rfl

theorem InterfaceStep.addrsValid {s s' : Kernel} {c : Call} {r : Int} (h : InterfaceStep s s' c r)
    (hs : AddrsValid s) : AddrsValid s' := by
  cases h with
  | same hr hsame => exact hs.same hsame
  | @created name pid flags hname hmax hs' =>
      subst hs'
      constructor
      · rw [List.map_append, List.nodup_append]
        refine ⟨hs.nodup, List.pairwise_singleton _ _, fun a ha b hb => ?_⟩
        obtain ⟨i, hi, rfl⟩ := List.mem_map.mp ha
        obtain rfl : b = s.nextIntf := List.mem_singleton.mp hb
        exact Nat.ne_of_lt (hs.fresh i hi)
      · intro i hi
        cases List.mem_append.mp hi with
        | inl hi => exact Nat.lt_succ_of_lt (hs.fresh i hi)
        | inr hi =>
            obtain rfl := List.mem_singleton.mp hi
            exact Nat.lt_succ_self _
  | deleted hi hs' =>
      subst hs'
      exact ⟨(eraseIdx_keys hs.nodup hi).1, fun i hi => hs.fresh i (List.mem_of_mem_eraseIdx hi)⟩
  | changed hi hstep hs' =>
      subst hs'
      refine ⟨(set_keys hs.nodup hi hstep.addr_eq).1, fun j hj => ?_⟩
      cases List.mem_or_eq_of_mem_set hj with
      | inl hj => exact hs.fresh j hj
      | inr hj =>
          subst hj
          rw [hstep.addr_eq]
          exact hs.fresh _ (List.mem_of_getElem? hi)

/-- An interface is there after a call if it was there before, unless the call deletes it. -/
theorem InterfaceStep.exists_addr {s s' : Kernel} {c : Call} {r : Int} (h : InterfaceStep s s' c r)
    {i : Interface} (hi : i ∈ s.intfaces) :
    (∃ i' ∈ s'.intfaces, i'.addr = i.addr) ∨ s' = { s with
      threads := fun tid => (s.threads tid).map (Thread.unwait i.addr), intfaces := s'.intfaces } := by
  cases h with
  | same hr hsame => exact .inl ⟨i, hsame.intfaces ▸ hi, rfl⟩
  | created hname hmax hs' =>
      subst hs'
      exact .inl ⟨i, List.mem_append_left _ hi, rfl⟩
  | @deleted pid qid j hj hs' =>
      subst hs'
      by_cases hij : i = j
      · subst hij
        exact .inr rfl
      · obtain ⟨hlt, rfl⟩ := List.getElem?_eq_some_iff.mp hj
        have hperm := List.getElem_cons_eraseIdx_perm hlt
        have hmem := List.mem_of_ne_of_mem hij (hperm.mem_iff.mpr hi)
        exact .inl ⟨i, hmem, rfl⟩
  | @changed c r qid j j' hj hstep hs' =>
      subst hs'
      obtain ⟨hlt, hget⟩ := List.getElem?_eq_some_iff.mp hj
      refine .inl ?_
      by_cases hij : i = j
      · exact ⟨j', List.mem_set hlt j', by rw [hstep.addr_eq, hij]⟩
      · have hperm : (s.intfaces.set qid j').Perm (j' :: s.intfaces.eraseIdx qid) :=
          List.set_perm_cons_eraseIdx hlt j'
        have hmem : i ∈ s.intfaces.eraseIdx qid := by
          refine List.mem_of_ne_of_mem hij ?_
          rw [← hget]
          exact (List.getElem_cons_eraseIdx_perm hlt).mem_iff.mpr hi
        exact ⟨i, hperm.mem_iff.mpr (List.mem_cons_of_mem j' hmem), rfl⟩

/-! ### What happens to a thread -/

/-- The thread keeps its process and does not begin to wait for a message. -/
structure Thread.Follows (t t' : Thread) : Prop where
  pid : t'.pid = t.pid
  waits : ∀ addr, t'.WaitsOn addr → t' = t

/-- The thread does not come back from the dead and, if it waits for a message, is left alone or
ended. -/
structure Thread.Sleeps (t t' : Thread) : Prop where
  dead : t.state = .dead → t'.state = .dead
  asleep : ∀ addr, t.WaitsOn addr → t' = t ∨ t'.state = .dead

namespace Thread

theorem Follows.refl (t : Thread) : t.Follows t := ⟨rfl, fun _ _ => rfl⟩

theorem Sleeps.refl (t : Thread) : t.Sleeps t := ⟨id, fun _ _ => .inl rfl⟩

theorem Follows.of_awake {t t' : Thread} (hpid : t'.pid = t.pid)
    (hwait : t'.state = .waiting → t'.waitMsg = none) : t.Follows t' := by
  refine ⟨hpid, fun addr h => ?_⟩
  have hmsg := hwait h.1
  rw [h.2] at hmsg
  cases hmsg

theorem Sleeps.of_awake {t t' : Thread} (halive : t.state ≠ .dead)
    (hawake : t.state = .waiting → t.waitMsg = none) : t.Sleeps t' := by
  refine ⟨fun hd => absurd hd halive, fun addr h => ?_⟩
  have hmsg := hawake h.1
  rw [h.2] at hmsg
  cases hmsg

theorem Sleeps.of_dead (t : Thread) {t' : Thread} (h : t'.state = .dead) : t.Sleeps t' :=
  ⟨fun _ => h, fun _ _ => .inr h⟩

end Thread

/-- What the caller of a call promises if `P`: the thread then sleeps on. -/
def Thread.Keeps (P : Prop) (t t' : Thread) : Prop := t.Follows t' ∧ (P → t.Sleeps t')

theorem Thread.Keeps.refl (P : Prop) (t : Thread) : t.Keeps P t := ⟨.refl t, fun _ => .refl t⟩

theorem Thread.Keeps.wake (P : Prop) (irq : ℕ) (t : Thread) : t.Keeps P (t.wake irq) := by
  unfold Thread.wake
  split_ifs with hw
  · exact ⟨.of_awake rfl (by simp), fun _ => .of_awake (by simp [hw.1]) (by simp [hw.1])⟩
  · exact .refl P t

theorem Thread.unwait_not_waitsOn (addr : ℕ) (t : Thread) : ¬(t.unwait addr).WaitsOn addr := by
  unfold Thread.unwait
  split_ifs with hw
  · rintro ⟨hstate, -⟩
    cases hstate
  · exact hw

theorem Thread.Follows.unwait (addr : ℕ) (t : Thread) : t.Follows (t.unwait addr) := by
  unfold Thread.unwait
  split_ifs with hw
  · exact .of_awake rfl (by simp)
  · exact .refl t

/-- The threads after a call were there before, each related by `r`, but for new ones, which are
starting. -/
structure Kernel.ThreadsStep (r : Thread → Thread → Prop) (s s' : Kernel) : Prop where
  lastTid : s.lastTid ≤ s'.lastTid
  slots : ∀ tid t', s'.threads tid = some t' →
    (∃ t, s.threads tid = some t ∧ r t t') ∨ s.lastTid ≤ tid ∧ t'.state = .starting

theorem Kernel.ThreadsStep.of_carried {r : Thread → Thread → Prop} {s s' : Kernel}
    (h : Carried r s.threads s'.threads) (hlast : s'.lastTid = s.lastTid) : s.ThreadsStep r s' :=
  ⟨hlast.ge, fun tid t' ht' => .inl (h tid t' ht')⟩

theorem Kernel.ThreadsStep.mono {r r' : Thread → Thread → Prop} {s s' : Kernel}
    (hr : ∀ t t', r t t' → r' t t') (h : s.ThreadsStep r s') : s.ThreadsStep r' s' := by
  refine ⟨h.lastTid, fun tid t' ht' => ?_⟩
  cases h.slots tid t' ht' with
  | inl hold =>
      obtain ⟨t, ht, hrt⟩ := hold
      exact .inl ⟨t, ht, hr t t' hrt⟩
  | inr hnew => exact .inr hnew

/-- The thread that makes the call, or in whose name it is made. -/
def Call.actor (s : Kernel) : Call → Option Int
  | .forkThread tid _ => some tid
  | .exitThread => some s.currenttid
  | c => c.sleeper s

/-- The process that the call gives a new thread. -/
def Call.owner : Call → Option Int
  | .createThread ownerpid _ _ => some ownerpid
  | _ => none

/-- A thread that makes a system call is running, and a new thread is created for a process that has
not ended. -/
structure Call.ByLiving (s : Kernel) (c : Call) : Prop where
  actor : ∀ tid, c.actor s = some tid → ∀ t, s.threads tid = some t → t.state = .running
  owner : ∀ pid, c.owner = some pid → ∀ p, s.processes pid = some p → p.state ≠ .exiting

instance (s : Kernel) (c : Call) : Decidable (c.ByLiving s) :=
  have : DecidablePred fun tid => ∀ t, s.threads tid = some t → t.state = .running :=
    fun tid => decidableForallSome (s.threads tid)
  have : DecidablePred fun pid => ∀ p, s.processes pid = some p → p.state ≠ .exiting :=
    fun pid => decidableForallSome (s.processes pid)
  have := decidableForallSome (P := fun tid => ∀ t, s.threads tid = some t → t.state = .running)
    (c.actor s)
  have := decidableForallSome (P := fun pid => ∀ p, s.processes pid = some p → p.state ≠ .exiting)
    c.owner
  decidable_of_iff _ ⟨fun h => ⟨h.1, h.2⟩, fun h => And.intro h.actor h.owner⟩

/-! ### The calls one by one -/

section Table

variable {P : Prop} {s s' : Kernel}

theorem keeps_update {ts : Int → Option Thread} {tid : Int} {t t' : Thread} (ht : ts tid = some t)
    (hpid : t'.pid = t.pid) (hwait : t'.state = .waiting → t'.waitMsg = none)
    (hrun : P → t.state = .running) :
    Carried (Thread.Keeps P) ts (Function.update ts tid (some t')) := by
  refine Carried.update (.refl P) ht fun t'' h => ?_
  obtain rfl := Option.some.inj h
  exact ⟨.of_awake hpid hwait, fun hP => .of_awake (by simp [hrun hP]) (by simp [hrun hP])⟩

theorem Kernel.Created.keeps (h : s.Created s') : s.ThreadsStep (Thread.Keeps P) s' := by
  obtain ⟨p, mem, -, rfl⟩ := h
  exact .of_carried (.refl (.refl P) s.threads) rfl

theorem Kernel.Spawned.keeps {pid : Int} {noqueue : Bool} (h : s.Spawned pid noqueue s') :
    s.ThreadsStep (Thread.Keeps P) s' := by
  obtain ⟨-, p, t, mem, hp, hfresh, rfl⟩ := h
  refine ⟨Int.le_of_lt (Int.lt_succ s.lastTid), fun tid t' ht' => ?_⟩
  by_cases htid : tid = s.lastTid
  · subst htid
    obtain rfl : t = t' := by simpa using ht'
    exact .inr ⟨Int.le_refl _, hfresh.state⟩
  · simp only [Function.update_of_ne htid] at ht'
    exact .inl ⟨t', ht', .refl P t'⟩

theorem Kernel.endProcess_keeps_threads (s : Kernel) (pid : Int) (p : Process) (exitcode : Int)
    (mem : Mem) : s.ThreadsStep (Thread.Keeps P) (s.endProcess pid p exitcode mem) := by
  refine .of_carried (Carried.mapSome (.refl P) (fun t => ?_) (· ∈ p.tids) s.threads) rfl
  exact ⟨.of_awake rfl (by simp), fun _ => .of_dead t rfl⟩

theorem PickEffect.follows {tid : Int} {t : Thread} (ht : s.threads tid = some t)
    (h : PickEffect s tid t s') : Carried Thread.Follows s.threads s'.threads := by
  have hone : ∀ t' : Thread, t'.pid = t.pid → (t'.state = .waiting → t'.waitMsg = none) →
      Carried Thread.Follows s.threads (Function.update s.threads tid (some t')) := by
    intro t' hpid hwait
    refine Carried.update .refl ht fun t'' h => ?_
    obtain rfl := Option.some.inj h
    exact .of_awake hpid hwait
  cases h with
  | select | skip => exact .refl .refl _
  | message | stale | start | exit => exact hone _ rfl (by simp)
  | resume => exact hone _ rfl (by simp)
  | load p p' t' mem kmode hstate hp hl hl' =>
      rcases hl' with rfl | ⟨frame, rfl⟩
      · exact hone _ rfl (by simp [hstate])
      · exact hone _ rfl (by simp)
  | dead => exact .erase .refl s.threads tid

end Table

/-- The calls after which a thread may begin to wait for a message, or has stopped waiting. -/
def Call.onWaiters : Call → Bool
  | .interfaceWait .. | .interfaceDelete .. | .pickNext => true
  | _ => false

theorem exec_keeps {s s' : Kernel} {c : Call} {r : Int} (hs : Tables s) (hc : c.onWaiters = false)
    (h : exec s c = .ok (r, s')) : s.ThreadsStep (Thread.Keeps (c.ByLiving s)) s' := by
  have hsame : s.ThreadsStep (Thread.Keeps (c.ByLiving s)) s :=
    .of_carried (.refl (.refl _) _) rfl
  cases c with
  | createProcess privilege name => exact (schedCreateProcess_ok h).2.keeps
  | createThread ownerpid noqueue entrypoint => exact (schedCreateThread_ok h).2.keeps
  | forkThread tid regs =>
      rcases schedForkThread_ok h with ⟨rfl, -⟩ | ⟨-, pid, hspawn⟩
      · exact hsame
      · exact hspawn.keeps
  | loadProcess q =>
      rcases ploadCreateProcess_ok h with rfl | ⟨s₁, ⟨p, mem, -, rfl⟩, hspawn⟩
      · exact hsame
      · exact ⟨hspawn.keeps (P := True).lastTid, hspawn.keeps.slots⟩
  | exitThread =>
      obtain ⟨t, ht, rfl⟩ := schedExitThread_ok (noResult_ok h)
      exact .of_carried (keeps_update ht rfl (by simp) fun hok => hok.actor _ rfl t ht) rfl
  | exitProcess exitcode =>
      obtain ⟨pid, p, mem, -, rfl⟩ := schedExitProcess_ok hs h
      exact s.endProcess_keeps_threads pid p exitcode mem
  | killProcess pid =>
      rcases schedKillProcess_ok h with rfl | ⟨p, exitcode, mem, -, rfl⟩
      · exact hsame
      · exact s.endProcess_keeps_threads pid p exitcode mem
  | suspendThread irq tid =>
      obtain ⟨t, ht, rfl⟩ := schedSuspendThread_ok (noResult_ok h)
      exact .of_carried (keeps_update ht rfl (by simp) fun hok => hok.actor _ rfl t ht) rfl
  | checkSuspended irq =>
      obtain rfl : schedCheckSuspendedThreads s irq = s' := (exec_pair h).2
      exact .of_carried (.map (.wake _ irq) s.threads) rfl
  | waitProcess pid =>
      rcases schedWaitProcess_ok h with ⟨rfl, -⟩ | ⟨-, t, p, -, -, ht, rfl⟩
      · exact hsame
      · exact .of_carried (keeps_update ht rfl (by simp) fun hok => hok.actor _ rfl t ht) rfl
  | pickNext | interfaceDelete | interfaceWait => cases hc
  | _ =>
      obtain ⟨mem, processes, intfaces, size, next, -, rfl⟩ := exec_quiet hs rfl h
      exact .of_carried (.refl (.refl _) s.threads) rfl

theorem pickRound_follows {s s₂ : Kernel} {loop : Bool}
    (hd : pickDispatch (pickFetch s loop).2.1 (pickFetch s loop).1 = .ok s₂) :
    s.ThreadsStep Thread.Follows s₂ := by
  obtain ⟨t, ht, -, heff⟩ := pickDispatch_ok hd
  refine .of_carried ?_ ((heff.keeps ht).lastTid.trans (pickFetch_keeps s loop).lastTid)
  have hthreads : (pickFetch s loop).2.1.threads = s.threads := by
    obtain ⟨l, hl⟩ := pickFetch_eq s loop
    rw [hl]
  rw [← hthreads]
  exact heff.follows ht

theorem interfaceDelete_follows (s : Kernel) (name : CString) (pid : Int) :
    s.ThreadsStep Thread.Follows (interfaceDelete s name pid).2 := by
  rcases interfaceDelete_eq s name pid with hd | ⟨addr, intfaces, hd⟩
  · rw [hd]
    exact .of_carried (.refl .refl s.threads) rfl
  · rw [hd]
    exact .of_carried (.map (.unwait addr) s.threads) rfl

/-! ### No pointer to a deleted interface -/

/-- The interfaces that threads wait on exist. -/
def WaitersLive (s : Kernel) : Prop :=
  ∀ tid t addr, s.threads tid = some t → t.WaitsOn addr → ∃ i ∈ s.intfaces, i.addr = addr

/-- If the round looks at a thread that waits for a message, then it finds the interface. -/
def ExaminesLive (st : Kernel × Bool) : Prop :=
  ∀ t addr, st.1.threads (pickFetch st.1 st.2).1 = some t → t.WaitsOn addr →
    ∃ i ∈ st.1.intfaces, (pickFetch st.1 st.2).2.1.interfaceAt addr = .ok i

theorem WaitersLive.of_follows {s s' : Kernel} (h : WaitersLive s)
    (hthreads : s.ThreadsStep Thread.Follows s')
    (hintfaces : ∀ i ∈ s.intfaces, (∃ tid t, s'.threads tid = some t ∧ t.WaitsOn i.addr) →
      ∃ i' ∈ s'.intfaces, i'.addr = i.addr) : WaitersLive s' := by
  intro tid t' addr ht' hw
  rcases hthreads.slots tid t' ht' with ⟨t, ht, hfollows⟩ | ⟨-, hstart⟩
  · obtain rfl := hfollows.waits addr hw
    obtain ⟨i, hi, rfl⟩ := h tid _ addr ht hw
    exact hintfaces i hi ⟨tid, _, ht', hw⟩
  · have hstate := hw.1
    rw [hstart] at hstate
    cases hstate

theorem WaitersLive.round {s s₂ : Kernel} {loop : Bool} (h : WaitersLive s)
    (hd : pickDispatch (pickFetch s loop).2.1 (pickFetch s loop).1 = .ok s₂) : WaitersLive s₂ := by
  refine h.of_follows (pickRound_follows hd) fun i hi _ => ?_
  obtain ⟨t, -, -, heff⟩ := pickDispatch_ok hd
  have hsame := (pickFetch_sameInterfaces s loop).trans heff.sameInterfaces
  exact ⟨i, hsame.intfaces ▸ hi, rfl⟩

/-- A thread that begins to wait has found the interface. -/
theorem interfaceWait_found {s s' : Kernel} {name : CString} {tid r : Int}
    (h : interfaceWait s name tid = .ok (r, s')) :
    (∀ i ∈ s.intfaces, i.name ≠ name) ∧ s' = s ∨
    ∃ t, ∃ i ∈ s.intfaces, i.name = name ∧ s.threads tid = some t ∧ s' = s.setThread tid
      (some { t with state := .waiting, wait := 0, waitMsg := some i.addr }) := by
  unfold interfaceWait at h
  cases hf : interfaceFind s.intfaces name with
  | error e =>
      simp only [hf, Except.ok.injEq, Prod.mk.injEq] at h
      exact .inl ⟨(interfaceFind_error hf).2, h.2.symm⟩
  | ok qid =>
      obtain ⟨i, hi, hname⟩ := interfaceFind_ok hf
      simp only [hf, hi] at h
      cases ht : s.threads tid with
      | none => simp [ht] at h
      | some t =>
          simp only [ht, Except.ok.injEq, Prod.mk.injEq] at h
          exact .inr ⟨t, i, List.mem_of_getElem? hi, hname, rfl, h.2.symm⟩

theorem WaitersLive.exec {s s' : Kernel} {c : Call} {r : Int} (h : WaitersLive s) (hs : Tables s)
    (hexec : exec s c = .ok (r, s')) : WaitersLive s' := by
  -- the interface is still there, or it has been deleted and no thread waits on it
  have hintfaces : ∀ i ∈ s.intfaces, (∃ tid t, s'.threads tid = some t ∧ t.WaitsOn i.addr) →
      ∃ i' ∈ s'.intfaces, i'.addr = i.addr := by
    rintro i hi ⟨tid, t, ht, hw⟩
    rcases (exec_interfaces hs hexec).exists_addr hi with hlive | hdel
    · exact hlive
    · rw [hdel] at ht
      obtain ⟨t₀, -, rfl⟩ := Option.map_eq_some_iff.mp ht
      exact absurd hw (Thread.unwait_not_waitsOn i.addr t₀)
  cases c with
  | interfaceWait name tid =>
      rcases interfaceWait_found hexec with ⟨-, rfl⟩ | ⟨t, i, hi, -, ht, rfl⟩
      · exact h
      · intro tid' t' addr ht' hw
        by_cases htid : tid' = tid
        · subst htid
          rw [Kernel.setThread_threads, Function.update_self, Option.some.injEq] at ht'
          subst ht'
          obtain rfl := Option.some.inj hw.2
          exact ⟨i, hi, rfl⟩
        · rw [Kernel.setThread_threads, Function.update_of_ne htid] at ht'
          exact h tid' t' addr ht' hw
  | interfaceDelete name pid =>
      obtain rfl := (exec_pair hexec).2
      exact h.of_follows (interfaceDelete_follows s name pid) hintfaces
  | pickNext =>
      exact schedPickNext_inv (fun tid t addr ht hw => h tid t addr ht hw)
        (fun _ _ _ hI _ hd => hI.round hd) (heads_true _ _) (noResult_ok hexec)
  | _ => exact h.of_follows ((exec_keeps hs rfl hexec).mono fun _ _ hr => hr.1) hintfaces

theorem interfaceAt_of_mem {s : Kernel} {addr : ℕ} (h : ∃ i ∈ s.intfaces, i.addr = addr) :
    ∃ i ∈ s.intfaces, i.addr = addr ∧ s.interfaceAt addr = .ok i := by
  obtain ⟨i, hi, haddr⟩ := h
  unfold Kernel.interfaceAt
  cases hf : s.intfaces.find? (fun i => i.addr = addr) with
  | none =>
      have hno := List.find?_eq_none.mp hf i hi
      simp [haddr] at hno
  | some j => exact ⟨j, List.mem_of_find?_eq_some hf, by simpa using List.find?_some hf, rfl⟩

theorem WaitersLive.examines {s : Kernel} (h : WaitersLive s) (loop : Bool) :
    ExaminesLive (s, loop) := by
  intro t addr ht hw
  obtain ⟨l, hl⟩ := pickFetch_eq s loop
  obtain ⟨i, hi, -, hat⟩ := interfaceAt_of_mem (h _ t addr ht hw)
  refine ⟨i, hi, ?_⟩
  rw [hl]
  exact hat

theorem reach_waitersLive {ok : Kernel → Call → Prop} {s : Kernel} (h : Reach Step ok Started s) :
    WaitersLive s := by
  have hinv : Tables s ∧ WaitersLive s := by
    refine h.invariant (I := fun s => Tables s ∧ WaitersLive s) ?_ ?_
    · intro s hst
      refine ⟨.started hst, fun tid t addr ht hw => ?_⟩
      obtain ⟨mem, eflags, idleLoop, hst⟩ := hst
      simp only [schedInit, bind_ok, Prod.exists, Except.ok.injEq] at hst
      obtain ⟨pid, s₁, hcreate, tid', s₂, hthread, rfl⟩ := hst
      obtain ⟨-, p, mem', -, rfl⟩ := schedCreateProcess_ok hcreate
      rcases ((schedCreateThread_ok hthread).2.keeps (P := True)).slots tid t ht with
        ⟨t₀, ht₀, -⟩ | ⟨-, hstart⟩
      · cases ht₀
      · have hstate := hw.1
        rw [hstart] at hstate
        cases hstate
    · rintro s c s' ⟨hs, hl⟩ - ⟨r, hexec⟩
      exact ⟨hs.exec hexec, hl.exec hs hexec⟩
  exact hinv.2

theorem WaitersLive.rounds {s : Kernel} (h : WaitersLive s) :
    Call.Rounds ExaminesLive s .pickNext :=
  Call.Rounds.of_invariant (I := WaitersLive) (C := fun _ => True) h
    (fun _ _ _ hI _ hd => hI.round hd) (fun _ loop hI _ => hI.examines loop) (heads_true _ _)

/-- **No thread waits on a deleted interface**: in every reachable state, and wherever a pass of the
scheduler looks at a thread that waits for a message, the interface exists. -/
theorem waiters_live {s : Kernel} (h : Reach Step (fun _ _ => True) Started s) :
    (∀ tid t addr, s.threads tid = some t → t.state = .waiting → t.waitMsg = some addr →
      ∃ i ∈ s.intfaces, i.addr = addr) ∧ Call.Rounds ExaminesLive s .pickNext := by
  have hlive := reach_waitersLive h
  exact ⟨fun tid t addr ht hstate hmsg => hlive tid t addr ht ⟨hstate, hmsg⟩, hlive.rounds⟩

/-- Threads 1 and 2 wait on two interfaces, and the first of these is deleted. -/
theorem waiters_live_deleted : ∃ s : Kernel, (∃ t ∈ s.threads 1, t.state = .running) ∧
    (∃ t ∈ s.threads 2, t.WaitsOn 1) ∧ ∃ i ∈ s.intfaces, i.addr = 1 := by
  have hrun : BootRuns id execState (fun _ _ => True)
      (fun s => (∃ t ∈ s.threads 1, t.state = .running) ∧ ∃ t ∈ s.threads 2, t.WaitsOn 1)
      [.createProcess 0 [], .createThread 1 false 0, .createProcess 0 [], .createThread 2 false 0,
        .interfaceCreate [0x61] 1 0, .interfaceCreate [0x62] 1 0, .pickNext,
        .interfaceWait [0x61] 1, .pickNext, .interfaceWait [0x62] 2, .interfaceDelete [0x61] 1,
        .pickNext] := by decide +kernel
  obtain ⟨s, hs, hrun, t, ht, hw⟩ := hrun.reach (fun _ _ _ => execState_step) fun _ hs => hs
  exact ⟨s, hrun, ⟨t, ht, hw⟩, (waiters_live hs).1 2 t 1 ht hw.1 hw.2⟩

/-! ### Processes of living threads -/

/-- A thread that is not dead belongs to a process that has not ended and lists it. -/
def ThreadsLive (s : Kernel) : Prop :=
  ∀ tid t, s.threads tid = some t → t.state ≠ .dead →
    ∃ p, s.processes t.pid = some p ∧ p.state ≠ .exiting ∧ tid ∈ p.tids

/-- Processes with threads stay as they are. -/
def ProcessesStay (ps ps' : Int → Option Process) : Prop :=
  ∀ pid p, ps pid = some p → p.tids ≠ [] → ∃ p', ps' pid = some p' ∧ p.SameList p'

theorem ProcessesStay.refl (ps : Int → Option Process) : ProcessesStay ps ps :=
  fun _ p hp _ => ⟨p, hp, .refl p⟩

theorem ProcessesStay.like {ps ps' : Int → Option Process} (h : LikeTable ps ps') :
    ProcessesStay ps ps' := by
  intro pid p hp _
  have hpid := h pid
  rw [hp] at hpid
  obtain ⟨p', hp', hl⟩ := rel_some_left hpid
  exact ⟨p', hp', hl.tids, hl.exiting⟩

theorem ProcessesStay.update {ps : Int → Option Process} {pid : Int} {p : Process}
    {o : Option Process} (hp : ps pid = some p)
    (ho : p.tids ≠ [] → ∃ p', o = some p' ∧ p.SameList p') :
    ProcessesStay ps (Function.update ps pid o) := by
  intro i q hq hne
  by_cases hi : i = pid
  · subst hi
    rw [Function.update_self]
    obtain rfl := Option.some.inj (hp.symm.trans hq)
    exact ho hne
  · rw [Function.update_of_ne hi]
    exact ⟨q, hq, .refl q⟩

theorem ProcessesStay.dropped (ps : Int → Option Process) (wait : Int) :
    ProcessesStay ps (droppedWaiter ps wait) := by
  unfold droppedWaiter
  split_ifs with h0
  · exact .refl ps
  · cases hp : ps wait with
    | none =>
        rw [Option.map_none, Function.update_eq_self_iff.mpr hp.symm]
        exact .refl ps
    | some p => exact .update hp fun _ => ⟨_, rfl, rfl, Iff.rfl⟩

/-- No thread changes its process or comes back from the dead, and no process with threads ends. -/
structure Kernel.KeepsAlive (s s' : Kernel) : Prop where
  threads : Carried (fun t t' => t'.pid = t.pid ∧ (t.state = .dead → t'.state = .dead))
    s.threads s'.threads
  processes : ProcessesStay s.processes s'.processes

theorem ThreadsLive.keeps {s s' : Kernel} (h : ThreadsLive s) (hk : s.KeepsAlive s') :
    ThreadsLive s' := by
  intro tid t' ht' halive
  obtain ⟨t, ht, hpid, hdead⟩ := hk.threads tid t' ht'
  obtain ⟨p, hp, hstate, htid⟩ := h tid t ht fun hd => halive (hdead hd)
  obtain ⟨p', hp', htids, hexit⟩ := hk.processes _ p hp (List.ne_nil_of_mem htid)
  rw [hpid]
  exact ⟨p', hp', fun hx => hstate (hexit.mp hx), htids ▸ htid⟩

theorem threadsAlive_refl (ts : Int → Option Thread) :
    Carried (fun t t' : Thread => t'.pid = t.pid ∧ (t.state = .dead → t'.state = .dead)) ts ts :=
  .refl (fun _ => ⟨rfl, id⟩) ts

theorem threadsAlive_update {ts : Int → Option Thread} {tid : Int} {t t' : Thread}
    (ht : ts tid = some t) (hpid : t'.pid = t.pid) (hdead : t.state = .dead → t'.state = .dead) :
    Carried (fun t t' : Thread => t'.pid = t.pid ∧ (t.state = .dead → t'.state = .dead)) ts
      (Function.update ts tid (some t')) := by
  refine Carried.update (fun _ => ⟨rfl, id⟩) ht fun t'' h => ?_
  obtain rfl := Option.some.inj h
  exact ⟨hpid, hdead⟩

theorem Kernel.setThread_keepsAlive {s : Kernel} {tid : Int} {t t' : Thread}
    (ht : s.threads tid = some t) (hpid : t'.pid = t.pid) (halive : t.state ≠ .dead) :
    s.KeepsAlive (s.setThread tid (some t')) :=
  ⟨threadsAlive_update ht hpid fun hd => absurd hd halive, .refl s.processes⟩

theorem PickEffect.keepsAlive {s s' : Kernel} {tid : Int} {t : Thread} (ht : s.threads tid = some t)
    (h : PickEffect s tid t s') : s.KeepsAlive s' := by
  by_cases hdead : t.state = .dead
  · rw [h.freed hdead]
    exact ⟨.erase (fun _ => ⟨rfl, id⟩) s.threads tid, .dropped s.processes t.wait⟩
  · cases h with
    | select | skip => exact ⟨threadsAlive_refl _, .refl s.processes⟩
    | message | stale | start | exit => exact Kernel.setThread_keepsAlive ht rfl hdead
    | resume p mem frame hstate hmsg hrange hp hno =>
        exact ⟨threadsAlive_update ht rfl fun hd => absurd hd hdead,
          .update hp fun hne => absurd hno hne⟩
    | load p p' t' mem kmode hstate hp hl hl' =>
        refine ⟨threadsAlive_update ht ?_ fun hd => absurd hd hdead, .like (.update hp hl)⟩
        rcases hl' with rfl | ⟨frame, rfl⟩ <;> rfl
    | dead hstate => exact absurd hstate hdead

theorem ThreadsLive.created {s s' : Kernel} (hs : Tables s) (h : ThreadsLive s)
    (hc : s.Created s') : ThreadsLive s' := by
  obtain ⟨p₀, mem, -, rfl⟩ := hc
  intro tid t ht halive
  have hne : t.pid ≠ s.lastPid := Int.ne_of_lt (hs.tid tid t ht).2.1.2
  simp only [Function.update_of_ne hne]
  exact h tid t ht halive

theorem ThreadsLive.spawned {s s' : Kernel} {pid : Int} {noqueue : Bool} (h : ThreadsLive s)
    (hc : s.Spawned pid noqueue s')
    (hlive : ∀ p, s.processes pid = some p → p.state ≠ .exiting) : ThreadsLive s' := by
  obtain ⟨-, p₀, t₀, mem, hp₀, hfresh, rfl⟩ := hc
  intro tid t ht halive
  by_cases htid : tid = s.lastTid
  · subst htid
    obtain rfl : t₀ = t := by simpa using ht
    simp only [hfresh.pid, Function.update_self]
    exact ⟨_, rfl, hlive p₀ hp₀, by simp⟩
  · simp only [Function.update_of_ne htid] at ht
    obtain ⟨p, hp, hstate, hmem⟩ := h tid t ht halive
    by_cases hpid : t.pid = pid
    · simp only [hpid, Function.update_self]
      obtain rfl : p₀ = p := Option.some.inj (hp₀.symm.trans (hpid ▸ hp))
      exact ⟨_, rfl, hstate, List.mem_append_left _ hmem⟩
    · simp only [Function.update_of_ne hpid]
      exact ⟨p, hp, hstate, hmem⟩

theorem ThreadsLive.ended {s : Kernel} {pid : Int} {p : Process} (h : ThreadsLive s)
    (hp : s.processes pid = some p) (exitcode : Int) (mem : Mem) :
    ThreadsLive (s.endProcess pid p exitcode mem) := by
  intro tid t' ht' halive
  simp only [Kernel.endProcess, deadThreads] at ht'
  split_ifs at ht' with htid
  · obtain ⟨t, -, rfl⟩ := Option.map_eq_some_iff.mp ht'
    exact absurd rfl halive
  · obtain ⟨q, hq, hstate, hmem⟩ := h tid t' ht' halive
    have hne : t'.pid ≠ pid := by
      rintro rfl
      obtain rfl := Option.some.inj (hp.symm.trans hq)
      exact htid hmem
    simp only [Kernel.endProcess, Function.update_of_ne hne]
    exact ⟨q, hq, hstate, hmem⟩

theorem ThreadsLive.round {s s₂ : Kernel} {loop : Bool} (h : ThreadsLive s)
    (hd : pickDispatch (pickFetch s loop).2.1 (pickFetch s loop).1 = .ok s₂) : ThreadsLive s₂ := by
  obtain ⟨t, ht, -, heff⟩ := pickDispatch_ok hd
  obtain ⟨l, hl⟩ := pickFetch_eq s loop
  rw [hl] at ht heff
  have hmoved : ThreadsLive { s with queueLoc := l } := h
  exact hmoved.keeps (heff.keepsAlive ht)

theorem ThreadsLive.exec {s s' : Kernel} {c : Call} {r : Int} (hs : Tables s) (h : ThreadsLive s)
    (hok : c.ByLiving s) (hexec : exec s c = .ok (r, s')) : ThreadsLive s' := by
  cases c with
  | createProcess privilege name => exact h.created hs (schedCreateProcess_ok hexec).2
  | createThread ownerpid noqueue entrypoint =>
      exact h.spawned (schedCreateThread_ok hexec).2 fun p hp => hok.owner ownerpid rfl p hp
  | forkThread tid regs =>
      rcases schedForkThread_spawned hexec with ⟨rfl, -⟩ | ⟨-, t, ht, hspawn⟩
      · exact h
      · refine h.spawned hspawn fun p hp => ?_
        obtain ⟨q, hq, hstate, -⟩ := h tid t ht (by simp [hok.actor tid rfl t ht])
        obtain rfl := Option.some.inj (hq.symm.trans hp)
        exact hstate
  | loadProcess q =>
      rcases ploadCreateProcess_ok hexec with rfl | ⟨s₁, hcreate, hspawn⟩
      · exact h
      · refine (h.created hs hcreate).spawned hspawn fun p hp => ?_
        obtain ⟨p₀, mem, hfresh, rfl⟩ := hcreate
        obtain rfl : p₀ = p := by simpa using hp
        simp [hfresh.state]
  | exitThread =>
      obtain ⟨t, ht, rfl⟩ := schedExitThread_ok (noResult_ok hexec)
      exact h.keeps (Kernel.setThread_keepsAlive ht rfl (by simp [hok.actor _ rfl t ht]))
  | exitProcess exitcode =>
      obtain ⟨pid, p, mem, hp, rfl⟩ := schedExitProcess_ok hs hexec
      exact h.ended hp exitcode mem
  | killProcess pid =>
      rcases schedKillProcess_ok hexec with rfl | ⟨p, exitcode, mem, hp, rfl⟩
      · exact h
      · exact h.ended hp exitcode mem
  | suspendThread irq tid =>
      obtain ⟨t, ht, rfl⟩ := schedSuspendThread_ok (noResult_ok hexec)
      exact h.keeps (Kernel.setThread_keepsAlive ht rfl (by simp [hok.actor _ rfl t ht]))
  | checkSuspended irq =>
      obtain rfl : schedCheckSuspendedThreads s irq = s' := (exec_pair hexec).2
      refine h.keeps ⟨.map (fun t => ?_) s.threads, .refl s.processes⟩
      unfold Thread.wake
      split_ifs with hw
      · exact ⟨rfl, by simp [hw.1]⟩
      · exact ⟨rfl, id⟩
  | waitProcess pid =>
      rcases schedWaitProcess_ok hexec with ⟨rfl, -⟩ | ⟨-, t, p, -, hp, ht, rfl⟩
      · exact h
      · refine h.keeps ⟨threadsAlive_update ht rfl ?_, .update hp fun _ => ⟨_, rfl, rfl, Iff.rfl⟩⟩
        simp [hok.actor _ rfl t ht]
  | pickNext =>
      exact schedPickNext_inv (I := ThreadsLive) h (fun _ _ _ hI _ hd => hI.round hd)
        (heads_true _ _) (noResult_ok hexec)
  | interfaceDelete name pid =>
      obtain rfl := (exec_pair hexec).2
      rcases interfaceDelete_eq s name pid with hd | ⟨addr, intfaces, hd⟩
      · rw [hd]
        exact h
      · rw [hd]
        refine h.keeps ⟨.map (fun t => ?_) s.threads, .refl s.processes⟩
        unfold Thread.unwait
        split_ifs with hw
        · exact ⟨rfl, by simp [hw.1]⟩
        · exact ⟨rfl, id⟩
  | interfaceWait name tid =>
      rcases interfaceWait_ok hexec with ⟨rfl, -⟩ | ⟨-, t, addr, ht, rfl⟩
      · exact h
      · exact h.keeps (Kernel.setThread_keepsAlive ht rfl (by simp [hok.actor _ rfl t ht]))
  | _ =>
      obtain ⟨mem, processes, intfaces, size, next, hl, rfl⟩ := exec_quiet hs rfl hexec
      exact h.keeps ⟨threadsAlive_refl s.threads, .like hl⟩

theorem ThreadsLive.started {s : Kernel} (h : Started s) : ThreadsLive s := by
  obtain ⟨mem, eflags, idleLoop, h⟩ := h
  simp only [schedInit, bind_ok, Prod.exists, Except.ok.injEq] at h
  obtain ⟨pid, s₁, hcreate, tid, s₂, hthread, rfl⟩ := h
  have hboot : ThreadsLive (Kernel.boot mem eflags) := fun _ _ ht => (by cases ht)
  have hcreated := (schedCreateProcess_ok hcreate).2
  have hlive := (hboot.created (Tables.boot mem eflags) hcreated).spawned
    (schedCreateThread_ok hthread).2 fun p hp => by
      obtain ⟨p₀, mem', hfresh, rfl⟩ := hcreated
      simp only [Kernel.boot] at hp
      by_cases hpid : pid = 0
      · obtain rfl : p₀ = p := by simpa [hpid] using hp
        simp [hfresh.state]
      · simp [Function.update_of_ne hpid] at hp
  exact fun tid t ht => hlive tid t ht

/-! ### A waiting thread and its interface -/

/-- What a round does with a thread that waits for a message. -/
theorem pickDispatch_waitsOn {s : Kernel} {tid : Int} {t : Thread} {addr : ℕ}
    (ht : s.threads tid = some t) (hw : t.WaitsOn addr) :
    pickDispatch s tid = (do
      pickCheck s t
      let i ← s.interfaceAt addr
      if interfaceHasMsg i t.pid then
        .ok (s.setThread tid (some { t with waitMsg := none, state := .running }))
      else .ok s) := by
  unfold pickDispatch
  simp only [ht, hw.1, pickWaiting, hw.2]

theorem ThreadsLive.pickCheck {s : Kernel} (h : ThreadsLive s) {tid : Int} {t : Thread}
    (ht : s.threads tid = some t) (halive : t.state ≠ .dead) : pickCheck s t = .ok () := by
  obtain ⟨p, hp, hstate, -⟩ := h tid t ht halive
  unfold GalaxyOS.pickCheck
  simp [hp, hstate]

theorem AddrsValid.interfaceAt {s : Kernel} (h : AddrsValid s) {i : Interface}
    (hi : i ∈ s.intfaces) : s.interfaceAt i.addr = .ok i := by
  obtain ⟨j, hj, haddr, hat⟩ := interfaceAt_of_mem ⟨i, hi, rfl⟩
  obtain rfl : j = i := List.inj_on_of_nodup_map h.nodup hj hi haddr
  exact hat

/-- If the round looks at a thread that waits on an interface with a message for its process, then
the thread is made running. -/
def WakesEligible (st : Kernel × Bool) : Prop :=
  ∀ t, ∀ i ∈ st.1.intfaces, st.1.threads (pickFetch st.1 st.2).1 = some t → t.WaitsOn i.addr →
    interfaceHasMsg i t.pid = true →
    ∃ s₂, pickDispatch (pickFetch st.1 st.2).2.1 (pickFetch st.1 st.2).1 = .ok s₂ ∧
      s₂.threads (pickFetch st.1 st.2).1 = some { t with waitMsg := none, state := .running }

theorem ThreadsLive.wakes {s : Kernel} (h : ThreadsLive s) (haddrs : AddrsValid s) (loop : Bool) :
    WakesEligible (s, loop) := by
  intro t i hi ht hw hmsg
  obtain ⟨l, hl⟩ := pickFetch_eq s loop
  have hmoved : ThreadsLive { s with queueLoc := l } := h
  have hat : Kernel.interfaceAt { s with queueLoc := l } i.addr = .ok i := haddrs.interfaceAt hi
  simp only [hl]
  refine ⟨Kernel.setThread { s with queueLoc := l } (pickFetch s loop).1
    (some { t with waitMsg := none, state := .running }), ?_, Function.update_self ..⟩
  have hdisp := pickDispatch_waitsOn (s := { s with queueLoc := l }) ht hw
  rw [hmoved.pickCheck ht (by simp [hw.1]), ok_bind, hat, ok_bind, if_pos hmsg] at hdisp
  exact hdisp

/-- The interface at `addr` exists and has no message for `pid`. -/
def Silent (addr : ℕ) (pid : Int) (s : Kernel) : Prop :=
  ∃ i ∈ s.intfaces, i.addr = addr ∧ interfaceHasMsg i pid = false

/-- The thread is `t`, or it has been ended. -/
def Kernel.LeftAlone (s : Kernel) (tid : Int) (t : Thread) : Prop :=
  ∀ t', s.threads tid = some t' → t' = t ∨ t'.state = .dead

theorem LeftAlone.round {s s₂ : Kernel} {loop : Bool} {tid : Int} {t : Thread} {addr : ℕ}
    (haddrs : AddrsValid s) (h : s.LeftAlone tid t) (hw : t.WaitsOn addr)
    (hsilent : Silent addr t.pid s)
    (hd : pickDispatch (pickFetch s loop).2.1 (pickFetch s loop).1 = .ok s₂) :
    s₂.LeftAlone tid t := by
  obtain ⟨t₀, ht₀, -, heff⟩ := pickDispatch_ok hd
  obtain ⟨l, hl⟩ := pickFetch_eq s loop
  by_cases htid : tid = (pickFetch s loop).1
  · rw [← htid] at ht₀ heff hd
    rw [hl] at ht₀ heff hd
    rcases h t₀ ht₀ with rfl | hdead
    · -- it waits, and the interface has nothing for it
      obtain ⟨i, hi, rfl, hmsg⟩ := hsilent
      have hat : Kernel.interfaceAt { s with queueLoc := l } i.addr = .ok i := haddrs.interfaceAt hi
      rw [pickDispatch_waitsOn ht₀ hw, hat, ok_bind, hmsg] at hd
      obtain ⟨_, -, hd⟩ := bind_ok.mp hd
      obtain rfl := Except.ok.inj hd
      exact h
    · rw [heff.freed hdead]
      intro t' ht'
      simp [Kernel.freed] at ht'
  · intro t' ht'
    rw [heff.other htid, hl] at ht'
    exact h t' ht'

theorem LeftAlone.of_sleeps {s s' : Kernel} {tid : Int} {t : Thread} {addr : ℕ}
    (h : s.LeftAlone tid t) (htid : tid < s.lastTid) (hw : t.WaitsOn addr)
    (hstep : s.ThreadsStep Thread.Sleeps s') : s'.LeftAlone tid t := by
  intro t' ht'
  rcases hstep.slots tid t' ht' with ⟨t₀, ht₀, hsleeps⟩ | ⟨hnew, -⟩
  · rcases h t₀ ht₀ with rfl | hdead
    · exact hsleeps.asleep addr hw
    · exact .inr (hsleeps.dead hdead)
  · omega

theorem LeftAlone.exec {s s' : Kernel} {c : Call} {r : Int} {tid : Int} {t : Thread} {addr : ℕ}
    (hs : Tables s) (haddrs : AddrsValid s) (h : s.LeftAlone tid t) (htid : tid < s.lastTid)
    (hw : t.WaitsOn addr) (hok : c.ByLiving s) (hsilent : Silent addr t.pid s)
    (hexec : exec s c = .ok (r, s')) (hexists : ∃ i ∈ s'.intfaces, i.addr = addr) :
    s'.LeftAlone tid t := by
  cases c with
  | interfaceWait name tid₁ =>
      rcases interfaceWait_ok hexec with ⟨rfl, -⟩ | ⟨-, t₁, addr₁, ht₁, rfl⟩
      · exact h
      · intro t' ht'
        by_cases he : tid = tid₁
        · -- the thread that makes the call is running
          subst he
          have hrun := hok.actor tid rfl t₁ ht₁
          rcases h t₁ ht₁ with rfl | hdead
          · rw [hw.1] at hrun
            cases hrun
          · rw [hdead] at hrun
            cases hrun
        · rw [Kernel.setThread_threads, Function.update_of_ne he] at ht'
          exact h t' ht'
  | interfaceDelete name pid =>
      obtain rfl := (exec_pair hexec).2
      rcases interfaceDelete_cases s name pid with ⟨-, hsame⟩ | ⟨-, qid, i, hi, -, hdel⟩
      · rw [hsame]
        exact h
      · rw [hdel] at hexists ⊢
        intro t' ht'
        obtain ⟨t₀, ht₀, rfl⟩ := Option.map_eq_some_iff.mp ht'
        have hother : i.addr ≠ addr := by
          rintro rfl
          obtain ⟨j, hj, hji⟩ := hexists
          exact ((eraseIdx_keys haddrs.nodup hi).2.1 j hj).2 hji
        unfold Thread.unwait
        rcases h t₀ ht₀ with rfl | hdead
        · refine .inl (if_neg fun hu => hother ?_)
          exact Option.some.inj (hu.2.symm.trans hw.2)
        · refine .inr ?_
          rw [if_neg fun hu => by simp [hdead] at hu]
          exact hdead
  | pickNext =>
      have hinv : AddrsValid s' ∧ Silent addr t.pid s' ∧ s'.LeftAlone tid t := by
        refine schedPickNext_inv
          (I := fun s => AddrsValid s ∧ Silent addr t.pid s ∧ s.LeftAlone tid t)
          ⟨haddrs.same ⟨rfl, rfl, rfl⟩, hsilent, h⟩ ?_ (heads_true _ _) (noResult_ok hexec)
        rintro s loop s₂ ⟨haddrs, hsilent, h⟩ - hd
        have hleft := LeftAlone.round haddrs h hw hsilent hd
        obtain ⟨t₀, -, -, heff⟩ := pickDispatch_ok hd
        have hsame := (pickFetch_sameInterfaces s loop).trans heff.sameInterfaces
        refine ⟨haddrs.same hsame, ?_, hleft⟩
        unfold Silent
        rw [hsame.intfaces]
        exact hsilent
      exact hinv.2.2
  | _ =>
      refine LeftAlone.of_sleeps h htid hw ?_
      exact (exec_keeps hs rfl hexec).mono fun _ _ hr => hr.2 hok

theorem interfaceHasMsg_iff {s : Kernel} (hnames : (s.intfaces.map Interface.name).Nodup)
    (hvalid : SendersValid s) {i : Interface} (hi : i ∈ s.intfaces) (pid : Int) (um : UserMem)
    (buf size sizeOut : ℕ) : interfaceHasMsg i pid = true ↔
      (interfaceRecv s um i.name pid buf size sizeOut).1 ≠ -EAGAIN := by
  unfold interfaceRecv
  cases hf : interfaceFind s.intfaces i.name with
  | error e => exact absurd rfl ((interfaceFind_error hf).2 i hi)
  | ok qid =>
      obtain ⟨j, hj, hname⟩ := interfaceFind_ok hf
      obtain rfl := List.inj_on_of_nodup_map hnames (List.mem_of_getElem? hj) hi hname
      simp only [hj]
      cases hmid : j.messages.findIdx? (j.delivers pid) with
      | none =>
          have hno := List.findIdx?_eq_none_iff.mp hmid
          simp only [ne_eq, not_true_eq_false, iff_false]
          intro hany
          obtain ⟨m, hm, hdel⟩ := List.any_eq_true.mp hany
          rw [hno m hm] at hdel
          cases hdel
      | some mid =>
          obtain ⟨hlt, hdel, -⟩ := List.findIdx?_eq_some_iff_getElem.mp hmid
          have hpos := hvalid j hi _ (List.getElem_mem hlt)
          have hmsg : interfaceHasMsg j pid = true :=
            List.any_eq_true.mpr ⟨_, List.getElem_mem hlt, hdel⟩
          simp only [List.getElem?_eq_getElem hlt]
          refine iff_of_true hmsg ?_
          cases hcopy : recvCopy um j.messages[mid] buf size sizeOut with
          | mk ok um' =>
              cases ok with
              | false =>
                  simp only
                  decide
              | true =>
                  simp only
                  have hneg : (-EAGAIN : Int) < 0 := by decide
                  omega

/-- The scheduler and `interface_recv` agree on when a thread may go on. -/
structure WakeupExact (s : Kernel) : Prop where
  agrees : ∀ i ∈ s.intfaces, ∀ (pid : Int) (um : UserMem) (buf size sizeOut : ℕ),
    interfaceHasMsg i pid = true ↔
      (interfaceRecv s um i.name pid buf size sizeOut).1 ≠ -EAGAIN
  wakes : Call.Rounds WakesEligible s .pickNext
  /-- While there is no message, the thread waits on unless it is ended. -/
  sleeps : ∀ tid t addr, s.threads tid = some t → t.WaitsOn addr →
    ∀ s', Reach Step (fun s c => c.ByLiving s ∧ Silent addr t.pid s) (fun s₀ => s₀ = s) s' →
      (∃ i ∈ s'.intfaces, i.addr = addr) → s'.LeftAlone tid t

theorem LeftAlone.run {s s' : Kernel} {tid : Int} {t : Thread} {addr : ℕ} (hs : Tables s)
    (haddrs : AddrsValid s) (ht : s.threads tid = some t) (hw : t.WaitsOn addr)
    (h : Reach Step (fun s c => c.ByLiving s ∧ Silent addr t.pid s) (fun s₀ => s₀ = s) s')
    (hexists : ∃ i ∈ s'.intfaces, i.addr = addr) : s'.LeftAlone tid t := by
  have hinv : Tables s' ∧ AddrsValid s' ∧ tid < s'.lastTid ∧
      ((∃ i ∈ s'.intfaces, i.addr = addr) → s'.LeftAlone tid t) := by
    refine h.invariant (I := fun s => Tables s ∧ AddrsValid s ∧ tid < s.lastTid ∧
      ((∃ i ∈ s.intfaces, i.addr = addr) → s.LeftAlone tid t)) ?_ ?_
    · rintro s₀ rfl
      refine ⟨hs, haddrs, (hs.tid tid t ht).1.2, fun _ t' ht' => .inl ?_⟩
      exact Option.some.inj (ht'.symm.trans ht)
    · rintro s₁ c s₂ ⟨hs, haddrs, htid, hleft⟩ ⟨hok, hsilent⟩ ⟨r, hexec⟩
      have hhere : ∃ i ∈ s₁.intfaces, i.addr = addr := by
        obtain ⟨i, hi, haddr, -⟩ := hsilent
        exact ⟨i, hi, haddr⟩
      refine ⟨hs.exec hexec, (exec_interfaces hs hexec).addrsValid haddrs, ?_, fun hthere => ?_⟩
      · exact Int.lt_of_lt_of_le htid (exec_grows hs hexec).lastTid
      · exact LeftAlone.exec hs haddrs (hleft hhere) htid hw hok hsilent hexec hthere
  exact hinv.2.2.2 hexists

/-- **No wake-up is lost**, and none comes early: in every reachable state the scheduler resumes a
thread that waits for a message exactly if a receive would find one. -/
theorem wakeup_exact {s : Kernel}
    (h : Reach Step (fun s c => c.SenderPid ∧ c.ByLiving s) Started s) : WakeupExact s := by
  have hinv : Tables s ∧ AddrsValid s ∧ ThreadsLive s := by
    refine h.invariant (I := fun s => Tables s ∧ AddrsValid s ∧ ThreadsLive s) ?_ ?_
    · intro s hs
      refine ⟨.started hs, ⟨?_, ?_⟩, .started hs⟩
      all_goals simp [started_intfaces hs]
    · rintro s c s' ⟨hs, haddrs, hlive⟩ ⟨-, hok⟩ ⟨r, hexec⟩
      exact ⟨hs.exec hexec, (exec_interfaces hs hexec).addrsValid haddrs,
        hlive.exec hs hok hexec⟩
  obtain ⟨hs, haddrs, hlive⟩ := hinv
  refine ⟨?_, ?_, ?_⟩
  · intro i hi pid um buf size sizeOut
    have hvalid : SendersValid s := reach_sendersValid (fun _ _ hok => hok.1) h
    exact interfaceHasMsg_iff (reach_bounded h).2.names hvalid hi pid um buf size sizeOut
  · refine Call.Rounds.of_invariant (I := fun s => AddrsValid s ∧ ThreadsLive s)
      (C := fun _ => True) ⟨haddrs.same ⟨rfl, rfl, rfl⟩, hlive⟩ ?_
      (fun _ loop hI _ => hI.2.wakes hI.1 loop) (heads_true _ _)
    rintro s loop s₂ ⟨haddrs, hlive⟩ - hd
    obtain ⟨t, -, -, heff⟩ := pickDispatch_ok hd
    exact ⟨haddrs.same ((pickFetch_sameInterfaces s loop).trans heff.sameInterfaces),
      hlive.round hd⟩
  · intro tid t addr ht hw s' hrun hexists
    exact LeftAlone.run hs haddrs ht hw hrun hexists

/-- Thread 1 waits for a message to process 1, and process 2 has sent one. -/
theorem wakeup_exact_sent : ∃ s : Kernel, (∃ t ∈ s.threads 1, t.WaitsOn 0 ∧ t.pid = 1) ∧
    (∃ i ∈ s.intfaces, i.addr = 0 ∧ interfaceHasMsg i 1 = true) ∧ WakeupExact s := by
  have hrun : BootRuns id execState (fun s c => c.SenderPid ∧ c.ByLiving s)
      (fun s => (∃ t ∈ s.threads 1, t.WaitsOn 0 ∧ t.pid = 1) ∧
        ∃ i ∈ s.intfaces, i.addr = 0 ∧ interfaceHasMsg i 1 = true)
      [.createProcess 0 [], .createThread 1 false 0, .createProcess 0 [], .createThread 2 false 0,
        .interfaceCreate [0x61] 1 0, .pickNext, .interfaceRecv flatMemory [0x61] 1 0x2000 8 0x3000,
        .interfaceWait [0x61] 1, .pickNext, .interfaceSend flatMemory [0x61] 2 0 0x1000 4] := by
    decide +kernel
  obtain ⟨s, hs, ht, hi⟩ := hrun.reach (fun _ _ _ => execState_step) fun _ hs => hs
  exact ⟨s, ht, hi, wakeup_exact hs⟩

end GalaxyOS
