import GalaxyOS.Sched.Tables

/-! # The capacities of the scheduler's arrays

`processes`, `threads`, `queue` and the `tids` of each process grow when they are full.  The guard
for `threads` looks at `processes_size` and the guard for `tids` at `threads_size`, so an array can
be full without being grown.

`Call.stores` lists what a creation stores where, and `stores_inBounds_iff` says when all of it
fits; `stores_complete` checks the list against the functions of `sched.c`.

`CapacityInv` is the invariant behind the equivalence, and `stores_iff` the step: it compares the guards
with the room for each array. -/

namespace GalaxyOS

open Transition

/-- The arrays of the scheduler that grow. -/
inductive SchedArray where
  | processes
  | threads
  | queue
  | tids (pid : Int)
deriving DecidableEq

/-- A store into an array whose recorded capacity at that moment is `capacity`. -/
structure SlotStore where
  array : SchedArray
  index : Int
  capacity : Int
deriving DecidableEq

def SlotStore.InBounds (w : SlotStore) : Prop := 0 ≤ w.index ∧ w.index < w.capacity

namespace Kernel

/-- `processes[last_pid] = ..`. -/
def createProcessStores (s : Kernel) : List SlotStore :=
  if s.lastPid ≥ maxProcesses then []
  else [⟨.processes, s.lastPid, s.growProcesses.processesSize⟩]

/-- `threads[last_tid] = ..`, then `tids[threadcount++] = ..` and `queue[queue_end] = ..`. -/
def createThreadStores (s : Kernel) (ownerpid : Int) (noqueue : Bool) : List SlotStore :=
  if s.lastTid ≥ maxThreads then []
  else
    ⟨.threads, s.lastTid, s.growThreads.threadsSize⟩ ::
      match s.processes ownerpid with
      -- the fault at processes[ownerpid]->cr3
      | none => []
      | some p =>
          ⟨.tids ownerpid, p.threadcount, (p.growTids s.growThreads.threadsSize).tidsSize⟩ ::
            if noqueue then [] else [⟨.queue, s.queueEnd, s.queueCap⟩]

/-- The process for which `sched_fork_thread` calls `sched_create_thread`. -/
def forkOwner (s : Kernel) (tid : Int) (r : Regs) : Option Int :=
  if s.lastTid ≥ maxThreads then none
  else if pmmAvailable s.mem < 16 then none
  else
    match s.threads tid with
    | none => none
    | some t =>
        if r.useresp < t.stackpdi * 0x400000 ∨ r.useresp ≥ t.stackpdi * 0x400000 + 0x400000 then none
        else some t.pid

end Kernel

/-- The stores that a creation makes into the arrays. -/
def Call.stores (s : Kernel) : Call → List SlotStore
  | .createProcess _ _ => s.createProcessStores
  | .createThread ownerpid noqueue _ => s.createThreadStores ownerpid noqueue
  | .forkThread tid r =>
      match s.forkOwner tid r with
      | none => []
      | some pid => s.createThreadStores pid false
  | _ => []

/-- `sched_create_process`, `sched_create_thread` and `sched_fork_thread`. -/
def Call.creates : Call → Bool
  | .createProcess .. | .createThread .. | .forkThread .. => true
  | _ => false

/-- The owner of the thread that the call is about to create. -/
def Call.threadOwner (s : Kernel) : Call → Option Int
  | .createThread ownerpid _ _ => if s.lastTid ≥ maxThreads then none else some ownerpid
  | .forkThread tid r => s.forkOwner tid r
  | _ => none

/-- The owner has less than 128 threads, and `threads` is not full while `processes` is larger. -/
structure Kernel.HasRoom (s : Kernel) (ownerpid : Int) : Prop where
  threads : s.lastTid = s.threadsSize → s.processesSize ≤ s.lastTid
  tids : ∀ p, s.processes ownerpid = some p → (p.threadcount : Int) < defaultPTidListSize

/-- There is room for the thread that the call creates, if it creates one. -/
def Call.Fits (s : Kernel) (c : Call) : Prop := ∀ pid, c.threadOwner s = some pid → s.HasRoom pid

instance (w : SlotStore) : Decidable w.InBounds :=
  inferInstanceAs (Decidable (0 ≤ w.index ∧ w.index < w.capacity))

instance (s : Kernel) (pid : Int) : Decidable (s.HasRoom pid) :=
  have := decidableForallSome (P := fun p : Process => (p.threadcount : Int) < defaultPTidListSize)
    (s.processes pid)
  decidable_of_iff _ ⟨fun h => ⟨h.1, h.2⟩, fun h => And.intro h.threads h.tids⟩

instance (s : Kernel) (c : Call) : Decidable (c.Fits s) := decidableForallSome (c.threadOwner s)

/-! ### The lists are complete -/

/-- The slots that differ between `s` and `s'` are among those that `ws` stores into. -/
structure StoresCover (ws : List SlotStore) (s s' : Kernel) : Prop where
  processes : ∀ i, s.processes i = none → s'.processes i ≠ none →
    ∃ cap, ⟨.processes, i, cap⟩ ∈ ws
  threads : ∀ i, s'.threads i ≠ s.threads i → ∃ cap, ⟨.threads, i, cap⟩ ∈ ws
  queue : ∀ i, s'.queue i ≠ s.queue i → ∃ cap, ⟨.queue, i, cap⟩ ∈ ws
  tids : ∀ pid p p', s.processes pid = some p → s'.processes pid = some p' → p'.tids ≠ p.tids →
    ∃ cap, ⟨.tids pid, p.threadcount, cap⟩ ∈ ws

theorem StoresCover.refl (ws : List SlotStore) (s : Kernel) : StoresCover ws s s := by
  refine ⟨fun i h h' => absurd h h', fun i h => absurd rfl h, fun i h => absurd rfl h, ?_⟩
  intro pid p p' hp hp' hne
  obtain rfl := Option.some.inj (hp.symm.trans hp')
  exact absurd rfl hne

theorem StoresCover.created {s s' : Kernel} (hs : Tables s) (hmax : ¬s.lastPid ≥ maxProcesses)
    (h : s.Created s') : StoresCover s.createProcessStores s s' := by
  have hstores : s.createProcessStores = [⟨.processes, s.lastPid, s.growProcesses.processesSize⟩] :=
    if_neg hmax
  obtain ⟨p, mem, hfresh, rfl⟩ := h
  rw [hstores]
  refine ⟨fun i hno hsome => ?_, fun i h => absurd rfl h, fun i h => absurd rfl h, ?_⟩
  · by_cases hi : i = s.lastPid
    · subst hi
      exact ⟨_, List.mem_singleton_self _⟩
    · simp only [Function.update_of_ne hi] at hsome
      exact absurd hno hsome
  · intro pid q q' hq hq' hne
    have hpid : pid ≠ s.lastPid := Int.ne_of_lt (hs.pid pid q hq).2.2
    simp only [Function.update_of_ne hpid] at hq'
    obtain rfl := Option.some.inj (hq.symm.trans hq')
    exact absurd rfl hne

theorem StoresCover.spawned {s s' : Kernel} {pid : Int} {noqueue : Bool}
    (hmax : ¬s.lastTid ≥ maxThreads) (h : s.Spawned pid noqueue s') :
    StoresCover (s.createThreadStores pid noqueue) s s' := by
  obtain ⟨-, p, t, mem, hp, hfresh, rfl⟩ := h
  have hstores : s.createThreadStores pid noqueue =
      ⟨.threads, s.lastTid, s.growThreads.threadsSize⟩ ::
        ⟨.tids pid, p.threadcount, (p.growTids s.growThreads.threadsSize).tidsSize⟩ ::
          if noqueue then [] else [⟨.queue, s.queueEnd, s.queueCap⟩] := by
    unfold Kernel.createThreadStores
    rw [if_neg hmax, hp]
  rw [hstores]
  refine ⟨fun i hno hsome => ?_, fun i hne => ?_, fun i hne => ?_, fun i q q' hq hq' hne => ?_⟩
  · by_cases hi : i = pid
    · rw [hi, hp] at hno
      cases hno
    · simp only [Function.update_of_ne hi] at hsome
      exact absurd hno hsome
  · by_cases hi : i = s.lastTid
    · subst hi
      exact ⟨_, List.mem_cons_self⟩
    · simp only [Function.update_of_ne hi] at hne
      exact absurd rfl hne
  · cases noqueue with
    | true => exact absurd rfl hne
    | false =>
        by_cases hi : i = s.queueEnd
        · subst hi
          exact ⟨s.queueCap, by simp⟩
        · simp only [Kernel.queued, Bool.false_eq_true, if_false, Function.update_of_ne hi] at hne
          exact absurd rfl hne
  · by_cases hi : i = pid
    · subst hi
      obtain rfl : p = q := Option.some.inj (hp.symm.trans hq)
      exact ⟨_, List.mem_cons_of_mem _ List.mem_cons_self⟩
    · simp only [Function.update_of_ne hi] at hq'
      obtain rfl := Option.some.inj (hq.symm.trans hq')
      exact absurd rfl hne

/-- A fork creates a thread for `forkOwner`, or nothing. -/
theorem schedForkThread_owner {s s' : Kernel} {tid : Int} {regs : Regs} {r : Int}
    (h : schedForkThread s tid regs = .ok (r, s')) :
    s' = s ∨ ∃ pid, s.forkOwner tid regs = some pid ∧ s.Spawned pid false s' := by
  have hspawn := schedForkThread_spawned h
  unfold schedForkThread at h
  unfold Kernel.forkOwner
  split_ifs at h ⊢ with h1 h2
  · simp only [Except.ok.injEq, Prod.mk.injEq] at h
    exact .inl h.2.symm
  · simp only [Except.ok.injEq, Prod.mk.injEq] at h
    exact .inl h.2.symm
  · obtain ⟨t, ht, h⟩ := bind_ok.mp h
    rw [Kernel.threadAt_ok] at ht
    simp only [ht]
    by_cases h3 : regs.useresp < t.stackpdi * 0x400000 ∨
        regs.useresp ≥ t.stackpdi * 0x400000 + 0x400000
    · rw [if_pos h3] at h
      exact .inl (Prod.mk.inj (Except.ok.inj h)).2.symm
    · rcases hspawn with ⟨hsame, -⟩ | ⟨-, t', ht', hspawn⟩
      · exact .inl hsame
      · obtain rfl : t = t' := Option.some.inj (ht.symm.trans ht')
        exact .inr ⟨t.pid, if_neg h3, hspawn⟩

theorem forkOwner_some {s : Kernel} {tid pid : Int} {regs : Regs}
    (h : s.forkOwner tid regs = some pid) : ¬s.lastTid ≥ maxThreads := by
  intro hmax
  rw [Kernel.forkOwner, if_pos hmax] at h
  cases h

/-- A creation changes no slot that is not in the list of its stores. -/
theorem stores_complete {s s' : Kernel} {c : Call} {r : Int} (hs : Tables s)
    (hc : c.creates = true) (h : exec s c = .ok (r, s')) : StoresCover (c.stores s) s s' := by
  cases c with
  | createProcess privilege name =>
      have hmax : ¬s.lastPid ≥ maxProcesses := by
        intro hmax
        simp [exec, schedCreateProcess, hmax] at h
      exact .created hs hmax (schedCreateProcess_ok h).2
  | createThread ownerpid noqueue entrypoint =>
      have hmax : ¬s.lastTid ≥ maxThreads := by
        intro hmax
        simp [exec, schedCreateThread, hmax] at h
      exact .spawned hmax (schedCreateThread_ok h).2
  | forkThread tid regs =>
      rcases schedForkThread_owner h with rfl | ⟨pid, howner, hspawn⟩
      · exact .refl _ s'
      · have hstores : Call.stores s (.forkThread tid regs) = s.createThreadStores pid false := by
          simp only [Call.stores, howner]
        rw [hstores]
        exact .spawned (forkOwner_some howner) hspawn
  | _ => cases hc

/-! ### The invariant -/

/-- The recorded capacities cover what is in use, and no list of threads has ever been grown. -/
structure CapacityInv (s : Kernel) : Prop where
  tables : Tables s
  processes : s.lastPid ≤ s.processesSize
  threads : s.lastTid ≤ s.threadsSize
  threadsSize : defaultListSize ≤ s.threadsSize
  queueEnd : 0 ≤ s.queueEnd ∧ s.queueEnd < s.processesSize
  queueCap : s.queueCap = s.processesSize
  tids : ∀ pid p, s.processes pid = some p →
    (p.threadcount : Int) ≤ defaultPTidListSize ∧ p.tidsSize = defaultPTidListSize

namespace CapacityInv

variable {s s' : Kernel}

theorem growTids_eq (h : CapacityInv s) {pid : Int} {p : Process} (hp : s.processes pid = some p) :
    p.growTids s.growThreads.threadsSize = p := by
  have hsize := h.threadsSize
  have hcount := (h.tids pid p hp).1
  have hgrow : s.threadsSize ≤ s.growThreads.threadsSize := by
    unfold Kernel.growThreads
    split_ifs
    · exact Int.le_add_of_nonneg_right (by decide)
    · exact Int.le_refl _
  unfold Process.growTids
  refine if_neg fun hfull => ?_
  simp only [defaultListSize, defaultPTidListSize] at *
  omega

/-- With this invariant, the list of a thread creation is in bounds exactly if there is room. -/
theorem threadStores_iff (h : CapacityInv s) {pid : Int} (noqueue : Bool)
    (hmax : ¬s.lastTid ≥ maxThreads) :
    (∀ w ∈ s.createThreadStores pid noqueue, w.InBounds) ↔ s.HasRoom pid := by
  have hthreads : SlotStore.InBounds ⟨.threads, s.lastTid, s.growThreads.threadsSize⟩ ↔
      (s.lastTid = s.threadsSize → s.processesSize ≤ s.lastTid) := by
    have hlast := h.tables.lastTid
    have hle := h.threads
    unfold SlotStore.InBounds Kernel.growThreads
    split_ifs with hgrow
    · simp only [reallocIncrement]
      omega
    · simp only
      omega
  unfold Kernel.createThreadStores
  rw [if_neg hmax]
  cases hp : s.processes pid with
  | none =>
      simp only [List.mem_singleton, forall_eq, hthreads]
      refine ⟨fun hroom => ⟨hroom, fun p hp' => ?_⟩, fun hroom => hroom.threads⟩
      rw [hp] at hp'
      cases hp'
  | some p =>
      have htids : SlotStore.InBounds
          ⟨.tids pid, p.threadcount, (p.growTids s.growThreads.threadsSize).tidsSize⟩ ↔
          (p.threadcount : Int) < defaultPTidListSize := by
        rw [h.growTids_eq hp, (h.tids pid p hp).2]
        exact and_iff_right (Int.natCast_nonneg _)
      have hqueue : ∀ w ∈ (if noqueue then [] else [⟨.queue, s.queueEnd, s.queueCap⟩] :
          List SlotStore), w.InBounds := by
        intro w hw
        split_ifs at hw with hno
        · cases hw
        · obtain rfl := List.mem_singleton.mp hw
          exact ⟨h.queueEnd.1, h.queueCap ▸ h.queueEnd.2⟩
      rw [List.forall_mem_cons, List.forall_mem_cons, hthreads, htids]
      constructor
      · rintro ⟨hroom, hcount, -⟩
        refine ⟨hroom, fun p' hp' => ?_⟩
        obtain rfl := Option.some.inj (hp.symm.trans hp')
        exact hcount
      · intro hroom
        exact ⟨hroom.threads, hroom.tids p hp, hqueue⟩

theorem created (h : CapacityInv s) (hc : s.Created s') : CapacityInv s' := by
  have htables := h.tables.created hc
  obtain ⟨p, mem, hfresh, rfl⟩ := hc
  have hsize : s.lastPid + 1 ≤ s.growProcesses.processesSize ∧
      s.processesSize ≤ s.growProcesses.processesSize ∧
      s.growProcesses.queueCap = s.growProcesses.processesSize := by
    have hle := h.processes
    have hcap := h.queueCap
    unfold Kernel.growProcesses
    split_ifs with hgrow
    · simp only [reallocIncrement, and_true]
      omega
    · omega
  refine ⟨htables, hsize.1, h.threads, h.threadsSize, ?_, hsize.2.2, fun pid q hq => ?_⟩
  · exact ⟨h.queueEnd.1, Int.lt_of_lt_of_le h.queueEnd.2 hsize.2.1⟩
  · by_cases hpid : pid = s.lastPid
    · subst hpid
      obtain rfl : p = q := by simpa using hq
      refine ⟨?_, hfresh.tidsSize⟩
      rw [Process.threadcount, hfresh.tids]
      decide
    · simp only [Function.update_of_ne hpid] at hq
      exact h.tids pid q hq

theorem spawned (h : CapacityInv s) {pid : Int} {noqueue : Bool} (hroom : s.HasRoom pid)
    (hc : s.Spawned pid noqueue s') : CapacityInv s' := by
  have htables := h.tables.spawned hc
  obtain ⟨-, p, t, mem, hp, hfresh, rfl⟩ := hc
  have hsize : s.lastTid + 1 ≤ s.growThreads.threadsSize ∧
      defaultListSize ≤ s.growThreads.threadsSize := by
    have hle := h.threads
    have hmin := h.threadsSize
    have hfull := hroom.threads
    unfold Kernel.growThreads
    split_ifs with hgrow
    · simp only [reallocIncrement]
      omega
    · omega
  refine ⟨htables, h.processes, hsize.1, hsize.2, ?_, h.queueCap, fun pid' q hq => ?_⟩
  · cases noqueue with
    | true => exact h.queueEnd
    | false =>
        have hpos : 0 < s.processesSize := Int.lt_of_le_of_lt h.queueEnd.1 h.queueEnd.2
        exact ⟨Int.emod_nonneg _ (Int.ne_of_gt hpos), Int.emod_lt_of_pos _ hpos⟩
  · by_cases hpid : pid' = pid
    · subst hpid
      have hcount := hroom.tids p hp
      simp only [Function.update_self, Option.some.injEq] at hq
      subst hq
      rw [h.growTids_eq hp]
      refine ⟨?_, (h.tids pid' p hp).2⟩
      simp only [Process.threadcount, List.length_append, List.length_singleton] at hcount ⊢
      omega
    · simp only [Function.update_of_ne hpid] at hq
      exact h.tids pid' q hq

theorem exec (h : CapacityInv s) {c : Call} {r : Int} (hc : c.creates = true) (hfits : c.Fits s)
    (hexec : exec s c = .ok (r, s')) : CapacityInv s' := by
  cases c with
  | createProcess privilege name => exact h.created (schedCreateProcess_ok hexec).2
  | createThread ownerpid noqueue entrypoint =>
      have hmax : ¬s.lastTid ≥ maxThreads := by
        intro hmax
        simp [GalaxyOS.exec, schedCreateThread, hmax] at hexec
      exact h.spawned (hfits ownerpid (if_neg hmax)) (schedCreateThread_ok hexec).2
  | forkThread tid regs =>
      rcases schedForkThread_owner hexec with rfl | ⟨pid, howner, hspawn⟩
      · exact h
      · exact h.spawned (hfits pid howner) hspawn
  | _ => cases hc

theorem boot (mem : Mem) (eflags : ℕ) : CapacityInv (Kernel.boot mem eflags) := by
  have hsize : 0 < defaultListSize := by decide
  exact ⟨.boot mem eflags, Int.le_of_lt hsize, Int.le_of_lt hsize, Int.le_refl _,
    ⟨Int.le_refl _, hsize⟩, rfl, fun _ _ hp => (by cases hp)⟩

theorem started (h : Started s) : CapacityInv s := by
  have htables := Tables.started h
  obtain ⟨mem, eflags, idleLoop, h⟩ := h
  simp only [schedInit, bind_ok, Prod.exists, Except.ok.injEq] at h
  obtain ⟨pid, s₁, hcreate, tid, s₂, hthread, rfl⟩ := h
  obtain ⟨rfl, hcreated⟩ := schedCreateProcess_ok hcreate
  have h₁ := (CapacityInv.boot mem eflags).created hcreated
  have hroom : s₁.HasRoom (Kernel.boot mem eflags).lastPid := by
    obtain ⟨p, mem', hfresh, rfl⟩ := hcreated
    refine ⟨fun hfull => (by cases hfull), fun q hq => ?_⟩
    obtain rfl : p = q := by simpa using hq
    rw [Process.threadcount, hfresh.tids]
    decide
  have h₂ := h₁.spawned hroom (schedCreateThread_ok hthread).2
  exact ⟨htables, h₂.processes, h₂.threads, h₂.threadsSize, h₂.queueEnd, h₂.queueCap, h₂.tids⟩

/-- The stores of a call are in bounds exactly if there is room. -/
theorem stores_iff (h : CapacityInv s) (c : Call) :
    (∀ w ∈ c.stores s, w.InBounds) ↔ c.Fits s := by
  cases c with
  | createProcess privilege name =>
      refine iff_of_true (fun w hw => ?_) (fun pid hpid => by cases hpid)
      simp only [Call.stores, Kernel.createProcessStores] at hw
      split_ifs at hw with hmax
      · cases hw
      · obtain rfl := List.mem_singleton.mp hw
        have hle := h.processes
        refine ⟨h.tables.lastPid, ?_⟩
        unfold Kernel.growProcesses
        split_ifs with hgrow
        · simp only [reallocIncrement]
          omega
        · simp only
          omega
  | createThread ownerpid noqueue entrypoint =>
      by_cases hmax : s.lastTid ≥ maxThreads
      · simp [Call.stores, Kernel.createThreadStores, Call.Fits, Call.threadOwner, hmax]
      · simp only [Call.Fits, Call.threadOwner, if_neg hmax, Option.some.injEq, forall_eq']
        exact h.threadStores_iff noqueue hmax
  | forkThread tid regs =>
      simp only [Call.stores, Call.Fits, Call.threadOwner]
      cases howner : s.forkOwner tid regs with
      | none => simp
      | some pid =>
          simp only [Option.some.injEq, forall_eq']
          exact h.threadStores_iff false (forkOwner_some howner)
  | _ => exact iff_of_true (fun _ hw => by cases hw) (fun _ hpid => by cases hpid)

end CapacityInv

/-- **The arrays of the scheduler overrun exactly if a thread is created without room for it**: in
every state reached by creations that had room, the stores of the next call are in bounds if and
only if it has room, too. -/
theorem stores_inBounds_iff {s : Kernel}
    (h : Reach Step (fun s c => c.creates = true ∧ c.Fits s) Started s) (c : Call) :
    (∀ w ∈ c.stores s, w.InBounds) ↔ c.Fits s := by
  have hinv : CapacityInv s := by
    refine h.invariant (I := CapacityInv) (fun _ hs => .started hs) ?_
    rintro s c s' hinv ⟨hc, hfits⟩ ⟨r, hexec⟩
    exact hinv.exec hc hfits hexec
  exact hinv.stores_iff c

/-- The second thread of process 1 has room. -/
theorem stores_inBounds_iff_second : ∃ s : Kernel, ((Call.createThread 1 false 0).stores s).length = 3 ∧
    ∀ w ∈ (Call.createThread 1 false 0).stores s, w.InBounds := by
  have hrun : BootRuns id execState (fun s c => c.creates = true ∧ c.Fits s)
      (fun s => ((Call.createThread 1 false 0).stores s).length = 3 ∧
        (Call.createThread 1 false 0).Fits s)
      [.createProcess 0 [], .createThread 1 false 0] := by decide +kernel
  obtain ⟨s, hs, hlength, hfits⟩ := hrun.reach (fun _ _ _ => execState_step) fun _ hs => hs
  exact ⟨s, hlength, (stores_inBounds_iff hs _).mpr hfits⟩

/-- Process 1 has 128 threads, and the next one is stored behind its array. -/
theorem tids_overrun : ∃ s, Reach Step (fun _ c => c.creates = true) Started s ∧
    ∃ w ∈ (Call.createThread 1 false 0).stores s,
      w.array = .tids 1 ∧ w.index = 128 ∧ w.capacity = 128 := by
  have hrun : BootRuns id execState (fun _ c => c.creates = true)
      (fun s => ∃ w ∈ (Call.createThread 1 false 0).stores s,
        w.array = .tids 1 ∧ w.index = 128 ∧ w.capacity = 128)
      (.createProcess 0 [] :: List.replicate 128 (.createThread 1 false 0)) := by decide +kernel
  exact hrun.reach (fun _ _ _ => execState_step) fun _ hs => hs

end GalaxyOS
