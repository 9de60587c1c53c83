import GalaxyOS.Sched.RunQueue

/-! # Threads take turns

The scan of the run queue goes on from where the last one stopped, and a removal moves the entries
behind it together with the place where the scan goes on.  So between two selections of one thread
the scan comes past every other thread that stays in the queue; one that is running all the time is
selected when it does.

`round_robin` is the theorem.  `TurnInv` says that the scan comes to the one thread before it comes to the
other; `TurnInv.pickNext` and `TurnInv.call` keep it until the first of them is selected. -/

namespace GalaxyOS

open Transition Segment

/-- The thread is in the run queue. -/
def Kernel.Queued (s : Kernel) (tid : Int) : Prop :=
  ∃ i, s.queueStart ≤ i ∧ i < s.queueEnd ∧ s.queue i = tid

/-- The thread is running. -/
def Kernel.ThreadRuns (s : Kernel) (tid : Int) : Prop :=
  ∃ t, s.threads tid = some t ∧ t.state = .running

/-- The thread is in the run queue, it is running, and its process is not exiting. -/
structure Kernel.Runnable (s : Kernel) (tid : Int) : Prop where
  queued : s.Queued tid
  running : s.ThreadRuns tid
  live : ∀ t, s.threads tid = some t → ∃ p, s.processes t.pid = some p ∧ p.state ≠ .exiting

/-! ### The order of a scan -/

/-- A scan that goes on at `loc` and starts over at the end comes to the index `j` before it comes
to `i`. -/
def Before (loc j i : Int) : Prop := loc ≤ j ∧ (i < loc ∨ j < i) ∨ j < i ∧ i < loc

/-- The index just passed comes last. -/
theorem before_passed {l j : Int} (h : j ≠ l) : Before (l + 1) j l := by
  unfold Before
  omega

/-- The index at hand comes first. -/
theorem not_before_loc {l j : Int} : ¬Before l j l := by
  unfold Before
  omega

theorem Before.pass {l j i : Int} (h : Before l j i) (hj : j ≠ l) : Before (l + 1) j i := by
  unfold Before at h ⊢
  omega

theorem Before.startOver {e j i : Int} (h : Before e j i) (hj : 0 ≤ j) (hlt : j < e) :
    Before 0 j i := by
  unfold Before at h ⊢
  omega

/-- An entry between or beside the two goes away and the later ones move down by one. -/
theorem Before.erase {l j i : Int} (h : Before (l + 1) j (if l ≤ i then i + 1 else i)) :
    Before l (if l < j then j - 1 else j) i := by
  unfold Before at h ⊢
  split_ifs at h ⊢ <;> omega

/-! ### The invariant between two selections -/

/-- The thread `u` is in the queue, and the scan comes to it before it comes to `t` again. -/
structure TurnInv (t u : Int) (s : Kernel) : Prop where
  known : t < s.lastTid
  idle : t ≠ s.idletid
  ahead : ∃ j, 0 ≤ j ∧ j < s.queueEnd ∧ s.queue j = u ∧
    ∀ i, 0 ≤ i → i < s.queueEnd → s.queue i = t → Before s.queueLoc j i

variable {s s' : Kernel} {t u : Int} {Q : Set Int}

theorem TurnInv.same (h : TurnInv t u s) (hs : s.SameQueue s') (hidle : s'.idletid = s.idletid) :
    TurnInv t u s' := by
  obtain ⟨j, h0, hj, hu, hb⟩ := h.ahead
  refine ⟨by rw [hs.lastTid]; exact h.known, by rw [hidle]; exact h.idle, j, h0, ?_, ?_, ?_⟩
  · rw [hs.queueEnd]
    exact hj
  · rw [hs.queue]
    exact hu
  · rw [hs.queue, hs.queueEnd, hs.queueLoc]
    exact hb

/-- A thread that is appended comes after all others. -/
theorem TurnInv.spawned {pid : Int} {noqueue : Bool} (h : TurnInv t u s) (hinv : QueueInv s Q)
    (hspawn : s.Spawned pid noqueue s')
    (hroom : noqueue = false → s.queueEnd + 1 < s.processesSize) : TurnInv t u s' := by
  obtain ⟨-, p, th, mem, -, -, rfl⟩ := hspawn
  obtain ⟨j, h0, hj, hu, hb⟩ := h.ahead
  have hknown := h.known
  refine ⟨by simp only; omega, h.idle, j, h0, ?_⟩
  cases noqueue with
  | true => exact ⟨hj, hu, hb⟩
  | false =>
      have hroom := hroom rfl
      have hloc := hinv.loc
      have hmod : (s.queueEnd + 1) % s.processesSize = s.queueEnd + 1 :=
        Int.emod_eq_of_lt (by omega) hroom
      simp only [Kernel.queued, Bool.false_eq_true, ↓reduceIte, hmod]
      refine ⟨by omega, ?_, fun i hi0 hi ht => ?_⟩
      · rw [Function.update_of_ne (by omega)]
        exact hu
      · have hne : i ≠ s.queueEnd := by
          rintro rfl
          rw [Function.update_self] at ht
          omega
        rw [Function.update_of_ne hne] at ht
        exact hb i hi0 (by omega) ht

/-- The scan passes an entry that is not `u`; nor is it `t`, which comes later. -/
theorem TurnInv.passed {l : Int} (h : TurnInv t u s) (h0 : 0 ≤ l) (hlt : l < s.queueEnd)
    (hl : l = s.queueLoc ∨ s.queueLoc = s.queueEnd ∧ l = 0) (hu : s.queue l ≠ u) :
    s.queue l ≠ t ∧ TurnInv t u { s with queueLoc := l + 1 } := by
  obtain ⟨j, hj0, hj, huj, hb⟩ := h.ahead
  have hjl : j ≠ l := by
    rintro rfl
    exact hu huj
  have hahead : ∀ i, 0 ≤ i → i < s.queueEnd → s.queue i = t → Before l j i := by
    intro i hi0 hi ht
    rcases hl with rfl | ⟨hend, rfl⟩
    · exact hb i hi0 hi ht
    · have hbi := hb i hi0 hi ht
      rw [hend] at hbi
      exact hbi.startOver hj0 hj
  refine ⟨fun ht => not_before_loc (hahead l h0 hlt ht), h.known, h.idle, j, hj0, hj, huj, ?_⟩
  exact fun i hi0 hi ht => (hahead i hi0 hi ht).pass hjl

/-- The entry that the scan has just passed is removed. -/
theorem TurnInv.freed {l : Int} (h : TurnInv t u { s with queueLoc := l + 1 })
    (hu : s.queue l ≠ u) (h0 : 0 ≤ l ∧ l < s.queueEnd) (tid : Int) (th : Thread) :
    TurnInv t u ({ s with queueLoc := l + 1 }.freed tid th) := by
  obtain ⟨j, hj0, hj, huj, hb⟩ := h.ahead
  simp only at hj huj hb
  have hloc : l + 1 - 1 = l := by omega
  have hjl : j ≠ l := by
    rintro rfl
    exact hu huj
  refine ⟨h.known, h.idle, if l < j then j - 1 else j, ?_, ?_, ?_, fun i hi0 hi ht => ?_⟩
  · split_ifs <;> omega
  · simp only [Kernel.freed]
    split_ifs <;> omega
  · change eraseAt s.queue (l + 1 - 1) s.queueEnd _ = u
    rw [hloc, eraseAt_eq _ (by split_ifs <;> omega), ← huj]
    congr 1
    split_ifs <;> omega
  · have hi : i < s.queueEnd - 1 := hi
    have ht : eraseAt s.queue (l + 1 - 1) s.queueEnd i = t := ht
    rw [hloc, eraseAt_eq _ hi] at ht
    have hskip := skip_mem (l := l) hi0 hi
    have hbi := (hb _ hskip.1 hskip.2 ht).erase
    simp only [Kernel.freed, hloc]
    exact hbi

/-! ### Rounds of the scheduler -/

/-- What holds when a round begins. -/
def TurnRound (Q : Set Int) (t u : Int) (st : Kernel × Bool) : Prop :=
  (Tables st.1 ∧ QueueInv st.1 Q ∧ st.1.currenttid = -1) ∧ TurnInv t u st.1 ∧ st.1.ThreadRuns u ∨
    IdleFreed st

theorem Kernel.ThreadRuns.other {s s₂ : Kernel} {tid : Int} {th : Thread} (h : s.ThreadRuns u)
    (heff : PickEffect s tid th s₂) (hne : u ≠ tid) : s₂.ThreadRuns u := by
  obtain ⟨tu, htu, hrun⟩ := h
  exact ⟨tu, (heff.other hne).trans htu, hrun⟩

/-- A round that looks at `u` selects it. -/
theorem Kernel.ThreadRuns.selected {s s₂ : Kernel} {th : Thread} (h : s.ThreadRuns u)
    (hth : s.threads u = some th) (heff : PickEffect s u th s₂) : s₂.currenttid = u := by
  obtain ⟨tu, htu, hrun⟩ := h
  obtain rfl := Option.some.inj (hth.symm.trans htu)
  exact (heff.selected hrun).1

/-- A round that does not select `u` neither selects `t` nor gets past `u`. -/
theorem turn_round {s s₂ : Kernel} {loop : Bool} (hI : TurnRound Q t u (s, loop))
    (hd : pickDispatch (pickFetch s loop).2.1 (pickFetch s loop).1 = .ok s₂) :
    s₂.currenttid = u ∨ (s₂.currenttid = -1 ∨ s₂.currenttid ≠ t) ∧
      (TurnInv t u s₂ ∧ s₂.ThreadRuns u ∨
        s₂.currenttid = -1 ∧ IdleFreed (s₂, (pickFetch s loop).2.2)) := by
  rcases hI with ⟨⟨hs, hinv, hcur⟩, hturn, hrun⟩ | hidle
  · simp only at hs hinv hcur hturn hrun
    rcases pickFetch_entry hs hinv loop with ⟨l, loop', h0, hlt, hl, hf⟩ | ⟨hloc, -, hf⟩
    · rw [hf] at hd ⊢
      have hmoved : Kernel.ThreadRuns { s with queueLoc := l + 1 } u := hrun
      obtain ⟨th, hth, -, heff⟩ := pickDispatch_ok hd
      simp only at hth heff
      by_cases hu : s.queue l = u
      · rw [hu] at hth heff
        exact .inl (hmoved.selected hth heff)
      · obtain ⟨hne, hturn'⟩ := hturn.passed h0 hlt (hl.imp (·.1) fun h => ⟨h.1, h.2.1⟩) hu
        have hrun' : s₂.ThreadRuns u := hmoved.other heff (Ne.symm hu)
        right
        by_cases hdead : th.state = .dead
        · rw [heff.freed hdead] at hrun' ⊢
          exact ⟨.inl hcur, .inl ⟨hturn'.freed hu ⟨h0, hlt⟩ _ th, hrun'⟩⟩
        · refine ⟨?_, .inl ⟨hturn'.same (heff.sameQueue hth hdead) heff.idletid, hrun'⟩⟩
          rcases heff.currenttid with hc | hc
          · exact .inl (hc.trans hcur)
          · exact .inr (hc ▸ hne)
    · rw [hf] at hd ⊢
      rw [Kernel.setQueueLoc_eq hloc] at hd
      obtain ⟨th, hth, -, heff⟩ := pickDispatch_ok hd
      by_cases hu : s.idletid = u
      · rw [hu] at hth heff
        exact .inl (hrun.selected hth heff)
      · right
        by_cases hdead : th.state = .dead
        · rw [heff.freed hdead]
          refine ⟨.inl hcur, .inr ⟨hcur, rfl, ?_, by simp [Kernel.freed]⟩⟩
          simp only [Kernel.freed]
          omega
        · refine ⟨?_, .inl ⟨hturn.same (heff.sameQueue hth hdead) heff.idletid,
            hrun.other heff (Ne.symm hu)⟩⟩
          rcases heff.currenttid with hc | hc
          · exact .inl (hc.trans hcur)
          · exact .inr (hc ▸ hturn.idle.symm)
  · exact absurd hd hidle.fails

/-- A call of `sched_pick_next` that does not select `u` does not select `t` either. -/
theorem TurnInv.pickNext (hs : Tables s) (hinv : QueueInv s Q) (h : TurnInv t u s)
    (hrun : s.ThreadRuns u) (hne : u ≠ t) (hp : schedPickNext s = .ok s') :
    s'.currenttid ≠ t ∧ (s'.currenttid = u ∨ TurnInv t u s') := by
  refine schedPickNext_rule (I := TurnRound Q t u)
    (Q := fun s => s.currenttid ≠ t ∧ (s.currenttid = u ∨ TurnInv t u s)) (.inl ⟨⟨?_, ?_, rfl⟩, ?_⟩)
    ?_ ?_ (heads_true _ _) hp
  · exact hs.keeps ⟨rfl, rfl, .refl s.processes, .refl s.threads⟩
  · exact hinv.same ⟨rfl, rfl, rfl, rfl, rfl, fun _ => Iff.rfl⟩
  · exact ⟨h.same ⟨rfl, rfl, rfl, rfl, rfl, fun _ => Iff.rfl⟩ rfl, hrun⟩
  · intro s loop s₂ hI _ hd hcur
    have hnext := queueRound_next (hI.imp_left (·.1)) hd hcur
    rcases turn_round hI hd with hu | ⟨-, hturn | ⟨-, hidle⟩⟩
    · rcases hI with ⟨⟨hs, -, -⟩, -, tu, htu, -⟩ | hidle
      · have := (hs.tid u tu htu).1.1
        omega
      · exact absurd hd hidle.fails
    · exact hnext.imp_left fun h => ⟨h, hturn⟩
    · exact .inr hidle
  · intro s loop s₂ hI _ hd hcur
    rcases turn_round hI hd with hu | ⟨hc | hne', ⟨hturn, -⟩ | ⟨hc', -⟩⟩
    · exact ⟨hu ▸ hne, .inl hu⟩
    · exact absurd hc hcur
    · exact absurd hc hcur
    · exact ⟨hne', .inr hturn⟩
    · exact absurd hc' hcur

/-- A selected thread is the idle thread or the entry of the queue that the scan has just passed. -/
theorem schedPickNext_selected (hs : Tables s) (hinv : QueueInv s Q) (hp : schedPickNext s = .ok s') :
    s'.currenttid = s'.idletid ∨
      ∃ l, 0 ≤ l ∧ l < s'.queueEnd ∧ s'.queue l = s'.currenttid ∧ s'.queueLoc = l + 1 := by
  refine schedPickNext_rule (I := QueueRound Q) (Q := fun s => s.currenttid = s.idletid ∨
    ∃ l, 0 ≤ l ∧ l < s.queueEnd ∧ s.queue l = s.currenttid ∧ s.queueLoc = l + 1)
    (.inl ⟨?_, ?_, rfl⟩) ?_ ?_ (heads_true _ _) hp
  · exact hs.keeps ⟨rfl, rfl, .refl s.processes, .refl s.threads⟩
  · exact hinv.same ⟨rfl, rfl, rfl, rfl, rfl, fun _ => Iff.rfl⟩
  · exact fun s loop s₂ hI _ hd hcur => queueRound_next hI hd hcur
  · intro s loop s₂ hI _ hd hcur
    rcases hI with ⟨hs, hinv, hc⟩ | hidle
    · simp only at hs hinv hc
      rcases pickFetch_entry hs hinv loop with ⟨l, loop', h0, hlt, -, hf⟩ | ⟨-, -, hf⟩
      · rw [hf] at hd
        obtain ⟨th, hth, -, heff⟩ := pickDispatch_ok hd
        have htid : s₂.currenttid = s.queue l := heff.currenttid.resolve_left fun h =>
          hcur (h.trans hc)
        have hsame := heff.sameQueue hth fun hdead => hcur (by rw [heff.freed hdead]; exact hc)
        refine .inr ⟨l, h0, ?_, ?_, hsame.queueLoc⟩
        · rw [hsame.queueEnd]
          exact hlt
        · rw [hsame.queue, htid]
      · rw [hf] at hd
        obtain ⟨th, hth, -, heff⟩ := pickDispatch_ok hd
        have htid : s₂.currenttid = s.idletid := heff.currenttid.resolve_left fun h =>
          hcur (h.trans hc)
        exact .inl (htid.trans heff.idletid.symm)
    · exact absurd hd hidle.fails

/-- When `t` has just been selected, every other queued thread comes before it. -/
theorem turnInv_selected (hs : Tables s) (hinv : QueueInv s Q) (hp : schedPickNext s = .ok s')
    (hinv' : QueueInv s' Q) (hidle : s'.idletid ∉ Q) (ht : s'.Queued s'.currenttid)
    (hu : s'.Queued u) (hne : u ≠ s'.currenttid) : TurnInv s'.currenttid u s' := by
  obtain ⟨i, hi0, hi, hti⟩ := ht
  obtain ⟨j, hj0, hj, huj⟩ := hu
  rw [hinv'.start] at hi0 hj0
  have hmem : s'.currenttid ∈ liveQueued s' Q := hti ▸ hinv'.entries.mem hi0 hi
  have htidle : s'.currenttid ≠ s'.idletid := fun hc => hidle (hc ▸ hmem.1)
  obtain ⟨l, hl0, hl, htl, hloc⟩ := (schedPickNext_selected hs hinv hp).resolve_left htidle
  refine ⟨hinv'.known _ hmem.1, htidle, j, hj0, hj, huj, fun k hk0 hk htk => ?_⟩
  obtain rfl : k = l := hinv'.entries.eq ⟨hk0, hk⟩ ⟨hl0, hl⟩ (htk.trans htl.symm)
  rw [hloc]
  refine before_passed ?_
  rintro rfl
  exact hne (huj.symm.trans htk)

/-! ### Runs -/

/-- The idle thread exists and has not been queued. -/
structure IdleApart (s : Kernel) (Q : Set Int) : Prop where
  known : s.idletid < s.lastTid
  unqueued : s.idletid ∉ Q

theorem idleApart_start {st : QueueState} (h : QueueStart st) : IdleApart st.kernel st.queued := by
  obtain ⟨⟨mem, eflags, idleLoop, hinit⟩, hempty⟩ := h
  simp only [schedInit, bind_ok, Prod.exists, Except.ok.injEq] at hinit
  obtain ⟨pid, s₁, hcreate, tid, s₂, hthread, hs⟩ := hinit
  obtain ⟨rfl, -, p', t, mem₂, -, -, rfl⟩ := schedCreateThread_ok hthread
  rw [← hs, hempty]
  exact ⟨Int.lt_succ _, fun h => h⟩

theorem IdleApart.exec {c : Call} {r : Int} (hs : Tables s) (h : IdleApart s Q)
    (hexec : exec s c = .ok (r, s')) : IdleApart s' (Q ∪ c.queuedTids s s') := by
  have hgrows := exec_grows hs hexec
  have hidle := hgrows.idletid
  refine ⟨by rw [hidle]; exact lt_of_lt_of_le h.known hgrows.lastTid, ?_⟩
  rintro (hQ | ⟨-, hge, -⟩)
  · exact h.unqueued (hidle ▸ hQ)
  · rw [hidle] at hge
    exact absurd h.known (not_lt.mpr hge)

/-- The calls other than `sched_pick_next` keep the order of the scan. -/
theorem TurnInv.call {c : Call} {r : Int} (hs : Tables s) (hinv : QueueInv s Q) (h : TurnInv t u s)
    (hc : c ≠ .pickNext) (hroom : c.QueueRoom s) (hexec : GalaxyOS.exec s c = .ok (r, s')) :
    TurnInv t u s' := by
  have hidle := (exec_grows hs hexec).idletid
  cases c with
  | createThread ownerpid noqueue entrypoint =>
      exact h.spawned hinv (schedCreateThread_ok hexec).2 hroom
  | forkThread tid regs =>
      rcases schedForkThread_ok hexec with ⟨rfl, -⟩ | ⟨-, pid, hspawn⟩
      · exact h
      · exact h.spawned hinv hspawn fun _ => hroom
  | loadProcess q =>
      rcases ploadCreateProcess_ok hexec with rfl | ⟨s₁, hcreate, hspawn⟩
      · exact h
      · have hinv₁ := hinv.same hcreate.sameQueue
        have h₁ := h.same hcreate.sameQueue hcreate.grows.idletid
        obtain ⟨p, mem, -, rfl⟩ := hcreate
        exact h₁.spawned hinv₁ hspawn fun _ => hroom
  | pickNext => exact absurd rfl hc
  | _ => exact h.same (exec_sameQueue hs rfl hexec) hidle

/-- What holds of a state between two selections of `t`. -/
def TurnState (t u : Int) (s : Kernel) : Prop :=
  ∃ Q, Tables s ∧ QueueInv s Q ∧ TurnInv t u s

theorem TurnState.step {c : Call} (h : TurnState t u s) (hrun : s.ThreadRuns u) (hne : u ≠ t)
    (hroom : c.QueueRoom s) (hstep : Step s c s') :
    ¬(c = .pickNext ∧ s'.currenttid = t) ∧
      (c = .pickNext ∧ s'.currenttid = u ∨ TurnState t u s') := by
  obtain ⟨Q, hs, hinv, hturn⟩ := h
  obtain ⟨r, hexec⟩ := hstep
  by_cases hc : c = .pickNext
  · subst hc
    obtain ⟨hne', hnext⟩ := hturn.pickNext hs hinv hrun hne (noResult_ok hexec)
    exact ⟨fun h => hne' h.2, hnext.imp (fun h => ⟨rfl, h⟩)
      fun h => ⟨_, hs.exec hexec, hinv.exec hs hroom hexec, h⟩⟩
  · exact ⟨fun h => hc h.1, .inr ⟨_, hs.exec hexec, hinv.exec hs hroom hexec,
      hturn.call hs hinv hc hroom hexec⟩⟩

/-- **Round robin.**  A thread that is runnable from one selection of another queued thread to the
next one is selected between them. -/
theorem round_robin {s s₁ s₂ : Kernel} {t u : Int} {cs : List (Call × Kernel)}
    (h : Reach Step (fun s c => c.QueueRoom s) Started s) (hsel : schedPickNext s = .ok s₁)
    (ht : s₁.currenttid = t) (hqueued : s₁.Queued t) (hne : u ≠ t) (hu : s₁.Runnable u)
    (hus : ∀ x ∈ cs, x.2.Runnable u)
    (hpath : Path Step (fun s c => c.QueueRoom s) s₁ (cs ++ [(.pickNext, s₂)]))
    (hnext : s₂.currenttid = t) : ∃ x ∈ cs, x.1 = .pickNext ∧ x.2.currenttid = u := by
  subst ht
  obtain ⟨st, rfl, hreach⟩ := queueStep_lift h
  have hinv : (Tables st.kernel ∧ QueueInv st.kernel st.queued) ∧ IdleApart st.kernel st.queued := by
    refine hreach.invariant (I := fun st => (Tables st.kernel ∧ QueueInv st.kernel st.queued) ∧
      IdleApart st.kernel st.queued) ?_ ?_
    · exact fun st hst => ⟨⟨.started hst.1, queueInv_start hst⟩, idleApart_start hst⟩
    · rintro st c st' ⟨⟨hs, hinv⟩, hidle⟩ hroom ⟨s', ⟨r, hexec⟩, rfl⟩
      exact ⟨⟨hs.exec hexec, hinv.exec hs hroom hexec⟩, hidle.exec hs hexec⟩
  obtain ⟨⟨hs, hinv⟩, hidle⟩ := hinv
  have hexec : exec st.kernel .pickNext = .ok (0, s₁) := by
    simp only [exec, noResult, hsel, ok_bind]
  have hinv₁ := hinv.pickNext hs hsel
  have hidle₁ : s₁.idletid ∉ st.queued := by
    rw [(exec_grows hs hexec).idletid]
    exact hidle.unqueued
  have hturn := turnInv_selected hs hinv hsel hinv₁ hidle₁ hqueued hu.queued hne
  refine hpath.before (I := TurnState s₁.currenttid u) (R := fun s => s.ThreadRuns u)
    (G := fun c s => c = .pickNext ∧ s.currenttid = u)
    (B := fun c s => c = .pickNext ∧ s.currenttid = s₁.currenttid) ?_
    ⟨_, hs.exec hexec, hinv₁, hturn⟩ hu.running (fun x hx => (hus x hx).running) ⟨rfl, hnext⟩
  exact fun s c s' hI hrun hroom hstep => hI.step hrun hne hroom hstep

theorem Kernel.Runnable.of_states {s : Kernel} {tid : Int} {st : ProcessState} (hq : s.Queued tid)
    (h : (s.threads tid).map (fun t => (t.state, (s.processes t.pid).map Process.state)) =
      some (.running, some st)) (hst : st ≠ .exiting) : s.Runnable tid := by
  obtain ⟨t, ht, hstates⟩ := Option.map_eq_some_iff.mp h
  obtain ⟨hrun, hp⟩ := Prod.mk.inj hstates
  obtain ⟨p, hp, hpst⟩ := Option.map_eq_some_iff.mp hp
  refine ⟨hq, ⟨t, ht, hrun⟩, fun t' ht' => ?_⟩
  obtain rfl := Option.some.inj (ht.symm.trans ht')
  exact ⟨p, hp, hpst ▸ hst⟩

/-- The threads 1 and 2 are queued, and the second one is running. -/
def Kernel.TwoQueued (s : Kernel) : Prop :=
  (s.queueStart = 0 ∧ s.queueEnd = 2 ∧ s.queue 0 = 1 ∧ s.queue 1 = 2) ∧
  (s.threads 2).map (fun t => (t.state, (s.processes t.pid).map Process.state)) =
    some (.running, some .starting)

instance : DecidablePred Kernel.TwoQueued := fun s => inferInstanceAs (Decidable
  ((s.queueStart = 0 ∧ s.queueEnd = 2 ∧ s.queue 0 = 1 ∧ s.queue 1 = 2) ∧
    (s.threads 2).map (fun t => (t.state, (s.processes t.pid).map Process.state)) =
      some (.running, some .starting)))

/-- Two kernel threads are created; the first picks start and select them in turn. -/
theorem twoThreads : BootRuns id execState (fun s _ => s.queueEnd + 1 < s.processesSize) (fun s =>
    OkAnd (schedPickNext s) fun s₁ => OkAnd (execState s₁ .pickNext) fun s₂ =>
    OkAnd (execState s₂ .pickNext) fun s₃ => (s₁.currenttid = 1 ∧ s₃.currenttid = 1) ∧
      s₁.TwoQueued ∧ s₂.TwoQueued)
    [.createProcess 0 [], .createThread 1 false 0, .createThread 1 false 0] := by
  decide

theorem Kernel.TwoQueued.runnable {s : Kernel} (h : s.TwoQueued) : s.Runnable 2 := by
  obtain ⟨⟨h0, hend, -, hq⟩, hst⟩ := h
  exact .of_states ⟨1, by omega, by omega, hq⟩ hst (by decide)

theorem round_robin_two : ∃ (s₁ s₂ s₃ : Kernel), s₁.currenttid = 1 ∧ s₃.currenttid = 1 ∧
    ∃ x ∈ [(Call.pickNext, s₂)], x.1 = .pickNext ∧ x.2.currenttid = 2 := by
  obtain ⟨s, hreach, hrun⟩ := twoThreads.reach (fun _ _ _ => execState_step) fun _ hs => hs
  obtain ⟨s₁, h1, hrun⟩ := hrun.exists_ok
  obtain ⟨s₂, h2, hrun⟩ := hrun.exists_ok
  obtain ⟨s₃, h3, ⟨hsel, hnext⟩, hq₁, hq₂⟩ := hrun.exists_ok
  have hrunnable := hq₁.runnable
  obtain ⟨⟨h0, hend, hq, -⟩, -⟩ := hq₁
  refine ⟨s₁, s₂, s₃, hsel, hnext, round_robin (hreach.mono ?_) h1 hsel
    ⟨0, by omega, by omega, hq⟩ (by decide) hrunnable ?_
    ⟨trivial, execState_step h2, trivial, execState_step h3, trivial⟩ hnext⟩
  · intro s c hroom
    cases c with
    | loadProcess q =>
        unfold Call.QueueRoom Kernel.growProcesses reallocIncrement
        split_ifs
        · simp only
          omega
        · exact hroom
    | createThread => exact fun _ => hroom
    | forkThread => exact hroom
    | _ => trivial
  · intro x hx
    obtain rfl := List.mem_singleton.mp hx
    exact hq₂.runnable

end GalaxyOS
