import GalaxyOS.Sched.Waiters

/-! # Exit codes

A process that has ended keeps its record, with the exit code in it, until the last thread that
waits for it has been resumed.  `sched_kill_process` does not look at the state of the process: a
kill of one that has already ended stores another exit code, and the waiters that are still there
receive that one.

`ExitState` records how every process has ended first and what every waiter has received.

`exitCodes_exact` is about the runs in which no process that still has waiters is ended once more.
`ExitInv.endProcess` and `ExitInv.resumed` are the two steps that matter, and `ExitInv.exec` all of them. -/

namespace GalaxyOS

open Transition Count

/-- The process that a call ends, if it is not refused, and the exit code. -/
def Call.target (s : Kernel) : Call → Option (Int × Int)
  | .exitProcess exitcode => s.currentps.map fun pid => (pid, exitcode)
  | .killProcess pid => do
      let p ← s.processes pid
      let cur ← s.currentps.bind s.processes
      if pid = cur.pid ∨ p.privilegeLevel < cur.privilegeLevel then none
      else some (pid, cur.pid + 255)
  | _ => none

/-- The record of the ends after one more of them: the first one counts. -/
def noteEnd (ended : Int → Option Int) : Option (Int × Int) → Int → Option Int
  | none => ended
  | some (pid, code) => if ended pid = none then Function.update ended pid (some code) else ended

/-- What a thread that waits for a process before a call and runs after it has received: the
process, if that has ended, and `eax`. -/
def receipt (ended : Int → Option Int) (t t' : Thread) : List (Int × ℕ) :=
  if t.state = .waiting ∧ t.waitMsg = none ∧ t'.state = .running ∧ ended t.wait ≠ none then
    [(t.wait, t'.frame.eax)]
  else []

/-- What every thread has received after a call from `s` to `s'`. -/
def noteReceipts (ended : Int → Option Int) (s s' : Kernel) (received : Int → List (Int × ℕ))
    (tid : Int) : List (Int × ℕ) :=
  ((s.threads tid).bind fun t => (s'.threads tid).map (receipt ended t)).getD [] ++ received tid

/-- A state with the first exit code of every process that has ended, and the processes each
thread has been resumed for with the value it received. -/
structure ExitState where
  wait : WaitState
  ended : Int → Option Int
  received : Int → List (Int × ℕ)

/-- The record after a call that has led to `w`. -/
def ExitState.next (st : ExitState) (c : Call) (w : WaitState) : ExitState :=
  ⟨w, noteEnd st.ended (c.target st.wait.kernel),
    noteReceipts st.ended st.wait.kernel w.kernel st.received⟩

/-- A call, the ends and the receipts being recorded. -/
def ExitState.exec (st : ExitState) (c : Call) : Except Fault ExitState := do
  let w ← st.wait.exec c
  .ok (st.next c w)

def ExitStep (st : ExitState) (c : Call) (st' : ExitState) : Prop := st.exec c = .ok st'

def ExitStart (st : ExitState) : Prop :=
  WaitStart st.wait ∧ (st.ended = fun _ => none) ∧ st.received = fun _ => []

/-- Every waiter has received the code of the event that ended its process first. -/
def CodesExact (st : ExitState) : Prop :=
  ∀ tid, ∀ x ∈ st.received tid, ∃ code, st.ended x.1 = some code ∧ x.2 = regOfInt code

/-- The call does not end once more, with another code, a process that has ended. -/
def Call.EndsOnce (s : Kernel) (c : Call) : Prop :=
  ∀ x, c.target s = some x → ∀ p, s.processes x.1 = some p → p.state = .exiting → p.exitcode = x.2

/-- The condition under which the code of the first end is the one that is received. -/
def Call.CodesClean (st : ExitState) (c : Call) : Prop :=
  c.WaitsClean st.wait ∧ c.EndsOnce st.wait.kernel

instance (s : Kernel) (c : Call) : Decidable (c.EndsOnce s) :=
  have : DecidablePred fun x : Int × Int => ∀ p, s.processes x.1 = some p → p.state = .exiting →
      p.exitcode = x.2 := fun x => decidableForallSome (s.processes x.1)
  decidableForallSome (c.target s)

instance : DecidableRel fun (st : ExitState) (c : Call) => c.CodesClean st := fun st c =>
  have : Decidable (c.WaitsClean st.wait) :=
    inferInstanceAs (Decidable ((fun st c => Call.WaitsClean st c) st.wait c))
  inferInstanceAs (Decidable (_ ∧ _))

/-! ### The invariant -/

variable {s s' : Kernel} {use use' : Int → WaitUse} {ended : Int → Option Int}

/-- The records of the processes that have ended hold the first exit code, and a process that a
thread waits for is still in the table. -/
structure ExitInv (s : Kernel) (use : Int → WaitUse) (ended : Int → Option Int) : Prop where
  code : ∀ pid p, s.processes pid = some p →
    ended pid = if p.state = .exiting then some p.exitcode else none
  known : ∀ pid, s.lastPid ≤ pid → ended pid = none
  present : ∀ tid pid, use tid = .pid pid → s.processes pid ≠ none

/-- The process has ended in the same way, or in neither record. -/
structure Process.SameEnd (p p' : Process) : Prop where
  exiting : p'.state = .exiting ↔ p.state = .exiting
  exitcode : p.state = .exiting → p'.exitcode = p.exitcode

theorem Process.SameEnd.refl (p : Process) : p.SameEnd p := ⟨Iff.rfl, fun _ => rfl⟩

/-- The tables hold the same processes, which have ended in the same way. -/
def SameEnds (ps ps' : Int → Option Process) : Prop :=
  ∀ pid, Option.Rel Process.SameEnd (ps pid) (ps' pid)

theorem SameEnds.refl (ps : Int → Option Process) : SameEnds ps ps := fun pid =>
  rel_refl Process.SameEnd.refl (ps pid)

theorem SameEnds.update {ps : Int → Option Process} {pid : Int} {p p' : Process}
    (hp : ps pid = some p) (h : p.SameEnd p') : SameEnds ps (Function.update ps pid (some p')) :=
  rel_update Process.SameEnd.refl hp h

theorem SameEnds.dropped (ps : Int → Option Process) (wait : Int) :
    SameEnds ps (droppedWaiter ps wait) := by
  unfold droppedWaiter
  split_ifs with h0
  · exact .refl ps
  · cases hp : ps wait with
    | none =>
        rw [Option.map_none, Function.update_eq_self_iff.mpr hp.symm]
        exact .refl ps
    | some p => exact .update hp ⟨Iff.rfl, fun _ => rfl⟩

theorem ExitInv.same (h : ExitInv s use ended) (hlast : s'.lastPid = s.lastPid)
    (hps : SameEnds s.processes s'.processes)
    (huse : ∀ tid pid, use' tid = .pid pid → use tid = .pid pid) : ExitInv s' use' ended := by
  refine ⟨?_, ?_, ?_⟩
  · intro pid p' hp'
    obtain ⟨p, hp, hend⟩ := rel_some_right (hp' ▸ hps pid)
    rw [h.code pid p hp]
    by_cases he : p.state = .exiting
    · rw [if_pos he, if_pos (hend.exiting.mpr he), hend.exitcode he]
    · rw [if_neg he, if_neg fun hc => he (hend.exiting.mp hc)]
  · rw [hlast]
    exact h.known
  · intro tid pid hu hnone
    exact h.present tid pid (huse tid pid hu) (rel_none_right (hnone ▸ hps pid))

theorem settle_pid {tid pid : Int} (h : settle s use tid = .pid pid) : use tid = .pid pid := by
  unfold settle at h
  cases ht : s.threads tid with
  | none => simp [ht] at h
  | some t =>
      cases hu : use tid with
      | none => simp [ht, hu] at h
      | irq => simp [ht, hu] at h
      | pid q =>
          simp only [ht, hu] at h
          split_ifs at h
          exact h

theorem ExitInv.created (h : ExitInv s use ended) (hc : s.Created s') : ExitInv s' use ended := by
  obtain ⟨p₀, mem, hfresh, rfl⟩ := hc
  refine ⟨?_, fun pid hpid => h.known pid (by simp only at hpid; omega), ?_⟩
  · intro pid p hp
    by_cases hi : pid = s.lastPid
    · subst hi
      obtain rfl : p₀ = p := by simpa using hp
      rw [h.known _ (le_refl _), if_neg (by simp [hfresh.state])]
    · simp only [Function.update_of_ne hi] at hp
      exact h.code pid p hp
  · intro tid pid hu
    by_cases hi : pid = s.lastPid
    · simp [hi]
    · simp only [Function.update_of_ne hi]
      exact h.present tid pid hu

theorem ExitInv.spawned {pid : Int} {noqueue : Bool} (h : ExitInv s use ended)
    (hc : s.Spawned pid noqueue s') : ExitInv s' use ended := by
  obtain ⟨-, p, t, mem, hp, -, rfl⟩ := hc
  exact h.same rfl (.update hp ⟨Iff.rfl, fun _ => rfl⟩) fun _ _ hu => hu

/-- What is left of an ended process keeps its state and its exit code. -/
theorem Process.reaped_end {p p' : Process} (h : p.reaped = some p') :
    p'.state = p.state ∧ p'.exitcode = p.exitcode := by
  unfold Process.reaped Process.dropTids at h
  split_ifs at h <;> cases h <;> exact ⟨rfl, rfl⟩

/-- Nobody waits for a process without waiting threads. -/
theorem WaitInv.nobody (hw : WaitInv s use) (hs : Tables s) {pid : Int} {p : Process}
    (hp : s.processes pid = some p) (h0 : p.waitingThreads = 0) (tid : Int) : use tid ≠ .pid pid := by
  intro hu
  obtain ⟨t, ht, -⟩ := hw.waiter tid pid hu
  have hcount := hw.count pid p hp
  have hpos : 0 < Count.count use s.lastTid (.pid pid) := count_pos.mpr ⟨tid, (hs.tid tid t ht).1, hu⟩
  omega

/-- A process ends; if it has ended before, then with the same code. -/
theorem ExitInv.endProcess {pid code : Int} {p : Process} (h : ExitInv s use ended)
    (hw : WaitInv s use) (hs : Tables s) (hp : s.processes pid = some p)
    (honce : p.state = .exiting → p.exitcode = code) (mem : Mem) :
    ExitInv (s.endProcess pid p code mem) use (noteEnd ended (some (pid, code))) := by
  have hnow : noteEnd ended (some (pid, code)) = Function.update ended pid (some code) := by
    have hcode := h.code pid p hp
    simp only [noteEnd]
    by_cases he : p.state = .exiting
    · rw [if_pos he, honce he] at hcode
      rw [if_neg (by simp [hcode]), Function.update_eq_self_iff.mpr hcode.symm]
    · rw [if_neg he] at hcode
      rw [if_pos hcode]
  rw [hnow]
  refine ⟨?_, ?_, ?_⟩
  · intro i q hq
    by_cases hi : i = pid
    · subst hi
      simp only [Kernel.endProcess, Function.update_self] at hq
      obtain ⟨hstate, hexit⟩ := Process.reaped_end hq
      have hexiting : q.state = .exiting := hstate
      rw [Function.update_self, if_pos hexiting, hexit]
      rfl
    · simp only [Kernel.endProcess, Function.update_of_ne hi] at hq
      rw [Function.update_of_ne hi]
      exact h.code i q hq
  · intro i hi
    have hrange := (hs.pid pid p hp).2
    have hlast : s.lastPid ≤ i := hi
    rw [Function.update_of_ne (by omega)]
    exact h.known i hlast
  · intro tid i hu
    by_cases hi : i = pid
    · subst hi
      simp only [Kernel.endProcess, Function.update_self, ne_eq, Process.reaped_eq_none]
      exact fun h0 => hw.nobody hs hp h0 tid hu
    · simp only [Kernel.endProcess, Function.update_of_ne hi]
      exact h.present tid i hu

/-- A waiter has been resumed; if it was the last one, the process is gone. -/
theorem ExitInv.resumed {tid : Int} {t : Thread} {p : Process} (h : ExitInv s use ended)
    (hw : WaitInv s use) (hs : Tables s) (ht : s.threads tid = some t)
    (huse : use tid = .pid t.wait) (hp : s.processes t.wait = some p) (mem : Mem) (frame : Regs) :
    ExitInv (s.resumed tid t p mem frame) (Function.update use tid .none) ended := by
  refine ⟨?_, h.known, ?_⟩
  · intro i q hq
    by_cases hi : i = t.wait
    · subst hi
      simp only [Kernel.resumed, Function.update_self] at hq
      obtain ⟨hstate, hexit⟩ := Process.reaped_end hq
      rw [hstate, hexit]
      exact h.code _ p hp
    · simp only [Kernel.resumed, Function.update_of_ne hi] at hq
      exact h.code i q hq
  · intro j i hu
    have hj : j ≠ tid := by
      rintro rfl
      rw [Function.update_self] at hu
      cases hu
    rw [Function.update_of_ne hj] at hu
    by_cases hi : i = t.wait
    · subst hi
      simp only [Kernel.resumed, Function.update_self, ne_eq, Process.reaped_eq_none]
      intro h0
      -- the thread that has been resumed and `j` are two waiters
      have hcount := hw.count _ p hp
      have hupdate := count_update (f := use) (k := .pid t.wait) (hs.tid tid t ht).1 .none
      obtain ⟨tj, htj, -⟩ := hw.waiter j _ hu
      have hpos : 0 < Count.count (Function.update use tid .none) s.lastTid (.pid t.wait) :=
        count_pos.mpr ⟨j, (hs.tid j tj htj).1, by rw [Function.update_of_ne hj, hu]⟩
      rw [if_pos huse, if_neg (by simp)] at hupdate
      omega
    · simp only [Kernel.resumed, Function.update_of_ne hi]
      exact h.present j i hu

theorem ExitInv.waited {pid : Int} {t : Thread} {p : Process} (h : ExitInv s use ended)
    (hp : s.processes pid = some p) :
    ExitInv (s.waited pid t p) (Function.update use s.currenttid (.pid pid)) ended := by
  have hps : SameEnds s.processes (s.waited pid t p).processes := .update hp ⟨Iff.rfl, fun _ => rfl⟩
  have hsame : ExitInv (s.waited pid t p) use ended := h.same rfl hps fun _ _ hu => hu
  refine ⟨hsame.code, hsame.known, fun tid i hu => ?_⟩
  by_cases hi : tid = s.currenttid
  · subst hi
    rw [Function.update_self] at hu
    obtain rfl : pid = i := by cases hu; rfl
    simp [Kernel.waited]
  · rw [Function.update_of_ne hi] at hu
    exact hsame.present tid i hu

/-! ### Rounds of the scheduler -/

theorem ExitInv.effect {tid : Int} {t : Thread} (h : ExitInv s use ended) (hw : WaitInv s use)
    (hs : Tables s) (ht : s.threads tid = some t) (heff : PickEffect s tid t s')
    (hlive : t.state ≠ .dead → ∃ p, s.processes t.pid = some p ∧ p.state ≠ .exiting) :
    ExitInv s' (settle s' use) ended := by
  cases heff with
  | select | skip | message | stale | start | exit =>
      exact h.same rfl (.refl s.processes) fun _ _ => settle_pid
  | resume p mem frame hstate hmsg hrange hp hno =>
      have hset := h.resumed hw hs ht (hw.waiting tid t ht hstate hmsg) hp mem frame
      refine hset.same rfl (.refl _) fun i pid hu => ?_
      have hi : i ≠ tid := by
        rintro rfl
        have hrun : settle (s.resumed i t p mem frame) use i = .none :=
          settle_running (Function.update_self ..) rfl
            (by rw [hw.waiting i t ht hstate hmsg]; exact fun hc => by cases hc)
        rw [hrun] at hu
        cases hu
      rw [Function.update_of_ne hi]
      exact settle_pid hu
  | load p p' t' mem kmode hstate hp hl hl' =>
      obtain ⟨q, hq, hne⟩ := hlive (by simp [hstate])
      obtain rfl := Option.some.inj (hp.symm.trans hq)
      exact h.same rfl (.update hp ⟨hl.exiting, fun he => absurd he hne⟩) fun _ _ => settle_pid
  | dead hstate hwait hq =>
      exact h.same rfl (.dropped s.processes t.wait) fun _ _ => settle_pid

/-- Every thread that waited for a process in `s₀` still does, or it runs and holds the code of the
process if that has ended. -/
def Delivered (ended : Int → Option Int) (s₀ s : Kernel) : Prop :=
  ∀ tid t₀ t, s₀.threads tid = some t₀ → s.threads tid = some t → t₀.state = .waiting →
    t₀.waitMsg = none → (t.state = .waiting ∧ t.waitMsg = none ∧ t.wait = t₀.wait) ∨
      t.state = .running ∧ ∀ code, ended t₀.wait = some code → t.frame.eax = regOfInt code

theorem Delivered.dispatch {s₀ : Kernel} {tid : Int} (hd : Delivered ended s₀ s)
    (h : ExitInv s use ended) (hw : WaitInv s use) (hdisp : pickDispatch s tid = .ok s') :
    Delivered ended s₀ s' := by
  obtain ⟨t, ht, -, heff⟩ := pickDispatch_ok hdisp
  intro i t₀ t' ht₀ ht' hstate₀ hmsg₀
  by_cases hi : i = tid
  · subst hi
    rcases hd i t₀ t ht₀ ht hstate₀ hmsg₀ with ⟨hstate, hmsg, hwait⟩ | ⟨hrun, hcode⟩
    · have huse := hw.waiting i t ht hstate hmsg
      obtain ⟨t₁, ht₁, -, -, hrange, -⟩ := hw.waiter i _ huse
      obtain ⟨p, hp⟩ := Option.ne_none_iff_exists'.mp (h.present i _ huse)
      rcases pickDispatch_waiting ht hstate hmsg hrange hp hdisp with rfl | ⟨-, mem, rfl⟩
      · obtain rfl := Option.some.inj (ht.symm.trans ht')
        exact .inl ⟨hstate, hmsg, hwait⟩
      · simp only [Kernel.resumed, Function.update_self, Option.some.injEq] at ht'
        subst ht'
        refine .inr ⟨rfl, fun code hended => ?_⟩
        have hpcode := h.code _ p hp
        rw [hwait, hended] at hpcode
        split_ifs at hpcode with he
        rw [Option.some.inj hpcode]
    · rw [(heff.selected hrun).2, ht] at ht'
      obtain rfl := Option.some.inj ht'
      exact .inr ⟨hrun, hcode⟩
  · rw [heff.other hi] at ht'
    exact hd i t₀ t' ht₀ ht' hstate₀ hmsg₀

/-- What holds of the rounds of a call that begins in `s₀`. -/
def CodesRound (use : Int → WaitUse) (ended : Int → Option Int) (s₀ s : Kernel) : Prop :=
  RoundInv use s ∧ ExitInv s (settle s use) ended ∧ Delivered ended s₀ s

theorem CodesRound.start (hs : Tables s) (hw : WaitInv s use) (h : ExitInv s use ended) :
    CodesRound use ended s { s with currenttid := -1 } := by
  refine ⟨.start hs hw, h.same rfl (.refl s.processes) fun _ _ => settle_pid, ?_⟩
  intro tid t₀ t ht₀ ht hstate hmsg
  obtain rfl := Option.some.inj (ht₀.symm.trans ht)
  exact .inl ⟨hstate, hmsg, rfl⟩

theorem CodesRound.round {s₀ s₂ : Kernel} {loop : Bool} (h : CodesRound use ended s₀ s)
    (hclean : RemovalClean use (s, loop))
    (hd : pickDispatch (pickFetch s loop).2.1 (pickFetch s loop).1 = .ok s₂) :
    CodesRound use ended s₀ s₂ := by
  obtain ⟨hround, hexit, hdel⟩ := h
  refine ⟨hround.round hclean hd, ?_⟩
  obtain ⟨t, ht, hlive, heff⟩ := pickDispatch_ok hd
  have hs₁ := hround.1.keeps (pickFetch_keeps s loop)
  obtain ⟨l, hl⟩ := pickFetch_eq s loop
  rw [hl] at ht hlive heff hs₁ hd
  have hw : WaitInv { s with queueLoc := l } (settle { s with queueLoc := l } use) :=
    hround.2.same ⟨rfl, rfl, sameCounts_refl s.processes, sameWaits_threads s⟩
  have hexit₁ : ExitInv { s with queueLoc := l } (settle { s with queueLoc := l } use) ended :=
    hexit.same rfl (.refl s.processes) fun _ _ hu => hu
  have hdel₁ : Delivered ended s₀ { s with queueLoc := l } := hdel
  refine ⟨?_, hdel₁.dispatch hexit₁ hw hd⟩
  rw [← heff.settled ht use]
  exact hexit₁.effect hw hs₁ ht heff hlive

/-! ### The calls -/

/-- A kill that is not refused ends its target. -/
theorem schedKillProcess_target {pid r : Int} (hs : Tables s)
    (h : schedKillProcess s pid = .ok (r, s')) :
    s' = s ∧ (Call.killProcess pid).target s = none ∨ ∃ p code mem, s.processes pid = some p ∧
      (Call.killProcess pid).target s = some (pid, code) ∧ s' = s.endProcess pid p code mem := by
  unfold schedKillProcess at h
  split_ifs at h with hr
  · have hp : s.processes pid = none := by
      by_contra hne
      obtain ⟨p, hp⟩ := Option.ne_none_iff_exists'.mp hne
      have := (hs.pid pid p hp).2
      omega
    simp only [Except.ok.injEq, Prod.mk.injEq] at h
    exact .inl ⟨h.2.symm, by simp [Call.target, hp]⟩
  · cases hp : s.processes pid with
    | none =>
        simp only [hp, Except.ok.injEq, Prod.mk.injEq] at h
        exact .inl ⟨h.2.symm, by simp [Call.target, hp]⟩
    | some p =>
        simp only [hp, bind_ok, Kernel.currentProcess_ok] at h
        obtain ⟨cur, ⟨q, hq, hcur⟩, h⟩ := h
        split_ifs at h with h1 h2
        · simp only [Except.ok.injEq, Prod.mk.injEq] at h
          exact .inl ⟨h.2.symm, by simp [Call.target, hq, hcur, h1]⟩
        · simp only [Except.ok.injEq, Prod.mk.injEq] at h
          exact .inl ⟨h.2.symm, by simp [Call.target, hp, hq, hcur, h2]⟩
        · simp only [bind_ok, Except.ok.injEq, Prod.mk.injEq] at h
          obtain ⟨s₂, hreap, -, rfl⟩ := h
          obtain ⟨mem, hmem⟩ := reap_exiting_ok (by omega) hreap
          refine .inr ⟨p, cur.pid + 255, mem, rfl, ?_, hmem⟩
          simp [Call.target, hp, hq, hcur, h1, h2]

/-- The record of the waits after a call; only `sched_wait_process` adds a waiter. -/
theorem noteWait_pid {c : Call} {r tid pid : Int} (h : settle s' (c.noteWait r s use) tid = .pid pid)
    (hc : ∀ q, c ≠ .waitProcess q) : use tid = .pid pid := by
  have hnote := settle_pid h
  cases c with
  | waitProcess q => exact absurd rfl (hc q)
  | suspendThread irq i =>
      simp only [Call.noteWait] at hnote
      by_cases hi : tid = i
      · subst hi
        rw [Function.update_self] at hnote
        split_ifs at hnote
      · rwa [Function.update_of_ne hi] at hnote
  | interfaceWait name i =>
      simp only [Call.noteWait] at hnote
      split_ifs at hnote
      · by_cases hi : tid = i
        · subst hi
          rw [Function.update_self] at hnote
          cases hnote
        · rwa [Function.update_of_ne hi] at hnote
      · exact hnote
  | _ => exact hnote

theorem Process.SameEnd.quietRel : QuietRel Process.SameEnd := by
  refine ⟨.refl, fun h => ?_, fun _ _ => ⟨Iff.rfl, fun _ => rfl⟩⟩
  obtain ⟨brk, pgbrk, brkOffset, rfl⟩ := schedSetbrkTrue_eq h
  exact ⟨Iff.rfl, fun _ => rfl⟩

theorem ExitInv.exec {c : Call} {r : Int} (hs : Tables s) (hw : WaitInv s use)
    (h : ExitInv s use ended) (hclean : c.RemovalsClean s use) (honce : c.EndsOnce s)
    (hexec : exec s c = .ok (r, s')) :
    ExitInv s' (settle s' (c.noteWait r s use)) (noteEnd ended (c.target s)) := by
  have hsame : s'.lastPid = s.lastPid → SameEnds s.processes s'.processes →
      (∀ q, c ≠ .waitProcess q) → c.target s = none →
      ExitInv s' (settle s' (c.noteWait r s use)) (noteEnd ended (c.target s)) := by
    intro hlast hps hc ht
    rw [ht]
    exact h.same hlast hps fun _ _ hu => noteWait_pid hu hc
  cases c with
  | createProcess privilege name =>
      exact (h.created (schedCreateProcess_ok hexec).2).same rfl (.refl _) fun _ _ => settle_pid
  | createThread ownerpid noqueue entrypoint =>
      exact (h.spawned (schedCreateThread_ok hexec).2).same rfl (.refl _) fun _ _ => settle_pid
  | forkThread tid regs =>
      rcases schedForkThread_ok hexec with ⟨rfl, -⟩ | ⟨-, pid, hspawn⟩
      · exact hsame rfl (.refl _) (fun _ hc => by cases hc) rfl
      · exact (h.spawned hspawn).same rfl (.refl _) fun _ _ => settle_pid
  | loadProcess q =>
      rcases ploadCreateProcess_ok hexec with rfl | ⟨s₁, hcreate, hspawn⟩
      · exact hsame rfl (.refl _) (fun _ hc => by cases hc) rfl
      · exact ((h.created hcreate).spawned hspawn).same rfl (.refl _) fun _ _ => settle_pid
  | exitThread =>
      obtain ⟨t, ht, rfl⟩ := schedExitThread_ok (noResult_ok hexec)
      exact hsame rfl (.refl _) (fun _ hc => by cases hc) rfl
  | exitProcess exitcode =>
      obtain ⟨pid, p, mem, hcur, hp, rfl⟩ := schedExitProcess_current hs hexec
      have ht : (Call.exitProcess exitcode).target s = some (pid, exitcode) := by
        simp [Call.target, hcur]
      rw [ht]
      exact (h.endProcess hw hs hp (honce _ ht p hp) mem).same rfl (.refl _) fun _ _ => settle_pid
  | killProcess pid =>
      rcases schedKillProcess_target hs hexec with ⟨rfl, ht⟩ | ⟨p, code, mem, hp, ht, rfl⟩
      · exact hsame rfl (.refl _) (fun _ hc => by cases hc) ht
      · rw [ht]
        exact (h.endProcess hw hs hp (honce _ ht p hp) mem).same rfl (.refl _)
          fun _ _ => settle_pid
  | suspendThread irq tid =>
      obtain ⟨t, ht, rfl⟩ := schedSuspendThread_ok (noResult_ok hexec)
      exact hsame rfl (.refl _) (fun _ hc => by cases hc) rfl
  | checkSuspended irq =>
      obtain rfl : schedCheckSuspendedThreads s irq = s' := (exec_pair hexec).2
      exact hsame rfl (.refl _) (fun _ hc => by cases hc) rfl
  | waitProcess pid =>
      rcases schedWaitProcess_ok hexec with ⟨rfl, hr⟩ | ⟨rfl, t, p, hrange, hp, ht, rfl⟩
      · simp only [Call.noteWait, if_neg (Int.ne_of_lt hr)]
        exact h.same rfl (.refl _) fun _ _ => settle_pid
      · exact (h.waited hp).same rfl (.refl _) fun _ _ => settle_pid
  | pickNext =>
      exact (schedPickNext_inv (I := CodesRound use ended s) (.start hs hw h)
        (fun _ _ _ hI hC hd => hI.round hC hd) hclean (noResult_ok hexec)).2.1
  | interfaceDelete name pid =>
      obtain rfl := (exec_pair hexec).2
      rcases interfaceDelete_eq s name pid with hd | ⟨addr, intfaces, hd⟩
      · rw [hd] at hsame ⊢
        exact hsame rfl (.refl _) (fun _ hc => by cases hc) rfl
      · rw [hd] at hsame ⊢
        exact hsame rfl (.refl _) (fun _ hc => by cases hc) rfl
  | interfaceWait name tid =>
      rcases interfaceWait_ok hexec with ⟨rfl, -⟩ | ⟨-, t, addr, ht, rfl⟩
      · exact hsame rfl (.refl _) (fun _ hc => by cases hc) rfl
      · exact hsame rfl (.refl _) (fun _ hc => by cases hc) rfl
  | _ =>
      obtain ⟨mem, processes, intfaces, size, next, hps, rfl⟩ :=
        exec_quietBy Process.SameEnd.quietRel hs rfl hexec
      exact hsame rfl hps (fun _ hc => by cases hc) rfl

/-- A thread that waits for a process is not running afterwards. -/
def Thread.StillWaits (t t' : Thread) : Prop :=
  t.state = .waiting → t.waitMsg = none → t'.state ≠ .running

theorem Thread.StillWaits.refl (t : Thread) : t.StillWaits t := fun hstate _ hrun => by
  rw [hstate] at hrun
  cases hrun

/-- The waiters of `s` that are left in `s'` still wait, or they have been ended. -/
def Kernel.StillWaits (s s' : Kernel) : Prop :=
  ∀ tid t t', s.threads tid = some t → s'.threads tid = some t' → t.StillWaits t'

theorem Kernel.StillWaits.of_carried (h : Carried Thread.StillWaits s.threads s'.threads) :
    s.StillWaits s' := by
  intro tid t t' ht ht'
  obtain ⟨t₁, ht₁, hw⟩ := h tid t' ht'
  obtain rfl := Option.some.inj (ht.symm.trans ht₁)
  exact hw

theorem stillWaits_set {tid : Int} {t t' : Thread} {ts : Int → Option Thread} (ht : ts tid = some t)
    (h : t'.state ≠ .running) : Carried Thread.StillWaits ts (Function.update ts tid (some t')) :=
  Carried.update .refl ht fun t'' ht'' _ _ => by
    obtain rfl := Option.some.inj ht''
    exact h

theorem Kernel.Spawned.stillWaits {pid : Int} {noqueue : Bool} (hs : Tables s)
    (h : s.Spawned pid noqueue s') : s.StillWaits s' := by
  obtain ⟨-, p, t₀, mem, hp, -, rfl⟩ := h
  intro tid t t' ht ht'
  have hne : tid ≠ s.lastTid := by
    rintro rfl
    rw [hs.fresh_tid] at ht
    cases ht
  simp only [Function.update_of_ne hne] at ht'
  obtain rfl := Option.some.inj (ht.symm.trans ht')
  exact .refl t

theorem Kernel.endProcess_stillWaits (s : Kernel) (pid : Int) (p : Process) (exitcode : Int)
    (mem : Mem) : s.StillWaits (s.endProcess pid p exitcode mem) :=
  .of_carried (Carried.mapSome Thread.StillWaits.refl (fun _ _ _ hrun => by cases hrun)
    (· ∈ p.tids) s.threads)

/-- Only `sched_pick_next` resumes a thread that waits for a process. -/
theorem exec_stillWaits {c : Call} {r : Int} (hs : Tables s) (hc : c ≠ .pickNext)
    (hexec : exec s c = .ok (r, s')) : s.StillWaits s' := by
  have hsame : ∀ {s' : Kernel}, s'.threads = s.threads → s.StillWaits s' := fun heq =>
    .of_carried (heq ▸ Carried.refl Thread.StillWaits.refl s.threads)
  cases c with
  | createProcess privilege name =>
      obtain ⟨-, p, mem, -, rfl⟩ := schedCreateProcess_ok hexec
      exact hsame rfl
  | createThread ownerpid noqueue entrypoint => exact (schedCreateThread_ok hexec).2.stillWaits hs
  | forkThread tid regs =>
      rcases schedForkThread_ok hexec with ⟨rfl, -⟩ | ⟨-, pid, hspawn⟩
      · exact hsame rfl
      · exact hspawn.stillWaits hs
  | loadProcess q =>
      rcases ploadCreateProcess_ok hexec with rfl | ⟨s₁, hcreate, hspawn⟩
      · exact hsame rfl
      · have hs₁ := hs.created hcreate
        obtain ⟨p, mem, -, rfl⟩ := hcreate
        have hspawned := hspawn.stillWaits hs₁
        exact hspawned
  | exitThread =>
      obtain ⟨t, ht, rfl⟩ := schedExitThread_ok (noResult_ok hexec)
      exact .of_carried (stillWaits_set ht (by simp))
  | exitProcess exitcode =>
      obtain ⟨pid, p, mem, hp, rfl⟩ := schedExitProcess_ok hs hexec
      exact s.endProcess_stillWaits pid p exitcode mem
  | killProcess pid =>
      rcases schedKillProcess_ok hexec with rfl | ⟨p, exitcode, mem, hp, rfl⟩
      · exact hsame rfl
      · exact s.endProcess_stillWaits pid p exitcode mem
  | suspendThread irq tid =>
      obtain ⟨t, ht, rfl⟩ := schedSuspendThread_ok (noResult_ok hexec)
      exact .of_carried (stillWaits_set ht (by simp))
  | checkSuspended irq =>
      obtain rfl : schedCheckSuspendedThreads s irq = s' := (exec_pair hexec).2
      refine .of_carried (.map (fun t => ?_) s.threads)
      unfold Thread.wake
      split_ifs with hw
      · exact fun hstate => by rw [hw.1] at hstate; cases hstate
      · exact .refl t
  | waitProcess pid =>
      rcases schedWaitProcess_ok hexec with ⟨rfl, -⟩ | ⟨-, t, p, -, hp, ht, rfl⟩
      · exact hsame rfl
      · exact .of_carried (stillWaits_set ht (by simp))
  | pickNext => exact absurd rfl hc
  | interfaceDelete name pid =>
      obtain rfl := (exec_pair hexec).2
      rcases interfaceDelete_eq s name pid with hd | ⟨addr, intfaces, hd⟩
      · rw [hd]
        exact hsame rfl
      · rw [hd]
        refine .of_carried (.map (fun t => ?_) s.threads)
        unfold Thread.unwait
        split_ifs with hw
        · exact fun _ hmsg => by rw [hw.2] at hmsg; cases hmsg
        · exact .refl t
  | interfaceWait name tid =>
      rcases interfaceWait_ok hexec with ⟨rfl, -⟩ | ⟨-, t, addr, ht, rfl⟩
      · exact hsame rfl
      · exact .of_carried (stillWaits_set ht (by simp))
  | _ =>
      obtain ⟨mem, processes, intfaces, size, next, -, rfl⟩ := exec_quiet hs rfl hexec
      exact hsame rfl

/-! ### Runs -/

/-- The invariant of the runs. -/
structure ExitState.Sound (st : ExitState) : Prop where
  tables : Tables st.wait.kernel
  waits : WaitInv st.wait.kernel st.wait.use
  exits : ExitInv st.wait.kernel st.wait.use st.ended
  received : CodesExact st

/-- What a call has handed out are the codes of the processes that have ended. -/
theorem exec_delivered {c : Call} {r : Int} (hs : Tables s) (hw : WaitInv s use)
    (h : ExitInv s use ended) (hclean : c.RemovalsClean s use) (hexec : exec s c = .ok (r, s'))
    {tid : Int} {t t' : Thread} (ht : s.threads tid = some t) (ht' : s'.threads tid = some t')
    (hstate : t.state = .waiting) (hmsg : t.waitMsg = none) (hrun : t'.state = .running) (code : Int)
    (hended : ended t.wait = some code) : t'.frame.eax = regOfInt code := by
  by_cases hc : c = .pickNext
  · subst hc
    have hround := schedPickNext_inv (I := CodesRound use ended s) (.start hs hw h)
      (fun _ _ _ hI hC hd => hI.round hC hd) hclean (noResult_ok hexec)
    rcases hround.2.2 tid t t' ht ht' hstate hmsg with ⟨hwaits, -⟩ | ⟨-, hcode⟩
    · rw [hrun] at hwaits
      cases hwaits
    · exact hcode code hended
  · exact absurd hrun (exec_stillWaits hs hc hexec tid t t' ht ht' hstate hmsg)

/-- The first end of a process stays on record. -/
theorem noteEnd_of_some {o : Option (Int × Int)} {pid code : Int} (h : ended pid = some code) :
    noteEnd ended o pid = some code := by
  cases o with
  | none => exact h
  | some x =>
      simp only [noteEnd]
      split_ifs with hx
      · have hne : pid ≠ x.1 := by
          rintro rfl
          rw [hx] at h
          cases h
        rw [Function.update_of_ne hne, h]
      · exact h

theorem ExitState.Sound.step {st st' : ExitState} {c : Call} (h : st.Sound) (hok : c.CodesClean st)
    (hstep : ExitStep st c st') : st'.Sound := by
  simp only [ExitStep, ExitState.exec, bind_ok, Except.ok.injEq] at hstep
  obtain ⟨w, hwait, rfl⟩ := hstep
  obtain ⟨r, s', hexec, rfl⟩ := WaitStep.exists_exec hwait
  obtain ⟨⟨hrun, hclean⟩, honce⟩ := hok
  refine ⟨h.tables.exec hexec, h.waits.exec h.tables hrun hclean hexec,
    h.exits.exec h.tables h.waits hclean honce hexec, ?_⟩
  intro tid x hx
  rcases List.mem_append.mp hx with hnew | hold
  · cases ht : st.wait.kernel.threads tid with
    | none => simp [ht] at hnew
    | some t =>
        cases ht' : (st.wait.next c r s').kernel.threads tid with
        | none => simp [ht, ht'] at hnew
        | some t' =>
            simp only [ht, ht', Option.bind_some, Option.map_some, Option.getD_some, receipt] at hnew
            split_ifs at hnew with hcond
            · obtain ⟨hstate, hmsg, hrunning, hended⟩ := hcond
              obtain rfl := List.mem_singleton.mp hnew
              obtain ⟨code, hcode⟩ := Option.ne_none_iff_exists'.mp hended
              exact ⟨code, noteEnd_of_some hcode, exec_delivered h.tables h.waits h.exits hclean hexec
                ht ht' hstate hmsg hrunning code hcode⟩
            · cases hnew
  · obtain ⟨code, hcode, heq⟩ := h.received tid x hold
    exact ⟨code, noteEnd_of_some hcode, heq⟩

theorem ExitInv.started {s : Kernel} (h : Started s) : ExitInv s (fun _ => .none) fun _ => none := by
  obtain ⟨mem, eflags, idleLoop, h⟩ := h
  simp only [schedInit, bind_ok, Prod.exists, Except.ok.injEq] at h
  obtain ⟨pid, s₁, hcreate, tid, s₂, hthread, rfl⟩ := h
  have h0 : ExitInv (Kernel.boot mem eflags) (fun _ => .none) fun _ => none :=
    ⟨fun _ _ h => by simp [Kernel.boot] at h, fun _ _ => rfl, fun _ _ h => by simp at h⟩
  have h2 := (h0.created (schedCreateProcess_ok hcreate).2).spawned (schedCreateThread_ok hthread).2
  exact h2.same rfl (.refl _) fun _ _ hu => hu

/-- **Waiters see how the process has ended first**, as long as no call ends a process once more
with another code and the removals are clean. -/
theorem exitCodes_exact {st : ExitState}
    (h : Reach ExitStep (fun st c => c.CodesClean st) ExitStart st) : CodesExact st := by
  have hsound : st.Sound := by
    refine h.invariant (I := ExitState.Sound) ?_ fun st c st' hI hok hstep => hI.step hok hstep
    rintro ⟨⟨s, use⟩, ended, received⟩ ⟨⟨hst, rfl⟩, rfl, rfl⟩
    exact ⟨.started hst, .started hst, .started hst, fun _ _ hx => by cases hx⟩
  exact hsound.received

/-- The record before the first call. -/
def ExitState.start (s : Kernel) : ExitState := ⟨.start s, fun _ => none, fun _ => []⟩

theorem ExitState.bootRuns_reach {ok : ExitState → Call → Prop} {P : ExitState → Prop}
    {cs : List Call} (h : BootRuns ExitState.start ExitState.exec ok P cs) :
    ∃ st, Reach ExitStep ok ExitStart st ∧ P st :=
  h.reach (fun _ _ _ h => h) fun _ hs => ⟨⟨hs, rfl⟩, rfl, rfl⟩

/-- The threads 2 and 3 wait for process 1, which exits with code 7; thread 2 is resumed. -/
def twoWaiters : List Call :=
  [.createProcess 0 [], .createThread 1 false 0, .createProcess 0 [], .createThread 2 false 0,
    .createProcess 0 [], .createThread 3 false 0, .pickNext, .pickNext, .waitProcess 1, .pickNext,
    .waitProcess 1, .pickNext, .exitProcess 7, .pickNext]

theorem exitCodes_exact_two : ∃ st : ExitState,
    (st.received 2 = [(1, 7)] ∧ st.received 3 = [(1, 7)]) ∧ CodesExact st := by
  have hrun : BootRuns ExitState.start ExitState.exec (fun st c => c.CodesClean st)
      (fun st => st.received 2 = [(1, 7)] ∧ st.received 3 = [(1, 7)])
      (twoWaiters ++ [.pickNext]) := by decide +kernel
  obtain ⟨st, hst, hrec⟩ := ExitState.bootRuns_reach hrun
  exact ⟨st, hrec, exitCodes_exact hst⟩

/-- Thread 2 then kills process 1 once more: thread 3 receives the code of that kill. -/
theorem exitCodes_changed : ∃ st,
    Reach ExitStep (fun st c => c.OnRunning st.wait.kernel) ExitStart st ∧ ¬CodesExact st := by
  have hrun : BootRuns ExitState.start ExitState.exec (fun st c => c.OnRunning st.wait.kernel)
      (fun st => st.received 3 = [(1, 257)] ∧ st.ended 1 = some 7)
      (twoWaiters ++ [.killProcess 1, .pickNext]) := by decide +kernel
  obtain ⟨st, hst, hrec, hended⟩ := ExitState.bootRuns_reach hrun
  refine ⟨st, hst, fun hexact => ?_⟩
  obtain ⟨code, hcode, heq⟩ := hexact 3 (1, 257) (by simp [hrec])
  obtain rfl : 7 = code := Option.some.inj (hended.symm.trans hcode)
  exact absurd heq (by decide)

end GalaxyOS
