import GalaxyOS.Syscall.Table

/-! # System calls and kernel memory

No system call accesses kernel memory through an address that the user has given.  Most handlers reach
user memory through `safecpy.c` only; those that compute addresses (the elements of a vector, the
place behind a part of a string, the slots of a list of pids) use each address only after the one
before it could be accessed, so that no sum wraps.  `Lifts` relates the handlers that record their
accesses to the functions that do not.

`syscalls_touch_user` says so of every call in every state that a run of the machine reaches.  It is put
together from one lemma for each handler, by the rules of `Access`. -/

namespace GalaxyOS

open Transition

variable {ι δ : Type}

/-! ### Handlers that use `safecpy.c` only -/

/-- The computation touches user memory only, and no sum wraps. -/
abbrev Safe {α : Type} (x : UserM α) : Prop := UserSafe (fun _ => True) x

namespace Safe

variable {α β : Type}

theorem pure (a : α) : Safe (Pure.pure a : UserM α) := UserSafe.pure trivial

theorem bind {x : UserM α} {f : α → UserM β} (hx : Safe x) (hf : ∀ a, Safe (f a)) : Safe (x >>= f) :=
  UserSafe.bind hx fun a _ => hf a

theorem ite {c : Prop} [Decidable c] {x y : UserM α} (hx : Safe x) (hy : Safe y) :
    Safe (if c then x else y) :=
  UserSafe.ite (fun _ => hx) fun _ => hy

theorem kernel (x : Except Fault α) : Safe (UserM.kernel x) := UserSafe.kernel fun _ _ => trivial

theorem user {f : UserMem → α × UserMem} (h : ∀ um, TouchesUser um (f um).2) : Safe (UserM.user f) :=
  UserSafe.user fun um => ⟨h um, trivial⟩

theorem fromUser (src size : ℕ) : Safe (UserM.user fun um => safecpyFromUser um src size) :=
  user fun um => touchesUser_fromUser um src size

theorem kstrdup (uptr : UInt32) (maxlen : ℕ) : Safe (UserM.kstrdup uptr maxlen) :=
  UserSafe.kstrdup uptr.toNat maxlen

theorem ret (st : CallState ι δ) (r : Regs) (value : Int) : Safe (st.ret r value) := pure _

theorem kernelCall (st : CallState ι δ) (r : Regs) (x : Except Fault (Int × Kernel)) :
    Safe (st.kernelCall r x) :=
  (kernel x).bind fun _ => ret _ _ _

theorem filesCall (st : CallState ι δ) (r : Regs) (x : Except Fault (Int × FileLayer ι δ)) :
    Safe (st.filesCall r x) :=
  (kernel x).bind fun _ => ret _ _ _

end Safe

theorem touchesUser_readCopy (um : UserMem) (buf count : ℕ) (retval : Int) (newbuf : List UInt8) :
    TouchesUser um (readCopy um buf count retval newbuf).2 := by
  unfold readCopy
  generalize (if retval > 0 then min retval.toNat count else 0) = copycount
  by_cases hnone : copycount = 0
  · rw [if_pos hnone]
    exact .refl um
  · rw [if_neg hnone]
    have hcopy := touchesUser_toUser um buf (newbuf.take copycount)
    cases hrun : safecpyToUser um buf (newbuf.take copycount) with
    | mk rval um' =>
        rw [hrun] at hcopy
        simp only
        split_ifs
        · exact hcopy
        · exact hcopy

theorem touchesUser_readStdin {s s' : SystemState ι δ} {um um' : UserMem} {buf count : ℕ} {value : Int}
    (h : readStdin s um buf count = .ok (value, um', s')) : TouchesUser um um' := by
  unfold readStdin at h
  split_ifs at h with hwritable
  · obtain ⟨-, hrest⟩ := Prod.mk.inj (Except.ok.inj h)
    obtain ⟨rfl, -⟩ := Prod.mk.inj hrest
    exact .refl um
  · simp only [bind_ok, Except.ok.injEq, Prod.mk.injEq] at h
    obtain ⟨-, -, kernel, -, -, rfl, -⟩ := h
    exact touchesUser_readCopy um _ _ _ _

theorem touchesUser_read {s s' : SystemState ι δ} {um um' : UserMem} {args : SyscallArgs}
    {junk : ℕ → UInt8} {value : Int} (h : syscallRead s um args junk = .ok (value, um', s')) :
    TouchesUser um um' := by
  have hrefl : ∀ {v : Int}, (.ok (v, um, s) : Except Fault (Int × UserMem × SystemState ι δ)) =
      .ok (value, um', s') → TouchesUser um um' := by
    intro v hok
    obtain ⟨-, hrest⟩ := Prod.mk.inj (Except.ok.inj hok)
    obtain ⟨rfl, -⟩ := Prod.mk.inj hrest
    exact .refl um
  unfold syscallRead at h
  simp only at h
  split_ifs at h with h0 hbuf hin hout
  · exact hrefl h
  · exact hrefl h
  · exact touchesUser_readStdin h
  · exact hrefl h
  · simp only [bind_ok, Prod.exists, Except.ok.injEq, Prod.mk.injEq] at h
    obtain ⟨retval, newbuf, files, -, -, rfl, -⟩ := h
    exact touchesUser_readCopy um _ _ _ _

theorem touchesUser_getver (gitBranch : CString) (um : UserMem) (args : SyscallArgs) :
    TouchesUser um (syscallGetver gitBranch um args).2 := by
  unfold syscallGetver
  simp only
  split_ifs <;> exact touchesUser_toUser um _ _

theorem touchesUser_getcwd (pwd : Option CString) (um : UserMem) (args : SyscallArgs) :
    TouchesUser um (syscallGetcwd pwd um args).2 := by
  unfold syscallGetcwd
  cases pwd with
  | none => exact .refl um
  | some pwd =>
      simp only
      split_ifs <;> exact touchesUser_toUser um _ _

theorem touchesUser_kstrdup (um : UserMem) (uptr maxlen : ℕ) :
    TouchesUser um (kstrdupUser um uptr maxlen).2 :=
  ((UserSafe.kstrdup uptr maxlen) ⟨um, false⟩).1.user

theorem touchesUser_list (fs : Vfs ι) (um : UserMem) (args : SyscallArgs) :
    TouchesUser um (syscallList fs um args).2 := by
  have hpath := touchesUser_kstrdup um (args 0).toNat maxPathLen
  unfold syscallList
  cases hdup : kstrdupUser um (args 0).toNat maxPathLen with
  | mk path um₁ =>
      rw [hdup] at hpath
      cases path with
      | error err => exact hpath
      | ok path =>
          simp only
          split
          · exact hpath
          · split_ifs
            · exact hpath
            · exact hpath
            · exact hpath.trans (touchesUser_toUser um₁ _ _)
            · exact hpath.trans (touchesUser_toUser um₁ _ _)

theorem touchesUser_send (s : Kernel) (um : UserMem) (name : CString) (senderpid recvpid : Int)
    (buf size : ℕ) : TouchesUser um (interfaceSend s um name senderpid recvpid buf size).2.1 := by
  have hcopy := touchesUser_fromUser um buf size
  unfold interfaceSend
  split
  · exact .refl um
  · split
    · exact .refl um
    · split
      · exact .refl um
      · split
        · rename_i um' hrun
          rw [hrun] at hcopy
          exact hcopy
        · rename_i bytes um' hrun
          rw [hrun] at hcopy
          exact hcopy

theorem touchesUser_recv (s : Kernel) (um : UserMem) (name : CString) (recvpid : Int)
    (buf size sizeOut : ℕ) : TouchesUser um (interfaceRecv s um name recvpid buf size sizeOut).2.1 := by
  have hcopy : ∀ m : InterfaceMessage, TouchesUser um (recvCopy um m buf size sizeOut).2 := by
    intro m
    have hbuf := touchesUser_toUser um buf (m.buf.take (recvSize size m))
    unfold recvCopy
    cases hrun : safecpyToUser um buf (m.buf.take (recvSize size m)) with
    | mk rval um₁ =>
        rw [hrun] at hbuf
        simp only
        split_ifs
        · exact hbuf
        · exact hbuf.trans (touchesUser_toUser um₁ _ _)
  unfold interfaceRecv
  split
  · exact .refl um
  · split
    · exact .refl um
    · split
      · exact .refl um
      · split
        · exact .refl um
        · rename_i m _
          have hm := hcopy m
          split
          · rename_i um' hrun
            rw [hrun] at hm
            exact hm
          · rename_i um' hrun
            rw [hrun] at hm
            exact hm

/-! ### Handlers that compute addresses -/

theorem kernelStart_lt {n : ℕ} (h : n ≤ kernelStart) : n < 0x100000000 :=
  Nat.lt_of_le_of_lt h (by decide)

/-- Each element of the vector lies behind one that could be read. -/
theorem kargvLoop_safe {uargv : ℕ} : ∀ (n : ℕ) (argv : List CString) (total : ℕ),
    uargv + 4 * argv.length < 0x100000000 → Safe (kargvLoop uargv n argv total)
  | 0, _, _, _ => Safe.kernel _
  | n + 1, argv, total, h => by
      unfold kargvLoop
      refine (UserSafe.ptr h).bind fun element helement => ?_
      subst helement
      refine (UserSafe.fromUser _ 4).bind fun bytes hbytes => ?_
      cases bytes with
      | none => exact Safe.pure _
      | some bytes =>
          have hroom := hbytes (Option.some_ne_none _) (by decide)
          refine Safe.ite (Safe.pure _) (Safe.ite (Safe.pure _) ?_)
          refine Safe.bind (UserSafe.safelen _ _) fun len => ?_
          cases len with
          | error lerr => exact Safe.pure _
          | ok len =>
              refine Safe.ite (Safe.pure _) (Safe.bind (Safe.fromUser _ _) fun copy => ?_)
              cases copy with
              | none => exact Safe.pure _
              | some copy =>
                  apply kargvLoop_safe n
                  rw [List.length_append, List.length_singleton]
                  exact kernelStart_lt (by omega)

theorem kargvUser_safe (uargv : UInt32) : Safe (kargvUser uargv) :=
  Safe.ite (Safe.pure _) (kargvLoop_safe _ _ _ uargv.toNat_lt)

/-- The terminator of a value that is cut lies behind the bytes that could be stored. -/
theorem copyValue_safe {buf : ℕ} (h : buf < 0x100000000) (size : ℕ) (eval : CString) :
    Safe (Handler.copyValue buf size eval) := by
  unfold Handler.copyValue
  refine Safe.ite (Safe.pure _) (UserSafe.ite (fun hcut => ?_) fun _ => ?_)
  · have hcopy : UserSafe (fun rval => rval ≠ -1 → buf + (size - 1) < 0x100000000)
        (Handler.copyCut buf (size - 1) eval) := by
      refine UserSafe.ite (fun hpos => ?_) fun hzero => UserSafe.pure fun _ => by omega
      refine (UserSafe.toUser buf (eval.take (size - 1))).mono fun rval hrval hne => ?_
      have hlen : (eval.take (size - 1)).length = size - 1 := by
        rw [List.length_take]
        omega
      have hroom := hrval hne (List.ne_nil_of_length_pos (by omega))
      rw [hlen] at hroom
      exact kernelStart_lt hroom
    refine hcopy.bind fun rval hrval => ?_
    refine UserSafe.ite (fun _ => Safe.pure _) fun hne => ?_
    refine (UserSafe.ptr (hrval hne)).bind fun dst _ => ?_
    exact Safe.bind (Safe.user fun um => touchesUser_toUser um _ _) fun _ => Safe.pure _
  · exact Safe.bind (Safe.user fun um => touchesUser_toUser um _ _) fun _ => Safe.pure _

theorem argSize_le (arg : CString) : arg.length + 1 ≤ argSize arg := by
  unfold argSize
  simp only
  split_ifs <;> omega

/-- The arguments stay between the bottom of the stack and its pointer. -/
theorem pushArgs_safe {stackbase : ℕ} {junk : ℕ → UInt8} :
    ∀ (args : List CString) (useresp : ℕ) (targv : List ℕ), stackbase ≤ useresp →
      useresp ≤ kernelStart →
      UserSafe (fun out => stackbase ≤ out.2.1 ∧ out.2.1 ≤ useresp ∧
        (out.1 = true → out.2.2.length = targv.length + args.length))
        (pushArgs stackbase junk args useresp targv)
  | [], useresp, targv, hbase, _ => UserSafe.pure ⟨hbase, Nat.le_refl _, fun _ => rfl⟩
  | arg :: args, useresp, targv, hbase, hend => by
      have hsize := argSize_le arg
      unfold pushArgs
      refine UserSafe.ite (fun _ => ?_) fun hroom => ?_
      · exact UserSafe.pure ⟨hbase, Nat.le_refl _, fun hc => absurd hc Bool.false_ne_true⟩
      · refine (UserSafe.memcpy ?_).bind fun _ _ => ?_
        · rw [List.length_append, List.length_cons, List.length_map, List.length_range]
          omega
        · refine (pushArgs_safe args (useresp - argSize arg) _ (by omega) (by omega)).mono ?_
          rintro out ⟨hlow, hhigh, hcount⟩
          refine ⟨hlow, by omega, fun hok => ?_⟩
          rw [hcount hok, List.length_append, List.length_singleton, List.length_cons]
          omega

theorem storeArgv_safe {userargv : ℕ} : ∀ (targv : List ℕ) (i : ℕ),
    userargv + 4 * (i + targv.length + 1) ≤ kernelStart → Safe (storeArgv userargv i targv)
  | [], i, h => by
      unfold storeArgv
      rw [List.length_nil] at h
      refine (UserSafe.ptr (kernelStart_lt (by omega))).bind fun slot hslot => UserSafe.memcpy ?_
      subst hslot
      show userargv + 4 * i + 4 ≤ kernelStart
      omega
  | targ :: targv, i, h => by
      unfold storeArgv
      rw [List.length_cons] at h
      refine (UserSafe.ptr (kernelStart_lt (by omega))).bind fun slot hslot => ?_
      subst hslot
      refine Safe.bind (UserSafe.memcpy ?_) fun _ => storeArgv_safe targv (i + 1) (by omega)
      show userargv + 4 * i + 4 ≤ kernelStart
      omega

/-- The pids lie one behind the other. -/
theorem pslistLoop_safe {s : Kernel} {buf size : ℕ} : ∀ n i count : ℕ,
    buf + 4 * count < 0x100000000 → Safe (Handler.pslistLoop s buf size n i count)
  | 0, _, _, _ => Safe.pure _
  | n + 1, i, count, h => by
      unfold Handler.pslistLoop
      refine Safe.ite (Safe.pure _) (Safe.ite ?_ (pslistLoop_safe n (i + 1) count h))
      refine (UserSafe.ptr h).bind fun slot hslot => ?_
      subst hslot
      refine (UserSafe.toUser _ (sizeBytes i)).bind fun rval hrval => ?_
      refine UserSafe.ite (fun _ => Safe.pure _) fun hok => ?_
      have hroom : buf + 4 * count + 4 ≤ kernelStart :=
        hrval (by omega) (List.cons_ne_nil _ _)
      exact pslistLoop_safe n (i + 1) (count + 1) (kernelStart_lt (by omega))

theorem forkChunk_le {src stackend : ℕ} (h : src < stackend) : src + forkChunk src stackend ≤ stackend := by
  unfold forkChunk
  simp only
  split_ifs <;> omega

/-- The copy of the stack stays inside the stack regions. -/
theorem forkCopyUser_safe {cr3Virt stackend : ℕ} {parent child : Thread}
    (hend : stackend ≤ kernelStart) : ∀ (n src dst : ℕ) (m : Mem),
      dst + (stackend - src) ≤ kernelStart →
      Safe (forkCopyUser cr3Virt parent child stackend n src dst m)
  | 0, _, _, _, _ => Safe.kernel _
  | n + 1, src, dst, m, h => by
      unfold forkCopyUser
      refine UserSafe.ite (fun _ => Safe.pure _) fun hmore => ?_
      have hchunk := forkChunk_le (Nat.lt_of_not_le hmore)
      refine Safe.bind (UserSafe.touch (by omega)) fun _ => ?_
      refine Safe.bind (Safe.kernel _) fun _ => Safe.bind (Safe.kernel _) fun _ => ?_
      refine Safe.bind (UserSafe.touch (by omega)) fun _ => ?_
      refine Safe.bind (Safe.kernel _) fun _ => Safe.bind (Safe.kernel _) fun _ => ?_
      refine (UserSafe.ptr (kernelStart_lt (by omega))).bind fun src' hsrc => ?_
      refine (UserSafe.ptr (kernelStart_lt (by omega))).bind fun dst' hdst => ?_
      subst hsrc hdst
      exact forkCopyUser_safe hend n _ _ _ (by omega)

theorem schedForkThreadUser_safe {s : Kernel} (hs : Tables s) (tid : Int) (r : Regs) :
    Safe (schedForkThreadUser s tid r) := by
  unfold schedForkThreadUser
  refine Safe.ite (Safe.pure _) (Safe.ite (Safe.pure _) ?_)
  refine (UserSafe.kernel fun _ ht => Kernel.threadAt_ok.mp ht).bind fun t ht => ?_
  refine UserSafe.ite (fun _ => Safe.pure _) fun hregion => ?_
  refine (UserSafe.kernel fun _ hcreate => hcreate).bind fun created hcreate => ?_
  have hs₁ := hs.spawned (schedCreateThread_ok hcreate).2
  refine (UserSafe.kernel fun _ hchild => Kernel.threadAt_ok.mp hchild).bind fun child hchild => ?_
  refine Safe.bind (Safe.kernel _) fun parent => Safe.bind (Safe.kernel _) fun p => ?_
  have hpdi : t.stackpdi = 767 := (hs.tid _ t ht).2.2
  have hpdi' : child.stackpdi = 767 := (hs₁.tid _ child hchild).2.2
  have hstack : t.stackpdi * 0x400000 + 0x400000 = kernelStart := by
    rw [hpdi]
    rfl
  rw [hpdi'.trans hpdi.symm, hstack]
  rw [hstack] at hregion
  refine (UserSafe.ptr (kernelStart_lt (by omega))).bind fun newdst hdst => ?_
  subst hdst
  exact Safe.bind (forkCopyUser_safe (Nat.le_refl _) _ _ _ _ (by omega)) fun _ => Safe.pure _

/-! ### The handlers and the functions they repeat -/

@[simp] theorem UserM.exec_user {α : Type} (f : UserMem → α × UserMem) (a : Access) :
    (UserM.user f).exec a = (.ok (f a.um).1, { a with um := (f a.um).2 }) := rfl

@[simp] theorem UserM.exec_kernel {α : Type} (x : Except Fault α) (a : Access) :
    (UserM.kernel x).exec a = (x.mapError CallEnd.fault, a) := rfl

@[simp] theorem UserM.exec_ptr (base offset : ℕ) (a : Access) :
    (UserM.ptr base offset).exec a = (.ok (wrap32 (base + offset)),
      { a with wrapped := a.wrapped || decide (0x100000000 ≤ base + offset) }) := rfl

@[simp] theorem UserM.exec_touch (addr n : ℕ) (a : Access) : (UserM.touch addr n).exec a =
    (.ok (), { a with um := { a.um with
      touched := (List.range n).map (addr + ·) ++ a.um.touched } }) := rfl

/-- The result of a call, and the memory of the caller after it. -/
def Access.Result {α : Type} (x : UserM α) (a : Access) (y : Except CallEnd α) (um : UserMem) : Prop :=
  (x.exec a).1 = y ∧ (x.exec a).2.um = um

theorem Handler.copyValue_result (buf size : ℕ) (eval : CString) (a : Access) :
    a.Result (Handler.copyValue buf size eval) (.ok (GalaxyOS.copyValue a.um buf size eval).1)
      (GalaxyOS.copyValue a.um buf size eval).2 := by
  unfold Access.Result Handler.copyValue GalaxyOS.copyValue Handler.copyCut
  by_cases h0 : size = 0
  · rw [if_pos h0, if_pos h0]
    exact ⟨rfl, rfl⟩
  · rw [if_neg h0, if_neg h0]
    by_cases hcut : eval.length + 1 > size
    · rw [if_pos hcut, if_pos hcut]
      by_cases hn : size - 1 > 0
      · simp only [if_pos hn, Effect.exec_bind, UserM.exec_user]
        by_cases hr : (safecpyToUser a.um buf (eval.take (size - 1))).1 = -1
        · simp only [if_pos hr]
          exact ⟨rfl, rfl⟩
        · simp only [if_neg hr, Effect.exec_bind, UserM.exec_user, UserM.exec_ptr, wrap32,
            Effect.exec_pure]
          split_ifs <;> exact ⟨rfl, rfl⟩
      · simp only [if_neg hn, Effect.exec_bind, Effect.exec_pure]
        rw [if_neg (by decide), if_neg (by decide)]
        simp only [Effect.exec_bind, Effect.exec_pure, UserM.exec_user, UserM.exec_ptr, wrap32]
        split_ifs <;> exact ⟨rfl, rfl⟩
    · rw [if_neg hcut, if_neg hcut]
      simp only [Effect.exec_bind, UserM.exec_user, Effect.exec_pure]
      split_ifs <;> exact ⟨rfl, rfl⟩

/-- The handler is `syscall_getenv` for the environment of the current process. -/
theorem Handler.getenv_result {st : CallState ι δ} {pid : Int} {e : Environ}
    (he : st.currentEnviron = .ok (pid, e)) (args : SyscallArgs) (r : Regs) (a : Access) {value : Int}
    {um : UserMem} (h : GalaxyOS.syscallGetenv e a.um args = .ok (value, um)) :
    a.Result (Handler.syscallGetenv st args r) (.ok ⟨value, r, st⟩) um := by
  unfold GalaxyOS.syscallGetenv at h
  unfold Access.Result Handler.syscallGetenv UserM.kstrdup
  rw [Effect.exec_bind, UserM.exec_user]
  cases hdup : kstrdupUser a.um (args 0).toNat maxEnvNameSize with
  | mk copied um₁ =>
      rw [hdup] at h
      cases copied with
      | error err =>
          obtain ⟨rfl, rfl⟩ := Prod.mk.inj (Except.ok.inj h)
          exact ⟨rfl, rfl⟩
      | ok name =>
          obtain ⟨found, hfound, h⟩ := bind_ok.mp h
          simp only [Effect.exec_bind, UserM.exec_kernel, he, hfound, Except.mapError]
          cases found with
          | none =>
              obtain ⟨rfl, rfl⟩ := Prod.mk.inj (Except.ok.inj h)
              exact ⟨rfl, rfl⟩
          | some found =>
              have hval : GalaxyOS.copyValue um₁ (args 1).toNat (args 2).toNat
                  (found.2.drop (name.length + 1)) = (value, um) := Except.ok.inj h
              obtain ⟨hvalue, hum⟩ := Handler.copyValue_result (args 1).toNat (args 2).toNat
                (found.2.drop (name.length + 1)) { a with um := um₁ }
              simp only [hval] at hvalue hum
              simp only [Effect.exec_bind]
              cases hrun : (Handler.copyValue (args 1).toNat (args 2).toNat
                  (found.2.drop (name.length + 1))).exec { a with um := um₁ } with
              | mk res a' =>
                  rw [hrun] at hvalue hum
                  obtain rfl : res = .ok value := hvalue
                  exact ⟨rfl, hum⟩

/-- The handler is `syscall_setenv`, which changes the environment of the current process. -/
theorem Handler.setenv_result {st : CallState ι δ} {pid : Int} {e e' : Environ}
    (he : st.currentEnviron = .ok (pid, e)) (hpid : st.environ pid = e) (args : SyscallArgs) (r : Regs)
    (a : Access) {value : Int} {um : UserMem}
    (h : GalaxyOS.syscallSetenv e a.um args = .ok (value, um, e')) :
    a.Result (Handler.syscallSetenv st args r)
      (.ok ⟨value, r, { st with environ := Function.update st.environ pid e' }⟩) um := by
  have hsame : { st with environ := Function.update st.environ pid e } = st := by
    rw [← hpid, Function.update_eq_self]
  unfold GalaxyOS.syscallSetenv at h
  unfold Access.Result Handler.syscallSetenv UserM.kstrdup
  rw [Effect.exec_bind, UserM.exec_user]
  cases hdup : kstrdupUser a.um (args 0).toNat maxEnvNameSize with
  | mk copied um₁ =>
      rw [hdup] at h
      cases copied with
      | error err =>
          obtain ⟨rfl, rfl, rfl⟩ := Except.ok.inj h
          rw [hsame]
          exact ⟨rfl, rfl⟩
      | ok name =>
          simp only at h ⊢
          by_cases hname : name.length = 0
          · rw [if_pos hname] at h ⊢
            obtain ⟨rfl, rfl, rfl⟩ := Except.ok.inj h
            rw [hsame]
            exact ⟨rfl, rfl⟩
          · rw [if_neg hname] at h ⊢
            rw [Effect.exec_bind, UserM.exec_user]
            cases hlen : safelenMaxErr um₁ (args 1).toNat (maxEnvValueSize + 1) with
            | mk vallen um₂ =>
                rw [hlen] at h
                cases vallen with
                | error err =>
                    obtain ⟨rfl, rfl, rfl⟩ := Except.ok.inj h
                    rw [hsame]
                    exact ⟨rfl, rfl⟩
                | ok vallen =>
                    obtain ⟨found, hfound, h⟩ := bind_ok.mp h
                    simp only [Effect.exec_bind, UserM.exec_kernel, UserM.exec_user, he, hfound,
                      Except.mapError]
                    cases hvalue : safecpyFromUser um₂ (args 1).toNat vallen with
                    | mk value' um₃ =>
                        rw [hvalue] at h
                        cases value' with
                        | none =>
                            obtain ⟨rfl, rfl, rfl⟩ := Except.ok.inj h
                            rw [hsame]
                            exact ⟨rfl, rfl⟩
                        | some bytes =>
                            obtain ⟨⟨rval, e₁⟩, hstore, h⟩ := bind_ok.mp h
                            obtain ⟨rfl, rfl, rfl⟩ := Except.ok.inj h
                            simp only [Effect.exec_bind, UserM.exec_kernel, hstore, Except.mapError]
                            exact ⟨rfl, rfl⟩

/-- The result of the computation is that of `y`, whatever it accesses. -/
def Lifts {α : Type} (x : UserM α) (y : Except Fault α) : Prop :=
  ∀ a, (x.exec a).1 = y.mapError CallEnd.fault

namespace Lifts

variable {α β : Type} {f : α → UserM β} {g : α → Except Fault β}

theorem pure (v : α) : Lifts (Pure.pure v) (.ok v) := fun _ => rfl

theorem kernel (x : Except Fault α) : Lifts (UserM.kernel x) x := fun _ => rfl

theorem bind {x : UserM α} {y : Except Fault α} (hx : Lifts x y)
    (hf : ∀ v, y = .ok v → Lifts (f v) (g v)) : Lifts (x >>= f) (y >>= g) := by
  intro a
  have hrun := hx a
  rw [Effect.exec_bind]
  cases hexec : x.exec a with
  | mk res a' =>
      rw [hexec] at hrun
      cases y with
      | error e =>
          obtain rfl : res = .error (.fault e) := hrun
          rfl
      | ok v =>
          obtain rfl : res = .ok v := hrun
          exact hf v rfl a'

theorem touch {addr n : ℕ} {f : Unit → UserM β} {y : Except Fault β} (h : Lifts (f ()) y) :
    Lifts (UserM.touch addr n >>= f) y := fun a => by
  rw [Effect.exec_bind, UserM.exec_touch]
  exact h _

theorem ptr {base offset : ℕ} {f : ℕ → UserM β} {y : Except Fault β}
    (hlt : base + offset < 0x100000000) (h : Lifts (f (base + offset)) y) :
    Lifts (UserM.ptr base offset >>= f) y := fun a => by
  rw [Effect.exec_bind, UserM.exec_ptr, show wrap32 (base + offset) = _ from Nat.mod_eq_of_lt hlt]
  exact h _

theorem ite {c : Prop} [Decidable c] {x₁ x₂ : UserM α} {y₁ y₂ : Except Fault α}
    (h₁ : c → Lifts x₁ y₁) (h₂ : ¬c → Lifts x₂ y₂) :
    Lifts (if c then x₁ else x₂) (if c then y₁ else y₂) := by
  by_cases hc : c
  · rw [if_pos hc, if_pos hc]
    exact h₁ hc
  · rw [if_neg hc, if_neg hc]
    exact h₂ hc

end Lifts

/-- The copy of the stack is `forkCopy`. -/
theorem forkCopyUser_lifts {cr3Virt stackend : ℕ} {parent child : Thread}
    (hend : stackend ≤ kernelStart) : ∀ (n src dst : ℕ) (m : Mem),
      dst + (stackend - src) ≤ kernelStart →
      Lifts (forkCopyUser cr3Virt parent child stackend n src dst m)
        (forkCopy cr3Virt parent child stackend n src dst m)
  | 0, _, _, _, _ => .kernel _
  | n + 1, src, dst, m, h => by
      unfold forkCopyUser forkCopy
      refine .ite (fun _ => .pure m) fun hmore => ?_
      have hchunk := forkChunk_le (Nat.lt_of_not_le hmore)
      refine .touch (.bind (.kernel _) fun p₁ _ => .bind (.kernel _) fun m₂ _ => ?_)
      refine .touch (.bind (.kernel _) fun p₃ _ => .bind (.kernel _) fun m₅ _ => ?_)
      refine .ptr (kernelStart_lt (by omega)) (.ptr (kernelStart_lt (by omega)) ?_)
      exact forkCopyUser_lifts hend n _ _ _ (by omega)

/-- The fork is `sched_fork_thread`. -/
theorem schedForkThreadUser_lifts {s : Kernel} (hs : Tables s) (tid : Int) (r : Regs) :
    Lifts (schedForkThreadUser s tid r) (schedForkThread s tid r) := by
  unfold schedForkThreadUser schedForkThread
  generalize 1026 = n
  refine .ite (fun _ => .pure _) fun _ => .ite (fun _ => .pure _) fun _ => ?_
  refine .bind (.kernel _) fun t ht => ?_
  refine .ite (fun _ => .pure _) fun hregion => ?_
  refine .bind (.kernel _) fun created hcreate => ?_
  have hs₁ := hs.spawned (schedCreateThread_ok hcreate).2
  refine .bind (.kernel _) fun child hchild => ?_
  refine .bind (.kernel _) fun parent _ => .bind (.kernel _) fun p _ => ?_
  have hpdi : t.stackpdi = 767 := (hs.tid _ t (Kernel.threadAt_ok.mp ht)).2.2
  have hpdi' : child.stackpdi = 767 := (hs₁.tid _ child (Kernel.threadAt_ok.mp hchild)).2.2
  have hstack : t.stackpdi * 0x400000 + 0x400000 = kernelStart := by
    rw [hpdi]
    rfl
  rw [hpdi'.trans hpdi.symm, hstack]
  rw [hstack] at hregion
  refine .ptr (kernelStart_lt (by omega)) (.bind ?_ fun mem _ => .pure _)
  exact forkCopyUser_lifts (Nat.le_refl _) n _ _ _ (by omega)

/-! ### The table -/

namespace Handler

theorem read_safe (st : CallState ι δ) (args : SyscallArgs) (r : Regs) :
    Safe (syscallRead st args r) := by
  refine Safe.bind (UserSafe.call fun um x um' hcall => ⟨?_, trivial⟩) fun _ => Safe.ret _ _ _
  simp only [bind_ok, Prod.exists, Except.ok.injEq, Prod.mk.injEq] at hcall
  obtain ⟨value, um₁, system, hread, -, rfl⟩ := hcall
  exact touchesUser_read hread

theorem write_safe (st : CallState ι δ) (args : SyscallArgs) (r : Regs) :
    Safe (syscallWrite st args r) := by
  refine Safe.ite (Safe.ret _ _ _) (Safe.ite (Safe.ret _ _ _) ?_)
  refine Safe.bind (Safe.fromUser _ _) fun newbuf => ?_
  cases newbuf with
  | none => exact Safe.ret _ _ _
  | some newbuf =>
      refine Safe.ite (Safe.ret _ _ _) (Safe.ite ?_ ?_)
      · exact Safe.bind (Safe.kernel _) fun _ => Safe.ret _ _ _
      · exact Safe.bind (Safe.kernel _) fun _ => Safe.ret _ _ _

/-- A handler that copies a string first. -/
theorem kstrdup_safe {st : CallState ι δ} {r : Regs} (uptr : UInt32) (maxlen : ℕ)
    {f : CString → UserM (CallResult ι δ)} (hf : ∀ s, Safe (f s)) :
    Safe (do
      match ← UserM.kstrdup uptr maxlen with
      | .error err => st.ret r err
      | .ok s => f s) := by
  refine Safe.bind (Safe.kstrdup uptr maxlen) fun copied => ?_
  cases copied with
  | error err => exact Safe.ret _ _ _
  | ok s => exact hf s

theorem open_safe [DecidableEq ι] (st : CallState ι δ) (args : SyscallArgs) (r : Regs) :
    Safe (syscallOpen st args r) :=
  kstrdup_safe _ _ fun _ => Safe.bind (Safe.kernel _) fun _ => Safe.ret _ _ _

theorem exec_safe [DecidableEq ι] (st : CallState ι δ) (args : SyscallArgs) (r : Regs) :
    Safe (syscallExec st args r) := by
  refine kstrdup_safe _ _ fun path => Safe.bind (kargvUser_safe _) fun argv => ?_
  cases argv with
  | error err => exact Safe.ret _ _ _
  | ok argv => exact Safe.bind (Safe.kernel _) fun _ => Safe.ret _ _ _

theorem getenv_safe (st : CallState ι δ) (args : SyscallArgs) (r : Regs) :
    Safe (syscallGetenv st args r) := by
  refine kstrdup_safe _ _ fun name => Safe.bind (Safe.kernel _) fun e => ?_
  refine Safe.bind (Safe.kernel _) fun found => ?_
  cases found with
  | none => exact Safe.ret _ _ _
  | some found => exact Safe.bind (copyValue_safe (args 1).toNat_lt _ _) fun _ => Safe.ret _ _ _

theorem setenv_safe (st : CallState ι δ) (args : SyscallArgs) (r : Regs) :
    Safe (syscallSetenv st args r) := by
  refine kstrdup_safe _ _ fun name => Safe.ite (Safe.ret _ _ _) ?_
  refine Safe.bind (UserSafe.safelen _ _) fun vallen => ?_
  cases vallen with
  | error err => exact Safe.ret _ _ _
  | ok vallen =>
      refine Safe.bind (Safe.kernel _) fun e => Safe.bind (Safe.kernel _) fun found => ?_
      refine Safe.bind (Safe.fromUser _ _) fun value => ?_
      cases value with
      | none => exact Safe.ret _ _ _
      | some value => exact Safe.bind (Safe.kernel _) fun _ => Safe.ret _ _ _

/-- What `syscall_setup` stores lies in the stack region of the thread. -/
theorem setup_safe {st : CallState ι δ} (hs : Tables st.kernel) (args : SyscallArgs) (r : Regs) :
    Safe (syscallSetup st args r) := by
  refine (UserSafe.kernel fun _ ht => Kernel.threadAt_ok.mp ht).bind fun t ht => ?_
  have hstack : t.stackpdi * 0x400000 + 0x400000 = kernelStart := by
    rw [(hs.tid _ t ht).2.2]
    rfl
  refine Safe.bind (Safe.kernel _) fun p => ?_
  refine Safe.ite (Safe.ret _ _ _) (UserSafe.ite (fun _ => Safe.ret _ _ _) fun hregion => ?_)
  refine (pushArgs_safe p.argv r.useresp [] (by omega) (by omega)).bind ?_
  rintro ⟨room, useresp, targv⟩ ⟨hlow, hhigh, hcount⟩
  cases room with
  | false => exact Safe.ret _ _ _
  | true =>
      have htargv : targv.length = p.argv.length := by simpa using hcount rfl
      refine UserSafe.ite (fun _ => Safe.ret _ _ _) fun _ => ?_
      refine UserSafe.ite (fun _ => Safe.ret _ _ _) fun hroom => ?_
      refine Safe.bind (storeArgv_safe targv 0 ?_) fun _ => ?_
      · simp only at hlow hhigh
        omega
      · refine UserSafe.ite (fun _ => Safe.ret _ _ _) fun hlast => ?_
        simp only at hlow hhigh
        refine Safe.bind (UserSafe.memcpy ?_) fun _ => Safe.bind (UserSafe.memcpy ?_) fun _ =>
          Safe.ret _ _ _
        · show useresp - 4 * (p.argv.length + 1) - 4 + 4 ≤ kernelStart
          omega
        · show useresp - 4 * (p.argv.length + 1) - 8 + 4 ≤ kernelStart
          omega

theorem chdir_safe (st : CallState ι δ) (args : SyscallArgs) (r : Regs) :
    Safe (syscallChdir st args r) := by
  refine kstrdup_safe _ _ fun path => ?_
  split
  · exact Safe.ret _ _ _
  · split
    · exact Safe.ret _ _ _
    · exact Safe.bind (Safe.kernel _) fun _ => Safe.ret _ _ _

theorem interfaceCall_safe {st : CallState ι δ} {args : SyscallArgs} {r : Regs}
    {f : CString → Int → UserM (Int × Kernel)} (hf : ∀ name pid, Safe (f name pid)) :
    Safe (interfaceCall st args r f) :=
  kstrdup_safe _ _ fun name => Safe.bind (Safe.kernel _) fun p =>
    Safe.bind (hf name p.pid) fun _ => Safe.ret _ _ _

theorem spstate_safe (st : CallState ι δ) (args : SyscallArgs) (r : Regs) :
    Safe (syscallSpstate st args r) := by
  refine Safe.ite (Safe.ret _ _ _) (Safe.ite (Safe.ret _ _ _) (Safe.ite ?_ (Safe.ret _ _ _)))
  refine Safe.bind (Safe.kernel _) fun p => Safe.ite (Safe.ret _ _ _) ?_
  exact Guarantees.ofExcept (x := .error CallEnd.reboot) Access.Within.refl fun _ h => by cases h

/-- Every function of the table. -/
theorem safe [DecidableEq ι] {st : CallState ι δ} (hs : Tables st.kernel) {n : ℕ} {h : Handler ι δ}
    (hn : syscalltable n = some h) (args : SyscallArgs) (r : Regs) : Safe (h st args r) := by
  unfold syscalltable at hn
  split at hn
  all_goals first | (obtain rfl := Option.some.inj hn) | (cases hn)
  · exact Safe.kernelCall _ _ _
  · exact Safe.kernelCall _ _ _
  · exact read_safe st args r
  · exact write_safe st args r
  · exact open_safe st args r
  · exact Safe.ite (Safe.ret _ _ _) (Safe.filesCall _ _ _)
  · exact exec_safe st args r
  · exact Safe.kernelCall _ _ _
  · exact Safe.ite (Safe.ret _ _ _) (Safe.bind (Safe.kernel _) fun _ => Safe.ret _ _ _)
  · exact Safe.kernelCall _ _ _
  · exact Safe.kernelCall _ _ _
  · exact getenv_safe st args r
  · exact setenv_safe st args r
  · exact setup_safe hs args r
  · exact Safe.bind (Safe.user fun um => touchesUser_getver _ um args) fun _ => Safe.ret _ _ _
  · exact chdir_safe st args r
  · exact Safe.bind (Safe.user fun um => touchesUser_list _ um args) fun _ => Safe.ret _ _ _
  · exact Safe.bind (Safe.kernel _) fun p =>
      Safe.bind (Safe.user fun um => touchesUser_getcwd p.pwd um args) fun _ => Safe.ret _ _ _
  · exact Safe.bind (Safe.kernel _) fun _ => Safe.ret _ _ _
  · exact interfaceCall_safe fun _ _ => Safe.pure _
  · exact interfaceCall_safe fun _ _ => Safe.pure _
  · exact interfaceCall_safe fun _ _ => Safe.user fun um => touchesUser_send _ um _ _ _ _ _
  · exact interfaceCall_safe fun _ _ => Safe.user fun um => touchesUser_recv _ um _ _ _ _ _
  · exact kstrdup_safe _ _ fun _ => Safe.kernelCall _ _ _
  · exact Safe.bind (schedForkThreadUser_safe hs _ r) fun _ => Safe.ret _ _ _
  · exact spstate_safe st args r
  · exact Safe.kernelCall _ _ _
  · exact Safe.ret _ _ _
  · exact Safe.bind (pslistLoop_safe _ _ _ (args 0).toNat_lt) fun _ => Safe.ret _ _ _
  · exact Safe.kernelCall _ _ _

end Handler

theorem handleSyscall_safe [DecidableEq ι] {st : CallState ι δ} (hs : Tables st.kernel) (r : Regs) :
    Safe (handleSyscall st r) := by
  have hkmode : Tables (st.setKmode false).kernel := ⟨hs.lastPid, hs.lastTid, hs.pid, hs.tid⟩
  refine Safe.ite ?_ (Safe.pure _)
  cases hn : (syscalltable r.eax : Option (Handler ι δ)) with
  | none => exact Safe.kernel _
  | some h => exact Safe.bind (Handler.safe hkmode hn _ _) fun _ => Safe.pure _

/-- In every state that a run of the machine reaches, a system call touches user memory only, whatever
its number, the registers and the memory of the caller are and however it ends, and no sum of an
address and an offset wraps around. -/
theorem syscalls_touch_user [DecidableEq ι] {m : Machine} (hm : MachineReach m) {st : CallState ι δ}
    (hst : st.kernel = m.kernel) (um : UserMem) (r : Regs) :
    TouchesUser um ((handleSyscall st r).exec ⟨um, false⟩).2.um ∧
      ((handleSyscall st r).exec ⟨um, false⟩).2.wrapped = false := by
  have hs : Tables st.kernel := hst ▸ hm.inv.tables
  obtain ⟨huser, hsums⟩ := (handleSyscall_safe hs r ⟨um, false⟩).1
  exact ⟨huser, Bool.eq_false_iff.mpr fun hw => absurd (hsums hw) Bool.false_ne_true⟩

/-- The state of the calls in a machine with one mounted volume. -/
def motdCalls (k : Kernel) : CallState Unit Unit where
  system := motdSystem k
  environ := fun _ => ⟨[.null], 0⟩
  terminal := []
  gitBranch := []
  pmemStackSize := 0
  kernelEnd := 0xC0400000
  junk := fun _ => 0
  behind := []

/-- A program asks for the version of the kernel in a buffer that ends behind user space, and for its
arguments. -/
theorem syscalls_touch_user_getver : ∃ m : Machine, MachineReach m ∧
    TouchesUser flatMemory ((handleSyscall (motdCalls m.kernel)
      { divideRegs with eax := 15, ecx := 0xBFFFFFF0, edx := 0x100 }).exec ⟨flatMemory, false⟩).2.um ∧
    ((handleSyscall (motdCalls m.kernel)
      { divideRegs with eax := 15, ecx := 0xBFFFFFF0, edx := 0x100 }).exec
        ⟨flatMemory, false⟩).2.wrapped = false := by
  have hrun : BootRuns (fun s => ⟨s, false, fun _ => false, fun _ => false⟩) Machine.exec
      (fun m a => a.Allowed m) (fun m => m.leaving = false) handlerRun := by
    decide +kernel
  obtain ⟨m, hm, -⟩ := machine_reach hrun
  exact ⟨m, hm, syscalls_touch_user hm rfl flatMemory _⟩

end GalaxyOS
