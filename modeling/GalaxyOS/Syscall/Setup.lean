import GalaxyOS.Syscall.UserSpace
import GalaxyOS.Lib.Layout

/-! # The arguments on the stack of a new program

`syscall_setup` pushes the arguments of a program to its stack, then the vector of their addresses, and last
the address of the vector and the number of arguments.  Each push has a check of its own, and it moves the
stack pointer of the caller at once: when a later push does not fit, the call fails and the earlier ones
remain.  `argumentBlock_exact_iff` says when the call leaves either the whole block or nothing.

`pushArgs_fits` and `pushArgs_refused` are the loop over the arguments, `storeArgv_stored` is the vector,
and `setup_refused` collects the ways to fail. -/

namespace GalaxyOS

open Transition

variable {ι δ : Type}

/-! ### Words -/

/-- The number stored in the four bytes at an address. -/
def UserMem.word (um : UserMem) (a : ℕ) : ℕ := leBytes (um.bytesAt a 4) 0 4

/-- The numbers stored in `n` words. -/
def UserMem.words (um : UserMem) (a : ℕ) : ℕ → List ℕ
  | 0 => []
  | n + 1 => um.word a :: um.words (a + 4) n

variable {um um' : UserMem}

theorem UserMem.bytesAt_congr {a n : ℕ} (h : ∀ k < n, um'.byte (a + k) = um.byte (a + k)) :
    um'.bytesAt a n = um.bytesAt a n :=
  List.map_congr_left fun k hk => h k (List.mem_range.mp hk)

theorem UserMem.word_congr {a : ℕ} (h : ∀ k < 4, um'.byte (a + k) = um.byte (a + k)) :
    um'.word a = um.word a := by
  unfold UserMem.word
  rw [UserMem.bytesAt_congr h]

theorem UserMem.words_congr : ∀ {n a : ℕ}, (∀ k < 4 * n, um'.byte (a + k) = um.byte (a + k)) →
    um'.words a n = um.words a n
  | 0, _, _ => rfl
  | n + 1, a, h => by
      unfold UserMem.words
      rw [UserMem.word_congr fun k hk => h k (by omega), UserMem.words_congr fun k hk => ?_]
      rw [Nat.add_assoc]
      exact h (4 + k) (by omega)

theorem UserMem.bytesAt_overlay {f : ℕ → UInt8} {a n : ℕ} {data : List UInt8}
    (hbyte : um.byte = overlay a data f) (hn : n ≤ data.length) : um.bytesAt a n = data.take n := by
  apply List.ext_getElem
  · rw [UserMem.bytesAt_length, List.length_take, Nat.min_eq_left hn]
  · intro k hk hk'
    rw [UserMem.bytesAt_length] at hk
    simp only [UserMem.bytesAt, List.getElem_map, List.getElem_range, List.getElem_take, hbyte]
    exact overlay_inside (by omega)

theorem leBytes_sizeBytes {n : ℕ} (h : n < 0x100000000) : leBytes (sizeBytes n) 0 4 = n := by
  simp only [leBytes, sizeBytes, List.getD_cons_zero, List.getD_cons_succ, UInt8.toNat_ofNat']
  omega

theorem UserMem.word_stored {f : ℕ → UInt8} {a n : ℕ} (hbyte : um.byte = overlay a (sizeBytes n) f)
    (hn : n < 0x100000000) : um.word a = n := by
  unfold UserMem.word
  rw [UserMem.bytesAt_overlay hbyte (Nat.le_refl 4)]
  exact leBytes_sizeBytes hn

/-! ### Rules for the accesses -/

theorem UserM.memcpy_yields (dst : ℕ) (data : List UInt8) (a : Access) :
    Yields (fun _ a' => a'.um.byte = overlay dst data a.um.byte) (UserM.memcpy dst data) a := by
  refine Yields.bind (Q := fun _ a' => a'.um.byte = a.um.byte) (Yields.act rfl) fun _ a₁ h₁ => ?_
  apply Yields.act
  rw [← h₁]

theorem UserM.ptr_yields {base offset : ℕ} (h : base + offset < 0x100000000) (a : Access) :
    Yields (fun p a' => p = base + offset ∧ a'.um = a.um) (UserM.ptr base offset) a :=
  Yields.act ⟨Nat.mod_eq_of_lt h, rfl⟩

theorem UserM.kernel_yields {α : Type} {x : Except Fault α} {r : α} (h : x = .ok r) (a : Access) :
    Yields (fun r' a' => r = r' ∧ a = a') (UserM.kernel x) a := by
  apply Yields.ofExcept (a := r)
  · rw [h]
    rfl
  · exact ⟨rfl, rfl⟩

/-! ### Pushing the arguments -/

/-- The bytes that the arguments take on the stack. -/
def argsSize : List CString → ℕ
  | [] => 0
  | arg :: args => argSize arg + argsSize args

/-- The addresses of the arguments, for a stack pointer before the first of them is pushed. -/
def argAddrs (useresp : ℕ) : List CString → List ℕ
  | [] => []
  | arg :: args => (useresp - argSize arg) :: argAddrs (useresp - argSize arg) args

/-- The bytes of the first push: the first argument, or the vector if there is none. -/
def firstPush : List CString → ℕ
  | [] => 4
  | arg :: _ => argSize arg

/-- The bytes that everything takes that `syscall_setup` pushes. -/
def blockSize (argv : List CString) : ℕ := argsSize argv + 4 * (argv.length + 1) + 8

/-- An argument and its terminator are stored at an address. -/
def ArgAt (um : UserMem) (targ : ℕ) (arg : CString) : Prop := um.bytesAt targ (arg.length + 1) = arg ++ [0]

/-- The pieces of memory that the arguments take. -/
def argPieces (targv : List ℕ) (argv : List CString) : List (ℕ × ℕ) :=
  List.zipWith (fun targ arg => (targ, arg.length + 1)) targv argv

theorem argAddrs_length : ∀ (args : List CString) (useresp : ℕ),
    (argAddrs useresp args).length = args.length
  | [], _ => rfl
  | arg :: args, useresp => congrArg (· + 1) (argAddrs_length args (useresp - argSize arg))

theorem argAddrs_le : ∀ (args : List CString) (useresp : ℕ), ∀ targ ∈ argAddrs useresp args, targ ≤ useresp
  | [], _, _, h => absurd h List.not_mem_nil
  | arg :: args, useresp, targ, h => by
      cases List.mem_cons.mp h with
      | inl hfirst => omega
      | inr hrest =>
          have hle := argAddrs_le args (useresp - argSize arg) targ hrest
          omega

theorem ArgAt.congr {targ : ℕ} {arg : CString} (h : ArgAt um targ arg)
    (hbyte : ∀ x, targ ≤ x → um'.byte x = um.byte x) : ArgAt um' targ arg := by
  unfold ArgAt
  rw [UserMem.bytesAt_congr fun k _ => hbyte (targ + k) (by omega)]
  exact h

/-- The arguments stay if nothing above the last of them changes. -/
theorem forall₂_argAt_congr : ∀ {args : List CString} {useresp : ℕ},
    List.Forall₂ (ArgAt um) (argAddrs useresp args) args →
    (∀ x, useresp - argsSize args ≤ x → um'.byte x = um.byte x) →
      List.Forall₂ (ArgAt um') (argAddrs useresp args) args
  | [], _, _, _ => .nil
  | arg :: args, useresp, h, hbyte => by
      unfold argsSize at hbyte
      obtain ⟨harg, hargs⟩ := List.forall₂_cons.mp h
      refine .cons (harg.congr fun x hx => hbyte x (by omega)) (forall₂_argAt_congr hargs fun x hx => ?_)
      exact hbyte x (by omega)

/-- The arguments do not overlap. -/
theorem argPieces_disjoint : ∀ (args : List CString) {useresp : ℕ}, argsSize args ≤ useresp →
    Layout.Disjoint (useresp - argsSize args) useresp (argPieces (argAddrs useresp args) args)
  | [], useresp, _ => Layout.Disjoint.nil _ _
  | arg :: args, useresp, h => by
      unfold argsSize at h ⊢
      have hsize := argSize_le arg
      have hrest := argPieces_disjoint args (show argsSize args ≤ useresp - argSize arg by omega)
      have habove := hrest.above (n := arg.length + 1) (by omega) (Nat.le_refl (useresp - argSize arg))
      exact habove.mono (by omega) (by omega)

/-- The data of a push, which starts with the argument and its terminator. -/
theorem argData_length (arg : CString) (junk : ℕ → UInt8) :
    (arg ++ 0 :: (List.range (argSize arg - (arg.length + 1))).map junk).length = argSize arg := by
  have hsize := argSize_le arg
  rw [List.length_append, List.length_cons, List.length_map, List.length_range]
  omega

theorem argData_take (arg : CString) (rest : List UInt8) :
    (arg ++ 0 :: rest).take (arg.length + 1) = arg ++ [0] := by
  rw [List.take_append, List.take_of_length_le (Nat.le_succ _), Nat.add_sub_cancel_left]
  rfl

variable {stackbase : ℕ} {junk : ℕ → UInt8}

/-- There is room for all the arguments. -/
theorem pushArgs_fits : ∀ (args : List CString) (useresp : ℕ) (targv : List ℕ) (a : Access),
    argsSize args ≤ useresp - stackbase →
      Yields (fun out a' => out = (true, useresp - argsSize args, targv ++ argAddrs useresp args) ∧
        (∀ x, useresp ≤ x → a'.um.byte x = a.um.byte x) ∧
        List.Forall₂ (ArgAt a'.um) (argAddrs useresp args) args)
      (pushArgs stackbase junk args useresp targv) a
  | [], useresp, targv, a, _ =>
      Yields.pure ⟨by rw [argsSize, Nat.sub_zero, argAddrs, List.append_nil], fun _ _ => rfl, .nil⟩
  | arg :: args, useresp, targv, a, h => by
      unfold argsSize at h
      unfold pushArgs
      simp only
      rw [if_neg (by omega)]
      refine (UserM.memcpy_yields _ _ a).bind fun _ a₁ h₁ => ?_
      refine (pushArgs_fits args (useresp - argSize arg) (targv ++ [useresp - argSize arg]) a₁
        (by omega)).mono fun out a₂ h₂ => ?_
      obtain ⟨hout, hkept, hargs⟩ := h₂
      have hlength := argData_length arg junk
      refine ⟨?_, fun x hx => ?_, .cons (ArgAt.congr ?_ hkept) hargs⟩
      · rw [hout, argsSize, argAddrs, List.append_assoc, List.singleton_append, Nat.sub_sub]
      · rw [hkept x (by omega), h₁]
        exact overlay_outside (.inr (by omega))
      · unfold ArgAt
        rw [UserMem.bytesAt_overlay h₁ (by rw [hlength]; exact argSize_le arg), argData_take]

/-- There is no room for all of them: those before the first one that does not fit have been pushed. -/
theorem pushArgs_refused : ∀ (args : List CString) (useresp : ℕ) (targv : List ℕ) (a : Access),
    useresp - stackbase < argsSize args →
      Yields (fun out _ => out.1 = false ∧ out.2.1 ≤ useresp ∧
        (out.2.1 = useresp ↔ useresp - stackbase < firstPush args))
      (pushArgs stackbase junk args useresp targv) a
  | [], _, _, _, h => absurd h (Nat.not_lt_zero _)
  | arg :: args, useresp, targv, a, h => by
      have hsize := argSize_le arg
      unfold argsSize at h
      unfold pushArgs firstPush
      simp only
      by_cases hfull : argSize arg > useresp - stackbase
      · rw [if_pos hfull]
        exact Yields.pure ⟨rfl, Nat.le_refl _, iff_of_true rfl hfull⟩
      · rw [if_neg hfull]
        refine (UserM.memcpy_yields _ _ a).bind fun _ a₁ _ => ?_
        refine (pushArgs_refused args (useresp - argSize arg) (targv ++ [useresp - argSize arg]) a₁
          (by omega)).mono fun out a₂ h₂ => ?_
        obtain ⟨hno, hle, -⟩ := h₂
        exact ⟨hno, by omega, iff_of_false (by omega) hfull⟩

/-- Storing the vector. -/
theorem storeArgv_stored {userargv : ℕ} : ∀ (targv : List ℕ) (i : ℕ) (a : Access),
    (∀ targ ∈ targv, targ < 0x100000000) → userargv + 4 * (i + targv.length + 1) ≤ 0x100000000 →
      Yields (fun _ a' => (∀ x, x < userargv + 4 * i ∨ userargv + 4 * (i + targv.length + 1) ≤ x →
          a'.um.byte x = a.um.byte x) ∧
        a'.um.words (userargv + 4 * i) (targv.length + 1) = targv ++ [0])
      (storeArgv userargv i targv) a
  | [], i, a, _, h => by
      rw [List.length_nil] at h
      unfold storeArgv
      refine (UserM.ptr_yields (by omega) a).bind fun slot a₁ h₁ => ?_
      obtain ⟨rfl, hum⟩ := h₁
      refine (UserM.memcpy_yields _ _ a₁).mono fun _ a₂ h₂ => ⟨fun x hx => ?_, ?_⟩
      · rw [h₂, hum]
        exact overlay_outside hx
      · exact congrArg (· :: []) (UserMem.word_stored h₂ (by decide))
  | targ :: targv, i, a, htargv, h => by
      rw [List.length_cons] at h
      unfold storeArgv
      refine (UserM.ptr_yields (by omega) a).bind fun slot a₁ h₁ => ?_
      obtain ⟨rfl, hum⟩ := h₁
      refine (UserM.memcpy_yields _ _ a₁).bind fun _ a₂ h₂ => ?_
      refine (storeArgv_stored targv (i + 1) a₂ (fun t ht => htargv t (List.mem_cons_of_mem targ ht))
        (by omega)).mono fun _ a₃ h₃ => ?_
      obtain ⟨hkept, hwords⟩ := h₃
      refine ⟨fun x hx => ?_, ?_⟩
      · rw [List.length_cons] at hx
        rw [hkept x (by omega), h₂, hum]
        exact overlay_outside (hx.imp_right fun hx => Nat.le_trans (by show _ + 4 ≤ _; omega) hx)
      · have hfirst : a₃.um.word (userargv + 4 * i) = targ := by
          rw [UserMem.word_congr fun k hk => hkept _ (.inl (by omega))]
          exact UserMem.word_stored h₂ (htargv targ List.mem_cons_self)
        rw [show userargv + 4 * (i + 1) = userargv + 4 * i + 4 by omega] at hwords
        rw [List.length_cons, UserMem.words, hfirst, hwords]
        rfl

/-! ### The call -/

/-- What a program finds at its stack pointer: the number of its arguments and the address of the vector,
which ends with `NULL` and has the addresses of the arguments.  All of it lies between two addresses,
and nothing overlaps. -/
def ArgumentBlock (um : UserMem) (argv : List CString) (low high useresp : ℕ) : Prop :=
  ∃ userargv targv, um.words useresp 2 = [argv.length, userargv] ∧
    um.words userargv (argv.length + 1) = targv ++ [0] ∧ List.Forall₂ (UserString um) targv argv ∧
    Layout.Disjoint low high
      ((useresp, 8) :: (userargv, 4 * (argv.length + 1)) :: argPieces targv argv)

/-- The call has left a block below the old stack pointer, or an error and the registers as they were. -/
def SetupResult (argv : List CString) (low : ℕ) (r : Regs) (res : CallResult ι δ) (a : Access) : Prop :=
  res.value = 0 ∧ res.regs = { r with useresp := res.regs.useresp } ∧
    ArgumentBlock a.um argv low r.useresp res.regs.useresp ∨
  IsError res.value ∧ res.regs = r

/-- The call is refused before anything is pushed, or everything fits. -/
def SetupWhole (argv : List CString) (low useresp : ℕ) : Prop :=
  0x80000000 ≤ argv.length ∨ useresp - low < firstPush argv ∨ blockSize argv ≤ useresp - low

instance (argv : List CString) (low useresp : ℕ) : Decidable (SetupWhole argv low useresp) :=
  inferInstanceAs (Decidable (_ ∨ _ ∨ _))

theorem firstPush_le (argv : List CString) : firstPush argv ≤ argsSize argv + 4 * (argv.length + 1) := by
  cases argv with
  | nil => exact Nat.le_refl 4
  | cons arg args => exact Nat.le_trans (Nat.le_add_right _ _) (Nat.le_add_right _ _)

/-- If the arguments take no room, then there are none. -/
theorem argsSize_eq_zero {argv : List CString} (h : argsSize argv = 0) : argv = [] := by
  cases argv with
  | nil => rfl
  | cons arg args =>
      have hsize := argSize_le arg
      unfold argsSize at h
      omega

theorem firstPush_le_args {argv : List CString} (h : argv ≠ []) : firstPush argv ≤ argsSize argv := by
  cases argv with
  | nil => exact absurd rfl h
  | cons arg args => exact Nat.le_add_right _ _

/-- An argument that is stored is a string, as it has no NUL. -/
theorem ArgAt.userString {targ : ℕ} {arg : CString} (h : ArgAt um targ arg) (hnul : 0 ∉ arg) :
    UserString um targ arg := by
  unfold ArgAt UserMem.bytesAt at h
  rw [List.range_succ, List.map_append] at h
  obtain ⟨hbytes, hend⟩ := List.append_inj h (by simp)
  exact ⟨hbytes, hnul, List.head_eq_of_cons_eq hend⟩

theorem forall₂_userString {targv : List ℕ} {argv : List CString} (h : List.Forall₂ (ArgAt um) targv argv)
    (hnul : ∀ arg ∈ argv, 0 ∉ arg) : List.Forall₂ (UserString um) targv argv := by
  induction h with
  | nil => exact .nil
  | cons harg _ ih =>
      refine .cons (harg.userString (hnul _ List.mem_cons_self)) (ih fun arg ha => ?_)
      exact hnul arg (List.mem_cons_of_mem _ ha)

section Setup

variable {st : CallState ι δ} {t : Thread} {p : Process}

/-- A stack pointer in the stack region, and arguments that can be counted. -/
structure SetupCall (st : CallState ι δ) (t : Thread) (p : Process) (r : Regs) : Prop where
  thread : st.kernel.threadAt st.kernel.currenttid = .ok t
  process : st.kernel.currentProcess = .ok p
  stackpdi : t.stackpdi < 768
  strings : ∀ arg ∈ p.argv, 0 ∉ arg
  low : t.stackpdi * 0x400000 ≤ r.useresp
  high : r.useresp ≤ t.stackpdi * 0x400000 + 0x400000

theorem setup_fits {r : Regs} (h : SetupCall st t p r) (args : SyscallArgs) (a : Access)
    (hargc : p.argv.length < 0x80000000)
    (hroom : blockSize p.argv ≤ r.useresp - t.stackpdi * 0x400000) :
    Yields (fun res a' => res.value = 0 ∧ res.regs = { r with useresp := res.regs.useresp } ∧
        ArgumentBlock a'.um p.argv (t.stackpdi * 0x400000) r.useresp res.regs.useresp)
      (Handler.syscallSetup st args r) a := by
  have hpdi := h.stackpdi
  have hlow := h.low
  have hhigh := h.high
  unfold blockSize at hroom
  unfold Handler.syscallSetup
  refine (UserM.kernel_yields h.thread a).bind fun _ a₁ h₁ => ?_
  obtain ⟨rfl, rfl⟩ := h₁
  refine (UserM.kernel_yields h.process a).bind fun _ a₁ h₁ => ?_
  obtain ⟨rfl, rfl⟩ := h₁
  simp only
  rw [if_neg (Nat.not_le.mpr hargc), if_neg (by omega)]
  refine (pushArgs_fits p.argv r.useresp [] a (by omega)).bind fun out a₁ h₁ => ?_
  obtain ⟨rfl, -, hargs⟩ := h₁
  have htargs := argAddrs_length p.argv r.useresp
  have htargv : ∀ targ ∈ argAddrs r.useresp p.argv, targ < 0x100000000 := fun targ htarg =>
    Nat.lt_of_le_of_lt (argAddrs_le p.argv r.useresp targ htarg) (by omega)
  simp only [List.nil_append, Bool.not_true, Bool.false_eq_true, if_false]
  rw [if_neg (by omega)]
  refine (storeArgv_stored (argAddrs r.useresp p.argv) 0 a₁ htargv (by omega)).bind fun _ a₂ h₂ => ?_
  obtain ⟨hvector, hwords⟩ := h₂
  rw [if_neg (by omega)]
  refine (UserM.memcpy_yields _ _ a₂).bind fun _ a₃ h₃ => ?_
  refine (UserM.memcpy_yields _ _ a₃).bind fun _ a₄ h₄ => ?_
  apply Yields.pure
  -- from here on, `top` is where the arguments end, and `vec` where their vector starts
  generalize htop : r.useresp - argsSize p.argv = top at hvector hwords h₃ h₄ ⊢
  generalize hvec : top - 4 * (p.argv.length + 1) = vec at hvector hwords h₃ h₄ ⊢
  rw [htargs] at hvector hwords
  have hkept₄ : ∀ x, vec - 4 ≤ x → a₄.um.byte x = a₃.um.byte x := fun x hx => by
    rw [h₄]
    exact overlay_outside (.inr (by show _ + 4 ≤ _; omega))
  have hkept₃ : ∀ x, vec ≤ x → a₃.um.byte x = a₂.um.byte x := fun x hx => by
    rw [h₃]
    exact overlay_outside (.inr (by show _ + 4 ≤ _; omega))
  have hkept : ∀ x, vec ≤ x → a₄.um.byte x = a₂.um.byte x := fun x hx =>
    (hkept₄ x (by omega)).trans (hkept₃ x hx)
  refine ⟨rfl, rfl, vec, argAddrs r.useresp p.argv, ?_, ?_, ?_, ?_⟩
  · have hcount : a₄.um.word (vec - 8) = p.argv.length := UserMem.word_stored h₄ (by omega)
    have haddr : a₃.um.word (vec - 4) = vec := UserMem.word_stored h₃ (by omega)
    have haddr' : a₄.um.word (vec - 8 + 4) = vec := by
      rw [show vec - 8 + 4 = vec - 4 by omega, UserMem.word_congr fun k _ => hkept₄ _ (by omega), haddr]
    show [a₄.um.word (vec - 8), a₄.um.word (vec - 8 + 4)] = _
    rw [hcount, haddr']
  · rw [UserMem.words_congr fun k _ => hkept _ (by omega)]
    exact hwords
  · apply forall₂_userString _ h.strings
    exact forall₂_argAt_congr hargs fun x hx => (hkept x (by omega)).trans (hvector x (by omega))
  · have hpieces := argPieces_disjoint p.argv (show argsSize p.argv ≤ r.useresp by omega)
    rw [htop] at hpieces
    have hpieces' := (hpieces.below (a := vec) (n := 4 * (p.argv.length + 1)) (by omega) (by omega)).below
      (a := vec - 8) (n := 8) (by omega) (by omega)
    exact hpieces'.mono (by omega) (Nat.le_refl _)

theorem setup_counted {r : Regs} (h : SetupCall st t p r) (args : SyscallArgs) (a : Access)
    (hargc : 0x80000000 ≤ p.argv.length) :
    Yields (fun res _ => res.value = -EINVAL ∧ res.regs = r) (Handler.syscallSetup st args r) a := by
  unfold Handler.syscallSetup
  refine (UserM.kernel_yields h.thread a).bind fun _ a₁ h₁ => ?_
  obtain ⟨rfl, rfl⟩ := h₁
  refine (UserM.kernel_yields h.process a).bind fun _ a₁ h₁ => ?_
  obtain ⟨rfl, rfl⟩ := h₁
  simp only
  rw [if_pos hargc]
  exact Yields.pure ⟨rfl, rfl⟩

theorem regs_useresp_iff (r : Regs) (useresp : ℕ) :
    ({ r with useresp := useresp } : Regs) = r ↔ useresp = r.useresp :=
  ⟨fun h => congrArg Regs.useresp h, fun h => by rw [h]⟩

/-- Without room for everything the call fails, and unless the first push fails the registers have
changed. -/
theorem setup_refused {r : Regs} (h : SetupCall st t p r) (args : SyscallArgs) (a : Access)
    (hargc : p.argv.length < 0x80000000)
    (hroom : r.useresp - t.stackpdi * 0x400000 < blockSize p.argv) :
    Yields (fun res _ => res.value = -E2BIG ∧
        (res.regs = r ↔ r.useresp - t.stackpdi * 0x400000 < firstPush p.argv))
      (Handler.syscallSetup st args r) a := by
  have hpdi := h.stackpdi
  have hlow := h.low
  have hhigh := h.high
  unfold blockSize at hroom
  unfold Handler.syscallSetup
  refine (UserM.kernel_yields h.thread a).bind fun _ a₁ h₁ => ?_
  obtain ⟨rfl, rfl⟩ := h₁
  refine (UserM.kernel_yields h.process a).bind fun _ a₁ h₁ => ?_
  obtain ⟨rfl, rfl⟩ := h₁
  simp only
  rw [if_neg (Nat.not_le.mpr hargc), if_neg (by omega)]
  by_cases hargs : r.useresp - t.stackpdi * 0x400000 < argsSize p.argv
  · refine (pushArgs_refused p.argv r.useresp [] a hargs).bind fun out a₁ h₁ => ?_
    obtain ⟨hno, -, hmoved⟩ := h₁
    rw [hno]
    simp only [Bool.not_false, if_true]
    exact Yields.pure ⟨rfl, (regs_useresp_iff r out.2.1).trans hmoved⟩
  · refine (pushArgs_fits p.argv r.useresp [] a (by omega)).bind fun out a₁ h₁ => ?_
    obtain ⟨rfl, -, -⟩ := h₁
    have hfirst := firstPush_le p.argv
    simp only [List.nil_append, Bool.not_true, Bool.false_eq_true, if_false]
    by_cases hvector : 4 * (p.argv.length + 1) > r.useresp - argsSize p.argv - t.stackpdi * 0x400000
    · rw [if_pos hvector]
      refine Yields.pure ⟨rfl, (regs_useresp_iff r _).trans ?_⟩
      by_cases hnil : p.argv = []
      · rw [hnil] at hvector ⊢
        exact iff_of_true rfl hvector
      · have hle := firstPush_le_args hnil
        have hpos : argsSize p.argv ≠ 0 := fun h0 => hnil (argsSize_eq_zero h0)
        exact iff_of_false (by omega) (by omega)
    · have htargs := argAddrs_length p.argv r.useresp
      have htargv : ∀ targ ∈ argAddrs r.useresp p.argv, targ < 0x100000000 := fun targ htarg =>
        Nat.lt_of_le_of_lt (argAddrs_le p.argv r.useresp targ htarg) (by omega)
      rw [if_neg hvector]
      refine (storeArgv_stored (argAddrs r.useresp p.argv) 0 a₁ htargv (by omega)).bind fun _ a₂ _ => ?_
      rw [if_pos (by omega)]
      refine Yields.pure ⟨rfl, (regs_useresp_iff r _).trans ?_⟩
      exact iff_of_false (by show ¬_ - _ - _ = _; omega) (by omega)

end Setup

theorem isError_e2big : IsError (-E2BIG) := by decide

theorem isError_einval : IsError (-EINVAL) := by decide

/-- The call leaves the whole block or nothing exactly if it does not fail after a push. -/
theorem argumentBlock_exact_iff {st : CallState ι δ} {t : Thread} {p : Process} {r : Regs}
    (h : SetupCall st t p r) (args : SyscallArgs) (um : UserMem) :
    Yields (SetupResult p.argv (t.stackpdi * 0x400000) r) (Handler.syscallSetup st args r) ⟨um, false⟩ ↔
      SetupWhole p.argv (t.stackpdi * 0x400000) r.useresp := by
  unfold SetupWhole
  by_cases hargc : 0x80000000 ≤ p.argv.length
  · refine iff_of_true ((setup_counted h args _ hargc).mono fun res a hres => .inr ?_) (.inl hargc)
    exact ⟨hres.1 ▸ isError_einval, hres.2⟩
  · by_cases hroom : blockSize p.argv ≤ r.useresp - t.stackpdi * 0x400000
    · have hfits := setup_fits h args ⟨um, false⟩ (Nat.not_le.mp hargc) hroom
      exact iff_of_true (hfits.mono fun res a hres => .inl hres) (.inr (.inr hroom))
    · have hrefused := setup_refused h args ⟨um, false⟩ (Nat.not_le.mp hargc) (Nat.not_le.mp hroom)
      constructor
      · intro hresult
        obtain ⟨res, a, -, ⟨hvalue, hregs⟩, hres⟩ := hrefused.and hresult
        cases hres with
        | inl hok =>
            rw [hok.1] at hvalue
            exact absurd hvalue (by decide)
        | inr herr => exact .inr (.inl (hregs.mp herr.2))
      · rintro (hno | hfirst | hno)
        · exact absurd hno hargc
        · refine hrefused.mono fun res a hres => .inr ⟨hres.1 ▸ isError_e2big, hres.2.mpr hfirst⟩
        · exact absurd hno hroom

/-- A program with arguments is loaded and runs. -/
def programRun (argv : List CString) : List MachineAct :=
  [.kernel (.loadProcess ⟨sampleImage [0, 0, 0x40, 0], [], 3, [], argv, true⟩), .schedule, .interrupt 0, .schedule]

/-- A program with these arguments runs. -/
def Kernel.RunsProgram (s : Kernel) (argv : List CString) : Prop :=
  ∃ t ∈ s.threads s.currenttid, ∃ pid ∈ s.currentps, ∃ p ∈ s.processes pid, t.stackpdi = 767 ∧ p.argv = argv

instance (s : Kernel) (argv : List CString) : Decidable (s.RunsProgram argv) :=
  inferInstanceAs (Decidable (∃ t ∈ s.threads s.currenttid, ∃ pid ∈ s.currentps, ∃ p ∈ s.processes pid,
    t.stackpdi = 767 ∧ p.argv = argv))

/-- The registers of a program with the stack pointer `useresp`. -/
def stackRegs (useresp : ℕ) : Regs := { divideRegs with useresp := useresp }

theorem Kernel.RunsProgram.setupCall {s : Kernel} {argv : List CString} (h : s.RunsProgram argv)
    (hargv : ∀ arg ∈ argv, 0 ∉ arg) {useresp : ℕ} (hlow : 0xBFC00000 ≤ useresp)
    (hhigh : useresp ≤ 0xC0000000) :
    ∃ t p, SetupCall (motdCalls s) t p (stackRegs useresp) ∧
      t.stackpdi * 0x400000 = 0xBFC00000 ∧ p.argv = argv := by
  obtain ⟨t, ht, pid, hpid, p, hp, hpdi, rfl⟩ := h
  refine ⟨t, p, ⟨Kernel.threadAt_ok.mpr ht, Kernel.currentProcess_ok.mpr ⟨pid, hpid, hp⟩, ?_, hargv, ?_, ?_⟩,
    ?_, rfl⟩
  · rw [hpdi]
    decide
  · rw [hpdi]
    exact hlow
  · rw [hpdi]
    exact hhigh
  · rw [hpdi]

/-- For a program without arguments there is room for the vector, but not for its address. -/
theorem argumentBlock_moved : ¬∀ m : Machine, MachineReach m → ∀ (t : Thread) (p : Process) (r : Regs),
    SetupCall (motdCalls m.kernel) t p r → ∀ (args : SyscallArgs) (um : UserMem),
      Yields (SetupResult p.argv (t.stackpdi * 0x400000) r)
        (Handler.syscallSetup (motdCalls m.kernel) args r) ⟨um, false⟩ := by
  intro hall
  have hrun : BootRuns (fun s => ⟨s, false, fun _ => false, fun _ => false⟩) Machine.exec
      (fun m a => a.Allowed m) (fun m => m.kernel.RunsProgram []) (programRun []) := by
    decide +kernel
  obtain ⟨m, hm, hready⟩ := machine_reach hrun
  obtain ⟨t, p, hcall, hstack, hargv⟩ := hready.setupCall (fun _ h => absurd h List.not_mem_nil)
    (show 0xBFC00000 ≤ 0xBFC00004 by decide) (by decide)
  have hrefused := setup_refused hcall divideRegs.args ⟨flatMemory, false⟩ (by rw [hargv]; decide)
    (by rw [hstack, hargv]; decide)
  obtain ⟨res, a, -, ⟨hvalue, hregs⟩, hres⟩ :=
    hrefused.and (hall m hm t p _ hcall divideRegs.args flatMemory)
  rw [hstack, hargv] at hregs
  cases hres with
  | inl hok =>
      rw [hok.1] at hvalue
      exact absurd hvalue (by decide)
  | inr herr => exact absurd (hregs.mp herr.2) (by decide)

/-- At the top of its stack, a program finds its argument. -/
theorem argumentBlock_one : ∃ m : Machine, MachineReach m ∧
    Yields (SetupResult [[65]] 0xBFC00000 (stackRegs 0xC0000000))
      (Handler.syscallSetup (motdCalls m.kernel) divideRegs.args (stackRegs 0xC0000000))
      ⟨flatMemory, false⟩ := by
  have hrun : BootRuns (fun s => ⟨s, false, fun _ => false, fun _ => false⟩) Machine.exec
      (fun m a => a.Allowed m) (fun m => m.kernel.RunsProgram [[65]]) (programRun [[65]]) := by
    decide +kernel
  obtain ⟨m, hm, hready⟩ := machine_reach hrun
  obtain ⟨t, p, hcall, hstack, hargv⟩ := hready.setupCall (by decide)
    (show 0xBFC00000 ≤ 0xC0000000 by decide) (by decide)
  have hblock := (argumentBlock_exact_iff hcall divideRegs.args flatMemory).mpr
    (by rw [hstack, hargv]; decide)
  rw [hstack, hargv] at hblock
  exact ⟨m, hm, hblock⟩

end GalaxyOS
