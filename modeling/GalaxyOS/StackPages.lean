import GalaxyOS.Exception
import GalaxyOS.Syscall.Read

/-! # Stores of the kernel and of a program

A program that stores to a page of its stack that has never been touched is answered by
`exception_handle`: the page is allocated and the store is repeated.  When `safecpy_asm` stores to the
same page, `isr_14` recognises its instruction and makes it return `-1`, without asking the scheduler.
On the other hand ring 0 may store to pages that are not open to user programs.

`safecpyToUser_agrees_iff` says when the two stores agree: `Kernel.RunsUser.storeByte_iff` is the store of
the program, `safecpyToUser_storeByte` that of the kernel. -/

namespace GalaxyOS

open Transition

/-! ### Stores -/

/-- The processor lets ring 3 store to the page: both entries are writable and open to users. -/
def userStoreAllowed (m : Mem) (virtualaddr : ℕ) : Bool :=
  (pageEntries m virtualaddr).any fun e => e.1.flags / 2 % 4 = 3 && e.2.flags / 2 % 4 = 3

/-- The registers belong to a user program. -/
def Regs.user (r : Regs) : Bool := decide (r.cs % 4 ≠ 0)

/-- The processor carries out a store with these registers. -/
def storeReaches (m : Mem) (r : Regs) (virtualaddr : ℕ) : Bool :=
  if r.user then userStoreAllowed m virtualaddr else storeAllowed m virtualaddr

/-- The registers at the page fault of such a store: the error code says whether the page is present,
that it is a store, and whether it comes from ring 3. -/
def Regs.atFault (r : Regs) (m : Mem) (virtualaddr : ℕ) : Regs :=
  { r with
    intNo := 0x0E
    errCode := (if (pageEntries m virtualaddr).isSome then 1 else 0) + 2 + (if r.user then 4 else 0) }

/-- The addresses of the two instructions of `safecpy_asm` that access memory, which lie in the
kernel. -/
structure SafecpyAsm where
  inst : ℕ
  instb : ℕ
  inst_kernel : kernelStart ≤ inst
  instb_kernel : kernelStart ≤ instb

/-- `isr_14`: `none` if it has made `safecpy_asm` return -1. -/
def isr14 (code : SafecpyAsm) (s : Kernel) (um : UserMem) (r : Regs) (cr2 : ℕ) :
    Except Fault (Option (ExceptionEnd × Kernel)) :=
  if r.eip = code.inst ∨ r.eip = code.instb then .ok none
  else do
    let x ← exceptionHandle s um r cr2
    .ok (some x)

/-- A store instruction at `r.eip` ends in a store: at once, or when it is repeated after a page
fault. -/
def storeByte (code : SafecpyAsm) (s : Kernel) (um : UserMem) (r : Regs) (virtualaddr : ℕ) : Bool :=
  if storeReaches s.mem r virtualaddr then true
  else
    match isr14 code s um (r.atFault s.mem virtualaddr) virtualaddr with
    | .ok (some (.resume, s')) => storeReaches s'.mem r virtualaddr
    | _ => false

/-- The registers while `safecpy_asm` stores. -/
structure Regs.InSafecpy (r : Regs) (code : SafecpyAsm) : Prop where
  eip : r.eip = code.instb
  ring : r.user = false

/-- The registers of a user program. -/
structure Regs.InProgram (r : Regs) : Prop where
  eip : r.eip < kernelStart
  ring : r.user = true

variable {s : Kernel} {t : Thread} {a : ℕ}

/-- `safecpy_to_user` of one byte succeeds where ring 0 may store. -/
theorem safecpyToUser_one {m : Mem} (byte : ℕ → UInt8) (ha : a < kernelStart) (b : UInt8) :
    (safecpyToUser (m.userMem byte) a [b]).1 = 0 ↔ storeAllowed m a = true := by
  have hcheck : safecpyCheckUser a 1 = true := safecpyCheckUser_iff.mpr ⟨ha, ha⟩
  unfold safecpyToUser safecpyToUserLoop UserMem.store
  rw [List.length_singleton, if_neg Nat.one_ne_zero, hcheck, if_neg (by decide)]
  cases hw : storeAllowed m a with
  | true =>
      have hw' : (m.userMem byte).writable a = true := hw
      rw [if_pos hw']
      exact ⟨fun _ => rfl, fun _ => rfl⟩
  | false =>
      have hw' : ¬(m.userMem byte).writable a = true := ne_true_of_eq_false hw
      rw [if_neg hw']
      refine ⟨fun h => ?_, fun h => absurd h Bool.false_ne_true⟩
      exact absurd (show (-1 : Int) = 0 from h) (by decide)

/-- One byte of `safecpy_to_user` is the store of `safecpy_asm`. -/
theorem safecpyToUser_storeByte {code : SafecpyAsm} {um : UserMem} {r : Regs}
    (hr : r.InSafecpy code) (byte : ℕ → UInt8) (ha : a < kernelStart) (b : UInt8) :
    (safecpyToUser (s.mem.userMem byte) a [b]).1 = 0 ↔ storeByte code s um r a = true := by
  have hreach : storeReaches s.mem r a = storeAllowed s.mem a := by
    unfold storeReaches
    rw [if_neg (by rw [hr.ring]; decide)]
  have hisr : isr14 code s um (r.atFault s.mem a) a = .ok none := if_pos (.inr hr.eip)
  rw [safecpyToUser_one byte ha b]
  unfold storeByte
  rw [hreach, hisr]
  cases storeAllowed s.mem a with
  | true => exact ⟨fun _ => rfl, fun _ => rfl⟩
  | false => exact ⟨fun h => absurd h Bool.false_ne_true, fun h => absurd h Bool.false_ne_true⟩

/-! ### The page fault of a program -/

/-- The running thread `t` belongs to a user program whose process has no error, and the table of its
stack is entered in the directory that is loaded. -/
structure Kernel.RunsUser (s : Kernel) (t : Thread) : Prop where
  current : s.currenttid ≠ -1
  thread : s.threads s.currenttid = some t
  user : t.privilegeLevel ≠ 0
  process : ∀ pid, s.currentps = some pid → ∃ p, s.processes pid = some p ∧ p.pid = pid ∧ p.procerr = 0
  stack : ∃ pde, s.mem.tables s.mem.cr3 t.stackpdi = some pde ∧ pde.flags / 2 % 4 = 3

/-- The page is missing in the stack of the thread. -/
def Kernel.StackHole (s : Kernel) (t : Thread) (a : ℕ) : Prop :=
  pageEntries s.mem a = none ∧ inStackRegion t.stackpdi a = true

/-- The page is present and writable, and not open to users. -/
def SupervisorPage (m : Mem) (a : ℕ) : Prop := storeAllowed m a = true ∧ userStoreAllowed m a = false

theorem inStackRegion_pdindex {stackpdi : ℕ} (h : inStackRegion stackpdi a = true) :
    pdindex a = stackpdi := by
  unfold inStackRegion at h
  rw [Bool.and_eq_true, decide_eq_true_iff, decide_eq_true_iff] at h
  unfold pdindex
  omega

theorem userStoreAllowed_store {m : Mem} (h : userStoreAllowed m a = true) :
    storeAllowed m a = true := by
  unfold userStoreAllowed at h
  unfold storeAllowed
  rw [Option.any_eq_true] at h ⊢
  obtain ⟨e, he, hflags⟩ := h
  refine ⟨e, he, ?_⟩
  simp only [Bool.and_eq_true, decide_eq_true_eq] at hflags ⊢
  omega

/-- A page that is mapped with the flags 7 is open to users. -/
theorem mkPte_user (physaddr : ℕ) :
    (mkPte physaddr (0x7 % 0x1000 ||| 1)).flags / 2 % 4 = 3 := by
  have hlow : ∀ x < 8, x ||| 7 = 7 := by decide
  have hmod : (physaddr % 0x1000 ||| 7) % 8 = 7 := by
    rw [show (8 : ℕ) = 2 ^ 3 from rfl, Nat.or_mod_two_pow]
    exact hlow _ (Nat.mod_lt _ (by decide))
  show (physaddr % 0x1000 ||| 7) / 2 % 4 = 3
  omega

/-- `sched_user_fault` answers the fault at a missing page of the stack with a page, if there is a
frame. -/
theorem Kernel.RunsUser.hole_filled (h : s.RunsUser t) (hhole : s.StackHole t a)
    (hframes : s.mem.pmemStack ≠ []) : ∃ mem, userStoreAllowed mem a = true ∧
      ∀ errorcode, errorcode % 2 = 0 →
        schedUserFault s 0x0E errorcode a = .ok { s with mem := mem } := by
  obtain ⟨pde, hpde, hflags⟩ := h.stack
  have hpd := inStackRegion_pdindex hhole.2
  have hpage : pdindex (a / 0x1000 * 0x1000) = pdindex a ∧
      ptindex (a / 0x1000 * 0x1000) = ptindex a := by
    unfold pdindex ptindex
    omega
  have hmissing : s.mem.tables pde.frame (ptindex a) = none := by
    have hnone := hhole.1
    unfold pageEntries at hnone
    rw [hpd, hpde] at hnone
    exact Option.map_eq_none_iff.mp hnone
  obtain ⟨page, rest, hstack⟩ := List.exists_cons_of_ne_nil hframes
  let mem : Mem := Mem.setEntry { s.mem with pmemStack := rest } pde.frame (ptindex a)
    (some (mkPte page (0x7 % 0x1000 ||| 1)))
  have hmap : vmmMapPage { s.mem with pmemStack := rest } page (a / 0x1000 * 0x1000) 0x7 false =
      .ok (0, mem) := by
    unfold vmmMapPage vmmMapPageF mapEntry
    simp only [hpage.1, hpage.2, hpd, hpde, hmissing]
    rfl
  refine ⟨mem, ?_, ?_⟩
  · have hdir : mem.tables mem.cr3 (pdindex a) = some pde := by
      show Function.update s.mem.tables pde.frame _ s.mem.cr3 (pdindex a) = _
      rw [hpd]
      by_cases hself : s.mem.cr3 = pde.frame
      · -- the directory is its own table: the entry that was missing is another one
        have hne : t.stackpdi ≠ ptindex a := by
          intro heq
          rw [← hself, ← heq, hpde] at hmissing
          cases hmissing
        rw [hself, Function.update_self, Function.update_of_ne hne, ← hself]
        exact hpde
      · rw [Function.update_of_ne hself]
        exact hpde
    have hentry : mem.tables pde.frame (ptindex a) = some (mkPte page (0x7 % 0x1000 ||| 1)) := by
      show Function.update s.mem.tables pde.frame _ pde.frame (ptindex a) = _
      rw [Function.update_self, Function.update_self]
    unfold userStoreAllowed pageEntries
    simp only [hdir, hentry, Option.map_some, Option.any_some, mkPte_user, hflags, decide_true,
      Bool.and_true]
  · intro errorcode hcode
    unfold schedUserFault
    rw [Kernel.threadAt_ok.mpr h.thread, ok_bind, if_pos ⟨rfl, hcode, hhole.2⟩]
    unfold pmmAllocPage
    rw [hstack]
    simp only [ok_bind, hmap]

theorem exitFaulted_not_resumed {s s' : Kernel} {procerr : ℕ} {f : Process → Process} :
    exitFaulted s procerr f ≠ .ok (.resume, s') := by
  intro h
  simp only [exitFaulted, bind_ok, Prod.exists, Except.ok.injEq, Prod.mk.injEq] at h
  obtain ⟨_, _, _, _, _, hend, -⟩ := h
  cases hend

/-- A process that has an error does not go on where it was. -/
theorem deliverError_not_resumed {s s' : Kernel} {um : UserMem} {r : Regs} {p : Process} :
    deliverError s um r p ≠ .ok (.resume, s') := by
  intro h
  unfold deliverError at h
  simp only at h
  split_ifs at h
  · exact exitFaulted_not_resumed h
  · exact exitFaulted_not_resumed h
  · exact exitFaulted_not_resumed h
  · simp only [bind_ok, Except.ok.injEq, Prod.mk.injEq] at h
    obtain ⟨_, _, hend, -⟩ := h
    cases hend
  · exact exitFaulted_not_resumed h

/-- Any other page fault of the program is an error of its process. -/
theorem Kernel.RunsUser.not_resumed (h : s.RunsUser t) {um : UserMem} {r : Regs} {cr2 : ℕ}
    (hnumber : r.intNo = 0x0E) (hstack : ¬(r.errCode % 2 = 0 ∧ inStackRegion t.stackpdi cr2 = true))
    (s' : Kernel) : exceptionHandle s um r cr2 ≠ .ok (.resume, s') := by
  intro hresume
  have hreport : exceptionReport s r cr2 = s.updateCurrent fun p => { p with procerr := 15 } := by
    unfold exceptionReport schedUserFault
    rw [if_neg h.current, Kernel.threadAt_ok.mpr h.thread, ok_bind, if_pos h.user, ok_bind, hnumber,
      if_neg fun hc => hstack hc.2, if_neg (by decide)]
    rfl
  unfold exceptionHandle at hresume
  rw [hreport] at hresume
  unfold Kernel.updateCurrent at hresume
  simp only [bind_ok, Kernel.currentProcess_ok] at hresume
  obtain ⟨s₁, ⟨p, ⟨pid, hcur, hp⟩, hset⟩, hresume⟩ := hresume
  obtain rfl := Except.ok.inj hset
  obtain ⟨p', hp', hpid, -⟩ := h.process pid hcur
  obtain rfl : p = p' := Option.some.inj (hp.symm.trans hp')
  subst hpid
  have hsome : (s.setProcess p.pid (some { p with procerr := 15 })).currentps ≠ none := by
    show s.currentps ≠ none
    rw [hcur]
    exact Option.some_ne_none _
  rw [if_neg hsome] at hresume
  simp only [bind_ok, Kernel.currentProcess_ok] at hresume
  obtain ⟨q, ⟨pid', hcur', hq⟩, hresume⟩ := hresume
  obtain rfl : p.pid = pid' := Option.some.inj (hcur.symm.trans hcur')
  rw [Kernel.setProcess_processes, Function.update_self] at hq
  obtain rfl := Option.some.inj hq
  rw [if_neg (show ¬(15 : ℕ) = 0 by decide)] at hresume
  by_cases hring : r.cs % 4 ≠ 0
  · rw [if_pos hring] at hresume
    exact deliverError_not_resumed hresume
  · rw [if_neg hring] at hresume
    cases hresume

/-- Without a frame, the kernel panics at a missing page of the stack. -/
theorem Kernel.RunsUser.no_frame (h : s.RunsUser t) (um : UserMem) {r : Regs} {cr2 : ℕ}
    (hnumber : r.intNo = 0x0E) (hcode : r.errCode % 2 = 0)
    (hstack : inStackRegion t.stackpdi cr2 = true) (hframes : s.mem.pmemStack = []) :
    exceptionHandle s um r cr2 = .error (.panic "Out of physical memory") := by
  unfold exceptionHandle exceptionReport schedUserFault
  rw [if_neg h.current, Kernel.threadAt_ok.mpr h.thread, ok_bind, if_pos h.user, ok_bind,
    if_pos ⟨hnumber, hcode, hstack⟩]
  unfold pmmAllocPage
  rw [hframes]
  rfl

/-- The program goes on after a page fault at which its stack has got a page. -/
theorem Kernel.RunsUser.resumed (h : s.RunsUser t) (um : UserMem) {r : Regs} {cr2 : ℕ}
    (hnumber : r.intNo = 0x0E) {mem : Mem}
    (hfault : schedUserFault s 0x0E r.errCode cr2 = .ok { s with mem := mem }) :
    exceptionHandle s um r cr2 = .ok (.resume, { s with mem := mem }) := by
  have hreport : exceptionReport s r cr2 = .ok { s with mem := mem } := by
    unfold exceptionReport
    rw [if_neg h.current, Kernel.threadAt_ok.mpr h.thread, ok_bind, if_pos h.user, hnumber]
    exact hfault
  unfold exceptionHandle
  rw [hreport, ok_bind]
  by_cases hnone : s.currentps = none
  · exact if_pos hnone
  · obtain ⟨pid, hcur⟩ := Option.ne_none_iff_exists'.mp hnone
    obtain ⟨p, hp, -, hcalm⟩ := h.process pid hcur
    have hproc : Kernel.currentProcess { s with mem := mem } = .ok p :=
      Kernel.currentProcess_ok.mpr ⟨pid, hcur, hp⟩
    rw [if_neg hnone, hproc, ok_bind, if_pos hcalm]

/-! ### The two stores -/

/-- The present bit of the error code of a store. -/
theorem Regs.atFault_present (r : Regs) (m : Mem) (a : ℕ) :
    (r.atFault m a).errCode % 2 = 0 ↔ pageEntries m a = none := by
  unfold Regs.atFault
  cases hpage : pageEntries m a <;> cases huser : r.user <;> simp

/-- What the second part of a store of the program ends in, after the page fault. -/
theorem Kernel.RunsUser.fault_iff (h : s.RunsUser t) (code : SafecpyAsm) (um : UserMem) {r : Regs}
    (hr : r.InProgram) : (∃ s', isr14 code s um (r.atFault s.mem a) a = .ok (some (.resume, s')) ∧
      userStoreAllowed s'.mem a = true) ↔ s.StackHole t a ∧ s.mem.pmemStack ≠ [] := by
  have heip : ¬((r.atFault s.mem a).eip = code.inst ∨ (r.atFault s.mem a).eip = code.instb) := by
    have h1 : (r.atFault s.mem a).eip < kernelStart := hr.eip
    have h2 := code.inst_kernel
    have h3 := code.instb_kernel
    omega
  have hisr : isr14 code s um (r.atFault s.mem a) a =
      exceptionHandle s um (r.atFault s.mem a) a >>= fun x => .ok (some x) := if_neg heip
  have hpresent := r.atFault_present s.mem a
  rw [hisr]
  constructor
  · rintro ⟨s', hresume, -⟩
    obtain ⟨x, hx, hsome⟩ := bind_ok.mp hresume
    obtain rfl := Option.some.inj (Except.ok.inj hsome)
    by_cases hhole : s.StackHole t a
    · refine ⟨hhole, fun hframes => ?_⟩
      have herr := h.no_frame um rfl (hpresent.mpr hhole.1) hhole.2 hframes
      rw [hx] at herr
      cases herr
    · refine absurd hx (h.not_resumed rfl ?_ s')
      exact fun hc => hhole ⟨hpresent.mp hc.1, hc.2⟩
  · rintro ⟨hhole, hframes⟩
    obtain ⟨mem, hmem, hfault⟩ := h.hole_filled hhole hframes
    have hresumed := h.resumed um (r := r.atFault s.mem a) rfl
      (hfault _ (hpresent.mpr hhole.1))
    rw [hresumed]
    exact ⟨_, rfl, hmem⟩

/-- A store of the program succeeds if the page is open to it or can be added to its stack. -/
theorem Kernel.RunsUser.storeByte_iff (h : s.RunsUser t) {code : SafecpyAsm} {um : UserMem} {r : Regs}
    (hr : r.InProgram) : storeByte code s um r a = true ↔
      userStoreAllowed s.mem a = true ∨ (s.StackHole t a ∧ s.mem.pmemStack ≠ []) := by
  have hreach : ∀ m, storeReaches m r a = userStoreAllowed m a := fun m => if_pos hr.ring
  rw [← h.fault_iff code um hr]
  unfold storeByte
  rw [hreach]
  cases userStoreAllowed s.mem a with
  | true => exact ⟨fun _ => .inl rfl, fun _ => rfl⟩
  | false =>
      rw [if_neg Bool.false_ne_true]
      constructor
      · intro hstore
        refine .inr ?_
        split at hstore
        · rename_i s' hisr
          exact ⟨s', hisr, (hreach s'.mem).symm.trans hstore⟩
        · exact absurd hstore Bool.false_ne_true
      · intro hor
        cases hor with
        | inl hfalse => exact absurd hfalse Bool.false_ne_true
        | inr hstore =>
            obtain ⟨s', hisr, hallowed⟩ := hstore
            rw [hisr]
            exact (hreach s'.mem).trans hallowed

/-! ### The running program -/

/-- `vmm_switch_stack` enters the stack of a thread in its directory when the thread is selected. -/
theorem vmmSwitchStack_entered {m m' : Mem} {cr3Virt stackpdi stackpt : ℕ}
    (h : vmmSwitchStack m cr3Virt stackpdi stackpt = .ok m') :
    ∃ pde, m'.tables (vmmGetPhysaddr m cr3Virt) stackpdi = some pde ∧ pde.flags / 2 % 4 = 3 := by
  unfold vmmSwitchStack at h
  simp only at h
  split_ifs at h with hnull
  obtain rfl := Except.ok.inj h
  refine ⟨mkPte (vmmGetPhysaddr m stackpt) 0x7, ?_, mkPte_user _⟩
  show Function.update m.tables _ _ _ _ = _
  rw [Function.update_self, Function.update_self]

/-- While a thread of a user program runs, no error of its process is pending. -/
theorem MachineInv.runsUser {m : Machine} (h : MachineInv m) (hrun : m.leaving = false)
    (ht : m.kernel.threads m.kernel.currenttid = some t) (huser : t.privilegeLevel ≠ 0)
    (hstack : ∃ pde, m.kernel.mem.tables m.kernel.mem.cr3 t.stackpdi = some pde ∧
      pde.flags / 2 % 4 = 3) : m.kernel.RunsUser t := by
  refine ⟨?_, ht, huser, fun pid hcur => ?_, hstack⟩
  · have hrange := (h.tables.tid _ t ht).1.1
    omega
  · obtain ⟨p, hp, -⟩ := h.current hrun pid hcur
    exact ⟨p, hp, (h.tables.pid pid p hp).1, h.calm pid p hp⟩

/-- A thread of a user program runs, the address lies in its stack, and a frame is free. -/
def Machine.InStack (m : Machine) (a : ℕ) : Prop :=
  m.leaving = false ∧ m.kernel.mem.pmemStack ≠ [] ∧
    ∃ t ∈ m.kernel.threads m.kernel.currenttid, t.privilegeLevel ≠ 0 ∧
      inStackRegion t.stackpdi a = true ∧
        ∃ pde ∈ m.kernel.mem.tables m.kernel.mem.cr3 t.stackpdi, pde.flags / 2 % 4 = 3

instance (m : Machine) (a : ℕ) : Decidable (m.InStack a) :=
  inferInstanceAs (Decidable (_ ∧ _))

theorem Machine.InStack.runsUser {m : Machine} (h : m.InStack a) (hm : MachineReach m) :
    ∃ t, m.kernel.RunsUser t ∧ inStackRegion t.stackpdi a = true := by
  obtain ⟨hrun, -, t, ht, huser, hregion, pde, hpde, hflags⟩ := h
  exact ⟨t, hm.inv.runsUser hrun ht huser ⟨pde, hpde, hflags⟩, hregion⟩

theorem divideRegs_inProgram : divideRegs.InProgram := ⟨by decide, rfl⟩

/-- `safecpy_asm` in the text of the kernel. -/
def sampleSafecpy : SafecpyAsm := ⟨0xC0101000, 0xC0101002, by decide, by decide⟩

/-! ### The two stores at one address -/

/-- The store of `safecpy_asm` to one byte agrees with a store of the running program, except at a
page of the program's stack that could be allocated and at a page that is writable for the kernel
only. -/
theorem safecpyToUser_agrees_iff (h : s.RunsUser t) (code : SafecpyAsm) (um : UserMem) {r : Regs}
    (hr : r.InProgram) (byte : ℕ → UInt8) (ha : a < kernelStart) (b : UInt8) :
    ((safecpyToUser (s.mem.userMem byte) a [b]).1 = 0 ↔ storeByte code s um r a = true) ↔
      ¬SupervisorPage s.mem a ∧ ¬(s.StackHole t a ∧ s.mem.pmemStack ≠ []) := by
  have hmissing : s.StackHole t a → storeAllowed s.mem a = false ∧ userStoreAllowed s.mem a = false := by
    intro hhole
    unfold storeAllowed userStoreAllowed
    rw [hhole.1]
    exact ⟨rfl, rfl⟩
  rw [safecpyToUser_one byte ha b, h.storeByte_iff hr]
  constructor
  · intro hagree
    constructor
    · rintro ⟨hallowed, huser⟩
      cases hagree.mp hallowed with
      | inl hstore => exact absurd (huser.symm.trans hstore) Bool.false_ne_true
      | inr hhole => exact absurd ((hmissing hhole.1).1.symm.trans hallowed) Bool.false_ne_true
    · intro hhole
      exact absurd ((hmissing hhole.1).1.symm.trans (hagree.mpr (.inr hhole))) Bool.false_ne_true
  · rintro ⟨hsupervisor, hhole⟩
    constructor
    · intro hallowed
      refine .inl (Bool.of_not_eq_false fun huser => ?_)
      exact hsupervisor ⟨hallowed, huser⟩
    · intro hor
      cases hor with
      | inl huser => exact userStoreAllowed_store huser
      | inr hfill => exact absurd hfill hhole

/-- Once the program has stored to the top of its stack, both stores succeed there. -/
theorem safecpyToUser_agrees_top : ∃ m : Machine, MachineReach m ∧ m.InStack 0xBFFFFF00 ∧
    ((safecpyToUser (m.kernel.mem.userMem fun _ => 0) 0xBFFFFF00 [1]).1 = 0 ↔
      storeByte sampleSafecpy m.kernel flatMemory divideRegs 0xBFFFFF00 = true) := by
  have hrun : BootRuns (fun s => ⟨s, false, fun _ => false, fun _ => false⟩) Machine.exec
      (fun m a => a.Allowed m)
      (fun m => m.InStack 0xBFFFFF00 ∧ userStoreAllowed m.kernel.mem 0xBFFFFF00 = true)
      (handlerRun ++ [.exception flatMemory { divideRegs with intNo := 0x0E, errCode := 6 }
        0xBFFFFF00]) := by
    decide +kernel
  obtain ⟨m, hm, hstack, hallowed⟩ := machine_reach hrun
  obtain ⟨t, ht, -⟩ := hstack.runsUser hm
  refine ⟨m, hm, hstack, (safecpyToUser_agrees_iff ht sampleSafecpy flatMemory divideRegs_inProgram _
    (by decide) 1).mpr ⟨?_, ?_⟩⟩
  · exact fun hsupervisor => absurd (hsupervisor.2.symm.trans hallowed) Bool.false_ne_true
  · rintro ⟨hhole, -⟩
    unfold userStoreAllowed at hallowed
    rw [hhole.1] at hallowed
    exact absurd hallowed Bool.false_ne_true

/-- Before that, the program can store there and `safecpy_to_user` fails. -/
theorem safecpyToUser_untouched : ∃ m : Machine, MachineReach m ∧ m.InStack 0xBFFFFF00 ∧
    (safecpyToUser (m.kernel.mem.userMem fun _ => 0) 0xBFFFFF00 [1]).1 ≠ 0 ∧
      storeByte sampleSafecpy m.kernel flatMemory divideRegs 0xBFFFFF00 = true := by
  have hrun : BootRuns (fun s => ⟨s, false, fun _ => false, fun _ => false⟩) Machine.exec
      (fun m a => a.Allowed m)
      (fun m => m.InStack 0xBFFFFF00 ∧ pageEntries m.kernel.mem 0xBFFFFF00 = none)
      handlerRun := by
    decide +kernel
  obtain ⟨m, hm, hstack, hmissing⟩ := machine_reach hrun
  obtain ⟨t, ht, hregion⟩ := hstack.runsUser hm
  refine ⟨m, hm, hstack, ?_, (ht.storeByte_iff divideRegs_inProgram).mpr ?_⟩
  · rw [Ne, safecpyToUser_one _ (by decide)]
    unfold storeAllowed
    rw [hmissing]
    exact Bool.false_ne_true
  · exact .inr ⟨⟨hmissing, hregion⟩, hstack.2.1⟩

end GalaxyOS
