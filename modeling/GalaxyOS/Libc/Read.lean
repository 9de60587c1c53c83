import GalaxyOS.Syscall.Read
import GalaxyOS.Fs.Drivers

/-! # `read` of the C library

The kernel returns 0 from `read` when no key has been pressed, and the library then repeats the
system call.  The kernel also returns 0 at the end of a file and for a count of 0, and the library
repeats those calls as well.

Between two calls of the loop the rest of the system may do anything; `env` relates the state that a
call leaves to those in which the next one can be made.  `libc_read_iff` says for which calls `read`
keeps its promises.

`SystemState.AtEnd.call` and `keyboard_call` are the two ways to get 0 from the kernel, and
`not_returns_zero` is the call that is repeated for ever. -/

namespace GalaxyOS

open Transition

variable {ι δ : Type}

/-! ### The loop -/

/-- One system call with these arguments, whatever the memory of the caller holds: the result `r` and
the state `s'`. -/
def ReadCall (s : SystemState ι δ) (args : SyscallArgs) (r : Int) (s' : SystemState ι δ) : Prop :=
  ∃ byte junk um', syscallRead s (s.files.kernel.mem.userMem byte) args junk = .ok (r, um', s')

/-- `read` called in the state `s` returns `r`, having made its last system call in `s₁`. -/
inductive LibcRead (env : SystemState ι δ → SystemState ι δ → Prop) (args : SyscallArgs) :
    SystemState ι δ → Int → SystemState ι δ → Prop
  | last {s s' : SystemState ι δ} {r : Int} : ReadCall s args r s' → r ≠ 0 →
      LibcRead env args s r s
  | again {s s' s'' s₁ : SystemState ι δ} {r : Int} : ReadCall s args 0 s' → env s' s'' →
      LibcRead env args s'' r s₁ → LibcRead env args s r s₁

/-- `read` called in the state `s` returns after finitely many system calls, whatever happens between
them. -/
inductive LibcReturns (env : SystemState ι δ → SystemState ι δ → Prop) (args : SyscallArgs) :
    SystemState ι δ → Prop
  | intro {s : SystemState ι δ} :
      (∀ byte junk, ∃ result, syscallRead s (s.files.kernel.mem.userMem byte) args junk = .ok result) →
      (∀ s', ReadCall s args 0 s' → ∀ s'', env s' s'' → LibcReturns env args s'') →
      LibcReturns env args s

/-- The descriptor is that of the open file `o` of the current process. -/
def SystemState.Opened (s : SystemState ι δ) (args : SyscallArgs) (o : VfsFileOpen ι δ) : Prop :=
  (args.int 0 ≠ 0 ∧ args.int 0 ≠ 1 ∧ args.int 0 ≠ 2) ∧
    ∃ pid a, s.files.kernel.currentps = some pid ∧ s.files.kernel.processes pid ≠ none ∧
      (s.files.table pid).lookup (args.int 0 - 3) = some a ∧ s.files.openAt a = some o

/-- The offset equals the size of the file, and the buffer lies in user space. -/
def SystemState.AtEnd (s : SystemState ι δ) (args : SyscallArgs) : Prop :=
  userBufferOk (args 1).toNat (ioCount args) = true ∧
    ∃ o, s.Opened args o ∧ o.loc = (s.files.info o.file).size

/-- What `read` promises of a call in the state `s`. -/
structure ReadPromise (env : SystemState ι δ → SystemState ι δ → Prop) (s : SystemState ι δ)
    (args : SyscallArgs) : Prop where
  /-- It returns if the count is 0 or it reads an open file. -/
  returns : (args 2 = 0 ∨ ∃ o, s.Opened args o) → LibcReturns env args s
  /-- It returns 0 if the count is 0 or it reads at the end of the file. -/
  ends : (args 2 = 0 ∨ s.AtEnd args) → ∀ r s₁, LibcRead env args s r s₁ → r = 0
  /-- It returns from the keyboard with at least one character that has been typed, or because it
  cannot store them. -/
  keyboard : args.int 0 = 0 → args 2 ≠ 0 → ∀ r s₁, LibcRead env args s r s₁ →
    r = -EFAULT ∨ 1 ≤ r ∧ s₁.keyboard.keybufStart ≠ s₁.keyboard.keybufEnd

/-- Every open file has one of the drivers of the kernel. -/
def SystemState.DriversRegistered (s : SystemState ι δ) : Prop :=
  ∀ a o, s.files.openAt a = some o → Registered (fun f => (s.files.info f).size) o.fsdriver

/-! ### Calls through an open file -/

theorem syscallRead_zero_count (s : SystemState ι δ) (um : UserMem) {args : SyscallArgs}
    (junk : ℕ → UInt8) (h : args 2 = 0) : syscallRead s um args junk = .ok (0, um, s) := by
  unfold syscallRead
  rw [if_pos h]

theorem syscallRead_bad_buffer (s : SystemState ι δ) (um : UserMem) {args : SyscallArgs}
    (junk : ℕ → UInt8) (h : args 2 ≠ 0)
    (hbuf : ¬userBufferOk (args 1).toNat (ioCount args) = true) :
    syscallRead s um args junk = .ok (-EFAULT, um, s) := by
  unfold syscallRead
  rw [if_neg h]
  simp [hbuf]

theorem ioCount_lt (args : SyscallArgs) : ioCount args < 0x100000000 := by
  unfold ioCount maxSyscallIoSize
  omega

/-- The driver has nothing to read exactly at the end of the file. -/
theorem driverResult_eq_zero {s : SystemState ι δ} {args : SyscallArgs} {o : VfsFileOpen ι δ} {a : ℕ}
    (hreg : s.DriversRegistered) (ho : s.files.openAt a = some o) (h : args 2 ≠ 0)
    (junk : ℕ → UInt8) :
    s.driverResult o args junk = 0 ↔ o.loc = (s.files.info o.file).size := by
  unfold SystemState.driverResult VfsFileOpen.access
  rw [(hreg a o ho).zero_iff, accessBytes_eq_zero (s.files.info o.file).size_lt (ioCount_lt args)
    o.loc_lt]
  have := ioCount_ne_zero h
  omega

theorem readCopy_zero (um : UserMem) (buf count : ℕ) (newbuf : List UInt8) :
    readCopy um buf count 0 newbuf = (0, um) := rfl

theorem readCopy_result (um : UserMem) (buf count : ℕ) (retval : Int) (newbuf : List UInt8) :
    (readCopy um buf count retval newbuf).1 = retval ∨
      (readCopy um buf count retval newbuf).1 = -EFAULT := by
  unfold readCopy
  generalize (if retval > 0 then min retval.toNat count else 0) = copycount
  simp only
  by_cases hzero : copycount = 0
  · rw [if_pos hzero]
    exact .inl rfl
  · rw [if_neg hzero]
    split_ifs
    · exact .inr rfl
    · exact .inl rfl

/-- A call that is not at the end of its file does not return 0. -/
theorem opened_ne_zero {s : SystemState ι δ} {args : SyscallArgs} {o : VfsFileOpen ι δ}
    (hreg : s.DriversRegistered) (hopen : s.Opened args o) (h : args 2 ≠ 0) (hend : ¬s.AtEnd args)
    (um : UserMem) (junk : ℕ → UInt8) :
    ∃ r um' s', syscallRead s um args junk = .ok (r, um', s') ∧ r ≠ 0 := by
  by_cases hbuf : userBufferOk (args 1).toNat (ioCount args) = true
  · obtain ⟨hfd, pid, a, hcur, hlive, ha, ho⟩ := hopen
    obtain ⟨newbuf, dev, -, hcall⟩ := syscallRead_file um junk h hbuf hfd hcur hlive ha ho
    refine ⟨_, _, _, hcall, fun h0 => hend ⟨hbuf, o, ⟨hfd, pid, a, hcur, hlive, ha, ho⟩, ?_⟩⟩
    obtain hr | hr := readCopy_result um (args 1).toNat (ioCount args) (s.driverResult o args junk) newbuf
    · exact (driverResult_eq_zero hreg ho h junk).mp (hr.symm.trans h0)
    · exact absurd (hr.symm.trans h0) (by decide)
  · exact ⟨_, _, _, syscallRead_bad_buffer s um junk h hbuf, by decide⟩

/-- A call at the end of its file returns 0 and leaves the file there. -/
theorem SystemState.AtEnd.call {s : SystemState ι δ} {args : SyscallArgs} (hreg : s.DriversRegistered)
    (hend : s.AtEnd args) (h : args 2 ≠ 0) (um : UserMem) (junk : ℕ → UInt8) :
    ∃ um' s', syscallRead s um args junk = .ok (0, um', s') ∧ s'.AtEnd args ∧
      s'.DriversRegistered := by
  obtain ⟨hbuf, o, ⟨hfd, pid, a, hcur, hlive, ha, ho⟩, hloc⟩ := hend
  obtain ⟨newbuf, dev, -, hcall⟩ := syscallRead_file um junk h hbuf hfd hcur hlive ha ho
  have hzero := (driverResult_eq_zero hreg ho h junk).mpr hloc
  rw [hzero, readCopy_zero] at hcall
  have hmove : (o.move 0).loc = o.loc := by
    have := o.loc_lt
    rw [VfsFileOpen.move_loc]
    unfold regOfInt
    omega
  refine ⟨um, _, hcall, ⟨hbuf, o.move 0, ⟨hfd, pid, a, hcur, hlive, ha, ?_⟩, ?_⟩, ?_⟩
  · exact Function.update_self ..
  · rw [hmove]
    exact hloc
  · intro a' o' ho'
    simp only [FileLayer.accessed, Function.update_apply] at ho'
    split_ifs at ho' with heq
    · obtain rfl := Option.some.inj ho'
      exact hreg a o ho
    · exact hreg a' o' ho'

/-! ### The keyboard -/

theorem ps2kbReadChars_ne_nil {kb : Keyboard} {size : ℕ} (h : (ps2kbReadChars kb size).1 ≠ []) :
    kb.keybufStart ≠ kb.keybufEnd := by
  intro heq
  cases size with
  | zero => exact h rfl
  | succ size =>
      unfold ps2kbReadChars at h
      rw [if_pos heq] at h
      exact h rfl

/-- A call on the keyboard that does not return 0 has failed to store the characters, or there were
some. -/
theorem keyboard_call {s s' : SystemState ι δ} {args : SyscallArgs} {r : Int} (h0 : args.int 0 = 0)
    (h2 : args 2 ≠ 0) (hcall : ReadCall s args r s') (hr : r ≠ 0) :
    r = -EFAULT ∨ 1 ≤ r ∧ s.keyboard.keybufStart ≠ s.keyboard.keybufEnd := by
  obtain ⟨byte, junk, um', h⟩ := hcall
  by_cases hbuf : userBufferOk (args 1).toNat (ioCount args) = true
  · unfold syscallRead at h
    simp only [if_neg h2, hbuf, Bool.not_true, Bool.false_eq_true, if_false, h0, if_true] at h
    unfold readStdin at h
    split_ifs at h with hw
    · exact .inl (Prod.mk.inj (Except.ok.inj h)).1.symm
    · simp only [bind_ok, Except.ok.injEq, Prod.mk.injEq] at h
      obtain ⟨p, -, kernel, -, rfl, -, -⟩ := h
      obtain hresult | hresult := readCopy_result (s.files.kernel.mem.userMem byte) (args 1).toNat
        (ioCount args) (ps2kbReadChars s.keyboard (ioCount args)).1.length
        (ps2kbReadChars s.keyboard (ioCount args)).1
      · rw [hresult] at hr ⊢
        have hne : (ps2kbReadChars s.keyboard (ioCount args)).1 ≠ [] := by
          intro hnil
          rw [hnil] at hr
          exact hr rfl
        have hpos := List.length_pos_of_ne_nil hne
        exact .inr ⟨by omega, ps2kbReadChars_ne_nil hne⟩
      · exact .inl hresult
  · rw [syscallRead_bad_buffer s _ junk h2 hbuf] at h
    exact .inl (Prod.mk.inj (Except.ok.inj h)).1.symm

theorem LibcRead.keyboard {env : SystemState ι δ → SystemState ι δ → Prop} {args : SyscallArgs}
    {s s₁ : SystemState ι δ} {r : Int} (h0 : args.int 0 = 0) (h2 : args 2 ≠ 0)
    (h : LibcRead env args s r s₁) :
    r = -EFAULT ∨ 1 ≤ r ∧ s₁.keyboard.keybufStart ≠ s₁.keyboard.keybufEnd := by
  induction h with
  | last hcall hr => exact keyboard_call h0 h2 hcall hr
  | again _ _ _ ih => exact ih

/-! ### Calls that are repeated for ever -/

section

variable {env : SystemState ι δ → SystemState ι δ → Prop} {args : SyscallArgs} {s : SystemState ι δ}

/-- With a count of 0, the library repeats the call until something else changes the state, and then
again. -/
theorem not_returns_zero (henv : ∀ s, env s s) (h : args 2 = 0) : ¬LibcReturns env args s := by
  intro hret
  induction hret with
  | @intro s _ _ ih =>
      exact ih s ⟨fun _ => 0, fun _ => 0, _, syscallRead_zero_count s _ _ h⟩ s (henv s)

theorem not_returns_atEnd (henv : ∀ s, env s s) (h2 : args 2 ≠ 0) (hend : s.AtEnd args)
    (hreg : s.DriversRegistered) : ¬LibcReturns env args s := by
  intro hret
  induction hret with
  | @intro s _ _ ih =>
      obtain ⟨um', s', hcall, hend', hreg'⟩ := hend.call hreg h2
        (s.files.kernel.mem.userMem fun _ => 0) fun _ => 0
      exact ih s' ⟨_, _, um', hcall⟩ s' (henv s') hend' hreg'

/-- `read` keeps its promises exactly if the count is not 0 and it does not read at the end of a
file. -/
theorem libc_read_iff (henv : ∀ s, env s s) (hreg : s.DriversRegistered) :
    ReadPromise env s args ↔ args 2 ≠ 0 ∧ ¬s.AtEnd args := by
  constructor
  · intro h
    have h2 : args 2 ≠ 0 := fun h2 => not_returns_zero henv h2 (h.returns (.inl h2))
    refine ⟨h2, fun hend => not_returns_atEnd henv h2 hend hreg (h.returns (.inr ?_))⟩
    obtain ⟨-, o, ho, -⟩ := hend
    exact ⟨o, ho⟩
  · rintro ⟨h2, hend⟩
    refine ⟨?_, ?_, fun h0 _ r s₁ h => h.keyboard h0 h2⟩
    · rintro (h | ⟨o, ho⟩)
      · exact absurd h h2
      · have hcall := opened_ne_zero hreg ho h2 hend
        constructor
        · intro byte junk
          obtain ⟨r, um', s', hok, -⟩ := hcall (s.files.kernel.mem.userMem byte) junk
          exact ⟨_, hok⟩
        · rintro s' ⟨byte, junk, um', hok⟩
          obtain ⟨r, um₁, s₁, hok', hr⟩ := hcall (s.files.kernel.mem.userMem byte) junk
          exact absurd (Prod.mk.inj (Except.ok.inj (hok'.symm.trans hok))).1 hr
    · rintro (h | h)
      · exact absurd h h2
      · exact absurd h hend

end

theorem emptyFile_size : 0 < 0x100000000 := by decide

theorem emptyFile_blocksize : 0 < 512 := by decide

/-- An empty file on a FAT volume. -/
def emptyFile : VfsFileInfo Unit Unit where
  size := 0
  opens := 1
  fsdriver := vfatVfsdrvinfo floppy (fun _ => FatFile.oneBlock 512 0) (fun _ => 0) fun _ => 0
  blocksize := 512
  size_lt := emptyFile_size
  blocksize_pos := emptyFile_blocksize

/-- The kernel `k` with that file open as descriptor 3 of every process. -/
def emptyFileOpen (k : Kernel) : SystemState Unit Unit where
  files :=
    { kernel := k, vfs := motdVolume, info := fun _ => emptyFile, dev := ()
      openAt := fun a => if a = 0 then some (emptyFile.openFile () 0 0) else none
      nextOpen := 1, table := fun _ => ⟨[some 0], 32⟩ }
  keyboard := (motdSystem k).keyboard

theorem emptyFileOpen_registered (k : Kernel) : (emptyFileOpen k).DriversRegistered := by
  intro a o ho
  simp only [emptyFileOpen] at ho
  split_ifs at ho
  obtain rfl := Option.some.inj ho
  exact .vfat floppy (fun _ => FatFile.oneBlock 512 0) fun _ => 0

/-- Process 1 reads an empty file, and `read` does not return. -/
theorem libc_read_repeats : ¬∀ (env : SystemState Unit Unit → SystemState Unit Unit → Prop)
    (s : SystemState Unit Unit) (args : SyscallArgs), (∀ s, env s s) → s.DriversRegistered →
      ReadPromise env s args := by
  intro h
  obtain ⟨k, -, hcur, hlive, -⟩ := motd_process
  have hopen : (emptyFileOpen k).Opened motdArgs (emptyFile.openFile () 0 0) :=
    ⟨⟨by decide, by decide, by decide⟩, 1, 0, hcur, hlive, rfl, rfl⟩
  have hpromise := h Eq (emptyFileOpen k) motdArgs (fun _ => rfl) (emptyFileOpen_registered k)
  exact not_returns_atEnd (fun _ => rfl) (by decide) ⟨by decide, _, hopen, rfl⟩
    (emptyFileOpen_registered k) (hpromise.returns (.inr ⟨_, hopen⟩))

/-- Read up to 8 characters from the keyboard. -/
def keyboardArgs : SyscallArgs := fun i => if i = 0 then 0 else if i = 1 then 0x1000 else 8

theorem libc_read_keyboard : ∃ k, ReadPromise Eq (emptyFileOpen k) keyboardArgs := by
  obtain ⟨k, -⟩ := motd_process
  refine ⟨k, (libc_read_iff (fun _ => rfl) (emptyFileOpen_registered k)).mpr ⟨by decide, ?_⟩⟩
  rintro ⟨-, o, ⟨⟨h0, -⟩, -⟩, -⟩
  exact h0 rfl

end GalaxyOS
