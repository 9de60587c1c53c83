import GalaxyOS.Receive
import GalaxyOS.Fs.Offsets

/-! # The read system call

`syscall_read` reads from the keyboard or through an open file into a kernel buffer and copies what
it got to the user's.  Before it takes characters from the keyboard it looks up the pages of the
destination, so that the copy cannot fault.  A file is read first: when the copy faults, the offset
has already moved.

`read_keeps_iff` says which calls that return `-EFAULT` have consumed nothing.

It follows from `readStdin_unread` for the keyboard and from `syscallRead_file` for a file, where
`safecpyToUser_fault` says when the copy faults. -/

namespace GalaxyOS

open Transition

/-! ### User pages -/

/-- The entries of the page directory and of the page table for an address. -/
def pageEntries (m : Mem) (virtualaddr : ℕ) : Option (Pte × Pte) :=
  match m.tables m.cr3 (pdindex virtualaddr) with
  | none => none
  | some pde => (m.tables pde.frame (ptindex virtualaddr)).map fun pte => (pde, pte)

/-- The processor lets ring 0 store to the page, with the write-protect bit of `cr0` set. -/
def storeAllowed (m : Mem) (virtualaddr : ℕ) : Bool :=
  (pageEntries m virtualaddr).any fun e => e.1.flags / 2 % 2 = 1 && e.2.flags / 2 % 2 = 1

/-- Memory with the contents `byte`, as the page tables let ring 0 access it. -/
def Mem.userMem (m : Mem) (byte : ℕ → UInt8) : UserMem :=
  { byte := byte
    readable := fun a => (pageEntries m a).isSome
    writable := storeAllowed m
    touched := [] }

/-- The check of one page in `vmm_user_range_writable`: present, writable and user-accessible. -/
def userPageWritable (m : Mem) (page : ℕ) : Bool :=
  (pageEntries m page).any fun e => e.1.flags % 8 = 7 && e.2.flags % 8 = 7

/-- The loop of `vmm_user_range_writable`, with `n` pages after this one. -/
def userPagesWritable (m : Mem) : ℕ → ℕ → Bool
  | 0, page => userPageWritable m page
  | n + 1, page => userPageWritable m page && userPagesWritable m n (page + 0x1000)

/-- `vmm_user_range_writable`. -/
def vmmUserRangeWritable (m : Mem) (virtualaddr size : ℕ) : Bool :=
  if size = 0 then true
  else if virtualaddr ≥ kernelStart then false
  else if size > kernelStart - virtualaddr then false
  else
    let start := virtualaddr / 0x1000 * 0x1000
    let last := (virtualaddr + size - 1) / 0x1000 * 0x1000
    userPagesWritable m ((last - start) / 0x1000) start

/-! ### The keyboard -/

/-- The buffer of `ps2kb.c`. -/
structure Keyboard where
  keybuf : Fin 1024 → UInt8
  keybufStart : Fin 1024
  keybufEnd : Fin 1024

/-- `ps2kb_read_chars`. -/
def ps2kbReadChars (kb : Keyboard) : ℕ → List UInt8 × Keyboard
  | 0 => ([], kb)
  | size + 1 =>
      if kb.keybufStart = kb.keybufEnd then ([], kb)
      else
        let (chars, kb') := ps2kbReadChars { kb with keybufStart := kb.keybufStart + 1 } size
        (kb.keybuf kb.keybufStart :: chars, kb')

/-! ### The call -/

/-- The kernel with its file layer and the keyboard. -/
structure SystemState (ι δ : Type) where
  files : FileLayer ι δ
  keyboard : Keyboard

/-- The arguments of a system call, which come from registers. -/
abbrev SyscallArgs := Fin 6 → UInt32

instance neZeroArgs : @NeZero ℕ Zero.ofOfNat0 6 := ⟨by decide⟩

/-- An argument as a C `int`. -/
def SyscallArgs.int (args : SyscallArgs) (i : Fin 6) : Int := intOfReg (args i).toNat

/-- `MAX_SYSCALL_IO_SIZE`. -/
def maxSyscallIoSize : ℕ := 0x100000

/-- `user_buffer_ok`. -/
def userBufferOk (ptr size : ℕ) : Bool :=
  if size = 0 then true
  else if ptr ≥ kernelStart then false
  else decide (size ≤ kernelStart - ptr)

/-- The number of bytes to transfer. -/
def ioCount (args : SyscallArgs) : ℕ := min (args 2).toNat maxSyscallIoSize

variable {ι δ : Type}

/-- The end of `syscall_read`: copy what the driver produced. -/
def readCopy (um : UserMem) (buf count : ℕ) (retval : Int) (newbuf : List UInt8) : Int × UserMem :=
  let copycount := if retval > 0 then min retval.toNat count else 0
  if copycount = 0 then (retval, um)
  else
    match safecpyToUser um buf (newbuf.take copycount) with
    | (r, um') => if r = -1 then (-EFAULT, um') else (retval, um')

/-- A thread that has read nothing sleeps until the keyboard interrupt. -/
def waitForKey (s : Kernel) (charsRead : ℕ) : Except Fault Kernel :=
  if charsRead = 0 then schedSuspendThread s 1 s.currenttid else .ok s

/-- Reading from the keyboard. -/
def readStdin (s : SystemState ι δ) (um : UserMem) (buf count : ℕ) :
    Except Fault (Int × UserMem × SystemState ι δ) :=
  -- don't block for a keypress if the destination isn't writable
  if !vmmUserRangeWritable s.files.kernel.mem buf count then .ok (-EFAULT, um, s)
  else do
    let _ ← s.files.kernel.currentProcess
    let (chars, keyboard) := ps2kbReadChars s.keyboard count
    let kernel ← waitForKey s.files.kernel chars.length
    let (r, um') := readCopy um buf count chars.length chars
    .ok (r, um', { files := { s.files with kernel := kernel }, keyboard := keyboard })

/-- `syscall_read`; `junk` is what the kernel buffer holds when it is allocated. -/
def syscallRead (s : SystemState ι δ) (um : UserMem) (args : SyscallArgs) (junk : ℕ → UInt8) :
    Except Fault (Int × UserMem × SystemState ι δ) :=
  if args 2 = 0 then .ok (0, um, s)
  else
    let buf := (args 1).toNat
    let count := ioCount args
    if !userBufferOk buf count then .ok (-EFAULT, um, s)
    else if args.int 0 = 0 then readStdin s um buf count
    else if args.int 0 = 1 ∨ args.int 0 = 2 then .ok (0, um, s)
    else do
      let (retval, newbuf, files) ←
        vfsRead s.files (args.int 0 - 3) ((List.range count).map junk) count
      let (r, um') := readCopy um buf count retval newbuf
      .ok (r, um', { s with files := files })

/-! ### Pages that can be stored to -/

theorem pageEntries_page (m : Mem) (a : ℕ) : pageEntries m (a / 0x1000 * 0x1000) = pageEntries m a := by
  have h1 : pdindex (a / 0x1000 * 0x1000) = pdindex a := by
    unfold pdindex
    omega
  have h2 : ptindex (a / 0x1000 * 0x1000) = ptindex a := by
    unfold ptindex
    omega
  unfold pageEntries
  rw [h1, h2]

theorem userPageWritable_store {m : Mem} {a : ℕ}
    (h : userPageWritable m (a / 0x1000 * 0x1000) = true) : storeAllowed m a = true := by
  unfold userPageWritable at h
  unfold storeAllowed
  rw [pageEntries_page] at h
  rw [Option.any_eq_true] at h ⊢
  obtain ⟨e, he, hflags⟩ := h
  refine ⟨e, he, ?_⟩
  simp only [Bool.and_eq_true, decide_eq_true_eq] at hflags ⊢
  omega

theorem userPagesWritable_page {m : Mem} : ∀ {n page : ℕ}, userPagesWritable m n page = true →
    ∀ k ≤ n, userPageWritable m (page + k * 0x1000) = true
  | 0, page, h, k, hk => by
      obtain rfl := Nat.le_zero.mp hk
      rw [Nat.zero_mul, Nat.add_zero]
      exact h
  | n + 1, page, h, k, hk => by
      obtain ⟨hpage, hrest⟩ := Bool.and_eq_true_iff.mp h
      cases k with
      | zero => simpa using hpage
      | succ k =>
          have hk' := userPagesWritable_page hrest k (Nat.le_of_succ_le_succ hk)
          rwa [show page + 0x1000 + k * 0x1000 = page + (k + 1) * 0x1000 by omega] at hk'

/-- Every byte of a range that passes the check can be stored to. -/
theorem vmmUserRangeWritable_store {m : Mem} {virtualaddr size : ℕ}
    (h : vmmUserRangeWritable m virtualaddr size = true) :
    ∀ k < size, storeAllowed m (virtualaddr + k) = true := by
  intro k hk
  unfold vmmUserRangeWritable at h
  rw [if_neg (by omega)] at h
  split_ifs at h with h1 h2
  have hpage := userPagesWritable_page h
    ((virtualaddr + k) / 0x1000 - virtualaddr / 0x1000) (by omega)
  refine userPageWritable_store ?_
  rwa [show virtualaddr / 0x1000 * 0x1000 +
      ((virtualaddr + k) / 0x1000 - virtualaddr / 0x1000) * 0x1000 =
        (virtualaddr + k) / 0x1000 * 0x1000 by omega] at hpage

/-! ### Copies that fault -/

theorem safecpyToUserLoop_fault : ∀ (data : List UInt8) (um : UserMem) (dst : ℕ),
    (safecpyToUserLoop um dst data).1 = -1 ↔ ∃ k < data.length, um.writable (dst + k) = false
  | [], um, dst => by simp [safecpyToUserLoop]
  | b :: data, um, dst => by
      unfold safecpyToUserLoop UserMem.store
      cases hw : um.writable dst with
      | false =>
          rw [if_neg (by simp)]
          exact ⟨fun _ => ⟨0, Nat.zero_lt_succ _, hw⟩, fun _ => rfl⟩
      | true =>
          rw [if_pos rfl]
          refine (safecpyToUserLoop_fault data _ (dst + 1)).trans ?_
          simp only [List.length_cons]
          constructor
          · rintro ⟨k, hk, hf⟩
            refine ⟨k + 1, by omega, ?_⟩
            rwa [show dst + (k + 1) = dst + 1 + k by omega]
          · rintro ⟨k, hk, hf⟩
            cases k with
            | zero =>
                rw [Nat.add_zero, hw] at hf
                cases hf
            | succ k =>
                refine ⟨k, by omega, ?_⟩
                rwa [show dst + 1 + k = dst + (k + 1) by omega]

/-- A copy to a user range faults exactly when a byte of it cannot be stored to. -/
theorem safecpyToUser_fault {um : UserMem} {dst : ℕ} {data : List UInt8} (hdst : dst < kernelStart)
    (hend : dst + data.length ≤ kernelStart) :
    (safecpyToUser um dst data).1 = -1 ↔ ∃ k < data.length, um.writable (dst + k) = false := by
  unfold safecpyToUser
  split_ifs with h0 hc
  · simp [h0]
  · have huser : safecpyCheckUser dst data.length = true :=
      safecpyCheckUser_iff.mpr ⟨hdst, hend⟩
    simp [huser] at hc
  · exact safecpyToUserLoop_fault data um dst

theorem userBufferOk_iff {ptr size : ℕ} (hsize : size ≠ 0) :
    userBufferOk ptr size = true ↔ ptr < kernelStart ∧ ptr + size ≤ kernelStart := by
  unfold userBufferOk
  rw [if_neg hsize]
  split_ifs with h
  · simp
    omega
  · simp only [decide_eq_true_eq]
    omega

/-- The call returns `-EFAULT` after the driver has produced `retval` bytes if it was the driver's
error or one of the bytes cannot be stored. -/
theorem readCopy_fault {um : UserMem} {buf count : ℕ} {retval : Int} {newbuf : List UInt8}
    (hbuf : buf < kernelStart) (hend : buf + count ≤ kernelStart)
    (hlen : min retval.toNat count ≤ newbuf.length) :
    (readCopy um buf count retval newbuf).1 = -EFAULT ↔
      retval = -EFAULT ∨ 0 < retval ∧ ∃ k < min retval.toNat count, um.writable (buf + k) = false := by
  unfold readCopy
  by_cases hpos : 0 < retval
  · have hne : retval ≠ -EFAULT := by
      unfold EFAULT
      omega
    have htake : (newbuf.take (min retval.toNat count)).length = min retval.toNat count := by
      rw [List.length_take]
      omega
    have hfault : (safecpyToUser um buf (newbuf.take (min retval.toNat count))).1 = -1 ↔ _ :=
      safecpyToUser_fault hbuf (by omega)
    rw [htake] at hfault
    rw [if_pos hpos]
    by_cases h0 : min retval.toNat count = 0
    · rw [if_pos h0]
      simp [hne, h0]
    · rw [if_neg h0]
      simp only [hne, hpos, true_and, false_or]
      rw [← hfault]
      split_ifs with hr
      · simp [hr]
      · simp [hr, hne]
  · rw [if_neg hpos, if_pos rfl]
    simp [hpos]

/-! ### Reads that consume nothing -/

/-- The keyboard buffer and all file offsets are as before. -/
structure SystemState.Unread (s s' : SystemState ι δ) : Prop where
  keyboard : s'.keyboard = s.keyboard
  loc : ∀ a, (s'.files.openAt a).map VfsFileOpen.loc = (s.files.openAt a).map VfsFileOpen.loc

theorem SystemState.Unread.refl (s : SystemState ι δ) : s.Unread s := ⟨rfl, fun _ => rfl⟩

/-- The result of the driver when `syscall_read` reads through the open file `o`. -/
def SystemState.driverResult (s : SystemState ι δ) (o : VfsFileOpen ι δ) (args : SyscallArgs)
    (junk : ℕ → UInt8) : Int :=
  (o.access s.files.dev false ((List.range (ioCount args)).map junk) (ioCount args)).1

/-- The call reads through an open file, and the driver's result is `-EFAULT` or some of the bytes
that it produced cannot be stored. -/
def ReadLoses (s : SystemState ι δ) (args : SyscallArgs) (junk : ℕ → UInt8) : Prop :=
  args 2 ≠ 0 ∧ userBufferOk (args 1).toNat (ioCount args) = true ∧
    (args.int 0 ≠ 0 ∧ args.int 0 ≠ 1 ∧ args.int 0 ≠ 2) ∧
    ∃ pid a o, s.files.kernel.currentps = some pid ∧ s.files.kernel.processes pid ≠ none ∧
      (s.files.table pid).lookup (args.int 0 - 3) = some a ∧ s.files.openAt a = some o ∧
      (s.driverResult o args junk = -EFAULT ∨ 0 < s.driverResult o args junk ∧
        ∃ k < min (s.driverResult o args junk).toNat (ioCount args),
          storeAllowed s.files.kernel.mem ((args 1).toNat + k) = false)

theorem ioCount_ne_zero {args : SyscallArgs} (h : args 2 ≠ 0) : ioCount args ≠ 0 := by
  have hpos : (args 2).toNat ≠ 0 := fun h0 => h (UInt32.toNat_inj.mp h0)
  unfold ioCount maxSyscallIoSize
  omega

theorem ps2kbReadChars_length : ∀ (size : ℕ) (kb : Keyboard),
    (ps2kbReadChars kb size).1.length ≤ size
  | 0, _ => Nat.le_refl 0
  | size + 1, kb => by
      unfold ps2kbReadChars
      split_ifs
      · exact Nat.zero_le _
      · exact Nat.succ_le_succ (ps2kbReadChars_length size _)

/-- The keyboard is read only when the copy cannot fault. -/
theorem readStdin_unread {s s' : SystemState ι δ} {byte : ℕ → UInt8} {um' : UserMem}
    {buf count : ℕ} {r : Int} (hbuf : buf < kernelStart) (hend : buf + count ≤ kernelStart)
    (h : readStdin s (s.files.kernel.mem.userMem byte) buf count = .ok (r, um', s'))
    (hr : r = -EFAULT) : s.Unread s' := by
  unfold readStdin at h
  split_ifs at h with hw
  · simp only [Except.ok.injEq, Prod.mk.injEq] at h
    obtain ⟨-, -, rfl⟩ := h
    exact .refl s
  · simp only [bind_ok, Except.ok.injEq, Prod.mk.injEq] at h
    obtain ⟨p, -, kernel, -, hr', -, -⟩ := h
    have hstore := vmmUserRangeWritable_store (by simpa using hw)
    have hlen := ps2kbReadChars_length count s.keyboard
    generalize (ps2kbReadChars s.keyboard count).1 = chars at hr' hlen
    exfalso
    rcases (readCopy_fault hbuf hend (by omega)).mp (hr'.trans hr) with herr | ⟨-, k, hk, hf⟩
    · unfold EFAULT at herr
      omega
    · have hw' : storeAllowed s.files.kernel.mem (buf + k) = true := hstore k (by omega)
      rw [show (s.files.kernel.mem.userMem byte).writable (buf + k) =
        storeAllowed s.files.kernel.mem (buf + k) from rfl, hw'] at hf
      cases hf

/-- The call through an open file. -/
theorem syscallRead_file {s : SystemState ι δ} (um : UserMem) {args : SyscallArgs}
    (junk : ℕ → UInt8) {pid : Int} {a : ℕ} {o : VfsFileOpen ι δ} (h2 : args 2 ≠ 0)
    (hok : userBufferOk (args 1).toNat (ioCount args) = true)
    (hfd : args.int 0 ≠ 0 ∧ args.int 0 ≠ 1 ∧ args.int 0 ≠ 2)
    (hcur : s.files.kernel.currentps = some pid) (hlive : s.files.kernel.processes pid ≠ none)
    (ha : (s.files.table pid).lookup (args.int 0 - 3) = some a) (ho : s.files.openAt a = some o) :
    ∃ newbuf dev, newbuf.length = ioCount args ∧
      syscallRead s um args junk =
        .ok ((readCopy um (args 1).toNat (ioCount args) (s.driverResult o args junk) newbuf).1,
          (readCopy um (args 1).toNat (ioCount args) (s.driverResult o args junk) newbuf).2,
          { s with files := s.files.accessed a o (s.driverResult o args junk) dev }) := by
  have hfiles : s.files.currentFiles = .ok (pid, s.files.table pid) :=
    FileLayer.currentFiles_ok.mpr ⟨hcur, hlive, rfl⟩
  have hopen : s.files.fileOpenAt a = .ok o := FileLayer.fileOpenAt_ok.mpr ho
  refine ⟨(o.access s.files.dev false ((List.range (ioCount args)).map junk) (ioCount args)).2.1,
    (o.access s.files.dev false ((List.range (ioCount args)).map junk) (ioCount args)).2.2, ?_, ?_⟩
  · simp only [VfsFileOpen.access, o.fsdriver.length, List.length_map, List.length_range]
  · unfold syscallRead
    rw [if_neg h2]
    simp only [hok, Bool.not_true, Bool.false_eq_true, if_false, hfd.1, hfd.2.1, hfd.2.2, or_self,
      vfsRead, vfsAccess, hfiles, ok_bind, ha, hopen]
    rfl

/-- The call that returns `-EFAULT` has moved the offset. -/
theorem ReadLoses.consumes {s : SystemState ι δ} {args : SyscallArgs} {junk : ℕ → UInt8}
    (h : ReadLoses s args junk) (byte : ℕ → UInt8) :
    ∃ um' s', syscallRead s (s.files.kernel.mem.userMem byte) args junk = .ok (-EFAULT, um', s') ∧
      ¬s.Unread s' := by
  obtain ⟨h2, hok, hfd, pid, a, o, hcur, hlive, ha, ho, hlose⟩ := h
  obtain ⟨hbuf, hend⟩ := (userBufferOk_iff (ioCount_ne_zero h2)).mp hok
  obtain ⟨newbuf, dev, hlen, hcall⟩ := syscallRead_file (s.files.kernel.mem.userMem byte) junk
    h2 hok hfd hcur hlive ha ho
  rw [(readCopy_fault hbuf hend (by omega)).mpr hlose] at hcall
  refine ⟨_, _, hcall, fun hunread => ?_⟩
  have hloc := hunread.loc a
  simp only [FileLayer.accessed, Function.update_self, ho, Option.map_some, Option.some.injEq,
    VfsFileOpen.move_loc] at hloc
  have hrange : -0x80000000 ≤ s.driverResult o args junk ∧
      s.driverResult o args junk < 0x80000000 := o.fsdriver.result ..
  have hlt := o.loc_lt
  have hne : s.driverResult o args junk ≠ 0 := by
    unfold EFAULT at hlose
    omega
  unfold regOfInt at hloc
  omega

/-- A read that returns `-EFAULT` has consumed nothing, unless it went through an open file and the
driver failed with `-EFAULT` or some of what it produced could not be stored. -/
theorem read_keeps_iff (s : SystemState ι δ) (byte junk : ℕ → UInt8) (args : SyscallArgs) :
    (∀ r um' s', syscallRead s (s.files.kernel.mem.userMem byte) args junk = .ok (r, um', s') →
      r = -EFAULT → s.Unread s') ↔ ¬ReadLoses s args junk := by
  constructor
  · intro h hlose
    obtain ⟨um', s', hcall, hconsumed⟩ := hlose.consumes byte
    exact hconsumed (h _ um' s' hcall rfl)
  · intro hno r um' s' h hr
    unfold syscallRead at h
    by_cases h2 : args 2 = 0
    · rw [if_pos h2] at h
      simp only [Except.ok.injEq, Prod.mk.injEq] at h
      rw [← h.1] at hr
      cases hr
    rw [if_neg h2] at h
    simp only at h
    split_ifs at h with hok h0 h12
    · simp only [Except.ok.injEq, Prod.mk.injEq] at h
      obtain ⟨-, -, rfl⟩ := h
      exact .refl s
    · obtain ⟨hbuf, hend⟩ := (userBufferOk_iff (ioCount_ne_zero h2)).mp (by simpa using hok)
      exact readStdin_unread hbuf hend h hr
    · simp only [Except.ok.injEq, Prod.mk.injEq] at h
      rw [← h.1] at hr
      cases hr
    · simp only [bind_ok, Prod.exists, Except.ok.injEq, Prod.mk.injEq] at h
      obtain ⟨retval, newbuf, files, hread, hcopy, -, rfl⟩ := h
      obtain ⟨pid, hcur, hlive, ⟨-, -, rfl⟩ | ⟨a, o, dev, ha, ho, hres, rfl⟩⟩ :=
        FileLayer.vfsAccess_cases hread
      · exact .refl s
      · exfalso
        have hok' : userBufferOk (args 1).toNat (ioCount args) = true := by simpa using hok
        obtain ⟨hbuf, hend⟩ := (userBufferOk_iff (ioCount_ne_zero h2)).mp hok'
        have hlen : newbuf.length = ioCount args := by
          rw [show newbuf = (o.access s.files.dev false ((List.range (ioCount args)).map junk)
            (ioCount args)).2.1 from by rw [hres]]
          simp only [VfsFileOpen.access, o.fsdriver.length, List.length_map, List.length_range]
        have hresult : s.driverResult o args junk = retval := by
          unfold SystemState.driverResult
          rw [hres]
        refine hno ⟨h2, hok', ⟨h0, fun h => h12 (.inl h), fun h => h12 (.inr h)⟩, pid, a, o, hcur,
          hlive, ha, ho, ?_⟩
        rw [hresult]
        exact (readCopy_fault hbuf hend (by omega)).mp (hcopy.trans hr)

/-- The system after process 1 has opened `cd:motd`, and no key has been pressed. -/
def motdSystem (k : Kernel) : SystemState Unit Unit := ⟨(motdOpened k).layer, ⟨fun _ => 0, 0, 0⟩⟩

/-- Read 8 bytes from the first open file to `0x1000`. -/
def motdArgs : SyscallArgs := fun i => if i = 0 then 3 else if i = 1 then 0x1000 else 8

/-- Process 1 reads from `cd:motd` to an address that is not mapped: the byte is lost. -/
theorem read_loses : ∃ (s : SystemState Unit Unit) (byte junk : ℕ → UInt8) (args : SyscallArgs),
    (∃ st, Reach FileStep (fun _ _ => True) FileStart st ∧ st.layer = s.files) ∧
    ¬∀ r um' s', syscallRead s (s.files.kernel.mem.userMem byte) args junk = .ok (r, um', s') →
      r = -EFAULT → s.Unread s' := by
  obtain ⟨k, hreach, hcur, hlive, hpage, -⟩ := motd_process
  have hboot : Reach FileStep (fun _ _ => True) FileStart ⟨motdLayer k, fun _ _ => none⟩ :=
    reach_motdLayer (fun _ _ => trivial) hreach
  have hopened := hboot.next trivial (motd_open hcur hlive)
  have hlose : ReadLoses (motdSystem k) motdArgs fun _ => 0 := by
    refine ⟨by decide, by decide, by decide, 1, 0, ⟨(), readOnlyDriver, 0, 0, 0, by decide⟩, hcur,
      hlive, rfl, rfl, .inr ⟨?_, 0, ?_, ?_⟩⟩
    · exact Int.zero_lt_one
    · exact Nat.zero_lt_one
    · have hnone : pageEntries k.mem 0x1000 = none := by
        unfold pageEntries
        rw [show pdindex 0x1000 = 0 from rfl, hpage]
      exact congrArg (Option.any _) hnone
  refine ⟨motdSystem k, fun _ => 0, fun _ => 0, motdArgs, ⟨motdOpened k, hopened, rfl⟩, fun h => ?_⟩
  obtain ⟨um', s', hcall, hconsumed⟩ := hlose.consumes fun _ => 0
  exact hconsumed (h _ um' s' hcall rfl)

end GalaxyOS
