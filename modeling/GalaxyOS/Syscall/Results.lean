import GalaxyOS.Syscall.Environ
import GalaxyOS.Fs.Resolve

/-! # Strings returned to user programs

`syscall_getenv`, `syscall_getcwd`, `syscall_getver` and `syscall_list` copy a string to a user
buffer of a given size.  `syscall_getenv` and `syscall_list` cut it so that the terminator fits.
`syscall_getcwd` and `syscall_getver` copy as many bytes as fit and leave the terminator out when it
does not, and `strings_terminated_iff` says that this is the only way to get a string without
one.

The four calls share `copied_terminated_iff` and what `Environ` and `Listing` say about the other two. -/

namespace GalaxyOS

open Transition

variable {ι : Type}

/-! ### The calls -/

/-- The bytes of a C string literal. -/
def asciiString (s : String) : CString := s.toList.map fun c => UInt8.ofNat c.toNat

/-- `K_VERSION`, which ends with the branch it was built from. -/
def kVersion (gitBranch : CString) : CString := asciiString "GalaxyOS Neptune 0.1.29-" ++ gitBranch

/-- What the calls read: the version of the kernel, `pwd` and `environ` of the calling process, and
the mounted volumes. -/
structure CallerState (ι : Type) where
  gitBranch : CString
  pwd : Option CString
  environ : Environ
  fs : Vfs ι
  branch_noNul : 0 ∉ gitBranch
  pwd_noNul : ∀ s ∈ pwd, 0 ∉ s

/-- `syscall_getver`. -/
def syscallGetver (gitBranch : CString) (um : UserMem) (args : SyscallArgs) : Int × UserMem :=
  let len := (kVersion gitBranch).length + 1
  let len := if len > (args 1).toNat then (args 1).toNat else len
  let (r, um₁) := safecpyToUser um (args 0).toNat ((kVersion gitBranch ++ [0]).take len)
  if r = -1 then (-EFAULT, um₁) else (0, um₁)

/-- `syscall_getcwd`. -/
def syscallGetcwd (pwd : Option CString) (um : UserMem) (args : SyscallArgs) : Int × UserMem :=
  match pwd with
  | none => (-ENOENT, um)
  | some pwd =>
      let len := pwd.length + 1
      let len := if len > (args 1).toNat then (args 1).toNat else len
      let (r, um₁) := safecpyToUser um (args 0).toNat ((pwd ++ [0]).take len)
      if r = -1 then (-EFAULT, um₁) else (args.int 0, um₁)

/-- `MAX_PATH_LEN`. -/
def maxPathLen : ℕ := 4096

/-- The room that `syscall_list` needs for the entries, which is `len` if they do not fit. -/
def listNeeded (len : ℕ) : List CString → ℕ → ℕ
  | [], needed => needed
  | name :: names, needed =>
      if name.length + 1 > len - needed then len
      else listNeeded len names (needed + (name.length + 1))

/-- The entries that fit into `needed` bytes, each with a newline, after the bytes `buf`. -/
def listEntries (needed : ℕ) : List CString → List UInt8 → List UInt8
  | [], buf => buf
  | name :: names, buf =>
      if name.length + 1 > needed - buf.length then buf
      else listEntries needed names (buf ++ name ++ [10])

/-- The buffer of `syscall_list`, with the last newline turned into a terminator. -/
def listBuffer (len : ℕ) (names : List CString) : List UInt8 :=
  let needed := listNeeded len names 0
  let needed := if needed = 0 then 1 else needed
  (listEntries needed names []).dropLast ++ [0]

/-- The names in a directory of its subdirectories, or of its files. -/
def entryNames (fs : Vfs ι) (d : ι) (dirs : Bool) : List CString :=
  (if dirs then (fs.dir d).directories.map fun e => (fs.dir e).name
    else (fs.dir d).files.map fun f => (fs.file f).name).map fun name =>
      name.map fun c => UInt8.ofNat c.toNat

/-- `syscall_list`. -/
def syscallList (fs : Vfs ι) (um : UserMem) (args : SyscallArgs) : Int × UserMem :=
  match kstrdupUser um (args 0).toNat maxPathLen with
  | (.error err, um₁) => (err, um₁)
  | (.ok path, um₁) =>
      match vfsFindDirectory fs (path.map fun b => Char.ofNat b.toNat) with
      | none => (-ENOENT, um₁)
      | some d =>
          let names := entryNames fs d (args 3 ≠ 0)
          let len := (args 2).toNat
          if len = 0 then (intOfReg names.length, um₁)
          else if !safecpyCheckUser (args 1).toNat len then (-EFAULT, um₁)
          else
            let (r, um₂) := safecpyToUser um₁ (args 1).toNat (listBuffer len names)
            if r = -1 then (-EFAULT, um₂) else (intOfReg names.length, um₂)

/-- The calls that return a string. -/
inductive StringCall where
  | getenv | getcwd | getver | list
deriving DecidableEq

namespace StringCall

/-- The result of a call, with the memory of the caller after it. -/
def run (st : CallerState ι) (um : UserMem) (args : SyscallArgs) :
    StringCall → Except Fault (Int × UserMem)
  | getenv => syscallGetenv st.environ um args
  | getcwd => .ok (syscallGetcwd st.pwd um args)
  | getver => .ok (syscallGetver st.gitBranch um args)
  | list => .ok (syscallList st.fs um args)

/-- The buffer of the caller. -/
def buf (args : SyscallArgs) : StringCall → ℕ
  | getenv => (args 1).toNat
  | getcwd => (args 0).toNat
  | getver => (args 0).toNat
  | list => (args 1).toNat

/-- The size of the buffer. -/
def size (args : SyscallArgs) : StringCall → ℕ
  | getenv => (args 2).toNat
  | getcwd => (args 1).toNat
  | getver => (args 1).toNat
  | list => (args 2).toNat

/-- The string that a call copies without making room for its terminator. -/
def copied (st : CallerState ι) : StringCall → Option CString
  | getenv => none
  | getcwd => st.pwd
  | getver => some (kVersion st.gitBranch)
  | list => none

/-- The call copies a string that does not fit with its terminator, and the copy does not fault. -/
def Cuts (st : CallerState ι) (um : UserMem) (args : SyscallArgs) (c : StringCall) : Prop :=
  ∃ s ∈ c.copied st, c.size args ≤ s.length ∧ um.Stores (c.buf args) (c.size args)

end StringCall

/-- An error number. -/
def IsError (r : Int) : Prop := -E2BIG ≤ r ∧ r < 0

instance (r : Int) : Decidable (IsError r) := inferInstanceAs (Decidable (-E2BIG ≤ r ∧ r < 0))

theorem isError_enoent : IsError (-ENOENT) := by decide

theorem isError_efault : IsError (-EFAULT) := by decide

theorem isError_enametoolong : IsError (-ENAMETOOLONG) := by decide

/-- At most `size` bytes have been written to the buffer, and the last of them is a NUL. -/
def Terminated (um um' : UserMem) (buf size : ℕ) : Prop :=
  ∃ data : List UInt8, data.length ≤ size ∧ data.getLast? = some 0 ∧
    um'.byte = overlay buf data um.byte

/-! ### Copies without care for the terminator -/

/-- The bytes that `syscall_getver` and `syscall_getcwd` copy. -/
theorem take_len (s : CString) (size : ℕ) :
    (s ++ [0]).take (if s.length + 1 > size then size else s.length + 1) = (s ++ [0]).take size := by
  split_ifs with h
  · rfl
  · rw [List.take_of_length_le (by simp), List.take_of_length_le (by simp; omega)]

/-- Such a copy is terminated unless it succeeds and the terminator does not fit. -/
theorem copy_terminated_iff {um : UserMem} {buf size : ℕ} {s : CString} (hs : 0 ∉ s)
    (hsize : 1 ≤ size) :
    ((safecpyToUser um buf ((s ++ [0]).take size)).1 ≠ -1 →
        Terminated um (safecpyToUser um buf ((s ++ [0]).take size)).2 buf size) ↔
      ¬(size ≤ s.length ∧ um.Stores buf size) := by
  have hbyte : (safecpyToUser um buf ((s ++ [0]).take size)).1 ≠ -1 →
      (safecpyToUser um buf ((s ++ [0]).take size)).2.byte =
        overlay buf ((s ++ [0]).take size) um.byte := fun hr => safecpyToUser_ok rfl hr
  by_cases hfit : size ≤ s.length
  · have htake : (s ++ [0]).take size = s.take size := List.take_append_of_le_length hfit
    have hlen : (s.take size).length = size := by
      rw [List.length_take]
      omega
    have hstores := safecpyToUser_stores_iff um buf
      (List.ne_nil_of_length_pos (show 0 < (s.take size).length by omega))
    rw [htake] at hbyte ⊢
    rw [hlen] at hstores
    rw [hstores] at hbyte ⊢
    constructor
    · rintro h ⟨-, hst⟩
      obtain ⟨data, hdata, hlast, hover⟩ := h hst
      obtain ⟨front, rfl⟩ := List.getLast?_eq_some_iff.mp hlast
      rw [List.length_append, List.length_singleton] at hdata
      have hnul : overlay buf (front ++ [0]) um.byte (buf + front.length) = 0 := by
        rw [overlay_inside (by simp)]
        simp
      rw [← hover, hbyte hst, overlay_inside (by omega)] at hnul
      exact hs (hnul ▸ List.mem_of_mem_take (List.getElem_mem _))
    · intro h hst
      exact absurd ⟨hfit, hst⟩ h
  · have htake : (s ++ [0]).take size = s ++ [0] := List.take_of_length_le (by simp; omega)
    rw [htake] at hbyte ⊢
    constructor
    · rintro - ⟨h, -⟩
      exact hfit h
    · intro _ hr
      exact ⟨s ++ [0], by simp; omega, by simp, hbyte hr⟩

/-! ### Listings -/

theorem listNeeded_le {len : ℕ} : ∀ {names : List CString} {needed : ℕ}, needed ≤ len →
    listNeeded len names needed ≤ len
  | [], _, h => h
  | name :: names, needed, h => by
      unfold listNeeded
      split_ifs with hfull
      · exact Nat.le_refl len
      · exact listNeeded_le (by omega)

theorem listEntries_length {needed : ℕ} : ∀ {names : List CString} {buf : List UInt8},
    buf.length ≤ needed → (listEntries needed names buf).length ≤ needed
  | [], _, h => h
  | name :: names, buf, h => by
      unfold listEntries
      split_ifs with hfull
      · exact h
      · apply listEntries_length
        simp only [List.length_append, List.length_singleton]
        omega

/-- The listing fits into the buffer with its terminator. -/
theorem listBuffer_length {len : ℕ} (names : List CString) (h : 1 ≤ len) :
    (listBuffer len names).length ≤ len := by
  have hneeded : listNeeded len names 0 ≤ len := listNeeded_le (Nat.zero_le len)
  unfold listBuffer
  simp only [List.length_append, List.length_dropLast, List.length_singleton]
  split_ifs with h0
  · have hentries : (listEntries 1 names []).length ≤ 1 := listEntries_length (Nat.zero_le 1)
    omega
  · have hentries : (listEntries (listNeeded len names 0) names []).length ≤
        listNeeded len names 0 := listEntries_length (Nat.zero_le _)
    omega

/-- A call that succeeds has found the directory and has stored the listing. -/
theorem syscallList_ok {fs : Vfs ι} {um : UserMem} {args : SyscallArgs}
    (hsize : 1 ≤ (args 2).toNat) (herr : ¬IsError (syscallList fs um args).1) :
    ∃ path d, (kstrdupUser um (args 0).toNat maxPathLen).1 = .ok path ∧
      vfsFindDirectory fs (path.map fun b => Char.ofNat b.toNat) = some d ∧
      (syscallList fs um args).1 = intOfReg (entryNames fs d (args 3 ≠ 0)).length ∧
      (syscallList fs um args).2.byte = overlay (args 1).toNat
        (listBuffer (args 2).toNat (entryNames fs d (args 3 ≠ 0))) um.byte := by
  have hsame := kstrdupUser_same um (args 0).toNat maxPathLen
  have hkstrdup : ∀ err, (kstrdupUser um (args 0).toNat maxPathLen).1 = .error err → IsError err := by
    intro err h
    obtain rfl | rfl := kstrdupUser_error h
    · exact isError_efault
    · exact isError_enametoolong
  unfold syscallList at herr ⊢
  generalize kstrdupUser um (args 0).toNat maxPathLen = res at hsame hkstrdup herr ⊢
  obtain ⟨err | path, um₁⟩ := res
  · exact absurd (hkstrdup err rfl) herr
  simp only at hsame herr ⊢
  generalize hfound : vfsFindDirectory fs (path.map fun b => Char.ofNat b.toNat) = found at herr ⊢
  cases found with
  | none => exact absurd isError_enoent herr
  | some d =>
      refine ⟨path, d, rfl, hfound, ?_⟩
      simp only at herr ⊢
      generalize entryNames fs d (args 3 ≠ 0) = names at herr ⊢
      have hbyte : (safecpyToUser um₁ (args 1).toNat (listBuffer (args 2).toNat names)).1 ≠ -1 →
          (safecpyToUser um₁ (args 1).toNat (listBuffer (args 2).toNat names)).2.byte =
            overlay (args 1).toNat (listBuffer (args 2).toNat names) um.byte := by
        intro hr
        rw [← hsame.byte]
        exact safecpyToUser_ok rfl hr
      rw [if_neg (by omega)] at herr ⊢
      split_ifs at herr ⊢ with hc hr
      · exact absurd isError_efault herr
      · exact absurd isError_efault herr
      · exact ⟨rfl, hbyte hr⟩

theorem syscallList_terminated (fs : Vfs ι) (um : UserMem) (args : SyscallArgs)
    (hsize : 1 ≤ (args 2).toNat) (herr : ¬IsError (syscallList fs um args).1) :
    Terminated um (syscallList fs um args).2 (args 1).toNat (args 2).toNat := by
  obtain ⟨path, d, -, -, -, hbyte⟩ := syscallList_ok hsize herr
  exact ⟨_, listBuffer_length _ hsize, List.getLast?_concat, hbyte⟩

/-! ### All four calls -/

theorem syscallGetenv_terminated {e : Environ} {um um' : UserMem} {args : SyscallArgs} {r : Int}
    (h : syscallGetenv e um args = .ok (r, um')) (hsize : 1 ≤ (args 2).toNat)
    (herr : ¬IsError r) : Terminated um um' (args 1).toNat (args 2).toNat := by
  have hsame := kstrdupUser_same um (args 0).toNat maxEnvNameSize
  unfold syscallGetenv at h
  split at h
  · rename_i err um₁ heq
    simp only [Except.ok.injEq, Prod.mk.injEq] at h
    obtain ⟨rfl, -⟩ := h
    obtain rfl | rfl := kstrdupUser_error (congrArg Prod.fst heq)
    · exact absurd isError_efault herr
    · exact absurd isError_enametoolong herr
  · rename_i name um₁ heq
    rw [heq] at hsame
    obtain ⟨o, -, h⟩ := bind_ok.mp h
    cases o with
    | none =>
        simp only [Except.ok.injEq, Prod.mk.injEq] at h
        obtain ⟨rfl, -⟩ := h
        exact absurd isError_enoent herr
    | some p =>
        have hdel := copyValue_delivers um₁ (args 2).toNat (p.2.drop (name.length + 1))
          (args 1).toNat_lt
        rw [Except.ok.inj h] at hdel
        obtain hr | hr := hdel.result
        · have hstored := hdel.stored hr (by omega)
          rw [hsame.byte] at hstored
          refine ⟨_, ?_, List.getLast?_concat, hstored⟩
          rw [List.length_append, List.length_take, List.length_singleton]
          omega
        · simp only at hr
          subst hr
          exact absurd isError_efault herr

/-- An address in user space, returned as an `int`, is not an error number. -/
theorem not_isError_of_user (args : SyscallArgs) (i : Fin 6) (h : (args i).toNat < kernelStart) :
    ¬IsError (args.int i) := by
  unfold IsError SyscallArgs.int intOfReg E2BIG
  unfold kernelStart at h
  split_ifs <;> omega

/-- What `syscall_getver` and `syscall_getcwd` return, for a result that is no error. -/
theorem copied_terminated_iff (um : UserMem) {buf size : ℕ} {s : CString} {result : Int}
    (hs : 0 ∉ s) (hsize : 1 ≤ size) (hresult : buf < kernelStart → ¬IsError result) :
    (∀ r um', (if (safecpyToUser um buf ((s ++ [0]).take size)).1 = -1 then
          (-EFAULT, (safecpyToUser um buf ((s ++ [0]).take size)).2)
        else (result, (safecpyToUser um buf ((s ++ [0]).take size)).2)) = (r, um') →
          ¬IsError r → Terminated um um' buf size) ↔ ¬(size ≤ s.length ∧ um.Stores buf size) := by
  rw [← copy_terminated_iff hs hsize]
  constructor
  · intro h hr
    have hne : (s ++ [0]).take size ≠ [] := by
      apply List.ne_nil_of_length_pos
      rw [List.length_take, List.length_append, List.length_singleton]
      omega
    have huser := (safecpyCheckUser_iff.mp ((safecpyToUser_stores_iff um buf hne).mp hr).1).1
    exact h result _ (if_neg hr) (hresult huser)
  · intro h r um' heq herr
    split_ifs at heq with hr
    · obtain ⟨rfl, -⟩ := Prod.mk.inj heq
      exact absurd isError_efault herr
    · obtain ⟨-, rfl⟩ := Prod.mk.inj heq
      exact h hr

theorem getver_terminated_iff (st : CallerState ι) (um : UserMem) (args : SyscallArgs)
    (hsize : 1 ≤ (args 1).toNat) :
    (∀ r um', StringCall.getver.run st um args = .ok (r, um') → ¬IsError r →
        Terminated um um' (args 0).toNat (args 1).toNat) ↔ ¬StringCall.getver.Cuts st um args := by
  have hnul : 0 ∉ kVersion st.gitBranch := by
    unfold kVersion
    rw [List.mem_append, not_or]
    exact ⟨by decide, st.branch_noNul⟩
  have hiff := copied_terminated_iff um hnul hsize
    (show (args 0).toNat < kernelStart → ¬IsError 0 from fun _ => by decide)
  simp only [StringCall.run, Except.ok.injEq, syscallGetver, take_len]
  refine hiff.trans (not_congr ?_)
  constructor
  · exact fun h => ⟨_, rfl, h⟩
  · rintro ⟨s, hs, h⟩
    obtain rfl := Option.some.inj hs
    exact h

theorem getcwd_terminated_iff (st : CallerState ι) (um : UserMem) {args : SyscallArgs}
    (hsize : 1 ≤ (args 1).toNat) :
    (∀ r um', StringCall.getcwd.run st um args = .ok (r, um') → ¬IsError r →
        Terminated um um' (args 0).toNat (args 1).toNat) ↔ ¬StringCall.getcwd.Cuts st um args := by
  cases hpwd : st.pwd with
  | none =>
      constructor
      · rintro - ⟨s, hs, -⟩
        cases hpwd.symm.trans hs
      · intro _ r um' h herr
        have hrun := Except.ok.inj h
        unfold syscallGetcwd at hrun
        rw [hpwd] at hrun
        obtain ⟨rfl, -⟩ := Prod.mk.inj hrun
        exact absurd isError_enoent herr
  | some pwd =>
      have hiff := copied_terminated_iff um
        (st.pwd_noNul pwd hpwd) hsize (not_isError_of_user args 0)
      simp only [StringCall.run, Except.ok.injEq, syscallGetcwd, hpwd, take_len]
      refine hiff.trans (not_congr ?_)
      constructor
      · exact fun h => ⟨_, hpwd, h⟩
      · rintro ⟨s, hs, h⟩
        obtain rfl := Option.some.inj (hpwd.symm.trans hs)
        exact h

/-- A call that succeeds returns a terminated string, except where it cuts one and does not make
room for the terminator. -/
theorem strings_terminated_iff (st : CallerState ι) (c : StringCall) (um : UserMem)
    (args : SyscallArgs) (hsize : 1 ≤ c.size args) :
    (∀ r um', c.run st um args = .ok (r, um') → ¬IsError r →
        Terminated um um' (c.buf args) (c.size args)) ↔ ¬c.Cuts st um args := by
  cases c with
  | getenv =>
      constructor
      · rintro - ⟨s, hs, -⟩
        cases hs
      · exact fun _ r um' h herr => syscallGetenv_terminated h hsize herr
  | getcwd => exact getcwd_terminated_iff st um hsize
  | getver => exact getver_terminated_iff st um args hsize
  | list =>
      constructor
      · rintro - ⟨s, hs, -⟩
        cases hs
      · intro _ r um' h herr
        have hlist := syscallList_terminated st.fs um args hsize
        rw [Except.ok.inj h] at hlist
        exact hlist herr

/-- A process without a working directory, with the volume `cd` mounted. -/
def callerState : CallerState (Fin 4) where
  gitBranch := asciiString "main"
  pwd := none
  environ := ⟨[.null], 0⟩
  fs := binVolume
  branch_noNul := by decide
  pwd_noNul := by simp

/-- A buffer of `size` bytes at `0x1000`. -/
def bufArgs (size : UInt32) : SyscallArgs := fun i => if i = 0 then 0x1000 else size

/-- The version is cut to four bytes, without a terminator. -/
theorem strings_not_terminated : ¬∀ (st : CallerState (Fin 4)) (c : StringCall) (um : UserMem)
    (args : SyscallArgs), 1 ≤ c.size args → ∀ r um', c.run st um args = .ok (r, um') →
      ¬IsError r → Terminated um um' (c.buf args) (c.size args) := by
  intro h
  have hcut := (getver_terminated_iff callerState envMemory (bufArgs 4) (by decide)).mp
    (h callerState .getver envMemory (bufArgs 4) (by decide))
  refine hcut ⟨_, rfl, by decide, by decide, ?_⟩
  decide

/-- A buffer of 64 bytes has room for the version. -/
theorem strings_terminated_version : ∃ r um',
    StringCall.getver.run callerState envMemory (bufArgs 64) = .ok (r, um') ∧
      Terminated envMemory um' 0x1000 64 := by
  have hfits : ¬StringCall.getver.Cuts callerState envMemory (bufArgs 64) := by
    rintro ⟨s, hs, hlen, -⟩
    obtain rfl := Option.some.inj hs
    revert hlen
    decide
  have hterminated := (strings_terminated_iff callerState .getver envMemory (bufArgs 64)
    (by decide)).mpr hfits
  refine ⟨_, _, rfl, ?_⟩
  apply hterminated _ _ rfl
  decide

end GalaxyOS
