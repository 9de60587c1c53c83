import GalaxyOS.Fs.Resolve
import GalaxyOS.Sched.Lifetime

/-! # Open files

The calls of `vfs.c` on descriptors.  A descriptor is an index into the array `openfiles` of a
process, an entry of the array is the address of a `struct vfs_file_open` or `NULL`, and every
`struct vfs_file` counts how often it is open.

A file system driver is a parameter: it may do anything with the block devices, return any number
and fill the buffer in any way.

`FileState` is the layer together with a record of what the calls so far have meant for every
descriptor; a run consists of calls on descriptors, made by the current process, and of the calls
of the kernel.

What the calls promise is in the next modules (`FilesInv`, `offsets_exact`); here are the layer, its steps
and `FileStep.exists_exec`, by which every call of the kernel is a step. -/

namespace GalaxyOS

open Transition

/-- `VFS_FILE_MODE_APPEND`. -/
def vfsFileModeAppend : ℕ := 0b0100

/-- `struct vfs_fs_driver`.  `accessfile dev write file buf count loc` is the number that the
driver returns (an `ssize_t`), the buffer afterwards and the state of the block devices.  A driver
stays inside the buffer. -/
structure VfsFsDriver (ι δ : Type) where
  accessfile : δ → Bool → ι → List UInt8 → ℕ → ℕ → Int × List UInt8 × δ
  result : ∀ dev write file buf count loc,
    -0x80000000 ≤ (accessfile dev write file buf count loc).1 ∧
      (accessfile dev write file buf count loc).1 < 0x80000000
  length : ∀ dev write file buf count loc,
    (accessfile dev write file buf count loc).2.1.length = buf.length

/-- The fields of a `struct vfs_file` that the calls on descriptors use: its size, how often it is
open, and the driver and the block size of its volume. -/
structure VfsFileInfo (ι δ : Type) where
  size : ℕ
  opens : Int
  fsdriver : VfsFsDriver ι δ
  blocksize : ℕ
  size_lt : size < 0x100000000
  blocksize_pos : 0 < blocksize

/-- `struct vfs_file_open`. -/
structure VfsFileOpen (ι δ : Type) where
  file : ι
  fsdriver : VfsFsDriver ι δ
  loc : ℕ
  flags : ℕ
  id : ℕ
  loc_lt : loc < 0x100000000

/-- The open files of a `struct process`: the entries `openfiles[0 .. openfiles_loc)` and
`openfiles_size`. -/
structure OpenFiles where
  openfiles : List (Option ℕ)
  openfilesSize : ℕ
deriving DecidableEq

/-- The open files of a new process. -/
def OpenFiles.fresh : OpenFiles := ⟨[], 32⟩

/-- `openfiles_loc`. -/
def OpenFiles.openfilesLoc (t : OpenFiles) : ℕ := t.openfiles.length

/-- The kernel with its file layer.  `openAt` are the `struct vfs_file_open` in the kernel heap,
which lie below `nextOpen`, and `table pid` are the open files of `processes[pid]`. -/
structure FileLayer (ι δ : Type) where
  kernel : Kernel
  vfs : Vfs ι
  info : ι → VfsFileInfo ι δ
  dev : δ
  openAt : ℕ → Option (VfsFileOpen ι δ)
  nextOpen : ℕ
  table : Int → OpenFiles

/-- `struct stat`. -/
structure Stat where
  stSize : ℕ
  stBlksize : ℕ
  stBlocks : ℕ
deriving DecidableEq

variable {ι δ : Type}

/-! ### The calls -/

/-- `vfs_fd_is_open`. -/
def vfsFdIsOpen (t : OpenFiles) (fd : Int) : Bool := decide (0 ≤ fd ∧ fd < t.openfilesLoc)

/-- The two checks that a call on a descriptor begins with: the open file, or `none` for
`-EBADF`. -/
def OpenFiles.lookup (t : OpenFiles) (fd : Int) : Option ℕ :=
  if vfsFdIsOpen t fd then t.openfiles.getD fd.toNat none else none

namespace FileLayer

/-- `currentps` and its open files. -/
def currentFiles (s : FileLayer ι δ) : Except Fault (Int × OpenFiles) :=
  match s.kernel.currentps with
  | none => .error .nullDeref
  | some pid =>
      match s.kernel.processes pid with
      | none => .error .useAfterFree
      | some _ => .ok (pid, s.table pid)

/-- The `struct vfs_file_open` at an address. -/
def fileOpenAt (s : FileLayer ι δ) (a : ℕ) : Except Fault (VfsFileOpen ι δ) :=
  match s.openAt a with
  | none => .error .useAfterFree
  | some o => .ok o

end FileLayer

/-- A C `int` with the bits of an unsigned number. -/
def intOfReg (n : ℕ) : Int := if n % 0x100000000 < 0x80000000 then (n % 0x100000000 : ℕ)
  else (n % 0x100000000 : ℕ) - 0x100000000

theorem intOfReg_range (n : ℕ) : -0x80000000 ≤ intOfReg n ∧ intOfReg n < 0x80000000 := by
  unfold intOfReg
  split_ifs <;> omega

theorem intOfReg_of_lt {n : ℕ} (h : n < 0x80000000) : intOfReg n = n := by
  unfold intOfReg
  rw [if_pos (by omega), Nat.mod_eq_of_lt (by omega)]

theorem intOfReg_neg {n : ℕ} (h : 0x80000000 ≤ n) (hlt : n < 0x100000000) : intOfReg n < 0 := by
  unfold intOfReg
  split_ifs <;> omega

/-- The offset at which a file is opened. -/
def openLoc (flags size : ℕ) : ℕ := if flags &&& vfsFileModeAppend ≠ 0 then size else 0

theorem openLoc_lt (flags : ℕ) {size : ℕ} (h : size < 0x100000000) :
    openLoc flags size < 0x100000000 := by
  unfold openLoc
  split_ifs
  · exact h
  · omega

theorem regOfInt_lt (n : Int) : regOfInt n < 0x100000000 := by
  unfold regOfInt
  omega

/-- The open file that `vfs_open` sets up. -/
def VfsFileInfo.openFile (info : VfsFileInfo ι δ) (f : ι) (flags id : ℕ) : VfsFileOpen ι δ :=
  { file := f, fsdriver := info.fsdriver, loc := openLoc flags info.size, flags := flags, id := id
    loc_lt := openLoc_lt flags info.size_lt }

@[simp] theorem VfsFileInfo.openFile_file (info : VfsFileInfo ι δ) (f : ι) (flags id : ℕ) :
    (info.openFile f flags id).file = f := rfl

@[simp] theorem VfsFileInfo.openFile_loc (info : VfsFileInfo ι δ) (f : ι) (flags id : ℕ) :
    (info.openFile f flags id).loc = openLoc flags info.size := rfl

/-- `loc += r`, where `loc` is a `uint32_t`. -/
def VfsFileOpen.move (o : VfsFileOpen ι δ) (r : Int) : VfsFileOpen ι δ :=
  { o with loc := regOfInt (o.loc + r), loc_lt := regOfInt_lt _ }

@[simp] theorem VfsFileOpen.move_file (o : VfsFileOpen ι δ) (r : Int) : (o.move r).file = o.file :=
  rfl

@[simp] theorem VfsFileOpen.move_loc (o : VfsFileOpen ι δ) (r : Int) :
    (o.move r).loc = regOfInt (o.loc + r) := rfl

/-- The array of open files with a new entry, reallocated if it is full. -/
def OpenFiles.add (t : OpenFiles) (a : ℕ) : OpenFiles :=
  { openfiles := t.openfiles ++ [some a]
    openfilesSize := if t.openfilesLoc ≥ t.openfilesSize then t.openfilesSize + 32
      else t.openfilesSize }

variable [DecidableEq ι]

/-- What `vfs_open` does once it has found the file. -/
def FileLayer.addOpen (s : FileLayer ι δ) (f : ι) (flags : ℕ) :
    Except Fault (Int × FileLayer ι δ) := do
  let (pid, t) ← s.currentFiles
  let info := s.info f
  .ok (t.openfilesLoc,
    { s with
      info := Function.update s.info f { info with opens := info.opens + 1 }
      openAt := Function.update s.openAt s.nextOpen (some (info.openFile f flags t.openfilesLoc))
      nextOpen := s.nextOpen + 1
      table := Function.update s.table pid (t.add s.nextOpen) })

def vfsOpen (s : FileLayer ι δ) (path : List Char) (flags : ℕ) :
    Except Fault (Int × FileLayer ι δ) :=
  match vfsFindBlockDeviceByPath s.vfs path with
  | none => .ok (-ENOENT, s)
  | some bd =>
      match bd.mountpoint with
      | none => .ok (-ENOENT, s)
      | some _ =>
          match vfsFindFile s.vfs path with
          | none => .ok (-ENOENT, s)
          | some f => s.addOpen f flags

def vfsClose (s : FileLayer ι δ) (fd : Int) : Except Fault (Int × FileLayer ι δ) := do
  let (pid, t) ← s.currentFiles
  match t.lookup fd with
  | none => .ok (-EBADF, s)
  | some a => do
      let o ← s.fileOpenAt a
      let info := s.info o.file
      .ok (0,
        { s with
          info := Function.update s.info o.file { info with opens := info.opens - 1 }
          openAt := Function.update s.openAt a none
          table := Function.update s.table pid
            { t with openfiles := t.openfiles.set fd.toNat none } })

/-- What the driver makes of an access through the open file `o`. -/
def VfsFileOpen.access (o : VfsFileOpen ι δ) (dev : δ) (write : Bool) (buf : List UInt8)
    (count : ℕ) : Int × List UInt8 × δ :=
  o.fsdriver.accessfile dev write o.file buf count o.loc

/-- The common body of `vfs_read` and `vfs_write`: the result, the buffer and the new state. -/
def vfsAccess (s : FileLayer ι δ) (write : Bool) (fd : Int) (buf : List UInt8) (count : ℕ) :
    Except Fault (Int × List UInt8 × FileLayer ι δ) := do
  let (_, t) ← s.currentFiles
  match t.lookup fd with
  | none => .ok (-EBADF, buf, s)
  | some a => do
      let o ← s.fileOpenAt a
      let (bytesread, buf', dev) := o.access s.dev write buf count
      .ok (bytesread, buf',
        { s with
          dev := dev
          openAt := Function.update s.openAt a (some (o.move bytesread)) })

/-- `vfs_read` into a buffer with the contents `buf`. -/
def vfsRead (s : FileLayer ι δ) (fd : Int) (buf : List UInt8) (count : ℕ) :
    Except Fault (Int × List UInt8 × FileLayer ι δ) := vfsAccess s false fd buf count

def vfsWrite (s : FileLayer ι δ) (fd : Int) (buf : List UInt8) (count : ℕ) :
    Except Fault (Int × List UInt8 × FileLayer ι δ) := vfsAccess s true fd buf count

/-- `vfs_fstat`, with what it stores in `statbuf`. -/
def vfsFstat (s : FileLayer ι δ) (fd : Int) : Except Fault (Int × Option Stat) := do
  let (_, t) ← s.currentFiles
  match t.lookup fd with
  | none => .ok (-EBADF, none)
  | some a => do
      let o ← s.fileOpenAt a
      let info := s.info o.file
      .ok (0, some ⟨info.size, info.blocksize, info.size / info.blocksize + 1⟩)

def vfsSize (s : FileLayer ι δ) (fd : Int) : Except Fault Int := do
  let (_, t) ← s.currentFiles
  match t.lookup fd with
  | none => .ok (-EBADF)
  | some a => do
      let o ← s.fileOpenAt a
      .ok (intOfReg (s.info o.file).size)

/-! ### Runs -/

/-- A call on a descriptor of the current process, or a call of the kernel. -/
inductive FileCall where
  | openFile (path : List Char) (flags : ℕ)
  | close (fd : Int)
  | read (fd : Int) (buf : List UInt8) (count : ℕ)
  | write (fd : Int) (buf : List UInt8) (count : ℕ)
  | fstat (fd : Int)
  | size (fd : Int)
  | kernel (c : Call)

/-- `sched_create_process` gives a new process an empty array. -/
def newTables (s s' : Kernel) (table : Int → OpenFiles) : Int → OpenFiles := fun pid =>
  if s.lastPid ≤ pid ∧ pid < s'.lastPid then .fresh else table pid

/-- Make a call: its return value and the state it leaves. -/
def FileLayer.exec (s : FileLayer ι δ) : FileCall → Except Fault (Int × FileLayer ι δ)
  | .openFile path flags => vfsOpen s path flags
  | .close fd => vfsClose s fd
  | .read fd buf count => do
      let (r, _, s') ← vfsRead s fd buf count
      .ok (r, s')
  | .write fd buf count => do
      let (r, _, s') ← vfsWrite s fd buf count
      .ok (r, s')
  | .fstat fd => do
      let (r, _) ← vfsFstat s fd
      .ok (r, s)
  | .size fd => do
      let r ← vfsSize s fd
      .ok (r, s)
  | .kernel c => do
      let (r, k) ← GalaxyOS.exec s.kernel c
      .ok (r, { s with kernel := k, table := newTables s.kernel k s.table })

/-- What has happened to a descriptor since it was opened: the address and the file it was opened
with, the offset then, and the sums of all results and of the results that are not negative. -/
structure Descriptor (ι : Type) where
  addr : ℕ
  file : ι
  start : ℕ
  moved : Int
  gained : Int

/-- The descriptor after a read or a write with result `r`. -/
def Descriptor.accessed (d : Descriptor ι) (r : Int) : Descriptor ι :=
  { d with moved := d.moved + r, gained := d.gained + if 0 ≤ r then r else 0 }

/-- A state of the file layer and, for each process and descriptor, what it stands for. -/
structure FileState (ι δ : Type) where
  layer : FileLayer ι δ
  opened : Int → Int → Option (Descriptor ι)

/-- The record with one descriptor of a process changed. -/
def setOpened (opened : Int → Int → Option (Descriptor ι)) (pid fd : Int)
    (d : Option (Descriptor ι)) : Int → Int → Option (Descriptor ι) :=
  Function.update opened pid (Function.update (opened pid) fd d)

namespace FileState

/-- What a call with result `r` means for the descriptors, made by the process `pid`. -/
def note (st : FileState ι δ) (pid : Int) (r : Int) (s' : FileLayer ι δ) :
    FileCall → Int → Int → Option (Descriptor ι)
  | .openFile path flags =>
      match vfsFindFile st.layer.vfs path with
      | none => st.opened
      | some f =>
          if r < 0 then st.opened
          else setOpened st.opened pid r
            (some ⟨st.layer.nextOpen, f, openLoc flags (st.layer.info f).size, 0, 0⟩)
  | .close fd => if r < 0 then st.opened else setOpened st.opened pid fd none
  | .read fd _ _ | .write fd _ _ =>
      setOpened st.opened pid fd ((st.opened pid fd).map fun d => d.accessed r)
  | .fstat _ | .size _ => st.opened
  | .kernel _ => fun pid fd => if s'.kernel.processes pid = none then none else st.opened pid fd

/-- A call, what it means for the descriptors being recorded. -/
def exec (st : FileState ι δ) (c : FileCall) : Except Fault (FileState ι δ) := do
  let (r, s') ← st.layer.exec c
  .ok ⟨s', st.note (st.layer.kernel.currentps.getD (-1)) r s' c⟩

end FileState

def FileStep (st : FileState ι δ) (c : FileCall) (st' : FileState ι δ) : Prop := st.exec c = .ok st'

/-- Nothing is open at the start. -/
structure FileStart (st : FileState ι δ) : Prop where
  kernel : Started st.layer.kernel
  opened : st.opened = fun _ _ => none
  table : ∀ pid, (st.layer.table pid) = .fresh
  opens : ∀ f, (st.layer.info f).opens = 0

theorem FileStep.exists_exec {st st' : FileState ι δ} {c : FileCall} (h : FileStep st c st') :
    ∃ r s', st.layer.exec c = .ok (r, s') ∧
      st' = ⟨s', st.note (st.layer.kernel.currentps.getD (-1)) r s' c⟩ := by
  simp only [FileStep, FileState.exec, bind_ok, Prod.exists, Except.ok.injEq] at h
  obtain ⟨r, s', hexec, rfl⟩ := h
  exact ⟨r, s', hexec, rfl⟩

end GalaxyOS
