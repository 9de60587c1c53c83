import GalaxyOS.Fs.Vfat

/-! # Mounting a volume

`vfs_mount` calls the driver and, if that succeeds, marks the device as mounted.  A driver makes a new
mount point and stores it in the device: `vfat_attempt_mount` when it has read everything,
`iso9660_attempt_mount` before it reads the path table, which can fail.  A device that was mounted is
then left with a mount point that nobody has filled in.

A block device reports how many bytes it has read, 0 if it could not.  What the drivers read after
their last way to fail, the directories, is a parameter of the model.

`mount_atomic_iff` says which failed mounts leave no trace.  `iso9660AttemptMount_fails` and
`vfatAttemptMount_fails` go through the ways in which a driver fails, and `vfsMount_late` shows that the
remaining one leaves a new mount point behind. -/

namespace GalaxyOS

open Transition

variable {ι δ : Type}

/-! ### Block devices -/

/-- The driver's side of `struct vfs_block_device`: `block` reads one block, and returns the number of
bytes read and the contents of the buffer.  `kmalloc` says which buffers the kernel has memory for. -/
structure Medium (δ : Type) where
  blocksize : ℕ
  block : δ → ℕ → ℕ × List UInt8 × δ
  kmalloc : δ → ℕ → Bool

/-- The kernel's heap lies above `KERNEL_START`, so it has no room for so many bytes. -/
def heapSize : ℕ := 0x40000000

/-- There is memory for a buffer of `size` bytes. -/
def Medium.Serves (md : Medium δ) (disk : δ) (size : ℕ) : Prop :=
  size < heapSize ∧ md.kmalloc disk size = true

instance (md : Medium δ) (disk : δ) (size : ℕ) : Decidable (md.Serves disk size) :=
  inferInstanceAs (Decidable (_ ∧ _))

/-- `kmalloc` of a buffer whose size the volume gives; without memory for it the kernel panics. -/
def Medium.buffer (md : Medium δ) (disk : δ) (size : ℕ) : Except Fault Unit :=
  if md.Serves disk size then .ok () else .error (.panic "Out of physical memory")

/-- `vfs_read_blocks`. -/
def Medium.readBlocks (md : Medium δ) (disk : δ) (index : ℕ) : ℕ → ℕ × List UInt8 × δ
  | 0 => (0, [], disk)
  | n + 1 =>
      let (bytes, data, disk₁) := md.block disk (wrap32 index)
      let (bytesread, rest, disk₂) := md.readBlocks disk₁ (index + 1) n
      (wrap32 (bytes + bytesread), data ++ rest, disk₂)

/-- A device whose reads fill a block.  Its blocks have at least the 512 bytes that `vfat_isvalid` looks
at. -/
structure Medium.Sound (md : Medium Unit) : Prop where
  length : ∀ i, (md.block () i).2.1.length = md.blocksize
  blocksize_ge : 512 ≤ md.blocksize
  blocksize_le : md.blocksize ≤ 0x80000000

theorem Medium.Sound.readBlocks_length {md : Medium Unit} (hmd : md.Sound) (n : ℕ) :
    ∀ index, (md.readBlocks () index n).2.1.length = n * md.blocksize := by
  induction n with
  | zero =>
      intro index
      rw [Nat.zero_mul]
      rfl
  | succ n ih =>
      intro index
      have hrest := ih (index + 1)
      simp only [Medium.readBlocks, List.length_append]
      rw [hmd.length, hrest, Nat.succ_mul, Nat.add_comm]

/-- A block of 512 bytes. -/
def fullBlock (l : List UInt8) : List UInt8 := l ++ List.replicate (512 - l.length) 0

theorem fullBlock_length {l : List UInt8} (h : l.length ≤ 512) : (fullBlock l).length = 512 := by
  unfold fullBlock
  rw [List.length_append, List.length_replicate]
  omega

/-- A little-endian field of `n` bytes. -/
def structField (data : List UInt8) (off n : ℕ) : Except Fault ℕ :=
  if off + n ≤ data.length then .ok (leBytes data off n) else .error .overrun

/-- An unsigned division of the kernel. -/
def divide (a b : ℕ) : Except Fault ℕ :=
  if b = 0 then .error (.panic "Divide by zero exception") else .ok (a / b)

/-! ### The device -/

/-- The block device as mounting changes it.  `mountpoints` is the kernel heap read as mount points,
and `kmalloc` returns the addresses one after the other.  A mounted device has a mount point, and the
mount point of a device has been allocated. -/
structure MountState (ι δ : Type) where
  mountpoint : Option ℕ
  mounted : Bool
  mountpoints : ℕ → VfsMountPoint ι
  nextMountpoint : ℕ
  disk : δ
  mounted_mountpoint : mounted = true → mountpoint.isSome
  mountpoint_lt : ∀ a ∈ mountpoint, a < nextMountpoint

namespace MountState

/-- The device as the lookup of paths sees it. -/
def device (st : MountState ι δ) : VfsBlockDevice ι where
  mounted := st.mounted
  mountpoint := st.mountpoint.map st.mountpoints
  mounted_mountpoint := fun h => by
    rw [Option.isSome_map]
    exact st.mounted_mountpoint h

/-- `kmalloc(sizeof(struct vfs_mount_point))`. -/
def alloc (st : MountState ι δ) : MountState ι δ :=
  { st with
    nextMountpoint := st.nextMountpoint + 1
    mountpoint_lt := fun a ha => Nat.lt_succ_of_lt (st.mountpoint_lt a ha) }

/-- A new mount point is stored in the device. -/
def publish (st : MountState ι δ) : MountState ι δ :=
  { st with
    mountpoint := some st.nextMountpoint
    nextMountpoint := st.nextMountpoint + 1
    mounted_mountpoint := fun _ => rfl
    mountpoint_lt := fun _ ha => Option.some.inj ha ▸ Nat.lt_succ_self st.nextMountpoint }

/-- The medium after a read. -/
def setDisk (st : MountState ι δ) (disk : δ) : MountState ι δ := { st with disk := disk }

/-- `mountpoint->root = root`. -/
def setRoot (st : MountState ι δ) (a : ℕ) (root : ι) : MountState ι δ :=
  { st with
    mountpoints := Function.update st.mountpoints a { st.mountpoints a with root := root } }

/-- What `vfs_mount` does with the mount point at `a`: the name is copied with `strncpy` and
terminated. -/
def setMounted (st : MountState ι δ) (a : ℕ) (name : List Char) (h : st.mountpoint = some a) :
    MountState ι δ :=
  { st with
    mounted := true
    mountpoints := Function.update st.mountpoints a
      { st.mountpoints a with
        name := name.take 16
        name_length := List.length_take_le 16 name }
    mounted_mountpoint := fun _ => h ▸ rfl }

end MountState

/-! ### The drivers -/

/-- `round_up_integer` of `iso9660.c`, which computes with `int`s. -/
def isoRoundUpInteger (number multiple : ℕ) : ℕ :=
  if multiple = 0 then number
  else
    let sum := intOfReg (wrap32 (number + multiple + 0xFFFFFFFF))
    (sum.tdiv (intOfReg multiple) * intOfReg multiple % 0x100000000).toNat

/-- `struct fat_info`, without the tables that are read later. -/
structure FatInfo where
  fatType : FatType
  totalClusters : ℕ
  fatSize : ℕ
  firstDataSector : ℕ
  dataSectors : ℕ
  totalSectors : ℕ
  rootDirSectors : ℕ
  rootDirLba : ℕ
  rootDirCluster : Option ℕ
  firstFatSector : ℕ

/-- What the drivers make of the directories when nothing can fail any more: from the volume
descriptor and the path table, or from the boot sector, the root directory. -/
structure Trees (ι δ : Type) where
  iso9660 : List UInt8 → List UInt8 → δ → Except Fault (ι × δ)
  vfat : FatInfo → List UInt8 → δ → Except Fault (ι × δ)

/-- `"CD001"`. -/
def cd001 : List UInt8 := [0x43, 0x44, 0x30, 0x30, 0x31]

/-- `iso9660_attempt_mount` once it has accepted the volume descriptor. -/
def iso9660ReadVolume (md : Medium δ) (t : Trees ι δ) (st : MountState ι δ) (pvd : List UInt8) :
    Except Fault (ℕ × MountState ι δ) := do
  -- blockdevice->mountpoint = mountpoint
  let st' := st.publish
  let pathTableSize ← structField pvd 132 4
  let pathTableLoc ← structField pvd 140 4
  md.buffer st'.disk (isoRoundUpInteger pathTableSize md.blocksize)
  let blocks ← divide (isoRoundUpInteger pathTableSize md.blocksize) md.blocksize
  let (bytes, pathtable, disk) := md.readBlocks st'.disk pathTableLoc blocks
  if bytes = 0 then .ok (1, st'.setDisk disk)
  else do
    let (root, disk) ← t.iso9660 pvd pathtable disk
    .ok (0, (st'.setDisk disk).setRoot st.nextMountpoint root)

/-- `iso9660_attempt_mount`. -/
def iso9660AttemptMount (md : Medium δ) (t : Trees ι δ) (st : MountState ι δ) (rw : Bool) :
    Except Fault (ℕ × MountState ι δ) :=
  if rw then .ok (3, st)
  else
    let (bytes, pvd, disk) := md.readBlocks st.disk 16 1
    if bytes = 0 then .ok (1, st.setDisk disk)
    else do
      let type ← structField pvd 0 1
      let identifier ← structField pvd 1 5
      -- why is the PVD not here
      if type ≠ 1 then .ok (2, st.setDisk disk)
      -- this is not an ISO9660 filesystem
      else if identifier ≠ leBytes cd001 0 5 then .ok (2, st.setDisk disk)
      else iso9660ReadVolume md t (st.setDisk disk) pvd

/-- `vfat_create_fatinfo`: the result and the fields of `fatinfo`.  A boot sector without a sector size
would be EXFAT, but the sector size is a divisor before it is compared with 0. -/
def vfatCreateFatinfo (fatbs : List UInt8) : Except Fault (ℕ × FatInfo) := do
  let bytesPerSector := leBytes fatbs 11 2
  let sectorsPerCluster := leBytes fatbs 13 1
  let reservedSectorCount := leBytes fatbs 14 2
  let tableCount := leBytes fatbs 16 1
  let rootEntryCount := leBytes fatbs 17 2
  let tableSize16 := leBytes fatbs 22 2
  let fatSize := if tableSize16 = 0 then leBytes fatbs 36 4 else tableSize16
  let totalSectors16 := leBytes fatbs 19 2
  let totalSectors := if totalSectors16 = 0 then leBytes fatbs 32 4 else totalSectors16
  let rootDirSectors ← divide (rootEntryCount * 32 + (bytesPerSector - 1)) bytesPerSector
  let firstDataSector := wrap32 (reservedSectorCount + tableCount * fatSize + rootDirSectors)
  let dataSectors := wrap32 (totalSectors + 0x100000000 - firstDataSector)
  let totalClusters ← divide dataSectors sectorsPerCluster
  let rootCluster := leBytes fatbs 44 4
  let info : FatInfo :=
    { fatType := .fat12, totalClusters, fatSize, firstDataSector, dataSectors, totalSectors,
      rootDirSectors, firstFatSector := reservedSectorCount, rootDirCluster := none
      rootDirLba := wrap32 (firstDataSector + 0x100000000 - rootDirSectors) }
  if bytesPerSector = 0 then .ok (2, info)
  else if totalClusters < 4085 then .ok (0, info)
  else if totalClusters < 65525 then .ok (0, { info with fatType := .fat16 })
  else
    .ok (0, { info with
      fatType := .fat32
      rootDirCluster := some rootCluster
      rootDirLba := wrap32 (wrap32 (rootCluster + 0xFFFFFFFE) * sectorsPerCluster +
        firstDataSector) })

/-- `vfat_attempt_mount`. -/
def vfatAttemptMount (md : Medium δ) (t : Trees ι δ) (st : MountState ι δ) :
    Except Fault (ℕ × MountState ι δ) :=
  let (bytes, buf, disk) := md.readBlocks st.disk 0 1
  if bytes = 0 then .ok (2, st.alloc.setDisk disk)
  -- sizeof(fat_BS_t)
  else if buf.length < 90 then .error .overrun
  else do
    let (r, fatinfo) ← vfatCreateFatinfo (buf.take 90)
    if r ≠ 0 then .ok (3, st.alloc.setDisk disk)
    else do
      let (root, disk) ← t.vfat fatinfo (buf.take 90) disk
      .ok (0, (st.publish.setDisk disk).setRoot st.nextMountpoint root)

/-- The drivers that the kernel registers. -/
inductive FsDriver where
  | iso9660 | vfat
deriving DecidableEq

/-- `fsdriver->mount`. -/
def FsDriver.mount (md : Medium δ) (t : Trees ι δ) (st : MountState ι δ) (rw : Bool) :
    FsDriver → Except Fault (ℕ × MountState ι δ)
  | .iso9660 => iso9660AttemptMount md t st rw
  | .vfat => vfatAttemptMount md t st

/-- `vfs_mount`: the mount point that is returned, or `none`. -/
def vfsMount (md : Medium δ) (t : Trees ι δ) (st : MountState ι δ) (fsdriver : FsDriver) (rw : Bool)
    (name : List Char) : Except Fault (Option ℕ × MountState ι δ) := do
  let (r, st') ← fsdriver.mount md t st rw
  if r = 0 then
    match h : st'.mountpoint with
    | none => .error .nullDeref
    | some a => .ok (some a, st'.setMounted a name h)
  else .ok (none, st')

/-! ### Failed mounts -/

/-- The device is what it was, and so is the mount point that lookups find through it. -/
structure MountState.Same (st st' : MountState ι δ) : Prop where
  mounted : st'.mounted = st.mounted
  mountpoint : st'.mountpoint = st.mountpoint
  heap : ∀ a < st.nextMountpoint, st'.mountpoints a = st.mountpoints a

/-- If the call returns `NULL`, the device is what it was, and the devices of the file system layer, in
which paths are looked up, are the same as before. -/
def MountAtomic (md : Medium δ) (t : Trees ι δ) (st : MountState ι δ) (fsdriver : FsDriver) (rw : Bool)
    (name : List Char) : Prop :=
  ∀ st', vfsMount md t st fsdriver rw name = .ok (none, st') →
    st'.mounted = st.mounted ∧ st'.mountpoint = st.mountpoint ∧
      ∀ (fs : Vfs ι) (i : ℕ), fs.blockdevices[i]? = some st.device →
        fs.blockdevices.set i st'.device = fs.blockdevices

/-- A disc with a primary volume descriptor whose path table cannot be read, although there is memory
for it. -/
structure Medium.NoPathTable (md : Medium δ) (disk : δ) : Prop where
  pvd_read : (md.readBlocks disk 16 1).1 ≠ 0
  pvd_size : 144 ≤ (md.readBlocks disk 16 1).2.1.length
  type : leBytes (md.readBlocks disk 16 1).2.1 0 1 = 1
  identifier : leBytes (md.readBlocks disk 16 1).2.1 1 5 = leBytes cd001 0 5
  blocksize : md.blocksize ≠ 0
  served : md.Serves (md.readBlocks disk 16 1).2.2
    (isoRoundUpInteger (leBytes (md.readBlocks disk 16 1).2.1 132 4) md.blocksize)
  unreadable : (md.readBlocks (md.readBlocks disk 16 1).2.2
    (leBytes (md.readBlocks disk 16 1).2.1 140 4)
    (isoRoundUpInteger (leBytes (md.readBlocks disk 16 1).2.1 132 4) md.blocksize /
      md.blocksize)).1 = 0

section Failures

variable {md : Medium δ} {t : Trees ι δ} {st st' : MountState ι δ} {rw : Bool} {r : ℕ}

theorem MountState.same_setDisk (st : MountState ι δ) (disk : δ) : st.Same (st.setDisk disk) :=
  ⟨rfl, rfl, fun _ _ => rfl⟩

theorem MountState.Same.device (h : st.Same st') : st'.device = st.device := by
  have hmap : st'.mountpoint.map st'.mountpoints = st.mountpoint.map st.mountpoints := by
    rw [h.mountpoint]
    apply Option.map_congr
    intro a ha
    exact h.heap a (st.mountpoint_lt a ha)
  unfold MountState.device
  simp only [h.mounted, hmap]

theorem structField_ok {data : List UInt8} {off n v : ℕ} :
    structField data off n = .ok v ↔ off + n ≤ data.length ∧ leBytes data off n = v := by
  unfold structField
  split_ifs with hlen
  · simp [hlen]
  · simp [hlen]

theorem Medium.buffer_ok {disk : δ} {size : ℕ} :
    md.buffer disk size = .ok () ↔ md.Serves disk size := by
  unfold Medium.buffer
  split_ifs with hserves
  · exact iff_of_true rfl hserves
  · exact iff_of_false (fun h => by cases h) hserves

theorem divide_ok {a b v : ℕ} : divide a b = .ok v ↔ b ≠ 0 ∧ a / b = v := by
  unfold divide
  split_ifs with hzero
  · simp [hzero]
  · simp [hzero]

/-- `iso9660_attempt_mount` fails with the device unchanged, unless it finds a volume descriptor and
no path table. -/
theorem iso9660AttemptMount_fails (hrun : iso9660AttemptMount md t st rw = .ok (r, st'))
    (hr : r ≠ 0) : st.Same st' ∨ (rw = false ∧ md.NoPathTable st.disk) := by
  unfold iso9660AttemptMount at hrun
  by_cases hrw : rw = true
  · rw [if_pos hrw] at hrun
    simp only [Except.ok.injEq, Prod.mk.injEq] at hrun
    obtain ⟨-, rfl⟩ := hrun
    exact .inl ⟨rfl, rfl, fun _ _ => rfl⟩
  · rw [if_neg hrw] at hrun
    rcases hread : md.readBlocks st.disk 16 1 with ⟨bytes, pvd, disk⟩
    rw [hread] at hrun
    simp only at hrun
    split_ifs at hrun with hbytes
    · simp only [Except.ok.injEq, Prod.mk.injEq] at hrun
      obtain ⟨-, rfl⟩ := hrun
      exact .inl (st.same_setDisk disk)
    · obtain ⟨type, htype, hrun⟩ := bind_ok.mp hrun
      obtain ⟨identifier, hid, hrun⟩ := bind_ok.mp hrun
      split_ifs at hrun with hpvd hcd
      · simp only [Except.ok.injEq, Prod.mk.injEq] at hrun
        obtain ⟨-, rfl⟩ := hrun
        exact .inl (st.same_setDisk disk)
      · simp only [Except.ok.injEq, Prod.mk.injEq] at hrun
        obtain ⟨-, rfl⟩ := hrun
        exact .inl (st.same_setDisk disk)
      · right
        unfold iso9660ReadVolume at hrun
        obtain ⟨size, hsize, hrun⟩ := bind_ok.mp hrun
        obtain ⟨loc, hloc, hrun⟩ := bind_ok.mp hrun
        obtain ⟨⟨⟩, hserved, hrun⟩ := bind_ok.mp hrun
        obtain ⟨blocks, hblocks, hrun⟩ := bind_ok.mp hrun
        obtain ⟨-, hsize⟩ := structField_ok.mp hsize
        obtain ⟨hlen, hloc⟩ := structField_ok.mp hloc
        obtain ⟨hdiv, hblocks⟩ := divide_ok.mp hblocks
        rcases htable : md.readBlocks disk loc blocks with ⟨bytes', pathtable, disk'⟩
        have hdisk : (MountState.setDisk st disk).publish.disk = disk := rfl
        rw [hdisk] at hserved
        rw [hdisk, htable] at hrun
        simp only at hrun
        split_ifs at hrun with hbytes'
        · refine ⟨by simpa using hrw, ?_, ?_, ?_, ?_, hdiv, ?_, ?_⟩ <;> rw [hread]
          · exact hbytes
          · exact hlen
          · rw [(structField_ok.mp htype).2]
            exact not_not.mp hpvd
          · rw [(structField_ok.mp hid).2]
            exact not_not.mp hcd
          · rw [hsize]
            exact Medium.buffer_ok.mp hserved
          · rw [hsize, hloc, hblocks, htable]
            exact hbytes'
        · obtain ⟨⟨root, disk''⟩, -, hrun⟩ := bind_ok.mp hrun
          simp only [Except.ok.injEq, Prod.mk.injEq] at hrun
          exact absurd hrun.1.symm hr

/-- `vfat_attempt_mount` always fails with the device unchanged. -/
theorem vfatAttemptMount_fails (hrun : vfatAttemptMount md t st = .ok (r, st')) (hr : r ≠ 0) :
    st.Same st' := by
  unfold vfatAttemptMount at hrun
  rcases hread : md.readBlocks st.disk 0 1 with ⟨bytes, buf, disk⟩
  rw [hread] at hrun
  simp only at hrun
  split_ifs at hrun with hbytes hlen
  · simp only [Except.ok.injEq, Prod.mk.injEq] at hrun
    obtain ⟨-, rfl⟩ := hrun
    exact ⟨rfl, rfl, fun _ _ => rfl⟩
  · obtain ⟨⟨code, fatinfo⟩, -, hrun⟩ := bind_ok.mp hrun
    simp only at hrun
    split_ifs at hrun with hcode
    · simp only [Except.ok.injEq, Prod.mk.injEq] at hrun
      obtain ⟨-, rfl⟩ := hrun
      exact ⟨rfl, rfl, fun _ _ => rfl⟩
    · obtain ⟨⟨root, disk'⟩, -, hrun⟩ := bind_ok.mp hrun
      simp only [Except.ok.injEq, Prod.mk.injEq] at hrun
      exact absurd hrun.1.symm hr

/-- Without a path table the new mount point stays in the device. -/
theorem iso9660AttemptMount_late (t : Trees ι δ) (h : md.NoPathTable st.disk) :
    ∃ disk, iso9660AttemptMount md t st false = .ok (1, st.publish.setDisk disk) := by
  obtain ⟨hbytes, hlen, htype, hid, hdiv, hserved, htable⟩ := h
  rcases hread : md.readBlocks st.disk 16 1 with ⟨bytes, pvd, disk⟩
  rw [hread] at hbytes hlen htype hid hserved htable
  simp only at hbytes hlen htype hid hserved htable
  have hfields : ∀ off n, off + n ≤ 144 → structField pvd off n = .ok (leBytes pvd off n) :=
    fun off n hle => structField_ok.mpr ⟨Nat.le_trans hle hlen, rfl⟩
  have hvolume : ∃ disk', iso9660ReadVolume md t (st.setDisk disk) pvd =
      .ok (1, (st.setDisk disk).publish.setDisk disk') := by
    refine ⟨(md.readBlocks disk (leBytes pvd 140 4)
      (isoRoundUpInteger (leBytes pvd 132 4) md.blocksize / md.blocksize)).2.2, ?_⟩
    unfold iso9660ReadVolume
    have hbuffer : md.buffer (st.setDisk disk).publish.disk
        (isoRoundUpInteger (leBytes pvd 132 4) md.blocksize) = .ok () := Medium.buffer_ok.mpr hserved
    rw [hfields 132 4 (by decide), hfields 140 4 (by decide), ok_bind, ok_bind]
    simp only
    rw [hbuffer, ok_bind, divide_ok.mpr ⟨hdiv, rfl⟩, ok_bind]
    show (if (md.readBlocks disk _ _).1 = 0 then _ else _) = _
    rw [if_pos htable]
    rfl
  obtain ⟨disk', hvolume⟩ := hvolume
  refine ⟨disk', ?_⟩
  unfold iso9660AttemptMount
  rw [hread, if_neg (by decide)]
  simp only
  rw [if_neg hbytes, hfields 0 1 (by decide), hfields 1 5 (by decide), ok_bind, ok_bind, htype, hid,
    if_neg (fun hne => hne rfl), if_neg (fun hne => hne rfl)]
  exact hvolume

theorem vfsMount_late (t : Trees ι δ) (st : MountState ι δ) (name : List Char)
    (h : md.NoPathTable st.disk) :
    ∃ disk, vfsMount md t st .iso9660 false name = .ok (none, st.publish.setDisk disk) := by
  obtain ⟨disk, hrun⟩ := iso9660AttemptMount_late t h
  refine ⟨disk, ?_⟩
  unfold vfsMount FsDriver.mount
  rw [hrun]
  rfl

end Failures

/-! ### Failed mounts leave no trace -/

/-- **Failed mounts.**  For every device, mounted or not, whatever it holds, and either driver, a call
that returns `NULL` leaves the device and the lookup of paths as they were, unless it is the ISO 9660
driver mounting for reading a disc whose path table cannot be read. -/
theorem mount_atomic_iff (md : Medium δ) (t : Trees ι δ) (st : MountState ι δ) (fsdriver : FsDriver)
    (rw : Bool) (name : List Char) : MountAtomic md t st fsdriver rw name ↔
      ¬(fsdriver = .iso9660 ∧ rw = false ∧ md.NoPathTable st.disk) := by
  constructor
  · rintro hatomic ⟨rfl, rfl, hlate⟩
    obtain ⟨disk, hrun⟩ := vfsMount_late t st name hlate
    obtain ⟨-, hsame, -⟩ := hatomic _ hrun
    exact absurd (st.mountpoint_lt st.nextMountpoint hsame.symm) (Nat.lt_irrefl _)
  · intro hearly st' hrun
    unfold vfsMount at hrun
    obtain ⟨⟨r, st₁⟩, hmount, hrun⟩ := bind_ok.mp hrun
    simp only at hrun
    split_ifs at hrun with hr
    · split at hrun
      · cases hrun
      · simp only [Except.ok.injEq, Prod.mk.injEq] at hrun
        cases hrun.1
    · simp only [Except.ok.injEq, Prod.mk.injEq] at hrun
      obtain ⟨-, rfl⟩ := hrun
      have hsame : st.Same st₁ := by
        cases fsdriver with
        | vfat => exact vfatAttemptMount_fails hmount hr
        | iso9660 =>
            rcases iso9660AttemptMount_fails hmount hr with hsame | ⟨hrw, hlate⟩
            · exact hsame
            · exact absurd ⟨rfl, hrw, hlate⟩ hearly
      refine ⟨hsame.mounted, hsame.mountpoint, fun fs i hi => ?_⟩
      obtain ⟨hlen, hi⟩ := List.getElem?_eq_some_iff.mp hi
      rw [hsame.device, ← hi]
      exact List.set_getElem_self hlen

/-- A disc with a volume descriptor in block 16 that says that the path table is empty. -/
def tablelessDisc : Medium Unit where
  blocksize := 2048
  block _ i := (2048, (if i = 16 then 1 :: cd001 else List.replicate 6 0) ++ List.replicate 2042 0, ())
  kmalloc _ _ := true

theorem cdName_length : "cd".toList.length ≤ 16 := by decide

theorem noName_length : ([] : List Char).length ≤ 16 := by decide

/-- A device that is mounted as `cd`, with that disc.  The rest of the heap holds zeros. -/
def mountedDisc : MountState Unit Unit where
  mountpoint := some 0
  mounted := true
  mountpoints a := if a = 0 then ⟨"cd".toList, (), cdName_length⟩ else ⟨[], (), noName_length⟩
  nextMountpoint := 1
  disk := ()
  mounted_mountpoint := fun _ => rfl
  mountpoint_lt := fun _ ha => Option.some.inj ha ▸ Nat.zero_lt_one

theorem tablelessDisc_noPathTable : tablelessDisc.NoPathTable () :=
  ⟨by decide, by decide +kernel, by decide, by decide, by decide, by decide, by decide⟩

/-- Any directories. -/
def rootOnly : Trees Unit Unit := ⟨fun _ _ disk => .ok ((), disk), fun _ _ disk => .ok ((), disk)⟩

/-- The volume `cd` is mounted again, which fails: the device stays mounted, but no longer as `cd`. -/
theorem mount_not_atomic :
    (∃ st', vfsMount tablelessDisc rootOnly mountedDisc .iso9660 false "cd".toList =
        .ok (none, st') ∧ mountedDisc.device.mountpoint.map (·.name) = some "cd".toList ∧
      st'.device.mounted = true ∧ st'.device.mountpoint.map (·.name) = some []) ∧
    ¬MountAtomic tablelessDisc rootOnly mountedDisc .iso9660 false "cd".toList := by
  obtain ⟨disk, hrun⟩ := vfsMount_late rootOnly mountedDisc "cd".toList
    tablelessDisc_noPathTable
  constructor
  · exact ⟨_, hrun, rfl, rfl, rfl⟩
  · intro hatomic
    obtain ⟨-, hsame, -⟩ := hatomic _ hrun
    cases hsame

end GalaxyOS
