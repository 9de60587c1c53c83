import GalaxyOS.Fs.FatComplete

/-! # Hostile FAT volumes

`vfat_isvalid` looks at a few bytes of the boot sector, and the fields of the boot sector, the FAT and
the directories are used as they are.  A division by a field that is zero, an index behind the FAT in
memory and a block behind the device are faults of the model; a mount or an access is contained if it
comes to its end without one.

The clusters that may be asked for are the readable ones (`FatMount.Readable`), and a mount is
contained exactly if the two divisors are not zero, the FAT is on the device and the directories that
the loops follow consist of readable clusters and are read to their end
(`vfat_contained_iff`).

The mount comes from `vfatAttemptMount_mount`, the termination of the directories and
`vfatReadCluster_ok` for each cluster; an access comes from `skipClusters_ok` and `readClusters_ok`
(`FatMount.vfatAccessfile_contained`). -/

namespace GalaxyOS

open Transition

/-! ### The functions -/

section Functions

variable {δ : Type}

/-- `vfat_isvalid`. -/
def vfatIsvalid (md : Medium δ) (disk : δ) : Except Fault (Bool × δ) :=
  let (bytes, buf, disk) := md.readBlocks disk 0 1
  if bytes = 0 then .ok (false, disk)
  else if buf.length < 512 then .error .overrun
  else if ¬(leBytes buf 510 1 = 0x55 ∧ leBytes buf 511 1 = 0xAA) then .ok (false, disk)
  else if ¬(leBytes buf 0 1 = 0xEB ∨ leBytes buf 0 1 = 0xE9) then .ok (false, disk)
  else if ¬(leBytes buf 0x36 1 = 0x46 ∨ leBytes buf 0x52 1 = 0x46) then .ok (false, disk)
  else .ok (true, disk)

namespace FatMount

variable (m : FatMount δ)

/-- The loop of `vfat_accessfile` to the cluster of the offset. -/
def skipClusters : ℕ → ℕ → Except Fault ℕ
  | 0, cluster => .ok cluster
  | n + 1, cluster => do
      let next ← m.vfatNextCluster cluster
      skipClusters n next

/-- The loop of `vfat_accessfile` that reads `n` clusters. -/
def readClusters (disk : δ) : ℕ → ℕ → Except Fault (List UInt8 × δ)
  | 0, _ => .ok ([], disk)
  | n + 1, cluster => do
      let (data, next, disk) ← m.vfatReadCluster disk cluster
      let (rest, disk) ← readClusters disk n next
      .ok (data ++ rest, disk)

/-- What `vfat_accessfile` reads into its temporary buffer. -/
def vfatTempbuf (disk : δ) (entry : List UInt8) (bytes loc : ℕ) :
    Except Fault (List UInt8 × δ) := do
  let clusterSize ← m.clusterSize
  let clusterloc ← divide loc clusterSize
  let clusters ← divide (roundUpInteger bytes clusterSize) clusterSize
  let cluster ← m.skipClusters clusterloc (slotCluster entry)
  m.readClusters disk clusters cluster

/-- `vfat_accessfile` on a file with this entry and size. -/
def vfatAccessfile (disk : δ) (write : Bool) (entry : List UInt8) (size : ℕ) (buffer : List UInt8)
    (len loc : ℕ) : Except Fault (Int × List UInt8 × δ) :=
  if write then .ok (-1, buffer, disk)
  else do
    let clusterSize ← m.clusterSize
    let bytes := accessBytes size len loc
    if bytes = 0 then .ok (0, buffer, disk)
    else if bytes < 0 then .ok (-1, buffer, disk)
    else do
      let (tempbuf, disk) ← m.vfatTempbuf disk entry bytes.toNat loc
      -- the copy must not run off the end of the temporary buffer
      if loc % clusterSize + bytes.toNat ≤ tempbuf.length then
        .ok (bytes, (tempbuf.drop (loc % clusterSize)).take bytes.toNat ++ buffer.drop bytes.toNat,
          disk)
      else .error .overrun

end FatMount

end Functions

/-! ### Readable clusters -/

namespace FatMount

variable (m : FatMount Unit)

/-- The place of a cluster's entry in the FAT. -/
def fatOffset (cluster : ℕ) : ℕ :=
  match m.info.fatType with
  | .fat12 => wrap32 (cluster + cluster / 2)
  | .fat16 => wrap32 (cluster * 2)
  | .fat32 => wrap32 (cluster * 4)

/-- The bytes of an entry. -/
def fatWidth : ℕ :=
  match m.info.fatType with
  | .fat32 => 4
  | _ => 2

/-- The entry. -/
def fatValue (cluster : ℕ) : ℕ :=
  match m.info.fatType with
  | .fat12 =>
      if cluster % 2 = 1 then leBytes m.fatTable (m.fatOffset cluster) 2 / 0x10
      else leBytes m.fatTable (m.fatOffset cluster) 2 % 0x1000
  | .fat16 => leBytes m.fatTable (m.fatOffset cluster) 2
  | .fat32 => leBytes m.fatTable (m.fatOffset cluster) 4 % 0x10000000

/-- The entry lies in the bytes of the FAT that have been loaded. -/
def FatIndexed (cluster : ℕ) : Prop := m.fatOffset cluster + m.fatWidth ≤ m.fatTable.length

/-- The blocks are on the device. -/
def BlocksInside (blocks index : ℕ) : Prop := ∀ i < blocks, wrap32 (index + i) < m.blocks

/-- The number of blocks of so many sectors. -/
def blockCount (fssector : ℕ) : ℕ :=
  roundUpInteger (wrap32 (fssector * m.bytesPerSector)) m.md.blocksize / m.md.blocksize

/-- The first block of a sector. -/
def blockIndex (fssector : ℕ) : ℕ := wrap32 (fssector * m.bytesPerSector) / m.md.blocksize

/-- A cluster whose entry is in the FAT and whose blocks are on the device. -/
def Readable (cluster : ℕ) : Prop :=
  m.FatIndexed cluster ∧ m.BlocksInside (m.blockCount m.sectorsPerCluster)
    (m.blockIndex (m.vfatClusterToSector cluster))

/-- From a cluster on, `skip` entries of the FAT can be followed, and then `read` clusters read. -/
def Follow : ℕ → ℕ → ℕ → Prop
  | 0, 0, _ => True
  | 0, read + 1, cluster => m.Readable cluster ∧ Follow 0 read (m.fatValue cluster)
  | skip + 1, read, cluster => m.FatIndexed cluster ∧ Follow skip read (m.fatValue cluster)

section Readable

variable {m}

theorem vfatNextCluster_ok {cluster next : ℕ} :
    m.vfatNextCluster cluster = .ok next ↔ m.FatIndexed cluster ∧ m.fatValue cluster = next := by
  unfold vfatNextCluster FatIndexed fatOffset fatWidth fatValue fatOffset
  cases m.info.fatType with
  | fat12 =>
      simp only
      constructor
      · intro h
        obtain ⟨v, hv, h⟩ := bind_ok.mp h
        obtain ⟨hlen, rfl⟩ := structField_ok.mp hv
        exact ⟨hlen, Except.ok.inj h⟩
      · rintro ⟨hlen, rfl⟩
        rw [structField_ok.mpr ⟨hlen, rfl⟩, ok_bind]
  | fat16 => exact structField_ok
  | fat32 =>
      simp only
      constructor
      · intro h
        obtain ⟨v, hv, h⟩ := bind_ok.mp h
        obtain ⟨hlen, rfl⟩ := structField_ok.mp hv
        exact ⟨hlen, Except.ok.inj h⟩
      · rintro ⟨hlen, rfl⟩
        rw [structField_ok.mpr ⟨hlen, rfl⟩, ok_bind]

theorem vfsReadBlocks_ok {blocks index : ℕ} {r : List UInt8 × Unit} :
    m.vfsReadBlocks () blocks index = .ok r ↔
      m.BlocksInside blocks index ∧ (m.md.readBlocks () index blocks).2 = r := by
  unfold vfsReadBlocks BlocksInside
  by_cases h : ((List.range blocks).all fun i => wrap32 (index + i) < m.blocks) = true
  · rw [if_pos h]
    have hinside : ∀ i < blocks, wrap32 (index + i) < m.blocks := by
      simpa using h
    exact ⟨fun hr => ⟨hinside, Except.ok.inj hr⟩, fun hr => congrArg Except.ok hr.2⟩
  · rw [if_neg h]
    have houtside : ¬∀ i < blocks, wrap32 (index + i) < m.blocks := by
      simpa using h
    simp [houtside]

theorem vfatSectorsToBlocks_ok (hpos : 0 < m.md.blocksize) (fssector : ℕ) :
    m.vfatSectorsToBlocks fssector = .ok (m.blockCount fssector) :=
  divide_ok.mpr ⟨by omega, rfl⟩

theorem vfatSectorToLba_ok (hpos : 0 < m.md.blocksize) (fssector : ℕ) :
    m.vfatSectorToLba fssector = .ok (m.blockIndex fssector) :=
  divide_ok.mpr ⟨by omega, rfl⟩

/-- A cluster can be read exactly if it is readable. -/
theorem vfatReadCluster_ok (hpos : 0 < m.md.blocksize) {cluster : ℕ} :
    (∃ r, m.vfatReadCluster () cluster = .ok r) ↔ m.Readable cluster := by
  unfold vfatReadCluster Readable
  rw [vfatSectorsToBlocks_ok hpos, vfatSectorToLba_ok hpos]
  simp only [ok_bind]
  constructor
  · rintro ⟨r, h⟩
    obtain ⟨next, hnext, h⟩ := bind_ok.mp h
    obtain ⟨p, hread, -⟩ := bind_ok.mp h
    exact ⟨(vfatNextCluster_ok.mp hnext).1, (vfsReadBlocks_ok.mp hread).1⟩
  · rintro ⟨hindex, hblocks⟩
    rw [vfatNextCluster_ok.mpr ⟨hindex, rfl⟩, ok_bind, vfsReadBlocks_ok.mpr ⟨hblocks, rfl⟩]
    exact ⟨_, rfl⟩

theorem vfatReadCluster_next (hpos : 0 < m.md.blocksize) {cluster : ℕ}
    (h : m.Readable cluster) : ∃ data, m.vfatReadCluster () cluster =
      .ok (data, m.fatValue cluster, ()) := by
  obtain ⟨hindex, hblocks⟩ := h
  unfold vfatReadCluster
  rw [vfatSectorsToBlocks_ok hpos, vfatSectorToLba_ok hpos, vfatNextCluster_ok.mpr ⟨hindex, rfl⟩]
  simp only [ok_bind]
  rw [vfsReadBlocks_ok.mpr ⟨hblocks, rfl⟩]
  exact ⟨_, rfl⟩

/-- Reading clusters one after the other. -/
theorem readClusters_ok (hpos : 0 < m.md.blocksize) (n : ℕ) : ∀ {cluster : ℕ},
    (∃ r, m.readClusters () n cluster = .ok r) ↔ m.Follow 0 n cluster := by
  induction n with
  | zero =>
      intro cluster
      unfold Follow readClusters
      exact ⟨fun _ => trivial, fun _ => ⟨_, rfl⟩⟩
  | succ n ih =>
      intro cluster
      unfold readClusters Follow
      constructor
      · rintro ⟨r, h⟩
        obtain ⟨⟨data, next, ⟨⟩⟩, hread, h⟩ := bind_ok.mp h
        obtain ⟨rest, hrest, -⟩ := bind_ok.mp h
        have hreadable := (vfatReadCluster_ok hpos).mp ⟨_, hread⟩
        obtain ⟨data', hnext⟩ := vfatReadCluster_next hpos hreadable
        obtain ⟨-, rfl, -⟩ : data = data' ∧ next = m.fatValue cluster ∧ () = () := by
          simpa using hread.symm.trans hnext
        exact ⟨hreadable, ih.mp ⟨rest, hrest⟩⟩
      · rintro ⟨hreadable, hfollow⟩
        obtain ⟨data, hread⟩ := vfatReadCluster_next hpos hreadable
        obtain ⟨rest, hrest⟩ := ih.mpr hfollow
        rw [hread, ok_bind]
        simp only
        rw [hrest]
        exact ⟨_, rfl⟩

/-- Following the FAT and reading then. -/
theorem skipClusters_ok (hpos : 0 < m.md.blocksize) (read skip : ℕ) : ∀ {cluster : ℕ},
    (∃ r, (do
      let cluster ← m.skipClusters skip cluster
      m.readClusters () read cluster) = .ok r) ↔ m.Follow skip read cluster := by
  induction skip with
  | zero =>
      intro cluster
      unfold skipClusters
      exact readClusters_ok hpos read
  | succ skip ih =>
      intro cluster
      unfold skipClusters Follow
      rw [← ih]
      constructor
      · rintro ⟨r, h⟩
        obtain ⟨c, hskip, h⟩ := bind_ok.mp h
        obtain ⟨next, hnext, hskip⟩ := bind_ok.mp hskip
        obtain ⟨hindex, rfl⟩ := vfatNextCluster_ok.mp hnext
        exact ⟨hindex, r, by rw [hskip, ok_bind, h]⟩
      · rintro ⟨hindex, r, h⟩
        obtain ⟨c, hskip, h⟩ := bind_ok.mp h
        refine ⟨r, ?_⟩
        rw [vfatNextCluster_ok.mpr ⟨hindex, rfl⟩, ok_bind, hskip, ok_bind, h]

end Readable

end FatMount

/-! ### The mount -/

/-- The first bytes of the boot sector. -/
def bootBytes (md : Medium Unit) : List UInt8 := (md.readBlocks () 0 1).2.1.take 90

/-- The two divisors in the boot sector are not zero. -/
def DivisorsOk (fatbs : List UInt8) : Prop := leBytes fatbs 11 2 ≠ 0 ∧ leBytes fatbs 13 1 ≠ 0

/-- The fields that `vfat_create_fatinfo` works out. -/
def bootInfo (fatbs : List UInt8) : FatInfo :=
  match vfatCreateFatinfo fatbs with
  | .ok (_, info) => info
  | .error _ => ⟨.fat12, 0, 0, 0, 0, 0, 0, 0, none, 0⟩

/-- The volume of a device, with its FAT in memory. -/
def bootMount (md : Medium Unit) (blocks : ℕ) : FatMount Unit :=
  let m : FatMount Unit := ⟨md, blocks, bootInfo (bootBytes md), bootBytes md, []⟩
  { m with
    fatTable :=
      (md.readBlocks () (m.blockIndex m.info.firstFatSector) (m.blockCount m.info.fatSize)).2.1 }

/-- There is memory for the FAT, and it is on the device. -/
structure FatMount.FatLoads (m : FatMount Unit) : Prop where
  served : m.md.Serves () (m.blockCount m.info.fatSize * m.md.blocksize)
  inside : m.BlocksInside (m.blockCount m.info.fatSize) (m.blockIndex m.info.firstFatSector)

section Mount

variable {md : Medium Unit} {blocks : ℕ}

theorem vfatCreateFatinfo_ok (fatbs : List UInt8) :
    (∃ r, vfatCreateFatinfo fatbs = .ok r) ↔ DivisorsOk fatbs := by
  unfold vfatCreateFatinfo DivisorsOk
  constructor
  · rintro ⟨r, h⟩
    obtain ⟨rootDirSectors, hroot, h⟩ := bind_ok.mp h
    obtain ⟨totalClusters, htotal, -⟩ := bind_ok.mp h
    exact ⟨(divide_ok.mp hroot).1, (divide_ok.mp htotal).1⟩
  · rintro ⟨hbytes, hsectors⟩
    simp only
    rw [divide_ok.mpr ⟨hbytes, rfl⟩, ok_bind]
    rw [divide_ok.mpr ⟨hsectors, rfl⟩, ok_bind, if_neg hbytes]
    split_ifs <;> exact ⟨_, rfl⟩

/-- The test for EXFAT comes too late to be true. -/
theorem vfatCreateFatinfo_code {fatbs : List UInt8} {code : ℕ} {info : FatInfo}
    (h : vfatCreateFatinfo fatbs = .ok (code, info)) : code = 0 := by
  obtain ⟨hbytes, -⟩ := (vfatCreateFatinfo_ok fatbs).mp ⟨_, h⟩
  unfold vfatCreateFatinfo at h
  obtain ⟨rootDirSectors, -, h⟩ := bind_ok.mp h
  obtain ⟨totalClusters, -, h⟩ := bind_ok.mp h
  rw [if_neg hbytes] at h
  by_cases hfat12 : totalClusters < 4085
  · rw [if_pos hfat12] at h
    exact (Prod.mk.inj (Except.ok.inj h)).1.symm
  · rw [if_neg hfat12] at h
    by_cases hfat16 : totalClusters < 65525
    · rw [if_pos hfat16] at h
      exact (Prod.mk.inj (Except.ok.inj h)).1.symm
    · rw [if_neg hfat16] at h
      exact (Prod.mk.inj (Except.ok.inj h)).1.symm

theorem vfatCreateFatinfo_eq {fatbs : List UInt8} (h : DivisorsOk fatbs) :
    vfatCreateFatinfo fatbs = .ok (0, bootInfo fatbs) := by
  obtain ⟨⟨code, info⟩, hinfo⟩ := (vfatCreateFatinfo_ok fatbs).mpr h
  unfold bootInfo
  rw [hinfo, vfatCreateFatinfo_code hinfo]

theorem vfatLoadFat_ok (hpos : 0 < md.blocksize) {r : FatMount Unit × Unit} :
    vfatLoadFat md blocks (bootInfo (bootBytes md)) (bootBytes md) () = .ok r ↔
      (bootMount md blocks).FatLoads ∧ r = (bootMount md blocks, ()) := by
  unfold vfatLoadFat
  simp only
  rw [FatMount.vfatSectorsToBlocks_ok hpos, FatMount.vfatSectorToLba_ok hpos]
  simp only [ok_bind]
  constructor
  · intro h
    obtain ⟨⟨⟩, hserved, h⟩ := bind_ok.mp h
    obtain ⟨p, hread, h⟩ := bind_ok.mp h
    obtain ⟨hinside, rfl⟩ := FatMount.vfsReadBlocks_ok.mp hread
    exact ⟨⟨Medium.buffer_ok.mp hserved, hinside⟩, (Except.ok.inj h).symm⟩
  · rintro ⟨hloads, rfl⟩
    refine bind_ok.mpr ⟨(), Medium.buffer_ok.mpr hloads.served, ?_⟩
    exact bind_ok.mpr ⟨_, FatMount.vfsReadBlocks_ok.mpr ⟨hloads.inside, rfl⟩, rfl⟩

/-- A device is not accepted if its first block cannot be read. -/
theorem vfatIsvalid_accepts (h : vfatIsvalid md () = .ok (true, ())) :
    (md.readBlocks () 0 1).1 ≠ 0 ∧ 512 ≤ (md.readBlocks () 0 1).2.1.length := by
  unfold vfatIsvalid at h
  simp only at h
  by_cases hbytes : (md.readBlocks () 0 1).1 = 0
  · rw [if_pos hbytes] at h
    cases h
  · rw [if_neg hbytes] at h
    by_cases hlen : (md.readBlocks () 0 1).2.1.length < 512
    · rw [if_pos hlen] at h
      cases h
    · exact ⟨hbytes, by omega⟩

/-- What `vfat_attempt_mount` does with a boot sector that `vfat_isvalid` has accepted. -/
theorem vfatAttemptMount_valid (hmd : md.Sound) (hvalid : vfatIsvalid md () = .ok (true, ())) {n : ℕ}
    {iso9660 : List UInt8 → List UInt8 → Unit → Except Fault (FatRoot Unit × Unit)}
    {st : MountState (FatRoot Unit) Unit} :
    (∃ r, vfatAttemptMount md ⟨iso9660, vfatReadTree n md blocks⟩ st = .ok r) ↔
      DivisorsOk (bootBytes md) ∧ (bootMount md blocks).FatLoads ∧
      ∃ r, (bootMount md blocks).vfatReadRoot n ⟨[], 32, ()⟩ = .ok r := by
  have hge := hmd.blocksize_ge
  have hpos : 0 < md.blocksize := by omega
  obtain ⟨hbytes, hlen⟩ := vfatIsvalid_accepts hvalid
  unfold vfatAttemptMount
  rcases hread : md.readBlocks () 0 1 with ⟨bytes, buf, ⟨⟩⟩
  have hboot : buf.take 90 = bootBytes md := by
    unfold bootBytes
    rw [hread]
  rw [hread] at hbytes hlen
  simp only at hbytes hlen ⊢
  rw [if_neg hbytes, if_neg (by omega), hboot]
  constructor
  · rintro ⟨r, h⟩
    obtain ⟨⟨code, info⟩, hinfo, h⟩ := bind_ok.mp h
    have hdiv := (vfatCreateFatinfo_ok _).mp ⟨_, hinfo⟩
    rw [vfatCreateFatinfo_eq hdiv] at hinfo
    obtain ⟨rfl, rfl⟩ := Prod.mk.inj (Except.ok.inj hinfo)
    simp only [ne_eq, not_true_eq_false, if_false] at h
    obtain ⟨⟨root, ⟨⟩⟩, htree, -⟩ := bind_ok.mp h
    unfold vfatReadTree at htree
    obtain ⟨p, hload, htree⟩ := bind_ok.mp htree
    obtain ⟨hloads, rfl⟩ := (vfatLoadFat_ok hpos).mp hload
    obtain ⟨p, hroot, -⟩ := bind_ok.mp htree
    exact ⟨hdiv, hloads, p, hroot⟩
  · rintro ⟨hdiv, hloads, p, hroot⟩
    rw [vfatCreateFatinfo_eq hdiv, ok_bind]
    simp only [ne_eq, not_true_eq_false, if_false]
    unfold vfatReadTree
    rw [(vfatLoadFat_ok hpos).mpr ⟨hloads, rfl⟩, ok_bind]
    simp only
    rw [hroot]
    exact ⟨_, rfl⟩

/-- The volume that is mounted. -/
theorem vfatAttemptMount_mount (hmd : md.Sound) (hvalid : vfatIsvalid md () = .ok (true, ())) {n : ℕ}
    {iso9660 : List UInt8 → List UInt8 → Unit → Except Fault (FatRoot Unit × Unit)}
    {st st' : MountState (FatRoot Unit) Unit}
    (h : vfatAttemptMount md ⟨iso9660, vfatReadTree n md blocks⟩ st = .ok (0, st')) :
    ∃ a, st'.mountpoint = some a ∧ (st'.mountpoints a).root.mount = bootMount md blocks := by
  have hge := hmd.blocksize_ge
  obtain ⟨hbytes, hlen⟩ := vfatIsvalid_accepts hvalid
  obtain ⟨hdiv, -, -⟩ := (vfatAttemptMount_valid hmd hvalid).mp ⟨_, h⟩
  unfold vfatAttemptMount at h
  rcases hread : md.readBlocks () 0 1 with ⟨bytes, buf, ⟨⟩⟩
  have hboot : buf.take 90 = bootBytes md := by
    unfold bootBytes
    rw [hread]
  rw [hread] at hbytes hlen h
  simp only at hbytes hlen h
  rw [if_neg hbytes, if_neg (by omega), hboot, vfatCreateFatinfo_eq hdiv, ok_bind] at h
  simp only [ne_eq, not_true_eq_false, if_false] at h
  obtain ⟨⟨root, ⟨⟩⟩, htree, h⟩ := bind_ok.mp h
  obtain ⟨-, rfl⟩ := Prod.mk.inj (Except.ok.inj h)
  refine ⟨st.nextMountpoint, rfl, ?_⟩
  unfold vfatReadTree at htree
  obtain ⟨p, hload, htree⟩ := bind_ok.mp htree
  obtain ⟨-, rfl⟩ := (vfatLoadFat_ok (by omega)).mp hload
  obtain ⟨p, -, htree⟩ := bind_ok.mp htree
  obtain ⟨rfl, -⟩ := Prod.mk.inj (Except.ok.inj htree)
  unfold MountState.setRoot
  simp only [Function.update_self]

end Mount

/-! ### The directories -/

namespace FatMount

/-- The root directory is read to its end. -/
def RootEnds (m : FatMount Unit) (size : ℕ) : Prop :=
  match m.info.rootDirCluster with
  | some cluster => m.LoopTree size cluster ∧ m.FitFrom size cluster
  | none => ∃ data, m.RootSector m.info.rootDirLba data ∧
      LongFits 0 (readSlots m.bytesPerSector data) ∧
      ∀ slot ∈ readDirs 0 (readSlots m.bytesPerSector data),
        m.LoopTree size (slotCluster slot) ∧ m.FitFrom size (slotCluster slot)

/-- The bytes of a cluster's blocks. -/
def clusterBytes (m : FatMount Unit) : ℕ := m.blockCount m.sectorsPerCluster * m.md.blocksize

section Directories

variable {m : FatMount Unit}

theorem leBytes_lt (data : List UInt8) (n : ℕ) : ∀ off, leBytes data off n < 0x100 ^ n := by
  induction n with
  | zero => exact fun _ => Nat.one_pos
  | succ n ih =>
      intro off
      have hbyte := (data.getD off 0).toNat_lt
      have hrest := ih (off + 1)
      unfold leBytes
      rw [Nat.pow_succ]
      omega

/-- The blocks that hold so many bytes. -/
theorem roundUp_blocks {bytes blocksize : ℕ} (hpos : 0 < bytes) (hlt : bytes < 0x1000000)
    (hge : 512 ≤ blocksize) (hle : blocksize ≤ 0x80000000) :
    0 < roundUpInteger bytes blocksize / blocksize ∧
      bytes ≤ roundUpInteger bytes blocksize / blocksize * blocksize := by
  unfold roundUpInteger
  rw [if_neg (by omega), Nat.mod_eq_of_lt (by omega), Nat.mul_div_cancel _ (by omega)]
  have hdiv := Nat.div_add_mod (bytes + blocksize - 1) blocksize
  have hmod := Nat.mod_lt (bytes + blocksize - 1) (show 0 < blocksize by omega)
  rw [Nat.mul_comm] at hdiv
  have hone : 0 < (bytes + blocksize - 1) / blocksize := Nat.div_pos (by omega) (by omega)
  exact ⟨hone, by omega⟩

theorem vfsReadBlocks_length (hmd : m.md.Sound) {blocks index : ℕ} {data : List UInt8}
    (h : m.vfsReadBlocks () blocks index = .ok (data, ())) :
    data.length = blocks * m.md.blocksize := by
  have hdata : (m.md.readBlocks () index blocks).2.1 = data :=
    congrArg Prod.fst (vfsReadBlocks_ok.mp h).2
  rw [← hdata]
  exact hmd.readBlocks_length blocks index

theorem regular_of_sound (hmd : m.md.Sound) (hdiv : DivisorsOk m.fatbs) :
    m.Regular m.clusterBytes where
  clusterSize := by
    have hge := hmd.blocksize_ge
    unfold FatMount.clusterSize
    rw [vfatSectorsToBlocks_ok (by omega)]
    rfl
  size_gt := by
    have hbps := leBytes_lt m.fatbs 2 11
    have hspc := leBytes_lt m.fatbs 1 13
    have hbytes : m.sectorsPerCluster * m.bytesPerSector < 0x100 * 0x10000 :=
      Nat.mul_lt_mul'' hspc hbps
    have hpos : 0 < m.sectorsPerCluster * m.bytesPerSector :=
      Nat.mul_pos (Nat.pos_of_ne_zero hdiv.2) (Nat.pos_of_ne_zero hdiv.1)
    have hwrap : wrap32 (m.sectorsPerCluster * m.bytesPerSector) =
        m.sectorsPerCluster * m.bytesPerSector := Nat.mod_eq_of_lt (by omega)
    obtain ⟨hone, -⟩ := roundUp_blocks hpos (by omega) hmd.blocksize_ge hmd.blocksize_le
    have hge := hmd.blocksize_ge
    unfold clusterBytes blockCount
    rw [hwrap]
    calc 32 < 1 * m.md.blocksize := by omega
      _ ≤ _ := Nat.mul_le_mul_right _ hone
  length cluster data next hread := by
    have hge := hmd.blocksize_ge
    unfold vfatReadCluster at hread
    rw [vfatSectorsToBlocks_ok (by omega)] at hread
    obtain ⟨next', -, hread⟩ := bind_ok.mp hread
    rw [ok_bind] at hread
    obtain ⟨lba, -, hread⟩ := bind_ok.mp hread
    obtain ⟨⟨data', ⟨⟩⟩, hdata, hread⟩ := bind_ok.mp hread
    obtain ⟨rfl, -⟩ := Prod.mk.inj (Except.ok.inj hread)
    exact vfsReadBlocks_length hmd hdata

/-- A sector fills its buffer. -/
theorem readSector_length (hmd : m.md.Sound) (hdiv : DivisorsOk m.fatbs) {sector : ℕ}
    {data : List UInt8} (h : m.readSector () sector = .ok (data, ())) :
    data.length = m.bytesPerSector := by
  have hge := hmd.blocksize_ge
  unfold readSector at h
  rw [vfatSectorsToBlocks_ok (by omega), vfatSectorToLba_ok (by omega)] at h
  simp only [ok_bind] at h
  by_cases hfits : m.blockCount 1 * m.md.blocksize ≤ m.bytesPerSector
  · rw [if_pos hfits] at h
    have hbps := leBytes_lt m.fatbs 2 11
    have hwrap : wrap32 (1 * m.bytesPerSector) = m.bytesPerSector := by
      unfold wrap32 bytesPerSector
      omega
    obtain ⟨-, hcover⟩ := roundUp_blocks (Nat.pos_of_ne_zero hdiv.1)
      (show m.bytesPerSector < 0x1000000 by unfold bytesPerSector; omega)
      hmd.blocksize_ge hmd.blocksize_le
    have hlen := vfsReadBlocks_length hmd h
    unfold blockCount at hfits hlen
    rw [hwrap] at hfits hlen
    exact hlen.trans (Nat.le_antisymm hfits hcover)
  · rw [if_neg hfits] at h
    cases h

theorem vfatReadRoot_ends (hmd : m.md.Sound) (hdiv : DivisorsOk m.fatbs) :
    (∃ n r, m.vfatReadRoot n ⟨[], 32, ()⟩ = .ok r) ↔ m.RootEnds m.clusterBytes := by
  have hreg := regular_of_sound hmd hdiv
  unfold vfatReadRoot RootEnds
  cases m.info.rootDirCluster with
  | some cluster =>
      constructor
      · rintro ⟨n, r, h⟩
        exact ⟨vfatReadDirectory_loopTree hreg n h, vfatReadDirectory_fits hreg h⟩
      · intro h
        exact (vfatReadDirectory_returns_iff hreg cluster).mpr h _ (Nat.zero_le 32)
  | none =>
      constructor
      · rintro ⟨n, r, h⟩
        have h : m.vfatReadRootSector n m.info.rootDirLba ⟨[], 32, ()⟩ = .ok r := h
        have hrun := h
        unfold vfatReadRootSector at hrun
        obtain ⟨⟨data, ⟨⟩⟩, hread, hrun⟩ := bind_ok.mp hrun
        have hlen := readSector_length hmd hdiv hread
        have hsector : m.RootSector m.info.rootDirLba data :=
          ⟨hread, hlen, loop_sector n (d := ⟨data, 0, 0, [], noContents⟩) (k := 0) hlen rfl hrun⟩
        exact ⟨data, hsector, vfatReadRootSector_ended hreg hsector h⟩
      · rintro ⟨data, hsector, hends⟩
        exact (vfatReadRootSector_returns_iff hreg hsector).mpr hends _ (Nat.zero_le 32)

end Directories

end FatMount

/-! ### Containment -/

/-- A read comes to the end of what it does with the device: it is refused, or there is nothing to
read, or all clusters are read. -/
def FatMount.AccessContained (m : FatMount Unit) (write : Bool) (entry : List UInt8)
    (size len loc : ℕ) : Prop :=
  write = true ∨ accessBytes size len loc ≤ 0 ∨
    ∃ r, m.vfatTempbuf () entry (accessBytes size len loc).toNat loc = .ok r

/-- An access that returns is contained. -/
theorem FatMount.vfatAccessfile_contained {m : FatMount Unit} {write : Bool} {entry : List UInt8}
    {size len loc : ℕ} {buffer : List UInt8} {r : Int × List UInt8 × Unit}
    (h : m.vfatAccessfile () write entry size buffer len loc = .ok r) :
    m.AccessContained write entry size len loc := by
  unfold vfatAccessfile at h
  by_cases hwrite : write = true
  · exact .inl hwrite
  · rw [if_neg hwrite] at h
    obtain ⟨clusterSize, -, h⟩ := bind_ok.mp h
    simp only at h
    by_cases hzero : accessBytes size len loc = 0
    · exact .inr (.inl (by omega))
    · rw [if_neg hzero] at h
      by_cases hneg : accessBytes size len loc < 0
      · exact .inr (.inl (by omega))
      · rw [if_neg hneg] at h
        obtain ⟨tempbuf, htemp, -⟩ := bind_ok.mp h
        exact .inr (.inr ⟨tempbuf, htemp⟩)

theorem FatMount.vfatTempbuf_ok {m : FatMount Unit} (hmd : m.md.Sound) (hdiv : DivisorsOk m.fatbs)
    (entry : List UInt8) (bytes loc : ℕ) :
    (∃ r, m.vfatTempbuf () entry bytes loc = .ok r) ↔
      m.Follow (loc / m.clusterBytes) (roundUpInteger bytes m.clusterBytes / m.clusterBytes)
        (slotCluster entry) := by
  have hreg := regular_of_sound hmd hdiv
  have hge := hmd.blocksize_ge
  have hgt := hreg.size_gt
  unfold vfatTempbuf
  rw [hreg.clusterSize, ok_bind, divide_ok.mpr ⟨by omega, rfl⟩, ok_bind,
    divide_ok.mpr ⟨by omega, rfl⟩, ok_bind]
  exact skipClusters_ok (by omega) _ _

/-- **Containment.**  For a device that `vfat_isvalid` accepts, `vfat_attempt_mount` comes to its end
without a fault exactly if the sector and cluster sizes are not zero, there is memory for the FAT, which is
on the device, and the directories that are followed consist of readable clusters and are read to their end.  A read of a
file in such a volume is contained exactly if the clusters that it follows and reads are in the FAT
and on the device. -/
theorem vfat_contained_iff (md : Medium Unit) (blocks : ℕ)
    (iso9660 : List UInt8 → List UInt8 → Unit → Except Fault (FatRoot Unit × Unit))
    (st : MountState (FatRoot Unit) Unit) (hmd : md.Sound)
    (hvalid : vfatIsvalid md () = .ok (true, ())) :
    ((∃ n r, vfatAttemptMount md ⟨iso9660, vfatReadTree n md blocks⟩ st = .ok r) ↔
      DivisorsOk (bootBytes md) ∧ (bootMount md blocks).FatLoads ∧
      (bootMount md blocks).RootEnds (bootMount md blocks).clusterBytes) ∧
    (∀ n st', vfatAttemptMount md ⟨iso9660, vfatReadTree n md blocks⟩ st = .ok (0, st') →
      ∃ a, st'.mountpoint = some a ∧ (st'.mountpoints a).root.mount = bootMount md blocks) ∧
    (DivisorsOk (bootBytes md) → ∀ write entry size len loc,
      (bootMount md blocks).AccessContained write entry size len loc ↔
        write = true ∨ accessBytes size len loc ≤ 0 ∨
        (bootMount md blocks).Follow (loc / (bootMount md blocks).clusterBytes)
          (roundUpInteger (accessBytes size len loc).toNat (bootMount md blocks).clusterBytes /
            (bootMount md blocks).clusterBytes) (slotCluster entry)) ∧
    ∀ cluster, (∃ r, (bootMount md blocks).vfatReadCluster () cluster = .ok r) ↔
      (bootMount md blocks).Readable cluster := by
  have hge := hmd.blocksize_ge
  have hpos : 0 < (bootMount md blocks).md.blocksize := by
    show 0 < md.blocksize
    omega
  refine ⟨?_, ?_, ?_, fun _ => FatMount.vfatReadCluster_ok hpos⟩
  · constructor
    · rintro ⟨n, h⟩
      obtain ⟨hdiv, hloads, hroot⟩ := (vfatAttemptMount_valid hmd hvalid).mp h
      exact ⟨hdiv, hloads, (FatMount.vfatReadRoot_ends (m := bootMount md blocks) hmd hdiv).mp
        ⟨n, hroot⟩⟩
    · rintro ⟨hdiv, hloads, hends⟩
      obtain ⟨n, hroot⟩ :=
        (FatMount.vfatReadRoot_ends (m := bootMount md blocks) hmd hdiv).mpr hends
      exact ⟨n, (vfatAttemptMount_valid hmd hvalid).mpr ⟨hdiv, hloads, hroot⟩⟩
  · intro n st' h
    exact vfatAttemptMount_mount hmd hvalid h
  · intro hdiv write entry size len loc
    unfold FatMount.AccessContained
    rw [FatMount.vfatTempbuf_ok (m := bootMount md blocks) hmd hdiv]

/-! ### Accepted volumes -/

/-- A boot sector that is accepted, with clusters of `spc` sectors. -/
def validBoot (spc : UInt8) : List UInt8 :=
  (bootSector 40).set 13 spc ++ List.replicate 30 0 ++ [0x46] ++ List.replicate 455 0 ++ [0x55, 0xAA]

/-- A device of 40 blocks with a directory `D` in its root, which has a file `B`. -/
def validVolume (spc : UInt8) : Medium Unit where
  blocksize := 512
  block _ i := (512, fullBlock (match i with
    | 0 => validBoot spc
    | 1 => [0xF8, 0xFF, 0xFF, 0xFF, 0x0F]
    | 2 => directoryEntry (letterName 0x44) 0x10 2 0
    | 3 => directoryEntry (letterName 0x42) 0x20 4 7
    | _ => []), ())
  kmalloc _ _ := true

theorem validBoot_length (spc : UInt8) : (validBoot spc).length = 512 := by
  have hboot : (bootSector 40).length = 24 := rfl
  unfold validBoot
  simp only [List.length_append, List.length_set, List.length_replicate, List.length_cons,
    List.length_nil, hboot]

theorem validVolume_sound (spc : UInt8) : (validVolume spc).Sound where
  length i := by
    match i with
    | 0 => exact fullBlock_length (l := validBoot spc) (validBoot_length spc).le
    | 1 => exact fullBlock_length (l := [0xF8, 0xFF, 0xFF, 0xFF, 0x0F]) (by decide)
    | 2 => exact fullBlock_length (l := directoryEntry (letterName 0x44) 0x10 2 0) (by decide)
    | 3 => exact fullBlock_length (l := directoryEntry (letterName 0x42) 0x20 4 7) (by decide)
    | i + 4 => exact fullBlock_length (l := []) (Nat.zero_le _)
  blocksize_ge := show 512 ≤ 512 by decide
  blocksize_le := show 512 ≤ 0x80000000 by decide

theorem vfat_contained_iff_validVolume : DivisorsOk (bootBytes (validVolume 1)) ∧
    (bootMount (validVolume 1) 40).FatLoads ∧
    (bootMount (validVolume 1) 40).RootEnds (bootMount (validVolume 1) 40).clusterBytes := by
  obtain ⟨r, hrun, -⟩ := OkAnd.exists_ok (by decide +kernel :
    OkAnd (vfatAttemptMount (validVolume 1)
      ⟨fun _ _ _ => .error .timeout, vfatReadTree 40 (validVolume 1) 40⟩ freshDevice) fun _ => True)
  exact (vfat_contained_iff (validVolume 1) 40 (fun _ _ _ => .error .timeout) freshDevice
    (validVolume_sound 1) (by decide +kernel)).1.mp ⟨40, r, hrun⟩

/-- With clusters of no sectors the volume is accepted, and the mount divides by zero. -/
theorem vfat_divides_by_zero :
    vfatIsvalid (validVolume 0) () = .ok (true, ()) ∧
    vfatAttemptMount (validVolume 0)
      ⟨fun _ _ _ => .error .timeout, vfatReadTree 9 (validVolume 0) 40⟩ freshDevice =
      .error (.panic "Divide by zero exception") := by
  constructor
  · decide +kernel
  · have hread : (validVolume 0).readBlocks () 0 1 = (512, fullBlock (validBoot 0), ()) := by
      decide +kernel
    have hinfo : vfatCreateFatinfo ((fullBlock (validBoot 0)).take 90) =
        .error (.panic "Divide by zero exception") := by decide +kernel
    have hlen : ¬(fullBlock (validBoot 0)).length < 90 := by decide +kernel
    unfold vfatAttemptMount
    rw [hread]
    simp only
    rw [if_neg (by decide), if_neg hlen, hinfo]
    rfl

end GalaxyOS
