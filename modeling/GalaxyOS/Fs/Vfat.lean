import GalaxyOS.Fs.OpenFiles
import GalaxyOS.Lib.Chunks

/-! # Reading a file from a FAT volume

`vfat_accessfile` of `vfat.c`: it follows the cluster chain of the file to the cluster of the
offset, reads as many clusters as the number of bytes fills into a temporary buffer and copies the
bytes out of it.  The number of clusters does not depend on the place of the offset in its cluster,
so a read that starts inside a cluster can need one cluster more than is read.

A volume is what the mount has left: the fields of the boot sector and the FAT in memory.  The
device is read block by block, and a read of a block succeeds.

`vfat_access_exact_iff` says which reads deliver the bytes of the file.

`FatVolume.ValidCluster.read` and `FatVolume.Chain.read` find the bytes of clusters in the first 4 GiB,
`readBytes_exact` copies them out, and `near_of_exact` says that a file that is read right from every
device has no others. -/

namespace GalaxyOS

open Transition Chunks

/-! ### The volume -/

/-- `fat_type`.  A volume of another type is not mounted. -/
inductive FatType where
  | fat12 | fat16 | fat32
deriving DecidableEq

/-- The fields of `struct fat_info` and of the boot sector that reading uses, on a block device with
blocks of `blocksize` bytes.  `vfat_attempt_mount` takes the 90 bytes of the boot sector out of one
block and divides by the size of a sector and the number of sectors in a cluster, and the block size
divides the sector size. -/
structure FatVolume where
  blocksize : ℕ
  fatType : FatType
  fatTable : List UInt8
  bytesPerSector : ℕ
  sectorsPerCluster : ℕ
  firstDataSector : ℕ
  totalSectors : ℕ
  bytesPerSector_pos : 0 < bytesPerSector
  bytesPerSector_lt : bytesPerSector < 0x10000
  sectorsPerCluster_pos : 0 < sectorsPerCluster
  sectorsPerCluster_lt : sectorsPerCluster < 0x100
  totalSectors_lt : totalSectors < 0x100000000
  blocksize_ge : 90 ≤ blocksize
  blocksize_dvd : blocksize ∣ bytesPerSector

/-- The contents of a block device. -/
structure BlockContents (blocksize : ℕ) where
  block : ℕ → List UInt8
  length : ∀ i, (block i).length = blocksize

/-- `vfs_read_blocks`, with the blocks that it reads. -/
def vfsReadBlocks {blocksize : ℕ} (dev : BlockContents blocksize) (blocks index : ℕ) : List UInt8 :=
  (List.range blocks).flatMap fun i => dev.block ((i + index) % 0x100000000)

/-- `round_up_integer`. -/
def roundUpInteger (number multiple : ℕ) : ℕ :=
  if multiple = 0 then number
  else (number + multiple - 1) % 0x100000000 / multiple * multiple

namespace FatVolume

variable (v : FatVolume)

/-- `vfat_cluster_to_sector`. -/
def vfatClusterToSector (cluster : ℕ) : ℕ :=
  -- `cluster - 2` in 32 bits
  ((cluster + 0xFFFFFFFE) % 0x100000000 * v.sectorsPerCluster + v.firstDataSector) % 0x100000000

/-- `vfat_sectors_to_blocks`. -/
def vfatSectorsToBlocks (fssector : ℕ) : ℕ :=
  roundUpInteger (fssector * v.bytesPerSector % 0x100000000) v.blocksize / v.blocksize

/-- `vfat_sector_to_lba`. -/
def vfatSectorToLba (fssector : ℕ) : ℕ :=
  fssector * v.bytesPerSector % 0x100000000 / v.blocksize

/-- A little-endian number of `n` bytes in the FAT. -/
def fatEntry (off n : ℕ) : Except Fault ℕ :=
  if off + n ≤ v.fatTable.length then .ok (leBytes v.fatTable off n) else .error .overrun

/-- `vfat_next_cluster`. -/
def vfatNextCluster (cluster : ℕ) : Except Fault ℕ :=
  match v.fatType with
  | .fat12 => do
      let tableValue ← v.fatEntry ((cluster + cluster / 2) % 0x100000000) 2
      .ok (if cluster % 2 = 1 then tableValue / 0x10 else tableValue % 0x1000)
  | .fat16 => v.fatEntry (cluster * 2 % 0x100000000) 2
  | .fat32 => do
      let tableValue ← v.fatEntry (cluster * 4 % 0x100000000) 4
      .ok (tableValue % 0x10000000)

/-- The data that `vfat_read_cluster` reads. -/
def clusterRead (dev : BlockContents v.blocksize) (cluster : ℕ) : List UInt8 :=
  vfsReadBlocks dev (v.vfatSectorsToBlocks v.sectorsPerCluster)
    (v.vfatSectorToLba (v.vfatClusterToSector cluster))

/-- `vfat_read_cluster`: the data of the cluster and the next one. -/
def vfatReadCluster (dev : BlockContents v.blocksize) (cluster : ℕ) :
    Except Fault (List UInt8 × ℕ) := do
  let next ← v.vfatNextCluster cluster
  .ok (v.clusterRead dev cluster, next)

/-- The loop of `vfat_accessfile` to the cluster of the offset. -/
def skipClusters : ℕ → ℕ → Except Fault ℕ
  | 0, cluster => .ok cluster
  | n + 1, cluster => do
      let next ← v.vfatNextCluster cluster
      skipClusters n next

/-- The loop of `vfat_accessfile` that reads `n` clusters. -/
def readClusters (dev : BlockContents v.blocksize) : ℕ → ℕ → Except Fault (List UInt8)
  | 0, _ => .ok []
  | n + 1, cluster => do
      let (data, next) ← v.vfatReadCluster dev cluster
      let rest ← readClusters dev n next
      .ok (data ++ rest)

/-- `cluster_size`. -/
def clusterSize : ℕ := v.vfatSectorsToBlocks v.sectorsPerCluster * v.blocksize

end FatVolume

/-- The number of bytes that a driver sets out to read, as an `ssize_t`. -/
def accessBytes (size len loc : ℕ) : Int :=
  let left := (size + 0x100000000 - loc) % 0x100000000
  intOfReg (if len ≥ left then left else len)

/-- What `vfat_accessfile` does once it knows how many bytes to read. -/
def FatVolume.readBytes (v : FatVolume) (dev : BlockContents v.blocksize) (fcluster : ℕ)
    (buffer : List UInt8) (bytes loc : ℕ) : Except Fault (Int × List UInt8) := do
  let readsize := roundUpInteger bytes v.clusterSize
  let cluster ← v.skipClusters (loc / v.clusterSize) fcluster
  let tempbuf ← v.readClusters dev (readsize / v.clusterSize) cluster
  -- the copy must not run off the end of the temporary buffer
  if loc % v.clusterSize + bytes ≤ tempbuf.length then
    .ok (bytes, (tempbuf.drop (loc % v.clusterSize)).take bytes ++ buffer.drop bytes)
  else .error .overrun

/-- `vfat_accessfile` on a file with the given size and first cluster. -/
def vfatAccessfile (v : FatVolume) (dev : BlockContents v.blocksize) (write : Bool)
    (size fcluster : ℕ) (buffer : List UInt8) (len loc : ℕ) : Except Fault (Int × List UInt8) :=
  if write then .ok (-1, buffer)
  else
    let bytes := accessBytes size len loc
    if bytes = 0 then .ok (0, buffer)
    else if bytes < 0 then .ok (-1, buffer)
    else v.readBytes dev fcluster buffer bytes.toNat loc

/-! ### Files -/

namespace FatVolume

variable (v : FatVolume)

/-- The number of a cluster inside the volume. -/
def ValidCluster (c : ℕ) : Prop :=
  2 ≤ c ∧ (c - 2) * v.sectorsPerCluster + v.sectorsPerCluster + v.firstDataSector ≤ v.totalSectors

/-- A part of a cluster chain: clusters of the volume, each with the next one in the FAT. -/
inductive Chain : ℕ → List ℕ → Prop
  | nil (c : ℕ) : Chain c []
  | cons {c c' : ℕ} {cs : List ℕ} : v.ValidCluster c → v.vfatNextCluster c = .ok c' → Chain c' cs →
      Chain c (c :: cs)

/-- The blocks of one sector. -/
def sectorBlocks : ℕ := v.bytesPerSector / v.blocksize

/-- The first sector of a cluster. -/
def clusterSector (c : ℕ) : ℕ := (c - 2) * v.sectorsPerCluster + v.firstDataSector

/-- The bytes of a cluster on the device. -/
def clusterData (dev : BlockContents v.blocksize) (c : ℕ) : List UInt8 :=
  (List.range (v.sectorsPerCluster * v.sectorBlocks)).flatMap fun i =>
    dev.block (v.clusterSector c * v.sectorBlocks + i)

end FatVolume

/-- A file whose cluster chain covers its size. -/
structure FatFile (v : FatVolume) where
  size : ℕ
  fcluster : ℕ
  clusters : List ℕ
  size_lt : size < 0x100000000
  chain : v.Chain fcluster clusters
  covers : size ≤ clusters.length * (v.sectorsPerCluster * v.bytesPerSector)

/-- The concatenation of the clusters of the file. -/
def FatFile.contents {v : FatVolume} (f : FatFile v) (dev : BlockContents v.blocksize) :
    List UInt8 := f.clusters.flatMap (v.clusterData dev)

/-- The call delivers the bytes of the file: none if there are none to read, an error past its end,
and otherwise those from `loc` on. -/
def AccessExact {v : FatVolume} (f : FatFile v) (dev : BlockContents v.blocksize)
    (buffer : List UInt8) (len loc : ℕ) : Prop :=
  ∃ r buffer', vfatAccessfile v dev false f.size f.fcluster buffer len loc = .ok (r, buffer') ∧
    (len = 0 ∨ loc = f.size → r = 0) ∧
    (len ≠ 0 → f.size < loc → r < 0) ∧
    (len ≠ 0 → loc < f.size → r = min len (f.size - loc) ∧
      buffer'.take (min len (f.size - loc)) = ((f.contents dev).drop loc).take (min len (f.size - loc)))

/-- Every cluster with one of the `n` bytes from `loc` on lies in the first 4 GiB of the volume. -/
def FatFile.Near {v : FatVolume} (f : FatFile v) (loc n : ℕ) : Prop :=
  ∀ i, loc / v.clusterSize ≤ i → i * v.clusterSize < loc + n → ∀ c ∈ f.clusters[i]?,
    v.clusterSector c * v.bytesPerSector < 0x100000000

/-- The reads that the driver serves: nothing to read; past the end, a number of bytes that is
negative as an `ssize_t`; otherwise a number that is not, of bytes in as many clusters as they
would fill. -/
def FatFile.Serves {v : FatVolume} (f : FatFile v) (len loc : ℕ) : Prop :=
  len = 0 ∨ loc = f.size ∨
    (f.size < loc ∧ 0x80000000 ≤ min len (f.size + 0x100000000 - loc)) ∨
    (loc < f.size ∧ min len (f.size - loc) < 0x80000000 ∧
      loc % v.clusterSize + min len (f.size - loc) ≤
        roundUpInteger (min len (f.size - loc)) v.clusterSize ∧
      f.Near loc (min len (f.size - loc)))

/-! ### Sizes -/

namespace FatVolume

variable (v : FatVolume)

theorem sectorBlocks_mul : v.sectorBlocks * v.blocksize = v.bytesPerSector :=
  Nat.div_mul_cancel v.blocksize_dvd

theorem cluster_lt : v.sectorsPerCluster * v.bytesPerSector < 0x1000000 :=
  Nat.mul_lt_mul'' v.sectorsPerCluster_lt v.bytesPerSector_lt

theorem vfatSectorsToBlocks_cluster :
    v.vfatSectorsToBlocks v.sectorsPerCluster = v.sectorsPerCluster * v.sectorBlocks := by
  have hlt := v.cluster_lt
  have hbs : 0 < v.blocksize := Nat.lt_of_lt_of_le (by omega) v.blocksize_ge
  have hsize : v.blocksize ≤ v.bytesPerSector := Nat.le_of_dvd v.bytesPerSector_pos v.blocksize_dvd
  have hsector := v.bytesPerSector_lt
  have hmul : v.sectorsPerCluster * v.bytesPerSector =
      v.blocksize * (v.sectorsPerCluster * v.sectorBlocks) := by
    rw [← v.sectorBlocks_mul, Nat.mul_comm v.blocksize, Nat.mul_assoc]
  unfold vfatSectorsToBlocks roundUpInteger
  rw [if_neg (by omega), Nat.mod_eq_of_lt (show _ < 0x100000000 by omega),
    Nat.mod_eq_of_lt (by omega), Nat.mul_div_cancel _ hbs, hmul, Nat.add_sub_assoc hbs,
    Nat.mul_add_div hbs, Nat.div_eq_of_lt (by omega), Nat.add_zero]

theorem clusterSize_eq : v.clusterSize = v.sectorsPerCluster * v.bytesPerSector := by
  unfold clusterSize
  rw [vfatSectorsToBlocks_cluster, Nat.mul_assoc, sectorBlocks_mul]

theorem clusterSize_pos : 0 < v.clusterSize := by
  rw [clusterSize_eq]
  exact Nat.mul_pos v.sectorsPerCluster_pos v.bytesPerSector_pos

theorem clusterSize_lt : v.clusterSize < 0x1000000 := by
  rw [clusterSize_eq]
  exact v.cluster_lt

theorem clusterRead_length (dev : BlockContents v.blocksize) (c : ℕ) :
    (v.clusterRead dev c).length = v.clusterSize := by
  unfold clusterRead vfsReadBlocks
  rw [flatMap_length fun i => dev.length _, List.length_range]
  rfl

theorem clusterData_length (dev : BlockContents v.blocksize) (c : ℕ) :
    (v.clusterData dev c).length = v.clusterSize := by
  unfold clusterData
  rw [flatMap_length fun i => dev.length _, List.length_range, ← vfatSectorsToBlocks_cluster]
  rfl

variable {v}

theorem ValidCluster.sector {c : ℕ} (h : v.ValidCluster c) :
    v.vfatClusterToSector c = v.clusterSector c := by
  obtain ⟨h2, htotal⟩ := h
  have hlt := v.totalSectors_lt
  have hc : c - 2 ≤ (c - 2) * v.sectorsPerCluster := Nat.le_mul_of_pos_right _ v.sectorsPerCluster_pos
  unfold vfatClusterToSector clusterSector
  rw [show (c + 0xFFFFFFFE) % 0x100000000 = c - 2 by omega]
  exact Nat.mod_eq_of_lt (by omega)

/-- A cluster in the first 4 GiB is read from its place. -/
theorem ValidCluster.read {c : ℕ} (h : v.ValidCluster c) (dev : BlockContents v.blocksize)
    (hnear : v.clusterSector c * v.bytesPerSector < 0x100000000) :
    v.clusterRead dev c = v.clusterData dev c := by
  have hbs : 0 < v.blocksize := Nat.lt_of_lt_of_le (by omega) v.blocksize_ge
  have hmul : v.clusterSector c * v.bytesPerSector =
      v.clusterSector c * v.sectorBlocks * v.blocksize := by
    rw [Nat.mul_assoc, v.sectorBlocks_mul]
  have hlba : v.vfatSectorToLba (v.vfatClusterToSector c) = v.clusterSector c * v.sectorBlocks := by
    unfold vfatSectorToLba
    rw [h.sector, Nat.mod_eq_of_lt hnear, hmul, Nat.mul_div_cancel _ hbs]
  have hblocks : v.sectorsPerCluster * v.sectorBlocks < 0x1000000 := by
    calc v.sectorsPerCluster * v.sectorBlocks
        ≤ v.sectorsPerCluster * v.bytesPerSector := by
          apply Nat.mul_le_mul_left
          exact Nat.div_le_self ..
      _ < 0x1000000 := v.cluster_lt
  have hbase : v.clusterSector c * v.sectorBlocks * 90 < 0x100000000 := by
    calc v.clusterSector c * v.sectorBlocks * 90
        ≤ v.clusterSector c * v.sectorBlocks * v.blocksize := Nat.mul_le_mul_left _ v.blocksize_ge
      _ < 0x100000000 := by rwa [← hmul]
  unfold clusterRead clusterData vfsReadBlocks
  rw [vfatSectorsToBlocks_cluster, hlba]
  apply List.flatMap_congr
  intro i hi
  have hlt := List.mem_range.mp hi
  rw [Nat.mod_eq_of_lt (by omega), Nat.add_comm]

/-- A cluster behind them is not. -/
theorem ValidCluster.far {c : ℕ} (h : v.ValidCluster c)
    (hfar : ¬v.clusterSector c * v.bytesPerSector < 0x100000000) (i : ℕ) :
    (i + v.vfatSectorToLba (v.vfatClusterToSector c)) % 0x100000000 <
      v.clusterSector c * v.sectorBlocks + i := by
  have hbs : 0 < v.blocksize := Nat.lt_of_lt_of_le (by omega) v.blocksize_ge
  have hlba : v.vfatSectorToLba (v.vfatClusterToSector c) < v.clusterSector c * v.sectorBlocks := by
    unfold vfatSectorToLba
    rw [h.sector]
    apply Nat.div_lt_of_lt_mul
    rw [Nat.mul_comm v.blocksize, Nat.mul_assoc, v.sectorBlocks_mul]
    omega
  have hle := Nat.mod_le (i + v.vfatSectorToLba (v.vfatClusterToSector c)) 0x100000000
  omega

/-! ### Walking the chain -/

theorem Chain.skip {c : ℕ} {cs : List ℕ} (h : v.Chain c cs) {i : ℕ} (hi : i ≤ cs.length) :
    ∃ c', v.skipClusters i c = .ok c' ∧ v.Chain c' (cs.drop i) := by
  induction h generalizing i with
  | nil c =>
      obtain rfl := Nat.le_zero.mp hi
      exact ⟨c, rfl, .nil c⟩
  | cons hc hnext hrest ih =>
      cases i with
      | zero => exact ⟨_, rfl, .cons hc hnext hrest⟩
      | succ i =>
          obtain ⟨c', hskip, hchain⟩ := ih (Nat.le_of_succ_le_succ hi)
          refine ⟨c', ?_, hchain⟩
          unfold skipClusters
          rw [hnext, ok_bind, hskip]

theorem Chain.read {c : ℕ} {cs : List ℕ} (h : v.Chain c cs) (dev : BlockContents v.blocksize)
    {k : ℕ} (hk : k ≤ cs.length) :
    v.readClusters dev k c = .ok ((cs.take k).flatMap (v.clusterRead dev)) := by
  induction h generalizing k with
  | nil c =>
      obtain rfl := Nat.le_zero.mp hk
      rfl
  | cons hc hnext hrest ih =>
      cases k with
      | zero => rfl
      | succ k =>
          unfold readClusters vfatReadCluster
          rw [hnext, ok_bind, ok_bind]
          simp only
          rw [ih (Nat.le_of_succ_le_succ hk), ok_bind, List.take_succ_cons, List.flatMap_cons]

theorem Chain.valid {c : ℕ} {cs : List ℕ} (h : v.Chain c cs) : ∀ c' ∈ cs, v.ValidCluster c' := by
  induction h with
  | nil c => exact fun c' hc' => absurd hc' List.not_mem_nil
  | cons hc hnext hrest ih =>
      intro c' hc'
      rcases List.mem_cons.mp hc' with rfl | hc'
      · exact hc
      · exact ih c' hc'

end FatVolume

/-! ### Counting bytes and clusters -/

theorem accessBytes_eq {size len loc : ℕ} (hsize : size < 0x100000000) (hloc : loc < 0x100000000) :
    accessBytes size len loc =
      intOfReg (min len (if loc ≤ size then size - loc else size + 0x100000000 - loc)) := by
  have hleft : (size + 0x100000000 - loc) % 0x100000000 =
      if loc ≤ size then size - loc else size + 0x100000000 - loc := by
    split_ifs <;> omega
  unfold accessBytes
  simp only [hleft]
  congr 1
  split_ifs <;> omega

/-- The clusters that a read of `m` bytes takes. -/
theorem roundUpInteger_div {m cs : ℕ} (hm : m < 0x80000000) (hcs : 0 < cs) (hlt : cs < 0x1000000) :
    roundUpInteger m cs / cs = (m + cs - 1) / cs ∧
      roundUpInteger m cs = (m + cs - 1) / cs * cs := by
  unfold roundUpInteger
  rw [if_neg (by omega), Nat.mod_eq_of_lt (by omega)]
  exact ⟨Nat.mul_div_cancel _ hcs, rfl⟩

/-- They are not more than the file has from the cluster of `loc` on. -/
theorem clusters_le {m loc cs n : ℕ} (hcs : 0 < cs) (h : loc + m ≤ n * cs) :
    loc / cs + (m + cs - 1) / cs ≤ n := by
  have hloc := Nat.div_mul_le_self loc cs
  have hle : loc / cs ≤ n := by
    apply Nat.div_le_of_le_mul
    rw [Nat.mul_comm]
    omega
  obtain ⟨k, rfl⟩ := Nat.exists_eq_add_of_le hle
  rw [Nat.add_mul] at h
  have hk : (m + cs - 1) / cs ≤ k := by
    apply Nat.le_of_lt_succ
    apply Nat.div_lt_of_lt_mul
    rw [Nat.mul_succ, Nat.mul_comm]
    omega
  omega

/-- Each of them has some of the bytes. -/
theorem cluster_needed {m loc cs j : ℕ} (hcs : 0 < cs) (hj : j < (m + cs - 1) / cs) :
    (loc / cs + j) * cs < loc + m := by
  have hloc := Nat.div_mul_le_self loc cs
  have hlt : j * cs < m := by
    have hle : (j + 1) * cs ≤ m + cs - 1 :=
      (Nat.mul_le_mul_right cs hj).trans (Nat.div_mul_le_self ..)
    rw [Nat.succ_mul] at hle
    omega
  rw [Nat.add_mul]
  omega

/-! ### Reads -/

namespace FatFile

variable {v : FatVolume} (f : FatFile v) (dev : BlockContents v.blocksize)

/-- The temporary buffer for `m` bytes from `loc` on. -/
def tempbuf (m loc : ℕ) : List UInt8 :=
  ((f.clusters.drop (loc / v.clusterSize)).take ((m + v.clusterSize - 1) / v.clusterSize)).flatMap
    (v.clusterRead dev)

variable {f} {m loc : ℕ}

theorem clusters_le (hend : loc + m ≤ f.size) :
    loc / v.clusterSize + (m + v.clusterSize - 1) / v.clusterSize ≤ f.clusters.length := by
  apply GalaxyOS.clusters_le v.clusterSize_pos
  rw [v.clusterSize_eq]
  exact hend.trans f.covers

theorem tempbuf_length (hm : m < 0x80000000) (hend : loc + m ≤ f.size) :
    (f.tempbuf dev m loc).length = roundUpInteger m v.clusterSize := by
  have hle := clusters_le hend
  unfold tempbuf
  rw [flatMap_length (v.clusterRead_length dev),
    (roundUpInteger_div hm v.clusterSize_pos v.clusterSize_lt).2, List.length_take,
    List.length_drop, Nat.min_eq_left (by omega)]

/-- The clusters are read, and the bytes are copied if they are all there. -/
theorem readBytes_eq (buffer : List UInt8) (hm : m < 0x80000000) (hend : loc + m ≤ f.size) :
    v.readBytes dev f.fcluster buffer m loc =
      if loc % v.clusterSize + m ≤ roundUpInteger m v.clusterSize then
        .ok (m, ((f.tempbuf dev m loc).drop (loc % v.clusterSize)).take m ++ buffer.drop m)
      else .error .overrun := by
  have hle := clusters_le hend
  obtain ⟨c, hskip, hchain⟩ := f.chain.skip ((Nat.le_add_right _ _).trans hle)
  have hread := hchain.read dev (k := (m + v.clusterSize - 1) / v.clusterSize)
    (by rw [List.length_drop]; omega)
  have hlen := tempbuf_length dev hm hend
  unfold FatVolume.readBytes
  simp only [hskip, ok_bind, (roundUpInteger_div hm v.clusterSize_pos v.clusterSize_lt).1, hread]
  unfold tempbuf at hlen ⊢
  rw [hlen]

/-- In the first 4 GiB, the buffer holds the clusters of the file. -/
theorem tempbuf_near (hend : loc + m ≤ f.size) (hnear : f.Near loc m) :
    f.tempbuf dev m loc = ((f.clusters.drop (loc / v.clusterSize)).take
      ((m + v.clusterSize - 1) / v.clusterSize)).flatMap (v.clusterData dev) := by
  have hle := clusters_le hend
  unfold tempbuf
  apply List.flatMap_congr
  intro c hc
  obtain ⟨j, hj, rfl⟩ := List.mem_take_iff_getElem.mp hc
  rw [List.length_drop] at hj
  rw [List.getElem_drop]
  have hmem : f.clusters[loc / v.clusterSize + j] ∈ f.clusters := List.getElem_mem _
  refine (f.chain.valid _ hmem).read dev (hnear (loc / v.clusterSize + j) (Nat.le_add_right ..)
    (cluster_needed v.clusterSize_pos (by omega)) _ (List.getElem?_eq_getElem _))

/-- The bytes of the file. -/
theorem readBytes_exact (buffer : List UInt8) (hm : m < 0x80000000) (hend : loc + m ≤ f.size)
    (hfit : loc % v.clusterSize + m ≤ roundUpInteger m v.clusterSize) (hnear : f.Near loc m) :
    ∃ buffer', v.readBytes dev f.fcluster buffer m loc = .ok (m, buffer') ∧
      buffer'.take m = ((f.contents dev).drop loc).take m := by
  have hlen := tempbuf_length dev hm hend
  refine ⟨_, by rw [readBytes_eq dev buffer hm hend, if_pos hfit], ?_⟩
  rw [List.take_append_of_le_length (by rw [List.length_take, List.length_drop]; omega),
    List.take_take, Nat.min_self, tempbuf_near dev hend hnear,
    flatMap_window (v.clusterData_length dev), Nat.mul_comm, Nat.div_add_mod]
  · rfl
  · rwa [← (roundUpInteger_div hm v.clusterSize_pos v.clusterSize_lt).2]

/-! ### Reads that are not served -/

/-- A device with ones in one block and zeros in all others. -/
def oneBlock (blocksize target : ℕ) : BlockContents blocksize where
  block i := List.replicate blocksize (if i = target then 1 else 0)
  length _ := List.length_replicate

/-- A cluster behind the first 4 GiB, the block of a byte of it being marked. -/
theorem far_byte {c : ℕ} (hc : v.ValidCluster c)
    (hfar : ¬v.clusterSector c * v.bytesPerSector < 0x100000000) {r : ℕ} (hr : r < v.clusterSize) :
    let dev := oneBlock v.blocksize (v.clusterSector c * v.sectorBlocks + r / v.blocksize)
    (v.clusterData dev c)[r]? = some 1 ∧ (v.clusterRead dev c)[r]? = some 0 := by
  intro dev
  have hbs : 0 < v.blocksize := Nat.lt_of_lt_of_le (by omega) v.blocksize_ge
  have hmod := Nat.mod_lt r hbs
  have hr' : r / v.blocksize * v.blocksize + r % v.blocksize = r := Nat.div_add_mod' ..
  have hblock : r / v.blocksize < v.sectorsPerCluster * v.sectorBlocks := by
    apply Nat.div_lt_of_lt_mul
    rw [Nat.mul_comm, Nat.mul_assoc, v.sectorBlocks_mul, ← v.clusterSize_eq]
    exact hr
  have hbyte : ∀ i, (dev.block i)[r % v.blocksize]? =
      some (if i = v.clusterSector c * v.sectorBlocks + r / v.blocksize then 1 else 0) := by
    intro i
    exact List.getElem?_replicate_of_lt hmod
  constructor
  · unfold FatVolume.clusterData
    rw [← hr', flatMap_getElem? (fun i => dev.length _) _ _ hmod, List.getElem?_range hblock,
      Option.bind_some, hbyte, if_pos rfl]
  · unfold FatVolume.clusterRead vfsReadBlocks
    rw [v.vfatSectorsToBlocks_cluster]
    rw [← hr', flatMap_getElem? (fun i => dev.length _) _ _ hmod, List.getElem?_range hblock,
      Option.bind_some, hbyte, if_neg]
    exact Nat.ne_of_lt (hc.far hfar _)

/-- If the bytes are read right from every device, then their clusters are near. -/
theorem near_of_exact (hpos : 0 < m) (hm : m < 0x80000000)
    (hfit : loc % v.clusterSize + m ≤ roundUpInteger m v.clusterSize)
    (h : ∀ dev, ((f.tempbuf dev m loc).drop (loc % v.clusterSize)).take m =
      ((f.contents dev).drop loc).take m) : f.Near loc m := by
  intro i hi hlt c hget
  by_contra hfar
  have hcs := v.clusterSize_pos
  have hc : v.ValidCluster c := f.chain.valid c (List.mem_of_getElem? hget)
  have hloc : loc / v.clusterSize * v.clusterSize + loc % v.clusterSize = loc := Nat.div_add_mod' ..
  obtain ⟨d, rfl⟩ := Nat.exists_eq_add_of_le hi
  -- a byte of the file in that cluster, and its place there
  obtain ⟨r, k, hr, hk, hplace⟩ : ∃ r k, r < v.clusterSize ∧ k < m ∧
      loc % v.clusterSize + k = d * v.clusterSize + r := by
    rw [Nat.add_mul] at hlt
    have hmod := Nat.mod_lt loc hcs
    cases d with
    | zero => exact ⟨loc % v.clusterSize, 0, hmod, by omega, by omega⟩
    | succ d =>
        rw [Nat.succ_mul] at hlt ⊢
        exact ⟨0, d * v.clusterSize + v.clusterSize - loc % v.clusterSize, hcs, by omega, by omega⟩
  obtain ⟨hdata, hread⟩ := far_byte hc hfar hr
  generalize oneBlock v.blocksize (v.clusterSector c * v.sectorBlocks + r / v.blocksize) = dev
    at hdata hread
  have hd : d < (m + v.clusterSize - 1) / v.clusterSize := by
    apply Nat.lt_of_mul_lt_mul_right (a := v.clusterSize)
    rw [← (roundUpInteger_div hm hcs v.clusterSize_lt).2]
    omega
  have hbytes := congrArg (fun l => l[k]?) (h dev)
  simp only [List.getElem?_take, hk, if_true, List.getElem?_drop] at hbytes
  have hplace' : loc + k = (loc / v.clusterSize + d) * v.clusterSize + r := by
    rw [Nat.add_mul]
    omega
  unfold tempbuf contents at hbytes
  rw [hplace, hplace', flatMap_getElem? (v.clusterRead_length dev) _ _ hr,
    flatMap_getElem? (v.clusterData_length dev) _ _ hr, hget, List.getElem?_take, if_pos hd,
    List.getElem?_drop, hget, Option.bind_some, Option.bind_some, hdata, hread] at hbytes
  cases hbytes

end FatFile

/-! ### The driver -/

variable {v : FatVolume}

/-- A call that is not asked to write, by the number of bytes to read. -/
theorem vfatAccessfile_read (f : FatFile v) (dev : BlockContents v.blocksize) (buffer : List UInt8)
    (len loc : ℕ) (hloc : loc < 0x100000000) {m : ℕ} (hlen : m < 0x100000000)
    (hm : m = min len (if loc ≤ f.size then f.size - loc else f.size + 0x100000000 - loc)) :
    vfatAccessfile v dev false f.size f.fcluster buffer len loc =
      if m = 0 then .ok (0, buffer)
      else if 0x80000000 ≤ m then .ok (-1, buffer)
      else v.readBytes dev f.fcluster buffer m loc := by
  unfold vfatAccessfile
  simp only [Bool.false_eq_true, if_false]
  rw [accessBytes_eq f.size_lt hloc, ← hm]
  by_cases hneg : 0x80000000 ≤ m
  · have hlt := intOfReg_neg hneg hlen
    rw [if_neg (by omega), if_pos hlt, if_neg (by omega), if_pos hneg]
  · rw [intOfReg_of_lt (by omega), if_neg hneg]
    by_cases h0 : m = 0
    · subst h0
      rfl
    · rw [if_neg (by omega), if_neg (by omega), if_neg h0, Int.toNat_natCast]

/-- A read of some bytes inside the file. -/
theorem inside_iff (f : FatFile v) (buffer : List UInt8) {m loc : ℕ} (hpos : 0 < m)
    (hend : loc + m ≤ f.size) :
    (∀ dev, ∃ r buffer', (if 0x80000000 ≤ m then .ok (-1, buffer)
        else v.readBytes dev f.fcluster buffer m loc) = .ok (r, buffer') ∧ r = (m : Int) ∧
          buffer'.take m = ((f.contents dev).drop loc).take m) ↔
      m < 0x80000000 ∧ loc % v.clusterSize + m ≤ roundUpInteger m v.clusterSize ∧ f.Near loc m := by
  constructor
  · intro h
    have hm : m < 0x80000000 := by
      by_contra hneg
      obtain ⟨r, buffer', hcall, hr, -⟩ := h (FatFile.oneBlock v.blocksize 0)
      rw [if_pos (by omega)] at hcall
      obtain ⟨rfl, -⟩ := Prod.mk.inj (Except.ok.inj hcall)
      omega
    have hfit : loc % v.clusterSize + m ≤ roundUpInteger m v.clusterSize := by
      by_contra hover
      obtain ⟨r, buffer', hcall, -⟩ := h (FatFile.oneBlock v.blocksize 0)
      rw [if_neg (by omega), FatFile.readBytes_eq _ buffer hm hend, if_neg hover] at hcall
      cases hcall
    refine ⟨hm, hfit, FatFile.near_of_exact hpos hm hfit fun dev => ?_⟩
    obtain ⟨r, buffer', hcall, -, hbytes⟩ := h dev
    have hlen := FatFile.tempbuf_length dev hm hend
    rw [if_neg (by omega), FatFile.readBytes_eq dev buffer hm hend, if_pos hfit] at hcall
    obtain ⟨-, rfl⟩ := Prod.mk.inj (Except.ok.inj hcall)
    rwa [List.take_append_of_le_length (by rw [List.length_take, List.length_drop]; omega),
      List.take_take, Nat.min_self] at hbytes
  · rintro ⟨hm, hfit, hnear⟩ dev
    obtain ⟨buffer', hcall, hbytes⟩ := FatFile.readBytes_exact dev buffer hm hend hfit hnear
    exact ⟨m, buffer', by rw [if_neg (by omega), hcall], rfl, hbytes⟩

/-- A read that goes on returns the number of bytes. -/
theorem readBytes_result {dev : BlockContents v.blocksize} {fcluster m loc : ℕ}
    {buffer buffer' : List UInt8} {r : Int}
    (h : v.readBytes dev fcluster buffer m loc = .ok (r, buffer')) : r = m := by
  unfold FatVolume.readBytes at h
  simp only [bind_ok] at h
  obtain ⟨c, -, tempbuf, -, h⟩ := h
  split_ifs at h
  exact (Prod.mk.inj (Except.ok.inj h)).1.symm

/-- The driver delivers the bytes of the file from every device exactly for the reads it serves. -/
theorem vfat_access_exact_iff (f : FatFile v) (buffer : List UInt8) (len loc : UInt32) :
    (∀ dev, AccessExact f dev buffer len.toNat loc.toNat) ↔ f.Serves len.toNat loc.toNat := by
  have hloc := loc.toNat_lt
  have hlen := len.toNat_lt
  generalize len.toNat = len at hlen ⊢
  generalize loc.toNat = loc at hloc ⊢
  have hsize := f.size_lt
  have hcall := fun dev m => vfatAccessfile_read f dev buffer len loc hloc (m := m)
  unfold FatFile.Serves AccessExact
  by_cases h0 : len = 0
  · refine ⟨fun _ => .inl h0, fun _ dev => ⟨0, buffer, ?_, fun _ => rfl, ?_, ?_⟩⟩
    · rw [hcall dev 0 (by omega) (by rw [h0, Nat.zero_min]), if_pos rfl]
    · exact fun h => absurd h0 h
    · exact fun h => absurd h0 h
  obtain hlt | rfl | hgt := Nat.lt_trichotomy loc f.size
  · -- inside the file
    have hm : min len (f.size - loc) ≠ 0 := by omega
    have hread := fun dev => hcall dev (min len (f.size - loc)) (by omega)
      (by rw [if_pos (by omega)])
    have hiff := inside_iff f buffer (show 0 < min len (f.size - loc) by omega)
      (show loc + min len (f.size - loc) ≤ f.size by omega)
    simp only [hread, if_neg hm]
    constructor
    · intro h
      refine .inr (.inr (.inr ⟨hlt, hiff.mp fun dev => ?_⟩))
      obtain ⟨r, buffer', hok, -, -, hexact⟩ := h dev
      obtain ⟨hr, hbytes⟩ := hexact h0 hlt
      exact ⟨r, buffer', hok, hr, hbytes⟩
    · intro h dev
      rcases h with h | h | ⟨h, -⟩ | ⟨-, h⟩
      · exact absurd h h0
      · omega
      · omega
      obtain ⟨r, buffer', hok, hr, hbytes⟩ := hiff.mpr h dev
      refine ⟨r, buffer', hok, ?_, ?_, fun _ _ => ⟨hr, hbytes⟩⟩
      · rintro (h | h)
        · exact absurd h h0
        · omega
      · intro _ h
        omega
  · refine ⟨fun _ => .inr (.inl rfl), fun _ dev => ⟨0, buffer, ?_, fun _ => rfl, ?_, ?_⟩⟩
    · rw [hcall dev 0 (by omega) (by rw [if_pos (Nat.le_refl _), Nat.sub_self, Nat.min_zero]),
        if_pos rfl]
    · exact fun _ h => absurd h (Nat.lt_irrefl _)
    · exact fun _ h => absurd h (Nat.lt_irrefl _)
  · -- past its end
    have hm : min len (f.size + 0x100000000 - loc) ≠ 0 := by omega
    have hread := fun dev => hcall dev (min len (f.size + 0x100000000 - loc)) (by omega)
      (by rw [if_neg (by omega)])
    simp only [hread, if_neg hm]
    constructor
    · intro h
      refine .inr (.inr (.inl ⟨hgt, ?_⟩))
      by_contra hpos
      obtain ⟨r, buffer', hok, -, hneg, -⟩ := h (FatFile.oneBlock v.blocksize 0)
      rw [if_neg (by omega)] at hok
      have hr := readBytes_result hok
      have := hneg h0 hgt
      omega
    · intro h dev
      have hneg : 0x80000000 ≤ min len (f.size + 0x100000000 - loc) := by
        rcases h with h | h | ⟨-, h⟩ | ⟨h, -⟩
        · exact absurd h h0
        · omega
        · exact h
        · omega
      refine ⟨-1, buffer, if_pos hneg, ?_, fun _ _ => by decide, fun _ h => by omega⟩
      rintro (h | h)
      · exact absurd h h0
      · omega

/-- A small FAT12 volume with one sector in a cluster. -/
def floppy : FatVolume where
  blocksize := 512
  fatType := .fat12
  fatTable := [0xF8, 0xFF, 0xFF, 0x03, 0xF0, 0xFF]
  bytesPerSector := 512
  sectorsPerCluster := 1
  firstDataSector := 33
  totalSectors := 2880
  bytesPerSector_pos := by decide
  bytesPerSector_lt := by decide
  sectorsPerCluster_pos := by decide
  sectorsPerCluster_lt := by decide
  totalSectors_lt := by decide
  blocksize_ge := by decide
  blocksize_dvd := by decide

theorem floppy_chain : floppy.Chain 2 [2, 3] := by
  have h2 : floppy.ValidCluster 2 := by
    unfold FatVolume.ValidCluster
    decide
  have h3 : floppy.ValidCluster 3 := by
    unfold FatVolume.ValidCluster
    decide
  have hnext : floppy.vfatNextCluster 2 = .ok 3 := by decide
  have hlast : floppy.vfatNextCluster 3 = .ok 0xFFF := by decide
  exact .cons h2 hnext (.cons h3 hlast (.nil _))

/-- A file of two clusters. -/
def floppyFile : FatFile floppy where
  size := 1024
  fcluster := 2
  clusters := [2, 3]
  size_lt := by decide
  chain := floppy_chain
  covers := by decide

/-- 512 bytes from the middle of the first cluster run off the end of the temporary buffer. -/
theorem vfat_access_overruns : ¬∀ (v : FatVolume) (f : FatFile v) (dev : BlockContents v.blocksize)
    (buffer : List UInt8) (len loc : UInt32), AccessExact f dev buffer len.toNat loc.toNat := by
  intro h
  obtain ⟨r, buffer', hcall, -⟩ := h floppy floppyFile (FatFile.oneBlock _ 0) [] 512 256
  rw [vfatAccessfile_read floppyFile _ [] _ _ (by decide) (m := 512) (by decide) (by decide),
    if_neg (by decide), if_neg (by decide), FatFile.readBytes_eq _ _ (by decide) (by decide),
    if_neg (by decide)] at hcall
  cases hcall

end GalaxyOS
