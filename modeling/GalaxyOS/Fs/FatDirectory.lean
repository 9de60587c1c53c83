import GalaxyOS.Fs.Mount
import GalaxyOS.Fs.ShortName

/-! # Reading the directories of a FAT volume

`vfat_attempt_mount` reads the FAT into memory and then the whole directory tree.
`vfat_read_directory` walks over the clusters of a directory and calls itself for each directory that
it meets; `vfat_read_root_sector` is a second copy of it for the root directory of FAT12 and FAT16,
which has no cluster chain.  Both take the entries of 32 bytes one by one:

* entries of long names add thirteen characters to `lfnbuf`;
* every other entry becomes a file or a directory, with the name in `lfnbuf` or, if that is empty,
  with its short name, and gets the next index of `fentries` as its id.

Reading a block outside of the device is an access outside of its memory (`rdisk_block` does not look
at the index); a device that answers every request has `0x100000000` blocks.

There are no results here: `loop_walk` in the next module turns the loops into walks over lists of
entries. -/

namespace GalaxyOS

open Transition

variable {δ : Type}

/-! ### Nodes -/

/-- `struct vfs_file`, with the directory entry that it has been made from. -/
structure FatFileNode where
  name : List UInt8
  size : ℕ
  attributes : ℕ
  id : ℕ
  entry : List UInt8
deriving DecidableEq, Repr

/-- `struct vfs_directory`, with the directory entry that it has been made from.  It is the parent of
its files and directories. -/
inductive FatDirNode where
  | mk (name : List UInt8) (id : ℕ) (entry : List UInt8) (files : List FatFileNode)
      (directories : List FatDirNode)

/-- `files` and `directories` of a directory. -/
structure FatContents where
  files : List FatFileNode
  directories : List FatDirNode

/-- An empty directory. -/
def noContents : FatContents := ⟨[], []⟩

def FatContents.addFile (c : FatContents) (f : FatFileNode) : FatContents :=
  { c with files := c.files ++ [f] }

def FatContents.addDirectory (c : FatContents) (d : FatDirNode) : FatContents :=
  { c with directories := c.directories ++ [d] }

/-! ### The table of entries -/

/-- `fatinfo->fentries` up to `fentries_loc`, `fentries_size`, and the block device. -/
structure FatState (δ : Type) where
  fentries : List (List UInt8)
  fentriesSize : ℕ
  disk : δ

/-- An entry is put into the table, which grows when it is full: its id. -/
def FatState.addEntry (fs : FatState δ) (entry : List UInt8) : Except Fault (ℕ × FatState δ) :=
  let size :=
    if fs.fentriesSize ≤ fs.fentries.length then fs.fentriesSize + 32 else fs.fentriesSize
  if fs.fentries.length < size then
    .ok (fs.fentries.length, { fs with fentries := fs.fentries ++ [entry], fentriesSize := size })
  else .error .overrun

/-! ### Clusters -/

/-- What the driver reads the directories with: the device and the number of its blocks, the boot
sector, and what the driver has worked out and loaded. -/
structure FatMount (δ : Type) where
  md : Medium δ
  blocks : ℕ
  info : FatInfo
  fatbs : List UInt8
  fatTable : List UInt8

namespace FatMount

variable (m : FatMount δ)

def bytesPerSector : ℕ := leBytes m.fatbs 11 2

def sectorsPerCluster : ℕ := leBytes m.fatbs 13 1

/-- `vfs_read_blocks`. -/
def vfsReadBlocks (disk : δ) (blocks index : ℕ) : Except Fault (List UInt8 × δ) :=
  if (List.range blocks).all fun i => wrap32 (index + i) < m.blocks then
    .ok (m.md.readBlocks disk index blocks).2
  else .error .wildAccess

/-- `vfat_cluster_to_sector`. -/
def vfatClusterToSector (cluster : ℕ) : ℕ :=
  wrap32 (wrap32 (cluster + 0xFFFFFFFE) * m.sectorsPerCluster + m.info.firstDataSector)

/-- `vfat_sectors_to_blocks`. -/
def vfatSectorsToBlocks (fssector : ℕ) : Except Fault ℕ :=
  divide (roundUpInteger (wrap32 (fssector * m.bytesPerSector)) m.md.blocksize) m.md.blocksize

/-- `vfat_sector_to_lba`. -/
def vfatSectorToLba (fssector : ℕ) : Except Fault ℕ :=
  divide (wrap32 (fssector * m.bytesPerSector)) m.md.blocksize

/-- The entry of a cluster in the FAT, `vfat_next_cluster`. -/
def vfatNextCluster (cluster : ℕ) : Except Fault ℕ :=
  match m.info.fatType with
  | .fat12 => do
      let tableValue ← structField m.fatTable (wrap32 (cluster + cluster / 2)) 2
      .ok (if cluster % 2 = 1 then tableValue / 0x10 else tableValue % 0x1000)
  | .fat16 => structField m.fatTable (wrap32 (cluster * 2)) 2
  | .fat32 => do
      let tableValue ← structField m.fatTable (wrap32 (cluster * 4)) 4
      .ok (tableValue % 0x10000000)

/-- `vfat_read_cluster`: the data, and the next cluster. -/
def vfatReadCluster (disk : δ) (cluster : ℕ) : Except Fault (List UInt8 × ℕ × δ) := do
  let next ← m.vfatNextCluster cluster
  let blocks ← m.vfatSectorsToBlocks m.sectorsPerCluster
  let lba ← m.vfatSectorToLba (m.vfatClusterToSector cluster)
  let (data, disk) ← m.vfsReadBlocks disk blocks lba
  .ok (data, next, disk)

/-- `cluster_size`. -/
def clusterSize : Except Fault ℕ := do
  let blocks ← m.vfatSectorsToBlocks m.sectorsPerCluster
  .ok (blocks * m.md.blocksize)

end FatMount

/-! ### Entries -/

/-- The entry at `i` and the byte behind it, which is read as a part of a long name. -/
def slotAt (data : List UInt8) (i : ℕ) : Except Fault (List UInt8) :=
  if i + 33 ≤ data.length then .ok ((data.drop i).take 33) else .error .overrun

inductive SlotKind where
  | last | unused | long | short
deriving DecidableEq, Repr

def slotKind (slot : List UInt8) : SlotKind :=
  if leBytes slot 0 1 = 0 then .last
  else if leBytes slot 0 1 = 0xE5 then .unused
  else if leBytes slot 11 1 = 0x0F then .long
  else .short

/-- The characters of a long name in `struct fat_lfn`.  The structure is not packed, so `chars_a` is at
2, `chars_b` at 16 and `chars_c` at 30; of each the low byte is taken. -/
def lfnChars (slot : List UInt8) : List UInt8 :=
  [2, 4, 6, 8, 10, 16, 18, 20, 22, 24, 26, 30, 32].map fun k => slot.getD k 0

/-- The name of an entry, the long one if `lfnbuf` has one; `none` if the entry is to be ignored. -/
def entryName (lfnbuf slot : List UInt8) : Except Fault (Option (List UInt8)) :=
  if lfnbuf = [] then do
    let name ← vfatShortName slot
    .ok (name.map cString)
  else .ok (some (cString lfnbuf))

/-- The directory bit of `attrib`. -/
def slotIsDirectory (slot : List UInt8) : Bool := (leBytes slot 11 1).testBit 4

/-- The first cluster of an entry. -/
def slotCluster (slot : List UInt8) : ℕ := wrap32 (leBytes slot 26 2 + leBytes slot 20 2 * 0x10000)

/-! ### The loop over the entries -/

/-- Where a reading loop stands: the data of the cluster or sector, the next cluster, the place in the
data, the `lfni` characters in `lfnbuf`, and the directory so far. -/
structure DirScan where
  data : List UInt8
  nextcluster : ℕ
  i : ℕ
  lfnbuf : List UInt8
  contents : FatContents

/-- Reads a directory: its contents. -/
abbrev DirReader (δ : Type) := ℕ → FatState δ → Except Fault (FatContents × FatState δ)

/-- The file of an entry. -/
def fileNode (name : List UInt8) (id : ℕ) (slot : List UInt8) : FatFileNode where
  name := name
  size := leBytes slot 28 4
  attributes := leBytes slot 11 1 / 2 % 2
  id := id
  entry := slot.take 32

/-- The directory of an entry, with its contents. -/
def dirNode (name : List UInt8) (id : ℕ) (slot : List UInt8) (c : FatContents) : FatDirNode :=
  .mk name id (slot.take 32) c.files c.directories

/-- What the loop does with a file or directory of that name. -/
def addNode (readDirectory : DirReader δ) (name slot : List UInt8) (c : FatContents)
    (fs : FatState δ) : Except Fault (FatContents × FatState δ) := do
  let (id, fs) ← fs.addEntry (slot.take 32)
  if slotIsDirectory slot then do
    let (sub, fs) ← readDirectory (slotCluster slot) fs
    .ok (c.addDirectory (dirNode name id slot sub), fs)
  else .ok (c.addFile (fileNode name id slot), fs)

/-- The entry at the loop's place; `none` at the end mark. -/
def readSlot (readDirectory : DirReader δ) (d : DirScan) (fs : FatState δ) :
    Except Fault (Option (DirScan × FatState δ)) := do
  let slot ← slotAt d.data d.i
  match slotKind slot with
  | .last => .ok none
  | .unused => .ok (some ({ d with i := d.i + 32 }, fs))
  | .long =>
      -- cap filenames
      if d.lfnbuf.length + 13 ≥ 256 then .ok (some (d, fs))
      else .ok (some ({ d with lfnbuf := d.lfnbuf ++ lfnChars slot, i := d.i + 32 }, fs))
  | .short => do
      match ← entryName d.lfnbuf slot with
      | none => .ok (some ({ d with i := d.i + 32 }, fs))
      | some name => do
          let (c, fs) ← addNode readDirectory name slot d.contents fs
          .ok (some ({ d with lfnbuf := [], contents := c, i := d.i + 32 }, fs))

/-- The body of a reading loop; `advance` sees to it that there is an entry left. -/
def dirBody (advance : DirScan → FatState δ → Except Fault (Option DirScan × FatState δ))
    (readDirectory : DirReader δ) (s : DirScan × FatState δ) :
    Except Fault ((DirScan × FatState δ) ⊕ (FatContents × FatState δ)) := do
  let (d, fs) ← advance s.1 s.2
  match d with
  | none => .ok (.inr (s.1.contents, fs))
  | some d =>
      match ← readSlot readDirectory d fs with
      | none => .ok (.inr (d.contents, fs))
      | some s => .ok (.inl s)

namespace FatMount

variable (m : FatMount δ)

/-- At the end of a cluster, the next one is read. -/
def nextCluster (d : DirScan) (fs : FatState δ) : Except Fault (Option DirScan × FatState δ) := do
  let size ← m.clusterSize
  if d.i + 32 ≥ size then
    if d.nextcluster < 0x0FFFFFF8 then do
      let (data, next, disk) ← m.vfatReadCluster fs.disk d.nextcluster
      .ok (some { d with data := data, nextcluster := next, i := 0 }, { fs with disk := disk })
    else .ok (none, fs)
  else .ok (some d, fs)

/-- `vfat_read_directory` on a new directory, with room for `n` nested calls and for `n` rounds of
each loop. -/
def vfatReadDirectory : ℕ → DirReader δ
  | 0, _, _ => .error .timeout
  | n + 1, cluster, fs => do
      let (data, next, disk) ← m.vfatReadCluster fs.disk cluster
      whileE .timeout (dirBody m.nextCluster (vfatReadDirectory n)) (n + 1)
        (⟨data, next, 0, [], noContents⟩, { fs with disk := disk })

/-- The blocks of a sector, read into a buffer of the size of a sector. -/
def readSector (disk : δ) (sector : ℕ) : Except Fault (List UInt8 × δ) := do
  let blocks ← m.vfatSectorsToBlocks 1
  let lba ← m.vfatSectorToLba sector
  if blocks * m.md.blocksize ≤ m.bytesPerSector then m.vfsReadBlocks disk blocks lba
  else .error .overrun

/-- At the end of the sector the next one is read, and the loop is left. -/
def nextSector (sector : ℕ) (d : DirScan) (fs : FatState δ) :
    Except Fault (Option DirScan × FatState δ) :=
  if d.i + 32 ≥ m.bytesPerSector then do
    let (_, disk) ← m.readSector fs.disk (wrap32 (sector + 1))
    .ok (none, { fs with disk := disk })
  else .ok (some d, fs)

/-- `vfat_read_root_sector` on a new directory. -/
def vfatReadRootSector (n : ℕ) : DirReader δ := fun sector fs => do
  let (data, disk) ← m.readSector fs.disk sector
  whileE .timeout (dirBody (m.nextSector sector) (m.vfatReadDirectory n)) n
    (⟨data, 0, 0, [], noContents⟩, { fs with disk := disk })

end FatMount

/-! ### Mounting -/

/-- What is left of a mount: the volume, the entries of the files and directories by their ids, the
allocated length of their table, and the root directory. -/
structure FatRoot (δ : Type) where
  mount : FatMount δ
  fentries : List (List UInt8)
  fentriesSize : ℕ
  contents : FatContents

/-- The part of `vfat_attempt_mount` that loads the FAT. -/
def vfatLoadFat (md : Medium δ) (blocks : ℕ) (info : FatInfo) (fatbs : List UInt8) (disk : δ) :
    Except Fault (FatMount δ × δ) := do
  let m : FatMount δ := ⟨md, blocks, info, fatbs, []⟩
  let count ← m.vfatSectorsToBlocks info.fatSize
  let start ← m.vfatSectorToLba info.firstFatSector
  md.buffer disk (count * md.blocksize)
  let (fatTable, disk) ← m.vfsReadBlocks disk count start
  .ok ({ m with fatTable := fatTable }, disk)

/-- The part that reads the directories. -/
def FatMount.vfatReadRoot (m : FatMount δ) (n : ℕ) (fs : FatState δ) :
    Except Fault (FatContents × FatState δ) :=
  match m.info.rootDirCluster with
  | some cluster => m.vfatReadDirectory n cluster fs
  | none => m.vfatReadRootSector n m.info.rootDirLba fs

/-- The part of `vfat_attempt_mount` behind `vfat_create_fatinfo`. -/
def vfatReadTree (n : ℕ) (md : Medium δ) (blocks : ℕ) (info : FatInfo) (fatbs : List UInt8)
    (disk : δ) : Except Fault (FatRoot δ × δ) := do
  let (m, disk) ← vfatLoadFat md blocks info fatbs disk
  -- `vfat_create_fatinfo` has made room for 32 entries
  let (c, fs) ← m.vfatReadRoot n ⟨[], 32, disk⟩
  .ok (⟨m, fs.fentries, fs.fentriesSize, c⟩, fs.disk)

/-! ### A small volume -/

/-- A boot sector: sectors of 512 bytes, clusters of one sector, one FAT of one sector, and a root
directory of 16 entries. -/
def bootSector (totalSectors : UInt8) : List UInt8 :=
  [0xEB, 0x3C, 0x90, 0x46, 0x41, 0x54, 0x20, 0x20, 0x20, 0x20, 0x20, 0x00, 0x02, 0x01, 0x01, 0x00, 0x01,
    0x10, 0x00, totalSectors, 0x00, 0xF8, 0x01, 0x00]

/-- A directory entry. -/
def directoryEntry (name : List UInt8) (attrib cluster size : UInt8) : List UInt8 :=
  name ++ [attrib] ++ List.replicate 14 0 ++ [cluster, 0, size, 0, 0, 0]

/-- A device of 40 blocks with a FAT12 volume, given its FAT, its root directory and its clusters. -/
def fatDevice (fat root : List UInt8) (cluster : ℕ → List UInt8) : Medium Unit where
  blocksize := 512
  block _ i := (512, fullBlock (match i with
    | 0 => bootSector 40
    | 1 => fat
    | 2 => root
    | i + 3 => cluster (i + 2)), ())
  kmalloc _ _ := true

/-- A device that is not mounted. -/
def freshDevice : MountState (FatRoot Unit) Unit where
  mountpoint := none
  mounted := false
  mountpoints _ := ⟨[], ⟨⟨⟨0, fun _ _ => (0, [], ()), fun _ _ => true⟩, 0,
    ⟨.fat12, 0, 0, 0, 0, 0, 0, 0, none, 0⟩, [], []⟩, [], 0, noContents⟩, noName_length⟩
  nextMountpoint := 0
  disk := ()
  mounted_mountpoint := fun h => absurd h Bool.false_ne_true
  mountpoint_lt := fun _ h => absurd h (Option.not_mem_none _)

end GalaxyOS
