import GalaxyOS.Fs.Mount
import GalaxyOS.Fs.ShortName
import GalaxyOS.Mem.Liballoc

/-! # Reading the directories of an ISO 9660 volume

`iso9660_attempt_mount` takes the directories from the path table, an array of entries of variable
length that give a name and the number of the parent's entry.  Then it goes through them a second time
and reads their files: `iso9660_append_files` looks up the record of the directory, by its name in the
records of its parent, and makes a `struct vfs_file` for each record in its extent that is no directory.
The records of the files are kept in `fentries`, and the id of a file is the index of its record.

The driver allocates `struct iso9660_fs_info` with `kmalloc`, which does not clear it, and sets all
fields but `fentries_loc`.

In memory are the volume descriptor, the path table and one buffer for each extent that is read; an
access outside of them is a fault.  `strncpy` looks for the end of its source first, so that a name must
have a zero byte behind it, wherever it is.  An access to `fentries` is no fault: the list `stores` says
where it went.  The counters of that table do not wrap in the model, as the records would fill the memory
before.

The record of the root directory lies in the volume descriptor, and the driver frees it like the others.
`kfree` does nothing unless it finds a header in front of it, which the volume can forge (`kfreeEntry`). -/

namespace GalaxyOS

open Transition

variable {δ : Type}

/-! ### Strings and records -/

/-- `strncpy(s, buffer + off, len); s[len] = 0`, a string up to the first zero byte. -/
def bufString (buffer : List UInt8) (off len : ℕ) : Except Fault (List UInt8) :=
  -- strlen(buffer + off)
  if 0 ∈ buffer.drop off then .ok (cString ((buffer.drop off).take len)) else .error .overrun

/-- `strtok(s, ";")`. -/
def stripVersion (s : List UInt8) : Option (List UInt8) :=
  -- leading delimiters are skipped
  let token := s.dropWhile fun c => c = 0x3B
  if token = [] then none else some (token.takeWhile fun c => c ≠ 0x3B)

/-- The identifier of the record at `loc`. -/
def recordIdentifier (buffer : List UInt8) (loc : ℕ) : Except Fault (List UInt8) := do
  let len ← structField buffer (loc + 32) 1
  bufString buffer (loc + 33) len

/-- The copy of a record, `sizeof(struct iso9660_directory_entry)` bytes and the identifier. -/
def copyRecord (buffer : List UInt8) (loc : ℕ) : Except Fault (List UInt8) := do
  let len ← structField buffer (loc + 32) 1
  if loc + 33 + len ≤ buffer.length then .ok ((buffer.drop loc).take (33 + len))
  else .error .overrun

/-- The place of the record behind the one at `loc`. -/
def nextRecord (blocksize : ℕ) (buffer : List UInt8) (loc : ℕ) : Except Fault ℕ := do
  let entryLength ← structField buffer loc 1
  let byte ← structField buffer (wrap32 (loc + entryLength)) 1
  -- handle any padding
  if byte = 0 then .ok (isoRoundUpInteger (wrap32 (loc + entryLength)) blocksize)
  else .ok (wrap32 (loc + entryLength))

/-! ### Directories -/

/-- `struct vfs_file`. -/
structure IsoFileNode where
  name : List UInt8
  size : ℕ
  attributes : ℕ
  id : ℕ
  /-- The record that it has been made from. -/
  entry : List UInt8
deriving DecidableEq, Repr

/-- `struct vfs_directory`; directories are numbered in the order of their allocation. -/
structure IsoDirNode where
  name : List UInt8
  parent : Option ℕ
  id : ℕ
  files : List IsoFileNode
  directories : List ℕ
deriving DecidableEq, Repr

/-- The directories that have been allocated, the root first, and `direntries`. -/
structure IsoDirs where
  dirs : List IsoDirNode
  direntries : List ℕ
deriving DecidableEq, Repr

/-- `vfs_append_directory`. -/
def IsoDirNode.addDirectory (dir : IsoDirNode) (d : ℕ) : IsoDirNode :=
  { dir with directories := dir.directories ++ [d] }

/-- `vfs_append_directory_file`. -/
def IsoDirNode.addFile (dir : IsoDirNode) (f : IsoFileNode) : IsoDirNode :=
  { dir with files := dir.files ++ [f] }

/-- An entry without a name: the root directory is filled in, for a second time if need be. -/
def IsoDirs.addRoot (t : IsoDirs) : IsoDirs where
  dirs := ⟨[], none, t.direntries.length, [], []⟩ :: t.dirs.tail
  direntries := t.direntries ++ [0]

/-- Any other entry.  `direntries` holds nothing before its start, and what it holds from the entry
itself on is a directory or a pointer that has not been initialized. -/
def IsoDirs.addDirectory (t : IsoDirs) (name : List UInt8) (parentDirectory : ℕ) :
    Except Fault IsoDirs :=
  if parentDirectory = 0 then .error .wildAccess
  else
    match t.direntries[parentDirectory - 1]? with
    | none => .error .uninitialized
    | some p =>
        .ok
          { dirs := t.dirs.modify p (fun dir => dir.addDirectory t.dirs.length) ++
              [⟨name, some p, t.direntries.length, [], []⟩]
            direntries := t.direntries ++ [t.dirs.length] }

/-! ### The path table -/

/-- The place of the entry behind the one at `loc` with a name of length `len`. -/
def nextPathEntry (loc len : ℕ) : ℕ := wrap32 (loc + len + 8 + len % 2)

/-- The directory of the entry at `loc`. -/
def IsoDirs.addPathEntry (t : IsoDirs) (pathtable : List UInt8) (loc : ℕ) (dirname : List UInt8) :
    Except Fault IsoDirs :=
  if dirname = [] then .ok t.addRoot
  else do
    let parentDirectory ← structField pathtable (loc + 6) 2
    t.addDirectory (dirname.map tolower) parentDirectory

/-- The body of the loop over the path table. -/
def pathBody (pathtable : List UInt8) (pathTableSize : ℕ) (s : ℕ × IsoDirs) :
    Except Fault ((ℕ × IsoDirs) ⊕ IsoDirs) := do
  let len ← structField pathtable s.1 1
  let dirname ← bufString pathtable (s.1 + 8) len
  let t ← s.2.addPathEntry pathtable s.1 dirname
  -- we hit the end of the table
  if wrap32 (pathTableSize + 0xFFFFFFFE) ≤ nextPathEntry s.1 len then .ok (.inr t)
  else .ok (.inl (nextPathEntry s.1 len, t))

/-! ### Extents -/

/-- The extent of a record in a new buffer; `none` if nothing could be read. -/
def readExtent (md : Medium δ) (disk : δ) (entry : List UInt8) :
    Except Fault (Option (List UInt8) × δ) := do
  let fileLoc ← structField entry 2 4
  let fileSize ← structField entry 10 4
  md.buffer disk (isoRoundUpInteger fileSize md.blocksize)
  let blocks ← divide (isoRoundUpInteger fileSize md.blocksize) md.blocksize
  let (bytes, buffer, disk) := md.readBlocks disk fileLoc blocks
  if bytes = 0 then .ok (none, disk) else .ok (some buffer, disk)

/-- The body of the search for a directory. -/
def findBody (blocksize : ℕ) (buffer : List UInt8) (fileSize : ℕ) (name : List UInt8) (loc : ℕ) :
    Except Fault (ℕ ⊕ Option (List UInt8)) := do
  let dirid ← recordIdentifier buffer loc
  -- the whole of it, if there is no version
  let dirname := (stripVersion dirid).getD dirid
  if dirname.map tolower = name then do
    let found ← copyRecord buffer loc
    .ok (.inr (some found))
  else do
    let next ← nextRecord blocksize buffer loc
    if fileSize ≤ next then .ok (.inr none) else .ok (.inl next)

/-- The record of that name in the extent of its parent's. -/
def findInExtent (md : Medium δ) (n : ℕ) (name parententry : List UInt8) (disk : δ) :
    Except Fault (Option (List UInt8) × δ) := do
  let (buffer, disk) ← readExtent md disk parententry
  match buffer with
  | none => .ok (none, disk)
  | some buffer => do
      let found ←
        whileE .timeout (findBody md.blocksize buffer (leBytes parententry 10 4) name) n 0
      .ok (found, disk)

/-- `kfree(&fsinfo->pvd->root_entry)`: `UNALIGN` and the test of the magic number read the descriptor.
With the right number the other words of the header are followed. -/
def kfreeRoot (pvd : List UInt8) : Except Fault Unit := do
  let diff ← structField pvd (156 - alignInfo) 1
  let ptr := if diff < alignment + alignInfo then 156 - diff else 156
  let magic ← structField pvd (ptr - sizeofMinor + 4 * MinorField.magic.index) 4
  if magic = liballocMagic then .error .wildAccess else .ok ()

/-- `kfree` of the record that has been found for the directory `d`: a block of its own, but for the
root. -/
def kfreeEntry (pvd : List UInt8) (dirs : List IsoDirNode) (d : ℕ) : Except Fault Unit :=
  if dirs[d]?.map IsoDirNode.parent = some none then kfreeRoot pvd else .ok ()

/-- `iso9660_find_dir_entry`, with room for `n` nested calls and for `n` rounds of each loop; `none` if
there is no such record. -/
def iso9660FindDirEntry (md : Medium δ) (pvd : List UInt8) (dirs : List IsoDirNode) :
    ℕ → ℕ → δ → Except Fault (Option (List UInt8) × δ)
  | 0, _, _ => .error .timeout
  | n + 1, d, disk =>
      match dirs[d]? with
      | none => .error .uninitialized
      | some dir =>
          match dir.parent with
          -- &fsinfo->pvd->root_entry
          | none => .ok (some (pvd.drop 156), disk)
          | some p => do
              let (parententry, disk) ← iso9660FindDirEntry md pvd dirs n p disk
              match parententry with
              | none => .ok (none, disk)
              | some parententry => do
                  let (found, disk) ← findInExtent md (n + 1) dir.name parententry disk
                  match found with
                  | none => .ok (none, disk)
                  | some newdir => do
                      kfreeEntry pvd dirs p
                      .ok (some newdir, disk)

/-! ### Files -/

/-- `fentries` with its counters, and the stores into it: the index of each and the number of entries
for which there was room. -/
structure IsoTable where
  fentries : ℕ → List UInt8
  fentriesSize : ℕ
  fentriesLoc : ℕ
  stores : List (ℕ × ℕ)

/-- A record is put into the table, which grows when it is full. -/
def IsoTable.add (t : IsoTable) (entry : List UInt8) : IsoTable :=
  let size := if t.fentriesSize ≤ t.fentriesLoc then t.fentriesSize + 32 else t.fentriesSize
  { fentries := Function.update t.fentries t.fentriesLoc entry
    fentriesSize := size
    fentriesLoc := t.fentriesLoc + 1
    stores := t.stores ++ [(t.fentriesLoc, size)] }

/-- What the mount makes of the volume: the directories and the table. -/
structure IsoFiles where
  dirs : List IsoDirNode
  table : IsoTable

/-- The name of a file, without its version and without a dot at the end. -/
def isoFileName (fileid : List UInt8) : Except Fault (List UInt8) :=
  match stripVersion fileid with
  -- strlen(NULL)
  | none => .error .nullDeref
  | some filename =>
      .ok ((if filename.getLast? = some 0x2E then filename.dropLast else filename).map tolower)

/-- A file with this record is added to the directory `d`. -/
def IsoFiles.addFile (s : IsoFiles) (d : ℕ) (name entry : List UInt8) : IsoFiles where
  dirs := s.dirs.modify d fun dir =>
    dir.addFile ⟨name, leBytes entry 10 4, leBytes entry 25 1 % 2, s.table.fentriesLoc, entry⟩
  table := s.table.add entry

/-- The record at `loc`, whose flags are known. -/
def IsoFiles.visitRecord (s : IsoFiles) (d : ℕ) (buffer : List UInt8) (loc flags : ℕ) :
    Except Fault IsoFiles :=
  -- only look at files
  if flags.testBit 1 then .ok s
  else do
    let fileid ← recordIdentifier buffer loc
    let filename ← isoFileName fileid
    let newdir ← copyRecord buffer loc
    .ok (s.addFile d filename newdir)

/-- The body of the loop of `iso9660_append_files`. -/
def appendBody (blocksize : ℕ) (buffer : List UInt8) (fileSize d : ℕ) (s : ℕ × IsoFiles) :
    Except Fault ((ℕ × IsoFiles) ⊕ IsoFiles) := do
  let flags ← structField buffer (s.1 + 25) 1
  let t ← s.2.visitRecord d buffer s.1 flags
  let next ← nextRecord blocksize buffer s.1
  if fileSize ≤ next then .ok (.inr t) else .ok (.inl (next, t))

/-- `iso9660_append_files`. -/
def iso9660AppendFiles (md : Medium δ) (pvd : List UInt8) (n : ℕ) (s : IsoFiles × δ) (d : ℕ) :
    Except Fault (IsoFiles × δ) := do
  let (direntry, disk) ← iso9660FindDirEntry md pvd s.1.dirs n d s.2
  match direntry with
  | none => .error .nullDeref
  | some direntry => do
      let (buffer, disk) ← readExtent md disk direntry
      match buffer with
      | none => .ok (s.1, disk)
      | some buffer => do
          let t ← whileE .timeout (appendBody md.blocksize buffer (leBytes direntry 10 4) d) n (0, s.1)
          kfreeEntry pvd s.1.dirs d
          .ok (t, disk)

/-! ### Mounting -/

/-- What the memory held that `kmalloc` returns for `fsinfo` and `fentries`. -/
structure IsoJunk where
  fentriesLoc : ℕ
  fentries : ℕ → List UInt8

/-- The part of `iso9660_attempt_mount` behind the reading of the path table. -/
def iso9660ReadTree (n : ℕ) (junk : IsoJunk) (md : Medium δ) (pvd pathtable : List UInt8) (disk : δ) :
    Except Fault (IsoFiles × δ) := do
  let pathTableSize ← structField pvd 132 4
  let t ← whileE .timeout (pathBody pathtable pathTableSize) n (0, ⟨[], []⟩)
  let fentries : IsoTable := ⟨junk.fentries, 32, junk.fentriesLoc, []⟩
  t.direntries.foldlM (iso9660AppendFiles md pvd n) (⟨t.dirs, fentries⟩, disk)

end GalaxyOS
