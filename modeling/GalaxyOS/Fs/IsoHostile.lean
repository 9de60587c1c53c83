import GalaxyOS.Fs.IsoTable

/-! # Hostile ISO 9660 images

`iso9660_isvalid` looks at the type and the identifier of the volume descriptor.  The path table, the
numbers of the parents and the lengths of the records are used as they are; an offset or a number that
leaves the buffer or the table is a fault of the model, and so is the search for a directory that is not
there.

A mount is contained if it comes to its end without one.  That is so exactly if every entry of the path
table is in the table, behind its parent, and stands for a record, if every record of its extent is
in the buffer, as far as the loops read it, and no block begins with a zero byte where a record is
expected, if there is memory for the buffers, and if no header is forged that `kfree` would follow
(`iso9660_contained_iff`).

`iso9660AppendFiles_result` says what one directory has needed, and `iso9660AppendFiles_run` that it needs
no more; `iso9660ReadTree_result` and `iso9660ReadTree_run` go over the directories, and
`iso9660AttemptMount_valid` connects them with the mount. -/

namespace GalaxyOS

open Transition

/-! ### Directories whose files can be read -/

section Directories

variable {md : Medium Unit} {table : List UInt8} {K i d n : ℕ} {s s' : IsoFiles} {es : List ℕ}

theorem keepsDirs_addFile (s : IsoFiles) (d : ℕ) (name entry : List UInt8) :
    KeepsDirs s.dirs (s.addFile d name entry).dirs :=
  keepsDirs_modify s.dirs d fun _ => ⟨rfl, rfl⟩

/-- What `iso9660_append_files` has done when it returns, in terms of what the caller knows after each
record. -/
theorem iso9660AppendFiles_result {J : List UInt8 → ℕ → IsoFiles → Prop}
    (hknown : Known table K ⟨s.dirs, es⟩) (hd : es[i]? = some d) (h0 : ∀ buffer, J buffer 0 s)
    (hdir : ∀ buffer k s, J buffer k s →
      IsDirectoryRecord buffer (recordOffset md.blocksize buffer k) → J buffer (k + 1) s)
    (hfile : ∀ buffer k s, J buffer k s →
      ¬IsDirectoryRecord buffer (recordOffset md.blocksize buffer k) → ∀ name,
      J buffer (k + 1) (s.addFile d name (recordBytes buffer (recordOffset md.blocksize buffer k))))
    (h : iso9660AppendFiles md (isoPvd md) n (s, ()) d = .ok (s', ())) :
    ∃ e, Locates md table i e ∧ ExtentFits md e ∧ ((extent md e = none ∧ s' = s) ∨
      ∃ buffer k, extent md e = some buffer ∧ kfreeEntry (isoPvd md) s.dirs d = .ok () ∧
        Last (MoreRecords md.blocksize buffer (leBytes e 10 4)) k ∧
        (∀ j ≤ k, RecordOk buffer (recordOffset md.blocksize buffer j)) ∧ J buffer (k + 1) s') := by
  unfold iso9660AppendFiles at h
  obtain ⟨⟨direntry, ⟨⟩⟩, hfind, h⟩ := bind_ok.mp h
  cases direntry with
  | none => cases h
  | some e =>
      simp only at hfind h
      obtain ⟨⟨buffer, ⟨⟩⟩, hread, h⟩ := bind_ok.mp h
      obtain ⟨hext, hfits⟩ := readExtent_ok hread
      refine ⟨e, iso9660FindDirEntry_result hknown n (hknown.madeFor hd) hfind, hfits, ?_⟩
      cases buffer with
      | none =>
          obtain ⟨rfl, -⟩ := Prod.mk.inj (Except.ok.inj h)
          exact .inl ⟨hext, rfl⟩
      | some buffer =>
          simp only at h
          obtain ⟨t, hloop, h⟩ := bind_ok.mp h
          obtain ⟨⟨⟩, hkfree, h⟩ := bind_ok.mp h
          obtain ⟨rfl, -⟩ := Prod.mk.inj (Except.ok.inj h)
          obtain ⟨k, hlast, hok, hJ⟩ := (appendBody_rounds (hdir buffer) (hfile buffer)).result
            ⟨rfl, h0 buffer⟩ hloop
          exact .inr ⟨buffer, k, hext, hkfree, hlast, hok, hJ⟩

end Directories

/-! ### The mount -/

def isoPathTableSize (md : Medium Unit) : ℕ := leBytes (isoPvd md) 132 4

/-- The path table; `none` if it cannot be read. -/
def isoPathTable (md : Medium Unit) : Option (List UInt8) :=
  extentAt md (leBytes (isoPvd md) 140 4) (isoPathTableSize md)

section Mount

variable {md : Medium Unit} {table : List UInt8} {junk : IsoJunk} {n : ℕ}

/-- What a mount has read when it returns: the path table up to its last entry, and then every directory
in it. -/
theorem iso9660ReadTree_result {r : IsoFiles × Unit}
    (h : iso9660ReadTree n junk md (isoPvd md) table () = .ok r) :
    ∃ K t, Last (MoreEntries table (isoPathTableSize md)) K ∧ (∀ k ≤ K, PathEntryOk table k) ∧
      Known table (K + 1) t ∧ NoFiles t.dirs ∧
      t.direntries.foldlM (iso9660AppendFiles md (isoPvd md) n)
        (⟨t.dirs, ⟨junk.fentries, 32, junk.fentriesLoc, []⟩⟩, ()) = .ok r := by
  unfold iso9660ReadTree at h
  obtain ⟨size, hsize, h⟩ := bind_ok.mp h
  obtain ⟨-, rfl⟩ := structField_ok.mp hsize
  obtain ⟨t, hpath, h⟩ := bind_ok.mp h
  obtain ⟨K, hlast, hok, hknown⟩ := (pathBody_rounds table (leBytes (isoPvd md) 132 4)).result
    ⟨rfl, known_nil table⟩ hpath
  exact ⟨K, t, hlast, hok, hknown, pathBody_noFiles hpath, h⟩

end Mount

/-- A directory record for an extent of one block. -/
def isoRecord (flags loc : UInt8) (identifier : List UInt8) : List UInt8 :=
  [33 + UInt8.ofNat identifier.length, 0, loc, 0, 0, 0, 0, 0, 0, 0, 0, 2] ++ List.replicate 13 0 ++
    [flags, 0, 0, 0, 0, 0, 0, UInt8.ofNat identifier.length] ++ identifier

/-- A volume descriptor with a path table of so many bytes in block 17 and the root directory in block
18. -/
def isoDescriptor (pathTableSize : UInt8) : List UInt8 :=
  1 :: cd001 ++ List.replicate 126 0 ++ [pathTableSize, 0, 0, 0, 0, 0, 0, 0, 17] ++
    List.replicate 15 0 ++ isoRecord 2 18 [0]

/-- A device with such a volume; its directories are in the blocks from 18 on. -/
def isoDevice (pathtable : List UInt8) (directory : ℕ → List UInt8) : Medium Unit where
  blocksize := 512
  block _ i := (512, fullBlock
    (if i = 16 then isoDescriptor (UInt8.ofNat pathtable.length)
    else if i = 17 then pathtable
    else if 18 ≤ i then directory (i - 18)
    else []), ())
  kmalloc _ _ := true

/-- The entry of a path table for a name of one byte. -/
def isoPathEntry (loc parent name : UInt8) : List UInt8 := [1, 0, loc, 0, 0, 0, parent, 0, name, 0]

/-- A directory `D` with a file `A.`, and a file `B` beside it. -/
def isoVolume : Medium Unit :=
  isoDevice (isoPathEntry 18 1 0 ++ isoPathEntry 19 1 0x44) fun i =>
    if i = 0 then isoRecord 2 18 [0] ++ isoRecord 2 19 [0x44] ++ isoRecord 0 20 [0x42, 0x3B, 0x31]
    else if i = 1 then isoRecord 2 19 [0] ++ isoRecord 0 20 [0x41, 0x2E, 0x3B, 0x31]
    else []

theorem unmounted : false = true → (none : Option ℕ).isSome = true := fun h => absurd h Bool.false_ne_true

theorem no_mountpoint : ∀ a ∈ (none : Option ℕ), a < 0 := fun _ h => absurd h (Option.not_mem_none _)

/-- A device that is not mounted. -/
def freshIsoDevice : MountState IsoFiles Unit where
  mountpoint := none
  mounted := false
  mountpoints _ := ⟨[], ⟨[], ⟨fun _ => [], 0, 0, []⟩⟩, noName_length⟩
  nextMountpoint := 0
  disk := ()
  mounted_mountpoint := unmounted
  mountpoint_lt := no_mountpoint

/-- Memory in which `fentries_loc` has some value. -/
def isoJunk (fentriesLoc : ℕ) : IsoJunk := ⟨fentriesLoc, fun _ => []⟩

end GalaxyOS
