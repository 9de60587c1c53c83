import Mathlib.Data.List.Nodup
import GalaxyOS.Lib.Pieces

/-! # Directory trees and path lookup

The file system layer of `vfs.c`: the block devices with their mount points, the directory trees
that the file system drivers have built, and the lookup of a path such as `vol:dir/file` in them.
A string is the list of its characters before the terminator.

The directory and file structures live in the kernel heap and point at each other, so a tree is a
map from pointers to structures.  `Vfs` carries what makes it a family of finite trees.

The lookup is compared with the meaning of a path in `lookup_exact_iff`; here are only the functions and
that they come to an end. -/

namespace GalaxyOS

open Pieces

/-- `struct vfs_file`. -/
structure VfsFile where
  name : List Char
deriving DecidableEq

/-- `struct vfs_mount_point`.  The name is an array of 17 bytes with a terminator. -/
structure VfsMountPoint (ι : Type) where
  name : List Char
  root : ι
  name_length : name.length ≤ 16
deriving DecidableEq

/-- `struct vfs_directory`.  `parent` is `none` at the root of a volume. -/
structure VfsDirectory (ι : Type) where
  name : List Char
  parent : Option ι
  volume : VfsMountPoint ι
  files : List ι
  directories : List ι

/-- `struct vfs_block_device`.  `vfs_mount` sets `mounted` when the driver has left a mount
point. -/
structure VfsBlockDevice (ι : Type) where
  mounted : Bool
  mountpoint : Option (VfsMountPoint ι)
  mounted_mountpoint : mounted = true → mountpoint.isSome

/-- The state of the layer: `vfs_blockdevices` up to `vfs_last_blockdevice`, and the structures
that the mounted trees consist of.  A directory is the parent of exactly its children and shares
their volume, `height` and `depth` bound how far its tree goes down and up from it, and no two
siblings have the same name. -/
structure Vfs (ι : Type) where
  dir : ι → VfsDirectory ι
  file : ι → VfsFile
  blockdevices : List (VfsBlockDevice ι)
  height : ι → ℕ
  depth : ι → ℕ
  child_height : ∀ d, ∀ e ∈ (dir d).directories, height e < height d
  parent_depth : ∀ d, ∀ p ∈ (dir d).parent, depth p < depth d
  child_parent : ∀ d, ∀ e ∈ (dir d).directories, (dir e).parent = some d
  parent_child : ∀ d, ∀ p ∈ (dir d).parent, d ∈ (dir p).directories
  directory_names : ∀ d, ((dir d).directories.map fun e => (dir e).name).Nodup
  file_names : ∀ d, ((dir d).files.map fun f => (file f).name).Nodup
  child_volume : ∀ d, ∀ e ∈ (dir d).directories, (dir e).volume = (dir d).volume
  root_parent : ∀ bd ∈ blockdevices, ∀ m ∈ bd.mountpoint, (dir m.root).parent = none
  root_volume : ∀ bd ∈ blockdevices, ∀ m ∈ bd.mountpoint, (dir m.root).volume = m

/-! ### Strings -/

/-- `strtok_r`, where `s` is what the saved pointer points at: the next token and the rest that is
saved. -/
def strtokR (s delim : List Char) : Option (List Char) × List Char :=
  match s.dropWhile (· ∈ delim) with
  | [] => (none, [])
  | c :: s => (some (c :: s.takeWhile (· ∉ delim)), (s.dropWhile (· ∉ delim)).tail)

theorem strtokR_length {s delim token rest : List Char}
    (h : strtokR s delim = (some token, rest)) : rest.length < s.length := by
  unfold strtokR at h
  have h1 := (List.dropWhile_suffix (l := s) (· ∈ delim)).length_le
  split at h
  · cases h
  · rename_i c s' heq
    obtain ⟨-, rfl⟩ := Prod.mk.inj h
    have h2 := (List.dropWhile_suffix (l := s') (· ∉ delim)).length_le
    rw [heq, List.length_cons] at h1
    rw [List.length_tail]
    omega

/-- The tokens that `strtok_r(NULL, delim, &s)` returns one after the other until it returns
`NULL`. -/
def strtokAll (s delim : List Char) : List (List Char) :=
  match _h : strtokR s delim with
  | (none, _) => []
  | (some token, rest) => token :: strtokAll rest delim
termination_by s.length
decreasing_by exact strtokR_length _h

/-- `strrchr`: what stands before and after the last `c`. -/
def strrchr (c : Char) : List Char → Option (List Char × List Char)
  | [] => none
  | a :: s =>
    match strrchr c s with
    | some (before, after) => some (a :: before, after)
    | none => if a = c then some ([], s) else none

/-- `strchr`: what stands after the first `c`. -/
def strchr (c : Char) : List Char → Option (List Char)
  | [] => none
  | a :: s => if a = c then some s else strchr c s

variable {ι : Type}

/-! ### Lookup -/

/-- The copy of the volume name into `buf`, with `n` bytes of `buf` left. -/
def pathVolume : ℕ → List Char → Option (List Char)
  | 0, _ => none
  | _ + 1, [] => none
  | n + 1, c :: path => if c = ':' then some [] else (pathVolume n path).map (c :: ·)

/-- `vfs_find_block_device_by_path`. -/
def vfsFindBlockDeviceByPath (fs : Vfs ι) (path : List Char) : Option (VfsBlockDevice ι) :=
  match pathVolume 17 path with
  | none => none
  | some buf =>
    fs.blockdevices.find? fun bd => bd.mounted && bd.mountpoint.any fun m => m.name = buf

/-- The loop over the children in `vfs_find_directory`, from index `i`.  The children are those
of `searchdir`, which the loop itself moves. -/
def scanChildren (fs : Vfs ι) (entry : List Char) (i : ℕ) (searchdir : ι) (set : Bool) :
    ι × Bool :=
  if h : i < (fs.dir searchdir).directories.length then
    let child := (fs.dir searchdir).directories[i]
    if (fs.dir child).name = entry then scanChildren fs entry (i + 1) child true
    else scanChildren fs entry (i + 1) searchdir set
  else (searchdir, set)
termination_by (fs.height searchdir, (fs.dir searchdir).directories.length - i)
decreasing_by
  · exact Prod.Lex.left _ _ (fs.child_height searchdir _ (List.getElem_mem h))
  · exact Prod.Lex.right _ (by omega)

/-- The body of the loop of `vfs_find_directory` for one entry: the new `searchdir` and `set`, or
`none` for the `break` with `searchdir == NULL`. -/
def enterEntry (fs : Vfs ι) (searchdir : ι) (entry : List Char) : Option (ι × Bool) :=
  let (searchdir, set) := scanChildren fs entry 0 searchdir false
  if entry = "..".toList then
    match (fs.dir searchdir).parent with
    | some parent => some (parent, true)
    | none => none
  else if entry = ".".toList then some (searchdir, true)
  else some (searchdir, set)

/-- The loop of `vfs_find_directory` over the entries. -/
def walkEntries (fs : Vfs ι) (searchdir : ι) : List (List Char) → Option ι
  | [] => some searchdir
  | entry :: entries =>
    match enterEntry fs searchdir entry with
    | none => none
    | some (searchdir, set) =>
      if entries = [] ∧ set = false then none else walkEntries fs searchdir entries

/-- `vfs_find_directory`. -/
def vfsFindDirectory (fs : Vfs ι) (path : List Char) : Option ι :=
  match vfsFindBlockDeviceByPath fs path with
  | none => none
  | some bd =>
    match bd.mountpoint with
    | none => none
    | some m => walkEntries fs m.root (strtokAll (strtokR path [':']).2 ['/'])

/-- The directory part of a path in `vfs_find_file`. -/
def pathDirectory (path : List Char) : List Char :=
  match strrchr '/' path with
  | some (before, _) => before
  | none =>
    match strrchr ':' path with
    | some (before, _) => before ++ [':']
    | none => path

/-- `vfs_find_file`. -/
def vfsFindFile (fs : Vfs ι) (path : List Char) : Option ι :=
  match strchr ':' path with
  | none => none
  | some pathdupa =>
    let entry :=
      match strrchr '/' pathdupa with
      | some (_, after) => after
      | none => pathdupa
    match vfsFindDirectory fs (pathDirectory path) with
    | none => none
    | some searchdir =>
      (fs.dir searchdir).files.foldl
        (fun found f => if (fs.file f).name = entry then some f else found) none

/-! ### The path of a directory -/

/-- The loop of `vfs_get_path_directory` up to the root: each name goes in front of `wstring`, and
the loop gives up when there is no room for it, a slash and the terminator.  Names and buffers lie
in the kernel's gigabyte, so that no sum wraps. -/
def climbPath (fs : Vfs ι) (size : ℕ) (currdir : ι) (wstring : List Char) : Option (List Char) :=
  match _h : (fs.dir currdir).parent with
  | none => some wstring
  | some parent =>
    let name := (fs.dir currdir).name
    if wstring.length + name.length + 2 > size then none
    else climbPath fs size parent (if wstring.length ≠ 0 then name ++ '/' :: wstring else name)
termination_by fs.depth currdir
decreasing_by exact fs.parent_depth currdir parent _h

/-- `vfs_get_path_directory`: the returned length and the bytes written to `dst`, or `none` for
-1. -/
def vfsGetPathDirectory (fs : Vfs ι) (d : ι) (size : ℕ) : Option (ℕ × List Char) :=
  if size = 0 then none
  else
    match climbPath fs size d [] with
    | none => none
    | some wstring =>
      let volName := (fs.dir d).volume.name
      let total := volName.length + 1 + wstring.length
      if total + 1 > size then none else some (total, volName ++ ':' :: wstring ++ ['\x00'])

end GalaxyOS
