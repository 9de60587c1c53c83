import GalaxyOS.Fs.Vfat

/-! # The file system drivers

`iso9660_accessfile`, and the two drivers that the kernel registers as drivers of open files.  Both
work out how many bytes to read in the same way (`accessBytes`), so both return 0 exactly when there
is nothing to read.

Where a driver reads outside of its tables or its temporary buffer, the buffer of the caller is left
as it was; the number of bytes is returned all the same.

`Registered.zero_iff` is what callers of `read` rely on; `DriverResult.range` bounds what a driver
returns. -/

namespace GalaxyOS

open Transition

/-! ### ISO 9660 -/

/-- What `vfs_read_blocks` has read into a buffer: each block, or what was there before if reading
it failed. -/
def isoTempbuf (block : ℕ → Option (List UInt8)) (junk : List UInt8) (sectors lba : ℕ) : List UInt8 :=
  (List.range sectors).flatMap fun i => (block ((i + lba) % 0x100000000)).getD junk

/-- The sectors that `bytes` bytes fill. -/
def isoSectors (blocksize bytes : ℕ) : ℕ := bytes / blocksize + if bytes % blocksize = 0 then 0 else 1

/-- `iso9660_accessfile` on a file with the given size and location.  A block that cannot be read
counts for no bytes. -/
def iso9660Accessfile (blocksize : ℕ) (block : ℕ → Option (List UInt8)) (junk : List UInt8)
    (write : Bool) (size fileLoc : ℕ) (buffer : List UInt8) (len loc : ℕ) :
    Except Fault (Int × List UInt8) :=
  if write then .ok (-1, buffer)
  else
    let bytes := accessBytes size len loc
    if bytes = 0 then .ok (0, buffer)
    else if bytes < 0 then .ok (-1, buffer)
    else
      let sectors := isoSectors blocksize bytes.toNat
      let lba := (fileLoc + loc / blocksize) % 0x100000000
      if (List.range sectors).all fun i => (block ((i + lba) % 0x100000000)).isNone then
        .ok (-1, buffer)
      else
        let tempbuf := isoTempbuf block junk sectors lba
        if loc % blocksize + bytes.toNat ≤ tempbuf.length then
          .ok (bytes, (tempbuf.drop (loc % blocksize)).take bytes.toNat ++ buffer.drop bytes.toNat)
        else .error .overrun

/-! ### The drivers -/

variable {ι δ : Type}

/-- The bytes of the buffer `buf`, from the start of which `new` has been stored. -/
def intoBuffer (buf new : List UInt8) : List UInt8 := new.take buf.length ++ buf.drop new.length

theorem intoBuffer_length (buf new : List UInt8) : (intoBuffer buf new).length = buf.length := by
  unfold intoBuffer
  rw [List.length_append, List.length_take, List.length_drop]
  omega

/-- What a driver returns, if it would have returned `bytes` where the model stops. -/
def driverOutcome (bytes : Int) (buf : List UInt8) (dev : δ) :
    Except Fault (Int × List UInt8) → Int × List UInt8 × δ
  | .ok (r, buf') => (r, intoBuffer buf buf', dev)
  | .error _ => (bytes, buf, dev)

theorem driverOutcome_length (bytes : Int) (buf : List UInt8) (dev : δ)
    (x : Except Fault (Int × List UInt8)) : (driverOutcome bytes buf dev x).2.1.length = buf.length := by
  cases x with
  | error e => rfl
  | ok p => exact intoBuffer_length ..

/-- The results of a driver: -1, or the number of bytes it set out to read. -/
def DriverResult (bytes : Int) (x : Except Fault (Int × List UInt8)) : Prop :=
  ∀ r buf, x = .ok (r, buf) → r = bytes ∨ r = -1 ∧ bytes ≠ 0

theorem DriverResult.outcome {bytes : Int} {x : Except Fault (Int × List UInt8)}
    (h : DriverResult bytes x) (buf : List UInt8) (dev : δ) :
    (driverOutcome bytes buf dev x).1 = bytes ∨ (driverOutcome bytes buf dev x).1 = -1 ∧ bytes ≠ 0 := by
  cases x with
  | error e => exact .inl rfl
  | ok p => exact h p.1 p.2 rfl

theorem vfatAccessfile_result {v : FatVolume} {dev : BlockContents v.blocksize}
    {size fcluster len loc : ℕ} {buffer : List UInt8} :
    DriverResult (accessBytes size len loc)
      (vfatAccessfile v dev false size fcluster buffer len loc) := by
  intro r buf h
  unfold vfatAccessfile at h
  simp only [Bool.false_eq_true, if_false] at h
  split_ifs at h with h0 hneg
  · exact .inl ((Prod.mk.inj (Except.ok.inj h)).1.symm.trans h0.symm)
  · exact .inr ⟨(Prod.mk.inj (Except.ok.inj h)).1.symm, h0⟩
  · left
    rw [readBytes_result h]
    omega

theorem iso9660Accessfile_result {blocksize : ℕ} {block : ℕ → Option (List UInt8)}
    {junk : List UInt8} {size fileLoc len loc : ℕ} {buffer : List UInt8} :
    DriverResult (accessBytes size len loc)
      (iso9660Accessfile blocksize block junk false size fileLoc buffer len loc) := by
  intro r buf h
  unfold iso9660Accessfile at h
  simp only [Bool.false_eq_true, if_false] at h
  split_ifs at h with h0 hneg hall hfit
  · exact .inl ((Prod.mk.inj (Except.ok.inj h)).1.symm.trans h0.symm)
  · exact .inr ⟨(Prod.mk.inj (Except.ok.inj h)).1.symm, h0⟩
  · exact .inr ⟨(Prod.mk.inj (Except.ok.inj h)).1.symm, h0⟩
  · exact .inl (Prod.mk.inj (Except.ok.inj h)).1.symm

theorem accessBytes_range (size len loc : ℕ) :
    -0x80000000 ≤ accessBytes size len loc ∧ accessBytes size len loc < 0x80000000 :=
  intOfReg_range _

theorem neg_one_range : -0x80000000 ≤ (-1 : Int) ∧ (-1 : Int) < 0x80000000 := by decide

theorem DriverResult.range {size len loc : ℕ} {x : Except Fault (Int × List UInt8)}
    (h : DriverResult (accessBytes size len loc) x) (buf : List UInt8) (dev : δ) :
    -0x80000000 ≤ (driverOutcome (accessBytes size len loc) buf dev x).1 ∧
      (driverOutcome (accessBytes size len loc) buf dev x).1 < 0x80000000 := by
  have hrange := accessBytes_range size len loc
  obtain hr | ⟨hr, -⟩ := h.outcome buf dev
  · rwa [hr]
  · rw [hr]
    exact neg_one_range

/-- `vfat_vfsdrvinfo` on a volume, for files with the given sizes and first clusters. -/
def vfatVfsdrvinfo (v : FatVolume) (contents : δ → BlockContents v.blocksize) (size fcluster : ι → ℕ) :
    VfsFsDriver ι δ where
  accessfile dev write file buf count loc :=
    driverOutcome (accessBytes (size file) count loc) buf dev
      (vfatAccessfile v (contents dev) write (size file) (fcluster file) buf count loc)
  result dev write file buf count loc := by
    cases write with
    | true => exact neg_one_range
    | false => exact vfatAccessfile_result.range buf dev
  length dev write file buf count loc := driverOutcome_length ..

/-- `iso9660_vfsdrvinfo` on a volume, for files with the given sizes and locations. -/
def iso9660Vfsdrvinfo (blocksize : ℕ) (block : δ → ℕ → Option (List UInt8)) (junk : List UInt8)
    (size fileLoc : ι → ℕ) : VfsFsDriver ι δ where
  accessfile dev write file buf count loc :=
    driverOutcome (accessBytes (size file) count loc) buf dev
      (iso9660Accessfile blocksize (block dev) junk write (size file) (fileLoc file) buf count loc)
  result dev write file buf count loc := by
    cases write with
    | true => exact neg_one_range
    | false => exact iso9660Accessfile_result.range buf dev
  length dev write file buf count loc := driverOutcome_length ..

/-- The drivers that `vfat_init` and `iso9660_init` register, for files with the given sizes. -/
inductive Registered (size : ι → ℕ) : VfsFsDriver ι δ → Prop
  | vfat (v : FatVolume) (contents : δ → BlockContents v.blocksize) (fcluster : ι → ℕ) :
      Registered size (vfatVfsdrvinfo v contents size fcluster)
  | iso9660 (blocksize : ℕ) (block : δ → ℕ → Option (List UInt8)) (junk : List UInt8)
      (fileLoc : ι → ℕ) : Registered size (iso9660Vfsdrvinfo blocksize block junk size fileLoc)

/-- A registered driver returns 0 exactly when there is nothing to read. -/
theorem Registered.zero_iff {size : ι → ℕ} {drv : VfsFsDriver ι δ} (h : Registered size drv) (dev : δ)
    (file : ι) (buf : List UInt8) (count loc : ℕ) :
    (drv.accessfile dev false file buf count loc).1 = 0 ↔ accessBytes (size file) count loc = 0 := by
  have hiff : ∀ {r bytes : Int}, r = bytes ∨ r = -1 ∧ bytes ≠ 0 → (r = 0 ↔ bytes = 0) := by
    intro r bytes h
    omega
  cases h with
  | vfat v contents fcluster => exact hiff (vfatAccessfile_result.outcome buf dev)
  | iso9660 blocksize block junk fileLoc => exact hiff (iso9660Accessfile_result.outcome buf dev)

theorem accessBytes_eq_zero {size len loc : ℕ} (hsize : size < 0x100000000) (hlen : len < 0x100000000)
    (hloc : loc < 0x100000000) : accessBytes size len loc = 0 ↔ len = 0 ∨ loc = size := by
  rw [accessBytes_eq hsize hloc]
  unfold intOfReg
  split_ifs <;> omega

end GalaxyOS
