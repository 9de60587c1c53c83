import GalaxyOS.Fs.IsoTree

/-! # Block devices

`vfs_register_blockdevice` counts the new device first, makes room for it 512 devices at a time, copies
it and returns its index.  `vfs_get_block_device` means to refuse an index without a device, but compares
the wrong way round: it refuses every index but the last one, and takes each one behind.
`blockDevices_iff` says for which indices it is right; `vfs_find_block_device_by_name` always is.

It follows from `vfsRegisterBlockdevice_holds`, which carries the contents of the array through every
registration, and `lookupRight_iff`, which is about the comparison alone. -/

namespace GalaxyOS

open Transition

variable {δ : Type}

/-- `struct vfs_block_device` with a name, the other fields `δ` and an `id`. -/
structure RegisteredDevice (δ : Type) where
  name : List UInt8
  fields : δ
  id : UInt32

/-- What the driver has put into the structure. -/
def RegisteredDevice.contents (d : RegisteredDevice δ) : List UInt8 × δ := (d.name, d.fields)

/-- The array of devices: its block holds `blockdevices_size` of them. -/
structure BlockDevices (δ : Type) where
  vfsBlockdevices : ℕ → RegisteredDevice δ
  vfsLastBlockdevice : UInt32
  blockdevicesSize : UInt32

/-- `DEFAULT_BLOCKDEVICES_SIZE`. -/
def defaultBlockdevicesSize : UInt32 := 512

/-- `sizeof(struct vfs_block_device)`. -/
def sizeofBlockDevice : ℕ := 44

/-- `vfs_init`; `junk` is what the new block holds. -/
def vfsInit (junk : ℕ → RegisteredDevice δ) : BlockDevices δ := ⟨junk, 0, defaultBlockdevicesSize⟩

/-- Making room in `vfs_register_blockdevice`. -/
def BlockDevices.grow (s : BlockDevices δ) (junk : ℕ → RegisteredDevice δ) :
    Except Fault (BlockDevices δ) :=
  if s.vfsLastBlockdevice - 1 ≥ s.blockdevicesSize then
    -- krealloc returns NULL
    if heapSize ≤ sizeofBlockDevice * (s.blockdevicesSize.toNat + 512) then .error .nullDeref
    else
      .ok
        { s with
          vfsBlockdevices := fun i =>
            if i < s.blockdevicesSize.toNat then s.vfsBlockdevices i else junk i
          blockdevicesSize := s.blockdevicesSize + defaultBlockdevicesSize }
  else .ok s

/-- `vfs_register_blockdevice`. -/
def vfsRegisterBlockdevice (s : BlockDevices δ) (newblockdevice : RegisteredDevice δ)
    (junk : ℕ → RegisteredDevice δ) : Except Fault (UInt32 × BlockDevices δ) := do
  let s ← { s with vfsLastBlockdevice := s.vfsLastBlockdevice + 1 }.grow junk
  let loc := s.vfsLastBlockdevice - 1
  if loc < s.blockdevicesSize then
    let stored := { newblockdevice with id := s.vfsLastBlockdevice }
    .ok (loc, { s with vfsBlockdevices := Function.update s.vfsBlockdevices loc.toNat stored })
  else .error .overrun

/-- `vfs_get_block_device`: the index that the pointer is to. -/
def vfsGetBlockDevice (s : BlockDevices δ) (id : UInt32) : Option ℕ :=
  if s.vfsLastBlockdevice - 1 > id then none else some id.toNat

/-- `vfs_find_block_device_by_name`. -/
def vfsFindBlockDeviceByName (s : BlockDevices δ) (name : List UInt8) : Option ℕ :=
  (List.range s.vfsLastBlockdevice.toNat).find? fun i => (s.vfsBlockdevices i).name = name

/-- Devices are registered one after the other, with what the memory holds that is new then. -/
def registerAll (s : BlockDevices δ) :
    List (RegisteredDevice δ × (ℕ → RegisteredDevice δ)) → Except Fault (List UInt32 × BlockDevices δ)
  | [] => .ok ([], s)
  | (device, junk) :: calls => do
      let (id, s) ← vfsRegisterBlockdevice s device junk
      let (ids, s) ← registerAll s calls
      .ok (id :: ids, s)

/-! ### Registered devices -/

/-- What a pointer into the array points to. -/
def BlockDevices.contents (s : BlockDevices δ) (i : ℕ) : List UInt8 × δ := (s.vfsBlockdevices i).contents

/-- The array holds these devices, in order. -/
structure BlockDevices.Holds (s : BlockDevices δ) (devices : List (RegisteredDevice δ)) : Prop where
  count : s.vfsLastBlockdevice.toNat = devices.length
  fits : devices.length ≤ s.blockdevicesSize.toNat
  inHeap : sizeofBlockDevice * s.blockdevicesSize.toNat < heapSize
  stored : (List.range devices.length).map s.contents = devices.map RegisteredDevice.contents

theorem BlockDevices.Holds.contents_eq {s : BlockDevices δ} {devices : List (RegisteredDevice δ)}
    (h : s.Holds devices) {i : ℕ} (hi : i < devices.length) :
    some (s.contents i) = devices[i]?.map RegisteredDevice.contents := by
  rw [← List.getElem?_map, ← h.stored, List.getElem?_map, List.getElem?_range hi]
  rfl

theorem vfsInit_holds (junk : ℕ → RegisteredDevice δ) : (vfsInit junk).Holds [] :=
  { count := rfl
    fits := Nat.zero_le _
    inHeap := (by decide : 44 * 512 < 0x40000000)
    stored := rfl }

/-- The index of the last device, if there is one. -/
theorem last_sub_one {last : UInt32} {n : ℕ} (h : last.toNat = n + 1) : (last - 1).toNat = n := by
  have hone : (1 : UInt32).toNat = 1 := rfl
  have hle : 1 ≤ last := UInt32.le_iff_toNat_le.mpr (by omega)
  rw [UInt32.toNat_sub_of_le _ _ hle]
  omega

/-- Making room for one more device keeps those that are there. -/
theorem BlockDevices.grow_spec {s t : BlockDevices δ} {junk : ℕ → RegisteredDevice δ} {n : ℕ}
    (hlast : s.vfsLastBlockdevice.toNat = n + 1) (hfits : n ≤ s.blockdevicesSize.toNat)
    (hheap : sizeofBlockDevice * s.blockdevicesSize.toNat < heapSize) (h : s.grow junk = .ok t) :
    t.vfsLastBlockdevice = s.vfsLastBlockdevice ∧ n < t.blockdevicesSize.toNat ∧
      sizeofBlockDevice * t.blockdevicesSize.toNat < heapSize ∧ ∀ i < n, t.contents i = s.contents i := by
  have hloc := last_sub_one hlast
  unfold BlockDevices.grow at h
  by_cases hroom : s.vfsLastBlockdevice - 1 ≥ s.blockdevicesSize
  · rw [if_pos hroom] at h
    split_ifs at h with hnull
    obtain rfl := Except.ok.inj h
    have hle := UInt32.le_iff_toNat_le.mp hroom
    have hsize : (s.blockdevicesSize + defaultBlockdevicesSize).toNat = s.blockdevicesSize.toNat + 512 := by
      have hdefault : defaultBlockdevicesSize.toNat = 512 := rfl
      unfold sizeofBlockDevice heapSize at hheap
      rw [UInt32.toNat_add, hdefault]
      omega
    refine ⟨rfl, ?_, ?_, fun i hi => ?_⟩
    · simp only [hsize]
      omega
    · simp only [hsize]
      omega
    · unfold BlockDevices.contents
      simp only
      rw [if_pos (by omega)]
  · rw [if_neg hroom] at h
    obtain rfl := Except.ok.inj h
    have hlt := UInt32.lt_iff_toNat_lt.mp (UInt32.not_le.mp hroom)
    exact ⟨rfl, by omega, hheap, fun _ _ => rfl⟩

/-- A registration adds the device behind the others and returns its index. -/
theorem vfsRegisterBlockdevice_holds {s s' : BlockDevices δ} {devices : List (RegisteredDevice δ)}
    (hs : s.Holds devices) {device : RegisteredDevice δ} {junk : ℕ → RegisteredDevice δ} {id : UInt32}
    (h : vfsRegisterBlockdevice s device junk = .ok (id, s')) :
    id.toNat = devices.length ∧ s'.Holds (devices ++ [device]) := by
  obtain ⟨t, hgrow, h⟩ := bind_ok.mp h
  have hlast : (s.vfsLastBlockdevice + 1).toNat = devices.length + 1 := by
    have hfits := hs.fits
    have hheap := hs.inHeap
    have hone : (1 : UInt32).toNat = 1 := rfl
    unfold sizeofBlockDevice heapSize at hheap
    rw [UInt32.toNat_add, hs.count, hone]
    omega
  obtain ⟨hsame, hroom, hheap, hkept⟩ := BlockDevices.grow_spec
    (s := { s with vfsLastBlockdevice := s.vfsLastBlockdevice + 1 }) hlast hs.fits hs.inHeap hgrow
  have hloc : (t.vfsLastBlockdevice - 1).toNat = devices.length := last_sub_one (hsame ▸ hlast)
  simp only at h
  split_ifs at h with hlt
  obtain ⟨rfl, rfl⟩ := Prod.mk.inj (Except.ok.inj h)
  refine ⟨hloc, ?_, ?_, hheap, ?_⟩
  · rw [List.length_append]
    exact (congrArg UInt32.toNat hsame).trans hlast
  · rw [List.length_append]
    exact hroom
  · rw [List.length_append, List.map_append, ← hs.stored]
    show (List.range (devices.length + 1)).map _ = _
    rw [List.range_succ, List.map_append]
    congr 1
    · refine List.map_congr_left fun i hi => ?_
      have hne : i ≠ devices.length := Nat.ne_of_lt (List.mem_range.mp hi)
      unfold BlockDevices.contents at hkept ⊢
      simp only [hloc]
      rw [Function.update_of_ne hne]
      exact hkept i (List.mem_range.mp hi)
    · unfold BlockDevices.contents
      simp only [hloc, List.map_cons, List.map_nil, Function.update_self]
      rfl

theorem registerAll_holds {calls : List (RegisteredDevice δ × (ℕ → RegisteredDevice δ))} :
    ∀ {s s' : BlockDevices δ} {devices : List (RegisteredDevice δ)} {ids : List UInt32},
      s.Holds devices → registerAll s calls = .ok (ids, s') →
        ids.map UInt32.toNat = List.range' devices.length calls.length ∧
          s'.Holds (devices ++ calls.map Prod.fst) := by
  induction calls with
  | nil =>
      intro s s' devices ids hs h
      obtain ⟨rfl, rfl⟩ := Prod.mk.inj (Except.ok.inj h)
      exact ⟨rfl, by rwa [List.map_nil, List.append_nil]⟩
  | cons call calls ih =>
      intro s s' devices ids hs h
      obtain ⟨⟨id, t⟩, hfirst, h⟩ := bind_ok.mp h
      obtain ⟨⟨ids', u⟩, hrest, h⟩ := bind_ok.mp h
      obtain ⟨rfl, rfl⟩ := Prod.mk.inj (Except.ok.inj h)
      obtain ⟨hid, ht⟩ := vfsRegisterBlockdevice_holds hs hfirst
      obtain ⟨hids, hu⟩ := ih ht hrest
      refine ⟨?_, ?_⟩
      · rw [List.map_cons, hids, hid, List.length_append]
        rfl
      · rwa [List.append_assoc] at hu

/-! ### Lookups -/

/-- A lookup by name finds the first device with the name. -/
theorem vfsFindBlockDeviceByName_eq {s : BlockDevices δ} {devices : List (RegisteredDevice δ)}
    (hs : s.Holds devices) (name : List UInt8) :
    (vfsFindBlockDeviceByName s name).map s.contents =
      (devices.find? fun d => d.name = name).map RegisteredDevice.contents := by
  have hcells : ((List.range devices.length).map s.contents).find? (fun c => decide (c.1 = name)) =
      (vfsFindBlockDeviceByName s name).map s.contents := by
    rw [List.find?_map]
    unfold vfsFindBlockDeviceByName
    rw [hs.count]
    rfl
  rw [← hcells, hs.stored, List.find?_map]
  rfl

/-- A lookup by `id` gives the device that was registered with it, and nothing if none was. -/
def LookupRight (devices : List (RegisteredDevice δ)) (ids : List UInt32) (s : BlockDevices δ)
    (id : UInt32) : Prop :=
  (∀ i : ℕ, ids[i]? = some id →
      (vfsGetBlockDevice s id).map s.contents = devices[i]?.map RegisteredDevice.contents) ∧
    (id ∉ ids → vfsGetBlockDevice s id = none)

theorem vfsGetBlockDevice_refuses (s : BlockDevices δ) (id : UInt32) :
    vfsGetBlockDevice s id = none ↔ id < s.vfsLastBlockdevice - 1 := by
  unfold vfsGetBlockDevice
  by_cases hlt : s.vfsLastBlockdevice - 1 > id
  · rw [if_pos hlt]
    exact iff_of_true rfl hlt
  · rw [if_neg hlt]
    exact iff_of_false (Option.some_ne_none _) hlt

theorem vfsGetBlockDevice_eq_none {s : BlockDevices δ} {devices : List (RegisteredDevice δ)}
    (hs : s.Holds devices) (hne : devices ≠ []) (id : UInt32) :
    vfsGetBlockDevice s id = none ↔ id.toNat + 1 < devices.length := by
  have hpos := List.length_pos_iff.mpr hne
  have hloc : (s.vfsLastBlockdevice - 1).toNat = devices.length - 1 :=
    last_sub_one (by rw [hs.count]; omega)
  rw [vfsGetBlockDevice_refuses, UInt32.lt_iff_toNat_lt, hloc]
  omega

/-- With a device the comparison is right for the last one only; without any it is right for all but
one index. -/
theorem lookupRight_iff {s : BlockDevices δ} {devices : List (RegisteredDevice δ)} {ids : List UInt32}
    (hs : s.Holds devices) (hids : ids.map UInt32.toNat = List.range devices.length) (id : UInt32) :
    LookupRight devices ids s id ↔
      if devices = [] then id ≠ 0xFFFFFFFF else id.toNat + 1 = devices.length := by
  have hmem : id ∈ ids ↔ id.toNat < devices.length := by
    rw [← List.mem_range, ← hids, List.mem_map_of_injective fun a b => UInt32.toNat_inj.mp]
  have hreturned : ∀ i : ℕ, ids[i]? = some id → i = id.toNat := by
    intro i hi
    have hrange : (List.range devices.length)[i]? = some id.toNat := by
      rw [← hids, List.getElem?_map, hi]
      rfl
    obtain ⟨hlt, heq⟩ := List.getElem?_eq_some_iff.mp hrange
    rwa [List.getElem_range] at heq
  by_cases hnil : devices = []
  · subst hnil
    rw [if_pos rfl]
    have hzero : s.vfsLastBlockdevice = 0 := UInt32.toNat_inj.mp hs.count
    have hnone : vfsGetBlockDevice s id = none ↔ id ≠ 0xFFFFFFFF := by
      have hmax : (0 - 1 : UInt32).toNat = 4294967295 := rfl
      have hid := id.toNat_lt
      rw [vfsGetBlockDevice_refuses, hzero, UInt32.lt_iff_toNat_lt, hmax, ne_eq, ← UInt32.toNat_inj]
      show id.toNat < 4294967295 ↔ ¬id.toNat = 4294967295
      omega
    constructor
    · exact fun h => hnone.mp (h.2 fun hid => Nat.not_lt_zero _ (hmem.mp hid))
    · refine fun hid => ⟨fun i hi => ?_, fun _ => hnone.mpr hid⟩
      exact absurd (hmem.mp (List.mem_of_getElem? hi)) (Nat.not_lt_zero _)
  · rw [if_neg hnil]
    have hnone := vfsGetBlockDevice_eq_none hs hnil id
    constructor
    · intro h
      by_contra hlast
      by_cases hlt : id.toNat < devices.length
      · -- an earlier device is refused
        obtain ⟨i, hi⟩ := List.mem_iff_getElem?.mp (hmem.mpr hlt)
        have hdevice := h.1 i hi
        rw [hnone.mpr (by omega), hreturned i hi, List.getElem?_eq_getElem hlt] at hdevice
        cases hdevice
      · -- an index behind the last one is not
        have hrefused := hnone.mp (h.2 fun hid => hlt (hmem.mp hid))
        omega
    · intro hlast
      have hlt : id.toNat < devices.length := by omega
      refine ⟨fun i hi => ?_, fun hid => absurd (hmem.mpr hlt) hid⟩
      have hsome : vfsGetBlockDevice s id = some id.toNat := by
        refine if_neg fun hrefused => ?_
        have hbefore := hnone.mp (if_pos hrefused)
        omega
      rw [hsome, hreturned i hi]
      exact hs.contents_eq hlt

/-- After any registrations a lookup by name is right, and one by `id` for the last device only, or, as
long as there is none, for any `id` but the greatest. -/
theorem blockDevices_iff (junk : ℕ → RegisteredDevice δ)
    {calls : List (RegisteredDevice δ × (ℕ → RegisteredDevice δ))} {ids : List UInt32}
    {s : BlockDevices δ} (h : registerAll (vfsInit junk) calls = .ok (ids, s)) :
    (∀ name, (vfsFindBlockDeviceByName s name).map s.contents =
      ((calls.map Prod.fst).find? fun d => d.name = name).map RegisteredDevice.contents) ∧
    ∀ id, LookupRight (calls.map Prod.fst) ids s id ↔
      if calls = [] then id ≠ 0xFFFFFFFF else id.toNat + 1 = calls.length := by
  obtain ⟨hids, hs⟩ := registerAll_holds (vfsInit_holds junk) h
  refine ⟨vfsFindBlockDeviceByName_eq hs, fun id => ?_⟩
  rw [List.nil_append] at hs
  rw [lookupRight_iff hs (by rw [hids, List.length_map]; exact List.range_eq_range'.symm)]
  simp only [List.map_eq_nil_iff, List.length_map]

/-- Two devices are registered; the first one is not found again. -/
def twoDevices : List (RegisteredDevice Unit × (ℕ → RegisteredDevice Unit)) :=
  [(⟨[0x63, 0x64], (), 0⟩, fun _ => ⟨[], (), 0⟩), (⟨[0x72], (), 0⟩, fun _ => ⟨[], (), 0⟩)]

theorem twoDevices_registered :
    OkAnd (registerAll (vfsInit fun _ => ⟨[], (), 0⟩) twoDevices) fun r =>
      r.1 = [0, 1] ∧ vfsGetBlockDevice r.2 0 = none := by
  decide +kernel

theorem blockDevices_two : ∃ s, registerAll (vfsInit fun _ => ⟨[], (), 0⟩) twoDevices = .ok ([0, 1], s) ∧
    LookupRight (twoDevices.map Prod.fst) [0, 1] s 1 := by
  obtain ⟨⟨ids, s⟩, hrun, rfl, -⟩ := twoDevices_registered.exists_ok
  exact ⟨s, hrun, ((blockDevices_iff _ hrun).2 1).mpr (by decide)⟩

/-- The first of two devices is refused, by its index. -/
theorem first_device_refused : ∃ s, registerAll (vfsInit fun _ => ⟨[], (), 0⟩) twoDevices = .ok ([0, 1], s) ∧
    ¬LookupRight (twoDevices.map Prod.fst) [0, 1] s 0 := by
  obtain ⟨⟨ids, s⟩, hrun, rfl, hnone⟩ := twoDevices_registered.exists_ok
  refine ⟨s, hrun, fun hright => ?_⟩
  have hdevice := hright.1 0 rfl
  rw [hnone] at hdevice
  cases hdevice

end GalaxyOS
