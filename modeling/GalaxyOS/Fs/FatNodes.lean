import GalaxyOS.Fs.FatDirectory

/-! # The ids of files and directories on a FAT volume

A file or directory gets the index as its id at which its directory entry is put into `fentries`.
The table is shared: between the index being taken and the node being stored in its parent, the
directories below it are read and put their own entries into the table.  It only ever grows, so what
has been put there stays (`vfat_ids_right`).

`NodesRight` says this of the nodes made since the table had a certain length.  It is kept by one more
node (`NodesRight.one`) and by two parts one behind the other (`NodesRight.append`), so the induction
follows the nested calls. -/

namespace GalaxyOS

open Transition

variable {δ : Type}

/-! ### The nodes of a tree -/

mutual

/-- The nodes of the tree that starts at a directory: each one's id and the entry it has been made
from. -/
def FatDirNode.refs : FatDirNode → List (ℕ × List UInt8)
  | .mk _ id entry files directories =>
      (id, entry) :: (files.map fun f => (f.id, f.entry)) ++ dirRefs directories

def dirRefs : List FatDirNode → List (ℕ × List UInt8)
  | [] => []
  | d :: ds => d.refs ++ dirRefs ds

end

/-- The nodes below a directory. -/
def FatContents.refs (c : FatContents) : List (ℕ × List UInt8) :=
  (c.files.map fun f => (f.id, f.entry)) ++ dirRefs c.directories

theorem dirRefs_append (ds es : List FatDirNode) : dirRefs (ds ++ es) = dirRefs ds ++ dirRefs es := by
  induction ds with
  | nil => rfl
  | cons d ds ih => rw [List.cons_append, dirRefs, dirRefs, ih, List.append_assoc]

theorem refs_addFile (c : FatContents) (f : FatFileNode) :
    (c.addFile f).refs.Perm ((f.id, f.entry) :: c.refs) := by
  unfold FatContents.refs FatContents.addFile
  rw [List.map_append, List.append_assoc]
  exact List.perm_middle

theorem refs_addDirectory (c : FatContents) (name : List UInt8) (id : ℕ) (slot : List UInt8)
    (sub : FatContents) :
    (c.addDirectory (dirNode name id slot sub)).refs.Perm
      ((id, slot.take 32) :: (sub.refs ++ c.refs)) := by
  have hrefs : (c.addDirectory (dirNode name id slot sub)).refs =
      c.refs ++ (id, slot.take 32) :: sub.refs := by
    unfold FatContents.refs FatContents.addDirectory dirNode
    rw [dirRefs_append, dirRefs, FatDirNode.refs, dirRefs, List.append_nil, List.append_assoc,
      List.cons_append]
  rw [hrefs]
  exact List.perm_middle.trans (List.Perm.cons _ List.perm_append_comm)

/-! ### Growing the table -/

/-- The nodes have been made since the table had `k` entries: their ids are different, and each has its
entry of 32 bytes in the table. -/
structure NodesRight (k : ℕ) (refs : List (ℕ × List UInt8)) (fentries : List (List UInt8)) : Prop where
  since : ∀ r ∈ refs, k ≤ r.1
  entry : ∀ r ∈ refs, fentries[r.1]? = some r.2
  length : ∀ r ∈ refs, r.2.length = 32
  nodup : (refs.map Prod.fst).Nodup

section Table

variable {k : ℕ} {refs refs' : List (ℕ × List UInt8)} {fentries fentries' : List (List UInt8)}

theorem NodesRight.nil : NodesRight k [] fentries := by
  constructor <;> simp

theorem NodesRight.perm (h : NodesRight k refs fentries) (hp : refs'.Perm refs) :
    NodesRight k refs' fentries where
  since r hr := h.since r (hp.mem_iff.mp hr)
  entry r hr := h.entry r (hp.mem_iff.mp hr)
  length r hr := h.length r (hp.mem_iff.mp hr)
  nodup := (hp.map Prod.fst).nodup_iff.mpr h.nodup

theorem NodesRight.grow (h : NodesRight k refs fentries) (hpre : fentries <+: fentries') :
    NodesRight k refs fentries' where
  since := h.since
  entry r hr := by
    obtain ⟨t, rfl⟩ := hpre
    have hr := h.entry r hr
    have hlt := (List.getElem?_eq_some_iff.mp hr).1
    rw [List.getElem?_append_left hlt, hr]
  length := h.length
  nodup := h.nodup

/-- Nodes of a later part of the table are different from those before. -/
theorem NodesRight.append (h : NodesRight k refs fentries)
    (h' : NodesRight fentries.length refs' fentries') (hpre : fentries <+: fentries')
    (hk : k ≤ fentries.length) : NodesRight k (refs' ++ refs) fentries' := by
  have hold := h.grow hpre
  constructor
  · intro r hr
    obtain hr | hr := List.mem_append.mp hr
    · exact hk.trans (h'.since r hr)
    · exact h.since r hr
  · intro r hr
    obtain hr | hr := List.mem_append.mp hr
    · exact h'.entry r hr
    · exact hold.entry r hr
  · intro r hr
    obtain hr | hr := List.mem_append.mp hr
    · exact h'.length r hr
    · exact h.length r hr
  · rw [List.map_append, List.nodup_append]
    refine ⟨h'.nodup, h.nodup, ?_⟩
    intro i hi j hj
    obtain ⟨r, hr, rfl⟩ := List.mem_map.mp hi
    obtain ⟨r', hr', rfl⟩ := List.mem_map.mp hj
    have hge := h'.since r hr
    have hlt := (List.getElem?_eq_some_iff.mp (h.entry r' hr')).1
    omega

/-- One more entry, and its node. -/
theorem NodesRight.one {entry : List UInt8} (hlen : entry.length = 32) :
    NodesRight fentries.length [(fentries.length, entry)] (fentries ++ [entry]) where
  since r hr := by
    rw [List.mem_singleton.mp hr]
  entry r hr := by
    rw [List.mem_singleton.mp hr, List.getElem?_append_right (Nat.le_refl _), Nat.sub_self,
      List.getElem?_cons_zero]
  length r hr := by
    rw [List.mem_singleton.mp hr]
    exact hlen
  nodup := List.nodup_singleton _

theorem addEntry_ok {fs fs' : FatState δ} {entry : List UInt8} {id : ℕ}
    (h : fs.addEntry entry = .ok (id, fs')) :
    id = fs.fentries.length ∧ fs'.fentries = fs.fentries ++ [entry] := by
  unfold FatState.addEntry at h
  simp only at h
  split_ifs at h
  all_goals
    obtain ⟨rfl, rfl⟩ := Prod.mk.inj (Except.ok.inj h)
    exact ⟨rfl, rfl⟩

end Table

/-! ### Reading -/

/-- What reading a directory adds to the table belongs to its nodes. -/
def ReadsRight (readDirectory : DirReader δ) : Prop :=
  ∀ cluster fs c fs', readDirectory cluster fs = .ok (c, fs') →
    fs.fentries <+: fs'.fentries ∧ NodesRight fs.fentries.length c.refs fs'.fentries

/-- The invariant of the loops, for a table that started with `k` entries `start`. -/
def ScanRight (start : List (List UInt8)) (c : FatContents) (fs : FatState δ) : Prop :=
  start <+: fs.fentries ∧ NodesRight start.length c.refs fs.fentries

section Loop

variable {readDirectory : DirReader δ} {start : List (List UInt8)} {c c' : FatContents}
  {fs fs' : FatState δ} {d : DirScan}

theorem ScanRight.addNode {name slot : List UInt8} (hslot : slot.length = 33)
    (hsub : ReadsRight readDirectory) (h : ScanRight start c fs)
    (hrun : addNode readDirectory name slot c fs = .ok (c', fs')) : ScanRight start c' fs' := by
  obtain ⟨hpre, hnodes⟩ := h
  have hlen : (slot.take 32).length = 32 := by rw [List.length_take, hslot]; rfl
  have hone : NodesRight _ _ (fs.fentries ++ [slot.take 32]) := .one hlen
  unfold GalaxyOS.addNode at hrun
  obtain ⟨⟨id, fs₁⟩, hadd, hrun⟩ := bind_ok.mp hrun
  obtain ⟨rfl, hentries⟩ := addEntry_ok hadd
  have hpre₁ : fs.fentries <+: fs₁.fentries := hentries ▸ List.prefix_append ..
  rw [← hentries] at hone
  simp only at hrun
  split_ifs at hrun with hdir
  · obtain ⟨⟨sub, fs₂⟩, hread, hrun⟩ := bind_ok.mp hrun
    obtain ⟨rfl, rfl⟩ := Prod.mk.inj (Except.ok.inj hrun)
    obtain ⟨hpre₂, hnodes₂⟩ := hsub _ _ _ _ hread
    refine ⟨hpre.trans (hpre₁.trans hpre₂), NodesRight.perm ?_ (refs_addDirectory ..)⟩
    have hsubdir := hone.append hnodes₂ hpre₂ (by rw [hentries, List.length_append]; omega)
    have hall := hnodes.append hsubdir (hpre₁.trans hpre₂) hpre.length_le
    apply hall.perm
    rw [List.append_assoc, List.singleton_append]
    exact List.perm_middle.symm
  · obtain ⟨rfl, rfl⟩ := Prod.mk.inj (Except.ok.inj hrun)
    refine ⟨hpre.trans hpre₁, NodesRight.perm ?_ (refs_addFile ..)⟩
    exact hnodes.append hone hpre₁ hpre.length_le

theorem slotAt_ok {data slot : List UInt8} {i : ℕ} (h : slotAt data i = .ok slot) :
    i + 33 ≤ data.length ∧ slot = (data.drop i).take 33 := by
  unfold slotAt at h
  split_ifs at h with hlen
  exact ⟨hlen, (Except.ok.inj h).symm⟩

theorem slotAt_length {data slot : List UInt8} {i : ℕ} (h : slotAt data i = .ok slot) :
    slot.length = 33 := by
  obtain ⟨hlen, rfl⟩ := slotAt_ok h
  rw [List.length_take, List.length_drop]
  omega

theorem ScanRight.readSlot {s : DirScan × FatState δ} (hsub : ReadsRight readDirectory)
    (h : ScanRight start d.contents fs) (hrun : readSlot readDirectory d fs = .ok (some s)) :
    ScanRight start s.1.contents s.2 := by
  unfold GalaxyOS.readSlot at hrun
  obtain ⟨slot, hslot, hrun⟩ := bind_ok.mp hrun
  cases hkind : slotKind slot with
  | last =>
      rw [hkind] at hrun
      cases hrun
  | unused =>
      rw [hkind] at hrun
      obtain rfl := Option.some.inj (Except.ok.inj hrun)
      exact h
  | long =>
      rw [hkind] at hrun
      simp only at hrun
      split_ifs at hrun
      all_goals
        obtain rfl := Option.some.inj (Except.ok.inj hrun)
        exact h
  | short =>
      rw [hkind] at hrun
      obtain ⟨name, -, hrun⟩ := bind_ok.mp hrun
      cases name with
      | none =>
          obtain rfl := Option.some.inj (Except.ok.inj hrun)
          exact h
      | some name =>
          obtain ⟨⟨c, fs₁⟩, hadd, hrun⟩ := bind_ok.mp hrun
          obtain rfl := Option.some.inj (Except.ok.inj hrun)
          exact h.addNode (slotAt_length hslot) hsub hadd

/-- Moving on to the next cluster leaves the table and the directory as they are. -/
def KeepsScan (advance : DirScan → FatState δ → Except Fault (Option DirScan × FatState δ)) : Prop :=
  ∀ d fs r fs', advance d fs = .ok (r, fs') → fs'.fentries = fs.fentries ∧
    ∀ d' ∈ r, d'.contents = d.contents

theorem loop_right {advance : DirScan → FatState δ → Except Fault (Option DirScan × FatState δ)}
    {n : ℕ} (hadvance : KeepsScan advance) (hsub : ReadsRight readDirectory)
    (h : ScanRight start d.contents fs)
    (hrun : whileE .timeout (dirBody advance readDirectory) n (d, fs) = .ok (c, fs')) :
    ScanRight start c fs' := by
  have hbody : ∀ (s : DirScan × FatState δ) r, ScanRight start s.1.contents s.2 →
      dirBody advance readDirectory s = .ok r →
      match r with
      | .inl s' => ScanRight start s'.1.contents s'.2
      | .inr b => ScanRight start b.1 b.2 := by
    intro s r hs hb
    unfold dirBody at hb
    obtain ⟨⟨d₁, fs₁⟩, hadv, hb⟩ := bind_ok.mp hb
    obtain ⟨hentries, hcontents⟩ := hadvance _ _ _ _ hadv
    unfold ScanRight at hs
    rw [← hentries] at hs
    cases d₁ with
    | none =>
        obtain rfl := Except.ok.inj hb
        exact hs
    | some d₁ =>
        rw [← hcontents d₁ rfl] at hs
        obtain ⟨step, hslot, hb⟩ := bind_ok.mp hb
        cases step with
        | none =>
            obtain rfl := Except.ok.inj hb
            exact hs
        | some s' =>
            obtain rfl := Except.ok.inj hb
            exact ScanRight.readSlot hsub hs hslot
  exact whileE_rule (I := fun s => ScanRight start s.1.contents s.2) (C := fun _ => True)
    (Q := fun b => ScanRight start b.1 b.2) (fun s s' hs _ hb => hbody s _ hs hb)
    (fun s b hs _ hb => hbody s _ hs hb) h (heads_true _ _) hrun

end Loop

namespace FatMount

variable (m : FatMount δ)

theorem nextCluster_keeps : KeepsScan m.nextCluster := by
  intro d fs r fs' h
  unfold nextCluster at h
  obtain ⟨size, -, h⟩ := bind_ok.mp h
  split_ifs at h
  · obtain ⟨⟨data, next, disk⟩, -, h⟩ := bind_ok.mp h
    obtain ⟨rfl, rfl⟩ := Prod.mk.inj (Except.ok.inj h)
    refine ⟨rfl, fun d' hd' => ?_⟩
    obtain rfl := Option.mem_some_iff.mp hd'
    rfl
  · obtain ⟨rfl, rfl⟩ := Prod.mk.inj (Except.ok.inj h)
    exact ⟨rfl, fun d' hd' => (by cases hd')⟩
  · obtain ⟨rfl, rfl⟩ := Prod.mk.inj (Except.ok.inj h)
    refine ⟨rfl, fun d' hd' => ?_⟩
    obtain rfl := Option.mem_some_iff.mp hd'
    rfl

theorem nextSector_keeps (sector : ℕ) : KeepsScan (m.nextSector sector) := by
  intro d fs r fs' h
  unfold nextSector at h
  split_ifs at h
  · obtain ⟨⟨data, disk⟩, -, h⟩ := bind_ok.mp h
    obtain ⟨rfl, rfl⟩ := Prod.mk.inj (Except.ok.inj h)
    exact ⟨rfl, fun d' hd' => (by cases hd')⟩
  · obtain ⟨rfl, rfl⟩ := Prod.mk.inj (Except.ok.inj h)
    refine ⟨rfl, fun d' hd' => ?_⟩
    obtain rfl := Option.mem_some_iff.mp hd'
    rfl

theorem scanRight_start (fs : FatState δ) (disk : δ) :
    ScanRight fs.fentries noContents { fs with disk := disk } :=
  ⟨List.prefix_refl _, .nil⟩

theorem vfatReadDirectory_right (n : ℕ) : ReadsRight (m.vfatReadDirectory n) := by
  induction n with
  | zero =>
      intro cluster fs c fs' h
      cases h
  | succ n ih =>
      intro cluster fs c fs' h
      unfold vfatReadDirectory at h
      obtain ⟨⟨data, next, disk⟩, -, h⟩ := bind_ok.mp h
      exact loop_right (d := ⟨data, next, 0, [], noContents⟩) m.nextCluster_keeps ih
        (scanRight_start fs disk) h

theorem vfatReadRoot_right {n : ℕ} {fs fs' : FatState δ} {c : FatContents}
    (h : m.vfatReadRoot n fs = .ok (c, fs')) :
    NodesRight fs.fentries.length c.refs fs'.fentries := by
  unfold vfatReadRoot at h
  split at h
  · exact (m.vfatReadDirectory_right n _ _ _ _ h).2
  · unfold vfatReadRootSector at h
    obtain ⟨⟨data, disk⟩, -, h⟩ := bind_ok.mp h
    exact (loop_right (d := ⟨data, 0, 0, [], noContents⟩) (m.nextSector_keeps _)
      (m.vfatReadDirectory_right n) (scanRight_start fs disk) h).2

end FatMount

/-! ### The mounted volume -/

/-- Each file and directory has an id below `fentries_loc`, under which `fentries` has the 32 bytes of
the directory entry that the node has been made from, and no two of them share an id. -/
structure FatRoot.IdsRight (root : FatRoot δ) : Prop where
  lt : ∀ r ∈ root.contents.refs, r.1 < root.fentries.length
  entry : ∀ r ∈ root.contents.refs, root.fentries[r.1]? = some r.2 ∧ r.2.length = 32
  nodup : (root.contents.refs.map Prod.fst).Nodup

theorem vfatReadTree_right {n : ℕ} {md : Medium δ} {blocks : ℕ} {info : FatInfo} {fatbs : List UInt8}
    {disk disk' : δ} {root : FatRoot δ}
    (h : vfatReadTree n md blocks info fatbs disk = .ok (root, disk')) : root.IdsRight := by
  unfold vfatReadTree at h
  obtain ⟨⟨m, disk₁⟩, -, h⟩ := bind_ok.mp h
  obtain ⟨⟨c, fs⟩, hread, h⟩ := bind_ok.mp h
  obtain ⟨rfl, -⟩ := Prod.mk.inj (Except.ok.inj h)
  have hright := m.vfatReadRoot_right hread
  exact ⟨fun r hr => (List.getElem?_eq_some_iff.mp (hright.entry r hr)).1,
    fun r hr => ⟨hright.entry r hr, hright.length r hr⟩, hright.nodup⟩

/-- A mount by the FAT driver that succeeds has read the tree. -/
theorem vfatAttemptMount_tree {n : ℕ} {md : Medium δ} {blocks : ℕ}
    {iso9660 : List UInt8 → List UInt8 → δ → Except Fault (FatRoot δ × δ)}
    {st st' : MountState (FatRoot δ) δ}
    (h : vfatAttemptMount md ⟨iso9660, vfatReadTree n md blocks⟩ st = .ok (0, st')) :
    ∃ a info fatbs disk disk', st'.mountpoint = some a ∧
      vfatReadTree n md blocks info fatbs disk = .ok ((st'.mountpoints a).root, disk') := by
  unfold vfatAttemptMount at h
  rcases hread : md.readBlocks st.disk 0 1 with ⟨bytes, buf, disk⟩
  rw [hread] at h
  simp only at h
  split_ifs at h with hbytes hlen
  · cases (Prod.mk.inj (Except.ok.inj h)).1
  · obtain ⟨⟨code, info⟩, -, h⟩ := bind_ok.mp h
    simp only at h
    split_ifs at h with hcode
    · cases (Prod.mk.inj (Except.ok.inj h)).1
    · obtain ⟨⟨root, disk'⟩, htree, h⟩ := bind_ok.mp h
      obtain ⟨-, rfl⟩ := Prod.mk.inj (Except.ok.inj h)
      refine ⟨st.nextMountpoint, info, buf.take 90, disk, disk', rfl, ?_⟩
      unfold MountState.setRoot
      simp only [Function.update_self]
      exact htree

/-- **Ids.**  After every mount by the FAT driver that succeeds, whatever the device holds and however
its reads go, the ids of the new tree are right. -/
theorem vfat_ids_right (n : ℕ) (md : Medium δ) (blocks : ℕ)
    (iso9660 : List UInt8 → List UInt8 → δ → Except Fault (FatRoot δ × δ))
    (st st' : MountState (FatRoot δ) δ)
    (h : vfatAttemptMount md ⟨iso9660, vfatReadTree n md blocks⟩ st = .ok (0, st')) :
    ∃ a, st'.mountpoint = some a ∧ (st'.mountpoints a).root.IdsRight := by
  obtain ⟨a, info, fatbs, disk, disk', ha, htree⟩ := vfatAttemptMount_tree h
  exact ⟨a, ha, vfatReadTree_right htree⟩

/-- A name of one letter, as the eleven bytes of an entry. -/
def letterName (c : UInt8) : List UInt8 := c :: List.replicate 10 0x20

/-- A file `A`, and a directory `D` with a file `B` in it. -/
def smallVolume : Medium Unit :=
  fatDevice [0xF8, 0xFF, 0xFF, 0xFF, 0x0F]
    (directoryEntry (letterName 0x44) 0x10 2 0 ++ directoryEntry (letterName 0x41) 0x20 3 5)
    fun i => if i = 2 then directoryEntry (letterName 0x42) 0x20 4 7 else []

theorem vfat_ids_right_smallVolume : ∃ st' a,
    vfatAttemptMount smallVolume ⟨fun _ _ _ => .error .timeout, vfatReadTree 9 smallVolume 40⟩
      freshDevice = .ok (0, st') ∧
    st'.mountpoint = some a ∧ (st'.mountpoints a).root.IdsRight := by
  obtain ⟨⟨r, st'⟩, hrun, rfl⟩ := OkAnd.exists_ok (by decide +kernel :
    OkAnd (vfatAttemptMount smallVolume
      ⟨fun _ _ _ => .error .timeout, vfatReadTree 9 smallVolume 40⟩ freshDevice) fun p => p.1 = 0)
  obtain ⟨a, ha⟩ := vfat_ids_right 9 smallVolume 40 _ freshDevice st' hrun
  exact ⟨st', a, hrun, ha⟩

end GalaxyOS
