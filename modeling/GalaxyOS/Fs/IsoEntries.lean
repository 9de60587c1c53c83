import GalaxyOS.Fs.IsoHostile

/-! # The ids of files on an ISO 9660 volume

A file gets the index as its id at which its record is put into `fentries`.  The table has room for 32
entries and grows by as many when it is full, by no more than that at a time; but the index of the first
entry is whatever the memory held.  From 64 on the first store already lies behind the table
(`iso9660_ids_right_iff`).

`IdsInv.addFile` is the step at one record; `iso9660AppendFiles_files` and `iso9660ReadTree_files` take
what every new file keeps over a directory and over the whole mount. -/

namespace GalaxyOS

open Transition

/-! ### Ids -/

/-- The files of all directories, also of those that a second root entry has cut off from the tree. -/
def allFiles (dirs : List IsoDirNode) : List IsoFileNode := dirs.flatMap (·.files)

/-- The ids are indices of the table and those of the records from which the files have been made, no two
files have the same one, and no store has gone beyond the room that the table had. -/
structure IsoFiles.IdsRight (s : IsoFiles) : Prop where
  lt : ∀ f ∈ allFiles s.dirs, f.id < s.table.fentriesSize
  entry : ∀ f ∈ allFiles s.dirs, s.table.fentries f.id = f.entry
  nodup : ((allFiles s.dirs).map (·.id)).Nodup
  stores : ∀ p ∈ s.table.stores, p.1 < p.2

/-- Entry `k` of the path table stands for a directory with a file. -/
def HasFileAt (md : Medium Unit) (table : List UInt8) (k : ℕ) : Prop :=
  ∃ e buffer j, Locates md table k e ∧ extent md e = some buffer ∧
    Visits (MoreRecords md.blocksize buffer (leBytes e 10 4)) j ∧
    ¬IsDirectoryRecord buffer (recordOffset md.blocksize buffer j)

/-- There is a file on the volume. -/
def HasFile (md : Medium Unit) : Prop :=
  ∃ table k, isoPathTable md = some table ∧ Visits (MoreEntries table (isoPathTableSize md)) k ∧
    HasFileAt md table k

/-! ### Adding a file -/

section Add

variable {s : IsoFiles} {d : ℕ} {name entry : List UInt8}

/-- The file that is added. -/
def addedFile (s : IsoFiles) (name entry : List UInt8) : IsoFileNode :=
  ⟨name, leBytes entry 10 4, leBytes entry 25 1 % 2, s.table.fentriesLoc, entry⟩

theorem allFiles_addFile (s : IsoFiles) (d : ℕ) (name entry : List UInt8) :
    (allFiles (s.addFile d name entry).dirs).Perm
      (addedFile s name entry :: allFiles s.dirs) ∨
    allFiles (s.addFile d name entry).dirs = allFiles s.dirs := by
  unfold allFiles IsoFiles.addFile
  simp only
  by_cases hd : d < s.dirs.length
  · left
    have hsplit : s.dirs = s.dirs.take d ++ s.dirs[d] :: s.dirs.drop (d + 1) := by
      rw [List.getElem_cons_drop, List.take_append_drop]
    rw [List.modify_eq_take_cons_drop hd]
    conv_rhs => rw [hsplit]
    simp only [List.flatMap_append, List.flatMap_cons, IsoDirNode.addFile]
    generalize (s.dirs.take d).flatMap (·.files) = before, (s.dirs.drop (d + 1)).flatMap (·.files) = after
    have hmiddle : (before ++ s.dirs[d].files ++ addedFile s name entry :: after).Perm
        (addedFile s name entry :: (before ++ s.dirs[d].files ++ after)) := List.perm_middle
    simp only [List.append_assoc, List.cons_append, List.nil_append] at hmiddle ⊢
    exact hmiddle
  · right
    rw [List.modify_eq_self (Nat.le_of_not_lt hd)]

/-- What holds of the new file and of the old ones holds of all. -/
theorem forall_addFile {P : IsoFileNode → Prop} (hnew : P (addedFile s name entry))
    (hold : ∀ f ∈ allFiles s.dirs, P f) : ∀ f ∈ allFiles (s.addFile d name entry).dirs, P f := by
  intro f hf
  cases allFiles_addFile s d name entry with
  | inl hperm =>
      cases List.mem_cons.mp (hperm.mem_iff.mp hf) with
      | inl heq => exact heq ▸ hnew
      | inr hmem => exact hold f hmem
  | inr heq => exact hold f (heq ▸ hf)

/-- The ids are right, the next one is new, and the table is at most 32 entries behind it. -/
structure IdsInv (s : IsoFiles) : Prop extends s.IdsRight where
  old : ∀ f ∈ allFiles s.dirs, f.id < s.table.fentriesLoc
  room : s.table.fentriesLoc < s.table.fentriesSize + 32

theorem IdsInv.addFile (h : IdsInv s) : IdsInv (s.addFile d name entry) := by
  have hroom := h.room
  have hsize : s.table.fentriesLoc < (s.table.add entry).fentriesSize ∧
      s.table.fentriesSize ≤ (s.table.add entry).fentriesSize := by
    unfold IsoTable.add
    simp only
    split_ifs <;> omega
  refine ⟨⟨?_, ?_, ?_, ?_⟩, ?_, ?_⟩
  · refine forall_addFile hsize.1 fun f hf => ?_
    exact Nat.lt_of_lt_of_le (h.lt f hf) hsize.2
  · refine forall_addFile (Function.update_self ..) fun f hf => ?_
    have hne : f.id ≠ s.table.fentriesLoc := Nat.ne_of_lt (h.old f hf)
    exact (Function.update_of_ne hne ..).trans (h.entry f hf)
  · cases allFiles_addFile s d name entry with
    | inl hperm =>
        refine (hperm.map (·.id)).nodup_iff.mpr (List.nodup_cons.mpr ⟨fun hmem => ?_, h.nodup⟩)
        obtain ⟨f, hf, hid⟩ := List.mem_map.mp hmem
        exact absurd hid (Nat.ne_of_lt (h.old f hf))
    | inr heq =>
        rw [heq]
        exact h.nodup
  · intro p hp
    cases List.mem_append.mp hp with
    | inl hold => exact h.stores p hold
    | inr hnew =>
        rw [List.mem_singleton.mp hnew]
        exact hsize.1
  · refine forall_addFile (Nat.lt_succ_self _) fun f hf => ?_
    exact Nat.lt_succ_of_lt (h.old f hf)
  · show s.table.fentriesLoc + 1 < (s.table.add entry).fentriesSize + 32
    omega

end Add

/-! ### What a directory contributes -/

section Directory

variable {md : Medium Unit} {table e e' : List UInt8} {K i d n : ℕ} {s s' : IsoFiles} {es : List ℕ}

theorem FoundAt.unique {blocksize fileSize j k : ℕ} {buffer name : List UInt8}
    (h : FoundAt blocksize buffer fileSize name j) (h' : FoundAt blocksize buffer fileSize name k) :
    j = k := by
  have hlast : ∀ {i}, FoundAt blocksize buffer fileSize name i →
      Last (SearchMore blocksize buffer fileSize name) i :=
    fun hi => ⟨hi.before, fun hmore => hmore.1 hi.name⟩
  exact (hlast h).unique (hlast h')

/-- An entry stands for one record only. -/
theorem Locates.unique (h : Locates md table i e) (h' : Locates md table i e') : e = e' := by
  induction h generalizing e' with
  | root hname =>
      cases h' with
      | root => rfl
      | child hne => exact absurd hname hne
  | child hname _ hext _ hfound ih =>
      cases h' with
      | root hroot => exact absurd hroot hname
      | child _ hparent' hext' _ hfound' =>
          obtain rfl := ih hparent'
          obtain rfl := Option.some.inj (hext.symm.trans hext')
          rw [hfound.unique hfound']

/-- A directory without files leaves everything as it is, and one with files leaves a store in the
table. -/
theorem iso9660AppendFiles_files (hknown : Known table K ⟨s.dirs, es⟩) (hd : es[i]? = some d)
    (h : iso9660AppendFiles md (isoPvd md) n (s, ()) d = .ok (s', ())) :
    (¬HasFileAt md table i → s' = s) ∧
      (HasFileAt md table i ∨ s.table.stores ≠ [] → s'.table.stores ≠ []) := by
  obtain ⟨e, hloc, -, hcase⟩ := iso9660AppendFiles_result (J := fun buffer k t =>
      ((∀ j < k, IsDirectoryRecord buffer (recordOffset md.blocksize buffer j)) → t = s) ∧
      ((∃ j < k, ¬IsDirectoryRecord buffer (recordOffset md.blocksize buffer j)) ∨
        s.table.stores ≠ [] → t.table.stores ≠ []))
    hknown hd
    (fun buffer => ⟨fun _ => rfl, fun h => h.resolve_left fun ⟨j, hj, _⟩ =>
      absurd hj (Nat.not_lt_zero j)⟩)
    (fun buffer k t ht hdir => by
      refine ⟨fun hall => ht.1 fun j hj => hall j (Nat.lt_succ_of_lt hj), fun h => ht.2 ?_⟩
      refine h.imp_left fun ⟨j, hj, hfile⟩ => ⟨j, ?_, hfile⟩
      cases Nat.lt_or_eq_of_le (Nat.le_of_lt_succ hj) with
      | inl hlt => exact hlt
      | inr heq => exact absurd (heq ▸ hdir) hfile)
    (fun buffer k t ht hfile name => by
      refine ⟨fun hall => absurd (hall k (Nat.lt_succ_self k)) hfile, fun _ => ?_⟩
      exact List.append_ne_nil_of_right_ne_nil _ (List.cons_ne_nil _ _)) h
  cases hcase with
  | inl hnone =>
      obtain ⟨hext, rfl⟩ := hnone
      refine ⟨fun _ => rfl, fun h => h.resolve_left ?_⟩
      rintro ⟨e', buffer, j, hloc', hext', -⟩
      obtain rfl := hloc.unique hloc'
      rw [hext] at hext'
      cases hext'
  | inr hsome =>
      obtain ⟨buffer, k, hext, -, hlast, -, hsame, hstores⟩ := hsome
      constructor
      · intro hnone
        refine hsame fun j hj => ?_
        by_contra hfile
        exact hnone ⟨e, buffer, j, hloc, hext, hlast.1.mono (Nat.le_of_lt_succ hj), hfile⟩
      · refine fun h => hstores (h.imp_left ?_)
        rintro ⟨e', buffer', j, hloc', hext', hj, hfile⟩
        obtain rfl := hloc.unique hloc'
        obtain rfl := Option.some.inj (hext.symm.trans hext')
        exact ⟨j, Nat.lt_succ_of_le (hj.le hlast), hfile⟩

/-- What every new file keeps, a directory keeps. -/
theorem iso9660AppendFiles_keeps {P : IsoFiles → Prop} (hP : ∀ t d name entry, P t → P (t.addFile d name entry))
    (hknown : Known table K ⟨s.dirs, es⟩) (hd : es[i]? = some d)
    (h : iso9660AppendFiles md (isoPvd md) n (s, ()) d = .ok (s', ())) (hs : P s) :
    P s' ∧ Known table K ⟨s'.dirs, es⟩ := by
  obtain ⟨e, -, -, hcase⟩ := iso9660AppendFiles_result
    (J := fun _ _ t => P t ∧ Known table K ⟨t.dirs, es⟩) hknown hd (fun _ => ⟨hs, hknown⟩)
    (fun _ _ _ ht _ => ht)
    (fun _ _ t ht _ name => ⟨hP t d name _ ht.1, ht.2.keep (keepsDirs_addFile t d name _)⟩) h
  cases hcase with
  | inl hnone => exact hnone.2 ▸ ⟨hs, hknown⟩
  | inr hsome =>
      obtain ⟨buffer, k, -, -, -, -, hJ⟩ := hsome
      exact hJ

end Directory

/-! ### The mount -/

/-- `fsinfo` before the directories are read. -/
def IsoJunk.table (junk : IsoJunk) : IsoTable := ⟨junk.fentries, 32, junk.fentriesLoc, []⟩

/-- The first store goes to the index that the memory held, into a table that has grown at most once. -/
def FirstStore (junk : IsoJunk) (s : IsoFiles) : Prop :=
  (s.table.stores = [] ∧ s.table.fentriesLoc = junk.fentriesLoc ∧ s.table.fentriesSize = 32) ∨
    s.table.stores.head? = some (junk.fentriesLoc, if 32 ≤ junk.fentriesLoc then 64 else 32)

section Mount

variable {md : Medium Unit} {table : List UInt8} {junk : IsoJunk} {n : ℕ} {root : IsoFiles}

theorem FirstStore.addFile {s : IsoFiles} (h : FirstStore junk s) (d : ℕ) (name entry : List UInt8) :
    FirstStore junk (s.addFile d name entry) := by
  right
  show (s.table.add entry).stores.head? = _
  unfold IsoTable.add
  simp only
  cases h with
  | inl hfirst =>
      obtain ⟨hstores, hloc, hsize⟩ := hfirst
      rw [hstores, hloc, hsize]
      rfl
  | inr hfirst => rw [List.head?_append, hfirst, Option.some_or]

/-- The files of a mount: what every new file keeps, whether there is a file, and where the first store
went. -/
theorem iso9660ReadTree_files (htable : isoPathTable md = some table)
    (h : iso9660ReadTree n junk md (isoPvd md) table () = .ok (root, ())) :
    ∃ dirs, NoFiles dirs ∧
      (∀ P : IsoFiles → Prop, (∀ t d name entry, P t → P (t.addFile d name entry)) →
        P ⟨dirs, junk.table⟩ → P root) ∧
      (¬HasFile md → root = ⟨dirs, junk.table⟩) ∧ (HasFile md → root.table.stores ≠ []) := by
  obtain ⟨K, t, hlast, -, hknown, hfiles, hfold⟩ := iso9660ReadTree_result h
  have hentry : ∀ d ∈ t.direntries, ∃ i, t.direntries[i]? = some d ∧ i ≤ K := by
    intro d hd
    obtain ⟨i, hi⟩ := List.getElem?_of_mem hd
    have hlt := (List.getElem?_eq_some_iff.mp hi).1
    rw [hknown.length] at hlt
    exact ⟨i, hi, Nat.le_of_lt_succ hlt⟩
  refine ⟨t.dirs, hfiles, fun P hP h0 => ?_, fun hnone => ?_, ?_⟩
  · refine (foldlM_result (P := fun s => P s.1 ∧ Known table (K + 1) ⟨s.1.dirs, t.direntries⟩)
      (fun _ _ => True) (fun s d s' hd hs hrun => ?_) (fun _ _ _ _ _ _ _ h => h) ⟨h0, hknown⟩ hfold).1.1
    obtain ⟨i, hi, -⟩ := hentry d hd
    exact ⟨iso9660AppendFiles_keeps hP hs.2 hi hrun hs.1, trivial⟩
  · have hsame := (foldlM_result
      (P := fun s => s = ((⟨t.dirs, junk.table⟩, ()) : IsoFiles × Unit)) (fun _ _ => True)
      (fun s d s' hd hs hrun => ?_) (fun _ _ _ _ _ _ _ h => h) rfl hfold).1
    · exact congrArg Prod.fst hsame
    · subst hs
      obtain ⟨i, hi, hle⟩ := hentry d hd
      refine ⟨?_, trivial⟩
      rw [← (iso9660AppendFiles_files hknown hi hrun).1 fun hfile =>
        hnone ⟨table, i, htable, hlast.1.mono hle, hfile⟩]
  · rintro ⟨table', k, htable', hk, hfile⟩
    obtain rfl := Option.some.inj (htable.symm.trans htable')
    obtain ⟨d, hd⟩ := hknown.entry k (Nat.lt_succ_of_le (hk.le hlast))
    have hall := (foldlM_result (P := fun s => Known table (K + 1) ⟨s.1.dirs, t.direntries⟩)
      (fun s d => ∀ i, t.direntries[i]? = some d → HasFileAt md table i → s.1.table.stores ≠ [])
      (fun s d s' hd hs hrun => ?_) (fun s d s' b hd hs hrun hb i hi hfile => ?_) hknown hfold).2
    · exact hall d (List.mem_of_getElem? hd.number) k hd.number hfile
    · obtain ⟨i, hi, -⟩ := hentry d hd
      refine ⟨(iso9660AppendFiles_keeps (P := fun _ => True) (fun _ _ _ _ h => h) hs hi hrun trivial).2,
        fun i hi hfile => (iso9660AppendFiles_files hs hi hrun).2 (.inl hfile)⟩
    · obtain ⟨j, hj, -⟩ := hentry d hd
      exact (iso9660AppendFiles_files hs hj hrun).2 (.inr (hb i hi hfile))

theorem allFiles_of_noFiles {dirs : List IsoDirNode} (h : NoFiles dirs) : allFiles dirs = [] :=
  List.flatMap_eq_nil_iff.mpr h

theorem iso9660ReadTree_idsRight (htable : isoPathTable md = some table)
    (h : iso9660ReadTree n junk md (isoPvd md) table () = .ok (root, ())) :
    root.IdsRight ↔ junk.fentriesLoc < 64 ∨ ¬HasFile md := by
  obtain ⟨dirs, hfiles, hkeeps, hnone, hsome⟩ := iso9660ReadTree_files htable h
  have hempty := allFiles_of_noFiles hfiles
  have hstart : IsoFiles.IdsRight ⟨dirs, junk.table⟩ := by
    refine ⟨?_, ?_, ?_, fun p hp => absurd hp List.not_mem_nil⟩
    · rw [hempty]
      exact fun f hf => absurd hf List.not_mem_nil
    · rw [hempty]
      exact fun f hf => absurd hf List.not_mem_nil
    · rw [hempty]
      exact List.nodup_nil
  constructor
  · intro hright
    by_contra hbad
    obtain ⟨hge, hfile⟩ := not_or.mp hbad
    have hstores := hsome (not_not.mp hfile)
    have hfirst : FirstStore junk root :=
      hkeeps (FirstStore junk) (fun t d name entry ht => ht.addFile d name entry)
        (.inl ⟨rfl, rfl, rfl⟩)
    cases hfirst with
    | inl hfirst => exact hstores hfirst.1
    | inr hfirst =>
        have hlt := hright.stores _ (List.mem_of_head? hfirst)
        simp only at hlt
        split_ifs at hlt <;> omega
  · intro hgood
    cases hgood with
    | inl hlt =>
        have hinv : IdsInv root := hkeeps IdsInv (fun t d name entry ht => ht.addFile)
          ⟨hstart, by rw [hempty]; exact fun f hf => absurd hf List.not_mem_nil, hlt⟩
        exact hinv.toIdsRight
    | inr hfile =>
        rw [hnone hfile]
        exact hstart

theorem iso9660AttemptMount_tree {vfat : FatInfo → List UInt8 → Unit → Except Fault (IsoFiles × Unit)}
    {st st' : MountState IsoFiles Unit} {rw : Bool}
    (h : iso9660AttemptMount md ⟨iso9660ReadTree n junk md, vfat⟩ st rw = .ok (0, st')) :
    ∃ a table, isoPathTable md = some table ∧ st'.mountpoint = some a ∧
      iso9660ReadTree n junk md (isoPvd md) table () = .ok ((st'.mountpoints a).root, ()) := by
  unfold iso9660AttemptMount at h
  cases rw with
  | true =>
      rw [if_pos rfl] at h
      cases (Prod.mk.inj (Except.ok.inj h)).1
  | false =>
      rw [if_neg (by decide)] at h
      rcases hread : md.readBlocks () 16 1 with ⟨bytes, pvd, ⟨⟩⟩
      have hpvd : pvd = isoPvd md := by
        unfold isoPvd
        rw [hread]
      rw [hread, hpvd] at h
      simp only at h
      split_ifs at h with hbytes
      · cases (Prod.mk.inj (Except.ok.inj h)).1
      · obtain ⟨type, -, h⟩ := bind_ok.mp h
        obtain ⟨identifier, -, h⟩ := bind_ok.mp h
        split_ifs at h with htype hid
        · cases (Prod.mk.inj (Except.ok.inj h)).1
        · cases (Prod.mk.inj (Except.ok.inj h)).1
        · unfold iso9660ReadVolume at h
          obtain ⟨size, hsize, h⟩ := bind_ok.mp h
          obtain ⟨loc, hloc, h⟩ := bind_ok.mp h
          obtain ⟨⟨⟩, -, h⟩ := bind_ok.mp h
          obtain ⟨blocks, hblocks, h⟩ := bind_ok.mp h
          obtain ⟨-, rfl⟩ := structField_ok.mp hsize
          obtain ⟨-, rfl⟩ := structField_ok.mp hloc
          obtain ⟨-, rfl⟩ := divide_ok.mp hblocks
          have htable : isoPathTable md = if (md.readBlocks () (leBytes (isoPvd md) 140 4)
              (isoRoundUpInteger (leBytes (isoPvd md) 132 4) md.blocksize / md.blocksize)).1 = 0
              then none else some _ := rfl
          simp only at h
          split_ifs at h htable with hzero
          · cases (Prod.mk.inj (Except.ok.inj h)).1
          · obtain ⟨⟨root, ⟨⟩⟩, htree, h⟩ := bind_ok.mp h
            obtain ⟨-, rfl⟩ := Prod.mk.inj (Except.ok.inj h)
            refine ⟨_, _, htable, rfl, ?_⟩
            unfold MountState.setRoot
            simp only [Function.update_self]
            exact htree

/-- **Ids.**  After every mount by the ISO 9660 driver that succeeds, the ids of the files are right
exactly if the memory for `fsinfo` held less than 64 at the place of `fentries_loc`, or no directory of
the volume has a file. -/
theorem iso9660_ids_right_iff (md : Medium Unit)
    (vfat : FatInfo → List UInt8 → Unit → Except Fault (IsoFiles × Unit)) (n : ℕ) (junk : IsoJunk)
    (st st' : MountState IsoFiles Unit) (rw : Bool)
    (h : iso9660AttemptMount md ⟨iso9660ReadTree n junk md, vfat⟩ st rw = .ok (0, st')) :
    (∃ a, st'.mountpoint = some a ∧ (st'.mountpoints a).root.IdsRight) ↔
      junk.fentriesLoc < 64 ∨ ¬HasFile md := by
  obtain ⟨a, table, htable, ha, htree⟩ := iso9660AttemptMount_tree h
  rw [← iso9660ReadTree_idsRight htable htree]
  constructor
  · rintro ⟨a', ha', hright⟩
    obtain rfl := Option.some.inj (ha.symm.trans ha')
    exact hright
  · exact fun hright => ⟨a, ha, hright⟩

theorem iso9660_ids_right_iff_isoVolume : ∃ st' a,
    iso9660AttemptMount isoVolume
      ⟨iso9660ReadTree 9 (isoJunk 5) isoVolume, fun _ _ _ => .error .timeout⟩ freshIsoDevice false =
        .ok (0, st') ∧
    st'.mountpoint = some a ∧ (st'.mountpoints a).root.IdsRight := by
  obtain ⟨⟨r, st'⟩, hrun, rfl⟩ := OkAnd.exists_ok (by decide +kernel :
    OkAnd (iso9660AttemptMount isoVolume
      ⟨iso9660ReadTree 9 (isoJunk 5) isoVolume, fun _ _ _ => .error .timeout⟩ freshIsoDevice false)
      fun p => p.1 = 0)
  obtain ⟨a, ha⟩ := (iso9660_ids_right_iff isoVolume _ 9 (isoJunk 5) freshIsoDevice st' false hrun).mpr
    (.inl (by decide))
  exact ⟨st', a, hrun, ha⟩

/-- With 64 in memory, the first record is stored behind a table of 64 entries. -/
theorem iso9660_store_outside : ∃ st',
    iso9660AttemptMount isoVolume
      ⟨iso9660ReadTree 9 (isoJunk 64) isoVolume, fun _ _ _ => .error .timeout⟩ freshIsoDevice false =
        .ok (0, st') ∧
    ¬∃ a, st'.mountpoint = some a ∧ (st'.mountpoints a).root.IdsRight := by
  obtain ⟨⟨r, st'⟩, hrun, rfl, hroot, hstore⟩ := OkAnd.exists_ok (by decide +kernel :
    OkAnd (iso9660AttemptMount isoVolume
      ⟨iso9660ReadTree 9 (isoJunk 64) isoVolume, fun _ _ _ => .error .timeout⟩ freshIsoDevice false)
      fun p => p.1 = 0 ∧ p.2.mountpoint = some 0 ∧ (64, 64) ∈ (p.2.mountpoints 0).root.table.stores)
  refine ⟨st', hrun, ?_⟩
  rintro ⟨a, ha, hright⟩
  obtain rfl := Option.some.inj (hroot.symm.trans ha)
  exact absurd (hright.stores _ hstore) (by decide)

end Mount

end GalaxyOS
