import GalaxyOS.Fs.FatTermination

/-! # Which directory trees are complete

A tree is complete if it has one node for each live entry of each directory, in their order, with the
kind and the size of the entry (`TreeHolds`).  What the entries of a directory are can be said in two
ways: on the volume they are the live ones of its cluster chain (`FatMount.LiveEntries`), for the
loops those that they see and give a name to (`FatMount.LoopEntries`).  The tree read holds the latter,
and so it is complete exactly if the two agree in every directory (`vfat_tree_complete_iff`). -/

namespace GalaxyOS

open Transition

/-! ### Trees of entries -/

/-- The files among the entries. -/
def fileEntries (es : List (List UInt8)) : List (List UInt8) :=
  es.filter fun e => !slotIsDirectory e

/-- The directories among the entries. -/
def dirEntries (es : List (List UInt8)) : List (List UInt8) := es.filter slotIsDirectory

/-- The files have been made from these entries. -/
def FilesHold (es : List (List UInt8)) (files : List FatFileNode) : Prop :=
  files.map (fun f => (f.entry, f.size)) = (fileEntries es).map fun e => (e, leBytes e 28 4)

/-- The directories have been made from these entries, and what they contain from the entries of the
directories. -/
inductive DirsHold (entries : ℕ → List (List UInt8) → Prop) :
    List (List UInt8) → List FatDirNode → Prop
  | nil : DirsHold entries [] []
  | cons {entry name : List UInt8} {id : ℕ} {es rest : List (List UInt8)} {files : List FatFileNode}
      {directories ds : List FatDirNode} :
      entries (slotCluster entry) es → FilesHold es files →
      DirsHold entries (dirEntries es) directories → DirsHold entries rest ds →
      DirsHold entries (entry :: rest) (.mk name id entry files directories :: ds)

/-- A directory with these entries. -/
structure TreeHolds (entries : ℕ → List (List UInt8) → Prop) (es : List (List UInt8))
    (c : FatContents) : Prop where
  files : FilesHold es c.files
  directories : DirsHold entries (dirEntries es) c.directories

/-- The same files and the same directories. -/
def SameEntries (es es' : List (List UInt8)) : Prop :=
  fileEntries es = fileEntries es' ∧ dirEntries es = dirEntries es'

/-- `c` contains the directory at `c'`. -/
def HasSubdirectory (entries : ℕ → List (List UInt8) → Prop) (c c' : ℕ) : Prop :=
  ∃ es, entries c es ∧ ∃ e ∈ dirEntries es, slotCluster e = c'

/-- In a directory and those that it contains, the two notions of an entry agree. -/
def AgreeFrom (entries entries' : ℕ → List (List UInt8) → Prop) (c : ℕ) : Prop :=
  ∀ c', Relation.ReflTransGen (HasSubdirectory entries) c c' →
    ∃ es es', entries c' es ∧ entries' c' es' ∧ SameEntries es es'

section Trees

variable {entries entries' : ℕ → List (List UInt8) → Prop}

theorem FilesHold.eq {es es' : List (List UInt8)} {files : List FatFileNode}
    (h : FilesHold es files) (h' : FilesHold es' files) : fileEntries es = fileEntries es' := by
  unfold FilesHold at h h'
  have hkeys := congrArg (List.map Prod.fst) (h.symm.trans h')
  simpa only [List.map_map, Function.comp_def, List.map_id'] using hkeys

theorem FilesHold.of_eq {es es' : List (List UInt8)} {files : List FatFileNode}
    (h : FilesHold es files) (heq : fileEntries es = fileEntries es') : FilesHold es' files := by
  unfold FilesHold at h ⊢
  rw [h, heq]

/-- Directories that hold entries in one sense hold them in the other if the senses agree. -/
theorem DirsHold.iff (hfun : ∀ c es es', entries c es → entries c es' → es = es')
    {es : List (List UInt8)} {ds : List FatDirNode} (h : DirsHold entries es ds) :
    ∀ es', DirsHold entries' es' ds ↔
      es = es' ∧ ∀ e ∈ es, AgreeFrom entries entries' (slotCluster e) := by
  induction h with
  | nil =>
      intro es'
      constructor
      · intro h'
        cases h'
        exact ⟨rfl, fun e he => (by cases he)⟩
      · rintro ⟨rfl, -⟩
        exact .nil
  | @cons entry name id es rest files directories ds hes hfiles hdirs _ ihdirs ihrest =>
      intro all
      constructor
      · intro h'
        cases h' with
        | @cons _ _ _ es' rest' _ _ _ hes' hfiles' hdirs' hrest' =>
            obtain ⟨hdirsEq, hsub⟩ := (ihdirs _).mp hdirs'
            obtain ⟨rfl, hlater⟩ := (ihrest _).mp hrest'
            refine ⟨rfl, fun e he => ?_⟩
            obtain rfl | he := List.mem_cons.mp he
            · intro c' hreach
              cases hreach.cases_head with
              | inl hsame =>
                  rw [← hsame]
                  exact ⟨es, es', hes, hes', hfiles.eq hfiles', hdirsEq⟩
              | inr hstep =>
                  obtain ⟨c₁, ⟨es₁, hes₁, e₁, he₁, rfl⟩, hreach⟩ := hstep
                  obtain rfl := hfun _ _ _ hes hes₁
                  exact hsub e₁ he₁ c' hreach
            · exact hlater e he
      · rintro ⟨rfl, hagree⟩
        obtain ⟨es₁, es', hes₁, hes', hfilesEq, hdirsEq⟩ := hagree entry List.mem_cons_self _ .refl
        obtain rfl := hfun _ _ _ hes hes₁
        have hsub : ∀ e ∈ dirEntries es, AgreeFrom entries entries' (slotCluster e) :=
          fun e he c' hreach => hagree entry List.mem_cons_self c' (.head ⟨es, hes, e, he, rfl⟩ hreach)
        exact .cons hes' (hfiles.of_eq hfilesEq) ((ihdirs _).mpr ⟨hdirsEq, hsub⟩)
          ((ihrest _).mpr ⟨rfl, fun e he => hagree e (List.mem_cons_of_mem _ he)⟩)

/-- So it is with a whole directory. -/
theorem TreeHolds.iff (hfun : ∀ c es es', entries c es → entries c es' → es = es')
    {es es' : List (List UInt8)} {c : FatContents} (h : TreeHolds entries es c) :
    TreeHolds entries' es' c ↔ SameEntries es es' ∧
      ∀ e ∈ dirEntries es, AgreeFrom entries entries' (slotCluster e) := by
  constructor
  · intro h'
    obtain ⟨hdirs, hagree⟩ := (h.directories.iff hfun _).mp h'.directories
    exact ⟨⟨h.files.eq h'.files, hdirs⟩, hagree⟩
  · rintro ⟨⟨hfiles, hdirs⟩, hagree⟩
    exact ⟨h.files.of_eq hfiles, (h.directories.iff hfun _).mpr ⟨hdirs, hagree⟩⟩

theorem treeHolds_empty : TreeHolds entries [] noContents := ⟨rfl, .nil⟩

theorem DirsHold.append {es es' : List (List UInt8)} {ds ds' : List FatDirNode}
    (h : DirsHold entries es ds) (h' : DirsHold entries es' ds') :
    DirsHold entries (es ++ es') (ds ++ ds') := by
  induction h with
  | nil => exact h'
  | cons hes hfiles hdirs _ _ ih => exact .cons hes hfiles hdirs ih

/-- A file more. -/
theorem TreeHolds.addFile {es : List (List UInt8)} {c : FatContents} {entry : List UInt8}
    {f : FatFileNode} (h : TreeHolds entries es c) (hdir : slotIsDirectory entry = false)
    (hf : (f.entry, f.size) = (entry, leBytes entry 28 4)) :
    TreeHolds entries (es ++ [entry]) (c.addFile f) where
  files := by
    have hfiles := h.files
    unfold FilesHold fileEntries at hfiles ⊢
    unfold FatContents.addFile
    rw [List.map_append, hfiles, List.filter_append, List.map_append]
    simp [hdir, hf]
  directories := by
    have hsame : dirEntries (es ++ [entry]) = dirEntries es := by
      unfold dirEntries
      rw [List.filter_append]
      simp [hdir]
    rw [hsame]
    exact h.directories

/-- A directory more. -/
theorem TreeHolds.addDirectory {es sub : List (List UInt8)} {c subContents : FatContents}
    {entry name : List UInt8} {id : ℕ} (h : TreeHolds entries es c)
    (hdir : slotIsDirectory entry = true) (hsub : entries (slotCluster entry) sub)
    (htree : TreeHolds entries sub subContents) :
    TreeHolds entries (es ++ [entry])
      (c.addDirectory (.mk name id entry subContents.files subContents.directories)) where
  files := by
    have hfiles := h.files
    unfold FilesHold fileEntries at hfiles ⊢
    unfold FatContents.addDirectory
    rw [List.filter_append]
    simpa [hdir] using hfiles
  directories := by
    unfold dirEntries
    rw [List.filter_append]
    have hone : List.filter slotIsDirectory [entry] = [entry] := by simp [hdir]
    rw [hone]
    exact h.directories.append (.cons hsub htree.files htree.directories .nil)

end Trees

/-! ### What the loops make -/

/-- The entries that become nodes, with `k` characters in `lfnbuf` before. -/
def madeEntries : ℕ → List (List UInt8) → List (List UInt8)
  | _, [] => []
  | k, slot :: rest =>
      match slotKind slot with
      | .last => []
      | .unused => madeEntries k rest
      | .long => madeEntries (k + 13) rest
      | .short =>
          if k = 0 ∧ shortIgnored slot = true then madeEntries 0 rest
          else slot.take 32 :: madeEntries 0 rest

section Made

variable {entries : ℕ → List (List UInt8) → Prop}

theorem leBytes_take {data : List UInt8} {size n : ℕ} : ∀ {off : ℕ}, off + n ≤ size →
    leBytes (data.take size) off n = leBytes data off n := by
  induction n with
  | zero => exact fun _ => rfl
  | succ n ih =>
      intro off h
      unfold leBytes
      rw [getD_take (by omega), ih (by omega)]

theorem slotIsDirectory_take (slot : List UInt8) :
    slotIsDirectory (slot.take 32) = slotIsDirectory slot := by
  unfold slotIsDirectory
  rw [leBytes_take (by decide)]

theorem slotCluster_take (slot : List UInt8) : slotCluster (slot.take 32) = slotCluster slot := by
  unfold slotCluster
  rw [leBytes_take (by decide), leBytes_take (by decide)]

/-- A reader of directories whose trees hold the entries. -/
def ReadsTree (entries : ℕ → List (List UInt8) → Prop) (readDirectory : DirReader Unit) : Prop :=
  ∀ cluster fs c fs', readDirectory cluster fs = .ok (c, fs') →
    ∃ es, entries cluster es ∧ TreeHolds entries es c

theorem addNode_holds {readDirectory : DirReader Unit} (hread : ReadsTree entries readDirectory)
    {name slot : List UInt8} {es : List (List UInt8)} {c c' : FatContents} {fs fs' : FatState Unit}
    (hc : TreeHolds entries es c) (h : addNode readDirectory name slot c fs = .ok (c', fs')) :
    TreeHolds entries (es ++ [slot.take 32]) c' := by
  unfold addNode at h
  obtain ⟨⟨id, fs₁⟩, -, h⟩ := bind_ok.mp h
  by_cases hdir : slotIsDirectory slot = true
  · simp only [if_pos hdir] at h
    obtain ⟨⟨sub, fs₂⟩, hsub, h⟩ := bind_ok.mp h
    obtain ⟨rfl, -⟩ := Prod.mk.inj (Except.ok.inj h)
    obtain ⟨es', hes', htree⟩ := hread _ _ _ _ hsub
    rw [← slotCluster_take] at hes'
    exact hc.addDirectory (by rwa [slotIsDirectory_take]) hes' htree
  · simp only [if_neg hdir] at h
    obtain ⟨rfl, -⟩ := Prod.mk.inj (Except.ok.inj h)
    refine hc.addFile (by rw [slotIsDirectory_take]; simpa using hdir) ?_
    rw [leBytes_take (by decide)]
    rfl

/-- A walk adds the nodes of the entries that it gives a name to. -/
theorem walk_holds {readDirectory : DirReader Unit} (hread : ReadsTree entries readDirectory)
    {r : FatContents × FatState Unit} : ∀ {slots : List (List UInt8)} {lfnbuf : List UInt8}
    {es : List (List UInt8)} {c : FatContents} {fs : FatState Unit}, TreeHolds entries es c →
    walk readDirectory slots lfnbuf c fs = .ok r →
    TreeHolds entries (es ++ madeEntries lfnbuf.length slots) r.1
  | [], lfnbuf, es, c, fs, hc, h => by
      rw [← Except.ok.inj h]
      simpa [madeEntries] using hc
  | slot :: rest, lfnbuf, es, c, fs, hc, h => by
      unfold madeEntries
      cases hkind : slotKind slot with
      | last =>
          simp only [walk, hkind] at h
          rw [← Except.ok.inj h]
          simpa using hc
      | unused =>
          simp only [walk, hkind] at h
          exact walk_holds hread hc h
      | long =>
          simp only [walk, hkind] at h
          by_cases hfull : lfnbuf.length + 13 ≥ 256
          · rw [if_pos hfull] at h
            cases h
          · rw [if_neg hfull] at h
            have hrest := walk_holds hread hc h
            rwa [List.length_append, lfnChars_length] at hrest
      | short =>
          simp only [walk, hkind] at h
          obtain ⟨name, hname, h⟩ := bind_ok.mp h
          have hignored := entryName_ok hname
          cases name with
          | none =>
              have hempty := entryName_none hname
              subst hempty
              simp only [if_pos (hignored.mp rfl)]
              exact walk_holds hread hc h
          | some name =>
              obtain ⟨⟨c₁, fs₁⟩, hadd, h⟩ := bind_ok.mp h
              have hrest := walk_holds hread (addNode_holds hread hc hadd) h
              rw [if_neg fun hno => by simpa using hignored.mpr hno]
              rwa [List.append_assoc] at hrest

end Made

namespace FatMount

variable {m : FatMount Unit} {size : ℕ}

/-- The entries of a directory that the loop makes nodes of. -/
def LoopEntries (m : FatMount Unit) (size cluster : ℕ) (es : List (List UInt8)) : Prop :=
  ∃ ds, m.Clusters size cluster ds ∧ es = madeEntries 0 (seenSlots size ds)

theorem LoopEntries.unique {cluster : ℕ} {es es' : List (List UInt8)}
    (h : m.LoopEntries size cluster es) (h' : m.LoopEntries size cluster es') : es = es' := by
  obtain ⟨ds, hds, rfl⟩ := h
  obtain ⟨ds', hds', rfl⟩ := h'
  rw [hds.unique hds']

theorem vfatReadDirectory_holds (hreg : m.Regular size) (n : ℕ) :
    ReadsTree (m.LoopEntries size) (m.vfatReadDirectory n) := by
  induction n with
  | zero =>
      intro cluster fs c fs' h
      cases h
  | succ n ih =>
      intro cluster fs c fs' h
      obtain ⟨ds, hds⟩ := vfatReadDirectory_clusters hreg h
      have hwalk := (vfatReadDirectory_walk hreg hds fs _).1 n h
      exact ⟨_, ⟨ds, hds, rfl⟩, walk_holds ih treeHolds_empty hwalk⟩

/-- The entries of the root directory that the loop makes nodes of. -/
def LoopRoot (m : FatMount Unit) (size : ℕ) (es : List (List UInt8)) : Prop :=
  match m.info.rootDirCluster with
  | some cluster => m.LoopEntries size cluster es
  | none => ∃ data, m.RootSector m.info.rootDirLba data ∧
      es = madeEntries 0 (readSlots m.bytesPerSector data)

theorem vfatReadRoot_holds (hreg : m.Regular size) {n : ℕ} {fs fs' : FatState Unit}
    {c : FatContents} {es : List (List UInt8)} (hes : m.LoopRoot size es)
    (h : m.vfatReadRoot n fs = .ok (c, fs')) : TreeHolds (m.LoopEntries size) es c := by
  unfold vfatReadRoot at h
  unfold LoopRoot at hes
  cases hroot : m.info.rootDirCluster with
  | some cluster =>
      rw [hroot] at h hes
      obtain ⟨es', hes', htree⟩ := vfatReadDirectory_holds hreg n _ _ _ _ h
      rwa [LoopEntries.unique hes hes']
  | none =>
      rw [hroot] at h hes
      obtain ⟨data, hdata, rfl⟩ := hes
      exact walk_holds (vfatReadDirectory_holds hreg n) treeHolds_empty
        ((vfatReadRootSector_walk hdata fs _).1 n h)

/-! ### What there is on the volume -/

end FatMount

/-- The entry of a volume label. -/
def IsLabel (slot : List UInt8) : Prop := (leBytes slot 11 1).testBit 3 = true

instance (slot : List UInt8) : Decidable (IsLabel slot) :=
  inferInstanceAs (Decidable (_ = true))

/-- A live entry: a short one, not of `.`, `..` or a volume label. -/
def IsLive (slot : List UInt8) : Prop := slotKind slot = .short ∧ ¬IsDots slot ∧ ¬IsLabel slot

instance (slot : List UInt8) : Decidable (IsLive slot) :=
  inferInstanceAs (Decidable (_ ∧ _ ∧ _))

/-- The live entries before the end mark. -/
def liveEntries (slots : List (List UInt8)) : List (List UInt8) :=
  ((beforeMark slots).filter fun slot => IsLive slot).map (List.take 32)

namespace FatMount

/-- The live entries of a directory's cluster chain. -/
def LiveEntries (m : FatMount Unit) (size cluster : ℕ) (es : List (List UInt8)) : Prop :=
  ∃ ds, m.Chain cluster ds ∧ es = liveEntries (ds.flatMap (allSlots size))

/-- The live entries of the root directory: of its cluster chain, or of the sectors of the root
area. -/
def LiveRoot (m : FatMount Unit) (size : ℕ) (es : List (List UInt8)) : Prop :=
  match m.info.rootDirCluster with
  | some cluster => m.LiveEntries size cluster es
  | none => ∃ sectors : List (List UInt8), sectors.length = m.info.rootDirSectors ∧
      (∀ i < sectors.length, ∃ data, sectors[i]? = some data ∧
        m.readSector () (m.info.rootDirLba + i) = .ok (data, ())) ∧
      es = liveEntries (sectors.flatMap (allSlots m.bytesPerSector))

end FatMount

theorem vfatReadTree_root {n : ℕ} {md : Medium Unit} {blocks : ℕ} {info : FatInfo}
    {fatbs : List UInt8} {disk disk' : Unit} {root : FatRoot Unit}
    (h : vfatReadTree n md blocks info fatbs disk = .ok (root, disk')) :
    root.mount.md = md ∧ ∃ fs fs', root.mount.vfatReadRoot n fs = .ok (root.contents, fs') := by
  unfold vfatReadTree at h
  obtain ⟨⟨m, disk₁⟩, hload, h⟩ := bind_ok.mp h
  obtain ⟨⟨c, fs⟩, hread, h⟩ := bind_ok.mp h
  obtain ⟨rfl, -⟩ := Prod.mk.inj (Except.ok.inj h)
  unfold vfatLoadFat at hload
  obtain ⟨count, -, hload⟩ := bind_ok.mp hload
  obtain ⟨start, -, hload⟩ := bind_ok.mp hload
  obtain ⟨⟨⟩, -, hload⟩ := bind_ok.mp hload
  obtain ⟨⟨fatTable, disk₂⟩, -, hload⟩ := bind_ok.mp hload
  obtain ⟨rfl, -⟩ := Prod.mk.inj (Except.ok.inj hload)
  exact ⟨rfl, _, fs, hread⟩

/-- The entries that the loops make nodes of are the live ones: in the root directory, and in every
directory that is read. -/
def FatMount.TreeAgrees (m : FatMount Unit) (size : ℕ) (made live : List (List UInt8)) : Prop :=
  SameEntries made live ∧ ∀ e ∈ dirEntries made,
    AgreeFrom (m.LoopEntries size) (m.LiveEntries size) (slotCluster e)

/-! ### Directories in which the two agree -/

/-- Of the short entries, the live ones are not ignored and the others are, with `k` characters in
`lfnbuf` before. -/
def Undisturbed : ℕ → List (List UInt8) → Prop
  | _, [] => True
  | k, slot :: rest =>
      match slotKind slot with
      | .last => True
      | .unused => Undisturbed k rest
      | .long => Undisturbed (k + 13) rest
      | .short => (k = 0 ∧ shortIgnored slot = true ↔ ¬IsLive slot) ∧ Undisturbed 0 rest

/-- No live entry stands at the end of a cluster. -/
def LastDead (size : ℕ) (ds : List (List UInt8)) : Prop :=
  ∀ data ∈ ds, ¬HasMark (readSlots size data) →
    ∀ slot ∈ (allSlots size data).drop ((size - 1) / 32), ¬IsLive slot

namespace FatMount

/-- A directory whose end the loops see, which has no live entry at the end of a cluster, and in which
just the entries that are not live are ignored. -/
def PlainDirectory (m : FatMount Unit) (size cluster : ℕ) : Prop :=
  ∃ ds, m.Chain cluster ds ∧ EndSeen m.info.fatType size ds ∧ LastDead size ds ∧
    ∀ ds', m.Clusters size cluster ds' → Undisturbed 0 (seenSlots size ds')

/-- A root area of FAT12 or FAT16 in which just the entries that are not live are ignored, and none is live
behind those that the loop sees in the first sector. -/
def PlainRootArea (m : FatMount Unit) : Prop :=
  ∃ data rest, rest.length + 1 = m.info.rootDirSectors ∧
    (∀ i < rest.length + 1, ∃ sector, (data :: rest)[i]? = some sector ∧
      m.readSector () (m.info.rootDirLba + i) = .ok (sector, ())) ∧
    Undisturbed 0 (readSlots m.bytesPerSector data) ∧
    (HasMark (readSlots m.bytesPerSector data) ∨
      ∀ slot ∈ (allSlots m.bytesPerSector data).drop ((m.bytesPerSector - 1) / 32) ++
        rest.flatMap (allSlots m.bytesPerSector), ¬IsLive slot)

/-- The root directory is such a directory. -/
def PlainRoot (m : FatMount Unit) (size : ℕ) : Prop :=
  match m.info.rootDirCluster with
  | some cluster => m.PlainDirectory size cluster
  | none => m.PlainRootArea

end FatMount

section Undisturbed

variable {size : ℕ} {slots slots' : List (List UInt8)}

/-- Live entries with names are not ignored. -/
theorem undisturbed_of_live : ∀ {k : ℕ} {slots : List (List UInt8)},
    (∀ slot ∈ beforeMark slots, slotKind slot = .short → IsLive slot ∧ shortIgnored slot = false) →
      Undisturbed k slots
  | _, [], _ => trivial
  | k, slot :: rest, h => by
      have hrest : slotKind slot ≠ .last → ∀ {k}, Undisturbed k rest := by
        intro hkind k
        refine undisturbed_of_live fun s hs => h s ?_
        unfold beforeMark
        rw [List.takeWhile_cons_of_pos (by simpa using hkind)]
        exact List.mem_cons_of_mem slot hs
      unfold Undisturbed
      cases hkind : slotKind slot with
      | last => trivial
      | unused => exact hrest (by rw [hkind]; decide)
      | long => exact hrest (by rw [hkind]; decide)
      | short =>
          have hslot : slot ∈ beforeMark (slot :: rest) := by
            unfold beforeMark
            rw [List.takeWhile_cons_of_pos (by simp [hkind])]
            exact List.mem_cons_self
          obtain ⟨hlive, hname⟩ := h slot hslot hkind
          refine ⟨iff_of_false (fun hno => ?_) (not_not.mpr hlive), hrest (by rw [hkind]; decide)⟩
          rw [hname] at hno
          exact Bool.false_ne_true hno.2

theorem liveEntries_append_of_mark (h : HasMark slots) :
    liveEntries (slots ++ slots') = liveEntries slots := by
  unfold liveEntries
  rw [beforeMark_append_of_mark h]

theorem liveEntries_append_of_not (h : ∀ slot ∈ slots, slotKind slot ≠ .last) :
    liveEntries (slots ++ slots') =
      (slots.filter fun slot => IsLive slot).map (List.take 32) ++ liveEntries slots' := by
  unfold liveEntries
  rw [beforeMark_append_of_not h, List.filter_append, List.map_append]

theorem liveEntries_cons {slot : List UInt8} {rest : List (List UInt8)}
    (h : slotKind slot ≠ .last) :
    liveEntries (slot :: rest) =
      if IsLive slot then slot.take 32 :: liveEntries rest else liveEntries rest := by
  have hone : ∀ s ∈ [slot], slotKind s ≠ .last := fun s hs => by rwa [List.mem_singleton.mp hs]
  rw [← List.singleton_append, liveEntries_append_of_not hone]
  by_cases hlive : IsLive slot <;> simp [hlive]

/-- There nodes are made of the live entries that are seen. -/
theorem madeEntries_eq : ∀ {k : ℕ} {slots : List (List UInt8)}, Undisturbed k slots →
    madeEntries k slots = liveEntries slots
  | _, [], _ => rfl
  | k, slot :: rest, h => by
      have hdead : slotKind slot ≠ .short → ¬IsLive slot := fun hkind hlive => hkind hlive.1
      unfold Undisturbed at h
      unfold madeEntries
      cases hkind : slotKind slot with
      | last =>
          unfold liveEntries beforeMark
          rw [List.takeWhile_cons_of_neg (by simpa using hkind)]
          rfl
      | unused =>
          rw [hkind] at h
          rw [liveEntries_cons (by rw [hkind]; decide), if_neg (hdead (by rw [hkind]; decide))]
          exact madeEntries_eq h
      | long =>
          rw [hkind] at h
          rw [liveEntries_cons (by rw [hkind]; decide), if_neg (hdead (by rw [hkind]; decide))]
          exact madeEntries_eq h
      | short =>
          rw [hkind] at h
          obtain ⟨hslot, hrest⟩ := h
          rw [liveEntries_cons (by rw [hkind]; decide)]
          simp only
          by_cases hlive : IsLive slot
          · rw [if_pos hlive, if_neg fun hno => hslot.mp hno hlive, madeEntries_eq hrest]
          · rw [if_neg hlive, if_pos (hslot.mpr hlive), madeEntries_eq hrest]

theorem liveEntries_dead (h : ∀ slot ∈ slots, ¬IsLive slot) : liveEntries slots = [] := by
  unfold liveEntries
  rw [List.map_eq_nil_iff, List.filter_eq_nil_iff]
  intro slot hslot
  simpa using h slot (List.takeWhile_subset _ hslot)

/-- What is seen of a cluster, and what is not. -/
theorem allSlots_eq (size : ℕ) (data : List UInt8) :
    allSlots size data = readSlots size data ++ (allSlots size data).drop ((size - 1) / 32) := by
  have htake : (allSlots size data).take ((size - 1) / 32) = readSlots size data := by
    unfold allSlots readSlots
    rw [← List.map_take, List.take_range, Nat.min_eq_left (by omega)]
  rw [← htake, List.take_append_drop]

/-- If the end of a directory is seen and no live entry stands at the end of a cluster, then its live
entries are seen. -/
theorem EndSeen.live_seen {m : FatMount Unit} {cluster : ℕ} {ds : List (List UInt8)}
    (hchain : m.Chain cluster ds) (h : EndSeen m.info.fatType size ds) (hlast : LastDead size ds) :
    ∃ ds', m.Clusters size cluster ds' ∧
      liveEntries (seenSlots size ds') = liveEntries (ds.flatMap (allSlots size)) := by
  -- a directory with an end mark in the first cluster
  have hfirst : ∀ data (rest : List (List UInt8)), HasMark (readSlots size data) →
      liveEntries (seenSlots size [data]) = liveEntries (allSlots size data ++ rest) := by
    intro data rest hmark
    unfold seenSlots
    rw [List.flatMap_cons, liveEntries_append_of_mark hmark, allSlots_eq, List.append_assoc,
      liveEntries_append_of_mark hmark]
  induction hchain with
  | @last cluster next data hread hend =>
      by_cases hmark : HasMark (readSlots size data)
      · exact ⟨[data], .mark hread hmark, hfirst data _ hmark⟩
      · have hfat32 : m.info.fatType = .fat32 := (h.resolve_left hmark).2
        rw [hfat32] at hend
        refine ⟨[data], .stop hread hmark hend, ?_⟩
        have hnone : ∀ slot ∈ readSlots size data, slotKind slot ≠ .last :=
          fun s hs hl => hmark ⟨s, hs, hl⟩
        have hdead := liveEntries_dead (hlast data List.mem_cons_self hmark)
        unfold seenSlots
        rw [List.flatMap_cons, List.flatMap_cons, List.flatMap_nil, List.flatMap_nil,
          List.append_nil (allSlots size data), allSlots_eq, liveEntries_append_of_not hnone,
          liveEntries_append_of_not hnone, hdead]
        rfl
  | @more cluster next data ds hread hend hchain ih =>
      by_cases hmark : HasMark (readSlots size data)
      · exact ⟨[data], .mark hread hmark, hfirst data _ hmark⟩
      · obtain ⟨hrest, hseen⟩ := h.resolve_left hmark
        obtain ⟨ds', hds', hlive⟩ := ih hseen fun d hd => hlast d (List.mem_cons_of_mem _ hd)
        have hall : ∀ slot ∈ allSlots size data, slotKind slot ≠ .last := by
          apply hrest.resolve_right
          rintro rfl
          cases hchain
        refine ⟨data :: ds', .more hread hmark (FatType.follows hend) hds', ?_⟩
        have hdead : ((allSlots size data).drop ((size - 1) / 32)).filter
            (fun slot => IsLive slot) = [] := by
          rw [List.filter_eq_nil_iff]
          intro slot hslot
          simpa using hlast data List.mem_cons_self hmark slot hslot
        unfold seenSlots at hlive ⊢
        rw [List.flatMap_cons, List.flatMap_cons, liveEntries_append_of_not hall,
          liveEntries_append_of_not fun s hs hl => hmark ⟨s, hs, hl⟩, hlive, allSlots_eq,
          List.filter_append, hdead, List.append_nil]

/-- In such a directory with undisturbed entries, nodes are made of exactly the live ones. -/
theorem entries_agree {m : FatMount Unit} {cluster : ℕ} {ds : List (List UInt8)}
    (hchain : m.Chain cluster ds) (hend : EndSeen m.info.fatType size ds) (hlast : LastDead size ds)
    (hplain : ∀ ds', m.Clusters size cluster ds' → Undisturbed 0 (seenSlots size ds')) :
    ∃ es, m.LoopEntries size cluster es ∧ m.LiveEntries size cluster es := by
  obtain ⟨ds', hds', hlive⟩ := EndSeen.live_seen hchain hend hlast
  refine ⟨madeEntries 0 (seenSlots size ds'), ⟨ds', hds', rfl⟩, ds, hchain, ?_⟩
  rw [madeEntries_eq (hplain ds' hds'), hlive]

/-- In such a root area too. -/
theorem FatMount.PlainRootArea.live {m : FatMount Unit} {data : List UInt8} (h : m.PlainRootArea)
    (hread : m.readSector () m.info.rootDirLba = .ok (data, ())) :
    ∃ sectors : List (List UInt8), sectors.length = m.info.rootDirSectors ∧
      (∀ i < sectors.length, ∃ data, sectors[i]? = some data ∧
        m.readSector () (m.info.rootDirLba + i) = .ok (data, ())) ∧
      madeEntries 0 (readSlots m.bytesPerSector data) =
        liveEntries (sectors.flatMap (allSlots m.bytesPerSector)) := by
  obtain ⟨data', rest, hlen, hsectors, hplain, hbehind⟩ := h
  obtain ⟨sector, hsector, hread'⟩ := hsectors 0 (Nat.succ_pos _)
  obtain rfl := Option.some.inj hsector
  rw [Nat.add_zero, hread] at hread'
  obtain rfl := (Prod.mk.inj (Except.ok.inj hread')).1
  refine ⟨data :: rest, hlen, hsectors, ?_⟩
  rw [madeEntries_eq hplain, List.flatMap_cons, allSlots_eq, List.append_assoc]
  by_cases hmark : HasMark (readSlots m.bytesPerSector data)
  · rw [liveEntries_append_of_mark hmark]
  · have hnone : ∀ slot ∈ readSlots m.bytesPerSector data, slotKind slot ≠ .last :=
      fun s hs hl => hmark ⟨s, hs, hl⟩
    rw [liveEntries_append_of_not hnone, liveEntries_dead (hbehind.resolve_left hmark), List.append_nil]
    unfold liveEntries beforeMark
    rw [List.takeWhile_eq_self_iff.mpr]
    exact fun slot hslot => by simpa using hnone slot hslot

/-- The entries that become nodes are then the live ones of the whole tree. -/
theorem FatMount.PlainRoot.agree {m : FatMount Unit} {made : List (List UInt8)} (h : m.PlainRoot size)
    (hmade : m.LoopRoot size made)
    (hsub : ∀ e ∈ dirEntries made, ∀ c,
      Relation.ReflTransGen (HasSubdirectory (m.LoopEntries size)) (slotCluster e) c →
        m.PlainDirectory size c) :
    m.LiveRoot size made ∧ m.TreeAgrees size made made := by
  refine ⟨?_, ⟨rfl, rfl⟩, fun e he c hreach => ?_⟩
  · unfold PlainRoot at h
    unfold LoopRoot at hmade
    unfold LiveRoot
    cases hroot : m.info.rootDirCluster with
    | some cluster =>
        rw [hroot] at h hmade
        obtain ⟨ds, hchain, hend, hlast, hplain⟩ := h
        obtain ⟨es, hloop, hlive⟩ := entries_agree hchain hend hlast hplain
        exact hloop.unique hmade ▸ hlive
    | none =>
        rw [hroot] at h hmade
        obtain ⟨data, hsector, rfl⟩ := hmade
        exact h.live hsector.read
  · obtain ⟨ds, hchain, hend, hlast, hplain⟩ := hsub e he c hreach
    obtain ⟨es, hloop, hlive⟩ := entries_agree hchain hend hlast hplain
    exact ⟨es, es, hloop, hlive, rfl, rfl⟩

end Undisturbed

/-- The tree has exactly one node for each live entry of the volume. -/
def FatMount.TreeComplete (m : FatMount Unit) (size : ℕ) (c : FatContents) : Prop :=
  ∃ live, m.LiveRoot size live ∧ TreeHolds (m.LiveEntries size) live c

/-- **Complete trees.**  After a mount by the FAT driver that succeeds, the tree is complete if and only if
the loops make nodes of exactly the live entries of each directory.  That they do in a directory whose
end they see, which has no live entry at the end of a cluster, and in which just the entries that are
not live are ignored; so the tree is complete if the root directory and all directories that are read are
such. -/
theorem vfat_tree_complete_iff (n : ℕ) (md : Medium Unit) (blocks : ℕ)
    (iso9660 : List UInt8 → List UInt8 → Unit → Except Fault (FatRoot Unit × Unit))
    (st st' : MountState (FatRoot Unit) Unit) (a : ℕ) (m : FatMount Unit) (size : ℕ)
    (made : List (List UInt8))
    (h : vfatAttemptMount md ⟨iso9660, vfatReadTree n md blocks⟩ st = .ok (0, st'))
    (ha : st'.mountpoint = some a) (hm : (st'.mountpoints a).root.mount = m) (hreg : m.Regular size)
    (hmade : m.LoopRoot size made) :
    (m.TreeComplete size (st'.mountpoints a).root.contents ↔
      ∃ live, m.LiveRoot size live ∧ m.TreeAgrees size made live) ∧
    (∀ cluster ds, m.Chain cluster ds → EndSeen m.info.fatType size ds → LastDead size ds →
      (∀ ds', m.Clusters size cluster ds' → Undisturbed 0 (seenSlots size ds')) →
      ∃ es, m.LoopEntries size cluster es ∧ m.LiveEntries size cluster es) ∧
    (m.PlainRoot size →
      (∀ e ∈ dirEntries made, ∀ c,
        Relation.ReflTransGen (HasSubdirectory (m.LoopEntries size)) (slotCluster e) c →
          m.PlainDirectory size c) →
      m.TreeComplete size (st'.mountpoints a).root.contents) := by
  obtain ⟨a', info, fatbs, disk, disk', ha', htree⟩ := vfatAttemptMount_tree h
  obtain rfl : a = a' := Option.some.inj (ha.symm.trans ha')
  obtain ⟨-, fs, fs', hread⟩ := vfatReadTree_root htree
  rw [hm] at hread
  have hholds := FatMount.vfatReadRoot_holds hreg hmade hread
  have hiff : ∀ live, TreeHolds (m.LiveEntries size) live (st'.mountpoints a).root.contents ↔
      m.TreeAgrees size made live := fun _ => hholds.iff fun _ _ _ hes hes' => hes.unique hes'
  refine ⟨exists_congr fun live => and_congr_right fun _ => hiff live,
    fun _ _ hchain hend hlast hplain => entries_agree hchain hend hlast hplain, fun hplain hsub => ?_⟩
  obtain ⟨hlive, hagree⟩ := hplain.agree hmade hsub
  exact ⟨made, hlive, (hiff made).mpr hagree⟩

/-! ### Two small volumes -/

/-- A root directory with sixteen files, as many as there is room for. -/
def fullRoot : List UInt8 :=
  (List.range 16).flatMap fun k => directoryEntry (letterName (UInt8.ofNat (0x41 + k))) 0x20 3 5

/-- A root directory with a file and a directory, and the directory, which has a file. -/
def plainRoot : List UInt8 :=
  directoryEntry (letterName 0x41) 0x20 3 5 ++ directoryEntry (letterName 0x44) 0x10 2 0

def plainEntries (i : ℕ) : List UInt8 := if i = 2 then directoryEntry (letterName 0x42) 0x20 4 7 else []

/-- The small volume with them, mounted. -/
def plainMount : FatMount Unit := smallMount 1 plainRoot plainEntries

deriving instance DecidableEq for FatInfo

theorem plainMount_regular : plainMount.Regular 512 := by
  have hlen : ∀ i, (plainEntries i).length ≤ 512 := by
    intro i
    unfold plainEntries
    split_ifs
    · decide
    · exact Nat.zero_le _
  exact smallMount_regular (n := 1) (by decide) hlen (by decide) rfl

/-- The two entries. -/
def plainMade : List (List UInt8) :=
  [directoryEntry (letterName 0x41) 0x20 3 5, directoryEntry (letterName 0x44) 0x10 2 0]

theorem plainMount_root : plainMount.LoopRoot 512 plainMade :=
  ⟨fullBlock plainRoot, smallMount_sector (by decide), by decide +kernel⟩

theorem plainMount_plainRoot : plainMount.PlainRoot 512 := by
  refine ⟨fullBlock plainRoot, [], rfl, fun i hi => ⟨fullBlock plainRoot, ?_, ?_⟩,
    undisturbed_of_live (by decide +kernel), .inl (fullBlock_hasMark (by decide))⟩
  · obtain rfl : i = 0 := Nat.lt_one_iff.mp hi
    rfl
  · obtain rfl : i = 0 := Nat.lt_one_iff.mp hi
    exact (smallMount_sector (by decide)).read

theorem plainMount_read :
    plainMount.vfatReadCluster () 2 = .ok (fullBlock (plainEntries 2), 0xFFF, ()) :=
  smallMount_readCluster (by decide) (by decide) (smallMount_next (by decide))

theorem plainMount_clusters : plainMount.Clusters 512 2 [fullBlock (plainEntries 2)] :=
  .mark plainMount_read (fullBlock_hasMark (by decide))

theorem plainMount_plainDirectory : plainMount.PlainDirectory 512 2 := by
  have hmark : HasMark (readSlots 512 (fullBlock (plainEntries 2))) := fullBlock_hasMark (by decide)
  refine ⟨_, .last plainMount_read (show 0xFF8 ≤ 0xFFF by decide), .inl hmark, fun data hdata hno => ?_,
    fun ds hds => ?_⟩
  · rw [List.mem_singleton.mp hdata] at hno
    exact absurd hmark hno
  · rw [hds.unique plainMount_clusters]
    exact undisturbed_of_live (by decide +kernel)

/-- The directory has no directories. -/
theorem plainMount_leaf {e : List UInt8} (he : e ∈ dirEntries plainMade) {c : ℕ}
    (hreach : Relation.ReflTransGen (HasSubdirectory (plainMount.LoopEntries 512)) (slotCluster e) c) :
    c = 2 := by
  induction hreach with
  | refl =>
      have hall : ∀ e ∈ dirEntries plainMade, slotCluster e = 2 := by decide
      exact hall e he
  | tail _ hsub ih =>
      obtain ⟨es, ⟨ds, hds, rfl⟩, e', he', -⟩ := hsub
      have hnone : dirEntries (madeEntries 0 (seenSlots 512 [fullBlock (plainEntries 2)])) = [] := by
        decide +kernel
      rw [ih] at hds
      rw [hds.unique plainMount_clusters, hnone] at he'
      exact absurd he' List.not_mem_nil

/-- A mount is known by its parts. -/
theorem FatMount.eq_of_parts {m m' : FatMount Unit} (hmd : m.md = m'.md)
    (h : m.blocks = m'.blocks ∧ m.info = m'.info ∧ m.fatbs = m'.fatbs ∧ m.fatTable = m'.fatTable) :
    m = m' := by
  cases m
  cases m'
  obtain ⟨rfl, rfl, rfl, rfl⟩ := h
  cases hmd
  rfl

/-- The tree has the file and the directory with its file. -/
theorem vfat_tree_complete_iff_plain : ∃ st',
    vfatAttemptMount plainMount.md ⟨fun _ _ _ => .error .timeout, vfatReadTree 19 plainMount.md 40⟩
      freshDevice = .ok (0, st') ∧
    plainMount.TreeComplete 512 (st'.mountpoints 0).root.contents := by
  obtain ⟨⟨r, st'⟩, hrun, ⟨rfl, ha⟩, hparts⟩ := OkAnd.exists_ok (by decide +kernel :
    OkAnd (vfatAttemptMount plainMount.md
      ⟨fun _ _ _ => .error .timeout, vfatReadTree 19 plainMount.md 40⟩ freshDevice) fun p =>
      (p.1 = 0 ∧ p.2.mountpoint = some 0) ∧
      (p.2.mountpoints 0).root.mount.blocks = plainMount.blocks ∧
      (p.2.mountpoints 0).root.mount.info = plainMount.info ∧
      (p.2.mountpoints 0).root.mount.fatbs = plainMount.fatbs ∧
      (p.2.mountpoints 0).root.mount.fatTable = plainMount.fatTable)
  refine ⟨st', hrun, ?_⟩
  obtain ⟨a, info, fatbs, disk, disk', ha', htree⟩ := vfatAttemptMount_tree hrun
  obtain rfl : 0 = a := Option.some.inj (ha.symm.trans ha')
  have hm := FatMount.eq_of_parts (vfatReadTree_root htree).1 hparts
  exact (vfat_tree_complete_iff 19 plainMount.md 40 _ freshDevice st' 0 plainMount 512 plainMade hrun
    ha hm plainMount_regular plainMount_root).2.2 plainMount_plainRoot
    fun e he c hreach => plainMount_leaf he hreach ▸ plainMount_plainDirectory

/-- Of the sixteen files, the last one is not found. -/
theorem vfat_tree_incomplete : ∃ st',
    vfatAttemptMount (smallMount 1 fullRoot fun _ => []).md
      ⟨fun _ _ _ => .error .timeout, vfatReadTree 20 (smallMount 1 fullRoot fun _ => []).md 40⟩
      freshDevice = .ok (0, st') ∧ st'.mountpoint = some 0 ∧
    (liveEntries (allSlots 512 fullRoot)).length = 16 ∧
    (st'.mountpoints 0).root.contents.files.length = 15 ∧
    (st'.mountpoints 0).root.contents.directories.length = 0 := by
  obtain ⟨⟨r, st'⟩, hrun, rfl, ha, hfiles, hdirs⟩ := OkAnd.exists_ok (by decide +kernel :
    OkAnd (vfatAttemptMount (smallMount 1 fullRoot fun _ => []).md
      ⟨fun _ _ _ => .error .timeout, vfatReadTree 20 (smallMount 1 fullRoot fun _ => []).md 40⟩
      freshDevice) fun p =>
      p.1 = 0 ∧ p.2.mountpoint = some 0 ∧ (p.2.mountpoints 0).root.contents.files.length = 15 ∧
      (p.2.mountpoints 0).root.contents.directories.length = 0)
  exact ⟨st', hrun, ha, by decide +kernel, hfiles, hdirs⟩

end GalaxyOS
