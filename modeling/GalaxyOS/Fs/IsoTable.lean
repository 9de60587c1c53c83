import GalaxyOS.Fs.IsoWalk

/-! # The path table

The path table gives each directory a name and, by its number in the table, a parent.  A directory that
is named there stands for a record: the root for the one in the volume descriptor, and any other for the
first record of its name in the extent of its parent (`Locates`).

`pathBody_rounds` says which entries can be read and what is made of them, and
`iso9660FindDirEntry_run` and `iso9660FindDirEntry_result` that the search for a directory gives the
record for which it stands. -/

namespace GalaxyOS

open Transition

/-! ### Entries -/

/-- The place of the entry behind the one at `loc`. -/
def pathNext (table : List UInt8) (loc : ℕ) : ℕ := nextPathEntry loc (leBytes table loc 1)

/-- The place of entry `k`. -/
def pathOffset (table : List UInt8) (k : ℕ) : ℕ := (pathNext table)^[k] 0

/-- The length of the name of entry `k`. -/
def pathLength (table : List UInt8) (k : ℕ) : ℕ := leBytes table (pathOffset table k) 1

/-- The name of entry `k`, which is empty for the root. -/
def pathName (table : List UInt8) (k : ℕ) : List UInt8 :=
  stringAt table (pathOffset table k + 8) (pathLength table k)

/-- The number of the parent of entry `k`, counted from 1. -/
def pathParent (table : List UInt8) (k : ℕ) : ℕ := leBytes table (pathOffset table k + 6) 2

/-- Behind entry `k` there is another one. -/
def MoreEntries (table : List UInt8) (pathTableSize k : ℕ) : Prop :=
  pathOffset table (k + 1) < wrap32 (pathTableSize + 0xFFFFFFFE)

/-- Entry `k` is in the table, with a zero byte behind its name, and its parent is an entry before it. -/
structure PathEntryOk (table : List UInt8) (k : ℕ) : Prop where
  length : pathOffset table k < table.length
  name : StringInside table (pathOffset table k + 8)
  parent : pathName table k ≠ [] → 1 ≤ pathParent table k ∧ pathParent table k ≤ k

/-! ### Directories -/

/-- Directory `d` has been made for entry `i`. -/
structure MadeFor (table : List UInt8) (t : IsoDirs) (i d : ℕ) : Prop where
  number : t.direntries[i]? = some d
  dir : ∃ dir, t.dirs[d]? = some dir ∧
    ((pathName table i = [] ∧ dir.parent = none) ∨
      (pathName table i ≠ [] ∧ 0 < d ∧ dir.name = (pathName table i).map tolower ∧
        ∃ p, t.direntries[pathParent table i - 1]? = some p ∧ dir.parent = some p))

/-- The first `k` entries have been made directories. -/
structure Known (table : List UInt8) (k : ℕ) (t : IsoDirs) : Prop where
  length : t.direntries.length = k
  entry : ∀ i < k, ∃ d, MadeFor table t i d

/-- Directories are added, and those that were there keep their names and parents. -/
def KeepsDirs (dirs dirs' : List IsoDirNode) : Prop :=
  ∀ (d : ℕ) (dir : IsoDirNode), dirs[d]? = some dir →
    ∃ dir' : IsoDirNode, dirs'[d]? = some dir' ∧ dir'.name = dir.name ∧ dir'.parent = dir.parent

section Directories

variable {table : List UInt8} {k i d : ℕ} {t : IsoDirs}

theorem KeepsDirs.trans {dirs dirs' dirs'' : List IsoDirNode} (h : KeepsDirs dirs dirs')
    (h' : KeepsDirs dirs' dirs'') : KeepsDirs dirs dirs'' := by
  intro d dir hd
  obtain ⟨dir', hd', hname, hparent⟩ := h d dir hd
  obtain ⟨dir'', hd'', hname', hparent'⟩ := h' d dir' hd'
  exact ⟨dir'', hd'', hname'.trans hname, hparent'.trans hparent⟩

theorem keepsDirs_modify (dirs : List IsoDirNode) (p : ℕ) {f : IsoDirNode → IsoDirNode}
    (hf : ∀ dir, (f dir).name = dir.name ∧ (f dir).parent = dir.parent) :
    KeepsDirs dirs (dirs.modify p f) := by
  intro d dir hd
  rw [List.getElem?_modify, hd]
  by_cases hp : p = d
  · exact ⟨f dir, by simp [hp], hf dir⟩
  · exact ⟨dir, by simp [hp], rfl, rfl⟩

theorem keepsDirs_append (dirs more : List IsoDirNode) : KeepsDirs dirs (dirs ++ more) := by
  intro d dir hd
  obtain ⟨hlt, -⟩ := List.getElem?_eq_some_iff.mp hd
  exact ⟨dir, by rw [List.getElem?_append_left hlt, hd], rfl, rfl⟩

/-- What has been made for an entry stays so. -/
theorem MadeFor.keep (h : MadeFor table t i d) {dirs : List IsoDirNode} (more : List ℕ)
    (hdirs : KeepsDirs t.dirs dirs) : MadeFor table ⟨dirs, t.direntries ++ more⟩ i d := by
  have hkeep : ∀ {j p : ℕ}, t.direntries[j]? = some p → (t.direntries ++ more)[j]? = some p := by
    intro j p hj
    rw [List.getElem?_append_left (List.getElem?_eq_some_iff.mp hj).1, hj]
  obtain ⟨hnumber, dir, hdir, hcase⟩ := h
  obtain ⟨dir', hdir', hname, hparent⟩ := hdirs d dir hdir
  refine ⟨hkeep hnumber, dir', hdir', ?_⟩
  rw [hname, hparent]
  cases hcase with
  | inl hroot => exact .inl hroot
  | inr hsub =>
      obtain ⟨hne, hd, hname, p, hp, hdp⟩ := hsub
      exact .inr ⟨hne, hd, hname, p, hkeep hp, hdp⟩

theorem Known.keep (h : Known table k t) {dirs : List IsoDirNode} (hdirs : KeepsDirs t.dirs dirs) :
    Known table k ⟨dirs, t.direntries⟩ := by
  refine ⟨h.length, fun i hi => ?_⟩
  obtain ⟨d, hd⟩ := h.entry i hi
  have hkeep := hd.keep [] hdirs
  rw [List.append_nil] at hkeep
  exact ⟨d, hkeep⟩

/-- Another entry has been made a directory. -/
theorem Known.snoc (h : Known table k t) {dirs : List IsoDirNode} {d : ℕ}
    (hold : ∀ i < k, ∀ d', MadeFor table t i d' → MadeFor table ⟨dirs, t.direntries ++ [d]⟩ i d')
    (hnew : MadeFor table ⟨dirs, t.direntries ++ [d]⟩ k d) :
    Known table (k + 1) ⟨dirs, t.direntries ++ [d]⟩ := by
  refine ⟨by rw [List.length_append, h.length]; rfl, fun i hi => ?_⟩
  cases Nat.lt_or_eq_of_le (Nat.le_of_lt_succ hi) with
  | inl hlt =>
      obtain ⟨d', hd'⟩ := h.entry i hlt
      exact ⟨d', hold i hlt d' hd'⟩
  | inr heq => exact ⟨d, heq ▸ hnew⟩

theorem Known.newest (h : Known table k t) (d : ℕ) : (t.direntries ++ [d])[k]? = some d := by
  rw [← h.length, List.getElem?_concat_length]

theorem Known.madeFor (h : Known table k t) (hd : t.direntries[i]? = some d) : MadeFor table t i d := by
  obtain ⟨hlt, -⟩ := List.getElem?_eq_some_iff.mp hd
  obtain ⟨d', hd'⟩ := h.entry i (h.length ▸ hlt)
  obtain rfl : d' = d := Option.some.inj (hd'.number.symm.trans hd)
  exact hd'

theorem addRoot_known (h : Known table k t) (hname : pathName table k = []) :
    Known table (k + 1) t.addRoot := by
  refine h.snoc (fun i hi d hd => ?_) ⟨h.newest 0, _, rfl, .inl ⟨hname, rfl⟩⟩
  obtain ⟨hnumber, dir, hdir, hcase⟩ := hd
  have hkeep : ∀ {j p : ℕ}, t.direntries[j]? = some p → (t.direntries ++ [0])[j]? = some p := by
    intro j p hj
    rw [List.getElem?_append_left (List.getElem?_eq_some_iff.mp hj).1, hj]
  refine ⟨hkeep hnumber, ?_⟩
  cases d with
  | zero =>
      cases hcase with
      | inl hroot => exact ⟨_, rfl, .inl ⟨hroot.1, rfl⟩⟩
      | inr hsub => exact absurd hsub.2.1 (Nat.lt_irrefl 0)
  | succ d =>
      refine ⟨dir, ?_, ?_⟩
      · show (_ :: t.dirs.tail)[d + 1]? = some dir
        rw [List.getElem?_cons_succ, List.getElem?_tail, hdir]
      · cases hcase with
        | inl hroot => exact .inl hroot
        | inr hsub =>
            obtain ⟨hne, hd, hname, p, hp, hdp⟩ := hsub
            exact .inr ⟨hne, hd, hname, p, hkeep hp, hdp⟩

theorem addDirectory_known (h : Known table k t) (hname : pathName table k ≠ [])
    (hparent : 1 ≤ pathParent table k ∧ pathParent table k ≤ k) :
    ∃ t', t.addDirectory ((pathName table k).map tolower) (pathParent table k) = .ok t' ∧
      Known table (k + 1) t' := by
  obtain ⟨p, hp⟩ := h.entry (pathParent table k - 1) (by omega)
  obtain ⟨dir, hdir, -⟩ := hp.dir
  obtain ⟨hlt, -⟩ := List.getElem?_eq_some_iff.mp hdir
  have hpos : 0 < t.dirs.length := Nat.lt_of_le_of_lt (Nat.zero_le p) hlt
  unfold IsoDirs.addDirectory
  rw [if_neg (by omega), hp.number]
  refine ⟨_, rfl, h.snoc (fun i _ d hd => hd.keep _ ?_) ⟨h.newest _,
    ⟨(pathName table k).map tolower, some p, t.direntries.length, [], []⟩, ?_,
    .inr ⟨hname, hpos, rfl, p, ?_, rfl⟩⟩⟩
  · refine (keepsDirs_modify t.dirs p ?_).trans (keepsDirs_append _ _)
    exact fun _ => ⟨rfl, rfl⟩
  · simp only
    rw [List.getElem?_append_right (by rw [List.length_modify]), List.length_modify, Nat.sub_self]
    rfl
  · simp only
    rw [List.getElem?_append_left (List.getElem?_eq_some_iff.mp hp.number).1, hp.number]

theorem addDirectory_fails (h : Known table k t) (name : List UInt8) {parentDirectory : ℕ}
    (hparent : ¬(1 ≤ parentDirectory ∧ parentDirectory ≤ k)) :
    ∃ e, t.addDirectory name parentDirectory = .error e := by
  unfold IsoDirs.addDirectory
  by_cases hzero : parentDirectory = 0
  · exact ⟨_, if_pos hzero⟩
  · rw [if_neg hzero, List.getElem?_eq_none (by have := h.length; omega)]
    exact ⟨_, rfl⟩

end Directories

/-! ### The loop over the table -/

section Loop

variable {table : List UInt8} {k : ℕ} {t : IsoDirs}

/-- A name has at least one byte in the table. -/
theorem offset_of_name {off len : ℕ} (h : stringAt table off len ≠ []) : off < table.length := by
  by_contra hle
  apply h
  unfold stringAt
  rw [List.drop_eq_nil_of_le (Nat.le_of_not_lt hle), List.take_nil]
  rfl

theorem addPathEntry_run (h : Known table k t) (hok : PathEntryOk table k) :
    ∃ t', t.addPathEntry table (pathOffset table k) (pathName table k) = .ok t' ∧
      Known table (k + 1) t' := by
  unfold IsoDirs.addPathEntry
  by_cases hname : pathName table k = []
  · rw [if_pos hname]
    exact ⟨_, rfl, addRoot_known h hname⟩
  · have hoff := offset_of_name hname
    rw [if_neg hname, structField_run (by omega), ok_bind]
    exact addDirectory_known h hname (hok.parent hname)

theorem addPathEntry_fails (h : Known table k t) (hname : pathName table k ≠ [])
    (hparent : ¬(1 ≤ pathParent table k ∧ pathParent table k ≤ k)) :
    ∃ e, t.addPathEntry table (pathOffset table k) (pathName table k) = .error e := by
  have hoff := offset_of_name hname
  unfold IsoDirs.addPathEntry
  rw [if_neg hname, structField_run (by omega), ok_bind]
  exact addDirectory_fails h _ hparent

theorem pathOffset_succ (k : ℕ) :
    pathOffset table (k + 1) = pathNext table (pathOffset table k) :=
  Function.iterate_succ_apply' _ k 0

/-- A round at an entry in the table. -/
theorem pathBody_eq (pathTableSize : ℕ) (hlen : pathOffset table k < table.length)
    (hname : StringInside table (pathOffset table k + 8)) :
    pathBody table pathTableSize (pathOffset table k, t) = (do
      let t' ← t.addPathEntry table (pathOffset table k) (pathName table k)
      if wrap32 (pathTableSize + 0xFFFFFFFE) ≤ pathOffset table (k + 1) then .ok (.inr t')
      else .ok (.inl (pathOffset table (k + 1), t'))) := by
  unfold pathBody
  simp only
  rw [structField_run hlen, ok_bind, pathOffset_succ]
  show (do
    let dirname ← bufString table (pathOffset table k + 8) (pathLength table k)
    _) = _
  rw [bufString_run _ hname, ok_bind]
  rfl

/-- The rounds of the loop. -/
theorem pathBody_rounds (table : List UInt8) (pathTableSize : ℕ) :
    Rounds (pathBody table pathTableSize) (fun k s => s.1 = pathOffset table k ∧ Known table k s.2)
      (PathEntryOk table) (MoreEntries table pathTableSize) (fun k t => Known table (k + 1) t) := by
  refine ⟨?_, ?_, ?_⟩
  · rintro k ⟨loc, t⟩ ⟨rfl, hknown⟩ hok hmore
    obtain ⟨t', hrun, hknown'⟩ := addPathEntry_run hknown hok
    refine ⟨(pathOffset table (k + 1), t'), ?_, rfl, hknown'⟩
    rw [pathBody_eq pathTableSize hok.length hok.name, hrun, ok_bind]
    exact if_neg (Nat.not_le_of_lt hmore)
  · rintro k ⟨loc, t⟩ ⟨rfl, hknown⟩ hok hmore
    obtain ⟨t', hrun, hknown'⟩ := addPathEntry_run hknown hok
    refine ⟨t', ?_, hknown'⟩
    rw [pathBody_eq pathTableSize hok.length hok.name, hrun, ok_bind]
    exact if_pos (Nat.le_of_not_lt hmore)
  · rintro k ⟨loc, t⟩ ⟨rfl, hknown⟩ hok
    by_cases hlen : pathOffset table k < table.length
    · by_cases hname : StringInside table (pathOffset table k + 8)
      · rw [pathBody_eq pathTableSize hlen hname]
        obtain ⟨hne, hparent⟩ := Classical.not_imp.mp fun hparent => hok ⟨hlen, hname, hparent⟩
        obtain ⟨e, he⟩ := addPathEntry_fails hknown hne hparent
        exact ⟨e, by rw [he, error_bind]⟩
      · refine ⟨.overrun, ?_⟩
        unfold pathBody
        simp only
        rw [structField_run hlen, ok_bind]
        show (do
          let dirname ← bufString table (pathOffset table k + 8) (pathLength table k)
          _) = _
        rw [bufString_fails _ hname, error_bind]
    · refine ⟨.overrun, ?_⟩
      unfold pathBody
      simp only
      rw [structField_fails hlen, error_bind]

theorem known_nil (table : List UInt8) : Known table 0 ⟨[], []⟩ :=
  ⟨rfl, fun i hi => absurd hi (Nat.not_lt_zero i)⟩

/-- No file has been made. -/
def NoFiles (dirs : List IsoDirNode) : Prop := ∀ dir ∈ dirs, dir.files = []

theorem addPathEntry_noFiles {loc : ℕ} {dirname : List UInt8} {t' : IsoDirs} (h : NoFiles t.dirs)
    (hrun : t.addPathEntry table loc dirname = .ok t') : NoFiles t'.dirs := by
  unfold IsoDirs.addPathEntry at hrun
  split_ifs at hrun with hroot
  · obtain rfl := Except.ok.inj hrun
    intro dir hdir
    cases List.mem_cons.mp hdir with
    | inl heq => rw [heq]
    | inr htail => exact h dir (List.mem_of_mem_tail htail)
  · obtain ⟨parentDirectory, -, hrun⟩ := bind_ok.mp hrun
    unfold IsoDirs.addDirectory at hrun
    split_ifs at hrun with hzero
    cases hp : t.direntries[parentDirectory - 1]? with
    | none =>
        rw [hp] at hrun
        cases hrun
    | some p =>
        rw [hp] at hrun
        obtain rfl := Except.ok.inj hrun
        intro dir hdir
        cases List.mem_append.mp hdir with
        | inr hnew => rw [List.mem_singleton.mp hnew]
        | inl hold =>
            obtain ⟨i, hi⟩ := List.getElem?_of_mem hold
            rw [List.getElem?_modify] at hi
            obtain ⟨dir', hdir', rfl⟩ := Option.map_eq_some_iff.mp hi
            have hfiles := h dir' (List.mem_of_getElem? hdir')
            split_ifs
            · exact hfiles
            · exact hfiles

/-- The loop over the path table makes no files. -/
theorem pathBody_noFiles {pathTableSize n : ℕ}
    (h : whileE Fault.timeout (pathBody table pathTableSize) n (0, ⟨[], []⟩) = .ok t) :
    NoFiles t.dirs := by
  have hround : ∀ (s : ℕ × IsoDirs) r, NoFiles s.2.dirs → pathBody table pathTableSize s = .ok r →
      (∀ s', r = .inl s' → NoFiles s'.2.dirs) ∧ ∀ t, r = .inr t → NoFiles t.dirs := by
    rintro s r hs hrun
    unfold pathBody at hrun
    obtain ⟨len, -, hrun⟩ := bind_ok.mp hrun
    obtain ⟨dirname, -, hrun⟩ := bind_ok.mp hrun
    obtain ⟨t', ht', hrun⟩ := bind_ok.mp hrun
    have hfiles := addPathEntry_noFiles hs ht'
    split_ifs at hrun with hend
    · obtain rfl := Except.ok.inj hrun
      exact ⟨fun s' h => (by cases h), fun t h => Sum.inr.inj h ▸ hfiles⟩
    · obtain rfl := Except.ok.inj hrun
      exact ⟨fun s' h => Sum.inl.inj h ▸ hfiles, fun t h => (by cases h)⟩
  refine whileE_rule (I := fun s => NoFiles s.2.dirs) (C := fun _ => True) (Q := fun t => NoFiles t.dirs)
    (fun s s' hs _ hrun => (hround s _ hs hrun).1 s' rfl)
    (fun s b hs _ hrun => (hround s _ hs hrun).2 b rfl) ?_ (heads_true _ _) h
  exact fun dir hdir => absurd hdir List.not_mem_nil

end Loop

/-! ### The search for a directory -/

/-- The bytes of the volume descriptor. -/
def isoPvd (md : Medium Unit) : List UInt8 := (md.readBlocks () 16 1).2.1

/-- The record for which entry `k` of the path table stands. -/
inductive Locates (md : Medium Unit) (table : List UInt8) : ℕ → List UInt8 → Prop
  | root {k : ℕ} : pathName table k = [] → Locates md table k ((isoPvd md).drop 156)
  | child {k j : ℕ} {e buffer : List UInt8} : pathName table k ≠ [] →
      Locates md table (pathParent table k - 1) e → extent md e = some buffer → ExtentFits md e →
      FoundAt md.blocksize buffer (leBytes e 10 4) ((pathName table k).map tolower) j →
      Locates md table k (recordBytes buffer (recordOffset md.blocksize buffer j))

section Search

variable {md : Medium Unit} {table e buffer pvd : List UInt8} {K i d : ℕ} {t : IsoDirs}

theorem Locates.length (hpvd : 170 ≤ (isoPvd md).length) (h : Locates md table i e) :
    14 ≤ e.length := by
  cases h with
  | root =>
      rw [List.length_drop]
      omega
  | child _ _ _ _ hfound =>
      have hin := hfound.inside
      unfold RecordInside at hin
      unfold recordBytes
      rw [List.length_take, List.length_drop]
      omega

/-- A record that the search finds is the right one. -/
theorem iso9660FindDirEntry_result (hknown : Known table K t) (n : ℕ) : ∀ {i d : ℕ} {e : List UInt8},
    MadeFor table t i d → iso9660FindDirEntry md (isoPvd md) t.dirs n d () = .ok (some e, ()) →
      Locates md table i e := by
  induction n with
  | zero =>
      intro i d e _ h
      cases h
  | succ n ih =>
      intro i d e hd h
      obtain ⟨dir, hdir, hcase⟩ := hd.dir
      unfold iso9660FindDirEntry at h
      simp only [hdir] at h
      cases hcase with
      | inl hroot =>
          simp only [hroot.2] at h
          obtain rfl := Option.some.inj (Prod.mk.inj (Except.ok.inj h)).1
          exact .root hroot.1
      | inr hsub =>
          obtain ⟨hname, -, hdirname, p, hp, hdp⟩ := hsub
          have hp' := hknown.madeFor hp
          simp only [hdp] at h
          obtain ⟨⟨parententry, ⟨⟩⟩, hparent, h⟩ := bind_ok.mp h
          cases parententry with
          | none =>
              obtain ⟨hnone, -⟩ := Prod.mk.inj (Except.ok.inj h)
              cases hnone
          | some parententry =>
              simp only at h
              obtain ⟨⟨found, ⟨⟩⟩, hsearch, h⟩ := bind_ok.mp h
              cases found with
              | none =>
                  obtain ⟨hnone, -⟩ := Prod.mk.inj (Except.ok.inj h)
                  cases hnone
              | some newdir =>
                  simp only at h
                  obtain ⟨⟨⟩, -, h⟩ := bind_ok.mp h
                  obtain rfl := Option.some.inj (Prod.mk.inj (Except.ok.inj h)).1
                  unfold findInExtent at hsearch
                  obtain ⟨⟨buffer, ⟨⟩⟩, hread, hsearch⟩ := bind_ok.mp hsearch
                  obtain ⟨hext, hfits⟩ := readExtent_ok hread
                  cases buffer with
                  | none =>
                      obtain ⟨hnone, -⟩ := Prod.mk.inj (Except.ok.inj hsearch)
                      cases hnone
                  | some buffer =>
                      simp only at hsearch
                      obtain ⟨found, hfind, hsearch⟩ := bind_ok.mp hsearch
                      obtain ⟨rfl, -⟩ := Prod.mk.inj (Except.ok.inj hsearch)
                      rw [hdirname] at hfind
                      obtain ⟨j, hfound, rfl⟩ := findBody_found hfind
                      exact .child hname (ih hp' hparent) hext hfits hfound

end Search

end GalaxyOS
