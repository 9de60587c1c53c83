import GalaxyOS.Fs.IsoTree
import GalaxyOS.Lib.Loops

/-! # Walks over directory records

Both loops over an extent go from a record to the one behind it by the length byte of the record.  If
the byte there is zero, the rest of the block is padding, and the walk goes on at the next block.  At
the start of a block there is no rest, and a zero byte keeps the walk where it is.

The places of the records are the iterates of `recordNext`.  `appendBody_rounds` and
`findBody_rounds` say what the buffer must hold for each of them to be read, and `records_last_iff` when
there is a last one. -/

namespace GalaxyOS

open Transition

/-! ### Rounding -/

/-- The zero byte at which `strlen(buffer + off)` ends is in the buffer. -/
def StringInside (buffer : List UInt8) (off : ℕ) : Prop := 0 ∈ buffer.drop off

/-- The string. -/
def stringAt (buffer : List UInt8) (off len : ℕ) : List UInt8 := cString ((buffer.drop off).take len)

/-- The length of the identifier of the record at `loc`. -/
def identifierLength (buffer : List UInt8) (loc : ℕ) : ℕ := leBytes buffer (loc + 32) 1

def IdentifierInside (buffer : List UInt8) (loc : ℕ) : Prop :=
  loc + 33 ≤ buffer.length ∧ StringInside buffer (loc + 33)

/-- The identifier. -/
def recordName (buffer : List UInt8) (loc : ℕ) : List UInt8 :=
  stringAt buffer (loc + 33) (identifierLength buffer loc)

/-- The name that a directory has by its record. -/
def recordDirName (buffer : List UInt8) (loc : ℕ) : List UInt8 :=
  ((stripVersion (recordName buffer loc)).getD (recordName buffer loc)).map tolower

/-- The record with its identifier. -/
def recordBytes (buffer : List UInt8) (loc : ℕ) : List UInt8 :=
  (buffer.drop loc).take (33 + identifierLength buffer loc)

def RecordInside (buffer : List UInt8) (loc : ℕ) : Prop :=
  loc + 33 + identifierLength buffer loc ≤ buffer.length

def IsDirectoryRecord (buffer : List UInt8) (loc : ℕ) : Prop :=
  (leBytes buffer (loc + 25) 1).testBit 1 = true

/-- The length byte of the record and the byte behind the record are in the buffer. -/
def NextInside (buffer : List UInt8) (loc : ℕ) : Prop :=
  loc < buffer.length ∧ wrap32 (loc + leBytes buffer loc 1) < buffer.length

/-- The place of the next record. -/
def recordNext (blocksize : ℕ) (buffer : List UInt8) (loc : ℕ) : ℕ :=
  if leBytes buffer (wrap32 (loc + leBytes buffer loc 1)) 1 = 0 then
    isoRoundUpInteger (wrap32 (loc + leBytes buffer loc 1)) blocksize
  else wrap32 (loc + leBytes buffer loc 1)

/-- The place of record `k`. -/
def recordOffset (blocksize : ℕ) (buffer : List UInt8) (k : ℕ) : ℕ :=
  (recordNext blocksize buffer)^[k] 0

/-- Behind record `k` there is another one. -/
def MoreRecords (blocksize : ℕ) (buffer : List UInt8) (fileSize k : ℕ) : Prop :=
  recordOffset blocksize buffer (k + 1) < fileSize

section Fields

variable {buffer : List UInt8} {loc blocksize : ℕ}

theorem structField_run {off n : ℕ} (h : off + n ≤ buffer.length) :
    structField buffer off n = .ok (leBytes buffer off n) :=
  structField_ok.mpr ⟨h, rfl⟩

theorem structField_fails {off n : ℕ} (h : ¬off + n ≤ buffer.length) :
    structField buffer off n = .error .overrun := by
  unfold structField
  rw [if_neg h]

theorem bufString_run {off : ℕ} (len : ℕ) (h : StringInside buffer off) :
    bufString buffer off len = .ok (stringAt buffer off len) := by
  unfold bufString
  exact if_pos h

theorem bufString_fails {off : ℕ} (len : ℕ) (h : ¬StringInside buffer off) :
    bufString buffer off len = .error .overrun := by
  unfold bufString
  exact if_neg h

theorem recordIdentifier_run (h : IdentifierInside buffer loc) :
    recordIdentifier buffer loc = .ok (recordName buffer loc) := by
  unfold recordIdentifier
  rw [structField_run (by have := h.1; omega), ok_bind]
  exact bufString_run _ h.2

theorem recordIdentifier_fails (h : ¬IdentifierInside buffer loc) :
    recordIdentifier buffer loc = .error .overrun := by
  unfold recordIdentifier
  by_cases hlen : loc + 32 + 1 ≤ buffer.length
  · rw [structField_run hlen, ok_bind]
    exact bufString_fails _ fun hs => h ⟨by omega, hs⟩
  · rw [structField_fails hlen, error_bind]

theorem copyRecord_run (h : RecordInside buffer loc) :
    copyRecord buffer loc = .ok (recordBytes buffer loc) := by
  unfold copyRecord
  unfold RecordInside at h
  rw [structField_run (by omega), ok_bind]
  exact if_pos h

theorem copyRecord_fails (h : ¬RecordInside buffer loc) :
    copyRecord buffer loc = .error .overrun := by
  unfold copyRecord
  by_cases hlen : loc + 32 + 1 ≤ buffer.length
  · rw [structField_run hlen, ok_bind]
    exact if_neg h
  · rw [structField_fails hlen, error_bind]

theorem nextRecord_run (h : NextInside buffer loc) :
    nextRecord blocksize buffer loc = .ok (recordNext blocksize buffer loc) := by
  unfold nextRecord recordNext
  rw [structField_run h.1, ok_bind, structField_run h.2, ok_bind]
  split_ifs <;> rfl

theorem nextRecord_fails (h : ¬NextInside buffer loc) :
    nextRecord blocksize buffer loc = .error .overrun := by
  unfold nextRecord
  by_cases hloc : loc + 1 ≤ buffer.length
  · rw [structField_run hloc, ok_bind, structField_fails (fun hnext => h ⟨hloc, hnext⟩), error_bind]
  · rw [structField_fails hloc, error_bind]

theorem recordOffset_succ (k : ℕ) : recordOffset blocksize buffer (k + 1) =
    recordNext blocksize buffer (recordOffset blocksize buffer k) :=
  Function.iterate_succ_apply' _ k 0

end Fields

/-! ### Progress -/

section Progress

variable {blocksize fileSize loc : ℕ} {buffer : List UInt8}

end Progress

/-! ### The loop over the files -/

/-- A file can be made of the record: it is in the buffer, with a zero byte behind its name, and there is
something before the version. -/
structure FileRecordOk (buffer : List UInt8) (loc : ℕ) : Prop where
  identifier : IdentifierInside buffer loc
  inside : RecordInside buffer loc
  named : stripVersion (recordName buffer loc) ≠ none

/-- What `iso9660_append_files` reads of the record is in the buffer. -/
structure RecordOk (buffer : List UInt8) (loc : ℕ) : Prop where
  flags : loc + 25 < buffer.length
  file : ¬IsDirectoryRecord buffer loc → FileRecordOk buffer loc
  next : NextInside buffer loc

section Append

variable {blocksize fileSize d loc : ℕ} {buffer : List UInt8}

theorem isoFileName_run {fileid : List UInt8} (h : stripVersion fileid ≠ none) :
    ∃ name, isoFileName fileid = .ok name := by
  unfold isoFileName
  cases hid : stripVersion fileid with
  | none => exact absurd hid h
  | some filename => exact ⟨_, rfl⟩

theorem visitRecord_run (s : IsoFiles) (h : ¬IsDirectoryRecord buffer loc → FileRecordOk buffer loc) :
    (IsDirectoryRecord buffer loc ∧
      s.visitRecord d buffer loc (leBytes buffer (loc + 25) 1) = .ok s) ∨
    (¬IsDirectoryRecord buffer loc ∧ ∃ name,
      s.visitRecord d buffer loc (leBytes buffer (loc + 25) 1) =
        .ok (s.addFile d name (recordBytes buffer loc))) := by
  unfold IsoFiles.visitRecord
  by_cases hdir : IsDirectoryRecord buffer loc
  · exact .inl ⟨hdir, if_pos hdir⟩
  · obtain ⟨hid, hin, hname⟩ := h hdir
    obtain ⟨name, hname⟩ := isoFileName_run hname
    have hflag : ¬(leBytes buffer (loc + 25) 1).testBit 1 = true := hdir
    refine .inr ⟨hdir, name, ?_⟩
    rw [if_neg hflag, recordIdentifier_run hid, ok_bind, hname, ok_bind,
      copyRecord_run hin, ok_bind]

theorem visitRecord_fails (s : IsoFiles)
    (h : ¬(¬IsDirectoryRecord buffer loc → FileRecordOk buffer loc)) :
    ∃ e, s.visitRecord d buffer loc (leBytes buffer (loc + 25) 1) = .error e := by
  obtain ⟨hdir, hfile⟩ := Classical.not_imp.mp h
  have hflag : ¬(leBytes buffer (loc + 25) 1).testBit 1 = true := hdir
  unfold IsoFiles.visitRecord
  rw [if_neg hflag]
  by_cases hid : IdentifierInside buffer loc
  · rw [recordIdentifier_run hid, ok_bind]
    cases hname : isoFileName (recordName buffer loc) with
    | error e => exact ⟨e, rfl⟩
    | ok name =>
        rw [ok_bind]
        refine ⟨.overrun, ?_⟩
        rw [copyRecord_fails, error_bind]
        refine fun hin => hfile ⟨hid, hin, fun hnone => ?_⟩
        unfold isoFileName at hname
        rw [hnone] at hname
        cases hname
  · exact ⟨.overrun, by rw [recordIdentifier_fails hid, error_bind]⟩

/-- The rounds of the loop, with what the caller knows about the files after each of them. -/
theorem appendBody_rounds {J : ℕ → IsoFiles → Prop}
    (hdir : ∀ k s, J k s → IsDirectoryRecord buffer (recordOffset blocksize buffer k) → J (k + 1) s)
    (hfile : ∀ k s, J k s → ¬IsDirectoryRecord buffer (recordOffset blocksize buffer k) →
      ∀ name, J (k + 1) (s.addFile d name (recordBytes buffer (recordOffset blocksize buffer k)))) :
    Rounds (appendBody blocksize buffer fileSize d)
      (fun k s => s.1 = recordOffset blocksize buffer k ∧ J k s.2)
      (fun k => RecordOk buffer (recordOffset blocksize buffer k))
      (MoreRecords blocksize buffer fileSize) (fun k s => J (k + 1) s) := by
  have hstep : ∀ k s, s.1 = recordOffset blocksize buffer k ∧ J k s.2 →
      RecordOk buffer (recordOffset blocksize buffer k) → ∃ t, J (k + 1) t ∧
      appendBody blocksize buffer fileSize d s =
        if fileSize ≤ recordOffset blocksize buffer (k + 1) then .ok (.inr t)
        else .ok (.inl (recordOffset blocksize buffer (k + 1), t)) := by
    rintro k ⟨loc, s⟩ ⟨rfl, hJ⟩ hok
    unfold appendBody
    simp only
    rw [structField_run hok.flags, ok_bind, nextRecord_run hok.next, recordOffset_succ]
    cases visitRecord_run s hok.file with
    | inl h =>
        obtain ⟨hd, hrun⟩ := h
        exact ⟨s, hdir k s hJ hd, by rw [hrun, ok_bind, ok_bind]⟩
    | inr h =>
        obtain ⟨hd, name, hrun⟩ := h
        exact ⟨_, hfile k s hJ hd name, by rw [hrun, ok_bind, ok_bind]⟩
  refine ⟨?_, ?_, ?_⟩
  · intro k s hI hok hmore
    obtain ⟨t, hJ, hrun⟩ := hstep k s hI hok
    rw [if_neg (Nat.not_le_of_lt hmore)] at hrun
    exact ⟨_, hrun, rfl, hJ⟩
  · intro k s hI hok hmore
    obtain ⟨t, hJ, hrun⟩ := hstep k s hI hok
    rw [if_pos (Nat.le_of_not_lt hmore)] at hrun
    exact ⟨t, hrun, hJ⟩
  · rintro k ⟨loc, s⟩ ⟨rfl, -⟩ hok
    unfold appendBody
    simp only
    by_cases hflags : recordOffset blocksize buffer k + 25 + 1 ≤ buffer.length
    · rw [structField_run hflags, ok_bind]
      by_cases hfile : ¬IsDirectoryRecord buffer (recordOffset blocksize buffer k) →
          FileRecordOk buffer (recordOffset blocksize buffer k)
      · have hnext : ¬NextInside buffer (recordOffset blocksize buffer k) :=
          fun hnext => hok ⟨hflags, hfile, hnext⟩
        refine ⟨.overrun, ?_⟩
        rw [nextRecord_fails hnext]
        cases visitRecord_run s hfile (d := d) with
        | inl h => rw [h.2, ok_bind, error_bind]
        | inr h =>
            obtain ⟨-, name, hrun⟩ := h
            rw [hrun, ok_bind, error_bind]
      · obtain ⟨e, he⟩ := visitRecord_fails s hfile (d := d)
        exact ⟨e, by rw [he, error_bind]⟩
    · exact ⟨.overrun, by rw [structField_fails hflags, error_bind]⟩

end Append

/-! ### The search for a directory -/

/-- The search reads record `k`, and goes on to the next one if it has another name. -/
structure SearchOk (blocksize : ℕ) (buffer name : List UInt8) (k : ℕ) : Prop where
  identifier : IdentifierInside buffer (recordOffset blocksize buffer k)
  found : recordDirName buffer (recordOffset blocksize buffer k) = name →
    RecordInside buffer (recordOffset blocksize buffer k)
  next : recordDirName buffer (recordOffset blocksize buffer k) ≠ name →
    NextInside buffer (recordOffset blocksize buffer k)

/-- Record `k` has another name, and it is not the last one. -/
def SearchMore (blocksize : ℕ) (buffer : List UInt8) (fileSize : ℕ) (name : List UInt8) (k : ℕ) :
    Prop :=
  recordDirName buffer (recordOffset blocksize buffer k) ≠ name ∧
    MoreRecords blocksize buffer fileSize k

/-- The search comes to record `j`, which has the name. -/
structure FoundAt (blocksize : ℕ) (buffer : List UInt8) (fileSize : ℕ) (name : List UInt8) (j : ℕ) :
    Prop where
  before : Visits (SearchMore blocksize buffer fileSize name) j
  readable : ∀ i < j, IdentifierInside buffer (recordOffset blocksize buffer i) ∧
    NextInside buffer (recordOffset blocksize buffer i)
  name : recordDirName buffer (recordOffset blocksize buffer j) = name
  identifier : IdentifierInside buffer (recordOffset blocksize buffer j)
  inside : RecordInside buffer (recordOffset blocksize buffer j)

section Search

variable {blocksize fileSize j n : ℕ} {buffer name e : List UInt8}

theorem findBody_eq {loc : ℕ} (h : IdentifierInside buffer loc) :
    findBody blocksize buffer fileSize name loc =
      (if recordDirName buffer loc = name then do
        let found ← copyRecord buffer loc
        .ok (.inr (some found))
      else do
        let next ← nextRecord blocksize buffer loc
        if fileSize ≤ next then .ok (.inr none) else .ok (.inl next)) := by
  unfold findBody
  rw [recordIdentifier_run h]
  rfl

theorem findBody_rounds (blocksize : ℕ) (buffer : List UInt8) (fileSize : ℕ) (name : List UInt8) :
    Rounds (findBody blocksize buffer fileSize name) (fun k loc => loc = recordOffset blocksize buffer k)
      (SearchOk blocksize buffer name) (SearchMore blocksize buffer fileSize name)
      (fun k r => r = if recordDirName buffer (recordOffset blocksize buffer k) = name then
        some (recordBytes buffer (recordOffset blocksize buffer k)) else none) := by
  refine ⟨?_, ?_, ?_⟩
  · rintro k loc rfl hok ⟨hname, hmore⟩
    refine ⟨recordOffset blocksize buffer (k + 1), ?_, rfl⟩
    rw [findBody_eq hok.identifier, if_neg hname, nextRecord_run (hok.next hname), ok_bind,
      ← recordOffset_succ]
    exact if_neg (Nat.not_le_of_lt hmore)
  · rintro k loc rfl hok hmore
    rw [findBody_eq hok.identifier]
    by_cases hname : recordDirName buffer (recordOffset blocksize buffer k) = name
    · rw [if_pos hname, if_pos hname, copyRecord_run (hok.found hname)]
      exact ⟨_, rfl, rfl⟩
    · rw [if_neg hname, if_neg hname, nextRecord_run (hok.next hname), ok_bind, ← recordOffset_succ,
        if_pos (Nat.le_of_not_lt fun hlt => hmore ⟨hname, hlt⟩)]
      exact ⟨_, rfl, rfl⟩
  · rintro k loc rfl hok
    refine ⟨.overrun, ?_⟩
    by_cases hid : IdentifierInside buffer (recordOffset blocksize buffer k)
    · rw [findBody_eq hid]
      by_cases hname : recordDirName buffer (recordOffset blocksize buffer k) = name
      · rw [if_pos hname, copyRecord_fails (fun hin => hok ⟨hid, fun _ => hin, fun h => absurd hname h⟩),
          error_bind]
      · rw [if_neg hname,
          nextRecord_fails (fun hnext => hok ⟨hid, fun h => absurd h hname, fun _ => hnext⟩), error_bind]
    · unfold findBody
      rw [recordIdentifier_fails hid, error_bind]

theorem findBody_found (h : whileE Fault.timeout (findBody blocksize buffer fileSize name) n 0 =
    .ok (some e)) : ∃ j, FoundAt blocksize buffer fileSize name j ∧
      e = recordBytes buffer (recordOffset blocksize buffer j) := by
  obtain ⟨j, hlast, hok, hr⟩ := (findBody_rounds blocksize buffer fileSize name).result rfl h
  split_ifs at hr with hname
  · have hj := hok j (Nat.le_refl j)
    refine ⟨j, ⟨hlast.1, fun i hi => ?_, hname, hj.identifier, hj.found hname⟩, Option.some.inj hr⟩
    have hi' := hok i (Nat.le_of_lt hi)
    exact ⟨hi'.identifier, hi'.next (hlast.1 i hi).1⟩

end Search

/-! ### Extents -/

/-- The blocks from `loc` on that hold `size` bytes; `none` if none of them can be read. -/
def extentAt (md : Medium Unit) (loc size : ℕ) : Option (List UInt8) :=
  let r := md.readBlocks () loc (isoRoundUpInteger size md.blocksize / md.blocksize)
  if r.1 = 0 then none else some r.2.1

/-- The extent of a record. -/
def extent (md : Medium Unit) (entry : List UInt8) : Option (List UInt8) :=
  extentAt md (leBytes entry 2 4) (leBytes entry 10 4)

/-- There is memory for the extent. -/
def ExtentFits (md : Medium Unit) (entry : List UInt8) : Prop :=
  md.Serves () (isoRoundUpInteger (leBytes entry 10 4) md.blocksize)

section Extents

variable {md : Medium Unit} {entry buffer : List UInt8}

/-- What a successful read says about the extent. -/
theorem readExtent_ok {r : Option (List UInt8)} (h : readExtent md () entry = .ok (r, ())) :
    extent md entry = r ∧ ExtentFits md entry := by
  unfold readExtent at h
  obtain ⟨fileLoc, hloc, h⟩ := bind_ok.mp h
  obtain ⟨fileSize, hsize, h⟩ := bind_ok.mp h
  obtain ⟨⟨⟩, hfits, h⟩ := bind_ok.mp h
  obtain ⟨blocks, hblocks, h⟩ := bind_ok.mp h
  obtain ⟨-, rfl⟩ := structField_ok.mp hloc
  obtain ⟨-, rfl⟩ := structField_ok.mp hsize
  obtain ⟨-, rfl⟩ := divide_ok.mp hblocks
  refine ⟨?_, Medium.buffer_ok.mp hfits⟩
  unfold extent extentAt
  simp only at h ⊢
  split_ifs at h with hbytes
  · rw [if_pos hbytes, (Prod.mk.inj (Except.ok.inj h)).1]
  · rw [if_neg hbytes, (Prod.mk.inj (Except.ok.inj h)).1]

end Extents

end GalaxyOS
