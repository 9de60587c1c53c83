import GalaxyOS.Fs.Descriptors

/-! # File offsets

`vfs_read` and `vfs_write` add to the offset whatever the driver returns.  A driver that fails
returns -1, so the offset moves back by one, from the start of the file to the largest 32-bit
number.

In a run in which no access to an open file fails, and none takes the offset past 32 bits, the
offset of every descriptor is the one at its opening plus the sum of the results so far.

`offsets_exact` is this statement.  `GainedInv.step` adds each result to the sum, and
`Descriptor.Gained.loc` reads the offset off it. -/

namespace GalaxyOS

open Transition

variable {ι δ : Type}

/-- The offset of every descriptor is the one it was opened with plus the sum of the results that
are not negative. -/
def OffsetsExact (st : FileState ι δ) : Prop :=
  ∀ pid fd d, st.opened pid fd = some d → ∃ o, (st.layer.table pid).lookup fd = some d.addr ∧
    st.layer.openAt d.addr = some o ∧ (o.loc : Int) = d.start + d.gained

/-- If `fd` is open, then the driver does not fail and the new offset has 32 bits. -/
def FileLayer.Gains (s : FileLayer ι δ) (write : Bool) (fd : Int) (buf : List UInt8) (count : ℕ) :
    Prop :=
  ∀ pid, s.kernel.currentps = some pid → ∀ a, (s.table pid).lookup fd = some a →
    ∀ o, s.openAt a = some o → 0 ≤ (o.access s.dev write buf count).1 ∧
      o.loc + (o.access s.dev write buf count).1 < 0x100000000

/-- No access to an open file fails. -/
def FileCall.AccessGains (st : FileState ι δ) : FileCall → Prop
  | .read fd buf count => st.layer.Gains false fd buf count
  | .write fd buf count => st.layer.Gains true fd buf count
  | _ => True

/-- The results so far have not been negative, and their sum is an offset. -/
def Descriptor.Gained (d : Descriptor ι) : Prop :=
  d.moved = d.gained ∧ 0 ≤ d.moved ∧ d.start + d.moved < 0x100000000

def GainedInv (opened : Int → Int → Option (Descriptor ι)) : Prop :=
  ∀ pid fd d, opened pid fd = some d → d.Gained

theorem GainedInv.set {opened : Int → Int → Option (Descriptor ι)} (h : GainedInv opened)
    {pid fd : Int} {o : Option (Descriptor ι)} (ho : ∀ d ∈ o, d.Gained) :
    GainedInv (setOpened opened pid fd o) := by
  intro i j d hd
  rw [setOpened_apply] at hd
  split_ifs at hd
  · exact ho d hd
  · exact h i j d hd

theorem Descriptor.Gained.accessed {d : Descriptor ι} (h : d.Gained) {r : Int} (hr : 0 ≤ r)
    (hlt : d.start + d.moved + r < 0x100000000) : (d.accessed r).Gained := by
  obtain ⟨heq, hpos, -⟩ := h
  refine ⟨?_, ?_, ?_⟩
  · simp only [Descriptor.accessed, if_pos hr, heq]
  · simp only [Descriptor.accessed]
    omega
  · simp only [Descriptor.accessed]
    omega

/-- A descriptor whose results have not been negative has moved by their sum. -/
theorem Descriptor.Gained.loc {d : Descriptor ι} (h : d.Gained) :
    (regOfInt (d.start + d.moved) : Int) = d.start + d.moved := by
  obtain ⟨-, hpos, hlt⟩ := h
  unfold regOfInt
  omega

theorem GainedInv.start {st : FileState ι δ} (h : FileStart st) : GainedInv st.opened := by
  intro pid fd d hd
  rw [h.opened] at hd
  cases hd

variable [DecidableEq ι]

theorem GainedInv.step {st st' : FileState ι δ} {c : FileCall} (h : GainedInv st.opened)
    (hinv : FilesInv st.layer st.opened) (hgain : c.AccessGains st) (hstep : FileStep st c st') :
    GainedInv st'.opened := by
  obtain ⟨r, s', hexec, rfl⟩ := hstep.exists_exec
  have haccess : ∀ write fd buf buf' count, st.layer.Gains write fd buf count →
      vfsAccess st.layer write fd buf count = .ok (r, buf', s') →
      GainedInv (setOpened st.opened (st.layer.kernel.currentps.getD (-1)) fd
        ((st.opened (st.layer.kernel.currentps.getD (-1)) fd).map fun d => d.accessed r)) := by
    intro write fd buf buf' count hgain hacc
    obtain ⟨pid, hcur, hlive, hcase⟩ := FileLayer.vfsAccess_cases hacc
    rw [hcur, Option.getD_some]
    refine h.set fun d' hd' => ?_
    obtain ⟨d, hd, rfl⟩ := Option.map_eq_some_iff.mp hd'
    have hlookup := hinv.lookup pid hlive fd
    rw [hd, Option.map_some] at hlookup
    rcases hcase with ⟨hnone, -, -⟩ | ⟨a, o, dev, ha, ho, hr, -⟩
    · rw [hnone] at hlookup
      cases hlookup
    · obtain rfl : a = d.addr := Option.some.inj (ha.symm.trans hlookup)
      obtain ⟨hpos, hlt⟩ := hgain pid hcur d.addr ha o ho
      rw [hr] at hpos hlt
      have hold := h pid fd d hd
      obtain ⟨-, o', ho', -, hloc⟩ := hinv.refers pid fd d hd
      obtain rfl : o = o' := Option.some.inj (ho.symm.trans ho')
      refine hold.accessed hpos ?_
      rw [← hold.loc, ← hloc]
      exact hlt
  cases c with
  | openFile path flags =>
      simp only [FileState.note]
      split
      · exact h
      · rename_i f _
        split_ifs
        · exact h
        · refine h.set fun d hd => ?_
          obtain rfl := Option.some.inj hd
          have hlt := openLoc_lt flags (st.layer.info f).size_lt
          refine ⟨rfl, Int.le_refl _, ?_⟩
          simp only
          omega
  | close fd =>
      simp only [FileState.note]
      split_ifs
      · exact h
      · exact h.set fun d hd => (by cases hd)
  | read fd buf count =>
      simp only [FileLayer.exec, bind_ok, Prod.exists, Except.ok.injEq, Prod.mk.injEq] at hexec
      obtain ⟨r, buf', s', hacc, rfl, rfl⟩ := hexec
      exact haccess false fd buf buf' count hgain hacc
  | write fd buf count =>
      simp only [FileLayer.exec, bind_ok, Prod.exists, Except.ok.injEq, Prod.mk.injEq] at hexec
      obtain ⟨r, buf', s', hacc, rfl, rfl⟩ := hexec
      exact haccess true fd buf buf' count hgain hacc
  | fstat fd => exact h
  | size fd => exact h
  | kernel c =>
      intro pid fd d hd
      simp only [FileState.note] at hd
      split_ifs at hd
      exact h pid fd d hd

/-- In a run in which no access fails, every offset is exact. -/
theorem offsets_exact {st : FileState ι δ}
    (h : Reach FileStep (fun st c => c.AccessGains st) FileStart st) : OffsetsExact st := by
  obtain ⟨hinv, hgained⟩ : FilesInv st.layer st.opened ∧ GainedInv st.opened := by
    induction h with
    | start hs => exact ⟨.start hs, .start hs⟩
    | next _ hok hstep ih => exact ⟨ih.1.step hstep, ih.2.step ih.1 hok hstep⟩
  intro pid fd d hd
  obtain ⟨-, o, ho, -, hloc⟩ := hinv.refers pid fd d hd
  have hd' := hgained pid fd d hd
  refine ⟨o, ?_, ho, ?_⟩
  · rw [hinv.lookup pid (hinv.live hd), hd, Option.map_some]
  · rw [hloc, hd'.loc, hd'.1]

/-! ### A read and a rejected write -/

/-- The state after process 1 has read from `cd:motd`, or written to it. -/
def motdAccessed (k : Kernel) (r : Int) : FileState Unit Unit :=
  ⟨(motdOpened k).layer.accessed 0 ⟨(), readOnlyDriver, 0, 0, 0, by decide⟩ r (),
    setOpened (motdOpened k).opened 1 0
      (((motdOpened k).opened 1 0).map fun d => d.accessed r)⟩

theorem motd_files {k : Kernel} (hcur : k.currentps = some 1) (hlive : k.processes 1 ≠ none) :
    (motdOpened k).layer.currentFiles = .ok (1, OpenFiles.fresh.add 0) :=
  FileLayer.currentFiles_ok.mpr ⟨hcur, hlive, rfl⟩

theorem motd_read {k : Kernel} (hcur : k.currentps = some 1) (hlive : k.processes 1 ≠ none) :
    FileStep (motdOpened k) (.read 0 [] 8) (motdAccessed k 1) := by
  have hcur' : (motdOpened k).layer.kernel.currentps = some 1 := hcur
  have hlookup : (OpenFiles.fresh.add 0).lookup 0 = some 0 := by decide
  have hopen : (motdOpened k).layer.fileOpenAt 0 = .ok ⟨(), readOnlyDriver, 0, 0, 0, by decide⟩ := rfl
  simp only [FileStep, FileState.exec, FileLayer.exec, vfsRead, vfsAccess, motd_files hcur hlive,
    ok_bind, hlookup, hopen, FileState.note, hcur', Option.getD_some]
  rfl

theorem motd_write {k : Kernel} (hcur : k.currentps = some 1) (hlive : k.processes 1 ≠ none) :
    FileStep (motdOpened k) (.write 0 [0x68] 1) (motdAccessed k (-1)) := by
  have hcur' : (motdOpened k).layer.kernel.currentps = some 1 := hcur
  have hlookup : (OpenFiles.fresh.add 0).lookup 0 = some 0 := by decide
  have hopen : (motdOpened k).layer.fileOpenAt 0 = .ok ⟨(), readOnlyDriver, 0, 0, 0, by decide⟩ := rfl
  simp only [FileStep, FileState.exec, FileLayer.exec, vfsWrite, vfsAccess, motd_files hcur hlive,
    ok_bind, hlookup, hopen, FileState.note, hcur', Option.getD_some]
  rfl

/-- One byte has been read. -/
theorem offsets_exact_read : ∃ st : FileState Unit Unit,
    (∃ d, st.opened 1 0 = some d ∧ d.gained = 1) ∧ OffsetsExact st := by
  obtain ⟨k, hreach, hcur, hlive, -⟩ := motd_process
  have hboot : Reach FileStep (fun st c => c.AccessGains st) FileStart
      ⟨motdLayer k, fun _ _ => none⟩ := reach_motdLayer (fun _ _ => trivial) hreach
  have hopened := hboot.next (show FileCall.AccessGains _ (.openFile _ _) from trivial)
    (motd_open hcur hlive)
  have hgains : FileCall.AccessGains (motdOpened k) (.read 0 [] 8) := by
    intro pid hpid a ha o ho
    obtain rfl : 1 = pid := Option.some.inj (hcur.symm.trans hpid)
    have hlookup : ((motdOpened k).layer.table 1).lookup 0 = some 0 := by rfl
    obtain rfl : 0 = a := Option.some.inj (hlookup.symm.trans ha)
    obtain rfl : ⟨(), readOnlyDriver, 0, 0, 0, by decide⟩ = o := Option.some.inj ho
    have hread : (⟨(), readOnlyDriver, 0, 0, 0, by decide⟩ : VfsFileOpen Unit Unit).access () false [] 8 =
        (1, [], ()) := rfl
    rw [show (motdOpened k).layer.dev = () from rfl, hread]
    exact ⟨by decide, by decide⟩
  exact ⟨motdAccessed k 1, ⟨_, rfl, rfl⟩,
    offsets_exact (hopened.next hgains (motd_read hcur hlive))⟩

/-- A write to the file is rejected, and the offset wraps around. -/
theorem offsets_wrap : ∃ st : FileState Unit Unit,
    Reach FileStep (fun _ _ => True) FileStart st ∧ ¬OffsetsExact st := by
  obtain ⟨k, hreach, hcur, hlive, -⟩ := motd_process
  have hboot : Reach FileStep (fun _ _ => True) FileStart ⟨motdLayer k, fun _ _ => none⟩ :=
    reach_motdLayer (fun _ _ => trivial) hreach
  have hopened := hboot.next trivial (motd_open hcur hlive)
  refine ⟨motdAccessed k (-1), hopened.next trivial (motd_write hcur hlive), fun hexact => ?_⟩
  obtain ⟨o, -, ho, hloc⟩ := hexact 1 0 _ rfl
  obtain rfl : ⟨(), readOnlyDriver, 0xFFFFFFFF, 0, 0, by decide⟩ = o := Option.some.inj ho
  cases hloc

end GalaxyOS
