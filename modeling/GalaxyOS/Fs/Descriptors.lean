import GalaxyOS.Lib.Count
import GalaxyOS.Fs.OpenFiles

/-! # What a descriptor stands for

Each descriptor that `vfs_open` has returned and that has not been closed has a
`struct vfs_file_open` of its own, and a call on any other descriptor returns `-EBADF` and changes
nothing (`FilesInv`).  Two things go wrong.

A process is reaped without closing its descriptors, so a file stays open for ever when a process
that has opened it ends; `descriptors_exact` is about the runs in which every process that is
removed has closed its descriptors.

The offset of an open file is moved by whatever the driver returns, an error included;
`offsets_exact` is about the runs in which no access to an open file fails.

Both are about runs: `FilesInv.step` keeps the descriptors apart in every run, with `FilesInv.accesses`
for a read or write and `FilesInv.kernel` for a call of the kernel, and `FileLayer.CountsOpen.step` keeps
the counters where the removals are of processes without descriptors. -/

namespace GalaxyOS

open Transition Count

variable {ι δ : Type}

/-! ### Entries of the table -/

theorem OpenFiles.lookup_some {t : OpenFiles} {fd : Int} {a : ℕ} :
    t.lookup fd = some a ↔ 0 ≤ fd ∧ t.openfiles[fd.toNat]? = some (some a) := by
  unfold lookup vfsFdIsOpen openfilesLoc
  by_cases h : 0 ≤ fd ∧ fd < t.openfiles.length
  · have hlt : fd.toNat < t.openfiles.length := by omega
    simp [h, List.getD_eq_getElem?_getD]
  · rw [if_neg (by simpa using h)]
    constructor
    · intro h
      cases h
    · rintro ⟨h0, hget⟩
      have := (List.getElem?_eq_some_iff.mp hget).1
      exact absurd ⟨h0, by omega⟩ h

theorem OpenFiles.fresh_lookup (fd : Int) : OpenFiles.fresh.lookup fd = none := by
  by_contra h
  obtain ⟨a, ha⟩ := Option.ne_none_iff_exists'.mp h
  obtain ⟨-, hget⟩ := lookup_some.mp ha
  simp [fresh] at hget

theorem OpenFiles.add_lookup (t : OpenFiles) (a : ℕ) (fd : Int) :
    (t.add a).lookup fd = if fd = t.openfilesLoc then some a else t.lookup fd := by
  ext x
  rw [lookup_some, add]
  by_cases hfd : fd = t.openfilesLoc
  · subst hfd
    rw [if_pos rfl]
    simp [openfilesLoc]
  · rw [if_neg hfd, lookup_some]
    refine and_congr_right fun h0 => ?_
    have hne : fd.toNat ≠ t.openfiles.length := by
      unfold openfilesLoc at hfd
      omega
    rcases Nat.lt_or_ge fd.toNat t.openfiles.length with hlt | hge
    · rw [List.getElem?_append_left hlt]
    · rw [List.getElem?_eq_none (by simp; omega), List.getElem?_eq_none hge]

/-- The table with a descriptor closed. -/
def OpenFiles.close (t : OpenFiles) (fd : Int) : OpenFiles :=
  { t with openfiles := t.openfiles.set fd.toNat none }

theorem OpenFiles.close_lookup (t : OpenFiles) {fd : Int} (h : 0 ≤ fd) (i : Int) :
    (t.close fd).lookup i = if i = fd then none else t.lookup i := by
  ext x
  rw [lookup_some, close, List.getElem?_set]
  by_cases hi : i = fd
  · subst hi
    rw [if_pos rfl, if_pos rfl]
    simp
  · rw [if_neg hi, lookup_some]
    refine and_congr_right fun h0 => ?_
    rw [if_neg (by omega)]

/-! ### Outcomes of the calls -/

namespace FileLayer

variable {s s' : FileLayer ι δ} {r : Int}

theorem currentFiles_ok {pid : Int} {t : OpenFiles} : s.currentFiles = .ok (pid, t) ↔
    s.kernel.currentps = some pid ∧ s.kernel.processes pid ≠ none ∧ t = s.table pid := by
  unfold currentFiles
  cases hcur : s.kernel.currentps with
  | none => simp
  | some i =>
      cases hp : s.kernel.processes i with
      | none =>
          simp only [hp, Option.some.injEq]
          constructor
          · intro h
            cases h
          · rintro ⟨rfl, hne, -⟩
            exact absurd hp hne
      | some p =>
          simp only [hp, Except.ok.injEq, Prod.mk.injEq, Option.some.injEq]
          constructor
          · rintro ⟨rfl, rfl⟩
            exact ⟨rfl, by rw [hp]; simp, rfl⟩
          · rintro ⟨rfl, -, rfl⟩
            exact ⟨rfl, rfl⟩

theorem fileOpenAt_ok {a : ℕ} {o : VfsFileOpen ι δ} :
    s.fileOpenAt a = .ok o ↔ s.openAt a = some o := by
  unfold fileOpenAt
  cases s.openAt a <;> simp

/-- The state after an access to `o` at `a` that returned `r`. -/
def accessed (s : FileLayer ι δ) (a : ℕ) (o : VfsFileOpen ι δ) (r : Int) (dev : δ) :
    FileLayer ι δ :=
  { s with
    dev := dev
    openAt := Function.update s.openAt a (some (o.move r)) }

theorem vfsAccess_cases {write : Bool} {fd : Int} {buf buf' : List UInt8} {count : ℕ}
    (h : vfsAccess s write fd buf count = .ok (r, buf', s')) :
    ∃ pid, s.kernel.currentps = some pid ∧ s.kernel.processes pid ≠ none ∧
      ((s.table pid).lookup fd = none ∧ r = -EBADF ∧ s' = s ∨
        ∃ a o dev, (s.table pid).lookup fd = some a ∧ s.openAt a = some o ∧
          o.access s.dev write buf count = (r, buf', dev) ∧ s' = s.accessed a o r dev) := by
  simp only [vfsAccess, bind_ok, Prod.exists, currentFiles_ok] at h
  obtain ⟨pid, t, ⟨hcur, hlive, rfl⟩, h⟩ := h
  refine ⟨pid, hcur, hlive, ?_⟩
  cases ha : (s.table pid).lookup fd with
  | none =>
      simp only [ha, Except.ok.injEq, Prod.mk.injEq] at h
      exact .inl ⟨rfl, h.1.symm, h.2.2.symm⟩
  | some a =>
      simp only [ha, bind_ok, fileOpenAt_ok, Except.ok.injEq, Prod.mk.injEq] at h
      obtain ⟨o, ho, hr, hb, rfl⟩ := h
      refine .inr ⟨a, o, (o.access s.dev write buf count).2.2, rfl, ho, ?_, ?_⟩
      · rw [← hr, ← hb]
      · rw [← hr]
        rfl

variable [DecidableEq ι]

/-- The state after `vfs_open` has opened the file `f` for the process `pid`. -/
def opened (s : FileLayer ι δ) (pid : Int) (f : ι) (flags : ℕ) : FileLayer ι δ :=
  { s with
    info := Function.update s.info f { s.info f with opens := (s.info f).opens + 1 }
    openAt := Function.update s.openAt s.nextOpen
      (some ((s.info f).openFile f flags (s.table pid).openfilesLoc))
    nextOpen := s.nextOpen + 1
    table := Function.update s.table pid ((s.table pid).add s.nextOpen) }

/-- The state after the process `pid` has closed `fd`, which refers to `o` at `a`. -/
def closed (s : FileLayer ι δ) (pid fd : Int) (a : ℕ) (o : VfsFileOpen ι δ) : FileLayer ι δ :=
  { s with
    info := Function.update s.info o.file
      { s.info o.file with opens := (s.info o.file).opens - 1 }
    openAt := Function.update s.openAt a none
    table := Function.update s.table pid ((s.table pid).close fd) }

theorem vfsOpen_cases {path : List Char} {flags : ℕ} (h : vfsOpen s path flags = .ok (r, s')) :
    s' = s ∧ r = -ENOENT ∨ ∃ pid f, s.kernel.currentps = some pid ∧
      s.kernel.processes pid ≠ none ∧ vfsFindFile s.vfs path = some f ∧
      r = (s.table pid).openfilesLoc ∧ s' = s.opened pid f flags := by
  have herr : Except.ok (-ENOENT, s) = (.ok (r, s') : Except Fault _) → s' = s ∧ r = -ENOENT := by
    intro h
    obtain ⟨h1, h2⟩ := Prod.mk.inj (Except.ok.inj h)
    exact ⟨h2.symm, h1.symm⟩
  unfold vfsOpen at h
  split at h
  · exact .inl (herr h)
  · split at h
    · exact .inl (herr h)
    · split at h
      · exact .inl (herr h)
      · rename_i f hf
        simp only [addOpen, bind_ok, Prod.exists, currentFiles_ok, Except.ok.injEq,
          Prod.mk.injEq] at h
        obtain ⟨pid, t, ⟨hcur, hlive, rfl⟩, hr, rfl⟩ := h
        exact .inr ⟨pid, f, hcur, hlive, hf, hr.symm, rfl⟩

theorem vfsClose_cases {fd : Int} (h : vfsClose s fd = .ok (r, s')) :
    ∃ pid, s.kernel.currentps = some pid ∧ s.kernel.processes pid ≠ none ∧
      ((s.table pid).lookup fd = none ∧ r = -EBADF ∧ s' = s ∨
        ∃ a o, (s.table pid).lookup fd = some a ∧ s.openAt a = some o ∧ r = 0 ∧
          s' = s.closed pid fd a o) := by
  simp only [vfsClose, bind_ok, Prod.exists, currentFiles_ok] at h
  obtain ⟨pid, t, ⟨hcur, hlive, rfl⟩, h⟩ := h
  refine ⟨pid, hcur, hlive, ?_⟩
  cases ha : (s.table pid).lookup fd with
  | none =>
      simp only [ha, Except.ok.injEq, Prod.mk.injEq] at h
      exact .inl ⟨rfl, h.1.symm, h.2.symm⟩
  | some a =>
      simp only [ha, bind_ok, fileOpenAt_ok, Except.ok.injEq, Prod.mk.injEq] at h
      obtain ⟨o, ho, hr, rfl⟩ := h
      exact .inr ⟨a, o, rfl, ho, hr.symm, rfl⟩

end FileLayer

/-! ### The invariant -/

theorem setOpened_apply (opened : Int → Int → Option (Descriptor ι)) (pid fd : Int)
    (d : Option (Descriptor ι)) (i j : Int) :
    setOpened opened pid fd d i j = if i = pid ∧ j = fd then d else opened i j := by
  unfold setOpened
  by_cases hi : i = pid
  · subst hi
    rw [Function.update_self]
    by_cases hj : j = fd
    · subst hj
      simp
    · simp [hj]
  · simp [hi]

/-- The descriptors that are open are those recorded, and no two of them share an open file. -/
structure FilesInv (s : FileLayer ι δ) (opened : Int → Int → Option (Descriptor ι)) : Prop where
  tables : Tables s.kernel
  lookup : ∀ pid, s.kernel.processes pid ≠ none → ∀ fd,
    (s.table pid).lookup fd = (opened pid fd).map Descriptor.addr
  gone : ∀ pid fd, s.kernel.processes pid = none → opened pid fd = none
  refers : ∀ pid fd d, opened pid fd = some d → d.addr < s.nextOpen ∧
    ∃ o, s.openAt d.addr = some o ∧ o.file = d.file ∧ o.loc = regOfInt (d.start + d.moved)
  own : ∀ pid fd d pid' fd' d', opened pid fd = some d → opened pid' fd' = some d' →
    d.addr = d'.addr → pid = pid' ∧ fd = fd'

section FilesInv

variable {s : FileLayer ι δ} {opened : Int → Int → Option (Descriptor ι)}

theorem FilesInv.live (h : FilesInv s opened) {pid fd : Int} {d : Descriptor ι}
    (hd : opened pid fd = some d) : s.kernel.processes pid ≠ none := by
  intro hnone
  rw [h.gone pid fd hnone] at hd
  cases hd

/-- The descriptor behind an entry of the table. -/
theorem FilesInv.descriptor (h : FilesInv s opened) {pid fd : Int} {a : ℕ}
    (hlive : s.kernel.processes pid ≠ none) (ha : (s.table pid).lookup fd = some a) :
    ∃ d, opened pid fd = some d ∧ d.addr = a := by
  rw [h.lookup pid hlive fd] at ha
  exact Option.map_eq_some_iff.mp ha

/-- An entry of the table of a process that exists is a descriptor. -/
theorem FilesInv.entry (h : FilesInv s opened) {pid : Int} (hlive : s.kernel.processes pid ≠ none)
    {a : ℕ} (ha : some a ∈ (s.table pid).openfiles) : ∃ fd d, opened pid fd = some d ∧ d.addr = a := by
  obtain ⟨i, hi⟩ := List.getElem?_of_mem ha
  have hlookup : (s.table pid).lookup i = some a :=
    OpenFiles.lookup_some.mpr ⟨Int.natCast_nonneg i, by simpa using hi⟩
  obtain ⟨d, hd, haddr⟩ := h.descriptor hlive hlookup
  exact ⟨i, d, hd, haddr⟩

theorem regOfInt_of_lt {n : ℕ} (h : n < 0x100000000) : regOfInt n = n := by
  unfold regOfInt
  omega

theorem FilesInv.opens [DecidableEq ι] (h : FilesInv s opened) {pid : Int} {f : ι} {flags : ℕ}
    (hlive : s.kernel.processes pid ≠ none) :
    FilesInv (s.opened pid f flags) (setOpened opened pid (s.table pid).openfilesLoc
      (some ⟨s.nextOpen, f, openLoc flags (s.info f).size, 0, 0⟩)) := by
  refine ⟨h.tables, fun i hi fd => ?_, fun i fd hi => ?_, fun i fd d hd => ?_, ?_⟩
  · rw [setOpened_apply]
    by_cases hpid : i = pid
    · subst hpid
      simp only [FileLayer.opened, Function.update_self, OpenFiles.add_lookup, true_and]
      split_ifs
      · rfl
      · exact h.lookup i hi fd
    · simp only [FileLayer.opened, Function.update_of_ne hpid, hpid, false_and, if_false]
      exact h.lookup i hi fd
  · have hne : i ≠ pid := by
      rintro rfl
      exact hlive hi
    rw [setOpened_apply, if_neg fun h => hne h.1]
    exact h.gone i fd hi
  · rw [setOpened_apply] at hd
    split_ifs at hd with heq
    · obtain rfl := Option.some.inj hd
      refine ⟨Nat.lt_succ_self _, _, Function.update_self .., rfl, ?_⟩
      simp only [Int.add_zero, VfsFileInfo.openFile_loc]
      rw [regOfInt_of_lt (openLoc_lt flags (s.info f).size_lt)]
    · obtain ⟨hlt, o, ho, hrest⟩ := h.refers i fd d hd
      refine ⟨Nat.lt_succ_of_lt hlt, o, ?_, hrest⟩
      simp only [FileLayer.opened, Function.update_of_ne (Nat.ne_of_lt hlt)]
      exact ho
  · intro i fd d i' fd' d' hd hd' haddr
    rw [setOpened_apply] at hd hd'
    split_ifs at hd hd' with h1 h2 h2
    · exact ⟨h1.1.trans h2.1.symm, h1.2.trans h2.2.symm⟩
    · obtain rfl := Option.some.inj hd
      have hlt := (h.refers i' fd' d' hd').1
      simp only at haddr
      omega
    · obtain rfl := Option.some.inj hd'
      have hlt := (h.refers i fd d hd).1
      simp only at haddr
      omega
    · exact h.own i fd d i' fd' d' hd hd' haddr

theorem FilesInv.closes [DecidableEq ι] (h : FilesInv s opened) {pid fd : Int} {a : ℕ}
    {o : VfsFileOpen ι δ} (hlive : s.kernel.processes pid ≠ none)
    (ha : (s.table pid).lookup fd = some a) :
    FilesInv (s.closed pid fd a o) (setOpened opened pid fd none) := by
  obtain ⟨d₀, hd₀, haddr₀⟩ := h.descriptor hlive ha
  have h0 : 0 ≤ fd := (OpenFiles.lookup_some.mp ha).1
  refine ⟨h.tables, fun i hi j => ?_, fun i j hi => ?_, fun i j d hd => ?_, ?_⟩
  · rw [setOpened_apply]
    by_cases hpid : i = pid
    · subst hpid
      simp only [FileLayer.closed, Function.update_self, OpenFiles.close_lookup _ h0, true_and]
      split_ifs
      · rfl
      · exact h.lookup i hi j
    · simp only [FileLayer.closed, Function.update_of_ne hpid, hpid, false_and, if_false]
      exact h.lookup i hi j
  · rw [setOpened_apply, h.gone i j hi, ite_self]
  · rw [setOpened_apply] at hd
    split_ifs at hd with heq
    obtain ⟨hlt, o', ho', hrest⟩ := h.refers i j d hd
    have hne : d.addr ≠ a := by
      intro hda
      exact heq (h.own i j d pid fd d₀ hd hd₀ (hda.trans haddr₀.symm))
    refine ⟨hlt, o', ?_, hrest⟩
    simp only [FileLayer.closed, Function.update_of_ne hne]
    exact ho'
  · intro i j d i' j' d' hd hd' haddr
    rw [setOpened_apply] at hd hd'
    split_ifs at hd hd'
    exact h.own i j d i' j' d' hd hd' haddr

theorem regOfInt_add (n r : Int) : regOfInt (regOfInt n + r) = regOfInt (n + r) := by
  unfold regOfInt
  omega

/-- An access moves the offset of its own descriptor only. -/
theorem FilesInv.accesses (h : FilesInv s opened) {pid fd : Int} {a : ℕ} {o : VfsFileOpen ι δ}
    (r : Int) (dev : δ) (hlive : s.kernel.processes pid ≠ none)
    (ha : (s.table pid).lookup fd = some a) (ho : s.openAt a = some o) :
    FilesInv (s.accessed a o r dev)
      (setOpened opened pid fd ((opened pid fd).map fun d => d.accessed r)) := by
  obtain ⟨d₀, hd₀, haddr₀⟩ := h.descriptor hlive ha
  have hkeep : ∀ i j d, setOpened opened pid fd ((opened pid fd).map fun d => d.accessed r) i j =
      some d → ∃ d', opened i j = some d' ∧ d'.addr = d.addr ∧
        (d.addr = a → d = d'.accessed r) ∧ (d.addr ≠ a → d = d') := by
    intro i j d hd
    rw [setOpened_apply] at hd
    split_ifs at hd with heq
    · obtain ⟨rfl, rfl⟩ := heq
      rw [hd₀, Option.map_some] at hd
      obtain rfl := Option.some.inj hd
      exact ⟨d₀, hd₀, rfl, fun _ => rfl, fun hne => absurd haddr₀ hne⟩
    · refine ⟨d, hd, rfl, fun hda => ?_, fun _ => rfl⟩
      exact absurd (h.own i j d pid fd d₀ hd hd₀ (hda.trans haddr₀.symm)) heq
  refine ⟨h.tables, fun i hi j => ?_, fun i j hi => ?_, fun i j d hd => ?_, ?_⟩
  · rw [setOpened_apply]
    split_ifs with heq
    · obtain ⟨rfl, rfl⟩ := heq
      rw [Option.map_map]
      exact h.lookup i hi j
    · exact h.lookup i hi j
  · have hne : i ≠ pid := by
      rintro rfl
      exact hlive hi
    rw [setOpened_apply, if_neg fun h => hne h.1]
    exact h.gone i j hi
  · obtain ⟨d', hd', haddr, hsame, hother⟩ := hkeep i j d hd
    obtain ⟨hlt, o', ho', hfile, hloc⟩ := h.refers i j d' hd'
    rw [haddr] at hlt ho'
    refine ⟨hlt, ?_⟩
    by_cases hda : d.addr = a
    · obtain rfl : o = o' := by
        rw [hda, ho] at ho'
        exact Option.some.inj ho'
      refine ⟨o.move r, ?_, ?_, ?_⟩
      · simp [FileLayer.accessed, hda]
      · rw [hsame hda]
        exact hfile
      · rw [hsame hda]
        simp only [Descriptor.accessed, VfsFileOpen.move_loc, hloc]
        rw [regOfInt_add, Int.add_assoc]
    · rw [hother hda]
      refine ⟨o', ?_, hfile, hloc⟩
      rw [← hother hda]
      simp only [FileLayer.accessed, Function.update_of_ne hda]
      exact ho'
  · intro i j d i' j' d' hd hd' haddr
    obtain ⟨e, he, hea, -⟩ := hkeep i j d hd
    obtain ⟨e', he', hea', -⟩ := hkeep i' j' d' hd'
    exact h.own i j e i' j' e' he he' (hea.trans (haddr.trans hea'.symm))

/-- A call of the kernel forgets the descriptors of the processes that it removes. -/
theorem FilesInv.kernel (h : FilesInv s opened) {c : Call} {r : Int} {k : Kernel}
    (hexec : exec s.kernel c = .ok (r, k)) :
    FilesInv { s with kernel := k, table := newTables s.kernel k s.table }
      (fun pid fd => if k.processes pid = none then none else opened pid fd) := by
  have hcensus := exec_census h.tables (Call.freesOnly_true s.kernel c) hexec
  have htables := h.tables.exec hexec
  have hsome : ∀ pid fd d, (if k.processes pid = none then none else opened pid fd) = some d →
      opened pid fd = some d := by
    intro pid fd d hd
    split_ifs at hd
    exact hd
  refine ⟨htables, fun pid hlive fd => ?_, fun pid fd hnone => if_pos hnone, ?_, ?_⟩
  · simp only [if_neg hlive, newTables]
    split_ifs with hnew
    · have hnone : s.kernel.processes pid = none := by
        by_contra hne
        obtain ⟨p, hp⟩ := Option.ne_none_iff_exists'.mp hne
        have := (h.tables.pid pid p hp).2.2
        omega
      rw [OpenFiles.fresh_lookup, h.gone pid fd hnone, Option.map_none]
    · refine h.lookup pid ?_ fd
      obtain ⟨p, hp⟩ := Option.ne_none_iff_exists'.mp hlive
      have hrange := (htables.pid pid p hp).2
      exact hcensus.kept pid (by omega) hlive
  · exact fun pid fd d hd => h.refers pid fd d (hsome pid fd d hd)
  · exact fun pid fd d pid' fd' d' hd hd' =>
      h.own pid fd d pid' fd' d' (hsome pid fd d hd) (hsome pid' fd' d' hd')

theorem FilesInv.step [DecidableEq ι] {st st' : FileState ι δ} {c : FileCall}
    (h : FilesInv st.layer st.opened) (hstep : FileStep st c st') :
    FilesInv st'.layer st'.opened := by
  obtain ⟨r, s', hexec, rfl⟩ := hstep.exists_exec
  have haccess : ∀ write fd buf buf' count, vfsAccess st.layer write fd buf count =
      .ok (r, buf', s') → FilesInv s' (setOpened st.opened (st.layer.kernel.currentps.getD (-1)) fd
        ((st.opened (st.layer.kernel.currentps.getD (-1)) fd).map fun d => d.accessed r)) := by
    intro write fd buf buf' count hacc
    obtain ⟨pid, hcur, hlive, hcase⟩ := FileLayer.vfsAccess_cases hacc
    rw [hcur, Option.getD_some]
    rcases hcase with ⟨hnone, -, rfl⟩ | ⟨a, o, dev, ha, ho, -, rfl⟩
    · have hno : st.opened pid fd = none := by
        rw [h.lookup pid hlive fd] at hnone
        exact Option.map_eq_none_iff.mp hnone
      have hself : setOpened st.opened pid fd none = st.opened := by
        funext i j
        rw [setOpened_apply]
        split_ifs with heq
        · rw [heq.1, heq.2, hno]
        · rfl
      rw [hno, Option.map_none, hself]
      exact h
    · exact h.accesses r dev hlive ha ho
  cases c with
  | openFile path flags =>
      rcases FileLayer.vfsOpen_cases hexec with ⟨rfl, rfl⟩ | ⟨pid, f, hcur, hlive, hf, rfl, rfl⟩
      · simp only [FileState.note]
        split
        · exact h
        · exact h
      · simp only [FileState.note, hf, hcur, Option.getD_some]
        rw [if_neg (by omega)]
        exact h.opens hlive
  | close fd =>
      obtain ⟨pid, hcur, hlive, hcase⟩ := FileLayer.vfsClose_cases hexec
      simp only [FileState.note, hcur, Option.getD_some]
      rcases hcase with ⟨-, rfl, rfl⟩ | ⟨a, o, ha, ho, rfl, rfl⟩
      · exact h
      · exact h.closes hlive ha
  | read fd buf count =>
      simp only [FileLayer.exec, bind_ok, Prod.exists, Except.ok.injEq, Prod.mk.injEq] at hexec
      obtain ⟨r, buf', s', hacc, rfl, rfl⟩ := hexec
      exact haccess false fd buf buf' count hacc
  | write fd buf count =>
      simp only [FileLayer.exec, bind_ok, Prod.exists, Except.ok.injEq, Prod.mk.injEq] at hexec
      obtain ⟨r, buf', s', hacc, rfl, rfl⟩ := hexec
      exact haccess true fd buf buf' count hacc
  | fstat fd =>
      simp only [FileLayer.exec, bind_ok, Prod.exists, Except.ok.injEq, Prod.mk.injEq] at hexec
      obtain ⟨r, stat, -, rfl, rfl⟩ := hexec
      exact h
  | size fd =>
      simp only [FileLayer.exec, bind_ok, Except.ok.injEq, Prod.mk.injEq] at hexec
      obtain ⟨r, -, rfl, rfl⟩ := hexec
      exact h
  | kernel c =>
      simp only [FileLayer.exec, bind_ok, Prod.exists, Except.ok.injEq, Prod.mk.injEq] at hexec
      obtain ⟨r, k, hk, rfl, rfl⟩ := hexec
      exact h.kernel hk

theorem FilesInv.start {st : FileState ι δ} (h : FileStart st) :
    FilesInv st.layer st.opened := by
  refine ⟨.started h.kernel, fun pid _ fd => ?_, fun pid fd _ => ?_, ?_, ?_⟩
  · rw [h.table pid, OpenFiles.fresh_lookup, h.opened, Option.map_none]
  · rw [h.opened]
  · intro pid fd d hd
    rw [h.opened] at hd
    cases hd
  · intro pid fd d pid' fd' d' hd
    rw [h.opened] at hd
    cases hd

end FilesInv

/-! ### Descriptors that are not open -/

/-- The descriptor that a call is about. -/
def FileCall.descriptor : FileCall → Option Int
  | .close fd | .read fd _ _ | .write fd _ _ | .fstat fd | .size fd => some fd
  | .openFile _ _ | .kernel _ => none

theorem FileLayer.exec_closed [DecidableEq ι] {s : FileLayer ι δ} {pid fd : Int} {c : FileCall}
    (hcur : s.kernel.currentps = some pid) (hlive : s.kernel.processes pid ≠ none)
    (hno : (s.table pid).lookup fd = none) (hc : c.descriptor = some fd) :
    s.exec c = .ok (-EBADF, s) := by
  have hfiles : s.currentFiles = .ok (pid, s.table pid) :=
    FileLayer.currentFiles_ok.mpr ⟨hcur, hlive, rfl⟩
  cases c with
  | openFile path flags => cases hc
  | kernel c => cases hc
  | close fd' =>
      obtain rfl := Option.some.inj hc
      simp only [FileLayer.exec, vfsClose, hfiles, ok_bind, hno]
  | read fd' buf count =>
      obtain rfl := Option.some.inj hc
      simp only [FileLayer.exec, vfsRead, vfsAccess, hfiles, ok_bind, hno]
  | write fd' buf count =>
      obtain rfl := Option.some.inj hc
      simp only [FileLayer.exec, vfsWrite, vfsAccess, hfiles, ok_bind, hno]
  | fstat fd' =>
      obtain rfl := Option.some.inj hc
      simp only [FileLayer.exec, vfsFstat, hfiles, ok_bind, hno]
  | size fd' =>
      obtain rfl := Option.some.inj hc
      simp only [FileLayer.exec, vfsSize, hfiles, ok_bind, hno]

/-! ### Counting the descriptors of a file -/

section Counter

variable [DecidableEq ι]

/-- The descriptors of a table that are open on the file `f`. -/
def FileLayer.countOn (s : FileLayer ι δ) (f : ι) (t : OpenFiles) : ℕ :=
  t.openfiles.countP fun slot => decide ((slot.bind s.openAt).map VfsFileOpen.file = some f)

/-- The descriptors open on the file `f` in processes that exist. -/
def FileLayer.openCount (s : FileLayer ι δ) (f : ι) : ℕ :=
  total (fun pid => if s.kernel.processes pid = none then 0 else s.countOn f (s.table pid))
    s.kernel.lastPid

/-- Every descriptor refers to the open file it was opened with, which no other descriptor shares;
calls on other descriptors fail and change nothing; and every file counts its descriptors. -/
structure DescriptorsExact (st : FileState ι δ) : Prop where
  refers : ∀ pid fd d, st.opened pid fd = some d → (st.layer.table pid).lookup fd = some d.addr ∧
    ∃ o, st.layer.openAt d.addr = some o ∧ o.file = d.file ∧ o.loc = regOfInt (d.start + d.moved)
  own : ∀ pid fd d pid' fd' d', st.opened pid fd = some d → st.opened pid' fd' = some d' →
    d.addr = d'.addr → pid = pid' ∧ fd = fd'
  closed : ∀ pid, st.layer.kernel.currentps = some pid → st.layer.kernel.processes pid ≠ none →
    ∀ fd, st.opened pid fd = none → ∀ c : FileCall, c.descriptor = some fd →
      st.layer.exec c = .ok (-EBADF, st.layer)
  counter : ∀ f, (st.layer.info f).opens = st.layer.openCount f

/-- No descriptor of the table is open. -/
def OpenFiles.AllClosed (t : OpenFiles) : Prop := ∀ slot ∈ t.openfiles, slot = none

/-- Every process that the call removes has closed its descriptors. -/
def FileCall.FreesClosed (st : FileState ι δ) : FileCall → Prop
  | .kernel c => c.FreesOnly (fun pid => (st.layer.table pid).AllClosed) st.layer.kernel
  | _ => True

variable {s s' : FileLayer ι δ} {opened : Int → Int → Option (Descriptor ι)}

/-- Tables whose entries refer to the same files. -/
theorem FileLayer.countOn_congr {t : OpenFiles} (f : ι)
    (h : ∀ a, some a ∈ t.openfiles →
      (s'.openAt a).map VfsFileOpen.file = (s.openAt a).map VfsFileOpen.file) :
    s'.countOn f t = s.countOn f t := by
  refine List.countP_congr fun slot hslot => ?_
  cases slot with
  | none => exact Iff.rfl
  | some a =>
      have ha := h a hslot
      simp only [Option.bind_some, ha]

theorem FileLayer.countOn_closed (f : ι) {t : OpenFiles} (h : t.AllClosed) : s.countOn f t = 0 := by
  refine List.countP_eq_zero.mpr fun slot hslot => ?_
  rw [h slot hslot]
  simp

theorem FileLayer.countOn_add (f : ι) (t : OpenFiles) (a : ℕ) : s.countOn f (t.add a) =
    s.countOn f t + if (s.openAt a).map VfsFileOpen.file = some f then 1 else 0 := by
  simp [countOn, OpenFiles.add, List.countP_append, List.countP_cons]

theorem FileLayer.countOn_close (f : ι) {t : OpenFiles} {fd : Int} {a : ℕ}
    (ha : t.lookup fd = some a) : s.countOn f (t.close fd) +
      (if (s.openAt a).map VfsFileOpen.file = some f then 1 else 0) = s.countOn f t := by
  obtain ⟨-, hget⟩ := OpenFiles.lookup_some.mp ha
  obtain ⟨hlt, hslot⟩ := List.getElem?_eq_some_iff.mp hget
  have hpos : (if (s.openAt a).map VfsFileOpen.file = some f then 1 else 0) ≤
      s.countOn f t := by
    split_ifs with hf
    · refine List.countP_pos_iff.mpr ⟨some a, hslot ▸ List.getElem_mem hlt, ?_⟩
      simpa using hf
    · exact Nat.zero_le _
  unfold countOn OpenFiles.close at *
  rw [List.countP_set hlt, hslot]
  simp only [Option.bind_some, Option.bind_none, Option.map_none, decide_eq_true_eq] at hpos ⊢
  simp only [reduceCtorEq, if_false, Nat.add_zero]
  omega

/-- Every file counts the descriptors that are open on it. -/
def FileLayer.CountsOpen (s : FileLayer ι δ) : Prop := ∀ f, (s.info f).opens = s.openCount f

/-- The table of one process changes. -/
theorem FileLayer.openCount_update {pid : Int} {f : ι} (hinv : FilesInv s opened)
    (hlive : s.kernel.processes pid ≠ none) (hkernel : s'.kernel = s.kernel)
    (hrest : ∀ i, i ≠ pid → s.kernel.processes i ≠ none →
      s'.countOn f (s'.table i) = s.countOn f (s.table i)) :
    s'.openCount f + s.countOn f (s.table pid) = s.openCount f + s'.countOn f (s'.table pid) := by
  obtain ⟨p, hp⟩ := Option.ne_none_iff_exists'.mp hlive
  have htotal := total_update (hinv.tables.pid pid p hp).2
    (a := fun i => if s.kernel.processes i = none then 0 else s.countOn f (s.table i))
    (b := fun i => if s.kernel.processes i = none then 0 else s'.countOn f (s'.table i))
    fun i hi => by
      split_ifs with hnone
      · rfl
      · exact hrest i hi hnone
  simp only [if_neg hlive] at htotal
  unfold openCount
  rw [hkernel]
  exact htotal

theorem FileLayer.CountsOpen.opens {pid : Int} {f : ι} {flags : ℕ} (h : s.CountsOpen)
    (hinv : FilesInv s opened) (hlive : s.kernel.processes pid ≠ none) :
    (s.opened pid f flags).CountsOpen := by
  intro g
  have hold : ∀ i, s.kernel.processes i ≠ none →
      (s.opened pid f flags).countOn g (s.table i) = s.countOn g (s.table i) := by
    refine fun i hi => countOn_congr g fun a ha => ?_
    obtain ⟨fd, d, hd, rfl⟩ := hinv.entry hi ha
    have hlt := (hinv.refers i fd d hd).1
    simp only [FileLayer.opened, Function.update_of_ne (Nat.ne_of_lt hlt)]
  have hcount : (s.opened pid f flags).openCount g + s.countOn g (s.table pid) = s.openCount g +
      (s.opened pid f flags).countOn g ((s.opened pid f flags).table pid) := by
    refine openCount_update hinv hlive rfl fun i hi hlive' => ?_
    rw [← hold i hlive']
    simp only [FileLayer.opened, Function.update_of_ne hi]
  have hself : (s.opened pid f flags).countOn g ((s.opened pid f flags).table pid) =
      s.countOn g (s.table pid) + if f = g then 1 else 0 := by
    rw [← hold pid hlive]
    simp [FileLayer.opened, countOn_add]
  have hinfo : ((s.opened pid f flags).info g).opens =
      (s.info g).opens + if f = g then 1 else 0 := by
    by_cases hfg : f = g
    · subst hfg
      simp [FileLayer.opened]
    · simp [FileLayer.opened, hfg, Function.update_of_ne (Ne.symm hfg)]
  have hg := h g
  rw [hinfo, hg]
  split_ifs at hself ⊢ <;> omega

theorem FileLayer.CountsOpen.closes {pid fd : Int} {a : ℕ} {o : VfsFileOpen ι δ}
    (h : s.CountsOpen) (hinv : FilesInv s opened) (hlive : s.kernel.processes pid ≠ none)
    (ha : (s.table pid).lookup fd = some a) (ho : s.openAt a = some o) :
    (s.closed pid fd a o).CountsOpen := by
  intro g
  obtain ⟨d, hd, haddr⟩ := hinv.descriptor hlive ha
  have h0 : 0 ≤ fd := (OpenFiles.lookup_some.mp ha).1
  -- no other entry refers to the open file that is freed
  have hold : ∀ i t, s.kernel.processes i ≠ none → (∀ b, some b ∈ t.openfiles → b ≠ a) →
      (s.closed pid fd a o).countOn g t = s.countOn g t := by
    refine fun i t hi hne => countOn_congr g fun b hb => ?_
    simp only [FileLayer.closed, Function.update_of_ne (hne b hb)]
  have hcount : (s.closed pid fd a o).openCount g + s.countOn g (s.table pid) = s.openCount g +
      (s.closed pid fd a o).countOn g ((s.closed pid fd a o).table pid) := by
    refine openCount_update hinv hlive rfl fun i hi hlive' => ?_
    simp only [FileLayer.closed, Function.update_of_ne hi]
    refine hold i (s.table i) hlive' fun b hb hba => ?_
    obtain ⟨fd', d', hd', haddr'⟩ := hinv.entry hlive' hb
    exact hi (hinv.own i fd' d' pid fd d hd' hd (by rw [haddr', haddr, hba])).1
  have hself : (s.closed pid fd a o).countOn g ((s.closed pid fd a o).table pid) +
      (if o.file = g then 1 else 0) = s.countOn g (s.table pid) := by
    have htable : (s.closed pid fd a o).table pid = (s.table pid).close fd := by
      simp [FileLayer.closed]
    have hrest : ∀ b, some b ∈ ((s.table pid).close fd).openfiles → b ≠ a := by
      rintro b hb rfl
      obtain ⟨i, hi⟩ := List.getElem?_of_mem hb
      have hlookup : ((s.table pid).close fd).lookup i = some b :=
        OpenFiles.lookup_some.mpr ⟨Int.natCast_nonneg i, by simpa using hi⟩
      rw [OpenFiles.close_lookup _ h0] at hlookup
      split_ifs at hlookup with heq
      obtain ⟨d', hd', haddr'⟩ := hinv.descriptor hlive hlookup
      exact heq (hinv.own pid i d' pid fd d hd' hd (haddr'.trans haddr.symm)).2
    rw [htable, hold pid _ hlive hrest, ← countOn_close g ha, ho]
    simp
  have hinfo : ((s.closed pid fd a o).info g).opens =
      (s.info g).opens - if o.file = g then 1 else 0 := by
    by_cases hfg : o.file = g
    · subst hfg
      simp [FileLayer.closed]
    · simp [FileLayer.closed, hfg, Function.update_of_ne (Ne.symm hfg)]
  have hg := h g
  rw [hinfo, hg]
  split_ifs at hself ⊢ <;> omega

theorem FileLayer.CountsOpen.accesses {a : ℕ} {o : VfsFileOpen ι δ} (h : s.CountsOpen)
    (r : Int) (dev : δ) (ho : s.openAt a = some o) : (s.accessed a o r dev).CountsOpen := by
  intro g
  have hold : ∀ t, (s.accessed a o r dev).countOn g t = s.countOn g t := by
    refine fun t => countOn_congr g fun b _ => ?_
    by_cases hb : b = a
    · subst hb
      simp [FileLayer.accessed, ho]
    · simp only [FileLayer.accessed, Function.update_of_ne hb]
  have hg := h g
  unfold openCount at hg ⊢
  simp only [hold]
  exact hg

theorem FileLayer.CountsOpen.kernel {c : Call} {r : Int} {k : Kernel} (h : s.CountsOpen)
    (hinv : FilesInv s opened) (hexec : GalaxyOS.exec s.kernel c = .ok (r, k))
    (hfree : c.FreesOnly (fun pid => (s.table pid).AllClosed) s.kernel) :
    { s with kernel := k, table := newTables s.kernel k s.table }.CountsOpen := by
  intro g
  have hcensus := exec_census hinv.tables hfree hexec
  have hgrow : openCount { s with kernel := k, table := newTables s.kernel k s.table } g =
      total (fun pid => if k.processes pid = none then 0 else
        s.countOn g (newTables s.kernel k s.table pid)) s.kernel.lastPid := by
    refine total_extend hcensus.lastPid fun pid hge hlt => ?_
    simp only [newTables, hge, hlt, and_self, if_true]
    exact ite_self 0
  have hold : s.openCount g = total (fun pid => if k.processes pid = none then 0 else
      s.countOn g (newTables s.kernel k s.table pid)) s.kernel.lastPid := by
    refine total_congr fun pid _ hlt => ?_
    have hnew : newTables s.kernel k s.table pid = s.table pid := if_neg fun h => by omega
    rw [hnew]
    by_cases hnone : s.kernel.processes pid = none
    · have hgone : k.processes pid = none := by
        by_contra hne
        exact hcensus.kept pid hlt hne hnone
      rw [if_pos hnone, if_pos hgone]
    · rw [if_neg hnone]
      split_ifs with hgone
      · exact countOn_closed g (hcensus.freed pid hnone hgone)
      · rfl
  rw [hgrow, ← hold]
  exact h g

theorem FileLayer.CountsOpen.step {st st' : FileState ι δ} {c : FileCall} (h : st.layer.CountsOpen)
    (hinv : FilesInv st.layer st.opened) (hfree : c.FreesClosed st) (hstep : FileStep st c st') :
    st'.layer.CountsOpen := by
  obtain ⟨r, s', hexec, rfl⟩ := hstep.exists_exec
  have haccess : ∀ write fd buf buf' count, vfsAccess st.layer write fd buf count =
      .ok (r, buf', s') → s'.CountsOpen := by
    intro write fd buf buf' count hacc
    obtain ⟨pid, -, -, ⟨-, -, rfl⟩ | ⟨a, o, dev, -, ho, -, rfl⟩⟩ := vfsAccess_cases hacc
    · exact h
    · exact h.accesses r dev ho
  cases c with
  | openFile path flags =>
      rcases vfsOpen_cases hexec with ⟨rfl, -⟩ | ⟨pid, f, -, hlive, -, -, rfl⟩
      · exact h
      · exact h.opens hinv hlive
  | close fd =>
      obtain ⟨pid, -, hlive, ⟨-, -, rfl⟩ | ⟨a, o, ha, ho, -, rfl⟩⟩ := vfsClose_cases hexec
      · exact h
      · exact h.closes hinv hlive ha ho
  | read fd buf count =>
      simp only [FileLayer.exec, bind_ok, Prod.exists, Except.ok.injEq, Prod.mk.injEq] at hexec
      obtain ⟨r, buf', s', hacc, rfl, rfl⟩ := hexec
      exact haccess false fd buf buf' count hacc
  | write fd buf count =>
      simp only [FileLayer.exec, bind_ok, Prod.exists, Except.ok.injEq, Prod.mk.injEq] at hexec
      obtain ⟨r, buf', s', hacc, rfl, rfl⟩ := hexec
      exact haccess true fd buf buf' count hacc
  | fstat fd =>
      simp only [FileLayer.exec, bind_ok, Prod.exists, Except.ok.injEq, Prod.mk.injEq] at hexec
      obtain ⟨r, stat, -, rfl, rfl⟩ := hexec
      exact h
  | size fd =>
      simp only [FileLayer.exec, bind_ok, Except.ok.injEq, Prod.mk.injEq] at hexec
      obtain ⟨r, -, rfl, rfl⟩ := hexec
      exact h
  | kernel c =>
      simp only [FileLayer.exec, bind_ok, Prod.exists, Except.ok.injEq, Prod.mk.injEq] at hexec
      obtain ⟨r, k, hk, rfl, rfl⟩ := hexec
      exact h.kernel hinv hk hfree

theorem FileLayer.CountsOpen.start {st : FileState ι δ} (h : FileStart st) :
    st.layer.CountsOpen := by
  intro f
  have hzero : st.layer.openCount f = 0 := by
    refine total_eq_zero fun pid _ _ => ?_
    rw [h.table pid]
    exact ite_self 0
  rw [h.opens f, hzero]
  rfl

end Counter

/-! ### The table of descriptors -/

section Exact

variable [DecidableEq ι]

theorem reach_filesInv {ok : FileState ι δ → FileCall → Prop} {st : FileState ι δ}
    (h : Reach FileStep ok FileStart st) : FilesInv st.layer st.opened :=
  h.invariant (I := fun st => FilesInv st.layer st.opened) (fun _ hs => .start hs)
    fun _ _ _ hinv _ hstep => hinv.step hstep

/-- In a run in which every process that is removed has closed its descriptors, the table of
descriptors is exact. -/
theorem descriptors_exact {st : FileState ι δ}
    (h : Reach FileStep (fun st c => c.FreesClosed st) FileStart st) : DescriptorsExact st := by
  obtain ⟨hinv, hcount⟩ : FilesInv st.layer st.opened ∧ st.layer.CountsOpen := by
    induction h with
    | start hs => exact ⟨.start hs, .start hs⟩
    | next _ hok hstep ih => exact ⟨ih.1.step hstep, ih.2.step ih.1 hok hstep⟩
  refine ⟨fun pid fd d hd => ⟨?_, (hinv.refers pid fd d hd).2⟩, hinv.own, ?_, hcount⟩
  · rw [hinv.lookup pid (hinv.live hd), hd, Option.map_some]
  · intro pid hcur hlive fd hno c hc
    refine FileLayer.exec_closed hcur hlive ?_ hc
    rw [hinv.lookup pid hlive, hno, Option.map_none]

end Exact

/-! ### A volume with one file -/

theorem cd_length : "cd".toList.length ≤ 16 := by decide

/-- The volume `cd` with the file `motd` in its root directory. -/
def motdVolume : Vfs Unit where
  dir _ := ⟨[], none, ⟨"cd".toList, (), cd_length⟩, [()], []⟩
  file _ := ⟨"motd".toList⟩
  blockdevices := [⟨true, some ⟨"cd".toList, (), cd_length⟩, fun _ => rfl⟩]
  height _ := 0
  depth _ := 0
  child_height _ _ h := absurd h List.not_mem_nil
  parent_depth _ _ h := absurd h (Option.not_mem_none _)
  child_parent _ _ h := absurd h List.not_mem_nil
  parent_child _ _ h := absurd h (Option.not_mem_none _)
  directory_names _ := List.nodup_nil
  file_names _ := List.nodup_singleton _
  child_volume _ _ h := absurd h List.not_mem_nil
  root_parent _ _ _ _ := rfl
  root_volume bd hbd m hm := by
    obtain rfl := List.mem_singleton.mp hbd
    exact Option.some.inj hm

/-- A driver for files of one byte that cannot write. -/
def readOnlyDriver : VfsFsDriver Unit Unit where
  accessfile _ write _ buf count loc :=
    if write then (-1, buf, ())
    else if loc = 0 ∧ 0 < count then (1, buf.set 0 0x68, ())
    else (0, buf, ())
  result _ write _ buf count loc := by
    split_ifs <;> simp
  length _ write _ buf count loc := by
    split_ifs <;> simp

/-- The file layer of the kernel `k` with that volume, before a file is opened. -/
def motdLayer (k : Kernel) : FileLayer Unit Unit where
  kernel := k
  vfs := motdVolume
  info _ := ⟨1, 0, readOnlyDriver, 2048, by decide, by decide⟩
  dev := ()
  openAt _ := none
  nextOpen := 0
  table _ := .fresh

theorem motd_found : vfsFindFile motdVolume "cd:motd".toList = some () := by
  have hroot : ∀ root, root = () := fun _ => rfl
  have hcd : ':' ∉ "cd".toList := by decide
  have hne : "cd".toList = [] → Pieces.pieces '/' [] = [] := fun h => absurd h (by decide)
  have hfind : vfsFindDirectory motdVolume ("cd".toList ++ [':']) = some () := by
    rcases vfsFindDirectory_cases motdVolume [] hcd hne with ⟨-, hno⟩ | ⟨root, -, hfind⟩
    · exact absurd ⟨_, List.mem_singleton_self _, rfl, _, rfl, rfl, rfl⟩ (hno ())
    · rw [hfind]
      rfl
  have hdir : pathDirectory "cd:motd".toList = "cd".toList ++ [':'] := by decide
  have hname : strchr ':' "cd:motd".toList = some "motd".toList := by decide
  unfold vfsFindFile
  simp only [hname, hdir, hfind]
  decide

/-- A run of the kernel is a run of the file layer in which no file is opened. -/
theorem reach_motdLayer {ok : FileState Unit Unit → FileCall → Prop} {k : Kernel}
    (hok : ∀ k c, ok ⟨motdLayer k, fun _ _ => none⟩ (.kernel c))
    (h : Reach Step (fun _ _ => True) Started k) :
    Reach FileStep ok FileStart ⟨motdLayer k, fun _ _ => none⟩ := by
  induction h with
  | start h => exact .start ⟨h, rfl, fun _ => rfl, fun _ => rfl⟩
  | next _ _ hstep ih =>
      rename_i k k' c _ _
      obtain ⟨r, hr⟩ := hstep
      have htables : newTables k k' (fun _ => .fresh) = fun _ => .fresh := by
        funext pid
        exact ite_self _
      have hlayer : (motdLayer k).exec (.kernel c) = .ok (r, motdLayer k') := by
        simp only [FileLayer.exec, motdLayer, hr, ok_bind, htables]
      refine ih.next (hok k c) ?_
      simp only [FileStep, FileState.exec, hlayer, ok_bind, FileState.note, ite_self]

/-- Process 1 runs, with no page below 4 MiB, and it is removed at once when it exits. -/
theorem motd_process : ∃ k, Reach Step (fun _ _ => True) Started k ∧ k.currentps = some 1 ∧
    k.processes 1 ≠ none ∧ k.mem.tables k.mem.cr3 0 = none ∧
      ∃ r k', exec k (.exitProcess 0) = .ok (r, k') ∧ k'.processes 1 = none := by
  have hrun : BootRuns id execState (fun _ _ => True) (fun k => k.currentps = some 1 ∧
      (k.processes 1).isSome ∧ (k.mem.tables k.mem.cr3 0).isNone ∧ OkAnd (execState k (.exitProcess 0)) fun k' =>
        (k'.processes 1).isNone)
      [.createProcess 0 [], .createThread 1 false 0, .pickNext] := by decide
  obtain ⟨k, hreach, hcur, hlive, hpage, hexit⟩ :=
    hrun.reach (fun _ _ _ => execState_step) fun _ h => h
  obtain ⟨k', hk', hnone⟩ := hexit.exists_ok
  obtain ⟨r, hr⟩ := execState_step hk'
  exact ⟨k, hreach, hcur, Option.isSome_iff_ne_none.mp hlive, Option.isNone_iff_eq_none.mp hpage,
    r, k', hr, Option.isNone_iff_eq_none.mp hnone⟩

/-- The state after process 1 has opened `cd:motd`. -/
def motdOpened (k : Kernel) : FileState Unit Unit :=
  ⟨(motdLayer k).opened 1 () 0, setOpened (fun _ _ => none) 1 0 (some ⟨0, (), 0, 0, 0⟩)⟩

theorem motd_open {k : Kernel} (hcur : k.currentps = some 1) (hlive : k.processes 1 ≠ none) :
    FileStep ⟨motdLayer k, fun _ _ => none⟩ (.openFile "cd:motd".toList 0) (motdOpened k) := by
  have hfiles : (motdLayer k).currentFiles = .ok (1, .fresh) :=
    FileLayer.currentFiles_ok.mpr ⟨hcur, hlive, rfl⟩
  have hbd : vfsFindBlockDeviceByPath motdVolume "cd:motd".toList =
      some ⟨true, some ⟨"cd".toList, (), cd_length⟩, fun _ => rfl⟩ := by rfl
  have hopen : (motdLayer k).exec (.openFile "cd:motd".toList 0) =
      .ok (0, (motdLayer k).opened 1 () 0) := by
    have hvfs : (motdLayer k).vfs = motdVolume := rfl
    simp only [FileLayer.exec, vfsOpen, hvfs, hbd, motd_found, FileLayer.addOpen, hfiles, ok_bind]
    rfl
  have hvfs : vfsFindFile (motdLayer k).vfs "cd:motd".toList = some () := motd_found
  have hcur' : (motdLayer k).kernel.currentps = some 1 := hcur
  simp only [FileStep, FileState.exec, hopen, ok_bind, FileState.note, hvfs, hcur',
    Option.getD_some]
  rfl

theorem descriptors_exact_opened :
    ∃ st : FileState Unit Unit, (st.layer.info ()).opens = 1 ∧ DescriptorsExact st := by
  obtain ⟨k, hreach, hcur, hlive, -⟩ := motd_process
  have hfree : ∀ k c, FileCall.FreesClosed ⟨motdLayer k, fun _ _ => none⟩ (.kernel c) := by
    intro k c
    refine (Call.freesOnly_true k c).mono fun pid _ slot hslot => ?_
    cases hslot
  have hboot : Reach FileStep (fun st c => c.FreesClosed st) FileStart
      ⟨motdLayer k, fun _ _ => none⟩ := reach_motdLayer hfree hreach
  have hopened := hboot.next (show FileCall.FreesClosed _ (.openFile _ _) from trivial)
    (motd_open hcur hlive)
  exact ⟨motdOpened k, rfl, descriptors_exact hopened⟩

/-- Process 1 exits with `cd:motd` open: the file stays open. -/
theorem descriptors_leaked : ∃ st : FileState Unit Unit,
    Reach FileStep (fun _ _ => True) FileStart st ∧ ¬DescriptorsExact st := by
  obtain ⟨k, hreach, hcur, hlive, -, r, k', hexit, hgone⟩ := motd_process
  have hboot : Reach FileStep (fun _ _ => True) FileStart ⟨motdLayer k, fun _ _ => none⟩ :=
    reach_motdLayer (fun _ _ => trivial) hreach
  have hopened := hboot.next trivial (motd_open hcur hlive)
  have hstep : FileStep (motdOpened k) (.kernel (.exitProcess 0))
      ⟨{ (motdOpened k).layer with
          kernel := k', table := newTables k k' (motdOpened k).layer.table },
        fun pid fd => if k'.processes pid = none then none else (motdOpened k).opened pid fd⟩ := by
    have hkernel : (motdOpened k).layer.kernel = k := rfl
    simp only [FileStep, FileState.exec, FileLayer.exec, hkernel, hexit, ok_bind, FileState.note]
  refine ⟨_, hopened.next trivial hstep, fun hexact => ?_⟩
  have hcount := hexact.counter ()
  have hzero : FileLayer.openCount { (motdOpened k).layer with
      kernel := k', table := newTables k k' (motdOpened k).layer.table } () = 0 := by
    refine total_eq_zero fun pid _ _ => ?_
    simp only
    split_ifs with hnone
    · rfl
    · have hne : pid ≠ 1 := by
        rintro rfl
        exact hnone hgone
      have htable : newTables k k' (motdOpened k).layer.table pid = .fresh := by
        simp only [newTables, motdOpened, FileLayer.opened, Function.update_of_ne hne]
        exact ite_self _
      rw [htable]
      rfl
  rw [hzero] at hcount
  cases hcount

end GalaxyOS
