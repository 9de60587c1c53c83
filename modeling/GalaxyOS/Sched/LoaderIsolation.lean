import GalaxyOS.Lib.Monitor
import GalaxyOS.Sched.LoadedImage

/-! # Which images the loader keeps to itself

`isolation` is the monitor that lets the loader read inside the image, keep the page addresses of a
segment on what is left of the kernel's stack, map pages below the stack region, store to pages that this
load has mapped and record 64 regions.  The loader checks none of this, so it is the image that decides:
`Isolated` says, header by header, that the fields the loader gets to see stay inside these bounds.  A
segment whose pages cannot be mapped ends the load.

The image is that of the file alone, so that a read behind the file is an access outside.  That a load
makes no access outside its bounds exactly if the image is isolated is `ploadLoadProcess_isolated_iff`;
it is put together from one lemma for each part of the loader, which says when that part is stopped by
the monitor (`Monitored`). -/

namespace GalaxyOS

open Transition

/-- The accesses that keep a load to its image and its process. -/
def isolation : LoaderAccess → Prop
  | .array len room => len ≤ room
  | .read off len size => off + len ≤ size
  | .map addr => addr < 767 * 0x400000
  | .write addr len mapped => inPages mapped addr len
  | .region i => i < 64

instance : DecidablePred isolation
  | .array len room => Nat.decLe len room
  | .read off len size => Nat.decLe (off + len) size
  | .map addr => Nat.decLt addr (767 * 0x400000)
  | .write addr len mapped => inferInstanceAs (Decidable (inPages mapped addr len))
  | .region i => Nat.decLt i 64

/-! ### Images -/

namespace ProgHeader

/-- None of the pages of the segment is among those that are mapped, and its address is not taken for a
failure. -/
def Maps (ph : ProgHeader) (mapped : List ℕ) : Prop :=
  ph.vaddr ≠ 0 ∧ ∀ j < ph.pagecnt, ph.vaddr / 0x1000 + j ∉ mapped

/-- The array of its page addresses fits on the stack. -/
def ArrayFits (ph : ProgHeader) (room : ℕ) : Prop := 4 * ph.pagecnt ≤ room

/-- The pages that the loader tries lie below the stack region: all of them, up to the first one that
is mapped already. -/
def PagesBelow (ph : ProgHeader) (mapped : List ℕ) : Prop :=
  ∀ j < ph.pagecnt, (∀ i < j, ph.vaddr / 0x1000 + i ∉ mapped) → ph.vaddr + 0x1000 * j < 767 * 0x400000

/-- The `k`-th segment that is mapped has its bytes in the file, and room for them on its pages or those
before it. -/
structure Confined (ph : ProgHeader) (data : List UInt8) (mapped : List ℕ) (k : ℕ) : Prop where
  file : ph.filesz = 0 ∨ ph.offset + ph.filesz ≤ data.length
  bytes : inPages (mapped ++ ph.pages) ph.vaddr ph.filesz
  zeros : inPages (mapped ++ ph.pages) (wrap32 (ph.vaddr + ph.filesz))
    (wrap32 (ph.memsz + 0x100000000 - ph.filesz))
  region : k < 64

instance (ph : ProgHeader) (mapped : List ℕ) : Decidable (ph.Maps mapped) :=
  inferInstanceAs (Decidable (_ ∧ _))

instance (ph : ProgHeader) (room : ℕ) : Decidable (ph.ArrayFits room) := Nat.decLe _ _

instance (ph : ProgHeader) (mapped : List ℕ) : Decidable (ph.PagesBelow mapped) :=
  inferInstanceAs (Decidable (∀ j < ph.pagecnt, _))

theorem confined_iff (ph : ProgHeader) (data : List UInt8) (mapped : List ℕ) (k : ℕ) :
    ((ph.filesz = 0 ∨ ph.offset + ph.filesz ≤ data.length) ∧
      inPages (mapped ++ ph.pages) ph.vaddr ph.filesz ∧
      inPages (mapped ++ ph.pages) (wrap32 (ph.vaddr + ph.filesz))
        (wrap32 (ph.memsz + 0x100000000 - ph.filesz)) ∧ k < 64) ↔ ph.Confined data mapped k :=
  ⟨fun h => ⟨h.1, h.2.1, h.2.2.1, h.2.2.2⟩, fun h => ⟨h.file, h.bytes, h.zeros, h.region⟩⟩

instance (ph : ProgHeader) (data : List UInt8) (mapped : List ℕ) (k : ℕ) :
    Decidable (ph.Confined data mapped k) :=
  decidable_of_iff _ (confined_iff ph data mapped k)

end ProgHeader

/-- The `n` headers from the one with the number `i` on are in bounds, after `k` segments on the pages
`mapped`, with `room` bytes left on the stack. -/
def IsolatedFrom (room : ℕ) (data : List UInt8) (phoff phentsize : ℕ) (mapped : List ℕ) (k i : ℕ) :
    ℕ → Prop
  | 0 => True
  | n + 1 =>
      let off := phdrOffset phoff phentsize i
      let ph := progHeader data off
      (off + 4 ≤ data.length ∧ (ph.type = ptLoad → off + 24 ≤ data.length)) ∧
        if ph.type ≠ ptLoad then IsolatedFrom room data phoff phentsize mapped k (i + 1) n
        else (ph.ArrayFits room ∧ ph.PagesBelow mapped ∧ (ph.Maps mapped → ph.Confined data mapped k)) ∧
          (ph.Maps mapped →
            IsolatedFrom room data phoff phentsize (mapped ++ ph.pages) (k + 1) (i + 1) n)

instance IsolatedFrom.decidable (room : ℕ) (data : List UInt8) (phoff phentsize : ℕ) :
    ∀ (mapped : List ℕ) (k i n : ℕ), Decidable (IsolatedFrom room data phoff phentsize mapped k i n)
  | _, _, _, 0 => .isTrue trivial
  | mapped, k, i, n + 1 =>
      have := IsolatedFrom.decidable room data phoff phentsize mapped k (i + 1) n
      have := IsolatedFrom.decidable room data phoff phentsize
        (mapped ++ (progHeader data (phdrOffset phoff phentsize i)).pages) (k + 1) (i + 1) n
      inferInstanceAs (Decidable (_ ∧ ite _ _ _))

/-- The headers of the image are in bounds, with `room` bytes left on the stack. -/
def Isolated (room : ℕ) (data : List UInt8) : Prop :=
  46 ≤ data.length ∧
    IsolatedFrom room data (leBytes data 28 4) (leBytes data 42 2) [] 0 0 (leBytes data 44 2)

instance (room : ℕ) (data : List UInt8) : Decidable (Isolated room data) :=
  inferInstanceAs (Decidable (_ ∧ _))

/-! ### Reading headers -/

variable {role : ℕ → Role} {K : ℕ → ℕ} {data : List UInt8} {d : ℕ} {st : LoadState} {ph : ProgHeader}

theorem access_monitored (a : LoaderAccess) :
    Monitored IsPanic .wildAccess (isolation a) (fun _ => True) (access isolation a) := by
  unfold access
  by_cases ha : isolation a
  · rw [if_pos ha]
    exact (Monitored.pure trivial).congr (iff_of_true trivial ha)
  · rw [if_neg ha]
    refine ⟨fun u hu => (by cases hu), fun e he => ?_⟩
    obtain rfl := Except.error.inj he
    exact .inr ⟨rfl, ha⟩

theorem readField_monitored (data : List UInt8) (off n : ℕ) :
    Monitored IsPanic .wildAccess (off + n ≤ data.length) (fun v => v = leBytes data off n)
      (readField isolation data off n) := by
  refine ((access_monitored (.read off n data.length)).bind fun _ _ _ _ => ?_).congr
    (and_iff_left trivial)
  exact .pure rfl

theorem readProgHeader_monitored (data : List UInt8) (off : ℕ) :
    Monitored IsPanic .wildAccess
      (off + 4 ≤ data.length ∧ ((progHeader data off).type = ptLoad → off + 24 ≤ data.length))
      (fun _ => True) (readProgHeader isolation data off) := by
  apply (readField_monitored data off 4).bind
  rintro type - - rfl
  have htype : (progHeader data off).type = leBytes data off 4 := rfl
  rw [htype]
  by_cases hload : leBytes data off 4 = ptLoad
  · rw [if_neg (not_not.mpr hload)]
    refine ((readField_monitored data (off + 20) 4).bind fun memsz _ _ _ =>
      (readField_monitored data (off + 8) 4).bind fun vaddr _ _ _ =>
      (readField_monitored data (off + 4) 4).bind fun offset _ _ _ =>
      (readField_monitored data (off + 16) 4).bind fun filesz _ _ _ => .pure trivial).congr ?_
    constructor
    · intro h _
      omega
    · intro h
      have hlen := h hload
      exact ⟨by omega, by omega, by omega, by omega, trivial⟩
  · rw [if_pos hload]
    exact (Monitored.pure trivial).congr (iff_of_true trivial fun hc => absurd hc hload)

/-! ### Loading segments -/

theorem pmmAllocPages_monitored (m : Mem) (n : ℕ) :
    Monitored IsPanic .wildAccess True (fun _ => True) (pmmAllocPages m n) := by
  induction n generalizing m with
  | zero => exact .pure trivial
  | succ n ih =>
      unfold pmmAllocPages
      cases hstack : m.pmemStack with
      | nil =>
          simp only [pmmAllocPage, hstack, error_bind]
          exact ⟨fun a ha => (by cases ha), fun e he => .inl ⟨_, (Except.error.inj he).symm⟩⟩
      | cons page rest =>
          simp only [pmmAllocPage, hstack, ok_bind]
          exact (ih _).seq fun x _ _ => .pure trivial

/-- Mapping the pages of a segment. -/
theorem mapSegment_monitored {m₁ : Mem} {pages : List ℕ} (h : LoadSpace role K d st)
    (hpop : pmmAllocPages st.mem ph.pagecnt = .ok (pages, m₁)) :
    Monitored IsPanic .wildAccess (ph.PagesBelow st.mapped)
      (fun x => (x.1 = true ∧ (∀ j < ph.pagecnt, ph.vaddr / 0x1000 + j ∉ st.mapped) ∧
          ∃ role', SegmentMapped role' K d ph st.mem x.2) ∨
        (x.1 = false ∧ ∃ j < ph.pagecnt, ph.vaddr / 0x1000 + j ∈ st.mapped))
      (vmmMapPagesLoc isolation m₁ ph.vaddr 0x7 pages) := by
  constructor
  · rintro ⟨mapped, m₂⟩ hmap
    obtain ⟨n, hchecked, hfresh, hn⟩ := h.mapSegment (fun _ _ hj => hj) hpop hmap
    constructor
    · intro j hj hprev
      by_cases hjn : j ≤ n
      · exact hchecked j hjn hj
      · cases hn with
        | inl hall => omega
        | inr hpart => exact absurd hpart.2.2 (hprev n (Nat.lt_of_not_le hjn))
    · cases hn with
      | inl hall =>
          obtain ⟨htrue, rfl, hseg⟩ := hall
          exact .inl ⟨htrue, hfresh, hseg⟩
      | inr hpart => exact .inr ⟨hpart.1, n, hpart.2⟩
  · intro e hmap
    obtain ⟨hlen, hnodup, hframes, -⟩ := Extends.pops h.space.owned hpop
    obtain ⟨h₁, hcr3, -, hentry⟩ := h.popped hpop
    apply (h₁.mapPagesLoc_error hnodup (fun f hf => (hframes f hf).2) (fun _ _ hj => hj) hmap).imp_right
    rintro ⟨rfl, n, hn, hstop, hbefore⟩
    refine ⟨rfl, fun hbelow => hstop (hbelow n (hlen ▸ hn) fun i hi hc => ?_)⟩
    obtain ⟨hpass, hnone⟩ := hbefore i hi
    have hlow : ph.vaddr + 0x1000 * i < 767 * 0x400000 := hpass
    rw [hcr3, hentry] at hnone
    apply (h.pages (ph.vaddr + 0x1000 * i) (by unfold kernelStart; omega)).mpr _ hnone
    rw [show (ph.vaddr + 0x1000 * i) / 0x1000 = ph.vaddr / 0x1000 + i by omega]
    exact hc

/-- The bytes that `memcpy` takes from the image. -/
theorem readSegment_monitored (data : List UInt8) (ph : ProgHeader) :
    Monitored IsPanic .wildAccess (ph.filesz = 0 ∨ ph.offset + ph.filesz ≤ data.length)
      (fun _ => True) (readSegment isolation data ph) := by
  unfold readSegment
  by_cases hzero : ph.filesz = 0
  · rw [if_pos hzero]
    exact (Monitored.pure trivial).congr (iff_of_true trivial (.inl hzero))
  · rw [if_neg hzero]
    exact (access_monitored _).congr (or_iff_right hzero).symm

/-- Stated of any fields: a proof by `rfl` at a segment that has been stored compares the memories. -/
theorem LoadState.stackRoom_mk (mem : Mem) (mapped : List ℕ) (psregions : List PsRegion)
    (pagesUsed endAllocatedData stackRoom : ℕ) :
    (LoadState.mk mem mapped psregions pagesUsed endAllocatedData stackRoom).stackRoom = stackRoom :=
  rfl

/-- The array of the page addresses. -/
theorem array_monitored (ph : ProgHeader) (room : ℕ) :
    Monitored IsPanic .wildAccess (ph.ArrayFits room) (fun _ => True)
      (access isolation (.array (4 * ph.pagecnt) room)) :=
  (access_monitored _).congr Iff.rfl

/-- A segment that is mapped is stored and recorded; one that is not ends the load. -/
theorem loadSegment_monitored (h : LoadSpace role K d st) :
    Monitored IsPanic .wildAccess
      (ph.ArrayFits st.stackRoom ∧ ph.PagesBelow st.mapped ∧
        (ph.Maps st.mapped → ph.Confined data st.mapped st.psregions.length))
      (fun x => (x.1 = true ∧ ph.Maps st.mapped ∧ (∃ role', LoadSpace role' K d x.2) ∧
          x.2.mapped = st.mapped ++ ph.pages ∧ x.2.psregions.length = st.psregions.length + 1 ∧
          x.2.stackRoom = st.stackRoom) ∨
        (x.1 = false ∧ ¬ph.Maps st.mapped))
      (loadSegment isolation data st ph) := by
  unfold loadSegment
  apply (array_monitored ph st.stackRoom).bind
  rintro - - - -
  apply (pmmAllocPages_monitored _ _).seq
  rintro ⟨pages, m₁⟩ hpop -
  apply (mapSegment_monitored h hpop).bind
  rintro ⟨mapped, m₂⟩ - - hmap
  simp only
  by_cases hmaps : ph.Maps st.mapped
  · obtain ⟨rfl, -, role', hseg⟩ | ⟨-, j, hj, hc⟩ := hmap
    · rw [if_neg (by simp [hmaps.1])]
      refine ((readSegment_monitored data ph).bind fun _ _ _ _ =>
        (access_monitored _).bind fun _ _ _ _ => (access_monitored _).bind fun _ _ _ _ =>
        (access_monitored _).bind fun _ _ _ _ => .pure ?_).congr ?_
      · obtain ⟨bytes, hbytes⟩ := storeBytes_twice m₂ ph.vaddr (wrap32 (ph.vaddr + ph.filesz))
          ((data.drop ph.offset).take ph.filesz)
          (List.replicate (wrap32 (ph.memsz + 0x100000000 - ph.filesz)) 0)
        exact .inl ⟨rfl, hmaps, ⟨role', hseg.loadSpace h hbytes rfl⟩, rfl, List.length_append, LoadState.stackRoom_mk ..⟩
      · rw [← ph.confined_iff]
        constructor
        · rintro ⟨hfile, hbytes, hzeros, hregion, -⟩ -
          exact ⟨hfile, hbytes, hzeros, hregion⟩
        · intro hconf
          obtain ⟨hfile, hbytes, hzeros, hregion⟩ := hconf hmaps
          exact ⟨hfile, hbytes, hzeros, hregion, trivial⟩
    · exact absurd hc (hmaps.2 j hj)
  · have hfail : (!mapped) = true ∨ ph.vaddr = 0 := by
      obtain ⟨-, hfresh, -⟩ | ⟨hfalse, -⟩ := hmap
      · refine .inr (by_contra fun h0 => hmaps ⟨h0, hfresh⟩)
      · have hfalse : mapped = false := hfalse
        refine .inl ?_
        rw [hfalse]
        rfl
    rw [if_pos hfail]
    exact (Monitored.pure (.inr ⟨rfl, hmaps⟩)).congr (iff_of_true trivial fun hc => absurd hc hmaps)

/-- The loop over the program headers. -/
theorem loadSegments_monitored {phoff phentsize : ℕ} (i n : ℕ) (h : LoadSpace role K d st) :
    Monitored IsPanic .wildAccess
      (IsolatedFrom st.stackRoom data phoff phentsize st.mapped st.psregions.length i n) (fun _ => True)
      (loadSegments isolation data phoff phentsize st i n) := by
  induction n generalizing i st role with
  | zero => exact .pure trivial
  | succ n ih =>
      unfold loadSegments IsolatedFrom
      apply (readProgHeader_monitored data (phdrOffset phoff phentsize i)).bind
      rintro ph hread - -
      obtain ⟨hsame, hother⟩ := readProgHeader_ok hread
      by_cases htype : ph.type = ptLoad
      · obtain rfl := hsame htype
        rw [if_neg (not_not.mpr htype), if_neg (not_not.mpr htype)]
        apply (loadSegment_monitored h).bind
        rintro ⟨mapped, st'⟩ - - hseg
        obtain ⟨htrue, hmaps, ⟨role', h'⟩, hmapped, hcount, hroom⟩ | ⟨hfalse, hmaps⟩ := hseg
        · have htrue : mapped = true := htrue
          have hrest := ih (i + 1) h'
          have hmapped : st'.mapped = _ := hmapped
          have hcount : st'.psregions.length = _ := hcount
          have hroom : st'.stackRoom = _ := hroom
          rw [hmapped, hcount, hroom] at hrest
          simp only [htrue]
          exact hrest.congr ⟨fun hrec _ => hrec, fun hrec => hrec hmaps⟩
        · have hfalse : mapped = false := hfalse
          simp only [hfalse]
          exact (Monitored.pure trivial).congr (iff_of_true trivial fun hc => absurd hc hmaps)
      · rw [if_pos htype, if_pos (hother htype)]
        exact ih (i + 1) h

/-! ### Loading a process -/

/-- The loader's work on an image. -/
theorem loadImage_monitored {ps : Process} {m : Mem}
    (h : LoadSpace role K d
      ⟨{ m with cr3 := ps.cr3 }, [], ps.psregions, ps.pagesUsed, 0, m.stackRoom⟩)
    (hregions : ps.psregions = []) :
    Monitored IsPanic .wildAccess (Isolated m.stackRoom ps.image) (fun _ => True)
      (loadImage isolation ps m) := by
  unfold loadImage Isolated
  apply (readField_monitored ps.image 44 2).bind
  rintro phnum - hlen rfl
  have hfield : ∀ off n, off + n ≤ 46 → Monitored IsPanic .wildAccess True
      (fun v => leBytes ps.image 44 2 ≠ 0 → v = leBytes ps.image off n)
      (readPhField isolation ps.image (leBytes ps.image 44 2) off n) := by
    intro off n hoff
    unfold readPhField
    by_cases hzero : leBytes ps.image 44 2 = 0
    · rw [if_pos hzero]
      exact .pure fun hc => absurd hzero hc
    · rw [if_neg hzero]
      apply ((readField_monitored ps.image off n).mono fun v hv _ => hv).congr
      exact iff_of_true (by omega) trivial
  apply (hfield 28 4 (by decide)).seq
  rintro phoff - hphoff
  apply (hfield 42 2 (by decide)).seq
  rintro phentsize - hphentsize
  -- with no headers at all the fields are not read, and do not matter
  have hfields : IsolatedFrom m.stackRoom ps.image phoff phentsize [] ps.psregions.length 0
        (leBytes ps.image 44 2) ↔
      IsolatedFrom m.stackRoom ps.image (leBytes ps.image 28 4) (leBytes ps.image 42 2) [] 0 0
        (leBytes ps.image 44 2) := by
    rw [hregions]
    by_cases hzero : leBytes ps.image 44 2 = 0
    · rw [hzero]
      exact iff_of_true trivial trivial
    · rw [hphoff hzero, hphentsize hzero]
      exact Iff.rfl
  refine ((loadSegments_monitored 0 _ h).bind ?_).congr ((and_iff_left trivial).trans hfields)
  rintro ⟨loaded, st'⟩ - - -
  by_cases hfail : (!loaded) = true
  · simp only [if_pos hfail]
    exact .pure trivial
  · simp only [if_neg hfail]
    refine ((readField_monitored ps.image 24 4).bind fun _ _ _ _ => .pure trivial).congr ?_
    exact iff_of_true ⟨by omega, trivial⟩ trivial

/-- A load makes no access outside its bounds if its image, the file that has been read, is isolated, and
only then, unless the kernel runs out of memory before it comes to that access. -/
theorem ploadLoadProcess_isolated_iff {s : Kernel} {pid tid : Int} {p : Process}
    (hps : s.Unloaded pid p) :
    (Isolated s.mem.stackRoom p.image → ploadLoadProcess isolation s pid tid ≠ .error .wildAccess) ∧
    ((∀ msg, ploadLoadProcess isolation s pid tid ≠ .error (.panic msg)) →
      (ploadLoadProcess isolation s pid tid ≠ .error .wildAccess ↔
        Isolated s.mem.stackRoom p.image)) := by
  obtain ⟨role, K, hstart⟩ : ∃ role K, Loaded role K p.image p.cr3 []
      ⟨{ s.mem with cr3 := p.cr3 }, [], p.psregions, p.pagesUsed, 0, s.mem.stackRoom⟩ := hps.loaded
  have hlive : s.liveProcess pid = .ok p := Kernel.liveProcess_ok.mpr hps.process
  unfold ploadLoadProcess
  rw [hlive, ok_bind]
  have hpanic : ¬IsPanic .wildAccess := fun ⟨msg, hmsg⟩ => (by cases hmsg)
  refine ((loadImage_monitored hstart.loadSpace hps.psregions).decides hpanic ?_).imp_right
    fun hdecides hmem => hdecides ?_
  · rintro ⟨entry, st⟩ hc
    cases entry with
    | none => cases hc
    | some entry =>
        -- the entry point of the thread is stored
        simp only [Kernel.threadAt] at hc
        cases ht : (s.setProcess pid (some (p.loaded st))).threads tid with
        | none =>
            rw [ht] at hc
            cases hc
        | some t =>
            rw [ht] at hc
            cases hc
  · rintro e ⟨msg, rfl⟩
    exact hmem msg

/-! ### Two images -/

theorem isolated_twoSegments : Isolated 0x1000 twoSegments := by decide +kernel

/-- The kernel can make a process of the image `data`, and then `P` holds. -/
def CreatedFrom (data : List UInt8) (P : Kernel → Int → Prop) (st : FrameState) : Prop :=
  OkAnd (ploadCreateProcess st.kernel ⟨data, [], 3, [], [], true⟩) fun x => P x.2 x.1

instance (data : List UInt8) (P : Kernel → Int → Prop) [∀ s pid, Decidable (P s pid)] :
    DecidablePred (CreatedFrom data P) := fun _ =>
  have : DecidablePred fun x : Int × Kernel => P x.2 x.1 := fun _ => inferInstance
  inferInstanceAs (Decidable (OkAnd _ _))

theorem createdFrom_unloaded {P : Kernel → Int → Prop}
    (hvalid : elfIsvalid memoryPolicy data = .ok 0)
    (h : Runs FrameState.exec (fun st c => c.FramesOk st) (CreatedFrom data P)
      [.createProcess 0 [], .createThread 0 true 0] ⟨Kernel.boot (bootMachine 24) 0, []⟩) :
    ∃ s pid p, s.Unloaded pid p ∧ p.image = data ∧ P s pid := by
  obtain ⟨st, hst, hok⟩ := FrameState.runs_reach h
  obtain ⟨role, K, hframe⟩ := reach_frameInv hst
  obtain ⟨⟨pid, s⟩, hcreate, hP⟩ := hok.exists_ok
  obtain ⟨p, himage, hps⟩ := ploadCreateProcess_unloaded hframe (reach_frameTables hst)
    (LoadRequest.image_nil.symm ▸ hvalid) hcreate
  exact ⟨s, pid, p, hps, himage.trans LoadRequest.image_nil, hP⟩

theorem created_run : Runs FrameState.exec (fun st c => c.FramesOk st)
    (CreatedFrom twoSegments fun s _ => s.mem.stackRoom = 0x1000)
    [.createProcess 0 [], .createThread 0 true 0] ⟨Kernel.boot (bootMachine 24) 0, []⟩ := by
  decide +kernel

theorem ploadLoadProcess_isolated_two : ∃ (s : Kernel) (pid : Int) (p : Process),
    p.image = twoSegments ∧ ploadLoadProcess isolation s pid 1 ≠ .error .wildAccess := by
  obtain ⟨s, pid, p, hps, himage, hroom⟩ := createdFrom_unloaded elfImage_twoSegments.valid created_run
  refine ⟨s, pid, p, himage, (ploadLoadProcess_isolated_iff hps).1 ?_⟩
  have hroom : s.mem.stackRoom = 0x1000 := hroom
  rw [himage, hroom]
  exact isolated_twoSegments

theorem stack_run : Runs FrameState.exec (fun st c => c.FramesOk st)
    (CreatedFrom (sampleImage [0, 0, 0xC0, 0xBF]) fun s pid =>
      ¬Avoids (· = .wildAccess) (ploadLoadProcess isolation s pid 1))
    [.createProcess 0 [], .createThread 0 true 0] ⟨Kernel.boot (bootMachine 24) 0, []⟩ := by
  decide +kernel

/-- An image that `elf_isvalid` accepts has its segment put into the stack region. -/
theorem loader_leaves_bounds : ∃ (s : Kernel) (pid : Int) (p : Process), s.Unloaded pid p ∧
    elfIsvalid memoryPolicy p.image = .ok 0 ∧
    ploadLoadProcess isolation s pid 1 = .error .wildAccess := by
  have hvalid : elfIsvalid memoryPolicy (sampleImage [0, 0, 0xC0, 0xBF]) = .ok 0 := by decide +kernel
  obtain ⟨s, pid, p, hps, himage, hstop⟩ := createdFrom_unloaded hvalid stack_run
  exact ⟨s, pid, p, hps, himage ▸ hvalid, eq_error_of_not_avoids hstop⟩

end GalaxyOS
