import GalaxyOS.Fs.Drivers

/-! # Reading a file from an ISO 9660 volume

`iso9660_accessfile` reads as many sectors as the number of bytes fills, from the sector of the
offset on, and copies the bytes out of them.  It shares two habits with `vfat_accessfile`: the number
of sectors does not depend on the place of the offset in its sector, and the bytes left in the file
are counted without a sign.  And it takes a read for failed only if no block at all could be read.

`iso9660_access_exact_iff` says which reads deliver the bytes of the file.

`IsoFile.index_eq` places the sectors in the extent, `IsoFile.Readable.window` the bytes in the sectors,
and `iso9660Accessfile_run` is the driver on these. -/

namespace GalaxyOS

open Chunks

/-! ### The volume -/

/-- The block device of a volume: its contents, and the blocks of it that can be read. -/
structure IsoDevice where
  blocksize : ℕ
  contents : BlockContents blocksize
  readable : ℕ → Bool
  blocksize_pos : 0 < blocksize
  /-- So the size of the temporary buffer is a number of 32 bits. -/
  blocksize_le : blocksize ≤ 0x80000000

/-- What reading a block gives. -/
def IsoDevice.block (dev : IsoDevice) (i : ℕ) : Option (List UInt8) :=
  if dev.readable i then some (dev.contents.block i) else none

/-- A file, whose extent lies in the blocks that 32 bits can number. -/
structure IsoFile (dev : IsoDevice) where
  size : ℕ
  fileLoc : ℕ
  size_lt : size < 0x100000000
  extent : fileLoc + (size + dev.blocksize - 1) / dev.blocksize ≤ 0x100000000

namespace IsoFile

variable {dev : IsoDevice} (f : IsoFile dev)

/-- The blocks of the extent. -/
def contents : List UInt8 :=
  (List.range ((f.size + dev.blocksize - 1) / dev.blocksize)).flatMap fun i =>
    dev.contents.block (f.fileLoc + i)

/-- Every block with one of the `n` bytes from `loc` on can be read. -/
def Readable (loc n : ℕ) : Prop :=
  ∀ i, loc / dev.blocksize ≤ i → i * dev.blocksize < loc + n → dev.readable (f.fileLoc + i) = true

/-- The block that the driver reads first. -/
def lba (loc : ℕ) : ℕ := (f.fileLoc + loc / dev.blocksize) % 0x100000000

/-- The driver gives up: the number of bytes is negative as an `ssize_t`, or none of the blocks that
it reads can be read. -/
def Refused (loc n : ℕ) : Prop :=
  0x80000000 ≤ n ∨
    ∀ i < isoSectors dev.blocksize n, dev.readable ((i + f.lba loc) % 0x100000000) = false

/-- The call delivers the bytes of the file: none if there are none to read, an error past its end or
if a block cannot be read, and otherwise those from `loc` on. -/
def AccessExact (junk buffer : List UInt8) (len loc : ℕ) : Prop :=
  ∃ r buffer', iso9660Accessfile dev.blocksize dev.block junk false f.size f.fileLoc buffer len loc =
      .ok (r, buffer') ∧
    (len = 0 ∨ loc = f.size → r = 0) ∧
    (len ≠ 0 → f.size < loc → r < 0) ∧
    (len ≠ 0 → loc < f.size → ¬f.Readable loc (min len (f.size - loc)) → r < 0) ∧
    (len ≠ 0 → loc < f.size → f.Readable loc (min len (f.size - loc)) →
      r = min len (f.size - loc) ∧
      buffer'.take (min len (f.size - loc)) = (f.contents.drop loc).take (min len (f.size - loc)))

/-- The reads that the driver serves: nothing to read; a read past the end that it refuses; inside
the file, a read that it refuses and of which a block cannot be read, or one of fewer than 2 GiB in
as many sectors as the bytes would fill, all of which can be read. -/
def Serves (len loc : ℕ) : Prop :=
  len = 0 ∨ loc = f.size ∨
    (f.size < loc ∧ f.Refused loc (min len (f.size + 0x100000000 - loc))) ∨
    (loc < f.size ∧ f.Refused loc (min len (f.size - loc)) ∧
      ¬f.Readable loc (min len (f.size - loc))) ∨
    (loc < f.size ∧ min len (f.size - loc) < 0x80000000 ∧
      loc % dev.blocksize + min len (f.size - loc) ≤
        isoSectors dev.blocksize (min len (f.size - loc)) * dev.blocksize ∧
      f.Readable loc (min len (f.size - loc)))

end IsoFile

/-! ### Sectors -/

theorem isoSectors_eq {bs n : ℕ} (hbs : 0 < bs) : isoSectors bs n = (n + bs - 1) / bs := by
  unfold isoSectors
  have hn := Nat.div_add_mod n bs
  have hlt := Nat.mod_lt n hbs
  have hsum : n + bs - 1 = bs * (n / bs) + (n % bs + bs - 1) := by omega
  rw [hsum, Nat.mul_add_div hbs]
  congr 1
  by_cases h0 : n % bs = 0
  · rw [if_pos h0, h0, Nat.zero_add, Nat.div_eq_of_lt (by omega)]
  · rw [if_neg h0]
    have hone : n % bs + bs - 1 = bs * 1 + (n % bs - 1) := by omega
    rw [hone, Nat.mul_add_div hbs, Nat.div_eq_of_lt (by omega)]

theorem isoTempbuf_length {bs : ℕ} {block : ℕ → Option (List UInt8)} {junk : List UInt8}
    (hblock : ∀ i, ∀ b ∈ block i, b.length = bs) (hjunk : junk.length = bs) (sectors lba : ℕ) :
    (isoTempbuf block junk sectors lba).length = sectors * bs := by
  unfold isoTempbuf
  rw [flatMap_length, List.length_range]
  intro i
  cases hb : block ((i + lba) % 0x100000000) with
  | none => exact hjunk
  | some b => exact hblock _ b hb

section Read

variable {dev : IsoDevice} (f : IsoFile dev) {junk : List UInt8} (buffer : List UInt8)

theorem IsoDevice.block_length (i : ℕ) : ∀ b ∈ dev.block i, b.length = dev.blocksize := by
  intro b hb
  unfold IsoDevice.block at hb
  split_ifs at hb
  · obtain rfl := Option.mem_some_iff.mp hb
    exact dev.contents.length i
  · cases hb

theorem noBlock_iff {sectors lba : ℕ} :
    ((List.range sectors).all fun i => (dev.block ((i + lba) % 0x100000000)).isNone) = true ↔
      ∀ i < sectors, dev.readable ((i + lba) % 0x100000000) = false := by
  rw [List.all_eq_true]
  constructor
  · intro h i hi
    have := h i (List.mem_range.mpr hi)
    unfold IsoDevice.block at this
    split_ifs at this with hread
    · cases this
    · exact Bool.eq_false_iff.mpr hread
  · intro h i hi
    unfold IsoDevice.block
    rw [h i (List.mem_range.mp hi)]
    rfl

/-- What the driver does when it sets out to read `n` bytes. -/
theorem iso9660Accessfile_run (hjunk : junk.length = dev.blocksize) (len loc n : ℕ)
    (hloc : loc < 0x100000000) (hlt : n < 0x100000000) (hpos : n ≠ 0)
    (hn : n = min len (if loc ≤ f.size then f.size - loc else f.size + 0x100000000 - loc)) :
    (f.Refused loc n ∧
      iso9660Accessfile dev.blocksize dev.block junk false f.size f.fileLoc buffer len loc =
        .ok (-1, buffer)) ∨
    (¬f.Refused loc n ∧ n < 0x80000000 ∧
      iso9660Accessfile dev.blocksize dev.block junk false f.size f.fileLoc buffer len loc =
        if loc % dev.blocksize + n ≤ isoSectors dev.blocksize n * dev.blocksize then
          .ok (n, ((isoTempbuf dev.block junk (isoSectors dev.blocksize n) (f.lba loc)).drop
            (loc % dev.blocksize)).take n ++ buffer.drop n)
        else .error .overrun) := by
  unfold iso9660Accessfile
  simp only [Bool.false_eq_true, if_false]
  rw [accessBytes_eq f.size_lt hloc, ← hn]
  by_cases hneg : 0x80000000 ≤ n
  · have := intOfReg_neg hneg hlt
    left
    exact ⟨.inl hneg, by rw [if_neg (by omega), if_pos this]⟩
  · rw [intOfReg_of_lt (by omega), if_neg (by omega), if_neg (by omega), Int.toNat_natCast]
    by_cases hnone : ∀ i < isoSectors dev.blocksize n,
        dev.readable ((i + f.lba loc) % 0x100000000) = false
    · left
      exact ⟨.inr hnone, if_pos (noBlock_iff.mpr hnone)⟩
    · right
      refine ⟨not_or.mpr ⟨hneg, hnone⟩, by omega, ?_⟩
      have hnot := mt noBlock_iff.mp hnone
      unfold IsoFile.lba at hnot ⊢
      rw [if_neg hnot, isoTempbuf_length IsoDevice.block_length hjunk]

end Read

/-! ### Reads inside the file -/

section Inside

variable {dev : IsoDevice} {f : IsoFile dev} {junk : List UInt8} (buffer : List UInt8) {loc n : ℕ}

theorem IsoFile.sectors_le (hend : loc + n ≤ f.size) :
    loc / dev.blocksize + isoSectors dev.blocksize n ≤
      (f.size + dev.blocksize - 1) / dev.blocksize := by
  rw [isoSectors_eq dev.blocksize_pos]
  apply clusters_le dev.blocksize_pos
  have hsum := Nat.div_add_mod (f.size + dev.blocksize - 1) dev.blocksize
  have hlt := Nat.mod_lt (f.size + dev.blocksize - 1) dev.blocksize_pos
  rw [Nat.mul_comm] at hsum
  omega

theorem isoSectors_pos {bs : ℕ} (hbs : 0 < bs) (hpos : 0 < n) : 0 < isoSectors bs n := by
  rw [isoSectors_eq hbs]
  exact Nat.div_pos (by omega) hbs

/-- The blocks that the driver reads are those of the extent from the one of `loc` on. -/
theorem IsoFile.index_eq (hpos : 0 < n) (hend : loc + n ≤ f.size) {i : ℕ}
    (hi : i < isoSectors dev.blocksize n) :
    (i + f.lba loc) % 0x100000000 = f.fileLoc + (loc / dev.blocksize + i) := by
  have hle := IsoFile.sectors_le hend
  have hext := f.extent
  unfold IsoFile.lba
  rw [Nat.mod_eq_of_lt (show f.fileLoc + loc / dev.blocksize < 0x100000000 by omega),
    Nat.mod_eq_of_lt (by omega)]
  omega

theorem IsoFile.Readable.read (h : f.Readable loc n) (hpos : 0 < n) (hend : loc + n ≤ f.size) {i : ℕ}
    (hi : i < isoSectors dev.blocksize n) :
    dev.readable ((i + f.lba loc) % 0x100000000) = true := by
  rw [IsoFile.index_eq hpos hend hi]
  apply h _ (Nat.le_add_right ..)
  rw [isoSectors_eq dev.blocksize_pos] at hi
  exact cluster_needed dev.blocksize_pos hi

theorem IsoFile.Readable.not_refused (h : f.Readable loc n) (hpos : 0 < n) (hend : loc + n ≤ f.size)
    (hlt : n < 0x80000000) : ¬f.Refused loc n := by
  rintro (hge | hnone)
  · omega
  · have hsec := isoSectors_pos dev.blocksize_pos hpos
    have hread := h.read hpos hend hsec
    rw [hnone 0 hsec] at hread
    cases hread

theorem range_window {a s l : ℕ} (h : a + s ≤ l) :
    ((List.range l).drop a).take s = (List.range s).map (a + ·) := by
  apply List.ext_getElem
  · rw [List.length_take, List.length_drop, List.length_range, List.length_map, List.length_range]
    omega
  · intro i _ _
    simp

/-- Sectors that can be read and hold all the bytes hold them in their places. -/
theorem IsoFile.Readable.window (h : f.Readable loc n) (hpos : 0 < n) (hend : loc + n ≤ f.size)
    (hfit : loc % dev.blocksize + n ≤ isoSectors dev.blocksize n * dev.blocksize) :
    ((isoTempbuf dev.block junk (isoSectors dev.blocksize n) (f.lba loc)).drop
      (loc % dev.blocksize)).take n = (f.contents.drop loc).take n := by
  have htemp : isoTempbuf dev.block junk (isoSectors dev.blocksize n) (f.lba loc) =
      (((List.range ((f.size + dev.blocksize - 1) / dev.blocksize)).drop (loc / dev.blocksize)).take
        (isoSectors dev.blocksize n)).flatMap fun i => dev.contents.block (f.fileLoc + i) := by
    rw [range_window (IsoFile.sectors_le hend), List.flatMap_map]
    unfold isoTempbuf
    apply List.flatMap_congr
    intro i hi
    have hi := List.mem_range.mp hi
    unfold IsoDevice.block
    rw [if_pos (h.read hpos hend hi), IsoFile.index_eq hpos hend hi]
    rfl
  have hwindow := flatMap_window (fun i => dev.contents.length (f.fileLoc + i))
    (List.range ((f.size + dev.blocksize - 1) / dev.blocksize)) (i := loc / dev.blocksize) hfit
  rw [Nat.mul_comm, Nat.div_add_mod] at hwindow
  rw [htemp, hwindow]
  rfl

/-- A read of some bytes inside the file. -/
theorem IsoFile.inside_iff (hjunk : junk.length = dev.blocksize) {len : ℕ}
    (hloc : loc < f.size) (hlen : len ≠ 0) (hn : n = min len (f.size - loc)) :
    (∃ r buffer', iso9660Accessfile dev.blocksize dev.block junk false f.size f.fileLoc buffer len loc =
        .ok (r, buffer') ∧ (¬f.Readable loc n → r < 0) ∧
        (f.Readable loc n → r = n ∧ buffer'.take n = (f.contents.drop loc).take n)) ↔
      (f.Refused loc n ∧ ¬f.Readable loc n) ∨
        (n < 0x80000000 ∧ loc % dev.blocksize + n ≤ isoSectors dev.blocksize n * dev.blocksize ∧
          f.Readable loc n) := by
  have hsize := f.size_lt
  have hpos : 0 < n := by omega
  have hend : loc + n ≤ f.size := by omega
  obtain ⟨href, hcall⟩ | ⟨href, hlt, hcall⟩ := iso9660Accessfile_run f buffer hjunk len loc n
    (by omega) (by omega) (by omega) (by rw [if_pos hloc.le, hn])
  · rw [hcall]
    constructor
    · rintro ⟨r, buffer', hok, -, hexact⟩
      obtain ⟨rfl, -⟩ := Prod.mk.inj (Except.ok.inj hok)
      left
      refine ⟨href, fun hread => ?_⟩
      have := (hexact hread).1
      omega
    · rintro (⟨-, hread⟩ | ⟨hlt, -, hread⟩)
      · exact ⟨-1, buffer, rfl, fun _ => by decide, fun h => absurd h hread⟩
      · exact absurd href (hread.not_refused hpos hend hlt)
  · rw [hcall]
    by_cases hfit : loc % dev.blocksize + n ≤ isoSectors dev.blocksize n * dev.blocksize
    · rw [if_pos hfit]
      have hlength : n ≤ ((isoTempbuf dev.block junk (isoSectors dev.blocksize n) (f.lba loc)).drop
          (loc % dev.blocksize)).length := by
        rw [List.length_drop, isoTempbuf_length IsoDevice.block_length hjunk]
        omega
      constructor
      · rintro ⟨r, buffer', hok, hfail, -⟩
        obtain ⟨rfl, -⟩ := Prod.mk.inj (Except.ok.inj hok)
        right
        refine ⟨hlt, hfit, ?_⟩
        by_contra hread
        have := hfail hread
        omega
      · rintro (⟨hc, -⟩ | ⟨-, -, hread⟩)
        · exact absurd hc href
        · refine ⟨n, _, rfl, fun h => absurd hread h, fun _ => ⟨rfl, ?_⟩⟩
          rw [List.take_append_of_le_length (by rw [List.length_take]; omega), List.take_take,
            Nat.min_self, hread.window hpos hend hfit]
    · rw [if_neg hfit]
      constructor
      · rintro ⟨r, buffer', hok, -⟩
        cases hok
      · rintro (⟨hc, -⟩ | ⟨-, hc, -⟩)
        · exact absurd hc href
        · exact absurd hc hfit

end Inside

/-- The driver delivers the bytes of the file exactly for the reads it serves. -/
theorem iso9660_access_exact_iff {dev : IsoDevice} (f : IsoFile dev) (junk buffer : List UInt8)
    (hjunk : junk.length = dev.blocksize) (len loc : UInt32) :
    f.AccessExact junk buffer len.toNat loc.toNat ↔ f.Serves len.toNat loc.toNat := by
  have hloc := loc.toNat_lt
  have hlen := len.toNat_lt
  generalize len.toNat = len at hlen ⊢
  generalize loc.toNat = loc at hloc ⊢
  have hsize := f.size_lt
  have hzero : accessBytes f.size len loc = 0 →
      iso9660Accessfile dev.blocksize dev.block junk false f.size f.fileLoc buffer len loc =
        .ok (0, buffer) := by
    intro h
    unfold iso9660Accessfile
    simp only [Bool.false_eq_true, if_false]
    rw [if_pos h]
  unfold IsoFile.AccessExact IsoFile.Serves
  by_cases h0 : len = 0
  · have hcall := hzero ((accessBytes_eq_zero hsize hlen hloc).mpr (.inl h0))
    refine ⟨fun _ => .inl h0, fun _ => ⟨0, buffer, hcall, fun _ => rfl, ?_, ?_, ?_⟩⟩
    all_goals exact fun h => absurd h0 h
  obtain hlt | heq | hgt := Nat.lt_trichotomy loc f.size
  · -- inside the file
    have hiff := IsoFile.inside_iff (f := f) buffer hjunk hlt h0 rfl
    constructor
    · rintro ⟨r, buffer', hok, -, -, hfail, hexact⟩
      obtain h | h := hiff.mp ⟨r, buffer', hok, hfail h0 hlt, hexact h0 hlt⟩
      · exact .inr (.inr (.inr (.inl ⟨hlt, h⟩)))
      · exact .inr (.inr (.inr (.inr ⟨hlt, h⟩)))
    · intro h
      obtain ⟨r, buffer', hok, hfail, hexact⟩ := hiff.mpr (by
        rcases h with h | h | ⟨h, -⟩ | ⟨-, h⟩ | ⟨-, h⟩
        · exact absurd h h0
        · omega
        · omega
        · exact .inl h
        · exact .inr h)
      exact ⟨r, buffer', hok, fun h => by omega, fun _ h => by omega, fun _ _ => hfail, fun _ _ => hexact⟩
  · have hcall := hzero ((accessBytes_eq_zero hsize hlen hloc).mpr (.inr heq))
    refine ⟨fun _ => .inr (.inl heq), fun _ => ⟨0, buffer, hcall, fun _ => rfl, ?_, ?_, ?_⟩⟩
    all_goals exact fun _ h => absurd h (by omega)
  · -- past its end
    have hrun := iso9660Accessfile_run f buffer hjunk len loc
      (min len (f.size + 0x100000000 - loc)) hloc (by omega) (by omega)
      (by rw [if_neg (by omega)])
    constructor
    · rintro ⟨r, buffer', hok, -, hneg, -⟩
      refine .inr (.inr (.inl ⟨hgt, ?_⟩))
      obtain ⟨href, -⟩ | ⟨-, -, hcall⟩ := hrun
      · exact href
      · rw [hcall] at hok
        have := hneg h0 hgt
        split_ifs at hok
        obtain ⟨rfl, -⟩ := Prod.mk.inj (Except.ok.inj hok)
        omega
    · intro h
      have href : f.Refused loc (min len (f.size + 0x100000000 - loc)) := by
        rcases h with h | h | ⟨-, h⟩ | ⟨h, -⟩ | ⟨h, -⟩
        · exact absurd h h0
        · omega
        · exact h
        · omega
        · omega
      obtain ⟨-, hcall⟩ | ⟨hnot, -⟩ := hrun
      · refine ⟨-1, buffer, hcall, ?_, fun _ _ => by decide, ?_, ?_⟩
        · intro h
          omega
        all_goals exact fun _ h => by omega
      · exact absurd href hnot

theorem discBlocksize_pos : 0 < 2048 := by decide

theorem discBlocksize_le : 2048 ≤ 0x80000000 := by decide

/-- A disc with blocks of 2048 bytes, all of which can be read. -/
def sampleDisc : IsoDevice where
  blocksize := 2048
  contents := ⟨fun _ => List.replicate 2048 0, fun _ => List.length_replicate⟩
  readable _ := true
  blocksize_pos := discBlocksize_pos
  blocksize_le := discBlocksize_le

/-- A file of two sectors. -/
def discFile : IsoFile sampleDisc := ⟨4096, 30, by decide, by decide⟩

theorem iso9660_access_exact_sector :
    discFile.AccessExact (List.replicate 2048 0) [] 2048 2048 := by
  apply (iso9660_access_exact_iff discFile _ [] List.length_replicate 2048 2048).mpr
  exact .inr (.inr (.inr (.inr ⟨by decide, by decide, by decide, fun _ _ _ => rfl⟩)))

/-- 2048 bytes from the middle of the first sector run off the end of the temporary buffer. -/
theorem iso9660_access_overruns :
    ¬∀ (dev : IsoDevice) (f : IsoFile dev) (junk buffer : List UInt8), junk.length = dev.blocksize →
      ∀ len loc : UInt32, f.AccessExact junk buffer len.toNat loc.toNat := by
  intro h
  obtain ⟨r, buffer', hok, -⟩ := h sampleDisc discFile (List.replicate 2048 0) []
    List.length_replicate 2048 1024
  obtain ⟨href, -⟩ | ⟨-, -, hcall⟩ := iso9660Accessfile_run discFile []
    (List.length_replicate : (List.replicate 2048 (0 : UInt8)).length = 2048) 2048 1024 2048
    (by decide) (by decide) (by decide) (by decide)
  · obtain hge | hnone := href
    · exact absurd hge (by decide)
    · cases hnone 0 (by decide)
  · rw [if_neg (by decide)] at hcall
    rw [show (2048 : UInt32).toNat = 2048 from rfl, show (1024 : UInt32).toNat = 1024 from rfl,
      hcall] at hok
    cases hok

end GalaxyOS
