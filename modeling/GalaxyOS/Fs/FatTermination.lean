import Mathlib.Logic.Relation
import GalaxyOS.Fs.LongName

/-! # Which FAT directories are read to their end

A loop that meets a long entry with 247 characters in `lfnbuf` already looks at it for ever.  That is
the twentieth one since the last short entry; a name of 248 characters or more has twenty.
Apart from this (`FatMount.FitFrom`) the reading of a directory ends if and only if the tree that the
loops follow is finite (`FatMount.LoopTree`).

On a volume whose cluster chains and whose directory tree are finite (`FatMount.Tree`) that one is
finite too, unless a loop misses the end of a directory: the end mark, when it is the last entry of its
cluster; the mark behind the last cluster, on FAT12 and FAT16; or `.` and `..`, when a long name is
left in `lfnbuf` for them (`FatMount.SeenFrom`).

`vfat_read_returns_iff` is this equivalence for both functions: `LoopTree.reads` reads a finite tree,
`vfatReadDirectory_ended` says what a reading that returns has met, and `Tree.loopTree` gets the finite
tree from the volume. -/

namespace GalaxyOS

open Transition

/-! ### Entries as the format sees them -/

/-- The entries before the end mark. -/
def beforeMark (slots : List (List UInt8)) : List (List UInt8) :=
  slots.takeWhile fun slot => slotKind slot ≠ .last

/-- The name of `.` or `..`. -/
def dotName (k : ℕ) : List UInt8 := List.replicate k 0x2E ++ List.replicate (11 - k) 0x20

def IsDots (slot : List UInt8) : Prop := slot.take 11 = dotName 1 ∨ slot.take 11 = dotName 2

instance (slot : List UInt8) : Decidable (IsDots slot) :=
  inferInstanceAs (Decidable (slot.take 11 = _ ∨ slot.take 11 = _))

/-- The entry of a directory other than the two. -/
def LiveSubdirectory (slot : List UInt8) : Prop :=
  slotKind slot = .short ∧ slotIsDirectory slot = true ∧ ¬IsDots slot

/-- The marks behind the last cluster of a chain. -/
def FatType.EndOfChain (t : FatType) (cluster : ℕ) : Prop :=
  match t with
  | .fat12 => 0xFF8 ≤ cluster
  | .fat16 => 0xFFF8 ≤ cluster
  | .fat32 => 0x0FFFFFF8 ≤ cluster

/-- The number is followed by the loops. -/
theorem FatType.follows {t : FatType} {cluster : ℕ} (h : ¬t.EndOfChain cluster) :
    cluster < 0x0FFFFFF8 := by
  cases t <;> unfold EndOfChain at h <;> simp only at h <;> omega

namespace FatMount

/-- The contents of the clusters from `cluster` on to the end of the chain. -/
inductive Chain (m : FatMount Unit) : ℕ → List (List UInt8) → Prop
  | last {cluster next : ℕ} {data : List UInt8} :
      m.vfatReadCluster () cluster = .ok (data, next, ()) → m.info.fatType.EndOfChain next →
      Chain m cluster [data]
  | more {cluster next : ℕ} {data : List UInt8} {ds : List (List UInt8)} :
      m.vfatReadCluster () cluster = .ok (data, next, ()) → ¬m.info.fatType.EndOfChain next →
      Chain m next ds → Chain m cluster (data :: ds)

/-- A directory with a finite cluster chain whose directories are such directories again. -/
inductive Tree (m : FatMount Unit) (size : ℕ) : ℕ → Prop
  | mk {cluster : ℕ} {ds : List (List UInt8)} : m.Chain cluster ds →
      (∀ slot ∈ beforeMark (ds.flatMap (allSlots size)), LiveSubdirectory slot →
        Tree m size (slotCluster slot)) → Tree m size cluster

end FatMount

/-! ### Entries as the loops see them -/

/-- The entry is ignored for its short name. -/
def shortIgnored (slot : List UInt8) : Bool :=
  match vfatShortName slot with
  | .ok none => true
  | _ => false

/-- The entries that become directories, with `k` characters in `lfnbuf` before. -/
def readDirs : ℕ → List (List UInt8) → List (List UInt8)
  | _, [] => []
  | k, slot :: rest =>
      match slotKind slot with
      | .last => []
      | .unused => readDirs k rest
      | .long => readDirs (k + 13) rest
      | .short =>
          if slotIsDirectory slot = true ∧ (k = 0 → shortIgnored slot = false) then
            slot :: readDirs 0 rest
          else readDirs 0 rest

/-- There is room in `lfnbuf` for every long entry. -/
def LongFits : ℕ → List (List UInt8) → Prop
  | _, [] => True
  | k, slot :: rest =>
      match slotKind slot with
      | .last => True
      | .unused => LongFits k rest
      | .long => k + 13 < 256 ∧ LongFits (k + 13) rest
      | .short => LongFits 0 rest

instance LongFits.decidable : ∀ (k : ℕ) (slots : List (List UInt8)), Decidable (LongFits k slots)
  | _, [] => .isTrue trivial
  | k, slot :: rest =>
      have := LongFits.decidable k rest
      have := LongFits.decidable (k + 13) rest
      have := LongFits.decidable 0 rest
      match h : slotKind slot with
      | .last => .isTrue (by simp [LongFits, h])
      | .unused => decidable_of_iff (LongFits k rest) (by simp [LongFits, h])
      | .long => decidable_of_iff (k + 13 < 256 ∧ LongFits (k + 13) rest) (by simp [LongFits, h])
      | .short => decidable_of_iff (LongFits 0 rest) (by simp [LongFits, h])

/-- The directories `.` and `..` are not given a long name. -/
def DotsPlain : ℕ → List (List UInt8) → Prop
  | _, [] => True
  | k, slot :: rest =>
      match slotKind slot with
      | .last => True
      | .unused => DotsPlain k rest
      | .long => DotsPlain (k + 13) rest
      | .short => (IsDots slot → slotIsDirectory slot = true → k = 0) ∧ DotsPlain 0 rest

/-- The loop sees that the directory ends: it sees the end mark, or there is none before a mark behind the
last cluster that the loop heeds. -/
def EndSeen (t : FatType) (size : ℕ) : List (List UInt8) → Prop
  | [] => t = .fat32
  | data :: ds =>
      HasMark (readSlots size data) ∨
        (((∀ slot ∈ allSlots size data, slotKind slot ≠ .last) ∨ ds = []) ∧ EndSeen t size ds)

namespace FatMount

variable (m : FatMount Unit) (size : ℕ)

/-- The tree of the directories that are read for the directory at a cluster is finite. -/
inductive LoopTree : ℕ → Prop
  | mk {cluster : ℕ} {ds : List (List UInt8)} : m.Clusters size cluster ds →
      (∀ slot ∈ readDirs 0 (seenSlots size ds), LoopTree (slotCluster slot)) → LoopTree cluster

/-- The directory at `c` contains one at `c'` that is read for it. -/
def Opens (c c' : ℕ) : Prop :=
  ∃ ds, m.Clusters size c ds ∧ ∃ slot ∈ readDirs 0 (seenSlots size ds), slotCluster slot = c'

/-- In the directory and those that are read for it, no long entry finds `lfnbuf` full. -/
def FitFrom (c : ℕ) : Prop :=
  ∀ c', Relation.ReflTransGen (m.Opens size) c c' →
    ∀ ds, m.Clusters size c' ds → LongFits 0 (seenSlots size ds)

/-- The loop takes the end of a directory and its two dot entries for what they are. -/
def Seen (c : ℕ) : Prop :=
  (∀ ds, m.Chain c ds → EndSeen m.info.fatType size ds) ∧
    ∀ ds, m.Clusters size c ds → DotsPlain 0 (seenSlots size ds)

/-- This holds of the directory and of those that are read for it. -/
def SeenFrom (c : ℕ) : Prop :=
  ∀ c', Relation.ReflTransGen (m.Opens size) c c' → m.Seen size c'

end FatMount

/-! ### Entries up to the mark -/

section Slots

variable {size : ℕ} {slots slots' : List (List UInt8)} {slot : List UInt8}

theorem beforeMark_append_of_mark (h : HasMark slots) :
    beforeMark (slots ++ slots') = beforeMark slots := by
  unfold beforeMark
  obtain ⟨slot, hmem, hlast⟩ := h
  rw [List.takeWhile_append, if_neg]
  intro hlen
  have hall := List.takeWhile_eq_self_iff.mp
    ((List.takeWhile_prefix (fun slot => slotKind slot ≠ .last)).eq_of_length hlen) slot hmem
  simp [hlast] at hall

theorem beforeMark_append_of_not (h : ∀ slot ∈ slots, slotKind slot ≠ .last) :
    beforeMark (slots ++ slots') = slots ++ beforeMark slots' := by
  unfold beforeMark
  rw [List.takeWhile_append_of_pos fun slot hslot => by simpa using h slot hslot]

theorem allSlots_split (size : ℕ) (data : List UInt8) :
    ∃ more, allSlots size data = readSlots size data ++ more := by
  refine ⟨((List.range (size / 32)).drop ((size - 1) / 32)).map fun k =>
    (data.drop (32 * k)).take 33, ?_⟩
  have htake : (List.range (size / 32)).take ((size - 1) / 32) = List.range ((size - 1) / 32) := by
    rw [List.take_range, Nat.min_eq_left (by omega)]
  unfold allSlots readSlots
  rw [← htake, ← List.map_append, List.take_append_drop]

/-- What a loop sees of a cluster before an end mark stands before it. -/
theorem readSlots_before {data : List UInt8} {rest : List (List UInt8)}
    (h : slot ∈ beforeMark (readSlots size data)) :
    slot ∈ beforeMark (allSlots size data ++ rest) := by
  obtain ⟨more, hmore⟩ := allSlots_split size data
  rw [hmore, List.append_assoc]
  by_cases hmark : HasMark (readSlots size data)
  · rwa [beforeMark_append_of_mark hmark]
  · rw [beforeMark_append_of_not fun s hs hlast => hmark ⟨s, hs, hlast⟩]
    exact List.mem_append_left _ (List.takeWhile_subset _ h)

/-- A loop that sees the end of a directory reads a part of its chain. -/
theorem EndSeen.clusters {m : FatMount Unit} {cluster : ℕ} {ds : List (List UInt8)}
    (hchain : m.Chain cluster ds) (h : EndSeen m.info.fatType size ds) :
    ∃ ds', m.Clusters size cluster ds' ∧ ∀ slot ∈ beforeMark (seenSlots size ds'),
      slot ∈ beforeMark (ds.flatMap (allSlots size)) := by
  -- a directory of which one cluster is read
  have hone : ∀ data (rest : List (List UInt8)), ∀ slot ∈ beforeMark (seenSlots size [data]),
      slot ∈ beforeMark (allSlots size data ++ rest) := by
    intro data rest slot hslot
    unfold seenSlots at hslot
    rw [List.flatMap_cons, List.flatMap_nil, List.append_nil] at hslot
    exact readSlots_before hslot
  induction hchain with
  | @last cluster next data hread hend =>
      by_cases hmark : HasMark (readSlots size data)
      · exact ⟨[data], .mark hread hmark, hone data _⟩
      · have hfat32 : m.info.fatType = .fat32 := (h.resolve_left hmark).2
        rw [hfat32] at hend
        exact ⟨[data], .stop hread hmark hend, hone data _⟩
  | @more cluster next data ds hread hend hchain ih =>
      by_cases hmark : HasMark (readSlots size data)
      · exact ⟨[data], .mark hread hmark, hone data _⟩
      · obtain ⟨hrest, hseen⟩ := h.resolve_left hmark
        obtain ⟨ds', hds', hbefore⟩ := ih hseen
        have hall : ∀ slot ∈ allSlots size data, slotKind slot ≠ .last := by
          apply hrest.resolve_right
          rintro rfl
          cases hchain
        refine ⟨data :: ds', .more hread hmark (FatType.follows hend) hds', fun slot hslot => ?_⟩
        unfold seenSlots at hslot
        rw [List.flatMap_cons, beforeMark_append_of_not fun s hs hlast => hmark ⟨s, hs, hlast⟩]
          at hslot
        rw [List.flatMap_cons, beforeMark_append_of_not hall]
        obtain hslot | hslot := List.mem_append.mp hslot
        · obtain ⟨more, hmore⟩ := allSlots_split size data
          rw [hmore]
          exact List.mem_append_left _ (List.mem_append_left _ hslot)
        · exact List.mem_append_right _ (hbefore slot hslot)

theorem shortIgnored_dots (h : IsDots slot) : shortIgnored slot = true := by
  have hname : vfatShortName slot = .ok none := by
    unfold vfatShortName
    obtain h | h := h <;> rw [h] <;> decide
  unfold shortIgnored
  rw [hname]

/-- The directories read are live ones. -/
theorem readDirs_live : ∀ {k : ℕ} {slots : List (List UInt8)}, DotsPlain k slots →
    ∀ slot ∈ readDirs k slots, slot ∈ beforeMark slots ∧ LiveSubdirectory slot
  | _, [], _, slot, hslot => by cases hslot
  | k, s :: rest, h, slot, hslot => by
      have hcons : slotKind s ≠ .last → beforeMark (s :: rest) = s :: beforeMark rest := fun hs => by
        unfold beforeMark
        rw [List.takeWhile_cons_of_pos (by simpa using hs)]
      have hlater : slotKind s ≠ .last → slot ∈ beforeMark rest ∧ LiveSubdirectory slot →
          slot ∈ beforeMark (s :: rest) ∧ LiveSubdirectory slot := fun hs hlive => by
        rw [hcons hs]
        exact ⟨List.mem_cons_of_mem _ hlive.1, hlive.2⟩
      unfold readDirs at hslot
      unfold DotsPlain at h
      cases hkind : slotKind s with
      | last =>
          rw [hkind] at hslot
          cases hslot
      | unused =>
          rw [hkind] at hslot h
          exact hlater (by rw [hkind]; decide) (readDirs_live h slot hslot)
      | long =>
          rw [hkind] at hslot h
          exact hlater (by rw [hkind]; decide) (readDirs_live h slot hslot)
      | short =>
          rw [hkind] at hslot h
          obtain ⟨hdots, hrest⟩ := h
          simp only at hslot
          split_ifs at hslot with hdir
          · obtain rfl | hslot := List.mem_cons.mp hslot
            · refine ⟨?_, hkind, hdir.1, fun hd => ?_⟩
              · rw [hcons (by rw [hkind]; decide)]
                exact List.mem_cons_self
              · have := hdir.2 (hdots hd hdir.1)
                rw [shortIgnored_dots hd] at this
                cases this
            · exact hlater (by rw [hkind]; decide) (readDirs_live hrest slot hslot)
          · exact hlater (by rw [hkind]; decide) (readDirs_live hrest slot hslot)

end Slots

/-! ### Walks that end -/

section Ends

/-- There is room for the entries in the table so far. -/
def FatState.SizeOk (fs : FatState Unit) : Prop := fs.fentries.length ≤ fs.fentriesSize

/-- With enough room for nested calls and rounds, the directory is read. -/
def Reads (read : ℕ → DirReader Unit) (cluster : ℕ) : Prop :=
  ∀ fs : FatState Unit, fs.SizeOk →
    ∃ N r, (∀ n ≥ N, read n cluster fs = .ok r) ∧ r.2.SizeOk

variable {read : ℕ → DirReader Unit} {slot : List UInt8} {c : FatContents} {fs : FatState Unit}

theorem addEntry_total (entry : List UInt8) (h : fs.SizeOk) :
    ∃ p, fs.addEntry entry = .ok p ∧ p.2.SizeOk := by
  unfold FatState.SizeOk at h
  unfold FatState.addEntry
  by_cases hfull : fs.fentriesSize ≤ fs.fentries.length
  · simp only [if_pos hfull]
    rw [if_pos (by omega)]
    refine ⟨_, rfl, ?_⟩
    show (fs.fentries ++ [entry]).length ≤ fs.fentriesSize + 32
    rw [List.length_append, List.length_singleton]
    omega
  · simp only [if_neg hfull]
    rw [if_pos (by omega)]
    refine ⟨_, rfl, ?_⟩
    show (fs.fentries ++ [entry]).length ≤ fs.fentriesSize
    rw [List.length_append, List.length_singleton]
    omega

theorem addNode_total (name : List UInt8) (h : fs.SizeOk)
    (hsub : slotIsDirectory slot = true → Reads read (slotCluster slot)) :
    ∃ N r, (∀ n ≥ N, addNode (read n) name slot c fs = .ok r) ∧ r.2.SizeOk := by
  obtain ⟨⟨id, fs₁⟩, hadd, h₁⟩ := addEntry_total (slot.take 32) h
  unfold addNode
  rw [hadd]
  simp only [ok_bind]
  by_cases hdir : slotIsDirectory slot = true
  · obtain ⟨N, ⟨sub, fs₂⟩, hread, h₂⟩ := hsub hdir fs₁ h₁
    refine ⟨N, ⟨c.addDirectory (dirNode name id slot sub), fs₂⟩, fun n hn => ?_, h₂⟩
    rw [if_pos hdir, hread n hn, ok_bind]
  · exact ⟨0, ⟨c.addFile (fileNode name id slot), fs₁⟩, fun n _ => by rw [if_neg hdir], h₁⟩

theorem entryName_total (lfnbuf : List UInt8) (hslot : slot.length = 33) :
    ∃ name, entryName lfnbuf slot = .ok name := by
  unfold entryName
  by_cases hlfn : lfnbuf = []
  · obtain ⟨r, hr⟩ := vfatShortName_total (show 11 ≤ slot.length by omega)
    exact ⟨r.map cString, by rw [if_pos hlfn, hr, ok_bind]⟩
  · exact ⟨some (cString lfnbuf), if_neg hlfn⟩

/-- The entries that are ignored: those with such a short name and nothing in `lfnbuf`. -/
theorem entryName_ok {lfnbuf : List UInt8} {name : Option (List UInt8)}
    (h : entryName lfnbuf slot = .ok name) :
    name = none ↔ lfnbuf.length = 0 ∧ shortIgnored slot = true := by
  unfold entryName at h
  rw [List.length_eq_zero_iff]
  by_cases hlfn : lfnbuf = []
  · rw [if_pos hlfn] at h
    obtain ⟨r, hr, h⟩ := bind_ok.mp h
    rw [← Except.ok.inj h]
    unfold shortIgnored
    rw [hr]
    cases r with
    | none => simp [hlfn]
    | some name => simp
  · rw [if_neg hlfn] at h
    rw [← Except.ok.inj h]
    simp [hlfn]

theorem lfnChars_length (slot : List UInt8) : (lfnChars slot).length = 13 := rfl

/-- A walk ends if the long entries fit and the directories on the way are read. -/
theorem walk_total : ∀ {slots : List (List UInt8)} (lfnbuf : List UInt8) (c : FatContents)
    {fs : FatState Unit}, (∀ slot ∈ readDirs lfnbuf.length slots, Reads read (slotCluster slot)) →
    (∀ slot ∈ slots, slot.length = 33) → LongFits lfnbuf.length slots → fs.SizeOk →
    ∃ N r, (∀ n ≥ N, walk (read n) slots lfnbuf c fs = .ok r) ∧ r.2.SizeOk
  | [], _, c, fs, _, _, _, hsize => ⟨0, (c, fs), fun _ _ => rfl, hsize⟩
  | slot :: rest, lfnbuf, c, fs, hsub, hlen, hfit, hsize => by
      have hrest : ∀ slot ∈ rest, slot.length = 33 :=
        fun s hs => hlen s (List.mem_cons_of_mem slot hs)
      unfold readDirs at hsub
      unfold LongFits at hfit
      cases hkind : slotKind slot with
      | last => exact ⟨0, (c, fs), fun _ _ => by simp only [walk, hkind], hsize⟩
      | unused =>
          rw [hkind] at hsub hfit
          obtain ⟨N, r, hwalk, hr⟩ := walk_total lfnbuf c hsub hrest hfit hsize
          exact ⟨N, r, fun n hn => by simp only [walk, hkind, hwalk n hn], hr⟩
      | long =>
          rw [hkind] at hsub hfit
          obtain ⟨hroom, hfit⟩ := hfit
          have hcount : (lfnbuf ++ lfnChars slot).length = lfnbuf.length + 13 := by
            rw [List.length_append, lfnChars_length]
          obtain ⟨N, r, hwalk, hr⟩ := walk_total (lfnbuf ++ lfnChars slot) c
            (by rwa [hcount]) hrest (by rwa [hcount]) hsize
          refine ⟨N, r, fun n hn => ?_, hr⟩
          simp only [walk, hkind]
          rw [if_neg (by omega), hwalk n hn]
      | short =>
          rw [hkind] at hsub hfit
          simp only at hsub
          obtain ⟨name, hname⟩ := entryName_total lfnbuf (hlen slot List.mem_cons_self)
          have hlater : ∀ s ∈ readDirs 0 rest, Reads read (slotCluster s) := by
            intro s hs
            apply hsub
            split_ifs
            · exact List.mem_cons_of_mem slot hs
            · exact hs
          cases name with
          | none =>
              obtain rfl := entryName_none hname
              obtain ⟨N, r, hwalk, hr⟩ := walk_total [] c hlater hrest hfit hsize
              refine ⟨N, r, fun n hn => ?_, hr⟩
              simp only [walk, hkind, hname, ok_bind]
              exact hwalk n hn
          | some name =>
              have hthis : slotIsDirectory slot = true → Reads read (slotCluster slot) := by
                intro hdir
                have hnamed : lfnbuf.length = 0 → shortIgnored slot = false := by
                  intro hk
                  by_contra hignored
                  cases (entryName_ok hname).mpr ⟨hk, by simpa using hignored⟩
                apply hsub
                rw [if_pos ⟨hdir, hnamed⟩]
                exact List.mem_cons_self
              obtain ⟨N, ⟨c₁, fs₁⟩, hadd, h₁⟩ := addNode_total name (c := c) hsize hthis
              obtain ⟨N', r, hwalk, hr⟩ := walk_total [] c₁ hlater hrest hfit h₁
              refine ⟨max N N', r, fun n hn => ?_, hr⟩
              simp only [walk, hkind, hname, ok_bind, hadd n (by omega)]
              exact hwalk n (by omega)

/-- Conversely, in a walk that has ended the long entries fitted and the directories were read. -/
theorem walk_ended {readDirectory : DirReader Unit} {r : FatContents × FatState Unit} :
    ∀ {slots : List (List UInt8)} {lfnbuf : List UInt8} {c : FatContents} {fs : FatState Unit},
      (∀ slot ∈ slots, slot.length = 33) → walk readDirectory slots lfnbuf c fs = .ok r →
      LongFits lfnbuf.length slots ∧ ∀ slot ∈ readDirs lfnbuf.length slots,
        ∃ fs₁ r₁, readDirectory (slotCluster slot) fs₁ = .ok r₁
  | [], lfnbuf, c, fs, _, _ => ⟨trivial, fun _ h => (by cases h)⟩
  | slot :: rest, lfnbuf, c, fs, hlen, h => by
      have hrest : ∀ slot ∈ rest, slot.length = 33 :=
        fun s hs => hlen s (List.mem_cons_of_mem slot hs)
      unfold readDirs LongFits
      cases hkind : slotKind slot with
      | last => exact ⟨trivial, fun _ h => (by cases h)⟩
      | unused =>
          simp only [walk, hkind] at h
          exact walk_ended hrest h
      | long =>
          simp only [walk, hkind] at h
          by_cases hfull : lfnbuf.length + 13 ≥ 256
          · rw [if_pos hfull] at h
            cases h
          · rw [if_neg hfull] at h
            have hend := walk_ended hrest h
            rw [List.length_append, lfnChars_length] at hend
            exact ⟨⟨by omega, hend.1⟩, hend.2⟩
      | short =>
          simp only [walk, hkind] at h
          obtain ⟨name, hname, h⟩ := bind_ok.mp h
          cases name with
          | none =>
              have hignored := ((entryName_ok hname).mp rfl).2
              obtain rfl := entryName_none hname
              obtain ⟨hfit, hread⟩ := walk_ended hrest h
              refine ⟨hfit, fun s hs => hread s ?_⟩
              simp only [hignored] at hs
              simpa using hs
          | some name =>
              obtain ⟨⟨c₁, fs₁⟩, hadd, h⟩ := bind_ok.mp h
              obtain ⟨hfit, hread⟩ := walk_ended hrest h
              refine ⟨hfit, fun s hs => ?_⟩
              simp only at hs
              split_ifs at hs with hdir
              · obtain rfl | hs := List.mem_cons.mp hs
                · unfold addNode at hadd
                  obtain ⟨⟨id, fs₂⟩, -, hadd⟩ := bind_ok.mp hadd
                  simp only at hadd
                  rw [if_pos hdir.1] at hadd
                  obtain ⟨r₁, hr₁, -⟩ := bind_ok.mp hadd
                  exact ⟨fs₂, r₁, hr₁⟩
                · exact hread s hs
              · exact hread s hs

end Ends

/-! ### Directories that are read to their end -/

namespace FatMount

variable {m : FatMount Unit} {size : ℕ}

theorem readSlots_slot_length {data slot : List UInt8} (hlen : data.length = size)
    (h : slot ∈ readSlots size data) : slot.length = 33 := by
  unfold readSlots at h
  obtain ⟨k, hk, rfl⟩ := List.mem_map.mp h
  have hk := List.mem_range.mp hk
  rw [List.length_take, List.length_drop]
  omega

theorem Clusters.length_eq (hreg : m.Regular size) {cluster : ℕ} {ds : List (List UInt8)}
    (h : m.Clusters size cluster ds) : ∀ data ∈ ds, data.length = size := by
  induction h with
  | mark hread _ =>
      intro data hdata
      rw [List.mem_singleton.mp hdata]
      exact hreg.length _ _ _ hread
  | stop hread _ _ =>
      intro data hdata
      rw [List.mem_singleton.mp hdata]
      exact hreg.length _ _ _ hread
  | more hread _ _ _ ih =>
      intro data hdata
      obtain rfl | hdata := List.mem_cons.mp hdata
      · exact hreg.length _ _ _ hread
      · exact ih data hdata

theorem seenSlots_slot_length {ds : List (List UInt8)} (h : ∀ data ∈ ds, data.length = size) :
    ∀ slot ∈ seenSlots size ds, slot.length = 33 := by
  intro slot hslot
  obtain ⟨data, hdata, hslot⟩ := List.mem_flatMap.mp hslot
  exact readSlots_slot_length (h data hdata) hslot

theorem Clusters.unique {cluster : ℕ} {ds ds' : List (List UInt8)} (h : m.Clusters size cluster ds)
    (h' : m.Clusters size cluster ds') : ds = ds' := by
  -- the cluster is the same in both
  have hsame : ∀ {cluster data next data' next'},
      m.vfatReadCluster () cluster = .ok (data, next, ()) →
      m.vfatReadCluster () cluster = .ok (data', next', ()) → data = data' ∧ next = next' := by
    intro cluster data next data' next' hread hread'
    rw [hread] at hread'
    simpa using hread'
  induction h generalizing ds' with
  | mark hread hmark =>
      cases h' with
      | mark hread' _ => rw [(hsame hread hread').1]
      | stop hread' hno _ => exact absurd hmark ((hsame hread hread').1 ▸ hno)
      | more hread' hno _ _ => exact absurd hmark ((hsame hread hread').1 ▸ hno)
  | stop hread hno hend =>
      cases h' with
      | mark hread' hmark => exact absurd hmark ((hsame hread hread').1 ▸ hno)
      | stop hread' _ _ => rw [(hsame hread hread').1]
      | more hread' _ hnext _ =>
          obtain ⟨-, rfl⟩ := hsame hread hread'
          omega
  | more hread hno hnext hds ih =>
      cases h' with
      | mark hread' hmark => exact absurd hmark ((hsame hread hread').1 ▸ hno)
      | stop hread' _ hend =>
          obtain ⟨-, rfl⟩ := hsame hread hread'
          omega
      | more hread' _ _ hds' =>
          obtain ⟨rfl, rfl⟩ := hsame hread hread'
          rw [ih hds']

theorem FitFrom.fits {cluster : ℕ} {ds : List (List UInt8)} (h : m.FitFrom size cluster)
    (hds : m.Clusters size cluster ds) : LongFits 0 (seenSlots size ds) :=
  h cluster .refl ds hds

theorem FitFrom.tail {cluster c' : ℕ} (h : m.FitFrom size cluster)
    (hopens : m.Opens size cluster c') : m.FitFrom size c' :=
  fun c'' hreach => h c'' (.head hopens hreach)

/-- A finite tree whose long entries fit is read. -/
theorem LoopTree.reads (hreg : m.Regular size) {cluster : ℕ} (htree : m.LoopTree size cluster)
    (hfit : m.FitFrom size cluster) : Reads m.vfatReadDirectory cluster := by
  induction htree with
  | @mk cluster ds hds _ ih =>
      intro fs hsize
      have hsub : ∀ slot ∈ readDirs 0 (seenSlots size ds),
          Reads m.vfatReadDirectory (slotCluster slot) := fun slot hslot =>
        ih slot hslot (hfit.tail ⟨ds, hds, slot, hslot, rfl⟩)
      obtain ⟨N, r, hwalk, hr⟩ := walk_total [] noContents hsub
        (seenSlots_slot_length (hds.length_eq hreg)) (hfit.fits hds) hsize
      refine ⟨max N (seenSlots size ds).length + 1, r, fun n hn => ?_, hr⟩
      obtain ⟨n, rfl⟩ := Nat.exists_eq_add_of_le' (show 1 ≤ n by omega)
      exact (vfatReadDirectory_walk hreg hds fs r).2 n (by omega) (hwalk n (by omega))

/-- What a reading that returns has met. -/
theorem vfatReadDirectory_ended (hreg : m.Regular size) {n cluster : ℕ} {fs : FatState Unit}
    {r : FatContents × FatState Unit} (h : m.vfatReadDirectory (n + 1) cluster fs = .ok r) :
    ∃ ds, m.Clusters size cluster ds ∧ LongFits 0 (seenSlots size ds) ∧
      ∀ slot ∈ readDirs 0 (seenSlots size ds),
        ∃ fs₁ r₁, m.vfatReadDirectory n (slotCluster slot) fs₁ = .ok r₁ := by
  obtain ⟨ds, hds⟩ := vfatReadDirectory_clusters hreg h
  have hwalk := (vfatReadDirectory_walk hreg hds fs r).1 n h
  obtain ⟨hfit, hread⟩ := walk_ended (seenSlots_slot_length (hds.length_eq hreg)) hwalk
  exact ⟨ds, hds, hfit, hread⟩

theorem vfatReadDirectory_loopTree (hreg : m.Regular size) (n : ℕ) :
    ∀ {cluster : ℕ} {fs : FatState Unit} {r : FatContents × FatState Unit},
      m.vfatReadDirectory n cluster fs = .ok r → m.LoopTree size cluster := by
  induction n with
  | zero =>
      intro cluster fs r h
      cases h
  | succ n ih =>
      intro cluster fs r h
      obtain ⟨ds, hds, -, hread⟩ := vfatReadDirectory_ended hreg h
      refine .mk hds fun slot hslot => ?_
      obtain ⟨fs₁, r₁, hr₁⟩ := hread slot hslot
      exact ih hr₁

theorem vfatReadDirectory_fits (hreg : m.Regular size) {n cluster : ℕ} {fs : FatState Unit}
    {r : FatContents × FatState Unit} (h : m.vfatReadDirectory n cluster fs = .ok r) :
    m.FitFrom size cluster := by
  intro c' hreach
  -- each directory on the way is read
  have hread : ∃ n fs r, m.vfatReadDirectory n c' fs = .ok r := by
    induction hreach with
    | refl => exact ⟨n, fs, r, h⟩
    | tail _ hopens ih =>
        obtain ⟨n, fs, r, h⟩ := ih
        obtain ⟨ds, hds, slot, hslot, rfl⟩ := hopens
        cases n with
        | zero => cases h
        | succ n =>
            obtain ⟨ds', hds', -, hread⟩ := vfatReadDirectory_ended hreg h
            obtain rfl := hds.unique hds'
            obtain ⟨fs₁, r₁, hr₁⟩ := hread slot hslot
            exact ⟨n, fs₁, r₁, hr₁⟩
  intro ds hds
  obtain ⟨n, fs, r, h⟩ := hread
  cases n with
  | zero => cases h
  | succ n =>
      obtain ⟨ds', hds', hfit, -⟩ := vfatReadDirectory_ended hreg h
      rwa [hds.unique hds']

/-- A finite tree whose ends are seen is finite for the loops. -/
theorem Tree.loopTree {cluster : ℕ} (htree : m.Tree size cluster)
    (hseen : m.SeenFrom size cluster) : m.LoopTree size cluster := by
  induction htree with
  | @mk cluster ds hchain _ ih =>
      obtain ⟨hend, hdots⟩ := hseen cluster .refl
      obtain ⟨ds', hds', hbefore⟩ := EndSeen.clusters hchain (hend ds hchain)
      refine .mk hds' fun slot hslot => ?_
      obtain ⟨hmem, hlive⟩ := readDirs_live (hdots ds' hds') slot hslot
      exact ih slot (hbefore slot hmem) hlive fun c' hreach =>
        hseen c' (.head ⟨ds', hds', slot, hslot, rfl⟩ hreach)

end FatMount

/-- With enough room for nested calls and rounds, the function returns. -/
def ReadingEnds (read : ℕ → DirReader Unit) (cluster : ℕ) : Prop :=
  ∀ fs : FatState Unit, fs.SizeOk → ∃ n r, read n cluster fs = .ok r

namespace FatMount

variable {m : FatMount Unit} {size : ℕ}

theorem vfatReadDirectory_returns_iff (hreg : m.Regular size) (cluster : ℕ) :
    ReadingEnds m.vfatReadDirectory cluster ↔ m.LoopTree size cluster ∧ m.FitFrom size cluster := by
  constructor
  · intro h
    obtain ⟨n, r, h⟩ := h ⟨[], 32, ()⟩ (Nat.zero_le 32)
    exact ⟨vfatReadDirectory_loopTree hreg n h, vfatReadDirectory_fits hreg h⟩
  · rintro ⟨htree, hfit⟩ fs hsize
    obtain ⟨N, r, hread, -⟩ := htree.reads hreg hfit fs hsize
    exact ⟨N, r, hread N le_rfl⟩

/-- A directory with a long entry too many is not read to its end. -/
theorem not_readingEnds (hreg : m.Regular size) {cluster : ℕ} {ds : List (List UInt8)}
    (hds : m.Clusters size cluster ds) (hfull : ¬LongFits 0 (seenSlots size ds)) :
    ¬ReadingEnds m.vfatReadDirectory cluster :=
  fun h => hfull (((vfatReadDirectory_returns_iff hreg cluster).mp h).2.fits hds)

theorem vfatReadRootSector_ended (hreg : m.Regular size) {sector : ℕ} {data : List UInt8}
    (hroot : m.RootSector sector data) {n : ℕ} {fs : FatState Unit} {r : FatContents × FatState Unit}
    (h : m.vfatReadRootSector n sector fs = .ok r) :
    LongFits 0 (readSlots m.bytesPerSector data) ∧
      ∀ slot ∈ readDirs 0 (readSlots m.bytesPerSector data),
        m.LoopTree size (slotCluster slot) ∧ m.FitFrom size (slotCluster slot) := by
  have hlen : ∀ slot ∈ readSlots m.bytesPerSector data, slot.length = 33 :=
    fun slot hslot => readSlots_slot_length hroot.length hslot
  obtain ⟨hfit, hread⟩ := walk_ended hlen ((vfatReadRootSector_walk hroot _ r).1 n h)
  refine ⟨hfit, fun slot hslot => ?_⟩
  obtain ⟨fs₁, r₁, hr₁⟩ := hread slot hslot
  exact ⟨vfatReadDirectory_loopTree hreg n hr₁, vfatReadDirectory_fits hreg hr₁⟩

theorem vfatReadRootSector_returns_iff (hreg : m.Regular size) {sector : ℕ} {data : List UInt8}
    (hroot : m.RootSector sector data) :
    ReadingEnds m.vfatReadRootSector sector ↔ LongFits 0 (readSlots m.bytesPerSector data) ∧
      ∀ slot ∈ readDirs 0 (readSlots m.bytesPerSector data),
        m.LoopTree size (slotCluster slot) ∧ m.FitFrom size (slotCluster slot) := by
  constructor
  · intro h
    obtain ⟨n, r, h⟩ := h ⟨[], 32, ()⟩ (Nat.zero_le 32)
    exact vfatReadRootSector_ended hreg hroot h
  · rintro ⟨hfit, hsub⟩ fs hsize
    have hlen : ∀ slot ∈ readSlots m.bytesPerSector data, slot.length = 33 :=
      fun slot hslot => readSlots_slot_length hroot.length hslot
    obtain ⟨N, r, hwalk, -⟩ := walk_total [] noContents
      (fun slot hslot => (hsub slot hslot).1.reads hreg (hsub slot hslot).2) hlen hfit hsize
    refine ⟨max N ((readSlots m.bytesPerSector data).length + 1), r, ?_⟩
    exact (vfatReadRootSector_walk hroot fs r).2 _ (by omega) (hwalk _ (by omega))

end FatMount

/-- **Termination.**  A directory is read to its end exactly when the tree that the loops follow is
finite and no long entry in it finds `lfnbuf` full; so it is with the root directory of FAT12 and
FAT16.  The tree is finite if the one on the volume is and the loops see the ends of its
directories. -/
theorem vfat_read_returns_iff (m : FatMount Unit) (size : ℕ) (hreg : m.Regular size) :
    (∀ cluster, ReadingEnds m.vfatReadDirectory cluster ↔
      m.LoopTree size cluster ∧ m.FitFrom size cluster) ∧
    (∀ sector data, m.RootSector sector data →
      (ReadingEnds m.vfatReadRootSector sector ↔ LongFits 0 (readSlots m.bytesPerSector data) ∧
        ∀ slot ∈ readDirs 0 (readSlots m.bytesPerSector data),
          m.LoopTree size (slotCluster slot) ∧ m.FitFrom size (slotCluster slot))) ∧
    ∀ cluster, m.Tree size cluster → m.SeenFrom size cluster → m.LoopTree size cluster :=
  ⟨FatMount.vfatReadDirectory_returns_iff hreg,
    fun _ _ hroot => FatMount.vfatReadRootSector_returns_iff hreg hroot,
    fun _ htree hseen => htree.loopTree hseen⟩

/-- A directory with a directory, which has a file with a long name. -/
def nestedEntries (i : ℕ) : List UInt8 :=
  if i = 2 then directoryEntry (letterName 0x44) 0x10 3 0 else if i = 3 then namedEntries.flatten else []

/-- The small volume with both. -/
def nestedMount : FatMount Unit := smallMount 1 [] nestedEntries

theorem nestedMount_regular : nestedMount.Regular 512 := by
  have hlen : ∀ i, (nestedEntries i).length ≤ 512 := by
    intro i
    unfold nestedEntries
    split_ifs
    · decide
    · decide
    · exact Nat.zero_le _
  exact smallMount_regular (n := 1) (Nat.zero_le _) hlen (by decide) rfl

theorem nestedMount_outer : nestedMount.Clusters 512 2 [fullBlock (nestedEntries 2)] :=
  .mark (smallMount_readCluster (by decide) (by decide) (smallMount_next (by decide)))
    (fullBlock_hasMark (by decide))

theorem nestedMount_inner : nestedMount.Clusters 512 3 [fullBlock (nestedEntries 3)] :=
  .mark (smallMount_readCluster (by decide) (by decide) (smallMount_next (by decide)))
    (fullBlock_hasMark (by decide))

/-- Both directories are read to their ends. -/
theorem vfat_read_returns_iff_nestedMount : ReadingEnds nestedMount.vfatReadDirectory 2 := by
  have houter : ∀ slot ∈ readDirs 0 (seenSlots 512 [fullBlock (nestedEntries 2)]), slotCluster slot = 3 := by
    decide +kernel
  have hinner : readDirs 0 (seenSlots 512 [fullBlock (nestedEntries 3)]) = [] := by decide +kernel
  have hfits : LongFits 0 (seenSlots 512 [fullBlock (nestedEntries 2)]) ∧
      LongFits 0 (seenSlots 512 [fullBlock (nestedEntries 3)]) := by decide +kernel
  refine ((vfat_read_returns_iff nestedMount 512 nestedMount_regular).1 2).mpr ⟨?_, fun c hreach => ?_⟩
  · refine .mk nestedMount_outer fun slot hslot => ?_
    rw [houter slot hslot]
    refine .mk nestedMount_inner fun slot hslot => ?_
    rw [hinner] at hslot
    exact absurd hslot List.not_mem_nil
  · have hcases : c = 2 ∨ c = 3 := by
      induction hreach with
      | refl => exact .inl rfl
      | tail _ hopens ih =>
          obtain ⟨ds, hds, slot, hslot, rfl⟩ := hopens
          cases ih with
          | inl htwo =>
              subst htwo
              obtain rfl := hds.unique nestedMount_outer
              exact .inr (houter slot hslot)
          | inr hthree =>
              subst hthree
              obtain rfl := hds.unique nestedMount_inner
              rw [hinner] at hslot
              exact absurd hslot List.not_mem_nil
    intro ds hds
    cases hcases with
    | inl htwo =>
        subst htwo
        exact hds.unique nestedMount_outer ▸ hfits.1
    | inr hthree =>
        subst hthree
        exact hds.unique nestedMount_inner ▸ hfits.2

/-- A directory with a file whose name has 248 characters, in a cluster of two sectors. -/
def crowdedEntries : List UInt8 :=
  (longEntries (List.replicate 248 0x61) 0).flatten ++ directoryEntry (letterName 0x41) 0x20 3 5

/-- The small volume with this directory. -/
def crowdedMount : FatMount Unit :=
  smallMount 2 [] fun i => ((crowdedEntries.drop (512 * (i - 2))).take 512)

/-- The contents of its cluster. -/
def crowdedCluster : List UInt8 := crowdedEntries ++ List.replicate 352 0

theorem crowdedMount_read :
    crowdedMount.vfatReadCluster () 2 = .ok (crowdedCluster, 0xFFF, ()) := by
  decide +kernel

theorem crowdedMount_clusters : crowdedMount.Clusters 1024 2 [crowdedCluster] :=
  .mark crowdedMount_read ⟨List.replicate 33 0, by decide +kernel, by decide⟩

theorem crowdedCluster_full : ¬LongFits 0 (seenSlots 1024 [crowdedCluster]) := by
  decide +kernel

/-- There are no directories in it, but it is not read to its end. -/
theorem vfat_read_hangs : crowdedMount.Tree 1024 2 ∧
    ¬ReadingEnds crowdedMount.vfatReadDirectory 2 := by
  have hreg : crowdedMount.Regular 1024 := by
    refine smallMount_regular (n := 2) (Nat.zero_le _) (fun i => ?_) (by decide) rfl
    rw [List.length_take]
    omega
  constructor
  · refine .mk (.last crowdedMount_read (show 0xFF8 ≤ 0xFFF by decide)) fun slot hslot hlive => ?_
    have hfiles : ∀ slot ∈ beforeMark ([crowdedCluster].flatMap (allSlots 1024)),
        slotIsDirectory slot = false := by decide +kernel
    obtain ⟨-, hdir, -⟩ := hlive
    rw [hfiles slot hslot] at hdir
    cases hdir
  · exact FatMount.not_readingEnds hreg crowdedMount_clusters crowdedCluster_full

end GalaxyOS
