import GalaxyOS.Lib.Loops
import GalaxyOS.Fs.FatNodes

/-! # Directories as lists of entries

The reading loops of `vfat.c` jump from cluster to cluster while they take the entries one by one.
What they do with an entry does not depend on where it stands, so a loop is a walk over the list of
the entries that it gets to see (`FatMount.loop_walk`).

It does not see all of them: the test `i + 32 >= cluster_size` is true at the last entry of a
cluster already.  And it sees others: a number below 0x0FFFFFF8 is followed like the number of a
cluster, so on FAT12 and FAT16 the mark behind the last cluster is (`FatMount.Clusters`).

`loop_clusters` and `loop_sector` say the converse, where a loop that returns has come to an end;
`dirBody_eq` is the one round from which all of them are made. -/

namespace GalaxyOS

open Transition

/-! ### The walk -/

/-- The entries that a loop sees in `size` bytes: all but the last one. -/
def readSlots (size : ℕ) (data : List UInt8) : List (List UInt8) :=
  (List.range ((size - 1) / 32)).map fun k => (data.drop (32 * k)).take 33

/-- All the entries of `size` bytes. -/
def allSlots (size : ℕ) (data : List UInt8) : List (List UInt8) :=
  (List.range (size / 32)).map fun k => (data.drop (32 * k)).take 33

section Walk

variable {δ : Type}

/-- What a loop does with the entries that it sees. -/
def walk (readDirectory : DirReader δ) :
    List (List UInt8) → List UInt8 → FatContents → FatState δ →
      Except Fault (FatContents × FatState δ)
  | [], _, c, fs => .ok (c, fs)
  | slot :: rest, lfnbuf, c, fs =>
      match slotKind slot with
      | .last => .ok (c, fs)
      | .unused => walk readDirectory rest lfnbuf c fs
      | .long =>
          if lfnbuf.length + 13 ≥ 256 then .error .timeout
          else walk readDirectory rest (lfnbuf ++ lfnChars slot) c fs
      | .short => do
          match ← entryName lfnbuf slot with
          | none => walk readDirectory rest lfnbuf c fs
          | some name => do
              let (c, fs) ← addNode readDirectory name slot c fs
              walk readDirectory rest [] c fs

/-- One of the entries is an end mark. -/
def HasMark (slots : List (List UInt8)) : Prop := ∃ slot ∈ slots, slotKind slot = .last

end Walk

/-! ### Clusters -/

/-- The entries that the loop over these clusters sees. -/
def seenSlots (size : ℕ) (ds : List (List UInt8)) : List (List UInt8) := ds.flatMap (readSlots size)

namespace FatMount

/-- The contents of the clusters from `cluster` on that a loop reads: up to an end mark, or up to a
number that it takes for the end of the chain. -/
inductive Clusters (m : FatMount Unit) (size : ℕ) : ℕ → List (List UInt8) → Prop
  | mark {cluster next : ℕ} {data : List UInt8} :
      m.vfatReadCluster () cluster = .ok (data, next, ()) → HasMark (readSlots size data) →
      Clusters m size cluster [data]
  | stop {cluster next : ℕ} {data : List UInt8} :
      m.vfatReadCluster () cluster = .ok (data, next, ()) → ¬HasMark (readSlots size data) →
      0x0FFFFFF8 ≤ next → Clusters m size cluster [data]
  | more {cluster next : ℕ} {data : List UInt8} {ds : List (List UInt8)} :
      m.vfatReadCluster () cluster = .ok (data, next, ()) → ¬HasMark (readSlots size data) →
      next < 0x0FFFFFF8 → Clusters m size next ds → Clusters m size cluster (data :: ds)

/-- A volume on which clusters have `size` bytes, at least two entries. -/
structure Regular (m : FatMount Unit) (size : ℕ) : Prop where
  clusterSize : m.clusterSize = .ok size
  size_gt : 32 < size
  length : ∀ cluster data next, m.vfatReadCluster () cluster = .ok (data, next, ()) →
    data.length = size

end FatMount

/-! ### Loops as walks -/

section Loop

variable {advance : DirScan → FatState Unit → Except Fault (Option DirScan × FatState Unit)}
  {readDirectory : DirReader Unit}

/-- The scan after an entry. -/
def DirScan.after (d : DirScan) (lfnbuf : List UInt8) (c : FatContents) : DirScan :=
  { d with lfnbuf := lfnbuf, contents := c, i := d.i + 32 }

/-- From `d` on, the loop gets to see these entries, up to an end mark. -/
def Feeds (advance : DirScan → FatState Unit → Except Fault (Option DirScan × FatState Unit)) :
    List (List UInt8) → DirScan → Prop
  | [], d => ∀ fs, advance d fs = .ok (none, fs)
  | slot :: rest, d => ∃ d₁ : DirScan,
      (∀ fs, advance d fs = .ok (some d₁, fs)) ∧ (∀ fs, advance d₁ fs = .ok (some d₁, fs)) ∧
      slotAt d₁.data d₁.i = .ok slot ∧ d₁.lfnbuf = d.lfnbuf ∧ d₁.contents = d.contents ∧
      (slotKind slot ≠ .last → ∀ lfnbuf c, Feeds advance rest (d₁.after lfnbuf c))

variable (readDirectory) in
/-- What a round of the loop does, by the entry that it sees. -/
theorem dirBody_eq {d d₁ : DirScan} {fs : FatState Unit} {slot : List UInt8}
    (hadv : advance d fs = .ok (some d₁, fs)) (hslot : slotAt d₁.data d₁.i = .ok slot) :
    dirBody advance readDirectory (d, fs) = (
      match slotKind slot with
      | .last => .ok (.inr (d₁.contents, fs))
      | .unused => .ok (.inl (d₁.after d₁.lfnbuf d₁.contents, fs))
      | .long =>
          if d₁.lfnbuf.length + 13 ≥ 256 then .ok (.inl (d₁, fs))
          else .ok (.inl (d₁.after (d₁.lfnbuf ++ lfnChars slot) d₁.contents, fs))
      | .short => do
          match ← entryName d₁.lfnbuf slot with
          | none => .ok (.inl (d₁.after d₁.lfnbuf d₁.contents, fs))
          | some name => do
              let (c, fs) ← addNode readDirectory name slot d₁.contents fs
              .ok (.inl (d₁.after [] c, fs))) := by
  unfold dirBody readSlot
  rw [hadv, ok_bind]
  simp only
  rw [hslot, ok_bind]
  cases hkind : slotKind slot with
  | last => rfl
  | unused => rfl
  | long =>
      simp only
      by_cases hfull : d₁.lfnbuf.length + 13 ≥ 256
      · rw [if_pos hfull, if_pos hfull]
        rfl
      · rw [if_neg hfull, if_neg hfull]
        rfl
  | short =>
      simp only
      cases entryName d₁.lfnbuf slot with
      | error e => rfl
      | ok name =>
          cases name with
          | none => rfl
          | some name =>
              simp only [ok_bind]
              cases addNode readDirectory name slot d₁.contents fs with
              | error e => rfl
              | ok p => rfl

/-- A loop that returns has done the walk, and with a round for each entry and one more the loop
returns what the walk does. -/
theorem loop_walk {slots : List (List UInt8)} {d : DirScan} (h : Feeds advance slots d)
    (fs : FatState Unit) (r : FatContents × FatState Unit) :
    (∀ n, whileE .timeout (dirBody advance readDirectory) n (d, fs) = .ok r →
      walk readDirectory slots d.lfnbuf d.contents fs = .ok r) ∧
    (walk readDirectory slots d.lfnbuf d.contents fs = .ok r → ∀ n > slots.length,
      whileE .timeout (dirBody advance readDirectory) n (d, fs) = .ok r) := by
  induction slots generalizing d fs with
  | nil =>
      have hbody : dirBody advance readDirectory (d, fs) = .ok (.inr (d.contents, fs)) := by
        unfold dirBody
        rw [h fs, ok_bind]
      constructor
      · intro n hrun
        obtain ⟨n, rfl⟩ := whileE_first hrun
        rw [whileE_exit hbody] at hrun
        exact hrun
      · intro hwalk n hn
        obtain ⟨n, rfl⟩ := Nat.exists_eq_add_of_lt hn
        rw [whileE_exit hbody]
        exact hwalk
  | cons slot rest ih =>
      obtain ⟨d₁, hadv, hstay, hslot, hlfn, hcontents, hrest⟩ := h
      have hbody := dirBody_eq readDirectory (hadv fs) hslot
      -- a round that goes on at the next entry
      have hgo : ∀ lfnbuf c fs', slotKind slot ≠ .last →
          dirBody advance readDirectory (d, fs) = .ok (.inl (d₁.after lfnbuf c, fs')) →
          walk readDirectory (slot :: rest) d.lfnbuf d.contents fs =
            walk readDirectory rest lfnbuf c fs' →
          (∀ n, whileE .timeout (dirBody advance readDirectory) n (d, fs) = .ok r →
            walk readDirectory (slot :: rest) d.lfnbuf d.contents fs = .ok r) ∧
          (walk readDirectory (slot :: rest) d.lfnbuf d.contents fs = .ok r →
            ∀ n > (slot :: rest).length,
              whileE .timeout (dirBody advance readDirectory) n (d, fs) = .ok r) := by
        intro lfnbuf c fs' hkind hround hwalk
        obtain ⟨hsound, hcomplete⟩ := ih (hrest hkind lfnbuf c) fs'
        rw [hwalk]
        constructor
        · intro n hrun
          obtain ⟨n, rfl⟩ := whileE_first hrun
          rw [whileE_go hround] at hrun
          exact hsound n hrun
        · intro hok n hn
          obtain ⟨n, rfl⟩ := Nat.exists_eq_add_of_lt (Nat.lt_of_le_of_lt (Nat.zero_le _) hn)
          rw [Nat.zero_add] at hn ⊢
          rw [whileE_go hround]
          exact hcomplete hok n (by rw [List.length_cons] at hn; omega)
      -- a round that fails
      have hfail : ∀ e, dirBody advance readDirectory (d, fs) = .error e →
          walk readDirectory (slot :: rest) d.lfnbuf d.contents fs = .error e →
          (∀ n, whileE .timeout (dirBody advance readDirectory) n (d, fs) = .ok r →
            walk readDirectory (slot :: rest) d.lfnbuf d.contents fs = .ok r) ∧
          (walk readDirectory (slot :: rest) d.lfnbuf d.contents fs = .ok r →
            ∀ n > (slot :: rest).length,
              whileE .timeout (dirBody advance readDirectory) n (d, fs) = .ok r) := by
        intro e hround hwalk
        constructor
        · intro n hrun
          obtain ⟨n, rfl⟩ := whileE_first hrun
          rw [whileE_error hround] at hrun
          cases hrun
        · intro hok
          rw [hwalk] at hok
          cases hok
      rw [hlfn, hcontents] at hbody
      cases hkind : slotKind slot with
      | last =>
          rw [hkind] at hbody
          simp only [walk, hkind]
          constructor
          · intro n hrun
            obtain ⟨n, rfl⟩ := whileE_first hrun
            rw [whileE_exit hbody] at hrun
            exact hrun
          · intro hok n hn
            obtain ⟨n, rfl⟩ := Nat.exists_eq_add_of_lt (Nat.lt_of_le_of_lt (Nat.zero_le _) hn)
            rw [Nat.zero_add, whileE_exit hbody]
            exact hok
      | unused =>
          rw [hkind] at hbody
          exact hgo _ _ fs (by rw [hkind]; decide) hbody (by simp only [walk, hkind])
      | long =>
          rw [hkind] at hbody
          simp only at hbody
          by_cases hfull : d.lfnbuf.length + 13 ≥ 256
          · -- the same entry is looked at for ever
            rw [if_pos hfull] at hbody
            have hagain : dirBody advance readDirectory (d₁, fs) = .ok (.inl (d₁, fs)) := by
              rw [dirBody_eq readDirectory (hstay fs) hslot, hkind, hlfn]
              exact if_pos hfull
            constructor
            · intro n hrun
              obtain ⟨n, rfl⟩ := whileE_first hrun
              rw [whileE_go hbody, whileE_stuck hagain] at hrun
              cases hrun
            · intro hok
              simp only [walk, hkind] at hok
              rw [if_pos hfull] at hok
              cases hok
          · rw [if_neg hfull] at hbody
            refine hgo _ _ fs (by rw [hkind]; decide) hbody ?_
            simp only [walk, hkind]
            exact if_neg hfull
      | short =>
          rw [hkind] at hbody
          simp only at hbody
          cases hname : entryName d.lfnbuf slot with
          | error e =>
              rw [hname] at hbody
              exact hfail e hbody (by simp only [walk, hkind, hname]; rfl)
          | ok name =>
              rw [hname, ok_bind] at hbody
              cases name with
              | none =>
                  exact hgo _ _ fs (by rw [hkind]; decide) hbody
                    (by simp only [walk, hkind, hname, ok_bind])
              | some name =>
                  simp only at hbody
                  cases hadd : addNode readDirectory name slot d.contents fs with
                  | error e =>
                      rw [hadd] at hbody
                      exact hfail e hbody (by simp only [walk, hkind, hname, ok_bind, hadd]; rfl)
                  | ok p =>
                      rw [hadd, ok_bind] at hbody
                      exact hgo _ _ p.2 (by rw [hkind]; decide) hbody
                        (by simp only [walk, hkind, hname, ok_bind, hadd])

end Loop

/-! ### What the loops see -/

section Feed

theorem readSlots_length (size : ℕ) (data : List UInt8) :
    (readSlots size data).length = (size - 1) / 32 := by
  unfold readSlots
  rw [List.length_map, List.length_range]

theorem readSlots_drop {size k : ℕ} (data : List UInt8) (hk : k < (size - 1) / 32) :
    (readSlots size data).drop k =
      (data.drop (32 * k)).take 33 :: (readSlots size data).drop (k + 1) := by
  rw [List.drop_eq_getElem_cons (by rwa [readSlots_length])]
  unfold readSlots
  rw [List.getElem_map, List.getElem_range]

theorem readSlots_drop_end {size k : ℕ} (data : List UInt8) (hk : ¬k < (size - 1) / 32) :
    (readSlots size data).drop k = [] := by
  apply List.drop_eq_nil_of_le
  rw [readSlots_length]
  omega

theorem slotAt_place {data : List UInt8} {size k : ℕ} (hlen : data.length = size)
    (hk : k < (size - 1) / 32) : slotAt data (32 * k) = .ok ((data.drop (32 * k)).take 33) := by
  unfold slotAt
  rw [if_pos (by omega)]

theorem not_hasMark_nil : ¬HasMark [] := by
  rintro ⟨slot, hslot, -⟩
  cases hslot

theorem HasMark.tail {slot : List UInt8} {rest : List (List UInt8)} (h : HasMark (slot :: rest))
    (hkind : slotKind slot ≠ .last) : HasMark rest := by
  obtain ⟨s, hs, hlast⟩ := h
  obtain rfl | hs := List.mem_cons.mp hs
  · exact absurd hlast hkind
  · exact ⟨s, hs, hlast⟩

namespace FatMount

variable {m : FatMount Unit} {size : ℕ}

theorem nextCluster_stay (hreg : m.Regular size) {d : DirScan} (hi : d.i + 32 < size)
    (fs : FatState Unit) : m.nextCluster d fs = .ok (some d, fs) := by
  unfold nextCluster
  rw [hreg.clusterSize, ok_bind, if_neg (by omega)]

/-- What a loop sees behind the cluster that it stands in, with `slots` left of that. -/
def Behind (m : FatMount Unit) (size next : ℕ) (slots rest : List (List UInt8)) : Prop :=
  HasMark slots ∧ rest = [] ∨ 0x0FFFFFF8 ≤ next ∧ rest = [] ∨
    next < 0x0FFFFFF8 ∧ ∃ ds, m.Clusters size next ds ∧ rest = seenSlots size ds

theorem Behind.tail {next : ℕ} {slot : List UInt8} {slots rest : List (List UInt8)}
    (h : m.Behind size next (slot :: slots) rest) (hkind : slotKind slot ≠ .last) :
    m.Behind size next slots rest :=
  h.imp (fun h => ⟨h.1.tail hkind, h.2⟩) id

/-- A cluster is read, and what it holds is followed by what the loop sees behind it. -/
theorem Clusters.first {cluster : ℕ} {ds : List (List UInt8)} (h : m.Clusters size cluster ds) :
    ∃ data next rest, m.vfatReadCluster () cluster = .ok (data, next, ()) ∧
      seenSlots size ds = readSlots size data ++ rest ∧
      m.Behind size next (readSlots size data) rest := by
  unfold seenSlots
  cases h with
  | @mark _ next data hread hmark =>
      refine ⟨data, next, [], hread, ?_, .inl ⟨hmark, rfl⟩⟩
      rw [List.flatMap_cons, List.flatMap_nil]
  | @stop _ next data hread _ hend =>
      refine ⟨data, next, [], hread, ?_, .inr (.inl ⟨hend, rfl⟩)⟩
      rw [List.flatMap_cons, List.flatMap_nil]
  | @more _ next data ds hread _ hnext h =>
      refine ⟨data, next, ds.flatMap (readSlots size), hread, ?_, .inr (.inr ⟨hnext, ds, h, rfl⟩)⟩
      rw [List.flatMap_cons]

/-- The loop of `vfat_read_directory` sees the rest of the cluster and then the others. -/
theorem Regular.feeds (hreg : m.Regular size) {slots : List (List UInt8)} :
    ∀ {d : DirScan} {k : ℕ} {rest : List (List UInt8)}, d.data.length = size → d.i = 32 * k →
      slots = (readSlots size d.data).drop k ++ rest →
      m.Behind size d.nextcluster ((readSlots size d.data).drop k) rest →
      Feeds m.nextCluster slots d := by
  have hgt := hreg.size_gt
  induction slots with
  | nil =>
      intro d k rest hlen hi hslots hbehind fs
      obtain ⟨hdrop, rfl⟩ := List.append_eq_nil_iff.mp hslots.symm
      have hk : ¬k < (size - 1) / 32 := by
        intro hk
        rw [readSlots_drop d.data hk] at hdrop
        cases hdrop
      rw [hdrop] at hbehind
      obtain ⟨hmark, -⟩ | ⟨hend, -⟩ | ⟨-, ds, hds, hnone⟩ := hbehind
      · exact absurd hmark not_hasMark_nil
      · unfold nextCluster
        rw [hreg.clusterSize, ok_bind, if_pos (by omega), if_neg (by omega)]
      · obtain ⟨data, next, rest, -, hseen, -⟩ := hds.first
        have hfirst := congrArg List.length (hnone.trans hseen)
        rw [List.length_append, readSlots_length, List.length_nil] at hfirst
        omega
  | cons slot slots ih =>
      -- a place inside the cluster
      have hinside : ∀ {d : DirScan} {k : ℕ} {rest : List (List UInt8)}, d.data.length = size →
          d.i = 32 * k → k < (size - 1) / 32 →
          slot :: slots = (readSlots size d.data).drop k ++ rest →
          m.Behind size d.nextcluster ((readSlots size d.data).drop k) rest →
          (∀ fs, m.nextCluster d fs = .ok (some d, fs)) ∧ slotAt d.data d.i = .ok slot ∧
            (slotKind slot ≠ .last → ∀ lfnbuf c, Feeds m.nextCluster slots (d.after lfnbuf c)) := by
        intro d k rest hlen hi hk hslots hbehind
        rw [readSlots_drop d.data hk] at hbehind
        rw [readSlots_drop d.data hk, List.cons_append] at hslots
        obtain ⟨rfl, hrest⟩ := List.cons.inj hslots
        refine ⟨nextCluster_stay hreg (by omega), ?_, fun hkind lfnbuf c => ?_⟩
        · rw [hi, slotAt_place hlen hk]
        · refine ih (k := k + 1) hlen ?_ hrest (hbehind.tail hkind)
          show d.i + 32 = 32 * (k + 1)
          omega
      intro d k rest hlen hi hslots hbehind
      by_cases hk : k < (size - 1) / 32
      · obtain ⟨hstay, hslot, hrest⟩ := hinside hlen hi hk hslots hbehind
        exact ⟨d, hstay, hstay, hslot, rfl, rfl, hrest⟩
      · -- the next cluster is read
        rw [readSlots_drop_end d.data hk] at hslots hbehind
        rw [List.nil_append] at hslots
        obtain ⟨hmark, -⟩ | ⟨-, rfl⟩ | ⟨hnext, ds, hds, rfl⟩ := hbehind
        · exact absurd hmark not_hasMark_nil
        · cases hslots
        · obtain ⟨data, next, rest, hread, hseen, hbehind⟩ := hds.first
          have hload : ∀ fs, m.nextCluster d fs =
              .ok (some { d with data := data, nextcluster := next, i := 0 }, fs) := by
            intro fs
            unfold nextCluster
            rw [hreg.clusterSize, ok_bind, if_pos (by omega), if_pos hnext, hread, ok_bind]
          obtain ⟨hstay, hslot, hrest⟩ := hinside
            (d := { d with data := data, nextcluster := next, i := 0 }) (k := 0)
            (hreg.length _ _ _ hread) rfl (by omega) (hslots.trans hseen) hbehind
          exact ⟨_, hload, hstay, hslot, rfl, rfl, hrest⟩

end FatMount

end Feed

/-! ### The two loops -/

namespace FatMount

variable {m : FatMount Unit} {size : ℕ}

theorem vfatReadDirectory_walk (hreg : m.Regular size) {cluster : ℕ} {ds : List (List UInt8)}
    (hds : m.Clusters size cluster ds) (fs : FatState Unit) (r : FatContents × FatState Unit) :
    (∀ n, m.vfatReadDirectory (n + 1) cluster fs = .ok r →
      walk (m.vfatReadDirectory n) (seenSlots size ds) [] noContents fs = .ok r) ∧
    (∀ n ≥ (seenSlots size ds).length,
      walk (m.vfatReadDirectory n) (seenSlots size ds) [] noContents fs = .ok r →
        m.vfatReadDirectory (n + 1) cluster fs = .ok r) := by
  obtain ⟨data, next, rest, hread, hseen, hbehind⟩ := hds.first
  have hfeeds := hreg.feeds (d := ⟨data, next, 0, [], noContents⟩) (k := 0)
    (hreg.length _ _ _ hread) rfl hseen hbehind
  have hrun : ∀ n, m.vfatReadDirectory (n + 1) cluster fs =
      whileE .timeout (dirBody m.nextCluster (m.vfatReadDirectory n)) (n + 1)
        (⟨data, next, 0, [], noContents⟩, fs) := by
    intro n
    rw [vfatReadDirectory, hread, ok_bind]
  constructor
  · intro n h
    rw [hrun] at h
    exact (loop_walk hfeeds fs r).1 _ h
  · intro n hn h
    rw [hrun]
    exact (loop_walk hfeeds fs r).2 h _ (Nat.lt_succ_of_le hn)

/-- A cluster with an end to what comes behind it. -/
theorem clusters_of_end {cluster next : ℕ} {data : List UInt8}
    (hread : m.vfatReadCluster () cluster = .ok (data, next, ()))
    (h : HasMark ((readSlots size data).drop 0) ∨ 0x0FFFFFF8 ≤ next ∨ ∃ ds, m.Clusters size next ds) :
    ∃ ds, m.Clusters size cluster ds := by
  rw [List.drop_zero] at h
  by_cases hmark : HasMark (readSlots size data)
  · exact ⟨_, .mark hread hmark⟩
  · by_cases hlast : next < 0x0FFFFFF8
    · obtain hnone | ⟨ds, hds⟩ := h.resolve_left hmark
      · exact absurd hnone (by omega)
      · exact ⟨_, .more hread hmark hlast hds⟩
    · exact ⟨_, .stop hread hmark (by omega)⟩

/-- After a round that finds an entry, a loop that returns is at an end mark, or it goes on, behind
the entry or with the same one. -/
theorem loop_round
    {advance : DirScan → FatState Unit → Except Fault (Option DirScan × FatState Unit)}
    {readDirectory : DirReader Unit} {d d₁ : DirScan} {fs : FatState Unit} {slot : List UInt8}
    {n : ℕ} {r : FatContents × FatState Unit} (hadv : advance d fs = .ok (some d₁, fs))
    (hslot : slotAt d₁.data d₁.i = .ok slot)
    (h : whileE .timeout (dirBody advance readDirectory) (n + 1) (d, fs) = .ok r) :
    slotKind slot = .last ∨
      whileE .timeout (dirBody advance readDirectory) n (d₁, fs) = .ok r ∨
      ∃ lfnbuf c fs',
        whileE .timeout (dirBody advance readDirectory) n (d₁.after lfnbuf c, fs') = .ok r := by
  have hbody := dirBody_eq readDirectory hadv hslot
  have hlater : ∀ {lfnbuf c fs'},
      dirBody advance readDirectory (d, fs) = .ok (.inl (d₁.after lfnbuf c, fs')) →
      ∃ lfnbuf c fs',
        whileE .timeout (dirBody advance readDirectory) n (d₁.after lfnbuf c, fs') = .ok r := by
    intro lfnbuf c fs' hgo
    rw [whileE_go hgo] at h
    exact ⟨_, _, _, h⟩
  cases hkind : slotKind slot with
  | last => exact .inl rfl
  | unused =>
      rw [hkind] at hbody
      exact .inr (.inr (hlater hbody))
  | long =>
      rw [hkind] at hbody
      simp only at hbody
      by_cases hfull : d₁.lfnbuf.length + 13 ≥ 256
      · rw [if_pos hfull] at hbody
        rw [whileE_go hbody] at h
        exact .inr (.inl h)
      · rw [if_neg hfull] at hbody
        exact .inr (.inr (hlater hbody))
  | short =>
      rw [hkind] at hbody
      simp only at hbody
      cases hname : entryName d₁.lfnbuf slot with
      | error e =>
          rw [hname] at hbody
          rw [whileE_error hbody] at h
          cases h
      | ok name =>
          rw [hname, ok_bind] at hbody
          cases name with
          | none => exact .inr (.inr (hlater hbody))
          | some name =>
              simp only at hbody
              cases hadd : addNode readDirectory name slot d₁.contents fs with
              | error e =>
                  rw [hadd] at hbody
                  rw [whileE_error hbody] at h
                  cases h
              | ok p =>
                  rw [hadd, ok_bind] at hbody
                  exact .inr (.inr (hlater hbody))

/-- A loop that returns has come to an end of its clusters. -/
theorem loop_clusters (hreg : m.Regular size) {readDirectory : DirReader Unit}
    {r : FatContents × FatState Unit} (n : ℕ) :
    ∀ {d : DirScan} {k : ℕ} {fs : FatState Unit}, d.data.length = size → d.i = 32 * k →
      whileE .timeout (dirBody m.nextCluster readDirectory) n (d, fs) = .ok r →
      HasMark ((readSlots size d.data).drop k) ∨ 0x0FFFFFF8 ≤ d.nextcluster ∨
        ∃ ds, m.Clusters size d.nextcluster ds := by
  have hgt := hreg.size_gt
  induction n with
  | zero =>
      intro d k fs _ _ h
      cases h
  | succ n ih =>
      -- a round that finds an entry
      have hround : ∀ {d d₁ : DirScan} {k : ℕ} {fs : FatState Unit}, d₁.data.length = size →
          d₁.i = 32 * k → k < (size - 1) / 32 → m.nextCluster d fs = .ok (some d₁, fs) →
          whileE .timeout (dirBody m.nextCluster readDirectory) (n + 1) (d, fs) = .ok r →
          HasMark ((readSlots size d₁.data).drop k) ∨ 0x0FFFFFF8 ≤ d₁.nextcluster ∨
            ∃ ds, m.Clusters size d₁.nextcluster ds := by
        intro d d₁ k fs hlen hi hk hadv h
        have hslot := slotAt_place hlen hk
        rw [← hi] at hslot
        obtain hlast | hsame | ⟨lfnbuf, c, fs', hgo⟩ := loop_round hadv hslot h
        · refine .inl ⟨_, ?_, hlast⟩
          rw [readSlots_drop d₁.data hk, hi]
          exact List.mem_cons_self
        · exact ih hlen hi hsame
        · refine (ih (d := d₁.after lfnbuf c) (k := k + 1) hlen ?_ hgo).imp (fun hmark => ?_) id
          · show d₁.i + 32 = 32 * (k + 1)
            omega
          · obtain ⟨slot, hmem, hlast⟩ := hmark
            rw [readSlots_drop d₁.data hk]
            exact ⟨slot, List.mem_cons_of_mem _ hmem, hlast⟩
      intro d k fs hlen hi h
      by_cases hk : k < (size - 1) / 32
      · exact hround hlen hi hk (nextCluster_stay hreg (by omega) fs) h
      · by_cases hnext : d.nextcluster < 0x0FFFFFF8
        · -- the next cluster is read
          cases hread : m.vfatReadCluster () d.nextcluster with
          | error e =>
              have hbody : dirBody m.nextCluster readDirectory (d, fs) = .error e := by
                unfold dirBody nextCluster
                simp only
                rw [hreg.clusterSize, ok_bind, if_pos (by omega), if_pos hnext, hread]
                rfl
              rw [whileE_error hbody] at h
              cases h
          | ok p =>
              obtain ⟨data, next, ⟨⟩⟩ := p
              have hload : m.nextCluster d fs =
                  .ok (some { d with data := data, nextcluster := next, i := 0 }, fs) := by
                unfold nextCluster
                rw [hreg.clusterSize, ok_bind, if_pos (by omega), if_pos hnext, hread, ok_bind]
              have hend := hround (k := 0) (hreg.length _ _ _ hread) rfl (by omega) hload h
              exact .inr (.inr (clusters_of_end hread hend))
        · exact .inr (.inl (by omega))

theorem vfatReadDirectory_clusters (hreg : m.Regular size) {n cluster : ℕ} {fs : FatState Unit}
    {r : FatContents × FatState Unit} (h : m.vfatReadDirectory n cluster fs = .ok r) :
    ∃ ds, m.Clusters size cluster ds := by
  cases n with
  | zero => cases h
  | succ n =>
      rw [vfatReadDirectory] at h
      obtain ⟨⟨data, next, ⟨⟩⟩, hread, h⟩ := bind_ok.mp h
      exact clusters_of_end hread (loop_clusters hreg _ (d := ⟨data, next, 0, [], noContents⟩)
        (k := 0) (hreg.length _ _ _ hread) rfl h)

/-- The sector `sector` holds `data`, and if there is no end mark in it, then the one behind it, which
is read as well, can be read. -/
structure RootSector (m : FatMount Unit) (sector : ℕ) (data : List UInt8) : Prop where
  read : m.readSector () sector = .ok (data, ())
  length : data.length = m.bytesPerSector
  next : HasMark (readSlots m.bytesPerSector data) ∨
    ∃ data', m.readSector () (wrap32 (sector + 1)) = .ok (data', ())

theorem nextSector_stay {sector : ℕ} {d : DirScan} (hi : d.i + 32 < m.bytesPerSector)
    (fs : FatState Unit) : m.nextSector sector d fs = .ok (some d, fs) := by
  unfold nextSector
  rw [if_neg (by omega)]

theorem RootSector.feeds {sector : ℕ} {data : List UInt8} (h : m.RootSector sector data)
    {slots : List (List UInt8)} : ∀ {d : DirScan} {k : ℕ}, d.data = data → d.i = 32 * k →
      slots = (readSlots m.bytesPerSector data).drop k →
      (HasMark slots ∨ ∃ data', m.readSector () (wrap32 (sector + 1)) = .ok (data', ())) →
      Feeds (m.nextSector sector) slots d := by
  have hlen := h.length
  induction slots with
  | nil =>
      intro d k _ hi hslots hnext fs
      obtain ⟨data', hnext⟩ := hnext.resolve_left not_hasMark_nil
      have hk : ¬k < (m.bytesPerSector - 1) / 32 := by
        intro hk
        rw [readSlots_drop data hk] at hslots
        cases hslots
      unfold nextSector
      rw [if_pos (by omega), hnext, ok_bind]
  | cons slot rest ih =>
      intro d k hd hi hslots hnext
      by_cases hk : k < (m.bytesPerSector - 1) / 32
      · have hstay : ∀ fs, m.nextSector sector d fs = .ok (some d, fs) :=
          nextSector_stay (by omega)
        rw [readSlots_drop data hk] at hslots
        obtain ⟨rfl, hrest⟩ := List.cons.inj hslots
        refine ⟨d, hstay, hstay, ?_, rfl, rfl, fun hkind lfnbuf c => ?_⟩
        · rw [hd, hi, slotAt_place hlen hk]
        · refine ih (k := k + 1) hd ?_ hrest (hnext.imp (fun h => h.tail hkind) id)
          show d.i + 32 = 32 * (k + 1)
          omega
      · rw [readSlots_drop_end data hk] at hslots
        cases hslots

theorem vfatReadRootSector_walk {sector : ℕ} {data : List UInt8} (h : m.RootSector sector data)
    (fs : FatState Unit) (r : FatContents × FatState Unit) :
    (∀ n, m.vfatReadRootSector n sector fs = .ok r →
      walk (m.vfatReadDirectory n) (readSlots m.bytesPerSector data) [] noContents fs = .ok r) ∧
    (∀ n > (readSlots m.bytesPerSector data).length,
      walk (m.vfatReadDirectory n) (readSlots m.bytesPerSector data) [] noContents fs = .ok r →
        m.vfatReadRootSector n sector fs = .ok r) := by
  have hfeeds := h.feeds (d := ⟨data, 0, 0, [], noContents⟩) (k := 0) rfl rfl rfl h.next
  have hrun : ∀ n, m.vfatReadRootSector n sector fs =
      whileE .timeout (dirBody (m.nextSector sector) (m.vfatReadDirectory n)) n
        (⟨data, 0, 0, [], noContents⟩, fs) := by
    intro n
    rw [vfatReadRootSector, h.read, ok_bind]
  constructor
  · intro n hok
    rw [hrun] at hok
    exact (loop_walk hfeeds fs r).1 _ hok
  · intro n hn hok
    rw [hrun]
    exact (loop_walk hfeeds fs r).2 hok _ hn

/-- A loop over a sector that returns has come to an end mark, or it has read the next sector. -/
theorem loop_sector {sector : ℕ} {readDirectory : DirReader Unit} {r : FatContents × FatState Unit}
    (n : ℕ) : ∀ {d : DirScan} {k : ℕ} {fs : FatState Unit}, d.data.length = m.bytesPerSector →
      d.i = 32 * k →
      whileE .timeout (dirBody (m.nextSector sector) readDirectory) n (d, fs) = .ok r →
      HasMark ((readSlots m.bytesPerSector d.data).drop k) ∨
        ∃ data', m.readSector () (wrap32 (sector + 1)) = .ok (data', ()) := by
  induction n with
  | zero =>
      intro d k fs _ _ h
      cases h
  | succ n ih =>
      intro d k fs hlen hi h
      by_cases hk : k < (m.bytesPerSector - 1) / 32
      · have hslot := slotAt_place hlen hk
        rw [← hi] at hslot
        obtain hlast | hsame | ⟨lfnbuf, c, fs', hgo⟩ :=
          loop_round (nextSector_stay (by omega) fs) hslot h
        · refine .inl ⟨_, ?_, hlast⟩
          rw [readSlots_drop d.data hk, hi]
          exact List.mem_cons_self
        · exact ih hlen hi hsame
        · refine (ih (d := d.after lfnbuf c) (k := k + 1) hlen ?_ hgo).imp (fun hmark => ?_) id
          · show d.i + 32 = 32 * (k + 1)
            omega
          · obtain ⟨slot, hmem, hlast⟩ := hmark
            rw [readSlots_drop d.data hk]
            exact ⟨slot, List.mem_cons_of_mem _ hmem, hlast⟩
      · cases hread : m.readSector () (wrap32 (sector + 1)) with
        | error e =>
            have hbody : dirBody (m.nextSector sector) readDirectory (d, fs) = .error e := by
              unfold dirBody nextSector
              simp only
              rw [if_pos (by omega), hread]
              rfl
            rw [whileE_error hbody] at h
            cases h
        | ok p => exact .inr ⟨p.1, rfl⟩

end FatMount

/-! ### A small volume, mounted -/

/-- A block that is not full ends with end marks. -/
theorem fullBlock_hasMark {l : List UInt8} (h : l.length ≤ 32 * 13) :
    HasMark (readSlots 512 (fullBlock l)) := by
  refine ⟨List.replicate 33 0, List.mem_map.mpr ⟨13, by decide, ?_⟩, by decide⟩
  unfold fullBlock
  rw [List.drop_append, List.drop_eq_nil_of_le h, List.nil_append, List.drop_replicate,
    List.take_replicate]
  congr 1
  omega

/-- The FAT12 volume of `fatDevice`, with clusters of `spc` sectors; 2 is a chain of its own. -/
def smallMount (spc : UInt8) (root : List UInt8) (cluster : ℕ → List UInt8) : FatMount Unit where
  md := fatDevice [0xF8, 0xFF, 0xFF, 0xFF, 0x0F] root cluster
  blocks := 40
  info := ⟨.fat12, 37 / spc.toNat, 1, 3, 37, 40, 1, 2, none, 1⟩
  fatbs := (fullBlock ((bootSector 40).set 13 spc)).take 90
  fatTable := fullBlock [0xF8, 0xFF, 0xFF, 0xFF, 0x0F]

section SmallMount

variable {spc : UInt8} {root : List UInt8} {cluster : ℕ → List UInt8}

theorem smallMount_block (hroot : root.length ≤ 512) (h : ∀ i, (cluster i).length ≤ 512) (i : ℕ) :
    ((smallMount spc root cluster).md.block () i).2.1.length = 512 := by
  match i with
  | 0 => exact fullBlock_length (l := bootSector 40) (by decide)
  | 1 => exact fullBlock_length (l := [0xF8, 0xFF, 0xFF, 0xFF, 0x0F]) (by decide)
  | 2 => exact fullBlock_length hroot
  | i + 3 => exact fullBlock_length (h (i + 2))

theorem smallMount_readBlocks (hroot : root.length ≤ 512) (h : ∀ i, (cluster i).length ≤ 512)
    (n : ℕ) : ∀ index : ℕ,
    ((smallMount spc root cluster).md.readBlocks () index n).2.1.length = n * 512 := by
  induction n with
  | zero => exact fun _ => rfl
  | succ n ih =>
      intro index
      have hrest := ih (index + 1)
      simp only [Medium.readBlocks, List.length_append]
      rw [smallMount_block hroot h, hrest]
      omega

theorem smallMount_regular {n : ℕ} (hroot : root.length ≤ 512)
    (h : ∀ i, (cluster i).length ≤ 512) (hn : 0 < n)
    (hspc : divide (roundUpInteger (wrap32 (spc.toNat * 512)) 512) 512 = .ok n) :
    (smallMount spc root cluster).Regular (n * 512) where
  clusterSize := by
    unfold FatMount.clusterSize
    have hblocks : (smallMount spc root cluster).vfatSectorsToBlocks
        (smallMount spc root cluster).sectorsPerCluster = .ok n := hspc
    rw [hblocks]
    rfl
  size_gt := by omega
  length c data next hread := by
    have hblocks : (smallMount spc root cluster).vfatSectorsToBlocks
        (smallMount spc root cluster).sectorsPerCluster = .ok n := hspc
    unfold FatMount.vfatReadCluster at hread
    obtain ⟨next', -, hread⟩ := bind_ok.mp hread
    rw [hblocks, ok_bind] at hread
    obtain ⟨lba, -, hread⟩ := bind_ok.mp hread
    obtain ⟨⟨data', disk⟩, hdata, hread⟩ := bind_ok.mp hread
    obtain ⟨rfl, -⟩ := Prod.mk.inj (Except.ok.inj hread)
    unfold FatMount.vfsReadBlocks at hdata
    split_ifs at hdata
    have hfirst : ((smallMount spc root cluster).md.readBlocks () lba n).2.1 = data' :=
      congrArg Prod.fst (Except.ok.inj hdata)
    rw [← hfirst]
    exact smallMount_readBlocks hroot h n lba

theorem smallMount_block_read {i : ℕ} (hi : i < 40) :
    (smallMount spc root cluster).vfsReadBlocks () 1 i =
      .ok (((smallMount spc root cluster).md.block () i).2.1, ()) := by
  have hall : (List.range 1).all (fun j => decide (wrap32 (i + j) < (smallMount spc root cluster).blocks)) =
      true := by
    rw [List.all_eq_true]
    intro j hj
    have hj := List.mem_range.mp hj
    have hwrap : wrap32 (i + j) < 40 := by
      unfold wrap32
      omega
    exact decide_eq_true hwrap
  have hindex : wrap32 i = i := Nat.mod_eq_of_lt (by omega)
  unfold FatMount.vfsReadBlocks
  rw [if_pos hall]
  simp only [Medium.readBlocks, List.append_nil, hindex]

/-- The root directory of a volume whose clusters are sectors. -/
theorem smallMount_sector (hroot : root.length ≤ 32 * 13) :
    (smallMount 1 root cluster).RootSector 2 (fullBlock root) where
  read := by
    have hone : divide (roundUpInteger (wrap32 (1 * 512)) 512) 512 = .ok 1 := rfl
    have hblocks : (smallMount 1 root cluster).vfatSectorsToBlocks 1 = .ok 1 := hone
    have htwo : divide (wrap32 (2 * 512)) 512 = .ok 2 := rfl
    have hlba : (smallMount 1 root cluster).vfatSectorToLba 2 = .ok 2 := htwo
    have hfits : 1 * (smallMount 1 root cluster).md.blocksize ≤ (smallMount 1 root cluster).bytesPerSector :=
      Nat.le_refl 512
    unfold FatMount.readSector
    rw [hblocks, ok_bind, hlba, ok_bind, if_pos hfits]
    exact smallMount_block_read (by decide)
  length := fullBlock_length (by omega)
  next := .inl (fullBlock_hasMark hroot)

/-- A cluster of such a volume. -/
theorem smallMount_readCluster {c next : ℕ} (hlo : 2 ≤ c) (hhi : c < 39)
    (hnext : (smallMount 1 root cluster).vfatNextCluster c = .ok next) :
    (smallMount 1 root cluster).vfatReadCluster () c = .ok (fullBlock (cluster c), next, ()) := by
  obtain ⟨i, rfl⟩ := Nat.exists_eq_add_of_le' hlo
  have hone : divide (roundUpInteger (wrap32 (1 * 512)) 512) 512 = .ok 1 := rfl
  have hblocks : (smallMount 1 root cluster).vfatSectorsToBlocks
      (smallMount 1 root cluster).sectorsPerCluster = .ok 1 := hone
  have hsector : (smallMount 1 root cluster).vfatClusterToSector (i + 2) = i + 3 := by
    show wrap32 (wrap32 (i + 2 + 0xFFFFFFFE) * 1 + 3) = i + 3
    unfold wrap32
    omega
  have hdiv : divide (wrap32 ((i + 3) * 512)) 512 = .ok (i + 3) := by
    have hquot : wrap32 ((i + 3) * 512) / 512 = i + 3 := by
      unfold wrap32
      omega
    unfold divide
    rw [if_neg (by decide), hquot]
  have hlba : (smallMount 1 root cluster).vfatSectorToLba (i + 3) = .ok (i + 3) := hdiv
  unfold FatMount.vfatReadCluster
  rw [hnext, ok_bind, hblocks, ok_bind, hsector, hlba, ok_bind, smallMount_block_read (by omega)]
  rfl

theorem smallMount_next {c : ℕ} (hc : c + c / 2 + 2 ≤ 512) :
    (smallMount spc root cluster).vfatNextCluster c =
      .ok (if c % 2 = 1 then leBytes (smallMount spc root cluster).fatTable (c + c / 2) 2 / 0x10
        else leBytes (smallMount spc root cluster).fatTable (c + c / 2) 2 % 0x1000) := by
  have hwrap : wrap32 (c + c / 2) = c + c / 2 := Nat.mod_eq_of_lt (by omega)
  have hlen : (smallMount spc root cluster).fatTable.length = 512 := fullBlock_length (by decide)
  have hfield : structField (smallMount spc root cluster).fatTable (c + c / 2) 2 =
      .ok (leBytes (smallMount spc root cluster).fatTable (c + c / 2) 2) := if_pos (hlen ▸ hc)
  have hfat12 : (smallMount spc root cluster).info.fatType = .fat12 := rfl
  unfold FatMount.vfatNextCluster
  simp only [hfat12, hwrap, hfield, ok_bind]

end SmallMount

end GalaxyOS
