import Mathlib.Tactic.IntervalCases
import GalaxyOS.Fs.FatWalk

/-! # Long names in a directory

A long name is stored in entries of thirteen UTF-16 units each, the last piece of the name first, in
front of the short entry of the file (`longEntries`).  `struct fat_lfn` is not packed, and so the
driver takes the first character of a piece from the high byte of its first unit.  For a name of
single-byte characters that is zero, and the name in `lfnbuf` is at its end before it begins
(`longName_kept_iff`).

`longEntries_read` shows what the entries of a name leave in `lfnbuf`, `entryName_stored` the name that the
short entry gets from it, and `nodeMade_iff` finds this name in the tree that has been read. -/

namespace GalaxyOS

open Transition

/-! ### Stored names -/

/-- The units of at most thirteen characters, with a terminator and padding if there is room. -/
def pieceUnits (piece : List UInt8) : List UInt8 :=
  (piece.flatMap (fun c => [c, 0]) ++ [0, 0] ++ List.replicate 24 0xFF).take 26

/-- The entry of a piece: the units stand at 1, at 14 and at 28. -/
def longEntry (ordinal sum : UInt8) (piece : List UInt8) : List UInt8 :=
  [ordinal] ++ (pieceUnits piece).take 10 ++ [0x0F, 0, sum] ++ ((pieceUnits piece).drop 10).take 12 ++
    [0, 0] ++ (pieceUnits piece).drop 22

/-- The number of pieces of a name. -/
def pieceCount (name : List UInt8) : ℕ := (name.length + 12) / 13

/-- The ordinal of a piece: the last one, which is stored first, has bit 6 set. -/
def pieceOrdinal (count k : ℕ) : UInt8 :=
  UInt8.ofNat (if k + 1 = count then k + 1 + 0x40 else k + 1)

/-- The entry of the piece `k` of a name. -/
def nameEntry (name : List UInt8) (sum : UInt8) (k : ℕ) : List UInt8 :=
  longEntry (pieceOrdinal (pieceCount name) k) sum ((name.drop (13 * k)).take 13)

/-- The entries of a name, as they are stored. -/
def longEntries (name : List UInt8) (sum : UInt8) : List (List UInt8) :=
  (List.range (pieceCount name)).reverse.map (nameEntry name sum)

/-- A file name: 1 to 255 single-byte characters. -/
structure IsLongName (name : List UInt8) : Prop where
  pos : 1 ≤ name.length
  le : name.length ≤ 255
  noNul : 0 ∉ name

/-! ### What the driver takes out of them -/

section Entry

variable {name slot : List UInt8} {sum : UInt8}

theorem getD_take {data : List UInt8} {n k : ℕ} (h : k < n) :
    (data.take n).getD k 0 = data.getD k 0 := by
  simp only [List.getD_eq_getElem?_getD, List.getElem?_take, if_pos h]

theorem pieceUnits_cons (c : UInt8) (piece : List UInt8) :
    ∃ rest, pieceUnits (c :: piece) = c :: 0 :: rest := by
  exact ⟨_, rfl⟩

theorem pieceUnits_length (piece : List UInt8) : (pieceUnits piece).length = 26 := by
  unfold pieceUnits
  simp only [List.length_take, List.length_append, List.length_replicate, List.length_cons,
    List.length_nil]
  omega

/-- Ordinals go up to 20. -/
theorem pieceOrdinal_mark {count k : ℕ} (hk : k < count) (hcount : count ≤ 20) :
    pieceOrdinal count k ≠ 0 ∧ pieceOrdinal count k ≠ 0xE5 := by
  interval_cases count <;> interval_cases k <;> decide

theorem pieceCount_le (h : name.length ≤ 255) : pieceCount name ≤ 20 := by
  unfold pieceCount
  omega

/-- The entry of a piece is taken for a part of a long name, and its first character for a NUL. -/
theorem longEntry_read {ordinal c : UInt8} {piece : List UInt8} (h0 : ordinal ≠ 0)
    (hE5 : ordinal ≠ 0xE5) (h : slot.take 32 = longEntry ordinal sum (c :: piece)) :
    slotKind slot = .long ∧ ∃ rest, lfnChars slot = 0 :: rest := by
  have hget : ∀ k < 32, slot.getD k 0 = (longEntry ordinal sum (c :: piece)).getD k 0 := by
    intro k hk
    rw [← h, getD_take hk]
  have hlen := pieceUnits_length (c :: piece)
  obtain ⟨units, hunits⟩ := pieceUnits_cons c piece
  have hfirst : slot.getD 0 0 = ordinal := by
    rw [hget 0 (by omega)]
    rfl
  have hattrib : slot.getD 11 0 = 0x0F := by
    rw [hget 11 (by omega)]
    unfold longEntry
    simp [hlen]
  have hchar : slot.getD 2 0 = 0 := by
    rw [hget 2 (by omega)]
    unfold longEntry
    rw [hunits]
    rfl
  constructor
  · unfold slotKind leBytes leBytes
    rw [hfirst, hattrib]
    have h0 : ordinal.toNat ≠ 0 := fun h => h0 (UInt8.toNat_inj.mp h)
    have hE5 : ordinal.toNat ≠ 0xE5 := fun h => hE5 (UInt8.toNat_inj.mp h)
    rw [if_neg (by omega), if_neg (by omega), if_pos (by decide)]
  · unfold lfnChars
    rw [List.map_cons, hchar]
    exact ⟨_, rfl⟩

/-- So it is with all entries of a name. -/
theorem longEntries_read (hname : IsLongName name) (h : slot.take 32 ∈ longEntries name sum) :
    slotKind slot = .long ∧ ∃ rest, lfnChars slot = 0 :: rest := by
  unfold longEntries at h
  obtain ⟨k, hk, hentry⟩ := List.mem_map.mp h
  have hk := List.mem_range.mp (List.mem_reverse.mp hk)
  obtain ⟨h0, hE5⟩ := pieceOrdinal_mark hk (pieceCount_le hname.le)
  have hpiece : 13 * k < name.length := by
    have hpos := hname.pos
    unfold pieceCount at hk
    omega
  obtain ⟨c, piece, hdrop⟩ : ∃ c piece, (name.drop (13 * k)).take 13 = c :: piece := by
    apply List.exists_cons_of_length_pos
    rw [List.length_take, List.length_drop]
    omega
  unfold nameEntry at hentry
  rw [hdrop] at hentry
  exact longEntry_read h0 hE5 hentry.symm

end Entry

/-! ### The characters in `lfnbuf` -/

/-- The characters in `lfnbuf` behind these entries. -/
def pending : List UInt8 → List (List UInt8) → List UInt8
  | lfnbuf, [] => lfnbuf
  | lfnbuf, slot :: rest =>
      match slotKind slot with
      | .last => lfnbuf
      | .unused => pending lfnbuf rest
      | .long => pending (lfnbuf ++ lfnChars slot) rest
      | .short => pending [] rest

/-- In a walk over `before`, `slot` and `rest` that returns `r`, a node of that name is made of
`slot`. -/
def NodeMade (readDirectory : DirReader Unit) (before : List (List UInt8)) (slot : List UInt8)
    (rest : List (List UInt8)) (fs : FatState Unit) (name : List UInt8)
    (r : FatContents × FatState Unit) : Prop :=
  ∃ c₁ fs₁ c₂ fs₂, walk readDirectory before [] noContents fs = .ok (c₁, fs₁) ∧
    addNode readDirectory name slot c₁ fs₁ = .ok (c₂, fs₂) ∧
    walk readDirectory rest [] c₂ fs₂ = .ok r

section Pending

variable {readDirectory : DirReader Unit} {name slot : List UInt8}

/-- An entry is ignored only if `lfnbuf` is empty. -/
theorem entryName_none {lfnbuf : List UInt8} (h : entryName lfnbuf slot = .ok none) :
    lfnbuf = [] := by
  by_contra hne
  unfold entryName at h
  rw [if_neg hne] at h
  cases h

theorem pending_append {before slots : List (List UInt8)} :
    ∀ {lfnbuf : List UInt8}, (∀ slot ∈ before, slotKind slot ≠ .last) →
      pending lfnbuf (before ++ slots) = pending (pending lfnbuf before) slots := by
  induction before with
  | nil => exact fun _ => rfl
  | cons slot before ih =>
      intro lfnbuf h
      have hrest : ∀ s ∈ before, slotKind s ≠ .last := fun s hs => h s (List.mem_cons_of_mem _ hs)
      simp only [List.cons_append, pending]
      cases hkind : slotKind slot with
      | last => exact absurd hkind (h slot List.mem_cons_self)
      | unused => exact ih hrest
      | long => exact ih hrest
      | short => exact ih hrest

/-- A walk over entries without an end mark goes on behind them. -/
theorem walk_append {before slots : List (List UInt8)} :
    ∀ {lfnbuf : List UInt8} {c : FatContents} {fs : FatState Unit},
      (∀ slot ∈ before, slotKind slot ≠ .last) →
      walk readDirectory (before ++ slots) lfnbuf c fs = (do
        let (c₁, fs₁) ← walk readDirectory before lfnbuf c fs
        walk readDirectory slots (pending lfnbuf before) c₁ fs₁) := by
  induction before with
  | nil => exact fun _ => rfl
  | cons slot before ih =>
      intro lfnbuf c fs h
      have hrest : ∀ s ∈ before, slotKind s ≠ .last := fun s hs => h s (List.mem_cons_of_mem _ hs)
      simp only [List.cons_append, walk, pending]
      cases hkind : slotKind slot with
      | last => exact absurd hkind (h slot List.mem_cons_self)
      | unused => exact ih hrest
      | long =>
          simp only
          by_cases hfull : lfnbuf.length + 13 ≥ 256
          · rw [if_pos hfull, if_pos hfull]
            rfl
          · rw [if_neg hfull, if_neg hfull]
            exact ih hrest
      | short =>
          simp only
          cases hname : entryName lfnbuf slot with
          | error e => rfl
          | ok name =>
              cases name with
              | none =>
                  rw [entryName_none hname]
                  exact ih hrest
              | some name =>
                  simp only [ok_bind]
                  cases addNode readDirectory name slot c fs with
                  | error e => rfl
                  | ok p => exact ih hrest

/-- The nodes of a directory. -/
def FatContents.count (c : FatContents) : ℕ := c.files.length + c.directories.length

/-- A node is put behind the others of its kind. -/
theorem addNode_ok {c c' : FatContents} {fs fs' : FatState Unit}
    (h : addNode readDirectory name slot c fs = .ok (c', fs')) :
    c'.count = c.count + 1 ∧
      (slotIsDirectory slot = false → ∃ id, c' = c.addFile (fileNode name id slot)) ∧
      (slotIsDirectory slot = true → ∃ id sub, c' = c.addDirectory (dirNode name id slot sub)) := by
  unfold addNode at h
  obtain ⟨⟨id, fs₁⟩, -, h⟩ := bind_ok.mp h
  by_cases hdir : slotIsDirectory slot = true
  · simp only [if_pos hdir] at h
    obtain ⟨⟨sub, fs₂⟩, -, h⟩ := bind_ok.mp h
    obtain ⟨rfl, -⟩ := Prod.mk.inj (Except.ok.inj h)
    refine ⟨?_, fun hno => absurd hdir (by rw [hno]; decide), fun _ => ⟨id, sub, rfl⟩⟩
    simp only [FatContents.count, FatContents.addDirectory, List.length_append, List.length_singleton]
    omega
  · simp only [if_neg hdir] at h
    obtain ⟨rfl, -⟩ := Prod.mk.inj (Except.ok.inj h)
    refine ⟨?_, fun _ => ⟨id, rfl⟩, fun hyes => absurd hyes hdir⟩
    simp only [FatContents.count, FatContents.addFile, List.length_append, List.length_singleton]
    omega

/-- Nodes are added behind those that are there. -/
def FatContents.Extends (c c' : FatContents) : Prop :=
  c'.files <+: c.files ∧ c'.directories <+: c.directories

theorem FatContents.Extends.trans {c₁ c₂ c₃ : FatContents} (h : c₂.Extends c₁)
    (h' : c₃.Extends c₂) : c₃.Extends c₁ :=
  ⟨h.1.trans h'.1, h.2.trans h'.2⟩

theorem addNode_extends {c c' : FatContents} {fs fs' : FatState Unit}
    (h : addNode readDirectory name slot c fs = .ok (c', fs')) : c'.Extends c := by
  obtain ⟨-, hfile, hdir⟩ := addNode_ok h
  cases hkind : slotIsDirectory slot with
  | false =>
      obtain ⟨id, rfl⟩ := hfile hkind
      exact ⟨List.prefix_append _ _, List.prefix_rfl⟩
  | true =>
      obtain ⟨id, sub, rfl⟩ := hdir hkind
      exact ⟨List.prefix_rfl, List.prefix_append _ _⟩

theorem walk_extends {r : FatContents × FatState Unit} : ∀ {slots : List (List UInt8)}
    {lfnbuf : List UInt8} {c : FatContents} {fs : FatState Unit},
    walk readDirectory slots lfnbuf c fs = .ok r → r.1.Extends c
  | [], lfnbuf, c, fs, h => by
      rw [← Except.ok.inj h]
      exact ⟨List.prefix_rfl, List.prefix_rfl⟩
  | slot :: rest, lfnbuf, c, fs, h => by
      cases hkind : slotKind slot with
      | last =>
          simp only [walk, hkind] at h
          rw [← Except.ok.inj h]
          exact ⟨List.prefix_rfl, List.prefix_rfl⟩
      | unused =>
          simp only [walk, hkind] at h
          exact walk_extends h
      | long =>
          simp only [walk, hkind] at h
          by_cases hfull : lfnbuf.length + 13 ≥ 256
          · rw [if_pos hfull] at h
            cases h
          · rw [if_neg hfull] at h
            exact walk_extends h
      | short =>
          simp only [walk, hkind] at h
          obtain ⟨name, -, h⟩ := bind_ok.mp h
          cases name with
          | none => exact walk_extends h
          | some name =>
              obtain ⟨⟨c₁, fs₁⟩, hadd, h⟩ := bind_ok.mp h
              exact (addNode_extends hadd).trans (walk_extends h)

/-- Two walks over the same entries make as many nodes. -/
theorem walk_count {r r' : FatContents × FatState Unit} : ∀ {slots : List (List UInt8)}
    {lfnbuf : List UInt8} {c c' : FatContents} {fs fs' : FatState Unit},
    walk readDirectory slots lfnbuf c fs = .ok r → walk readDirectory slots lfnbuf c' fs' = .ok r' →
    r.1.count + c'.count = r'.1.count + c.count
  | [], lfnbuf, c, c', fs, fs', h, h' => by
      rw [← Except.ok.inj h, ← Except.ok.inj h', Nat.add_comm]
  | slot :: rest, lfnbuf, c, c', fs, fs', h, h' => by
      cases hkind : slotKind slot with
      | last =>
          simp only [walk, hkind] at h h'
          rw [← Except.ok.inj h, ← Except.ok.inj h', Nat.add_comm]
      | unused =>
          simp only [walk, hkind] at h h'
          exact walk_count h h'
      | long =>
          simp only [walk, hkind] at h h'
          by_cases hfull : lfnbuf.length + 13 ≥ 256
          · rw [if_pos hfull] at h
            cases h
          · rw [if_neg hfull] at h h'
            exact walk_count h h'
      | short =>
          simp only [walk, hkind] at h h'
          obtain ⟨name, hname, h⟩ := bind_ok.mp h
          rw [hname, ok_bind] at h'
          cases name with
          | none => exact walk_count h h'
          | some name =>
              obtain ⟨⟨c₁, fs₁⟩, hadd, h⟩ := bind_ok.mp h
              obtain ⟨⟨c₁', fs₁'⟩, hadd', h'⟩ := bind_ok.mp h'
              have hcount : r.1.count + c₁'.count = r'.1.count + c₁.count := walk_count h h'
              have hone := (addNode_ok hadd).1
              have hone' := (addNode_ok hadd').1
              omega

/-- The name of an entry's node can be read off the directory that is returned. -/
theorem addNode_name_eq {name' : List UInt8} {c c₂ c₂' c₃ : FatContents}
    {fs fs₂ fs₂' : FatState Unit} (h : addNode readDirectory name slot c fs = .ok (c₂, fs₂))
    (h' : addNode readDirectory name' slot c fs = .ok (c₂', fs₂')) (hext : c₃.Extends c₂)
    (hext' : c₃.Extends c₂') : name = name' := by
  obtain ⟨-, hfile, hdir⟩ := addNode_ok h
  obtain ⟨-, hfile', hdir'⟩ := addNode_ok h'
  cases hkind : slotIsDirectory slot with
  | false =>
      obtain ⟨id, rfl⟩ := hfile hkind
      obtain ⟨id', rfl⟩ := hfile' hkind
      have heq : c.files ++ [fileNode name id slot] = c.files ++ [fileNode name' id' slot] := by
        apply (List.prefix_of_prefix_length_le hext.1 hext'.1 _).eq_of_length
        · simp [FatContents.addFile]
        · simp [FatContents.addFile]
      exact congrArg FatFileNode.name (List.cons.inj (List.append_cancel_left heq)).1
  | true =>
      obtain ⟨id, sub, rfl⟩ := hdir hkind
      obtain ⟨id', sub', rfl⟩ := hdir' hkind
      have heq : c.directories ++ [dirNode name id slot sub] =
          c.directories ++ [dirNode name' id' slot sub'] := by
        apply (List.prefix_of_prefix_length_le hext.2 hext'.2 _).eq_of_length
        · simp [FatContents.addDirectory]
        · simp [FatContents.addDirectory]
      have hnode := (List.cons.inj (List.append_cancel_left heq)).1
      unfold dirNode at hnode
      exact (FatDirNode.mk.inj hnode).1

/-- The node of a short entry has the name that the entry has behind the characters in `lfnbuf`. -/
theorem nodeMade_iff {before rest : List (List UInt8)} {fs : FatState Unit}
    {r : FatContents × FatState Unit} (hbefore : ∀ s ∈ before, slotKind s ≠ .last)
    (hshort : slotKind slot = .short)
    (h : walk readDirectory (before ++ slot :: rest) [] noContents fs = .ok r) :
    NodeMade readDirectory before slot rest fs name r ↔
      entryName (pending [] before) slot = .ok (some name) := by
  rw [walk_append hbefore] at h
  obtain ⟨⟨c₁, fs₁⟩, hbeforeRun, h⟩ := bind_ok.mp h
  simp only [walk, hshort] at h
  obtain ⟨found, hfound, h⟩ := bind_ok.mp h
  constructor
  · rintro ⟨c₁', fs₁', c₂, fs₂, hrun, hadd, hrest⟩
    obtain ⟨rfl, rfl⟩ := Prod.mk.inj (Except.ok.inj (hbeforeRun.symm.trans hrun))
    cases found with
    | none =>
        -- there would be one node more
        rw [entryName_none hfound] at h
        have hcount := walk_count h hrest
        have hone := (addNode_ok hadd).1
        omega
    | some found =>
        obtain ⟨⟨c₂', fs₂'⟩, hadd', h⟩ := bind_ok.mp h
        rw [hfound, addNode_name_eq hadd hadd' (walk_extends hrest) (walk_extends h)]
  · intro hname
    rw [hname] at hfound
    cases hfound
    obtain ⟨⟨c₂, fs₂⟩, hadd, h⟩ := bind_ok.mp h
    exact ⟨c₁, fs₁, c₂, fs₂, hbeforeRun, hadd, h⟩

end Pending

/-! ### Entries that the loop of `vfat_read_directory` skips -/

/-- Of the entries from the place `p` of a cluster of `k` entries on, those that are not the last one
of their cluster. -/
def seenOf {α : Type} (k : ℕ) : ℕ → List α → List α
  | _, [] => []
  | p, slot :: rest =>
      if p + 1 = k then seenOf k 0 rest else slot :: seenOf k (p + 1) rest

section Seen

variable {α : Type} {k : ℕ}

theorem seenOf_append (a b : List α) : ∀ {p : ℕ}, p < k →
    seenOf k p (a ++ b) = seenOf k p a ++ seenOf k ((p + a.length) % k) b := by
  induction a with
  | nil =>
      intro p hp
      rw [List.length_nil, Nat.add_zero, Nat.mod_eq_of_lt hp]
      rfl
  | cons slot a ih =>
      intro p hp
      rw [List.cons_append, seenOf, seenOf, List.length_cons]
      by_cases hlast : p + 1 = k
      · rw [if_pos hlast, if_pos hlast, ih (by omega)]
        rw [show p + (a.length + 1) = 0 + a.length + k by omega, Nat.add_mod_right]
      · rw [if_neg hlast, if_neg hlast, ih (by omega), List.cons_append]
        rw [show p + (a.length + 1) = p + 1 + a.length by omega]

theorem seenOf_mem {slot : α} {slots : List α} :
    ∀ {p : ℕ}, slot ∈ seenOf k p slots → slot ∈ slots := by
  induction slots with
  | nil => exact fun h => h
  | cons s slots ih =>
      intro p h
      rw [seenOf] at h
      by_cases hlast : p + 1 = k
      · rw [if_pos hlast] at h
        exact List.mem_cons_of_mem _ (ih h)
      · rw [if_neg hlast] at h
        obtain rfl | h := List.mem_cons.mp h
        · exact List.mem_cons_self
        · exact List.mem_cons_of_mem _ (ih h)

/-- Of a whole cluster, all but the last entry are seen. -/
theorem seenOf_cluster {a : List α} {p : ℕ} (hne : a ≠ []) (hlen : p + a.length = k) :
    seenOf k p a = a.take (a.length - 1) := by
  induction a generalizing p with
  | nil => exact absurd rfl hne
  | cons slot a ih =>
      rw [List.length_cons] at hlen ⊢
      rw [seenOf]
      by_cases hlast : p + 1 = k
      · obtain rfl : a = [] := List.length_eq_zero_iff.mp (by omega)
        rw [if_pos hlast]
        rfl
      · have hmore : a ≠ [] := by
          rintro rfl
          exact hlast (by simpa using hlen)
        have hpos := List.length_pos_iff.mpr hmore
        rw [if_neg hlast, ih hmore (by omega)]
        obtain ⟨n, hn⟩ : ∃ n, a.length = n + 1 := ⟨a.length - 1, by omega⟩
        rw [hn]
        rfl

/-- Nothing is seen of one entry at the end of a cluster, and of no other run of entries. -/
theorem seenOf_eq_nil_iff {a : List α} {p : ℕ} (hk : 1 < k) (hne : a ≠ []) :
    seenOf k p a = [] ↔ a.length = 1 ∧ p + 1 = k := by
  obtain ⟨slot, a, rfl⟩ := List.exists_cons_of_ne_nil hne
  rw [seenOf]
  constructor
  · intro h
    by_cases hlast : p + 1 = k
    · rw [if_pos hlast] at h
      cases a with
      | nil => exact ⟨rfl, hlast⟩
      | cons s a =>
          rw [seenOf, if_neg (by omega)] at h
          cases h
    · rw [if_neg hlast] at h
      cases h
  · rintro ⟨hone, hlast⟩
    obtain rfl : a = [] := List.length_eq_zero_iff.mp (by simpa using hone)
    rw [if_pos hlast]
    rfl

end Seen

theorem allSlots_length (size : ℕ) (data : List UInt8) : (allSlots size data).length = size / 32 := by
  unfold allSlots
  rw [List.length_map, List.length_range]

theorem readSlots_eq_take {size : ℕ} (h32 : 32 ∣ size) (data : List UInt8) :
    readSlots size data = (allSlots size data).take (size / 32 - 1) := by
  unfold readSlots allSlots
  obtain ⟨k, rfl⟩ := h32
  rw [← List.map_take, List.take_range]
  congr 2
  omega

theorem seenSlots_eq {size : ℕ} (h32 : 32 ∣ size) (hpos : 0 < size) (ds : List (List UInt8)) :
    seenSlots size ds = seenOf (size / 32) 0 (ds.flatMap (allSlots size)) := by
  have hk : 0 < size / 32 := by omega
  induction ds with
  | nil => rfl
  | cons data ds ih =>
      have hlen := allSlots_length size data
      have hne : allSlots size data ≠ [] := by
        intro h
        rw [h, List.length_nil] at hlen
        omega
      unfold seenSlots at ih ⊢
      rw [List.flatMap_cons, List.flatMap_cons, seenOf_append _ _ hk, ih,
        seenOf_cluster hne (by omega), hlen, Nat.zero_add, Nat.mod_self, readSlots_eq_take h32]

/-! ### Names that are kept -/

section Kept

variable {name slot : List UInt8} {sum : UInt8} {stored : List (List UInt8)}

/-- Behind entries of a name, `lfnbuf` has as many characters up to the first NUL as before. -/
theorem pending_stored {seen : List (List UInt8)}
    (h : ∀ s ∈ seen, slotKind s = .long ∧ ∃ rest, lfnChars s = 0 :: rest) :
    ∀ lfnbuf, ∃ more, pending lfnbuf seen = lfnbuf ++ more ∧
      (seen = [] ∧ more = [] ∨ seen ≠ [] ∧ ∃ rest, more = 0 :: rest) := by
  induction seen with
  | nil => exact fun lfnbuf => ⟨[], (List.append_nil lfnbuf).symm, .inl ⟨rfl, rfl⟩⟩
  | cons s seen ih =>
      intro lfnbuf
      obtain ⟨hlong, rest, hchars⟩ := h s List.mem_cons_self
      obtain ⟨more, hmore, -⟩ := ih (fun s hs => h s (List.mem_cons_of_mem _ hs))
        (lfnbuf ++ lfnChars s)
      refine ⟨lfnChars s ++ more, ?_, .inr ⟨by simp, rest ++ more, by rw [hchars]; rfl⟩⟩
      simp only [pending, hlong]
      rw [hmore, List.append_assoc]

/-- The characters of `lfnbuf` up to the first NUL. -/
theorem cString_append_nul (lfnbuf rest : List UInt8) :
    cString (lfnbuf ++ 0 :: rest) = cString lfnbuf := by
  unfold cString
  induction lfnbuf with
  | nil => rfl
  | cons b lfnbuf ih =>
      rw [List.cons_append, List.takeWhile_cons, List.takeWhile_cons, ih]

/-- The name that a short entry has behind entries of its long name: what was in `lfnbuf` before
them, or the short name if nothing was and none of them has been seen. -/
theorem entryName_stored {seen : List (List UInt8)} {lfnbuf : List UInt8} (hname : name ≠ [])
    (h : ∀ s ∈ seen, slotKind s = .long ∧ ∃ rest, lfnChars s = 0 :: rest) :
    entryName (pending lfnbuf seen) slot = .ok (some name) ↔
      lfnbuf ≠ [] ∧ cString lfnbuf = name ∨
      lfnbuf = [] ∧ seen = [] ∧ entryName [] slot = .ok (some name) := by
  obtain ⟨more, hmore, hkind⟩ := pending_stored h lfnbuf
  rw [hmore]
  by_cases hbuf : lfnbuf = []
  · subst hbuf
    rw [List.nil_append]
    obtain ⟨rfl, rfl⟩ | ⟨hne, rest, rfl⟩ := hkind
    · simp
    · -- the name ends before it begins
      have hempty : entryName (0 :: rest) slot = .ok (some []) := by
        unfold entryName
        rw [if_neg (List.cons_ne_nil _ _)]
        rfl
      rw [hempty]
      constructor
      · intro heq
        cases heq
        exact absurd rfl hname
      · rintro (⟨hno, -⟩ | ⟨-, hno, -⟩)
        · exact absurd rfl hno
        · exact absurd hno hne
  · have hcut : cString (lfnbuf ++ more) = cString lfnbuf := by
      obtain ⟨-, rfl⟩ | ⟨-, rest, rfl⟩ := hkind
      · rw [List.append_nil]
      · exact cString_append_nul lfnbuf rest
    have hentry : entryName (lfnbuf ++ more) slot = .ok (some (cString lfnbuf)) := by
      unfold entryName
      rw [if_neg fun hnil => hbuf (List.append_eq_nil_iff.mp hnil).1, hcut]
    rw [hentry]
    simp [hbuf]

end Kept

/-- A name in a directory: the entries of the long name and the short entry behind them. -/
structure StoredName (name : List UInt8) (stored : List (List UInt8)) (short : List UInt8) : Prop where
  isName : IsLongName name
  entries : ∃ sum, stored.map (List.take 32) = longEntries name sum
  short : slotKind short = .short

namespace StoredName

variable {name short : List UInt8} {stored : List (List UInt8)}

theorem read (h : StoredName name stored short) :
    ∀ s ∈ stored, slotKind s = .long ∧ ∃ rest, lfnChars s = 0 :: rest := by
  intro s hs
  obtain ⟨sum, hentries⟩ := h.entries
  have hmem : s.take 32 ∈ longEntries name sum := by
    rw [← hentries]
    exact List.mem_map_of_mem hs
  exact longEntries_read h.isName hmem

theorem length (h : StoredName name stored short) : stored.length = pieceCount name := by
  obtain ⟨sum, hentries⟩ := h.entries
  have hlen := congrArg List.length hentries
  rw [List.length_map] at hlen
  rw [hlen]
  unfold longEntries
  rw [List.length_map, List.length_reverse, List.length_range]

theorem ne_nil (h : StoredName name stored short) : stored ≠ [] := by
  intro hnil
  have hlen := h.length
  have hpos := h.isName.pos
  rw [hnil, List.length_nil] at hlen
  unfold pieceCount at hlen
  omega

theorem name_ne_nil (h : StoredName name stored short) : name ≠ [] :=
  List.length_pos_iff.mp h.isName.pos

theorem one_iff (h : StoredName name stored short) : stored.length = 1 ↔ name.length ≤ 13 := by
  have hpos := h.isName.pos
  rw [h.length]
  unfold pieceCount
  omega

theorem no_mark (h : StoredName name stored short) : ∀ s ∈ stored, slotKind s ≠ .last := by
  intro s hs
  rw [(h.read s hs).1]
  decide

end StoredName

/-- In a reading of a directory that returns `r`, the short entry behind `before` and `stored` is seen,
and its node has that name.  Clusters have `k` entries. -/
def NamedInDirectory (readDirectory : DirReader Unit) (k : ℕ) (before stored : List (List UInt8))
    (short : List UInt8) (behind : List (List UInt8)) (fs : FatState Unit) (name : List UInt8)
    (r : FatContents × FatState Unit) : Prop :=
  (before.length + stored.length + 1) % k ≠ 0 ∧
    NodeMade readDirectory (seenOf k 0 (before ++ stored)) short
      (seenOf k ((before.length + stored.length + 1) % k) behind) fs name r

/-- In a reading of the root directory, of which the entries of one sector but the last are seen. -/
def NamedInRoot (readDirectory : DirReader Unit) (k : ℕ) (before stored : List (List UInt8))
    (short : List UInt8) (behind : List (List UInt8)) (fs : FatState Unit) (name : List UInt8)
    (r : FatContents × FatState Unit) : Prop :=
  before.length + stored.length + 1 < k ∧
    NodeMade readDirectory (before ++ stored) short
      (behind.take (k - 1 - (before.length + stored.length + 1))) fs name r

/-- There are characters in `lfnbuf`, and they are this name. -/
def LeftOver (lfnbuf name : List UInt8) : Prop := lfnbuf ≠ [] ∧ cString lfnbuf = name

section Kept

variable {m : FatMount Unit} {size : ℕ} {name short : List UInt8}
  {stored before behind : List (List UInt8)}

theorem succ_mod_eq_zero_iff {a k : ℕ} (hk : 0 < k) : (a + 1) % k = 0 ↔ a % k + 1 = k := by
  have hlt := Nat.mod_lt a hk
  rw [← Nat.mod_add_mod]
  by_cases hlast : a % k + 1 = k
  · simp [hlast]
  · rw [Nat.mod_eq_of_lt (by omega)]
    omega

theorem namedInDirectory_iff (hreg : m.Regular size) (h32 : 32 ∣ size)
    (hname : StoredName name stored short) (hbefore : ∀ s ∈ before, slotKind s ≠ .last)
    {cluster : ℕ} {ds : List (List UInt8)} (hds : m.Clusters size cluster ds)
    (hslots : ds.flatMap (allSlots size) = before ++ stored ++ short :: behind) {n : ℕ}
    {fs : FatState Unit} {r : FatContents × FatState Unit}
    (hrun : m.vfatReadDirectory (n + 1) cluster fs = .ok r) :
    NamedInDirectory (m.vfatReadDirectory n) (size / 32) before stored short behind fs name r ↔
      (before.length + stored.length + 1) % (size / 32) ≠ 0 ∧
      (LeftOver (pending [] (seenOf (size / 32) 0 before)) name ∨
        pending [] (seenOf (size / 32) 0 before) = [] ∧ name.length ≤ 13 ∧
          (before.length + 1) % (size / 32) = 0 ∧ entryName [] short = .ok (some name)) := by
  have hgt := hreg.size_gt
  have hk : 1 < size / 32 := by omega
  have hk0 : 0 < size / 32 := by omega
  generalize hsize : size / 32 = k at hk hk0
  refine and_congr_right fun hseen => ?_
  have hplace : (before.length + stored.length) % k + 1 ≠ k :=
    fun h => hseen ((succ_mod_eq_zero_iff hk0).mpr h)
  -- what the loop sees
  have hwalk := (FatMount.vfatReadDirectory_walk hreg hds fs r).1 n hrun
  rw [seenSlots_eq h32 (by omega), hslots, hsize, seenOf_append _ _ hk0, Nat.zero_add,
    List.length_append, seenOf, if_neg hplace] at hwalk
  have hnext : (before.length + stored.length + 1) % k =
      (before.length + stored.length) % k + 1 := by
    have hlt := Nat.mod_lt (before.length + stored.length) hk0
    rw [← Nat.mod_add_mod, Nat.mod_eq_of_lt (by omega)]
  have hnone : ∀ s ∈ seenOf k 0 (before ++ stored), slotKind s ≠ .last := fun s hs =>
    (List.mem_append.mp (seenOf_mem hs)).elim (hbefore s) (hname.no_mark s)
  rw [hnext, nodeMade_iff hnone hname.short hwalk, seenOf_append _ _ hk0, Nat.zero_add,
    pending_append fun s hs => hbefore s (seenOf_mem hs),
    entryName_stored hname.name_ne_nil fun s hs => hname.read s (seenOf_mem hs),
    seenOf_eq_nil_iff hk hname.ne_nil, hname.one_iff, ← succ_mod_eq_zero_iff hk0, and_assoc]
  exact Iff.rfl

theorem namedInRoot_iff (h32 : 32 ∣ m.bytesPerSector) (hname : StoredName name stored short)
    (hbefore : ∀ s ∈ before, slotKind s ≠ .last) {sector : ℕ} {data : List UInt8}
    (hroot : m.RootSector sector data) {more : List (List UInt8)}
    (hslots : allSlots m.bytesPerSector data ++ more = before ++ stored ++ short :: behind) {n : ℕ}
    {fs : FatState Unit} {r : FatContents × FatState Unit}
    (hrun : m.vfatReadRootSector n sector fs = .ok r) :
    NamedInRoot (m.vfatReadDirectory n) (m.bytesPerSector / 32) before stored short behind fs name r ↔
      before.length + stored.length + 1 < m.bytesPerSector / 32 ∧
      LeftOver (pending [] before) name := by
  have hlen := allSlots_length m.bytesPerSector data
  have hwalk := (FatMount.vfatReadRootSector_walk hroot fs r).1 n hrun
  rw [readSlots_eq_take h32] at hwalk
  generalize hsize : m.bytesPerSector / 32 = k at hlen hwalk ⊢
  refine and_congr_right fun hseen => ?_
  have htake : (allSlots m.bytesPerSector data).take (k - 1) =
      before ++ stored ++ short :: behind.take (k - 1 - (before.length + stored.length + 1)) := by
    have hcut := congrArg (List.take (k - 1)) hslots
    rw [List.take_append_of_le_length (by omega)] at hcut
    rw [hcut, List.take_append, List.take_of_length_le (by rw [List.length_append]; omega),
      List.length_append]
    obtain ⟨j, hj⟩ := Nat.exists_eq_add_of_lt hseen
    rw [show k - 1 - (before.length + stored.length) = j + 1 by omega, List.take_succ_cons,
      show k - 1 - (before.length + stored.length + 1) = j by omega]
  rw [htake] at hwalk
  have hnone : ∀ s ∈ before ++ stored, slotKind s ≠ .last := fun s hs =>
    (List.mem_append.mp hs).elim (hbefore s) (hname.no_mark s)
  rw [nodeMade_iff hnone hname.short hwalk, pending_append hbefore,
    entryName_stored hname.name_ne_nil hname.read]
  exact ⟨fun h => h.resolve_right fun h => hname.ne_nil h.2.1, .inl⟩

end Kept

/-- **Long names.**  The node of a file gets the name that has been stored for it exactly if that very
name is left in `lfnbuf` from entries before it, or, in a directory with a cluster chain, if `lfnbuf`
is empty, the only entry of the long name is the last one of its cluster, which the loop does not
look at, and the short name is the same. -/
theorem longName_kept_iff (m : FatMount Unit) (size : ℕ) (hreg : m.Regular size) (h32 : 32 ∣ size)
    (hsector : 32 ∣ m.bytesPerSector) (name short : List UInt8)
    (stored before behind : List (List UInt8)) (hname : StoredName name stored short)
    (hbefore : ∀ s ∈ before, slotKind s ≠ .last) :
    (∀ cluster ds, m.Clusters size cluster ds →
      ds.flatMap (allSlots size) = before ++ stored ++ short :: behind →
      ∀ n fs r, m.vfatReadDirectory (n + 1) cluster fs = .ok r →
      (NamedInDirectory (m.vfatReadDirectory n) (size / 32) before stored short behind fs name r ↔
        (before.length + stored.length + 1) % (size / 32) ≠ 0 ∧
        (LeftOver (pending [] (seenOf (size / 32) 0 before)) name ∨
          pending [] (seenOf (size / 32) 0 before) = [] ∧ name.length ≤ 13 ∧
            (before.length + 1) % (size / 32) = 0 ∧ entryName [] short = .ok (some name)))) ∧
    (∀ sector data more, m.RootSector sector data →
      allSlots m.bytesPerSector data ++ more = before ++ stored ++ short :: behind →
      ∀ n fs r, m.vfatReadRootSector n sector fs = .ok r →
      (NamedInRoot (m.vfatReadDirectory n) (m.bytesPerSector / 32) before stored short behind fs
          name r ↔
        before.length + stored.length + 1 < m.bytesPerSector / 32 ∧
        LeftOver (pending [] before) name)) :=
  ⟨fun _ _ hds hslots _ _ _ hrun => namedInDirectory_iff hreg h32 hname hbefore hds hslots hrun,
    fun _ _ _ hroot hslots _ _ _ hrun => namedInRoot_iff hsector hname hbefore hroot hslots hrun⟩

/-- A file whose long name is the letter `a`. -/
def namedEntries : List (List UInt8) :=
  longEntries [0x61] 0 ++ [directoryEntry (letterName 0x41) 0x20 3 5]

/-- The small volume with a directory that holds it. -/
def namedMount : FatMount Unit := smallMount 1 [] fun i => if i = 2 then namedEntries.flatten else []

theorem namedMount_regular : namedMount.Regular 512 := by
  have hlen : ∀ i, (if i = 2 then namedEntries.flatten else []).length ≤ 512 := by
    intro i
    split
    · decide
    · exact Nat.zero_le _
  exact smallMount_regular (n := 1) (Nat.zero_le _) hlen (by decide) rfl

theorem namedMount_read :
    namedMount.vfatReadCluster () 2 = .ok (fullBlock namedEntries.flatten, 0xFFF, ()) :=
  smallMount_readCluster (by decide) (by decide) (smallMount_next (by decide))

theorem namedMount_clusters : namedMount.Clusters 512 2 [fullBlock namedEntries.flatten] :=
  .mark namedMount_read (fullBlock_hasMark (by decide))

/-- The entries in front of the end marks. -/
def namedSlots : List (List UInt8) := (allSlots 512 (fullBlock namedEntries.flatten)).take 2

theorem namedSlots_stored : StoredName [0x61] (namedSlots.take 1) (namedSlots.getD 1 []) where
  isName := ⟨by decide, by decide, by decide⟩
  entries := ⟨0, by decide +kernel⟩
  short := by decide +kernel

theorem namedSlots_split :
    [fullBlock namedEntries.flatten].flatMap (allSlots 512) =
      [] ++ namedSlots.take 1 ++
        namedSlots.getD 1 [] :: (allSlots 512 (fullBlock namedEntries.flatten)).drop 2 := by
  decide +kernel

/-- Nothing is left in `lfnbuf`, so that the node does not get the name. -/
theorem longName_kept_iff_letter : ∃ r,
    namedMount.vfatReadDirectory 3 2 ⟨[], 32, ()⟩ = .ok r ∧
    ¬NamedInDirectory (namedMount.vfatReadDirectory 2) (512 / 32) [] (namedSlots.take 1)
        (namedSlots.getD 1 []) ((allSlots 512 (fullBlock namedEntries.flatten)).drop 2) ⟨[], 32, ()⟩
        [0x61] r := by
  obtain ⟨r, hrun, -⟩ := OkAnd.exists_ok (by decide +kernel :
    OkAnd (namedMount.vfatReadDirectory 3 2 ⟨[], 32, ()⟩) fun _ => True)
  refine ⟨r, hrun, fun hnamed => ?_⟩
  obtain ⟨-, hleft⟩ := ((longName_kept_iff namedMount 512 namedMount_regular (by decide) (by decide) [0x61]
    (namedSlots.getD 1 []) (namedSlots.take 1) [] _ namedSlots_stored (fun s hs => (by cases hs))).1
    2 _ namedMount_clusters namedSlots_split 2 _ r hrun).mp hnamed
  cases hleft with
  | inl hleft => exact hleft.1 rfl
  | inr hsingle => exact absurd hsingle.2.2.1 (by decide)

/-- The name of its node is empty. -/
theorem longName_lost : ∃ ds stored short behind r,
    StoredName [0x61] stored short ∧ namedMount.Clusters 512 2 ds ∧
    ds.flatMap (allSlots 512) = [] ++ stored ++ short :: behind ∧
    namedMount.vfatReadDirectory 3 2 ⟨[], 32, ()⟩ = .ok r ∧
    r.1.files.map FatFileNode.name = [[]] ∧ r.1.directories.length = 0 := by
  obtain ⟨r, hrun, hname⟩ := OkAnd.exists_ok (by decide +kernel :
    OkAnd (namedMount.vfatReadDirectory 3 2 ⟨[], 32, ()⟩) fun r =>
      r.1.files.map FatFileNode.name = [[]] ∧ r.1.directories.length = 0)
  exact ⟨_, _, _, _, r, namedSlots_stored, namedMount_clusters, namedSlots_split, hrun, hname⟩

end GalaxyOS
