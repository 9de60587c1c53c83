import GalaxyOS.Lib.Transition
import GalaxyOS.Syscall.Strings

/-! # Short names of a FAT directory

A FAT directory entry starts with the name of the file in eleven bytes, a base of at most eight and
an extension of at most three, both padded with spaces.  `vfat_read_directory` copies them into a
buffer of thirteen bytes and turns them into a string in place: it walks over the buffer, puts a dot
at the first space and shifts the extension up to it.  `isext` remembers how far it has got.

The walk has to meet a space to learn that the base is over.  With a base of eight bytes and a short
extension the first space is the one behind the extension, which is then taken for the end of a name
without one (`shortNames_decode_iff`).

`start_eq`, `bytes_body` and the `scanName` lemmas follow the walk over the buffer, `decodes_iff` says what
comes out, and `vfatShortName_total` that the walk always comes to its end. -/

namespace GalaxyOS

open Transition

/-! ### The buffer -/

/-- `name[i]`. -/
def charAt (name : List UInt8) (i : ℕ) : Except Fault UInt8 :=
  match name[i]? with
  | some c => .ok c
  | none => .error .overrun

/-- `name[i] = c`. -/
def putChar (name : List UInt8) (i : ℕ) (c : UInt8) : Except Fault (List UInt8) :=
  if i < name.length then .ok (name.set i c) else .error .overrun

/-- `tolower`; a byte from `0x80` on is a negative `char`. -/
def tolower (c : UInt8) : UInt8 := if 0x41 ≤ c ∧ c ≤ 0x5A then c + 0x20 else c

/-- The values of `isext`. -/
inductive IsExt where
  /-- 0: no space so far. -/
  | inBase
  /-- 1: the dot has been put. -/
  | atExt
  /-- 2: a byte of the extension has been passed. -/
  | inExt
  /-- 3: there is no extension. -/
  | noExt
deriving DecidableEq, Repr

/-! ### The conversion -/

/-- `for (int y = x; y < 11; y++) name[y] = name[y + 1];` from `y` on, in `k` rounds. -/
def shiftLeft : ℕ → ℕ → List UInt8 → Except Fault (List UInt8)
  | 0, _, name => .ok name
  | k + 1, y, name => do
      let c ← charAt name (y + 1)
      let name ← putChar name y c
      shiftLeft k (y + 1) name

/-- `while (name[x] == ' ')`, with room for `n` rounds. -/
def removeSpaces : ℕ → ℕ → List UInt8 → Except Fault (List UInt8)
  | 0, _, _ => .error .timeout
  | n + 1, x, name => do
      let c ← charAt name x
      if c = 0x20 then do
        let name ← shiftLeft (11 - x) x name
        removeSpaces n x name
      else .ok name

/-- Whether one of the `k` bytes from `y` on is no space. -/
def hasExtension : ℕ → ℕ → List UInt8 → Except Fault Bool
  | 0, _, _ => .ok false
  | k + 1, y, name => do
      let c ← charAt name y
      if c = 0x20 then hasExtension k (y + 1) name else .ok true

/-- The loop over `x`, from `x` on in `k` rounds. -/
def scanName : ℕ → ℕ → IsExt → List UInt8 → Except Fault (IsExt × List UInt8)
  | 0, _, isext, name => .ok (isext, name)
  | k + 1, x, isext, name => do
      let c ← charAt name x
      if c = 0x20 then
        match isext with
        | .inExt => do
            let name ← putChar name x 0
            .ok (.inExt, name)
        | .atExt => do
            let name ← removeSpaces 12 x name
            scanName k (x + 1) .atExt name
        | _ => do
            let ext ← hasExtension (11 - x) x name
            if ext then do
              let name ← putChar name x 0x2E
              scanName k (x + 1) .atExt name
            else do
              let name ← putChar name x 0
              .ok (.noExt, name)
      else scanName k (x + 1) (if isext = .atExt then .inExt else isext) name

/-- A dot before the three bytes of an extension that follows a base of eight. -/
def shiftExt (name : List UInt8) : Except Fault (List UInt8) := do
  let c ← charAt name 10
  let name ← putChar name 11 c
  let c ← charAt name 9
  let name ← putChar name 10 c
  let c ← charAt name 8
  let name ← putChar name 9 c
  putChar name 8 0x2E

/-- The dot that the walk has not put, if it has met no space. -/
def insertDot (isext : IsExt) (name : List UInt8) : Except Fault (List UInt8) :=
  if isext = .inBase then shiftExt name else .ok name

/-- `for (int i = 0; name[i] != '\0'; i++) name[i] = tolower(name[i]);` from `i` on, with room for
`n` rounds. -/
def lowerName : ℕ → ℕ → List UInt8 → Except Fault (List UInt8)
  | 0, _, _ => .error .timeout
  | n + 1, i, name => do
      let c ← charAt name i
      if c = 0 then .ok name
      else do
        let name ← putChar name i (tolower c)
        lowerName n (i + 1) name

/-- What is done once the walk is over; `none` if the entry is to be ignored. -/
def finishName (isext : IsExt) (name : List UInt8) : Except Fault (Option (List UInt8)) := do
  let first ← charAt name 0
  if isext = .noExt ∧ first = 0x2E then .ok none
  else do
    let name ← insertDot isext name
    let name ← lowerName 13 0 name
    .ok (some name)

/-- The name that `vfat_read_directory` makes of the eleven bytes of an entry. -/
def vfatShortName (entry : List UInt8) : Except Fault (Option (List UInt8)) := do
  let (isext, name) ← scanName 11 0 .inBase (entry.take 11 ++ [0, 0])
  finishName isext name

/-! ### Names -/

/-- A base and an extension that fit into an entry. -/
structure FatName where
  base : List UInt8
  ext : List UInt8
  base_pos : 0 < base.length
  base_length : base.length ≤ 8
  ext_length : ext.length ≤ 3
  base_space : 0x20 ∉ base
  ext_space : 0x20 ∉ ext

namespace FatName

variable (n n' : FatName)

/-- The eleven bytes of the entry. -/
def bytes : List UInt8 :=
  n.base ++ List.replicate (8 - n.base.length) 0x20 ++
    (n.ext ++ List.replicate (3 - n.ext.length) 0x20)

/-- The string: the base in lower case, and the extension after a dot if there is one. -/
def text : List UInt8 :=
  n.base.map tolower ++ if n.ext = [] then [] else 0x2E :: n.ext.map tolower

/-- The entries `.` and `..`. -/
def Dots : Prop := n.ext = [] ∧ (n.base = [0x2E] ∨ n.base = [0x2E, 0x2E])

/-- The entry is ignored if it is `.` or `..`, and otherwise the string is the name's. -/
def Decodes : Prop :=
  ∃ r, vfatShortName n.bytes = .ok r ∧ (n.Dots → r = none) ∧
    (¬n.Dots → ∃ name, r = some name ∧ cString name = n.text)

def SameUpToCase : Prop :=
  n.base.map tolower = n'.base.map tolower ∧ n.ext.map tolower = n'.ext.map tolower

/-- Both names are decoded, to different strings unless they differ in case only. -/
def Distinguished : Prop :=
  n.Decodes ∧ n'.Decodes ∧
    (¬n.SameUpToCase n' → ∀ name name', vfatShortName n.bytes = .ok (some name) →
      vfatShortName n'.bytes = .ok (some name') → cString name ≠ cString name')

/-- The names for which the walk finds its way: no extension of one or two bytes behind a base of
eight, no dot at the start of a name without extension, and no zero byte. -/
structure Plain : Prop where
  short : n.base.length = 8 → n.ext.length ≠ 1 ∧ n.ext.length ≠ 2
  hidden : n.ext = [] → n.base.head? = some 0x2E → n.Dots
  base_zero : 0 ∉ n.base
  ext_zero : 0 ∉ n.ext

/-- Different bases and extensions that read the same with a dot in between. -/
def Ambiguous : Prop := n.base.length ≠ n'.base.length ∧ n.text = n'.text

end FatName

/-! ### What the loops do -/

section Loops

theorem charAt_append (p : List UInt8) (c : UInt8) (q : List UInt8) :
    charAt (p ++ c :: q) p.length = .ok c := by
  unfold charAt
  rw [List.getElem?_append_right (Nat.le_refl _), Nat.sub_self, List.getElem?_cons_zero]

theorem putChar_append (p : List UInt8) (c c' : UInt8) (q : List UInt8) :
    putChar (p ++ c :: q) p.length c' = .ok (p ++ c' :: q) := by
  unfold putChar
  rw [if_pos (by simp), List.set_append_right _ _ (Nat.le_refl _), Nat.sub_self, List.set_cons_zero]

/-- Shifting over `r` up to a zero leaves a second zero. -/
theorem shiftLeft_eq (r : List UInt8) : ∀ (p : List UInt8) (c : UInt8) (t : List UInt8),
    shiftLeft (r.length + 1) p.length (p ++ c :: (r ++ 0 :: t)) = .ok (p ++ (r ++ 0 :: 0 :: t)) := by
  induction r with
  | nil =>
      intro p c t
      have hget := charAt_append (p ++ [c]) 0 t
      rw [List.length_append, List.length_singleton, List.append_assoc] at hget
      unfold shiftLeft
      rw [List.nil_append]
      rw [show p ++ c :: 0 :: t = p ++ ([c] ++ 0 :: t) from rfl, hget, ok_bind]
      rw [show p ++ ([c] ++ 0 :: t) = p ++ c :: 0 :: t from rfl, putChar_append, ok_bind]
      rfl
  | cons d r ih =>
      intro p c t
      have hget := charAt_append (p ++ [c]) d (r ++ 0 :: t)
      have hrest := ih (p ++ [d]) d t
      rw [List.length_append, List.length_singleton, List.append_assoc] at hget hrest
      rw [List.append_assoc] at hrest
      rw [List.length_cons]
      unfold shiftLeft
      rw [show p ++ c :: (d :: r ++ 0 :: t) = p ++ ([c] ++ d :: (r ++ 0 :: t)) from rfl, hget, ok_bind]
      rw [show p ++ ([c] ++ d :: (r ++ 0 :: t)) = p ++ c :: d :: (r ++ 0 :: t) from rfl,
        putChar_append, ok_bind]
      exact hrest

/-- All spaces from `p.length` on go. -/
theorem removeSpaces_eq {n k : ℕ} (hk : k < n) : ∀ (p r t : List UInt8), p.length + k + r.length = 11 →
    (∀ c ∈ r.head?, c ≠ 0x20) →
    removeSpaces n p.length (p ++ (List.replicate k 0x20 ++ (r ++ 0 :: t))) =
      .ok (p ++ (r ++ List.replicate k 0 ++ 0 :: t)) := by
  induction k generalizing n with
  | zero =>
      intro p r t _ hr
      obtain ⟨n, rfl⟩ := Nat.exists_eq_add_of_lt hk
      unfold removeSpaces
      cases r with
      | nil =>
          rw [List.replicate_zero, List.nil_append, List.nil_append, charAt_append, ok_bind,
            if_neg (by decide)]
          rfl
      | cons c r =>
          rw [List.replicate_zero, List.nil_append, List.cons_append, charAt_append, ok_bind,
            if_neg (hr c rfl), List.replicate_zero, List.append_nil]
          rfl
  | succ k ih =>
      intro p r t hlen hr
      obtain ⟨n, rfl⟩ := Nat.exists_eq_add_of_lt (Nat.lt_of_le_of_lt (Nat.zero_le _) hk)
      rw [Nat.zero_add] at hk ⊢
      have hshift := shiftLeft_eq (List.replicate k 0x20 ++ r) p 0x20 t
      have hcount : (List.replicate k (0x20 : UInt8) ++ r).length + 1 = 11 - p.length := by
        rw [List.length_append, List.length_replicate]
        omega
      have hrest := ih (n := n) (by omega) p (r ++ [0]) t
        (by rw [List.length_append, List.length_singleton]; omega)
        (by
          cases r with
          | nil =>
              intro c hc
              obtain rfl := Option.some.inj hc
              decide
          | cons d r => exact hr)
      rw [hcount] at hshift
      simp only [List.append_assoc, List.cons_append, List.nil_append] at hshift hrest
      unfold removeSpaces
      rw [List.replicate_succ, List.cons_append, charAt_append, ok_bind, if_pos rfl, hshift, ok_bind,
        hrest]
      rw [List.replicate_succ, List.append_assoc, List.cons_append]

theorem hasExtension_eq (q : List UInt8) : ∀ (p t : List UInt8),
    hasExtension q.length p.length (p ++ (q ++ t)) = .ok (q.any fun c => c ≠ 0x20) := by
  induction q with
  | nil => exact fun _ _ => rfl
  | cons c q ih =>
      intro p t
      have hrest := ih (p ++ [c]) t
      rw [List.length_append, List.length_singleton, List.append_assoc] at hrest
      rw [List.length_cons]
      unfold hasExtension
      rw [List.cons_append, charAt_append, ok_bind, List.any_cons]
      by_cases hc : c = 0x20
      · rw [if_pos hc]
        rw [show p ++ c :: (q ++ t) = p ++ ([c] ++ (q ++ t)) from rfl, hrest]
        simp [hc]
      · rw [if_neg hc]
        simp [hc]

/-- A byte that is no space is passed; the dot put before, this is noticed. -/
theorem scanName_char {k : ℕ} {isext : IsExt} {c : UInt8} (hc : c ≠ 0x20) (p t : List UInt8) :
    scanName (k + 1) p.length isext (p ++ c :: t) =
      scanName k (p.length + 1) (if isext = .atExt then .inExt else isext) (p ++ c :: t) := by
  conv_lhs => unfold scanName
  rw [charAt_append, ok_bind, if_neg hc]

/-- The end of the extension. -/
theorem scanName_inExt {k : ℕ} (p t : List UInt8) :
    scanName (k + 1) p.length .inExt (p ++ 0x20 :: t) = .ok (.inExt, p ++ 0 :: t) := by
  conv_lhs => unfold scanName
  rw [charAt_append, ok_bind, if_pos rfl]
  rw [putChar_append, ok_bind]

/-- The rest of the base before the extension. -/
theorem scanName_atExt {k j : ℕ} (p r t : List UInt8) (hlen : p.length + (j + 1) + r.length = 11)
    (hr : ∀ c ∈ r.head?, c ≠ 0x20) :
    scanName (k + 1) p.length .atExt (p ++ (List.replicate (j + 1) 0x20 ++ (r ++ 0 :: t))) =
      scanName k (p.length + 1) .atExt (p ++ (r ++ List.replicate (j + 1) 0 ++ 0 :: t)) := by
  have hremove := removeSpaces_eq (n := 12) (k := j + 1) (by omega) p r t hlen hr
  conv_lhs => unfold scanName
  rw [List.replicate_succ, List.cons_append] at hremove ⊢
  rw [charAt_append, ok_bind, if_pos rfl]
  rw [hremove, ok_bind]

/-- The first space, with an extension behind it. -/
theorem scanName_dot {k : ℕ} (p q t : List UInt8) (hlen : p.length + (q.length + 1) = 11)
    (hext : q.any (fun c => c ≠ 0x20) = true) :
    scanName (k + 1) p.length .inBase (p ++ 0x20 :: (q ++ t)) =
      scanName k (p.length + 1) .atExt (p ++ 0x2E :: (q ++ t)) := by
  have hany := hasExtension_eq (0x20 :: q) p t
  rw [List.any_cons, hext, Bool.or_true, List.length_cons,
    show q.length + 1 = 11 - p.length by omega] at hany
  conv_lhs => unfold scanName
  rw [charAt_append, ok_bind, if_pos rfl]
  simp only
  rw [show p ++ 0x20 :: (q ++ t) = p ++ (0x20 :: q ++ t) from rfl, hany, ok_bind, if_pos rfl,
    show p ++ (0x20 :: q ++ t) = p ++ 0x20 :: (q ++ t) from rfl, putChar_append, ok_bind]

/-- The first space, with nothing but spaces behind it. -/
theorem scanName_end {k j : ℕ} (p t : List UInt8) (hlen : p.length + (j + 1) = 11) :
    scanName (k + 1) p.length .inBase (p ++ (List.replicate (j + 1) 0x20 ++ t)) =
      .ok (.noExt, p ++ 0 :: (List.replicate j 0x20 ++ t)) := by
  have hany := hasExtension_eq (List.replicate (j + 1) 0x20) p t
  rw [List.length_replicate, show j + 1 = 11 - p.length by omega] at hany
  rw [show 11 - p.length = j + 1 by omega] at hany
  conv_lhs => unfold scanName
  rw [List.replicate_succ, List.cons_append] at hany ⊢
  rw [charAt_append, ok_bind, if_pos rfl]
  simp only
  rw [show 11 - p.length = j + 1 by omega, hany, ok_bind, if_neg (by simp), putChar_append, ok_bind]

/-- Except right after the dot, bytes that are no spaces change nothing. -/
theorem scanName_skip {k : ℕ} {isext : IsExt} (hisext : isext ≠ .atExt) (q : List UInt8) :
    ∀ (p t : List UInt8), 0x20 ∉ q →
      scanName (q.length + k) p.length isext (p ++ (q ++ t)) =
        scanName k (p ++ q).length isext (p ++ q ++ t) := by
  induction q with
  | nil =>
      intro p t _
      rw [List.length_nil, Nat.zero_add, List.append_nil, List.nil_append]
  | cons c q ih =>
      intro p t hq
      have hc : c ≠ 0x20 := fun h => hq (h ▸ List.mem_cons_self)
      have hrest := ih (p ++ [c]) t fun h => hq (List.mem_cons_of_mem c h)
      rw [List.append_assoc, List.append_assoc, List.length_append, List.length_singleton] at hrest
      rw [List.length_cons, Nat.add_right_comm, List.cons_append, scanName_char hc, if_neg hisext,
        show p ++ c :: (q ++ t) = p ++ ([c] ++ (q ++ t)) from rfl, hrest, List.append_assoc,
        List.singleton_append, List.append_assoc]

end Loops

/-! ### The walk over a name -/

section Walk

theorem length_snoc (p : List UInt8) (c : UInt8) : (p ++ [c]).length = p.length + 1 := by
  rw [List.length_append, List.length_singleton]

/-- From inside the extension on, the extension is left, with a zero behind it. -/
theorem scanName_tail {j z : ℕ} (p u t : List UInt8) (hu : 0x20 ∉ u) :
    ∃ rest, scanName (u.length + (j + z)) p.length .inExt
        (p ++ (u ++ (List.replicate j 0x20 ++ (List.replicate z 0 ++ 0 :: t)))) =
      .ok (.inExt, p ++ (u ++ 0 :: rest)) := by
  rw [scanName_skip (by decide) u p _ hu]
  cases j with
  | zero =>
      have hskip := scanName_skip (k := 0) (show IsExt.inExt ≠ .atExt by decide) (List.replicate z 0) (p ++ u)
        (0 :: t) (by simp)
      rw [List.length_replicate, Nat.add_zero] at hskip
      refine ⟨List.replicate z 0 ++ t, ?_⟩
      rw [Nat.zero_add, List.replicate_zero, List.nil_append, hskip]
      unfold scanName
      rw [← List.cons_append, ← List.replicate_succ, List.replicate_succ']
      simp only [List.append_assoc, List.singleton_append]
  | succ j =>
      refine ⟨List.replicate j 0x20 ++ (List.replicate z 0 ++ 0 :: t), ?_⟩
      rw [Nat.add_right_comm, List.replicate_succ, List.cons_append, scanName_inExt, List.append_assoc]

/-- Right behind the dot with zeros to come, nothing changes. -/
theorem scanName_zeros {k : ℕ} (p t : List UInt8) :
    scanName (k + 1) p.length .atExt (p ++ (List.replicate (k + 1) 0 ++ t)) =
      .ok (.inExt, p ++ (List.replicate (k + 1) 0 ++ t)) := by
  have hskip := scanName_skip (k := 0) (show IsExt.inExt ≠ .atExt by decide) (List.replicate k 0)
    (p ++ [0]) t (by simp)
  rw [List.length_replicate, Nat.add_zero, List.length_append, List.length_singleton] at hskip
  rw [List.replicate_succ, List.cons_append, scanName_char (by decide), if_pos rfl]
  simp only [List.append_assoc, List.singleton_append] at hskip
  rw [hskip]
  rfl

namespace FatName

variable (n : FatName)

theorem bytes_length : n.bytes.length = 11 := by
  have := n.base_length
  have := n.ext_length
  simp only [bytes, List.length_append, List.length_replicate]
  omega

/-- The buffer at the start of the walk. -/
theorem start_eq : n.bytes.take 11 ++ [0, 0] = n.bytes ++ [0, 0] := by
  rw [List.take_of_length_le n.bytes_length.le]

/-- The bytes when the walk meets the first space behind base and extension. -/
theorem bytes_body (h : n.ext = [] ∨ n.base.length = 8) :
    n.bytes = n.base ++ n.ext ++ List.replicate (11 - (n.base ++ n.ext).length) 0x20 := by
  have hb := n.base_length
  have he := n.ext_length
  unfold bytes
  rw [List.length_append]
  obtain h | h := h
  · rw [h, List.append_nil, List.nil_append, List.length_nil, List.append_assoc,
      ← List.replicate_add, show 8 - n.base.length + (3 - 0) = 11 - (n.base.length + 0) by omega]
  · rw [h, Nat.sub_self, List.replicate_zero, List.append_nil, List.append_assoc,
      show 3 - n.ext.length = 11 - (8 + n.ext.length) by omega]

theorem scan_noExt (h : n.ext = [] ∨ n.base.length = 8) (hshort : (n.base ++ n.ext).length < 11) :
    ∃ rest, scanName 11 0 .inBase (n.bytes.take 11 ++ [0, 0]) =
      .ok (.noExt, n.base ++ n.ext ++ 0 :: rest) := by
  obtain ⟨j, hj⟩ := Nat.exists_eq_add_of_lt hshort
  have hspace : 0x20 ∉ n.base ++ n.ext := by
    rw [List.mem_append]
    exact not_or.mpr ⟨n.base_space, n.ext_space⟩
  have hskip := scanName_skip (k := j + 1) (show IsExt.inBase ≠ .atExt by decide) (n.base ++ n.ext) []
    (List.replicate (j + 1) 0x20 ++ [0, 0]) hspace
  rw [start_eq, bytes_body n h, show 11 - (n.base ++ n.ext).length = j + 1 by omega]
  rw [← Nat.add_assoc, ← hj] at hskip
  simp only [List.length_nil, List.nil_append] at hskip
  rw [List.append_assoc, hskip, scanName_end _ _ (by omega)]
  exact ⟨_, rfl⟩

theorem scan_full (hb : n.base.length = 8) (he : n.ext.length = 3) :
    scanName 11 0 .inBase (n.bytes.take 11 ++ [0, 0]) = .ok (.inBase, n.base ++ n.ext ++ [0, 0]) := by
  have hspace : 0x20 ∉ n.base ++ n.ext := by
    rw [List.mem_append]
    exact not_or.mpr ⟨n.base_space, n.ext_space⟩
  have hskip := scanName_skip (k := 0) (show IsExt.inBase ≠ .atExt by decide) (n.base ++ n.ext) [] [0, 0]
    hspace
  have hlen : (n.base ++ n.ext).length = 11 := by rw [List.length_append, hb, he]
  rw [start_eq, bytes_body n (.inr hb), hlen, Nat.sub_self, List.replicate_zero, List.append_nil]
  rw [hlen] at hskip
  exact hskip

/-- A base of fewer than eight bytes and an extension: the walk finds the dot's place. -/
theorem scan_ext (hb : n.base.length < 8) (he : n.ext ≠ []) :
    ∃ isext rest, scanName 11 0 .inBase (n.bytes.take 11 ++ [0, 0]) =
        .ok (isext, n.base ++ 0x2E :: (n.ext ++ 0 :: rest)) ∧
      isext ≠ .inBase ∧ isext ≠ .noExt := by
  have hpos := n.base_pos
  have helen := n.ext_length
  have hspace := n.ext_space
  obtain ⟨b, hbl⟩ : ∃ b, n.base.length = b := ⟨_, rfl⟩
  obtain ⟨c, u, hext⟩ : ∃ c u, n.ext = c :: u := List.exists_cons_of_ne_nil he
  rw [hext] at helen hspace
  rw [List.length_cons] at helen
  have hc : c ≠ 0x20 := fun h => hspace (h ▸ List.mem_cons_self)
  have hu : 0x20 ∉ u := fun h => hspace (List.mem_cons_of_mem c h)
  -- the walk up to the dot
  have hstart : scanName 11 0 .inBase (n.bytes.take 11 ++ [0, 0]) =
      scanName (10 - b) (n.base ++ [0x2E]).length .atExt ((n.base ++ [0x2E]) ++
        (List.replicate (7 - b) 0x20 ++ (c :: u ++ List.replicate (2 - u.length) 0x20 ++ [0, 0]))) := by
    have hbytes : n.bytes = n.base ++ 0x20 :: (List.replicate (7 - b) 0x20 ++
        (c :: u ++ List.replicate (2 - u.length) 0x20)) := by
      unfold bytes
      rw [hext, hbl, show 8 - b = (7 - b) + 1 by omega, List.replicate_succ, List.length_cons,
        show 3 - (u.length + 1) = 2 - u.length by omega, List.append_assoc, List.cons_append]
    have hskip := scanName_skip (k := 11 - b) (show IsExt.inBase ≠ .atExt by decide) n.base []
      (0x20 :: (List.replicate (7 - b) 0x20 ++ (c :: u ++ List.replicate (2 - u.length) 0x20)) ++ [0, 0])
      n.base_space
    have hdot := scanName_dot (k := 10 - b) n.base
      (List.replicate (7 - b) 0x20 ++ (c :: u ++ List.replicate (2 - u.length) 0x20)) [0, 0]
      (by simp only [List.length_append, List.length_replicate, List.length_cons]; omega)
      (by simp [hc])
    rw [start_eq, hbytes]
    rw [hbl, show b + (11 - b) = 11 by omega] at hskip
    simp only [List.length_nil, List.nil_append] at hskip
    rw [List.append_assoc, hskip, List.cons_append, show 11 - b = (10 - b) + 1 by omega, hdot,
      List.length_append, List.length_singleton]
    simp only [List.append_assoc, List.singleton_append]
  rw [hstart]
  by_cases h7 : b = 7
  · -- the extension is in its place
    obtain ⟨rest, htail⟩ := scanName_tail (j := 2 - u.length) (z := 0) (n.base ++ [0x2E] ++ [c]) u [0] hu
    refine ⟨.inExt, rest, ?_, by decide, by decide⟩
    rw [show u.length + (2 - u.length + 0) = 2 by omega, List.length_append, List.length_singleton] at htail
    rw [h7, Nat.sub_self, List.replicate_zero, List.nil_append, List.cons_append, List.cons_append,
      show 10 - 7 = 2 + 1 from rfl, scanName_char hc, if_pos rfl, hext]
    simp only [List.append_assoc, List.replicate_zero, List.nil_append,
      List.cons_append] at htail ⊢
    exact htail
  · -- it is shifted over the rest of the base
    obtain ⟨j, hj⟩ := Nat.exists_eq_add_of_lt (show b < 7 by omega)
    have hshift := scanName_atExt (k := j + 3) (j := j) (n.base ++ [0x2E])
      (c :: u ++ List.replicate (2 - u.length) 0x20) [0]
      (by simp only [List.length_append, List.length_cons, List.length_replicate, List.length_nil]
          omega)
      (by
        intro d hd
        obtain rfl := Option.some.inj hd
        exact hc)
    have hplace : (n.base ++ [0x2E]).length + 1 = (n.base ++ [0x2E] ++ [c]).length := by
      rw [length_snoc (n.base ++ [0x2E])]
    rw [show 7 - b = j + 1 by omega, show 10 - b = j + 3 + 1 by omega, hshift, hplace, hext]
    cases u with
    | nil =>
        -- one byte: the two spaces behind it are shifted away as well
        have hrest := scanName_atExt (k := j + 2) (j := 1) (n.base ++ [0x2E] ++ [c])
          (List.replicate (j + 1) 0) [0]
          (by simp only [List.length_append, List.length_cons, List.length_replicate, List.length_nil]
              omega)
          (by
            intro d hd
            obtain rfl := Option.some.inj hd
            decide)
        have hzeros := scanName_zeros (k := j + 1) (n.base ++ [0x2E] ++ [c] ++ [0]) [0, 0]
        have hfour : List.replicate (j + 1) (0 : UInt8) ++ List.replicate 2 0 ++ [0, 0] =
            [0] ++ (List.replicate (j + 1 + 1) 0 ++ [0, 0]) := by
          rw [show [0, 0] = List.replicate 2 (0 : UInt8) from rfl,
            show [0] = List.replicate 1 (0 : UInt8) from rfl]
          simp only [← List.replicate_add]
          congr 1
          omega
        refine ⟨.inExt, List.replicate (j + 1 + 1) 0 ++ [0, 0], ?_, by decide, by decide⟩
        rw [show n.base ++ [0x2E] ++ ([c] ++ List.replicate (2 - ([] : List UInt8).length) 0x20 ++
            List.replicate (j + 1) 0 ++ [0, 0]) = n.base ++ [0x2E] ++ [c] ++
            (List.replicate (1 + 1) 0x20 ++ (List.replicate (j + 1) 0 ++ [0, 0])) by
          simp only [List.append_assoc, List.length_nil], hrest, hfour]
        rw [length_snoc (n.base ++ [0x2E] ++ [c])] at hzeros
        simp only [List.append_assoc, List.cons_append, List.nil_append]
          at hzeros ⊢
        exact hzeros
    | cons d u =>
        have hd : d ≠ 0x20 := fun h => hu (h ▸ List.mem_cons_self)
        obtain ⟨rest, htail⟩ := scanName_tail (j := 1 - u.length) (z := j + 1)
          (n.base ++ [0x2E] ++ [c] ++ [d]) u [0] fun h => hu (List.mem_cons_of_mem d h)
        refine ⟨.inExt, rest, ?_, by decide, by decide⟩
        rw [List.length_cons] at helen
        rw [show n.base ++ [0x2E] ++ (c :: d :: u ++ List.replicate (2 - (d :: u).length) 0x20 ++
            List.replicate (j + 1) 0 ++ [0, 0]) = n.base ++ [0x2E] ++ [c] ++ d ::
            (u ++ (List.replicate (1 - u.length) 0x20 ++ (List.replicate (j + 1) 0 ++ [0, 0]))) by
          rw [List.length_cons, show 2 - (u.length + 1) = 1 - u.length by omega]
          simp only [List.append_assoc, List.cons_append, List.nil_append],
          scanName_char hd, if_pos rfl]
        rw [show u.length + (1 - u.length + (j + 1)) = j + 2 by omega,
          length_snoc (n.base ++ [0x2E] ++ [c])] at htail
        simp only [List.append_assoc, List.cons_append] at htail ⊢
        exact htail

end FatName

end Walk

/-! ### The string -/

section Finish

theorem tolower_eq_zero {c : UInt8} : tolower c = 0 ↔ c = 0 := by
  unfold tolower
  constructor
  · intro h
    split_ifs at h with hc
    · have h₁ := UInt8.le_iff_toNat_le.mp hc.1
      have h₂ := UInt8.le_iff_toNat_le.mp hc.2
      have h₃ := congrArg UInt8.toNat h
      rw [UInt8.toNat_add] at h₃
      simp only [UInt8.reduceToNat] at h₁ h₂ h₃
      omega
    · exact h
  · rintro rfl
    rfl

theorem zero_mem_map_tolower {l : List UInt8} : 0 ∈ l.map tolower ↔ 0 ∈ l := by
  rw [List.mem_map]
  constructor
  · rintro ⟨c, hc, h⟩
    exact tolower_eq_zero.mp h ▸ hc
  · exact fun h => ⟨0, h, rfl⟩

theorem zero_notMem_cString (buf : List UInt8) : 0 ∉ cString buf := by
  intro h
  simpa using List.mem_takeWhile_imp h

theorem lowerName_eq {n : ℕ} (w : List UInt8) (hn : w.length < n) : ∀ (p t : List UInt8), 0 ∉ w →
    lowerName n p.length (p ++ (w ++ 0 :: t)) = .ok (p ++ (w.map tolower ++ 0 :: t)) := by
  induction w generalizing n with
  | nil =>
      intro p t _
      obtain ⟨n, rfl⟩ := Nat.exists_eq_add_of_lt hn
      unfold lowerName
      rw [List.nil_append, charAt_append, ok_bind, if_pos rfl]
      rfl
  | cons c w ih =>
      intro p t hw
      obtain ⟨n, rfl⟩ := Nat.exists_eq_add_of_lt hn
      have hc : c ≠ 0 := fun h => hw (h ▸ List.mem_cons_self)
      have hrest := ih (n := (c :: w).length + n) (by rw [List.length_cons]; omega) (p ++ [tolower c]) t
        fun h => hw (List.mem_cons_of_mem c h)
      rw [length_snoc] at hrest
      unfold lowerName
      rw [List.cons_append, charAt_append, ok_bind, if_neg hc, putChar_append, ok_bind]
      simp only [List.append_assoc, List.map_cons, List.cons_append] at hrest ⊢
      exact hrest

/-- A walk that has not ended in the base: the entry is ignored, or its name is what stands before
the first zero. -/
theorem finishName_eq {isext : IsExt} {c : UInt8} {w t : List UInt8} (hisext : isext ≠ .inBase)
    (hlen : (c :: w).length < 13) (hzero : 0 ∉ c :: w) :
    finishName isext (c :: w ++ 0 :: t) =
      .ok (if isext = .noExt ∧ c = 0x2E then none else some ((c :: w).map tolower ++ 0 :: t)) := by
  have hlower := lowerName_eq (c :: w) hlen [] t hzero
  have hfirst := charAt_append [] c (w ++ 0 :: t)
  rw [List.length_nil, List.nil_append] at hlower hfirst
  unfold finishName
  rw [List.cons_append, hfirst, ok_bind]
  by_cases hskip : isext = .noExt ∧ c = 0x2E
  · rw [if_pos hskip, if_pos hskip]
  · have hdot : ∀ name, insertDot isext name = .ok name := fun _ => if_neg hisext
    rw [if_neg hskip, if_neg hskip, hdot, ok_bind, ← List.cons_append, hlower, ok_bind]
    rfl

theorem shiftExt_eq {p : List UInt8} (hp : p.length = 8) (a b c z : UInt8) (t : List UInt8) :
    shiftExt (p ++ a :: b :: c :: z :: t) = .ok (p ++ 0x2E :: a :: b :: c :: t) := by
  have hget := charAt_append (p ++ [a, b]) c (z :: t)
  have hput := putChar_append (p ++ [a, b, c]) z c t
  have hget₁ := charAt_append (p ++ [a]) b (c :: c :: t)
  have hput₁ := putChar_append (p ++ [a, b]) c b (c :: t)
  have hget₂ := charAt_append p a (b :: b :: c :: t)
  have hput₂ := putChar_append (p ++ [a]) b a (b :: c :: t)
  have hput₃ := putChar_append p a 0x2E (a :: b :: c :: t)
  simp only [List.length_append, hp, List.length_cons, List.length_nil, List.append_assoc,
    List.cons_append, List.nil_append] at hget hput hget₁ hput₁ hget₂ hput₂ hput₃
  unfold shiftExt
  rw [hget, ok_bind, hput, ok_bind, hget₁, ok_bind, hput₁, ok_bind, hget₂, ok_bind, hput₂, ok_bind,
    hput₃]

end Finish

namespace FatName

variable {n n' : FatName}

/-- A name without a zero byte, when the first space stands behind base and extension. -/
theorem vfatShortName_noExt (h : n.ext = [] ∨ n.base.length = 8)
    (hshort : (n.base ++ n.ext).length < 11) (hbase : 0 ∉ n.base) (hext : 0 ∉ n.ext) :
    ∃ r, vfatShortName n.bytes = .ok r ∧ (n.base.head? = some 0x2E → r = none) ∧
      (n.base.head? ≠ some 0x2E → ∃ name, r = some name ∧
        cString name = (n.base ++ n.ext).map tolower) := by
  obtain ⟨rest, hscan⟩ := n.scan_noExt h hshort
  obtain ⟨c, w, hw⟩ := List.exists_cons_of_length_pos n.base_pos
  have hzero : 0 ∉ c :: (w ++ n.ext) := by
    rw [← List.cons_append, ← hw, List.mem_append]
    exact not_or.mpr ⟨hbase, hext⟩
  have hfinish := finishName_eq (t := rest) (show IsExt.noExt ≠ .inBase by decide)
    (by rw [hw, List.cons_append] at hshort; omega) hzero
  refine ⟨if IsExt.noExt = .noExt ∧ c = 0x2E then none
    else some ((c :: (w ++ n.ext)).map tolower ++ 0 :: rest), ?_, ?_, ?_⟩
  · unfold vfatShortName
    rw [hscan, ok_bind, hw]
    exact hfinish
  · intro hhead
    rw [hw] at hhead
    rw [if_pos ⟨rfl, Option.some.inj hhead⟩]
  · intro hhead
    rw [hw] at hhead ⊢
    rw [if_neg (fun hc => hhead (congrArg some hc.2))]
    refine ⟨_, rfl, ?_⟩
    rw [cString_append (mt zero_mem_map_tolower.mp hzero), List.cons_append]

theorem vfatShortName_ext (hb : n.base.length < 8) (he : n.ext ≠ []) (hbase : 0 ∉ n.base)
    (hext : 0 ∉ n.ext) : ∃ name, vfatShortName n.bytes = .ok (some name) ∧ cString name = n.text := by
  obtain ⟨isext, rest, hscan, hin, hno⟩ := n.scan_ext hb he
  obtain ⟨c, w, hw⟩ := List.exists_cons_of_length_pos n.base_pos
  have helen := n.ext_length
  have hzero : 0 ∉ c :: (w ++ 0x2E :: n.ext) := by
    rw [← List.cons_append, ← hw, List.mem_append, List.mem_cons]
    exact not_or.mpr ⟨hbase, not_or.mpr ⟨by decide, hext⟩⟩
  have hfinish := finishName_eq (t := rest) hin
    (by
      rw [← List.cons_append, ← hw, List.length_append, List.length_cons]
      omega) hzero
  rw [if_neg fun hc => hno hc.1] at hfinish
  refine ⟨_, ?_, cString_append (mt zero_mem_map_tolower.mp hzero) rest |>.trans ?_⟩
  · unfold vfatShortName
    rw [hscan, ok_bind]
    simp only
    rw [hw]
    simp only [List.append_assoc, List.cons_append] at hfinish ⊢
    exact hfinish
  · unfold text
    rw [if_neg he, ← List.cons_append, ← hw, List.map_append, List.map_cons]
    rfl

theorem vfatShortName_full (hb : n.base.length = 8) (he : n.ext.length = 3) (hbase : 0 ∉ n.base)
    (hext : 0 ∉ n.ext) : ∃ name, vfatShortName n.bytes = .ok (some name) ∧ cString name = n.text := by
  obtain ⟨a, b, c, habc⟩ := List.length_eq_three.mp he
  obtain ⟨d, w, hw⟩ := List.exists_cons_of_length_pos n.base_pos
  have hzero : 0 ∉ n.base ++ 0x2E :: n.ext := by
    rw [List.mem_append, List.mem_cons]
    exact not_or.mpr ⟨hbase, not_or.mpr ⟨by decide, hext⟩⟩
  have hlower := lowerName_eq (n := 13) (n.base ++ 0x2E :: n.ext)
    (by rw [List.length_append, List.length_cons]; omega) [] [] hzero
  have hfirst := charAt_append [] d (w ++ (n.ext ++ [0, 0]))
  have hdot := shiftExt_eq hb a b c 0 [0]
  refine ⟨_, ?_, cString_append (mt zero_mem_map_tolower.mp hzero) [] |>.trans ?_⟩
  · unfold vfatShortName
    rw [n.scan_full hb he, ok_bind]
    simp only
    unfold finishName
    rw [List.length_nil, List.nil_append, ← List.cons_append, ← List.append_assoc, ← hw] at hfirst
    rw [List.append_assoc] at hfirst ⊢
    unfold insertDot
    rw [hfirst, ok_bind, if_neg (fun hc => by cases hc.1), if_pos rfl, habc,
      show [a, b, c] ++ [0, 0] = a :: b :: c :: 0 :: [0] from rfl, hdot, ok_bind]
    rw [habc] at hlower
    rw [List.length_nil, List.nil_append, List.append_assoc] at hlower
    rw [show 0x2E :: a :: b :: c :: [0] = 0x2E :: [a, b, c] ++ [0] from rfl, hlower, ok_bind]
    rfl
  · have hne : n.ext ≠ [] := by
      rw [habc]
      exact List.cons_ne_nil _ _
    unfold text
    rw [if_neg hne, List.map_append, List.map_cons]
    rfl

/-- The names that are decoded. -/
theorem decodes_iff : n.Decodes ↔ n.Plain := by
  have hblen := n.base_length
  have helen := n.ext_length
  constructor
  · rintro ⟨r, hrun, hdots, hname⟩
    have hzero : 0 ∉ n.base ∧ 0 ∉ n.ext := by
      by_cases hd : n.Dots
      · obtain ⟨he, hb | hb⟩ := hd <;> rw [he, hb] <;> decide
      · obtain ⟨name, -, htext⟩ := hname hd
        have h0 := zero_notMem_cString name
        rw [htext] at h0
        unfold text at h0
        rw [List.mem_append, zero_mem_map_tolower, not_or] at h0
        refine ⟨h0.1, fun he => h0.2 ?_⟩
        rw [if_neg (List.ne_nil_of_mem he)]
        exact List.mem_cons_of_mem _ (zero_mem_map_tolower.mpr he)
    refine ⟨fun hb => ?_, fun he hhead => ?_, hzero.1, hzero.2⟩
    · -- a base of eight bytes
      rw [← not_or]
      intro hshort
      have hlen : (n.base ++ n.ext).length < 11 := by rw [List.length_append]; omega
      have hne : n.ext ≠ [] := by
        rintro h0
        rw [h0] at hshort
        obtain hc | hc := hshort <;> cases hc
      obtain ⟨r', hrun', hskip, hbody⟩ := vfatShortName_noExt (.inr hb) hlen hzero.1 hzero.2
      obtain rfl := Except.ok.inj (hrun.symm.trans hrun')
      obtain ⟨name, rfl, htext⟩ := hname fun hd => hne hd.1
      by_cases hhead : n.base.head? = some 0x2E
      · cases hskip hhead
      · obtain ⟨name', hsome, hbody⟩ := hbody hhead
        obtain rfl := Option.some.inj hsome
        have hlen := congrArg List.length (htext.symm.trans hbody)
        unfold text at hlen
        rw [if_neg hne] at hlen
        simp only [List.length_append, List.length_map, List.length_cons] at hlen
        omega
    · -- a dot at the start
      by_contra hd
      have hlen : (n.base ++ n.ext).length < 11 := by
        rw [List.length_append, he, List.length_nil]
        omega
      obtain ⟨r', hrun', hskip, -⟩ := vfatShortName_noExt (.inl he) hlen hzero.1 hzero.2
      obtain rfl := Except.ok.inj (hrun.symm.trans hrun')
      obtain ⟨name, rfl, -⟩ := hname hd
      cases hskip hhead
  · intro h
    by_cases he : n.ext = []
    · have hlen : (n.base ++ n.ext).length < 11 := by
        rw [List.length_append, he, List.length_nil]
        omega
      obtain ⟨r, hrun, hskip, hbody⟩ := vfatShortName_noExt (.inl he) hlen h.base_zero h.ext_zero
      refine ⟨r, hrun, fun hd => hskip ?_, fun hd => ?_⟩
      · obtain ⟨-, hb | hb⟩ := hd <;> rw [hb] <;> rfl
      · obtain ⟨name, hsome, htext⟩ := hbody fun hhead => hd (h.hidden he hhead)
        refine ⟨name, hsome, htext.trans ?_⟩
        unfold text
        rw [if_pos he, he, List.append_nil, List.append_nil]
    · have hnd : ¬n.Dots := fun hd => he hd.1
      have hpos : 0 < n.ext.length := List.length_pos_iff.mpr he
      have hrun : ∃ name, vfatShortName n.bytes = .ok (some name) ∧ cString name = n.text := by
        by_cases hb : n.base.length < 8
        · exact vfatShortName_ext hb he h.base_zero h.ext_zero
        · have hfull := h.short (by omega)
          exact vfatShortName_full (by omega) (by omega) h.base_zero h.ext_zero
      obtain ⟨name, hrun, htext⟩ := hrun
      exact ⟨some name, hrun, fun hd => absurd hd hnd, fun _ => ⟨name, rfl, htext⟩⟩

/-- Names of the same text have the same base and extension if their bases are of one length. -/
theorem sameUpToCase_of_text (htext : n.text = n'.text) (hlen : n.base.length = n'.base.length) :
    n.SameUpToCase n' := by
  unfold text at htext
  obtain ⟨hbase, hext⟩ := List.append_inj htext (by rw [List.length_map, List.length_map, hlen])
  refine ⟨hbase, ?_⟩
  split_ifs at hext with h h' h'
  · rw [h, h']
  · exact (List.cons.inj hext).2

theorem Dots.text_eq (h : n.Dots) : n.text = n.base := by
  unfold text
  rw [if_pos h.1, List.append_nil]
  obtain ⟨-, hb | hb⟩ := h <;> rw [hb] <;> rfl

/-- The texts of ambiguous names are longer than two characters. -/
theorem Ambiguous.not_dots (h : n.Ambiguous n') : ¬n.Dots := by
  intro hd
  have hpos' := n'.base_pos
  have hle : n.base.length ≤ 2 := by
    obtain ⟨-, hb | hb⟩ := hd <;> rw [hb] <;> decide
  have hlen := congrArg List.length (hd.text_eq.symm.trans h.2)
  have hne := h.1
  unfold text at hlen
  split_ifs at hlen with he
  · simp only [List.length_append, List.length_map, List.length_nil] at hlen
    omega
  · have hpos := List.length_pos_iff.mpr he
    simp only [List.length_append, List.length_map, List.length_cons] at hlen
    omega

theorem Ambiguous.symm (h : n.Ambiguous n') : n'.Ambiguous n := ⟨h.1.symm, h.2.symm⟩

/-- Without a dot in their bases, names are not ambiguous. -/
theorem not_ambiguous (hb : 0x2E ∉ n.base.map tolower) (hb' : 0x2E ∉ n'.base.map tolower) :
    ¬n.Ambiguous n' := by
  rintro ⟨hne, htext⟩
  have hsplit : ∀ m : FatName, 0x2E ∉ m.base.map tolower →
      m.text.takeWhile (· ≠ 0x2E) = m.base.map tolower := by
    intro m hm
    unfold text
    rw [List.takeWhile_append_of_pos fun c hc => by
      simpa using fun h : c = 0x2E => hm (h ▸ hc)]
    split_ifs
    · rw [List.takeWhile_nil, List.append_nil]
    · rw [List.takeWhile_cons_of_neg (by decide), List.append_nil]
  have hbase := congrArg List.length ((hsplit n hb).symm.trans (htext ▸ hsplit n' hb'))
  rw [List.length_map, List.length_map] at hbase
  exact hne hbase

end FatName

/-- Two names are decoded, and to different strings unless they differ in case only, exactly if the
walk finds its way in both and they are not ambiguous. -/
theorem shortNames_decode_iff (n n' : FatName) :
    n.Distinguished n' ↔ n.Plain ∧ n'.Plain ∧ ¬n.Ambiguous n' := by
  unfold FatName.Distinguished
  rw [FatName.decodes_iff, FatName.decodes_iff]
  constructor
  · rintro ⟨h, h', hdiff⟩
    refine ⟨h, h', fun hamb => ?_⟩
    obtain ⟨r, hrun, -, hname⟩ := FatName.decodes_iff.mpr h
    obtain ⟨r', hrun', -, hname'⟩ := FatName.decodes_iff.mpr h'
    obtain ⟨name, rfl, htext⟩ := hname hamb.not_dots
    obtain ⟨name', rfl, htext'⟩ := hname' hamb.symm.not_dots
    apply hdiff _ name name' hrun hrun' (htext.trans (hamb.2.trans htext'.symm))
    intro hsame
    have hlen := congrArg List.length hsame.1
    rw [List.length_map, List.length_map] at hlen
    exact hamb.1 hlen
  · rintro ⟨h, h', hamb⟩
    refine ⟨h, h', fun hdiff name name' hrun hrun' heq => ?_⟩
    obtain ⟨r, hok, hdots, hname⟩ := FatName.decodes_iff.mpr h
    obtain ⟨r', hok', hdots', hname'⟩ := FatName.decodes_iff.mpr h'
    obtain rfl := Except.ok.inj (hrun.symm.trans hok)
    obtain rfl := Except.ok.inj (hrun'.symm.trans hok')
    obtain ⟨m, hm, htext⟩ := hname fun hd => by cases hdots hd
    obtain ⟨m', hm', htext'⟩ := hname' fun hd => by cases hdots' hd
    obtain rfl := Option.some.inj hm
    obtain rfl := Option.some.inj hm'
    have hboth : n.text = n'.text := htext.symm.trans (heq.trans htext')
    by_cases hlen : n.base.length = n'.base.length
    · exact hdiff (FatName.sameUpToCase_of_text hboth hlen)
    · exact hamb ⟨hlen, hboth⟩

/-- `FILENAME.GZ`. -/
def longBase : FatName where
  base := [0x46, 0x49, 0x4C, 0x45, 0x4E, 0x41, 0x4D, 0x45]
  ext := [0x47, 0x5A]
  base_pos := by decide
  base_length := by decide
  ext_length := by decide
  base_space := by decide
  ext_space := by decide

/-- It is read as `filenamegz`. -/
theorem shortNames_lose_dot : ¬∀ n n' : FatName, n.Distinguished n' := by
  intro h
  obtain ⟨⟨r, hrun, -, hname⟩, -⟩ := h longBase longBase
  have hread : OkAnd (vfatShortName longBase.bytes) fun r =>
      r.map cString = some [0x66, 0x69, 0x6C, 0x65, 0x6E, 0x61, 0x6D, 0x65, 0x67, 0x7A] := by decide
  obtain ⟨name, rfl, htext⟩ := hname fun hd => by cases hd.1
  rw [hrun] at hread
  have hlost := Option.some.inj hread
  rw [htext] at hlost
  cases hlost

/-! ### Any eleven bytes -/

section Total

/-- A buffer with its two zeros. -/
def ShortBuffer (name : List UInt8) : Prop := ∃ q : List UInt8, q.length = 11 ∧ name = q ++ [0, 0]

theorem ShortBuffer.put {name : List UInt8} (h : ShortBuffer name) {x : ℕ} (hx : x < 11) (c : UInt8) :
    ∃ name', putChar name x c = .ok name' ∧ ShortBuffer name' := by
  obtain ⟨q, hq, rfl⟩ := h
  refine ⟨q.set x c ++ [0, 0], ?_, q.set x c, by rw [List.length_set, hq], rfl⟩
  unfold putChar
  rw [if_pos (by rw [List.length_append, hq]; exact Nat.lt_add_right _ hx),
    List.set_append_left _ _ (by omega)]

theorem ShortBuffer.get {name : List UInt8} (h : ShortBuffer name) {x : ℕ} (hx : x < 13) :
    ∃ c, charAt name x = .ok c := by
  obtain ⟨q, hq, rfl⟩ := h
  have hlt : x < (q ++ [0, 0]).length := by
    rw [List.length_append, hq]
    exact hx
  unfold charAt
  rw [List.getElem?_eq_getElem hlt]
  exact ⟨_, rfl⟩

/-- Whatever spaces are to be removed, the loop ends at a zero at the latest. -/
theorem ShortBuffer.remove {name : List UInt8} (h : ShortBuffer name) {x : ℕ} (hx : x < 11) :
    ∃ name', removeSpaces 12 x name = .ok name' ∧ ShortBuffer name' := by
  obtain ⟨q, hq, rfl⟩ := h
  have hsplit := List.takeWhile_append_dropWhile (p := (· = (0x20 : UInt8))) (l := q.drop x)
  have hspaces : (q.drop x).takeWhile (· = (0x20 : UInt8)) =
      List.replicate ((q.drop x).takeWhile (· = (0x20 : UInt8))).length 0x20 := by
    apply List.eq_replicate_of_mem
    intro c hc
    simpa using List.mem_takeWhile_imp hc
  have hlen := congrArg List.length hsplit
  rw [List.length_append, List.length_drop] at hlen
  have hremove := removeSpaces_eq (n := 12) (k := ((q.drop x).takeWhile (· = (0x20 : UInt8))).length)
    (by omega) (q.take x) ((q.drop x).dropWhile (· = (0x20 : UInt8))) [0]
    (by rw [List.length_take]; omega)
    (by
      intro c hc
      have hnot := List.head?_dropWhile_not (· = (0x20 : UInt8)) (q.drop x)
      rw [Option.mem_def.mp hc] at hnot
      simpa using hnot)
  rw [← hspaces, ← List.append_assoc (List.takeWhile _ _), hsplit, ← List.append_assoc,
    List.take_append_drop, List.length_take, Nat.min_eq_left (by omega)] at hremove
  refine ⟨_, hremove, q.take x ++ ((q.drop x).dropWhile (· = (0x20 : UInt8)) ++
    List.replicate ((q.drop x).takeWhile (· = (0x20 : UInt8))).length 0), ?_, ?_⟩
  · rw [List.length_append, List.length_take, List.length_append, List.length_replicate]
    omega
  · simp only [List.append_assoc]

theorem ShortBuffer.hasExtension {name : List UInt8} (h : ShortBuffer name) :
    ∀ {k y : ℕ}, y + k ≤ 11 → ∃ b, hasExtension k y name = .ok b
  | 0, y, _ => ⟨false, rfl⟩
  | k + 1, y, hy => by
      obtain ⟨c, hc⟩ := h.get (show y < 13 by omega)
      unfold GalaxyOS.hasExtension
      rw [hc, ok_bind]
      split_ifs
      · exact h.hasExtension (by omega)
      · exact ⟨true, rfl⟩

theorem ShortBuffer.scan : ∀ {k x : ℕ} {isext : IsExt} {name : List UInt8}, ShortBuffer name →
    x + k ≤ 11 → ∃ isext' name', scanName k x isext name = .ok (isext', name') ∧ ShortBuffer name'
  | 0, x, isext, name, h, _ => ⟨isext, name, rfl, h⟩
  | k + 1, x, isext, name, h, hx => by
      obtain ⟨c, hc⟩ := h.get (show x < 13 by omega)
      unfold scanName
      rw [hc, ok_bind]
      by_cases hspace : c = 0x20
      · rw [if_pos hspace]
        -- the first space of a base
        have hfirst : ∃ isext' name', (do
            let ext ← GalaxyOS.hasExtension (11 - x) x name
            if ext then do
              let name ← putChar name x 0x2E
              scanName k (x + 1) .atExt name
            else do
              let name ← putChar name x 0
              .ok (.noExt, name)) = .ok (isext', name') ∧ ShortBuffer name' := by
          obtain ⟨b, hb⟩ := h.hasExtension (show x + (11 - x) ≤ 11 by omega)
          rw [hb, ok_bind]
          cases b with
          | true =>
              obtain ⟨name₁, hput, h₁⟩ := h.put (show x < 11 by omega) 0x2E
              rw [if_pos rfl, hput, ok_bind]
              exact h₁.scan (by omega)
          | false =>
              obtain ⟨name₁, hput, h₁⟩ := h.put (show x < 11 by omega) 0
              rw [if_neg (by decide), hput, ok_bind]
              exact ⟨_, _, rfl, h₁⟩
        cases isext with
        | inExt =>
            obtain ⟨name₁, hput, h₁⟩ := h.put (show x < 11 by omega) 0
            simp only
            rw [hput, ok_bind]
            exact ⟨_, _, rfl, h₁⟩
        | atExt =>
            obtain ⟨name₁, hremove, h₁⟩ := h.remove (show x < 11 by omega)
            simp only
            rw [hremove, ok_bind]
            exact h₁.scan (by omega)
        | inBase => exact hfirst
        | noExt => exact hfirst
      · rw [if_neg hspace]
        exact h.scan (by omega)

/-- A name with a zero in it is brought to lower case. -/
theorem lowerName_total {name : List UInt8} (hlen : name.length = 13) (hzero : 0 ∈ name) :
    ∃ name', lowerName 13 0 name = .ok name' := by
  have hsplit := List.takeWhile_append_dropWhile (p := (· ≠ (0 : UInt8))) (l := name)
  obtain ⟨t, ht⟩ : ∃ t, name.dropWhile (· ≠ (0 : UInt8)) = 0 :: t := by
    cases hd : name.dropWhile (· ≠ (0 : UInt8)) with
    | nil =>
        have := List.dropWhile_eq_nil_iff.mp hd 0 hzero
        simp at this
    | cons c t =>
        have hnot := List.head?_dropWhile_not (· ≠ (0 : UInt8)) name
        rw [hd, List.head?_cons] at hnot
        refine ⟨t, ?_⟩
        congr 1
        simpa using hnot
  rw [ht] at hsplit
  have hlength := congrArg List.length hsplit
  rw [List.length_append, List.length_cons, hlen] at hlength
  have hnotin : 0 ∉ name.takeWhile (· ≠ (0 : UInt8)) := by
    intro h
    simpa using List.mem_takeWhile_imp h
  have hlower := lowerName_eq (n := 13) (name.takeWhile (· ≠ (0 : UInt8))) (by omega) [] t hnotin
  rw [List.nil_append, hsplit] at hlower
  exact ⟨_, hlower⟩

theorem ShortBuffer.finish {name : List UInt8} (h : ShortBuffer name) (isext : IsExt) :
    ∃ r, finishName isext name = .ok r := by
  obtain ⟨c, hc⟩ := h.get (show 0 < 13 by omega)
  obtain ⟨q, hq, rfl⟩ := h
  have hdot : ∃ name', insertDot isext (q ++ [0, 0]) = .ok name' ∧ name'.length = 13 ∧ 0 ∈ name' := by
    unfold insertDot
    split_ifs
    · obtain ⟨u, v, rfl, hu⟩ : ∃ u v, q = u ++ v ∧ u.length = 8 :=
        ⟨q.take 8, q.drop 8, (List.take_append_drop 8 q).symm, by rw [List.length_take, hq]; rfl⟩
      rw [List.length_append, hu] at hq
      obtain ⟨a, b, d, rfl⟩ := List.length_eq_three.mp (show v.length = 3 by omega)
      refine ⟨_, by rw [List.append_assoc]; exact shiftExt_eq hu a b d 0 [0], ?_, by simp⟩
      rw [List.length_append, hu]
      rfl
    · exact ⟨_, rfl, by rw [List.length_append, hq]; rfl, by simp⟩
  obtain ⟨name', hdot, hlen, hzero⟩ := hdot
  obtain ⟨name'', hlower⟩ := lowerName_total hlen hzero
  unfold finishName
  rw [hc, ok_bind]
  split_ifs
  · exact ⟨none, rfl⟩
  · rw [hdot, ok_bind, hlower, ok_bind]
    exact ⟨some name'', rfl⟩

/-- Every entry is converted. -/
theorem vfatShortName_total {slot : List UInt8} (h : 11 ≤ slot.length) :
    ∃ r, vfatShortName slot = .ok r := by
  have hbuf : ShortBuffer (slot.take 11 ++ [0, 0]) :=
    ⟨slot.take 11, by rw [List.length_take]; omega, rfl⟩
  obtain ⟨isext, name, hscan, hname⟩ : ∃ isext name,
      scanName 11 0 .inBase (slot.take 11 ++ [0, 0]) = .ok (isext, name) ∧ ShortBuffer name :=
    hbuf.scan (by omega)
  obtain ⟨r, hr⟩ := hname.finish isext
  exact ⟨r, by unfold vfatShortName; rw [hscan, ok_bind]; exact hr⟩

end Total

end GalaxyOS
