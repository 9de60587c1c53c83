import GalaxyOS.Fs.Tree

/-! # Where a path leads

`Resolves` says where a path leads: to the directory that is reached from the root of the named
volume by following all components.  `vfs_find_directory` is compared with it.  The lookup goes on
from the directory it has reached when a component has no child of that name, and while it scans
for a component it also looks through the child it has just entered.  `PathClear` rules both out.

`lookup_exact_iff` says that nothing else goes wrong: `scanChildren_noRepeat` is about one scan,
`walkExact_iff` about the walk along all components, and `vfsFindDirectory_cases` finds the volume. -/

namespace GalaxyOS

open Pieces

variable {ι : Type} {fs : Vfs ι} {d e p : ι} {c : List Char} {cs : List (List Char)}

/-! ### The meaning of a path -/

/-- The child of `d` named `c`. -/
def childNamed (fs : Vfs ι) (d : ι) (c : List Char) : Option ι :=
  (fs.dir d).directories.find? fun e => (fs.dir e).name = c

/-- One component: `.` stays, `..` goes to the parent, and any other name to the child. -/
def followOne (fs : Vfs ι) (d : ι) (c : List Char) : Option ι :=
  if c = "..".toList then (fs.dir d).parent
  else if c = ".".toList then some d
  else childNamed fs d c

/-- Every component in turn. -/
def follow (fs : Vfs ι) (d : ι) : List (List Char) → Option ι
  | [] => some d
  | c :: cs => (followOne fs d c).bind fun e => follow fs e cs

/-- What stands before the first colon. -/
def volumeName (path : List Char) : Option (List Char) :=
  if ':' ∈ path then some (path.takeWhile (· ≠ ':')) else none

/-- The non-empty pieces between the slashes after the first colon. -/
def components (path : List Char) : List (List Char) :=
  pieces '/' (path.dropWhile (· ≠ ':')).tail

/-- A volume named `v` with this root directory is mounted. -/
def MountedAs (fs : Vfs ι) (v : List Char) (root : ι) : Prop :=
  ∃ bd ∈ fs.blockdevices, bd.mounted ∧ ∃ m ∈ bd.mountpoint, m.name = v ∧ m.root = root

/-- The path leads to the directory `d`. -/
def Resolves (fs : Vfs ι) (path : List Char) (d : ι) : Prop :=
  ∃ v root, volumeName path = some v ∧ MountedAs fs v root ∧
    follow fs root (components path) = some d

/-- Both lookups find exactly what is there: the directory the path leads to, and for every name
the file of that name in this directory. -/
def LookupExact (fs : Vfs ι) (path : List Char) : Prop :=
  (∀ d, vfsFindDirectory fs path = some d ↔ Resolves fs path d) ∧
  ∀ name, '/' ∉ name → ∀ f, vfsFindFile fs (path ++ '/' :: name) = some f ↔
    ∃ d, Resolves fs path d ∧ f ∈ (fs.dir d).files ∧ (fs.file f).name = name

/-- `q` is a path to a directory on the way to where `path` leads, or `path` itself. -/
def LeadsTo (q path : List Char) : Prop :=
  volumeName q = volumeName path ∧ components q <+: components path

/-! ### Paths on which the lookup is right -/

/-- No child of `d` named `c` has a child named `c` further down in its own list than it stands in
the list of `d`. -/
def NoRepeat (fs : Vfs ι) (d : ι) (c : List Char) : Prop :=
  ∀ (j k : ℕ) (e x : ι), (fs.dir d).directories[j]? = some e → (fs.dir e).name = c →
    (fs.dir e).directories[k]? = some x → (fs.dir x).name = c → k ≤ j

/-- None of the components leads anywhere from `d`, up to a `..` at the root, which ends the
lookup. -/
def Stuck (fs : Vfs ι) (d : ι) : List (List Char) → Prop
  | [] => True
  | c :: cs => c ≠ ".".toList ∧ childNamed fs d c = none ∧
      if c = "..".toList then (fs.dir d).parent = none else Stuck fs d cs

/-- Every component leads somewhere from where the ones before it have led, no `.` or `..` is also
the name of a child there, and no child that is entered repeats its name; after a component that
has no child none leads anywhere. -/
def Traceable (fs : Vfs ι) (d : ι) : List (List Char) → Prop
  | [] => True
  | c :: cs =>
    if c = "..".toList then childNamed fs d c = none ∧ ∀ p ∈ (fs.dir d).parent, Traceable fs p cs
    else if c = ".".toList then childNamed fs d c = none ∧ Traceable fs d cs
    else
      match childNamed fs d c with
      | some e => NoRepeat fs d c ∧ Traceable fs e cs
      | none => Stuck fs d cs

/-- The volume is the only one of its name, its name is not empty unless the path stops at the
root, and the components are traceable from its root. -/
def PathClear (fs : Vfs ι) (path : List Char) : Prop :=
  ∀ v root, volumeName path = some v → MountedAs fs v root →
    (∀ root', MountedAs fs v root' → root' = root) ∧ (v = [] → components path = []) ∧
      Traceable fs root (components path)

/-! ### Scanning the children -/

theorem childNamed_eq_none :
    childNamed fs d c = none ↔ ∀ e ∈ (fs.dir d).directories, (fs.dir e).name ≠ c := by
  simp [childNamed]

theorem childNamed_getElem (h : childNamed fs d c = some e) :
    ∃ k : ℕ, (fs.dir d).directories[k]? = some e ∧ (fs.dir e).name = c := by
  obtain ⟨k, hk⟩ := List.getElem?_of_mem (List.mem_of_find?_eq_some h)
  exact ⟨k, hk, by simpa using List.find?_some h⟩

/-- Siblings of one name are at one index. -/
theorem sibling_index {j k : ℕ} {x : ι} (hj : (fs.dir d).directories[j]? = some e)
    (hk : (fs.dir d).directories[k]? = some x) (h : (fs.dir e).name = (fs.dir x).name) : j = k := by
  have hnames := fs.directory_names d
  have hj' : ((fs.dir d).directories.map fun e => (fs.dir e).name)[j]? = some (fs.dir e).name := by
    rw [List.getElem?_map, hj, Option.map_some]
  have hk' : ((fs.dir d).directories.map fun e => (fs.dir e).name)[k]? = some (fs.dir x).name := by
    rw [List.getElem?_map, hk, Option.map_some]
  have hlen : j < ((fs.dir d).directories.map fun e => (fs.dir e).name).length :=
    (List.getElem?_eq_some_iff.mp hj').1
  exact (List.getElem?_inj hlen hnames).mp (hj'.trans (h ▸ hk'.symm))

theorem parent_height (h : p ∈ (fs.dir d).parent) : fs.height d < fs.height p :=
  fs.child_height p d (fs.parent_child d p h)

/-- The scan stays when there is no child of the name from index `i` on. -/
theorem scanChildren_none {i : ℕ} {set : Bool}
    (h : ∀ k ≥ i, ∀ e, (fs.dir d).directories[k]? = some e → (fs.dir e).name ≠ c) :
    scanChildren fs c i d set = (d, set) := by
  induction hn : (fs.dir d).directories.length - i generalizing i with
  | zero =>
    unfold scanChildren
    rw [dif_neg (by omega)]
  | succ n ih =>
    have hi : i < (fs.dir d).directories.length := by omega
    unfold scanChildren
    rw [dif_pos hi]
    have hname := h i (Nat.le_refl i) _ (List.getElem?_eq_getElem hi)
    simp only [if_neg hname]
    exact ih (fun k hk => h k (by omega)) (by omega)

/-- The scan enters the child of the name and goes on among the children of that child. -/
theorem scanChildren_child {i k : ℕ} (set : Bool) (hk : (fs.dir d).directories[k]? = some e)
    (hname : (fs.dir e).name = c) (hi : i ≤ k) :
    scanChildren fs c i d set = scanChildren fs c (k + 1) e true := by
  induction hn : k - i generalizing i with
  | zero =>
    obtain rfl : i = k := by omega
    obtain ⟨hlt, rfl⟩ := List.getElem?_eq_some_iff.mp hk
    rw [scanChildren, dif_pos hlt]
    simp only [if_pos hname]
  | succ n ih =>
    have hlt : i < (fs.dir d).directories.length := by
      have := (List.getElem?_eq_some_iff.mp hk).1
      omega
    rw [scanChildren, dif_pos hlt]
    have hne : (fs.dir (fs.dir d).directories[i]).name ≠ c := by
      intro h
      have := sibling_index (List.getElem?_eq_getElem hlt) hk (h.trans hname.symm)
      omega
    simp only [if_neg hne]
    exact ih (by omega) (by omega)

theorem scanChildren_set (i : ℕ) (d : ι) {set : Bool} (hset : set = true) :
    (scanChildren fs c i d set).2 = true := by
  fun_induction scanChildren fs c i d set with
  | case1 i d set h child heq ih => exact ih rfl
  | case2 i d set h child heq ih => exact ih hset
  | case3 i d set h => exact hset

/-- The scan ends at the directory itself or at one whose parent is no further up. -/
theorem scanChildren_parent (i : ℕ) (d : ι) (set : Bool) :
    (scanChildren fs c i d set).1 = d ∨
      ∃ p ∈ (fs.dir (scanChildren fs c i d set).1).parent, fs.height p ≤ fs.height d := by
  fun_induction scanChildren fs c i d set with
  | case1 i d set h child heq ih =>
    have hmem : child ∈ (fs.dir d).directories := List.getElem_mem h
    rcases ih with ih | ⟨p, hp, hle⟩
    · right
      rw [ih]
      exact ⟨d, fs.child_parent d child hmem, Nat.le_refl _⟩
    · exact Or.inr ⟨p, hp, Nat.le_trans hle (Nat.le_of_lt (fs.child_height d child hmem))⟩
  | case2 i d set h child heq ih => exact ih
  | case3 i d set h => exact Or.inl rfl

theorem scanChildren_height (i : ℕ) (d : ι) (set : Bool) :
    fs.height (scanChildren fs c i d set).1 ≤ fs.height d := by
  rcases scanChildren_parent (c := c) i d set with h | ⟨p, hp, hle⟩
  · exact Nat.le_of_eq (congrArg fs.height h)
  · exact Nat.le_of_lt (Nat.lt_of_lt_of_le (parent_height hp) hle)

/-- The scan stays at the child that it enters exactly when the child does not repeat its name
further down. -/
theorem scanChildren_noRepeat (h : childNamed fs d c = some e) :
    (NoRepeat fs d c → scanChildren fs c 0 d false = (e, true)) ∧
    (¬NoRepeat fs d c → ∃ q, scanChildren fs c 0 d false = (q, true) ∧
      fs.height q < fs.height e) := by
  obtain ⟨k, hk, hname⟩ := childNamed_getElem h
  have henter := scanChildren_child false hk hname (Nat.zero_le k)
  refine ⟨fun hno => ?_, fun hrep => ?_⟩
  · rw [henter]
    refine scanChildren_none fun l hl x hx hxname => ?_
    have := hno k l e x hk hname hx hxname
    omega
  · simp only [NoRepeat, not_forall] at hrep
    obtain ⟨j, l, e', x, hj, hname', hx, hxname, hlt⟩ := hrep
    obtain rfl : j = k := sibling_index hj hk (hname'.trans hname.symm)
    obtain rfl : e' = e := Option.some.inj (hj.symm.trans hk)
    have hdeeper := scanChildren_child true hx hxname (show j + 1 ≤ l by omega)
    refine ⟨(scanChildren fs c (l + 1) x true).1, ?_, ?_⟩
    · rw [henter, hdeeper]
      exact Prod.ext rfl (scanChildren_set (l + 1) x rfl)
    · exact Nat.lt_of_le_of_lt (scanChildren_height (l + 1) x true)
        (fs.child_height e' x (List.mem_of_getElem? hx))

theorem scanChildren_no_child (h : childNamed fs d c = none) :
    scanChildren fs c 0 d false = (d, false) :=
  scanChildren_none fun _ _ e he => childNamed_eq_none.mp h e (List.mem_of_getElem? he)

/-- Entering a child leaves the directory. -/
theorem scanChildren_child_height (h : childNamed fs d c = some e) :
    fs.height (scanChildren fs c 0 d false).1 < fs.height d := by
  have hlt := fs.child_height d e (List.mem_of_find?_eq_some h)
  by_cases hno : NoRepeat fs d c
  · rw [(scanChildren_noRepeat h).1 hno]
    exact hlt
  · obtain ⟨q, hq, hqlt⟩ := (scanChildren_noRepeat h).2 hno
    rw [hq]
    exact Nat.lt_trans hqlt hlt

/-! ### One entry -/

theorem enterEntry_parent (h : childNamed fs d "..".toList = none) :
    enterEntry fs d "..".toList = (fs.dir d).parent.map fun p => (p, true) := by
  unfold enterEntry
  rw [scanChildren_no_child h]
  simp only [if_true]
  cases (fs.dir d).parent <;> rfl

theorem enterEntry_stay (h : childNamed fs d ".".toList = none) :
    enterEntry fs d ".".toList = some (d, true) := by
  unfold enterEntry
  rw [scanChildren_no_child h]
  rfl

theorem enterEntry_name (h1 : c ≠ "..".toList) (h2 : c ≠ ".".toList) :
    enterEntry fs d c = some (scanChildren fs c 0 d false) := by
  simp only [enterEntry, if_neg h1, if_neg h2]

/-- Entering a directory named `..` first does not reach the parent. -/
theorem enterEntry_parent_child (h : childNamed fs d "..".toList = some e) :
    ∃ q, enterEntry fs d "..".toList = some (q, true) ∧ fs.height q ≤ fs.height d := by
  have hlt := scanChildren_child_height h
  obtain hself | ⟨p, hp, hle⟩ : (scanChildren fs "..".toList 0 d false).1 = d ∨
      ∃ p ∈ (fs.dir (scanChildren fs "..".toList 0 d false).1).parent, fs.height p ≤ fs.height d :=
    scanChildren_parent 0 d false
  · rw [hself] at hlt
    omega
  · refine ⟨p, ?_, hle⟩
    unfold enterEntry
    simp only [if_true]
    rw [Option.mem_def.mp hp]

theorem enterEntry_stay_child (h : childNamed fs d ".".toList = some e) :
    ∃ q, enterEntry fs d ".".toList = some (q, true) ∧ fs.height q < fs.height d :=
  ⟨(scanChildren fs ".".toList 0 d false).1, rfl, scanChildren_child_height h⟩

/-! ### The walk -/

/-- The walk and the meaning agree on the components and on all that lead to them. -/
def WalkExact (fs : Vfs ι) (d : ι) (cs : List (List Char)) : Prop :=
  ∀ pre, pre <+: cs → walkEntries fs d pre = follow fs d pre

theorem walkEntries_cons {q : ι} (h : enterEntry fs d c = some (q, true)) :
    walkEntries fs d (c :: cs) = walkEntries fs q cs := by
  simp [walkEntries, h]

theorem follow_cons {q : ι} (h : followOne fs d c = some q) :
    follow fs d (c :: cs) = follow fs q cs := by
  simp [follow, h]

/-- Where both take the same step, they agree if they agree on the rest. -/
theorem WalkExact.cons_iff {q : ι} (h1 : enterEntry fs d c = some (q, true))
    (h2 : followOne fs d c = some q) : WalkExact fs d (c :: cs) ↔ WalkExact fs q cs := by
  constructor
  · intro h pre hpre
    have := h (c :: pre) (List.cons_prefix_cons.mpr ⟨rfl, hpre⟩)
    rwa [walkEntries_cons h1, follow_cons h2] at this
  · intro h pre hpre
    rcases List.prefix_cons_iff.mp hpre with rfl | ⟨t, rfl, ht⟩
    · rfl
    · rw [walkEntries_cons h1, follow_cons h2]
      exact h t ht

/-- A step to the wrong directory shows when the path ends there. -/
theorem WalkExact.not_cons {q : ι} (h1 : enterEntry fs d c = some (q, true))
    (h2 : followOne fs d c ≠ some q) : ¬WalkExact fs d (c :: cs) := by
  intro h
  have := h [c] (List.cons_prefix_cons.mpr ⟨rfl, List.nil_prefix⟩)
  rw [walkEntries_cons h1] at this
  simp only [walkEntries, follow, Option.bind_fun_some] at this
  exact h2 this.symm

theorem walkExact_root (h1 : enterEntry fs d c = none) (h2 : followOne fs d c = none) :
    WalkExact fs d (c :: cs) := by
  intro pre hpre
  rcases List.prefix_cons_iff.mp hpre with rfl | ⟨t, rfl, ht⟩
  · rfl
  · simp [walkEntries, follow, h1, h2]

/-- A component that has no child is passed over unless it is the last one. -/
theorem walkExact_missing (h1 : enterEntry fs d c = some (d, false))
    (h2 : followOne fs d c = none) :
    WalkExact fs d (c :: cs) ↔ ∀ pre, pre <+: cs → pre ≠ [] → walkEntries fs d pre = none := by
  constructor
  · intro h pre hpre hne
    have := h (c :: pre) (List.cons_prefix_cons.mpr ⟨rfl, hpre⟩)
    simpa [walkEntries, follow, h1, h2, hne] using this
  · intro h pre hpre
    rcases List.prefix_cons_iff.mp hpre with rfl | ⟨t, rfl, ht⟩
    · rfl
    · by_cases hne : t = []
      · simp [walkEntries, follow, h1, h2, hne]
      · simpa [walkEntries, follow, h1, h2, hne] using h t ht hne

theorem followOne_name (h1 : c ≠ "..".toList) (h2 : c ≠ ".".toList) :
    followOne fs d c = childNamed fs d c := by
  rw [followOne, if_neg h1, if_neg h2]

theorem walkEntries_some_ne {q : ι} (h : enterEntry fs d c = some (q, true)) :
    ¬∀ pre, pre <+: c :: cs → pre ≠ [] → walkEntries fs d pre = none := by
  intro hno
  have := hno [c] (List.cons_prefix_cons.mpr ⟨rfl, List.nil_prefix⟩) (List.cons_ne_nil c [])
  rw [walkEntries_cons h] at this
  cases this

/-- Every name that is entered ends the walk somewhere. -/
theorem enterEntry_child (h : childNamed fs d c = some e) :
    ∃ q, enterEntry fs d c = some (q, true) := by
  by_cases h1 : c = "..".toList
  · subst h1
    obtain ⟨q, hq, -⟩ := enterEntry_parent_child h
    exact ⟨q, hq⟩
  · by_cases h2 : c = ".".toList
    · subst h2
      obtain ⟨q, hq, -⟩ := enterEntry_stay_child h
      exact ⟨q, hq⟩
    · rw [enterEntry_name h1 h2]
      by_cases hno : NoRepeat fs d c
      · exact ⟨e, congrArg some ((scanChildren_noRepeat h).1 hno)⟩
      · obtain ⟨q, hq, -⟩ := (scanChildren_noRepeat h).2 hno
        exact ⟨q, congrArg some hq⟩

/-- Whatever is left of the path, the walk finds nothing exactly when it is stuck. -/
theorem walkEntries_stuck_iff :
    (∀ pre, pre <+: cs → pre ≠ [] → walkEntries fs d pre = none) ↔ Stuck fs d cs := by
  induction cs with
  | nil =>
    refine ⟨fun _ => trivial, fun _ pre hpre hne => ?_⟩
    exact absurd (List.prefix_nil.mp hpre) hne
  | cons c cs ih =>
    unfold Stuck
    cases hchild : childNamed fs d c with
    | some e =>
      obtain ⟨q, hq⟩ := enterEntry_child hchild
      refine ⟨fun h => absurd h (walkEntries_some_ne hq), ?_⟩
      rintro ⟨-, hnone, -⟩
      cases hnone
    | none =>
      by_cases h1 : c = "..".toList
      · subst h1
        have henter := enterEntry_parent hchild
        cases hp : (fs.dir d).parent with
        | some p =>
          rw [hp] at henter
          refine ⟨fun h => absurd h (walkEntries_some_ne henter), ?_⟩
          rintro ⟨-, -, hroot⟩
          rw [if_pos rfl] at hroot
          cases hroot
        | none =>
          rw [hp] at henter
          refine ⟨fun _ => ⟨by decide, rfl, by rw [if_pos rfl]⟩, fun _ pre hpre hne => ?_⟩
          rcases List.prefix_cons_iff.mp hpre with rfl | ⟨t, rfl, -⟩
          · exact absurd rfl hne
          · simp only [walkEntries, henter, Option.map_none]
      · by_cases h2 : c = ".".toList
        · subst h2
          refine ⟨fun h => absurd h (walkEntries_some_ne (enterEntry_stay hchild)), ?_⟩
          rintro ⟨hdot, -⟩
          exact absurd rfl hdot
        · have henter : enterEntry fs d c = some (d, false) := by
            rw [enterEntry_name h1 h2, scanChildren_no_child hchild]
          have hskip : ∀ t, t ≠ [] → walkEntries fs d (c :: t) = walkEntries fs d t := by
            intro t ht
            simp [walkEntries, henter, ht]
          rw [if_neg h1, ← ih]
          constructor
          · intro h
            refine ⟨h2, rfl, fun pre hpre hne => ?_⟩
            rw [← hskip pre hne]
            exact h (c :: pre) (List.cons_prefix_cons.mpr ⟨rfl, hpre⟩) (List.cons_ne_nil c pre)
          · rintro ⟨-, -, h⟩ pre hpre hne
            rcases List.prefix_cons_iff.mp hpre with rfl | ⟨t, rfl, ht⟩
            · exact absurd rfl hne
            · by_cases hnil : t = []
              · simp [walkEntries, henter, hnil]
              · rw [hskip t hnil]
                exact h t ht hnil

/-- The walk agrees with the meaning, on the components and on all that lead to them, exactly when
they are traceable. -/
theorem walkExact_iff : WalkExact fs d cs ↔ Traceable fs d cs := by
  induction cs generalizing d with
  | nil =>
    refine ⟨fun _ => trivial, fun _ pre hpre => ?_⟩
    rw [List.prefix_nil.mp hpre]
    rfl
  | cons c cs ih =>
    unfold Traceable
    by_cases h1 : c = "..".toList
    · subst h1
      rw [if_pos rfl]
      have hfollow : followOne fs d "..".toList = (fs.dir d).parent := rfl
      cases hchild : childNamed fs d "..".toList with
      | none =>
        have henter := enterEntry_parent hchild
        cases hp : (fs.dir d).parent with
        | none =>
          rw [hp] at henter hfollow
          exact ⟨fun _ => ⟨rfl, fun p hp => by cases hp⟩, fun _ => walkExact_root henter hfollow⟩
        | some p =>
          rw [hp] at henter hfollow
          rw [WalkExact.cons_iff henter hfollow, ih]
          exact ⟨fun h => ⟨rfl, fun q hq => Option.some.inj hq ▸ h⟩, fun h => h.2 p rfl⟩
      | some e =>
        obtain ⟨q, hq, hle⟩ := enterEntry_parent_child hchild
        refine ⟨fun h => absurd h (WalkExact.not_cons hq ?_), fun h => by cases h.1⟩
        intro hpar
        have := parent_height (hfollow.symm.trans hpar)
        omega
    · rw [if_neg h1]
      by_cases h2 : c = ".".toList
      · subst h2
        rw [if_pos rfl]
        have hfollow : followOne fs d ".".toList = some d := rfl
        cases hchild : childNamed fs d ".".toList with
        | none =>
          rw [WalkExact.cons_iff (enterEntry_stay hchild) hfollow, ih]
          exact ⟨fun h => ⟨rfl, h⟩, fun h => h.2⟩
        | some e =>
          obtain ⟨q, hq, hlt⟩ := enterEntry_stay_child hchild
          refine ⟨fun h => absurd h (WalkExact.not_cons hq ?_), fun h => by cases h.1⟩
          intro hd
          rw [Option.some.inj (hfollow.symm.trans hd)] at hlt
          omega
      · rw [if_neg h2]
        have hfollow : followOne fs d c = childNamed fs d c := followOne_name h1 h2
        have henter : enterEntry fs d c = some (scanChildren fs c 0 d false) :=
          enterEntry_name h1 h2
        cases hchild : childNamed fs d c with
        | none =>
          rw [hchild] at hfollow
          rw [scanChildren_no_child hchild] at henter
          rw [walkExact_missing henter hfollow, walkEntries_stuck_iff]
        | some e =>
          rw [hchild] at hfollow
          by_cases hno : NoRepeat fs d c
          · rw [(scanChildren_noRepeat hchild).1 hno] at henter
            rw [WalkExact.cons_iff henter hfollow, ih]
            exact ⟨fun h => ⟨hno, h⟩, fun h => h.2⟩
          · obtain ⟨q, hq, hlt⟩ := (scanChildren_noRepeat hchild).2 hno
            rw [hq] at henter
            refine ⟨fun h => absurd h (WalkExact.not_cons henter ?_), fun h => absurd h.1 hno⟩
            intro heq
            rw [Option.some.inj (hfollow.symm.trans heq)] at hlt
            omega

/-! ### Reading the path -/

theorem strtokAll_eq_pieces (s : List Char) (c : Char) : strtokAll s [c] = pieces c s := by
  fun_induction strtokAll s [c] with
  | case1 s x h =>
    unfold strtokR at h
    simp only [List.mem_singleton] at h
    split at h
    · rename_i hnil
      rw [← pieces_dropWhile, hnil, pieces_nil]
    · cases h
  | case2 s token rest h ih =>
    unfold strtokR at h
    simp only [List.mem_singleton] at h
    split at h
    · cases h
    · rename_i a s' heq
      have hac : a ≠ c := by
        have := List.head_dropWhile_not (fun x => decide (x = c)) (l := s) (by simp [heq])
        simpa [heq] using this
      obtain ⟨h1, rfl⟩ := Prod.mk.inj h
      obtain rfl := Option.some.inj h1
      rw [ih, ← pieces_dropWhile c s, heq, pieces_cons_of_ne hac]

theorem volumeName_eq_some {path v : List Char} :
    volumeName path = some v ↔ ∃ rest, path = v ++ ':' :: rest ∧ ':' ∉ v := by
  unfold volumeName
  constructor
  · intro h
    split at h
    · rename_i hmem
      obtain ⟨u, rest, rfl, hu⟩ := List.eq_append_cons_of_mem hmem
      rw [takeWhile_first hu] at h
      exact ⟨rest, by rw [Option.some.inj h], Option.some.inj h ▸ hu⟩
    · cases h
  · rintro ⟨rest, rfl, hv⟩
    rw [if_pos (by simp), takeWhile_first hv]

@[simp] theorem components_append {v : List Char} (hv : ':' ∉ v) (rest : List Char) :
    components (v ++ ':' :: rest) = pieces '/' rest := by
  rw [components, dropWhile_first hv, List.tail_cons]

theorem pathVolume_colon {v : List Char} (hv : ':' ∉ v) (rest : List Char) (n : ℕ) :
    pathVolume n (v ++ ':' :: rest) = if v.length < n then some v else none := by
  induction v generalizing n with
  | nil => cases n <;> simp [pathVolume]
  | cons c v ih =>
    have hc : c ≠ ':' := fun h => hv (h ▸ List.mem_cons_self)
    cases n with
    | zero => rfl
    | succ n =>
      rw [List.cons_append, pathVolume, if_neg hc, ih fun h => hv (List.mem_cons_of_mem c h)]
      by_cases hlt : v.length < n <;> simp [hlt]

theorem pathVolume_no_colon {path : List Char} (h : ':' ∉ path) (n : ℕ) :
    pathVolume n path = none := by
  induction path generalizing n with
  | nil => cases n <;> rfl
  | cons c path ih =>
    have hc : c ≠ ':' := fun hc => h (hc ▸ List.mem_cons_self)
    cases n with
    | zero => rfl
    | succ n =>
      rw [pathVolume, if_neg hc, ih fun hm => h (List.mem_cons_of_mem c hm), Option.map_none]

/-- The entries of a path are its components, unless the volume name is empty. -/
theorem entries_eq {v rest : List Char} (hv : ':' ∉ v) (hne : v = [] → pieces '/' rest = []) :
    strtokAll (strtokR (v ++ ':' :: rest) [':']).2 ['/'] = pieces '/' rest := by
  rw [strtokAll_eq_pieces]
  cases v with
  | nil =>
    -- `strtok_r` skips the leading colon, and only slashes are left
    have hslash := pieces_eq_nil (hne rfl)
    rw [hne rfl]
    have hstay : rest.dropWhile (fun x => decide (x = ':')) = rest := by
      cases rest with
      | nil => rfl
      | cons a rest =>
        have : a ≠ ':' := hslash a List.mem_cons_self ▸ by decide
        simp [this]
    simp only [strtokR, List.mem_singleton, List.nil_append, List.dropWhile_cons, decide_true,
      if_true, hstay]
    cases rest with
    | nil => rfl
    | cons a rest =>
      have hrest : ':' ∉ rest := fun h => absurd (hslash ':' (List.mem_cons_of_mem a h)) (by decide)
      simp only [dropWhile_notMem hrest, List.tail_nil, pieces_nil]
  | cons c v =>
    have hc : c ≠ ':' := fun h => hv (h ▸ List.mem_cons_self)
    have hv' : ':' ∉ v := fun h => hv (List.mem_cons_of_mem c h)
    simp only [strtokR, List.mem_singleton, List.cons_append]
    rw [List.dropWhile_cons_of_neg (by simpa using hc)]
    simp only [dropWhile_first hv', List.tail_cons]

/-! ### The volume -/

theorem MountedAs.length {v : List Char} (h : MountedAs fs v d) : v.length ≤ 16 := by
  obtain ⟨bd, -, -, m, -, rfl, -⟩ := h
  exact m.name_length

theorem MountedAs.parent {v : List Char} (h : MountedAs fs v d) : (fs.dir d).parent = none := by
  obtain ⟨bd, hbd, -, m, hm, -, rfl⟩ := h
  exact fs.root_parent bd hbd m hm

/-- The volume that is found, if there is one of the name. -/
theorem vfsFindBlockDeviceByPath_cases (fs : Vfs ι) {v : List Char} (hv : ':' ∉ v)
    (rest : List Char) :
    (vfsFindBlockDeviceByPath fs (v ++ ':' :: rest) = none ∧ ∀ root, ¬MountedAs fs v root) ∨
    ∃ bd m, vfsFindBlockDeviceByPath fs (v ++ ':' :: rest) = some bd ∧ bd.mountpoint = some m ∧
      MountedAs fs v m.root := by
  unfold vfsFindBlockDeviceByPath
  rw [pathVolume_colon hv]
  by_cases hlen : v.length < 17
  · rw [if_pos hlen]
    simp only []
    cases hfind : fs.blockdevices.find? fun bd =>
        bd.mounted && bd.mountpoint.any fun m => decide (m.name = v) with
    | none =>
      refine Or.inl ⟨rfl, ?_⟩
      rintro root ⟨bd, hbd, hmounted, m, hm, hname, -⟩
      have := List.find?_eq_none.mp hfind bd hbd
      rw [Option.mem_def.mp hm] at this
      simp [hmounted, hname] at this
    | some bd =>
      have hp := List.find?_some hfind
      rw [Bool.and_eq_true] at hp
      obtain ⟨hmounted, hany⟩ := hp
      cases hm : bd.mountpoint with
      | none =>
        rw [hm] at hany
        cases hany
      | some m =>
        rw [hm] at hany
        exact Or.inr ⟨bd, m, rfl, hm, bd, List.mem_of_find?_eq_some hfind, hmounted, m,
          Option.mem_def.mpr hm, by simpa using hany, rfl⟩
  · rw [if_neg hlen]
    refine Or.inl ⟨rfl, fun root h => ?_⟩
    have := h.length
    omega

/-- The lookup is the walk from the root of the volume. -/
theorem vfsFindDirectory_cases (fs : Vfs ι) {v : List Char} (rest : List Char) (hv : ':' ∉ v)
    (hne : v = [] → pieces '/' rest = []) :
    (vfsFindDirectory fs (v ++ ':' :: rest) = none ∧ ∀ root, ¬MountedAs fs v root) ∨
    ∃ root, MountedAs fs v root ∧
      vfsFindDirectory fs (v ++ ':' :: rest) = walkEntries fs root (pieces '/' rest) := by
  unfold vfsFindDirectory
  rw [entries_eq hv hne]
  rcases vfsFindBlockDeviceByPath_cases fs hv rest with ⟨hnone, hno⟩ | ⟨bd, m, hbd, hm, hmounted⟩
  · rw [hnone]
    exact Or.inl ⟨rfl, hno⟩
  · rw [hbd]
    simp only [hm]
    exact Or.inr ⟨m.root, hmounted, rfl⟩

theorem vfsFindDirectory_no_volume {path : List Char} (h : volumeName path = none) :
    vfsFindDirectory fs path = none := by
  have hno : ':' ∉ path := by
    intro hmem
    rw [volumeName, if_pos hmem] at h
    cases h
  simp only [vfsFindDirectory, vfsFindBlockDeviceByPath, pathVolume_no_colon hno]

/-! ### Files -/

theorem strrchr_notMem {c : Char} {w : List Char} (h : c ∉ w) : strrchr c w = none := by
  induction w with
  | nil => rfl
  | cons a w ih =>
    have ha : a ≠ c := fun h' => h (h' ▸ List.mem_cons_self)
    simp only [strrchr, ih fun hm => h (List.mem_cons_of_mem a hm), if_neg ha]

theorem strrchr_last {c : Char} {w : List Char} (u : List Char) (h : c ∉ w) :
    strrchr c (u ++ c :: w) = some (u, w) := by
  induction u with
  | nil => simp only [List.nil_append, strrchr, strrchr_notMem h, if_true]
  | cons a u ih => simp only [List.cons_append, strrchr, ih]

theorem strchr_first {c : Char} {u : List Char} (h : c ∉ u) (w : List Char) :
    strchr c (u ++ c :: w) = some w := by
  induction u with
  | nil => simp [strchr]
  | cons a u ih =>
    have ha : a ≠ c := fun h' => h (h' ▸ List.mem_cons_self)
    rw [List.cons_append, strchr, if_neg ha, ih fun hm => h (List.mem_cons_of_mem a hm)]

/-- The loop over the files keeps the one of the name. -/
theorem foldl_file {files : List ι} {name : List Char} {f : ι}
    (hnodup : (files.map fun f => (fs.file f).name).Nodup) (found : Option ι) :
    files.foldl (fun found f => if (fs.file f).name = name then some f else found) found = some f ↔
      (f ∈ files ∧ (fs.file f).name = name) ∨
      (found = some f ∧ ∀ g ∈ files, (fs.file g).name ≠ name) := by
  induction files generalizing found with
  | nil => simp
  | cons a files ih =>
    rw [List.map_cons, List.nodup_cons] at hnodup
    rw [List.foldl_cons, ih hnodup.2]
    by_cases ha : (fs.file a).name = name
    · have hothers : ∀ g ∈ files, (fs.file g).name ≠ name := by
        intro g hg hname
        exact hnodup.1 (List.mem_map.mpr ⟨g, hg, hname.trans ha.symm⟩)
      rw [if_pos ha]
      constructor
      · rintro (⟨hmem, hname⟩ | ⟨heq, -⟩)
        · exact absurd hname (hothers f hmem)
        · obtain rfl := Option.some.inj heq
          exact Or.inl ⟨List.mem_cons_self, ha⟩
      · rintro (⟨hmem, hname⟩ | ⟨-, hno⟩)
        · rcases List.mem_cons.mp hmem with rfl | hmem
          · exact Or.inr ⟨rfl, hothers⟩
          · exact absurd hname (hothers f hmem)
        · exact absurd ha (hno a List.mem_cons_self)
    · rw [if_neg ha]
      simp only [List.mem_cons, or_and_right, forall_eq_or_imp]
      constructor
      · rintro (h | ⟨h, hno⟩)
        · exact Or.inl (Or.inr h)
        · exact Or.inr ⟨h, ha, hno⟩
      · rintro ((⟨rfl, h⟩ | h) | ⟨h, -, hno⟩)
        · exact absurd h ha
        · exact Or.inl h
        · exact Or.inr ⟨h, hno⟩

theorem pathDirectory_slash (path : List Char) {name : List Char} (h : '/' ∉ name) :
    pathDirectory (path ++ '/' :: name) = path := by
  rw [pathDirectory, strrchr_last path h]

/-- A file is looked for in the directory that the lookup of the rest of the path finds. -/
theorem vfsFindFile_slash (path : List Char) {name : List Char} (h : '/' ∉ name) (f : ι) :
    vfsFindFile fs (path ++ '/' :: name) = some f ↔
      ∃ d, vfsFindDirectory fs path = some d ∧ f ∈ (fs.dir d).files ∧ (fs.file f).name = name := by
  unfold vfsFindFile
  rw [pathDirectory_slash path h]
  cases hvol : volumeName path with
  | none =>
    rw [vfsFindDirectory_no_volume hvol]
    constructor
    · intro hsome
      split at hsome <;> cases hsome
    · rintro ⟨d, hd, -⟩
      cases hd
  | some v =>
    obtain ⟨rest, rfl, hv⟩ := volumeName_eq_some.mp hvol
    rw [List.append_assoc, List.cons_append, strchr_first hv]
    simp only [strrchr_last rest h]
    cases hfind : vfsFindDirectory fs (v ++ ':' :: rest) with
    | none =>
      constructor
      · intro hsome
        cases hsome
      · rintro ⟨d, hd, -⟩
        cases hd
    | some d =>
      simp only [foldl_file (fs.file_names d)]
      constructor
      · rintro (hf | ⟨hf, -⟩)
        · exact ⟨d, rfl, hf⟩
        · cases hf
      · rintro ⟨e, he, hf⟩
        exact Or.inl (Option.some.inj he ▸ hf)

/-- The lookup of files is exact where the lookup of directories is. -/
theorem lookupExact_iff {path : List Char} :
    LookupExact fs path ↔ ∀ d, vfsFindDirectory fs path = some d ↔ Resolves fs path d := by
  refine ⟨fun h => h.1, fun h => ⟨h, fun name hname f => ?_⟩⟩
  rw [vfsFindFile_slash path hname]
  simp only [h]

/-! ### Where the lookup is exact -/

theorem resolves_iff {v : List Char} (rest : List Char) (hv : ':' ∉ v) {root : ι}
    (hroot : MountedAs fs v root) (hone : ∀ root', MountedAs fs v root' → root' = root) :
    Resolves fs (v ++ ':' :: rest) d ↔ follow fs root (pieces '/' rest) = some d := by
  have hvol : volumeName (v ++ ':' :: rest) = some v := volumeName_eq_some.mpr ⟨rest, rfl, hv⟩
  unfold Resolves
  rw [components_append hv, hvol]
  constructor
  · rintro ⟨v', root', hv', hroot', hfollow⟩
    obtain rfl := Option.some.inj hv'
    rwa [hone root' hroot'] at hfollow
  · exact fun h => ⟨v, root, rfl, hroot, h⟩

theorem lookupExact_of_clear {path q : List Char} (h : PathClear fs path) (hq : LeadsTo q path) :
    LookupExact fs q := by
  obtain ⟨hvol, hpre⟩ := hq
  rw [lookupExact_iff]
  intro d
  cases hv : volumeName q with
  | none =>
    rw [vfsFindDirectory_no_volume hv]
    refine ⟨fun h => (by cases h), ?_⟩
    rintro ⟨v, root, hv', -⟩
    rw [hv] at hv'
    cases hv'
  | some v =>
    obtain ⟨rest, rfl, hcolon⟩ := volumeName_eq_some.mp hv
    rw [components_append hcolon] at hpre
    have hclear := fun root => h v root (hvol.symm.trans hv)
    by_cases hmounted : ∃ root, MountedAs fs v root
    · obtain ⟨root, hroot⟩ := hmounted
      obtain ⟨hone, hempty, htrace⟩ := hclear root hroot
      have hne : v = [] → pieces '/' rest = [] := by
        intro hnil
        rw [hempty hnil] at hpre
        exact List.prefix_nil.mp hpre
      rw [resolves_iff _ hcolon hroot hone]
      rcases vfsFindDirectory_cases fs _ hcolon hne with ⟨-, hno⟩ | ⟨root', hroot', hfind⟩
      · exact absurd hroot (hno root)
      · rw [hfind, hone root' hroot', walkExact_iff.mpr htrace _ hpre]
    · have hnone : vfsFindDirectory fs (v ++ ':' :: rest) = none := by
        unfold vfsFindDirectory
        rcases vfsFindBlockDeviceByPath_cases fs hcolon rest with ⟨hnone, -⟩ | ⟨_, m, _, _, hm⟩
        · rw [hnone]
        · exact absurd ⟨m.root, hm⟩ hmounted
      rw [hnone]
      refine ⟨fun h => (by cases h), ?_⟩
      rintro ⟨v', root, hv', hroot, -⟩
      rw [hv] at hv'
      exact absurd ⟨root, Option.some.inj hv' ▸ hroot⟩ hmounted

theorem clear_of_lookupExact {path : List Char} (hne : volumeName path ≠ some [])
    (h : ∀ q, LeadsTo q path → LookupExact fs q) : PathClear fs path := by
  intro v root hvol hroot
  obtain ⟨rest, rfl, hv⟩ := volumeName_eq_some.mp hvol
  have hv0 : v ≠ [] := fun h0 => hne (h0 ▸ hvol)
  rw [components_append hv]
  -- the path that stops at the root decides which volume is found
  have hleads : ∀ pre, pre <+: pieces '/' rest →
      LeadsTo (v ++ ':' :: ['/'].intercalate pre) (v ++ ':' :: rest) ∧
        pieces '/' (['/'].intercalate pre) = pre := by
    intro pre hpre
    have hjoin : pieces '/' (['/'].intercalate pre) = pre :=
      pieces_join fun w hw => mem_pieces (hpre.subset hw)
    refine ⟨⟨?_, ?_⟩, hjoin⟩
    · rw [hvol]
      exact volumeName_eq_some.mpr ⟨_, rfl, hv⟩
    · rw [components_append hv, components_append hv, hjoin]
      exact hpre
  have hwalk : ∀ pre, pre <+: pieces '/' rest → ∃ root', MountedAs fs v root' ∧
      vfsFindDirectory fs (v ++ ':' :: ['/'].intercalate pre) = walkEntries fs root' pre := by
    intro pre hpre
    rcases vfsFindDirectory_cases fs (['/'].intercalate pre) hv
      (fun h0 => absurd h0 hv0) with ⟨-, hno⟩ | ⟨root', hroot', hfind⟩
    · exact absurd hroot (hno root)
    · rw [(hleads pre hpre).2] at hfind
      exact ⟨root', hroot', hfind⟩
  have hone : ∀ root', MountedAs fs v root' → root' = root := by
    obtain ⟨first, -, hfirst⟩ := hwalk [] List.nil_prefix
    obtain ⟨hl, hjoin⟩ := hleads [] List.nil_prefix
    have hexact := lookupExact_iff.mp (h _ hl)
    have hroots : ∀ root', MountedAs fs v root' → root' = first := by
      intro root' hroot'
      have hres : Resolves fs (v ++ ':' :: ['/'].intercalate []) root' := by
        refine ⟨v, root', volumeName_eq_some.mpr ⟨_, rfl, hv⟩, hroot', ?_⟩
        rw [components_append hv, hjoin]
        rfl
      have := (hexact root').mpr hres
      rw [hfirst] at this
      exact (Option.some.inj this).symm
    exact fun root' hroot' => (hroots root' hroot').trans (hroots root hroot).symm
  refine ⟨hone, fun h0 => absurd h0 hv0, walkExact_iff.mp fun pre hpre => ?_⟩
  obtain ⟨root', hroot', hfind⟩ := hwalk pre hpre
  obtain ⟨hl, hjoin⟩ := hleads pre hpre
  have hexact := lookupExact_iff.mp (h _ hl)
  apply Option.ext
  intro d
  rw [← hone root' hroot', ← hfind, hexact d,
    resolves_iff _ hv hroot' fun r hr => (hone r hr).trans (hone root' hroot').symm, hjoin]

/-- **Exact lookup.**  Along a clear path every lookup is exact.  When the volume name is not empty
the paths whose lookups are exact all along are the clear ones. -/
theorem lookup_exact_iff (fs : Vfs ι) (path : List Char) :
    (PathClear fs path → ∀ q, LeadsTo q path → LookupExact fs q) ∧
    (volumeName path ≠ some [] →
      (∀ q, LeadsTo q path → LookupExact fs q) → PathClear fs path) :=
  ⟨fun h _ hq => lookupExact_of_clear h hq, clear_of_lookupExact⟩

/-- A volume `cd` whose root has the child `bin`, which has the children `lib` and `bin`. -/
def binVolume : Vfs (Fin 4) where
  dir
    | 0 => ⟨[], none, ⟨"cd".toList, 0, by decide⟩, [], [1]⟩
    | 1 => ⟨"bin".toList, some 0, ⟨"cd".toList, 0, by decide⟩, [], [2, 3]⟩
    | 2 => ⟨"lib".toList, some 1, ⟨"cd".toList, 0, by decide⟩, [], []⟩
    | 3 => ⟨"bin".toList, some 1, ⟨"cd".toList, 0, by decide⟩, [], []⟩
  file _ := ⟨[]⟩
  blockdevices := [⟨true, some ⟨"cd".toList, 0, by decide⟩, fun _ => rfl⟩]
  height d := 3 - d
  depth d := d
  child_height := by decide
  parent_depth := by decide
  child_parent := by decide
  parent_child := by decide
  directory_names := by decide
  file_names := by decide
  child_volume := by decide
  root_parent := by simp
  root_volume := by simp

theorem binVolume_root {root : Fin 4} : MountedAs binVolume "cd".toList root ↔ root = 0 := by
  constructor
  · rintro ⟨bd, hbd, -, m, hm, -, rfl⟩
    obtain rfl := List.mem_singleton.mp hbd
    rw [← Option.some.inj (Option.mem_def.mp hm)]
  · rintro rfl
    exact ⟨_, List.mem_singleton_self _, rfl, _, rfl, rfl, rfl⟩

theorem binVolume_find (rest : List Char) :
    vfsFindDirectory binVolume ("cd".toList ++ ':' :: rest) =
      walkEntries binVolume 0 (pieces '/' rest) := by
  have hcd : ':' ∉ "cd".toList := by decide
  have hne : "cd".toList = [] → pieces '/' rest = [] := fun h => absurd h (by decide)
  rcases vfsFindDirectory_cases binVolume rest hcd hne with ⟨-, hno⟩ | ⟨root, hroot, hfind⟩
  · exact absurd (binVolume_root.mpr rfl) (hno 0)
  · rw [hfind, binVolume_root.mp hroot]

theorem binVolume_scan (c : List Char) : scanChildren binVolume c 0 0 false =
    if c = "bin".toList then (3, true) else (0, false) := by
  by_cases hc : c = "bin".toList
  · subst hc
    have h1 : (binVolume.dir 0).directories[0]? = some 1 := rfl
    have h2 : (binVolume.dir 1).directories[1]? = some 3 := rfl
    have hname1 : (binVolume.dir 1).name = "bin".toList := rfl
    have hname2 : (binVolume.dir 3).name = "bin".toList := rfl
    rw [scanChildren_child _ h1 hname1 (Nat.zero_le 0),
      scanChildren_child _ h2 hname2 (Nat.le_refl 1), if_pos rfl]
    exact scanChildren_none fun k _ e he => (by cases he)
  · rw [if_neg hc]
    exact scanChildren_no_child
      (childNamed_eq_none.mpr fun e he h => hc (List.mem_singleton.mp he ▸ h).symm)

/-- The lookup of `cd:bin` does not stop at the first `bin`. -/
theorem binVolume_find_bin : vfsFindDirectory binVolume "cd:bin".toList = some 3 := by
  have := binVolume_find "bin".toList
  rw [show pieces '/' "bin".toList = ["bin".toList] from by decide] at this
  simpa [walkEntries, enterEntry, binVolume_scan] using this

/-- The lookup is not exact: it passes over `nope`, and it does not stop at the first `bin`. -/
theorem lookup_not_exact :
    (vfsFindDirectory binVolume "cd:nope/bin".toList = some 3 ∧
      ∀ d, ¬Resolves binVolume "cd:nope/bin".toList d) ∧
    (vfsFindDirectory binVolume "cd:bin".toList = some 3 ∧
      Resolves binVolume "cd:bin".toList 1) := by
  have hroot := binVolume_root.mpr rfl
  have hone := fun root' (h : MountedAs binVolume "cd".toList root') => binVolume_root.mp h
  refine ⟨⟨?_, fun d h => ?_⟩, binVolume_find_bin, ?_⟩
  · have := binVolume_find "nope/bin".toList
    rw [show pieces '/' "nope/bin".toList = ["nope".toList, "bin".toList] from by decide] at this
    simpa [walkEntries, enterEntry, binVolume_scan] using this
  · have := (resolves_iff "nope/bin".toList (by decide) hroot hone).mp h
    rw [show follow binVolume 0 (pieces '/' "nope/bin".toList) = none from by decide] at this
    cases this
  · exact (resolves_iff "bin".toList (by decide) hroot hone).mpr (by decide)

end GalaxyOS
