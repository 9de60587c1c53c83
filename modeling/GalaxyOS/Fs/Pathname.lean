import Mathlib.Logic.Relation
import GalaxyOS.Fs.Resolve

/-! # The path of a directory

`vfs_get_path_directory` climbs from a directory to the root and writes the path that it has come
along.  The lookup of this path goes down again.  It comes back to the directory unless it runs
ahead: a child that repeats the name of its parent may be entered together with the parent.  When
it has run ahead, it catches up only where the path goes on to the end of the chain of equal names
and leaves it by another name.

`path_returns_iff` says for which directories the path leads back.  `vfsGetPathDirectory_eq` is the way
up, `walkEntries_comesBack` the way down, and `find_fullPath_iff` joins the two at the root of the
volume. -/

namespace GalaxyOS

open Pieces Relation

variable {ι : Type} {fs : Vfs ι} {d e p q x : ι} {c : List Char} {cs ws : List (List Char)}

/-! ### Trees -/

/-- `d` is in the tree below `e`. -/
def InTree (fs : Vfs ι) (e d : ι) : Prop :=
  ReflTransGen (fun p c => c ∈ (fs.dir p).directories) e d

theorem InTree.height (h : InTree fs e d) : fs.height d ≤ fs.height e := by
  induction h with
  | refl => exact Nat.le_refl _
  | tail _ hc ih => exact Nat.le_trans (Nat.le_of_lt (fs.child_height _ _ hc)) ih

theorem child_unique (h1 : d ∈ (fs.dir p).directories) (h2 : d ∈ (fs.dir q).directories) :
    p = q := Option.some.inj ((fs.child_parent p d h1).symm.trans (fs.child_parent q d h2))

/-- The trees below two siblings have nothing in common. -/
theorem InTree.siblings (h1 : InTree fs x d) (h2 : InTree fs e d)
    (hx : x ∈ (fs.dir p).directories) (he : e ∈ (fs.dir p).directories) : x = e := by
  have hup : ∀ {a b : ι}, a ∈ (fs.dir p).directories → b ∈ (fs.dir p).directories →
      InTree fs a b → a = b := by
    intro a b ha hb hab
    rcases ReflTransGen.cases_tail hab with rfl | ⟨y, hy, hc⟩
    · rfl
    · have := (child_unique hb hc) ▸ InTree.height hy
      have := fs.child_height p a ha
      omega
  induction h1 with
  | refl => exact (hup he hx h2).symm
  | tail hxy hc ih =>
    rcases ReflTransGen.cases_tail h2 with rfl | ⟨y, hy, hc'⟩
    · exact hup hx he (ReflTransGen.tail hxy hc)
    · exact ih (child_unique hc' hc ▸ hy)

/-- A name of a directory that a path can carry. -/
def PlainName (w : List Char) : Prop :=
  w ≠ [] ∧ '/' ∉ w ∧ w ≠ ".".toList ∧ w ≠ "..".toList

/-- The names from below the root down to `d`. -/
def pathNames (fs : Vfs ι) (d : ι) : List (List Char) :=
  match _h : (fs.dir d).parent with
  | none => []
  | some p => pathNames fs p ++ [(fs.dir d).name]
termination_by fs.depth d
decreasing_by exact fs.parent_depth d p _h

theorem pathNames_root (h : (fs.dir d).parent = none) : pathNames fs d = [] := by
  rw [pathNames]
  split
  · rfl
  · rename_i p hp
    rw [h] at hp
    cases hp

theorem pathNames_child (h : (fs.dir d).parent = some p) :
    pathNames fs d = pathNames fs p ++ [(fs.dir d).name] := by
  rw [pathNames]
  split
  · rename_i hp
    rw [h] at hp
    cases hp
  · rename_i p' hp
    rw [Option.some.inj (h.symm.trans hp)]

theorem childNamed_of_mem (h : e ∈ (fs.dir d).directories) :
    childNamed fs d (fs.dir e).name = some e := by
  cases hc : childNamed fs d (fs.dir e).name with
  | none => exact absurd rfl (childNamed_eq_none.mp hc e h)
  | some x =>
    obtain ⟨j, hj, hname⟩ := childNamed_getElem hc
    obtain ⟨k, hk⟩ := List.getElem?_of_mem h
    obtain rfl := sibling_index hj hk hname
    exact hj.symm.trans hk

theorem childNamed_mem (h : childNamed fs d c = some e) : e ∈ (fs.dir d).directories :=
  List.mem_of_find?_eq_some h

theorem follow_append {us : List (List Char)} :
    follow fs d (us ++ ws) = (follow fs d us).bind fun e => follow fs e ws := by
  induction us generalizing d with
  | nil => rfl
  | cons u us ih =>
    rw [List.cons_append, follow, follow]
    cases followOne fs d u with
    | none => rfl
    | some e => exact ih

theorem follow_plain_cons (hc : PlainName c) :
    follow fs d (c :: cs) = (childNamed fs d c).bind fun e => follow fs e cs := by
  rw [follow, followOne_name hc.2.2.2 hc.2.2.1]

/-- The names of a directory in the tree lead to it. -/
theorem follow_pathNames (hroot : (fs.dir e).parent = none) (h : InTree fs e d)
    (hplain : ∀ d, InTree fs e d → d ≠ e → PlainName (fs.dir d).name) :
    follow fs e (pathNames fs d) = some d ∧ ∀ w ∈ pathNames fs d, PlainName w := by
  induction h with
  | refl =>
    rw [pathNames_root hroot]
    exact ⟨rfl, fun w hw => by cases hw⟩
  | tail hp hc ih =>
    rename_i p d
    have hparent := fs.child_parent p d hc
    have hne : d ≠ e := by
      rintro rfl
      rw [hroot] at hparent
      cases hparent
    have hname := hplain d (ReflTransGen.tail hp hc) hne
    rw [pathNames_child hparent]
    refine ⟨?_, fun w hw => ?_⟩
    · rw [follow_append, ih.1]
      rw [Option.bind_some, follow_plain_cons hname, childNamed_of_mem hc]
      rfl
    · rcases List.mem_append.mp hw with hw | hw
      · exact ih.2 w hw
      · rw [List.mem_singleton.mp hw]
        exact hname

/-! ### Running ahead -/

/-- From `e` the path goes on along the chain of children named `c` to its end and leaves it by
another name. -/
def PassesChain (fs : Vfs ι) (c : List Char) (e : ι) : List (List Char) → Prop
  | [] => False
  | c' :: cs =>
    if c' = c then
      match childNamed fs e c with
      | some x => PassesChain fs c x cs
      | none => False
    else childNamed fs e c = none

/-- At every step of the path either the child does not repeat its name further down, or the path
passes the chain of this name. -/
def ComesBack (fs : Vfs ι) (d : ι) : List (List Char) → Prop
  | [] => True
  | c :: cs =>
    match childNamed fs d c with
    | some e => (NoRepeat fs d c ∨ PassesChain fs c e cs) ∧ ComesBack fs e cs
    | none => False

/-- `p` is further down than `e` on the chain of children named `c`. -/
def Ahead (fs : Vfs ι) (c : List Char) (e p : ι) : Prop :=
  TransGen (fun a b => childNamed fs a c = some b) e p

theorem scanChildren_chain (i : ℕ) (d : ι) (set : Bool) :
    ReflTransGen (fun a b => childNamed fs a c = some b) d (scanChildren fs c i d set).1 := by
  fun_induction scanChildren fs c i d set with
  | case1 i d set h child heq ih =>
    refine ReflTransGen.head ?_ ih
    have := childNamed_of_mem (List.getElem_mem h)
    rwa [heq] at this
  | case2 i d set h child heq ih => exact ih
  | case3 i d set h => exact ReflTransGen.refl

/-- One entry with a child of the name moves down the chain. -/
theorem enterEntry_chain (hc : PlainName c) (h : childNamed fs d c = some e) :
    ∃ q, enterEntry fs d c = some (q, true) ∧
      ReflTransGen (fun a b => childNamed fs a c = some b) e q ∧
      (NoRepeat fs d c → q = e) ∧ (¬NoRepeat fs d c → Ahead fs c e q) := by
  have henter : enterEntry fs d c = some (scanChildren fs c 0 d false) :=
    enterEntry_name hc.2.2.2 hc.2.2.1
  by_cases hno : NoRepeat fs d c
  · rw [(scanChildren_noRepeat h).1 hno] at henter
    exact ⟨e, henter, ReflTransGen.refl, fun _ => rfl, fun h => absurd hno h⟩
  · obtain ⟨q, hq, hlt⟩ := (scanChildren_noRepeat h).2 hno
    have hchain : ReflTransGen (fun a b => childNamed fs a c = some b) d
        (scanChildren fs c 0 d false).1 := scanChildren_chain 0 d false
    rw [hq] at henter hchain
    have hdown : ReflTransGen (fun a b => childNamed fs a c = some b) e q := by
      rcases ReflTransGen.cases_head hchain with rfl | ⟨y, hy, hyq⟩
      · have := fs.child_height d e (childNamed_mem h)
        omega
      · rwa [Option.some.inj (hy.symm.trans h)] at hyq
    refine ⟨q, henter, hdown, fun h => absurd h hno, fun _ => ?_⟩
    rcases reflTransGen_iff_eq_or_transGen.mp hdown with rfl | hahead
    · omega
    · exact hahead

theorem enterEntry_skip (hc : PlainName c) (h : childNamed fs d c = none) :
    enterEntry fs d c = some (d, false) := by
  rw [enterEntry_name hc.2.2.2 hc.2.2.1, scanChildren_no_child h]

theorem chain_inTree (h : ReflTransGen (fun a b => childNamed fs a c = some b) e q) :
    InTree fs e q := ReflTransGen.mono (fun _ _ hab => childNamed_mem hab) _ _ h

/-- The walk along plain names only goes down. -/
theorem walkEntries_inTree (hcs : ∀ w ∈ cs, PlainName w) (h : walkEntries fs d cs = some q) :
    InTree fs d q := by
  induction cs generalizing d with
  | nil => exact Option.some.inj h ▸ ReflTransGen.refl
  | cons c cs ih =>
    have hc := hcs c List.mem_cons_self
    have hrest := fun w hw => hcs w (List.mem_cons_of_mem c hw)
    cases hchild : childNamed fs d c with
    | none =>
      simp only [walkEntries, enterEntry_skip hc hchild] at h
      by_cases hnil : cs = []
      · rw [if_pos ⟨hnil, trivial⟩] at h
        cases h
      · rw [if_neg fun hn => hnil hn.1] at h
        exact ih hrest h
    | some e =>
      obtain ⟨r, hr, hchain, -⟩ := enterEntry_chain hc hchild
      rw [walkEntries_cons hr] at h
      exact (ReflTransGen.head (childNamed_mem hchild) (chain_inTree hchain)).trans (ih hrest h)

theorem childNamed_name (h : childNamed fs d c = some e) : (fs.dir e).name = c := by
  obtain ⟨_, -, hname⟩ := childNamed_getElem h
  exact hname

theorem Ahead.first (h : Ahead fs c e p) : ∃ x, childNamed fs e c = some x ∧
    ReflTransGen (fun a b => childNamed fs a c = some b) x p := TransGen.head'_iff.mp h

/-- Where the chain ends, the path leaves it by another name. -/
theorem passesChain_end (hend : childNamed fs e c = none) (hcs : ∀ w ∈ cs, PlainName w)
    (hne : cs ≠ []) (h : follow fs e cs = some d) : PassesChain fs c e cs := by
  cases cs with
  | nil => exact absurd rfl hne
  | cons c' cs =>
    rw [follow_plain_cons (hcs c' List.mem_cons_self)] at h
    have hc' : c' ≠ c := by
      rintro rfl
      rw [hend] at h
      cases h
    rw [PassesChain, if_neg hc']
    exact hend

/-- A walk that has run ahead does not come back from another branch. -/
theorem walkEntries_branch {c' : List Char} {e' : ι} (hahead : Ahead fs c e p)
    (hchild : childNamed fs e c' = some e') (hne : c' ≠ c)
    (hcs : ∀ w ∈ c' :: cs, PlainName w) (hfollow : follow fs e' cs = some d) :
    walkEntries fs p (c' :: cs) ≠ some d := by
  intro hwalk
  obtain ⟨x, hx, hxp⟩ := hahead.first
  have hd : InTree fs x d := (chain_inTree hxp).trans (walkEntries_inTree hcs hwalk)
  have hd' : InTree fs e' d := by
    clear hwalk hd
    have hrest := fun w hw => hcs w (List.mem_cons_of_mem c' hw)
    clear hcs hchild
    induction cs generalizing e' with
    | nil => exact Option.some.inj hfollow ▸ ReflTransGen.refl
    | cons w cs ih =>
      rw [follow_plain_cons (hrest w List.mem_cons_self)] at hfollow
      obtain ⟨y, hy, hfollow⟩ := Option.bind_eq_some_iff.mp hfollow
      exact ReflTransGen.head (childNamed_mem hy)
        (ih hfollow fun v hv => hrest v (List.mem_cons_of_mem w hv))
  have hxe := hd.siblings hd' (childNamed_mem hx) (childNamed_mem hchild)
  rw [← childNamed_name hchild, ← childNamed_name hx, hxe] at hne
  exact hne rfl

/-- The walk along the path of `d` ends at `d` exactly when it comes back each time that it runs
ahead: `e` is where the path is, and the walk is there too or ahead of it. -/
theorem walkEntries_comesBack (hcs : ∀ w ∈ cs, PlainName w) (hfollow : follow fs e cs = some d) :
    (walkEntries fs e cs = some d ↔ ComesBack fs e cs) ∧
    ∀ c p, Ahead fs c e p →
      (walkEntries fs p cs = some d ↔ PassesChain fs c e cs ∧ ComesBack fs e cs) := by
  induction cs generalizing e with
  | nil =>
    obtain rfl := Option.some.inj hfollow
    refine ⟨⟨fun _ => trivial, fun _ => rfl⟩, fun c p hahead => ?_⟩
    obtain ⟨x, hx, hxp⟩ := hahead.first
    have h1 := fs.child_height e x (childNamed_mem hx)
    have h2 := (chain_inTree hxp).height
    constructor
    · intro h
      rw [Option.some.inj h] at h2
      omega
    · exact fun h => h.1.elim
  | cons c' cs ih =>
    have hc' := hcs c' List.mem_cons_self
    have hrest := fun w hw => hcs w (List.mem_cons_of_mem c' hw)
    rw [follow_plain_cons hc'] at hfollow
    obtain ⟨e', hchild, hfollow⟩ := Option.bind_eq_some_iff.mp hfollow
    obtain ⟨ihA, ihB⟩ := ih hrest hfollow
    have hback : ComesBack fs e (c' :: cs) ↔
        (NoRepeat fs e c' ∨ PassesChain fs c' e' cs) ∧ ComesBack fs e' cs := by
      rw [ComesBack, hchild]
    refine ⟨?_, fun c p hahead => ?_⟩
    · obtain ⟨q, hq, -, hstay, hrun⟩ := enterEntry_chain hc' hchild
      rw [walkEntries_cons hq, hback]
      by_cases hno : NoRepeat fs e c'
      · rw [hstay hno, ihA]
        exact ⟨fun h => ⟨Or.inl hno, h⟩, fun h => h.2⟩
      · rw [ihB c' q (hrun hno)]
        exact ⟨fun h => ⟨Or.inr h.1, h.2⟩, fun h => ⟨h.1.resolve_left hno, h.2⟩⟩
    · by_cases hcc : c' = c
      · subst hcc
        have hpass : PassesChain fs c' e (c' :: cs) ↔ PassesChain fs c' e' cs := by
          rw [PassesChain, if_pos rfl, hchild]
        have hright : PassesChain fs c' e (c' :: cs) ∧ ComesBack fs e (c' :: cs) ↔
            PassesChain fs c' e' cs ∧ ComesBack fs e' cs := by
          rw [hpass, hback]
          exact ⟨fun h => ⟨h.1, h.2.2⟩, fun h => ⟨h.1, Or.inr h.1, h.2⟩⟩
        rw [hright]
        obtain ⟨x, hx, hxp⟩ := hahead.first
        obtain rfl := Option.some.inj (hx.symm.trans hchild)
        cases hpc : childNamed fs p c' with
        | some y =>
          obtain ⟨q, hq, hyq, -⟩ := enterEntry_chain hc' hpc
          rw [walkEntries_cons hq]
          exact ihB c' q (TransGen.tail'_iff.mpr ⟨p, hxp, hpc⟩ |>.trans_left hyq)
        | none =>
          -- the walk is at the end of the chain and passes over the component
          have hskip : walkEntries fs p (c' :: cs) =
              if cs = [] then none else walkEntries fs p cs := by
            simp [walkEntries, enterEntry_skip hc' hpc]
          rw [hskip]
          by_cases hnil : cs = []
          · subst hnil
            rw [if_pos rfl]
            exact ⟨fun h => (by cases h), fun h => h.1.elim⟩
          · rw [if_neg hnil]
            rcases reflTransGen_iff_eq_or_transGen.mp hxp with rfl | hxahead
            · rw [ihA]
              exact ⟨fun h => ⟨passesChain_end hpc hrest hnil hfollow, h⟩, fun h => h.2⟩
            · exact ihB c' p hxahead
      · refine ⟨fun h => absurd h (walkEntries_branch hahead hchild hcc hcs hfollow), ?_⟩
        rintro ⟨hpass, -⟩
        obtain ⟨x, hx, -⟩ := hahead.first
        rw [PassesChain, if_neg hcc, hx] at hpass
        cases hpass

/-! ### Writing the path -/

/-- The path of `d` in full. -/
def fullPath (fs : Vfs ι) (d : ι) : List Char :=
  (fs.dir d).volume.name ++ ':' :: ['/'].intercalate (pathNames fs d)

/-- One turn of the loop puts a name in front of what is joined so far. -/
theorem join_cons {w : List Char} (hws : ∀ v ∈ ws, v ≠ []) :
    (if (['/'].intercalate ws).length ≠ 0 then w ++ '/' :: ['/'].intercalate ws else w) =
      ['/'].intercalate (w :: ws) := by
  cases ws with
  | nil => simp
  | cons v vs =>
    have hv := hws v List.mem_cons_self
    have hne : (['/'].intercalate (v :: vs)).length ≠ 0 := by
      cases vs with
      | nil => simpa using hv
      | cons u us => simp [List.intercalate_cons_cons]
    rw [if_pos hne, List.intercalate_cons_cons, List.append_assoc]
    rfl

theorem join_length_cons (w : List Char) (ws : List (List Char)) :
    (['/'].intercalate ws).length + w.length ≤ (['/'].intercalate (w :: ws)).length := by
  cases ws with
  | nil => simp
  | cons v vs =>
    rw [List.intercalate_cons_cons]
    simp only [List.length_append]
    omega

theorem join_length_append (us ws : List (List Char)) :
    (['/'].intercalate ws).length ≤ (['/'].intercalate (us ++ ws)).length := by
  induction us with
  | nil => exact Nat.le_refl _
  | cons u us ih =>
    have := join_length_cons u (us ++ ws)
    rw [List.cons_append]
    omega

theorem climbPath_spec (size : ℕ) (hroot : (fs.dir e).parent = none) (h : InTree fs e d)
    (hplain : ∀ d, InTree fs e d → d ≠ e → PlainName (fs.dir d).name) (hws : ∀ v ∈ ws, v ≠ []) :
    match climbPath fs size d (['/'].intercalate ws) with
    | none => size < (['/'].intercalate (pathNames fs d ++ ws)).length + 2
    | some wstring => wstring = ['/'].intercalate (pathNames fs d ++ ws) := by
  induction h generalizing ws with
  | refl =>
    rw [pathNames_root hroot, climbPath]
    split
    · rename_i heq
      split at heq
      · cases heq
      · rename_i p hp
        rw [hroot] at hp
        cases hp
    · rename_i wstring heq
      split at heq
      · exact (Option.some.inj heq).symm
      · rename_i p hp
        rw [hroot] at hp
        cases hp
  | tail hp hc ih =>
    rename_i p d
    have hparent := fs.child_parent p d hc
    have hne : d ≠ e := by
      rintro rfl
      rw [hroot] at hparent
      cases hparent
    have hname := hplain d (ReflTransGen.tail hp hc) hne
    have hws' : ∀ v ∈ (fs.dir d).name :: ws, v ≠ [] := by
      intro v hv
      rcases List.mem_cons.mp hv with rfl | hv
      · exact hname.1
      · exact hws v hv
    have hstep : climbPath fs size d (['/'].intercalate ws) =
        if (['/'].intercalate ws).length + (fs.dir d).name.length + 2 > size then none
        else climbPath fs size p (['/'].intercalate ((fs.dir d).name :: ws)) := by
      rw [climbPath]
      split
      · rename_i hnone
        rw [hparent] at hnone
        cases hnone
      · rename_i p' hp'
        obtain rfl := Option.some.inj (hparent.symm.trans hp')
        simp only [join_cons hws]
    have hnames : pathNames fs d ++ ws = pathNames fs p ++ (fs.dir d).name :: ws := by
      rw [pathNames_child hparent, List.append_assoc]
      rfl
    rw [hstep, hnames]
    by_cases hroom : (['/'].intercalate ws).length + (fs.dir d).name.length + 2 > size
    · rw [if_pos hroom]
      have h1 := join_length_cons (fs.dir d).name ws
      have h2 := join_length_append (pathNames fs p) ((fs.dir d).name :: ws)
      show size < (['/'].intercalate (pathNames fs p ++ (fs.dir d).name :: ws)).length + 2
      omega
    · rw [if_neg hroom]
      exact ih hws'

/-- `vfs_get_path_directory` writes the path with its terminator exactly when there is room. -/
theorem vfsGetPathDirectory_eq (size : ℕ) (hroot : (fs.dir e).parent = none) (h : InTree fs e d)
    (hplain : ∀ d, InTree fs e d → d ≠ e → PlainName (fs.dir d).name) :
    vfsGetPathDirectory fs d size =
      if (fullPath fs d).length + 1 ≤ size
      then some ((fullPath fs d).length, fullPath fs d ++ ['\x00']) else none := by
  have hclimb := climbPath_spec size hroot h hplain
    (show ∀ v ∈ ([] : List (List Char)), v ≠ [] from fun v hv => by cases hv)
  rw [List.append_nil, List.intercalate_nil] at hclimb
  have hlen : (fullPath fs d).length =
      (fs.dir d).volume.name.length + 1 + (['/'].intercalate (pathNames fs d)).length := by
    simp only [fullPath, List.length_append, List.length_cons]
    omega
  unfold vfsGetPathDirectory
  by_cases h0 : size = 0
  · rw [if_pos h0, if_neg (by omega)]
  · rw [if_neg h0]
    cases hc : climbPath fs size d [] with
    | none =>
      rw [hc] at hclimb
      have : size < (['/'].intercalate (pathNames fs d)).length + 2 := hclimb
      rw [if_neg (by omega)]
    | some wstring =>
      rw [hc] at hclimb
      obtain rfl : wstring = _ := hclimb
      simp only [← hlen]
      by_cases hfit : (fullPath fs d).length + 1 > size
      · rw [if_pos hfit, if_neg (by omega)]
      · rw [if_neg hfit, if_pos (by omega)]
        simp [fullPath]

/-! ### There and back -/

/-- The root of the first mounted volume of this name in the table. -/
def volumeRoot (fs : Vfs ι) (v : List Char) : Option ι :=
  (fs.blockdevices.find? fun bd => bd.mounted && bd.mountpoint.any fun m => m.name = v).bind
    fun bd => bd.mountpoint.map fun m => m.root

/-- `vfs_get_path_directory` fails exactly when the path and its terminator do not fit into `size` bytes.
Otherwise it writes a string of the returned length, and the lookup of this string gives the
directory. -/
def PathReturns (fs : Vfs ι) (d : ι) (size : ℕ) : Prop :=
  (vfsGetPathDirectory fs d size = none ↔ size < (fullPath fs d).length + 1) ∧
  ∀ len bytes, vfsGetPathDirectory fs d size = some (len, bytes) →
    ∃ s, bytes = s ++ ['\x00'] ∧ s.length = len ∧ vfsFindDirectory fs s = some d

/-- Where the path leads back: no earlier volume has the name, the name has no colon, and it is
not empty unless the path is that of the root, and the walk comes back where it runs ahead. -/
def Returnable (fs : Vfs ι) (m : VfsMountPoint ι) (d : ι) : Prop :=
  volumeRoot fs m.name = some m.root ∧ ':' ∉ m.name ∧ (m.name = [] → d = m.root) ∧
    ComesBack fs m.root (pathNames fs d)

theorem vfsFindDirectory_eq {v rest : List Char} (hv : ':' ∉ v) (hlen : v.length ≤ 16)
    (hne : v = [] → pieces '/' rest = []) :
    vfsFindDirectory fs (v ++ ':' :: rest) =
      (volumeRoot fs v).bind fun root => walkEntries fs root (pieces '/' rest) := by
  unfold vfsFindDirectory vfsFindBlockDeviceByPath volumeRoot
  rw [pathVolume_colon hv, if_pos (by omega), entries_eq hv hne]
  dsimp only
  generalize fs.blockdevices.find? _ = found
  cases found with
  | none => rfl
  | some bd => cases h : bd.mountpoint <;> simp [h]

theorem InTree.root (ha : InTree fs e d) (hb : InTree fs p d) (he : (fs.dir e).parent = none)
    (hp : (fs.dir p).parent = none) : e = p := by
  have hnone : ∀ {a b : ι}, a ∈ (fs.dir b).directories → (fs.dir a).parent ≠ none := by
    intro a b hab h
    rw [fs.child_parent b a hab] at h
    cases h
  induction ha with
  | refl =>
    rcases ReflTransGen.cases_tail hb with rfl | ⟨y, -, hc⟩
    · rfl
    · exact absurd he (hnone hc)
  | tail hxy hc ih =>
    rcases ReflTransGen.cases_tail hb with rfl | ⟨y, hy, hc'⟩
    · exact absurd hp (hnone hc)
    · exact ih (child_unique hc' hc ▸ hy)

theorem InTree.volume (h : InTree fs e d) : (fs.dir d).volume = (fs.dir e).volume := by
  induction h with
  | refl => rfl
  | tail _ hc ih => exact (fs.child_volume _ _ hc).trans ih

theorem find_fullPath_iff {bd : VfsBlockDevice ι} (hbd : bd ∈ fs.blockdevices)
    {m : VfsMountPoint ι} (hm : m ∈ bd.mountpoint) (hd : InTree fs m.root d)
    (hplain : ∀ d, InTree fs m.root d → d ≠ m.root → PlainName (fs.dir d).name)
    (hcolon : ':' ∉ m.name) (hempty : m.name = [] → d = m.root) :
    vfsFindDirectory fs (fullPath fs d) = some d ↔
      volumeRoot fs m.name = some m.root ∧ ComesBack fs m.root (pathNames fs d) := by
  have hroot := fs.root_parent bd hbd m hm
  obtain ⟨hfollow, hnames⟩ := follow_pathNames hroot hd hplain
  have hvol : (fs.dir d).volume.name = m.name := by
    rw [hd.volume, fs.root_volume bd hbd m hm]
  have hjoin : pieces '/' (['/'].intercalate (pathNames fs d)) = pathNames fs d :=
    pieces_join fun w hw => ⟨(hnames w hw).1, (hnames w hw).2.1⟩
  have hnil : m.name = [] → pieces '/' (['/'].intercalate (pathNames fs d)) = [] := by
    intro h0
    rw [hjoin, hempty h0, pathNames_root hroot]
  rw [fullPath, hvol, vfsFindDirectory_eq hcolon m.name_length hnil, hjoin]
  have hback := (walkEntries_comesBack hnames hfollow).1
  constructor
  · intro h
    obtain ⟨r, hr, hwalk⟩ := Option.bind_eq_some_iff.mp h
    have hrroot : (fs.dir r).parent = none := by
      obtain ⟨bd', hbd', hr⟩ := Option.bind_eq_some_iff.mp hr
      obtain ⟨m', hm', rfl⟩ := Option.map_eq_some_iff.mp hr
      exact fs.root_parent bd' (List.mem_of_find?_eq_some hbd') m' hm'
    obtain rfl := (walkEntries_inTree hnames hwalk).root hd hrroot hroot
    exact ⟨hr, hback.mp hwalk⟩
  · rintro ⟨hr, hcomes⟩
    rw [hr]
    exact hback.mpr hcomes

/-- **There and back.**  `vfs_get_path_directory` always writes the path if it fits, and the path
leads back to the directory if the directory is returnable.  When the volume name is neither empty
nor has a colon, it leads back only then. -/
theorem path_returns_iff (fs : Vfs ι) {bd : VfsBlockDevice ι} (hbd : bd ∈ fs.blockdevices)
    {m : VfsMountPoint ι} (hm : m ∈ bd.mountpoint)
    (hplain : ∀ d, InTree fs m.root d → d ≠ m.root → PlainName (fs.dir d).name)
    {d : ι} (hd : InTree fs m.root d) (size : ℕ) :
    (((fullPath fs d).length + 1 ≤ size → Returnable fs m d) → PathReturns fs d size) ∧
    (m.name ≠ [] → ':' ∉ m.name → PathReturns fs d size →
      (fullPath fs d).length + 1 ≤ size → Returnable fs m d) := by
  have hget := vfsGetPathDirectory_eq size (fs.root_parent bd hbd m hm) hd hplain
  have hfail : vfsGetPathDirectory fs d size = none ↔ size < (fullPath fs d).length + 1 := by
    rw [hget]
    by_cases hfit : (fullPath fs d).length + 1 ≤ size
    · rw [if_pos hfit]
      exact ⟨fun h => (by cases h), fun h => by omega⟩
    · rw [if_neg hfit]
      exact ⟨fun _ => by omega, fun _ => rfl⟩
  constructor
  · intro hret
    refine ⟨hfail, fun len bytes hsome => ?_⟩
    by_cases hfit : (fullPath fs d).length + 1 ≤ size
    · rw [hget, if_pos hfit] at hsome
      obtain ⟨rfl, rfl⟩ := Prod.mk.inj (Option.some.inj hsome)
      obtain ⟨hfirst, hcolon, hempty, hcomes⟩ := hret hfit
      exact ⟨fullPath fs d, rfl, rfl,
        (find_fullPath_iff hbd hm hd hplain hcolon hempty).mpr ⟨hfirst, hcomes⟩⟩
    · rw [hget, if_neg hfit] at hsome
      cases hsome
  · intro hne hcolon hret hfit
    have hsome := hget
    rw [if_pos hfit] at hsome
    obtain ⟨s, hs, -, hfind⟩ := hret.2 _ _ hsome
    rw [← List.append_cancel_right hs] at hfind
    have hempty : m.name = [] → d = m.root := fun h0 => absurd h0 hne
    obtain ⟨hfirst, hcomes⟩ := (find_fullPath_iff hbd hm hd hplain hcolon hempty).mp hfind
    exact ⟨hfirst, hcolon, hempty, hcomes⟩

instance (w : List Char) : Decidable (PlainName w) :=
  inferInstanceAs (Decidable (w ≠ [] ∧ '/' ∉ w ∧ w ≠ ".".toList ∧ w ≠ "..".toList))

theorem binVolume_plain (d : Fin 4) (h : d ≠ 0) : PlainName (binVolume.dir d).name := by
  revert d
  decide

/-- A volume `hd` with the directory `bin/bin/lib` in it, which has three files. -/
def libVolume : Vfs (Fin 5) where
  dir
    | 0 => ⟨[], none, ⟨"hd".toList, 0, by decide⟩, [], [1]⟩
    | 1 => ⟨"bin".toList, some 0, ⟨"hd".toList, 0, by decide⟩, [], [4, 2]⟩
    | 2 => ⟨"bin".toList, some 1, ⟨"hd".toList, 0, by decide⟩, [], [3]⟩
    | 3 => ⟨"lib".toList, some 2, ⟨"hd".toList, 0, by decide⟩, [0, 1, 2], []⟩
    | 4 => ⟨"etc".toList, some 1, ⟨"hd".toList, 0, by decide⟩, [], []⟩
  file
    | 0 => ⟨"crt0.o".toList⟩
    | 1 => ⟨"libc.a".toList⟩
    | 2 => ⟨"libgl.a".toList⟩
    | _ => ⟨[]⟩
  blockdevices := [⟨true, some ⟨"hd".toList, 0, by decide⟩, fun _ => rfl⟩]
  height d := 3 - d
  depth d := d
  child_height := by decide
  parent_depth := by decide
  child_parent := by decide
  parent_child := by decide
  directory_names := by decide
  file_names := by decide
  child_volume := by decide
  root_parent := by simp
  root_volume := by simp

theorem libVolume_plain (d : Fin 5) (h : d ≠ 0) : PlainName (libVolume.dir d).name := by
  revert d
  decide

theorem libVolume_inTree_bin : InTree libVolume 0 2 :=
  (ReflTransGen.single (by decide : (1 : Fin 5) ∈ (libVolume.dir 0).directories)).tail (by decide)

theorem libVolume_inTree_lib : InTree libVolume 0 3 :=
  libVolume_inTree_bin.tail (by decide : (3 : Fin 5) ∈ (libVolume.dir 2).directories)

theorem libVolume_names_bin : pathNames libVolume 2 = ["bin".toList, "bin".toList] := by
  rw [pathNames_child (p := 1) rfl, pathNames_child (p := 0) rfl, pathNames_root rfl]
  rfl

theorem libVolume_names_lib : pathNames libVolume 3 = ["bin".toList, "bin".toList, "lib".toList] := by
  rw [pathNames_child (p := 2) rfl, libVolume_names_bin]
  rfl

theorem libVolume_comesBack :
    ComesBack libVolume 0 ["bin".toList, "bin".toList, "lib".toList] := by
  have hend : ∀ e ∈ (libVolume.dir 1).directories, (libVolume.dir e).name = "bin".toList →
      ∀ x ∈ (libVolume.dir e).directories, (libVolume.dir x).name ≠ "bin".toList := by decide
  have hbin : NoRepeat libVolume 1 "bin".toList := fun j k e x hj he hk hx =>
    absurd hx (hend e (List.mem_of_getElem? hj) he x (List.mem_of_getElem? hk))
  have hlib : NoRepeat libVolume 2 "lib".toList := by
    intro j k e x hj he hk hx
    obtain rfl : e = 3 := List.mem_singleton.mp (List.mem_of_getElem? hj)
    cases hk
  exact ⟨.inr rfl, .inl hbin, .inl hlib, trivial⟩

theorem libVolume_returnable {d : Fin 5} :
    Returnable libVolume ⟨"hd".toList, 0, by decide⟩ d ↔ ComesBack libVolume 0 (pathNames libVolume d) :=
  ⟨fun h => h.2.2.2, fun h => ⟨rfl, by decide, fun h0 => absurd h0 (by decide), h⟩⟩

theorem libVolume_find : vfsFindDirectory libVolume "hd:bin/bin/lib".toList = some 3 := by
  have hfind := (find_fullPath_iff (m := ⟨"hd".toList, 0, by decide⟩) (List.mem_singleton_self _) rfl
    libVolume_inTree_lib (fun d _ => libVolume_plain d) (by decide)
    (fun h0 => absurd h0 (by decide))).2 ⟨rfl, libVolume_names_lib ▸ libVolume_comesBack⟩
  rwa [fullPath, libVolume_names_lib] at hfind

/-- The path of `lib` leads back to it, as it passes both directories `bin`.  The path of the second
`bin` does not. -/
theorem path_returns_lib : PathReturns libVolume 3 15 ∧ ¬PathReturns libVolume 2 11 := by
  have hplain := fun d (_ : InTree libVolume 0 d) => libVolume_plain d
  constructor
  · apply (path_returns_iff libVolume (List.mem_singleton_self _) rfl hplain
      libVolume_inTree_lib 15).1
    intro _
    rw [libVolume_returnable, libVolume_names_lib]
    exact libVolume_comesBack
  · intro hret
    have hback := (path_returns_iff libVolume (List.mem_singleton_self _) rfl hplain
      libVolume_inTree_bin 11).2 (by decide) (by decide) hret
    rw [libVolume_returnable, fullPath, libVolume_names_bin] at hback
    have hno : ¬NoRepeat libVolume 0 "bin".toList := fun h =>
      absurd (h 0 1 1 2 rfl rfl rfl rfl) (by decide)
    exact (hback (by decide)).1.elim hno id

/-- The path of `bin` does not lead back to `bin`, but to the `bin` in it. -/
theorem path_of_bin :
    (∀ d, d ≠ 0 → PlainName (binVolume.dir d).name) ∧ InTree binVolume 0 1 ∧
    vfsGetPathDirectory binVolume 1 7 = some (6, "cd:bin".toList ++ ['\x00']) ∧
    vfsFindDirectory binVolume "cd:bin".toList = some 3 := by
  have htree : InTree binVolume 0 1 := ReflTransGen.single (by decide)
  refine ⟨binVolume_plain, htree, ?_, binVolume_find_bin⟩
  have hnames : pathNames binVolume 1 = ["bin".toList] := by
    rw [pathNames_child (p := 0) rfl, pathNames_root rfl]
    rfl
  rw [vfsGetPathDirectory_eq (e := 0) 7 rfl htree fun d _ => binVolume_plain d, fullPath, hnames]
  rfl

end GalaxyOS
