import GalaxyOS.Sched.Exhaustion

/-! # The stack of a forked thread

Both stacks of a fork lie at the same addresses, and one directory entry decides which of them the
processor sees.  The stack of a thread is therefore told by its page table: `stackCell T a` is the
physical address behind the stack address `a`.  As no frame of the free stack is in use, the pages that
the copy adds to the new stack are its own, and a cell of it is no other cell of the two stacks.

`forkCopy` moves the bytes between the cells.  `forkCopyPages` is the loop with its buffer and its
changes of `currenttid`, the page faults being answered by `sched_user_fault`; the two agree.

`schedForkThread_copies` is the whole fork: `StackCopied.chunk` copies a chunk, `forkCopy_copies` is the
induction over the chunks, and `forkCopyPages_eq` takes the loop with its page faults for the one
without. -/

namespace GalaxyOS

open Transition

variable {m m' m₁ : Mem} {d T P C a x : ℕ}

/-! ### The cells of a stack -/

/-- The physical address behind the stack address `a` when the stack has the page table `T`. -/
def Mem.stackCell (m : Mem) (T a : ℕ) : Option ℕ :=
  (m.tables T (ptindex a)).map fun pte => pte.frame + a % 0x1000

/-- The byte at the stack address `a`. -/
def Mem.stackByte (m : Mem) (T a : ℕ) : Option UInt8 := (m.stackCell T a).map m.data

/-- The address lies in the region of the stacks. -/
def InStacks (a : ℕ) : Prop := 767 * 0x400000 ≤ a ∧ a < 767 * 0x400000 + 0x400000

theorem stackCell_eq : m.stackCell T a = some x ↔
    ∃ pte, m.tables T (ptindex a) = some pte ∧ pte.frame + a % 0x1000 = x :=
  Option.map_eq_some_iff

theorem InStacks.pdindex (h : InStacks a) : pdindex a = 767 := by
  unfold InStacks at h
  unfold GalaxyOS.pdindex
  omega

/-- A stack address is known by its page and its place in the page. -/
theorem InStacks.eq {b : ℕ} (ha : InStacks a) (hb : InStacks b) (hpage : ptindex a = ptindex b)
    (hoffset : a % 0x1000 = b % 0x1000) : a = b := by
  unfold InStacks at ha hb
  unfold ptindex at hpage
  omega

/-- Pages that are there stay, and so do their cells. -/
theorem Grown.stackCell (h : Grown d m m') (hT : T ≠ d) (ha : m.stackCell T a = some x) :
    m'.stackCell T a = some x := by
  obtain ⟨pte, hpte, hx⟩ := stackCell_eq.mp ha
  have hkept : m'.tables T (ptindex a) = m.tables T (ptindex a) :=
    h.others T hT _ (by rw [hpte]; exact Option.some_ne_none _)
  exact stackCell_eq.mpr ⟨pte, hkept.trans hpte, hx⟩

/-- The free frames are distinct, the pages of the stacks `P` and `C` are not among them, and a page
of `C` is no other page of the two. -/
structure StacksApart (m : Mem) (P C : ℕ) : Prop where
  tables : P ≠ C
  nodup : (m.pmemStack.map fun f => f / 0x1000 * 0x1000).Nodup
  pages : ∀ T, T = P ∨ T = C → ∀ i pte, m.tables T i = some pte →
    pte.frame % 0x1000 = 0 ∧ ∀ f ∈ m.pmemStack, f / 0x1000 * 0x1000 ≠ pte.frame
  own : ∀ i pte, m.tables C i = some pte → ∀ T, T = P ∨ T = C → ∀ j pte', m.tables T j = some pte' →
    pte.frame = pte'.frame → T = C ∧ i = j

/-- A cell of the stack `C` belongs to one address of it. -/
theorem StacksApart.cell {b : ℕ} (h : StacksApart m P C) (ha : m.stackCell C a = some x)
    (hT : T = P ∨ T = C) (hb : m.stackCell T b = some x) :
    T = C ∧ ptindex a = ptindex b ∧ a % 0x1000 = b % 0x1000 := by
  obtain ⟨pte, hpte, hx⟩ := stackCell_eq.mp ha
  obtain ⟨pte', hpte', hx'⟩ := stackCell_eq.mp hb
  have halign := (h.pages C (.inr rfl) _ pte hpte).1
  have halign' := (h.pages T hT _ pte' hpte').1
  obtain ⟨htable, hindex⟩ := h.own _ pte hpte T hT _ pte' hpte' (by omega)
  exact ⟨htable, hindex, by omega⟩

/-- Only the tables of the two stacks and the free frames matter. -/
theorem StacksApart.congr (h : StacksApart m P C) (hstack : m'.pmemStack = m.pmemStack)
    (hP : m'.tables P = m.tables P) (hC : m'.tables C = m.tables C) : StacksApart m' P C := by
  have hrow : ∀ T, T = P ∨ T = C → m'.tables T = m.tables T := by
    intro T hT
    cases hT with
    | inl hT => rw [hT, hP]
    | inr hT => rw [hT, hC]
  refine ⟨h.tables, hstack ▸ h.nodup, fun T hT i pte hpte => ?_, fun i pte hpte T hT j pte' hpte' => ?_⟩
  · rw [hrow T hT] at hpte
    rw [hstack]
    exact h.pages T hT i pte hpte
  · rw [hC] at hpte
    rw [hrow T hT] at hpte'
    exact h.own i pte hpte T hT j pte' hpte'

/-- A free frame becomes a page of one of the stacks. -/
theorem StacksApart.add {g i fl : ℕ} {rest : List ℕ} (h : StacksApart m P C)
    (hstack : m.pmemStack = g :: rest) :
    StacksApart (Mem.setEntry { m with pmemStack := rest } T i (some ⟨g / 0x1000 * 0x1000, fl⟩)) P C := by
  have hnodup := h.nodup
  rw [hstack, List.map_cons, List.nodup_cons] at hnodup
  have hout : ∀ f ∈ rest, f / 0x1000 * 0x1000 ≠ g / 0x1000 * 0x1000 := fun f hf hc =>
    hnodup.1 (hc ▸ List.mem_map_of_mem hf)
  have hg : g ∈ m.pmemStack := hstack ▸ List.mem_cons_self
  have hrest : ∀ f ∈ rest, f ∈ m.pmemStack := fun f hf => hstack ▸ List.mem_cons_of_mem g hf
  refine ⟨h.tables, hnodup.2, fun R hR j pte hpte => ?_, fun j pte hpte R hR k pte' hpte' heq => ?_⟩
  · obtain ⟨-, -, hnew⟩ | ⟨-, hold⟩ := setEntry_other hpte
    · obtain rfl := Option.some.inj hnew
      exact ⟨by simp, hout⟩
    · obtain ⟨halign, hfree⟩ := h.pages R hR j pte hold
      exact ⟨halign, fun f hf => hfree f (hrest f hf)⟩
  · -- the new page differs from all that were there
    obtain ⟨hCT, hji, hnew⟩ | ⟨-, hold⟩ := setEntry_other hpte
    · obtain rfl := Option.some.inj hnew
      obtain ⟨hRT, hki, -⟩ | ⟨-, hold'⟩ := setEntry_other hpte'
      · exact ⟨hRT.trans hCT.symm, hji.trans hki.symm⟩
      · exact absurd heq ((h.pages R hR k pte' hold').2 g hg)
    · obtain ⟨-, -, hnew'⟩ | ⟨-, hold'⟩ := setEntry_other hpte'
      · obtain rfl := Option.some.inj hnew'
        exact absurd heq.symm ((h.pages C (.inr rfl) j pte hold).2 g hg)
      · exact h.own j pte hold R hR k pte' hold' heq

theorem StacksApart.pop {g : ℕ} {rest : List ℕ} (h : StacksApart m P C)
    (hstack : m.pmemStack = g :: rest) : StacksApart { m with pmemStack := rest } P C := by
  have hnodup := h.nodup
  rw [hstack, List.map_cons, List.nodup_cons] at hnodup
  refine ⟨h.tables, hnodup.2, fun T hT i pte hpte => ?_, h.own⟩
  obtain ⟨halign, hfree⟩ := h.pages T hT i pte hpte
  exact ⟨halign, fun f hf => hfree f (hstack ▸ List.mem_cons_of_mem g hf)⟩

/-! ### The steps of the copy -/

/-- What the processor finds at a stack address is a cell of the stack that is entered. -/
theorem StackEntry.physaddr (h : StackEntry m d T) (hcr3 : m.cr3 = d) (ha : InStacks a) :
    vmmGetPhysaddr m a = (m.stackCell T a).getD 0 := by
  obtain ⟨pde, hpde, rfl⟩ := Option.map_eq_some_iff.mp h.1
  unfold vmmGetPhysaddr Mem.stackCell
  rw [hcr3, ha.pdindex, hpde]
  cases hpte : m.tables pde.frame (ptindex a) with
  | none => simp only [hpte, Option.map_none, Option.getD_none]
  | some pte => simp only [hpte, Option.map_some, Option.getD_some]

/-- A page that is missing needs a frame. -/
theorem touchStack_frame (htouch : touchStack m a = .ok (x, m')) (hmissing : vmmGetPhysaddr m a = 0) :
    0 < pmmAvailable m := by
  unfold touchStack at htouch
  rw [if_neg (not_not.mpr hmissing)] at htouch
  obtain ⟨⟨g, m₁⟩, hpop, -⟩ := bind_ok.mp htouch
  unfold pmmAvailable
  rw [(pmmAllocPage_ok hpop).1]
  exact Nat.succ_pos _

/-- Touching a stack address gives its cell, which is new if there was none. -/
theorem touchStack_cell (h : StackEntry m d T) (hcr3 : m.cr3 = d) (ha : InStacks a)
    (hapart : StacksApart m P C) (htouch : touchStack m a = .ok (x, m')) :
    m'.stackCell T a = some x ∧ m'.data = m.data ∧ StacksApart m' P C := by
  subst hcr3
  unfold touchStack at htouch
  rw [h.physaddr rfl ha] at htouch
  split_ifs at htouch with h0
  · obtain ⟨rfl, rfl⟩ := Prod.mk.inj (Except.ok.inj htouch)
    refine ⟨?_, rfl, hapart⟩
    cases hcell : m.stackCell T a with
    | none => exact absurd (by rw [hcell]; rfl) h0
    | some y => rfl
  · simp only [bind_ok, Prod.exists, Except.ok.injEq, Prod.mk.injEq] at htouch
    obtain ⟨g, m₁, hpop, r, m₂, hmap, rfl, rfl⟩ := htouch
    obtain ⟨hstack, hm₁⟩ := pmmAllocPage_ok hpop
    generalize m₁.pmemStack = rest at hstack hm₁
    subst hm₁
    obtain ⟨pde, hpde, rfl⟩ := Option.map_eq_some_iff.mp h.1
    have hpage : GalaxyOS.pdindex (a / 0x1000 * 0x1000) = 767 ∧
        ptindex (a / 0x1000 * 0x1000) = ptindex a := by
      have hpd := ha.pdindex
      unfold GalaxyOS.pdindex at hpd
      unfold GalaxyOS.pdindex ptindex
      omega
    simp only [vmmMapPage, vmmMapPageF, hpage.1, hpde, Except.ok.injEq] at hmap
    rcases mapEntry_false hmap with ⟨hsome, -, rfl⟩ | ⟨hnone, -, rfl⟩
    · -- the frame is lost, as the page is there
      have hentry : StackEntry { m with pmemStack := rest } m.cr3 pde.frame := h
      refine ⟨?_, rfl, hapart.pop hstack⟩
      rw [hentry.physaddr rfl ha]
      obtain ⟨pte, hpte⟩ := Option.ne_none_iff_exists'.mp hsome
      rw [hpage.2] at hpte
      have hcell : Mem.stackCell { m with pmemStack := rest } pde.frame a =
          some (pte.frame + a % 0x1000) := stackCell_eq.mpr ⟨pte, hpte, rfl⟩
      rw [hcell]
      rfl
    · rw [hpage.2]
      have hentry : StackEntry (Mem.setEntry { m with pmemStack := rest } pde.frame (ptindex a)
          (some (mkPte g (0x7 % 0x1000 ||| 1)))) m.cr3 pde.frame := by
        refine ⟨?_, h.2⟩
        rw [setEntry_row h.2.symm]
        exact h.1
      have hcell : Mem.stackCell (Mem.setEntry { m with pmemStack := rest } pde.frame (ptindex a)
          (some (mkPte g (0x7 % 0x1000 ||| 1)))) pde.frame a =
            some (g / 0x1000 * 0x1000 + a % 0x1000) :=
        stackCell_eq.mpr ⟨_, setEntry_self .., rfl⟩
      refine ⟨?_, rfl, hapart.add hstack⟩
      rw [hentry.physaddr rfl ha, hcell]
      rfl

/-- Entering a stack changes nothing but the directory. -/
theorem vmmSwitchStack_rows {cr3Virt stackpt : ℕ} (hcr3 : m.cr3 = d) (hdir : KernelMaps m d cr3Virt d)
    (hswitch : vmmSwitchStack m cr3Virt 767 stackpt = .ok m') :
    m'.data = m.data ∧ m'.pmemStack = m.pmemStack ∧ ∀ R, R ≠ d → m'.tables R = m.tables R := by
  unfold vmmSwitchStack at hswitch
  simp only [hdir.physaddr hcr3] at hswitch
  split_ifs at hswitch with h0
  obtain rfl := Except.ok.inj hswitch
  exact ⟨rfl, rfl, fun R hR => setEntry_row hR ..⟩

/-! ### What has been copied -/

/-- From `m` to `m'` the stack `C` has got the bytes of the stack `P` at the addresses from `lo` to
`hi`, nothing else has been written, and `P` is entered again. -/
structure StackCopied (m m' : Mem) (d P C lo hi : ℕ) : Prop where
  grown : Grown d m m'
  entry : StackEntry m' d P
  apart : StacksApart m' P C
  changed : ∀ x, m'.data x ≠ m.data x → ∃ a, lo ≤ a ∧ a < hi ∧ m'.stackCell C a = some x
  copied : ∀ a, lo ≤ a → a < hi → ∃ b, m'.stackByte C a = some b ∧ m'.stackByte P a = some b

theorem stackByte_eq {b : UInt8} : m.stackByte T a = some b ↔
    ∃ x, m.stackCell T a = some x ∧ m.data x = b := Option.map_eq_some_iff

theorem StackCopied.refl {lo : ℕ} (h : StackEntry m d P) (hapart : StacksApart m P C) :
    StackCopied m m d P C lo lo :=
  ⟨.refl d m, h, hapart, fun _ hx => absurd rfl hx, fun _ hlo hhi => absurd hhi (Nat.not_lt.mpr hlo)⟩

/-- What has been copied stays when the copy goes on behind it. -/
theorem StackCopied.trans {lo mid hi : ℕ} (h : StackCopied m m₁ d P C lo mid)
    (h' : StackCopied m₁ m' d P C mid hi) (hC : C ≠ d) (hlo : 767 * 0x400000 ≤ lo) (hlomid : lo ≤ mid)
    (hmid : mid ≤ hi) (hhi : hi ≤ 767 * 0x400000 + 0x400000) : StackCopied m m' d P C lo hi := by
  have hin : ∀ a, lo ≤ a → a < hi → InStacks a := fun a h1 h2 =>
    ⟨Nat.le_trans hlo h1, Nat.lt_of_lt_of_le h2 hhi⟩
  refine ⟨h.grown.trans h'.grown, h'.entry, h'.apart, fun x hx => ?_, fun a h1 h2 => ?_⟩
  · by_cases hlast : m'.data x = m₁.data x
    · rw [hlast] at hx
      obtain ⟨a, h1, h2, hcell⟩ := h.changed x hx
      exact ⟨a, h1, Nat.lt_of_lt_of_le h2 hmid, h'.grown.stackCell hC hcell⟩
    · obtain ⟨a, h1, h2, hcell⟩ := h'.changed x hlast
      exact ⟨a, Nat.le_trans hlomid h1, h2, hcell⟩
  · by_cases hbefore : mid ≤ a
    · exact h'.copied a hbefore h2
    have hlt : a < mid := Nat.lt_of_not_le hbefore
    obtain ⟨b, hbC, hbP⟩ := h.copied a h1 hlt
    obtain ⟨y, hy, rfl⟩ := stackByte_eq.mp hbC
    obtain ⟨z, hz, hyz⟩ := stackByte_eq.mp hbP
    have hy' := h'.grown.stackCell hC hy
    have hz' := h'.grown.stackCell h'.entry.2 hz
    -- neither cell is one that is written later
    have hkeepC : m'.data y = m₁.data y := by
      by_contra hne
      obtain ⟨a', h3, h4, hcell⟩ := h'.changed y hne
      obtain ⟨-, hpage, hoffset⟩ := h'.apart.cell hy' (.inr rfl) hcell
      have haa' := (hin a h1 h2).eq (hin a' (Nat.le_trans hlomid h3) h4) hpage hoffset
      omega
    have hkeepP : m'.data z = m₁.data z := by
      by_contra hne
      obtain ⟨a', -, -, hcell⟩ := h'.changed z hne
      exact h'.apart.tables (h'.apart.cell hcell (.inl rfl) hz').1
    refine ⟨m₁.data y, stackByte_eq.mpr ⟨y, hy', hkeepC⟩, stackByte_eq.mpr ⟨z, hz', ?_⟩⟩
    rw [hkeepP, hyz]

/-! ### The copy loop -/

/-- A chunk stays within its page and within the region of the stacks. -/
theorem forkChunk_page {src : ℕ} (h : InStacks src) :
    0 < forkChunk src (767 * 0x400000 + 0x400000) ∧
      ∀ k < forkChunk src (767 * 0x400000 + 0x400000), InStacks (src + k) ∧
        ptindex (src + k) = ptindex src ∧ (src + k) % 0x1000 = src % 0x1000 + k := by
  unfold InStacks at h
  have hchunk : forkChunk src (767 * 0x400000 + 0x400000) = 0x1000 - src % 0x1000 := by
    unfold forkChunk
    rw [if_neg (by omega)]
  rw [hchunk]
  refine ⟨by omega, fun k hk => ?_⟩
  unfold InStacks ptindex
  omega

theorem stackCell_add {k : ℕ} (h : m.stackCell T a = some x) (hpage : ptindex (a + k) = ptindex a)
    (hoffset : (a + k) % 0x1000 = a % 0x1000 + k) : m.stackCell T (a + k) = some (x + k) := by
  obtain ⟨pte, hpte, rfl⟩ := stackCell_eq.mp h
  refine stackCell_eq.mpr ⟨pte, hpage ▸ hpte, ?_⟩
  rw [hoffset, Nat.add_assoc]

/-- The bytes of one chunk are copied between two cells. -/
theorem StackCopied.chunk {src from_ to_ : ℕ} (hsrc : InStacks src) (hgrown : Grown d m m₁)
    (hdata : m₁.data = m.data) (hentry : StackEntry m' d P) (hapart : StacksApart m₁ P C)
    (hfrom : m₁.stackCell P src = some from_) (hto : m₁.stackCell C src = some to_)
    (hlast : Grown d m₁ m') (hrows : m'.tables P = m₁.tables P ∧ m'.tables C = m₁.tables C)
    (hstack : m'.pmemStack = m₁.pmemStack)
    (hdata' : m'.data = (m₁.copyData to_ from_ (forkChunk src (767 * 0x400000 + 0x400000))).data) :
    StackCopied m m' d P C src (src + forkChunk src (767 * 0x400000 + 0x400000)) := by
  obtain ⟨-, hpage⟩ := forkChunk_page hsrc
  generalize forkChunk src (767 * 0x400000 + 0x400000) = chunk at hpage hdata' ⊢
  have hcell : ∀ T, T = P ∨ T = C → ∀ a, m'.stackCell T a = m₁.stackCell T a := by
    intro T hT a
    unfold Mem.stackCell
    cases hT with
    | inl hT => rw [hT, hrows.1]
    | inr hT => rw [hT, hrows.2]
  have hcopied : ∀ y, m'.data y =
      if to_ ≤ y ∧ y < to_ + chunk then m₁.data (from_ + (y - to_)) else m₁.data y := by
    intro y
    rw [hdata']
    rfl
  have hcells : ∀ k < chunk, m₁.stackCell P (src + k) = some (from_ + k) ∧
      m₁.stackCell C (src + k) = some (to_ + k) := fun k hk =>
    ⟨stackCell_add hfrom (hpage k hk).2.1 (hpage k hk).2.2,
      stackCell_add hto (hpage k hk).2.1 (hpage k hk).2.2⟩
  refine ⟨hgrown.trans hlast, hentry, hapart.congr hstack hrows.1 hrows.2, fun y hy => ?_,
    fun a h1 h2 => ?_⟩
  · rw [hcopied, hdata] at hy
    split_ifs at hy with hwithin
    · obtain ⟨-, hC⟩ := hcells (y - to_) (by omega)
      refine ⟨src + (y - to_), Nat.le_add_right _ _, by omega, ?_⟩
      rw [hcell C (.inr rfl), hC, show to_ + (y - to_) = y by omega]
    · exact absurd rfl hy
  · obtain ⟨hP, hC⟩ := hcells (a - src) (by omega)
    rw [show src + (a - src) = a by omega] at hP hC
    generalize hk : a - src = k at hP hC
    -- the parent's byte lies outside of what is written
    have hout : ¬(to_ ≤ from_ + k ∧ from_ + k < to_ + chunk) := by
      intro hwithin
      obtain ⟨-, hother⟩ := hcells (from_ + k - to_) (by omega)
      rw [show to_ + (from_ + k - to_) = from_ + k by omega] at hother
      exact hapart.tables (hapart.cell hother (.inl rfl) hP).1
    refine ⟨m₁.data (from_ + k), stackByte_eq.mpr ⟨to_ + k, (hcell C (.inr rfl) a).trans hC, ?_⟩,
      stackByte_eq.mpr ⟨from_ + k, (hcell P (.inl rfl) a).trans hP, ?_⟩⟩
    · rw [hcopied, if_pos (by omega), Nat.add_sub_cancel_left]
    · rw [hcopied, if_neg hout]

/-- `forkCopy` copies the stack of the parent. -/
theorem forkCopy_copies {parent child : Thread} {cr3Virt src x y : ℕ} (n : ℕ) (hcr3 : m.cr3 = d)
    (hdir : KernelMaps m d cr3Virt d) (hparent : KernelMaps m d parent.stackpt x)
    (hchild : KernelMaps m d child.stackpt y) (hC : y / 0x1000 * 0x1000 ≠ d)
    (hpdi : parent.stackpdi = 767 ∧ child.stackpdi = 767)
    (h : StackEntry m d (x / 0x1000 * 0x1000))
    (hapart : StacksApart m (x / 0x1000 * 0x1000) (y / 0x1000 * 0x1000))
    (hsrc : 767 * 0x400000 ≤ src) (hend : src ≤ 767 * 0x400000 + 0x400000)
    (hcopy : forkCopy cr3Virt parent child (767 * 0x400000 + 0x400000) n src src m = .ok m') :
    StackCopied m m' d (x / 0x1000 * 0x1000) (y / 0x1000 * 0x1000) src
      (767 * 0x400000 + 0x400000) := by
  induction n generalizing src m with
  | zero => cases hcopy
  | succ n ih =>
      unfold forkCopy at hcopy
      by_cases hdone : src ≥ 767 * 0x400000 + 0x400000
      · rw [if_pos hdone] at hcopy
        obtain rfl := Except.ok.inj hcopy
        obtain rfl : src = 767 * 0x400000 + 0x400000 := Nat.le_antisymm hend hdone
        exact .refl h hapart
      rw [if_neg hdone] at hcopy
      simp only [bind_ok, Prod.exists, hpdi.1, hpdi.2] at hcopy
      obtain ⟨from_, m₁, htouch, m₂, hm₂, to_, m₃, htouch', m₅, hm₅, hcopy⟩ := hcopy
      have hin : InStacks src := ⟨hsrc, Nat.lt_of_not_le hdone⟩
      obtain ⟨hpos, hpage⟩ := forkChunk_page hin
      have hlen : src + forkChunk src (767 * 0x400000 + 0x400000) ≤ 767 * 0x400000 + 0x400000 := by
        have hlast := (hpage (forkChunk src (767 * 0x400000 + 0x400000) - 1) (by omega)).1.2
        omega
      -- the page of the parent, and the entry of the child
      obtain ⟨hcell₁, hdata₁, hapart₁⟩ := touchStack_cell h hcr3 hin hapart htouch
      obtain ⟨hg₁, h₁, -⟩ :=
        (touchStack_demand h hcr3 hin.pdindex (touchStack_frame htouch)).2 _ _ htouch
      obtain ⟨hg₂, h₂, -⟩ := (vmmSwitchStack_demand (hg₁.cr3.trans hcr3) (hdir.grown hg₁)
        (hchild.grown hg₁) hC).2 m₂ hm₂
      obtain ⟨hdata₂, hstack₂, hrows₂⟩ :=
        vmmSwitchStack_rows (hg₁.cr3.trans hcr3) (hdir.grown hg₁) hm₂
      have hto₂ := hg₁.trans hg₂
      have hapart₂ := hapart₁.congr hstack₂ (hrows₂ _ h.2) (hrows₂ _ hC)
      -- the page of the child
      obtain ⟨hcell₃, hdata₃, hapart₃⟩ := touchStack_cell h₂ (hto₂.cr3.trans hcr3) hin hapart₂ htouch'
      obtain ⟨hg₃, -, -⟩ := (touchStack_demand h₂ (hto₂.cr3.trans hcr3) hin.pdindex
        (touchStack_frame htouch')).2 _ _ htouch'
      have hto₃ := hto₂.trans hg₃
      have hwrite : Grown d m₃ (m₃.copyData to_ from_ (forkChunk src (767 * 0x400000 + 0x400000))) :=
        ⟨rfl, fun _ _ _ => rfl, fun _ _ _ _ => rfl⟩
      have hto₄ := hto₃.trans hwrite
      -- and the entry of the parent again
      obtain ⟨hg₅, h₅, -⟩ := (vmmSwitchStack_demand (hto₄.cr3.trans hcr3) (hdir.grown hto₄)
        (hparent.grown hto₄) h.2).2 m₅ hm₅
      obtain ⟨hdata₅, hstack₅, hrows₅⟩ :=
        vmmSwitchStack_rows (hto₄.cr3.trans hcr3) (hdir.grown hto₄) hm₅
      have hto₅ := hto₄.trans hg₅
      have hround : StackCopied m m₅ d (x / 0x1000 * 0x1000) (y / 0x1000 * 0x1000) src
          (src + forkChunk src (767 * 0x400000 + 0x400000)) :=
        .chunk hin hto₃ (hdata₃.trans (hdata₂.trans hdata₁)) h₅ hapart₃
          ((hg₂.trans hg₃).stackCell h.2 hcell₁) hcell₃ (hwrite.trans hg₅)
          ⟨hrows₅ _ h.2, hrows₅ _ hC⟩ hstack₅ hdata₅
      exact hround.trans (ih (hto₅.cr3.trans hcr3) (hdir.grown hto₅) (hparent.grown hto₅)
        (hchild.grown hto₅) h₅ hround.apart (Nat.le_trans hsrc (Nat.le_add_right _ _)) hlen hcopy) hC
        hsrc (Nat.le_add_right _ _) hlen (Nat.le_refl _)

/-! ### The new stack -/

/-- The pages of the stack `T` are not among the free frames. -/
def StackUsed (m : Mem) (T : ℕ) : Prop :=
  ∀ i pte, m.tables T i = some pte →
    pte.frame % 0x1000 = 0 ∧ ∀ f ∈ m.pmemStack, f / 0x1000 * 0x1000 ≠ pte.frame

/-- The new stack has no page yet, and its table is a frame that was free. -/
structure NewStack (m m' : Mem) (stackpt P C : ℕ) : Prop where
  maps : KernelMaps m' m.cr3 stackpt C
  aligned : C / 0x1000 * 0x1000 = C
  table : C ≠ m.cr3
  apart : StacksApart m' P C
  data : m'.data = m.data
  kept : ∀ i, m.tables P i ≠ none → m'.tables P i = m.tables P i

theorem vmmMapStack_new {stackpt : ℕ} (h : Intact m m.cr3) (hentry : StackEntry m m.cr3 P)
    (hused : StackUsed m P) (hmap : vmmMapStack m = .ok (stackpt, m')) :
    ∃ C, NewStack m m' stackpt P C := by
  simp only [vmmMapStack, bind_ok, Prod.exists] at hmap
  obtain ⟨addr, m₁, halloc, hmap⟩ := hmap
  split_ifs at hmap with h0
  obtain ⟨rfl, rfl⟩ := Prod.mk.inj (Except.ok.inj hmap)
  obtain ⟨g, htaken⟩ := h.allocPage rfl halloc h0
  have hg : g ∈ m.pmemStack := htaken.stack ▸ List.mem_cons_self
  obtain ⟨pde, hpde, hframe⟩ := Option.map_eq_some_iff.mp hentry.1
  have hPC : P ≠ g / 0x1000 * 0x1000 := hframe ▸ (h.tables 767 (by decide) pde hpde).2 g hg
  have hrow : (m₁.clearTable (g / 0x1000 * 0x1000)).tables P = m₁.tables P :=
    Function.update_of_ne hPC _ _
  have hempty : ∀ i, (m₁.clearTable (g / 0x1000 * 0x1000)).tables (g / 0x1000 * 0x1000) i = none := by
    intro i
    show Function.update m₁.tables _ (fun _ => none) _ i = none
    rw [Function.update_self]
  have hnodup := h.nodup
  rw [htaken.stack, List.map_cons, List.nodup_cons] at hnodup
  obtain ⟨g', rest, pde', hstack, -, -, -, -, hm₁⟩ := h.allocPage_eq halloc h0
  obtain ⟨rfl, hrest⟩ := List.cons.inj (htaken.stack.symm.trans hstack)
  have hdata : m₁.data = m.data := by rw [hm₁]; rfl
  have hnew : ∀ i pte, m₁.tables P i = some pte →
      m.tables P i = some pte ∨ pte.frame = g / 0x1000 * 0x1000 := by
    intro i pte hpte
    rw [hm₁] at hpte
    obtain ⟨-, -, hset⟩ | ⟨-, hold⟩ := setEntry_other hpte
    · exact .inr (Option.some.inj hset ▸ rfl)
    · exact .inl hold
  rw [htaken.physaddr h rfl]
  refine ⟨g / 0x1000 * 0x1000, htaken.child h, by omega, h.dir g hg, ⟨hPC, hnodup.2, ?_, ?_⟩, hdata,
    fun i hi => ?_⟩
  · intro T hT i pte hpte
    have hin : ∀ f ∈ m₁.pmemStack, f ∈ m.pmemStack := fun f hf =>
      htaken.stack ▸ List.mem_cons_of_mem g hf
    cases hT with
    | inl hT =>
        rw [hT, hrow] at hpte
        cases hnew i pte hpte with
        | inl hold =>
            obtain ⟨halign, hfree⟩ := hused i pte hold
            exact ⟨halign, fun f hf => hfree f (hin f hf)⟩
        | inr hframe =>
            rw [hframe]
            exact ⟨by omega, fun f hf hc => hnodup.1 (hc ▸ List.mem_map_of_mem hf)⟩
    | inr hT =>
        rw [hT, hempty] at hpte
        cases hpte
  · intro i pte hpte
    rw [hempty] at hpte
    cases hpte
  · rw [hrow]
    exact htaken.others P i hi

/-! ### The loop with its buffer and its faults -/

/-- `memcpy` of `len` bytes of a buffer to a physical address. -/
def Mem.storeBuffer (m : Mem) (dst len : ℕ) (buf : ℕ → UInt8) : Mem :=
  { m with data := fun a => if dst ≤ a ∧ a < dst + len then buf (a - dst) else m.data a }

/-- `vmm_switch_stack(threads[tid])`. -/
def Kernel.switchStack (s : Kernel) (tid : Int) : Except Fault Kernel := do
  let t ← s.threadAt tid
  let p ← s.liveProcess t.pid
  let mem ← vmmSwitchStack s.mem p.cr3Virt t.stackpdi t.stackpt
  .ok { s with mem := mem }

/-- The kernel accesses the stack of the thread `currenttid`; `sched_user_fault` answers the page fault
if the page is missing, and the access is repeated. -/
def Kernel.accessStack (s : Kernel) (errorcode addr : ℕ) : Except Fault (ℕ × Kernel) :=
  if vmmGetPhysaddr s.mem addr ≠ 0 then .ok (vmmGetPhysaddr s.mem addr, s)
  else do
    let s₁ ← schedUserFault s 0x0E errorcode addr
    .ok (vmmGetPhysaddr s₁.mem addr, s₁)

/-- The copy loop of `sched_fork_thread` from the offset `off` on. -/
def forkCopyPages (retvalue oldtid : Int) (useresp stackend newdst : ℕ) :
    ℕ → ℕ → Kernel → Except Fault Kernel
  | 0, _, _ => .error .timeout
  | n + 1, off, s =>
      if off ≥ stackend - useresp then .ok s
      else do
        let src := useresp + off
        let chunk := forkChunk src stackend
        let (from_, s₁) ← s.accessStack 0 src
        let tempstackpage := fun i => s₁.mem.data (from_ + i)
        let s₂ ← s₁.switchStack retvalue
        let (to_, s₃) ← Kernel.accessStack { s₂ with currenttid := retvalue } 2 (newdst + off)
        let s₄ := { s₃ with mem := s₃.mem.storeBuffer to_ chunk tempstackpage, currenttid := oldtid }
        let s₅ ← s₄.switchStack oldtid
        forkCopyPages retvalue oldtid useresp stackend newdst n (off + chunk) s₅

theorem touchStack_data (h : touchStack m a = .ok (x, m')) : m'.data = m.data := by
  unfold touchStack at h
  split_ifs at h
  · obtain ⟨-, rfl⟩ := Prod.mk.inj (Except.ok.inj h)
    rfl
  · simp only [bind_ok, Prod.exists, Except.ok.injEq, Prod.mk.injEq] at h
    obtain ⟨g, m₁, hpop, r, m₂, hmap, -, rfl⟩ := h
    exact (vmmMapPageF_data _ hmap).trans (pmmAllocPage_data hpop)

theorem vmmSwitchStack_data {cr3Virt stackpdi stackpt : ℕ}
    (h : vmmSwitchStack m cr3Virt stackpdi stackpt = .ok m') : m'.data = m.data := by
  unfold vmmSwitchStack at h
  simp only at h
  split_ifs at h
  exact Except.ok.inj h ▸ rfl

section Pages

variable {s : Kernel} {t child parent : Thread} {p : Process}

/-- The page fault of the kernel is what `touchStack` models. -/
theorem Kernel.accessStack_eq {errorcode : ℕ} (ht : s.threads s.currenttid = some t)
    (hpdi : t.stackpdi = 767) (ha : InStacks a) (hcode : errorcode % 2 = 0) :
    s.accessStack errorcode a = touchStack s.mem a >>= fun r => .ok (r.1, { s with mem := r.2 }) := by
  unfold Kernel.accessStack touchStack
  by_cases hpage : vmmGetPhysaddr s.mem a ≠ 0
  · rw [if_pos hpage, if_pos hpage, ok_bind]
  · have hregion : inStackRegion t.stackpdi a = true := by
      unfold InStacks at ha
      unfold inStackRegion
      rw [hpdi, Bool.and_eq_true, decide_eq_true_iff, decide_eq_true_iff]
      omega
    rw [if_neg hpage, if_neg hpage]
    unfold schedUserFault
    rw [Kernel.threadAt_ok.mpr ht, ok_bind, if_pos ⟨rfl, hcode, hregion⟩]
    cases hpop : pmmAllocPage s.mem with
    | error e => rfl
    | ok popped =>
        simp only [ok_bind]
        cases hmap : vmmMapPage popped.2 popped.1 (a / 0x1000 * 0x1000) 0x7 false with
        | error e => simp only [error_bind]
        | ok mapped => simp only [ok_bind]

theorem Kernel.switchStack_eq {tid : Int} (ht : s.threads tid = some t)
    (hp : s.processes t.pid = some p) : s.switchStack tid =
      vmmSwitchStack s.mem p.cr3Virt t.stackpdi t.stackpt >>= fun mem => .ok { s with mem := mem } := by
  unfold Kernel.switchStack
  rw [Kernel.threadAt_ok.mpr ht, ok_bind, Kernel.liveProcess_ok.mpr hp, ok_bind]

/-- The loop of the source does to memory what `forkCopy` does, and leaves the rest as it was. -/
theorem forkCopyPages_eq {retvalue oldtid : Int} {useresp : ℕ} (n : ℕ) (hcur : s.currenttid = oldtid)
    (hparent : s.threads oldtid = some parent) (hchild : s.threads retvalue = some child)
    (hpp : s.processes parent.pid = some p) (hpc : s.processes child.pid = some p)
    (hpdi : parent.stackpdi = 767 ∧ child.stackpdi = 767) (hlow : 767 * 0x400000 ≤ useresp) (off : ℕ) :
    forkCopyPages retvalue oldtid useresp (767 * 0x400000 + 0x400000) useresp n off s =
      forkCopy p.cr3Virt parent child (767 * 0x400000 + 0x400000) n (useresp + off) (useresp + off)
        s.mem >>= fun mem => .ok { s with mem := mem } := by
  induction n generalizing off s with
  | zero => rfl
  | succ n ih =>
      unfold forkCopyPages forkCopy
      by_cases hdone : useresp + off ≥ 767 * 0x400000 + 0x400000
      · rw [if_pos hdone, if_pos (by omega), ok_bind]
      rw [if_neg hdone, if_neg (by omega)]
      have hin : InStacks (useresp + off) := ⟨by omega, by omega⟩
      simp only
      rw [Kernel.accessStack_eq (hcur ▸ hparent) hpdi.1 hin (by decide)]
      cases htouch : touchStack s.mem (useresp + off) with
      | error e => rfl
      | ok first =>
          obtain ⟨from_, m₁⟩ := first
          simp only [ok_bind]
          have hswitch := Kernel.switchStack_eq (s := { s with mem := m₁ }) hchild hpc
          simp only at hswitch
          rw [hswitch]
          cases hm₂ : vmmSwitchStack m₁ p.cr3Virt child.stackpdi child.stackpt with
          | error e => rfl
          | ok m₂ =>
              simp only [ok_bind]
              have haccess := Kernel.accessStack_eq
                (s := { s with mem := m₂, currenttid := retvalue }) hchild hpdi.2 hin
                  (show 2 % 2 = 0 by decide)
              simp only at haccess
              rw [haccess]
              cases htouch' : touchStack m₂ (useresp + off) with
              | error e => rfl
              | ok second =>
                  obtain ⟨to_, m₃⟩ := second
                  -- the buffer still holds what the parent has at `from_`
                  have hdata : m₃.data = m₁.data :=
                    (touchStack_data htouch').trans (vmmSwitchStack_data hm₂)
                  have hbuffer : m₃.storeBuffer to_ (forkChunk (useresp + off)
                      (767 * 0x400000 + 0x400000)) (fun i => m₁.data (from_ + i)) =
                        m₃.copyData to_ from_ (forkChunk (useresp + off)
                          (767 * 0x400000 + 0x400000)) := by
                    unfold Mem.storeBuffer Mem.copyData
                    rw [hdata]
                  simp only [ok_bind, hbuffer]
                  generalize m₃.copyData to_ from_ (forkChunk (useresp + off)
                    (767 * 0x400000 + 0x400000)) = m₄
                  have hback := Kernel.switchStack_eq
                    (s := { s with mem := m₄, currenttid := oldtid }) hparent hpp
                  simp only at hback
                  rw [hback]
                  cases hm₅ : vmmSwitchStack m₄ p.cr3Virt parent.stackpdi parent.stackpt with
                  | error e => rfl
                  | ok m₅ =>
                      simp only [ok_bind]
                      rw [Nat.add_assoc useresp off, hcur]
                      exact ih (s := { s with mem := m₅, currenttid := oldtid }) rfl hparent hchild
                        hpp hpc _

end Pages

/-! ### The fork -/

/-- The page table of the stack of a thread, as `vmm_switch_stack` enters it. -/
def Mem.stackTable (m : Mem) (t : Thread) : ℕ := vmmGetPhysaddr m t.stackpt / 0x1000 * 0x1000

/-- No free frame is used by the directory that is loaded or by the stack of the thread. -/
structure Kernel.StackInOrder (s : Kernel) (t : Thread) : Prop where
  intact : Intact s.mem s.mem.cr3
  used : StackUsed s.mem (s.mem.stackTable t)

/-- The frame of the new thread. -/
def Regs.forked (r : Regs) : Regs :=
  { r with
    gs := 0x23, fs := 0x23, es := 0x23, ds := 0x23, esp := 0, eax := 0, intNo := 0, errCode := 0,
    cs := 0x1B, ss := 0x23 }

/-- The thread `tid` is a copy of the running thread `t` as it is with the registers `r`: the new stack
has the bytes of the old one from `r.useresp` on, the old stack is what it was and is entered again.
`loop` is the copy as the source has it. -/
structure Kernel.Forked (s : Kernel) (t : Thread) (r : Regs) (tid : Int) (child : Thread) (s' : Kernel) :
    Prop where
  new : s.threads tid = none
  thread : s'.threads tid = some child
  pid : child.pid = t.pid
  frame : child.frame = r.forked
  others : ∀ i, i ≠ tid → s'.threads i = s.threads i
  loop : ∃ s₁, schedCreateThread s t.pid false r.eip = .ok (tid, s₁) ∧
    forkCopyPages tid s.currenttid r.useresp (t.stackpdi * 0x400000 + 0x400000) r.useresp 1026 0 s₁ =
      .ok { s₁ with mem := s'.mem }
  currenttid : s'.currenttid = s.currenttid
  cr3 : s'.mem.cr3 = s.mem.cr3
  table : s'.mem.stackTable t = s.mem.stackTable t
  entry : (s'.mem.tables s'.mem.cr3 t.stackpdi).map Pte.frame = some (s'.mem.stackTable t)
  copied : ∀ a, r.useresp ≤ a → a < t.stackpdi * 0x400000 + 0x400000 →
    ∃ b, s'.mem.stackByte (s'.mem.stackTable child) a = some b ∧
      s'.mem.stackByte (s'.mem.stackTable t) a = some b
  kept : ∀ a b, s.mem.stackByte (s.mem.stackTable t) a = some b →
    s'.mem.stackByte (s'.mem.stackTable t) a = some b

variable {s s' : Kernel} {t : Thread} {p : Process}

theorem forkFrame_forked (tid eip eflags : ℕ) (r : Regs) (hr : r.eip = eip) {privilege : ℕ}
    (hpriv : privilege ≠ 0) : forkFrame (startFrame privilege tid eip 767 eflags) r = r.forked := by
  subst hr
  unfold startFrame
  rw [if_neg hpriv]
  rfl

theorem Kernel.StackInOrder.entry (h : s.StackInOrder t) (hhere : s.RunsHere t p) :
    StackEntry s.mem s.mem.cr3 (s.mem.stackTable t) := by
  obtain ⟨pde, hpde, hframe⟩ := Option.map_eq_some_iff.mp hhere.stack.2
  have hframe' : pde.frame = s.mem.stackTable t := hframe
  exact ⟨hhere.stack.2, hframe' ▸ (h.intact.tables 767 (by decide) pde hpde).1⟩

theorem OnHeap.lt {m : Mem} {a : ℕ} (h : OnHeap m a) : a < 0x100000000 := by
  have hlt := h.2.1
  unfold heapLimit at hlt
  omega

/-- The copy of the stack into that of a new thread. -/
theorem Kernel.StackInOrder.copy {child : Thread} {m₁ mem : Mem} {useresp : ℕ}
    (h : s.StackInOrder t) (hhere : s.RunsHere t p) (hpdi : t.stackpdi = 767)
    (hcpdi : child.stackpdi = 767) (hnew : vmmMapStack s.mem = .ok (child.stackpt, m₁))
    (hlow : 767 * 0x400000 ≤ useresp) (hhigh : useresp < 767 * 0x400000 + 0x400000) {n : ℕ}
    (hcopy : forkCopy p.cr3Virt t child (767 * 0x400000 + 0x400000) n useresp useresp m₁ = .ok mem) :
    mem.cr3 = s.mem.cr3 ∧ mem.stackTable t = s.mem.stackTable t ∧
      StackEntry mem s.mem.cr3 (s.mem.stackTable t) ∧
      (∀ a, useresp ≤ a → a < 767 * 0x400000 + 0x400000 →
        ∃ b, mem.stackByte (mem.stackTable child) a = some b ∧
          mem.stackByte (s.mem.stackTable t) a = some b) ∧
      ∀ a b, s.mem.stackByte (s.mem.stackTable t) a = some b →
        mem.stackByte (s.mem.stackTable t) a = some b := by
  have hentry := h.entry hhere
  have hadded := vmmMapStack_added h.intact hnew
  obtain ⟨C, hchild⟩ := vmmMapStack_new h.intact hentry h.used hnew
  have hparent : KernelMaps m₁ s.mem.cr3 t.stackpt (vmmGetPhysaddr s.mem t.stackpt) :=
    hhere.stack.1.maps h.intact rfl hadded.takes.row (hadded.pages _ hhere.stack.1.lt)
  have hdir : KernelMaps m₁ s.mem.cr3 p.cr3Virt s.mem.cr3 :=
    hhere.dir.1.maps h.intact hhere.dir.2 hadded.takes.row (hadded.pages _ hhere.dir.1.lt)
  obtain ⟨pde, hpde, -⟩ := Option.map_eq_some_iff.mp hentry.1
  have hentry₁ : StackEntry m₁ s.mem.cr3 (s.mem.stackTable t) := by
    refine ⟨?_, hentry.2⟩
    rw [hadded.takes.row 767 (by rw [hpde]; exact Option.some_ne_none _)]
    exact hentry.1
  have hcopied : StackCopied m₁ mem s.mem.cr3 (s.mem.stackTable t) (C / 0x1000 * 0x1000) useresp
      (767 * 0x400000 + 0x400000) := by
    apply forkCopy_copies n hadded.takes.cr3 hdir hparent hchild.maps ?_ ⟨hpdi, hcpdi⟩ hentry₁ ?_ hlow
      (Nat.le_of_lt hhigh) hcopy
    · rw [hchild.aligned]
      exact hchild.table
    · rw [hchild.aligned]
      exact hchild.apart
  have hcr3 : mem.cr3 = s.mem.cr3 := hcopied.grown.cr3.trans hadded.takes.cr3
  have hchildTable : mem.stackTable child = C / 0x1000 * 0x1000 := by
    unfold Mem.stackTable
    rw [(hchild.maps.grown hcopied.grown).physaddr hcr3]
  refine ⟨hcr3, ?_, hcopied.entry, fun a h1 h2 => ?_, fun a b hb => ?_⟩
  · unfold Mem.stackTable
    rw [(hparent.grown hcopied.grown).physaddr hcr3]
  · rw [hchildTable]
    exact hcopied.copied a h1 h2
  · -- the page is still there, and only cells of the child have been written
    obtain ⟨x, hx, rfl⟩ := stackByte_eq.mp hb
    obtain ⟨pte, hpte, hcell⟩ := stackCell_eq.mp hx
    have hx₁ : m₁.stackCell (s.mem.stackTable t) a = some x := by
      refine stackCell_eq.mpr ⟨pte, ?_, hcell⟩
      rw [hchild.kept _ (by rw [hpte]; exact Option.some_ne_none _), hpte]
    have hx' := hcopied.grown.stackCell hentry.2 hx₁
    refine stackByte_eq.mpr ⟨x, hx', ?_⟩
    rw [← hchild.data]
    by_contra hne
    obtain ⟨a', -, -, hother⟩ := hcopied.changed x hne
    exact hcopied.apart.tables (hcopied.apart.cell hother (.inl rfl) hx').1

/-- What a fork that does not fail has done: the thread that it has created, and the copy. -/
theorem schedForkThread_created {n : Int} {r : Regs} (hs : Tables s)
    (ht : s.threads s.currenttid = some t) (hfork : schedForkThread s s.currenttid r = .ok (n, s')) :
    (n < 0 ∧ s' = s) ∨ ∃ s₁ mem p₁ child, schedCreateThread s t.pid false r.eip = .ok (n, s₁) ∧
      s₁.threads n = some child ∧ s₁.threads s.currenttid = some t ∧ s₁.processes child.pid = some p₁ ∧
      t.stackpdi * 0x400000 ≤ r.useresp ∧ r.useresp < t.stackpdi * 0x400000 + 0x400000 ∧
      forkCopy p₁.cr3Virt t child (t.stackpdi * 0x400000 + 0x400000) 1026 r.useresp
        (child.stackpdi * 0x400000 + (r.useresp - t.stackpdi * 0x400000)) s₁.mem = .ok mem ∧
      s' = { s₁.setThread n (some { child with frame := forkFrame child.frame r }) with mem := mem } := by
  unfold schedForkThread at hfork
  split_ifs at hfork with hmax hmem
  · obtain ⟨rfl, rfl⟩ := Prod.mk.inj (Except.ok.inj hfork)
    exact .inl ⟨by decide, rfl⟩
  · obtain ⟨rfl, rfl⟩ := Prod.mk.inj (Except.ok.inj hfork)
    exact .inl ⟨by decide, rfl⟩
  rw [Kernel.threadAt_ok.mpr ht, ok_bind] at hfork
  simp only at hfork
  split_ifs at hfork with hstack
  · obtain ⟨rfl, rfl⟩ := Prod.mk.inj (Except.ok.inj hfork)
    exact .inl ⟨by decide, rfl⟩
  simp only [bind_ok, Prod.exists, Kernel.threadAt_ok, Kernel.liveProcess_ok, Except.ok.injEq,
    Prod.mk.injEq] at hfork
  obtain ⟨tid, s₁, hcreate, child, hchild, parent, hparent, p₁, hp₁, mem, hcopy, rfl, rfl⟩ := hfork
  obtain ⟨rfl, _, _, -, -, hthreads, -, hcur⟩ := schedCreateThread_stack hcreate
  have hparent' : s₁.threads s.currenttid = some t := by
    rw [hthreads, Function.update_of_ne (Int.ne_of_lt (hs.tid _ t ht).1.2), ht]
  obtain rfl : t = parent := Option.some.inj (hparent'.symm.trans (hcur ▸ hparent))
  exact .inr ⟨s₁, mem, p₁, child, hcreate, hchild, hparent', hp₁, by omega, by omega, hcopy, rfl⟩

/-- **A fork copies the stack**: it fails and changes nothing, or there is a new thread with the
registers of the running one and with the bytes of its stack, which is not changed. -/
theorem schedForkThread_copies {n : Int} {r : Regs} (hs : Tables s)
    (ht : s.threads s.currenttid = some t) (hp : s.processes t.pid = some p) (hhere : s.RunsHere t p)
    (horder : s.StackInOrder t) (hfork : schedForkThread s s.currenttid r = .ok (n, s')) :
    (n < 0 ∧ s' = s) ∨ (0 ≤ n ∧ ∃ child, s.Forked t r n child s') := by
  cases schedForkThread_created hs ht hfork with
  | inl hfail => exact .inl hfail
  | inr hdone =>
      obtain ⟨s₁, mem, p₁, child, hcreate, hchild, hparent, hp₁, hlow, hhigh, hcopy, rfl⟩ := hdone
      obtain ⟨rfl, p₀, stackpt, hp₀, hstack, hthreads, hplaced, hcur⟩ := schedCreateThread_stack hcreate
      obtain rfl : p = p₀ := Option.some.inj (hp.symm.trans hp₀)
      have hpdi : t.stackpdi = 767 := (hs.tid _ t ht).2.2
      obtain rfl : newThread p t.pid s.lastTid r.eip s.eflags stackpt = child := by
        rw [hthreads, Function.update_self] at hchild
        exact Option.some.inj hchild
      rw [hpdi] at hlow hhigh hcopy
      have hsame : p₁.cr3Virt = p.cr3Virt := (hplaced p₁ hp₁).cr3Virt
      have hdst : (newThread p t.pid s.lastTid r.eip s.eflags stackpt).stackpdi * 0x400000 +
          (r.useresp - 767 * 0x400000) = r.useresp := by
        show 767 * 0x400000 + (r.useresp - 767 * 0x400000) = r.useresp
        omega
      rw [hdst] at hcopy
      unfold newStack at hstack
      rw [if_neg hhere.privilege] at hstack
      obtain ⟨hcr3, htable, hentry, hcopied, hkept⟩ :=
        horder.copy hhere hpdi rfl hstack hlow hhigh (hsame ▸ hcopy)
      have hloop := forkCopyPages_eq 1026 hcur hparent hchild hp₁ hp₁ ⟨hpdi, rfl⟩ hlow 0
      simp only [Nat.add_zero, hcopy, ok_bind] at hloop
      let child := newThread p t.pid s.lastTid r.eip s.eflags stackpt
      refine .inr ⟨hs.lastTid, { child with frame := forkFrame child.frame r }, ?_⟩
      exact {
        new := by
          by_contra hsome
          obtain ⟨u, hu⟩ := Option.ne_none_iff_exists'.mp hsome
          exact absurd (hs.tid _ u hu).1.2 (Int.lt_irrefl _)
        thread := Function.update_self ..
        pid := rfl
        frame := forkFrame_forked _ _ _ r rfl hhere.privilege
        others := fun i hi => by
          show Function.update s₁.threads _ _ i = _
          rw [Function.update_of_ne hi, hthreads, Function.update_of_ne hi]
        loop := ⟨s₁, hcreate, by rw [hpdi]; exact hloop⟩
        currenttid := hcur
        cr3 := hcr3
        table := htable
        entry := by
          show (mem.tables mem.cr3 t.stackpdi).map Pte.frame = some (mem.stackTable t)
          rw [hcr3, hpdi, htable]
          exact hentry.1
        copied := fun a h1 h2 => by
          show ∃ b, mem.stackByte _ a = some b ∧ mem.stackByte (mem.stackTable t) a = some b
          rw [htable]
          exact hcopied a h1 (hpdi ▸ h2)
        kept := fun a b hb => by
          show mem.stackByte (mem.stackTable t) a = some b
          rw [htable]
          exact hkept a b hb }

/-! ### Where the condition holds -/

/-- Where every frame has one owner, the free frames are used by no stack. -/
theorem FrameInv.stackInOrder {role : ℕ → Role} {K : ℕ → ℕ} {blocks : List (ℕ × ℕ)} {tid : Int}
    (h : FrameInv role K blocks s) (ht : s.threads tid = some t) (huser : t.privilegeLevel ≠ 0) :
    s.StackInOrder t := by
  refine ⟨h.owned.intact h.cr3, fun i pte hpte => ?_⟩
  obtain ⟨F, hF⟩ := (h.threads tid t ht).stack huser
  have htable : s.mem.stackTable t = F := by
    have halign := (h.owned.aligned hF).1
    unfold Mem.stackTable
    rw [h.owned.translate h.cr3 hF]
    omega
  rw [htable] at hpte
  have hrole := h.owned.userEntry F _ hF i pte hpte
  refine ⟨(h.owned.frames pte.frame (by rw [hrole]; simp)).1, fun f hf hframe => ?_⟩
  have hfree := h.owned.free f hf
  have halign := (h.owned.frames f (by rw [hfree]; simp)).1
  rw [← hframe, show f / 0x1000 * 0x1000 = f by omega, hfree] at hrole
  cases hrole

/-- In a run that keeps the owners of frames apart, every stack is in order. -/
theorem reach_stackInOrder {st : FrameState} {tid : Int}
    (h : Reach FrameStep (fun st c => c.FramesOk st) FrameStart st)
    (ht : st.kernel.threads tid = some t) (huser : t.privilegeLevel ≠ 0) : st.kernel.StackInOrder t := by
  obtain ⟨role, K, hframe⟩ := reach_frameInv h
  exact hframe.stackInOrder ht huser

/-! ### A fork -/

/-- The running thread is in place, and its fork succeeds. -/
def Kernel.CanFork (s : Kernel) (r : Regs) : Prop :=
  ∃ t ∈ s.threads s.currenttid, t.privilegeLevel ≠ 0 ∧ (∃ p ∈ s.processes t.pid, s.RunsHere t p) ∧
    OkAnd (schedForkThread s s.currenttid r) fun x => 0 ≤ x.1

instance (s : Kernel) (r : Regs) : Decidable (s.CanFork r) := by
  unfold Kernel.CanFork
  infer_instance

/-- Process 2 has touched one page of its stack, and forks with its stack pointer in the page below. -/
theorem canFork_run : Runs FrameState.exec (fun st c => c.FramesOk st)
    (fun st => st.kernel.CanFork (forkRegs 0xBFFFEFF0))
    (sampleCalls [0, 0, 0x40, 0] ++ [.userFault 14 4 0xBFFFFFF0])
    ⟨Kernel.boot (bootMachine 24) 0, []⟩ := by
  decide +kernel

theorem schedForkThread_copied : ∃ (s s' : Kernel) (t child : Thread) (n : Int),
    s.Forked t (forkRegs 0xBFFFEFF0) n child s' := by
  obtain ⟨st, hst, t, ht, huser, ⟨p, hp, hhere⟩, hok⟩ := FrameState.runs_reach canFork_run
  obtain ⟨⟨n, s'⟩, hfork, hn⟩ := hok.exists_ok
  cases schedForkThread_copies (reach_frameTables hst) ht hp hhere (reach_stackInOrder hst ht huser)
    hfork with
  | inl hfail => exact absurd hfail.1 (Int.not_lt.mpr hn)
  | inr hdone =>
      obtain ⟨-, child, hforked⟩ := hdone
      exact ⟨st.kernel, s', t, child, n, hforked⟩

end GalaxyOS
