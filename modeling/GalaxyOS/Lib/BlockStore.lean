import GalaxyOS.Lib.Layout

/-! # Blocks with contents

What the users of an allocator see: blocks of bytes at addresses that have been given to them.  Blocks
come and go, and a block that stays keeps what was written into it.

`Reads` says that a memory holds the contents of all blocks; `Reads.cons`, `Reads.remove` and
`Reads.congr` are the rules for a new block, one that goes, and a memory that changes elsewhere. -/

namespace BlockStore

/-- Addresses, each with the bytes of its block. -/
abbrev Store := List (ℕ × List UInt8)

/-- The addresses of the blocks. -/
def addrs (S : Store) : List ℕ := S.map Prod.fst

/-- The blocks with their lengths. -/
def pieces (S : Store) : List (ℕ × ℕ) := S.map fun x => (x.1, x.2.length)

/-- The contents of the block at `p`. -/
def contents (S : Store) (p : ℕ) : Option (List UInt8) := (S.find? fun x => x.1 == p).map Prod.snd

/-- The block at `p` goes. -/
def remove (S : Store) (p : ℕ) : Store := S.filter fun x => x.1 != p

/-- A block comes, or takes the place of the one at the same address. -/
def put (S : Store) (p : ℕ) (bs : List UInt8) : Store := (p, bs) :: remove S p

/-- The memory holds the bytes of the blocks. -/
def Reads (load : ℕ → Option UInt8) (S : Store) : Prop :=
  ∀ x ∈ S, ∀ i < x.2.length, load (x.1 + i) = x.2[i]?

/-- The `n` bytes from `a` on, as far as they are there. -/
def bytesFrom (load : ℕ → Option UInt8) (a n : ℕ) : List UInt8 :=
  (List.range n).map fun i => (load (a + i)).getD 0

variable {S : Store} {load load' : ℕ → Option UInt8} {p a n i : ℕ} {bs : List UInt8} {b : UInt8}

theorem mem_remove {x : ℕ × List UInt8} : x ∈ remove S p ↔ x ∈ S ∧ x.1 ≠ p := by
  simp [remove]

theorem contents_eq_some (hnd : (addrs S).Nodup) : contents S p = some bs ↔ (p, bs) ∈ S := by
  unfold contents
  rw [Option.map_eq_some_iff]
  constructor
  · rintro ⟨x, hx, rfl⟩
    have hp := List.find?_some hx
    have hmem := List.mem_of_find?_eq_some hx
    rw [← beq_iff_eq.mp hp]
    exact hmem
  · intro hmem
    induction S with
    | nil => exact absurd hmem List.not_mem_nil
    | cons y S ih =>
        obtain ⟨hy, hnd'⟩ := List.nodup_cons.mp hnd
        cases List.mem_cons.mp hmem with
        | inl heq => exact ⟨y, by rw [← heq]; simp, by rw [← heq]⟩
        | inr hrest =>
            have hne : y.1 ≠ p := fun heq => hy (heq ▸ List.mem_map_of_mem (f := Prod.fst) hrest)
            rw [List.find?_cons_of_neg (by simpa using hne)]
            exact ih hnd' hrest

/-- A block and the other ones. -/
theorem perm_remove (hnd : (addrs S).Nodup) (h : (p, bs) ∈ S) : S.Perm ((p, bs) :: remove S p) := by
  induction S with
  | nil => exact absurd h List.not_mem_nil
  | cons y S ih =>
      obtain ⟨hy, hnd'⟩ := List.nodup_cons.mp hnd
      cases List.mem_cons.mp h with
      | inl heq =>
          have hrest : remove S p = S := by
            apply List.filter_eq_self.mpr
            intro x hx
            have hne : x.1 ≠ p := by
              rintro rfl
              exact hy (by rw [← heq]; exact List.mem_map.mpr ⟨x, hx, rfl⟩)
            simpa using hne
          have hfirst : remove (y :: S) p = S := by
            rw [← heq]
            unfold remove at hrest ⊢
            rw [List.filter_cons_of_neg (by simp), hrest]
          rw [hfirst, heq]
      | inr hrest =>
          have hne : y.1 ≠ p := fun heq => hy (heq ▸ List.mem_map_of_mem (f := Prod.fst) hrest)
          have hfirst : remove (y :: S) p = y :: remove S p := by
            unfold remove
            rw [List.filter_cons_of_pos (by simpa using hne)]
          rw [hfirst]
          exact ((ih hnd' hrest).cons y).trans (List.Perm.swap _ _ _)

theorem remove_of_notMem (h : p ∉ addrs S) : remove S p = S := by
  apply List.filter_eq_self.mpr
  intro x hx
  have hne : x.1 ≠ p := by
    rintro rfl
    exact h (List.mem_map_of_mem hx)
  simpa using hne

theorem length_bytesFrom : (bytesFrom load a n).length = n := by
  simp [bytesFrom]

theorem getElem?_bytesFrom (hi : i < n) : (bytesFrom load a n)[i]? = some ((load (a + i)).getD 0) := by
  simp [bytesFrom, hi]

theorem Reads.remove (h : Reads load S) (p : ℕ) : Reads load (remove S p) :=
  fun x hx => h x (mem_remove.mp hx).1

theorem Reads.cons (h : Reads load S) (hbs : ∀ i < bs.length, load (p + i) = bs[i]?) :
    Reads load ((p, bs) :: S) := by
  intro x hx
  cases List.mem_cons.mp hx with
  | inl heq => exact heq ▸ hbs
  | inr hold => exact h x hold

/-- Memories that agree on the blocks. -/
theorem Reads.congr (h : Reads load S)
    (hsame : ∀ x ∈ S, ∀ i < x.2.length, load' (x.1 + i) = load (x.1 + i)) : Reads load' S :=
  fun x hx i hi => (hsame x hx i hi).trans (h x hx i hi)

/-- A block of what the memory holds. -/
theorem reads_bytesFrom (hthere : ∀ i < n, load (a + i) ≠ none) :
    ∀ i < (bytesFrom load a n).length, load (a + i) = (bytesFrom load a n)[i]? := by
  intro i hi
  rw [length_bytesFrom] at hi
  obtain ⟨b, hb⟩ := Option.ne_none_iff_exists'.mp (hthere i hi)
  rw [getElem?_bytesFrom hi, hb, Option.getD_some]

end BlockStore
