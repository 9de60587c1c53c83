import GalaxyOS.Lib.Effects
import GalaxyOS.Syscall.Environ

/-! # User memory in system calls

A system call is a computation over the memory of its caller.  Next to the memory stands a mark that
is set when the sum of an address and an offset wraps around at 32 bits.  `UserSafe Q x` says of a
computation that everything it touches is user memory and that no such sum wraps, however it ends; it
is built from one rule for each way to access memory.

A handler is a sequence of such accesses, and `UserSafe.bind` is the rule for sequences. -/

namespace GalaxyOS

open Transition

/-! ### The memory of the caller -/

/-- The memory of the caller, and whether a sum has wrapped. -/
structure Access where
  um : UserMem
  wrapped : Bool

/-- Why a system call does not return: a fault of the kernel, or `reboot`. -/
inductive CallEnd where
  | fault (f : Fault)
  | reboot

/-- Computations over the memory of the caller. -/
abbrev UserM := Effect CallEnd Access

namespace UserM

variable {α : Type}

/-- The address `base + offset`. -/
def ptr (base offset : ℕ) : UserM ℕ := Effect.act fun a =>
  (wrap32 (base + offset), { a with wrapped := a.wrapped || decide (0x100000000 ≤ base + offset) })

/-- A function of `safecpy.c`, or one that accesses user memory through these. -/
def user (f : UserMem → α × UserMem) : UserM α := Effect.act fun a =>
  ((f a.um).1, { a with um := (f a.um).2 })

/-- A part of the kernel that does not access user memory. -/
def kernel (x : Except Fault α) : UserM α := Effect.ofExcept (x.mapError CallEnd.fault)

/-- A function that can fault, but not any more once it accesses user memory. -/
def call (f : UserMem → Except Fault (α × UserMem)) : UserM α := Effect.attempt fun a =>
  match f a.um with
  | .ok (x, um) => .ok (x, { a with um := um })
  | .error e => .error (.fault e)

/-- An access to `n` bytes at `addr` without `safecpy_asm`. -/
def touch (addr n : ℕ) : UserM Unit := Effect.act fun a =>
  ((), { a with um := { a.um with touched := (List.range n).map (addr + ·) ++ a.um.touched } })

/-- `memcpy` to user memory.  It reaches the stack of the caller only, where a page that is missing
is allocated by the page fault. -/
def memcpy (dst : ℕ) (data : List UInt8) : UserM Unit := do
  touch dst data.length
  user fun um => ((), { um with byte := overlay dst data um.byte })

end UserM

/-! ### Safe computations -/

/-- What was touched in between is user memory, and no sum has wrapped. -/
structure Access.Within (a a' : Access) : Prop where
  user : TouchesUser a.um a'.um
  sums : a'.wrapped = true → a.wrapped = true

theorem Access.Within.refl (a : Access) : a.Within a := ⟨.refl a.um, id⟩

theorem Access.Within.trans (a b c : Access) (h₁ : a.Within b) (h₂ : b.Within c) : a.Within c :=
  ⟨h₁.user.trans h₂.user, fun h => h₁.sums (h₂.sums h)⟩

/-- The computation touches user memory only, no sum wraps, and its result satisfies `Q`. -/
def UserSafe {α : Type} (Q : α → Prop) (x : UserM α) : Prop := Guarantees Access.Within Q x

namespace UserSafe

variable {α β : Type} {Q : α → Prop} {Q' : β → Prop}

theorem pure {a : α} (ha : Q a) : UserSafe Q (Pure.pure a : UserM α) :=
  Guarantees.pure Access.Within.refl ha

theorem bind {x : UserM α} {f : α → UserM β} (hx : UserSafe Q x) (hf : ∀ a, Q a → UserSafe Q' (f a)) :
    UserSafe Q' (x >>= f) :=
  Guarantees.bind Access.Within.trans hx hf

theorem ite {c : Prop} [Decidable c] {x y : UserM α} (hx : c → UserSafe Q x) (hy : ¬c → UserSafe Q y) :
    UserSafe Q (if c then x else y) :=
  Guarantees.ite hx hy

theorem mono {Q₂ : α → Prop} {x : UserM α} (h : UserSafe Q x) (hQ : ∀ a, Q a → Q₂ a) : UserSafe Q₂ x :=
  Guarantees.mono h hQ

theorem ptr {base offset : ℕ} (h : base + offset < 0x100000000) :
    UserSafe (· = base + offset) (UserM.ptr base offset) := by
  refine Guarantees.act fun a => ⟨⟨.refl a.um, fun hw => ?_⟩, Nat.mod_eq_of_lt h⟩
  rw [Bool.or_eq_true, decide_eq_true_iff] at hw
  exact hw.resolve_right (Nat.not_le.mpr h)

theorem user {f : UserMem → α × UserMem} (h : ∀ um, TouchesUser um (f um).2 ∧ Q (f um).1) :
    UserSafe Q (UserM.user f) :=
  Guarantees.act fun a => ⟨⟨(h a.um).1, id⟩, (h a.um).2⟩

theorem kernel {x : Except Fault α} (h : ∀ a, x = .ok a → Q a) : UserSafe Q (UserM.kernel x) := by
  refine Guarantees.ofExcept Access.Within.refl fun a ha => h a ?_
  cases x with
  | error e => cases ha
  | ok b => exact congrArg Except.ok (Except.ok.inj ha)

theorem call {f : UserMem → Except Fault (α × UserMem)}
    (h : ∀ um x um', f um = .ok (x, um') → TouchesUser um um' ∧ Q x) : UserSafe Q (UserM.call f) := by
  refine Guarantees.attempt Access.Within.refl fun a x a' hrun => ?_
  cases hf : f a.um with
  | error e =>
      rw [hf] at hrun
      cases hrun
  | ok p =>
      rw [hf] at hrun
      obtain ⟨rfl, rfl⟩ := Prod.mk.inj (Except.ok.inj hrun)
      obtain ⟨htouch, hq⟩ := h a.um p.1 p.2 hf
      exact ⟨⟨htouch, id⟩, hq⟩

theorem touch {addr n : ℕ} (h : addr + n ≤ kernelStart) :
    UserSafe (fun _ => True) (UserM.touch addr n) := by
  refine Guarantees.act fun a => ⟨⟨fun x hx => ?_, id⟩, trivial⟩
  cases List.mem_append.mp hx with
  | inl hnew =>
      obtain ⟨i, hi, rfl⟩ := List.mem_map.mp hnew
      have hlt := List.mem_range.mp hi
      exact .inr (by omega)
  | inr hold => exact .inl hold

theorem memcpy {dst : ℕ} {data : List UInt8} (h : dst + data.length ≤ kernelStart) :
    UserSafe (fun _ => True) (UserM.memcpy dst data) :=
  (touch h).bind fun _ _ => user fun _ => ⟨.refl _, trivial⟩

/-! ### The functions of `safecpy.c` -/

/-- A copy to the user that succeeds has room below the kernel. -/
theorem toUser (dst : ℕ) (data : List UInt8) :
    UserSafe (fun r => r ≠ -1 → data ≠ [] → dst + data.length ≤ kernelStart)
      (UserM.user fun um => safecpyToUser um dst data) := by
  refine user fun um => ⟨touchesUser_toUser um dst data, fun hr hne => ?_⟩
  exact (safecpyCheckUser_iff.mp ((safecpyToUser_stores_iff um dst hne).mp hr).1).2

theorem fromUser (src size : ℕ) :
    UserSafe (fun r => r ≠ none → size ≠ 0 → src + size ≤ kernelStart)
      (UserM.user fun um => safecpyFromUser um src size) := by
  refine user fun um => ⟨touchesUser_fromUser um src size, fun hr hsize => ?_⟩
  unfold safecpyFromUser at hr
  rw [if_neg hsize] at hr
  by_cases hcheck : safecpyCheckUser src size = true
  · exact (safecpyCheckUser_iff.mp hcheck).2
  · rw [Bool.not_eq_true] at hcheck
    rw [if_pos (by rw [hcheck]; rfl)] at hr
    exact absurd rfl hr

theorem safelen (str max : ℕ) :
    UserSafe (fun _ => True) (UserM.user fun um => safelenMaxErr um str max) :=
  user fun um => ⟨touchesUser_safelen um str max, trivial⟩

theorem kstrdup (uptr maxlen : ℕ) :
    UserSafe (fun _ => True) (UserM.user fun um => kstrdupUser um uptr maxlen) := by
  refine user fun um => ⟨?_, trivial⟩
  have hlen := touchesUser_safelen um uptr maxlen
  unfold kstrdupUser
  split
  · rename_i err um₁ hrun
    rw [hrun] at hlen
    exact hlen
  · rename_i len um₁ hrun
    rw [hrun] at hlen
    have hcopy := touchesUser_fromUser um₁ uptr (len + 1)
    split
    · rename_i um₂ hrun'
      rw [hrun'] at hcopy
      exact hlen.trans hcopy
    · rename_i buf um₂ hrun'
      rw [hrun'] at hcopy
      exact hlen.trans hcopy

end UserSafe

end GalaxyOS
