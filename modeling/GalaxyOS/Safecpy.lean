import Mathlib.Logic.Function.Basic
import Mathlib.Data.List.Basic

/-! # Copies between kernel and user memory

The checked copies of `safecpy.c`.  Addresses are 32-bit numbers below `2 ^ 32`, kept as
natural numbers.  `UserMem` is memory as `safecpy_asm` meets it from ring 0: a load or store of
one byte either succeeds or faults, and a fault makes `safecpy_asm` return `-1`.

`touched` lists every address that was loaded or stored through a pointer supplied by a user
program, whether or not the access faulted.  It is a record of the bus, not a variable of the
kernel; the theorems on user pointers are about it.

`touchesUser_toUser`, `touchesUser_fromUser` and `touchesUser_safelen` say that the copies touch nothing
but user memory, each by induction over the bytes. -/

namespace GalaxyOS

/-- `KERNEL_START`: user addresses lie below it. -/
def kernelStart : ℕ := 0xC0000000

def ENOSYS : Int := 1
def ENOENT : Int := 2
def ENOMEM : Int := 3
def EACCES : Int := 4
def EEXIST : Int := 5
def EAGAIN : Int := 6
def EFAULT : Int := 7
def EINVAL : Int := 8
def EOWNERDEAD : Int := 9
def ESRCH : Int := 10
def EBADF : Int := 11
def ENAMETOOLONG : Int := 12
def ENOSPC : Int := 13
def EMSGSIZE : Int := 14
def E2BIG : Int := 15

/-- A NUL-terminated string, without its terminator. -/
abbrev CString := List UInt8

/-- Memory behind user pointers. -/
structure UserMem where
  byte : ℕ → UInt8
  readable : ℕ → Bool
  writable : ℕ → Bool
  touched : List ℕ

namespace UserMem

/-- `safecpy_asm` from the user address `a`. -/
def load (um : UserMem) (a : ℕ) : Option UInt8 × UserMem :=
  (if um.readable a then some (um.byte a) else none, { um with touched := a :: um.touched })

/-- `safecpy_asm` to the user address `a`. -/
def store (um : UserMem) (a : ℕ) (b : UInt8) : Bool × UserMem :=
  if um.writable a then
    (true, { um with byte := Function.update um.byte a b, touched := a :: um.touched })
  else
    (false, { um with touched := a :: um.touched })

end UserMem

/-- Non-zero if `[ptr, ptr+size)` is entirely userspace. -/
def safecpyCheckUser (ptr size : ℕ) : Bool :=
  if ptr ≥ kernelStart then false
  else if size > kernelStart - ptr then false
  else true

/-- The loop of `safecpy_to_user`, storing `data` from `dst` on. -/
def safecpyToUserLoop (um : UserMem) (dst : ℕ) : List UInt8 → Int × UserMem
  | [] => (0, um)
  | b :: data =>
      match um.store dst b with
      | (false, um') => (-1, um')
      | (true, um') => safecpyToUserLoop um' (dst + 1) data

/-- `safecpy_to_user(dstptr, data, |data|)`. -/
def safecpyToUser (um : UserMem) (dstptr : ℕ) (data : List UInt8) : Int × UserMem :=
  if data.length = 0 then (0, um)
  else if !safecpyCheckUser dstptr data.length then (-1, um)
  else safecpyToUserLoop um dstptr data

/-- The loop of `safecpy_from_user`, loading `n` bytes from `src` on. -/
def safecpyFromUserLoop (um : UserMem) (src : ℕ) : ℕ → Option (List UInt8) × UserMem
  | 0 => (some [], um)
  | n + 1 =>
      match um.load src with
      | (none, um') => (none, um')
      | (some b, um') =>
          match safecpyFromUserLoop um' (src + 1) n with
          | (none, um'') => (none, um'')
          | (some bs, um'') => (some (b :: bs), um'')

/-- `safecpy_from_user(_, srcptr, size)`: the bytes copied, or `none` for `-1`. -/
def safecpyFromUser (um : UserMem) (srcptr size : ℕ) : Option (List UInt8) × UserMem :=
  if size = 0 then (some [], um)
  else if !safecpyCheckUser srcptr size then (none, um)
  else safecpyFromUserLoop um srcptr size

/-- The loop of `safelen_max_err`, with `n` bytes left to inspect. -/
def safelenMaxErrLoop (um : UserMem) (base : ℕ) : ℕ → ℕ → Except Int ℕ × UserMem
  | 0, _ => (.error (-ENAMETOOLONG), um)
  | n + 1, len =>
      match um.load (base + len) with
      | (none, um') => (.error (-EFAULT), um')
      | (some test, um') =>
          if test = 0 then (.ok len, um') else safelenMaxErrLoop um' base n (len + 1)

/-- `safelen_max_err`: the length of a user string, or the error stored in `*err`. -/
def safelenMaxErr (um : UserMem) (str max : ℕ) : Except Int ℕ × UserMem :=
  if str ≥ kernelStart then (.error (-EFAULT), um)
  else
    let avail := kernelStart - str
    let max := if max > avail then avail else max
    safelenMaxErrLoop um str max 0

/-! ### The check -/

theorem safecpyCheckUser_iff {ptr size : ℕ} :
    safecpyCheckUser ptr size = true ↔ ptr < kernelStart ∧ ptr + size ≤ kernelStart := by
  unfold safecpyCheckUser
  split_ifs with h1 h2
  · simp; omega
  · simp; omega
  · simp; omega

/-! ### Only user addresses are touched -/

/-- What was touched between `um` and `um'` lies in user space. -/
def TouchesUser (um um' : UserMem) : Prop :=
  ∀ a ∈ um'.touched, a ∈ um.touched ∨ a < kernelStart

theorem TouchesUser.refl (um : UserMem) : TouchesUser um um := fun _ h => .inl h

theorem TouchesUser.trans {u₁ u₂ u₃ : UserMem} (h₁ : TouchesUser u₁ u₂)
    (h₂ : TouchesUser u₂ u₃) : TouchesUser u₁ u₃ := by
  intro a ha
  rcases h₂ a ha with h | h
  · exact h₁ a h
  · exact .inr h

theorem touchesUser_load (um : UserMem) {a : ℕ} (h : a < kernelStart) :
    TouchesUser um (um.load a).2 := by
  intro b hb
  rcases List.mem_cons.mp hb with rfl | hb
  · exact .inr h
  · exact .inl hb

theorem store_touched (um : UserMem) (a : ℕ) (b : UInt8) :
    (um.store a b).2.touched = a :: um.touched := by
  unfold UserMem.store
  split <;> rfl

theorem touchesUser_store (um : UserMem) {a : ℕ} (b : UInt8) (h : a < kernelStart) :
    TouchesUser um (um.store a b).2 := by
  intro c hc
  rw [store_touched] at hc
  rcases List.mem_cons.mp hc with rfl | hc
  · exact .inr h
  · exact .inl hc

theorem touchesUser_toUserLoop : ∀ (data : List UInt8) (um : UserMem) (dst : ℕ),
    dst + data.length ≤ kernelStart → TouchesUser um (safecpyToUserLoop um dst data).2
  | [], um, _, _ => .refl um
  | b :: data, um, dst, h => by
      rw [List.length_cons] at h
      have h1 := touchesUser_store um b (show dst < kernelStart by omega)
      simp only [safecpyToUserLoop]
      split
      · rename_i um' e; rw [e] at h1; exact h1
      · rename_i um' e; rw [e] at h1
        exact h1.trans (touchesUser_toUserLoop data um' (dst + 1) (by omega))

theorem touchesUser_toUser (um : UserMem) (dstptr : ℕ) (data : List UInt8) :
    TouchesUser um (safecpyToUser um dstptr data).2 := by
  unfold safecpyToUser
  split_ifs with h1 h2
  · exact .refl um
  · exact .refl um
  · have := safecpyCheckUser_iff.mp (by simpa using h2)
    exact touchesUser_toUserLoop data um dstptr this.2

theorem touchesUser_fromUserLoop : ∀ (n : ℕ) (um : UserMem) (src : ℕ),
    src + n ≤ kernelStart → TouchesUser um (safecpyFromUserLoop um src n).2
  | 0, um, _, _ => .refl um
  | n + 1, um, src, h => by
      have h1 := touchesUser_load um (show src < kernelStart by omega)
      simp only [safecpyFromUserLoop]
      split
      · rename_i um' e; rw [e] at h1; exact h1
      · rename_i b um' e
        rw [e] at h1
        have h2 := touchesUser_fromUserLoop n um' (src + 1) (by omega)
        split <;> (rename_i e'; rw [e'] at h2; exact h1.trans h2)

theorem touchesUser_fromUser (um : UserMem) (srcptr size : ℕ) :
    TouchesUser um (safecpyFromUser um srcptr size).2 := by
  unfold safecpyFromUser
  split_ifs with h1 h2
  · exact .refl um
  · exact .refl um
  · have := safecpyCheckUser_iff.mp (by simpa using h2)
    exact touchesUser_fromUserLoop size um srcptr this.2

theorem touchesUser_safelenLoop (base : ℕ) : ∀ (n : ℕ) (um : UserMem) (len : ℕ),
    base + len + n ≤ kernelStart → TouchesUser um (safelenMaxErrLoop um base n len).2
  | 0, um, _, _ => .refl um
  | n + 1, um, len, h => by
      have h1 := touchesUser_load um (show base + len < kernelStart by omega)
      simp only [safelenMaxErrLoop]
      split
      · rename_i um' e; rw [e] at h1; exact h1
      · rename_i test um' e
        rw [e] at h1
        split_ifs
        · exact h1
        · exact h1.trans (touchesUser_safelenLoop base n um' (len + 1) (by omega))

theorem touchesUser_safelen (um : UserMem) (str max : ℕ) :
    TouchesUser um (safelenMaxErr um str max).2 := by
  unfold safelenMaxErr
  split_ifs with h1
  · exact .refl um
  · have hmax : (if max > kernelStart - str then kernelStart - str else max) ≤
        kernelStart - str := by
      split_ifs <;> omega
    exact touchesUser_safelenLoop str _ um 0 (by omega)

end GalaxyOS
