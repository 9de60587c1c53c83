import GalaxyOS.Lib.Pieces
import GalaxyOS.Libc.Printf

/-! # String functions of the C library

`strncat` and `strncpy` on arrays, `sprintf` to one, and the loops that take a string apart with
`strtok`.

`strncat_outcome`, `strncpyArray_short`, `strncpyArray_full` and `sprintfArray_outcome` say what each of
them leaves, or that it stores behind the end; `strtok_tokens` and `strtokLoop_eq` read the loops as the
list of tokens. -/

namespace GalaxyOS

open Transition Pieces

/-! ### Arrays -/

theorem zero_notMem_takeWhile (mem : List UInt8) : 0 ∉ mem.takeWhile fun c => c ≠ 0 := by
  intro hzero
  have hne := List.mem_takeWhile_imp hzero
  exact of_decide_eq_true hne rfl

/-- The string in an array.  Its end is looked for behind the array, too, if it is not in it. -/
def stringEnd (dest : List UInt8) : Except Fault ℕ :=
  if 0 ∈ dest then .ok (strlen dest) else .error .overrun

/-- The loop of `strncat` that copies, from `dest[d]` on. -/
def strncatLoop (dest : List UInt8) (d : ℕ) : List UInt8 → ℕ → Except Fault (List UInt8)
  | _, 0 => setChar dest d 0
  | [], _ + 1 => setChar dest d 0
  | c :: src, n + 1 => do
      let dest ← setChar dest d c
      strncatLoop dest (d + 1) src n

/-- `strncat`. -/
def strncat (dest src : List UInt8) (n : ℕ) : Except Fault (List UInt8) := do
  let d ← stringEnd dest
  strncatLoop dest d src n

/-- `strncpy` to an array. -/
def strncpyArray (s1 s2 : List UInt8) (n : ℕ) : Except Fault (List UInt8) := do
  let size := strlen s2
  let size := if size > n then n else size
  let s1 ← if size ≠ n then setChars s1 size (List.replicate (n - size) 0) else .ok s1
  setChars s1 0 (s2.take size)

/-- `sprintf` to an array: the bytes that it counts and the terminator must fit. -/
def sprintfArray (above : List UInt8) (buf : Vector UInt8 11) (str : List UInt8) (format : Text)
    (args : List Arg) : Except Fault (List UInt8) := do
  let (written, mem, _) ← sprintf above buf (fun i => str.getD i 0) format args
  if written.toInt.toNat + 1 ≤ str.length then .ok ((List.range str.length).map mem)
  else .error .overrun

/-- The string at a pointer, from the memory there on. -/
def cstr (mem : List UInt8) : Text :=
  ⟨mem.takeWhile fun c => c ≠ 0, zero_notMem_takeWhile mem⟩

/-! ### Tokens -/

def strspn (s accept : List UInt8) : ℕ := (s.takeWhile fun c => c ∈ accept).length

def strcspn (s1 s2 : List UInt8) : ℕ := (s1.takeWhile fun c => c ∉ s2).length

/-- `strtok`: the token, and where `olds` points to. -/
def strtok (s delim : List UInt8) : Option (List UInt8) × List UInt8 :=
  let s := s.drop (strspn s delim)
  if s = [] then (none, s)
  else
    let n := strcspn s delim
    (some (s.take n), (s.drop n).tail)

/-- The loops that collect tokens, as long as there is room for them. -/
def strtokLoop (delim olds : List UInt8) : ℕ → List (List UInt8)
  | 0 => []
  | room + 1 =>
      match strtok olds delim with
      | (none, _) => []
      | (some token, olds) => token :: strtokLoop delim olds room

/-! ### `strncat` -/

variable {s src dest rest delim : List UInt8} {n : ℕ}

theorem strlen_append_zero (hs : 0 ∉ s) (rest : List UInt8) :
    stringEnd (s ++ 0 :: rest) = .ok s.length := by
  unfold stringEnd
  rw [if_pos (List.mem_append_right s (List.mem_cons_self ..)), strlen_terminated hs]

/-- A string that is short enough is stored with its terminator. -/
theorem strncatLoop_eq (hsrc : src.length ≤ n) (dest : List UInt8) (d : ℕ) :
    strncatLoop dest d src n = setChars dest d (src ++ [0]) := by
  have hzero : ∀ dest d, setChars dest d [0] = setChar dest d 0 := by
    intro dest d
    unfold setChars setChars
    exact bind_pure (setChar dest d 0)
  induction src generalizing dest d n with
  | nil =>
      rw [List.nil_append, hzero]
      cases n with
      | zero => rfl
      | succ n => rfl
  | cons c src ih =>
      cases n with
      | zero => exact absurd hsrc (Nat.not_succ_le_zero _)
      | succ n =>
          unfold strncatLoop
          rw [List.cons_append]
          unfold setChars
          congr 1
          funext dest
          exact ih (Nat.le_of_succ_le_succ hsrc) dest (d + 1)

/-- `strncat` to an array that holds a string: the result, or a store behind the end. -/
theorem strncat_outcome (hs : 0 ∉ s) (hsrc : src.length ≤ n) (rest : List UInt8) :
    (s.length + src.length + 1 ≤ (s ++ 0 :: rest).length ∧
      ∃ rest', strncat (s ++ 0 :: rest) src n = .ok (s ++ src ++ 0 :: rest') ∧
        (s ++ src ++ 0 :: rest').length = (s ++ 0 :: rest).length) ∨
    ((s ++ 0 :: rest).length < s.length + src.length + 1 ∧
      strncat (s ++ 0 :: rest) src n = .error .overrun) := by
  unfold strncat
  rw [strlen_append_zero hs, ok_bind, strncatLoop_eq hsrc]
  by_cases hfits : s.length + src.length + 1 ≤ (s ++ 0 :: rest).length
  · refine .inl ⟨hfits, ?_⟩
    rw [List.length_append] at hfits
    obtain ⟨old, rest', hsplit, hold⟩ :=
      exists_split (0 :: rest) (show src.length + 1 ≤ (0 :: rest).length by omega)
    have hlength : old.length = (src ++ [0]).length := by
      rw [hold, List.length_append, List.length_singleton]
    refine ⟨rest', ?_, ?_⟩
    · rw [hsplit, setChars_next s rest' hlength]
      simp only [List.append_assoc, List.singleton_append]
    · rw [hsplit]
      simp only [List.length_append, List.length_cons, hold]
      omega
  · refine .inr ⟨Nat.lt_of_not_le hfits, ?_⟩
    apply setChars_overrun
    · rw [List.length_append]
      exact Nat.le_add_right _ _
    · have hlength : (src ++ [0]).length = src.length + 1 := List.length_append
      omega

/-- An array without a terminator is left behind. -/
theorem strncat_unterminated (hdest : 0 ∉ dest) (src : List UInt8) (n : ℕ) :
    strncat dest src n = .error .overrun := by
  unfold strncat stringEnd
  rw [if_neg hdest, error_bind]

/-- `strncpy` of a shorter string fills up with terminators. -/
theorem strncpyArray_short (hs : 0 ∉ s) (hn : s.length < n) (hdest : n ≤ dest.length)
    (rest : List UInt8) : ∃ rest', strncpyArray dest (s ++ 0 :: rest) n = .ok (s ++ 0 :: rest') ∧
      (s ++ 0 :: rest').length = dest.length := by
  obtain ⟨first, last, rfl, hfirst⟩ := exists_split dest (Nat.le_trans (Nat.le_of_lt hn) hdest)
  rw [List.length_append] at hdest
  obtain ⟨old, tail, rfl, hold⟩ := exists_split last (show n - s.length ≤ last.length by omega)
  have hzeros := setChars_next first tail
    (show old.length = (List.replicate (n - s.length) (0 : UInt8)).length by
      rw [hold, List.length_replicate])
  rw [hfirst] at hzeros
  obtain ⟨m, hm⟩ : ∃ m, n - s.length = m + 1 := ⟨n - s.length - 1, by omega⟩
  have hcopy : setChars (first ++ (List.replicate (n - s.length) 0 ++ tail)) 0 s = _ :=
    setChars_next [] _ hfirst
  have hfront : (s ++ 0 :: rest).take s.length = s := List.take_left
  refine ⟨List.replicate m 0 ++ tail, ?_, ?_⟩
  · unfold strncpyArray
    rw [strlen_terminated hs]
    simp only [if_neg (Nat.lt_asymm hn), if_pos (Nat.ne_of_lt hn), hzeros, ok_bind, hfront, hcopy]
    rw [hm]
    rfl
  · simp only [List.length_append, List.length_cons, List.length_replicate] at hold ⊢
    omega

/-- `strncpy` of a string that is not shorter leaves it without a terminator. -/
theorem strncpyArray_full (hs : 0 ∉ s) (hdest : s.length ≤ dest.length) (rest : List UInt8) :
    ∃ rest', strncpyArray dest (s ++ 0 :: rest) s.length = .ok (s ++ rest') ∧
      (s ++ rest').length = dest.length := by
  obtain ⟨first, last, rfl, hfirst⟩ := exists_split dest hdest
  have hcopy : setChars (first ++ last) 0 s = .ok (s ++ last) := setChars_next [] last hfirst
  have hfront : (s ++ 0 :: rest).take s.length = s := List.take_left
  refine ⟨last, ?_, ?_⟩
  · unfold strncpyArray
    rw [strlen_terminated hs]
    simp only [if_neg (Nat.lt_irrefl s.length), ne_eq, not_true_eq_false, if_false, ok_bind,
      hfront, hcopy]
  · rw [List.length_append, List.length_append, hfirst]

/-! ### `sprintf` -/

/-- `sprintf` to an array fails exactly if the output with its terminator does not fit. -/
theorem sprintfArray_outcome {format : Text} {args left : List Arg} {output : List UInt8}
    (str above : List UInt8) (buf : Vector UInt8 11)
    (hrender : render (items format.1) args = some (output, left))
    (hout : output.length < 0x7FFFFFFF) (hfit : NumbersFit (items format.1) args) :
    (output.length + 1 ≤ str.length ∧ ∃ str', sprintfArray above buf str format args = .ok str' ∧
      str'.length = str.length) ∨
    (str.length < output.length + 1 ∧
      sprintfArray above buf str format args = .error .overrun) := by
  have hrun := (sprintf_outcome above buf (fun i => str.getD i 0) hrender hout).resolve_right
    fun h => h.1 hfit
  unfold sprintfArray
  rw [hrun.2]
  simp only [ok_bind, toInt_ofNat_length hout, Int.toNat_natCast]
  by_cases hfits : output.length + 1 ≤ str.length
  · rw [if_pos hfits]
    exact .inl ⟨hfits, _, rfl, by rw [List.length_map, List.length_range]⟩
  · rw [if_neg hfits]
    exact .inr ⟨Nat.lt_of_not_le hfits, rfl⟩

/-! ### Taking a string apart -/

theorem drop_takeWhile (p : UInt8 → Bool) (s : List UInt8) :
    s.drop (s.takeWhile p).length = s.dropWhile p := by
  calc s.drop (s.takeWhile p).length
      = (s.takeWhile p ++ s.dropWhile p).drop (s.takeWhile p).length := by
        rw [List.takeWhile_append_dropWhile]
    _ = s.dropWhile p := List.drop_left

theorem take_takeWhile (p : UInt8 → Bool) (s : List UInt8) :
    s.take (s.takeWhile p).length = s.takeWhile p := by
  calc s.take (s.takeWhile p).length
      = (s.takeWhile p ++ s.dropWhile p).take (s.takeWhile p).length := by
        rw [List.takeWhile_append_dropWhile]
    _ = s.takeWhile p := List.take_left

/-- `strtok` takes the first token off. -/
theorem strtok_tokens (s delim : List UInt8) :
    ((strtok s delim).1 = none ∧ tokens (fun c => c ∈ delim) s = []) ∨
    ∃ token olds, strtok s delim = (some token, olds) ∧
      tokens (fun c => c ∈ delim) s = token :: tokens (fun c => c ∈ delim) olds := by
  have hskip := drop_takeWhile (fun c => decide (c ∈ delim)) s
  unfold strtok strspn
  rw [hskip, ← tokens_dropWhile]
  cases hrest : s.dropWhile fun c => decide (c ∈ delim) with
  | nil => exact .inl ⟨rfl, tokens_nil _⟩
  | cons c rest =>
      have hc : decide (c ∈ delim) = false := by
        simpa [hrest] using List.head_dropWhile_not (fun c => decide (c ∈ delim)) (l := s)
          (by simp [hrest])
      refine .inr ⟨_, _, if_neg (List.cons_ne_nil c rest), ?_⟩
      have hnot : (fun c => decide (c ∉ delim)) = fun c => !decide (c ∈ delim) := by
        funext c
        exact decide_not
      have hfirst : (c :: rest).takeWhile (fun c => decide (c ∉ delim)) =
          c :: rest.takeWhile fun c => !decide (c ∈ delim) := by
        rw [hnot]
        exact List.takeWhile_cons_of_pos (by rw [hc]; rfl)
      have hlater : (c :: rest).dropWhile (fun c => decide (c ∉ delim)) =
          rest.dropWhile fun c => !decide (c ∈ delim) := by
        rw [hnot]
        exact List.dropWhile_cons_of_pos (by rw [hc]; rfl)
      unfold strcspn
      rw [take_takeWhile, drop_takeWhile, hfirst, hlater]
      exact tokens_cons_of_neg (p := fun c => decide (c ∈ delim)) hc rest

/-- The loop collects the first tokens, as many as there is room for. -/
theorem strtokLoop_eq (delim olds : List UInt8) (room : ℕ) :
    strtokLoop delim olds room = (tokens (fun c => c ∈ delim) olds).take room := by
  induction room generalizing olds with
  | zero => rfl
  | succ room ih =>
      unfold strtokLoop
      cases strtok_tokens olds delim with
      | inl hnone =>
          rw [hnone.2]
          cases hstrtok : strtok olds delim with
          | mk token olds' =>
              rw [hstrtok] at hnone
              obtain rfl : token = none := hnone.1
              rfl
      | inr hsome =>
          obtain ⟨token, olds', hstrtok, htokens⟩ := hsome
          rw [hstrtok, htokens, List.take_succ_cons, ← ih olds']

end GalaxyOS
