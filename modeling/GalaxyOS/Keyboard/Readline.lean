import GalaxyOS.Keyboard.Buffer
import GalaxyOS.Libc.Arrays

/-! # Reading a line

`term_readline` stores each character before it looks at it, and takes an erase back together with the
character before it.  It then looks at the character in front of the count, which does not exist when
nothing is left, and it returns a full buffer without a terminator.

A wake-up is given by the keyboard at that time: `term_read` delivers one character from its buffer,
or none.

`termReadline_iff` says for which edits neither happens.  `readlineRound_char`, `readlineRound_erase` and
`readlineRound_newline` are the rounds of the loop on a line in the buffer, and `readsLine_iff` is the
induction over the wake-ups. -/

namespace GalaxyOS

open Transition

/-! ### The code -/

/-- The buffer and the counters of `term_readline`, and what it has written to the screen. -/
structure Readline where
  buf : List UInt8
  bytesRead : ℕ
  oldBytesRead : ℕ
  echoed : List UInt8

/-- `n - 1` of a `size_t`. -/
def previous (n : ℕ) : ℕ := wrap32 (n + 0xFFFFFFFF)

/-- The branch for an erase. -/
def readlineErase (st : Readline) : Except Fault Readline := do
  let buf ← setChar st.buf (previous st.bytesRead) 0
  let bytesRead := previous st.bytesRead
  let oldBytesRead := previous st.oldBytesRead
  if bytesRead ≠ 0 then do
    let buf ← setChar buf (previous bytesRead) 0
    .ok { st with buf, bytesRead := previous bytesRead, oldBytesRead := previous oldBytesRead }
  else .ok { st with buf, bytesRead, oldBytesRead }

/-- The test for a newline in front of the count. -/
def readlineNewline (st : Readline) : Except Fault (Readline × Option ℕ) := do
  let c ← arrayAt st.buf (previous st.bytesRead)
  if c = 0x0A then do
    let buf ← setChar st.buf (previous st.bytesRead) 0
    .ok ({ st with buf, bytesRead := previous st.bytesRead }, some (previous st.bytesRead))
  else .ok (st, none)

/-- The body of the loop after a wake-up, and the count if it returns. -/
def readlineRound (st : Readline) (kb : Keyboard) : Except Fault (Readline × Option ℕ) := do
  let chars := (ps2kbReadChars kb 1).1
  -- `term_read(&buf[bytes_read], 1)`
  let buf ← setChars st.buf st.bytesRead chars
  let bytesRead := st.bytesRead + chars.length
  let st := { st with buf, bytesRead }
  if bytesRead > st.oldBytesRead then do
    let c ← arrayAt st.buf (previous st.bytesRead)
    let st := { st with oldBytesRead := st.bytesRead, echoed := st.echoed ++ [c] }
    let st ← if c = 0x7F then readlineErase st else .ok st
    readlineNewline st
  else .ok (st, none)

/-- How a call ends: it still waits, or it has returned a count for a newline or for a full buffer. -/
inductive ReadlineEnd where
  | waiting
  | newline (n : ℕ)
  | full (n : ℕ)

/-- The loop, with the keyboard at each wake-up. -/
def readlineLoop (size : ℕ) : Readline → List Keyboard → Except Fault (Readline × ReadlineEnd)
  | st, [] => if st.bytesRead < size then .ok (st, .waiting) else .ok (st, .full st.bytesRead)
  | st, kb :: kbs =>
      if st.bytesRead < size then do
        let (st, r) ← readlineRound st kb
        match r with
        | some n => .ok (st, .newline n)
        | none => readlineLoop size st kbs
      else .ok (st, .full st.bytesRead)

/-- `term_readline`. -/
def termReadline (buf : List UInt8) (size : ℕ) (kbs : List Keyboard) :
    Except Fault (Readline × ReadlineEnd) := readlineLoop size ⟨buf, 0, 0, []⟩ kbs

/-! ### What it is for -/

/-- The characters that are typed. -/
def typedChars (kbs : List Keyboard) : List UInt8 := kbs.flatMap fun kb => (ps2kbReadChars kb 1).1

/-- A character at the end of a line: an erase takes the last one away. -/
def edit (line : List UInt8) (c : UInt8) : List UInt8 :=
  if c = 0x7F then line.dropLast else line ++ [c]

/-- The line up to the newline. -/
def editedLine : List UInt8 → List UInt8 → List UInt8
  | line, [] => line
  | line, c :: cs => if c = 0x0A then line else editedLine (edit line c) cs

/-- What a call is to leave in the buffer. -/
def ReadlineEnd.Right (line : List UInt8) (st : Readline) : ReadlineEnd → Prop
  | .waiting => True
  | .newline n => n = line.length ∧ ∃ rest, st.buf = line ++ 0 :: rest
  | .full _ => 0 ∈ st.buf

/-- Each erase finds two characters in the line, of which there are `k` at first, and the line stays
shorter than `size`. -/
def Edits (size : ℕ) : ℕ → List UInt8 → Prop
  | _, [] => True
  | k, c :: cs =>
      if c = 0x0A then True
      else if c = 0x7F then 2 ≤ k ∧ Edits size (k - 1) cs
      else k + 1 < size ∧ Edits size (k + 1) cs

/-! ### One round -/

variable {kb : Keyboard} {kbs : List Keyboard} {line rest echoed : List UInt8} {c : UInt8}
  {k size : ℕ}

theorem previous_succ (hk : k < 0xFFFFFFFF) : previous (k + 1) = k := by
  unfold previous wrap32
  omega

theorem previous_zero : previous 0 = 0xFFFFFFFF := rfl

/-- A wake-up delivers a character or none. -/
theorem read_one (kb : Keyboard) :
    (ps2kbReadChars kb 1).1 = [] ∨ ∃ c, (ps2kbReadChars kb 1).1 = [c] := by
  rw [(ps2kbReadChars_unread 1 kb).1]
  cases kb.unread with
  | nil => exact .inl rfl
  | cons c cs => exact .inr ⟨c, rfl⟩

/-- The state with a line in the buffer. -/
def Readline.ofLine (line rest echoed : List UInt8) : Readline :=
  ⟨line ++ rest, line.length, line.length, echoed⟩

theorem readlineRound_none (h : (ps2kbReadChars kb 1).1 = []) (line rest echoed : List UInt8) :
    readlineRound (.ofLine line rest echoed) kb = .ok (.ofLine line rest echoed, none) := by
  unfold readlineRound
  rw [h]
  exact if_neg (Nat.lt_irrefl _)

/-- What is left of the round when the character has been stored. -/
theorem readlineRound_stored (h : (ps2kbReadChars kb 1).1 = [c]) (hline : line.length < 0xFFFFFFFF)
    (o : UInt8) (rest echoed : List UInt8) :
    readlineRound (.ofLine line (o :: rest) echoed) kb =
      ((if c = 0x7F then readlineErase (.ofLine (line ++ [c]) rest (echoed ++ [c]))
        else .ok (.ofLine (line ++ [c]) rest (echoed ++ [c]))) >>= readlineNewline) := by
  have hstore : setChars (line ++ o :: rest) line.length [c] = .ok (line ++ c :: rest) :=
    setChars_next line rest (show [o].length = [c].length from rfl)
  unfold readlineRound Readline.ofLine
  rw [h]
  simp only [hstore, ok_bind, List.length_singleton, previous_succ hline, arrayAt_next,
    if_pos (Nat.lt_succ_self line.length), List.length_append, List.append_assoc,
    List.singleton_append]
  by_cases hc : c = 0x7F
  · rw [if_pos hc, if_pos hc]
  · rw [if_neg hc, if_neg hc, ok_bind]

/-- A newline ends the line. -/
theorem readlineRound_newline (h : (ps2kbReadChars kb 1).1 = [0x0A])
    (hline : line.length < 0xFFFFFFFF) (o : UInt8) (rest echoed : List UInt8) :
    ∃ st, readlineRound (.ofLine line (o :: rest) echoed) kb = .ok (st, some line.length) ∧
      st.buf = line ++ 0 :: rest := by
  refine ⟨⟨line ++ 0 :: rest, line.length, line.length + 1, echoed ++ [0x0A]⟩, ?_, rfl⟩
  rw [readlineRound_stored h hline, if_neg (by decide), ok_bind]
  unfold readlineNewline Readline.ofLine
  simp only [List.length_append, List.length_singleton, previous_succ hline, List.append_assoc,
    List.singleton_append, arrayAt_next, setChar_next, ok_bind, if_true]

/-- Another character is put behind the line. -/
theorem readlineRound_char (h : (ps2kbReadChars kb 1).1 = [c]) (hline : line.length < 0xFFFFFFFF)
    (herase : c ≠ 0x7F) (hnewline : c ≠ 0x0A) (o : UInt8) (rest echoed : List UInt8) :
    readlineRound (.ofLine line (o :: rest) echoed) kb =
      .ok (.ofLine (line ++ [c]) rest (echoed ++ [c]), none) := by
  rw [readlineRound_stored h hline, if_neg herase, ok_bind]
  unfold readlineNewline Readline.ofLine
  simp only [List.length_append, List.length_singleton, previous_succ hline, List.append_assoc,
    List.singleton_append, arrayAt_next, ok_bind, if_neg hnewline]

/-- The character in front of the count that does not exist. -/
theorem readlineNewline_overrun {st : Readline} (hbytes : st.bytesRead = 0)
    (hbuf : st.buf.length ≤ 0xFFFFFFFF) : readlineNewline st = .error .overrun := by
  unfold readlineNewline
  have harrayAt : arrayAt st.buf 0xFFFFFFFF = .error .overrun := by
    unfold arrayAt
    rw [List.getElem?_eq_none hbuf]
  rw [hbytes, previous_zero, harrayAt, error_bind]

theorem readlineErase_empty (o : UInt8) (rest echoed : List UInt8) :
    readlineErase (.ofLine [o] rest echoed) = .ok ⟨0 :: rest, 0, 0, echoed⟩ := by
  have hset := setChar_next [] o 0 rest
  unfold readlineErase Readline.ofLine
  simp only [List.nil_append, List.length_nil] at hset
  simp only [List.length_singleton, previous_succ (show 0 < 0xFFFFFFFF by decide),
    List.singleton_append, hset, ok_bind]
  rfl

/-- The two last characters of a longer line are taken back. -/
theorem readlineErase_last (line : List UInt8) (hline : line.length + 1 < 0xFFFFFFFF) (a c : UInt8)
    (rest echoed : List UInt8) : readlineErase (.ofLine (line ++ [a] ++ [c]) rest echoed) =
      .ok (.ofLine line (0 :: 0 :: rest) echoed) := by
  have hlast := setChar_next (line ++ [a]) c 0 rest
  have hbefore := setChar_next line a 0 (0 :: rest)
  have hlength : (line ++ [a] ++ [c]).length = line.length + 1 + 1 := by
    simp only [List.length_append, List.length_singleton]
  unfold readlineErase Readline.ofLine
  simp only [List.length_append, List.length_singleton, List.append_assoc, List.cons_append,
    List.nil_append] at hlast hlength ⊢
  simp only [hlength, previous_succ hline, hlast, ok_bind, previous_succ (Nat.lt_of_succ_lt hline),
    hbefore]
  exact if_pos (Nat.succ_ne_zero line.length)

/-- An erase with fewer than two characters looks at the byte before the buffer. -/
theorem readlineRound_erase_short (h : (ps2kbReadChars kb 1).1 = [0x7F]) (hline : line.length < 2)
    (o : UInt8) {rest : List UInt8} (hrest : (line ++ o :: rest).length ≤ 0xFFFFFFFF)
    (echoed : List UInt8) :
    readlineRound (.ofLine line (o :: rest) echoed) kb = .error .overrun := by
  rw [readlineRound_stored h (by omega), if_pos rfl]
  rw [List.length_append, List.length_cons] at hrest
  cases line with
  | nil =>
      rw [List.nil_append, readlineErase_empty, ok_bind]
      apply readlineNewline_overrun rfl
      rw [List.length_nil] at hrest
      show (0 :: rest).length ≤ 0xFFFFFFFF
      rw [List.length_cons]
      omega
  | cons a line =>
      obtain rfl : line = [] := by
        rw [List.length_cons] at hline
        exact List.length_eq_zero_iff.mp (by omega)
      have herase : readlineErase (.ofLine ([a] ++ [0x7F]) rest (echoed ++ [0x7F])) = _ :=
        readlineErase_last [] (by decide) a 0x7F rest (echoed ++ [0x7F])
      rw [herase, ok_bind]
      apply readlineNewline_overrun rfl
      rw [List.length_singleton] at hrest
      show (0 :: 0 :: rest).length ≤ 0xFFFFFFFF
      rw [List.length_cons, List.length_cons]
      omega

/-- An erase takes the last of two or more characters away. -/
theorem readlineRound_erase (h : (ps2kbReadChars kb 1).1 = [0x7F])
    (hline : line.length + 2 < 0xFFFFFFFF) {a : UInt8} (ha : a ≠ 0x0A) (b o : UInt8)
    (rest echoed : List UInt8) :
    readlineRound (.ofLine (line ++ [a] ++ [b]) (o :: rest) echoed) kb =
      .ok (.ofLine (line ++ [a]) (0 :: 0 :: rest) (echoed ++ [0x7F]), none) := by
  have hlength : (line ++ [a] ++ [b]).length = line.length + 2 := by
    simp only [List.length_append, List.length_singleton]
  have hlength' : (line ++ [a]).length = line.length + 1 := by
    simp only [List.length_append, List.length_singleton]
  rw [readlineRound_stored h (by omega), if_pos rfl, readlineErase_last _ (by omega), ok_bind]
  unfold readlineNewline Readline.ofLine
  have hlast := arrayAt_next line a (0 :: 0 :: rest)
  rw [hlength', previous_succ (by omega), List.append_assoc, List.singleton_append, hlast, ok_bind,
    if_neg ha]

/-! ### The loop -/

theorem typed_none (h : (ps2kbReadChars kb 1).1 = []) (kbs : List Keyboard) :
    typedChars (kb :: kbs) = typedChars kbs := by
  unfold typedChars
  rw [List.flatMap_cons, h, List.nil_append]

theorem typed_some (h : (ps2kbReadChars kb 1).1 = [c]) (kbs : List Keyboard) :
    typedChars (kb :: kbs) = c :: typedChars kbs := by
  unfold typedChars
  rw [List.flatMap_cons, h, List.singleton_append]

/-- A full buffer is returned, whatever is typed. -/
theorem readlineLoop_full (st : Readline) (hfull : ¬st.bytesRead < size) (kbs : List Keyboard) :
    readlineLoop size st kbs = .ok (st, .full st.bytesRead) := by
  cases kbs with
  | nil => exact if_neg hfull
  | cons kb kbs => exact if_neg hfull

theorem readlineLoop_cons (st : Readline) (hroom : st.bytesRead < size) (kb : Keyboard)
    (kbs : List Keyboard) : readlineLoop size st (kb :: kbs) =
      readlineRound st kb >>= fun p =>
        p.2.elim (readlineLoop size p.1 kbs) fun n => .ok (p.1, .newline n) := by
  rw [readlineLoop, if_pos hroom]
  congr 1
  funext p
  obtain ⟨st, r⟩ := p
  cases r with
  | none => rfl
  | some n => rfl

/-- The calls that do what they are for, from a line in the buffer on. -/
def ReadsLine (size : ℕ) (line rest echoed : List UInt8) (kbs : List Keyboard) : Prop :=
  ∃ st r, readlineLoop size (.ofLine line rest echoed) kbs = .ok (st, r) ∧
    r.Right (editedLine line (typedChars kbs)) st

/-- A full buffer has no terminator. -/
theorem not_readsLine_full (hline : ∀ c ∈ line, c ≠ 0) (hfull : ¬line.length < size) :
    ¬ReadsLine size line [] echoed kbs := by
  rintro ⟨st, r, hrun, hright⟩
  rw [readlineLoop_full (.ofLine line [] echoed) hfull] at hrun
  cases hrun
  have hzero : 0 ∈ line ++ [] := hright
  rw [List.append_nil] at hzero
  exact hline 0 hzero rfl

/-- The first two characters of a line that has them, from its end. -/
theorem exists_last_two (hline : 2 ≤ line.length) : ∃ first a b, line = first ++ [a] ++ [b] := by
  cases List.eq_nil_or_concat' line with
  | inl hnil =>
      rw [hnil, List.length_nil] at hline
      exact absurd hline (by decide)
  | inr hlast =>
      obtain ⟨init, b, rfl⟩ := hlast
      cases List.eq_nil_or_concat' init with
      | inl hnil =>
          rw [hnil] at hline
          exact absurd hline (by simp)
      | inr hbefore =>
          obtain ⟨first, a, rfl⟩ := hbefore
          exact ⟨first, a, b, rfl⟩

/-- From a line in the buffer on the call does what it is for exactly if the edits are harmless. -/
theorem readsLine_iff (hsize : size < 0x100000000) (hline : ∀ c ∈ line, c ≠ 0 ∧ c ≠ 0x0A)
    (hlength : line.length + rest.length = size) (hroom : line.length < size)
    (hchars : 0 ∉ typedChars kbs) :
    ReadsLine size line rest echoed kbs ↔ Edits size line.length (typedChars kbs) := by
  induction kbs generalizing line rest echoed with
  | nil => exact iff_of_true ⟨_, .waiting, if_pos hroom, trivial⟩ trivial
  | cons kb kbs ih =>
      unfold ReadsLine
      rw [readlineLoop_cons (.ofLine line rest echoed) hroom]
      cases read_one kb with
      | inl hnone =>
          rw [typed_none hnone] at hchars ⊢
          rw [readlineRound_none hnone, ok_bind]
          exact ih hline hlength hroom hchars
      | inr hread =>
          obtain ⟨c, hread⟩ := hread
          rw [typed_some hread] at hchars ⊢
          rw [List.mem_cons, not_or] at hchars
          obtain ⟨o, rest, rfl⟩ : ∃ o after, rest = o :: after :=
            List.exists_cons_of_length_pos (by omega)
          rw [List.length_cons] at hlength
          have hword : line.length < 0xFFFFFFFF := by omega
          unfold editedLine Edits
          by_cases hnewline : c = 0x0A
          · subst hnewline
            rw [if_pos rfl, if_pos rfl]
            obtain ⟨st, hround, hbuf⟩ := readlineRound_newline hread hword o rest echoed
            refine iff_of_true ⟨st, .newline line.length, ?_, rfl, rest, hbuf⟩ trivial
            rw [hround]
            rfl
          rw [if_neg hnewline, if_neg hnewline]
          by_cases herase : c = 0x7F
          · subst herase
            rw [if_pos rfl]
            by_cases htwo : 2 ≤ line.length
            · obtain ⟨first, a, b, rfl⟩ := exists_last_two htwo
              have hfirst : (first ++ [a] ++ [b]).length = first.length + 2 := by
                simp only [List.length_append, List.length_singleton]
              have hnext : (first ++ [a]).length = first.length + 1 := by
                simp only [List.length_append, List.length_singleton]
              have hline' : ∀ x ∈ first ++ [a], x ≠ 0 ∧ x ≠ 0x0A :=
                fun x hx => hline x (List.mem_append_left [b] hx)
              have ha := (hline' a (List.mem_append_right first (List.mem_singleton_self a))).2
              have hedit : edit (first ++ [a] ++ [b]) 0x7F = first ++ [a] := List.dropLast_concat
              rw [readlineRound_erase hread (by omega) ha, ok_bind, hedit, and_iff_right htwo]
              have hrest : ReadsLine size (first ++ [a]) (0 :: 0 :: rest) (echoed ++ [0x7F]) kbs ↔
                  _ := ih hline' (by simp only [List.length_cons]; omega) (by omega) hchars.2
              rw [hnext] at hrest
              rw [hfirst]
              exact hrest
            · have hbuf : (line ++ o :: rest).length ≤ 0xFFFFFFFF := by
                rw [List.length_append, List.length_cons]
                omega
              rw [readlineRound_erase_short hread (Nat.lt_of_not_le htwo) o hbuf echoed, error_bind]
              refine iff_of_false ?_ fun h => htwo h.1
              rintro ⟨st, r, hrun, -⟩
              cases hrun
          · rw [if_neg herase, readlineRound_char hread hword herase hnewline, ok_bind]
            have hedit : edit line c = line ++ [c] := if_neg herase
            have hline' : ∀ x ∈ line ++ [c], x ≠ 0 ∧ x ≠ 0x0A := by
              intro x hx
              cases List.mem_append.mp hx with
              | inl hold => exact hline x hold
              | inr hnew =>
                  obtain rfl := List.mem_singleton.mp hnew
                  exact ⟨Ne.symm hchars.1, hnewline⟩
            have hlength' : (line ++ [c]).length = line.length + 1 := List.length_append
            rw [hedit]
            by_cases hfits : line.length + 1 < size
            · have hrest : ReadsLine size (line ++ [c]) rest (echoed ++ [c]) kbs ↔ _ :=
                ih hline' (by omega) (by omega) hchars.2
              rw [hlength'] at hrest
              exact hrest.trans (and_iff_right hfits).symm
            · obtain rfl : rest = [] := List.length_eq_zero_iff.mp (by omega)
              refine iff_of_false ?_ fun h => hfits h.1
              exact not_readsLine_full (fun x hx => (hline' x hx).1) (by rw [hlength']; exact hfits)

/-- `term_readline` keeps to its buffer and leaves the edited line in it exactly if each erase finds
two characters in the line and the line never fills the buffer. -/
theorem termReadline_iff (buf : List UInt8) (size : ℕ) (kbs : List Keyboard) (hpos : 1 ≤ size)
    (hsize : size < 0x100000000) (hbuf : buf.length = size) (hchars : 0 ∉ typedChars kbs) :
    (∃ st r, termReadline buf size kbs = .ok (st, r) ∧ r.Right (editedLine [] (typedChars kbs)) st) ↔
      Edits size 0 (typedChars kbs) := by
  have hnil : ∀ c ∈ ([] : List UInt8), c ≠ 0 ∧ c ≠ 0x0A := fun _ h => absurd h List.not_mem_nil
  exact readsLine_iff hsize hnil ((Nat.zero_add _).trans hbuf) hpos hchars

/-- A keyboard with one character in its buffer. -/
def oneTyped (c : UInt8) : Keyboard :=
  ⟨fun _ => c, ⟨0, Nat.succ_pos 1023⟩, ⟨1, Nat.succ_lt_succ (Nat.succ_pos 1022)⟩⟩

/-- Two characters, an erase, another character, and a newline. -/
def editedKeys : List Keyboard :=
  [oneTyped 0x61, oneTyped 0x62, oneTyped 0x7F, oneTyped 0x63, oneTyped 0x0A]

/-- The line has the first and the last of them. -/
theorem termReadline_edited : editedLine [] (typedChars editedKeys) = [0x61, 0x63] ∧
    ∃ st r, termReadline (List.replicate 8 0) 8 editedKeys = .ok (st, r) ∧
      r.Right (editedLine [] (typedChars editedKeys)) st := by
  have htyped : typedChars editedKeys = [0x61, 0x62, 0x7F, 0x63, 0x0A] := by decide
  refine ⟨by rw [htyped]; decide,
    (termReadline_iff _ _ _ (by decide) (by decide) List.length_replicate (by rw [htyped]; decide)).mpr ?_⟩
  rw [htyped]
  exact ⟨by decide, by decide, by decide, by decide, trivial⟩

/-- A character is typed and erased: the byte before the buffer is looked at. -/
theorem termReadline_erased : ¬∃ st r, termReadline (List.replicate 8 0) 8
      [oneTyped 0x61, oneTyped 0x7F] = .ok (st, r) ∧
    r.Right (editedLine [] (typedChars [oneTyped 0x61, oneTyped 0x7F])) st := by
  have htyped : typedChars [oneTyped 0x61, oneTyped 0x7F] = [0x61, 0x7F] := by decide
  have hlength : ([] : List UInt8).length + (List.replicate 8 (0 : UInt8)).length = 8 := by
    rw [List.length_replicate, List.length_nil]
  have hiff : ReadsLine 8 [] (List.replicate 8 0) [] [oneTyped 0x61, oneTyped 0x7F] ↔ _ :=
    readsLine_iff (by decide) (fun _ h => absurd h List.not_mem_nil) hlength (by decide) (by decide)
  rw [htyped] at hiff
  intro hreads
  have hshort : 2 ≤ 1 := (hiff.mp hreads).2.1
  exact absurd hshort (by decide)

end GalaxyOS
