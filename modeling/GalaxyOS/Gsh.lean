import GalaxyOS.Keyboard.Readline
import GalaxyOS.Libc.Strings

/-! # The shell

`gsh` reads a line, takes it apart at blanks, and puts paths together in buffers of fixed sizes: the
new directory in `cwd`, a command with a slash in `truepath`, and a command from `PATH` in `fullpath`.
`LineFits` says when a line is harmless; a line of blanks is not, because the command is looked at
without asking whether there is one.

What the kernel answers at a prompt, and what the memory happens to contain, are in `Prompt`.

`gsh_survives_iff` says that a session goes on without a fault exactly if all its lines are harmless.
`parseArgs_words` takes the line apart, `cd_outcome`, `truePath_outcome` and `gshCommand_outcome` are
about the three buffers, and `gshLoop_iff` goes from one line to all. -/

namespace GalaxyOS

open Transition Pieces

/-! ### The code -/

/-- `MAX_BUF`. -/
def maxBuf : ℕ := 1024

/-- `" \\t\\r\\n"`. -/
def blanks : List UInt8 := [0x20, 0x09, 0x0D, 0x0A]

/-- `"cd"`. -/
def cdName : List UInt8 := [0x63, 0x64]

/-- `"exit"`. -/
def exitName : List UInt8 := [0x65, 0x78, 0x69, 0x74]

theorem zero_notMem_pathFormat :
    0 ∉ ([0x25, 0x73, 0x2F, 0x25, 0x73, 0x2E, 0x65, 0x6C, 0x66] : CString) := by decide

/-- `"%s/%s.elf"`. -/
def pathFormat : Text :=
  ⟨[0x25, 0x73, 0x2F, 0x25, 0x73, 0x2E, 0x65, 0x6C, 0x66], zero_notMem_pathFormat⟩

/-- What one turn of the main loop meets. -/
structure Prompt where
  /-- The directory that `getcwd` stores. -/
  dir : Text
  short : dir.1.length < maxBuf
  /-- The byte in front of `cwd`. -/
  before : UInt8
  /-- The contents of the line buffer, of `truepath` and of `fullpath` before they are filled. -/
  buffer : Vector UInt8 1024
  heap : Vector UInt8 1024
  fullpath : Vector UInt8 2048
  /-- The memory of `sprintf`'s variables. -/
  above : List UInt8
  buf : Vector UInt8 11
  /-- What the calls of `psExecA` return, one after the other. -/
  exec : ℕ → Int

/-- `parse_args`: the array with its last `NULL`, and the count. -/
def parseArgs (cmdline : List UInt8) : List (Option (List UInt8)) × ℕ :=
  let argv := strtokLoop blanks cmdline (maxBuf - 1)
  (argv.map some ++ [none], argv.length)

/-- `argv[i]`, which is to be a string. -/
def argAt (argv : List (Option (List UInt8))) (i : ℕ) : Except Fault (List UInt8) :=
  match argv[i]? with
  | some (some arg) => .ok arg
  | some none => .error .nullDeref
  | none => .error .overrun

/-- `cwd[strlen(cwd)-1]`, which is in front of the array if the string is empty. -/
def lastChar (before : UInt8) (cwd : List UInt8) : UInt8 :=
  if strlen cwd = 0 then before else cwd.getD (strlen cwd - 1) 0

/-- `cd`: what `cwd` contains. -/
def cd (before : UInt8) (cwd : List UInt8) (argc : ℕ) (argv : List (Option (List UInt8))) :
    Except Fault (List UInt8) :=
  if argc < 2 then .ok cwd
  else do
    let cdpath ← argAt argv 1
    if 0x3A ∈ cdpath then .ok cwd
    else if lastChar before cwd = 0x3A then strncat cwd cdpath (maxBuf - 1)
    else do
      let cwd ← strncat cwd [0x2F] (maxBuf - 1)
      strncat cwd cdpath (maxBuf - 1)

/-- `truepath` of a relative command. -/
def truePath (heap cwd cmd : List UInt8) : Except Fault (List UInt8) := do
  let truepath ← strncpyArray heap cwd (maxBuf - 1)
  let truepath ← strncat truepath [0x2F] (maxBuf - 1)
  strncat truepath cmd (maxBuf - 1)

/-- The loop over `pathentries`, from the `x`th on. -/
def searchPath (p : Prompt) (cmd : List UInt8) :
    ℕ → List (List UInt8) → List UInt8 → Except Fault Unit
  | _, [], _ => .ok ()
  | x, entry :: entries, fullpath => do
      let fullpath ← sprintfArray p.above p.buf fullpath pathFormat
        [.str (cstr entry), .str (cstr cmd)]
      if p.exec x ≠ -ENOENT then .ok () else searchPath p cmd (x + 1) entries fullpath

/-- The command of a line: whether the shell exits, and what `cwd` contains. -/
def gshCommand (entries : List (List UInt8)) (p : Prompt) (cwd : List UInt8)
    (argv : List (Option (List UInt8))) (argc : ℕ) : Except Fault (Bool × List UInt8) := do
  let cmd ← argAt argv 0
  if 0x3A ∈ cmd then .ok (false, cwd)
  else if 0x2F ∈ cmd then do
    let _ ← truePath p.heap.toList cwd cmd
    .ok (false, cwd)
  else if cmd = cdName then do
    let cwd ← cd p.before cwd argc argv
    .ok (false, cwd)
  else if cmd = exitName then .ok (true, cwd)
  else do
    searchPath p cmd 0 entries p.fullpath.toList
    .ok (false, cwd)

/-- What follows when a line has been read. -/
def gshLine (entries : List (List UInt8)) (p : Prompt) (cwd buffer : List UInt8) :
    Except Fault (Bool × List UInt8) :=
  if buffer.head? = some 0 then .ok (false, cwd)
  else
    let (cmdargv, cmdargc) := parseArgs (cstr buffer).1
    gshCommand entries p cwd cmdargv cmdargc

/-- The loop that reads a line, and the terminator: the buffer and what has not been read, or nothing
while `read` waits.  A `read` that fails is `none`. -/
def gshRead (buffer : List UInt8) (i : ℕ) :
    List (Option UInt8) → Except Fault (Option (List UInt8 × List (Option UInt8)))
  | [] =>
      if i < maxBuf - 1 then .ok none
      else do
        let buffer ← setChar buffer i 0
        .ok (some (buffer, []))
  | r :: reads =>
      if i < maxBuf - 1 then
        match r with
        | none => do
            let buffer ← setChar buffer i 0
            .ok (some (buffer, reads))
        | some ch =>
            if ch = 0x7F then
              if i = 0 then gshRead buffer i reads
              else do
                let buffer ← setChar buffer i 0
                gshRead buffer (i - 1) reads
            else if ch = 0x0A then do
              let buffer ← setChar buffer i 0
              .ok (some (buffer, reads))
            else do
              let buffer ← setChar buffer i ch
              gshRead buffer (i + 1) reads
      else do
        let buffer ← setChar buffer i 0
        .ok (some (buffer, r :: reads))

/-- The main loop, for as many prompts as are looked at. -/
def gshLoop (entries : List (List UInt8)) :
    List Prompt → List UInt8 → List (Option UInt8) → Except Fault Unit
  | [], _, _ => .ok ()
  | p :: prompts, cwd, reads => do
      -- `getcwd(cwd, MAX_BUF)`
      let cwd ← setChars cwd 0 (p.dir.1 ++ [0])
      let line ← gshRead p.buffer.toList 0 reads
      match line with
      | none => .ok ()
      | some (buffer, reads) => do
          let (exit, cwd) ← gshLine entries p cwd buffer
          if exit then .ok () else gshLoop entries prompts cwd reads

/-- `main`, with the value of `PATH`. -/
def gshMain (path : Text) (cwd : Vector UInt8 1024) (prompts : List Prompt)
    (reads : List (Option UInt8)) : Except Fault Unit :=
  gshLoop (strtokLoop [0x3B] path.1 256) prompts cwd.toList reads

/-! ### What a line may be -/

/-- The words of a line. -/
def words (line : List UInt8) : List (List UInt8) := tokens (fun c => c ∈ blanks) line

/-- The line that is typed, from its beginning on, and what is read after it. -/
def typedLine (line : List UInt8) :
    List (Option UInt8) → Option (List UInt8 × List (Option UInt8))
  | [] => if line.length < 1023 then none else some (line, [])
  | r :: reads =>
      if line.length < 1023 then
        match r with
        | none => some (line, reads)
        | some c => if c = 0x0A then some (line, reads) else typedLine (edit line c) reads
      else some (line, r :: reads)

/-- The new directory fits `cwd`. -/
def CdFits (p : Prompt) (arg : List UInt8) : Prop :=
  0x3A ∈ arg ∨
  p.dir.1.length + (if p.dir.1.getLast?.getD p.before = 0x3A then 0 else 1) + arg.length + 1 ≤ 1024

/-- Each path that is tried fits `fullpath`. -/
def SearchFits (exec : ℕ → Int) (cmd : List UInt8) (entries : List (List UInt8)) : Prop :=
  ∀ k entry, entries[k]? = some entry → (∀ j < k, exec j = -ENOENT) →
    entry.length + 1 + cmd.length + 4 + 1 ≤ 2048

/-- What the command puts together fits its buffer. -/
def CommandFits (entries : List (List UInt8)) (p : Prompt) (cmd : List UInt8)
    (args : List (List UInt8)) : Prop :=
  if 0x3A ∈ cmd then True
  else if 0x2F ∈ cmd then p.dir.1.length + 1 + cmd.length + 1 ≤ 1024
  else if cmd = cdName then ∀ arg ∈ args.head?, CdFits p arg
  else if cmd = exitName then True
  else SearchFits p.exec cmd entries

/-- The line is empty, or it has a command whose paths fit. -/
def LineFits (entries : List (List UInt8)) (p : Prompt) (line : List UInt8) : Prop :=
  line = [] ∨ ∃ cmd args, words line = cmd :: args ∧ CommandFits entries p cmd args

/-- Every line up to an `exit` is harmless. -/
def SessionFits (entries : List (List UInt8)) : List Prompt → List (Option UInt8) → Prop
  | [], _ => True
  | p :: prompts, reads =>
      ∀ line rest, typedLine [] reads = some (line, rest) →
        LineFits entries p (cstr line).1 ∧
        ((words (cstr line).1).head? ≠ some exitName → SessionFits entries prompts rest)

/-! ### Reading -/

variable {line rest cwd s arg cmd : List UInt8} {reads : List (Option UInt8)} {p : Prompt}
  {entries args : List (List UInt8)}

/-- The loop has read a line, or it waits. -/
theorem gshRead_typed (hlength : line.length + rest.length = 1024) (hshort : line.length ≤ 1023) :
    (typedLine line reads = none ∧ gshRead (line ++ rest) line.length reads = .ok none) ∨
    ∃ l after rest', typedLine line reads = some (l, after) ∧ l.length ≤ 1023 ∧
      gshRead (line ++ rest) line.length reads = .ok (some (l ++ 0 :: rest', after)) := by
  induction reads generalizing line rest with
  | nil =>
      obtain ⟨o, rest, rfl⟩ : ∃ o after, rest = o :: after :=
        List.exists_cons_of_length_pos (by omega)
      unfold typedLine gshRead
      by_cases hroom : line.length < 1023
      · exact .inl ⟨if_pos hroom, if_pos hroom⟩
      · refine .inr ⟨line, [], rest, if_neg hroom, hshort, (if_neg hroom).trans ?_⟩
        rw [setChar_next, ok_bind]
  | cons r reads ih =>
      obtain ⟨o, rest, rfl⟩ : ∃ o after, rest = o :: after :=
        List.exists_cons_of_length_pos (by omega)
      unfold typedLine gshRead
      by_cases hroom : line.length < 1023
      · rw [if_pos hroom, if_pos (show line.length < maxBuf - 1 from hroom)]
        cases r with
        | none =>
            refine .inr ⟨line, reads, rest, rfl, hshort, ?_⟩
            simp only [setChar_next, ok_bind]
        | some ch =>
            by_cases hnewline : ch = 0x0A
            · subst hnewline
              refine .inr ⟨line, reads, rest, rfl, hshort, ?_⟩
              simp only [setChar_next, ok_bind]
              rfl
            · simp only [if_neg hnewline, setChar_next, ok_bind]
              by_cases herase : ch = 0x7F
              · rw [if_pos herase]
                unfold edit
                rw [if_pos herase]
                cases List.eq_nil_or_concat' line with
                | inl hnil =>
                    subst hnil
                    rw [if_pos List.length_nil]
                    exact ih hlength hshort
                | inr hlast =>
                    obtain ⟨init, c, rfl⟩ := hlast
                    have hinit : (init ++ [c]).length = init.length + 1 := List.length_append
                    rw [hinit] at hlength hshort hroom ⊢
                    rw [if_neg (Nat.succ_ne_zero _), List.dropLast_concat, Nat.add_sub_cancel,
                      List.append_assoc]
                    apply ih
                    · simp only [List.length_append, List.length_cons, List.length_nil] at hlength ⊢
                      omega
                    · omega
              · rw [if_neg herase]
                unfold edit
                rw [if_neg herase]
                have hnext : (line ++ [ch]).length = line.length + 1 := List.length_append
                have happend : line ++ ch :: rest = line ++ [ch] ++ rest :=
                  (List.append_cons line ch rest)
                rw [happend, ← hnext]
                apply ih
                · rw [List.length_cons] at hlength
                  omega
                · omega
      · refine .inr ⟨line, r :: reads, rest, if_neg hroom, hshort, (if_neg hroom).trans ?_⟩
        rw [setChar_next, ok_bind]

theorem gshRead_prompt (buffer : Vector UInt8 1024) (reads : List (Option UInt8)) :
    (typedLine [] reads = none ∧ gshRead buffer.toList 0 reads = .ok none) ∨
    ∃ l after rest', typedLine [] reads = some (l, after) ∧ l.length ≤ 1023 ∧
      gshRead buffer.toList 0 reads = .ok (some (l ++ 0 :: rest', after)) := by
  have hbuffer : ([] : List UInt8).length + buffer.toList.length = 1024 := by
    rw [buffer.length_toList, List.length_nil]
  exact gshRead_typed hbuffer (Nat.zero_le 1023)

/-! ### Taking the line apart -/

theorem cstr_text (s : List UInt8) (hs : 0 ∉ s) : (cstr s).1 = s :=
  List.takeWhile_eq_self_iff.mpr (ne_zero_of_text hs)

/-- What follows the terminator does not count. -/
theorem cstr_terminated (l rest : List UInt8) : cstr (l ++ 0 :: rest) = cstr l := by
  apply Subtype.ext
  show (l ++ 0 :: rest).takeWhile _ = l.takeWhile _
  by_cases hzero : 0 ∈ l
  · obtain ⟨u, v, rfl, hu⟩ := List.eq_append_cons_of_mem hzero
    rw [List.append_assoc, List.cons_append, List.takeWhile_append_of_pos (ne_zero_of_text hu),
      List.takeWhile_append_of_pos (ne_zero_of_text hu), List.takeWhile_cons_of_neg (by decide),
      List.takeWhile_cons_of_neg (by decide)]
  · rw [List.takeWhile_append_of_pos (ne_zero_of_text hzero), List.takeWhile_cons_of_neg (by decide),
      List.append_nil, List.takeWhile_eq_self_iff.mpr (ne_zero_of_text hzero)]

/-- The first byte of the buffer is a terminator exactly if the line is empty. -/
theorem head_terminated (l rest : List UInt8) :
    (l ++ 0 :: rest).head? = some 0 ↔ (cstr l).1 = [] := by
  cases l with
  | nil => exact iff_of_true rfl rfl
  | cons c l =>
      show some c = some 0 ↔ (c :: l).takeWhile (fun c => c ≠ 0) = []
      rw [Option.some_inj]
      by_cases hc : c = 0
      · rw [List.takeWhile_cons_of_neg (by rw [hc]; decide)]
        exact iff_of_true hc rfl
      · have hcons : (c :: l).takeWhile (fun c => decide (c ≠ 0)) = c :: l.takeWhile _ :=
          List.takeWhile_cons_of_pos (decide_eq_true hc)
        rw [hcons]
        exact iff_of_false hc (List.cons_ne_nil _ _)

theorem cstr_length_le (l : List UInt8) : (cstr l).1.length ≤ l.length :=
  (List.takeWhile_prefix _).length_le

/-- `parse_args` finds all words of a line that fits the buffer. -/
theorem parseArgs_words (hshort : line.length ≤ 1023) :
    parseArgs line = ((words line).map some ++ [none], (words line).length) := by
  have hall : strtokLoop blanks line (maxBuf - 1) = words line := by
    rw [strtokLoop_eq]
    exact List.take_of_length_le (Nat.le_trans (tokens_length_le _ line) hshort)
  unfold parseArgs
  rw [hall]

/-- A word is no longer than the line, and has no terminator in it. -/
theorem word_of_mem (hs : 0 ∉ line) (h : s ∈ words line) : 0 ∉ s ∧ s.length ≤ line.length := by
  obtain ⟨-, -, hpart⟩ := mem_tokens h
  exact ⟨fun hzero => hs (hpart.subset hzero), hpart.length_le⟩

/-! ### The paths -/

/-- `cwd` after `getcwd`. -/
structure HoldsDir (p : Prompt) (cwd : List UInt8) : Prop where
  dir : ∃ rest, cwd = p.dir.1 ++ 0 :: rest
  size : cwd.length = 1024

theorem getcwd_holds (hsize : cwd.length = 1024) :
    ∃ cwd', setChars cwd 0 (p.dir.1 ++ [0]) = .ok cwd' ∧ HoldsDir p cwd' := by
  have hshort : p.dir.1.length < 1024 := p.short
  obtain ⟨old, rest, rfl, hold⟩ :=
    exists_split cwd (show p.dir.1.length + 1 ≤ cwd.length by omega)
  have hlength : old.length = (p.dir.1 ++ [0]).length := by
    rw [hold, List.length_append, List.length_singleton]
  have hstore := setChars_next [] rest hlength
  rw [List.nil_append, List.nil_append, List.length_nil] at hstore
  refine ⟨p.dir.1 ++ [0] ++ rest, hstore, ⟨rest, ?_⟩, ?_⟩
  · rw [List.append_assoc, List.singleton_append]
  · rw [List.length_append, ← hlength, ← List.length_append]
    exact hsize

theorem lastChar_dir (h : HoldsDir p cwd) :
    lastChar p.before cwd = p.dir.1.getLast?.getD p.before := by
  obtain ⟨⟨rest, rfl⟩, -⟩ := h
  have hlength := strlen_terminated p.dir.2 rest
  unfold lastChar
  rw [hlength]
  cases hdir : p.dir.1 with
  | nil => rfl
  | cons c dir =>
      rw [if_neg (show (c :: dir).length ≠ 0 from Nat.succ_ne_zero _),
        List.getLast?_eq_some_getLast (List.cons_ne_nil c dir), Option.getD_some,
        List.getLast_eq_getElem]
      have hindex : (c :: dir).length - 1 < (c :: dir).length := Nat.lt_succ_self _
      rw [List.getD_eq_getElem?_getD, List.getElem?_append_left hindex,
        List.getElem?_eq_getElem hindex, Option.getD_some]

/-- A string that is put behind another one in an array of 1024 bytes. -/
theorem strncat_buffer {first second : List UInt8} (hfirst : 0 ∉ first)
    (hsecond : second.length ≤ 1023) (hsize : (first ++ 0 :: rest).length = 1024) :
    (first.length + second.length + 1 ≤ 1024 ∧
      ∃ rest', strncat (first ++ 0 :: rest) second (maxBuf - 1) =
          .ok (first ++ second ++ 0 :: rest') ∧
        (first ++ second ++ 0 :: rest').length = 1024) ∨
    (¬first.length + second.length + 1 ≤ 1024 ∧
      strncat (first ++ 0 :: rest) second (maxBuf - 1) = .error .overrun) := by
  cases strncat_outcome hfirst (show second.length ≤ maxBuf - 1 from hsecond) rest with
  | inl hfits =>
      obtain ⟨hroom, rest', hrun, hlength⟩ := hfits
      rw [hsize] at hroom hlength
      exact .inl ⟨hroom, rest', hrun, hlength⟩
  | inr hover =>
      rw [hsize] at hover
      exact .inr ⟨Nat.not_le.mpr hover.1, hover.2⟩

/-- A directory, a slash and a name in an array of 1024 bytes. -/
theorem strncat_slash {dir name : List UInt8} (hdir : 0 ∉ dir) (hname : name.length ≤ 1023)
    (hsize : (dir ++ 0 :: rest).length = 1024) :
    (dir.length + 1 + name.length + 1 ≤ 1024 ∧ ∃ path, path.length = 1024 ∧
      (strncat (dir ++ 0 :: rest) [0x2F] (maxBuf - 1) >>= fun path =>
        strncat path name (maxBuf - 1)) = .ok path) ∨
    (¬dir.length + 1 + name.length + 1 ≤ 1024 ∧
      (strncat (dir ++ 0 :: rest) [0x2F] (maxBuf - 1) >>= fun path =>
        strncat path name (maxBuf - 1)) = .error .overrun) := by
  cases strncat_buffer hdir (show [(0x2F : UInt8)].length ≤ 1023 by decide) hsize with
  | inr hover =>
      refine .inr ⟨?_, by rw [hover.2, error_bind]⟩
      have hlong := hover.1
      rw [List.length_singleton] at hlong
      omega
  | inl hfits =>
      obtain ⟨hroom, rest', hrun, hlength⟩ := hfits
      have hslash : 0 ∉ dir ++ [0x2F] := by
        rw [List.mem_append, not_or]
        exact ⟨hdir, by decide⟩
      have hdirSlash : (dir ++ [(0x2F : UInt8)]).length = dir.length + 1 := List.length_append
      rw [hrun, ok_bind]
      cases strncat_buffer hslash hname hlength with
      | inl hfits =>
          obtain ⟨hroom, rest'', hrun', hlength'⟩ := hfits
          rw [hdirSlash] at hroom
          exact .inl ⟨hroom, _, hlength', hrun'⟩
      | inr hover =>
          obtain ⟨hlong, hrun'⟩ := hover
          rw [hdirSlash] at hlong
          exact .inr ⟨hlong, hrun'⟩

/-- `truepath` holds the directory, a slash and the command, if they fit. -/
theorem truePath_outcome (hcwd : HoldsDir p cwd) (hcmd : cmd.length ≤ 1023) :
    (p.dir.1.length + 1 + cmd.length + 1 ≤ 1024 ∧
      ∃ path, truePath p.heap.toList cwd cmd = .ok path) ∨
    (¬p.dir.1.length + 1 + cmd.length + 1 ≤ 1024 ∧
      truePath p.heap.toList cwd cmd = .error .overrun) := by
  unfold truePath
  obtain ⟨⟨rest, rfl⟩, -⟩ := hcwd
  have hheap : p.heap.toList.length = 1024 := p.heap.length_toList
  have hshort : p.dir.1.length < 1024 := p.short
  by_cases hfull : p.dir.1.length < 1023
  · obtain ⟨rest', hcopy, hlength⟩ := strncpyArray_short p.dir.2 (show _ < maxBuf - 1 from hfull)
      (show maxBuf - 1 ≤ p.heap.toList.length by rw [hheap]; decide) rest
    rw [hheap] at hlength
    rw [hcopy, ok_bind]
    cases strncat_slash p.dir.2 hcmd hlength with
    | inl hfits =>
        obtain ⟨hroom, path, -, hrun⟩ := hfits
        exact .inl ⟨hroom, path, hrun⟩
    | inr hover => exact .inr hover
  · -- the copy leaves no room for a terminator
    have hlong : p.dir.1.length = maxBuf - 1 := by
      unfold maxBuf
      omega
    obtain ⟨rest', hcopy, hlength⟩ := strncpyArray_full p.dir.2
      (show p.dir.1.length ≤ p.heap.toList.length by omega) rest
    rw [hlong] at hcopy
    rw [hheap, List.length_append, hlong] at hlength
    refine .inr ⟨by omega, ?_⟩
    rw [hcopy, ok_bind]
    have hone : rest'.length = 1 := by
      unfold maxBuf at hlength
      omega
    obtain ⟨h, rfl⟩ : ∃ h, rest' = [h] := List.length_eq_one_iff.mp hone
    by_cases hh : h = 0
    · subst hh
      have hsize : (p.dir.1 ++ [0]).length = 1024 := by
        rw [List.length_append, hlong]
        rfl
      cases strncat_slash p.dir.2 hcmd hsize with
      | inl hfits =>
          have hroom := hfits.1
          rw [hlong] at hroom
          unfold maxBuf at hroom
          omega
      | inr hover => exact hover.2
    · rw [strncat_unterminated, error_bind]
      rw [List.mem_append, List.mem_singleton, not_or]
      exact ⟨p.dir.2, Ne.symm hh⟩

/-! ### The commands -/

/-- `cd` with the arguments of a line. -/
theorem cd_outcome (hcwd : HoldsDir p cwd) (cmd : List UInt8)
    (hargs : ∀ arg ∈ args, arg.length ≤ 1023) :
    ((∀ arg ∈ args.head?, CdFits p arg) ∧ ∃ cwd', cwd'.length = 1024 ∧
      cd p.before cwd (cmd :: args).length ((cmd :: args).map some ++ [none]) = .ok cwd') ∨
    ((¬∀ arg ∈ args.head?, CdFits p arg) ∧
      cd p.before cwd (cmd :: args).length ((cmd :: args).map some ++ [none]) =
        .error .overrun) := by
  unfold cd
  cases args with
  | nil => exact .inl ⟨fun _ h => absurd h (by simp), cwd, hcwd.size, rfl⟩
  | cons arg args =>
      have hcount : ¬(cmd :: arg :: args).length < 2 := by
        rw [List.length_cons, List.length_cons]
        omega
      have harg : argAt ((cmd :: arg :: args).map some ++ [none]) 1 = .ok arg := rfl
      have hhead : (∀ a ∈ (arg :: args).head?, CdFits p a) ↔ CdFits p arg :=
        ⟨fun h => h arg rfl, fun h a ha => Option.some.inj ha ▸ h⟩
      rw [if_neg hcount, harg, ok_bind, hhead]
      by_cases hcolon : 0x3A ∈ arg
      · rw [if_pos hcolon]
        exact .inl ⟨.inl hcolon, cwd, hcwd.size, rfl⟩
      · rw [if_neg hcolon, lastChar_dir hcwd]
        have hlong := hargs arg (List.mem_cons_self ..)
        unfold CdFits
        rw [or_iff_right hcolon]
        obtain ⟨⟨rest, rfl⟩, hsize⟩ := hcwd
        by_cases hlast : p.dir.1.getLast?.getD p.before = 0x3A
        · rw [if_pos hlast, if_pos hlast]
          cases strncat_buffer p.dir.2 hlong hsize with
          | inl hfits =>
              obtain ⟨hroom, rest', hrun, hlength⟩ := hfits
              exact .inl ⟨hroom, _, hlength, hrun⟩
          | inr hover => exact .inr hover
        · rw [if_neg hlast, if_neg hlast]
          cases strncat_slash p.dir.2 hlong hsize with
          | inl hfits => exact .inl hfits
          | inr hover => exact .inr hover

/-- One path of the search. -/
theorem searchFits_cons (exec : ℕ → Int) (cmd entry : List UInt8) (entries : List (List UInt8)) :
    SearchFits exec cmd (entry :: entries) ↔ entry.length + 1 + cmd.length + 4 + 1 ≤ 2048 ∧
      (exec 0 = -ENOENT → SearchFits (fun j => exec (j + 1)) cmd entries) := by
  constructor
  · intro h
    refine ⟨h 0 entry rfl fun j hj => absurd hj (Nat.not_lt_zero j), fun hzero k e he hbefore => ?_⟩
    apply h (k + 1) e he
    intro j hj
    cases j with
    | zero => exact hzero
    | succ j => exact hbefore j (Nat.lt_of_succ_lt_succ hj)
  · rintro ⟨hfirst, hlater⟩ k e he hbefore
    cases k with
    | zero =>
        obtain rfl := Option.some.inj he
        exact hfirst
    | succ k =>
        exact hlater (hbefore 0 (Nat.succ_pos k)) k e he
          fun j hj => hbefore (j + 1) (Nat.succ_lt_succ hj)

/-- The text of a path. -/
theorem render_path (entry cmd : Text) :
    render (items pathFormat.1) [.str entry, .str cmd] =
      some (entry.1 ++ (0x2F :: (cmd.1 ++ [0x2E, 0x65, 0x6C, 0x66])), []) := rfl

theorem searchPath_outcome {fullpath : List UInt8} (hcmd : 0 ∉ cmd ∧ cmd.length ≤ 1023)
    (hentries : ∀ entry ∈ entries, 0 ∉ entry ∧ entry.length ≤ 1023) (hsize : fullpath.length = 2048)
    (x : ℕ) :
    (SearchFits (fun j => p.exec (x + j)) cmd entries ∧
      searchPath p cmd x entries fullpath = .ok ()) ∨
    (¬SearchFits (fun j => p.exec (x + j)) cmd entries ∧
      searchPath p cmd x entries fullpath = .error .overrun) := by
  induction entries generalizing x fullpath with
  | nil =>
      refine .inl ⟨fun k entry h => ?_, rfl⟩
      rw [List.getElem?_nil] at h
      cases h
  | cons entry entries ih =>
      have hentry := hentries entry (List.mem_cons_self ..)
      have hrender := render_path (cstr entry) (cstr cmd)
      rw [cstr_text entry hentry.1, cstr_text cmd hcmd.1] at hrender
      have hlength : (entry ++ (0x2F :: (cmd ++ [0x2E, 0x65, 0x6C, 0x66]))).length =
          entry.length + 1 + cmd.length + 4 := by
        simp only [List.length_append, List.length_cons, List.length_nil]
        omega
      have hfit : NumbersFit (items pathFormat.1) [.str (cstr entry), .str (cstr cmd)] :=
        fun i hi => absurd hi List.not_mem_nil
      rw [searchFits_cons]
      unfold searchPath
      cases sprintfArray_outcome fullpath p.above p.buf hrender (by omega) hfit with
      | inr hover =>
          obtain ⟨hlong, hrun⟩ := hover
          rw [hlength, hsize] at hlong
          exact .inr ⟨fun h => absurd h.1 (Nat.not_le.mpr hlong), by rw [hrun, error_bind]⟩
      | inl hfits =>
          obtain ⟨hroom, path, hrun, hpath⟩ := hfits
          rw [hlength, hsize] at hroom
          rw [hrun, ok_bind, and_iff_right hroom]
          by_cases hexec : p.exec x = -ENOENT
          · rw [if_neg fun h => h hexec]
            have hrest := ih (fun e he => hentries e (List.mem_cons_of_mem _ he))
              (hpath.trans hsize) (x + 1)
            have hshift : (fun j => p.exec (x + 1 + j)) = fun j => p.exec (x + (j + 1)) := by
              funext j
              congr 1
              omega
            rw [hshift] at hrest
            rw [Nat.add_zero, forall_prop_of_true hexec]
            exact hrest
          · rw [if_pos hexec]
            exact .inl ⟨fun h => absurd h hexec, rfl⟩

/-- The command of a line does what it is for, or a path runs over the end of its buffer. -/
theorem gshCommand_outcome (hcwd : HoldsDir p cwd) (hcmd : 0 ∉ cmd ∧ cmd.length ≤ 1023)
    (hargs : ∀ arg ∈ args, arg.length ≤ 1023)
    (hentries : ∀ entry ∈ entries, 0 ∉ entry ∧ entry.length ≤ 1023) :
    (CommandFits entries p cmd args ∧ ∃ cwd', cwd'.length = 1024 ∧
      gshCommand entries p cwd ((cmd :: args).map some ++ [none]) (cmd :: args).length =
        .ok (decide (cmd = exitName), cwd')) ∨
    (¬CommandFits entries p cmd args ∧
      gshCommand entries p cwd ((cmd :: args).map some ++ [none]) (cmd :: args).length =
        .error .overrun) := by
  have harg : argAt ((cmd :: args).map some ++ [none]) 0 = .ok cmd := rfl
  unfold CommandFits gshCommand
  rw [harg, ok_bind]
  by_cases hcolon : 0x3A ∈ cmd
  · have hexit : decide (cmd = exitName) = false := by
      apply decide_eq_false
      rintro rfl
      exact absurd hcolon (by decide)
    rw [if_pos hcolon, if_pos hcolon, hexit]
    exact .inl ⟨trivial, cwd, hcwd.size, rfl⟩
  rw [if_neg hcolon, if_neg hcolon]
  by_cases hslash : 0x2F ∈ cmd
  · have hexit : decide (cmd = exitName) = false := by
      apply decide_eq_false
      rintro rfl
      exact absurd hslash (by decide)
    rw [if_pos hslash, if_pos hslash, hexit]
    cases truePath_outcome hcwd hcmd.2 with
    | inl hfits =>
        obtain ⟨hroom, path, hrun⟩ := hfits
        exact .inl ⟨hroom, cwd, hcwd.size, by rw [hrun, ok_bind]⟩
    | inr hover => exact .inr ⟨hover.1, by rw [hover.2, error_bind]⟩
  rw [if_neg hslash, if_neg hslash]
  by_cases hcd : cmd = cdName
  · have hexit : decide (cmd = exitName) = false := by
      rw [hcd]
      decide
    rw [if_pos hcd, if_pos hcd, hexit]
    cases cd_outcome hcwd cmd hargs with
    | inl hfits =>
        obtain ⟨hroom, cwd', hlength, hrun⟩ := hfits
        exact .inl ⟨hroom, cwd', hlength, by rw [hrun, ok_bind]⟩
    | inr hover => exact .inr ⟨hover.1, by rw [hover.2, error_bind]⟩
  rw [if_neg hcd, if_neg hcd]
  by_cases hexit : cmd = exitName
  · rw [if_pos hexit, if_pos hexit, decide_eq_true hexit]
    exact .inl ⟨trivial, cwd, hcwd.size, rfl⟩
  · rw [if_neg hexit, if_neg hexit, decide_eq_false hexit]
    have hsearch := searchPath_outcome (p := p) hcmd hentries p.fullpath.length_toList 0
    simp only [Nat.zero_add] at hsearch
    cases hsearch with
    | inl hfits => exact .inl ⟨hfits.1, cwd, hcwd.size, by rw [hfits.2, ok_bind]⟩
    | inr hover => exact .inr ⟨hover.1, by rw [hover.2, error_bind]⟩

/-! ### Lines and sessions -/

theorem gshLine_outcome {l : List UInt8} (rest' : List UInt8) (hcwd : HoldsDir p cwd)
    (hl : l.length ≤ 1023)
    (hentries : ∀ entry ∈ entries, 0 ∉ entry ∧ entry.length ≤ 1023) :
    (LineFits entries p (cstr l).1 ∧ ∃ cwd', cwd'.length = 1024 ∧
      gshLine entries p cwd (l ++ 0 :: rest') =
        .ok (decide ((words (cstr l).1).head? = some exitName), cwd')) ∨
    (¬LineFits entries p (cstr l).1 ∧
      ∃ e, gshLine entries p cwd (l ++ 0 :: rest') = .error e) := by
  have hshort : (cstr l).1.length ≤ 1023 := Nat.le_trans (cstr_length_le l) hl
  unfold gshLine LineFits
  by_cases hempty : (cstr l).1 = []
  · rw [if_pos ((head_terminated l rest').mpr hempty), hempty]
    have hwords : words [] = [] := tokens_nil _
    exact .inl ⟨.inl rfl, cwd, hcwd.size, by rw [hwords]; rfl⟩
  rw [if_neg fun h => hempty ((head_terminated l rest').mp h), or_iff_right hempty,
    cstr_terminated]
  simp only [parseArgs_words hshort]
  cases hwords : words (cstr l).1 with
  | nil =>
      refine .inr ⟨?_, .nullDeref, rfl⟩
      rintro ⟨cmd, args, h, -⟩
      cases h
  | cons cmd args =>
      have hmem : ∀ s ∈ cmd :: args, 0 ∉ s ∧ s.length ≤ 1023 := by
        intro s hs
        rw [← hwords] at hs
        obtain ⟨hzero, hle⟩ := word_of_mem (cstr l).2 hs
        exact ⟨hzero, Nat.le_trans hle hshort⟩
      have hfits : (∃ cmd' args', cmd :: args = cmd' :: args' ∧ CommandFits entries p cmd' args') ↔
          CommandFits entries p cmd args := by
        constructor
        · rintro ⟨cmd', args', h, hcommand⟩
          cases h
          exact hcommand
        · exact fun h => ⟨cmd, args, rfl, h⟩
      have hexit : decide ((cmd :: args).head? = some exitName) = decide (cmd = exitName) := by
        rw [List.head?_cons]
        congr 1
        exact propext ⟨Option.some.inj, congrArg some⟩
      rw [hfits, hexit]
      cases gshCommand_outcome hcwd (hmem cmd (List.mem_cons_self ..))
          (fun arg harg => (hmem arg (List.mem_cons_of_mem _ harg)).2) hentries with
      | inl hok => exact .inl hok
      | inr hover => exact .inr ⟨hover.1, _, hover.2⟩

/-- The main loop goes on without a fault exactly if all lines are harmless. -/
theorem gshLoop_iff (hentries : ∀ entry ∈ entries, 0 ∉ entry ∧ entry.length ≤ 1023)
    {prompts : List Prompt} (hsize : cwd.length = 1024) :
    gshLoop entries prompts cwd reads = .ok () ↔ SessionFits entries prompts reads := by
  induction prompts generalizing cwd reads with
  | nil => exact iff_of_true rfl trivial
  | cons p prompts ih =>
      obtain ⟨cwd', hgetcwd, hcwd⟩ := getcwd_holds (p := p) hsize
      unfold gshLoop SessionFits
      rw [hgetcwd, ok_bind]
      cases gshRead_prompt p.buffer reads with
      | inl hwaits =>
          rw [hwaits.1, hwaits.2]
          exact iff_of_true rfl fun line rest h => by cases h
      | inr htyped =>
          obtain ⟨l, after, rest', hline, hl, hrun⟩ := htyped
          rw [hline, hrun, ok_bind]
          have hunique : ∀ P : List UInt8 → List (Option UInt8) → Prop,
              (∀ line rest, some (l, after) = some (line, rest) → P line rest) ↔ P l after := by
            intro P
            constructor
            · exact fun h => h l after rfl
            · rintro h line rest heq
              cases heq
              exact h
          rw [hunique fun line rest => LineFits entries p (cstr line).1 ∧
            ((words (cstr line).1).head? ≠ some exitName → SessionFits entries prompts rest)]
          simp only
          cases gshLine_outcome rest' hcwd hl hentries with
          | inr hover =>
              obtain ⟨hnot, e, herror⟩ := hover
              rw [herror, error_bind]
              exact iff_of_false (by simp) fun h => hnot h.1
          | inl hok =>
              obtain ⟨hfits, cwd'', hlength, hgsh⟩ := hok
              rw [hgsh, ok_bind, and_iff_right hfits]
              by_cases hexit : (words (cstr l).1).head? = some exitName
              · simp only [decide_eq_true hexit, if_true]
                exact iff_of_true trivial fun h => absurd hexit h
              · simp only [decide_eq_false hexit, Bool.false_eq_true, if_false]
                rw [forall_prop_of_true hexit]
                exact ih hlength

/-- The entries of `PATH`. -/
theorem mem_pathEntries {path : Text} {entry : List UInt8} (hpath : path.1.length < 1024)
    (h : entry ∈ strtokLoop [0x3B] path.1 256) : 0 ∉ entry ∧ entry.length ≤ 1023 := by
  rw [strtokLoop_eq] at h
  obtain ⟨-, -, hpart⟩ := mem_tokens (List.mem_of_mem_take h)
  have hle := hpart.length_le
  exact ⟨fun hzero => path.2 (hpart.subset hzero), by omega⟩

/-- The shell takes every line apart at its blanks, and survives a session exactly if every line up
to an `exit` is empty, or has a command whose paths fit their buffers. -/
theorem gsh_survives_iff (path : Text) (hpath : path.1.length < 1024) (cwd : Vector UInt8 1024)
    (prompts : List Prompt) (reads : List (Option UInt8)) :
    ((∀ line : List UInt8, line.length ≤ 1023 →
        parseArgs line = ((words line).map some ++ [none], (words line).length)) ∧
      gshMain path cwd prompts reads = .ok ()) ↔
    SessionFits ((tokens (fun c => c ∈ [0x3B]) path.1).take 256) prompts reads := by
  rw [and_iff_right fun line => parseArgs_words]
  unfold gshMain
  rw [← strtokLoop_eq]
  exact gshLoop_iff (fun entry h => mem_pathEntries hpath h) cwd.length_toList

theorem zero_notMem_sampleDir : 0 ∉ ([0x63, 0x64, 0x3A] : CString) := by decide

theorem sampleDir_short : ([0x63, 0x64, 0x3A] : CString).length < maxBuf := by decide

/-- A prompt in the directory `"cd:"`, where no path exists. -/
def samplePrompt : Prompt :=
  ⟨⟨[0x63, 0x64, 0x3A], zero_notMem_sampleDir⟩, sampleDir_short, 0, Vector.replicate 1024 0xFF,
    Vector.replicate 1024 0xFF, Vector.replicate 2048 0xFF, [], Vector.replicate 11 0xFF,
    fun _ => -ENOENT⟩

theorem zero_notMem_samplePath : 0 ∉ ([0x61, 0x3B, 0x62] : CString) := by decide

/-- `"a;b"`. -/
def samplePath : Text := ⟨[0x61, 0x3B, 0x62], zero_notMem_samplePath⟩

/-- The line `"cd x"`. -/
theorem gsh_survives_cd :
    ((∀ line : List UInt8, line.length ≤ 1023 →
        parseArgs line = ((words line).map some ++ [none], (words line).length)) ∧
      gshMain samplePath (Vector.replicate 1024 0) [samplePrompt]
        [some 0x63, some 0x64, some 0x20, some 0x78, some 0x0A] = .ok ()) ↔
    SessionFits ((tokens (fun c => c ∈ [0x3B]) samplePath.1).take 256) [samplePrompt]
      [some 0x63, some 0x64, some 0x20, some 0x78, some 0x0A] :=
  gsh_survives_iff samplePath (by decide) _ _ _

/-- A line of one blank: the shell looks at a command that does not exist. -/
theorem gsh_blankLine : ¬((∀ line : List UInt8, line.length ≤ 1023 →
      parseArgs line = ((words line).map some ++ [none], (words line).length)) ∧
    gshMain samplePath (Vector.replicate 1024 0) [samplePrompt] [some 0x20, some 0x0A] =
      .ok ()) := by
  rintro ⟨-, hmain⟩
  have hsession : SessionFits (strtokLoop [0x3B] samplePath.1 256) [samplePrompt]
      [some 0x20, some 0x0A] :=
    (gshLoop_iff (fun entry h => mem_pathEntries (by decide) h) Vector.length_toList).mp hmain
  have hline := (hsession [0x20] [] rfl).1
  have hwords : words (cstr [0x20]).1 = [] := by decide
  cases hline with
  | inl hempty => exact absurd hempty (by decide)
  | inr hcommand =>
      obtain ⟨cmd, args, h, -⟩ := hcommand
      rw [hwords] at h
      cases h

end GalaxyOS
