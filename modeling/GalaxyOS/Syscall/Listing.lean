import GalaxyOS.Syscall.Results
import GalaxyOS.Lib.Fitting
import GalaxyOS.Fs.Pathname

/-! # Directory listings

`syscall_list` scans the names of a directory twice, first for the size of the buffer to make, and then to
fill it.  The first scan stops where a name does not fit any more and takes the whole size then, so that the
second one stops at the same name: both take the longest part of the names, from the first on, that fits
(`listBuffer_eq`).  Names without a newline can be read off the result.

`syscallList_listing` says this of every call that succeeds. -/

namespace GalaxyOS

open Fitting

variable {ι : Type}

/-- The room for a name with its newline, or with the terminator of the listing. -/
def nameRoom (name : CString) : ℕ := name.length + 1

/-- A string that is split at its newlines; there are no lines in the empty string. -/
def splitLines (s : CString) : List CString := if s = [] then [] else s.splitOn 10

/-- A string of C that is not empty and has no newline. -/
structure LineName (name : CString) : Prop where
  ne_nil : name ≠ []
  noNewline : 10 ∉ name
  noNul : 0 ∉ name

/-! ### The two scans -/

/-- The first scan finds the room for all the names, or takes everything. -/
theorem listNeeded_eq {len : ℕ} : ∀ {names : List CString} {needed : ℕ}, needed ≤ len →
    listNeeded len names needed =
      if needed + weight nameRoom names ≤ len then needed + weight nameRoom names else len
  | [], needed, h => (if_pos h).symm
  | name :: names, needed, h => by
      have hroom : weight nameRoom (name :: names) = name.length + 1 + weight nameRoom names := rfl
      rw [hroom]
      unfold listNeeded
      by_cases hfull : name.length + 1 > len - needed
      · rw [if_pos hfull, if_neg (by omega)]
      · rw [if_neg hfull, listNeeded_eq (by omega), Nat.add_assoc needed]

/-- The second scan stores the names that fit. -/
theorem listEntries_eq {needed : ℕ} : ∀ {names : List CString} {buf : List UInt8},
    buf.length ≤ needed → listEntries needed names buf =
      buf ++ ((fitting nameRoom (needed - buf.length) names).map (· ++ [10])).flatten
  | [], buf, _ => (List.append_nil buf).symm
  | name :: names, buf, h => by
      unfold listEntries
      by_cases hfull : name.length + 1 > needed - buf.length
      · rw [if_pos hfull, fitting_cons_of_lt (show needed - buf.length < nameRoom name from hfull)]
        exact (List.append_nil buf).symm
      · have hlength : (buf ++ name ++ [10]).length = buf.length + (name.length + 1) := by
          rw [List.length_append, List.length_append, List.length_singleton, Nat.add_assoc]
        have hleft : needed - (buf ++ name ++ [10]).length =
            needed - buf.length - nameRoom name := by
          rw [hlength, Nat.sub_add_eq]
          rfl
        rw [if_neg hfull, fitting_cons_of_le (show nameRoom name ≤ needed - buf.length from Nat.not_lt.mp hfull),
          listEntries_eq (by omega), hleft, List.map_cons, List.flatten_cons]
        simp only [List.append_assoc]

/-- Without the last newline, there is a newline between any two names. -/
theorem dropLast_flatten (names : List CString) :
    ((names.map (· ++ [10])).flatten).dropLast = [10].intercalate names := by
  induction names with
  | nil => rfl
  | cons name names ih =>
    cases names with
    | nil => simp
    | cons next names =>
        have hne : ((next :: names).map (· ++ [(10 : UInt8)])).flatten ≠ [] := by simp
        rw [List.map_cons, List.flatten_cons, List.dropLast_append_of_ne_nil hne, ih,
          List.intercalate_cons_cons]

/-- The listing holds the names that fit into the buffer of the caller. -/
theorem listBuffer_eq {len : ℕ} (hlen : 1 ≤ len) (names : List CString) :
    listBuffer len names = [10].intercalate (fitting nameRoom len names) ++ [0] := by
  have hneeded : listNeeded len names 0 =
      if weight nameRoom names ≤ len then weight nameRoom names else len := by
    rw [listNeeded_eq (Nat.zero_le len), Nat.zero_add]
  unfold listBuffer
  simp only
  rw [listEntries_eq (Nat.zero_le _), List.nil_append, List.length_nil, Nat.sub_zero, dropLast_flatten]
  congr 2
  apply fitting_size
  by_cases hall : weight nameRoom names ≤ len
  · left
    rw [hneeded, if_pos hall]
    split_ifs <;> omega
  · right
    rw [hneeded, if_neg hall, if_neg (by omega)]

/-! ### Reading a listing -/

theorem length_intercalate {names : List CString} (h : names ≠ []) :
    ([10].intercalate names).length + 1 = weight nameRoom names := by
  induction names with
  | nil => exact absurd rfl h
  | cons name names ih =>
    cases names with
    | nil => simp [weight, nameRoom]
    | cons next names =>
        have hrest := ih (List.cons_ne_nil next names)
        have hweight : weight nameRoom (name :: next :: names) =
            name.length + 1 + weight nameRoom (next :: names) := rfl
        rw [List.intercalate_cons_cons, List.length_append, List.length_append, List.length_singleton,
          hweight, ← hrest, Nat.add_assoc]

theorem notMem_intercalate {b : UInt8} (hb : b ≠ 10) {names : List CString}
    (h : ∀ name ∈ names, b ∉ name) : b ∉ [10].intercalate names := by
  induction names with
  | nil => exact List.not_mem_nil
  | cons name names ih =>
    have hname := h name List.mem_cons_self
    cases names with
    | nil => rwa [List.intercalate_singleton]
    | cons next names =>
        have hrest := ih fun other hother => h other (List.mem_cons_of_mem name hother)
        rw [List.intercalate_cons_cons, List.append_assoc]
        intro hmem
        cases List.mem_append.mp hmem with
        | inl hfirst => exact hname hfirst
        | inr hmem =>
            cases List.mem_cons.mp hmem with
            | inl hnewline => exact hb hnewline
            | inr hlater => exact hrest hlater

/-- The names are the lines of a listing. -/
theorem splitLines_intercalate {names : List CString} (h : ∀ name ∈ names, LineName name) :
    splitLines ([10].intercalate names) = names := by
  unfold splitLines
  by_cases hnil : names = []
  · rw [hnil]
    rfl
  · have hsplit : ([10].intercalate names).splitOn 10 = names :=
      List.splitOn_intercalate 10 (fun name hname => (h name hname).noNewline) hnil
    have hne : [10].intercalate names ≠ [] := by
      intro hempty
      have hone : names = [[]] := by
        rw [← hsplit, hempty]
        rfl
      exact (h [] (hone ▸ List.mem_singleton_self [])).ne_nil rfl
    rw [if_neg hne, hsplit]

/-! ### The call -/

/-- The call has returned the number of the names and has stored a string of at most `len` bytes, with
its terminator, whose lines are the longest front of the names that fits. -/
structure Listing (names : List CString) (um : UserMem) (buf len : ℕ) (r : Int × UserMem) : Prop where
  result : r.1 = intOfReg names.length
  stored : ∃ s : CString, s.length + 1 ≤ len ∧ 0 ∉ s ∧ r.2.byte = overlay buf (s ++ [0]) um.byte ∧
    IsLongestFront (fun front => weight nameRoom front ≤ len) names (splitLines s)

/-- As an `int`, the result is the number of the names itself, unless these are two thousand million. -/
theorem Listing.count {names : List CString} {um : UserMem} {buf len : ℕ} {r : Int × UserMem}
    (h : Listing names um buf len r) (hlt : names.length < 0x80000000) : r.1 = names.length :=
  h.result.trans (intOfReg_of_lt hlt)

theorem listBuffer_lines {names : List CString} (h : ∀ name ∈ names, LineName name) {len : ℕ}
    (hlen : 1 ≤ len) : ∃ s : CString, listBuffer len names = s ++ [0] ∧ s.length + 1 ≤ len ∧ 0 ∉ s ∧
      IsLongestFront (fun front => weight nameRoom front ≤ len) names (splitLines s) := by
  have hlongest := fitting_isLongest nameRoom len names
  have hline : ∀ name ∈ fitting nameRoom len names, LineName name := fun name hname =>
    h name (hlongest.atFront.subset hname)
  refine ⟨[10].intercalate (fitting nameRoom len names), listBuffer_eq hlen names, ?_, ?_, ?_⟩
  · by_cases hnil : fitting nameRoom len names = []
    · rw [hnil]
      exact hlen
    · rw [length_intercalate hnil]
      exact hlongest.holds
  · exact notMem_intercalate (by decide) fun name hname => (hline name hname).noNul
  · rw [splitLines_intercalate hline]
    exact hlongest

/-- A listing that succeeds holds as many of the names as fit, and counts all of them. -/
theorem syscallList_listing (fs : Vfs ι) (um : UserMem) (args : SyscallArgs)
    (hlen : 1 ≤ (args 2).toNat) (hok : ¬IsError (syscallList fs um args).1) :
    ∃ path d, (kstrdupUser um (args 0).toNat maxPathLen).1 = .ok path ∧
      vfsFindDirectory fs (path.map fun b => Char.ofNat b.toNat) = some d ∧
      ((∀ name ∈ entryNames fs d (args 3 ≠ 0), LineName name) →
        Listing (entryNames fs d (args 3 ≠ 0)) um (args 1).toNat (args 2).toNat
          (syscallList fs um args)) := by
  obtain ⟨path, d, hpath, hfound, hresult, hbyte⟩ := syscallList_ok hlen hok
  refine ⟨path, d, hpath, hfound, fun hnames => ⟨hresult, ?_⟩⟩
  obtain ⟨s, hs, hfits, hnul, hlines⟩ := listBuffer_lines hnames hlen
  exact ⟨s, hfits, hnul, hs ▸ hbyte, hlines⟩

/-- A page with the path of `lib`. -/
def listMemory : UserMem where
  byte a := (asciiString "hd:bin/bin/lib").getD (a - 0x1000) 0
  readable a := decide (0x1000 ≤ a) && decide (a < 0x2000)
  writable a := decide (0x1000 ≤ a) && decide (a < 0x2000)
  touched := []

/-- List the files into a buffer of 14 bytes. -/
def listArgs : SyscallArgs := fun i =>
  if i = 0 then 0x1000 else if i = 1 then 0x1100 else if i = 2 then 14 else 0

theorem listMemory_path :
    (kstrdupUser listMemory (listArgs 0).toNat maxPathLen).1 = .ok (asciiString "hd:bin/bin/lib") := by
  decide +kernel

theorem listMemory_found :
    vfsFindDirectory libVolume ((asciiString "hd:bin/bin/lib").map fun b => Char.ofNat b.toNat) =
      some 3 := libVolume_find

theorem listMemory_list : ¬IsError (syscallList libVolume listMemory listArgs).1 := by
  have hsame := kstrdupUser_same listMemory (listArgs 0).toNat maxPathLen
  have hpath := listMemory_path
  unfold syscallList
  generalize kstrdupUser listMemory (listArgs 0).toNat maxPathLen = res at hsame hpath ⊢
  obtain ⟨result, um₁⟩ := res
  obtain rfl : result = .ok (asciiString "hd:bin/bin/lib") := hpath
  simp only
  rw [listMemory_found]
  simp only
  have hstored : (safecpyToUser um₁ (listArgs 1).toNat (listBuffer (listArgs 2).toNat
      (entryNames libVolume 3 (listArgs 3 ≠ 0)))).1 ≠ -1 := by
    apply (safecpyToUser_stores_iff um₁ _ (by decide)).mpr
    unfold UserMem.Stores
    rw [hsame.writable]
    decide
  rw [if_neg (by decide), if_neg (by decide), if_neg hstored]
  exact (by decide : ¬IsError 3)

theorem libVolume_files : ∀ name ∈ entryNames libVolume 3 false, LineName name := by
  intro name hname
  have hplain : name ≠ [] ∧ 10 ∉ name ∧ 0 ∉ name := by
    revert name
    decide
  exact ⟨hplain.1, hplain.2.1, hplain.2.2⟩

/-- Two of the three names fit into a buffer of 14 bytes. -/
theorem syscallList_lib : Listing (entryNames libVolume 3 false) listMemory 0x1100 14
    (syscallList libVolume listMemory listArgs) := by
  obtain ⟨path, d, hpath, hfound, hlisting⟩ := syscallList_listing libVolume listMemory listArgs
    (by decide) listMemory_list
  obtain rfl := Except.ok.inj (hpath.symm.trans listMemory_path)
  obtain rfl := Option.some.inj (hfound.symm.trans listMemory_found)
  exact hlisting libVolume_files

end GalaxyOS
