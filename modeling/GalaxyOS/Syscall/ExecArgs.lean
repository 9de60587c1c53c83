import GalaxyOS.Lib.BlockHeap
import GalaxyOS.Syscall.Setup

/-! # Copying the arguments of a new program

`kargv_user` copies a vector of strings from user memory.  The copies and the vector of their addresses are
blocks of the kernel heap; the vector grows by doubling, up to the number of arguments that a program can
have and one more for the `NULL`.  `ExecArgs` says which strings a program can pass, and `kargvUser_exact`
that these are copied, and that in all other cases nothing is left of what has been allocated.

`Collected.push` is the round of the loop that goes on, and `kargvFail_frees` the one that ends it with an
error. -/

namespace GalaxyOS

open Transition BlockHeap

/-! ### What can be read -/

/-- The `n` bytes from `a` on are user memory that can be read. -/
def UserMem.Reads (um : UserMem) (a n : ℕ) : Prop := a + n ≤ kernelStart ∧ ∀ k < n, um.readable (a + k) = true

/-- A string with its terminator can be read at an address. -/
structure ReadsString (um : UserMem) (ptr : ℕ) (s : CString) : Prop where
  string : UserString um ptr s
  reads : um.Reads ptr (s.length + 1)

variable {um um' : UserMem} {a n : ℕ}

theorem UserMem.Same.reads (h : um.Same um') : um'.Reads a n ↔ um.Reads a n := by
  unfold UserMem.Reads
  rw [h.readable]

theorem UserMem.Same.word (h : um.Same um') : um'.word a = um.word a := by
  unfold UserMem.word
  rw [h.bytesAt]

theorem UserMem.Same.readsString {ptr : ℕ} {s : CString} (h : um.Same um') :
    ReadsString um' ptr s ↔ ReadsString um ptr s :=
  ⟨fun hs => ⟨(UserString.same h).mp hs.string, h.reads.mp hs.reads⟩,
    fun hs => ⟨(UserString.same h).mpr hs.string, h.reads.mpr hs.reads⟩⟩

theorem ReadsString.unique {ptr : ℕ} {s t : CString} (hs : ReadsString um ptr s)
    (ht : ReadsString um ptr t) : s = t := hs.string.unique ht.string

/-! ### Copies from user memory -/

theorem safecpyFromUserLoop_reads : ∀ {n : ℕ} {um : UserMem} {src : ℕ},
    (∀ k < n, um.readable (src + k) = true) → (safecpyFromUserLoop um src n).1 = some (um.bytesAt src n)
  | 0, _, _, _ => rfl
  | n + 1, um, src, h => by
      have hfirst : um.load src = (some (um.byte src), { um with touched := src :: um.touched }) := by
        unfold UserMem.load
        rw [if_pos (show um.readable src = true from h 0 (Nat.succ_pos n))]
      have hrest : (safecpyFromUserLoop { um with touched := src :: um.touched } (src + 1) n).1 =
          some (um.bytesAt (src + 1) n) := by
        apply safecpyFromUserLoop_reads
        intro k hk
        rw [Nat.add_assoc, Nat.add_comm 1 k]
        exact h (k + 1) (Nat.succ_lt_succ hk)
      unfold safecpyFromUserLoop
      rw [hfirst]
      simp only
      generalize safecpyFromUserLoop _ (src + 1) n = res at hrest ⊢
      obtain ⟨r, um'⟩ := res
      obtain rfl : r = some (um.bytesAt (src + 1) n) := hrest
      rw [UserMem.bytesAt_succ]

/-- Bytes that have been copied could be read. -/
theorem safecpyFromUserLoop_readable : ∀ {n : ℕ} {um : UserMem} {src : ℕ},
    (safecpyFromUserLoop um src n).1 ≠ none → ∀ k < n, um.readable (src + k) = true
  | 0, _, _, _, k, hk => absurd hk (Nat.not_lt_zero k)
  | n + 1, um, src, h, k, hk => by
      unfold safecpyFromUserLoop UserMem.load at h
      cases hload : um.readable src with
      | false =>
          rw [hload] at h
          exact absurd rfl h
      | true =>
          cases k with
          | zero => exact hload
          | succ k =>
              rw [hload] at h
              have hne : (safecpyFromUserLoop { um with touched := src :: um.touched } (src + 1) n).1 ≠
                  none := by
                intro hnone
                apply h
                simp only [if_true]
                generalize safecpyFromUserLoop _ (src + 1) n = res at hnone ⊢
                obtain ⟨r, um'⟩ := res
                obtain rfl : r = none := hnone
                rfl
              have hrest := safecpyFromUserLoop_readable hne k (by omega)
              rwa [Nat.add_assoc, Nat.add_comm 1 k] at hrest

/-- A copy of some bytes succeeds exactly if they can be read. -/
theorem safecpyFromUser_cases (um : UserMem) (src : ℕ) (hn : 0 < n) :
    um.Reads src n ∧ (safecpyFromUser um src n).1 = some (um.bytesAt src n) ∨
      ¬um.Reads src n ∧ (safecpyFromUser um src n).1 = none := by
  unfold safecpyFromUser UserMem.Reads
  rw [if_neg (Nat.ne_of_gt hn)]
  cases hcheck : safecpyCheckUser src n with
  | false =>
      refine .inr ⟨fun h => ?_, rfl⟩
      have hok : safecpyCheckUser src n = true := safecpyCheckUser_iff.mpr ⟨by omega, h.1⟩
      rw [hcheck] at hok
      cases hok
  | true =>
      have hroom := (safecpyCheckUser_iff.mp hcheck).2
      rw [if_neg (by decide)]
      by_cases hread : ∀ k < n, um.readable (src + k) = true
      · exact .inl ⟨⟨hroom, hread⟩, safecpyFromUserLoop_reads hread⟩
      · refine .inr ⟨fun h => hread h.2, ?_⟩
        by_contra hne
        exact hread (safecpyFromUserLoop_readable hne)

/-! ### The length of a string -/

theorem safelenMaxErrLoop_readable {base : ℕ} : ∀ {n : ℕ} {um : UserMem} {len k : ℕ},
    (safelenMaxErrLoop um base n len).1 = .ok k → ∀ i, len ≤ i → i ≤ k → um.readable (base + i) = true
  | 0, _, _, _, h, _, _, _ => by cases h
  | n + 1, um, len, k, h, i, hi, hk => by
      unfold safelenMaxErrLoop UserMem.load at h
      cases hload : um.readable (base + len) with
      | false =>
          rw [hload] at h
          cases h
      | true =>
          rw [hload] at h
          simp only [if_true] at h
          by_cases hfirst : i = len
          · rwa [hfirst]
          · split_ifs at h with h0
            · obtain rfl := Except.ok.inj h
              omega
            · exact safelenMaxErrLoop_readable h i (by omega) hk

/-- The loop reaches a terminator that can be read. -/
theorem safelenMaxErrLoop_reads {base k : ℕ} : ∀ {n : ℕ} {um : UserMem} {len : ℕ}, len ≤ k → k < len + n →
    (∀ i, len ≤ i → i ≤ k → um.readable (base + i) = true) →
    (∀ i, len ≤ i → i < k → um.byte (base + i) ≠ 0) → um.byte (base + k) = 0 →
      (safelenMaxErrLoop um base n len).1 = .ok k
  | 0, _, _, hle, hlt, _, _, _ => absurd hlt (Nat.not_lt.mpr hle)
  | n + 1, um, len, hle, hlt, hread, hbytes, hend => by
      unfold safelenMaxErrLoop UserMem.load
      rw [hread len (Nat.le_refl len) hle]
      simp only [if_true]
      by_cases hlast : len = k
      · rw [hlast, if_pos hend]
      · rw [if_neg (hbytes len (Nat.le_refl len) (by omega))]
        exact safelenMaxErrLoop_reads (by omega) (by omega) (fun i hi hk => hread i (by omega) hk)
          (fun i hi hk => hbytes i (by omega) hk) hend

theorem UserString.byte {ptr i : ℕ} {s : CString} (h : UserString um ptr s) (hi : i < s.length) :
    um.byte (ptr + i) ≠ 0 := by
  have hget := congrArg (fun l => l[i]?) h.bytes
  simp only [UserMem.bytesAt, List.getElem?_map, List.getElem?_range hi, Option.map_some,
    List.getElem?_eq_getElem hi, Option.some.injEq] at hget
  rw [hget]
  exact fun h0 => h.noNul (h0 ▸ List.getElem_mem hi)

/-- The length of a string that can be read, unless it is too long. -/
theorem safelenMaxErr_cases (um : UserMem) (str max : ℕ) :
    (∃ s, ReadsString um str s ∧ s.length < max ∧ (safelenMaxErr um str max).1 = .ok s.length) ∨
      (∀ s, ReadsString um str s → max ≤ s.length) ∧
        ∃ err, (safelenMaxErr um str max).1 = .error err ∧ (err = -EFAULT ∨ err = -ENAMETOOLONG) := by
  cases hres : (safelenMaxErr um str max).1 with
  | ok k =>
      obtain ⟨hk, hstring⟩ := safelenMaxErr_ok hres
      refine .inl ⟨um.bytesAt str k, ⟨hstring, ?_⟩, ?_, ?_⟩
      · unfold safelenMaxErr at hres
        split_ifs at hres with h1
        obtain ⟨-, hlt, -, -⟩ := safelenMaxErrLoop_ok hres
        rw [UserMem.bytesAt_length]
        refine ⟨by split_ifs at hlt <;> omega, fun i hi => ?_⟩
        exact safelenMaxErrLoop_readable hres i (Nat.zero_le i) (by omega)
      · rwa [UserMem.bytesAt_length]
      · rw [UserMem.bytesAt_length]
  | error err =>
      refine .inr ⟨fun s hs => ?_, err, rfl, safelenMaxErr_error hres⟩
      by_contra hlt
      obtain ⟨hroom, hread⟩ := hs.reads
      have hok : (safelenMaxErr um str max).1 = .ok s.length := by
        unfold safelenMaxErr
        rw [if_neg (by omega)]
        apply safelenMaxErrLoop_reads (Nat.zero_le _)
        · split_ifs <;> omega
        · exact fun i _ hi => hread i (by omega)
        · exact fun i _ hi => hs.string.byte hi
        · exact hs.string.terminator
      rw [hres] at hok
      cases hok

/-! ### The kernel heap -/

/-- A pointer in a vector: not stored yet, `NULL`, or the address of a block. -/
inductive Slot where
  | junk
  | null
  | ptr (b : ℕ)

/-- What `kargv_user` allocates: vectors of pointers, and copies of strings, of which some bytes have been
stored. -/
inductive KBlock where
  | vector (slots : List Slot)
  | copy (size : ℕ) (bytes : List UInt8)

abbrev KHeap := Heap KBlock

namespace KHeap

/-- A vector with room for `cap` pointers. -/
def kmallocVector (h : KHeap) (cap : ℕ) : Option ℕ × KHeap := h.malloc (.vector (List.replicate cap .junk))

/-- Room for a string of `size` bytes. -/
def kmallocCopy (h : KHeap) (size : ℕ) : Option ℕ × KHeap := h.malloc (.copy size [])

/-- `krealloc` of a vector to more pointers: a new block with the old contents. -/
def kreallocVector (h : KHeap) (b cap : ℕ) : Except Fault (Option ℕ × KHeap) :=
  match h.block b with
  | some (.vector slots) =>
      match h.malloc (.vector (slots ++ List.replicate (cap - slots.length) .junk)) with
      | (none, h') => .ok (none, h')
      | (some b', h') => .ok (some b', h'.free b)
  | _ => .error .wildAccess

/-- `argv[i]`. -/
def load (h : KHeap) (argv i : ℕ) : Except Fault Slot :=
  match h.block argv with
  | some (.vector slots) =>
      match slots[i]? with
      | some .junk => .error .uninitialized
      | some slot => .ok slot
      | none => .error .overrun
  | _ => .error .wildAccess

/-- `argv[i] = slot`. -/
def store (h : KHeap) (argv i : ℕ) (slot : Slot) : Except Fault KHeap :=
  match h.block argv with
  | some (.vector slots) =>
      if i < slots.length then .ok (h.modify argv fun _ => .vector (slots.set i slot)) else .error .overrun
  | _ => .error .wildAccess

/-- Store the bytes of a copy. -/
def storeCopy (h : KHeap) (b : ℕ) (bytes : List UInt8) : Except Fault KHeap :=
  match h.block b with
  | some (.copy size _) =>
      if bytes.length ≤ size then .ok (h.modify b fun _ => .copy size bytes) else .error .overrun
  | _ => .error .wildAccess

/-- `kfree`; the pointer is not `NULL` where it matters. -/
def kfree (h : KHeap) : Slot → KHeap
  | .ptr b => h.free b
  | _ => h

/-- `for (int i = 0; i < argc; i++) kfree(argv[i]);`, with `n` rounds left. -/
def freeArgs (argv : ℕ) : ℕ → ℕ → KHeap → Except Fault KHeap
  | 0, _, h => .ok h
  | n + 1, i, h => do
      let slot ← h.load argv i
      freeArgs argv n (i + 1) (h.kfree slot)

/-- The loop of `kargv_free`, which ends at the `NULL`; the index stays below `n`. -/
def freeUntilNull (argv : ℕ) : ℕ → ℕ → KHeap → Except Fault KHeap
  | 0, _, _ => .error .timeout
  | n + 1, i, h => do
      match ← h.load argv i with
      | .null => .ok h
      | slot => freeUntilNull argv n (i + 1) (h.kfree slot)

end KHeap

/-- `kargv_free`. -/
def kargvFree (h : KHeap) (argv : ℕ) : Except Fault KHeap := do
  let h ← KHeap.freeUntilNull argv (maxExecArgs + 1) 0 h
  .ok (h.free argv)

/-- The end of `kargv_user` after an error. -/
def kargvFail (h : KHeap) (argv argc : ℕ) (err : Int) : UserM (Except Int ℕ × KHeap) := do
  let h ← UserM.kernel (KHeap.freeArgs argv argc 0 h)
  pure (.error err, h.free argv)

/-- Make room for one more argument and the `NULL`: the vector and its capacity, or `none` if there is no
memory. -/
def growVector (h : KHeap) (argv cap argc : ℕ) : Except Fault (Option (ℕ × ℕ) × KHeap) :=
  if argc + 1 ≥ cap then do
    let newcap := if cap * 2 > maxExecArgs + 1 then maxExecArgs + 1 else cap * 2
    match ← h.kreallocVector argv newcap with
    | (none, h) => .ok (none, h)
    | (some newargv, h) => .ok (some (newargv, newcap), h)
  else .ok (some (argv, cap), h)

/-- One more argument, of `len` bytes at `uarg`: the vector grows if it has to, and the copy is stored to it.
The result is the capacity, or an error, and the vector. -/
def copyArg (h : KHeap) (argv cap argc uarg len : ℕ) : UserM (Except Int ℕ × ℕ × KHeap) := do
  match ← UserM.kernel (growVector h argv cap argc) with
  | (none, h) => pure (.error (-ENOMEM), argv, h)
  | (some (argv, cap), h) =>
      match h.kmallocCopy (len + 1) with
      | (none, h) => pure (.error (-ENOMEM), argv, h)
      | (some copy, h) => do
          match ← UserM.user fun um => safecpyFromUser um uarg (len + 1) with
          | none => pure (.error (-EFAULT), argv, h.kfree (.ptr copy))
          | some bytes => do
              let h ← UserM.kernel (h.storeCopy copy bytes)
              let h ← UserM.kernel (h.store argv argc (.ptr copy))
              pure (.ok cap, argv, h)

/-- The loop of `kargv_user` with its allocations, `argc` arguments of `total` bytes being copied. -/
def kargvHeapLoop (uargv : ℕ) : ℕ → KHeap → ℕ → ℕ → ℕ → ℕ → UserM (Except Int ℕ × KHeap)
  | 0, _, _, _, _, _ => UserM.kernel (.error .timeout)
  | n + 1, h, argv, cap, argc, total => do
      let element ← UserM.ptr uargv (4 * argc)
      match ← UserM.user fun um => safecpyFromUser um element 4 with
      | none => kargvFail h argv argc (-EFAULT)
      | some bytes =>
          let uarg := leBytes bytes 0 4
          if uarg = 0 then do
            let h ← UserM.kernel (h.store argv argc .null)
            pure (.ok argv, h)
          else if argc ≥ maxExecArgs then kargvFail h argv argc (-E2BIG)
          else do
            match ← UserM.user fun um => safelenMaxErr um uarg maxExecArgSize with
            | .error lerr => kargvFail h argv argc (if lerr = -ENAMETOOLONG then -E2BIG else lerr)
            | .ok len =>
                if len + 1 > maxExecArgsTotal - total then kargvFail h argv argc (-E2BIG)
                else do
                  match ← copyArg h argv cap argc uarg len with
                  | (.error err, argv, h) => kargvFail h argv argc err
                  | (.ok cap, argv, h) => kargvHeapLoop uargv n h argv cap (argc + 1) (total + (len + 1))

/-- `kargv_user` with its allocations: the vector, which is `NULL` if that of the program is. -/
def kargvUserHeap (h : KHeap) (uargv : UInt32) : UserM (Except Int (Option ℕ) × KHeap) :=
  if uargv = 0 then pure (.ok none, h)
  else
    match h.kmallocVector 8 with
    | (none, h) => pure (.error (-ENOMEM), h)
    | (some argv, h) => do
        let (r, h) ← kargvHeapLoop uargv.toNat (maxExecArgs + 1) h argv 8 0 0
        pure (r.map some, h)

/-! ### The vector and the copies -/

/-- The block is the copy of a string. -/
def IsCopy (h : KHeap) (b : ℕ) (s : CString) : Prop := h.block b = some (.copy (s.length + 1) (s ++ [0]))

/-- Inside of the loop: the vector has room for `cap` pointers, one of which at least is not used yet, and
starts with the copies of the strings.  Nothing else has been allocated. -/
structure Collected (h₀ h : KHeap) (argv cap : ℕ) (blocks : List ℕ) (strings : List CString) : Prop where
  owns : Owns h₀ h (argv :: blocks)
  vector : ∃ rest, h.block argv = some (.vector (blocks.map .ptr ++ rest)) ∧ blocks.length + rest.length = cap
  copies : List.Forall₂ (IsCopy h) blocks strings
  room : blocks.length < cap

/-- The vector ends with `NULL` after the copies of the strings, and nothing else has been allocated. -/
structure KernelArgv (h₀ h : KHeap) (argv : ℕ) (blocks : List ℕ) (strings : List CString) : Prop where
  owns : Owns h₀ h (argv :: blocks)
  vector : ∃ rest, h.block argv = some (.vector (blocks.map .ptr ++ .null :: rest))
  copies : List.Forall₂ (IsCopy h) blocks strings

variable {h₀ h : KHeap} {argv cap : ℕ} {blocks : List ℕ} {strings : List CString}

theorem IsCopy.congr {h' : KHeap} (hcopies : List.Forall₂ (IsCopy h) blocks strings)
    (hsame : ∀ b ∈ blocks, h'.block b = h.block b) : List.Forall₂ (IsCopy h') blocks strings := by
  induction hcopies with
  | nil => exact .nil
  | cons hcopy _ ih =>
      refine .cons ((hsame _ List.mem_cons_self).trans hcopy) (ih fun b hb => ?_)
      exact hsame b (List.mem_cons_of_mem _ hb)

theorem Collected.length (hc : Collected h₀ h argv cap blocks strings) : blocks.length = strings.length :=
  hc.copies.length_eq

theorem getElem?_ptr (pre bs : List ℕ) (b : ℕ) (rest : List Slot) :
    ((pre ++ b :: bs).map Slot.ptr ++ rest)[pre.length]? = some (.ptr b) := by
  rw [List.map_append, List.append_assoc, List.getElem?_append_right (by rw [List.length_map]),
    List.length_map, Nat.sub_self]
  rfl

theorem KHeap.load_ptr {pre bs : List ℕ} {b : ℕ} {rest : List Slot}
    (hv : h.block argv = some (.vector ((pre ++ b :: bs).map .ptr ++ rest))) :
    h.load argv pre.length = .ok (.ptr b) := by
  unfold KHeap.load
  rw [hv]
  simp only
  rw [getElem?_ptr]

/-- Freeing a copy keeps the vector. -/
theorem Owns.free_copy {b : ℕ} {bs : List ℕ} (ho : Owns h₀ h (argv :: b :: bs)) :
    Owns h₀ (h.free b) (argv :: bs) ∧ (h.free b).block argv = h.block argv := by
  have hne : argv ≠ b := fun heq =>
    (List.nodup_cons.mp ho.nodup).1 (heq ▸ List.mem_cons_self)
  exact ⟨(ho.perm (List.Perm.swap b argv bs)).free, Heap.free_of_ne hne⟩

theorem freeArgs_ends : ∀ (bs pre : List ℕ) {rest : List Slot} {h : KHeap},
    h.block argv = some (.vector ((pre ++ bs).map .ptr ++ rest)) → Owns h₀ h (argv :: bs) →
      ∃ h', KHeap.freeArgs argv bs.length pre.length h = .ok h' ∧ Owns h₀ h' [argv]
  | [], _, _, h, _, ho => ⟨h, rfl, ho⟩
  | b :: bs, pre, rest, h, hv, ho => by
      obtain ⟨ho', hsame⟩ := Owns.free_copy ho
      have hv' : (h.free b).block argv = some (.vector ((pre ++ [b] ++ bs).map .ptr ++ rest)) := by
        rw [hsame, hv, List.append_assoc]
        rfl
      obtain ⟨h', hrun, hend⟩ := freeArgs_ends bs (pre ++ [b]) hv' ho'
      refine ⟨h', ?_, hend⟩
      rw [List.length_append, List.length_singleton] at hrun
      rw [List.length_cons]
      unfold KHeap.freeArgs
      rw [KHeap.load_ptr hv, ok_bind]
      exact hrun

/-- After an error, everything is given back. -/
theorem kargvFail_frees (hc : Collected h₀ h argv cap blocks strings) (err : Int) (a : Access) :
    Yields (fun out a' => out.1 = .error err ∧ out.2.block = h₀.block ∧ a = a')
      (kargvFail h argv strings.length err) a := by
  obtain ⟨rest, hv, -⟩ := hc.vector
  obtain ⟨h', hrun, hend⟩ := freeArgs_ends blocks [] hv hc.owns
  rw [hc.length] at hrun
  unfold kargvFail
  refine (UserM.kernel_yields hrun a).bind fun _ a₁ h₁ => ?_
  obtain ⟨rfl, rfl⟩ := h₁
  exact Yields.pure ⟨rfl, hend.free.block_eq, rfl⟩

theorem freeUntilNull_ends : ∀ (bs pre : List ℕ) {rest : List Slot} {h : KHeap} {n : ℕ}, bs.length < n →
    h.block argv = some (.vector ((pre ++ bs).map .ptr ++ .null :: rest)) → Owns h₀ h (argv :: bs) →
      ∃ h', KHeap.freeUntilNull argv n pre.length h = .ok h' ∧ Owns h₀ h' [argv]
  | [], pre, rest, h, n, hn, hv, ho => by
      obtain ⟨n, rfl⟩ : ∃ k, n = k + 1 := ⟨n - 1, by rw [List.length_nil] at hn; omega⟩
      have hload : h.load argv pre.length = .ok .null := by
        unfold KHeap.load
        rw [hv, List.append_nil]
        simp only
        rw [List.getElem?_append_right (by rw [List.length_map]), List.length_map, Nat.sub_self]
        rfl
      refine ⟨h, ?_, ho⟩
      unfold KHeap.freeUntilNull
      rw [hload, ok_bind]
  | b :: bs, pre, rest, h, n, hn, hv, ho => by
      obtain ⟨n, rfl⟩ : ∃ k, n = k + 1 := ⟨n - 1, by rw [List.length_cons] at hn; omega⟩
      obtain ⟨ho', hsame⟩ := Owns.free_copy ho
      have hv' : (h.free b).block argv = some (.vector ((pre ++ [b] ++ bs).map .ptr ++ .null :: rest)) := by
        rw [hsame, hv, List.append_assoc]
        rfl
      obtain ⟨h', hrun, hend⟩ := freeUntilNull_ends bs (pre ++ [b]) (Nat.lt_of_succ_lt_succ hn) hv' ho'
      refine ⟨h', ?_, hend⟩
      rw [List.length_append, List.length_singleton] at hrun
      unfold KHeap.freeUntilNull
      rw [KHeap.load_ptr hv, ok_bind]
      exact hrun

/-- `kargv_free` gives back the vector and the copies. -/
theorem kargvFree_frees (hk : KernelArgv h₀ h argv blocks strings) (hcount : strings.length ≤ maxExecArgs) :
    ∃ h', kargvFree h argv = .ok h' ∧ h'.block = h₀.block := by
  obtain ⟨rest, hv⟩ := hk.vector
  have hlength := hk.copies.length_eq
  obtain ⟨h', hrun, hend⟩ := freeUntilNull_ends (n := maxExecArgs + 1) blocks [] (by omega) hv hk.owns
  refine ⟨h'.free argv, ?_, hend.free.block_eq⟩
  unfold kargvFree
  rw [show (0 : ℕ) = ([] : List ℕ).length from rfl, hrun, ok_bind]

/-! ### The steps of the loop -/

/-- The vector has room for another argument and the `NULL`, or there is no memory. -/
theorem growVector_room (hc : Collected h₀ h argv cap blocks strings) (hcount : strings.length < maxExecArgs) :
    ∃ r h', growVector h argv cap strings.length = .ok (r, h') ∧
      ((∃ argv' cap', r = some (argv', cap') ∧ Collected h₀ h' argv' cap' blocks strings ∧
          blocks.length + 1 < cap') ∨
        r = none ∧ Collected h₀ h' argv cap blocks strings ∧ ¬h₀.Grants) := by
  obtain ⟨rest, hv, hcap⟩ := hc.vector
  have hlength := hc.length
  have hroom := hc.room
  unfold growVector
  by_cases hfull : strings.length + 1 ≥ cap
  · rw [if_pos hfull]
    have hnewcap : blocks.length + 1 < (if cap * 2 > maxExecArgs + 1 then maxExecArgs + 1 else cap * 2) ∧
        cap ≤ (if cap * 2 > maxExecArgs + 1 then maxExecArgs + 1 else cap * 2) := by
      split_ifs <;> omega
    generalize (if cap * 2 > maxExecArgs + 1 then maxExecArgs + 1 else cap * 2) = newcap at hnewcap ⊢
    have hslots : (blocks.map Slot.ptr ++ rest).length = cap := by
      rw [List.length_append, List.length_map, hcap]
    unfold KHeap.kreallocVector
    rw [hv]
    simp only
    rw [hslots, List.append_assoc]
    rcases hc.owns.malloc (.vector (blocks.map .ptr ++ (rest ++ List.replicate (newcap - cap) .junk))) with
      ⟨b, h', hrun, ho, hb, hold⟩ | ⟨h', hrun, ho, hsame, hno⟩
    · rw [hrun]
      refine ⟨_, _, rfl, .inl ⟨b, newcap, rfl, ⟨?_, ⟨rest ++ List.replicate (newcap - cap) .junk, ?_, ?_⟩,
        ?_, ?_⟩, hnewcap.1⟩⟩
      · exact (Owns.perm ho (List.Perm.swap argv b blocks)).free
      · have hne : b ≠ argv := fun heq => (List.nodup_cons.mp ho.nodup).1 (heq ▸ List.mem_cons_self)
        exact (Heap.free_of_ne hne).trans hb
      · rw [List.length_append, List.length_replicate]
        omega
      · apply IsCopy.congr hc.copies
        intro b' hb'
        have hne : b' ≠ argv := fun heq => (List.nodup_cons.mp hc.owns.nodup).1 (heq ▸ hb')
        exact (Heap.free_of_ne hne).trans (hold b' (List.mem_cons_of_mem argv hb'))
      · omega
    · rw [hrun]
      refine ⟨_, _, rfl, .inr ⟨rfl, ⟨ho, ⟨rest, hsame ▸ hv, hcap⟩, ?_, hroom⟩, hno⟩⟩
      exact IsCopy.congr hc.copies fun b _ => congrFun hsame b
  · rw [if_neg hfull]
    exact ⟨_, _, rfl, .inl ⟨argv, cap, rfl, hc, by omega⟩⟩

/-- The pointer behind those that have been stored. -/
theorem store_next {slots rest : List Slot} {slot old : Slot} {i : ℕ}
    (hv : h.block argv = some (.vector (slots ++ old :: rest))) (hi : i = slots.length) :
    h.store argv i slot = .ok (h.modify argv fun _ => .vector (slots ++ slot :: rest)) := by
  unfold KHeap.store
  rw [hv]
  simp only
  rw [if_pos (by rw [hi, List.length_append, List.length_cons]; omega), hi,
    List.set_append_right _ _ (Nat.le_refl _), Nat.sub_self, List.set_cons_zero]

/-- A new copy is stored to the vector. -/
theorem Collected.push {h' : KHeap} {copy : ℕ} {s : CString} (hc : Collected h₀ h argv cap blocks strings)
    (hroom : blocks.length + 1 < cap) (ho : Owns h₀ h' (copy :: argv :: blocks))
    (hcopy : h'.block copy = some (.copy (s.length + 1) []))
    (hold : ∀ b ∈ argv :: blocks, h'.block b = h.block b) :
    ∃ h₁ h₂, h'.storeCopy copy (s ++ [0]) = .ok h₁ ∧ KHeap.store h₁ argv strings.length (.ptr copy) = .ok h₂ ∧
      Collected h₀ h₂ argv cap (blocks ++ [copy]) (strings ++ [s]) := by
  obtain ⟨rest, hv, hcap⟩ := hc.vector
  obtain ⟨hnot, hnodup⟩ := List.nodup_cons.mp ho.nodup
  have hne : argv ≠ copy := fun heq => hnot (heq ▸ List.mem_cons_self)
  obtain ⟨old, rest, rfl⟩ : ∃ old rest', rest = old :: rest' :=
    List.exists_cons_of_length_pos (by omega)
  rw [List.length_cons] at hcap
  have hstored : h'.storeCopy copy (s ++ [0]) =
      .ok (h'.modify copy fun _ => .copy (s.length + 1) (s ++ [0])) := by
    unfold KHeap.storeCopy
    rw [hcopy]
    exact if_pos (by rw [List.length_append, List.length_singleton])
  generalize hh₁ : (h'.modify copy fun _ => KBlock.copy (s.length + 1) (s ++ [0])) = h₁ at hstored
  have hvector : h₁.block argv = some (.vector (blocks.map .ptr ++ old :: rest)) := by
    rw [← hh₁, Heap.modify_of_ne hne, hold argv List.mem_cons_self, hv]
  have hset : KHeap.store h₁ argv strings.length (.ptr copy) = .ok (h₁.modify argv fun _ =>
      .vector (blocks.map .ptr ++ .ptr copy :: rest)) :=
    store_next hvector (by rw [List.length_map, hc.length])
  refine ⟨h₁, _, hstored, hset, ?_, ⟨rest, ?_, ?_⟩, ?_, ?_⟩
  · have howns : Owns h₀ h₁ (copy :: argv :: blocks) := hh₁ ▸ ho.modify List.mem_cons_self _
    apply (howns.modify (List.mem_cons_of_mem copy List.mem_cons_self) _).perm
    rw [List.perm_comm, ← List.cons_append]
    exact List.perm_append_singleton copy (argv :: blocks)
  · rw [Heap.modify_self hvector, List.map_append, List.append_assoc]
    rfl
  · rw [List.length_append, List.length_singleton]
    omega
  · apply List.rel_append (R := IsCopy _)
    · apply IsCopy.congr hc.copies
      intro b hb
      have hneb : b ≠ copy := fun heq => hnot (heq ▸ List.mem_cons_of_mem argv hb)
      have hnea : b ≠ argv := fun heq => (List.nodup_cons.mp hnodup).1 (heq ▸ hb)
      rw [Heap.modify_of_ne hnea, ← hh₁, Heap.modify_of_ne hneb, hold b (List.mem_cons_of_mem argv hb)]
    · refine .cons ?_ .nil
      unfold IsCopy
      rw [Heap.modify_of_ne hne.symm, ← hh₁, Heap.modify_self hcopy]
  · rw [List.length_append, List.length_singleton]
    exact hroom

/-! ### The strings that a program can pass -/

/-- The bytes of strings with their terminators. -/
def argvBytes : List CString → ℕ
  | [] => 0
  | s :: args => s.length + 1 + argvBytes args

/-- The strings of a vector in user memory: every pointer and every string can be read, and the numbers of
the strings and of their bytes are within the limits. -/
structure ExecArgs (um : UserMem) (uargv : ℕ) (args : List CString) : Prop where
  pointers : ∀ i < args.length, um.Reads (uargv + 4 * i) 4 ∧ um.word (uargv + 4 * i) ≠ 0
  strings : ∀ i, ∀ hi : i < args.length, ReadsString um (um.word (uargv + 4 * i)) args[i]
  last : um.Reads (uargv + 4 * args.length) 4 ∧ um.word (uargv + 4 * args.length) = 0
  count : args.length ≤ maxExecArgs
  size : ∀ s ∈ args, s.length + 1 ≤ maxExecArgSize
  total : argvBytes args ≤ maxExecArgsTotal

/-- An element of the vector that the loop copies, after `argc` others of `total` bytes. -/
structure NextArg (um : UserMem) (uargv argc total : ℕ) (s : CString) : Prop where
  pointer : um.Reads (uargv + 4 * argc) 4
  nonNull : um.word (uargv + 4 * argc) ≠ 0
  count : argc < maxExecArgs
  string : ReadsString um (um.word (uargv + 4 * argc)) s
  size : s.length + 1 ≤ maxExecArgSize
  total : s.length + 1 ≤ maxExecArgsTotal - total

/-- The strings that the loop copies after `argc` others of `total` bytes. -/
def ArgsFrom (um : UserMem) (uargv : ℕ) : ℕ → ℕ → List CString → Prop
  | argc, _, [] => um.Reads (uargv + 4 * argc) 4 ∧ um.word (uargv + 4 * argc) = 0
  | argc, total, s :: args =>
      NextArg um uargv argc total s ∧ ArgsFrom um uargv (argc + 1) (total + (s.length + 1)) args

variable {uargv argc total : ℕ} {args : List CString}

theorem argsFrom_iff : ∀ {args : List CString} {argc total : ℕ}, argc ≤ maxExecArgs →
    total ≤ maxExecArgsTotal → (ArgsFrom um uargv argc total args ↔
      (∀ i < args.length, um.Reads (uargv + 4 * (argc + i)) 4 ∧ um.word (uargv + 4 * (argc + i)) ≠ 0) ∧
      (∀ i, ∀ hi : i < args.length, ReadsString um (um.word (uargv + 4 * (argc + i))) args[i]) ∧
      (um.Reads (uargv + 4 * (argc + args.length)) 4 ∧ um.word (uargv + 4 * (argc + args.length)) = 0) ∧
      argc + args.length ≤ maxExecArgs ∧ (∀ s ∈ args, s.length + 1 ≤ maxExecArgSize) ∧
      total + argvBytes args ≤ maxExecArgsTotal)
  | [], argc, total, hargc, htotal => by
      constructor
      · intro h
        exact ⟨fun i hi => absurd hi (Nat.not_lt_zero i), fun i hi => absurd hi (Nat.not_lt_zero i), h, hargc,
          fun s hs => absurd hs List.not_mem_nil, htotal⟩
      · exact fun h => h.2.2.1
  | s :: args, argc, total, hargc, htotal => by
      have hshift : ∀ i, argc + 1 + i = argc + (i + 1) := fun i => by omega
      have hbytes : argvBytes (s :: args) = s.length + 1 + argvBytes args := rfl
      constructor
      · rintro ⟨hnext, hrest⟩
        have hcount := hnext.count
        have hsum := hnext.total
        obtain ⟨hptrs, hstrings, hlast, hlen, hsize, hbound⟩ :=
          (argsFrom_iff hcount (by omega)).mp hrest
        simp only [hshift] at hptrs hstrings hlast
        refine ⟨fun i hi => ?_, fun i hi => ?_, hlast, ?_, fun t ht => ?_, by omega⟩
        · cases i with
          | zero => exact ⟨hnext.pointer, hnext.nonNull⟩
          | succ i => exact hptrs i (Nat.lt_of_succ_lt_succ hi)
        · cases i with
          | zero => exact hnext.string
          | succ i => exact hstrings i (Nat.lt_of_succ_lt_succ hi)
        · rw [List.length_cons]
          omega
        · cases List.mem_cons.mp ht with
          | inl hfirst => exact hfirst ▸ hnext.size
          | inr hlater => exact hsize t hlater
      · rintro ⟨hptrs, hstrings, hlast, hlen, hsize, hbound⟩
        rw [List.length_cons] at hlen hlast
        have hfirst := hptrs 0 (Nat.succ_pos _)
        refine ⟨⟨hfirst.1, hfirst.2, by omega, hstrings 0 (Nat.succ_pos _), hsize s List.mem_cons_self,
          by omega⟩, (argsFrom_iff (by omega) (by omega)).mpr ⟨fun i hi => ?_, fun i hi => ?_, ?_, by omega,
            fun t ht => hsize t (List.mem_cons_of_mem s ht), by omega⟩⟩
        · rw [hshift]
          exact hptrs (i + 1) (Nat.succ_lt_succ hi)
        · rw [hshift]
          exact hstrings (i + 1) (Nat.succ_lt_succ hi)
        · rw [hshift]
          exact hlast

theorem execArgs_iff : ExecArgs um uargv args ↔ ArgsFrom um uargv 0 0 args := by
  rw [argsFrom_iff (Nat.zero_le _) (Nat.zero_le _)]
  simp only [Nat.zero_add]
  exact ⟨fun h => ⟨h.pointers, h.strings, h.last, h.count, h.size, h.total⟩,
    fun ⟨h₁, h₂, h₃, h₄, h₅, h₆⟩ => ⟨h₁, h₂, h₃, h₄, h₅, h₆⟩⟩

theorem argvBytes_append (args : List CString) (s : CString) :
    argvBytes (args ++ [s]) = argvBytes args + (s.length + 1) := by
  induction args with
  | nil => exact Nat.add_comm _ _
  | cons t args ih =>
      have hcons : argvBytes (t :: args) = t.length + 1 + argvBytes args := rfl
      rw [List.cons_append, argvBytes, ih, hcons]
      omega

/-! ### The loop -/

/-- What the loop returns: the copies of the strings and those behind them, or an error, with nothing left
of what was allocated.  An error means that the strings cannot be passed, or that there is no
memory. -/
def KargvResult (um : UserMem) (h₀ : KHeap) (uargv : ℕ) (strings : List CString) (out : Except Int ℕ × KHeap) :
    Prop :=
  (∃ argv blocks rest, out.1 = .ok argv ∧ ArgsFrom um uargv strings.length (argvBytes strings) rest ∧
    KernelArgv h₀ out.2 argv blocks (strings ++ rest)) ∨
  ∃ err, out.1 = .error err ∧ err < 0 ∧ out.2.block = h₀.block ∧
    (h₀.Grants → ∀ rest, ¬ArgsFrom um uargv strings.length (argvBytes strings) rest)

theorem kargvFail_result (hc : Collected h₀ h argv cap blocks strings) {err : Int} (herr : err < 0)
    (hno : h₀.Grants → ∀ rest, ¬ArgsFrom um uargv strings.length (argvBytes strings) rest) (a : Access) :
    Yields (fun out _ => KargvResult um h₀ uargv strings out) (kargvFail h argv strings.length err) a :=
  (kargvFail_frees hc err a).mono fun _ _ hout => .inr ⟨err, hout.1, herr, hout.2.1, hno⟩

/-- Reading an element of the vector. -/
theorem fromUser_yields {src : ℕ} (hn : 0 < n) {a : Access} (hsame : um.Same a.um) :
    Yields (fun r a' => um.Same a'.um ∧
        (um.Reads src n ∧ r = some (um.bytesAt src n) ∨ ¬um.Reads src n ∧ r = none))
      (UserM.user fun um => safecpyFromUser um src n) a := by
  apply Yields.act
  refine ⟨hsame.trans (safecpyFromUser_same a.um src n), ?_⟩
  have hcases := safecpyFromUser_cases a.um src hn
  rwa [hsame.reads, hsame.bytesAt] at hcases

/-- Measuring a string. -/
theorem safelen_yields (str max : ℕ) {a : Access} (hsame : um.Same a.um) :
    Yields (fun r a' => um.Same a'.um ∧
        ((∃ s, ReadsString um str s ∧ s.length < max ∧ r = .ok s.length) ∨
          (∀ s, ReadsString um str s → max ≤ s.length) ∧
            ∃ err, r = .error err ∧ (err = -EFAULT ∨ err = -ENAMETOOLONG)))
      (UserM.user fun um => safelenMaxErr um str max) a := by
  apply Yields.act
  refine ⟨hsame.trans (safelenMaxErr_same a.um str max), ?_⟩
  have hcases := safelenMaxErr_cases a.um str max
  simp only [hsame.readsString] at hcases
  exact hcases

theorem ArgsFrom.pointer (h : ArgsFrom um uargv argc total args) : um.Reads (uargv + 4 * argc) 4 := by
  cases args with
  | nil => exact h.1
  | cons s args => exact h.1.pointer

theorem ArgsFrom.next (h : ArgsFrom um uargv argc total args) (hne : um.word (uargv + 4 * argc) ≠ 0) :
    ∃ s rest, args = s :: rest ∧ NextArg um uargv argc total s ∧
      ArgsFrom um uargv (argc + 1) (total + (s.length + 1)) rest := by
  cases args with
  | nil => exact absurd h.2 hne
  | cons s rest => exact ⟨s, rest, rfl, h.1, h.2⟩

theorem argsFrom_unreadable (h : ¬um.Reads (uargv + 4 * argc) 4) (args : List CString) :
    ¬ArgsFrom um uargv argc total args := fun hargs => h hargs.pointer

theorem argsFrom_many (hne : um.word (uargv + 4 * argc) ≠ 0) (h : maxExecArgs ≤ argc)
    (args : List CString) : ¬ArgsFrom um uargv argc total args := by
  intro hargs
  obtain ⟨s, _, -, hnext, -⟩ := hargs.next hne
  exact absurd hnext.count (Nat.not_lt.mpr h)

theorem argsFrom_long (hne : um.word (uargv + 4 * argc) ≠ 0)
    (h : ∀ s, ReadsString um (um.word (uargv + 4 * argc)) s → maxExecArgSize ≤ s.length)
    (args : List CString) : ¬ArgsFrom um uargv argc total args := by
  intro hargs
  obtain ⟨s, _, -, hnext, -⟩ := hargs.next hne
  exact absurd hnext.size (Nat.not_le.mpr (Nat.lt_succ_of_le (h s hnext.string)))

theorem argsFrom_total {s : CString} (hne : um.word (uargv + 4 * argc) ≠ 0)
    (hs : ReadsString um (um.word (uargv + 4 * argc)) s) (h : maxExecArgsTotal - total < s.length + 1)
    (args : List CString) : ¬ArgsFrom um uargv argc total args := by
  intro hargs
  obtain ⟨t, _, -, hnext, -⟩ := hargs.next hne
  obtain rfl := hnext.string.unique hs
  exact absurd hnext.total (Nat.not_le.mpr h)

/-- After an argument, the others follow. -/
theorem argsFrom_cons {s : CString} (hnext : NextArg um uargv argc total s)
    (h : ∀ rest, ¬ArgsFrom um uargv (argc + 1) (total + (s.length + 1)) rest) (args : List CString) :
    ¬ArgsFrom um uargv argc total args := by
  intro hargs
  obtain ⟨t, rest, rfl, ht, hrest⟩ := hargs.next hnext.nonNull
  obtain rfl := ht.string.unique hnext.string
  exact h rest hrest

/-- Memory holds one vector at an address. -/
theorem ArgsFrom.unique : ∀ {args args' : List CString} {argc total : ℕ},
    ArgsFrom um uargv argc total args → ArgsFrom um uargv argc total args' → args = args'
  | [], [], _, _, _, _ => rfl
  | [], _ :: _, _, _, h, h' => absurd h.2 h'.1.nonNull
  | _ :: _, [], _, _, h, h' => absurd h'.2 h.1.nonNull
  | s :: args, t :: args', _, _, h, h' => by
      obtain rfl := h.1.string.unique h'.1.string
      rw [h.2.unique h'.2]

theorem ReadsString.bytes {ptr : ℕ} {s : CString} (hs : ReadsString um ptr s) :
    um.bytesAt ptr (s.length + 1) = s ++ [0] := by
  have hend := hs.string.terminator
  have hbytes := hs.string.bytes
  unfold UserMem.bytesAt at hbytes ⊢
  rw [List.range_succ, List.map_append, hbytes, List.map_singleton, hend]

/-- Storing the `NULL`. -/
theorem Collected.finish (hc : Collected h₀ h argv cap blocks strings) :
    ∃ h', h.store argv strings.length .null = .ok h' ∧ KernelArgv h₀ h' argv blocks strings := by
  obtain ⟨rest, hv, hcap⟩ := hc.vector
  have hroom := hc.room
  obtain ⟨old, rest, rfl⟩ : ∃ old rest', rest = old :: rest' :=
    List.exists_cons_of_length_pos (by omega)
  have hset : h.store argv strings.length .null =
      .ok (h.modify argv fun _ => .vector (blocks.map .ptr ++ .null :: rest)) :=
    store_next hv (by rw [List.length_map, hc.length])
  refine ⟨_, hset, hc.owns.modify List.mem_cons_self _, ⟨rest, Heap.modify_self hv _⟩, ?_⟩
  apply IsCopy.congr hc.copies
  intro b hb
  have hne : b ≠ argv := fun heq => (List.nodup_cons.mp hc.owns.nodup).1 (heq ▸ hb)
  exact Heap.modify_of_ne hne _

/-- The result of the rounds behind one that has copied `s`. -/
theorem KargvResult.cons {s : CString} {out : Except Int ℕ × KHeap}
    (hnext : NextArg um uargv strings.length (argvBytes strings) s)
    (h : KargvResult um h₀ uargv (strings ++ [s]) out) : KargvResult um h₀ uargv strings out := by
  unfold KargvResult at h
  rw [List.length_append, List.length_singleton, argvBytes_append] at h
  rcases h with ⟨argv, blocks, rest, hout, hrest, hk⟩ | ⟨err, hout, herr, hsame, hno⟩
  · rw [List.append_assoc] at hk
    exact .inl ⟨argv, blocks, s :: rest, hout, ⟨hnext, hrest⟩, hk⟩
  · exact .inr ⟨err, hout, herr, hsame, fun hgrants => argsFrom_cons hnext (hno hgrants)⟩

/-- A copy that succeeds, or there is no memory. -/
theorem copyArg_result {uarg : ℕ} {s : CString} (hc : Collected h₀ h argv cap blocks strings)
    (hs : ReadsString um uarg s) (hcount : strings.length < maxExecArgs) {a : Access}
    (hsame : um.Same a.um) :
    Yields (fun out a' => um.Same a'.um ∧
        ((∃ cap' blocks', out.1 = .ok cap' ∧ Collected h₀ out.2.2 out.2.1 cap' blocks' (strings ++ [s])) ∨
          ∃ err cap', out.1 = .error err ∧ err < 0 ∧ Collected h₀ out.2.2 out.2.1 cap' blocks strings ∧
            ¬h₀.Grants))
      (copyArg h argv cap strings.length uarg s.length) a := by
  obtain ⟨r, h', hgrow, hcases⟩ := growVector_room hc hcount
  unfold copyArg
  refine (UserM.kernel_yields hgrow a).bind fun _ a₁ h₁ => ?_
  obtain ⟨rfl, rfl⟩ := h₁
  rcases hcases with ⟨argv', cap', rfl, hc', hroom⟩ | ⟨rfl, hc', hno⟩
  · simp only
    unfold KHeap.kmallocCopy
    rcases hc'.owns.malloc (.copy (s.length + 1) []) with
      ⟨copy, hm, hrun, ho, hcopy, hold⟩ | ⟨hm, hrun, ho, hblock, hno⟩
    · rw [hrun]
      simp only
      refine (fromUser_yields (Nat.succ_pos _) hsame).bind fun r a₁ h₁ => ?_
      obtain ⟨hsame₁, ⟨-, rfl⟩ | ⟨hbad, -⟩⟩ := h₁
      · obtain ⟨k₁, k₂, hcopied, hstored, hc₂⟩ := hc'.push hroom ho hcopy hold
        simp only
        rw [hs.bytes]
        refine (UserM.kernel_yields hcopied a₁).bind fun _ a₂ h₂ => ?_
        obtain ⟨rfl, rfl⟩ := h₂
        refine (UserM.kernel_yields hstored a₁).bind fun _ a₂ h₂ => ?_
        obtain ⟨rfl, rfl⟩ := h₂
        exact Yields.pure ⟨hsame₁, .inl ⟨cap', _, rfl, hc₂⟩⟩
      · exact absurd hs.reads hbad
    · rw [hrun]
      obtain ⟨rest, hv, hcap⟩ := hc'.vector
      refine Yields.pure ⟨hsame, .inr ⟨_, cap', rfl, by decide, ⟨ho, ⟨rest, hblock ▸ hv, hcap⟩, ?_, ?_⟩, hno⟩⟩
      · exact IsCopy.congr hc'.copies fun b _ => congrFun hblock b
      · exact hc'.room
  · exact Yields.pure ⟨hsame, .inr ⟨_, cap, rfl, by decide, hc', hno⟩⟩

/-- One round of the loop after another: an element that cannot be read, the `NULL`, one argument too many,
a string that cannot be read or is too long, or too many bytes end it, and so does a lack of memory. -/
theorem kargvHeapLoop_result (uargv : ℕ) : ∀ (n : ℕ) {h : KHeap} {argv cap : ℕ} {blocks : List ℕ}
    {strings : List CString} (a : Access), Collected h₀ h argv cap blocks strings → um.Same a.um →
    strings.length + n = maxExecArgs + 1 → 0 < n → uargv + 4 * strings.length < 0x100000000 →
      Yields (fun out _ => KargvResult um h₀ uargv strings out)
        (kargvHeapLoop uargv n h argv cap strings.length (argvBytes strings)) a
  | 0, _, _, _, _, _, _, _, _, _, hn, _ => absurd hn (Nat.lt_irrefl 0)
  | n + 1, h, argv, cap, blocks, strings, a, hc, hsame, hfuel, _, hptr => by
      unfold kargvHeapLoop
      refine (UserM.ptr_yields hptr a).bind fun element a₁ h₁ => ?_
      obtain ⟨rfl, hum⟩ := h₁
      refine (fromUser_yields (by decide) (hum ▸ hsame)).bind fun r a₂ h₂ => ?_
      obtain ⟨hsame₂, ⟨hread, rfl⟩ | ⟨hread, rfl⟩⟩ := h₂
      swap
      · exact kargvFail_result hc (by decide) (fun _ => argsFrom_unreadable hread) a₂
      simp only
      rw [show leBytes (um.bytesAt (uargv + 4 * strings.length) 4) 0 4 =
        um.word (uargv + 4 * strings.length) from rfl]
      by_cases hnull : um.word (uargv + 4 * strings.length) = 0
      · rw [if_pos hnull]
        obtain ⟨h', hstore, hk⟩ := hc.finish
        refine (UserM.kernel_yields hstore a₂).bind fun _ a₃ h₃ => ?_
        obtain ⟨rfl, rfl⟩ := h₃
        refine Yields.pure (.inl ⟨argv, blocks, [], rfl, ⟨hread, hnull⟩, ?_⟩)
        rwa [List.append_nil]
      rw [if_neg hnull]
      by_cases hmany : strings.length ≥ maxExecArgs
      · rw [if_pos hmany]
        exact kargvFail_result hc (by decide) (fun _ => argsFrom_many hnull hmany) a₂
      rw [if_neg hmany]
      refine (safelen_yields _ _ hsame₂).bind fun r a₃ h₃ => ?_
      obtain ⟨hsame₃, ⟨s, hs, hlen, rfl⟩ | ⟨hlong, err, rfl, herr⟩⟩ := h₃
      swap
      · refine kargvFail_result hc ?_ (fun _ => argsFrom_long hnull hlong) a₃
        rcases herr with rfl | rfl <;> decide
      simp only
      by_cases htotal : s.length + 1 > maxExecArgsTotal - argvBytes strings
      · rw [if_pos htotal]
        exact kargvFail_result hc (by decide) (fun _ => argsFrom_total hnull hs htotal) a₃
      rw [if_neg htotal]
      have hnext : NextArg um uargv strings.length (argvBytes strings) s :=
        ⟨hread, hnull, Nat.not_le.mp hmany, hs, hlen, Nat.not_lt.mp htotal⟩
      refine (copyArg_result hc hs hnext.count hsame₃).bind fun out a₄ h₄ => ?_
      obtain ⟨r, argv', h'⟩ := out
      obtain ⟨hsame₄, ⟨cap', blocks', rfl, hc'⟩ | ⟨err, cap', rfl, herr, hc', hno⟩⟩ := h₄
      · have hbound := hread.1
        have hlength : (strings ++ [s]).length = strings.length + 1 := List.length_append
        have hloop := kargvHeapLoop_result uargv n a₄ hc' hsame₄ (by omega) (by omega)
          (by rw [hlength]; exact kernelStart_lt (by omega))
        rw [hlength, argvBytes_append] at hloop
        exact hloop.mono fun out _ hout => hout.cons hnext
      · exact kargvFail_result hc' herr (fun hgrants => absurd hgrants hno) a₄

/-! ### The function -/

/-- A vector that has just been allocated. -/
theorem collected_new {h' : KHeap} {argv cap : ℕ} (hcap : 0 < cap) (ho : Owns h₀ h' [argv])
    (hv : h'.block argv = some (.vector (List.replicate cap .junk))) : Collected h₀ h' argv cap [] [] :=
  ⟨ho, ⟨List.replicate cap .junk, hv, by rw [List.length_replicate, List.length_nil, Nat.zero_add]⟩, .nil, hcap⟩

/-- The copies of the strings that a program can pass, or an error. -/
theorem kargvUserHeap_result (um : UserMem) {uargv : UInt32} (hne : uargv ≠ 0) (h₀ : KHeap) :
    Yields (fun out _ =>
        (∃ argv blocks args, out.1 = .ok (some argv) ∧ ExecArgs um uargv.toNat args ∧
          KernelArgv h₀ out.2 argv blocks args) ∨
        ∃ err, out.1 = .error err ∧ err < 0 ∧ out.2.block = h₀.block ∧
          (h₀.Grants → ∀ args, ¬ExecArgs um uargv.toNat args))
      (kargvUserHeap h₀ uargv) ⟨um, false⟩ := by
  unfold kargvUserHeap KHeap.kmallocVector
  rw [if_neg hne]
  rcases (Owns.refl h₀).malloc (.vector (List.replicate 8 .junk)) with
    ⟨argv, h', hrun, ho, hv, -⟩ | ⟨h', hrun, -, hsame, hno⟩
  · rw [hrun]
    simp only
    have hloop := kargvHeapLoop_result uargv.toNat (maxExecArgs + 1) ⟨um, false⟩
      (collected_new (by decide) ho hv) (.refl um) (Nat.zero_add _) (Nat.succ_pos _) uargv.toNat_lt
    refine hloop.bind fun out a₁ hout => Yields.pure ?_
    rcases hout with ⟨argv', blocks, rest, hok, hrest, hk⟩ | ⟨err, herror, hneg, hsame, hno⟩
    · exact .inl ⟨argv', blocks, rest, congrArg (Except.map some) hok, execArgs_iff.mpr hrest, hk⟩
    · refine .inr ⟨err, congrArg (Except.map some) herror, hneg, hsame, fun hgrants args hargs => ?_⟩
      exact hno hgrants args (execArgs_iff.mp hargs)
  · rw [hrun]
    exact Yields.pure (.inr ⟨_, rfl, by decide, hsame, fun hgrants => absurd hgrants hno⟩)

/-- `kargv_user` copies the strings that a program can pass, in order and with a `NULL` behind them.  Without
such strings, or without memory, it returns an error and leaves nothing allocated.  It does not store
beyond the end of its vector, which would be a fault. -/
theorem kargvUser_exact (um : UserMem) {uargv : UInt32} (hne : uargv ≠ 0) (h₀ : KHeap) :
    Yields (fun out _ =>
        ((∃ argv blocks args, out.1 = .ok (some argv) ∧ ExecArgs um uargv.toNat args ∧
            KernelArgv h₀ out.2 argv blocks args) ∨
          ∃ err, out.1 = .error err ∧ err < 0 ∧ out.2.block = h₀.block) ∧
        (h₀.Grants → ((∃ argv, out.1 = .ok (some argv)) ↔ ∃ args, ExecArgs um uargv.toNat args)))
      (kargvUserHeap h₀ uargv) ⟨um, false⟩ := by
  refine (kargvUserHeap_result um hne h₀).mono fun out _ hout => ?_
  rcases hout with ⟨argv, blocks, args, hok, hargs, hk⟩ | ⟨err, herror, hneg, hsame, hno⟩
  · exact ⟨.inl ⟨argv, blocks, args, hok, hargs, hk⟩, fun _ => iff_of_true ⟨argv, hok⟩ ⟨args, hargs⟩⟩
  · refine ⟨.inr ⟨err, herror, hneg, hsame⟩, fun hgrants => iff_of_false ?_ ?_⟩
    · rintro ⟨argv, hok⟩
      cases herror.symm.trans hok
    · rintro ⟨args, hargs⟩
      exact hno hgrants args hargs

/-- The arguments: strings of up to nine letters `A`, the first of them empty. -/
def letterArgs : List CString := (List.range 10).map fun n => List.replicate n 65

/-- A page with a vector of pointers to these strings, which are 16 bytes apart behind it. -/
def argvMemory : UserMem where
  byte a :=
    if a < 0x1100 then
      if a < 0x1028 then [UInt8.ofNat (16 * ((a - 0x1000) / 4)), 0x11, 0, 0].getD (a % 4) 0 else 0
    else if (a - 0x1100) % 16 < (a - 0x1100) / 16 then 65 else 0
  readable a := decide (0x1000 ≤ a) && decide (a < 0x2000)
  writable a := decide (0x1000 ≤ a) && decide (a < 0x2000)
  touched := []

/-- A heap without blocks. -/
def freshHeap : KHeap := ⟨fun _ => none, 0, fun _ => true, fun _ _ => rfl⟩

theorem argvMemory_words : ∀ i < 10, argvMemory.word (0x1000 + 4 * i) = 0x1100 + 16 * i := by
  decide

theorem argvMemory_reads {a n : ℕ} (ha : 0x1000 ≤ a) (hn : a + n ≤ 0x2000) : argvMemory.Reads a n :=
  ⟨Nat.le_trans hn (by decide), fun k hk => by
    simp only [argvMemory, Bool.and_eq_true, decide_eq_true_eq]
    omega⟩

theorem argvMemory_string {i : ℕ} (hi : i < 10) :
    ReadsString argvMemory (0x1100 + 16 * i) (List.replicate i 65) := by
  have hbyte : ∀ k < 16, argvMemory.byte (0x1100 + 16 * i + k) = if k < i then 65 else 0 := by
    intro k hk
    have hquot : (0x1100 + 16 * i + k - 0x1100) / 16 = i := by omega
    have hrem : (0x1100 + 16 * i + k - 0x1100) % 16 = k := by omega
    simp only [argvMemory, hquot, hrem]
    rw [if_neg (by omega)]
  refine ⟨⟨?_, ?_, ?_⟩, argvMemory_reads (by omega) (by rw [List.length_replicate]; omega)⟩
  · rw [List.length_replicate, UserMem.bytesAt, List.eq_replicate_iff]
    refine ⟨by rw [List.length_map, List.length_range], fun b hb => ?_⟩
    obtain ⟨k, hk, rfl⟩ := List.mem_map.mp hb
    have hk := List.mem_range.mp hk
    rw [hbyte k (by omega), if_pos hk]
  · rw [List.mem_replicate]
    exact fun h => absurd h.2 (by decide)
  · rw [List.length_replicate, hbyte i (by omega), if_neg (Nat.lt_irrefl i)]

theorem argvMemory_args : ExecArgs argvMemory 0x1000 letterArgs where
  pointers i hi := by
    have hi : i < 10 := hi
    rw [argvMemory_words i hi]
    exact ⟨argvMemory_reads (by omega) (by omega), by omega⟩
  strings i hi := by
    have hstring : letterArgs[i] = List.replicate i 65 := by simp [letterArgs]
    rw [argvMemory_words i hi, hstring]
    exact argvMemory_string hi
  last := ⟨argvMemory_reads (by decide) (by decide), by decide⟩
  count := by decide
  size := by decide
  total := by decide

/-- Ten arguments, for which the vector of eight pointers has to grow. -/
theorem kargvUser_ten : Yields
    (fun out _ => ∃ argv blocks, out.1 = .ok (some argv) ∧
      KernelArgv freshHeap out.2 argv blocks letterArgs)
    (kargvUserHeap freshHeap 0x1000) ⟨argvMemory, false⟩ := by
  refine (kargvUser_exact argvMemory (by decide) freshHeap).mono fun out _ hout => ?_
  obtain ⟨argv, hok⟩ := (hout.2 fun _ => rfl).mpr ⟨letterArgs, argvMemory_args⟩
  rcases hout.1 with ⟨argv, blocks, args, hok, hargs, hk⟩ | ⟨err, herror, -⟩
  · obtain rfl := (execArgs_iff.mp hargs).unique (execArgs_iff.mp argvMemory_args)
    exact ⟨argv, blocks, hok, hk⟩
  · cases herror.symm.trans hok

/-! ### The strings alone -/

/-- The loop that only collects the strings. -/
theorem kargvLoop_result (uargv : ℕ) : ∀ (n : ℕ) (strings : List CString) (a : Access), um.Same a.um →
    strings.length + n = maxExecArgs + 1 → 0 < n → uargv + 4 * strings.length < 0x100000000 →
      Yields (fun out _ =>
          (∃ rest, out = .ok (strings ++ rest) ∧
            ArgsFrom um uargv strings.length (argvBytes strings) rest) ∨
          ∃ err, out = .error err ∧ ∀ rest, ¬ArgsFrom um uargv strings.length (argvBytes strings) rest)
        (kargvLoop uargv n strings (argvBytes strings)) a
  | 0, _, _, _, _, hn, _ => absurd hn (Nat.lt_irrefl 0)
  | n + 1, strings, a, hsame, hfuel, _, hptr => by
      unfold kargvLoop
      refine (UserM.ptr_yields hptr a).bind fun element a₁ h₁ => ?_
      obtain ⟨rfl, hum⟩ := h₁
      refine (fromUser_yields (by decide) (hum ▸ hsame)).bind fun r a₂ h₂ => ?_
      obtain ⟨hsame₂, ⟨hread, rfl⟩ | ⟨hread, rfl⟩⟩ := h₂
      swap
      · exact Yields.pure (.inr ⟨_, rfl, argsFrom_unreadable hread⟩)
      simp only
      rw [show leBytes (um.bytesAt (uargv + 4 * strings.length) 4) 0 4 =
        um.word (uargv + 4 * strings.length) from rfl]
      by_cases hnull : um.word (uargv + 4 * strings.length) = 0
      · rw [if_pos hnull]
        exact Yields.pure (.inl ⟨[], by rw [List.append_nil], hread, hnull⟩)
      rw [if_neg hnull]
      by_cases hmany : strings.length ≥ maxExecArgs
      · rw [if_pos hmany]
        exact Yields.pure (.inr ⟨_, rfl, argsFrom_many hnull hmany⟩)
      rw [if_neg hmany]
      refine (safelen_yields _ _ hsame₂).bind fun r a₃ h₃ => ?_
      obtain ⟨hsame₃, ⟨s, hs, hlen, rfl⟩ | ⟨hlong, err, rfl, -⟩⟩ := h₃
      swap
      · exact Yields.pure (.inr ⟨_, rfl, argsFrom_long hnull hlong⟩)
      simp only
      by_cases htotal : s.length + 1 > maxExecArgsTotal - argvBytes strings
      · rw [if_pos htotal]
        exact Yields.pure (.inr ⟨_, rfl, argsFrom_total hnull hs htotal⟩)
      rw [if_neg htotal]
      have hnext : NextArg um uargv strings.length (argvBytes strings) s :=
        ⟨hread, hnull, Nat.not_le.mp hmany, hs, hlen, Nat.not_lt.mp htotal⟩
      refine (fromUser_yields (Nat.succ_pos _) hsame₃).bind fun r a₄ h₄ => ?_
      obtain ⟨hsame₄, ⟨-, rfl⟩ | ⟨hbad, -⟩⟩ := h₄
      swap
      · exact absurd hs.reads hbad
      simp only
      rw [hs.bytes, cString_append hs.string.noNul]
      have hbound := hread.1
      have hlength : (strings ++ [s]).length = strings.length + 1 := List.length_append
      have hloop := kargvLoop_result uargv n (strings ++ [s]) a₄ hsame₄ (by omega) (by omega)
        (by rw [hlength]; exact kernelStart_lt (by omega))
      rw [hlength, argvBytes_append] at hloop
      refine hloop.mono fun out _ hout => ?_
      rcases hout with ⟨rest, rfl, hrest⟩ | ⟨err, rfl, hno⟩
      · exact .inl ⟨s :: rest, by rw [List.append_assoc, List.singleton_append], hnext, hrest⟩
      · exact .inr ⟨err, rfl, argsFrom_cons hnext hno⟩

/-- With memory, the strings that the kernel holds are those that the system call passes on. -/
theorem kargvUser_strings (um : UserMem) {uargv : UInt32} (hne : uargv ≠ 0) {h₀ : KHeap}
    (hgrants : h₀.Grants) :
    Yields (fun out _ => Yields (fun res _ =>
          (∃ argv blocks args, out.1 = .ok (some argv) ∧ KernelArgv h₀ out.2 argv blocks args ∧
            res = .ok args) ∨
          ∃ err err', out.1 = .error err ∧ res = .error err') (kargvUser uargv) ⟨um, false⟩)
      (kargvUserHeap h₀ uargv) ⟨um, false⟩ := by
  have hstrings := kargvLoop_result uargv.toNat (maxExecArgs + 1) [] ⟨um, false⟩
    (.refl um) (Nat.zero_add _) (Nat.succ_pos _) uargv.toNat_lt
  refine (kargvUserHeap_result um hne h₀).mono fun out _ hout => ?_
  unfold kargvUser
  rw [if_neg hne]
  refine hstrings.mono fun res _ hres => ?_
  rcases hout with ⟨argv, blocks, args, hok, hargs, hk⟩ | ⟨err, herror, -, -, hno⟩
  · rcases hres with ⟨rest, rfl, hrest⟩ | ⟨err', rfl, hno⟩
    · obtain rfl := (execArgs_iff.mp hargs).unique hrest
      exact .inl ⟨argv, blocks, args, hok, hk, rfl⟩
    · exact absurd (execArgs_iff.mp hargs) (hno args)
  · rcases hres with ⟨rest, rfl, hrest⟩ | ⟨err', rfl, -⟩
    · exact absurd (execArgs_iff.mpr hrest) (hno hgrants rest)
    · exact .inr ⟨err, err', herror, rfl⟩

end GalaxyOS
