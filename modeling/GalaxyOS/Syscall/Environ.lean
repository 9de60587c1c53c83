import GalaxyOS.Syscall.Strings
import GalaxyOS.Lib.Bindings

/-! # Environment variables

The environment of a process is an array of pointers to strings `name=value`.  `syscall_getenv`
searches it for the first string that starts with the name and a `=`, and `syscall_setenv` replaces
that string or adds one after the last, growing the array when there is no room for it and the
`NULL` behind it.

`Environ` is the array itself, with what its slots hold, and `Holds` relates it to the list of its
variables.  On that list the calls are `lookup` and `assign` (`syscallGetenv_eq`,
`syscallSetenv_holds`).

`environ_dictionary` is about all calls of all processes along a line of inheritance:
`Environ.Holds.store` is the step of an assignment, `Environ.Holds.inherit` that of a new process. -/

namespace GalaxyOS

open Transition Bindings

/-! ### The array -/

/-- A slot of `environ`, as `kmalloc` or `krealloc` left it, `NULL`, or a string. -/
inductive EnvSlot where
  | junk
  | null
  | var (s : CString)
deriving DecidableEq

/-- `environ` and `environc` of a process. -/
structure Environ where
  environ : List EnvSlot
  environc : ℕ
deriving DecidableEq

/-- `environ_size`. -/
def Environ.environSize (e : Environ) : ℕ := e.environ.length

/-- `'='`. -/
def equalSign : UInt8 := 61

/-- `MAX_ENV_NAME_SIZE`. -/
def maxEnvNameSize : ℕ := 4096

/-- `MAX_ENV_VALUE_SIZE`. -/
def maxEnvValueSize : ℕ := 65536

/-- `MAX_ENVIRON_VARS`. -/
def maxEnvironVars : ℕ := 4096

/-- The pointer `environ[i]`, to be dereferenced unless it is `NULL`. -/
def Environ.entry (e : Environ) (i : ℕ) : Except Fault EnvSlot :=
  match e.environ[i]? with
  | none => .error .overrun
  | some .junk => .error .uninitialized
  | some slot => .ok slot

/-- The test of `syscall_getenv` and `syscall_setenv`: `var` is the variable `name`. -/
def isVariable (var name : CString) : Bool :=
  decide (name.length < var.length) && decide (var.take name.length = name) &&
    decide (var[name.length]? = some equalSign)

/-- The search loop, with `n` variables left from index `i` on. -/
def Environ.findVariable (e : Environ) (name : CString) :
    ℕ → ℕ → Except Fault (Option (ℕ × CString))
  | 0, _ => .ok none
  | n + 1, i => do
      match ← e.entry i with
      | .var var => if isVariable var name then .ok (some (i, var)) else e.findVariable name n (i + 1)
      | _ => e.findVariable name n (i + 1)

/-! ### `syscall_getenv` -/

/-- The end of `syscall_getenv`: copy the value, cut to the size of the buffer. -/
def copyValue (um : UserMem) (buf size : ℕ) (eval : CString) : Int × UserMem :=
  if size = 0 then (0, um)
  else if eval.length + 1 > size then
    -- truncate, but keep it terminated
    let n := size - 1
    let (r, um₁) := if n > 0 then safecpyToUser um buf (eval.take n) else (0, um)
    if r = -1 then (-EFAULT, um₁)
    else
      let (r, um₂) := safecpyToUser um₁ ((buf + n) % 0x100000000) [0]
      if r = -1 then (-EFAULT, um₂) else (0, um₂)
  else
    let (r, um₁) := safecpyToUser um buf (eval ++ [0])
    if r = -1 then (-EFAULT, um₁) else (0, um₁)

/-- `syscall_getenv`. -/
def syscallGetenv (e : Environ) (um : UserMem) (args : SyscallArgs) : Except Fault (Int × UserMem) :=
  match kstrdupUser um (args 0).toNat maxEnvNameSize with
  | (.error err, um₁) => .ok (err, um₁)
  | (.ok name, um₁) => do
      match ← e.findVariable name e.environc 0 with
      | none => .ok (-ENOENT, um₁)
      | some (_, var) =>
          .ok (copyValue um₁ (args 1).toNat (args 2).toNat (var.drop (name.length + 1)))

/-! ### `syscall_setenv` -/

/-- The size to which a full `environ` grows. -/
def Environ.newsize (e : Environ) : ℕ :=
  let newsize := if e.environSize ≠ 0 then e.environSize * 2 else 4
  if newsize ≤ e.environc then e.environc + 4 else newsize

/-- `krealloc` of `environ`. -/
def Environ.resize (e : Environ) (newsize : ℕ) : Environ :=
  { e with environ := e.environ.take newsize ++ List.replicate (newsize - e.environSize) .junk }

/-- Grow `environ` before adding a variable, leaving room for the trailing `NULL`. -/
def Environ.grow (e : Environ) : Environ :=
  if e.environc + 1 ≥ e.environSize then e.resize e.newsize else e

/-- `environ[eindex] = newvar`, and `NULL` behind the last variable if there is room. -/
def Environ.putVariable (e : Environ) (eindex : ℕ) (newvar : CString) : Except Fault Environ :=
  if eindex < e.environSize then
    let environ := e.environ.set eindex (.var newvar)
    .ok { e with
      environ := if e.environc < e.environSize then environ.set e.environc .null else environ }
  else .error .overrun

/-- Store the new variable at the index of the old one or behind the last. -/
def Environ.storeVariable (e : Environ) (eindex : Option ℕ) (newvar : CString) :
    Except Fault (Int × Environ) :=
  match eindex with
  | none =>
      if e.environc ≥ maxEnvironVars then .ok (-ENOSPC, e)
      else do
        let e' ← (Environ.mk e.grow.environ (e.environc + 1)).putVariable e.environc newvar
        .ok (0, e')
  | some eindex => do
      let e' ← e.putVariable eindex newvar
      .ok (0, e')

/-- `syscall_setenv`. -/
def syscallSetenv (e : Environ) (um : UserMem) (args : SyscallArgs) :
    Except Fault (Int × UserMem × Environ) :=
  match kstrdupUser um (args 0).toNat maxEnvNameSize with
  | (.error err, um₁) => .ok (err, um₁, e)
  | (.ok name, um₁) =>
      if name.length = 0 then .ok (-EINVAL, um₁, e)
      else
        match safelenMaxErr um₁ (args 1).toNat (maxEnvValueSize + 1) with
        | (.error err, um₂) =>
            -- value cap, not a name limit
            .ok (if err = -ENAMETOOLONG then -E2BIG else err, um₂, e)
        | (.ok vallen, um₂) => do
            let found ← e.findVariable name e.environc 0
            match safecpyFromUser um₂ (args 1).toNat vallen with
            | (none, um₃) => .ok (-EFAULT, um₃, e)
            | (some value, um₃) => do
                let newvar := cString (name ++ equalSign :: value ++ [0])
                let (r, e') ← e.storeVariable (found.map Prod.fst) newvar
                .ok (r, um₃, e')

/-! ### Inheritance -/

/-- The copies that `pload_create_process` makes of the variables from index `i` on. -/
def Environ.copyVariables (e : Environ) : ℕ → ℕ → Except Fault (List EnvSlot)
  | 0, _ => .ok []
  | n + 1, i => do
      match ← e.entry i with
      | .var s => do
          let rest ← e.copyVariables n (i + 1)
          .ok (.var s :: rest)
      | _ => .error .nullDeref

/-- The environment that a new process gets from its creator. -/
def Environ.inherit (e : Environ) : Except Fault Environ := do
  let copies ← e.copyVariables e.environc 0
  .ok { environ := copies ++ [.null], environc := e.environc }

/-- What happens to the environments along a line of processes. -/
inductive EnvCall where
  | setenv (um : UserMem) (args : SyscallArgs)
  | inherit

/-- The environment after a call, which for `inherit` is that of the new process. -/
def Environ.exec (e : Environ) : EnvCall → Except Fault Environ
  | .setenv um args => do
      let (_, _, e') ← syscallSetenv e um args
      .ok e'
  | .inherit => e.inherit

/-- One call. -/
def EnvStep (e : Environ) (c : EnvCall) (e' : Environ) : Prop := e.exec c = .ok e'

/-- The environment that `sched_create_process` leaves, or `pload_create_process` without one to
copy. -/
def EnvStart (e : Environ) : Prop := e = ⟨[], 0⟩ ∨ e = ⟨[.null], 0⟩

/-! ### The variables of an environment -/

/-- The array holds the variables `vars` and a `NULL` behind them, or nothing at all. -/
structure Environ.Holds (e : Environ) (vars : List CString) : Prop where
  count : e.environc = vars.length
  slots : ∀ i < vars.length, e.environ[i]? = (vars[i]?).map EnvSlot.var
  last : e.environ[vars.length]? = some .null ∨ e.environ = []

theorem Environ.Holds.entry {e : Environ} {vars : List CString} (h : e.Holds vars) {i : ℕ}
    (hi : i < vars.length) : e.entry i = .ok (.var vars[i]) := by
  unfold Environ.entry
  rw [h.slots i hi, List.getElem?_eq_getElem hi]
  rfl

theorem isVariable_iff {var name : CString} :
    isVariable var name = (valueIn equalSign name var).isSome := by
  unfold isVariable valueIn
  apply Bool.eq_iff_iff.mpr
  simp only [Bool.and_eq_true, decide_eq_true_eq, and_assoc]
  constructor
  · rintro ⟨-, h⟩
    rw [if_pos h]
    rfl
  · intro h
    split_ifs at h with hv
    · exact ⟨(List.getElem?_eq_some_iff.mp hv.2).1, hv⟩
    · cases h

/-- The search finds the first variable of that name. -/
theorem Environ.Holds.find {e : Environ} {vars : List CString} (h : e.Holds vars)
    (name : CString) : ∀ {n i : ℕ}, i + n = vars.length →
      ∃ o, e.findVariable name n i = .ok o ∧
        o.map Prod.fst = (position equalSign name (vars.drop i)).map (i + ·) ∧
        ∀ p ∈ o, vars[p.1]? = some p.2
  | 0, i, hi => by
      refine ⟨none, rfl, ?_, fun p hp => (by cases hp)⟩
      rw [List.drop_eq_nil_of_le (by omega)]
      rfl
  | n + 1, i, hi => by
      have hlt : i < vars.length := by omega
      unfold Environ.findVariable
      rw [h.entry hlt, ok_bind, List.drop_eq_getElem_cons hlt]
      simp only [position, List.findIdx?_cons, ← isVariable_iff]
      by_cases hv : isVariable vars[i] name = true
      · rw [if_pos hv, if_pos hv]
        refine ⟨_, rfl, rfl, fun p hp => ?_⟩
        obtain rfl := Option.some.inj hp
        exact List.getElem?_eq_getElem hlt
      · rw [if_neg hv, if_neg hv]
        obtain ⟨o, ho, hpos, hget⟩ := h.find name (n := n) (i := i + 1) (by omega)
        refine ⟨o, ho, ?_, hget⟩
        rw [hpos, Option.map_map]
        simp only [position, isVariable_iff]
        congr 1
        funext k
        simp only [Function.comp_apply]
        omega

/-- What `syscall_getenv` does with the value of each name. -/
def getenvFrom (value : CString → Option CString) (um : UserMem) (args : SyscallArgs) :
    Int × UserMem :=
  match kstrdupUser um (args 0).toNat maxEnvNameSize with
  | (.error err, um₁) => (err, um₁)
  | (.ok name, um₁) =>
      match value name with
      | none => (-ENOENT, um₁)
      | some v => copyValue um₁ (args 1).toNat (args 2).toNat v

/-- The call looks the name up among the variables. -/
theorem syscallGetenv_eq {e : Environ} {vars : List CString} (h : e.Holds vars) (um : UserMem)
    (args : SyscallArgs) : syscallGetenv e um args =
      .ok (getenvFrom (fun name => lookup equalSign name vars) um args) := by
  unfold syscallGetenv getenvFrom
  split
  · rfl
  · rename_i name um₁ _
    obtain ⟨o, ho, hpos, hget⟩ := h.find name (n := e.environc) (i := 0)
      (by rw [h.count, Nat.zero_add])
    rw [ho, ok_bind]
    rw [List.drop_zero] at hpos
    cases o with
    | none =>
        have hno : position equalSign name vars = none := Option.map_eq_none_iff.mp hpos.symm
        simp only [lookup_of_no_position hno]
    | some p =>
        obtain ⟨j, hj, hjp⟩ := Option.map_eq_some_iff.mp hpos.symm
        obtain ⟨v, hv, hjv⟩ := lookup_of_position hj
        have hp : p.2 = binding equalSign name v := by
          have := hget p rfl
          rw [← hjp, Nat.zero_add, hjv] at this
          exact (Option.some.inj this).symm
        simp only [hv, hp, binding_drop]

/-! ### What a value delivers -/

/-- What a call that delivers `v` to a buffer of `size` bytes leaves behind. -/
structure Delivers (um um' : UserMem) (buf size : ℕ) (v : CString) (r : Int) : Prop where
  result : r = 0 ∨ r = -EFAULT
  /-- The value is cut to `size - 1` bytes and terminated. -/
  stored : r = 0 → size ≠ 0 → um'.byte = overlay buf (v.take (size - 1) ++ [0]) um.byte
  succeeds : size = 0 ∨ um.Stores buf (min (v.length + 1) size) → r = 0
  outside : ∀ x, x < buf ∨ buf + size ≤ x → um'.byte x = um.byte x

theorem UserMem.Stores.shorter {um : UserMem} {buf m n : ℕ} (h : um.Stores buf n) (hm : m ≤ n) :
    um.Stores buf m := by
  obtain ⟨hdst, hend⟩ := safecpyCheckUser_iff.mp h.1
  refine ⟨safecpyCheckUser_iff.mpr ⟨hdst, by omega⟩, fun k hk => h.2 k (by omega)⟩

/-- A value that fits is copied with its terminator. -/
theorem copyValue_fits (um : UserMem) {buf size : ℕ} {v : CString} (hfit : v.length + 1 ≤ size) :
    Delivers um (copyValue um buf size v).2 buf size v (copyValue um buf size v).1 := by
  have hne : v ++ [0] ≠ [] := by simp
  have hlen : (v ++ [0]).length = v.length + 1 := by simp
  have hstores := safecpyToUser_stores_iff um buf hne
  have hbyte : (safecpyToUser um buf (v ++ [0])).1 ≠ -1 →
      (safecpyToUser um buf (v ++ [0])).2.byte = overlay buf (v ++ [0]) um.byte :=
    fun hr => safecpyToUser_ok rfl hr
  have hout : ∀ x, x < buf ∨ buf + (v.length + 1) ≤ x →
      (safecpyToUser um buf (v ++ [0])).2.byte x = um.byte x :=
    fun x hx => safecpyToUser_outside (by rwa [hlen])
  unfold copyValue
  rw [if_neg (by omega), if_neg (by omega)]
  generalize safecpyToUser um buf (v ++ [0]) = res at hstores hbyte hout ⊢
  obtain ⟨r, um'⟩ := res
  rw [hlen] at hstores
  simp only at hstores hbyte hout ⊢
  by_cases hr : r = -1
  · rw [if_pos hr]
    refine ⟨.inr rfl, fun h0 => (by cases h0), fun hs => ?_, fun x hx => hout x (by omega)⟩
    rcases hs with h0 | hs
    · omega
    · rw [Nat.min_eq_left hfit] at hs
      exact absurd hr (hstores.mpr hs)
  · rw [if_neg hr]
    refine ⟨.inl rfl, fun _ _ => ?_, fun _ => rfl, fun x hx => hout x (by omega)⟩
    rw [List.take_of_length_le (by omega)]
    exact hbyte hr

/-- A copy of the first `n` bytes of a value, possibly none. -/
theorem safecpyToUser_take (um : UserMem) (buf n : ℕ) (v : CString) :
    (if n > 0 then safecpyToUser um buf (v.take n) else (0, um)) =
      safecpyToUser um buf (v.take n) := by
  split_ifs with hn
  · rfl
  · obtain rfl : n = 0 := by omega
    rfl

/-- A value that does not fit is cut, and the terminator is stored behind it. -/
theorem copyValue_cut (um : UserMem) {buf size : ℕ} {v : CString} (hbuf : buf < 0x100000000)
    (hsize : size ≠ 0) (hcut : size < v.length + 1) :
    Delivers um (copyValue um buf size v).2 buf size v (copyValue um buf size v).1 := by
  have hlen : (v.take (size - 1)).length = size - 1 := by
    rw [List.length_take]
    omega
  -- the first copy
  have hstores : ∀ h : v.take (size - 1) ≠ [], _ :=
    fun h => safecpyToUser_stores_iff um buf h
  have hzero : v.take (size - 1) = [] → (safecpyToUser um buf (v.take (size - 1))).1 = 0 := by
    intro h
    rw [h]
    rfl
  obtain ⟨n, hn, hbyte, hwritable, hr⟩ := safecpyToUser_puts um buf (v.take (size - 1))
  unfold copyValue
  rw [if_neg hsize, if_pos (by omega)]
  simp only [safecpyToUser_take]
  generalize safecpyToUser um buf (v.take (size - 1)) = res at hstores hzero hbyte hwritable hr ⊢
  obtain ⟨r, um₁⟩ := res
  rw [hlen] at hstores hr hn
  simp only at hstores hzero hbyte hwritable hr ⊢
  have hstored : ∀ x, x < buf ∨ buf + size ≤ x → um₁.byte x = um.byte x := by
    intro x hx
    rw [hbyte]
    apply overlay_outside
    rw [List.length_take, hlen]
    omega
  by_cases hr1 : r = -1
  · rw [if_pos hr1]
    refine ⟨.inr rfl, fun h0 => (by cases h0), fun hs => ?_, hstored⟩
    exfalso
    obtain h0 | hs := hs
    · exact hsize h0
    · rw [Nat.min_eq_right (by omega)] at hs
      by_cases hnil : v.take (size - 1) = []
      · rw [hzero hnil] at hr1
        cases hr1
      · exact (hstores hnil).mpr (hs.shorter (by omega)) hr1
  -- the terminator
  have hmod : (buf + (size - 1)) % 0x100000000 = buf + (size - 1) := by
    apply Nat.mod_eq_of_lt
    by_cases hnil : v.take (size - 1) = []
    · rw [hnil, List.length_nil] at hlen
      omega
    · have hend := (safecpyCheckUser_iff.mp ((hstores hnil).mp hr1).1).2
      unfold kernelStart at hend
      omega
  have hall : um₁.byte = overlay buf (v.take (size - 1)) um.byte := by
    obtain ⟨-, rfl⟩ | hr := hr
    · rwa [List.take_of_length_le (by omega)] at hbyte
    · exact absurd hr hr1
  have hterm := safecpyToUser_stores_iff um₁ (buf + (size - 1)) (List.cons_ne_nil 0 [])
  have hout : ∀ x, x < buf ∨ buf + size ≤ x →
      (safecpyToUser um₁ (buf + (size - 1)) [0]).2.byte x = um.byte x := by
    intro x hx
    rw [safecpyToUser_outside (by rw [List.length_singleton]; omega), hstored x hx]
  have hnul : (safecpyToUser um₁ (buf + (size - 1)) [0]).1 ≠ -1 →
      (safecpyToUser um₁ (buf + (size - 1)) [0]).2.byte =
        overlay buf (v.take (size - 1) ++ [0]) um.byte := by
    intro hr2
    have hbyte₂ : (safecpyToUser um₁ (buf + (size - 1)) [0]).2.byte =
        overlay (buf + (size - 1)) [0] um₁.byte := safecpyToUser_ok rfl hr2
    rw [hbyte₂, overlay_append, hlen, hall]
  rw [if_neg hr1, hmod]
  generalize safecpyToUser um₁ (buf + (size - 1)) [0] = res at hterm hout hnul ⊢
  obtain ⟨r2, um₂⟩ := res
  simp only [List.length_singleton] at hterm hout hnul ⊢
  by_cases hr2 : r2 = -1
  · rw [if_pos hr2]
    refine ⟨.inr rfl, fun h0 => (by cases h0), fun hs => ?_, hout⟩
    exfalso
    obtain h0 | hs := hs
    · exact hsize h0
    · rw [Nat.min_eq_right (by omega)] at hs
      obtain ⟨-, hend⟩ := safecpyCheckUser_iff.mp hs.1
      refine hterm.mpr ⟨safecpyCheckUser_iff.mpr ⟨by omega, by omega⟩, fun k hk => ?_⟩ hr2
      obtain rfl : k = 0 := by omega
      rw [hwritable]
      exact hs.2 (size - 1) (by omega)
  · rw [if_neg hr2]
    exact ⟨.inl rfl, fun _ _ => hnul hr2, fun _ => rfl, hout⟩

theorem copyValue_delivers (um : UserMem) {buf : ℕ} (size : ℕ) (v : CString)
    (hbuf : buf < 0x100000000) :
    Delivers um (copyValue um buf size v).2 buf size v (copyValue um buf size v).1 := by
  by_cases hsize : size = 0
  · subst hsize
    exact ⟨.inl rfl, fun _ h => absurd rfl h, fun _ => rfl, fun _ _ => rfl⟩
  · by_cases hfit : v.length + 1 ≤ size
    · exact copyValue_fits um hfit
    · exact copyValue_cut um hbuf hsize (by omega)

/-! ### What a call stores -/

theorem Environ.Holds.environSize {e : Environ} {vars : List CString} (h : e.Holds vars) :
    vars.length < e.environSize ∨ e = ⟨[], 0⟩ := by
  obtain hlast | hlast := h.last
  · exact .inl (List.getElem?_eq_some_iff.mp hlast).1
  · right
    have hvars : vars.length = 0 := by
      by_contra hpos
      have hlt : 0 < vars.length := Nat.pos_of_ne_zero hpos
      have hslot := h.slots 0 hlt
      rw [hlast, List.getElem?_eq_getElem hlt] at hslot
      cases hslot
    have hcount := h.count.trans hvars
    cases e
    simp only at hlast hcount
    rw [hlast, hcount]

theorem Environ.putVariable_ok {e : Environ} {i : ℕ} (newvar : CString) (hi : i < e.environSize)
    (hlast : e.environc < e.environSize) : e.putVariable i newvar =
      .ok ⟨(e.environ.set i (.var newvar)).set e.environc .null, e.environc⟩ := by
  unfold Environ.putVariable
  rw [if_pos hi]
  simp only [hlast, if_true]

/-- A new value comes into the slot of the old one. -/
theorem Environ.Holds.replace {e : Environ} {vars : List CString} (h : e.Holds vars) {i : ℕ}
    (hi : i < vars.length) (newvar : CString) :
    ∃ e', e.putVariable i newvar = .ok e' ∧ e'.Holds (vars.set i newvar) ∧
      (vars.set i newvar).length < e'.environSize := by
  have hcount := h.count
  obtain hsize | rfl := h.environSize
  · have hput := e.putVariable_ok newvar (i := i) (by omega) (by omega)
    unfold Environ.environSize at hsize
    refine ⟨_, hput, ⟨by rw [List.length_set, hcount], fun j hj => ?_, ?_⟩, ?_⟩
    · rw [List.length_set] at hj
      simp only
      rw [List.getElem?_set_ne (by omega)]
      by_cases hij : i = j
      · subst hij
        rw [List.getElem?_set_self (by omega), List.getElem?_set_self hi]
        rfl
      · rw [List.getElem?_set_ne hij, List.getElem?_set_ne hij, h.slots j hj]
    · rw [List.length_set, ← hcount]
      refine .inl (List.getElem?_set_self ?_)
      rw [List.length_set]
      omega
    · unfold Environ.environSize
      rw [List.length_set, List.length_set, List.length_set]
      exact hsize
  · rw [← hcount] at hi
    exact absurd hi (Nat.not_lt_zero i)

theorem Environ.Holds.resize {e : Environ} {vars : List CString} (h : e.Holds vars) {n : ℕ}
    (hn : e.environSize ≤ n) : (e.resize n).environSize = n ∧
      ∀ i < vars.length, (e.resize n).environ[i]? = (vars[i]?).map EnvSlot.var := by
  have htake : e.environ.take n = e.environ := List.take_of_length_le hn
  unfold Environ.environSize at hn
  unfold Environ.resize Environ.environSize
  simp only [htake]
  refine ⟨by rw [List.length_append, List.length_replicate]; omega, fun i hi => ?_⟩
  have hslot := h.slots i hi
  rw [List.getElem?_eq_getElem hi] at hslot
  rw [List.getElem?_append_left (List.getElem?_eq_some_iff.mp hslot).1, h.slots i hi]

/-- `environ` after growing has room for another variable and the `NULL` behind it. -/
theorem Environ.Holds.grow {e : Environ} {vars : List CString} (h : e.Holds vars) :
    vars.length + 1 < e.grow.environSize ∧
      ∀ i < vars.length, e.grow.environ[i]? = (vars[i]?).map EnvSlot.var := by
  have hcount := h.count
  unfold Environ.grow
  split_ifs with hfull
  · have hnew : e.environSize ≤ e.newsize ∧ vars.length + 1 < e.newsize := by
      unfold Environ.newsize
      obtain hsize | rfl := h.environSize
      · rw [hcount] at hfull ⊢
        simp only
        split_ifs <;> omega
      · rw [← hcount]
        decide
    obtain ⟨hsize, hslots⟩ := h.resize hnew.1
    exact ⟨by omega, hslots⟩
  · exact ⟨by omega, h.slots⟩

/-- A new variable comes behind the last. -/
theorem Environ.Holds.append {e : Environ} {vars : List CString} (h : e.Holds vars)
    (newvar : CString) :
    ∃ e', (Environ.mk e.grow.environ (e.environc + 1)).putVariable e.environc newvar = .ok e' ∧
      e'.Holds (vars ++ [newvar]) ∧ (vars ++ [newvar]).length < e'.environSize := by
  obtain ⟨hroom, hslots⟩ := h.grow
  have hcount := h.count
  have hlen : (vars ++ [newvar]).length = vars.length + 1 := by simp
  unfold Environ.environSize at hroom
  have hput := (Environ.mk e.grow.environ (e.environc + 1)).putVariable_ok newvar (i := e.environc)
    (show e.environc < e.grow.environ.length by omega)
    (show e.environc + 1 < e.grow.environ.length by omega)
  refine ⟨_, hput, ⟨by rw [hlen, hcount], fun i hi => ?_, ?_⟩, ?_⟩
  · rw [hlen] at hi
    simp only
    rw [List.getElem?_set_ne (by omega)]
    by_cases hi' : i = vars.length
    · subst hi'
      rw [hcount, List.getElem?_set_self (by omega), List.getElem?_concat_length]
      rfl
    · rw [List.getElem?_set_ne (by omega), hslots i (by omega),
        List.getElem?_append_left (by omega)]
  · rw [hlen, ← hcount]
    refine .inl (List.getElem?_set_self ?_)
    rw [List.length_set]
    exact show e.environc + 1 < e.grow.environ.length by omega
  · rw [hlen]
    unfold Environ.environSize
    rw [List.length_set, List.length_set]
    exact hroom

/-- The variable is stored as the list of variables assigns it. -/
theorem Environ.Holds.store {e : Environ} {vars : List CString} (h : e.Holds vars)
    (name v : CString) :
    ∃ r e', e.storeVariable (position equalSign name vars) (binding equalSign name v) = .ok (r, e') ∧
      (r = -ENOSPC ∧ e' = e ∨
        r = 0 ∧ e'.Holds (assign equalSign name v vars) ∧
          (assign equalSign name v vars).length < e'.environSize ∧
          (assign equalSign name v vars).length ≤ max vars.length maxEnvironVars) := by
  cases hpos : position equalSign name vars with
  | none =>
      unfold Environ.storeVariable
      simp only
      by_cases hfull : e.environc ≥ maxEnvironVars
      · rw [if_pos hfull]
        exact ⟨_, _, rfl, .inl ⟨rfl, rfl⟩⟩
      · obtain ⟨e', hput, hholds, hsize⟩ := h.append (binding equalSign name v)
        rw [if_neg hfull, hput, ok_bind, assign_of_no_position hpos]
        refine ⟨_, _, rfl, .inr ⟨rfl, hholds, hsize, ?_⟩⟩
        rw [List.length_append, List.length_singleton, ← h.count]
        omega
  | some i =>
      obtain ⟨u, -, hget⟩ := lookup_of_position hpos
      obtain ⟨hi, -⟩ := List.getElem?_eq_some_iff.mp hget
      obtain ⟨e', hput, hholds, hsize⟩ := h.replace hi (binding equalSign name v)
      unfold Environ.storeVariable
      simp only
      rw [hput, ok_bind, assign_of_position hpos]
      refine ⟨_, _, rfl, .inr ⟨rfl, hholds, hsize, ?_⟩⟩
      rw [List.length_set]
      exact Nat.le_max_left ..

/-- The call returns an error and changes nothing, or it assigns the value to the name. -/
theorem syscallSetenv_holds {e : Environ} {vars : List CString} (h : e.Holds vars) (um : UserMem)
    (args : SyscallArgs) :
    ∃ r um' e', syscallSetenv e um args = .ok (r, um', e') ∧
      (r ≠ 0 ∧ e' = e ∨
        r = 0 ∧ ∃ k v, UserString um (args 0).toNat k ∧ UserString um (args 1).toNat v ∧
          e'.Holds (assign equalSign k v vars) ∧
          (assign equalSign k v vars).length < e'.environSize ∧
          (assign equalSign k v vars).length ≤ max vars.length maxEnvironVars) := by
  have hsame₁ := kstrdupUser_same um (args 0).toNat maxEnvNameSize
  unfold syscallSetenv
  split
  · rename_i err um₁ heq
    refine ⟨_, _, _, rfl, .inl ⟨?_, rfl⟩⟩
    obtain rfl | rfl := kstrdupUser_error (congrArg Prod.fst heq)
    · decide
    · decide
  · rename_i name um₁ heq
    obtain ⟨hname, -⟩ := kstrdupUser_ok (congrArg Prod.fst heq)
    rw [heq] at hsame₁
    by_cases hempty : name.length = 0
    · rw [if_pos hempty]
      exact ⟨_, _, _, rfl, .inl ⟨by decide, rfl⟩⟩
    rw [if_neg hempty]
    have hsame₂ := safelenMaxErr_same um₁ (args 1).toNat (maxEnvValueSize + 1)
    split
    · rename_i err um₂ heq₂
      refine ⟨_, _, _, rfl, .inl ⟨?_, rfl⟩⟩
      obtain rfl | rfl := safelenMaxErr_error (congrArg Prod.fst heq₂)
      · decide
      · decide
    · rename_i vallen um₂ heq₂
      obtain ⟨-, hvalue⟩ := safelenMaxErr_ok (congrArg Prod.fst heq₂)
      rw [heq₂] at hsame₂
      obtain ⟨o, ho, hpos, -⟩ := h.find name (n := e.environc) (i := 0)
        (by rw [h.count, Nat.zero_add])
      rw [ho, ok_bind]
      split
      · exact ⟨_, _, _, rfl, .inl ⟨by decide, rfl⟩⟩
      · rename_i value um₃ heq₃
        have hread : value = um₁.bytesAt (args 1).toNat vallen :=
          (safecpyFromUser_some heq₃).trans (hsame₂.bytesAt _ _)
        rw [← hread] at hvalue
        have hvar : cString (name ++ equalSign :: value ++ [0]) = binding equalSign name value := by
          apply cString_append
          rw [List.mem_append, List.mem_cons, not_or, not_or]
          exact ⟨hname.noNul, by decide, hvalue.noNul⟩
        have hindex : o.map Prod.fst = position equalSign name vars := by
          rw [hpos, List.drop_zero]
          simp
        obtain ⟨r, e', hstore, hcases⟩ := h.store name value
        simp only [hvar, hindex, hstore, ok_bind]
        refine ⟨r, um₃, e', rfl, ?_⟩
        obtain ⟨rfl, rfl⟩ | ⟨rfl, hholds, hsize, hmax⟩ := hcases
        · exact .inl ⟨by decide, rfl⟩
        · exact .inr ⟨rfl, name, value, hname, (UserString.same hsame₁).mp hvalue, hholds, hsize,
            hmax⟩

/-! ### Every environment of a process -/

theorem Environ.Holds.copies {e : Environ} {vars : List CString} (h : e.Holds vars) :
    ∀ {n i : ℕ}, i + n = vars.length → e.copyVariables n i = .ok ((vars.drop i).map EnvSlot.var)
  | 0, i, hi => by
      rw [List.drop_eq_nil_of_le (by omega)]
      rfl
  | n + 1, i, hi => by
      have hlt : i < vars.length := by omega
      unfold Environ.copyVariables
      rw [h.entry hlt, ok_bind, List.drop_eq_getElem_cons hlt]
      simp only [h.copies (n := n) (i := i + 1) (by omega), ok_bind, List.map_cons]

/-- A new process has the variables of its creator. -/
theorem Environ.Holds.inherit {e : Environ} {vars : List CString} (h : e.Holds vars) :
    ∃ e', e.inherit = .ok e' ∧ e'.Holds vars ∧ e'.environSize = vars.length + 1 := by
  unfold Environ.inherit
  rw [h.copies (by rw [h.count, Nat.zero_add]), ok_bind, List.drop_zero]
  refine ⟨_, rfl, ⟨h.count, fun i hi => ?_, .inl ?_⟩, by simp [Environ.environSize]⟩
  · rw [List.getElem?_append_left (by rwa [List.length_map]), List.getElem?_map]
  · simp

/-- The array of a process, of which the record of the process keeps the variables and the size. -/
structure Environ.Shows (e : Environ) (p : Process) : Prop where
  holds : e.Holds p.environ
  size : e.environSize = p.environSize

/-- `pload_create_process` fills in the environment that the record of the new process shows. -/
theorem Environ.Shows.inherit {s : Kernel} {e : Environ} {cur p p' : Process} (h : e.Shows cur)
    (hcur : s.currentProcess = .ok cur) (hp : inheritEnviron s p false = .ok p') :
    ∃ e', e.inherit = .ok e' ∧ e'.Shows p' := by
  obtain ⟨e', he, hholds, hsize⟩ := h.holds.inherit
  refine ⟨e', he, ?_⟩
  unfold inheritEnviron at hp
  simp only [Bool.false_eq_true, if_false, hcur, ok_bind] at hp
  split at hp
  · cases hp
  · obtain rfl := Except.ok.inj hp
    exact ⟨hholds, hsize⟩

theorem environ_holds {e : Environ} (h : Reach EnvStep (fun _ _ => True) EnvStart e) :
    ∃ vars, e.Holds vars ∧ vars.length ≤ maxEnvironVars := by
  apply h.invariant (I := fun e => ∃ vars, e.Holds vars ∧ vars.length ≤ maxEnvironVars)
  · rintro e (rfl | rfl)
    · exact ⟨[], ⟨rfl, fun i hi => absurd hi (Nat.not_lt_zero i), .inr rfl⟩, Nat.zero_le _⟩
    · exact ⟨[], ⟨rfl, fun i hi => absurd hi (Nat.not_lt_zero i), .inl rfl⟩, Nat.zero_le _⟩
  · rintro e c e' ⟨vars, hholds, hmax⟩ - hstep
    unfold EnvStep Environ.exec at hstep
    cases c with
    | setenv um args =>
        obtain ⟨r, um', e₁, hcall, hcases⟩ := syscallSetenv_holds hholds um args
        simp only [hcall, ok_bind] at hstep
        obtain rfl := Except.ok.inj hstep
        obtain ⟨-, rfl⟩ | ⟨-, k, v, -, -, hholds', -, hmax'⟩ := hcases
        · exact ⟨vars, hholds, hmax⟩
        · exact ⟨_, hholds', hmax'.trans (max_le hmax (Nat.le_refl _))⟩
    | inherit =>
        obtain ⟨e₁, hcall, hholds', -⟩ := hholds.inherit
        obtain rfl := Except.ok.inj (hcall.symm.trans hstep)
        exact ⟨vars, hholds', hmax⟩

/-! ### A dictionary -/

/-- The variables that the array holds. -/
def Environ.variables (e : Environ) : List CString :=
  (e.environ.take e.environc).filterMap fun
    | .var s => some s
    | _ => none

theorem Environ.Holds.variables {e : Environ} {vars : List CString} (h : e.Holds vars) :
    e.variables = vars := by
  have htake : e.environ.take e.environc = vars.map EnvSlot.var := by
    apply List.ext_getElem?
    intro i
    rw [List.getElem?_take, h.count, List.getElem?_map]
    split_ifs with hi
    · exact h.slots i hi
    · rw [List.getElem?_eq_none (by omega)]
      rfl
  unfold Environ.variables
  rw [htake, List.filterMap_map]
  exact List.filterMap_some

/-- The name that `syscall_getenv` reads is `k`. -/
def NameAt (um : UserMem) (args : SyscallArgs) (k : CString) : Prop :=
  (kstrdupUser um (args 0).toNat maxEnvNameSize).1 = .ok k

/-- The name `k'` reads neither the variable `k=v` nor the one in whose place it comes. -/
def Apart (vars : List CString) (k v k' : CString) : Prop :=
  valueIn equalSign k' (binding equalSign k v) = none ∧
    ∀ u, lookup equalSign k vars = some u → valueIn equalSign k' (binding equalSign k u) = none

theorem Apart.of_plain {vars : List CString} {k v k' : CString} (hk : equalSign ∉ k)
    (hk' : equalSign ∉ k') (hne : k' ≠ k) : Apart vars k v k' :=
  ⟨valueIn_plain v hk hk' hne, fun u _ => valueIn_plain u hk hk' hne⟩

/-- The call gets the value that was assigned. -/
theorem syscallGetenv_assigned {e : Environ} {vars : List CString} {k v : CString}
    (h : e.Holds (assign equalSign k v vars)) {um : UserMem} {args : SyscallArgs}
    (hk : NameAt um args k) : ∃ r um', syscallGetenv e um args = .ok (r, um') ∧
      Delivers um um' (args 1).toNat (args 2).toNat v r := by
  refine ⟨_, _, syscallGetenv_eq h um args, ?_⟩
  have hsame := kstrdupUser_same um (args 0).toNat maxEnvNameSize
  unfold NameAt at hk
  generalize kstrdupUser um (args 0).toNat maxEnvNameSize = res at hk hsame ⊢
  obtain ⟨name, um₁⟩ := res
  simp only at hk hsame
  subst hk
  simp only [lookup_assign_self]
  obtain ⟨hresult, hstored, hsucceeds, houtside⟩ := copyValue_delivers um₁ (args 2).toNat v
    (args 1).toNat_lt
  rw [hsame.byte] at hstored houtside
  refine ⟨hresult, hstored, fun hs => hsucceeds (hs.imp_right fun hs => ⟨hs.1, ?_⟩), houtside⟩
  rw [hsame.writable]
  exact hs.2

/-- A name that reads the same value gets the same result. -/
theorem getenvFrom_congr {value value' : CString → Option CString} {um : UserMem}
    {args : SyscallArgs} {k : CString} (hk : NameAt um args k) (h : value k = value' k) :
    getenvFrom value um args = getenvFrom value' um args := by
  unfold NameAt at hk
  unfold getenvFrom
  generalize kstrdupUser um (args 0).toNat maxEnvNameSize = res at hk ⊢
  obtain ⟨name, um₁⟩ := res
  simp only at hk
  subst hk
  simp only [h]

/-- In every environment of a process, `syscall_setenv` changes nothing when it fails, and otherwise
assigns a value to the name, as `syscall_getenv` reads it, and leaves the names alone that read
neither the new variable nor the one it replaces. -/
theorem environ_dictionary {e : Environ} (h : Reach EnvStep (fun _ _ => True) EnvStart e)
    (um : UserMem) (args : SyscallArgs) :
    ∃ r um' e', syscallSetenv e um args = .ok (r, um', e') ∧ e'.environc ≤ maxEnvironVars ∧
      (r ≠ 0 → e' = e) ∧
      (r = 0 → e'.environc < e'.environSize ∧ e'.entry e'.environc = .ok .null ∧
        ∃ k v, UserString um (args 0).toNat k ∧ UserString um (args 1).toNat v ∧
          (∀ um₂ args₂, NameAt um₂ args₂ k → ∃ r₂ um₂', syscallGetenv e' um₂ args₂ = .ok (r₂, um₂') ∧
            Delivers um₂ um₂' (args₂ 1).toNat (args₂ 2).toNat v r₂) ∧
          ∀ um₂ args₂ k', NameAt um₂ args₂ k' →
            (k' ≠ k ∧ equalSign ∉ k ∧ equalSign ∉ k') ∨ Apart e.variables k v k' →
              syscallGetenv e' um₂ args₂ = syscallGetenv e um₂ args₂) := by
  obtain ⟨vars, hholds, hmax⟩ := environ_holds h
  obtain ⟨r, um', e', hcall, hcases⟩ := syscallSetenv_holds hholds um args
  refine ⟨r, um', e', hcall, ?_⟩
  obtain ⟨hr, rfl⟩ | ⟨rfl, k, v, hk, hv, hholds', hsize, hmax'⟩ := hcases
  · exact ⟨by rwa [hholds.count], fun _ => rfl, fun h0 => absurd h0 hr⟩
  · have hcount := hholds'.count
    refine ⟨by omega, fun h0 => absurd rfl h0, fun _ => ⟨by omega, ?_, k, v, hk, hv,
      fun um₂ args₂ hname => syscallGetenv_assigned hholds' hname,
      fun um₂ args₂ k' hname hother => ?_⟩⟩
    · have hlast : e'.environ[e'.environc]? = some .null := by
        obtain hlast | hnil := hholds'.last
        · rwa [hcount]
        · unfold Environ.environSize at hsize
          rw [hnil] at hsize
          exact absurd hsize (Nat.not_lt_zero _)
      unfold Environ.entry
      rw [hlast]
    · have hapart : Apart vars k v k' := by
        rw [hholds.variables] at hother
        obtain ⟨hne, hplain, hplain'⟩ | hapart := hother
        · exact .of_plain hplain hplain' hne
        · exact hapart
      rw [syscallGetenv_eq hholds', syscallGetenv_eq hholds]
      exact congrArg Except.ok
        (getenvFrom_congr hname (lookup_assign_other hapart.1 hapart.2))

/-- A page with the strings `A`, `B=c` and `A=B`. -/
def envMemory : UserMem where
  byte a := [65, 0, 66, 61, 99, 0, 65, 61, 66, 0].getD (a - 0x1000) 0
  readable a := decide (0x1000 ≤ a) && decide (a < 0x2000)
  writable a := decide (0x1000 ≤ a) && decide (a < 0x2000)
  touched := []

/-- Set `A` to `B=c`. -/
def setArgs : SyscallArgs := fun i => if i = 0 then 0x1000 else 0x1002

/-- Get the variable with the name at `a` into a buffer of 8 bytes. -/
def getArgs (a : UInt32) : SyscallArgs := fun i => if i = 0 then a else if i = 1 then 0x1100 else 8

theorem envMemory_set : OkAnd (syscallSetenv ⟨[.null], 0⟩ envMemory setArgs) fun x =>
    x.1 = 0 ∧ x.2.2 = ⟨[.var [65, 61, 66, 61, 99], .null], 1⟩ := by
  decide +kernel

theorem envMemory_before : OkAnd (syscallGetenv ⟨[.null], 0⟩ envMemory (getArgs 0x1006)) fun x =>
    x.1 = -ENOENT := by
  decide +kernel

theorem envMemory_after :
    OkAnd (syscallGetenv ⟨[.var [65, 61, 66, 61, 99], .null], 1⟩ envMemory (getArgs 0x1006)) fun x =>
      x.1 = 0 := by
  decide +kernel

theorem envMemory_name {a : UInt32} {k : CString}
    (h : (kstrdupUser envMemory a.toNat maxEnvNameSize).1.toOption = some k) :
    NameAt envMemory (getArgs a) k := by
  unfold NameAt getArgs
  rw [if_pos rfl]
  cases hk : (kstrdupUser envMemory a.toNat maxEnvNameSize).1 with
  | error err => rw [hk] at h; cases h
  | ok name => rw [hk] at h; exact congrArg Except.ok (Option.some.inj h)

/-- Setting `A` to `B=c` gives a value to `A=B`. -/
theorem environ_reads_other : ¬∀ e um args r um' e', Reach EnvStep (fun _ _ => True) EnvStart e →
    syscallSetenv e um args = .ok (r, um', e') → r = 0 →
      ∀ k, UserString um (args 0).toNat k → ∀ um₂ args₂ k', NameAt um₂ args₂ k' → k' ≠ k →
        syscallGetenv e' um₂ args₂ = syscallGetenv e um₂ args₂ := by
  intro h
  obtain ⟨⟨r, um', e'⟩, hset, hr, he⟩ := envMemory_set.exists_ok
  obtain ⟨before, hbefore, hb⟩ := envMemory_before.exists_ok
  obtain ⟨after, hafter, ha⟩ := envMemory_after.exists_ok
  simp only at hr he
  have hk : UserString envMemory 0x1000 [65] := ⟨by decide, by decide, by decide⟩
  have hname : NameAt envMemory (getArgs 0x1006) [65, 61, 66] := envMemory_name (by decide +kernel)
  have hsame := h _ _ _ r um' e' (.start (.inr rfl)) hset hr [65] hk envMemory (getArgs 0x1006)
    [65, 61, 66] hname (by decide)
  rw [he, hbefore, hafter] at hsame
  rw [Except.ok.inj hsame, hb] at ha
  cases ha

/-- The name `A` is set to `B=c` in an empty environment, and read back. -/
theorem environ_dictionary_set : Reach EnvStep (fun _ _ => True) EnvStart ⟨[.null], 0⟩ ∧
    ∃ r um' e', syscallSetenv ⟨[.null], 0⟩ envMemory setArgs = .ok (r, um', e') ∧
      e'.environc ≤ maxEnvironVars ∧ e'.environc < e'.environSize := by
  have hstart : Reach EnvStep (fun _ _ => True) EnvStart ⟨[.null], 0⟩ := .start (.inr rfl)
  obtain ⟨⟨r, um', e'⟩, hset, hr, -⟩ := envMemory_set.exists_ok
  obtain ⟨r₁, um₁, e₁, hcall, hmax, -, hdone⟩ := environ_dictionary hstart envMemory setArgs
  have heq := Except.ok.inj (hset.symm.trans hcall)
  simp only [Prod.mk.injEq] at heq hr
  exact ⟨hstart, r₁, um₁, e₁, hcall, hmax, (hdone (heq.1 ▸ hr)).1⟩

end GalaxyOS
