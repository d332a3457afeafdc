import Xv6.Vm.Process

/-!
# The arguments of system calls

`fetchint`, `fetchstr`, `argint`, `argptr` and `argstr` of `syscall.c`, and the loop of `sys_exec`.
The kernel reads the memory of the process at user addresses; `Fetch` records each address that is
read.  Words are unsigned 32-bit numbers, and an `int` that is used as a pointer is one of them.

* `Inside` : a function returns a value and reads no byte outside of the process.
* `fetchint_inside`, `fetchstr_inside`, … : one such specification for each function.
* `args_inside` : **the arguments of system calls are inside the process**, for every stack pointer
  and size.
-/

namespace Xv6

namespace Syscall

open Vm (kernBase maxarg)

/-- What the functions use of a process: its size, its stack pointer and its memory. -/
structure Proc where
  sz : ℕ
  esp : ℕ
  mem : Bytes

/-- Functions that read user memory, with the addresses they have read. -/
abbrev Fetch := StateM (List ℕ)

variable (p : Proc)

/-- Read the byte at `a`. -/
def load (a : ℕ) : Fetch UInt8 := do
  modify (· ++ [a])
  return p.mem a

/-- Read the word at `a`. -/
def loadWord (a : ℕ) : Fetch ℕ := do
  let b₀ ← load p a
  let b₁ ← load p (a + 1)
  let b₂ ← load p (a + 2)
  let b₃ ← load p (a + 3)
  return b₀.toNat + 256 * (b₁.toNat + 256 * (b₂.toNat + 256 * b₃.toNat))

/-- `fetchint` -/
def fetchint (addr : ℕ) : Fetch (Option ℕ) := do
  if p.sz ≤ addr ∨ p.sz < (addr + 4) % Vm.uintSize then return none
  else return some (← loadWord p addr)

/-- The loop of `fetchstr` from `s` on, with `n` bytes left before `ep`. -/
def fetchstrLoop (addr : ℕ) : ℕ → ℕ → Fetch (Option ℕ)
  | 0, _ => return none
  | n + 1, s => do
    if (← load p s) = 0 then return some (s - addr)
    else fetchstrLoop addr n (s + 1)

/-- `fetchstr`: the length of the string. -/
def fetchstr (addr : ℕ) : Fetch (Option ℕ) := do
  if p.sz ≤ addr then return none
  else fetchstrLoop p addr (p.sz - addr) addr

/-- The address of argument `n`. -/
def argAddr (n : ℤ) : ℕ := ((p.esp + 4 + 4 * n) % Vm.uintSize).toNat

/-- `argint` -/
def argint (n : ℤ) : Fetch (Option ℕ) := fetchint p (argAddr p n)

/-- `argptr`: the pointer. -/
def argptr (n size : ℤ) : Fetch (Option ℕ) := do
  match ← argint p n with
  | none => return none
  | some i =>
    if size < 0 ∨ p.sz ≤ i ∨ p.sz < (i + size) % Vm.uintSize then return none
    else return some i

/-- `argstr`: the pointer and the length of the string. -/
def argstr (n : ℤ) : Fetch (Option (ℕ × ℕ)) := do
  match ← argint p n with
  | none => return none
  | some addr =>
    match ← fetchstr p addr with
    | none => return none
    | some len => return some (addr, len)

/-- The loop of `sys_exec` from index `i` on, with `n` entries of `argv` left. -/
def sysExecLoop (uargv : ℕ) : ℕ → ℕ → List ℕ → Fetch (Option (List ℕ))
  -- i >= NELEM(argv)
  | 0, _, _ => return none
  | n + 1, i, argv => do
    match ← fetchint p ((uargv + 4 * i) % Vm.uintSize) with
    | none => return none
    | some uarg =>
      if uarg = 0 then return some argv
      else
        match ← fetchstr p uarg with
        | none => return none
        | some _ => sysExecLoop uargv n (i + 1) (argv ++ [uarg])

/-- `sys_exec`: the path and the strings that are given to `exec`. -/
def sysExec : Fetch (Option (ℕ × List ℕ)) := do
  match ← argstr p 0 with
  | none => return none
  | some (path, _) =>
    match ← argint p 1 with
    | none => return none
    | some uargv =>
      match ← sysExecLoop p uargv maxarg 0 [] with
      | none => return none
      | some argv => return some (path, argv)

/-! ### What is expected -/

/-- The word at `a` is in the process. -/
def Proc.Readable (a : ℕ) : Prop := ∀ i < 4, (a + i) % Vm.uintSize < p.sz

/-- The word at `a`. -/
def Proc.word (a : ℕ) : ℕ := p.mem.getLE 4 a

/-- A string of `len` bytes starts at `a`: the first NUL before the end of the process is behind
them. -/
structure Proc.Str (a len : ℕ) : Prop where
  lt : a + len < p.sz
  nul : p.mem (a + len) = 0
  first : ∀ i < len, p.mem (a + i) ≠ 0

/-- The function returns `r`, and reads addresses below `sz` only. -/
def Inside {α : Type} (f : Fetch α) (r : α) : Prop := ∀ log, ∃ l, f log = (r, log ++ l) ∧
    ∀ a ∈ l, a < p.sz

variable {p} {α β : Type} {f : Fetch α} {g : α → Fetch β} {r : α} {r' : β} {a addr n len : ℕ}

theorem Inside.pure (r : α) : Inside p (pure r : Fetch α) r :=
  fun log => ⟨[], by rw [List.append_nil]; rfl, by simp⟩

theorem Inside.bind (hf : Inside p f r) (hg : Inside p (g r) r') : Inside p (f >>= g) r' := by
  intro log
  obtain ⟨l, hl, hin⟩ := hf log
  obtain ⟨l', hl', hin'⟩ := hg (log ++ l)
  refine ⟨l ++ l', ?_, fun a ha => (List.mem_append.1 ha).elim (hin a) (hin' a)⟩
  rw [← List.append_assoc, ← hl']
  show g (f log).1 (f log).2 = _
  rw [hl]

theorem inside_load (ha : a < p.sz) : Inside p (load p a) (p.mem a) :=
  fun _ => ⟨[a], rfl, by simpa using ha⟩

theorem inside_loadWord (ha : a + 4 ≤ p.sz) : Inside p (loadWord p a) (p.word a) := by
  unfold loadWord
  refine (inside_load (by omega)).bind ?_
  refine (inside_load (by omega)).bind ?_
  refine (inside_load (by omega)).bind ?_
  refine (inside_load (by omega)).bind ?_
  exact .pure _

/-! ### Words -/

theorem readable_iff (hsz : p.sz ≤ kernBase) (ha : addr < Vm.uintSize) :
    p.Readable addr ↔ addr + 4 ≤ p.sz := by
  simp only [kernBase] at hsz
  simp only [Proc.Readable, Vm.uintSize] at ha ⊢
  constructor
  · intro h
    have h0 := h 0 (by omega)
    have h3 := h 3 (by omega)
    omega
  · intro h i hi
    omega

theorem fetchint_inside (hsz : p.sz ≤ kernBase) (ha : addr < Vm.uintSize) :
    ∃ r, Inside p (fetchint p addr) r ∧ ∀ v, r = some v ↔ p.Readable addr ∧ v = p.word addr := by
  rw [readable_iff hsz ha]
  unfold fetchint
  by_cases h : addr + 4 ≤ p.sz
  · have hmod : (addr + 4) % Vm.uintSize = addr + 4 :=
      Nat.mod_eq_of_lt (by simp only [kernBase, Vm.uintSize] at *; omega)
    rw [hmod, if_neg (by omega)]
    refine ⟨some (p.word addr), (inside_loadWord h).bind (.pure _), fun v => ?_⟩
    rw [Option.some.injEq]
    exact ⟨fun hv => ⟨h, hv.symm⟩, fun hv => hv.2.symm⟩
  rw [if_pos]
  · exact ⟨none, .pure none, fun v => ⟨fun hv => (by cases hv), fun hv => absurd hv.1 h⟩⟩
  -- an address below `sz` does not wrap
  by_cases hlt : p.sz ≤ addr
  · exact .inl hlt
  · rw [Nat.mod_eq_of_lt (by simp only [kernBase, Vm.uintSize] at *; omega)]
    exact .inr (by omega)

theorem argAddr_lt (n : ℤ) : argAddr p n < Vm.uintSize := by
  unfold argAddr
  simp only [Vm.uintSize]
  omega

theorem argint_inside (hsz : p.sz ≤ kernBase) (n : ℤ) :
    ∃ r, Inside p (argint p n) r ∧ ∀ v, r = some v ↔ p.Readable (argAddr p n) ∧
    v = p.word (argAddr p n) :=
  fetchint_inside hsz (argAddr_lt n)

theorem argptr_inside (hsz : p.sz ≤ kernBase) (n : ℤ) {size : ℤ} (hsize : size < 2 ^ 31) :
    ∃ r, Inside p (argptr p n size) r ∧ ∀ v, r = some v ↔
      (p.Readable (argAddr p n) ∧ v = p.word (argAddr p n)) ∧ 0 ≤ size ∧ v < p.sz ∧
      v + size ≤ p.sz := by
  obtain ⟨r, hr, hv⟩ := argint_inside hsz n
  unfold argptr
  cases r with
  | none =>
    refine ⟨none, hr.bind (.pure none), fun v => ⟨fun h => (by cases h), fun h => ?_⟩⟩
    cases (hv v).2 h.1
  | some i =>
  have hi := (hv i).1 rfl
  by_cases hbad : size < 0 ∨ p.sz ≤ i ∨ (p.sz : ℤ) < (i + size) % Vm.uintSize
  · refine ⟨none, hr.bind ?_, fun v => ⟨fun h => (by cases h), fun h => ?_⟩⟩
    · show Inside p (if _ then _ else _) _
      rw [if_pos hbad]
      exact .pure none
    obtain ⟨⟨-, rfl⟩, h0, hlt, hle⟩ := h
    rw [hi.2] at hbad
    rw [Int.emod_eq_of_lt (by omega) (by simp only [kernBase, Vm.uintSize] at *; omega)] at hbad
    omega
  refine ⟨some i, hr.bind ?_, fun v => ?_⟩
  · show Inside p (if _ then _ else _) _
    rw [if_neg hbad]
    exact .pure (some i)
  rw [← hv v]
  refine ⟨fun h => ⟨h, ?_⟩, And.left⟩
  cases h
  have hmod : ((i : ℤ) + size) % Vm.uintSize = i + size :=
    Int.emod_eq_of_lt (by omega) (by simp only [kernBase, Vm.uintSize] at *; omega)
  rw [hmod] at hbad
  omega

/-! ### Strings -/

theorem Proc.Str.unique {len' : ℕ} (h : p.Str a len) (h' : p.Str a len') : len = len' := by
  rcases lt_trichotomy len len' with hlt | heq | hlt
  · exact absurd h.nul (h'.first len hlt)
  · exact heq
  · exact absurd h'.nul (h.first len' hlt)

/-- The loop, when no NUL has been found before `addr + k`. -/
theorem fetchstrLoop_inside {k : ℕ} (hn : addr + k + n = p.sz)
    (hno : ∀ i < k, p.mem (addr + i) ≠ 0) :
    ∃ r, Inside p (fetchstrLoop p addr n (addr + k)) r ∧ ∀ len, r = some len ↔ p.Str addr len := by
  induction n generalizing k with
  | zero =>
    refine ⟨none, .pure none, fun len => ⟨fun h => (by cases h), fun h => ?_⟩⟩
    have hlt := h.lt
    exact absurd h.nul (hno len (by omega))
  | succ n ih =>
    rw [fetchstrLoop]
    have hload : Inside p (load p (addr + k)) (p.mem (addr + k)) := inside_load (by omega)
    by_cases h0 : p.mem (addr + k) = 0
    · have hstr : p.Str addr k := ⟨by omega, h0, hno⟩
      refine ⟨some k, hload.bind ?_, fun len => ?_⟩
      · rw [if_pos h0, Nat.add_sub_cancel_left]
        exact .pure (some k)
      · rw [Option.some.injEq]
        exact ⟨fun h => h ▸ hstr, fun h => hstr.unique h⟩
    obtain ⟨r, hr, hlen⟩ := @ih (k + 1) (by omega) fun i hi => by
      by_cases hik : i = k
      · rwa [hik]
      · exact hno i (by omega)
    refine ⟨r, hload.bind ?_, hlen⟩
    rw [if_neg h0]
    exact hr

theorem fetchstr_inside (p : Proc) (addr : ℕ) :
    ∃ r, Inside p (fetchstr p addr) r ∧ ∀ len, r = some len ↔ p.Str addr len := by
  unfold fetchstr
  by_cases h : p.sz ≤ addr
  · rw [if_pos h]
    refine ⟨none, .pure none, fun len => ⟨fun h => (by cases h), fun hs => ?_⟩⟩
    have hlt := hs.lt
    omega
  · rw [if_neg h]
    exact @fetchstrLoop_inside p addr (p.sz - addr) 0 (by omega) fun i hi =>
      absurd hi (Nat.not_lt_zero i)

theorem argstr_inside (hsz : p.sz ≤ kernBase) (n : ℤ) :
    ∃ r, Inside p (argstr p n) r ∧ ∀ v len, r = some (v, len) ↔
      (p.Readable (argAddr p n) ∧ v = p.word (argAddr p n)) ∧ p.Str v len := by
  obtain ⟨r, hr, hv⟩ := argint_inside hsz n
  unfold argstr
  cases r with
  | none =>
    refine ⟨none, hr.bind (.pure none), fun v len => ⟨fun h => (by cases h), fun h => ?_⟩⟩
    cases (hv v).2 h.1
  | some addr =>
  obtain ⟨r', hr', hlen⟩ := fetchstr_inside p addr
  have haddr := (hv addr).1 rfl
  cases r' with
  | none =>
    refine ⟨none, hr.bind (hr'.bind (.pure none)), fun v len =>
      ⟨fun h => (by cases h), fun h => ?_⟩⟩
    rw [h.1.2, ← haddr.2] at h
    cases (hlen len).2 h.2
  | some len' =>
  refine ⟨some (addr, len'), hr.bind (hr'.bind (.pure _)), fun v len => ?_⟩
  rw [← hv v]
  constructor
  · intro h
    cases h
    exact ⟨rfl, (hlen len').1 rfl⟩
  rintro ⟨h, hs⟩
  cases h
  obtain rfl := Option.some.inj ((hlen len).2 hs)
  rfl

/-! ### `sys_exec` -/

/-- What `exec` may be given: the words of the array `uargv` up to a null pointer, fewer than
`MAXARG` of them, each of them a string. -/
structure Proc.Passed (p : Proc) (uargv : ℕ) (argv : List ℕ) : Prop where
  lt : argv.length < maxarg
  arg : ∀ (i a : ℕ), argv[i]? = some a → p.Readable ((uargv + 4 * i) % Vm.uintSize) ∧
    a = p.word ((uargv + 4 * i) % Vm.uintSize) ∧ a ≠ 0 ∧ ∃ len, p.Str a len
  null : p.Readable ((uargv + 4 * argv.length) % Vm.uintSize) ∧
    p.word ((uargv + 4 * argv.length) % Vm.uintSize) = 0

theorem sysExecLoop_inside (hsz : p.sz ≤ kernBase) {uargv : ℕ} {argv : List ℕ}
    (hn : argv.length + n = maxarg) (harg : ∀ (i a : ℕ), argv[i]? = some a →
      p.Readable ((uargv + 4 * i) % Vm.uintSize) ∧
      a = p.word ((uargv + 4 * i) % Vm.uintSize) ∧ a ≠ 0 ∧ ∃ len, p.Str a len) :
    ∃ r, Inside p (sysExecLoop p uargv n argv.length argv) r ∧ ∀ argv', r = some argv' →
    p.Passed uargv argv' := by
  induction n generalizing argv with
  | zero => exact ⟨none, .pure none, fun argv' h => (by cases h)⟩
  | succ n ih =>
    rw [sysExecLoop]
    obtain ⟨r, hr, hv⟩ := @fetchint_inside p ((uargv + 4 * argv.length) % Vm.uintSize) hsz
      (Nat.mod_lt _ (by decide))
    cases r with
    | none => exact ⟨none, hr.bind (.pure none), fun argv' h => (by cases h)⟩
    | some uarg =>
    obtain ⟨hread, hword⟩ := (hv uarg).1 rfl
    by_cases h0 : uarg = 0
    · refine ⟨some argv, hr.bind ?_, fun argv' h => ?_⟩
      · show Inside p (if _ then _ else _) _
        rw [if_pos h0]
        exact .pure (some argv)
      · cases h
        exact ⟨by omega, harg, hread, hword ▸ h0⟩
    obtain ⟨r', hr', hlen⟩ := fetchstr_inside p uarg
    cases r' with
    | none =>
      refine ⟨none, hr.bind ?_, fun argv' h => (by cases h)⟩
      show Inside p (if _ then _ else _) _
      rw [if_neg h0]
      exact hr'.bind (.pure none)
    | some len =>
    -- one more argument
    obtain ⟨r'', hr'', hpassed⟩ :=
      @ih (argv ++ [uarg]) (by simp only [List.length_append, List.length_singleton]; omega)
      (by
      intro i a ha
      rcases lt_trichotomy i argv.length with hlt | heq | hlt
      · rw [List.getElem?_append_left hlt] at ha
        exact harg i a ha
      · subst heq
        rw [List.getElem?_concat_length] at ha
        cases ha
        exact ⟨hread, hword, h0, len, (hlen len).1 rfl⟩
      · rw [List.getElem?_eq_none
          (by simp only [List.length_append, List.length_singleton]; omega)] at ha
        cases ha)
    refine ⟨r'', hr.bind ?_, hpassed⟩
    show Inside p (if _ then _ else _) _
    rw [if_neg h0]
    refine hr'.bind ?_
    rwa [List.length_append, List.length_singleton] at hr''

theorem sysExec_inside (hsz : p.sz ≤ kernBase) :
    ∃ r, Inside p (sysExec p) r ∧ ∀ path argv, r = some (path, argv) →
      (p.Readable (argAddr p 0) ∧ path = p.word (argAddr p 0) ∧ ∃ len, p.Str path len) ∧
      p.Readable (argAddr p 1) ∧ p.Passed (p.word (argAddr p 1)) argv := by
  obtain ⟨r, hr, hv⟩ := argstr_inside hsz 0
  unfold sysExec
  cases r with
  | none => exact ⟨none, hr.bind (.pure none), fun _ _ h => (by cases h)⟩
  | some x =>
  obtain ⟨path, len⟩ := x
  obtain ⟨⟨hread, hpath⟩, hstr⟩ := (hv path len).1 rfl
  obtain ⟨r₁, hr1, hv1⟩ := argint_inside hsz 1
  cases r₁ with
  | none => exact ⟨none, hr.bind (hr1.bind (.pure none)), fun _ _ h => (by cases h)⟩
  | some uargv =>
  obtain ⟨hread1, huargv⟩ := (hv1 uargv).1 rfl
  obtain ⟨r₂, hr2, hpassed⟩ := @sysExecLoop_inside p maxarg hsz uargv [] rfl fun i a h => by
    rw [List.getElem?_nil] at h
    cases h
  cases r₂ with
  | none => exact ⟨none, hr.bind (hr1.bind (hr2.bind (.pure none))), fun _ _ h => (by cases h)⟩
  | some argv =>
    refine ⟨some (path, argv), hr.bind (hr1.bind (hr2.bind (.pure _))), fun path' argv' h => ?_⟩
    cases h
    exact ⟨⟨hread, hpath, len, hstr⟩, hread1, huargv ▸ hpassed argv rfl⟩

/-- **The arguments of system calls are inside the process.**  For every size up to `KERNBASE`,
stack pointer, argument index and `int` size, each function reads bytes below `sz` only, and
succeeds exactly if the word, the block or the string up to its NUL is below `sz`; `sys_exec` gives
`exec` only arrays of fewer than `MAXARG` such strings. -/
theorem args_inside {p : Proc} (hsz : p.sz ≤ kernBase) :
    (∀ addr < Vm.uintSize, ∃ r, Inside p (fetchint p addr) r ∧ ∀ v, r = some v ↔ p.Readable addr ∧
      v = p.word addr) ∧
    (∀ n, ∃ r, Inside p (argint p n) r ∧ ∀ v, r = some v ↔ p.Readable (argAddr p n) ∧
      v = p.word (argAddr p n)) ∧
    (∀ n size : ℤ, -2 ^ 31 ≤ size → size < 2 ^ 31 → ∃ r, Inside p (argptr p n size) r ∧
      ∀ v, r = some v ↔ (p.Readable (argAddr p n) ∧ v = p.word (argAddr p n)) ∧ 0 ≤ size ∧
      v < p.sz ∧ v + size ≤ p.sz) ∧
    (∀ addr < Vm.uintSize, ∃ r, Inside p (fetchstr p addr) r ∧ ∀ len, r = some len ↔
      p.Str addr len) ∧
    (∀ n, ∃ r, Inside p (argstr p n) r ∧ ∀ v len, r = some (v, len) ↔
      (p.Readable (argAddr p n) ∧ v = p.word (argAddr p n)) ∧ p.Str v len) ∧
    ∃ r, Inside p (sysExec p) r ∧ ∀ path argv, r = some (path, argv) →
      (p.Readable (argAddr p 0) ∧ path = p.word (argAddr p 0) ∧ ∃ len, p.Str path len) ∧
      p.Readable (argAddr p 1) ∧ p.Passed (p.word (argAddr p 1)) argv :=
  ⟨fun _ => fetchint_inside hsz, argint_inside hsz, fun n _ _ => argptr_inside hsz n, fun addr _ =>
      fetchstr_inside p addr,
    argstr_inside hsz, sysExec_inside hsz⟩

/-- A process of 16 bytes whose stack pointer is 0: argument 0 is the string at 15, argument 1 an
array with a null pointer. -/
theorem args_inside_small : (⟨16, 0, Bytes.zero.putLE 4 4 15⟩ : Proc).sz ≤ kernBase ∧
    ∃ r, Inside ⟨16, 0, Bytes.zero.putLE 4 4 15⟩ (argstr ⟨16, 0, Bytes.zero.putLE 4 4 15⟩ 0) r ∧
    r = some (15, 0) := by
  have hsz : (⟨16, 0, Bytes.zero.putLE 4 4 15⟩ : Proc).sz ≤ kernBase := by decide
  obtain ⟨-, -, -, -, hstr, -⟩ := args_inside hsz
  obtain ⟨r, hr, hv⟩ := hstr 0
  refine ⟨hsz, r, hr,
    (hv 15 0).2 ⟨⟨?_, by decide⟩, by decide, by decide, fun i hi => absurd hi (Nat.not_lt_zero i)⟩⟩
  show ∀ i < 4, _
  decide

end Syscall

end Xv6
