import Mathlib.Data.UInt
import Mathlib.Tactic.SplitIfs
import Xv6.Bytes.Basic
import Xv6.Prog.Update

/-!
# The MP configuration table

`mpinit` of `mp.c` looks for the configuration table of the machine and walks along its entries.
Memory is indexed by physical addresses, and pointers into the table are offsets from its start.
The loop of `mpinit` has no bound of its own: `mpLoop` takes the number of rounds it may make, and
`none` stands for a loop that is still running.

* `Visits` : the entries from an offset on, up to the first one of an unknown type.
* `mpLoop_of_visits`, `mpLoop_unknown` : what the loop does with them; an entry of an unknown type
  keeps it running for ever.
* `mpinit_iff` : **the walk ends as it should iff it meets no entry of an unknown type**.
-/

namespace Xv6

namespace Mp

/-- `NCPU` -/
abbrev maxCpus : ℕ := 8

/-- `sizeof(struct mp)` -/
abbrev mpSize : ℕ := 16

/-- `sizeof(struct mpconf)` -/
abbrev mpconfSize : ℕ := 44

/-- The types of entries. -/
inductive EntryType
  | proc
  | bus
  | ioapic
  | iointr
  | lintr
  deriving DecidableEq

/-- The type of an entry from its first byte. -/
def EntryType.get? (b : UInt8) : Option EntryType :=
  if b = 0 then some .proc
  else if b = 1 then some .bus
  else if b = 2 then some .ioapic
  else if b = 3 then some .iointr
  else if b = 4 then some .lintr
  else none

/-- How far `mpinit` moves over an entry: `sizeof(struct mpproc)`, `sizeof(struct mpioapic)` or
8. -/
def EntryType.size : EntryType → ℕ
  | .proc => 20
  | _ => 8

/-- The panics of `mpinit`. -/
inductive Panic
  /-- `Expect to run on an SMP` -/
  | expectSmp
  /-- `Didn't find a suitable machine` -/
  | unsuitable
  deriving DecidableEq

/-- What `mpinit` sets. -/
structure State where
  /-- `cpus[i].apicid` -/
  apicid : ℕ → UInt8
  ncpu : ℕ
  ioapicid : UInt8
  lapic : ℕ
  ismp : Bool
  /-- Has the IMCR been written? -/
  imcr : Bool

/-- Before `mpinit`. -/
def State.init : State := ⟨fun _ => 0, 0, 0, 0, false, false⟩

/-! ### Finding the table -/

/-- `sum` -/
def sum (mem : Bytes) (addr : ℕ) : ℕ → UInt8
  | 0 => 0
  | len + 1 => sum mem addr len + mem (addr + len)

/-- `memcmp` with a string -/
def starts (mem : Bytes) (addr : ℕ) (s : List UInt8) : Bool :=
  (List.range s.length).all fun i => mem (addr + i) == s.getD i 0

/-- `mpsearch1` in `n` steps of `sizeof(struct mp)`. -/
def mpsearch1 (mem : Bytes) : ℕ → ℕ → Option ℕ
  | _, 0 => none
  | p, n + 1 =>
    -- "_MP_"
    if starts mem p [95, 77, 80, 95] && sum mem p mpSize == 0 then some p else mpsearch1 mem
      (p + mpSize) n

/-- `mpsearch` -/
def mpsearch (mem : Bytes) : Option ℕ :=
  let p := mem.getLE 2 0x40e * 16
  if p ≠ 0 then (mpsearch1 mem p (1024 / mpSize)).or (mpsearch1 mem 0xf0000 (0x10000 / mpSize))
  else
    let p := mem.getLE 2 0x413 * 1024
    (mpsearch1 mem ((p + 2 ^ 32 - 1024) % 2 ^ 32) (1024 / mpSize)).or
      (mpsearch1 mem 0xf0000 (0x10000 / mpSize))

/-- `mpconfig`: where `struct mp` is, and the table. -/
def mpconfig (mem : Bytes) : Option (ℕ × Bytes) :=
  match mpsearch mem with
  | none => none
  | some mp =>
    let physaddr := mem.getLE 4 (mp + 4)
    if physaddr = 0 then none
    else
      let conf := mem.drop physaddr
      -- "PCMP"
      if !starts conf 0 [80, 67, 77, 80] then none
      else if conf 6 ≠ 1 ∧ conf 6 ≠ 4 then none
      else if sum conf 0 (conf.getLE 2 4) ≠ 0 then none
      else some (mp, conf)

/-! ### The walk -/

/-- `conf->length` -/
def length (conf : Bytes) : ℕ := conf.getLE 2 4

/-- A processor entry at `p`. -/
def State.addCpu (s : State) (conf : Bytes) (p : ℕ) : State :=
  if s.ncpu < maxCpus then { s with
    apicid := upd s.apicid s.ncpu (conf (p + 1)), ncpu := s.ncpu + 1 } else s

/-- What an entry at `p` of a known type does. -/
def State.entry (s : State) (conf : Bytes) (p : ℕ) : EntryType → State
  | .proc => s.addCpu conf p
  | .ioapic => { s with ioapicid := conf (p + 1) }
  | _ => s

/-- The loop of `mpinit`, for at most `fuel` tests of its condition. -/
def mpLoop (conf : Bytes) : ℕ → ℕ → State → Option State
  | 0, _, _ => none
  | fuel + 1, p, s =>
    if p < length conf then
      match EntryType.get? (conf p) with
      | some t => mpLoop conf fuel (p + t.size) (s.entry conf p t)
      -- the `break` leaves the `switch` only
      | none => mpLoop conf fuel p { s with ismp := false }
    else some s

/-- `mpinit` -/
def mpinit (mem : Bytes) (fuel : ℕ) (s : State) : Option (Except Panic State) :=
  match mpconfig mem with
  | none => some (.error .expectSmp)
  | some (mp, conf) =>
    (mpLoop conf fuel mpconfSize { s with ismp := true, lapic := conf.getLE 4 36 }).map fun s =>
      if !s.ismp then .error .unsuitable
        else .ok (if mem (mp + 12) ≠ 0 then { s with imcr := true } else s)

/-- The entries from `p` on are at `l`, all of known types, and `q` is behind the last of them. -/
inductive Visits (conf : Bytes) : ℕ → List ℕ → ℕ → Prop
  | nil {p : ℕ} : Visits conf p [] p
  | cons {p q : ℕ} {l : List ℕ} {t : EntryType} : p < length conf → EntryType.get? (conf
      p) = some t → Visits conf (p + t.size) l q → Visits conf p (p :: l) q

/-- The entries at `l` that are for processors. -/
def procs (conf : Bytes) (l : List ℕ) : List ℕ :=
  l.filter fun p => EntryType.get? (conf p) = some .proc

variable {mem conf : Bytes} {p q mp fuel : ℕ} {l l' : List ℕ} {s : State} {t : EntryType}

theorem EntryType.size_pos (t : EntryType) : 0 < t.size := by cases t <;> decide

/-- The entries end at the end of the table or at one of an unknown type. -/
theorem exists_visits (conf : Bytes) (p : ℕ) :
    ∃ l q, Visits conf p l q ∧
    (length conf ≤ q ∨ q < length conf ∧ EntryType.get? (conf q) = none) := by
  induction hn : length conf - p using Nat.strongRecOn generalizing p with
  | ind n ih =>
    by_cases hp : p < length conf
    · cases ht : EntryType.get? (conf p) with
      | none => exact ⟨[], p, .nil, .inr ⟨hp, ht⟩⟩
      | some t =>
        have hpos := t.size_pos
        obtain ⟨l, q, hv, hq⟩ := ih _ (by omega) (p + t.size) rfl
        exact ⟨p :: l, q, .cons hp ht hv, hq⟩
    · exact ⟨[], p, .nil, .inl (by omega)⟩

/-- What the entries at `l` do. -/
def State.entries (s : State) (conf : Bytes) : List ℕ → State
  | [] => s
  | p :: l => ((EntryType.get? (conf p)).elim s (s.entry conf p)).entries conf l

theorem mpLoop_of_visits (h : Visits conf p l q) (fuel : ℕ) :
    mpLoop conf (l.length + fuel) p s = mpLoop conf fuel q (s.entries conf l) := by
  induction h generalizing s with
  | nil => rw [List.length_nil, zero_add, State.entries]
  | @cons p q l t hp ht _ ih =>
    rw [List.length_cons, add_right_comm, mpLoop, if_pos hp, State.entries, ht]
    exact ih

/-- At an entry of an unknown type the loop goes on for ever. -/
theorem mpLoop_unknown (hq : q < length conf) (hu : EntryType.get? (conf q) = none) (fuel : ℕ) :
    mpLoop conf fuel q s = none := by
  induction fuel generalizing s with
  | zero => rfl
  | succ fuel ih =>
    rw [mpLoop, if_pos hq, hu]
    exact ih

theorem mpLoop_mono {s' : State} (h : mpLoop conf fuel p s = some s') (n : ℕ) :
    mpLoop conf (fuel + n) p s = some s' := by
  induction fuel generalizing p s with
  | zero => cases h
  | succ fuel ih =>
    rw [add_right_comm, mpLoop]
    rw [mpLoop] at h
    by_cases hp : p < length conf
    · rw [if_pos hp] at h ⊢
      cases ht : EntryType.get? (conf p) with
      | none | some t =>
        rw [ht] at h
        exact ih h
    · rwa [if_neg hp] at h ⊢

/-- If the walk meets an entry of an unknown type, the loop never ends. -/
theorem mpLoop_eq_none (h : Visits conf p l q) (hq : q < length conf)
    (hu : EntryType.get? (conf q) = none) (fuel : ℕ) :
    mpLoop conf fuel p s = none := by
  cases hr : mpLoop conf fuel p s with
  | none => rfl
  | some s' =>
    have hmono := mpLoop_mono hr l.length
    rw [add_comm, mpLoop_of_visits h, mpLoop_unknown hq hu] at hmono
    cases hmono

/-! ### The processors -/

/-- What the entries at `l` leave behind. -/
structure Entered (conf : Bytes) (l : List ℕ) (s s' : State) : Prop where
  ncpu : s'.ncpu = min maxCpus (s.ncpu + (procs conf l).length)
  old : ∀ i < s.ncpu, s'.apicid i = s.apicid i
  new : ∀ i p, (procs conf l)[i]? = some p → s.ncpu + i < maxCpus → s'.apicid (s.ncpu + i) =
    conf (p + 1)
  ismp : s'.ismp = s.ismp

theorem State.entry_of_ne (ht : t ≠ .proc) : (s.entry conf p t).ncpu = s.ncpu ∧
    (s.entry conf p t).apicid = s.apicid ∧ (s.entry conf p t).ismp = s.ismp := by
  cases t <;> first | exact absurd rfl ht | exact ⟨rfl, rfl, rfl⟩

theorem Entered.addCpu {s' : State} (h : s.ncpu ≤ maxCpus)
    (ht : EntryType.get? (conf p) = some .proc) (hs : Entered conf l (s.addCpu conf p) s') :
    Entered conf (p :: l) s s' := by
  have hprocs : procs conf (p :: l) = p :: procs conf l := by simp [procs, ht]
  obtain ⟨hn, hold, hnew, hi⟩ := hs
  unfold State.addCpu at hn hold hnew hi
  by_cases hlt : s.ncpu < maxCpus
  · rw [if_pos hlt] at hn hold hnew hi
    dsimp only at hn hold hnew hi
    refine ⟨?_, fun i hi => ?_, fun i r hr hir => ?_, hi⟩
    · rw [hn, hprocs, List.length_cons]
      omega
    · rw [hold i (by omega), upd, if_neg (by omega)]
    rw [hprocs] at hr
    cases i with
    | zero =>
      cases hr
      rw [add_zero, hold _ (Nat.lt_succ_self _), upd, if_pos rfl]
    | succ i =>
      rw [← hnew i r hr (by omega)]
      congr 1
      omega
  · rw [if_neg hlt] at hn hold hnew hi
    refine ⟨?_, hold, fun i r _ hir => absurd hir (by omega), hi⟩
    rw [hn, hprocs, List.length_cons]
    omega

theorem entered_entries (h : s.ncpu ≤ maxCpus) : Entered conf l s (s.entries conf l) := by
  induction l generalizing s with
  | nil => exact ⟨(min_eq_right h).symm, fun _ _ => rfl, fun i p hp =>
    (by simp [procs] at hp), rfl⟩
  | cons p l ih =>
    rw [State.entries]
    cases ht : EntryType.get? (conf p) with
    | none =>
      have hprocs : procs conf (p :: l) = procs conf l := by simp [procs, ht]
      obtain ⟨hn, hold, hnew, hi⟩ := ih h
      exact ⟨by rwa [hprocs], hold, by rwa [hprocs], hi⟩
    | some t =>
    by_cases htp : t = .proc
    · subst htp
      refine Entered.addCpu h ht (ih ?_)
      unfold State.addCpu
      by_cases hlt : s.ncpu < maxCpus
      · rw [if_pos hlt]
        exact hlt
      · rw [if_neg hlt]
        exact h
    · have hprocs : procs conf (p :: l) = procs conf l := by simp [procs, ht, htp]
      obtain ⟨h1, h2, h3⟩ := @State.entry_of_ne conf p s t htp
      obtain ⟨hn, hold, hnew, hi⟩ := ih (s := s.entry conf p t) (by rwa [h1])
      rw [h1] at hn hold hnew
      rw [h2] at hold
      rw [h3] at hi
      exact ⟨by rwa [hprocs], hold, by rwa [hprocs], hi⟩

/-! ### The whole function -/

/-- `mpinit` ends as it should: it has visited all entries, and the processors are the first `NCPU`
of the table; or it has stopped at the first entry of an unknown type and found the machine
unsuitable. -/
def Ends (mem conf : Bytes) : Prop :=
  (∃ l q fuel s, Visits conf mpconfSize l q ∧ length conf ≤ q ∧
      mpinit mem fuel .init = some (.ok s) ∧
    s.ncpu = min maxCpus (procs conf l).length ∧ ∀ i p, (procs conf l)[i]? = some p → i < s.ncpu →
    s.apicid i = conf (p + 1)) ∨
  ∃ l q fuel, Visits conf mpconfSize l q ∧ q < length conf ∧ EntryType.get? (conf q) = none ∧
    mpinit mem fuel .init = some (.error .unsuitable)

theorem mpinit_eq (h : mpconfig mem = some (mp, conf)) (fuel : ℕ) : mpinit mem fuel s =
    (mpLoop conf fuel mpconfSize { s with ismp := true, lapic := conf.getLE 4 36 }).map fun s =>
      if !s.ismp then .error .unsuitable
        else .ok (if mem (mp + 12) ≠ 0 then { s with imcr := true } else s) := by
  rw [mpinit, h]

/-- **The walk ends as it should iff it meets no entry of an unknown type.**  If it meets one it
never ends. -/
theorem mpinit_iff (h : mpconfig mem = some (mp, conf)) :
    (Ends mem conf ↔ ∀ l q, Visits conf mpconfSize l q → q < length conf →
      EntryType.get? (conf q) ≠ none) ∧
    ((∃ l q, Visits conf mpconfSize l q ∧ q < length conf ∧ EntryType.get? (conf q) = none) →
      ∀ fuel, mpinit mem fuel .init = none) := by
  have hnever : (∃ l q, Visits conf mpconfSize l q ∧ q < length conf ∧
    EntryType.get? (conf q) = none) → ∀ fuel, mpinit mem fuel .init = none := by
    rintro ⟨l, q, hv, hq, hu⟩ fuel
    rw [mpinit_eq h, mpLoop_eq_none hv hq hu, Option.map_none]
  refine ⟨⟨fun hends l q hv hq hu => ?_, fun hknown => ?_⟩, hnever⟩
  · have hnone := hnever ⟨l, q, hv, hq, hu⟩
    rcases hends with ⟨-, -, fuel, s, -, -, hr, -⟩ | ⟨-, -, fuel, -, -, -, hr⟩ <;>
      rw [hnone fuel] at hr <;> cases hr
  obtain ⟨l, q, hv, hq⟩ := exists_visits conf mpconfSize
  rcases hq with hq | ⟨hq, hu⟩
  · have hent := @entered_entries conf l { State.init with
      ismp := true, lapic := conf.getLE 4 36 } zero_le
    have hloop : mpLoop conf (l.length + 1) mpconfSize { State.init with
      ismp := true, lapic := conf.getLE 4 36 } =
        some ({ State.init with ismp := true, lapic := conf.getLE 4 36 }.entries conf l) := by
      rw [mpLoop_of_visits hv, mpLoop, if_neg (by omega)]
    generalize { State.init with ismp := true, lapic := conf.getLE 4 36 }.entries conf l =
      s' at hent hloop
    obtain ⟨hn, -, hnew, hi⟩ := hent
    dsimp only [State.init] at hn hnew hi
    simp only [zero_add] at hn hnew
    refine .inl ⟨l, q, l.length + 1, _, hv,
      hq, by rw [mpinit_eq h, hloop, Option.map_some, hi]; rfl, ?_, ?_⟩
    · split_ifs <;> exact hn
    intro i p hp hlt
    have hlt' : i < maxCpus := by
      split_ifs at hlt <;> simp only [hn] at hlt <;> omega
    split_ifs <;> exact hnew i p hp hlt'
  · exact absurd hu (hknown l q hv hq)

/-! ### A table with an entry of an unknown type -/

/-- A memory with `struct mp` at `0x9fc00` and a configuration table of `len` bytes, whose only
entry has the type `b`. -/
def sample (len b ck : UInt8) : Bytes := fun a =>
  if a = 0x40e then 0xc0 else if a = 0x40f then 0x9f
  else if 0x9fc00 ≤ a ∧ a < 0x9fc10 then
    [95, 77, 80, 95, 0, 0xfd, 9, 0, 1, 4, 154, 0, 0, 0, 0, 0].getD (a - 0x9fc00) 0
  else if 0x9fd00 ≤ a ∧ a < 0x9fd08 then [80, 67, 77, 80, len, 0, 4, ck].getD (a - 0x9fd00) 0
  else if a = 0x9fd2c then b
  else 0

theorem mpconfig_eq {physaddr : ℕ} (hmp : mpsearch mem = some mp)
    (hphys : mem.getLE 4 (mp + 4) = physaddr ∧ physaddr ≠ 0)
    (hsig : starts (mem.drop physaddr) 0 [80, 67, 77, 80] = true) (hver : mem.drop physaddr 6 = 1 ∨
      mem.drop physaddr 6 = 4)
    (hsum : sum (mem.drop physaddr) 0 ((mem.drop physaddr).getLE 2 4) = 0) :
    mpconfig mem = some (mp, mem.drop physaddr) := by
  unfold mpconfig
  rw [hmp]
  dsimp only
  rw [hphys.1, if_neg hphys.2, hsig, if_neg (by decide), if_neg (by tauto), if_neg (not_not.2 hsum)]

theorem mpconfig_sample {len b ck : UInt8} (h : mpsearch (sample len b ck) = some 0x9fc00 ∧
    (sample len b ck).getLE 4 (0x9fc00 + 4) = 0x9fd00 ∧
    starts ((sample len b ck).drop 0x9fd00) 0 [80, 67, 77, 80] = true ∧
    (sample len b ck).drop 0x9fd00 6 = 4 ∧
    sum ((sample len b ck).drop 0x9fd00) 0 (((sample len b ck).drop 0x9fd00).getLE 2 4) = 0) :
    mpconfig (sample len b ck) = some (0x9fc00, (sample len b ck).drop 0x9fd00) :=
  mpconfig_eq h.1 ⟨h.2.1, by decide⟩ h.2.2.1 (.inr h.2.2.2.1) h.2.2.2.2

/-- One processor. -/
theorem mpinit_iff_proc : Ends (sample 64 0 140) ((sample 64 0 140).drop 0x9fd00) := by
  have hlen : length ((sample 64 0 140).drop 0x9fd00) = 64 := by decide +kernel
  have hproc : EntryType.get? ((sample 64 0 140).drop 0x9fd00 44) = some .proc := by decide +kernel
  refine (mpinit_iff (mpconfig_sample (by decide +kernel))).1.2 fun l q hv hq => ?_
  rw [hlen] at hq
  cases hv with
  | nil =>
    rw [hproc]
    exact Option.some_ne_none _
  | cons hp ht hv =>
    obtain rfl := Option.some.inj (hproc.symm.trans ht)
    cases hv with
    | nil => exact absurd hq (by decide)
    | cons hp' _ _ =>
      rw [hlen] at hp'
      exact absurd hp' (by decide)

/-- **A walk without end**: a table of 45 bytes with a correct sum, whose only entry has the type
5. -/
theorem mpinit_hangs : mpconfig (sample 45 5 154) = some (0x9fc00, (sample 45 5 154).drop 0x9fd00) ∧
    ∀ fuel, mpinit (sample 45 5 154) fuel .init = none := by
  have h := @mpconfig_sample 45 5 154 (by decide +kernel)
  refine ⟨h, fun fuel => ?_⟩
  rw [mpinit_eq h, mpLoop_eq_none .nil (by decide +kernel) (by decide +kernel), Option.map_none]

end Mp

end Xv6
