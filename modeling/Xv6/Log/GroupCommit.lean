import Xv6.Log.Protocol

/-!
# The group commit protocol is safe

`Proto.Move` lists what a step can do.  From it follows the invariant `Proto.Inv` of every reachable
state: `outstanding` counts the active operations, `committing` is set exactly while one process
commits, no operation is active then, and a sleeper always has an active operation or a commit to
wake it.
-/

namespace Xv6

namespace Log

namespace Proto

open Finset

variable {P : Type*} [DecidableEq P]

/-! ### What a step can do -/

/-- The cases of `step`. -/
inductive Move (size : ℕ) (s : Proto P) : Event P → Proto P → Prop
  | beginOp {p : P} (h : s.phase p = .out) : Move size s (.beginOp p) (s.goto p .entering)
  | begun {p : P} (h : s.phase p = .entering) (hw : s.mustWait = false) :
      Move size s (.enter p) { s.goto p (.inOp []) with outstanding := s.outstanding + 1 }
  | wait {p : P} (h : s.phase p = .entering) (hw : s.mustWait = true) (ht : s.ptable = none) :
      Move size s (.enter p) { s.goto p .dozing with ptable := some p }
  | doze {p : P} (h : s.phase p = .dozing) :
      Move size s (.doze p) { s.goto p .asleep with ptable := none }
  | kill {p : P} (h : s.phase p = .asleep) : Move size s (.kill p) (s.goto p .entering)
  | tooBig {p : P} {b : ℕ} {l : List ℕ} (h : s.phase p = .inOp l)
      (hb : logSize ≤ s.lh.length ∨ size - 1 ≤ s.lh.length) :
      Move size s (.logWrite p b) { s with panicked := some .tooBig }
  | outside {p : P} {b : ℕ} {l : List ℕ} (h : s.phase p = .inOp l) (ho : s.outstanding < 1) :
      Move size s (.logWrite p b) { s with panicked := some .outside }
  | logWrite {p : P} {b : ℕ} {l : List ℕ} (h : s.phase p = .inOp l)
      (hb : ¬ (logSize ≤ s.lh.length ∨ size - 1 ≤ s.lh.length)) :
      Move size s (.logWrite p b) (s.goto p (.logging l b))
  | append {p : P} {b : ℕ} {l : List ℕ} (h : s.phase p = .logging l b) :
      Move size s (.append p b) { s.goto p (.inOp (l ++ [b])) with lh := absorb s.lh b }
  | endPanic {p : P} {l : List ℕ} (h : s.phase p = .inOp l) (hc : s.committing = true) :
      Move size s (.endOp p)
        { s with outstanding := s.outstanding - 1, panicked := some .committing }
  | endLast {p : P} {l : List ℕ} (h : s.phase p = .inOp l) (hc : s.committing = false)
      (ho : s.outstanding - 1 = 0) :
      Move size s (.endOp p)
        { s.goto p .commit with outstanding := s.outstanding - 1, committing := true }
  | endOther {p : P} {l : List ℕ} (h : s.phase p = .inOp l) (hc : s.committing = false)
      (ho : s.outstanding - 1 ≠ 0) (ht : s.ptable = none) :
      Move size s (.endOp p) ({ s with outstanding := s.outstanding - 1 }.wakeup.goto p .out)
  | commit {p : P} (h : s.phase p = .commit) (hn : 0 < s.lh.length) :
      Move size s (.commit p) (s.goto p (.writing (2 * s.lh.length + 1)))
  | commitEmpty {p : P} (h : s.phase p = .commit) (hn : s.lh = []) :
      Move size s (.commit p) (s.goto p .committed)
  | diskWrite {p : P} {w : ℕ} (h : s.phase p = .writing (w + 1)) :
      Move size s (.diskWrite p) (s.goto p (.writing w))
  | erase {p : P} (h : s.phase p = .erasing) : Move size s (.diskWrite p) (s.goto p .committed)
  | clear {p : P} (h : s.phase p = .writing 0) :
      Move size s (.clear p) { s.goto p .erasing with lh := [] }
  | finish {p : P} (h : s.phase p = .committed) (ht : s.ptable = none) :
      Move size s (.finish p) ({ s with committing := false }.wakeup.goto p .out)

theorem move_of_enter {size : ℕ} {s s' : Proto P} {p : P} (hp : s.phase p = .entering)
    (h : s.enter p = some s') : Move size s (.enter p) s' := by
  unfold enter at h
  split_ifs at h with hw ht <;> cases h
  · exact .wait hp hw ht
  · exact .begun hp (by simpa using hw)

theorem move_logWrite {size : ℕ} {s : Proto P} {p : P} {l : List ℕ} {b : ℕ}
    (hp : s.phase p = .inOp l) : Move size s (.logWrite p b) (s.logWrite size p l b) := by
  unfold logWrite
  split_ifs with hb ho
  · exact .tooBig hp hb
  · exact .outside hp ho
  · exact .logWrite hp hb

theorem move_of_endOp {size : ℕ} {s s' : Proto P} {p : P} {l : List ℕ} (hp : s.phase p = .inOp l)
    (h : s.endOp p = some s') : Move size s (.endOp p) s' := by
  simp only [endOp] at h
  split_ifs at h with hc ho ht <;> cases h
  · exact .endPanic hp hc
  · exact .endLast hp (by simpa using hc) ho
  · exact .endOther hp (by simpa using hc) ho ht

theorem move_of_step {size : ℕ} {s s' : Proto P} {e : Event P} (h : step size s e = some s') :
    s.panicked = none ∧ Move size s e s' := by
  have hp : s.panicked = none := by
    by_contra hp
    simp [step, Option.isSome_iff_ne_none.2 hp] at h
  unfold step at h
  rw [if_neg (by simp [hp])] at h
  refine ⟨hp, ?_⟩
  cases e with
  | beginOp p => simp only at h; split_ifs at h with h1; cases h; exact .beginOp h1
  | enter p => simp only at h; split_ifs at h with h1; exact move_of_enter h1 h
  | doze p => simp only at h; split_ifs at h with h1; cases h; exact .doze h1
  | kill p => simp only at h; split_ifs at h with h1; cases h; exact .kill h1.1
  | logWrite p b => simp only at h; split at h <;> cases h; exact move_logWrite ‹_›
  | append p b =>
    simp only at h
    split at h
    · split_ifs at h with h2; cases h; subst h2; exact .append ‹_›
    · cases h
  | endOp p =>
    simp only at h
    split at h
    · exact move_of_endOp ‹_› h
    · cases h
  | commit p =>
    by_cases hn : 0 < s.lh.length
    · simp only [hn, ↓reduceIte] at h; split_ifs at h with h1; cases h; exact .commit h1 hn
    · simp only [hn, ↓reduceIte] at h; split_ifs at h with h1; cases h
      exact .commitEmpty h1 (List.length_eq_zero_iff.1 (by omega))
  | diskWrite p =>
    simp only at h
    split at h <;> cases h
    · exact .diskWrite ‹_›
    · exact .erase ‹_›
  | clear p => simp only at h; split_ifs at h with h1; cases h; exact .clear h1
  | finish p => simp only at h; split_ifs at h with h1; cases h; exact .finish h1.1 h1.2

/-! ### Phases after a step -/

section

variable {Q : Type*} {s : Proto Q} {q : Q}

@[simp] theorem wakeup_lh : s.wakeup.lh = s.lh := rfl
@[simp] theorem wakeup_outstanding : s.wakeup.outstanding = s.outstanding := rfl
@[simp] theorem wakeup_committing : s.wakeup.committing = s.committing := rfl
@[simp] theorem wakeup_ptable : s.wakeup.ptable = s.ptable := rfl
@[simp] theorem wakeup_panicked : s.wakeup.panicked = s.panicked := rfl

theorem wakeup_phase : s.wakeup.phase q = if s.phase q = .asleep then .entering else s.phase q :=
  rfl

/-- A process that is not asleep does not notice `wakeup`. -/
theorem wakeup_phase_eq_iff {ph : Phase} (h1 : ph ≠ .entering) :
    s.wakeup.phase q = ph ↔ s.phase q = ph ∧ ph ≠ .asleep := by
  rw [wakeup_phase]
  split_ifs with h
  · rw [h]; constructor
    · exact fun h' => absurd h'.symm h1
    · rintro ⟨rfl, h'⟩; exact absurd rfl h'
  · constructor
    · rintro rfl; exact ⟨rfl, h⟩
    · exact fun h' => h'.1

theorem wakeup_active : (s.wakeup.phase q).active = (s.phase q).active := by
  rw [wakeup_phase]; split_ifs with h <;> simp [h, Phase.active]

theorem wakeup_commits : (s.wakeup.phase q).commits = (s.phase q).commits := by
  rw [wakeup_phase]; split_ifs with h <;> simp [h, Phase.commits]

theorem wakeup_logged : (s.wakeup.phase q).logged = (s.phase q).logged := by
  rw [wakeup_phase]; split_ifs with h <;> simp [h, Phase.logged]

end

section

variable {s : Proto P} {p q : P} {ph : Phase}

@[simp] theorem goto_phase_self : (s.goto p ph).phase p = ph := by simp [goto]

theorem goto_phase_of_ne (h : q ≠ p) : (s.goto p ph).phase q = s.phase q := by simp [goto, h]

@[simp] theorem goto_lh : (s.goto p ph).lh = s.lh := rfl
@[simp] theorem goto_outstanding : (s.goto p ph).outstanding = s.outstanding := rfl
@[simp] theorem goto_committing : (s.goto p ph).committing = s.committing := rfl
@[simp] theorem goto_ptable : (s.goto p ph).ptable = s.ptable := rfl
@[simp] theorem goto_panicked : (s.goto p ph).panicked = s.panicked := rfl
end

/-! ### Counting the active operations -/

section

variable {Q : Type*} [Fintype Q] {s s' : Proto Q} {p : Q}

/-- The number of active operations. -/
def ops (s : Proto Q) : ℕ := (univ.filter fun p => (s.phase p).active = true).card

theorem ops_congr (h : ∀ q, (s'.phase q).active = (s.phase q).active) : s'.ops = s.ops := by
  simp only [ops, h]

theorem ops_pos (h : (s.phase p).active = true) : 0 < s.ops :=
  card_pos.2 ⟨p, by simp [h]⟩

variable [DecidableEq Q]

theorem ops_goto_of_eq {ph : Phase} (h : ph.active = (s.phase p).active) :
    (s.goto p ph).ops = s.ops := by
  refine ops_congr fun q => ?_
  by_cases hq : q = p
  · subst hq; rw [goto_phase_self, h]
  · rw [goto_phase_of_ne hq]

theorem ops_goto_of_active {ph : Phase} (h : (s.phase p).active = false) (h' : ph.active = true) :
    (s.goto p ph).ops = s.ops + 1 := by
  have hn : p ∉ univ.filter fun q => (s.phase q).active = true := by simp [h]
  rw [ops, ops, ← card_insert_of_notMem hn]
  congr 1
  ext q
  by_cases hq : q = p
  · subst hq; simp [h']
  · simp [goto_phase_of_ne hq, hq]

theorem ops_goto_of_not_active {ph : Phase} (h : (s.phase p).active = true)
    (h' : ph.active = false) : (s.goto p ph).ops = s.ops - 1 := by
  have hm : p ∈ univ.filter fun q => (s.phase q).active = true := by simp [h]
  rw [ops, ops, ← card_erase_of_mem hm]
  congr 1
  ext q
  by_cases hq : q = p
  · subst hq; simp [h']
  · simp [goto_phase_of_ne hq, hq]

end

/-! ### The invariant -/

/-- The protocol invariant. -/
structure Inv [Fintype P] (s : Proto P) : Prop where
  /-- `outstanding` counts the active operations. -/
  outstanding : s.outstanding = s.ops
  /-- `committing` is set while some process commits. -/
  committing : s.committing = true ↔ ∃ p, (s.phase p).commits = true
  /-- At most one process commits. -/
  unique : ∀ p q, (s.phase p).commits = true → (s.phase q).commits = true → p = q
  /-- Nobody commits while an operation is active. -/
  idle : s.committing = true → s.ops = 0
  /-- The log is empty when there is neither an operation nor a commit. -/
  empty : s.ops = 0 → s.committing = false → s.lh = []
  /-- The commit has emptied the log when it returns. -/
  cleared : ∀ p, s.phase p = .erasing ∨ s.phase p = .committed → s.lh = []
  /-- The holder of `ptable.lock` is the process in `sleep`. -/
  ptable : ∀ p, s.phase p = .dozing ↔ s.ptable = some p
  /-- A sleeper has someone to wait for. -/
  sleeper : ∀ p, (s.phase p).sleeps = true → s.committing = true ∨ 0 < s.ops
  /-- What an operation has logged is in the header. -/
  logged : ∀ p, ∀ b ∈ (s.phase p).logged, b ∈ s.lh

theorem mem_absorb {lh : List ℕ} {b c : ℕ} : c ∈ absorb lh b ↔ c ∈ lh ∨ c = b := by
  unfold absorb
  split_ifs with h
  · exact ⟨.inl, fun h' => h'.elim id fun h' => h' ▸ h⟩
  · simp

section

variable [Fintype P] {s s' : Proto P} {p : P} {e : Event P} {size : ℕ}

omit [DecidableEq P] in
theorem inv_init : (init : Proto P).Inv where
  outstanding := by simp [init, ops, Phase.active]
  committing := by simp [init, Phase.commits]
  unique p q h := by simp [init, Phase.commits] at h
  idle h := by simp [init] at h
  empty _ _ := rfl
  cleared p h := by simp [init] at h
  ptable p := by simp [init]
  sleeper p h := by simp [init, Phase.sleeps] at h
  logged p b h := by simp [init, Phase.logged] at h

/-- A step after which only process `p` is in another phase, `ph`: what is left to show is about `p`
and the shared fields. -/
theorem Inv.change (h : s.Inv) (ph : Phase) (hph : s'.phase = Function.update s.phase p ph)
    (hout : s'.outstanding = s'.ops)
    (hcom : s'.committing = true ↔ ph.commits = true ∨ ∃ q ≠ p, (s.phase q).commits = true)
    (huniq : ph.commits = true → ∀ q ≠ p, (s.phase q).commits = false)
    (hidle : s'.committing = true → s'.ops = 0)
    (hempty : s'.ops = 0 → s'.committing = false → s'.lh = [])
    (hclear : (ph = .erasing ∨ ph = .committed) ∨ (∃ q ≠ p, (s.phase q).commits = true) →
      s.lh = [] ∨ ph = .erasing ∨ ph = .committed → s'.lh = [])
    (hdoze : ph = .dozing ↔ s'.ptable = some p)
    (hdoze' : ∀ q ≠ p, s.ptable = some q ↔ s'.ptable = some q)
    (hsleep : (ph.sleeps = true ∨ ∃ q ≠ p, (s.phase q).sleeps = true ∧
      (s.committing = true ∨ 0 < s.ops)) → s'.committing = true ∨ 0 < s'.ops)
    (hlog : ∀ b ∈ ph.logged, b ∈ s'.lh)
    (hlog' : ∀ q ≠ p, ∀ b ∈ (s.phase q).logged, b ∈ s.lh → b ∈ s'.lh) : s'.Inv := by
  have hself : s'.phase p = ph := by rw [hph, Function.update_self]
  have hne : ∀ q ≠ p, s'.phase q = s.phase q := fun q hq => by
    rw [hph, Function.update_of_ne hq]
  refine ⟨hout, ?_, fun q r hq hr => ?_, hidle, hempty, fun q hq => ?_, fun q => ?_,
    fun q hq => ?_, fun q b hb => ?_⟩
  · rw [hcom]
    constructor
    · rintro (h' | ⟨q, hq, h'⟩)
      · exact ⟨p, by rw [hself, h']⟩
      · exact ⟨q, by rw [hne q hq, h']⟩
    rintro ⟨q, h'⟩
    by_cases hq : q = p
    · subst hq; rw [hself] at h'; exact .inl h'
    · rw [hne q hq] at h'; exact .inr ⟨q, hq, h'⟩
  · by_cases hqp : q = p <;> by_cases hrp : r = p
    · rw [hqp, hrp]
    · rw [hqp, hself] at hq; rw [hne r hrp, huniq hq r hrp] at hr; cases hr
    · rw [hrp, hself] at hr; rw [hne q hqp, huniq hr q hqp] at hq; cases hq
    · rw [hne q hqp] at hq; rw [hne r hrp] at hr; exact h.unique q r hq hr
  · by_cases hqp : q = p
    · subst hqp; rw [hself] at hq; exact hclear (.inl hq) (.inr hq)
    · rw [hne q hqp] at hq
      refine hclear (.inr ⟨q, hqp, ?_⟩) (.inl (h.cleared q hq))
      rcases hq with hq | hq <;> rw [hq] <;> rfl
  · by_cases hqp : q = p
    · subst hqp; rw [hself, hdoze]
    · rw [hne q hqp, h.ptable q, hdoze' q hqp]
  · by_cases hqp : q = p
    · subst hqp; rw [hself] at hq; exact hsleep (.inl hq)
    · rw [hne q hqp] at hq; exact hsleep (.inr ⟨q, hqp, hq, h.sleeper q hq⟩)
  · by_cases hqp : q = p
    · subst hqp; rw [hself] at hb; exact hlog b hb
    · rw [hne q hqp] at hb; exact hlog' q hqp b hb (h.logged q b hb)

section

omit [DecidableEq P]

theorem Inv.not_commits (h : s.Inv) (hp : (s.phase p).active = true) (q : P) :
    (s.phase q).commits = false := by
  by_contra hq
  have hc := h.committing.2 ⟨q, by simpa using hq⟩
  have := ops_pos hp
  have := h.idle hc
  omega

theorem Inv.committing_eq_false (h : s.Inv) (hp : (s.phase p).active = true) :
    s.committing = false := by
  by_contra hc
  have := ops_pos hp
  have := h.idle (by simpa using hc)
  omega

/-- `begin_op` only goes to sleep when there is someone to wake it. -/
theorem Inv.waits (h : s.Inv) (hw : s.mustWait = true) : s.committing = true ∨ 0 < s.ops := by
  by_contra hn
  simp only [not_or, Bool.not_eq_true, not_lt, Nat.le_zero] at hn
  have hlh := h.empty hn.2 hn.1
  have ho := h.outstanding
  simp [mustWait, hn.1, hlh, ho, hn.2, logSize, maxOpBlocks] at hw

theorem Inv.wakeup (h : s.Inv) : s.wakeup.Inv := by
  have hops : s.wakeup.ops = s.ops := ops_congr fun _ => wakeup_active
  refine ⟨hops ▸ h.outstanding, ?_, ?_, hops ▸ h.idle, hops ▸ h.empty, fun q hq => ?_, fun q => ?_,
    fun q hq => ?_, fun q b hb => ?_⟩
  · simp only [wakeup_commits]; exact h.committing
  · simp only [wakeup_commits]; exact h.unique
  · rw [wakeup_phase_eq_iff (by simp), wakeup_phase_eq_iff (by simp)] at hq
    exact h.cleared q (hq.imp And.left And.left)
  · rw [wakeup_phase_eq_iff (by simp)]
    simpa using h.ptable q
  · rw [hops]
    refine h.sleeper q ?_
    rw [wakeup_phase] at hq
    split_ifs at hq with h'
    · cases hq
    · exact hq
  · rw [wakeup_logged] at hb; exact h.logged q b hb

theorem Inv.committing_iff (h : s.Inv) (p : P) : s.committing = true ↔
    (s.phase p).commits = true ∨ ∃ q ≠ p, (s.phase q).commits = true := by
  rw [h.committing]
  constructor
  · rintro ⟨q, hq⟩
    by_cases hqp : q = p
    · exact .inl (hqp ▸ hq)
    · exact .inr ⟨q, hqp, hq⟩
  · rintro (hp | ⟨q, -, hq⟩)
    · exact ⟨p, hp⟩
    · exact ⟨q, hq⟩

theorem Inv.not_commits_of_ne (h : s.Inv) (hp : (s.phase p).commits = true) {q : P}
    (hq : q ≠ p) : (s.phase q).commits = false := by
  by_contra hc
  exact hq (h.unique q p (by simpa using hc) hp)

end

/-- A step that changes nothing but the phase of one process, which stays active or inactive, does
not start or stop committing, and does not sleep. -/
theorem Inv.goto (h : s.Inv) (ph : Phase) (ha : ph.active = (s.phase p).active)
    (hc : ph.commits = (s.phase p).commits) (hs : ph.sleeps = false)
    (hcl : ph = .erasing ∨ ph = .committed → s.lh = [])
    (hd : s.phase p ≠ .dozing) (hl : ∀ b ∈ ph.logged, b ∈ s.lh) : (s.goto p ph).Inv := by
  have hops := ops_goto_of_eq ha
  refine h.change ph rfl (hops ▸ h.outstanding) (hc ▸ h.committing_iff p)
    (fun hp q hq => h.not_commits_of_ne (hc ▸ hp) hq) (hops ▸ h.idle) (hops ▸ h.empty)
    (fun _ h' => h'.elim id hcl) ?_ (fun _ _ => Iff.rfl) ?_ hl (fun _ _ _ _ h' => h')
  · rw [goto_ptable, ← h.ptable]
    refine ⟨?_, fun h' => absurd h' hd⟩
    rintro rfl; cases hs
  rw [hs, hops]
  rintro (h' | ⟨-, -, -, h'⟩)
  · cases h'
  · exact h'

theorem Inv.begun (h : s.Inv) (hp : s.phase p = .entering) (hw : s.mustWait = false) :
    { s.goto p (.inOp []) with outstanding := s.outstanding + 1 : Proto P }.Inv := by
  have hops : { s.goto p (.inOp []) with outstanding := s.outstanding + 1 : Proto P }.ops =
      s.ops + 1 := ops_goto_of_active (by rw [hp]; rfl) rfl
  have hc : s.committing = false := by
    simp only [mustWait, Bool.or_eq_false_iff] at hw
    exact hw.1
  have hcom := h.committing_iff p
  rw [hp] at hcom
  refine h.change (.inOp []) rfl ?_ hcom nofun ?_ ?_ (fun _ h' => h'.elim id nofun) ?_
    (fun _ _ => Iff.rfl) (fun _ => .inr ?_) nofun (fun _ _ _ _ h' => h')
  · rw [hops, h.outstanding]
  · exact fun h' => absurd (hc.symm.trans h') nofun
  · intro h'; omega
  · simpa [hp] using h.ptable p
  · omega

theorem Inv.wait (h : s.Inv) (hp : s.phase p = .entering) (hw : s.mustWait = true)
    (ht : s.ptable = none) : { s.goto p .dozing with ptable := some p : Proto P }.Inv := by
  have hops : { s.goto p .dozing with ptable := some p : Proto P }.ops = s.ops :=
    ops_goto_of_eq (by rw [hp]; rfl)
  have hcom := h.committing_iff p
  rw [hp] at hcom
  refine h.change .dozing rfl (hops ▸ h.outstanding) hcom nofun (hops ▸ h.idle) (hops ▸ h.empty)
    (fun _ h' => h'.elim id nofun) (by simp) (fun q hq => ?_) (fun _ => hops ▸ h.waits hw) nofun
    (fun _ _ _ _ h' => h')
  simp [ht, hq.symm]

theorem Inv.doze (h : s.Inv) (hp : s.phase p = .dozing) :
    { s.goto p .asleep with ptable := none : Proto P }.Inv := by
  have hops : { s.goto p .asleep with ptable := none : Proto P }.ops = s.ops :=
    ops_goto_of_eq (by rw [hp]; rfl)
  have hcom := h.committing_iff p
  rw [hp] at hcom
  refine h.change .asleep rfl (hops ▸ h.outstanding) hcom nofun (hops ▸ h.idle) (hops ▸ h.empty)
    (fun _ h' => h'.elim id nofun) (by simp) (fun q hq => ?_)
    (fun _ => hops ▸ h.sleeper p (by rw [hp]; rfl)) nofun (fun _ _ _ _ h' => h')
  simp [(h.ptable p).1 hp, hq.symm]

theorem Inv.append (h : s.Inv) {l : List ℕ} {b : ℕ} (hp : s.phase p = .logging l b) :
    { s.goto p (.inOp (l ++ [b])) with lh := absorb s.lh b : Proto P }.Inv := by
  have ha : (s.phase p).active = true := by rw [hp]; rfl
  have hops : { s.goto p (.inOp (l ++ [b])) with lh := absorb s.lh b : Proto P }.ops = s.ops :=
    ops_goto_of_eq (by rw [hp]; rfl)
  have hcom := h.committing_iff p
  rw [hp] at hcom
  refine h.change (.inOp (l ++ [b])) rfl (hops ▸ h.outstanding) hcom nofun (hops ▸ h.idle) ?_ ?_ ?_
    (fun _ _ => Iff.rfl) ?_ ?_ (fun _ _ _ _ h' => mem_absorb.2 (.inl h'))
  · intro h'; have := ops_pos ha; omega
  · rintro (h' | ⟨q, -, h'⟩)
    · simp at h'
    · rw [h.not_commits ha] at h'; cases h'
  · simpa [hp] using h.ptable p
  · rw [hops]; exact fun _ => .inr (ops_pos ha)
  · intro c hc
    simp only [Phase.logged, List.mem_append, List.mem_singleton] at hc
    exact mem_absorb.2 (hc.imp (fun h' => h.logged p c (by rwa [hp])) id)

theorem Inv.endLast (h : s.Inv) {l : List ℕ} (hp : s.phase p = .inOp l)
    (ho : s.outstanding - 1 = 0) :
    { s.goto p .commit with
      outstanding := s.outstanding - 1, committing := true : Proto P }.Inv := by
  have ha : (s.phase p).active = true := by rw [hp]; rfl
  have hops : { s.goto p .commit with
      outstanding := s.outstanding - 1, committing := true : Proto P }.ops = s.ops - 1 :=
    ops_goto_of_not_active ha rfl
  have hout := h.outstanding
  refine h.change .commit rfl (by rw [hops, hout]) (by simp [Phase.commits])
    (fun _ q _ => h.not_commits ha q) (fun _ => by omega) nofun ?_ ?_ (fun _ _ => Iff.rfl)
    (fun _ => .inl rfl) nofun (fun _ _ _ _ h' => h')
  · rintro (h' | ⟨q, -, h'⟩)
    · simp at h'
    · rw [h.not_commits ha] at h'; cases h'
  · simpa [hp] using h.ptable p

theorem Inv.endOther (h : s.Inv) {l : List ℕ} (hp : s.phase p = .inOp l)
    (ho : s.outstanding - 1 ≠ 0) :
    ({ s with outstanding := s.outstanding - 1 }.wakeup.goto p .out).Inv := by
  have hw := h.wakeup
  have hp' : s.wakeup.phase p = .inOp l := by
    rw [wakeup_phase_eq_iff (by simp)]; exact ⟨hp, by simp⟩
  have ha : (s.wakeup.phase p).active = true := by rw [hp']; rfl
  have hops : ({ s with outstanding := s.outstanding - 1 }.wakeup.goto p .out).ops =
      s.wakeup.ops - 1 := ops_goto_of_not_active (s := s.wakeup) ha rfl
  have hout := hw.outstanding
  rw [wakeup_outstanding] at hout
  have hcom := hw.committing_iff p
  rw [hp'] at hcom
  refine hw.change .out rfl (by rw [hops, ← hout]; rfl) hcom nofun ?_ ?_
    (fun _ h' => h'.elim id (by simp)) ?_ (fun _ _ => Iff.rfl) ?_ nofun (fun _ _ _ _ h' => h')
  · intro h'; have := hw.committing_eq_false ha; exact absurd (this.symm.trans h') nofun
  · intro h'; omega
  · simpa [hp'] using hw.ptable p
  · intro _; right; omega

theorem Inv.clear (h : s.Inv) (hp : s.phase p = .writing 0) :
    { s.goto p .erasing with lh := [] : Proto P }.Inv := by
  have hc : (s.phase p).commits = true := by rw [hp]; rfl
  have hops : { s.goto p .erasing with lh := [] : Proto P }.ops = s.ops :=
    ops_goto_of_eq (by rw [hp]; rfl)
  have h0 : s.ops = 0 := h.idle (h.committing.2 ⟨p, hc⟩)
  have hcom := h.committing_iff p
  rw [hp] at hcom
  refine h.change .erasing rfl (hops ▸ h.outstanding) hcom
    (fun _ q hq => h.not_commits_of_ne hc hq) (hops ▸ h.idle) (fun _ _ => rfl) (fun _ _ => rfl) ?_
    (fun _ _ => Iff.rfl) (fun _ => .inl (h.committing.2 ⟨p, hc⟩)) nofun (fun q _ b hb _ => ?_)
  · simpa [hp] using h.ptable p
  -- no operation is active, so none has logged anything
  exfalso
  have hq : (s.phase q).active = true := by
    cases hph : s.phase q <;> rw [hph] at hb <;> first | rfl | cases hb
  have := ops_pos hq
  omega

theorem Inv.finish (h : s.Inv) (hp : s.phase p = .committed) (ht : s.ptable = none) :
    ({ s with committing := false }.wakeup.goto p .out).Inv := by
  have hw := h.wakeup
  have hp' : s.wakeup.phase p = .committed := by
    rw [wakeup_phase_eq_iff (by simp)]; exact ⟨hp, by simp⟩
  have hc : (s.wakeup.phase p).commits = true := by rw [hp']; rfl
  have hops : ({ s with committing := false }.wakeup.goto p .out).ops = s.wakeup.ops :=
    ops_goto_of_eq (s := s.wakeup) (by rw [hp']; rfl)
  have hlh : s.lh = [] := h.cleared p (.inr hp)
  have h0 : s.wakeup.ops = 0 := hw.idle (hw.committing.2 ⟨p, hc⟩)
  have hcom : ∀ q ≠ p, (s.wakeup.phase q).commits = false := fun q => hw.not_commits_of_ne hc
  refine hw.change .out rfl (hops ▸ hw.outstanding) ?_ nofun nofun (fun _ _ => hlh) (fun _ _ => hlh)
    ?_ (fun _ _ => Iff.rfl) ?_ nofun (fun _ _ _ _ h' => h')
  · simp only [goto_committing, wakeup_committing, Bool.false_eq_true, false_iff, not_or,
      not_exists, not_and]
    exact ⟨nofun, fun q hq => by simp [hcom q hq]⟩
  · simpa [hp'] using hw.ptable p
  -- everybody is awake
  rintro (h' | ⟨q, -, hq, -⟩)
  · cases h'
  exfalso
  rw [wakeup_phase] at hq
  split_ifs at hq with ha
  · cases hq
  have hd : s.phase q = .dozing := by
    cases hph : s.phase q <;> rw [hph] at hq ha <;>
      first | rfl | exact absurd rfl ha | cases hq
  rw [(h.ptable q).1 hd] at ht
  cases ht

theorem inv_move (h : s.Inv) (hm : Move size s e s') : s'.Inv := by
  cases hm with
  | beginOp hp | kill hp | commit hp _ =>
    exact h.goto _ (by rw [hp]; rfl) (by rw [hp]; rfl) rfl nofun (by simp [hp]) nofun
  | begun hp hw => exact h.begun hp hw
  | wait hp hw ht => exact h.wait hp hw ht
  | doze hp => exact h.doze hp
  | tooBig hp _ | outside hp _ => exact ⟨h.1, h.2, h.3, h.4, h.5, h.6, h.7, h.8, h.9⟩
  | logWrite hp _ =>
    exact h.goto _ (by rw [hp]; rfl) (by rw [hp]; rfl) rfl nofun (by simp [hp])
      fun b hb => h.logged _ b (by rwa [hp])
  | append hp => exact h.append hp
  | endPanic hp hc =>
    have := h.committing_eq_false (p := _) (by rw [hp]; rfl)
    exact absurd (this.symm.trans hc) nofun
  | endLast hp _ ho => exact h.endLast hp ho
  | endOther hp _ ho _ => exact h.endOther hp ho
  | commitEmpty hp hn =>
    exact h.goto _ (by rw [hp]; rfl) (by rw [hp]; rfl) rfl (fun _ => hn) (by simp [hp]) nofun
  | diskWrite hp =>
    exact h.goto _ (by rw [hp]; rfl) (by rw [hp]; rfl) rfl nofun (by simp [hp]) nofun
  | erase hp =>
    exact h.goto _ (by rw [hp]; rfl) (by rw [hp]; rfl) rfl (fun _ => h.cleared _ (.inl hp))
      (by simp [hp]) nofun
  | clear hp => exact h.clear hp
  | finish hp ht => exact h.finish hp ht

/-- Neither `end_op` nor the second test of `log_write` panics. -/
theorem move_panicked (h : s.Inv) (hp : s.panicked = none) (hm : Move size s e s') :
    s'.panicked = none ∨ s'.panicked = some .tooBig := by
  cases hm with
  | tooBig => exact .inr rfl
  | @outside p _ _ hop ho =>
    have := ops_pos (s := s) (p := p) (by rw [hop]; rfl)
    have := h.outstanding
    omega
  | endPanic hop hc =>
    have := h.committing_eq_false (p := _) (by rw [hop]; rfl)
    exact absurd (this.symm.trans hc) nofun
  | _ => exact .inl hp

theorem inv_of_run {es : List (Event P)} (h : (proto P size).Run init es s) :
    s.Inv ∧ (s.panicked = none ∨ s.panicked = some .tooBig) := by
  refine h.invariant (I := fun s => s.Inv ∧ (s.panicked = none ∨ s.panicked = some .tooBig))
    ⟨inv_init, .inl rfl⟩ fun s₁ e s₂ hi hst => ?_
  obtain ⟨hp, hm⟩ := move_of_step hst
  exact ⟨inv_move hi.1 hm, move_panicked hi.1 hp hm⟩

/-! ### One operation, one commit -/

/-- While an operation of `p` is active, the only step that ends it is its own `end_op`; until
then no commit step happens and no block leaves the header. -/
theorem move_active (h : s.Inv) (ha : (s.phase p).active = true) (he : e ≠ .endOp p)
    (hm : Move size s e s') :
    (s'.phase p).active = true ∧ e.isCommit = false ∧ ∀ b ∈ s.lh, b ∈ s'.lh := by
  have hgoto : ∀ {q : P} {ph : Phase}, ((s.phase q).active = true → ph.active = true) →
      ((s.goto q ph).phase p).active = true := by
    intro q ph hq
    by_cases hpq : p = q
    · subst hpq; rw [goto_phase_self]; exact hq ha
    · rw [goto_phase_of_ne hpq, ha]
  have hcom := h.not_commits ha
  cases hm with
  | beginOp hq | wait hq _ _ | doze hq | kill hq =>
    exact ⟨hgoto (by simp [hq, Phase.active]), rfl, fun _ h' => h'⟩
  | begun hq _ | logWrite hq _ => exact ⟨hgoto fun _ => rfl, rfl, fun _ h' => h'⟩
  | tooBig | outside | endPanic hq hc => exact ⟨ha, rfl, fun _ h' => h'⟩
  | append hq => exact ⟨hgoto fun _ => rfl, rfl, fun _ h' => mem_absorb.2 (.inl h')⟩
  | @endLast q _ hq _ ho =>
    -- a second active operation contradicts the count
    have hpq : p ≠ q := by rintro rfl; exact he rfl
    refine ⟨?_, rfl, fun _ h' => h'⟩
    change ((s.goto q .commit).phase p).active = true
    rw [goto_phase_of_ne hpq, ha]
  | @endOther q _ hq _ ho ht =>
    have hpq : p ≠ q := by rintro rfl; exact he rfl
    refine ⟨?_, rfl, fun _ h' => h'⟩
    rw [goto_phase_of_ne hpq, wakeup_active]
    exact ha
  | @commit q hq | @commitEmpty q hq | @diskWrite q _ hq | @erase q hq | @clear q hq
  | @finish q hq => have := hcom q; rw [hq] at this; cases this

theorem run_active (h : s.Inv) (ha : (s.phase p).active = true) {es : List (Event P)}
    (hr : ((proto P size).restrict fun _ e => e ≠ .endOp p).Run s es s') :
    (s'.phase p).active = true ∧ (∀ e ∈ es, e.isCommit = false) ∧ ∀ b ∈ s.lh, b ∈ s'.lh := by
  have := hr.invariant_history (I := fun es s' => s'.Inv ∧ (s'.phase p).active = true ∧
    (∀ e ∈ es, e.isCommit = false) ∧ ∀ b ∈ s.lh, b ∈ s'.lh)
    ⟨h, ha, nofun, fun _ h' => h'⟩ ?_
  · exact this.2
  rintro es s₁ e s₂ - ⟨hi, h1, h2, h3⟩ ⟨hst, he⟩
  obtain ⟨-, hm⟩ := move_of_step hst
  obtain ⟨h4, h5, h6⟩ := move_active hi h1 he hm
  refine ⟨inv_move hi hm, h4, fun e' he' => ?_, fun b hb => h6 b (h3 b hb)⟩
  rcases List.mem_append.1 he' with he' | he'
  · exact h2 e' he'
  · rwa [List.mem_singleton.1 he']

/-- While `committing` is set, nothing but the commit and the entrance to `begin_op` moves: no
operation begins and no block is logged. -/
theorem move_committing (h : s.Inv) (hc : s.committing = true) (hm : Move size s e s') :
    (∀ p, (s'.phase p).active = false) ∧ (∀ p b, e ≠ .logWrite p b ∧ e ≠ .append p b) := by
  have hna : ∀ p, (s.phase p).active = false := by
    intro p
    by_contra ha
    have := h.committing_eq_false (p := p) (by simpa using ha)
    rw [hc] at this; cases this
  have hgoto : ∀ {q : P} {ph : Phase}, ph.active = false →
      ∀ p, ((s.goto q ph).phase p).active = false := by
    intro q ph hph p
    by_cases hpq : p = q
    · subst hpq; rw [goto_phase_self, hph]
    · rw [goto_phase_of_ne hpq, hna]
  cases hm with
  | beginOp | wait | doze | kill | commit | commitEmpty | diskWrite | erase | clear =>
    exact ⟨hgoto rfl, fun _ _ => ⟨nofun, nofun⟩⟩
  | begun _ hw => simp [mustWait, hc] at hw
  | @tooBig p _ _ hp | @outside p _ _ hp | @logWrite p _ _ hp | @append p _ _ hp
  | @endPanic p _ hp | @endLast p _ hp | @endOther p _ hp =>
    have := hna p; rw [hp] at this; cases this
  | @finish q hq =>
    refine ⟨fun p => ?_, fun _ _ => ⟨nofun, nofun⟩⟩
    by_cases hpq : p = q
    · subst hpq; rw [goto_phase_self]; rfl
    · rw [goto_phase_of_ne hpq, wakeup_active]; exact hna p

end

end Proto

variable {P : Type*} [DecidableEq P] [Fintype P]

/-- **The group commit protocol is safe.**  In every reachable state, for any number of processes:

* a commit runs only while `outstanding` is `0`, and at most one process commits;
* while `committing` is set, no step begins an operation or logs a block;
* until an active operation calls `end_op` itself, no step of a commit happens and no block leaves
  the header, which names all the blocks the operation has logged: its writes are never split over
  two commits;
* `end_op` has not panicked;
* a process asleep in `begin_op` has a commit or an outstanding operation to wait for. -/
theorem group_commit_safe {size : ℕ} {es : List (Event P)} {s : Proto P}
    (h : (proto P size).Run .init es s) :
    (∀ p, (s.phase p).commits = true → s.outstanding = 0) ∧
    (∀ p q, (s.phase p).commits = true → (s.phase q).commits = true → p = q) ∧
    (s.committing = true → ∀ e s', (proto P size).step s e s' →
      (∀ p, (s'.phase p).active = false) ∧ ∀ p b, e ≠ .logWrite p b ∧ e ≠ .append p b) ∧
    (∀ p, (s.phase p).active = true →
      (∀ b ∈ (s.phase p).logged, b ∈ s.lh) ∧
      ∀ es' s', ((proto P size).restrict fun _ e => e ≠ .endOp p).Run s es' s' →
        (s'.phase p).active = true ∧ (∀ e ∈ es', e.isCommit = false) ∧ ∀ b ∈ s.lh, b ∈ s'.lh) ∧
    s.panicked ≠ some .committing ∧
    (∀ p, s.phase p = .asleep → s.committing = true ∨ 0 < s.outstanding) := by
  obtain ⟨hi, hp⟩ := Proto.inv_of_run h
  refine ⟨fun p hc => ?_, hi.unique, fun hc e s' hst => ?_, fun p ha => ⟨hi.logged p, ?_⟩, ?_,
    fun p ha => ?_⟩
  · rw [hi.outstanding]; exact hi.idle (hi.committing.2 ⟨p, hc⟩)
  · exact Proto.move_committing hi hc (Proto.move_of_step hst).2
  · exact fun es' s' hr => Proto.run_active hi ha hr
  · rcases hp with hp | hp <;> simp [hp]
  · rw [hi.outstanding]
    exact hi.sleeper p (by rw [ha]; rfl)

/-- Two operations share a transaction, and the second one to end commits it. -/
theorem group_commit_safe_two :
    ∃ s, (proto (Fin 2) 30).Run .init [.beginOp 0, .beginOp 1, .enter 0, .enter 1, .logWrite 0 7,
      .append 0 7, .endOp 0, .endOp 1, .commit 1, .diskWrite 1] s ∧
      (s.phase 1).commits = true ∧ s.outstanding = 0 := by
  have hx : (LTS.exec (Proto.step 30) (.init : Proto (Fin 2)) [.beginOp 0, .beginOp 1, .enter 0,
      .enter 1, .logWrite 0 7, .append 0 7, .endOp 0, .endOp 1, .commit 1, .diskWrite 1]).map
        (fun s => (s.phase 1).commits) = some true := by decide
  obtain ⟨s, hs, hc⟩ := Option.map_eq_some_iff.1 hx
  have hr := LTS.run_of_exec hs
  exact ⟨s, hr, hc, (group_commit_safe hr).1 1 hc⟩

end Log

end Xv6
