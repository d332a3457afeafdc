import Mathlib.Data.Int.Notation
import Mathlib.Data.List.Nodup
import Xv6.LTS.Basic
import Xv6.Prog.Update

/-!
# Interrupts and kernel threads

`pushcli` and `popcli` of `spinlock.c` keep the depth of nesting and the interrupt flag in the
record of the CPU, and `sched` of `proc.c` moves a kernel thread to another CPU in between.

A CPU runs its scheduler or a process.  What a thread does with the flag is the same for both
(`Op`):

* `pushcli`, in two steps, since an interrupt may come before `cli()` (`readeflags`, `cli`);
  `popcli`;
* `acquire` after its `pushcli` (`acquire`) and `release` before its `popcli` (`release`); the
  `pushcli` and `popcli` of `holding` and `myproc` are steps of their own;
* an interrupt and the return from it (`interrupt`, `iret`);
* `sti()` of the scheduler, and the return of a process to user mode (`enable`).

A process may call `sched` when it holds `ptable.lock` and nothing else; the scheduler may then run
any process that is not running.  A thread uses the calls properly nested; what it does otherwise is
arbitrary.  Spinning is no step.

`interrupt_state` : **interrupts are off in critical sections, nothing panics, and a process leaves
its outermost critical section with the flag with which it has entered it, on whichever CPU this
happens**.
-/

namespace Xv6

open Option

namespace Spinlock

/-- What `struct cpu` says about interrupts, and `FL_IF`. -/
structure Cpu where
  ncli : ℤ
  intena : Bool
  fl : Bool

/-- A kernel thread. -/
structure Thread (L : Type) where
  /-- The calls of `pushcli` without their `popcli`. -/
  depth : ℕ
  /-- The locks that it holds. -/
  held : List L
  /-- `eflags` of `pushcli`, before `cli()`. -/
  eflags : Option Bool
  /-- What `eflags` was in the threads of control that were interrupted. -/
  frames : List (Option Bool)
  /-- `intena` of `sched`. -/
  intena : Bool
  /-- It has left `forkret`, or will return to `sched`. -/
  started : Bool
  /-- Whether interrupts were on when it entered the outermost critical section. -/
  entry : Bool
  /-- It was started in the critical section of a scheduler and has not entered one of its own. -/
  fresh : Bool

/-- What a thread may do on its CPU. -/
inductive Op (L : Type)
  | readeflags
  | cli
  | popcli
  | acquire (lk : L)
  | release (lk : L)
  | interrupt
  | iret
  | enable

variable {C P L : Type} [DecidableEq C] [DecidableEq P] [DecidableEq L]

/-- One step of the thread `t` on CPU `c`; `none` is a step that the thread may not take, an error
is a panic. -/
def Op.run (c : C) (k : Cpu) (t : Thread L) (lock : L → Option C) :
    Op L → Option (Except String (Cpu × Thread L × (L → Option C)))
  | .readeflags =>
    if t.eflags = none then some (.ok (k, { t with eflags := some k.fl }, lock)) else none
  | .cli => t.eflags.map fun e =>
    .ok ({ ncli := k.ncli + 1, intena := if k.ncli = 0 then e else k.intena, fl := false },
      { t with
        depth := t.depth + 1
        eflags := none
        entry := if t.depth = 0 then k.fl else t.entry
        fresh := t.depth ≠ 0 && t.fresh }, lock)
  | .popcli =>
    if t.eflags = none ∧ t.held.length < t.depth then
      some (if k.fl then .error "popcli - interruptible"
        else if k.ncli - 1 < 0 then .error "popcli"
        else .ok ({ k with
          ncli := k.ncli - 1, fl := if k.ncli - 1 = 0 ∧ k.intena then true else k.fl },
          { t with depth := t.depth - 1 }, lock))
    else none
  | .acquire lk =>
    if t.eflags = none ∧ t.held.length < t.depth ∧ lk ∉ t.held then
      if lock lk = some c then some (.error "acquire")
      else if lock lk =
        none then some (.ok (k, { t with held := lk :: t.held }, upd lock lk (some c)))
      else none
    else none
  | .release lk =>
    if t.eflags = none ∧ lk ∈ t.held then
      some (if lock lk ≠ some c then .error "release"
        else .ok (k, { t with held := t.held.erase lk }, upd lock lk none))
    else none
  | .interrupt =>
    if k.fl then some
      (.ok ({ k with fl := false }, { t with eflags := none, frames := t.eflags :: t.frames },
      lock))
    else none
  | .iret =>
    match t.frames with
    | [] => none
    | e :: fs =>
      if t.eflags = none ∧ t.depth =
        0 then some (.ok ({ k with fl := true }, { t with eflags := e, frames := fs }, lock))
      else none
  | .enable =>
    if t.eflags = none ∧ t.depth = 0 ∧
      t.frames = [] then some (.ok ({ k with fl := true }, t, lock)) else none

/-- The CPUs, the locks and the threads. -/
structure State (C P L : Type) where
  cpu : C → Cpu
  /-- `lk->cpu`, if `lk->locked`. -/
  lock : L → Option C
  /-- `c->proc`; the scheduler runs if there is none. -/
  proc : C → Option P
  /-- The schedulers. -/
  scheduler : C → Thread L
  /-- The kernel threads of the processes. -/
  thread : P → Thread L
  /-- Where the processes run. -/
  on : P → Option C

/-- Steps. -/
inductive Label (C P L : Type)
  | op (c : C) (o : Op L)
  /-- `sched` up to `swtch`. -/
  | sched (c : C)
  /-- `swtch` of `scheduler`, and what follows it in `sched`. -/
  | swtch (c : C) (p : P)

namespace State

/-- The thread that CPU `c` runs. -/
def running (s : State C P L) (c : C) : Thread L := (s.proc c).elim (s.scheduler c) s.thread

/-- Change the thread that CPU `c` runs. -/
def setRunning (s : State C P L) (c : C) (t : Thread L) : State C P L :=
  match s.proc c with
  | none => { s with scheduler := upd s.scheduler c t }
  | some p => { s with thread := upd s.thread p t }

/-- `sched` on CPU `c`, up to `swtch`.  The test for `sched interruptible` comes after that of
`mycpu`; `p->state` is up to the caller. -/
def sched (ptable : L) (s : State C P L) (c : C) (p : P) : Except String (State C P L) :=
  if s.lock ptable ≠ some c then .error "sched ptable.lock"
  else if (s.cpu c).fl then .error "mycpu called with interrupts enabled"
  else if (s.cpu c).ncli ≠ 1 then .error "sched locks"
  else .ok { s with
    proc := upd s.proc c none
    on := upd s.on p none
    thread := upd s.thread p { s.thread p with intena := (s.cpu c).intena } }

/-- The scheduler of CPU `c` switches to `p`, which returns to `sched` or begins in `forkret`. -/
def swtch (s : State C P L) (c : C) (p : P) : State C P L :=
  let t := s.thread p
  { s with
    proc := upd s.proc c (some p)
    on := upd s.on p (some c)
    thread := upd s.thread p { t with started := true }
    cpu := upd s.cpu c (if t.started then { s.cpu c with intena := t.intena } else s.cpu c) }

/-- The thread holds `ptable.lock` and nothing else. -/
def Holds (ptable : L) (t : Thread L) : Prop := t.eflags = none ∧ t.depth = 1 ∧ t.held = [ptable]

instance (ptable : L) (t : Thread L) : Decidable (Holds ptable t) := by
  unfold Holds
  infer_instance

/-- One step; an error is a panic. -/
def step (ptable : L) (s : State C P L) : Label C P L → Option (Except String (State C P L))
  | .op c o => (o.run c (s.cpu c) (s.running c) s.lock).map fun r => r.map fun x =>
    { s with cpu := upd s.cpu c x.1, lock := x.2.2 }.setRunning c x.2.1
  | .sched c =>
    (s.proc c).bind fun p => if Holds ptable (s.thread p) then some (s.sched ptable c p) else none
  | .swtch c p =>
    if s.proc c = none ∧ Holds ptable (s.scheduler c) ∧
      s.on p = none then some (.ok (s.swtch c p)) else none

end State

/-- The kernel threads, until a panic. -/
def system (C P : Type) {L : Type} [DecidableEq C] [DecidableEq P] [DecidableEq L] (ptable : L) :
    LTS (State C P L) (Label C P L) :=
  .ofFun fun s l => (s.step ptable l).bind Except.toOption

/-- The CPUs are about to call `scheduler`, and no process has run yet. -/
structure Initial (ptable : L) (s : State C P L) : Prop where
  cpu : ∀ c, (s.cpu c).ncli = 0 ∧ (s.cpu c).fl = false
  lock : ∀ lk, s.lock lk = none
  proc : ∀ c, s.proc c = none
  on : ∀ p, s.on p = none
  scheduler : ∀ c, (s.scheduler c).depth = 0 ∧ (s.scheduler c).held = [] ∧
    (s.scheduler c).eflags = none ∧ (s.scheduler c).frames = []
  /-- `forkret` is in the critical section of a scheduler. -/
  thread : ∀ p, State.Holds ptable (s.thread p) ∧ (s.thread p).frames = [] ∧
    (s.thread p).fresh = true

/-! ### One CPU -/

/-- The CPU `k` runs the thread `t`. -/
structure Runs (k : Cpu) (t : Thread L) (isProc : Prop) : Prop where
  ncli : k.ncli = t.depth
  off : 0 < t.depth → k.fl = false
  intena : isProc → t.fresh = false → 0 < t.depth → k.intena = t.entry
  started : isProc → t.started = true
  eflags : ∀ e ∈ t.eflags, k.fl = e
  frames : ∀ q ∈ t.frames, ∀ e ∈ q, e = true
  held : t.held.length ≤ t.depth
  nodup : t.held.Nodup

/-- What is kept by a step of the thread on CPU `c`. -/
structure Keeps (c : C) (lock lock' : L → Option C) (k' : Cpu) (t' : Thread L) (isProc : Prop) :
    Prop where
  runs : Runs k' t' isProc
  mine : ∀ lk, lock' lk = some c ↔ lk ∈ t'.held
  others : ∀ lk c', c' ≠ c → (lock' lk = some c' ↔ lock lk = some c')

variable {c c' : C} {p : P} {ptable : L} {k : Cpu} {t : Thread L} {lock : L → Option C}
  {isProc : Prop} {o : Op L}
variable {s s' : State C P L}

/-- No step panics, and the last `popcli` restores the flag. -/
theorem Op.run_keeps {r : Except String (Cpu × Thread L × (L → Option C))} (h : Runs k t isProc)
    (hl : ∀ lk, lock lk = some c ↔ lk ∈ t.held) (hr : o.run c k t lock = some r) :
    ∃ k' t' lock', r = .ok (k', t', lock') ∧ Keeps c lock lock' k' t' isProc := by
  cases o with
  | readeflags =>
    obtain ⟨he, hr⟩ := ite_none_right_eq_some.1 hr
    cases hr
    refine ⟨_, _, _, rfl, { h with eflags := fun e he => ?_ }, hl, fun _ _ _ => Iff.rfl⟩
    exact Option.some.inj he
  | cli =>
    obtain ⟨e, he, rfl⟩ := map_eq_some_iff.1 hr
    have hfl := h.eflags e he
    refine ⟨_, _, _, rfl,
      ⟨?_, fun _ => rfl, fun hp hf _ => ?_, h.started, fun e he => (by cases he), h.frames,
        Nat.le_succ_of_le h.held, h.nodup⟩, hl, fun _ _ _ => Iff.rfl⟩
    · show k.ncli + 1 = ((t.depth + 1 : ℕ) : ℤ)
      rw [h.ncli]
      rfl
    have hn := h.ncli
    by_cases hd : t.depth = 0
    · have hz : k.ncli = 0 := by omega
      simp only [hz, hd, if_true, hfl]
    · have hz : k.ncli ≠ 0 := by omega
      simp only [hd, hz, if_false] at hf ⊢
      exact h.intena hp (by simpa [hd] using hf) (by omega)
  | popcli =>
    obtain ⟨⟨he, hroom⟩, hr⟩ := ite_none_right_eq_some.1 hr
    cases hr
    have hd : 0 < t.depth := by omega
    have hn := h.ncli
    rw [if_neg (by rw [h.off hd]; simp), if_neg (by omega)]
    refine ⟨_, _, _, rfl, ⟨?_, fun hd' => ?_, fun hp hf hd' => ?_, h.started, fun e he' => ?_,
      h.frames, ?_, h.nodup⟩, hl, fun _ _ _ => Iff.rfl⟩
    · show k.ncli - 1 = ((t.depth - 1 : ℕ) : ℤ)
      omega
    · have hz : ¬ (k.ncli - 1 = 0 ∧ k.intena = true) := fun hx => by
        simp only at hd'
        omega
      simp only [hz, if_false]
      exact h.off hd
    · exact h.intena hp hf hd
    · rw [show t.eflags = none from he] at he'
      cases he'
    · show t.held.length ≤ t.depth - 1
      omega
  | acquire lk =>
    obtain ⟨⟨he, hroom, hlk⟩, hr⟩ := ite_none_right_eq_some.1 hr
    rw [if_neg fun hx => hlk ((hl lk).1 hx)] at hr
    obtain ⟨hfree, hr⟩ := ite_none_right_eq_some.1 hr
    cases hr
    refine ⟨_, _, _, rfl, { h with held := hroom, nodup := List.nodup_cons.2 ⟨hlk, h.nodup⟩ },
      fun lk' => ?_, fun lk' c' hc => ?_⟩
    · simp only [upd, List.mem_cons]
      by_cases hx : lk' = lk
      · simp [hx]
      · simp [hx, hl lk']
    simp only [upd]
    by_cases hx : lk' = lk
    · simp [hx, hfree, hc.symm]
    · simp [hx]
  | release lk =>
    obtain ⟨⟨he, hlk⟩, hr⟩ := ite_none_right_eq_some.1 hr
    cases hr
    have hmine := (hl lk).2 hlk
    rw [if_neg (not_not.2 hmine)]
    refine ⟨_, _, _, rfl, { h with held := ?_, nodup := h.nodup.erase lk }, fun lk' => ?_,
      fun lk' c' hc => ?_⟩
    · exact Nat.le_trans List.length_erase_le h.held
    · simp only [upd, h.nodup.mem_erase_iff]
      by_cases hx : lk' = lk
      · simp [hx]
      · simp [hx, hl lk']
    · simp only [upd]
      by_cases hx : lk' = lk
      · simp [hx, hmine, hc.symm]
      · simp [hx]
  | interrupt =>
    obtain ⟨hfl, hr⟩ := ite_none_right_eq_some.1 hr
    cases hr
    refine ⟨_, _, _, rfl,
      { h with off := fun _ => rfl, eflags := fun e he => (by cases he), frames := ?_ }, hl,
      fun _ _ _ => Iff.rfl⟩
    intro q hq e he
    rcases List.mem_cons.1 hq with rfl | hq
    · rw [← h.eflags e he, hfl]
    · exact h.frames q hq e he
  | iret =>
    cases hf : t.frames with
    | nil =>
      simp only [Op.run, hf] at hr
      cases hr
    | cons q fs =>
    simp only [Op.run, hf] at hr
    obtain ⟨⟨he, hd⟩, hr⟩ := ite_none_right_eq_some.1 hr
    cases hr
    have hframes := h.frames
    rw [hf] at hframes
    refine ⟨_, _, _, rfl, { h with
      off := fun hx => absurd hd (Nat.ne_of_gt hx), eflags := fun e he' => ?_, frames := ?_ }, hl,
      fun _ _ _ => Iff.rfl⟩
    · exact (hframes q List.mem_cons_self e he').symm
    · exact fun q' hq' => hframes q' (List.mem_cons_of_mem _ hq')
  | enable =>
    obtain ⟨⟨he, hd, -⟩, hr⟩ := ite_none_right_eq_some.1 hr
    cases hr
    refine ⟨_, _, _, rfl,
      { h with off := fun hx => absurd hd (Nat.ne_of_gt hx), eflags := fun e he' => ?_ }, hl,
      fun _ _ _ => Iff.rfl⟩
    rw [he] at he'
    cases he'

theorem Op.popcli_restores {k' : Cpu} {t' : Thread L} {lock' : L → Option C} (h : Runs k t isProc)
    (hp : isProc) (hf : t.fresh = false)
    (hr : Op.popcli.run c k t lock = some (.ok (k', t', lock'))) (hd : t'.depth = 0) :
    k'.fl = t.entry := by
  obtain ⟨⟨-, hroom⟩, hr⟩ := ite_none_right_eq_some.1 hr
  have hpos : 0 < t.depth := by omega
  have hn := h.ncli
  rw [if_neg (by rw [h.off hpos]; simp), if_neg (by omega)] at hr
  obtain ⟨rfl, ht⟩ := Prod.mk.inj (Except.ok.inj (Option.some.inj hr))
  obtain ⟨rfl, -⟩ := Prod.mk.inj ht
  have hone : t.depth - 1 = 0 := hd
  have hz : k.ncli - 1 = 0 := by omega
  have hoff := h.off hpos
  rw [← h.intena hp hf hpos]
  simp only [hz, true_and, hoff]
  cases k.intena <;> rfl

/-! ### All CPUs -/

/-- The thread is in `sched` or in `scheduler`, or is still to begin in `forkret`. -/
structure Parked (ptable : L) (t : Thread L) (isProc : Prop) : Prop where
  holds : State.Holds ptable t
  frames : ∀ q ∈ t.frames, ∀ e ∈ q, e = true
  intena : isProc → t.fresh = false → t.started = true ∧ t.intena = t.entry

/-- The invariant. -/
structure Inv (ptable : L) (s : State C P L) : Prop where
  runs : ∀ c, Runs (s.cpu c) (s.running c) (s.proc c ≠ none)
  lock : ∀ lk c, s.lock lk = some c ↔ lk ∈ (s.running c).held
  on : ∀ c p, s.proc c = some p ↔ s.on p = some c
  scheduler : ∀ c, s.proc c ≠ none → Parked ptable (s.scheduler c) False
  thread : ∀ p, s.on p = none → Parked ptable (s.thread p) True

namespace State

omit [DecidableEq L]

omit [DecidableEq C] [DecidableEq P] in
theorem running_none (h : s.proc c = none) : s.running c = s.scheduler c := by
  rw [running, h]
  rfl

omit [DecidableEq C] [DecidableEq P] in
theorem running_some (h : s.proc c = some p) : s.running c = s.thread p := by
  rw [running, h]
  rfl

theorem setRunning_fields : (s.setRunning c t).cpu = s.cpu ∧ (s.setRunning c t).lock = s.lock ∧
    (s.setRunning c t).proc = s.proc ∧ (s.setRunning c t).on = s.on := by
  unfold setRunning
  split <;> exact ⟨rfl, rfl, rfl, rfl⟩

theorem setRunning_self : (s.setRunning c t).running c = t := by
  cases hp : s.proc c with
  | none => simp only [setRunning, running, hp, elim_none, upd, if_true]
  | some p => simp only [setRunning, running, hp, elim_some, upd, if_true]

theorem setRunning_other (hon : ∀ c p, s.proc c = some p ↔ s.on p = some c) (hne : c' ≠ c) :
    (s.setRunning c t).running c' = s.running c' := by
  cases hp : s.proc c with
  | none => simp only [setRunning, running, hp, upd, if_neg hne]
  | some p =>
  cases hp' : s.proc c' with
  | none => simp only [setRunning, running, hp, hp', elim_none]
  | some p' =>
  have hpp : p' ≠ p := fun he => by
    have h1 := (hon c p).1 hp
    have h2 := (hon c' p').1 hp'
    rw [he, h1] at h2
    exact hne (Option.some.inj h2).symm
  simp only [setRunning, running, hp, hp', elim_some, upd, if_neg hpp]

theorem setRunning_scheduler (hp : s.proc c' ≠ none) :
    (s.setRunning c t).scheduler c' = s.scheduler c' := by
  cases hc : s.proc c with
  | none =>
    have hne : c' ≠ c := fun he => hp (he ▸ hc)
    simp only [setRunning, hc, upd, if_neg hne]
  | some p => simp only [setRunning, hc]

theorem setRunning_thread (hon : ∀ c p, s.proc c = some p ↔ s.on p = some c) (hp : s.on p = none) :
    (s.setRunning c t).thread p = s.thread p := by
  cases hc : s.proc c with
  | none => simp only [setRunning, hc]
  | some p' =>
    have hne : p ≠ p' := fun he => by
      rw [he, (hon c p').1 hc] at hp
      cases hp
    simp only [setRunning, hc, upd, if_neg hne]

end State

omit [DecidableEq C] [DecidableEq P] [DecidableEq L] in
theorem init_inv (h : Initial ptable s) : Inv ptable s where
  runs c := by
    obtain ⟨hn, hfl⟩ := h.cpu c
    obtain ⟨hd, hheld, he, hf⟩ := h.scheduler c
    rw [State.running_none (h.proc c)]
    refine ⟨by rw [hn, hd]; rfl, fun _ => hfl, fun hp => absurd (h.proc c) hp, fun hp =>
      absurd (h.proc c) hp, ?_, ?_, ?_, ?_⟩
    · rw [he]
      exact fun e he => by cases he
    · rw [hf]
      exact fun q hq => by cases hq
    · rw [hheld]
      exact Nat.zero_le _
    · rw [hheld]
      exact List.nodup_nil
  lock lk c := by
    rw [State.running_none (h.proc c), h.lock lk, (h.scheduler c).2.1]
    simp
  on c p := by
    rw [h.proc c, h.on p]
    simp
  scheduler c hp := absurd (h.proc c) hp
  thread p _ := by
    obtain ⟨hholds, hf, hfresh⟩ := h.thread p
    refine ⟨hholds, ?_, fun _ hx => ?_⟩
    · rw [hf]
      exact fun q hq => by cases hq
    · rw [hfresh] at hx
      cases hx

omit [DecidableEq L] in
theorem Inv.setRunning {k' : Cpu} {t' : Thread L} {lock' : L → Option C} (h : Inv ptable s)
    (hk : Keeps c s.lock lock' k' t' (s.proc c ≠ none)) :
    Inv ptable ({ s with cpu := upd s.cpu c k', lock := lock' }.setRunning c t') := by
  generalize hs1 : ({ s with cpu := upd s.cpu c k', lock := lock' } : State C P L) = s₁
  obtain ⟨hcpu1, hlock1, hproc1, hon1, hrunning1, hsched1, hthread1⟩ : s₁.cpu = upd s.cpu c k' ∧
    s₁.lock = lock' ∧
      s₁.proc = s.proc ∧ s₁.on = s.on ∧ s₁.running = s.running ∧ s₁.scheduler = s.scheduler ∧
      s₁.thread = s.thread := by
    rw [← hs1]
    exact ⟨rfl, rfl, rfl, rfl, rfl, rfl, rfl⟩
  have hiff : ∀ c p, s₁.proc c = some p ↔ s₁.on p = some c := by
    rw [hproc1, hon1]
    exact h.on
  obtain ⟨hcpu, hlock, hproc, hon⟩ := @State.setRunning_fields C P L _ _ c t' s₁
  refine ⟨fun d => ?_, fun lk d => ?_, ?_, fun d hd => ?_, fun p hp => ?_⟩
  · rw [hcpu, hcpu1, hproc, hproc1]
    by_cases hd : d = c
    · rw [hd, upd_same, State.setRunning_self]
      exact hk.runs
    · rw [upd_of_ne _ _ hd, State.setRunning_other hiff hd, hrunning1]
      exact h.runs d
  · rw [hlock, hlock1]
    by_cases hd : d = c
    · rw [hd, State.setRunning_self]
      exact hk.mine lk
    · rw [State.setRunning_other hiff hd, hrunning1, ← h.lock lk d]
      exact hk.others lk d hd
  · rw [hproc, hon]
    exact hiff
  · rw [hproc] at hd
    rw [State.setRunning_scheduler hd, hsched1]
    exact h.scheduler d (hproc1 ▸ hd)
  · rw [hon] at hp
    rw [State.setRunning_thread hiff hp, hthread1]
    exact h.thread p (hon1 ▸ hp)

theorem Inv.op {r : Except String (State C P L)} (h : Inv ptable s)
    (hs : s.step ptable (.op c o) = some r) :
    ∃ s', r = .ok s' ∧ Inv ptable s' := by
  obtain ⟨x, hx, rfl⟩ := map_eq_some_iff.1 hs
  obtain ⟨k', t', lock', rfl, hk⟩ := Op.run_keeps (h.runs c) (fun lk => h.lock lk c) hx
  exact ⟨_, rfl, h.setRunning hk⟩

omit [DecidableEq L] in
/-- CPU `c` switches from `p` to its scheduler, or from its scheduler to `p`. -/
theorem Inv.switch {k' : Cpu} {t' : Thread L} {x : Option P} {y : Option C} (h : Inv ptable s)
    (hcpu : s'.cpu = upd s.cpu c k') (hlock : s'.lock = s.lock)
    (hsched : s'.scheduler = s.scheduler) (hproc : s'.proc = upd s.proc c x)
    (hon : s'.on = upd s.on p y) (hthread : s'.thread = upd s.thread p t') (hxy : x = none ∧
      y = none ∧ s.proc c = some p ∨ x = some p ∧ y = some c ∧ s.proc c = none ∧ s.on p = none)
    (hruns : Runs k' (s'.running c) (x ≠ none)) (hheld : (s'.running c).held = (s.running c).held)
    (hpark : x ≠ none → Parked ptable (s.scheduler c) False) (hpark' : y = none →
    Parked ptable t' True) :
    Inv ptable s' := by
  have hself : s'.proc c = x := by rw [hproc, upd_same]
  have hne : ∀ d, d ≠ c → s'.proc d = s.proc d := fun d hd => by rw [hproc, upd_of_ne _ _ hd]
  have hnep : ∀ q, q ≠ p → s'.on q = s.on q ∧ s'.thread q = s.thread q := fun q hq => by
    rw [hon, hthread]
    exact ⟨upd_of_ne _ _ hq, upd_of_ne _ _ hq⟩
  -- no other CPU runs `p`
  have hfree : ∀ d, d ≠ c → s.proc d ≠ some p := fun d hd hq => by
    have hd' := (h.on d p).1 hq
    rcases hxy with ⟨-, -, hp⟩ | ⟨-, -, -, hp⟩
    · rw [(h.on c p).1 hp] at hd'
      exact hd (Option.some.inj hd').symm
    · rw [hp] at hd'
      cases hd'
  have hother : ∀ d, d ≠ c → s'.running d = s.running d := fun d hd => by
    cases hq : s.proc d with
    | none => rw [State.running_none hq, State.running_none ((hne d hd).trans hq), hsched]
    | some q =>
      have hqp : q ≠ p := fun he => hfree d hd (he ▸ hq)
      rw [State.running_some hq, State.running_some ((hne d hd).trans hq), (hnep q hqp).2]
  refine ⟨fun d => ?_, fun lk d => ?_, fun d q => ?_, fun d hd => ?_, fun q hq => ?_⟩
  · rw [hcpu]
    by_cases hd : d = c
    · rw [hd, upd_same, hself]
      exact hruns
    · rw [upd_of_ne _ _ hd, hother d hd, hne d hd]
      exact h.runs d
  · rw [hlock, h.lock lk d]
    by_cases hd : d = c
    · rw [hd, hheld]
    · rw [hother d hd]
  · by_cases hd : d = c
    · subst hd
      rw [hself]
      by_cases hq : q = p
      · subst hq
        rw [hon, upd_same]
        rcases hxy with ⟨rfl, rfl, -⟩ | ⟨rfl, rfl, -, -⟩
        · simp
        · simp
      · rw [(hnep q hq).1, ← h.on d q]
        rcases hxy with ⟨rfl, -, hp⟩ | ⟨rfl, -, hp, -⟩
        · simp [hp, Ne.symm hq]
        · simp [hp, Ne.symm hq]
    · rw [hne d hd]
      by_cases hq : q = p
      · subst hq
        rw [hon, upd_same]
        rcases hxy with ⟨-, rfl, -⟩ | ⟨-, rfl, -, -⟩
        · simp [hfree d hd]
        · simp [hfree d hd, Ne.symm hd]
      · rw [(hnep q hq).1]
        exact h.on d q
  · rw [hsched]
    by_cases hdc : d = c
    · rw [hdc] at hd ⊢
      exact hpark (hself ▸ hd)
    · exact h.scheduler d (hne d hdc ▸ hd)
  · by_cases hqp : q = p
    · subst hqp
      rw [hon, upd_same] at hq
      rw [hthread, upd_same]
      exact hpark' hq
    · rw [(hnep q hqp).2]
      exact h.thread q ((hnep q hqp).1 ▸ hq)

omit [DecidableEq C] [DecidableEq P] [DecidableEq L] in
theorem Parked.runs (h : Parked ptable t isProc) (hn : k.ncli = 1) (hoff : k.fl = false)
    (hstarted : isProc → t.started = true)
    (hintena : isProc → t.fresh = false → k.intena = t.entry) : Runs k t isProc := by
  obtain ⟨⟨he, hd, hheld⟩, hframes, -⟩ := h
  refine ⟨by rw [hn, hd]; rfl, fun _ => hoff, fun hp hf _ => hintena hp hf, hstarted, ?_,
    hframes, ?_, ?_⟩
  · rw [he]
    exact fun e he => by cases he
  · rw [hheld, hd]
    exact Nat.le_refl 1
  · rw [hheld]
    exact List.nodup_singleton _

theorem Inv.sched {r : Except String (State C P L)} (h : Inv ptable s)
    (hs : s.step ptable (.sched c) = some r) :
    ∃ s', r = .ok s' ∧ Inv ptable s' := by
  obtain ⟨p, hp, hs⟩ := bind_eq_some_iff.1 hs
  obtain ⟨hholds, hs⟩ := ite_none_right_eq_some.1 hs
  cases hs
  have hruns := h.runs c
  have hlock := h.lock ptable c
  rw [State.running_some hp] at hruns hlock
  obtain ⟨-, hd, hheld⟩ := id hholds
  have hoff := hruns.off (by omega)
  have hn : (s.cpu c).ncli = 1 := by
    rw [hruns.ncli, hd]
    rfl
  have hproc : s.proc c ≠ none := by
    rw [hp]
    exact some_ne_none p
  have hsched := h.scheduler c hproc
  rw [State.sched, if_neg (not_not.2 (hlock.2 (by rw [hheld]; exact List.mem_singleton_self _))),
    if_neg (by rw [hoff]; simp), if_neg (not_not.2 hn)]
  refine ⟨_, rfl, ?_⟩
  have hself :
    ∀ x, State.running { s with proc := upd s.proc c none, on := upd s.on p none, thread := x } c =
      s.scheduler c := fun x => State.running_none (if_pos rfl)
  refine h.switch (upd_self s.cpu c).symm rfl rfl rfl rfl rfl (.inl ⟨rfl, rfl, hp⟩) ?_ ?_
    (fun hx => absurd rfl hx) fun _ => ?_
  · rw [hself]
    exact Parked.runs ⟨hsched.holds, hsched.frames, fun hx => absurd rfl hx⟩ hn hoff
      (fun hx => absurd rfl hx) fun hx => absurd rfl hx
  · rw [hself, State.running_some hp, hsched.holds.2.2, hheld]
  · exact ⟨hholds, hruns.frames, fun _ hf =>
      ⟨hruns.started hproc, hruns.intena hproc hf (by omega)⟩⟩

theorem Inv.swtch {r : Except String (State C P L)} (h : Inv ptable s)
    (hs : s.step ptable (.swtch c p) = some r) :
    ∃ s', r = .ok s' ∧ Inv ptable s' := by
  obtain ⟨⟨hproc, hholds, hon⟩, hs⟩ := ite_none_right_eq_some.1 hs
  cases hs
  have hruns := h.runs c
  rw [State.running_none hproc] at hruns
  obtain ⟨-, hd, hheld⟩ := id hholds
  have hoff := hruns.off (by omega)
  have hn : (s.cpu c).ncli = 1 := by
    rw [hruns.ncli, hd]
    rfl
  have hpark := h.thread p hon
  have hself : (s.swtch c p).running c = { s.thread p with started := true } := by
    rw [State.running_some (if_pos rfl)]
    exact if_pos rfl
  refine ⟨_, rfl, h.switch rfl rfl rfl rfl rfl rfl (.inr ⟨rfl, rfl, hproc, hon⟩) ?_ ?_
    (fun _ => ⟨hholds, hruns.frames, fun hx => hx.elim⟩) fun hx =>
    absurd hx (some_ne_none c)⟩
  · rw [hself]
    refine Parked.runs ⟨hpark.holds, hpark.frames, fun _ hf => ⟨rfl, (hpark.intena trivial hf).2⟩⟩
      ?_ ?_ (fun _ => rfl) fun _ hf => ?_
    · split <;> exact hn
    · split <;> exact hoff
    · obtain ⟨hstarted, hintena⟩ := hpark.intena trivial hf
      rw [if_pos hstarted]
      exact hintena
  · rw [hself, State.running_none hproc, hheld]
    exact hpark.holds.2.2

theorem Inv.step {l : Label C P L} {r : Except String (State C P L)} (h : Inv ptable s)
    (hs : s.step ptable l = some r) :
    ∃ s', r = .ok s' ∧ Inv ptable s' := by
  cases l with
  | op c o => exact h.op hs
  | sched c => exact h.sched hs
  | swtch c p => exact h.swtch hs

/-! ### Runs -/

theorem run_inv {s₀ : State C P L} {ls : List (Label C P L)} (h0 : Initial ptable s₀)
    (h : (system C P ptable).Run s₀ ls s) : Inv ptable s := by
  refine h.invariant (init_inv h0) fun s₁ l s₂ hi hs => ?_
  obtain ⟨r, hr, hok⟩ := bind_eq_some_iff.1 hs
  obtain ⟨s', rfl, hi'⟩ := hi.step hr
  obtain rfl : s' = s₂ := Option.some.inj hok
  exact hi'

/-- **The interrupt flag belongs to the kernel thread.**  For any CPUs and processes and any run:
interrupts are off on a CPU with `ncli > 0`; no step panics, so neither does `popcli`; and when a
process that was not just started by `forkret` leaves its outermost critical section, the flag is
what it was when it entered it. -/
theorem interrupt_state {s₀ : State C P L} {ls : List (Label C P L)} (h₀ : Initial ptable s₀)
    (h : (system C P ptable).Run s₀ ls s) :
    (∀ c, 0 < (s.cpu c).ncli → (s.cpu c).fl = false) ∧
      (∀ l msg, s.step ptable l ≠ some (.error msg)) ∧
      ∀ c p s', s.proc c = some p → s.step ptable (.op c .popcli) = some (.ok s') →
      (s'.thread p).depth = 0 →
        (s.thread p).fresh = false → (s'.cpu c).fl = (s.thread p).entry := by
  have hi := run_inv h₀ h
  refine ⟨fun c hc => ?_, fun l msg hl => ?_, fun c p s' hp hs hd hf => ?_⟩
  · have hruns := hi.runs c
    have hn := hruns.ncli
    exact hruns.off (by omega)
  · obtain ⟨s', hok, -⟩ := hi.step hl
    cases hok
  have hruns := hi.runs c
  obtain ⟨x, hx, hok⟩ := map_eq_some_iff.1 hs
  obtain ⟨k', t', lock', rfl, -⟩ := Op.run_keeps hruns (fun lk => hi.lock lk c) hx
  cases hok
  obtain ⟨hcpu, -, hproc, -⟩ :=
    @State.setRunning_fields C P L _ _ c t' { s with cpu := upd s.cpu c k', lock := lock' }
  have hself :=
    @State.setRunning_self C P L _ _ c t' { s with cpu := upd s.cpu c k', lock := lock' }
  rw [State.running_some (by rwa [hproc])] at hself
  have hfl : (({ s with cpu := upd s.cpu c k', lock := lock' } : State C P L).setRunning c t').cpu
      c = k' := by
    rw [hcpu]
    exact if_pos rfl
  have hfresh : (s.running c).fresh = false := by rw [State.running_some hp, hf]
  have hdepth : t'.depth = 0 := by rwa [← hself]
  have hentry := Op.popcli_restores hruns (by rw [hp]; exact some_ne_none p) hfresh hx hdepth
  rw [State.running_some hp] at hentry
  rw [← hentry]
  exact congrArg Cpu.fl hfl

/-- Two CPUs with their schedulers, and one process. -/
def boot : State Bool Unit Unit where
  cpu _ := ⟨0, false, false⟩
  lock _ := none
  proc _ := none
  scheduler _ := ⟨0, [], none, [], false, true, false, false⟩
  thread _ := ⟨1, [()], none, [], false, false, false, true⟩
  on _ := none

/-- `acquire(&ptable.lock)`, without `holding`. -/
def lockPtable (c : Bool) : List (Label Bool Unit Unit) :=
  [.op c .readeflags, .op c .cli, .op c (.acquire ())]

/-- The process is started by one CPU, is interrupted in `pushcli`, yields in the handler, and is
resumed by the other CPU. -/
def migrate : List (Label Bool Unit Unit) :=
  lockPtable false ++ [.swtch false (), .op false (.release ()), .op false .popcli,
      .op false .enable,
    .op false .readeflags, .op false .interrupt] ++ lockPtable false ++
    [.sched false, .op true .enable] ++
  [.op false (.release ()), .op false .popcli] ++ lockPtable true ++
  [.swtch true (), .op true (.release ()),
    .op true .popcli, .op true .iret, .op true .cli]

theorem interrupt_state_migrate :
    ∃ s s', Initial () boot ∧ (system Bool Unit ()).Run boot migrate s ∧
    s.step () (.op true .popcli) = some (.ok s') ∧ (s'.cpu true).fl = (s.thread ()).entry := by
  have hinit : Initial () boot :=
    ⟨fun _ => ⟨rfl, rfl⟩, fun _ => rfl, fun _ => rfl, fun _ => rfl, fun _ => ⟨rfl, rfl, rfl, rfl⟩,
      fun _ => ⟨⟨rfl, rfl, rfl⟩, rfl, rfl⟩⟩
  have hex : ((LTS.exec (fun s l => (State.step () s l).bind Except.toOption) boot migrate).bind
    fun s =>
      ((s.step () (.op true .popcli)).bind Except.toOption).map fun s' =>
        (s.proc true, (s'.thread ()).depth, (s.thread ()).fresh)) = some (some (), 0, false) := by
          decide +kernel
  obtain ⟨s, hs, hx⟩ := bind_eq_some_iff.1 hex
  obtain ⟨s', hs', hx⟩ := map_eq_some_iff.1 hx
  obtain ⟨r, hr, hok⟩ := bind_eq_some_iff.1 hs'
  obtain ⟨hp, hx⟩ := Prod.mk.inj hx
  obtain ⟨hd, hf⟩ := Prod.mk.inj hx
  have hrun := LTS.run_of_exec hs
  have hstep : s.step () (.op true .popcli) = some (.ok s') := by
    cases r with
    | error e => cases hok
    | ok s'' =>
      obtain rfl : s'' = s' := Option.some.inj hok
      exact hr
  exact ⟨s, s', hinit, hrun, hstep, (interrupt_state hinit hrun).2.2 true () s' hp hstep hd hf⟩

end Spinlock

end Xv6
