import Xv6.Ptable.Table

/-!
# What a step of the process table does

`Sys.Steps` lists the steps of `Ptable.sys` with their guards; `Sys.step_inv` reads it off the step
function.  Processes are on the CPU that takes the step: `Sys.On s c p` says that CPU `c` is on the
stack of process `p`.
-/

namespace Xv6

open Option

namespace Ptable

namespace Sys

variable {C : Type} [DecidableEq C]

/-- CPU `c` is on the stack of process `p`. -/
def On (s : Sys C) (c : C) (p : ℕ) : Prop := (s.cpus c).pc = .on p

/-- CPU `c` runs process `p` outside the sections under `ptable.lock`. -/
def Runs (s : Sys C) (c : C) (p : ℕ) : Prop := s.On c p ∧ (s.procs p).pc = .run

omit [DecidableEq C]

theorem current_eq {s : Sys C} {c : C} {p : ℕ} : s.current c = some p ↔ s.On c p := by
  unfold current On
  cases (s.cpus c).pc <;> simp

theorem user_eq {s : Sys C} {c : C} {p : ℕ} : s.user c = some p ↔ s.Runs c p := by
  simp [user, Runs, filter_eq_some_iff, current_eq]

theorem free_eq {s : Sys C} {c : C} {p : ℕ} :
    s.free c = some p ↔ s.Runs c p ∧ (s.procs p).task = .none := by
  simp [free, filter_eq_some_iff, user_eq]

variable [DecidableEq C]

/-- The steps. -/
inductive Steps (s : Sys C) : Label C → Sys C → Prop
  /-- `scheduler` acquires `ptable.lock`. -/
  | acquire {c} (hc : (s.cpus c).pc = .idle) (hl : s.lock = none) :
      Steps s (.sched c) { s.setCpu c ⟨(s.cpus c).proc, .scan 0⟩ with lock := some c }
  /-- `scheduler` releases `ptable.lock`. -/
  | release {c i} (hc : (s.cpus c).pc = .scan i) :
      Steps s (.sched c) { s.setCpu c ⟨(s.cpus c).proc, .idle⟩ with lock := none }
  | skip {c i} (hc : (s.cpus c).pc = .scan i) :
      Steps s (.sched c) (s.setCpu c ⟨(s.cpus c).proc, .scan (i + 1)⟩)
  | pick {c i} (hc : (s.cpus c).pc = .scan i) (hi : i < nproc) (hr : (s.procs i).state =
      .runnable) :
      Steps s (.sched c)
        ((s.setCpu c ⟨some i, .on i⟩).setProc i { s.procs i with state := .running })
  | back {c i} (hc : (s.cpus c).pc = .back i) :
      Steps s (.sched c) (s.setCpu c ⟨none, .scan (i + 1)⟩)
  | resume {c p k ch} (hp : s.On c p) (hk : (s.procs p).pc = .parked k) :
      Steps s (.resume c) { s.setProc p { s.procs p with pc := .run, chan := ch } with
        lock := none }
  | resumeWait {c p} (hp : s.On c p) (hk : (s.procs p).pc = .parked .wait) :
      Steps s (.resume c) (s.setProc p { s.procs p with pc := .waiting, chan := none })
  | swtch {c p k} (hp : s.On c p) (hk : (s.procs p).pc = .leaving k) :
      Steps s (.swtch c)
        ((s.setCpu c ⟨(s.cpus c).proc, .back p⟩).setProc p { s.procs p with pc := .parked k })
  | yield {c p} (hp : s.Runs c p) (hl : s.lock = none) :
      Steps s (.yield c) { s with
        lock := some c
        procs := upd s.procs p { s.procs p with state := .runnable, pc := .leaving .yield } }
  | sleep {c p n} (hp : s.Runs c p) (hl : s.lock = none) :
      Steps s (.sleep c n) { s with
        lock := some c
        procs := upd s.procs p { s.procs p with
          state := .sleeping, chan := some (.other n), pc := .leaving .sleep } }
  | exit {c p} (hp : s.Runs c p) (ht : (s.procs p).task = .none) (hi : p ≠ s.initproc)
      (hl : s.lock = none) :
      Steps s (.exit c) { s with
        lock := some c
        procs := exitTable s.procs p s.initproc
        hist := s.hist ++ [.exit (s.procs p).pid] }
  | wait {c p} (hp : s.Runs c p) (hl : s.lock = none) :
      Steps s (.wait c) { s with
        lock := some c, procs := upd s.procs p { s.procs p with pc := .waiting } }
  /-- `wait` returns the zombie `q`. -/
  | reap {c p q} (hp : s.On c p) (hk : (s.procs p).pc = .waiting) (hq : q < nproc)
      (hpar : (s.procs q).parent = some p) (hz : (s.procs q).state = .zombie) :
      Steps s (.look c) { s with
        lock := none
        procs := upd (upd s.procs q (reaped (s.procs q))) p
          { upd s.procs q (reaped (s.procs q)) p with pc := .run }
        hist := s.hist ++ [.reap (s.procs q).pid (s.procs p).pid] }
  /-- `wait` returns -1. -/
  | giveUp {c p} (hp : s.On c p) (hk : (s.procs p).pc = .waiting) :
      Steps s (.look c) { s.setProc p { s.procs p with pc := .run } with lock := none }
  /-- `wait` calls `sleep(curproc, &ptable.lock)`. -/
  | waitSleep {c p} (hp : s.On c p) (hk : (s.procs p).pc = .waiting)
      (hz : ∀ i < nproc, (s.procs i).parent = some p → (s.procs i).state ≠ .zombie) :
      Steps s (.look c) (s.setProc p { s.procs p with
        state := .sleeping, chan := some (.proc p), pc := .leaving .wait })
  | fork {c p np} (hp : s.Runs c p) (ht : (s.procs p).task = .none) (hl : s.lock = none)
      (hn : np < nproc) (hu : (s.procs np).state = .unused) :
      Steps s (.fork c) { s with
        procs := upd (upd s.procs np (embryo (s.procs np) s.nextpid s.hist.length)) p
          { upd s.procs np (embryo (s.procs np) s.nextpid s.hist.length) p with
            task := .fork np false }
        nextpid := (s.nextpid + 1).bmod (2 ^ 32) }
  /-- No slot is free. -/
  | forkFull {c} : Steps s (.fork c) s
  | forkFail {c p np} (hp : s.Runs c p) (ht : (s.procs p).task = .fork np false) :
      Steps s (.forkFail c) { s with
        procs := upd (upd s.procs np { s.procs np with state := .unused }) p
          { upd s.procs np { s.procs np with state := .unused } p with task := .none } }
  | forkLink {c p np} (hp : s.Runs c p) (ht : (s.procs p).task = .fork np false) :
      Steps s (.forkLink c) { s with
        procs := upd (upd s.procs np { s.procs np with parent := some p }) p
          { upd s.procs np { s.procs np with parent := some p } p with task := .fork np true } }
  | forkDone {c p np} (hp : s.Runs c p) (ht : (s.procs p).task = .fork np true)
      (hl : s.lock = none) :
      Steps s (.forkDone c) { s with
        procs := upd (upd s.procs np { s.procs np with state := .runnable }) p
          { upd s.procs np { s.procs np with state := .runnable } p with task := .none }
        hist := s.hist ++ [.fork (s.procs np).pid (s.procs p).pid] }
  | kill {pid} (hl : s.lock = none) :
      Steps s (.kill pid) { s with
        procs := (kill s.procs pid).2, hist := s.hist ++ [.kill pid] }
  | wakeup {ch} (hl : s.lock = none) :
      Steps s (.wakeup ch) { s with procs := wakeup1 s.procs (some ch) }
  | trap {c p} (hp : s.Runs c p) :
      Steps s (.trap c)
        { s.setProc p { s.procs p with killed := true } with hist := s.hist ++ [.trap p] }

variable {s s' : Sys C} {c : C}

theorem sched_inv (h : s.sched c = some s') : Steps s (.sched c) s' := by
  unfold sched at h
  cases hc : (s.cpus c).pc with
  | idle =>
    rw [hc] at h
    simp only at h
    split_ifs at h with hl
    cases h
    exact .acquire hc hl
  | scan i =>
    rw [hc] at h
    simp only at h
    split_ifs at h with hi hr <;> cases h
    · exact .pick hc hi hr
    · exact .skip hc
    · exact .release hc
  | back i => rw [hc] at h; cases h; exact .back hc
  | on p => rw [hc] at h; cases h

theorem resume_inv (h : s.resume c = some s') : Steps s (.resume c) s' := by
  obtain ⟨p, hp, h⟩ := bind_eq_some_iff.1 h
  rw [current_eq] at hp
  cases hk : (s.procs p).pc with
  | parked k =>
    rw [hk] at h
    cases k with
    | wait => cases h; exact .resumeWait hp hk
    | exit => cases h
    | forkret | yield | sleep => cases h; exact .resume hp hk
  | run | waiting | leaving => rw [hk] at h; cases h

theorem swtch_inv (h : s.swtch c = some s') : Steps s (.swtch c) s' := by
  obtain ⟨p, hp, h⟩ := bind_eq_some_iff.1 h
  rw [current_eq] at hp
  cases hk : (s.procs p).pc with
  | leaving k => rw [hk] at h; cases h; exact .swtch hp hk
  | run | waiting | parked => rw [hk] at h; cases h

omit [DecidableEq C] in
theorem leave_eq {t : ℕ → Proc} (h : s.leave c t = some s') :
    s.lock = none ∧ s' = { s with lock := some c, procs := t } := by
  unfold leave at h
  split_ifs at h with hl
  exact ⟨hl, (Option.some.inj h).symm⟩

theorem exit_inv (h : s.exit c = some s') : Steps s (.exit c) s' := by
  obtain ⟨p, hp, h⟩ := bind_eq_some_iff.1 h
  rw [free_eq] at hp
  split_ifs at h with hi
  obtain ⟨s₁, h1, h⟩ := bind_eq_some_iff.1 h
  obtain ⟨hl, rfl⟩ := leave_eq h1
  cases h
  exact .exit hp.1 hp.2 hi hl

theorem look_inv (h : s.look c = some s') : Steps s (.look c) s' := by
  obtain ⟨p, hp, h⟩ := bind_eq_some_iff.1 h
  rw [current_eq] at hp
  cases hk : (s.procs p).pc with
  | waiting =>
    rw [hk] at h
    simp only at h
    split at h
    next q hq =>
      cases h
      obtain ⟨hlt, hpz⟩ := first_some hq
      obtain ⟨hpar, hz⟩ := of_decide_eq_true hpz
      exact .reap hp hk hlt hpar hz
    next hq =>
      split_ifs at h <;> cases h
      · exact .giveUp hp hk
      · refine .waitSleep hp hk fun i hi hpar hz => ?_
        have := first_none hq hi
        simp [hpar, hz] at this
  | run | leaving | parked => rw [hk] at h; cases h

theorem fork_inv (h : s.fork c = some s') : Steps s (.fork c) s' := by
  obtain ⟨p, hp, h⟩ := bind_eq_some_iff.1 h
  rw [free_eq] at hp
  split_ifs at h with hl
  split at h
  next np hn =>
    cases h
    obtain ⟨hlt, hu⟩ := first_some hn
    exact .fork hp.1 hp.2 hl hlt (of_decide_eq_true hu)
  next => cases h; exact .forkFull

theorem forkFail_inv (h : s.forkFail c = some s') : Steps s (.forkFail c) s' := by
  obtain ⟨p, hp, h⟩ := bind_eq_some_iff.1 h
  rw [user_eq] at hp
  split at h
  next np ht => cases h; exact .forkFail hp ht
  next => cases h

theorem forkLink_inv (h : s.forkLink c = some s') : Steps s (.forkLink c) s' := by
  obtain ⟨p, hp, h⟩ := bind_eq_some_iff.1 h
  rw [user_eq] at hp
  split at h
  next np ht => cases h; exact .forkLink hp ht
  next => cases h

theorem forkDone_inv (h : s.forkDone c = some s') : Steps s (.forkDone c) s' := by
  obtain ⟨p, hp, h⟩ := bind_eq_some_iff.1 h
  rw [user_eq] at hp
  split at h
  next np ht =>
    split_ifs at h with hl
    cases h
    exact .forkDone hp ht hl
  next => cases h

theorem step_inv {l : Label C} (h : s.step l = some s') : Steps s l s' := by
  cases l with
  | sched c => exact sched_inv h
  | resume c => exact resume_inv h
  | swtch c => exact swtch_inv h
  | yield c =>
    obtain ⟨p, hp, h⟩ := bind_eq_some_iff.1 h
    obtain ⟨hl, rfl⟩ := leave_eq h
    exact .yield (user_eq.1 hp) hl
  | sleep c n =>
    obtain ⟨p, hp, h⟩ := bind_eq_some_iff.1 h
    obtain ⟨hl, rfl⟩ := leave_eq h
    exact .sleep (user_eq.1 hp) hl
  | exit c => exact exit_inv h
  | wait c =>
    obtain ⟨p, hp, h⟩ := bind_eq_some_iff.1 h
    obtain ⟨hl, rfl⟩ := leave_eq h
    exact .wait (free_eq.1 hp).1 hl
  | look c => exact look_inv h
  | fork c => exact fork_inv h
  | forkFail c => exact forkFail_inv h
  | forkLink c => exact forkLink_inv h
  | forkDone c => exact forkDone_inv h
  | kill pid =>
    simp only [step] at h
    split_ifs at h with hl
    cases h
    exact .kill hl
  | wakeup ch =>
    simp only [step] at h
    split_ifs at h with hl
    cases h
    exact .wakeup hl
  | trap c =>
    obtain ⟨p, hp, h⟩ := bind_eq_some_iff.1 h
    cases h
    exact .trap (user_eq.1 hp)

end Sys

end Ptable

end Xv6
