import Xv6.Ptable.Schedule

/-!
# Nobody waits for ever

Each CPU goes through the slots of the table in turn, and after a time slice it goes on with the
slot after the one that it has run.  So while a process is `RUNNABLE`, a CPU comes to each other
slot at most once before it comes to this one; whether it is the first to come there depends on the
others, and if it is not, then the process has been run by one of them.

For a CPU at some place of `scheduler`, `CpuPc.steps` is the number of steps that it takes before it
has looked at slot `p`, and `CpuPc.slices` the number of time slices that end before.  Every step of
the CPU makes the former smaller, and the end of a time slice the latter, as long as `p` is
`RUNNABLE` (`Sys.step_waits`).

* `round_robin` : **a `RUNNABLE` process is run before any CPU has taken more than `2 * NPROC + 2`
  steps of the scheduler, and before more than `NPROC` time slices have ended on it**.
-/

namespace Xv6

namespace Ptable

section Measure

variable {C : Type} [DecidableEq C]

/-- A step of `scheduler` on CPU `c`. -/
def Label.isSched (c : C) : Label C → Bool
  | .sched c' => c' = c
  | _ => false

/-- A time slice ends on CPU `c`. -/
def Label.isSwtch (c : C) : Label C → Bool
  | .swtch c' => c' = c
  | _ => false

end Measure

/-- The slots from slot `i` on that come before slot `p`. -/
def slots (p i : ℕ) : ℕ := if i ≤ p then p - i else nproc - i + p

/-- The steps from slot `i` on; a slot takes two if its process is run, and so do the ends of the
loop. -/
def stepsFrom (p i : ℕ) : ℕ := if i ≤ p then 2 * (p - i) + 1 else 2 * (nproc - i) + 2 * p + 3

namespace CpuPc

/-- The steps of `scheduler` until it has looked at slot `p`. -/
def steps (p : ℕ) : CpuPc → ℕ
  | .idle => stepsFrom p 0 + 1
  | .scan i => stepsFrom p i
  | .back i | .on i => stepsFrom p (i + 1) + 1

/-- The time slices that end before `scheduler` looks at slot `p`. -/
def slices (p : ℕ) : CpuPc → ℕ
  | .idle => slots p 0
  | .scan i => slots p i
  | .back i => slots p (i + 1)
  | .on i => slots p (i + 1) + 1

variable {p : ℕ}

theorem steps_le (hp : p < nproc) (pc : CpuPc) : pc.steps p ≤ 2 * nproc + 2 := by
  cases pc <;> simp only [steps, stepsFrom] <;> split_ifs <;> omega

theorem slices_le (hp : p < nproc) (pc : CpuPc) : pc.slices p ≤ nproc := by
  cases pc <;> simp only [slices, slots] <;> split_ifs <;> omega

theorem steps_pos (pc : CpuPc) : 0 < pc.steps p := by
  cases pc <;> simp only [steps, stepsFrom] <;> split_ifs <;> omega

end CpuPc

namespace Sys

variable {C : Type} [DecidableEq C] {s s' : Sys C} {c : C} {l : Label C} {p : ℕ}

/-- Process `p` still waits after the step `l`, and every CPU has come nearer to it by its own
steps. -/
structure Waits (p : ℕ) (l : Label C) (s s' : Sys C) : Prop where
  runnable : (s'.procs p).state = .runnable
  steps : ∀ c, (l.isSched c).toNat + (s'.cpus c).pc.steps p ≤ (s.cpus c).pc.steps p
  slices : ∀ c, (l.isSwtch c).toNat + (s'.cpus c).pc.slices p ≤ (s.cpus c).pc.slices p

theorem Waits.of_cpus (hl : ∀ c, l.isSched c = false ∧ l.isSwtch c = false) (hc : s'.cpus = s.cpus)
    (hr : (s'.procs p).state = .runnable) : Waits p l s s' := by
  refine ⟨hr, fun c => Nat.le_of_eq ?_, fun c => Nat.le_of_eq ?_⟩
  · rw [(hl c).1, hc, Bool.toNat_false, Nat.zero_add]
  · rw [(hl c).2, hc, Bool.toNat_false, Nat.zero_add]

theorem Waits.of_cpu {v : Cpu} (hl : ∀ c', c' ≠ c → l.isSched c' = false ∧ l.isSwtch c' = false)
    (hc : s'.cpus = upd s.cpus c v) (hr : (s'.procs p).state = .runnable)
    (hsteps : (l.isSched c).toNat + v.pc.steps p ≤ (s.cpus c).pc.steps p)
    (hslices : (l.isSwtch c).toNat + v.pc.slices p ≤ (s.cpus c).pc.slices p) : Waits p l s s' := by
  refine ⟨hr, fun c' => ?_, fun c' => ?_⟩ <;> by_cases hcc : c' = c
  · rw [hcc, hc, upd_same]
    exact hsteps
  · rw [(hl c' hcc).1, hc, upd_of_ne _ _ hcc]
    exact Nat.le_of_eq (Nat.zero_add _)
  · rw [hcc, hc, upd_same]
    exact hslices
  · rw [(hl c' hcc).2, hc, upd_of_ne _ _ hcc]
    exact Nat.le_of_eq (Nat.zero_add _)

theorem Waits.of_sched {v : Cpu} (hc : s'.cpus = upd s.cpus c v)
    (hr : (s'.procs p).state = .runnable) (hpc : v.pc.steps p < (s.cpus c).pc.steps p ∧
      v.pc.slices p ≤ (s.cpus c).pc.slices p) : Waits p (.sched c) s s' :=
  .of_cpu (fun c' hcc => ⟨decide_eq_false fun he => hcc he.symm, rfl⟩) hc hr
    (by simpa [Label.isSched, Nat.add_comm] using Nat.succ_le_of_lt hpc.1)
    (by simpa [Label.isSwtch] using hpc.2)

/-- A step of `scheduler` runs the process, or comes nearer to it. -/
theorem sched_waits (hp : p < nproc) (hr : (s.procs p).state = .runnable)
    (h : s.sched c = some s') :
    (s'.procs p).state = .running ∨ Waits p (.sched c) s s' := by
  unfold sched at h
  cases hc : (s.cpus c).pc with
  | idle =>
    simp only [hc] at h
    split_ifs at h
    cases h
    exact .inr (.of_sched rfl hr (by rw [hc]; exact ⟨Nat.lt_succ_self _, Nat.le_refl _⟩))
  | scan i =>
    simp only [hc] at h
    split_ifs at h with hi hir <;> cases h
    · by_cases hip : i = p
      · exact .inl (by simp [setProc, setCpu, hip])
      refine .inr (.of_sched (v := ⟨some i, .on i⟩) rfl
        (by simp [setProc, setCpu, Ne.symm hip, hr]) ?_)
      simp only [hc, CpuPc.steps, CpuPc.slices, stepsFrom, slots]
      split_ifs <;> omega
    · -- slot `p` is not skipped
      have hip : i ≠ p := fun he => hir (he ▸ hr)
      refine .inr (.of_sched rfl hr ?_)
      simp only [hc, CpuPc.steps, CpuPc.slices, stepsFrom, slots]
      split_ifs <;> omega
    · refine .inr (.of_sched rfl hr ?_)
      simp only [hc, CpuPc.steps, CpuPc.slices, stepsFrom, slots]
      split_ifs <;> omega
  | back i =>
    simp only [hc] at h
    cases h
    exact .inr (.of_sched rfl hr (by rw [hc]; exact ⟨Nat.lt_succ_self _, Nat.le_refl _⟩))
  | on q => simp [hc] at h

/-- Only `scheduler` changes the state of a `RUNNABLE` process. -/
theorem step_waits (h : s.Ok) (hp : p < nproc) (hr : (s.procs p).state = .runnable)
    (hs : s.step l = some s') :
    (∃ c, l = .sched c ∧ (s'.procs p).state = .running) ∨ Waits p l s s' := by
  have hruns : ∀ {c q}, s.Runs c q → p ≠ q := fun hq he => by
    have := h.state_of_runs hq
    rw [← he, hr] at this
    cases this
  have hwait : ∀ {c q}, s.On c q → (s.procs q).pc = .waiting → p ≠ q := fun hq hk he => by
    have := h.running_of_pc hq (by simp [hk])
    rw [← he, hr] at this
    cases this
  have hstate : ∀ {q st}, (s.procs q).state = st → st ≠ .runnable → p ≠ q :=
    fun hq hne he => hne (by rw [← hq, ← he, hr])
  have hsame : ∀ {q} {v : Proc}, v.state = (s.procs q).state → (upd s.procs q v p).state =
      .runnable := fun {q v} hv => by
    by_cases hpq : p = q
    · rw [← hpq, upd_same, hv, ← hpq, hr]
    · rw [upd_of_ne _ _ hpq, hr]
  by_cases hl : ∃ c, l = .sched c
  · obtain ⟨c, rfl⟩ := hl
    exact (sched_waits hp hr hs).imp_left fun hrun => ⟨c, rfl, hrun⟩
  refine .inr ?_
  cases step_inv hs with
  | acquire | release | skip | pick | back => exact absurd ⟨_, rfl⟩ hl
  | resume hq hk | resumeWait hq hk | wait hq | giveUp hq hk | trap hq =>
    exact .of_cpus (fun _ => ⟨rfl, rfl⟩) rfl (hsame rfl)
  | @swtch c q k hq hk =>
    refine .of_cpu (c := c) (fun c' hcc => ⟨rfl, decide_eq_false fun he => hcc he.symm⟩) rfl
      (hsame rfl) ?_ ?_
    · rw [show (s.cpus c).pc = .on q from hq]
      exact Nat.le_of_eq (Nat.zero_add _)
    · rw [show (s.cpus c).pc = .on q from hq]
      simp [Label.isSwtch, CpuPc.slices, Nat.add_comm]
  | yield hq | sleep hq => exact .of_cpus (fun _ => ⟨rfl, rfl⟩) rfl (by simp [hruns hq, hr])
  | exit hq ht hi =>
    have hw := ((exitTable_spec hi.symm s.procs).wakes p (hruns hq)).state
    exact .of_cpus (fun _ => ⟨rfl, rfl⟩) rfl (hw.elim (fun he => he.trans hr) And.right)
  | reap hq hk hlt hpar hz =>
    exact .of_cpus (fun _ => ⟨rfl, rfl⟩) rfl (by simp [hwait hq hk, hstate hz (by decide), hr])
  | waitSleep hq hk => exact .of_cpus (fun _ => ⟨rfl, rfl⟩) rfl (by simp [setProc, hwait hq hk, hr])
  | fork hq ht hlock hn hu =>
    exact .of_cpus (fun _ => ⟨rfl, rfl⟩) rfl (by simp [hruns hq, hstate hu (by decide), hr])
  | forkFull => exact .of_cpus (fun _ => ⟨rfl, rfl⟩) rfl hr
  | forkFail hq ht | forkLink hq ht | forkDone hq ht =>
    exact .of_cpus (fun _ => ⟨rfl, rfl⟩) rfl
      (by simp [hruns hq, hstate (h.forks.embryo _ _ _ ht) (by decide), hr])
  | @kill pid =>
    refine .of_cpus (fun _ => ⟨rfl, rfl⟩) rfl ?_
    obtain ⟨-, ht, -⟩ | ⟨j, -, -, -, ht⟩ := kill_spec s.procs pid
    · exact (congrArg (fun t => (t p).state) ht).trans hr
    show ((kill s.procs pid).2 p).state = _
    rw [ht]
    by_cases hpj : p = j
    · rw [← hpj, upd_same, hr]
      rfl
    · rw [upd_of_ne _ _ hpj, hr]
  | @wakeup ch =>
    have hw := (wakeup1_spec s.procs (some ch) p).1.state
    exact .of_cpus (fun _ => ⟨rfl, rfl⟩) rfl (hw.elim (fun he => he.trans hr) And.right)

end Sys

section Run

variable {C : Type} [DecidableEq C] {s s' : Sys C} {p : ℕ} {ls ls₀ : List (Label C)}

/-- No CPU has done more than one round. -/
def Fair (ls : List (Label C)) : Prop :=
  ∀ c, ls.countP (·.isSched c) ≤ 2 * nproc + 2 ∧ ls.countP (·.isSwtch c) ≤ nproc

/-- Process `p` has waited all along, and what the CPUs have done and have to do is at most one
round. -/
structure Waited (p : ℕ) (ls : List (Label C)) (s : Sys C) : Prop where
  runnable : (s.procs p).state = .runnable
  steps : ∀ c, ls.countP (·.isSched c) + (s.cpus c).pc.steps p ≤ 2 * nproc + 2
  slices : ∀ c, ls.countP (·.isSwtch c) + (s.cpus c).pc.slices p ≤ nproc

theorem Waited.fair (h : Waited p ls s) : Fair ls := fun c => by
  have := h.steps c
  have := h.slices c
  omega

omit [DecidableEq C] in
theorem countP_snoc (f : Label C → Bool) (ls : List (Label C)) (l : Label C) :
    (ls ++ [l]).countP f = ls.countP f + (f l).toNat := by
  rw [List.countP_append, List.countP_singleton]
  cases f l <;> rfl

theorem Waited.snoc {l : Label C} (h : Waited p ls s) (hw : Sys.Waits p l s s') :
    Waited p (ls ++ [l]) s' := by
  refine ⟨hw.runnable, fun c => ?_, fun c => ?_⟩ <;> rw [countP_snoc]
  · have := h.steps c
    have := hw.steps c
    omega
  · have := h.slices c
    have := hw.slices c
    omega

theorem Waited.fair_snoc {c : C} (h : Waited p ls s) : Fair (ls ++ [.sched c]) := fun c' => by
  have := h.steps c'
  have := h.slices c'
  have := (s.cpus c').pc.steps_pos (p := p)
  have := Bool.toNat_le ((Label.sched c).isSched c')
  rw [countP_snoc, countP_snoc, show ((Label.sched c).isSwtch c').toNat = 0 from rfl]
  omega

/-- **Round robin.**  A process that is `RUNNABLE` in some reachable state waits on, or is run after
a part `pre` of what happens next.  Until then no CPU takes more than `2 * NPROC + 2` steps of the
scheduler, and no more than `NPROC` time slices end on it. -/
theorem round_robin (h₀ : (sys C).Run .init ls₀ s) (hp : p < nproc)
    (hr : (s.procs p).state = .runnable) (hrun : (sys C).Run s ls s') : ∃ pre t, pre <+: ls ∧
    (sys C).Run s pre t ∧ Fair pre ∧
      ((t.procs p).state = .running ∨ pre = ls ∧ (t.procs p).state = .runnable) := by
  have hinv := hrun.invariant_history
    (I := fun ls s' => Waited p ls s' ∨
      ∃ pre t, pre <+: ls ∧ (sys C).Run s pre t ∧ Fair pre ∧ (t.procs p).state = .running)
    (.inl ⟨hr, fun c => by simpa using (s.cpus c).pc.steps_le hp,
      fun c => by simpa using (s.cpus c).pc.slices_le hp⟩)
    fun ls s₁ l s₂ hrun₁ hI hst => ?_
  · rcases hinv with hw | ⟨pre, t, hpre, ht, hfair, hrunning⟩
    · exact ⟨ls, s', List.prefix_refl ls, hrun, hw.fair, .inr ⟨rfl, hw.runnable⟩⟩
    · exact ⟨pre, t, hpre, ht, hfair, .inl hrunning⟩
  rcases hI with hw | ⟨pre, t, hpre, ht⟩
  · rcases Sys.step_waits (Sys.ok_of_run (h₀.append hrun₁)) hp hw.runnable
      hst with ⟨c, rfl, hrunning⟩ | hstep
    · exact .inr ⟨ls ++ [.sched c], s₂, List.prefix_refl _, hrun₁.snoc hst,
        hw.fair_snoc, hrunning⟩
    · exact .inl (hw.snoc hstep)
  · exact .inr ⟨pre, t, hpre.trans (List.prefix_append _ _), ht⟩

/-- The first process is run by the first CPU. -/
theorem round_robin_first : ∃ s, (sys Unit).Run .init [.sched (), .sched (), .resume ()] s ∧
    ∃ pre t, pre <+: [.sched (), .sched (), .resume ()] ∧ (sys Unit).Run .init pre t ∧ Fair pre ∧
      ((t.procs 0).state = .running ∨ (t.procs 0).state = .runnable) := by
  obtain ⟨s, hs⟩ := Option.isSome_iff_exists.1 (show
    (LTS.exec Sys.step Sys.init [.sched (), .sched (), .resume ()] : Option (Sys Unit)).isSome =
    true by decide +kernel)
  have hrun := LTS.run_of_exec hs
  obtain ⟨pre, t, hpre, ht, hfair, hstate⟩ := round_robin (p := 0) .nil (by decide) (by decide) hrun
  exact ⟨s, hrun, pre, t, hpre, ht, hfair, hstate.imp_right And.right⟩

end Run

end Ptable

end Xv6
