import Xv6.Ptable.Step

/-!
# Who runs where

The invariant `Sys.Ok` of all interleavings, in every state, with `ptable.lock` free or not:

* what each CPU is doing fits `c->proc`, the state of the process it is on, and the lock
  (`Sys.CpuOk`, `Sys.ProcOk`): a half-finished switch belongs to the CPU that holds the lock;
* a process that does not run is at a saved context;
* an embryo belongs to one process, which is in `fork`.

`Ptable.scheduler_safe` is what this says in the states in which the lock is free.
-/

namespace Xv6

namespace Ptable

/-- The process exists and may run again. -/
def ProcState.alive : ProcState → Bool
  | sleeping | runnable | running => true
  | _ => false

/-- The process exists and does not run. -/
def ProcState.still : ProcState → Bool
  | embryo | sleeping | runnable | zombie => true
  | _ => false

/-- A change to a process that is not running, as others make it. -/
structure Calm (p p' : Proc) : Prop where
  pc : p'.pc = p.pc
  task : p'.task = p.task
  running : p'.state = .running ↔ p.state = .running
  embryo : p'.state = .embryo ↔ p.state = .embryo
  alive : p.state.alive → p'.state.alive
  still : p'.state.still → p.state.still

theorem Calm.refl (p : Proc) : Calm p p := ⟨rfl, rfl, Iff.rfl, Iff.rfl, id, id⟩

theorem Calm.trans {p q r : Proc} (h : Calm p q) (h' : Calm q r) : Calm p r :=
  ⟨h'.pc.trans h.pc, h'.task.trans h.task, h'.running.trans h.running, h'.embryo.trans h.embryo,
    fun hp => h'.alive (h.alive hp), fun hr => h.still (h'.still hr)⟩

theorem calm_of_state {p p' : Proc} (hs : p'.state = p.state) (hpc : p'.pc = p.pc)
    (ht : p'.task = p.task) : Calm p p' :=
  ⟨hpc, ht, by rw [hs], by rw [hs], by rw [hs]; exact id, by rw [hs]; exact id⟩

theorem calm_of_wakes {p p' : Proc} (h : Wakes p p') : Calm p p' := by
  refine ⟨h.pc, h.task, h.state_iff (by simp) (by simp), h.state_iff (by simp) (by simp),
    ?_, ?_⟩ <;>
    rcases h.state with hs | ⟨hs, hs'⟩
  · rw [hs]; exact id
  · rw [hs']; exact fun _ => rfl
  · rw [hs]; exact id
  · rw [hs]; exact fun _ => rfl

theorem calm_kill (t : ℕ → Proc) (pid : ℤ) (i : ℕ) : Calm (t i) ((kill t pid).2 i) := by
  obtain ⟨-, ht, -⟩ | ⟨j, -, -, -, ht⟩ := kill_spec t pid
  · rw [ht]; exact .refl _
  rw [ht]
  refine upd_forall (F := fun i p => Calm (t i) p) ?_ (fun _ _ => .refl _) i
  split_ifs with hs
  · have hw : Calm (t j) { t j with state := .runnable } := calm_of_wakes ⟨rfl, .inr ⟨hs, rfl⟩⟩
    exact hw.trans (calm_of_state rfl rfl rfl)
  · exact calm_of_state rfl rfl rfl

theorem calm_reaped {p : Proc} (h : p.state = .zombie) : Calm p (reaped p) :=
  ⟨rfl, rfl, by simp [reaped, h], by simp [reaped, h], by simp [h, ProcState.alive],
    by simp [reaped, ProcState.still]⟩

/-- An embryo belongs to one process, which is in `fork`. -/
structure Forks (t : ℕ → Proc) : Prop where
  embryo : ∀ p np l, (t p).task = .fork np l → (t np).state = .embryo
  alive : ∀ p np l, (t p).task = .fork np l → (t p).state.alive
  inj : ∀ p p' np l l', (t p).task = .fork np l → (t p').task = .fork np l' → p = p'

theorem Forks.mono {t t' : ℕ → Proc} (h : Forks t) (ht : ∀ q, (t' q).task = (t q).task)
    (he : ∀ q, (t q).state = .embryo → (t' q).state = .embryo)
    (ha : ∀ q, (t q).task ≠ .none → (t q).state.alive → (t' q).state.alive) : Forks t' where
  embryo := fun p np l hp => he np (h.embryo p np l (ht p ▸ hp))
  alive := fun p np l hp => by
    rw [ht] at hp
    exact ha p (by simp [hp]) (h.alive p np l hp)
  inj := fun p p' np l l' hp hp' => h.inj p p' np l l' (ht p ▸ hp) (ht p' ▸ hp')

namespace Sys

variable {C : Type}

/-- CPU `c` may be on the stack of process `p`. -/
def ProcOk (s : Sys C) (c : C) (p : ℕ) : Prop :=
  match (s.procs p).pc with
  | .run => (s.procs p).state = .running
  | .waiting | .parked _ => (s.procs p).state = .running ∧ s.lock = some c
  | .leaving _ => (s.procs p).state.still ∧ (s.procs p).state ≠ .embryo ∧ s.lock = some c

/-- CPU `c` is where it may be. -/
def CpuOk (s : Sys C) (c : C) : Prop :=
  match (s.cpus c).pc with
  | .idle => (s.cpus c).proc = none
  | .scan _ => (s.cpus c).proc = none ∧ s.lock = some c
  | .back p => (s.cpus c).proc = some p ∧ s.lock = some c ∧ (s.procs p).state ≠ .running
  | .on p => (s.cpus c).proc = some p ∧ s.ProcOk c p

/-- The invariant of all interleavings. -/
structure Ok (s : Sys C) : Prop where
  cpu : ∀ c, s.CpuOk c
  on_inj : ∀ c c' p, s.On c p → s.On c' p → c = c'
  running : ∀ p, (s.procs p).state = .running → ∃ c, s.On c p
  parked : ∀ p, (s.procs p).state.still →
    (∃ k, (s.procs p).pc = .parked k) ∨ ∃ k c, (s.procs p).pc = .leaving k ∧ s.On c p
  forks : Forks s.procs

variable {s s' : Sys C} {c c' : C} {p q : ℕ}

theorem cpuOk_idle (hc : (s.cpus c).pc = .idle) : s.CpuOk c ↔ (s.cpus c).proc = none := by
  unfold CpuOk; rw [hc]

theorem cpuOk_scan {i : ℕ} (hc : (s.cpus c).pc = .scan i) :
    s.CpuOk c ↔ (s.cpus c).proc = none ∧ s.lock = some c := by
  unfold CpuOk; rw [hc]

theorem cpuOk_back (hc : (s.cpus c).pc = .back p) :
    s.CpuOk c ↔ (s.cpus c).proc = some p ∧ s.lock = some c ∧ (s.procs p).state ≠ .running := by
  unfold CpuOk; rw [hc]

theorem cpuOk_on (hc : s.On c p) : s.CpuOk c ↔ (s.cpus c).proc = some p ∧ s.ProcOk c p := by
  unfold CpuOk; rw [show (s.cpus c).pc = .on p from hc]

namespace Ok

theorem procOk (h : s.Ok) (hp : s.On c p) : s.ProcOk c p := ((cpuOk_on hp).1 (h.cpu c)).2

theorem proc_eq (h : s.Ok) (hp : s.On c p) : (s.cpus c).proc = some p :=
  ((cpuOk_on hp).1 (h.cpu c)).1

theorem state_of_runs (h : s.Ok) (hp : s.Runs c p) : (s.procs p).state = .running := by
  have := h.procOk hp.1
  unfold ProcOk at this
  rwa [hp.2] at this

/-- A process on a CPU that is not running is about to `swtch`, and its CPU holds the lock. -/
theorem running_or (h : s.Ok) (hp : s.On c p) : (s.procs p).state = .running ∨
    (∃ k, (s.procs p).pc = .leaving k) ∧ (s.procs p).state.still ∧ (s.procs p).state ≠ .embryo ∧
      s.lock = some c := by
  have := h.procOk hp
  unfold ProcOk at this
  split at this
  · exact .inl this
  · exact .inl this.1
  · exact .inl this.1
  · exact .inr ⟨⟨_, ‹_›⟩, this⟩

theorem lock_of_on (h : s.Ok) (hp : s.On c p) (hs : (s.procs p).state ≠ .running) :
    s.lock = some c :=
  ((h.running_or hp).resolve_left hs).2.2.2

theorem not_embryo_of_on (h : s.Ok) (hp : s.On c p) : (s.procs p).state ≠ .embryo := by
  rcases h.running_or hp with hr | hl
  · simp [hr]
  · exact hl.2.2.1

theorem not_unused_of_on (h : s.Ok) (hp : s.On c p) : (s.procs p).state ≠ .unused := by
  rcases h.running_or hp with hr | ⟨-, hs, -⟩
  · simp [hr]
  · intro hu; rw [hu] at hs; cases hs

end Ok

namespace ProcOk

/-- A calm change by which the lock stays where the process needs it. -/
theorem calm (h : s.ProcOk c p) (hc : Calm (s.procs p) (s'.procs p))
    (hs : (s.procs p).state ≠ .running → (s'.procs p).state.still)
    (hl : s.lock = some c → s'.lock = some c) : s'.ProcOk c p := by
  unfold ProcOk at h ⊢
  rw [hc.pc]
  split at h
  · exact hc.running.2 h
  · exact ⟨hc.running.2 h.1, hl h.2⟩
  · exact ⟨hc.running.2 h.1, hl h.2⟩
  · refine ⟨hs fun hr => ?_, fun he => h.2.1 (hc.embryo.1 he), hl h.2.2⟩
    rw [hr] at h
    cases h.1

theorem congr (h : s.ProcOk c p) (hs : (s'.procs p).state = (s.procs p).state)
    (hpc : (s'.procs p).pc = (s.procs p).pc) (hl : s.lock = some c → s'.lock = some c) :
    s'.ProcOk c p := by
  unfold ProcOk at h ⊢
  rw [hs, hpc]
  split at h
  · exact h
  · exact ⟨h.1, hl h.2⟩
  · exact ⟨h.1, hl h.2⟩
  · exact ⟨h.1, h.2.1, hl h.2.2⟩

end ProcOk

namespace Ok

/-- The CPU of a process is the only one on its stack, and needs no lock that another one holds. -/
theorem cpuOk_of_ne (h : s.Ok) (hcpu : s'.cpus c' = s.cpus c')
    (hl : s.lock = some c' → s'.lock = some c')
    (hback : ∀ p, (s.cpus c').pc = .back p → (s'.procs p).state ≠ .running)
    (hon : ∀ p, s.On c' p → s'.ProcOk c' p) : s'.CpuOk c' := by
  have hc := h.cpu c'
  cases hpc : (s.cpus c').pc with
  | idle => rw [cpuOk_idle hpc] at hc; rwa [cpuOk_idle (hcpu ▸ hpc), hcpu]
  | scan i =>
    rw [cpuOk_scan hpc] at hc
    rw [cpuOk_scan (hcpu ▸ hpc), hcpu]
    exact ⟨hc.1, hl hc.2⟩
  | back p =>
    rw [cpuOk_back hpc] at hc
    rw [cpuOk_back (hcpu ▸ hpc), hcpu]
    exact ⟨hc.1, hl hc.2.1, hback p hpc⟩
  | on p =>
    rw [cpuOk_on hpc] at hc
    rw [cpuOk_on (show s'.On c' p by unfold On; rwa [hcpu]), hcpu]
    exact ⟨hc.1, hon p hpc⟩

/-- A step by which every CPU stays on the stack it is on. -/
theorem of_on (h : s.Ok) (hOn : ∀ c q, s'.On c q ↔ s.On c q) (hcpu : ∀ c, s'.CpuOk c)
    (hrun : ∀ q, (s'.procs q).state = .running → ∃ c, s.On c q)
    (hpark : ∀ q, (s'.procs q).state.still → (∃ k, (s'.procs q).pc = .parked k) ∨
      ∃ k c, (s'.procs q).pc = .leaving k ∧ s.On c q) (hf : Forks s'.procs) : s'.Ok := by
  simp only [← hOn] at hrun hpark
  exact ⟨hcpu, by simpa only [hOn] using h.on_inj, hrun, hpark, hf⟩

/-- Process `p` on CPU `c` takes a step: it may take or give up the lock and change its own entry,
and it changes other entries calmly. -/
theorem act (h : s.Ok) (hp : s.On c p) (hcpus : s'.cpus = s.cpus)
    (hl : ∀ c', c' ≠ c → s.lock = some c' → s'.lock = some c')
    (hq : ∀ q, q ≠ p → Calm (s.procs q) (s'.procs q))
    (hq' : ∀ q c', c' ≠ c → s.On c' q → (s.procs q).state ≠ .running → (s'.procs q).state.still)
    (hok : s'.ProcOk c p) (hleave : (s'.procs p).state.still → ∃ k, (s'.procs p).pc = .leaving k)
    (ht : (s'.procs p).task = (s.procs p).task)
    (hf : (s.procs p).task ≠ .none → (s'.procs p).state.alive) : s'.Ok := by
  have hOn : ∀ c' q, s'.On c' q ↔ s.On c' q := fun c' q => by unfold On; rw [hcpus]
  have hpe : (s.procs p).state ≠ .embryo := h.not_embryo_of_on hp
  refine h.of_on hOn (fun c' => ?_) (fun q hr => ?_) (fun q hs => ?_)
    (h.forks.mono (fun q => ?_) (fun q => ?_) fun q => ?_)
  · by_cases hcc : c' = c
    · subst hcc
      exact (cpuOk_on ((hOn _ _).2 hp)).2 ⟨by rw [hcpus]; exact h.proc_eq hp, hok⟩
    refine h.cpuOk_of_ne (by rw [hcpus]) (hl c' hcc) (fun q hb => ?_) fun q hon => ?_
    · have hc := (cpuOk_back hb).1 (h.cpu c')
      by_cases hqp : q = p
      · -- the lock is with `c'`, so `p` on `c` is running and cannot be the process just left
        subst hqp
        exact absurd (Option.some.inj (hc.2.1.symm.trans (h.lock_of_on hp hc.2.2))) hcc
      · exact fun hr => hc.2.2 ((hq q hqp).running.1 hr)
    · have hqp : q ≠ p := fun he => hcc (h.on_inj c' c p (he ▸ hon) hp)
      exact (h.procOk hon).calm (hq q hqp) (hq' q c' hcc hon) (hl c' hcc)
  · by_cases hqp : q = p
    · exact ⟨c, hqp ▸ hp⟩
    · exact h.running q ((hq q hqp).running.1 hr)
  · by_cases hqp : q = p
    · subst hqp
      obtain ⟨k, hk⟩ := hleave hs
      exact .inr ⟨k, c, hk, hp⟩
    · rw [(hq q hqp).pc]
      exact h.parked q ((hq q hqp).still hs)
  · by_cases hqp : q = p
    · rw [hqp, ht]
    · exact (hq q hqp).task
  · exact fun he => (hq q fun hqp => hpe (hqp ▸ he)).embryo.2 he
  · by_cases hqp : q = p
    · subst hqp; exact fun htq _ => hf htq
    · exact fun _ => (hq q hqp).alive

theorem calm (h : s.Ok) (hfree : s.lock = none) (hcpus : s'.cpus = s.cpus)
    (hq : ∀ q, Calm (s.procs q) (s'.procs q)) : s'.Ok := by
  have hOn : ∀ c' q, s'.On c' q ↔ s.On c' q := fun c' q => by unfold On; rw [hcpus]
  refine h.of_on hOn (fun c => ?_) (fun q hr => h.running q ((hq q).running.1 hr)) (fun q hs => ?_)
    (h.forks.mono (fun q => (hq q).task) (fun q => (hq q).embryo.2) fun q _ => (hq q).alive)
  · refine h.cpuOk_of_ne (by rw [hcpus]) (by simp [hfree]) (fun p hb hr => ?_) fun p hon => ?_
    · have hc := (cpuOk_back hb).1 (h.cpu c)
      exact hc.2.2 ((hq p).running.1 hr)
    refine (h.procOk hon).calm (hq p) (fun hs => ?_) (by simp [hfree])
    have := h.lock_of_on hon hs
    rw [hfree] at this
    cases this
  · rw [(hq q).pc]
    exact h.parked q ((hq q).still hs)

/-- A step of `fork`, which changes tasks and the slot `np` that nobody runs. -/
theorem slot (h : s.Ok) {np : ℕ} (hnp : ∀ c, ¬ s.On c np) (hcpus : s'.cpus = s.cpus)
    (hl : s'.lock = s.lock) (hq : ∀ q, q ≠ np → (s'.procs q).state = (s.procs q).state)
    (hq' : ∀ q, q ≠ np → (s'.procs q).pc = (s.procs q).pc)
    (hrun : (s'.procs np).state ≠ .running) (hpark : ∃ k, (s'.procs np).pc = .parked k)
    (hf : Forks s'.procs) : s'.Ok := by
  have hOn : ∀ c' q, s'.On c' q ↔ s.On c' q := fun c' q => by unfold On; rw [hcpus]
  refine h.of_on hOn (fun c => ?_) (fun q hr => ?_) (fun q hs => ?_) hf
  · refine h.cpuOk_of_ne (by rw [hcpus]) (by rw [hl]; exact id) (fun p hb => ?_) fun p hon => ?_
    · by_cases hpn : p = np
      · exact hpn ▸ hrun
      · have hc := (cpuOk_back hb).1 (h.cpu c)
        rw [hq p hpn]
        exact hc.2.2
    · have hpn : p ≠ np := fun he => hnp c (he ▸ hon)
      exact (h.procOk hon).congr (hq p hpn) (hq' p hpn) (by rw [hl]; exact id)
  · exact h.running q (hq q (fun he => hrun (he ▸ hr)) ▸ hr)
  · by_cases hqn : q = np
    · exact .inl (hqn ▸ hpark)
    · rw [hq' q hqn]
      exact h.parked q (hq q hqn ▸ hs)

/-- A step of `scheduler` outside of the stacks of the processes. -/
theorem cpus (h : s.Ok) [DecidableEq C] (hc : ∀ p, (s.cpus c).pc ≠ .on p) {v : Cpu}
    (hv : ∀ p, v.pc ≠ .on p) (hcpus : s'.cpus = upd s.cpus c v) (hprocs : s'.procs = s.procs)
    (hl : ∀ c', c' ≠ c → s.lock = some c' → s'.lock = some c') (hok : s'.CpuOk c) : s'.Ok := by
  have hOn : ∀ c' q, s'.On c' q ↔ s.On c' q := fun c' q => by
    unfold On
    by_cases hcc : c' = c
    · simp [hcpus, hcc, hc, hv]
    · simp [hcpus, hcc]
  refine h.of_on hOn (fun c' => ?_) (hprocs ▸ h.running) (hprocs ▸ h.parked) (hprocs ▸ h.forks)
  by_cases hcc : c' = c
  · exact hcc ▸ hok
  refine h.cpuOk_of_ne (by simp [hcpus, hcc]) (hl c' hcc) (fun p hb => ?_) fun p hon => ?_
  · have := (cpuOk_back hb).1 (h.cpu c')
    rw [hprocs]
    exact this.2.2
  · exact (h.procOk hon).congr (by rw [hprocs]) (by rw [hprocs]) (hl c' hcc)

theorem not_on_of_state (h : s.Ok) (hs : (s.procs q).state = .unused ∨ (s.procs q).state = .embryo)
    (c : C) : ¬ s.On c q := fun hon =>
  hs.elim (h.not_unused_of_on hon) (h.not_embryo_of_on hon)

/-- The process that a CPU is on and that holds the lock. -/
theorem lock_of_pc (h : s.Ok) (hp : s.On c p) (hk : (s.procs p).pc ≠ .run) : s.lock = some c := by
  have := h.procOk hp
  unfold ProcOk at this
  split at this
  · exact absurd ‹_› hk
  · exact this.2
  · exact this.2
  · exact this.2.2

theorem running_of_pc (h : s.Ok) (hp : s.On c p) (hk : ∀ k, (s.procs p).pc ≠ .leaving k) :
    (s.procs p).state = .running :=
  (h.running_or hp).resolve_right fun hl => hl.1.elim hk

theorem own (h : s.Ok) (hp : s.On c p) {v : Proc} (hprocs : s'.procs = upd s.procs p v)
    (hcpus : s'.cpus = s.cpus) (hl : ∀ c', c' ≠ c → s.lock = some c' → s'.lock = some c')
    (hok : s'.ProcOk c p) (hleave : v.state.still → ∃ k, v.pc = .leaving k)
    (ht : v.task = (s.procs p).task) (hf : (s.procs p).task ≠ .none → v.state.alive) : s'.Ok := by
  have hv : s'.procs p = v := by simp [hprocs]
  have hne : ∀ q, q ≠ p → s'.procs q = s.procs q := fun q hqp => by simp [hprocs, hqp]
  refine h.act hp hcpus hl (fun q hqp => hne q hqp ▸ .refl _) (fun q c' hcc hon hs => ?_) hok
    (hv ▸ hleave) (hv ▸ ht) (hv ▸ hf)
  have hqp : q ≠ p := fun he => hcc (h.on_inj c' c p (he ▸ hon) hp)
  have := h.procOk hon
  unfold ProcOk at this
  rw [hne q hqp]
  split at this
  · exact absurd this hs
  · exact absurd this.1 hs
  · exact absurd this.1 hs
  · exact this.1

theorem leave (h : s.Ok) (hp : s.Runs c p) (hl : s.lock = none) {v : Proc} {k : Resume}
    (hprocs : s'.procs = upd s.procs p v) (hcpus : s'.cpus = s.cpus) (hl' : s'.lock = some c)
    (hpc : v.pc = .leaving k) (hs : v.state = .runnable ∨ v.state = .sleeping)
    (ht : v.task = (s.procs p).task) : s'.Ok := by
  refine h.own hp.1 hprocs hcpus (by simp [hl]) ?_ (fun _ => ⟨k, hpc⟩) ht fun _ => ?_
  · rcases hs with hs | hs <;> simp [ProcOk, hprocs, hpc, hs, hl', ProcState.still]
  · rcases hs with hs | hs <;> rw [hs] <;> rfl

/-- The process takes or gives up the lock, or moves on under it. -/
theorem go (h : s.Ok) (hp : s.On c p) {v : Proc} (hprocs : s'.procs = upd s.procs p v)
    (hcpus : s'.cpus = s.cpus) (hl : ∀ c', c' ≠ c → s.lock = some c' → s'.lock = some c')
    (hs : v.state = .running) (hpc : v.pc = .run ∨ v.pc = .waiting ∧ s'.lock = some c)
    (ht : v.task = (s.procs p).task) : s'.Ok := by
  refine h.own hp hprocs hcpus hl ?_ (by simp [hs, ProcState.still]) ht fun _ => by rw [hs]; rfl
  rcases hpc with hpc | ⟨hpc, hl'⟩
  · simp [ProcOk, hprocs, hpc, hs]
  · simp [ProcOk, hprocs, hpc, hs, hl']

theorem exit (h : s.Ok) (hp : s.Runs c p) (ht : (s.procs p).task = .none) (hl : s.lock = none)
    {init : ℕ} (he : Exits p init s.procs s'.procs) (hcpus : s'.cpus = s.cpus)
    (hl' : s'.lock = some c) : s'.Ok := by
  have hz : (s'.procs p).state = .zombie := by rw [he.self]
  have hpc : (s'.procs p).pc = .leaving .exit := by rw [he.self]
  refine h.act hp.1 hcpus (by simp [hl]) (fun q hq => calm_of_wakes (he.wakes q hq))
    (fun q c' _ hon hs => ?_) ?_ (fun _ => ⟨_, hpc⟩) (by rw [he.self]) (by simp [ht])
  · have := h.lock_of_on hon hs
    rw [hl] at this
    cases this
  · simp [ProcOk, hpc, hz, hl', ProcState.still]

theorem reap (h : s.Ok) (hp : s.On c p) (hk : (s.procs p).pc = .waiting)
    (hz : (s.procs q).state = .zombie) (hcpus : s'.cpus = s.cpus)
    (hprocs : s'.procs = upd (upd s.procs q (reaped (s.procs q))) p
      { upd s.procs q (reaped (s.procs q)) p with pc := .run }) : s'.Ok := by
  have hl : s.lock = some c := h.lock_of_pc hp (by simp [hk])
  have hr : (s.procs p).state = .running := h.running_of_pc hp (by simp [hk])
  have hpq : p ≠ q := fun he => by rw [he, hz] at hr; cases hr
  have hpv : s'.procs p = { s.procs p with pc := .run } := by simp [hprocs, hpq]
  have hqv : s'.procs q = reaped (s.procs q) := by simp [hprocs, hpq.symm]
  have hne : ∀ i, i ≠ p → i ≠ q → s'.procs i = s.procs i := fun i hip hiq => by
    simp [hprocs, hip, hiq]
  refine h.act hp hcpus (fun c' hcc hc' => ?_) (fun i hip => ?_) (fun i c' hcc hon hs => ?_)
    ?_ ?_ ?_ ?_
  · exact absurd (Option.some.inj (hc'.symm.trans hl)) hcc
  · by_cases hiq : i = q
    · subst hiq; rw [hqv]; exact calm_reaped hz
    · rw [hne i hip hiq]; exact .refl _
  · exact absurd (Option.some.inj ((h.lock_of_on hon hs).symm.trans hl)) hcc
  · simp [ProcOk, hpv, hr]
  · simp [hpv, hr, ProcState.still]
  · rw [hpv]
  · simp [hpv, hr, ProcState.alive]

theorem forkStep (h : s.Ok) (hp : s.Runs c p) {np : ℕ} {v : Proc} {t : Task}
    (hnp : (s.procs np).state = .unused ∨ (s.procs np).state = .embryo) (hcpus : s'.cpus = s.cpus)
    (hl : s'.lock = s.lock)
    (hprocs : s'.procs = upd (upd s.procs np v) p { upd s.procs np v p with task := t })
    (hrun : v.state ≠ .running) (hpark : ∃ k, v.pc = .parked k) (hv : v.task = .none)
    (ht : ∀ m l, t = .fork m l → m = np ∧ v.state = .embryo)
    (hown : ∀ q l, (s.procs q).task = .fork np l → q = p) : s'.Ok := by
  have hr := h.state_of_runs hp
  have hne : np ≠ p := fun he => by rw [he, hr] at hnp; simp at hnp
  have hpv : s'.procs p = { s.procs p with task := t } := by simp [hprocs, hne.symm]
  have hnv : s'.procs np = v := by simp [hprocs, hne]
  have hother : ∀ i, i ≠ p → i ≠ np → s'.procs i = s.procs i := fun i hip hin => by
    simp [hprocs, hip, hin]
  have hstate : ∀ i, i ≠ np → (s'.procs i).state = (s.procs i).state := fun i hin => by
    by_cases hip : i = p
    · rw [hip, hpv]
    · rw [hother i hip hin]
  have htask : ∀ i m l, (s'.procs i).task = .fork m l →
      (i = p ∧ t = .fork m l) ∨ (i ≠ p ∧ (s.procs i).task = .fork m l) := fun i m l hi => by
    by_cases hip : i = p
    · rw [hip, hpv] at hi; exact .inl ⟨hip, hi⟩
    · by_cases hin : i = np
      · rw [hin, hnv, hv] at hi; cases hi
      · rw [hother i hip hin] at hi; exact .inr ⟨hip, hi⟩
  refine h.slot (h.not_on_of_state hnp) hcpus hl hstate (fun i hin => ?_) (hnv ▸ hrun)
    (hnv ▸ hpark) ⟨fun i m l hi => ?_, fun i m l hi => ?_, fun i j m l l' hi hj => ?_⟩
  · by_cases hip : i = p
    · rw [hip, hpv]
    · rw [hother i hip hin]
  · rcases htask i m l hi with ⟨-, hi⟩ | ⟨hip, hi⟩
    · obtain ⟨rfl, he⟩ := ht m l hi
      rwa [hnv]
    · rw [hstate m fun hm => hip (hown i l (hm ▸ hi))]
      exact h.forks.embryo i m l hi
  · rcases htask i m l hi with ⟨rfl, -⟩ | ⟨-, hi⟩
    · rw [hpv, hr]; rfl
    have hin : i ≠ np := fun hin => by
      have := h.forks.alive i m l hi
      rw [hin] at this
      rcases hnp with hnp | hnp <;> rw [hnp] at this <;> cases this
    rw [hstate i hin]
    exact h.forks.alive i m l hi
  · rcases htask i m l hi with ⟨hip, hi⟩ | ⟨hip, hi⟩ <;>
      rcases htask j m l' hj with ⟨hjp, hj⟩ | ⟨hjp, hj⟩
    · rw [hip, hjp]
    · exact absurd (hown j l' ((ht m l hi).1 ▸ hj)) hjp
    · exact absurd (hown i l ((ht m l' hj).1 ▸ hi)) hip
    · exact h.forks.inj i j m l l' hi hj

/-- An embryo is at its saved context and not in `fork` itself. -/
theorem embryo_parked (h : s.Ok) (hs : (s.procs q).state = .embryo) :
    (∃ k, (s.procs q).pc = .parked k) ∧ (s.procs q).task = .none := by
  refine ⟨(h.parked q (by rw [hs]; rfl)).resolve_right fun ⟨_, c, _, hon⟩ =>
    h.not_embryo_of_on hon hs, ?_⟩
  cases ht : (s.procs q).task with
  | none => rfl
  | fork np l =>
    have := h.forks.alive q np l ht
    rw [hs] at this
    cases this

theorem on_or_back (h : s.Ok) (hp : (s.cpus c).proc = some p) :
    s.On c p ∨ (s.cpus c).pc = .back p ∧ s.lock = some c := by
  have hc := h.cpu c
  cases hpc : (s.cpus c).pc with
  | idle => rw [cpuOk_idle hpc, hp] at hc; cases hc
  | scan i => rw [cpuOk_scan hpc, hp] at hc; cases hc.1
  | back q =>
    rw [cpuOk_back hpc, hp] at hc
    obtain rfl : p = q := Option.some.inj hc.1
    exact .inr ⟨rfl, hc.2.1⟩
  | on q =>
    rw [cpuOk_on hpc, hp] at hc
    obtain rfl : p = q := Option.some.inj hc.1
    exact .inl hpc

theorem proc_eq_iff (h : s.Ok) (hl : s.lock = none) : (s.cpus c).proc = some p ↔ s.On c p := by
  refine ⟨fun hp => (h.on_or_back hp).resolve_right fun hb => ?_, h.proc_eq⟩
  rw [hl] at hb
  cases hb.2

/-- While the lock is free, a process on a CPU is running. -/
theorem running_of_on (h : s.Ok) (hl : s.lock = none) (hp : s.On c p) :
    (s.procs p).state = .running := by
  by_contra hs
  have := h.lock_of_on hp hs
  rw [hl] at this
  cases this

/-- While a process is in the loop of `wait`, no CPU has anything to do with a zombie. -/
theorem zombie_off (h : s.Ok) (hp : s.On c p) (hk : (s.procs p).pc = .waiting)
    (hz : (s.procs q).state = .zombie) (c' : C) : (s.cpus c').proc ≠ some q ∧ ¬ s.On c' q := by
  have hl := h.lock_of_pc hp (by simp [hk])
  have hr := h.running_of_pc hp (by simp [hk])
  have hon : ¬ s.On c' q := fun hon => by
    have := h.lock_of_on hon (by simp [hz])
    obtain rfl : c' = c := Option.some.inj (this.symm.trans hl)
    obtain rfl : q = p := by simpa [On] using hon.symm.trans hp
    rw [hz] at hr
    cases hr
  refine ⟨fun hq => ?_, hon⟩
  obtain ⟨hb, hl'⟩ := (h.on_or_back hq).resolve_left hon
  obtain rfl : c' = c := Option.some.inj (hl'.symm.trans hl)
  simp [On, hb] at hp

variable [DecidableEq C]

theorem pick (h : s.Ok) {i : ℕ} (hc : (s.cpus c).pc = .scan i)
    (hr : (s.procs i).state = .runnable) (hcpus : s'.cpus = upd s.cpus c ⟨some i, .on i⟩)
    (hprocs : s'.procs = upd s.procs i { s.procs i with state := .running })
    (hlock : s'.lock = s.lock) : s'.Ok := by
  obtain ⟨-, hl⟩ := (cpuOk_scan hc).1 (h.cpu c)
  have hnot : ∀ c', ¬ s.On c' i := fun c' hon => by
    -- the lock of a process that is about to leave is with its own CPU
    have := h.lock_of_on hon (by simp [hr])
    obtain rfl : c' = c := Option.some.inj (this.symm.trans hl)
    simp [On, hc] at hon
  obtain ⟨k, hk⟩ : ∃ k, (s.procs i).pc = .parked k :=
    (h.parked i (by rw [hr]; rfl)).resolve_right (by rintro ⟨_, c', _, hon⟩; exact hnot c' hon)
  have hOn : ∀ c' q, s'.On c' q ↔ (c' = c ∧ q = i) ∨ s.On c' q := fun c' q => by
    by_cases hcc : c' = c
    · subst hcc; simp [On, hcpus, hc, eq_comm]
    · simp [On, hcpus, hcc]
  have hne : ∀ q, q ≠ i → s'.procs q = s.procs q := fun q hqi => by simp [hprocs, hqi]
  have hi : s'.procs i = { s.procs i with state := .running } := by simp [hprocs]
  refine ⟨fun c' => ?_, ?_, ?_, ?_, h.forks.mono (fun q => ?_) (fun q => ?_) fun q _ => ?_⟩
  · by_cases hcc : c' = c
    · subst hcc
      simp [CpuOk, ProcOk, hcpus, hi, hk, hlock, hl]
    refine h.cpuOk_of_ne (by simp [hcpus, hcc]) (hlock ▸ id) (fun p hb => ?_) fun p hon => ?_
    · have := (cpuOk_back hb).1 (h.cpu c')
      exact absurd (Option.some.inj (this.2.1.symm.trans hl)) hcc
    · have hpi : p ≠ i := fun he => hnot c' (he ▸ hon)
      exact (h.procOk hon).congr (by rw [hne p hpi]) (by rw [hne p hpi]) (hlock ▸ id)
  · intro c₁ c₂ q h1 h2
    rw [hOn] at h1 h2
    rcases h1 with ⟨rfl, rfl⟩ | h1 <;> rcases h2 with ⟨rfl, hq⟩ | h2
    · rfl
    · exact absurd h2 (hnot c₂)
    · exact absurd h1 (hq ▸ hnot c₁)
    · exact h.on_inj c₁ c₂ q h1 h2
  · intro q hr'
    simp only [hOn]
    by_cases hqi : q = i
    · exact ⟨c, .inl ⟨rfl, hqi⟩⟩
    · obtain ⟨c', hc'⟩ := h.running q (hne q hqi ▸ hr')
      exact ⟨c', .inr hc'⟩
  · intro q hs
    by_cases hqi : q = i
    · subst hqi; rw [hi] at hs; cases hs
    rw [hne q hqi] at hs ⊢
    refine (h.parked q hs).imp_right ?_
    rintro ⟨k, c', hk, hon⟩
    exact ⟨k, c', hk, (hOn _ _).2 (.inr hon)⟩
  · by_cases hqi : q = i
    · rw [hqi, hi]
    · rw [hne q hqi]
  · by_cases hqi : q = i
    · rw [hqi, hr]; intro hs; cases hs
    · rw [hne q hqi]; exact id
  · by_cases hqi : q = i
    · rw [hqi, hi]; exact fun _ => rfl
    · rw [hne q hqi]; exact id

theorem swtch (h : s.Ok) (hp : s.On c p) {k : Resume} (hk : (s.procs p).pc = .leaving k)
    (hcpus : s'.cpus = upd s.cpus c ⟨(s.cpus c).proc, .back p⟩)
    (hprocs : s'.procs = upd s.procs p { s.procs p with pc := .parked k })
    (hlock : s'.lock = s.lock) : s'.Ok := by
  have hok := h.procOk hp
  unfold ProcOk at hok
  rw [hk] at hok
  obtain ⟨hs, -, hl⟩ := hok
  have hOn : ∀ c' q, s'.On c' q ↔ c' ≠ c ∧ s.On c' q := fun c' q => by
    by_cases hcc : c' = c
    · simp [On, hcpus, hcc]
    · simp [On, hcpus, hcc]
  have hne : ∀ q, q ≠ p → s'.procs q = s.procs q := fun q hqp => by simp [hprocs, hqp]
  have hp' : s'.procs p = { s.procs p with pc := .parked k } := by simp [hprocs]
  have hstate : ∀ q, (s'.procs q).state = (s.procs q).state := fun q => by
    by_cases hqp : q = p
    · rw [hqp, hp']
    · rw [hne q hqp]
  refine ⟨fun c' => ?_, ?_, ?_, ?_, h.forks.mono (fun q => ?_) (fun q => ?_) fun q _ => ?_⟩
  · by_cases hcc : c' = c
    · subst hcc
      refine (cpuOk_back (p := p) (by simp [hcpus])).2
        ⟨by simpa [hcpus] using h.proc_eq hp, hlock.trans hl, fun hr => ?_⟩
      rw [hstate] at hr
      rw [hr] at hs
      cases hs
    · refine h.cpuOk_of_ne (by simp [hcpus, hcc]) (hlock ▸ id) (fun q hb => ?_) fun q hon => ?_
      · have := (cpuOk_back hb).1 (h.cpu c')
        exact absurd (Option.some.inj (this.2.1.symm.trans hl)) hcc
      · have hqp : q ≠ p := fun he => hcc (h.on_inj c' c p (he ▸ hon) hp)
        exact (h.procOk hon).congr (hstate q) (by rw [hne q hqp]) (hlock ▸ id)
  · exact fun c₁ c₂ q h1 h2 => h.on_inj c₁ c₂ q ((hOn _ _).1 h1).2 ((hOn _ _).1 h2).2
  · intro q hr
    rw [hstate] at hr
    obtain ⟨c', hc'⟩ := h.running q hr
    refine ⟨c', (hOn _ _).2 ⟨fun hcc => ?_, hc'⟩⟩
    subst hcc
    obtain rfl : p = q := by simpa [On] using hp.symm.trans hc'
    rw [hr] at hs
    cases hs
  · intro q hs'
    rw [hstate] at hs'
    by_cases hqp : q = p
    · exact .inl ⟨k, by rw [hqp, hp']⟩
    rw [hne q hqp]
    refine (h.parked q hs').imp_right ?_
    rintro ⟨k', c', hk', hon⟩
    refine ⟨k', c', hk', (hOn _ _).2 ⟨?_, hon⟩⟩
    rintro rfl
    exact hqp (by simpa [On] using hon.symm.trans hp)
  · by_cases hqp : q = p
    · rw [hqp, hp']
    · rw [hne q hqp]
  · rw [hstate]; exact id
  · rw [hstate]; exact id

theorem step {l : Label C} (h : s.Ok) (hs : s.Steps l s') : s'.Ok := by
  cases hs with
  | @acquire c hc hl =>
    refine h.cpus (by simp [hc]) (by simp) rfl rfl (by simp [hl]) ?_
    exact (cpuOk_scan (i := 0) (by simp [setCpu])).2
      ⟨by simpa [setCpu] using (cpuOk_idle hc).1 (h.cpu c), rfl⟩
  | @release c i hc =>
    obtain ⟨hn, hl⟩ := (cpuOk_scan hc).1 (h.cpu c)
    refine h.cpus (by simp [hc]) (by simp) rfl rfl (fun c' hcc hc' => ?_) ?_
    · exact absurd (Option.some.inj (hc'.symm.trans hl)) hcc
    · exact (cpuOk_idle (by simp [setCpu])).2 (by simpa [setCpu] using hn)
  | @skip c i hc =>
    obtain ⟨hn, hl⟩ := (cpuOk_scan hc).1 (h.cpu c)
    refine h.cpus (by simp [hc]) (by simp) rfl rfl (fun _ _ => id) ?_
    exact (cpuOk_scan (i := i + 1) (by simp [setCpu])).2 ⟨by simpa [setCpu] using hn, hl⟩
  | pick hc hi hr => exact h.pick hc hr rfl rfl rfl
  | @back c i hc =>
    obtain ⟨-, hl, -⟩ := (cpuOk_back hc).1 (h.cpu c)
    refine h.cpus (by simp [hc]) (by simp) rfl rfl (fun _ _ => id) ?_
    exact (cpuOk_scan (i := i + 1) (by simp [setCpu])).2 ⟨by simp [setCpu], hl⟩
  | @resume c p k ch hp hk | giveUp hp hk =>
    have hl := h.lock_of_pc hp (by simp [hk])
    refine h.go hp rfl rfl (fun c' hcc hc' => ?_) (h.running_of_pc hp (by simp [hk])) (.inl rfl) rfl
    exact absurd (Option.some.inj (hc'.symm.trans hl)) hcc
  | resumeWait hp hk =>
    exact h.go hp rfl rfl (fun _ _ => id) (h.running_of_pc hp (by simp [hk]))
      (.inr ⟨rfl, h.lock_of_pc hp (by simp [hk])⟩) rfl
  | swtch hp hk => exact h.swtch hp hk rfl rfl rfl
  | yield hp hl => exact h.leave hp hl rfl rfl rfl rfl (.inl rfl) rfl
  | sleep hp hl => exact h.leave hp hl rfl rfl rfl rfl (.inr rfl) rfl
  | exit hp ht hi hl => exact h.exit hp ht hl (exitTable_spec hi.symm _) rfl rfl
  | wait hp hl => exact h.go hp.1 rfl rfl (by simp [hl]) (h.state_of_runs hp) (.inr ⟨rfl, rfl⟩) rfl
  | reap hp hk hq hpar hz => exact h.reap hp hk hz rfl rfl
  | waitSleep hp hk hz =>
    refine h.own hp rfl rfl (fun _ _ => id) ?_ (fun _ => ⟨_, rfl⟩) rfl fun _ => rfl
    simpa [ProcOk, setProc, ProcState.still] using h.lock_of_pc hp (by simp [hk])
  | @fork c p np hp ht hl hn hu =>
    refine h.forkStep hp (.inl hu) rfl rfl rfl (by simp [embryo]) ⟨_, rfl⟩ rfl ?_ fun q l hq => ?_
    · rintro m l ⟨⟩; exact ⟨rfl, rfl⟩
    · have := h.forks.embryo q np l hq
      rw [hu] at this
      cases this
  | forkFull => exact h
  | @forkFail c p np hp ht | @forkDone c p np hp ht hl =>
    have he := h.forks.embryo p np _ ht
    obtain ⟨hpark, htn⟩ := h.embryo_parked he
    exact h.forkStep hp (.inr he) rfl rfl rfl (by simp) hpark htn (by simp)
      fun q l hq => h.forks.inj q p np l _ hq ht
  | @forkLink c p np hp ht =>
    have he := h.forks.embryo p np _ ht
    obtain ⟨hpark, htn⟩ := h.embryo_parked he
    refine h.forkStep hp (.inr he) rfl rfl rfl (by simp [he]) hpark htn ?_
      fun q l hq => h.forks.inj q p np l _ hq ht
    rintro m l ⟨⟩
    exact ⟨rfl, he⟩
  | kill hl => exact h.calm hl rfl fun q => calm_kill s.procs _ q
  | wakeup hl => exact h.calm hl rfl fun q => calm_of_wakes (wakeup1_spec s.procs _ q).1
  | trap hp => exact h.go hp.1 rfl rfl (fun _ _ => id) (h.state_of_runs hp) (.inl hp.2) rfl

end Ok

theorem ok_init : (init : Sys C).Ok where
  cpu := fun c => (cpuOk_idle rfl).2 rfl
  on_inj := fun c _ _ h => by cases h
  running := fun p h => by
    by_cases hp : p = 0 <;> simp [init, setProc, blank, hp] at h
  parked := fun p _ => .inl ⟨.forkret, by by_cases hp : p = 0 <;> simp [init, setProc, blank, hp]⟩
  forks := by
    have ht : ∀ p, ((init : Sys C).procs p).task = .none := fun p => by
      by_cases hp : p = 0 <;> simp [init, setProc, blank, hp]
    exact ⟨fun p np l h => by simp [ht] at h, fun p np l h => by simp [ht] at h,
      fun p p' np l l' h => by simp [ht] at h⟩

end Sys

variable {C : Type} [DecidableEq C] {s : Sys C}

theorem Sys.ok_of_run {ls : List (Label C)} (h : (sys C).Run .init ls s) : s.Ok :=
  h.invariant ok_init fun _ _ _ hi hs => hi.step (step_inv hs)

/-- **Scheduler safety.**  In every state with `ptable.lock` free, a process is `RUNNING` exactly if
one CPU has it as `c->proc`, no two CPUs have the same process, and a process that is `RUNNABLE`,
`SLEEPING` or `ZOMBIE` is on no CPU.  And at every step by which `wait` frees a zombie, with its
kernel stack and page directory, no CPU has it as `c->proc` or is on its stack. -/
theorem scheduler_safe {ls : List (Label C)} (h : (sys C).Run .init ls s) :
    (s.lock = none →
      (∀ p, (s.procs p).state = .running ↔ ∃! c, (s.cpus c).proc = some p) ∧
      (∀ c c' p, (s.cpus c).proc = some p → (s.cpus c').proc = some p → c = c') ∧
      ∀ p, (s.procs p).state = .runnable ∨ (s.procs p).state = .sleeping ∨
        (s.procs p).state = .zombie → ∀ c, (s.cpus c).proc ≠ some p) ∧
    ∀ c s' q, (sys C).step s (.look c) s' → (s.procs q).state = .zombie →
      (s'.procs q).state = .unused → ∀ c', (s.cpus c').proc ≠ some q ∧ (s.cpus c').pc ≠ .on q := by
  have hok := Sys.ok_of_run h
  refine ⟨fun hl => ⟨fun p => ⟨fun hr => ?_, ?_⟩, fun c c' p hc hc' => ?_, fun p hs c hc => ?_⟩,
    fun c s' q hs hz hu => ?_⟩
  · obtain ⟨c, hc⟩ := hok.running p hr
    exact ⟨c, hok.proc_eq hc, fun c' hc' => hok.on_inj c' c p ((hok.proc_eq_iff hl).1 hc') hc⟩
  · rintro ⟨c, hc, -⟩
    exact hok.running_of_on hl ((hok.proc_eq_iff hl).1 hc)
  · exact hok.on_inj c c' p ((hok.proc_eq_iff hl).1 hc) ((hok.proc_eq_iff hl).1 hc')
  · have := hok.running_of_on hl ((hok.proc_eq_iff hl).1 hc)
    simp [this] at hs
  · obtain ⟨p, hp, hk⟩ : ∃ p, s.On c p ∧ (s.procs p).pc = .waiting := by
      cases Sys.step_inv hs with
      | reap hp hk | giveUp hp hk | waitSleep hp hk => exact ⟨_, hp, hk⟩
    exact fun c' => hok.zombie_off hp hk hz c'

/-- The CPU picks the first process, which runs. -/
theorem scheduler_safe_first : ∃ s, (sys Unit).Run .init [.sched (), .sched (), .resume ()] s ∧
    s.lock = none ∧ (s.procs 0).state = .running ∧ ∃! c, (s.cpus c).proc = some 0 := by
  obtain ⟨s, hs, hd⟩ := Option.map_eq_some_iff.1 (show
    (LTS.exec Sys.step Sys.init [.sched (), .sched (), .resume ()]).map
      (fun s => (s.lock, (s.procs 0).state)) = some (none, .running) by decide +kernel)
  obtain ⟨hl, hr⟩ := Prod.mk.inj hd
  have hrun := LTS.run_of_exec hs
  exact ⟨s, hrun, hl, hr, (((scheduler_safe hrun).1 hl).1 0).1 hr⟩

end Ptable

end Xv6
