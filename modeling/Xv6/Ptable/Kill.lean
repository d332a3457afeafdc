import Xv6.Ptable.Schedule

/-!
# Whom `kill` hits

`kill` compares pids and does not look at the state of a slot.  An `UNUSED` slot carries pid 0, or
the pid of the fork that gave it up, and `allocproc` does not clear `killed`: so `kill(0)` returns
0, and the next child that gets the slot is born killed.

* `Ptable.born_killed` : this happens.
* `Ptable.Spares` : `kill` finds a slot that is in use, and no fork gives up an embryo that has been
  killed.
* `Ptable.kill_targets_live` : **then only live processes are killed**, each by a `kill` of its own
  pid or a trap of its own after its creation.
-/

namespace Xv6

open List

namespace Ptable

/-- `kill(pid)` returns 0 and changes one process, which is in use and has that pid; or there is
none, and it returns -1 and changes nothing. -/
def KillsLive (t : ℕ → Proc) (pid : ℤ) : Prop :=
  ((kill t pid).1 = 0 ∧ ∃ i < nproc, (t i).state ≠ .unused ∧ (t i).pid = pid ∧
    ∀ j, j ≠ i → (kill t pid).2 j = t j) ∨
  ((kill t pid).1 = -1 ∧ (kill t pid).2 = t ∧
    ∀ i < nproc, (t i).state ≠ .unused → (t i).pid ≠ pid)

/-- The slot `q`: if it is marked as killed it is in use, and since it was allocated its pid was
killed or it ran into a trap. -/
structure Blamed (hist : List Event) (q : ℕ) (p : Proc) : Prop where
  born_le : p.born ≤ hist.length
  cause : p.killed = true → p.state ≠ .unused ∧
    ∃ e ∈ hist.drop p.born, e = .kill p.pid ∨ e = .trap q

namespace Blamed

variable {hist hist' : List Event} {q : ℕ} {p p' : Proc}

/-- A process that keeps its mark, its pid and its slot. -/
theorem keep (h : Blamed hist q p) (hh : hist <+: hist') (hk : p'.killed = p.killed)
    (hp : p'.pid = p.pid) (hb : p'.born = p.born) (hs : p'.state = .unused → p.state = .unused) :
    Blamed hist' q p' := by
  refine ⟨hb ▸ Nat.le_trans h.born_le hh.length_le, fun hk' => ?_⟩
  obtain ⟨hu, e, he, hor⟩ := h.cause (hk ▸ hk')
  obtain ⟨es, rfl⟩ := hh
  refine ⟨fun hx => hu (hs hx), e, ?_, hp ▸ hor⟩
  rw [hb, drop_append_of_le_length h.born_le]
  exact mem_append_left _ he

theorem clean (hb : p'.born ≤ hist'.length) (hk : p'.killed = false) : Blamed hist' q p' :=
  ⟨hb, fun hx => by rw [hk] at hx; cases hx⟩

theorem mark (h : Blamed hist q p) {e : Event} (hb : p'.born = p.born) (hs : p'.state ≠ .unused)
    (he : e = .kill p'.pid ∨ e = .trap q) : Blamed (hist ++ [e]) q p' := by
  have hle := h.born_le
  refine ⟨by rw [hb, length_append]; omega, fun _ => ⟨hs, e, ?_, he⟩⟩
  rw [hb, drop_append_of_le_length hle]
  simp

end Blamed

variable {C : Type}

/-- The slot that `kill` finds is in use; the embryo that `fork` gives up has not been killed. -/
def Spares (s : Sys C) : Label C → Bool
  | .kill pid => (first fun i => (s.procs i).pid = pid).all fun i => (s.procs i).state ≠ .unused
  | .forkFail c => (s.user c).all fun p =>
    match (s.procs p).task with
    | .fork np _ => !(s.procs np).killed
    | .none => true
  | _ => true

namespace Sys

/-- Every slot of the table. -/
def Blames (s : Sys C) : Prop := ∀ q, Blamed s.hist q (s.procs q)

variable {s s' : Sys C} {c : C} {p q : ℕ}

theorem Blames.clean (h : s.Blames) (hu : (s.procs q).state = .unused) :
    (s.procs q).killed = false :=
  Bool.eq_false_iff.2 fun hk => ((h q).cause hk).1 hu

theorem Blames.one (h : s.Blames) {v : Proc} (hprocs : s'.procs = upd s.procs p v)
    (hh : s.hist <+: s'.hist) (hv : Blamed s'.hist p v) : s'.Blames := by
  intro q
  rw [hprocs]
  exact upd_forall (F := fun q p => Blamed s'.hist q p) hv
    (fun j _ => (h j).keep hh rfl rfl rfl id) q

theorem Blames.own (h : s.Blames) {v : Proc} (hprocs : s'.procs = upd s.procs p v)
    (hh : s.hist <+: s'.hist) (hk : v.killed = (s.procs p).killed) (hp : v.pid = (s.procs p).pid)
    (hb : v.born = (s.procs p).born) (hs : v.state = .unused → (s.procs p).state = .unused) :
    s'.Blames :=
  h.one hprocs hh ((h p).keep hh hk hp hb hs)

/-- A step of `fork` in process `p`, with the slot `np`. -/
theorem Blames.forkStep (h : s.Blames) {np : ℕ} {v : Proc} {t : Task}
    (hprocs : s'.procs = upd (upd s.procs np v) p { upd s.procs np v p with task := t })
    (hh : s.hist <+: s'.hist) (hv : Blamed s'.hist np v) : s'.Blames := by
  have h1 : ∀ q, Blamed s'.hist q (upd s.procs np v q) :=
    upd_forall (F := fun q p => Blamed s'.hist q p) hv fun j _ => (h j).keep hh rfl rfl rfl id
  intro q
  rw [hprocs]
  refine upd_forall (F := fun q p => Blamed s'.hist q p) ?_ (fun j _ => h1 j) q
  exact (h1 p).keep prefix_rfl rfl rfl rfl id

theorem Blames.exit (h : s.Blames) (he : Exits p s.initproc s.procs s'.procs)
    (hh : s.hist <+: s'.hist) : s'.Blames := by
  intro q
  by_cases hq : q = p
  · subst hq
    rw [he.self]
    exact (h q).keep hh rfl rfl rfl nofun
  · have hw := he.wakes q hq
    exact (h q).keep hh hw.killed hw.pid hw.born (hw.state_iff (by simp) (by simp)).1

theorem Blames.kill (h : s.Blames) {pid : ℤ} (hc : Spares s (.kill pid))
    (hprocs : s'.procs = (Ptable.kill s.procs pid).2) (hh : s'.hist = s.hist ++ [.kill pid]) :
    s'.Blames := by
  have hle : s.hist <+: s'.hist := ⟨_, hh.symm⟩
  obtain ⟨-, ht, -⟩ | ⟨i, hi, hp, -, ht⟩ := kill_spec s.procs pid
  · intro q
    rw [hprocs, ht]
    exact (h q).keep hle rfl rfl rfl id
  have hu : (s.procs i).state ≠ .unused := by simpa [Spares, hi] using hc
  refine h.one (hprocs.trans ht) hle ?_
  rw [hh]
  refine (h i).mark rfl ?_ (.inl (by rw [hp]))
  by_cases hs : (s.procs i).state = .sleeping
  · simp [hs]
  · simpa [hs] using hu

/-- `kill` does what it should exactly if it finds a slot that is in use. -/
theorem Blames.killsLive_iff (h : s.Blames) (pid : ℤ) :
    KillsLive s.procs pid ↔ Spares s (.kill pid) := by
  obtain ⟨hr, ht, hp⟩ | ⟨i, hi, hp, hr, ht⟩ := kill_spec s.procs pid
  · have hn : first (fun i => (s.procs i).pid = pid) = none := by
      by_contra hne
      obtain ⟨i, hi⟩ := Option.ne_none_iff_exists'.1 hne
      exact hp i (first_some hi).1 (of_decide_eq_true (first_some hi).2)
    simp only [Spares, hn, Option.all_none, iff_true]
    exact .inr ⟨hr, ht, fun i hlt _ => hp i hlt⟩
  have hiff : Spares s (.kill pid) = true ↔ (s.procs i).state ≠ .unused := by simp [Spares, hi]
  rw [hiff]
  constructor
  · rintro (⟨-, j, -, hu, -, hj⟩ | ⟨hr', -⟩) hui
    · -- the mark of the unused slot is new
      have hij : i ≠ j := fun he => hu (he ▸ hui)
      have hk := congrArg Proc.killed (hj i hij)
      rw [ht, h.clean hui] at hk
      simp at hk
    · rw [hr] at hr'; cases hr'
  · intro hu
    refine .inl ⟨hr, i, (first_some hi).1, hu, hp, fun j hj => ?_⟩
    rw [ht, upd_eq_update, Function.update_of_ne hj]

variable [DecidableEq C]

theorem Blames.step {l : Label C} (h : s.Blames) (hok : s.Ok) (hs : s.Steps l s')
    (hc : Spares s l) : s'.Blames := by
  cases hs with
  | acquire | release | skip | back | forkFull => exact h
  | pick hc hi hr | yield hp hl | sleep hp hl | waitSleep hp hk hz =>
    exact h.own rfl prefix_rfl rfl rfl rfl nofun
  | resume hp hk | resumeWait hp hk | swtch hp hk | wait hp hl | giveUp hp hk =>
    exact h.own rfl prefix_rfl rfl rfl rfl id
  | exit hp ht hi hl => exact h.exit (exitTable_spec hi.symm s.procs) ⟨_, rfl⟩
  | @reap c p q hp hk hq hpar hz =>
    have hle : s.hist <+: s.hist ++ [.reap (s.procs q).pid (s.procs p).pid] := ⟨_, rfl⟩
    have h1 : Sys.Blames { s with
        procs := upd s.procs q (reaped (s.procs q))
        hist := s.hist ++ [.reap (s.procs q).pid (s.procs p).pid] } :=
      h.one rfl hle (.clean (Nat.le_trans (h q).born_le hle.length_le) rfl)
    exact h1.own rfl prefix_rfl rfl rfl rfl id
  | fork hp ht hl hb hu =>
    exact h.forkStep rfl prefix_rfl (.clean (Nat.le_refl _) (h.clean hu))
  | @forkFail c p np hp ht =>
    have hk : (s.procs np).killed = false := by
      simpa [Spares, user_eq.2 hp, ht] using hc
    exact h.forkStep rfl prefix_rfl (.clean (h np).born_le hk)
  | @forkLink c p np hp ht =>
    exact h.forkStep rfl prefix_rfl ((h np).keep prefix_rfl rfl rfl rfl id)
  | @forkDone c p np hp ht hl =>
    exact h.forkStep rfl ⟨_, rfl⟩ ((h np).keep ⟨_, rfl⟩ rfl rfl rfl nofun)
  | kill hl => exact h.kill hc rfl rfl
  | @wakeup ch hl =>
    intro q
    have hw := (wakeup1_spec s.procs (some ch) q).1
    exact (h q).keep prefix_rfl hw.killed hw.pid hw.born (hw.state_iff (by simp) (by simp)).1
  | @trap c p hp =>
    have hr := hok.state_of_runs hp
    exact h.one rfl ⟨_, rfl⟩ ((h p).mark rfl (by simp [hr]) (.inr rfl))

omit [DecidableEq C] in
theorem blames_init : (init : Sys C).Blames := fun q =>
  .clean (by by_cases hq : q = 0 <;> simp [hq, init, setProc, blank])
    (by by_cases hq : q = 0 <;> simp [hq, init, setProc, blank])

end Sys

variable [DecidableEq C] {s : Sys C}

/-- **Kill targets only live processes.**  In every state reached by steps that meet `Spares`:
`kill(pid)` does what it should for exactly the pids whose call meets it; an unused slot is not
marked; and a process that is marked was killed by its pid, or ran into a trap, after its slot was
allocated, so that a new process starts without the mark. -/
theorem kill_targets_live {ls : List (Label C)}
    (h : ((sys C).restrict fun s l => Spares s l).Run .init ls s) :
    (∀ pid, KillsLive s.procs pid ↔ Spares s (.kill pid)) ∧
    (∀ q, (s.procs q).state = .unused → (s.procs q).killed = false) ∧
    ∀ q, (s.procs q).killed = true →
      ∃ e ∈ s.hist.drop (s.procs q).born, e = .kill (s.procs q).pid ∨ e = .trap q := by
  have hi : s.Ok ∧ s.Blames := h.invariant (I := fun s => s.Ok ∧ s.Blames)
    ⟨Sys.ok_init, Sys.blames_init⟩ fun s₁ l s₂ hi hst =>
      ⟨hi.1.step (Sys.step_inv hst.1), hi.2.step hi.1 (Sys.step_inv hst.1) hst.2⟩
  exact ⟨hi.2.killsLive_iff, fun q => hi.2.clean, fun q hk => ((hi.2 q).cause hk).2⟩

/-- One CPU: init forks a child and kills it. -/
def killRun : List (Label Unit) :=
  [.sched (), .sched (), .resume (), .fork (), .forkLink (), .forkDone (), .kill 2]

theorem kill_targets_live_killRun :
    ∃ s, ((sys Unit).restrict fun s l => Spares s l).Run .init killRun s ∧
      (s.procs 1).killed = true ∧ (s.procs 1).state = .runnable ∧ KillsLive s.procs 3 := by
  obtain ⟨s, hs, hd⟩ := Option.map_eq_some_iff.1 (show
    (LTS.exec (fun s l => if Spares s l then Sys.step s l else none) Sys.init killRun).map
      (fun s => ((s.procs 1).killed, (s.procs 1).state, Spares s (.kill 3))) =
        some (true, .runnable, true) by decide +kernel)
  simp only [Prod.mk.injEq] at hd
  have hrun := LTS.run_restrict_of_exec hs
  exact ⟨s, hrun, hd.1, hd.2.1, ((kill_targets_live hrun).1 3).2 hd.2.2⟩

/-- **A child that is born killed.**  Init calls `kill(0)`, which returns 0 and marks an unused slot
although no process has that pid; the child that it forks then is marked although nobody has called
`kill` with its pid. -/
theorem born_killed : ∃ s s', (sys Unit).Run .init (killRun.take 3) s ∧
    (∀ q < nproc, (s.procs q).state ≠ .unused → (s.procs q).pid ≠ 0) ∧ (kill s.procs 0).1 = 0 ∧
    (sys Unit).Run s [.kill 0, .fork (), .forkLink (), .forkDone ()] s' ∧
    (s'.procs 1).state = .runnable ∧ (s'.procs 1).pid = 2 ∧ (s'.procs 1).killed = true ∧
    s'.hist = [.kill 0, .fork 2 1] := by
  have hd : ((LTS.exec Sys.step Sys.init (killRun.take 3)).bind fun s =>
      (LTS.exec Sys.step s [.kill 0, .fork (), .forkLink (), .forkDone ()]).map fun s' =>
        ((decide (∀ q < nproc, (s.procs q).state ≠ .unused → (s.procs q).pid ≠ 0),
            (kill s.procs 0).1),
          (s'.procs 1).state, (s'.procs 1).pid, (s'.procs 1).killed, s'.hist)) =
      some ((true, 0), .runnable, 2, true, [.kill 0, .fork 2 1]) := by decide +kernel
  obtain ⟨s, hs, hd⟩ := Option.bind_eq_some_iff.1 hd
  obtain ⟨s', hs', hd⟩ := Option.map_eq_some_iff.1 hd
  simp only [Prod.mk.injEq, decide_eq_true_eq] at hd
  exact ⟨s, s', LTS.run_of_exec hs, hd.1.1, hd.1.2, LTS.run_of_exec hs', hd.2⟩

end Ptable

end Xv6
