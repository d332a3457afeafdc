import Xv6.Ptable.Tree

/-!
# A parent in `wait` learns of its zombies

`exit` wakes its parent before it becomes a `ZOMBIE`, and wakes init if it passes a zombie to it;
`wait` sleeps only after it has found no zombie among its children.  Both happen in one section
under `ptable.lock`, so no process sleeps in `wait` while it has a zombie child
(`Ptable.no_lost_exit`). The statement has no bound on the number of forks, so the proof does not go
through the pids of `Sys.Tree`: what it needs of the tree is that init has no parent and nobody is
its own parent.
-/

namespace Xv6

namespace Ptable

namespace Sys

variable {C : Type}

/-- The process sleeps in `wait`. -/
def Waiting (s : Sys C) (p : ℕ) : Prop :=
  (s.procs p).state = .sleeping ∧ (s.procs p).chan = some (.proc p)

/-- No process sleeps in `wait` while it has a zombie child. -/
structure Notified (s : Sys C) : Prop where
  bound : ∀ q, nproc ≤ q → (s.procs q).state = .unused ∧ (s.procs q).parent = none
  root : (s.procs s.initproc).state.alive ∧ (s.procs s.initproc).parent = none
  proper : ∀ q, (s.procs q).parent ≠ some q
  child : ∀ p q, s.Waiting p → (s.procs q).parent = some p → (s.procs q).state ≠ .zombie

variable {s s' : Sys C} {c : C} {p q : ℕ}

namespace Notified

theorem lt_of_state (h : s.Notified) (hq : (s.procs q).state ≠ .unused) : q < nproc := by
  by_contra hge
  exact hq (h.bound q (Nat.not_lt.1 hge)).1

/-- A step that the relatives of a process do not notice, by which nobody falls asleep in `wait`. -/
theorem same (h : s.Notified) (hs : ∀ q, Same (s.procs q) (s'.procs q))
    (hi : s'.initproc = s.initproc) (hw : ∀ p, s'.Waiting p → s.Waiting p) : s'.Notified where
  bound := fun q hq => by rw [(hs q).unused, (hs q).parent]; exact h.bound q hq
  root := by rw [hi, (hs _).alive, (hs _).parent]; exact h.root
  proper := fun q => by rw [(hs q).parent]; exact h.proper q
  child := fun p q hp hq hz => h.child p q (hw p hp) ((hs q).parent ▸ hq) ((hs q).zombie.1 hz)

/-- A step by which one process changes and does not fall asleep in `wait`. -/
theorem own (h : s.Notified) {v : Proc} (hprocs : s'.procs = upd s.procs p v)
    (hv : Same (s.procs p) v) (hi : s'.initproc = s.initproc)
    (hw : v.state = .sleeping → v.chan = some (.proc p) → s.Waiting p) : s'.Notified := by
  refine h.same (fun q => hprocs ▸ same_upd hv q) hi fun q hq => ?_
  unfold Waiting at hq
  rw [hprocs, upd_eq_update] at hq
  by_cases hqp : q = p
  · subst hqp
    rw [Function.update_self] at hq
    exact hw hq.1 hq.2
  · rwa [Function.update_of_ne hqp] at hq

/-- `wait` goes to sleep after it has looked at all children. -/
theorem waitSleep (h : s.Notified) {v : Proc} (hprocs : s'.procs = upd s.procs p v)
    (hv : Same (s.procs p) v) (hi : s'.initproc = s.initproc)
    (hz : ∀ i < nproc, (s.procs i).parent = some p → (s.procs i).state ≠ .zombie) :
    s'.Notified := by
  have hs : ∀ q, Same (s.procs q) (s'.procs q) := fun q => hprocs ▸ same_upd hv q
  refine ⟨fun q hq => ?_, ?_, fun q => ?_, fun x q hx hq hzq => ?_⟩
  · rw [(hs q).unused, (hs q).parent]; exact h.bound q hq
  · rw [hi, (hs _).alive, (hs _).parent]; exact h.root
  · rw [(hs q).parent]; exact h.proper q
  rw [(hs q).parent] at hq
  rw [(hs q).zombie] at hzq
  by_cases hxp : x = p
  · exact hz q (h.lt_of_state (by simp [hzq])) (hxp ▸ hq) hzq
  · unfold Waiting at hx
    rw [hprocs, upd_eq_update, Function.update_of_ne hxp] at hx
    exact h.child x q hx hq hzq

theorem exit (h : s.Notified) (hr : (s.procs p).state = .running) (hi : p ≠ s.initproc)
    (hi' : s'.initproc = s.initproc) (he : Exits p s.initproc s.procs s'.procs) : s'.Notified := by
  have hp : p < nproc := h.lt_of_state (by simp [hr])
  refine ⟨fun q hq => ?_, ?_, fun q hq => ?_, fun x q hx hq hz => ?_⟩
  · obtain ⟨hu, hn⟩ := h.bound q hq
    refine ⟨((he.wakes q (by omega)).state_iff (by simp) (by simp)).2 hu, ?_⟩
    rw [he.parent, hn]
    simp
  · obtain ⟨ha, hn⟩ := h.root
    refine ⟨by rw [hi']; exact (calm_of_wakes (he.wakes _ hi.symm)).alive ha, ?_⟩
    rw [hi', he.parent, hn]
    simp
  · rw [he.parent] at hq
    split_ifs at hq with hc
    · rw [← Option.some.inj hq, h.root.2] at hc
      cases hc.2
    · exact h.proper q hq
  have hxp : x ≠ p := fun hxp => by
    rw [hxp] at hx
    unfold Waiting at hx
    rw [he.self] at hx
    cases hx.1
  rw [he.parent] at hq
  split_ifs at hq with hc
  · -- the zombie has just been passed to init; it is not the process that exits
    have hqp : q ≠ p := fun hqp => h.proper p (hqp ▸ hc.2)
    refine he.init_awake q hc.1 hc.2 (((he.wakes q hqp).state_iff (by simp) (by simp)).1 hz) x
      hx.1 ?_
    rw [hx.2, Option.some.inj hq]
  · by_cases hqp : q = p
    · exact he.parent_awake x (hqp ▸ hq) x hx.1 hx.2
    · have hx' : s.Waiting x := ⟨(he.wakes x hxp).sleeping hx.1, (he.wakes x hxp).chan ▸ hx.2⟩
      exact h.child x q hx' hq (((he.wakes q hqp).state_iff (by simp) (by simp)).1 hz)

theorem reap (h : s.Notified) (hs : ∀ x, x ≠ q → Same (s.procs x) (s'.procs x))
    (hq : s'.procs q = reaped (s.procs q)) (hz : (s.procs q).state = .zombie)
    (hi : s'.initproc = s.initproc) (hw : ∀ p, p ≠ q → s'.Waiting p → s.Waiting p) :
    s'.Notified := by
  have hqi : s.initproc ≠ q := fun he => by
    have := h.root.1
    rw [he, hz] at this
    cases this
  have hlt := h.lt_of_state (q := q) (by simp [hz])
  have hpar : (s'.procs q).parent = none := by rw [hq]; rfl
  have hu : (s'.procs q).state = .unused := by rw [hq]; rfl
  refine ⟨fun x hx => ?_, ?_, fun x hx => ?_, fun x y hx hy hzy => ?_⟩
  · have hxq : x ≠ q := by omega
    rw [(hs x hxq).unused, (hs x hxq).parent]
    exact h.bound x hx
  · rw [hi, (hs _ hqi).alive, (hs _ hqi).parent]
    exact h.root
  · by_cases hxq : x = q
    · rw [hxq, hpar] at hx; cases hx
    · rw [(hs x hxq).parent] at hx; exact h.proper x hx
  · have hxq : x ≠ q := fun he => by rw [he] at hx; unfold Waiting at hx; rw [hu] at hx; cases hx.1
    have hyq : y ≠ q := fun he => by rw [he, hu] at hzy; cases hzy
    exact h.child x y (hw x hxq hx) ((hs y hyq).parent ▸ hy) ((hs y hyq).zombie.1 hzy)

theorem forkStep (h : s.Notified) {np : ℕ} {v : Proc} {t : Task} (hs : ForkStep s s' p np t v)
    (hb : np < nproc) (hpar : v.parent = (s.procs np).parent ∨ v.parent = some p)
    (hv : v.state ≠ .sleeping) (hz : v.state ≠ .zombie) : s'.Notified := by
  have hi := hs.ne_of_alive h.root.1
  refine ⟨fun x hx => ?_, ?_, fun x hx => ?_, fun x y hx hy hzy => ?_⟩
  · rw [hs.state (by omega), hs.parent (by omega)]; exact h.bound x hx
  · rw [hs.init, hs.state hi, hs.parent hi]; exact h.root
  · by_cases hxn : x = np
    · subst hxn
      rw [hs.slot] at hx
      rcases hpar with hp | hp
      · exact h.proper x (hp ▸ hx)
      · exact hs.ne (Option.some.inj (hp.symm.trans hx))
    · rw [hs.parent hxn] at hx; exact h.proper x hx
  · have hxn : x ≠ np := fun he => by
      rw [he] at hx; unfold Waiting at hx; rw [hs.slot] at hx; exact hv hx.1
    have hyn : y ≠ np := fun he => by rw [he, hs.slot] at hzy; exact hz hzy
    have hx' : s.Waiting x := by
      unfold Waiting at hx
      rwa [hs.other x hxn] at hx
    exact h.child x y hx' (hs.parent hyn ▸ hy) (hs.state hyn ▸ hzy)

theorem embryo_lt (h : s.Notified) (hok : s.Ok) {np : ℕ} {l : Bool}
    (ht : (s.procs p).task = .fork np l) : np < nproc :=
  h.lt_of_state (by simp [hok.forks.embryo p np l ht])

variable [DecidableEq C]

theorem step {l : Label C} (h : s.Notified) (hok : s.Ok) (hs : s.Steps l s') : s'.Notified := by
  have hruns : ∀ {c p}, s.Runs c p → (s.procs p).state.alive := fun hp => by
    rw [hok.state_of_runs hp]; rfl
  cases hs with
  | acquire | release | skip | back =>
    exact h.same (fun _ => .of_state rfl rfl rfl rfl) rfl fun _ => id
  | pick hc hi hr => exact h.own rfl (.of_alive (by rw [hr]; rfl) rfl rfl rfl rfl) rfl (by simp)
  | resume hp hk =>
    have hr := hok.running_of_pc hp (by simp [hk])
    exact h.own rfl (.of_state rfl rfl rfl rfl) rfl fun hs => by simp [hr] at hs
  | resumeWait hp hk =>
    exact h.own rfl (.of_state rfl rfl rfl rfl) rfl fun _ => (by simp)
  | swtch hp hk | wait hp hl | giveUp hp hk | trap hp =>
    exact h.own rfl (.of_state rfl rfl rfl rfl) rfl fun hs hc => ⟨hs, hc⟩
  | yield hp hl => exact h.own rfl (.of_alive (hruns hp) rfl rfl rfl rfl) rfl (by simp)
  | sleep hp hl => exact h.own rfl (.of_alive (hruns hp) rfl rfl rfl rfl) rfl fun _ => (by simp)
  | exit hp ht hi hl =>
    exact h.exit (hok.state_of_runs hp) hi rfl (exitTable_spec hi.symm s.procs)
  | @reap c p q hp hk hq hpar hz =>
    have hr := hok.running_of_pc hp (by simp [hk])
    have hpq : p ≠ q := fun he => by rw [he, hz] at hr; cases hr
    have hx : ∀ x, x ≠ q → upd (upd s.procs q (reaped (s.procs q))) p
        { upd s.procs q (reaped (s.procs q)) p with pc := .run } x =
        { s.procs x with pc := if x = p then .run else (s.procs x).pc } := fun x hx => by
      by_cases hxp : x = p
      · subst hxp; simp [hpq]
      · simp [hxp, hx]
    refine h.reap (q := q) (fun x hxq => ?_) (by simp [hpq.symm]) hz rfl fun x hxq hw => ?_
    · simp only [hx x hxq]; exact .of_state rfl rfl rfl rfl
    · unfold Waiting at hw
      simp only [hx x hxq] at hw
      exact hw
  | waitSleep hp hk hz =>
    have hr := hok.running_of_pc hp (by simp [hk])
    exact h.waitSleep rfl (.of_alive (by rw [hr]; rfl) rfl rfl rfl rfl) rfl hz
  | fork hp ht hl hb hu =>
    exact h.forkStep (.of_upd (hok.state_of_runs hp) (.inl hu) rfl rfl) hb (.inl rfl)
      (by simp [embryo]) (by simp [embryo])
  | forkFull => exact h
  | forkFail hp ht | forkDone hp ht hl =>
    exact h.forkStep (hok.forkStep_embryo hp ht rfl rfl) (h.embryo_lt hok ht) (.inl rfl)
      (by simp) (by simp)
  | forkLink hp ht =>
    have he := hok.forks.embryo _ _ _ ht
    exact h.forkStep (hok.forkStep_embryo hp ht rfl rfl) (h.embryo_lt hok ht) (.inr rfl)
      (by simp [he]) (by simp [he])
  | @kill pid hl =>
    obtain ⟨-, ht, -⟩ | ⟨i, -, -, -, ht⟩ := kill_spec s.procs pid
    · simp only [ht]
      exact h.same (fun _ => .of_state rfl rfl rfl rfl) rfl fun _ => id
    refine h.own ht (.killed (s.procs i)) rfl fun hs => ?_
    by_cases hi : (s.procs i).state = .sleeping
    · simp [hi] at hs
    · simp [hi] at hs
  | @wakeup ch hl =>
    refine h.same (fun q => .of_wakes (wakeup1_spec s.procs _ q).1 (wakeup1_spec s.procs _ q).2.1)
      rfl fun q hq => ?_
    have hw := (wakeup1_spec s.procs (some ch) q).1
    exact ⟨hw.sleeping hq.1, hw.chan ▸ hq.2⟩

end Notified

theorem notified_init : (init : Sys C).Notified := by
  have hne : ∀ q, q ≠ 0 → (init : Sys C).procs q = (blank : Sys C).procs q := fun q hq => by
    simp [init, setProc, hq]
  have hpar : ∀ q, ((init : Sys C).procs q).parent = none := fun q => by
    by_cases hq : q = 0
    · simp [hq, init, setProc, blank]
    · rw [hne q hq]; rfl
  refine ⟨fun q hq => ⟨?_, hpar q⟩, ⟨?_, hpar _⟩, fun q => by simp [hpar], fun p q _ hq => ?_⟩
  · rw [hne q (by simp only [nproc] at hq; omega)]; rfl
  · simp [init, setProc, blank, ProcState.alive]
  · rw [hpar] at hq; cases hq

end Sys

variable {C : Type} [DecidableEq C] {s : Sys C}

/-- **No lost exit notification.**  After every run no process that sleeps in `wait` has a zombie
child; this holds whether or not `ptable.lock` is free. -/
theorem no_lost_exit {ls : List (Label C)} (h : (sys C).Run .init ls s) {p q : ℕ}
    (hs : (s.procs p).state = .sleeping) (hc : (s.procs p).chan = some (.proc p))
    (hq : (s.procs q).parent = some p) : (s.procs q).state ≠ .zombie := by
  have hi : s.Ok ∧ s.Notified := h.invariant (I := fun s => s.Ok ∧ s.Notified)
    ⟨Sys.ok_init, Sys.notified_init⟩ fun s₁ l s₂ hi hst =>
      ⟨hi.1.step (Sys.step_inv hst), hi.2.step hi.1 (Sys.step_inv hst)⟩
  exact hi.2.child p q ⟨hs, hc⟩ hq

/-- One CPU: init forks a child and sleeps in `wait`, and the child runs. -/
def waitRun : List (Label Unit) :=
  [.sched (), .sched (), .resume (), .fork (), .forkLink (), .forkDone (), .wait (), .look (),
    .swtch (), .sched (), .sched (), .resume ()]

theorem no_lost_exit_waitRun : ∃ s, (sys Unit).Run .init waitRun s ∧ s.lock = none ∧
    (s.procs 0).state = .sleeping ∧ (s.procs 0).chan = some (.proc 0) ∧
    (s.procs 1).parent = some 0 ∧ (s.procs 1).state ≠ .zombie := by
  obtain ⟨s, hs, hd⟩ := Option.map_eq_some_iff.1 (show
    (LTS.exec Sys.step Sys.init waitRun).map (fun s =>
      (s.lock, (s.procs 0).state, (s.procs 0).chan, (s.procs 1).parent)) =
      some (none, .sleeping, some (.proc 0), some 0) by decide +kernel)
  simp only [Prod.mk.injEq] at hd
  obtain ⟨hl, hst, hc, hp⟩ := hd
  have hrun := LTS.run_of_exec hs
  exact ⟨s, hrun, hl, hst, hc, hp, no_lost_exit hrun hst hc hp⟩

end Ptable

end Xv6
