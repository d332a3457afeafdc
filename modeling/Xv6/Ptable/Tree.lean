import Mathlib.Data.List.Induction
import Mathlib.Data.List.Nodup
import Mathlib.Logic.Relation
import Xv6.Ptable.Schedule

/-!
# The process tree

Processes form a tree with init at its root: a process has a parent that is alive, and parents have
smaller pids.  `exit` passes children to init, `wait` returns a zombie to its parent and frees its
slot.

* `Sys.Tree` : the invariant of the table.
* `Sys.Past` : what the history says about the processes in the table and about those that have been
  returned by `wait`.
* `Ptable.process_tree` : **the process tree and reaping.**
-/

namespace Xv6

open List

namespace Ptable

/-- The entry of a process changed in a way that its relatives do not notice. -/
structure Same (p p' : Proc) : Prop where
  parent : p'.parent = p.parent
  pid : p'.pid = p.pid
  task : p'.task = p.task
  unused : p'.state = .unused ↔ p.state = .unused
  embryo : p'.state = .embryo ↔ p.state = .embryo
  zombie : p'.state = .zombie ↔ p.state = .zombie

theorem ProcState.alive_iff (x : ProcState) :
    x.alive = true ↔ x ≠ .unused ∧ x ≠ .embryo ∧ x ≠ .zombie := by
  cases x <;> simp [alive]

theorem Same.alive {p p' : Proc} (h : Same p p') : p'.state.alive ↔ p.state.alive := by
  simp only [ProcState.alive_iff, ne_eq, h.unused, h.embryo, h.zombie]

theorem Same.of_state {p p' : Proc} (hs : p'.state = p.state) (hp : p'.parent = p.parent)
    (hpid : p'.pid = p.pid) (ht : p'.task = p.task) : Same p p' :=
  ⟨hp, hpid, ht, by rw [hs], by rw [hs], by rw [hs]⟩

theorem Same.of_alive {p p' : Proc} (hs : p.state.alive) (hs' : p'.state.alive)
    (hp : p'.parent = p.parent) (hpid : p'.pid = p.pid) (ht : p'.task = p.task) : Same p p' := by
  rw [ProcState.alive_iff] at hs hs'
  exact ⟨hp, hpid, ht, by simp [hs.1, hs'.1], by simp [hs.2.1, hs'.2.1], by simp [hs.2.2, hs'.2.2]⟩

theorem Same.of_wakes {p p' : Proc} (h : Wakes p p') (hp : p'.parent = p.parent) : Same p p' :=
  ⟨hp, h.pid, h.task, h.state_iff (by simp) (by simp), h.state_iff (by simp) (by simp),
    h.state_iff (by simp) (by simp)⟩

theorem same_upd {t : ℕ → Proc} {p : ℕ} {v : Proc} (hv : Same (t p) v) (q : ℕ) :
    Same (t q) (upd t p v q) :=
  upd_forall (F := fun q p => Same (t q) p) hv (fun _ _ => .of_state rfl rfl rfl rfl) q

theorem Same.killed (p : Proc) : Same p { p with
    killed := true, state := if p.state = .sleeping then .runnable else p.state } := by
  by_cases hs : p.state = .sleeping
  · exact .of_alive (by rw [hs]; rfl) (by simp [hs, ProcState.alive]) rfl rfl rfl
  · exact .of_state (by simp [hs]) rfl rfl rfl

theorem same_kill (t : ℕ → Proc) (pid : ℤ) (q : ℕ) : Same (t q) ((kill t pid).2 q) := by
  obtain ⟨-, ht, -⟩ | ⟨i, -, -, -, ht⟩ := kill_spec t pid
  · rw [ht]; exact .of_state rfl rfl rfl rfl
  · rw [ht]; exact same_upd (.killed (t i)) q

/-- The pids that `wait` has returned. -/
def reaps (hist : List Event) : List ℤ :=
  hist.filterMap fun
    | .reap child _ => some child
    | _ => none

/-- A process that `wait` returns has exited, and it is returned to its creator, or to the process
with pid 1 if the creator has exited. -/
def Returned (hist : List Event) : Prop :=
  ∀ h1 h2 child parent, hist = h1 ++ .reap child parent :: h2 →
    .exit child ∈ h1 ∧ ∃ creator, .fork child creator ∈ h1 ∧
      (parent = creator ∨ parent = 1 ∧ .exit creator ∈ h1)

theorem Returned.snoc {hist : List Event} (h : Returned hist) {e : Event}
    (he : ∀ child parent, e = .reap child parent → .exit child ∈ hist ∧
      ∃ creator, .fork child creator ∈ hist ∧
      (parent = creator ∨ parent = 1 ∧ .exit creator ∈ hist)) :
    Returned (hist ++ [e]) := by
  intro h1 h2 child parent heq
  rcases eq_nil_or_concat h2 with rfl | ⟨h2', e', rfl⟩
  · obtain ⟨rfl, he'⟩ := append_inj' heq rfl
    exact he child parent (by simpa using he')
  · rw [concat_eq_append, ← cons_append, ← append_assoc] at heq
    exact h h1 h2' child parent (append_inj' heq rfl).1

@[simp] theorem reaps_append (h1 h2 : List Event) : reaps (h1 ++ h2) = reaps h1 ++ reaps h2 :=
  filterMap_append

theorem Returned.append {hist es : List Event} (h : Returned hist) (hes : reaps es = []) :
    Returned (hist ++ es) := by
  induction es using List.reverseRecOn with
  | nil => simpa using h
  | append_singleton es e ih =>
    obtain ⟨h1, h2⟩ := append_eq_nil_iff.1 ((reaps_append es [e]).symm.trans hes)
    rw [← append_assoc]
    exact (ih h1).snoc fun child parent he => by subst he; cases h2

namespace Sys

variable {C : Type}

/-- The invariant of the table, after `a` slots have been allocated. -/
structure Tree (a : ℕ) (s : Sys C) : Prop where
  bound : ∀ q, nproc ≤ q → (s.procs q).state = .unused
  unused : ∀ q, (s.procs q).state = .unused → (s.procs q).parent = none
  init : (s.procs s.initproc).state.alive ∧ (s.procs s.initproc).parent = none ∧
    (s.procs s.initproc).pid = 1
  linked : ∀ p np l, (s.procs p).task = .fork np l →
    (s.procs np).parent = if l then some p else none
  owner : ∀ p np l, (s.procs p).task = .fork np l → (s.procs p).pid < (s.procs np).pid
  parent : ∀ q, (s.procs q).state ≠ .unused → (s.procs q).state ≠ .embryo → q ≠ s.initproc →
    ∃ p, (s.procs q).parent = some p ∧ (s.procs p).state.alive ∧ (s.procs p).pid < (s.procs q).pid
  pid_lt : ∀ q, (s.procs q).state ≠ .unused → 1 ≤ (s.procs q).pid ∧ (s.procs q).pid < 2 + a
  pid_inj : ∀ q q', (s.procs q).state ≠ .unused → (s.procs q').state ≠ .unused →
    (s.procs q).pid = (s.procs q').pid → q = q'
  nextpid : a < 2 ^ 31 - 2 → s.nextpid = 2 + a

/-- What the history says about the processes. -/
structure Past (a : ℕ) (s : Sys C) : Prop where
  forked : ∀ q p, (s.procs q).state ≠ .unused → (s.procs q).state ≠ .embryo →
    (s.procs q).parent = some p → ∃ r, .fork (s.procs q).pid r ∈ s.hist ∧
      (r = (s.procs p).pid ∨ p = s.initproc ∧ .exit r ∈ s.hist)
  exited : ∀ q, (s.procs q).state = .zombie → .exit (s.procs q).pid ∈ s.hist
  gone : ∀ x ∈ reaps s.hist, x < 2 + a ∧ ∀ q, (s.procs q).state ≠ .unused → (s.procs q).pid ≠ x
  once : (reaps s.hist).Nodup
  returned : Returned s.hist

variable {a : ℕ} {s s' : Sys C} {c : C} {p q : ℕ}

/-- A step that the relatives of a process do not notice. -/
theorem Tree.same (h : s.Tree a) (hs : ∀ q, Same (s.procs q) (s'.procs q))
    (hi : s'.initproc = s.initproc) (hn : s'.nextpid = s.nextpid) : s'.Tree a where
  bound := fun q hq => (hs q).unused.2 (h.bound q hq)
  unused := fun q hq => by rw [(hs q).parent]; exact h.unused q ((hs q).unused.1 hq)
  init := by
    rw [hi, (hs _).alive, (hs _).parent, (hs _).pid]
    exact h.init
  linked := fun p np l ht => by
    rw [(hs np).parent]
    exact h.linked p np l ((hs p).task ▸ ht)
  owner := fun p np l ht => by
    rw [(hs p).pid, (hs np).pid]
    exact h.owner p np l ((hs p).task ▸ ht)
  parent := fun q hu he hq => by
    obtain ⟨p, hp, ha, hlt⟩ := h.parent q (mt (hs q).unused.2 hu)
      (fun hx => he ((hs q).embryo.2 hx)) (hi ▸ hq)
    exact ⟨p, (hs q).parent.trans hp, (hs p).alive.2 ha, by rwa [(hs p).pid, (hs q).pid]⟩
  pid_lt := fun q hu => by
    rw [(hs q).pid]
    exact h.pid_lt q (mt (hs q).unused.2 hu)
  pid_inj := fun q q' hu hu' he => h.pid_inj q q' (mt (hs q).unused.2 hu)
    (mt (hs q').unused.2 hu') (by rwa [← (hs q).pid, ← (hs q').pid])
  nextpid := by rw [hn]; exact h.nextpid

theorem Past.extend (h : s.Past a) {es : List Event} (hh : s'.hist = s.hist ++ es)
    (hes : reaps es = []) {a' : ℕ} (ha : a ≤ a')
    (hf : ∀ q p, (s'.procs q).state ≠ .unused → (s'.procs q).state ≠ .embryo →
      (s'.procs q).parent = some p → ∃ r, .fork (s'.procs q).pid r ∈ s'.hist ∧
        (r = (s'.procs p).pid ∨ p = s'.initproc ∧ .exit r ∈ s'.hist))
    (he : ∀ q, (s'.procs q).state = .zombie → .exit (s'.procs q).pid ∈ s'.hist)
    (hg : ∀ q, (s'.procs q).state ≠ .unused →
      2 + a ≤ (s'.procs q).pid ∨ (s.procs q).state ≠ .unused ∧ (s'.procs q).pid = (s.procs q).pid) :
    s'.Past a' where
  forked := hf
  exited := he
  gone := fun x hx => by
    rw [hh, reaps_append, hes, append_nil] at hx
    obtain ⟨hlt, hne⟩ := h.gone x hx
    refine ⟨by omega, fun q hq => ?_⟩
    rcases hg q hq with hle | ⟨hu, hpid⟩
    · omega
    · exact hpid ▸ hne q hu
  once := by rw [hh, reaps_append, hes, append_nil]; exact h.once
  returned := hh ▸ h.returned.append hes

theorem Past.same (h : s.Past a) (hs : ∀ q, Same (s.procs q) (s'.procs q))
    (hi : s'.initproc = s.initproc) {es : List Event} (hh : s'.hist = s.hist ++ es)
    (hes : reaps es = []) : s'.Past a := by
  refine h.extend hh hes (Nat.le_refl a) (fun q p hu he hp => ?_) (fun q hz => ?_) fun q hu =>
    .inr ⟨?_, ?_⟩
  · obtain ⟨r, hr, hor⟩ := h.forked q p (mt (hs q).unused.2 hu)
      (fun hx => he ((hs q).embryo.2 hx)) ((hs q).parent ▸ hp)
    rw [(hs q).pid, (hs p).pid, hi, hh]
    exact ⟨r, mem_append_left _ hr, hor.imp_right fun ⟨h1, h2⟩ =>
      ⟨h1, mem_append_left _ h2⟩⟩
  · rw [(hs q).pid, hh]
    exact mem_append_left _ (h.exited q ((hs q).zombie.1 hz))
  · exact mt (hs q).unused.2 hu
  · exact (hs q).pid

theorem Tree.one_lt_pid (h : s.Tree a) (hu : (s.procs q).state ≠ .unused) (hq : q ≠ s.initproc) :
    1 < (s.procs q).pid := by
  have hge := (h.pid_lt q hu).1
  have hne : (s.procs q).pid ≠ 1 := fun he => hq
    (h.pid_inj q _ hu ((ProcState.alive_iff _).1 h.init.1).1 (he.trans h.init.2.2.symm))
  omega

theorem Tree.exit (h : s.Tree a) (he : Exits p s.initproc s.procs s'.procs)
    (hr : (s.procs p).state = .running) (ht : (s.procs p).task = .none) (hi : p ≠ s.initproc)
    (hi' : s'.initproc = s.initproc) (hn : s'.nextpid = s.nextpid) : s'.Tree a := by
  have hpid : ∀ q, (s'.procs q).pid = (s.procs q).pid := fun q => by
    by_cases hq : q = p
    · rw [hq, he.self]
    · exact (he.wakes q hq).pid
  have htask : ∀ q, (s'.procs q).task = (s.procs q).task := fun q => by
    by_cases hq : q = p
    · rw [hq, he.self]
    · exact (he.wakes q hq).task
  have hz : (s'.procs p).state = .zombie := by rw [he.self]
  have hu : ∀ q, (s'.procs q).state = .unused ↔ (s.procs q).state = .unused := fun q => by
    by_cases hq : q = p
    · rw [hq, hz, hr]; simp
    · exact (he.wakes q hq).state_iff (by simp) (by simp)
  have halive : ∀ q, q ≠ p → (s.procs q).state.alive → (s'.procs q).state.alive := fun q hq =>
    (calm_of_wakes (he.wakes q hq)).alive
  have hpar : ∀ q x, (s.procs q).parent = some x → x ≠ p → (s'.procs q).parent = some x :=
    fun q x hx hxp => by rw [he.parent, hx]; simp [hxp]
  have hparn : ∀ q, (s.procs q).parent = none → (s'.procs q).parent = none :=
    fun q hx => by rw [he.parent, hx]; simp
  refine ⟨fun q hq => (hu q).2 (h.bound q hq), fun q hq => hparn q (h.unused q ((hu q).1 hq)), ?_,
    fun x np l hx => ?_, fun x np l hx => ?_, fun q hqu hqe hqi => ?_, fun q hq => ?_,
    fun q q' hq hq' heq => ?_, hn ▸ h.nextpid⟩
  · rw [hi', hpid]
    exact ⟨halive _ hi.symm h.init.1, hparn _ h.init.2.1, h.init.2.2⟩
  · rw [htask] at hx
    have hl := h.linked x np l hx
    cases l with
    | false => exact hparn np hl
    | true => exact hpar np x hl fun hxp => by rw [hxp, ht] at hx; cases hx
  · rw [htask] at hx
    rw [hpid, hpid]
    exact h.owner x np l hx
  · have hqe' : (s.procs q).state ≠ .embryo := fun hx => by
      by_cases hqp : q = p
      · rw [hqp, hr] at hx; cases hx
      · exact hqe (((he.wakes q hqp).state_iff (by simp) (by simp)).2 hx)
    have hqu' : (s.procs q).state ≠ .unused := fun hx => hqu ((hu q).2 hx)
    obtain ⟨x, hx, ha, hlt⟩ := h.parent q hqu' hqe' (hi' ▸ hqi)
    by_cases hxp : x = p
    · -- a child of the process that exits
      have hlt' : q < nproc := by
        by_contra hge
        exact hqu' (h.bound q (Nat.not_lt.1 hge))
      refine ⟨s.initproc, by rw [he.parent]; simp [hlt', hx, hxp], halive _ hi.symm h.init.1, ?_⟩
      rw [hpid, hpid, h.init.2.2]
      exact h.one_lt_pid hqu' (hi' ▸ hqi)
    · exact ⟨x, hpar q x hx hxp, halive x hxp ha, by rwa [hpid, hpid]⟩
  · rw [hpid]; exact h.pid_lt q fun hx => hq ((hu q).2 hx)
  · exact h.pid_inj q q' (fun hx => hq ((hu q).2 hx)) (fun hx => hq' ((hu q').2 hx))
      (by rwa [← hpid, ← hpid])

theorem Past.exit (h : s.Past a) (he : Exits p s.initproc s.procs s'.procs)
    (hr : (s.procs p).state = .running) (hi : p ≠ s.initproc) (hi' : s'.initproc = s.initproc)
    (hh : s'.hist = s.hist ++ [.exit (s.procs p).pid]) : s'.Past a := by
  have hpid : ∀ q, (s'.procs q).pid = (s.procs q).pid := fun q => by
    by_cases hq : q = p
    · rw [hq, he.self]
    · exact (he.wakes q hq).pid
  have hiff : ∀ q x, x ≠ .sleeping → x ≠ .runnable → x ≠ .zombie → x ≠ .running →
      ((s'.procs q).state = x ↔ (s.procs q).state = x) := fun q x h1 h2 h3 h4 => by
    by_cases hq : q = p
    · rw [hq, hr, he.self]; simp [h3.symm, h4.symm]
    · exact (he.wakes q hq).state_iff h1 h2
  have hmem : ∀ e, e ∈ s.hist → e ∈ s'.hist := fun e hm => hh ▸ mem_append_left _ hm
  refine h.extend hh rfl (Nat.le_refl a) (fun q x hu hem hx => ?_) (fun q hz => ?_) fun q hu =>
    .inr ⟨?_, hpid q⟩
  · have hu' := (hiff q .unused (by simp) (by simp) (by simp) (by simp)).not.1 hu
    have hem' := (hiff q .embryo (by simp) (by simp) (by simp) (by simp)).not.1 hem
    rw [he.parent] at hx
    rw [hpid, hpid, hi']
    split_ifs at hx with hc
    · -- passed to init because its parent exits now
      obtain ⟨r, hr', hor⟩ := h.forked q p hu' hem' hc.2
      refine ⟨r, hmem _ hr', .inr ⟨(Option.some.inj hx).symm, ?_⟩⟩
      rcases hor with rfl | ⟨hpi, -⟩
      · rw [hh]; simp
      · exact absurd hpi hi
    · obtain ⟨r, hr', hor⟩ := h.forked q x hu' hem' hx
      exact ⟨r, hmem _ hr', hor.imp_right fun ⟨h1, h2⟩ => ⟨h1, hmem _ h2⟩⟩
  · rw [hpid]
    by_cases hq : q = p
    · rw [hq, hh]; simp
    · exact hmem _ (h.exited q (((he.wakes q hq).state_iff (by simp) (by simp)).1 hz))
  · exact (hiff q .unused (by simp) (by simp) (by simp) (by simp)).not.1 hu

theorem Tree.alive_of_parent (h : s.Tree a) (hu : (s.procs q).state ≠ .unused)
    (he : (s.procs q).state ≠ .embryo) (hp : (s.procs q).parent = some p) :
    (s.procs p).state.alive := by
  by_cases hq : q = s.initproc
  · rw [hq, h.init.2.1] at hp; cases hp
  · obtain ⟨x, hx, ha, -⟩ := h.parent q hu he hq
    rwa [Option.some.inj (hp.symm.trans hx)]

theorem Tree.reap (h : s.Tree a) (hok : s.Ok) (hs : ∀ x, x ≠ q → Same (s.procs x) (s'.procs x))
    (hq : s'.procs q = reaped (s.procs q)) (hz : (s.procs q).state = .zombie)
    (hi : s'.initproc = s.initproc) (hn : s'.nextpid = s.nextpid) : s'.Tree a := by
  have hqi : s.initproc ≠ q := fun he => by
    have := h.init.1
    rw [he, hz] at this
    cases this
  have hu : (s'.procs q).state = .unused := by rw [hq]; rfl
  -- nobody in the table refers to the zombie
  have hne : ∀ x, (s'.procs x).state ≠ .unused → x ≠ q := fun x hx he => hx (he ▸ hu)
  have halive : ∀ x, (s.procs x).state.alive → x ≠ q := fun x hx he => by
    rw [he, hz] at hx
    cases hx
  have htask : ∀ x np l, (s'.procs x).task = .fork np l →
      (s.procs x).task = .fork np l ∧ x ≠ q ∧ np ≠ q := fun x np l hx => by
    have hx' : (s.procs x).task = .fork np l := by
      by_cases hxq : x = q
      · rw [hxq, hq] at hx; rwa [hxq]
      · exact (hs x hxq).task ▸ hx
    refine ⟨hx', halive x (hok.forks.alive x np l hx'), fun he => ?_⟩
    have := hok.forks.embryo x np l hx'
    rw [he, hz] at this
    cases this
  refine ⟨fun x hx => ?_, fun x hx => ?_, ?_, fun x np l hx => ?_, fun x np l hx => ?_,
    fun x hxu hxe hxi => ?_, fun x hx => ?_, fun x y hx hy he => ?_, hn ▸ h.nextpid⟩
  · by_cases hxq : x = q
    · exact hxq ▸ hu
    · exact (hs x hxq).unused.2 (h.bound x hx)
  · by_cases hxq : x = q
    · rw [hxq, hq]; rfl
    · rw [(hs x hxq).parent]; exact h.unused x ((hs x hxq).unused.1 hx)
  · rw [hi, (hs _ hqi).alive, (hs _ hqi).parent, (hs _ hqi).pid]
    exact h.init
  · obtain ⟨hx', -, hnp⟩ := htask x np l hx
    rw [(hs np hnp).parent]
    exact h.linked x np l hx'
  · obtain ⟨hx', hxq, hnp⟩ := htask x np l hx
    rw [(hs x hxq).pid, (hs np hnp).pid]
    exact h.owner x np l hx'
  · have hxq := hne x hxu
    obtain ⟨y, hy, hya, hlt⟩ := h.parent x (mt (hs x hxq).unused.2 hxu)
      (fun hx => hxe ((hs x hxq).embryo.2 hx)) (hi ▸ hxi)
    have hyq := halive y hya
    exact ⟨y, (hs x hxq).parent.trans hy, (hs y hyq).alive.2 hya,
      by rwa [(hs x hxq).pid, (hs y hyq).pid]⟩
  · have hxq := hne x hx
    rw [(hs x hxq).pid]
    exact h.pid_lt x (mt (hs x hxq).unused.2 hx)
  · have hxq := hne x hx
    have hyq := hne y hy
    exact h.pid_inj x y (mt (hs x hxq).unused.2 hx)
      (mt (hs y hyq).unused.2 hy) (by rwa [← (hs x hxq).pid, ← (hs y hyq).pid])

theorem Past.reap (h : s.Past a) (ht : s.Tree a) (hs : ∀ x, x ≠ q → Same (s.procs x) (s'.procs x))
    (hq : s'.procs q = reaped (s.procs q)) (hz : (s.procs q).state = .zombie)
    (hpar : (s.procs q).parent = some p) (hi : s'.initproc = s.initproc)
    (hh : s'.hist = s.hist ++ [.reap (s.procs q).pid (s.procs p).pid]) : s'.Past a := by
  have hqu : (s.procs q).state ≠ .unused := by simp [hz]
  have hu : (s'.procs q).state = .unused := by rw [hq]; rfl
  have hne : ∀ x, (s'.procs x).state ≠ .unused → x ≠ q := fun x hx he => hx (he ▸ hu)
  have hmem : ∀ e, e ∈ s.hist → e ∈ s'.hist := fun e hm => hh ▸ mem_append_left _ hm
  have hreaps : reaps s'.hist = reaps s.hist ++ [(s.procs q).pid] := by rw [hh, reaps_append]; rfl
  have hfresh : (s.procs q).pid ∉ reaps s.hist := fun hm => (h.gone _ hm).2 q hqu rfl
  refine ⟨fun x y hxu hxe hxy => ?_, fun x hx => ?_, fun i hi' => ?_, ?_, ?_⟩
  · have hxq := hne x hxu
    have hxu' : (s.procs x).state ≠ .unused := mt (hs x hxq).unused.2 hxu
    have hxe' : (s.procs x).state ≠ .embryo := fun hx => hxe ((hs x hxq).embryo.2 hx)
    rw [(hs x hxq).parent] at hxy
    obtain ⟨r, hr, hor⟩ := h.forked x y hxu' hxe' hxy
    have hyq : y ≠ q := fun he => by
      have := ht.alive_of_parent hxu' hxe' hxy
      rw [he, hz] at this
      cases this
    rw [(hs x hxq).pid, (hs y hyq).pid, hi]
    exact ⟨r, hmem _ hr, hor.imp_right fun ⟨h1, h2⟩ => ⟨h1, hmem _ h2⟩⟩
  · have hxq := hne x (by simp [hx])
    rw [(hs x hxq).pid]
    exact hmem _ (h.exited x ((hs x hxq).zombie.1 hx))
  · rw [hreaps, mem_append, mem_singleton] at hi'
    have hlive : ∀ x, (s'.procs x).state ≠ .unused →
        (s.procs x).state ≠ .unused ∧ (s'.procs x).pid = (s.procs x).pid := fun x hx =>
      ⟨mt (hs x (hne x hx)).unused.2 hx, (hs x (hne x hx)).pid⟩
    rcases hi' with hi' | rfl
    · refine ⟨(h.gone i hi').1, fun x hx => ?_⟩
      rw [(hlive x hx).2]
      exact (h.gone i hi').2 x (hlive x hx).1
    · refine ⟨(ht.pid_lt q hqu).2, fun x hx => ?_⟩
      rw [(hlive x hx).2]
      exact fun he => hne x hx (ht.pid_inj x q (hlive x hx).1 hqu he)
  · rw [hreaps]
    exact nodup_append.2 ⟨h.once, by simp, by
      rintro x hx y hy rfl
      exact hfresh (mem_singleton.1 hy ▸ hx)⟩
  · rw [hh]
    refine h.returned.snoc ?_
    rintro child parent ⟨⟩
    obtain ⟨r, hr, hor⟩ := h.forked q p hqu (by simp [hz]) hpar
    refine ⟨h.exited q hz, r, hr, ?_⟩
    rcases hor with rfl | ⟨rfl, he⟩
    · exact .inl rfl
    · exact .inr ⟨ht.init.2.2, he⟩

/-- A step of `fork` in process `p`, which sets its task to `t` and the slot `np` to `v`. -/
structure ForkStep (s s' : Sys C) (p np : ℕ) (t : Task) (v : Proc) : Prop where
  slot : s'.procs np = v
  self : s'.procs p = { s.procs p with task := t }
  other : ∀ x, x ≠ np → s'.procs x = { s.procs x with task := (s'.procs x).task }
  task : ∀ x, x ≠ p → x ≠ np → (s'.procs x).task = (s.procs x).task
  ne : p ≠ np
  running : (s.procs p).state = .running
  free : (s.procs np).state = .unused ∨ (s.procs np).state = .embryo
  init : s'.initproc = s.initproc

namespace ForkStep

variable {np : ℕ} {t : Task} {v : Proc}

theorem of_upd (hr : (s.procs p).state = .running)
    (hnp : (s.procs np).state = .unused ∨ (s.procs np).state = .embryo)
    (hprocs : s'.procs = upd (upd s.procs np v) p { upd s.procs np v p with task := t })
    (hi : s'.initproc = s.initproc) : ForkStep s s' p np t v := by
  have hne : p ≠ np := fun he => by rw [← he, hr] at hnp; simp at hnp
  refine ⟨by simp [hprocs, hne.symm], by simp [hprocs, hne], fun x hx => ?_,
    fun x hxp hx => ?_, hne, hr, hnp, hi⟩
  · by_cases hxp : x = p
    · simp [hprocs, hxp, hne]
    · simp [hprocs, hx, hxp]
  · simp [hprocs, hx, hxp]

variable (h : ForkStep s s' p np t v)

include h

theorem state {x : ℕ} (hx : x ≠ np) : (s'.procs x).state = (s.procs x).state := by rw [h.other x hx]

theorem parent {x : ℕ} (hx : x ≠ np) : (s'.procs x).parent = (s.procs x).parent := by
  rw [h.other x hx]

theorem pid {x : ℕ} (hx : x ≠ np) : (s'.procs x).pid = (s.procs x).pid := by rw [h.other x hx]

theorem ne_of_alive {x : ℕ} (hx : (s.procs x).state.alive) : x ≠ np := fun he => by
  rw [he] at hx
  rcases h.free with hnp | hnp <;> rw [hnp] at hx <;> cases hx

end ForkStep

theorem Tree.forkStep (h : s.Tree a) {np : ℕ} {v : Proc} {t : Task} (hs : ForkStep s s' p np t v)
    {a' : ℕ} (ha : a ≤ a') (hb : np < nproc) (hv : v.task = .none)
    (hown : ∀ q l, (s.procs q).task = .fork np l → q = p) (hu : v.state = .unused → v.parent = none)
    (ht : ∀ m l, t = .fork m l → m = np ∧ v.parent = (if l then some p else none) ∧
      (s.procs p).pid < v.pid)
    (hlive : v.state ≠ .unused → v.state ≠ .embryo → v.parent = some p ∧ (s.procs p).pid < v.pid)
    (hpid : v.state ≠ .unused → (1 ≤ v.pid ∧ v.pid < 2 + a') ∧
      ∀ x, x ≠ np → (s.procs x).state ≠ .unused → (s.procs x).pid ≠ v.pid)
    (hn : a' < 2 ^ 31 - 2 → s'.nextpid = 2 + a') : s'.Tree a' := by
  have hini := hs.ne_of_alive h.init.1
  have htask : ∀ x m l, (s'.procs x).task = .fork m l → (x = p ∧ t = .fork m l) ∨
      ((s.procs x).task = .fork m l ∧ x ≠ np ∧ m ≠ np) := fun x m l hx => by
    by_cases hxp : x = p
    · rw [hxp, hs.self] at hx; exact .inl ⟨hxp, hx⟩
    by_cases hxn : x = np
    · rw [hxn, hs.slot, hv] at hx; cases hx
    · rw [hs.task x hxp hxn] at hx
      exact .inr ⟨hx, hxn, fun hm => hxp (hown x l (hm ▸ hx))⟩
  refine ⟨fun x hx => ?_, fun x hx => ?_, ?_, fun x m l hx => ?_, fun x m l hx => ?_,
    fun x hxu hxe hxi => ?_, fun x hx => ?_, fun x y hx hy he => ?_, hn⟩
  · rw [hs.state (by omega)]; exact h.bound x hx
  · by_cases hxn : x = np
    · rw [hxn, hs.slot] at hx ⊢; exact hu hx
    · rw [hs.state hxn] at hx
      rw [hs.parent hxn]
      exact h.unused x hx
  · rw [hs.init, hs.state hini, hs.parent hini, hs.pid hini]
    exact h.init
  · rcases htask x m l hx with ⟨rfl, hx⟩ | ⟨hx, -, hm⟩
    · obtain ⟨rfl, hl, -⟩ := ht m l hx
      rw [hs.slot, hl]
    · rw [hs.parent hm]; exact h.linked x m l hx
  · rcases htask x m l hx with ⟨rfl, hx⟩ | ⟨hx, hxn, hm⟩
    · obtain ⟨rfl, -, hlt⟩ := ht m l hx
      rwa [hs.slot, hs.pid hs.ne]
    · rw [hs.pid hxn, hs.pid hm]; exact h.owner x m l hx
  · by_cases hxn : x = np
    · rw [hxn, hs.slot] at hxu hxe ⊢
      obtain ⟨hpar, hlt⟩ := hlive hxu hxe
      exact ⟨p, hpar, by rw [hs.state hs.ne, hs.running]; rfl, by rwa [hs.pid hs.ne]⟩
    rw [hs.state hxn] at hxu hxe
    obtain ⟨y, hy, hya, hlt⟩ := h.parent x hxu hxe (hs.init ▸ hxi)
    have hyn := hs.ne_of_alive hya
    exact ⟨y, by rw [hs.parent hxn, hy], by rwa [hs.state hyn], by rwa [hs.pid hyn, hs.pid hxn]⟩
  · by_cases hxn : x = np
    · rw [hxn, hs.slot] at hx ⊢; exact (hpid hx).1
    rw [hs.state hxn] at hx
    rw [hs.pid hxn]
    have := h.pid_lt x hx
    omega
  · by_cases hxn : x = np <;> by_cases hyn : y = np
    · rw [hxn, hyn]
    · rw [hxn, hs.slot] at hx he
      rw [hs.state hyn] at hy
      rw [hs.pid hyn] at he
      exact absurd he.symm ((hpid hx).2 y hyn hy)
    · rw [hyn, hs.slot] at hy he
      rw [hs.state hxn] at hx
      rw [hs.pid hxn] at he
      exact absurd he ((hpid hy).2 x hxn hx)
    · rw [hs.state hxn] at hx
      rw [hs.state hyn] at hy
      rw [hs.pid hxn, hs.pid hyn] at he
      exact h.pid_inj x y hx hy he

theorem Past.forkStep (h : s.Past a) (hT : s.Tree a) {np : ℕ} {v : Proc} {t : Task}
    (hs : ForkStep s s' p np t v) {a' : ℕ} (ha : a ≤ a') {es : List Event}
    (hh : s'.hist = s.hist ++ es) (hes : reaps es = []) (hz : v.state ≠ .zombie)
    (hlive : v.state ≠ .unused → v.state ≠ .embryo →
      v.parent = some p ∧ .fork v.pid (s.procs p).pid ∈ es)
    (hpid : v.state ≠ .unused →
      2 + a ≤ v.pid ∨ (s.procs np).state ≠ .unused ∧ v.pid = (s.procs np).pid) : s'.Past a' := by
  have hmem : ∀ e, e ∈ s.hist → e ∈ s'.hist := fun e hm => hh ▸ mem_append_left _ hm
  refine h.extend hh hes ha (fun x y hxu hxe hxy => ?_) (fun x hx => ?_) fun x hx => ?_
  · by_cases hxn : x = np
    · rw [hxn, hs.slot] at hxu hxe hxy ⊢
      obtain ⟨hpar, hm⟩ := hlive hxu hxe
      obtain rfl : p = y := Option.some.inj (hpar.symm.trans hxy)
      exact ⟨(s.procs p).pid, hh ▸ mem_append_right _ hm, .inl (by rw [hs.pid hs.ne])⟩
    rw [hs.state hxn] at hxu hxe
    rw [hs.parent hxn] at hxy
    obtain ⟨r, hr, hor⟩ := h.forked x y hxu hxe hxy
    rw [hs.pid hxn, hs.pid (hs.ne_of_alive (hT.alive_of_parent hxu hxe hxy)), hs.init]
    exact ⟨r, hmem _ hr, hor.imp_right fun ⟨h1, h2⟩ => ⟨h1, hmem _ h2⟩⟩
  · have hxn : x ≠ np := fun he => hz (by rw [← hs.slot, ← he, hx])
    rw [hs.state hxn] at hx
    rw [hs.pid hxn]
    exact hmem _ (h.exited x hx)
  · by_cases hxn : x = np
    · rw [hxn, hs.slot] at hx ⊢; exact hpid hx
    · rw [hs.state hxn] at hx
      exact .inr ⟨hx, hs.pid hxn⟩

/-- The table and its history, after at most `n` calls of `fork`. -/
def Grown (n : ℕ) (s : Sys C) : Prop := ∃ a ≤ n, s.Tree a ∧ s.Past a

theorem Grown.mono {n m : ℕ} (h : s.Grown n) (hm : n ≤ m) : s.Grown m := by
  obtain ⟨a, ha, hT, hP⟩ := h
  exact ⟨a, Nat.le_trans ha hm, hT, hP⟩

theorem Grown.same {n : ℕ} (h : s.Grown n) (hs : ∀ q, Same (s.procs q) (s'.procs q))
    (hi : s'.initproc = s.initproc) (hn : s'.nextpid = s.nextpid) {es : List Event}
    (hh : s'.hist = s.hist ++ es) (hes : reaps es = []) : s'.Grown n := by
  obtain ⟨a, ha, hT, hP⟩ := h
  exact ⟨a, ha, hT.same hs hi hn, hP.same hs hi hh hes⟩

/-- A step by which one process changes and stays alive. -/
theorem Grown.own {n : ℕ} (h : s.Grown n) (ha : (s.procs p).state.alive) {v : Proc}
    (hprocs : s'.procs = upd s.procs p v) (hv : v.state.alive)
    (hpar : v.parent = (s.procs p).parent) (hpid : v.pid = (s.procs p).pid)
    (ht : v.task = (s.procs p).task) (hi : s'.initproc = s.initproc) (hn : s'.nextpid = s.nextpid)
    (hh : s'.hist = s.hist) :
    s'.Grown n :=
  h.same (fun q => hprocs ▸ same_upd (.of_alive ha hv hpar hpid ht) q) hi hn
    (show s'.hist = s.hist ++ [] by simp [hh])
    rfl

end Sys

/-- The step calls `fork`. -/
def Label.isFork {C : Type} : Label C → Bool
  | .fork _ => true
  | _ => false

namespace Sys

variable {C : Type} {s s' : Sys C} {c : C} {p q : ℕ}

theorem Grown.fork {n : ℕ} (h : s.Grown n) (hn : n + 1 < 2 ^ 31 - 1) (hok : s.Ok)
    (hp : s.Runs c p) {np : ℕ} (hb : np < nproc) (hu : (s.procs np).state = .unused)
    (hprocs : s'.procs = upd (upd s.procs np (embryo (s.procs np) s.nextpid s.hist.length)) p
      { upd s.procs np (embryo (s.procs np) s.nextpid s.hist.length) p with
        task := .fork np false })
    (hi : s'.initproc = s.initproc) (hnext : s'.nextpid = (s.nextpid + 1).bmod (2 ^ 32))
    (hh : s'.hist = s.hist) : s'.Grown (n + 1) := by
  obtain ⟨a, ha, hT, hP⟩ := h
  have hpid : s.nextpid = 2 + a := hT.nextpid (by omega)
  have hr := hok.state_of_runs hp
  have hs : ForkStep s s' p np (.fork np false) (embryo (s.procs np) s.nextpid s.hist.length) :=
    .of_upd hr (.inl hu) hprocs hi
  have hplt := (hT.pid_lt p (by simp [hr])).2
  refine ⟨a + 1, by omega, hT.forkStep hs (by omega) hb rfl ?_ (by simp [embryo]) ?_
    (by simp [embryo]) ?_ ?_, hP.forkStep hT hs (by omega)
    (show s'.hist = s.hist ++ [] by simp [hh]) rfl (by simp [embryo]) (by simp [embryo]) ?_⟩
  · intro q l hq
    have := hok.forks.embryo q np l hq
    rw [hu] at this
    cases this
  · rintro m l ⟨⟩
    exact ⟨rfl, hT.unused np hu, by simp only [embryo]; omega⟩
  · intro _
    refine ⟨by simp only [embryo]; omega, fun x _ hx => ?_⟩
    have := (hT.pid_lt x hx).2
    simp only [embryo]
    omega
  · intro hlt
    rw [hnext, hpid, Int.bmod_eq_of_le (by omega) (by omega)]
    push_cast
    omega
  · intro _
    simp only [embryo]
    omega

theorem Ok.forkStep_embryo (hok : s.Ok) (hp : s.Runs c p) {np : ℕ} {l : Bool} {v : Proc} {t : Task}
    (ht : (s.procs p).task = .fork np l)
    (hprocs : s'.procs = upd (upd s.procs np v) p { upd s.procs np v p with task := t })
    (hi : s'.initproc = s.initproc) : ForkStep s s' p np t v :=
  .of_upd (hok.state_of_runs hp) (.inr (hok.forks.embryo p np l ht)) hprocs hi

theorem Grown.forkFail {n : ℕ} (h : s.Grown n) (hok : s.Ok) {np : ℕ}
    (ht : (s.procs p).task = .fork np false)
    (hs : ForkStep s s' p np .none { s.procs np with state := .unused })
    (hn : s'.nextpid = s.nextpid) (hh : s'.hist = s.hist) : s'.Grown n := by
  obtain ⟨a, ha, hT, hP⟩ := h
  have he := hok.forks.embryo p np _ ht
  have hb : np < nproc := by
    by_contra hge
    have := hT.bound np (Nat.not_lt.1 hge)
    rw [he] at this
    cases this
  refine ⟨a, ha, hT.forkStep hs (Nat.le_refl a) hb (hok.embryo_parked he).2
    (fun q l hq => hok.forks.inj q p np l _ hq ht) (fun _ => hT.linked p np _ ht) nofun
    (fun hu => absurd rfl hu) (fun hu => absurd rfl hu) (hn ▸ hT.nextpid),
    hP.forkStep hT hs (Nat.le_refl a) (show s'.hist = s.hist ++ [] by simp [hh]) rfl (by simp)
      (fun hu => absurd rfl hu) fun hu => absurd rfl hu⟩

theorem Grown.forkLink {n : ℕ} (h : s.Grown n) (hok : s.Ok) {np : ℕ}
    (ht : (s.procs p).task = .fork np false)
    (hs : ForkStep s s' p np (.fork np true) { s.procs np with parent := some p })
    (hn : s'.nextpid = s.nextpid) (hh : s'.hist = s.hist) : s'.Grown n := by
  obtain ⟨a, ha, hT, hP⟩ := h
  have he := hok.forks.embryo p np _ ht
  have hu : (s.procs np).state ≠ .unused := by simp [he]
  have hb : np < nproc := by
    by_contra hge
    exact hu (hT.bound np (Nat.not_lt.1 hge))
  refine ⟨a, ha, hT.forkStep hs (Nat.le_refl a) hb (hok.embryo_parked he).2
    (fun q l hq => hok.forks.inj q p np l _ hq ht) (fun hx => absurd hx hu) ?_
    (fun _ hx => absurd he hx) (fun _ => ⟨hT.pid_lt np hu, fun x hx hxu hpid => ?_⟩)
    (hn ▸ hT.nextpid), hP.forkStep hT hs (Nat.le_refl a) (show s'.hist = s.hist ++ [] by simp [hh])
    rfl (by simp [he])
      (fun _ hx => absurd he hx) fun _ => .inr ⟨hu, rfl⟩⟩
  · rintro m l ⟨⟩
    exact ⟨rfl, rfl, hT.owner p np _ ht⟩
  · exact hx (hT.pid_inj x np hxu hu hpid)

theorem Grown.forkDone {n : ℕ} (h : s.Grown n) (hok : s.Ok) {np : ℕ}
    (ht : (s.procs p).task = .fork np true)
    (hs : ForkStep s s' p np .none { s.procs np with state := .runnable })
    (hn : s'.nextpid = s.nextpid)
    (hh : s'.hist = s.hist ++ [.fork (s.procs np).pid (s.procs p).pid]) : s'.Grown n := by
  obtain ⟨a, ha, hT, hP⟩ := h
  have he := hok.forks.embryo p np _ ht
  have hu : (s.procs np).state ≠ .unused := by simp [he]
  have hb : np < nproc := by
    by_contra hge
    exact hu (hT.bound np (Nat.not_lt.1 hge))
  have hpar : (s.procs np).parent = some p := hT.linked p np _ ht
  refine ⟨a, ha, hT.forkStep hs (Nat.le_refl a) hb (hok.embryo_parked he).2
    (fun q l hq => hok.forks.inj q p np l _ hq ht) (by simp) nofun
    (fun _ _ => ⟨hpar, hT.owner p np _ ht⟩)
    (fun _ => ⟨hT.pid_lt np hu, fun x hx hxu hpid => ?_⟩) (hn ▸ hT.nextpid),
    hP.forkStep hT hs (Nat.le_refl a) hh rfl (by simp) (fun _ _ => ⟨hpar, by simp⟩)
      fun _ => .inr ⟨hu, rfl⟩⟩
  exact hx (hT.pid_inj x np hxu hu hpid)

variable [DecidableEq C]

/-- Every step preserves the invariant; only `fork` uses up a pid. -/
theorem Grown.step {n : ℕ} {l : Label C} (h : s.Grown n) (hok : s.Ok) (hs : s.Steps l s')
    (hn : n + (if l.isFork then 1 else 0) < 2 ^ 31 - 1) :
    s'.Grown (n + if l.isFork then 1 else 0) := by
  have halive : ∀ {c p}, s.On c p → (∀ k, (s.procs p).pc ≠ .leaving k) → (s.procs p).state.alive :=
    fun hp hk => by rw [hok.running_of_pc hp hk]; rfl
  have hruns : ∀ {c p}, s.Runs c p → (s.procs p).state.alive := fun hp => by
    rw [hok.state_of_runs hp]; rfl
  cases hs with
  | acquire | release | skip | back =>
    exact h.same (fun _ => .of_state rfl rfl rfl rfl) rfl rfl (append_nil _).symm rfl
  | pick hc hi hr => exact h.own (by rw [hr]; rfl) rfl rfl rfl rfl rfl rfl rfl rfl
  | resume hp hk | resumeWait hp hk | giveUp hp hk =>
    have ha := halive hp (by simp [hk])
    exact h.own ha rfl ha rfl rfl rfl rfl rfl rfl
  | swtch hp hk =>
    refine h.same (fun q => same_upd ?_ q) rfl rfl (append_nil _).symm rfl
    exact .of_state rfl rfl rfl rfl
  | yield hp hl | sleep hp hl => exact h.own (hruns hp) rfl rfl rfl rfl rfl rfl rfl rfl
  | @exit c p hp ht hi hl =>
    obtain ⟨a, ha, hT, hP⟩ := h
    have he := exitTable_spec hi.symm s.procs
    have hr := hok.state_of_runs hp
    exact ⟨a, ha, hT.exit he hr ht hi rfl rfl, hP.exit he hr hi rfl rfl⟩
  | wait hp hl => exact h.own (hruns hp) rfl (hruns hp) rfl rfl rfl rfl rfl rfl
  | @reap c p q hp hk hq hpar hz =>
    obtain ⟨a, ha, hT, hP⟩ := h
    have hr := hok.running_of_pc hp (by simp [hk])
    have hpq : p ≠ q := fun he => by rw [he, hz] at hr; cases hr
    refine ⟨a, ha, hT.reap hok (fun x hx => ?_) (by simp [hpq.symm]) hz rfl rfl,
      hP.reap hT (fun x hx => ?_) (by simp [hpq.symm]) hz hpar rfl rfl⟩ <;>
    · by_cases hxp : x = p
      · subst hxp; exact .of_state (by simp [hpq]) (by simp [hpq]) (by simp [hpq]) (by simp [hpq])
      · exact .of_state (by simp [hxp, hx]) (by simp [hxp, hx]) (by simp [hxp, hx])
          (by simp [hxp, hx])
  | waitSleep hp hk hz => exact h.own (halive hp (by simp [hk])) rfl rfl rfl rfl rfl rfl rfl rfl
  | fork hp ht hl hb hu => exact h.fork hn hok hp hb hu rfl rfl rfl rfl
  | forkFull => exact h.mono (Nat.le_add_right _ _)
  | forkFail hp ht => exact h.forkFail hok ht (hok.forkStep_embryo hp ht rfl rfl) rfl rfl
  | forkLink hp ht => exact h.forkLink hok ht (hok.forkStep_embryo hp ht rfl rfl) rfl rfl
  | forkDone hp ht hl => exact h.forkDone hok ht (hok.forkStep_embryo hp ht rfl rfl) rfl rfl
  | kill hl => exact h.same (same_kill s.procs _) rfl rfl rfl rfl
  | wakeup hl =>
    exact h.same (fun q => .of_wakes (wakeup1_spec s.procs _ q).1 (wakeup1_spec s.procs _ q).2.1)
      rfl rfl (append_nil _).symm rfl
  | trap hp =>
    refine h.same (fun q => same_upd ?_ q) rfl rfl rfl rfl
    exact .of_state rfl rfl rfl rfl

omit [DecidableEq C] in
theorem grown_init : (init : Sys C).Grown 0 := by
  have hne : ∀ q, q ≠ 0 → (init : Sys C).procs q = (blank : Sys C).procs q := fun q hq => by
    simp [init, setProc, hq]
  have htask : ∀ q, ((init : Sys C).procs q).task = .none := fun q => by
    by_cases hq : q = 0
    · simp [hq, init, setProc, blank]
    · rw [hne q hq]; rfl
  have hpar : ∀ q, ((init : Sys C).procs q).parent = none := fun q => by
    by_cases hq : q = 0
    · simp [hq, init, setProc, blank]
    · rw [hne q hq]; rfl
  have hused : ∀ q, ((init : Sys C).procs q).state ≠ .unused → q = 0 := fun q hu => by
    by_contra hq
    exact hu (by rw [hne q hq]; rfl)
  have hpid : ((init : Sys C).procs 0).pid = 1 := by simp [init, setProc]
  have hstate : ((init : Sys C).procs 0).state = .runnable := by simp [init, setProc]
  refine ⟨0, Nat.le_refl 0,
    ⟨fun q hq => ?_, fun q _ => hpar q, ?_, fun p np l h => ?_, fun p np l h => ?_, fun q hu _ hq =>
      absurd (hused q hu) hq, fun q hu => ?_, fun q q' hu hu' _ => ?_, fun _ => rfl⟩,
    ⟨fun q p _ _ h => ?_, fun q hz => ?_, ?_, nodup_nil, ?_⟩⟩
  · rw [hne q (by simp only [nproc] at hq; omega)]; rfl
  · exact ⟨by rw [show (init : Sys C).initproc = 0 from rfl, hstate]; rfl, hpar _, hpid⟩
  · rw [htask] at h; cases h
  · rw [htask] at h; cases h
  · rw [hused q hu, hpid]; simp
  · rw [hused q hu, hused q' hu']
  · rw [hpar] at h; cases h
  · rw [hused q (by simp [hz]), hstate] at hz; cases hz
  · simp [reaps, init, setProc, blank]
  · intro h1 h2 child parent he
    simp [init, setProc, blank] at he

theorem grown_of_run {ls : List (Label C)} (h : (sys C).Run .init ls s)
    (hf : ls.countP Label.isFork < 2 ^ 31 - 1) : s.Grown (ls.countP Label.isFork) := by
  refine (h.invariant_history (I := fun ls s => s.Ok ∧
    (ls.countP Label.isFork < 2 ^ 31 - 1 → s.Grown (ls.countP Label.isFork)))
    ⟨ok_init, fun _ => grown_init⟩ ?_).2 hf
  intro ls s₁ l s₂ _ hi hs
  have hst := step_inv hs
  refine ⟨hi.1.step hst, fun hf => ?_⟩
  rw [countP_append, countP_singleton] at hf ⊢
  exact (hi.2 (by omega)).step hi.1 hst hf

omit [DecidableEq C] in
/-- Following parents leads to init, because parents have smaller pids. -/
theorem Tree.reaches_init {a : ℕ} (h : s.Tree a) (hu : (s.procs q).state ≠ .unused)
    (he : (s.procs q).state ≠ .embryo) :
    Relation.ReflTransGen (fun p p' => (s.procs p).parent = some p') q s.initproc := by
  induction hn : (s.procs q).pid.toNat using Nat.strongRecOn generalizing q with
  | _ n ih =>
    by_cases hq : q = s.initproc
    · exact hq ▸ .refl
    obtain ⟨p, hp, ha, hlt⟩ := h.parent q hu he hq
    have hp' := (ProcState.alive_iff _).1 ha
    have := h.pid_lt p hp'.1
    exact .head hp (ih _ (by omega) hp'.1 hp'.2.1 rfl)

end Sys

variable {C : Type} [DecidableEq C] {s : Sys C}

/-- **Process tree and reaping.**  After every run with fewer than `2^31 - 1` calls of `fork`:
unused slots have no parent; pids are distinct; a process other than init and embryos has a parent
that is neither `UNUSED` nor `ZOMBIE`, and following parents leads to init; no child is returned by
`wait` twice; a child is returned only after it has become a `ZOMBIE`, and to its creator, or to
init if the creator has exited; and it is returned to the process that is its parent at that
moment. -/
theorem process_tree {ls : List (Label C)} (h : (sys C).Run .init ls s)
    (hf : ls.countP Label.isFork < 2 ^ 31 - 1) :
    (∀ q, (s.procs q).state = .unused → (s.procs q).parent = none) ∧
    (∀ q q', (s.procs q).state ≠ .unused → (s.procs q').state ≠ .unused →
      (s.procs q).pid = (s.procs q').pid → q = q') ∧
    (∀ q, (s.procs q).state ≠ .unused → (s.procs q).state ≠ .embryo → q ≠ s.initproc →
      ∃ p, (s.procs q).parent = some p ∧ (s.procs p).state ≠ .unused ∧
        (s.procs p).state ≠ .zombie) ∧
    (∀ q, (s.procs q).state ≠ .unused → (s.procs q).state ≠ .embryo →
      Relation.ReflTransGen (fun p p' => (s.procs p).parent = some p') q s.initproc) ∧
    (reaps s.hist).Nodup ∧
    (∀ h₁ h₂ child parent, s.hist = h₁ ++ .reap child parent :: h₂ →
      .exit child ∈ h₁ ∧ ∃ creator, .fork child creator ∈ h₁ ∧
        (parent = creator ∨ parent = (s.procs s.initproc).pid ∧ .exit creator ∈ h₁)) ∧
    ∀ l s' child parent, (sys C).step s l s' → s'.hist = s.hist ++ [.reap child parent] →
      ∃ q p, (s.procs q).pid = child ∧ (s.procs q).state = .zombie ∧
        (s.procs q).parent = some p ∧ (s.procs p).pid = parent := by
  obtain ⟨a, -, hT, hP⟩ := Sys.grown_of_run h hf
  refine ⟨hT.unused, hT.pid_inj, fun q hu he hq => ?_, fun q => hT.reaches_init, hP.once, ?_,
    fun l s' child parent hs hh => ?_⟩
  · obtain ⟨p, hp, ha, -⟩ := hT.parent q hu he hq
    have ha := (ProcState.alive_iff _).1 ha
    exact ⟨p, hp, ha.1, ha.2.2⟩
  · rw [hT.init.2.2]; exact hP.returned
  have hlen : s'.hist ≠ s.hist := fun he => by rw [he] at hh; simp at hh
  cases Sys.step_inv hs with
  | @reap c p q hp hk hq hpar hz =>
    have := append_cancel_left hh
    obtain ⟨rfl, rfl⟩ : (s.procs q).pid = child ∧ (s.procs p).pid = parent := by simpa using this
    exact ⟨q, p, rfl, hz, hpar, rfl⟩
  | exit | forkDone | kill | trap => have := append_cancel_left hh; cases this
  | _ => exact absurd rfl hlen

/-- One CPU: init forks a child and sleeps in `wait`; the child exits, and init returns its pid. -/
def reapRun : List (Label Unit) :=
  [.sched (), .sched (), .resume (), .fork (), .forkLink (), .forkDone (), .wait (), .look (),
    .swtch (), .sched (), .sched (), .resume (), .exit (), .swtch (), .sched ()] ++
    List.replicate 63 (.sched ()) ++ [.sched (), .sched (), .resume (), .look ()]

theorem process_tree_reapRun : ∃ s, (sys Unit).Run .init reapRun s ∧
    s.hist = [.fork 2 1, .exit 2, .reap 2 1] ∧ (s.procs 1).state = .unused ∧
    (s.procs 1).parent = none := by
  obtain ⟨s, hs, hd⟩ := Option.map_eq_some_iff.1 (show
    (LTS.exec Sys.step Sys.init reapRun).map (fun s => (s.hist, (s.procs 1).state)) =
      some ([.fork 2 1, .exit 2, .reap 2 1], .unused) by decide +kernel)
  obtain ⟨hh, hu⟩ := Prod.mk.inj hd
  have hrun := LTS.run_of_exec hs
  exact ⟨s, hrun, hh, hu, (process_tree hrun (by decide +kernel)).1 1 hu⟩

end Ptable

end Xv6
