import Xv6.Sleeplock.Protocol

/-!
# Sleep locks are safe

The predicates on phases say who holds which lock, who owns the sleep lock and what a process knows
about `lk->locked` (`Phase.knows`): the holder of `lk->lk` knows what it has tested, and the owner
knows that the lock is its own.  `Sys.Step` says what a step may do in these terms, and
`Sys.Step.inv` that the invariant `Sys.Inv` survives it; `Sys.run_step` reads the steps off the
code.

The argument against missed wakeups is `Sys.Waits`: a process that sleeps, or is about to, has found
`lk->locked` set under `lk->lk`, and whoever clears it calls `wakeup` before it releases `lk->lk`.
A process between `release(lk)` and `SLEEPING` holds `ptable.lock`, which `wakeup` has to acquire.

* `Sleeplock.sleeplock_safe` : **mutual exclusion, the pid of the holder, and no sleeper on a free
  lock**.
-/

namespace Xv6

open Ptable (ProcState)

namespace Sleeplock

namespace Phase

/-- The process holds `lk->lk`. -/
@[simp] def holds : Phase → Bool
  | test | sleep | both | take | sign | taken => true
  | clear | unsign | rouse | scan | roused | given => true
  | look _ | asked .. => true
  | _ => false

/-- The process holds `ptable.lock`. -/
@[simp] def holdsPtable : Phase → Bool
  | both | doze | sched | tidy | wake | scan | roused => true
  | _ => false

/-- The process has taken the sleep lock: `lk->locked` is its own. -/
@[simp] def owns : Phase → Bool
  | sign | taken | held | give | clear => true
  | ask b | look b | asked b _ => b
  | _ => false

/-- The process is between the return of `acquiresleep` and its call of `releasesleep`. -/
@[simp] def inside : Phase → Bool
  | held => true
  | ask b | look b | asked b _ => b
  | _ => false

/-- The process owns the lock and `lk->pid` is its pid. -/
@[simp] def signed : Phase → Bool
  | taken | held | give | clear => true
  | ask b | look b | asked b _ => b
  | _ => false

/-- What the process knows about `lk->locked`. -/
@[simp] def knows : Phase → Option Bool
  | sleep | both => some true
  | take | unsign | rouse | scan | roused | given => some false
  | ph => if ph.owns then some true else none

/-- The process is about to be `SLEEPING`, or may be so. -/
@[simp] def dozes : Phase → Bool
  | doze | sched => true
  | _ => false

/-- The process has set its state and not come back. -/
@[simp] def away : Phase → Bool
  | sched | parked => true
  | _ => false

/-- The process has cleared `lk->locked` and will call `wakeup1`. -/
@[simp] def owes : Phase → Bool
  | unsign | rouse | scan => true
  | _ => false

variable {ph : Phase}

theorem knows_of_owns (h : ph.owns = true) : ph.knows = some true := by
  cases ph <;> simp_all [knows, owns]

theorem owns_of_signed (h : ph.signed = true) : ph.owns = true := by
  cases ph <;> simp_all [signed, owns]

theorem signed_of_inside (h : ph.inside = true) : ph.signed = true := by
  cases ph <;> simp_all

theorem holds_of_owes (h : ph.owes = true) : ph.holds = true := by
  cases ph <;> simp_all

theorem holdsPtable_of_dozes (h : ph.dozes = true) : ph.holdsPtable = true := by
  cases ph <;> simp_all

/-- Only the owner of the sleep lock and the holder of `lk->lk` know something about
`lk->locked`. -/
theorem holds_of_knows (h : ph.knows.isSome = true) : ph.holds = true ∨ ph.owns = true := by
  cases ph with
  | ask b => cases b <;> simp_all [knows, owns]
  | _ => simp_all [knows, holds, owns]

/-- A process that moves from `ph` to `ph'` learns nothing new about the sleep lock, and still wakes
whom it was bound to wake. -/
def Keeps (ph ph' : Phase) : Prop :=
  (∀ b, ph'.knows = some b → ph.knows = some b) ∧ (ph'.owns = true → ph.owns = true) ∧
    (ph'.signed = true → ph.signed = true) ∧ ph'.away = ph.away ∧
    (ph.owes = true → ph'.owes = true) ∧
    (ph'.dozes = true → ph.dozes = true ∨ ph.knows = some true) ∧
    ∀ r, ph' = .asked true r → r = true

instance (ph ph' : Phase) : Decidable (Keeps ph ph') := by
  unfold Keeps
  infer_instance

end Phase

namespace Sys

variable {P : Type*}

/-- Who holds the locks, and what the processes know about the sleep lock. -/
structure Inv (pid : P → ℕ) (s : Sys P) : Prop where
  lock : ∀ p, (s.phase p).holds = true ↔ s.lock = some p
  ptable : ∀ p, (s.phase p).holdsPtable = true ↔ s.ptable = some (some p)
  locked : ∀ p b, (s.phase p).knows = some b → s.lk.locked = b
  pid : ∀ p, (s.phase p).signed = true → s.lk.pid = pid p
  owner : ∀ p q, (s.phase p).owns = true → (s.phase q).owns = true → p = q
  state : ∀ p, s.state p = .sleeping → (s.phase p).away = true
  chan : ∀ p, (s.phase p).away = true → s.chan p = true
  asked : ∀ p r, s.phase p = .asked true r → r = true

/-- A process that sleeps, or is about to, has to wait, or somebody is bound to wake it. -/
def Waits (s : Sys P) : Prop := ∀ p, (s.phase p).dozes = true ∨ s.state p = .sleeping →
  s.lk.locked = true ∨ ∃ q, (s.phase q).owes = true

variable [DecidableEq P] {pid : P → ℕ} {s s' : Sys P} {p q : P} {ph ph' : Phase}

/-- How the holder of a lock changes when process `x` goes from phase `ph` to `ph'`; `c` says in
which phases it holds the lock. -/
inductive Passes {α : Type*} (c : Phase → Bool) (ph ph' : Phase) (x : α) (l : Option α) :
    Option α → Prop
  | stay (h : c ph = c ph') : Passes c ph ph' x l l
  | acquire (h : c ph' = true) (hl : l = none) : Passes c ph ph' x l (some x)
  | release (h : c ph = true) (h' : c ph' = false) : Passes c ph ph' x l none

omit [DecidableEq P] in
theorem Passes.holder [DecidableEq P] {α : Type*} {f : P → Phase} {c : Phase → Bool} {i : P → α}
    {l l' : Option α} (hl : Passes c (f p) ph' (i p) l l') (hi : Function.Injective i)
    (h : ∀ q, c (f q) = true ↔ l = some (i q)) (q : P) : c (upd f p ph' q) = true ↔
    l' = some (i q) := by
  have hp := h p
  have hq := h q
  unfold upd
  by_cases hqp : q = p
  · subst hqp
    cases hl <;> simp_all
  have hne : i p ≠ i q := fun he => hqp (hi he).symm
  cases hl with
  | stay => simp [hqp, hq]
  | acquire _ hl =>
    subst hl
    simp [hqp, hq, hne]
  | release h' =>
    rw [hp.1 h'] at hq
    simp [hqp, hq, hne]

/-- Nobody sleeps without a reason after a step that leaves `lk->locked` as it is. -/
theorem Waits.mono (hw : s.Waits) (hp : s.phase p = ph) (hphase : s'.phase = upd s.phase p ph')
    (hlk : s'.lk.locked = s.lk.locked) (howes : ph.owes = true → ph'.owes = true)
    (hdoze : ph'.dozes = true → ph.dozes = true ∨ s.lk.locked = true)
    (hstate : ∀ q, s'.state q = .sleeping → s.state q = .sleeping ∨ (s.phase q).dozes = true) :
    s'.Waits := by
  subst hp
  have hback : s.lk.locked = true ∨ (∃ q, (s.phase q).owes = true) →
      s'.lk.locked = true ∨ ∃ q, (s'.phase q).owes = true := by
    rw [hlk, hphase]
    refine Or.imp_right ?_
    rintro ⟨q, hq⟩
    exact ⟨q, upd_forall (F := fun q (x : Phase) => (s.phase q).owes = true → x.owes = true) howes
      (fun _ _ => id) q hq⟩
  rintro q (hd | hx)
  · refine hback ?_
    rw [hphase] at hd
    by_cases hq : q = p
    · subst hq
      rcases hdoze (by simpa using hd) with hd | hl
      · exact hw q (.inl hd)
      · exact .inl hl
    · exact hw q (.inl (by simpa [hq] using hd))
  · exact hback ((hstate q hx).elim (fun hx => hw q (.inr hx)) fun hd => hw q (.inl hd))

/-- What a step of process `p` from phase `ph` to `ph'` may do. -/
structure Step (pid : P → ℕ) (p : P) (ph ph' : Phase) (s s' : Sys P) : Prop where
  before : s.phase p = ph
  phase : s'.phase = upd s.phase p ph'
  lock : Passes Phase.holds ph ph' p s.lock s'.lock
  ptable : Passes Phase.holdsPtable ph ph' (some p) s.ptable s'.ptable
  /-- The sleep lock is only written by the holder of `lk->lk`, if it is free or its own. -/
  lk : s'.lk = s.lk ∨ ph.holds = true ∧ (ph.owns = true ∨ s.lk.locked = false)
  owns : ph'.owns = true → ph.owns = true ∨ s.lk.locked = false
  locked : ∀ b, ph'.knows = some b → s'.lk.locked = b
  pid : ph'.signed = true → s'.lk.pid = pid p
  state : s'.state p = .sleeping → ph'.away = true
  chan : ph'.away = true → s'.chan p = true
  others : ∀ q, q ≠ p → (s'.state q = .sleeping → s.state q = .sleeping) ∧ s'.chan q = s.chan q
  asked : ∀ r, ph' = .asked true r → r = true
  waits : s.Waits → s'.Waits

omit [DecidableEq P] in
theorem Inv.not_owns (h : s.Inv pid) (hl : s.lk.locked = false) : (s.phase q).owns = false := by
  by_contra ho
  have hk : (s.phase q).knows = some true := Phase.knows_of_owns (by simpa using ho)
  rw [h.locked q true hk] at hl
  cases hl

/-- Nobody else owns the lock when `p` may write to it. -/
theorem Step.not_owns (hs : Step pid p ph ph' s s') (h : s.Inv pid) (hq : q ≠ p)
    (ho : ph.owns = true ∨ s.lk.locked = false) : (s.phase q).owns = false := by
  rcases ho with ho | hl
  · by_contra hqo
    exact hq (h.owner q p (by simpa using hqo) (by rwa [hs.before]))
  · exact h.not_owns hl

theorem Step.lk_other (hs : Step pid p ph ph' s s') (h : s.Inv pid) (hq : q ≠ p)
    (hk : (s.phase q).knows.isSome = true) : s'.lk = s.lk := by
  refine hs.lk.resolve_right fun ⟨hh, ho⟩ => ?_
  have hp := (h.lock p).1 (by rwa [hs.before])
  rcases Phase.holds_of_knows hk with hqh | hqo
  · exact hq (Option.some.inj (((h.lock q).1 hqh).symm.trans hp))
  · rw [hs.not_owns h hq ho] at hqo
    cases hqo

theorem Step.inv (hs : Step pid p ph ph' s s') (h : s.Inv pid) : s'.Inv pid where
  lock := by
    rw [hs.phase]
    exact (hs.before ▸ hs.lock).holder Function.injective_id h.lock
  ptable := by
    rw [hs.phase]
    exact (hs.before ▸ hs.ptable).holder (fun _ _ => Option.some.inj) h.ptable
  locked := by
    rw [hs.phase]
    refine upd_forall (F := fun _ (x : Phase) => ∀ b, x.knows = some b → s'.lk.locked = b) hs.locked
      fun q hq b hb => ?_
    rw [hs.lk_other h hq (by rw [hb]; rfl)]
    exact h.locked q b hb
  pid := by
    rw [hs.phase]
    refine upd_forall (F := fun q (x : Phase) => x.signed = true → s'.lk.pid = pid q) hs.pid
      fun q hq hx => ?_
    rw [hs.lk_other h hq (by rw [Phase.knows_of_owns (Phase.owns_of_signed hx)]; rfl)]
    exact h.pid q hx
  owner q r hq hr := by
    rw [hs.phase] at hq hr
    have hown : ∀ q, q ≠ p → (s.phase q).owns = true → ph'.owns = false := fun q hqp hqo => by
      by_contra hp
      rw [hs.not_owns h hqp (hs.owns (by simpa using hp))] at hqo
      cases hqo
    unfold upd at hq hr
    by_cases hqp : q = p <;> by_cases hrp : r = p
    · exact hqp.trans hrp.symm
    · rw [if_neg hrp] at hr
      rw [if_pos hqp, hown r hrp hr] at hq
      cases hq
    · rw [if_neg hqp] at hq
      rw [if_pos hrp, hown q hqp hq] at hr
      cases hr
    · rw [if_neg hqp] at hq
      rw [if_neg hrp] at hr
      exact h.owner q r hq hr
  state := by
    rw [hs.phase]
    exact upd_forall (F := fun q (x : Phase) => s'.state q = .sleeping → x.away = true) hs.state
      fun q hq hx => h.state q ((hs.others q hq).1 hx)
  chan := by
    rw [hs.phase]
    exact upd_forall (F := fun q (x : Phase) => x.away = true → s'.chan q = true) hs.chan
      fun q hq hx => (hs.others q hq).2.trans (h.chan q hx)
  asked := by
    rw [hs.phase]
    exact upd_forall (F := fun _ (x : Phase) => ∀ r, x = .asked true r → r = true) hs.asked
      fun q _ => h.asked q

/-! ## The steps -/

theorem Step.of_move {l : Option P} {t : Option (Option P)} (h : s.Inv pid) (hp : s.phase p = ph)
    (hk : ph.Keeps ph') (hl : Passes Phase.holds ph ph' p s.lock l)
    (ht : Passes Phase.holdsPtable ph ph' (some p) s.ptable t) :
    Step pid p ph ph' s { s.goto p ph' with lock := l, ptable := t } where
  before := hp
  phase := rfl
  lock := hl
  ptable := ht
  lk := .inl rfl
  owns ho := .inl (hk.2.1 ho)
  locked b hb := h.locked p b (hp ▸ hk.1 b hb)
  pid hx := h.pid p (hp ▸ hk.2.2.1 hx)
  state hx := by
    rw [hk.2.2.2.1, ← hp]
    exact h.state p hx
  chan hx := h.chan p (by rwa [hp, ← hk.2.2.2.1])
  others _ _ := ⟨id, rfl⟩
  asked := hk.2.2.2.2.2.2
  waits hw := hw.mono hp rfl rfl hk.2.2.2.2.1
    (fun hd => (hk.2.2.2.2.2.1 hd).imp_right fun hx => h.locked p true (hp ▸ hx)) fun _ => .inl

theorem acquire_some (hr : s.acquire p ph' = some s') :
    s.lock = none ∧ s' = { s.goto p ph' with lock := some p } := by
  unfold acquire at hr
  split_ifs at hr with hl
  exact ⟨hl, (Option.some.inj hr).symm⟩

theorem acquirePtable_some (hr : s.acquirePtable p ph' = some s') :
    s.ptable = none ∧ s' = { s.goto p ph' with ptable := some (some p) } := by
  unfold acquirePtable at hr
  split_ifs at hr with hl
  exact ⟨hl, (Option.some.inj hr).symm⟩

theorem Step.acquire (h : s.Inv pid) (hp : s.phase p = ph) (hr : s.acquire p ph' = some s')
    (hk : ph.Keeps ph') (hl : ph'.holds = true) (ht : ph.holdsPtable = ph'.holdsPtable) :
    Step pid p ph ph' s s' := by
  obtain ⟨hnone, rfl⟩ := acquire_some hr
  exact .of_move h hp hk (.acquire hl hnone) (.stay ht)

theorem Step.acquirePtable (h : s.Inv pid) (hp : s.phase p = ph)
    (hr : s.acquirePtable p ph' = some s') (hk : ph.Keeps ph') (hl : ph.holds = ph'.holds)
    (ht : ph'.holdsPtable = true) : Step pid p ph ph' s s' := by
  obtain ⟨hnone, rfl⟩ := acquirePtable_some hr
  exact .of_move h hp hk (.stay hl) (.acquire ht hnone)

/-- The owner, or a process that has found the sleep lock free, writes to it. -/
theorem Step.of_write {lk : Sleeplock} (h : s.Inv pid) (hp : s.phase p = ph) (hh : ph.holds = true)
    (hh' : ph.holds = ph'.holds) (ht : ph.holdsPtable = ph'.holdsPtable)
    (hown : ph.owns = true ∨ ph.knows = some false) (hk : ∀ b, ph'.knows = some b → lk.locked = b)
    (hsig : ph'.signed = true → lk.pid = pid p) (haway : ph'.away = ph.away)
    (hw : lk.locked = true ∨ ph'.owes = true) (hask : ∀ r, ph' ≠ .asked true r) :
    Step pid p ph ph' s { s.goto p ph' with lk := lk } := by
  have hfree : ph.owns = true ∨ s.lk.locked = false :=
    hown.imp_right fun hx => h.locked p false (hp ▸ hx)
  refine ⟨hp, rfl, .stay hh', .stay ht, .inr ⟨hh, hfree⟩, fun _ => hfree, hk, hsig, fun hx => ?_,
    fun hx => ?_, fun _ _ => ⟨id, rfl⟩, fun r hr => absurd hr (hask r), fun _ _ _ =>
    hw.imp_right fun ho => ⟨p, by simpa [goto] using ho⟩⟩
  · rw [haway, ← hp]
    exact h.state p hx
  · exact h.chan p (by rwa [hp, ← haway])

/-- `wakeup1` leaves nobody asleep: whoever is about to sleep holds `ptable.lock`, which the caller
has. -/
theorem Inv.scan_sleeps (h : s.Inv pid) (hp : s.phase p = .scan)
    (hx : ((s.wakeup1.goto p .roused).phase q).dozes = true ∨
      (s.wakeup1.goto p .roused).state q = .sleeping) :
    False := by
  rcases hx with hd | hx
  · by_cases hq : q = p
    · simp [goto, hq] at hd
    have hd : (s.phase q).dozes = true := by simpa [goto, wakeup1, hq] using hd
    have hq' := (h.ptable q).1 (Phase.holdsPtable_of_dozes hd)
    rw [(h.ptable p).1 (by rw [hp]; rfl)] at hq'
    exact hq (by simpa using hq'.symm)
  · simp only [goto, wakeup1] at hx
    split_ifs at hx with hs
    exact hs ⟨hx, h.chan q (h.state q hx)⟩

theorem run_step (h : s.Inv pid) (hr : s.run pid p = some s') :
    ∃ ph ph', Step pid p ph ph' s s' := by
  have hst := h.state p
  have hch := h.chan p
  unfold run at hr
  split at hr
  case h_1 | h_2 => cases hr
  case h_3 hp | h_15 hp => exact ⟨_, _, .acquire h hp hr (by decide) rfl rfl⟩
  case h_4 hp =>
    cases hr
    rw [hp] at hst
    cases hl : s.lk.locked
    · exact ⟨.test, .take, hp, rfl, .stay rfl, .stay rfl, .inl rfl, by simp, by simp [goto, hl], by
        simp, hst, by simp, fun _ _ => ⟨id, rfl⟩, by
        simp, fun hw => hw.mono hp rfl rfl (by simp) (by simp) fun _ => .inl⟩
    · exact ⟨.test, .sleep, hp, rfl, .stay rfl, .stay rfl, .inl rfl, by simp, by simp [goto, hl], by
        simp, hst, by simp, fun _ _ => ⟨id, rfl⟩, by
        simp, fun hw => hw.mono hp rfl rfl (by simp) (by simp) fun _ => .inl⟩
  case h_5 hp | h_18 hp => exact ⟨_, _, .acquirePtable h hp hr (by decide) rfl rfl⟩
  case h_6 hp | h_14 hp | h_21 hp =>
    cases hr
    exact ⟨_, _, .of_move h hp (by decide) (.release rfl rfl) (.stay rfl)⟩
  case h_7 hp =>
    cases hr
    refine ⟨.doze, .sched, hp, rfl, .stay rfl, .stay rfl,
      .inl rfl, by simp, by simp, by simp, by simp, by simp [setSleeping, goto], fun q hq => by
      simp [setSleeping, goto, hq], by
      simp, fun hw => hw.mono hp rfl rfl (by simp) (by simp) fun q hx => ?_⟩
    by_cases hq : q = p
    · exact .inr (by rw [hq, hp]; rfl)
    · exact .inl (by simpa [setSleeping, goto, hq] using hx)
  case h_8 hp | h_11 hp | h_20 hp =>
    cases hr
    exact ⟨_, _, .of_move h hp (by decide) (.stay rfl) (.release rfl rfl)⟩
  case h_9 hp =>
    unfold resume at hr
    split_ifs at hr with hrun
    obtain ⟨ht, rfl⟩ := acquirePtable_some hr
    refine ⟨.parked, .tidy, hp, rfl, .stay rfl, .acquire rfl ht,
      .inl rfl, by simp, by simp, by simp, by simp [goto], by simp, fun q hq => by
      simp [goto, hq], by
      simp, fun hw => hw.mono hp rfl rfl (by simp) (by simp) fun q hx => .inl ?_⟩
    by_cases hq : q = p
    · simp [goto, hq] at hx
    · simpa [goto, hq] using hx
  case h_10 hp =>
    cases hr
    rw [hp] at hst
    exact ⟨.tidy, .wake, hp, rfl, .stay rfl, .stay rfl, .inl rfl, by simp, by simp, by simp,
      hst, by simp, fun q hq => by simp [goto, hq], by
      simp, fun hw => hw.mono hp rfl rfl (by simp) (by simp) fun _ => .inl⟩
  case h_12 hp =>
    cases hr
    exact ⟨_, _, .of_write h hp rfl rfl rfl (.inr rfl) (by simp) (by simp) rfl (.inl rfl) (by simp)⟩
  case h_13 hp =>
    cases hr
    have hl : s.lk.locked = true := h.locked p true (by rw [hp]; rfl)
    exact ⟨_, _, .of_write h hp rfl rfl rfl (.inl rfl) (by simpa using hl) (by simp) rfl
      (.inl hl) (by simp)⟩
  case h_16 hp =>
    cases hr
    exact ⟨_, _, .of_write h hp rfl rfl rfl (.inl rfl) (by simp) (by simp) rfl (.inr rfl) (by simp)⟩
  case h_17 hp =>
    cases hr
    exact ⟨_, _, .of_write h hp rfl rfl rfl (.inr rfl)
      (by simpa using h.locked p false (by rw [hp]; rfl)) (by simp) rfl (.inr rfl) (by simp)⟩
  case h_19 hp =>
    cases hr
    rw [hp] at hst
    refine ⟨.scan, .roused, hp, rfl, .stay rfl, .stay rfl, .inl rfl, by simp, ?_, by simp,
      ?_, by simp, fun q hq => ⟨?_, rfl⟩, by simp, fun _ q hx => ?_⟩
    · exact fun b hb => h.locked p b (by rwa [hp])
    · intro hx
      simp only [goto, wakeup1] at hx
      split_ifs at hx
      exact hst hx
    · intro hx
      simp only [goto, wakeup1] at hx
      split_ifs at hx
      exact hx
    · exact (h.scan_sleeps hp hx).elim
  case h_22 b hp => exact ⟨_, _, .acquire h hp hr (by cases b <;> decide) rfl rfl⟩
  case h_23 b hp =>
    cases hr
    cases b with
    | false =>
      generalize (s.lk.locked && s.lk.pid == pid p) = r
      exact ⟨_, _, .of_move h hp (by cases r <;> decide) (.stay rfl) (.stay rfl)⟩
    | true =>
      rw [h.locked p true (by rw [hp]; rfl), h.pid p (by rw [hp]; rfl), beq_self_eq_true,
        Bool.and_self]
      exact ⟨_, _, .of_move h hp (by decide) (.stay rfl) (.stay rfl)⟩
  case h_24 b r hp =>
    cases hr
    cases b
    · exact ⟨_, _, .of_move h hp (by cases r <;> decide) (.release rfl rfl) (.stay rfl)⟩
    · exact ⟨_, _, .of_move h hp (by cases r <;> decide) (.release rfl rfl) (.stay rfl)⟩

theorem step_inv {l : Label P} (h : s.Inv pid) (hw : s.Waits) (hs : s.step pid l = some s') :
    s'.Inv pid ∧ s'.Waits := by
  have hdone : (∃ p ph ph', Step pid p ph ph' s s') → s'.Inv pid ∧ s'.Waits := by
    rintro ⟨p, ph, ph', hx⟩
    exact ⟨hx.inv h, hx.waits hw⟩
  cases l with
  | acquiresleep p | releasesleep p =>
    simp only [step, guard_eq_some] at hs
    obtain ⟨hp, rfl⟩ := hs
    exact hdone ⟨p, _, _, .of_move h hp (by decide) (.stay rfl) (.stay rfl)⟩
  | holdingsleep p =>
    simp only [step] at hs
    split_ifs at hs with hp hp'
    · cases hs
      exact hdone ⟨p, _, _, .of_move h hp (by decide) (.stay rfl) (.stay rfl)⟩
    · cases hs
      exact hdone ⟨p, _, _, .of_move h hp' (by decide) (.stay rfl) (.stay rfl)⟩
  | run p => exact hdone ⟨p, run_step h hs⟩
  | enter | leave =>
    simp only [step, guard_eq_some] at hs
    obtain ⟨ht, rfl⟩ := hs
    refine ⟨{ h with ptable := fun p => ?_ }, hw⟩
    have hp := h.ptable p
    rw [ht] at hp
    simpa using hp
  | kill p =>
    simp only [step, guard_eq_some] at hs
    obtain ⟨ht, rfl⟩ := hs
    have hsub : ∀ q, (s.kill p).state q = .sleeping → s.state q = .sleeping :=
      upd_forall (F := fun q (x : ProcState) => x = .sleeping → s.state q = .sleeping)
        (fun hx => by split_ifs at hx; exact hx) fun _ _ => id
    exact ⟨{ h with state := fun q hx => h.state q (hsub q hx) }, fun q hq =>
      hw q (hq.imp_right (hsub q))⟩

omit [DecidableEq P] in
theorem inv_init : (init : Sys P).Inv pid := by
  constructor <;> simp [init]

theorem run_inv {ls : List (Label P)} (hrun : (sys pid).Run init ls s) : s.Inv pid ∧ s.Waits := by
  refine hrun.invariant (I := fun s => s.Inv pid ∧ s.Waits) ⟨inv_init, fun p hp => ?_⟩
    fun s₁ l s₂ h hs => ?_
  · simp [init] at hp
  · exact step_inv h.1 h.2 hs


end Sys

variable {P : Type*} [DecidableEq P] {pid : P → ℕ} {s : Sys P} {ls : List (Label P)}

/-- **Sleep locks are safe**: at most one process is between `acquiresleep` and `releasesleep`,
`lk->pid` is its pid, and nobody sleeps on a lock that is free. -/
theorem sleeplock_safe (hrun : (sys pid).Run .init ls s) :
    (∀ p q, (s.phase p).inside = true → (s.phase q).inside = true → p = q) ∧
    (∀ p, (s.phase p).inside = true → s.lk.locked = true ∧ s.lk.pid = pid p) ∧
    (s.lk.locked = false → s.lock = none → s.ptable = none →
      ∀ p, ¬ (s.state p = .sleeping ∧ s.chan p = true)) := by
  obtain ⟨h, hw⟩ := Sys.run_inv hrun
  refine ⟨fun p q hp hq => ?_, fun p hp => ⟨?_, ?_⟩, fun hl hlock hptable p hp => ?_⟩
  · exact h.owner p q (Phase.owns_of_signed (Phase.signed_of_inside hp))
      (Phase.owns_of_signed (Phase.signed_of_inside hq))
  · exact h.locked p true (Phase.knows_of_owns (Phase.owns_of_signed (Phase.signed_of_inside hp)))
  · exact h.pid p (Phase.signed_of_inside hp)
  rcases hw p (.inr hp.1) with hx | ⟨q, hq⟩
  · rw [hl] at hx
    cases hx
  -- whoever is bound to wake the sleepers holds `lk->lk`
  have hq := (h.lock q).1 (Phase.holds_of_owes hq)
  rw [hlock] at hq
  cases hq

/-- Process `false` takes the lock, and process `true` goes to sleep on it. -/
def contention : List (Label Bool) :=
  .acquiresleep false :: List.replicate 5 (.run false) ++ .acquiresleep true :: List.replicate 6
    (.run true)

/-- Process `false` gives the lock back. -/
def handBack : List (Label Bool) := .releasesleep false :: List.replicate 7 (.run false)

theorem sleeplock_safe_contention :
    (∃ s, (sys fun b => if b then 5 else 4).Run .init contention s ∧ s.state true = .sleeping ∧
      s.lk.pid = 4) ∧
    ∃ s, (sys fun b => if b then 5 else 4).Run .init (contention ++ handBack) s ∧
      ¬ (s.state true = .sleeping ∧ s.chan true = true) := by
  constructor
  · obtain ⟨s, hexec, hheld, hs⟩ : ∃ s, LTS.exec (Sys.step fun b => if b then 5 else 4) .init
      contention = some s ∧ s.phase false = .held ∧ s.state true = .sleeping := ⟨_, rfl, rfl, rfl⟩
    have hrun := LTS.run_of_exec hexec
    exact ⟨s, hrun, hs, ((sleeplock_safe hrun).2.1 false (by rw [hheld]; rfl)).2⟩
  obtain ⟨s, hexec, hl, hlock, hptable⟩ : ∃ s,
      LTS.exec (Sys.step fun b => if b then 5 else 4) .init (contention ++ handBack) = some s ∧
      s.lk.locked = false ∧ s.lock = none ∧ s.ptable = none := ⟨_, rfl, rfl, rfl, rfl⟩
  have hrun := LTS.run_of_exec hexec
  exact ⟨s, hrun, (sleeplock_safe hrun).2.2 hl hlock hptable true⟩

theorem holdingsleep_holder {p : P} {r : Bool} (hrun : (sys pid).Run .init ls s)
    (hp : s.phase p = .asked true r) :
    r = true :=
  (Sys.run_inv hrun).1.asked p r hp

end Sleeplock

end Xv6
