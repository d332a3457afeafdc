import Mathlib.Data.Fintype.Basic
import Xv6.Pipe.Fifo

/-!
# Sleepers of a pipe are woken

A process that sleeps on `&p->nread` waits for bytes or for the write side to be closed; one that
sleeps on `&p->nwrite` waits for space or for the read side to be closed.  Whoever makes the
condition true holds `p->lock` and calls `wakeup` before it releases the lock, with one exception:
`pipewrite` may store bytes, find the pipe full, and return -1 because it has been killed.

* `Pipe.lost_wakeup` : a reader sleeps although there are 512 bytes to read.
* `Pipe.Heeds` : the exceptional return does not happen while somebody sleeps on `&p->nread`.
* `Pipe.no_lost_wakeup` : **then no wakeup is lost.**
-/

namespace Xv6

namespace Pipe

variable {P : Type*}

/-- In the loop of `pipewrite`, from which it may give up. -/
def Phase.inWriteLoop : Phase → Bool
  | writeLoop .. => true
  | _ => false

/-- The two addresses that processes sleep on. -/
inductive Chan
  | nread
  | nwrite

namespace Chan

/-- The process is `SLEEPING` on the channel. -/
def asleep : Chan → Phase → Bool
  | nread, .readAsleep .. => true
  | nwrite, .writeAsleep .. => true
  | _, _ => false

/-- The process is `SLEEPING` on the channel, or about to be. -/
def sleeps : Chan → Phase → Bool
  | nread => Phase.onNread
  | nwrite => Phase.onNwrite

/-- A process has to wait: the pipe is empty but may be written, or full but may be read. -/
def mustWait : Chan → Pipe → Bool
  | nread, p => p.empty && p.writeopen
  | nwrite, p => p.full && p.readopen

/-- The holder of `p->lock` may have ended the wait and has yet to call `wakeup`. -/
def owes : Chan → Phase → Bool
  | nread, .writeLoop .. | nread, .writeFull .. | nread, .writeWake .. => true
  | nread, .closeWake true => true
  | nwrite, .readCopy .. | nwrite, .readWake .. | nwrite, .closeWake false => true
  | _, _ => false

/-- `wakeup` -/
def wake : Chan → Phase → Phase
  | nread => Phase.wakeNread
  | nwrite => Phase.wakeNwrite

variable {c c' : Chan} {p : Pipe} {ph ph' : Phase}

theorem sleeps_of_asleep (h : c.asleep ph) : c.sleeps ph := by
  cases c <;> cases ph <;> first | rfl | cases h

theorem sleeps_wake (h : ph.dozes = false) : c.sleeps (c.wake ph) = false := by
  cases c <;> cases ph <;> first | rfl | cases h

theorem sleeps_of_wake (h : c.sleeps (c'.wake ph)) : c.sleeps ph := by
  cases c <;> cases c' <;> cases ph <;> first | rfl | cases h

theorem owes_wake (d : Chan) (h : c.owes ph) : c.owes (d.wake ph) := by
  cases c <;> cases d <;> cases ph <;> exact h

theorem owes_move (h : ph.Moves p ph') (ho : c.owes ph) : c.owes ph' := by
  cases h <;> cases c <;> first | rfl | cases ho

theorem sleeps_move (h : ph.Moves p ph') : c.sleeps ph' = false := by cases h <;> cases c <;> rfl

theorem sleeps_acquire (h : ph.Acquires ph') : c.sleeps ph' = false := by
  cases h <;> cases c <;> rfl

theorem not_owes_of_sleeps (h : ph.Sleeps ph') : c.owes ph = false := by cases h <;> cases c <;> rfl

theorem sleeps_of_scheds (h : ph.Scheds ph') (hs : c.sleeps ph') : c.sleeps ph := by
  cases h <;> cases c <;> first | rfl | cases hs

theorem holds_of_owes (h : c.owes ph) : ph.holds := by
  cases c <;> cases ph <;> first | rfl | cases h

/-- The phase that `kill` leaves a process in that is not about to sleep. -/
theorem not_sleeps_kill (h : ph.dozes = false) : c.sleeps ph.wakeNread.wakeNwrite = false := by
  cases c <;> cases ph <;> first | rfl | cases h

/-- A process that falls asleep has tested its condition under the lock. -/
theorem mustWait_of_sleeps (h : ph.Sleeps ph') (hh : ph.Holding p) (hs : c.sleeps ph') :
    c.mustWait p := by
  cases h <;> cases c <;> first | simpa [mustWait, Phase.Holding] using hh | cases hs

end Chan

namespace Sys

/-- Some process is bound to call `wakeup` for the channel. -/
def Owes (s : Sys P) (c : Chan) : Prop := ∃ q, s.lock = some q ∧ c.owes (s.phase q)

/-- Every sleeper has to wait, or somebody is bound to wake it. -/
def Waits (s : Sys P) : Prop :=
  ∀ c p, c.sleeps (s.phase p) → c.mustWait s.pipe ∨ s.Owes c

theorem waits_init (data : ℕ → UInt8) : (init data : Sys P).Waits := by
  intro c p h
  cases c <;> cases h

variable {s s' : Sys P} {p q : P} {c : Chan}

theorem Inv.owes_iff (h : s.Inv) (hp : (s.phase p).holds) : s.Owes c ↔ c.owes (s.phase p) := by
  refine ⟨?_, fun ho => ⟨p, h.lock p hp, ho⟩⟩
  rintro ⟨q, hq, ho⟩
  rwa [Option.some.inj ((h.lock p hp).symm.trans hq)]

theorem not_owes_of_free (hl : s.lock = none) : ¬ s.Owes c := by
  rintro ⟨q, hq, -⟩
  rw [hl] at hq
  cases hq

variable [DecidableEq P] {f : P → Phase} {ph : Phase}

theorem owes_self (hphase : s'.phase = upd f p ph) (hl : s'.lock = some p) (ho : c.owes ph) :
    s'.Owes c :=
  ⟨p, hl, by rw [hphase]; simpa using ho⟩

/-- Nobody sleeps without a reason after process `p` has moved on to phase `ph`. -/
theorem waits_upd (hphase : s'.phase = upd f p ph)
    (hp : ∀ c : Chan, c.sleeps ph → c.mustWait s'.pipe ∨ s'.Owes c)
    (hq : ∀ (c : Chan) (q : P), c.sleeps (f q) → c.mustWait s'.pipe ∨ s'.Owes c) : s'.Waits := by
  intro c
  rw [hphase]
  exact upd_forall (F := fun _ ph => c.sleeps ph → c.mustWait s'.pipe ∨ s'.Owes c) (hp c)
    fun q _ => hq c q

namespace Waits

/-- A step of the holder of `p->lock` to a phase in which it does not sleep. -/
theorem change (h : s.Waits) (hi : s.Inv) (hp : (s.phase p).holds)
    (hphase : s'.phase = upd s.phase p ph) (hs : ∀ c : Chan, c.sleeps ph = false)
    (hw : ∀ c : Chan, c.mustWait s.pipe ∨ c.owes (s.phase p) → c.mustWait s'.pipe ∨ s'.Owes c) :
    s'.Waits :=
  waits_upd hphase (by simp [hs]) fun c q hq => hw c ((h c q hq).imp_right (hi.owes_iff hp).1)

theorem move (h : s.Waits) (hi : s.Inv) (hm : (s.phase p).Moves s.pipe ph) : (s.goto p ph).Waits :=
  h.change hi hm.holds rfl (fun _ => Chan.sleeps_move hm) fun _ hc =>
    hc.imp_right fun ho => owes_self rfl (hi.lock p hm.holds) (Chan.owes_move hm ho)

/-- Before a process takes `p->lock` nobody owes a wakeup. -/
theorem acquire (h : s.Waits) (ha : (s.phase p).Acquires ph) (hl : s.lock = none) :
    { s.goto p ph with lock := some p }.Waits :=
  waits_upd rfl (by simp [Chan.sleeps_acquire ha]) fun c q hq =>
    .inl ((h c q hq).resolve_right (not_owes_of_free hl))

theorem store (h : s.Waits) (hi : s.Inv) {w : WriteArgs} {i : ℕ} (hp : s.phase p = .writeLoop w i)
    (hf : s.pipe.full = false) : (s.store p w i).Waits := by
  have hh : (s.phase p).holds := by rw [hp]; rfl
  refine h.change hi hh rfl (fun c => by cases c <;> rfl) fun c hc => ?_
  cases c with
  | nread => exact .inr (owes_self rfl (hi.lock p hh) rfl)
  | nwrite =>
    -- nobody waits for space while there is some
    rw [hp] at hc
    simp [Chan.mustWait, hf, Chan.owes] at hc

theorem copy (h : s.Waits) (hi : s.Inv) {n : ℤ} {got : List UInt8}
    (hp : s.phase p = .readCopy n got) (he : s.pipe.empty = false) : (s.copy p n got).Waits := by
  have hh : (s.phase p).holds := by rw [hp]; rfl
  refine h.change hi hh rfl (fun c => by cases c <;> rfl) fun c hc => ?_
  cases c with
  | nread =>
    -- nobody waits for bytes while there are some
    rw [hp] at hc
    simp [Chan.mustWait, he, Chan.owes] at hc
  | nwrite => exact .inr (owes_self rfl (hi.lock p hh) rfl)

theorem shut (h : s.Waits) (hi : s.Inv) {b : Bool} (hp : s.phase p = .closeShut b) :
    { s.goto p (.closeWake b) with pipe := s.pipe.shut b }.Waits := by
  have hh : (s.phase p).holds := by rw [hp]; rfl
  refine h.change hi hh rfl (fun c => by cases c <;> rfl) fun c hc => ?_
  rw [hp] at hc
  cases b <;> cases c <;> rcases hc with hc | hc
  case false.nread.inl | true.nwrite.inl => exact .inl hc
  case false.nwrite.inl | true.nread.inl => exact .inr (owes_self rfl (hi.lock p hh) rfl)
  all_goals cases hc

theorem wakeup (h : s.Waits) (hi : s.Inv) (hp : (s.phase p).holds) (ht : s.ptable = none)
    {c : Chan} (hs : ∀ c : Chan, c.sleeps ph = false)
    (ho : ∀ c' : Chan, c'.owes (s.phase p) → c' = c) :
    ({ s with phase := fun q => c.wake (s.phase q) }.goto p ph).Waits := by
  refine waits_upd rfl (fun c' hc => by rw [hs c'] at hc; cases hc) fun c' q hq => .inl ?_
  refine (h c' q (Chan.sleeps_of_wake hq)).resolve_right fun ho' => ?_
  obtain rfl := ho c' ((hi.owes_iff hp).1 ho')
  rw [Chan.sleeps_wake (hi.not_dozes ht q)] at hq
  cases hq

theorem sleep (h : s.Waits) (hi : s.Inv) (hs : (s.phase p).Sleeps ph) :
    { s.goto p ph with ptable := some p, lock := none }.Waits := by
  refine waits_upd rfl (fun c hc => .inl (Chan.mustWait_of_sleeps hs (hi.holding p) hc))
    fun c q hq => .inl ((h c q hq).resolve_right fun ho => ?_)
  have := (hi.owes_iff hs.holds).1 ho
  rw [Chan.not_owes_of_sleeps hs] at this
  cases this

/-- A step by which a process neither falls asleep nor gives up a lock. -/
theorem outside (h : s.Waits) (hphase : s'.phase = upd s.phase p ph) (hl : s'.lock = s.lock)
    (hpipe : s'.pipe = s.pipe) (hs : ∀ c : Chan, c.sleeps ph → c.sleeps (s.phase p))
    (ho : ∀ c : Chan, c.owes (s.phase p) → c.owes ph) : s'.Waits := by
  have hw : ∀ (c : Chan) q, c.sleeps (s.phase q) → c.mustWait s'.pipe ∨ s'.Owes c := by
    intro c q hq
    rw [hpipe]
    refine (h c q hq).imp_right ?_
    rintro ⟨r, hr, hor⟩
    by_cases hrp : r = p
    · subst hrp
      exact owes_self hphase (hl.trans hr) (ho c hor)
    · exact ⟨r, hl.trans hr, by rw [hphase]; simpa [hrp] using hor⟩
  exact waits_upd hphase (fun c hc => hw c p (hs c hc)) hw

theorem run (h : s.Waits) (hi : s.Inv) (hr : s.Runs p (s.phase p) s') : s'.Waits := by
  cases hr with
  | move hm => exact h.move hi hm
  | acquire ha hl => exact h.acquire ha hl
  | store hp _ hf => exact h.store hi hp hf
  | copy hp he => exact h.copy hi hp he
  | wakeNread hw ht =>
    refine h.wakeup (c := .nread) hi hw.holds ht (fun c => ?_) fun c' => ?_ <;>
      generalize s.phase p = ph₀ at hw
    · cases hw <;> cases c <;> rfl
    · cases hw <;> cases c' <;> first | exact fun _ => rfl | nofun
  | wakeNwrite hw ht =>
    refine h.wakeup (c := .nwrite) hi hw.holds ht (fun c => ?_) fun c' => ?_ <;>
      generalize s.phase p = ph₀ at hw
    · cases hw <;> cases c <;> rfl
    · cases hw <;> cases c' <;> first | exact fun _ => rfl | nofun
  | sleep hs => exact h.sleep hi hs
  | sched hs =>
    refine h.outside rfl rfl rfl (fun c => Chan.sleeps_of_scheds hs) fun c ho => ?_
    have := Chan.holds_of_owes ho
    generalize s.phase p = ph₀ at hs this
    cases hs <;> cases this
  | shut hp => exact h.shut hi hp

end Waits

end Sys

/-- A process in the loop of `pipewrite`, where it may have stored bytes that it has told nobody
about, returns only while no process sleeps on `&p->nread`. -/
def Heeds (s : Sys P) : Label P → Prop
  | .ret p _ => (s.phase p).inWriteLoop → ∀ q, (s.phase q).onNread = false
  | _ => True

instance [Fintype P] (s : Sys P) : ∀ l, Decidable (Heeds s l)
  | .ret p _ =>
    inferInstanceAs (Decidable ((s.phase p).inWriteLoop → ∀ q, (s.phase q).onNread = false))
  | .call .. | .run _ | .kill _ => isTrue trivial

namespace Sys

variable [DecidableEq P] {s s' : Sys P}

/-- Returning owes nothing to anybody, if `pipewrite` heeds the readers when it gives up. -/
theorem Waits.release {p : P} {v : ℤ} (h : s.Waits) (hi : s.Inv) (hr : s.Returns p (s.phase p) v)
    (hc : Heeds s (.ret p v)) : (s.release p).Waits := by
  refine waits_upd rfl (fun c hs => by cases c <;> cases hs) fun c q hq =>
    .inl ((h c q hq).resolve_right fun ho => ?_)
  have howes := (hi.owes_iff hr.holds).1 ho
  simp only [Heeds] at hc
  generalize s.phase p = ph at hr howes hc
  cases hr with
  | gaveUp =>
    cases c with
    | nread => exact absurd hq (by simp [Chan.sleeps, hc rfl q])
    | nwrite => cases howes
  | wrote | killed | read | closed => cases c <;> cases howes

theorem Waits.step {l : Label P} (h : s.Waits) (hi : s.Inv) (hs : s.step l = some s')
    (hc : Heeds s l) : s'.Waits := by
  obtain ⟨p, c, rfl, hp, rfl⟩ | ⟨p, rfl, hr⟩ | ⟨p, v, rfl, hr, rfl⟩ | ⟨p, rfl, ht, rfl⟩ :=
    step_cases hs
  · refine h.outside rfl rfl rfl (fun ch => ?_) fun ch ho => ?_
    · cases c <;> cases ch <;> nofun
    · rw [hp] at ho
      cases ch <;> cases ho
  · exact h.run hi hr
  · exact h.release hi hr hc
  · refine h.outside rfl rfl rfl (fun c hc => ?_) fun c ho => ?_
    · rw [Chan.not_sleeps_kill (hi.not_dozes ht p)] at hc
      cases hc
    · exact Chan.owes_wake .nwrite (Chan.owes_wake .nread ho)

end Sys

variable [DecidableEq P] {s : Sys P}

/-- **No wakeup is lost** while `pipewrite` heeds the readers when it gives up: in every state with
both locks free, a process asleep on `&p->nread` sleeps at an empty pipe whose write side is open,
and a process asleep on `&p->nwrite` sleeps at a full pipe whose read side is open. -/
theorem no_lost_wakeup {data : ℕ → UInt8} {ls : List (Label P)}
    (h : ((sys P).restrict Heeds).Run (.init data) ls s) (hl : s.lock = none) (p : P) :
    (Chan.nread.asleep (s.phase p) → s.pipe.nread = s.pipe.nwrite ∧ s.pipe.writeopen) ∧
    (Chan.nwrite.asleep (s.phase p) →
      s.pipe.nwrite = (s.pipe.nread + pipeSize) % uintSize ∧ s.pipe.readopen) := by
  have hw : s.Waits := (h.invariant (I := fun s => s.Inv ∧ s.Waits)
    ⟨Sys.inv_init data, Sys.waits_init data⟩ fun _ _ _ hi hs =>
      ⟨hi.1.step hs.1, hi.2.step hi.1 hs.1 hs.2⟩).2
  have hwait : ∀ c : Chan, c.asleep (s.phase p) → c.mustWait s.pipe := fun c hc =>
    (hw c p (Chan.sleeps_of_asleep hc)).resolve_right (Sys.not_owes_of_free hl)
  constructor
  · intro hc
    simpa [Chan.mustWait, empty] using hwait .nread hc
  · intro hc
    simpa [Chan.mustWait, full] using hwait .nwrite hc

/-- A reader goes to sleep at the empty pipe and a writer fills it while nobody reads. -/
def fillRun : List (Label Bool) :=
  [.call false (.read 1), .run false, .run false, .run false, .run false,
    .call true (.write (fun _ => 0) 513)] ++ List.replicate 513 (.run true)

theorem no_lost_wakeup_fillRun :
    ∃ s, ((sys Bool).restrict Heeds).Run (.init fun _ => 0) (fillRun.take 5) s ∧ s.lock = none ∧
      Chan.nread.asleep (s.phase false) ∧ s.pipe.nread = s.pipe.nwrite ∧ s.pipe.writeopen := by
  obtain ⟨s, hs, hd⟩ := Option.map_eq_some_iff.1 (show
    (LTS.exec (fun s l => if Heeds s l then Sys.step s l else none) (.init fun _ => 0)
      (fillRun.take 5)).map (fun s => (s.lock, Chan.nread.asleep (s.phase false))) =
        some (none, true) by decide +kernel)
  obtain ⟨hl, ha⟩ := Prod.mk.inj hd
  have hrun := LTS.run_restrict_of_exec hs
  exact ⟨s, hrun, hl, ha, (no_lost_wakeup hrun hl false).1 ha⟩

/-- **A lost wakeup.**  The writer is killed while it fills the pipe and returns -1 from its loop:
the reader sleeps on although there are 512 bytes to read. -/
theorem lost_wakeup :
    ∃ s, (sys Bool).Run (.init fun _ => 0) (fillRun ++ [.kill true, .ret true (-1)]) s ∧
      s.lock = none ∧ s.ptable = none ∧ Chan.nread.asleep (s.phase false) ∧
      s.pipe.nread = 0 ∧ s.pipe.nwrite = 512 := by
  obtain ⟨s, hs, hd⟩ := Option.map_eq_some_iff.1 (show
    (LTS.exec Sys.step (.init fun _ => 0) (fillRun ++ [.kill true, .ret true (-1)])).map
      (fun s => (s.lock, s.ptable, Chan.nread.asleep (s.phase false), s.pipe.nread,
        s.pipe.nwrite)) = some (none, none, true, 0, 512) by decide +kernel)
  simp only [Prod.mk.injEq] at hd
  exact ⟨s, LTS.run_of_exec hs, hd⟩

end Pipe

end Xv6
