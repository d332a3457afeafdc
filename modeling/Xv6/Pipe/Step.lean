import Xv6.Pipe.Protocol

/-!
# What a step of a pipe call does

`Sys.Runs` lists what the next step of a process can do, by the phase that it is in; the theorem
`Sys.run_inv` reads it off the step function, so that the invariants of the pipe never look at the
functions again.
-/

namespace Xv6

namespace Pipe

variable {P : Type*} [DecidableEq P]

namespace Phase

/-- The holder of `p->lock` moves on by a test that leaves the pipe as it is. -/
inductive Moves (p : Pipe) : Phase → Phase → Prop
  | full {w : WriteArgs} {i : ℕ} (hf : p.full) (ho : p.readopen) : Moves p (writeLoop w
      i) (writeFull w i)
  | wrote {w : WriteArgs} {i : ℕ} (hi : w.n ≤ i) : Moves p (writeLoop w i) (writeWake w)
  | empty {n : ℤ} (he : p.empty) (ho : p.writeopen) : Moves p (readLoop n) (readSleep n)
  | ready {n : ℤ} (h : p.empty → p.writeopen = false) : Moves p (readLoop n) (readCopy n [])
  | copied {n : ℤ} {got : List UInt8} (h : (got.length : ℤ) < n → p.empty) :
      Moves p (readCopy n got) (readWake n got)

/-- The phases before and after `acquire(&p->lock)`. -/
inductive Acquires : Phase → Phase → Prop
  | write (w : WriteArgs) (i : ℕ) : Acquires (writeAcquire w i) (writeLoop w i)
  | read (n : ℤ) : Acquires (readAcquire n) (readLoop n)
  | close (b : Bool) : Acquires (closeAcquire b) (closeShut b)

/-- The phases before and after `wakeup(&p->nread)`. -/
inductive WakesNread : Phase → Phase → Prop
  | full (w : WriteArgs) (i : ℕ) : WakesNread (writeFull w i) (writeSleep w i)
  | wrote (w : WriteArgs) : WakesNread (writeWake w) (writeDone w)
  | close : WakesNread (closeWake true) closeDone

/-- The phases before and after `wakeup(&p->nwrite)`. -/
inductive WakesNwrite : Phase → Phase → Prop
  | copied (n : ℤ) (got : List UInt8) : WakesNwrite (readWake n got) (readDone n got)
  | close : WakesNwrite (closeWake false) closeDone

/-- The phases before and after the first part of `sleep`. -/
inductive Sleeps : Phase → Phase → Prop
  | write (w : WriteArgs) (i : ℕ) : Sleeps (writeSleep w i) (writeDoze w i)
  | read (n : ℤ) : Sleeps (readSleep n) (readDoze n)

/-- The phases before and after the second part of `sleep`. -/
inductive Scheds : Phase → Phase → Prop
  | write (w : WriteArgs) (i : ℕ) : Scheds (writeDoze w i) (writeAsleep w i)
  | read (n : ℤ) : Scheds (readDoze n) (readAsleep n)

variable {p : Pipe} {ph ph' : Phase}

theorem Moves.holds (h : Moves p ph ph') : ph.holds := by cases h <;> rfl

theorem Moves.dozes (h : Moves p ph ph') : ph'.dozes = false := by cases h <;> rfl

theorem Acquires.dozes (h : Acquires ph ph') : ph'.dozes = false := by cases h <;> rfl

theorem WakesNread.holds (h : WakesNread ph ph') : ph.holds := by cases h <;> rfl

theorem WakesNread.dozes (h : WakesNread ph ph') : ph'.dozes = false := by cases h <;> rfl

theorem WakesNwrite.holds (h : WakesNwrite ph ph') : ph.holds := by cases h <;> rfl

theorem WakesNwrite.dozes (h : WakesNwrite ph ph') : ph'.dozes = false := by cases h <;> rfl

theorem Sleeps.holds (h : Sleeps ph ph') : ph.holds := by cases h <;> rfl

theorem Sleeps.not_holds (h : Sleeps ph ph') : ph'.holds = false := by cases h <;> rfl

theorem Scheds.dozes (h : Scheds ph ph') : ph.dozes := by cases h <;> rfl

theorem Scheds.not_holds (h : Scheds ph ph') : ph'.holds = false := by cases h <;> rfl

theorem Scheds.not_dozes (h : Scheds ph ph') : ph'.dozes = false := by cases h <;> rfl

end Phase

namespace Sys

/-- What the next step of process `p`, in phase `ph`, does to the state. -/
inductive Runs (s : Sys P) (p : P) (ph : Phase) : Sys P → Prop
  | move {ph'} (h : ph.Moves s.pipe ph') : Runs s p ph (s.goto p ph')
  | acquire {ph'} (h : ph.Acquires ph') (hl : s.lock = none) :
      Runs s p ph { s.goto p ph' with lock := some p }
  | store {w i} (h : ph = .writeLoop w i) (hi : (i : ℤ) < w.n) (hf : s.pipe.full = false) :
      Runs s p ph (s.store p w i)
  | copy {n got} (h : ph = .readCopy n got) (he : s.pipe.empty = false) :
      Runs s p ph (s.copy p n got)
  | wakeNread {ph'} (h : ph.WakesNread ph') (ht : s.ptable = none) :
      Runs s p ph ({ s with phase := fun q => (s.phase q).wakeNread }.goto p ph')
  | wakeNwrite {ph'} (h : ph.WakesNwrite ph') (ht : s.ptable = none) :
      Runs s p ph ({ s with phase := fun q => (s.phase q).wakeNwrite }.goto p ph')
  | sleep {ph'} (h : ph.Sleeps ph') (ht : s.ptable = none) :
      Runs s p ph { s.goto p ph' with ptable := some p, lock := none }
  | sched {ph'} (h : ph.Scheds ph') : Runs s p ph (s.sched p ph')
  | shut {b} (h : ph = .closeShut b) :
      Runs s p ph { s.goto p (.closeWake b) with pipe := s.pipe.shut b }

theorem acquire_inv {s s' : Sys P} {p : P} {ph ph' : Phase} (h : s.acquire p ph' = some s')
    (ha : ph.Acquires ph') : Runs s p ph s' := by
  unfold Sys.acquire at h
  split_ifs at h with hc
  cases h
  exact .acquire ha hc.1

theorem writeLoop_inv {s s' : Sys P} {p : P} {w : WriteArgs} {i : ℕ}
    (h : s.writeLoop p w i = some s') : Runs s p (.writeLoop w i) s' := by
  unfold Sys.writeLoop at h
  split_ifs at h with hi hf hc <;> cases h
  · exact .move (.full hf (by simpa using not_or.1 hc |>.1))
  · exact .store rfl hi (by simpa using hf)
  · exact .move (.wrote (not_lt.1 hi))

theorem readLoop_inv {s s' : Sys P} {p : P} {n : ℤ} (h : s.readLoop p n = some s') :
    Runs s p (.readLoop n) s' := by
  unfold Sys.readLoop at h
  split_ifs at h with he hk <;> cases h
  · exact .move (.empty he.1 he.2)
  · exact .move (.ready fun h1 => by simpa [h1] using he)

theorem readCopy_inv (s : Sys P) (p : P) (n : ℤ) (got : List UInt8) :
    Runs s p (.readCopy n got) (s.readCopy p n got) := by
  unfold Sys.readCopy
  split_ifs with hn he
  · exact .move (.copied fun _ => he)
  · exact .copy rfl (by simpa using he)
  · exact .move (.copied fun h => absurd h hn)

theorem wakeup_eq {s s' : Sys P} {p : P} {wake : Phase → Phase} {ph : Phase}
    (h : s.wakeup p wake ph = some s') :
    s.ptable = none ∧ s' = { s with phase := fun q => wake (s.phase q) }.goto p ph := by
  unfold Sys.wakeup at h
  split_ifs at h with ht
  exact ⟨ht, (Option.some.inj h).symm⟩

theorem sleep_inv {s s' : Sys P} {p : P} {ph ph' : Phase} (h : s.sleep p ph' = some s')
    (hs : ph.Sleeps ph') : Runs s p ph s' := by
  unfold Sys.sleep at h
  split_ifs at h with ht
  cases h
  exact .sleep hs ht

theorem run_inv {s s' : Sys P} {p : P} (h : s.run p = some s') : Runs s p (s.phase p) s' := by
  unfold Sys.run at h
  cases hph : s.phase p with
  | writeAcquire w i => rw [hph] at h; exact acquire_inv h (.write w i)
  | writeLoop w i => rw [hph] at h; exact writeLoop_inv h
  | writeFull w i =>
    rw [hph] at h
    obtain ⟨ht, rfl⟩ := wakeup_eq h
    exact .wakeNread (.full w i) ht
  | writeSleep w i => rw [hph] at h; exact sleep_inv h (.write w i)
  | writeDoze w i => rw [hph] at h; obtain rfl := Option.some.inj h; exact .sched (.write w i)
  | writeWake w =>
    rw [hph] at h
    obtain ⟨ht, rfl⟩ := wakeup_eq h
    exact .wakeNread (.wrote w) ht
  | readAcquire n => rw [hph] at h; exact acquire_inv h (.read n)
  | readLoop n => rw [hph] at h; exact readLoop_inv h
  | readSleep n => rw [hph] at h; exact sleep_inv h (.read n)
  | readDoze n => rw [hph] at h; obtain rfl := Option.some.inj h; exact .sched (.read n)
  | readCopy n got =>
    rw [hph] at h
    cases h
    exact readCopy_inv s p n got
  | readWake n got =>
    rw [hph] at h
    obtain ⟨ht, rfl⟩ := wakeup_eq h
    exact .wakeNwrite (.copied n got) ht
  | closeAcquire b => rw [hph] at h; exact acquire_inv h (.close b)
  | closeShut b => rw [hph] at h; obtain rfl := Option.some.inj h; exact .shut rfl
  | closeWake b =>
    rw [hph] at h
    cases b with
    | true => obtain ⟨ht, rfl⟩ := wakeup_eq h; exact .wakeNread .close ht
    | false => obtain ⟨ht, rfl⟩ := wakeup_eq h; exact .wakeNwrite .close ht
  | idle | writeAsleep | writeDone | readAsleep | readDone | closeDone => rw [hph] at h; cases h

/-- The call that process `p` is in, in phase `ph`, returns `v`. -/
inductive Returns (s : Sys P) (p : P) : Phase → ℤ → Prop
  | gaveUp {w : WriteArgs} {i : ℕ} (hi : (i : ℤ) < w.n) (hf : s.pipe.full)
      (hk : s.pipe.readopen = false ∨ s.killed p) : Returns s p (.writeLoop w i) (-1)
  | wrote {w : WriteArgs} : Returns s p (.writeDone w) w.n
  | killed {n : ℤ} (he : s.pipe.empty) (ho : s.pipe.writeopen) (hk : s.killed p) :
      Returns s p (.readLoop n) (-1)
  | read {n : ℤ} {got : List UInt8} : Returns s p (.readDone n got) got.length
  | closed : Returns s p .closeDone 0

omit [DecidableEq P] in
theorem Returns.holds {s : Sys P} {p : P} {ph : Phase} {v : ℤ} (h : Returns s p ph v) :
    ph.holds := by
  cases h <;> rfl

omit [DecidableEq P] in
theorem result_inv {s : Sys P} {p : P} {v : ℤ} (h : s.result p = some v) :
    Returns s p (s.phase p) v := by
  unfold result at h
  cases hph : s.phase p with
  | writeLoop w i =>
    rw [hph] at h
    simp only [guard_eq_some] at h
    obtain ⟨⟨hi, hf, hk⟩, rfl⟩ := h
    exact .gaveUp hi hf hk
  | readLoop n =>
    rw [hph] at h
    simp only [guard_eq_some] at h
    obtain ⟨⟨he, ho, hk⟩, rfl⟩ := h
    exact .killed he ho hk
  | writeDone w => rw [hph] at h; cases h; exact .wrote
  | readDone n got => rw [hph] at h; cases h; exact .read
  | closeDone => rw [hph] at h; cases h; exact .closed
  | _ => rw [hph] at h; cases h

theorem step_cases {s s' : Sys P} {l : Label P} (h : s.step l = some s') :
    (∃ p c, l = .call p c ∧ s.phase p = .idle ∧
      s' = { s.goto p (s.start c) with calls := s.calls + 1 }) ∨
    (∃ p, l = .run p ∧ Runs s p (s.phase p) s') ∨
    (∃ p v, l = .ret p v ∧ Returns s p (s.phase p) v ∧ s' = s.release p) ∨
    (∃ p, l = .kill p ∧ s.ptable = none ∧ s' = s.kill p) := by
  cases l with
  | call p c =>
    refine .inl ⟨p, c, rfl, ?_⟩
    simp only [step] at h
    cases hph : s.phase p <;> rw [hph] at h <;> cases h
    exact ⟨rfl, rfl⟩
  | run p => exact .inr (.inl ⟨p, rfl, run_inv h⟩)
  | ret p v =>
    simp only [step] at h
    split_ifs at h with hr
    cases h
    exact .inr (.inr (.inl ⟨p, v, rfl, result_inv hr, rfl⟩))
  | kill p =>
    simp only [step] at h
    split_ifs at h with ht
    cases h
    exact .inr (.inr (.inr ⟨p, rfl, ht, rfl⟩))

end Sys

end Pipe

end Xv6
