import Xv6.Pipe.Step

/-!
# A pipe is a first-in first-out stream of bytes

The invariant `Sys.Inv` of all interleavings relates the ring buffer to the ghost streams:

* what `piperead` has copied out, followed by what is in the buffer, is what `pipewrite` has stored;
* the holder of `p->lock` is the only process whose phase speaks about the pipe (`Phase.Holding`);
* a call of `pipewrite` has stored the first `i` of its bytes, in order (`Phase.Stored`).

The calls of `piperead` that a run completes (`Sys.reads`) have together copied out what was
delivered, but for the bytes that the call holding `p->lock` has copied so far (`Sys.Delivers`).

`Pipe.fifo` reads the properties of the stream off the two.
-/

namespace Xv6

open List

namespace Pipe

variable {P : Type*}

@[simp] theorem shut_ring (p : Pipe) (b : Bool) : (p.shut b).ring = p.ring := by
  cases b <;> rfl

theorem pipeSize_dvd : pipeSize ∣ uintSize := by decide

theorem pipeSize_lt : pipeSize < uintSize := by decide

/-- The counters of the pipe are in step with each other. -/
abbrev Ok (p : Pipe) : Prop := p.ring.Ok uintSize pipeSize

variable {p : Pipe}

theorem Ok.full_eq (h : p.Ok) : p.full = true ↔ p.used = pipeSize := 
  decide_eq_true_iff.trans (Ring.Ok.full_iff h pipeSize_lt)

theorem Ok.empty_eq (h : p.Ok) : p.empty = true ↔ p.used = 0 := 
  decide_eq_true_iff.trans (Ring.Ok.empty_iff h)

theorem Ok.used_lt (h : p.Ok) (hf : p.full = false) : p.used < pipeSize := by
  refine lt_of_le_of_ne h.used_le fun he => ?_
  simp [h.full_eq.2 he] at hf

theorem Ok.used_pos (h : p.Ok) (he : p.empty = false) : 0 < p.used := by
  refine Nat.pos_of_ne_zero fun h0 => ?_
  simp [h.empty_eq.2 h0] at he

theorem Ok.put (h : p.Ok) (hf : p.full = false) (b : UInt8) : (p.put b).Ok :=
  Ring.Ok.push h pipeSize_lt (h.used_lt hf)

theorem Ok.drop (h : p.Ok) (he : p.empty = false) : p.drop.Ok := Ring.Ok.pop h (h.used_pos he)

theorem Ok.contents_put (h : p.Ok) (hf : p.full = false) (b : UInt8) :
    (p.put b).contents = p.contents ++ [b] :=
  Ring.contents_push h pipeSize_lt pipeSize_dvd (h.used_lt hf)

theorem Ok.contents_drop (h : p.Ok) (he : p.empty = false) :
    p.contents = p.next :: p.drop.contents :=
  Ring.contents_pop h pipeSize_dvd (h.used_pos he)

@[simp] theorem contents_shut (p : Pipe) (b : Bool) : (p.shut b).contents = p.contents := by
  simp [contents]

namespace Phase

/-- The call of `pipewrite` that the process is in, and the number of bytes stored. -/
def writing : Phase → Option (WriteArgs × ℕ)
  | writeAcquire w i | writeLoop w i | writeFull w i | writeSleep w i | writeDoze w i
  | writeAsleep w i => some (w, i)
  | writeWake w | writeDone w => some (w, w.n.toNat)
  | _ => none

/-- What the holder of `p->lock` knows about the pipe. -/
def Holding (p : Pipe) : Phase → Prop
  | writeFull .. | writeSleep .. => p.full ∧ p.readopen
  | readSleep _ => p.empty ∧ p.writeopen
  | readCopy _ got => got = [] → p.empty → p.writeopen = false
  | readWake n got | readDone n got => got = [] → 0 < n → p.empty ∧ p.writeopen = false
  | _ => True

/-- The bytes that call number `id` has stored. -/
def storedBy (stored : List (ℕ × UInt8)) (id : ℕ) : List UInt8 :=
  (stored.filter fun x => x.1 = id).map Prod.snd

/-- The call of `pipewrite` has stored its first bytes, in order. -/
def Stored (stored : List (ℕ × UInt8)) (ph : Phase) : Prop :=
  ∀ w i, ph.writing = some (w, i) →
    i ≤ w.n.toNat ∧ storedBy stored w.id = (List.range i).map w.addr

@[simp] theorem writing_wakeNread (ph : Phase) : ph.wakeNread.writing = ph.writing := by
  cases ph <;> rfl

@[simp] theorem writing_wakeNwrite (ph : Phase) : ph.wakeNwrite.writing = ph.writing := by
  cases ph <;> rfl

@[simp] theorem holds_wakeNread (ph : Phase) : ph.wakeNread.holds = ph.holds := by
  cases ph <;> rfl

@[simp] theorem holds_wakeNwrite (ph : Phase) : ph.wakeNwrite.holds = ph.holds := by
  cases ph <;> rfl

@[simp] theorem dozes_wakeNread (ph : Phase) : ph.wakeNread.dozes = ph.dozes := by
  cases ph <;> rfl

@[simp] theorem dozes_wakeNwrite (ph : Phase) : ph.wakeNwrite.dozes = ph.dozes := by
  cases ph <;> rfl

theorem Holding.of_not_holds {ph : Phase} (h : ph.holds = false) (p : Pipe) : ph.Holding p := by
  cases ph <;> trivial

theorem Holding.wakeNread {p : Pipe} {ph : Phase} (h : ph.Holding p) : ph.wakeNread.Holding p := by
  cases ph <;> exact h

theorem Holding.wakeNwrite {p : Pipe} {ph : Phase} (h : ph.Holding p) :
    ph.wakeNwrite.Holding p := by
  cases ph <;> exact h

section

variable {p : Pipe} {ph ph' : Phase} {stored : List (ℕ × UInt8)}

/-- The loop has stored no more than `n` bytes, so at its end it has stored exactly `n`. -/
theorem Moves.writing (h : Moves p ph ph') (hs : ph.Stored stored) : ph.writing = ph'.writing := by
  cases h with
  | @wrote w i hi =>
    have := (hs w i rfl).1
    simp only [Phase.writing, show w.n.toNat = i by omega]
  | full | empty | ready | copied => rfl

theorem Moves.holding (h : Moves p ph ph') (hh : ph.Holding p) : ph'.Holding p := by
  cases h with
  | full hf ho => exact ⟨hf, ho⟩
  | wrote => trivial
  | empty he ho => exact ⟨he, ho⟩
  | ready hr => exact fun _ => hr
  | copied hc =>
    rintro rfl hn
    exact ⟨hc hn, hh rfl (hc hn)⟩

theorem Acquires.writing (h : Acquires ph ph') : ph.writing = ph'.writing := by cases h <;> rfl

theorem Acquires.holding (h : Acquires ph ph') : ph'.Holding p := by cases h <;> trivial

theorem WakesNread.writing (h : WakesNread ph ph') : ph.writing = ph'.writing := by cases h <;> rfl

theorem WakesNread.holding (h : WakesNread ph ph') (hh : ph.Holding p) : ph'.Holding p := by
  cases h <;> exact hh

theorem WakesNwrite.writing (h : WakesNwrite ph ph') : ph.writing = ph'.writing := by
  cases h <;> rfl

theorem WakesNwrite.holding (h : WakesNwrite ph ph') (hh : ph.Holding p) : ph'.Holding p := by
  cases h <;> exact hh

theorem Sleeps.writing (h : Sleeps ph ph') : ph.writing = ph'.writing := by cases h <;> rfl

theorem Scheds.writing (h : Scheds ph ph') : ph.writing = ph'.writing := by cases h <;> rfl

end

theorem storedBy_append_ne {stored : List (ℕ × UInt8)} {id id' : ℕ} (h : id' ≠ id) (b : UInt8) :
    storedBy (stored ++ [(id', b)]) id = storedBy stored id := by
  simp [storedBy, h]

theorem storedBy_append_self {stored : List (ℕ × UInt8)} {id : ℕ} (b : UInt8) :
    storedBy (stored ++ [(id, b)]) id = storedBy stored id ++ [b] := by
  simp [storedBy]

end Phase

namespace Sys

/-- The invariant of all interleavings. -/
structure Inv (s : Sys P) : Prop where
  ok : s.pipe.Ok
  fifo : s.delivered ++ s.pipe.contents = s.stored.map Prod.snd
  lock : ∀ p, (s.phase p).holds → s.lock = some p
  ptable : ∀ p, (s.phase p).dozes → s.ptable = some p
  id_lt : ∀ p w i, (s.phase p).writing = some (w, i) → w.id < s.calls
  id_inj : ∀ p q w w' i i', (s.phase p).writing = some (w, i) →
    (s.phase q).writing = some (w', i') → w.id = w'.id → p = q
  tag_lt : ∀ x ∈ s.stored, x.1 < s.calls
  holding : ∀ p, (s.phase p).Holding s.pipe
  written : ∀ p, (s.phase p).Stored s.stored

theorem inv_init (data : ℕ → UInt8) : (init data : Sys P).Inv where
  ok := ⟨Nat.two_pow_pos 32, Nat.two_pow_pos 32, by simp [init, ring, Ring.used]⟩
  fifo := by simp [init, contents, ring, Ring.contents, Ring.used]
  lock := by simp [init, Phase.holds]
  ptable := by simp [init, Phase.dozes]
  id_lt := by simp [init, Phase.writing]
  id_inj := by simp [init, Phase.writing]
  tag_lt := by simp [init]
  holding := fun _ => trivial
  written := by simp [init, Phase.Stored, Phase.writing]

/-- Process `q` may be in phase `ph` while the locks are held by `lock` and `ptable`, the pipe and
the streams being those of `s`. -/
structure Fits (s : Sys P) (lock ptable : Option P) (q : P) (ph : Phase) : Prop where
  lock : ph.holds → lock = some q
  ptable : ph.dozes → ptable = some q
  writing : ∀ x, ph.writing = some x → (s.phase q).writing = some x
  holding : ph.Holding s.pipe

variable {s s' : Sys P} {p q : P}

namespace Inv

theorem not_holds (h : s.Inv) (hp : (s.phase p).holds) (hq : q ≠ p) :
    (s.phase q).holds = false := by
  by_contra hc
  have h1 := h.lock p hp
  rw [h.lock q (by simpa using hc)] at h1
  exact hq (Option.some.inj h1)

theorem not_holds_of_free (h : s.Inv) (hl : s.lock = none) (q : P) : (s.phase q).holds = false := by
  by_contra hc
  have := h.lock q (by simpa using hc)
  rw [hl] at this
  cases this

/-- While `ptable.lock` is free nobody is about to fall asleep. -/
theorem not_dozes (h : s.Inv) (ht : s.ptable = none) (q : P) : (s.phase q).dozes = false := by
  by_contra hc
  have := h.ptable q (by simpa using hc)
  rw [ht] at this
  cases this

theorem rephase (h : s.Inv) (hp : s'.pipe = s.pipe) (hs : s'.stored = s.stored)
    (hd : s'.delivered = s.delivered) (hc : s'.calls = s.calls)
    (hf : ∀ q, s.Fits s'.lock s'.ptable q (s'.phase q)) : s'.Inv where
  ok := hp ▸ h.ok
  fifo := by rw [hp, hs, hd]; exact h.fifo
  lock := fun q => (hf q).lock
  ptable := fun q => (hf q).ptable
  id_lt := fun q w i hq => hc ▸ h.id_lt q w i ((hf q).writing _ hq)
  id_inj := fun q r w w' i i' hq hr =>
    h.id_inj q r w w' i i' ((hf q).writing _ hq) ((hf r).writing _ hr)
  tag_lt := by rw [hs, hc]; exact h.tag_lt
  holding := fun q => hp ▸ (hf q).holding
  written := fun q w i hq => hs ▸ h.written q w i ((hf q).writing _ hq)

/-- A process that holds no lock fits whoever holds them. -/
theorem fits (h : s.Inv) {lock ptable : Option P} (hl : (s.phase q).holds → lock = some q)
    (ht : (s.phase q).dozes → ptable = some q) : s.Fits lock ptable q (s.phase q) :=
  ⟨hl, ht, fun _ => id, h.holding q⟩

variable [DecidableEq P]

theorem move (h : s.Inv) {ph : Phase} (hm : (s.phase p).Moves s.pipe ph) : (s.goto p ph).Inv :=
  h.rephase rfl rfl rfl rfl <| upd_forall (F := s.Fits s.lock s.ptable)
    ⟨fun _ => h.lock p hm.holds, by simp [hm.dozes], fun _ hx => hm.writing (h.written p) ▸ hx,
      hm.holding (h.holding p)⟩
    fun q _ => h.fits (h.lock q) (h.ptable q)

theorem acquire (h : s.Inv) {ph : Phase} (ha : (s.phase p).Acquires ph) (hl : s.lock = none) :
    { s.goto p ph with lock := some p }.Inv :=
  h.rephase rfl rfl rfl rfl <| upd_forall (F := s.Fits (some p) s.ptable)
    ⟨fun _ => rfl, by simp [ha.dozes], fun _ hx => ha.writing ▸ hx, ha.holding⟩
    fun q _ => h.fits (by simp [h.not_holds_of_free hl q]) (h.ptable q)

/-- `wakeup` changes phases in a way that the invariant does not notice. -/
theorem wakeup (h : s.Inv) {wake : Phase → Phase} {ph : Phase} (hp : (s.phase p).holds)
    (hwr : ∀ ph, (wake ph).writing = ph.writing) (hho : ∀ ph, (wake ph).holds = ph.holds)
    (hdo : ∀ ph, (wake ph).dozes = ph.dozes)
    (hhg : ∀ ph, ph.Holding s.pipe → (wake ph).Holding s.pipe) (hd : ph.dozes = false)
    (hw : (s.phase p).writing = ph.writing) (hh : ph.Holding s.pipe) :
    ({ s with phase := fun q => wake (s.phase q) }.goto p ph).Inv := by
  refine h.rephase rfl rfl rfl rfl (upd_forall (F := s.Fits s.lock s.ptable) ?_ fun q _ => ?_)
  · exact ⟨fun _ => h.lock p hp, by simp [hd], fun _ hx => hw ▸ hx, hh⟩
  · exact ⟨by rw [hho]; exact h.lock q, by rw [hdo]; exact h.ptable q,
      fun _ => by rw [hwr]; exact id, hhg _ (h.holding q)⟩

theorem sleep (h : s.Inv) {ph : Phase} (hs : (s.phase p).Sleeps ph) (ht : s.ptable = none) :
    { s.goto p ph with ptable := some p, lock := none }.Inv :=
  h.rephase rfl rfl rfl rfl <| upd_forall (F := s.Fits none (some p))
    ⟨by simp [hs.not_holds], fun _ => rfl, fun _ hx => hs.writing ▸ hx,
      .of_not_holds hs.not_holds _⟩
    fun q hq => h.fits (by simp [h.not_holds hs.holds hq]) (by simp [h.not_dozes ht q])

theorem sched (h : s.Inv) {ph : Phase} (hs : (s.phase p).Scheds ph) : (s.sched p ph).Inv := by
  refine h.rephase rfl rfl rfl rfl (upd_forall (F := s.Fits s.lock none) ?_ fun q hq =>
    h.fits (h.lock q) fun hd => ?_)
  · exact ⟨by simp [hs.not_holds], by simp [hs.not_dozes], fun _ hx => hs.writing ▸ hx,
      .of_not_holds hs.not_holds _⟩
  · have := h.ptable p hs.dozes
    rw [h.ptable q hd] at this
    exact absurd (Option.some.inj this) hq

/-- A step of the holder of `p->lock` that changes the pipe. -/
theorem change (h : s.Inv) (hp : (s.phase p).holds) {ph : Phase} {pipe : Pipe}
    {stored : List (ℕ × UInt8)} {delivered : List UInt8} (hok : pipe.Ok)
    (hf : delivered ++ pipe.contents = stored.map Prod.snd) (hd : ph.dozes = false)
    (hw : ∀ w i, ph.writing = some (w, i) → ∃ j, (s.phase p).writing = some (w, j))
    (htag : ∀ x ∈ stored, x.1 < s.calls) (hh : ph.Holding pipe) (hst : ph.Stored stored)
    (hsame : ∀ q, q ≠ p → ∀ w i, (s.phase q).writing = some (w, i) →
      Phase.storedBy stored w.id = Phase.storedBy s.stored w.id) :
    { s.goto p ph with pipe := pipe, stored := stored, delivered := delivered }.Inv where
  ok := hok
  fifo := hf
  lock := upd_forall (F := fun q (ph : Phase) => ph.holds → s.lock = some q) (fun _ => h.lock p hp)
    fun q _ => h.lock q
  ptable := upd_forall (F := fun q (ph : Phase) => ph.dozes → s.ptable = some q) (by simp [hd])
    fun q _ => h.ptable q
  id_lt := by
    refine upd_forall (F := fun _ (ph : Phase) => ∀ w i, ph.writing = some (w, i) → w.id < s.calls)
      (fun w i hwi => ?_) fun q _ => h.id_lt q
    obtain ⟨j, hj⟩ := hw w i hwi
    exact h.id_lt p w j hj
  id_inj := by
    -- the calls in progress are the same as before
    have hback : ∀ q w i, (upd s.phase p ph q).writing = some (w, i) →
        ∃ j, (s.phase q).writing = some (w, j) :=
      upd_forall (F := fun q (ph : Phase) => ∀ w i, ph.writing = some (w, i) →
        ∃ j, (s.phase q).writing = some (w, j)) hw fun q _ w i hq => ⟨i, hq⟩
    intro q r w w' i i' hq hr
    obtain ⟨j, hj⟩ := hback q w i hq
    obtain ⟨j', hj'⟩ := hback r w' i' hr
    exact h.id_inj q r w w' j j' hj hj'
  tag_lt := htag
  holding := upd_forall (F := fun _ (ph : Phase) => ph.Holding pipe) hh fun q hq =>
    .of_not_holds (h.not_holds hp hq) pipe
  written := upd_forall (F := fun _ (ph : Phase) => ph.Stored stored) hst fun q hq w i hwi => by
    rw [hsame q hq w i hwi]
    exact h.written q w i hwi

theorem store (h : s.Inv) {w : WriteArgs} {i : ℕ} (hp : s.phase p = .writeLoop w i)
    (hi : (i : ℤ) < w.n) (hf : s.pipe.full = false) : (s.store p w i).Inv := by
  have hwr : (s.phase p).writing = some (w, i) := by rw [hp]; rfl
  refine h.change (by rw [hp]; rfl) (h.ok.put hf _) ?_ rfl ?_ ?_ trivial ?_ ?_
  · rw [h.ok.contents_put hf, ← append_assoc]
    exact (congrArg (· ++ [w.addr i]) h.fifo).trans (by simp)
  · rintro w' j hj
    obtain ⟨rfl, -⟩ : w = w' ∧ i + 1 = j := by simpa [Phase.writing] using hj
    exact ⟨i, hwr⟩
  · intro x hx
    rcases mem_append.1 hx with hx | hx
    · exact h.tag_lt x hx
    · obtain rfl : x = (w.id, w.addr i) := by simpa using hx
      exact h.id_lt p w i hwr
  · rintro w' j hj
    obtain ⟨rfl, rfl⟩ : w = w' ∧ i + 1 = j := by simpa [Phase.writing] using hj
    obtain ⟨-, hst⟩ := h.written p w i hwr
    refine ⟨by omega, ?_⟩
    rw [Phase.storedBy_append_self, hst, range_succ, map_append]
    rfl
  · intro q hq w' j hj
    exact Phase.storedBy_append_ne (fun he => hq (h.id_inj q p w' w j i hj hwr he.symm)) _

theorem copy (h : s.Inv) {n : ℤ} {got : List UInt8} (hp : s.phase p = .readCopy n got)
    (he : s.pipe.empty = false) : (s.copy p n got).Inv := by
  refine h.change (by rw [hp]; rfl) (h.ok.drop he) ?_ rfl (by simp [Phase.writing]) h.tag_lt ?_
    (by simp [Phase.Stored, Phase.writing]) fun _ _ _ _ _ => rfl
  · rw [append_assoc, singleton_append, ← h.ok.contents_drop he]
    exact h.fifo
  · simp [Phase.Holding]

theorem shut (h : s.Inv) {b : Bool} (hp : s.phase p = .closeShut b) :
    { s.goto p (.closeWake b) with pipe := s.pipe.shut b }.Inv :=
  h.change (by rw [hp]; rfl) (by rw [Ok, shut_ring]; exact h.ok)
    (by rw [contents_shut]; exact h.fifo) rfl
    (by simp [Phase.writing]) h.tag_lt trivial (by simp [Phase.Stored, Phase.writing])
    fun _ _ _ _ _ => rfl

/-- Every step of a process inside its call preserves the invariant. -/
theorem run (h : s.Inv) (hr : s.Runs p (s.phase p) s') : s'.Inv := by
  cases hr with
  | move hm => exact h.move hm
  | acquire ha hl => exact h.acquire ha hl
  | store hp hi hf => exact h.store hp hi hf
  | copy hp he => exact h.copy hp he
  | wakeNread hw =>
    exact h.wakeup hw.holds (by simp) (by simp) (by simp) (fun _ => .wakeNread) hw.dozes hw.writing
      (hw.holding (h.holding p))
  | wakeNwrite hw =>
    exact h.wakeup hw.holds (by simp) (by simp) (by simp) (fun _ => .wakeNwrite) hw.dozes hw.writing
      (hw.holding (h.holding p))
  | sleep hs ht => exact h.sleep hs ht
  | sched hs => exact h.sched hs
  | shut hp => exact h.shut hp

/-- A process that returns holds `p->lock`, which it releases. -/
theorem release (h : s.Inv) (hp : (s.phase p).holds) : (s.release p).Inv :=
  h.rephase rfl rfl rfl rfl <| upd_forall (F := s.Fits none s.ptable)
    ⟨by simp [Phase.holds], by simp [Phase.dozes], by simp [Phase.writing], trivial⟩
    fun q hq => h.fits (by simp [h.not_holds hp hq]) (h.ptable q)

theorem kill (h : s.Inv) : (s.kill p).Inv :=
  h.rephase rfl rfl rfl rfl <| upd_forall (F := s.Fits s.lock s.ptable)
    ⟨by simpa using h.lock p, by simpa using h.ptable p, by simp,
      (h.holding p).wakeNread.wakeNwrite⟩
    fun q _ => h.fits (h.lock q) (h.ptable q)

theorem call (h : s.Inv) (c : Call) :
    { s.goto p (s.start c) with calls := s.calls + 1 }.Inv := by
  have hold : ∀ q w i, (upd s.phase p (s.start c) q).writing = some (w, i) →
      (q = p ∧ w.id = s.calls ∧ i = 0) ∨ (q ≠ p ∧ (s.phase q).writing = some (w, i)) := by
    refine upd_forall (F := fun q (ph : Phase) => ∀ w i, ph.writing = some (w, i) →
      (q = p ∧ w.id = s.calls ∧ i = 0) ∨ (q ≠ p ∧ (s.phase q).writing = some (w, i)))
      (fun w i hw => .inl ⟨rfl, ?_⟩) fun q hq w i hw => .inr ⟨hq, hw⟩
    cases c with
    | write addr n =>
      obtain ⟨rfl, rfl⟩ : _ = w ∧ 0 = i := by simpa [Sys.start, Phase.writing] using hw
      exact ⟨rfl, rfl⟩
    | read | close => cases hw
  have hnew : Phase.storedBy s.stored s.calls = [] := by
    simp only [Phase.storedBy, map_eq_nil_iff, filter_eq_nil_iff, decide_eq_true_eq]
    exact fun x hx he => (h.tag_lt x hx).ne he
  refine ⟨h.ok, h.fifo, ?_, ?_, ?_, ?_, ?_, ?_, ?_⟩
  · exact upd_forall (F := fun q (ph : Phase) => ph.holds → s.lock = some q)
      (by cases c <;> simp [Sys.start, Phase.holds]) fun q _ => h.lock q
  · exact upd_forall (F := fun q (ph : Phase) => ph.dozes → s.ptable = some q)
      (by cases c <;> simp [Sys.start, Phase.dozes]) fun q _ => h.ptable q
  · intro q w i hw
    rcases hold q w i hw with ⟨-, hid, -⟩ | ⟨-, hw⟩
    · exact hid ▸ Nat.lt_succ_self _
    · exact Nat.lt_succ_of_lt (h.id_lt q w i hw)
  · intro q r w w' i i' hq hr he
    rcases hold q w i hq with ⟨hq', hid, -⟩ | ⟨-, hq'⟩ <;>
      rcases hold r w' i' hr with ⟨hr', hid', -⟩ | ⟨-, hr'⟩
    · rw [hq', hr']
    · exact absurd (h.id_lt r w' i' hr') (by omega)
    · exact absurd (h.id_lt q w i hq') (by omega)
    · exact h.id_inj q r w w' i i' hq' hr' he
  · exact fun x hx => Nat.lt_succ_of_lt (h.tag_lt x hx)
  · exact upd_forall (F := fun _ (ph : Phase) => ph.Holding s.pipe)
      (by cases c <;> trivial) fun q _ => h.holding q
  · intro q w i hw
    rcases hold q w i hw with ⟨-, hid, rfl⟩ | ⟨-, hw⟩
    · exact ⟨Nat.zero_le _, by rwa [hid]⟩
    · exact h.written q w i hw

end Inv

variable [DecidableEq P]

theorem Inv.step {l : Label P} (h : s.Inv) (hs : s.step l = some s') : s'.Inv := by
  obtain ⟨p, c, -, -, rfl⟩ | ⟨p, -, hr⟩ | ⟨p, v, -, hr, rfl⟩ | ⟨p, -, -, rfl⟩ := step_cases hs
  · exact h.call c
  · exact h.run hr
  · exact h.release hr.holds
  · exact h.kill

theorem inv_of_run {data : ℕ → UInt8} {ls : List (Label P)} (h : (sys P).Run (.init data) ls s) :
    s.Inv :=
  h.invariant (inv_init data) fun _ _ _ hi hs => hi.step hs

end Sys

namespace Phase

/-- The number of bytes that a call of `piperead` asked for. -/
def reading : Phase → Option ℤ
  | readAcquire n | readLoop n | readSleep n | readDoze n | readAsleep n | readCopy n _
  | readWake n _ | readDone n _ => some n
  | _ => none

/-- The bytes that a call of `piperead` has copied to `addr`. -/
def got : Phase → List UInt8
  | readCopy _ got | readWake _ got | readDone _ got => got
  | _ => []

variable {p : Pipe} {ph ph' : Phase}

theorem got_of_not_holds (h : ph.holds = false) : ph.got = [] := by
  cases ph <;> first | rfl | cases h

@[simp] theorem got_wakeNread (ph : Phase) : ph.wakeNread.got = ph.got := by cases ph <;> rfl

@[simp] theorem got_wakeNwrite (ph : Phase) : ph.wakeNwrite.got = ph.got := by cases ph <;> rfl

theorem Moves.got (h : Moves p ph ph') : ph'.got = ph.got := by cases h <;> rfl

theorem Acquires.got (h : Acquires ph ph') : ph'.got = ph.got := by cases h <;> rfl

theorem WakesNread.got (h : WakesNread ph ph') : ph'.got = ph.got := by cases h <;> rfl

theorem WakesNwrite.got (h : WakesNwrite ph ph') : ph'.got = ph.got := by cases h <;> rfl

theorem Sleeps.got (h : Sleeps ph ph') : ph'.got = ph.got := by cases h <;> rfl

theorem Scheds.got (h : Scheds ph ph') : ph'.got = ph.got := by cases h <;> rfl

end Phase

namespace Sys

/-- The bytes that the call of `piperead` holding `p->lock` has copied so far. -/
def inHand (s : Sys P) : List UInt8 := s.lock.elim [] fun p => (s.phase p).got

/-- The call of `piperead` that returns by a step: the bytes that it has copied to `addr`, and the
value. -/
def readOf (s : Sys P) : Label P → List (List UInt8 × ℤ)
  | .ret p v => if (s.phase p).reading.isSome then [((s.phase p).got, v)] else []
  | _ => []

/-- The calls of `piperead` that a run completes, in the order in which they return. -/
def reads [DecidableEq P] (data : ℕ → UInt8) (ls : List (Label P)) : List (List UInt8 × ℤ) :=
  LTS.outputs step readOf (init data) ls

theorem Inv.inHand_of_holds {s : Sys P} {p : P} (h : s.Inv) (hp : (s.phase p).holds) :
    s.inHand = (s.phase p).got := by
  rw [inHand, h.lock p hp, Option.elim_some]

/-- Only the holder of `p->lock` has bytes in hand, so it does not matter who that is. -/
theorem Inv.inHand_congr {s s' : Sys P} (h : s.Inv) (h' : s'.Inv)
    (hg : ∀ q, (s'.phase q).got = (s.phase q).got) : s'.inHand = s.inHand := by
  by_cases hall : ∀ q, (s.phase q).got = []
  · have hnil : ∀ t : Sys P, (∀ q, (t.phase q).got = []) → t.inHand = [] := by
      intro t ht
      rw [inHand]
      cases t.lock with
      | none => rfl
      | some q => exact ht q
    rw [hnil s hall, hnil s' fun q => (hg q).trans (hall q)]
  · push Not at hall
    obtain ⟨q, hq⟩ := hall
    have hholds : ∀ ph : Phase, ph.got ≠ [] → ph.holds := fun ph hne => by
      by_contra hc
      exact hne (Phase.got_of_not_holds (by simpa using hc))
    rw [h.inHand_of_holds (hholds _ hq), h'.inHand_of_holds (hholds _ (hg q ▸ hq)), hg q]

/-- A call of `piperead` returns the number of bytes that it has copied, or -1 if it has copied
none. -/
theorem Returns.readOf {s : Sys P} {p : P} {v : ℤ} (h : s.Returns p (s.phase p) v) :
    (s.readOf (.ret p v)).flatMap Prod.fst = (s.phase p).got ∧
    ∀ r ∈ s.readOf (.ret p v), r.2 = r.1.length ∨ r.2 = -1 ∧ r.1 = [] := by
  simp only [Sys.readOf]
  generalize s.phase p = ph at h ⊢
  cases h with
  | gaveUp | wrote | closed => exact ⟨rfl, by simp [Phase.reading]⟩
  | killed => exact ⟨rfl, by simp [Phase.reading, Phase.got]⟩
  | read => exact ⟨by simp [Phase.reading, Phase.got], by simp [Phase.reading, Phase.got]⟩

variable [DecidableEq P] {s s' : Sys P} {p : P}

/-- Only the assignment in the loop of `piperead` copies a byte. -/
theorem Runs.copies (h : s.Runs p (s.phase p) s') :
    (s'.delivered = s.delivered ∧ ∀ q, (s'.phase q).got = (s.phase q).got) ∨
    ∃ n got, s.phase p = .readCopy n got ∧ s' = s.copy p n got := by
  have hupd : ∀ (f : P → Phase) {ph : Phase}, (∀ q, (f q).got = (s.phase q).got) →
      ph.got = (s.phase p).got → ∀ q, (upd f p ph q).got = (s.phase q).got := fun f ph hf hph =>
    upd_forall (F := fun q (ph : Phase) => ph.got = (s.phase q).got) hph fun q _ => hf q
  cases h with
  | copy hp => exact .inr ⟨_, _, hp, rfl⟩
  | move hm => exact .inl ⟨rfl, hupd _ (fun _ => rfl) hm.got⟩
  | acquire ha => exact .inl ⟨rfl, hupd _ (fun _ => rfl) ha.got⟩
  | store hp | shut hp => exact .inl ⟨rfl, hupd _ (fun _ => rfl) (by rw [hp]; rfl)⟩
  | wakeNread hw | wakeNwrite hw => exact .inl ⟨rfl, hupd _ (by simp) hw.got⟩
  | sleep hs | sched hs => exact .inl ⟨rfl, hupd _ (fun _ => rfl) hs.got⟩

/-- What the completed calls of `piperead` have copied and returned, after the run `ls`. -/
structure Delivers (data : ℕ → UInt8) (ls : List (Label P)) (s : Sys P) : Prop where
  delivered : s.delivered = (reads data ls).flatMap Prod.fst ++ s.inHand
  count : ∀ r ∈ reads data ls, r.2 = r.1.length ∨ r.2 = -1 ∧ r.1 = []

variable {data : ℕ → UInt8} {ls : List (Label P)}

/-- A step by which no `piperead` copies a byte or returns. -/
theorem Delivers.quiet {l : Label P} (h : s.Delivers data ls) (hr : (sys P).Run (.init data) ls s)
    (hi : s.Inv) (hi' : s'.Inv) (hl : s.readOf l = []) (hd : s'.delivered = s.delivered)
    (hg : ∀ q, (s'.phase q).got = (s.phase q).got) : s'.Delivers data (ls ++ [l]) := by
  have heq : reads data (ls ++ [l]) = reads data ls := by
    rw [reads, LTS.outputs_snoc readOf hr, hl, append_nil, reads]
  refine ⟨?_, heq ▸ h.count⟩
  rw [heq, hd, hi.inHand_congr hi' hg]
  exact h.delivered

theorem Delivers.step {l : Label P} (h : s.Delivers data ls) (hr : (sys P).Run (.init data) ls s)
    (hs : s.step l = some s') : s'.Delivers data (ls ++ [l]) := by
  have hi := inv_of_run hr
  have hi' := hi.step hs
  obtain ⟨p, c, rfl, hp, rfl⟩ | ⟨p, rfl, hrun⟩ | ⟨p, v, rfl, hret, rfl⟩ | ⟨p, rfl, -, rfl⟩ :=
    step_cases hs
  · refine h.quiet hr hi hi' rfl rfl
      (upd_forall (F := fun q (ph : Phase) => ph.got = (s.phase q).got) ?_ fun _ _ => rfl)
    rw [hp]
    cases c <;> rfl
  · obtain ⟨hd, hg⟩ | ⟨n, got, hp, rfl⟩ := hrun.copies
    · exact h.quiet hr hi hi' rfl hd hg
    have heq : reads data (ls ++ [.run p]) = reads data ls := by
      rw [reads, LTS.outputs_snoc readOf hr]
      exact append_nil _
    have hself : (s.copy p n got).phase p = .readCopy n (got ++ [s.pipe.next]) := upd_same _ _ _
    refine ⟨?_, heq ▸ h.count⟩
    rw [heq, hi'.inHand_of_holds (by rw [hself]; rfl), hself]
    have hd := h.delivered
    rw [hi.inHand_of_holds (by rw [hp]; rfl), hp] at hd
    show s.delivered ++ [s.pipe.next] = _
    rw [hd, append_assoc]
    rfl
  · have heq : reads data (ls ++ [.ret p v]) = reads data ls ++ s.readOf (.ret p v) :=
      LTS.outputs_snoc readOf hr _
    refine ⟨?_, fun r hmem => ?_⟩
    · rw [heq, flatMap_append, hret.readOf.1, ← hi.inHand_of_holds hret.holds]
      exact h.delivered.trans (append_nil _).symm
    · rw [heq] at hmem
      exact (mem_append.1 hmem).elim (h.count r) (hret.readOf.2 r)
  · exact h.quiet hr hi hi' rfl rfl
      (upd_forall (F := fun q (ph : Phase) => ph.got = (s.phase q).got) (by simp) fun _ _ => rfl)

theorem delivers_of_run (h : (sys P).Run (.init data) ls s) : s.Delivers data ls :=
  h.invariant_history (I := fun ls s => s.Delivers data ls) ⟨rfl, by simp [reads, LTS.outputs]⟩
    fun _ _ _ _ hr hd hs => hd.step hr hs

end Sys

variable [DecidableEq P] {s s' : Sys P}

/-- **A pipe is a first-in first-out stream of bytes.**  In every interleaving of `pipewrite`,
`piperead` and `pipeclose`: the bytes copied out, followed by the `nwrite - nread` bytes in the
buffer, are the bytes stored; the bytes copied out are those that the completed calls of `piperead`
got, one call after the other, and then those that the call in progress has got; a call returns
their number, or -1 if it got none; the buffer never holds more than `PIPESIZE` bytes; a `pipewrite`
has stored a first part of its bytes in order, and if it returns anything but -1 it returns `n` and
has stored all of them; and a `piperead` of a positive number of bytes returns 0 only while the pipe
is empty and its write side closed. -/
theorem fifo {data : ℕ → UInt8} {ls : List (Label P)} (h : (sys P).Run (.init data) ls s) :
    s.delivered ++ s.pipe.contents = s.stored.map Prod.snd ∧
    s.delivered = (Sys.reads data ls).flatMap Prod.fst ++ s.inHand ∧
    (∀ r ∈ Sys.reads data ls, r.2 = r.1.length ∨ r.2 = -1 ∧ r.1 = []) ∧
    s.pipe.used ≤ pipeSize ∧
    ∀ p v s', (sys P).step s (.ret p v) s' →
      (∀ w i, (s.phase p).writing = some (w, i) →
        Phase.storedBy s.stored w.id = (List.range i).map w.addr ∧
        (v ≠ -1 → v = w.n ∧ Phase.storedBy s.stored w.id = w.bytes)) ∧
      ∀ n, (s.phase p).reading = some n → 0 < n → v = 0 →
        s.pipe.used = 0 ∧ s.pipe.writeopen = false := by
  have hi := Sys.inv_of_run h
  have hd := Sys.delivers_of_run h
  refine ⟨hi.fifo, hd.delivered, hd.count, hi.ok.used_le, fun p v s' hs => ?_⟩
  obtain ⟨_, _, hl, _⟩ | ⟨_, hl, _⟩ | ⟨q, u, hl, hr, -⟩ | ⟨_, hl, _⟩ := Sys.step_cases hs <;>
    cases hl
  have hst := hi.written p
  have hh := hi.holding p
  generalize s.phase p = ph at hr hst hh
  cases hr with
  | gaveUp => exact ⟨fun w i hw => ⟨(hst w i hw).2, fun hv => absurd rfl hv⟩, nofun⟩
  | @wrote w =>
    refine ⟨fun w' i hw => ⟨(hst w' i hw).2, fun _ => ?_⟩, nofun⟩
    obtain ⟨rfl, -⟩ : w = w' ∧ w.n.toNat = i := by simpa [Phase.writing] using hw
    exact ⟨rfl, (hst w _ rfl).2⟩
  | killed => exact ⟨nofun, fun _ _ _ hv => by cases hv⟩
  | @read n got =>
    refine ⟨nofun, fun n' hn hpos hv => ?_⟩
    obtain rfl : n = n' := by simpa [Phase.reading] using hn
    obtain ⟨he, ho⟩ := hh (by simpa using hv) hpos
    exact ⟨hi.ok.empty_eq.1 he, ho⟩
  | closed => exact ⟨nofun, nofun⟩

/-- A writer stores two bytes and returns; a reader takes one of them and returns. -/
def shortRun : List (Label Bool) :=
  [.call true (.write (fun i => if i = 0 then 7 else 8) 2), .run true, .run true,
      .run true, .run true,
    .run true, .ret true 2, .call false (.read 1), .run false, .run false, .run false, .run false,
    .run false, .ret false 1]

theorem fifo_shortRun : ∃ s, (sys Bool).Run (.init fun _ => 0) shortRun s ∧
    Sys.reads (fun _ => 0) shortRun = [([7], 1)] ∧ s.delivered = [7] ∧ s.pipe.contents = [8] ∧
    s.stored.map Prod.snd = [7, 8] := by
  obtain ⟨s, hs, hd⟩ := Option.map_eq_some_iff.1 (show
    (LTS.exec Sys.step (.init fun _ => 0) shortRun).map (fun s => (s.inHand, s.pipe.contents)) =
      some ([], [8]) by decide +kernel)
  obtain ⟨hn, hc⟩ := Prod.mk.inj hd
  have hreads : Sys.reads (fun _ => 0) shortRun = [([7], 1)] := by decide +kernel
  have hrun := LTS.run_of_exec hs
  obtain ⟨hfifo, hdel, -⟩ := fifo hrun
  rw [hreads, hn] at hdel
  rw [hdel, hc] at hfifo
  exact ⟨s, hrun, hreads, hdel, hc, hfifo.symm⟩

end Pipe

end Xv6
