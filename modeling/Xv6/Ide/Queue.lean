import Xv6.Ide.Model

/-!
# The request queue of the disk driver

* `Inv.run` : the invariant of the driver: the queue is a list without repetitions, its head is the
  transfer that is under way, and the buffers in it belong to processes that wait for them.
* `queue_holds` : **requests are started and completed in the order in which they were appended**,
  one at a time, each in the direction that `B_DIRTY` gave when `iderw` was called, and `iderw`
  returns only after the transfer of its own buffer.

The record of the calls is what has been completed, followed by the queue (`Inv.appended`); that of
the transfers ends with the head of the queue (`Inv.started`).
-/

namespace Xv6

open List

namespace Ide

variable {P B D : Type}

/-! ### Linked lists -/

/-- The blocks of `q` are linked from `x` on. -/
def Chain (qnext : B → Option B) : Option B → List B → Prop
  | x, [] => x = none
  | x, b :: q => x = some b ∧ Chain qnext (qnext b) q

theorem Chain.congr {f g : B → Option B} {x : Option B} {q : List B} (h : Chain f x q)
    (hq : ∀ b ∈ q, g b = f b) :
    Chain g x q := by
  induction q generalizing x with
  | nil => exact h
  | cons b q ih =>
    refine ⟨h.1, ?_⟩
    rw [hq b (by simp)]
    exact ih h.2 fun c hc => hq c (by simp [hc])

theorem Chain.snoc [DecidableEq B] {f : B → Option B} {x : Option B} {q : List B} {b c : B}
    (h : Chain f x (q ++ [c])) (hnd : (q ++ [c]).Nodup) (hb : b ∉ q ++ [c]) (hnext : f b = none) :
    Chain (upd f c (some b)) x (q ++ [c] ++ [b]) := by
  induction q generalizing x with
  | nil =>
    have hbc : b ≠ c := by simpa using hb
    refine ⟨h.1, by simp, ?_⟩
    simpa [Chain, hbc] using hnext
  | cons a q ih =>
    rw [cons_append, nodup_cons] at hnd
    have hac : a ≠ c := fun h => hnd.1 (by simp [h])
    refine ⟨h.1, ?_⟩
    rw [upd_eq_update, Function.update_of_ne hac, ← upd_eq_update]
    exact ih h.2 hnd.2 fun hm => hb (by simp at hm ⊢; tauto)

/-- The last cell of the queue. -/
def lastCell (pp : Option B) (q : List B) : Option B := q.getLast?.or pp

@[simp] theorem lastCell_nil {pp : Option B} : lastCell pp ([] : List B) = pp := rfl

theorem lastCell_cons {pp : Option B} {b : B} {q : List B} :
    lastCell pp (b :: q) = lastCell (some b) q := by
  unfold lastCell
  cases h : q.getLast? with
  | none => simp [List.getLast?_eq_none_iff.1 h]
  | some c => simp [List.getLast?_cons, h]

section

variable [DecidableEq P] [DecidableEq B] {s s' s'' : State P B D} {p p' : P} {b c : B} {i : ℕ}
  {d : Bool} {q : List B} {l : Label P B D} {ls : List (Label P B D)}

omit [DecidableEq P] [DecidableEq B] in
theorem State.tail_eq {n : ℕ} {pp : Option B} (h : Chain s.qnext (s.cell pp) q)
    (hn : q.length < n) :
    s.tail n pp = some (lastCell pp q) := by
  induction q generalizing n pp with
  | nil =>
    obtain ⟨n, rfl⟩ : ∃ k, n = k + 1 := ⟨n - 1, by simp at hn; omega⟩
    have hcell : s.cell pp = none := h
    simp [State.tail, hcell]
  | cons b q ih =>
    obtain ⟨n, rfl⟩ : ∃ k, n = k + 1 := ⟨n - 1, by simp at hn; omega⟩
    rw [State.tail, h.1, lastCell_cons]
    exact ih h.2 (by simpa using hn)

theorem Except.map_eq_ok {ε α β : Type} {f : α → β} {x : Except ε α} {y : β} (h : x.map f = .ok y) :
    ∃ a, x = .ok a ∧ f a = y := by
  cases x with
  | error e => cases h
  | ok a => exact ⟨a, rfl, Except.ok.inj h⟩

/-! ### The invariant -/

/-- The buffer of a call. -/
def Phase.buf? : Phase B → Option B
  | .idle => none
  | .called b _ | .asleep b .. | .ready b .. => some b

/-- The request that a process waits for. -/
def Phase.waits? : Phase B → Option (ℕ × Request B)
  | .idle | .called .. => none
  | .asleep b i d | .ready b i d => some (i, ⟨b, d⟩)

@[simp] theorem Phase.buf?_wake {ph : Phase B} : (ph.wake b).buf? = ph.buf? := by
  unfold Phase.wake
  split
  · split_ifs <;> rfl
  · rfl

@[simp] theorem Phase.waits?_wake {ph : Phase B} : (ph.wake b).waits? = ph.waits? := by
  unfold Phase.wake
  split
  · split_ifs <;> rfl
  · rfl

@[simp] theorem Phase.wake_eq_called {ph : Phase B} :
    ph.wake b = .called c d ↔ ph = .called c d := by
  unfold Phase.wake
  split
  · split_ifs <;> simp
  · rfl

theorem Phase.wake_asleep {ph : Phase B} (h : ph.wake b = .asleep c i d) :
    ph = .asleep c i d ∧ c ≠ b := by
  unfold Phase.wake at h
  split at h
  · split_ifs at h with hc
    obtain ⟨rfl, rfl, rfl⟩ : _ = c ∧ _ = i ∧ _ = d := by simpa using h
    exact ⟨rfl, hc⟩
  · rename_i hno
    exact absurd h (hno c i d)

/-- A buffer in the queue, as a request. -/
def State.request (s : State P B D) (b : B) : Request B := ⟨b, (s.buf b).dirty⟩

/-- The direction of a command that has been sent. -/
def Command.write (x : Command D) : Bool := x.cmd == 0x30

/-- The invariant, for a queue of the buffers `q`. -/
structure Inv (s : State P B D) (q : List B) : Prop where
  chain : Chain s.qnext s.idequeue q
  nodup : q.Nodup
  irq : s.irq = (q.take 1).length
  appended : s.appended = s.completed ++ q.map s.request
  started : s.started.map (fun x => ⟨x.1, x.2.write⟩) = s.completed ++ (q.take 1).map s.request
  busy : ∀ b ∈ q, (s.buf b).synced = false
  /-- Buffers in the queue are waited for. -/
  queued : ∀ b ∈ q, ∃ p x, (s.phase p).waits? = some x ∧ x.2.buf = b
  owner : ∀ p b, (s.phase p).buf? = some b → s.owner b = some p
  called : ∀ p b d, s.phase p = .called b d → b ∉ q ∧ (s.buf b).dirty = d ∧ (s.buf b).synced = false
  waits : ∀ p x, (s.phase p).waits? = some x → s.appended[x.1]? = some x.2 ∧
    (x.2.buf ∈ q ∨ (s.buf x.2.buf).synced ∧ x.1 < s.completed.length)
  /-- No wakeup is lost. -/
  asleep : ∀ p b i d, s.phase p = .asleep b i d → b ∈ q

omit [DecidableEq P] [DecidableEq B] in
theorem Initial.inv (h : Initial s) : Inv s [] := by
  refine ⟨h.idequeue, .nil, h.irq, by simp [h.appended, h.completed], by
    simp [h.started, h.completed], by simp, by
    simp, fun p b hp => ?_, fun p b d hp => ?_, fun p x hp => ?_, fun p b i d hp => ?_⟩ <;>
    simp [h.phase, Phase.buf?, Phase.waits?] at hp

namespace Inv

section

omit [DecidableEq P] [DecidableEq B]

theorem buf_of_waits {ph : Phase B} {x : ℕ × Request B} (h : ph.waits? = some x) :
    ph.buf? = some x.2.buf := by
  cases ph <;> simp [Phase.waits?] at h <;> simp [Phase.buf?, ← h]

/-- The buffer of a process that is not in a call is not in the queue. -/
theorem not_mem_of_idle (hI : Inv s q) (hb : ∀ p ∈ s.owner b, s.phase p = .idle) : b ∉ q := by
  intro hm
  obtain ⟨p, x, hx, rfl⟩ := hI.queued b hm
  have hbuf := buf_of_waits hx
  have := hb p (hI.owner p _ hbuf)
  simp [this, Phase.buf?] at hbuf

/-- The request of a buffer at the head of the queue is the first one that is not completed. -/
theorem index_le (hI : Inv s (b :: q)) {x : ℕ × Request B} (hx : s.appended[x.1]? = some x.2)
    (hb : x.2.buf = b) :
    x.1 < s.completed.length + 1 := by
  by_contra hge
  rw [hI.appended, List.getElem?_append_right (by omega), map_cons,
    show x.1 - s.completed.length = x.1 - s.completed.length - 1 + 1 by
      omega, List.getElem?_cons_succ] at hx
  obtain ⟨c, hc, hcx⟩ := mem_map.1 (mem_of_getElem? hx)
  have hcb : c = b := by rw [← hb, ← hcx]; rfl
  exact (nodup_cons.1 hI.nodup).1 (hcb ▸ hc)

theorem idestart_ok {s s' : State P B D} (h : s.idestart (some b) = .ok s') :
    s' = { s with irq := s.irq + 1, started := s.started ++ [(b, State.command (s.buf b))] } := by
  simp only [State.idestart] at h
  split_ifs at h
  exact (Except.ok.inj h).symm

theorem write_command {x : Buf D} : (State.command x).write = x.dirty := by
  cases hd : x.dirty <;> simp [State.command, Command.write, hd]

end

section

omit [DecidableEq B]

theorem goto (hI : Inv s q) {ph : Phase B} (hbuf : ∀ b, ph.buf? = some b → s.owner b = some p)
    (hcalled : ∀ b d, ph = .called b d → b ∉ q ∧ (s.buf b).dirty = d ∧ (s.buf b).synced = false)
    (hwaits : ∀ x, ph.waits? = some x → s.appended[x.1]? = some x.2 ∧
      (x.2.buf ∈ q ∨ (s.buf x.2.buf).synced ∧ x.1 < s.completed.length))
    (hasleep : ∀ b i d, ph = .asleep b i d → b ∈ q)
    (hqueued : ∀ x, (s.phase p).waits? = some x → x.2.buf ∈ q → ph.waits? = some x) :
    Inv { s with phase := upd s.phase p ph } q := by
  refine ⟨hI.chain, hI.nodup, hI.irq, hI.appended, hI.started, hI.busy, fun b hb => ?_, ?_,
    ?_, ?_, ?_⟩
  · obtain ⟨p', x, hx, rfl⟩ := hI.queued b hb
    refine ⟨p', x, ?_, rfl⟩
    by_cases hp : p' = p
    · subst hp
      simpa using hqueued x hx hb
    · simpa [hp] using hx
  · exact upd_forall (F := fun p (ph : Phase B) => ∀ b, ph.buf? = some b → s.owner b = some p) hbuf
      fun p' _ => hI.owner p'
  · exact upd_forall (F := fun _ (ph : Phase B) => ∀ b d, ph = .called b d → b ∉ q ∧
      (s.buf b).dirty = d ∧ (s.buf b).synced = false) hcalled fun p' _ => hI.called p'
  · exact upd_forall (F := fun _ (ph : Phase B) => ∀ x, ph.waits? = some x →
      s.appended[x.1]? = some x.2 ∧
      (x.2.buf ∈ q ∨ (s.buf x.2.buf).synced ∧ x.1 < s.completed.length)) hwaits fun p' _ =>
      hI.waits p'
  · exact upd_forall (F := fun _ (ph : Phase B) => ∀ b i d, ph = .asleep b i d → b ∈ q) hasleep
      fun p' _ => hI.asleep p'

theorem resume (hI : Inv s q) (hp : s.phase p = .ready b i d) : Inv (s.wait p b i d) q := by
  have hw := hI.waits p (i, ⟨b, d⟩) (by rw [hp]; rfl)
  have hown := hI.owner p b (by rw [hp]; rfl)
  unfold State.wait
  split_ifs with hsync
  · refine hI.goto (by simp [Phase.buf?]) (by simp) (by simp [Phase.waits?]) (by simp)
      fun x hx hxq => ?_
    obtain rfl : x = (i, ⟨b, d⟩) := by simpa [hp, Phase.waits?, eq_comm] using hx
    simp [hI.busy b hxq] at hsync
  have hbq : b ∈ q := hw.2.resolve_right fun h => hsync h.1
  refine hI.goto (fun c hc => ?_) (by simp) (fun x hx => ?_) (fun c j e hc => ?_)
    fun x hx hxq => ?_
  · obtain rfl : b = c := by simpa [Phase.buf?] using hc
    exact hown
  · obtain rfl : (i, ⟨b, d⟩) = x := by simpa [Phase.waits?] using hx
    exact hw
  · obtain ⟨rfl, -, -⟩ : b = c ∧ i = j ∧ d = e := by simpa using hc
    exact hbq
  · rw [hp] at hx
    exact hx

theorem kill (hI : Inv s q) (hp : s.phase p = .asleep b i d) :
    Inv { s with phase := upd s.phase p (.ready b i d) } q := by
  refine hI.goto (fun c hc => ?_) (by simp) (fun x hx => ?_) (by simp) fun x hx hxq => ?_
  · exact hI.owner p c (by rwa [hp])
  · exact hI.waits p x (by rwa [hp])
  · rw [hp] at hx
    exact hx

theorem call (hI : Inv s q) (hp : s.phase p = .idle) (hs : s.call p b = .ok s') : Inv s' q := by
  unfold State.call at hs
  split_ifs at hs with h1 h2 h3
  cases hs
  rw [not_not] at h1
  have hbq : b ∉ q := hI.not_mem_of_idle fun p' hp' => by
    obtain rfl : p = p' := by simpa [h1] using hp'
    exact hp
  refine hI.goto (fun c hc => ?_) (fun c e hc => ?_) (by simp [Phase.waits?]) (by simp)
    (by simp [hp, Phase.waits?])
  · obtain rfl : b = c := by simpa [Phase.buf?] using hc
    exact h1
  · obtain ⟨rfl, rfl⟩ : b = c ∧ (s.buf b).dirty = e := by simpa using hc
    exact ⟨hbq, rfl, by simpa using h2⟩

/-- A call gets to the queue; `t` is the state after it. -/
theorem append (hI : Inv s q) (hp : s.phase p = .called b d) {t : State P B D}
    (hchain : Chain t.qnext t.idequeue (q ++ [b])) (hbuf : t.buf = s.buf)
    (howner : t.owner = s.owner) (hphase : t.phase = upd s.phase p (.asleep b s.appended.length d))
    (happ : t.appended = s.appended ++ [⟨b, d⟩]) (hcomp : t.completed = s.completed)
    (hirq : t.irq = ((q ++ [b]).take 1).length)
    (hstarted : t.started.map (fun x => ⟨x.1, x.2.write⟩) = s.completed ++ ((q ++ [b]).take 1).map
    s.request) :
    Inv t (q ++ [b]) := by
  obtain ⟨hbq, hdirty, hsync⟩ := hI.called p b d hp
  have hreq : t.request = s.request := by
    funext c
    simp only [State.request, hbuf]
  have hother : ∀ p', p' ≠ p → t.phase p' = s.phase p' := fun p' hp' => by simp [hphase, hp']
  have hself : t.phase p = .asleep b s.appended.length d := by simp [hphase]
  refine ⟨hchain, ?_, hirq, ?_, ?_, fun c hc => ?_, fun c hc => ?_, fun p' c hc => ?_,
    fun p' c e hc => ?_, fun p' x hx => ?_, fun p' c i e hc => ?_⟩
  · rw [nodup_append]
    refine ⟨hI.nodup, by simp, fun c hc a ha => ?_⟩
    obtain rfl : a = b := by simpa using ha
    exact fun h => hbq (h ▸ hc)
  · rw [happ, hcomp, hreq, hI.appended]
    simp [State.request, hdirty]
  · rw [hstarted, hcomp, hreq]
  · rw [hbuf]
    rcases mem_append.1 hc with hc | hc
    · exact hI.busy c hc
    · obtain rfl : c = b := by simpa using hc
      exact hsync
  · rcases mem_append.1 hc with hc | hc
    · obtain ⟨p', x, hx, hxc⟩ := hI.queued c hc
      have hpp : p' ≠ p := by
        rintro rfl
        simp [hp, Phase.waits?] at hx
      exact ⟨p', x, by rwa [hother p' hpp], hxc⟩
    · obtain rfl : c = b := by simpa using hc
      exact ⟨p, (s.appended.length, ⟨c, d⟩), by rw [hself]; rfl, rfl⟩
  · rw [howner]
    by_cases hpp : p' = p
    · subst hpp
      obtain rfl : b = c := by simpa [hself, Phase.buf?] using hc
      exact hI.owner p' b (by rw [hp]; rfl)
    · exact hI.owner p' c (by rwa [← hother p' hpp])
  · by_cases hpp : p' = p
    · subst hpp
      simp [hself] at hc
    rw [hother p' hpp] at hc
    rw [hbuf]
    obtain ⟨hcq, h⟩ := hI.called p' c e hc
    refine ⟨?_, h⟩
    rw [mem_append, mem_singleton, not_or]
    refine ⟨hcq, ?_⟩
    rintro rfl
    have h1 := hI.owner p c (by rw [hp]; rfl)
    have h2 := hI.owner p' c (by rw [hc]; rfl)
    exact hpp (Option.some.inj (h2.symm.trans h1))
  · rw [happ, hcomp, hbuf]
    by_cases hpp : p' = p
    · subst hpp
      obtain rfl : (s.appended.length, ⟨b, d⟩) = x := by simpa [hself, Phase.waits?] using hx
      simp
    rw [hother p' hpp] at hx
    obtain ⟨hx1, hx2⟩ := hI.waits p' x hx
    obtain ⟨hlt, -⟩ := List.getElem?_eq_some_iff.1 hx1
    refine ⟨?_, hx2.imp_left fun h => by simp [h]⟩
    rw [List.getElem?_append_left hlt]
    exact hx1
  · by_cases hpp : p' = p
    · subst hpp
      obtain ⟨rfl, -⟩ : b = c ∧ _ := by simpa [hself] using hc
      simp
    · rw [hother p' hpp] at hc
      simp [hI.asleep p' c i e hc]

end

section

omit [DecidableEq P]

theorem setOwner (hI : Inv s q) (hb : ∀ p, (s.phase p).buf? ≠ some b) {o : Option P} :
    Inv { s with owner := upd s.owner b o } q := by
  refine ⟨hI.chain, hI.nodup, hI.irq, hI.appended, hI.started, hI.busy, hI.queued, fun p c hp => ?_,
    hI.called, hI.waits, hI.asleep⟩
  have hcb : c ≠ b := by
    rintro rfl
    exact hb p hp
  simpa [hcb] using hI.owner p c hp

theorem touch (hI : Inv s q) (hb : ∀ p ∈ s.owner b, s.phase p = .idle) (x : Buf D) :
    Inv { s with buf := upd s.buf b x } q := by
  have hbq := hI.not_mem_of_idle hb
  have hne : ∀ c ∈ q, c ≠ b := fun c hc h => hbq (h ▸ hc)
  have hsame : ∀ c, c ≠ b → upd s.buf b x c = s.buf c := fun c hc => by simp [hc]
  have hphase : ∀ p c, (s.phase p).buf? = some c → c ≠ b := fun p c hp h => by
    subst h
    have := hb p (hI.owner p c hp)
    simp [this, Phase.buf?] at hp
  have hreq : ∀ r : List B, (∀ c ∈ r, c ∈ q) →
      r.map (State.request { s with buf := upd s.buf b x }) = r.map s.request := fun r hr =>
    map_congr_left fun c hc => by simp only [State.request, hsame c (hne c (hr c hc))]
  refine ⟨hI.chain, hI.nodup, hI.irq, ?_, ?_, fun c hc => ?_, hI.queued, hI.owner, fun p c d hp =>
    ?_, fun p y hp => ?_, hI.asleep⟩
  · rw [hreq q fun c => id]
    exact hI.appended
  · rw [hreq _ fun c => mem_of_mem_take]
    exact hI.started
  · simp only [hsame c (hne c hc)]
    exact hI.busy c hc
  · have hc := hphase p c (by rw [hp]; rfl)
    simp only [hsame c hc]
    exact hI.called p c d hp
  · have hc := hphase p _ (buf_of_waits hp)
    simp only [hsame _ hc]
    exact hI.waits p y hp

/-- The transfer of the head of the queue is over; `t` is the state after it. -/
theorem complete (hI : Inv s (b :: q)) {t : State P B D} {x : Buf D} (hx : x.synced)
    (hchain : Chain t.qnext t.idequeue q) (hbuf : t.buf = upd s.buf b x)
    (howner : t.owner = s.owner) (hphase : t.phase = fun p => (s.phase p).wake b)
    (happ : t.appended = s.appended) (hcomp : t.completed = s.completed ++ [s.request b])
    (hirq : t.irq = (q.take 1).length)
    (hstarted : t.started.map (fun x => ⟨x.1, x.2.write⟩) = s.completed ++ [s.request b] ++
    (q.take 1).map s.request) :
    Inv t q := by
  obtain ⟨hbq, hnodup⟩ := nodup_cons.1 hI.nodup
  have hsame : ∀ c, c ≠ b → t.buf c = s.buf c := fun c hc => by simp [hbuf, hc]
  have hself : t.buf b = x := by simp [hbuf]
  have hne : ∀ c ∈ q, c ≠ b := fun c hc h => hbq (h ▸ hc)
  have hreq : ∀ r : List B, (∀ c ∈ r, c ∈ q) → r.map t.request = r.map s.request := fun r hr =>
    map_congr_left fun c hc => by simp only [State.request, hsame c (hne c (hr c hc))]
  refine ⟨hchain, hnodup, hirq, ?_, ?_, fun c hc => ?_, fun c hc => ?_, fun p c hc => ?_,
    fun p c e hc => ?_, fun p y hy => ?_, fun p c i e hc => ?_⟩
  · rw [happ, hcomp, hreq q fun c => id, hI.appended]
    simp
  · rw [hstarted, hcomp, hreq _ fun c => mem_of_mem_take]
  · rw [hsame c (hne c hc)]
    exact hI.busy c (by simp [hc])
  · obtain ⟨p, y, hy, hyc⟩ := hI.queued c (by simp [hc])
    exact ⟨p, y, by simpa [hphase] using hy, hyc⟩
  · rw [howner]
    exact hI.owner p c (by simpa [hphase] using hc)
  · obtain ⟨hcq, h⟩ := hI.called p c e (by simpa [hphase] using hc)
    rw [mem_cons, not_or] at hcq
    rw [hsame c hcq.1]
    exact ⟨hcq.2, h⟩
  · obtain ⟨h1, h2⟩ := hI.waits p y (by simpa [hphase] using hy)
    rw [happ, hcomp, length_append]
    refine ⟨h1, ?_⟩
    by_cases hyb : y.2.buf = b
    · refine .inr ⟨?_, by simpa using hI.index_le h1 hyb⟩
      rw [hyb, hself]
      exact hx
    · rw [hsame _ hyb]
      refine h2.imp (fun h => ?_) fun h => ⟨h.1, by simp; omega⟩
      simpa [hyb] using h
  · rw [hphase] at hc
    obtain ⟨hc, hcb⟩ := Phase.wake_asleep hc
    simpa [hcb] using hI.asleep p c i e hc

theorem chain_link (hI : Inv s q) (hbq : b ∉ q) :
    Chain (s.link b d (lastCell none q)).qnext (s.link b d (lastCell none q)).idequeue
    (q ++ [b]) := by
  have hchain : Chain (upd s.qnext b none) s.idequeue q := hI.chain.congr fun c hc => by
    have : c ≠ b := fun h => hbq (h ▸ hc)
    simp [this]
  have hnext : upd s.qnext b none b = none := by simp
  rcases eq_nil_or_concat q with rfl | ⟨r, c, rfl⟩
  · exact ⟨rfl, hnext⟩
  · rw [concat_eq_append] at *
    rw [show lastCell none (r ++ [c]) = some c by simp [lastCell]]
    exact hchain.snoc hI.nodup hbq hnext

theorem ideintr (hI : Inv s q) (hirq : s.irq ≠ 0) {ok : Bool} {data : D}
    (hs : State.ideintr { s with irq := s.irq - 1 } ok data = .ok s') : Inv s' q.tail := by
  cases q with
  | nil => exact absurd hI.irq hirq
  | cons b q =>
  have hhead : s.idequeue = some b := hI.chain.1
  have hone : s.irq - 1 = 0 := by rw [hI.irq]; rfl
  have hchain : Chain s.qnext (s.qnext b) q := hI.chain.2
  simp only [State.ideintr, hhead, hone] at hs
  cases q with
  | nil =>
    have hnext : s.qnext b = none := hchain
    rw [if_pos (by exact hnext)] at hs
    cases hs
    refine hI.complete rfl hchain rfl rfl rfl rfl rfl rfl ?_
    exact hI.started.trans (by simp)
  | cons c q =>
  have hnext : s.qnext b = some c := hchain.1
  have hcb : c ≠ b := fun h => (nodup_cons.1 hI.nodup).1 (by simp [h])
  simp only [State.complete, hnext, reduceCtorEq, ↓reduceIte] at hs
  obtain rfl := idestart_ok hs
  refine hI.complete rfl (hnext ▸ hchain) rfl rfl rfl rfl rfl rfl ?_
  have := hI.started
  simp only [map_append, map_cons, map_nil, write_command, this]
  simp [State.request, hcb]

end

theorem enter_eq [Fintype B] (hI : Inv s q) (hp : s.phase p = .called b d) :
    s.enter p b d =
    some ((if q = [] then (s.link b d none).idestart (some b)
    else .ok (s.link b d (lastCell none q))).map
      fun s₂ => s₂.wait p b s.appended.length d) := by
  obtain ⟨hbq, -⟩ := hI.called p b d hp
  have hchain : Chain (upd s.qnext b none) s.idequeue q := hI.chain.congr fun c hc => by
    have : c ≠ b := fun h => hbq (h ▸ hc)
    simp [this]
  have hlen : q.length < Fintype.card B + 1 := Nat.lt_succ_of_le hI.nodup.length_le_card
  have htail : State.tail { s with qnext := upd s.qnext b none } (Fintype.card B + 1) none =
      some (lastCell none q) :=
    State.tail_eq hchain hlen
  unfold State.enter
  rw [htail]
  refine congrArg some (congrArg (Except.map _) ?_)
  cases q with
  | nil => exact if_pos rfl
  | cons c q =>
    refine (if_neg ?_).trans (if_neg (by simp)).symm
    have hcb : c ≠ b := fun h => hbq (by simp [h])
    have hlast : ∃ a, lastCell none (c :: q) = some a := by simp [lastCell, List.getLast?_cons]
    obtain ⟨a, ha⟩ := hlast
    have hhead : s.idequeue = some c := hI.chain.1
    simp [ha, State.link, State.setCell, hhead, hcb]

/-- **`iderw` keeps the invariant**: it appends the buffer and goes to sleep. -/
theorem enter [Fintype B] (hI : Inv s q) (hp : s.phase p = .called b d)
    (hs : s.enter p b d = some (.ok s')) :
    Inv s' (q ++ [b]) ∧ s'.phase p = .asleep b s.appended.length d ∧
    s'.appended = s.appended ++ [⟨b, d⟩] := by
  obtain ⟨hbq, hdirty, hsync⟩ := hI.called p b d hp
  have hchain := hI.chain_link (d := d) hbq
  rw [hI.enter_eq hp, Option.some.injEq] at hs
  obtain ⟨s₂, hs2, rfl⟩ := Except.map_eq_ok hs
  split_ifs at hs2 with hq
  · subst hq
    obtain rfl := idestart_ok hs2
    rw [lastCell_nil] at hchain
    have hirq := hI.irq
    have hstarted := hI.started
    simp only [State.wait, State.link, State.setCell, hsync, Bool.false_eq_true,
      ↓reduceIte] at hchain ⊢
    refine ⟨hI.append hp hchain rfl rfl rfl rfl rfl ?_ ?_, by simp, trivial⟩
    · simp [hirq]
    · simpa [State.request, write_command] using hstarted
  · cases hs2
    obtain ⟨a, r, rfl⟩ := exists_cons_of_ne_nil hq
    have hlast : ∃ z, lastCell none (a :: r) = some z := by simp [lastCell, List.getLast?_cons]
    obtain ⟨z, hz⟩ := hlast
    rw [hz] at hchain ⊢
    simp only [State.wait, State.link, State.setCell, hsync, Bool.false_eq_true,
      ↓reduceIte] at hchain ⊢
    exact ⟨hI.append hp hchain rfl rfl rfl rfl rfl hI.irq hI.started, by simp, trivial⟩

theorem step [Fintype B] (hI : Inv s q) (hst : s.step l = some (.ok s')) : ∃ q', Inv s' q' := by
  cases l with
  | lock p b =>
    simp only [State.step] at hst
    split_ifs at hst with hc
    cases hst
    refine ⟨q, hI.setOwner fun p' hp' => ?_⟩
    simp [hI.owner p' b hp'] at hc
  | unlock p b =>
    simp only [State.step] at hst
    split_ifs at hst with hc
    cases hst
    refine ⟨q, hI.setOwner fun p' hp' => ?_⟩
    obtain rfl : p = p' := Option.some.inj (hc.2.symm.trans (hI.owner p' b hp'))
    simp [hc.1, Phase.buf?] at hp'
  | touch b x =>
    simp only [State.step] at hst
    split_ifs at hst with hc
    cases hst
    exact ⟨q, hI.touch hc x⟩
  | call p b =>
    simp only [State.step] at hst
    split_ifs at hst with hc
    exact ⟨q, hI.call hc (Option.some.inj hst)⟩
  | enter p =>
    simp only [State.step] at hst
    split at hst
    · rename_i b d hp
      exact ⟨_, (hI.enter hp hst).1⟩
    · simp at hst
  | intr ok data =>
    simp only [State.step] at hst
    split_ifs at hst with hc
    exact ⟨_, hI.ideintr hc (Option.some.inj hst)⟩
  | kill p =>
    simp only [State.step] at hst
    split at hst
    · rename_i b i d hp
      cases hst
      exact ⟨q, hI.kill hp⟩
    · simp at hst
  | resume p =>
    simp only [State.step] at hst
    split at hst
    · rename_i b i d hp
      cases hst
      exact ⟨q, hI.resume hp⟩
    · simp at hst

end Inv

/-! ### Runs -/

theorem system_step [Fintype B] : (system P B D).step s l s' ↔ s.step l = some (.ok s') := by
  simp only [system, LTS.ofFun, Option.bind_eq_some_iff]
  constructor
  · rintro ⟨x, hx, hs⟩
    cases x with
    | error e => simp [Except.toOption] at hs
    | ok s₁ =>
      obtain rfl : s₁ = s' := by simpa [Except.toOption] using hs
      exact hx
  · intro h
    exact ⟨_, h, rfl⟩

theorem Inv.run [Fintype B] (h0 : Initial s) (hr : (system P B D).Run s ls s') : ∃ q, Inv s' q :=
  hr.invariant (I := fun s => ∃ q, Inv s q) ⟨[], h0.inv⟩ fun _ _ _ hI hst => hI.elim fun _ hI =>
    hI.step (system_step.1 hst)

theorem Inv.returns [Fintype B] (hI : Inv s q) (hp : s.phase p = .ready b i d)
    (hst : s.step (.resume p) = some (.ok s')) (hidle : s'.phase p = .idle) : s.completed[i]? =
    some ⟨b, d⟩ ∧ (s'.buf b).valid = true ∧ (s'.buf b).dirty = false := by
  simp only [State.step, hp, Option.some.injEq, Except.ok.injEq] at hst
  subst hst
  have hsync : (s.buf b).synced = true := by
    by_contra hno
    simp [State.wait, hno] at hidle
  obtain ⟨happ, hw⟩ := hI.waits p (i, ⟨b, d⟩) (by rw [hp]; rfl)
  obtain ⟨-, hlt⟩ := hw.resolve_left fun hbq => by simp [hI.busy b hbq] at hsync
  rw [hI.appended, List.getElem?_append_left hlt] at happ
  refine ⟨happ, ?_⟩
  simpa [Buf.synced, State.wait] using hsync

theorem Inv.enabled [Fintype B] (hI : Inv s q) (hp : s.phase p = .called b d)
    (hb : (s.buf b).blockno < fssize) :
    ∃ s', s.step (.enter p) = some (.ok s') := by
  simp only [State.step, hp]
  rw [hI.enter_eq hp]
  split_ifs with hq
  · have hlink : (s.link b d none).buf b = s.buf b := rfl
    rw [State.idestart, hlink, if_neg (Nat.not_le.2 hb), if_neg (by decide)]
    exact ⟨_, rfl⟩
  · exact ⟨_, rfl⟩

/-- **The disk queue**, in every run: it has no buffer twice, and its head, if any, is the one
transfer that the device has been given and has not completed; requests are started and completed in
the order in which they were appended, in the direction that `B_DIRTY` gave at the call; a call
returns after its own transfer, with its buffer valid and clean; and it gets to the queue unless its
block number is too large. -/
theorem queue_holds [Fintype B] (h₀ : Initial s) (hr : (system P B D).Run s ls s') :
    (∃ q, Chain s'.qnext s'.idequeue q ∧ q.Nodup ∧ s'.irq = (q.take 1).length ∧
      s'.appended.map Request.buf = s'.completed.map Request.buf ++ q ∧
      s'.started.map Prod.fst = s'.completed.map Request.buf ++ q.take 1) ∧
    (s'.completed <+: s'.started.map (fun x => ⟨x.1, x.2.write⟩)) ∧
    (s'.started.map (fun x => ⟨x.1, x.2.write⟩) <+: s'.appended) ∧
    (∀ p b t, s'.step (.call p b) = some (.ok t) → t.phase p = .called b (s'.buf b).dirty) ∧
    (∀ p b d t, s'.phase p = .called b d → s'.step (.enter p) = some (.ok t) →
      t.phase p = .asleep b s'.appended.length d ∧ t.appended = s'.appended ++ [⟨b, d⟩]) ∧
    (∀ p b i d t, s'.phase p = .ready b i d → s'.step (.resume p) = some (.ok t) →
      t.phase p = .idle → s'.completed[i]? = some ⟨b, d⟩ ∧ (t.buf b).valid = true ∧
      (t.buf b).dirty = false) ∧
    ∀ p b d, s'.phase p = .called b d → (s'.buf b).blockno < fssize → ∃ t, s'.step (.enter p) =
    some (.ok t) := by
  obtain ⟨q, hI⟩ := Inv.run h₀ hr
  have hmap : ∀ r : List B, (r.map s'.request).map Request.buf = r := fun r => by
    simp [map_map, Function.comp_def, State.request]
  refine ⟨⟨q, hI.chain, hI.nodup, hI.irq, ?_, ?_⟩, ?_, ?_, fun p b t ht => ?_,
    fun p b d t hp ht => ?_, fun p b i d t => hI.returns, fun p b d => hI.enabled⟩
  · rw [hI.appended, map_append, hmap]
  · have h := congrArg (List.map Request.buf) hI.started
    rw [map_append, hmap, map_map] at h
    exact h
  · rw [hI.started]
    exact prefix_append _ _
  · rw [hI.started, hI.appended]
    exact prefix_append_right_inj _ |>.2 (( take_prefix 1 q).map _)
  · simp only [State.step] at ht
    split_ifs at ht
    have hcall := Option.some.inj ht
    unfold State.call at hcall
    split_ifs at hcall
    rw [← Except.ok.inj hcall]
    simp
  · have hstep := ht
    simp only [State.step, hp] at hstep
    exact (hI.enter hp hstep).2

/-- Two processes and two buffers, of which one is dirty. -/
def start : State Bool Bool Unit where
  buf b := ⟨0, 5, b, b, ()⟩
  qnext _ := none
  idequeue := none
  havedisk1 := false
  irq := 0
  owner _ := none
  phase _ := .idle
  appended := []
  started := []
  completed := []

/-- Both processes call `iderw`; the first one returns. -/
def shortRun : List (Label Bool Bool Unit) :=
  [.lock true true, .lock false false, .call true true, .call false false, .enter true, .kill true,
      .enter false, .resume true,
    .intr true (), .resume true]

theorem queue_holds_run : ∃ s, (system Bool Bool Unit).Run start shortRun s ∧
    s.completed = [⟨true, true⟩] ∧ s.idequeue = some false ∧ s.irq = 1 ∧
    s.completed <+: s.started.map (fun x => ⟨x.1, x.2.write⟩) := by
  obtain ⟨s, hs, hd⟩ := Option.map_eq_some_iff.1 (show
    (LTS.exec (fun s l => (State.step s l).bind Except.toOption) start shortRun).map
      (fun s => (s.completed, s.idequeue, s.irq)) = some ([⟨true, true⟩], some false, 1) by
      decide +kernel)
  have hr := LTS.run_of_exec hs
  simp only [Prod.mk.injEq] at hd
  exact ⟨s, hr, hd.1, hd.2.1, hd.2.2,
    (queue_holds ⟨rfl, rfl, fun _ => rfl, fun _ => rfl, rfl, rfl, rfl⟩ hr).2.1⟩

end

end Ide

end Xv6
