import Xv6.Console.Input

/-!
# The line discipline of the console

`Lines` is what the console is for: a queue of committed bytes and a line that is being edited.  The
ring buffer of the kernel shows it (`Input.lines`): the bytes from `r` to `w` are the queue and
those from `w` to `e` the line.

* `Console.Input.Inv` : the indices are in step, and the line has no newline in it, so that `C('U')`
  removes all of it.
* `Console.console_refines` : **for every sequence of interrupts and reads the kernel delivers the
  bytes that the reference model delivers**, also when the indices have wrapped around.
-/

namespace Xv6

open List

namespace Console

/-! ## The reference model -/

/-- The committed bytes and the line that is being edited. -/
structure Lines where
  queue : List UInt8
  line : List UInt8

namespace Lines

/-- One character is typed; the flag says whether the line is committed. -/
def key (x : Lines) (c : UInt8) : Lines × Bool :=
  if c = ctrl 'H' ∨ c = del then ({ x with line := x.line.dropLast }, false)
  else if c = ctrl 'U' then ({ x with line := [] }, false)
  else if c = ctrl 'P' ∨ c = 0 then (x, false)
  else if x.queue.length + x.line.length < inputBuf then
    let c := if c = carriageReturn then newline else c
    let line := x.line ++ [c]
    if c = newline ∨ c = ctrl 'D' ∨ x.queue.length + line.length =
      inputBuf then (⟨x.queue ++ line, []⟩, true)
    else (⟨x.queue, line⟩, false)
  else (x, false)

/-- Characters are typed one after the other. -/
def type (x : Lines) : List UInt8 → Lines × Bool
  | [] => (x, false)
  | c :: cs => ((x.key c).1.type cs).map id ((x.key c).2 || ·)

/-- A read that still wants `n` bytes and has delivered `got`. -/
def read : ℕ → Lines → List UInt8 → Lines × Outcome
  | 0, x, got => (x, .done got)
  | n + 1, ⟨[], line⟩, got => (⟨[], line⟩, .sleep (n + 1) got)
  | n + 1, ⟨c :: queue, line⟩, got =>
    if c = ctrl 'D' then (if got = [] then ⟨queue, line⟩ else ⟨c :: queue, line⟩, .done got)
    else if c = newline then (⟨queue, line⟩, .done (got ++ [c]))
    else read n ⟨queue, line⟩ (got ++ [c])

end Lines

/-- The reference system. -/
def reference (P : Type*) [DecidableEq P] : LTS (Sys P Lines) (Label P) :=
  .ofFun (Sys.step Lines.type fun _ => Lines.read)

/-! ## The ring buffer -/

namespace Input

variable {i : Input} {c : UInt8}

/-- The bytes in the buffer. -/
def contents (i : Input) : List UInt8 := i.ring.contents uintSize inputBuf

/-- What the buffer stands for. -/
def lines (i : Input) : Lines := ⟨i.contents.take i.ready, i.contents.drop i.ready⟩

/-- The indices are in step, and there is no newline in the line. -/
structure Inv (i : Input) : Prop where
  ok : i.ring.Ok uintSize inputBuf
  w_lt : i.w < uintSize
  ready_le : i.ready ≤ i.used
  line : newline ∉ i.contents.drop i.ready

theorem dvd : inputBuf ∣ uintSize := by decide

theorem lt : inputBuf < uintSize := by decide

@[simp] theorem length_contents (i : Input) : i.contents.length = i.used := Ring.length_contents

theorem ready_congr {j : Input} (hr : i.r = j.r) (hw : i.w = j.w) : i.ready = j.ready := by
  unfold ready
  rw [hr, hw]

theorem back_r (i : Input) : i.back.r = i.r := by
  cases i
  rfl

theorem back_w (i : Input) : i.back.w = i.w := by
  cases i
  rfl

theorem back_ring (i : Input) : i.back.ring = i.ring.unpush uintSize := by
  cases i
  rfl

theorem back_ready (i : Input) : i.back.ready = i.ready := ready_congr i.back_r i.back_w

theorem put_ready (i : Input) (c : UInt8) : (i.put c).ready = i.ready := ready_congr rfl rfl

namespace Inv

theorem length_queue (h : i.Inv) : i.lines.queue.length = i.ready := by
  simp [lines, h.ready_le]

theorem length_line (_ : i.Inv) : i.lines.line.length = i.used - i.ready := by
  simp [lines]

theorem length (h : i.Inv) : i.lines.queue.length + i.lines.line.length = i.used := by
  rw [h.length_queue, h.length_line]
  have := h.ready_le
  omega

theorem e_eq_w_iff (h : i.Inv) : i.e = i.w ↔ i.ready = i.used := by
  have h1 : i.r < uintSize := h.ok.rd_lt
  have h2 : i.e < uintSize := h.ok.wr_lt
  have h3 := h.w_lt
  simp only [ready, used, ring, Ring.used, uintSize] at *
  omega

theorem r_eq_w_iff (h : i.Inv) : i.r = i.w ↔ i.ready = 0 := by
  have h1 : i.r < uintSize := h.ok.rd_lt
  have h3 := h.w_lt
  simp only [ready, uintSize] at *
  omega

theorem line_eq_nil_iff (h : i.Inv) : i.lines.line = [] ↔ i.e = i.w := by
  rw [h.e_eq_w_iff, ← length_eq_zero_iff, h.length_line]
  have := h.ready_le
  omega

/-! ### Typing -/

theorem back (h : i.Inv) (hne : i.e ≠ i.w) :
    i.back.Inv ∧ i.back.lines = { i.lines with line := i.lines.line.dropLast } ∧
    i.back.used + 1 = i.used ∧
      i.contents = i.back.contents ++ [i.last] := by
  have hlt : i.ready < i.used := lt_of_le_of_ne h.ready_le fun he => hne (h.e_eq_w_iff.2 he)
  have hpos : 0 < i.ring.used uintSize := Nat.lt_of_le_of_lt (Nat.zero_le _) hlt
  have hused : i.back.used + 1 = i.used := by
    rw [used, i.back_ring]
    exact h.ok.used_unpush hpos
  have hcont : i.contents = i.back.contents ++ [i.last] := by
    rw [contents, contents, i.back_ring]
    exact Ring.contents_unpush h.ok dvd hpos
  have hready := i.back_ready
  have hlen : i.ready ≤ i.back.contents.length := by
    rw [length_contents]
    omega
  have hdrop : i.contents.drop i.ready = i.back.contents.drop i.ready ++ [i.last] := by
    rw [hcont, drop_append_of_le_length hlen]
  refine ⟨⟨?_, ?_, ?_, fun hn => h.line ?_⟩, ?_, hused, hcont⟩
  · rw [i.back_ring]
    exact h.ok.unpush hpos
  · rw [i.back_w]
    exact h.w_lt
  · omega
  · rw [hdrop]
    exact mem_append_left _ (hready ▸ hn)
  · simp only [lines]
    rw [hready, hdrop, dropLast_concat, hcont, take_append_of_le_length hlen]

theorem last_ne (h : i.Inv) (hne : i.e ≠ i.w) : i.last ≠ newline := by
  intro hl
  obtain ⟨hb, -, hused, hcont⟩ := h.back hne
  refine h.line ?_
  have hlen : i.ready ≤ i.back.contents.length := by
    rw [length_contents, ← i.back_ready]
    exact hb.ready_le
  rw [hcont, drop_append_of_le_length hlen, hl]
  simp

theorem killLine {n : ℕ} (h : i.Inv) (hn : i.used - i.ready ≤ n) :
    (i.killLine n).Inv ∧ (i.killLine n).lines = { i.lines with line := [] } := by
  induction n generalizing i with
  | zero =>
    have hnil : i.lines.line = [] := length_eq_zero_iff.1 (by rw [h.length_line]; omega)
    refine ⟨h, ?_⟩
    show i.lines = _
    rw [← hnil]
  | succ n ih =>
    by_cases hne : i.e = i.w
    · rw [Input.killLine, if_neg (by simp [hne])]
      exact ⟨h, by rw [← h.line_eq_nil_iff.2 hne]⟩
    rw [Input.killLine, if_pos ⟨hne, h.last_ne hne⟩]
    obtain ⟨hb, hlines, hused, -⟩ := h.back hne
    have hready := i.back_ready
    obtain ⟨hk, hx⟩ := ih hb (by omega)
    exact ⟨hk, by rw [hx, hlines]⟩

theorem put (h : i.Inv) (hlt : i.used < inputBuf) :
    (i.put c).ring.Ok uintSize inputBuf ∧ (i.put c).used = i.used + 1 ∧
    (i.put c).contents = i.contents ++ [c] :=
  ⟨h.ok.push lt hlt, h.ok.used_push (x := c) lt hlt, Ring.contents_push h.ok lt dvd hlt⟩

theorem put_lines (h : i.Inv) (hlt : i.used < inputBuf) (hc : c ≠ newline) :
    (i.put c).Inv ∧ (i.put c).lines = { i.lines with line := i.lines.line ++ [c] } := by
  obtain ⟨hok, hused, hcont⟩ := h.put (c := c) hlt
  have hready := i.put_ready c
  have hlen : i.ready ≤ i.contents.length := by
    rw [length_contents]
    exact h.ready_le
  have hdrop : (i.put c).contents.drop (i.put c).ready = i.contents.drop i.ready ++ [c] := by
    rw [hcont, hready, drop_append_of_le_length hlen]
  have hw : (i.put c).w = i.w := rfl
  refine ⟨⟨hok, by rw [hw]; exact h.w_lt, by have := h.ready_le; omega, fun hn => ?_⟩, ?_⟩
  · rw [hdrop, mem_append, mem_singleton] at hn
    exact hn.elim h.line fun he => hc he.symm
  unfold lines
  rw [hdrop]
  congr 1
  rw [hcont, hready, take_append_of_le_length hlen]

theorem commit_lines (h : i.Inv) (hlt : i.used < inputBuf) :
    (i.put c).commit.Inv ∧ (i.put c).commit.lines =
    ⟨i.lines.queue ++ (i.lines.line ++ [c]), []⟩ := by
  obtain ⟨hok, hused, hcont⟩ := h.put (c := c) hlt
  have hready : (i.put c).commit.ready = (i.put c).commit.contents.length := by
    rw [length_contents]
    rfl
  refine ⟨⟨hok, hok.wr_lt, le_of_eq (hready.trans (length_contents _)), ?_⟩, ?_⟩
  · rw [hready, drop_length]
    exact not_mem_nil
  · unfold lines
    rw [hready, drop_length, take_length, ← append_assoc, take_append_drop]
    exact congrArg (Lines.mk · []) hcont

theorem key (h : i.Inv) (c : UInt8) :
    (i.key c).1.Inv ∧ ((i.key c).1.lines, (i.key c).2) = i.lines.key c := by
  unfold Input.key Lines.key
  by_cases hP : c = ctrl 'P'
  · subst hP
    exact ⟨h, rfl⟩
  by_cases hU : c = ctrl 'U'
  · subst hU
    have hle : i.used - i.ready ≤ (i.e + (uintSize - i.w)) % uintSize := by
      have h1 : i.r < uintSize := h.ok.rd_lt
      have h2 : i.e < uintSize := h.ok.wr_lt
      have h3 := h.w_lt
      simp only [ready, used, ring, Ring.used, uintSize] at *
      omega
    obtain ⟨hk, hx⟩ := h.killLine hle
    exact ⟨hk, congrArg (·, false) hx⟩
  by_cases hH : c = ctrl 'H' ∨ c = del
  · simp only [if_neg hP, if_neg hU, if_pos hH]
    by_cases hne : i.e = i.w
    · rw [if_neg (by simp [hne])]
      have hnil := h.line_eq_nil_iff.2 hne
      have hx : i.lines.line.dropLast = i.lines.line := by
        rw [hnil]
        rfl
      exact ⟨h, by rw [hx]⟩
    · rw [if_pos hne]
      obtain ⟨hb, hx, -⟩ := h.back hne
      exact ⟨hb, congrArg (·, false) hx⟩
  simp only [if_neg hP, if_neg hU, if_neg hH]
  by_cases h0 : c = 0
  · simp only [h0]
    exact ⟨h, rfl⟩
  simp only [h0, hP, ne_eq, not_false_eq_true, true_and, or_self, if_false, h.length]
  by_cases hlt : i.used < inputBuf
  · simp only [if_pos hlt]
    generalize (if c = carriageReturn then newline else c) = c'
    have hfull : (i.put c').e = ((i.put c').r + inputBuf) % uintSize ↔
        i.lines.queue.length + (i.lines.line ++ [c']).length = inputBuf := by
      obtain ⟨hok, hused, -⟩ := h.put (c := c') hlt
      rw [length_append, length_singleton, ← add_assoc, h.length, ← hused]
      exact hok.full_iff lt
    simp only [hfull]
    split_ifs with hc
    · obtain ⟨hi, hx⟩ := h.commit_lines (c := c') hlt
      exact ⟨hi, congrArg (·, true) hx⟩
    · obtain ⟨hi, hx⟩ := h.put_lines (c := c') hlt fun he => hc (.inl he)
      exact ⟨hi, congrArg (·, false) hx⟩
  · simp only [if_neg hlt]
    exact ⟨h, trivial⟩

theorem consoleintr (h : i.Inv) (cs : List UInt8) :
    (i.consoleintr cs).1.Inv ∧ ((i.consoleintr cs).1.lines, (i.consoleintr cs).2) =
    i.lines.type cs := by
  induction cs generalizing i with
  | nil => exact ⟨h, rfl⟩
  | cons c cs ih =>
    obtain ⟨hk, hx⟩ := h.key c
    obtain ⟨hi, hy⟩ := ih hk
    refine ⟨hi, ?_⟩
    rw [Lines.type, ← hx, ← hy]
    rfl

/-! ### Reading -/

theorem advance (h : i.Inv) (hne : i.r ≠ i.w) :
    i.advance.Inv ∧
    i.lines = { i.advance.lines with queue := i.next :: i.advance.lines.queue } := by
  have hpos : 0 < i.ready := Nat.pos_of_ne_zero fun h0 => hne (h.r_eq_w_iff.2 h0)
  have hready : i.advance.ready + 1 = i.ready := by
    have h1 : i.r < uintSize := h.ok.rd_lt
    have h3 := h.w_lt
    simp only [ready, Input.advance, uintSize] at *
    omega
  have hused : 0 < i.ring.used uintSize := hpos.trans_le h.ready_le
  have hcont : i.contents = i.next :: i.advance.contents := Ring.contents_pop h.ok dvd hused
  have hlen : i.advance.used + 1 = i.used := h.ok.used_pop hused
  have hle := h.ready_le
  have hdrop : i.contents.drop i.ready = i.advance.contents.drop i.advance.ready := by
    rw [hcont, ← hready, drop_succ_cons]
  refine ⟨⟨h.ok.pop hused, h.w_lt, by omega, ?_⟩, ?_⟩
  · rw [← hdrop]
    exact h.line
  · simp only [lines]
    rw [hdrop, hcont, ← hready, take_succ_cons]

end Inv

theorem advance_retreat {i : Input} (hr : i.r < uintSize) : i.advance.retreat = i := by
  obtain ⟨buf, r, w, e⟩ := i
  simp only [Input.advance, Input.retreat, Input.mk.injEq, true_and, and_true]
  simp only [uintSize] at *
  omega

end Input

/-- The number of bytes that a reader has got and those that it wants. -/
def Outcome.Counts (target : ℕ) : Outcome → Prop
  | .sleep n got => got.length + n = target
  | .done _ => True

theorem consoleread_lines {i : Input} {target n : ℕ} {got : List UInt8} (h : i.Inv)
    (hn : got.length + n = target) :
    (consoleread target n i got).1.Inv ∧ (consoleread target n i got).2.Counts target ∧
      ((consoleread target n i got).1.lines, (consoleread target n i got).2) =
      Lines.read n i.lines got := by
  induction n generalizing i got with
  | zero => exact ⟨h, trivial, by rw [consoleread, Lines.read]⟩
  | succ n ih =>
    unfold consoleread
    by_cases hrw : i.r = i.w
    · have hq : i.lines.queue = [] :=
        length_eq_zero_iff.1 (by rw [h.length_queue, h.r_eq_w_iff.1 hrw])
      rw [if_pos hrw]
      refine ⟨h, hn, ?_⟩
      have hx : i.lines = ⟨[], i.lines.line⟩ := by rw [← hq]
      rw [hx]
      rfl
    obtain ⟨ha, hx⟩ := h.advance hrw
    rw [if_neg hrw, hx, Lines.read]
    by_cases hd : i.next = ctrl 'D'
    · have hgot : n + 1 < target ↔ ¬ got = [] := by
        rw [← length_eq_zero_iff]
        omega
      simp only [if_pos hd, hgot]
      by_cases hg : got = []
      · simp only [hg, not_true_eq_false, if_false, if_true]
        exact ⟨ha, trivial, trivial⟩
      · simp only [hg, not_false_eq_true, if_true, if_false, Input.advance_retreat h.ok.rd_lt]
        exact ⟨h, trivial, congrArg (·, Outcome.done got) hx⟩
    · simp only [if_neg hd]
      split_ifs with hl
      · exact ⟨ha, trivial, rfl⟩
      · exact ih ha (by rw [length_append, length_singleton]; omega)

/-! ## The system -/

namespace Phase

/-- A reader has got what it does not want any more. -/
def Counts : Phase → Prop
  | .idle => True
  | .asleep target n got | .woken target n got => got.length + n = target

theorem Counts.wake {ph : Phase} (h : ph.Counts) : ph.wake.Counts := by
  cases ph <;> exact h

end Phase

namespace Sys

variable {P : Type*} [DecidableEq P] {s : Sys P Input} {l : Label P}

/-- What the system stands for. -/
def lines (s : Sys P Input) : Sys P Lines := ⟨s.input.lines, s.phase, s.returned⟩

/-- The invariant. -/
structure Inv (s : Sys P Input) : Prop where
  input : s.input.Inv
  counts : ∀ p, (s.phase p).Counts

theorem Inv.ends {p : P} {target n : ℕ} {got : List UInt8} (h : s.Inv)
    (hn : got.length + n = target) :
    (s.ends p target (consoleread target n s.input got)).Inv ∧
      (s.ends p target (consoleread target n s.input got)).lines =
        s.lines.ends p target (Lines.read n s.input.lines got) := by
  obtain ⟨hi, hc, hx⟩ := consoleread_lines h.input hn
  rw [← hx]
  generalize consoleread target n s.input got = y at hi hc
  obtain ⟨i, o⟩ := y
  cases o with
  | sleep n' got' =>
    exact ⟨⟨hi, upd_forall (F := fun _ (ph : Phase) => ph.Counts) hc fun q _ => h.counts q⟩, rfl⟩
  | done got' =>
    exact ⟨⟨hi, upd_forall (F := fun _ (ph : Phase) => ph.Counts) trivial fun q _ => h.counts q⟩,
      rfl⟩

/-- **One step of the kernel is one step of the reference model.** -/
theorem Inv.step (h : s.Inv) (l : Label P) :
    (∀ s', s.step Input.consoleintr consoleread l = some s' → s'.Inv) ∧
      (s.step Input.consoleintr consoleread l).map lines = s.lines.step Lines.type
      (fun _ => Lines.read) l := by
  cases l with
  | intr cs =>
    obtain ⟨hi, hx⟩ := h.input.consoleintr cs
    refine ⟨?_, ?_⟩
    · rintro s' hs
      cases hs
      refine ⟨hi, fun p => ?_⟩
      show (ite _ _ _ : P → Phase) p |>.Counts
      split_ifs
      · exact (h.counts p).wake
      · exact h.counts p
    · show some _ = some _
      simp only [lines, ← hx]
  | read p n =>
    simp only [Sys.step, lines]
    cases hp : s.phase p with
    | idle =>
      obtain ⟨hi, hx⟩ := h.ends (p := p) (by simp : ([] : List UInt8).length + n.toNat = n.toNat)
      refine ⟨?_, congrArg some hx⟩
      rintro s' hs
      cases hs
      exact hi
    | asleep target k got | woken target k got => exact ⟨by simp, rfl⟩
  | resume p =>
    simp only [Sys.step, lines]
    have hc := h.counts p
    cases hp : s.phase p with
    | idle | asleep target k got => exact ⟨by simp, rfl⟩
    | woken target k got =>
      rw [hp] at hc
      obtain ⟨hi, hx⟩ := h.ends (p := p) hc
      refine ⟨?_, congrArg some hx⟩
      rintro s' hs
      cases hs
      exact hi

end Sys

variable {P : Type*} [DecidableEq P]

theorem Input.inv_init : Input.init.Inv where
  ok := ⟨by decide, by decide, by decide⟩
  w_lt := by decide
  ready_le := by decide
  line := by decide

omit [DecidableEq P] in
theorem Sys.lines_init : (Sys.init Input.init : Sys P Input).lines = .init ⟨[], []⟩ := by
  have hnil : Input.init.contents = [] :=
    length_eq_zero_iff.1 (by rw [Input.length_contents]; decide)
  simp only [Sys.lines, Sys.init, Input.lines, hnil, take_nil, drop_nil]

theorem Sys.run_inv {ls : List (Label P)} {s : Sys P Input}
    (hrun : (sys P).Run (.init .init) ls s) :
    s.Inv ∧ (reference P).Run (.init ⟨[], []⟩) ls s.lines := by
  refine hrun.invariant_history (I := fun ls s => s.Inv ∧
    (reference P).Run (.init ⟨[], []⟩) ls s.lines) ⟨⟨Input.inv_init, fun _ => trivial⟩, by
    rw [Sys.lines_init]; exact .nil⟩ ?_
  rintro ls s₁ l s₂ - ⟨h, hr⟩ hs
  obtain ⟨hi, hx⟩ := h.step l
  have hs : s₁.step Input.consoleintr consoleread l = some s₂ := hs
  rw [hs] at hx
  exact ⟨hi s₂ hs, hr.snoc hx.symm⟩

/-- **The console is its line discipline**: the indices stay in step, what the kernel does is what
the reference model does for the same interrupts and reads, and it does all of it. -/
theorem console_refines (ls : List (Label P)) :
    (∀ s, (sys P).Run (.init .init) ls s →
      (s.input.ready ≤ s.input.used ∧ s.input.used ≤ inputBuf) ∧
      (reference P).Run (.init ⟨[], []⟩) ls s.lines) ∧
    ∀ x, (reference P).Run (.init ⟨[], []⟩) ls x → ∃ s, (sys P).Run (.init .init) ls s ∧
    s.lines = x := by
  refine ⟨fun s hrun => ?_, fun x hrun => ?_⟩
  · obtain ⟨h, hr⟩ := Sys.run_inv hrun
    exact ⟨⟨h.input.ready_le, h.input.ok.used_le⟩, hr⟩
  refine hrun.invariant_history (I := fun ls x => ∃ s, (sys P).Run (.init .init) ls s ∧
    s.lines = x) ⟨_, .nil, Sys.lines_init⟩ ?_
  rintro ls x₁ l x₂ - ⟨s₁, hr, rfl⟩ hs
  have hs : s₁.lines.step Lines.type (fun _ => Lines.read) l = some x₂ := hs
  obtain ⟨-, hx⟩ := (Sys.run_inv hr).1.step l
  rw [hs, Option.map_eq_some_iff] at hx
  obtain ⟨s₂, hs₂, hl⟩ := hx
  exact ⟨s₂, hr.snoc hs₂, hl⟩

/-- A line is typed with a mistake and read in two parts, the second of them by a process that has
to wait. -/
def typing : List (Label Bool) :=
  [.intr [104, 121, ctrl 'H', 105, carriageReturn], .read false 2, .read true 5, .read false 5,
      .intr [ctrl 'D', 97],
    .resume false]

theorem console_refines_typing : ∃ s, (sys Bool).Run (.init .init) typing s ∧
    s.returned = [(false, [104, 105]), (true, [newline]), (false, [])] := by
  obtain ⟨x, hexec, hret⟩ : ∃ x, LTS.exec (Sys.step Lines.type fun _ => Lines.read) (.init ⟨[], []⟩)
    typing = some x ∧
      x.returned = [(false, [104, 105]), (true, [newline]), (false, [])] := ⟨_, rfl, rfl⟩
  obtain ⟨s, hrun, rfl⟩ := (console_refines typing).2 x (LTS.run_of_exec hexec)
  exact ⟨s, hrun, hret⟩

end Console

end Xv6
