import Xv6.Log.GroupCommit

/-!
# Reservation of log space

`begin_op` admits an operation while `lh.n + (outstanding + 1) * MAXOPBLOCKS ≤ LOGSIZE`, that is,
it reserves space for `LOGSIZE` blocks.  `mkfs` makes a log of `LOGSIZE` blocks, one of which is
the header, and `log_write` panics when `LOGSIZE - 1` blocks are logged already, even if the block
it is called for is one of them.  So three operations that stay within `MAXOPBLOCKS` blocks each
can overflow the log (`reservation_overflow`).

The test is made before `log_write` takes `log.lock`.  So two calls that overlap can both pass it
with `LOGSIZE - 2` blocks logged, and then record `LOGSIZE` blocks, one more than the log has room
for.

`log_write_fits_iff` tells exactly which runs neither panic nor record too many blocks; in terms of
`Proto.History`, which relates the header to the calls of `log_write` since the log was last
emptied.
-/

namespace Xv6

open List

namespace Log

variable {P : Type*}

/-- How a step changes the list of blocks logged since the log was last emptied. -/
def txnStep (bs : List ℕ) : Event P → List ℕ
  | .append _ b => bs ++ [b]
  | .clear _ => []
  | _ => bs

/-- The blocks that the current transaction's operations have logged, according to the events of
the run so far. -/
def txnBlocks (es : List (Event P)) : List ℕ := es.foldl txnStep []

theorem txnBlocks_snoc (es : List (Event P)) (e : Event P) :
    txnBlocks (es ++ [e]) = txnStep (txnBlocks es) e := by
  simp [txnBlocks]

theorem length_txnBlocks_le (es : List (Event P)) : (txnBlocks es).length ≤ es.length := by
  induction es using List.reverseRecOn with
  | nil => simp [txnBlocks]
  | append_singleton es e ih =>
    rw [txnBlocks_snoc, length_append]
    cases e <;> simp only [txnStep, length_append, length_nil, length_singleton] <;>
      omega

theorem card_txnBlocks_le (es : List (Event P)) : (txnBlocks es).toFinset.card ≤ es.length :=
  (toFinset_card_le _).trans (length_txnBlocks_le es)

/-- Only the recording of a block adds to the transaction. -/
theorem card_txnBlocks_le_of_append {n : ℕ} {es : List (Event P)}
    (h : ∀ es₁ p b es₂, es = es₁ ++ .append p b :: es₂ →
      (txnBlocks (es₁ ++ [.append p b])).toFinset.card ≤ n) : (txnBlocks es).toFinset.card ≤ n := by
  induction es using List.reverseRecOn with
  | nil => simp [txnBlocks]
  | append_singleton es e ih =>
    have hes := ih fun es₁ p b es₂ he => h es₁ p b (es₂ ++ [e]) (by simp [he])
    cases e with
    | append p b => exact h es p b [] rfl
    | clear p => simp [txnBlocks_snoc, txnStep]
    | _ => rwa [txnBlocks_snoc]

/-- Every operation logs at most `MAXOPBLOCKS` distinct blocks. -/
def Budget (s : Proto P) : Event P → Prop
  | .logWrite p b => ((s.phase p).logged ++ [b]).toFinset.card ≤ maxOpBlocks
  | _ => True

instance (s : Proto P) (e : Event P) : Decidable (Budget s e) := by
  cases e <;> unfold Budget <;> infer_instance

namespace Proto

/-- The header names each logged block of the transaction once. -/
structure History (es : List (Event P)) (s : Proto P) : Prop where
  nodup : s.lh.Nodup
  lh : s.lh.toFinset = (txnBlocks es).toFinset

theorem History.length {es : List (Event P)} {s : Proto P} (h : s.History es) :
    s.lh.length = (txnBlocks es).toFinset.card := by
  rw [← h.lh, toFinset_card_of_nodup h.nodup]

theorem nodup_absorb {lh : List ℕ} (h : lh.Nodup) (b : ℕ) : (absorb lh b).Nodup := by
  unfold absorb
  split_ifs with hb
  · exact h
  refine h.append (nodup_singleton b) ?_
  rintro c hc hc'
  rw [mem_singleton.1 hc'] at hc
  exact hb hc

variable [DecidableEq P] {size : ℕ} {s s' : Proto P} {e : Event P} {es : List (Event P)}

theorem history_move (h : s.History es) (hm : Move size s e s') : s'.History (es ++ [e]) := by
  obtain ⟨hn, hl⟩ := h
  cases hm with
  | append hp =>
    refine ⟨nodup_absorb hn _, ?_⟩
    rw [txnBlocks_snoc]
    ext c
    have : c ∈ s.lh ↔ c ∈ txnBlocks es := by rw [← mem_toFinset, hl, mem_toFinset]
    simp [txnStep, mem_absorb, this, or_comm]
  | clear hp => exact ⟨nodup_nil, by rw [txnBlocks_snoc]; rfl⟩
  | _ => exact ⟨hn, by rwa [txnBlocks_snoc]⟩

theorem history_of_run (h : (proto P size).Run init es s) : s.History es := by
  refine h.invariant_history (I := fun es s => s.History es) ⟨nodup_nil, rfl⟩ ?_
  intro es s₁ e s₂ _ hi hst
  exact history_move hi (move_of_step hst).2

theorem run_of_panicked {p : Panic} (h : s.panicked = some p) (hr : (proto P size).Run s es s') :
    s' = s := by
  induction hr with
  | nil => rfl
  | snoc _ hst ih =>
    rw [ih] at hst
    have := (move_of_step hst).1
    rw [h] at this
    cases this

/-- The first test of `log_write` on a log of `LOGSIZE` blocks. -/
theorem tooBig_iff {n : ℕ} : logSize ≤ n ∨ logSize - 1 ≤ n ↔ logSize - 1 ≤ n := by
  simp only [logSize, maxOpBlocks]
  omega

theorem logWrite_panicked_iff {p : P} {b : ℕ} (hm : Move logSize s (.logWrite p b) s')
    (hp : s.panicked = none) (ho : s'.panicked = none ∨ s'.panicked = some .tooBig) :
    s'.panicked ≠ some .tooBig ↔ s.lh.length < logSize - 1 := by
  cases hm with
  | tooBig _ hb =>
    rw [tooBig_iff] at hb
    simpa using hb
  | outside => simp at ho
  | logWrite _ hb =>
    rw [tooBig_iff] at hb
    simp only [ne_eq, goto_panicked, hp, reduceCtorEq, not_false_eq_true, true_iff]
    omega

end Proto

variable [DecidableEq P] {es : List (Event P)} {s : Proto P}

theorem lh_le_iff (h : (proto P logSize).Run .init es s) :
    (∀ es₁ es₂ t, es = es₁ ++ es₂ → (proto P logSize).Run .init es₁ t →
        t.lh.length ≤ logSize - 1) ↔
      ∀ es₁ p b es₂, es = es₁ ++ Event.append p b :: es₂ →
        (txnBlocks (es₁ ++ [.append p b])).toFinset.card ≤ logSize - 1 := by
  constructor
  · rintro hle es₁ p b es₂ rfl
    rw [append_cons] at h hle
    obtain ⟨t, ht, -⟩ := h.split
    rw [← (Proto.history_of_run ht).length]
    exact hle _ es₂ t rfl ht
  · rintro hcond es₁ es₂ t rfl ht
    rw [(Proto.history_of_run ht).length]
    refine card_txnBlocks_le_of_append fun es₃ p b es₄ he => hcond es₃ p b (es₄ ++ es₂) ?_
    rw [he, append_assoc, cons_append]

variable [Fintype P]

theorem not_tooBig_iff (h : (proto P logSize).Run .init es s) :
    s.panicked ≠ some .tooBig ↔
      ∀ es₁ p b es₂, es = es₁ ++ Event.logWrite p b :: es₂ →
        (txnBlocks es₁).toFinset.card < logSize - 1 := by
  constructor
  · rintro hs es₁ p b es₂ rfl
    obtain ⟨s₁, hr1, hr⟩ := h.split
    obtain ⟨s₂, hst, hr2⟩ := hr.uncons
    obtain ⟨-, hp2⟩ := Proto.inv_of_run (hr1.snoc hst)
    obtain ⟨hp1, hm⟩ := Proto.move_of_step hst
    rw [← (Proto.history_of_run hr1).length, ← Proto.logWrite_panicked_iff hm hp1 hp2]
    intro hbig
    rw [Proto.run_of_panicked hbig hr2] at hs
    exact hs hbig
  intro hcond
  induction h with
  | nil => simp [Proto.init]
  | @snoc es e s₁ s₂ hr hst ih =>
    obtain ⟨hp1, hm⟩ := Proto.move_of_step hst
    obtain ⟨-, hp2⟩ := Proto.inv_of_run (hr.snoc hst)
    cases e with
    | logWrite p b =>
      rw [Proto.logWrite_panicked_iff hm hp1 hp2, (Proto.history_of_run hr).length]
      exact hcond es p b [] rfl
    | _ =>
      intro hbig
      cases hm <;> simp [hp1] at hbig

/-- **When the reservation is sufficient.**  Let processes log at most `MAXOPBLOCKS` distinct blocks
in every operation, on a log of `LOGSIZE` blocks.  They never reach `panic("too big a
transaction")`, and in every state the log can hold the blocks recorded, if and only if `log_write`
is only called while the operations of the current transaction have logged fewer than `LOGSIZE - 1`
distinct blocks, and no call records a block that makes them more than `LOGSIZE - 1`. -/
theorem log_write_fits_iff (h : ((proto P logSize).restrict Budget).Run .init es s) :
    (s.panicked ≠ some .tooBig ∧
      ∀ es₁ es₂ t, es = es₁ ++ es₂ → (proto P logSize).Run .init es₁ t →
        t.lh.length ≤ logSize - 1) ↔
      (∀ es₁ p b es₂, es = es₁ ++ Event.logWrite p b :: es₂ →
        (txnBlocks es₁).toFinset.card < logSize - 1) ∧
      ∀ es₁ p b es₂, es = es₁ ++ Event.append p b :: es₂ →
        (txnBlocks (es₁ ++ [.append p b])).toFinset.card ≤ logSize - 1 :=
  and_congr (not_tooBig_iff h.of_restrict) (lh_le_iff h.of_restrict)

/-- Process `p` begins an operation. -/
def startOp (p : P) : List (Event P) := [.beginOp p, .enter p]

/-- Process `p` logs the blocks `bs`. -/
def logOp (p : P) (bs : List ℕ) : List (Event P) :=
  bs.flatMap fun b => [.logWrite p b, .append p b]

/-- An operation that logs block `7`, block `8` and block `7` again. -/
theorem log_write_fits_iff_absorbed :
    ∃ s, ((proto (Fin 1) logSize).restrict Budget).Run .init (startOp 0 ++ logOp 0 [7, 8, 7]) s ∧
      s.panicked ≠ some .tooBig ∧ s.lh = [7, 8] ∧
      ∀ es₁ es₂ t, startOp 0 ++ logOp 0 [7, 8, 7] = es₁ ++ es₂ →
        (proto (Fin 1) logSize).Run .init es₁ t → t.lh.length ≤ logSize - 1 := by
  have hx : (LTS.exec (fun s e => if Budget s e then Proto.step logSize s e else none)
      (.init : Proto (Fin 1)) (startOp 0 ++ logOp 0 [7, 8, 7])).map (fun s => s.lh) =
        some [7, 8] := by
    decide +kernel
  obtain ⟨s, hs, hc⟩ := Option.map_eq_some_iff.1 hx
  have hr := LTS.run_restrict_of_exec hs
  -- the run has fewer events than the log has blocks
  have hlen : (startOp (0 : Fin 1) ++ logOp 0 [7, 8, 7]).length ≤ logSize - 1 := by decide
  obtain ⟨hp, hlh⟩ := (log_write_fits_iff hr).2
    ⟨fun es₁ p b es₂ he => (card_txnBlocks_le _).trans_lt (lt_of_lt_of_le (by simp [he]) hlen),
      fun es₁ p b es₂ he => (card_txnBlocks_le _).trans (le_trans (by simp [he]) hlen)⟩
  exact ⟨s, hr, hp, hc, hlh⟩

/-- Three processes begin an operation each; the first two log ten blocks each, the third one nine
and then calls `log_write` for its tenth. -/
def overflowRun : List (Event (Fin 3)) :=
  startOp 0 ++ startOp 1 ++ startOp 2 ++ logOp 0 (List.range' 100 10) ++
    logOp 1 (List.range' 110 10) ++ logOp 2 (List.range' 120 9) ++ [.logWrite 2 129]

/-- The first process logs ten blocks and the others nine each; these then call `log_write` for
their tenth block at the same time, and both make the test before either records its block. -/
def raceRun : List (Event (Fin 3)) :=
  startOp 0 ++ startOp 1 ++ startOp 2 ++ logOp 0 (List.range' 100 10) ++
    logOp 1 (List.range' 110 9) ++ logOp 2 (List.range' 120 9) ++
    [.logWrite 1 119, .logWrite 2 129, .append 1 119, .append 2 129]

/-- **The reservation is not sufficient**: three operations that log ten blocks each, as many as
`begin_op` admits, reach `panic("too big a transaction")`, or record more blocks than the log can
hold. -/
theorem reservation_overflow :
    (∃ s, ((proto (Fin 3) logSize).restrict Budget).Run .init overflowRun s ∧
      s.panicked = some .tooBig) ∧
    ∃ s, ((proto (Fin 3) logSize).restrict Budget).Run .init raceRun s ∧
      s.panicked = none ∧ s.lh.length = logSize := by
  have hx : (LTS.exec (fun s e => if Budget s e then Proto.step logSize s e else none)
        (.init : Proto (Fin 3)) overflowRun).map (fun s => s.panicked) = some (some .tooBig) ∧
      (LTS.exec (fun s e => if Budget s e then Proto.step logSize s e else none)
        (.init : Proto (Fin 3)) raceRun).map (fun s => (s.panicked, s.lh.length)) =
        some (none, logSize) := by
    decide +kernel
  obtain ⟨s, hs, hc⟩ := Option.map_eq_some_iff.1 hx.1
  obtain ⟨t, ht, hd⟩ := Option.map_eq_some_iff.1 hx.2
  obtain ⟨hp, hn⟩ := Prod.mk.inj hd
  exact ⟨⟨s, LTS.run_restrict_of_exec hs, hc⟩, t, LTS.run_restrict_of_exec ht, hp, hn⟩

end Log

end Xv6
