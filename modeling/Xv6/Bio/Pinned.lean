import Mathlib.Algebra.BigOperators.Group.Finset.Basic
import Mathlib.Algebra.Order.BigOperators.Group.Finset
import Mathlib.Tactic.Abel
import Xv6.Bio.Refine

/-!
# The buffers of the log

`log_write` sets `B_DIRTY` and thereby keeps a buffer in the cache until the commit has written it
to its place, so the operations of a transaction and the commit share the remaining buffers.  The
system `Logger.system` below puts `begin_op`, `log_write`, `end_op` and the program of `commit` on
top of the buffer cache, with any interleaving of the operations.

* `Bio.nbuf_le_of_bget` : when `bget` finds no buffer, the buffers with `B_DIRTY` and the references
  fill the cache.
* `bget_finds` : that does not happen in a run in which `lh.n + 2 * outstanding` is at most `NBUF`
  whenever an operation reads a block.
* `bget_runs_dry` : it does happen in a run that only keeps to the rules of the log.
-/

namespace Xv6

open List Option Function

namespace Bio

variable {P : Type} [DecidableEq P]

/-- The processes that refer to buffer `i`. -/
def State.holders (s : State P) (i : ℕ) : Multiset P :=
  (s.wait i).map Prod.fst + (s.lock i).toList + s.leave i

/-- The references of the processes to buffers. -/
def State.refs (s : State P) : Multiset P := ∑ i ∈ Finset.range nbuf, s.holders i

/-- The process of an event. -/
def Event.proc : Event P → P
  | .get p _ _ => p
  | .bread p _ _ _ => p
  | .modify p _ _ => p
  | .bwrite p _ => p
  | .logWrite p _ => p
  | .brelse p _ => p
  | .drop p _ => p

variable {s s' : State P} {p : P} {i dev b : ℕ} {e : Event P} {l : List ℕ}

omit [DecidableEq P] in
theorem Ok.card_holders (h : Ok s) (i : ℕ) : (s.holders i).card = (s.cache.buf i).refcnt := by
  rw [(h.fine i).refcnt, State.holders]
  cases hl : s.lock i <;> simp

omit [DecidableEq P] in
theorem Ok.lt_of_mem (h : Ok s) (hp : p ∈ s.holders i) : i < nbuf := by
  by_contra hge
  have hc := h.card_holders i
  rw [(h.out i (by omega)).refcnt] at hc
  rw [Multiset.card_eq_zero.1 hc] at hp
  exact absurd hp (Multiset.notMem_zero p)

omit [DecidableEq P] in
theorem refs_add (hi : i < nbuf) (hj : ∀ j, j ≠ i → s'.holders j = s.holders j) :
    s'.refs + s.holders i = s.refs + s'.holders i := by
  have hmem : i ∈ Finset.range nbuf := Finset.mem_range.2 hi
  rw [State.refs, State.refs, ← Finset.add_sum_erase _ _ hmem, ← Finset.add_sum_erase _
    s.holders hmem, Finset.sum_congr rfl fun j hj' => hj j (Finset.ne_of_mem_erase hj')]
  abel

omit [DecidableEq P] in
theorem refs_congr (h : ∀ j, s'.holders j = s.holders j) : s'.refs = s.refs :=
  Finset.sum_congr rfl fun j _ => h j

/-- The references after an event. -/
def Event.refs (e : Event P) (R : Multiset P) : Multiset P :=
  match e with
  | .get p _ _ => p ::ₘ R
  | .drop p _ => R.erase p
  | _ => R

/-- **References**: `bget` takes one and `brelse` gives it back. -/
theorem Ok.refs_step (h : Ok s) (hs : s.step e = some s') : s'.refs = e.refs s.refs := by
  cases e with
  | get p dev b =>
    simp only [State.step, map_eq_some_iff] at hs
    obtain ⟨⟨i, c⟩, hg, rfl⟩ := hs
    obtain ⟨l, hr, -⟩ := h.ring
    have hi : i < nbuf := by
      rcases bget_spec hr hg with ⟨a, l', rfl, -⟩ | ⟨-, hil, -⟩
      · exact hr.mem.1 (by simp)
      · exact hr.mem.1 hil
    obtain ⟨s', hs'⟩ : ∃ s' : State P, s' = { s with
      cache := c, wait := upd s.wait i ((p, dev, b) ::ₘ s.wait i) } := ⟨_, rfl⟩
    rw [← hs']
    have hself : s'.holders i = p ::ₘ s.holders i := by simp [hs', State.holders]
    have hadd : s'.refs + s.holders i = s.refs + s'.holders i :=
      refs_add hi fun j hj => by simp [hs', State.holders, update_of_ne hj]
    rw [hself, Multiset.add_cons, ← Multiset.cons_add] at hadd
    exact add_right_cancel hadd
  | bread p dev b i =>
    simp only [State.step, ite_none_right_eq_some, map_eq_some_iff] at hs
    obtain ⟨⟨ht, hl⟩, ⟨c, disk⟩, -, rfl⟩ := hs
    have hwait : (s.wait i).map Prod.fst = p ::ₘ ((s.wait i).erase (p, dev, b)).map Prod.fst := by
      rw [← Multiset.map_cons Prod.fst (p, dev, b), Multiset.cons_erase ht]
    refine refs_congr fun j => ?_
    by_cases hj : j = i
    · subst hj
      simp only [State.holders, upd_eq_update, update_self, hwait, hl, toList_some,
        toList_none, Multiset.coe_singleton, Multiset.coe_nil,
        add_zero, ← Multiset.singleton_add]
      abel
    · simp [State.holders, update_of_ne hj]
  | modify p i data | logWrite p i =>
    simp only [State.step, guard_eq_some] at hs
    obtain ⟨-, rfl⟩ := hs
    exact refs_congr fun _ => rfl
  | bwrite p i =>
    simp only [State.step, ite_none_right_eq_some, map_eq_some_iff] at hs
    obtain ⟨-, ⟨c, disk⟩, -, rfl⟩ := hs
    exact refs_congr fun _ => rfl
  | brelse p i =>
    simp only [State.step, guard_eq_some] at hs
    obtain ⟨⟨hl, -⟩, rfl⟩ := hs
    refine refs_congr fun j => ?_
    by_cases hj : j = i
    · subst hj
      simp only [State.holders, upd_eq_update, update_self, hl, toList_some,
        toList_none, Multiset.coe_singleton, Multiset.coe_nil,
        add_zero, ← Multiset.singleton_add]
      abel
    · simp [State.holders, update_of_ne hj]
  | drop p i =>
    simp only [State.step, guard_eq_some] at hs
    obtain ⟨hp, rfl⟩ := hs
    have hi : i < nbuf := h.lt_of_mem (p := p) (by simp [State.holders, hp])
    obtain ⟨s', hs'⟩ : ∃ s' : State P, s' = { s with
      cache := s.cache.drop i
      leave := upd s.leave i ((s.leave i).erase p)
      released := if (s.cache.buf i).refcnt = 1 then i :: s.released else s.released } := ⟨_, rfl⟩
    rw [← hs']
    have hself : s.holders i = p ::ₘ s'.holders i := by
      have hleave := Multiset.cons_erase hp
      rw [State.holders, ← hleave, Multiset.add_cons, hs']
      simp [State.holders]
    have hadd : s'.refs + s.holders i = s.refs + s'.holders i :=
      refs_add hi fun j hj => by simp [hs', State.holders, update_of_ne hj]
    rw [hself, Multiset.add_cons, ← Multiset.cons_add] at hadd
    rw [Event.refs, ← add_right_cancel hadd, Multiset.erase_cons_head]

omit [DecidableEq P] in
/-- **When `bget` finds no buffer**, the buffers with `B_DIRTY`, which are for blocks of `lh`, and
the references fill the cache; the block is none of those. -/
theorem nbuf_le_of_bget {lh : List ℕ} (h : Ok s)
    (hd : ∀ i, (s.cache.buf i).dirty = true → (s.cache.buf i).dev = dev ∧
      (s.cache.buf i).blockno ∈ lh)
    (hnone : s.cache.bget dev b = none) : nbuf ≤ (lh.toFinset.erase b).card + s.refs.card := by
  obtain ⟨l, hr, -⟩ := h.ring
  rw [Cache.bget, hr.walk_next, hr.walk_prev] at hnone
  -- No buffer is for the block, and each is dirty or referred to.
  obtain ⟨hkey, hbusy⟩ : (∀ j < nbuf, ¬((s.cache.buf j).dev = dev ∧ (s.cache.buf j).blockno = b)) ∧
      ∀ j < nbuf, (s.cache.buf j).dirty = true ∨ 0 < (s.cache.buf j).refcnt := by
    split at hnone
    · cases hnone
    rename_i hk
    split at hnone
    · cases hnone
    rename_i hf
    refine ⟨fun j hj => by simpa using List.find?_eq_none.1 hk j (hr.mem.2 hj), fun j hj => ?_⟩
    have := List.find?_eq_none.1 hf j (mem_reverse.2 (hr.mem.2 hj))
    by_cases hd : (s.cache.buf j).dirty = true
    · exact .inl hd
    · simp only [Bool.not_eq_true] at hd
      exact .inr (Nat.pos_of_ne_zero fun h0 => by simp [h0, hd] at this)
  have hcover : Finset.range nbuf ⊆ (Finset.range nbuf).filter
    (fun j => (s.cache.buf j).dirty = true) ∪
      (Finset.range nbuf).filter fun j => 0 < (s.cache.buf j).refcnt := by
    intro j hj
    rcases hbusy j (Finset.mem_range.1 hj) with hd | hc
    · exact Finset.mem_union_left _ (Finset.mem_filter.2 ⟨hj, hd⟩)
    · exact Finset.mem_union_right _ (Finset.mem_filter.2 ⟨hj, hc⟩)
  have hdirty : ((Finset.range nbuf).filter fun j => (s.cache.buf j).dirty = true).card ≤
      (lh.toFinset.erase b).card := by
    refine Finset.card_le_card_of_injOn (fun j => (s.cache.buf j).blockno) (fun j hj => ?_)
      fun j hj k hk he => ?_
    · obtain ⟨hlt, hdj⟩ := Finset.mem_filter.1 hj
      obtain ⟨hdev, hmem⟩ := hd j hdj
      refine Finset.mem_erase.2 ⟨fun hb => hkey j (Finset.mem_range.1 hlt) ⟨hdev, hb⟩,
        mem_toFinset.2 hmem⟩
    have hdj := (Finset.mem_filter.1 hj).2
    have hdk := (Finset.mem_filter.1 hk).2
    by_contra hne
    have hsame : (s.cache.buf j).Same (s.cache.buf k) := ⟨(hd j hdj).1.trans (hd k hdk).1.symm, he⟩
    have hblank := h.blank hne hsame fun hb => by
      have := (h.fine j).clean hb
      rw [hdj] at this
      cases this
    have := (h.fine k).clean hblank
    rw [hdk] at this
    cases this
  have hrefs : ((Finset.range nbuf).filter fun j => 0 < (s.cache.buf j).refcnt).card ≤
      s.refs.card := by
    rw [State.refs, Multiset.card_sum, Finset.card_eq_sum_ones, Finset.sum_filter]
    refine Finset.sum_le_sum fun j _ => ?_
    rw [h.card_holders]
    split_ifs <;> omega
  have := Finset.card_le_card hcover
  have := Finset.card_union_le ((Finset.range nbuf).filter fun j => (s.cache.buf j).dirty = true)
    ((Finset.range nbuf).filter fun j => 0 < (s.cache.buf j).refcnt)
  rw [Finset.card_range] at *
  omega

/-! ### The log -/

/-- `log.dev` -/
abbrev logDev : ℕ := 1

/-- What `commit` does, one after the other; the number is that of the block.  `read` and `fill` are
the two parts of `bread`, `brelse` and `drop` those of `brelse`; `edit` changes the data of a
buffer. -/
inductive Instr
  | read (b : ℕ)
  | fill (b : ℕ)
  | edit (b : ℕ)
  | bwrite (b : ℕ)
  | brelse (b : ℕ)
  | drop (b : ℕ)
  /-- `log.lh.n = 0` -/
  | clear

/-- A round of the loop of `write_log`: copy block `b` to block `lb` of the log. -/
def writeLog (lb b : ℕ) : List Instr :=
  [.read lb, .fill lb, .read b, .fill b, .edit lb, .bwrite lb, .brelse b, .drop b,
      .brelse lb, .drop lb]

/-- A round of the loop of `install_trans`: copy block `lb` of the log to block `b`. -/
def installTrans (lb b : ℕ) : List Instr :=
  [.read lb, .fill lb, .read b, .fill b, .edit b, .bwrite b, .brelse lb, .drop lb,
      .brelse b, .drop b]

/-- `write_head` -/
def writeHead (start : ℕ) : List Instr :=
  [.read start, .fill start, .edit start, .bwrite start, .brelse start, .drop start]

/-- A loop over the blocks of the log header. -/
def loop (start : ℕ) (body : ℕ → ℕ → List Instr) (lh : List ℕ) : List Instr :=
  lh.zipIdx.flatMap fun x => body (start + x.2 + 1) x.1

/-- `commit` -/
def commit (start : ℕ) (lh : List ℕ) : List Instr :=
  if lh.length > 0 then
    loop start writeLog lh ++
      (writeHead start ++ (loop start installTrans lh ++ (.clear :: writeHead start)))
  else []

/-- The cache and the log. -/
structure Logger (P : Type) where
  bio : State P
  /-- The blocks of `log.lh`. -/
  lh : List ℕ
  /-- The operations that are outstanding, one to a process. -/
  ops : Finset P
  /-- The blocks that the operation of a process has logged. -/
  logged : P → Finset ℕ
  /-- The process in `commit`, and what it has yet to do. -/
  commit : Option (P × List Instr)
  /-- `bget: no buffers` -/
  panicked : Bool

namespace Logger

/-- What happens. -/
inductive Label (P : Type)
  | beginOp (p : P)
  | endOp (p : P)
  /-- An operation uses the cache. -/
  | op (e : Event P)
  /-- The next act of `commit`, on buffer `i`; `data` is what it puts there. -/
  | commit (i : ℕ) (data : Block)

/-- The log and the cache at first. -/
def init (disk : Disks) : Logger P := ⟨.init disk, [], ∅, fun _ => ∅, none, false⟩

/-- An event in the cache; `bget` may panic. -/
def event (s : Logger P) (e : Event P) : Option (Logger P) :=
  match e with
  | .get _ dev b =>
    match s.bio.cache.bget dev b with
    | none => some { s with panicked := true }
    | some _ => (s.bio.step e).map fun t => { s with bio := t }
  | _ => (s.bio.step e).map fun t => { s with bio := t }

/-- Buffer `i` is for block `b` of the log device. -/
def Has (s : Logger P) (i b : ℕ) : Prop := (s.bio.cache.buf i).dev = logDev ∧
    (s.bio.cache.buf i).blockno = b

instance (s : Logger P) (i b : ℕ) : Decidable (s.Has i b) := by unfold Has; infer_instance

/-- One act of `commit` by process `p`. -/
def act (s : Logger P) (p : P) (i : ℕ) (data : Block) : Instr → Option (Logger P)
  | .read b => s.event (.get p logDev b)
  | .fill b => s.event (.bread p logDev b i)
  | .edit b => if s.Has i b then s.event (.modify p i data) else none
  | .bwrite b => if s.Has i b then s.event (.bwrite p i) else none
  | .brelse b => if s.Has i b then s.event (.brelse p i) else none
  | .drop b => if s.Has i b then s.event (.drop p i) else none
  | .clear => some { s with lh := [] }

/-- The operation of process `p` has logged the block of buffer `i`. -/
def logs (s : Logger P) (p : P) (i : ℕ) : Logger P :=
  let b := (s.bio.cache.buf i).blockno
  { s with lh := if b ∈ s.lh then s.lh else s.lh ++ [b], logged := upd s.logged p (insert b
    (s.logged p)) }

/-- One step; `start` is `log.start`. -/
def step (start : ℕ) (s : Logger P) : Label P → Option (Logger P)
  | .beginOp p =>
    if s.commit.isNone ∧ p ∉ s.ops ∧ s.lh.length + (s.ops.card + 1) * maxOpBlocks ≤ logSize then
      some { s with ops := insert p s.ops, logged := upd s.logged p ∅ }
    else none
  | .endOp p =>
    if p ∈ s.ops then
      some { s with
        ops := s.ops.erase p
        commit := if s.ops.erase p = ∅ then some (p, Bio.commit start s.lh) else none }
    else none
  | .op (.logWrite p i) =>
    if p ∈ s.ops ∧ s.lh.length < logSize - 1 then (s.event (.logWrite p i)).map fun t =>
      t.logs p i else none
  | .op e => if e.proc ∈ s.ops then s.event e else none
  | .commit i data =>
    match s.commit with
    | none => none
    | some (_, []) => some { s with commit := none }
    | some (p, a :: as) => (s.act p i data a).map fun t => { t with commit := some (p, as) }

/-- The log, the operations and the commit. -/
def system (P : Type) [DecidableEq P] (start : ℕ) : LTS (Logger P) (Label P) := .ofFun (step start)

/-- The rules of the log: an operation uses the device of the log, logs at most `MAXOPBLOCKS`
blocks, does not write to the disk itself, refers to at most two buffers at a time, and to none when
it ends. -/
def Rules (s : Logger P) : Label P → Prop
  | .op (.get p dev _) => dev = logDev ∧ s.bio.refs.count p ≤ 1
  | .op (.logWrite p i) =>
    (s.bio.cache.buf i).dev = logDev ∧ (insert (s.bio.cache.buf i).blockno (s.logged p)).card ≤
      maxOpBlocks
  | .op (.bwrite _ _) => False
  | .endOp p => s.bio.refs.count p = 0
  | _ => True

/-- When an operation reads a block, there is room for the blocks in the log and two buffers for
each operation. -/
def Room (s : Logger P) : Label P → Prop
  | .op (.get _ _ _) => s.lh.length + 2 * s.ops.card ≤ nbuf
  | _ => True

/-! ### The commit -/

/-- The rest of `commit`, with `k` references and with `B_DIRTY` at most in buffers for `pend`: when
a second buffer is needed, it is for a block of the log header; and when the header is cleared no
buffer is dirty any more. -/
def Safe (lh : List ℕ) : ℕ → List ℕ → List Instr → Prop
  | k, _, [] => k = 0
  | k, pend, .read b :: as => (k = 0 ∨ k = 1 ∧ b ∈ lh) ∧ Safe lh (k + 1) pend as
  | k, pend, .bwrite b :: as => Safe lh k (pend.filter (· ≠ b)) as
  | k, pend, .drop _ :: as => Safe lh (k - 1) pend as
  | k, pend, .clear :: as => pend = [] ∧ Safe [] k [] as
  | k, pend, .fill _ :: as => Safe lh k pend as
  | k, pend, .edit _ :: as => Safe lh k pend as
  | k, pend, .brelse _ :: as => Safe lh k pend as

variable {lh pend pend' : List ℕ} {k start : ℕ} {as : List Instr}

theorem Safe.mono (h : Safe lh k pend as) (hp : pend' ⊆ pend) : Safe lh k pend' as := by
  induction as generalizing lh k pend pend' with
  | nil => exact h
  | cons a as ih =>
    cases a with
    | read b => exact ⟨h.1, ih h.2 hp⟩
    | fill b => exact ih h hp
    | edit b => exact ih h hp
    | bwrite b => exact ih h (filter_subset _ hp)
    | brelse b => exact ih h hp
    | drop b => exact ih h hp
    | clear =>
      obtain rfl := subset_nil.1 (h.1 ▸ hp)
      exact ⟨rfl, h.2⟩

theorem safe_loop_writeLog {l : List (ℕ × ℕ)} (hl : ∀ x ∈ l, x.1 ∈ lh) (h : Safe lh 0 pend as) :
    Safe lh 0 pend (l.flatMap (fun x => writeLog (start + x.2 + 1) x.1) ++ as) := by
  induction l generalizing pend with
  | nil => exact h
  | cons x l ih =>
    have hrest := ih (fun y hy => hl y (by simp [hy]))
      (h.mono (filter_subset_self (p := (· ≠ start + x.2 + 1)) pend))
    simpa [writeLog, Safe, hl x] using hrest

theorem safe_loop_installTrans {l : List (ℕ × ℕ)} (hl : ∀ x ∈ l, x.1 ∈ lh)
    (h : Safe lh 0 (pend.filter (· ∉ l.map Prod.fst)) as) :
    Safe lh 0 pend (l.flatMap (fun x => installTrans (start + x.2 + 1) x.1) ++ as) := by
  induction l generalizing pend with
  | nil => exact h.mono fun b hb => by simpa using hb
  | cons x l ih =>
    have hrest := @ih (pend.filter (· ≠ x.1)) (fun y hy => hl y (by simp [hy]))
        (h.mono fun b hb => by
      simp only [mem_filter, decide_eq_true_eq, map_cons, mem_cons, not_or] at hb ⊢
      tauto)
    simpa [installTrans, Safe, hl x] using hrest

theorem safe_commit (start : ℕ) (lh : List ℕ) : Safe lh 0 lh (Bio.commit start lh) := by
  unfold Bio.commit
  split_ifs with hlen
  · have hl : ∀ x ∈ lh.zipIdx, x.1 ∈ lh := fun x hx => fst_mem_of_mem_zipIdx hx
    refine safe_loop_writeLog hl ?_
    have hclear : Safe lh 0 (lh.filter (· ≠ start))
        (loop start installTrans lh ++ (.clear :: writeHead start)) := by
      refine safe_loop_installTrans hl ?_
      have hend : Safe lh 0 [] (.clear :: writeHead start) := by simp [Safe, writeHead]
      refine hend.mono fun b hb => ?_
      simp only [zipIdx_map_fst, mem_filter, decide_eq_true_eq] at hb
      exact absurd hb.1.1 hb.2
    simpa [writeHead, Safe] using hclear
  · rfl

/-! ### The invariant -/

/-- The invariant: the buffers with `B_DIRTY` are for blocks of the log header, which is not full;
the references belong to the outstanding operations, at most two to each, or to the commit. -/
structure Inv (s : Logger P) : Prop where
  ok : Ok s.bio
  dirty : ∀ i, (s.bio.cache.buf i).dirty = true → s.Has i (s.bio.cache.buf i).blockno ∧
    (s.bio.cache.buf i).blockno ∈ s.lh
  short : s.lh.length ≤ logSize - 1
  twice : ∀ p, s.bio.refs.count p ≤ 2
  users : s.commit = none → ∀ p ∈ s.bio.refs, p ∈ s.ops
  commits : ∀ p as, s.commit = some (p, as) → s.ops = ∅ ∧
    ∃ k pend, s.bio.refs = Multiset.replicate k p ∧
    (∀ i, (s.bio.cache.buf i).dirty = true → (s.bio.cache.buf i).blockno ∈ pend) ∧
    Safe s.lh k pend as
  calm : s.panicked = false

variable {s s' : Logger P} {t : State P} {e : Event P} {l : Label P} {a : Instr}

theorem init_inv (disk : Disks) : Inv (init disk : Logger P) := by
  have hbuf : ∀ i, ((init disk : Logger P).bio.cache.buf i).dirty = false := fun i => by
    rw [show (init disk : Logger P).bio.cache.buf i = _ from binit_buf i]
  have hrefs : (init disk : Logger P).bio.refs = 0 := Finset.sum_eq_zero fun _ _ => rfl
  refine ⟨init_ok disk, fun i hi => ?_, zero_le, fun p => ?_, fun _ p hp =>
    ?_, by simp [init], rfl⟩
  · rw [hbuf] at hi
    cases hi
  · rw [hrefs]
    exact Nat.zero_le 2
  · rw [hrefs] at hp
    exact absurd hp (Multiset.notMem_zero p)

/-- `bget` finds a buffer if the references leave room. -/
theorem Inv.bget (h : Inv s) (b : ℕ)
    (hroom : (s.lh.toFinset.erase b).card + s.bio.refs.card < nbuf) :
    ∃ x, s.bio.cache.bget logDev b = some x := by
  cases hb : s.bio.cache.bget logDev b with
  | some x => exact ⟨x, rfl⟩
  | none =>
    have := nbuf_le_of_bget h.ok (fun i hi => ⟨(h.dirty i hi).1.1, (h.dirty i hi).2⟩) hb
    omega

theorem event_eq (he : ∀ p dev b, e = .get p dev b → ∃ x, s.bio.cache.bget dev b = some x) :
    s.event e = (s.bio.step e).map fun t => { s with bio := t } := by
  cases e with
  | get p dev b =>
    obtain ⟨x, hx⟩ := he p dev b rfl
    simp only [event, hx]
  | _ => rfl

/-- Buffers stay clean unless they are logged, and dirty ones keep their block. -/
theorem dirty_step (h : Ok s.bio) (hs : s.bio.step e = some t) {i : ℕ}
    (hi : (t.cache.buf i).dirty = true) :
    (s.bio.cache.buf i).dirty = true ∧ (s.bio.cache.buf i).Same (t.cache.buf i) ∨
    ∃ p, e = .logWrite p i := by
  obtain ⟨l, hr, -⟩ := h.ring
  have hc := step_changes hr hs i
  rcases hc.dirty hi with hd | hl
  · exact .inl ⟨hd, hc.key (.inr hd)⟩
  · exact .inr hl

theorem Inv.dirty_step (h : Inv s) (hs : s.bio.step e = some t)
    (he : ∀ p i, e ≠ .logWrite p i) {i : ℕ} (hi : (t.cache.buf i).dirty = true) :
    (s.bio.cache.buf i).dirty = true ∧
      ((t.cache.buf i).dev = logDev ∧ (t.cache.buf i).blockno = (s.bio.cache.buf i).blockno) := by
  rcases Logger.dirty_step h.ok hs hi with ⟨hd, hsame⟩ | ⟨p, hp⟩
  · exact ⟨hd, hsame.1 ▸ (h.dirty i hd).1.1, hsame.2.symm⟩
  · exact absurd hp (he p i)

theorem Inv.op (h : Inv s) (hs : s.bio.step e = some t) (he : ∀ p i, e ≠ .logWrite p i)
    (hreal : e.Real) (hc : s.commit = none) (hcount : ∀ p, (e.refs s.bio.refs).count p ≤ 2)
    (husers : ∀ p ∈ e.refs s.bio.refs, p ∈ s.ops) :
    Inv { s with bio := t } := by
  have hrefs := h.ok.refs_step hs
  refine ⟨h.ok.step hs hreal, fun i hi => ?_, h.short, fun p => ?_, fun _ p hp => ?_, fun p as hx =>
    ?_, h.calm⟩
  · obtain ⟨hd, hdev, hb⟩ := h.dirty_step hs he hi
    exact ⟨⟨hdev, rfl⟩, hb ▸ (h.dirty i hd).2⟩
  · rw [hrefs]
    exact hcount p
  · rw [hrefs] at hp
    exact husers p hp
  · rw [hc] at hx
    cases hx

/-- A step of the commit: `k'` and `pend'` are what `Safe` says afterwards. -/
theorem Inv.act (h : Inv s) {p : P} {k' : ℕ} {pend' : List ℕ} (hs : s.bio.step e = some t)
    (he : ∀ p i, e ≠ .logWrite p i) (hreal : e.Real) (hops : s.ops = ∅)
    (hrefs : e.refs s.bio.refs = Multiset.replicate k' p) (hk : k' ≤ 2)
    (hd : ∀ i, (t.cache.buf i).dirty = true → (t.cache.buf i).blockno ∈ pend')
    (hsafe : Safe s.lh k' pend' as) :
    Inv { s with bio := t, commit := some (p, as) } := by
  have hrefs' := h.ok.refs_step hs
  refine ⟨h.ok.step hs hreal, fun i hi => ?_, h.short, fun q => ?_, by simp, fun q as' hx =>
    ?_, h.calm⟩
  · obtain ⟨hd, hdev, hb⟩ := h.dirty_step hs he hi
    exact ⟨⟨hdev, rfl⟩, hb ▸ (h.dirty i hd).2⟩
  · rw [hrefs', hrefs, Multiset.count_replicate]
    split_ifs <;> omega
  · cases hx
    exact ⟨hops, k', pend', hrefs'.trans hrefs, hd, hsafe⟩

theorem card_erase_le (lh : List ℕ) (b : ℕ) : (lh.toFinset.erase b).card ≤ lh.length :=
  (Finset.card_erase_le).trans (toFinset_card_le lh)

theorem Inv.commit_none {p : P} (h : Inv s) (hp : p ∈ s.ops) : s.commit = none := by
  cases hc : s.commit with
  | none => rfl
  | some x =>
    rw [(h.commits x.1 x.2 hc).1] at hp
    exact absurd hp (Finset.notMem_empty p)

theorem Inv.card_refs {p : P} (h : Inv s) (hp : p ∈ s.ops) (hc : s.bio.refs.count p ≤ 1) :
    s.bio.refs.card + 1 ≤ 2 * s.ops.card := by
  have hsum := Multiset.sum_count_eq_card (h.users (h.commit_none hp))
  rw [← Finset.add_sum_erase _ _ hp] at hsum
  have hrest : ∑ q ∈ s.ops.erase p, s.bio.refs.count q ≤ (s.ops.erase p).card * 2 :=
    Finset.sum_le_card_nsmul _ _ 2 fun q _ => h.twice q
  rw [Finset.card_erase_of_mem hp] at hrest
  have hpos := Finset.card_pos.2 ⟨p, hp⟩
  omega

/-- **An operation that reads a block finds a buffer.** -/
theorem Inv.op_bget {p : P} (h : Inv s) (hp : p ∈ s.ops) (hc : s.bio.refs.count p ≤ 1)
    (hroom : s.lh.length + 2 * s.ops.card ≤ nbuf) (b : ℕ) :
    ∃ x, s.bio.cache.bget logDev b = some x := by
  refine h.bget b ?_
  have := h.card_refs hp hc
  have := card_erase_le s.lh b
  omega

theorem replicate_erase (k : ℕ) (p : P) :
    (Multiset.replicate k p).erase p = Multiset.replicate (k - 1) p := by
  cases k with
  | zero => rfl
  | succ k => rw [Multiset.replicate_succ, Multiset.erase_cons_head, Nat.add_sub_cancel]

/-- What is written to the disk is not dirty any more, nor is any other buffer for the block. -/
theorem Inv.bwrite_clean {p : P} {i j b : ℕ} (h : Inv s) (hs : s.bio.step (.bwrite p i) = some t)
    (hb : s.Has i b) (hj : (t.cache.buf j).dirty = true) : (t.cache.buf j).blockno ≠ b := by
  obtain ⟨hd, hdev, hblk⟩ := h.dirty_step hs (by simp) hj
  simp only [State.step, ite_none_right_eq_some, map_eq_some_iff] at hs
  obtain ⟨hl, ⟨c, disk⟩, hw, rfl⟩ := hs
  obtain ⟨-, rfl, -⟩ := bwrite_spec hw
  intro he
  by_cases hji : j = i
  · subst hji
    rw [setBuf_buf] at hj
    cases hj
  have hsame : (s.bio.cache.buf i).Same (s.bio.cache.buf j) :=
    ⟨hb.1.trans (h.dirty j hd).1.1.symm, hb.2.trans (he.symm.trans hblk)⟩
  have hblank := h.ok.blank (Ne.symm hji) hsame ((h.ok.fine i).not_blank (by rw [hl]; simp))
  have := (h.ok.fine j).clean hblank
  rw [hd] at this
  cases this

/-- **The commit finds a buffer**: with no operation outstanding it has all those that are not in
the log. -/
theorem Inv.commit_bget {p : P} {b : ℕ} (h : Inv s) (hc : s.commit = some (p, .read b :: as)) :
    ∃ x, s.bio.cache.bget logDev b = some x := by
  obtain ⟨-, k, pend, hrefs, -, hk, -⟩ := h.commits p _ hc
  refine h.bget b ?_
  have hle := h.short
  have hcard := toFinset_card_le s.lh
  rw [hrefs, Multiset.card_replicate]
  rcases hk with rfl | ⟨rfl, hb⟩
  · have := card_erase_le s.lh b
    simp only [nbuf, logSize, maxOpBlocks] at *
    omega
  · rw [Finset.card_erase_of_mem (mem_toFinset.2 hb)]
    simp only [nbuf, logSize, maxOpBlocks] at *
    omega

theorem Inv.commit_step {p : P} {i : ℕ} {data : Block} (h : Inv s)
    (hc : s.commit = some (p, a :: as))
    (hs : (s.act p i data a).map (fun t => { t with commit := some (p, as) }) = some s') :
    Inv s' := by
  obtain ⟨hops, k, pend, hrefs, hpend, hsafe⟩ := h.commits p _ hc
  have hk : k ≤ 2 := by
    have := h.twice p
    rwa [hrefs, Multiset.count_replicate_self] at this
  -- An event that changes neither the references nor what is dirty.
  have hkeep : ∀ e : Event P, (∀ p i, e ≠ .logWrite p i) → (∀ p dev b, e ≠ .get p dev b) → e.Real →
      e.refs s.bio.refs = s.bio.refs → Safe s.lh k pend as →
      ((s.event e).map fun t => { t with commit := some (p, as) }) = some s' → Inv s' := by
    intro e he hg hreal hr hsafe hs
    rw [event_eq fun p dev b hx => absurd hx (hg p dev b), Option.map_map, map_eq_some_iff] at hs
    obtain ⟨t, ht, rfl⟩ := hs
    refine h.act ht he hreal hops (hr.trans hrefs) hk (fun j hj => ?_) hsafe
    obtain ⟨hd, -, hb⟩ := h.dirty_step ht he hj
    exact hb ▸ hpend j hd
  cases a with
  | read b =>
    rw [Logger.act, event_eq fun p' dev' b' he => by cases he; exact h.commit_bget hc,
      Option.map_map, map_eq_some_iff] at hs
    obtain ⟨t, ht, rfl⟩ := hs
    have hrefs' : (Event.get p logDev b).refs s.bio.refs = Multiset.replicate (k + 1) p := by
      rw [Event.refs, hrefs, Multiset.replicate_succ]
    have hk' : k + 1 ≤ 2 := by
      have := hsafe.1
      omega
    refine h.act ht (by simp) (by decide : logDev < 2) hops hrefs' hk' (fun j hj => ?_) hsafe.2
    obtain ⟨hd, -, hb⟩ := h.dirty_step ht (by simp) hj
    exact hb ▸ hpend j hd
  | fill b => exact hkeep (.bread p logDev b i) (by simp) (by simp) trivial rfl hsafe hs
  | edit b =>
    rw [Logger.act] at hs
    split_ifs at hs
    · exact hkeep (.modify p i data) (by simp) (by simp) trivial rfl hsafe hs
    · cases hs
  | bwrite b =>
    rw [Logger.act] at hs
    split_ifs at hs with hb
    swap
    · cases hs
    rw [event_eq (by simp), Option.map_map, map_eq_some_iff] at hs
    obtain ⟨t, ht, rfl⟩ := hs
    refine h.act ht (by simp) trivial hops hrefs hk (fun j hj => ?_) hsafe
    obtain ⟨hd, -, hblk⟩ := h.dirty_step ht (by simp) hj
    exact mem_filter.2 ⟨hblk ▸ hpend j hd, by simpa using h.bwrite_clean ht hb hj⟩
  | brelse b =>
    rw [Logger.act] at hs
    split_ifs at hs
    · exact hkeep (.brelse p i) (by simp) (by simp) trivial rfl hsafe hs
    · cases hs
  | drop b =>
    rw [Logger.act] at hs
    split_ifs at hs
    swap
    · cases hs
    rw [event_eq (by simp), Option.map_map, map_eq_some_iff] at hs
    obtain ⟨t, ht, rfl⟩ := hs
    refine h.act ht (by simp) trivial hops (by rw [Event.refs, hrefs, replicate_erase]) (by omega)
      (fun j hj => ?_) hsafe
    obtain ⟨hd, -, hb⟩ := h.dirty_step ht (by simp) hj
    exact hb ▸ hpend j hd
  | clear =>
    obtain ⟨rfl, hsafe⟩ := hsafe
    cases hs
    have hclean : ∀ i, (s.bio.cache.buf i).dirty ≠ true := fun i hi => by simpa using hpend i hi
    refine ⟨h.ok, fun i hi => absurd hi (hclean i), zero_le, h.twice, by simp, fun q as' hx =>
      ?_, h.calm⟩
    cases hx
    exact ⟨hops, k, [], hrefs, fun i hi => absurd hi (hclean i), hsafe⟩

theorem Inv.logWrite {p : P} {i : ℕ} (h : Inv s) (hp : p ∈ s.ops) (hlen : s.lh.length < logSize - 1)
    (hdev : (s.bio.cache.buf i).dev = logDev) (hs : s.bio.step (.logWrite p i) = some t) :
    Inv (Logger.logs { s with bio := t } p i) := by
  have hc := h.commit_none hp
  have hrefs : t.refs = s.bio.refs := h.ok.refs_step hs
  have hbuf : (t.cache.buf i).dev = logDev := by
    simp only [State.step, guard_eq_some] at hs
    obtain ⟨-, rfl⟩ := hs
    rwa [Cache.logWrite, setBuf_buf]
  refine ⟨h.ok.step hs trivial, fun j hj => ?_, ?_, fun q => ?_, fun _ q hq => ?_, fun q as hx =>
    ?_, h.calm⟩
  · have hlogs : ∀ b, b ∈ s.lh ∨ b = (t.cache.buf i).blockno →
      b ∈ (Logger.logs { s with bio := t } p i).lh := by
      rintro b (hb | rfl) <;> simp only [Logger.logs] <;> split_ifs <;> simp_all
    rcases Logger.dirty_step h.ok hs hj with ⟨hd, hsame⟩ | ⟨p', he⟩
    · have hold := h.dirty j hd
      exact ⟨⟨hsame.1 ▸ hold.1.1, rfl⟩, hlogs _ (.inl (hsame.2 ▸ hold.2))⟩
    · cases he
      exact ⟨⟨hbuf, rfl⟩, hlogs _ (.inr rfl)⟩
  · simp only [Logger.logs]
    split_ifs
    · exact h.short
    · rw [length_append, length_singleton]
      omega
  · exact (congrArg (Multiset.count q) hrefs).trans_le (h.twice q)
  · exact h.users hc q (hrefs ▸ hq)
  · exact absurd (hc.symm.trans hx) (by simp)

theorem Inv.op_step (h : Inv s) (hs : step start s (.op e) = some s') (hr : Rules s (.op e))
    (hroom : Room s (.op e)) :
    Inv s' := by
  -- An event that takes no reference.
  have hkeep : (∀ p i, e ≠ .logWrite p i) → (∀ p dev b, e ≠ .get p dev b) → e.Real →
    e.refs s.bio.refs ≤ s.bio.refs →
      (if e.proc ∈ s.ops then s.event e else none) = some s' → Inv s' := by
    intro he hg hreal hle hs
    obtain ⟨hp, hs⟩ := ite_none_right_eq_some.1 hs
    rw [event_eq fun p dev b hx => absurd hx (hg p dev b), map_eq_some_iff] at hs
    obtain ⟨t, ht, rfl⟩ := hs
    have hc := h.commit_none hp
    exact h.op ht he hreal hc (fun q => (Multiset.count_le_of_le q hle).trans (h.twice q))
      fun q hq => h.users hc q (Multiset.mem_of_le hle hq)
  cases e with
  | get p dev b =>
    obtain ⟨hp, hs⟩ := ite_none_right_eq_some.1 hs
    obtain ⟨rfl, hcount⟩ := hr
    rw [event_eq fun p' dev' b' he => by cases he; exact h.op_bget hp hcount hroom b,
      map_eq_some_iff] at hs
    obtain ⟨t, ht, rfl⟩ := hs
    refine h.op ht (by simp) (by decide : logDev < 2) (h.commit_none hp) (fun q => ?_)
      fun q hq => ?_
    · rw [Event.refs, Multiset.count_cons]
      split_ifs with hq
      · subst hq
        omega
      · exact h.twice q
    · rcases Multiset.mem_cons.1 hq with rfl | hq
      · exact hp
      · exact h.users (h.commit_none hp) q hq
  | logWrite p i =>
    obtain ⟨⟨hp, hlen⟩, hs⟩ := ite_none_right_eq_some.1 hs
    rw [event_eq (by simp), Option.map_map, map_eq_some_iff] at hs
    obtain ⟨t, ht, rfl⟩ := hs
    exact h.logWrite hp hlen hr.1 ht
  | bwrite p i => exact hr.elim
  | bread p dev b i | modify p i data | brelse p i =>
    exact hkeep (by simp) (by simp) trivial le_rfl hs
  | drop p i => exact hkeep (by simp) (by simp) trivial (Multiset.erase_le p _) hs

theorem Inv.endOp {p : P} (h : Inv s) (hp : p ∈ s.ops) (hcount : s.bio.refs.count p = 0) :
    Inv { s with
      ops := s.ops.erase p
      commit := if s.ops.erase p = ∅ then some (p, Bio.commit start s.lh) else none } := by
  -- What is left of the references belongs to the other operations.
  have husers : ∀ q ∈ s.bio.refs, q ∈ s.ops.erase p := fun q hq =>
    Finset.mem_erase.2 ⟨fun he => Multiset.count_eq_zero.1 hcount (he ▸ hq),
        h.users (h.commit_none hp) q hq⟩
  refine ⟨h.ok, h.dirty, h.short, h.twice, fun _ => husers, fun q as hx => ?_, h.calm⟩
  split_ifs at hx with hlast
  cases hx
  refine ⟨hlast, 0, s.lh, ?_, fun i hi => (h.dirty i hi).2, safe_commit start s.lh⟩
  exact Multiset.eq_zero_of_forall_notMem fun q hq => Finset.notMem_empty q (hlast ▸ husers q hq)

theorem Inv.step (h : Inv s) (hs : step start s l = some s') (hr : Rules s l) (hroom : Room s l) :
    Inv s' := by
  cases l with
  | beginOp p =>
    obtain ⟨⟨hc, -, -⟩, hs⟩ := ite_none_right_eq_some.1 hs
    cases hs
    have hc := isNone_iff_eq_none.1 hc
    refine ⟨h.ok, h.dirty, h.short, h.twice, fun _ q hq => Finset.mem_insert_of_mem
      (h.users hc q hq), fun q as hx => ?_, h.calm⟩
    exact absurd (hc.symm.trans hx) (by simp)
  | endOp p =>
    obtain ⟨hp, hs⟩ := ite_none_right_eq_some.1 hs
    cases hs
    exact h.endOp hp hr
  | op e => exact h.op_step hs hr hroom
  | commit i data =>
  simp only [Logger.step] at hs
  split at hs
  · cases hs
  · rename_i p hc
    cases hs
    obtain ⟨-, k, pend, hrefs, -, hk⟩ := h.commits p [] hc
    obtain rfl : k = 0 := hk
    refine ⟨h.ok, h.dirty, h.short, h.twice, fun _ q hq => ?_, by simp, h.calm⟩
    rw [hrefs] at hq
    exact absurd hq (Multiset.notMem_zero q)
  · rename_i p a as hc
    exact h.commit_step hc hs

theorem run_inv {disk : Disks} {ls : List (Label P)}
    (hrun : ((system P start).restrict fun s l => Rules s l ∧ Room s l).Run (init disk) ls s) :
    Inv s :=
  hrun.invariant (init_inv disk) fun _ _ _ h hs => h.step hs.1 hs.2.1 hs.2.2

/-- `bget` finds block `b` in the cache, or a buffer that can be recycled. -/
def Finds (s : Logger P) (b : ℕ) : Prop :=
  ∃ i < nbuf, s.Has i b ∨ (s.bio.cache.buf i).refcnt = 0 ∧ (s.bio.cache.buf i).dirty = false

theorem Inv.finds {b : ℕ} (h : Inv s) (hb : ∃ x, s.bio.cache.bget logDev b = some x) :
    s.Finds b := by
  obtain ⟨⟨i, c⟩, hb⟩ := hb
  obtain ⟨l, hr, -⟩ := h.ok.ring
  rcases bget_spec hr hb with ⟨x, y, rfl, -, hkey, -⟩ | ⟨-, hi, hfree, -⟩
  · exact ⟨i, hr.mem.1 (by simp), .inl hkey⟩
  · exact ⟨i, hr.mem.1 hi, .inr hfree⟩

instance (s : Logger P) (l : Label P) : Decidable (Rules s l) := by
  unfold Rules
  split <;> infer_instance

instance (s : Logger P) (l : Label P) : Decidable (Room s l) := by
  unfold Room
  split <;> infer_instance

/-- **`bget` finds a buffer**, for the operations and for the commit, in every run in which an
operation reads a block only when the log and two buffers for each operation fit into the cache. -/
theorem bget_finds {disk : Disks} {ls : List (Label P)}
    (hrun : ((system P start).restrict fun s l => Rules s l ∧ Room s l).Run (init disk) ls s) :
    s.panicked = false ∧
      (∀ p ∈ s.ops, ∀ b, Rules s (.op (.get p logDev b)) → Room s (.op (.get p logDev b)) →
        s.Finds b) ∧
      ∀ p b as, s.commit = some (p, .read b :: as) → s.Finds b := by
  have h := run_inv hrun
  exact ⟨h.calm, fun p hp b hr hroom => h.finds (h.op_bget hp hr.2 hroom b), fun p b as hc =>
    h.finds (h.commit_bget hc)⟩

/-- Process `p` reads block `b` into buffer `i`. -/
def readOp (p : P) (b i : ℕ) : List (Label P) := [.op (.get p logDev b), .op (.bread p logDev b i)]

/-- Process `p` reads block `b` into buffer `i`, logs it and releases it. -/
def pinOp (p : P) (b i : ℕ) : List (Label P) :=
  readOp p b i ++ [.op (.logWrite p i), .op (.brelse p i), .op (.drop p i)]

/-- Two operations; the second one ends, the first one goes on. -/
def twoRun : List (Label ℕ) :=
  [.beginOp 0, .beginOp 1] ++ pinOp 0 100 0 ++ pinOp 1 101 1 ++ [.endOp 1] ++ readOp 0 101 1

theorem bget_finds_two : ∃ s, ((system ℕ 2).restrict fun s l => Rules s l ∧ Room s l).Run
    (init fun _ _ => Bytes.zero) twoRun s ∧ s.lh = [100, 101] ∧ s.panicked = false ∧
    s.Finds 102 := by
  have hx : (LTS.exec (fun s l => if Rules s l ∧ Room s l then step 2 s l else none)
      (init fun _ _ => Bytes.zero) twoRun).map
      (fun s => (s.lh, decide (0 ∈ s.ops ∧ Rules s (.op (.get 0 logDev 102)) ∧
        Room s (.op (.get 0 logDev 102))))) = some ([100, 101], true) := by decide +kernel
  obtain ⟨s, hs, hd⟩ := map_eq_some_iff.1 hx
  simp only [Prod.mk.injEq, decide_eq_true_eq] at hd
  have hrun := LTS.run_restrict_of_exec hs
  obtain ⟨hlh, hp, hr, hroom⟩ := hd
  exact ⟨s, hrun, hlh, (bget_finds hrun).1, (bget_finds hrun).2.1 0 hp 102 hr hroom⟩

/-- Three operations log 28 blocks, one less than fit into the log, and one of them holds two more
buffers. -/
def dryRun : List (Label ℕ) :=
  [.beginOp 0, .beginOp 1, .beginOp 2] ++
    (List.range 28).flatMap
    (fun k => pinOp (if k < 10 then 0 else if k < 19 then 1 else 2) (100 + k) k) ++
    readOp 0 200 28 ++ readOp 0 201 29 ++ [.op (.get 1 logDev 202)]

/-- **No buffers.**  A run that keeps to the rules of the log ends in the panic of `bget`. -/
theorem bget_runs_dry :
    ∃ s, ((system ℕ 2).restrict Rules).Run (init fun _ _ => Bytes.zero) dryRun s ∧
    s.panicked = true ∧ s.lh.length = 28 ∧ s.ops.card = 3 := by
  have hx : (LTS.exec (fun s l => if Rules s l then step 2 s l else none)
    (init fun _ _ => Bytes.zero) dryRun).map
      (fun s => (s.panicked, s.lh.length, s.ops.card)) = some (true, 28, 3) := by decide +kernel
  obtain ⟨s, hs, hd⟩ := map_eq_some_iff.1 hx
  simp only [Prod.mk.injEq] at hd
  exact ⟨s, LTS.run_restrict_of_exec hs, hd⟩

end Logger

end Bio

end Xv6
