import Mathlib.Data.Fintype.Card
import Mathlib.Data.Finset.Card
import Xv6.LTS.Basic
import Xv6.Param

/-!
# Group commit: `begin_op`, `log_write` and `end_op`

Any number of processes share the log.  A process brackets a file-system operation with `begin_op`
and `end_op`; the last `end_op` runs `commit` without holding `log.lock`.  The system `Log.proto`
interleaves the sections that the three functions execute under `log.lock`:

* `begin_op` admits the operation, or goes to sleep on `&log` while a commit is in progress or the
  log might run out of space.  `sleep` takes `ptable.lock` before it releases `log.lock` and marks
  the process `SLEEPING` only afterwards (`Phase.dozing` is the window in between), and `wakeup`
  needs `ptable.lock`.  `kill` may wake a sleeper at any time, which then tests again.
* `log_write` makes its two tests before it acquires the lock (`Event.logWrite`) and records the
  block under the lock (`Event.append`).
* `end_op` commits if it is the last one, else wakes the sleepers.  `commit` consists of single
  writes to the disk and the assignment `log.lh.n = 0`.
-/

namespace Xv6

namespace Log

/-- Where a process is. -/
inductive Phase
  /-- Not in a file-system operation. -/
  | out
  /-- In `begin_op`, about to acquire `log.lock`. -/
  | entering
  /-- In `sleep`, called by `begin_op`: `log.lock` is released, `ptable.lock` still held. -/
  | dozing
  /-- `SLEEPING` on `&log`. -/
  | asleep
  /-- Between `begin_op` and `end_op`, having logged these blocks so far. -/
  | inOp (logged : List ℕ)
  /-- In `log_write` for block `b`, past the tests. -/
  | logging (logged : List ℕ) (b : ℕ)
  /-- In `end_op`, past the section under the lock, about to call `commit`. -/
  | commit
  /-- In `commit`, with `w` writes to go before `log.lh.n = 0`. -/
  | writing (w : ℕ)
  /-- In `commit`, past `log.lh.n = 0`. -/
  | erasing
  /-- In `end_op`, past `commit`. -/
  | committed
  deriving DecidableEq

namespace Phase

/-- The process is in an operation that `end_op` has not ended yet. -/
def active : Phase → Bool
  | inOp _ | logging _ _ => true
  | _ => false

/-- The process runs the commit part of `end_op`. -/
def commits : Phase → Bool
  | commit | writing _ | erasing | committed => true
  | _ => false

/-- The blocks that the current operation of the process has logged. -/
def logged : Phase → List ℕ
  | inOp l | logging l _ => l
  | _ => []

/-- The process sleeps, or is about to, in `begin_op`. -/
def sleeps : Phase → Bool
  | dozing | asleep => true
  | _ => false

end Phase

/-- The panics of `log.c` that the protocol can run into. -/
inductive Panic
  /-- `log.committing` -/
  | committing
  /-- `too big a transaction` -/
  | tooBig
  /-- `log_write outside of trans` -/
  | outside
  deriving DecidableEq

/-- The state shared by the processes `P`. -/
structure Proto (P : Type*) where
  phase : P → Phase
  /-- `log.outstanding` -/
  outstanding : ℕ
  /-- `log.committing` -/
  committing : Bool
  /-- The blocks named by `log.lh`. -/
  lh : List ℕ
  /-- The holder of `ptable.lock`, as far as `sleep` is concerned. -/
  ptable : Option P
  panicked : Option Panic

/-- The atomic steps. -/
inductive Event (P : Type*)
  /-- Call `begin_op`. -/
  | beginOp (p : P)
  /-- The test in `begin_op`, under `log.lock`. -/
  | enter (p : P)
  /-- `sleep` marks the process `SLEEPING` and gives up `ptable.lock`. -/
  | doze (p : P)
  /-- `kill` wakes the process. -/
  | kill (p : P)
  /-- The tests at the start of `log_write`. -/
  | logWrite (p : P) (b : ℕ)
  /-- The section of `log_write` under `log.lock`. -/
  | append (p : P) (b : ℕ)
  /-- The first section of `end_op` under `log.lock`. -/
  | endOp (p : P)
  /-- Enter `commit`. -/
  | commit (p : P)
  /-- One write to the disk in `commit`. -/
  | diskWrite (p : P)
  /-- `log.lh.n = 0` in `commit`. -/
  | clear (p : P)
  /-- The second section of `end_op` under `log.lock`. -/
  | finish (p : P)
  deriving DecidableEq

/-- The step is part of a commit. -/
def Event.isCommit {P : Type*} : Event P → Bool
  | commit _ | diskWrite _ | clear _ | finish _ => true
  | _ => false

namespace Proto

variable {P : Type*} [DecidableEq P]

/-- The initial state. -/
def init : Proto P := ⟨fun _ => .out, 0, false, [], none, none⟩

/-- Process `p` moves on to phase `ph`. -/
def goto (s : Proto P) (p : P) (ph : Phase) : Proto P :=
  { s with phase := Function.update s.phase p ph }

/-- `wakeup(&log)` -/
def wakeup (s : Proto P) : Proto P :=
  { s with phase := fun q => if s.phase q = .asleep then .entering else s.phase q }

/-- `begin_op` has to wait. -/
def mustWait (s : Proto P) : Bool :=
  s.committing || decide (s.lh.length + (s.outstanding + 1) * maxOpBlocks > logSize)

/-- The loop and the assignment in `log_write`: record the block unless it is already there. -/
def absorb (lh : List ℕ) (b : ℕ) : List ℕ := if b ∈ lh then lh else lh ++ [b]

/-- The section of `begin_op` under the lock. -/
def enter (s : Proto P) (p : P) : Option (Proto P) :=
  if s.mustWait then
    if s.ptable = none then some { s.goto p .dozing with ptable := some p } else none
  else some { s.goto p (.inOp []) with outstanding := s.outstanding + 1 }

/-- The tests of `log_write`, on a log of `size` blocks. -/
def logWrite (size : ℕ) (s : Proto P) (p : P) (logged : List ℕ) (b : ℕ) : Proto P :=
  if logSize ≤ s.lh.length ∨ size - 1 ≤ s.lh.length then { s with panicked := some .tooBig }
  else if s.outstanding < 1 then { s with panicked := some .outside }
  else s.goto p (.logging logged b)

/-- The first section of `end_op` under the lock. -/
def endOp (s : Proto P) (p : P) : Option (Proto P) :=
  let s' := { s with outstanding := s.outstanding - 1 }
  if s.committing then some { s' with panicked := some .committing }
  else if s'.outstanding = 0 then some { s'.goto p .commit with committing := true }
  else if s.ptable = none then some (s'.wakeup.goto p .out) else none

/-- The step function; `size` is `log.size`. -/
def step (size : ℕ) (s : Proto P) (e : Event P) : Option (Proto P) :=
  if s.panicked.isSome then none
  else match e with
    | .beginOp p => if s.phase p = .out then some (s.goto p .entering) else none
    | .enter p => if s.phase p = .entering then s.enter p else none
    | .doze p => if s.phase p = .dozing then some { s.goto p .asleep with ptable := none } else none
    | .kill p => if s.phase p = .asleep ∧ s.ptable = none then some (s.goto p .entering) else none
    | .logWrite p b =>
      match s.phase p with
      | .inOp logged => some (s.logWrite size p logged b)
      | _ => none
    | .append p b =>
      match s.phase p with
      | .logging logged b' =>
        if b' = b then some { s.goto p (.inOp (logged ++ [b])) with lh := absorb s.lh b } else none
      | _ => none
    | .endOp p =>
      match s.phase p with
      | .inOp _ => s.endOp p
      | _ => none
    | .commit p =>
      if s.phase p = .commit then
        some (s.goto p (if 0 < s.lh.length then .writing (2 * s.lh.length + 1) else .committed))
      else none
    | .diskWrite p =>
      match s.phase p with
      | .writing (w + 1) => some (s.goto p (.writing w))
      | .erasing => some (s.goto p .committed)
      | _ => none
    | .clear p => if s.phase p = .writing 0 then some { s.goto p .erasing with lh := [] } else none
    | .finish p =>
      if s.phase p = .committed ∧ s.ptable = none then
        some ({ s with committing := false }.wakeup.goto p .out)
      else none

end Proto

/-- The system of processes `P` on a log of `size` blocks. -/
def proto (P : Type*) [DecidableEq P] (size : ℕ) : LTS (Proto P) (Event P) :=
  .ofFun (Proto.step size)

end Log

end Xv6
