import Xv6.Ptable.Protocol

/-!
# Sleep locks: `acquiresleep`, `releasesleep` and `holdingsleep`

Any number of processes `P` use one sleep lock.  The system `Sleeplock.sys` interleaves the single
steps of their calls: every acquisition and every release of the spin lock `lk->lk` and of
`ptable.lock` is a step of its own, and so is every assignment in between.

* `sleep` acquires `ptable.lock` while it still holds `lk->lk`, releases `lk->lk`, and only then
  marks the process `SLEEPING`; the scheduler, to which it switches, releases `ptable.lock`.
* A process that has been woken is `RUNNABLE`.  The scheduler acquires `ptable.lock` again before it
  switches back, and the process releases it before it acquires `lk->lk`.
* Other code (`kill`, the scheduler for other processes) also uses `ptable.lock`; in its section
  `kill` may wake any process.
-/

namespace Xv6

open Ptable (ProcState)

/-- `struct sleeplock`, without its spin lock. -/
structure Sleeplock where
  locked : Bool
  pid : ℕ

namespace Sleeplock

/-- Where a process is. -/
inductive Phase
  /-- Not in a call, and not the holder of the lock. -/
  | idle
  /-- In `acquiresleep`, about to acquire `lk->lk`, at first or at the end of `sleep`. -/
  | want
  /-- About to test `lk->locked`. -/
  | test
  /-- In `sleep`, about to acquire `ptable.lock`. -/
  | sleep
  /-- Holding both locks, about to release `lk->lk`. -/
  | both
  /-- About to set `p->chan` and `p->state`. -/
  | doze
  /-- About to switch to the scheduler. -/
  | sched
  /-- Switched out. -/
  | parked
  /-- Back from `sched`, about to clear `p->chan`. -/
  | tidy
  /-- About to release `ptable.lock`. -/
  | wake
  /-- About to set `lk->locked`. -/
  | take
  /-- About to set `lk->pid`. -/
  | sign
  /-- About to release `lk->lk` and to return from `acquiresleep`. -/
  | taken
  /-- Between `acquiresleep` and `releasesleep`. -/
  | held
  /-- In `releasesleep`, about to acquire `lk->lk`. -/
  | give
  /-- About to clear `lk->locked`. -/
  | clear
  /-- About to clear `lk->pid`. -/
  | unsign
  /-- In `wakeup`, about to acquire `ptable.lock`. -/
  | rouse
  /-- About to call `wakeup1`. -/
  | scan
  /-- About to release `ptable.lock`. -/
  | roused
  /-- About to release `lk->lk` and to return from `releasesleep`. -/
  | given
  /-- In `holdingsleep`, about to acquire `lk->lk`; `b` says whether the process is the holder. -/
  | ask (b : Bool)
  /-- About to compute the result of `holdingsleep`. -/
  | look (b : Bool)
  /-- About to release `lk->lk` and to return `r` from `holdingsleep`. -/
  | asked (b r : Bool)
  deriving DecidableEq

/-- The atomic steps. -/
inductive Label (P : Type*)
  /-- The process calls `acquiresleep`. -/
  | acquiresleep (p : P)
  /-- The holder calls `releasesleep`. -/
  | releasesleep (p : P)
  /-- The process calls `holdingsleep`. -/
  | holdingsleep (p : P)
  /-- The process takes the next step of its call. -/
  | run (p : P)
  /-- Other code acquires `ptable.lock`. -/
  | enter
  /-- `kill` finds process `p`. -/
  | kill (p : P)
  /-- Other code releases `ptable.lock`. -/
  | leave
  deriving DecidableEq

/-- The state shared by the processes `P`. -/
structure Sys (P : Type*) where
  lk : Sleeplock
  /-- The holder of `lk->lk`. -/
  lock : Option P
  /-- The holder of `ptable.lock`; `some none` is other code. -/
  ptable : Option (Option P)
  phase : P → Phase
  /-- `p->state` -/
  state : P → ProcState
  /-- `p->chan == lk` -/
  chan : P → Bool

namespace Sys

variable {P : Type*} [DecidableEq P]

/-- After `initsleeplock`. -/
def init : Sys P := ⟨⟨false, 0⟩, none, none, fun _ => .idle, fun _ => .running, fun _ => false⟩

/-- Process `p` moves on to phase `ph`. -/
def goto (s : Sys P) (p : P) (ph : Phase) : Sys P := { s with phase := upd s.phase p ph }

/-- `acquire(&lk->lk)` -/
def acquire (s : Sys P) (p : P) (ph : Phase) : Option (Sys P) :=
  if s.lock = none then some { s.goto p ph with lock := some p } else none

/-- `release(&lk->lk)` -/
def release (s : Sys P) (p : P) (ph : Phase) : Sys P := { s.goto p ph with lock := none }

/-- `acquire(&ptable.lock)` -/
def acquirePtable (s : Sys P) (p : P) (ph : Phase) : Option (Sys P) :=
  if s.ptable = none then some { s.goto p ph with ptable := some (some p) } else none

/-- `release(&ptable.lock)` -/
def releasePtable (s : Sys P) (p : P) (ph : Phase) : Sys P := { s.goto p ph with ptable := none }

/-- `p->state = SLEEPING`, with `p->chan = chan` -/
def setSleeping (s : Sys P) (p : P) : Sys P :=
  { s with state := upd s.state p .sleeping, chan := upd s.chan p true }

/-- The scheduler picks process `p`, if it is `RUNNABLE`. -/
def resume (s : Sys P) (p : P) : Option (Sys P) :=
  if s.state p = .runnable then { s with state := upd s.state p .running }.acquirePtable p
    .tidy else none

/-- `wakeup1(lk)` -/
def wakeup1 (s : Sys P) : Sys P :=
  { s with
    state := fun q => if s.state q = .sleeping ∧ s.chan q = true then .runnable else s.state q }

/-- What `kill` does to the state of process `p`. -/
def kill (s : Sys P) (p : P) : Sys P :=
  { s with state := upd s.state p (if s.state p = .sleeping then .runnable else s.state p) }

/-- The next step of process `p`, whose pid is `pid p`. -/
def run (pid : P → ℕ) (s : Sys P) (p : P) : Option (Sys P) :=
  match s.phase p with
  | .idle | .held => none
  -- acquiresleep
  | .want => s.acquire p .test
  | .test => some (s.goto p (if s.lk.locked then .sleep else .take))
  | .sleep => s.acquirePtable p .both
  | .both => some (s.release p .doze)
  | .doze => some ((s.setSleeping p).goto p .sched)
  | .sched => some (s.releasePtable p .parked)
  | .parked => s.resume p
  | .tidy => some { s.goto p .wake with chan := upd s.chan p false }
  | .wake => some (s.releasePtable p .want)
  | .take => some { s.goto p .sign with lk := { s.lk with locked := true } }
  | .sign => some { s.goto p .taken with lk := { s.lk with pid := pid p } }
  | .taken => some (s.release p .held)
  -- releasesleep
  | .give => s.acquire p .clear
  | .clear => some { s.goto p .unsign with lk := { s.lk with locked := false } }
  | .unsign => some { s.goto p .rouse with lk := { s.lk with pid := 0 } }
  | .rouse => s.acquirePtable p .scan
  | .scan => some (s.wakeup1.goto p .roused)
  | .roused => some (s.releasePtable p .given)
  | .given => some (s.release p .idle)
  -- holdingsleep
  | .ask b => s.acquire p (.look b)
  | .look b => some (s.goto p (.asked b (s.lk.locked && s.lk.pid == pid p)))
  | .asked b _ => some (s.release p (if b then .held else .idle))

/-- The step function. -/
def step (pid : P → ℕ) (s : Sys P) : Label P → Option (Sys P)
  | .acquiresleep p => if s.phase p = .idle then some (s.goto p .want) else none
  | .releasesleep p => if s.phase p = .held then some (s.goto p .give) else none
  | .holdingsleep p =>
    if s.phase p = .idle then some (s.goto p (.ask false))
    else if s.phase p = .held then some (s.goto p (.ask true)) else none
  | .run p => s.run pid p
  | .enter => if s.ptable = none then some { s with ptable := some none } else none
  | .kill p => if s.ptable = some none then some (s.kill p) else none
  | .leave => if s.ptable = some none then some { s with ptable := none } else none

end Sys

/-- The system of all interleavings; `pid p` is the pid of process `p`. -/
def sys {P : Type*} [DecidableEq P] (pid : P → ℕ) : LTS (Sys P) (Label P) := .ofFun (Sys.step pid)

end Sleeplock

end Xv6
