import Mathlib.Algebra.Group.Nat.Defs
import Mathlib.Data.Int.Notation
import Xv6.LTS.Basic
import Xv6.Param
import Xv6.Prog.Update

/-!
# The process table: `fork`, `exit`, `wait`, `kill` and the scheduler

Any number of CPUs run `scheduler` and the processes that it picks.  The system `Ptable.sys`
interleaves their steps; a section under `ptable.lock` is one step, except that the sections which
switch stacks are cut at each `swtch`: the lock is acquired by one thread and released by another.

* A CPU is in the scheduler (`CpuPc.idle`, `CpuPc.scan`, `CpuPc.back`) or on the stack of a process
  (`CpuPc.on`).
* The kernel thread of a process runs outside `ptable.lock` (`Pc.run`), is in the loop of `wait`
  (`Pc.waiting`), has changed its state and is about to `swtch` (`Pc.leaving`), or is at a saved
  context (`Pc.parked`), from which `scheduler` resumes it.
* `fork` has several sections: the child is an `EMBRYO` while kernel stack and page table are being
  allocated, which may fail, and `np->parent` is set outside `ptable.lock` (`Task`).

The ghost field `hist` records what the processes have done, by pid.
-/

namespace Xv6

namespace Ptable

/-- `enum procstate` -/
inductive ProcState
  | unused
  | embryo
  | sleeping
  | runnable
  | running
  | zombie
  deriving DecidableEq

/-- What a process sleeps on: a process structure (in `wait`) or some other address. -/
inductive Chan
  | proc (p : ℕ)
  | other (n : ℕ)
  deriving DecidableEq

/-- Where a saved context returns to. -/
inductive Resume
  /-- `forkret` -/
  | forkret
  /-- The call of `sched` in `yield`. -/
  | yield
  /-- The call of `sched` in `sleep`, which is to reacquire some lock other than `ptable.lock`. -/
  | sleep
  /-- The call of `sched` in `sleep(curproc, &ptable.lock)`, in `wait`. -/
  | wait
  /-- The call of `sched` in `exit`, which never returns. -/
  | exit
  deriving DecidableEq

/-- Where the kernel thread of a process is. -/
inductive Pc
  /-- Outside the sections under `ptable.lock`. -/
  | run
  /-- In the loop of `wait`, holding `ptable.lock`. -/
  | waiting
  /-- In `sched`, holding `ptable.lock`, about to `swtch` to the scheduler. -/
  | leaving (k : Resume)
  /-- Not running; `swtch` will continue there. -/
  | parked (k : Resume)
  deriving DecidableEq

/-- What a process is in the middle of, as far as the process table is concerned. -/
inductive Task
  | none
  /-- In `fork`, with the embryo `np`; `linked` once `np->parent` is set. -/
  | fork (np : ℕ) (linked : Bool)
  deriving DecidableEq

/-- `struct proc`: the fields that the functions of this development read, and the place of its
kernel thread. -/
structure Proc where
  state : ProcState
  pid : ℤ
  parent : Option ℕ
  chan : Option Chan
  killed : Bool
  pc : Pc
  task : Task
  /-- The length of the history when the slot was last allocated. -/
  born : ℕ
  deriving DecidableEq

/-- Where a CPU is. -/
inductive CpuPc
  /-- In `scheduler`, about to acquire `ptable.lock`. -/
  | idle
  /-- In the loop of `scheduler`, at slot `i`, holding `ptable.lock`. -/
  | scan (i : ℕ)
  /-- Back in `scheduler` from process `i`, about to clear `c->proc`. -/
  | back (i : ℕ)
  /-- On the stack of process `i`. -/
  | on (i : ℕ)
  deriving DecidableEq

/-- `struct cpu` -/
structure Cpu where
  proc : Option ℕ
  pc : CpuPc
  deriving DecidableEq

/-- What processes have done; processes are named by pid. -/
inductive Event
  /-- `fork` in `parent` returned `child`. -/
  | fork (child parent : ℤ)
  /-- The process became a `ZOMBIE`. -/
  | exit (pid : ℤ)
  /-- `wait` in `parent` returned `child`. -/
  | reap (child parent : ℤ)
  /-- `kill(pid)` was called. -/
  | kill (pid : ℤ)
  /-- The process in the slot ran into a trap. -/
  | trap (slot : ℕ)
  deriving DecidableEq

/-- The state shared by the CPUs `C`. -/
structure Sys (C : Type) where
  /-- The holder of `ptable.lock`. -/
  lock : Option C
  procs : ℕ → Proc
  cpus : C → Cpu
  nextpid : ℤ
  initproc : ℕ
  hist : List Event

/-- The atomic steps. -/
inductive Label (C : Type)
  /-- The next step of `scheduler`. -/
  | sched (c : C)
  /-- A process that `scheduler` has switched to continues. -/
  | resume (c : C)
  /-- `swtch` to the scheduler. -/
  | swtch (c : C)
  | yield (c : C)
  | sleep (c : C) (n : ℕ)
  | exit (c : C)
  /-- `wait` acquires `ptable.lock`. -/
  | wait (c : C)
  /-- One round of the loop of `wait`. -/
  | look (c : C)
  /-- `fork` calls `allocproc`. -/
  | fork (c : C)
  /-- `kalloc` or `copyuvm` fails in `fork`. -/
  | forkFail (c : C)
  /-- `np->parent = curproc` -/
  | forkLink (c : C)
  /-- The last section of `fork`. -/
  | forkDone (c : C)
  | kill (pid : ℤ)
  | wakeup (ch : Chan)
  /-- A trap from user space kills the process. -/
  | trap (c : C)

/-! ## The functions of `proc.c` on the table -/

/-- The first slot, in the order of the table, that satisfies a test. -/
def first (f : ℕ → Bool) : Option ℕ := (List.range nproc).find? f

/-- `wakeup1` -/
def wakeup1 (t : ℕ → Proc) (ch : Option Chan) : ℕ → Proc := fun i =>
  if (t i).state = .sleeping ∧ (t i).chan = ch then { t i with state := .runnable } else t i

/-- One round of the loop in `exit` that passes the children of `cur` to init. -/
def adopt (cur init : ℕ) (t : ℕ → Proc) (i : ℕ) : ℕ → Proc :=
  if (t i).parent = some cur then
    let t' := upd t i { t i with parent := some init }
    if (t i).state = .zombie then wakeup1 t' (some (.proc init)) else t'
  else t

/-- The section of `exit` under `ptable.lock`, up to `sched`. -/
def exitTable (t : ℕ → Proc) (cur init : ℕ) : ℕ → Proc :=
  let t₁ := wakeup1 t ((t cur).parent.map .proc)
  let t₂ := (List.range nproc).foldl (adopt cur init) t₁
  upd t₂ cur { t₂ cur with state := .zombie, pc := .leaving .exit }

/-- `kill`: the value returned and the table. -/
def kill (t : ℕ → Proc) (pid : ℤ) : ℤ × (ℕ → Proc) :=
  match first fun i => (t i).pid = pid with
  | some i =>
    (0, upd t i { t i with
      killed := true
      state := if (t i).state = .sleeping then .runnable else (t i).state })
  | none => (-1, t)

/-- What `wait` leaves of a zombie. -/
def reaped (p : Proc) : Proc :=
  { p with state := .unused, pid := 0, parent := none, killed := false }

/-- What `allocproc` makes of an unused slot; its context is to start in `forkret`. -/
def embryo (p : Proc) (pid : ℤ) (born : ℕ) : Proc :=
  { p with state := .embryo, pid := pid, pc := .parked .forkret, task := .none, born := born }

namespace Sys

variable {C : Type} [DecidableEq C]

/-- The process that CPU `c` runs. -/
def current (s : Sys C) (c : C) : Option ℕ :=
  match (s.cpus c).pc with
  | .on p => some p
  | _ => none

/-- The process that CPU `c` runs, if it is outside the sections under `ptable.lock`. -/
def user (s : Sys C) (c : C) : Option ℕ :=
  (s.current c).filter fun p => (s.procs p).pc = .run

/-- The same, if it is not in `fork`. -/
def free (s : Sys C) (c : C) : Option ℕ :=
  (s.user c).filter fun p => (s.procs p).task = .none

/-- Change the entry of process `p`. -/
def setProc (s : Sys C) (p : ℕ) (v : Proc) : Sys C := { s with procs := upd s.procs p v }

/-- Change CPU `c`. -/
def setCpu (s : Sys C) (c : C) (v : Cpu) : Sys C := { s with cpus := upd s.cpus c v }

/-- The next step of `scheduler`. -/
def sched (s : Sys C) (c : C) : Option (Sys C) :=
  match (s.cpus c).pc with
  | .idle =>
    if s.lock = none then some { s.setCpu c ⟨(s.cpus c).proc, .scan 0⟩ with
      lock := some c } else none
  | .scan i =>
    if i < nproc then
      if (s.procs i).state = .runnable then
        some ((s.setCpu c ⟨some i, .on i⟩).setProc i { s.procs i with state := .running })
      else some (s.setCpu c ⟨(s.cpus c).proc, .scan (i + 1)⟩)
    else some { s.setCpu c ⟨(s.cpus c).proc, .idle⟩ with lock := none }
  | .back i => some (s.setCpu c ⟨none, .scan (i + 1)⟩)
  | .on _ => none

/-- The process that CPU `c` has switched to returns from `swtch`. -/
def resume (s : Sys C) (c : C) : Option (Sys C) := do
  let p ← s.current c
  match (s.procs p).pc with
  | .parked .forkret | .parked .yield =>
    some { s.setProc p { s.procs p with pc := .run } with lock := none }
  | .parked .sleep =>
    some { s.setProc p { s.procs p with pc := .run, chan := none } with lock := none }
  | .parked .wait => some (s.setProc p { s.procs p with pc := .waiting, chan := none })
  | _ => none -- a zombie that comes back panics

/-- `swtch(&p->context, mycpu()->scheduler)` -/
def swtch (s : Sys C) (c : C) : Option (Sys C) := do
  let p ← s.current c
  match (s.procs p).pc with
  | .leaving k =>
    some ((s.setCpu c ⟨(s.cpus c).proc, .back p⟩).setProc p { s.procs p with pc := .parked k })
  | _ => none

/-- Acquire `ptable.lock`, change the table, and go on to `sched`. -/
def leave (s : Sys C) (c : C) (t : ℕ → Proc) : Option (Sys C) :=
  if s.lock = none then some { s with lock := some c, procs := t } else none

/-- `yield` -/
def yield (s : Sys C) (c : C) : Option (Sys C) := do
  let p ← s.user c
  s.leave c (upd s.procs p { s.procs p with state := .runnable, pc := .leaving .yield })

/-- `sleep` with a lock other than `ptable.lock`, on an address that is no process. -/
def sleep (s : Sys C) (c : C) (n : ℕ) : Option (Sys C) := do
  let p ← s.user c
  s.leave c (upd s.procs p { s.procs p with
    state := .sleeping, chan := some (.other n), pc := .leaving .sleep })

/-- `exit`; it panics in init. -/
def exit (s : Sys C) (c : C) : Option (Sys C) := do
  let p ← s.free c
  if p = s.initproc then none
  else do
    let s' ← s.leave c (exitTable s.procs p s.initproc)
    some { s' with hist := s.hist ++ [.exit (s.procs p).pid] }

/-- `wait` acquires `ptable.lock`. -/
def wait (s : Sys C) (c : C) : Option (Sys C) := do
  let p ← s.free c
  s.leave c (upd s.procs p { s.procs p with pc := .waiting })

/-- One round of the loop of `wait`: return a child that has exited, return -1, or sleep. -/
def look (s : Sys C) (c : C) : Option (Sys C) := do
  let p ← s.current c
  match (s.procs p).pc with
  | .waiting =>
    match first fun i => (s.procs i).parent = some p ∧ (s.procs i).state = .zombie with
    | some q =>
      let t := upd s.procs q (reaped (s.procs q))
      some { s with
        lock := none
        procs := upd t p { t p with pc := .run }
        hist := s.hist ++ [.reap (s.procs q).pid (s.procs p).pid] }
    | none =>
      if (first fun i => (s.procs i).parent = some p).isNone ∨ (s.procs p).killed then
        some { s.setProc p { s.procs p with pc := .run } with lock := none }
      else some (s.setProc p { s.procs p with
        state := .sleeping, chan := some (.proc p), pc := .leaving .wait })
  | _ => none

/-- `fork` up to the section of `allocproc` under `ptable.lock`; it returns -1 if no slot is
free. -/
def fork (s : Sys C) (c : C) : Option (Sys C) := do
  let p ← s.free c
  if s.lock = none then
    match first fun i => (s.procs i).state = .unused with
    | some np =>
      let t := upd s.procs np (embryo (s.procs np) s.nextpid s.hist.length)
      some { s with
        procs := upd t p { t p with task := .fork np false }
        nextpid := (s.nextpid + 1).bmod (2 ^ 32) }
    | none => some s
  else none

/-- `fork` gives up its embryo: no kernel stack, or no page table. -/
def forkFail (s : Sys C) (c : C) : Option (Sys C) := do
  let p ← s.user c
  match (s.procs p).task with
  | .fork np false =>
    let t := upd s.procs np { s.procs np with state := .unused }
    some { s with procs := upd t p { t p with task := .none } }
  | _ => none

/-- `np->parent = curproc` -/
def forkLink (s : Sys C) (c : C) : Option (Sys C) := do
  let p ← s.user c
  match (s.procs p).task with
  | .fork np false =>
    let t := upd s.procs np { s.procs np with parent := some p }
    some { s with procs := upd t p { t p with task := .fork np true } }
  | _ => none

/-- The last section of `fork`; it returns the pid of the child. -/
def forkDone (s : Sys C) (c : C) : Option (Sys C) := do
  let p ← s.user c
  match (s.procs p).task with
  | .fork np true =>
    if s.lock = none then
      let t := upd s.procs np { s.procs np with state := .runnable }
      some { s with
        procs := upd t p { t p with task := .none }
        hist := s.hist ++ [.fork (s.procs np).pid (s.procs p).pid] }
    else none
  | _ => none

/-- A trap from user space: `myproc()->killed = 1`. -/
def trap (s : Sys C) (c : C) : Option (Sys C) := do
  let p ← s.user c
  some { s.setProc p { s.procs p with killed := true } with hist := s.hist ++ [.trap p] }

/-- The step function. -/
def step (s : Sys C) : Label C → Option (Sys C)
  | .sched c => s.sched c
  | .resume c => s.resume c
  | .swtch c => s.swtch c
  | .yield c => s.yield c
  | .sleep c n => s.sleep c n
  | .exit c => s.exit c
  | .wait c => s.wait c
  | .look c => s.look c
  | .fork c => s.fork c
  | .forkFail c => s.forkFail c
  | .forkLink c => s.forkLink c
  | .forkDone c => s.forkDone c
  | .kill pid =>
    if s.lock = none then
      some { s with procs := (kill s.procs pid).2, hist := s.hist ++ [.kill pid] }
    else none
  | .wakeup ch => if s.lock = none then some { s with procs := wakeup1 s.procs (some ch) } else none
  | .trap c => s.trap c

/-- The empty table. -/
def blank : Sys C :=
  ⟨none, fun _ => ⟨.unused, 0, none, none, false, .parked .forkret, .none, 0⟩, fun _ =>
      ⟨none, .idle⟩,
    1, 0, []⟩

/-- `userinit`: the first process is in the first slot. -/
def init : Sys C :=
  { (blank : Sys C).setProc 0 { (blank : Sys C).procs 0 with state := .runnable, pid := 1 } with
    nextpid := 2 }

end Sys

/-- The system of all interleavings. -/
def sys (C : Type) [DecidableEq C] : LTS (Sys C) (Label C) := .ofFun Sys.step

end Ptable

end Xv6
