import Xv6.LTS.Basic
import Xv6.Ring.Basic

/-!
# Pipes: `pipewrite`, `piperead` and `pipeclose`

Any number of processes `P` use one pipe.  The system `Pipe.sys` interleaves the atomic steps of
their calls: a process acquires `p->lock`, tests and moves single bytes while it holds the lock, and
`wakeup` and `sleep` take `ptable.lock` inside that section.

* `sleep` takes `ptable.lock` before it releases `p->lock` and marks the process `SLEEPING` only
  afterwards (`Phase.writeDoze` and `Phase.readDoze` are the window in between); a process that is
  woken has to acquire `p->lock` again.
* `kill` takes `ptable.lock` only: it may set the flag of a process in the middle of its section.
* The counters `nread` and `nwrite` are 32-bit words that wrap around.

The ghost fields `stored` and `delivered` record every byte that `pipewrite` has stored, with the
number of the call, and every byte that `piperead` has copied out.
-/

namespace Xv6

/-- `PIPESIZE` -/
abbrev pipeSize : ℕ := 512

/-- The number of values of a `uint`. -/
abbrev uintSize : ℕ := 2 ^ 32

/-- `struct pipe`, without its lock. -/
structure Pipe where
  data : ℕ → UInt8
  nread : ℕ
  nwrite : ℕ
  readopen : Bool
  writeopen : Bool

namespace Pipe

/-- The ring buffer of the pipe. -/
def ring (p : Pipe) : Ring UInt8 := ⟨p.data, p.nread, p.nwrite⟩

/-- `nwrite - nread` -/
def used (p : Pipe) : ℕ := p.ring.used uintSize

/-- The bytes in the pipe, oldest first. -/
def contents (p : Pipe) : List UInt8 := p.ring.contents uintSize pipeSize

/-- `p->nwrite == p->nread + PIPESIZE` -/
def full (p : Pipe) : Bool := p.nwrite = (p.nread + pipeSize) % uintSize

/-- `p->nread == p->nwrite` -/
def empty (p : Pipe) : Bool := p.nread = p.nwrite

/-- `p->data[p->nwrite++ % PIPESIZE] = b` -/
def put (p : Pipe) (b : UInt8) : Pipe :=
  { p with data := upd p.data (p.nwrite % pipeSize) b, nwrite := (p.nwrite + 1) % uintSize }

/-- `p->data[p->nread % PIPESIZE]` -/
def next (p : Pipe) : UInt8 := p.data (p.nread % pipeSize)

/-- `p->nread++` -/
def drop (p : Pipe) : Pipe := { p with nread := (p.nread + 1) % uintSize }

/-- `p->writeopen = 0` or `p->readopen = 0` -/
def shut (p : Pipe) (writable : Bool) : Pipe :=
  if writable then { p with writeopen := false } else { p with readopen := false }

/-- The arguments of a call of `pipewrite`; `id` numbers the calls. -/
structure WriteArgs where
  id : ℕ
  addr : ℕ → UInt8
  n : ℤ

/-- The bytes that the call is to write. -/
def WriteArgs.bytes (w : WriteArgs) : List UInt8 := (List.range w.n.toNat).map w.addr

/-- Where a process is. -/
inductive Phase
  /-- Not in a call. -/
  | idle
  /-- In `pipewrite` with `i` bytes stored, about to acquire `p->lock`. -/
  | writeAcquire (w : WriteArgs) (i : ℕ)
  /-- In the loops of `pipewrite`, holding `p->lock`. -/
  | writeLoop (w : WriteArgs) (i : ℕ)
  /-- The pipe is full, about to call `wakeup(&p->nread)`. -/
  | writeFull (w : WriteArgs) (i : ℕ)
  /-- The pipe is full, about to call `sleep(&p->nwrite, &p->lock)`. -/
  | writeSleep (w : WriteArgs) (i : ℕ)
  /-- In `sleep`: `p->lock` is released, `ptable.lock` still held. -/
  | writeDoze (w : WriteArgs) (i : ℕ)
  /-- `SLEEPING` on `&p->nwrite`. -/
  | writeAsleep (w : WriteArgs) (i : ℕ)
  /-- Past the loop, about to call `wakeup(&p->nread)`. -/
  | writeWake (w : WriteArgs)
  /-- About to release `p->lock` and return. -/
  | writeDone (w : WriteArgs)
  /-- In `piperead`, about to acquire `p->lock`. -/
  | readAcquire (n : ℤ)
  /-- In the first loop of `piperead`, holding `p->lock`. -/
  | readLoop (n : ℤ)
  /-- The pipe is empty, about to call `sleep(&p->nread, &p->lock)`. -/
  | readSleep (n : ℤ)
  /-- In `sleep`: `p->lock` is released, `ptable.lock` still held. -/
  | readDoze (n : ℤ)
  /-- `SLEEPING` on `&p->nread`. -/
  | readAsleep (n : ℤ)
  /-- In the second loop of `piperead`, having copied these bytes. -/
  | readCopy (n : ℤ) (got : List UInt8)
  /-- Past the loop, about to call `wakeup(&p->nwrite)`. -/
  | readWake (n : ℤ) (got : List UInt8)
  /-- About to release `p->lock` and return. -/
  | readDone (n : ℤ) (got : List UInt8)
  /-- In `pipeclose`, about to acquire `p->lock`. -/
  | closeAcquire (writable : Bool)
  /-- About to clear `p->writeopen` or `p->readopen`. -/
  | closeShut (writable : Bool)
  /-- About to call `wakeup(&p->nread)` or `wakeup(&p->nwrite)`. -/
  | closeWake (writable : Bool)
  /-- About to release `p->lock`, and to free the pipe if both ends are closed. -/
  | closeDone

namespace Phase

/-- The process holds `p->lock`. -/
def holds : Phase → Bool
  | writeLoop .. | writeFull .. | writeSleep .. | writeWake .. | writeDone .. => true
  | readLoop .. | readSleep .. | readCopy .. | readWake .. | readDone .. => true
  | closeShut .. | closeWake .. | closeDone => true
  | _ => false

/-- The process holds `ptable.lock`. -/
def dozes : Phase → Bool
  | writeDoze .. | readDoze .. => true
  | _ => false

/-- The process is `SLEEPING` on `&p->nread`, or about to be. -/
def onNread : Phase → Bool
  | readDoze .. | readAsleep .. => true
  | _ => false

/-- The process is `SLEEPING` on `&p->nwrite`, or about to be. -/
def onNwrite : Phase → Bool
  | writeDoze .. | writeAsleep .. => true
  | _ => false

/-- What `wakeup(&p->nread)` does to the process. -/
def wakeNread : Phase → Phase
  | readAsleep n => readAcquire n
  | ph => ph

/-- What `wakeup(&p->nwrite)` does to the process. -/
def wakeNwrite : Phase → Phase
  | writeAsleep w i => writeAcquire w i
  | ph => ph

end Phase

/-- The calls. -/
inductive Call
  | write (addr : ℕ → UInt8) (n : ℤ)
  | read (n : ℤ)
  | close (writable : Bool)

/-- The atomic steps. -/
inductive Label (P : Type*)
  /-- The process makes a call. -/
  | call (p : P) (c : Call)
  /-- The process takes the next step of its call. -/
  | run (p : P)
  /-- The call of the process returns. -/
  | ret (p : P) (v : ℤ)
  /-- Some process kills `p`. -/
  | kill (p : P)

/-- The state shared by the processes `P`. -/
structure Sys (P : Type*) where
  pipe : Pipe
  /-- `pipeclose` has freed the page of the pipe. -/
  freed : Bool
  /-- The holder of `p->lock`. -/
  lock : Option P
  /-- The holder of `ptable.lock`, as far as `sleep` is concerned. -/
  ptable : Option P
  phase : P → Phase
  killed : P → Bool
  /-- The number of calls made so far. -/
  calls : ℕ
  /-- Every byte stored so far, with the number of the call that stored it. -/
  stored : List (ℕ × UInt8)
  /-- Every byte copied out so far. -/
  delivered : List UInt8

namespace Sys

variable {P : Type*} [DecidableEq P]

/-- The pipe as `pipealloc` leaves it, in a page with arbitrary contents. -/
def init (data : ℕ → UInt8) : Sys P :=
  ⟨⟨data, 0, 0, true, true⟩, false, none, none, fun _ => .idle, fun _ => false, 0, [], []⟩

/-- Process `p` moves on to phase `ph`. -/
def goto (s : Sys P) (p : P) (ph : Phase) : Sys P := { s with phase := upd s.phase p ph }

/-- `acquire(&p->lock)` -/
def acquire (s : Sys P) (p : P) (ph : Phase) : Option (Sys P) :=
  if s.lock = none ∧ s.freed = false then some { s.goto p ph with lock := some p } else none

/-- `wakeup`, which changes the processes by `wake`. -/
def wakeup (s : Sys P) (p : P) (wake : Phase → Phase) (ph : Phase) : Option (Sys P) :=
  if s.ptable = none then some ({ s with phase := fun q => wake (s.phase q) }.goto p ph) else none

/-- The first part of `sleep`: acquire `ptable.lock` and release `p->lock`. -/
def sleep (s : Sys P) (p : P) (ph : Phase) : Option (Sys P) :=
  if s.ptable = none then some { s.goto p ph with ptable := some p, lock := none } else none

/-- The second part of `sleep`: the process is `SLEEPING` and `sched` gives up `ptable.lock`. -/
def sched (s : Sys P) (p : P) (ph : Phase) : Sys P := { s.goto p ph with ptable := none }

/-- `p->data[p->nwrite++ % PIPESIZE] = addr[i]` -/
def store (s : Sys P) (p : P) (w : WriteArgs) (i : ℕ) : Sys P :=
  { s.goto p (.writeLoop w (i + 1)) with
    pipe := s.pipe.put (w.addr i), stored := s.stored ++ [(w.id, w.addr i)] }

/-- `addr[i] = p->data[p->nread++ % PIPESIZE]` -/
def copy (s : Sys P) (p : P) (n : ℤ) (got : List UInt8) : Sys P :=
  { s.goto p (.readCopy n (got ++ [s.pipe.next])) with
    pipe := s.pipe.drop, delivered := s.delivered ++ [s.pipe.next] }

/-- The tests in the two loops of `pipewrite` and the assignment. -/
def writeLoop (s : Sys P) (p : P) (w : WriteArgs) (i : ℕ) : Option (Sys P) :=
  if (i : ℤ) < w.n then
    if s.pipe.full then
      if s.pipe.readopen = false ∨ s.killed p then none else some (s.goto p (.writeFull w i))
    else some (s.store p w i)
  else some (s.goto p (.writeWake w))

/-- The tests in the first loop of `piperead`. -/
def readLoop (s : Sys P) (p : P) (n : ℤ) : Option (Sys P) :=
  if s.pipe.empty ∧ s.pipe.writeopen then
    if s.killed p then none else some (s.goto p (.readSleep n))
  else some (s.goto p (.readCopy n []))

/-- The second loop of `piperead`. -/
def readCopy (s : Sys P) (p : P) (n : ℤ) (got : List UInt8) : Sys P :=
  if (got.length : ℤ) < n then
    if s.pipe.empty then s.goto p (.readWake n got) else s.copy p n got
  else s.goto p (.readWake n got)

/-- The next step of process `p` inside its call; the returns are apart. -/
def run (s : Sys P) (p : P) : Option (Sys P) :=
  match s.phase p with
  | .writeAcquire w i => s.acquire p (.writeLoop w i)
  | .writeLoop w i => s.writeLoop p w i
  | .writeFull w i => s.wakeup p .wakeNread (.writeSleep w i)
  | .writeSleep w i => s.sleep p (.writeDoze w i)
  | .writeDoze w i => some (s.sched p (.writeAsleep w i))
  | .writeWake w => s.wakeup p .wakeNread (.writeDone w)
  | .readAcquire n => s.acquire p (.readLoop n)
  | .readLoop n => s.readLoop p n
  | .readSleep n => s.sleep p (.readDoze n)
  | .readDoze n => some (s.sched p (.readAsleep n))
  | .readCopy n got => some (s.readCopy p n got)
  | .readWake n got => s.wakeup p .wakeNwrite (.readDone n got)
  | .closeAcquire b => s.acquire p (.closeShut b)
  | .closeShut b => some { s.goto p (.closeWake b) with pipe := s.pipe.shut b }
  | .closeWake true => s.wakeup p .wakeNread .closeDone
  | .closeWake false => s.wakeup p .wakeNwrite .closeDone
  | .idle | .writeAsleep .. | .writeDone .. | .readAsleep .. | .readDone .. | .closeDone => none

/-- The value that the call of `p` is about to return, if any (`pipeclose` returns nothing: 0). -/
def result (s : Sys P) (p : P) : Option ℤ :=
  match s.phase p with
  | .writeLoop w i =>
    if (i : ℤ) < w.n ∧ s.pipe.full ∧ (s.pipe.readopen = false ∨ s.killed p) then some (-1) else none
  | .writeDone w => some w.n
  | .readLoop _ => if s.pipe.empty ∧ s.pipe.writeopen ∧ s.killed p then some (-1) else none
  | .readDone _ got => some got.length
  | .closeDone => some 0
  | _ => none

/-- `release(&p->lock)` and return; the last `pipeclose` frees the pipe. -/
def release (s : Sys P) (p : P) : Sys P :=
  { s.goto p .idle with
    lock := none
    freed := match s.phase p with
      | .closeDone => !s.pipe.readopen && !s.pipe.writeopen
      | _ => s.freed }

/-- The phase in which a call starts. -/
def start (s : Sys P) : Call → Phase
  | .write addr n => .writeAcquire ⟨s.calls, addr, n⟩ 0
  | .read n => .readAcquire n
  | .close writable => .closeAcquire writable

/-- `kill` sets the flag and wakes the process. -/
def kill (s : Sys P) (p : P) : Sys P :=
  { s.goto p (s.phase p).wakeNread.wakeNwrite with killed := upd s.killed p true }

/-- The step function. -/
def step (s : Sys P) : Label P → Option (Sys P)
  | .call p c =>
    match s.phase p with
    | .idle => some { s.goto p (s.start c) with calls := s.calls + 1 }
    | _ => none
  | .run p => s.run p
  | .ret p v => if s.result p = some v then some (s.release p) else none
  | .kill p => if s.ptable = none then some (s.kill p) else none

end Sys

/-- The system of all interleavings. -/
def sys (P : Type*) [DecidableEq P] : LTS (Sys P) (Label P) := .ofFun Sys.step

end Pipe

end Xv6
