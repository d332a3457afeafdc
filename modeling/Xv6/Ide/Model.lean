import Mathlib.Data.Fintype.Card
import Xv6.LTS.Basic
import Xv6.Param
import Xv6.Prog.Update

/-!
# The disk driver

`iderw` of `ide.c` puts a buffer at the end of a queue, which is linked through `qnext`, and sleeps
until the transfer is over; `ideintr` completes the transfer of the head of the queue and starts the
next one.

`idelock` is held from `acquire` to `sleep` or `release`, so what is done in between is one step
here: `enter` is `iderw` from `acquire(&idelock)` to the first `sleep`, `resume` is one more test of
its loop, `intr` is `ideintr`.  The checks of `iderw` come before the lock (`call`).  Between the
steps of a call, processes may be killed, take and release the locks of other buffers and change
their contents.

The device raises one interrupt for each `idestart`; `State.irq` is the number of those to come.
-/

namespace Xv6

namespace Ide

/-- `SECTOR_SIZE` -/
abbrev sectorSize : ℕ := 512

/-- A `struct buf` but for `qnext`. -/
structure Buf (D : Type) where
  dev : ℕ
  blockno : ℕ
  /-- `B_VALID` -/
  valid : Bool
  /-- `B_DIRTY` -/
  dirty : Bool
  data : D

/-- `(b->flags & (B_VALID|B_DIRTY)) == B_VALID` -/
def Buf.synced {D : Type} (x : Buf D) : Bool := x.valid && !x.dirty

/-- What `idestart` writes to the ports. -/
structure Command (D : Type) where
  sectors : ℕ
  low : ℕ
  mid : ℕ
  high : ℕ
  drive : ℕ
  cmd : ℕ
  /-- The data that follows a write command. -/
  data : Option D

/-- A transfer: its buffer and its direction. -/
structure Request (B : Type) where
  buf : B
  write : Bool
  deriving DecidableEq

/-- Where a process is in `iderw(b)`.  `d` is whether `B_DIRTY` was set when it was called, `i` is
the number of requests before its own. -/
inductive Phase (B : Type)
  | idle
  /-- After the checks, before `acquire(&idelock)`. -/
  | called (b : B) (d : Bool)
  /-- In `sleep(b, &idelock)`. -/
  | asleep (b : B) (i : ℕ) (d : Bool)
  /-- Woken up, before `idelock` is acquired again. -/
  | ready (b : B) (i : ℕ) (d : Bool)
  deriving DecidableEq

/-- The state of the driver, the device and the processes; the last three fields are a record of
what has been done. -/
structure State (P B D : Type) where
  buf : B → Buf D
  qnext : B → Option B
  idequeue : Option B
  havedisk1 : Bool
  /-- The interrupts to come. -/
  irq : ℕ
  /-- The holders of the locks of the buffers. -/
  owner : B → Option P
  phase : P → Phase B
  /-- The calls of `iderw` in the order in which they have got to the queue. -/
  appended : List (Request B)
  started : List (B × Command D)
  /-- The transfers that `ideintr` has completed. -/
  completed : List (Request B)

/-- Steps. -/
inductive Label (P B D : Type)
  /-- `acquiresleep(&b->lock)` -/
  | lock (p : P) (b : B)
  /-- `releasesleep(&b->lock)` -/
  | unlock (p : P) (b : B)
  /-- The holder of the lock, or `bget` if there is none, changes a buffer that is not being
  transferred. -/
  | touch (b : B) (x : Buf D)
  /-- The checks of `iderw(b)`. -/
  | call (p : P) (b : B)
  | enter (p : P)
  /-- `ideintr`; `ok` is whether `idewait(1)` succeeds, and `data` what is then read from the
  port. -/
  | intr (ok : Bool) (data : D)
  /-- A process is woken up by `kill`. -/
  | kill (p : P)
  | resume (p : P)

variable {P B D : Type}

/-- `wakeup(b)`, for one process. -/
def Phase.wake [DecidableEq B] (b : B) : Phase B → Phase B
  | .asleep c i d => if c = b then .ready c i d else .asleep c i d
  | ph => ph

namespace State

variable [DecidableEq P] [DecidableEq B] (s : State P B D)

/-- The command for a buffer; there is one sector in a block. -/
def command (x : Buf D) : Command D :=
  let sectorPerBlock := bsize / sectorSize
  let sector := x.blockno * sectorPerBlock
  let readCmd := if sectorPerBlock = 1 then 0x20 else 0xc4
  let writeCmd := if sectorPerBlock = 1 then 0x30 else 0xc5
  { sectors := sectorPerBlock
    low := sector &&& 0xff
    mid := sector >>> 8 &&& 0xff
    high := sector >>> 16 &&& 0xff
    drive := 0xe0 ||| (x.dev &&& 1) <<< 4 ||| (sector >>> 24 &&& 0x0f)
    cmd := if x.dirty then writeCmd else readCmd
    data := if x.dirty then some x.data else none }

/-- `idestart`; an error is a panic. -/
def idestart : Option B → Except String (State P B D)
  | none => .error "idestart"
  | some b =>
    if fssize ≤ (s.buf b).blockno then .error "incorrect blockno"
    else if 7 < bsize / sectorSize then .error "idestart"
    else .ok { s with irq := s.irq + 1, started := s.started ++ [(b, command (s.buf b))] }

/-- `*pp`, where `pp` is `&idequeue` (`none`) or `&c->qnext`. -/
def cell : Option B → Option B
  | none => s.idequeue
  | some c => s.qnext c

/-- `*pp = b` -/
def setCell (b : B) : Option B → State P B D
  | none => { s with idequeue := some b }
  | some c => { s with qnext := upd s.qnext c (some b) }

/-- The loop that moves `pp` to the end of the queue. -/
def tail : ℕ → Option B → Option (Option B)
  | 0, _ => none
  | n + 1, pp =>
    match s.cell pp with
    | none => some pp
    | some c => tail n (some c)

/-- The test of the loop in which `iderw` sleeps. -/
def wait (p : P) (b : B) (i : ℕ) (d : Bool) : State P B D :=
  { s with phase := upd s.phase p (if (s.buf b).synced then .idle else .asleep b i d) }

/-- The checks of `iderw`. -/
def call (p : P) (b : B) : Except String (State P B D) :=
  if s.owner b ≠ some p then .error "iderw: buf not locked"
  else if (s.buf b).synced then .error "iderw: nothing to do"
  else if (s.buf b).dev ≠ 0 ∧ s.havedisk1 = false then .error "iderw: ide disk 1 not present"
  else .ok { s with phase := upd s.phase p (.called b (s.buf b).dirty) }

/-- `b->qnext = 0` and `*pp = b`, for a call with the flag `d`. -/
def link (b : B) (d : Bool) (pp : Option B) : State P B D :=
  { { s with qnext := upd s.qnext b none }.setCell b pp with appended := s.appended ++ [⟨b, d⟩] }

/-- `iderw` up to the first `sleep`. -/
def enter [Fintype B] (p : P) (b : B) (d : Bool) : Option (Except String (State P B D)) :=
  (tail { s with qnext := upd s.qnext b none } (Fintype.card B + 1) none).map fun pp =>
    let s₁ := s.link b d pp
    (if s₁.idequeue = some b then s₁.idestart (some b) else .ok s₁).map fun s₂ =>
      s₂.wait p b s.appended.length d

/-- What `ideintr` does with the head of the queue before it starts the next transfer. -/
def complete (b : B) (ok : Bool) (data : D) : State P B D :=
  let x := s.buf b
  { s with
    idequeue := s.qnext b
    buf := upd s.buf b { x with
      data := if !x.dirty && ok then data else x.data, valid := true, dirty := false }
    completed := s.completed ++ [⟨b, x.dirty⟩]
    phase := fun p => (s.phase p).wake b }

/-- `ideintr` -/
def ideintr (ok : Bool) (data : D) : Except String (State P B D) :=
  match s.idequeue with
  | none => .ok s
  | some b =>
    let s₁ := s.complete b ok data
    if s₁.idequeue = none then .ok s₁ else s₁.idestart s₁.idequeue

/-- One step; an error is a panic. -/
def step [Fintype B] : Label P B D → Option (Except String (State P B D))
  | .lock p b =>
    if s.phase p = .idle ∧
      s.owner b = none then some (.ok { s with owner := upd s.owner b (some p) }) else none
  | .unlock p b =>
    if s.phase p = .idle ∧
      s.owner b = some p then some (.ok { s with owner := upd s.owner b none }) else none
  | .touch b x =>
    if ∀ p ∈ s.owner b, s.phase p = .idle then some (.ok { s with buf := upd s.buf b x }) else none
  | .call p b => if s.phase p = .idle then some (s.call p b) else none
  | .enter p =>
    match s.phase p with
    | .called b d => s.enter p b d
    | _ => none
  | .intr ok data => if s.irq = 0 then none else some ({ s with irq := s.irq - 1 }.ideintr ok data)
  | .kill p =>
    match s.phase p with
    | .asleep b i d => some (.ok { s with phase := upd s.phase p (.ready b i d) })
    | _ => none
  | .resume p =>
    match s.phase p with
    | .ready b i d => some (.ok (s.wait p b i d))
    | _ => none

end State

/-- The driver and its callers, until a panic. -/
def system (P B D : Type) [DecidableEq P] [DecidableEq B] [Fintype B] :
    LTS (State P B D) (Label P B D) :=
  .ofFun fun s l => (s.step l).bind Except.toOption

/-- No process is in a call and no transfer is under way. -/
structure Initial (s : State P B D) : Prop where
  idequeue : s.idequeue = none
  irq : s.irq = 0
  owner : ∀ b, s.owner b = none
  phase : ∀ p, s.phase p = .idle
  appended : s.appended = []
  started : s.started = []
  completed : s.completed = []

end Ide

end Xv6
