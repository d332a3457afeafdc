import Mathlib.Data.Multiset.AddSub
import Xv6.Dll.Basic
import Xv6.LTS.Basic
import Xv6.Log.Commit

/-!
# The buffer cache

`bio.c` keeps copies of disk blocks in `NBUF` buffers, linked in a list.  `Cache` is the static data
of `bio.c`; `Bio.State` adds the locks of the buffers, the disks, and where the processes are in
`bread` and `brelse`.  The system `Bio.system` interleaves what the functions do in one go:

* the part of `bget` under `bcache.lock` (`get`), and the rest of `bread`, which waits for the lock
  of the buffer and reads the block if necessary (`bread`);
* changes to the data by the process that holds the lock (`modify`), `bwrite` and `log_write`;
* `brelse` up to `releasesleep` (`brelse`), and its part under `bcache.lock` (`drop`).

A process stores what it has changed before it releases the buffer.  The driver has two disks, and
takes the lowest bit of the device number.  Requests that panic or that wait are no steps.

Two fields of the state are history, which no function reads: `stored` is what was last stored for
every block, `released` lists the buffers that nobody used any more.
-/

namespace Xv6

/-- `NBUF` -/
abbrev nbuf : ℕ := maxOpBlocks * 3

namespace Bio

/-- `struct buf`, without its lock and the list. -/
structure Buf where
  dev : ℕ
  blockno : ℕ
  /-- `B_VALID` -/
  valid : Bool
  /-- `B_DIRTY` -/
  dirty : Bool
  refcnt : ℕ
  data : Block

/-- `bcache`; in the list, `none` is `bcache.head`. -/
structure Cache where
  buf : ℕ → Buf
  next : Dll.Ptr ℕ
  prev : Dll.Ptr ℕ

/-- The disks. -/
abbrev Disks := ℕ → Disk

namespace Cache

/-- Change buffer `i`. -/
def setBuf (c : Cache) (i : ℕ) (b : Buf) : Cache := { c with buf := upd c.buf i b }

/-- The round of `binit` for buffer `i`. -/
def insert (c : Cache) (i : ℕ) : Cache :=
  let q := Dll.insertHead c.next c.prev i
  { c with next := q.1, prev := q.2 }

/-- `binit` -/
def binit : Cache :=
  (List.range nbuf).foldl insert ⟨fun _ => ⟨0, 0, false, false, 0, Bytes.zero⟩, fun _ => none,
      fun _ => none⟩

/-- The part of `bget` under `bcache.lock`: the buffer for a block; `none` is the panic
`bget: no buffers`. -/
def bget (c : Cache) (dev blockno : ℕ) : Option (ℕ × Cache) :=
  match Dll.walk c.next (fun i => (c.buf i).dev = dev ∧ (c.buf i).blockno = blockno) (nbuf + 1)
    (c.next none) with
  | some i => some (i, c.setBuf i { c.buf i with refcnt := (c.buf i).refcnt + 1 })
  | none =>
    -- Not cached; recycle an unused buffer.
    match Dll.walk c.prev (fun i => (c.buf i).refcnt = 0 ∧ (c.buf i).dirty = false) (nbuf + 1)
      (c.prev none) with
    | some i =>
      some (i, c.setBuf i
        { c.buf i with
          dev := dev, blockno := blockno, valid := false, dirty := false, refcnt := 1 })
    | none => none

/-- The part of `brelse` under `bcache.lock`. -/
def drop (c : Cache) (i : ℕ) : Cache :=
  let c := c.setBuf i { c.buf i with refcnt := (c.buf i).refcnt - 1 }
  if (c.buf i).refcnt = 0 then
    let q := Dll.unlink c.next c.prev i
    let q := Dll.insertHead q.1 q.2 i
    { c with next := q.1, prev := q.2 }
  else c

/-- `iderw`: write the buffer if it is dirty, else read it; `none` is a panic. -/
def iderw (c : Cache) (disk : Disks) (i : ℕ) : Option (Cache × Disks) :=
  let b := c.buf i
  if b.valid ∧ b.dirty = false then none
  else if fssize ≤ b.blockno then none
  else if b.dirty then
    some (c.setBuf i { b with valid := true, dirty := false },
      upd disk (b.dev % 2) (upd (disk (b.dev % 2)) b.blockno b.data))
  else some (c.setBuf i { b with valid := true, data := disk (b.dev % 2) b.blockno }, disk)

/-- The end of `bread`, once the lock is held. -/
def fill (c : Cache) (disk : Disks) (i : ℕ) : Option (Cache × Disks) :=
  if (c.buf i).valid then some (c, disk) else c.iderw disk i

/-- `bwrite` -/
def bwrite (c : Cache) (disk : Disks) (i : ℕ) : Option (Cache × Disks) :=
  (c.setBuf i { c.buf i with dirty := true }).iderw disk i

/-- What `log_write` does to the buffer. -/
def logWrite (c : Cache) (i : ℕ) : Cache := c.setBuf i { c.buf i with dirty := true }

end Cache

/-- The cache, the disks and the processes `P`. -/
structure State (P : Type) where
  cache : Cache
  disk : Disks
  /-- The holders of the locks of the buffers. -/
  lock : ℕ → Option P
  /-- The processes in `bread(dev, blockno)` that `bget` has given buffer `i`, waiting for its
  lock. -/
  wait : ℕ → Multiset (P × ℕ × ℕ)
  /-- The processes in `brelse` that have given up the lock of buffer `i`. -/
  leave : ℕ → Multiset P
  /-- The data were changed and not stored yet. -/
  edited : ℕ → Bool
  stored : Disks
  released : List ℕ

/-- What happens. -/
inductive Event (P : Type)
  | get (p : P) (dev blockno : ℕ)
  /-- `bread(dev, blockno)` returns buffer `i`. -/
  | bread (p : P) (dev blockno i : ℕ)
  | modify (p : P) (i : ℕ) (data : Block)
  | bwrite (p : P) (i : ℕ)
  | logWrite (p : P) (i : ℕ)
  | brelse (p : P) (i : ℕ)
  | drop (p : P) (i : ℕ)

namespace State

variable {P : Type} [DecidableEq P]

/-- The state after `binit`. -/
def init (disk : Disks) : State P where
  cache := .binit
  disk := disk
  lock _ := none
  wait _ := 0
  leave _ := 0
  edited _ := false
  stored dev := disk (dev % 2)
  released := []

/-- The data of buffer `i` are stored for its block. -/
def store (s : State P) (i : ℕ) : State P :=
  let b := s.cache.buf i
  { s with
    stored := upd s.stored b.dev (upd (s.stored b.dev) b.blockno b.data)
    edited := upd s.edited i false }

/-- One event. -/
def step (s : State P) : Event P → Option (State P)
  | .get p dev blockno =>
    (s.cache.bget dev blockno).map fun (i, c) =>
      { s with cache := c, wait := upd s.wait i ((p, dev, blockno) ::ₘ s.wait i) }
  | .bread p dev blockno i =>
    if (p, dev, blockno) ∈ s.wait i ∧ s.lock i = none then
      (s.cache.fill s.disk i).map fun (c, disk) =>
        { s with
          cache := c, disk := disk, lock := upd s.lock i (some p)
          wait := upd s.wait i ((s.wait i).erase (p, dev, blockno)) }
    else none
  | .modify p i data =>
    if s.lock i = some p then
      some { s with
        cache := s.cache.setBuf i { s.cache.buf i with data := data }, edited :=
          upd s.edited i true }
    else none
  | .bwrite p i =>
    if s.lock i = some p then
      (s.cache.bwrite s.disk i).map fun (c, disk) => { s.store i with cache := c, disk := disk }
    else none
  | .logWrite p i =>
    if s.lock i = some p then some { s.store i with cache := s.cache.logWrite i } else none
  | .brelse p i =>
    if s.lock i = some p ∧ s.edited i = false then
      some { s with lock := upd s.lock i none, leave := upd s.leave i (p ::ₘ s.leave i) }
    else none
  | .drop p i =>
    if p ∈ s.leave i then
      some { s with
        cache := s.cache.drop i
        leave := upd s.leave i ((s.leave i).erase p)
        released := if (s.cache.buf i).refcnt = 1 then i :: s.released else s.released }
    else none

end State

/-- The buffer cache and its users. -/
def system (P : Type) [DecidableEq P] : LTS (State P) (Event P) := .ofFun State.step

/-- The device of a request is one of the two disks. -/
def Event.Real {P : Type} : Event P → Prop
  | .get _ dev _ => dev < 2
  | _ => True

end Bio

end Xv6
