import Mathlib.Data.List.Nodup
import Mathlib.Logic.Function.Basic
import Xv6.Bytes.Basic
import Xv6.Param

/-!
# The write-ahead log: commit and recovery

`log.c` keeps a physical redo log in the blocks `start, …, start + size - 1` of the disk: a header
block, which names the logged blocks, followed by their copies.  Committing a transaction is a
sequence of single-block writes (`Log.commit`), in this order:

* `write_log` copies every logged block from the cache to its slot in the log;
* `write_head` writes the header, which commits the transaction;
* `install_trans` copies every slot to the block's home location;
* `write_head` writes the header again, with `n = 0`.

`recover_from_log` (`Log.recover`) reads the header and performs the last two.

A machine `Log.St` is the disk, the buffers pinned by `B_DIRTY` and the in-memory header.  A
buffer that is not pinned holds its disk block (`iderw` clears `B_DIRTY` when it has written the
buffer), so only pinned buffers are kept.  A crash loses everything but the disk.
-/

namespace Xv6

/-- The contents of a disk block. -/
abbrev Block := Bytes

/-- The contents of a disk. -/
abbrev Disk := ℕ → Block

/-- The position of the on-disk log: `log.start` and `log.size`. -/
structure Log where
  /-- The header block. -/
  start : ℕ
  /-- The number of blocks of the log, the header included. -/
  size : ℕ

namespace Log

/-- The state of the machine as far as the log is concerned. -/
structure St where
  /-- The blocks on the disk. -/
  disk : Disk
  /-- The buffers that `log_write` has pinned in the cache. -/
  dirty : ℕ → Option Block
  /-- The block numbers in the in-memory header `log.lh`; `lh.n` is the length. -/
  lh : List ℕ

/-- The contents of block `b` as `bread` returns them. -/
def St.bread (s : St) (b : ℕ) : Block := (s.dirty b).getD (s.disk b)

/-- Write `d` to block `b`: the one way the log changes the disk. -/
def St.bwrite (s : St) (b : ℕ) (d : Block) : St :=
  { s with disk := Function.update s.disk b d, dirty := Function.update s.dirty b none }

/-- The number of blocks a header block names.  The field is a signed `int`, and every loop over
the header runs while `i < n`. -/
def headN (d : Block) : ℕ :=
  let n := Bytes.getLE 4 d 0
  if n < 2 ^ 31 then n else 0

/-- The block numbers in a header block: the loop of `read_head`. -/
def readHead (d : Block) : List ℕ :=
  (List.range (headN d)).map fun i => Bytes.getLE 4 d (4 * (i + 1))

/-- The loop of `write_head` from entry `i` on. -/
def putHead : List ℕ → ℕ → Block → Block
  | [], _, d => d
  | b :: bs, i, d => putHead bs (i + 1) (Bytes.putLE 4 d (4 * (i + 1)) b)

/-- The header block `write_head` writes over the old one `d`: entries from `n` on stay. -/
def headBlock (lh : List ℕ) (d : Block) : Block := putHead lh 0 (Bytes.putLE 4 d 0 lh.length)

variable (L : Log)

/-- One round of the loop in `write_log`. -/
def writeLog (tail : ℕ) (s : St) : St :=
  s.bwrite (L.start + tail + 1) (s.bread (s.lh.getD tail 0))

/-- `write_head`: write the in-memory header to the disk. -/
def writeHead (s : St) : St := s.bwrite L.start (headBlock s.lh (s.bread L.start))

/-- One round of the loop in `install_trans`. -/
def installTrans (tail : ℕ) (s : St) : St :=
  s.bwrite (s.lh.getD tail 0) (s.bread (L.start + tail + 1))

/-- `log.lh.n = 0; write_head();` -/
def eraseHead (s : St) : St := L.writeHead { s with lh := [] }

/-- The single-block writes of `commit` when the header names `n` blocks. -/
def commit (n : ℕ) : List (St → St) :=
  if 0 < n then
    (List.range n).map L.writeLog ++
      L.writeHead :: ((List.range n).map L.installTrans ++ [L.eraseHead])
  else []

/-- Perform a sequence of writes. -/
def perform (ws : List (St → St)) (s : St) : St := ws.foldl (fun s w => w s) s

/-- `recover_from_log` starts with an empty cache and reads the header (`read_head`). -/
def boot (d : Disk) : St := ⟨d, fun _ => none, readHead (d L.start)⟩

/-- The single-block writes of `recover_from_log` when the header names `n` blocks. -/
def recover (n : ℕ) : List (St → St) := (List.range n).map L.installTrans ++ [L.eraseHead]

/-- The disk if the power fails after `k` writes of `recover_from_log`. -/
def recoverUpTo (k : ℕ) (d : Disk) : Disk :=
  (perform ((L.recover (readHead (d L.start)).length).take k) (L.boot d)).disk

/-- `L.Recovers d d'`: starting on disk `d`, recovery, itself interrupted any number of times and
started again, eventually completes and leaves `d'`. -/
inductive Recovers : Disk → Disk → Prop
  | complete (d : Disk) : Recovers d (L.recoverUpTo ((readHead (d L.start)).length + 1) d)
  | crash (d : Disk) (k : ℕ) {d' : Disk} : Recovers (L.recoverUpTo k d) d' → Recovers d d'

/-- A transaction ready to commit: the header that `log_write` has built and the contents of the
buffers it has pinned. -/
structure Txn where
  /-- The logged block numbers. -/
  blocks : List ℕ
  /-- The cached contents of the logged blocks. -/
  cached : ℕ → Block
  nodup : blocks.Nodup
  /-- A header has `LOGSIZE` entries. -/
  length_le : blocks.length ≤ logSize
  /-- Block numbers are 32-bit numbers. -/
  lt : ∀ b ∈ blocks, b < 2 ^ 32

/-- Block `b` is not part of the log. -/
def Outside (b : ℕ) : Prop := b < L.start ∨ L.start + L.size ≤ b

/-- The transaction fits the log: next to the header there is a slot for every block, and no
logged block is a log block. -/
def Fits (t : Txn) : Prop := t.blocks.length < L.size ∧ ∀ b ∈ t.blocks, L.Outside b

/-- The machine that is about to commit `t` on disk `d`. -/
def Txn.load (t : Txn) (d : Disk) : St :=
  ⟨d, fun b => if b ∈ t.blocks then some (t.cached b) else none, t.blocks⟩

/-- The effect of a transaction on the home locations. -/
def Txn.apply (t : Txn) (d : Disk) : Disk := fun b => if b ∈ t.blocks then t.cached b else d b

/-- The disk if the power fails after `k` writes of the commit of `t`. -/
def commitUpTo (t : Txn) (k : ℕ) (d : Disk) : Disk :=
  (perform ((L.commit t.blocks.length).take k) (t.load d)).disk

/-- The commit of `t` has written the header if it has performed this many writes. -/
def Txn.committed (t : Txn) (k : ℕ) : Prop := t.blocks.length < k

instance (t : Txn) (k : ℕ) : Decidable (t.committed k) := inferInstanceAs (Decidable (_ < _))

/-- The disks agree on every block outside the log. -/
def SameHome (d d' : Disk) : Prop := ∀ b, L.Outside b → d b = d' b

/-- One life of the machine: commit a transaction, and either get to the end of it or crash after
`k` writes and recover.  The label tells which transaction it was and whether its header write
was completed. -/
inductive Life : Disk → Txn × Bool → Disk → Prop
  | finish (d : Disk) (t : Txn) : L.Fits t →
      Life d (t, true) (L.commitUpTo t (L.commit t.blocks.length).length d)
  | crash (d : Disk) (t : Txn) (k : ℕ) {d' : Disk} : L.Fits t →
      L.Recovers (L.commitUpTo t k d) d' → Life d (t, decide (t.committed k)) d'

/-- Any run of transactions and crashes. -/
inductive Run : Disk → List (Txn × Bool) → Disk → Prop
  | nil (d : Disk) : Run d [] d
  | cons {d d' d'' : Disk} {x : Txn × Bool} {xs : List (Txn × Bool)} :
      L.Life d x d' → Run d' xs d'' → Run d (x :: xs) d''

/-- The effect of the committed transactions of a run, in order. -/
def applyAll (xs : List (Txn × Bool)) (d : Disk) : Disk :=
  xs.foldl (fun d x => if x.2 then x.1.apply d else d) d

end Log

end Xv6
