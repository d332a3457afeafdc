import Xv6.Fs.Store
import Xv6.Pipe.Protocol
import Xv6.Prog.Basic

/-!
# The inode cache

The state of the file system in memory (`Fs`), transactions (`beginOp`, `endOp`) and the functions
of `fs.c` on slots of the inode cache: `iget`, `idup`, `ialloc`, `ilock`, `iunlock`, `iput`.

Functions that take or release the lock of an inode are programs (`FsP`), with the slots of the
cache as locks; everything that happens between two lock operations is an action (`FsM`).  There is
one device, so the `dev` fields are left out.

Two fields of the state are history: no function reads them.  `Fs.txns` lists the transactions that
were committed, `Fs.found` the inodes found by `dirlookup`.
-/

namespace Xv6

/-- A slot of the inode cache. -/
structure Slot where
  ref : ℕ
  valid : Bool
  ip : Inode

/-- `enum { FD_NONE, FD_PIPE, FD_INODE }` -/
inductive FdType
  | none
  | pipe
  | inode
  deriving DecidableEq

/-- `struct file` -/
structure File where
  type : FdType
  ref : ℕ
  readable : Bool
  writable : Bool
  /-- The page of a pipe. -/
  pipe : ℕ
  /-- A slot of the inode cache. -/
  ip : ℕ
  off : ℕ

/-- What a process has of the file system. -/
structure Proc where
  /-- The current directory, a slot of the inode cache. -/
  cwd : Option ℕ
  /-- The open files, by descriptor. -/
  ofile : ℕ → Option ℕ

/-- The state of the file system. -/
structure Fs where
  store : Store
  icache : ℕ → Slot
  ftable : ℕ → File
  /-- The pipes, by page; there is none on a free page. -/
  pipe : ℕ → Option Pipe
  proc : ℕ → Option Proc
  /-- The blocks of each committed transaction. -/
  txns : List (List ℕ)
  /-- The inode numbers `dirlookup` has found, each with its type on the disk at that time. -/
  found : List (ℕ × ℕ)

/-- Actions on the file system. -/
abbrev FsM := EStateM Panic Fs

/-- Programs with inode locks. -/
abbrev FsP := Prog ℕ Fs Panic

namespace Fs

/-- The inode with number `i` on the disk. -/
def dinode (s : Fs) (i : ℕ) : Dinode := s.store.dinode i

/-- The current directory of process `p`. -/
def cwd (s : Fs) (p : ℕ) : ℕ := ((s.proc p).bind Proc.cwd).getD 0

/-- The in-memory copy of the inode in slot `i`. -/
def inode (s : Fs) (i : ℕ) : Inode := (s.icache i).ip

/-- Change slot `i`. -/
def setSlot (s : Fs) (i : ℕ) (x : Slot) : Fs := { s with icache := upd s.icache i x }

/-- Run an action on the store. -/
def onStore {α : Type} (f : StoreM α) : FsM α := fun s =>
  match f s.store with
  | .ok a st => .ok a { s with store := st }
  | .error e st => .error e { s with store := st }

/-- Run a function on the in-memory copy of the inode in slot `i`. -/
def onInode {α : Type} (i : ℕ) (f : Inode → StoreM (α × Inode)) : FsM α := do
  let s ← get
  let (a, ip) ← onStore (f (s.inode i))
  modify fun s => s.setSlot i { s.icache i with ip := ip }
  return a

/-- Change the in-memory copy of the inode in slot `i` and write it to the disk. -/
def update (i : ℕ) (f : Inode → Inode) : FsM Unit :=
  onInode i fun ip => do
    Store.iupdate (f ip)
    return ((), f ip)

/-- Start an operation, once it is certain that its blocks fit the log. -/
def beginOp : FsP Unit :=
  .await fun s =>
    if logSize < s.store.lh.length + (s.store.outstanding + 1) * maxOpBlocks then none
    else some { s with store := { s.store with outstanding := s.store.outstanding + 1 } }

/-- End an operation; the last one commits. -/
def endOp : FsM Unit :=
  modify fun s =>
    if s.store.outstanding - 1 = 0 then
      { s with store := { s.store with
          outstanding := 0, lh := [] }, txns := s.txns ++ [s.store.lh] }
    else { s with store := { s.store with outstanding := s.store.outstanding - 1 } }

/-- A slot for the inode with number `inum`. -/
def iget (inum : ℕ) : FsM ℕ := do
  let s ← get
  match (List.range ninode).find? fun i => 0 < (s.icache i).ref ∧ (s.inode i).inum = inum with
  | some i =>
    modify fun s => s.setSlot i { s.icache i with ref := (s.icache i).ref + 1 }
    return i
  | none =>
    -- Recycle the first empty slot.
    match (List.range ninode).find? fun i => (s.icache i).ref = 0 with
    | none => throw .igetNoInodes
    | some i =>
      modify fun s => s.setSlot i ⟨1, false, { s.inode i with inum := inum }⟩
      return i

/-- Count another reference to slot `i`. -/
def idup (i : ℕ) : FsM ℕ := do
  modify fun s => s.setSlot i { s.icache i with ref := (s.icache i).ref + 1 }
  return i

/-- Allocate an inode: the first one of type 0. -/
def ialloc (type : ℕ) : FsM ℕ := do
  let s ← get
  match (List.range s.store.sb.ninodes).find? fun i => 1 ≤ i ∧ (s.dinode i).type = 0 with
  | none => throw .noInodes
  | some inum =>
    onStore <| Store.logWrite (s.store.sb.iblock inum) fun d =>
      { Dinode.zero with type := type }.put d (dinodeSize * (inum % ipb))
    iget inum

/-- The part of `ilock` under the lock: read the inode unless it is there. -/
def load (i : ℕ) : FsM Unit := do
  let s ← get
  if (s.icache i).valid then return
  else
    modify fun s =>
      s.setSlot i { s.icache i with
          valid := true, ip := ⟨s.dinode (s.inode i).inum, (s.inode i).inum⟩ }
    if (s.dinode (s.inode i).inum).type = 0 then throw .noType else return

/-- Panic with `e` unless the slot is referenced. -/
def checkRef (i : ℕ) (e : Panic) : FsM Unit := do
  if ((← get).icache i).ref < 1 then throw e else return

/-- Lock an inode, reading it from the disk if necessary. -/
def ilock (i : ℕ) : FsP Unit := do
  checkRef i .ilock
  .lock i
  load i

/-- Unlock an inode. -/
def iunlock (i : ℕ) : FsP Unit := do
  if ← .holds i then
    checkRef i .iunlock
    .unlock i
  else (throw .iunlock : FsM Unit)

/-- The part of `iput` under the lock: free the inode if it has no links and this is the last
reference. -/
def ifree (i : ℕ) : FsM Unit := do
  let s ← get
  if (s.icache i).valid ∧ (s.inode i).nlink = 0 ∧ (s.icache i).ref = 1 then
    onInode i fun ip => do
      let ip ← Store.itrunc ip
      return ((), ip)
    update i fun ip => { ip with type := 0 }
    modify fun s => s.setSlot i { s.icache i with valid := false }
  else return

/-- Drop a reference to a slot, and count it. -/
def unref (i : ℕ) : FsM Unit :=
  modify fun s => s.setSlot i { s.icache i with ref := (s.icache i).ref - 1 }

/-- Drop a reference to an inode. -/
def iput (i : ℕ) : FsP Unit := do
  .lock i
  ifree i
  .unlock i
  unref i

/-- Unlock, then put. -/
def iunlockput (i : ℕ) : FsP Unit := do
  iunlock i
  iput i

end Fs

end Xv6
