import Xv6.Fs.Layout
import Xv6.Log.Protocol
import Xv6.Prog.Wp

/-!
# Blocks and inode contents

The part of `fs.c` that works on the disk through the buffer cache and the log: the block
allocator (`balloc`, `bfree`), writing an inode back (`iupdate`), the block addresses of an inode
(`bmap`, `itrunc`) and its contents (`readi`, `writei`).

* `Store.disk` is what `bread` returns: the buffer cache on top of the disk.
* A buffer is modified and then passed to `log_write`; `logWrite b f` is both steps.
* Functions on an inode are called with the inode locked.  They take the in-memory copy and return
  it; writing it back to its slot of the cache is left to the caller.
-/

namespace Xv6

/-- The panics of `fs.c`, `file.c`, `sysfile.c` and of `log_write`. -/
inductive Panic
  /-- `too big a transaction` -/
  | tooBig
  /-- `log_write outside of trans` -/
  | outside
  /-- `balloc: out of blocks` -/
  | outOfBlocks
  /-- `freeing free block` -/
  | freeingFree
  /-- `ialloc: no inodes` -/
  | noInodes
  /-- `iget: no inodes` -/
  | igetNoInodes
  /-- `ilock` -/
  | ilock
  /-- `ilock: no type` -/
  | noType
  /-- `iunlock` -/
  | iunlock
  /-- `bmap: out of range` -/
  | bmapRange
  /-- `dirlookup not DIR` -/
  | notDir
  /-- `dirlookup read` -/
  | dirlookupRead
  /-- `dirlink read` -/
  | dirlinkRead
  /-- `dirlink` -/
  | dirlink
  /-- `isdirempty: readi` -/
  | isdiremptyRead
  /-- `unlink: nlink < 1` -/
  | unlinkNlink
  /-- `unlink: writei` -/
  | unlinkWrite
  /-- `create dots` -/
  | createDots
  /-- `create: dirlink` -/
  | createDirlink
  /-- `filedup` -/
  | filedup
  /-- `fileclose` -/
  | fileclose
  /-- `fileread` -/
  | fileread
  /-- `filewrite` -/
  | filewrite
  /-- `short filewrite` -/
  | shortFilewrite
  /-- `init exiting` -/
  | initExiting
  deriving DecidableEq

/-- The disk as the file system sees it, and the current transaction. -/
structure Store where
  /-- The in-memory copy of the super block. -/
  sb : Superblock
  /-- The contents of the blocks, as `bread` returns them. -/
  disk : Disk
  /-- `log.size` -/
  logsize : ℕ
  /-- `log.outstanding` -/
  outstanding : ℕ
  /-- The blocks named by `log.lh`. -/
  lh : List ℕ
  /-- `devsw[major].read`: the number of bytes read, at most `n`, and the bytes. -/
  devread : ℕ → Option (ℕ → Option (ℕ × Bytes))
  /-- `devsw[major].write`: the number of bytes written. -/
  devwrite : ℕ → Option (ℕ → Option ℕ)

/-- Actions on the store. -/
abbrev StoreM := EStateM Panic Store

/-- The in-memory copy of an inode: `struct inode` from `type` on, and its number. -/
structure Inode extends Dinode where
  inum : ℕ

/-- Set `ip->addrs[j]`. -/
def Inode.setAddr (ip : Inode) (j b : ℕ) : Inode := { ip with addrs := upd ip.addrs j b }

namespace Store

/-- Read a block. -/
def bread (b : ℕ) : StoreM Block := do
  return (← get).disk b

/-- Change the buffer of block `b` by `f` and `log_write` it. -/
def logWrite (b : ℕ) (f : Block → Block) : StoreM Unit := do
  let st ← get
  if logSize ≤ st.lh.length ∨ st.logsize - 1 ≤ st.lh.length then throw .tooBig
  else if st.outstanding < 1 then throw .outside
  else
    modify fun st =>
      { st with disk := upd st.disk b (f (st.disk b)), lh := Log.Proto.absorb st.lh b }

/-- Read the super block into `sb`. -/
def readsb : StoreM Unit :=
  modify fun st => { st with sb := .get (st.disk 1) }

/-- Zero a block. -/
def bzero (b : ℕ) : StoreM Unit := logWrite b fun _ => Bytes.zero

/-- The free-map bit of block `b`. -/
def bit (st : Store) (b : ℕ) : Bool := (st.disk (st.sb.bblock b)).bit (b % bpb)

/-- Allocate a zeroed block: the first one whose bit is clear.  (`bblock` is constant over the
`bpb` bits of one block of the map, so the two loops of the source are one.) -/
def balloc : StoreM ℕ := do
  let st ← get
  match (List.range st.sb.size).find? fun b => !st.bit b with
  | none => throw .outOfBlocks
  | some b =>
    logWrite (st.sb.bblock b) fun d => d.setBit (b % bpb)
    bzero b
    return b

/-- Free a block. -/
def bfree (b : ℕ) : StoreM Unit := do
  readsb
  let st ← get
  if st.bit b then logWrite (st.sb.bblock b) fun d => d.clearBit (b % bpb)
  else throw .freeingFree

/-- The inode with number `i` on the disk. -/
def dinode (st : Store) (i : ℕ) : Dinode :=
  .get (st.disk (st.sb.iblock i)) (dinodeSize * (i % ipb))

/-- Copy a modified in-memory inode to the disk. -/
def iupdate (ip : Inode) : StoreM Unit := do
  let st ← get
  logWrite (st.sb.iblock ip.inum) fun d => ip.put d (dinodeSize * (ip.inum % ipb))

/-- The address in `ip->addrs[j]`, allocating a block if there is none. -/
def addr (ip : Inode) (j : ℕ) : StoreM (ℕ × Inode) := do
  if ip.addrs j = 0 then
    let b ← balloc
    return (b, ip.setAddr j b)
  else return (ip.addrs j, ip)

/-- The block address of the `bn`th block of an inode, allocating it if there is none. -/
def bmap (ip : Inode) (bn : ℕ) : StoreM (ℕ × Inode) := do
  if bn < ndirect then addr ip bn
  else if bn - ndirect < nindirect then
    -- Load the indirect block, allocating if necessary.
    let (ind, ip) ← addr ip ndirect
    let a := (← bread ind).entry (bn - ndirect)
    if a = 0 then
      let b ← balloc
      logWrite ind fun d => d.setEntry (bn - ndirect) b
      return (b, ip)
    else return (a, ip)
  else throw .bmapRange

/-- The loop of `itrunc` over the first `n` direct addresses. -/
def truncDirect (ip : Inode) : ℕ → StoreM Inode
  | 0 => return ip
  | n + 1 => do
    let ip ← truncDirect ip n
    if ip.addrs n = 0 then return ip
    else
      bfree (ip.addrs n)
      return ip.setAddr n 0

/-- The loop of `itrunc` over the first `n` entries of the indirect block `ind`. -/
def truncIndirect (ind : ℕ) : ℕ → StoreM Unit
  | 0 => return
  | n + 1 => do
    truncIndirect ind n
    let a := (← bread ind).entry n
    if a = 0 then return
    else bfree a

/-- The part of `itrunc` that frees the indirect block and the blocks it names. -/
def truncTail (ip : Inode) : StoreM Inode := do
  if ip.addrs ndirect = 0 then return ip
  else
    truncIndirect (ip.addrs ndirect) nindirect
    bfree (ip.addrs ndirect)
    return ip.setAddr ndirect 0

/-- Discard the contents of an inode. -/
def itrunc (ip : Inode) : StoreM Inode := do
  let ip ← truncDirect ip ndirect
  let ip ← truncTail ip
  let ip := { ip with size := 0 }
  iupdate ip
  return ip

/-- The loop of `readi`: read `n` more bytes at `off` into `dst` at `tot`.  Every round reads at
least a byte. -/
def readLoop : ℕ → Inode → Bytes → ℕ → ℕ → ℕ → StoreM (Bytes × Inode)
  | 0, ip, dst, _, _, _ => return (dst, ip)
  | fuel + 1, ip, dst, tot, off, n => do
    if n ≤ tot then return (dst, ip)
    else
      let (b, ip) ← bmap ip (off / bsize)
      let d ← bread b
      let m := min (n - tot) (bsize - off % bsize)
      readLoop fuel ip (dst.copy tot m (d.drop (off % bsize))) (tot + m) (off + m) n

/-- Read `n` bytes at `off`: the number of bytes and the bytes, or `none` for `-1`. -/
def readi (ip : Inode) (off n : ℕ) : StoreM (Option (ℕ × Bytes) × Inode) := do
  if ip.type = tDev then
    if ndev ≤ ip.major then return (none, ip)
    else match (← get).devread ip.major with
      | none => return (none, ip)
      | some read => return (read n, ip)
  else if ip.size < off ∨ (off + n) % 2 ^ 32 < off then return (none, ip)
  else
    let n := if ip.size < off + n then ip.size - off else n
    let (dst, ip) ← readLoop n ip Bytes.zero 0 off n
    return (some (n, dst), ip)

/-- The loop of `writei`: write the bytes of `src` from `tot` to `n` at `off`; returns the offset
after the last one. -/
def writeLoop : ℕ → Inode → Bytes → ℕ → ℕ → ℕ → StoreM (ℕ × Inode)
  | 0, ip, _, _, off, _ => return (off, ip)
  | fuel + 1, ip, src, tot, off, n => do
    if n ≤ tot then return (off, ip)
    else
      let (b, ip) ← bmap ip (off / bsize)
      let m := min (n - tot) (bsize - off % bsize)
      logWrite b fun d => d.copy (off % bsize) m (src.drop tot)
      writeLoop fuel ip src (tot + m) (off + m) n

/-- Write the first `n` bytes of `src` at `off`: the number of bytes, or `none` for `-1`. -/
def writei (ip : Inode) (src : Bytes) (off n : ℕ) : StoreM (Option ℕ × Inode) := do
  if ip.type = tDev then
    if ndev ≤ ip.major then return (none, ip)
    else match (← get).devwrite ip.major with
      | none => return (none, ip)
      | some write => return (write n, ip)
  else if ip.size < off ∨ (off + n) % 2 ^ 32 < off then return (none, ip)
  else if maxfile * bsize < off + n then return (none, ip)
  else
    let (off, ip) ← writeLoop n ip src 0 off n
    if 0 < n ∧ ip.size < off then
      let ip := { ip with size := off }
      iupdate ip
      return (some n, ip)
    else return (some n, ip)

end Store

end Xv6
