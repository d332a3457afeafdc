import Xv6.Fs.Image

/-!
# Building a file system image

`mkfs.c`, a program of the host, writes the first image: the super block, the root directory and a
list of files.  The image is `State.disk`; `freeinode` and `freeblock` are the two counters of the
program.

Numbers are stored by `xshort` and `xint` in the byte order of the records of `Fs.Layout`.  A file
of the host is given by its name and by what the calls of `read` return, one piece after the other.
-/

namespace Xv6

namespace Mkfs

/-- `NINODES` -/
abbrev ninodes : ℕ := 200

/-- Blocks of the free map. -/
abbrev nbitmap : ℕ := fssize / (bsize * 8) + 1

/-- Blocks of inodes. -/
abbrev ninodeblocks : ℕ := ninodes / ipb + 1

/-- Blocks of the log. -/
abbrev nlog : ℕ := logSize

/-- Blocks before the data. -/
abbrev nmeta : ℕ := 2 + nlog + ninodeblocks + nbitmap

/-- The super block. -/
def sb : Superblock where
  size := fssize
  nblocks := fssize - nmeta
  ninodes := ninodes
  nlog := nlog
  logstart := 2
  inodestart := 2 + nlog
  bmapstart := 2 + nlog + ninodeblocks

/-- Why `mkfs` gives up. -/
inductive Halt
  /-- `assert(rootino == ROOTINO)` -/
  | rootino
  /-- `assert(index(argv[i], '/') == 0)` -/
  | slash
  /-- `assert(fbn < MAXFILE)` -/
  | maxfile
  /-- `assert(used < BSIZE*8)` -/
  | used
  /-- `perror("read")`: a block beyond the end of the image. -/
  | read
  deriving DecidableEq

/-- The image and the counters. -/
structure State where
  disk : Disk
  freeinode : ℕ
  freeblock : ℕ

/-- Actions of `mkfs`. -/
abbrev MkfsM := EStateM Halt State

/-- A file of the host. -/
structure HostFile where
  /-- `argv[i]` -/
  name : Name
  /-- What `read` returns, call by call. -/
  pieces : List (List UInt8)

/-- The contents of the file. -/
def HostFile.bytes (f : HostFile) : List UInt8 := f.pieces.flatten

/-- The name in the image: without one leading `_`. -/
def HostFile.target (f : HostFile) : Name := if f.name.head? = some 95 then f.name.tail else f.name

/-- Write a block. -/
def wsect (sec : ℕ) (buf : Block) : MkfsM Unit :=
  modify fun s => { s with disk := upd s.disk sec buf }

/-- Read a block. -/
def rsect (sec : ℕ) : MkfsM Block := do
  if fssize ≤ sec then throw .read
  return (← get).disk sec

/-- Write an inode. -/
def winode (inum : ℕ) (x : Dinode) : MkfsM Unit := do
  let buf ← rsect (sb.iblock inum)
  wsect (sb.iblock inum) (x.put buf (dinodeSize * (inum % ipb)))

/-- Read an inode. -/
def rinode (inum : ℕ) : MkfsM Dinode := do
  return .get (← rsect (sb.iblock inum)) (dinodeSize * (inum % ipb))

/-- The next inode. -/
def ialloc (type : ℕ) : MkfsM ℕ := do
  let inum := (← get).freeinode
  modify fun s => { s with freeinode := inum + 1 }
  winode inum { Dinode.zero with type := type, nlink := 1 }
  return inum

/-- `freeblock++` -/
def nextBlock : MkfsM ℕ := do
  let b := (← get).freeblock
  modify fun s => { s with freeblock := b + 1 }
  return b

/-- The free map with the first `used` blocks in use. -/
def bitmap (used : ℕ) : Block := (List.range used).foldl Block.setBit Bytes.zero

/-- Write the free map. -/
def balloc (used : ℕ) : MkfsM Unit := do
  if bsize * 8 ≤ used then throw .used
  wsect sb.bmapstart (bitmap used)

/-- The address in `din.addrs[j]`, which is set if there is none. -/
def addr (din : Dinode) (j : ℕ) : MkfsM (ℕ × Dinode) := do
  if din.addrs j = 0 then
    let b ← nextBlock
    return (b, { din with addrs := upd din.addrs j b })
  else return (din.addrs j, din)

/-- The block of `iappend` for block `fbn` of the file. -/
def bmap (din : Dinode) (fbn : ℕ) : MkfsM (ℕ × Dinode) := do
  if fbn < ndirect then addr din fbn
  else
    let (ind, din) ← addr din ndirect
    let indirect ← rsect ind
    if indirect.entry (fbn - ndirect) = 0 then
      let b ← nextBlock
      wsect ind (indirect.setEntry (fbn - ndirect) b)
      return (b, din)
    else return (indirect.entry (fbn - ndirect), din)

/-- The loop of `iappend`: append the `n` bytes of `p` at `off`.  Every round appends at least a
byte. -/
def iappendLoop : ℕ → Dinode → ℕ → Bytes → ℕ → MkfsM (ℕ × Dinode)
  | 0, din, off, _, _ => return (off, din)
  | fuel + 1, din, off, p, n => do
    if n = 0 then return (off, din)
    else
      let fbn := off / bsize
      if maxfile ≤ fbn then throw .maxfile
      let (x, din) ← bmap din fbn
      let n1 := min n ((fbn + 1) * bsize - off)
      let buf ← rsect x
      wsect x (buf.copy (off - fbn * bsize) n1 p)
      iappendLoop fuel din (off + n1) (p.drop n1) (n - n1)

/-- Append the `n` bytes of `p` to an inode. -/
def iappend (inum : ℕ) (p : Bytes) (n : ℕ) : MkfsM Unit := do
  let din ← rinode inum
  let (off, din) ← iappendLoop n din din.size p n
  winode inum { din with size := off }

/-- The round of the main loop for a file of the host. -/
def addFile (root : ℕ) (f : HostFile) : MkfsM Unit := do
  if slash ∈ f.name then throw .slash
  let inum ← ialloc tFile
  iappend root (Bytes.dirent inum (strncpy dirsiz f.target.bytes)) direntSize
  f.pieces.forM fun buf => iappend inum (Name.bytes buf) buf.length

/-- Fix the size of the root directory. -/
def fixRoot (root : ℕ) : MkfsM Unit := do
  let din ← rinode root
  winode root { din with size := (din.size / bsize + 1) * bsize }

/-- `main`, on a new image. -/
def main (files : List HostFile) : MkfsM Unit := do
  (List.range fssize).forM fun i => wsect i Bytes.zero
  wsect 1 (Image.sbBytes sb)
  let root ← ialloc tDir
  if root ≠ rootino then throw .rootino
  iappend root (Bytes.dirent root (Name.bytes dot)) direntSize
  iappend root (Bytes.dirent root (Name.bytes dotdot)) direntSize
  files.forM (addFile root)
  fixRoot root
  balloc (← get).freeblock

/-- Before `main` writes anything: the image is an empty file. -/
def init : State := ⟨fun _ => Bytes.zero, 1, nmeta⟩

end Mkfs

end Xv6
