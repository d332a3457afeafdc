import Xv6.Alloc.Ownership
import Xv6.Fs.Store

/-!
# What the disk stores

The abstract view of a disk: every inode number names a `Node`, a byte array with a few attributes.
`Store.nodes` reads the nodes off the blocks.  The view makes sense for a disk whose block pointers
are consistent with the free map, which `Store.Ok` states:

* every block is in use iff it is metadata or named by exactly one pointer of an allocated inode
  (`Owns`, over the positions of `Dinode.ptr`);
* the blocks of a file are those below its size (`Dinode.Shaped`).

Functions that grow or cut a file work on its in-memory copy before they write it back.  `Store.Mid`
is the invariant while they do: the same, with the copy in the place of the inode on the disk.
-/

namespace Xv6

/-- The number of blocks of a file of `size` bytes. -/
def blocksOf (size : ℕ) : ℕ := (size + (bsize - 1)) / bsize

/-- The number of metadata blocks, at the start of the disk. -/
def Superblock.nmeta (sb : Superblock) : ℕ := sb.size - sb.nblocks

/-- The areas of the disk are in the order of `mkfs`: super block, log, inodes, free map, data. -/
structure Superblock.Ok (sb : Superblock) : Prop where
  log : 2 ≤ sb.logstart
  inodes : sb.logstart + sb.nlog ≤ sb.inodestart
  bitmap : (sb.ninodes - 1) / ipb + sb.inodestart < sb.bmapstart
  data : (sb.size - 1) / bpb + sb.bmapstart < sb.nmeta
  nblocks : sb.nblocks ≤ sb.size
  size : sb.size < 2 ^ 32
  root : rootino < sb.ninodes
  /-- Directory entries have 16 bits for an inode number. -/
  inum : sb.ninodes ≤ 2 ^ 16

namespace Dinode

/-- The block pointers of an inode: direct addresses, the indirect block, and its entries. -/
def ptr (disk : Disk) (x : Dinode) (k : ℕ) : ℕ :=
  if k ≤ ndirect then x.addrs k
  else if x.addrs ndirect = 0 ∨ ndirect + nindirect < k then 0
  else (disk (x.addrs ndirect)).entry (k - (ndirect + 1))

/-- The position of the pointer to block `bn` of a file. -/
def pos (bn : ℕ) : ℕ := if bn < ndirect then bn else bn + 1

/-- The contents of block `bn` of a file; a block that does not exist reads as zeros. -/
def block (disk : Disk) (x : Dinode) (bn : ℕ) : Block :=
  if x.ptr disk (pos bn) = 0 then Bytes.zero else disk (x.ptr disk (pos bn))

/-- The contents of a file. -/
def data (disk : Disk) (x : Dinode) : Bytes := fun k =>
  if k < maxfile * bsize then x.block disk (k / bsize) (k % bsize) else 0

/-- The inode has exactly its first `c` blocks. -/
structure Shaped (disk : Disk) (x : Dinode) (c : ℕ) : Prop where
  le : c ≤ maxfile
  block_iff : ∀ bn < maxfile, x.ptr disk (pos bn) ≠ 0 ↔ bn < c
  indirect_iff : x.addrs ndirect ≠ 0 ↔ ndirect < c

end Dinode

/-- What an inode number stands for. -/
@[ext] structure Node where
  type : ℕ
  major : ℕ
  minor : ℕ
  nlink : ℕ
  size : ℕ
  /-- The contents, of which the first `size` bytes are the file. -/
  data : Bytes

/-- A free inode. -/
def Node.free : Node := ⟨0, 0, 0, 0, 0, Bytes.zero⟩

/-- The node of an inode. -/
def Dinode.node (disk : Disk) (x : Dinode) : Node :=
  if x.type = 0 then .free else ⟨x.type, x.major, x.minor, x.nlink, x.size, x.data disk⟩

namespace Store

/-- The inodes of the disk, with `ip` in place of its copy there. -/
def overlay (st : Store) (ip : Inode) (i : ℕ) : Dinode :=
  if i = ip.inum then ip.toDinode else st.dinode i

/-- All block pointers of the allocated ones among the inodes `din`. -/
def ptrs (st : Store) (din : ℕ → Dinode) (x : ℕ × ℕ) : ℕ :=
  if x.1 < st.sb.ninodes ∧ (din x.1).type ≠ 0 then (din x.1).ptr st.disk x.2 else 0

/-- The nodes of the inodes `din`. -/
def nodesOf (st : Store) (din : ℕ → Dinode) (i : ℕ) : Node :=
  if i < st.sb.ninodes then (din i).node st.disk else .free

/-- The nodes of the disk. -/
def nodes (st : Store) : ℕ → Node := st.nodesOf st.dinode

/-- The super block is sound, and memory has a copy of it. -/
structure Formatted (st : Store) : Prop where
  sb_ok : st.sb.Ok
  sb_eq : .get (st.disk 1) = st.sb

/-- The disk is consistent. -/
structure Ok (st : Store) : Prop extends st.Formatted where
  owns : Owns st.bit (st.ptrs st.dinode) st.sb.nmeta st.sb.size
  shaped : ∀ i < st.sb.ninodes, (st.dinode i).type ≠ 0 →
    (st.dinode i).Shaped st.disk (blocksOf (st.dinode i).size)

/-- The disk is consistent when `ip` takes the place of its copy there, whatever blocks it has. -/
structure Base (st : Store) (ip : Inode) : Prop extends st.Formatted where
  inum_lt : ip.inum < st.sb.ninodes
  type_ne : ip.type ≠ 0
  ok : ip.toDinode.Ok
  owns : Owns st.bit (st.ptrs (st.overlay ip)) st.sb.nmeta st.sb.size
  others : ∀ i < st.sb.ninodes, i ≠ ip.inum → (st.dinode i).type ≠ 0 →
    (st.dinode i).Shaped st.disk (blocksOf (st.dinode i).size)

/-- The disk is consistent when `ip`, with `c` blocks, takes the place of its copy there. -/
structure Mid (st : Store) (ip : Inode) (c : ℕ) : Prop extends st.Base ip where
  shaped : ip.toDinode.Shaped st.disk c

/-- The number of free blocks. -/
def free (st : Store) : ℕ := (freeBlocks st.bit st.sb.size).card

end Store

end Xv6
