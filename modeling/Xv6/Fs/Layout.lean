import Xv6.Bytes.Basic
import Xv6.Log.Commit
import Xv6.Param
import Xv6.Prog.Update

/-!
# The on-disk format of the file system

The records of `fs.h`, read from and written to the bytes of a block:

* `Superblock`, in block 1;
* `Dinode`, eight to a block, from block `inodestart` on;
* the free map, one bit for each block, from block `bmapstart` on;
* the block addresses in an indirect block;
* directory entries, an inode number and a name of at most 14 bytes.

The laws at the end say that what is written is read back, and that writing one record leaves its
neighbours alone.
-/

namespace Xv6

/-- `struct superblock` -/
structure Superblock where
  /-- Size of the file system image, in blocks. -/
  size : ℕ
  /-- Number of data blocks. -/
  nblocks : ℕ
  /-- Number of inodes. -/
  ninodes : ℕ
  /-- Number of log blocks. -/
  nlog : ℕ
  /-- First log block. -/
  logstart : ℕ
  /-- First inode block. -/
  inodestart : ℕ
  /-- First block of the free map. -/
  bmapstart : ℕ
  deriving DecidableEq

/-- The super block in the bytes of block 1. -/
def Superblock.get (d : Block) : Superblock where
  size := d.getLE 4 0
  nblocks := d.getLE 4 4
  ninodes := d.getLE 4 8
  nlog := d.getLE 4 12
  logstart := d.getLE 4 16
  inodestart := d.getLE 4 20
  bmapstart := d.getLE 4 24

/-- `IBLOCK(i, sb)`: the block that holds inode `i`. -/
def Superblock.iblock (sb : Superblock) (i : ℕ) : ℕ := i / ipb + sb.inodestart

/-- `BBLOCK(b, sb)`: the block that holds the free-map bit of block `b`. -/
def Superblock.bblock (sb : Superblock) (b : ℕ) : ℕ := b / bpb + sb.bmapstart

/-- `struct dinode` -/
structure Dinode where
  /-- File type; 0 for a free inode. -/
  type : ℕ
  /-- Major device number. -/
  major : ℕ
  /-- Minor device number. -/
  minor : ℕ
  /-- Number of links to the inode in the file system, a `short`. -/
  nlink : ℕ
  /-- Size of the file in bytes. -/
  size : ℕ
  /-- Data block addresses: `ndirect` direct ones, then that of the indirect block. -/
  addrs : ℕ → ℕ

namespace Dinode

/-- The inode of all zeros. -/
def zero : Dinode := ⟨0, 0, 0, 0, 0, fun _ => 0⟩

/-- An array of 4-byte numbers as bytes. -/
def words (a : ℕ → ℕ) : Bytes := fun i => Bytes.le (a (i / 4)) (i % 4)

/-- Read the inode at offset `off` of a block. -/
def get (d : Block) (off : ℕ) : Dinode where
  type := d.getLE 2 off
  major := d.getLE 2 (off + 2)
  minor := d.getLE 2 (off + 4)
  nlink := d.getLE 2 (off + 6)
  size := d.getLE 4 (off + 8)
  addrs j := if j ≤ ndirect then d.getLE 4 (off + 12 + 4 * j) else 0

/-- Write the inode to offset `off` of a block. -/
def put (x : Dinode) (d : Block) (off : ℕ) : Block :=
  let d := d.putLE 2 off x.type
  let d := d.putLE 2 (off + 2) x.major
  let d := d.putLE 2 (off + 4) x.minor
  let d := d.putLE 2 (off + 6) x.nlink
  let d := d.putLE 4 (off + 8) x.size
  d.copy (off + 12) (4 * (ndirect + 1)) (words x.addrs)

/-- The values fit their fields. -/
structure Ok (x : Dinode) : Prop where
  type_lt : x.type < 2 ^ 16
  major_lt : x.major < 2 ^ 16
  minor_lt : x.minor < 2 ^ 16
  nlink_lt : x.nlink < 2 ^ 16
  size_lt : x.size < 2 ^ 32
  addrs_lt : ∀ j, x.addrs j < 2 ^ 32
  addrs_out : ∀ j, ndirect < j → x.addrs j = 0

end Dinode

/-- The bit for block number `bi` within a block of the free map. -/
def Block.bit (d : Block) (bi : ℕ) : Bool := (d (bi / 8)).toBitVec.getLsbD (bi % 8)

/-- The mask `1 << (bi % 8)`. -/
def Block.mask (bi : ℕ) : BitVec 8 := BitVec.twoPow 8 (bi % 8)

/-- `bp->data[bi/8] |= m` -/
def Block.setBit (d : Block) (bi : ℕ) : Block :=
  upd d (bi / 8) ⟨(d (bi / 8)).toBitVec ||| Block.mask bi⟩

/-- `bp->data[bi/8] &= ~m` -/
def Block.clearBit (d : Block) (bi : ℕ) : Block :=
  upd d (bi / 8) ⟨(d (bi / 8)).toBitVec &&& ~~~Block.mask bi⟩

/-- Entry `j` of an indirect block. -/
def Block.entry (d : Block) (j : ℕ) : ℕ := d.getLE 4 (4 * j)

/-- Set entry `j` of an indirect block. -/
def Block.setEntry (d : Block) (j v : ℕ) : Block := d.putLE 4 (4 * j) v

/-- The inode number in the directory entry at offset `off`. -/
def Bytes.direntInum (d : Bytes) (off : ℕ) : ℕ := d.getLE 2 off

/-- The bytes of the name in the directory entry at offset `off`. -/
def Bytes.direntName (d : Bytes) (off : ℕ) : Bytes := d.drop (off + 2)

/-- A directory entry as bytes, from its inode number and the bytes of its name. -/
def Bytes.dirent (inum : ℕ) (name : Bytes) : Bytes := (zero.copy 2 dirsiz name).putLE 2 0 inum

/-! ### Reading back -/

namespace Dinode

variable {x : Dinode} {d : Block} {off off' : ℕ}

theorem get_ok : (get d off).Ok where
  type_lt := Bytes.getLE_lt
  major_lt := Bytes.getLE_lt
  minor_lt := Bytes.getLE_lt
  nlink_lt := Bytes.getLE_lt
  size_lt := Bytes.getLE_lt
  addrs_lt j := by
    simp only [get]
    split_ifs
    · exact Bytes.getLE_lt
    · decide
  addrs_out j hj := by
    simp only [get, Nat.not_le.2 hj, ↓reduceIte]

theorem getLE_words {a : ℕ → ℕ} (j : ℕ) : Bytes.getLE 4 (words a) (4 * j) = a j % 2 ^ 32 := by
  have h : Bytes.getLE 4 (words a) (4 * j) = Bytes.getLE 4 (Bytes.putLE 4 Bytes.zero (4 * j) (a j))
      (4 * j) := by
    refine Bytes.getLE_congr fun i h1 h2 => ?_
    have hd : i / 4 = j := by omega
    have hm : i % 4 = i - 4 * j := by omega
    rw [Bytes.putLE, Bytes.copy_of_mem h1 h2, words, hd, hm]
  rw [h, Bytes.getLE_putLE]
  rfl

theorem get_put (hx : x.Ok) : get (x.put d off) off = x := by
  obtain ⟨type, major, minor, nlink, size, addrs⟩ := x
  have ha : ∀ j, (if j ≤ ndirect then addrs j % 2 ^ 32 else 0) = addrs j := by
    intro j
    split_ifs with h
    · exact Nat.mod_eq_of_lt (hx.addrs_lt j)
    · exact (hx.addrs_out j (Nat.not_le.1 h)).symm
  have hw : ∀ j, j ≤ ndirect → ∀ e : Block,
      Bytes.getLE 4 (e.copy (off + 12) (4 * (ndirect + 1)) (words addrs)) (off + 12 + 4 * j) =
        addrs j % 2 ^ 32 := by
    intro j hj e
    simp only [ndirect] at hj
    rw [Bytes.getLE_copy_of_mem (by omega) (by simp only [ndirect]; omega), Nat.add_sub_cancel_left,
      getLE_words]
  simp (disch := omega) only [get, put, Bytes.getLE_copy_of_disjoint,
    Bytes.getLE_putLE_of_disjoint, Bytes.getLE_putLE]
  congr 1
  · exact Nat.mod_eq_of_lt hx.type_lt
  · exact Nat.mod_eq_of_lt hx.major_lt
  · exact Nat.mod_eq_of_lt hx.minor_lt
  · exact Nat.mod_eq_of_lt hx.nlink_lt
  · exact Nat.mod_eq_of_lt hx.size_lt
  funext j
  rw [← ha j]
  split_ifs with h
  · exact hw j h _
  · rfl

/-- Writing an inode leaves everything outside its 64 bytes alone. -/
theorem getLE_put_of_disjoint {n i : ℕ} (h : i + n ≤ off ∨ off + dinodeSize ≤ i) :
    Bytes.getLE n (x.put d off) i = Bytes.getLE n d i := by
  simp only [dinodeSize] at h
  rw [put, Bytes.getLE_copy_of_disjoint (by simp only [ndirect]; omega)]
  simp (disch := omega) only [Bytes.getLE_putLE_of_disjoint]

theorem get_put_of_disjoint (h : off' + dinodeSize ≤ off ∨ off + dinodeSize ≤ off') :
    get (x.put d off) off' = get d off' := by
  simp only [dinodeSize] at h
  have ha : ∀ j, (if j ≤ ndirect then Bytes.getLE 4 (x.put d off) (off' + 12 + 4 * j) else 0) =
      if j ≤ ndirect then Bytes.getLE 4 d (off' + 12 + 4 * j) else 0 := by
    intro j
    split_ifs with hj
    · simp only [ndirect] at hj
      exact getLE_put_of_disjoint (by simp only [dinodeSize]; omega)
    · rfl
  simp (disch := simp only [dinodeSize]; omega) only [get, getLE_put_of_disjoint, ha]

end Dinode

namespace Block

variable {d : Block} {i j v : ℕ}

theorem bit_setBit : (d.setBit i).bit j = (decide (j = i) || d.bit j) := by
  by_cases hb : j / 8 = i / 8
  · have hj : (j = i) ↔ j % 8 = i % 8 := by omega
    have hlt : j % 8 < 8 := Nat.mod_lt _ (by decide)
    simp [bit, setBit, mask, hb, hj, hlt, eq_comm, Bool.or_comm]
  · have hj : j ≠ i := by rintro rfl; exact hb rfl
    simp [bit, setBit, hb, hj]

theorem bit_clearBit : (d.clearBit i).bit j = (!decide (j = i) && d.bit j) := by
  by_cases hb : j / 8 = i / 8
  · have hj : (j = i) ↔ j % 8 = i % 8 := by omega
    have hlt : j % 8 < 8 := Nat.mod_lt _ (by decide)
    simp [bit, clearBit, mask, hb, hj, hlt, eq_comm, Bool.and_comm]
  · have hj : j ≠ i := by rintro rfl; exact hb rfl
    simp [bit, clearBit, hb, hj]

@[simp] theorem entry_zero : entry Bytes.zero j = 0 := Bytes.getLE_zero

theorem entry_setEntry (hv : v < 2 ^ 32) :
    (d.setEntry i v).entry j = if j = i then v else d.entry j := by
  split_ifs with h
  · subst h
    rw [entry, setEntry, Bytes.getLE_putLE, Nat.mod_eq_of_lt (by simpa using hv)]
  · exact Bytes.getLE_putLE_of_disjoint (by omega)

end Block

namespace Bytes

variable {inum : ℕ} {name : Bytes}

theorem direntInum_dirent (h : inum < 2 ^ 16) : (dirent inum name).direntInum 0 = inum := by
  rw [direntInum, dirent, getLE_putLE, Nat.mod_eq_of_lt (by simpa using h)]

theorem dirent_name {i : ℕ} (h : i < dirsiz) : dirent inum name (2 + i) = name i := by
  rw [dirent, putLE, copy_of_not_mem (by omega), copy_of_mem (by omega) (by omega),
    Nat.add_sub_cancel_left]

end Bytes

end Xv6
