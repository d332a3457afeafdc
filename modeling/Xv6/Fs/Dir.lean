import Xv6.Fs.Inode

/-!
# Directories and paths

The functions of `fs.c` on directories (`dirlookup`, `dirlink`) and paths (`skipelem`, `namex`).

A name is passed as the list of its bytes.  In the source it is a buffer of `dirsiz` bytes that ends
with a zero byte when the name is shorter; nobody reads the bytes after the zero.
-/

namespace Xv6

/-- A path, or an element of one. -/
abbrev Name := List UInt8

/-- The byte of `/`. -/
abbrev slash : UInt8 := 47

/-- The name `.` -/
abbrev dot : Name := [46]

/-- The name `..` -/
abbrev dotdot : Name := [46, 46]

/-- A name as the bytes of a buffer. -/
def Name.bytes (name : Name) : Bytes := fun i => name.getD i 0

/-- Compare at most `n` bytes of two strings. -/
def strncmp : ℕ → Bytes → Bytes → ℤ
  | 0, _, _ => 0
  | n + 1, p, q =>
    if p 0 ≠ 0 ∧ p 0 = q 0 then strncmp n (p.drop 1) (q.drop 1) else (p 0).toNat - (q 0).toNat

/-- Copy a string into a buffer of `n` bytes, padding it with zeros. -/
def strncpy : ℕ → Bytes → Bytes
  | 0, _ => Bytes.zero
  | n + 1, t => if t 0 = 0 then Bytes.zero else fun i =>
    match i with
    | 0 => t 0
    | i + 1 => strncpy n (t.drop 1) i

/-- Compare two names. -/
def namecmp (s t : Bytes) : ℤ := strncmp dirsiz s t

/-- The path has ended. -/
def atEnd : Name → Bool
  | [] => true
  | c :: _ => c = 0

/-- Split the first element off a path: the element, cut to `dirsiz` bytes, and the rest of the
path without leading slashes. -/
def skipelem (path : Name) : Option (Name × Name) :=
  let path := path.dropWhile (· = slash)
  if atEnd path then none
  else
    let s := path.takeWhile fun c => c ≠ slash ∧ c ≠ 0
    let path := path.dropWhile fun c => c ≠ slash ∧ c ≠ 0
    some (s.take dirsiz, path.dropWhile (· = slash))

namespace Store

/-- The loop of `dirlookup`: the inode number and the offset of the entry for `name`. -/
def lookupLoop (name : Name) : ℕ → Inode → ℕ → StoreM (Option (ℕ × ℕ) × Inode)
  | 0, dp, _ => return (none, dp)
  | fuel + 1, dp, off => do
    if dp.size ≤ off then return (none, dp)
    else match ← readi dp off direntSize with
      | (some (16, de), dp) =>
        if de.direntInum 0 ≠ 0 ∧ namecmp name.bytes (de.direntName 0) = 0 then
          return (some (de.direntInum 0, off), dp)
        else lookupLoop name fuel dp (off + direntSize)
      | _ => throw .dirlookupRead

/-- The loop of `dirlink`: the offset of the first empty entry, or the end. -/
def emptyLoop : ℕ → Inode → ℕ → StoreM (ℕ × Inode)
  | 0, dp, off => return (off, dp)
  | fuel + 1, dp, off => do
    if dp.size ≤ off then return (off, dp)
    else match ← readi dp off direntSize with
      | (some (16, de), dp) =>
        if de.direntInum 0 = 0 then return (off, dp)
        else emptyLoop fuel dp (off + direntSize)
      | _ => throw .dirlinkRead

/-- The part of `dirlink` that adds the entry. -/
def addEntry (name : Name) (inum : ℕ) (dp : Inode) : StoreM (Unit × Inode) := do
  let (off, dp) ← emptyLoop dp.size dp 0
  let de := Bytes.dirent inum (strncpy dirsiz name.bytes)
  match ← writei dp de off direntSize with
  | (some 16, dp) => return ((), dp)
  | _ => throw .dirlink

/-- The loop of `isdirempty`. -/
def emptyFrom : ℕ → Inode → ℕ → StoreM (Bool × Inode)
  | 0, dp, _ => return (true, dp)
  | fuel + 1, dp, off => do
    if dp.size ≤ off then return (true, dp)
    else match ← readi dp off direntSize with
      | (some (16, de), dp) =>
        if de.direntInum 0 ≠ 0 then return (false, dp)
        else emptyFrom fuel dp (off + direntSize)
      | _ => throw .isdiremptyRead

/-- Is the directory empty except for its first two entries? -/
def isdirempty (dp : Inode) : StoreM (Bool × Inode) := emptyFrom dp.size dp (2 * direntSize)

end Store

namespace Fs

/-- Look for a directory entry: a slot for its inode and its offset. -/
def dirlookup (dp : ℕ) (name : Name) : FsM (Option (ℕ × ℕ)) := do
  if ((← get).inode dp).type ≠ tDir then throw .notDir
  else match ← onInode dp fun ip => Store.lookupLoop name ip.size ip 0 with
    | none => return none
    | some (inum, off) =>
      modify fun s => { s with found := s.found ++ [(inum, (s.dinode inum).type)] }
      let i ← iget inum
      return some (i, off)

/-- Write a new directory entry; `false` if the name is present. -/
def dirlink (dp : ℕ) (name : Name) (inum : ℕ) : FsP Bool := do
  match ← dirlookup dp name with
  | some (ip, _) =>
    iput ip
    return false
  | none =>
    onInode dp (Store.addEntry name inum)
    return true

/-- The type of a locked inode. -/
def typeOf (i : ℕ) : FsM ℕ := do
  return ((← get).inode i).type

/-- The loop of `namex`, on a path of less than `fuel` bytes. -/
def namexLoop (nameiparent : Bool) : ℕ → ℕ → Name → FsP (Option (ℕ × Name))
  | 0, _, _ => return none
  | fuel + 1, ip, path => do
    match skipelem path with
    | none =>
      if nameiparent then
        iput ip
        return none
      else return some (ip, [])
    | some (name, path) =>
      ilock ip
      if (← typeOf ip) ≠ tDir then
        iunlockput ip
        return none
      else if nameiparent ∧ atEnd path then
        -- Stop one level early.
        iunlock ip
        return some (ip, name)
      else match ← dirlookup ip name with
        | none =>
          iunlockput ip
          return none
        | some (next, _) =>
          iunlockput ip
          namexLoop nameiparent fuel next path

/-- A reference to the inode where the walk along a path starts: the root, or the current
directory of process `p`. -/
def startInode (p : ℕ) (path : Name) : FsM ℕ := do
  if path.head? = some slash then iget rootino
  else idup ((← get).cwd p)

/-- Look up the inode for a path, or the inode of its parent and the last element. -/
def namex (p : ℕ) (path : Name) (nameiparent : Bool) : FsP (Option (ℕ × Name)) := do
  let ip ← startInode p path
  namexLoop nameiparent (path.length + 1) ip path

/-- The inode for a path. -/
def namei (p : ℕ) (path : Name) : FsP (Option ℕ) := do
  return (← namex p path false).map Prod.fst

/-- The inode of the parent of a path, and the last element. -/
def nameiparent (p : ℕ) (path : Name) : FsP (Option (ℕ × Name)) := namex p path true

end Fs

end Xv6
