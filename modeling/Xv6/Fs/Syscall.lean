import Xv6.Fs.Dir
import Xv6.LTS.Basic

/-!
# System calls of the file system

The calls of `sysfile.c` with the functions of `file.c` and `pipe.c` they use, the file-system parts
of `exec`, `fork` and `exit`, and the system `Fs.system`: any sequence of calls by any processes,
one call at a time.  A call whose program panics or blocks does not return, so it is no step of the
system; nor is the return of a process that is killed while it waits for a pipe.

The arguments are those that `argint`, `argptr` and `argstr` have fetched.  A pipe is named by the
page it is in; which page `kalloc` finds, if any, is an argument of the call.
-/

namespace Xv6

/-- `ip->nlink++`, on a `short`. -/
def Inode.incLink (ip : Inode) : Inode := { ip with nlink := (ip.nlink + 1) % 2 ^ 16 }

/-- `ip->nlink--`, on a `short`. -/
def Inode.decLink (ip : Inode) : Inode := { ip with nlink := (ip.nlink + (2 ^ 16 - 1)) % 2 ^ 16 }

/-- `O_CREATE` -/
abbrev oCreate : ℕ := 0x200

namespace Store

/-- The loop of `loaduvm`: read `sz` bytes of the file at `off`, a page at a time. -/
def loaduvm (off sz : ℕ) : ℕ → Inode → ℕ → StoreM (Bool × Inode)
  | 0, ip, _ => return (true, ip)
  | fuel + 1, ip, i => do
    if sz ≤ i then return (true, ip)
    else
      let n := min (sz - i) 4096
      match ← readi ip ((off + i) % 2 ^ 32) n with
      | (some (m, _), ip) => if m = n then loaduvm off sz fuel ip (i + 4096) else return (false, ip)
      | (none, ip) => return (false, ip)

/-- The loop of `exec` over the program headers; `vm i` says whether `allocuvm` finds the memory for
the `i`th. -/
def loadSegments (vm : ℕ → Bool) : ℕ → Inode → ℕ → ℕ → StoreM (Bool × Inode)
  | 0, ip, _, _ => return (true, ip)
  | n + 1, ip, i, off => do
    match ← readi ip off 32 with
    | (some (32, ph), ip) =>
      let memsz := ph.getLE 4 20
      let filesz := ph.getLE 4 16
      let vaddr := ph.getLE 4 8
      if ph.getLE 4 0 ≠ 1 then loadSegments vm n ip (i + 1) ((off + 32) % 2 ^ 32)
      else if memsz < filesz ∨ 2 ^ 32 ≤ vaddr + memsz ∨ !vm i ∨ vaddr % 4096 ≠ 0 then
        return (false, ip)
      else match ← loaduvm (ph.getLE 4 4) filesz (filesz / 4096 + 1) ip 0 with
        | (true, ip) => loadSegments vm n ip (i + 1) ((off + 32) % 2 ^ 32)
        | (false, ip) => return (false, ip)
    | (_, ip) => return (false, ip)

/-- The part of `exec` that reads the file. -/
def loadElf (vm : ℕ → Bool) (ip : Inode) : StoreM (Bool × Inode) := do
  match ← readi ip 0 52 with
  | (some (52, elf), ip) =>
    if elf.getLE 4 0 ≠ 0x464C457F then return (false, ip)
    else loadSegments vm (elf.getLE 2 44) ip 0 (elf.getLE 4 28)
  | (_, ip) => return (false, ip)

end Store

/-- The loop of `piperead` that copies at most `n` bytes after those it `got`. -/
def Pipe.copyOut : ℕ → Pipe → List UInt8 → Pipe × List UInt8
  | 0, x, got => (x, got)
  | n + 1, x, got => if x.empty then (x, got) else copyOut n x.drop (got ++ [x.next])

/-- The file as an end of the pipe at page `q`. -/
def File.toEnd (y : File) (q : ℕ) (writable : Bool) : File :=
  { y with type := .pipe, readable := !writable, writable := writable, pipe := q }

namespace Fs

/-! ### Open files -/

/-- Change file `f`. -/
def setFile (s : Fs) (f : ℕ) (x : File) : Fs := { s with ftable := upd s.ftable f x }

/-- Change the pipe at page `q`. -/
def setPipe (s : Fs) (q : ℕ) (x : Option Pipe) : Fs := { s with pipe := upd s.pipe q x }

/-- Change the entry of process `p`. -/
def setProc (s : Fs) (p : ℕ) (x : Option Proc) : Fs := { s with proc := upd s.proc p x }

/-- Allocate a file structure. -/
def filealloc : FsM (Option ℕ) := do
  let s ← get
  match (List.range nfile).find? fun f => (s.ftable f).ref = 0 with
  | none => return none
  | some f =>
    modify fun s => s.setFile f { s.ftable f with ref := 1 }
    return some f

/-- Count another reference to file `f`. -/
def filedup (f : ℕ) : FsM Unit := do
  if ((← get).ftable f).ref < 1 then throw .filedup
  else modify fun s => s.setFile f { s.ftable f with ref := (s.ftable f).ref + 1 }

/-- Close an end of the pipe at page `q`, and free the page if it was the last. -/
def pipeclose (q : ℕ) (writable : Bool) : FsM Unit :=
  modify fun s =>
    match s.pipe q with
    | none => s
    | some x =>
      let x := x.shut writable
      s.setPipe q (if !x.readopen && !x.writeopen then none else some x)

/-- The part of `fileclose` outside a transaction: drop a reference; the file, if it was the
last. -/
def filedrop (f : ℕ) : FsM (Option File) := do
  let ff := (← get).ftable f
  if ff.ref < 1 then throw .fileclose
  else if 0 < ff.ref - 1 then
    modify fun s => s.setFile f { ff with ref := ff.ref - 1 }
    return none
  else
    modify fun s => s.setFile f { ff with ref := 0, type := .none }
    if ff.type = .pipe then pipeclose ff.pipe ff.writable
    return some ff

/-- Close file `f`. -/
def fileclose (f : ℕ) : FsP Unit := do
  match ← filedrop f with
  | none => return
  | some ff =>
    match ff.type with
    | .none | .pipe => return
    | .inode =>
      beginOp
      iput ff.ip
      endOp

/-- Advance the offset of file `f`. -/
def advance (f r : ℕ) : FsM Unit :=
  modify fun s => s.setFile f { s.ftable f with off := ((s.ftable f).off + r) % 2 ^ 32 }

/-- The loop around `sleep` in `piperead` and `pipewrite`: alone, a process that sleeps is not woken
up. -/
def pipewait (q : ℕ) (sleeps : Pipe → Bool) : FsP Unit :=
  .await fun s => if (s.pipe q).any sleeps then none else some s

/-- The part of `piperead` that copies bytes. -/
def pipecopy (q n : ℕ) : FsM (Option (ℕ × Bytes)) := do
  match (← get).pipe q with
  | none => return none
  | some x =>
    let (x, got) := x.copyOut n []
    modify fun s => s.setPipe q (some x)
    return some (got.length, fun i => got.getD i 0)

/-- `piperead` -/
def piperead (q n : ℕ) : FsP (Option (ℕ × Bytes)) := do
  pipewait q fun x => x.empty && x.writeopen
  pipecopy q n

/-- Store a byte, unless the pipe is full. -/
def pipeput (q : ℕ) (b : UInt8) : FsM Bool := do
  match (← get).pipe q with
  | none => return false
  | some x =>
    if x.full then return false
    else
      modify fun s => s.setPipe q (some (x.put b))
      return true

/-- The loop of `pipewrite` over the bytes from the `i`th on. -/
def pipewriteLoop (q : ℕ) (addr : Bytes) : ℕ → ℕ → FsP Bool
  | 0, _ => return true
  | n + 1, i => do
    pipewait q fun x => x.full && x.readopen
    if ← pipeput q (addr i) then pipewriteLoop q addr n (i + 1) else return false

/-- `pipewrite` -/
def pipewrite (q : ℕ) (addr : Bytes) (n : ℕ) : FsP ℤ := do
  return if ← pipewriteLoop q addr n 0 then n else -1

/-- Read from file `f`. -/
def fileread (f n : ℕ) : FsP (Option (ℕ × Bytes)) := do
  let file := (← (get : FsM Fs)).ftable f
  if !file.readable then return none
  else match file.type with
    | .none => (throw .fileread : FsM _)
    | .pipe => piperead file.pipe n
    | .inode =>
      ilock file.ip
      let r ← (do
        let off := ((← get).ftable f).off
        let r ← onInode file.ip fun ip => Store.readi ip off n
        advance f (r.elim 0 Prod.fst)
        return r : FsM _)
      iunlock file.ip
      return r

/-- The bytes `filewrite` writes in one transaction. -/
abbrev maxChunk : ℕ := (maxOpBlocks - 1 - 1 - 2) / 2 * 512

/-- One transaction of `filewrite`. -/
def writeChunk (f ip : ℕ) (addr : Bytes) (n : ℕ) : FsP (Option ℕ) := do
  beginOp
  ilock ip
  let r ← (do
    let off := ((← get).ftable f).off
    let r ← onInode ip fun ip => Store.writei ip addr off n
    advance f (r.getD 0)
    return r : FsM _)
  iunlock ip
  endOp
  return r

/-- The loop of `filewrite`, with `i` bytes written. -/
def filewriteLoop (f ip : ℕ) (addr : Bytes) (n : ℕ) : ℕ → ℕ → FsP ℤ
  | 0, i => return if i = n then n else -1
  | fuel + 1, i => do
    if n ≤ i then return if i = n then n else -1
    else
      let n1 := min (n - i) maxChunk
      match ← writeChunk f ip (addr.drop i) n1 with
      | none => return if i = n then n else -1
      | some r =>
        if r ≠ n1 then (throw .shortFilewrite : FsM _)
        else filewriteLoop f ip addr n fuel (i + r)

/-- Write to file `f`. -/
def filewrite (f : ℕ) (addr : Bytes) (n : ℕ) : FsP ℤ := do
  let file := (← (get : FsM Fs)).ftable f
  if !file.writable then return -1
  else match file.type with
    | .none => (throw .filewrite : FsM _)
    | .pipe => pipewrite file.pipe addr n
    | .inode => filewriteLoop f file.ip addr n n 0

/-! ### File descriptors -/

/-- The file behind a descriptor of process `p`. -/
def argfd (p fd : ℕ) : FsM (Option ℕ) := do
  if nofile ≤ fd then return none
  else return ((← get).proc p).bind fun x => x.ofile fd

/-- Set a descriptor of process `p`. -/
def setFd (p fd : ℕ) (f : Option ℕ) : FsM Unit :=
  modify fun s =>
    s.setProc p ((s.proc p).map fun x => { x with ofile := upd x.ofile fd f })

/-- Allocate a file descriptor for file `f`. -/
def fdalloc (p f : ℕ) : FsM (Option ℕ) := do
  let s ← get
  match s.proc p with
  | none => return none
  | some x =>
    match (List.range nofile).find? fun fd => (x.ofile fd).isNone with
    | none => return none
    | some fd =>
      setFd p fd (some f)
      return some fd

/-- `dup` -/
def sysDup (p fd : ℕ) : FsM ℤ := do
  match ← argfd p fd with
  | none => return -1
  | some f =>
    match ← fdalloc p f with
    | none => return -1
    | some fd =>
      filedup f
      return fd

/-- `read`: the number of bytes and the bytes. -/
def sysRead (p fd n : ℕ) : FsP (Option (ℕ × Bytes)) := do
  match ← argfd p fd with
  | none => return none
  | some f => fileread f n

/-- `write` -/
def sysWrite (p fd : ℕ) (addr : Bytes) (n : ℕ) : FsP ℤ := do
  match ← argfd p fd with
  | none => return -1
  | some f => filewrite f addr n

/-- `close` -/
def sysClose (p fd : ℕ) : FsP ℤ := do
  match ← argfd p fd with
  | none => return -1
  | some f =>
    setFd p fd none
    fileclose f
    return 0

/-- `kalloc`, when `page` is the first free page. -/
def kalloc (page : Option ℕ) : FsM (Option ℕ) := do
  let s ← get
  return page.filter fun q => (s.pipe q).isNone

/-- The part of `pipealloc` that makes the files `f0` and `f1` the ends of a new pipe. -/
def pipesetup (f0 f1 q : ℕ) : FsM Unit :=
  modify fun s =>
    ((s.setPipe q (some ⟨fun _ => 1, 0, 0, true, true⟩)).setFile f0
      ((s.ftable f0).toEnd q false)).setFile f1 ((s.ftable f1).toEnd q true)

/-- `pipealloc` -/
def pipealloc (page : Option ℕ) : FsP (Option (ℕ × ℕ)) := do
  match ← filealloc with
  | none => return none
  | some f0 =>
    match ← filealloc with
    | none =>
      fileclose f0
      return none
    | some f1 =>
      match ← kalloc page with
      | none =>
        fileclose f0
        fileclose f1
        return none
      | some q =>
        pipesetup f0 f1 q
        return some (f0, f1)

/-- `pipe`: the descriptors. -/
def sysPipe (p : ℕ) (page : Option ℕ) : FsP (Option (ℕ × ℕ)) := do
  match ← pipealloc page with
  | none => return none
  | some (rf, wf) =>
    match ← fdalloc p rf with
    | none =>
      fileclose rf
      fileclose wf
      return none
    | some fd0 =>
      match ← fdalloc p wf with
      | none =>
        setFd p fd0 none
        fileclose rf
        fileclose wf
        return none
      | some fd1 => return some (fd0, fd1)

/-! ### Names -/

/-- The end of `sys_link` when the link cannot be made. -/
def linkBad (ip : ℕ) : FsP ℤ := do
  ilock ip
  update ip Inode.decLink
  iunlockput ip
  endOp
  return -1

/-- `link`: create the path `new` as a link to the same inode as `old`. -/
def sysLink (p : ℕ) (old new : Name) : FsP ℤ := do
  beginOp
  match ← namei p old with
  | none =>
    endOp
    return -1
  | some ip =>
    ilock ip
    if (← typeOf ip) = tDir then
      iunlockput ip
      endOp
      return -1
    else
      update ip Inode.incLink
      iunlock ip
      match ← nameiparent p new with
      | none => linkBad ip
      | some (dp, name) =>
        ilock dp
        let inum := ((← (get : FsM Fs)).inode ip).inum
        if ← dirlink dp name inum then
          iunlockput dp
          iput ip
          endOp
          return 0
        else
          iunlockput dp
          linkBad ip

/-- The end of `sys_unlink` when nothing is removed. -/
def unlinkBad (dp : ℕ) : FsP ℤ := do
  iunlockput dp
  endOp
  return -1

/-- The tests of `sys_unlink` on the locked inode: may it be removed? -/
def unlinkable (ip : ℕ) : FsM Bool := do
  let x := (← get).inode ip
  -- `nlink` is signed.
  if x.nlink < 1 ∨ 2 ^ 15 ≤ x.nlink then throw .unlinkNlink
  else if x.type = tDir then onInode ip Store.isdirempty
  else return true

/-- Clear the directory entry at `off`. -/
def clearEntry (off : ℕ) (dp : Inode) : StoreM (Unit × Inode) := do
  match ← Store.writei dp Bytes.zero off direntSize with
  | (some 16, dp) => return ((), dp)
  | _ => throw .unlinkWrite

/-- The part of `sys_unlink` that removes the entry at `off`, which names the inode in slot `ip`. -/
def removeEntry (dp ip off : ℕ) : FsM Unit := do
  onInode dp (clearEntry off)
  if ((← get).inode ip).type = tDir then update dp Inode.decLink else return

/-- `unlink` -/
def sysUnlink (p : ℕ) (path : Name) : FsP ℤ := do
  beginOp
  match ← nameiparent p path with
  | none =>
    endOp
    return -1
  | some (dp, name) =>
    ilock dp
    if namecmp name.bytes dot.bytes = 0 ∨ namecmp name.bytes dotdot.bytes = 0 then unlinkBad dp
    else match ← dirlookup dp name with
      | none => unlinkBad dp
      | some (ip, off) =>
        ilock ip
        if ← unlinkable ip then
          removeEntry dp ip off
          iunlockput dp
          update ip Inode.decLink
          iunlockput ip
          endOp
          return 0
        else
          iunlockput ip
          unlinkBad dp

/-- The part of `create` that gives a new directory its entries `.` and `..`. -/
def createDots (type dp ip : ℕ) : FsP Unit := do
  if type = tDir then
    update dp Inode.incLink
    let s ← (get : FsM Fs)
    if ← dirlink ip dot (s.inode ip).inum then
      if ← dirlink ip dotdot (s.inode dp).inum then return
      else (throw .createDots : FsM Unit)
    else (throw .createDots : FsM Unit)
  else return

/-- Create an inode and the directory entry for it; returns it locked. -/
def create (p : ℕ) (path : Name) (type major minor : ℕ) : FsP (Option ℕ) := do
  match ← nameiparent p path with
  | none => return none
  | some (dp, name) =>
    ilock dp
    match ← dirlookup dp name with
    | some (ip, _) =>
      iunlockput dp
      ilock ip
      if type = tFile ∧ (← typeOf ip) = tFile then return some ip
      else
        iunlockput ip
        return none
    | none =>
      let ip ← ialloc type
      ilock ip
      update ip fun x => { x with major := major % 2 ^ 16, minor := minor % 2 ^ 16, nlink := 1 }
      createDots type dp ip
      let inum := ((← (get : FsM Fs)).inode ip).inum
      if ← dirlink dp name inum then
        iunlockput dp
        return some ip
      else (throw .createDirlink : FsM _)

/-- The end of `sys_open` for file `f`: `O_WRONLY` is bit 0 of the mode and `O_RDWR` bit 1. -/
def filesetup (f ip omode : ℕ) : FsM Unit :=
  modify fun s => s.setFile f
    { s.ftable f with
      type := .inode, ip := ip, off := 0, readable := !omode.testBit 0,
      writable := omode.testBit 0 || omode.testBit 1 }

/-- The end of `sys_open`: a file and a descriptor for the locked inode in slot `ip`. -/
def openInode (p ip omode : ℕ) : FsP ℤ := do
  match ← filealloc with
  | none =>
    iunlockput ip
    endOp
    return -1
  | some f =>
    match ← fdalloc p f with
    | none =>
      fileclose f
      iunlockput ip
      endOp
      return -1
    | some fd =>
      iunlock ip
      endOp
      filesetup f ip omode
      return fd

/-- `open` -/
def sysOpen (p : ℕ) (path : Name) (omode : ℕ) : FsP ℤ := do
  beginOp
  if omode &&& oCreate ≠ 0 then
    match ← create p path tFile 0 0 with
    | none =>
      endOp
      return -1
    | some ip => openInode p ip omode
  else
    match ← namei p path with
    | none =>
      endOp
      return -1
    | some ip =>
      ilock ip
      if (← typeOf ip) = tDir ∧ omode ≠ 0 then
        iunlockput ip
        endOp
        return -1
      else openInode p ip omode

/-- `mkdir` and `mknod`: create an inode and let it go. -/
def sysCreate (p : ℕ) (path : Name) (type major minor : ℕ) : FsP ℤ := do
  beginOp
  match ← create p path type major minor with
  | none =>
    endOp
    return -1
  | some ip =>
    iunlockput ip
    endOp
    return 0

/-- `mkdir` -/
def sysMkdir (p : ℕ) (path : Name) : FsP ℤ := sysCreate p path tDir 0 0

/-- `mknod` -/
def sysMknod (p : ℕ) (path : Name) (major minor : ℕ) : FsP ℤ := sysCreate p path tDev major minor

/-- Set the current directory of process `p`. -/
def setCwd (p ip : ℕ) : FsM Unit :=
  modify fun s => s.setProc p ((s.proc p).map fun x => { x with cwd := some ip })

/-- `chdir` -/
def sysChdir (p : ℕ) (path : Name) : FsP ℤ := do
  beginOp
  match ← namei p path with
  | none =>
    endOp
    return -1
  | some ip =>
    ilock ip
    if (← typeOf ip) ≠ tDir then
      iunlockput ip
      endOp
      return -1
    else
      iunlock ip
      iput ((← (get : FsM Fs)).cwd p)
      endOp
      setCwd p ip
      return 0

/-! ### Processes -/

/-- The transaction of `exec`. -/
def exec (p : ℕ) (path : Name) (vm : ℕ → Bool) : FsP ℤ := do
  beginOp
  match ← namei p path with
  | none =>
    endOp
    return -1
  | some ip =>
    ilock ip
    let ok ← onInode ip (Store.loadElf vm)
    iunlockput ip
    endOp
    return if ok then 0 else -1

/-- The loop of `fork` over the descriptors: count a reference for each open one below `n`. -/
def forkFiles (x : Proc) : ℕ → FsM Unit
  | 0 => return
  | n + 1 => do
    forkFiles x n
    match x.ofile n with
    | none => return
    | some f => filedup f

/-- `fork`, when `allocproc` finds the unused slot `c`. -/
def fork (p c : ℕ) : FsM ℤ := do
  let s ← get
  match s.proc p, s.proc c with
  | some x, none =>
    if nproc ≤ c then return -1
    else
      forkFiles x nofile
      let cwd ← idup (s.cwd p)
      modify fun s => s.setProc c (some { x with cwd := some cwd })
      return c
  | _, _ => return -1

/-- The loop of `exit` over the first `n` descriptors. -/
def exitFiles (p : ℕ) : ℕ → FsP Unit
  | 0 => return
  | n + 1 => do
    exitFiles p n
    match ← argfd p n with
    | none => return
    | some f =>
      fileclose f
      setFd p n none

/-- `exit`; process 0 is `init`. -/
def exit (p : ℕ) : FsP ℤ := do
  if p = 0 then (throw .initExiting : FsM _)
  else
    exitFiles p nofile
    beginOp
    iput ((← (get : FsM Fs)).cwd p)
    endOp
    (modify fun s => s.setProc p none : FsM Unit)
    return 0

/-! ### The system -/

/-- The system calls. -/
inductive Call
  | open (path : Name) (omode : ℕ)
  | close (fd : ℕ)
  | dup (fd : ℕ)
  | pipe (page : Option ℕ)
  | read (fd n : ℕ)
  | write (fd : ℕ) (addr : Bytes) (n : ℕ)
  | mkdir (path : Name)
  | mknod (path : Name) (major minor : ℕ)
  | link (old new : Name)
  | unlink (path : Name)
  | chdir (path : Name)
  | exec (path : Name) (vm : ℕ → Bool)
  | fork (child : ℕ)
  | exit

/-- The program of a call by process `p`. -/
def sys (p : ℕ) : Call → FsP ℤ
  | .open path omode => sysOpen p path omode
  | .close fd => sysClose p fd
  | .dup fd => sysDup p fd
  | .pipe page => do
    return (← sysPipe p page).elim (-1) fun _ => 0
  | .read fd n => do
    return (← sysRead p fd n).elim (-1) fun r => r.1
  | .write fd addr n => sysWrite p fd addr n
  | .mkdir path => sysMkdir p path
  | .mknod path major minor => sysMknod p path major minor
  | .link old new => sysLink p old new
  | .unlink path => sysUnlink p path
  | .chdir path => sysChdir p path
  | .exec path vm => exec p path vm
  | .fork child => fork p child
  | .exit => exit p

/-- The file system and its inode locks. -/
abbrev State := Fs × Prog.Locks ℕ ℕ

/-- Process `p` performs a call, alone. -/
def perform (p : ℕ) (c : Call) : EStateM (Halt ℕ Panic) State ℤ := (sys p c).seq p

/-- The step function: a call by a process that exists, if it returns. -/
def step (s : State) (l : ℕ × Call) : Option State :=
  if (s.1.proc l.1).isSome then
    match perform l.1 l.2 s with
    | .ok _ s' => some s'
    | .error _ _ => none
  else none

/-- Calls one after the other. -/
def system : LTS State (ℕ × Call) := .ofFun step

/-- The file system as `iinit`, `initlog` and `userinit` leave it: process 0 is in the root
directory. -/
def boot (disk : Disk) (devread : ℕ → Option (ℕ → Option (ℕ × Bytes)))
    (devwrite : ℕ → Option (ℕ → Option ℕ)) : Fs where
  store :=
    { sb := .get (disk 1), disk := disk, logsize := (Superblock.get
        (disk 1)).nlog, outstanding := 0,
      lh := [], devread := devread, devwrite := devwrite }
  icache i := if i = 0 then ⟨1, false, ⟨.zero, rootino⟩⟩ else ⟨0, false, ⟨.zero, 0⟩⟩
  ftable _ := ⟨.none, 0, false, false, 0, 0, 0⟩
  pipe _ := none
  proc p := if p = 0 then some ⟨some 0, fun _ => none⟩ else none
  txns := []
  found := []

end Fs

end Xv6
