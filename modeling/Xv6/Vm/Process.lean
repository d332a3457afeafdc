import Mathlib.Data.Int.Notation
import Xv6.Param
import Xv6.Ptable.Protocol
import Xv6.Vm.Paging

/-!
# Processes, pipes and their pages

What `main.c`, `proc.c`, `exec.c`, `pipe.c` and `file.c` do with pages.  The calls of the processes
happen one after the other; the state of a process that may make calls is `RUNNABLE` here, whether
it is running or asleep.  `struct pipe` is at the start of its page: `Kern.pipe p` is the one at
page `p`. What is written to kernel stacks is left out.
-/

namespace Xv6

namespace Vm

open Ptable (ProcState)

/-- `MAXARG` -/
abbrev maxarg : ℕ := 32

/-- `struct proc` -/
structure Proc where
  sz : ℕ
  pgdir : ℕ
  kstack : ℕ
  state : ProcState
  pid : ℕ
  parent : Option ℕ
  ofile : ℕ → Option ℕ

/-- The type of a `struct file`. -/
inductive FdType
  | none
  | pipe
  | inode
  deriving DecidableEq

/-- `struct file` -/
structure OpenFile where
  type : FdType
  ref : ℕ
  writable : Bool
  /-- The page of the pipe. -/
  pipe : ℕ

/-- `struct pipe`: which ends are open. -/
structure PipeEnds where
  readopen : Bool
  writeopen : Bool

/-- The data of the kernel. -/
structure Kern where
  proc : ℕ → Proc
  nextpid : ℕ
  initproc : ℕ
  /-- `ftable.file` -/
  file : ℕ → OpenFile
  pipe : ℕ → PipeEnds
  kpgdir : ℕ
  /-- The stacks that `startothers` has given to the CPUs. -/
  stack : ℕ → ℕ

/-- The machine. -/
structure Machine extends Kern where
  mem : Mem

/-- Actions of the kernel. -/
abbrev Kernel := EStateM Panic Machine

/-- An action on memory. -/
def onMem {α : Type} (f : Act α) : Kernel α := fun s =>
  match f s.mem with
  | .ok a m => .ok a { s with mem := m }
  | .error e m => .error e { s with mem := m }

/-- Change a `struct proc`. -/
def setProc (p : ℕ) (f : Proc → Proc) : Kernel Unit :=
  modify fun s => { s with proc := upd s.proc p (f (s.proc p)) }

/-- Change a `struct file`. -/
def setFile (f : ℕ) (x : OpenFile) : Kernel Unit :=
  modify fun s => { s with file := upd s.file f x }

/-- Change a `struct pipe`. -/
def setPipe (p : ℕ) (x : PipeEnds) : Kernel Unit :=
  modify fun s => { s with pipe := upd s.pipe p x }

/-! ## `file.c` and `pipe.c` -/

/-- `filealloc` -/
def filealloc : Kernel (Option ℕ) := do
  let s ← get
  match (List.range nfile).find? fun f => (s.file f).ref = 0 with
  | none => return none
  | some f =>
    setFile f { s.file f with ref := 1 }
    return some f

/-- `filedup` -/
def filedup (f : ℕ) : Kernel Unit := do
  let x := (← get).file f
  if x.ref < 1 then throw .filedup
  setFile f { x with ref := x.ref + 1 }

/-- `pipeclose` -/
def pipeclose (k : Symbols) (p : ℕ) (writable : Bool) : Kernel Unit := do
  let x := (← get).pipe p
  let x := if writable then { x with writeopen := false } else { x with readopen := false }
  setPipe p x
  if !x.readopen && !x.writeopen then onMem (kfree k p)

/-- `fileclose`; what it does to an inode does not concern pages. -/
def fileclose (k : Symbols) (f : ℕ) : Kernel Unit := do
  let x := (← get).file f
  if x.ref < 1 then throw .fileclose
  if 0 < x.ref - 1 then setFile f { x with ref := x.ref - 1 }
  else
    setFile f { x with ref := 0, type := .none }
    if x.type = .pipe then pipeclose k x.pipe x.writable

/-- `pipealloc` -/
def pipealloc (k : Symbols) : Kernel (Option (ℕ × ℕ)) := do
  match ← filealloc with
  | none => return none
  | some f0 =>
    match ← filealloc with
    | none =>
      fileclose k f0
      return none
    | some f1 =>
      match ← onMem kalloc with
      | none =>
        fileclose k f0
        fileclose k f1
        return none
      | some p =>
        setPipe p ⟨true, true⟩
        setFile f0 { (← get).file f0 with type := .pipe, writable := false, pipe := p }
        setFile f1 { (← get).file f1 with type := .pipe, writable := true, pipe := p }
        return some (f0, f1)

/-- Set a descriptor. -/
def setFd (cur fd : ℕ) (f : Option ℕ) : Kernel Unit :=
  setProc cur fun p => { p with ofile := upd p.ofile fd f }

/-- `fdalloc` -/
def fdalloc (cur f : ℕ) : Kernel (Option ℕ) := do
  let s ← get
  match (List.range nofile).find? fun fd => (s.proc cur).ofile fd = none with
  | none => return none
  | some fd =>
    setFd cur fd (some f)
    return some fd

/-- `argfd` -/
def argfd (cur fd : ℕ) : Kernel (Option ℕ) := do
  let p := (← get).proc cur
  return if fd < nofile then p.ofile fd else none

/-- `sys_pipe` -/
def sysPipe (k : Symbols) (cur : ℕ) : Kernel ℤ := do
  match ← pipealloc k with
  | none => return -1
  | some (rf, wf) =>
    match ← fdalloc cur rf with
    | none =>
      fileclose k rf
      fileclose k wf
      return -1
    | some fd0 =>
      match ← fdalloc cur wf with
      | none =>
        setFd cur fd0 none
        fileclose k rf
        fileclose k wf
        return -1
      | some _ => return 0

/-- `sys_close` -/
def sysClose (k : Symbols) (cur fd : ℕ) : Kernel ℤ := do
  match ← argfd cur fd with
  | none => return -1
  | some f =>
    setFd cur fd none
    fileclose k f
    return 0

/-! ## `proc.c` -/

/-- `allocproc` -/
def allocproc : Kernel (Option ℕ) := do
  let s ← get
  match (List.range nproc).find? fun p => (s.proc p).state = .unused with
  | none => return none
  | some p =>
    setProc p fun x => { x with state := .embryo, pid := s.nextpid }
    modify fun s => { s with nextpid := s.nextpid + 1 }
    match ← onMem kalloc with
    | none =>
      setProc p fun x => { x with kstack := 0, state := .unused }
      return none
    | some kstack =>
      setProc p fun x => { x with kstack }
      return some p

/-- `userinit` -/
def userinit (k : Symbols) (initcode : Bytes) (size : ℕ) : Kernel Unit := do
  match ← allocproc with
  | none => throw .nullDeref
  | some p =>
    modify fun s => { s with initproc := p }
    match ← onMem (setupkvm k) with
    | none => throw .userinit
    | some pgdir =>
      setProc p fun x => { x with pgdir }
      onMem (inituvm pgdir initcode size)
      setProc p fun x => { x with sz := pgSize, state := .runnable }

/-- `growproc` -/
def growproc (k : Symbols) (cur : ℕ) (n : ℤ) : Kernel ℤ := do
  let p := (← get).proc cur
  let newsz := ((p.sz + n) % uintSize).toNat
  if 0 < n then
    let sz ← onMem (allocuvm k p.pgdir p.sz newsz)
    if sz = 0 then return -1
    setProc cur fun x => { x with sz }
    return 0
  else if n < 0 then
    let sz ← onMem (deallocuvm k p.pgdir p.sz newsz)
    if sz = 0 then return -1
    setProc cur fun x => { x with sz }
    return 0
  else return 0

/-- `sys_sbrk` -/
def sysSbrk (k : Symbols) (cur : ℕ) (n : ℤ) : Kernel ℤ := do
  let addr := ((← get).proc cur).sz
  if (← growproc k cur n) < 0 then return -1
  return addr

/-- The loop of `fork` that copies the descriptors `fds`. -/
def dupFiles (cur np : ℕ) : List ℕ → Kernel Unit
  | [] => pure ()
  | fd :: fds => do
    match ((← get).proc cur).ofile fd with
    | none => pure ()
    | some f =>
      filedup f
      setFd np fd (some f)
    dupFiles cur np fds

/-- `fork` -/
def fork (k : Symbols) (cur : ℕ) : Kernel ℤ := do
  match ← allocproc with
  | none => return -1
  | some np =>
    let p := (← get).proc cur
    match ← onMem (copyuvm k p.pgdir p.sz) with
    | none =>
      onMem (kfree k ((← get).proc np).kstack)
      setProc np fun x => { x with pgdir := 0, kstack := 0, state := .unused }
      return -1
    | some pgdir =>
      setProc np fun x => { x with pgdir, sz := p.sz, parent := some cur }
      dupFiles cur np (List.range nofile)
      setProc np fun x => { x with state := .runnable }
      return ((← get).proc np).pid

/-- The loop of `exit` that closes the descriptors `fds`. -/
def closeFiles (k : Symbols) (cur : ℕ) : List ℕ → Kernel Unit
  | [] => pure ()
  | fd :: fds => do
    match ((← get).proc cur).ofile fd with
    | none => pure ()
    | some f =>
      fileclose k f
      setFd cur fd none
    closeFiles k cur fds

/-- Pass the children of `cur` to init. -/
def reparent (cur : ℕ) (s : Machine) : Machine :=
  { s with
    proc := fun i =>
      if i < nproc ∧ (s.proc i).parent = some cur then { s.proc i with parent := some s.initproc }
      else s.proc i }

/-- `exit` -/
def exit (k : Symbols) (cur : ℕ) : Kernel Unit := do
  if cur = (← get).initproc then throw .initExiting
  closeFiles k cur (List.range nofile)
  modify (reparent cur)
  setProc cur fun x => { x with state := .zombie }

/-- `wait`: the first exited child.  If there is none, the process has no children or goes to
sleep. -/
def wait (k : Symbols) (cur : ℕ) : Kernel ℤ := do
  let s ← get
  match (List.range nproc).find? fun p => (s.proc p).parent = some cur ∧
    (s.proc p).state = .zombie with
  | none => return -1
  | some p =>
    let x := s.proc p
    onMem (kfree k x.kstack)
    setProc p fun x => { x with kstack := 0 }
    onMem (freevm k x.pgdir)
    setProc p fun x => { x with pid := 0, parent := none, state := .unused }
    return x.pid

/-! ## `exec.c` -/

/-- `struct elfhdr` -/
structure Elfhdr where
  magic : ℕ
  phoff : ℕ
  phnum : ℕ

/-- The first bytes of a program file. -/
def Elfhdr.get (d : Bytes) : Elfhdr := ⟨d.getLE 4 0, d.getLE 4 28, d.getLE 2 44⟩

/-- `sizeof(struct elfhdr)` -/
abbrev elfhdrSize : ℕ := 52

/-- `ELF_MAGIC` -/
abbrev elfMagic : ℕ := 0x464C457F

/-- `struct proghdr` -/
structure Proghdr where
  type : ℕ
  off : ℕ
  vaddr : ℕ
  filesz : ℕ
  memsz : ℕ

/-- A program header in a file. -/
def Proghdr.get (d : Bytes) : Proghdr :=
  ⟨d.getLE 4 0, d.getLE 4 4, d.getLE 4 8, d.getLE 4 16, d.getLE 4 20⟩

/-- `sizeof(struct proghdr)` -/
abbrev proghdrSize : ℕ := 32

/-- `ELF_PROG_LOAD` -/
abbrev elfProgLoad : ℕ := 1

/-- Subtraction of `uint`s. -/
def usub (a b : ℕ) : ℕ := (a + uintSize - b % uintSize) % uintSize

/-- The loop of `exec` that loads the program, with `n` headers to go: the size, or `none` for
`goto bad`. -/
def loadProgram (k : Symbols) (pgdir : ℕ) (ip : File) : ℕ → ℕ → ℕ → Act (Option ℕ)
  | 0, _, sz => return some sz
  | n + 1, off, sz => do
    if ip.readi off proghdrSize ≠ proghdrSize then return none
    else
      let ph := Proghdr.get (ip.bytes.drop off)
      let off := (off + proghdrSize) % uintSize
      if ph.type ≠ elfProgLoad then loadProgram k pgdir ip n off sz
      else if ph.memsz < ph.filesz then return none
      else if (ph.vaddr + ph.memsz) % uintSize < ph.vaddr then return none
      else
        let sz ← allocuvm k pgdir sz ((ph.vaddr + ph.memsz) % uintSize)
        if sz = 0 then return none
        else if ph.vaddr % pgSize ≠ 0 then return none
        else if (← loaduvm pgdir ph.vaddr ip ph.off ph.filesz) < 0 then return none
        else loadProgram k pgdir ip n off sz

/-- A string and the 0 after it. -/
def cString (s : List UInt8) : Bytes := fun i => s.getD i 0

/-- The loop of `exec` that pushes the arguments: the stack pointer and the addresses of the
strings. -/
def pushArgs (pgdir : ℕ) : List (List UInt8) → ℕ → List ℕ → Act (Option (ℕ × List ℕ))
  | [], sp, ustack => return some (sp, ustack)
  | s :: argv, sp, ustack => do
    if maxarg ≤ ustack.length then return none
    else
      let sp := usub sp (s.length + 1) / 4 * 4
      if (← copyout pgdir sp (cString s) (s.length + 1)) < 0 then return none
      else pushArgs pgdir argv sp (ustack ++ [sp])

/-- The words of an array. -/
def wordBytes (ws : List ℕ) : Bytes := fun i => Bytes.le (ws.getD (i / 4) 0) (i % 4)

/-- `exec` after the header has been read: the size of the new image, or `none` for `goto bad`. -/
def loadImage (k : Symbols) (pgdir : ℕ) (ip : File) (elf : Elfhdr) (argv : List (List UInt8)) :
    Act (Option ℕ) := do
  match ← loadProgram k pgdir ip elf.phnum elf.phoff 0 with
  | none => return none
  | some sz =>
    let sz := pgRoundUp sz
    let sz ← allocuvm k pgdir sz ((sz + 2 * pgSize) % uintSize)
    if sz = 0 then return none
    else
      clearpteu pgdir (usub sz (2 * pgSize))
      match ← pushArgs pgdir argv sz [] with
      | none => return none
      | some (sp, args) =>
        let argc := args.length
        let ustack := [0xffffffff, argc, usub sp ((argc + 1) * 4)] ++ args ++ [0]
        let sp := usub sp ((3 + argc + 1) * 4)
        if (← copyout pgdir sp (wordBytes ustack) ((3 + argc + 1) * 4)) < 0 then return none
        else return some sz

/-- `exec` of the file that `namei` has found. -/
def exec (k : Symbols) (cur : ℕ) (ip : Option File) (argv : List (List UInt8)) : Kernel ℤ := do
  match ip with
  | none => return -1
  | some ip =>
    let elf := Elfhdr.get ip.bytes
    if ip.readi 0 elfhdrSize ≠ elfhdrSize then return -1
    else if elf.magic ≠ elfMagic then return -1
    else
      match ← onMem (setupkvm k) with
      | none => return -1
      | some pgdir =>
        match ← onMem (loadImage k pgdir ip elf argv) with
        | none =>
          onMem (freevm k pgdir)
          return -1
        | some sz =>
          let oldpgdir := ((← get).proc cur).pgdir
          setProc cur fun x => { x with pgdir, sz }
          onMem (freevm k oldpgdir)
          return 0

/-! ## Calls and booting -/

/-- What a process may do. -/
inductive Op
  | fork
  | exec (ip : Option File) (argv : List (List UInt8))
  | sbrk (n : ℤ)
  | exit
  | wait
  | pipe
  | close (fd : ℕ)

/-- Process `cur` makes a call. -/
def Op.perform (k : Symbols) (cur : ℕ) : Op → Kernel ℤ
  | .fork => Vm.fork k cur
  | .exec ip argv => Vm.exec k cur ip argv
  | .sbrk n => sysSbrk k cur n
  | .exit => do
    Vm.exit k cur
    return 0
  | .wait => Vm.wait k cur
  | .pipe => sysPipe k cur
  | .close fd => sysClose k cur fd

/-- A call: who makes it, and which calls of `kalloc` fail in it. -/
structure Call where
  cur : ℕ
  op : Op
  deny : ℕ → Bool

/-- The call by itself. -/
def Call.run (k : Symbols) (c : Call) (s : Machine) : EStateM.Result Panic Machine ℤ :=
  c.op.perform k c.cur { s with mem := { s.mem with deny := c.deny } }

/-- A process that exists makes a call; after a panic nothing happens any more. -/
def Machine.step (k : Symbols) (s : Machine) (c : Call) : Option Machine :=
  if (s.proc c.cur).state = .runnable then
    match c.run k s with
    | .ok _ s' => some s'
    | .error _ _ => none
  else none

/-- The loop of `startothers`, for the CPUs `cs`; nobody tests that there is a stack. -/
def startothers : List ℕ → Kernel Unit
  | [] => pure ()
  | c :: cs => do
    let stack ← onMem kalloc
    modify fun s => { s with stack := upd s.stack c (stack.getD 0) }
    startothers cs

/-- `main`, with `ncpu` CPUs and the given `initcode`. -/
def main (k : Symbols) (ncpu : ℕ) (initcode : Bytes) (size : ℕ) : Kernel Unit := do
  -- kinit1(end, P2V(4*1024*1024))
  onMem (freerange k k.first (1024 - k.first))
  -- kvmalloc, which loads %cr3 without testing that there is a page directory
  match ← onMem (setupkvm k) with
  | none => throw .nullDeref
  | some kpgdir =>
    modify fun s => { s with kpgdir }
    startothers ((List.range ncpu).drop 1)
    -- kinit2(P2V(4*1024*1024), P2V(PHYSTOP))
    onMem (freerange k 1024 (physTop / pgSize - 1024))
    userinit k initcode size

/-- The machine before `main`: nothing is known about the contents of memory. -/
def Machine.start (page : ℕ → Bytes) : Machine where
  proc _ := ⟨0, 0, 0, .unused, 0, none, fun _ => none⟩
  nextpid := 1
  initproc := 0
  file _ := ⟨.none, 0, false, 0⟩
  pipe _ := ⟨false, false⟩
  kpgdir := 0
  stack _ := 0
  mem := ⟨page, 0, fun _ => false⟩

end Vm

end Xv6
