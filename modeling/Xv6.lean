import Xv6.Bytes.Basic
import Xv6.LTS.Basic
import Xv6.Prog.Update
import Xv6.Prog.Wp
import Xv6.Prog.Basic
import Xv6.Prog.Visits
import Xv6.Param
import Xv6.Log.Commit
import Xv6.Log.Recovery
import Xv6.Log.Protocol
import Xv6.Log.GroupCommit
import Xv6.Log.Reservation
import Xv6.Fs.Layout
import Xv6.Fs.Store
import Xv6.Fs.Inode
import Xv6.Fs.Dir
import Xv6.Fs.Syscall
import Xv6.Alloc.Ownership
import Xv6.Fs.View
import Xv6.Fs.Blocks
import Xv6.Fs.Bmap
import Xv6.Fs.Image
import Xv6.Fs.Contents
import Xv6.Fs.Files
import Xv6.Fs.Trunc
import Xv6.Fs.Entries
import Xv6.Fs.Cache
import Xv6.Fs.Invariant
import Xv6.Fs.Steps
import Xv6.Fs.Tables
import Xv6.Fs.Calls
import Xv6.Fs.Runs
import Xv6.Fs.Shared
import Xv6.Ring.Basic
import Xv6.Pipe.Protocol
import Xv6.Pipe.Step
import Xv6.Pipe.Fifo
import Xv6.Pipe.Wakeup
import Xv6.Ptable.Protocol
import Xv6.Ptable.Table
import Xv6.Ptable.Step
import Xv6.Ptable.Schedule
import Xv6.Ptable.Tree
import Xv6.Ptable.Notify
import Xv6.Ptable.Kill
import Xv6.Sleeplock.Protocol
import Xv6.Sleeplock.Safety
import Xv6.Console.Input
import Xv6.Console.Refine
import Xv6.Shell.Parse
import Xv6.Shell.Grammar
import Xv6.Shell.Terminate
import Xv6.Vm.Memory
import Xv6.Vm.Paging
import Xv6.Vm.Copyout
import Xv6.Vm.Ownership
import Xv6.Vm.Map
import Xv6.Vm.Setup
import Xv6.Vm.User
import Xv6.Vm.Kernel
import Xv6.Vm.Process
import Xv6.Vm.Exec
import Xv6.Vm.Pages
import Xv6.Vm.Grow
import Xv6.Vm.Fork
import Xv6.Vm.Sbrk
import Xv6.Vm.Boot
import Xv6.Dll.Basic
import Xv6.Bio.Cache
import Xv6.Bio.Refine
import Xv6.Bio.Pinned
import Xv6.Bio.Swap
import Xv6.Bio.Store
import Xv6.Mkfs.Model
import Xv6.Mkfs.Refine
import Xv6.Mkfs.Image
import Xv6.Mkfs.Read
import Xv6.Grep.Match
import Xv6.Grep.Lines
import Xv6.Malloc.Runs
import Xv6.Ide.Queue
import Xv6.Fs.DirMap
import Xv6.Fs.Path
import Xv6.Lib.Memmove
import Xv6.Mp.Init
import Xv6.Syscall.Args
import Xv6.Vm.Mappages
import Xv6.Bio.Status
import Xv6.Boot.Load
import Xv6.Spinlock.Interrupts
import Xv6.Vm.Argv
import Xv6.Ptable.RoundRobin
import Xv6.Asm.Swtch
