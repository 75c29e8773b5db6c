import Xv6.Lib.Bytes
import Xv6.Lib.Except
import Xv6.Lib.Ownership
import Xv6.Lib.Refcount
import Xv6.Lib.Transition
import Xv6.Lib.Writes
import Xv6.Lib.Wp
import Xv6.Param
import Xv6.Bio
import Xv6.Bio.Theorems
import Xv6.Log
import Xv6.Log.System
import Xv6.Log.Header
import Xv6.Log.Recovery
import Xv6.Log.Group
import Xv6.Log.Commit
import Xv6.Log.Invariant
import Xv6.Log.Theorems
import Xv6.Log.Admission
import Xv6.Riscv
import Xv6.Kalloc
import Xv6.Vm
import Xv6.Vm.Copyout
import Xv6.Vm.Copyin
import Xv6.Fs
import Xv6.Sysfile
import Xv6.File
import Xv6.Fs.Own
import Xv6.Fs.Table
import Xv6.Fs.Inode
import Xv6.Fs.Content
import Xv6.Fs.Bytes
import Xv6.Fs.Trunc
import Xv6.Fs.Ref
import Xv6.Fs.Dir
import Xv6.Fs.Tree
import Xv6.Fs.Entries
import Xv6.Fs.Bitmap
import Xv6.Fs.Calls
import Xv6.Fs.Linked
import Xv6.Fs.Links
import Xv6.File.Invariant
import Xv6.File.Calls
import Xv6.Fs.Theorems
import Xv6.Fs.Logged
import Xv6.Fs.Logged.Synced
import Xv6.File.Theorems
import Xv6.File.Write
import Xv6.File.Read
import Xv6.File.Shared
import Xv6.Proc
import Xv6.Proc.Invariant
import Xv6.Proc.Theorems
import Xv6.Proc.Effects
import Xv6.Proc.Family
import Xv6.Proc.Progress
import Xv6.Proc.Kill
import Xv6.Proc.Reap
import Xv6.Sleep
import Xv6.Sleep.Invariant
import Xv6.Sleep.Wakeup
import Xv6.Sleep.Outline
import Xv6.Sleep.Kill
import Xv6.Sleeplock
import Xv6.Pipe
import Xv6.Pipe.Theorems
import Xv6.Console
import Xv6.Uart
import Xv6.Memmove
import Xv6.Clock
import Xv6.Clock.Theorems
import Xv6.Proc.Spared
import Xv6.Killed
import Xv6.Lib.Ring
import Xv6.Lib.Forest
import Xv6.Lib.Pages
import Xv6.Kalloc.Theorems
import Xv6.Vm.Tables
import Xv6.Vm.Walk
import Xv6.Vm.Map
import Xv6.Vm.Space
import Xv6.Proc.Lineage
import Xv6.Proc.Pids
import Xv6.Kernel
import Xv6.File.Writers
import Xv6.Kernel.Pagetable
import Xv6.Vm.Bindings
import Xv6.Vm.Image
import Xv6.File.Exact
import Xv6.File.ExactCalls
import Xv6.Kernel.Invariant
import Xv6.Kernel.Calls
import Xv6.Exec
import Xv6.Exec.Load
import Xv6.Exec.Stack
import Xv6.Exec.Theorems
import Xv6.Kernel.Boot
import Xv6.Kernel.Runs
import Xv6.Kernel.Theorems
import Xv6.Kernel.Sbrk
import Xv6.Exec.Arguments
import Xv6.Exec.Segments
import Xv6.Kernel.Isolation
import Xv6.Lib.Dll
import Xv6.Bio.Clients
import Xv6.Bio.Lru
import Xv6.Bio.Invariant
import Xv6.Bio.Integrity
import Xv6.Pipe.Read
import Xv6.Console.Line
import Xv6.Virtio
import Xv6.Virtio.Chains
import Xv6.Virtio.Invariant
import Xv6.Virtio.Theorems
import Xv6.Lib.Chain
import Xv6.Umalloc
import Xv6.Umalloc.Blocks
import Xv6.Umalloc.Free
import Xv6.Umalloc.Invariant
import Xv6.Umalloc.Malloc
import Xv6.Umalloc.Theorems
import Xv6.Umalloc.Overflow
import Xv6.Umalloc.Request
import Xv6.Lib.Simulation
import Xv6.Sh
import Xv6.Sh.Grammar
import Xv6.Sh.Scan
import Xv6.Sh.Refine
import Xv6.Sh.Theorems
import Xv6.Grep
import Xv6.Grep.Match
import Xv6.Grep.Theorems
import Xv6.Cat
import Xv6.Cat.Theorems
