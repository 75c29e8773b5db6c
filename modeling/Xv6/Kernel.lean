import Xv6.File
import Xv6.Vm

namespace Xv6

open Wp FilesM

-- proc.c: page tables of processes. trampoline is the page of the trampoline code.

def procPagetable (trampoline trapframe : ℕ) : RamM (Option ℕ) := do
  match ← uvmcreate with
  | none => return none
  | some pagetable =>
      if (← mappages pagetable TRAMPOLINE PGSIZE trampoline (PTE_R ||| PTE_X)) < 0 then
        uvmfree pagetable 0
        return none
      else if (← mappages pagetable TRAPFRAME PGSIZE trapframe (PTE_R ||| PTE_W)) < 0 then
        uvmunmap pagetable TRAMPOLINE 1 false
        uvmfree pagetable 0
        return none
      else return some pagetable

def procFreepagetable (pagetable sz : ℕ) : RamM Unit := do
  uvmunmap pagetable TRAMPOLINE 1 false
  uvmunmap pagetable TRAPFRAME 1 false
  uvmfree pagetable sz

def copyoutRam (pagetable dstva : ℕ) (src : ℕ → UInt8) (len : ℕ) : RamM Int := do
  let s ← get
  let (mem, r) := copyout s.mem pagetable dstva src len
  set { s with mem := mem }
  return r

def intBytes (n : Int) : ℕ → UInt8 := fun k => UInt8.ofNat ((n % 2 ^ 32).toNat / 256 ^ k)

-- pipe.c and sysfile.c: pipes.

def pipeBad (f₀ f₁ : Option Fd) : FilesM (Option (Fd × Fd)) := do
  match f₀ with
  | some f => fileclose f
  | none => pure ()
  match f₁ with
  | some f => fileclose f
  | none => pure ()
  return none

-- The read end and the write end.
def pipealloc : FilesM (Option (Fd × Fd)) := do
  match ← filealloc with
  | none => pipeBad none none
  | some f₀ =>
      match ← filealloc with
      | none => pipeBad (some f₀) none
      | some f₁ =>
          match ← ofRam kalloc with
          | none => pipeBad (some f₀) (some f₁)
          | some pi =>
              modify fun s => { s with pipe := Function.update s.pipe pi ⟨true, true⟩ }
              modify (·.setFile f₀ fun f => { f with kind := .pipe pi, readable := true, writable := false })
              modify (·.setFile f₁ fun f => { f with kind := .pipe pi, readable := false, writable := true })
              return some (f₀, f₁)

def sysPipe (p : Slot) (pagetable fdarray : ℕ) : FilesM Int := do
  match ← pipealloc with
  | none => return -1
  | some (rf, wf) =>
      match ← fdalloc p rf with
      | none =>
          fileclose rf
          fileclose wf
          return -1
      | some fd₀ =>
          match ← fdalloc p wf with
          | none =>
              modify (·.setFd p fd₀ none)
              fileclose rf
              fileclose wf
              return -1
          | some fd₁ =>
              if (← ofRam (copyoutRam pagetable fdarray (intBytes fd₀.val) 4)) < 0 then pipeUndo rf wf fd₀ fd₁
              else if (← ofRam (copyoutRam pagetable ((fdarray + 4) % 2 ^ 64) (intBytes fd₁.val) 4)) < 0 then
                pipeUndo rf wf fd₀ fd₁
              else return 0
where
  pipeUndo (rf wf : Fd) (fd₀ fd₁ : Fin NOFILE) : FilesM Int := do
    modify (·.setFd p fd₀ none)
    modify (·.setFd p fd₁ none)
    fileclose rf
    fileclose wf
    return -1

-- struct proc, without what belongs to the scheduler and to files; name is up to its NUL.
structure UserProc where
  state : ProcState
  pid : Int
  parent : Option Slot
  killed : Bool
  xstate : Int
  sz : ℕ
  pagetable : Option ℕ
  trapframe : Option ℕ
  name : List UInt8

-- The kernel between system calls. kernelPagetable is the root of the kernel's
-- page table, kstack are the pages of the kernel stacks and disk those of the
-- virtio queue.
structure Kernel where
  files : Files
  proc : Slot → UserProc
  nextpid : Int
  initproc : Slot
  trampoline : ℕ
  kernelPagetable : ℕ
  kstack : Slot → ℕ
  disk : Fin 3 → ℕ

-- loadsegLoop: the loop of loadseg does not end.
inductive KernelStop
  | file (why : FileStop)
  | loadseg
  | loadsegLoop
  | initExiting
  deriving DecidableEq, Repr

abbrev KernelM := StateT Kernel (Except KernelStop)

namespace KernelM

def ofFiles {α : Type} (m : FilesM α) : KernelM α :=
  zoom Kernel.files (fun s files => { s with files := files }) .file m

def ram {α : Type} (m : RamM α) : KernelM α := ofFiles (ofRam m)

def fs {α : Type} (m : FsM α) : KernelM α := ofFiles (ofFs m)

end KernelM

namespace Kernel

def setProc (s : Kernel) (p : Slot) (f : UserProc → UserProc) : Kernel :=
  { s with proc := Function.update s.proc p (f (s.proc p)) }

end Kernel

open KernelM

-- proc.c.

def freeproc (p : Slot) : KernelM Unit := do
  let q := (← get).proc p
  match q.trapframe with
  | some page => ram (kfree page)
  | none => pure ()
  match q.pagetable with
  | some pagetable => ram (procFreepagetable pagetable q.sz)
  | none => pure ()
  modify (·.setProc p fun _ => ⟨.unused, 0, none, false, 0, 0, none, none, []⟩)

def allocproc : KernelM (Option Slot) := do
  let s ← get
  match (List.finRange NPROC).find? fun p => (s.proc p).state == .unused with
  | none => return none
  | some p =>
      set { s.setProc p (fun q => { q with pid := s.nextpid, state := .used }) with
        nextpid := Sched.wrapInt (s.nextpid + 1) }
      let trapframe ← ram kalloc
      modify (·.setProc p fun q => { q with trapframe := trapframe })
      match trapframe with
      | none =>
          freeproc p
          return none
      | some page =>
          let pagetable ← ram (procPagetable s.trampoline page)
          modify (·.setProc p fun q => { q with pagetable := pagetable })
          match pagetable with
          | none =>
              freeproc p
              return none
          | some _ => return some p

-- A pointer that the caller follows.
def pointer {α : Type} (o : Option α) : KernelM α :=
  match o with
  | some a => return a
  | none => throw (.file .null)

def growproc (p : Slot) (n : Int) : KernelM Int := do
  let q := (← get).proc p
  let pagetable ← pointer q.pagetable
  if n > 0 then
    let sz ← ram (uvmalloc pagetable q.sz ((q.sz + n.toNat) % 2 ^ 64) PTE_W)
    if sz = 0 then return -1
    else
      modify (·.setProc p fun q => { q with sz := sz })
      return 0
  else if n < 0 then
    let sz ← ram (uvmdealloc pagetable q.sz (((q.sz : Int) + n) % 2 ^ 64).toNat)
    modify (·.setProc p fun q => { q with sz := sz })
    return 0
  else return 0

-- sysproc.c.
def sysSbrk (p : Slot) (n : BitVec 32) : KernelM Int := do
  let addr := ((← get).proc p).sz
  if (← growproc p n.toInt) < 0 then return -1
  else return addr

-- The fields of struct trapframe that fork and exec set.
def TF_EPC : ℕ := 24
def TF_SP : ℕ := 48
def TF_A0 : ℕ := 112
def TF_A1 : ℕ := 120
def TF_SIZE : ℕ := 288

def setTrapframe (page field value : ℕ) : RamM Unit :=
  modify fun s => { s with mem := Function.update s.mem page (Bytes.store (s.mem page) field 8 value) }

def fork (p : Slot) : KernelM Int := do
  match ← allocproc with
  | none => return -1
  | some np =>
      let s ← get
      let old ← pointer (s.proc p).pagetable
      let new ← pointer (s.proc np).pagetable
      let src ← pointer (s.proc p).trapframe
      let dst ← pointer (s.proc np).trapframe
      if (← ram (uvmcopy old new (s.proc p).sz)) < 0 then
        freeproc np
        return -1
      else
        modify (·.setProc np fun q => { q with sz := (s.proc p).sz })
        ram do
          modify fun s => { s with mem := s.mem.memmove dst 0 (s.mem src) TF_SIZE }
          setTrapframe dst TF_A0 0
        ofFiles (forkFiles p np)
        modify (·.setProc np fun q => { q with name := (s.proc p).name })
        modify (·.setProc np fun q => { q with parent := some p })
        modify (·.setProc np fun q => { q with state := .runnable })
        return (s.proc np).pid

def reparent (p : Slot) : KernelM Unit :=
  modify fun s => { s with
    proc := fun i => if (s.proc i).parent = some p then { s.proc i with parent := some s.initproc } else s.proc i }

-- exit up to the call of sched, from which it does not return.
def exit (p : Slot) (status : Int) : KernelM Unit := do
  if p = (← get).initproc then throw .initExiting
  ofFiles (exitFiles p)
  reparent p
  modify (·.setProc p fun q => { q with xstate := status, state := .zombie })

-- none if it goes to sleep.
def wait (p : Slot) (addr : ℕ) : KernelM (Option Int) := do
  let s ← get
  match (List.finRange NPROC).find? fun i => (s.proc i).parent == some p && (s.proc i).state == .zombie with
  | some i =>
      let pagetable ← pointer (s.proc p).pagetable
      if addr ≠ 0 then
        if (← ram (copyoutRam pagetable addr (intBytes (s.proc i).xstate) 4)) < 0 then return some (-1)
      freeproc i
      return some (s.proc i).pid
  | none =>
      if (List.finRange NPROC).any (fun i => (s.proc i).parent == some p) && !(s.proc p).killed then return none
      else return some (-1)

-- vm.c and proc.c: the first process.

-- The result of mappages is not looked at.
def uvmfirst (pagetable : ℕ) (src : List UInt8) : KernelM Unit := do
  if src.length ≥ PGSIZE then throw (.file (.ram .uvmfirst))
  let page ← pointer (← ram kalloc)
  ram do
    modify fun s => { s with mem := s.mem.memset page 0 }
    let _ ← mappages pagetable 0 PGSIZE page (PTE_W ||| PTE_R ||| PTE_X ||| PTE_U)
    modify fun s => { s with mem := s.mem.memmove page 0 (fun k => src.getD k 0) src.length }

def initcode : List UInt8 :=
  [0x17, 0x05, 0x00, 0x00, 0x13, 0x05, 0x45, 0x02,
   0x97, 0x05, 0x00, 0x00, 0x93, 0x85, 0x35, 0x02,
   0x93, 0x08, 0x70, 0x00, 0x73, 0x00, 0x00, 0x00,
   0x93, 0x08, 0x20, 0x00, 0x73, 0x00, 0x00, 0x00,
   0xef, 0xf0, 0x9f, 0xff, 0x2f, 0x69, 0x6e, 0x69,
   0x74, 0x00, 0x00, 0x24, 0x00, 0x00, 0x00, 0x00,
   0x00, 0x00, 0x00, 0x00]

-- "initcode"
def initname : List UInt8 := [0x69, 0x6e, 0x69, 0x74, 0x63, 0x6f, 0x64, 0x65]

-- namei("/") is the root inode.
def Kernel.userinit : KernelM Unit := do
  let p ← pointer (← allocproc)
  modify fun s => { s with initproc := p }
  uvmfirst (← pointer ((← get).proc p).pagetable) initcode
  modify (·.setProc p fun q => { q with sz := PGSIZE })
  let trapframe ← pointer ((← get).proc p).trapframe
  ram (setTrapframe trapframe TF_EPC 0)
  ram (setTrapframe trapframe TF_SP PGSIZE)
  modify (·.setProc p fun q => { q with name := initname })
  let ip ← fs (iget ROOTDEV ROOTINO)
  modify fun s => { s with files := s.files.setCwd p (some ip) }
  modify (·.setProc p fun q => { q with state := .runnable })

end Xv6
