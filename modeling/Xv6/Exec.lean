import Xv6.Kernel

namespace Xv6

open Wp FilesM KernelM

-- elf.h

def ELF_MAGIC : ℕ := 0x464C457F
def ELF_PROG_LOAD : ℕ := 1

structure ElfHdr where
  magic : ℕ
  entry : ℕ
  phoff : ℕ
  phnum : ℕ

structure ProgHdr where
  type : ℕ
  flags : ℕ
  off : ℕ
  vaddr : ℕ
  filesz : ℕ
  memsz : ℕ

def ELFHDR_SIZE : ℕ := 64
def PROGHDR_SIZE : ℕ := 56

def ElfHdr.ofBytes (b : ℕ → UInt8) : ElfHdr where
  magic := Bytes.load b 0 4
  entry := Bytes.load b 24 8
  phoff := Bytes.load b 32 8
  phnum := Bytes.load b 56 2

def ProgHdr.ofBytes (b : ℕ → UInt8) : ProgHdr where
  type := Bytes.load b 0 4
  flags := Bytes.load b 4 4
  off := Bytes.load b 8 8
  vaddr := Bytes.load b 16 8
  filesz := Bytes.load b 32 8
  memsz := Bytes.load b 40 8

-- exec.c

def flags2perm (flags : ℕ) : ℕ :=
  (if flags.testBit 0 then PTE_X else 0) ||| (if flags.testBit 1 then PTE_W else 0)

-- readi into the kernel's memory.
def readKernel (ip : Ip) (dst : ℕ → UInt8) (off n : ℕ) : KernelM (Int × (ℕ → UInt8)) :=
  fs (readi ip (fun _ _ => true) dst off n)

-- loadseg's loop from i on, with count passes left.
def loadsegLoop (pagetable va : ℕ) (ip : Ip) (offset sz : ℕ) : (count i : ℕ) → KernelM Int
  | 0, _ => return 0
  | count + 1, i => do
      let pa := walkaddr (← get).files.ram.mem pagetable ((va + i) % 2 ^ 64)
      if pa = 0 then throw .loadseg
      let n := if sz - i < PGSIZE then sz - i else PGSIZE
      let (r, page) ← readKernel ip ((← get).files.ram.mem pa) ((offset + i) % 2 ^ 32) n
      ram (modify fun s => { s with mem := Function.update s.mem pa page })
      if r ≠ n then return -1
      else loadsegLoop pagetable va ip offset sz count (i + PGSIZE)

-- offset and sz are uints, and so is i, which wraps around before it gets to a
-- sz that is within a page of 2^32.
def loadseg (pagetable va : ℕ) (ip : Ip) (offset sz : ℕ) : KernelM Int :=
  if 2 ^ 32 - PGSIZE < sz then throw .loadsegLoop
  else loadsegLoop pagetable va ip offset sz ((sz + PGSIZE - 1) / PGSIZE) 0

-- One program header: the new sz, and whether to go on.
def loadHeader (pagetable : ℕ) (ip : Ip) (sz : ℕ) (ph : ProgHdr) : KernelM (ℕ × Bool) := do
  if ph.type ≠ ELF_PROG_LOAD then return (sz, true)
  else if ph.memsz < ph.filesz then return (sz, false)
  else if (ph.vaddr + ph.memsz) % 2 ^ 64 < ph.vaddr then return (sz, false)
  else if ph.vaddr % PGSIZE ≠ 0 then return (sz, false)
  else
    let sz₁ ← ram (uvmalloc pagetable sz ((ph.vaddr + ph.memsz) % 2 ^ 64) (flags2perm ph.flags))
    if sz₁ = 0 then return (sz, false)
    else if (← loadseg pagetable ph.vaddr ip (ph.off % 2 ^ 32) (ph.filesz % 2 ^ 32)) < 0 then return (sz₁, false)
    else return (sz₁, true)

-- The loop over the program headers; off is an int that readi takes as a uint.
def loadLoop (pagetable : ℕ) (ip : Ip) : (count off sz : ℕ) → KernelM (ℕ × Bool)
  | 0, _, sz => return (sz, true)
  | count + 1, off, sz => do
      let (r, b) ← readKernel ip (fun _ => 0) off PROGHDR_SIZE
      if r ≠ PROGHDR_SIZE then return (sz, false)
      else
        let (sz, more) ← loadHeader pagetable ip sz (.ofBytes b)
        if more then loadLoop pagetable ip count ((off + PROGHDR_SIZE) % 2 ^ 32) sz
        else return (sz, false)

-- sp -= n; sp -= sp % 16;
def pushDown (sp n : ℕ) : ℕ :=
  let sp := (sp + 2 ^ 64 - n) % 2 ^ 64
  sp - sp % 16

-- The argument strings; the result is sp and ustack.
def pushArgs (pagetable stackbase : ℕ) : (argv : List (List UInt8)) → (sp : ℕ) → (ustack : List ℕ) →
    RamM (Option (ℕ × List ℕ))
  | [], sp, ustack => return some (sp, ustack)
  | arg :: argv, sp, ustack => do
      if ustack.length ≥ MAXARG then return none
      else
        let sp := pushDown sp (arg.length + 1)
        if sp < stackbase then return none
        else if (← copyoutRam pagetable sp (fun k => arg.getD k 0) (arg.length + 1)) < 0 then return none
        else pushArgs pagetable stackbase argv sp (ustack ++ [sp])

def ustackBytes (ustack : List ℕ) (k : ℕ) : UInt8 := UInt8.ofNat (ustack.getD (k / 8) 0 / 256 ^ (k % 8))

-- The arguments and ustack, in the page below sz.
def stackRest (pagetable sz : ℕ) (argv : List (List UInt8)) : RamM (ℕ × Option ℕ) := do
  let stackbase := (sz + 2 ^ 64 - PGSIZE) % 2 ^ 64
  match ← pushArgs pagetable stackbase argv sz [] with
  | none => return (sz, none)
  | some (sp, ustack) =>
      let sp := pushDown sp ((ustack.length + 1) * 8)
      if sp < stackbase then return (sz, none)
      else if (← copyoutRam pagetable sp (ustackBytes ustack) ((ustack.length + 1) * 8)) < 0 then return (sz, none)
      else return (sz, some sp)

def execStack (pagetable sz : ℕ) (argv : List (List UInt8)) : RamM (ℕ × Option ℕ) := do
  let sz := pgRoundUp sz
  let sz₁ ← uvmalloc pagetable sz ((sz + 2 * PGSIZE) % 2 ^ 64) PTE_W
  if sz₁ = 0 then return (sz, none)
  else
    uvmclear pagetable ((sz₁ + 2 ^ 64 - 2 * PGSIZE) % 2 ^ 64)
    stackRest pagetable sz₁ argv

-- The last element of a path, as much of it as fits p->name.
def progName (path : List UInt8) : List UInt8 := (path.reverse.takeWhile (· ≠ slash)).reverse.take 15

-- bad: of exec.
def execBad (pagetable : Option ℕ) (sz : ℕ) (ip : Option Ip) : KernelM Unit := do
  match pagetable with
  | some pagetable => ram (procFreepagetable pagetable sz)
  | none => pure ()
  match ip with
  | some ip =>
      fs do
        iunlockput ip
        endOp
  | none => pure ()

-- exec from the stack on, when the program is loaded and the file is closed.
def execCommit (p : Slot) (path : List UInt8) (argv : List (List UInt8)) (elf : ElfHdr) (pagetable sz : ℕ) :
    KernelM Int := do
  let oldsz := ((← get).proc p).sz
  match ← ram (execStack pagetable sz argv) with
  | (sz, none) =>
      execBad (some pagetable) sz none
      return -1
  | (sz, some sp) =>
      let trapframe ← pointer ((← get).proc p).trapframe
      ram (setTrapframe trapframe TF_A1 sp)
      modify (·.setProc p fun q => { q with name := progName path })
      let oldpagetable ← pointer ((← get).proc p).pagetable
      modify (·.setProc p fun q => { q with pagetable := some pagetable, sz := sz })
      ram (setTrapframe trapframe TF_EPC elf.entry)
      ram (setTrapframe trapframe TF_SP sp)
      ram (procFreepagetable oldpagetable oldsz)
      return argv.length

def execOpen (p : Slot) (path : List UInt8) : KernelM (Option Ip) := do
  fs beginOp
  let cwd ← ofFiles (mycwd p)
  match ← fs (namei cwd path) with
  | none => return none
  | some ip =>
      fs (ilock ip)
      return some ip

-- exec up to the stack: the program is loaded and the file is closed.
def execLoad (p : Slot) (path : List UInt8) : KernelM (Option (ElfHdr × ℕ × ℕ)) := do
  match ← execOpen p path with
  | none =>
      fs endOp
      return none
  | some ip =>
      let (r, b) ← readKernel ip (fun _ => 0) 0 ELFHDR_SIZE
      let elf := ElfHdr.ofBytes b
      if r ≠ ELFHDR_SIZE then
        execBad none 0 (some ip)
        return none
      else if elf.magic ≠ ELF_MAGIC then
        execBad none 0 (some ip)
        return none
      else
        let trapframe ← pointer ((← get).proc p).trapframe
        match ← ram (procPagetable (← get).trampoline trapframe) with
        | none =>
            execBad none 0 (some ip)
            return none
        | some pagetable =>
            match ← loadLoop pagetable ip elf.phnum (elf.phoff % 2 ^ 32) 0 with
            | (sz, false) =>
                execBad (some pagetable) sz (some ip)
                return none
            | (sz, true) =>
                fs do
                  iunlockput ip
                  endOp
                return some (elf, pagetable, sz)

def exec (p : Slot) (path : List UInt8) (argv : List (List UInt8)) : KernelM Int := do
  match ← execLoad p path with
  | none => return -1
  | some (elf, pagetable, sz) => execCommit p path argv elf pagetable sz

-- syscall.c and sysfile.c

-- A uint64 of a process of sz bytes.
def fetchaddr (mem : Mem) (pagetable sz addr : ℕ) : Option ℕ :=
  if addr ≥ sz ∨ (addr + 8) % 2 ^ 64 > sz then none
  else
    let (bytes, r) := copyin mem pagetable addr 8
    if r ≠ 0 then none else some (Bytes.load (fun k => bytes.getD k 0) 0 8)

-- fetchstr into a page of the kernel; the string is none if it is too long or not there.
def fetchPage (pagetable addr page : ℕ) : RamM (Option (List UInt8)) := do
  let (bytes, r) := copyinstr (← get).mem pagetable addr PGSIZE
  modify fun s => { s with mem := s.mem.memmove page 0 (fun k => bytes.getD k 0) bytes.length }
  if r < 0 then return none
  else return some (bytes.takeWhile (· ≠ 0))

-- sys_exec's loop over argv: the pages it has taken, and the strings in them if all
-- arguments are there.
def argvLoop (pagetable sz uargv : ℕ) : (count i : ℕ) → RamM (List ℕ × Option (List (List UInt8)))
  | 0, _ => return ([], none)
  | count + 1, i => do
      match fetchaddr (← get).mem pagetable sz ((uargv + 8 * i) % 2 ^ 64) with
      | none => return ([], none)
      | some 0 => return ([], some [])
      | some (uarg + 1) =>
          match ← kalloc with
          | none => return ([], none)
          | some page =>
              match ← fetchPage pagetable (uarg + 1) page with
              | none => return ([page], none)
              | some arg =>
                  let (pages, args) ← argvLoop pagetable sz uargv count (i + 1)
                  return (page :: pages, args.map (arg :: ·))

-- exec reads the strings from the pages, which no one else has.
def sysExec (p : Slot) (path : Option (List UInt8)) (uargv : ℕ) : KernelM Int := do
  match path with
  | none => return -1
  | some path =>
      let q := (← get).proc p
      let pagetable ← pointer q.pagetable
      match ← ram (argvLoop pagetable q.sz uargv MAXARG 0) with
      | (pages, none) =>
          ram (pages.forM kfree)
          return -1
      | (pages, some args) =>
          let ret ← exec p path args
          ram (pages.forM kfree)
          return ret

end Xv6
