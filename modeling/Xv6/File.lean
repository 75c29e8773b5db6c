import Xv6.Kalloc
import Xv6.Proc
import Xv6.Sysfile

namespace Xv6

open Wp
open Function (update)

-- kernel/fcntl.h
def O_RDONLY : BitVec 32 := 0x000
def O_WRONLY : BitVec 32 := 0x001
def O_RDWR : BitVec 32 := 0x002
def O_CREATE : BitVec 32 := 0x200
def O_TRUNC : BitVec 32 := 0x400

-- A struct file*.
abbrev Fd := Fin NFILE

-- The type of a struct file with the fields that go with it; a pipe is its page.
inductive FileKind
  | none
  | pipe (pi : ℕ)
  | inode (ip : Ip) (off : ℕ)
  | device (ip : Ip) (major : BitVec 16)
  deriving DecidableEq

structure File where
  ref : ℕ
  readable : Bool
  writable : Bool
  kind : FileKind

structure Pipe where
  readopen : Bool
  writeopen : Bool

-- What file.c, pipe.c and sysfile.c work on; cwd and ofile are those of proc[].
structure Files where
  ram : Ram
  fs : Fs
  ftable : Fd → File
  pipe : ℕ → Pipe
  cwd : Slot → Option Ip
  ofile : Slot → Fin NOFILE → Option Fd

-- null: a null pointer is followed.
inductive FileStop
  | fs (why : FsStop)
  | ram (why : Panic)
  | filedup
  | fileclose
  | fileread
  | null
  deriving DecidableEq, Repr

abbrev FilesM := StateT Files (Except FileStop)

namespace FilesM

def ofFs {α : Type} (m : FsM α) : FilesM α := zoom Files.fs (fun s fs => { s with fs := fs }) .fs m

def ofRam {α : Type} (m : RamM α) : FilesM α := zoom Files.ram (fun s ram => { s with ram := ram }) .ram m

end FilesM

namespace Files

def setFile (s : Files) (f : Fd) (g : File → File) : Files :=
  { s with ftable := update s.ftable f (g (s.ftable f)) }

def setFd (s : Files) (p : Slot) (fd : Fin NOFILE) (f : Option Fd) : Files :=
  { s with ofile := update s.ofile p (update (s.ofile p) fd f) }

def setCwd (s : Files) (p : Slot) (ip : Option Ip) : Files :=
  { s with cwd := update s.cwd p ip }

end Files

open FilesM

-- file.c and pipe.c.

def filealloc : FilesM (Option Fd) := do
  let s ← get
  match (List.finRange NFILE).find? fun f => (s.ftable f).ref == 0 with
  | some f =>
      set (s.setFile f fun file => { file with ref := 1 })
      return some f
  | none => return none

def filedup (f : Fd) : FilesM Fd := do
  if ((← get).ftable f).ref < 1 then throw .filedup
  else
    modify (·.setFile f fun file => { file with ref := file.ref + 1 })
    return f

def pipeclose (pi : ℕ) (writable : Bool) : FilesM Unit := do
  let pipe := (← get).pipe pi
  let pipe : Pipe := if writable then { pipe with writeopen := false } else { pipe with readopen := false }
  modify fun s => { s with pipe := update s.pipe pi pipe }
  if pipe.readopen = false ∧ pipe.writeopen = false then ofRam (kfree pi)

def fileclose (f : Fd) : FilesM Unit := do
  let ff := (← get).ftable f
  if ff.ref < 1 then throw .fileclose
  else if ff.ref - 1 > 0 then modify (·.setFile f fun file => { file with ref := file.ref - 1 })
  else
    modify (·.setFile f fun file => { file with ref := 0, kind := .none })
    match ff.kind with
    | .none => pure ()
    | .pipe pi => pipeclose pi ff.writable
    | .inode ip _ | .device ip _ =>
        ofFs do
          beginOp
          iput ip
          endOp

def FileKind.off : FileKind → ℕ
  | .inode _ off => off
  | _ => 0

-- f->off += r; the offset is a uint.
def FileKind.advance (r : ℕ) : FileKind → FileKind
  | .inode ip off => .inode ip ((off + r) % 2 ^ 32)
  | kind => kind

def Source.drop (src : Source) (i : ℕ) : Source where
  bytes k := src.bytes (i + k)
  limit := src.limit.map (· - i)

def WRITE_MAX : ℕ := (MAXOPBLOCKS - 1 - 1 - 2) / 2 * BSIZE

-- One transaction of filewrite.
def writeChunk (f : Fd) (ip : Ip) (src : Source) (n1 : ℕ) : FilesM Int := do
  ofFs beginOp
  ofFs (ilock ip)
  let r ← ofFs (writei ip src ((← get).ftable f).kind.off n1)
  if r > 0 then modify (·.setFile f fun file => { file with kind := file.kind.advance r.toNat })
  ofFs (iunlock ip)
  ofFs endOp
  return r

-- filewrite's loop from i on; n passes are enough.
def filewriteLoop (f : Fd) (ip : Ip) (src : Source) (n : ℕ) : (fuel i : ℕ) → FilesM Int
  | 0, i => return if i = n then n else -1
  | fuel + 1, i => do
      if i < n then
        let n1 := if n - i > WRITE_MAX then WRITE_MAX else n - i
        let r ← writeChunk f ip (src.drop i) n1
        if r ≠ n1 then return if i = n then n else -1
        else filewriteLoop f ip src n fuel (i + n1)
      else return if i = n then n else -1

-- filewrite of n bytes; other is what it does for pipes and devices.
def filewrite (other : FileKind → FilesM Int) (f : Fd) (src : Source) (n : ℕ) : FilesM Int := do
  let file := (← get).ftable f
  if file.writable = false then return -1
  else
    match file.kind with
    | .inode ip _ => filewriteLoop f ip src n n 0
    | kind => other kind

-- sysfile.c.

def fdalloc (p : Slot) (f : Fd) : FilesM (Option (Fin NOFILE)) := do
  let s ← get
  match (List.finRange NOFILE).find? fun fd => (s.ofile p fd).isNone with
  | some fd =>
      set (s.setFd p fd (some f))
      return some fd
  | none => return none

def argfd (p : Slot) (fd : Int) : FilesM (Option (Fin NOFILE × Fd)) := do
  if h : 0 ≤ fd ∧ fd < NOFILE then
    let i : Fin NOFILE := ⟨fd.toNat, by omega⟩
    return ((← get).ofile p i).map fun f => (i, f)
  else return none

def mycwd (p : Slot) : FilesM Ip := do
  match (← get).cwd p with
  | some ip => return ip
  | none => throw .null

def sysDup (p : Slot) (fd : Int) : FilesM Int := do
  match ← argfd p fd with
  | none => return -1
  | some (_, f) =>
      match ← fdalloc p f with
      | none => return -1
      | some fd =>
          discard (filedup f)
          return fd.val

def sysClose (p : Slot) (fd : Int) : FilesM Int := do
  match ← argfd p fd with
  | none => return -1
  | some (fd, f) =>
      modify (·.setFd p fd none)
      fileclose f
      return 0

-- The locked inode that sys_open opens.
def openInode (cwd : Ip) (path : List UInt8) (omode : BitVec 32) : FsM (Option Ip) := do
  if omode &&& O_CREATE ≠ 0 then create cwd path .file 0 0
  else
    match ← namei cwd path with
    | none => return none
    | some ip =>
        ilock ip
        if ((← get).itable ip).copy.type = .dir ∧ omode ≠ O_RDONLY then
          iunlockput ip
          return none
        else return some ip

-- iunlockput(ip); end_op(); return -1;
def openFail (ip : Ip) : FilesM Int := do
  ofFs do
    iunlockput ip
    endOp
  return -1

def openEnd (ip : Ip) (omode : BitVec 32) : FsM Unit := do
  if omode &&& O_TRUNC ≠ 0 ∧ ((← get).itable ip).copy.type = .file then itrunc ip
  iunlock ip
  endOp

def openFile (p : Slot) (ip : Ip) (omode : BitVec 32) : FilesM Int := do
  let copy := ((← get).fs.itable ip).copy
  if copy.type = .device ∧ (copy.major.toInt < 0 ∨ NDEV ≤ copy.major.toInt) then openFail ip
  else
    match ← filealloc with
    | none => openFail ip
    | some f =>
        match ← fdalloc p f with
        | none =>
            fileclose f
            openFail ip
        | some fd =>
            modify (·.setFile f fun file => { file with
              kind := if copy.type = .device then .device ip copy.major else .inode ip 0
              readable := omode &&& O_WRONLY = 0
              writable := omode &&& O_WRONLY ≠ 0 ∨ omode &&& O_RDWR ≠ 0 })
            ofFs (openEnd ip omode)
            return fd.val

def sysOpen (p : Slot) (path : Option (List UInt8)) (omode : BitVec 32) : FilesM Int := do
  match path with
  | none => return -1
  | some path =>
      ofFs beginOp
      match ← ofFs (openInode (← mycwd p) path omode) with
      | none =>
          ofFs endOp
          return -1
      | some ip => openFile p ip omode

-- sys_mkdir and sys_mknod: create, and let go of the inode.
def sysCreate (p : Slot) (path : Option (List UInt8)) (type : FileType) (major minor : BitVec 16) :
    FilesM Int := do
  ofFs beginOp
  match path with
  | none =>
      ofFs endOp
      return -1
  | some path =>
      match ← ofFs (create (← mycwd p) path type major minor) with
      | none =>
          ofFs endOp
          return -1
      | some ip =>
          ofFs do
            iunlockput ip
            endOp
          return 0

def sysMkdir (p : Slot) (path : Option (List UInt8)) : FilesM Int := sysCreate p path .dir 0 0

def sysMknod (p : Slot) (path : Option (List UInt8)) (major minor : BitVec 32) : FilesM Int :=
  sysCreate p path .device (major.setWidth 16) (minor.setWidth 16)

def sysChdir (p : Slot) (path : Option (List UInt8)) : FilesM Int := do
  ofFs beginOp
  match path with
  | none =>
      ofFs endOp
      return -1
  | some path =>
      match ← ofFs (namei (← mycwd p) path) with
      | none =>
          ofFs endOp
          return -1
      | some ip =>
          ofFs (ilock ip)
          if ((← get).fs.itable ip).copy.type ≠ .dir then
            ofFs do
              iunlockput ip
              endOp
            return -1
          else
            ofFs (iunlock ip)
            let cwd ← mycwd p
            ofFs do
              iput cwd
              endOp
            modify (·.setCwd p (some ip))
            return 0

-- proc.c: what fork does to the files of the child np, and exit to those of p.

def forkFiles (p np : Slot) : FilesM Unit := do
  (List.finRange NOFILE).forM fun fd => do
    match (← get).ofile p fd with
    | some f =>
        let f ← filedup f
        modify (·.setFd np fd (some f))
    | none => pure ()
  let cwd ← mycwd p
  let cwd ← ofFs (idup cwd)
  modify (·.setCwd np (some cwd))

def exitFiles (p : Slot) : FilesM Unit := do
  (List.finRange NOFILE).forM fun fd => do
    match (← get).ofile p fd with
    | some f =>
        fileclose f
        modify (·.setFd p fd none)
    | none => pure ()
  let cwd ← mycwd p
  ofFs do
    beginOp
    iput cwd
    endOp
  modify (·.setCwd p none)

end Xv6
