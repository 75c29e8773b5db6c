import Xv6.Lib.Ring
import Xv6.Sleep.Outline

namespace Xv6

def PIPESIZE : ℕ := 512

-- struct pipe without its lock, with the bytes that pipewrite has stored and those that
-- piperead has copied out, both in order.
structure PipeBuf where
  data : ℕ → UInt8
  nread : BitVec 32
  nwrite : BitVec 32
  readopen : Bool
  writeopen : Bool
  accepted : List UInt8
  delivered : List UInt8

namespace PipeBuf

open Sleep

-- pipealloc, on a page with any bytes
def alloc (data : ℕ → UInt8) : PipeBuf := ⟨data, 0, 0, true, true, [], []⟩

def empty (pi : PipeBuf) : Bool := pi.nread = pi.nwrite

def full (pi : PipeBuf) : Bool := pi.nwrite = pi.nread + BitVec.ofNat 32 PIPESIZE

-- pi->data[pi->nwrite++ % PIPESIZE] = ch
def store (pi : PipeBuf) (ch : UInt8) : PipeBuf :=
  { pi with
    data := Function.update pi.data (pi.nwrite.toNat % PIPESIZE) ch
    nwrite := pi.nwrite + 1
    accepted := pi.accepted ++ [ch] }

-- ch = pi->data[pi->nread++ % PIPESIZE], and the copyout of ch
def take (pi : PipeBuf) (copied : Bool) : PipeBuf :=
  { pi with
    nread := pi.nread + 1
    delivered := if copied then pi.delivered ++ [pi.data (pi.nread.toNat % PIPESIZE)] else pi.delivered }

inductive Chan
  | nread | nwrite
  deriving DecidableEq

inductive Choice
  -- the system call of an idle process
  | piperead (n : Int) | pipewrite (n : Int) | pipeclose (writable : Bool) | kill (pid : Int)
  -- copyin of the next byte, if it succeeds, and whether copyout does
  | copyin (ch : Option UInt8) | copyout (ok : Bool)
  deriving DecidableEq

-- In pipewrite, due says that the call has stored a byte into the empty pipe and not called
-- wakeup(&pi->nread) since.
inductive Loc
  | idle
  | write (n : Int) (i : ℕ) (due : Bool)
  | writeFull (n : Int) (i : ℕ) (due : Bool)
  | writeSleep (n : Int) (i : ℕ)
  | writeFail (due : Bool)
  | writeWakeup (i : ℕ)
  | read (n : Int)
  | readSleep (n : Int)
  | readFail
  | readCopy (n : Int) (i : ℕ)
  | readWakeup (n : Int) (i : ℕ)
  | readRelease (n : Int) (i : ℕ)
  | close (writable : Bool)
  | closeWakeup (writable : Bool)
  | release
  deriving DecidableEq

-- The one lock is pi->lock. An action without an effect on the pipe writes it back.
def code (_ : Agent) (l : Loc) (pi : PipeBuf) (ch : Choice) : Option (Act Unit Chan PipeBuf Loc) :=
  match l with
  | .idle =>
      match ch with
      | .piperead n => some (.acquire () (.read n))
      | .pipewrite n => some (.acquire () (.write n 0 false))
      | .pipeclose writable => some (.acquire () (.close writable))
      | .kill pid => some (.kill pid .idle)
      | _ => none
  -- pipewrite
  | .write n i due =>
      if (i : Int) < n then
        if pi.readopen = false then some (.data pi (.writeFail due))
        else some (.killed (.writeFail due) (.writeFull n i due))
      else some (.data pi (.writeWakeup i))
  | .writeFull n i due =>
      if pi.full then some (.wakeup .nread (.writeSleep n i))
      else
        match ch with
        | .copyin none => some (.data pi (.writeWakeup i))
        | .copyin (some c) => some (.data (pi.store c) (.write n (i + 1) (due || pi.empty)))
        | _ => none
  | .writeSleep n i => some (.sleep .nwrite () (.write n i false))
  | .writeFail _ => some (.release () .idle)
  | .writeWakeup _ => some (.wakeup .nread .release)
  -- piperead
  | .read n =>
      if pi.empty && pi.writeopen then some (.killed .readFail (.readSleep n))
      else some (.data pi (.readCopy n 0))
  | .readSleep n => some (.sleep .nread () (.read n))
  | .readFail => some (.release () .idle)
  | .readCopy n i =>
      if (i : Int) < n then
        if pi.empty then some (.data pi (.readWakeup n i))
        else
          match ch with
          | .copyout true => some (.data (pi.take true) (.readCopy n (i + 1)))
          | .copyout false => some (.data (pi.take false) (.readWakeup n i))
          | _ => none
      else some (.data pi (.readWakeup n i))
  | .readWakeup n i => some (.wakeup .nwrite (.readRelease n i))
  | .readRelease _ _ => some (.release () .idle)
  -- pipeclose, up to the kfree that follows the release
  | .close writable =>
      if writable then some (.data { pi with writeopen := false } (.closeWakeup writable))
      else some (.data { pi with readopen := false } (.closeWakeup writable))
  | .closeWakeup writable => some (.wakeup (if writable then .nread else .nwrite) .release)
  | .release => some (.release () .idle)

abbrev client : Client where
  Lk := Unit
  Chan := Chan
  Data := PipeBuf
  Loc := Loc
  Choice := Choice
  idle := .idle
  code := code

end PipeBuf

end Xv6
