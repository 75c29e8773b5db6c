import Xv6.Log
import Xv6.Lib.Transition

namespace Xv6.Log

-- Where a process is in commit(), called from end_op with no lock held.
inductive CommitPc
  | start
  | writeLog (tail : ℕ)
  | writeHead
  | installTrans (tail : ℕ)
  | clear
  | eraseHead
  | done
  deriving DecidableEq

inductive Pc
  | idle
  | inOp
  | commit (pc : CommitPc)
  deriving DecidableEq

-- refs lists the references that bget has handed out and brelse has not taken back.
structure Sys where
  disk : Disk
  bc : Bcache
  log : Log
  pc : ℕ → Pc
  refs : List (ℕ × Fin NBUF)

-- The steps of a process: the critical sections of log.lock and of the buffer
-- cache, and inside commit one iteration of a loop, with at most one block write.
inductive Event
  | beginOp (p : ℕ)
  | endOp (p : ℕ)
  | bget (p : ℕ) (blockno : UInt32)
  | bread (p : ℕ) (i : Fin NBUF)
  | brelse (p : ℕ) (i : Fin NBUF)
  | logWrite (p : ℕ) (i : Fin NBUF) (data : Block)
  | commit (p : ℕ)

namespace Sys

def goto (s : Sys) (p : ℕ) (pc : Pc) : Sys := { s with pc := Function.update s.pc p pc }

def beginOp (s : Sys) (p : ℕ) : Except Stop Sys :=
  if s.pc p ≠ .idle then .error .wait
  else match s.log.beginOp with
    | none => .error .wait
    | some log => .ok ({ s with log := log }.goto p .inOp)

def endOp (s : Sys) (p : ℕ) : Except Stop Sys :=
  if s.pc p ≠ .inOp then .error .wait
  else match s.log.endOp with
    | .error e => .error e
    | .ok (log, doCommit) =>
        .ok ({ s with log := log }.goto p (if doCommit then .commit .start else .idle))

def bget (s : Sys) (p : ℕ) (blockno : UInt32) : Except Stop Sys :=
  match s.bc.bget ROOTDEV blockno.toNat with
  | .error e => .error e
  | .ok (i, bc) => .ok { s with bc := bc, refs := (p, i) :: s.refs }

def bread (s : Sys) (p : ℕ) (i : Fin NBUF) : Except Stop Sys :=
  if (p, i) ∉ s.refs then .error .wait
  else match s.bc.breadLocked s.disk p i with
    | .error e => .error e
    | .ok bc => .ok { s with bc := bc }

def brelse (s : Sys) (p : ℕ) (i : Fin NBUF) : Except Stop Sys :=
  if (p, i) ∉ s.refs then .error .wait
  else match s.bc.brelse p i with
    | .error e => .error e
    | .ok bc => .ok { s with bc := bc, refs := s.refs.erase (p, i) }

-- The caller modifies the data of a buffer it has locked and calls log_write.
def logWrite (s : Sys) (p : ℕ) (i : Fin NBUF) (data : Block) : Except Stop Sys :=
  if s.pc p ≠ .inOp ∨ (s.bc.buf i).lock ≠ some p ∨ (s.bc.buf i).dev ≠ ROOTDEV then .error .wait
  else match s.log.logWrite (s.bc.buf i).blockno with
    | .error e => .error e
    | .ok (log, isNew) =>
        let bc := s.bc.setData i data
        .ok { s with log := log, bc := if isNew then bc.bpin i else bc }

-- for-body of write_log
def writeLog (s : Sys) (p tail blockno : ℕ) : Except Stop Sys := do
  let (lbuf, bc) ← s.bc.bread s.disk p ROOTDEV (s.log.start + tail + 1)
  let (src, bc) ← bc.bread s.disk p ROOTDEV blockno
  let bc := bc.setData lbuf (bc.buf src).data
  let disk ← bc.bwrite s.disk p lbuf
  let bc ← bc.brelse p src
  let bc ← bc.brelse p lbuf
  return { s with disk := disk, bc := bc }

def writeHead (s : Sys) (p : ℕ) : Except Stop Sys := do
  let (i, bc) ← s.bc.bread s.disk p ROOTDEV s.log.start
  let bc := bc.setData i (putHead (bc.buf i).data s.log.lh)
  let disk ← bc.bwrite s.disk p i
  let bc ← bc.brelse p i
  return { s with disk := disk, bc := bc }

-- for-body of install_trans(0)
def installTrans (s : Sys) (p tail blockno : ℕ) : Except Stop Sys := do
  let (lbuf, bc) ← s.bc.bread s.disk p ROOTDEV (s.log.start + tail + 1)
  let (dbuf, bc) ← bc.bread s.disk p ROOTDEV blockno
  let bc := bc.setData dbuf (bc.buf lbuf).data
  let disk ← bc.bwrite s.disk p dbuf
  let bc := bc.bunpin dbuf
  let bc ← bc.brelse p lbuf
  let bc ← bc.brelse p dbuf
  return { s with disk := disk, bc := bc }

def commit (s : Sys) (p : ℕ) : Except Stop Sys :=
  match s.pc p with
  | .commit .start => .ok (s.goto p (.commit (if s.log.lh.length > 0 then .writeLog 0 else .done)))
  | .commit (.writeLog tail) =>
      match s.log.lh[tail]? with
      | some blockno => do
          let s ← s.writeLog p tail blockno
          return s.goto p (.commit (.writeLog (tail + 1)))
      | none => .ok (s.goto p (.commit .writeHead))
  | .commit .writeHead => do
      let s ← s.writeHead p
      return s.goto p (.commit (.installTrans 0))
  | .commit (.installTrans tail) =>
      match s.log.lh[tail]? with
      | some blockno => do
          let s ← s.installTrans p tail blockno
          return s.goto p (.commit (.installTrans (tail + 1)))
      | none => .ok (s.goto p (.commit .clear))
  | .commit .clear => .ok ({ s with log := { s.log with lh := [] } }.goto p (.commit .eraseHead))
  | .commit .eraseHead => do
      let s ← s.writeHead p
      return s.goto p (.commit .done)
  | .commit .done => .ok ({ s with log := s.log.endCommit }.goto p .idle)
  | _ => .error .wait

def step (s : Sys) : Event → Except Stop Sys
  | .beginOp p => s.beginOp p
  | .endOp p => s.endOp p
  | .bget p blockno => s.bget p blockno
  | .bread p i => s.bread p i
  | .brelse p i => s.brelse p i
  | .logWrite p i data => s.logWrite p i data
  | .commit p => s.commit p

end Sys

def EventStep (s next : Sys) : Prop := ∃ e, s.step e = .ok next

def Installed (s : Sys) (i : ℕ) : Prop :=
  ∃ p, (∃ tail, s.pc p = .commit (.installTrans tail) ∧ i < tail) ∨ s.pc p = .commit .clear

-- What the transactions are meant to do, kept beside the system and never read
-- by it: the home contents of the committed transactions, and the log_writes since.
structure History where
  committed : Disk
  pending : List (ℕ × Block)

namespace History

-- The contents that the processes see: committed ones plus the current group.
def current (h : History) : Disk := Writes.apply h.committed h.pending

def record (s : Sys) (h : History) : Event → History
  | .logWrite _ i data => { h with pending := h.pending ++ [((s.bc.buf i).blockno, data)] }
  | .commit p => if s.pc p = .commit .writeHead then ⟨h.current, []⟩ else h
  | _ => h

end History

-- The state after initlog; bc holds the blocks that recovery has read.
def boot (start size : ℕ) (disk : Disk) (bc : Bcache) : Sys where
  disk := disk
  bc := bc
  log := ⟨start, size, 0, false, []⟩
  pc := fun _ => .idle
  refs := []

-- A disk left by any number of recoveries, each cut short after some of its writes.
inductive CutRecoveries (start : ℕ) : Disk → Disk → Prop
  | none (disk : Disk) : CutRecoveries start disk disk
  | cut {disk after : Disk} (writes : List (ℕ × Block))
      (hcut : writes <+: recoveryTrace start disk)
      (hrest : CutRecoveries start (Writes.apply disk writes) after) :
      CutRecoveries start disk after

-- Home blocks are the only ones the file system logs.
def LogsHome (s : Sys) : Event → Prop
  | .logWrite _ i _ => ¬InLog s.log.start s.log.size (s.bc.buf i).blockno
  | _ => True

inductive Step : Sys × History → Sys × History → Prop
  | event {s next : Sys} {h : History} (e : Event) (hhome : LogsHome s e)
      (hstep : s.step e = .ok next) : Step (s, h) (next, h.record s e)
  | crash {s : Sys} {h : History} {disk : Disk} {bc : Bcache}
      (hcut : CutRecoveries s.log.start s.disk disk)
      (hclean : bc.Clean (recoverFromLog s.log.start disk)) :
      Step (s, h) (boot s.log.start s.log.size (recoverFromLog s.log.start disk) bc,
        ⟨h.committed, []⟩)

end Xv6.Log
