import Xv6.Bio
import Xv6.Lib.Bytes
import Xv6.Lib.Writes

namespace Xv6

namespace Block

def bytes (b : Block) : ℕ → UInt8 := fun i => if h : i < BSIZE then b ⟨i, h⟩ else 0

def ofBytes (f : ℕ → UInt8) : Block := fun i => f i

-- ((uint*)data)[i]
def word (b : Block) (i : ℕ) : ℕ := Bytes.load b.bytes (4 * i) 4

def setWord (b : Block) (i value : ℕ) : Block := ofBytes (Bytes.store b.bytes (4 * i) 4 value)

end Block

-- struct log. lh is lh.block[0..n); its length is lh.n.
structure Log where
  start : ℕ
  size : ℕ
  outstanding : ℕ
  committing : Bool
  lh : List ℕ

-- The log area: the header block and the log blocks after it.
def InLog (start size blockno : ℕ) : Prop := start ≤ blockno ∧ blockno < start + size

instance (start size blockno : ℕ) : Decidable (InLog start size blockno) :=
  inferInstanceAs (Decidable (_ ∧ _))

namespace Log

-- One pass of the loop in begin_op under log.lock; none when it goes to sleep.
def beginOp (l : Log) : Option Log :=
  if l.committing then none
  else if l.lh.length + (l.outstanding + 1) * MAXOPBLOCKS > LOGSIZE then none
  else some { l with outstanding := l.outstanding + 1 }

-- The first critical section of end_op; the flag is do_commit.
def endOp (l : Log) : Except Stop (Log × Bool) :=
  let l := { l with outstanding := l.outstanding - 1 }
  if l.committing then .error (.panic .logCommitting)
  else if l.outstanding = 0 then .ok ({ l with committing := true }, true)
  else .ok (l, false)

-- log_write up to bpin; the flag tells that the block is new to the log.
def logWrite (l : Log) (blockno : ℕ) : Except Stop (Log × Bool) :=
  if l.lh.length ≥ LOGSIZE ∨ l.lh.length ≥ l.size - 1 then .error (.panic .tooBigTransaction)
  else if l.outstanding < 1 then .error (.panic .logWriteOutsideTrans)
  else if blockno ∈ l.lh then .ok (l, false)
  else .ok ({ l with lh := l.lh ++ [blockno] }, true)

def endCommit (l : Log) : Log := { l with committing := false }

end Log

-- The on-disk struct logheader: word 0 is n, word i + 1 is block[i].
def putBlocks (b : Block) (i : ℕ) : List ℕ → Block
  | [] => b
  | blockno :: rest => putBlocks (b.setWord (i + 1) blockno) (i + 1) rest

-- write_head's changes to the header buffer.
def putHead (b : Block) (lh : List ℕ) : Block := putBlocks (b.setWord 0 lh.length) 0 lh

-- lh->n is a signed int: a negative one runs the copy loop zero times.
def headCount (b : Block) : ℕ := if b.word 0 < 2 ^ 31 then b.word 0 else 0

def readHead (b : Block) : List ℕ := (List.range (headCount b)).map fun i => b.word (i + 1)

-- recover_from_log. It runs alone on a fresh cache in which every buffer is
-- written through, so each bread returns what is on the disk.
def recoverWrites (start : ℕ) (disk : Disk) : ℕ → List ℕ → List (ℕ × Block)
  | _, [] => []
  | tail, blockno :: rest =>
      (blockno, disk (start + tail + 1)) ::
        recoverWrites start (Function.update disk blockno (disk (start + tail + 1))) (tail + 1) rest

-- The block writes of recover_from_log in order: install_trans(1), then write_head with n = 0.
def recoveryTrace (start : ℕ) (disk : Disk) : List (ℕ × Block) :=
  let install := recoverWrites start disk 0 (readHead (disk start))
  install ++ [(start, putHead (Writes.apply disk install start) [])]

def recoverFromLog (start : ℕ) (disk : Disk) : Disk := Writes.apply disk (recoveryTrace start disk)

end Xv6
