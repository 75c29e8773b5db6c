import Mathlib.Algebra.Ring.Int.Defs
import Mathlib.Algebra.Ring.Nat
import Mathlib.Data.Nat.Notation

namespace Xv6

-- kernel/param.h
def NPROC : ℕ := 64
def NOFILE : ℕ := 16
def NFILE : ℕ := 100
def NINODE : ℕ := 50
def NDEV : ℕ := 10
def ROOTDEV : ℕ := 1
def MAXARG : ℕ := 32
def MAXOPBLOCKS : ℕ := 10
def LOGSIZE : ℕ := MAXOPBLOCKS * 3
def NBUF : ℕ := MAXOPBLOCKS * 3
def FSSIZE : ℕ := 2000

-- kernel/fs.h
def ROOTINO : ℕ := 1
def BSIZE : ℕ := 1024
def NDIRECT : ℕ := 12
def NINDIRECT : ℕ := BSIZE / 4
def MAXFILE : ℕ := NDIRECT + NINDIRECT
-- A struct dinode has 64 bytes.
def IPB : ℕ := BSIZE / 64
def BPB : ℕ := BSIZE * 8

-- Every panic of the modelled kernel files, one constructor for each call site;
-- freewalkDepth stands for a recursion deeper than any page table.
inductive Panic
  -- bio.c
  | bgetNoBuffers | bwrite | brelse
  -- log.c
  | tooBigTransaction | logWriteOutsideTrans | logCommitting
  -- kalloc.c
  | kfree
  -- vm.c
  | walk | mappagesSize | mappagesRemap
  | uvmunmapNotAligned | uvmunmapWalk | uvmunmapNotMapped | uvmunmapNotLeaf
  | uvmfirst | freewalkLeaf | freewalkDepth | uvmcopyPte | uvmcopyPresent | uvmclear
  deriving DecidableEq, Repr

-- Why a step does not go through: it would sleep, or the kernel stops.
inductive Stop
  | wait
  | panic (why : Panic)
  deriving DecidableEq, Repr

end Xv6
