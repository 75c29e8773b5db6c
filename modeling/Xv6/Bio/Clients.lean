import Xv6.Lib.Dll
import Xv6.Lib.Transition
import Xv6.Log

namespace Xv6

open Function (update)

-- struct bcache with the next and prev pointers of the buffers; none is head.
structure RingCache where
  buf : Fin NBUF → Buf
  ring : Dll.Links (Fin NBUF)

namespace RingCache

-- binit links in the buffers one by one, each at the front.
def binit : RingCache where
  buf := Xv6.binit.buf
  ring := (List.finRange NBUF).foldl Dll.Links.pushFront .empty

def update (c : RingCache) (i : Fin NBUF) (f : Buf → Buf) : RingCache :=
  { c with buf := Function.update c.buf i (f (c.buf i)) }

-- The two loops of bget.
def cached (c : RingCache) (dev blockno : ℕ) : Option (Fin NBUF) :=
  Dll.Links.search c.ring.next (fun i => decide ((c.buf i).dev = dev ∧ (c.buf i).blockno = blockno)) (NBUF + 1)
    (c.ring.next none)

def unused (c : RingCache) : Option (Fin NBUF) :=
  Dll.Links.search c.ring.prev (fun i => decide ((c.buf i).refcnt = 0)) (NBUF + 1) (c.ring.prev none)

def bget (c : RingCache) (dev blockno : ℕ) : Except Stop (Fin NBUF × RingCache) :=
  match c.cached dev blockno with
  | some i => .ok (i, c.update i fun b => { b with refcnt := b.refcnt + 1 })
  | none =>
      match c.unused with
      | some i =>
          .ok (i, c.update i fun b => { b with dev := dev, blockno := blockno, valid := false, refcnt := 1 })
      | none => .error (.panic .bgetNoBuffers)

-- brelse once it has bcache.lock.
def release (c : RingCache) (i : Fin NBUF) : RingCache :=
  let c := c.update i fun b => { b with refcnt := b.refcnt - 1 }
  if (c.buf i).refcnt = 0 then { c with ring := (c.ring.unlink i).pushFront i } else c

end RingCache

-- The buffer cache, the disk and the log, with the processes that use them. refs has
-- the references from bget to releasesleep, leaving those from there to the end of
-- brelse, ops the processes between begin_op and end_op. The rest is only looked at
-- from outside: the buffers with a change that is neither written nor logged, the
-- pins of log_write, the bytes last stored in each block, and the time of the last
-- brelse that left a buffer unused.
structure Bio where
  cache : RingCache
  disk : Disk
  log : Log
  refs : List (ℕ × Fin NBUF)
  leaving : List (ℕ × Fin NBUF)
  ops : List ℕ
  dirty : Fin NBUF → Bool
  pins : List ℕ
  last : Disk
  stamp : Fin NBUF → Option ℕ
  clock : ℕ

-- What a process p does, one critical section at a time. store is a change of b->data.
-- release is the part of brelse after releasesleep; clear is log.lh.n = 0 and endCommit
-- the end of end_op.
inductive BioEvent
  | beginOp (p : ℕ)
  | endOp (p : ℕ)
  | bget (p : ℕ) (blockno : UInt32)
  | bread (p : ℕ) (i : Fin NBUF)
  | store (p : ℕ) (i : Fin NBUF) (data : Block)
  | bwrite (p : ℕ) (i : Fin NBUF)
  | logWrite (p : ℕ) (i : Fin NBUF)
  | bpin (p : ℕ) (i : Fin NBUF)
  | bunpin (p : ℕ) (i : Fin NBUF)
  | releasesleep (p : ℕ) (i : Fin NBUF)
  | release (p : ℕ) (i : Fin NBUF)
  | clear (p : ℕ)
  | endCommit (p : ℕ)

namespace Bio

def buf (s : Bio) (i : Fin NBUF) : Buf := s.cache.buf i

def setBuf (s : Bio) (i : Fin NBUF) (f : Buf → Buf) : Bio := { s with cache := s.cache.update i f }

def setDirty (s : Bio) (i : Fin NBUF) (dirty : Bool) : Bio := { s with dirty := update s.dirty i dirty }

def beginOp (s : Bio) (p : ℕ) : Except Stop Bio :=
  match s.log.beginOp with
  | none => .error .wait
  | some log => .ok { s with log := log, ops := p :: s.ops }

def endOp (s : Bio) (p : ℕ) : Except Stop Bio :=
  if p ∉ s.ops then .error .wait
  else match s.log.endOp with
    | .error e => .error e
    | .ok (log, _) => .ok { s with log := log, ops := s.ops.erase p }

def bget (s : Bio) (p : ℕ) (blockno : UInt32) : Except Stop Bio :=
  match s.cache.bget ROOTDEV blockno.toNat with
  | .error e => .error e
  | .ok (i, cache) => .ok { s with cache := cache, refs := (p, i) :: s.refs }

-- acquiresleep, and the disk read of bread.
def bread (s : Bio) (p : ℕ) (i : Fin NBUF) : Except Stop Bio :=
  if ¬s.refs.contains (p, i) ∨ (s.buf i).lock.isSome then .error .wait
  else .ok (s.setBuf i fun b =>
    { b with lock := some p, valid := true, data := if b.valid then b.data else s.disk b.blockno })

def store (s : Bio) (p : ℕ) (i : Fin NBUF) (data : Block) : Except Stop Bio :=
  if (s.buf i).lock ≠ some p then .error .wait
  else .ok { (s.setBuf i fun b => { b with data := data }).setDirty i true with
    last := update s.last (s.buf i).blockno data }

def bwrite (s : Bio) (p : ℕ) (i : Fin NBUF) : Except Stop Bio :=
  if (s.buf i).lock ≠ some p then .error (.panic .bwrite)
  else .ok { s.setDirty i false with disk := update s.disk (s.buf i).blockno (s.buf i).data }

def logWrite (s : Bio) (p : ℕ) (i : Fin NBUF) : Except Stop Bio :=
  if (s.buf i).lock ≠ some p then .error .wait
  else match s.log.logWrite (s.buf i).blockno with
    | .error e => .error e
    | .ok (log, isNew) =>
        let s := { s.setDirty i false with log := log }
        .ok (if isNew then { s.setBuf i (fun b => { b with refcnt := b.refcnt + 1 }) with
          pins := (s.buf i).blockno :: s.pins } else s)

def bpin (s : Bio) (i : Fin NBUF) : Bio := s.setBuf i fun b => { b with refcnt := b.refcnt + 1 }

def bunpin (s : Bio) (i : Fin NBUF) : Bio :=
  { s.setBuf i (fun b => { b with refcnt := b.refcnt - 1 }) with pins := s.pins.erase (s.buf i).blockno }

-- A change is written or logged before this.
def releasesleep (s : Bio) (p : ℕ) (i : Fin NBUF) : Except Stop Bio :=
  if (s.buf i).lock ≠ some p then .error (.panic .brelse)
  else if ¬s.refs.contains (p, i) ∨ s.dirty i then .error .wait
  else .ok { s.setBuf i (fun b => { b with lock := none }) with
    refs := s.refs.erase (p, i), leaving := (p, i) :: s.leaving }

def release (s : Bio) (p : ℕ) (i : Fin NBUF) : Except Stop Bio :=
  if ¬s.leaving.contains (p, i) then .error .wait
  else
    let unused := (s.buf i).refcnt - 1 = 0
    .ok { s with
      cache := s.cache.release i
      leaving := s.leaving.erase (p, i)
      stamp := if unused then update s.stamp i (some s.clock) else s.stamp
      clock := s.clock + 1 }

def step (s : Bio) : BioEvent → Except Stop Bio
  | .beginOp p => s.beginOp p
  | .endOp p => s.endOp p
  | .bget p blockno => s.bget p blockno
  | .bread p i => s.bread p i
  | .store p i data => s.store p i data
  | .bwrite p i => s.bwrite p i
  | .logWrite p i => s.logWrite p i
  | .bpin _ i => .ok (s.bpin i)
  | .bunpin _ i => .ok (s.bunpin i)
  | .releasesleep p i => s.releasesleep p i
  | .release p i => s.release p i
  | .clear _ => .ok { s with log := { s.log with lh := [] } }
  | .endCommit _ => .ok { s with log := s.log.endCommit }

def Step (s t : Bio) : Prop := ∃ e, s.step e = .ok t

-- The pins are those of log.c: log_write pins, and the process that commits unpins a block
-- that it has written home, clears the header when it is through, and then ends.
def AsLog (s : Bio) : BioEvent → Prop
  | .bpin _ _ => False
  | .bunpin p i => s.log.committing ∧ (s.buf i).lock = some p ∧ (s.buf i).blockno ∈ s.pins ∧
      s.disk (s.buf i).blockno = (s.buf i).data
  | .clear _ => s.log.committing ∧ s.pins = []
  | .endCommit _ => s.log.committing ∧ s.log.lh = []
  | _ => True

def LogStep (s t : Bio) : Prop := ∃ e, s.AsLog e ∧ s.step e = .ok t

-- After initlog.
def start (disk : Disk) (logstart size : ℕ) : Bio where
  cache := .binit
  disk := disk
  log := ⟨logstart, size, 0, false, []⟩
  refs := []
  leaving := []
  ops := []
  dirty _ := false
  pins := []
  last := disk
  stamp _ := none
  clock := 0

-- Buffer i was left unused before buffer j; those that never were come first, in
-- the order in which binit links them in.
def Older (s : Bio) (i j : Fin NBUF) : Prop :=
  match s.stamp i, s.stamp j with
  | none, none => i < j
  | none, some _ => True
  | some _, none => False
  | some a, some b => a < b

end Bio

end Xv6
