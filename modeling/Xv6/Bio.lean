import Xv6.Param
import Mathlib.Data.List.FinRange
import Mathlib.Logic.Function.Basic

namespace Xv6

abbrev Block := Fin BSIZE → UInt8

abbrev Disk := ℕ → Block

-- struct buf. The sleep lock is the pid of its holder; the next/prev pointers
-- are the list lru of the cache.
structure Buf where
  valid : Bool
  dev : ℕ
  blockno : ℕ
  lock : Option ℕ
  refcnt : ℕ
  data : Block

-- lru runs from head.next, the most recently released buffer, to head.prev.
structure Bcache where
  buf : Fin NBUF → Buf
  lru : List (Fin NBUF)

-- The buffers start as zeroed memory and each one is linked in at the front.
def binit : Bcache where
  buf := fun _ => ⟨false, 0, 0, none, 0, fun _ => 0⟩
  lru := (List.finRange NBUF).reverse

-- bcache.buf
def buf0 : Fin NBUF := ⟨0, by decide⟩

namespace Bcache

def update (c : Bcache) (i : Fin NBUF) (f : Buf → Buf) : Bcache :=
  { c with buf := Function.update c.buf i (f (c.buf i)) }

def cached (c : Bcache) (dev blockno : ℕ) : Option (Fin NBUF) :=
  c.lru.find? fun i => decide ((c.buf i).dev = dev ∧ (c.buf i).blockno = blockno)

def unused (c : Bcache) : Option (Fin NBUF) :=
  c.lru.reverse.find? fun i => decide ((c.buf i).refcnt = 0)

-- The part of bget under bcache.lock; the sleep lock is still to be acquired.
def bget (c : Bcache) (dev blockno : ℕ) : Except Stop (Fin NBUF × Bcache) :=
  match c.cached dev blockno with
  | some i => .ok (i, c.update i fun b => { b with refcnt := b.refcnt + 1 })
  | none =>
      match c.unused with
      | some i =>
          .ok (i, c.update i fun b =>
            { b with dev := dev, blockno := blockno, valid := false, refcnt := 1 })
      | none => .error (.panic .bgetNoBuffers)

-- The rest of bread: acquiresleep, and the disk read if the buffer is not valid.
def breadLocked (c : Bcache) (disk : Disk) (pid : ℕ) (i : Fin NBUF) : Except Stop Bcache :=
  if (c.buf i).lock.isSome then .error .wait
  else .ok (c.update i fun b =>
    { b with lock := some pid, valid := true, data := if b.valid then b.data else disk b.blockno })

def bread (c : Bcache) (disk : Disk) (pid dev blockno : ℕ) : Except Stop (Fin NBUF × Bcache) :=
  match c.bget dev blockno with
  | .error e => .error e
  | .ok (i, c) =>
      match c.breadLocked disk pid i with
      | .error e => .error e
      | .ok c => .ok (i, c)

def brelse (c : Bcache) (pid : ℕ) (i : Fin NBUF) : Except Stop Bcache :=
  if (c.buf i).lock ≠ some pid then .error (.panic .brelse)
  else
    let c := c.update i fun b => { b with lock := none, refcnt := b.refcnt - 1 }
    .ok (if (c.buf i).refcnt = 0 then { c with lru := i :: c.lru.erase i } else c)

def bpin (c : Bcache) (i : Fin NBUF) : Bcache :=
  c.update i fun b => { b with refcnt := b.refcnt + 1 }

def bunpin (c : Bcache) (i : Fin NBUF) : Bcache :=
  c.update i fun b => { b with refcnt := b.refcnt - 1 }

-- memmove over a whole buffer.
def setData (c : Bcache) (i : Fin NBUF) (data : Block) : Bcache :=
  c.update i fun b => { b with data := data }

-- virtio_disk_rw(b, 1) of a locked buffer.
def bwrite (c : Bcache) (disk : Disk) (pid : ℕ) (i : Fin NBUF) : Except Stop Disk :=
  if (c.buf i).lock ≠ some pid then .error (.panic .bwrite)
  else .ok (Function.update disk (c.buf i).blockno (c.buf i).data)

-- No (dev, blockno) of the file system's device is held by two buffers and
-- the lru list has every buffer once.
structure Wf (c : Bcache) : Prop where
  lru : c.lru.Perm (List.finRange NBUF)
  unique : ∀ i j, (c.buf i).dev = ROOTDEV → (c.buf j).dev = ROOTDEV →
    (c.buf i).blockno = (c.buf j).blockno → i = j

structure Clean (c : Bcache) (disk : Disk) : Prop extends c.Wf where
  refcnt : ∀ i, (c.buf i).refcnt = 0
  lock : ∀ i, (c.buf i).lock = none
  word : ∀ i, (c.buf i).dev = ROOTDEV → (c.buf i).blockno < 2 ^ 32
  data : ∀ i, (c.buf i).dev = ROOTDEV → (c.buf i).valid = true →
    (c.buf i).data = disk (c.buf i).blockno

end Bcache

end Xv6
