import Mathlib.Data.List.Basic
import Mathlib.Logic.Function.Basic
import Xv6.Lib.Ring
import Xv6.Lib.Transition
import Xv6.Param

namespace Xv6

open Function (update)

-- kernel/virtio.h
def NUM : ℕ := 8
def VRING_DESC_F_NEXT : ℕ := 1
def VRING_DESC_F_WRITE : ℕ := 2
def VIRTIO_BLK_T_IN : ℕ := 0
def VIRTIO_BLK_T_OUT : ℕ := 1

-- What the address in a descriptor is: &disk.ops[i], b->data or &disk.info[i].status.
inductive DmaAddr
  | null
  | req (i : ℕ)
  | data (b : ℕ)
  | status (i : ℕ)
  deriving DecidableEq

structure VirtqDesc where
  addr : DmaAddr
  len : ℕ
  flags : ℕ
  next : ℕ
  deriving DecidableEq

structure VirtioBlkReq where
  type : ℕ
  reserved : ℕ
  sector : ℕ
  deriving DecidableEq

structure VirtioInfo where
  b : Option ℕ
  status : ℕ
  deriving DecidableEq

-- The arguments and the local variables of a virtio_disk_rw that has its descriptors. serial
-- numbers the requests.
structure VirtioReq where
  p : ℕ
  b : ℕ
  blockno : ℕ
  write : Bool
  idx0 : ℕ
  idx1 : ℕ
  idx2 : ℕ
  serial : ℕ
  deriving DecidableEq

def VirtioReq.idx (r : VirtioReq) : List ℕ := [r.idx0, r.idx1, r.idx2]

inductive VirtioPanic
  | freeDesc1 | freeDesc2 | intrStatus
  -- b->disk = 0 with b null
  | nullBuf
  deriving DecidableEq

-- struct disk; buffers are numbers, and the arrays have NUM entries.
structure VirtioDisk where
  desc : ℕ → VirtqDesc
  availIdx : BitVec 16
  availRing : ℕ → ℕ
  -- used->idx and disk.used_idx
  usedEnd : BitVec 16
  usedIdx : BitVec 16
  usedRing : ℕ → ℕ
  free : ℕ → Bool
  info : ℕ → VirtioInfo
  ops : ℕ → VirtioBlkReq

namespace VirtioDisk

def allocDesc (d : VirtioDisk) : Option (ℕ × VirtioDisk) :=
  match (List.range NUM).find? d.free with
  | some i => some (i, { d with free := update d.free i false })
  | none => none

def freeDesc (d : VirtioDisk) (i : ℕ) : Except VirtioPanic VirtioDisk :=
  if i ≥ NUM then .error .freeDesc1
  else if d.free i then .error .freeDesc2
  else .ok { d with
    desc := update d.desc i ⟨.null, 0, 0, 0⟩
    free := update d.free i true }

-- After NUM turns every descriptor is free and free_desc panics.
def freeChain : (turns : ℕ) → VirtioDisk → ℕ → Except VirtioPanic VirtioDisk
  | 0, _, _ => .error .freeDesc2
  | turns + 1, d, i =>
      let flag := (d.desc i).flags
      let nxt := (d.desc i).next
      match d.freeDesc i with
      | .error e => .error e
      | .ok d => if flag &&& VRING_DESC_F_NEXT ≠ 0 then freeChain turns d nxt else .ok d

def freeAll (d : VirtioDisk) : List ℕ → Except VirtioPanic VirtioDisk
  | [] => .ok d
  | i :: rest =>
      match d.freeDesc i with
      | .error e => .error e
      | .ok d => d.freeAll rest

def allocLoop : (count : ℕ) → List ℕ → VirtioDisk → Except VirtioPanic (Option (List ℕ) × VirtioDisk)
  | 0, got, d => .ok (some got, d)
  | count + 1, got, d =>
      match d.allocDesc with
      | some (i, d) => allocLoop count (got ++ [i]) d
      | none =>
          match d.freeAll got with
          | .error e => .error e
          | .ok d => .ok (none, d)

def alloc3Desc (d : VirtioDisk) : Except VirtioPanic (Option (List ℕ) × VirtioDisk) := allocLoop 3 [] d

-- virtio_disk_rw, from the three descriptors to QUEUE_NOTIFY.
def format (d : VirtioDisk) (r : VirtioReq) : VirtioDisk :=
  let ops := update d.ops r.idx0
    ⟨if r.write then VIRTIO_BLK_T_OUT else VIRTIO_BLK_T_IN, 0, r.blockno * (BSIZE / 512) % 2 ^ 32⟩
  let desc := update d.desc r.idx0 ⟨.req r.idx0, 16, VRING_DESC_F_NEXT, r.idx1⟩
  let desc := update desc r.idx1
    ⟨.data r.b, BSIZE, (if r.write then 0 else VRING_DESC_F_WRITE) ||| VRING_DESC_F_NEXT, r.idx2⟩
  let desc := update desc r.idx2 ⟨.status r.idx0, 1, VRING_DESC_F_WRITE, 0⟩
  { d with
    ops := ops
    desc := desc
    info := update d.info r.idx0 ⟨some r.b, 0xff⟩
    availRing := update d.availRing (d.availIdx.toNat % NUM) r.idx0
    availIdx := d.availIdx + 1 }

-- One turn of the loop of virtio_disk_intr: the buffer that is done.
def intrTurn (d : VirtioDisk) : Except VirtioPanic (ℕ × ℕ × VirtioDisk) :=
  let id := d.usedRing (d.usedIdx.toNat % NUM)
  if (d.info id).status ≠ 0 then .error .intrStatus
  else match (d.info id).b with
    | none => .error .nullBuf
    | some b => .ok (id, b, { d with usedIdx := d.usedIdx + 1 })

-- The device stores status 0 where the third descriptor of the chain says, and the chain
-- in the used ring.
def complete (d : VirtioDisk) (head : ℕ) : VirtioDisk :=
  let info := match (d.desc (d.desc (d.desc head).next).next).addr with
    | .status i => update d.info i { d.info i with status := 0 }
    | _ => d.info
  { d with info := info, usedRing := update d.usedRing (d.usedEnd.toNat % NUM) head }

-- disk after virtio_disk_init
def init : VirtioDisk where
  desc _ := ⟨.null, 0, 0, 0⟩
  availIdx := 0
  availRing _ := 0
  usedEnd := 0
  usedIdx := 0
  usedRing _ := 0
  free _ := true
  info _ := ⟨none, 0⟩
  ops _ := ⟨0, 0, 0⟩

end VirtioDisk

-- Where a process is in virtio_disk_rw: it sleeps on &disk.free[0], or on b.
inductive VirtioPc
  | idle
  | alloc (b blockno : ℕ) (write : Bool)
  | wait (r : VirtioReq)
  deriving DecidableEq

-- The driver with its callers, its interrupt handler and the device. intr says that the
-- handler is in its loop and so has vdisk_lock. The device has looked at the available
-- ring up to fetched, works on the chains in working, and has stored written in the used
-- ring. active are the requests in progress, issued has the number of the last request with
-- each head, and the lists at the end have the numbers of the requests that the device has
-- completed, that the handler has consumed, and whose virtio_disk_rw has returned.
structure Virtio where
  disk : VirtioDisk
  -- b->disk, and the process that has b->lock
  busy : ℕ → Bool
  lock : ℕ → Option ℕ
  pc : ℕ → VirtioPc
  intr : Bool
  fetched : BitVec 16
  working : List ℕ
  written : Option ℕ
  active : List VirtioReq
  serial : ℕ
  issued : ℕ → ℕ
  completed : List ℕ
  consumed : List ℕ
  returned : List ℕ

-- The sleep-lock of a buffer is taken and given back around virtio_disk_rw, as bread,
-- bwrite and brelse do. start and retry end in a sleep, wake may.
inductive VirtioEvent
  | acquiresleep (p b : ℕ)
  | releasesleep (p b : ℕ)
  | start (p b blockno : ℕ) (write : Bool)
  | retry (p : ℕ)
  | wake (p : ℕ)
  | intrBegin
  | intrTurn
  | intrEnd
  | fetch
  | write (head : ℕ)
  | publish

namespace Virtio

-- virtio_disk_rw from alloc3_desc to its next sleep.
def rw (s : Virtio) (p b blockno : ℕ) (write : Bool) : Except VirtioPanic Virtio :=
  match s.disk.alloc3Desc with
  | .error e => .error e
  | .ok (some [idx0, idx1, idx2], disk) =>
      let r : VirtioReq := ⟨p, b, blockno, write, idx0, idx1, idx2, s.serial⟩
      .ok { s with
        disk := disk.format r
        busy := update s.busy b true
        pc := update s.pc p (.wait r)
        active := r :: s.active
        serial := s.serial + 1
        issued := update s.issued idx0 s.serial }
  | .ok (_, disk) => .ok { s with disk := disk, pc := update s.pc p (.alloc b blockno write) }

def finish (s : Virtio) (p : ℕ) (r : VirtioReq) : Except VirtioPanic Virtio :=
  if s.busy r.b then .ok s
  else
    let disk := { s.disk with info := update s.disk.info r.idx0 { s.disk.info r.idx0 with b := none } }
    match disk.freeChain NUM r.idx0 with
    | .error e => .error e
    | .ok disk =>
        .ok { s with
          disk := disk
          pc := update s.pc p .idle
          active := s.active.erase r
          returned := s.returned ++ [r.serial] }

def exec (s : Virtio) : VirtioEvent → Option (Except VirtioPanic Virtio)
  | .acquiresleep p b =>
      if s.lock b = none ∧ s.pc p = .idle then some (.ok { s with lock := update s.lock b (some p) }) else none
  | .releasesleep p b =>
      if s.lock b = some p ∧ s.pc p = .idle then some (.ok { s with lock := update s.lock b none }) else none
  | .start p b blockno write =>
      if s.lock b = some p ∧ s.pc p = .idle ∧ s.intr = false then some (s.rw p b blockno write) else none
  | .retry p =>
      match s.pc p with
      | .alloc b blockno write => if s.intr = false then some (s.rw p b blockno write) else none
      | _ => none
  | .wake p =>
      match s.pc p with
      | .wait r => if s.intr = false then some (s.finish p r) else none
      | _ => none
  | .intrBegin => if s.intr = false then some (.ok { s with intr := true }) else none
  | .intrTurn =>
      if s.intr = true ∧ s.disk.usedIdx ≠ s.disk.usedEnd then
        match s.disk.intrTurn with
        | .error e => some (.error e)
        | .ok (id, b, disk) =>
            some (.ok { s with
              disk := disk
              busy := update s.busy b false
              consumed := s.consumed ++ [s.issued id] })
      else none
  | .intrEnd =>
      if s.intr = true ∧ s.disk.usedIdx = s.disk.usedEnd then some (.ok { s with intr := false }) else none
  | .fetch =>
      if s.fetched ≠ s.disk.availIdx then
        some (.ok { s with
          working := s.disk.availRing (s.fetched.toNat % NUM) :: s.working
          fetched := s.fetched + 1 })
      else none
  | .write head =>
      if head ∈ s.working ∧ s.written = none then
        some (.ok { s with
          disk := s.disk.complete head
          working := s.working.erase head
          written := some head })
      else none
  | .publish =>
      match s.written with
      | some head =>
          some (.ok { s with
            disk := { s.disk with usedEnd := s.disk.usedEnd + 1 }
            written := none
            completed := s.completed ++ [s.issued head] })
      | none => none

def Step (s t : Virtio) : Prop := ∃ e, s.exec e = some (.ok t)

def start : Virtio where
  disk := .init
  busy _ := false
  lock _ := none
  pc _ := .idle
  intr := false
  fetched := 0
  working := []
  written := none
  active := []
  serial := 0
  issued _ := 0
  completed := []
  consumed := []
  returned := []

end Virtio

end Xv6
