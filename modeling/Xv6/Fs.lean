import Xv6.Lib.Wp
import Xv6.Log
import Mathlib.Data.List.FinRange

namespace Xv6

open Function (update)

-- kernel/fs.h
def DIRSIZ : ℕ := 14
def DIRENTSIZE : ℕ := 16

-- kernel/stat.h; free is type 0.
inductive FileType
  | free | dir | file | device
  deriving DecidableEq, Repr

-- struct dinode. The shorts are 16-bit words; addrs is read below NDIRECT + 1.
structure Dinode where
  type : FileType
  major : BitVec 16
  minor : BitVec 16
  nlink : BitVec 16
  size : ℕ
  addrs : ℕ → ℕ

-- struct inode. The fields after valid, the copy of the disk inode, are copy.
structure Inode where
  dev : ℕ
  inum : ℕ
  ref : ℕ
  lock : Bool
  valid : Bool
  copy : Dinode

structure Superblock where
  size : ℕ
  nblocks : ℕ
  ninodes : ℕ

-- A struct inode*.
abbrev Ip := Fin NINODE

-- What the kernel sees of the disk through the buffer cache, by area: the
-- inode blocks as dinodes, the bitmap blocks as bits, the data blocks by number.
structure Fs where
  sb : Superblock
  dinode : ℕ → Dinode
  bitmap : ℕ → Bool
  data : Disk
  itable : Ip → Inode
  outstanding : ℕ

inductive FsPanic
  -- fs.c
  | bfree | iget | ilock | ilockNoType | iunlock | bmap | dirlookupNotDir | dirlookupRead | dirlinkRead
  -- sysfile.c
  | isdirempty | unlinkNlink | unlinkWritei
  deriving DecidableEq, Repr

-- wait: the call would sleep on an inode lock that only itself could release.
inductive FsStop
  | wait
  | panic (why : FsPanic)
  deriving DecidableEq, Repr

abbrev FsM := StateT Fs (Except FsStop)

def Dinode.zero (type : FileType) : Dinode := ⟨type, 0, 0, 0, 0, fun _ => 0⟩

namespace Dinode

def setAddr (d : Dinode) (j addr : ℕ) : Dinode := { d with addrs := update d.addrs j addr }
def setSize (d : Dinode) (size : ℕ) : Dinode := { d with size := size }
def setNlink (d : Dinode) (nlink : BitVec 16) : Dinode := { d with nlink := nlink }
def setType (d : Dinode) (type : FileType) : Dinode := { d with type := type }

end Dinode

namespace Fs

def setInode (s : Fs) (i : Ip) (f : Inode → Inode) : Fs :=
  { s with itable := update s.itable i (f (s.itable i)) }

-- A change of the fields that live on disk, in memory.
def setCopy (s : Fs) (i : Ip) (f : Dinode → Dinode) : Fs :=
  s.setInode i fun ip => { ip with copy := f ip.copy }

end Fs

-- begin_op and end_op as the file system sees them.
def beginOp : FsM Unit := modify fun s => { s with outstanding := s.outstanding + 1 }
def endOp : FsM Unit := modify fun s => { s with outstanding := s.outstanding - 1 }

-- Blocks.

-- 0 if out of disk space. Bit bi of bitmap block b / BPB is bit b + bi.
def balloc : FsM ℕ := do
  let s ← get
  match (List.range s.sb.size).find? fun b => !s.bitmap b with
  | some b =>
      set { s with
        bitmap := update s.bitmap b true
        data := update s.data b fun _ => 0 }
      return b
  | none => return 0

def bfree (b : ℕ) : FsM Unit := do
  let s ← get
  if s.bitmap b then set { s with bitmap := update s.bitmap b false }
  else throw (.panic .bfree)

-- Inodes.

def iget (dev inum : ℕ) : FsM Ip := do
  let s ← get
  match (List.finRange NINODE).find? fun i =>
      0 < (s.itable i).ref && (s.itable i).dev == dev && (s.itable i).inum == inum with
  | some i =>
      set (s.setInode i fun ip => { ip with ref := ip.ref + 1 })
      return i
  | none =>
      match (List.finRange NINODE).find? fun i => (s.itable i).ref == 0 with
      | some i =>
          set (s.setInode i fun ip => { ip with dev := dev, inum := inum, ref := 1, valid := false })
          return i
      | none => throw (.panic .iget)

def ialloc (dev : ℕ) (type : FileType) : FsM (Option Ip) := do
  let s ← get
  match (List.range s.sb.ninodes).find? fun inum => 1 ≤ inum && (s.dinode inum).type == .free with
  | some inum =>
      set { s with dinode := update s.dinode inum (.zero type) }
      some <$> iget dev inum
  | none => return none

def iupdate (i : Ip) : FsM Unit :=
  modify fun s => { s with dinode := update s.dinode (s.itable i).inum (s.itable i).copy }

def idup (i : Ip) : FsM Ip := do
  modify (·.setInode i fun ip => { ip with ref := ip.ref + 1 })
  return i

def ilock (i : Ip) : FsM Unit := do
  let s ← get
  if (s.itable i).ref < 1 then throw (.panic .ilock)
  else if (s.itable i).lock then throw .wait
  else if (s.itable i).valid then set (s.setInode i fun ip => { ip with lock := true })
  else if (s.dinode (s.itable i).inum).type = .free then throw (.panic .ilockNoType)
  else
    set (s.setInode i fun ip => { ip with lock := true, valid := true, copy := s.dinode ip.inum })

def iunlock (i : Ip) : FsM Unit := do
  let s ← get
  if !(s.itable i).lock || (s.itable i).ref < 1 then throw (.panic .iunlock)
  else set (s.setInode i fun ip => { ip with lock := false })

-- for(..) if(ip->addrs[j]){ bfree(ip->dev, ip->addrs[j]); ip->addrs[j] = 0; }
def truncAddr (i : Ip) (j : ℕ) : FsM Unit := do
  let addr := ((← get).itable i).copy.addrs j
  if addr ≠ 0 then
    bfree addr
    modify (·.setCopy i fun d => d.setAddr j 0)

-- The entries of the indirect block are freed before the block itself.
def truncIndirect (i : Ip) : FsM Unit := do
  let s ← get
  let addr := (s.itable i).copy.addrs NDIRECT
  if addr ≠ 0 then
    (List.range NINDIRECT).forM fun j =>
      if (s.data addr).word j ≠ 0 then bfree ((s.data addr).word j) else pure ()
    bfree addr
    modify (·.setCopy i fun d => d.setAddr NDIRECT 0)

def itrunc (i : Ip) : FsM Unit := do
  (List.range NDIRECT).forM (truncAddr i)
  truncIndirect i
  modify (·.setCopy i fun d => d.setSize 0)
  iupdate i

def iput (i : Ip) : FsM Unit := do
  let ip := (← get).itable i
  if ip.ref = 1 ∧ ip.valid ∧ ip.copy.nlink = 0 then
    if ip.lock then throw .wait
    else
      itrunc i
      modify (·.setCopy i fun d => d.setType .free)
      iupdate i
      modify (·.setInode i fun ip => { ip with valid := false })
  modify (·.setInode i fun ip => { ip with ref := ip.ref - 1 })

def iunlockput (i : Ip) : FsM Unit := do
  iunlock i
  iput i

-- Inode content.

-- if((addr = ip->addrs[j]) == 0){ addr = balloc(ip->dev); .. ip->addrs[j] = addr; }
def bmapAddr (i : Ip) (j : ℕ) : FsM ℕ := do
  let addr := ((← get).itable i).copy.addrs j
  if addr ≠ 0 then return addr
  else
    let addr ← balloc
    if addr = 0 then return 0
    else
      modify (·.setCopy i fun d => d.setAddr j addr)
      return addr

-- The part of bmap that looks in the indirect block.
def bmapIndirect (indirect bn : ℕ) : FsM ℕ := do
  let addr := ((← get).data indirect).word bn
  if addr ≠ 0 then return addr
  else
    let addr ← balloc
    if addr = 0 then return 0
    else
      modify fun s => { s with
        data := update s.data indirect ((s.data indirect).setWord bn addr) }
      return addr

-- 0 if out of disk space.
def bmap (i : Ip) (bn : ℕ) : FsM ℕ := do
  if bn < NDIRECT then bmapAddr i bn
  else if bn - NDIRECT < NINDIRECT then
    let indirect ← bmapAddr i NDIRECT
    if indirect = 0 then return 0
    else bmapIndirect indirect (bn - NDIRECT)
  else throw (.panic .bmap)

-- either_copyout of m bytes of src to offset tot of the caller's buffer, and whether it
-- goes through.
abbrev Copyout (δ : Type) := δ → (tot : ℕ) → (src : ℕ → UInt8) → (m : ℕ) → δ × Bool

-- To the buffer from its first byte on; copies tells which pieces go through.
def bufCopyout (copies : ℕ → ℕ → Bool) : Copyout (ℕ → UInt8) := fun dst tot src m =>
  if copies tot m then (fun k => if tot ≤ k ∧ k < tot + m then src (k - tot) else dst k, true) else (dst, false)

section Readi

variable {δ : Type} (copyout : Copyout δ)

-- Every pass of readi's loop copies a byte, so n bounds the passes.
def readLoop (i : Ip) (n : ℕ) : (fuel tot off : ℕ) → δ → FsM (Int × δ)
  | 0, tot, _, dst => return (tot, dst)
  | fuel + 1, tot, off, dst =>
      if n ≤ tot then return (tot, dst)
      else do
        let addr ← bmap i (off / BSIZE)
        if addr = 0 then return (tot, dst)
        else
          let m := min (n - tot) (BSIZE - off % BSIZE)
          let b := (← get).data addr
          let (dst, ok) := copyout dst tot (fun k => b.bytes (off % BSIZE + k)) m
          if ok then readLoop i n fuel (tot + m) (off + m) dst else return (-1, dst)

def readiTo (i : Ip) (dst : δ) (off n : ℕ) : FsM (Int × δ) := do
  let size := ((← get).itable i).copy.size
  if off > size ∨ (off + n) % 2 ^ 32 < off then return (0, dst)
  else
    let n := if (off + n) % 2 ^ 32 > size then size - off else n
    readLoop copyout i n n 0 off dst

end Readi

def readi (i : Ip) (copies : ℕ → ℕ → Bool) (dst : ℕ → UInt8) (off n : ℕ) : FsM (Int × (ℕ → UInt8)) :=
  readiTo (bufCopyout copies) i dst off n

-- The bytes that writei copies in. A user source is readable up to limit; a
-- kernel source has none.
structure Source where
  bytes : ℕ → UInt8
  limit : Option ℕ

-- either_copyin of m bytes at tot into a block at offset o, as far as it goes.
def Source.copyin (src : Source) (b : Block) (tot o m : ℕ) : Block × Bool :=
  let stop := match src.limit with
    | none => tot + m
    | some limit => min (tot + m) (max tot limit)
  (fun k => if o ≤ k ∧ k < o + (stop - tot) then src.bytes (tot + (k - o)) else b k, stop = tot + m)

def writeLoop (i : Ip) (src : Source) (n : ℕ) : (fuel tot off : ℕ) → FsM (ℕ × ℕ)
  | 0, tot, off => return (tot, off)
  | fuel + 1, tot, off =>
      if n ≤ tot then return (tot, off)
      else do
        let addr ← bmap i (off / BSIZE)
        if addr = 0 then return (tot, off)
        else
          let m := min (n - tot) (BSIZE - off % BSIZE)
          let (b, copied) := src.copyin ((← get).data addr) tot (off % BSIZE) m
          modify fun s => { s with data := update s.data addr b }
          if copied then writeLoop i src n fuel (tot + m) (off + m) else return (tot, off)

def writei (i : Ip) (src : Source) (off n : ℕ) : FsM Int := do
  if off > ((← get).itable i).copy.size ∨ (off + n) % 2 ^ 32 < off then return -1
  else if (off + n) % 2 ^ 32 > MAXFILE * BSIZE then return -1
  else
    let (tot, off) ← writeLoop i src n n 0 off
    modify (·.setCopy i fun d => d.setSize (if off > d.size then off else d.size))
    iupdate i
    return tot

-- Directories.

-- The characters of a name before its NUL, at most DIRSIZ.
abbrev Name := List UInt8

structure Dirent where
  inum : ℕ
  name : Name

-- The 16 bytes of a dirent, read and written; strncpy pads a short name with NULs.
def Dirent.load (buf : ℕ → UInt8) : Dirent where
  inum := Bytes.load buf 0 2
  name := (List.range DIRSIZ).map fun k => buf (2 + k)

def Dirent.bytes (de : Dirent) : ℕ → UInt8 :=
  fun k => if k < 2 then UInt8.ofNat (de.inum / 256 ^ k) else de.name.getD (k - 2) 0

-- A string ends where its list ends or at a NUL.
def strncmp : ℕ → List UInt8 → List UInt8 → Int
  | 0, _, _ => 0
  | n + 1, p, q =>
      if p.headD 0 ≠ 0 ∧ p.headD 0 = q.headD 0 then strncmp n p.tail q.tail
      else (p.headD 0).toNat - (q.headD 0).toNat

def namecmp (s t : Name) : Int := strncmp DIRSIZ s t

-- readi(dp, 0, (uint64)&de, off, sizeof(de)); none unless it read sizeof(de) bytes.
def readDirent (i : Ip) (off : ℕ) : FsM (Option Dirent) := do
  let (r, buf) ← readi i (fun _ _ => true) (fun _ => 0) off DIRENTSIZE
  return if r = DIRENTSIZE then some (.load buf) else none

-- The number of passes of for(off = 0; off < size; off += sizeof(de)).
def direntCount (size : ℕ) : ℕ := (size + DIRENTSIZE - 1) / DIRENTSIZE

def lookupLoop (i : Ip) (name : Name) : (count off : ℕ) → FsM (Option (Ip × ℕ))
  | 0, _ => return none
  | count + 1, off => do
      match ← readDirent i off with
      | none => throw (.panic .dirlookupRead)
      | some de =>
          if de.inum = 0 ∨ namecmp name de.name ≠ 0 then lookupLoop i name count (off + DIRENTSIZE)
          else
            let ip ← iget ((← get).itable i).dev de.inum
            return some (ip, off)

-- The inode of the entry and *poff.
def dirlookup (i : Ip) (name : Name) : FsM (Option (Ip × ℕ)) := do
  let dp := (← get).itable i
  if dp.copy.type ≠ .dir then throw (.panic .dirlookupNotDir)
  else lookupLoop i name (direntCount dp.copy.size) 0

def emptyLoop (i : Ip) : (count off : ℕ) → FsM ℕ
  | 0, off => return off
  | count + 1, off => do
      match ← readDirent i off with
      | none => throw (.panic .dirlinkRead)
      | some de => if de.inum = 0 then return off else emptyLoop i count (off + DIRENTSIZE)

def writeDirent (i : Ip) (de : Dirent) (off : ℕ) : FsM Int := writei i ⟨de.bytes, none⟩ off DIRENTSIZE

def dirlink (i : Ip) (name : Name) (inum : ℕ) : FsM Int := do
  match ← dirlookup i name with
  | some (ip, _) =>
      iput ip
      return -1
  | none =>
      let off ← emptyLoop i (direntCount ((← get).itable i).copy.size) 0
      let r ← writeDirent i ⟨inum, name⟩ off
      return if r = DIRENTSIZE then 0 else -1

-- Paths.

def slash : UInt8 := 0x2f

-- The next path element and the rest of the path; none if there is no name.
def skipelem (path : List UInt8) : Option (Name × List UInt8) :=
  match path.dropWhile (· = slash) with
  | [] => none
  | c :: s =>
      some (((c :: s).takeWhile (· ≠ slash)).take DIRSIZ,
        ((c :: s).dropWhile (· ≠ slash)).dropWhile (· = slash))

-- What skipelem returns in the loop of namex; every element has a character.
def elements : (fuel : ℕ) → List UInt8 → List Name
  | 0, _ => []
  | fuel + 1, path =>
      match skipelem path with
      | none => []
      | some (name, rest) => name :: elements fuel rest

-- The rest of the path is empty exactly at the last element.
def namexLoop (nameiparent : Bool) : List Name → Ip → FsM (Option (Ip × Name))
  | [], ip =>
      if nameiparent then do
        iput ip
        return none
      else return some (ip, [])
  | name :: rest, ip => do
      ilock ip
      if ((← get).itable ip).copy.type ≠ .dir then
        iunlockput ip
        return none
      else if nameiparent && rest.isEmpty then
        iunlock ip
        return some (ip, name)
      else
        match ← dirlookup ip name with
        | none =>
            iunlockput ip
            return none
        | some (next, _) =>
            iunlockput ip
            namexLoop nameiparent rest next

-- cwd is myproc()->cwd.
def namex (cwd : Ip) (path : List UInt8) (nameiparent : Bool) : FsM (Option (Ip × Name)) := do
  let ip ← if path.head? = some slash then iget ROOTDEV ROOTINO else idup cwd
  namexLoop nameiparent (elements path.length path) ip

def namei (cwd : Ip) (path : List UInt8) : FsM (Option Ip) := do
  return (← namex cwd path false).map (·.1)

def nameiparent (cwd : Ip) (path : List UInt8) : FsM (Option (Ip × Name)) := namex cwd path true

end Xv6
