import Xv6.Fs

namespace Xv6

def dot : Name := [0x2e]
def dotdot : Name := [0x2e, 0x2e]

def createLinks (dp ip : Ip) (name : Name) (type : FileType) : FsM Bool := do
  let inum := ((← get).itable ip).inum
  if type = .dir then
    if (← dirlink ip dot inum) < 0 then return false
    else
      let parent := ((← get).itable dp).inum
      if (← dirlink ip dotdot parent) < 0 then return false
      else return decide (0 ≤ (← dirlink dp name inum))
  else return decide (0 ≤ (← dirlink dp name inum))

-- create from ialloc on, with dp locked and no entry of that name in it.
def createNew (dp : Ip) (name : Name) (type : FileType) (major minor : BitVec 16) : FsM (Option Ip) := do
  match ← ialloc ((← get).itable dp).dev type with
  | none =>
      iunlockput dp
      return none
  | some ip =>
      ilock ip
      modify (·.setCopy ip fun d => { d with major := major, minor := minor, nlink := 1 })
      iupdate ip
      if ← createLinks dp ip name type then
        if type = .dir then
          modify (·.setCopy dp fun d => d.setNlink (d.nlink + 1))
          iupdate dp
        iunlockput dp
        return some ip
      else
        modify (·.setCopy ip fun d => d.setNlink 0)
        iupdate ip
        iunlockput ip
        iunlockput dp
        return none

def create (cwd : Ip) (path : List UInt8) (type : FileType) (major minor : BitVec 16) :
    FsM (Option Ip) := do
  match ← nameiparent cwd path with
  | none => return none
  | some (dp, name) =>
      ilock dp
      match ← dirlookup dp name with
      | some (ip, _) =>
          iunlockput dp
          ilock ip
          let found := ((← get).itable ip).copy.type
          if type = .file ∧ (found = .file ∨ found = .device) then return some ip
          else
            iunlockput ip
            return none
      | none => createNew dp name type major minor

-- sys_link's label bad.
def linkBad (ip : Ip) : FsM Int := do
  ilock ip
  modify (·.setCopy ip fun d => d.setNlink (d.nlink - 1))
  iupdate ip
  iunlockput ip
  endOp
  return -1

-- sys_link once ip->nlink has been increased.
def linkNew (cwd ip : Ip) (new : List UInt8) : FsM Int := do
  match ← nameiparent cwd new with
  | none => linkBad ip
  | some (dp, name) =>
      ilock dp
      let s ← get
      if (s.itable dp).dev ≠ (s.itable ip).dev then
        iunlockput dp
        linkBad ip
      else if (← dirlink dp name (s.itable ip).inum) < 0 then
        iunlockput dp
        linkBad ip
      else
        iunlockput dp
        iput ip
        endOp
        return 0

-- none is a path that argstr could not fetch.
def sysLink (cwd : Ip) (old new : Option (List UInt8)) : FsM Int := do
  match old, new with
  | some old, some new =>
      beginOp
      match ← namei cwd old with
      | none =>
          endOp
          return -1
      | some ip =>
          ilock ip
          if ((← get).itable ip).copy.type = .dir then
            iunlockput ip
            endOp
            return -1
          else
            modify (·.setCopy ip fun d => d.setNlink (d.nlink + 1))
            iupdate ip
            iunlock ip
            linkNew cwd ip new
  | _, _ => return -1

def isdiremptyLoop (i : Ip) : (count off : ℕ) → FsM Bool
  | 0, _ => return true
  | count + 1, off => do
      match ← readDirent i off with
      | none => throw (.panic .isdirempty)
      | some de => if de.inum ≠ 0 then return false else isdiremptyLoop i count (off + DIRENTSIZE)

-- The loop starts after "." and "..".
def isdirempty (i : Ip) : FsM Bool := do
  let size := ((← get).itable i).copy.size
  isdiremptyLoop i (direntCount size - 2) (2 * DIRENTSIZE)

-- sys_unlink once the entry at off is to go.
def unlinkEntry (dp ip : Ip) (off : ℕ) : FsM Int := do
  if (← writeDirent dp ⟨0, []⟩ off) ≠ DIRENTSIZE then throw (.panic .unlinkWritei)
  else
    if ((← get).itable ip).copy.type = .dir then
      modify (·.setCopy dp fun d => d.setNlink (d.nlink - 1))
      iupdate dp
    iunlockput dp
    modify (·.setCopy ip fun d => d.setNlink (d.nlink - 1))
    iupdate ip
    iunlockput ip
    endOp
    return 0

-- sys_unlink's label bad.
def unlinkBad (dp : Ip) : FsM Int := do
  iunlockput dp
  endOp
  return -1

def sysUnlink (cwd : Ip) (path : Option (List UInt8)) : FsM Int := do
  match path with
  | none => return -1
  | some path =>
      beginOp
      match ← nameiparent cwd path with
      | none =>
          endOp
          return -1
      | some (dp, name) =>
          ilock dp
          if namecmp name dot = 0 ∨ namecmp name dotdot = 0 then unlinkBad dp
          else
            match ← dirlookup dp name with
            | none => unlinkBad dp
            | some (ip, off) =>
                ilock ip
                let copy := ((← get).itable ip).copy
                if copy.nlink.slt 1 then throw (.panic .unlinkNlink)
                else if copy.type = .dir then
                  if ← isdirempty ip then unlinkEntry dp ip off
                  else
                    iunlockput ip
                    unlinkBad dp
                else unlinkEntry dp ip off

end Xv6
