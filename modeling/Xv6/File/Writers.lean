import Xv6.File.Read
import Xv6.Kernel

namespace Xv6

open Wp Transition FilesM

namespace Fs

variable {s t u : Fs} {i : Ip} {x y : ℕ}

-- The directories of s that have not been freed in t have the content they had.
def SameDirs (s t : Fs) : Prop :=
  ∀ x, (s.view x).type = .dir → (t.view x).type = .free ∨ (t.view x).type = .dir ∧ t.contents x = s.contents x

theorem SameDirs.refl (s : Fs) : SameDirs s s := fun _ hx => .inr ⟨hx, rfl⟩

-- Everything but inode x stays, and x was no directory or is free now.
theorem SameDirs.step (h : SameDirs s t) (hother : ∀ y, y ≠ x → u.view y = t.view y ∧ u.contents y = t.contents y)
    (hx : (u.view x).type = .free ∨ (t.view x).type ≠ .dir ∧ (t.view x).type ≠ .free) : SameDirs s u := by
  intro y hy
  by_cases hyx : y = x
  · subst hyx
    rcases hx with hfree | ⟨hdir, hused⟩
    · exact .inl hfree
    · rcases h y hy with hfree | ⟨hdir', -⟩
      · exact absurd hfree hused
      · exact absurd hdir' hdir
  · rw [(hother y hyx).1, (hother y hyx).2]
    exact h y hy

theorem SameDirs.writes (h : SameDirs s t) (ht : t.Ok) (hi : t.Held i x) (htype : (t.view x).type ≠ .dir)
    (hw : Writes i x t u) : SameDirs s u := by
  have hused : (t.view x).type ≠ .free := by
    rw [ht.table.view_eq hi]
    exact ht.table.typed i hi.ref hi.valid
  exact h.step (fun y hy => ⟨hw.grows.other y hy, hw.contents_other ht hy⟩) (.inr ⟨htype, hused⟩)

end Fs

-- struct stat
structure Stat where
  dev : ℕ
  ino : ℕ
  type : FileType
  nlink : BitVec 16
  size : ℕ

def stati (ip : Ip) : FsM Stat := do
  let inode := (← get).itable ip
  return ⟨inode.dev, inode.inum, inode.copy.type, inode.copy.nlink, inode.copy.size⟩

def filestat (f : Fd) : FilesM (Option Stat) := do
  match ((← get).ftable f).kind.ip with
  | none => return none
  | some ip =>
      ofFs (ilock ip)
      let st ← ofFs (stati ip)
      ofFs (iunlock ip)
      return some st

def sysFstat (p : Slot) (fd : Int) (copied : Bool) : FilesM Int := do
  match ← argfd p fd with
  | none => return -1
  | some (_, f) =>
      match ← filestat f with
      | none => return -1
      | some _ => return if copied then 0 else -1

def sysRead (p : Slot) (fd : Int) (limit : ℕ) (pipes : ℕ → List (Look PipeBuf)) (cons : List (Look Cons))
    (dst : UserBuf) (n : BitVec 32) : FilesM (Option Int × UserBuf) := do
  match ← argfd p fd with
  | none => return (some (-1), dst)
  | some (_, f) => fileread (UserBuf.copyout limit) pipes cons f dst n

-- other is what pipewrite or consolewrite returns. With n negative the loop of filewrite is
-- not entered, and i == n fails.
def sysWrite (p : Slot) (fd : Int) (src : Source) (n : BitVec 32) (other : FileKind → Int) : FilesM Int := do
  match ← argfd p fd with
  | none => return -1
  | some (_, f) =>
      let r ← filewrite (fun kind => pure (other kind)) f src n.toInt.toNat
      match ((← get).ftable f).kind with
      | .inode _ _ => return if n.toInt < 0 then -1 else r
      | _ => return r

inductive IoCall
  | file (call : FileCall)
  | read (fd : Int) (limit : ℕ) (pipes : ℕ → List (Look PipeBuf)) (cons : List (Look Cons)) (dst : UserBuf)
      (n : BitVec 32)
  | write (fd : Int) (src : Source) (n : BitVec 32) (other : FileKind → Int)
  | fstat (fd : Int) (copied : Bool)
  | pipe (pagetable fdarray : ℕ)

namespace IoCall

def run (p : Slot) : IoCall → FilesM Unit
  | file call => call.run p
  | read fd limit pipes cons dst n => discard (sysRead p fd limit pipes cons dst n)
  | write fd src n other => discard (sysWrite p fd src n other)
  | fstat fd copied => discard (sysFstat p fd copied)
  | pipe pagetable fdarray => discard (sysPipe p pagetable fdarray)

def Ready (s : Files) : IoCall → Prop
  | file call => call.Ready s
  | _ => True

end IoCall

namespace Files

variable {I : Fs → Prop} {E : FsStop → Prop} {s t : Files} {f : Fd} {ip : Ip} {off n : ℕ}

variable {fs : Fs}

theorem AtRest.advance (h : AtRest I s) (f : Fd) (r : ℕ) :
    AtRest I (s.setFile f fun file => { file with kind := file.kind.advance r }) := by
  have hip : (FileKind.advance r (s.ftable f).kind).ip = (s.ftable f).kind.ip := by
    cases (s.ftable f).kind <;> rfl
  refine Holds.setFile h f _ (fun i => ?_) (fun _ _ => le_refl _) (h.files f) (fun hz => ?_) fun hw i hi => ?_
  · rw [hip]
  · change FileKind.advance r (s.ftable f).kind = .none
    rw [h.idle f hz]
    rfl
  · rw [hip] at hi
    exact h.writers f i hw hi

structure WriteFile (I : Fs → Prop) (f : Fd) (ip : Ip) (s : Files) : Prop where
  rest : AtRest I s
  writable : (s.ftable f).writable = true
  kind : ∃ off, (s.ftable f).kind = .inode ip off

theorem WriteFile.of_net (h : WriteFile I f ip s) (hnet : s.fs.Net fs []) (hI : I fs) :
    WriteFile I f ip { s with fs := fs } :=
  ⟨Holds.of_net h.rest hnet hI, h.writable, h.kind⟩

theorem WriteFile.advance (h : WriteFile I f ip s) (r : ℕ) :
    WriteFile I f ip (s.setFile f fun file => { file with kind := file.kind.advance r }) := by
  obtain ⟨off, hkind⟩ := h.kind
  refine ⟨h.rest.advance f r, ?_, (off + r) % 2 ^ 32, ?_⟩
  · simp [setFile, h.writable]
  · simp [setFile, hkind, FileKind.advance]

section Pipe

variable {cwd : Slot → Option Ip} {ofile : Slot → Fin NOFILE → Option Fd} {L : List Ip} {M : List Fd}

end Pipe

-- A well-formed file system of which D holds; the functions of fs.c keep D.
def Sound (D : Fs → Prop) (fs : Fs) : Prop := fs.Ok ∧ fs.Clean ∧ D fs

end Files

end Xv6
