import Xv6.Fs.Theorems
import Xv6.Lib.Simulation

namespace Xv6

open Wp Simulation
open Function (update)

-- A block that is passed to log_write: IBLOCK and BBLOCK counted from the start of
-- their area, or the number of a data block.
inductive LogBlock
  | inode (k : ℕ) | bitmap (k : ℕ) | data (b : ℕ)
  deriving DecidableEq, Repr

-- The inode layer on top of the log. The buffers have what fs has; home is what the disk
-- has in the data blocks, and log is log.lh.block.
structure Logged where
  fs : Fs
  home : Disk
  log : List LogBlock

abbrev LoggedM := StateT Logged (Except FsStop)

namespace Logged

-- Code that passes no block to log_write.
def ofFs {α : Type} (m : FsM α) : LoggedM α := zoom Logged.fs (fun s fs => { s with fs := fs }) id m

-- A block that is in the log is absorbed.
def logWrite (b : LogBlock) : LoggedM Unit :=
  modify fun s => { s with log := if b ∈ s.log then s.log else s.log ++ [b] }

-- fs.c

def bzero (b : ℕ) : LoggedM Unit := do
  ofFs (modify fun s => { s with data := update s.data b fun _ => 0 })
  logWrite (.data b)

def balloc : LoggedM ℕ := do
  let s := (← get).fs
  match (List.range s.sb.size).find? fun b => !s.bitmap b with
  | some b =>
      ofFs (modify fun s => { s with bitmap := update s.bitmap b true })
      logWrite (.bitmap (b / BPB))
      bzero b
      return b
  | none => return 0

def iupdate (i : Ip) : LoggedM Unit := do
  ofFs (Xv6.iupdate i)
  logWrite (.inode (((← get).fs.itable i).inum / IPB))

def bmapAddr (i : Ip) (j : ℕ) : LoggedM ℕ := do
  let addr := ((← get).fs.itable i).copy.addrs j
  if addr ≠ 0 then return addr
  else
    let addr ← balloc
    if addr = 0 then return 0
    else
      ofFs (modify (·.setCopy i fun d => d.setAddr j addr))
      return addr

def bmapIndirect (indirect bn : ℕ) : LoggedM ℕ := do
  let addr := ((← get).fs.data indirect).word bn
  if addr ≠ 0 then return addr
  else
    let addr ← balloc
    if addr = 0 then return 0
    else
      ofFs (modify fun s => { s with
        data := update s.data indirect ((s.data indirect).setWord bn addr) })
      logWrite (.data indirect)
      return addr

def bmap (i : Ip) (bn : ℕ) : LoggedM ℕ := do
  if bn < NDIRECT then bmapAddr i bn
  else if bn - NDIRECT < NINDIRECT then
    let indirect ← bmapAddr i NDIRECT
    if indirect = 0 then return 0
    else bmapIndirect indirect (bn - NDIRECT)
  else throw (.panic .bmap)

def readLoop {δ : Type} (copyout : Copyout δ) (i : Ip) (n : ℕ) : (fuel tot off : ℕ) → δ → LoggedM (Int × δ)
  | 0, tot, _, dst => return (tot, dst)
  | fuel + 1, tot, off, dst =>
      if n ≤ tot then return (tot, dst)
      else do
        let addr ← bmap i (off / BSIZE)
        if addr = 0 then return (tot, dst)
        else
          let m := min (n - tot) (BSIZE - off % BSIZE)
          let b := (← get).fs.data addr
          let (dst, ok) := copyout dst tot (fun k => b.bytes (off % BSIZE + k)) m
          if ok then readLoop copyout i n fuel (tot + m) (off + m) dst else return (-1, dst)

def readi (i : Ip) (copies : ℕ → ℕ → Bool) (dst : ℕ → UInt8) (off n : ℕ) : LoggedM (Int × (ℕ → UInt8)) := do
  let size := ((← get).fs.itable i).copy.size
  if off > size ∨ (off + n) % 2 ^ 32 < off then return (0, dst)
  else
    let n := if (off + n) % 2 ^ 32 > size then size - off else n
    readLoop (bufCopyout copies) i n n 0 off dst

-- A block that either_copyin has failed on is not passed to log_write.
def writeLoop (i : Ip) (src : Source) (n : ℕ) : (fuel tot off : ℕ) → LoggedM (ℕ × ℕ)
  | 0, tot, off => return (tot, off)
  | fuel + 1, tot, off =>
      if n ≤ tot then return (tot, off)
      else do
        let addr ← bmap i (off / BSIZE)
        if addr = 0 then return (tot, off)
        else
          let m := min (n - tot) (BSIZE - off % BSIZE)
          let (b, copied) := src.copyin ((← get).fs.data addr) tot (off % BSIZE) m
          ofFs (modify fun s => { s with data := update s.data addr b })
          if copied then
            logWrite (.data addr)
            writeLoop i src n fuel (tot + m) (off + m)
          else return (tot, off)

def writei (i : Ip) (src : Source) (off n : ℕ) : LoggedM Int := do
  if off > ((← get).fs.itable i).copy.size ∨ (off + n) % 2 ^ 32 < off then return -1
  else if (off + n) % 2 ^ 32 > MAXFILE * BSIZE then return -1
  else
    let (tot, off) ← writeLoop i src n n 0 off
    ofFs (modify (·.setCopy i fun d => d.setSize (if off > d.size then off else d.size)))
    iupdate i
    return tot

-- Without the log it is the inode layer.
def Erases {α : Type} (m : LoggedM α) (n : FsM α) : Prop := Simulates (fun s f => s.fs = f) (· = ·) m n

namespace Erases

variable {α β : Type}

variable {m : LoggedM α} {n : FsM α}

theorem pure (a : α) : Erases (Pure.pure a) (Pure.pure a) := Simulates.pure rfl

theorem throw (e : FsStop) : Erases (MonadExcept.throw e : LoggedM α) (MonadExcept.throw e) := Simulates.throw e

theorem bind {f : α → LoggedM β} {g : α → FsM β} (h : Erases m n)
    (hrest : ∀ a, Erases (f a) (g a)) : Erases (m >>= f) (n >>= g) :=
  Simulates.bind h fun a _ hab => hab ▸ hrest a

theorem get {f : Logged → LoggedM α} {g : Fs → FsM α} (h : ∀ s, Erases (f s) (g s.fs)) :
    Erases (MonadState.get >>= f) (MonadState.get >>= g) := by
  rintro s _ rfl
  exact h s s _ rfl

theorem ite {c : Prop} [Decidable c] {m' : LoggedM α} {n' : FsM α} (h : c → Erases m n)
    (h' : ¬c → Erases m' n') : Erases (if c then m else m') (if c then n else n') := by
  split
  · exact h (by assumption)
  · exact h' (by assumption)

theorem ofFs (m : FsM α) : Erases (Logged.ofFs m) m := by
  rintro s _ rfl
  unfold Logged.ofFs zoom
  cases m s.fs with
  | error e => rfl
  | ok r => exact ⟨rfl, rfl⟩

theorem logWrite (b : LogBlock) : Erases (Logged.logWrite b) (Pure.pure ()) := by
  rintro s _ rfl
  exact ⟨rfl, rfl⟩

-- What holds of the inode layer holds of it above the log.
theorem wp (h : Erases m n) {post : α → Fs → Prop} {err : FsStop → Prop} {s : Logged}
    (hn : Wp.wp n post err s.fs) : Wp.wp m (fun a t => post a t.fs) err s := by
  have hsame := h s s.fs rfl
  unfold Wp.wp at hn ⊢
  cases hm : m s with
  | error e =>
      cases hn' : n s.fs with
      | error e' =>
          rw [hm, hn'] at hsame
          rw [hn'] at hn
          exact hsame ▸ hn
      | ok r =>
          rw [hm, hn'] at hsame
          exact hsame.elim
  | ok r =>
      cases hn' : n s.fs with
      | error e =>
          rw [hm, hn'] at hsame
          exact hsame.elim
      | ok r' =>
          rw [hm, hn'] at hsame
          rw [hn'] at hn
          have hvalue : r.1 = r'.1 := hsame.1
          have hstate : r.2.fs = r'.2 := hsame.2
          change post r.1 r.2.fs
          rw [hvalue, hstate]
          exact hn

theorem andLog {m f : LoggedM Unit} {n : FsM Unit} (h : Erases m n) (hf : Erases f (Pure.pure ())) :
    Erases (m >>= fun _ => f) n := by
  have hbind := h.bind fun _ => hf
  rwa [bind_pure_unit] at hbind

theorem log (b : LogBlock) (h : Erases m n) :
    Erases (Logged.logWrite b >>= fun _ => m) n := by
  have hbind := (logWrite b).bind fun _ => h
  rwa [pure_bind] at hbind

end Erases

theorem get_bind {σ α : Type} (f : σ → StateT σ (Except FsStop) α) (s : σ) : (get >>= f) s = f s s := rfl

theorem balloc_erases : Erases balloc Xv6.balloc := by
  rintro s _ rfl
  unfold balloc Xv6.balloc
  rw [get_bind, get_bind]
  cases (List.range s.fs.sb.size).find? fun b => !s.fs.bitmap b with
  | none => exact ⟨rfl, rfl⟩
  | some b => exact ⟨rfl, rfl⟩

theorem iupdate_erases (i : Ip) : Erases (iupdate i) (Xv6.iupdate i) := by
  refine (Erases.ofFs _).andLog ?_
  rintro s _ rfl
  exact ⟨rfl, rfl⟩

theorem bmapAddr_erases (i : Ip) (j : ℕ) : Erases (bmapAddr i j) (Xv6.bmapAddr i j) := by
  refine .get fun s => .ite (fun _ => .pure _) fun _ => balloc_erases.bind fun addr => ?_
  exact .ite (fun _ => .pure 0) fun _ => (Erases.ofFs _).bind fun _ => .pure addr

theorem bmapIndirect_erases (indirect bn : ℕ) : Erases (bmapIndirect indirect bn) (Xv6.bmapIndirect indirect bn) := by
  refine .get fun s => .ite (fun _ => .pure _) fun _ => balloc_erases.bind fun addr => ?_
  exact .ite (fun _ => .pure 0) fun _ => (Erases.ofFs _).bind fun _ => .log _ (.pure addr)

theorem bmap_erases (i : Ip) (bn : ℕ) : Erases (bmap i bn) (Xv6.bmap i bn) := by
  refine .ite (fun _ => bmapAddr_erases i bn) fun _ => .ite (fun _ => ?_) fun _ => .throw _
  exact (bmapAddr_erases i NDIRECT).bind fun indirect => .ite (fun _ => .pure 0) fun _ => bmapIndirect_erases _ _

theorem readLoop_erases {δ : Type} (copyout : Copyout δ) (i : Ip) (n fuel tot off : ℕ) (dst : δ) :
    Erases (readLoop copyout i n fuel tot off dst) (Xv6.readLoop copyout i n fuel tot off dst) := by
  induction fuel generalizing tot off dst with
  | zero => exact .pure _
  | succ fuel ih =>
      refine .ite (fun _ => .pure _) fun _ => (bmap_erases i _).bind fun addr => .ite (fun _ => .pure _) fun _ => ?_
      exact .get fun _ => .ite (fun _ => ih _ _ _) fun _ => .pure _

theorem readi_erases (i : Ip) (copies : ℕ → ℕ → Bool) (dst : ℕ → UInt8) (off n : ℕ) :
    Erases (readi i copies dst off n) (Xv6.readi i copies dst off n) :=
  .get fun _ => .ite (fun _ => .pure _) fun _ => readLoop_erases _ i _ _ 0 off dst

theorem writeLoop_erases (i : Ip) (src : Source) (n fuel tot off : ℕ) :
    Erases (writeLoop i src n fuel tot off) (Xv6.writeLoop i src n fuel tot off) := by
  induction fuel generalizing tot off with
  | zero => exact .pure _
  | succ fuel ih =>
      refine .ite (fun _ => .pure _) fun _ => (bmap_erases i _).bind fun addr => .ite (fun _ => .pure _) fun _ => ?_
      refine .get fun _ => (Erases.ofFs _).bind fun _ => ?_
      exact .ite (fun _ => .log _ (ih _ _)) fun _ => .pure _

theorem writei_erases (i : Ip) (src : Source) (off n : ℕ) :
    Erases (writei i src off n) (Xv6.writei i src off n) := by
  refine .get fun _ => .ite (fun _ => .pure _) fun _ => .ite (fun _ => .pure _) fun _ => ?_
  exact (writeLoop_erases i src n n 0 off).bind fun r => (Erases.ofFs _).bind fun _ => (iupdate_erases i).bind
    fun _ => .pure _

end Logged

end Xv6
