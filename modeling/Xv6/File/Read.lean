import Xv6.Console
import Xv6.File.Write
import Xv6.Pipe.Read

namespace Xv6

open Wp FilesM

-- file.h
def CONSOLE : ℕ := 1

-- What a process finds under a lock it has slept on, and whether it has been killed.
structure Look (α : Type) where
  data : α
  killed : Bool

variable {δ : Type}

-- piperead; none while it sleeps. The process finds looks, one after the other.
def PipeBuf.pipereadTo (copyout : Copyout δ) (n : Int) : (looks : List (Look PipeBuf)) → δ → Option (Int × PipeBuf) × δ
  | [], dst => (none, dst)
  | look :: rest, dst =>
      if look.data.empty && look.data.writeopen then
        if look.killed then (some (-1, look.data), dst) else pipereadTo copyout n rest dst
      else
        let (i, pi, dst) := copyLoop copyout n.toNat 0 look.data dst
        (some (i, pi), dst)

-- consoleread between two sleeps: the buffers, the number target - n of bytes copied so
-- far, and whether it is to sleep.
structure ConsPass (δ : Type) where
  cons : Cons
  dst : δ
  i : ℕ
  asleep : Bool

def Cons.readPass (copyout : Copyout δ) : (n i : ℕ) → Cons → δ → ConsPass δ
  | 0, i, cons, dst => ⟨cons, dst, i, false⟩
  | n + 1, i, cons, dst =>
      if cons.r = cons.w then ⟨cons, dst, i, true⟩
      else
        let c := cons.get cons.r
        if c = ctrl 'D' then ⟨if 0 < i then cons else { cons with r := cons.r + 1 }, dst, i, false⟩
        else
          let cons : Cons := { cons with r := cons.r + 1 }
          let (dst, ok) := copyout dst i (fun _ => c) 1
          if ok then if c = newline then ⟨cons, dst, i + 1, false⟩ else readPass copyout n (i + 1) cons dst
          else ⟨cons, dst, i, false⟩

-- consoleread from the point where it has copied i bytes; none while it sleeps. With n
-- negative the loop is not entered and target - n is 0.
def Cons.consoleread (copyout : Copyout δ) (n : Int) :
    (looks : List (Look Cons)) → (i : ℕ) → δ → Option (Int × Cons) × δ
  | [], _, dst => (none, dst)
  | look :: rest, i, dst =>
      let pass := readPass copyout (n.toNat - i) i look.data dst
      if pass.asleep then
        if look.killed then (some (-1, pass.cons), pass.dst) else consoleread copyout n rest pass.i pass.dst
      else (some (pass.i, pass.cons), pass.dst)

-- devsw[f->major].read is consoleread for the console and null for the others. pipes and
-- cons are what the process finds when it reads a pipe or the console.
def fileread (copyout : Copyout δ) (pipes : ℕ → List (Look PipeBuf)) (cons : List (Look Cons)) (f : Fd) (dst : δ)
    (n : BitVec 32) : FilesM (Option Int × δ) := do
  let file := (← get).ftable f
  if file.readable = false then return (some (-1), dst)
  else
    match file.kind with
    | .none => throw .fileread
    | .pipe pi =>
        let (r, dst) := PipeBuf.pipereadTo copyout n.toInt (pipes pi) dst
        return (r.map (·.1), dst)
    | .device _ major =>
        if major.toInt < 0 ∨ NDEV ≤ major.toInt ∨ major.toInt ≠ CONSOLE then return (some (-1), dst)
        else
          let (r, dst) := Cons.consoleread copyout n.toInt cons 0 dst
          return (r.map (·.1), dst)
    | .inode ip _ =>
        ofFs (ilock ip)
        let (r, dst) ← ofFs (readiTo copyout ip dst ((← get).ftable f).kind.off n.toNat)
        if r > 0 then modify (·.setFile f fun file => { file with kind := file.kind.advance r.toNat })
        ofFs (iunlock ip)
        return (some r, dst)

-- consoleread between two sleeps in the concurrent model.
theorem Cons.readPass_steps (copyout : Copyout δ) (a : Sleep.Agent) (n i : ℕ) (cons : Cons) (dst : δ) :
    ∃ l, Transition.Reaches (fun x y => ∃ ch, code a x.1 x.2 ch = some (.data y.2 y.1)) (.read (i + n : ℕ) n, cons)
      (l, (readPass copyout n i cons dst).cons) ∧
      if (readPass copyout n i cons dst).asleep then
        l = .read (i + n : ℕ) (i + n - (readPass copyout n i cons dst).i : ℕ) ∧
          (readPass copyout n i cons dst).cons.r = (readPass copyout n i cons dst).cons.w
      else l = .release := by
  induction n generalizing i cons dst with
  | zero => exact ⟨.release, .single ⟨.copyout true, by simp [code, readPass]⟩, rfl⟩
  | succ n ih =>
      unfold readPass
      split
      · rename_i hempty
        exact ⟨_, .refl, by simp [hempty]⟩
      · rename_i hsome
        have hpos : (0 : Int) < (n + 1 : ℕ) := by omega
        simp only
        split
        · rename_i heof
          refine ⟨.release, .single ⟨.copyout true, ?_⟩, rfl⟩
          simp only [code, if_pos hpos, if_neg hsome, if_pos heof, readEof]
          by_cases hi : 0 < i
          · rw [if_pos hi, if_pos (by omega)]
          · rw [if_neg hi, if_neg (by omega)]
        · rename_i hchar
          split
          · split
            · rename_i hline
              refine ⟨.release, .single ⟨.copyout true, ?_⟩, rfl⟩
              simp only [code, if_pos hpos, if_neg hsome, if_neg hchar, if_pos hline]
            · rename_i hline
              obtain ⟨l, hrun, hl⟩ := ih (i + 1) { cons with r := cons.r + 1 }
                (copyout dst i (fun _ => cons.get cons.r) 1).1
              rw [show i + 1 + n = i + (n + 1) by omega] at hrun hl
              refine ⟨l, .head ⟨.copyout true, ?_⟩ hrun, hl⟩
              simp only [code, if_pos hpos, if_neg hsome, if_neg hchar, if_neg hline]
              rw [show ((n + 1 : ℕ) : Int) - 1 = n by omega]
          · refine ⟨.release, .single ⟨.copyout false, ?_⟩, rfl⟩
            simp only [code, if_pos hpos, if_neg hsome, if_neg hchar]

-- P holds of the buffer when its first tot bytes may have been written to; the pieces
-- that a read of n bytes copies keep it.
def Copyout.Keeps (copyout : Copyout δ) (n : ℕ) (P : ℕ → δ → Prop) : Prop :=
  ∀ dst tot src m, tot + m ≤ n → P tot dst → P (tot + m) (copyout dst tot src m).1

section Keeps

variable {copyout : Copyout δ} {P : ℕ → δ → Prop} {n : ℕ} {dst : δ}

theorem PipeBuf.copyLoop_keeps (hP : copyout.Keeps n P) (pi : PipeBuf) {rounds i : ℕ} (hn : i + rounds ≤ n)
    (hdst : P i dst) :
    (copyLoop copyout rounds i pi dst).1 ≤ n ∧ ∃ k ≤ n, P k (copyLoop copyout rounds i pi dst).2.2 := by
  induction rounds generalizing i pi dst with
  | zero => exact ⟨hn, i, hn, hdst⟩
  | succ rounds ih =>
      have hnext := hP dst i (fun _ => pi.data (pi.nread.toNat % PIPESIZE)) 1 (by omega) hdst
      unfold copyLoop
      split
      · exact ⟨by simp only; omega, i, by omega, hdst⟩
      · simp only
        split
        · exact ih _ (by omega) hnext
        · exact ⟨by simp only; omega, i + 1, by omega, hnext⟩

theorem PipeBuf.pipereadTo_keeps {n : Int} (hP : copyout.Keeps n.toNat P) (looks : List (Look PipeBuf))
    (hdst : P 0 dst) :
    (∀ r ∈ (pipereadTo copyout n looks dst).1, r.1 ≤ n.toNat) ∧
      ∃ k ≤ n.toNat, P k (pipereadTo copyout n looks dst).2 := by
  induction looks with
  | nil => exact ⟨fun _ hr => (Option.not_mem_none _ hr).elim, 0, Nat.zero_le _, hdst⟩
  | cons look rest ih =>
      unfold pipereadTo
      split
      · split
        · refine ⟨fun r hr => ?_, 0, by omega, hdst⟩
          cases hr
          simp only
          omega
        · exact ih
      · have hloop := copyLoop_keeps hP look.data (Nat.le_of_eq (Nat.zero_add n.toNat)) hdst
        refine ⟨fun r hr => ?_, hloop.2⟩
        cases hr
        exact Int.ofNat_le.mpr hloop.1

theorem Cons.readPass_keeps (hP : copyout.Keeps n P) (cons : Cons) {rounds i : ℕ} (hn : i + rounds ≤ n)
    (hdst : P i dst) :
    (readPass copyout rounds i cons dst).i ≤ n ∧ (∃ k ≤ n, P k (readPass copyout rounds i cons dst).dst) ∧
      ((readPass copyout rounds i cons dst).asleep = true →
        P (readPass copyout rounds i cons dst).i (readPass copyout rounds i cons dst).dst) := by
  induction rounds generalizing i cons dst with
  | zero => exact ⟨hn, ⟨i, hn, hdst⟩, fun h => by cases h⟩
  | succ rounds ih =>
      have hnext := hP dst i (fun _ => cons.get cons.r) 1 (by omega) hdst
      unfold readPass
      split
      · exact ⟨by simp only; omega, ⟨i, by omega, hdst⟩, fun _ => hdst⟩
      · simp only
        split
        · exact ⟨by simp only; omega, ⟨i, by omega, hdst⟩, fun h => by cases h⟩
        · split
          · split
            · exact ⟨by simp only; omega, ⟨i + 1, by omega, hnext⟩, fun h => by cases h⟩
            · exact ih _ (by omega) hnext
          · exact ⟨by simp only; omega, ⟨i + 1, by omega, hnext⟩, fun h => by cases h⟩

theorem Cons.consoleread_keeps {n : Int} (hP : copyout.Keeps n.toNat P) (looks : List (Look Cons)) {i : ℕ}
    (hi : i ≤ n.toNat) (hdst : P i dst) :
    (∀ r ∈ (consoleread copyout n looks i dst).1, r.1 ≤ n.toNat) ∧
      ∃ k ≤ n.toNat, P k (consoleread copyout n looks i dst).2 := by
  induction looks generalizing i dst with
  | nil => exact ⟨fun _ hr => (Option.not_mem_none _ hr).elim, i, hi, hdst⟩
  | cons look rest ih =>
      obtain ⟨hle, hkeep, hasleep⟩ := readPass_keeps hP look.data (show i + (n.toNat - i) ≤ n.toNat by omega) hdst
      unfold consoleread
      simp only
      split
      · rename_i hsleeps
        split
        · refine ⟨fun r hr => ?_, hkeep⟩
          cases hr
          simp only
          omega
        · exact ih hle (hasleep hsleeps)
      · refine ⟨fun r hr => ?_, hkeep⟩
        cases hr
        exact Int.ofNat_le.mpr hle

theorem readLoop_keeps (hP : copyout.Keeps n P) (i : Ip) {fuel tot off : ℕ} (htot : tot ≤ n) (hdst : P tot dst)
    (s : Fs) :
    wp (readLoop copyout i n fuel tot off dst) (fun out _ => out.1 ≤ n ∧ ∃ k ≤ n, P k out.2) (fun _ => True) s := by
  induction fuel generalizing tot off dst s with
  | zero => exact ⟨Int.ofNat_le.mpr htot, tot, htot, hdst⟩
  | succ fuel ih =>
      unfold readLoop
      simp only [wp_ite, wp_pure, wp_bind]
      split
      · exact ⟨Int.ofNat_le.mpr htot, tot, htot, hdst⟩
      · refine wp_of_forall (fun addr t => ?_) fun _ => trivial
        have hnext := fun src => hP dst tot src (min (n - tot) (BSIZE - off % BSIZE)) (by omega) hdst
        split
        · exact ⟨Int.ofNat_le.mpr htot, tot, htot, hdst⟩
        · simp only [wp_get]
          split
          · exact ih (by omega) (hnext _) t
          · exact ⟨by omega, _, by omega, hnext _⟩

-- The offset does not wrap over what readi has read.
theorem readiTo_keeps {off : ℕ} (hn : n < 2 ^ 32) (hP : copyout.Keeps n P) (i : Ip) (hdst : P 0 dst) (s : Fs) :
    wp (readiTo copyout i dst off n) (fun out _ => out.1 ≤ n ∧ (0 < out.1 → off + out.1 < 2 ^ 32) ∧
      ∃ k ≤ n, P k out.2) (fun _ => True) s := by
  unfold readiTo
  simp only [wp_bind, wp_get, wp_ite, wp_pure]
  split
  · exact ⟨Int.natCast_nonneg n, fun h => absurd h (lt_irrefl 0), 0, Nat.zero_le n, hdst⟩
  · rename_i hin
    set m := if (off + n) % 2 ^ 32 > (s.itable i).copy.size then (s.itable i).copy.size - off else n with hm
    have hle : m ≤ n := by
      split at hm
      · have := Nat.mod_le (off + n) (2 ^ 32)
        omega
      · omega
    have hfits : 0 < m → off + m < 2 ^ 32 := by
      have := Nat.mod_lt (off + n) (show 0 < 2 ^ 32 by decide)
      split at hm
      · omega
      · omega
    have hP' : copyout.Keeps m P := fun dst tot src k hk => hP dst tot src k (by omega)
    refine wp_mono (readLoop_keeps hP' i (Nat.zero_le m) hdst s) (fun out t hout => ?_) fun _ he => he
    obtain ⟨hr, k, hk, hPk⟩ := hout
    exact ⟨by omega, fun hpos => by omega, k, by omega, hPk⟩

end Keeps

section Same

variable {s : Fs} {i : Ip} {x n : ℕ}

theorem readLoop_same (copyout : Copyout δ) (hs : s.Ok) (hi : s.Held i x) {fuel tot off : ℕ} (dst : δ)
    (hoff : off + (n - tot) ≤ (s.itable i).copy.size) :
    wp (readLoop copyout i n fuel tot off dst) (fun _ t => t = s) (fun _ => False) s := by
  induction fuel generalizing tot off dst with
  | zero => exact rfl
  | succ fuel ih =>
      unfold readLoop
      simp only [wp_ite, wp_pure, wp_bind]
      split
      · trivial
      · refine wp_mono (Fs.bmap_below_size hs hi (by omega)) (fun addr t ht => ?_) fun _ he => he
        obtain ⟨hnz, -, rfl⟩ := ht
        simp only [if_neg hnz, wp_get]
        split
        · exact ih _ (by omega)
        · trivial

theorem readiTo_same (copyout : Copyout δ) (hs : s.Ok) (hi : s.Held i x) (dst : δ) (off : ℕ) (hn : n < 2 ^ 32) :
    wp (readiTo copyout i dst off n) (fun _ t => t = s) (fun _ => False) s := by
  unfold readiTo
  simp only [wp_bind, wp_get, wp_ite, wp_pure]
  split
  · trivial
  · refine readLoop_same copyout hs hi dst ?_
    split
    · omega
    · omega

end Same

structure UserBuf where
  bytes : ℕ → UInt8
  stored : ℕ

-- copyout up to the first page that is not mapped for the user; limit bytes are.
def UserBuf.copyout (limit : ℕ) : Copyout UserBuf := fun dst tot src m =>
  let stop := min (tot + m) (max tot limit)
  (⟨fun k => if tot ≤ k ∧ k < stop then src (k - tot) else dst.bytes k, dst.stored + (stop - tot)⟩, stop = tot + m)

structure UserBuf.Within (dst : UserBuf) (k : ℕ) (out : UserBuf) : Prop where
  stored : out.stored ≤ dst.stored + k
  bytes : ∀ j, k ≤ j → out.bytes j = dst.bytes j

theorem UserBuf.copyout_keeps (limit n : ℕ) (dst : UserBuf) : (copyout limit).Keeps n dst.Within := by
  intro out tot src m _ hout
  have hstored := hout.stored
  refine ⟨?_, fun j hj => ?_⟩
  · simp only [copyout]
    omega
  · simp only [copyout]
    rw [if_neg (by omega)]
    exact hout.bytes j (by omega)

-- An open file; if it is on disk, nobody has the inode locked.
structure Opened (s : Files) (f : Fd) : Prop where
  kind : (s.ftable f).kind ≠ .none
  inode : ∀ ip off, (s.ftable f).kind = .inode ip off → ∃ x, OpenInode s f ip x off

section

variable {copyout : Copyout δ} {pipes : ℕ → List (Look PipeBuf)} {cons : List (Look Cons)} {f : Fd} {dst : δ}
  {n : BitVec 32} {s : Files}

-- What a read of n bytes may do to the buffer, and the offset after it.
structure Bounded (s : Files) (f : Fd) (dst : UserBuf) (n : Int) (out : Option Int × UserBuf) (t : Files) : Prop where
  result : ∀ r ∈ out.1, r ≤ max n 0
  copied : out.2.stored ≤ dst.stored + (max n 0).toNat
  bytes : ∀ k : ℕ, max n 0 ≤ k → out.2.bytes k = dst.bytes k
  off : ∀ ip off, (s.ftable f).kind = .inode ip off → ∀ r ∈ out.1, (t.ftable f).kind = .inode ip (off + (max r 0).toNat)

theorem bounded_of_within {dst : UserBuf} {n : Int} {out : Option Int × UserBuf} {t : Files}
    (hr : ∀ r ∈ out.1, r ≤ n.toNat) (hdst : ∃ k ≤ n.toNat, dst.Within k out.2)
    (hoff : ∀ ip off, (s.ftable f).kind = .inode ip off →
      ∀ r ∈ out.1, (t.ftable f).kind = .inode ip (off + (max r 0).toNat)) : Bounded s f dst n out t := by
  obtain ⟨k, hk, hwithin⟩ := hdst
  have hstored := hwithin.stored
  refine ⟨fun r hmem => ?_, by omega, fun j hj => hwithin.bytes j (by omega), hoff⟩
  have := hr r hmem
  omega

-- A loop with nothing to read, or whose first copyout fails.
theorem readLoop_nothing (dst : UserBuf) {limit m : ℕ} (h : m = 0 ∨ limit = 0) (ip : Ip) (fuel off : ℕ) (fs : Fs) :
    wp (readLoop (UserBuf.copyout limit) ip m fuel 0 off dst) (fun out _ => out.1 ≤ 0 ∧ dst.Within 0 out.2)
      (fun _ => True) fs := by
  have hstart : dst.Within 0 dst := ⟨Nat.le_refl _, fun _ _ => rfl⟩
  cases fuel with
  | zero => exact ⟨le_rfl, hstart⟩
  | succ fuel =>
      unfold readLoop
      simp only [wp_ite, wp_pure, wp_bind]
      split
      · exact ⟨le_rfl, hstart⟩
      · rename_i hm
        obtain rfl := h.resolve_left fun hzero => hm hzero.le
        refine wp_of_forall (fun addr t => ?_) fun _ => trivial
        split
        · exact ⟨le_rfl, hstart⟩
        · have hpiece : 0 < min (m - 0) (BSIZE - off % BSIZE) := by
            have := Nat.mod_lt off (show 0 < BSIZE by decide)
            omega
          simp only [wp_get, UserBuf.copyout, decide_eq_true_eq]
          rw [if_neg (by omega)]
          exact ⟨by decide, by simp only; omega, fun j _ => if_neg (by omega)⟩

-- The counts, offsets and buffers with which readi copies no more than n bytes: a count that is
-- negative wraps around below the offset, or there is nothing to read or no room for it.
def Harmless (limit : ℕ) (n : Int) (off size : ℕ) : Prop := 0 ≤ n ∨ limit = 0 ∨ -n ≤ off ∨ size ≤ off

theorem readiTo_bounded (dst : UserBuf) {off limit : ℕ} {ip : Ip} {fs : Fs}
    (h : Harmless limit n.toInt off (fs.itable ip).copy.size) :
    wp (readiTo (UserBuf.copyout limit) ip dst off n.toNat) (fun out _ => out.1 ≤ n.toInt.toNat ∧
      (0 < out.1 → off + out.1 < 2 ^ 32) ∧ ∃ k ≤ n.toInt.toNat, dst.Within k out.2) (fun _ => True) fs := by
  have hstart : dst.Within 0 dst := ⟨Nat.le_refl _, fun _ _ => rfl⟩
  have hcond := BitVec.toInt_eq_toNat_cond n
  have hlt := n.isLt
  by_cases hneg : n.toInt < 0
  · have hnone : wp (readiTo (UserBuf.copyout limit) ip dst off n.toNat)
        (fun out _ => out.1 ≤ 0 ∧ dst.Within 0 out.2) (fun _ => True) fs := by
      unfold readiTo
      simp only [wp_bind, wp_get, wp_ite, wp_pure]
      split
      · exact ⟨le_rfl, hstart⟩
      · rename_i hin
        refine readLoop_nothing dst ?_ ip _ off fs
        rcases h with hn | rfl | hn | hsize
        · omega
        · exact .inr rfl
        · split at hcond <;> omega
        · left
          split at hcond <;> split <;> omega
    refine wp_post hnone fun out t hout => ⟨by omega, fun hpos => by omega, 0, Nat.zero_le _, hout.2⟩
  · have htoNat : n.toInt.toNat = n.toNat := by
      split at hcond <;> omega
    rw [htoNat]
    exact readiTo_keeps n.isLt (UserBuf.copyout_keeps limit _ dst) ip hstart _

-- Otherwise a negative count is a large one, and bytes are copied.
theorem readiTo_copies (dst : UserBuf) {off limit x : ℕ} {ip : Ip} {fs : Fs} (hs : fs.Ok) (hi : fs.Held ip x)
    (h : ¬Harmless limit n.toInt off (fs.itable ip).copy.size) :
    wp (readiTo (UserBuf.copyout limit) ip dst off n.toNat) (fun out _ => dst.stored < out.2.stored)
      (fun _ => True) fs := by
  obtain ⟨hneg, hlimit, hoff, hsize⟩ : n.toInt < 0 ∧ 0 < limit ∧ (off : Int) < -n.toInt ∧
      off < (fs.itable ip).copy.size := by
    unfold Harmless at h
    omega
  have hcond := BitVec.toInt_eq_toNat_cond n
  have hlt := n.isLt
  have hmax : MAXFILE * BSIZE < 2 ^ 31 := by decide
  have hle : (fs.itable ip).copy.size ≤ MAXFILE * BSIZE := by
    rw [← hs.table.view_eq hi]
    exact hs.filled.size x
  have hlarge : 2 ^ 31 ≤ n.toNat := by
    split at hcond <;> omega
  rw [if_neg (by omega)] at hcond
  have hkeeps : ∀ m, (UserBuf.copyout limit).Keeps m fun _ d => dst.stored < d.stored := fun m d tot src k _ hd =>
    Nat.lt_add_right _ hd
  unfold readiTo
  simp only [wp_bind, wp_get, wp_ite, wp_pure]
  rw [if_neg (by omega), if_pos (by omega)]
  obtain ⟨m, hm⟩ : ∃ m, (fs.itable ip).copy.size - off = m + 1 := ⟨_, (Nat.succ_pred (by omega)).symm⟩
  rw [hm]
  unfold readLoop
  simp only [wp_ite, wp_pure, wp_bind]
  rw [if_neg (by omega)]
  refine wp_mono (Fs.bmap_below_size hs hi hsize) (fun addr t ht => ?_) fun _ _ => trivial
  obtain ⟨hnz, -, rfl⟩ := ht
  have hpiece : 0 < min (m + 1 - 0) (BSIZE - off % BSIZE) := by
    have := Nat.mod_lt off (show 0 < BSIZE by decide)
    omega
  simp only [if_neg hnz, wp_get, UserBuf.copyout, decide_eq_true_eq]
  split
  · refine wp_post (readLoop_keeps (hkeeps (m + 1)) ip (by omega) (by simp only; omega) t) fun out _ hout => ?_
    obtain ⟨-, -, -, hstored⟩ := hout
    exact hstored
  · change dst.stored < dst.stored + _
    omega

-- f->off += r, which does not wrap.
theorem bounded_inode {dst : UserBuf} {n : Int} {ip : Ip} {off : ℕ} {out : Int × UserBuf} {t : Files}
    (hkind : (s.ftable f).kind = .inode ip off) (hr : out.1 ≤ n.toNat) (hfits : 0 < out.1 → off + out.1 < 2 ^ 32)
    (hdst : ∃ k ≤ n.toNat, dst.Within k out.2)
    (ht : (t.ftable f).kind = if 0 < out.1 then FileKind.advance out.1.toNat (.inode ip off) else .inode ip off) :
    Bounded s f dst n (some out.1, out.2) t := by
  refine bounded_of_within (fun r hmem => ?_) hdst fun ip' off' hinode r hmem => ?_
  · cases hmem
    exact hr
  · cases hmem
    rw [hkind] at hinode
    cases hinode
    rw [ht]
    split
    · rename_i hpos
      have := hfits hpos
      rw [FileKind.advance, Nat.mod_eq_of_lt (by omega), max_eq_left hpos.le]
    · rename_i hpos
      rw [max_eq_right (not_lt.mp hpos)]
      rfl

-- What fileread needs to copy no more than it is asked for. The bytes from limit on of the buffer
-- are not mapped.
def ReadSafe (limit : ℕ) (s : Files) (f : Fd) (n : Int) : Prop :=
  (s.ftable f).readable = false ∨ ∀ ip off, (s.ftable f).kind = .inode ip off →
    Harmless limit n off (s.fs.contents (s.fs.itable ip).inum).length

theorem bounded_iff_of_ne {limit : ℕ} {dst : UserBuf} {n : Int} {out : Option Int × UserBuf} {t : Files}
    (hne : ∀ ip off, (s.ftable f).kind ≠ .inode ip off) (hr : ∀ r ∈ out.1, r ≤ n.toNat)
    (hdst : ∃ k ≤ n.toNat, dst.Within k out.2) : Bounded s f dst n out t ↔ ReadSafe limit s f n :=
  iff_of_true (bounded_of_within hr hdst fun ip off hkind => absurd hkind (hne ip off))
    (.inr fun ip off hkind => absurd hkind (hne ip off))

-- readi and f->off += r under the lock of the inode.
theorem readiTo_iff (limit : ℕ) (dst : UserBuf) {ip : Ip} {off x : ℕ} {fs : Fs} (hok : fs.Ok) (hheld : fs.Held ip x)
    (hkind : (s.ftable f).kind = .inode ip off) :
    wp (readiTo (UserBuf.copyout limit) ip dst off n.toNat) (fun out t => t = fs ∧
      ∀ t : Files, (t.ftable f).kind = (if 0 < out.1 then FileKind.advance out.1.toNat (.inode ip off)
        else .inode ip off) → (Bounded s f dst n.toInt (some out.1, out.2) t ↔
          Harmless limit n.toInt off (fs.itable ip).copy.size)) (fun _ => False) fs := by
  have hsame := readiTo_same (UserBuf.copyout limit) hok hheld dst off n.isLt
  by_cases hharm : Harmless limit n.toInt off (fs.itable ip).copy.size
  · refine wp_mono (wp_and hsame (readiTo_bounded dst hharm)) (fun out t hout => ⟨hout.1, fun u hu => ?_⟩)
      fun _ he => he.1
    obtain ⟨hr, hfits, hdst⟩ := hout.2
    exact iff_of_true (bounded_inode hkind hr hfits hdst hu) hharm
  · refine wp_mono (wp_and hsame (readiTo_copies dst hok hheld hharm)) (fun out t hout => ⟨hout.1, fun u hu => ?_⟩)
      fun _ he => he.1
    refine iff_of_false (fun hbound => ?_) hharm
    have hcopied := hbound.copied
    have hstored := hout.2
    unfold Harmless at hharm
    dsimp only at hcopied
    omega

-- fileread keeps to its count unless that is negative and there is a byte to copy.
theorem fileread_bounded (limit : ℕ) (pipes : ℕ → List (Look PipeBuf)) (cons : List (Look Cons)) (f : Fd)
    (dst : UserBuf) (n : BitVec 32) (s : Files) (h : Opened s f) :
    wp (fileread (UserBuf.copyout limit) pipes cons f dst n) (fun out t => Bounded s f dst n.toInt out t ↔
      ReadSafe limit s f n.toInt) (fun _ => False) s := by
  have hstart : dst.Within 0 dst := ⟨Nat.le_refl _, fun _ _ => rfl⟩
  have hkeeps := UserBuf.copyout_keeps limit n.toInt.toNat dst
  have hfail : ∀ r ∈ some (-1 : Int), r ≤ n.toInt.toNat := by
    intro r hr
    cases hr
    omega
  unfold fileread
  simp only [wp_bind, wp_get, wp_ite, wp_pure]
  split
  · rename_i hread
    refine iff_of_true (bounded_of_within hfail ⟨0, Nat.zero_le _, hstart⟩ fun ip off hkind r hr => ?_) (.inl hread)
    cases hr
    exact hkind
  rename_i hread
  split
  · exact absurd ‹_› h.kind
  · rename_i pi hkind
    obtain ⟨hr, hdst⟩ := PipeBuf.pipereadTo_keeps hkeeps (pipes pi) hstart
    refine bounded_iff_of_ne (fun ip off => by rw [hkind]; exact FileKind.noConfusion) (fun r hmem => ?_) hdst
    obtain ⟨⟨r, pi⟩, hout, rfl⟩ := Option.map_eq_some_iff.mp hmem
    exact hr _ hout
  · rename_i ip major hkind
    have hne : ∀ ip off, (s.ftable f).kind ≠ .inode ip off := fun ip off => by
      rw [hkind]
      exact FileKind.noConfusion
    rw [wp_ite]
    split
    · exact bounded_iff_of_ne hne hfail ⟨0, Nat.zero_le _, hstart⟩
    · obtain ⟨hr, hdst⟩ := Cons.consoleread_keeps hkeeps cons (Nat.zero_le _) hstart
      refine bounded_iff_of_ne hne (fun r hmem => ?_) hdst
      obtain ⟨⟨r, cons⟩, hout, rfl⟩ := Option.map_eq_some_iff.mp hmem
      exact hr _ hout
  · rename_i ip off hkind
    obtain ⟨x, hopen⟩ := h.inode ip off hkind
    have hsafe : ReadSafe limit s f n.toInt ↔ Harmless limit n.toInt off (s.fs.contents x).length := by
      refine ⟨fun hsafe => ?_, fun hsafe => .inr fun ip' off' hkind' => ?_⟩
      · rw [← hopen.inode.inum]
        exact hsafe.resolve_left hread ip off hkind
      · rw [hkind] at hkind'
        cases hkind'
        rwa [hopen.inode.inum]
    simp only [wp_bind, wp_ofFs, wp_get, wp_ite, wp_modify, wp_pure]
    refine wp_mono (Fs.ilock_free hopen.ok.table hopen.inode hopen.unlocked hopen.typed) (fun _ fs hlock => ?_)
      fun _ he => he
    obtain ⟨hquiet, hheld, hlocked⟩ := hlock
    have hok := hquiet.ok hopen.ok
    have hsize : (s.fs.contents x).length = (fs.itable ip).copy.size := by
      rw [Fs.length_contents, ← hquiet.view, hok.table.view_eq hheld]
    rw [hsafe, hsize, hkind, FileKind.off]
    refine wp_mono (readiTo_iff limit dst hok hheld hkind) (fun out t hout => ?_) fun _ he => he
    obtain ⟨rfl, hiff⟩ := hout
    have hunlock := Fs.iunlock_held hok.table hheld.toAt hlocked
    split
    · rename_i hpos
      refine wp_post hunlock fun _ u _ => hiff _ ?_
      rw [if_pos hpos, ← hkind]
      simp [Files.setFile]
    · rename_i hpos
      refine wp_post hunlock fun _ u _ => hiff _ ?_
      rw [if_neg hpos, ← hkind]

end

section Sample

open Files

def Files.fd1 : Fd := ⟨1, Nat.lt_of_sub_eq_succ rfl⟩

def emptyBuf : UserBuf := ⟨fun _ => 0, 0⟩

-- An entry of the root directory is read.
theorem fileread_bounded_root : ∃ s, Opened s fd0 ∧ ReadSafe 4096 s fd0 16 ∧
    wp (fileread (UserBuf.copyout 4096) (fun _ => []) [] fd0 emptyBuf 16) (fun out t => out.1 = some 16 ∧
      out.2.stored = 16 ∧ Bounded s fd0 emptyBuf 16 out t) (fun _ => False) s := by
  have hrun : decide (wp (sysOpen Sched.first (some [slash]) O_RDONLY) (fun _ s =>
      (s.ftable fd0).kind = .inode Fs.ip0 0 ∧ (s.fs.itable Fs.ip0).ref = 2 ∧ (s.fs.itable Fs.ip0).inum = ROOTINO ∧
      (s.fs.itable Fs.ip0).lock = false ∧ (s.fs.view ROOTINO).type = .dir ∧
      wp (fileread (UserBuf.copyout 4096) (fun _ => []) [] fd0 emptyBuf 16) (fun out _ => out.1 = some 16 ∧
        out.2.stored = 16) (fun _ => False) s) (fun _ => False) booted) := by decide +kernel
  obtain ⟨r, s, hs, hkind, href, hinum, hlock, htype, hread⟩ := exists_of_decide_wp hrun
  have hinv : s.Inv := (wp_of_ok hs).mp (sysOpen_inv booted_inv booted_roomy Sched.first _ O_RDONLY)
  have hopen : OpenInode s fd0 Fs.ip0 ROOTINO 0 :=
    ⟨hinv.inv.ok, hkind, ⟨by omega, hinum⟩, hlock, by rw [htype]; decide⟩
  have hopened : Opened s fd0 := by
    refine ⟨by rw [hkind]; exact FileKind.noConfusion, fun ip off hkind' => ?_⟩
    rw [hkind] at hkind'
    cases hkind'
    exact ⟨ROOTINO, hopen⟩
  have hsafe : ReadSafe 4096 s fd0 16 := .inr fun _ _ _ => .inl (by decide)
  refine ⟨s, hopened, hsafe, wp_mono (wp_and hread (fileread_bounded 4096 _ _ fd0 emptyBuf 16 s hopened))
    (fun out t hout => ⟨hout.1.1, hout.1.2, hout.2.mpr hsafe⟩) fun _ he => he.1⟩

def writeAndOpen : FilesM Unit := do
  discard (sysOpen Sched.first (some pathA) (O_CREATE ||| O_RDWR))
  discard (filewrite (fun _ => pure (-1)) fd0 ⟨fun _ => 5, none⟩ 1)
  discard (sysOpen Sched.first (some pathA) O_RDONLY)

-- read with n = -1 returns the byte.
theorem fileread_negative : ∃ s out t, writeAndOpen booted = .ok ((), s) ∧ (s.ftable fd1).kind = .inode ip1 0 ∧
    fileread (UserBuf.copyout 4096) (fun _ => []) [] fd1 emptyBuf (-1) s = .ok (out, t) ∧
    out.1 = some 1 ∧ out.2.stored = 1 ∧ out.2.bytes 0 = 5 ∧ (t.ftable fd1).kind = .inode ip1 1 := by
  have hrun : decide (wp writeAndOpen (fun _ s => (s.ftable fd1).kind = .inode ip1 0 ∧
      wp (fileread (UserBuf.copyout 4096) (fun _ => []) [] fd1 emptyBuf (-1)) (fun out t => out.1 = some 1 ∧
        out.2.stored = 1 ∧ out.2.bytes 0 = 5 ∧ (t.ftable fd1).kind = .inode ip1 1) (fun _ => False) s)
      (fun _ => False) booted) := by decide +kernel
  obtain ⟨u, s, hcalls, hkind, hread⟩ := exists_of_decide_wp hrun
  obtain ⟨out, t, hout⟩ := exists_of_wp hread
  exact ⟨s, out, t, hcalls, hkind, hout⟩

end Sample

end Xv6
