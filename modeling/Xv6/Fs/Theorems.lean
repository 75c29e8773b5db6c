import Xv6.Fs.Bytes
import Xv6.Fs.Calls
import Xv6.Lib.Transition

namespace Xv6

open Wp Transition

-- An image that no inode is in use of: the dinodes own the marked data blocks
-- and have no holes.
structure Fs.WellFormed (s : Fs) : Prop where
  unused : ∀ i, (s.itable i).ref = 0
  own : Own s.sb ⟨s.dinode, s.bitmap, s.data⟩
  filled : Filled ⟨s.dinode, s.bitmap, s.data⟩

-- The operations on inodes. A process holds its references from call to call.
inductive FsOp
  | bmap (i : Ip) (bn : ℕ)
  | writei (i : Ip) (src : Source) (off n : UInt32)
  | itrunc (i : Ip)
  | iupdate (i : Ip)
  | ialloc (type : FileType)
  | iget (inum : ℕ)
  | idup (i : Ip)
  | ilock (i : Ip)
  | iunlock (i : Ip)
  | iput (i : Ip)
  | dirlink (i : Ip) (name : Name) (inum : ℕ)
  | create (cwd : Ip) (path : List UInt8) (type : FileType) (major minor : BitVec 16)
  | link (cwd : Ip) (old new : Option (List UInt8))
  | unlink (cwd : Ip) (path : Option (List UInt8))

namespace FsOp

def run : FsOp → FsM Unit
  | bmap i bn => discard (Xv6.bmap i bn)
  | writei i src off n => discard (Xv6.writei i src off.toNat n.toNat)
  | itrunc i => Xv6.itrunc i
  | iupdate i => Xv6.iupdate i
  | ialloc type => discard (Xv6.ialloc ROOTDEV type)
  | iget inum => discard (Xv6.iget ROOTDEV inum)
  | idup i => discard (Xv6.idup i)
  | ilock i => Xv6.ilock i
  | iunlock i => Xv6.iunlock i
  | iput i => Xv6.iput i
  | dirlink i name inum => discard (Xv6.dirlink i name inum)
  | create cwd path type major minor => discard (Xv6.create cwd path type major minor)
  | link cwd old new => discard (sysLink cwd old new)
  | unlink cwd path => discard (sysUnlink cwd path)

-- What a caller owes: it holds ip and, to change it, ip->lock; and iupdate has
-- been called after every change before an inode is let go of or looked up.
def Ready (s : Fs) : FsOp → Prop
  | bmap i _ | writei i _ _ _ | itrunc i | iupdate i => (s.itable i).lock = true ∧ ∃ x, s.Held i x
  | ialloc type => type ≠ .free ∧ s.Clean
  | iget _ => True
  | idup i | ilock i | iunlock i => ∃ x, s.At i x
  | iput i => (∃ x, s.At i x) ∧ s.Clean
  | dirlink i _ _ => (s.itable i).lock = true ∧ (∃ x, s.Held i x) ∧ s.Clean
  | create cwd _ type _ _ => (∃ x, s.At cwd x) ∧ type ≠ .free ∧ s.Clean
  | link cwd _ _ | unlink cwd _ => (∃ x, s.At cwd x) ∧ s.Clean

end FsOp

def FsStep (s t : Fs) : Prop := ∃ op : FsOp, op.Ready s ∧ op.run s = .ok ((), t)

namespace Fs

variable {s t : Fs}

theorem WellFormed.ok (h : s.WellFormed) : s.Ok := by
  have hpos : ∀ i, ¬0 < (s.itable i).ref := fun i => by
    rw [h.unused]
    exact Nat.lt_irrefl 0
  have hview : s.view = s.dinode := funext fun x => view_of_not_held fun i hi => hpos i hi.ref
  have hvol : s.vol = ⟨s.dinode, s.bitmap, s.data⟩ := by rw [vol, hview]
  refine ⟨⟨fun i hi => absurd hi (hpos i), fun i _ hi => absurd hi (hpos i),
    fun i hi => absurd hi (hpos i)⟩, ?_, ?_⟩
  · rw [hvol]
    exact h.own
  · rw [hvol]
    exact h.filled

-- iupdate of an unchanged copy or a changed one: the copy is what counts.
theorem iupdate_ok {i : Ip} {x : ℕ} (hs : s.Ok) (hi : s.Held i x) :
    wp (iupdate i) (fun _ t => t.Ok) NotBfree s := by
  have hself : s.setCopy i (fun d => d) = s := by
    unfold setCopy setInode
    rw [Function.update_eq_self]
  obtain ⟨hmax, hfill⟩ := filledTo_size hs hi
  have hspec := save_spec (f := fun d => d) hs.table hs.own hi rfl rfl
    (hs.table.typed i hi.ref hi.valid) (filled_setView hs hi rfl hmax hfill)
  rw [hself] at hspec
  exact wp_mono hspec (fun _ _ h => h.ok) fun _ h => h.elim

theorem run_ok (hs : s.Ok) (op : FsOp) (hready : op.Ready s) :
    wp op.run (fun _ t => t.Ok) NotBfree s := by
  cases op with
  | bmap i bn =>
      obtain ⟨-, x, hi⟩ := hready
      refine wp_discard (wp_mono (bmap_spec hs hi bn) (fun _ _ h => h.grown.ok) ?_)
      rintro e ⟨rfl, -⟩
      simp [NotBfree]
  | writei i src off n =>
      obtain ⟨-, x, hi⟩ := hready
      exact wp_discard (wp_mono (writei_spec hs hi src _ _ n.toNat_lt) (fun _ _ h => h.ok) fun _ h => h.elim)
  | itrunc i =>
      obtain ⟨-, x, hi⟩ := hready
      exact wp_mono (itrunc_spec hs hi) (fun _ _ h => h.ok) fun _ h => h.elim
  | iupdate i =>
      obtain ⟨-, x, hi⟩ := hready
      exact iupdate_ok hs hi
  | ialloc type =>
      refine wp_discard (wp_mono (ialloc_spec hs hready.2 hready.1) ?_ ?_)
      · rintro (_ | i) t ht
        · rw [ht]
          exact hs
        · obtain ⟨x, -, -, -, -, hnet, -⟩ := ht
          exact hnet.ok
      · rintro e rfl
        simp [NotBfree]
  | iget inum =>
      refine wp_discard (wp_mono (iget_spec hs.table inum) (fun _ _ h => h.1.ok hs) ?_)
      rintro e rfl
      simp [NotBfree]
  | idup i =>
      obtain ⟨x, hi⟩ := hready
      exact wp_discard (wp_mono (idup_spec hs.table hi) (fun _ _ h => h.2.1.ok hs) fun _ h => h.elim)
  | ilock i =>
      obtain ⟨x, hi⟩ := hready
      refine wp_mono (ilock_spec hs.table hi) (fun _ _ h => h.1.ok hs) ?_
      rintro e (rfl | ⟨rfl, -⟩) <;> simp [NotBfree]
  | iunlock i =>
      obtain ⟨x, hi⟩ := hready
      refine wp_mono (iunlock_spec hs.table hi) (fun _ _ h => h.1.ok hs) ?_
      rintro e rfl
      simp [NotBfree]
  | iput i =>
      obtain ⟨⟨x, hi⟩, hc⟩ := hready
      refine wp_mono (iput_spec hs hc hi) (fun _ _ h => h.ok) ?_
      rintro e rfl
      simp [NotBfree]
  | dirlink i name inum =>
      obtain ⟨-, ⟨x, hi⟩, hc⟩ := hready
      exact wp_discard (wp_post (dirlink_net hs hc hi name inum) fun _ _ h => h.ok)
  | create cwd path type major minor =>
      obtain ⟨⟨x, hcwd⟩, htype, hc⟩ := hready
      exact wp_discard (wp_post (create_net hs hc hcwd path htype major minor) fun _ _ h => h.1.ok)
  | link cwd old new =>
      obtain ⟨⟨x, hcwd⟩, hc⟩ := hready
      exact wp_discard (wp_post (sysLink_net hs hc hcwd old new) fun _ _ h => h.ok)
  | unlink cwd path =>
      obtain ⟨⟨x, hcwd⟩, hc⟩ := hready
      exact wp_discard (wp_post (sysUnlink_net hs hc hcwd path) fun _ _ h => h.ok)

theorem reachable_ok {s₀ : Fs} (h₀ : s₀.WellFormed) (hrun : Reaches FsStep s₀ s) : s.Ok := by
  refine hrun.invariant Ok h₀.ok ?_
  rintro t u ht ⟨op, hready, hstep⟩
  exact (wp_of_ok hstep).mp (run_ok ht op hready)

-- Disk blocks have one owner, the bitmap knows them all, and none is freed twice.
theorem block_ownership {s₀ : Fs} (h₀ : s₀.WellFormed) (hrun : Reaches FsStep s₀ s) :
    (∀ x y r r', s.vol.block x r ≠ 0 → s.vol.block y r' = s.vol.block x r → x = y ∧ r = r') ∧
    (∀ x r, s.vol.block x r ≠ 0 →
      s.vol.block x r ∈ s.sb.pool ∧ s.bitmap (s.vol.block x r) = true) ∧
    (∀ b ∈ s.sb.pool, s.bitmap b = true → ∃ x r, (s.view x).type ≠ .free ∧ s.vol.block x r = b) ∧
    (∀ op : FsOp, op.Ready s → op.run s ≠ .error (.panic .bfree)) := by
  have hok := reachable_ok h₀ hrun
  refine ⟨fun x y r r' hb heq => hok.own.eq_of_block hb heq, fun x r hb => hok.own.mem_pool hb,
    fun b hb hbit => ?_, fun op hready hpanic => ?_⟩
  · obtain ⟨⟨x, r⟩, ha⟩ := hok.own.owns.complete b hb hbit
    obtain ⟨hnz, hblock⟩ := Vol.ref_eq_some.mp ha
    refine ⟨x, r, fun hfree => hnz ?_, hblock⟩
    rw [← hblock]
    exact block_of_free hok.own hfree r
  · exact (wp_of_error hpanic).mp (run_ok hok op hready) rfl

def ip0 : Ip := ⟨0, by decide⟩

def blank : Fs where
  sb := ⟨4, 2, 2⟩
  dinode := fun _ => .zero .free
  bitmap := fun b => b < 2
  data := fun _ _ => 0
  itable := fun _ => ⟨0, 0, 0, false, false, .zero .free⟩
  outstanding := 0

theorem blank_wellFormed : blank.WellFormed where
  unused _ := rfl
  own := by
    have hblock : ∀ x r, (Vol.mk blank.dinode blank.bitmap blank.data).block x r = 0 := by
      intro x r
      simp [Vol.block, Dinode.block, blank, Dinode.zero]
    have href : ∀ a, (Vol.mk blank.dinode blank.bitmap blank.data).ref a = none :=
      fun a => Vol.ref_eq_none.mpr (hblock a.1 a.2)
    refine ⟨⟨fun a b h => ?_, fun a _ b h => ?_, fun b hb hbit => ?_⟩, fun b hb => ?_, by decide,
      by decide, fun _ _ _ _ => rfl⟩
    · simp [href] at h
    · simp [href] at h
    · simp only [Superblock.pool, blank, Set.mem_ofPred_eq, decide_eq_true_eq] at hb hbit
      omega
    · simpa [blank] using hb
  filled := ⟨fun _ => Nat.zero_le _, fun _ bn h => absurd h (Nat.not_lt_zero _)⟩

-- A run that allocates and locks a file, and what holds where it ends.
theorem exists_locked {P : Fs → Prop}
    (h : wp (do (FsOp.ialloc .file).run; (FsOp.ilock ip0).run) (fun _ s => P s) (fun _ => False) blank) :
    ∃ s, Reaches FsStep blank s ∧ s.Held ip0 1 ∧ (s.itable ip0).lock = true ∧ P s := by
  obtain ⟨s₁, h₁⟩ : ∃ s, (FsOp.ialloc .file).run blank = .ok ((), s) := ⟨_, rfl⟩
  obtain ⟨s₂, h₂⟩ : ∃ s, (FsOp.ilock ip0).run s₁ = .ok ((), s) := by
    cases h₁
    exact ⟨_, rfl⟩
  rw [wp_bind, wp_of_ok h₁, wp_of_ok h₂] at h
  have hready₁ : (FsOp.ialloc .file).Ready blank := ⟨by decide, fun i x hi => absurd hi.ref (Nat.lt_irrefl 0)⟩
  have hready₂ : (FsOp.ilock ip0).Ready s₁ := by
    cases h₁
    exact ⟨1, by decide, rfl⟩
  refine ⟨s₂, (Relation.ReflTransGen.single ⟨_, hready₁, h₁⟩).tail ⟨_, hready₂, h₂⟩, ?_, ?_, h⟩
  · cases h₁
    cases h₂
    exact ⟨⟨by decide, rfl⟩, rfl⟩
  · cases h₁
    cases h₂
    rfl

-- An inode is allocated, locked and gets its first block.
theorem block_ownership_blank : ∃ s, Reaches FsStep blank s ∧ s.vol.block 1 0 = 2 ∧
    s.bitmap 2 = true ∧ (FsOp.itrunc ip0).run s ≠ .error (.panic .bfree) := by
  have hbmap : wp (do (FsOp.ialloc .file).run; (FsOp.ilock ip0).run) (fun _ s => ∃ t,
      (FsOp.bmap ip0 0).run s = .ok ((), t) ∧ t.vol.block 1 0 = 2 ∧ (t.itable ip0).lock = true ∧ t.Held ip0 1)
      (fun _ => False) blank := ⟨_, rfl, rfl, rfl, ⟨by decide, rfl⟩, rfl⟩
  obtain ⟨s, hrun, hi, hlock, t, hstep, hblock, hlock', hi'⟩ := exists_locked hbmap
  have hrun : Reaches FsStep blank t := hrun.tail ⟨.bmap ip0 0, ⟨hlock, 1, hi⟩, hstep⟩
  obtain ⟨-, hmark, -, hsafe⟩ := block_ownership blank_wellFormed hrun
  refine ⟨t, hrun, hblock, ?_, hsafe _ ⟨hlock', 1, hi'⟩⟩
  exact hblock ▸ (hmark 1 0 (by rw [hblock]; decide)).2

-- Inode contents are a byte array: writei splices, readi reads a range.
theorem contents_byte_array {i : Ip} {x : ℕ} (hs : s.Ok) (hi : s.Held i x) (off n : UInt32) :
    (∀ src : Source, src.Readable n.toNat → ∃ r t, writei i src off.toNat n.toNat s = .ok (r, t) ∧
      ((r = -1 ∧ t = s) ↔ Refused (s.view x).size off.toNat n.toNat) ∧
      (¬Refused (s.view x).size off.toNat n.toNat → ∃ tot ≤ n.toNat, r = (tot : ℕ) ∧ (tot < n.toNat → t.Full) ∧
        (t.view x).size = max (s.view x).size (off.toNat + tot) ∧
        t.contents x = splice (s.contents x) src.bytes off.toNat tot ∧
        ∀ y ≠ x, t.contents y = s.contents y)) ∧
    ∀ dst : ℕ → UInt8, ∃ (m : ℕ) (buf : ℕ → UInt8),
      readi i (fun _ _ => true) dst off.toNat n.toNat s = .ok ((m, buf), s) ∧
      (List.range m).map buf = ((s.contents x).take (off + n).toNat).drop off.toNat := by
  constructor
  · intro src hsrc
    obtain ⟨r, t, hrun, hrefused, htaken⟩ := exists_of_wp (writei_bytes hs hi n.toNat_lt hsrc)
    refine ⟨r, t, hrun, ⟨fun hr => ?_, hrefused⟩, fun h => ?_⟩
    · by_contra h
      obtain ⟨tot, htot, -⟩ := htaken h
      rw [hr.1] at htot
      omega
    · obtain ⟨tot, hr, hspliced⟩ := htaken h
      exact ⟨tot, hspliced.le, hr, hspliced.full, hspliced.size, hspliced.contents,
        fun y hy => hspliced.contents_other hs hy⟩
  · intro dst
    obtain ⟨⟨r, buf⟩, t, hrun, rfl, m, rfl, hbuf⟩ := exists_of_wp (readi_bytes hs hi dst off.toNat_lt n.toNat_lt)
    refine ⟨m, buf, hrun, ?_⟩
    rw [UInt32.toNat_add]
    exact hbuf

-- Three bytes are written to a new file.
theorem contents_byte_array_new : ∃ s t : Fs, s.Ok ∧ s.Held ip0 1 ∧ s.contents 1 = [] ∧
    writei ip0 ⟨fun k => UInt8.ofNat (k + 1), none⟩ 0 3 s = .ok (3, t) ∧ t.contents 1 = [1, 2, 3] := by
  have hwritei : wp (do (FsOp.ialloc .file).run; (FsOp.ilock ip0).run) (fun _ s => (s.view 1).size = 0 ∧ ∃ t,
      writei ip0 ⟨fun k => UInt8.ofNat (k + 1), none⟩ 0 3 s = .ok (3, t)) (fun _ => False) blank :=
    ⟨rfl, _, rfl⟩
  obtain ⟨s, hreach, hi, -, hsize, t, hrun⟩ := exists_locked hwritei
  have hs := reachable_ok blank_wellFormed hreach
  have hnil : s.contents 1 = [] := by rw [contents, hsize, List.range_zero, List.map_nil]
  obtain ⟨hwrite, -⟩ := contents_byte_array hs hi 0 3
  obtain ⟨r, t', hrun', -, htaken⟩ := hwrite ⟨fun k => UInt8.ofNat (k + 1), none⟩ fun limit h => by cases h
  cases hrun.symm.trans hrun'
  obtain ⟨tot, -, htot, -, -, hcontents, -⟩ := htaken (by rw [hsize, Refused]; decide)
  have htot : tot = 3 := by omega
  refine ⟨s, t, hs, hi, hnil, hrun, ?_⟩
  rw [hcontents, hnil, htot]
  rfl

end Fs

end Xv6
