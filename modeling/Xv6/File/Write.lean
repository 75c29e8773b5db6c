import Xv6.File.Theorems
import Xv6.Fs.Bytes

namespace Xv6

open Wp FilesM

namespace Fs

variable {s t : Fs} {i : Ip} {x : ℕ}

def overwrite (old : List UInt8) (off : ℕ) (bytes : List UInt8) : List UInt8 :=
  old.take off ++ bytes ++ old.drop (off + bytes.length)

theorem splice_eq_overwrite (old : List UInt8) (src : ℕ → UInt8) (off tot : ℕ) :
    splice old src off tot = overwrite old off ((List.range tot).map src) := by
  rw [splice, overwrite, List.length_map, List.length_range]

theorem overwrite_nil (old : List UInt8) (off : ℕ) : overwrite old off [] = old := by
  rw [overwrite, List.append_nil, List.length_nil, Nat.add_zero, List.take_append_drop]

theorem length_overwrite {old bytes : List UInt8} {off : ℕ} (h : off ≤ old.length) :
    (overwrite old off bytes).length = max old.length (off + bytes.length) := by
  rw [overwrite, List.length_append, List.length_append, List.length_take, List.length_drop]
  omega

theorem overwrite_overwrite {old a b : List UInt8} {off : ℕ} (h : off ≤ old.length) :
    overwrite (overwrite old off a) (off + a.length) b = overwrite old off (a ++ b) := by
  have hlen : (old.take off).length = off := by
    rw [List.length_take]
    omega
  have htake : (overwrite old off a).take (off + a.length) = old.take off ++ a := by
    rw [overwrite, List.take_left' (by rw [List.length_append, hlen])]
  have hdrop : (overwrite old off a).drop (off + a.length + b.length) = old.drop (off + (a ++ b).length) := by
    rw [overwrite, List.append_assoc, ← List.drop_drop, ← List.append_assoc,
      List.drop_left' (by rw [List.length_append, hlen]), List.drop_drop, List.length_append, Nat.add_assoc]
  rw [overwrite, htake, hdrop, overwrite, List.append_assoc, List.append_assoc, List.append_assoc, List.append_assoc]

theorem ilock_free (hs : s.Table) (hi : s.At i x) (hlock : (s.itable i).lock = false)
    (htyped : (s.view x).type ≠ .free) :
    wp (ilock i) (fun _ t => Quiet s t i ∧ t.Held i x ∧ (t.itable i).lock = true) (fun _ => False) s := by
  have hlocked : wp (ilock i) (fun _ t => (t.itable i).lock = true)
      (fun e => e ≠ .wait ∧ e ≠ .panic .ilockNoType) s := by
    have href : ¬(s.itable i).ref < 1 := by
      have := hi.ref
      omega
    unfold ilock
    simp only [wp_bind, wp_get, wp_ite, wp_throw, wp_set, if_neg href, hlock, itable_setInode, Bool.false_eq_true,
      if_false]
    split
    · trivial
    · rename_i hvalid
      have hnone : ∀ j, ¬s.Held j x := fun j hj => by
        obtain rfl := hs.uniq j i hj.ref hi.ref (hj.inum.trans hi.inum.symm)
        exact hvalid hj.valid
      rw [view_of_not_held hnone] at htyped
      rw [hi.inum, if_neg htyped]
      trivial
  refine wp_mono (wp_and (ilock_spec hs hi) hlocked) (fun _ t ht => ⟨ht.1.1, ht.1.2.2, ht.2⟩) fun e he => ?_
  rcases he.1 with hwait | ⟨hpanic, -⟩
  · exact he.2.1 hwait
  · exact he.2.2 hpanic

theorem iunlock_held (hs : s.Table) (hi : s.At i x) (hlock : (s.itable i).lock = true) :
    wp (iunlock i) (fun _ t => Quiet s t i ∧ t.At i x ∧ (t.itable i).lock = false) (fun _ => False) s := by
  have hrun : wp (iunlock i) (fun _ t => t.At i x ∧ (t.itable i).lock = false) (fun _ => False) s := by
    have href : ¬(s.itable i).ref < 1 := by
      have := hi.ref
      omega
    unfold iunlock
    simp only [wp_bind, wp_get, wp_ite, wp_throw, wp_set, hlock, href, decide_false, Bool.not_true, Bool.or_self,
      Bool.false_eq_true, if_false, itable_setInode, and_true]
    exact ⟨by rw [itable_setInode]; exact hi.ref, by rw [itable_setInode]; exact hi.inum⟩
  refine wp_mono (wp_and (iunlock_spec hs hi) hrun) (fun _ t ht => ⟨ht.1.1, ht.2.1, ht.2.2⟩) fun e he => he.2

theorem not_full {b : ℕ} (hb : b < s.sb.size) (hfree : s.bitmap b = false) : ¬s.Full := fun hfull => by
  rw [hfull b hb] at hfree
  cases hfree

theorem Quiet.contents (h : Quiet s t i) (y : ℕ) : t.contents y = s.contents y := by
  rw [Fs.contents, Fs.contents, h.view, h.vol]

end Fs

-- The file f is open on inode x and has the offset off; nobody has the inode locked.
structure OpenInode (s : Files) (f : Fd) (ip : Ip) (x off : ℕ) : Prop where
  ok : s.fs.Ok
  kind : (s.ftable f).kind = .inode ip off
  inode : s.fs.At ip x
  unlocked : (s.fs.itable ip).lock = false
  typed : (s.fs.view x).type ≠ .free

variable {s t : Files} {f : Fd} {ip : Ip} {x off n : ℕ} {src : Source}

structure Chunk (f : Fd) (ip : Ip) (x off n : ℕ) (src : Source) (s : Files) (r : Int) (t : Files) : Prop where
  writable : (t.ftable f).writable = (s.ftable f).writable
  other : ∀ y, y ≠ x → t.fs.contents y = s.fs.contents y
  refused : Fs.Refused (s.fs.contents x).length off n →
    r = -1 ∧ OpenInode t f ip x off ∧ t.fs.contents x = s.fs.contents x
  wrote : ¬Fs.Refused (s.fs.contents x).length off n → ∃ tot ≤ n, r = tot ∧ OpenInode t f ip x (off + tot) ∧
    t.fs.contents x = Fs.overwrite (s.fs.contents x) off ((List.range tot).map src.bytes) ∧ (tot < n → t.fs.Full)

-- The end of a transaction, after which the inode is free again.
theorem chunkEnd_spec {u : Files} (r : Int) (hok : u.fs.Ok) (hi : u.fs.At ip x) (hlock : (u.fs.itable ip).lock = true)
    (hkind : (u.ftable f).kind = .inode ip off) (htyped : (u.fs.view x).type ≠ .free) :
    wp (do
      ofFs (iunlock ip)
      ofFs endOp
      return r) (fun r' t => r' = r ∧ t.ftable = u.ftable ∧ OpenInode t f ip x off ∧
        (∀ y, t.fs.contents y = u.fs.contents y) ∧ (u.fs.Full → t.fs.Full)) (fun _ => False) u := by
  simp only [wp_bind, wp_ofFs, endOp, wp_modify, wp_pure]
  refine wp_mono (Fs.iunlock_held hok.table hi hlock) (fun _ fs hunlock => ?_) fun _ he => he
  obtain ⟨hquiet, hat, hfree⟩ := hunlock
  have hok' := (hquiet.ok hok).outstanding (fs.outstanding - 1)
  refine ⟨trivial, trivial, ⟨hok', hkind, ⟨hat.ref, hat.inum⟩, hfree, ?_⟩, hquiet.contents, ?_⟩
  · change (fs.view x).type ≠ .free
    rw [hquiet.view]
    exact htyped
  · intro hfull b hb
    have hdisk := hquiet.disk
    change fs.bitmap b = true
    change b < fs.sb.size at hb
    rw [hdisk] at hb ⊢
    exact hfull b hb

theorem writeChunk_spec (h : OpenInode s f ip x off) (hn : n < 2 ^ 32) (hsrc : src.Readable n) :
    wp (writeChunk f ip src n) (Chunk f ip x off n src s) (fun _ => False) s := by
  have hmax : MAXFILE * BSIZE < 2 ^ 31 := by decide
  unfold writeChunk
  simp only [wp_bind, wp_ofFs, beginOp, wp_modify]
  have htable : Fs.Table { s.fs with outstanding := s.fs.outstanding + 1 } := (h.ok.outstanding _).table
  refine wp_mono (Fs.ilock_free htable ⟨h.inode.ref, h.inode.inum⟩ h.unlocked h.typed) (fun _ fs₁ hlock => ?_)
    fun _ he => he
  obtain ⟨hquiet, hheld, hlocked⟩ := hlock
  have hok₁ : fs₁.Ok := hquiet.ok (h.ok.outstanding _)
  have hcontents₁ : ∀ y, fs₁.contents y = s.fs.contents y := hquiet.contents
  have hview₁ : fs₁.view = s.fs.view := hquiet.view
  simp only [wp_get, h.kind, FileKind.off]
  refine wp_mono (Fs.writei_bytes hok₁ hheld hn hsrc) (fun r fs₂ hwrite => ?_) fun _ he => he
  have hlength : (s.fs.contents x).length = (fs₁.view x).size := by
    rw [Fs.length_contents, hview₁]
  by_cases hrefused : Fs.Refused (fs₁.view x).size off n
  · obtain ⟨rfl, rfl⟩ := hwrite.1 hrefused
    rw [if_neg (by decide)]
    have hend := chunkEnd_spec (u := { s with fs := fs₂ }) (-1) hok₁ hheld.toAt hlocked h.kind
      (by rw [hview₁]; exact h.typed)
    refine wp_post hend fun r' t ht => ?_
    obtain ⟨rfl, hftable, hopen, hcontents, -⟩ := ht
    refine ⟨by rw [hftable], fun y _ => (hcontents y).trans (hcontents₁ y), fun _ => ⟨rfl, hopen, ?_⟩, fun hnot => ?_⟩
    · exact (hcontents x).trans (hcontents₁ x)
    · rw [hlength] at hnot
      exact absurd hrefused hnot
  · obtain ⟨tot, rfl, hspliced⟩ := hwrite.2 hrefused
    have hle := hspliced.le
    have hfits : off + n ≤ MAXFILE * BSIZE := by
      unfold Fs.Refused at hrefused
      omega
    have hself := hspliced.edit.self
    have hat : fs₂.At ip x := by
      refine ⟨?_, ?_⟩ <;> rw [hself]
      · exact hheld.ref
      · exact hheld.inum
    have hlocked₂ : (fs₂.itable ip).lock = true := by
      rw [hself]
      exact hlocked
    have htyped : (fs₂.view x).type ≠ .free := by
      change (fs₂.vol.view x).type ≠ .free
      rw [hspliced.grows.type]
      change (fs₁.view x).type ≠ .free
      rw [hview₁]
      exact h.typed
    have hpost : ∀ (u : Files), u.fs = fs₂ → (u.ftable f).kind = .inode ip (off + tot) →
        (u.ftable f).writable = (s.ftable f).writable →
        wp (do
          ofFs (iunlock ip)
          ofFs endOp
          return (tot : Int)) (Chunk f ip x off n src s) (fun _ => False) u := by
      rintro u rfl hkind hwritable
      refine wp_post (chunkEnd_spec tot hspliced.ok hat hlocked₂ hkind htyped) fun r' t ht => ?_
      obtain ⟨rfl, hftable, hopen, hcontents, hfull⟩ := ht
      refine ⟨by rw [hftable, hwritable], fun y hy => ?_, fun hnot => ?_,
        fun _ => ⟨tot, hle, rfl, hopen, ?_, fun hlt => ?_⟩⟩
      · rw [hcontents, hspliced.toWrites.contents_other hok₁ hy, hcontents₁]
      · rw [hlength] at hnot
        exact absurd hnot hrefused
      · rw [hcontents, hspliced.contents, Fs.splice_eq_overwrite, hcontents₁]
      · exact hfull (hspliced.full hlt)
    split
    · refine hpost _ rfl ?_ ?_
      · simp only [Files.setFile, Function.update_self, h.kind, FileKind.advance, Int.toNat_natCast]
        rw [Nat.mod_eq_of_lt (by omega)]
      · simp only [Files.setFile, Function.update_self]
    · rename_i hzero
      obtain rfl : tot = 0 := by omega
      exact hpost _ rfl h.kind rfl

theorem Source.Readable.drop (h : src.Readable n) {i m : ℕ} (hm : i + m ≤ n) : (src.drop i).Readable m := by
  intro limit hlimit
  obtain ⟨limit', hlimit', rfl⟩ := Option.map_eq_some_iff.mp hlimit
  have := h limit' hlimit'
  omega

structure Written (f : Fd) (ip : Ip) (x off n : ℕ) (src : Source) (s : Files) (k : ℕ) (r : Int) (t : Files) :
    Prop where
  le : k ≤ n
  file : OpenInode t f ip x (off + k)
  contents : t.fs.contents x = Fs.overwrite (s.fs.contents x) off ((List.range k).map src.bytes)
  other : ∀ y, y ≠ x → t.fs.contents y = s.fs.contents y
  result : r = if k = n then (n : Int) else -1
  short : k < n → t.fs.Full ∨ ((s.fs.contents x).length < off ∧ k = 0) ∨
    MAXFILE * BSIZE < off + k + min (n - k) WRITE_MAX

theorem filewriteLoop_spec {u : Files} {fuel i : ℕ} (hfile : OpenInode u f ip x (off + i))
    (hcontents : u.fs.contents x = Fs.overwrite (s.fs.contents x) off ((List.range i).map src.bytes))
    (hother : ∀ y, y ≠ x → u.fs.contents y = s.fs.contents y) (hstart : 0 < i → off ≤ (s.fs.contents x).length)
    (hi : i ≤ n) (hfuel : n - i ≤ fuel) (hsrc : src.Readable n) :
    wp (filewriteLoop f ip src n fuel i) (fun r t => ∃ k, Written f ip x off n src s k r t) (fun _ => False) u := by
  have hwritemax : WRITE_MAX = 3072 := by decide
  have hmax : MAXFILE * BSIZE < 2 ^ 31 := by decide
  induction fuel generalizing u i with
  | zero =>
      obtain rfl : i = n := by omega
      rw [filewriteLoop, wp_pure]
      exact ⟨i, le_rfl, hfile, hcontents, hother, rfl, fun hlt => by omega⟩
  | succ fuel ih =>
      rw [filewriteLoop]
      simp only [wp_ite, wp_bind, wp_pure]
      split
      swap
      · obtain rfl : i = n := by omega
        exact ⟨i, le_rfl, hfile, hcontents, hother, rfl, fun hlt => by omega⟩
      rename_i hlt
      have hn1 : (if n - i > WRITE_MAX then WRITE_MAX else n - i) = min (n - i) WRITE_MAX := by
        split <;> omega
      rw [hn1]
      have hsize : (u.fs.contents x).length ≤ MAXFILE * BSIZE := by
        rw [Fs.length_contents]
        exact hfile.ok.filled.size x
      have hlength : off ≤ (s.fs.contents x).length →
          (u.fs.contents x).length = max (s.fs.contents x).length (off + i) := fun hle => by
        rw [hcontents, Fs.length_overwrite hle, List.length_map, List.length_range]
      have hbeyond : i = 0 → u.fs.contents x = s.fs.contents x := fun hzero => by
        rw [hcontents, hzero, List.range_zero, List.map_nil, Fs.overwrite_nil]
      refine wp_post (writeChunk_spec hfile (by omega) (hsrc.drop (by omega))) fun r t hchunk => ?_
      by_cases hrefused : Fs.Refused (u.fs.contents x).length (off + i) (min (n - i) WRITE_MAX)
      · obtain ⟨rfl, hopen, hsame⟩ := hchunk.refused hrefused
        rw [if_pos (by omega), if_neg (by omega)]
        refine ⟨i, hi, hopen, hsame.trans hcontents, fun y hy => (hchunk.other y hy).trans (hother y hy), ?_,
          fun _ => .inr ?_⟩
        · rw [if_neg (by omega)]
        · by_cases hzero : i = 0
          · rw [hbeyond hzero] at hrefused hsize
            unfold Fs.Refused at hrefused
            omega
          · have := hlength (hstart (by omega))
            unfold Fs.Refused at hrefused
            omega
      · obtain ⟨tot, hle, rfl, hopen, hwrote, hfull⟩ := hchunk.wrote hrefused
        have hoff : off ≤ (s.fs.contents x).length := by
          by_cases hzero : i = 0
          · rw [hbeyond hzero] at hrefused
            unfold Fs.Refused at hrefused
            omega
          · exact hstart (by omega)
        have hbytes : t.fs.contents x =
            Fs.overwrite (s.fs.contents x) off ((List.range (i + tot)).map src.bytes) := by
          have happend := Fs.overwrite_overwrite (a := (List.range i).map src.bytes)
            (b := (List.range tot).map (src.drop i).bytes) hoff
          rw [List.length_map, List.length_range] at happend
          rw [hwrote, hcontents, happend, List.range_add, List.map_append, List.map_map]
          rfl
        have hrest : ∀ y, y ≠ x → t.fs.contents y = s.fs.contents y := fun y hy =>
          (hchunk.other y hy).trans (hother y hy)
        rw [Nat.add_assoc] at hopen
        by_cases hall : tot = min (n - i) WRITE_MAX
        · rw [if_neg (by omega), ← hall]
          exact ih hopen hbytes hrest (fun _ => hoff) (by omega) (by omega)
        · rw [if_pos (by omega), if_neg (by omega)]
          refine ⟨i + tot, by omega, hopen, hbytes, hrest, ?_, fun _ => .inl (hfull (by omega))⟩
          rw [if_neg (by omega)]

-- filewrite of n bytes on a file that is open for writing writes the first k of them.
theorem filewrite_once (h : OpenInode s f ip x off) (hwritable : (s.ftable f).writable = true)
    (hsrc : src.Readable n) (other : FileKind → FilesM Int) :
    wp (filewrite other f src n) (fun r t => ∃ k ≤ n,
      t.fs.contents x = Fs.overwrite (s.fs.contents x) off ((List.range k).map src.bytes) ∧
      (t.ftable f).kind = .inode ip (off + k) ∧ r = (if k = n then (n : Int) else -1) ∧
      (k < n → t.fs.Full ∨ ((s.fs.contents x).length < off ∧ k = 0) ∨
        MAXFILE * BSIZE < off + k + min (n - k) WRITE_MAX)) (fun _ => False) s := by
  unfold filewrite
  simp only [wp_bind, wp_get, hwritable, h.kind, Bool.true_eq_false, if_false]
  have hnone : s.fs.contents x = Fs.overwrite (s.fs.contents x) off ((List.range 0).map src.bytes) := by
    rw [List.range_zero, List.map_nil, Fs.overwrite_nil]
  refine wp_post (filewriteLoop_spec (i := 0) h hnone (fun _ _ => rfl) (fun hlt => absurd hlt (Nat.lt_irrefl 0))
    (Nat.zero_le n) (by omega) hsrc) fun r t ht => ?_
  obtain ⟨k, hk⟩ := ht
  exact ⟨k, hk.le, hk.contents, hk.file.kind, hk.result, hk.short⟩

section Sample

open Files

def Files.fd0 : Fd := ⟨0, Nat.succ_pos 99⟩
def Files.ip1 : Ip := ⟨1, Nat.lt_of_sub_eq_succ rfl⟩

-- The file that the first process opens is new.
theorem openInode_of_run (omode : BitVec 32) (w : Bool) (Q : Files → Prop) [DecidablePred Q]
    (h : decide (wp (sysOpen Sched.first (some pathA) omode) (fun _ t => (t.ftable fd0).kind = .inode ip1 0 ∧
      (t.ftable fd0).writable = w ∧ (t.fs.itable ip1).ref = 1 ∧ (t.fs.itable ip1).inum = 2 ∧
      (t.fs.itable ip1).lock = false ∧ (t.fs.view 2).type = .file ∧ t.fs.contents 2 = [] ∧ Q t)
      (fun _ => False) booted)) :
    ∃ t, OpenInode t fd0 ip1 2 0 ∧ (t.ftable fd0).writable = w ∧ t.fs.contents 2 = [] ∧ Q t := by
  obtain ⟨r, t, hrun, hkind, hw, href, hinum, hlock, htype, hcontents, hQ⟩ := exists_of_decide_wp h
  have hinv : t.Inv := (wp_of_ok hrun).mp (sysOpen_inv booted_inv booted_roomy Sched.first (some pathA) omode)
  refine ⟨t, ⟨hinv.inv.ok, hkind, ⟨by omega, hinum⟩, hlock, ?_⟩, hw, hcontents, hQ⟩
  rw [htype]
  decide

end Sample

-- Two bytes are written to a new file.
theorem filewrite_once_new : ∃ s, OpenInode s Files.fd0 Files.ip1 2 0 ∧ s.fs.contents 2 = [] ∧
    wp (filewrite (fun _ => pure (-1)) Files.fd0 ⟨fun k => UInt8.ofNat (k + 5), none⟩ 2) (fun r t => ∃ k ≤ 2,
      t.fs.contents 2 = ([5, 6] : List UInt8).take k ∧ r = if k = 2 then 2 else -1) (fun _ => False) s := by
  obtain ⟨s, hopen, hw, hempty, -⟩ := openInode_of_run (O_CREATE ||| O_RDWR) true (fun _ => True) (by decide +kernel)
  refine ⟨s, hopen, hempty, ?_⟩
  refine wp_post (filewrite_once hopen hw (fun _ h => (Option.not_mem_none _ h).elim) _) fun r t ht => ?_
  obtain ⟨k, hk, hcontents, -, hr, -⟩ := ht
  refine ⟨k, hk, ?_, hr⟩
  rw [hcontents, hempty, Fs.overwrite, List.drop_nil, List.take_nil, List.nil_append, List.append_nil]
  have hall : ∀ k ≤ 2, (List.range k).map (fun k => UInt8.ofNat (k + 5)) = ([5, 6] : List UInt8).take k := by decide
  exact hall k hk

-- A file that is open for reading only is not written to, whatever room there is.
theorem filewrite_readonly : ∃ s, OpenInode s Files.fd0 Files.ip1 2 0 ∧ s.fs.contents 2 = [] ∧ ¬s.fs.Full ∧
    wp (filewrite (fun _ => pure (-1)) Files.fd0 ⟨fun _ => 0, none⟩ 1) (fun r t => r = -1 ∧ t = s ∧
      ¬∃ k ≤ 1, (t.ftable Files.fd0).kind = .inode Files.ip1 (0 + k) ∧ (k < 1 → t.fs.Full ∨
        ((s.fs.contents 2).length < 0 ∧ k = 0) ∨ MAXFILE * BSIZE < 0 + k + min (1 - k) WRITE_MAX))
      (fun _ => False) s := by
  obtain ⟨s, hopen, hw, hempty, hsize, hfree⟩ := openInode_of_run O_CREATE false
    (fun t => 99 < t.fs.sb.size ∧ t.fs.bitmap 99 = false) (by decide +kernel)
  have hroom := Fs.not_full hsize hfree
  refine ⟨s, hopen, hempty, hroom, ?_⟩
  unfold filewrite
  simp only [wp_bind, wp_get, hw, if_true, wp_pure, true_and]
  rintro ⟨k, -, hkind, hshort⟩
  rw [hopen.kind, FileKind.inode.injEq] at hkind
  obtain rfl : k = 0 := by omega
  rcases hshort Nat.one_pos with hfull | ⟨hlt, -⟩ | hlt
  · exact hroom hfull
  · exact Nat.not_lt_zero _ hlt
  · exact absurd hlt (by decide)

end Xv6
