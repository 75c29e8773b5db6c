import Xv6.Fs.Logged

namespace Xv6

open Wp Transition
open Function (update update_of_ne update_self)

-- Where in what is sent the chunk starts that has the first byte which cannot be read.
def chunkStart (off limit : ℕ) : ℕ := if off / BSIZE = (off + limit) / BSIZE then 0 else limit - (off + limit) % BSIZE

-- What can be read of the chunk at which either_copyin fails is what the file has there.
def Source.Unseen (src : Source) (old : List UInt8) (off n : ℕ) : Prop :=
  ∀ limit ∈ src.limit, limit < n → ∀ j, chunkStart off limit ≤ j → j < limit → ∀ h : off + j < old.length,
    old[off + j] = src.bytes j

theorem Fs.Stored.contents_unseen {i : Ip} {x off n tot e : ℕ} {src : Source} {s t : Fs}
    (h : Stored i x src off n s tot e t) :
    t.contents x = splice (s.contents x) src.bytes off tot ↔ src.Unseen (s.contents x) off n := by
  have hlen := length_contents s x
  have hedge := h.edge
  rw [h.contents_iff]
  -- The chunk of the first byte that cannot be read starts at tot or later.
  have hchunk : ∀ limit ∈ src.limit, limit < n → tot ≤ chunkStart off limit ∧
      (limit - tot < BSIZE - (off + tot) % BSIZE → chunkStart off limit = tot) := by
    intro limit hlimit hlt
    have := h.read limit hlimit
    unfold chunkStart
    split <;> simp only [BSIZE] at * <;> omega
  constructor
  · intro hall limit hlimit hlt j hlo hhi hin
    obtain ⟨hle, hcut⟩ := hchunk limit hlimit hlt
    have hread := h.read limit hlimit
    rcases h.short (by omega) with ⟨-, -, hsize⟩ | ⟨limit', hlimit', -, he, -⟩
    · omega
    · cases hlimit.symm.trans hlimit'
      have hsame := hall (off + j) (by omega) (by omega) (by omega)
      rw [getElem_contents, ← hsame, Nat.add_sub_cancel_left]
  · intro hun o hlo hhi hin
    rcases h.le.lt_or_eq with hlt | heq
    · rcases h.short hlt with ⟨-, he, -⟩ | ⟨limit, hlimit, hshort, he, hcut⟩
      · omega
      · have hsame := hun limit hlimit hshort (o - off) (by rw [(hchunk limit hlimit hshort).2 hcut]; omega) (by omega)
          (by omega)
        rw [getElem_contents] at hsame
        rw [← hsame, Nat.add_sub_cancel' (by omega)]
    · rw [h.last heq] at hhi
      omega

namespace Logged

variable {α β : Type} {s t u : Logged} {i : Ip} {x : ℕ} {E E' : ℕ → Prop}

@[simp] theorem wp_ofFs {m : FsM α} {post : α → Logged → Prop} {err : FsStop → Prop} :
    wp (ofFs m) post err s ↔ wp m (fun a fs => post a { s with fs := fs }) err s.fs := wp_zoom

@[simp] theorem wp_logWrite {b : LogBlock} {post : Unit → Logged → Prop} {err : FsStop → Prop} :
    wp (logWrite b) post err s ↔ post () { s with log := if b ∈ s.log then s.log else s.log ++ [b] } := Iff.rfl

theorem mem_absorb {log : List LogBlock} {b c : LogBlock} :
    c ∈ (if b ∈ log then log else log ++ [b]) ↔ c ∈ log ∨ c = b := by
  split
  · rename_i hb
    exact ⟨.inl, fun h => h.elim id fun h => h ▸ hb⟩
  · simp

-- What changed in the data blocks outside E has been passed to log_write.
structure Tracks (E : ℕ → Prop) (s t : Logged) : Prop where
  home : t.home = s.home
  log : ∀ b ∈ s.log, b ∈ t.log
  data : ∀ b, t.fs.data b = s.fs.data b ∨ .data b ∈ t.log ∨ E b
  new : ∀ b, s.fs.bitmap b = false → t.fs.bitmap b = true → .data b ∈ t.log

namespace Tracks

theorem of_fs {fs : Fs} (hdata : ∀ b, ¬E b → fs.data b = s.fs.data b) (hbitmap : fs.bitmap = s.fs.bitmap) :
    Tracks E s { s with fs := fs } where
  home := rfl
  log _ hb := hb
  data b := by
    by_cases hb : E b
    · exact .inr (.inr hb)
    · exact .inl (hdata b hb)
  new b hfree hused := by
    rw [show s.fs.bitmap b = true from hbitmap ▸ hused] at hfree
    cases hfree

theorem refl (s : Logged) : Tracks E s s := of_fs (fun _ _ => rfl) rfl

theorem trans (h : Tracks E s t) (h' : Tracks E' t u) (hE : ∀ b, E' b → E b ∨ .data b ∈ t.log) : Tracks E s u where
  home := h'.home.trans h.home
  log b hb := h'.log b (h.log b hb)
  data b := by
    rcases h'.data b with hsame | hlog | hcut
    · exact (h.data b).imp hsame.trans (.imp_left (h'.log _))
    · exact .inr (.inl hlog)
    · exact .inr ((hE b hcut).symm.imp_left (h'.log _))
  new b hfree hused := by
    cases hmid : t.fs.bitmap b with
    | false => exact h'.new b hmid hused
    | true => exact h'.log _ (h.new b hfree hmid)

theorem of_false (h : Tracks (fun _ => False) s t) : Tracks E s t := (refl s).trans h fun _ => False.elim

theorem logWrite (s : Logged) (b : LogBlock) :
    Tracks E s { s with log := if b ∈ s.log then s.log else s.log ++ [b] } where
  home := rfl
  log c hc := mem_absorb.mpr (.inl hc)
  data _ := .inl rfl
  new b hfree hused := by
    rw [hfree] at hused
    cases hused

theorem write (s : Logged) (addr : ℕ) (b : Block) :
    Tracks E s { s with
      fs := { s.fs with data := update s.fs.data addr b }
      log := if .data addr ∈ s.log then s.log else s.log ++ [.data addr] } where
  home := rfl
  log c hc := mem_absorb.mpr (.inl hc)
  data c := by
    by_cases hc : c = addr
    · exact .inr (.inl (mem_absorb.mpr (.inr (congrArg _ hc))))
    · exact .inl (update_of_ne hc _ _)
  new b hfree hused := by
    rw [hfree] at hused
    cases hused

end Tracks

def Tracked (m : LoggedM α) : Prop := ∀ s, wp m (fun _ t => Tracks (fun _ => False) s t) (fun _ => True) s

namespace Tracked

theorem pure (a : α) : Tracked (Pure.pure a) := fun s => .refl s

theorem throw (e : FsStop) : Tracked (MonadExcept.throw e : LoggedM α) := fun _ => trivial

theorem bind {m : LoggedM α} {f : α → LoggedM β} (h : Tracked m) (hrest : ∀ a, Tracked (f a)) : Tracked (m >>= f) := by
  intro s
  rw [wp_bind]
  refine wp_post (h s) fun a t ht => wp_post (hrest a t) fun _ u hu => ht.trans hu fun _ => .inl

theorem get {f : Logged → LoggedM α} (h : ∀ s, Tracked (f s)) : Tracked (MonadState.get >>= f) := fun s => h s s

theorem ite {c : Prop} [Decidable c] {m n : LoggedM α} (h : Tracked m) (h' : Tracked n) :
    Tracked (if c then m else n) := by
  split
  · exact h
  · exact h'

theorem ofFs_modify {f : Fs → Fs} (hdata : ∀ s, (f s).data = s.data) (hbitmap : ∀ s, (f s).bitmap = s.bitmap) :
    Tracked (ofFs (modify f)) := fun s =>
  .of_fs (fun b _ => congrFun (hdata s.fs) b) (hbitmap s.fs)

end Tracked

theorem balloc_tracked : Tracked balloc := by
  intro s
  unfold balloc
  simp only [wp_bind, wp_get]
  split
  · rename_i b hb
    simp only [bzero, wp_bind, wp_ofFs, wp_logWrite, wp_modify, wp_pure]
    refine ⟨rfl, fun c hc => ?_, fun c => ?_, fun c hfree hused => ?_⟩
    · exact mem_absorb.mpr (.inl (mem_absorb.mpr (.inl hc)))
    · by_cases hc : c = b
      · exact .inr (.inl (mem_absorb.mpr (.inr (congrArg _ hc))))
      · exact .inl (update_of_ne hc _ _)
    · by_cases hc : c = b
      · exact mem_absorb.mpr (.inr (congrArg _ hc))
      · have hused : update s.fs.bitmap b true c = true := hused
        rw [update_of_ne hc, hfree] at hused
        cases hused
  · exact .refl s

theorem bmapAddr_tracked (i : Ip) (j : ℕ) : Tracked (bmapAddr i j) := by
  refine .get fun s => .ite (.pure _) (balloc_tracked.bind fun addr => .ite (.pure 0) ?_)
  exact .bind (.ofFs_modify (fun _ => rfl) fun _ => rfl) fun _ => .pure addr

theorem bmapIndirect_tracked (indirect bn : ℕ) : Tracked (bmapIndirect indirect bn) := by
  refine .get fun s => .ite (.pure _) (balloc_tracked.bind fun addr => .ite (.pure 0) fun t => ?_)
  exact .write t indirect _

theorem bmap_tracked (i : Ip) (bn : ℕ) : Tracked (bmap i bn) := by
  refine .ite (bmapAddr_tracked i bn) (.ite ?_ (.throw _))
  exact (bmapAddr_tracked i NDIRECT).bind fun indirect => .ite (.pure 0) (bmapIndirect_tracked indirect _)

theorem iupdate_tracked (i : Ip) : Tracked (iupdate i) := by
  refine .bind (.ofFs_modify (fun _ => rfl) fun _ => rfl) fun _ => .get fun s t => ?_
  exact .logWrite t _

-- The block of inode x in which a write stops, if s has it.
def Cut (s : Logged) (x n : ℕ) (r : ℕ × ℕ) (b : ℕ) : Prop :=
  r.1 < n ∧ b ≠ 0 ∧ b = s.fs.vol.block x (slotOf (r.2 / BSIZE))

theorem Cut.of_tracks {n b : ℕ} {r : ℕ × ℕ} (h : t.Cut x n r b) (ht : t.fs.Ok) (hg : Grows x s.fs.vol t.fs.vol)
    (htracks : Tracks E s t) : s.Cut x n r b ∨ .data b ∈ t.log := by
  obtain ⟨hlt, hnz, rfl⟩ := h
  rcases hg.new _ hnz with hsame | hfree
  · exact .inl ⟨hlt, hnz, hsame⟩
  · exact .inr (htracks.new _ hfree (ht.own.mem_pool hnz).2)

-- A write changes no block that it does not log, but for the one at which either_copyin fails.
theorem writeLoop_tracked (hs : s.fs.Ok) (hi : s.fs.Held i x) (src : Source) (n fuel tot off : ℕ) :
    wp (writeLoop i src n fuel tot off) (fun r t => r.2 + tot = off + r.1 ∧ Tracks (s.Cut x n r) s t)
      (fun _ => True) s := by
  induction fuel generalizing s tot off with
  | zero => exact ⟨rfl, .refl s⟩
  | succ fuel ih =>
      unfold writeLoop
      simp only [wp_ite, wp_pure, wp_bind]
      split
      · exact ⟨trivial, .refl s⟩
      · rename_i hn
        refine wp_mono (wp_and (bmap_tracked i _ s) ((bmap_erases i _).wp (Fs.bmap_spec hs hi _))) ?_ fun _ _ => trivial
        rintro addr t ⟨htracks, hmaps⟩
        have ht := hmaps.grown.ok
        split
        · exact ⟨trivial, htracks.of_false⟩
        · rename_i hnz
          have hblock := hmaps.block hnz
          simp only [wp_get, wp_ofFs, wp_logWrite, wp_modify]
          generalize src.copyin _ _ _ _ = copy
          split
          · have hg := hmaps.grown.trans (.write ht (hmaps.grown.held hi) hnz hblock copy.1)
            refine wp_post (ih hg.ok (hg.held hi) _ _) fun r u hu => ⟨by omega, ?_⟩
            have hpass := htracks.trans (Tracks.write t addr copy.1) fun _ => .inl
            exact hpass.of_false.trans hu.2 fun b hcut => hcut.of_tracks hg.ok hg.grows hpass
          · refine ⟨trivial, htracks.of_false.trans (.of_fs (fun b hb => ?_) rfl) fun b hcut =>
              Cut.of_tracks hcut ht hmaps.grown.grows htracks⟩
            refine update_of_ne (fun heq => hb ?_) _ _
            subst heq
            exact ⟨not_le.mp hn, hnz, hblock.symm⟩

theorem writei_tracked (hs : s.fs.Ok) (hi : s.fs.Held i x) (src : Source) (off n : ℕ) :
    wp (writei i src off n) (fun r t => Tracks (s.Cut x n (r.toNat, off + r.toNat)) s t) (fun _ => True) s := by
  unfold writei
  simp only [wp_bind, wp_get, wp_ite, wp_pure]
  split
  · exact .refl s
  · split
    · exact .refl s
    · refine wp_post (writeLoop_tracked hs hi src n n 0 off) ?_
      rintro ⟨tot, stop⟩ t ⟨hstop, htracks⟩
      obtain rfl : stop = off + tot := hstop
      simp only [wp_ofFs, wp_modify]
      refine wp_post (iupdate_tracked i _) fun _ u hu => ?_
      have hsize : ∀ f : Dinode → Dinode, Tracks (fun _ => False) t { t with fs := t.fs.setCopy i f } :=
        fun _ => .of_fs (fun _ _ => rfl) rfl
      exact htracks.trans ((hsize _).trans hu fun _ => .inl) fun _ => False.elim

-- A data block as it is read back once its buffer has been recycled. The log pins the
-- buffers of its blocks, and the commit copies them.
def reread (s : Logged) (b : ℕ) : Block := if .data b ∈ s.log then s.fs.data b else s.home b

theorem Tracks.reread (h : Tracks E s t) {b : ℕ} (hb : s.reread b = s.fs.data b) :
    t.reread b = t.fs.data b ∨ E b ∧ t.reread b = s.fs.data b := by
  unfold Logged.reread at hb ⊢
  split
  · exact .inl rfl
  · rename_i hnot
    rw [if_neg fun hlog => hnot (h.log _ hlog)] at hb
    rw [h.home, hb]
    exact (h.data b).imp Eq.symm fun hlog => ⟨hlog.resolve_left hnot, rfl⟩

-- The buffers agree with what they are read back as: those of inode x, and the indirect
-- blocks, which never hold what a process sends.
def Synced (s : Logged) (x : ℕ) : Prop :=
  ∀ y r, y = x ∨ r = NDIRECT → s.fs.vol.block y r ≠ 0 → s.reread (s.fs.vol.block y r) = s.fs.data (s.fs.vol.block y r)

-- What happens to the buffers until the next system call: the log commits, which brings its
-- blocks home, and buffers that are not pinned are recycled and read again.
inductive Idle : Logged → Logged → Prop
  | commit (s : Logged) : Idle s { s with home := s.reread, log := [] }
  | recycle (s : Logged) (b : ℕ) (hb : .data b ∉ s.log) :
      Idle s { s with fs := { s.fs with data := update s.fs.data b (s.home b) } }

-- Data that shows what f has in inode x and in the indirect blocks.
structure Alike (x : ℕ) (f : Fs) (d : Disk) : Prop where
  indirect : ∀ y, f.vol.block y NDIRECT ≠ 0 → d (f.vol.block y NDIRECT) = f.data (f.vol.block y NDIRECT)
  byte : ∀ o < (f.view x).size, (d (f.vol.block x (slotOf (o / BSIZE)))).bytes (o % BSIZE) = f.vol.byte x o

namespace Alike

variable {f : Fs} {d d' : Disk}

theorem block (h : Alike x f d) (hf : f.Ok) (y r : ℕ) :
    Vol.block { f.vol with data := d } y r = f.vol.block y r := by
  refine Dinode.block_congr (d := f.vol.view y) rfl (fun hz => ?_) r
  rw [← hf.own.block_indirect] at hz ⊢
  exact h.indirect y hz

theorem ok (h : Alike x f d) (hf : f.Ok) : Fs.Ok { f with data := d } where
  table := ⟨hf.table.dev, hf.table.uniq, hf.table.typed⟩
  own := hf.own.of_block rfl (h.block hf) hf.own.free
  filled := ⟨hf.filled.size, fun y bn hbn => by
    rw [show Fs.vol { f with data := d } = { f.vol with data := d } from rfl, h.block hf]
    exact hf.filled.block y bn hbn⟩

theorem contents (h : Alike x f d) (hf : f.Ok) : Fs.contents { f with data := d } x = f.contents x := by
  refine Fs.contents_congr rfl fun o ho => ?_
  rw [show Fs.vol { f with data := d } = { f.vol with data := d } from rfl, Vol.byte, h.block hf]
  exact h.byte o ho

theorem update (h : Alike x f d) (h' : Alike x f d') (b : ℕ) : Alike x f (Function.update d b (d' b)) := by
  have hcases : ∀ c, Function.update d b (d' b) c = d c ∨ Function.update d b (d' b) c = d' c := by
    intro c
    by_cases hc : c = b
    · exact .inr (by rw [hc, update_self])
    · exact .inl (update_of_ne hc _ _)
  refine ⟨fun y hnz => ?_, fun o ho => ?_⟩
  · rcases hcases (f.vol.block y NDIRECT) with heq | heq
    · exact heq.trans (h.indirect y hnz)
    · exact heq.trans (h'.indirect y hnz)
  · rcases hcases (f.vol.block x (slotOf (o / BSIZE))) with heq | heq
    · exact heq ▸ h.byte o ho
    · exact heq ▸ h'.byte o ho

end Alike

-- After a write what is read back shows what the buffers have, if nothing can be seen of the
-- block in which it stops.
theorem Synced.alike (h : s.Synced x) (hs : s.fs.Ok) (ht : t.fs.Ok) (hg : Grows x s.fs.vol t.fs.vol) {n : ℕ}
    {r : ℕ × ℕ} (htracks : Tracks (s.Cut x n r) s t) (hbyte : ∀ o < (t.fs.view x).size,
      r.1 < n → o / BSIZE = r.2 / BSIZE → t.fs.vol.byte x o = s.fs.vol.byte x o) : Alike x t.fs t.reread := by
  have hnew : ∀ r, t.fs.vol.block x r ≠ 0 → t.fs.vol.block x r = s.fs.vol.block x r ∨
      t.reread (t.fs.vol.block x r) = t.fs.data (t.fs.vol.block x r) := fun r hnz =>
    (hg.new r hnz).imp_right fun hfree => if_pos (htracks.new _ hfree (ht.own.mem_pool hnz).2)
  refine ⟨fun y hnz => ?_, fun o ho => ?_⟩
  · have hold : t.fs.vol.block y NDIRECT = s.fs.vol.block y NDIRECT ∨
        t.reread (t.fs.vol.block y NDIRECT) = t.fs.data (t.fs.vol.block y NDIRECT) := by
      by_cases hy : y = x
      · subst hy
        exact hnew NDIRECT hnz
      · exact .inl (hg.block_other hs.own hy _)
    rcases hold with hsame | hlog
    · rw [hsame] at hnz ⊢
      refine (htracks.reread (h y NDIRECT (.inr rfl) hnz)).resolve_right fun ⟨⟨_, _, hcut⟩, _⟩ => ?_
      exact Fs.slotOf_ne _ (hs.own.eq_of_block hnz hcut.symm).2.symm
    · exact hlog
  · have hnz := Fs.block_of_lt ht ho
    rcases hnew _ hnz with hsame | hlog
    · rw [hsame] at hnz
      rcases htracks.reread (h x _ (.inl rfl) hnz) with hread | ⟨⟨hlt, -, hcut⟩, hread⟩
      · rw [hsame, hread, Vol.byte, hsame]
        rfl
      · rw [hsame, hread, hbyte o ho hlt (slotOf_inj (hs.own.eq_of_block hnz hcut.symm).2)]
        rfl
    · rw [hlog]
      rfl

-- Where inode x and the indirect blocks of s still show what they showed.
structure Shows (x : ℕ) (s t : Logged) : Prop where
  fs : t.fs = { s.fs with data := t.fs.data }
  alike : Alike x s.fs t.fs.data
  reread : Alike x s.fs t.reread

theorem Shows.idle (h : Shows x s t) (hstep : Idle t u) : Shows x s u := by
  cases hstep with
  | commit => exact ⟨h.fs, h.alike, h.reread⟩
  | recycle b hb =>
      have hhome : t.home b = t.reread b := (if_neg hb).symm
      have hread : Logged.reread { t with fs := { t.fs with data := update t.fs.data b (t.home b) } } = t.reread := by
        funext c
        unfold Logged.reread
        split
        · rename_i hc
          have hne : c ≠ b := by
            rintro rfl
            exact hb hc
          exact update_of_ne hne _ _
        · rfl
      refine ⟨by rw [h.fs], ?_, hread ▸ h.reread⟩
      rw [hhome]
      exact h.alike.update h.reread b

theorem shows_of_reaches (h : Alike x s.fs s.reread) (hreach : Reaches Idle s t) : Shows x s t :=
  hreach.invariant (Shows x s) ⟨rfl, ⟨fun _ _ => rfl, fun _ _ => rfl⟩, h⟩ fun _ _ => Shows.idle

theorem readi_contents (hs : s.fs.Ok) (hi : s.fs.Held i x) (dst : ℕ → UInt8) (off n : UInt32) :
    ∃ (m : ℕ) (buf : ℕ → UInt8) (t : Logged),
      readi i (fun _ _ => true) dst off.toNat n.toNat s = .ok ((m, buf), t) ∧
      (List.range m).map buf = ((s.fs.contents x).take (off + n).toNat).drop off.toNat := by
  obtain ⟨⟨r, buf⟩, t, hrun, -, m, rfl, hbuf⟩ :=
    exists_of_wp ((readi_erases i _ dst _ _).wp (Fs.readi_bytes hs hi dst off.toNat_lt n.toNat_lt))
  refine ⟨m, buf, t, hrun, ?_⟩
  rw [UInt32.toNat_add]
  exact hbuf

theorem Shows.readi (h : Shows x s t) (hs : s.fs.Ok) (hi : s.fs.Held i x) (dst : ℕ → UInt8) (off n : UInt32) :
    ∃ (m : ℕ) (buf : ℕ → UInt8) (u : Logged),
      Logged.readi i (fun _ _ => true) dst off.toNat n.toNat t = .ok ((m, buf), u) ∧
      (List.range m).map buf = ((s.fs.contents x).take (off + n).toNat).drop off.toNat := by
  have ht : t.fs.Ok := by
    rw [h.fs]
    exact h.alike.ok hs
  have hi' : t.fs.Held i x := by
    rw [h.fs]
    exact ⟨⟨hi.ref, hi.inum⟩, hi.valid⟩
  have hcontents : t.fs.contents x = s.fs.contents x := by
    rw [h.fs]
    exact h.alike.contents hs
  rw [← hcontents]
  exact readi_contents ht hi' dst off n

-- A write, cut short or not, is the splice of what it returns, and stays so however the buffers
-- are recycled, just if nothing can be seen of the chunk at which either_copyin fails.
theorem writei_leaves_no_trace (hs : s.fs.Ok) (hi : s.fs.Held i x) (hsync : s.Synced x) (src : Source)
    (off n : UInt32) :
    ∃ r t, writei i src off.toNat n.toNat s = .ok (r, t) ∧
      ∃ tot ≤ n.toNat, (r = (tot : ℕ) ∨ r = -1 ∧ tot = 0) ∧
        ((∀ u, Reaches Idle t u → ∀ (dst : ℕ → UInt8) (off' n' : UInt32),
          ∃ (m : ℕ) (buf : ℕ → UInt8) (v : Logged),
            readi i (fun _ _ => true) dst off'.toNat n'.toNat u = .ok ((m, buf), v) ∧
            (List.range m).map buf =
              ((Fs.splice (s.fs.contents x) src.bytes off.toNat tot).take (off' + n').toNat).drop off'.toNat) ↔
          Fs.Refused (s.fs.view x).size off.toNat n.toNat ∨ src.Unseen (s.fs.contents x) off.toNat n.toNat) := by
  obtain ⟨r, t, hrun, htracks, hrefused, htaken⟩ := exists_of_wp (wp_mono (wp_and (writei_tracked hs hi src _ _)
    ((writei_erases i src _ _).wp (Fs.writei_stored hs hi n.toNat_lt))) (fun _ _ h => h) fun _ h => h.2)
  refine ⟨r, t, hrun, ?_⟩
  by_cases hr : Fs.Refused (s.fs.view x).size off.toNat n.toNat
  · obtain ⟨rfl, hfs⟩ := hrefused hr
    have hgrows : Grows x s.fs.vol t.fs.vol := by
      rw [hfs]
      exact .refl x _
    have halike := hsync.alike hs (hfs ▸ hs) hgrows htracks fun o _ _ _ => by rw [hfs]
    refine ⟨0, Nat.zero_le _, .inr ⟨rfl, rfl⟩, fun _ => .inl hr, fun _ u hreach dst off' n' => ?_⟩
    have hsplice : Fs.splice (s.fs.contents x) src.bytes off.toNat 0 = t.fs.contents x := by
      rw [hfs, Fs.splice, List.range_zero, List.map_nil, List.append_nil, Nat.add_zero, List.take_append_drop]
    rw [hsplice]
    exact (shows_of_reaches halike hreach).readi (hfs ▸ hs) (hfs ▸ hi) dst off' n'
  · obtain ⟨tot, e, rfl, h⟩ := htaken hr
    have hi' := h.edit.held.mpr hi
    refine ⟨tot, h.le, .inl rfl, fun hall => .inr (h.contents_unseen.mp ?_), fun hun u hreach dst off' n' => ?_⟩
    · obtain ⟨m, buf, v, hread, hbuf⟩ := hall t .refl (fun _ => 0) 0 (2 ^ 31)
      obtain ⟨m', buf', v', hread', hbuf'⟩ := readi_contents h.ok hi' (fun _ => 0) 0 (2 ^ 31)
      have hsize := (Fs.filledTo_size h.ok hi').1
      rw [← h.ok.table.view_eq hi'] at hsize
      have hlen : (t.fs.view x).size ≤ ((0 : UInt32) + 2 ^ 31).toNat := hsize.trans (by decide)
      simp only [hread, Except.ok.injEq, Prod.mk.injEq, Nat.cast_inj] at hread'
      obtain ⟨⟨rfl, rfl⟩, rfl⟩ := hread'
      rw [hbuf, List.take_of_length_le, List.take_of_length_le] at hbuf'
      · exact hbuf'.symm
      · rwa [Fs.length_contents]
      · rwa [Fs.splice_contents _ _ h.start, List.length_map, List.length_range, ← h.size]
    · have hcontents := h.contents_unseen.mpr (hun.resolve_left hr)
      have halike := hsync.alike hs h.ok h.grows htracks fun o ho hlt hblock => by
        -- The write stops where it starts or at the start of a block.
        have hedge := h.edge
        have hsize := h.size
        rw [h.byte o ho]
        simp only [Int.toNat_natCast, BSIZE] at hlt hblock hedge
        split
        · exact h.contents_iff.mp hcontents o (by omega) (by omega) (by omega)
        · rfl
      rw [← hcontents]
      exact (shows_of_reaches halike hreach).readi h.ok hi' dst off' n'

def ofDisk (fs : Fs) : Logged := ⟨fs, fs.data, []⟩

theorem synced_ofDisk (fs : Fs) (x : ℕ) : (ofDisk fs).Synced x := fun _ _ _ _ => if_neg List.not_mem_nil

theorem exists_file {P : Fs → Prop} (h : wp (do (FsOp.ialloc .file).run; (FsOp.ilock Fs.ip0).run) (fun _ s => ∃ f,
      (FsOp.writei Fs.ip0 ⟨fun k => UInt8.ofNat (k + 1), none⟩ 0 3).run s = .ok ((), f) ∧ f.Held Fs.ip0 1 ∧
        f.contents 1 = [1, 2, 3] ∧ P f) (fun _ => False) Fs.blank) :
    ∃ f : Fs, f.Ok ∧ f.Held Fs.ip0 1 ∧ f.contents 1 = [1, 2, 3] ∧ P f := by
  obtain ⟨s, hreach, hi, hlock, f, hstep, hf⟩ := Fs.exists_locked h
  have hreach' : Reaches FsStep Fs.blank f := hreach.tail ⟨.writei Fs.ip0 _ 0 3, ⟨hlock, 1, hi⟩, hstep⟩
  exact ⟨f, Fs.reachable_ok Fs.blank_wellFormed hreach', hf⟩

-- Nothing of what is sent is readable.
theorem writei_leaves_no_trace_unreadable : ∃ s t : Logged, s.fs.contents 1 = [1, 2, 3] ∧
    writei Fs.ip0 ⟨fun _ => 9, some 0⟩ 0 2 s = .ok (0, t) ∧ ∀ u, Reaches Idle t u → ∃ buf v,
      readi Fs.ip0 (fun _ _ => true) (fun _ => 0) 0 3 u = .ok ((3, buf), v) ∧ (List.range 3).map buf = [1, 2, 3] := by
  obtain ⟨f, hf, hi, hcontents, t, hwrite⟩ := exists_file (P := fun f => ∃ t,
    writei Fs.ip0 ⟨fun _ => 9, some 0⟩ 0 2 (ofDisk f) = .ok (0, t)) ⟨_, rfl, ⟨⟨by decide, rfl⟩, rfl⟩, rfl, _, rfl⟩
  obtain ⟨r, t', hwrite', tot, -, hr, hlater⟩ := writei_leaves_no_trace (s := ofDisk f) hf hi (synced_ofDisk f 1)
    ⟨fun _ => 9, some 0⟩ 0 2
  cases hwrite.symm.trans hwrite'
  have htot : tot = 0 := by omega
  subst htot
  refine ⟨ofDisk f, t, hcontents, hwrite, fun u hreach => ?_⟩
  have hunseen : (⟨fun _ => 9, some 0⟩ : Source).Unseen ((ofDisk f).fs.contents 1) 0 2 := by
    rintro _ ⟨⟩ - j - hj
    cases hj
  obtain ⟨m, buf, v, hread, hbuf⟩ := hlater.mpr (.inr hunseen) u hreach (fun _ => 0) 0 3
  rw [show (ofDisk f).fs.contents 1 = [1, 2, 3] from hcontents] at hbuf
  have hm : m = 3 := by simpa [Fs.splice] using congrArg List.length hbuf
  subst hm
  exact ⟨buf, v, hread, hbuf⟩

-- Two bytes are sent of which the process has one: writei returns 0, and the first byte of
-- the file is another.
theorem writei_partial_chunk : ∃ s t u : Logged, s.fs.Ok ∧ s.fs.Held Fs.ip0 1 ∧ s.Synced 1 ∧
    s.fs.contents 1 = [1, 2, 3] ∧ writei Fs.ip0 ⟨fun _ => 9, some 1⟩ 0 2 s = .ok (0, t) ∧
    ∃ buf, readi Fs.ip0 (fun _ _ => true) (fun _ => 0) 0 3 t = .ok ((3, buf), u) ∧
      (List.range 3).map buf = [9, 2, 3] := by
  obtain ⟨f, hf, hi, hcontents, t, u, hwrite, hread⟩ := exists_file (P := fun f => ∃ t u,
    writei Fs.ip0 ⟨fun _ => 9, some 1⟩ 0 2 (ofDisk f) = .ok (0, t) ∧
    ∃ buf, readi Fs.ip0 (fun _ _ => true) (fun _ => 0) 0 3 t = .ok ((3, buf), u) ∧
      (List.range 3).map buf = [9, 2, 3])
    ⟨_, rfl, ⟨⟨by decide, rfl⟩, rfl⟩, rfl, _, _, rfl, _, rfl, rfl⟩
  exact ⟨ofDisk f, t, u, hf, hi, synced_ofDisk f 1, hcontents, hwrite, hread⟩

end Logged

end Xv6
