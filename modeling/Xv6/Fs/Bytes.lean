import Xv6.Fs.Content

namespace Xv6

open Wp

def Source.Readable (src : Source) (n : ℕ) : Prop := ∀ limit ∈ src.limit, n ≤ limit

-- What either_copyin of m bytes at tot gets.
def Source.avail (src : Source) (tot m : ℕ) : ℕ :=
  match src.limit with
  | none => m
  | some limit => min m (limit - tot)

theorem Source.copyin_eq (src : Source) (b : Block) (tot o m : ℕ) :
    src.copyin b tot o m = (fun k : Fin BSIZE => if o ≤ k ∧ k < o + src.avail tot m then src.bytes (tot + (k - o))
      else b k, decide (src.avail tot m = m)) := by
  obtain ⟨bytes, limit⟩ := src
  cases limit with
  | none =>
      simp [Source.copyin, Source.avail]
      rfl
  | some limit =>
      have hstop : min (tot + m) (max tot limit) - tot = min m (limit - tot) := by omega
      have hall : min (tot + m) (max tot limit) = tot + m ↔ min m (limit - tot) = m := by omega
      simp [Source.copyin, Source.avail, hstop, hall]
      rfl

theorem Source.Readable.avail {src : Source} {tot m : ℕ} (h : src.Readable tot) (hm : src.avail tot m = m) :
    src.Readable (tot + m) := by
  intro limit hlimit
  have hle := h limit hlimit
  rw [Source.avail, hlimit] at hm
  dsimp only at hm
  omega

theorem Source.avail_lt {src : Source} {tot m : ℕ} (hm : src.avail tot m ≠ m) :
    ∃ limit ∈ src.limit, src.avail tot m = limit - tot ∧ limit - tot < m := by
  unfold Source.avail at hm ⊢
  cases hlimit : src.limit with
  | none =>
      rw [hlimit] at hm
      exact absurd rfl hm
  | some limit =>
      rw [hlimit] at hm
      dsimp only at hm ⊢
      exact ⟨limit, rfl, by omega, by omega⟩

theorem slotOf_inj {bn bn' : ℕ} (h : slotOf bn = slotOf bn') : bn = bn' := by
  unfold slotOf at h
  split at h <;> split at h <;> omega

theorem Vol.byte_setView (v : Vol) {x : ℕ} {d : Dinode} (haddrs : d.addrs = (v.view x).addrs) (y o : ℕ) :
    (v.setView x d).byte y o = v.byte y o := by
  rw [Vol.byte, Vol.byte, Own.block_setView v haddrs]
  rfl

namespace Fs

variable {s t u : Fs} {i : Ip} {x y : ℕ}

variable {o : ℕ} {src : Source} {n tot off : ℕ}

theorem byte_other {sb : Superblock} {v w : Vol} (h : Grows x v w) (ho : Own sb v) (hf : Filled v) (hy : y ≠ x)
    (hsize : o < (v.view y).size) : w.byte y o = v.byte y o := by
  have hb : v.block y (slotOf (o / BSIZE)) ≠ 0 :=
    hf.block y _ (lt_of_le_of_lt (Nat.div_mul_le_self _ _) hsize)
  rw [Vol.byte, Vol.byte, h.block_other ho hy, h.data_other ho hy hb]

def contents (s : Fs) (x : ℕ) : List UInt8 := (List.range (s.view x).size).map (s.vol.byte x)

def Full (s : Fs) : Prop := ∀ b < s.sb.size, s.bitmap b = true

theorem balloc_full (hs : s.Ok) : wp balloc (fun b t => b = 0 → t.Full) (fun _ => True) s := by
  unfold balloc
  simp only [wp_bind, wp_get]
  split
  · rename_i b hb
    have hfree := List.find?_some hb
    simp only [Bool.not_eq_true'] at hfree
    exact fun hzero => absurd hzero (hs.own.fresh_pos hfree)
  · rename_i hnone
    intro _ b hb
    simpa using List.find?_eq_none.mp hnone b (List.mem_range.mpr hb)

theorem bmapAddr_full (hs : s.Ok) (i : Ip) (j : ℕ) :
    wp (bmapAddr i j) (fun addr t => addr = 0 → t.Full) (fun _ => True) s := by
  unfold bmapAddr
  simp only [wp_bind, wp_get, wp_ite, wp_pure]
  split
  · rename_i hnz
    exact fun hzero => absurd hzero hnz
  · refine wp_post (balloc_full hs) fun b t hfull => ?_
    split
    · rename_i hzero
      exact fun _ => hfull hzero
    · rename_i hnz
      exact fun hzero => absurd hzero hnz

theorem bmapIndirect_full (hs : s.Ok) (indirect bn : ℕ) :
    wp (bmapIndirect indirect bn) (fun addr t => addr = 0 → t.Full) (fun _ => True) s := by
  unfold bmapIndirect
  simp only [wp_bind, wp_get, wp_ite, wp_pure]
  split
  · rename_i hnz
    exact fun hzero => absurd hzero hnz
  · refine wp_post (balloc_full hs) fun b t hfull => ?_
    split
    · rename_i hzero
      exact fun _ => hfull hzero
    · rename_i hnz
      exact fun hzero => absurd hzero hnz

theorem bmap_full (hs : s.Ok) (hi : s.Held i x) (bn : ℕ) :
    wp (bmap i bn) (fun addr t => addr = 0 → t.Full) (fun _ => True) s := by
  unfold bmap
  simp only [wp_ite, wp_bind, wp_throw, wp_pure]
  split
  · exact bmapAddr_full hs i bn
  · split
    · refine wp_mono (wp_and (bmapAddr_full hs i NDIRECT) (bmapAddr_spec hs hi le_rfl)) ?_ fun _ _ => trivial
      rintro indirect t ⟨hfull, hmaps⟩
      split
      · rename_i hzero
        exact fun _ => hfull hzero
      · exact bmapIndirect_full hmaps.grown.ok indirect _
    · trivial

-- A byte of a mapped block is still the same after bmap.
theorem Maps.byte {slot addr : ℕ} (h : Maps i x slot s addr t)
    (ho : s.vol.block x (slotOf (o / BSIZE)) ≠ 0) : t.vol.byte x o = s.vol.byte x o := by
  rw [Vol.byte, h.grown.grows.block _ ho]
  exact congrArg (fun b => Block.bytes b (o % BSIZE)) (h.data _ (slotOf_ne _) ho)

theorem byte_write (hs : s.Ok) {bn : ℕ} (hbn : s.vol.block x (slotOf bn) ≠ 0) (b : Block) (o : ℕ) :
    (s.vol.setData (s.vol.block x (slotOf bn)) b).byte x o =
      if o / BSIZE = bn then b.bytes (o % BSIZE) else s.vol.byte x o := by
  rw [Vol.byte, hs.own.block_write hbn (slotOf_ne bn)]
  split
  · rename_i heq
    rw [heq]
    exact congrArg (fun b => Block.bytes b (o % BSIZE)) (Function.update_self ..)
  · rename_i hne
    refine congrArg (fun b => Block.bytes b (o % BSIZE)) (Function.update_of_ne (fun heq => hne ?_) _ _)
    exact slotOf_inj (hs.own.eq_of_block hbn heq).2.symm

-- A pass of writei's loop, from s over bmap's t: c bytes are stored at off.
theorem Maps.byte_store (src : Source) (tot : ℕ) {c addr : ℕ} {b : Block} (hoff : off % BSIZE + c ≤ BSIZE)
    (h : Maps i x (slotOf (off / BSIZE)) s addr t) (haddr : addr ≠ 0)
    (hb : ∀ k < BSIZE, b.bytes k = if off % BSIZE ≤ k ∧ k < off % BSIZE + c then src.bytes (tot + (k - off % BSIZE))
      else (t.data addr).bytes k) (o : ℕ) (ho : s.vol.block x (slotOf (o / BSIZE)) ≠ 0 ∨ off ≤ o ∧ o < off + c) :
    (t.vol.setData addr b).block x (slotOf (o / BSIZE)) ≠ 0 ∧ (t.vol.setData addr b).byte x o =
      if off ≤ o ∧ o < off + c then src.bytes (tot + (o - off)) else s.vol.byte x o := by
  have ht := h.grown.ok
  have hblock := h.block haddr
  have hnz : t.vol.block x (slotOf (off / BSIZE)) ≠ 0 := by rwa [hblock]
  have hbyte := byte_write ht hnz b o
  have hown := ht.own.block_write hnz (slotOf_ne _) b x (slotOf (o / BSIZE))
  rw [hblock] at hbyte hown
  have hlt : o % BSIZE < BSIZE := Nat.mod_lt _ (by decide)
  rw [hown, hbyte]
  by_cases hin : off ≤ o ∧ o < off + c
  · have hdiv : o / BSIZE = off / BSIZE ∧ o % BSIZE = off % BSIZE + (o - off) := by
      simp only [BSIZE] at hoff ⊢
      omega
    rw [hdiv.1, if_pos rfl, hb _ hlt, if_pos (by omega), if_pos hin, hdiv.2, Nat.add_sub_cancel_left]
    exact ⟨hnz, rfl⟩
  · have hmapped := ho.resolve_right hin
    refine ⟨by rwa [h.grown.grows.block _ hmapped], ?_⟩
    rw [if_neg hin, ← h.byte hmapped]
    split
    · -- The byte is in the written block, beside what was copied.
      rename_i heq
      rw [hb _ hlt, if_neg, Vol.byte, heq, hblock]
      · rfl
      · simp only [BSIZE] at heq ⊢
        omega
    · rfl

-- What writei's loop does to inode x, from tot and off on: bytes are stored up to e, which is
-- beyond what it returns if either_copyin fails inside a chunk.
structure Wrote (x : ℕ) (src : Source) (n tot off : ℕ) (s : Fs) (r : ℕ × ℕ) (e : ℕ) (t : Fs) : Prop where
  count : tot ≤ r.1 ∧ r.1 ≤ n
  stop : r.2 = off + (r.1 - tot)
  edge : r.1 = n ∨ r.1 = tot ∨ r.2 % BSIZE = 0
  read : src.Readable r.1
  short : r.1 < n → t.Full ∧ e = r.2 ∧ s.vol.block x (slotOf (r.2 / BSIZE)) = 0 ∨
    ∃ limit ∈ src.limit, limit < n ∧ e = r.2 + (limit - r.1) ∧ limit - r.1 < BSIZE - r.2 % BSIZE
  last : r.1 = n → e = r.2
  le : r.2 ≤ e
  byte : ∀ o, s.vol.block x (slotOf (o / BSIZE)) ≠ 0 ∨ off ≤ o ∧ o < r.2 →
    t.vol.byte x o = if off ≤ o ∧ o < e then src.bytes (tot + (o - off)) else s.vol.byte x o

theorem Wrote.done (htot : tot ≤ n) (hread : src.Readable tot)
    (hshort : tot < n → t.Full ∧ s.vol.block x (slotOf (off / BSIZE)) = 0)
    (hbyte : ∀ o, s.vol.block x (slotOf (o / BSIZE)) ≠ 0 → t.vol.byte x o = s.vol.byte x o) :
    Wrote x src n tot off s (tot, off) off t where
  count := ⟨le_rfl, htot⟩
  stop := by simp
  edge := .inr (.inl rfl)
  read := hread
  short hlt := .inl ⟨(hshort hlt).1, rfl, (hshort hlt).2⟩
  last _ := rfl
  le := le_rfl
  byte o ho := by
    have hout : ¬(off ≤ o ∧ o < off) := by omega
    rw [if_neg hout]
    exact hbyte o (ho.resolve_right hout)

-- One pass and the rest of the loop.
theorem Wrote.pass {m e addr : ℕ} {r : ℕ × ℕ} {b : Block} (hoff : off % BSIZE + m ≤ BSIZE)
    (hend : tot + m = n ∨ (off + m) % BSIZE = 0) (hmaps : Maps i x (slotOf (off / BSIZE)) s addr t) (haddr : addr ≠ 0)
    (hb : ∀ k < BSIZE, b.bytes k = if off % BSIZE ≤ k ∧ k < off % BSIZE + m then src.bytes (tot + (k - off % BSIZE))
      else (t.data addr).bytes k)
    (h : Wrote x src n (tot + m) (off + m) { t with data := Function.update t.data addr b } r e u) :
    Wrote x src n tot off s r e u where
  count := ⟨by have := h.count; omega, h.count.2⟩
  stop := by
    have := h.count
    rw [h.stop]
    omega
  edge := by
    rcases h.edge with hall | hnone | hedge
    · exact .inl hall
    · refine hend.imp hnone.trans fun hedge => .inr ?_
      rw [h.stop, hnone, Nat.sub_self]
      exact hedge
    · exact .inr (.inr hedge)
  read := h.read
  short hlt := by
    refine (h.short hlt).imp_left fun hfull => ⟨hfull.1, hfull.2.1, ?_⟩
    by_contra hmapped
    exact (hmaps.byte_store src tot hoff haddr hb _ (.inl hmapped)).1 hfull.2.2
  last := h.last
  le := h.le
  byte o ho := by
    have hstop : off + m ≤ r.2 := h.stop ▸ Nat.le_add_right _ _
    have hle := h.le
    by_cases hlate : off + m ≤ o ∧ o < r.2
    · rw [h.byte o (.inr hlate), if_pos (by omega), if_pos (by omega)]
      congr 1
      omega
    · obtain ⟨hnz, hbyte⟩ := hmaps.byte_store src tot hoff haddr hb o (ho.imp_right fun hin => by omega)
      rw [h.byte o (.inl hnz)]
      by_cases hin : off + m ≤ o ∧ o < e
      · rw [if_pos hin, if_pos (by omega)]
        congr 1
        omega
      · rw [if_neg hin]
        exact hbyte.trans (if_congr (by omega) rfl rfl)

theorem writeLoop_bytes (hs : s.Ok) (hi : s.Held i x) (fuel tot off : ℕ) (hread : src.Readable tot)
    (htot : tot ≤ n) (hfuel : n - tot ≤ fuel) (hmax : off + (n - tot) ≤ MAXFILE * BSIZE) :
    wp (writeLoop i src n fuel tot off) (fun r t => ∃ e, Wrote x src n tot off s r e t) (fun _ => False) s := by
  induction fuel generalizing s tot off with
  | zero => exact ⟨_, .done htot hread (fun hlt => absurd hlt (by omega)) fun _ _ => rfl⟩
  | succ fuel ih =>
      unfold writeLoop
      simp only [wp_ite, wp_pure, wp_bind]
      split
      · rename_i hn
        exact ⟨_, .done htot hread (fun hlt => absurd hlt (by omega)) fun _ _ => rfl⟩
      · refine wp_mono (wp_and (bmap_spec hs hi _) (bmap_full hs hi _)) ?_ fun e he => ?_
        · rintro addr t ⟨hmaps, hfull⟩
          split
          · rename_i hzero
            refine ⟨_, .done htot hread (fun _ => ⟨hfull hzero, ?_⟩) fun _ ho => hmaps.byte ho⟩
            by_contra hmapped
            exact (hmaps.same hmapped).1 hzero
          · rename_i hn hnz
            have hlt := Nat.mod_lt off (show 0 < BSIZE by decide)
            set m := min (n - tot) (BSIZE - off % BSIZE) with hm
            simp only [wp_get, wp_modify, Source.copyin_eq, decide_eq_true_eq]
            split
            · rename_i hall
              rw [hall]
              have hw := Grown.write hmaps.grown.ok (hmaps.grown.held hi) hnz (hmaps.block hnz)
                fun k => if off % BSIZE ≤ k ∧ k < off % BSIZE + m then src.bytes (tot + (k - off % BSIZE))
                  else t.data addr k
              refine wp_post (ih hw.ok (hw.held (hmaps.grown.held hi)) (tot + m) (off + m) (hread.avail hall) (by omega)
                (by omega) (by omega)) fun r u hpost => ?_
              obtain ⟨e, hwrote⟩ := hpost
              have hend : tot + m = n ∨ (off + m) % BSIZE = 0 := by
                simp only [BSIZE] at hm ⊢
                omega
              refine ⟨e, .pass (by omega) hend hmaps hnz (fun k hk => ?_) hwrote⟩
              simp only [Block.bytes, dif_pos hk]
            · rename_i hcut
              obtain ⟨limit, hlimit, havail, hshort⟩ := Source.avail_lt hcut
              rw [havail]
              have hstore := hmaps.byte_store src tot (c := limit - tot) (b := fun k =>
                if off % BSIZE ≤ k ∧ k < off % BSIZE + (limit - tot) then src.bytes (tot + (k - off % BSIZE))
                else t.data addr k) (by omega) hnz fun k hk => by simp only [Block.bytes, dif_pos hk]
              refine ⟨off + (limit - tot), ⟨le_rfl, htot⟩, by simp, .inr (.inl rfl), hread,
                fun _ => .inr ⟨limit, hlimit, by omega, rfl, by simp only; omega⟩,
                fun hall => by simp only at hall; omega, Nat.le_add_right _ _, fun o ho => ?_⟩
              refine (hstore o (ho.imp_right fun hin => ?_)).2
              simp only at hin
              omega
        · have hbn : off / BSIZE < MAXFILE := by
            rw [Nat.div_lt_iff_lt_mul (by decide)]
            omega
          have := he.1.2
          omega

theorem length_contents (s : Fs) (x : ℕ) : (s.contents x).length = (s.view x).size := by simp [contents]

theorem getElem_contents (h : o < (s.contents x).length) : (s.contents x)[o] = s.vol.byte x o := by
  simp [contents]

theorem contents_congr (hsize : (t.view y).size = (s.view y).size)
    (hbyte : ∀ o < (s.view y).size, t.vol.byte y o = s.vol.byte y o) : t.contents y = s.contents y := by
  rw [contents, hsize]
  exact List.map_congr_left fun o ho => hbyte o (List.mem_range.mp ho)

theorem block_of_lt (hs : s.Ok) (ho : o < (s.view x).size) : s.vol.block x (slotOf (o / BSIZE)) ≠ 0 :=
  hs.filled.block x _ (lt_of_le_of_lt (Nat.div_mul_le_self _ _) ho)

theorem Writes.contents_other (h : Writes i x s t) (hs : s.Ok) (hy : y ≠ x) : t.contents y = s.contents y :=
  contents_congr (congrArg Dinode.size (h.grows.other y hy)) fun _ ho => byte_other h.grows hs.own hs.filled hy ho

def Refused (size off n : ℕ) : Prop := size < off ∨ 2 ^ 32 ≤ off + n ∨ MAXFILE * BSIZE < off + n

def splice (old : List UInt8) (src : ℕ → UInt8) (off tot : ℕ) : List UInt8 :=
  old.take off ++ (List.range tot).map src ++ old.drop (off + tot)

-- The first tot of n bytes have been written to inode x at off, and the bytes up to e stored.
structure Stored (i : Ip) (x : ℕ) (src : Source) (off n : ℕ) (s : Fs) (tot e : ℕ) (t : Fs) : Prop
    extends Writes i x s t where
  le : tot ≤ n
  edge : tot = n ∨ tot = 0 ∨ (off + tot) % BSIZE = 0
  start : off ≤ (s.view x).size
  size : (t.view x).size = max (s.view x).size (off + tot)
  read : src.Readable tot
  short : tot < n → t.Full ∧ e = off + tot ∧ (s.view x).size ≤ off + tot ∨
    ∃ limit ∈ src.limit, limit < n ∧ e = off + limit ∧ limit - tot < BSIZE - (off + tot) % BSIZE
  last : tot = n → e = off + tot
  stop : off + tot ≤ e
  byte : ∀ o < (t.view x).size,
    t.vol.byte x o = if off ≤ o ∧ o < e then src.bytes (o - off) else s.vol.byte x o

theorem splice_contents (f : ℕ → UInt8) (tot : ℕ) (hstart : off ≤ (s.view x).size) :
    splice (s.contents x) f off tot = (List.range (max (s.view x).size (off + tot))).map fun o =>
      if off ≤ o ∧ o < off + tot then f (o - off) else s.vol.byte x o := by
  have hlen := length_contents s x
  apply List.ext_getElem
  · rw [splice]
    simp only [List.length_append, List.length_take, List.length_map, List.length_range, List.length_drop, hlen]
    omega
  · intro o ho ho'
    rw [List.getElem_map, List.getElem_range]
    simp only [splice, List.getElem_append, List.length_append, List.length_take, List.length_map, List.length_range]
    by_cases hlow : o < off
    · rw [if_neg (by omega), dif_pos (by omega), dif_pos (by omega), List.getElem_take, getElem_contents]
    · by_cases hin : o < off + tot
      · rw [if_pos (by omega), dif_pos (by omega), dif_neg (by omega), List.getElem_map, List.getElem_range]
        congr 1
        omega
      · rw [if_neg (by omega), dif_neg (by omega), List.getElem_drop, getElem_contents]
        congr 1
        omega

-- The file is the splice just if the bytes that were stored after it cannot be seen.
theorem Stored.contents_iff {e : ℕ} (h : Stored i x src off n s tot e t) :
    t.contents x = splice (s.contents x) src.bytes off tot ↔
      ∀ o, off + tot ≤ o → o < e → o < (s.view x).size → src.bytes (o - off) = s.vol.byte x o := by
  have hsize := h.size
  have hstop := h.stop
  rw [splice_contents _ _ h.start, contents, hsize, List.map_inj_left]
  constructor
  · intro hall o hlo hhi hlt
    have hsame := hall o (List.mem_range.mpr (by omega))
    rwa [h.byte o (by omega), if_pos (by omega), if_neg (by omega)] at hsame
  · intro hall o ho
    rw [List.mem_range] at ho
    rw [h.byte o (by omega)]
    by_cases hin : off ≤ o ∧ o < off + tot
    · rw [if_pos hin, if_pos (by omega)]
    · rw [if_neg hin]
      split
      · exact hall o (by omega) (by omega) (by omega)
      · rfl

theorem writei_stored (hs : s.Ok) (hi : s.Held i x) (hn : n < 2 ^ 32) : wp (writei i src off n) (fun r t =>
      (Refused (s.view x).size off n → r = -1 ∧ t = s) ∧
      (¬Refused (s.view x).size off n → ∃ (tot : ℕ) (e : ℕ), r = tot ∧ Stored i x src off n s tot e t))
      (fun _ => False) s := by
  obtain ⟨hsize, hfill⟩ := filledTo_size hs hi
  have hmax : MAXFILE * BSIZE < 2 ^ 31 := by decide
  have hview : s.view x = (s.itable i).copy := hs.table.view_eq hi
  unfold writei Refused
  rw [hview]
  simp only [wp_bind, wp_get, wp_ite, wp_pure]
  split
  · rename_i hout
    exact ⟨fun _ => ⟨trivial, trivial⟩, fun h => absurd h (by omega)⟩
  · rename_i hin
    split
    · rename_i hlong
      exact ⟨fun _ => ⟨trivial, trivial⟩, fun h => absurd h (by omega)⟩
    · rename_i hshort
      refine wp_mono (wp_and (writeLoop_spec hs hi src n n 0 off (by omega) fun bn hbn => hfill bn (by omega))
        (writeLoop_bytes hs hi n 0 off (fun _ _ => Nat.zero_le _) (by omega) (by omega) (by omega))) ?_ fun _ h => h.1
      rintro ⟨tot, stop⟩ t ⟨⟨hg, hle, hfilled⟩, e, hwrote⟩
      simp only [wp_modify]
      refine wp_post (writei_end hs hi hg hle hfilled) ?_
      rintro _ u ⟨hwrites, hvol⟩
      have hstop : stop = off + tot := by simpa using hwrote.stop
      subst hstop
      have hsize' : (u.view x).size = max (s.view x).size (off + tot) := by
        have hold : (t.vol.view x).size = (s.view x).size := by
          rw [hview, ← hg.size]
          exact congrArg Dinode.size (hg.ok.table.view_eq (hg.held hi))
        rw [← hold]
        change (u.vol.view x).size = _
        rw [hvol, Vol.view_setView]
        rfl
      refine ⟨fun h => absurd h (by omega), fun _ => ⟨tot, e, rfl, hwrites, hwrote.count.2, hwrote.edge,
        by rw [hview]; omega, hsize', hwrote.read, fun hlt => ?_, hwrote.last, hwrote.le, fun o ho => ?_⟩⟩
      · rcases hwrote.short hlt with ⟨hfull, he, hnone⟩ | ⟨limit, hlimit, hlt', he, hcut⟩
        · refine .inl ⟨fun b hb => ?_, he, not_lt.mp fun hlt' => block_of_lt hs hlt' hnone⟩
          rw [hwrites.edit.sb, ← hg.edit.sb] at hb
          rw [show u.bitmap = t.bitmap from congrArg Vol.bitmap hvol]
          exact hfull b hb
        · refine .inr ⟨limit, hlimit, hlt', ?_, hcut⟩
          have := hwrote.read limit hlimit
          dsimp only at he this
          omega
      · rw [hvol, Vol.byte_setView t.vol (by rfl), hwrote.byte, Nat.zero_add]
        by_cases hlt : o < (s.view x).size
        · exact .inl (block_of_lt hs hlt)
        · -- A write starts inside the file or at its end.
          rw [hview] at hsize' hlt
          exact .inr ⟨by omega, by omega⟩

-- A write of which all can be read.
structure Spliced (i : Ip) (x : ℕ) (src : Source) (off n : ℕ) (s : Fs) (tot : ℕ) (t : Fs) : Prop
    extends Stored i x src off n s tot (off + tot) t where
  full : tot < n → t.Full

theorem Spliced.contents (h : Spliced i x src off n s tot t) :
    t.contents x = splice (s.contents x) src.bytes off tot :=
  h.contents_iff.mpr fun _ hlo hhi => absurd hlo (by omega)

theorem writei_bytes (hs : s.Ok) (hi : s.Held i x) (hn : n < 2 ^ 32)
    (hsrc : src.Readable n) : wp (writei i src off n) (fun r t =>
      (Refused (s.view x).size off n → r = -1 ∧ t = s) ∧
      (¬Refused (s.view x).size off n → ∃ tot : ℕ, r = tot ∧ Spliced i x src off n s tot t)) (fun _ => False) s := by
  refine wp_post (writei_stored hs hi hn) fun r t h => ⟨h.1, fun htaken => ?_⟩
  obtain ⟨tot, e, hr, hstored⟩ := h.2 htaken
  have hcases : e = off + tot ∧ (tot < n → t.Full) := by
    rcases hstored.le.lt_or_eq with hlt | heq
    · rcases hstored.short hlt with ⟨hfull, he, -⟩ | ⟨limit, hlimit, hshort, -⟩
      · exact ⟨he, fun _ => hfull⟩
      · exact absurd (hsrc limit hlimit) (by omega)
    · exact ⟨hstored.last heq, fun hlt => by omega⟩
  obtain ⟨rfl, hfull⟩ := hcases
  exact ⟨tot, hr, hstored, hfull⟩

-- A read that starts beyond the end reads nothing; any other stops at the end.
theorem readi_reads (hs : s.Ok) (hi : s.Held i x) (dst : ℕ → UInt8) (hn : n < 2 ^ 32) :
    wp (readi i (fun _ _ => true) dst off n) (fun r t => t = s ∧
      if (s.contents x).length < off ∨ (off + n) % 2 ^ 32 < off then r.1 = 0
      else r.1 = min n ((s.contents x).length - off) ∧
        ∀ k, r.2 k = if k < min n ((s.contents x).length - off) then (s.contents x).getD (off + k) 0 else dst k)
      (fun _ => False) s := by
  have hlen : (s.contents x).length = (s.itable i).copy.size := by rw [length_contents, hs.table.view_eq hi]
  by_cases hout : (s.contents x).length < off ∨ (off + n) % 2 ^ 32 < off
  · simp only [if_pos hout]
    rw [hlen] at hout
    unfold readi readiTo
    simp only [wp_bind, wp_get, wp_ite, wp_pure, gt_iff_lt, if_pos hout]
    exact ⟨trivial, trivial⟩
  · simp only [if_neg hout]
    refine wp_post (readi_spec hs hi (fun _ _ => true) dst off hn) ?_
    rintro ⟨r, buf⟩ t ⟨ht, hread⟩
    obtain ⟨hr, hbuf⟩ := hread (fun _ _ => rfl) (by omega) (by omega)
    refine ⟨ht, hr.trans (by omega), fun k => ?_⟩
    rw [hbuf k, hlen]
    refine ite_congr rfl (fun hk => ?_) fun _ => rfl
    have hk' : off + k < (s.contents x).length := by omega
    rw [List.getD_eq_getElem?_getD, List.getElem?_eq_getElem hk', Option.getD_some, getElem_contents]

theorem readi_bytes (hs : s.Ok) (hi : s.Held i x) (dst : ℕ → UInt8) (hoff : off < 2 ^ 32)
    (hn : n < 2 ^ 32) : wp (readi i (fun _ _ => true) dst off n) (fun r t => t = s ∧ ∃ m : ℕ, r.1 = m ∧
      (List.range m).map r.2 = ((s.contents x).take ((off + n) % 2 ^ 32)).drop off) (fun _ => False) s := by
  refine wp_post (readi_reads hs hi dst hn) fun r t h => ⟨h.1, ?_⟩
  have hread := h.2
  split at hread
  · refine ⟨0, hread, (List.drop_eq_nil_of_le ?_).symm⟩
    rw [List.length_take]
    omega
  · refine ⟨min n ((s.contents x).length - off), hread.1.trans (by omega), ?_⟩
    apply List.ext_getElem
    · simp only [List.length_map, List.length_range, List.length_drop, List.length_take]
      omega
    · intro k hk _
      rw [List.length_map, List.length_range] at hk
      have hk' : off + k < (s.contents x).length := by omega
      rw [List.getElem_map, List.getElem_range, List.getElem_drop, List.getElem_take, hread.2 k, if_pos hk,
        List.getD_eq_getElem?_getD, List.getElem?_eq_getElem hk', Option.getD_some]

theorem readi_whole (hs : s.Ok) (hi : s.Held i x) (dst : ℕ → UInt8) (hn : n < 2 ^ 32) :
    wp (readi i (fun _ _ => true) dst off n) (fun r t => t = s ∧ (r.1 = n → 0 < n →
      off + n ≤ (s.contents x).length ∧ ∀ k, r.2 k = if k < n then (s.contents x).getD (off + k) 0 else dst k))
      (fun _ => False) s := by
  refine wp_post (readi_reads hs hi dst hn) fun r t h => ⟨h.1, fun hall hpos => ?_⟩
  have hread := h.2
  split at hread
  · omega
  · have hle : off + n ≤ (s.contents x).length := by omega
    rw [Nat.min_eq_left (by omega)] at hread
    exact ⟨hle, hread.2⟩

end Fs

end Xv6
