import Xv6.Fs.Inode

namespace Xv6

open Wp
open Function (update update_of_ne update_self)

namespace Fs

variable {s t u : Fs} {i : Ip} {x : ℕ}

theorem balloc_spec (s : Fs) :
    wp balloc (fun b t => b = 0 ∧ t = s ∨ s.bitmap b = false ∧ b < s.sb.size ∧
      t = { s with
        bitmap := update s.bitmap b true
        data := update s.data b fun _ => 0 }) (fun _ => False) s := by
  unfold balloc
  simp only [wp_bind, wp_get]
  split
  · rename_i b hb
    have hfree := List.find?_some hb
    have hmem := List.mem_of_find?_eq_some hb
    simp only [Bool.not_eq_true'] at hfree
    rw [List.mem_range] at hmem
    simp only [wp_bind, wp_set, wp_pure]
    exact .inr ⟨hfree, hmem, trivial⟩
  · simp only [wp_pure]
    exact .inl ⟨trivial, trivial⟩

structure Grown (i : Ip) (x : ℕ) (s t : Fs) : Prop where
  edit : Edit i x s t
  ok : t.Ok
  grows : Grows x s.vol t.vol
  size : (t.itable i).copy.size = (s.itable i).copy.size

namespace Grown

theorem refl (hs : s.Ok) (i : Ip) (x : ℕ) : Grown i x s s := ⟨.refl i x s, hs, .refl x _, rfl⟩

theorem trans (h : Grown i x s t) (h' : Grown i x t u) : Grown i x s u :=
  ⟨h.edit.trans h'.edit, h'.ok, h.grows.trans h'.grows, h'.size.trans h.size⟩

theorem held (h : Grown i x s t) (hi : s.Held i x) : t.Held i x := h.edit.held.mpr hi

-- What remains to be shown when entry i, the bitmap and the data change.
theorem of_vol (hs : s.Ok) (hi : s.Held i x) (hedit : Edit i x s t)
    (hsize : (t.itable i).copy.size = (s.itable i).copy.size)
    (htype : (t.itable i).copy.type ≠ .free) (hown : Own s.sb t.vol) (hgrows : Grows x s.vol t.vol) :
    Grown i x s t := by
  have ht := hedit.table hs.table htype
  refine ⟨hedit, ⟨ht, ?_, hgrows.filled hs.own hs.filled ?_⟩, hgrows, hsize⟩
  · rw [hedit.sb]
    exact hown
  · change (t.view x).size = (s.view x).size
    rw [ht.view_eq (hedit.held.mpr hi), hs.table.view_eq hi, hsize]

end Grown

structure Maps (i : Ip) (x slot : ℕ) (s : Fs) (addr : ℕ) (t : Fs) : Prop where
  grown : Grown i x s t
  block : addr ≠ 0 → t.vol.block x slot = addr
  same : s.vol.block x slot ≠ 0 → addr ≠ 0 ∧ t = s
  data : ∀ r, r ≠ NDIRECT → s.vol.block x r ≠ 0 → t.data (s.vol.block x r) = s.data (s.vol.block x r)

theorem Maps.of_mapped (hs : s.Ok) (i : Ip) {slot : ℕ} (h : s.vol.block x slot ≠ 0) :
    Maps i x slot s (s.vol.block x slot) s :=
  ⟨.refl hs i x, fun _ => rfl, fun _ => ⟨h, rfl⟩, fun _ _ _ => rfl⟩

theorem Maps.of_full (hs : s.Ok) (i : Ip) {slot : ℕ} (h : s.vol.block x slot = 0) : Maps i x slot s 0 s :=
  ⟨.refl hs i x, fun h => absurd rfl h, fun h' => absurd h h', fun _ _ _ => rfl⟩

theorem bmapAddr_spec (hs : s.Ok) (hi : s.Held i x) {j : ℕ} (hj : j ≤ NDIRECT) :
    wp (bmapAddr i j) (Maps i x j s) (fun _ => False) s := by
  have hview : s.view x = (s.itable i).copy := hs.table.view_eq hi
  have hblock : s.vol.block x j = (s.itable i).copy.addrs j := by
    rw [Vol.block, Dinode.block_direct _ _ hj]
    exact congrArg (fun d => d.addrs j) hview
  unfold bmapAddr
  simp only [wp_bind, wp_get, wp_ite, wp_pure, ← hblock]
  split
  · rename_i hnz
    exact .of_mapped hs i hnz
  · rename_i hz
    rw [not_not] at hz
    refine wp_post (balloc_spec s) ?_
    rintro b t (⟨rfl, rfl⟩ | ⟨hb, hsize, rfl⟩)
    · simp only [if_true]
      exact .of_full hs i hz
    · rw [if_neg (hs.own.fresh_pos hb)]
      simp only [wp_modify]
      have hzero : (s.view x).addrs j = 0 := by rw [hview, ← hblock, hz]
      have htype : (s.view x).type ≠ .free := by
        rw [hview]
        exact hs.table.typed i hi.ref hi.valid
      set t := Fs.setCopy { s with
        bitmap := update s.bitmap b true
        data := update s.data b fun _ => 0 } i fun d => d.setAddr j b with ht
      have hcopy : (t.itable i).copy = (s.view x).setAddr j b := by
        rw [ht, itable_setCopy, hview]
      have hedit : Edit i x s t := by
        refine ⟨rfl, rfl, fun k hk => itable_setCopy_of_ne _ _ hk, ?_, fun _ _ => rfl⟩
        rw [ht, itable_setCopy]
      have htype' : (t.itable i).copy.type ≠ .free := by
        rw [hcopy]
        exact htype
      have hvol : t.vol = (s.vol.take b).setView x ((s.view x).setAddr j b) := by
        rw [hedit.vol hs.table hi htype', hcopy]
        rfl
      refine ⟨.of_vol hs hi hedit ?_ htype' ?_ ?_, fun _ => ?_, fun h => absurd hz h, fun r _ hr => ?_⟩
      · rw [hcopy, ← hview]
        rfl
      · rw [hvol]
        exact hs.own.alloc_addr hb hsize hj hzero htype
      · rw [hvol]
        exact .alloc_addr hs.own hb hj hzero
      · rw [hvol]
        exact (hs.own.block_alloc_addr hb hj hzero x j).trans (if_pos ⟨rfl, rfl⟩)
      · exact update_of_ne (hs.own.block_ne_fresh hb hr) _ _

theorem bmapIndirect_spec (hs : s.Ok) (hi : s.Held i x) {k : ℕ} (hk : k < NINDIRECT)
    (hind : (s.view x).addrs NDIRECT ≠ 0) :
    wp (bmapIndirect ((s.view x).addrs NDIRECT) k) (Maps i x (NDIRECT + 1 + k) s) (fun _ => False) s := by
  have hblock : s.vol.block x (NDIRECT + 1 + k) = (s.data ((s.view x).addrs NDIRECT)).word k :=
    Dinode.block_indirect _ _ _ hind
  have hview : s.view x = (s.itable i).copy := hs.table.view_eq hi
  unfold bmapIndirect
  simp only [wp_bind, wp_get, wp_ite, wp_pure, ← hblock]
  split
  · rename_i hnz
    exact .of_mapped hs i hnz
  · rename_i hz
    rw [not_not] at hz
    refine wp_post (balloc_spec s) ?_
    rintro b t (⟨rfl, rfl⟩ | ⟨hb, hsize, rfl⟩)
    · simp only [if_true]
      exact .of_full hs i hz
    · rw [if_neg (hs.own.fresh_pos hb)]
      simp only [wp_modify]
      have hzero := hblock.symm.trans hz
      have hne : (s.view x).addrs NDIRECT ≠ b := by
        have := hs.own.block_ne_fresh hb (x := x) (r := NDIRECT) (by rwa [hs.own.block_indirect])
        rwa [hs.own.block_indirect] at this
      have hdata : update s.data b (fun _ => 0) ((s.view x).addrs NDIRECT) =
          s.data ((s.view x).addrs NDIRECT) := update_of_ne hne _ _
      rw [hdata]
      have hedit : Edit i x s { s with
          bitmap := update s.bitmap b true
          data := update (update s.data b fun _ => 0) ((s.view x).addrs NDIRECT)
            ((s.data ((s.view x).addrs NDIRECT)).setWord k b) } :=
        ⟨rfl, rfl, fun _ _ => rfl, rfl, fun _ _ => rfl⟩
      refine ⟨.of_vol hs hi hedit rfl (hs.table.typed i hi.ref hi.valid)
        (hs.own.alloc_word hb hsize hk hind hzero) (.alloc_word hs.own hb hsize hk hind hzero),
        fun _ => ?_, fun h => absurd hz h, fun r hr hnz => ?_⟩
      · exact (hs.own.block_alloc_word hb hsize hk hind x _).trans (if_pos ⟨rfl, rfl⟩)
      · have hri : s.vol.block x r ≠ (s.view x).addrs NDIRECT := fun heq =>
          hr (hs.own.eq_of_block hnz (hs.own.block_indirect.trans heq.symm)).2
        exact (update_of_ne hri _ _).trans
          (update_of_ne (hs.own.block_ne_fresh hb hnz) _ _)

theorem bmap_spec (hs : s.Ok) (hi : s.Held i x) (bn : ℕ) :
    wp (bmap i bn) (Maps i x (slotOf bn) s) (fun e => e = .panic .bmap ∧ MAXFILE ≤ bn) s := by
  unfold bmap slotOf
  simp only [wp_ite, wp_bind, wp_throw, wp_pure]
  split
  · rename_i hbn
    exact wp_mono (bmapAddr_spec hs hi (by omega)) (fun _ _ h => h) fun _ h => h.elim
  · rename_i hbn
    split
    · rename_i hk
      refine wp_mono (bmapAddr_spec hs hi le_rfl) ?_ fun _ h => h.elim
      rintro ind t ⟨hg, hblock, hsame, hdata⟩
      have hslot : bn + 1 = NDIRECT + 1 + (bn - NDIRECT) := by omega
      rw [hslot]
      -- A block in the indirect block needs the indirect block.
      have hind : s.vol.block x (NDIRECT + 1 + (bn - NDIRECT)) ≠ 0 → s.vol.block x NDIRECT ≠ 0 := by
        intro hnz hz
        refine hnz ?_
        rw [Vol.block, Dinode.block, if_neg (by omega), if_pos]
        rw [← hs.own.block_indirect]
        exact hz
      split
      · rename_i hzero
        exact ⟨hg, fun h => absurd rfl h, fun h => absurd hzero (hsame (hind h)).1, hdata⟩
      · rename_i hnz
        have hview := hblock hnz
        rw [hg.ok.own.block_indirect] at hview
        have hspec := bmapIndirect_spec hg.ok (hg.held hi) hk (hview ▸ hnz)
        rw [show (t.view x).addrs NDIRECT = ind from hview] at hspec
        refine wp_mono hspec ?_ fun _ h => h.elim
        rintro addr u ⟨hg', hblock', hsame', hdata'⟩
        refine ⟨hg.trans hg', hblock', fun h => ?_, fun r hr hnz => ?_⟩
        · obtain ⟨-, rfl⟩ := hsame (hind h)
          exact hsame' h
        · have hblock := hg.grows.block r hnz
          rw [← hdata r hr hnz, ← hblock]
          exact hdata' r hr (hblock ▸ hnz)
    · exact ⟨trivial, by simp only [MAXFILE]; omega⟩

end Fs

def Vol.byte (v : Vol) (x o : ℕ) : UInt8 := (v.data (v.block x (slotOf (o / BSIZE)))).bytes (o % BSIZE)

namespace Fs

variable {s t u : Fs} {i : Ip} {x : ℕ}

theorem bmap_mapped (hs : s.Table) (hi : s.Held i x) {bn : ℕ} (hmax : bn < MAXFILE)
    (hb : s.vol.block x (slotOf bn) ≠ 0) :
    wp (bmap i bn) (fun addr t => addr ≠ 0 ∧ addr = s.vol.block x (slotOf bn) ∧ t = s) (fun _ => False) s := by
  have hview : s.vol.view x = (s.itable i).copy := hs.view_eq hi
  have hlook : ∀ j ≤ NDIRECT, (s.itable i).copy.addrs j = s.vol.block x j := fun j hj => by
    rw [Vol.block, Dinode.block_direct _ _ hj, hview]
  unfold bmap bmapAddr bmapIndirect slotOf at *
  simp only [wp_ite, wp_bind, wp_get, wp_pure, wp_throw]
  split
  · rename_i hbn
    rw [if_pos hbn] at hb
    rw [hlook bn hbn.le, if_pos hb]
    exact ⟨hb, rfl, trivial⟩
  · rename_i hbn
    rw [if_neg hbn] at hb
    have hk : bn - NDIRECT < NINDIRECT := by
      simp only [MAXFILE] at hmax
      omega
    have hind : (s.vol.view x).addrs NDIRECT ≠ 0 := fun hz => hb (by
      rw [Vol.block, Dinode.block, if_neg (by omega), if_pos hz])
    rw [show bn + 1 = NDIRECT + 1 + (bn - NDIRECT) by omega, Vol.block, Dinode.block_indirect _ _ _ hind] at hb ⊢
    rw [hview] at hind
    rw [if_pos hk, if_pos hind, if_neg hind, ← hview]
    change (s.data _).word _ ≠ 0 at hb
    rw [if_pos hb]
    exact ⟨hb, rfl, trivial⟩

theorem bmap_below_size (hs : s.Ok) (hi : s.Held i x) {off : ℕ} (hoff : off < (s.itable i).copy.size) :
    wp (bmap i (off / BSIZE)) (fun addr t => addr ≠ 0 ∧ addr = s.vol.block x (slotOf (off / BSIZE)) ∧ t = s)
      (fun _ => False) s := by
  have hsize : off < (s.vol.view x).size := by
    change off < (s.view x).size
    rwa [hs.table.view_eq hi]
  have hmax : off / BSIZE < MAXFILE := by
    have := hs.filled.size x
    rw [Nat.div_lt_iff_lt_mul (by decide)]
    omega
  exact bmap_mapped hs.table hi hmax (hs.filled.block x _ (lt_of_le_of_lt (Nat.div_mul_le_self _ _) hsize))

-- A read changes nothing where the blocks are there.
theorem readLoop_mapped (hs : s.Table) (hi : s.Held i x) (copies : ℕ → ℕ → Bool) (n fuel tot off : ℕ)
    (dst : ℕ → UInt8) (htot : tot ≤ n) (hfuel : n - tot ≤ fuel) (hmax : off + (n - tot) ≤ MAXFILE * BSIZE)
    (hmap : ∀ bn, bn * BSIZE < off + (n - tot) → s.vol.block x (slotOf bn) ≠ 0) :
    wp (readLoop (bufCopyout copies) i n fuel tot off dst) (fun r t => t = s ∧
      ((∀ k m, copies k m = true) → r.1 = n ∧ ∀ k, r.2 k =
        if tot ≤ k ∧ k < n then s.vol.byte x (off + (k - tot)) else dst k)) (fun _ => False) s := by
  induction fuel generalizing tot off dst with
  | zero =>
      have : tot = n := by omega
      subst this
      simp only [readLoop, wp_pure]
      refine ⟨trivial, fun _ => ⟨trivial, fun k => ?_⟩⟩
      rw [if_neg (by omega)]
  | succ fuel ih =>
      unfold readLoop
      simp only [wp_ite, wp_pure, wp_bind]
      split
      · have : tot = n := by omega
        subst this
        refine ⟨trivial, fun _ => ⟨rfl, fun k => ?_⟩⟩
        rw [if_neg (by omega)]
      · have hdiv := Nat.div_mul_le_self off BSIZE
        have hbn : off / BSIZE < MAXFILE := by
          rw [Nat.div_lt_iff_lt_mul (by decide)]
          omega
        refine wp_mono (bmap_mapped hs hi hbn (hmap _ (by omega))) ?_ fun _ h => h
        rintro addr t ⟨hnz, rfl, rfl⟩
        simp only [if_neg hnz, wp_get, bufCopyout]
        by_cases hcopy : copies tot (min (n - tot) (BSIZE - off % BSIZE)) = true
        · simp only [if_pos hcopy]
          set m := min (n - tot) (BSIZE - off % BSIZE) with hm
          have hpos : 0 < m := by
            have := Nat.mod_lt off (show 0 < BSIZE by decide)
            omega
          refine wp_mono (ih (tot + m) (off + m) _ (by omega) (by omega) (by omega)
            fun bn hbn => hmap bn (by omega)) ?_ fun _ h => h
          rintro ⟨r, buf⟩ u ⟨rfl, hbuf⟩
          refine ⟨rfl, fun hall => ⟨(hbuf hall).1, fun k => ?_⟩⟩
          rw [(hbuf hall).2 k]
          by_cases hk : tot + m ≤ k ∧ k < n
          · rw [if_pos hk, if_pos (by omega), show off + m + (k - (tot + m)) = off + (k - tot) by omega]
          · rw [if_neg hk]
            by_cases hk' : tot ≤ k ∧ k < tot + m
            · -- The byte is in the block of this pass.
              have hdiv : (off + (k - tot)) / BSIZE = off / BSIZE ∧
                  (off + (k - tot)) % BSIZE = off % BSIZE + (k - tot) := by
                simp only [BSIZE] at hm ⊢
                omega
              rw [if_pos hk', if_pos (by omega), Vol.byte, hdiv.1, hdiv.2]
              rfl
            · rw [if_neg hk', if_neg (by omega)]
        · simp only [if_neg hcopy, Bool.false_eq_true, if_false]
          exact ⟨trivial, fun hall => absurd (hall _ _) hcopy⟩

-- Reading changes nothing, since files have no holes.
theorem readi_spec (hs : s.Ok) (hi : s.Held i x) (copies : ℕ → ℕ → Bool) (dst : ℕ → UInt8) (off : ℕ)
    {n : ℕ} (hn : n < 2 ^ 32) :
    wp (readi i copies dst off n) (fun r t => t = s ∧ ((∀ k m, copies k m = true) →
      off ≤ (s.itable i).copy.size → off + n < 2 ^ 32 → r.1 = min n ((s.itable i).copy.size - off) ∧
        ∀ k, r.2 k = if k < min n ((s.itable i).copy.size - off) then s.vol.byte x (off + k) else dst k))
      (fun _ => False) s := by
  have hview : s.vol.view x = (s.itable i).copy := hs.table.view_eq hi
  have hmax := hview ▸ hs.filled.size x
  have hsize : (s.itable i).copy.size < 2 ^ 31 := by
    simp only [MAXFILE, NDIRECT, NINDIRECT, BSIZE] at hmax
    omega
  unfold readi readiTo
  simp only [wp_bind, wp_get, wp_ite, wp_pure]
  split
  · rename_i hout
    refine ⟨trivial, fun _ hoff hlt => ?_⟩
    omega
  · rename_i hin
    have hlen : (if (off + n) % 2 ^ 32 > (s.itable i).copy.size then (s.itable i).copy.size - off else n) =
        min n ((s.itable i).copy.size - off) := by
      split <;> omega
    rw [hlen]
    refine wp_mono (readLoop_mapped hs.table hi copies _ _ 0 off dst (by omega) (by omega) (by omega) fun bn hbn => ?_)
      ?_ fun _ h => h
    · refine hs.filled.block x bn ?_
      rw [hview]
      omega
    rintro ⟨r, buf⟩ t ⟨rfl, hbuf⟩
    refine ⟨rfl, fun hall _ _ => ⟨(hbuf hall).1, fun k => ?_⟩⟩
    rw [(hbuf hall).2 k, Nat.sub_zero]
    exact if_congr (and_iff_right (Nat.zero_le k)) rfl rfl

theorem slotOf_ne (bn : ℕ) : slotOf bn ≠ NDIRECT := by
  unfold slotOf
  split <;> omega

theorem Grown.write (hs : s.Ok) (hi : s.Held i x) {bn addr : ℕ} (haddr : addr ≠ 0)
    (hblock : s.vol.block x (slotOf bn) = addr) (b : Block) :
    Grown i x s { s with data := update s.data addr b } := by
  subst hblock
  exact .of_vol hs hi ⟨rfl, rfl, fun _ _ => rfl, rfl, fun _ _ => rfl⟩ rfl
    (hs.table.typed i hi.ref hi.valid) (hs.own.write haddr (slotOf_ne bn) b)
    (.write hs.own haddr (slotOf_ne bn) b)

def FilledTo (s : Fs) (x off : ℕ) : Prop := ∀ bn, bn * BSIZE < off → s.vol.block x (slotOf bn) ≠ 0

theorem FilledTo.grows {off : ℕ} (h : s.FilledTo x off) (hg : Grown i x s t) : t.FilledTo x off := by
  intro bn hbn
  rw [hg.grows.block _ (h bn hbn)]
  exact h bn hbn

theorem writeLoop_spec (hs : s.Ok) (hi : s.Held i x) (src : Source) (n fuel tot off : ℕ)
    (hoff : off + (n - tot) ≤ MAXFILE * BSIZE) (hfill : s.FilledTo x off) :
    wp (writeLoop i src n fuel tot off) (fun r t => Grown i x s t ∧ r.2 ≤ MAXFILE * BSIZE ∧
      t.FilledTo x r.2) (fun _ => False) s := by
  induction fuel generalizing s tot off with
  | zero => exact ⟨.refl hs i x, by omega, hfill⟩
  | succ fuel ih =>
      unfold writeLoop
      simp only [wp_ite, wp_pure, wp_bind]
      split
      · exact ⟨.refl hs i x, by omega, hfill⟩
      · refine wp_mono (bmap_spec hs hi (off / BSIZE)) ?_ fun e he => ?_
        · rintro addr t ⟨hg, hblock, -, -⟩
          split
          · exact ⟨hg, by omega, hfill.grows hg⟩
          · rename_i hnz
            simp only [wp_get, wp_modify]
            set m := min (n - tot) (BSIZE - off % BSIZE) with hm
            set b := src.copyin (t.data addr) tot (off % BSIZE) m with hb
            have hw := Grown.write hg.ok (hg.held hi) hnz (hblock hnz) b.1
            have hfill' := (hfill.grows hg).grows hw
            split
            · have hnext : FilledTo { t with data := update t.data addr b.1 } x (off + m) := by
                intro bn hbn
                by_cases hlt : bn * BSIZE < off
                · exact hfill' bn hlt
                · have hbn' : bn = off / BSIZE := by
                    simp only [BSIZE] at hm hbn hlt ⊢
                    omega
                  rw [hbn', hw.grows.block _ (by rw [hblock hnz]; exact hnz), hblock hnz]
                  exact hnz
              refine wp_mono (ih hw.ok (hw.held (hg.held hi)) (tot + m) (off + m) (by omega) hnext) ?_
                fun _ h => h
              rintro r u ⟨hg', hmax, hfilled⟩
              exact ⟨hg.trans (hw.trans hg'), hmax, hfilled⟩
            · exact ⟨hg.trans hw, by omega, hfill'⟩
        · have hbn : off / BSIZE < MAXFILE := by
            rw [Nat.div_lt_iff_lt_mul (by decide)]
            omega
          have := he.2
          omega

structure Saves (i : Ip) (x : ℕ) (d : Dinode) (s t : Fs) : Prop where
  edit : Edit i x s t
  ok : t.Ok
  vol : t.vol = s.vol.setView x d
  back : (t.itable i).copy = t.dinode x

theorem save_spec (hs : s.Table) (ho : Own s.sb s.vol) (hi : s.Held i x) {f : Dinode → Dinode}
    {d : Dinode} (hf : f (s.itable i).copy = d) (haddrs : d.addrs = (s.itable i).copy.addrs)
    (htype : d.type ≠ .free) (hfilled : Filled (s.vol.setView x d)) :
    wp (iupdate i) (fun _ t => Saves i x d s t) (fun _ => False) (s.setCopy i f) := by
  unfold iupdate
  simp only [wp_modify, itable_setCopy, hf, hi.inum]
  set t : Fs := { s.setCopy i f with dinode := update (s.setCopy i f).dinode x d } with ht
  have hself : t.itable i = { s.itable i with copy := d } := by
    rw [← hf]
    exact itable_setCopy s i f
  have hedit : Edit i x s t := by
    refine ⟨rfl, rfl, fun k hk => itable_setCopy_of_ne _ _ hk, ?_, fun y hy => update_of_ne hy _ _⟩
    rw [hself]
  have hcopy : (t.itable i).copy = d := by rw [hself]
  have hvol : t.vol = s.vol.setView x d := by
    rw [hedit.vol hs hi (by rwa [hcopy]), hcopy]
    rfl
  have hview : s.vol.view x = (s.itable i).copy := hs.view_eq hi
  refine ⟨hedit, ⟨hedit.table hs (by rwa [hcopy]), ?_, ?_⟩, hvol, ?_⟩
  · rw [hvol]
    exact ho.setView (by rw [haddrs, hview]) fun hfree => absurd hfree htype
  · rw [hvol]
    exact hfilled
  · rw [hcopy, ht]
    exact (update_self x d (s.setCopy i f).dinode).symm

theorem filled_setView (hs : s.Ok) (hi : s.Held i x) {d : Dinode} (haddrs : d.addrs = (s.itable i).copy.addrs)
    (hsize : d.size ≤ MAXFILE * BSIZE) (hfill : s.FilledTo x d.size) : Filled (s.vol.setView x d) := by
  have hview : s.vol.view x = (s.itable i).copy := hs.table.view_eq hi
  constructor
  · intro y
    by_cases hy : y = x
    · rw [hy, Vol.view_setView]
      exact hsize
    · rw [Vol.view_setView_of_ne _ _ hy]
      exact hs.filled.size y
  · intro y bn hbn
    rw [Own.block_setView _ (by rw [haddrs, hview])]
    by_cases hy : y = x
    · rw [hy, Vol.view_setView] at hbn
      rw [hy]
      exact hfill bn hbn
    · rw [Vol.view_setView_of_ne _ _ hy] at hbn
      exact hs.filled.block y bn hbn

-- Changes of the fields other than size and addrs keep the file filled.
theorem filledTo_size (hs : s.Ok) (hi : s.Held i x) :
    (s.itable i).copy.size ≤ MAXFILE * BSIZE ∧ s.FilledTo x (s.itable i).copy.size := by
  have hview : s.vol.view x = (s.itable i).copy := hs.table.view_eq hi
  rw [← hview]
  exact ⟨hs.filled.size x, hs.filled.block x⟩

structure Writes (i : Ip) (x : ℕ) (s t : Fs) : Prop where
  edit : Edit i x s t
  ok : t.Ok
  grows : Grows x s.vol t.vol
  clean : s.Clean → t.Clean

theorem Grows.setSize {v w : Vol} (h : Grows x v w) (n : ℕ) :
    Grows x v (w.setView x ((w.view x).setSize n)) where
  other y hy := (Vol.view_setView_of_ne _ _ hy).trans (h.other y hy)
  type := by
    rw [Vol.view_setView]
    exact h.type
  nlink := by
    rw [Vol.view_setView]
    exact h.nlink
  bit := h.bit
  data := h.data
  block r hr := (Own.block_setView w (by rfl) x r).trans (h.block r hr)
  new r := by
    rw [Own.block_setView w (by rfl) x r]
    exact h.new r

theorem writei_end (hs : s.Ok) (hi : s.Held i x) (hg : Grown i x s t) {off : ℕ}
    (hmax : off ≤ MAXFILE * BSIZE) (hfill : t.FilledTo x off) :
    wp (iupdate i) (fun _ u => Writes i x s u ∧
        u.vol = t.vol.setView x ((t.vol.view x).setSize (max (t.vol.view x).size off)))
      (fun _ => False) (t.setCopy i fun d => d.setSize (if off > d.size then off else d.size)) := by
  have hview : t.vol.view x = (t.itable i).copy := hg.ok.table.view_eq (hg.held hi)
  obtain ⟨hsize, hfill'⟩ := filledTo_size hg.ok (hg.held hi)
  have hif : (if off > (t.itable i).copy.size then off else (t.itable i).copy.size) =
      max (t.itable i).copy.size off := by
    split <;> omega
  rw [hview]
  refine wp_post (save_spec (d := (t.itable i).copy.setSize (max (t.itable i).copy.size off)) hg.ok.table
    hg.ok.own (hg.held hi) (by rw [hif]) rfl ?_
    (filled_setView hg.ok (hg.held hi) rfl (max_le hsize hmax) ?_)) ?_
  · exact hg.ok.table.typed i (hg.held hi).ref (hg.held hi).valid
  · intro bn hbn
    rcases lt_max_iff.mp hbn with h | h
    · exact hfill' bn h
    · exact hfill bn h
  · intro _ u hu
    have hedit := hg.edit.trans hu.edit
    refine ⟨⟨hedit, hu.ok, ?_, fun hc => hedit.clean hs.table hi hc hu.back⟩, hu.vol⟩
    rw [hu.vol, ← hview]
    exact Grows.setSize hg.grows _

theorem writei_spec (hs : s.Ok) (hi : s.Held i x) (src : Source) (off n : ℕ) (hn : n < 2 ^ 32) :
    wp (writei i src off n) (fun _ t => Writes i x s t) (fun _ => False) s := by
  obtain ⟨hsize, hfill⟩ := filledTo_size hs hi
  have hmax : MAXFILE * BSIZE < 2 ^ 31 := by decide
  have hrefl : Writes i x s s := ⟨.refl i x s, hs, .refl x _, fun h => h⟩
  unfold writei
  simp only [wp_bind, wp_get, wp_ite, wp_pure]
  split
  · exact hrefl
  · rename_i hin
    split
    · exact hrefl
    · rename_i hlen
      refine wp_post (writeLoop_spec hs hi src n n 0 off (by omega) fun bn hbn => hfill bn (by omega)) ?_
      rintro ⟨tot, off'⟩ t ⟨hg, hle, hfilled⟩
      simp only [wp_modify]
      exact wp_post (writei_end hs hi hg hle hfilled) fun _ _ h => h.1

end Fs

end Xv6
