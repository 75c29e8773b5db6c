import Xv6.Fs.Trunc

namespace Xv6

open Wp
open Function (update update_of_ne update_self)

namespace Fs

variable {s t u : Fs} {i j : Ip} {x : ℕ}

structure Puts (i : Ip) (x : ℕ) (s t : Fs) : Prop where
  ok : t.Ok
  clean : t.Clean
  sb : t.sb = s.sb
  outstanding : t.outstanding = s.outstanding
  entry : ∀ j, j ≠ i → t.itable j = s.itable j
  ref : (s.itable i).ref = (t.itable i).ref + 1
  keep : 0 < (t.itable i).ref → s.Keeps t i
  data : t.data = s.data
  other : ∀ y, y ≠ x → t.view y = s.view y
  nlink : (t.view x).nlink = (s.view x).nlink
  effect : t.vol = s.vol ∨ (s.itable i).ref = 1 ∧ (s.view x).nlink = 0 ∧ (t.view x).type = .free
  last : (s.itable i).ref = 1 → (s.itable i).valid = true → (s.view x).nlink = 0 → (t.view x).type = .free

theorem iput_free (hs : s.Ok) (hc : s.Clean) (hi : s.Held i x) (href : (s.itable i).ref = 1)
    (hnlink : (s.itable i).copy.nlink = 0) (he : Empties i x s t) :
    wp (iupdate i) (fun _ u => Puts i x s
        ((u.setInode i fun ip => { ip with valid := false }).setInode i fun ip => { ip with ref := ip.ref - 1 }))
      (fun _ => False) (t.setCopy i fun d => d.setType .free) := by
  have ht := he.edit.held.mpr hi
  have hview := he.ok.table.view_eq ht
  unfold iupdate
  simp only [wp_modify, itable_setCopy, ht.inum]
  set d := (t.itable i).copy.setType .free with hd
  set u : Fs := Fs.setInode (Fs.setInode { t.setCopy i (fun d => d.setType .free) with
      dinode := update (t.setCopy i fun d => d.setType .free).dinode x d } i
    fun ip => { ip with valid := false }) i fun ip => { ip with ref := ip.ref - 1 } with hu
  have hentry : ∀ j, j ≠ i → u.itable j = t.itable j := by
    intro j hj
    rw [hu, itable_setInode_of_ne _ _ hj, itable_setInode_of_ne _ _ hj]
    change (t.setCopy i fun d => d.setType .free).itable j = _
    exact itable_setCopy_of_ne t _ hj
  have hzero : (u.itable i).ref = 0 := by
    rw [hu, itable_setInode, itable_setInode]
    change ((t.setCopy i fun d => d.setType .free).itable i).ref - 1 = 0
    rw [itable_setCopy]
    change (t.itable i).ref - 1 = 0
    rw [(he.edit.fields i).2.2.1, href]
  have hdisk : ∀ y, y ≠ x → u.dinode y = t.dinode y := fun y hy => update_of_ne hy _ _
  have hdx : u.dinode x = d := update_self ..
  have hvol : u.vol = t.vol.setView x d := by
    rw [Fs.vol, view_drop he.ok.table ht.toAt hentry hzero hdisk, hdx]
    rfl
  have hsize : d.size = 0 := by
    rw [hd, ← hview]
    exact he.size
  have haddrs : ∀ j ≤ NDIRECT, d.addrs j = 0 := by
    rw [hd, ← hview]
    exact he.addrs
  have hfree : (u.view x).type = .free := by
    change (u.vol.view x).type = _
    rw [hvol, Vol.view_setView]
    rfl
  refine ⟨⟨table_drop he.ok.table hentry hzero, ?_, ?_⟩,
    clean_drop he.ok.table ht.toAt hentry hzero hdisk (he.clean hc), he.edit.sb, he.edit.outstanding,
    fun j hj => (hentry j hj).trans (he.edit.entry j hj), by omega, fun h => by omega, he.data, ?_, ?_,
    .inr ⟨href, by rw [hs.table.view_eq hi]; exact hnlink, hfree⟩, fun _ _ _ => hfree⟩
  · rw [hvol]
    exact he.ok.own.setView (by rw [hd, ← hview]; rfl) fun _ => haddrs
  · rw [hvol]
    exact filled_setView he.ok ht rfl (by rw [hsize]; exact Nat.zero_le _) fun bn hbn => by
      rw [hsize] at hbn
      exact absurd hbn (Nat.not_lt_zero _)
  · intro y hy
    change u.vol.view y = _
    rw [hvol, Vol.view_setView_of_ne _ _ hy]
    change t.view y = _
    rw [he.edit.view hs.table hi (he.ok.table.typed i ht.ref ht.valid), update_of_ne hy]
  · change (u.vol.view x).nlink = _
    rw [hvol, Vol.view_setView, hd, ← hview]
    exact he.nlink

theorem iput_drop (hs : s.Ok) (hc : s.Clean) (hi : s.At i x)
    (hcond : ¬((s.itable i).ref = 1 ∧ (s.itable i).valid = true ∧ (s.itable i).copy.nlink = 0)) :
    Puts i x s (s.setInode i fun ip => { ip with ref := ip.ref - 1 }) := by
  have hpos := hi.ref
  set t := s.setInode i fun ip => { ip with ref := ip.ref - 1 } with ht
  have hself : (t.itable i).ref = (s.itable i).ref - 1 := by rw [ht, itable_setInode]
  have hentry : ∀ j, j ≠ i → t.itable j = s.itable j := fun j hj => itable_setInode_of_ne _ _ hj
  have hlast : (s.itable i).ref = 1 → (s.itable i).valid = true → (s.view x).nlink = 0 →
      (t.view x).type = .free := fun href hvalid hlink => by
    rw [hs.table.view_eq ⟨hi, hvalid⟩] at hlink
    exact absurd ⟨href, hvalid, hlink⟩ hcond
  by_cases href : (s.itable i).ref = 1
  · have hzero : (t.itable i).ref = 0 := by omega
    have hview : t.view = s.view := by
      rw [view_drop hs.table hi hentry hzero fun _ _ => rfl]
      change update s.view x (s.dinode x) = s.view
      rw [← hc.view_eq hs.table, Function.update_eq_self]
    have hvol : t.vol = s.vol := by
      rw [Fs.vol, hview]
      rfl
    refine ⟨⟨table_drop hs.table hentry hzero, ?_, ?_⟩,
      clean_drop hs.table hi hentry hzero (fun _ _ => rfl) hc, rfl, rfl, hentry, by omega,
      fun h => by omega, rfl, fun y _ => by rw [hview], by rw [hview], .inl hvol, hlast⟩
    · rw [hvol]
      exact hs.own
    · rw [hvol]
      exact hs.filled
  · have hq : Quiet s t i :=
      quiet_setInode hs.table hpos _ rfl rfl (by change 0 < (s.itable i).ref - 1; omega) (.inl ⟨rfl, rfl⟩)
    exact ⟨hq.ok hs, hq.clean hc, rfl, rfl, hentry, by omega, fun _ => hq.keep hpos, rfl,
      fun y _ => by rw [hq.view], by rw [hq.view], .inl hq.vol, hlast⟩

theorem iput_spec (hs : s.Ok) (hc : s.Clean) (hi : s.At i x) :
    wp (iput i) (fun _ t => Puts i x s t) (fun e => e = .wait) s := by
  unfold iput
  simp only [wp_bind, wp_get, wp_ite, wp_throw, wp_modify]
  split
  · rename_i hcond
    have hheld : s.Held i x := ⟨hi, hcond.2.1⟩
    split
    · trivial
    · refine wp_mono (itrunc_spec hs hheld) ?_ fun _ h => h.elim
      intro _ t he
      exact wp_mono (iput_free hs hc hheld hcond.1 hcond.2.2 he) (fun _ _ h => h) fun _ h => h.elim
  · rename_i hcond
    exact iput_drop hs hc hi hcond

-- From s to t a call has taken the references L and broken nothing.
structure Net (s t : Fs) (L : List Ip) : Prop where
  ok : t.Ok
  clean : t.Clean
  sb : t.sb = s.sb
  outstanding : t.outstanding = s.outstanding
  ref : ∀ j, (t.itable j).ref = (s.itable j).ref + L.count j
  keep : ∀ j, 0 < (s.itable j).ref → s.Keeps t j

theorem Keeps.of_eq (h : t.itable j = s.itable j) : s.Keeps t j :=
  ⟨by rw [h], fun hv => by rwa [h], fun _ => by rw [h]⟩

theorem Keeps.trans (h : s.Keeps t j) (h' : t.Keeps u j) : s.Keeps u j :=
  ⟨h'.inum.trans h.inum, fun hv => h'.valid (h.valid hv), fun hv => (h'.type (h.valid hv)).trans (h.type hv)⟩

theorem Keeps.held (h : s.Keeps t j) (hj : s.Held j x) (href : 0 < (t.itable j).ref) : t.Held j x :=
  ⟨⟨href, h.inum.trans hj.inum⟩, h.valid hj.valid⟩

namespace Net

variable {L L' : List Ip}

theorem refl (hs : s.Ok) (hc : s.Clean) : Net s s [] :=
  ⟨hs, hc, rfl, rfl, fun _ => rfl, fun _ _ => .of_eq rfl⟩

theorem trans (h : Net s t L) (h' : Net t u L') : Net s u (L' ++ L) where
  ok := h'.ok
  clean := h'.clean
  sb := h'.sb.trans h.sb
  outstanding := h'.outstanding.trans h.outstanding
  ref j := by
    rw [h'.ref, h.ref, List.count_append]
    omega
  keep j hj := (h.keep j hj).trans (h'.keep j (by rw [h.ref]; omega))

theorem perm (h : Net s t L) (hp : L.Perm L') : Net s t L' :=
  ⟨h.ok, h.clean, h.sb, h.outstanding, fun j => by rw [h.ref, hp.count_eq], h.keep⟩

theorem ref_pos (h : Net s t L) (hj : 0 < (s.itable j).ref) : 0 < (t.itable j).ref := by
  rw [h.ref]
  omega

theorem handle (h : Net s t L) (hj : s.At j x) : t.At j x :=
  ⟨h.ref_pos hj.ref, (h.keep j hj.ref).inum.trans hj.inum⟩

theorem held (h : Net s t L) (hj : s.Held j x) : t.Held j x :=
  (h.keep j hj.ref).held hj (h.ref_pos hj.ref)

theorem put (h : Net s t (i :: L)) (hp : Puts i x t u) : Net s u L where
  ok := hp.ok
  clean := hp.clean
  sb := hp.sb.trans h.sb
  outstanding := hp.outstanding.trans h.outstanding
  ref j := by
    have hj := h.ref j
    by_cases hji : j = i
    · subst hji
      have := hp.ref
      rw [List.count_cons_self] at hj
      omega
    · rw [List.count_cons_of_ne (Ne.symm hji)] at hj
      rw [hp.entry j hji, hj]
  keep j hj := by
    refine (h.keep j hj).trans ?_
    by_cases hji : j = i
    · subst hji
      have hr := h.ref j
      have := hp.ref
      rw [List.count_cons_self] at hr
      exact hp.keep (by omega)
    · exact .of_eq (hp.entry j hji)

-- A table change that takes the references L, of entry i only.
theorem of_quiet (hs : s.Ok) (hc : s.Clean) (hq : Quiet s t i) (hL : ∀ j, j ≠ i → L.count j = 0)
    (href : (t.itable i).ref = (s.itable i).ref + L.count i) : Net s t L where
  ok := hq.ok hs
  clean := hq.clean hc
  sb := hq.sb
  outstanding := by rw [hq.disk]
  ref j := by
    by_cases hji : j = i
    · rw [hji, href]
    · rw [hq.entry j hji, hL j hji, Nat.add_zero]
  keep j hj := by
    by_cases hji : j = i
    · subst hji
      exact hq.keep hj
    · exact .of_eq (hq.entry j hji)

theorem of_quiet_same (hs : s.Ok) (hc : s.Clean) (hq : Quiet s t i)
    (href : (t.itable i).ref = (s.itable i).ref) : Net s t [] :=
  of_quiet hs hc hq (fun _ _ => rfl) href

theorem of_quiet_one (hs : s.Ok) (hc : s.Clean) (hq : Quiet s t i)
    (href : (t.itable i).ref = (s.itable i).ref + 1) : Net s t [i] :=
  of_quiet hs hc hq (fun j hj => by simp [Ne.symm hj]) (by simpa using href)

theorem of_edit (hs : s.Table) (hi : s.Held i x) (hedit : Edit i x s t) (hok : t.Ok) (hc : t.Clean)
    (htype : (t.view x).type = (s.view x).type) : Net s t [] where
  ok := hok
  clean := hc
  sb := hedit.sb
  outstanding := hedit.outstanding
  ref j := (hedit.fields j).2.2.1
  keep j _ := by
    refine ⟨(hedit.fields j).2.1, fun hv => (hedit.fields j).2.2.2.1.trans hv, fun _ => ?_⟩
    by_cases hji : j = i
    · rw [hji, ← hs.view_eq hi, ← hok.table.view_eq (hedit.held.mpr hi), htype]
    · rw [hedit.entry j hji]

end Net

-- A change of the link count and the device numbers, written back.
theorem update_spec (hs : s.Ok) (hc : s.Clean) (hi : s.Held i x) {f : Dinode → Dinode} {d : Dinode}
    (hf : f (s.view x) = d) (haddrs : d.addrs = (s.view x).addrs) (hsize : d.size = (s.view x).size)
    (htype : d.type = (s.view x).type) :
    wp (iupdate i) (fun _ t => Net s t [] ∧ t.vol = s.vol.setView x d) (fun _ => False) (s.setCopy i f) := by
  have hview := hs.table.view_eq hi
  obtain ⟨hmax, hfill⟩ := filledTo_size hs hi
  rw [hview] at hf haddrs hsize htype
  refine wp_post (save_spec hs.table hs.own hi hf haddrs ?_ (filled_setView hs hi haddrs ?_ ?_)) ?_
  · rw [htype]
    exact hs.table.typed i hi.ref hi.valid
  · rwa [hsize]
  · rwa [hsize]
  · intro _ t h
    refine ⟨.of_edit hs.table hi h.edit h.ok (h.edit.clean hs.table hi hc h.back) ?_, h.vol⟩
    change (t.vol.view x).type = _
    rw [h.vol, Vol.view_setView, htype, hview]

-- A free inode owns nothing, so it can be marked in use.
theorem block_of_free {v : Vol} {sb : Superblock} (ho : Own sb v) (hfree : (v.view x).type = .free) (r : ℕ) :
    v.block x r = 0 := by
  unfold Vol.block Dinode.block
  by_cases hr : r ≤ NDIRECT
  · rw [if_pos hr, ho.free x hfree r hr]
  · rw [if_neg hr, if_pos (ho.free x hfree NDIRECT le_rfl)]

theorem mark_free (hs : s.Ok) (hc : s.Clean) {type : FileType} (htype : type ≠ .free)
    (hfree : (s.dinode x).type = .free) {t : Fs}
    (ht : t = { s with dinode := update s.dinode x (.zero type) }) :
    t.Ok ∧ t.Clean ∧ t.vol = s.vol.setView x (.zero type) := by
  have hview : (s.vol.view x).type = .free := by
    change (s.view x).type = _
    rw [hc.view_eq hs.table, hfree]
  -- No valid entry is of a free inode.
  have hnone : ∀ j, ¬s.Held j x := by
    intro j hj
    have := hs.table.typed j hj.ref hj.valid
    rw [hc j x hj] at this
    exact this hfree
  have htable : t.Table := by
    subst ht
    exact ⟨hs.table.dev, hs.table.uniq, hs.table.typed⟩
  have hheld : ∀ j y, t.Held j y → s.Held j y := by
    subst ht
    exact fun j y h => ⟨⟨h.ref, h.inum⟩, h.valid⟩
  have hclean : t.Clean := by
    intro j y hj
    have hold := hheld j y hj
    have hyx : y ≠ x := by
      rintro rfl
      exact hnone j hold
    subst ht
    change (s.itable j).copy = update s.dinode x _ y
    rw [update_of_ne hyx]
    exact hc j y hold
  have hvol : t.vol = s.vol.setView x (.zero type) := by
    rw [Fs.vol, hclean.view_eq htable]
    subst ht
    change Vol.mk (update s.dinode x _) s.bitmap s.data = _
    rw [← hc.view_eq hs.table]
    rfl
  have hzero : ∀ r, (Dinode.zero type).block s.vol.data r = 0 := by
    intro r
    simp [Dinode.block, Dinode.zero]
  have hblock : ∀ y r, (s.vol.setView x (.zero type)).block y r = s.vol.block y r := by
    intro y r
    by_cases hy : y = x
    · subst hy
      rw [block_of_free hs.own hview, Vol.block, Vol.view_setView]
      exact hzero r
    · rw [Vol.block, Vol.view_setView_of_ne _ _ hy]
      rfl
  have hsb : t.sb = s.sb := by rw [ht]
  refine ⟨⟨htable, ?_, ?_⟩, hclean, hvol⟩
  · rw [hvol, hsb]
    refine hs.own.of_block rfl hblock fun y hy => ?_
    by_cases hyx : y = x
    · rw [hyx, Vol.view_setView] at hy
      exact absurd hy htype
    · rw [Vol.view_setView_of_ne _ _ hyx] at hy ⊢
      exact hs.own.free y hy
  · rw [hvol]
    constructor
    · intro y
      by_cases hy : y = x
      · rw [hy, Vol.view_setView]
        exact Nat.zero_le _
      · rw [Vol.view_setView_of_ne _ _ hy]
        exact hs.filled.size y
    · intro y bn hbn
      rw [hblock]
      by_cases hy : y = x
      · rw [hy, Vol.view_setView] at hbn
        exact absurd hbn (Nat.not_lt_zero _)
      · rw [Vol.view_setView_of_ne _ _ hy] at hbn
        exact hs.filled.block y bn hbn

-- ialloc marks a free inode and takes a reference to it.
theorem ialloc_spec (hs : s.Ok) (hc : s.Clean) {type : FileType} (htype : type ≠ .free) :
    wp (ialloc ROOTDEV type) (fun r t => match r with
      | none => t = s
      | some i => ∃ x, 1 ≤ x ∧ x < s.sb.ninodes ∧ (s.view x).type = .free ∧ t.At i x ∧ Net s t [i] ∧
          t.vol = s.vol.setView x (.zero type)) (fun e => e = .panic .iget) s := by
  unfold ialloc
  simp only [wp_bind, wp_get]
  split
  · rename_i x hx
    have hfree := List.find?_some hx
    have hmem := List.mem_range.mp (List.mem_of_find?_eq_some hx)
    simp only [Bool.and_eq_true, decide_eq_true_eq, beq_iff_eq] at hfree
    simp only [wp_set, wp_map, wp_bind]
    obtain ⟨hok, hclean, hvol⟩ := mark_free hs hc htype hfree.2 rfl
    refine wp_post (iget_spec hok.table x) ?_
    rintro i t ⟨hq, href, hat⟩
    have hnet := Net.of_quiet_one hok hclean hq href
    refine ⟨x, hfree.1, hmem, ?_, hat, ?_, hq.vol.trans hvol⟩
    · rw [hc.view_eq hs.table]
      exact hfree.2
    · exact ⟨hnet.ok, hnet.clean, hnet.sb, hnet.outstanding, hnet.ref, fun j hj =>
        ⟨(hnet.keep j hj).inum, (hnet.keep j hj).valid, (hnet.keep j hj).type⟩⟩
  · simp only [wp_pure]

end Fs

end Xv6
