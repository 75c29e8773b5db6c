import Xv6.Fs.Content

namespace Xv6

open Wp
open Function (update update_of_ne update_self)

namespace Fs

variable {s t u : Fs} {i : Ip} {x : ℕ}

theorem bfree_spec {b : ℕ} (hb : s.bitmap b = true) :
    wp (bfree b) (fun _ t => t = { s with bitmap := update s.bitmap b false }) (fun _ => False) s := by
  unfold bfree
  simp only [wp_bind, wp_get, wp_ite, wp_set, wp_throw, hb, if_true]

structure Trims (i : Ip) (x : ℕ) (s t : Fs) : Prop where
  edit : Edit i x s t
  own : Own t.sb t.vol
  data : t.data = s.data
  type : (t.itable i).copy.type = (s.itable i).copy.type
  nlink : (t.itable i).copy.nlink = (s.itable i).copy.nlink
  addrs : ∀ j, (t.itable i).copy.addrs j = (s.itable i).copy.addrs j ∨ (t.itable i).copy.addrs j = 0

namespace Trims

theorem refl (ho : Own s.sb s.vol) (i : Ip) (x : ℕ) : Trims i x s s :=
  ⟨.refl i x s, ho, rfl, rfl, rfl, fun _ => .inl rfl⟩

theorem trans (h : Trims i x s t) (h' : Trims i x t u) : Trims i x s u where
  edit := h.edit.trans h'.edit
  own := h'.own
  data := h'.data.trans h.data
  type := h'.type.trans h.type
  nlink := h'.nlink.trans h.nlink
  addrs j := by
    rcases h'.addrs j with h₁ | h₁
    · rw [h₁]
      exact h.addrs j
    · exact .inr h₁

theorem held (h : Trims i x s t) (hi : s.Held i x) : t.Held i x := h.edit.held.mpr hi

theorem table (h : Trims i x s t) (hs : s.Table) (hi : s.Held i x) : t.Table :=
  h.edit.table hs (by rw [h.type]; exact hs.typed i hi.ref hi.valid)

-- The blocks of the slots S of inode x are freed and its address j cleared.
theorem of_release (hs : s.Table) (ho : Own s.sb s.vol) (hi : s.Held i x) {bitmap : ℕ → Bool} {j : ℕ} (S : ℕ → Prop)
    [DecidablePred S] (hblock : ∀ r, ((s.view x).setAddr j 0).block s.data r = if S r then 0 else s.vol.block x r)
    (hbit : ∀ c, bitmap c = true ↔ s.bitmap c = true ∧ ∀ r, S r → s.vol.block x r ≠ 0 → s.vol.block x r ≠ c) :
    Trims i x s (({ s with bitmap := bitmap } : Fs).setCopy i fun d => d.setAddr j 0) := by
  have hview : s.view x = (s.itable i).copy := hs.view_eq hi
  set t := ({ s with bitmap := bitmap } : Fs).setCopy i fun d => d.setAddr j 0 with ht
  have hcopy : (t.itable i).copy = (s.view x).setAddr j 0 := by
    rw [ht, itable_setCopy, hview]
  have hedit : Edit i x s t := by
    refine ⟨rfl, rfl, fun k hk => itable_setCopy_of_ne _ _ hk, ?_, fun _ _ => rfl⟩
    rw [ht, itable_setCopy]
  have htype : (t.itable i).copy.type ≠ .free := by
    rw [hcopy, hview]
    exact hs.typed i hi.ref hi.valid
  have hvol : t.vol = (Vol.mk s.view bitmap s.data).setView x ((s.view x).setAddr j 0) := by
    rw [hedit.vol hs hi htype, hcopy]
    rfl
  refine ⟨hedit, ?_, rfl, ?_, ?_, fun k => ?_⟩
  · rw [hvol]
    refine ho.release (fun a => a.1 = x ∧ S a.2) ?_ ?_ ?_
    · intro y r
      by_cases hy : y = x
      · subst hy
        rw [Vol.block, Vol.view_setView]
        refine (hblock r).trans ?_
        simp
      · rw [Vol.block, Vol.view_setView_of_ne _ _ hy, if_neg fun h => hy h.1]
        rfl
    · intro c
      refine (hbit c).trans (and_congr_right fun _ => ⟨?_, fun h r => h (x, r) ∘ fun hr => ⟨rfl, hr⟩⟩)
      rintro h ⟨y, r⟩ ⟨rfl, hr⟩
      exact h r hr
    · intro y hy
      by_cases hyx : y = x
      · subst hyx
        rw [Vol.view_setView] at hy
        rw [hcopy] at htype
        exact absurd hy htype
      · rw [Vol.view_setView_of_ne _ _ hyx] at hy ⊢
        exact ho.free y hy
  · rw [hcopy, ← hview]
    rfl
  · rw [hcopy, ← hview]
    rfl
  · rw [hcopy, ← hview, Dinode.addrs_setAddr]
    by_cases hk : k = j
    · exact .inr (if_pos hk)
    · exact .inl (if_neg hk)

end Trims

theorem truncAddr_spec (hs : s.Table) (ho : Own s.sb s.vol) (hi : s.Held i x) {j : ℕ} (hj : j < NDIRECT) :
    wp (truncAddr i j) (fun _ t => Trims i x s t ∧ (t.itable i).copy.addrs j = 0) (fun _ => False) s := by
  have hview : s.view x = (s.itable i).copy := hs.view_eq hi
  have hblock : s.vol.block x j = (s.itable i).copy.addrs j := by
    rw [Vol.block, Dinode.block_direct _ _ hj.le]
    exact congrArg (fun d => d.addrs j) hview
  unfold truncAddr
  simp only [wp_bind, wp_get, wp_ite, wp_pure, ← hblock]
  split
  · rename_i hnz
    refine wp_post (bfree_spec (ho.mem_pool hnz).2) ?_
    rintro _ t rfl
    simp only [wp_modify]
    refine ⟨.of_release hs ho hi (fun r => r = j) (fun r => Dinode.block_setAddr _ _ hj 0 r) fun c => ?_, ?_⟩
    · by_cases hc : c = s.vol.block x j
      · simp [hc, hnz]
      · simp [hc, hnz, Ne.symm hc]
    · rw [itable_setCopy, Dinode.addrs_setAddr, if_pos rfl]
  · rename_i hz
    exact ⟨.refl ho i x, not_not.mp hz⟩

-- The loop over an indirect block frees each of its entries.
theorem freeWords_spec (s : Fs) (w : ℕ → ℕ) (hmark : ∀ k, w k ≠ 0 → s.bitmap (w k) = true)
    (hinj : ∀ k k', w k ≠ 0 → w k' = w k → k = k') (n : ℕ) :
    wp ((List.range n).forM fun k => if w k ≠ 0 then bfree (w k) else pure ())
      (fun _ t => t = { s with bitmap := t.bitmap } ∧ ∀ b, t.bitmap b = true ↔
        s.bitmap b = true ∧ ∀ k < n, w k ≠ 0 → w k ≠ b) (fun _ => False) s := by
  refine wp_post (wp_forM
    (fun rest t => t = { s with bitmap := t.bitmap } ∧ rest.Nodup ∧ (∀ k ∈ rest, k < n) ∧
      ∀ b, t.bitmap b = true ↔ s.bitmap b = true ∧ ∀ k < n, k ∉ rest → w k ≠ 0 → w k ≠ b)
    ?_ (List.range n) ⟨rfl, List.nodup_range, fun k => List.mem_range.mp, fun b => ?_⟩) ?_
  · intro k rest t ⟨ht, hnodup, hlt, hbit⟩
    obtain ⟨hk, hnodup⟩ := List.nodup_cons.mp hnodup
    simp only [wp_ite, wp_pure]
    split
    · rename_i hnz
      have hset : t.bitmap (w k) = true := by
        refine (hbit (w k)).mpr ⟨hmark k hnz, fun k' _ hk' _ heq => hk' ?_⟩
        rw [hinj k k' hnz heq]
        exact List.mem_cons_self
      refine wp_post (bfree_spec hset) ?_
      rintro _ u rfl
      refine ⟨by rw [ht], hnodup, fun k' hk' => hlt k' (List.mem_cons_of_mem _ hk'), fun b => ?_⟩
      by_cases hb : b = w k
      · subst hb
        simp only [update_self, Bool.false_eq_true, false_iff, not_and, not_forall]
        exact fun _ => ⟨k, hlt k List.mem_cons_self, hk, hnz, not_not.mpr rfl⟩
      · change update t.bitmap (w k) false b = true ↔ _
        rw [update_of_ne hb, hbit]
        refine and_congr_right fun _ => ⟨fun h k' hk' hmem hnz' => ?_, fun h k' hk' hmem => ?_⟩
        · by_cases hkk : k' = k
          · rw [hkk]
            exact Ne.symm hb
          · exact h k' hk' (by simp [hkk, hmem]) hnz'
        · exact h k' hk' fun hmem' => hmem (List.mem_cons_of_mem _ hmem')
    · rename_i hz
      refine ⟨ht, hnodup, fun k' hk' => hlt k' (List.mem_cons_of_mem _ hk'), fun b => (hbit b).trans ?_⟩
      refine and_congr_right fun _ => ⟨fun h k' hk' hmem hnz' => ?_, fun h k' hk' hmem => ?_⟩
      · by_cases hkk : k' = k
        · exact absurd (hkk ▸ hnz') hz
        · exact h k' hk' (by simp [hkk, hmem]) hnz'
      · exact h k' hk' fun hmem' => hmem (List.mem_cons_of_mem _ hmem')
  · exact ⟨fun h => ⟨h, fun k hk hmem => absurd (List.mem_range.mpr hk) hmem⟩, And.left⟩
  · rintro _ t ⟨ht, -, -, hbit⟩
    exact ⟨ht, fun b => by simpa using hbit b⟩

theorem truncIndirect_spec (hs : s.Table) (ho : Own s.sb s.vol) (hi : s.Held i x) :
    wp (truncIndirect i) (fun _ t => Trims i x s t ∧ (t.itable i).copy.addrs NDIRECT = 0)
      (fun _ => False) s := by
  have hview : s.view x = (s.itable i).copy := hs.view_eq hi
  have hind : s.vol.block x NDIRECT = (s.itable i).copy.addrs NDIRECT := by
    rw [ho.block_indirect]
    exact congrArg (fun d => d.addrs NDIRECT) hview
  unfold truncIndirect
  simp only [wp_bind, wp_get, wp_ite, wp_pure, ← hind]
  split
  · rename_i hnz
    have hword : ∀ k, s.vol.block x (NDIRECT + 1 + k) = (s.data (s.vol.block x NDIRECT)).word k := by
      intro k
      rw [ho.block_indirect] at hnz ⊢
      exact Dinode.block_indirect _ _ _ hnz
    refine wp_post (freeWords_spec s _ (fun k hk => ?_) (fun k k' hk hkk => ?_) NINDIRECT) ?_
    · rw [← hword] at hk ⊢
      exact (ho.mem_pool hk).2
    · rw [← hword] at hk
      rw [← hword, ← hword] at hkk
      have := (ho.eq_of_block hk hkk).2
      omega
    · rintro _ t ⟨ht, hbit⟩
      have hset : t.bitmap (s.vol.block x NDIRECT) = true := by
        refine (hbit _).mpr ⟨(ho.mem_pool hnz).2, fun k _ hk heq => ?_⟩
        rw [← hword] at hk heq
        have := (ho.eq_of_block hk heq.symm).2
        omega
      refine wp_post (bfree_spec hset) ?_
      rintro _ u rfl
      simp only [wp_modify]
      rw [ht]
      refine ⟨.of_release hs ho hi (fun r => NDIRECT ≤ r) ?_ fun c => ?_, ?_⟩
      · intro r
        unfold Vol.block Dinode.block
        simp only [Dinode.addrs_setAddr, if_true]
        by_cases hr : r ≤ NDIRECT
        · by_cases hrn : r = NDIRECT
          · simp [hrn]
          · simp [hr, hrn, show ¬NDIRECT ≤ r by omega, Fs.vol]
        · simp [hr, show NDIRECT ≤ r by omega]
      · by_cases hc : c = s.vol.block x NDIRECT
        · subst hc
          simp only [update_self, Bool.false_eq_true, false_iff, not_and, not_forall]
          exact fun _ => ⟨NDIRECT, le_refl _, hnz, not_not.mpr rfl⟩
        · rw [update_of_ne hc, hbit]
          refine and_congr_right fun _ => ⟨fun h r hr hr0 => ?_, fun h k _ hk0 => ?_⟩
          · rcases hr.eq_or_lt with rfl | hlt
            · exact Ne.symm hc
            · obtain ⟨k, rfl⟩ := Nat.exists_eq_add_of_lt hlt
              rw [show NDIRECT + k + 1 = NDIRECT + 1 + k by omega, hword] at hr0 ⊢
              by_cases hk : k < NINDIRECT
              · exact h k hk hr0
              · exact absurd (Block.word_of_le _ (not_lt.mp hk)) hr0
          · rw [← hword] at hk0 ⊢
            exact h _ (by omega) hk0
      · rw [itable_setCopy, Dinode.addrs_setAddr, if_pos rfl]
  · rename_i hz
    exact ⟨.refl ho i x, not_not.mp hz⟩

structure Empties (i : Ip) (x : ℕ) (s t : Fs) : Prop where
  edit : Edit i x s t
  ok : t.Ok
  clean : s.Clean → t.Clean
  data : t.data = s.data
  type : (t.view x).type = (s.view x).type
  nlink : (t.view x).nlink = (s.view x).nlink
  size : (t.view x).size = 0
  addrs : ∀ j ≤ NDIRECT, (t.view x).addrs j = 0

theorem truncLoop_spec (hs : s.Table) (ho : Own s.sb s.vol) (hi : s.Held i x) :
    wp ((List.range NDIRECT).forM (truncAddr i))
      (fun _ t => Trims i x s t ∧ ∀ j < NDIRECT, (t.itable i).copy.addrs j = 0) (fun _ => False) s := by
  refine wp_post (wp_forM (fun rest t => Trims i x s t ∧ (∀ j ∈ rest, j < NDIRECT) ∧
    ∀ j < NDIRECT, j ∉ rest → (t.itable i).copy.addrs j = 0) ?_ (List.range NDIRECT)
    ⟨.refl ho i x, fun j => List.mem_range.mp, fun j hj hmem => absurd (List.mem_range.mpr hj) hmem⟩) ?_
  · rintro j rest t ⟨htrim, hlt, hzero⟩
    refine wp_post (truncAddr_spec (htrim.table hs hi) htrim.own (htrim.held hi)
      (hlt j List.mem_cons_self)) ?_
    rintro _ u ⟨htrim', hj⟩
    refine ⟨htrim.trans htrim', fun k hk => hlt k (List.mem_cons_of_mem _ hk), fun k hk hmem => ?_⟩
    by_cases hkj : k = j
    · rw [hkj, hj]
    · rcases htrim'.addrs k with h | h
      · rw [h]
        exact hzero k hk (by simp [hkj, hmem])
      · exact h
  · rintro _ t ⟨htrim, -, hzero⟩
    exact ⟨htrim, fun j hj => hzero j hj List.not_mem_nil⟩

theorem itrunc_spec (hs : s.Ok) (hi : s.Held i x) :
    wp (itrunc i) (fun _ t => Empties i x s t) (fun _ => False) s := by
  unfold itrunc
  simp only [wp_bind, wp_modify]
  refine wp_post (truncLoop_spec hs.table hs.own hi) ?_
  rintro _ t ⟨htrim, hzero⟩
  refine wp_post (truncIndirect_spec (htrim.table hs.table hi) htrim.own (htrim.held hi)) ?_
  rintro _ u ⟨htrim', hind⟩
  have hall := htrim.trans htrim'
  have hzero' : ∀ j ≤ NDIRECT, (u.itable i).copy.addrs j = 0 := by
    intro j hj
    by_cases hjn : j = NDIRECT
    · rw [hjn, hind]
    · rcases htrim'.addrs j with h | h
      · rw [h]
        exact hzero j (by omega)
      · exact h
  have htype : (u.itable i).copy.type ≠ .free := by
    rw [hall.type]
    exact hs.table.typed i hi.ref hi.valid
  have hview : u.view = update s.view x (u.itable i).copy := hall.edit.view hs.table hi htype
  -- The other files are as they were; this one has no byte.
  have hfilled : Filled (u.vol.setView x ((u.itable i).copy.setSize 0)) := by
    have hother : ∀ y, y ≠ x → (u.vol.setView x ((u.itable i).copy.setSize 0)).view y = s.vol.view y := by
      intro y hy
      rw [Vol.view_setView_of_ne _ _ hy]
      change u.view y = s.view y
      rw [hview, update_of_ne hy]
    constructor
    · intro y
      by_cases hy : y = x
      · rw [hy, Vol.view_setView]
        exact Nat.zero_le _
      · rw [hother y hy]
        exact hs.filled.size y
    · intro y bn hbn
      by_cases hy : y = x
      · rw [hy, Vol.view_setView] at hbn
        exact absurd hbn (Nat.not_lt_zero _)
      · rw [hother y hy] at hbn
        have hblock := hs.filled.block y bn hbn
        rw [Vol.block, hother y hy]
        change (s.vol.view y).block u.data (slotOf bn) ≠ 0
        rw [hall.data]
        exact hblock
  refine wp_post (save_spec (d := (u.itable i).copy.setSize 0) (hall.table hs.table hi) hall.own
    (hall.held hi) rfl rfl htype hfilled) ?_
  rintro _ w hsave
  have hedit := hall.edit.trans hsave.edit
  have hw : w.view x = (u.itable i).copy.setSize 0 := by
    change w.vol.view x = _
    rw [hsave.vol, Vol.view_setView]
  have hsv : s.view x = (s.itable i).copy := hs.table.view_eq hi
  have hdata : w.vol.data = (u.vol.setView x ((u.itable i).copy.setSize 0)).data := by rw [hsave.vol]
  refine ⟨hedit, hsave.ok, fun hc => hedit.clean hs.table hi hc hsave.back, ?_, ?_, ?_, ?_, ?_⟩
  · exact hdata.trans hall.data
  · rw [hw, hsv]
    exact hall.type
  · rw [hw, hsv]
    exact hall.nlink
  · rw [hw]
    rfl
  · rw [hw]
    exact hzero'

end Fs

end Xv6
