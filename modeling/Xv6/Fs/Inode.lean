import Xv6.Fs.Table

namespace Xv6

open Wp

namespace Fs

variable {s t : Fs} {i j : Ip} {x : ℕ}

-- An empty entry is taken for an inode that has none.
theorem quiet_recycle (hs : s.Table) (hempty : (s.itable i).ref = 0)
    (hnew : ∀ j, 0 < (s.itable j).ref → (s.itable j).inum ≠ x) :
    Quiet s (s.setInode i fun ip => { ip with dev := ROOTDEV, inum := x, ref := 1, valid := false }) i := by
  set t := s.setInode i fun ip => { ip with dev := ROOTDEV, inum := x, ref := 1, valid := false } with ht
  have hself : t.itable i = { s.itable i with dev := ROOTDEV, inum := x, ref := 1, valid := false } :=
    itable_setInode ..
  have hne : ∀ {j}, j ≠ i → t.itable j = s.itable j := fun h => itable_setInode_of_ne s _ h
  have htable : t.Table := by
    refine ⟨fun j hj => ?_, fun j k hj hk hjk => ?_, fun j hj hv => ?_⟩
    · by_cases hji : j = i
      · rw [hji, hself]
      · rw [hne hji] at hj ⊢
        exact hs.dev j hj
    · by_cases hji : j = i <;> by_cases hki : k = i
      · rw [hji, hki]
      · rw [hji, hself, hne hki] at hjk
        rw [hne hki] at hk
        exact absurd hjk.symm (hnew k hk)
      · rw [hki, hself, hne hji] at hjk
        rw [hne hji] at hj
        exact absurd hjk (hnew j hj)
      · rw [hne hji, hne hki] at hjk
        rw [hne hji] at hj
        rw [hne hki] at hk
        exact hs.uniq j k hj hk hjk
    · by_cases hji : j = i
      · rw [hji, hself] at hv
        cases hv
      · rw [hne hji] at hj hv ⊢
        exact hs.typed j hj hv
  have hheld : ∀ j y, t.Held j y ↔ s.Held j y := by
    intro j y
    by_cases hji : j = i
    · subst hji
      constructor
      · intro h
        have hv := h.valid
        rw [hself] at hv
        cases hv
      · intro h
        have hr := h.ref
        omega
    · constructor
      · intro h
        have := h.ref
        have := h.inum
        have := h.valid
        rw [hne hji] at *
        exact ⟨⟨‹_›, ‹_›⟩, ‹_›⟩
      · intro h
        refine ⟨⟨?_, ?_⟩, ?_⟩ <;> rw [hne hji]
        · exact h.ref
        · exact h.inum
        · exact h.valid
  have hcopy : ∀ j y, s.Held j y → t.itable j = s.itable j := by
    intro j y h
    refine hne ?_
    rintro rfl
    have := h.ref
    omega
  refine ⟨rfl, fun j hj => hne hj, fun h => by omega, htable, ?_, ?_⟩
  · refine view_same hs htable rfl (fun j y hj => .inl ⟨(hheld j y).mpr hj, ?_⟩)
      fun j y hj => .inl ((hheld j y).mp hj)
    rw [hcopy j y hj]
  · intro hc j y hj
    have hj := (hheld j y).mp hj
    rw [hcopy j y hj, hc j y hj]
    rfl

theorem iget_spec (hs : s.Table) (x : ℕ) :
    wp (iget ROOTDEV x) (fun i t => Quiet s t i ∧ (t.itable i).ref = (s.itable i).ref + 1 ∧ t.At i x)
      (fun e => e = .panic .iget) s := by
  unfold iget
  simp only [wp_bind, wp_get]
  split
  · rename_i i hi
    have hi := List.find?_some hi
    simp only [Bool.and_eq_true, decide_eq_true_eq, beq_iff_eq] at hi
    simp only [wp_bind, wp_set, wp_pure]
    refine ⟨quiet_setInode hs hi.1.1 _ rfl rfl (Nat.succ_pos _) (.inl ⟨rfl, rfl⟩), ?_, ?_, ?_⟩
    · rw [itable_setInode]
    · rw [itable_setInode]
      exact Nat.succ_pos _
    · rw [itable_setInode]
      exact hi.2
  · rename_i hnone
    split
    · rename_i i hi
      have hi := List.find?_some hi
      simp only [beq_iff_eq] at hi
      simp only [wp_bind, wp_set, wp_pure]
      refine ⟨quiet_recycle hs hi fun j hj hx => ?_, ?_, ?_, ?_⟩
      · have hj' := List.find?_eq_none.mp hnone j (List.mem_finRange j)
        simp [hj, hs.dev j hj, hx] at hj'
      · rw [itable_setInode, hi]
      · rw [itable_setInode]
        exact Nat.one_pos
      · rw [itable_setInode]
    · rfl

theorem idup_spec (hs : s.Table) (hi : s.At i x) :
    wp (idup i) (fun j t => j = i ∧ Quiet s t i ∧ (t.itable i).ref = (s.itable i).ref + 1 ∧ t.At i x)
      (fun _ => False) s := by
  unfold idup
  simp only [wp_bind, wp_modify, wp_pure]
  refine ⟨trivial, quiet_setInode hs hi.ref _ rfl rfl (Nat.succ_pos _) (.inl ⟨rfl, rfl⟩), ?_, ?_, ?_⟩
  · rw [itable_setInode]
  · rw [itable_setInode]
    exact Nat.succ_pos _
  · rw [itable_setInode]
    exact hi.inum

theorem ilock_spec (hs : s.Table) (hi : s.At i x) :
    wp (ilock i) (fun _ t => Quiet s t i ∧ (t.itable i).ref = (s.itable i).ref ∧ t.Held i x)
      (fun e => e = .wait ∨ e = .panic .ilockNoType ∧ (s.dinode x).type = .free) s := by
  have href : ¬(s.itable i).ref < 1 := by have := hi.ref; omega
  unfold ilock
  simp only [wp_bind, wp_get, wp_ite, wp_throw, wp_set, if_neg href]
  split
  · exact .inl trivial
  · split
    · rename_i hv
      refine ⟨quiet_setInode hs hi.ref _ rfl rfl hi.ref (.inl ⟨rfl, rfl⟩), ?_, ⟨?_, ?_⟩, ?_⟩ <;>
        rw [itable_setInode]
      · exact hi.ref
      · exact hi.inum
      · exact hv
    · split
      · rename_i hfree
        rw [hi.inum] at hfree
        exact .inr ⟨trivial, hfree⟩
      · rename_i hv hfree
        refine ⟨quiet_setInode hs hi.ref _ rfl rfl hi.ref (.inr ⟨by simpa using hv, rfl, hfree⟩),
          ?_, ⟨?_, ?_⟩, ?_⟩ <;> rw [itable_setInode]
        · exact hi.ref
        · exact hi.inum

theorem iunlock_spec (hs : s.Table) (hi : s.At i x) :
    wp (iunlock i) (fun _ t => Quiet s t i ∧ (t.itable i).ref = (s.itable i).ref)
      (fun e => e = .panic .iunlock) s := by
  unfold iunlock
  simp only [wp_bind, wp_get, wp_ite, wp_throw, wp_set]
  split
  · trivial
  · exact ⟨quiet_setInode hs hi.ref _ rfl rfl hi.ref (.inl ⟨rfl, rfl⟩), by rw [itable_setInode]⟩

theorem table_drop (hs : s.Table) (hentry : ∀ j, j ≠ i → t.itable j = s.itable j)
    (href : (t.itable i).ref = 0) : t.Table := by
  have hne : ∀ j, 0 < (t.itable j).ref → t.itable j = s.itable j := by
    intro j hj
    refine hentry j ?_
    rintro rfl
    omega
  refine ⟨fun j hj => ?_, fun j k hj hk hjk => ?_, fun j hj hv => ?_⟩
  · have heq := hne j hj
    rw [heq] at hj ⊢
    exact hs.dev j hj
  · have hj' := hne j hj
    have hk' := hne k hk
    rw [hj', hk'] at hjk
    exact hs.uniq j k (hj' ▸ hj) (hk' ▸ hk) hjk
  · have heq := hne j hj
    rw [heq] at hj hv ⊢
    exact hs.typed j hj hv

theorem held_drop (hentry : ∀ j, j ≠ i → t.itable j = s.itable j) (href : (t.itable i).ref = 0) {y : ℕ} :
    t.Held j y ↔ s.Held j y ∧ j ≠ i := by
  constructor
  · intro h
    have hji : j ≠ i := by
      rintro rfl
      have := h.ref
      omega
    have heq := hentry j hji
    exact ⟨⟨⟨heq ▸ h.ref, heq ▸ h.inum⟩, heq ▸ h.valid⟩, hji⟩
  · rintro ⟨h, hji⟩
    have heq := hentry j hji
    exact ⟨⟨heq ▸ h.ref, heq ▸ h.inum⟩, heq ▸ h.valid⟩

theorem view_drop (hs : s.Table) (hi : s.At i x) (hentry : ∀ j, j ≠ i → t.itable j = s.itable j)
    (href : (t.itable i).ref = 0) (hdisk : ∀ y, y ≠ x → t.dinode y = s.dinode y) :
    t.view = Function.update s.view x (t.dinode x) := by
  have ht := table_drop hs hentry href
  have hother : ∀ j y, j ≠ i → s.Held j y → y ≠ x := by
    rintro j y hji hj rfl
    exact hji (hs.uniq j i hj.ref hi.ref (hj.inum.trans hi.inum.symm))
  funext y
  by_cases hyx : y = x
  · subst hyx
    rw [Function.update_self]
    refine view_of_not_held fun j hj => ?_
    obtain ⟨hj, hji⟩ := (held_drop hentry href).mp hj
    exact hother j y hji hj rfl
  · rw [Function.update_of_ne hyx]
    by_cases hheld : ∃ j, s.Held j y
    · obtain ⟨j, hj⟩ := hheld
      have hji : j ≠ i := by
        rintro rfl
        exact hyx (hj.inum.symm.trans hi.inum)
      rw [hs.view_eq hj, ht.view_eq ((held_drop hentry href).mpr ⟨hj, hji⟩), hentry j hji]
    · have hnone := not_exists.mp hheld
      rw [view_of_not_held hnone, view_of_not_held fun j hj => hnone j ((held_drop hentry href).mp hj).1,
        hdisk y hyx]

theorem clean_drop (hs : s.Table) (hi : s.At i x) (hentry : ∀ j, j ≠ i → t.itable j = s.itable j)
    (href : (t.itable i).ref = 0) (hdisk : ∀ y, y ≠ x → t.dinode y = s.dinode y) (hc : s.Clean) :
    t.Clean := by
  intro j y hj
  obtain ⟨hj, hji⟩ := (held_drop hentry href).mp hj
  have hyx : y ≠ x := by
    rintro rfl
    exact hji (hs.uniq j i hj.ref hi.ref (hj.inum.trans hi.inum.symm))
  rw [hentry j hji, hdisk y hyx]
  exact hc j y hj

-- The code between two updates of inode x touches the copy in entry i, the
-- bitmap and the data blocks, and no other dinode.
structure Edit (i : Ip) (x : ℕ) (s t : Fs) : Prop where
  sb : t.sb = s.sb
  outstanding : t.outstanding = s.outstanding
  entry : ∀ j, j ≠ i → t.itable j = s.itable j
  self : t.itable i = { s.itable i with copy := (t.itable i).copy }
  dinode : ∀ y, y ≠ x → t.dinode y = s.dinode y

namespace Edit

theorem refl (i : Ip) (x : ℕ) (s : Fs) : Edit i x s s := ⟨rfl, rfl, fun _ _ => rfl, rfl, fun _ _ => rfl⟩

theorem trans {u : Fs} (h : Edit i x s t) (h' : Edit i x t u) : Edit i x s u where
  sb := h'.sb.trans h.sb
  outstanding := h'.outstanding.trans h.outstanding
  entry j hj := (h'.entry j hj).trans (h.entry j hj)
  self := by
    rw [h'.self, h.self]
  dinode y hy := (h'.dinode y hy).trans (h.dinode y hy)

theorem fields (h : Edit i x s t) (j : Ip) :
    (t.itable j).dev = (s.itable j).dev ∧ (t.itable j).inum = (s.itable j).inum ∧
    (t.itable j).ref = (s.itable j).ref ∧ (t.itable j).valid = (s.itable j).valid ∧
    (t.itable j).lock = (s.itable j).lock := by
  by_cases hj : j = i
  · subst hj
    rw [h.self]
    exact ⟨rfl, rfl, rfl, rfl, rfl⟩
  · rw [h.entry j hj]
    exact ⟨rfl, rfl, rfl, rfl, rfl⟩

theorem held (h : Edit i x s t) {y : ℕ} : t.Held j y ↔ s.Held j y := by
  obtain ⟨-, hinum, href, hvalid, -⟩ := h.fields j
  constructor
  · intro hj
    exact ⟨⟨href ▸ hj.ref, hinum ▸ hj.inum⟩, hvalid ▸ hj.valid⟩
  · intro hj
    exact ⟨⟨href ▸ hj.ref, hinum ▸ hj.inum⟩, hvalid ▸ hj.valid⟩

theorem table (h : Edit i x s t) (hs : s.Table) (htype : (t.itable i).copy.type ≠ .free) : t.Table where
  dev j hj := by
    obtain ⟨hdev, -, href, -, -⟩ := h.fields j
    rw [hdev]
    exact hs.dev j (href ▸ hj)
  uniq j k hj hk hjk := by
    rw [(h.fields j).2.1, (h.fields k).2.1] at hjk
    exact hs.uniq j k ((h.fields j).2.2.1 ▸ hj) ((h.fields k).2.2.1 ▸ hk) hjk
  typed j hj hv := by
    by_cases hji : j = i
    · rwa [hji]
    · rw [h.entry j hji] at hj hv ⊢
      exact hs.typed j hj hv

theorem clean (h : Edit i x s t) (hs : s.Table) (hi : s.Held i x) (hc : s.Clean)
    (hback : (t.itable i).copy = t.dinode x) : t.Clean := by
  intro j y hj
  have hj := h.held.mp hj
  by_cases hji : j = i
  · subst hji
    rw [hback, ← hj.inum, hi.inum]
  · rw [h.entry j hji, h.dinode y (hi.at_ne hs hj.toAt hji)]
    exact hc j y hj

theorem view (h : Edit i x s t) (hs : s.Table) (hi : s.Held i x) (htype : (t.itable i).copy.type ≠ .free) :
    t.view = Function.update s.view x (t.itable i).copy := by
  have ht := h.table hs htype
  funext y
  by_cases hyx : y = x
  · subst hyx
    rw [Function.update_self, ht.view_eq (h.held.mpr hi)]
  · rw [Function.update_of_ne hyx]
    by_cases hheld : ∃ j, s.Held j y
    · obtain ⟨j, hj⟩ := hheld
      have hji : j ≠ i := by
        rintro rfl
        exact hyx (hj.inum.symm.trans hi.inum)
      rw [hs.view_eq hj, ht.view_eq (h.held.mpr hj), h.entry j hji]
    · have hnone := not_exists.mp hheld
      rw [view_of_not_held hnone, view_of_not_held fun j hj => hnone j (h.held.mp hj), h.dinode y hyx]

theorem vol (h : Edit i x s t) (hs : s.Table) (hi : s.Held i x) (htype : (t.itable i).copy.type ≠ .free) :
    t.vol = (Vol.mk s.view t.bitmap t.data).setView x (t.itable i).copy := by
  rw [Fs.vol, h.view hs hi htype]
  rfl

end Edit

end Fs

end Xv6
