import Xv6.Fs.Bytes
import Xv6.Fs.Dir
import Xv6.Fs.Tree

namespace Xv6

open Wp
open Function (update update_of_ne update_self)

-- Names are compared up to DIRSIZ characters, so padding does not matter.
theorem strncmp_congr (n : ℕ) (p q q' : List UInt8) (h : ∀ k < n, q.getD k 0 = q'.getD k 0) :
    strncmp n p q = strncmp n p q' := by
  induction n generalizing p q q' with
  | zero => rfl
  | succ n ih =>
      have hhead : ∀ l : List UInt8, l.headD 0 = l.getD 0 0 := fun l => by cases l <;> rfl
      have htail : ∀ (l : List UInt8) k, l.tail.getD k 0 = l.getD (k + 1) 0 := fun l k => by
        cases l <;> simp
      have hrest := ih p.tail q.tail q'.tail fun k hk => by
        rw [htail, htail]
        exact h (k + 1) (by omega)
      rw [strncmp, strncmp, hrest, hhead q, hhead q', h 0 (by omega)]

theorem namecmp_padded (p q : Name) : namecmp p (padded q) = namecmp p q := by
  refine strncmp_congr _ _ _ _ fun k hk => ?_
  unfold padded
  rw [List.getD_eq_getElem?_getD, List.getElem?_map, List.getElem?_range hk]
  rfl

def Dirent.stored (de : Dirent) : Dirent := ⟨de.inum % 2 ^ 16, padded de.name⟩

theorem Dirent.load_bytes (de : Dirent) : Dirent.load de.bytes = de.stored := by
  unfold Dirent.load Dirent.stored padded
  refine congrArg₂ Dirent.mk ?_ (List.map_congr_left fun k _ => ?_)
  · rw [show (2 : ℕ) ^ 16 = 256 ^ 2 by rfl, ← Bytes.load_store (fun _ => 0) 0 2 de.inum]
    refine Bytes.load_congr _ _ _ _ fun k _ hk => ?_
    rw [Dirent.bytes, Bytes.store, if_pos (by omega), if_pos (by omega), Nat.sub_zero]
  · rw [Dirent.bytes, if_neg (by omega), Nat.add_sub_cancel_left]

namespace Fs

variable {s t u : Fs} {i j : Ip} {x y : ℕ}

theorem dirent_congr {v w : Vol} {k : ℕ}
    (h : ∀ o, DIRENTSIZE * k ≤ o → o < DIRENTSIZE * k + DIRENTSIZE → w.byte x o = v.byte x o) :
    w.dirent x k = v.dirent x k :=
  Dirent.load_congr fun j hj => h _ (by omega) (by omega)

-- Entry m of directory x has been written, or there was no block for it.
structure Stores (i : Ip) (x m : ℕ) (de : Dirent) (s : Fs) (r : Int) (t : Fs) : Prop extends Writes i x s t where
  keep : ∀ k, k ≠ m ∨ r ≠ DIRENTSIZE → DIRENTSIZE * k + DIRENTSIZE ≤ (s.view x).size →
    t.vol.dirent x k = s.vol.dirent x k
  size : (t.view x).size = if r = DIRENTSIZE then max (s.view x).size (DIRENTSIZE * m + DIRENTSIZE)
    else (s.view x).size
  entry : r = DIRENTSIZE → t.vol.dirent x m = de.stored

-- A dirent does not cross a block: it is written as a whole.
theorem writeDirent_spec (hs : s.Ok) (hi : s.Held i x) (de : Dirent) {m : ℕ} (hm : DIRENTSIZE * m ≤ (s.view x).size) :
    wp (writeDirent i de (DIRENTSIZE * m)) (Stores i x m de s) (fun _ => False) s := by
  have hsrc : (⟨de.bytes, none⟩ : Source).Readable DIRENTSIZE := fun _ h => by cases h
  refine wp_post (writei_bytes hs hi (by decide) hsrc) ?_
  rintro r t ⟨hrefused, htaken⟩
  by_cases hr : Refused (s.view x).size (DIRENTSIZE * m) DIRENTSIZE
  · obtain ⟨rfl, rfl⟩ := hrefused hr
    refine ⟨⟨.refl i x t, hs, .refl x _, fun h => h⟩, fun _ _ _ => rfl, ?_, fun h => absurd h (by decide)⟩
    rw [if_neg (by decide)]
  · obtain ⟨tot, rfl, h⟩ := htaken hr
    have hsize := h.size
    have htot : tot = 0 ∨ tot = DIRENTSIZE := by
      have hedge := h.edge
      have hle := h.le
      simp only [DIRENTSIZE, BSIZE] at hedge hle ⊢
      omega
    refine ⟨h.toWrites, fun k hk hle => dirent_congr fun o ho ho' => ?_, ?_, fun hall => ?_⟩
    · rw [h.byte o (by omega), if_neg]
      simp only [DIRENTSIZE] at hk htot ho ho' ⊢
      omega
    · rw [hsize]
      split
      · rename_i hall
        rw [show tot = DIRENTSIZE by omega]
      · rename_i hnone
        have htot : tot = 0 := htot.resolve_right fun hall => hnone (congrArg _ hall)
        omega
    · have hall : tot = DIRENTSIZE := by omega
      rw [← Dirent.load_bytes]
      refine Dirent.load_congr fun j hj => ?_
      rw [h.byte _ (by omega), if_pos (by omega), Nat.add_sub_cancel_left]

end Fs

def Vol.tree (v : Vol) : Tree where
  type x := (v.view x).type
  nlink x := (v.view x).nlink.toNat
  ent d k := if (v.view d).type = .dir ∧ k < direntCount (v.view d).size then v.dirent d k else ⟨0, []⟩

def Vol.Whole (v : Vol) : Prop := ∀ d, (v.view d).type = .dir → (v.view d).size % DIRENTSIZE = 0

namespace Vol

variable {v w : Vol} {x d k : ℕ}

theorem ent_tree (hdir : (v.view d).type = .dir) (hk : k < direntCount (v.view d).size) :
    v.tree.ent d k = v.dirent d k := if_pos ⟨hdir, hk⟩

theorem tree_ext (htype : ∀ y, (w.view y).type = (v.view y).type) (hnlink : ∀ y, (w.view y).nlink = (v.view y).nlink)
    (hent : ∀ d k, (v.view d).type = .dir → w.tree.ent d k = v.tree.ent d k) : w.tree = v.tree := by
  unfold Vol.tree at *
  congr 1
  · exact funext htype
  · exact funext fun y => by rw [hnlink y]
  · refine funext fun d => funext fun k => ?_
    by_cases hd : (v.view d).type = .dir
    · exact hent d k hd
    · simp only [htype d, hd, false_and, if_false]

theorem dirent_setView_of_ne {y : ℕ} {f : Dinode} (hy : y ≠ x) (k : ℕ) :
    (v.setView x f).dirent y k = v.dirent y k := by
  unfold dirent byte block
  rw [view_setView_of_ne v f hy]
  rfl

theorem dirent_setView {f : Dinode} (haddrs : f.addrs = (v.view x).addrs) (y k : ℕ) :
    (v.setView x f).dirent y k = v.dirent y k := by
  unfold dirent
  simp only [byte_setView v haddrs]

-- A change of the link count and the device numbers.
theorem tree_setView {f : Dinode} (haddrs : f.addrs = (v.view x).addrs) (hsize : f.size = (v.view x).size)
    (htype : f.type = (v.view x).type) : (v.setView x f).tree = v.tree.setNlink x f.nlink.toNat := by
  have hview : ∀ y, ((v.setView x f).view y).type = (v.view y).type ∧
      ((v.setView x f).view y).size = (v.view y).size ∧ ((v.setView x f).view y).nlink.toNat =
        update (fun y => (v.view y).nlink.toNat) x f.nlink.toNat y := by
    intro y
    by_cases hy : y = x
    · subst hy
      rw [view_setView, update_self]
      exact ⟨htype, hsize, rfl⟩
    · rw [view_setView_of_ne _ _ hy, update_of_ne hy]
      exact ⟨rfl, rfl, rfl⟩
  unfold tree Tree.setNlink
  congr 1
  · exact funext fun y => (hview y).1
  · exact funext fun y => (hview y).2.2
  · refine funext fun y => funext fun k => ?_
    rw [(hview y).1, (hview y).2.1, dirent_setView haddrs]

theorem tree_alloc (hfree : (v.view x).type = .free) (type : FileType) :
    (v.setView x (.zero type)).tree = v.tree.alloc x type := by
  unfold tree Tree.alloc
  congr 1
  · funext y
    by_cases hy : y = x
    · subst hy
      rw [view_setView, update_self]
      rfl
    · rw [view_setView_of_ne _ _ hy, update_of_ne hy]
  · funext y
    by_cases hy : y = x
    · subst hy
      rw [view_setView, update_self]
      rfl
    · rw [view_setView_of_ne _ _ hy, update_of_ne hy]
  · funext y k
    by_cases hy : y = x
    · subst hy
      rw [view_setView, if_neg (by simp [Dinode.zero, direntCount, DIRENTSIZE])]
      exact (if_neg (by simp [hfree])).symm
    · rw [view_setView_of_ne _ _ hy, dirent_setView_of_ne hy]

end Vol

namespace Fs

variable {s t u : Fs} {i j : Ip} {x y m : ℕ} {de : Dirent} {r : Int}

theorem Puts.tree (h : Puts i x s t) : s.vol.tree.Put x t.vol.tree := by
  rcases h.effect with heq | ⟨-, hnlink, hfree⟩
  · exact .inl (by rw [heq])
  · refine .inr ⟨?_, ?_⟩
    · change (s.view x).nlink.toNat = 0
      rw [hnlink]
      rfl
    · unfold Vol.tree Tree.free
      congr 1
      · funext y
        by_cases hy : y = x
        · subst hy
          rw [update_self]
          exact hfree
        · rw [update_of_ne hy]
          exact congrArg Dinode.type (h.other y hy)
      · funext y
        by_cases hy : y = x
        · subst hy
          exact congrArg BitVec.toNat h.nlink
        · exact congrArg (fun d => d.nlink.toNat) (h.other y hy)
      · funext y k
        by_cases hy : y = x
        · subst hy
          rw [update_self, if_neg]
          rintro ⟨hdir, -⟩
          change (t.view y).type = _ at hdir
          rw [hfree] at hdir
          cases hdir
        · have hview : t.vol.view y = s.vol.view y := h.other y hy
          have hdata : t.vol.data = s.vol.data := h.data
          rw [update_of_ne hy]
          unfold Vol.dirent Vol.byte Vol.block
          rw [hview, hdata]

theorem Writes.ent_other (h : Writes i x s t) (hs : s.Ok) (hwhole : s.vol.Whole) (hy : y ≠ x) (k : ℕ) :
    t.vol.tree.ent y k = s.vol.tree.ent y k := by
  have hview : t.vol.view y = s.vol.view y := h.grows.other y hy
  unfold Vol.tree
  simp only [hview]
  split
  · rename_i hk
    refine dirent_congr fun o ho ho' => byte_other h.grows hs.own hs.filled hy ?_
    have := hwhole y hk.1
    have := hk.2
    simp only [direntCount, DIRENTSIZE] at *
    omega
  · rfl

theorem Stores.ent_self (h : Stores i x m de s r t) (hwhole : s.vol.Whole)
    (hm : DIRENTSIZE * m ≤ (s.view x).size) (hdir : (s.view x).type = .dir) (k : ℕ) :
    t.vol.tree.ent x k = if k = m ∧ r = DIRENTSIZE then de.stored else s.vol.tree.ent x k := by
  have hsize : (t.vol.view x).size = _ := h.size
  have hmod : (s.view x).size % DIRENTSIZE = 0 := hwhole x hdir
  have htype : (t.vol.view x).type = .dir := h.grows.type.trans hdir
  split
  · rename_i hk
    rw [hk.1, Vol.ent_tree htype, h.entry hk.2]
    rw [hsize, if_pos hk.2]
    simp only [direntCount, DIRENTSIZE] at hm ⊢
    omega
  · rename_i hk
    have hiff : k < direntCount (t.vol.view x).size ↔ k < direntCount (s.vol.view x).size := by
      rw [hsize]
      change _ ↔ k < direntCount (s.view x).size
      split
      · rename_i hr
        have hkm : k ≠ m := fun hkm => hk ⟨hkm, hr⟩
        simp only [direntCount, DIRENTSIZE] at hm hmod ⊢
        omega
      · rfl
    by_cases hlt : k < direntCount (s.vol.view x).size
    · rw [Vol.ent_tree htype (hiff.mpr hlt), Vol.ent_tree hdir hlt]
      refine h.keep k (not_and_or.mp hk) ?_
      change k < direntCount (s.view x).size at hlt
      simp only [direntCount, DIRENTSIZE] at hlt hmod ⊢
      omega
    · exact (if_neg fun hk => hlt (hiff.mp hk.2)).trans (if_neg fun hk => hlt hk.2).symm

theorem Stores.tree (h : Stores i x m de s r t) (hs : s.Ok) (hwhole : s.vol.Whole)
    (hm : DIRENTSIZE * m ≤ (s.view x).size) (hdir : (s.view x).type = .dir) :
    t.vol.tree = if r = DIRENTSIZE then s.vol.tree.setEnt x m de.stored else s.vol.tree := by
  have hview : ∀ y, (t.vol.view y).type = (s.vol.view y).type ∧ (t.vol.view y).nlink = (s.vol.view y).nlink := by
    intro y
    by_cases hy : y = x
    · rw [hy]
      exact ⟨h.grows.type, h.grows.nlink⟩
    · rw [h.grows.other y hy]
      exact ⟨rfl, rfl⟩
  have hent : ∀ y k, t.vol.tree.ent y k =
      (if r = DIRENTSIZE then s.vol.tree.setEnt x m de.stored else s.vol.tree).ent y k := by
    intro y k
    by_cases hy : y = x
    · subst hy
      rw [h.ent_self hwhole hm hdir]
      by_cases hr : r = DIRENTSIZE
      · by_cases hk : k = m
        · rw [if_pos ⟨hk, hr⟩, if_pos hr, hk, Tree.ent_setEnt]
        · rw [if_neg fun h => hk h.1, if_pos hr, Tree.ent_setEnt_of_ne fun h => hk h.2]
      · rw [if_neg fun h => hr h.2, if_neg hr]
    · rw [h.ent_other hs hwhole hy]
      split
      · rw [Tree.ent_setEnt_of_ne fun h => hy h.1]
      · rfl
  have htype : t.vol.tree.type = s.vol.tree.type := funext fun y => (hview y).1
  have hnlink : t.vol.tree.nlink = s.vol.tree.nlink := funext fun y => congrArg BitVec.toNat (hview y).2
  refine Tree.ext ?_ ?_ (funext fun y => funext fun k => hent y k)
  · rw [htype]
    split <;> rfl
  · rw [hnlink]
    split <;> rfl

theorem Stores.whole (h : Stores i x m de s r t) (hwhole : s.vol.Whole) (hdir : (s.view x).type = .dir) :
    t.vol.Whole := by
  intro d hd
  by_cases hdx : d = x
  · have := hwhole x hdir
    subst hdx
    change (t.view d).size % _ = 0
    rw [h.size]
    change (s.view d).size % _ = 0 at this
    split <;> simp only [DIRENTSIZE] at this ⊢ <;> omega
  · rw [h.grows.other d hdx] at hd ⊢
    exact hwhole d hd

end Fs

end Xv6
