import Xv6.Fs.Calls
import Xv6.Fs.Entries

namespace Xv6

open Wp

def NotNoType (e : FsStop) : Prop := e ≠ .panic .ilockNoType

namespace Fs

-- What every operation keeps, whatever it does to the directories.
structure Sane (s : Fs) : Prop where
  ok : s.Ok
  clean : s.Clean
  whole : s.vol.Whole
  typed : ∀ i x, s.At i x → (s.view x).type ≠ .free
  small : s.sb.ninodes ≤ 2 ^ 16

structure Linked (s : Fs) (e : ℕ) : Prop extends s.Sane where
  tree : s.vol.tree.Ok e

-- From s to t a call has taken the references L and has at most freed inodes.
structure Rests (e : ℕ) (s t : Fs) (L : List Ip) : Prop extends s.Net t L where
  linked : t.Linked e
  shrinks : s.vol.tree.Shrinks t.vol.tree

variable {s t u : Fs} {i j dp ip cwd : Ip} {x y e : ℕ} {L L' : List Ip}

theorem Sane.of_net (hs : s.Sane) (hnet : Net s t L) (hwhole : t.vol.Whole)
    (htype : ∀ y, (s.view y).type ≠ .free → (t.view y).type ≠ .free)
    (hL : ∀ j ∈ L, (t.view (t.itable j).inum).type ≠ .free) : t.Sane where
  ok := hnet.ok
  clean := hnet.clean
  whole := hwhole
  typed i x hi := by
    by_cases hpos : 0 < (s.itable i).ref
    · refine htype x (hs.typed i x ⟨hpos, ?_⟩)
      rw [← (hnet.keep i hpos).inum, hi.inum]
    · have hmem : i ∈ L := List.count_pos_iff.mp (by
        have := hnet.ref i
        have := hi.ref
        omega)
      rw [← hi.inum]
      exact hL i hmem
  small := by
    rw [hnet.sb]
    exact hs.small

-- The inode table has changed, the volume has not.
theorem Sane.of_vol (hs : s.Sane) (hnet : Net s t L) (hvol : t.vol = s.vol)
    (hL : ∀ j ∈ L, (t.view (t.itable j).inum).type ≠ .free) : t.Sane := by
  have hview : t.view = s.view := congrArg Vol.view hvol
  exact hs.of_net hnet (hvol ▸ hs.whole) (fun y hy => by rwa [hview]) hL

theorem Linked.of_vol (hs : s.Linked e) (hnet : Net s t L) (hvol : t.vol = s.vol)
    (hL : ∀ j ∈ L, (t.view (t.itable j).inum).type ≠ .free) : t.Linked e :=
  ⟨hs.toSane.of_vol hnet hvol hL, hvol ▸ hs.tree⟩

namespace Linked

theorem pos (hs : s.Linked e) (hi : s.At i x) : x ≠ 0 := by
  rintro rfl
  exact hs.typed i 0 hi hs.tree.zero

theorem settle (hs : s.Linked e) (htree : s.vol.tree.Ok 0) : s.Linked 0 := ⟨hs.toSane, htree⟩

end Linked

namespace Rests

theorem trans (h : Rests e s t L) (h' : Rests e t u L') : Rests e s u (L' ++ L) :=
  ⟨h.toNet.trans h'.toNet, h'.linked, Relation.ReflTransGen.trans h.shrinks h'.shrinks⟩

theorem swap (h : Rests e s t [i, j]) : Rests e s t [j, i] :=
  ⟨h.toNet.perm (List.Perm.swap ..), h.linked, h.shrinks⟩

theorem of_vol (hs : s.Linked e) (hnet : Net s t L) (hvol : t.vol = s.vol)
    (hL : ∀ j ∈ L, (t.view (t.itable j).inum).type ≠ .free) : Rests e s t L :=
  ⟨hnet, hs.of_vol hnet hvol hL, by rw [hvol]; exact .refl⟩

theorem of_vol_nil (hs : s.Linked e) (hnet : Net s t []) (hvol : t.vol = s.vol) : Rests e s t [] :=
  of_vol hs hnet hvol fun _ hj => absurd hj List.not_mem_nil

end Rests

theorem Sane.put (hs : s.Sane) (hi : s.At i x) (hp : Puts i x s t) : t.Sane where
  ok := hp.ok
  clean := hp.clean
  whole := by
    intro d hd
    by_cases hdx : d = x
    · rcases hp.effect with heq | ⟨-, -, hfree⟩
      · rw [heq] at hd ⊢
        exact hs.whole d hd
      · rw [hdx] at hd
        change (t.view x).type = _ at hd
        rw [hfree] at hd
        cases hd
    · have hview : t.vol.view d = s.vol.view d := hp.other d hdx
      rw [hview] at hd ⊢
      exact hs.whole d hd
  typed j y hj := by
    by_cases hji : j = i
    · -- An inode that is still referenced has not been freed.
      subst hji
      rcases hp.effect with heq | ⟨href, -, -⟩
      · have hyx : (s.itable j).inum = y := by rw [← (hp.keep hj.ref).inum, hj.inum]
        have hview : t.view = s.view := congrArg Vol.view heq
        rw [hview]
        exact hs.typed j y ⟨hi.ref, hyx⟩
      · have := hp.ref
        have := hj.ref
        omega
    · have hj' : s.At j y := by
        have := hp.entry j hji
        exact ⟨this ▸ hj.ref, this ▸ hj.inum⟩
      have hyx : y ≠ x := by
        rintro rfl
        exact hji (hs.ok.table.uniq j i hj'.ref hi.ref (hj'.inum.trans hi.inum.symm))
      rw [hp.other y hyx]
      exact hs.typed j y hj'
  small := by
    rw [hp.sb]
    exact hs.small

theorem ilock_rests (hs : s.Linked e) (hi : s.At i x) :
    wp (ilock i) (fun _ t => Rests e s t [] ∧ t.vol = s.vol ∧ t.Held i x) NotNoType s := by
  refine wp_mono (ilock_spec hs.ok.table hi) ?_ ?_
  · rintro _ t ⟨hq, href, hheld⟩
    exact ⟨.of_vol_nil hs (.of_quiet_same hs.ok hs.clean hq href) hq.vol, hq.vol, hheld⟩
  · rintro e (rfl | ⟨rfl, hfree⟩)
    · simp [NotNoType]
    · refine absurd ?_ (hs.typed i x hi)
      rw [hs.clean.view_eq hs.ok.table]
      exact hfree

theorem iunlock_rests (hs : s.Linked e) (hi : s.At i x) :
    wp (iunlock i) (fun _ t => Rests e s t [] ∧ t.vol = s.vol) NotNoType s := by
  refine wp_mono (iunlock_spec hs.ok.table hi) ?_ ?_
  · rintro _ t ⟨hq, href⟩
    exact ⟨.of_vol_nil hs (.of_quiet_same hs.ok hs.clean hq href) hq.vol, hq.vol⟩
  · rintro e rfl
    simp [NotNoType]

theorem iput_sane (hs : s.Sane) (hi : s.At i x) :
    wp (iput i) (fun _ t => Puts i x s t ∧ t.Sane) NotNoType s := by
  refine wp_mono (iput_spec hs.ok hs.clean hi) (fun _ t hp => ⟨hp, hs.put hi hp⟩) ?_
  rintro e rfl
  simp [NotNoType]

theorem iunlockput_sane (hs : s.Sane) (hi : s.At i x) :
    wp (iunlockput i) (fun _ t => t.Sane ∧ ∃ s', Net s s' [] ∧ s'.vol = s.vol ∧ Puts i x s' t) NotNoType s := by
  unfold iunlockput
  rw [wp_bind]
  refine wp_mono (iunlock_spec hs.ok.table hi) ?_ ?_
  · rintro _ s' ⟨hq, href⟩
    have hnet := Net.of_quiet_same hs.ok hs.clean hq href
    exact wp_post (iput_sane (hs.of_vol hnet hq.vol fun _ hj => absurd hj List.not_mem_nil) (hnet.handle hi))
      fun _ t ht => ⟨ht.2, s', hnet, hq.vol, ht.1⟩
  · rintro e rfl
    simp [NotNoType]

theorem iput_linked (hs : s.Linked e) (hi : s.At i x) :
    wp (iput i) (fun _ t => Puts i x s t ∧ t.Linked e) NotNoType s :=
  wp_post (iput_sane hs.toSane hi) fun _ _ h => ⟨h.1, h.2, h.1.tree.ok hs.tree (hs.pos hi)⟩

theorem iunlockput_linked (hs : s.Linked e) (hi : s.At i x) :
    wp (iunlockput i) (fun _ t => t.Linked e ∧ ∃ s', Net s s' [] ∧ s'.vol = s.vol ∧ Puts i x s' t) NotNoType s := by
  refine wp_post (iunlockput_sane hs.toSane hi) ?_
  rintro _ t ⟨hsane, s', hnet, hvol, hp⟩
  exact ⟨⟨hsane, hp.tree.ok (hvol ▸ hs.tree) (hs.pos hi)⟩, s', hnet, hvol, hp⟩

theorem Rests.put (h : Rests e s t (i :: L)) (hi : t.At i x) (hp : Puts i x t u) (hu : u.Linked e) :
    Rests e s u L :=
  ⟨h.toNet.put hp, hu, Relation.ReflTransGen.tail h.shrinks ⟨x, h.linked.pos hi, hp.tree⟩⟩

theorem iput_rests (h : Rests e s t (i :: L)) : wp (iput i) (fun _ u => Rests e s u L) NotNoType t := by
  have hi := h.at_of_mem List.mem_cons_self
  exact wp_post (iput_linked h.linked hi) fun _ u hu => h.put hi hu.1 hu.2

theorem iunlockput_rests (h : Rests e s t (i :: L)) :
    wp (iunlockput i) (fun _ u => Rests e s u L) NotNoType t := by
  unfold iunlockput
  rw [wp_bind]
  refine wp_post (iunlock_rests h.linked (h.at_of_mem List.mem_cons_self)) ?_
  rintro _ t' ⟨h', -⟩
  exact iput_rests (h.trans h')

-- Every entry a lookup can find names an inode in use.
theorem dirlookup_rests (hs : s.Linked e) (hi : s.Held i x) (hx : x ≠ e) (name : Name) :
    wp (dirlookup i name) (fun r t => (s.view x).type = .dir ∧ t.vol = s.vol ∧ match r with
      | none => t = s ∧ NoName s.vol x name 0 (direntCount (s.view x).size)
      | some (j, off) => Rests e s t [j] ∧ ∃ m, m < direntCount (s.view x).size ∧ off = DIRENTSIZE * m ∧
          Found x name m s j t) NotNoType s := by
  refine wp_mono (dirlookup_spec hs.ok hi name) ?_ ?_
  · rintro (_ | ⟨j, off⟩) t ⟨hdir, ht⟩
    · exact ⟨hdir, by rw [ht.1], ht⟩
    · obtain ⟨m, hm, hoff, hfound⟩ := ht
      refine ⟨hdir, hfound.quiet.vol, .of_vol hs (.of_quiet_one hs.ok hs.clean hfound.quiet hfound.ref)
        hfound.quiet.vol ?_, m, hm, hoff, hfound⟩
      intro k hk
      rw [List.mem_singleton.mp hk, hfound.handle.inum, hfound.quiet.view]
      have hent := hs.tree.type_ent (k := m) hx
      rw [Vol.ent_tree hdir hm] at hent
      exact hent hfound.used
  · rintro e (rfl | rfl | ⟨rfl, -⟩) <;> simp [NotNoType]

theorem namexLoop_rests (parent : Bool) (names : List Name) (h : Rests 0 s t [ip]) :
    wp (namexLoop parent names ip) (fun r u => match r with
      | none => Rests 0 s u []
      | some (j, _) => Rests 0 s u [j]) NotNoType t := by
  induction names generalizing t ip with
  | nil =>
      unfold namexLoop
      simp only [wp_ite, wp_bind, wp_pure]
      split
      · exact iput_rests h
      · exact h
  | cons name rest ih =>
      unfold namexLoop
      simp only [wp_bind, wp_get, wp_ite, wp_pure]
      refine wp_post (ilock_rests h.linked (h.at_of_mem List.mem_cons_self)) ?_
      rintro _ t₁ ⟨h₁, -, hheld⟩
      have h₁ : Rests 0 s t₁ [ip] := h.trans h₁
      split
      · exact iunlockput_rests h₁
      · split
        · exact wp_post (iunlock_rests h₁.linked hheld.toAt) fun _ _ h => h₁.trans h.1
        · refine wp_post (dirlookup_rests h₁.linked hheld (h₁.linked.pos hheld.toAt) name) ?_
          rintro (_ | ⟨next, off⟩) t₂ ⟨-, -, h₂⟩
          · simp only [wp_bind, wp_pure]
            rw [h₂.1]
            exact iunlockput_rests h₁
          · simp only [wp_bind]
            exact wp_post (iunlockput_rests (h₁.trans h₂.1).swap) fun _ _ h => ih h

theorem namex_rests (hs : s.Linked 0) (hcwd : s.At cwd x) (path : List UInt8) (parent : Bool) :
    wp (namex cwd path parent) (fun r t => match r with
      | none => Rests 0 s t []
      | some (j, _) => Rests 0 s t [j]) NotNoType s := by
  unfold namex
  simp only [wp_bind, wp_ite]
  split
  · refine wp_mono (iget_spec hs.ok.table ROOTINO) ?_ ?_
    · rintro i t ⟨hq, href, hat⟩
      refine namexLoop_rests parent _ (.of_vol hs (.of_quiet_one hs.ok hs.clean hq href) hq.vol ?_)
      intro j hj
      rw [List.mem_singleton.mp hj, hat.inum, hq.view]
      have : (s.view ROOTINO).type = .dir := hs.tree.root.1
      rw [this]
      decide
    · rintro e rfl
      simp [NotNoType]
  · refine wp_mono (idup_spec hs.ok.table hcwd) ?_ fun _ h => h.elim
    rintro _ t ⟨rfl, hq, href, hat⟩
    refine namexLoop_rests parent _ (.of_vol hs (.of_quiet_one hs.ok hs.clean hq href) hq.vol ?_)
    intro j hj
    rw [List.mem_singleton.mp hj, hat.inum, hq.view]
    exact hs.typed _ x hcwd

theorem namei_rests (hs : s.Linked 0) (hcwd : s.At cwd x) (path : List UInt8) :
    wp (namei cwd path) (fun r t => Rests 0 s t r.toList) NotNoType s := by
  unfold namei
  simp only [wp_bind, wp_pure]
  refine wp_post (namex_rests hs hcwd path false) ?_
  rintro (_ | ⟨j, name⟩) t h
  · exact h
  · exact h

theorem Stores.sane {m : ℕ} {de : Dirent} {r : Int} (h : Stores i x m de s r t) (hs : s.Sane) (hi : s.Held i x)
    (hdir : (s.view x).type = .dir) : Net s t [] ∧ t.Sane := by
  have hnet : Net s t [] := .of_edit hs.ok.table hi h.edit h.ok (h.clean hs.clean) h.grows.type
  refine ⟨hnet, hs.of_net hnet (h.whole hs.whole hdir) ?_ fun _ hj => absurd hj List.not_mem_nil⟩
  intro y hy
  by_cases hyx : y = x
  · rw [hyx] at hy ⊢
    exact fun hfree => hy (h.grows.type ▸ hfree)
  · have : t.view y = s.view y := h.grows.other y hyx
    rwa [this]

-- The first empty entry of directory x gets name and inum, or there is no block for it.
structure Adds (x : ℕ) (name : Name) (inum : ℕ) (s : Fs) (r : Int) (t : Fs) : Prop extends Net s t [] where
  sane : t.Sane
  ret : r = 0 ∨ r = -1
  added : ∃ m, m ≤ direntCount (s.view x).size ∧ (s.vol.tree.ent x m).inum = 0 ∧
    (∀ k < m, (s.vol.tree.ent x k).inum ≠ 0) ∧
    t.vol.tree = if r = 0 then s.vol.tree.setEnt x m ⟨inum % 2 ^ 16, padded name⟩ else s.vol.tree
  other : ∀ y, y ≠ x → t.vol.view y = s.vol.view y

theorem dirlink_adds (hs : s.Sane) (hi : s.Held i x) (hdir : (s.view x).type = .dir) (name : Name) (inum : ℕ) :
    wp (do
      let off ← emptyLoop i (direntCount ((← get).itable i).copy.size) 0
      let r ← writeDirent i ⟨inum, name⟩ off
      return if r = DIRENTSIZE then (0 : Int) else -1) (Adds x name inum s) NotNoType s := by
  have hview := hs.ok.table.view_eq hi
  simp only [wp_bind, wp_get, wp_pure]
  refine wp_mono (emptyLoop_spec hs.ok hi _ 0 (.inl (Nat.zero_add _))) ?_ ?_
  · rintro off t ⟨rfl, m, rfl, -, hm, hempty, hbefore⟩
    rw [Nat.zero_add, ← hview] at hm hempty
    have hle : DIRENTSIZE * m ≤ (t.view x).size := by
      have : (t.view x).size % DIRENTSIZE = 0 := hs.whole x hdir
      simp only [direntCount, DIRENTSIZE] at hm this ⊢
      omega
    refine wp_mono (writeDirent_spec hs.ok hi ⟨inum, name⟩ hle) ?_ fun _ h => h.elim
    intro r u hstore
    have htree := hstore.tree hs.ok hs.whole hle hdir
    obtain ⟨hnet, hsane⟩ := hstore.sane hs hi hdir
    refine ⟨hnet, hsane, by split <;> simp, ⟨m, hm, ?_, ?_, ?_⟩, hstore.grows.other⟩
    · by_cases hlt : m < direntCount (t.view x).size
      · rw [Vol.ent_tree hdir hlt]
        exact hempty hlt
      · exact congrArg Dirent.inum (if_neg fun h => hlt h.2)
    · intro k hk
      rw [Vol.ent_tree hdir (show k < direntCount (t.view x).size by omega)]
      exact hbefore k (Nat.zero_le _) hk
    · rw [htree]
      by_cases hr : r = DIRENTSIZE
      · simp [hr, Dirent.stored]
      · simp [hr]
  · rintro e rfl
    simp [NotNoType]

-- dirlink where it is known that the name is not there.
theorem dirlink_new (hs : s.Sane) (hi : s.Held i x) (hdir : (s.view x).type = .dir) {name : Name}
    (hno : NoName s.vol x name 0 (direntCount (s.view x).size)) (inum : ℕ) :
    wp (dirlink i name inum) (Adds x name inum s) NotNoType s := by
  unfold dirlink
  rw [wp_bind]
  refine wp_mono (dirlookup_spec hs.ok hi name) ?_ ?_
  · rintro (_ | ⟨j, off⟩) t ⟨-, ht⟩
    · rw [ht.1]
      exact dirlink_adds hs hi hdir name inum
    · obtain ⟨m, hm, -, hfound⟩ := ht
      rcases hno m (Nat.zero_le _) hm with h | h
      · exact absurd h hfound.used
      · exact absurd hfound.name h
  · rintro e (rfl | rfl | ⟨rfl, -⟩) <;> simp [NotNoType]

theorem Adds.rests {name : Name} {inum : ℕ} {r : Int} (h : Adds x name inum s r t) (hs : s.Linked e)
    (hr : r < 0) : Rests e s t [] := by
  obtain ⟨m, -, -, -, htree⟩ := h.added
  rw [if_neg (by omega)] at htree
  exact ⟨h.toNet, ⟨h.sane, htree ▸ hs.tree⟩, by rw [htree]; exact .refl⟩

theorem dirlink_rests (hs : s.Linked e) (hi : s.Held i x) (hx : x ≠ e) (name : Name) (inum : ℕ) :
    wp (dirlink i name inum) (fun r t => (r < 0 → Rests e s t []) ∧
      (0 ≤ r → (s.view x).type = .dir ∧ Adds x name inum s 0 t)) NotNoType s := by
  unfold dirlink
  rw [wp_bind]
  refine wp_post (dirlookup_rests hs hi hx name) ?_
  rintro (_ | ⟨j, off⟩) t ⟨hdir, -, ht⟩
  · rw [ht.1]
    refine wp_post (dirlink_adds hs.toSane hi hdir name inum) fun r t hadds => ⟨hadds.rests hs, fun hr => ?_⟩
    have : r = 0 := hadds.ret.resolve_right (by omega)
    exact ⟨hdir, this ▸ hadds⟩
  · simp only [wp_bind, wp_pure]
    exact wp_post (iput_rests ht.1) fun _ _ h => ⟨fun _ => h, fun h => absurd h (by decide)⟩

-- "." and ".." are not empty, so a directory in the tree gets entries after them.
theorem Linked.two_le {m : ℕ} (hs : s.Linked e) (hx : x ≠ e)
    (hdir : (s.view x).type = .dir) (hempty : (s.vol.tree.ent x m).inum = 0) : 2 ≤ m := by
  by_contra hlt
  have h0 : x ≠ 0 := by
    rintro rfl
    have := hs.tree.zero
    rw [show s.vol.tree.type 0 = (s.view 0).type from rfl, hdir] at this
    cases this
  match m with
  | 0 => exact h0 ((hs.tree.dot x hdir hx).1.symm.trans hempty)
  | 1 =>
      have := (hs.tree.parent x hdir hx).1
      rw [hempty, hs.tree.zero] at this
      cases this
  | m + 2 => omega

end Fs

end Xv6
