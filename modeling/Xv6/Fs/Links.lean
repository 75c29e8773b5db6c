import Xv6.Fs.Linked

namespace Xv6

open Wp

theorem toNat_add_one {a : BitVec 16} (h : a.toNat + 1 < 2 ^ 16) : (a + 1).toNat = a.toNat + 1 := by
  rw [BitVec.toNat_add]
  exact Nat.mod_eq_of_lt h

theorem toNat_sub_one {a : BitVec 16} {n : ℕ} (h : a.toNat = n + 1) : (a - 1).toNat = n := by
  rw [BitVec.toNat_sub, h]
  have := a.isLt
  simp only [show (1 : BitVec 16).toNat = 1 from rfl]
  omega

namespace Fs

variable {s t u : Fs} {i j dp ip cwd : Ip} {d x y e n : ℕ} {L L' : List Ip}

theorem Sane.outstanding (h : s.Sane) (n : ℕ) : Sane { s with outstanding := n } :=
  ⟨h.ok.outstanding n, h.clean.outstanding n, h.whole, fun i x hi => h.typed i x ⟨hi.ref, hi.inum⟩, h.small⟩

theorem Linked.outstanding (h : s.Linked e) (n : ℕ) : Linked { s with outstanding := n } e :=
  ⟨h.toSane.outstanding n, h.tree⟩

-- iupdate after a change of the link count and the device numbers.
theorem update_sane (hs : s.Sane) (hi : s.Held i x) {f : Dinode → Dinode}
    (haddrs : (f (s.view x)).addrs = (s.view x).addrs) (hsize : (f (s.view x)).size = (s.view x).size)
    (htype : (f (s.view x)).type = (s.view x).type) :
    wp (iupdate i) (fun _ t => Net s t [] ∧ t.Sane ∧
      t.vol.tree = s.vol.tree.setNlink x (f (s.view x)).nlink.toNat ∧
      ∀ y, y ≠ x → t.vol.view y = s.vol.view y) NotNoType (s.setCopy i f) := by
  refine wp_mono (update_spec hs.ok hs.clean hi rfl haddrs hsize htype) ?_ fun _ h => h.elim
  rintro _ t ⟨hnet, hvol⟩
  refine ⟨hnet, hs.of_net hnet ?_ ?_ fun _ hj => absurd hj List.not_mem_nil, ?_, fun y hy => ?_⟩
  · intro d hd
    rw [hvol] at hd ⊢
    by_cases hdx : d = x
    · subst hdx
      rw [Vol.view_setView, htype] at hd
      rw [Vol.view_setView, hsize]
      exact hs.whole d hd
    · rw [Vol.view_setView_of_ne _ _ hdx] at hd ⊢
      exact hs.whole d hd
  · intro y hy
    change (t.vol.view y).type ≠ _
    rw [hvol]
    by_cases hyx : y = x
    · subst hyx
      rw [Vol.view_setView, htype]
      exact hy
    · rw [Vol.view_setView_of_ne _ _ hyx]
      exact hy
  · rw [hvol]
    exact Vol.tree_setView haddrs hsize htype
  · rw [hvol, Vol.view_setView_of_ne _ _ hy]

theorem setNlink_sane (hs : s.Sane) (hi : s.Held i x) (f : BitVec 16 → BitVec 16) :
    wp (iupdate i) (fun _ t => Net s t [] ∧ t.Sane ∧
      t.vol.tree = s.vol.tree.setNlink x (f (s.view x).nlink).toNat) NotNoType
      (s.setCopy i fun d => d.setNlink (f d.nlink)) :=
  wp_post (update_sane (f := fun d => d.setNlink (f d.nlink)) hs hi rfl rfl rfl)
    fun _ _ h => ⟨h.1, h.2.1, h.2.2.1⟩

structure Linking (ip : Ip) (x n : ℕ) (t : Fs) : Prop where
  linked : t.Linked 0
  handle : t.At ip x
  covers : t.vol.tree.Covers x n
  nlink : t.vol.tree.nlink x = n + 1
  file : t.vol.tree.type x ≠ .dir

theorem Linking.rests (h : Linking ip x n t) (hr : Rests 0 t u L) : Linking ip x n u := by
  have hat := hr.handle h.handle
  have htype : u.vol.tree.type x = t.vol.tree.type x := hr.shrinks.type (hr.linked.typed ip x hat)
  refine ⟨hr.linked, hat, hr.shrinks.covers h.linked.tree.zero (h.linked.pos h.handle) h.covers, ?_, ?_⟩
  · rw [hr.shrinks.nlink, h.nlink]
  · rw [htype]
    exact h.file

theorem linkBad_linked (h : Linking ip x n t) :
    wp (linkBad ip) (fun _ u => u.Linked 0) NotNoType t := by
  unfold linkBad endOp
  simp only [wp_bind, wp_modify, wp_pure]
  refine wp_post (ilock_rests h.linked h.handle) ?_
  rintro _ t₁ ⟨h₁, -, hip⟩
  have hl := h.rests h₁
  refine wp_post (setNlink_sane hl.linked.toSane hip (· - 1)) ?_
  rintro _ t₂ ⟨hnet, hsane, htree⟩
  have hn : ((t₁.view x).nlink - 1).toNat = n := toNat_sub_one hl.nlink
  rw [hn] at htree
  have h₂ : t₂.Linked 0 := by
    refine ⟨hsane, htree ▸ hl.linked.tree.setNlink hl.covers ?_⟩
    -- Only directories are anyone's "..".
    rintro - o ho hne rfl
    exact hl.file (hl.linked.tree.parent o ho hne).1
  exact wp_post (iunlockput_linked h₂ (hnet.handle hip.toAt)) fun _ _ h => h.1.outstanding _

theorem linkNew_linked (h : Linking ip x n t) (hcwd : t.At cwd y) (new : List UInt8) :
    wp (linkNew cwd ip new) (fun _ u => u.Linked 0) NotNoType t := by
  unfold linkNew nameiparent endOp
  simp only [wp_bind]
  refine wp_post (namex_rests h.linked hcwd new true) ?_
  rintro (_ | ⟨dp, name⟩) t₁ h₁
  · exact linkBad_linked (h.rests h₁)
  · simp only [wp_bind, wp_get, wp_ite, wp_pure, wp_modify]
    refine wp_post (ilock_rests h₁.linked (h₁.at_of_mem List.mem_cons_self)) ?_
    rintro _ t₂ ⟨h₂, -, hdp⟩
    have h₂ : Rests 0 t t₂ [dp] := h₁.trans h₂
    have hl := h.rests h₂
    split
    · exact wp_post (iunlockput_rests h₂) fun _ _ h₃ => linkBad_linked (h.rests h₃)
    · refine wp_post (dirlink_rests h₂.linked hdp (h₂.linked.pos hdp.toAt) _ _) ?_
      rintro r t₃ ⟨hbad, hgood⟩
      split
      · rename_i hr
        exact wp_post (iunlockput_rests (h₂.trans (hbad hr))) fun _ _ h₃ => linkBad_linked (h.rests h₃)
      · rename_i hr
        obtain ⟨hdir, hadds⟩ := hgood (by omega)
        obtain ⟨m, -, hempty, -, htree⟩ := hadds.added
        rw [if_pos rfl, hl.handle.inum,
          Nat.mod_eq_of_lt (hl.linked.tree.word x (hl.linked.typed ip x hl.handle))] at htree
        have h₃ : t₃.Linked 0 := by
          refine ⟨hadds.sane, htree ▸ hl.linked.tree.setEnt ?_ (fun _ => ⟨hdir, ?_⟩) (fun hd => absurd hd hl.file)
            (fun _ => ⟨n, ?_, hl.covers⟩) fun hd => absurd hd hl.file⟩
          · exact hl.linked.two_le (hl.linked.pos hdp.toAt) hdir hempty
          · exact hl.linked.typed ip x hl.handle
          · rw [hl.nlink]
            exact Nat.lt_succ_self n
        refine wp_post (iunlockput_linked h₃ (hadds.handle hdp.toAt)) ?_
        rintro _ t₄ ⟨h₄, t₃', hnet, hvol, hp⟩
        have hnet₄ : Net t t₄ [] := ((h₂.toNet.trans hadds.toNet).trans hnet).put hp
        exact wp_post (iput_linked h₄ (hnet₄.handle h.handle)) fun _ _ h => h.2.outstanding _

theorem sysLink_linked (hs : s.Linked 0) (hroomy : s.vol.tree.Roomy) (hcwd : s.At cwd y)
    (old new : Option (List UInt8)) : wp (sysLink cwd old new) (fun _ t => t.Linked 0) NotNoType s := by
  unfold sysLink beginOp endOp
  split
  · rename_i old new
    simp only [wp_bind, wp_modify]
    set s' : Fs := { s with outstanding := s.outstanding + 1 } with hs'
    have hcwd' : s'.At cwd y := ⟨hcwd.ref, hcwd.inum⟩
    refine wp_post (namei_rests (hs.outstanding _) hcwd' old) ?_
    rintro (_ | ip) t₁ h₁
    · exact h₁.linked.outstanding _
    · simp only [wp_bind, wp_get, wp_ite, wp_modify, wp_pure]
      refine wp_post (ilock_rests h₁.linked (h₁.at_of_mem List.mem_cons_self)) ?_
      rintro _ t₂ ⟨h₂, -, hip⟩
      have h₂ : Rests 0 s' t₂ [ip] := h₁.trans h₂
      set x := (t₁.itable ip).inum
      split
      · exact wp_post (iunlockput_rests h₂) fun _ _ h => h.linked.outstanding _
      · rename_i hfile
        rw [← h₂.ok.table.view_eq hip] at hfile
        have hx := h₂.linked.pos hip.toAt
        have hn : ((t₂.view x).nlink + 1).toNat = (t₂.view x).nlink.toNat + 1 := by
          have htype := h₂.linked.typed ip x hip.toAt
          have hlt := hroomy x fun hfree => htype ((h₂.shrinks.type htype).trans hfree)
          refine toNat_add_one ?_
          change t₂.vol.tree.nlink x + 1 < _
          rw [h₂.shrinks.nlink]
          exact hlt
        refine wp_post (setNlink_sane h₂.linked.toSane hip (· + 1)) ?_
        rintro _ t₃ ⟨hnet, hsane, htree⟩
        rw [hn] at htree
        have hl : Linking ip x (t₂.vol.tree.nlink x) t₃ := by
          refine ⟨⟨hsane, htree ▸ h₂.linked.tree.raise hx (Nat.le_succ _) (Nat.succ_ne_zero _)⟩,
            hnet.handle hip.toAt, htree ▸ h₂.linked.tree.count x hx, ?_, ?_⟩
          · rw [htree, Tree.nlink_setNlink]
            rfl
          · rw [htree]
            exact hfile
        refine wp_post (iunlock_rests hl.linked hl.handle) ?_
        rintro _ t₄ ⟨h₄, -⟩
        exact linkNew_linked (hl.rests h₄) (h₄.handle (hnet.handle (h₂.handle hcwd'))) new
  · exact hs

-- create holds the new inode x, which nothing names.
structure Making (x : ℕ) (t : Tree) : Prop where
  ok : t.Ok x
  root : x ≠ ROOTINO
  used : t.type x ≠ .free
  alone : ∀ c k, c ≠ x → (t.ent c k).inum ≠ x
  empty : ∀ k, 2 ≤ k → (t.ent x k).inum = 0

namespace Making

variable {a : Tree} {k : ℕ} {de : Dirent}

theorem pos (h : Making x a) : x ≠ 0 := by
  rintro rfl
  exact h.used h.ok.zero

theorem of_alloc (h : a.Ok 0) (hx : x ≠ 0) (hword : x < 2 ^ 16) (hfree : a.type x = .free)
    {type : FileType} (htype : type ≠ .free) : Making x (a.alloc x type) where
  ok := h.alloc hx hword hfree type
  root := by
    rintro rfl
    rw [h.root.1] at hfree
    cases hfree
  used := by rwa [Tree.type_alloc]
  alone c k _ hname := by
    rw [Tree.ent_alloc] at hname
    have hne : (a.ent c k).inum ≠ 0 := by rwa [hname]
    have hc : c ≠ 0 := by
      rintro rfl
      have := h.dir 0 k hne
      rw [h.zero] at this
      cases this
    exact h.type_ent hc hne (by rw [hname]; exact hfree)
  empty k _ := h.ent_eq_zero (by rw [hfree]; decide) k

theorem name (h : Making x a) (d k : ℕ) (hk : 2 ≤ k) : (a.ent d k).inum ≠ x := by
  by_cases hd : d = x
  · rw [hd, h.empty k hk]
    exact Ne.symm h.pos
  · exact h.alone d k hd

theorem kids (h : Making x a) (k : ℕ) (hk : 2 ≤ k) : a.type (a.ent x k).inum ≠ .dir := by
  rw [h.empty k hk, h.ok.zero]
  decide

theorem covers (h : Making x a) : a.Covers x 0 := Tree.Ok.covers_new h.root h.name h.kids

theorem setNlink (h : Making x a) (n : ℕ) : Making x (a.setNlink x n) :=
  ⟨h.ok.setNlink (fun S K hS hK => (h.covers S K hS hK).trans (Nat.zero_le n))
    fun _ c _ hc => h.alone c 1 hc, h.root, h.used, h.alone, h.empty⟩

theorem fill (h : Making x a) (hdir : a.type x = .dir) (hk : k < 2) : Making x (a.setEnt x k de) where
  ok := h.ok.fill hk hdir h.root h.name
  root := h.root
  used := h.used
  alone c k' hc := by
    rw [Tree.ent_setEnt_of_ne fun heq => hc heq.1]
    exact h.alone c k' hc
  empty k' hk' := by
    rw [Tree.ent_setEnt_of_ne fun heq => by omega]
    exact h.empty k' hk'

end Making

theorem NoName.congr {v w : Vol} {name : Name} (h : NoName v d name 0 (direntCount (v.view d).size))
    (hdir : (v.view d).type = .dir) (hview : w.view d = v.view d)
    (hent : ∀ k, w.tree.ent d k = v.tree.ent d k) : NoName w d name 0 (direntCount (w.view d).size) := by
  intro k hk hlt
  have := hent k
  rw [Vol.ent_tree (hview ▸ hdir) hlt, Vol.ent_tree hdir (hview ▸ hlt)] at this
  rw [this]
  exact h k hk (hview ▸ hlt)

-- The entry that dirlink writes into the directory that is being made.
theorem Adds.making {name : Name} {inum : ℕ} {r : Int} (h : Adds x name inum s r t) (hm : Making x s.vol.tree)
    (hdir : s.vol.tree.type x = .dir) {k : ℕ} (hk : k < 2) (hbefore : ∀ m < k, (s.vol.tree.ent x m).inum ≠ 0)
    (hempty : (s.vol.tree.ent x k).inum = 0) :
    Making x t.vol.tree ∧ (0 ≤ r → t.vol.tree = s.vol.tree.setEnt x k ⟨inum % 2 ^ 16, padded name⟩) := by
  obtain ⟨m, -, hzero, hused, htree⟩ := h.added
  have hmk : m = k := by
    rcases Nat.lt_trichotomy m k with hlt | heq | hlt
    · exact absurd hzero (hbefore m hlt)
    · exact heq
    · exact absurd hempty (hused k hlt)
  rw [hmk] at htree
  rcases h.ret with rfl | rfl
  · rw [if_pos rfl] at htree
    exact ⟨htree ▸ hm.fill hdir hk, fun _ => htree⟩
  · rw [if_neg (by decide)] at htree
    exact ⟨htree ▸ hm, fun h => absurd h (by decide)⟩

-- What the dirlinks of create leave: a tree once dp has its link, or an inode to be freed.
structure Made (d x : ℕ) (type : FileType) (s : Fs) (done : Bool) (t : Fs) : Prop extends Net s t [] where
  sane : t.Sane
  nlink : t.vol.tree.nlink = s.vol.tree.nlink
  tree : done = true → if type = .dir then (t.vol.tree.setNlink d (t.vol.tree.nlink d + 1)).Ok 0
    else t.vol.tree.Ok 0
  undo : done = false → Making x t.vol.tree

variable {name : Name} {type : FileType}

theorem dirlink_made (hs : s.Sane) (hm : Making x s.vol.tree) (hdp : s.Held dp d) (hdir : (s.view d).type = .dir)
    (hdx : d ≠ x) (htype : s.vol.tree.type x = type) (hnlink : s.vol.tree.nlink x = 1)
    (hlow : type = .dir → s.vol.tree.ent x 0 = ⟨x, padded dot⟩ ∧ s.vol.tree.ent x 1 = ⟨d, padded dotdot⟩)
    (hno : NoName s.vol d name 0 (direntCount (s.view d).size)) :
    wp (dirlink dp name x) (fun r t => Made d x type s (decide (0 ≤ r)) t) NotNoType s := by
  refine wp_post (dirlink_new hs hdp hdir hno x) ?_
  intro r t hadds
  obtain ⟨m, -, hempty, -, htree⟩ := hadds.added
  have htwo := Linked.two_le ⟨hs, hm.ok⟩ hdx hdir hempty
  rcases hadds.ret with rfl | rfl
  · rw [if_pos rfl, Nat.mod_eq_of_lt (hm.ok.word x hm.used)] at htree
    refine ⟨hadds.toNet, hadds.sane, by rw [htree]; rfl, fun _ => ?_, fun h => by simp at h⟩
    rw [htree]
    split
    · rename_i hd
      exact hm.ok.mkdir (htype.trans hd) hm.root hnlink hm.name hm.kids (hlow hd).1 (hlow hd).2 htwo hdir hdx rfl
    · rename_i hd
      have hd : s.vol.tree.type x ≠ .dir := by rwa [htype]
      have hset : (s.vol.tree.setEnt d m ⟨x, padded name⟩).Ok x :=
        hm.ok.setEnt htwo (fun _ => ⟨hdir, hm.used⟩) (fun h => absurd h hd)
          (fun _ => ⟨0, hnlink.symm ▸ Nat.one_pos, hm.covers⟩) fun h => absurd h hd
      exact hset.settle fun h => absurd h hd
  · rw [if_neg (by decide)] at htree
    exact ⟨hadds.toNet, hadds.sane, by rw [htree], fun h => by simp at h, fun _ => htree ▸ hm⟩

theorem Made.trans {done : Bool} (h : Net s t []) (hnlink : t.vol.tree.nlink = s.vol.tree.nlink)
    (h' : Made d x type t done u) : Made d x type s done u :=
  ⟨h.trans h'.toNet, h'.sane, h'.nlink.trans hnlink, h'.tree, h'.undo⟩

theorem Adds.fields {inum : ℕ} {r : Int} (h : Adds x name inum s r t) :
    t.vol.tree.nlink = s.vol.tree.nlink ∧ t.vol.tree.type = s.vol.tree.type ∧
      ∀ y k, y ≠ x → t.vol.tree.ent y k = s.vol.tree.ent y k := by
  obtain ⟨m, -, -, -, htree⟩ := h.added
  rw [htree]
  split
  · exact ⟨rfl, rfl, fun y k hy => Tree.ent_setEnt_of_ne fun h => hy h.1⟩
  · exact ⟨rfl, rfl, fun _ _ _ => rfl⟩

theorem createLinks_made (hs : s.Sane) (hm : Making x s.vol.tree) (hdp : s.Held dp d) (hip : s.Held ip x)
    (hdir : (s.view d).type = .dir) (hdx : d ≠ x) (htype : s.vol.tree.type x = type) (hnlink : s.vol.tree.nlink x = 1)
    (hempty : ∀ k, (s.vol.tree.ent x k).inum = 0) (hno : NoName s.vol d name 0 (direntCount (s.view d).size)) :
    wp (createLinks dp ip name type) (Made d x type s) NotNoType s := by
  unfold createLinks
  simp only [wp_bind, wp_get, wp_ite, wp_pure, hip.inum]
  split
  · rename_i hd
    have hxdir : s.vol.tree.type x = .dir := htype.trans hd
    have hx := hm.ok.word x hm.used
    have hd16 : d < 2 ^ 16 := hm.ok.word d (by rw [show s.vol.tree.type d = .dir from hdir]; decide)
    have hno₁ : NoName s.vol x dot 0 (direntCount (s.view x).size) := fun k _ hk => by
      rw [← Vol.ent_tree hxdir hk]
      exact .inl (hempty k)
    refine wp_post (dirlink_new hs hip hxdir hno₁ x) ?_
    intro r₁ t₁ h₁
    obtain ⟨hm₁, htree₁⟩ :=
      h₁.making hm hxdir (k := 0) (by omega) (fun _ h => absurd h (Nat.not_lt_zero _)) (hempty 0)
    obtain ⟨hnlink₁, htype₁, hent₁⟩ := h₁.fields
    split
    · exact ⟨h₁.toNet, h₁.sane, hnlink₁, fun h => by simp at h, fun _ => hm₁⟩
    · rename_i hr₁
      have htree₁ := htree₁ (by omega)
      rw [Nat.mod_eq_of_lt hx] at htree₁
      have hdot : t₁.vol.tree.ent x 0 = ⟨x, padded dot⟩ := by rw [htree₁, Tree.ent_setEnt]
      have hrest : ∀ k, k ≠ 0 → (t₁.vol.tree.ent x k).inum = 0 := fun k hk => by
        rw [htree₁, Tree.ent_setEnt_of_ne fun h => hk h.2, hempty]
      have hxdir₁ : (t₁.view x).type = .dir := (congrFun htype₁ x).trans hxdir
      -- The only entry so far is ".".
      have hno₂ : NoName t₁.vol x dotdot 0 (direntCount (t₁.view x).size) := fun k _ hk => by
        rw [← Vol.ent_tree hxdir₁ hk]
        by_cases hk0 : k = 0
        · rw [hk0, hdot, namecmp_padded]
          exact .inr (by decide)
        · exact .inl (hrest k hk0)
      rw [(h₁.held hdp).inum]
      refine wp_post (dirlink_new h₁.sane (h₁.held hip) hxdir₁ hno₂ d) ?_
      intro r₂ t₂ h₂
      obtain ⟨hm₂, htree₂⟩ := h₂.making hm₁ hxdir₁ (k := 1) (by omega) (fun m h => by
        rw [show m = 0 by omega, hdot]
        exact hm.pos) (hrest 1 (by omega))
      obtain ⟨hnlink₂, htype₂, hent₂⟩ := h₂.fields
      have hnet := h₁.toNet.trans h₂.toNet
      split
      · exact ⟨hnet, h₂.sane, hnlink₂.trans hnlink₁, fun h => by simp at h, fun _ => hm₂⟩
      · rename_i hr₂
        have htree₂ := htree₂ (by omega)
        rw [Nat.mod_eq_of_lt hd16] at htree₂
        have hview : t₂.vol.view d = s.vol.view d := (h₂.other d hdx).trans (h₁.other d hdx)
        refine wp_post (dirlink_made h₂.sane hm₂ (hnet.held hdp) ?_ hdx ?_ ?_ (fun _ => ⟨?_, ?_⟩) ?_)
          fun _ _ h => h.trans hnet (hnlink₂.trans hnlink₁)
        · exact (congrArg Dinode.type hview).trans hdir
        · rw [htype₂, htype₁, htype]
        · rw [hnlink₂, hnlink₁, hnlink]
        · rw [htree₂, Tree.ent_setEnt_of_ne (by simp), hdot]
        · rw [htree₂, Tree.ent_setEnt]
        · exact hno.congr hdir hview fun k => (hent₂ d k hdx).trans (hent₁ d k hdx)
  · rename_i hd
    exact dirlink_made hs hm hdp hdir hdx htype hnlink (fun h => absurd h hd) hno

theorem ialloc_making (hs : s.Linked 0) (htype : type ≠ .free) :
    wp (ialloc ROOTDEV type) (fun r t => match r with
      | none => t = s
      | some i => ∃ x, (s.view x).type = .free ∧ t.At i x ∧ (s.itable i).ref = 0 ∧ Net s t [i] ∧ t.Sane ∧
          t.vol.tree = s.vol.tree.alloc x type ∧ Making x t.vol.tree ∧
          ∀ y, y ≠ x → t.vol.view y = s.vol.view y) NotNoType s := by
  refine wp_mono (ialloc_spec hs.ok hs.clean htype) ?_ ?_
  · rintro (_ | i) t ht
    · exact ht
    · obtain ⟨x, hpos, hlt, hfree, hat, hnet, hvol⟩ := ht
      have htree : t.vol.tree = s.vol.tree.alloc x type := by rw [hvol, Vol.tree_alloc hfree]
      have hview : ∀ y, y ≠ x → t.vol.view y = s.vol.view y := fun y hy => by
        rw [hvol, Vol.view_setView_of_ne _ _ hy]
      have hself : t.vol.view x = .zero type := by rw [hvol, Vol.view_setView]
      have hsane : t.Sane := by
        refine hs.toSane.of_net hnet ?_ ?_ ?_
        · intro d hd
          by_cases hdx : d = x
          · rw [hdx, hself]
            rfl
          · rw [hview d hdx] at hd ⊢
            exact hs.whole d hd
        · intro y hy
          have hyx : y ≠ x := by
            rintro rfl
            exact hy hfree
          have : t.view y = s.view y := hview y hyx
          rwa [this]
        · intro j hj
          rw [List.mem_singleton.mp hj, hat.inum]
          have : t.view x = .zero type := hself
          rw [this]
          exact htype
      refine ⟨x, hfree, hat, ?_, hnet, hsane, htree, ?_, hview⟩
      · by_contra hne
        have hpos : 0 < (s.itable i).ref := Nat.pos_of_ne_zero hne
        refine hs.typed i x ⟨hpos, ?_⟩ hfree
        rw [← (hnet.keep i hpos).inum, hat.inum]
      · rw [htree]
        exact .of_alloc hs.tree (by omega) (by have := hs.small; omega) hfree htype
  · rintro e rfl
    simp [NotNoType]

-- create gives up: the new inode is freed, since no one else has it.
theorem undo_linked (hm : Making x t.vol.tree) (hsane : t.Sane) (hnet : Net s t [ip])
    (hip : t.Held ip x) (hunused : (s.itable ip).ref = 0) :
    wp (iupdate ip) (fun _ u => wp (iunlockput ip) (fun _ w => w.Linked 0 ∧ Net s w []) NotNoType u) NotNoType
      (t.setCopy ip fun d => d.setNlink 0) := by
  refine wp_post (setNlink_sane hsane hip fun _ => 0) ?_
  rintro _ t₁ ⟨hnet₁, hsane₁, htree₁⟩
  refine wp_post (iunlockput_linked ⟨hsane₁, htree₁ ▸ (hm.setNlink 0).ok⟩ (hnet₁.handle hip.toAt)) ?_
  rintro _ w ⟨hw, t₂, hnet₂, hvol₂, hp⟩
  have hnet' : Net s t₂ [ip] := (hnet.trans hnet₁).trans hnet₂
  have hheld := hnet₂.held (hnet₁.held hip)
  have href : (t₂.itable ip).ref = 1 := by
    rw [hnet'.ref, hunused, List.count_singleton_self]
  have hlink : (t₂.view x).nlink = 0 := by
    have hz : t₁.vol.tree.nlink x = 0 := by
      rw [htree₁, Tree.nlink_setNlink]
      rfl
    rw [← hvol₂] at hz
    exact BitVec.eq_of_toNat_eq hz
  have hfree := hp.last href hheld.valid hlink
  refine ⟨hw.settle (hw.tree.settle fun hdir => ?_), hnet'.put hp⟩
  rw [show w.vol.tree.type x = (w.view x).type from rfl, hfree] at hdir
  cases hdir

-- The entry of another inode is not touched by iput.
theorem Puts.held_other (h : Puts i x s t) (hi : s.At i x) (hj : s.Held j y) (hne : y ≠ x) : t.Held j y := by
  have hji : j ≠ i := by
    rintro rfl
    exact hne (hj.inum.symm.trans hi.inum)
  have := h.entry j hji
  exact ⟨⟨this ▸ hj.ref, this ▸ hj.inum⟩, this ▸ hj.valid⟩

-- dp is let go of and the new inode returned.
theorem createDone_linked (hs : s.Linked 0) (hdp : s.Held dp d) (hip : s.Held ip x) (hdx : d ≠ x) :
    wp (iunlockput dp) (fun _ t => t.Linked 0 ∧ ∀ j ∈ some ip, ∃ y, t.Held j y) NotNoType s := by
  refine wp_post (iunlockput_linked hs hdp.toAt) ?_
  rintro _ t ⟨ht, s', hnet, -, hp⟩
  refine ⟨ht, fun j hj => ?_⟩
  cases hj
  exact ⟨x, hp.held_other (hnet.handle hdp.toAt) (hnet.held hip) (Ne.symm hdx)⟩

theorem createNew_linked (hs : s.Linked 0) (hroomy : s.vol.tree.Roomy) (hdp : s.Held dp d)
    (hdir : (s.view d).type = .dir) (hno : NoName s.vol d name 0 (direntCount (s.view d).size))
    (htype : type ≠ .free) (major minor : BitVec 16) :
    wp (createNew dp name type major minor) (fun r t => t.Linked 0 ∧ ∀ j ∈ r, ∃ y, t.Held j y) NotNoType s := by
  unfold createNew
  simp only [wp_bind, wp_get, hs.ok.table.dev dp hdp.ref]
  refine wp_post (ialloc_making hs htype) ?_
  rintro (_ | ip) t₁ h₁
  · subst h₁
    simp only [wp_bind, wp_pure]
    exact wp_post (iunlockput_linked hs hdp.toAt) fun _ _ h => ⟨h.1, fun _ hj => by cases hj⟩
  · obtain ⟨x, hfree, hat, hunused, hnet₁, hsane₁, htree₁, hm₁, hview₁⟩ := h₁
    simp only [wp_bind, wp_modify, wp_ite, wp_pure]
    refine wp_post (ilock_rests ⟨hsane₁, hm₁.ok⟩ hat) ?_
    rintro _ t₂ ⟨h₂, hvol₂, hip⟩
    refine wp_post (update_sane
      (f := fun d => ({ d with major := major, minor := minor, nlink := 1 } : Dinode))
      h₂.linked.toSane hip rfl rfl rfl) ?_
    rintro _ t₃ ⟨hnet₃, hsane₃, htree₃, hview₃⟩
    have hdx : d ≠ x := by
      rintro rfl
      rw [hfree] at hdir
      cases hdir
    rw [hvol₂] at htree₃
    have hm₃ : Making x t₃.vol.tree := htree₃ ▸ hm₁.setNlink 1
    have hnet : Net s t₃ [ip] := (hnet₁.trans h₂.toNet).trans hnet₃
    have hview : t₃.vol.view d = s.vol.view d := by rw [hview₃ d hdx, hvol₂, hview₁ d hdx]
    have hent : ∀ y k, t₃.vol.tree.ent y k = s.vol.tree.ent y k := fun y k => by
      rw [htree₃, htree₁]
      rfl
    have htypex : t₃.vol.tree.type x = type := by
      rw [htree₃, htree₁]
      exact Tree.type_alloc
    have hlinkd : t₃.vol.tree.nlink d = s.vol.tree.nlink d := by
      rw [htree₃, htree₁, Tree.nlink_setNlink_of_ne hdx, Tree.nlink_alloc_of_ne hdx]
    refine wp_post (createLinks_made hsane₃ hm₃ (hnet.held hdp) (hnet₃.held hip)
      ((congrArg Dinode.type hview).trans hdir) hdx htypex (by rw [htree₃, Tree.nlink_setNlink]; rfl)
      (fun k => ?_) (hno.congr hdir hview (hent d))) ?_
    · rw [hent]
      exact hs.tree.ent_eq_zero (by rw [show s.vol.tree.type x = .free from hfree]; decide) k
    · intro done t₄ h₄
      have hnet₄ : Net s t₄ [ip] := hnet.trans h₄.toNet
      have hdp₄ := hnet₄.held hdp
      have hip₄ := h₄.held (hnet₃.held hip)
      cases done with
      | true =>
          simp only [if_true]
          have htree := h₄.tree rfl
          split
          · rename_i hd
            rw [if_pos hd] at htree
            have hn : ((t₄.view d).nlink + 1).toNat = t₄.vol.tree.nlink d + 1 := by
              refine toNat_add_one (a := (t₄.view d).nlink) ?_
              change t₄.vol.tree.nlink d + 1 < _
              rw [h₄.nlink, hlinkd]
              exact hroomy d (by rw [show s.vol.tree.type d = .dir from hdir]; decide)
            refine wp_post (setNlink_sane h₄.sane hdp₄ (· + 1)) ?_
            rintro _ t₅ ⟨hnet₅, hsane₅, htree₅⟩
            rw [hn] at htree₅
            exact createDone_linked ⟨hsane₅, htree₅ ▸ htree⟩ (hnet₅.held hdp₄) (hnet₅.held hip₄) hdx
          · rename_i hd
            rw [if_neg hd] at htree
            exact createDone_linked ⟨h₄.sane, htree⟩ hdp₄ hip₄ hdx
      | false =>
          simp only [Bool.false_eq_true, if_false]
          refine wp_post (undo_linked (h₄.undo rfl) h₄.sane hnet₄ hip₄ hunused) ?_
          intro _ t₅ h₅
          refine wp_post h₅ ?_
          rintro _ t₆ ⟨h₆, hnet₆⟩
          exact wp_post (iunlockput_linked h₆ (hnet₆.handle hdp.toAt)) fun _ _ h =>
            ⟨h.1, fun _ hj => by cases hj⟩

theorem create_linked (hs : s.Linked 0) (hroomy : s.vol.tree.Roomy) (hcwd : s.At cwd y) (path : List UInt8)
    (htype : type ≠ .free) (major minor : BitVec 16) :
    wp (create cwd path type major minor) (fun r t => t.Linked 0 ∧ ∀ j ∈ r, ∃ x, t.Held j x) NotNoType s := by
  unfold create nameiparent
  simp only [wp_bind]
  refine wp_post (namex_rests hs hcwd path true) ?_
  rintro (_ | ⟨dp, name⟩) t₁ h₁
  · exact ⟨h₁.linked, fun _ hj => by cases hj⟩
  · simp only [wp_bind]
    refine wp_post (ilock_rests h₁.linked (h₁.at_of_mem List.mem_cons_self)) ?_
    rintro _ t₂ ⟨h₂, -, hdp⟩
    have h₂ : Rests 0 s t₂ [dp] := h₁.trans h₂
    refine wp_post (dirlookup_rests h₂.linked hdp (h₂.linked.pos hdp.toAt) name) ?_
    rintro (_ | ⟨ip, off⟩) t₃ ⟨hdir, -, h₃⟩
    · obtain ⟨rfl, hno⟩ := h₃
      refine createNew_linked h₂.linked (fun x hx => ?_) hdp hdir hno htype major minor
      rw [h₂.shrinks.nlink]
      exact hroomy x fun hfree => hx ((h₂.shrinks.type hx).trans hfree)
    · simp only [wp_bind, wp_get, wp_ite, wp_pure]
      refine wp_post (iunlockput_rests (h₂.trans h₃.1).swap) ?_
      intro _ t₄ h₄
      refine wp_post (ilock_rests h₄.linked (h₄.at_of_mem List.mem_cons_self)) ?_
      rintro _ t₅ ⟨h₅, -, hip⟩
      split
      · refine ⟨h₅.linked, fun j hj => ?_⟩
        cases hj
        exact ⟨_, hip⟩
      · exact wp_post (iunlockput_rests (h₄.trans h₅)) fun _ _ h => ⟨h.linked, fun _ hj => by cases hj⟩

-- The end of sys_unlink: dp and then ip are let go of.
theorem unlinkEnd_spec {k : ℕ} (h : Net s t [dp, ip]) (hs : t.Sane) (hdp : t.Held dp d) (hip : t.Held ip x)
    (hn : t.vol.tree.nlink x = k + 1) :
    wp (iunlockput dp) (fun _ u => wp (iupdate ip) (fun _ w => wp (iunlockput ip) (fun _ w' => w'.Sane ∧
      ∃ b, t.vol.tree.Put d b ∧ (b.setNlink x k).Put x w'.vol.tree) NotNoType w) NotNoType
        (u.setCopy ip fun d => d.setNlink (d.nlink - 1))) NotNoType t := by
  refine wp_post (iunlockput_sane hs hdp.toAt) ?_
  rintro _ t₁ ⟨hs₁, t', hnet, hvol, hp⟩
  have hnet₁ : Net s t₁ [ip] := (h.trans hnet).put hp
  have hkeep : t.Keeps t₁ ip := by
    by_cases heq : ip = dp
    · subst heq
      exact (hnet.keep ip hip.ref).trans (hp.keep (hnet₁.pos_of_mem List.mem_cons_self))
    · exact (hnet.keep ip hip.ref).trans (.of_eq (hp.entry ip heq))
  have hip₁ := hnet₁.held_of_keeps List.mem_cons_self hkeep hip
  have hput : t.vol.tree.Put d t₁.vol.tree := hvol ▸ hp.tree
  refine wp_post (setNlink_sane hs₁ hip₁ (· - 1)) ?_
  rintro _ t₂ ⟨hnet₂, hs₂, htree₂⟩
  have hk : ((t₁.view x).nlink - 1).toNat = k := toNat_sub_one (by
    change t₁.vol.tree.nlink x = _
    rw [hput.nlink, hn])
  rw [hk] at htree₂
  refine wp_post (iunlockput_sane hs₂ (hnet₂.handle hip₁.toAt)) ?_
  rintro _ t₃ ⟨hs₃, t₂', -, hvol₂, hp₂⟩
  refine ⟨hs₃, t₁.vol.tree, hput, ?_⟩
  rw [← htree₂, ← hvol₂]
  exact hp₂.tree

theorem unlinkEntry_linked {m : ℕ} (h : Net s t [dp, ip]) (ht : t.Linked 0) (hdp : t.Held dp d)
    (hip : t.Held ip x) (hdir : (t.view d).type = .dir) (hm : 2 ≤ m) (hlt : m < direntCount (t.view d).size)
    (hname : (t.vol.tree.ent d m).inum = x) (hcmp : namecmp name (t.vol.tree.ent d m).name = 0) :
    wp (unlinkEntry dp ip (DIRENTSIZE * m)) (fun _ u => t.vol.tree.Spares d name → u.Linked 0) NotNoType t := by
  have hx := ht.pos hip.toAt
  obtain ⟨n, hn⟩ : ∃ n, t.vol.tree.nlink x = n + 1 :=
    Nat.exists_eq_succ_of_ne_zero (ht.tree.nlink_of_name hx hm hname).ne'
  unfold unlinkEntry endOp
  simp only [wp_bind, wp_ite, wp_throw, wp_get, wp_modify, wp_pure]
  refine wp_mono (writeDirent_spec ht.ok hdp ⟨0, []⟩ (direntCount_le hlt)) ?_ fun _ h => h.elim
  intro r t₁ hstore
  split
  · simp [NotNoType]
  · rename_i hr
    obtain ⟨hnet₁, hs₁⟩ := hstore.sane ht.toSane hdp hdir
    have htree₁ := hstore.tree ht.ok ht.whole (direntCount_le hlt) hdir
    rw [if_pos (not_not.mp hr)] at htree₁
    have hip₁ := hnet₁.held hip
    have hdp₁ := hnet₁.held hdp
    have htype : (t₁.itable ip).copy.type = t.vol.tree.type x := by
      rw [← hs₁.ok.table.view_eq hip₁]
      change t₁.vol.tree.type x = _
      rw [htree₁]
      rfl
    rw [htype]
    split
    · rename_i hxdir
      have hdx := ht.tree.ne_of_child hm hname hxdir
      obtain ⟨k, hk⟩ : ∃ k, t.vol.tree.nlink d = k + 1 := by
        refine Nat.exists_eq_succ_of_ne_zero ?_
        have hparent := (ht.tree.child d m hm (by rwa [hname])).1
        rw [hname] at hparent
        have := (ht.tree.parent x hxdir hx).2.1
        rwa [hparent] at this
      refine wp_post (setNlink_sane hs₁ hdp₁ (· - 1)) ?_
      rintro _ t₂ ⟨hnet₂, hs₂, htree₂⟩
      have hk' : ((t₁.view d).nlink - 1).toNat = k := toNat_sub_one (by
        change t₁.vol.tree.nlink d = _
        rw [htree₁]
        exact hk)
      rw [hk', htree₁] at htree₂
      refine wp_post (unlinkEnd_spec (h.trans (hnet₁.trans hnet₂)) hs₂ (hnet₂.held hdp₁) (hnet₂.held hip₁)
        (k := n) ?_) ?_
      · rw [htree₂, Tree.nlink_setNlink_of_ne (Ne.symm hdx)]
        exact hn
      · intro _ t₃ h₃
        refine wp_post h₃ fun _ t₄ h₄ => wp_post h₄ ?_
        rintro _ t₅ ⟨hs₅, b, hput, hput'⟩ hsafe
        refine ⟨hs₅.outstanding _, ?_⟩
        obtain ⟨hlink, horphan⟩ := hsafe m hm hcmp (by rwa [hname])
        exact ht.tree.rmdir hm hx hname hxdir rfl hk (htree₂ ▸ hput) hn hput' (by omega) (hname ▸ horphan)
    · rename_i hfile
      refine wp_post (unlinkEnd_spec (h.trans hnet₁) hs₁ hdp₁ hip₁ (k := n) ?_) ?_
      · rw [htree₁]
        exact hn
      · intro _ t₃ h₃
        refine wp_post h₃ fun _ t₄ h₄ => wp_post h₄ ?_
        rintro _ t₅ ⟨hs₅, b, hput, hput'⟩ -
        refine ⟨hs₅.outstanding _, ?_⟩
        exact ht.tree.unlink hm (ht.pos hdp.toAt) hx hname hfile rfl (htree₁ ▸ hput) hn hput'

-- sys_unlink refuses "." and "..", so the entry it finds comes after them.
theorem Found.two_le {k : ℕ} (h : Found d name k s j t) (hs : s.Linked 0) (hd : d ≠ 0)
    (hdir : (s.view d).type = .dir) (hk : k < direntCount (s.view d).size) (hdot : namecmp name dot ≠ 0)
    (hdotdot : namecmp name dotdot ≠ 0) : 2 ≤ k := by
  by_contra hlt
  have hname := h.name
  rw [← Vol.ent_tree hdir hk] at hname
  match k with
  | 0 =>
      rw [(hs.tree.dot d hdir hd).2, namecmp_padded] at hname
      exact hdot hname
  | 1 =>
      rw [hs.tree.dotdot d hdir hd, namecmp_padded] at hname
      exact hdotdot hname
  | k + 2 => omega

theorem unlinkBad_linked (h : Rests 0 s t [dp]) :
    wp (unlinkBad dp) (fun _ u => u.Linked 0) NotNoType t := by
  unfold unlinkBad endOp
  simp only [wp_bind, wp_modify, wp_pure]
  exact wp_post (iunlockput_rests h) fun _ _ h => h.linked.outstanding _

-- Where path leads up to its last element, and that element.
def LeadsTo (s : Fs) (cwd : Ip) (path : List UInt8) (d : ℕ) (name : Name) : Prop :=
  ∃ dp t, nameiparent cwd path { s with outstanding := s.outstanding + 1 } = .ok (some (dp, name), t) ∧
    (t.itable dp).inum = d

-- What path leads to can be taken away.
def UnlinkSafe (s : Fs) (path : Option (List UInt8)) (cwd : Ip) : Prop :=
  ∀ p ∈ path, ∀ d name, s.LeadsTo cwd p d name → s.vol.tree.Spares d name

theorem sysUnlink_linked (hs : s.Linked 0) (hcwd : s.At cwd y) (path : Option (List UInt8)) :
    wp (sysUnlink cwd path) (fun _ t => s.UnlinkSafe path cwd → t.Linked 0) NotNoType s := by
  unfold sysUnlink beginOp nameiparent endOp
  split
  · exact fun _ => hs
  · rename_i path
    simp only [wp_bind, wp_modify]
    set s' : Fs := { s with outstanding := s.outstanding + 1 } with hs'
    have hcwd' : s'.At cwd y := ⟨hcwd.ref, hcwd.inum⟩
    refine wp_post (wp_run (namex_rests (hs.outstanding _) hcwd' path true)) ?_
    rintro (_ | ⟨dp, name⟩) t₁ ⟨hrun, h₁⟩
    · exact fun _ => h₁.linked.outstanding _
    · simp only [wp_bind, wp_ite]
      refine wp_post (ilock_rests h₁.linked (h₁.at_of_mem List.mem_cons_self)) ?_
      rintro _ t₂ ⟨h₂, -, hdp⟩
      have h₂ : Rests 0 s' t₂ [dp] := h₁.trans h₂
      set d := (t₁.itable dp).inum
      split
      · exact wp_post (unlinkBad_linked h₂) fun _ _ h _ => h
      · rename_i hdots
        obtain ⟨hdot, hdotdot⟩ := not_or.mp hdots
        refine wp_post (dirlookup_rests h₂.linked hdp (h₂.linked.pos hdp.toAt) name) ?_
        rintro (_ | ⟨ip, off⟩) t₃ ⟨hdir, hvol₃, h₃⟩
        · rw [h₃.1]
          exact wp_post (unlinkBad_linked h₂) fun _ _ h _ => h
        · obtain ⟨h₃, m, hm, rfl, hfound⟩ := h₃
          have htwo := hfound.two_le h₂.linked (h₂.linked.pos hdp.toAt) hdir hm hdot hdotdot
          simp only [wp_bind, wp_get, wp_ite, wp_throw]
          refine wp_post (ilock_rests h₃.linked hfound.handle) ?_
          rintro _ t₄ ⟨h₄, hvol₄, hip⟩
          have h₄' : Rests 0 s' t₄ [ip, dp] := h₂.trans (h₃.trans h₄)
          have hvol : t₄.vol = t₂.vol := hvol₄.trans hvol₃
          have hdir₄ : (t₄.view d).type = .dir := by
            rw [show t₄.view = t₂.view from congrArg Vol.view hvol, hdir]
          have hm₄ : m < direntCount (t₄.view d).size := by
            rwa [show t₄.view = t₂.view from congrArg Vol.view hvol]
          have hunlink := unlinkEntry_linked h₄'.swap.toNet h₄.linked ((h₃.toNet.trans h₄.toNet).held hdp) hip hdir₄
            htwo hm₄ (by rw [Vol.ent_tree hdir₄ hm₄, hvol]) (by rw [Vol.ent_tree hdir₄ hm₄, hvol]; exact hfound.name)
          have hunlink : wp (unlinkEntry dp ip (DIRENTSIZE * m))
              (fun _ t => s.UnlinkSafe (some path) cwd → t.Linked 0) NotNoType t₄ :=
            wp_post hunlink fun _ _ h hsafe =>
              h (h₄'.shrinks.spares hs.tree (hsafe path rfl d name ⟨dp, t₁, hrun, rfl⟩))
          split
          · simp [NotNoType]
          · split
            · refine wp_mono (isdirempty_spec h₄.ok hip) ?_ ?_
              · rintro empty t₅ ⟨rfl, -⟩
                split
                · exact hunlink
                · exact wp_post (iunlockput_rests h₄') fun _ _ h =>
                    wp_post (unlinkBad_linked h) fun _ _ h _ => h
              · rintro e rfl
                simp [NotNoType]
            · exact hunlink

-- Emptying a file does not touch the directories.
theorem itrunc_linked (hs : s.Linked e) (hi : s.Held i x) (hfile : (s.view x).type ≠ .dir) :
    wp (itrunc i) (fun _ t => Net s t [] ∧ t.Linked e ∧ t.Held i x) NotNoType s := by
  refine wp_mono (itrunc_spec hs.ok hi) ?_ fun _ h => h.elim
  intro _ t he
  have hheld := he.edit.held.mpr hi
  have hother : ∀ y, y ≠ x → t.vol.view y = s.vol.view y := fun y hy => by
    change t.view y = _
    rw [he.edit.view hs.ok.table hi (he.ok.table.typed i hheld.ref hheld.valid), Function.update_of_ne hy]
    rfl
  have htype : ∀ y, (t.vol.view y).type = (s.vol.view y).type := fun y => by
    by_cases hy : y = x
    · rw [hy]
      exact he.type
    · rw [hother y hy]
  have hnet : Net s t [] := .of_edit hs.ok.table hi he.edit he.ok (he.clean hs.clean) he.type
  have htree : t.vol.tree = s.vol.tree := by
    refine Vol.tree_ext htype (fun y => ?_) fun d k hd => ?_
    · by_cases hy : y = x
      · rw [hy]
        exact he.nlink
      · rw [hother y hy]
    · have hdx : d ≠ x := by
        rintro rfl
        exact hfile hd
      have hdata : t.vol.data = s.vol.data := he.data
      unfold Vol.tree Vol.dirent Vol.byte Vol.block
      simp only [hother d hdx, hdata]
  refine ⟨hnet, ⟨hs.toSane.of_net hnet (fun d hd => ?_) (fun y hy => ?_) fun _ hj => absurd hj List.not_mem_nil,
    htree ▸ hs.tree⟩, hheld⟩
  · rw [htype] at hd
    rw [hother d (by rintro rfl; exact hfile hd)]
    exact hs.whole d hd
  · have : (t.view y).type = (s.view y).type := htype y
    rwa [this]

end Fs

end Xv6
