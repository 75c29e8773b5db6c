import Xv6.Fs.Dir
import Xv6.Sysfile

namespace Xv6

open Wp

def NotBfree (e : FsStop) : Prop := e ≠ .panic .bfree

namespace Fs

variable {s t u : Fs} {i j dp ip cwd : Ip} {x : ℕ} {L : List Ip}

variable {D : Fs → Prop}

namespace Net

theorem pos_of_mem (h : Net s t L) (hi : i ∈ L) : 0 < (t.itable i).ref := by
  have := List.count_pos_iff.mpr hi
  rw [h.ref]
  omega

theorem at_of_mem (h : Net s t L) (hi : i ∈ L) : t.At i (t.itable i).inum := ⟨h.pos_of_mem hi, rfl⟩

theorem held_of_keeps (h : Net s u L) (hj : j ∈ L) (hk : t.Keeps u j) (ht : t.Held j x) : u.Held j x :=
  hk.held ht (h.pos_of_mem hj)

end Net

theorem ilock_net (hs : s.Ok) (hc : s.Clean) (hi : s.At i x) :
    wp (ilock i) (fun _ t => Net s t [] ∧ t.Held i x) NotBfree s := by
  refine wp_mono (ilock_spec hs.table hi) ?_ ?_
  · rintro _ t ⟨hq, href, hheld⟩
    exact ⟨.of_quiet_same hs hc hq href, hheld⟩
  · rintro e (rfl | ⟨rfl, -⟩) <;> simp [NotBfree]

theorem iunlock_net (hs : s.Ok) (hc : s.Clean) (hi : s.At i x) :
    wp (iunlock i) (fun _ t => Net s t []) NotBfree s := by
  refine wp_mono (iunlock_spec hs.table hi) ?_ ?_
  · rintro _ t ⟨hq, href⟩
    exact .of_quiet_same hs hc hq href
  · rintro e rfl
    simp [NotBfree]

-- Giving back one of the references of a call.
theorem iput_net (h : Net s t (i :: L)) :
    wp (iput i) (fun _ u => Net s u L ∧ ∀ j ∈ L, t.Keeps u j) NotBfree t := by
  refine wp_mono (iput_spec h.ok h.clean (h.at_of_mem List.mem_cons_self)) ?_ ?_
  · intro _ u hp
    have hnet := h.put hp
    refine ⟨hnet, fun j hj => ?_⟩
    by_cases hji : j = i
    · subst hji
      exact hp.keep (hnet.pos_of_mem hj)
    · exact .of_eq (hp.entry j hji)
  · rintro e rfl
    simp [NotBfree]

theorem iunlockput_net (h : Net s t (i :: L)) :
    wp (iunlockput i) (fun _ u => Net s u L ∧ ∀ j ∈ L, t.Keeps u j) NotBfree t := by
  unfold iunlockput
  rw [wp_bind]
  refine wp_post (iunlock_net h.ok h.clean (h.at_of_mem List.mem_cons_self)) ?_
  intro _ t' hnet
  refine wp_post (iput_net (h.trans hnet)) ?_
  rintro _ u ⟨hnet', hkeep⟩
  refine ⟨hnet', fun j hj => ?_⟩
  exact (hnet.keep j (h.pos_of_mem (List.mem_cons_of_mem _ hj))).trans (hkeep j hj)

theorem dirlookup_net (hs : s.Ok) (hc : s.Clean) (hi : s.Held i x) (name : Name) :
    wp (dirlookup i name) (fun r t => match r with
      | none => Net s t []
      | some (j, _) => Net s t [j]) NotBfree s := by
  refine wp_mono (dirlookup_spec hs hi name) ?_ ?_
  · rintro (_ | ⟨j, off⟩) t ⟨-, ht⟩
    · rw [ht.1]
      exact .refl hs hc
    · obtain ⟨m, -, -, hfound⟩ := ht
      exact .of_quiet_one hs hc hfound.quiet hfound.ref
  · rintro e (rfl | rfl | ⟨rfl, -⟩) <;> simp [NotBfree]

theorem writeDirent_net (hs : s.Ok) (hc : s.Clean) (hi : s.Held i x) (de : Dirent) (off : ℕ) :
    wp (writeDirent i de off) (fun _ t => Net s t []) NotBfree s := by
  refine wp_mono (writei_spec hs hi _ off DIRENTSIZE (by decide)) ?_ fun _ h => h.elim
  intro _ t hw
  exact .of_edit hs.table hi hw.edit hw.ok (hw.clean hc) hw.grows.type

theorem dirlink_net (hs : s.Ok) (hc : s.Clean) (hi : s.Held i x) (name : Name) (inum : ℕ) :
    wp (dirlink i name inum) (fun _ t => Net s t []) NotBfree s := by
  unfold dirlink
  rw [wp_bind]
  refine wp_post (dirlookup_net hs hc hi name) ?_
  rintro (_ | ⟨j, off⟩) t hnet
  · simp only [wp_bind, wp_get, wp_pure]
    have hheld := hnet.held hi
    refine wp_mono (emptyLoop_spec hnet.ok hheld _ 0 (.inl (Nat.zero_add _))) ?_ ?_
    · rintro off _ ⟨rfl, -⟩
      refine wp_post (writeDirent_net hnet.ok hnet.clean hheld _ off) fun _ _ h => hnet.trans h
    · rintro e rfl
      simp [NotBfree]
  · simp only [wp_bind, wp_pure]
    exact wp_post (iput_net hnet) fun _ _ h => h.1

-- A fact about the file system that a path walk cannot change.
structure Lasting (D : Fs → Prop) : Prop where
  vol : ∀ {s t}, D s → t.vol = s.vol → D t
  put : ∀ {s t i x}, D s → s.Ok → Puts i x s t → D t

theorem iput_lasting (hD : Lasting D) (h : Net s t (i :: L)) (hd : D t) :
    wp (iput i) (fun _ u => Net s u L ∧ D u) NotBfree t := by
  refine wp_mono (iput_spec h.ok h.clean (h.at_of_mem List.mem_cons_self)) ?_ ?_
  · exact fun _ u hp => ⟨h.put hp, hD.put hd h.ok hp⟩
  · rintro e rfl
    simp [NotBfree]

theorem iunlock_lasting (hD : Lasting D) (hs : s.Ok) (hc : s.Clean) (hi : s.At i x) (hd : D s) :
    wp (iunlock i) (fun _ t => Net s t [] ∧ D t) NotBfree s := by
  refine wp_mono (iunlock_spec hs.table hi) ?_ ?_
  · rintro _ t ⟨hq, href⟩
    exact ⟨.of_quiet_same hs hc hq href, hD.vol hd hq.vol⟩
  · rintro e rfl
    simp [NotBfree]

theorem iunlockput_lasting (hD : Lasting D) (h : Net s t (i :: L)) (hd : D t) :
    wp (iunlockput i) (fun _ u => Net s u L ∧ D u) NotBfree t := by
  unfold iunlockput
  rw [wp_bind]
  refine wp_post (iunlock_lasting hD h.ok h.clean (h.at_of_mem List.mem_cons_self) hd) ?_
  rintro _ t' ⟨hnet, hd'⟩
  exact iput_lasting hD (h.trans hnet) hd'

theorem ilock_lasting (hD : Lasting D) (hs : s.Ok) (hc : s.Clean) (hi : s.At i x) (hd : D s) :
    wp (ilock i) (fun _ t => Net s t [] ∧ D t ∧ t.Held i x) NotBfree s := by
  refine wp_mono (ilock_spec hs.table hi) ?_ ?_
  · rintro _ t ⟨hq, href, hheld⟩
    exact ⟨.of_quiet_same hs hc hq href, hD.vol hd hq.vol, hheld⟩
  · rintro e (rfl | ⟨rfl, -⟩) <;> simp [NotBfree]

theorem idup_lasting (hD : Lasting D) (hs : s.Ok) (hc : s.Clean) (hi : s.At i x) (hd : D s) :
    wp (idup i) (fun j t => j = i ∧ Net s t [i] ∧ D t) NotBfree s := by
  refine wp_mono (idup_spec hs.table hi) ?_ fun _ h => h.elim
  rintro j t ⟨rfl, hq, href, -⟩
  exact ⟨rfl, .of_quiet_one hs hc hq href, hD.vol hd hq.vol⟩

def walked (r : Option (Ip × Name)) : List Ip := (r.map (·.1)).toList

theorem namexLoop_lasting (hD : Lasting D) (parent : Bool) (names : List Name) (h : Net s t [ip])
    (hd : D t) : wp (namexLoop parent names ip) (fun r u => Net s u (walked r) ∧ D u) NotBfree t := by
  induction names generalizing t ip with
  | nil =>
      unfold namexLoop
      simp only [wp_ite, wp_bind, wp_pure]
      split
      · exact iput_lasting hD h hd
      · exact ⟨h, hd⟩
  | cons name rest ih =>
      unfold namexLoop
      simp only [wp_bind, wp_get, wp_ite, wp_pure]
      refine wp_post (ilock_lasting hD h.ok h.clean (h.at_of_mem List.mem_cons_self) hd) ?_
      rintro _ t₁ ⟨hnet, hd₁, hheld⟩
      have h₁ : Net s t₁ [ip] := h.trans hnet
      split
      · exact iunlockput_lasting hD h₁ hd₁
      · split
        · exact wp_post (iunlock_lasting hD h₁.ok h₁.clean hheld.toAt hd₁) fun _ _ h => ⟨h₁.trans h.1, h.2⟩
        · refine wp_mono (dirlookup_spec h₁.ok hheld name) ?_ ?_
          · rintro (_ | ⟨next, off⟩) t₂ ⟨-, ht⟩
            · obtain ⟨rfl, -⟩ := ht
              simp only [wp_bind, wp_pure]
              exact iunlockput_lasting hD h₁ hd₁
            · obtain ⟨m, -, -, hfound⟩ := ht
              have h₂ := h₁.trans (.of_quiet_one h₁.ok h₁.clean hfound.quiet hfound.ref)
              simp only [wp_bind]
              refine wp_post (iunlockput_lasting hD (h₂.perm (List.Perm.swap ..)) (hD.vol hd₁ hfound.quiet.vol)) ?_
              exact fun _ _ h => ih h.1 h.2
          · rintro e (rfl | rfl | ⟨rfl, -⟩) <;> simp [NotBfree]

theorem namex_lasting (hD : Lasting D) (hs : s.Ok) (hc : s.Clean) (hcwd : s.At cwd x) (hd : D s)
    (path : List UInt8) (parent : Bool) :
    wp (namex cwd path parent) (fun r t => Net s t (walked r) ∧ D t) NotBfree s := by
  unfold namex
  simp only [wp_bind, wp_ite]
  split
  · refine wp_mono (iget_spec hs.table ROOTINO) ?_ ?_
    · rintro i t ⟨hq, href, -⟩
      exact namexLoop_lasting hD parent _ (.of_quiet_one hs hc hq href) (hD.vol hd hq.vol)
    · rintro e rfl
      simp [NotBfree]
  · refine wp_post (idup_lasting hD hs hc hcwd hd) ?_
    rintro _ t ⟨rfl, hnet, hd'⟩
    exact namexLoop_lasting hD parent _ hnet hd'

theorem namei_lasting (hD : Lasting D) (hs : s.Ok) (hc : s.Clean) (hcwd : s.At cwd x) (hd : D s)
    (path : List UInt8) : wp (namei cwd path) (fun r t => Net s t r.toList ∧ D t) NotBfree s := by
  unfold namei
  simp only [wp_bind, wp_pure]
  exact namex_lasting hD hs hc hcwd hd path false

theorem lasting_true : Lasting fun _ => True := ⟨fun _ _ => trivial, fun _ _ _ => trivial⟩

theorem namex_net (hs : s.Ok) (hc : s.Clean) (hcwd : s.At cwd x) (path : List UInt8) (parent : Bool) :
    wp (namex cwd path parent) (fun r t => match r with
      | none => Net s t []
      | some (j, _) => Net s t [j]) NotBfree s := by
  refine wp_post (namex_lasting lasting_true hs hc hcwd trivial path parent) ?_
  rintro (_ | ⟨j, name⟩) t h
  · exact h.1
  · exact h.1

theorem namei_net (hs : s.Ok) (hc : s.Clean) (hcwd : s.At cwd x) (path : List UInt8) :
    wp (namei cwd path) (fun r t => Net s t r.toList) NotBfree s :=
  wp_post (namei_lasting lasting_true hs hc hcwd trivial path) fun _ _ h => h.1

theorem setNlink_net (hs : s.Ok) (hc : s.Clean) (hi : s.Held i x) (f : BitVec 16 → BitVec 16) :
    wp (iupdate i) (fun _ t => Net s t []) NotBfree (s.setCopy i fun d => d.setNlink (f d.nlink)) :=
  wp_mono (update_spec (f := fun d => d.setNlink (f d.nlink)) hs hc hi rfl rfl rfl rfl)
    (fun _ _ h => h.1) fun _ h => h.elim

theorem createLinks_net (hs : s.Ok) (hc : s.Clean) {y : ℕ} (hdp : s.Held dp x) (hip : s.Held ip y)
    (name : Name) (type : FileType) :
    wp (createLinks dp ip name type) (fun _ t => Net s t []) NotBfree s := by
  unfold createLinks
  simp only [wp_bind, wp_get, wp_ite, wp_pure]
  split
  · refine wp_post (dirlink_net hs hc hip _ _) fun r t₁ h₁ => ?_
    split
    · exact h₁
    · refine wp_post (dirlink_net h₁.ok h₁.clean (h₁.held hip) _ _) fun r t₂ h₂ => ?_
      have h₂ := h₁.trans h₂
      split
      · exact h₂
      · exact wp_post (dirlink_net h₂.ok h₂.clean (h₂.held hdp) _ _) fun _ _ h => h₂.trans h
  · exact dirlink_net hs hc hdp _ _

structure OfType (s : Fs) (i : Ip) (type : FileType) : Prop where
  valid : (s.itable i).valid = true
  type : (s.itable i).copy.type = type

theorem OfType.keep {type : FileType} (h : s.OfType i type) (hk : s.Keeps t i) : t.OfType i type :=
  ⟨hk.valid h.valid, (hk.type h.valid).trans h.type⟩

theorem createNew_net (h : Net s t [dp]) (hdp : t.Held dp x) (name : Name) {type : FileType}
    (htype : type ≠ .free) (major minor : BitVec 16) :
    wp (createNew dp name type major minor) (fun r u => Net s u r.toList ∧ ∀ ip ∈ r, u.OfType ip type) NotBfree t := by
  have hnone : ∀ {u : Fs}, ∀ ip ∈ (none : Option Ip), u.OfType ip type := fun _ hip => (Option.not_mem_none _ hip).elim
  unfold createNew
  simp only [wp_bind, wp_get, h.ok.table.dev dp hdp.ref]
  refine wp_mono (ialloc_spec h.ok h.clean htype) ?_ ?_
  · rintro (_ | ip) t₁ h₁
    · subst h₁
      simp only [wp_bind, wp_pure]
      exact wp_post (iunlockput_net h) fun _ _ h => ⟨h.1, hnone⟩
    · obtain ⟨y, -, -, -, hat, hnet, hvol⟩ := h₁
      simp only [wp_bind, wp_modify, wp_ite, wp_pure]
      refine wp_mono (ilock_spec hnet.ok.table hat) ?_ ?_
      rotate_left
      · rintro e (rfl | ⟨rfl, -⟩) <;> simp [NotBfree]
      rintro _ t₂ ⟨hquiet, href, hip⟩
      have hnet₂ : Net t₁ t₂ [] := .of_quiet_same hnet.ok hnet.clean hquiet href
      have hnew : t₂.OfType ip type := by
        refine ⟨hip.valid, ?_⟩
        rw [← hnet₂.ok.table.view_eq hip, hquiet.view]
        change (t₁.vol.view y).type = type
        rw [hvol, Vol.view_setView]
        rfl
      refine wp_mono (update_spec
        (f := fun d => ({ d with major := major, minor := minor, nlink := 1 } : Dinode))
        hnet₂.ok hnet₂.clean hip rfl rfl rfl rfl) ?_ fun _ h => h.elim
      rintro _ t₃ ⟨hnet₃, -⟩
      have hnet₃' := (hnet.trans hnet₂).trans hnet₃
      have hip₃ := hnet₃.held hip
      refine wp_post (createLinks_net hnet₃.ok hnet₃.clean (hnet₃'.held hdp) hip₃ name type) ?_
      intro ok t₄ hnet₄
      have h₄ : Net s t₄ [ip, dp] := h.trans (hnet₃'.trans hnet₄)
      have hip₄ := hnet₄.held hip₃
      have hnew₄ := (hnew.keep (hnet₃.keep ip hip.ref)).keep (hnet₄.keep ip hip₃.ref)
      have hdp₄ := (hnet₃'.trans hnet₄).held hdp
      have hswap : ∀ {w}, Net s w [ip, dp] → Net s w [dp, ip] := fun h => h.perm (List.Perm.swap ..)
      split
      · split
        · refine wp_post (setNlink_net h₄.ok h₄.clean hdp₄ (· + 1)) fun _ t₅ h₅ => ?_
          refine wp_post (iunlockput_net (hswap (h₄.trans h₅))) fun _ t₆ h₆ => ⟨h₆.1, fun j hj => ?_⟩
          cases hj
          exact (hnew₄.keep (h₅.keep ip hip₄.ref)).keep (h₆.2 ip List.mem_cons_self)
        · refine wp_post (iunlockput_net (hswap h₄)) fun _ t₆ h₆ => ⟨h₆.1, fun j hj => ?_⟩
          cases hj
          exact hnew₄.keep (h₆.2 ip List.mem_cons_self)
      · refine wp_post (setNlink_net h₄.ok h₄.clean hip₄ fun _ => 0) fun _ t₅ h₅ => ?_
        refine wp_post (iunlockput_net (h₄.trans h₅)) fun _ t₆ h₆ => ?_
        exact wp_post (iunlockput_net h₆.1) fun _ _ h => ⟨h.1, hnone⟩
  · rintro e rfl
    simp [NotBfree]

theorem create_net (hs : s.Ok) (hc : s.Clean) (hcwd : s.At cwd x) (path : List UInt8) {type : FileType}
    (htype : type ≠ .free) (major minor : BitVec 16) :
    wp (create cwd path type major minor) (fun r t => Net s t r.toList ∧
      ∀ ip ∈ r, t.OfType ip type ∨ t.OfType ip .device) NotBfree s := by
  unfold create nameiparent
  simp only [wp_bind]
  refine wp_post (namex_net hs hc hcwd path true) ?_
  rintro (_ | ⟨dp, name⟩) t₁ h₁
  · exact ⟨h₁, fun _ hip => (Option.not_mem_none _ hip).elim⟩
  · simp only [wp_bind]
    refine wp_post (ilock_net h₁.ok h₁.clean (h₁.at_of_mem List.mem_cons_self)) ?_
    rintro _ t₂ ⟨hnet, hdp⟩
    have h₂ : Net s t₂ [dp] := h₁.trans hnet
    refine wp_post (dirlookup_net h₂.ok h₂.clean hdp name) ?_
    rintro (_ | ⟨ip, off⟩) t₃ h₃
    · exact wp_post (createNew_net (h₂.trans h₃) (h₃.held hdp) name htype major minor)
        fun _ _ h => ⟨h.1, fun ip hip => .inl (h.2 ip hip)⟩
    · simp only [wp_bind, wp_get, wp_ite, wp_pure]
      have h₃' : Net s t₃ [dp, ip] := (h₂.trans h₃).perm (List.Perm.swap ..)
      refine wp_post (iunlockput_net h₃') ?_
      rintro _ t₄ ⟨h₄, -⟩
      refine wp_post (ilock_net h₄.ok h₄.clean (h₄.at_of_mem List.mem_cons_self)) ?_
      rintro _ t₅ ⟨h₅, hip⟩
      split
      · rename_i hfound
        refine ⟨h₄.trans h₅, fun j hj => ?_⟩
        cases hj
        obtain ⟨rfl, hfile | hdevice⟩ := hfound
        · exact .inl ⟨hip.valid, hfile⟩
        · exact .inr ⟨hip.valid, hdevice⟩
      · exact wp_post (iunlockput_net (h₄.trans h₅)) fun _ _ h =>
          ⟨h.1, fun _ hip => (Option.not_mem_none _ hip).elim⟩

theorem Ok.outstanding (h : s.Ok) (n : ℕ) : Ok { s with outstanding := n } :=
  ⟨⟨h.table.dev, h.table.uniq, h.table.typed⟩, h.own, h.filled⟩

theorem Clean.outstanding (h : s.Clean) (n : ℕ) : Clean { s with outstanding := n } :=
  fun i x hi => h i x ⟨⟨hi.ref, hi.inum⟩, hi.valid⟩

theorem Net.endOp (h : Net { s with outstanding := s.outstanding + 1 } t L) :
    Net s { t with outstanding := t.outstanding - 1 } L where
  ok := h.ok.outstanding _
  clean := h.clean.outstanding _
  sb := h.sb
  outstanding := by
    change t.outstanding - 1 = _
    rw [h.outstanding]
    rfl
  ref := h.ref
  keep j hj := ⟨(h.keep j hj).inum, (h.keep j hj).valid, (h.keep j hj).type⟩

theorem linkBad_net (h : Net { s with outstanding := s.outstanding + 1 } t [ip]) :
    wp (linkBad ip) (fun _ u => Net s u []) NotBfree t := by
  unfold linkBad Xv6.endOp
  simp only [wp_bind, wp_modify, wp_pure]
  refine wp_post (ilock_net h.ok h.clean (h.at_of_mem List.mem_cons_self)) ?_
  rintro _ t₁ ⟨h₁, hip⟩
  refine wp_post (setNlink_net h₁.ok h₁.clean hip (· - 1)) fun _ t₂ h₂ => ?_
  exact wp_post (iunlockput_net (h.trans (h₁.trans h₂))) fun _ _ h => h.1.endOp

theorem linkNew_net (h : Net { s with outstanding := s.outstanding + 1 } t [ip]) (hcwd : t.At cwd x)
    (new : List UInt8) : wp (linkNew cwd ip new) (fun _ u => Net s u []) NotBfree t := by
  unfold linkNew nameiparent Xv6.endOp
  simp only [wp_bind]
  refine wp_post (namex_net h.ok h.clean hcwd new true) ?_
  rintro (_ | ⟨dp, name⟩) t₁ h₁
  · exact linkBad_net (h.trans h₁)
  · have h₁' := h.trans h₁
    simp only [wp_bind, wp_get, wp_ite, wp_pure, wp_modify]
    refine wp_post (ilock_net h₁'.ok h₁'.clean (h₁'.at_of_mem List.mem_cons_self)) ?_
    rintro _ t₂ ⟨h₂, hdp⟩
    have h₂' := h₁'.trans h₂
    split
    · exact wp_post (iunlockput_net h₂') fun _ _ h => linkBad_net h.1
    · refine wp_post (dirlink_net h₂'.ok h₂'.clean hdp _ _) fun r t₃ h₃ => ?_
      have h₃' := h₂'.trans h₃
      split
      · exact wp_post (iunlockput_net h₃') fun _ _ h => linkBad_net h.1
      · refine wp_post (iunlockput_net h₃') fun _ t₄ h₄ => ?_
        exact wp_post (iput_net h₄.1) fun _ _ h => h.1.endOp

theorem sysLink_net (hs : s.Ok) (hc : s.Clean) (hcwd : s.At cwd x) (old new : Option (List UInt8)) :
    wp (sysLink cwd old new) (fun _ t => Net s t []) NotBfree s := by
  unfold sysLink beginOp
  split
  · rename_i old new
    simp only [wp_bind, wp_modify]
    set s' : Fs := { s with outstanding := s.outstanding + 1 } with hs'
    have hcwd' : s'.At cwd x := ⟨hcwd.ref, hcwd.inum⟩
    refine wp_post (namei_net (hs.outstanding _) (hc.outstanding _) hcwd' old) ?_
    rintro (_ | ip) t₁ h₁
    · exact h₁.endOp
    · simp only [wp_bind, wp_get, wp_ite, wp_modify]
      refine wp_post (ilock_net h₁.ok h₁.clean (h₁.at_of_mem List.mem_cons_self)) ?_
      rintro _ t₂ ⟨h₂, hip⟩
      have h₂' : Net s' t₂ [ip] := h₁.trans h₂
      split
      · exact wp_post (iunlockput_net h₂') fun _ _ h => h.1.endOp
      · refine wp_post (setNlink_net h₂'.ok h₂'.clean hip (· + 1)) fun _ t₃ h₃ => ?_
        have h₃' := h₂'.trans h₃
        refine wp_post (iunlock_net h₃'.ok h₃'.clean (h₃.held hip).toAt) fun _ t₄ h₄ => ?_
        have h₄' := h₃'.trans h₄
        exact linkNew_net h₄' (h₄'.handle hcwd') new
  · exact .refl hs hc

theorem isdiremptyLoop_spec (hs : s.Ok) (hi : s.Held i x) (count k : ℕ)
    (hcount : k + count = direntCount (s.itable i).copy.size ∨ count = 0) :
    wp (isdiremptyLoop i count (DIRENTSIZE * k)) (fun r t => t = s ∧
      (r = true → ∀ m, k ≤ m → m < k + count → (s.vol.dirent x m).inum = 0))
      (fun e => e = .panic .isdirempty) s := by
  refine wp_scan (fun _ _ => rfl) hs hi hcount rfl (fun h => ?_) fun m _ _ _ _ => ?_
  · exact ⟨rfl, fun _ m hm hm' => not_not.mp (h m hm hm')⟩
  · exact ⟨rfl, fun h => Bool.noConfusion h⟩

theorem isdirempty_spec (hs : s.Ok) (hi : s.Held i x) :
    wp (isdirempty i) (fun r t => t = s ∧
      (r = true → ∀ m, 2 ≤ m → m < direntCount (s.view x).size → (s.vol.dirent x m).inum = 0))
      (fun e => e = .panic .isdirempty) s := by
  unfold isdirempty
  simp only [wp_bind, wp_get]
  rw [hs.table.view_eq hi, Nat.mul_comm 2]
  refine wp_post (isdiremptyLoop_spec hs hi _ 2 (by omega)) ?_
  rintro r t ⟨rfl, hr⟩
  exact ⟨rfl, fun h m hm hm' => hr h m hm (by omega)⟩

theorem unlinkBad_net (h : Net { s with outstanding := s.outstanding + 1 } t [dp]) :
    wp (unlinkBad dp) (fun _ u => Net s u []) NotBfree t := by
  unfold unlinkBad Xv6.endOp
  simp only [wp_bind, wp_modify, wp_pure]
  exact wp_post (iunlockput_net h) fun _ _ h => h.1.endOp

theorem unlinkEntry_net (h : Net { s with outstanding := s.outstanding + 1 } t [dp, ip]) {y : ℕ}
    (hdp : t.Held dp x) (hip : t.Held ip y) (off : ℕ) :
    wp (unlinkEntry dp ip off) (fun _ u => Net s u []) NotBfree t := by
  unfold unlinkEntry Xv6.endOp
  simp only [wp_bind, wp_ite, wp_throw, wp_get, wp_modify, wp_pure]
  refine wp_post (writeDirent_net h.ok h.clean hdp _ off) fun r t₁ h₁ => ?_
  -- What is left once the directory has been written back.
  have hrest : ∀ t₂, Net t t₂ [] → wp (iunlockput dp) (fun _ u =>
      wp (iupdate ip) (fun _ w => wp (iunlockput ip) (fun _ w' =>
        Net s { w' with outstanding := w'.outstanding - 1 } []) NotBfree w) NotBfree
        (u.setCopy ip fun d => d.setNlink (d.nlink - 1))) NotBfree t₂ := by
    intro t₂ h₂
    refine wp_post (iunlockput_net (h.trans h₂)) ?_
    rintro _ t₃ ⟨h₃, hkeep⟩
    have hip₃ := h₃.held_of_keeps List.mem_cons_self (hkeep ip List.mem_cons_self) (h₂.held hip)
    refine wp_post (setNlink_net h₃.ok h₃.clean hip₃ (· - 1)) fun _ t₄ h₄ => ?_
    exact wp_post (iunlockput_net (h₃.trans h₄)) fun _ _ h => h.1.endOp
  split
  · simp [NotBfree]
  · split
    · refine wp_post (setNlink_net h₁.ok h₁.clean (h₁.held hdp) (· - 1)) fun _ t₂ h₂ => ?_
      exact hrest t₂ (h₁.trans h₂)
    · exact hrest t₁ h₁

theorem sysUnlink_net (hs : s.Ok) (hc : s.Clean) (hcwd : s.At cwd x) (path : Option (List UInt8)) :
    wp (sysUnlink cwd path) (fun _ t => Net s t []) NotBfree s := by
  unfold sysUnlink beginOp nameiparent
  split
  · exact .refl hs hc
  · rename_i path
    simp only [wp_bind, wp_modify]
    set s' : Fs := { s with outstanding := s.outstanding + 1 } with hs'
    have hcwd' : s'.At cwd x := ⟨hcwd.ref, hcwd.inum⟩
    refine wp_post (namex_net (hs.outstanding _) (hc.outstanding _) hcwd' path true) ?_
    rintro (_ | ⟨dp, name⟩) t₁ h₁
    · exact h₁.endOp
    · simp only [wp_bind, wp_ite]
      refine wp_post (ilock_net h₁.ok h₁.clean (h₁.at_of_mem List.mem_cons_self)) ?_
      rintro _ t₂ ⟨h₂, hdp⟩
      have h₂' : Net s' t₂ [dp] := h₁.trans h₂
      split
      · exact unlinkBad_net h₂'
      · refine wp_post (dirlookup_net h₂'.ok h₂'.clean hdp name) ?_
        rintro (_ | ⟨ip, off⟩) t₃ h₃
        · exact unlinkBad_net (h₂'.trans h₃)
        · have h₃' : Net s' t₃ [ip, dp] := h₂'.trans h₃
          simp only [wp_bind, wp_get, wp_ite, wp_throw]
          refine wp_post (ilock_net h₃'.ok h₃'.clean (h₃'.at_of_mem List.mem_cons_self)) ?_
          rintro _ t₄ ⟨h₄, hip⟩
          have h₄' : Net s' t₄ [ip, dp] := h₃'.trans h₄
          have hdp₄ := (h₃.trans h₄).held hdp
          have hunlink := unlinkEntry_net (h₄'.perm (List.Perm.swap ..)) hdp₄ hip off
          split
          · simp [NotBfree]
          · split
            · refine wp_mono (isdirempty_spec h₄'.ok hip) ?_ ?_
              · rintro empty t₅ ⟨rfl, -⟩
                split
                · exact hunlink
                · exact wp_post (iunlockput_net h₄') fun _ _ h => unlinkBad_net h.1
              · rintro e rfl
                simp [NotBfree]
            · exact hunlink

end Fs

end Xv6
