import Xv6.File.Calls
import Xv6.Fs.Theorems
import Xv6.Lib.Except

namespace Xv6

open Wp Transition FilesM
open Sched (first)

-- The system calls of a process that use files.
inductive FileCall
  | openPath (path : Option (List UInt8)) (omode : BitVec 32)
  | mkdir (path : Option (List UInt8))
  | mknod (path : Option (List UInt8)) (major minor : BitVec 32)
  | link (old new : Option (List UInt8))
  | unlink (path : Option (List UInt8))
  | chdir (path : Option (List UInt8))
  | dup (fd : Int)
  | close (fd : Int)
  | fork (np : Slot)
  | exit

namespace FileCall

def run (p : Slot) : FileCall → FilesM Unit
  | openPath path omode => discard (sysOpen p path omode)
  | mkdir path => discard (sysMkdir p path)
  | mknod path major minor => discard (sysMknod p path major minor)
  | link old new => discard do ofFs (sysLink (← mycwd p) old new)
  | unlink path => discard do ofFs (sysUnlink (← mycwd p) path)
  | chdir path => discard (sysChdir p path)
  | dup fd => discard (sysDup p fd)
  | close fd => discard (sysClose p fd)
  | fork np => forkFiles p np
  | exit => exitFiles p

def Ready (s : Files) : FileCall → Prop
  | fork np => s.cwd np = none ∧ ∀ fd, s.ofile np fd = none
  | _ => True

-- What a call asks of create, sys_link and sys_unlink, after which I may hold only if
-- Q holds of the working directory.
def Allowed (I : Fs → Prop) (Q : Ip → Prop) (E : FsStop → Prop) (fs : Fs) : FileCall → Prop
  | openPath _ omode => ∀ path, omode &&& O_CREATE ≠ 0 → Files.Creates I E fs.begun path .file 0 0
  | mkdir _ => ∀ path, Files.Creates I E fs.begun path .dir 0 0
  | mknod _ major minor => ∀ path, Files.Creates I E fs.begun path .device (major.setWidth 16) (minor.setWidth 16)
  | link old new => ∀ c x, fs.At c x → wp (sysLink c old new) (fun _ t => fs.Net t [] ∧ (Q c → I t)) E fs
  | unlink path => ∀ c x, fs.At c x → wp (sysUnlink c path) (fun _ t => fs.Net t [] ∧ (Q c → I t)) E fs
  | _ => True

def Spares (fs : Fs) (cwd : Ip) : FileCall → Prop
  | unlink path => fs.UnlinkSafe path cwd
  | _ => True

end FileCall

def FileStep (s t : Files) : Prop := ∃ p, ∃ call : FileCall, call.Ready s ∧ call.run p s = .ok ((), t)

-- A call that starts with no link count at its last value, and that takes no ".." away.
def SafeStep (s t : Files) : Prop :=
  s.fs.vol.tree.Roomy ∧ ∃ p, ∃ call : FileCall, call.Ready s ∧ (∀ c, s.cwd p = some c → call.Spares s.fs c) ∧
    call.run p s = .ok ((), t)

-- An image whose directories hang together, no inode of which is in use.
structure Fs.Formatted (s : Fs) : Prop extends s.WellFormed where
  tree : (Vol.mk s.dinode s.bitmap s.data).tree.Ok 0
  whole : (Vol.mk s.dinode s.bitmap s.data).Whole
  small : s.sb.ninodes ≤ 2 ^ 16

def Files.start (ram : Ram) (fs : Fs) : Files where
  ram := ram
  fs := fs
  ftable _ := ⟨0, false, false, .none⟩
  pipe _ := ⟨false, false⟩
  cwd _ := none
  ofile _ _ := none

def userinit (p : Slot) : FilesM Unit := do
  let ip ← ofFs (iget ROOTDEV ROOTINO)
  modify (·.setCwd p (some ip))

namespace Files

variable {s t : Files}

variable {I : Fs → Prop} {fs : Fs} {ram : Ram} {p : Slot}

theorem run_rest {Q : Ip → Prop} {E : FsStop → Prop} (R : Rules I E) (h : AtRest I s) (p : Slot) (call : FileCall)
    (hready : call.Ready s) (hallowed : call.Allowed I Q E s.fs) :
    wp (call.run p) (fun _ t => (∀ c, s.cwd p = some c → Q c) → AtRest I t) (Stops E) s := by
  cases call with
  | openPath path omode => exact wp_discard (wp_post (sysOpen_rest R h p path omode hallowed) fun _ _ h _ => h)
  | mkdir path => exact wp_discard (wp_post (sysCreate_rest R h p path .dir 0 0 hallowed) fun _ _ h _ => h)
  | mknod path major minor =>
      exact wp_discard (wp_post (sysCreate_rest R h p path .device _ _ hallowed) fun _ _ h _ => h)
  | link old new => exact wp_discard (fsCall_rest h p _ hallowed)
  | unlink path => exact wp_discard (fsCall_rest h p _ hallowed)
  | chdir path => exact wp_discard (wp_post (sysChdir_rest R h p path) fun _ _ h _ => h)
  | dup fd => exact wp_discard (wp_post (sysDup_rest h p fd) fun _ _ h _ => h)
  | close fd => exact wp_discard (wp_post (sysClose_rest R h p fd) fun _ _ h _ => h)
  | fork np => exact wp_post (forkFiles_rest R h p np hready.1 hready.2) fun _ _ h _ => h
  | exit => exact wp_post (exitFiles_rest R h p) fun _ _ h _ => h

theorem linkedRules : Rules (·.Linked 0) NotNoType where
  ok h := h.ok
  clean h := h.clean
  outstanding n h := h.outstanding n
  iput h hi := Fs.iput_linked h hi
  idup {s i x} h hi := by
    refine wp_mono (Fs.idup_spec h.ok.table hi) ?_ fun _ he => he.elim
    rintro c fs ⟨rfl, hq, href, hat⟩
    have hnet : s.Net fs [c] := .of_quiet_one h.ok h.clean hq href
    refine ⟨rfl, hnet, h.of_vol hnet hq.vol fun j hj => ?_⟩
    rw [List.mem_singleton.mp hj, hat.inum, hq.view]
    exact h.typed c _ hi
  ilock h hi := wp_post (Fs.ilock_rests h hi) fun _ _ ht => ⟨ht.1.toNet, ht.1.linked, ht.2.2⟩
  iunlock h hi := wp_post (Fs.iunlock_rests h hi) fun _ _ ht => ⟨ht.1.toNet, ht.1.linked⟩
  itrunc h hi htype := wp_post (Fs.itrunc_linked h hi htype) fun _ _ ht => ⟨ht.1, ht.2.1⟩
  namei path h hc := wp_post (Fs.namei_rests h hc path) fun _ _ ht => ⟨ht.toNet, ht.linked⟩

theorem creates_linked (h : fs.Linked 0) (hroomy : fs.vol.tree.Roomy) (path : List UInt8) {type : FileType}
    (htype : type ≠ .free) (major minor : BitVec 16) :
    Creates (·.Linked 0) NotNoType fs.begun path type major minor := fun c x hc => by
  have h' : fs.begun.Linked 0 := h.outstanding _
  exact wp_mono (wp_and (Fs.create_net h'.ok h'.clean hc path htype major minor)
    (Fs.create_linked h' hroomy hc path htype major minor)) (fun _ _ ht => ⟨ht.1.1, ht.2.1, ht.1.2⟩) fun _ he => he.2

theorem allowed_linked (h : fs.Linked 0) (hroomy : fs.vol.tree.Roomy) (call : FileCall) :
    call.Allowed (·.Linked 0) (call.Spares fs) NotNoType fs := by
  cases call with
  | openPath path omode => exact fun path _ => creates_linked h hroomy path (by decide) 0 0
  | mkdir path => exact fun path => creates_linked h hroomy path (by decide) 0 0
  | mknod path major minor => exact fun path => creates_linked h hroomy path (by decide) _ _
  | link old new =>
      exact fun c x hc => wp_mono (wp_and (Fs.sysLink_net h.ok h.clean hc old new)
        (Fs.sysLink_linked h hroomy hc old new)) (fun _ _ ht => ⟨ht.1, fun _ => ht.2⟩) fun _ he => he.2
  | unlink path =>
      exact fun c x hc => wp_mono (wp_and (Fs.sysUnlink_net h.ok h.clean hc path)
        (Fs.sysUnlink_linked h hc path)) (fun _ _ ht => ht) fun _ he => he.2
  | chdir | dup | close | fork | exit => trivial

theorem run_inv (h : s.Inv) (hroomy : s.fs.vol.tree.Roomy) (p : Slot) (call : FileCall) (hready : call.Ready s) :
    wp (call.run p) (fun _ t => (∀ c, s.cwd p = some c → call.Spares s.fs c) → t.Inv) Fine s :=
  wp_mono (run_rest linkedRules h p call hready (allowed_linked h.inv hroomy call)) (fun _ _ ht => ht)
    fun _ => Stops.fine

theorem sysOpen_inv (h : s.Inv) (hroomy : s.fs.vol.tree.Roomy) (p : Slot) (path : Option (List UInt8))
    (omode : BitVec 32) : wp (sysOpen p path omode) (fun _ t => t.Inv) Fine s :=
  wp_mono (sysOpen_rest linkedRules h p path omode fun path _ => creates_linked h.inv hroomy path (by decide) 0 0)
    (fun _ _ ht => ht) fun _ => Stops.fine

theorem start_rest (ram : Ram) (hI : I fs) : AtRest I (start ram fs) := by
  refine ⟨hI, fun i => ?_, fun f => ?_, fun _ _ => rfl, fun _ _ hw => by cases hw⟩
  · have : Refcount.held (inodeOf (start ram fs).cwd (start ram fs).ftable) i = 0 :=
      Finset.sum_eq_zero fun a _ => if_neg (by cases a <;> simp [inodeOf, start, FileKind.ip])
    rw [this]
    exact Nat.zero_le _
  · have : Refcount.held (fileOf (start ram fs).ofile) f = 0 :=
      Finset.sum_eq_zero fun a _ => if_neg (by simp [fileOf, start])
    rw [this]
    exact Nat.zero_le _

theorem start_inv (h : fs.Formatted) : (start ram fs).Inv := by
  have hpos : ∀ i, ¬0 < (fs.itable i).ref := fun i => by
    rw [h.unused]
    exact Nat.lt_irrefl 0
  have hview : fs.view = fs.dinode := funext fun x => Fs.view_of_not_held fun i hi => hpos i hi.ref
  have hvol : fs.vol = ⟨fs.dinode, fs.bitmap, fs.data⟩ := by rw [Fs.vol, hview]
  exact start_rest ram ⟨⟨h.ok, fun i x hi => absurd hi.ref (hpos i), hvol ▸ h.whole,
    fun i x hi => absurd hi.ref (hpos i), h.small⟩, hvol ▸ h.tree⟩

theorem userinit_rest {E : FsStop → Prop} (h : AtRest I s) (hp : s.cwd p = none)
    (higet : wp (iget ROOTDEV ROOTINO) (fun ip t => s.fs.Net t [ip] ∧ I t) E s.fs) :
    wp (userinit p) (fun _ t => AtRest I t) (Stops E) s := by
  unfold userinit
  rw [wp_bind, wp_ofFs]
  refine wp_post higet ?_
  rintro ip fs ⟨hnet, hI⟩
  have hset : Holds I (Function.update s.cwd p (some ip)) s.ofile { s with fs := fs } [] [] :=
    (Holds.of_net h hnet hI).setCwd p (some ip) fun j => by simp [hp, List.count_singleton]
  exact ⟨hset.inv, hset.inodes, hset.files, hset.idle, hset.writers⟩

theorem userinit_inv (h : s.Inv) (hp : s.cwd p = none) :
    wp (userinit p) (fun _ t => t.Inv) Fine s := by
  refine wp_mono (userinit_rest h hp (E := NotNoType) ?_) (fun _ _ ht => ht) fun _ => Stops.fine
  refine wp_mono (Fs.iget_spec h.inv.ok.table ROOTINO) ?_ fun e he => by simp [he, NotNoType]
  rintro ip fs ⟨hq, href, hat⟩
  have hnet : s.fs.Net fs [ip] := .of_quiet_one h.inv.ok h.inv.clean hq href
  refine ⟨hnet, h.inv.of_vol hnet hq.vol fun j hj => ?_⟩
  rw [List.mem_singleton.mp hj, hat.inum, hq.view]
  have : (s.fs.view ROOTINO).type = .dir := h.inv.tree.root.1
  rw [this]
  decide

theorem reachable_inv {image : Fs} {s₀ : Files} (h : image.Formatted)
    (h₀ : userinit p (start ram image) = .ok ((), s₀)) (hrun : Reaches SafeStep s₀ s) : s.Inv := by
  refine hrun.invariant Inv ((wp_of_ok h₀).mp (userinit_inv (start_inv h) rfl)) ?_
  rintro t u ht ⟨hroomy, q, call, hready, hspares, hstep⟩
  exact (wp_of_ok hstep).mp (run_inv ht hroomy q call hready) hspares

-- As long as no step takes the ".." of a nameless directory away, every entry
-- of every directory names an inode in use.
theorem entries_allocated {image : Fs} {s₀ : Files} (h : image.Formatted)
    (h₀ : userinit p (start ram image) = .ok ((), s₀)) (hrun : Reaches SafeStep s₀ s) :
    (∀ d k, (s.fs.dinode d).type = .dir → (s.fs.vol.tree.ent d k).inum ≠ 0 →
      (s.fs.dinode (s.fs.vol.tree.ent d k).inum).type ≠ .free) ∧
    (s.fs.vol.tree.Roomy → ∀ q (call : FileCall), call.Ready s →
      call.run q s ≠ .error (.fs (.panic .ilockNoType))) := by
  have hinv := reachable_inv h h₀ hrun
  refine ⟨fun d k hd hk => ?_, fun hroomy q call hready hpanic => ?_⟩
  · have hview := hinv.inv.clean.view_eq hinv.inv.ok.table
    have hd0 : d ≠ 0 := by
      rintro rfl
      have := hinv.inv.tree.zero
      rw [show s.fs.vol.tree.type 0 = (s.fs.view 0).type from rfl, hview, hd] at this
      cases this
    rw [← hview]
    exact hinv.inv.tree.type_ent hd0 hk
  · exact (wp_of_error hpanic).mp (run_inv hinv hroomy q call hready) rfl

end Files

-- What mkfs writes when it is given no programs: the root directory.
def mkfsRoot : Block := fun k =>
  if k.val = 0 ∨ k.val = 16 then 1 else if k.val = 2 ∨ k.val = 18 ∨ k.val = 19 then 0x2e else 0

def mkfs : Fs where
  sb := ⟨FSSIZE, FSSIZE - 46, 200⟩
  dinode x := if x = ROOTINO then ⟨.dir, 0, 0, 1, BSIZE, fun j => if j = 0 then 46 else 0⟩ else .zero .free
  bitmap b := b < 47
  data b := if b = 46 then mkfsRoot else fun _ => 0
  itable _ := ⟨0, 0, 0, false, false, .zero .free⟩
  outstanding := 0

namespace Mkfs

theorem view_other {x : ℕ} (h : x ≠ ROOTINO) : mkfs.dinode x = .zero .free := if_neg h

theorem block_eq {x r : ℕ} (h : (Vol.mk mkfs.dinode mkfs.bitmap mkfs.data).block x r ≠ 0) :
    x = ROOTINO ∧ r = 0 ∧ (Vol.mk mkfs.dinode mkfs.bitmap mkfs.data).block x r = 46 := by
  unfold Vol.block Dinode.block at h ⊢
  by_cases hx : x = ROOTINO
  · subst hx
    by_cases hr : r = 0
    · subst hr
      exact ⟨rfl, rfl, rfl⟩
    · simp [mkfs, hr, NDIRECT] at h
  · simp [view_other hx, Dinode.zero] at h

theorem wellFormed : mkfs.WellFormed where
  unused _ := rfl
  own := by
    refine ⟨⟨fun a b h => ?_, fun a a' b h h' => ?_, fun b hb hbit => ⟨(ROOTINO, 0), ?_⟩⟩, fun b hb => ?_,
      by decide, by decide, fun x hx j _ => ?_⟩
    · obtain ⟨hnz, rfl⟩ := Vol.ref_eq_some.mp h
      rw [(block_eq hnz).2.2]
      exact ⟨by constructor <;> decide, rfl⟩
    · obtain ⟨hnz, rfl⟩ := Vol.ref_eq_some.mp h
      obtain ⟨-, h'⟩ := Vol.ref_eq_some.mp h'
      have h₁ := block_eq hnz
      have h₂ := block_eq (h' ▸ hnz)
      exact Prod.ext (h₁.1.trans h₂.1.symm) (h₁.2.1.trans h₂.2.1.symm)
    · simp only [Superblock.pool, mkfs, Set.mem_ofPred_eq, decide_eq_true_eq, FSSIZE] at hb hbit
      rw [show b = 46 by omega]
      rfl
    · simp only [mkfs, FSSIZE, decide_eq_true_eq] at hb ⊢
      omega
    · have hne : x ≠ ROOTINO := by
        rintro rfl
        cases hx
      change (mkfs.dinode x).addrs j = 0
      rw [view_other hne]
      rfl
  filled := by
    refine ⟨fun x => ?_, fun x bn h => ?_⟩ <;> by_cases hx : x = ROOTINO
    · subst hx
      decide
    · change (mkfs.dinode x).size ≤ _
      rw [view_other hx]
      exact Nat.zero_le _
    · subst hx
      change bn * BSIZE < BSIZE at h
      have hbn : bn = 0 := by
        simp only [BSIZE] at h
        omega
      subst hbn
      decide
    · change bn * BSIZE < (mkfs.dinode x).size at h
      rw [view_other hx] at h
      exact absurd h (Nat.not_lt_zero _)

theorem type_dir {x : ℕ} (h : (mkfs.dinode x).type = .dir) : x = ROOTINO := by
  by_contra hx
  rw [view_other hx] at h
  cases h

set_option maxRecDepth 4000 in
theorem root_entries : ∀ k < 64, 2 ≤ k →
    ((Vol.mk mkfs.dinode mkfs.bitmap mkfs.data).dirent ROOTINO k).inum = 0 := by
  decide +kernel

theorem ent_inum {d k : ℕ} (h : ((Vol.mk mkfs.dinode mkfs.bitmap mkfs.data).tree.ent d k).inum ≠ 0) :
    d = ROOTINO ∧ k < 2 := by
  unfold Vol.tree at h
  simp only at h
  split at h
  · rename_i hd
    have hroot := type_dir hd.1
    subst hroot
    refine ⟨rfl, ?_⟩
    by_contra hk
    exact h (root_entries k hd.2 (by omega))
  · exact absurd rfl h

theorem no_names {d k : ℕ} (hk : 2 ≤ k) :
    ((Vol.mk mkfs.dinode mkfs.bitmap mkfs.data).tree.ent d k).inum = 0 := by
  by_contra h
  exact absurd (ent_inum h).2 (by omega)

theorem tree_ok : (Vol.mk mkfs.dinode mkfs.bitmap mkfs.data).tree.Ok 0 where
  zero := rfl
  word x hx := by
    by_contra hlt
    refine hx ?_
    change (mkfs.dinode x).type = .free
    rw [view_other (by rintro rfl; exact hlt (by decide))]
    rfl
  root := ⟨rfl, by decide +kernel⟩
  dir d k h := by
    rw [(ent_inum h).1]
    rfl
  dot d hd _ := by
    rw [type_dir hd]
    decide +kernel
  dotdot d hd _ := by
    rw [type_dir hd]
    decide +kernel
  parent d hd _ := by
    rw [type_dir hd]
    decide +kernel
  used d k hk h := absurd (no_names hk) h
  child d k hk h := by
    rw [no_names hk] at h
    cases h
  once d k k' hk _ h _ := by
    rw [no_names hk] at h
    cases h
  count x hx S K hS hK := by
    have hS₀ : S = ∅ := Finset.eq_empty_of_forall_notMem fun p hp => hx ((hS p hp).2 ▸ no_names (hS p hp).1)
    have hK₀ : K = ∅ := Finset.eq_empty_of_forall_notMem fun k hk => by
      have h := (hK k hk).2
      rw [no_names (hK k hk).1] at h
      cases h
    rw [hS₀, hK₀]
    split
    · rename_i hroot
      subst hroot
      decide
    · exact Nat.zero_le _

theorem formatted : mkfs.Formatted where
  toWellFormed := wellFormed
  tree := tree_ok
  whole := by
    intro d hd
    rw [type_dir hd]
    rfl
  small := by decide

end Mkfs

namespace Files

def ram0 : Ram := ⟨fun _ _ => 0, 0, [], []⟩

-- "/a" and "/a/b"
def pathA : List UInt8 := [0x2f, 0x61]
def pathAB : List UInt8 := [0x2f, 0x61, 0x2f, 0x62]

def booted : Files :=
  { start ram0 mkfs with
    fs := mkfs.setInode Fs.ip0 fun ip => ⟨ROOTDEV, ROOTINO, 1, ip.lock, false, ip.copy⟩
    cwd := Function.update (fun _ => none) first (some Fs.ip0) }

theorem userinit_booted : userinit first (start ram0 mkfs) = .ok ((), booted) := rfl

theorem view_booted (x : ℕ) : booted.fs.view x = mkfs.dinode x := by
  have hinv := (wp_of_ok userinit_booted).mp (userinit_inv (start_inv Mkfs.formatted) rfl)
  rw [hinv.inv.clean.view_eq hinv.inv.ok.table]
  rfl

theorem booted_inv : booted.Inv := (wp_of_ok userinit_booted).mp (userinit_inv (start_inv Mkfs.formatted) rfl)

theorem booted_roomy : booted.fs.vol.tree.Roomy := by
  intro x hx
  change (booted.fs.view x).nlink.toNat + 1 < _
  rw [view_booted]
  by_cases hroot : x = ROOTINO
  · subst hroot
    decide
  · rw [Mkfs.view_other hroot]
    decide

theorem entries_allocated_mkdir : ∃ s, Reaches SafeStep booted s ∧ (s.fs.dinode 2).type = .dir ∧
    (s.fs.vol.tree.ent 2 1).inum = ROOTINO ∧ (s.fs.dinode ROOTINO).type ≠ .free := by
  have hrun : decide (wp ((FileCall.mkdir (some pathA)).run first) (fun _ s => (s.fs.dinode 2).type = .dir ∧
      (s.fs.vol.tree.ent 2 1).inum = ROOTINO) (fun _ => False) booted) := by
    decide +kernel
  obtain ⟨_, s, hs, hdir, hent⟩ := exists_of_decide_wp hrun
  have hstep : SafeStep booted s := ⟨booted_roomy, first, .mkdir (some pathA), trivial, fun _ _ => trivial, hs⟩
  refine ⟨s, .single hstep, hdir, hent, ?_⟩
  have hall := (entries_allocated Mkfs.formatted userinit_booted (.single hstep)).1 2 1 hdir
  rw [hent] at hall
  exact hall (by decide)

def nestedUnlink : List FileCall :=
  [.mkdir (some pathA), .mkdir (some pathAB), .chdir (some pathAB), .unlink (some pathAB), .unlink (some pathA)]

-- The working directory is still there, its ".." is not.
theorem unlink_parent_of_cwd : mkfs.Formatted ∧ userinit first (start ram0 mkfs) = .ok ((), booted) ∧
    ∃ s, Reaches FileStep booted s ∧ (∃ i, s.cwd first = some i ∧ (s.fs.itable i).inum = 3) ∧
      (s.fs.dinode 3).type = .dir ∧ (s.fs.vol.tree.ent 3 1).inum = 2 ∧ (s.fs.dinode 2).type = .free ∧
      (FileCall.chdir (some dotdot)).run first s = .error (.fs (.panic .ilockNoType)) := by
  have hrun : (replay (fun s c => (c.run first s).toOption.map Prod.snd) booted nestedUnlink).any fun s => decide
      ((∃ i, s.cwd first = some i ∧ (s.fs.itable i).inum = 3) ∧ (s.fs.dinode 3).type = .dir ∧
      (s.fs.vol.tree.ent 3 1).inum = 2 ∧ (s.fs.dinode 2).type = .free ∧
      decide (wp ((FileCall.chdir (some dotdot)).run first) (fun _ _ => False) (· = .fs (.panic .ilockNoType)) s)) := by
    decide +kernel
  have hnext : ∀ c ∈ nestedUnlink, ∀ s t, (FileCall.run first c s).toOption.map Prod.snd = some t → FileStep s t := by
    intro c hc s t h
    obtain ⟨⟨_, _⟩, hr, rfl⟩ := Option.map_eq_some_iff.mp h
    refine ⟨first, c, ?_, Except.eq_ok_of_toOption hr⟩
    simp only [nestedUnlink, List.mem_cons, List.not_mem_nil, or_false] at hc
    rcases hc with rfl | rfl | rfl | rfl | rfl <;> trivial
  obtain ⟨s, hs, hcwd, hdir, hent, hfree, hpanic⟩ := exists_of_replay _ _ _ hrun hnext
  exact ⟨Mkfs.formatted, userinit_booted, s, hs, hcwd, hdir, hent, hfree, eq_error_of_decide_wp hpanic⟩

end Files

end Xv6
