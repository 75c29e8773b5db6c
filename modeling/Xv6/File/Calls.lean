import Xv6.File.Invariant

namespace Xv6

open Wp Refcount FilesM
open Function (update update_of_ne update_self)

def Fs.begun (s : Fs) : Fs := { s with outstanding := s.outstanding + 1 }

namespace Files

variable {I : Fs → Prop} {Q : Ip → Prop} {E : FsStop → Prop} {s t : Files} {cwd : Slot → Option Ip}
  {ofile : Slot → Fin NOFILE → Option Fd}

theorem endOp_rest (R : Rules I E) (h : AtRest I s) : wp (ofFs endOp) (fun _ t => AtRest I t) (Stops E) s := by
  unfold endOp
  simp only [wp_ofFs, wp_modify]
  exact Holds.outstanding R h _

theorem sysOpen_rest (R : Rules I E) (h : AtRest I s) (p : Slot) (path : Option (List UInt8)) (omode : BitVec 32)
    (hcreate : ∀ path, omode &&& O_CREATE ≠ 0 → Creates I E s.fs.begun path .file 0 0) :
    wp (sysOpen p path omode) (fun _ t => AtRest I t) (Stops E) s := by
  unfold sysOpen
  split
  · exact h
  · rename_i path
    unfold beginOp
    simp only [wp_bind, wp_ofFs, wp_modify]
    have h₁ : AtRest I { s with fs := s.fs.begun } := Holds.outstanding R h _
    refine wp_post (mycwd_spec p _) ?_
    rintro c s₁ ⟨rfl, hc⟩
    refine wp_post (openInode_spec R h₁.inv (Holds.handle_cwd h₁ hc) path omode (hcreate path)) ?_
    rintro (_ | ip) fs ⟨hnet, hI, hof⟩
    · simp only [wp_bind, wp_pure]
      exact endOp_rest R (Holds.of_net h₁ hnet hI)
    · obtain ⟨type, hof, hdir⟩ := hof ip rfl
      exact openFile_rest R (Holds.of_net h₁ hnet hI) p omode hof hdir

theorem sysCreate_rest (R : Rules I E) (h : AtRest I s) (p : Slot) (path : Option (List UInt8)) (type : FileType)
    (major minor : BitVec 16) (hcreate : ∀ path, Creates I E s.fs.begun path type major minor) :
    wp (sysCreate p path type major minor) (fun _ t => AtRest I t) (Stops E) s := by
  have h₁ : AtRest I { s with fs := s.fs.begun } := Holds.outstanding R h _
  unfold sysCreate beginOp
  rw [wp_bind, wp_ofFs, wp_modify]
  split
  · simp only [wp_bind, wp_pure]
    exact endOp_rest R h₁
  · rename_i path
    simp only [wp_bind]
    refine wp_post (mycwd_spec p _) ?_
    rintro c s₁ ⟨rfl, hc⟩
    rw [wp_ofFs]
    refine wp_post (hcreate path c _ (Holds.handle_cwd h₁ hc)) ?_
    rintro (_ | ip) fs ⟨hnet, hI, -⟩
    · simp only [wp_bind, wp_pure]
      exact endOp_rest R (Holds.of_net h₁ hnet hI)
    · rw [wp_bind, wp_ofFs]
      exact iunlockputOp_holds R (Holds.of_net h₁ hnet hI)

theorem sysChdir_rest (R : Rules I E) (h : AtRest I s) (p : Slot) (path : Option (List UInt8)) :
    wp (sysChdir p path) (fun _ t => AtRest I t) (Stops E) s := by
  have h₁ : AtRest I { s with fs := s.fs.begun } := Holds.outstanding R h _
  unfold sysChdir beginOp
  rw [wp_bind, wp_ofFs, wp_modify]
  split
  · simp only [wp_bind, wp_pure]
    exact endOp_rest R h₁
  · rename_i path
    simp only [wp_bind]
    refine wp_post (mycwd_spec p _) ?_
    rintro c s₁ ⟨rfl, hc⟩
    rw [wp_ofFs]
    refine wp_post (R.namei path h₁.inv (Holds.handle_cwd h₁ hc)) ?_
    rintro (_ | ip) fs ⟨hnet, hI⟩
    · simp only [wp_bind, wp_pure]
      exact endOp_rest R (Holds.of_net h₁ hnet hI)
    · have h₂ : Holds I s.cwd s.ofile { s with fs := fs } [ip] [] := Holds.of_net h₁ hnet hI
      rw [wp_bind, wp_ofFs]
      refine wp_post (R.ilock hI (h₂.handle List.mem_cons_self)) ?_
      rintro _ fs₂ ⟨hnet₂, hI₂, hip⟩
      have h₃ : Holds I s.cwd s.ofile { s with fs := fs₂ } [ip] [] := h₂.of_net hnet₂ hI₂
      rw [wp_bind, wp_get, wp_ite]
      split
      · rw [wp_bind, wp_ofFs]
        exact iunlockputOp_holds R h₃
      · rw [wp_bind, wp_ofFs]
        refine wp_post (R.iunlock hI₂ hip.toAt) ?_
        rintro _ fs₃ ⟨hnet₃, hI₃⟩
        have h₄ : Holds I s.cwd s.ofile { s with fs := fs₃ } [ip] [] := h₃.of_net hnet₃ hI₃
        rw [wp_bind]
        refine wp_post (mycwd_spec p _) ?_
        rintro c' s₃ ⟨rfl, hc'⟩
        obtain rfl : c = c' := Option.some.inj (hc.symm.trans hc')
        -- The new directory takes the place of the old one, whose reference is left over.
        have h₅ : Holds I (update s.cwd p (some ip)) s.ofile { s with fs := fs₃ } [c] [] :=
          h₄.setCwd p (some ip) fun j => by
            have hcwd : s.cwd p = some c := hc
            simp only [hcwd, List.count_singleton, Option.some.injEq, beq_iff_eq]
            omega
        rw [wp_bind, wp_ofFs]
        refine wp_post (iputEnd_holds R h₅) fun _ fs₄ h₆ => ?_
        exact ⟨h₆.inv, h₆.inodes, h₆.files, h₆.idle, h₆.writers⟩

theorem fsCall_rest (h : AtRest I s) (p : Slot) (call : Ip → FsM Int)
    (hcall : ∀ c x, s.fs.At c x → wp (call c) (fun _ t => s.fs.Net t [] ∧ (Q c → I t)) E s.fs) :
    wp (do ofFs (call (← mycwd p))) (fun _ t => (∀ c, s.cwd p = some c → Q c) → AtRest I t) (Stops E) s := by
  rw [wp_bind]
  refine wp_post (mycwd_spec p s) ?_
  rintro c s ⟨rfl, hc⟩
  rw [wp_ofFs]
  exact wp_post (hcall c _ (Holds.handle_cwd h hc)) fun _ fs ht hQ => Holds.of_net h ht.1 (ht.2 (hQ c hc))

theorem forkFiles_rest (R : Rules I E) (h : AtRest I s) (p np : Slot) (hcwd : s.cwd np = none)
    (hofile : ∀ fd, s.ofile np fd = none) : wp (forkFiles p np) (fun _ t => AtRest I t) (Stops E) s := by
  unfold forkFiles
  rw [wp_bind]
  -- Descriptors still to be copied are empty in the child.
  refine wp_post (wp_forM (fun rest t => AtRest I t ∧ t.cwd = s.cwd ∧ rest.Nodup ∧ ∀ fd ∈ rest, t.ofile np fd = none)
    ?_ _ ⟨h, rfl, List.nodup_finRange _, fun fd _ => hofile fd⟩) ?_
  · rintro fd rest t ⟨ht, htcwd, hnodup, hnone⟩
    obtain ⟨hfd, hnodup⟩ := List.nodup_cons.mp hnodup
    rw [wp_bind, wp_get]
    split
    · rename_i f hf
      rw [wp_bind]
      refine wp_post (filedup_holds ht f) ?_
      rintro f u ⟨rfl, hu, hucwd, huofile⟩
      rw [wp_modify]
      have hset : Holds I t.cwd (t.setFd np fd (some f)).ofile u [] [] := hu.setFd np fd (some f) fun g => by
        simp [hnone fd List.mem_cons_self, List.count_singleton]
      refine ⟨.of_holds ⟨hset.inv, hset.inodes, hset.files, hset.idle, hset.writers⟩ hucwd (by simp [setFd, huofile]),
        hucwd.trans htcwd, hnodup, fun fd' hfd' => ?_⟩
      have hne : fd' ≠ fd := by
        rintro rfl
        exact hfd hfd'
      change update u.ofile np (update (u.ofile np) fd (some f)) np fd' = none
      rw [update_self, update_of_ne hne, huofile]
      exact hnone fd' (List.mem_cons_of_mem _ hfd')
    · exact ⟨ht, htcwd, hnodup, fun fd' hfd' => hnone fd' (List.mem_cons_of_mem _ hfd')⟩
  · rintro _ t ⟨ht, htcwd, -, -⟩
    rw [wp_bind]
    refine wp_post (mycwd_spec p t) ?_
    rintro c t ⟨rfl, hc⟩
    rw [wp_bind, wp_ofFs]
    refine wp_post (R.idup ht.inv (Holds.handle_cwd ht hc)) ?_
    rintro c fs ⟨rfl, hnet, hI⟩
    rw [wp_modify]
    have hset : Holds I (update t.cwd np (some c)) t.ofile { t with fs := fs } [] [] :=
      (Holds.of_net ht hnet hI).setCwd np (some c) fun j => by simp [htcwd, hcwd, List.count_singleton]
    exact ⟨hset.inv, hset.inodes, hset.files, hset.idle, hset.writers⟩

theorem exitFiles_rest (R : Rules I E) (h : AtRest I s) (p : Slot) :
    wp (exitFiles p) (fun _ t => AtRest I t) (Stops E) s := by
  unfold exitFiles
  rw [wp_bind]
  refine wp_post (wp_forM (fun _ t => AtRest I t) ?_ _ h) ?_
  · rintro fd rest t ht
    rw [wp_bind, wp_get]
    split
    · rename_i f hf
      have hset : Holds I t.cwd (t.setFd p fd none).ofile t [] [f] :=
        Holds.setFd ht p fd none fun g => by simp [hf, List.count_singleton]
      rw [wp_bind]
      refine wp_post (fileclose_holds R hset) ?_
      rintro _ u ⟨hu, hcwd, hofile⟩
      rw [wp_modify]
      exact .of_holds ⟨hu.inv, hu.inodes, hu.files, hu.idle, hu.writers⟩ hcwd (by simp [setFd, hofile])
    · exact ht
  · intro _ t ht
    rw [wp_bind]
    refine wp_post (mycwd_spec p t) ?_
    rintro c t ⟨rfl, hc⟩
    have hset : Holds I (update t.cwd p none) t.ofile t [c] [] :=
      Holds.setCwd ht p none fun j => by simp [hc, List.count_singleton]
    rw [wp_bind, wp_ofFs]
    refine wp_post (iputOp_holds R hset) fun _ fs hfs => ?_
    rw [wp_modify]
    exact ⟨hfs.inv, hfs.inodes, hfs.files, hfs.idle, hfs.writers⟩

end Files

end Xv6
