import Xv6.File.Exact
import Xv6.Kernel.Pagetable

namespace Xv6

open Wp Refcount FilesM Ram
open Function (update update_of_ne update_self)

namespace Files

variable {s t : Files} {pipes : Finset ℕ} {f : Fd} {pi : ℕ} {p : Slot}
  {ofile : Slot → Fin NOFILE → Option Fd} {M : List Fd} {R : Multiset ℕ}

variable {u : Files} {pipes₀ : Finset ℕ} {s₀ : Files}

-- The files and the pages of pipes are accounted for once a call is over.
structure Settled (pipes : Finset ℕ) (s t : Files) (ofile : Slot → Fin NOFILE → Option Fd) (M : List Fd)
    (pipes' : Finset ℕ) : Prop where
  exact : Exact ofile t M pipes'
  uses : Uses pipes.val pipes'.val s.ram t.ram
  kept : Kept s t

theorem Kept.refl (s : Files) : Kept s s := ⟨rfl, rfl⟩

theorem Kept.trans (h : Kept s t) (h' : Kept t u) : Kept s u :=
  ⟨h'.cwd.trans h.cwd, h'.ofile.trans h.ofile⟩

theorem Settled.trans {pipes₁ pipes₂ : Finset ℕ} {N : List Fd}
    (h : Settled pipes s t ofile M pipes₁) (h' : Settled pipes₁ t u ofile N pipes₂) :
    Settled pipes s u ofile N pipes₂ :=
  ⟨h'.exact, h.uses.trans h'.uses, h.kept.trans h'.kept⟩

theorem fileclose_settled (h : Settled pipes₀ s₀ s ofile (f :: M) pipes) (ho : s₀.ram.Owned pipes₀.val) :
    wp (fileclose f) (fun _ t => ∃ pipes', Settled pipes₀ s₀ t ofile M pipes') OnlyFs s := by
  refine wp_post (fileclose_exact h.exact (h.uses.owned ho)) fun _ t hpost => ?_
  obtain ⟨hkept, pipes', hexact, huses⟩ := hpost
  exact ⟨pipes', h.trans ⟨hexact, huses, hkept⟩⟩

-- The files that a failed pipealloc has got are closed again.
theorem pipeBad_settled {f₀ f₁ : Option Fd}
    (h : Settled pipes₀ s₀ s ofile (f₀.toList ++ (f₁.toList ++ M)) pipes) (ho : s₀.ram.Owned pipes₀.val) :
    wp (pipeBad f₀ f₁) (fun r t => r = none ∧ ∃ pipes', Settled pipes₀ s₀ t ofile M pipes') OnlyFs s := by
  have hlast : ∀ {s pipes} {f : Fd}, Settled pipes₀ s₀ s ofile (f :: M) pipes →
      wp (do fileclose f; return none) (fun (r : Option (Fd × Fd)) t => r = none ∧
        ∃ pipes', Settled pipes₀ s₀ t ofile M pipes') OnlyFs s := by
    intro s pipes f h
    rw [wp_bind]
    exact wp_post (fileclose_settled h ho) fun _ t ht => ⟨rfl, ht⟩
  unfold pipeBad
  cases f₀ with
  | none =>
      cases f₁ with
      | none => exact ⟨rfl, _, h⟩
      | some f => exact hlast h
  | some f =>
      cases f₁ with
      | none => exact hlast h
      | some g =>
          rw [wp_bind]
          refine wp_post (fileclose_settled h ho) fun _ t hpost => ?_
          obtain ⟨pipes', ht⟩ := hpost
          exact hlast ht

theorem filealloc_settled (h : Settled pipes₀ s₀ s ofile M pipes) :
    wp filealloc (fun r t => match r with
      | none => Settled pipes₀ s₀ t ofile M pipes
      | some f => Settled pipes₀ s₀ t ofile (f :: M) pipes ∧ (t.ftable f).kind = .none ∧
          ∀ g, (s.ftable g).ref ≠ 0 → g ≠ f ∧ t.ftable g = s.ftable g) OnlyFs s := by
  refine wp_post (filealloc_exact h.exact) fun r t hpost => ?_
  obtain ⟨hram, -, hkept, ht⟩ := hpost
  have huses : Uses pipes₀.val pipes.val s₀.ram t.ram := by
    rw [hram]
    exact h.uses
  cases r with
  | none =>
      subst ht
      exact h
  | some f => exact ⟨⟨ht.1, huses, h.kept.trans hkept⟩, ht.2⟩

theorem pipealloc_settled (h : Exact ofile s M pipes) (ho : s.ram.Owned pipes.val) :
    wp pipealloc (fun r t => match r with
      | none => ∃ pipes', Settled pipes s t ofile M pipes'
      | some (rf, wf) => ∃ pipes', Settled pipes s t ofile (wf :: rf :: M) pipes') OnlyFs s := by
  have h₀ : Settled pipes s s ofile M pipes := ⟨h, .refl _ _, .refl s⟩
  have hbad : ∀ (f₀ f₁ : Option Fd) {t pipes'}, Settled pipes s t ofile (f₀.toList ++ (f₁.toList ++ M)) pipes' →
      wp (pipeBad f₀ f₁) (fun r t => match r with
        | none => ∃ pipes', Settled pipes s t ofile M pipes'
        | some (rf, wf) => ∃ pipes', Settled pipes s t ofile (wf :: rf :: M) pipes') OnlyFs t := fun _ _ _ _ ht =>
    wp_post (pipeBad_settled ht ho) fun r t hpost => by rw [hpost.1]; exact hpost.2
  unfold pipealloc
  rw [wp_bind]
  refine wp_post (filealloc_settled h₀) fun r t₁ h₁ => ?_
  cases r with
  | none => exact hbad none none h₁
  | some f₀ =>
      obtain ⟨h₁, hkind₀, -⟩ := h₁
      simp only [wp_bind]
      refine wp_post (filealloc_settled h₁) fun r t₂ h₂ => ?_
      cases r with
      | none => exact hbad (some f₀) none h₂
      | some f₁ =>
          obtain ⟨h₂, hkind₁, hsame⟩ := h₂
          obtain ⟨hne, hsame⟩ := hsame f₀ (h₁.exact.counts.ref_of_mem (by simp))
          rw [← hsame] at hkind₀
          simp only [wp_bind, wp_ofRam]
          have howned := h₂.uses.owned ho
          refine wp_mono (kalloc_spec t₂.ram) (fun r ram hram => ?_) fun _ he => he.elim
          cases r with
          | none =>
              have h₃ : Settled pipes s { t₂ with ram := ram } ofile (f₁ :: f₀ :: M) pipes :=
                ⟨h₂.exact.of_eq rfl rfl, h₂.uses.trans
                  ((hram.1.frame pipes.val).congr (zero_add _).symm (zero_add _).symm), ⟨h₂.kept.cwd, h₂.kept.ofile⟩⟩
              refine hbad (some f₀) (some f₁) ⟨h₃.exact.perm (.swap f₀ f₁ M), h₃.uses, h₃.kept⟩
          | some pi =>
              have huses := (hram.frame pipes.val).congr (zero_add _).symm rfl
              have hfresh : pi ∉ pipes := fun hmem =>
                Multiset.disjoint_left.mp (Multiset.nodup_add.mp (huses.owned howned).nodup).2.2
                  (Multiset.mem_singleton_self pi) hmem
              have hval : (insert pi pipes).val = {pi} + pipes.val := by
                rw [Finset.insert_val_of_notMem hfresh, Multiset.singleton_add]
              simp only [wp_bind, wp_modify, wp_pure]
              refine ⟨insert pi pipes, ⟨⟨?_, ?_⟩, h₂.uses.trans (huses.congr rfl hval), ⟨h₂.kept.cwd, h₂.kept.ofile⟩⟩⟩
              · have hcounts := h₂.exact.counts
                refine Counts.setKind (Counts.setKind hcounts f₀ ?_ (hcounts.ref_of_mem (by simp))) f₁ ?_ ?_
                · rfl
                · rfl
                · rw [update_of_ne hne.symm]
                  exact hcounts.ref_of_mem (by simp)
              · exact h₂.exact.ends.create hfresh hne hkind₀ hkind₁ rfl rfl rfl rfl

structure Mine (p : Slot) (s t : Files) : Prop where
  cwd : t.cwd = s.cwd
  ofile : ∀ q, q ≠ p → t.ofile q = s.ofile q

theorem Mine.refl (p : Slot) (s : Files) : Mine p s s := ⟨rfl, fun _ _ => rfl⟩

theorem Mine.trans (h : Mine p s t) (h' : Mine p t u) : Mine p s u :=
  ⟨h'.cwd.trans h.cwd, fun q hq => (h'.ofile q hq).trans (h.ofile q hq)⟩

theorem Kept.mine (h : Kept s t) (p : Slot) : Mine p s t := ⟨h.cwd, fun _ _ => by rw [h.ofile]⟩

theorem Mine.setFd (p : Slot) (s : Files) (fd : Fin NOFILE) (o : Option Fd) : Mine p s (s.setFd p fd o) :=
  ⟨rfl, fun _ hq => update_of_ne hq _ _⟩

def Done (pipes : Finset ℕ) (s t : Files) : Prop :=
  ∃ pipes', Exact t.ofile t [] pipes' ∧ Uses pipes.val pipes'.val s.ram t.ram

theorem Done.refl (h : Exact s.ofile s [] pipes) : Done pipes s s := ⟨pipes, h, .refl _ _⟩

theorem Settled.done {pipes₁ : Finset ℕ} (h : Settled pipes s t ofile [] pipes₁) (hofile : t.ofile = ofile) :
    Done pipes s t :=
  ⟨_, hofile ▸ h.exact, h.uses⟩

theorem Done.fs (h : Done pipes s t) (fs : Fs) : Done pipes s { t with fs := fs } := by
  obtain ⟨pipes', hexact, huses⟩ := h
  exact ⟨pipes', hexact.of_eq rfl rfl, huses⟩

theorem wp_weaken_argfd {n : Int} {post : Option (Fin NOFILE × Fd) → Files → Prop}
    (h : ∀ r, (∀ fd f, r = some (fd, f) → s.ofile p fd = some f) → post r s) :
    wp (argfd p n) post OnlyFs s := by
  unfold argfd
  split
  · simp only [wp_bind, wp_get, wp_pure]
    refine h _ fun fd f hr => ?_
    obtain ⟨g, hg, heq⟩ := Option.map_eq_some_iff.mp hr
    cases heq
    exact hg
  · exact h none fun _ _ hr => by cases hr

theorem wp_fdalloc {post : Option (Fin NOFILE) → Files → Prop} (hnone : post none s)
    (hsome : ∀ fd, s.ofile p fd = none → post (some fd) (s.setFd p fd (some f))) :
    wp (fdalloc p f) post OnlyFs s := by
  unfold fdalloc
  simp only [wp_bind, wp_get]
  split
  · rename_i fd hfind
    exact hsome fd (by simpa using List.find?_some hfind)
  · exact hnone

theorem sysDup_done (h : Exact s.ofile s [] pipes) (n : Int) :
    wp (sysDup p n) (fun _ t => Done pipes s t ∧ Mine p s t) OnlyFs s := by
  unfold sysDup
  rw [wp_bind]
  refine wp_weaken_argfd fun r hr => ?_
  rcases r with _ | ⟨i, f⟩
  · exact ⟨.refl h, .refl p s⟩
  · rw [wp_bind]
    refine wp_fdalloc ⟨.refl h, .refl p s⟩ fun fd hnone => ?_
    have hpos := h.counts.ref_ne_zero (hr i f rfl)
    have h' : Exact s.ofile (s.setFd p fd (some f)) [] pipes := h.of_eq rfl rfl
    rw [wp_bind]
    refine wp_map.mpr (wp_post (filedup_exact h' hpos) fun _ t hpost => ?_)
    obtain ⟨-, ht, hram, -, hkept⟩ := hpost
    refine ⟨⟨pipes, ?_, ?_⟩, (Mine.setFd p s fd (some f)).trans (hkept.mine p)⟩
    · rw [hkept.ofile]
      exact ht.setFd p fd (some f) fun g => by simp [hnone, List.count_singleton]
    · rw [hram]
      exact .refl _ _

theorem sysClose_done (h : Exact s.ofile s [] pipes) (ho : s.ram.Owned pipes.val) (n : Int) :
    wp (sysClose p n) (fun _ t => Done pipes s t ∧ Mine p s t) OnlyFs s := by
  unfold sysClose
  rw [wp_bind]
  refine wp_weaken_argfd fun r hr => ?_
  rcases r with _ | ⟨fd, f⟩
  · exact ⟨.refl h, .refl p s⟩
  · have hf := hr fd f rfl
    simp only [wp_bind, wp_modify, wp_pure]
    have h' : Exact (s.setFd p fd none).ofile s [f] pipes :=
      h.setFd p fd none fun g => by simp [hf, List.count_singleton]
    have h' : Exact (s.setFd p fd none).ofile (s.setFd p fd none) [f] pipes := h'.of_eq rfl rfl
    refine wp_post (fileclose_exact h' ho) fun _ t hpost => ?_
    obtain ⟨hkept, pipes', ht, huses⟩ := hpost
    exact ⟨⟨pipes', hkept.ofile ▸ ht, huses⟩, (Mine.setFd p s fd none).trans (hkept.mine p)⟩

theorem wp_mycwd {post : Ip → Files → Prop} (hcwd : s.cwd p ≠ none) (h : ∀ ip, post ip s) :
    wp (mycwd p) post OnlyFs s := by
  unfold mycwd
  simp only [wp_bind, wp_get]
  split
  · exact h _
  · exact absurd (by assumption) hcwd

theorem openFail_done {ip : Ip} (h : Done pipes s t) (hmine : Mine p s t) :
    wp (openFail ip) (fun _ u => Done pipes s u ∧ Mine p s u) OnlyFs t := by
  unfold openFail
  rw [wp_bind]
  exact wp_anyFs fun _ fs => ⟨h.fs fs, hmine.cwd, hmine.ofile⟩

theorem openFile_done {ip : Ip} (h : Exact s.ofile s [] pipes) (ho : s.ram.Owned pipes.val) (omode : BitVec 32) :
    wp (openFile p ip omode) (fun _ t => Done pipes s t ∧ Mine p s t) OnlyFs s := by
  unfold openFile
  simp only [wp_bind, wp_get, wp_ite]
  split
  · exact openFail_done (.refl h) (.refl p s)
  · refine wp_post (filealloc_settled ⟨h, .refl _ _, .refl s⟩) fun r t₁ h₁ => ?_
    cases r with
    | none => exact openFail_done (h₁.done h₁.kept.ofile) (h₁.kept.mine p)
    | some f =>
        obtain ⟨h₁, hkind, -⟩ := h₁
        have hofile := h₁.kept.ofile
        rw [wp_bind]
        refine wp_fdalloc ?_ fun fd hnone => ?_
        · rw [wp_bind]
          refine wp_post (fileclose_settled h₁ ho) fun _ t₂ hpost => ?_
          obtain ⟨pipes₂, h₂⟩ := hpost
          exact openFail_done (h₂.done h₂.kept.ofile) (h₂.kept.mine p)
        · simp only [wp_bind, wp_modify, wp_pure]
          have hmine := (h₁.kept.mine p).trans (Mine.setFd p t₁ fd (some f))
          refine wp_anyFs fun _ fs => ⟨⟨pipes, ?_, h₁.uses⟩, hmine.cwd, hmine.ofile⟩
          -- The descriptor takes the reference to the file.
          rw [hofile] at hnone
          have h₂ := h₁.exact.setFd p fd (some f) (N := []) fun g => by simp [hnone, List.count_singleton]
          have hpos := h₁.exact.counts.ref_of_mem (f := f) (by simp)
          refine ⟨?_, ?_⟩
          · change Counts (update t₁.ofile p (update (t₁.ofile p) fd (some f))) _ []
            rw [hofile]
            refine Counts.setKind h₂.counts f ?_ hpos
            rfl
          · refine h₂.ends.congr ?_
            simp only [pipeEnd, hkind]
            split_ifs <;> rfl

theorem sysOpen_done (h : Exact s.ofile s [] pipes) (ho : s.ram.Owned pipes.val) (hcwd : s.cwd p ≠ none)
    (path : Option (List UInt8)) (omode : BitVec 32) :
    wp (sysOpen p path omode) (fun _ t => Done pipes s t ∧ Mine p s t) OnlyFs s := by
  unfold sysOpen
  split
  · exact ⟨.refl h, .refl p s⟩
  · rw [wp_bind]
    refine wp_anyFs fun _ fs => ?_
    rw [wp_bind]
    refine wp_mycwd hcwd fun c => ?_
    rw [wp_bind]
    refine wp_anyFs fun r fs => ?_
    cases r with
    | none =>
        rw [wp_bind]
        exact wp_anyFs fun _ fs => ⟨(Done.refl h).fs fs, rfl, fun _ _ => rfl⟩
    | some ip =>
        have h' : Exact s.ofile { s with fs := fs } [] pipes := h.of_eq rfl rfl
        refine wp_post (openFile_done (s := { s with fs := fs }) h' ho omode) fun _ t hpost => ?_
        exact ⟨hpost.1, hpost.2.cwd, hpost.2.ofile⟩

theorem exitFiles_done (h : Exact s.ofile s [] pipes) (ho : s.ram.Owned pipes.val) (hcwd : s.cwd p ≠ none) :
    wp (exitFiles p) (fun _ t => Done pipes s t ∧ t.cwd = update s.cwd p none ∧
      (∀ fd, t.ofile p fd = none) ∧ ∀ q, q ≠ p → t.ofile q = s.ofile q) OnlyFs s := by
  unfold exitFiles
  rw [wp_bind]
  -- The descriptors passed are closed, those of others are as they were.
  refine wp_post (wp_forM (fun rest t => Done pipes s t ∧ t.cwd = s.cwd ∧
    (∀ fd, fd ∉ rest → t.ofile p fd = none) ∧ ∀ q, q ≠ p → t.ofile q = s.ofile q) ?_ _
    ⟨.refl h, rfl, fun fd hfd => absurd (List.mem_finRange fd) hfd, fun _ _ => rfl⟩) ?_
  · rintro fd rest t ⟨⟨pipes₁, ht, huses⟩, htcwd, hclosed, hother⟩
    have hrest : ∀ {u : Files}, (∀ fd', fd' ≠ fd → u.ofile p fd' = t.ofile p fd') → u.ofile p fd = none →
        ∀ fd', fd' ∉ rest → u.ofile p fd' = none := by
      intro u hsame hfd fd' hfd'
      by_cases hne : fd' = fd
      · rw [hne, hfd]
      · rw [hsame fd' hne]
        exact hclosed fd' (by simp [hne, hfd'])
    rw [wp_bind, wp_get]
    split
    · rename_i f hf
      have hset : Exact (t.setFd p fd none).ofile t [f] pipes₁ :=
        ht.setFd p fd none fun g => by simp [hf, List.count_singleton]
      rw [wp_bind]
      refine wp_post (fileclose_exact hset (huses.owned ho)) fun _ u hpost => ?_
      obtain ⟨hkept, pipes₂, hu, huses'⟩ := hpost
      rw [wp_modify]
      have hofile : (u.setFd p fd none).ofile = (t.setFd p fd none).ofile := by simp [setFd, hkept.ofile]
      refine ⟨⟨pipes₂, ?_, huses.trans huses'⟩, hkept.cwd.trans htcwd, hrest (fun fd' hne => ?_) ?_,
        fun q hq => ?_⟩
      · rw [hofile]
        exact hu.of_eq rfl rfl
      · simp [setFd, hne, hkept.ofile]
      · simp [setFd]
      · rw [hofile, ← hother q hq]
        simp [setFd, hq]
    · rename_i hf
      exact ⟨⟨pipes₁, ht, huses⟩, htcwd, hrest (fun _ _ => rfl) hf, hother⟩
  · rintro _ t ⟨hdone, htcwd, hclosed, hother⟩
    rw [wp_bind]
    refine wp_mycwd (by rwa [htcwd]) fun c => ?_
    rw [wp_bind]
    refine wp_anyFs fun _ fs => ?_
    rw [wp_modify]
    refine ⟨?_, by simp [setCwd, htcwd], fun fd => hclosed fd (by simp), hother⟩
    obtain ⟨pipes', hexact, huses⟩ := hdone
    exact ⟨pipes', hexact.of_eq rfl rfl, huses⟩

theorem forkFiles_done {np : Slot} (h : Exact s.ofile s [] pipes) (hp : p ≠ np) (hcwd : s.cwd p ≠ none)
    (hnp : ∀ fd, s.ofile np fd = none) :
    wp (forkFiles p np) (fun _ t => Done pipes s t ∧ (∃ ip, t.cwd = update s.cwd np (some ip)) ∧
      t.ofile np = s.ofile p ∧ ∀ q, q ≠ np → t.ofile q = s.ofile q) OnlyFs s := by
  unfold forkFiles
  rw [wp_bind]
  refine wp_post (wp_forM (fun rest t => Exact t.ofile t [] pipes ∧ t.ram = s.ram ∧ t.cwd = s.cwd ∧ rest.Nodup ∧
    (∀ fd, t.ofile np fd = if fd ∈ rest then none else s.ofile p fd) ∧ ∀ q, q ≠ np → t.ofile q = s.ofile q) ?_ _
    ⟨h, rfl, rfl, List.nodup_finRange _, fun fd => by rw [if_pos (List.mem_finRange fd), hnp], fun _ _ => rfl⟩) ?_
  · rintro fd rest t ⟨ht, htram, htcwd, hnodup, hchild, hother⟩
    obtain ⟨hfd, hnodup⟩ := List.nodup_cons.mp hnodup
    have hempty : t.ofile np fd = none := by rw [hchild, if_pos List.mem_cons_self]
    have hparent : t.ofile p fd = s.ofile p fd := by rw [hother p hp]
    -- The other descriptors of the child.
    have hrest : ∀ fd', fd' ≠ fd → t.ofile np fd' = if fd' ∈ rest then none else s.ofile p fd' := by
      intro fd' hne
      rw [hchild]
      simp [hne]
    rw [wp_bind, wp_get]
    split
    · rename_i f hf
      rw [wp_bind]
      refine wp_post (filedup_exact ht (ht.counts.ref_ne_zero hf)) fun r u hpost => ?_
      obtain ⟨hr, hu, huram, -, hkept⟩ := hpost
      obtain rfl : f = r := hr.symm
      rw [wp_modify]
      have hset := hu.setFd np fd (some f) (N := []) fun g => by simp [hempty, List.count_singleton]
      have hofile : (u.setFd np fd (some f)).ofile =
          update t.ofile np (update (t.ofile np) fd (some f)) := by simp [setFd, hkept.ofile]
      refine ⟨?_, huram.trans htram, hkept.cwd.trans htcwd, hnodup, fun fd' => ?_, fun q hq => ?_⟩
      · rw [hofile]
        exact hset.of_eq rfl rfl
      · rw [hofile, update_self]
        by_cases hne : fd' = fd
        · rw [hne, update_self, if_neg hfd, ← hparent, hf]
        · rw [update_of_ne hne, hrest fd' hne]
      · rw [hofile, update_of_ne hq, hother q hq]
    · rename_i hf
      refine ⟨ht, htram, htcwd, hnodup, fun fd' => ?_, hother⟩
      by_cases hne : fd' = fd
      · rw [hne, hempty, if_neg hfd, ← hparent, hf]
      · exact hrest fd' hne
  · rintro _ t ⟨ht, htram, htcwd, -, hchild, hother⟩
    rw [wp_bind]
    refine wp_mycwd (by rwa [htcwd]) fun c => ?_
    rw [wp_bind]
    refine wp_anyFs fun c fs => ?_
    rw [wp_modify]
    refine ⟨⟨pipes, ht.of_eq rfl rfl, ?_⟩, ⟨c, by simp [setCwd, htcwd]⟩, funext fun fd => ?_, hother⟩
    · change Uses _ _ s.ram t.ram
      rw [htram]
      exact .refl _ _
    · change t.ofile np fd = _
      rw [hchild]
      simp

section Pipe

variable {pagetable n : ℕ} {L top : ℕ → Option ℕ}

-- As Done, for a call that writes the n pages of a process.
def DoneUser (pipes : Finset ℕ) (F : Multiset ℕ) (s t : Files) : Prop :=
  ∃ pipes', Exact t.ofile t [] pipes' ∧ Uses (pipes.val + F) (pipes'.val + F) s.ram t.ram

theorem Done.user (h : Done pipes s t) (F : Multiset ℕ) : DoneUser pipes F s t := by
  obtain ⟨pipes', hexact, huses⟩ := h
  exact ⟨pipes', hexact, huses.frame F⟩

-- Both files are closed after their descriptors have been taken back.
theorem closeBoth_done {pipes₁ : Finset ℕ} {s₀ : Files} {rf wf : Fd} {F : Multiset ℕ}
    (h : Exact s.ofile s [wf, rf] pipes₁) (ho : s₀.ram.Owned (pipes.val + F))
    (huses : Uses (pipes.val + F) (pipes₁.val + F) s₀.ram s.ram) (hmine : Mine p s₀ s) :
    wp (do fileclose rf; fileclose wf; return (-1 : Int)) (fun _ t => DoneUser pipes F s₀ t ∧ Mine p s₀ t)
      OnlyFs s := by
  rw [wp_bind]
  refine wp_post (fileclose_exact (h.perm (.swap rf wf [])) (huses.owned ho).left)
    fun _ t hpost => ?_
  obtain ⟨hkept, pipes₂, ht, huses₁⟩ := hpost
  rw [wp_bind]
  have hall := huses.trans (huses₁.frame F)
  refine wp_post (fileclose_exact ht (hall.owned ho).left) fun _ u hpost => ?_
  obtain ⟨hkept', pipes₃, hu, huses₂⟩ := hpost
  refine ⟨⟨pipes₃, ?_, hall.trans (huses₂.frame F)⟩, hmine.trans ((hkept.trans hkept').mine p)⟩
  rw [(hkept.trans hkept').ofile]
  exact hu

-- The state of sys_pipe once it has both files; the page table is as it was.
structure Piped (p : Slot) (pipes : Finset ℕ) (pagetable n : ℕ) (L top : ℕ → Option ℕ) (s₀ s : Files) (M : List Fd)
    (pipes₁ : Finset ℕ) : Prop where
  exact : Exact s.ofile s M pipes₁
  uses : Uses (pipes.val + frames L 0 n) (pipes₁.val + frames L 0 n) s₀.ram s.ram
  mine : Mine p s₀ s
  space : Space s.ram.mem pagetable L n top
  owned : s.ram.Owned (pipes₁.val + s.ram.space pagetable L n)

namespace Piped

variable {s₀ : Files} {pipes₁ : Finset ℕ} {N : List Fd}

theorem setFd (h : Piped p pipes pagetable n L top s₀ s M pipes₁) (fd : Fin NOFILE) (o : Option Fd)
    (hin : ∀ f, N.count f + (if o = some f then 1 else 0) = M.count f + if s.ofile p fd = some f then 1 else 0) :
    Piped p pipes pagetable n L top s₀ (s.setFd p fd o) N pipes₁ :=
  ⟨(h.exact.setFd p fd o hin).of_eq rfl rfl, h.uses, h.mine.trans (.setFd p s fd o), h.space, h.owned⟩

theorem copyout (h : Piped p pipes pagetable n L top s₀ s M pipes₁) (hguard : Guarded top) (dstva : ℕ)
    (src : ℕ → UInt8) (len : ℕ) :
    wp (ofRam (copyoutRam pagetable dstva src len)) (fun _ t => t.ofile = s.ofile ∧
      Piped p pipes pagetable n L top s₀ t M pipes₁) OnlyFs s := by
  rw [wp_ofRam]
  refine wp_mono (copyoutRam_spec h.space hguard h.owned.right dstva src len) (fun _ ram hram => ?_)
    fun _ he => he.elim
  obtain ⟨huses, hspace, htables⟩ := hram
  have hframe := (huses.frame pipes₁.val).congr (add_comm _ _) (add_comm _ _)
  refine ⟨rfl, h.exact.of_eq rfl rfl, h.uses.trans hframe, ⟨h.mine.cwd, h.mine.ofile⟩, hspace, ?_⟩
  have hall := huses.frame (pipes₁.val + s.ram.mem.tables 2 pagetable)
  have howned := hall.owned (h.owned.congr (by rw [Ram.space]; ac_rfl))
  refine howned.congr ?_
  rw [Ram.space]
  change _ + (ram.mem.tables 2 pagetable + _) = _
  rw [htables]
  ac_rfl

theorem closeBoth {rf wf : Fd} (h : Piped p pipes pagetable n L top s₀ s [wf, rf] pipes₁)
    (ho : s₀.ram.Owned (pipes.val + frames L 0 n)) :
    wp (do fileclose rf; fileclose wf; return (-1 : Int))
      (fun _ t => DoneUser pipes (frames L 0 n) s₀ t ∧ Mine p s₀ t) OnlyFs s :=
  closeBoth_done h.exact ho h.uses h.mine

theorem undo {rf wf : Fd} {fd₀ fd₁ : Fin NOFILE} (h : Piped p pipes pagetable n L top s₀ s [] pipes₁)
    (ho : s₀.ram.Owned (pipes.val + frames L 0 n)) (hne : fd₁ ≠ fd₀) (h₀ : s.ofile p fd₀ = some rf)
    (h₁ : s.ofile p fd₁ = some wf) :
    wp (sysPipe.pipeUndo p rf wf fd₀ fd₁)
      (fun _ t => DoneUser pipes (frames L 0 n) s₀ t ∧ Mine p s₀ t) OnlyFs s := by
  unfold sysPipe.pipeUndo
  rw [wp_bind, wp_modify, wp_bind, wp_modify]
  have hfirst := h.setFd (p := p) (N := [rf]) fd₀ none fun g => by simp [h₀, List.count_singleton]
  refine closeBoth (hfirst.setFd (p := p) (N := [wf, rf]) fd₁ none fun g => ?_) ho
  simp [Files.setFd, hne, h₁, List.count_cons]

end Piped

theorem sysPipe_done (h : Exact s.ofile s [] pipes) (hspace : Space s.ram.mem pagetable L n top)
    (hguard : Guarded top) (ho : s.ram.Owned (pipes.val + s.ram.space pagetable L n)) (fdarray : ℕ) :
    wp (sysPipe p pagetable fdarray) (fun _ t => DoneUser pipes (frames L 0 n) s t ∧ Mine p s t)
      OnlyFs s := by
  have hframes : s.ram.Owned (pipes.val + frames L 0 n) :=
    ho.mono (add_le_add le_rfl (Multiset.le_add_left _ _))
  unfold sysPipe
  rw [wp_bind]
  refine wp_post (pipealloc_settled h ho.left) fun r t ht => ?_
  rcases r with _ | ⟨rf, wf⟩
  · obtain ⟨pipes₁, ht⟩ := ht
    exact ⟨(ht.done ht.kept.ofile).user _, ht.kept.mine p⟩
  · obtain ⟨pipes₁, ht⟩ := ht
    have hkept : ∀ q ∈ s.ram.mem.tables 2 pagetable, t.ram.mem q = s.ram.mem q :=
      ht.uses.kept (ho.mono (add_le_add le_rfl (Multiset.le_add_right _ _)))
    have hpiped : Piped p pipes pagetable n L top s t [wf, rf] pipes₁ := by
      refine ⟨ht.kept.ofile ▸ ht.exact, ht.uses.frame _, ht.kept.mine p, hspace.congr hkept, ?_⟩
      rw [Ram.space, Mem.tables_congr hkept]
      exact (ht.uses.frame (s.ram.space pagetable L n)).owned ho
    simp only [wp_bind]
    refine wp_fdalloc (hpiped.closeBoth hframes) fun fd₀ hnone₀ => ?_
    have h₀ := hpiped.setFd (p := p) (N := [wf]) fd₀ (some rf) fun g => by
      simp [hnone₀, List.count_cons, add_comm]
    simp only [wp_bind]
    refine wp_fdalloc ?_ fun fd₁ hnone₁ => ?_
    -- No second descriptor: the first one is taken back.
    · rw [wp_bind, wp_modify]
      refine Piped.closeBoth (h₀.setFd (p := p) (N := [wf, rf]) fd₀ none fun g => ?_) hframes
      simp [Files.setFd, List.count_cons, add_comm]
    · have h₁ := h₀.setFd (p := p) (N := []) fd₁ (some wf) fun g => by
        simp [hnone₁, List.count_singleton]
      have hne : fd₁ ≠ fd₀ := by
        rintro rfl
        simp [Files.setFd] at hnone₁
      have hfd₀ : ((t.setFd p fd₀ (some rf)).setFd p fd₁ (some wf)).ofile p fd₀ = some rf := by
        simp [Files.setFd, hne.symm]
      have hfd₁ : ((t.setFd p fd₀ (some rf)).setFd p fd₁ (some wf)).ofile p fd₁ = some wf := by
        simp [Files.setFd]
      rw [wp_bind]
      refine wp_post (h₁.copyout hguard _ _ _) fun r u hpost => ?_
      obtain ⟨hofile, hu⟩ := hpost
      rw [← hofile] at hfd₀ hfd₁
      rw [wp_ite]
      split
      · exact hu.undo hframes hne hfd₀ hfd₁
      rw [wp_bind]
      refine wp_post (hu.copyout hguard _ _ _) fun r w hpost => ?_
      obtain ⟨hofile', hw⟩ := hpost
      rw [← hofile'] at hfd₀ hfd₁
      rw [wp_ite]
      split
      · exact hw.undo hframes hne hfd₀ hfd₁
      · exact ⟨⟨pipes₁, hw.exact, hw.uses⟩, hw.mine⟩

end Pipe

end Files

end Xv6
