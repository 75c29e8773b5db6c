import Xv6.File.Invariant
import Xv6.Kalloc.Theorems

namespace Xv6

open Wp Refcount FilesM Ram Ownership
open Function (update update_of_ne update_self)

def Pipe.opened (pipe : Pipe) (writable : Bool) : Bool := if writable then pipe.writeopen else pipe.readopen

def Pipe.close (pipe : Pipe) (writable : Bool) : Pipe :=
  if writable then { pipe with writeopen := false } else { pipe with readopen := false }

theorem Pipe.opened_close (pipe : Pipe) (writable w : Bool) :
    (pipe.close writable).opened w = if w = writable then false else pipe.opened w := by
  cases writable <;> cases w <;> rfl

theorem Pipe.closed_iff (pipe : Pipe) :
    pipe.readopen = false ∧ pipe.writeopen = false ↔ ∀ w, pipe.opened w = false := by
  constructor
  · rintro ⟨hr, hw⟩ (_ | _)
    · exact hr
    · exact hw
  · exact fun h => ⟨h false, h true⟩

namespace Files

-- The end of a pipe that a file is.
def pipeEnd (file : File) : Option (ℕ × Bool) :=
  match file.kind with
  | .pipe pi => some (pi, file.writable)
  | _ => none

theorem pipeEnd_eq_some {file : File} {pi : ℕ} {w : Bool} :
    pipeEnd file = some (pi, w) ↔ file.kind = .pipe pi ∧ file.writable = w := by
  unfold pipeEnd
  split
  · rename_i hkind
    rw [hkind]
    simp
  · rename_i hnot
    exact ⟨fun h => (Option.some_ne_none _ h.symm).elim, fun h => (hnot pi h.1).elim⟩

-- The pipes are those of open files, each end of a pipe has one file at most,
-- and the pipe knows which of its ends has one.
structure Ends (ftable : Fd → File) (pipe : ℕ → Pipe) (pipes : Finset ℕ) : Prop where
  owns : Owns (fun f => pipeEnd (ftable f)) (fun e => (pipe e.1).opened e.2 = true) (Set.preimage Prod.fst pipes)
  used : ∀ pi ∈ pipes, ∃ w, (pipe pi).opened w = true

-- As Holds, with every reference counted once; nothing is said of inodes.
structure Counts (ofile : Slot → Fin NOFILE → Option Fd) (ftable : Fd → File) (M : List Fd) : Prop where
  files : ∀ f, held (fileOf ofile) f + M.count f = (ftable f).ref
  idle : ∀ f, (ftable f).ref = 0 → (ftable f).kind = .none

structure Exact (ofile : Slot → Fin NOFILE → Option Fd) (s : Files) (M : List Fd) (pipes : Finset ℕ) : Prop where
  counts : Counts ofile s.ftable M
  ends : Ends s.ftable s.pipe pipes

variable {s t : Files} {ftable : Fd → File} {pipe : ℕ → Pipe} {pipes : Finset ℕ} {f : Fd} {pi : ℕ}
  {ofile : Slot → Fin NOFILE → Option Fd} {M N : List Fd} {R : Multiset ℕ}

namespace Ends

theorem mem (h : Ends ftable pipe pipes) (hf : (ftable f).kind = .pipe pi) : pi ∈ pipes :=
  (h.owns.sound f _ (pipeEnd_eq_some.mpr ⟨hf, rfl⟩)).1

theorem opened (h : Ends ftable pipe pipes) (hpi : pi ∈ pipes) (w : Bool) : (pipe pi).opened w = true ↔
    ∃ f, (ftable f).kind = .pipe pi ∧ (ftable f).writable = w := by
  constructor
  · intro hw
    obtain ⟨f, hf⟩ := h.owns.complete (pi, w) hpi hw
    exact ⟨f, pipeEnd_eq_some.mp hf⟩
  · rintro ⟨f, hf⟩
    exact (h.owns.sound f (pi, w) (pipeEnd_eq_some.mpr hf)).2

theorem exists_file (h : Ends ftable pipe pipes) (hpi : pi ∈ pipes) : ∃ f, (ftable f).kind = .pipe pi := by
  obtain ⟨w, hw⟩ := h.used pi hpi
  obtain ⟨f, hf, -⟩ := (h.opened hpi w).mp hw
  exact ⟨f, hf⟩

-- A file that is not a pipe's changes, or stays what it is.
theorem congr (h : Ends ftable pipe pipes) {file : File} (hend : pipeEnd file = pipeEnd (ftable f)) :
    Ends (update ftable f file) pipe pipes := by
  refine ⟨h.owns.congr (fun g => ?_) fun _ => Iff.rfl, h.used⟩
  by_cases hg : g = f
  · rw [hg, update_self, hend]
  · rw [update_of_ne hg]

theorem close (h : Ends ftable pipe pipes) (hf : (ftable f).kind = .pipe pi) {x : File} (hfile : x.kind = .none) :
    let pipe' := (pipe pi).close (ftable f).writable
    Ends (update ftable f x) (update pipe pi pipe')
      (if ∀ w, pipe'.opened w = false then pipes.erase pi else pipes) := by
  intro pipe'
  have hmem := h.mem hf
  have hend : pipeEnd (ftable f) = some (pi, (ftable f).writable) := pipeEnd_eq_some.mpr ⟨hf, rfl⟩
  have hpipes : ∀ pi', pi' ∈ (if ∀ w, pipe'.opened w = false then pipes.erase pi else pipes) ↔
      pi' ∈ pipes ∧ (pi' = pi → ∃ w, pipe'.opened w = true) := by
    intro pi'
    by_cases hall : ∀ w, pipe'.opened w = false
    · rw [if_pos hall, Finset.mem_erase]
      simp [hall, and_comm]
    · rw [if_neg hall]
      simp only [not_forall, Bool.not_eq_false] at hall
      exact (and_iff_left fun _ => hall).symm
  refine ⟨(h.owns.release (· = f)).congr (fun g => ?_) fun e => ?_, fun pi' hpi' => ?_⟩
  · by_cases hg : g = f
    · rw [hg, update_self, if_pos rfl, pipeEnd, hfile]
    · rw [update_of_ne hg, if_neg hg]
  · obtain ⟨pi', w⟩ := e
    simp only [Set.mem_preimage, Finset.mem_coe, hpipes, forall_eq, hend, ne_eq, Option.some.injEq, Prod.mk.injEq]
    by_cases he : pi' = pi
    · subst he
      have hopen : pipe'.opened w = true ↔ (pipe pi').opened w = true ∧ ¬(ftable f).writable = w := by
        rw [Pipe.opened_close, eq_comm (a := (ftable f).writable)]
        split <;> simp [*]
      simp only [update_self, hmem, true_and]
      exact ⟨fun hw => hopen.mp hw.2, fun hw => ⟨fun _ => ⟨w, hopen.mpr hw⟩, hopen.mpr hw⟩⟩
    · simp only [update_of_ne he, he, Ne.symm he, false_implies, false_and, not_false_eq_true, and_true]
  · obtain ⟨hold, hopen⟩ := (hpipes pi').mp hpi'
    by_cases he : pi' = pi
    · subst he
      rw [update_self]
      exact hopen rfl
    · rw [update_of_ne he]
      exact h.used pi' hold

theorem create (h : Ends ftable pipe pipes) (hpi : pi ∉ pipes) {f₀ f₁ : Fd} (hne : f₀ ≠ f₁)
    (h₀ : (ftable f₀).kind = .none) (h₁ : (ftable f₁).kind = .none) {file₀ file₁ : File} (hk₀ : file₀.kind = .pipe pi)
    (hw₀ : file₀.writable = false) (hk₁ : file₁.kind = .pipe pi) (hw₁ : file₁.writable = true) :
    Ends (update (update ftable f₀ file₀) f₁ file₁)
      (update pipe pi ⟨true, true⟩) (insert pi pipes) := by
  have hnone : ∀ {file : File}, file.kind = .none → pipeEnd file = none := fun hk => by rw [pipeEnd, hk]
  -- What the page was before it became a pipe does not count.
  have howns : Owns (fun f => pipeEnd (ftable f)) (fun e => e.1 ≠ pi ∧ (pipe e.1).opened e.2 = true)
      (Set.preimage Prod.fst ↑(insert pi pipes)) := by
    refine h.owns.congr (fun _ => rfl) fun e => ?_
    simp only [Set.mem_preimage, Finset.coe_insert, Set.mem_insert_iff, Finset.mem_coe]
    constructor
    · exact fun ⟨hmem, hne, hopen⟩ => ⟨hmem.resolve_left hne, hopen⟩
    · exact fun ⟨hmem, hopen⟩ => ⟨.inr hmem, fun he => hpi (he ▸ hmem), hopen⟩
  have hnew : pi ∈ insert pi pipes := Finset.mem_insert_self pi pipes
  have hread := howns.alloc (a := f₀) (b := (pi, false)) (hnone h₀) hnew fun hused => hused.1 rfl
  have hwrite := hread.alloc (a := f₁) (b := (pi, true)) ((update_of_ne hne.symm _ _).trans (hnone h₁)) hnew
    (by simp)
  refine ⟨hwrite.congr (fun g => ?_) fun e => ?_, fun pi' hpi' => ?_⟩
  · by_cases hg₁ : g = f₁
    · rw [hg₁, update_self, update_self]
      exact pipeEnd_eq_some.mpr ⟨hk₁, hw₁⟩
    · rw [update_of_ne hg₁, update_of_ne hg₁]
      by_cases hg₀ : g = f₀
      · rw [hg₀, update_self, update_self]
        exact pipeEnd_eq_some.mpr ⟨hk₀, hw₀⟩
      · rw [update_of_ne hg₀, update_of_ne hg₀]
  · obtain ⟨pi', w⟩ := e
    by_cases he : pi' = pi
    · cases w <;> simp [he, Pipe.opened]
    · simp [he]
  · by_cases he : pi' = pi
    · exact ⟨true, by rw [he, update_self]; rfl⟩
    · rw [update_of_ne he]
      exact h.used pi' ((Finset.mem_insert.mp hpi').resolve_left he)

end Ends

namespace Counts

theorem setFile (h : Counts ofile ftable M) (f : Fd) {x : File} (hother : ∀ f', f' ≠ f → N.count f' = M.count f')
    (hself : held (fileOf ofile) f + N.count f = x.ref) (hidle : x.ref = 0 → x.kind = .none) :
    Counts ofile (update ftable f x) N where
  files f' := by
    by_cases hf : f' = f
    · rw [hf, update_self]
      exact hself
    · rw [update_of_ne hf, hother f' hf]
      exact h.files f'
  idle f' hf' := by
    by_cases hf : f' = f
    · subst hf
      rw [update_self] at hf' ⊢
      exact hidle hf'
    · rw [update_of_ne hf] at hf' ⊢
      exact h.idle f' hf'

theorem setKind (h : Counts ofile ftable M) (f : Fd) {file : File} (href : file.ref = (ftable f).ref)
    (hpos : (ftable f).ref ≠ 0) : Counts ofile (update ftable f file) M :=
  h.setFile f (fun _ _ => rfl) (by rw [href]; exact h.files f) fun hz => absurd (href ▸ hz) hpos

theorem setFd (h : Counts ofile ftable M) (p : Slot) (fd : Fin NOFILE) (o : Option Fd)
    (hin : ∀ f, N.count f + (if o = some f then 1 else 0) = M.count f + if ofile p fd = some f then 1 else 0) :
    Counts (update ofile p (update (ofile p) fd o)) ftable N where
  files f := by
    have := h.files f
    have := hin f
    have hupd := held_update (fileOf ofile) (p, fd) o f
    rw [← fileOf_update] at hupd
    change _ + (if ofile p fd = some f then 1 else 0) = _ at hupd
    omega
  idle := h.idle

end Counts

namespace Exact

theorem of_eq (h : Exact ofile s M pipes) (hftable : t.ftable = s.ftable) (hpipe : t.pipe = s.pipe) :
    Exact ofile t M pipes := by
  refine ⟨?_, ?_⟩
  · rw [hftable]
    exact h.counts
  · rw [hftable, hpipe]
    exact h.ends

theorem perm (h : Exact ofile s M pipes) (hM : M.Perm N) : Exact ofile s N pipes :=
  ⟨⟨fun f => hM.count_eq f ▸ h.counts.files f, h.counts.idle⟩, h.ends⟩

theorem setFd (h : Exact ofile s M pipes) (p : Slot) (fd : Fin NOFILE) (o : Option Fd)
    (hin : ∀ f, N.count f + (if o = some f then 1 else 0) = M.count f + if ofile p fd = some f then 1 else 0) :
    Exact (update ofile p (update (ofile p) fd o)) s N pipes :=
  ⟨h.counts.setFd p fd o hin, h.ends⟩

-- A file changes that is of no pipe before and after, or only in its count.
theorem setFile (h : Exact ofile s M pipes) (f : Fd) (g : File → File) (hother : ∀ f', f' ≠ f → N.count f' = M.count f')
    (hself : held (fileOf ofile) f + N.count f = (g (s.ftable f)).ref)
    (hidle : (g (s.ftable f)).ref = 0 → (g (s.ftable f)).kind = .none)
    (hend : pipeEnd (g (s.ftable f)) = pipeEnd (s.ftable f)) : Exact ofile (s.setFile f g) N pipes :=
  ⟨h.counts.setFile f hother hself hidle, h.ends.congr hend⟩

end Exact

def OnlyFs (e : FileStop) : Prop := ∃ why, e = .fs why

theorem wp_anyFs {α : Type} {m : FsM α} {post : α → Files → Prop} (h : ∀ a fs, post a { s with fs := fs }) :
    wp (ofFs m) post OnlyFs s := by
  rw [wp_ofFs]
  unfold wp
  split
  · exact h _ _
  · exact ⟨_, rfl⟩

structure Kept (s t : Files) : Prop where
  cwd : t.cwd = s.cwd
  ofile : t.ofile = s.ofile

theorem pipeclose_spec (writable : Bool) (ho : s.ram.Owned {pi}) :
    wp (pipeclose pi writable) (fun _ t => Kept s t ∧ t.ftable = s.ftable ∧
      t.pipe = update s.pipe pi ((s.pipe pi).close writable) ∧
      if ∀ w, ((s.pipe pi).close writable).opened w = false then Uses {pi} 0 s.ram t.ram
      else t.ram = s.ram) OnlyFs s := by
  unfold pipeclose
  simp only [wp_bind, wp_get, wp_modify]
  generalize hp : (if writable = true then _ else _ : Pipe) = pipe'
  obtain rfl : pipe' = (s.pipe pi).close writable := hp.symm
  simp only [Pipe.closed_iff, wp_ite, wp_ofRam]
  split
  · exact wp_mono (kfree_spec ho) (fun _ ram hram => ⟨⟨rfl, rfl⟩, trivial, trivial, hram⟩)
      fun _ he => he.elim
  · exact ⟨⟨rfl, rfl⟩, rfl, rfl, rfl⟩

theorem singleton_add_erase (hpi : pi ∈ pipes) : {pi} + (pipes.erase pi).val = pipes.val := by
  rw [Multiset.singleton_add, Finset.erase_val, Multiset.cons_erase hpi]

-- A reference to a file is given back, and with the last one of a pipe its page.
theorem fileclose_exact (h : Exact ofile s (f :: M) pipes) (ho : s.ram.Owned pipes.val) :
    wp (fileclose f) (fun _ t => Kept s t ∧ ∃ pipes', Exact ofile t M pipes' ∧
      Uses pipes.val pipes'.val s.ram t.ram) OnlyFs s := by
  have hf := h.counts.files f
  rw [List.count_cons_self] at hf
  have hother : ∀ f', f' ≠ f → M.count f' = (f :: M).count f' := fun f' hne => by
    rw [List.count_cons_of_ne (Ne.symm hne)]
  unfold fileclose
  simp only [wp_bind, wp_get, wp_ite, wp_throw, wp_modify]
  rw [if_neg (by omega)]
  split
  · refine ⟨⟨rfl, rfl⟩, pipes, h.setFile f _ hother ?_ ?_ rfl, .refl _ _⟩
    · change _ = (s.ftable f).ref - 1
      omega
    · intro hz
      change (s.ftable f).ref - 1 = 0 at hz
      omega
  · have hzero : held (fileOf ofile) f + M.count f = 0 := by omega
    -- The file is not a pipe's.
    have hplain : pipeEnd (s.ftable f) = none →
        Exact ofile (s.setFile f fun file => { file with ref := 0, kind := .none }) M pipes := fun hnone =>
      h.setFile f _ hother hzero (fun _ => rfl) hnone.symm
    split
    · rename_i hkind
      exact ⟨⟨rfl, rfl⟩, pipes, hplain (by rw [pipeEnd, hkind]), .refl _ _⟩
    · rename_i pi hkind
      have hpi := h.ends.mem hkind
      have hown : s.ram.Owned {pi} := (ho.congr (singleton_add_erase hpi)).left
      have hcounts := h.counts.setFile (x := { s.ftable f with ref := 0, kind := .none }) f hother hzero
        fun _ => rfl
      have hends := h.ends.close hkind (x := { s.ftable f with ref := 0, kind := .none }) rfl
      refine wp_post (pipeclose_spec (s.ftable f).writable hown) fun _ t hpost => ?_
      obtain ⟨hkept, hftable, hpipe, hram⟩ := hpost
      refine ⟨⟨hkept.cwd, hkept.ofile⟩, if ∀ w, ((s.pipe pi).close (s.ftable f).writable).opened w = false
        then pipes.erase pi else pipes, ⟨?_, ?_⟩, ?_⟩
      · rw [hftable]
        exact hcounts
      · rw [hftable, hpipe]
        exact hends
      · change if ∀ w, ((s.pipe pi).close (s.ftable f).writable).opened w = false then _ else _ at hram
        split at hram
        · rename_i hall
          rw [if_pos hall]
          exact (hram.frame (pipes.erase pi).val).congr (singleton_add_erase hpi).symm (zero_add _).symm
        · rename_i hall
          rw [if_neg hall, hram]
          exact .refl _ _
    all_goals
      rename_i hkind
      exact wp_anyFs fun _ fs => ⟨⟨rfl, rfl⟩, pipes, Exact.of_eq (hplain (by rw [pipeEnd, hkind])) rfl rfl, .refl _ _⟩

theorem filealloc_exact (h : Exact ofile s M pipes) :
    wp filealloc (fun r t => t.ram = s.ram ∧ t.fs = s.fs ∧ Kept s t ∧ match r with
      | none => t = s
      | some f => Exact ofile t (f :: M) pipes ∧ (t.ftable f).kind = .none ∧
          ∀ g, (s.ftable g).ref ≠ 0 → g ≠ f ∧ t.ftable g = s.ftable g) OnlyFs s := by
  unfold filealloc
  simp only [wp_bind, wp_get]
  split
  · rename_i f hfind
    have hz : (s.ftable f).ref = 0 := by simpa using List.find?_some hfind
    have hkind := h.counts.idle f hz
    have hf := h.counts.files f
    simp only [wp_bind, wp_set, wp_pure]
    refine ⟨rfl, rfl, ⟨rfl, rfl⟩, h.setFile f _ (fun f' hne => ?_) ?_ ?_ rfl, ?_, fun g hg => ?_⟩
    · rw [List.count_cons_of_ne (Ne.symm hne)]
    · rw [List.count_cons_self]
      change _ = 1
      omega
    · intro hone
      cases hone
    · simp [Files.setFile, hkind]
    · have hne : g ≠ f := by
        rintro rfl
        exact hg hz
      exact ⟨hne, update_of_ne hne _ _⟩
  · exact ⟨rfl, rfl, ⟨rfl, rfl⟩, rfl⟩

theorem filedup_exact (h : Exact ofile s M pipes) (hf : (s.ftable f).ref ≠ 0) :
    wp (filedup f) (fun r t => r = f ∧ Exact ofile t (f :: M) pipes ∧ t.ram = s.ram ∧ t.fs = s.fs ∧ Kept s t)
      OnlyFs s := by
  unfold filedup
  simp only [wp_bind, wp_get, wp_ite, wp_throw, wp_modify, wp_pure]
  rw [if_neg (by omega)]
  refine ⟨trivial, h.setFile f _ (fun f' hne => ?_) ?_ ?_ rfl, rfl, rfl, ⟨rfl, rfl⟩⟩
  · rw [List.count_cons_of_ne (Ne.symm hne)]
  · have := h.counts.files f
    rw [List.count_cons_self]
    change _ = (s.ftable f).ref + 1
    omega
  · intro hz
    cases hz

theorem Counts.ref_of_mem (h : Counts ofile ftable M) (hf : f ∈ M) : (ftable f).ref ≠ 0 := by
  have := List.count_pos_iff.mpr hf
  have := h.files f
  omega

theorem Counts.ref_ne_zero (h : Counts ofile ftable M) {p : Slot} {fd : Fin NOFILE} (hf : ofile p fd = some f) :
    (ftable f).ref ≠ 0 := by
  have := held_pos (h := fileOf ofile) (a := (p, fd)) hf
  have := h.files f
  omega

end Files

end Xv6
