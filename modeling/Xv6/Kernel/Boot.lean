import Xv6.Kernel.Calls

namespace Xv6

open Wp FilesM KernelM Ram Kernel
open Function (update update_of_ne update_self)

variable {s : Kernel}

structure Ram.Plenty (r : Ram) (k : ℕ) : Prop where
  fail : r.fail = []
  pages : k ≤ r.freelist.length

theorem Ram.Plenty.mono {r : Ram} {j k : ℕ} (h : r.Plenty k) (hj : j ≤ k) : r.Plenty j :=
  ⟨h.fail, hj.trans h.pages⟩

section Plenty

variable {r : Ram} {k : ℕ} {e : Panic → Prop}

theorem kalloc_plenty (h : r.Plenty (k + 1)) : wp kalloc (fun a t => a ≠ none ∧ t.Plenty k) e r := by
  obtain ⟨hfail, hpages⟩ := h
  obtain ⟨page, rest, hlist⟩ : ∃ page rest, r.freelist = page :: rest :=
    List.exists_cons_of_length_pos (by omega)
  unfold kalloc
  simp only [wp_bind, wp_get, hfail, hlist, List.headD_nil, wp_set, wp_pure]
  refine ⟨Option.some_ne_none _, rfl, ?_⟩
  rw [hlist, List.length_cons] at hpages
  exact Nat.le_of_succ_le_succ hpages

theorem Ram.Plenty.mem {mem : Mem} (h : r.Plenty k) : Ram.Plenty { r with mem := mem } k := ⟨h.fail, h.pages⟩

theorem walkLevels_plenty {level pagetable va : ℕ} (h : r.Plenty (k + level)) :
    wp (walkLevels true level pagetable va) (fun a t => a ≠ none ∧ t.Plenty k) e r := by
  induction level generalizing r pagetable with
  | zero => exact ⟨Option.some_ne_none _, h⟩
  | succ level ih =>
      simp only [walkLevels, wp_bind, wp_get, wp_ite]
      split
      · exact ih (h.mono (by omega))
      simp only [Bool.not_true, Bool.false_eq_true, ite_false]
      refine wp_post (kalloc_plenty (k := k + level) (h.mono (by omega))) fun a t hpost => ?_
      obtain ⟨hsome, ht⟩ := hpost
      obtain ⟨page, rfl⟩ := Option.ne_none_iff_exists'.mp hsome
      simp only [wp_bind, wp_modify, setPte]
      exact ih ht.mem.mem

theorem mappages_plenty {pagetable v pa perm : ℕ} (hv : v * PGSIZE < MAXVA) (h : r.Plenty (k + 2)) :
    wp (mappages pagetable (v * PGSIZE) PGSIZE pa perm) (fun a t => a = 0 ∧ t.Plenty k) (fun _ => True) r := by
  obtain ⟨hfirst, hlast⟩ := pgRoundDown_page hv
  simp only [mappages, show PGSIZE ≠ 0 by decide, ite_false, hlast, hfirst, mapLoop, walk,
    show ¬v * PGSIZE ≥ MAXVA by omega, wp_bind]
  refine wp_post (walkLevels_plenty h) fun a t hpost => ?_
  obtain ⟨hsome, ht⟩ := hpost
  obtain ⟨pte, rfl⟩ := Option.ne_none_iff_exists'.mp hsome
  simp only [wp_bind, wp_get, wp_ite, wp_throw]
  split
  · trivial
  · exact ⟨rfl, ht.mem⟩

theorem procPagetable_plenty {trampoline trapframe : ℕ} (h : r.Plenty (k + 5)) :
    wp (procPagetable trampoline trapframe) (fun a t => a ≠ none ∧ t.Plenty k) (fun _ => True) r := by
  simp only [procPagetable, uvmcreate, wp_bind]
  refine wp_post (kalloc_plenty (k := k + 4) h) fun a t hpost => ?_
  obtain ⟨hsome, ht⟩ := hpost
  obtain ⟨page, rfl⟩ := Option.ne_none_iff_exists'.mp hsome
  simp only [wp_bind, wp_modify, wp_pure]
  rw [trampoline_eq, trapframe_eq]
  refine wp_post (mappages_plenty (k := k + 2) (by decide) ht.mem) fun a t hpost => ?_
  obtain ⟨rfl, ht⟩ := hpost
  simp only [lt_irrefl, ite_false, wp_bind]
  refine wp_post (mappages_plenty (by decide) ht) fun a t hpost => ?_
  obtain ⟨rfl, ht⟩ := hpost
  exact ⟨Option.some_ne_none _, ht⟩

end Plenty

theorem allocproc_plenty {k : ℕ} {p : Slot} (hp : (s.proc p).state = .unused) (h : s.files.ram.Plenty (k + 6)) :
    wp allocproc (fun r t => r ≠ none ∧ t.files.ram.Plenty k) (fun _ => True) s := by
  unfold allocproc
  simp only [wp_bind, wp_get]
  split
  · rename_i hnone
    have hused := List.find?_eq_none.mp hnone p (List.mem_finRange p)
    exact absurd hp (by simpa using hused)
  simp only [wp_bind, wp_set, wp_ram]
  refine wp_post (kalloc_plenty (k := k + 5) h) fun a t hpost => ?_
  obtain ⟨hsome, ht⟩ := hpost
  obtain ⟨page, rfl⟩ := Option.ne_none_iff_exists'.mp hsome
  simp only [wp_bind, wp_modify, wp_ram]
  refine wp_post (procPagetable_plenty ht) fun a t hpost => ?_
  obtain ⟨hsome, ht⟩ := hpost
  obtain ⟨pt, rfl⟩ := Option.ne_none_iff_exists'.mp hsome
  exact ⟨Option.some_ne_none _, ht⟩

theorem uvmfirst_spec {pt : ℕ} {top : ℕ → Option ℕ} {src : List UInt8} {err : KernelStop → Prop}
    (hsrc : src.length < PGSIZE) (h : Space s.files.ram.mem pt top 0 top) (hclear : Clear top)
    (ho : s.files.ram.Owned (s.files.ram.space pt top 0)) (hplenty : s.files.ram.Plenty 3) :
    wp (uvmfirst pt src) (fun _ t => ∃ ram N, t = s.withRam ram ∧ Space ram.mem pt N 1 top ∧
      Uses (s.files.ram.space pt top 0) (ram.space pt N 1) s.files.ram ram) err s := by
  unfold uvmfirst
  simp only [wp_bind, if_neg (not_le.mpr hsrc), wp_ram]
  refine wp_mono (wp_and (kalloc_plenty (k := 2) (e := fun _ => True) hplenty) (kalloc_spec s.files.ram))
    (fun a t hpost => ?_) fun _ he => he.2.elim
  obtain ⟨⟨hsome, ht⟩, hspec⟩ := hpost
  obtain ⟨page, rfl⟩ := Option.ne_none_iff_exists'.mp hsome
  have hclean := h.take (fun _ => 0) hspec ho
  obtain ⟨hspace, huses⟩ := hclean
  have hzero : 0 = 0 * PGSIZE := (Nat.zero_mul _).symm
  simp only [wp_pointer, wp_modify]
  rw [hzero]
  refine wp_mono (wp_and (mapUser_spec hspace hclear (by decide) (by decide) (huses.owned ho))
    (mappages_plenty (k := 0) (by decide) ht.mem)) (fun a u hpost => ?_)
    fun _ he => he.1.elim
  obtain ⟨⟨-, ⟨-, hspace', huses'⟩ | ⟨hfail, -⟩⟩, hok, -⟩ := hpost
  swap
  · rw [hok] at hfail
    exact absurd hfail (by decide)
  have hpage : page ∈ frames (update top 0
      (some (mkPte page (PTE_W ||| PTE_R ||| PTE_X ||| PTE_U ||| PTE_V)))) 0 1 := by
    have hflags : PTE_W ||| PTE_R ||| PTE_X ||| PTE_U ||| PTE_V < 2 ^ 10 := by decide
    have hpushed := frames_push (m := 0) top page hflags le_rfl
    exact hpushed ▸ Multiset.mem_add.mpr (.inr (Multiset.mem_singleton_self page))
  have hall := huses.trans huses'
  obtain ⟨hspace'', huses''⟩ := hspace'.write (hall.owned ho) hpage _
  exact ⟨_, _, rfl, hspace'', hall.trans huses''⟩

-- The kernel when main calls userinit: the pages that it has not taken for itself are
-- on the free list, and there is no process and no file.
structure Kernel.Booted (s : Kernel) : Prop where
  procs : ∀ p, s.proc p = UserProc.free
  closed : ∀ f, (s.files.ftable f).ref = 0 ∧ (s.files.ftable f).kind = .none
  ofile : ∀ p fd, s.files.ofile p fd = none
  divided : s.files.ram.Divided s.fixed
  trampoline : s.trampoline < 2 ^ 44
  kend : KERNBASE ≤ s.files.ram.kend
  plenty : s.files.ram.Plenty 9

theorem Kernel.Booted.inv (h : s.Booted) : s.Inv (fun _ => 0) ∅ := by
  have hpages : s.pages (fun _ => 0) ∅ = s.fixed := by simp [pages]
  refine ⟨⟨fun p => ?_, h.divided.congr hpages, h.trampoline, h.kend⟩, ⟨⟨fun f => ?_, fun f _ => (h.closed f).2⟩, ?_⟩,
    fun p _ => ?_, fun p hp => ?_, fun p hp => ?_, fun p _ fd => h.ofile p fd⟩
  · rw [h.procs]
    exact UserProc.has_free _ _
  · rw [(h.closed f).1]
    simp [Refcount.held, Files.fileOf, h.ofile]
  · have hend : ∀ {f e}, Files.pipeEnd (s.files.ftable f) ≠ some e := fun {f e} he => by
      rw [Files.pipeEnd, (h.closed f).2] at he
      cases he
    exact ⟨⟨fun _ _ he => absurd he hend, fun _ _ _ he => absurd he hend,
      fun e he => absurd he (Finset.notMem_empty e.1)⟩, fun pi hpi => absurd hpi (Finset.notMem_empty pi)⟩
  · rw [h.procs]
    exact ⟨rfl, rfl, rfl⟩
  · rw [h.procs] at hp
    exact absurd rfl hp
  · rw [h.procs] at hp
    exact absurd rfl hp.1

theorem Kernel.userinit_inv (h : s.Booted) :
    wp Kernel.userinit (fun _ t => ∃ Q, t.Inv Q ∅) OnlyFsStop s := by
  have hunused : ∀ p, (s.proc p).state = .unused := fun p => by rw [h.procs]; rfl
  have hinv := h.inv
  unfold Kernel.userinit
  rw [wp_bind]
  have halloc : wp allocproc _ (fun _ => False ∧ True) s := wp_and (allocproc_spec hinv.mapped hinv.vacant)
    (allocproc_plenty (k := 3) (hunused s.initproc) h.plenty)
  refine wp_mono halloc (fun r t hpost => ?_) fun _ he => he.1.elim
  obtain ⟨⟨-, hspec⟩, hsome, hplenty⟩ := hpost
  obtain ⟨p, rfl⟩ := Option.ne_none_iff_exists'.mp hsome
  obtain ⟨own, hmap, -, htramp, ⟨ram₀, hfiles, huses₀⟩, ⟨tf, pt, hself, hmaps, hown⟩, hother⟩ := hspec
  have hpt : (t.proc p).pagetable = some pt := congrArg UserProc.pagetable hself
  have htf : (t.proc p).trapframe = some tf := congrArg UserProc.trapframe hself
  simp only [wp_bind, wp_pointer, wp_modify, wp_get, hpt]
  rw [← htramp] at hmaps
  have hown' : t.files.ram.Owned (t.files.ram.space pt (trapTop t.trampoline tf) 0) := by
    have hall := hmap.owned p
    rw [update_self, hown] at hall
    exact hall.right.congr (t.files.ram.space_zero pt _)
  refine wp_post (uvmfirst_spec (s := { t with initproc := p }) (by decide) hmaps.space_zero (trapTop_clear _ _)
    hown' hplenty) fun _ u hpost => ?_
  obtain ⟨ram, N, rfl, hspace, huses⟩ := hpost
  have hmap₁ : Kernel.Mapped { t with initproc := p } (update (fun _ => 0) p own) ∅ :=
    ⟨hmap.has, hmap.divided, hmap.trampoline, hmap.kend⟩
  have hA : update (fun _ => (0 : Multiset ℕ)) p own p =
      {tf} + t.files.ram.space pt (trapTop t.trampoline tf) 0 := by
    rw [update_self, hown, t.files.ram.space_zero]
  have hfits : Fits PGSIZE 1 := by
    have hone := fits_mul 1
    rwa [one_mul] at hone
  have hmap₂ := hmap₁.newSpace hpt htf hA hspace hfits huses
  simp only [withRam, Kernel.setProc, htf, hpt, update_self, wp_pointer, wp_ram, setTrapframe, wp_modify,
    Function.update_idem]
  refine wp_anyFsKernel fun ip fs => ?_
  simp only [Files.setCwd, update_self, Function.update_idem]
  have hsame : ∀ i, (((Kernel.withRam { t with initproc := p } ram).setProc p
      fun q => { q with sz := PGSIZE }).proc i).SamePages (update t.proc p { t.proc p with
        sz := PGSIZE, pagetable := some pt, trapframe := some tf, name := initname, state := .runnable } i) := by
    intro i
    by_cases hi : i = p
    · subst hi
      rw [setProc_self, update_self]
      exact ⟨hpt.symm, htf.symm, rfl⟩
    · rw [setProc_other _ _ hi, update_of_ne hi]
      exact ⟨rfl, rfl, rfl⟩
  have hmap₃ := (hmap₂ (Bytes.store (Bytes.store (ram.mem tf) TF_EPC 8 0) TF_SP 8 PGSIZE)).sameProcs hsame
  refine ⟨_, hinv.born p ⟨hmap₃.has, hmap₃.divided, hmap₃.trampoline, hmap₃.kend⟩ ?_ (fun i hi => ?_) ?_ ?_ ?_
    (fun i hi => ?_) fun i hi => ?_⟩
  · have hexact := hinv.files
    simp only [hfiles]
    exact hexact.of_eq rfl rfl
  · change update t.proc p _ i = _
    rw [update_of_ne hi]
    exact hother i hi
  · change (update t.proc p _ p).Running
    rw [update_self]
    exact ⟨ProcState.noConfusion, ProcState.noConfusion⟩
  · change (update t.proc p _ p).pagetable ≠ none
    rw [update_self]
    exact Option.some_ne_none pt
  · change update t.files.cwd p (some ip) p ≠ none
    rw [update_self]
    exact Option.some_ne_none ip
  · change update t.files.cwd p (some ip) i = _
    rw [update_of_ne hi, hfiles]
  · change t.files.ofile i = _
    rw [hfiles]

end Xv6
