import Xv6.File.ExactCalls

namespace Xv6

open Wp FilesM KernelM Ram
open Function (update update_of_ne update_self)

variable {mem : Mem} {trampoline : ℕ} {q : UserProc}

-- Every page of RAM is either free or one of P, once.
structure Ram.Divided (s : Ram) (P : Multiset ℕ) : Prop where
  owned : s.Owned P
  all : ∀ q, InRam s.kend q → q ∈ ↑s.freelist + P

theorem Ram.Divided.uses {s t : Ram} {P P' : Multiset ℕ} (h : s.Divided P) (hu : Uses P P' s t) :
    t.Divided P' := by
  refine ⟨hu.owned h.owned, fun q hq => ?_⟩
  rw [hu.kend] at hq
  have hpages : (↑t.freelist : Multiset ℕ) + P' = ↑s.freelist + P := hu.store.pages
  rw [hpages]
  exact h.all q hq

theorem Ram.Divided.congr {s : Ram} {P P' : Multiset ℕ} (h : s.Divided P) (hP : P' = P) : s.Divided P' :=
  hP ▸ h

-- The pages of a process: none, a trapframe while it is being made, or all of it.
inductive UserProc.Has (mem : Mem) (trampoline : ℕ) (q : UserProc) : Multiset ℕ → Prop
  | bare (pagetable : q.pagetable = none) (trapframe : q.trapframe = none) (sz : q.sz = 0) :
      Has mem trampoline q 0
  | trap {tf : ℕ} (pagetable : q.pagetable = none) (trapframe : q.trapframe = some tf) (sz : q.sz = 0) :
      Has mem trampoline q {tf}
  | full {pt tf n : ℕ} {L : ℕ → Option ℕ} (pagetable : q.pagetable = some pt) (trapframe : q.trapframe = some tf)
      (space : Space mem pt L n (trapTop trampoline tf)) (fits : Fits q.sz n) :
      Has mem trampoline q ({tf} + (mem.tables 2 pt + frames L 0 n))

theorem UserProc.Has.congr {mem' : Mem} {P : Multiset ℕ}
    (h : q.Has mem trampoline P) (hmem : ∀ page ∈ P, mem' page = mem page) : q.Has mem' trampoline P := by
  cases h with
  | bare pagetable trapframe sz => exact .bare pagetable trapframe sz
  | trap pagetable trapframe sz => exact .trap pagetable trapframe sz
  | @full pt tf n L pagetable trapframe space fits =>
      have htables : ∀ page ∈ mem.tables 2 pt, mem' page = mem page := fun page hpage =>
        hmem page (by simp [hpage])
      rw [← Mem.tables_congr htables]
      exact .full pagetable trapframe (space.congr htables) fits

structure UserProc.SamePages (q q' : UserProc) : Prop where
  pagetable : q'.pagetable = q.pagetable
  trapframe : q'.trapframe = q.trapframe
  sz : q'.sz = q.sz

theorem UserProc.Has.of_same {q' : UserProc} {P : Multiset ℕ}
    (h : q.Has mem trampoline P) (hq : q.SamePages q') : q'.Has mem trampoline P := by
  cases h with
  | bare pagetable trapframe sz =>
      exact .bare (hq.pagetable.trans pagetable) (hq.trapframe.trans trapframe) (hq.sz.trans sz)
  | trap pagetable trapframe sz =>
      exact .trap (hq.pagetable.trans pagetable) (hq.trapframe.trans trapframe) (hq.sz.trans sz)
  | full pagetable trapframe space fits =>
      exact .full (hq.pagetable.trans pagetable) (hq.trapframe.trans trapframe) space (hq.sz ▸ fits)

@[simp] theorem wp_ofFiles {α : Type} {m : FilesM α} {post : α → Kernel → Prop} {err : KernelStop → Prop}
    {s : Kernel} : wp (ofFiles m) post err s ↔
      wp m (fun a files => post a { s with files := files }) (fun e => err (.file e)) s.files :=
  wp_zoom

@[simp] theorem wp_ram {α : Type} {m : RamM α} {post : α → Kernel → Prop} {err : KernelStop → Prop}
    {s : Kernel} : wp (ram m) post err s ↔
      wp m (fun a ram => post a { s with files := { s.files with ram := ram } })
        (fun e => err (.file (.ram e))) s.files.ram := by
  rw [ram, wp_ofFiles, wp_ofRam]

theorem wp_ram_of {α : Type} {m : RamM α} {post : α → Kernel → Prop} {err : KernelStop → Prop} {s : Kernel}
    {spec : α → Ram → Prop} (h : wp m spec (fun _ => False) s.files.ram)
    (hpost : ∀ a ram, spec a ram → post a { s with files := { s.files with ram := ram } }) :
    wp (ram m) post err s :=
  wp_ram.mpr (wp_mono h hpost fun _ he => he.elim)

namespace Kernel

def fixed (s : Kernel) : Multiset ℕ :=
  s.files.ram.mem.tables 2 s.kernelPagetable +
    (Finset.univ.val.map s.kstack + Finset.univ.val.map s.disk)

def pages (s : Kernel) (P : Slot → Multiset ℕ) (pipes : Finset ℕ) : Multiset ℕ :=
  ∑ p, P p + (pipes.val + s.fixed)

structure Mapped (s : Kernel) (P : Slot → Multiset ℕ) (pipes : Finset ℕ) : Prop where
  has : ∀ p, (s.proc p).Has s.files.ram.mem s.trampoline (P p)
  divided : s.files.ram.Divided (s.pages P pipes)
  trampoline : s.trampoline < 2 ^ 44
  kend : KERNBASE ≤ s.files.ram.kend

variable {s t : Kernel} {P : Slot → Multiset ℕ} {pipes pipes' : Finset ℕ} {p : Slot}

theorem sum_update (P : Slot → Multiset ℕ) (p : Slot) (P' : Multiset ℕ) :
    ∑ i, update P p P' i = P' + ∑ i ∈ Finset.univ \ {p}, P i :=
  Finset.sum_update_of_mem (Finset.mem_univ p) P P'

theorem sum_split (P : Slot → Multiset ℕ) (p : Slot) : ∑ i, P i = P p + ∑ i ∈ Finset.univ \ {p}, P i := by
  have h := sum_update P p (P p)
  rwa [Function.update_eq_self] at h

def others (s : Kernel) (P : Slot → Multiset ℕ) (p : Slot) : Multiset ℕ :=
  ∑ i ∈ Finset.univ \ {p}, P i + s.fixed

theorem pages_split (s : Kernel) (P : Slot → Multiset ℕ) (pipes : Finset ℕ) (p : Slot) :
    s.pages P pipes = (pipes.val + P p) + s.others P p := by
  rw [pages, others, sum_split P p]
  ac_rfl

-- A step of process p, which may make or free pipes too, keeps what the others have.
theorem Mapped.step (h : s.Mapped P pipes) {P' : Multiset ℕ}
    (huses : Uses (pipes.val + P p) (pipes'.val + P') s.files.ram t.files.ram)
    (hproc : ∀ i, i ≠ p → (s.proc i).SamePages (t.proc i))
    (hhas : (t.proc p).Has t.files.ram.mem s.trampoline P') (htramp : t.trampoline = s.trampoline)
    (hkernel : t.kernelPagetable = s.kernelPagetable) (hkstack : t.kstack = s.kstack) (hdisk : t.disk = s.disk) :
    t.Mapped (update P p P') pipes' := by
  have hdivided := h.divided.congr (pages_split s P pipes p).symm
  have hkept := huses.kept hdivided.owned
  have hfixed : t.fixed = s.fixed := by
    rw [fixed, fixed, hkernel, hkstack, hdisk, Mem.tables_congr]
    intro q hq
    exact hkept q (by simp [others, fixed, hq])
  refine ⟨fun i => ?_, ?_, htramp ▸ h.trampoline, ?_⟩
  · rw [htramp]
    by_cases hi : i = p
    · subst hi
      rw [update_self]
      exact hhas
    · rw [update_of_ne hi]
      refine ((h.has i).of_same (hproc i hi)).congr fun q hq => hkept q ?_
      refine Multiset.mem_add.mpr (.inl (Multiset.mem_of_le ?_ hq))
      exact Finset.single_le_sum (fun _ _ => Multiset.zero_le _) (by simp [hi])
  · refine (hdivided.uses (huses.frame _)).congr ?_
    rw [pages, sum_update, hfixed, others]
    ac_rfl
  · rw [huses.kend]
    exact h.kend

def withRam (s : Kernel) (ram : Ram) : Kernel := { s with files := { s.files with ram := ram } }

theorem Mapped.owned (h : s.Mapped P pipes) (p : Slot) : s.files.ram.Owned (P p) :=
  (h.divided.owned.congr (pages_split s P pipes p).symm).left.right

theorem Mapped.setProc (h : s.Mapped P pipes) {P' : Multiset ℕ} {ram : Ram} {f : UserProc → UserProc}
    (huses : Uses (P p) P' s.files.ram ram) (hhas : (f (s.proc p)).Has ram.mem s.trampoline P') :
    ((s.withRam ram).setProc p f).Mapped (update P p P') pipes := by
  refine h.step (p := p) (t := (s.withRam ram).setProc p f) ?_ (fun i hi => ?_) ?_ rfl rfl rfl rfl
  · exact (huses.frame pipes.val).congr (add_comm _ _) (add_comm _ _)
  · have hsame : ((s.withRam ram).setProc p f).proc i = s.proc i := update_of_ne hi _ _
    rw [hsame]
    exact ⟨rfl, rfl, rfl⟩
  · have hself : ((s.withRam ram).setProc p f).proc p = f (s.proc p) := update_self ..
    rw [hself]
    exact hhas

end Kernel

def UserProc.free : UserProc := ⟨.unused, 0, none, false, 0, 0, none, none, []⟩

open Kernel

variable {s : Kernel} {P : Slot → Multiset ℕ} {pipes : Finset ℕ} {p : Slot} {err : KernelStop → Prop}

theorem UserProc.has_free (mem : Mem) (trampoline : ℕ) : UserProc.free.Has mem trampoline 0 := .bare rfl rfl rfl

-- freeproc gives back what there is of a process.
theorem freeproc_spec (h : s.Mapped P pipes) :
    wp (freeproc p) (fun _ t => ∃ ram, t = (s.withRam ram).setProc p (fun _ => UserProc.free) ∧
      Uses (P p) 0 s.files.ram ram ∧ t.Mapped (update P p 0) pipes) err s := by
  have hown := h.owned p
  have hdone : ∀ ram, Uses (P p) 0 s.files.ram ram → ∃ ram', (s.withRam ram).setProc p (fun _ => UserProc.free) =
      (s.withRam ram').setProc p (fun _ => UserProc.free) ∧ Uses (P p) 0 s.files.ram ram' ∧
      ((s.withRam ram).setProc p fun _ => UserProc.free).Mapped (update P p 0) pipes := fun ram huses =>
    ⟨ram, rfl, huses, h.setProc huses (UserProc.has_free _ _)⟩
  have hhas := h.has p
  unfold freeproc
  simp only [wp_bind, wp_get]
  generalize hP : P p = own at hhas
  rw [hP] at hown hdone
  cases hhas with
  | bare hpt htf =>
      simp only [hpt, htf, wp_modify]
      exact hdone _ (.refl _ _)
  | trap hpt htf =>
      simp only [hpt, htf, wp_bind]
      exact wp_ram_of (kfree_spec hown) fun _ ram hram => hdone ram hram
  | @full pt tf n L hpt htf hspace hfits =>
      simp only [hpt, htf, wp_bind]
      refine wp_ram_of (kfree_spec hown.left) fun _ ram hram => ?_
      have hkept : ∀ q ∈ s.files.ram.mem.tables 2 pt, ram.mem q = s.files.ram.mem q := fun q hq =>
        hram.kept hown q (by simp [hq])
      have huses := (hram.frame (s.files.ram.mem.tables 2 pt + frames L 0 n)).congr rfl (zero_add _).symm
      have hspace' : ram.space pt L n = s.files.ram.mem.tables 2 pt + frames L 0 n := by
        rw [Ram.space, Mem.tables_congr hkept]
      have hfree := procFreepagetable_spec (hspace.congr hkept) hfits ((huses.owned hown).congr hspace')
      refine wp_ram_of hfree fun _ ram' hram' => ?_
      exact hdone ram' (huses.trans (hram'.congr hspace'.symm rfl))

def Kernel.Vacant (s : Kernel) : Prop :=
  ∀ p, (s.proc p).state = .unused →
    (s.proc p).pagetable = none ∧ (s.proc p).trapframe = none ∧ (s.proc p).sz = 0

theorem UserProc.Has.eq_zero {own : Multiset ℕ}
    (h : q.Has mem trampoline own) (hpt : q.pagetable = none) (htf : q.trapframe = none) : own = 0 := by
  cases h with
  | bare => rfl
  | trap _ htf' =>
      rw [htf] at htf'
      cases htf'
  | full hpt' =>
      rw [hpt] at hpt'
      cases hpt'

def UserProc.made (q : UserProc) (pid : Int) (tf pt : Option ℕ) : UserProc :=
  { q with pid := pid, state := .used, trapframe := tf, pagetable := pt }

-- The pages of a state in which only the next pid differs.
theorem Kernel.Mapped.nextpid (h : s.Mapped P pipes) (n : Int) : Kernel.Mapped { s with nextpid := n } P pipes :=
  ⟨h.has, h.divided, h.trampoline, h.kend⟩

theorem Kernel.setProc_setProc (s : Kernel) (p : Slot) (f g : UserProc → UserProc) (n : Int) (ram : Ram) :
    (({ s.setProc p f with nextpid := n } : Kernel).withRam ram).setProc p g =
      { (s.withRam ram).setProc p (g ∘ f) with nextpid := n } := by
  simp [Kernel.setProc, Kernel.withRam]

theorem Kernel.setProc_self (s : Kernel) (p : Slot) (f : UserProc → UserProc) :
    (s.setProc p f).proc p = f (s.proc p) := update_self ..

theorem Kernel.setProc_other (s : Kernel) {p i : Slot} (f : UserProc → UserProc) (hi : i ≠ p) :
    (s.setProc p f).proc i = s.proc i := update_of_ne hi _ _

-- What a failed allocproc leaves: a slot that was free may have been cleared.
structure Kernel.Undone (s t : Kernel) (p : Slot) : Prop where
  files : ∃ ram, t.files = { s.files with ram := ram } ∧ Uses 0 0 s.files.ram ram
  self : t.proc p = UserProc.free
  other : ∀ i, i ≠ p → t.proc i = s.proc i

structure Kernel.Made (s t : Kernel) (P' : Multiset ℕ) (p : Slot) : Prop where
  unused : (s.proc p).state = .unused
  trampoline : t.trampoline = s.trampoline
  files : ∃ ram, t.files = { s.files with ram := ram } ∧ Uses 0 P' s.files.ram ram
  self : ∃ tf pt, t.proc p = (s.proc p).made s.nextpid (some tf) (some pt) ∧
    Maps t.files.ram.mem pt (trapTop s.trampoline tf) ∧ P' = {tf} + t.files.ram.mem.tables 2 pt
  other : ∀ i, i ≠ p → t.proc i = s.proc i

theorem allocproc_spec (h : s.Mapped P pipes) (hvacant : s.Vacant) :
    wp allocproc (fun r t => t.initproc = s.initproc ∧ match r with
      | none => t.Mapped P pipes ∧ (t = s ∨ ∃ p, (s.proc p).state = .unused ∧ s.Undone t p)
      | some p => ∃ P', t.Mapped (update P p P') pipes ∧ s.Made t P' p) err s := by
  unfold allocproc
  simp only [wp_bind, wp_get]
  split
  · exact ⟨rfl, h, .inl rfl⟩
  rename_i p hfind
  have hstate : (s.proc p).state = .unused := by simpa using List.find?_some hfind
  obtain ⟨hpt, htf, hsz⟩ := hvacant p hstate
  have hzero : P p = 0 := (h.has p).eq_zero hpt htf
  have hP : update P p 0 = P := by rw [← hzero, Function.update_eq_self]
  have hown : s.files.ram.Owned 0 := hzero ▸ h.owned p
  -- freeproc in a state in which p has the pages Q.
  have hfree : ∀ {t : Kernel} {ram Q} {g : UserProc → UserProc}, t.Mapped (update P p Q) pipes →
      t = { (s.withRam ram).setProc p g with nextpid := Sched.wrapInt (s.nextpid + 1) } →
      Uses 0 Q s.files.ram ram → wp (do freeproc p; return none) (fun (r : Option Slot) u =>
        u.initproc = s.initproc ∧ match r with
          | none => u.Mapped P pipes ∧ (u = s ∨ ∃ p, (s.proc p).state = .unused ∧ s.Undone u p)
          | some p => ∃ P', u.Mapped (update P p P') pipes ∧ s.Made u P' p) err t := by
    rintro t ram Q g ht rfl huses
    rw [wp_bind]
    refine wp_post (freeproc_spec ht) fun _ u hpost => ?_
    obtain ⟨ram', hu, huses', hmap⟩ := hpost
    rw [Function.update_idem, hP] at hmap
    rw [update_self] at huses'
    subst hu
    refine ⟨rfl, hmap, .inr ⟨p, hstate, ⟨ram', rfl, huses.trans huses'⟩, ?_, fun i hi => ?_⟩⟩
    · exact Kernel.setProc_self ..
    · rw [Kernel.setProc_other _ _ hi]
      exact Kernel.setProc_other _ _ hi
  simp only [wp_bind, wp_set]
  refine wp_ram_of (kalloc_spec s.files.ram) fun r ram hram => ?_
  rw [wp_modify]
  change wp _ _ _ ((Kernel.withRam _ ram).setProc p _)
  rw [Kernel.setProc_setProc]
  cases r with
  | none =>
      refine hfree (Q := 0) ?_ rfl hram.1
      exact (h.setProc (p := p) (hram.1.congr hzero rfl) (.bare hpt rfl hsz)).nextpid _
  | some page =>
      have hpage : page < 2 ^ 44 := ((hram.owned hown).inRam (Multiset.mem_singleton_self page)).lt
      have hempty : ram.Owned 0 := (hram.owned hown).mono (Multiset.zero_le _)
      simp only [wp_bind]
      refine wp_ram_of (procPagetable_spec hempty h.trampoline hpage) fun r ram' hram' => ?_
      rw [wp_modify]
      change wp _ _ _ ((Kernel.withRam { (s.withRam ram).setProc p _ with nextpid := _ } ram').setProc p _)
      rw [Kernel.setProc_setProc]
      have hstep : ∀ {own}, Uses 0 own ram ram' → Uses 0 ({page} + own) s.files.ram ram' := fun hu =>
        hram.trans ((hu.frame {page}).congr (zero_add _).symm (add_comm _ _))
      cases r with
      | none =>
          have hu : Uses 0 {page} s.files.ram ram' := (hstep hram').congr rfl (add_zero _).symm
          refine hfree (Q := {page}) ?_ rfl hu
          exact (h.setProc (p := p) (hu.congr hzero rfl) (.trap rfl rfl hsz)).nextpid _
      | some pt =>
          obtain ⟨hmaps, hu⟩ := hram'
          have hpages : {page} + (ram'.mem.tables 2 pt + frames (trapTop s.trampoline page) 0 0) =
              {page} + ram'.mem.tables 2 pt := by
            rw [show frames (trapTop s.trampoline page) 0 0 = 0 from rfl, add_zero]
          have hfits : Fits (s.proc p).sz 0 := by
            rw [hsz]
            exact ⟨Nat.zero_le _, by decide⟩
          refine ⟨rfl, {page} + ram'.mem.tables 2 pt, ?_, hstate, rfl, ⟨ram', rfl, hstep hu⟩,
            ⟨page, pt, Kernel.setProc_self .., hmaps, rfl⟩, fun i hi => Kernel.setProc_other _ _ hi⟩
          rw [← hpages]
          exact (h.setProc (p := p) ((hstep hu).congr hzero hpages)
            (.full rfl rfl hmaps.space_zero hfits)).nextpid _

end Xv6
