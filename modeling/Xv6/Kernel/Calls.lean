import Xv6.Kernel.Invariant

namespace Xv6

open Wp FilesM KernelM Ram
open Function (update update_of_ne update_self)

variable {pipes' : Finset ℕ} {t : Kernel} {Q : Slot → Multiset ℕ} {np : Slot}

def UserProc.Running (q : UserProc) : Prop := q.state ≠ .unused ∧ q.state ≠ .zombie

structure Kernel.Inv (s : Kernel) (P : Slot → Multiset ℕ) (pipes : Finset ℕ) : Prop where
  mapped : s.Mapped P pipes
  files : Files.Exact s.files.ofile s.files [] pipes
  vacant : s.Vacant
  live : ∀ p, (s.proc p).state ≠ .unused → (s.proc p).pagetable ≠ none
  cwd : ∀ p, (s.proc p).Running → s.files.cwd p ≠ none
  closed : ∀ p, ¬(s.proc p).Running → ∀ fd, s.files.ofile p fd = none

def OnlyFsStop (e : KernelStop) : Prop := ∃ why, e = .file (.fs why)

namespace Kernel

variable {s t : Kernel} {P : Slot → Multiset ℕ} {pipes : Finset ℕ} {p : Slot}

variable {own : Multiset ℕ} {pt tf n : ℕ} {L : ℕ → Option ℕ} {va : ℕ} {ram : Ram} {m sz : ℕ} {N : ℕ → Option ℕ}

structure Full (s : Kernel) (p : Slot) (own : Multiset ℕ) (pt tf n : ℕ) (L : ℕ → Option ℕ) : Prop where
  pagetable : (s.proc p).pagetable = some pt
  trapframe : (s.proc p).trapframe = some tf
  space : Space s.files.ram.mem pt L n (trapTop s.trampoline tf)
  fits : Fits (s.proc p).sz n
  own : own = {tf} + s.files.ram.space pt L n

-- What the invariant says of one process.
structure Settled (s : Kernel) (p : Slot) : Prop where
  vacant : (s.proc p).state = .unused →
    (s.proc p).pagetable = none ∧ (s.proc p).trapframe = none ∧ (s.proc p).sz = 0
  live : (s.proc p).state ≠ .unused → (s.proc p).pagetable ≠ none
  cwd : (s.proc p).Running → s.files.cwd p ≠ none
  closed : ¬(s.proc p).Running → ∀ fd, s.files.ofile p fd = none

theorem Inv.settled (h : s.Inv P pipes) (p : Slot) : s.Settled p := ⟨h.vacant p, h.live p, h.cwd p, h.closed p⟩

theorem Inv.of_settled (hmap : s.Mapped P pipes) (hfiles : Files.Exact s.files.ofile s.files [] pipes)
    (h : ∀ p, s.Settled p) : s.Inv P pipes :=
  ⟨hmap, hfiles, fun p => (h p).vacant, fun p => (h p).live, fun p => (h p).cwd, fun p => (h p).closed⟩

theorem Settled.same (h : s.Settled p) (hstate : (t.proc p).state = (s.proc p).state)
    (hsame : (s.proc p).SamePages (t.proc p)) (hcwd : t.files.cwd p = s.files.cwd p)
    (hofile : t.files.ofile p = s.files.ofile p) : t.Settled p := by
  have hrun : (t.proc p).Running ↔ (s.proc p).Running := by rw [UserProc.Running, UserProc.Running, hstate]
  refine ⟨fun hu => ?_, fun hu => ?_, fun hr => ?_, fun hr => ?_⟩
  · obtain ⟨hpt, htf, hsz⟩ := h.vacant (hstate.symm.trans hu)
    exact ⟨hsame.pagetable.trans hpt, hsame.trapframe.trans htf, hsame.sz.trans hsz⟩
  · rw [hsame.pagetable]
    exact h.live (hstate ▸ hu)
  · rw [hcwd]
    exact h.cwd (hrun.mp hr)
  · rw [hofile]
    exact h.closed (mt hrun.mpr hr)

theorem Settled.congr (h : s.Settled p) (hproc : t.proc p = s.proc p) (hcwd : t.files.cwd p = s.files.cwd p)
    (hofile : t.files.ofile p = s.files.ofile p) : t.Settled p :=
  h.same (by rw [hproc]) (by rw [hproc]; exact ⟨rfl, rfl, rfl⟩) hcwd hofile

theorem Settled.free (hproc : s.proc p = UserProc.free) (hclosed : ∀ fd, s.files.ofile p fd = none) : s.Settled p := by
  constructor <;> rw [hproc]
  · exact fun _ => ⟨rfl, rfl, rfl⟩
  · exact fun hu => absurd rfl hu
  · exact fun hr => absurd rfl hr.1
  · exact fun _ => hclosed

theorem Mapped.full (h : s.Mapped P pipes) (hpt : (s.proc p).pagetable ≠ none) :
    ∃ pt tf n L, s.Full p (P p) pt tf n L := by
  have hhas := h.has p
  generalize hP : P p = own at hhas
  cases hhas with
  | bare hnone => exact absurd hnone hpt
  | trap hnone => exact absurd hnone hpt
  | @full pt tf n L hpt htf hspace hfits => exact ⟨pt, tf, n, L, hpt, htf, hspace, hfits, rfl⟩

theorem Inv.full (h : s.Inv P pipes) (hp : (s.proc p).state ≠ .unused) : ∃ pt tf n L, s.Full p (P p) pt tf n L :=
  h.mapped.full (h.live p hp)

-- It depends on the pages of the process only.
theorem Full.congr (h : s.Full p own pt tf n L) (hproc : t.proc p = s.proc p) (htramp : t.trampoline = s.trampoline)
    (hmem : ∀ q ∈ own, t.files.ram.mem q = s.files.ram.mem q) : t.Full p own pt tf n L := by
  have htables : ∀ q ∈ s.files.ram.mem.tables 2 pt, t.files.ram.mem q = s.files.ram.mem q := fun q hq =>
    hmem q (by rw [h.own]; simp [Ram.space, hq])
  refine ⟨hproc ▸ h.pagetable, hproc ▸ h.trapframe, ?_, hproc ▸ h.fits, ?_⟩
  · rw [htramp]
    exact h.space.congr htables
  · rw [Ram.space_congr htables]
    exact h.own

theorem Full.view_congr {mem : Mem} (h : s.Full p own pt tf n L)
    (hmem : ∀ q ∈ own, mem q = s.files.ram.mem q) (hva : va < TRAPFRAME) :
    mem.view pt va = s.files.ram.mem.view pt va := by
  refine h.space.view_congr (trapTop_clear _ _) (fun q hq => hmem q ?_) hva
  rw [h.own]
  exact Multiset.mem_add.mpr (.inr hq)

def view (s : Kernel) (p : Slot) (va : ℕ) : Option (ℕ × UInt8) :=
  (s.proc p).pagetable.bind fun pagetable => s.files.ram.mem.view pagetable va

theorem Mapped.view_congr (h : s.Mapped P pipes) (hproc : (t.proc p).pagetable = (s.proc p).pagetable)
    (hmem : ∀ q ∈ P p, t.files.ram.mem q = s.files.ram.mem q) (hva : va < TRAPFRAME) :
    t.view p va = s.view p va := by
  unfold view
  rw [hproc]
  cases hpt : (s.proc p).pagetable with
  | none => rw [Option.bind_none, Option.bind_none]
  | some pt =>
      obtain ⟨pt', tf, n, L, hfull⟩ := h.full (by rw [hpt]; exact Option.some_ne_none pt)
      obtain rfl : pt = pt' := Option.some.inj (hpt.symm.trans hfull.pagetable)
      exact hfull.view_congr hmem hva

theorem Mapped.owned_two (h : s.Mapped P pipes) {q : Slot} (hq : q ≠ p) : s.files.ram.Owned (P p + P q) := by
  refine h.divided.owned.mono ?_
  rw [pages, sum_split P p]
  have hle : P q ≤ ∑ i ∈ Finset.univ \ {p}, P i :=
    Finset.single_le_sum (fun _ _ => Multiset.zero_le _) (by simp [hq])
  exact (add_le_add le_rfl hle).trans (Multiset.le_add_right _ _)

-- A step that takes and gives pages of p only.
structure Local (s t : Kernel) (p : Slot) (own : Multiset ℕ) : Prop where
  other : ∀ i, i ≠ p → t.proc i = s.proc i
  uses : ∃ own', Uses own own' s.files.ram t.files.ram

theorem Local.view (h : s.Local t p (P p)) (hmap : s.Mapped P pipes) {i : Slot} (hi : i ≠ p)
    (hva : va < TRAPFRAME) : t.view i va = s.view i va := by
  obtain ⟨own', huses⟩ := h.uses
  exact hmap.view_congr (congrArg UserProc.pagetable (h.other i hi)) (huses.kept (hmap.owned_two hi)) hva

theorem Full.setLocal {own' : Multiset ℕ}
    (h : s.Full p own pt tf n L) (huses : Uses (s.files.ram.space pt L n) own' s.files.ram ram)
    (f : UserProc → UserProc) : s.Local ((s.withRam ram).setProc p f) p own :=
  ⟨fun _ hi => setProc_other _ _ hi, _, (huses.frame {tf}).congr (h.own.trans (add_comm _ _)) rfl⟩

theorem Full.ramLocal {own' : Multiset ℕ}
    (h : s.Full p own pt tf n L) (huses : Uses (s.files.ram.space pt L n) own' s.files.ram ram) :
    s.Local (s.withRam ram) p own :=
  ⟨fun _ _ => rfl, _, (huses.frame {tf}).congr (h.own.trans (add_comm _ _)) rfl⟩

theorem Full.owned (h : s.Full p own pt tf n L)
    (ho : s.files.ram.Owned own) : s.files.ram.Owned (s.files.ram.space pt L n) :=
  (ho.congr h.own.symm).right

theorem Mapped.writeTrapframe (h : s.Mapped P pipes) (hfull : s.Full p (P p) pt tf n L) (page : Page) :
    (s.withRam { s.files.ram with mem := update s.files.ram.mem tf page }).Mapped P pipes := by
  have htf : tf ∈ P p := by
    rw [hfull.own]
    simp
  have hnot : tf ∉ s.files.ram.mem.tables 2 pt := by
    have hnodup := ((h.owned p).congr hfull.own.symm).nodup
    have hdisjoint := Multiset.disjoint_left.mp (Multiset.nodup_add.mp hnodup).2.2 (Multiset.mem_singleton_self tf)
    exact fun hmem => hdisjoint (by simp [Ram.space, hmem])
  have hkept : ∀ q ∈ s.files.ram.mem.tables 2 pt, update s.files.ram.mem tf page q = s.files.ram.mem q := by
    intro q hq
    have hne : q ≠ tf := by
      rintro rfl
      exact hnot hq
    exact update_of_ne hne _ _
  have hmap := h.step (p := p)
    (t := s.withRam { s.files.ram with mem := update s.files.ram.mem tf page })
    (Uses.write s.files.ram (Multiset.mem_add.mpr (.inr htf)) page) (fun _ _ => ⟨rfl, rfl, rfl⟩) ?_ rfl rfl rfl rfl
  · rwa [Function.update_eq_self] at hmap
  · rw [hfull.own, Ram.space, ← Mem.tables_congr hkept]
    exact .full hfull.pagetable hfull.trapframe (hfull.space.congr hkept) hfull.fits

-- A process that is in use changes, and stays in the state it is in.
theorem Inv.setProc (h : s.Inv P pipes) {Q : Slot → Multiset ℕ} {f : UserProc → UserProc}
    (hmap : ((s.withRam ram).setProc p f).Mapped Q pipes) (hp : (s.proc p).state ≠ .unused)
    (hstate : (f (s.proc p)).state = (s.proc p).state) (hpt : (f (s.proc p)).pagetable ≠ none) :
    ((s.withRam ram).setProc p f).Inv Q pipes := by
  have hrun : (f (s.proc p)).Running ↔ (s.proc p).Running := by rw [UserProc.Running, UserProc.Running, hstate]
  refine .of_settled hmap (h.files.of_eq rfl rfl) fun i => ?_
  by_cases hi : i = p
  · subst hi
    constructor <;> rw [setProc_self]
    · exact fun hu => absurd (hstate.symm.trans hu) hp
    · exact fun _ => hpt
    · exact fun hr => h.cwd i (hrun.mp hr)
    · exact fun hr => h.closed i (mt hrun.mpr hr)
  · exact (h.settled i).congr (setProc_other _ _ hi) rfl rfl

theorem setProc_sz_self (s : Kernel) (p : Slot) (ram : Ram) :
    (s.withRam ram).setProc p (fun q => { q with sz := (s.proc p).sz }) = s.withRam ram := by
  simp [Kernel.setProc, withRam]

-- The pages A of the address space of p become those of another one.
theorem Mapped.setSpace (h : s.Mapped P pipes) {A : Multiset ℕ}
    (hpt : (s.proc p).pagetable = some pt) (htf : (s.proc p).trapframe = some tf) (hA : P p = {tf} + A)
    (hspace : Space ram.mem pt N m (trapTop s.trampoline tf)) (hfits : Fits sz m)
    (huses : Uses A (ram.space pt N m) s.files.ram ram) :
    ((s.withRam ram).setProc p fun q => { q with sz := sz }).Mapped
      (update P p ({tf} + ram.space pt N m)) pipes := by
  have hpages : Uses (P p) ({tf} + ram.space pt N m) s.files.ram ram :=
    (huses.frame {tf}).congr (hA.trans (add_comm _ _)) (add_comm _ _)
  exact h.setProc hpages (.full hpt htf hspace hfits)

-- As setSpace, and then the trapframe is written.
theorem Mapped.newSpace (h : s.Mapped P pipes) {A : Multiset ℕ}
    (hpt : (s.proc p).pagetable = some pt) (htf : (s.proc p).trapframe = some tf) (hA : P p = {tf} + A)
    (hspace : Space ram.mem pt N m (trapTop s.trampoline tf)) (hfits : Fits sz m)
    (huses : Uses A (ram.space pt N m) s.files.ram ram) (page : Page) :
    ((s.withRam { ram with mem := update ram.mem tf page }).setProc p fun q => { q with sz := sz }).Mapped
      (update P p ({tf} + ram.space pt N m)) pipes := by
  have hmap := h.setSpace hpt htf hA hspace hfits huses
  have hself := setProc_self (s.withRam ram) p fun q => { q with sz := sz }
  have hfull : Full _ p (update P p ({tf} + ram.space pt N m) p) pt tf m N :=
    ⟨(congrArg UserProc.pagetable hself).trans hpt, (congrArg UserProc.trapframe hself).trans htf, hspace,
      (congrArg UserProc.sz hself) ▸ hfits, update_self ..⟩
  exact hmap.writeTrapframe hfull page

theorem Inv.setSize (h : s.Inv P pipes) (hp : (s.proc p).state ≠ .unused) (hfull : s.Full p (P p) pt tf n L)
    (hspace : Space ram.mem pt N m (trapTop s.trampoline tf)) (hfits : Fits sz m)
    (huses : Uses (s.files.ram.space pt L n) (ram.space pt N m) s.files.ram ram) :
    ((s.withRam ram).setProc p fun q => { q with sz := sz }).Inv
      (update P p ({tf} + ram.space pt N m)) pipes := by
  have hmap := h.mapped.setSpace hfull.pagetable hfull.trapframe hfull.own hspace hfits huses
  exact h.setProc hmap hp rfl (h.live p hp)

-- As setSize, for a call that leaves the size as it is.
theorem Inv.withRam (h : s.Inv P pipes) (hp : (s.proc p).state ≠ .unused) (hfull : s.Full p (P p) pt tf n L)
    (hspace : Space ram.mem pt L n (trapTop s.trampoline tf))
    (huses : Uses (s.files.ram.space pt L n) (ram.space pt L n) s.files.ram ram) :
    (s.withRam ram).Inv (update P p ({tf} + ram.space pt L n)) pipes := by
  have hinv := h.setSize hp hfull hspace hfull.fits huses
  rwa [setProc_sz_self] at hinv

theorem Full.sz_le (h : s.Full p own pt tf n L) (ho : s.files.ram.Owned own) : (s.proc p).sz ≤ PHYSTOP := by
  have hn := (h.owned ho).right.frames_le
  have hmul : n * PGSIZE ≤ PHYSTOP / PGSIZE * PGSIZE := Nat.mul_le_mul_right _ hn
  have hstop : PHYSTOP / PGSIZE * PGSIZE = PHYSTOP := by decide
  exact h.fits.1.trans (hmul.trans hstop.le)

end Kernel

open Kernel

@[simp] theorem wp_pointer {α : Type} {a : α} {post : α → Kernel → Prop} {err : KernelStop → Prop} {s : Kernel} :
    wp (pointer (some a)) post err s ↔ post a s := Iff.rfl

variable {s : Kernel} {P : Slot → Multiset ℕ} {pipes : Finset ℕ} {p : Slot} {err : KernelStop → Prop}

-- A size below 0 wraps around, so that growproc takes it for a larger one and frees nothing.
theorem growproc_spec (h : s.Inv P pipes) (hp : (s.proc p).state ≠ .unused) {n : Int} (hlo : -2 ^ 31 ≤ n)
    (hhi : n < 2 ^ 31) :
    wp (growproc p n) (fun r t => (∃ Q, t.Inv Q pipes) ∧ s.Local t p (P p) ∧
      ((r = 0 ∧ ((t.proc p).sz : Int) = if 0 ≤ (s.proc p).sz + n then (s.proc p).sz + n else (s.proc p).sz) ∨
        (r = -1 ∧ (t.proc p).sz = (s.proc p).sz ∧ ∀ va < TRAPFRAME, t.view p va = s.view p va))) err s := by
  obtain ⟨pt, tf, m, L, hfull⟩ := h.full hp
  have ho := hfull.owned (h.mapped.owned p)
  have hsz := hfull.sz_le (h.mapped.owned p)
  have hstop : PHYSTOP = 2281701376 := by decide
  have hclear := trapTop_clear s.trampoline tf
  have hnewsz : ∀ (ram : Ram) (sz : ℕ), (((s.withRam ram).setProc p fun q => { q with sz := sz }).proc p).sz = sz :=
    fun ram sz => congrArg UserProc.sz (setProc_self (s.withRam ram) p _)
  unfold growproc
  simp only [wp_bind, wp_get, hfull.pagetable, wp_pointer, wp_ite]
  split
  · rename_i hpos
    have hnew : ((s.proc p).sz + n.toNat) % 2 ^ 64 = (s.proc p).sz + n.toNat := Nat.mod_eq_of_lt (by omega)
    rw [hnew]
    refine wp_ram_of (uvmalloc_tail hfull.space hclear hfull.fits (Nat.le_add_right _ _) (by decide) ho)
      fun r ram hram => ?_
    rcases hram with ⟨rfl, N, k, hfits, hext, hspace, -, htail⟩ | ⟨rfl, hspace, htail⟩
    · have huses := (htail.frame (frames L 0 m)).congr rfl (hext.space_eq ram pt)
      rw [if_neg (by omega)]
      refine ⟨⟨_, h.setSize hp hfull hspace hfits huses⟩, hfull.setLocal huses _, .inl ⟨rfl, ?_⟩⟩
      refine (congrArg Int.ofNat (hnewsz ram _)).trans ?_
      rw [if_pos (by omega), Int.ofNat_eq_natCast]
      omega
    · have huses := htail.frame (frames L 0 m)
      refine ⟨⟨_, h.withRam hp hfull hspace huses⟩, hfull.ramLocal huses, .inr ⟨rfl, rfl, fun va hva => ?_⟩⟩
      have hview := hfull.space.view_eq hspace hclear (htail.kept ho) hva
      unfold view
      change (s.proc p).pagetable.bind _ = _
      rw [hfull.pagetable]
      exact hview
  split
  · rename_i hneg
    by_cases hle : 0 ≤ ((s.proc p).sz : Int) + n
    · have hnew : (((s.proc p).sz : Int) + n) % 2 ^ 64 = ((s.proc p).sz : Int) + n :=
        Int.emod_eq_of_lt hle (by omega)
      rw [hnew]
      refine wp_ram_of (uvmdealloc_spec hfull.space hclear hfull.fits
        (fits_div (((s.proc p).sz : Int) + n).toNat) (by omega) ho) fun r ram hram => ?_
      obtain ⟨rfl, hspace, huses⟩ := hram
      refine ⟨⟨_, h.setSize hp hfull hspace (fits_div _) huses⟩, hfull.setLocal huses _, .inl ⟨rfl, ?_⟩⟩
      refine (congrArg Int.ofNat (hnewsz ram _)).trans ?_
      rw [if_pos hle]
      exact Int.toNat_of_nonneg hle
    · have hbig : (s.proc p).sz ≤ ((((s.proc p).sz : Int) + n) % 2 ^ 64).toNat := by omega
      have hstay : uvmdealloc pt (s.proc p).sz ((((s.proc p).sz : Int) + n) % 2 ^ 64).toNat =
          pure (s.proc p).sz := by
        rw [uvmdealloc, if_pos hbig]
      rw [hstay, wp_ram]
      have hinv := h.setSize hp hfull hfull.space hfull.fits (.refl _ _)
      refine ⟨⟨_, hinv⟩, hfull.setLocal (.refl _ _) _, .inl ⟨rfl, ?_⟩⟩
      rw [if_neg hle]
      exact congrArg Int.ofNat (hnewsz _ _)
  · have hzero : n = 0 := by omega
    refine ⟨⟨P, h⟩, ⟨fun _ _ => rfl, _, .refl _ _⟩, .inl ⟨rfl, ?_⟩⟩
    rw [hzero, add_zero, ite_self]

theorem growproc_inv (h : s.Inv P pipes) (hp : (s.proc p).state ≠ .unused) {n : Int} (hlo : -2 ^ 31 ≤ n)
    (hhi : n < 2 ^ 31) : wp (growproc p n) (fun _ t => (∃ Q, t.Inv Q pipes) ∧ s.Local t p (P p)) err s :=
  wp_post (growproc_spec h hp hlo hhi) fun _ _ ht => ⟨ht.1, ht.2.1⟩

-- A step on the files of the kernel, which may make and free pipes.
theorem Kernel.Mapped.files (h : s.Mapped P pipes) {files : Files}
    (huses : Uses pipes.val pipes'.val s.files.ram files.ram) :
    Kernel.Mapped { s with files := files } P pipes' := by
  have hmap := h.step (p := s.initproc) (t := { s with files := files }) (huses.frame (P s.initproc))
    (fun _ _ => ⟨rfl, rfl, rfl⟩) ?_ rfl rfl rfl rfl
  · rwa [Function.update_eq_self] at hmap
  · have hdivided := h.divided.congr (pages_split s P pipes s.initproc).symm
    have hkept := huses.kept (hdivided.owned.congr (by rw [add_assoc]))
    exact (h.has s.initproc).congr fun q hq => hkept q (by simp [hq])

theorem Kernel.Inv.pipesOwned (h : s.Inv P pipes) : s.files.ram.Owned pipes.val :=
  (h.mapped.divided.owned.congr (pages_split s P pipes s.initproc).symm).left.left

theorem wp_anyFsKernel {α : Type} {m : FsM α} {post : α → Kernel → Prop}
    (h : ∀ a fs, post a { s with files := { s.files with fs := fs } }) : wp (KernelM.fs m) post OnlyFsStop s := by
  rw [KernelM.fs, wp_ofFiles]
  refine wp_mono (Files.wp_anyFs h) (fun _ _ hpost => hpost) fun e he => ?_
  obtain ⟨why, rfl⟩ := he
  exact ⟨why, rfl⟩

-- Only fields of processes change that say nothing of their pages.
theorem Kernel.Mapped.sameProcs (h : s.Mapped P pipes) {proc : Slot → UserProc}
    (hproc : ∀ i, (s.proc i).SamePages (proc i)) : Kernel.Mapped { s with proc := proc } P pipes :=
  ⟨fun i => (h.has i).of_same (hproc i), h.divided, h.trampoline, h.kend⟩

def ExpectedStop (e : KernelStop) : Prop := OnlyFsStop e ∨ e = .initExiting

theorem wp_files_of {α : Type} {m : FilesM α} {post : α → Kernel → Prop} {spec : α → Files → Prop}
    (h : wp m spec Files.OnlyFs s.files) (hpost : ∀ a files, spec a files → post a { s with files := files }) :
    wp (ofFiles m) post ExpectedStop s := by
  refine wp_ofFiles.mpr (wp_mono h hpost fun e he => ?_)
  obtain ⟨why, rfl⟩ := he
  exact .inl ⟨why, rfl⟩

def Released (pipes pipes' : Finset ℕ) (t : Kernel) : Prop := ∀ pi ∈ pipes, pi ∉ pipes' → pi ∈ t.files.ram.freelist

theorem Released.refl (pipes : Finset ℕ) (t : Kernel) : Released pipes pipes t := fun _ hpi hnot => absurd hpi hnot

theorem Released.of_frame {r : Ram} {F : Multiset ℕ}
    (h : Uses (pipes.val + F) (pipes'.val + F) r t.files.ram) : Released pipes pipes' t := by
  intro pi hpi hnot
  have hall : (↑t.files.ram.freelist : Multiset ℕ) + (pipes'.val + F) = ↑r.freelist + (pipes.val + F) :=
    h.store.pages
  rw [← add_assoc, ← add_assoc] at hall
  have hpages := add_right_cancel hall
  have hmem : pi ∈ (↑t.files.ram.freelist : Multiset ℕ) + pipes'.val := by
    rw [hpages]
    exact Multiset.mem_add.mpr (.inr hpi)
  exact (Multiset.mem_add.mp hmem).resolve_right hnot

theorem Released.of_uses {r : Ram} (h : Uses pipes.val pipes'.val r t.files.ram) : Released pipes pipes' t :=
  .of_frame (F := 0) (h.frame 0)

def Kernel.Next (t : Kernel) (pipes : Finset ℕ) : Prop := ∃ Q pipes', t.Inv Q pipes' ∧ Released pipes pipes' t

theorem Kernel.Inv.next (h : s.Inv P pipes) : s.Next pipes := ⟨P, pipes, h, .refl pipes s⟩

def UserProc.adopt (q : UserProc) (p initproc : Slot) : UserProc :=
  if q.parent = some p then { q with parent := some initproc } else q

def Kernel.exited (s : Kernel) (p : Slot) (status : Int) : Slot → UserProc :=
  update (fun i => (s.proc i).adopt p s.initproc) p
    { (s.proc p).adopt p s.initproc with xstate := status, state := .zombie }

theorem UserProc.adopt_same (q : UserProc) (p initproc : Slot) : q.SamePages (q.adopt p initproc) := by
  unfold adopt
  split <;> exact ⟨rfl, rfl, rfl⟩

theorem UserProc.adopt_state (q : UserProc) (p initproc : Slot) : (q.adopt p initproc).state = q.state := by
  unfold adopt
  split <;> rfl

theorem Kernel.exited_self (s : Kernel) (p : Slot) (status : Int) : (s.exited p status p).state = .zombie := by
  rw [exited, update_self]

theorem Kernel.exited_state (s : Kernel) {p i : Slot} (status : Int) (hi : i ≠ p) :
    (s.exited p status i).state = (s.proc i).state := by
  rw [exited, update_of_ne hi, UserProc.adopt_state]

theorem Kernel.exited_same (s : Kernel) (p i : Slot) (status : Int) :
    (s.proc i).SamePages (s.exited p status i) := by
  by_cases hi : i = p
  · subst hi
    have hsame := (s.proc i).adopt_same i s.initproc
    rw [exited, update_self]
    exact ⟨hsame.pagetable, hsame.trapframe, hsame.sz⟩
  · rw [exited, update_of_ne hi]
    exact (s.proc i).adopt_same p s.initproc

theorem exit_inv (h : s.Inv P pipes) (hp : (s.proc p).Running) (status : Int) :
    wp (exit p status) (fun _ t => t.Next pipes) ExpectedStop s := by
  unfold exit
  simp only [wp_bind, wp_get, wp_ite, wp_throw]
  split
  · exact .inr rfl
  refine wp_files_of (Files.exitFiles_done h.files h.pipesOwned (h.cwd p hp)) fun _ files hfiles => ?_
  obtain ⟨⟨pipes', hexact, huses⟩, hcwd, hclosed, hother⟩ := hfiles
  simp only [reparent, wp_modify]
  change Kernel.Next { s with files := files, proc := s.exited p status } pipes
  have hself := s.exited_self p status
  have hsame := fun i => s.exited_same p i status
  refine ⟨P, pipes', .of_settled ((h.mapped.files huses).sameProcs hsame) hexact fun i => ?_, .of_uses huses⟩
  by_cases hi : i = p
  · subst hi
    refine ⟨fun hu => ?_, fun _ hnone => h.live i hp.1 ((hsame i).pagetable.symm.trans hnone),
      fun hr => absurd hself hr.2, fun _ => hclosed⟩
    exact absurd (hself.symm.trans hu) (by decide)
  · refine (h.settled i).same (s.exited_state status hi) (hsame i) ?_ (hother i hi)
    change files.cwd i = _
    rw [hcwd, update_of_ne hi]

-- copyout to a process changes its user memory only.
theorem copyout_inv (h : s.Inv P pipes) (hp : (s.proc p).state ≠ .unused) {pt : ℕ}
    (hpt : (s.proc p).pagetable = some pt) (dstva : ℕ) (src : ℕ → UInt8) (len : ℕ) :
    wp (ram (copyoutRam pt dstva src len)) (fun _ t => (∃ Q, t.Inv Q pipes) ∧ t.proc = s.proc ∧ s.Local t p (P p))
      err s := by
  obtain ⟨pt', tf, n, L, hfull⟩ := h.full hp
  obtain rfl : pt = pt' := Option.some.inj (hpt.symm.trans hfull.pagetable)
  have ho := hfull.owned (h.mapped.owned p)
  refine wp_ram_of (copyoutRam_spec hfull.space (trapTop_guarded _ _) ho dstva src len) fun _ ram hram => ?_
  obtain ⟨huses, hspace, htables⟩ := hram
  have hall : Uses (s.files.ram.space pt L n) (ram.space pt L n) s.files.ram ram := by
    rw [Ram.space, Ram.space, htables]
    exact (huses.frame _).congr (add_comm _ _) (add_comm _ _)
  exact ⟨⟨_, h.withRam hp hfull hspace hall⟩, rfl, hfull.ramLocal hall⟩

theorem freeproc_inv (h : s.Inv P pipes) (hp : ¬(s.proc p).Running) :
    wp (freeproc p) (fun _ t => ∃ Q, t.Inv Q pipes) err s := by
  refine wp_post (freeproc_spec h.mapped) fun _ t hpost => ?_
  obtain ⟨ram, rfl, -, hmap⟩ := hpost
  refine ⟨_, .of_settled hmap (h.files.of_eq rfl rfl) fun i => ?_⟩
  by_cases hi : i = p
  · rw [hi]
    exact .free (setProc_self ..) (h.closed p hp)
  · exact (h.settled i).congr (setProc_other _ _ hi) rfl rfl

theorem wait_inv (h : s.Inv P pipes) (hp : (s.proc p).Running) (addr : ℕ) :
    wp (wait p addr) (fun _ t => ∃ Q, t.Inv Q pipes) err s := by
  unfold wait
  simp only [wp_bind, wp_get]
  split
  · rename_i i hfind
    have hzombie : (s.proc i).state = .zombie := by
      have hfound := List.find?_some hfind
      simp only [Bool.and_eq_true, beq_iff_eq] at hfound
      exact hfound.2
    obtain ⟨pt, tf, n, L, hfull⟩ := h.full hp.1
    -- freeproc once the status is out.
    have hfree : ∀ {t : Kernel} {Q}, t.Inv Q pipes → t.proc = s.proc →
        wp (freeproc i) (fun _ t => ∃ Q, t.Inv Q pipes) err t := by
      intro t Q ht hproc
      exact freeproc_inv ht fun hrun => hrun.2 (by rw [hproc]; exact hzombie)
    simp only [hfull.pagetable, wp_bind, wp_pointer, wp_ite]
    split
    · refine wp_post (copyout_inv h hp.1 hfull.pagetable _ _ _) fun r t hpost => ?_
      obtain ⟨⟨Q, ht⟩, hproc, -⟩ := hpost
      split
      · exact ⟨Q, ht⟩
      · exact hfree ht hproc
    · exact hfree h rfl
  · split
    · exact ⟨P, h⟩
    · exact ⟨P, h⟩

-- A slot that was free has become a process, and the others are as they were.
theorem Kernel.Inv.born (h : s.Inv P pipes) (np : Slot) (hmap : t.Mapped Q pipes')
    (hfiles : Files.Exact t.files.ofile t.files [] pipes') (hother : ∀ i, i ≠ np → t.proc i = s.proc i)
    (hrun : (t.proc np).Running) (hpt : (t.proc np).pagetable ≠ none) (hcwd : t.files.cwd np ≠ none)
    (hcwds : ∀ i, i ≠ np → t.files.cwd i = s.files.cwd i) (hofile : ∀ i, i ≠ np → t.files.ofile i = s.files.ofile i) :
    t.Inv Q pipes' := by
  refine .of_settled hmap hfiles fun i => ?_
  by_cases hi : i = np
  · rw [hi]
    exact ⟨fun hu => absurd hu hrun.1, fun _ => hpt, fun _ => hcwd, fun hn => absurd hrun hn⟩
  · exact (h.settled i).congr (hother i hi) (hcwds i hi) (hofile i hi)

-- A free slot was cleared again; memory is as it was but for its contents.
theorem Kernel.Inv.undone (h : s.Inv P pipes) (hmap : t.Mapped P pipes)
    (hnp : (s.proc np).state = .unused) (hundo : s.Undone t np) : t.Inv P pipes := by
  obtain ⟨⟨ram, hfiles, -⟩, hself, hother⟩ := hundo
  refine .of_settled hmap (by rw [hfiles]; exact h.files.of_eq rfl rfl) fun i => ?_
  by_cases hi : i = np
  · rw [hi]
    refine .free hself ?_
    rw [hfiles]
    exact h.closed np fun hrun => hrun.1 hnp
  · exact (h.settled i).congr (hother i hi) (by rw [hfiles]) (by rw [hfiles])

def UserProc.child (q : UserProc) (name : List UInt8) (p : Slot) : UserProc :=
  { q with name := name, parent := some p, state := .runnable }

-- fork once the child np has the memory of the parent, up to its end.
theorem forkEnd_inv (h : s.Inv P pipes) {ram : Ram} {name : List UInt8}
    {pid : Int} (hmap : t.Mapped Q pipes) (hfiles : t.files = { s.files with ram := ram }) (hnp : p ≠ np)
    (hp : (s.proc p).Running) (hunused : (s.proc np).state = .unused)
    (hother : ∀ i, i ≠ np → t.proc i = s.proc i) (hpt : (t.proc np).pagetable ≠ none) :
    wp (do
        ofFiles (forkFiles p np)
        modify (·.setProc np fun q => { q with name := name })
        modify (·.setProc np fun q => { q with parent := some p })
        modify (·.setProc np fun q => { q with state := .runnable })
        return pid) (fun r u => r = pid ∧ u.Next pipes ∧
          u.proc = update t.proc np ((t.proc np).child name p) ∧
          ∀ i, ∀ q ∈ Q i, u.files.ram.mem q = t.files.ram.mem q) ExpectedStop t := by
  have hexact : Files.Exact t.files.ofile t.files [] pipes := by
    rw [hfiles]
    exact h.files.of_eq rfl rfl
  have hcwd : t.files.cwd p ≠ none := by
    rw [hfiles]
    exact h.cwd p hp
  have hclosed : ∀ fd, t.files.ofile np fd = none := by
    rw [hfiles]
    exact h.closed np fun hrun => hrun.1 hunused
  rw [wp_bind]
  refine wp_files_of (Files.forkFiles_done hexact hnp hcwd hclosed) fun _ files hpost => ?_
  obtain ⟨⟨pipes', hfinal, huses⟩, ⟨ip, hip⟩, -, hsame⟩ := hpost
  simp only [wp_bind, wp_modify, wp_pure]
  have hend : (((Kernel.setProc { t with files := files } np fun q => { q with name := name }).setProc np
      fun q => { q with parent := some p }).setProc np fun q => { q with state := .runnable }) =
      { t with files := files, proc := update t.proc np ((t.proc np).child name p) } := by
    simp [Kernel.setProc, UserProc.child]
  rw [hend]
  have hself : update t.proc np ((t.proc np).child name p) np = (t.proc np).child name p :=
    update_self ..
  refine ⟨trivial, ⟨Q, pipes', h.born np ((hmap.files huses).sameProcs fun i => ?_) hfinal (fun i hi => ?_) ?_ ?_ ?_
    (fun i hi => ?_) fun i hi => ?_, .of_uses huses⟩, rfl, fun i => ?_⟩
  · by_cases hi : i = np
    · subst hi
      rw [hself]
      exact ⟨rfl, rfl, rfl⟩
    · rw [update_of_ne hi]
      exact ⟨rfl, rfl, rfl⟩
  · exact (update_of_ne hi _ _).trans (hother i hi)
  · change (update t.proc np _ np).Running
    rw [hself]
    exact ⟨ProcState.noConfusion, ProcState.noConfusion⟩
  · change (update t.proc np _ np).pagetable ≠ none
    rw [hself]
    exact hpt
  · change files.cwd np ≠ none
    rw [hip, update_self]
    exact Option.some_ne_none ip
  · change files.cwd i = s.files.cwd i
    rw [hip, update_of_ne hi, hfiles]
  · change files.ofile i = s.files.ofile i
    rw [hsame i hi, hfiles]
  · exact huses.kept (hmap.divided.owned.congr (pages_split t Q pipes i).symm).left

-- The child's trapframe is written and no other page.
theorem copyTrapframe_spec (src dst : ℕ) (r : Ram) :
    wp (do
        modify fun s => { s with mem := s.mem.memmove dst 0 (s.mem src) TF_SIZE }
        setTrapframe dst TF_A0 0) (fun _ t => ∃ page, t = { r with mem := update r.mem dst page })
      (fun _ => False) r := by
  simp only [wp_bind, wp_modify, setTrapframe, Mem.memmove, Function.update_idem]
  exact ⟨_, rfl⟩

-- np is a process of its own with the memory of p, and the memory of the others is as it was.
structure Kernel.Forked (s t : Kernel) (p np : Slot) : Prop where
  unused : (s.proc np).state = .unused
  runnable : (t.proc np).state = .runnable
  sz : (t.proc np).sz = (s.proc p).sz
  copy : ∀ va, va < TRAPFRAME → t.view np va = s.view p va
  other : ∀ i, i ≠ np → t.proc i = s.proc i
  same : ∀ i, i ≠ np → ∀ va, va < TRAPFRAME → t.view i va = s.view i va

-- A slot that was free may have been cleared; no page is taken or given.
def Kernel.Unforked (s t : Kernel) : Prop := t = s ∨ ∃ np, (s.proc np).state = .unused ∧ s.Undone t np

-- v is the state before the files are shared, u the one after fork.
theorem Kernel.Inv.forked (h : s.Inv P pipes) {u v : Kernel} {own : Multiset ℕ} {old otf pt tf n : ℕ}
    {L N : ℕ → Option ℕ} {name : List UInt8} (hmap : v.Mapped (update P np own) pipes)
    (huses : Uses 0 own s.files.ram v.files.ram) (hunused : (s.proc np).state = .unused) (hnp : p ≠ np)
    (hother : ∀ i, i ≠ np → v.proc i = s.proc i) (hsz : (v.proc np).sz = (s.proc p).sz)
    (hparent : v.Full p (P p) old otf n L) (hchild : v.Full np own pt tf n N) (htwins : Twins v.files.ram.mem L N n)
    (hproc : u.proc = update v.proc np ((v.proc np).child name p))
    (hmem : ∀ i, ∀ q ∈ update P np own i, u.files.ram.mem q = v.files.ram.mem q) : s.Forked u p np := by
  have hkept : ∀ i, i ≠ np → ∀ va, va < TRAPFRAME → v.view i va = s.view i va := by
    intro i hi va hva
    refine h.mapped.view_congr (congrArg UserProc.pagetable (hother i hi)) (huses.kept ?_) hva
    rw [zero_add]
    exact h.mapped.owned i
  have hself : u.proc np = (v.proc np).child name p := by
    rw [hproc, update_self]
  have hrest : ∀ i, i ≠ np → u.proc i = v.proc i := by
    intro i hi
    rw [hproc, update_of_ne hi]
  have hafter : ∀ i, ∀ va, va < TRAPFRAME → u.view i va = v.view i va := by
    intro i va hva
    refine hmap.view_congr ?_ (hmem i) hva
    by_cases hi : i = np
    · rw [hi, hself]
      rfl
    · rw [hrest i hi]
  have hcopy : ∀ va, va < TRAPFRAME → v.view np va = v.view p va := by
    intro va hva
    unfold Kernel.view
    rw [hparent.pagetable, hchild.pagetable]
    exact htwins.view hparent.space hchild.space (trapTop_clear _ _) (trapTop_clear _ _) hva
  refine ⟨hunused, ?_, ?_, fun va hva => ?_, fun i hi => ?_, fun i hi va hva => ?_⟩
  · rw [hself]
    rfl
  · rw [hself]
    exact hsz
  · rw [hafter np va hva, hcopy va hva, hkept p hnp va hva]
  · rw [hrest i hi, hother i hi]
  · rw [hafter i va hva, hkept i hi va hva]

-- fork once allocproc has made the child np, with an empty page table pt; p has the memory L.
structure Kernel.Forking (s t : Kernel) (P : Slot → Multiset ℕ) (pipes : Finset ℕ) (p np : Slot)
    (pt tf old otf n : ℕ) (L : ℕ → Option ℕ) : Prop where
  mapped : t.Mapped (update P np ({tf} + t.files.ram.mem.tables 2 pt)) pipes
  unused : (s.proc np).state = .unused
  ne : p ≠ np
  child : (t.proc np).pagetable = some pt ∧ (t.proc np).trapframe = some tf ∧ (t.proc np).sz = 0
  empty : Space t.files.ram.mem pt (trapTop t.trampoline tf) 0 (trapTop t.trampoline tf)
  parent : t.Full p (P p) old otf n L
  files : t.files = { s.files with ram := t.files.ram }
  uses : Uses 0 ({tf} + t.files.ram.mem.tables 2 pt) s.files.ram t.files.ram
  other : ∀ i, i ≠ np → t.proc i = s.proc i

theorem Kernel.Made.forking {own : Multiset ℕ} (hmade : s.Made t own np) (hmap : t.Mapped (update P np own) pipes)
    (h : s.Inv P pipes) (hp : (s.proc p).Running) :
    ∃ pt tf old otf n L, s.Forking t P pipes p np pt tf old otf n L := by
  obtain ⟨hunused, htramp, ⟨ram, hfiles, huses⟩, ⟨tf, pt, hself, hmaps, rfl⟩, hother⟩ := hmade
  have hnp : p ≠ np := by
    rintro rfl
    exact hp.1 hunused
  have hptp : (t.proc p).pagetable ≠ none := by
    rw [hother p hnp]
    exact h.live p hp.1
  obtain ⟨old, otf, n, L, hfull⟩ := hmap.full hptp
  rw [update_of_ne hnp] at hfull
  rw [← htramp] at hmaps
  have hsz : (t.proc np).sz = 0 := (congrArg UserProc.sz hself).trans (h.vacant np hunused).2.2
  refine ⟨pt, tf, old, otf, n, L, hmap, hunused, hnp, ⟨congrArg UserProc.pagetable hself,
    congrArg UserProc.trapframe hself, hsz⟩, hmaps.space_zero, hfull, by rw [hfiles], ?_, hother⟩
  rw [hfiles] at huses ⊢
  exact huses

namespace Kernel.Forking

variable {pt tf old otf n : ℕ} {L N : ℕ → Option ℕ} {ram : Ram} (hf : s.Forking t P pipes p np pt tf old otf n L)

include hf

theorem owned : t.files.ram.Owned ({tf} + t.files.ram.mem.tables 2 pt + P p) := by
  have htwo := hf.mapped.owned_two hf.ne
  rwa [update_self, update_of_ne hf.ne] at htwo

theorem tables_owned : t.files.ram.Owned (t.files.ram.mem.tables 2 pt + P p) :=
  hf.owned.mono (add_le_add (Multiset.le_add_left _ _) le_rfl)

theorem space_le : t.files.ram.space old L n ≤ P p := by
  rw [hf.parent.own]
  exact Multiset.le_add_left _ _

theorem files_withRam (ram : Ram) : (t.withRam ram).files = { s.files with ram := ram } := by
  rw [withRam, hf.files]

theorem grown {A : Multiset ℕ} (huses : Uses (t.files.ram.mem.tables 2 pt) A t.files.ram ram) :
    Uses 0 ({tf} + A) s.files.ram ram :=
  hf.uses.trans ((huses.frame {tf}).congr (add_comm _ _) (add_comm _ _))

-- uvmcopy has failed: the child is freed, and all is as before.
theorem failed (h : s.Inv P pipes)
    (hspace : Space ram.mem pt (trapTop t.trampoline tf) 0 (trapTop t.trampoline tf))
    (huses : Uses (t.files.ram.mem.tables 2 pt) (ram.mem.tables 2 pt) t.files.ram ram) :
    wp (freeproc np) (fun _ u => u.Inv P pipes ∧ s.Undone u np) err (t.withRam ram) := by
  have hfits : Fits (t.proc np).sz 0 := by
    rw [hf.child.2.2]
    exact ⟨Nat.zero_le _, by decide⟩
  have huses' := huses.congr rfl (ram.space_zero pt (trapTop t.trampoline tf))
  have hmap := hf.mapped.setSpace hf.child.1 hf.child.2.1 (update_self ..) hspace hfits huses'
  rw [setProc_sz_self, Function.update_idem] at hmap
  obtain ⟨hpt, htf, -⟩ := h.vacant np hf.unused
  have hzero : P np = 0 := (h.mapped.has np).eq_zero hpt htf
  refine wp_post (freeproc_spec hmap) fun _ u hpost => ?_
  obtain ⟨ram', rfl, hfreed, hmap'⟩ := hpost
  rw [Function.update_idem, ← hzero, Function.update_eq_self] at hmap'
  rw [update_self] at hfreed
  have hundo : s.Undone ((t.withRam ram').setProc np fun _ => UserProc.free) np := by
    refine ⟨⟨ram', hf.files_withRam ram', (hf.grown huses').trans hfreed⟩, setProc_self .., fun i hi => ?_⟩
    rw [setProc_other _ _ hi]
    exact hf.other i hi
  exact ⟨h.undone hmap' hf.unused hundo, hundo⟩

-- uvmcopy has succeeded, and u is the state after fork.
theorem forked (h : s.Inv P pipes) (htwins : Twins ram.mem L N n)
    (hspace : Space ram.mem pt N n (trapTop t.trampoline tf))
    (huses : Uses (t.files.ram.mem.tables 2 pt) (ram.space pt N n) t.files.ram ram) {page : Page} {u v : Kernel}
    (hv : v = (t.withRam { ram with mem := update ram.mem tf page }).setProc np fun q => { q with sz := (t.proc p).sz })
    (hmap : v.Mapped (update P np ({tf} + ram.space pt N n)) pipes) {name : List UInt8}
    (hproc : u.proc = update v.proc np ((v.proc np).child name p))
    (hmem : ∀ i, ∀ q ∈ update P np ({tf} + ram.space pt N n) i, u.files.ram.mem q = v.files.ram.mem q) :
    s.Forked u p np := by
  subst hv
  -- Neither address space has the trapframe of the child.
  have hall : ram.Owned ({tf} + (ram.space pt N n + P p)) :=
    ((huses.frame ({tf} + P p)).owned (hf.owned.congr (by ac_rfl))).congr (by ac_rfl)
  have hwrite := (Uses.write ram (Multiset.mem_singleton_self tf) page).kept hall
  have hchild : ∀ q ∈ ram.space pt N n, update ram.mem tf page q = ram.mem q := fun q hq =>
    hwrite q (Multiset.mem_add.mpr (.inl hq))
  have hparent : ∀ q ∈ P p, update ram.mem tf page q = ram.mem q := fun q hq =>
    hwrite q (Multiset.mem_add.mpr (.inr hq))
  have htables : ∀ q ∈ ram.mem.tables 2 pt, update ram.mem tf page q = ram.mem q := fun q hq =>
    hchild q (Multiset.mem_add.mpr (.inl hq))
  have hspaces := (hf.grown huses).trans
    (Uses.write ram (Multiset.mem_add.mpr (.inl (Multiset.mem_singleton_self tf))) page)
  refine h.forked hmap hspaces hf.unused hf.ne (fun i hi => ?_) ?_
    (hf.parent.congr (setProc_other _ _ hf.ne) rfl fun q hq => ?_) ⟨?_, ?_, hspace.congr htables, ?_, ?_⟩
    (htwins.congr le_rfl (fun q hq => hparent q ?_) fun q hq => hchild q ?_) hproc hmem
  · exact (setProc_other _ _ hi).trans (hf.other i hi)
  · rw [setProc_self, ← hf.other p hf.ne]
  · exact (hparent q hq).trans (huses.kept hf.tables_owned q hq)
  · rw [setProc_self]
    exact hf.child.1
  · rw [setProc_self]
    exact hf.child.2.1
  · rw [setProc_self]
    exact hf.parent.fits
  · change {tf} + ram.space pt N n = {tf} + Ram.space { ram with mem := update ram.mem tf page } pt N n
    rw [Ram.space_congr (s := ram) (t := { ram with mem := update ram.mem tf page }) htables]
  · exact Multiset.mem_of_le hf.space_le (Multiset.mem_add.mpr (.inr hq))
  · exact Multiset.mem_add.mpr (.inr hq)

end Kernel.Forking

theorem fork_spec (h : s.Inv P pipes) (hp : (s.proc p).Running) :
    wp (fork p) (fun r t => t.Next pipes ∧
      ((r = -1 ∧ s.Unforked t) ∨ ∃ np, s.Forked t p np ∧ r = (t.proc np).pid)) ExpectedStop s := by
  unfold fork
  rw [wp_bind]
  refine wp_post (allocproc_spec h.mapped h.vacant) fun r t hpost => ?_
  obtain ⟨-, hpost⟩ := hpost
  cases r with
  | none =>
      obtain ⟨hmap, rfl | ⟨np, hnp, hundo⟩⟩ := hpost
      · exact ⟨h.next, .inl ⟨rfl, .inl rfl⟩⟩
      · exact ⟨(h.undone hmap hnp hundo).next, .inl ⟨rfl, .inr ⟨np, hnp, hundo⟩⟩⟩
  | some np =>
      obtain ⟨own, hmap, hmade⟩ := hpost
      obtain ⟨pt, tf, old, otf, n, L, hf⟩ := hmade.forking hmap h hp
      obtain ⟨hpt, htf, -⟩ := hf.child
      simp only [wp_bind, wp_get, hf.parent.pagetable, hpt, hf.parent.trapframe, htf, wp_pointer]
      have hn := le_trapframe (hf.parent.owned hf.owned.right).right
      refine wp_ram_of (uvmcopy_spec hf.parent.space hf.parent.fits hf.empty (trapTop_clear _ _) hn hf.tables_owned
        hf.space_le) fun r ram hram => ?_
      rcases hram with ⟨rfl, N, htwins, hspace, huses⟩ | ⟨rfl, hspace, huses⟩
      · rw [if_neg (by decide), wp_bind, wp_modify, wp_bind]
        refine wp_ram_of (copyTrapframe_spec otf tf ram) fun _ ram' hram' => ?_
        obtain ⟨page, rfl⟩ := hram'
        have hmap' := hf.mapped.newSpace hpt htf (update_self ..) hspace hf.parent.fits huses page
        rw [Function.update_idem] at hmap'
        refine wp_post (forkEnd_inv h hmap' (hf.files_withRam _) hf.ne hp hf.unused (fun i hi => ?_) ?_)
          fun r u hpost => ?_
        · rw [setProc_other _ _ hi]
          exact hf.other i hi
        · rw [setProc_self]
          change (t.proc np).pagetable ≠ none
          rw [hpt]
          exact Option.some_ne_none pt
        obtain ⟨rfl, hnext, hproc, hmem⟩ := hpost
        refine ⟨hnext, .inr ⟨np, hf.forked h htwins hspace huses rfl hmap' hproc hmem, ?_⟩⟩
        rw [hproc, update_self, UserProc.child, setProc_self]
      · rw [if_pos (by decide), wp_bind]
        refine wp_post (hf.failed h hspace huses) fun _ u hu => ?_
        exact ⟨hu.1.next, .inl ⟨rfl, .inr ⟨np, hf.unused, hu.2⟩⟩⟩

end Xv6
