import Xv6.File.Theorems
import Xv6.Kernel.Runs

namespace Xv6

open Wp FilesM KernelM Ram Kernel

variable {r : Ram} {L : ℕ → Option ℕ} {n v trampoline tf : ℕ} {P : Slot → Multiset ℕ} {s : Kernel} {pipes : Finset ℕ}
    {pi : ℕ}

-- The pages of user memory are pages of RAM above the kernel's base.
theorem Ram.Owned.frames_le_ram (ho : r.Owned (frames L 0 n))
    (hkend : KERNBASE ≤ r.kend) : n ≤ (PHYSTOP - KERNBASE) / PGSIZE := by
  have hsub : frames L 0 n ≤ (Finset.Ico (KERNBASE / PGSIZE) (PHYSTOP / PGSIZE)).val := by
    rw [Multiset.le_iff_subset ho.nodup]
    intro q hq
    obtain ⟨hlow, hhigh⟩ := ho.inRam hq
    have hbase : KERNBASE = KERNBASE / PGSIZE * PGSIZE := by decide
    have hstop : PHYSTOP = PHYSTOP / PGSIZE * PGSIZE := by decide
    refine Finset.mem_val.mpr (Finset.mem_Ico.mpr ⟨?_, ?_⟩)
    · refine Nat.le_of_mul_le_mul_right (c := PGSIZE) ?_ (by decide)
      rw [← hbase]
      exact hkend.trans hlow
    · rw [hstop] at hhigh
      exact Nat.lt_of_mul_lt_mul_right hhigh
  have hcard := Multiset.card_le_card hsub
  have hsize : PHYSTOP / PGSIZE - KERNBASE / PGSIZE = (PHYSTOP - KERNBASE) / PGSIZE := by decide
  rw [card_frames, Finset.card_val, Nat.card_Ico, hsize] at hcard
  exact hcard

-- A page table pt of a process of sz bytes with the trapframe tf: the valid PTEs above
-- the last level point to tables, and those of the last level are leaves, one for each
-- page of [0, PGROUNDUP(sz)), one for TRAPFRAME and one for TRAMPOLINE.
structure Shaped (mem : Mem) (trampoline pt tf sz : ℕ) : Prop where
  dirs : mem.Dirs 2 pt
  pages : ∀ v < 2 ^ 27, mem.entry 2 pt (v * PGSIZE) ≠ none ↔
    v < pgRoundUp sz / PGSIZE ∨ v = TRAPFRAME / PGSIZE ∨ v = TRAMPOLINE / PGSIZE
  leaves : ∀ v < 2 ^ 27, ∀ pte, mem.entry 2 pt (v * PGSIZE) = some pte → pteFlags pte ≠ PTE_V
  trapframe : ∃ pte, mem.entry 2 pt TRAPFRAME = some pte ∧ pte2pa pte = tf ∧ hasFlag pte PTE_U = false
  trampoline : ∃ pte, mem.entry 2 pt TRAMPOLINE = some pte ∧ pte2pa pte = trampoline ∧ hasFlag pte PTE_U = false

theorem Maps.entry_page {mem : Mem} {pt : ℕ} (h : Maps mem pt L) (hv : v < 2 ^ 27) :
    mem.entry 2 pt (v * PGSIZE) = L v := by
  have hsize : PGSIZE = 2 ^ 12 := rfl
  have hva : v * PGSIZE < 2 ^ 39 := by
    rw [hsize]
    omega
  rw [h.entry _ hva, Nat.mul_div_cancel v (by decide)]

theorem trapTop_ne_none :
    trapTop trampoline tf v ≠ none ↔ v = TRAPFRAME / PGSIZE ∨ v = TRAMPOLINE / PGSIZE := by
  simp only [trapTop, Function.update_apply]
  split_ifs <;> simp_all

theorem trapTop_leaf {pte : ℕ} (h : trapTop trampoline tf v = some pte) : pteFlags pte ≠ PTE_V := by
  simp only [trapTop, Function.update_apply] at h
  split_ifs at h
  · cases h
    exact trapframePte_leaf tf
  · cases h
    exact trampolinePte_leaf trampoline

theorem Space.shaped {pt sz : ℕ}
    (h : Space r.mem pt L n (trapTop trampoline tf)) (hfits : Fits sz n) (ho : r.Owned (r.space pt L n)) :
    Shaped r.mem trampoline pt tf sz := by
  have hn := lt_maxva_of_le ho.right.frames_le
  have hround : pgRoundUp sz / PGSIZE = n := by
    rw [hfits.roundUp (lt_trans (mul_lt_maxva hn) (by decide)), Nat.mul_div_cancel n (by decide)]
  have hentry : ∀ v < 2 ^ 27, r.mem.entry 2 pt (v * PGSIZE) = L v := fun v hv => h.maps.entry_page hv
  have hlt : TRAPFRAME / PGSIZE < TRAMPOLINE / PGSIZE := by decide
  refine ⟨h.maps.dirs, fun v hv => ?_, fun v hv pte hpte => ?_, ?_, ?_⟩
  · rw [hentry v hv, hround]
    by_cases hvn : v < n
    · obtain ⟨pte, hpte, -⟩ := h.user v hvn
      simp [hpte, hvn]
    · rw [h.above v (by omega), trapTop_ne_none]
      simp [hvn]
  · rw [hentry v hv] at hpte
    by_cases hvn : v < n
    · obtain ⟨pte', hpte', hread⟩ := h.user v hvn
      obtain rfl : pte' = pte := Option.some.inj (hpte'.symm.trans hpte)
      exact pteFlags_ne_of_readable hread
    · rw [h.above v (by omega)] at hpte
      exact trapTop_leaf hpte
  · refine ⟨trapframePte tf, ?_, pte2pa_or tf (by decide), ?_⟩
    · rw [trapframe_eq, hentry _ (by decide), h.above _ hn.le, trapTop, Function.update_self]
    · rw [trapframePte, hasFlag_mkPte _ _ (by decide)]
      decide
  · refine ⟨trampolinePte trampoline, ?_, pte2pa_or trampoline (by decide), ?_⟩
    · rw [trampoline_eq, hentry _ (by decide), h.above _ (by omega), trapTop, Function.update_of_ne (by omega),
        Function.update_self]
    · rw [trampolinePte, hasFlag_mkPte _ _ (by decide)]
      decide

theorem Ram.Divided.of_list {P : Multiset ℕ} {pages : List ℕ} (h : ↑r.freelist + P = (↑pages : Multiset ℕ))
    (hnodup : pages.Nodup) (hram : ∀ q, InRam r.kend q ↔ q ∈ pages) : r.Divided P := by
  refine ⟨⟨?_, fun q hq => ?_⟩, fun q hq => ?_⟩
  · change (↑r.freelist + P).Nodup
    rw [h]
    exact Multiset.coe_nodup.mpr hnodup
  · change q ∈ ↑r.freelist + P at hq
    rw [h] at hq
    exact (hram q).mpr hq
  · rw [h]
    exact (hram q).mp hq

-- A machine with 77 pages of RAM, of which the kernel leaves nine.
def smallKernel : Kernel where
  files := Files.start ⟨fun _ _ => 0, PHYSTOP - 77 * PGSIZE, List.range' 556979 9, []⟩ mkfs
  proc _ := UserProc.free
  nextpid := 1
  initproc := Sched.first
  trampoline := KERNBASE / PGSIZE
  kernelPagetable := 556988
  kstack p := 556989 + p.val
  disk i := 557053 + i.val

theorem smallKernel_pages : (↑smallKernel.files.ram.freelist : Multiset ℕ) + smallKernel.fixed =
    ↑(List.range' 556979 77) := by
  have hzero : ∀ i < 512, smallKernel.files.ram.mem.pte 556988 i = 0 := by
    intro i _
    have hsame : smallKernel.files.ram.mem.memset 556988 0 = smallKernel.files.ram.mem :=
      Function.update_eq_self_iff.mpr rfl
    rw [← hsame, Mem.pte_memset_zero]
  have htables := Mem.tables_of_zero hzero 2
  rw [fixed, show smallKernel.kernelPagetable = 556988 from rfl, htables]
  decide +kernel

theorem smallKernel_inRam (q : ℕ) : InRam smallKernel.files.ram.kend q ↔ q ∈ List.range' 556979 77 := by
  have hkend : smallKernel.files.ram.kend = 556979 * 4096 := by decide
  have hstop : PHYSTOP = 557056 * 4096 := by decide
  rw [InRam, hkend, hstop, show PGSIZE = 4096 from rfl, List.mem_range'_1]
  omega

theorem smallKernel_booted : smallKernel.Booted where
  procs _ := rfl
  closed _ := ⟨rfl, rfl⟩
  ofile _ _ := rfl
  divided := .of_list smallKernel_pages List.nodup_range' smallKernel_inRam
  trampoline := by decide
  kend := by decide
  plenty := ⟨rfl, by decide⟩

-- A call that cannot go on: the panics of vm.c, of kalloc.c and of loadseg, and a null pointer.
def MemoryStop (e : KernelStop) : Prop :=
  (∃ why, e = .file (.ram why)) ∨ e = .loadseg ∨ e = .loadsegLoop ∨ e = .file .null

theorem ExpectedStop.not_memory {e : KernelStop} (h : ExpectedStop e) : ¬MemoryStop e := by
  rintro (⟨why, rfl⟩ | rfl | rfl | rfl) <;> rcases h with ⟨_, h⟩ | h <;> cases h

-- A call that is made in a reachable state stops for the reasons that are left only.
theorem Kernel.Reachable.expected (h : s.Reachable) {p : Slot} (hp : (s.proc p).Running)
    {call : KernelCall} {fail : List Bool} {e : KernelStop}
    (hrun : call.run p (s.withRam { s.files.ram with fail := fail }) = .error e) : ExpectedStop e := by
  obtain ⟨P, pipes, hinv⟩ := h.inv
  have hfail : Untouched s (s.withRam { s.files.ram with fail := fail }) := ⟨rfl, ⟨rfl, fun _ _ => rfl⟩, rfl⟩
  exact (wp_of_error hrun).mp (KernelCall.run_next (hinv.untouched hfail) hp call)

theorem Kernel.Inv.sz_le (h : s.Inv P pipes) {p : Slot}
    (hp : (s.proc p).state ≠ .unused) : (s.proc p).sz ≤ PHYSTOP - KERNBASE := by
  obtain ⟨pt, tf, n, L, hfull⟩ := h.full hp
  have hn := (hfull.owned (h.mapped.owned p)).right.frames_le_ram h.mapped.kend
  calc (s.proc p).sz ≤ n * PGSIZE := hfull.fits.1
    _ ≤ (PHYSTOP - KERNBASE) / PGSIZE * PGSIZE := Nat.mul_le_mul_right _ hn
    _ = PHYSTOP - KERNBASE := by decide

-- Every process has the address space that p->sz says.
theorem address_spaces (h : s.Reachable) :
    (∀ p, (s.proc p).state ≠ .unused → ∃ pt tf, (s.proc p).pagetable = some pt ∧ (s.proc p).trapframe = some tf ∧
      Shaped s.files.ram.mem s.trampoline pt tf (s.proc p).sz ∧ (s.proc p).sz ≤ PHYSTOP - KERNBASE) ∧
    ∀ p (call : KernelCall) fail e, (s.proc p).Running →
      call.run p (s.withRam { s.files.ram with fail := fail }) = .error e → ¬MemoryStop e := by
  obtain ⟨P, pipes, hinv⟩ := h.inv
  refine ⟨fun p hp => ?_, fun p call fail e hp hrun => (h.expected hp hrun).not_memory⟩
  obtain ⟨pt, tf, n, L, hfull⟩ := hinv.full hp
  have ho := hfull.owned (hinv.mapped.owned p)
  exact ⟨pt, tf, hfull.pagetable, hfull.trapframe, hfull.space.shaped hfull.fits ho, hinv.sz_le hp⟩

theorem address_spaces_first : ∃ s : Kernel, s.Reachable ∧ (s.proc s.initproc).sz = PGSIZE ∧
    ∃ pt tf, (s.proc s.initproc).pagetable = some pt ∧ (s.proc s.initproc).trapframe = some tf ∧
      Shaped s.files.ram.mem s.trampoline pt tf (s.proc s.initproc).sz := by
  have hrun : decide (wp Kernel.userinit (fun _ s => (s.proc s.initproc).sz = PGSIZE ∧
      (s.proc s.initproc).state ≠ .unused) (fun _ => False) smallKernel) := by
    decide +kernel
  obtain ⟨_, s, hs, hsz, hstate⟩ := exists_of_decide_wp hrun
  have hreach : s.Reachable := .boot smallKernel_booted hs
  obtain ⟨pt, tf, hpt, htf, hshaped, -⟩ := (address_spaces hreach).1 s.initproc hstate
  exact ⟨s, hreach, hsz, pt, tf, hpt, htf, hshaped⟩

def Kernel.OpenPipe (s : Kernel) (pi : ℕ) : Prop :=
  ∃ f, 0 < (s.files.ftable f).ref ∧ (s.files.ftable f).kind = .pipe pi

theorem Kernel.Inv.kind_pipe (h : s.Inv P pipes) {f : Fd} :
    (s.files.ftable f).kind = .pipe pi ↔ 0 < (s.files.ftable f).ref ∧ (s.files.ftable f).kind = .pipe pi := by
  refine ⟨fun hkind => ⟨Nat.pos_of_ne_zero fun hzero => ?_, hkind⟩, fun hkind => hkind.2⟩
  rw [h.files.counts.idle f hzero] at hkind
  cases hkind

theorem Kernel.Inv.mem_pipes (h : s.Inv P pipes) :
    pi ∈ pipes ↔ s.OpenPipe pi := by
  constructor
  · intro hpi
    obtain ⟨f, hf⟩ := h.files.ends.exists_file hpi
    exact ⟨f, h.kind_pipe.mp hf⟩
  · rintro ⟨f, -, hf⟩
    exact h.files.ends.mem hf

theorem Kernel.Inv.pipe_open (h : s.Inv P pipes)
    (hopen : s.OpenPipe pi) (w : Bool) : (s.files.pipe pi).opened w = true ↔
      ∃ f, 0 < (s.files.ftable f).ref ∧ (s.files.ftable f).kind = .pipe pi ∧ (s.files.ftable f).writable = w := by
  rw [h.files.ends.opened (h.mem_pipes.mpr hopen) w]
  refine exists_congr fun f => ?_
  rw [← and_assoc, ← h.kind_pipe]

-- f->ref counts the descriptors of f, and a pipe goes with the last file of its ends.
theorem open_files (h : s.Reachable) :
    (∀ f, (s.files.ftable f).ref =
      (Finset.univ.filter fun a : Slot × Fin NOFILE => s.files.ofile a.1 a.2 = some f).card) ∧
    (∀ f, (s.files.ftable f).ref = 0 → (s.files.ftable f).kind = .none) ∧
    (∀ p (call : KernelCall) fail e, (s.proc p).Running →
      call.run p (s.withRam { s.files.ram with fail := fail }) = .error e →
        e ≠ .file .filedup ∧ e ≠ .file .fileclose) ∧
    (∀ pi, s.OpenPipe pi → pi ∉ s.files.ram.freelist ∧
      ((s.files.pipe pi).readopen = true ↔ ∃ f, 0 < (s.files.ftable f).ref ∧
        (s.files.ftable f).kind = .pipe pi ∧ (s.files.ftable f).writable = false) ∧
      ((s.files.pipe pi).writeopen = true ↔ ∃ f, 0 < (s.files.ftable f).ref ∧
        (s.files.ftable f).kind = .pipe pi ∧ (s.files.ftable f).writable = true)) ∧
    ∀ t pi, KernelStep s t → s.OpenPipe pi → ¬t.OpenPipe pi → t.files.ram.freelist.count pi = 1 := by
  obtain ⟨P, pipes, hinv⟩ := h.inv
  refine ⟨fun f => ?_, hinv.files.counts.idle, fun p call fail e hp hrun => ?_,
    fun pi hopen => ⟨fun hfree => ?_, ?_, ?_⟩,
    fun t pi hstep hopen hclosed => ?_⟩
  · have hcount := hinv.files.counts.files f
    rw [List.count_nil, add_zero] at hcount
    rw [← hcount, Finset.card_filter]
    rfl
  · rcases h.expected hp hrun with ⟨why, rfl⟩ | rfl
    · exact ⟨by simp, by simp⟩
    · exact ⟨by simp, by simp⟩
  · exact Pages.Owned.notMem_free hinv.pipesOwned (hinv.mem_pipes.mpr hopen) hfree
  · exact hinv.pipe_open hopen false
  · exact hinv.pipe_open hopen true
  · obtain ⟨Q, pipes', hinv', hreleased⟩ := hstep.next hinv
    have hfree := hreleased pi (hinv.mem_pipes.mpr hopen) (mt hinv'.mem_pipes.mp hclosed)
    refine List.count_eq_one_of_mem ?_ hfree
    have hnodup : ((↑t.files.ram.freelist : Multiset ℕ) + t.pages Q pipes').Nodup :=
      Pages.Owned.nodup hinv'.mapped.divided.owned
    exact Multiset.coe_nodup.mp (Multiset.nodup_of_le (Multiset.le_add_right _ _) hnodup)

instance (s : Kernel) (pi : ℕ) : Decidable (s.OpenPipe pi) := by
  unfold Kernel.OpenPipe
  infer_instance

instance (q : UserProc) : Decidable q.Running := by
  unfold UserProc.Running
  infer_instance

-- A pipe is made and both its ends are closed again.
theorem open_files_pipe : ∃ s t : Kernel, s.Reachable ∧ KernelStep s t ∧ s.OpenPipe 556986 ∧ ¬t.OpenPipe 556986 ∧
    t.files.ram.freelist.count 556986 = 1 := by
  have hrun : decide (wp Kernel.userinit (fun _ s => (s.proc Sched.first).Running ∧
      wp ((KernelCall.pipe 0).run Sched.first) (fun _ s => (s.proc Sched.first).Running ∧
        wp ((KernelCall.close 0).run Sched.first) (fun _ s => (s.proc Sched.first).Running ∧ s.OpenPipe 556986 ∧
          wp ((KernelCall.close 1).run Sched.first) (fun _ t => ¬t.OpenPipe 556986) (fun _ => False) s)
        (fun _ => False) s) (fun _ => False) s) (fun _ => False) smallKernel) := by
    decide +kernel
  obtain ⟨_, s₁, h₁, hp₁, hrun⟩ := exists_of_decide_wp hrun
  obtain ⟨s₂, h₂, hp₂, hrun⟩ := KernelStep.exists_of_wp hp₁ hrun
  obtain ⟨s₃, h₃, hp₃, hopen, hrun⟩ := KernelStep.exists_of_wp hp₂ hrun
  obtain ⟨s₄, h₄, hclosed⟩ := KernelStep.exists_of_wp hp₃ hrun
  have hreach : s₃.Reachable := .step (.step (.boot smallKernel_booted h₁) h₂) h₃
  have hfree := (open_files hreach).2.2.2.2 s₄ 556986 h₄ hopen hclosed
  exact ⟨s₃, s₄, hreach, h₄, hopen, hclosed, hfree⟩

-- The pages of a process: those of its page table, its user memory and its trapframe.
def UserProc.tablePages (mem : Mem) (q : UserProc) : Multiset ℕ := q.pagetable.elim 0 (mem.tables 2)

-- What a page table maps at page v, the trapframe and the trampoline apart.
def Mem.userPage (mem : Mem) (pagetable v : ℕ) : Option ℕ :=
  if v = TRAPFRAME / PGSIZE ∨ v = TRAMPOLINE / PGSIZE then none
  else (mem.entry 2 pagetable (v * PGSIZE)).map pte2pa

def UserProc.userPages (mem : Mem) (q : UserProc) : Multiset ℕ :=
  q.pagetable.elim 0 fun pagetable => (Multiset.range (2 ^ 27)).filterMap (mem.userPage pagetable)

def UserProc.trapPages (q : UserProc) : Multiset ℕ := q.trapframe.elim 0 ({·})

def Files.pipePages (s : Files) : Finset ℕ :=
  Finset.univ.biUnion fun f => match (s.ftable f).kind with
    | .pipe pi => {pi}
    | _ => ∅

def Kernel.places (s : Kernel) : Multiset ℕ :=
  ↑s.files.ram.freelist +
    (∑ p, ((s.proc p).tablePages s.files.ram.mem + (s.proc p).userPages s.files.ram.mem + (s.proc p).trapPages) +
      (s.files.pipePages.val + (s.files.ram.mem.tables 2 s.kernelPagetable +
        (Finset.univ.val.map s.kstack + Finset.univ.val.map s.disk))))

theorem filterMap_range {α : Type} {f : ℕ → Option α} {g : ℕ → α} {N : ℕ} (hle : n ≤ N)
    (hsome : ∀ v < n, f v = some (g v)) (hnone : ∀ v, n ≤ v → v < N → f v = none) :
    (Multiset.range N).filterMap f = (Multiset.range n).map g := by
  induction N, hle using Nat.le_induction with
  | base =>
      clear hnone
      induction n with
      | zero => rfl
      | succ n ih =>
          rw [Multiset.range_succ, Multiset.filterMap_cons_some f n _ (hsome n (by omega)), Multiset.map_cons,
            ih fun v hv => hsome v (by omega)]
  | succ N hle ih =>
      rw [Multiset.range_succ, Multiset.filterMap_cons_none _ _ (hnone N hle (by omega))]
      exact ih fun v hv hN => hnone v hv (by omega)

theorem UserProc.Has.pages {q : UserProc} {own : Multiset ℕ} (h : q.Has r.mem trampoline own) (ho : r.Owned own) :
    q.tablePages r.mem + q.userPages r.mem + q.trapPages = own := by
  cases h with
  | bare hpt htf => simp only [tablePages, userPages, trapPages, hpt, htf, Option.elim_none, add_zero]
  | trap hpt htf =>
      simp only [tablePages, userPages, trapPages, hpt, htf, Option.elim_none, Option.elim_some, zero_add]
  | @full pt tf n L hpt htf hspace hfits =>
      have hn := lt_maxva_of_le ho.right.right.frames_le
      have hentry : ∀ v < 2 ^ 27, r.mem.entry 2 pt (v * PGSIZE) = L v := fun v hv => hspace.maps.entry_page hv
      have huser : (Multiset.range (2 ^ 27)).filterMap (r.mem.userPage pt) = frames L 0 n := by
        have hlast : TRAPFRAME / PGSIZE < TRAMPOLINE / PGSIZE ∧ TRAMPOLINE / PGSIZE < 2 ^ 27 := by decide
        rw [filterMap_range (n := n) (g := fun v => pte2pa ((L v).getD 0)) (by omega), frames,
          ← List.range_eq_range']
        · rfl
        · intro v hv
          obtain ⟨pte, hpte, -⟩ := hspace.user v hv
          rw [Mem.userPage, if_neg (by omega), hentry v (by omega), hpte]
          rfl
        · intro v hv hlt
          rw [Mem.userPage]
          split
          · rfl
          · rename_i hnot
            rw [hentry v hlt, hspace.above v hv, not_not.mp (mt trapTop_ne_none.mp hnot)]
            rfl
      simp only [tablePages, userPages, trapPages, hpt, htf, Option.elim_some, huser]
      ac_rfl

theorem Files.mem_pipePages {s : Files} : pi ∈ s.pipePages ↔ ∃ f, (s.ftable f).kind = .pipe pi := by
  simp only [pipePages, Finset.mem_biUnion, Finset.mem_univ, true_and]
  refine exists_congr fun f => ?_
  cases (s.ftable f).kind with
  | pipe pi' => simp [eq_comm]
  | _ => simp

theorem Kernel.Inv.places_eq (h : s.Inv P pipes) :
    s.places = ↑s.files.ram.freelist + s.pages P pipes := by
  have hpipes : s.files.pipePages = pipes := by
    ext pi
    rw [Files.mem_pipePages]
    exact ⟨fun ⟨_, hf⟩ => h.files.ends.mem hf, h.files.ends.exists_file⟩
  rw [places, pages, fixed, hpipes]
  refine congrArg (_ + ·) (congrArg (· + _) (Finset.sum_congr rfl fun p _ => ?_))
  exact (h.mapped.has p).pages (h.mapped.owned p)

-- Every page is free or in use, and in one place only.
theorem page_partition (h : s.Reachable) :
    (∀ q, s.places.count q = if InRam s.files.ram.kend q then 1 else 0) ∧
    ∀ p (call : KernelCall) fail e, (s.proc p).Running →
      call.run p (s.withRam { s.files.ram with fail := fail }) = .error e → ¬MemoryStop e := by
  obtain ⟨P, pipes, hinv⟩ := h.inv
  refine ⟨fun q => ?_, fun p call fail e hp hrun => (h.expected hp hrun).not_memory⟩
  rw [hinv.places_eq]
  have hdivided := hinv.mapped.divided
  split
  · rename_i hin
    exact Multiset.count_eq_one_of_mem (Pages.Owned.nodup hdivided.owned) (hdivided.all q hin)
  · rename_i hout
    exact Multiset.count_eq_zero.mpr fun hmem => hout (hdivided.owned.pool q hmem)

-- The page table of the first process is in one place.
theorem page_partition_table : ∃ s : Kernel, s.Reachable ∧ (s.proc s.initproc).pagetable = some 556980 ∧
    s.places.count 556980 = 1 := by
  have hrun : decide (wp Kernel.userinit (fun _ s => (s.proc s.initproc).pagetable = some 556980 ∧
      InRam s.files.ram.kend 556980) (fun _ => False) smallKernel) := by
    decide +kernel
  obtain ⟨_, s, hs, hpt, hin⟩ := exists_of_decide_wp hrun
  have hreach : s.Reachable := .boot smallKernel_booted hs
  have hcount := (page_partition hreach).1 556980
  rw [if_pos hin] at hcount
  exact ⟨s, hreach, hpt, hcount⟩

end Xv6
