import Xv6.Exec.Stack

namespace Xv6

open Wp FilesM KernelM Ram Kernel

variable {s t : Kernel} {pt tf n sz : ℕ} {L : ℕ → Option ℕ}

variable {u : Kernel} {p : Slot} {path : List UInt8} {argv : List (List UInt8)} {own : Multiset ℕ} {old : ℕ}

section Stack

variable {r : Ram}

-- The trapframe tf is written, and then the old address space is freed. u is memory
-- with the new one, since r.
theorem freeOld_spec {u : Ram} {old size m trampoline : ℕ} {N : ℕ → Option ℕ} (page : Page)
    (hold : Space r.mem old L n (trapTop trampoline tf)) (hfits : Fits size n)
    (hown : r.Owned ({tf} + r.space old L n)) (huses : Uses 0 (u.space pt N m) r u) :
    wp (procFreepagetable old size) (fun _ w => (∀ q ∈ u.space pt N m, w.mem q = u.mem q) ∧ w.mem tf = page ∧
      Uses ({tf} + r.space old L n) ({tf} + w.space pt N m) r w ∧ r.space old L n ≤ ↑w.freelist)
      (fun _ => False) { u with mem := Function.update u.mem tf page } := by
  have hown₁ : u.Owned ({tf} + (r.space old L n + u.space pt N m)) := by
    refine ((huses.frame ({tf} + r.space old L n)).owned (hown.congr (zero_add _))).congr ?_
    ac_rfl
  generalize hv : { u with mem := Function.update u.mem tf page } = v
  have htf : v.mem tf = page := by
    rw [← hv]
    exact Function.update_self ..
  have hwrite : ∀ P, tf ∈ P → Uses P P u v := fun P htf => hv ▸ Uses.write u htf page
  have hfirst : Uses ({tf} + r.space old L n) ({tf} + (r.space old L n + u.space pt N m)) r v := by
    refine ((huses.frame ({tf} + r.space old L n)).congr (zero_add _).symm ?_).trans
      (hwrite _ (Multiset.mem_add.mpr (.inl (Multiset.mem_singleton_self tf))))
    ac_rfl
  have hkept := (hwrite {tf} (Multiset.mem_singleton_self tf)).kept hown₁
  -- The old page table is as it was, and so is the new address space.
  have hnewKept : ∀ q ∈ u.space pt N m, v.mem q = u.mem q := fun q hq => hkept q (Multiset.mem_add.mpr (.inr hq))
  have holdKept : ∀ q ∈ r.mem.tables 2 old, v.mem q = r.mem q := fun q hq =>
    (hkept q (by simp [Ram.space, hq])).trans
      (huses.kept (hown.congr (zero_add _)) q (by simp [Ram.space, hq]))
  have holdSpace : v.space old L n = r.space old L n := Ram.space_congr holdKept
  have hown₂ : v.Owned (r.space old L n + ({tf} + u.space pt N m)) :=
    (hfirst.owned hown).congr (add_left_comm _ _ _)
  refine wp_post (procFreepagetable_spec (hold.congr holdKept) hfits (hown₂.left.congr holdSpace)) fun _ w hw => ?_
  rw [holdSpace] at hw
  have hlast : ∀ q ∈ {tf} + u.space pt N m, w.mem q = v.mem q := hw.kept hown₂
  have hspace : ∀ q ∈ u.space pt N m, w.mem q = u.mem q := fun q hq =>
    (hlast q (Multiset.mem_add.mpr (.inr hq))).trans (hnewKept q hq)
  refine ⟨hspace, (hlast tf (by simp)).trans htf, ?_, ?_⟩
  · rw [Ram.space_congr fun q hq => hspace q (by simp [Ram.space, hq])]
    exact hfirst.trans ((hw.frame ({tf} + u.space pt N m)).congr (add_left_comm _ _ _) (zero_add _).symm)
  · have hpages : (↑w.freelist : Multiset ℕ) + 0 = ↑v.freelist + r.space old L n := hw.store.pages
    rw [add_zero] at hpages
    rw [hpages]
    exact Multiset.le_add_left _ _

end Stack

-- exec has failed: only contents of free pages and of the file system may differ.
structure Untouched (s u : Kernel) : Prop where
  same : u = { s with files := { s.files with ram := u.files.ram, fs := u.files.fs } }
  uses : Uses 0 0 s.files.ram u.files.ram

theorem Untouched.fs (h : Untouched s u) (fs : Fs) :
    Untouched s { u with files := { u.files with fs := fs } } := by
  refine ⟨?_, h.uses⟩
  have hsame := h.same
  rw [hsame]

theorem execBad_noFile (h : Loading s t pt tf n sz L) (ho : s.files.ram.Owned 0) :
    wp (execBad (some pt) sz none) (fun _ u => Untouched s u) (fun _ => False) t := by
  unfold execBad
  rw [wp_bind]
  refine wp_ram_of (procFreepagetable_spec h.space h.fits (h.owned ho)) fun _ ram hram => ⟨?_, ?_⟩
  · have hsame := h.same
    rw [hsame]
  · exact h.uses.trans hram

theorem execBad_spec (h : Loading s t pt tf n sz L) (ho : s.files.ram.Owned 0) (ip : Ip) :
    wp (execBad (some pt) sz (some ip)) (fun _ u => Untouched s u) OnlyFsStop t := by
  unfold execBad
  rw [wp_bind]
  refine wp_ram_of (procFreepagetable_spec h.space h.fits (h.owned ho)) fun _ ram hram => ?_
  refine wp_anyFsKernel fun _ fs => ⟨?_, ?_⟩
  · have hsame := h.same
    rw [hsame]
  · exact h.uses.trans hram

theorem execBad_early (h : Untouched s u) (ip : Ip) :
    wp (execBad none 0 (some ip)) (fun _ w => Untouched s w) OnlyFsStop u := by
  unfold execBad
  exact wp_anyFsKernel fun _ fs => h.fs fs

-- exec has succeeded: process p has the address space pt in the place of old, which is freed.
structure Replaced (s u : Kernel) (p : Slot) (name : List UInt8) (old tf n : ℕ) (L : ℕ → Option ℕ)
    (pt m sz : ℕ) (N : ℕ → Option ℕ) : Prop where
  same : u = Kernel.setProc { s with files := { s.files with ram := u.files.ram, fs := u.files.fs } } p
    fun q => { q with name := name, pagetable := some pt, sz := sz }
  space : Space u.files.ram.mem pt N m (trapTop s.trampoline tf)
  fits : Fits sz m
  uses : Uses ({tf} + s.files.ram.space old L n) ({tf} + u.files.ram.space pt N m) s.files.ram u.files.ram
  freed : s.files.ram.space old L n ≤ ↑u.files.ram.freelist

def ExecDone (s : Kernel) (p : Slot) (path : List UInt8) (argv : List (List UInt8)) (old tf n : ℕ)
    (L : ℕ → Option ℕ) (r : Int) (u : Kernel) : Prop :=
  (r = -1 ∧ Untouched s u) ∨
    (r = argv.length ∧ ∃ pt m sz N, Replaced s u p (progName path) old tf n L pt m sz N)

structure Started (mem : Mem) (tf entry top : ℕ) : Prop where
  epc : Bytes.load (mem tf) TF_EPC 8 = entry
  sp : Bytes.load (mem tf) TF_SP 8 = top
  a1 : Bytes.load (mem tf) TF_A1 8 = top

theorem started_store (mem : Mem) {page : Page} {tf entry sp : ℕ} (hentry : entry < 2 ^ 64) (hsp : sp < 2 ^ 64)
    (h : mem tf = Bytes.store (Bytes.store (Bytes.store page TF_A1 8 sp) TF_EPC 8 entry) TF_SP 8 sp) :
    Started mem tf entry sp := by
  have hpow : (256 : ℕ) ^ 8 = 2 ^ 64 := by norm_num
  refine ⟨?_, ?_, ?_⟩
  · rw [h, Bytes.load_store_disjoint _ _ _ _ _ _ (by decide), Bytes.load_store, hpow, Nat.mod_eq_of_lt hentry]
  · rw [h, Bytes.load_store, hpow, Nat.mod_eq_of_lt hsp]
  · rw [h, Bytes.load_store_disjoint _ _ _ _ _ _ (by decide), Bytes.load_store_disjoint _ _ _ _ _ _ (by decide),
      Bytes.load_store, hpow, Nat.mod_eq_of_lt hsp]

structure Runs (u : Kernel) (tf : ℕ) (argv : List (List UInt8)) (elf : ElfHdr) (a b : Program) : Prop where
  fits : Fits a.sz a.n
  beyond : ∀ o, a.n * PGSIZE ≤ o → a.img o = 0
  stacked : Stacked argv a b
  low : b.n ≤ TRAPFRAME / PGSIZE
  image : Image u.files.ram.mem b.L b.n b.img
  started : Started u.files.ram.mem tf elf.entry (b.sz - stackUse argv)

theorem execCommit_spec {elf : ElfHdr} {ip : Ip} {a : Program} (hfull : s.Full p own old tf n L)
    (hown : s.files.ram.Owned own) (h : Building s t pt tf ip none a) (hentry : elf.entry < 2 ^ 64) :
    wp (execCommit p path argv elf pt a.sz) (fun r u =>
      (r = -1 ∧ Untouched s u ∧ (Args argv → NoStack pt a.sz t.files.ram ∨ PGSIZE < stackUse argv)) ∨
        (r = argv.length ∧ ∃ b : Program, Replaced s u p (progName path) old tf n L pt b.n b.sz b.L ∧
          (Args argv → ¬NoStack pt a.sz t.files.ram ∧ Runs u tf argv elf a b))) (fun _ => False) t := by
  have hproc : t.proc = s.proc := by
    rw [h.same]
  have hzero : s.files.ram.Owned 0 := hown.mono (Multiset.zero_le _)
  have hkend : KERNBASE ≤ t.files.ram.kend := by
    rw [h.uses.kend]
    exact h.kend
  unfold execCommit
  simp only [wp_bind, wp_get, hproc]
  refine wp_ram_of (execStack_spec h.space (trapTop_clear _ _) (trapTop_guarded _ _) h.fits
    (h.toLoading.owned hzero) hkend h.image h.beyond) fun r ram hram => ?_
  obtain ⟨size, sp⟩ := r
  obtain ⟨b, rfl, hspace, hfits, huses, hargs⟩ := hram
  have hloading := h.toLoading.ram hspace hfits huses
  cases sp with
  | none =>
      rw [wp_bind]
      refine wp_post (execBad_noFile hloading hzero) fun _ u hu => .inl ⟨rfl, hu, fun harg => ?_⟩
      rcases hargs harg with ⟨-, hwhy⟩ | ⟨hsome, -⟩
      · exact hwhy
      · cases hsome
  | some sp =>
      simp only [wp_bind, wp_get, hproc, hfull.trapframe, wp_pointer, wp_ram, setTrapframe, wp_modify,
        Kernel.setProc, Function.update_self, hfull.pagetable, Function.update_idem]
      have hfree := freeOld_spec (Bytes.store (Bytes.store (Bytes.store (ram.mem tf) TF_A1 8 sp) TF_EPC 8 elf.entry)
        TF_SP 8 sp) hfull.space hfull.fits (hown.congr hfull.own.symm) (h.uses.trans huses)
      refine wp_mono hfree (fun _ w hw => ?_) fun _ he => he.elim
      obtain ⟨hkept, htf, huses', hfreed⟩ := hw
      have hspace' := hspace.congr fun q hq => hkept q (by simp [Ram.space, hq])
      refine .inr ⟨rfl, b, ⟨?_, hspace', hfits, huses', hfreed⟩, fun harg => ?_⟩
      · have hsame := h.same
        rw [hsame]
        simp [Kernel.setProc, hfull.trapframe]
      · rcases hargs harg with ⟨hnone, -⟩ | ⟨hsome, hstack, hstacked, himage⟩
        · cases hnone
        obtain rfl : sp = b.sz - stackUse argv := Option.some.inj hsome
        have hlow := le_trapframe (hloading.owned hzero).right
        have hsz : b.sz ≤ MAXVA := by
          rw [hstacked.sz]
          exact mul_le_maxva hlow
        have hmax : MAXVA = 2 ^ 38 := rfl
        exact ⟨hstack, h.fits, h.beyond, hstacked, hlow, himage.congr fun q hq => hkept q (by simp [Ram.space, hq]),
          started_store _ hentry (by omega) htf⟩

def ExecFile (s : Kernel) (p : Slot) (path f : List UInt8) : Prop :=
  wp (execOpen p path) (fun r t => ∃ ip x, r = some ip ∧ t.files.fs.Held ip x ∧ t.files.fs.contents x = f)
    (fun _ => False) s

structure FsReady (s : Kernel) (p : Slot) : Prop where
  ok : s.files.fs.Ok
  clean : s.files.fs.Clean
  cwd : ∃ cwd x, s.files.cwd p = some cwd ∧ s.files.fs.At cwd x

theorem execOpen_any (hcwd : s.files.cwd p ≠ none) :
    wp (execOpen p path) (fun _ t => t = { s with files := { s.files with fs := t.files.fs } }) OnlyFsStop s := by
  obtain ⟨cwd, hcwd⟩ := Option.ne_none_iff_exists'.mp hcwd
  unfold execOpen
  simp only [wp_bind]
  refine wp_anyFsKernel fun _ fs₁ => ?_
  simp only [wp_ofFiles, mycwd, wp_bind, wp_get, hcwd, wp_pure]
  refine wp_anyFsKernel fun r fs₂ => ?_
  cases r with
  | none => exact rfl
  | some ip =>
      simp only [wp_bind]
      exact wp_anyFsKernel fun _ fs₃ => rfl

theorem execOpen_ready (h : FsReady s p) (path : List UInt8) :
    wp (execOpen p path) (fun r t => ∀ ip, r = some ip → ∃ x, t.files.fs.Ok ∧ t.files.fs.Held ip x)
      (fun _ => True) s := by
  obtain ⟨cwd, x, hcwd, hat⟩ := h.cwd
  unfold execOpen
  simp only [wp_bind, KernelM.fs, wp_ofFiles, wp_ofFs, beginOp, wp_modify, mycwd, wp_get, hcwd, wp_pure]
  have hnamei := Fs.namei_net (h.ok.outstanding (s.files.fs.outstanding + 1)) (h.clean.outstanding _)
    ⟨hat.ref, hat.inum⟩ path
  refine wp_mono hnamei (fun r fs₂ hnet => ?_) fun _ _ => trivial
  cases r with
  | none => exact fun ip hip => by cases hip
  | some ip =>
      simp only [wp_bind, wp_ofFiles, wp_ofFs, wp_pure]
      refine wp_mono (Fs.ilock_net hnet.ok hnet.clean (hnet.at_of_mem List.mem_cons_self)) (fun _ fs₃ hlock => ?_)
        fun _ _ => trivial
      intro ip' hip
      obtain rfl : ip = ip' := Option.some.inj hip
      exact ⟨_, hlock.1.ok, hlock.2⟩

theorem execOpen_spec (hcwd : s.files.cwd p ≠ none) :
    wp (execOpen p path) (fun r t => t = { s with files := { s.files with fs := t.files.fs } } ∧
      ∀ ip, r = some ip → ∃ file, Reads ip file t.files.fs ∧ (FsReady s p → ∃ f ∈ file, ExecFile s p path f))
      OnlyFsStop s := by
  by_cases hready : FsReady s p
  · have hboth := wp_run (wp_and (execOpen_any hcwd) (execOpen_ready hready path))
    refine wp_mono hboth (fun r t hpost => ?_) fun _ he => he.1
    obtain ⟨hrun, hsame, hheld⟩ := hpost
    refine ⟨hsame, fun ip hip => ?_⟩
    obtain ⟨x, hok, hx⟩ := hheld ip hip
    refine ⟨some (t.files.fs.contents x), fun f hf => ⟨x, hok, hx, Option.mem_some_iff.mp hf⟩, fun _ => ⟨_, rfl, ?_⟩⟩
    rw [ExecFile, wp_of_ok hrun]
    exact ⟨ip, x, hip, hx, rfl⟩
  · refine wp_post (execOpen_any hcwd) fun r t hsame => ⟨hsame, fun ip _ => ⟨none, fun f hf => ?_, fun h => ?_⟩⟩
    · exact (Option.not_mem_none f hf).elim
    · exact (hready h).elim

theorem ElfHdr.ofBytes_congr {b b' : ℕ → UInt8} (h : ∀ k < ELFHDR_SIZE, b k = b' k) :
    ElfHdr.ofBytes b = ElfHdr.ofBytes b' := by
  have hload : ∀ base count, base + count ≤ ELFHDR_SIZE → Bytes.load b base count = Bytes.load b' base count :=
    fun base count hle => Bytes.load_congr _ _ _ _ fun k _ hk => h k (by omega)
  rw [ElfHdr.ofBytes, hload 0 4 (by decide), hload 24 8 (by decide), hload 32 8 (by decide), hload 56 2 (by decide),
    ElfHdr.ofBytes]

def Program.start (trampoline tf : ℕ) : Program := ⟨0, 0, trapTop trampoline tf, fun _ => 0⟩

structure Loaded (f : List UInt8) (elf : ElfHdr) (start a : Program) : Prop where
  header : elf = .ofBytes fun k => f.getD k 0
  size : ELFHDR_SIZE ≤ f.length
  magic : elf.magic = ELF_MAGIC
  headers : LoadRun f (headers f (elf.phoff % 2 ^ 32) elf.phnum) start a
  inside : 0 < elf.phnum → elf.phoff % 2 ^ 32 + PROGHDR_SIZE * elf.phnum ≤ f.length

-- What exec needs of the kernel when it is called.
structure ExecReady (t : Kernel) (p : Slot) (pages : Multiset ℕ) (old tf n : ℕ) (L : ℕ → Option ℕ) : Prop
    extends t.Full p pages old tf n L where
  owned : t.files.ram.Owned pages
  trampoline : t.trampoline < 2 ^ 44
  kend : KERNBASE ≤ t.files.ram.kend
  cwd : t.files.cwd p ≠ none

theorem ExecReady.withRam {A : Multiset ℕ} {ram : Ram} (h : ExecReady s p own old tf n L)
    (huses : Uses 0 A s.files.ram ram) : ExecReady (s.withRam ram) p own old tf n L where
  toFull := h.toFull.congr rfl rfl (huses.kept (h.owned.congr (zero_add _)))
  owned := ((huses.frame own).owned (h.owned.congr (zero_add _))).right
  trampoline := h.trampoline
  kend := by
    change KERNBASE ≤ ram.kend
    rw [huses.kend]
    exact h.kend
  cwd := h.cwd

theorem execLoad_spec (path : List UInt8) (hs : ExecReady s p own old tf n L) :
    wp (execLoad p path) (fun res t => (res = none ∧ Untouched s t) ∨
      ∃ elf pt ip a, res = some (elf, pt, a.sz) ∧ elf.entry < 2 ^ 64 ∧ Building s t pt tf ip none a ∧
        (FsReady s p → ∃ f, ExecFile s p path f ∧ Loaded f elf (.start s.trampoline tf) a)) OnlyFsStop s := by
  have hzero : s.files.ram.Owned 0 := hs.owned.mono (Multiset.zero_le _)
  unfold execLoad
  rw [wp_bind]
  refine wp_post (execOpen_spec hs.cwd) fun r t hopen => ?_
  obtain ⟨hsame, hfile⟩ := hopen
  obtain ⟨fs₀, rfl⟩ : ∃ fs₀, t = { s with files := { s.files with fs := fs₀ } } := ⟨_, hsame⟩
  have hopened : ∀ fs, Untouched s { s with files := { s.files with fs := fs } } := fun fs => ⟨rfl, .refl _ _⟩
  cases r with
  | none =>
      rw [wp_bind]
      exact wp_anyFsKernel fun _ fs => .inl ⟨rfl, hopened fs⟩
  | some ip =>
      obtain ⟨file, hreads, hready⟩ := hfile ip rfl
      simp only [wp_bind]
      refine readKernel_spec hreads (by decide) fun r fs hfs hgot => ?_
      simp only [wp_ite, wp_bind, wp_get, hs.trapframe, wp_pointer]
      split
      · exact wp_post (execBad_early (hopened fs) ip) fun _ u hu => .inl ⟨rfl, hu⟩
      split
      · exact wp_post (execBad_early (hopened fs) ip) fun _ u hu => .inl ⟨rfl, hu⟩
      rename_i hall hmagic
      have htf : tf < 2 ^ 44 := by
        have hmem : tf ∈ own := by
          rw [hs.own]
          simp
        exact (hs.owned.inRam hmem).lt
      refine wp_ram_of (procPagetable_spec hzero hs.trampoline htf) fun res ram hpt => ?_
      cases res with
      | none =>
          have huntouched : Untouched s { s with files := { s.files with ram := ram, fs := fs } } := ⟨rfl, hpt⟩
          rw [wp_bind]
          exact wp_post (execBad_early huntouched ip) fun _ u hu => .inl ⟨rfl, hu⟩
      | some pt =>
          obtain ⟨hmaps, huses⟩ := hpt
          have hstart : Building s { s with files := { s.files with ram := ram, fs := fs } } pt tf ip file
              (.start s.trampoline tf) := by
            have hfits : Fits 0 0 := ⟨Nat.zero_le _, by decide⟩
            exact ⟨⟨rfl, hmaps.space_zero, hfits, huses.congr rfl (ram.space_zero pt _)⟩,
              ⟨hzero, hs.kend, fun _ hv => absurd hv (Nat.not_lt_zero _)⟩, hfs, fun v hv => absurd hv (Nat.not_lt_zero _),
              fun _ _ => rfl⟩
          rw [wp_bind]
          refine wp_post (loadLoop_spec hstart (Nat.mod_lt _ (by decide))) fun res u hpost => ?_
          obtain ⟨size, more⟩ := res
          obtain ⟨a, ha, hsz, hrun⟩ := hpost
          obtain rfl : size = a.sz := hsz
          cases more with
          | false =>
              rw [wp_bind]
              exact wp_post (execBad_spec ha.toLoading hzero ip) fun _ w hw => .inl ⟨rfl, hw⟩
          | true =>
              rw [wp_bind]
              refine wp_anyFsKernel fun _ fs₂ => .inr ⟨_, pt, ip, a, rfl, ?_, ha.close fs₂, fun hfs => ?_⟩
              · have hlt := Bytes.load_lt r.2 24 8
                rwa [show (256 : ℕ) ^ 8 = 2 ^ 64 by decide] at hlt
              · obtain ⟨f, hf, hexec⟩ := hready hfs
                obtain ⟨hrun, hinside⟩ := hrun rfl f hf
                obtain ⟨hsize, hbytes⟩ := hgot f hf (not_not.mp hall) (by decide)
                refine ⟨f, hexec, ElfHdr.ofBytes_congr fun k hk => ?_, by omega, not_not.mp hmagic, hrun, hinside⟩
                rw [hbytes k, if_pos hk, Nat.zero_add]

def ExecRan (s : Kernel) (p : Slot) (path : List UInt8) (argv : List (List UInt8)) (old tf n : ℕ) (L : ℕ → Option ℕ)
    (r : Int) (u : Kernel) : Prop :=
  (r = -1 ∧ Untouched s u ∧ (Args argv → ∀ elf pt sz t, execLoad p path s = .ok (some (elf, pt, sz), t) →
    NoStack pt sz t.files.ram ∨ PGSIZE < stackUse argv)) ∨
  (r = argv.length ∧ ∃ (elf : ElfHdr) (pt : ℕ) (a b : Program) (t : Kernel),
    execLoad p path s = .ok (some (elf, pt, a.sz), t) ∧
    Replaced s u p (progName path) old tf n L pt b.n b.sz b.L ∧
    (Args argv → ¬NoStack pt a.sz t.files.ram ∧ Runs u tf argv elf a b) ∧
    (FsReady s p → ∃ f, ExecFile s p path f ∧ Loaded f elf (.start s.trampoline tf) a))

theorem exec_ran (hs : ExecReady s p own old tf n L) :
    wp (exec p path argv) (ExecRan s p path argv old tf n L) OnlyFsStop s := by
  rw [exec, wp_bind]
  refine wp_post (wp_run (execLoad_spec path hs)) fun res t hpost => ?_
  obtain ⟨hrun, ⟨rfl, huntouched⟩ | ⟨elf, pt, ip, a, rfl, hentry, hbuilding, hfile⟩⟩ := hpost
  · refine .inl ⟨rfl, huntouched, fun _ elf pt sz t' hload => ?_⟩
    rw [hrun] at hload
    cases hload
  · refine wp_mono (execCommit_spec hs.toFull hs.owned hbuilding hentry) (fun r u hu => ?_) fun _ he => he.elim
    rcases hu with ⟨hr, huntouched, hwhy⟩ | ⟨hr, b, hreplaced, hargs⟩
    · refine .inl ⟨hr, huntouched, fun harg elf' pt' sz' t' hload => ?_⟩
      rw [hrun] at hload
      cases hload
      exact hwhy harg
    · exact .inr ⟨hr, elf, pt, a, b, t, hrun, hreplaced, hargs, hfile⟩

theorem ExecRan.done {r : Int} (h : ExecRan s p path argv old tf n L r u) : ExecDone s p path argv old tf n L r u := by
  rcases h with ⟨hr, huntouched, -⟩ | ⟨hr, elf, pt, a, b, t, -, hreplaced, -⟩
  · exact .inl ⟨hr, huntouched⟩
  · exact .inr ⟨hr, pt, b.n, b.sz, b.L, hreplaced⟩

-- exec on any file: it fails and changes nothing, or it replaces the address space.
theorem exec_spec (hs : ExecReady s p own old tf n L) :
    wp (exec p path argv) (fun r u => ExecDone s p path argv old tf n L r u) OnlyFsStop s :=
  wp_post (exec_ran hs) fun _ _ h => h.done

section Argv

variable {r : Ram}

theorem fetchPage_spec (pagetable addr page : ℕ) :
    wp (fetchPage pagetable addr page) (fun _ u => Uses {page} {page} r u) (fun _ => False) r := by
  unfold fetchPage
  simp only [wp_bind, wp_get, wp_modify, wp_ite, wp_pure, ite_self]
  exact Uses.write r (Multiset.mem_singleton_self page) _

-- The pages of the arguments are all that sys_exec takes.
theorem argvLoop_spec {pagetable size uargv count i : ℕ} :
    wp (argvLoop pagetable size uargv count i) (fun res u => Uses 0 ↑res.1 r u) (fun _ => False) r := by
  induction count generalizing r i with
  | zero => exact .refl _ _
  | succ count ih =>
      rw [argvLoop]
      simp only [wp_bind, wp_get]
      split
      · exact .refl _ _
      · exact .refl _ _
      simp only [wp_bind]
      refine wp_post (kalloc_spec r) fun res u hu => ?_
      cases res with
      | none => exact hu.1
      | some page =>
          simp only [wp_bind]
          refine wp_post (fetchPage_spec _ _ page) fun arg w hw => ?_
          have hpage := hu.trans hw
          cases arg with
          | none => exact hpage
          | some arg =>
              rw [wp_bind]
              refine wp_post ih fun res x hx => ?_
              refine hpage.trans ((hx.frame {page}).congr (zero_add _).symm ?_)
              rw [← Multiset.cons_coe, ← Multiset.singleton_add, add_comm]

theorem kfreeAll_spec {pages : List ℕ} (ho : r.Owned ↑pages) :
    wp (pages.forM kfree) (fun _ u => Uses ↑pages 0 r u) (fun _ => False) r := by
  refine wp_forM (fun rest u => Uses ↑pages ↑rest r u) (fun page rest u hu => ?_) pages (.refl _ _)
  have hsplit : (↑(page :: rest) : Multiset ℕ) = {page} + ↑rest := by
    rw [← Multiset.cons_coe, Multiset.singleton_add]
  have hown := (hu.owned ho).congr hsplit.symm
  refine wp_post (kfree_spec hown.left) fun _ w hw => ?_
  exact hu.trans ((hw.frame ↑rest).congr hsplit (zero_add _).symm)

end Argv

section SysExec

variable {u : Kernel} {p : Slot} {path : List UInt8} {argv : List (List UInt8)} {old : ℕ} {r : Int} {A : Multiset ℕ}

theorem ExecDone.uses (h : ExecDone s p path argv old tf n L r u) :
    ∃ own, Uses ({tf} + s.files.ram.space old L n) own s.files.ram u.files.ram := by
  rcases h with ⟨-, huntouched⟩ | ⟨-, pt, m, sz, N, hreplaced⟩
  · exact ⟨_, (huntouched.uses.frame _).congr (zero_add _).symm rfl⟩
  · exact ⟨_, hreplaced.uses⟩

-- exec between the allocation and the release of the pages A.
theorem ExecDone.around {ram ram' : Ram} (hown : s.files.ram.Owned ({tf} + s.files.ram.space old L n))
    (htake : Uses 0 A s.files.ram ram) (h : ExecDone (s.withRam ram) p path argv old tf n L r u)
    (hgive : Uses A 0 u.files.ram ram') : ExecDone s p path argv old tf n L r (u.withRam ram') := by
  have hkept := htake.kept (hown.congr (zero_add _))
  have hspace : ram.space old L n = s.files.ram.space old L n :=
    Ram.space_congr fun q hq => hkept q (by simp [Ram.space, hq])
  rcases h with ⟨hr, hsame, huses⟩ | ⟨hr, pt, m, sz, N, hreplaced⟩
  · refine .inl ⟨hr, ?_, ?_⟩
    · rw [hsame]
      rfl
    · exact htake.trans (((huses.frame A).congr (zero_add A).symm (zero_add A).symm).trans hgive)
  · refine .inr ⟨hr, pt, m, sz, N, ?_⟩
    have hsame := hreplaced.same
    have hnew := hreplaced.uses
    have hfreed := hreplaced.freed
    change Uses ({tf} + ram.space old L n) _ ram u.files.ram at hnew
    change ram.space old L n ≤ _ at hfreed
    rw [hspace] at hnew hfreed
    have htaken : Uses ({tf} + s.files.ram.space old L n) (A + ({tf} + s.files.ram.space old L n)) s.files.ram ram :=
      (htake.frame _).congr (zero_add _).symm rfl
    have hdone := htaken.trans ((hnew.frame A).congr (add_comm _ _) (add_comm _ _))
    have hkept' : ∀ q ∈ u.files.ram.mem.tables 2 pt, ram'.mem q = u.files.ram.mem q := fun q hq =>
      hgive.kept (hdone.owned hown) q (by simp [Ram.space, hq])
    refine ⟨?_, hreplaced.space.congr hkept', hreplaced.fits, ?_, hfreed.trans ?_⟩
    · rw [hsame]
      rfl
    · change Uses _ ({tf} + ram'.space pt N m) _ ram'
      rw [Ram.space_congr hkept']
      exact hdone.trans ((hgive.frame _).congr rfl (zero_add _).symm)
    · have hpages : (↑ram'.freelist : Multiset ℕ) + 0 = ↑u.files.ram.freelist + A := hgive.store.pages
      rw [add_zero] at hpages
      change _ ≤ (↑ram'.freelist : Multiset ℕ)
      rw [hpages]
      exact Multiset.le_add_right _ _

theorem sysExec_spec {own : Multiset ℕ} {uargv : ℕ} {path : Option (List UInt8)}
    (hs : ExecReady s p own old tf n L) :
    wp (sysExec p path uargv) (fun r u => ∃ path argv, ExecDone s p path argv old tf n L r u) OnlyFsStop s := by
  cases path with
  | none => exact ⟨[], [], .inl ⟨rfl, rfl, .refl _ _⟩⟩
  | some path =>
      unfold sysExec
      simp only [wp_bind, wp_get, hs.pagetable, wp_pointer]
      refine wp_ram_of argvLoop_spec fun res ram hram => ?_
      obtain ⟨pages, args⟩ := res
      have hown' := hs.owned.congr hs.own.symm
      have htaken := (hram.frame own).owned (hs.owned.congr (zero_add _))
      cases args with
      | none =>
          simp only [wp_bind]
          refine wp_ram_of (kfreeAll_spec htaken.left) fun _ ram' hram' => ?_
          exact ⟨path, [], .inl ⟨rfl, rfl, hram.trans hram'⟩⟩
      | some args =>
          have hs' := hs.withRam hram
          rw [wp_bind]
          refine wp_post (exec_spec hs') fun r u hu => ?_
          obtain ⟨own', huses⟩ := hu.uses
          have hend : u.files.ram.Owned (own' + ↑pages) := by
            have hpages : {tf} + ram.space old L n = own := hs'.own.symm
            exact (huses.frame ↑pages).owned (htaken.congr ((congrArg (· + _) hpages).trans (add_comm _ _)))
          rw [wp_bind]
          refine wp_ram_of (kfreeAll_spec hend.right) fun _ ram' hram' => ?_
          exact ⟨path, args, hu.around hown' hram hram'⟩

end SysExec

namespace Kernel

variable {P : Slot → Multiset ℕ} {pipes : Finset ℕ} {p : Slot} {u : Kernel}

theorem Inv.withFs (h : s.Inv P pipes) (fs : Fs) :
    Kernel.Inv { s with files := { s.files with fs := fs } } P pipes :=
  ⟨⟨h.mapped.has, h.mapped.divided, h.mapped.trampoline, h.mapped.kend⟩, h.files.of_eq rfl rfl, h.vacant, h.live,
    h.cwd, h.closed⟩

theorem Inv.untouched (h : s.Inv P pipes) (hu : Untouched s u) : u.Inv P pipes := by
  have hpipes : Uses pipes.val pipes.val s.files.ram u.files.ram :=
    (hu.uses.frame pipes.val).congr (zero_add _).symm (zero_add _).symm
  have hmap : Kernel.Mapped { s with files := { s.files with ram := u.files.ram, fs := u.files.fs } } P pipes :=
    h.mapped.files hpipes
  rw [hu.same]
  exact ⟨hmap, h.files.of_eq rfl rfl, h.vacant, h.live, h.cwd, h.closed⟩

theorem Inv.execReady (h : s.Inv P pipes) (hp : (s.proc p).Running) : ∃ old tf n L, ExecReady s p (P p) old tf n L := by
  obtain ⟨old, tf, n, L, hfull⟩ := h.full hp.1
  exact ⟨old, tf, n, L, hfull, h.mapped.owned p, h.mapped.trampoline, h.mapped.kend, h.cwd p hp⟩

theorem Inv.replaced {old m : ℕ} {name : List UInt8} {N : ℕ → Option ℕ} (h : s.Inv P pipes)
    (hp : (s.proc p).state ≠ .unused) (hfull : s.Full p (P p) old tf n L)
    (hr : Replaced s u p name old tf n L pt m sz N) :
    u.Inv (Function.update P p ({tf} + u.files.ram.space pt N m)) pipes := by
  have hstart := h.withFs u.files.fs
  have huses : Uses (P p) ({tf} + u.files.ram.space pt N m) s.files.ram u.files.ram := hr.uses.congr hfull.own rfl
  have hmap := hstart.mapped.setProc (p := p) (f := fun q => { q with name := name, pagetable := some pt, sz := sz })
    huses (.full rfl hfull.trapframe hr.space hr.fits)
  have hinv := hstart.setProc hmap hp rfl (Option.some_ne_none pt)
  rw [hr.same]
  exact hinv

end Kernel

theorem sysExec_inv {P : Slot → Multiset ℕ} {pipes : Finset ℕ} (h : s.Inv P pipes)
    (hp : (s.proc p).Running) (path : Option (List UInt8)) (uargv : ℕ) :
    wp (sysExec p path uargv) (fun _ u => ∃ Q, u.Inv Q pipes) OnlyFsStop s := by
  obtain ⟨old, tf, n, L, hs⟩ := h.execReady hp
  refine wp_post (sysExec_spec hs) fun r u hpost => ?_
  obtain ⟨path, argv, ⟨-, hu⟩ | ⟨-, pt, m, sz, N, hu⟩⟩ := hpost
  · exact ⟨P, h.untouched hu⟩
  · exact ⟨_, h.replaced hp.1 hs.toFull hu⟩

end Xv6
