import Xv6.Exec.Arguments

namespace Xv6

open Wp KernelM Kernel

def ProgHdr.Page (ph : ProgHdr) (v : ℕ) : Prop := ph.vaddr / PGSIZE ≤ v ∧ v * PGSIZE < ph.vaddr + ph.memsz

def ProgHdr.Before (ph ph' : ProgHdr) : Prop := ph.vaddr ≤ ph'.vaddr ∧ ∀ v, ¬(ph.Page v ∧ ph'.Page v)

theorem ProgHdr.Before.end_le {ph ph' : ProgHdr} (h : ph.Before ph') (halign : ph'.vaddr % PGSIZE = 0)
    (hmem : 0 < ph'.memsz) : ph.vaddr + ph.memsz ≤ ph'.vaddr := by
  by_contra hlt
  have hbase : ph'.vaddr / PGSIZE * PGSIZE = ph'.vaddr := Nat.div_mul_cancel (Nat.dvd_of_mod_eq_zero halign)
  refine h.2 (ph'.vaddr / PGSIZE) ⟨⟨Nat.div_le_div_right h.1, ?_⟩, le_rfl, ?_⟩
  · rw [hbase]
    omega
  · rw [hbase]
    omega

theorem ProgHdr.page_of_mem {ph : ProgHdr} {va : ℕ} (hlo : ph.vaddr ≤ va) (hhi : va < ph.vaddr + ph.memsz) :
    ph.Page (va / PGSIZE) :=
  ⟨Nat.div_le_div_right hlo, lt_of_le_of_lt (Nat.div_mul_le_self _ _) hhi⟩

theorem segments_apart {segs : List ProgHdr} (h : segs.Pairwise ProgHdr.Before) {ph ph' : ProgHdr} (hph : ph ∈ segs)
    (hph' : ph' ∈ segs) (hne : ph ≠ ph') (v : ℕ) : ¬(ph.Page v ∧ ph'.Page v) := by
  have hsymm : Std.Symm fun a b : ProgHdr => ∀ v, ¬(a.Page v ∧ b.Page v) := ⟨fun a b hab v hv => hab v hv.symm⟩
  have hapart : segs.Pairwise fun a b => ∀ v, ¬(a.Page v ∧ b.Page v) := h.imp fun hbefore => hbefore.2
  exact hapart.forall hph hph' hne v

-- Bit 0 of the flags of a header is for execute and bit 1 for write.
def segmentFlags (ph : ProgHdr) : ℕ :=
  PTE_V ||| PTE_R ||| PTE_U ||| (if ph.flags.testBit 1 then PTE_W else 0) ||| (if ph.flags.testBit 0 then PTE_X else 0)

theorem segmentFlags_eq (ph : ProgHdr) : PTE_R ||| PTE_U ||| flags2perm ph.flags ||| PTE_V = segmentFlags ph := by
  unfold flags2perm segmentFlags
  split <;> split <;> decide

theorem segmentFlags_lt (ph : ProgHdr) : segmentFlags ph < 2 ^ 10 := by
  unfold segmentFlags
  split <;> split <;> decide

-- The segments segs of the file f are in the program c, and nothing else is.
structure Laid (f : List UInt8) (segs : List ProgHdr) (c : Program) : Prop where
  fits : Fits c.sz c.n
  least : ∀ m, (∀ ph ∈ segs, ph.vaddr + ph.memsz ≤ m) → c.sz ≤ m
  size : ∀ ph ∈ segs, ph.vaddr + ph.memsz ≤ c.sz
  files : ∀ ph ∈ segs, ph.filesz ≤ ph.memsz
  inside : ∀ ph ∈ segs, 0 < ph.filesz → ph.off + ph.filesz ≤ f.length
  pages : ∀ ph ∈ segs, ∀ v, ph.Page v → ∃ pa, c.L v = some (mkPte pa (segmentFlags ph))
  bytes : ∀ ph ∈ segs, ∀ i < ph.filesz, c.img (ph.vaddr + i) = f.getD (ph.off + i) 0
  zero : ∀ o, (∀ ph ∈ segs, ¬(ph.vaddr ≤ o ∧ o < ph.vaddr + ph.filesz)) → c.img o = 0

variable {f : List UInt8} {segs phs : List ProgHdr} {ph : ProgHdr} {c d : Program}

theorem Laid.start (trampoline tf : ℕ) : Laid f [] (.start trampoline tf) where
  fits := ⟨Nat.zero_le _, show 0 * PGSIZE < 0 + PGSIZE by decide⟩
  least _ _ := Nat.zero_le _
  size _ h := (List.not_mem_nil h).elim
  files _ h := (List.not_mem_nil h).elim
  inside _ h := (List.not_mem_nil h).elim
  pages _ h := (List.not_mem_nil h).elim
  bytes _ h := (List.not_mem_nil h).elim
  zero _ _ := rfl

theorem Laid.load (h : Laid f segs c) (hload : Loads f ph c d) (hbefore : ∀ a ∈ segs, a.Before ph)
    (hoff : ph.off < 2 ^ 32) : Laid f (segs ++ [ph]) d := by
  have hmod : ph.off % 2 ^ 32 = ph.off := Nat.mod_eq_of_lt hoff
  have hsz := hload.sz
  have hfiles := hload.files
  have himg := hload.img
  rw [hmod] at himg
  have habove : 0 < ph.memsz → ∀ a ∈ segs, a.vaddr + a.memsz ≤ ph.vaddr := fun hmem a ha =>
    (hbefore a ha).end_le hload.align hmem
  have hmem : ∀ {a : ProgHdr}, a ∈ segs ++ [ph] → a ∈ segs ∨ a = ph := fun ha => by
    rwa [List.mem_append, List.mem_singleton] at ha
  refine ⟨hload.fits, fun m hm => ?_, fun a ha => ?_, fun a ha => ?_, fun a ha hpos => ?_, fun a ha v hv => ?_,
    fun a ha i hi => ?_, fun o ho => ?_⟩
  · have hlast := hm ph (by simp)
    have hrest := h.least m fun a ha => hm a (List.mem_append_left _ ha)
    omega
  · rcases hmem ha with ha | rfl
    · have := h.size a ha
      omega
    · omega
  · rcases hmem ha with ha | rfl
    · exact h.files a ha
    · exact hfiles
  · rcases hmem ha with ha | rfl
    · exact h.inside a ha hpos
    · have := hload.inside hpos
      rwa [hmod] at this
  · rcases hmem ha with ha | rfl
    · -- An old page.
      obtain ⟨pa, hL⟩ := h.pages a ha v hv
      have hlt : v * PGSIZE < c.n * PGSIZE := by
        have := h.size a ha
        have := h.fits.1
        have := hv.2
        omega
      refine ⟨pa, ?_⟩
      rw [hload.pages.same v (.inl (Nat.lt_of_mul_lt_mul_right hlt)), hL]
    · have hbase : a.vaddr / PGSIZE * PGSIZE = a.vaddr := Nat.div_mul_cancel (Nat.dvd_of_mod_eq_zero hload.align)
      have hle : a.vaddr ≤ v * PGSIZE := by
        rw [← hbase]
        exact Nat.mul_le_mul_right _ hv.1
      have hend := hv.2
      have hold := h.least a.vaddr (habove (by omega))
      rw [← segmentFlags_eq]
      refine hload.pages.fresh v ?_ ?_
      · have hn := h.fits.2
        have hlt : c.n * PGSIZE < (v + 1) * PGSIZE := by
          rw [Nat.succ_mul]
          omega
        exact Nat.le_of_lt_succ (Nat.lt_of_mul_lt_mul_right hlt)
      · have hn := hload.fits.1
        exact Nat.lt_of_mul_lt_mul_right (show v * PGSIZE < d.n * PGSIZE by omega)
  · rcases hmem ha with ha | rfl
    · have hin := h.files a ha
      rw [himg, overlay_of_notMem fun hnew => ?_, h.bytes a ha i hi]
      have := habove (by omega) a ha
      omega
    · rw [himg, overlay_of_mem (by omega), Nat.add_sub_cancel_left]
  · rw [himg, overlay_of_notMem (ho ph (by simp))]
    exact h.zero o fun a ha => ho a (List.mem_append_left _ ha)

def loads (phs : List ProgHdr) : List ProgHdr := phs.filter fun ph => ph.type = ELF_PROG_LOAD

theorem Laid.run (h : Laid f segs c) (hrun : LoadRun f phs c d) (horder : (segs ++ loads phs).Pairwise ProgHdr.Before)
    (hoff : ∀ ph ∈ loads phs, ph.off < 2 ^ 32) : Laid f (segs ++ loads phs) d := by
  induction hrun generalizing segs with
  | nil a =>
      rw [show loads [] = [] from rfl, List.append_nil]
      exact h
  | @skip ph phs a b type rest ih =>
      have hskip : loads (ph :: phs) = loads phs := List.filter_cons_of_neg (by simpa using type)
      rw [hskip] at horder hoff ⊢
      exact ih h horder hoff
  | @load ph phs a b c type here rest ih =>
      have htake : loads (ph :: phs) = ph :: loads phs := List.filter_cons_of_pos (by simpa using type)
      rw [htake] at horder hoff ⊢
      have hbefore : ∀ a ∈ segs, a.Before ph := fun a ha =>
        (List.pairwise_append.mp horder).2.2 a ha ph List.mem_cons_self
      have hnext := h.load here hbefore (hoff ph List.mem_cons_self)
      rw [List.append_cons] at horder ⊢
      exact ih hnext horder fun a ha => hoff a (List.mem_cons_of_mem _ ha)

def elfOf (f : List UInt8) : ElfHdr := .ofBytes fun k => f.getD k 0

def segments (f : List UInt8) : List ProgHdr := loads (headers f (elfOf f).phoff (elfOf f).phnum)

structure Described (f : List UInt8) : Prop where
  phoff : (elfOf f).phoff < 2 ^ 30
  off : ∀ ph ∈ segments f, ph.off < 2 ^ 30
  align : ∀ ph ∈ segments f, ph.vaddr % PGSIZE = 0
  order : (segments f).Pairwise ProgHdr.Before

-- Process p has the program of the file f in its memory, and starts at its entry.
structure ImageOf (u : Kernel) (p : Slot) (f : List UInt8) : Prop where
  bytes : ∀ ph ∈ segments f, ∀ i < ph.filesz, ph.off + i < f.length ∧
    ∃ flags, u.view p (ph.vaddr + i) = some (flags, f.getD (ph.off + i) 0)
  bss : ∀ ph ∈ segments f, ∀ i, ph.filesz ≤ i → i < ph.memsz → ∃ flags, u.view p (ph.vaddr + i) = some (flags, 0)
  pages : ∀ ph ∈ segments f, ∀ va, ph.Page (va / PGSIZE) → ∃ b, u.view p va = some (segmentFlags ph, b)
  rest : ∀ va < (u.proc p).sz - PGSIZE, (∀ ph ∈ segments f, ¬(ph.vaddr ≤ va ∧ va < ph.vaddr + ph.memsz)) →
    ∃ flags, u.view p va = some (flags, 0)
  entry : ∃ tf, (u.proc p).trapframe = some tf ∧ Bytes.load (u.files.ram.mem tf) TF_EPC 8 = (elfOf f).entry

section Image

variable {s t u : Kernel} {p : Slot} {argv : List (List UInt8)} {path : List UInt8} {old tf n pt uargv : ℕ}
  {fail : List Bool} {L : ℕ → Option ℕ} {elf : ElfHdr} {a b : Program}

theorem Loaded.laid (h : Loaded f elf (.start s.trampoline tf) a) (hf : Described f) : Laid f (segments f) a := by
  have hphoff := hf.phoff
  have helf : elf = elfOf f := h.header
  have hrun := h.headers
  rw [helf, Nat.mod_eq_of_lt (by omega)] at hrun
  exact (Laid.start s.trampoline tf).run hrun hf.order fun ph hph => by
    have := hf.off ph hph
    omega

-- Below the stack page the program is as it was loaded.
theorem Runs.view_below (h : Runs u tf argv elf a b) (hr : Replaced s u p path old tf n L pt b.n b.sz b.L) {va : ℕ}
    (hva : va < b.sz - PGSIZE) : ∃ flags, u.view p va = some (flags, a.img va) ∧
      (va / PGSIZE < a.n → ∃ pte, a.L (va / PGSIZE) = some pte ∧ flags = pteFlags pte) := by
  obtain ⟨pte, hL, hview⟩ := h.view hr (show va < b.sz by omega)
  have hnarrow := h.stacked.fits
  have huse : stackUse argv = argSpace argv + pad16 ((argv.length + 1) * 8) := rfl
  refine ⟨_, ?_, fun hpage => ⟨pte, ?_, rfl⟩⟩
  · rw [hview, h.stacked.img, stackImage, overlay_of_notMem (by omega), pushed_of_notMem _ (by omega) (by omega)]
  · rw [← h.stacked.below _ hpage, hL]

theorem Runs.imageOf (h : Runs u tf argv elf a b) (hr : Replaced s u p path old tf n L pt b.n b.sz b.L)
    (htf : (s.proc p).trapframe = some tf) (helf : elf = elfOf f) (hlaid : Laid f (segments f) a)
    (hf : Described f) : ImageOf u p f := by
  have hsize : PGSIZE = 4096 := rfl
  have hbsz : b.sz = (a.n + 2) * PGSIZE := by
    rw [h.stacked.sz, h.stacked.pages]
  have hasz := h.fits.1
  have hle : a.n * PGSIZE ≤ b.sz - PGSIZE := by
    rw [hbsz, hsize]
    omega
  have hproc : (u.proc p).sz = b.sz := hr.proc.2.1
  refine ⟨fun ph hph i hi => ?_, fun ph hph i hlo hi => ?_, fun ph hph va hva => ?_, fun va hva hout => ?_, ?_⟩
  · have hend := hlaid.size ph hph
    have hfiles := hlaid.files ph hph
    have hin := hlaid.inside ph hph (by omega)
    obtain ⟨flags, hview, -⟩ := h.view_below hr (show ph.vaddr + i < b.sz - PGSIZE by omega)
    exact ⟨by omega, flags, by rw [hview, hlaid.bytes ph hph i hi]⟩
  · have hend := hlaid.size ph hph
    obtain ⟨flags, hview, -⟩ := h.view_below hr (show ph.vaddr + i < b.sz - PGSIZE by omega)
    refine ⟨flags, ?_⟩
    rw [hview, hlaid.zero _ fun ph' hph' hcover => ?_]
    have hfiles' := hlaid.files ph' hph'
    by_cases hsame : ph = ph'
    · subst hsame
      omega
    · exact segments_apart hf.order hph hph' hsame ((ph.vaddr + i) / PGSIZE)
        ⟨ProgHdr.page_of_mem (by omega) (by omega), ProgHdr.page_of_mem (by omega) (by omega)⟩
  · have hend := hlaid.size ph hph
    have hpage : va / PGSIZE < a.n :=
      Nat.lt_of_mul_lt_mul_right (show va / PGSIZE * PGSIZE < a.n * PGSIZE by have := hva.2; omega)
    have hlt : va < b.sz - PGSIZE := lt_of_lt_of_le ((Nat.div_lt_iff_lt_mul (by decide)).mp hpage) hle
    obtain ⟨flags, hview, hflags⟩ := h.view_below hr hlt
    obtain ⟨pte, hL, rfl⟩ := hflags hpage
    obtain ⟨pa, hL'⟩ := hlaid.pages ph hph _ hva
    obtain rfl := Option.some.inj (hL'.symm.trans hL)
    refine ⟨a.img va, ?_⟩
    rw [hview, mkPte, pteFlags_or _ (segmentFlags_lt ph)]
  · rw [hproc] at hva
    obtain ⟨flags, hview, -⟩ := h.view_below hr hva
    refine ⟨flags, ?_⟩
    rw [hview, hlaid.zero _ fun ph hph hcover => hout ph hph ?_]
    have := hlaid.files ph hph
    omega
  · refine ⟨tf, hr.proc.2.2.trans htf, ?_⟩
    rw [h.started.epc, helf]

-- After exec the memory is what the file describes.
theorem exec_image (hs : s.Reachable) (hp : (s.proc p).Running) (hcall : ExecCall s p uargv fail argv t)
    (hfs : FsReady t p) (path : List UInt8) :
    wp (exec p path argv) (fun r u => r ≠ -1 → ∃ f, ExecFile t p path f ∧ (Described f → ImageOf u p f))
      OnlyFsStop t := by
  obtain ⟨own, old, tf, n, L, hready⟩ := hcall.ready hs hp
  refine wp_post (exec_ran hready) fun r u hran hr => ?_
  rcases hran with ⟨rfl, -⟩ | ⟨-, elf, pt, a, b, w, -, hreplaced, hruns, hfile⟩
  · exact absurd rfl hr
  obtain ⟨-, hrun⟩ := hruns hcall.args
  obtain ⟨f, hf, hloaded⟩ := hfile hfs
  exact ⟨f, hf, fun hdesc =>
    hrun.imageOf hreplaced hready.trapframe hloaded.header (hloaded.laid hdesc) hdesc⟩

theorem ExecFile.unique {g : List UInt8} (h : ExecFile t p path f) (h' : ExecFile t p path g) : f = g := by
  obtain ⟨r, u, hrun, ip, x, rfl, hheld, rfl⟩ := exists_of_wp h
  rw [ExecFile, wp_of_ok hrun] at h'
  obtain ⟨ip', x', hip, hheld', rfl⟩ := h'
  cases hip
  rw [← hheld.inum, ← hheld'.inum]

section Sample

theorem sampleFs_block {phoff x r : ℕ}
    (h : (Vol.mk (sampleFs phoff).dinode (sampleFs phoff).bitmap (sampleFs phoff).data).block x r ≠ 0) :
    (x = ROOTINO ∨ x = 2) ∧ r = 0 ∧
      (Vol.mk (sampleFs phoff).dinode (sampleFs phoff).bitmap (sampleFs phoff).data).block x r = 45 + x := by
  unfold Vol.block Dinode.block at h ⊢
  simp only [sampleFs] at h ⊢
  by_cases hx : x = ROOTINO
  · subst hx
    by_cases hr : r = 0
    · subst hr
      exact ⟨.inl rfl, rfl, rfl⟩
    · simp [hr, NDIRECT] at h
  · by_cases hx' : x = 2
    · subst hx'
      by_cases hr : r = 0
      · subst hr
        exact ⟨.inr rfl, rfl, rfl⟩
      · simp [hr, NDIRECT, ROOTINO] at h
    · simp [hx, hx', Dinode.zero] at h

theorem sampleFs_own (phoff : ℕ) : Own (sampleFs phoff).sb
    (Vol.mk (sampleFs phoff).dinode (sampleFs phoff).bitmap (sampleFs phoff).data) := by
  refine ⟨⟨fun a b h => ?_, fun a a' b h h' => ?_, fun b hb hbit => ⟨(b - 45, 0), ?_⟩⟩, fun b hb => ?_,
    show FSSIZE - 46 < FSSIZE by decide, show FSSIZE < 2 ^ 32 by decide, fun x hx j _ => ?_⟩
  · obtain ⟨hnz, rfl⟩ := Vol.ref_eq_some.mp h
    obtain ⟨hx, -, hblock⟩ := sampleFs_block hnz
    have hroot : ROOTINO = 1 := rfl
    rw [hblock]
    simp only [Superblock.pool, sampleFs, Set.mem_ofPred_eq, decide_eq_true_eq, FSSIZE]
    omega
  · obtain ⟨hnz, rfl⟩ := Vol.ref_eq_some.mp h
    obtain ⟨-, h'⟩ := Vol.ref_eq_some.mp h'
    have h₁ := sampleFs_block hnz
    have h₂ := sampleFs_block (h' ▸ hnz)
    exact Prod.ext (by omega) (h₁.2.1.trans h₂.2.1.symm)
  · simp only [Superblock.pool, sampleFs, Set.mem_ofPred_eq, decide_eq_true_eq, FSSIZE] at hb hbit
    obtain rfl | rfl : b = 46 ∨ b = 47 := by omega
    all_goals rfl
  · simp only [sampleFs, FSSIZE, decide_eq_true_eq] at hb ⊢
    omega
  · simp only [sampleFs] at hx ⊢
    split at hx
    · cases hx
    · split at hx
      · cases hx
      · rename_i hroot hfile
        rw [if_neg hroot, if_neg hfile]
        rfl

theorem sampleFs_filled (phoff : ℕ) :
    Filled (Vol.mk (sampleFs phoff).dinode (sampleFs phoff).bitmap (sampleFs phoff).data) := by
  have hsize : ∀ x, ((sampleFs phoff).dinode x).size ≤ 122 := by
    intro x
    simp only [sampleFs]
    split
    · exact Nat.le_of_ble_eq_true rfl
    split
    · exact le_rfl
    · exact Nat.zero_le _
  refine ⟨fun x => (hsize x).trans (by decide), fun x bn h => ?_⟩
  have hlt := hsize x
  change bn * BSIZE < ((sampleFs phoff).dinode x).size at h
  have hbn : bn = 0 := by
    simp only [BSIZE] at h
    omega
  subst hbn
  change ((sampleFs phoff).dinode x).addrs 0 ≠ 0
  simp only [sampleFs] at h ⊢
  split
  · exact Nat.succ_ne_zero 45
  split
  · exact Nat.succ_ne_zero 46
  · rename_i hroot hfile
    rw [if_neg hroot, if_neg hfile] at h
    exact absurd h (Nat.not_lt_zero _)

theorem SampleCall.ready {phoff : ℕ} (h : SampleCall phoff s t) : FsReady t Sched.first := by
  have hvalid : ∀ i, ((sampleFs phoff).itable i).valid = false := by
    intro i
    simp only [sampleFs]
    split <;> rfl
  have href : ∀ i, 0 < ((sampleFs phoff).itable i).ref → i = Fs.ip0 := by
    intro i hi
    by_contra hne
    simp [sampleFs, hne] at hi
  have hclean : (sampleFs phoff).Clean := fun i x hi => by
    have hv := hi.valid
    rw [hvalid i] at hv
    cases hv
  have htable : (sampleFs phoff).Table := by
    refine ⟨fun i hi => ?_, fun i j hi hj _ => (href i hi).trans (href j hj).symm, fun i _ hv => ?_⟩
    · rw [href i hi]
      rfl
    · rw [hvalid i] at hv
      cases hv
  have hvol : (sampleFs phoff).vol = ⟨(sampleFs phoff).dinode, (sampleFs phoff).bitmap, (sampleFs phoff).data⟩ := by
    rw [Fs.vol, hclean.view_eq htable]
  refine ⟨?_, ?_, Fs.ip0, ROOTINO, h.cwd, ?_⟩
  · rw [h.fs]
    exact ⟨htable, hvol ▸ sampleFs_own phoff, hvol ▸ sampleFs_filled phoff⟩
  · rw [h.fs]
    exact hclean
  · rw [h.fs]
    exact ⟨Nat.one_pos, rfl⟩

theorem SampleCall.execFile {phoff : ℕ} (h : SampleCall phoff s t) :
    ExecFile t Sched.first Files.pathA (sampleFile phoff) := by
  obtain ⟨r, u, hrun, ip, rfl, hinum, hcontents⟩ := exists_of_wp h.file
  have hready := execOpen_ready h.ready Files.pathA
  rw [wp_of_ok hrun] at hready
  obtain ⟨x, -, hheld⟩ := hready ip rfl
  rw [ExecFile, wp_of_ok hrun]
  refine ⟨ip, x, rfl, hheld, ?_⟩
  rw [← hheld.inum, hinum, hcontents]

end Sample

theorem described_sample : Described (sampleFile 64) where
  phoff := by decide +kernel
  off := by decide +kernel
  align := by decide +kernel
  order := by
    have hone : (segments (sampleFile 64)).length = 1 := by decide +kernel
    obtain ⟨ph, hph⟩ := List.length_eq_one_iff.mp hone
    rw [hph]
    exact List.pairwise_singleton _ _

theorem exec_image_text : ∃ s t : Kernel, s.Reachable ∧ (s.proc Sched.first).Running ∧
    ExecCall s Sched.first 43 s.files.ram.fail [argInit] t ∧ FsReady t Sched.first ∧
    wp (exec Sched.first Files.pathA [argInit]) (fun r u => r ≠ -1 ∧ ImageOf u Sched.first (sampleFile 64))
      (fun _ => False) t := by
  obtain ⟨s, t, h⟩ := sampleCall
  refine ⟨s, t, h.reachable, h.running, h.call, h.ready, ?_⟩
  have himage := exec_image h.reachable h.running h.call h.ready Files.pathA
  refine wp_mono (wp_and h.runs himage) (fun r u hu => ?_) fun _ he => he.1
  obtain ⟨f, hf, hdesc⟩ := hu.2 hu.1
  obtain rfl := hf.unique h.execFile
  exact ⟨hu.1, hdesc described_sample⟩

-- The segments of a program that was loaded have the bytes that they say.
theorem LoadRun.inside (h : LoadRun f phs c d) : ∀ ph ∈ loads phs, 0 < ph.filesz →
    ph.off % 2 ^ 32 + ph.filesz ≤ f.length := by
  induction h with
  | nil a => exact fun _ h => (List.not_mem_nil h).elim
  | @skip ph phs a b type rest ih =>
      rw [show loads (ph :: phs) = loads phs from List.filter_cons_of_neg (by simpa using type)]
      exact ih
  | @load ph phs a b c type here rest ih =>
      rw [show loads (ph :: phs) = ph :: loads phs from List.filter_cons_of_pos (by simpa using type)]
      intro ph' hph'
      rcases List.mem_cons.mp hph' with rfl | hph'
      · exact here.inside
      · exact ih ph' hph'

structure InFile (f : List UInt8) : Prop where
  headers : ∀ i < (elfOf f).phnum, (elfOf f).phoff + (i + 1) * PROGHDR_SIZE ≤ f.length
  segments : ∀ ph ∈ segments f, ph.off + ph.filesz ≤ f.length

-- exec keeps 32 bits of phoff and off, and looks for no byte of an empty segment.
structure Narrow (f : List UInt8) : Prop where
  phoff : (elfOf f).phnum ≠ 0 → (elfOf f).phoff < 2 ^ 32
  off : ∀ ph ∈ segments f, ph.off < 2 ^ 32 ∧ (ph.filesz = 0 → ph.off ≤ f.length)

theorem InFile.narrow (h : InFile f) (hlength : f.length < 2 ^ 32) : Narrow f where
  phoff hne := by
    have hfirst := h.headers 0 (Nat.pos_of_ne_zero hne)
    omega
  off ph hph := by
    have hend := h.segments ph hph
    exact ⟨by omega, fun _ => by omega⟩

theorem Loaded.inFile {elf : ElfHdr} (h : Loaded f elf c d) (hnarrow : Narrow f) : InFile f := by
  obtain rfl : elf = elfOf f := h.header
  have hrun := h.headers
  have hinside := h.inside
  by_cases hnone : (elfOf f).phnum = 0
  · refine ⟨fun i hi => by omega, fun ph hph => ?_⟩
    rw [segments, hnone] at hph
    exact (List.not_mem_nil hph).elim
  · rw [Nat.mod_eq_of_lt (hnarrow.phoff hnone)] at hrun hinside
    have hend := hinside (Nat.pos_of_ne_zero hnone)
    refine ⟨fun i hi => ?_, fun ph hph => ?_⟩
    · have := Nat.mul_le_mul_left PROGHDR_SIZE (show i + 1 ≤ (elfOf f).phnum from hi)
      rw [Nat.mul_comm]
      omega
    · obtain ⟨hlt, hempty⟩ := hnarrow.off ph hph
      by_cases hfile : ph.filesz = 0
      · rw [hfile]
        exact hempty hfile
      · have := hrun.inside ph hph (Nat.pos_of_ne_zero hfile)
        rwa [Nat.mod_eq_of_lt hlt] at this

-- A file is at most MAXFILE blocks long.
theorem ExecFile.length_lt (h : ExecFile t p path f) (hfs : FsReady t p) : f.length < 2 ^ 32 := by
  obtain ⟨r, u, hrun, ip, x, rfl, hheld, rfl⟩ := exists_of_wp h
  have hready := execOpen_ready hfs path
  rw [wp_of_ok hrun] at hready
  obtain ⟨y, hok, -⟩ := hready ip rfl
  have hmax : MAXFILE * BSIZE < 2 ^ 32 := by decide
  rw [Fs.length_contents]
  exact (hok.filled.size x).trans_lt hmax

-- What a successful exec has loaded lies in the file just if phoff and the offsets of the segments
-- are below 2^32 and segments without bytes in the file are in it all the same.
theorem exec_inside (hs : s.Reachable) (hp : (s.proc p).Running) (hcall : ExecCall s p uargv fail argv t)
    (hfs : FsReady t p) (path : List UInt8) :
    wp (exec p path argv) (fun r _ => r ≠ -1 → ∃ f, ExecFile t p path f ∧ (Narrow f ↔ InFile f)) OnlyFsStop t := by
  obtain ⟨own, old, tf, n, L, hready⟩ := hcall.ready hs hp
  refine wp_post (exec_ran hready) fun r u hran hr => ?_
  rcases hran with ⟨rfl, -⟩ | ⟨-, elf, pt, a, b, w, -, hreplaced, hruns, hfile⟩
  · exact absurd rfl hr
  obtain ⟨f, hf, hloaded⟩ := hfile hfs
  exact ⟨f, hf, hloaded.inFile, fun hin => hin.narrow (hf.length_lt hfs)⟩

theorem exec_inside_text : ∃ s t : Kernel, s.Reachable ∧ (s.proc Sched.first).Running ∧
    ExecCall s Sched.first 43 s.files.ram.fail [argInit] t ∧ FsReady t Sched.first ∧
    wp (exec Sched.first Files.pathA [argInit]) (fun r _ => r ≠ -1 ∧ InFile (sampleFile 64)) (fun _ => False)
      t := by
  obtain ⟨s, t, h⟩ := sampleCall
  refine ⟨s, t, h.reachable, h.running, h.call, h.ready, ?_⟩
  have hinside := exec_inside h.reachable h.running h.call h.ready Files.pathA
  refine wp_mono (wp_and h.runs hinside) (fun r u hu => ?_) fun _ he => he.1
  obtain ⟨f, hf, hin⟩ := hu.2 hu.1
  obtain rfl := hf.unique h.execFile
  exact ⟨hu.1, hin.mp ⟨by decide +kernel, by decide +kernel⟩⟩

-- phoff is 2^32 + 64: exec takes the header at 64 and succeeds.
theorem exec_truncates : ∃ s t : Kernel, s.Reachable ∧ (s.proc Sched.first).Running ∧
    ExecCall s Sched.first 43 s.files.ram.fail [argInit] t ∧ FsReady t Sched.first ∧
    wp (exec Sched.first Files.pathA [argInit]) (fun r _ => r ≠ -1 ∧ ∃ f, ExecFile t Sched.first Files.pathA f ∧
      ¬(elfOf f).phoff + PROGHDR_SIZE ≤ f.length ∧ (elfOf f).phnum = 1 ∧ ¬InFile f) (fun _ => False) t := by
  obtain ⟨s, t, h⟩ : ∃ s t, SampleCall (2 ^ 32 + 64) s t := sampleCall_of (by decide +kernel)
  refine ⟨s, t, h.reachable, h.running, h.call, h.ready, ?_⟩
  have hlast : ¬(elfOf (sampleFile (2 ^ 32 + 64))).phoff + PROGHDR_SIZE ≤ (sampleFile (2 ^ 32 + 64)).length := by
    decide +kernel
  have hnum : (elfOf (sampleFile (2 ^ 32 + 64))).phnum = 1 := by decide +kernel
  refine wp_post h.runs fun r u hr => ?_
  refine ⟨hr, _, h.execFile, hlast, hnum, fun hin => hlast ?_⟩
  have := hin.headers 0 (by omega)
  rwa [Nat.zero_add, Nat.one_mul] at this

end Image

end Xv6
