import Xv6.Exec
import Xv6.Fs.Bytes
import Xv6.Kernel.Calls
import Xv6.Vm.Image

namespace Xv6

open Wp FilesM KernelM Ram Kernel

-- The kernel while exec builds the page table pt: what it had at s, with other
-- contents of the file system, and the new address space.
structure Loading (s t : Kernel) (pt tf n sz : ℕ) (L : ℕ → Option ℕ) : Prop where
  same : t = { s with files := { s.files with ram := t.files.ram, fs := t.files.fs } }
  space : Space t.files.ram.mem pt L n (trapTop s.trampoline tf)
  fits : Fits sz n
  uses : Uses 0 (t.files.ram.space pt L n) s.files.ram t.files.ram

def Open (L : ℕ → Option ℕ) (n : ℕ) : Prop := ∀ v < n, ∃ pte, L v = some pte ∧ hasFlag pte PTE_U = true

variable {s t : Kernel} {pt tf n sz : ℕ} {L : ℕ → Option ℕ}

namespace Loading

theorem owned (h : Loading s t pt tf n sz L) (ho : s.files.ram.Owned 0) :
    t.files.ram.Owned (t.files.ram.space pt L n) := h.uses.owned ho

theorem fs (h : Loading s t pt tf n sz L) (fs : Fs) :
    Loading s { t with files := { t.files with fs := fs } } pt tf n sz L := by
  refine ⟨?_, h.space, h.fits, h.uses⟩
  have hsame := h.same
  rw [hsame]

-- Memory changes, and with it the address space.
theorem ram (h : Loading s t pt tf n sz L) {ram : Ram} {m size : ℕ} {N : ℕ → Option ℕ}
    (hspace : Space ram.mem pt N m (trapTop s.trampoline tf)) (hfits : Fits size m)
    (huses : Uses (t.files.ram.space pt L n) (ram.space pt N m) t.files.ram ram) :
    Loading s (t.withRam ram) pt tf m size N := by
  refine ⟨?_, hspace, hfits, h.uses.trans huses⟩
  have hsame := h.same
  rw [withRam, hsame]

end Loading

-- A page that the user may access is found, and it is not page 0.
theorem Space.walkaddr_open {r : Ram} {top : ℕ → Option ℕ} (h : Space r.mem pt L n top) (hopen : Open L n)
    (ho : r.Owned (r.space pt L n)) (hkend : KERNBASE ≤ r.kend) {va : ℕ} (hva : va / PGSIZE < n) :
    ∃ pte, L (va / PGSIZE) = some pte ∧ walkaddr r.mem pt va = pte2pa pte ∧ pte2pa pte ∈ frames L 0 n ∧
      pte2pa pte ≠ 0 := by
  obtain ⟨pte, hpte, hu⟩ := hopen _ hva
  have htop := lt_maxva_of_le ho.right.frames_le
  have hmax : va < MAXVA := by
    have hmul := mul_le_maxva (v := n) htop.le
    have hdiv : va < n * PGSIZE := (Nat.div_lt_iff_lt_mul (by decide)).mp hva
    omega
  have hmem : pte2pa pte ∈ frames L 0 n := mem_frames_of hva hpte
  refine ⟨pte, hpte, ?_, hmem, fun hzero => ?_⟩
  · rw [walkaddr_eq, h.maps.leaf hmax, hpte]
    simp [Option.filter, hu]
  · have hin := (ho.right.inRam hmem).1
    rw [hzero, Nat.zero_mul] at hin
    have hbase : 0 < KERNBASE := by decide
    omega

theorem Loading.write (h : Loading s t pt tf n sz L) (ho : s.files.ram.Owned 0) {q : ℕ} (hq : q ∈ frames L 0 n)
    (page : Page) :
    Loading s (t.withRam { t.files.ram with mem := Function.update t.files.ram.mem q page }) pt tf n sz L := by
  obtain ⟨hspace, huses⟩ := h.space.write (h.owned ho) hq page
  exact h.ram hspace h.fits huses

structure Loadable (s : Kernel) (L : ℕ → Option ℕ) (n : ℕ) : Prop where
  owned : s.files.ram.Owned 0
  kend : KERNBASE ≤ s.files.ram.kend
  userPages : Open L n

-- Inode ip is of a file with these bytes; nothing is said if they are not known.
def Reads (ip : Ip) (file : Option (List UInt8)) (fs : Fs) : Prop :=
  ∀ f ∈ file, ∃ x, fs.Ok ∧ fs.Held ip x ∧ fs.contents x = f

def GotAll (f : List UInt8) (dst : ℕ → UInt8) (off n : ℕ) (r : Int × (ℕ → UInt8)) : Prop :=
  r.1 = n → 0 < n → off + n ≤ f.length ∧ ∀ k, r.2 k = if k < n then f.getD (off + k) 0 else dst k

variable {ip : Ip} {file : Option (List UInt8)}

theorem Reads.length_lt {fs : Fs} (h : Reads ip file fs) {f : List UInt8} (hf : f ∈ file) : f.length < 2 ^ 31 := by
  obtain ⟨x, hok, hheld, rfl⟩ := h f hf
  have hsize : (fs.view x).size ≤ MAXFILE * BSIZE := hok.filled.size x
  have hmax : MAXFILE * BSIZE < 2 ^ 31 := by decide
  rw [Fs.length_contents]
  omega

theorem readKernel_spec {dst : ℕ → UInt8} {off len : ℕ} {post : Int × (ℕ → UInt8) → Kernel → Prop}
    (h : Reads ip file t.files.fs) (hlen : len < 2 ^ 32)
    (hpost : ∀ r fs, Reads ip file fs → (∀ f ∈ file, GotAll f dst off len r) →
      post r { t with files := { t.files with fs := fs } }) : wp (readKernel ip dst off len) post OnlyFsStop t := by
  unfold readKernel
  cases file with
  | none => exact wp_anyFsKernel fun r fs => hpost r fs (fun f hf => by cases hf) fun f hf => by cases hf
  | some f =>
      obtain ⟨x, hok, hheld, hcontents⟩ := h f rfl
      rw [KernelM.fs, wp_ofFiles, wp_ofFs]
      refine wp_mono (Fs.readi_whole hok hheld dst hlen) (fun r fs hr => ?_) fun _ he => he.elim
      obtain ⟨rfl, hgot⟩ := hr
      refine hpost r _ h fun g hg => ?_
      obtain rfl : f = g := Option.mem_some_iff.mp hg
      rw [hcontents] at hgot
      exact hgot

-- A page of the image after a read of len bytes into page v, and the rest of the segment.
theorem overlay_page {img : ℕ → UInt8} {va size len : ℕ} {f page : ℕ → UInt8} (halign : va % PGSIZE = 0)
    (hlen : len = min size PGSIZE) (hpage : ∀ k < PGSIZE, page k = if k < len then f k else img (va + k)) :
    overlay (fun o => if o / PGSIZE = va / PGSIZE then page (o % PGSIZE) else img o) (va + PGSIZE) (size - PGSIZE)
      (fun k => f (PGSIZE + k)) = overlay img va size f := by
  funext o
  have hsize : PGSIZE = 4096 := rfl
  rw [hsize] at halign hlen
  by_cases hpg : o / PGSIZE = va / PGSIZE
  · have hmod : va + o % PGSIZE = o := by
      rw [hsize] at hpg ⊢
      omega
    rw [overlay_of_notMem (by rw [hsize] at hpg ⊢; omega), if_pos hpg, hpage _ (Nat.mod_lt _ (by decide)), hmod]
    by_cases ho : o < va + size
    · rw [if_pos (by rw [hsize] at hpg ⊢; omega), overlay_of_mem (by rw [hsize] at hpg; omega)]
      exact congrArg f (by omega)
    · rw [if_neg (by rw [hsize] at hpg ⊢; omega), overlay_of_notMem (by omega)]
  · by_cases hin : va ≤ o ∧ o < va + size
    · rw [overlay_of_mem (by rw [hsize] at hpg ⊢; omega), overlay_of_mem hin]
      exact congrArg f (by rw [hsize] at hpg ⊢; omega)
    · rw [overlay_of_notMem (by rw [hsize] at hpg ⊢; omega), if_neg hpg, overlay_of_notMem hin]

theorem loadsegLoop_spec {va size count i : ℕ} (offset : ℕ) {img : ℕ → UInt8} (h : Loading s t pt tf n sz L)
    (hload : Loadable s L n) (hreads : Reads ip file t.files.fs) (himg : Image t.files.ram.mem L n img)
    (halign : va % PGSIZE = 0) (hi : i % PGSIZE = 0) (hcount : count = (size - i + PGSIZE - 1) / PGSIZE)
    (hva : va + (i + count * PGSIZE) ≤ n * PGSIZE) (hoff : file ≠ none → offset + i < 2 ^ 32) :
    wp (loadsegLoop pt va ip offset size count i) (fun r u => Loading s u pt tf n sz L ∧ Reads ip file u.files.fs ∧
      ∃ img', Image u.files.ram.mem L n img' ∧ (∀ o, n * PGSIZE ≤ o → img' o = img o) ∧ (¬r < 0 → ∀ f ∈ file,
        (i < size → offset + size ≤ f.length) ∧
          img' = overlay img (va + i) (size - i) fun k => f.getD (offset + i + k) 0)) OnlyFsStop t := by
  have hsize : PGSIZE = 4096 := rfl
  induction count generalizing t i img with
  | zero =>
      have hdone : size - i = 0 := by
        rw [hsize] at hcount
        omega
      refine ⟨h, hreads, img, himg, fun _ _ => rfl, fun _ f _ => ⟨fun hlt => by omega, ?_⟩⟩
      rw [hdone, overlay_zero]
  | succ count ih =>
      have hown := h.owned hload.owned
      have hn := mul_le_maxva (le_trapframe hown.right)
      have hmax : MAXVA = 2 ^ 38 := rfl
      have hlt : va + i < n * PGSIZE := by
        rw [Nat.succ_mul] at hva
        omega
      have hv : (va + i) / PGSIZE < n := (Nat.div_lt_iff_lt_mul (by decide)).mpr hlt
      have hmod : (va + i) % 2 ^ 64 = va + i := Nat.mod_eq_of_lt (by omega)
      have hkend : KERNBASE ≤ t.files.ram.kend := by
        rw [h.uses.kend]
        exact hload.kend
      have hmore : i < size := by
        rw [hsize] at hcount
        omega
      have halign' : (va + i) % PGSIZE = 0 := by
        rw [hsize] at halign hi ⊢
        omega
      have hbase : (va + i) / PGSIZE * PGSIZE = va + i := Nat.div_mul_cancel (Nat.dvd_of_mod_eq_zero halign')
      obtain ⟨pte, hL, hwalk, hmem, hne⟩ := h.space.walkaddr_open hload.userPages hown hkend hv
      obtain ⟨pte', hL', hbytes⟩ := himg _ hv
      obtain rfl : pte = pte' := Option.some.inj (hL.symm.trans hL')
      have hlen : (if size - i < PGSIZE then size - i else PGSIZE) = min (size - i) PGSIZE := by
        split <;> omega
      rw [loadsegLoop]
      simp only [wp_bind, wp_get, hmod, wp_ite, hwalk, if_neg hne, wp_pure, hlen]
      refine readKernel_spec hreads (by rw [hsize]; omega) fun r fs hfs hgot => ?_
      rw [wp_ram, wp_modify]
      have hwrite := (h.fs fs).write hload.owned hmem r.2
      -- The page as it is now, whatever was read.
      set img₁ : ℕ → UInt8 := fun o => if o / PGSIZE = (va + i) / PGSIZE then r.2 (o % PGSIZE) else img o with himg₁
      have himage : Image (Function.update t.files.ram.mem (pte2pa pte) r.2) L n img₁ := by
        refine himg.write hown.right.nodup hv hL (fun k hk => ?_) fun o ho => if_neg ho
        simp only [himg₁, page_div _ hk, page_mod _ hk, ite_true]
      have hbeyond : ∀ o, n * PGSIZE ≤ o → img₁ o = img o := fun o ho => if_neg fun heq => by
        have := (Nat.le_div_iff_mul_le (k := PGSIZE) (by decide)).mpr ho
        omega
      split
      · rename_i hshort
        exact ⟨hwrite, hfs, img₁, himage, hbeyond, fun hr => absurd (by decide) hr⟩
      · rename_i hall
        have hfull := not_not.mp hall
        have hin : ∀ f ∈ file, offset + i + min (size - i) PGSIZE ≤ f.length ∧ ∀ k < PGSIZE,
            r.2 k = if k < min (size - i) PGSIZE then f.getD (offset + i + k) 0 else img (va + i + k) := by
          intro f hf
          have hmod32 : (offset + i) % 2 ^ 32 = offset + i :=
            Nat.mod_eq_of_lt (hoff fun hnone => by rw [hnone] at hf; cases hf)
          obtain ⟨hle, hbuf⟩ := hgot f hf hfull (by rw [hsize]; omega)
          rw [hmod32] at hle hbuf
          refine ⟨hle, fun k hk => ?_⟩
          rw [hbuf k, hbytes k hk, hbase]
        have hnext : (va + i) + PGSIZE = va + (i + PGSIZE) := Nat.add_assoc _ _ _
        have hoff' : file ≠ none → offset + (i + PGSIZE) < 2 ^ 32 := by
          intro hknown
          obtain ⟨f, hf⟩ := Option.ne_none_iff_exists'.mp hknown
          have hlength := hreads.length_lt hf
          have hle := (hin f hf).1
          rw [hsize]
          omega
        refine wp_post (ih hwrite hfs himage (by rw [hsize] at hi ⊢; omega) (by rw [hsize] at hcount ⊢; omega)
          (by rw [Nat.succ_mul] at hva; omega) hoff') fun r' u hu => ?_
        obtain ⟨hloading, hfs', img', himage', hbeyond', hdone⟩ := hu
        refine ⟨hloading, hfs', img', himage', fun o ho => (hbeyond' o ho).trans (hbeyond o ho), fun hr f hf => ?_⟩
        obtain ⟨hrest, hover⟩ := hdone hr f hf
        obtain ⟨hle, hpage⟩ := hin f hf
        refine ⟨fun _ => ?_, ?_⟩
        · by_cases hlast : i + PGSIZE < size
          · exact hrest hlast
          · omega
        · have hshift : (fun k => f.getD (offset + (i + PGSIZE) + k) 0) =
              fun k => f.getD (offset + i + (PGSIZE + k)) 0 :=
            funext fun k => by rw [← Nat.add_assoc offset, Nat.add_assoc _ PGSIZE]
          rw [hover, ← overlay_page halign' rfl hpage, Nat.sub_sub, hnext, hshift]

theorem flags2perm_lt (flags : ℕ) : flags2perm flags < 2 ^ 10 := by
  unfold flags2perm
  split <;> split <;> decide

-- The pages that uvmalloc adds are for the user.
theorem Extends.isOpen {N : ℕ → Option ℕ} {m xperm : ℕ} (h : Extends L N n m (PTE_R ||| PTE_U ||| xperm))
    (hopen : Open L n) : Open N m := by
  intro v hv
  by_cases hold : v < n
  · rw [h.same v (.inl hold)]
    exact hopen v hold
  · obtain ⟨pa, hpa⟩ := h.fresh v (by omega) hv
    refine ⟨_, hpa, ?_⟩
    rw [hasFlag_mkPte _ _ (by decide)]
    simp only [hasFlag_or, show hasFlag PTE_U PTE_U = true by decide, Bool.or_true, Bool.true_or]

structure Program where
  sz : ℕ
  n : ℕ
  L : ℕ → Option ℕ
  img : ℕ → UInt8

structure Building (s t : Kernel) (pt tf : ℕ) (ip : Ip) (file : Option (List UInt8)) (a : Program) : Prop
    extends Loading s t pt tf a.n a.sz a.L, Loadable s a.L a.n where
  reads : Reads ip file t.files.fs
  image : Image t.files.ram.mem a.L a.n a.img
  beyond : ∀ o, a.n * PGSIZE ≤ o → a.img o = 0

variable {a : Program}

theorem Building.fs (h : Building s t pt tf ip file a) {fs : Fs} (hfs : Reads ip file fs) :
    Building s { t with files := { t.files with fs := fs } } pt tf ip file a :=
  ⟨h.toLoading.fs fs, h.toLoadable, hfs, h.image, h.beyond⟩

theorem Building.close (h : Building s t pt tf ip file a) (fs : Fs) :
    Building s { t with files := { t.files with fs := fs } } pt tf ip none a :=
  ⟨h.toLoading.fs fs, h.toLoadable, fun f hf => (Option.not_mem_none f hf).elim, h.image, h.beyond⟩

-- uvmalloc to any size: it fails with 0, or the new size is large enough.
theorem uvmalloc_building {newsz xperm : ℕ} (h : Building s t pt tf ip file a) (hxperm : xperm < 2 ^ 10) :
    wp (KernelM.ram (uvmalloc pt a.sz newsz xperm)) (fun r u => ∃ b, Building s u pt tf ip file b ∧
      if r = 0 then b.sz = a.sz else b.sz = r ∧ r = max a.sz newsz ∧ b.img = a.img ∧
        Extends a.L b.L a.n b.n (PTE_R ||| PTE_U ||| xperm)) OnlyFsStop t := by
  have hown := h.toLoading.owned h.owned
  by_cases hle : a.sz ≤ newsz
  · refine wp_ram_of (uvmalloc_tail h.space (trapTop_clear _ _) h.fits hle hxperm hown) fun r ram hram => ?_
    rcases hram with ⟨rfl, N, m, hfits, hext, hspace, hzero, htail⟩ | ⟨rfl, hspace, htail⟩
    · have huses := (htail.frame (frames a.L 0 a.n)).congr rfl (hext.space_eq ram pt)
      have himage := h.image.extend h.beyond hext hzero (htail.kept hown)
      refine ⟨⟨r, m, N, a.img⟩, ⟨h.toLoading.ram hspace hfits huses, ⟨h.owned, h.kend, hext.isOpen h.userPages⟩,
        h.reads, himage, fun o ho => h.beyond o ?_⟩, ?_⟩
      · exact (Nat.mul_le_mul_right PGSIZE hext.le).trans ho
      · split
        · rename_i hzero
          change r = a.sz
          omega
        · exact ⟨rfl, by omega, rfl, hext⟩
    · have huses := htail.frame (frames a.L 0 a.n)
      refine ⟨a, ⟨h.toLoading.ram hspace h.fits huses, h.toLoadable, h.reads,
        h.image.congr (htail.kept hown), h.beyond⟩, ?_⟩
      rw [if_pos rfl]
  · have hstay : uvmalloc pt a.sz newsz xperm = pure a.sz := by
      rw [uvmalloc, if_pos (by omega)]
    rw [hstay, wp_ram, wp_pure]
    refine ⟨a, h, ?_⟩
    rw [if_neg (by omega)]
    exact ⟨rfl, by omega, rfl, .refl _ _ _⟩

structure Loads (f : List UInt8) (ph : ProgHdr) (a b : Program) : Prop where
  files : ph.filesz ≤ ph.memsz
  wrap : ph.vaddr + ph.memsz < 2 ^ 64
  align : ph.vaddr % PGSIZE = 0
  short : ph.filesz < 2 ^ 32
  inside : 0 < ph.filesz → ph.off % 2 ^ 32 + ph.filesz ≤ f.length
  sz : b.sz = max a.sz (ph.vaddr + ph.memsz)
  fits : Fits b.sz b.n
  pages : Extends a.L b.L a.n b.n (PTE_R ||| PTE_U ||| flags2perm ph.flags)
  img : b.img = overlay a.img ph.vaddr ph.filesz fun k => f.getD (ph.off % 2 ^ 32 + k) 0

inductive LoadRun (f : List UInt8) : List ProgHdr → Program → Program → Prop
  | nil (a : Program) : LoadRun f [] a a
  | skip {ph : ProgHdr} {phs : List ProgHdr} {a b : Program} (type : ph.type ≠ ELF_PROG_LOAD)
      (rest : LoadRun f phs a b) : LoadRun f (ph :: phs) a b
  | load {ph : ProgHdr} {phs : List ProgHdr} {a b c : Program} (type : ph.type = ELF_PROG_LOAD)
      (here : Loads f ph a b) (rest : LoadRun f phs b c) : LoadRun f (ph :: phs) a c

theorem loadHeader_spec (h : Building s t pt tf ip file a) {ph : ProgHdr} (hvaddr : ph.vaddr < 2 ^ 64)
    (hmemsz : ph.memsz < 2 ^ 64) :
    wp (loadHeader pt ip a.sz ph) (fun r u => ∃ b, Building s u pt tf ip file b ∧ r.1 = b.sz ∧
      (r.2 = true → ∀ f ∈ file, LoadRun f [ph] a b)) OnlyFsStop t := by
  have hsize : PGSIZE = 4096 := rfl
  have hstop : PHYSTOP / PGSIZE = 557056 := by decide
  unfold loadHeader
  simp only [wp_ite, wp_bind, wp_pure]
  split
  · rename_i htype
    exact ⟨a, h, rfl, fun _ f _ => .skip htype (.nil a)⟩
  split
  · exact ⟨a, h, rfl, fun hfalse => by cases hfalse⟩
  split
  · exact ⟨a, h, rfl, fun hfalse => by cases hfalse⟩
  split
  · exact ⟨a, h, rfl, fun hfalse => by cases hfalse⟩
  rename_i htype hfilesz hwrap halign
  have hsum : ph.vaddr + ph.memsz < 2 ^ 64 := by omega
  rw [Nat.mod_eq_of_lt hsum]
  refine wp_post (uvmalloc_building h (flags2perm_lt _)) fun r u hpost => ?_
  obtain ⟨b, hb, hr⟩ := hpost
  split
  · rename_i hzero
    rw [if_pos hzero] at hr
    exact ⟨b, hb, hr.symm, fun hfalse => by cases hfalse⟩
  rename_i hzero
  rw [if_neg hzero] at hr
  obtain ⟨hbsz, hrmax, hbimg, hext⟩ := hr
  have hn := (hb.toLoading.owned hb.owned).right.frames_le
  have hfit : r ≤ b.n * PGSIZE := by
    rw [← hbsz]
    exact hb.fits.1
  -- There is not so much memory that filesz could be 2^32 or more.
  have hshort : ph.filesz < 2 ^ 32 := by
    rw [hsize] at hfit
    omega
  have hbound : ¬2 ^ 32 - PGSIZE < ph.filesz := by
    rw [hsize] at hfit ⊢
    omega
  rw [loadseg, Nat.mod_eq_of_lt hshort, if_neg hbound]
  refine wp_post (loadsegLoop_spec (ph.off % 2 ^ 32) hb.toLoading hb.toLoadable hb.reads hb.image
    (not_not.mp halign) (Nat.zero_mod _) (by rw [Nat.sub_zero]) (by rw [hsize] at halign hfit ⊢; omega)
    fun _ => by omega) fun r' w hw => ?_
  obtain ⟨hloading, hfs, img', himage, hbeyond, hdone⟩ := hw
  have hc : Building s w pt tf ip file ⟨b.sz, b.n, b.L, img'⟩ :=
    ⟨hloading, hb.toLoadable, hfs, himage, fun o ho => (hbeyond o ho).trans (hb.beyond o ho)⟩
  split
  · exact ⟨_, hc, hbsz.symm, fun hfalse => by cases hfalse⟩
  · rename_i hnonneg
    refine ⟨_, hc, hbsz.symm, fun _ f hf => ?_⟩
    obtain ⟨hinside, hover⟩ := hdone hnonneg f hf
    rw [Nat.add_zero, Nat.sub_zero, hbimg, Nat.add_zero] at hover
    have hhere : Loads f ph a ⟨b.sz, b.n, b.L, img'⟩ :=
      ⟨by omega, hsum, not_not.mp halign, hshort, hinside, hbsz.trans hrmax, hb.fits, hext, hover⟩
    exact .load (not_not.mp htype) hhere (.nil _)

theorem ProgHdr.ofBytes_lt (b : ℕ → UInt8) :
    (ProgHdr.ofBytes b).vaddr < 2 ^ 64 ∧ (ProgHdr.ofBytes b).memsz < 2 ^ 64 := by
  refine ⟨?_, ?_⟩
  · have hlt := Bytes.load_lt b 16 8
    rwa [show (256 : ℕ) ^ 8 = 2 ^ 64 by decide] at hlt
  · have hlt := Bytes.load_lt b 40 8
    rwa [show (256 : ℕ) ^ 8 = 2 ^ 64 by decide] at hlt

theorem ProgHdr.ofBytes_congr {b b' : ℕ → UInt8} (h : ∀ k < PROGHDR_SIZE, b k = b' k) :
    ProgHdr.ofBytes b = ProgHdr.ofBytes b' := by
  have hload : ∀ base count, base + count ≤ PROGHDR_SIZE → Bytes.load b base count = Bytes.load b' base count :=
    fun base count hle => Bytes.load_congr _ _ _ _ fun k _ hk => h k (by omega)
  rw [ProgHdr.ofBytes, hload 0 4 (by decide), hload 4 4 (by decide), hload 8 8 (by decide), hload 16 8 (by decide),
    hload 32 8 (by decide), hload 40 8 (by decide), ProgHdr.ofBytes]

-- The header at an offset of the file, and count headers from there on.
def headerAt (f : List UInt8) (off : ℕ) : ProgHdr := .ofBytes fun k => f.getD (off + k) 0

def headers (f : List UInt8) (off count : ℕ) : List ProgHdr :=
  (List.range count).map fun i => headerAt f (off + PROGHDR_SIZE * i)

theorem headers_succ (f : List UInt8) (off count : ℕ) :
    headers f off (count + 1) = headerAt f off :: headers f (off + PROGHDR_SIZE) count := by
  unfold headers
  rw [List.range_succ_eq_map, List.map_cons, List.map_map, Nat.mul_zero, Nat.add_zero]
  congr 1
  refine List.map_congr_left fun i _ => ?_
  simp only [Function.comp_apply, Nat.mul_succ]
  congr 1
  omega

theorem LoadRun.append {f : List UInt8} {phs phs' : List ProgHdr} {a b c : Program} (h : LoadRun f phs a b)
    (h' : LoadRun f phs' b c) : LoadRun f (phs ++ phs') a c := by
  induction h with
  | nil a => exact h'
  | skip type _ ih => exact .skip type (ih h')
  | load type here _ ih => exact .load type here (ih h')

theorem loadLoop_spec {count off : ℕ} (h : Building s t pt tf ip file a) (hoff : off < 2 ^ 32) :
    wp (loadLoop pt ip count off a.sz) (fun r u => ∃ b, Building s u pt tf ip file b ∧ r.1 = b.sz ∧
      (r.2 = true → ∀ f ∈ file, LoadRun f (headers f off count) a b ∧
        (0 < count → off + PROGHDR_SIZE * count ≤ f.length))) OnlyFsStop t := by
  induction count generalizing t a off with
  | zero => exact ⟨a, h, rfl, fun _ f _ => ⟨.nil a, fun hlt => absurd hlt (Nat.lt_irrefl 0)⟩⟩
  | succ count ih =>
      rw [loadLoop]
      simp only [wp_bind]
      refine readKernel_spec h.reads (by decide) fun r fs hfs hgot => ?_
      simp only [wp_ite, wp_bind, wp_pure]
      split
      · exact ⟨a, h.fs hfs, rfl, fun hfalse => by cases hfalse⟩
      rename_i hall
      obtain ⟨hvaddr, hmemsz⟩ := ProgHdr.ofBytes_lt r.2
      refine wp_post (loadHeader_spec (h.fs hfs) hvaddr hmemsz) fun r' u hpost => ?_
      obtain ⟨b, hb, hsz, hrun⟩ := hpost
      split
      · rename_i hmore
        rw [hsz]
        refine wp_post (ih hb (Nat.mod_lt _ (by decide))) fun r'' w hw => ?_
        obtain ⟨c, hc, hsz', hrest⟩ := hw
        refine ⟨c, hc, hsz', fun htrue f hf => ?_⟩
        obtain ⟨hin, hbytes⟩ := hgot f hf (not_not.mp hall) (by decide)
        have hlength := h.reads.length_lt hf
        have hmod : (off + PROGHDR_SIZE) % 2 ^ 32 = off + PROGHDR_SIZE := Nat.mod_eq_of_lt (by omega)
        have hhere : ProgHdr.ofBytes r.2 = headerAt f off :=
          ProgHdr.ofBytes_congr fun k hk => by rw [hbytes k, if_pos hk]
        obtain ⟨hrun', hend⟩ := hrest htrue f hf
        rw [hmod] at hrun' hend
        refine ⟨?_, fun _ => ?_⟩
        · rw [headers_succ, ← hhere]
          exact (hrun hmore f hf).append hrun'
        · by_cases hcount : 0 < count
          · have := hend hcount
            rw [Nat.mul_succ]
            omega
          · rw [show count = 0 by omega]
            omega
      · exact ⟨b, hb, hsz, fun hfalse => by cases hfalse⟩

end Xv6
