import Xv6.Umalloc.Theorems

namespace Xv6.Umalloc

open Chain Transition

namespace Heap

-- The largest block that one call may ask for, in units, and the blocks of a process that asks
-- for nothing else.
def LARGE : ℕ := 2 ^ 27 - 1

def large (i : ℕ) : ℕ × ℕ := (8192 + HEADER * LARGE * i, LARGE)

def larges : ℕ → List (ℕ × ℕ)
  | 0 => []
  | k + 1 => large k :: larges k

theorem nunits_large : nunits (HEADER * (LARGE - 1)) = LARGE := by
  unfold nunits HEADER LARGE
  norm_num

theorem large_fits : HEADER * nunits (HEADER * (LARGE - 1)) < 2 ^ 31 := by
  rw [nunits_large]
  unfold HEADER LARGE
  norm_num

structure Full (k : ℕ) (h : Heap) : Prop where
  base_eq : h.base = 4096
  freep : h.freep = 4096
  next : ptr h.mem 4096 = 4096
  base_size : size h.mem 4096 = 0
  top : h.top = (large k).1
  total : h.total = HEADER * LARGE * k
  live : h.live = larges k
  sizes : ∀ i < k, size h.mem (large i).1 = LARGE

structure Merged (k n : ℕ) (h : Heap) : Prop where
  base_eq : h.base = 4096
  freep : h.freep = 4096
  base_size : size h.mem 4096 = 0
  next : ptr h.mem 4096 = (large k).1
  wrap : ptr h.mem (large k).1 = 4096
  merged : size h.mem (large k).1 = n * LARGE % 2 ^ 32
  total : h.total = HEADER * LARGE * (k + n)
  live : h.live = larges k
  sizes : ∀ i < k, size h.mem (large i).1 = LARGE

theorem large_far {i k : ℕ} (h : i ≠ k) : Far (large i).1 (large k).1 := by
  unfold Far large HEADER LARGE
  dsimp only
  omega

theorem far_base (k : ℕ) : Far 4096 (large k).1 := by
  unfold Far large HEADER LARGE
  dsimp only
  omega

theorem large_room {k : ℕ} (hk : k ≤ 33) : 4096 < (large k).1 ∧ (large k).1 < 2 ^ 38 := by
  unfold large HEADER LARGE
  dsimp only
  omega

theorem large_succ (k : ℕ) : (large k).1 + HEADER * LARGE = (large (k + 1)).1 := by
  unfold large
  dsimp only
  rw [Nat.mul_succ, Nat.add_assoc]

def link (mem : ℕ → UInt8) (bp : ℕ) : ℕ → UInt8 := setPtr (setPtr mem bp 4096) 4096 bp

section Link

variable {mem : ℕ → UInt8} {k : ℕ}

theorem link_next (hk : k ≤ 33) : ptr (link mem (large k).1) 4096 = (large k).1 := by
  have hlt := (large_room hk).2
  exact (ptr_setPtr ..).trans (Nat.mod_eq_of_lt (by omega))

theorem link_wrap : ptr (link mem (large k).1) (large k).1 = 4096 :=
  (ptr_setPtr_far _ _ (far_base k)).trans ((ptr_setPtr ..).trans rfl)

theorem link_base_size : size (link mem (large k).1) 4096 = size mem 4096 :=
  (size_setPtr_self ..).trans (size_setPtr_far _ _ (far_base k).symm)

theorem link_size (i : ℕ) : size (link mem (large k).1) (large i).1 = size mem (large i).1 := by
  refine (size_setPtr_far _ _ (far_base i)).trans ?_
  by_cases hik : k = i
  · rw [hik]
    exact size_setPtr_self ..
  · exact size_setPtr_far _ _ (large_far hik)

end Link

section Free

variable {h : Heap} {k : ℕ}

-- free(bp) with freep at base and bp before the rest of the list.
theorem free_base (fuel : ℕ) (hfreep : h.freep = 4096) (hbp : 4096 < (large k).1)
    (hplace : (large k).1 < ptr h.mem 4096 ∨ ptr h.mem 4096 = 4096) :
    h.free (fuel + 1) ((large k).1 + HEADER) = some { h with
      mem := joinPrev (joinNext h.mem 4096 (large k).1) 4096 (large k).1, freep := 4096 } := by
  unfold Heap.free findPlace
  dsimp only
  rw [hfreep, Nat.add_sub_cancel]
  rcases hplace with hlt | heq
  · rw [if_pos ⟨hbp, hlt⟩]
  · rw [heq, if_neg (by omega), if_pos ⟨le_rfl, .inl hbp⟩]

theorem joinPrev_base {mem : ℕ → UInt8} (hsize : size mem 4096 = 0) (hbp : 4096 < (large k).1) :
    joinPrev mem 4096 (large k).1 = setPtr mem 4096 (large k).1 := by
  unfold joinPrev
  rw [hsize, if_neg (by omega)]

theorem join_empty {mem : ℕ → UInt8} (hnext : ptr mem 4096 = 4096) (hsize : size mem 4096 = 0)
    (hbp : 4096 < (large k).1) :
    joinPrev (joinNext mem 4096 (large k).1) 4096 (large k).1 = link mem (large k).1 := by
  have hjoin : joinNext mem 4096 (large k).1 = setPtr mem (large k).1 4096 := by
    unfold joinNext
    rw [hnext, if_neg (by omega)]
  rw [hjoin]
  exact joinPrev_base ((size_setPtr_far _ _ (far_base k).symm).trans hsize) hbp

theorem Full.free (full : Full (k + 1) h) (hk : k ≤ 33) : ∃ t, Step (2 ^ 37) h t ∧ Merged k 1 t := by
  have hroom := large_room hk
  have hsize := full.sizes k (Nat.lt_succ_self k)
  have hrun := free_base 0 full.freep hroom.1 (.inr full.next)
  rw [join_empty full.next full.base_size hroom.1] at hrun
  have hlive : large k ∈ h.live := full.live ▸ List.mem_cons_self
  refine ⟨_, Step.free 1 (large k) hlive hrun, full.base_eq, rfl, link_base_size.trans full.base_size, link_next hk,
    link_wrap, (link_size k).trans (hsize.trans rfl), full.total, ?_, fun i hi => ?_⟩
  · change h.live.erase (large k) = larges k
    rw [full.live]
    exact List.erase_cons_head ..
  · exact (link_size i).trans (full.sizes i (hi.trans (Nat.lt_succ_self k)))

theorem Merged.free {n : ℕ} (merged : Merged (k + 1) n h) (hk : k ≤ 33) :
    ∃ t, Step (2 ^ 37) h t ∧ Merged k (n + 1) t := by
  have hroom := large_room hk
  have hsize := merged.sizes k (Nat.lt_succ_self k)
  have hnext := merged.next
  have hfar := large_far (Nat.lt_succ_self k).ne
  have hjoin : joinPrev (joinNext h.mem 4096 (large k).1) 4096 (large k).1 =
      link (setSize h.mem (large k).1 (LARGE + n * LARGE % 2 ^ 32)) (large k).1 := by
    have hjoinNext : joinNext h.mem 4096 (large k).1 =
        setPtr (setSize h.mem (large k).1 (LARGE + n * LARGE % 2 ^ 32)) (large k).1 4096 := by
      unfold joinNext
      rw [hsize, hnext, large_succ, if_pos rfl, merged.merged]
      dsimp only
      rw [ptr_setSize_far _ _ (far_base k).symm, hnext, ptr_setSize_far _ _ hfar, merged.wrap]
    rw [hjoinNext]
    refine joinPrev_base ?_ hroom.1
    rw [size_setPtr_far _ _ (far_base k).symm, size_setSize_far _ _ (far_base k).symm]
    exact merged.base_size
  have hlt : (large k).1 < ptr h.mem 4096 := by
    rw [hnext, ← large_succ]
    exact Nat.lt_add_of_pos_right (by decide)
  have hrun := free_base 0 merged.freep hroom.1 (.inl hlt)
  rw [hjoin] at hrun
  have hlive : large k ∈ h.live := merged.live ▸ List.mem_cons_self
  refine ⟨_, Step.free 1 (large k) hlive hrun, merged.base_eq, rfl, ?_, link_next hk, link_wrap, ?_, ?_, ?_,
    fun i hi => ?_⟩
  · refine link_base_size.trans ((size_setSize_far _ _ (far_base k).symm).trans merged.base_size)
  · refine (link_size k).trans ((size_setSize ..).trans ?_)
    rw [Nat.add_mod_mod, Nat.succ_mul, Nat.add_comm]
  · refine merged.total.trans ?_
    rw [Nat.add_right_comm, Nat.add_assoc]
  · change h.live.erase (large k) = larges k
    rw [merged.live]
    exact List.erase_cons_head ..
  · refine (link_size i).trans ((size_setSize_far _ _ (large_far hi.ne')).trans ?_)
    exact merged.sizes i (hi.trans (Nat.lt_succ_self k))

end Free

section Malloc

variable {h : Heap} {k : ℕ}

-- sbrk gives out one block right at the end of the heap.
theorem sbrk_large (htop : h.top = (large k).1) (htotal : h.total = HEADER * LARGE * k) (hk : k ≤ 32) :
    ∃ mem, h.sbrk (2 ^ 37) (some 0) (LARGE * HEADER) = some ((large k).1, { h with
      mem := mem, top := (large (k + 1)).1, regions := ((large k).1, LARGE * HEADER) :: h.regions }) ∧
      ∀ x < (large k).1, mem x = h.mem x := by
  have hlt := (large_room (k := k + 1) (by omega)).2
  rw [← large_succ, Nat.mul_comm HEADER] at hlt
  have hfits : h.total + LARGE * HEADER ≤ 2 ^ 37 ∧ h.top + 0 + LARGE * HEADER < 2 ^ 64 := by
    rw [htop, htotal, Nat.add_zero]
    refine ⟨?_, by omega⟩
    unfold HEADER LARGE
    omega
  unfold Heap.sbrk
  dsimp only
  rw [if_pos hfits, Nat.add_zero, htop, Nat.mul_comm LARGE, large_succ, Nat.mul_comm HEADER]
  exact ⟨_, rfl, fun x hx => if_neg fun hin => absurd hx hin.1.not_gt⟩

variable (sbrk : ℕ → Heap → ℕ → Option (ℕ × Heap))

theorem morecore_of_sbrk (calls : ℕ) {fuel nu p : ℕ} {t t' : Heap} (hnu : ¬nu < 4096)
    (hsbrk : sbrk calls h (nu * HEADER) = some (p, t))
    (hfree : ({ t with mem := setSize t.mem p nu } : Heap).free fuel (p + HEADER) = some t') :
    morecore sbrk fuel calls h nu = some (t'.freep, t') := by
  unfold Heap.morecore
  dsimp only
  rw [if_neg hnu, hsbrk]
  dsimp only
  rw [hfree]

-- The loop is at freep with nothing large enough, asks for more, and takes the block after freep.
theorem mallocLoop_of_morecore {n p : ℕ} {t : Heap} (fuel prevp : ℕ) (hfreep : p = h.freep)
    (hsmall : size h.mem p < n) (hmore : morecore sbrk (fuel + 1) 0 h n = some (t.freep, t))
    (hne : t.freep ≠ 0) (hsize : size t.mem (ptr t.mem t.freep) = n) :
    mallocLoop sbrk n (fuel + 1 + 1) 0 prevp p h = some (ptr t.mem t.freep + HEADER, { t with
      mem := setPtr t.mem t.freep (ptr t.mem (ptr t.mem t.freep)) }) := by
  rw [Heap.mallocLoop, if_neg (by omega), if_pos hfreep, hmore]
  dsimp only
  rw [if_neg hne, Heap.mallocLoop, if_pos hsize.ge]
  unfold Heap.take
  rw [if_pos hsize]

-- The loop asks for a block, which is then the only one of the list, and takes it.
theorem Full.mallocLoop (full : Full k h) (hk : k ≤ 32) :
    ∃ mem, mallocLoop (fun _ h n => h.sbrk (2 ^ 37) (some 0) n) LARGE 3 0 4096 4096 h =
      some ((large k).1 + HEADER, { h with
      mem := mem, freep := 4096, top := (large (k + 1)).1,
      regions := ((large k).1, LARGE * HEADER) :: h.regions }) ∧
      ptr mem 4096 = 4096 ∧ size mem 4096 = 0 ∧ ∀ i < k + 1, size mem (large i).1 = LARGE := by
  have hroom := large_room (k := k) (by omega)
  obtain ⟨mem, hsbrk, hbelow⟩ := sbrk_large full.top full.total hk
  have hkeep : ∀ x, x + HEADER ≤ (large k).1 → ptr mem x = ptr h.mem x ∧ size mem x = size h.mem x := fun x hx =>
    header_congr fun y _ hy => hbelow y (hy.trans_le hx)
  have hbase := hkeep 4096 ((far_base k).resolve_right (by unfold HEADER; omega))
  have hnext : ptr (setSize mem (large k).1 LARGE) 4096 = 4096 :=
    (ptr_setSize_far _ _ (far_base k).symm).trans (hbase.1.trans full.next)
  have hsize : size (setSize mem (large k).1 LARGE) 4096 = 0 :=
    (size_setSize_far _ _ (far_base k).symm).trans (hbase.2.trans full.base_size)
  have hnew : size (setSize mem (large k).1 LARGE) (large k).1 = LARGE := (size_setSize ..).trans rfl
  have hmorecore : morecore (fun _ h n => h.sbrk (2 ^ 37) (some 0) n) 2 0 h LARGE = some (4096, { h with
      mem := link (setSize mem (large k).1 LARGE) (large k).1, freep := 4096, top := (large (k + 1)).1,
      regions := ((large k).1, LARGE * HEADER) :: h.regions }) := by
    have hfree := free_base (h := { h with
      mem := setSize mem (large k).1 LARGE, top := (large (k + 1)).1,
      regions := ((large k).1, LARGE * HEADER) :: h.regions }) 1 full.freep hroom.1 (.inr hnext)
    rw [← join_empty hnext hsize hroom.1]
    exact morecore_of_sbrk (fun _ h n => h.sbrk (2 ^ 37) (some 0) n) 0 (by decide) hsbrk hfree
  refine ⟨setPtr (link (setSize mem (large k).1 LARGE) (large k).1) 4096 4096, ?_, (ptr_setPtr ..).trans rfl, ?_,
    fun i hi => ?_⟩
  · have hsmall : size h.mem 4096 < LARGE := full.base_size.trans_lt (by decide)
    have hlink : ptr (link (setSize mem (large k).1 LARGE) (large k).1) 4096 = (large k).1 := link_next (by omega)
    have hfound : size (link (setSize mem (large k).1 LARGE) (large k).1)
        (ptr (link (setSize mem (large k).1 LARGE) (large k).1) 4096) = LARGE := by
      rw [hlink, link_size, hnew]
    have hloop := mallocLoop_of_morecore _ (t := { h with
      mem := link (setSize mem (large k).1 LARGE) (large k).1, freep := 4096, top := (large (k + 1)).1,
      regions := ((large k).1, LARGE * HEADER) :: h.regions }) 1 4096 full.freep.symm hsmall hmorecore
      (by decide : 4096 ≠ 0) hfound
    dsimp only at hloop
    rw [hlink, link_wrap] at hloop
    exact hloop
  · exact (size_setPtr_self ..).trans (link_base_size.trans hsize)
  · refine (size_setPtr_far _ _ (far_base i)).trans ((link_size i).trans ?_)
    rcases Nat.lt_succ_iff_lt_or_eq.mp hi with hlt | rfl
    · refine (size_setSize_far _ _ (large_far hlt.ne')).trans ((hkeep _ ?_).2.trans (full.sizes i hlt))
      exact (large_far hlt.ne).resolve_right (by unfold large HEADER LARGE; dsimp only; omega)
    · exact hnew

theorem Full.malloc (full : Full k h.ready) (hk : k ≤ 32) :
    ∃ t, Step (2 ^ 37) h t ∧ Full (k + 1) t := by
  obtain ⟨mem, hloop, hnext, hbase, hsizes⟩ := full.mallocLoop hk
  have hrun : h.malloc (2 ^ 37) (fun _ => some 0) 3 (HEADER * (LARGE - 1)) =
      Heap.mallocLoop (fun _ h n => h.sbrk (2 ^ 37) (some 0) n) LARGE 3 0 4096 4096 h.ready := by
    unfold Heap.malloc mallocOf
    dsimp only
    rw [full.freep, full.next, nunits_large]
  rw [hloop] at hrun
  refine ⟨_, Step.malloc 3 (HEADER * (LARGE - 1)) _ _ large_fits hrun, ?_⟩
  have hne : (large k).1 + HEADER ≠ 0 := Nat.succ_ne_zero _
  unfold Heap.give
  rw [if_neg hne, Nat.add_sub_cancel]
  refine ⟨full.base_eq, rfl, hnext, hbase, rfl, ?_, ?_, hsizes⟩
  · change LARGE * HEADER + h.ready.total = HEADER * LARGE * (k + 1)
    rw [full.total, Nat.mul_succ, Nat.add_comm, Nat.mul_comm LARGE]
  · change ((large k).1, size mem (large k).1) :: h.ready.live = larges (k + 1)
    rw [hsizes k (Nat.lt_succ_self k), full.live]
    rfl

end Malloc

theorem full_start : Full 0 (start (fun _ => 0) 4096 8192).ready := by
  refine ⟨rfl, rfl, ?_, (size_setSize ..).trans rfl, rfl, rfl, rfl, fun i hi => absurd hi (Nat.not_lt_zero i)⟩
  exact (ptr_setSize_self ..).trans ((ptr_setPtr ..).trans rfl)

theorem exists_full {k : ℕ} (hk : k ≤ 32) :
    ∃ h, Reaches (Step (2 ^ 37)) (start (fun _ => 0) 4096 8192) h ∧ Full (k + 1) h := by
  induction k with
  | zero =>
      obtain ⟨t, hstep, full⟩ := full_start.malloc (Nat.zero_le 32)
      exact ⟨t, .single hstep, full⟩
  | succ k ih =>
      obtain ⟨h, hrun, full⟩ := ih (by omega)
      have hready : h.ready = h := ready_of_pos (full.freep ▸ by decide)
      obtain ⟨t, hstep, full'⟩ := Full.malloc (hready.symm ▸ full) hk
      exact ⟨t, hrun.tail hstep, full'⟩

theorem exists_merged {n : ℕ} (hn : n ≤ 32) :
    ∃ h, Reaches (Step (2 ^ 37)) (start (fun _ => 0) 4096 8192) h ∧ Merged (32 - n) (n + 1) h := by
  induction n with
  | zero =>
      obtain ⟨h, hrun, full⟩ := exists_full le_rfl
      obtain ⟨t, hstep, merged⟩ := full.free (by decide)
      exact ⟨t, hrun.tail hstep, merged⟩
  | succ n ih =>
      obtain ⟨h, hrun, merged⟩ := ih (by omega)
      rw [show 32 - n = 32 - (n + 1) + 1 by omega] at merged
      obtain ⟨t, hstep, merged'⟩ := merged.free (by omega)
      exact ⟨t, hrun.tail hstep, merged'⟩

-- A free list with this one block has its size.
theorem Merged.units_eq {n : ℕ} {h : Heap} (merged : Merged 0 n h) {l : List (ℕ × ℕ)} (hl : FreeList h.mem h.base l) :
    units l = n * LARGE % 2 ^ 32 := by
  have hcycle := hl.cycle
  rw [merged.base_eq] at hcycle
  cases l with
  | nil =>
      have hnext : ptr h.mem 4096 = 4096 := hcycle
      rw [merged.next] at hnext
      exact absurd hnext (by decide)
  | cons b l =>
      have hb : b.1 = (large 0).1 := hcycle.1.symm.trans merged.next
      cases l with
      | nil =>
          have hsize := hl.sizes b List.mem_cons_self
          rw [hb, merged.merged] at hsize
          rw [units_cons, units_nil, ← hsize, Nat.add_zero]
      | cons c l =>
          have hwrap : ptr h.mem b.1 = c.1 := hcycle.2.1
          have hroom := (hl.room c (by simp)).1
          rw [← hwrap, hb, merged.wrap, merged.base_eq] at hroom
          exact absurd hroom (by decide)

-- With 2 ^ 37 bytes for the process, 33 blocks of the largest size come back as one free block whose
-- size does not fit into its 32 bits.
theorem allocator_overflow :
    ∃ h, Reaches (Step (2 ^ 37)) (start (fun _ => 0) 4096 8192) h ∧ h.live = [] ∧
      ¬∃ l, FreeList h.mem h.base l ∧ HEADER * (units l + units h.live) = h.total := by
  obtain ⟨h, hrun, merged⟩ := exists_merged le_rfl
  refine ⟨h, hrun, merged.live, fun ⟨l, hl, htotal⟩ => ?_⟩
  rw [merged.units_eq hl, merged.live, merged.total] at htotal
  unfold larges units HEADER LARGE at htotal
  norm_num at htotal

end Heap

end Xv6.Umalloc
