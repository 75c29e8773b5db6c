import Xv6.Kernel
import Xv6.Vm.Space

namespace Xv6

open Wp Ram
open Function (update update_of_ne update_self)

variable {pagetable n : ℕ} {L top : ℕ → Option ℕ} {mem : Mem} {va : ℕ}

def trampolinePte (trampoline : ℕ) : ℕ := mkPte trampoline (PTE_R ||| PTE_X ||| PTE_V)

def trapframePte (trapframe : ℕ) : ℕ := mkPte trapframe (PTE_R ||| PTE_W ||| PTE_V)

def trapTop (trampoline trapframe : ℕ) : ℕ → Option ℕ :=
  update (update (fun _ => none) (TRAMPOLINE / PGSIZE) (some (trampolinePte trampoline)))
    (TRAPFRAME / PGSIZE) (some (trapframePte trapframe))

theorem trampoline_eq : TRAMPOLINE = TRAMPOLINE / PGSIZE * PGSIZE := by decide

theorem trapframe_eq : TRAPFRAME = TRAPFRAME / PGSIZE * PGSIZE := by decide

theorem trapTop_clear (trampoline trapframe : ℕ) : Clear (trapTop trampoline trapframe) := by
  intro v hv
  have hlt : TRAPFRAME / PGSIZE < TRAMPOLINE / PGSIZE := by decide
  rw [trapTop, update_of_ne (by omega), update_of_ne (by omega)]

theorem trapTop_guarded (trampoline trapframe : ℕ) : Guarded (trapTop trampoline trapframe) := by
  intro v pte h
  simp only [trapTop, Function.update_apply] at h
  split at h
  · cases h
    rw [trapframePte, hasFlag_mkPte _ _ (by decide)]
    decide
  split at h
  · cases h
    rw [trampolinePte, hasFlag_mkPte _ _ (by decide)]
    decide
  · cases h

variable {s : Ram}

theorem uvmcreate_spec (s : Ram) :
    wp uvmcreate (fun r t => match r with
      | none => Uses 0 0 s t
      | some pagetable => t.mem.tables 2 pagetable = {pagetable} ∧ Maps t.mem pagetable (fun _ => none) ∧
          Uses 0 {pagetable} s t) (fun _ => False) s := by
  rw [uvmcreate, wp_bind]
  refine wp_post (kalloc_spec s) fun r t ht => ?_
  cases r with
  | none => exact ht.1
  | some page =>
      have hzero : ∀ i < 512, (t.mem.memset page 0).pte page i = 0 := fun i _ => Mem.pte_memset_zero t.mem page i
      simp only [wp_bind, wp_modify, wp_pure]
      refine ⟨Mem.tables_of_zero hzero 2, ⟨Mem.dirs_of_zero hzero 2, fun va _ => ?_⟩, ?_⟩
      · exact Mem.entry_of_zero hzero 2 va
      · exact ht.trans (Uses.write t (Multiset.mem_singleton_self page) _)

-- A page above user memory is unmapped and kept.
theorem unmapTop_spec {v pte : ℕ} (h : Space s.mem pagetable L n top) (hv : n ≤ v) (hmax : (v + 1) * PGSIZE ≤ MAXVA)
    (htop : top v = some pte) (hpte : pteFlags pte ≠ PTE_V) (ho : s.Owned (s.space pagetable L n)) :
    wp (uvmunmap pagetable (v * PGSIZE) 1 false) (fun _ t =>
      Space t.mem pagetable (update L v none) n (update top v none) ∧
        Uses (s.space pagetable L n) (t.space pagetable (update L v none) n) s t)
      (fun _ => False) s := by
  have hfreed : freed false L v 1 = 0 := rfl
  have heq : unmapped L v 1 = update L v none := by
    rw [← unmapped_succ, unmapped_zero]
  have hframes : frames (update L v none) 0 n = frames L 0 n :=
    frames_congr fun w _ hw => update_of_ne (by omega) _ _
  have hunmap := uvmunmap_spec false hmax h.maps
    (fun w hw hw' => ⟨pte, by rw [show w = v by omega, h.above v hv, htop], hpte⟩)
    (by rw [hfreed, add_zero]; exact ho.left)
  rw [hfreed, add_zero, heq] at hunmap
  refine wp_post hunmap fun _ t hpost => ?_
  obtain ⟨-, hmaps, huses⟩ := hpost
  refine ⟨⟨hmaps, fun w hw => ?_, fun w hw => ?_⟩, ?_⟩
  · rw [update_of_ne (by omega)]
    exact h.user w hw
  · simp only [Function.update_apply]
    split
    · rfl
    · exact h.above w hw
  · rw [Ram.space, Ram.space, hframes]
    exact huses.frame _

theorem le_trapframe (ho : s.Owned (frames L 0 n)) : n ≤ TRAPFRAME / PGSIZE :=
  (lt_maxva_of_le ho.frames_le).le

theorem trampolinePte_leaf (trampoline : ℕ) : pteFlags (trampolinePte trampoline) ≠ PTE_V := by
  refine pteFlags_ne_of_readable ?_
  rw [trampolinePte, hasFlag_mkPte _ _ (by decide)]
  decide

theorem trapframePte_leaf (trapframe : ℕ) : pteFlags (trapframePte trapframe) ≠ PTE_V := by
  refine pteFlags_ne_of_readable ?_
  rw [trapframePte, hasFlag_mkPte _ _ (by decide)]
  decide

theorem procFreepagetable_spec {sz trampoline trapframe : ℕ}
    (h : Space s.mem pagetable L n (trapTop trampoline trapframe)) (hfits : Fits sz n)
    (ho : s.Owned (s.space pagetable L n)) :
    wp (procFreepagetable pagetable sz) (fun _ t => Uses (s.space pagetable L n) 0 s t)
      (fun _ => False) s := by
  have hn := le_trapframe ho.right
  have hlt : TRAPFRAME / PGSIZE < TRAMPOLINE / PGSIZE := by decide
  rw [procFreepagetable, wp_bind, trampoline_eq, trapframe_eq]
  have hfirst : trapTop trampoline trapframe (TRAMPOLINE / PGSIZE) = some (trampolinePte trampoline) := by
    rw [trapTop, update_of_ne (by omega), update_self]
  refine wp_post (unmapTop_spec h (by omega) (by decide) hfirst (trampolinePte_leaf _) ho)
    fun _ t hpost => ?_
  obtain ⟨ht, huses⟩ := hpost
  have hsecond : update (trapTop trampoline trapframe) (TRAMPOLINE / PGSIZE) none
      (TRAPFRAME / PGSIZE) = some (trapframePte trapframe) := by
    rw [update_of_ne (by omega), trapTop, update_self]
  rw [wp_bind]
  refine wp_post (unmapTop_spec ht hn (by decide) hsecond (trapframePte_leaf _) (huses.owned ho))
    fun _ u hpost => ?_
  obtain ⟨hu, huses'⟩ := hpost
  have hnone : update (update (trapTop trampoline trapframe) (TRAMPOLINE / PGSIZE) none)
      (TRAPFRAME / PGSIZE) none = fun _ => none := by
    funext v
    simp only [trapTop, Function.update_apply]
    split_ifs <;> rfl
  rw [hnone] at hu
  have hall := huses.trans huses'
  exact wp_post (uvmfree_spec hu hfits (hall.owned ho)) fun _ w hw => hall.trans hw

theorem Maps.space_zero (h : Maps mem pagetable L) :
    Space mem pagetable L 0 L :=
  ⟨h, fun _ hv => absurd hv (Nat.not_lt_zero _), fun _ _ => rfl⟩

theorem Ram.space_zero (s : Ram) (pagetable : ℕ) (L : ℕ → Option ℕ) :
    s.space pagetable L 0 = s.mem.tables 2 pagetable := add_zero _

-- uvmfree of a table without user memory, which undoes what was done since s.
theorem uvmfreeEmpty_spec {t : Ram} (ho : s.Owned 0)
    (hmaps : Maps t.mem pagetable fun _ => none) (huses : Uses 0 (t.mem.tables 2 pagetable) s t) :
    wp (uvmfree pagetable 0) (fun _ u => Uses 0 0 s u) (fun _ => False) t := by
  have hspace := t.space_zero pagetable fun _ => none
  have hfits : Fits 0 0 := ⟨Nat.zero_le _, by decide⟩
  have hown : t.Owned (t.space pagetable (fun _ => none) 0) := (huses.owned ho).congr hspace
  have hfree := uvmfree_spec hmaps.space_zero hfits hown
  exact wp_post hfree fun _ u hu => huses.trans (hu.congr hspace.symm rfl)

theorem procPagetable_spec {trampoline trapframe : ℕ} (ho : s.Owned 0) (htramp : trampoline < 2 ^ 44)
    (htrap : trapframe < 2 ^ 44) :
    wp (procPagetable trampoline trapframe) (fun r t => match r with
      | none => Uses 0 0 s t
      | some pagetable => Maps t.mem pagetable (trapTop trampoline trapframe) ∧
          Uses 0 (t.mem.tables 2 pagetable) s t) (fun _ => False) s := by
  have hlt : TRAPFRAME / PGSIZE < TRAMPOLINE / PGSIZE := by decide
  rw [procPagetable, wp_bind]
  refine wp_post (uvmcreate_spec s) fun r t ht => ?_
  cases r with
  | none => exact ht
  | some pagetable =>
      obtain ⟨htables, hmaps, huses⟩ := ht
      rw [← htables] at huses
      simp only [wp_bind]
      rw [trampoline_eq]
      refine wp_post (mappages_spec (by decide) hmaps rfl (huses.owned ho) htramp (by decide))
        fun r u hpost => ?_
      obtain ⟨huses₁, hr⟩ := hpost
      rcases hr with ⟨rfl, hmaps₁⟩ | ⟨rfl, hmaps₁⟩
      swap
      -- No page for a table on the way to TRAMPOLINE.
      · simp only [show (-1 : Int) < 0 by decide, ite_true, wp_bind]
        have hfree := uvmfreeEmpty_spec ho hmaps₁ (huses.trans huses₁)
        exact wp_post hfree fun _ _ hu => hu
      simp only [lt_irrefl, ite_false, wp_bind]
      rw [trapframe_eq]
      have hfree : update (fun _ => none) (TRAMPOLINE / PGSIZE)
          (some (mkPte trampoline (PTE_R ||| PTE_X ||| PTE_V))) (TRAPFRAME / PGSIZE) = none :=
        update_of_ne (by omega) _ _
      have huses₂ := huses.trans huses₁
      refine wp_post (mappages_spec (by decide) hmaps₁ hfree (huses₂.owned ho) htrap (by decide))
        fun r w hpost => ?_
      obtain ⟨huses₃, hr⟩ := hpost
      have hall := huses₂.trans huses₃
      rcases hr with ⟨rfl, hmaps₂⟩ | ⟨rfl, hmaps₂⟩
      · simp only [lt_irrefl, ite_false, wp_pure]
        exact ⟨hmaps₂, hall⟩
      -- TRAMPOLINE is unmapped again.
      · simp only [show (-1 : Int) < 0 by decide, ite_true, wp_bind]
        have hspace := w.space_zero pagetable
          (update (fun _ => none) (TRAMPOLINE / PGSIZE) (some (trampolinePte trampoline)))
        refine wp_post (unmapTop_spec hmaps₂.space_zero (Nat.zero_le _) (by decide)
          (update_self ..) (trampolinePte_leaf _) ((hall.owned ho).congr hspace)) fun _ x hpost => ?_
        obtain ⟨hx, hu⟩ := hpost
        rw [Function.update_idem, Function.update_eq_self_iff.mpr rfl] at hx
        have hback := hall.trans (hu.congr hspace.symm (x.space_zero pagetable _).symm)
        have hfree := uvmfreeEmpty_spec ho hx.maps hback
        exact wp_post hfree fun _ _ hu => hu

-- copyout changes user memory only, and so not the page table.
theorem copyoutRam_spec (h : Space s.mem pagetable L n top)
    (hguard : Guarded top) (ho : s.Owned (s.space pagetable L n)) (dstva : ℕ) (src : ℕ → UInt8) (len : ℕ) :
    wp (copyoutRam pagetable dstva src len) (fun _ t => Uses (frames L 0 n) (frames L 0 n) s t ∧
      Space t.mem pagetable L n top ∧ t.mem.tables 2 pagetable = s.mem.tables 2 pagetable) (fun _ => False) s := by
  have huses := copyout_uses h hguard ho dstva src len
  have hkept := huses.kept (R := s.mem.tables 2 pagetable) (ho.congr (add_comm _ _))
  exact ⟨huses, h.congr hkept, Mem.tables_congr hkept⟩

theorem Ram.space_congr {t : Ram}
    (h : ∀ q ∈ s.mem.tables 2 pagetable, t.mem q = s.mem q) : t.space pagetable L n = s.space pagetable L n := by
  rw [Ram.space, Mem.tables_congr h, Ram.space]

theorem Space.write {q : ℕ} (h : Space s.mem pagetable L n top)
    (ho : s.Owned (s.space pagetable L n)) (hq : q ∈ frames L 0 n) (page : Page) :
    let t := { s with mem := update s.mem q page }
    Space t.mem pagetable L n top ∧ Uses (s.space pagetable L n) (t.space pagetable L n) s t := by
  intro t
  have huses : Uses (frames L 0 n) (frames L 0 n) s t := Uses.write s hq page
  have hkept := huses.kept (R := s.mem.tables 2 pagetable) (ho.congr (add_comm _ _))
  refine ⟨h.congr hkept, ?_⟩
  rw [Ram.space_congr hkept]
  exact (huses.frame _).congr (add_comm _ _) (add_comm _ _)

-- What a program sees of its memory at va: the flags of the page and the byte.
def Mem.view (mem : Mem) (pagetable va : ℕ) : Option (ℕ × UInt8) :=
  (mem.leaf pagetable va).map fun pte => (pteFlags pte, mem (pte2pa pte) (va % PGSIZE))

theorem Space.leaf_below (h : Space mem pagetable L n top)
    (hva : va < TRAPFRAME) : mem.leaf pagetable va = L (va / PGSIZE) :=
  h.maps.leaf (lt_trans hva (by decide))

theorem Space.leaf_none (h : Space mem pagetable L n top)
    (hclear : Clear top) (hva : va < TRAPFRAME) (hn : n ≤ va / PGSIZE) : mem.leaf pagetable va = none := by
  rw [h.leaf_below hva, h.above _ hn]
  refine hclear _ ((Nat.div_lt_iff_lt_mul (by decide)).mpr ?_)
  rwa [← trapframe_eq]

-- Tables that map the same pages, with the same bytes in them.
theorem Space.view_eq {mem' : Mem} (h : Space mem pagetable L n top) (h' : Space mem' pagetable L n top)
    (hclear : Clear top) (hmem : ∀ q ∈ frames L 0 n, mem' q = mem q) (hva : va < TRAPFRAME) :
    mem'.view pagetable va = mem.view pagetable va := by
  unfold Mem.view
  by_cases hn : n ≤ va / PGSIZE
  · rw [h'.leaf_none hclear hva hn, h.leaf_none hclear hva hn]
    rfl
  · obtain ⟨pte, hpte, -⟩ := h.user (va / PGSIZE) (by omega)
    have hframe : pte2pa pte ∈ frames L 0 n := mem_frames_of (by omega) hpte
    rw [h'.leaf_below hva, h.leaf_below hva, hpte, Option.map_some, Option.map_some, hmem _ hframe]

-- It depends on the pages of the address space only.
theorem Space.view_congr {mem' : Mem} (h : Space mem pagetable L n top) (hclear : Clear top)
    (hmem : ∀ q ∈ mem.tables 2 pagetable + frames L 0 n, mem' q = mem q) (hva : va < TRAPFRAME) :
    mem'.view pagetable va = mem.view pagetable va := by
  have h' := h.congr fun q hq => hmem q (Multiset.mem_add.mpr (.inl hq))
  exact h.view_eq h' hclear (fun q hq => hmem q (Multiset.mem_add.mpr (.inr hq))) hva

theorem Twins.view {old new : ℕ} {N topold : ℕ → Option ℕ} (h : Twins mem L N n)
    (hold : Space mem old L n topold) (hnew : Space mem new N n top) (hclearold : Clear topold) (hclear : Clear top)
    (hva : va < TRAPFRAME) : mem.view new va = mem.view old va := by
  unfold Mem.view
  by_cases hn : n ≤ va / PGSIZE
  · rw [hnew.leaf_none hclear hva hn, hold.leaf_none hclearold hva hn]
  · obtain ⟨pte, pte', hpte, hpte', hflags, hsame⟩ := h (va / PGSIZE) (by omega)
    rw [hnew.leaf_below hva, hold.leaf_below hva, hpte, hpte', Option.map_some, Option.map_some, hflags, hsame]

end Xv6
