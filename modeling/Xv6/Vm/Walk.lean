import Xv6.Vm.Tables

namespace Xv6

open Wp Ram

theorem InRam.lt {kend pa : ℕ} (h : InRam kend pa) : pa < 2 ^ 44 := by
  have hlt : pa * PGSIZE < PHYSTOP := h.2
  have hstop : PHYSTOP = 2281701376 := by decide
  rw [hstop, show PGSIZE = 4096 from rfl] at hlt
  omega

def mkPte (pa flags : ℕ) : ℕ := pa2pte pa ||| flags

theorem mkPte_lt {pa flags : ℕ} (hpa : pa < 2 ^ 44) (hflags : flags < 2 ^ 10) :
    mkPte pa flags < 2 ^ 64 := by
  apply Nat.or_lt_two_pow
  · rw [pa2pte, Nat.shiftLeft_eq]
    omega
  · omega

theorem hasFlag_mkPte (pa flags : ℕ) {flag : ℕ} (hflag : flag < 2 ^ 10) :
    hasFlag (mkPte pa flags) flag = hasFlag flags flag := by
  rw [mkPte, hasFlag_or, hasFlag_pa2pte pa hflag, Bool.false_or]

theorem valid_mkPte (pa perm : ℕ) : hasFlag (mkPte pa (perm ||| PTE_V)) PTE_V = true := by
  rw [hasFlag_mkPte _ _ (by decide), hasFlag_or, show hasFlag PTE_V PTE_V = true by decide, Bool.or_true]

theorem wp_walkLevels_false {level pagetable va : ℕ} {post : Option PteAddr → Ram → Prop}
    {err : Panic → Prop} {s : Ram} :
    wp (walkLevels false level pagetable va) post err s ↔ post (s.mem.walk level pagetable va) s := by
  induction level generalizing pagetable with
  | zero => rfl
  | succ level ih =>
      simp only [walkLevels, wp_bind, wp_get, Mem.walk]
      split
      · exact ih
      · rfl

structure Grown (level pagetable : ℕ) (s t : Ram) : Prop where
  uses : Uses (s.mem.tables level pagetable) (t.mem.tables level pagetable) s t
  dirs : t.mem.Dirs level pagetable
  entry : ∀ va, t.mem.entry level pagetable va = s.mem.entry level pagetable va

namespace Grown

variable {level pagetable i : ℕ} {s t u : Ram}

theorem refl (hd : s.mem.Dirs level pagetable) : Grown level pagetable s s :=
  ⟨.refl _ s, hd, fun _ => rfl⟩

theorem trans (h : Grown level pagetable s t) (h' : Grown level pagetable t u) :
    Grown level pagetable s u :=
  ⟨h.uses.trans h'.uses, h'.dirs, fun va => (h'.entry va).trans (h.entry va)⟩

theorem of_mem_eq (hd : s.mem.Dirs level pagetable) (hu : Uses 0 0 s t) (hm : t.mem = s.mem) :
    Grown level pagetable s t := by
  refine ⟨?_, by rwa [hm], fun va => by rw [hm]⟩
  rw [hm]
  exact (hu.frame (s.mem.tables level pagetable)).congr (zero_add _).symm (zero_add _).symm

private theorem split_child {mem : Mem} (level : ℕ) (hi : i < 512) (hv : hasFlag (mem.pte pagetable i) PTE_V = true) :
    mem.tables (level + 1) pagetable = mem.tables level (pte2pa (mem.pte pagetable i)) +
      ({pagetable} + mem.siblings level pagetable i) := by
  rw [Mem.tables_succ mem level pagetable hi, Mem.branch_of_valid hv]
  ac_rfl

theorem lift (hi : i < 512) (ho : s.Owned (s.mem.tables (level + 1) pagetable)) (hd : s.mem.Dirs (level + 1) pagetable)
    (hv : hasFlag (s.mem.pte pagetable i) PTE_V = true) (h : Grown level (pte2pa (s.mem.pte pagetable i)) s t) :
    Grown (level + 1) pagetable s t ∧ t.mem.pte pagetable i = s.mem.pte pagetable i := by
  have hsplit := split_child level hi hv
  have hkept := h.uses.kept (ho.congr hsplit.symm)
  have hpte : ∀ j, t.mem.pte pagetable j = s.mem.pte pagetable j :=
    Mem.pte_congr (hkept pagetable (by simp))
  have hsame : Mem.SameBut s.mem t.mem level pagetable i :=
    ⟨fun j _ => hpte j, fun q hq => hkept q (Multiset.mem_add.mpr (.inr hq))⟩
  refine ⟨⟨?_, ?_, fun va => ?_⟩, hpte i⟩
  · have hv' : hasFlag (t.mem.pte pagetable i) PTE_V = true := by rw [hpte, hv]
    have hsplit' := split_child level hi hv'
    rw [hsplit, hsplit', hpte i, hsame.siblings]
    exact h.uses.frame _
  · refine hsame.dirs hd fun _ => ?_
    rw [hpte]
    exact ⟨(hd i hi hv).1, h.dirs⟩
  · by_cases hva : px (level + 1) va = i
    · rw [Mem.entry_succ, Mem.entry_succ, hva, hpte, if_pos hv, if_pos hv, h.entry]
    · exact hsame.entry hva

-- A fresh page becomes the table below an entry that had none.
theorem attach (hi : i < 512) (ho : s.Owned (s.mem.tables (level + 1) pagetable))
    (hd : s.mem.Dirs (level + 1) pagetable) (hv : hasFlag (s.mem.pte pagetable i) PTE_V = false)
    {page : ℕ} (hu : Uses 0 {page} s t) :
    let t' := { t with mem := (t.mem.memset page 0).setPte pagetable i (mkPte page PTE_V) }
    Grown (level + 1) pagetable s t' ∧ t'.mem.pte pagetable i = mkPte page PTE_V := by
  intro t'
  set T := s.mem.tables (level + 1) pagetable with hT
  have huT : Uses T ({page} + T) s t := (hu.frame T).congr (zero_add _).symm rfl
  have ho' := huT.owned ho
  have hroot : pagetable ∈ T := Mem.root_mem_tables _ _ _
  have hpage : page ∉ T := by
    have hn := ho'.nodup
    rw [Multiset.singleton_add, Multiset.nodup_cons] at hn
    exact hn.1
  have hne : page ≠ pagetable := fun he => hpage (he ▸ hroot)
  have hkept : ∀ q ∈ T, t.mem q = s.mem q := hu.kept (ho.congr (zero_add T))
  have hbound : mkPte page PTE_V < 2 ^ 64 := by
    have hin : InRam t.kend page := ho'.inRam (by simp)
    exact mkPte_lt hin.lt (by decide)
  have hother : ∀ q ∈ T, q ≠ pagetable → t'.mem q = s.mem q := by
    intro q hq hqne
    have hqpage : q ≠ page := fun he => hpage (he ▸ hq)
    change ((t.mem.memset page 0).setPte pagetable i (mkPte page PTE_V)) q = s.mem q
    rw [Mem.setPte, Function.update_of_ne hqne, Mem.memset, Function.update_of_ne hqpage, hkept q hq]
  have hzero : ∀ j < 512, t'.mem.pte page j = 0 := by
    intro j _
    change ((t.mem.memset page 0).setPte pagetable i (mkPte page PTE_V)).pte page j = 0
    rw [Mem.pte_setPte_page _ _ _ _ hne, Mem.pte_memset_zero]
  have hpte : t'.mem.pte pagetable i = mkPte page PTE_V := by
    change ((t.mem.memset page 0).setPte pagetable i (mkPte page PTE_V)).pte pagetable i = _
    rw [Mem.pte_setPte_self, Nat.mod_eq_of_lt hbound]
  have hvalid : hasFlag (t'.mem.pte pagetable i) PTE_V = true := by
    rw [hpte, hasFlag_mkPte _ _ (by decide)]
    decide
  have hchild : pte2pa (t'.mem.pte pagetable i) = page := by
    rw [hpte, mkPte, pte2pa_or page (by decide)]
  have hsame : Mem.SameBut s.mem t'.mem level pagetable i := by
    constructor
    · intro j hj
      change ((t.mem.memset page 0).setPte pagetable i (mkPte page PTE_V)).pte pagetable j = _
      rw [Mem.pte_setPte_of_ne _ _ _ hj]
      apply Mem.pte_congr
      rw [Mem.memset, Function.update_of_ne (Ne.symm hne), hkept pagetable hroot]
    · intro q hq
      have hn := ho.nodup
      rw [hT, Mem.tables_succ s.mem level pagetable hi, Mem.branch_of_not hv, add_zero,
        Multiset.singleton_add, Multiset.nodup_cons] at hn
      refine hother q (Multiset.mem_of_le (Mem.siblings_le_tables hi) hq) ?_
      rintro rfl
      exact hn.1 hq
  have htables : t'.mem.tables (level + 1) pagetable = {page} + T := by
    rw [hT, Mem.tables_succ t'.mem level pagetable hi, Mem.tables_succ s.mem level pagetable hi,
      Mem.branch_of_valid hvalid, Mem.branch_of_not hv, hchild, Mem.tables_of_zero hzero,
      hsame.siblings]
    ac_rfl
  refine ⟨⟨?_, ?_, fun va => ?_⟩, hpte⟩
  · rw [htables]
    have hmemset : Uses ({page} + T) ({page} + T) t { t with mem := t.mem.memset page 0 } :=
      Uses.write t (Multiset.mem_add.mpr (.inl (Multiset.mem_singleton_self page))) _
    exact huT.trans (hmemset.trans (Uses.write _ (Multiset.mem_add.mpr (.inr hroot)) _))
  · refine hsame.dirs hd fun _ => ⟨?_, ?_⟩
    · rw [hpte, mkPte, pteFlags_or page (by decide)]
    · rw [hchild]
      exact Mem.dirs_of_zero hzero level
  · by_cases hva : px (level + 1) va = i
    · rw [Mem.entry_succ, Mem.entry_succ, hva, hvalid, hv, hchild, Mem.entry_of_zero hzero]
      rfl
    · exact hsame.entry hva

end Grown

theorem walkLevels_spec {level pagetable : ℕ} {s : Ram} (va : ℕ)
    (ho : s.Owned (s.mem.tables level pagetable)) (hd : s.mem.Dirs level pagetable) :
    wp (walkLevels true level pagetable va) (fun r t => Grown level pagetable s t ∧
      ∀ a, r = some a → t.mem.walk level pagetable va = some a) (fun _ => False) s := by
  induction level generalizing pagetable s with
  | zero => exact ⟨.refl hd, fun a ha => ha⟩
  | succ level ih =>
      -- Down into the table below the entry for va, once there is one.
      have hdown : ∀ {t : Ram}, Grown (level + 1) pagetable s t →
          hasFlag (t.mem.pte pagetable (px (level + 1) va)) PTE_V = true →
          wp (walkLevels true level (pte2pa (t.mem.pte pagetable (px (level + 1) va))) va)
            (fun r t => Grown (level + 1) pagetable s t ∧
              ∀ a, r = some a → t.mem.walk (level + 1) pagetable va = some a) (fun _ => False) t := by
        intro t hg hv
        have hot := hg.uses.owned ho
        have hchild := ih (hot.mono (Mem.child_le_tables (px_lt _ _) hv))
          (hg.dirs _ (px_lt _ _) hv).2
        refine wp_post hchild fun r u hu => ?_
        obtain ⟨hlift, hpte⟩ := Grown.lift (px_lt _ _) hot hg.dirs hv hu.1
        refine ⟨hg.trans hlift, fun a ha => ?_⟩
        rw [Mem.walk, hpte, if_pos hv]
        exact hu.2 a ha
      simp only [walkLevels, wp_bind, wp_get]
      split
      · rename_i hv
        exact hdown (.refl hd) hv
      · rename_i hv
        simp only [Bool.not_true, Bool.false_eq_true, ite_false, wp_bind]
        refine wp_post (kalloc_spec s) fun r t ht => ?_
        cases r with
        | none =>
            refine ⟨.of_mem_eq hd ht.1 ht.2, ?_⟩
            rintro a ⟨⟩
        | some page =>
            obtain ⟨hg, hpte⟩ := Grown.attach (px_lt (level + 1) va) ho hd (by simpa using hv) ht
            have hvalid : hasFlag (mkPte page PTE_V) PTE_V = true := by
              rw [hasFlag_mkPte _ _ (by decide)]
              decide
            have hwalk := hdown hg (by rw [hpte, hvalid])
            rw [hpte, mkPte, pte2pa_or page (by decide)] at hwalk
            exact hwalk

end Xv6
