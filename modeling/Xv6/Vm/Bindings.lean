import Xv6.Kernel.Pagetable
import Xv6.Lib.Transition

namespace Xv6

open Wp Ram Transition
open Function (update update_of_ne update_self)

variable {pagetable v pa perm : ℕ} {L : ℕ → Option ℕ} {s t u : Ram}

-- The bindings once n pages from v on are bound to those from pa on.
def bound (L : ℕ → Option ℕ) (v pa perm n : ℕ) : ℕ → Option ℕ :=
  fun w => if v ≤ w ∧ w < v + n then some (mkPte (pa + (w - v)) (perm ||| PTE_V)) else L w

inductive TableCall
  | walk (va : ℕ)
  | mappages (va size pa perm : ℕ)
  | uvmunmap (va npages : ℕ) (doFree : Bool)
  | uvmclear (va : ℕ)

namespace TableCall

def run (pagetable : ℕ) : TableCall → RamM Int
  | walk va => do return if (← Xv6.walk pagetable va true).isSome then 0 else -1
  | mappages va size pa perm => Xv6.mappages pagetable va size pa perm
  | uvmunmap va npages doFree => do
      Xv6.uvmunmap pagetable va npages doFree
      return 0
  | uvmclear va => do
      Xv6.uvmclear pagetable va
      return 0

-- The number of pages from va to va + size - 1.
def count (va size : ℕ) : ℕ := (va + size - 1) / PGSIZE - va / PGSIZE + 1

-- What keeps the call from a panic. The pages that uvmunmap frees are in use once, and not by
-- the table.
def Pre (s : Ram) (pagetable : ℕ) (L : ℕ → Option ℕ) : TableCall → Prop
  | walk va => va < MAXVA
  | mappages va size pa perm => 0 < size ∧ va + size ≤ MAXVA ∧ pa + count va size ≤ 2 ^ 44 ∧ perm < 2 ^ 10 ∧
      ∀ w, va / PGSIZE ≤ w → w < va / PGSIZE + count va size → L w = none
  | uvmunmap va npages doFree => va % PGSIZE = 0 ∧ va + npages * PGSIZE ≤ MAXVA ∧
      (∀ w, va / PGSIZE ≤ w → w < va / PGSIZE + npages → ∃ pte, L w = some pte ∧ pteFlags pte ≠ PTE_V) ∧
      (doFree = true → s.Owned (s.mem.tables 2 pagetable + frames L (va / PGSIZE) npages))
  | uvmclear va => va < MAXVA ∧ (L (va / PGSIZE)).isSome

-- What the call does to the bindings.
def Effect (L : ℕ → Option ℕ) (r : Int) (L' : ℕ → Option ℕ) : TableCall → Prop
  | walk _ => L' = L ∧ (r = 0 ∨ r = -1)
  | mappages va size pa perm => ∃ n ≤ count va size, L' = bound L (va / PGSIZE) pa perm n ∧
      (r = 0 ∧ n = count va size ∨ r = -1 ∧ n < count va size)
  | uvmunmap va npages _ => L' = unmapped L (va / PGSIZE) npages ∧ r = 0
  | uvmclear va => L' = update L (va / PGSIZE) ((L (va / PGSIZE)).map clearU) ∧ r = 0

end TableCall

-- A call on the table, or what the kernel does with other pages meanwhile.
inductive TableStep (pagetable : ℕ) (s t : Ram) : Prop
  | call (c : TableCall) (r : Int) (hpre : ∃ L, Maps s.mem pagetable L ∧ c.Pre s pagetable L)
      (h : c.run pagetable s = .ok (r, t))
  | other (P P' : Multiset ℕ) (ho : s.Owned (s.mem.tables 2 pagetable + P)) (h : Uses P P' s t)

-- Some calls of kalloc may lie between s and t.
def Draws (s t : Ram) : Prop := ∃ k, t.fail = s.fail.drop k

-- One of them has found no page.
def Starves (s t : Ram) : Prop := t.freelist = [] ∨ ∃ k, t.fail = s.fail.drop k ∧ true ∈ s.fail.take k

theorem Draws.trans (h : Draws s t) (h' : Draws t u) : Draws s u := by
  obtain ⟨k, hk⟩ := h
  obtain ⟨j, hj⟩ := h'
  exact ⟨k + j, by rw [hj, hk, List.drop_drop]⟩

theorem Draws.starves (h : Draws s t) (h' : Starves t u) : Starves s u := by
  obtain ⟨k, hk⟩ := h
  refine h'.imp_right fun ⟨j, hj, hmem⟩ => ⟨k + j, by rw [hj, hk, List.drop_drop], ?_⟩
  rw [List.take_add, List.mem_append, ← hk]
  exact .inr hmem

theorem kalloc_draws (s : Ram) : wp kalloc (fun r t => Draws s t ∧ (r = none → Starves s t)) (fun _ => True) s := by
  simp only [kalloc, wp_bind, wp_get]
  split
  · simp only [wp_bind, wp_set, wp_pure]
    exact ⟨⟨1, List.drop_one.symm⟩, fun h => absurd h (Option.some_ne_none _)⟩
  · rename_i hnone
    simp only [wp_bind, wp_set, wp_pure]
    refine ⟨⟨1, List.drop_one.symm⟩, fun _ => ?_⟩
    -- The list is empty, or this call is one that finds no page.
    cases hlist : s.freelist with
    | nil => exact .inl rfl
    | cons pa rest =>
        cases hfail : s.fail with
        | nil => exact absurd hlist (hnone pa rest (by rw [hfail]; rfl))
        | cons b fail =>
            cases b with
            | false => exact absurd hlist (hnone pa rest (by rw [hfail]; rfl))
            | true => exact .inr ⟨1, by rw [hfail]; rfl, by rw [hfail]; exact List.mem_cons_self⟩

theorem walkLevels_draws (level pagetable va : ℕ) (s : Ram) : wp (walkLevels true level pagetable va)
    (fun r t => Draws s t ∧ (r = none → Starves s t)) (fun _ => True) s := by
  induction level generalizing pagetable s with
  | zero => exact ⟨⟨0, rfl⟩, fun h => absurd h (Option.some_ne_none _)⟩
  | succ level ih =>
      simp only [walkLevels, wp_bind, wp_get]
      split
      · exact ih _ s
      · simp only [Bool.not_true, Bool.false_eq_true, ite_false, wp_bind]
        refine wp_post (kalloc_draws s) fun r t ht => ?_
        cases r with
        | none => exact ⟨ht.1, fun _ => ht.2 rfl⟩
        | some page =>
            simp only [setPte, wp_bind, wp_modify]
            exact wp_post (ih page _) fun r u hu => ⟨ht.1.trans hu.1, fun hr => ht.1.starves (hu.2 hr)⟩

theorem walk_draws (pagetable va : ℕ) (s : Ram) :
    wp (walk pagetable va true) (fun r t => Draws s t ∧ (r = none → Starves s t)) (fun _ => True) s := by
  simp only [walk, wp_bind, wp_ite, wp_throw]
  split
  · trivial
  · exact walkLevels_draws 2 pagetable va s

theorem mapLoop_draws (pagetable last perm fuel a pa : ℕ) (s : Ram) : wp (mapLoop pagetable last perm fuel a pa)
    (fun r t => Draws s t ∧ (r ≠ 0 → Starves s t)) (fun _ => True) s := by
  induction fuel generalizing a pa s with
  | zero => trivial
  | succ fuel ih =>
      simp only [mapLoop, wp_bind]
      refine wp_post (walk_draws pagetable a s) fun r t ht => ?_
      cases r with
      | none => exact ⟨ht.1, fun _ => ht.2 rfl⟩
      | some pte =>
          simp only [setPte, wp_bind, wp_get, wp_ite, wp_throw, wp_modify, wp_pure]
          split
          · trivial
          · split
            · exact ⟨ht.1, fun h => absurd rfl h⟩
            · exact wp_post (ih _ _ _) fun r u hu => ⟨ht.1.trans hu.1, fun hr => ht.1.starves (hu.2 hr)⟩

theorem bound_zero (L : ℕ → Option ℕ) (v pa perm : ℕ) : bound L v pa perm 0 = L := by
  funext w
  exact if_neg (by omega)

theorem bound_succ (L : ℕ → Option ℕ) (v pa perm n : ℕ) :
    bound (update L v (some (mkPte pa (perm ||| PTE_V)))) (v + 1) (pa + 1) perm n = bound L v pa perm (n + 1) := by
  funext w
  simp only [bound]
  by_cases hw : w = v
  · rw [if_neg (by omega), if_pos (by omega), hw, update_self, Nat.sub_self, Nat.add_zero]
  · rw [update_of_ne hw, show pa + 1 + (w - (v + 1)) = pa + (w - v - 1 + 1) by omega]
    by_cases hin : v + 1 ≤ w ∧ w < v + 1 + n
    · rw [if_pos hin, if_pos (by omega), show w - v - 1 + 1 = w - v by omega]
    · rw [if_neg hin, if_neg (by omega)]

-- A pass of the loop is a call of mappages for one page.
theorem wp_mapLoop {last fuel : ℕ} {post : Int → Ram → Prop} {err : Panic → Prop} (hv : v * PGSIZE < MAXVA)
    (h : wp (mappages pagetable (v * PGSIZE) PGSIZE pa perm) (fun r t =>
      if r = 0 then if v * PGSIZE = last then post 0 t
        else wp (mapLoop pagetable last perm fuel (v * PGSIZE + PGSIZE) (pa + 1)) post err t
      else post (-1) t) err s) :
    wp (mapLoop pagetable last perm (fuel + 1) (v * PGSIZE) pa) post err s := by
  obtain ⟨hfirst, hlast⟩ := pgRoundDown_page hv
  simp only [mappages, show PGSIZE ≠ 0 by decide, ite_false, hlast, hfirst, mapLoop, wp_bind] at h ⊢
  refine wp_post h fun r t ht => ?_
  cases r with
  | none => exact ht
  | some a =>
      simp only [wp_bind, wp_get, wp_ite, wp_throw, wp_pure, ite_true] at ht ⊢
      exact ht

theorem mapLoop_spec {n fuel : ℕ} (hfuel : n < fuel) (hv : (v + n) * PGSIZE < MAXVA) (h : Maps s.mem pagetable L)
    (ho : s.Owned (s.mem.tables 2 pagetable)) (hpa : pa + n < 2 ^ 44) (hperm : perm < 2 ^ 10)
    (hL : ∀ w, v ≤ w → w ≤ v + n → L w = none) :
    wp (mapLoop pagetable ((v + n) * PGSIZE) perm fuel (v * PGSIZE) pa) (fun r t =>
      t.Owned (t.mem.tables 2 pagetable) ∧ ∃ k ≤ n + 1, Maps t.mem pagetable (bound L v pa perm k) ∧
        (r = 0 ∧ k = n + 1 ∨ r = -1 ∧ k < n + 1)) (fun _ => False) s := by
  induction fuel generalizing n v pa L s with
  | zero => omega
  | succ fuel ih =>
      have hlt : v * PGSIZE < MAXVA := lt_of_le_of_lt (Nat.mul_le_mul_right _ (by omega)) hv
      refine wp_mapLoop hlt (wp_post (mappages_spec hlt h (hL v le_rfl (by omega)) ho (by omega) hperm) ?_)
      rintro r t ⟨huses, ⟨rfl, hmaps⟩ | ⟨rfl, hmaps⟩⟩
      · have hot := huses.owned ho
        rw [if_pos rfl]
        split
        · rename_i hlast
          obtain rfl : n = 0 := by
            have := Nat.eq_of_mul_eq_mul_right (by decide) hlast
            omega
          refine ⟨hot, 1, le_rfl, ?_, .inl ⟨rfl, rfl⟩⟩
          rw [← bound_succ, bound_zero]
          exact hmaps
        · rename_i hlast
          obtain ⟨n, rfl⟩ := Nat.exists_eq_succ_of_ne_zero fun h0 : n = 0 => hlast (by rw [h0, Nat.add_zero])
          have hend : v + (n + 1) = v + 1 + n := by omega
          rw [hend] at hv ⊢
          rw [← Nat.succ_mul]
          refine wp_post (ih (by omega) hv hmaps hot (by omega) fun w hw hw' => ?_) fun r u hu => ?_
          · rw [update_of_ne (by omega)]
            exact hL w (by omega) (by omega)
          · obtain ⟨hou, k, hk, hmaps, hr⟩ := hu
            rw [bound_succ] at hmaps
            exact ⟨hou, k + 1, by omega, hmaps, by omega⟩
      · refine ⟨huses.owned ho, 0, Nat.zero_le _, ?_, .inr ⟨rfl, Nat.succ_pos n⟩⟩
        rw [bound_zero]
        exact hmaps

theorem TableCall.spec (h : Maps s.mem pagetable L) (ho : s.Owned (s.mem.tables 2 pagetable)) (c : TableCall)
    (hpre : c.Pre s pagetable L) : wp (c.run pagetable) (fun r t => (∃ L', c.Effect L r L' ∧
      Maps t.mem pagetable L' ∧ t.Owned (t.mem.tables 2 pagetable)) ∧ (r ≠ 0 → Starves s t)) (fun _ => False) s := by
  have hmax : MAXVA = 2 ^ 38 := rfl
  have hsize : PGSIZE = 4096 := rfl
  cases c with
  | walk va =>
      simp only [run, wp_bind, wp_pure]
      refine wp_mono (wp_and (walk_spec hpre ho h.dirs) (walk_draws pagetable va s)) (fun r t ht => ?_) fun _ he => he.1
      obtain ⟨⟨hg, -⟩, -, hstarves⟩ := ht
      cases r with
      | none => exact ⟨⟨L, ⟨rfl, .inr rfl⟩, h.of_grown hg, hg.uses.owned ho⟩, fun _ => hstarves rfl⟩
      | some a => exact ⟨⟨L, ⟨rfl, .inl rfl⟩, h.of_grown hg, hg.uses.owned ho⟩, fun hr => absurd rfl hr⟩
  | mappages va size pa perm =>
      obtain ⟨hpos, hend, hpa, hperm, hfree⟩ := hpre
      obtain ⟨n, hn⟩ : ∃ n, count va size = n + 1 := ⟨_, rfl⟩
      have hlast : (va + size - 1) / PGSIZE = va / PGSIZE + n := by
        rw [count] at hn
        rw [hsize] at hn ⊢
        omega
      have hlt : (va / PGSIZE + n) * PGSIZE < MAXVA := by
        rw [← hlast, hsize]
        omega
      simp only [Effect, hn] at hpa hfree ⊢
      rw [run, Xv6.mappages, Nat.mod_eq_of_lt (by omega), pgRoundDown, pgRoundDown, hlast]
      simp only [show size ≠ 0 by omega, ite_false]
      refine wp_mono (wp_and (mapLoop_spec ?_ hlt h ho (by omega) hperm fun w hw hw' => hfree w hw (by omega))
        (mapLoop_draws ..)) (fun r t ht => ?_) fun _ he => he.1
      · rw [hsize] at hlt ⊢
        omega
      · obtain ⟨⟨hot, k, hk, hmaps, hr⟩, -, hstarves⟩ := ht
        exact ⟨⟨_, ⟨k, hk, rfl, hr⟩, hmaps, hot⟩, hstarves⟩
  | uvmunmap va npages doFree =>
      obtain ⟨halign, hend, hleaf, hfree⟩ := hpre
      have hva : va / PGSIZE * PGSIZE = va := Nat.div_mul_cancel (Nat.dvd_of_mod_eq_zero halign)
      have ho' : s.Owned (s.mem.tables 2 pagetable + freed doFree L (va / PGSIZE) npages) := by
        cases doFree with
        | false => exact ho.congr (add_zero _)
        | true => exact hfree rfl
      have hspec := uvmunmap_spec doFree (v := va / PGSIZE) (by rw [Nat.add_mul, hva]; exact hend) h hleaf ho'
      rw [hva] at hspec
      simp only [run, wp_bind, wp_pure]
      refine wp_post hspec fun _ t ht => ⟨⟨_, ⟨rfl, rfl⟩, ht.2.1, ht.2.2.owned ho'⟩, fun hr => absurd rfl hr⟩
  | uvmclear va =>
      obtain ⟨hva, hsome⟩ := hpre
      obtain ⟨pte, hpte⟩ := Option.isSome_iff_exists.mp hsome
      have hva' : va < 2 ^ 39 := by omega
      obtain ⟨a, ha, hread, hvalid⟩ := h.walk hva' hpte
      obtain ⟨hle, -, hclearV, -⟩ := clearU_facts pte
      have hlt : clearU pte < 2 ^ 64 := lt_of_le_of_lt hle (hread ▸ s.mem.read_lt a)
      obtain ⟨-, hmaps, huses⟩ := h.setPte hva' ho ha hlt
      rw [Option.filter_some, if_pos (by rw [hclearV, hvalid])] at hmaps
      simp only [run, Xv6.uvmclear, wp_bind]
      rw [wp_walk_false hva, ha]
      simp only [wp_bind, wp_get, hread, setPte, wp_modify, wp_pure]
      refine ⟨⟨_, ?_, hmaps, huses.owned ho⟩, fun hr => absurd rfl hr⟩
      rw [Effect, hpte]
      exact ⟨rfl, rfl⟩

theorem slot_inj (h : Maps s.mem pagetable L) (ho : s.Owned (s.mem.tables 2 pagetable)) {va va' : ℕ} {a : PteAddr}
    (hva : va < MAXVA) (hva' : va' < MAXVA) (ha : s.mem.walk 2 pagetable va = some a)
    (ha' : s.mem.walk 2 pagetable va' = some a) : va / PGSIZE = va' / PGSIZE := by
  by_contra hne
  have hmax : MAXVA = 2 ^ 38 := rfl
  -- a PTE that is written for va would be found for va'
  have hfound : ∀ value < 2 ^ 64, hasFlag value PTE_V = true → L (va' / PGSIZE) = some value := by
    intro value hvalue hv
    have hmaps := (h.setPte (by omega) ho ha hvalue).2.1.entry va' (by omega)
    rw [(h.setPte (by omega) ho ha' hvalue).2.1.entry va' (by omega), update_self, update_of_ne (Ne.symm hne),
      Option.filter_some, if_pos hv] at hmaps
    exact hmaps.symm
  have h1 := hfound 1 (by decide) (by decide)
  have h3 := hfound 3 (by decide) (by decide)
  rw [h1] at h3
  cases h3

structure Tabled (pagetable : ℕ) (s : Ram) : Prop where
  maps : ∃ L, Maps s.mem pagetable L
  owned : s.Owned (s.mem.tables 2 pagetable)

theorem Tabled.step (h : Tabled pagetable s) (hstep : TableStep pagetable s t) : Tabled pagetable t := by
  obtain ⟨⟨L, hmaps⟩, howned⟩ := h
  cases hstep with
  | call c r hpre hrun =>
      obtain ⟨L, hmaps, hpre⟩ := hpre
      obtain ⟨⟨L', -, hmaps', howned'⟩, -⟩ := (wp_of_ok hrun).mp (c.spec hmaps howned hpre)
      exact ⟨⟨L', hmaps'⟩, howned'⟩
  | other P P' ho huses =>
      rw [add_comm] at ho
      have hkept := huses.kept ho
      refine ⟨⟨L, hmaps.congr hkept⟩, ?_⟩
      rw [Mem.tables_congr hkept]
      exact ((huses.frame _).owned ho).right

-- In every run the table is a map from pages to PTEs, on which each call acts as it should: it panics on nothing that
-- the map allows, and fails for lack of memory only. The pages of the table are a tree, and no two virtual pages share
-- a slot.
theorem bindings_refine {s₁ s₀ : Ram} (ho : s₁.Owned 0) (hcreate : uvmcreate s₁ = .ok (some pagetable, s₀))
    (hrun : Reaches (TableStep pagetable) s₀ s) :
    (s.mem.tables 2 pagetable).Nodup ∧
    (∀ va va' a, va < MAXVA → va' < MAXVA → s.mem.walk 2 pagetable va = some a →
      s.mem.walk 2 pagetable va' = some a → va / PGSIZE = va' / PGSIZE) ∧
    ∃ L, Maps s.mem pagetable L ∧ ∀ c : TableCall, c.Pre s pagetable L → ∃ r t L', c.run pagetable s = .ok (r, t) ∧
      c.Effect L r L' ∧ Maps t.mem pagetable L' ∧ (r ≠ 0 → Starves s t) := by
  obtain ⟨htables, hmaps, huses⟩ := (wp_of_ok hcreate).mp (uvmcreate_spec s₁)
  have hstart : Tabled pagetable s₀ := ⟨⟨_, hmaps⟩, htables ▸ huses.owned ho⟩
  obtain ⟨⟨L, hmaps⟩, howned⟩ := hrun.invariant (Tabled pagetable) hstart fun _ _ h hstep => h.step hstep
  refine ⟨howned.nodup, fun va va' a => slot_inj hmaps howned, L, hmaps, fun c hpre => ?_⟩
  obtain ⟨r, t, hrun, ⟨L', heffect, hmaps', -⟩, hstarves⟩ := exists_of_wp (c.spec hmaps howned hpre)
  exact ⟨r, t, L', hrun, heffect, hmaps', hstarves⟩

-- Two pages are mapped; then uvmunmap takes the second.
theorem bindings_refine_unmapped : ∃ (s₀ s t : Ram) (L : ℕ → Option ℕ), Reaches (TableStep 524288) s₀ s ∧
    Maps s.mem 524288 L ∧ L 1 = some (mkPte 600000 (PTE_R ||| PTE_V)) ∧ L 2 = some (mkPte 600001 (PTE_R ||| PTE_V)) ∧
    (TableCall.uvmunmap (2 * PGSIZE) 1 false).run 524288 s = .ok (0, t) ∧ Maps t.mem 524288 (unmapped L 2 1) := by
  have hrun : wp (do
      let table ← uvmcreate
      return (table, ← (TableCall.mappages PGSIZE (2 * PGSIZE) 600000 PTE_R).run 524288)) (fun r s =>
        r = (some 524288, 0) ∧ s.mem.entry 2 524288 PGSIZE = some (mkPte 600000 (PTE_R ||| PTE_V)) ∧
        s.mem.entry 2 524288 (2 * PGSIZE) = some (mkPte 600001 (PTE_R ||| PTE_V))) (fun _ => False)
      ⟨fun _ _ => 0, KERNBASE, [524288, 524289, 524290], []⟩ := by
    decide +kernel
  simp only [wp_bind, wp_pure] at hrun
  obtain ⟨_, s₀, hcreate, hrun⟩ := exists_of_wp hrun
  obtain ⟨_, s, hmap, hresults, hone, htwo⟩ := exists_of_wp hrun
  cases hresults
  have ho : Owned ⟨fun _ _ => 0, KERNBASE, [524288, 524289, 524290], []⟩ 0 := ⟨by decide, by decide⟩
  obtain ⟨-, hmaps, -⟩ := (wp_of_ok hcreate).mp (uvmcreate_spec _)
  have hreach : Reaches (TableStep 524288) s₀ s :=
    .single (.call (.mappages PGSIZE (2 * PGSIZE) 600000 PTE_R) 0
      ⟨_, hmaps, by decide, by decide, by decide, by decide, fun _ _ _ => rfl⟩ hmap)
  obtain ⟨-, -, L, hL, hcall⟩ := bindings_refine ho hcreate hreach
  have hpte : L 2 = some (mkPte 600001 (PTE_R ||| PTE_V)) := (hL.entry (2 * PGSIZE) (by decide)).symm.trans htwo
  have hpre : (TableCall.uvmunmap (2 * PGSIZE) 1 false).Pre s 524288 L := by
    refine ⟨by decide, by decide, fun w hlo hhi => ?_, fun h => absurd h Bool.false_ne_true⟩
    obtain rfl : w = 2 := Nat.le_antisymm (Nat.lt_succ_iff.mp hhi) hlo
    exact ⟨_, hpte, by decide⟩
  obtain ⟨_, t, _, hrun, ⟨rfl, rfl⟩, hmaps, -⟩ := hcall _ hpre
  exact ⟨s₀, s, t, L, hreach, hL, (hL.entry PGSIZE (by decide)).symm.trans hone, hpte, hrun, hmaps⟩

end Xv6
