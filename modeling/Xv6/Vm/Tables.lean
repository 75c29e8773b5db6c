import Xv6.Kalloc.Theorems
import Xv6.Vm.Copyout
import Mathlib.Algebra.BigOperators.Group.Finset.Basic
import Mathlib.Algebra.Order.BigOperators.Group.Multiset

namespace Xv6

open Wp Ram

theorem px_lt (level va : ℕ) : px level va < 512 := Nat.mod_lt _ (by decide)

namespace Mem

def branch (f : ℕ → Multiset ℕ) (pte : ℕ) : Multiset ℕ := if hasFlag pte PTE_V then f (pte2pa pte) else 0

-- The pages of a page table whose root is a table of the given level.
def tables (mem : Mem) : (level pagetable : ℕ) → Multiset ℕ
  | 0, pagetable => {pagetable}
  | level + 1, pagetable =>
      {pagetable} + ∑ i ∈ Finset.range 512, branch (mem.tables level) (mem.pte pagetable i)

-- Above the last level the valid PTEs point to tables.
def Dirs (mem : Mem) : (level pagetable : ℕ) → Prop
  | 0, _ => True
  | level + 1, pagetable => ∀ i < 512, hasFlag (mem.pte pagetable i) PTE_V = true →
      pteFlags (mem.pte pagetable i) = PTE_V ∧ mem.Dirs level (pte2pa (mem.pte pagetable i))

def entry (mem : Mem) (level pagetable va : ℕ) : Option ℕ :=
  ((mem.walk level pagetable va).map mem.read).filter (hasFlag · PTE_V)

theorem leaf_eq_entry (mem : Mem) (pagetable : ℕ) {va : ℕ} (hva : va < MAXVA) :
    mem.leaf pagetable va = mem.entry 2 pagetable va := if_pos hva

def siblings (mem : Mem) (level pagetable i : ℕ) : Multiset ℕ :=
  ∑ j ∈ (Finset.range 512).erase i, branch (mem.tables level) (mem.pte pagetable j)

variable {mem mem' : Mem} {level pagetable i va : ℕ}

theorem tables_succ (mem : Mem) (level pagetable : ℕ) (hi : i < 512) :
    mem.tables (level + 1) pagetable =
      {pagetable} + branch (mem.tables level) (mem.pte pagetable i) + mem.siblings level pagetable i := by
  rw [tables, ← Finset.add_sum_erase _ _ (Finset.mem_range.mpr hi), siblings, add_assoc]

theorem root_mem_tables (mem : Mem) (level pagetable : ℕ) : pagetable ∈ mem.tables level pagetable := by
  cases level <;> simp [tables]

theorem mem_siblings {q : ℕ} : q ∈ mem.siblings level pagetable i ↔
    ∃ j < 512, j ≠ i ∧ q ∈ branch (mem.tables level) (mem.pte pagetable j) := by
  simp only [siblings, Multiset.mem_sum, Finset.mem_erase, Finset.mem_range]
  constructor
  · rintro ⟨j, ⟨hne, hj⟩, hq⟩
    exact ⟨j, hj, hne, hq⟩
  · rintro ⟨j, hj, hne, hq⟩
    exact ⟨j, ⟨hne, hj⟩, hq⟩

-- Sums over 512 entries are not for the unifier to unfold.
attribute [irreducible] tables siblings

theorem branch_le_tables (hi : i < 512) :
    branch (mem.tables level) (mem.pte pagetable i) ≤ mem.tables (level + 1) pagetable := by
  rw [tables_succ mem level pagetable hi, add_comm ({pagetable} : Multiset ℕ), add_assoc]
  exact Multiset.le_add_right _ _

theorem siblings_le_tables (hi : i < 512) :
    mem.siblings level pagetable i ≤ mem.tables (level + 1) pagetable := by
  rw [tables_succ mem level pagetable hi]
  exact Multiset.le_add_left _ _

theorem branch_of_valid {f : ℕ → Multiset ℕ} {pte : ℕ} (h : hasFlag pte PTE_V = true) :
    branch f pte = f (pte2pa pte) := if_pos h

theorem branch_of_not {f : ℕ → Multiset ℕ} {pte : ℕ} (h : hasFlag pte PTE_V = false) :
    branch f pte = 0 := by simp [branch, h]

theorem child_le_tables (hi : i < 512) (hv : hasFlag (mem.pte pagetable i) PTE_V = true) :
    mem.tables level (pte2pa (mem.pte pagetable i)) ≤ mem.tables (level + 1) pagetable := by
  rw [← branch_of_valid (f := mem.tables level) hv]
  exact branch_le_tables hi

-- What the pages of a table say depends on them only.

theorem tables_congr (h : ∀ q ∈ mem.tables level pagetable, mem' q = mem q) :
    mem'.tables level pagetable = mem.tables level pagetable := by
  induction level generalizing pagetable with
  | zero => rw [tables, tables]
  | succ level ih =>
      have hroot := h pagetable (root_mem_tables _ _ _)
      have hbelow : ∀ i ∈ Finset.range 512, branch (mem'.tables level) (mem.pte pagetable i) =
          branch (mem.tables level) (mem.pte pagetable i) := by
        intro i hi
        unfold branch
        split
        · rename_i hv
          refine ih fun q hq => h q ?_
          exact Multiset.mem_of_le (child_le_tables (Finset.mem_range.mp hi) hv) hq
        · rfl
      simp only [tables, pte_congr hroot]
      rw [Finset.sum_congr rfl hbelow]

theorem dirs_congr (h : ∀ q ∈ mem.tables level pagetable, mem' q = mem q)
    (hd : mem.Dirs level pagetable) : mem'.Dirs level pagetable := by
  induction level generalizing pagetable with
  | zero => trivial
  | succ level ih =>
      have hroot := h pagetable (root_mem_tables _ _ _)
      intro i hi hv
      rw [pte_congr hroot] at hv ⊢
      refine ⟨(hd i hi hv).1, ih (fun q hq => h q ?_) (hd i hi hv).2⟩
      exact Multiset.mem_of_le (child_le_tables hi hv) hq

theorem walkPages_mem_tables (mem : Mem) (level pagetable va : ℕ) :
    ∀ q ∈ mem.walkPages level pagetable va, q ∈ mem.tables level pagetable := by
  induction level generalizing pagetable with
  | zero => simp [walkPages, tables]
  | succ level ih =>
      intro q hq
      simp only [walkPages, List.mem_cons] at hq
      rcases hq with rfl | hq
      · exact root_mem_tables _ _ _
      · split at hq
        · rename_i hv
          exact Multiset.mem_of_le (child_le_tables (px_lt _ _) hv) (ih _ q hq)
        · cases hq

theorem walk_congr_tables (h : ∀ q ∈ mem.tables level pagetable, mem' q = mem q) (va : ℕ) :
    mem'.walk level pagetable va = mem.walk level pagetable va :=
  (walk_congr level pagetable va fun t ht => h t (walkPages_mem_tables _ _ _ _ t ht)).1

theorem entry_congr (h : ∀ q ∈ mem.tables level pagetable, mem' q = mem q) (va : ℕ) :
    mem'.entry level pagetable va = mem.entry level pagetable va := by
  rw [entry, entry,
    (walk_congr level pagetable va fun t ht => h t (walkPages_mem_tables _ _ _ _ t ht)).2]

theorem entry_succ (mem : Mem) (level pagetable va : ℕ) :
    mem.entry (level + 1) pagetable va =
      if hasFlag (mem.pte pagetable (px (level + 1) va)) PTE_V then
        mem.entry level (pte2pa (mem.pte pagetable (px (level + 1) va))) va
      else none := by
  rw [entry, Mem.walk]
  split
  · rfl
  · rfl

theorem walk_mem_tables {a : PteAddr} (h : mem.walk level pagetable va = some a) :
    a.1 ∈ mem.tables level pagetable ∧ a.2 = px 0 va := by
  induction level generalizing pagetable with
  | zero =>
      simp only [Mem.walk, Option.some.injEq] at h
      rw [← h]
      exact ⟨root_mem_tables _ _ _, rfl⟩
  | succ level ih =>
      simp only [Mem.walk] at h
      split at h
      · rename_i hv
        exact ⟨Multiset.mem_of_le (child_le_tables (px_lt _ _) hv) (ih h).1, (ih h).2⟩
      · cases h

structure SameBut (mem mem' : Mem) (level pagetable i : ℕ) : Prop where
  pte : ∀ j, j ≠ i → mem'.pte pagetable j = mem.pte pagetable j
  below : ∀ q ∈ mem.siblings level pagetable i, mem' q = mem q

namespace SameBut

variable {j : ℕ}

theorem child (h : SameBut mem mem' level pagetable i) (hj : j < 512) (hne : j ≠ i)
    (hv : hasFlag (mem.pte pagetable j) PTE_V = true) :
    ∀ q ∈ mem.tables level (pte2pa (mem.pte pagetable j)), mem' q = mem q := by
  intro q hq
  refine h.below q (mem_siblings.mpr ⟨j, hj, hne, ?_⟩)
  rwa [branch_of_valid hv]

theorem siblings (h : SameBut mem mem' level pagetable i) :
    mem'.siblings level pagetable i = mem.siblings level pagetable i := by
  rw [Mem.siblings, Mem.siblings]
  refine Finset.sum_congr rfl fun j hj => ?_
  obtain ⟨hne, hj⟩ := Finset.mem_erase.mp hj
  rw [h.pte j hne]
  unfold branch
  split
  · rename_i hv
    exact tables_congr (h.child (Finset.mem_range.mp hj) hne hv)
  · rfl

theorem entry (h : SameBut mem mem' level pagetable i) (hva : px (level + 1) va ≠ i) :
    mem'.entry (level + 1) pagetable va = mem.entry (level + 1) pagetable va := by
  rw [entry_succ, entry_succ, h.pte _ hva]
  split
  · rename_i hv
    exact entry_congr (h.child (px_lt _ _) hva hv) va
  · rfl

theorem walk (h : SameBut mem mem' level pagetable i) (hva : px (level + 1) va ≠ i) :
    mem'.walk (level + 1) pagetable va = mem.walk (level + 1) pagetable va := by
  rw [Mem.walk, Mem.walk, h.pte _ hva]
  split
  · rename_i hv
    exact walk_congr_tables (h.child (px_lt _ _) hva hv) va
  · rfl

theorem dirs (h : SameBut mem mem' level pagetable i) (hd : mem.Dirs (level + 1) pagetable)
    (hi : hasFlag (mem'.pte pagetable i) PTE_V = true →
      pteFlags (mem'.pte pagetable i) = PTE_V ∧ mem'.Dirs level (pte2pa (mem'.pte pagetable i))) :
    mem'.Dirs (level + 1) pagetable := by
  intro j hj hv
  by_cases hji : j = i
  · subst hji
    exact hi hv
  · rw [h.pte j hji] at hv ⊢
    exact ⟨(hd j hj hv).1, dirs_congr (h.child hj hji hv) (hd j hj hv).2⟩

end SameBut

-- A table of zeros.

theorem hasFlag_zero (flag : ℕ) : hasFlag 0 flag = false := by simp [hasFlag]

theorem tables_of_zero (h : ∀ i < 512, mem.pte pagetable i = 0) (level : ℕ) :
    mem.tables level pagetable = {pagetable} := by
  cases level with
  | zero => rw [tables]
  | succ level =>
      rw [tables, Finset.sum_eq_zero, add_zero]
      intro i hi
      rw [h i (Finset.mem_range.mp hi), branch_of_not (hasFlag_zero _)]

theorem dirs_of_zero (h : ∀ i < 512, mem.pte pagetable i = 0) (level : ℕ) :
    mem.Dirs level pagetable := by
  cases level with
  | zero => trivial
  | succ level =>
      intro i hi hv
      rw [h i hi, hasFlag_zero] at hv
      cases hv

theorem entry_of_zero (h : ∀ i < 512, mem.pte pagetable i = 0) (level va : ℕ) :
    mem.entry level pagetable va = none := by
  cases level with
  | zero => simp [entry, Mem.walk, read, h _ (px_lt _ _), Option.filter, hasFlag_zero]
  | succ level => rw [entry_succ, h _ (px_lt _ _), hasFlag_zero, if_neg (by simp)]

theorem pte_memset_zero (mem : Mem) (page i : ℕ) : (mem.memset page 0).pte page i = 0 := by
  have hload : ∀ count base, Bytes.load (fun _ => 0) base count = 0 := by
    intro count
    induction count with
    | zero => exact fun _ => rfl
    | succ count ih =>
        intro base
        rw [Bytes.load, ih]
        rfl
  rw [pte, memset, Function.update_self, hload]

structure Put (mem mem' : Mem) (level pagetable va value : ℕ) : Prop where
  tables : mem'.tables level pagetable = mem.tables level pagetable
  dirs : mem.Dirs level pagetable → mem'.Dirs level pagetable
  walk : ∀ va', mem'.walk level pagetable va' = mem.walk level pagetable va'
  entry : ∀ va', mem'.entry level pagetable va' =
    if ∀ k ≤ level, px k va' = px k va then (some value).filter (hasFlag · PTE_V)
    else mem.entry level pagetable va'

theorem apart_of_nodup (hn : (mem.tables (level + 1) pagetable).Nodup) (hi : i < 512)
    (hv : hasFlag (mem.pte pagetable i) PTE_V = true) {q : ℕ}
    (hq : q ∈ mem.tables level (pte2pa (mem.pte pagetable i))) :
    q ≠ pagetable ∧ q ∉ mem.siblings level pagetable i := by
  rw [tables_succ mem level pagetable hi, branch_of_valid hv] at hn
  have hleft := (Multiset.nodup_add.mp hn).1
  constructor
  · rintro rfl
    exact Multiset.disjoint_left.mp (Multiset.nodup_add.mp hleft).2.2 (Multiset.mem_singleton_self q) hq
  · intro hs
    exact Multiset.disjoint_left.mp (Multiset.nodup_add.mp hn).2.2 (Multiset.mem_add.mpr (.inr hq)) hs

theorem put_of_setPte {a : PteAddr} {value : ℕ} (hn : (mem.tables level pagetable).Nodup)
    (hw : mem.walk level pagetable va = some a) (hvalue : value < 2 ^ 64) :
    Put mem (mem.setPte a.1 a.2 value) level pagetable va value := by
  induction level generalizing pagetable with
  | zero =>
      simp only [Mem.walk, Option.some.injEq] at hw
      subst hw
      refine ⟨by rw [Mem.tables, Mem.tables], fun _ => trivial, fun _ => rfl, fun va' => ?_⟩
      simp only [Nat.le_zero_eq, forall_eq, Mem.entry, Mem.walk, Option.map_some, read]
      split
      · rename_i he
        rw [he, pte_setPte_self, Nat.mod_eq_of_lt hvalue]
      · rename_i hne
        rw [pte_setPte_of_ne _ _ _ hne]
  | succ level ih =>
      simp only [Mem.walk] at hw
      split at hw
      · rename_i hv
        obtain ⟨i, hi⟩ : ∃ i, px (level + 1) va = i := ⟨_, rfl⟩
        have hlt : i < 512 := hi ▸ px_lt _ _
        rw [hi] at hv hw
        have hmem := (walk_mem_tables hw).1
        obtain ⟨hroot, hsib⟩ := apart_of_nodup hn hlt hv hmem
        have hput := ih (Multiset.nodup_of_le (child_le_tables hlt hv) hn) hw
        set mem' := mem.setPte a.1 a.2 value
        have hpte : ∀ j, mem'.pte pagetable j = mem.pte pagetable j :=
          pte_congr (Function.update_of_ne (Ne.symm hroot) _ _)
        have hsame : SameBut mem mem' level pagetable i := by
          refine ⟨fun j _ => hpte j, fun q hq => Function.update_of_ne ?_ _ _⟩
          rintro rfl
          exact hsib hq
        refine ⟨?_, fun hd => ?_, fun va' => ?_, fun va' => ?_⟩
        · rw [tables_succ mem' level pagetable hlt, tables_succ mem level pagetable hlt,
            hsame.siblings, hpte, branch_of_valid hv, branch_of_valid hv, hput.tables]
        · refine hsame.dirs hd fun _ => ?_
          rw [hpte]
          exact ⟨(hd i hlt hv).1, hput.dirs (hd i hlt hv).2⟩
        · by_cases hva : px (level + 1) va' = i
          · simp only [Mem.walk, hva, hpte, hput.walk]
          · exact hsame.walk hva
        · by_cases hva : px (level + 1) va' = i
          · have hiff : (∀ k ≤ level + 1, px k va' = px k va) ↔ ∀ k ≤ level, px k va' = px k va := by
              constructor
              · exact fun h k hk => h k (by omega)
              · intro h k hk
                by_cases hk' : k = level + 1
                · rw [hk', hva, hi]
                · exact h k (by omega)
            rw [entry_succ, entry_succ, hva, hpte, if_pos hv, if_pos hv, hput.entry]
            simp only [hiff]
          · rw [hsame.entry hva, if_neg]
            exact fun h => hva ((h _ le_rfl).trans hi)
      · cases hw

end Mem

end Xv6
