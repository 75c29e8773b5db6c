import Xv6.Vm.Walk

namespace Xv6

open Wp Ram
open Function (update update_of_ne update_self)

variable {va v level : ℕ}

-- Two addresses that a root table covers are in one page if it takes them the same way.
theorem px_eq_iff {va' : ℕ} (hva : va < 2 ^ 39) (hva' : va' < 2 ^ 39) :
    (∀ k ≤ 2, px k va' = px k va) ↔ va' / PGSIZE = va / PGSIZE := by
  simp only [px, PGSIZE]
  constructor
  · intro h
    have h0 := h 0 (by omega)
    have h1 := h 1 (by omega)
    have h2 := h 2 (by omega)
    norm_num at h0 h1 h2
    omega
  · intro h k hk
    have hpow : 2 ^ (12 + 9 * k) = 4096 * 2 ^ (9 * k) := by rw [pow_add]; norm_num
    rw [hpow, ← Nat.div_div_eq_div_mul, ← Nat.div_div_eq_div_mul, h]

-- The page table maps the pages with the PTEs that L gives them, and no others.
structure Maps (mem : Mem) (pagetable : ℕ) (L : ℕ → Option ℕ) : Prop where
  dirs : mem.Dirs 2 pagetable
  entry : ∀ va < 2 ^ 39, mem.entry 2 pagetable va = L (va / PGSIZE)

namespace Maps

variable {mem mem' : Mem} {pagetable : ℕ} {L : ℕ → Option ℕ} {s t : Ram}

theorem congr (h : Maps mem pagetable L) (hm : ∀ q ∈ mem.tables 2 pagetable, mem' q = mem q) :
    Maps mem' pagetable L :=
  ⟨Mem.dirs_congr hm h.dirs, fun va hva => (Mem.entry_congr hm va).trans (h.entry va hva)⟩

theorem of_grown (h : Maps s.mem pagetable L) (hg : Grown 2 pagetable s t) : Maps t.mem pagetable L :=
  ⟨hg.dirs, fun va hva => (hg.entry va).trans (h.entry va hva)⟩

theorem leaf (h : Maps mem pagetable L) {va : ℕ} (hva : va < MAXVA) :
    mem.leaf pagetable va = L (va / PGSIZE) := by
  have hlt : va < 2 ^ 39 := by
    simp only [MAXVA] at hva
    omega
  rw [Mem.leaf_eq_entry mem pagetable hva, h.entry va hlt]

theorem put (h : Maps mem pagetable L) {va value : ℕ} (hva : va < 2 ^ 39)
    (hput : Mem.Put mem mem' 2 pagetable va value) :
    Maps mem' pagetable (update L (va / PGSIZE) ((some value).filter (hasFlag · PTE_V))) := by
  refine ⟨hput.dirs h.dirs, fun va' hva' => ?_⟩
  rw [hput.entry]
  by_cases he : va' / PGSIZE = va / PGSIZE
  · rw [if_pos ((px_eq_iff hva hva').mpr he), he, update_self]
  · rw [if_neg (fun hpx => he ((px_eq_iff hva hva').mp hpx)), update_of_ne he, h.entry va' hva']

theorem walk (h : Maps mem pagetable L) {va pte : ℕ} (hva : va < 2 ^ 39) (hL : L (va / PGSIZE) = some pte) :
    ∃ a, mem.walk 2 pagetable va = some a ∧ mem.read a = pte ∧ hasFlag pte PTE_V = true := by
  have he := h.entry va hva
  rw [hL, Mem.entry] at he
  obtain ⟨hmap, hv⟩ := Option.filter_eq_some_iff.mp he
  obtain ⟨a, ha, hread⟩ := Option.map_eq_some_iff.mp hmap
  exact ⟨a, ha, hread, hv⟩

theorem not_valid (h : Maps mem pagetable L) {va : ℕ} (hva : va < 2 ^ 39)
    (hL : L (va / PGSIZE) = none) {a : PteAddr} (ha : mem.walk 2 pagetable va = some a) :
    hasFlag (mem.read a) PTE_V = false := by
  have he := h.entry va hva
  rw [hL, Mem.entry, ha] at he
  have hno := Option.filter_eq_none_iff.mp he (mem.read a) rfl
  simpa using hno

end Maps

theorem wp_walk_false {pagetable : ℕ} {post : Option PteAddr → Ram → Prop} {err : Panic → Prop}
    {s : Ram} (hva : va < MAXVA) :
    wp (walk pagetable va false) post err s ↔ post (s.mem.walk 2 pagetable va) s := by
  simp only [walk, show ¬va ≥ MAXVA by omega, ite_false]
  exact wp_walkLevels_false

variable {pagetable : ℕ} {L : ℕ → Option ℕ} {s : Ram}

theorem walk_spec (hva : va < MAXVA) (ho : s.Owned (s.mem.tables 2 pagetable)) (hd : s.mem.Dirs 2 pagetable) :
    wp (walk pagetable va true) (fun r t => Grown 2 pagetable s t ∧
      ∀ a, r = some a → t.mem.walk 2 pagetable va = some a) (fun _ => False) s := by
  simp only [walk, show ¬va ≥ MAXVA by omega, ite_false]
  exact walkLevels_spec va ho hd

-- setPte through a pointer that walk has found.
theorem Maps.setPte (h : Maps s.mem pagetable L) {value : ℕ} {a : PteAddr} (hva : va < 2 ^ 39)
    (ho : s.Owned (s.mem.tables 2 pagetable)) (ha : s.mem.walk 2 pagetable va = some a) (hvalue : value < 2 ^ 64) :
    let t := { s with mem := s.mem.setPte a.1 a.2 value }
    t.mem.tables 2 pagetable = s.mem.tables 2 pagetable ∧
      Maps t.mem pagetable
        (update L (va / PGSIZE) ((some value).filter (hasFlag · PTE_V))) ∧
      Uses (s.mem.tables 2 pagetable) (t.mem.tables 2 pagetable) s t := by
  have hput := Mem.put_of_setPte ho.nodup ha hvalue
  refine ⟨hput.tables, h.put hva hput, ?_⟩
  rw [hput.tables]
  exact Uses.write s (Mem.walk_mem_tables ha).1 _

-- The first and the last page that mappages of one page passes over.
theorem pgRoundDown_page (hv : v * PGSIZE < MAXVA) :
    pgRoundDown (v * PGSIZE) = v * PGSIZE ∧ pgRoundDown ((v * PGSIZE + PGSIZE - 1) % 2 ^ 64) = v * PGSIZE := by
  have hmax : MAXVA = 2 ^ 38 := rfl
  have hsize : PGSIZE = 4096 := rfl
  rw [hsize, hmax] at hv
  rw [pgRoundDown, pgRoundDown, hsize, Nat.mod_eq_of_lt (by omega)]
  omega

-- A page is mapped, or there was no page for a table on the way to it.
theorem mappages_spec {pa perm : ℕ} (hv : v * PGSIZE < MAXVA) (h : Maps s.mem pagetable L) (hL : L v = none)
    (ho : s.Owned (s.mem.tables 2 pagetable)) (hpa : pa < 2 ^ 44) (hperm : perm < 2 ^ 10) :
    wp (mappages pagetable (v * PGSIZE) PGSIZE pa perm) (fun r t =>
      Uses (s.mem.tables 2 pagetable) (t.mem.tables 2 pagetable) s t ∧
        ((r = 0 ∧ Maps t.mem pagetable (update L v (some (mkPte pa (perm ||| PTE_V))))) ∨
          (r = -1 ∧ Maps t.mem pagetable L))) (fun _ => False) s := by
  have hmax : MAXVA = 2 ^ 38 := rfl
  have hdiv : v * PGSIZE / PGSIZE = v := Nat.mul_div_cancel v (by decide)
  have hva : v * PGSIZE < 2 ^ 39 := by omega
  obtain ⟨hfirst, hlast⟩ := pgRoundDown_page hv
  have hflags : perm ||| PTE_V < 2 ^ 10 := Nat.or_lt_two_pow hperm (by decide)
  simp only [mappages, show PGSIZE ≠ 0 by decide, ite_false, hlast, hfirst, mapLoop, wp_bind]
  refine wp_post (walk_spec hv ho h.dirs) fun r t hpost => ?_
  obtain ⟨hg, hwalk⟩ := hpost
  cases r with
  | none => exact ⟨hg.uses, .inr ⟨rfl, h.of_grown hg⟩⟩
  | some a =>
      have ha := hwalk a rfl
      have ht := h.of_grown hg
      have hnot := ht.not_valid hva (by rwa [hdiv]) ha
      have hot := hg.uses.owned ho
      have hpte : pa2pte pa ||| perm ||| PTE_V = mkPte pa (perm ||| PTE_V) := by rw [mkPte, Nat.or_assoc]
      obtain ⟨-, hmaps, huses⟩ := ht.setPte hva hot ha (mkPte_lt hpa hflags)
      rw [hdiv, Option.filter_some, if_pos (valid_mkPte pa perm)] at hmaps
      simp only [wp_bind, wp_get, hnot, Bool.false_eq_true, ite_false, setPte, wp_modify, ite_true,
        wp_pure, hpte]
      exact ⟨hg.uses.trans huses, .inl ⟨trivial, hmaps⟩⟩

def frames (L : ℕ → Option ℕ) (v count : ℕ) : Multiset ℕ :=
  ((List.range' v count).map fun w => pte2pa ((L w).getD 0) : List ℕ)

theorem frames_succ (L : ℕ → Option ℕ) (v count : ℕ) :
    frames L v (count + 1) = {pte2pa ((L v).getD 0)} + frames L (v + 1) count := by
  rw [frames, List.range'_succ, List.map_cons, ← Multiset.cons_coe, ← Multiset.singleton_add]
  rfl

theorem frames_congr {L' : ℕ → Option ℕ} {count : ℕ} (h : ∀ w, v ≤ w → w < v + count → L' w = L w) :
    frames L' v count = frames L v count := by
  rw [frames, frames, List.map_congr_left]
  intro w hw
  rw [List.mem_range'_1] at hw
  rw [h w hw.1 hw.2]

def unmapped (L : ℕ → Option ℕ) (v count : ℕ) : ℕ → Option ℕ :=
  fun w => if v ≤ w ∧ w < v + count then none else L w

theorem unmapped_zero (L : ℕ → Option ℕ) (v : ℕ) : unmapped L v 0 = L := by
  funext w
  exact if_neg (by omega)

theorem unmapped_succ (L : ℕ → Option ℕ) (v count : ℕ) :
    unmapped (update L v none) (v + 1) count = unmapped L v (count + 1) := by
  funext w
  simp only [unmapped]
  by_cases hw : w = v
  · rw [if_neg (by omega), if_pos (by omega), hw, update_self]
  · rw [update_of_ne hw]
    exact if_congr (by omega) rfl rfl

def freed (doFree : Bool) (L : ℕ → Option ℕ) (v count : ℕ) : Multiset ℕ :=
  if doFree then frames L v count else 0

theorem freed_zero (doFree : Bool) (L : ℕ → Option ℕ) (v : ℕ) : freed doFree L v 0 = 0 := by
  cases doFree <;> rfl

theorem freed_succ (doFree : Bool) (L : ℕ → Option ℕ) (v count : ℕ) :
    freed doFree L v (count + 1) =
      (if doFree then {pte2pa ((L v).getD 0)} else 0) + freed doFree L (v + 1) count := by
  cases doFree
  · rfl
  · exact frames_succ L v count

theorem freed_update (doFree : Bool) (L : ℕ → Option ℕ) (v count : ℕ) :
    freed doFree (update L v none) (v + 1) count = freed doFree L (v + 1) count := by
  cases doFree
  · rfl
  · exact frames_congr fun w hw _ => update_of_ne (by omega) _ _

-- uvmunmap's loop takes mapped pages out of the table, and frees them if it is to.
theorem unmapLoop_spec {count : ℕ} (doFree : Bool) (hv : (v + count) * PGSIZE ≤ MAXVA) (h : Maps s.mem pagetable L)
    (hL : ∀ w, v ≤ w → w < v + count → ∃ pte, L w = some pte ∧ pteFlags pte ≠ PTE_V)
    (ho : s.Owned (s.mem.tables 2 pagetable + freed doFree L v count)) :
    wp (unmapLoop pagetable doFree count (v * PGSIZE)) (fun _ t =>
      t.mem.tables 2 pagetable = s.mem.tables 2 pagetable ∧ Maps t.mem pagetable (unmapped L v count) ∧
        Uses (s.mem.tables 2 pagetable + freed doFree L v count) (t.mem.tables 2 pagetable) s t)
      (fun _ => False) s := by
  induction count generalizing v L s with
  | zero =>
      refine ⟨rfl, by rwa [unmapped_zero], ?_⟩
      rw [freed_zero, add_zero]
      exact .refl _ s
  | succ count ih =>
      have hmax : MAXVA = 2 ^ 38 := rfl
      have hsize : PGSIZE = 4096 := rfl
      have hdiv : v * PGSIZE / PGSIZE = v := Nat.mul_div_cancel v (by decide)
      have hva : v * PGSIZE < MAXVA := by
        rw [hsize] at hv ⊢
        omega
      have hva' : v * PGSIZE < 2 ^ 39 := by omega
      have hnext : v * PGSIZE + PGSIZE = (v + 1) * PGSIZE := (Nat.succ_mul v PGSIZE).symm
      obtain ⟨pte, hpte, hflags⟩ := hL v le_rfl (by omega)
      obtain ⟨a, ha, hread, hvalid⟩ := h.walk hva' (by rwa [hdiv])
      rw [freed_succ, hpte, Option.getD_some] at ho ⊢
      set T := s.mem.tables 2 pagetable with hT
      set one : Multiset ℕ := if doFree then {pte2pa pte} else 0 with hone
      set F := freed doFree L (v + 1) count with hF
      -- The PTE is cleared and the loop goes on, once the page is freed.
      have hrest : ∀ t, Uses one 0 s t → wp (do
          setPte a 0
          unmapLoop pagetable doFree count (v * PGSIZE + PGSIZE)) (fun _ u =>
            u.mem.tables 2 pagetable = T ∧ Maps u.mem pagetable (unmapped L v (count + 1)) ∧
              Uses (T + (one + F)) (u.mem.tables 2 pagetable) s u) (fun _ => False) t := by
        intro t ht
        have hkept : ∀ q ∈ T, t.mem q = s.mem q :=
          fun q hq => ht.kept (R := T + F) (ho.congr (by ac_rfl)) q (Multiset.mem_add.mpr (.inl hq))
        have htables : t.mem.tables 2 pagetable = T := Mem.tables_congr hkept
        have huses : Uses (T + (one + F)) (T + F) s t :=
          (ht.frame (T + F)).congr (by ac_rfl) (zero_add _).symm
        have hot := huses.owned ho
        have hwalk : t.mem.walk 2 pagetable (v * PGSIZE) = some a := by
          rw [Mem.walk_congr_tables hkept, ha]
        obtain ⟨htables', hmaps, huses'⟩ := (h.congr hkept).setPte hva'
          (htables ▸ hot.left) hwalk (show 0 < 2 ^ 64 by decide)
        rw [htables] at htables' huses'
        rw [hdiv, Option.filter_some, if_neg (by simp [Mem.hasFlag_zero])] at hmaps
        rw [htables'] at huses'
        have hou := (huses'.frame F).owned hot
        simp only [setPte, wp_bind, wp_modify, hnext]
        have hcount : v + 1 + count = v + (count + 1) := by omega
        have hloop := ih (v := v + 1) (hcount ▸ hv) hmaps
          (fun w hw hw' => by
            rw [update_of_ne (by omega)]
            exact hL w (by omega) (by omega))
          (by rw [htables', freed_update]; exact hou)
        refine wp_post hloop fun _ u hu => ?_
        rw [htables', freed_update, unmapped_succ] at hu
        exact ⟨hu.1, hu.2.1, huses.trans ((huses'.frame F).trans hu.2.2)⟩
      simp only [unmapLoop, wp_bind]
      rw [wp_walk_false hva, ha]
      simp only [wp_bind, wp_get, hread, hvalid, Bool.not_true, Bool.false_eq_true, ite_false, hflags]
      cases doFree with
      | false => exact hrest s (.refl 0 s)
      | true =>
          simp only [ite_true, wp_bind]
          refine wp_post (kfree_spec (ho.right.left (R := F))) fun _ t ht => ?_
          exact hrest t ht

theorem uvmunmap_spec {npages : ℕ} (doFree : Bool) (hv : (v + npages) * PGSIZE ≤ MAXVA) (h : Maps s.mem pagetable L)
    (hL : ∀ w, v ≤ w → w < v + npages → ∃ pte, L w = some pte ∧ pteFlags pte ≠ PTE_V)
    (ho : s.Owned (s.mem.tables 2 pagetable + freed doFree L v npages)) :
    wp (uvmunmap pagetable (v * PGSIZE) npages doFree) (fun _ t =>
      t.mem.tables 2 pagetable = s.mem.tables 2 pagetable ∧ Maps t.mem pagetable (unmapped L v npages) ∧
        Uses (s.mem.tables 2 pagetable + freed doFree L v npages) (t.mem.tables 2 pagetable) s t)
      (fun _ => False) s := by
  have hend : v * PGSIZE + npages * PGSIZE < 2 ^ 64 := by
    rw [← Nat.add_mul]
    exact lt_of_le_of_lt hv (by decide)
  have hcount : ((v * PGSIZE + npages * PGSIZE) % 2 ^ 64 - v * PGSIZE) / PGSIZE = npages := by
    rw [Nat.mod_eq_of_lt hend, Nat.add_sub_cancel_left, Nat.mul_div_cancel npages (by decide)]
  simp only [uvmunmap, Nat.mul_mod_left, ne_eq, not_true_eq_false, ite_false, hcount]
  exact unmapLoop_spec doFree hv h hL ho

-- No PTE of the last level is valid.
def Mem.NoLeaf (mem : Mem) : (level pagetable : ℕ) → Prop
  | 0, pagetable => ∀ i < 512, hasFlag (mem.pte pagetable i) PTE_V = false
  | level + 1, pagetable => ∀ i < 512, hasFlag (mem.pte pagetable i) PTE_V = true →
      mem.NoLeaf level (pte2pa (mem.pte pagetable i))

theorem Mem.noLeaf_congr {mem mem' : Mem} {pagetable : ℕ}
    (h : ∀ q ∈ mem.tables level pagetable, mem' q = mem q) (hn : mem.NoLeaf level pagetable) :
    mem'.NoLeaf level pagetable := by
  induction level generalizing pagetable with
  | zero =>
      intro i hi
      rw [Mem.pte_congr (h pagetable (Mem.root_mem_tables _ _ _))]
      exact hn i hi
  | succ level ih =>
      intro i hi hv
      rw [Mem.pte_congr (h pagetable (Mem.root_mem_tables _ _ _))] at hv ⊢
      exact ih (fun q hq => h q (Multiset.mem_of_le (Mem.child_le_tables hi hv) hq)) (hn i hi hv)

theorem Mem.walk_px_congr (mem : Mem) {va' : ℕ} (h : ∀ k ≤ level, px k va' = px k va)
    (pagetable : ℕ) : mem.walk level pagetable va' = mem.walk level pagetable va := by
  induction level generalizing pagetable with
  | zero => rw [Mem.walk, Mem.walk, h 0 le_rfl]
  | succ level ih =>
      rw [Mem.walk, Mem.walk, h (level + 1) le_rfl]
      split
      · exact ih (fun k hk => h k (by omega)) _
      · rfl

-- An address below entry i of a table of level + 1.
theorem px_below {i : ℕ} (hva : va < 2 ^ (12 + 9 * (level + 1))) (hi : i < 512) :
    px (level + 1) (i * 2 ^ (12 + 9 * (level + 1)) + va) = i ∧
      ∀ k ≤ level, px k (i * 2 ^ (12 + 9 * (level + 1)) + va) = px k va := by
  have hpos : ∀ n, 0 < 2 ^ n := fun n => by positivity
  constructor
  · rw [px, Nat.add_comm, Nat.add_mul_div_right _ _ (hpos _), Nat.div_eq_of_lt hva]
    omega
  · intro k hk
    have hpow : 2 ^ (12 + 9 * (level + 1)) = 2 ^ (9 * (level - k)) * 512 * 2 ^ (12 + 9 * k) := by
      rw [show 512 = 2 ^ 9 by norm_num, ← pow_add, ← pow_add]
      congr 1
      omega
    rw [px, hpow, ← Nat.mul_assoc, ← Nat.mul_assoc, Nat.add_comm, Nat.add_mul_div_right _ _ (hpos _),
      Nat.add_mul_mod_self_right, px]

theorem Mem.noLeaf_of_entry {mem : Mem} {pagetable : ℕ}
    (h : ∀ va < 2 ^ (12 + 9 * (level + 1)), mem.entry level pagetable va = none) :
    mem.NoLeaf level pagetable := by
  induction level generalizing pagetable with
  | zero =>
      intro i hi
      have hpx : px 0 (i * 2 ^ 12) = i := by
        simp only [px]
        omega
      have hnone := h (i * 2 ^ 12) (by omega)
      rw [Mem.entry, Mem.walk, hpx] at hnone
      simpa using Option.filter_eq_none_iff.mp hnone (mem.pte pagetable i) rfl
  | succ level ih =>
      intro i hi hv
      apply ih
      intro va hva
      obtain ⟨htop, hlow⟩ := px_below hva hi
      have hlt : i * 2 ^ (12 + 9 * (level + 1)) + va < 2 ^ (12 + 9 * (level + 1 + 1)) := by
        calc i * 2 ^ (12 + 9 * (level + 1)) + va
            < i * 2 ^ (12 + 9 * (level + 1)) + 2 ^ (12 + 9 * (level + 1)) := by omega
          _ = (i + 1) * 2 ^ (12 + 9 * (level + 1)) := (Nat.succ_mul _ _).symm
          _ ≤ 2 ^ 9 * 2 ^ (12 + 9 * (level + 1)) := Nat.mul_le_mul_right _ hi
          _ = 2 ^ (12 + 9 * (level + 1 + 1)) := by
            rw [← pow_add]
            congr 1
            omega
      have hnone := h _ hlt
      rw [Mem.entry_succ, htop, if_pos hv, Mem.entry, mem.walk_px_congr hlow] at hnone
      exact hnone

theorem hasFlag_pteFlags (pte : ℕ) {flag : ℕ} (h : flag < 2 ^ 10) :
    hasFlag (pteFlags pte) flag = hasFlag pte flag := by
  have hand : pte % 2 ^ 10 &&& flag = pte &&& flag := by
    apply Nat.eq_of_testBit_eq
    intro i
    simp only [Nat.testBit_and, Nat.testBit_mod_two_pow]
    by_cases hi : i < 10
    · simp [hi]
    · have hbit : flag.testBit i = false :=
        Nat.testBit_lt_two_pow (lt_of_lt_of_le h (Nat.pow_le_pow_right (by decide) (by omega)))
      simp [hbit]
  rw [hasFlag, hasFlag, pteFlags, hand]

private def below (mem : Mem) (level pagetable : ℕ) (rest : List ℕ) : Multiset ℕ :=
  (rest.map fun i => Mem.branch (mem.tables level) (mem.pte pagetable i)).sum

private theorem tables_eq_below (mem : Mem) (level pagetable : ℕ) :
    mem.tables (level + 1) pagetable = {pagetable} + below mem level pagetable (List.range 512) := by
  rw [Mem.tables, below, Finset.sum_eq_multiset_sum, Finset.range_val, Multiset.range, Multiset.map_coe,
    Multiset.sum_coe]

-- freewalk's loop: the tables below the entries passed are freed.
private structure Freeing (level pagetable : ℕ) (s : Ram) (rest : List ℕ) (t : Ram) : Prop where
  nodup : rest.Nodup
  lt : ∀ i ∈ rest, i < 512
  pte : ∀ i ∈ rest, t.mem.pte pagetable i = s.mem.pte pagetable i
  kept : ∀ q ∈ below s.mem level pagetable rest, t.mem q = s.mem q
  uses : Uses (s.mem.tables (level + 1) pagetable) ({pagetable} + below s.mem level pagetable rest) s t

-- freewalk frees the pages of a table without leaves.
theorem freewalk_spec {pagetable : ℕ} {s : Ram} (ho : s.Owned (s.mem.tables level pagetable))
    (hd : s.mem.Dirs level pagetable) (hn : s.mem.NoLeaf level pagetable) :
    wp (freewalk (level + 1) pagetable) (fun _ t => Uses (s.mem.tables level pagetable) 0 s t)
      (fun _ => False) s := by
  induction level generalizing pagetable s with
  | zero =>
      rw [freewalk, wp_bind]
      have hitems : ∀ i ∈ List.range 512, i < 512 := fun i hi => List.mem_range.mp hi
      generalize List.range 512 = items at hitems
      refine wp_post (wp_forM (fun rest t => t = s ∧ ∀ i ∈ rest, i < 512) ?_ items
        ⟨rfl, hitems⟩) ?_
      · rintro i rest t ⟨rfl, hrest⟩
        have hnot := hn i (hrest i (by simp))
        simp only [wp_bind, wp_get, hnot, Bool.false_and, Bool.false_eq_true, ite_false, wp_pure]
        exact ⟨trivial, fun j hj => hrest j (by simp [hj])⟩
      · rintro _ t ⟨rfl, -⟩
        rw [Mem.tables] at ho ⊢
        exact kfree_spec ho
  | succ level ih =>
      rw [freewalk, wp_bind]
      -- The recursive call is not for the unifier to run.
      generalize freewalk (level + 1) = free at ih ⊢
      have hlt : ∀ i ∈ List.range 512, i < 512 := fun i hi => List.mem_range.mp hi
      have hnodup : (List.range 512).Nodup := List.nodup_range
      have htables := tables_eq_below s.mem level pagetable
      generalize List.range 512 = items at hlt hnodup htables
      refine wp_post (wp_forM (Freeing level pagetable s) ?_ items ?_) ?_
      · intro i rest t hf
        have hi := hf.lt i (by simp)
        have hpte := hf.pte i (by simp)
        obtain ⟨hnot, hrest⟩ := List.nodup_cons.mp hf.nodup
        have hlt' : ∀ j ∈ rest, j < 512 := fun j hj => hf.lt j (by simp [hj])
        have hcons : below s.mem level pagetable (i :: rest) =
            Mem.branch (s.mem.tables level) (s.mem.pte pagetable i) + below s.mem level pagetable rest := by
          simp only [below, List.map_cons, List.sum_cons]
        have huses := hf.uses
        have hot := huses.owned ho
        have hkept := hf.kept
        rw [hcons] at huses hot hkept
        simp only [wp_bind, wp_get, hpte]
        cases hv : hasFlag (s.mem.pte pagetable i) PTE_V with
        | false =>
            rw [Mem.branch_of_not hv, zero_add] at huses hkept
            simp only [Bool.false_and, Bool.false_eq_true, ite_false, wp_pure]
            exact ⟨hrest, hlt', fun j hj => hf.pte j (by simp [hj]), hkept, huses⟩
        | true =>
            obtain ⟨hflags, hdirs⟩ := hd i hi hv
            have hrwx : hasFlag (s.mem.pte pagetable i) (PTE_R ||| PTE_W ||| PTE_X) = false := by
              rw [← hasFlag_pteFlags _ (by decide), hflags]
              decide
            rw [Mem.branch_of_valid hv] at huses hot hkept
            set c := pte2pa (s.mem.pte pagetable i)
            have hchild : ∀ q ∈ s.mem.tables level c, t.mem q = s.mem q :=
              fun q hq => hkept q (Multiset.mem_add.mpr (.inl hq))
            have htables := Mem.tables_congr hchild
            have hown : t.Owned (t.mem.tables level c + ({pagetable} + below s.mem level pagetable rest)) :=
              hot.congr (by rw [htables]; ac_rfl)
            simp only [hrwx, Bool.not_false, Bool.and_true, ite_true, wp_bind]
            refine wp_post (ih hown.left (Mem.dirs_congr hchild hdirs)
              (Mem.noLeaf_congr hchild (hn i hi hv))) fun _ u hu => ?_
            have hkeptu := hu.kept hown
            have hroot : pagetable ∉ below s.mem level pagetable rest := by
              have hn := hown.right.nodup
              rw [Multiset.singleton_add, Multiset.nodup_cons] at hn
              exact hn.1
            simp only [setPte, wp_modify]
            refine ⟨hrest, hlt', fun j hj => ?_, fun q hq => ?_, ?_⟩
            · have hji : j ≠ i := by
                rintro rfl
                exact hnot hj
              rw [Mem.pte_setPte_of_ne _ _ _ hji, Mem.pte_congr (hkeptu pagetable (by simp)),
                hf.pte j (by simp [hj])]
            · have hq' : q ≠ pagetable := by
                rintro rfl
                exact hroot hq
              calc u.mem.setPte pagetable i 0 q = u.mem q := update_of_ne hq' _ _
                _ = t.mem q := hkeptu q (Multiset.mem_add.mpr (.inr hq))
                _ = s.mem q := hkept q (Multiset.mem_add.mpr (.inr hq))
            · have hfreed := (hu.frame ({pagetable} + below s.mem level pagetable rest)).congr
                (show {pagetable} + (s.mem.tables level c + below s.mem level pagetable rest) = _ by
                  rw [htables]; ac_rfl) (zero_add _).symm
              exact (huses.trans hfreed).trans
                (Uses.write u (Multiset.mem_add.mpr (.inl (Multiset.mem_singleton_self _))) _)
      · exact ⟨hnodup, hlt, fun _ _ => rfl, fun _ _ => rfl, htables ▸ .refl _ s⟩
      · intro _ t hf
        have hempty : below s.mem level pagetable [] = 0 := rfl
        have huses := hf.uses
        rw [hempty, add_zero] at huses
        exact wp_post (kfree_spec (huses.owned ho)) fun _ u hu => huses.trans hu

end Xv6
