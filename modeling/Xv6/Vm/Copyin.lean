import Xv6.Vm.Copyout
import Xv6.Vm.Map

namespace Xv6

open Wp

variable {n fuel srcva max : ℕ}

def Mem.user (mem : Mem) (pagetable va : ℕ) : UInt8 :=
  mem (translate mem pagetable va).1 (translate mem pagetable va).2

-- walkaddr with the walk that it calls, which panics above MAXVA.
def walkaddrRam (pagetable va : ℕ) : RamM ℕ := do
  if va ≥ MAXVA then return 0
  else
    match ← walk pagetable va false with
    | none => return 0
    | some a =>
        let pte := (← get).mem.read a
        if !hasFlag pte PTE_V then return 0
        else if !hasFlag pte PTE_U then return 0
        else return pte2pa pte

theorem walkaddrRam_spec (s : Ram) (pagetable va : ℕ) :
    wp (walkaddrRam pagetable va) (fun r t => r = walkaddr s.mem pagetable va ∧ t = s) (fun _ => False) s := by
  unfold walkaddrRam walkaddr
  by_cases hva : va ≥ MAXVA
  · rw [if_pos hva, if_pos hva]
    exact ⟨rfl, rfl⟩
  · rw [if_neg hva, if_neg hva, wp_bind, wp_walk_false (by omega)]
    cases s.mem.walk 2 pagetable va with
    | none => exact ⟨rfl, rfl⟩
    | some a =>
        simp only [wp_bind, wp_get, wp_ite, wp_pure]
        split
        · exact ⟨rfl, trivial⟩
        split
        · exact ⟨rfl, trivial⟩
        · exact ⟨rfl, trivial⟩

variable {mem : Mem} {pagetable : ℕ}

theorem walkaddr_ne_zero (hz : mem.NoZeroPage pagetable) (va : ℕ) :
    walkaddr mem pagetable (pgRoundDown va) ≠ 0 ↔ UserPage mem pagetable va := by
  constructor
  · intro hne
    by_contra hnot
    exact hne (walkaddr_of_not hnot)
  · rintro ⟨pte, hl, huser⟩
    rw [walkaddr_of_leaf hl huser]
    exact hz va pte hl huser

theorem bytes_eq_user (mem : Mem) (pagetable : ℕ) {va : ℕ}
    (hpage : ∀ k, k < n → pgRoundDown (va + k) = pgRoundDown va) :
    mem.bytes (walkaddr mem pagetable (pgRoundDown va)) (va - pgRoundDown va) n =
      (List.range n).map fun k => mem.user pagetable (va + k) := by
  refine List.map_congr_left fun k hk => ?_
  rw [Mem.user, translate_page mem pagetable (hpage k (List.mem_range.mp hk))]

theorem map_range_add {α : Type*} (f : ℕ → α) (n m : ℕ) :
    (List.range n).map f ++ (List.range m).map (fun k => f (n + k)) = (List.range (n + m)).map f := by
  rw [List.range_add, List.map_append, List.map_map]
  rfl

theorem copyinLoop_done (hz : mem.NoZeroPage pagetable) {len : ℕ} (hfuel : len ≤ fuel)
    (h : ∀ k, k < len → UserPage mem pagetable (srcva + k)) :
    copyinLoop mem pagetable fuel srcva len =
      ((List.range len).map fun k => mem.user pagetable (srcva + k), 0) := by
  induction fuel generalizing srcva len with
  | zero =>
      obtain rfl : len = 0 := by omega
      rfl
  | succ fuel ih =>
      rw [copyinLoop]
      by_cases hlen : len = 0
      · rw [if_pos hlen, hlen]
        rfl
      · obtain ⟨hpos, hle, -, hfirst, hnext⟩ := pass_covers srcva len (by omega)
        simp only [hlen, ite_false]
        rw [if_neg ((walkaddr_ne_zero hz srcva).mpr (h 0 (by omega)))]
        set n := min (PGSIZE - (srcva - pgRoundDown srcva)) len with hn
        have hshift : ∀ k, k < len - n → pgRoundDown srcva + PGSIZE + k = srcva + (n + k) := by
          intro k hk
          have hend := hnext (by omega)
          omega
        rw [ih (by omega) fun k hk => by rw [hshift k hk]; exact h _ (by omega)]
        have hrest : (List.range (len - n)).map (fun k => mem.user pagetable (pgRoundDown srcva + PGSIZE + k)) =
            (List.range (len - n)).map fun k => mem.user pagetable (srcva + (n + k)) :=
          List.map_congr_left fun k hk => by rw [hshift k (List.mem_range.mp hk)]
        simp only [hrest, bytes_eq_user mem pagetable hfirst]
        rw [map_range_add (fun k => mem.user pagetable (srcva + k)) n (len - n), Nat.add_sub_cancel' hle]

theorem copyinLoop_stopped {len : ℕ} (hfuel : len ≤ fuel)
    (h : ∃ k, k < len ∧ ¬UserPage mem pagetable (srcva + k)) : (copyinLoop mem pagetable fuel srcva len).2 = -1 := by
  induction fuel generalizing srcva len with
  | zero =>
      obtain ⟨k, hk, -⟩ := h
      omega
  | succ fuel ih =>
      obtain ⟨k, hk, hnot⟩ := h
      obtain ⟨hpos, hle, -, hfirst, hnext⟩ := pass_covers srcva len (by omega)
      rw [copyinLoop]
      simp only [show len ≠ 0 by omega, ite_false]
      split
      · rfl
      · rename_i haddr
        set n := min (PGSIZE - (srcva - pgRoundDown srcva)) len with hn
        have huser : UserPage mem pagetable srcva := by
          by_contra hno
          exact haddr (walkaddr_of_not hno)
        have hkn : n ≤ k := by
          by_contra hlt
          exact hnot (huser.of_page (hfirst k (by omega)))
        have hend := hnext (by omega)
        refine ih (by omega) ⟨k - n, by omega, ?_⟩
        rwa [← hend, show srcva + n + (k - n) = srcva + k by omega]

-- The first NUL is n bytes after va, and the user may access all bytes up to it.
structure NulAt (mem : Mem) (pagetable va n : ℕ) : Prop where
  nul : mem.user pagetable (va + n) = 0
  first : ∀ k, k < n → mem.user pagetable (va + k) ≠ 0
  user : ∀ k, k ≤ n → UserPage mem pagetable (va + k)

theorem exists_nulAt {va : ℕ}
    (h : ∃ n, n < max ∧ mem.user pagetable (va + n) = 0 ∧ ∀ k, k ≤ n → UserPage mem pagetable (va + k)) :
    ∃ n, n < max ∧ NulAt mem pagetable va n := by
  have hex : ∃ n, mem.user pagetable (va + n) = 0 := by
    obtain ⟨n, -, hnul, -⟩ := h
    exact ⟨n, hnul⟩
  obtain ⟨n, hn, hnul, huser⟩ := h
  have hle : Nat.find hex ≤ n := Nat.find_min' hex hnul
  exact ⟨Nat.find hex, by omega, Nat.find_spec hex, fun k hk => Nat.find_min hex hk, fun k hk => huser k (by omega)⟩

theorem takeWhile_range {f : ℕ → UInt8} {m : ℕ} (hn : n < m) (hnul : f n = 0) (hfirst : ∀ k, k < n → f k ≠ 0) :
    ((List.range m).map f).takeWhile (· ≠ 0) = (List.range n).map f := by
  obtain ⟨j, rfl⟩ := Nat.exists_eq_add_of_lt hn
  rw [show n + j + 1 = n + (j + 1) by omega, ← map_range_add f n (j + 1), List.takeWhile_append_of_pos]
  · rw [List.range_succ_eq_map, List.map_cons, List.takeWhile_cons_of_neg (by simp [hnul]), List.append_nil]
  · intro b hb
    obtain ⟨k, hk, rfl⟩ := List.mem_map.mp hb
    simpa using hfirst k (List.mem_range.mp hk)

theorem copyinstrLoop_found (hz : mem.NoZeroPage pagetable) (hfuel : max ≤ fuel) (hn : n < max)
    (h : NulAt mem pagetable srcva n) :
    copyinstrLoop mem pagetable fuel srcva max =
      ((List.range n).map (fun k => mem.user pagetable (srcva + k)) ++ [0], 0) := by
  induction fuel generalizing srcva max n with
  | zero => omega
  | succ fuel ih =>
      obtain ⟨hpos, hle, -, hfirst, hnext⟩ := pass_covers srcva max (by omega)
      rw [copyinstrLoop]
      simp only [show max ≠ 0 by omega, ite_false]
      rw [if_neg ((walkaddr_ne_zero hz srcva).mpr (h.user 0 (by omega)))]
      set m := min (PGSIZE - (srcva - pgRoundDown srcva)) max with hm
      rw [bytes_eq_user mem pagetable hfirst]
      by_cases hnm : n < m
      · have hmem : 0 ∈ (List.range m).map fun k => mem.user pagetable (srcva + k) :=
          List.mem_map.mpr ⟨n, List.mem_range.mpr hnm, h.nul⟩
        rw [if_pos hmem, takeWhile_range hnm h.nul h.first]
      · have hmem : 0 ∉ (List.range m).map fun k => mem.user pagetable (srcva + k) := by
          intro hmem
          obtain ⟨k, hk, hzero⟩ := List.mem_map.mp hmem
          rw [List.mem_range] at hk
          exact h.first k (by omega) hzero
        obtain ⟨j, rfl⟩ := Nat.exists_eq_add_of_le (show m ≤ n by omega)
        have hshift : ∀ k, pgRoundDown srcva + PGSIZE + k = srcva + (m + k) := by
          intro k
          have hend := hnext (by omega)
          omega
        have hrest : NulAt mem pagetable (pgRoundDown srcva + PGSIZE) j := by
          refine ⟨?_, fun k hk => ?_, fun k hk => ?_⟩
          · rw [hshift]
            exact h.nul
          · rw [hshift]
            exact h.first _ (by omega)
          · rw [hshift]
            exact h.user _ (by omega)
        rw [if_neg hmem, ih (by omega) (by omega) hrest]
        simp only [hshift]
        rw [← List.append_assoc, map_range_add (fun k => mem.user pagetable (srcva + k)) m j]

theorem copyinstrLoop_zero (mem : Mem) (pagetable fuel srcva : ℕ) :
    copyinstrLoop mem pagetable fuel srcva 0 = ([], -1) := by
  cases fuel <;> rfl

theorem copyinstrLoop_sound (hfuel : max ≤ fuel)
    (h : (copyinstrLoop mem pagetable fuel srcva max).2 = 0) : ∃ n, n < max ∧ NulAt mem pagetable srcva n := by
  induction fuel generalizing srcva max with
  | zero => exact absurd (show (-1 : Int) = 0 from h) (by decide)
  | succ fuel ih =>
      rw [copyinstrLoop] at h
      split at h
      · exact absurd h (by decide)
      rename_i hmax
      obtain ⟨hpos, hle, -, hfirst, hnext⟩ := pass_covers srcva max (by omega)
      simp only at h
      split at h
      · exact absurd h (by decide)
      rename_i haddr
      set m := min (PGSIZE - (srcva - pgRoundDown srcva)) max with hm
      have huser : UserPage mem pagetable srcva := by
        by_contra hno
        exact haddr (walkaddr_of_not hno)
      rw [bytes_eq_user mem pagetable hfirst] at h
      split at h
      · rename_i hmem
        obtain ⟨k, hk, hzero⟩ := List.mem_map.mp hmem
        rw [List.mem_range] at hk
        exact exists_nulAt ⟨k, by omega, hzero, fun j hj => huser.of_page (hfirst j (by omega))⟩
      · rename_i hmem
        have hlt : m < max := by
          by_contra hge
          rw [show max - m = 0 by omega, copyinstrLoop_zero] at h
          exact absurd (show (-1 : Int) = 0 from h) (by decide)
        obtain ⟨n, hn, hnul⟩ := ih (by omega) h
        have hshift : ∀ k, pgRoundDown srcva + PGSIZE + k = srcva + (m + k) := by
          intro k
          have hend := hnext hlt
          omega
        refine ⟨m + n, by omega, ?_, fun k hk => ?_, fun k hk => ?_⟩
        · rw [← hshift]
          exact hnul.nul
        · by_cases hkm : k < m
          · exact fun hzero => hmem (List.mem_map.mpr ⟨k, List.mem_range.mpr hkm, hzero⟩)
          · have hk' := hnul.first (k - m) (by omega)
            rwa [hshift, show m + (k - m) = k by omega] at hk'
        · by_cases hkm : k < m
          · exact huser.of_page (hfirst k hkm)
          · have hk' := hnul.user (k - m) (by omega)
            rwa [hshift, show m + (k - m) = k by omega] at hk'

theorem copyinstrLoop_length (mem : Mem) (pagetable fuel srcva max : ℕ) :
    (copyinstrLoop mem pagetable fuel srcva max).1.length ≤ max := by
  induction fuel generalizing srcva max with
  | zero => exact Nat.zero_le _
  | succ fuel ih =>
      rw [copyinstrLoop]
      split
      · exact Nat.zero_le _
      rename_i hmax
      simp only
      split
      · exact Nat.zero_le _
      set m := min (PGSIZE - (srcva - pgRoundDown srcva)) max with hm
      set chunk := mem.bytes (walkaddr mem pagetable (pgRoundDown srcva)) (srcva - pgRoundDown srcva) m with hchunk
      have hlen : chunk.length = m := by simp [hchunk, Mem.bytes]
      split
      · rename_i hmem
        -- The NUL itself is one of the bytes of the page.
        have hlt : (chunk.takeWhile (· ≠ 0)).length < chunk.length := by
          by_contra hge
          have hall := (List.takeWhile_prefix (· ≠ (0 : UInt8)) (l := chunk)).eq_of_length_le (by omega)
          have hzero := List.all_takeWhile (p := fun b : UInt8 => decide (b ≠ 0)) (l := chunk)
          rw [hall, List.all_eq_true] at hzero
          simpa using hzero 0 hmem
        rw [List.length_append, List.length_singleton]
        omega
      · have hrest := ih (pgRoundDown srcva + PGSIZE) (max - m)
        simp only [List.length_append, hlen]
        omega

-- copyin, copyout and copyinstr. copyout is on tables that it does not write to.
theorem user_copies_exact (hz : mem.NoZeroPage pagetable) :
    (∀ srcva len, ((copyin mem pagetable srcva len).2 = 0 ↔ ∀ k, k < len → UserPage mem pagetable (srcva + k)) ∧
      ((copyin mem pagetable srcva len).2 = 0 → (copyin mem pagetable srcva len).1 =
        (List.range len).map fun k => mem.user pagetable (srcva + k))) ∧
    (mem.Apart pagetable → ∀ dstva src len,
      ((copyout mem pagetable dstva src len).2 = 0 ↔ ∀ k, k < len → UserPage mem pagetable (dstva + k)) ∧
      ((copyout mem pagetable dstva src len).2 = 0 →
        (∀ k, k < len → (∀ j, k < j → j < len →
            translate mem pagetable (dstva + j) ≠ translate mem pagetable (dstva + k)) →
          (copyout mem pagetable dstva src len).1 (translate mem pagetable (dstva + k)).1
            (translate mem pagetable (dstva + k)).2 = src k) ∧
        ∀ q o, (∀ k, k < len → translate mem pagetable (dstva + k) ≠ (q, o)) →
          (copyout mem pagetable dstva src len).1 q o = mem q o)) ∧
    (∀ srcva max, ((copyinstr mem pagetable srcva max).2 = 0 ↔ ∃ n, n < max ∧
        mem.user pagetable (srcva + n) = 0 ∧ ∀ k, k ≤ n → UserPage mem pagetable (srcva + k)) ∧
      ((copyinstr mem pagetable srcva max).2 = 0 → ∃ n, n < max ∧ NulAt mem pagetable srcva n ∧
        (copyinstr mem pagetable srcva max).1 =
          (List.range n).map (fun k => mem.user pagetable (srcva + k)) ++ [0]) ∧
      (copyinstr mem pagetable srcva max).1.length ≤ max) ∧
    ∀ (s : Ram) va, wp (walkaddrRam pagetable va) (fun r t => r = walkaddr s.mem pagetable va ∧ t = s)
      (fun _ => False) s := by
  refine ⟨fun srcva len => ?_, fun hapart dstva src len => ?_, fun srcva max => ?_,
    fun s va => walkaddrRam_spec s pagetable va⟩
  · have hiff : (copyin mem pagetable srcva len).2 = 0 ↔ ∀ k, k < len → UserPage mem pagetable (srcva + k) := by
      refine ⟨fun hr k hk => ?_, fun h => congrArg Prod.snd (copyinLoop_done hz le_rfl h)⟩
      by_contra hnot
      have hstop := copyinLoop_stopped (le_refl len) ⟨k, hk, hnot⟩
      exact absurd (hstop.symm.trans hr) (by decide)
    exact ⟨hiff, fun hr => congrArg Prod.fst (copyinLoop_done hz le_rfl (hiff.mp hr))⟩
  · have hc := copyout_copied ⟨hapart, hz⟩ dstva src len
    have hall : (copyout mem pagetable dstva src len).2 = 0 → ∀ k, k < len → UserPage mem pagetable (dstva + k) := by
      intro hr k hk
      by_contra hnot
      exact absurd ((hc.stopped ⟨k, hk, hnot⟩).symm.trans hr) (by decide)
    refine ⟨⟨hall, hc.done⟩, fun hr => ⟨fun k hk hlast => ?_, fun q o hq => ?_⟩⟩
    · have hreached : Reached mem pagetable dstva k := fun j hj => hall hr j (by omega)
      exact hc.written k hk hreached fun j hj hj' _ => hlast j hj hj'
    · exact hc.kept q o fun k hk _ => hq k hk
  · have hsound : (copyinstr mem pagetable srcva max).2 = 0 → ∃ n, n < max ∧ NulAt mem pagetable srcva n :=
      copyinstrLoop_sound (le_refl max)
    refine ⟨⟨fun hr => ?_, fun h => ?_⟩, fun hr => ?_, copyinstrLoop_length mem pagetable max srcva max⟩
    · obtain ⟨n, hn, hnul⟩ := hsound hr
      exact ⟨n, hn, hnul.nul, hnul.user⟩
    · obtain ⟨n, hn, hnul⟩ := exists_nulAt h
      exact congrArg Prod.snd (copyinstrLoop_found hz le_rfl hn hnul)
    · obtain ⟨n, hn, hnul⟩ := hsound hr
      exact ⟨n, hn, hnul, congrArg Prod.fst (copyinstrLoop_found hz le_rfl hn hnul)⟩

-- A string of the program in textMem: a page of zeros at address 0.
theorem user_copies_exact_text : textMem.NoZeroPage 10 ∧ textMem.Apart 10 ∧
    ((copyinstr textMem 10 4095 2).2 = 0 ↔ ∃ n, n < 2 ∧ textMem.user 10 (4095 + n) = 0 ∧
      ∀ k, k ≤ n → UserPage textMem 10 (4095 + k)) ∧ (copyinstr textMem 10 4095 2) = ([0], 0) :=
  ⟨textMem_userTable.nonzero, textMem_userTable.apart,
    ((user_copies_exact textMem_userTable.nonzero).2.2.1 4095 2).1, by decide⟩

def oneLeafMem (pa : ℕ) : Mem :=
  Mem.setPte (Mem.setPte (Mem.setPte (fun _ _ => 0) 10 0 (pa2pte 11 ||| PTE_V))
    11 0 (pa2pte 12 ||| PTE_V)) 12 0 (pa2pte pa ||| (PTE_R ||| PTE_W ||| PTE_U ||| PTE_V))

-- A page that the user may access, page 0, cannot be copied from. And copyout to a
-- page of the table itself gets to an address that the user could not access.
theorem user_copies_zero_page :
    (UserPage (oneLeafMem 0) 10 0 ∧ (copyin (oneLeafMem 0) 10 0 1).2 = -1) ∧
    (¬UserPage (oneLeafMem 12) 10 (8 + 4088) ∧ (copyout (oneLeafMem 12) 10 8
      (fun k => if k = 0 then 17 else if k = 1 then 52 else 0) 4089).2 = 0) := by
  have hleaf : (oneLeafMem 0).leaf 10 0 = some 23 := by decide
  have hnone : (oneLeafMem 12).leaf 10 4096 = none := by decide
  refine ⟨⟨⟨23, hleaf, by decide⟩, by decide⟩, ?_, by decide +kernel⟩
  rintro ⟨pte, hl, -⟩
  rw [hnone] at hl
  cases hl

end Xv6
