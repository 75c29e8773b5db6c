import Xv6.Kernel.Pagetable

namespace Xv6

open Wp Ram

def Image (mem : Mem) (L : ℕ → Option ℕ) (n : ℕ) (img : ℕ → UInt8) : Prop :=
  ∀ v < n, ∃ pte, L v = some pte ∧ ∀ k < PGSIZE, mem (pte2pa pte) k = img (v * PGSIZE + k)

def overlay (img : ℕ → UInt8) (va len : ℕ) (src : ℕ → UInt8) : ℕ → UInt8 :=
  fun o => if va ≤ o ∧ o < va + len then src (o - va) else img o

theorem overlay_of_mem {img src : ℕ → UInt8} {va len o : ℕ} (h : va ≤ o ∧ o < va + len) :
    overlay img va len src o = src (o - va) := if_pos h

theorem overlay_of_notMem {img src : ℕ → UInt8} {va len o : ℕ} (h : ¬(va ≤ o ∧ o < va + len)) :
    overlay img va len src o = img o := if_neg h

@[simp] theorem overlay_zero (img : ℕ → UInt8) (va : ℕ) (src : ℕ → UInt8) : overlay img va 0 src = img := by
  funext o
  exact if_neg (by omega)

theorem page_div (v : ℕ) {k : ℕ} (hk : k < PGSIZE) : (v * PGSIZE + k) / PGSIZE = v := by
  rw [Nat.mul_comm, Nat.mul_add_div (by decide), Nat.div_eq_of_lt hk, Nat.add_zero]

theorem page_mod (v : ℕ) {k : ℕ} (hk : k < PGSIZE) : (v * PGSIZE + k) % PGSIZE = k := by
  rw [Nat.mul_comm, Nat.mul_add_mod, Nat.mod_eq_of_lt hk]

variable {mem mem' : Mem} {pt n m : ℕ} {L top : ℕ → Option ℕ} {img img' : ℕ → UInt8} {r : Ram}

-- Different pages of user memory are different pages of RAM.
theorem frames_inj (hnodup : (frames L 0 n).Nodup) {v w pte pte' : ℕ} (hv : v < n) (hw : w < n) (hL : L v = some pte)
    (hL' : L w = some pte') (h : pte2pa pte = pte2pa pte') : v = w := by
  rw [frames, Multiset.coe_nodup] at hnodup
  refine List.inj_on_of_nodup_map hnodup (List.mem_range'_1.mpr (by omega)) (List.mem_range'_1.mpr (by omega)) ?_
  rw [hL, hL']
  exact h

namespace Image

theorem congr (h : Image mem L n img) (hmem : ∀ q ∈ frames L 0 n, mem' q = mem q) : Image mem' L n img := by
  intro v hv
  obtain ⟨pte, hL, hbytes⟩ := h v hv
  refine ⟨pte, hL, fun k hk => ?_⟩
  rw [hmem _ (mem_frames_of hv hL), hbytes k hk]

theorem update (h : Image mem L n img) {v pte pte' : ℕ} (hL : L v = some pte) (hpa : pte2pa pte' = pte2pa pte) :
    Image mem (Function.update L v (some pte')) n img := by
  intro w hw
  obtain ⟨pte₀, hL₀, hbytes⟩ := h w hw
  by_cases hwv : w = v
  · subst hwv
    obtain rfl : pte = pte₀ := Option.some.inj (hL.symm.trans hL₀)
    refine ⟨pte', Function.update_self .., fun k hk => ?_⟩
    rw [hpa, hbytes k hk]
  · exact ⟨pte₀, (Function.update_of_ne hwv _ _).trans hL₀, hbytes⟩

theorem extend {L' : ℕ → Option ℕ} {perm : ℕ} (h : Image mem L n img) (hbeyond : ∀ o, n * PGSIZE ≤ o → img o = 0)
    (hext : Extends L L' n m perm) (hzero : Zeroed mem' L' n m) (hkept : ∀ q ∈ frames L 0 n, mem' q = mem q) :
    Image mem' L' m img := by
  intro v hv
  by_cases hold : v < n
  · obtain ⟨pte, hL, hbytes⟩ := h.congr hkept v hold
    exact ⟨pte, (hext.same v (.inl hold)).trans hL, hbytes⟩
  · obtain ⟨pte, hL, hbytes⟩ := hzero v (by omega) hv
    refine ⟨pte, hL, fun k hk => ?_⟩
    have hle : n * PGSIZE ≤ v * PGSIZE := Nat.mul_le_mul_right _ (by omega)
    rw [hbytes, hbeyond _ (by omega)]

theorem write (h : Image mem L n img) (hnodup : (frames L 0 n).Nodup) {v pte : ℕ} (hv : v < n) (hL : L v = some pte)
    {page : Page} (hpage : ∀ k < PGSIZE, page k = img' (v * PGSIZE + k))
    (hrest : ∀ o, o / PGSIZE ≠ v → img' o = img o) : Image (Function.update mem (pte2pa pte) page) L n img' := by
  intro w hw
  obtain ⟨pte', hL', hbytes⟩ := h w hw
  refine ⟨pte', hL', fun k hk => ?_⟩
  by_cases hwv : w = v
  · subst hwv
    obtain rfl : pte = pte' := Option.some.inj (hL.symm.trans hL')
    rw [Function.update_self, hpage k hk]
  · have hne : pte2pa pte' ≠ pte2pa pte := fun heq => hwv (frames_inj hnodup hw hv hL' hL heq)
    rw [Function.update_of_ne hne, hbytes k hk, hrest _ (by rw [page_div w hk]; exact hwv)]

theorem byte (h : Image mem L n img) {va : ℕ} (hva : va / PGSIZE < n) :
    ∃ pte, L (va / PGSIZE) = some pte ∧ mem (pte2pa pte) (va % PGSIZE) = img va := by
  obtain ⟨pte, hL, hbytes⟩ := h _ hva
  refine ⟨pte, hL, ?_⟩
  rw [hbytes _ (Nat.mod_lt _ (by decide)), Nat.mul_comm, Nat.div_add_mod]

end Image

theorem Space.userPages (h : Space r.mem pt L n top) (hguard : Guarded top) (ho : r.Owned (r.space pt L n))
    (hkend : KERNBASE ≤ r.kend) : r.mem.UserPages pt := by
  refine ⟨fun va pte hleaf huser va' _ hmem => ?_, fun va pte hleaf huser hzero => ?_⟩
  · have hframe := h.leaf_mem hguard hleaf huser
    have htable := Mem.walkPages_mem_tables _ _ _ _ _ hmem
    exact Multiset.disjoint_left.mp (Multiset.nodup_add.mp ho.nodup).2.2 htable hframe
  · have hin := (ho.right.inRam (h.leaf_mem hguard hleaf huser)).1
    have hbase : 0 < KERNBASE := by decide
    rw [hzero, Nat.zero_mul] at hin
    omega

def UserFrame (L : ℕ → Option ℕ) (v : ℕ) : Prop := ∃ pte, L v = some pte ∧ hasFlag pte PTE_U = true

theorem Space.userPage (h : Space r.mem pt L n top) (ho : r.Owned (r.space pt L n)) {va : ℕ} (hva : va / PGSIZE < n)
    (huser : UserFrame L (va / PGSIZE)) : UserPage r.mem pt va := by
  obtain ⟨pte, hL, hu⟩ := huser
  have hn := mul_le_maxva (le_trapframe ho.right)
  have hlt : va < n * PGSIZE := (Nat.div_lt_iff_lt_mul (by decide)).mp hva
  exact ⟨pte, by rw [h.maps.leaf (by omega), hL], hu⟩

theorem copyoutRam_image (va len : ℕ) (src : ℕ → UInt8) (h : Space r.mem pt L n top) (hguard : Guarded top)
    (ho : r.Owned (r.space pt L n)) (hkend : KERNBASE ≤ r.kend) (himg : Image r.mem L n img)
    (hva : ∀ k < len, (va + k) / PGSIZE < n ∧ UserFrame L ((va + k) / PGSIZE)) :
    wp (copyoutRam pt va src len) (fun x u => x = 0 ∧ Image u.mem L n (overlay img va len src)) (fun _ => False) r := by
  have hcopied := copyout_copied (h.userPages hguard ho hkend) va src len
  have huser : ∀ k < len, UserPage r.mem pt (va + k) := fun k hk => h.userPage ho (hva k hk).1 (hva k hk).2
  have hreached : ∀ k < len, Reached r.mem pt va k := fun k hk j hj => huser j (by omega)
  have htrans : ∀ k < len, ∃ pte, L ((va + k) / PGSIZE) = some pte ∧
      translate r.mem pt (va + k) = (pte2pa pte, (va + k) % PGSIZE) := by
    intro k hk
    obtain ⟨pte, hL, hu⟩ := (hva k hk).2
    have hn := mul_le_maxva (le_trapframe ho.right)
    have hlt : va + k < n * PGSIZE := (Nat.div_lt_iff_lt_mul (by decide)).mp (hva k hk).1
    refine ⟨pte, hL, ?_⟩
    rw [translate, walkaddr_of_leaf (by rw [h.maps.leaf (by omega), hL]) hu]
  -- Two addresses of one byte are one address.
  have hinj : ∀ (v k w : ℕ) (pte : ℕ), v < n → k < PGSIZE → L v = some pte → w < len →
      translate r.mem pt (va + w) = (pte2pa pte, k) → va + w = v * PGSIZE + k := by
    intro v k w pte hv hk hL hw heq
    obtain ⟨pte', hL', htr⟩ := htrans w hw
    rw [htr, Prod.mk.injEq] at heq
    have hpage := frames_inj ho.right.nodup (hva w hw).1 hv hL' hL heq.1
    rw [← Nat.div_add_mod (va + w) PGSIZE, hpage, heq.2, Nat.mul_comm]
  refine ⟨hcopied.done huser, fun v hv => ?_⟩
  obtain ⟨pte, hL, hbytes⟩ := himg v hv
  refine ⟨pte, hL, fun k hk => ?_⟩
  by_cases hin : va ≤ v * PGSIZE + k ∧ v * PGSIZE + k < va + len
  · have hw : v * PGSIZE + k - va < len := by omega
    have hadd : va + (v * PGSIZE + k - va) = v * PGSIZE + k := by omega
    have hmod := page_mod v hk
    obtain ⟨pte', hL', htr⟩ := htrans _ hw
    rw [hadd, page_div v hk, hL] at hL'
    obtain rfl : pte = pte' := Option.some.inj hL'
    have hwritten := hcopied.written _ hw (hreached _ hw) fun j hj hj' _ heq => by
      rw [htr, hadd, hmod] at heq
      have := hinj v k j pte hv hk hL hj' heq
      omega
    rw [htr, hadd, hmod] at hwritten
    rw [overlay_of_mem hin]
    exact hwritten
  · rw [overlay_of_notMem hin, ← hbytes k hk]
    refine hcopied.kept _ _ fun w hw _ heq => hin ?_
    have := hinj v k w pte hv hk hL hw heq
    omega

theorem Image.view (h : Image mem L n img) (hspace : Space mem pt L n top) {va pte : ℕ} (hva : va / PGSIZE < n)
    (hmax : va < TRAPFRAME) (hL : L (va / PGSIZE) = some pte) : mem.view pt va = some (pteFlags pte, img va) := by
  obtain ⟨pte', hL', hbyte⟩ := h.byte hva
  obtain rfl : pte = pte' := Option.some.inj (hL.symm.trans hL')
  rw [Mem.view, hspace.leaf_below hmax, hL, Option.map_some, hbyte]

end Xv6
