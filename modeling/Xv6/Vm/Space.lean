import Xv6.Vm.Map

namespace Xv6

open Wp Ram
open Function (update update_of_ne update_self)

variable {sz pte v k oldsz newsz : ℕ} {L' : ℕ → Option ℕ} {perm : ℕ} {t : Ram} {page : ℕ} {R : Multiset ℕ} {count : ℕ}
    {mem : Mem} {xperm va : ℕ}

-- A page table of n pages of user memory, which maps the pages above them as top says.
structure Space (mem : Mem) (pagetable : ℕ) (L : ℕ → Option ℕ) (n : ℕ) (top : ℕ → Option ℕ) :
    Prop where
  maps : Maps mem pagetable L
  user : ∀ v < n, ∃ pte, L v = some pte ∧ hasFlag pte PTE_R = true
  above : ∀ v, n ≤ v → L v = top v

def Ram.space (s : Ram) (pagetable : ℕ) (L : ℕ → Option ℕ) (n : ℕ) : Multiset ℕ :=
  s.mem.tables 2 pagetable + frames L 0 n

-- The table maps nothing between the n pages and the last two pages of virtual memory.
def Clear (top : ℕ → Option ℕ) : Prop := ∀ v, v < TRAPFRAME / PGSIZE → top v = none

def Fits (sz n : ℕ) : Prop := sz ≤ n * PGSIZE ∧ n * PGSIZE < sz + PGSIZE

theorem Fits.roundUp {n : ℕ} (h : Fits sz n) (hn : n * PGSIZE < 2 ^ 64) :
    pgRoundUp sz = n * PGSIZE := by
  obtain ⟨hle, hlt⟩ := h
  simp only [pgRoundUp, PGSIZE] at *
  rw [Nat.mod_eq_of_lt (by omega)]
  omega

theorem pteFlags_ne_of_readable (h : hasFlag pte PTE_R = true) : pteFlags pte ≠ PTE_V := by
  intro he
  rw [← hasFlag_pteFlags pte (by decide), he] at h
  exact absurd h (by decide)

theorem frames_append (L : ℕ → Option ℕ) (v m k : ℕ) :
    frames L v (m + k) = frames L v m + frames L (v + m) k := by
  rw [frames, ← List.range'_append_1, List.map_append, ← Multiset.coe_add]
  rfl

theorem frames_one (L : ℕ → Option ℕ) (v : ℕ) : frames L v 1 = {pte2pa ((L v).getD 0)} := rfl

theorem card_frames (L : ℕ → Option ℕ) (v count : ℕ) : Multiset.card (frames L v count) = count := by
  simp [frames]

-- There are not more pages of user memory than pages of RAM.
theorem Ram.Owned.frames_le {s : Ram} {L : ℕ → Option ℕ} {n : ℕ} (ho : s.Owned (frames L 0 n)) :
    n ≤ PHYSTOP / PGSIZE := by
  have hsub : frames L 0 n ≤ Multiset.range (PHYSTOP / PGSIZE) := by
    rw [Multiset.le_iff_subset ho.nodup]
    intro q hq
    have hin : q * PGSIZE < PHYSTOP := (ho.inRam hq).2
    have hstop : PHYSTOP = PHYSTOP / PGSIZE * PGSIZE := by decide
    rw [hstop] at hin
    exact Multiset.mem_range.mpr (Nat.lt_of_mul_lt_mul_right hin)
  have hcard := Multiset.card_le_card hsub
  rwa [card_frames, Multiset.card_range] at hcard

theorem lt_maxva_of_le {n : ℕ} (h : n ≤ PHYSTOP / PGSIZE) : n < TRAPFRAME / PGSIZE := by
  have hstop : PHYSTOP / PGSIZE < TRAPFRAME / PGSIZE := by decide
  omega

theorem mul_lt_maxva (h : v < TRAPFRAME / PGSIZE) : v * PGSIZE < MAXVA := by
  have hsize : TRAPFRAME / PGSIZE = 2 ^ 26 - 2 := by decide
  have hmax : MAXVA = 2 ^ 26 * PGSIZE := by decide
  rw [hmax]
  exact Nat.mul_lt_mul_of_pos_right (by omega) (by decide)

theorem mul_le_maxva (h : v ≤ TRAPFRAME / PGSIZE) : v * PGSIZE ≤ MAXVA := by
  have hsize : TRAPFRAME / PGSIZE = 2 ^ 26 - 2 := by decide
  have hmax : MAXVA = 2 ^ 26 * PGSIZE := by decide
  rw [hmax]
  exact Nat.mul_le_mul_right _ (by omega)

namespace Space

variable {mem mem' : Mem} {pagetable n : ℕ} {L : ℕ → Option ℕ} {top : ℕ → Option ℕ} {s t : Ram}

theorem congr (h : Space mem pagetable L n top) (hm : ∀ q ∈ mem.tables 2 pagetable, mem' q = mem q) :
    Space mem' pagetable L n top :=
  ⟨h.maps.congr hm, h.user, h.above⟩

theorem mapped (h : Space mem pagetable L n top) {v : ℕ} (hv : v < n) :
    ∃ pte, L v = some pte ∧ pteFlags pte ≠ PTE_V := by
  obtain ⟨pte, hpte, hr⟩ := h.user v hv
  exact ⟨pte, hpte, pteFlags_ne_of_readable hr⟩

theorem shrink (h : Space mem pagetable L n top) {m : ℕ} (hm : m ≤ n) (hn : n ≤ TRAPFRAME / PGSIZE)
    (hclear : Clear top) (hmaps : Maps mem' pagetable (unmapped L m (n - m))) :
    Space mem' pagetable (unmapped L m (n - m)) m top := by
  refine ⟨hmaps, fun v hv => ?_, fun v hv => ?_⟩
  · rw [unmapped, if_neg (by omega)]
    exact h.user v (by omega)
  · rw [unmapped]
    split
    · exact (hclear v (by omega)).symm
    · exact h.above v (by omega)

end Space

theorem Fits.le {sz' n n' : ℕ} (h : Fits sz n) (h' : Fits sz' n') (hle : sz ≤ sz') : n ≤ n' := by
  obtain ⟨-, hlt⟩ := h
  obtain ⟨hle', -⟩ := h'
  by_contra hn
  have hmul : (n' + 1) * PGSIZE ≤ n * PGSIZE := Nat.mul_le_mul_right _ (by omega)
  rw [Nat.succ_mul] at hmul
  omega

theorem fits_div (sz : ℕ) : Fits sz ((sz + PGSIZE - 1) / PGSIZE) := by
  simp only [Fits, PGSIZE]
  omega

theorem fits_mul (n : ℕ) : Fits (n * PGSIZE) n := ⟨le_rfl, Nat.lt_add_of_pos_right (by decide)⟩

variable {pagetable n m : ℕ} {L : ℕ → Option ℕ} {top : ℕ → Option ℕ} {s : Ram}

theorem intToUint64_of_lt (h : k < 2 ^ 31) : intToUint64 k = k := by
  rw [intToUint64, Nat.mod_eq_of_lt (by omega), if_pos h]

def Ram.tail (s : Ram) (pagetable : ℕ) (L : ℕ → Option ℕ) (m n : ℕ) : Multiset ℕ :=
  s.mem.tables 2 pagetable + frames L m (n - m)

theorem Ram.space_eq_tail (s : Ram) (pagetable : ℕ) (L : ℕ → Option ℕ) (hmn : m ≤ n) :
    s.space pagetable L n = s.tail pagetable L m n + frames L 0 m := by
  have happ := frames_append L 0 m (n - m)
  rw [Nat.add_sub_cancel' hmn, Nat.zero_add] at happ
  rw [Ram.space, Ram.tail, happ]
  ac_rfl

-- uvmdealloc to a size that is not larger: the pages below it are not touched.
theorem uvmdealloc_tail (h : Space s.mem pagetable L n top) (hclear : Clear top) (hold : Fits oldsz n)
    (hnew : Fits newsz m) (hle : newsz ≤ oldsz) (ho : s.Owned (s.space pagetable L n)) :
    wp (uvmdealloc pagetable oldsz newsz) (fun r t => r = newsz ∧
      Space t.mem pagetable (unmapped L m (n - m)) m top ∧
      Uses (s.tail pagetable L m n) (t.mem.tables 2 pagetable) s t) (fun _ => False) s := by
  have hmn := hnew.le hold hle
  have hn := ho.right.frames_le
  have htop := lt_maxva_of_le hn
  have hstop : PHYSTOP / PGSIZE < 2 ^ 31 := by decide
  -- Nothing to unmap.
  have hstay : n = m → Space s.mem pagetable (unmapped L m (n - m)) m top ∧
      Uses (s.tail pagetable L m n) (s.mem.tables 2 pagetable) s s := by
    rintro rfl
    rw [Ram.tail, Nat.sub_self, unmapped_zero]
    exact ⟨h, (Uses.refl _ s).congr (add_zero _) rfl⟩
  have hsize : ∀ k, k ≤ n → k * PGSIZE < 2 ^ 64 := fun k hk =>
    lt_trans (mul_lt_maxva (by omega)) (by decide)
  simp only [uvmdealloc, wp_ite, wp_bind]
  split
  · have heq : oldsz = newsz := by omega
    have hnm : n = m := by
      subst heq
      exact le_antisymm (hold.le hnew le_rfl) hmn
    exact ⟨heq, hstay hnm⟩
  · simp only [hold.roundUp (hsize n le_rfl), hnew.roundUp (hsize m hmn)]
    split
    · have hcount : (n * PGSIZE - m * PGSIZE) / PGSIZE = n - m := by
        rw [← Nat.sub_mul, Nat.mul_div_cancel _ (by decide)]
      rw [hcount, intToUint64_of_lt (by omega)]
      have ho' := (ho.congr (s.space_eq_tail pagetable L hmn).symm).left
      have hunmap := uvmunmap_spec (v := m) true (mul_le_maxva (by omega)) h.maps
        (fun w _ hw => h.mapped (by omega)) ho'
      refine wp_post hunmap fun _ t hpost => ?_
      obtain ⟨-, hmaps, huses⟩ := hpost
      exact ⟨rfl, h.shrink hmn htop.le hclear hmaps, huses⟩
    · rename_i hnot
      exact ⟨rfl, hstay (le_antisymm (Nat.le_of_mul_le_mul_right (not_lt.mp hnot) (by decide)) hmn)⟩

theorem uvmdealloc_spec (h : Space s.mem pagetable L n top) (hclear : Clear top) (hold : Fits oldsz n)
    (hnew : Fits newsz m) (hle : newsz ≤ oldsz) (ho : s.Owned (s.space pagetable L n)) :
    wp (uvmdealloc pagetable oldsz newsz) (fun r t => r = newsz ∧
      Space t.mem pagetable (unmapped L m (n - m)) m top ∧
      Uses (s.space pagetable L n) (t.space pagetable (unmapped L m (n - m)) m) s t)
      (fun _ => False) s := by
  have hframes : frames (unmapped L m (n - m)) 0 m = frames L 0 m :=
    frames_congr fun w _ hw => by rw [unmapped, if_neg (by omega)]
  refine wp_post (uvmdealloc_tail h hclear hold hnew hle ho) fun _ t hpost => ?_
  obtain ⟨hr, hspace, huses⟩ := hpost
  refine ⟨hr, hspace, (huses.frame (frames L 0 m)).congr (s.space_eq_tail pagetable L (hnew.le hold hle)) ?_⟩
  rw [Ram.space, hframes]

-- L' gives the pages from n up to k the permissions perm and is L elsewhere.
structure Extends (L L' : ℕ → Option ℕ) (n k perm : ℕ) : Prop where
  le : n ≤ k
  fresh : ∀ v, n ≤ v → v < k → ∃ pa, L' v = some (mkPte pa (perm ||| PTE_V))
  same : ∀ v, v < n ∨ k ≤ v → L' v = L v

theorem Extends.refl (L : ℕ → Option ℕ) (n perm : ℕ) : Extends L L n n perm :=
  ⟨le_rfl, fun v hv hv' => by omega, fun _ _ => rfl⟩

theorem Extends.succ (h : Extends L L' n k perm) (pa : ℕ) :
    Extends L (update L' k (some (mkPte pa (perm ||| PTE_V)))) n (k + 1) perm := by
  refine ⟨Nat.le_succ_of_le h.le, fun v hv hv' => ?_, fun v hv => ?_⟩
  · by_cases hvk : v = k
    · exact ⟨pa, by rw [hvk, update_self]⟩
    · rw [update_of_ne hvk]
      exact h.fresh v hv (by omega)
  · have hle := h.le
    rw [update_of_ne (by omega)]
    exact h.same v (by omega)

-- Unmapping what was added gives the first table back.
theorem Extends.unmapped_eq (h : Extends L L' n k perm)
    (hnone : ∀ v, n ≤ v → v < k → L v = none) : unmapped L' n (k - n) = L := by
  funext v
  have hle := h.le
  rw [unmapped]
  split
  · exact (hnone v (by omega) (by omega)).symm
  · exact h.same v (by omega)

-- A fresh page is mapped above the user memory.
theorem Space.push (h : Space s.mem pagetable L n top) (hperm : hasFlag perm PTE_R = true)
    (hmaps : Maps t.mem pagetable (update L n (some (mkPte page (perm ||| PTE_V))))) :
    Space t.mem pagetable (update L n (some (mkPte page (perm ||| PTE_V)))) (n + 1) top := by
  refine ⟨hmaps, fun v hv => ?_, fun v hv => ?_⟩
  · by_cases hvn : v = n
    · refine ⟨_, by rw [hvn, update_self], ?_⟩
      rw [hasFlag_mkPte _ _ (by decide), hasFlag_or, hperm, Bool.true_or]
    · rw [update_of_ne hvn]
      exact h.user v (by omega)
  · rw [update_of_ne (by omega)]
    exact h.above v (by omega)

theorem frames_push (L : ℕ → Option ℕ) (page : ℕ) {flags : ℕ} (hflags : flags < 2 ^ 10) (hmn : m ≤ n) :
    frames (update L n (some (mkPte page flags))) m (n + 1 - m) = frames L m (n - m) + {page} := by
  rw [show n + 1 - m = n - m + 1 by omega, frames_append, Nat.add_sub_cancel' hmn, frames_one, update_self,
    Option.getD_some, mkPte, pte2pa_or page hflags]
  congr 1
  exact frames_congr fun w _ hw => update_of_ne (by omega) _ _

-- A program that does not own a table leaves it as it is.
theorem Space.kept (h : Space s.mem pagetable L n top) {P P' : Multiset ℕ} (hu : Uses P P' s t)
    (ho : s.Owned (P + R)) (hR : s.mem.tables 2 pagetable ≤ R) :
    Space t.mem pagetable L n top ∧ t.space pagetable L n = s.space pagetable L n := by
  have hkept : ∀ q ∈ s.mem.tables 2 pagetable, t.mem q = s.mem q :=
    fun q hq => hu.kept ho q (Multiset.mem_of_le hR hq)
  exact ⟨h.congr hkept, by rw [Ram.space, Ram.space, Mem.tables_congr hkept]⟩

theorem Space.take (h : Space s.mem pagetable L n top) (content : Page)
    (hu : Uses 0 {page} s t) (ho : s.Owned (s.space pagetable L n)) :
    let u := { t with mem := update t.mem page content }
    Space u.mem pagetable L n top ∧
      Uses (s.space pagetable L n) (u.space pagetable L n + {page}) s u := by
  intro u
  obtain ⟨ht, htspace⟩ := h.kept hu (ho.congr (zero_add _)) (Multiset.le_add_right _ _)
  have huses : Uses (s.space pagetable L n) ({page} + t.space pagetable L n) s t :=
    (hu.frame (s.space pagetable L n)).congr (zero_add _).symm (by rw [htspace])
  have hwrite : Uses {page} {page} t u := Uses.write t (Multiset.mem_singleton_self page) content
  obtain ⟨hu', huspace⟩ := ht.kept hwrite (huses.owned ho) (Multiset.le_add_right _ _)
  refine ⟨hu', huses.trans ((hwrite.frame (t.space pagetable L n)).congr rfl ?_)⟩
  rw [huspace, add_comm]

theorem mapNext_spec (h : Space s.mem pagetable L n top) (hclear : Clear top)
    (hr : hasFlag perm PTE_R = true) (hperm : perm < 2 ^ 10) (ho : s.Owned (s.space pagetable L n + {page})) :
    wp (mappages pagetable (n * PGSIZE) PGSIZE page perm) (fun r t =>
      Uses (s.mem.tables 2 pagetable) (t.mem.tables 2 pagetable) s t ∧
      ((r = 0 ∧ Space t.mem pagetable (update L n (some (mkPte page (perm ||| PTE_V)))) (n + 1) top) ∨
        (r = -1 ∧ Space t.mem pagetable L n top))) (fun _ => False) s := by
  have htop := lt_maxva_of_le ho.left.right.frames_le
  have hnone : L n = none := by rw [h.above n le_rfl, hclear n htop]
  have hpage : page < 2 ^ 44 := (ho.inRam (by simp)).lt
  refine wp_post (mappages_spec (mul_lt_maxva htop) h.maps hnone ho.left.left hpage hperm) fun r t hpost => ?_
  obtain ⟨huses, hr'⟩ := hpost
  refine ⟨huses, ?_⟩
  rcases hr' with ⟨hr0, hmaps⟩ | ⟨hr1, hmaps⟩
  · exact .inl ⟨hr0, h.push hr hmaps⟩
  · exact .inr ⟨hr1, hmaps, h.user, h.above⟩

-- With the page and the user memory: it writes to neither.
theorem mapUser_spec (h : Space s.mem pagetable L n top) (hclear : Clear top)
    (hr : hasFlag perm PTE_R = true) (hperm : perm < 2 ^ 10) (ho : s.Owned (s.space pagetable L n + {page})) :
    wp (mappages pagetable (n * PGSIZE) PGSIZE page perm) (fun r t =>
      (∀ q ∈ frames L 0 n + {page}, t.mem q = s.mem q) ∧
      ((r = 0 ∧ Space t.mem pagetable (update L n (some (mkPte page (perm ||| PTE_V)))) (n + 1) top ∧
        Uses (s.space pagetable L n + {page})
          (t.space pagetable (update L n (some (mkPte page (perm ||| PTE_V)))) (n + 1)) s t) ∨
      (r = -1 ∧ Space t.mem pagetable L n top ∧
        Uses (s.space pagetable L n + {page}) (t.space pagetable L n + {page}) s t))) (fun _ => False) s := by
  have hflags : perm ||| PTE_V < 2 ^ 10 := Nat.or_lt_two_pow hperm (by decide)
  refine wp_post (mapNext_spec h hclear hr hperm ho) fun r t hpost => ?_
  obtain ⟨huses, hr'⟩ := hpost
  have hframe := huses.frame (frames L 0 n + {page})
  rw [← add_assoc, ← add_assoc] at hframe
  refine ⟨huses.kept (ho.congr (add_assoc _ _ _).symm), ?_⟩
  rcases hr' with ⟨hr0, hspace⟩ | ⟨hr1, hspace⟩
  · have hpushed : frames (update L n (some (mkPte page (perm ||| PTE_V)))) 0 (n + 1) =
        frames L 0 n + {page} := frames_push L page hflags (Nat.zero_le n)
    refine .inl ⟨hr0, hspace, hframe.congr rfl ?_⟩
    rw [Ram.space, hpushed, add_assoc]
  · exact .inr ⟨hr1, hspace, hframe⟩

def Zeroed (mem : Mem) (L : ℕ → Option ℕ) (n k : ℕ) : Prop :=
  ∀ v, n ≤ v → v < k → ∃ pte, L v = some pte ∧ mem (pte2pa pte) = fun _ => 0

theorem Extends.space_eq (h : Extends L L' n k perm) (s : Ram) (pagetable : ℕ) :
    s.space pagetable L' k = s.tail pagetable L' n k + frames L 0 n := by
  rw [s.space_eq_tail pagetable L' h.le]
  congr 1
  exact frames_congr fun w _ hw => h.same w (by omega)

theorem mem_frames {q : ℕ} :
    q ∈ frames L v count ↔ ∃ w, v ≤ w ∧ w < v + count ∧ pte2pa ((L w).getD 0) = q := by
  simp only [frames, Multiset.mem_coe, List.mem_map, List.mem_range'_1, and_assoc]

theorem mem_frames_of (hv : v < count) (hL : L v = some pte) : pte2pa pte ∈ frames L 0 count :=
  mem_frames.mpr ⟨v, Nat.zero_le _, by omega, by rw [hL]; rfl⟩

theorem Zeroed.congr {mem' : Mem} (h : Zeroed mem L n k)
    (hmem : ∀ q ∈ frames L n (k - n), mem' q = mem q) : Zeroed mem' L n k := by
  intro v hv hv'
  obtain ⟨pte, hpte, hzero⟩ := h v hv hv'
  refine ⟨pte, hpte, ?_⟩
  rw [hmem _ (mem_frames.mpr ⟨v, hv, by omega, by rw [hpte]; rfl⟩), hzero]

theorem Zeroed.push {flags : ℕ} (h : Zeroed mem L n k) (hflags : flags < 2 ^ 10)
    (hzero : mem page = fun _ => 0) : Zeroed mem (update L k (some (mkPte page flags))) n (k + 1) := by
  intro v hv hv'
  by_cases hvk : v = k
  · refine ⟨_, by rw [hvk, update_self], ?_⟩
    rw [mkPte, pte2pa_or page hflags, hzero]
  · rw [update_of_ne hvk]
    exact h v hv (by omega)

-- uvmalloc's loop, with k pages mapped so far of which it came upon n.
theorem allocLoop_spec (h : Space s.mem pagetable L' k top)
    (hclear : Clear top) (hxperm : xperm < 2 ^ 10) (hext : Extends L L' n k (PTE_R ||| PTE_U ||| xperm))
    (habove : ∀ v, n ≤ v → L v = top v) (hzero : Zeroed s.mem L' n k) (ho : s.Owned (s.space pagetable L' k)) :
    wp (allocLoop pagetable (n * PGSIZE) newsz xperm count (k * PGSIZE)) (fun r t =>
      (r = newsz ∧ ∃ L'', Extends L L'' n (k + count) (PTE_R ||| PTE_U ||| xperm) ∧
        Space t.mem pagetable L'' (k + count) top ∧ Zeroed t.mem L'' n (k + count) ∧
        Uses (s.tail pagetable L' n k) (t.tail pagetable L'' n (k + count)) s t) ∨
      (r = 0 ∧ Space t.mem pagetable L n top ∧ Uses (s.tail pagetable L' n k) (t.mem.tables 2 pagetable) s t))
      (fun _ => False) s := by
  induction count generalizing s L' k with
  | zero => exact .inl ⟨rfl, L', hext, h, hzero, .refl _ s⟩
  | succ count ih =>
      have hperm : PTE_R ||| PTE_U ||| xperm < 2 ^ 10 := Nat.or_lt_two_pow (by decide) hxperm
      have hflags : PTE_R ||| PTE_U ||| xperm ||| PTE_V < 2 ^ 10 := Nat.or_lt_two_pow hperm (by decide)
      have hzeroAdd : s.Owned (0 + s.space pagetable L' k) := ho.congr (zero_add _)
      -- uvmdealloc takes back what was added.
      have hback : ∀ {t : Ram}, Space t.mem pagetable L' k top →
          Uses (s.mem.tables 2 pagetable) (t.mem.tables 2 pagetable) s t →
          wp (uvmdealloc pagetable (k * PGSIZE) (n * PGSIZE)) (fun _ u => Space u.mem pagetable L n top ∧
            Uses (s.tail pagetable L' n k) (u.mem.tables 2 pagetable) s u) (fun _ => False) t := by
        intro t ht huses
        have hot : t.Owned (t.space pagetable L' k) := (huses.frame (frames L' 0 k)).owned ho
        have hk := lt_maxva_of_le hot.right.frames_le
        refine wp_post (uvmdealloc_tail ht hclear (fits_mul k) (fits_mul n) (Nat.mul_le_mul_right _ hext.le) hot)
          fun _ u hpost => ?_
        obtain ⟨-, hspace, huses'⟩ := hpost
        rw [hext.unmapped_eq fun v hv hv' => by rw [habove v hv, hclear v (by omega)]] at hspace
        exact ⟨hspace, (huses.frame (frames L' n (k - n))).trans huses'⟩
      simp only [allocLoop, wp_bind]
      refine wp_post (kalloc_spec s) fun r t ht => ?_
      cases r with
      | none =>
          obtain ⟨hspace, -⟩ := h.kept ht.1 hzeroAdd (Multiset.le_add_right _ _)
          have huses : Uses (s.mem.tables 2 pagetable) (t.mem.tables 2 pagetable) s t :=
            (ht.1.frame (s.mem.tables 2 pagetable)).congr (zero_add _).symm (by rw [ht.2, zero_add])
          simp only [wp_bind, wp_pure]
          exact wp_post (hback hspace huses) fun _ u hu => .inr ⟨trivial, hu⟩
      | some page =>
          set u : Ram := { t with mem := t.mem.memset page 0 } with hu
          have htake : Uses 0 {page} s u := ht.trans (Uses.write t (Multiset.mem_singleton_self page) _)
          obtain ⟨hspace, hsame⟩ := h.kept htake hzeroAdd (Multiset.le_add_right _ _)
          have htables : u.mem.tables 2 pagetable = s.mem.tables 2 pagetable :=
            Mem.tables_congr fun q hq => htake.kept hzeroAdd q (Multiset.mem_add.mpr (.inl hq))
          have hou : u.Owned (u.space pagetable L' k + {page}) := by
            rw [hsame, add_comm]
            exact (htake.frame _).owned hzeroAdd
          have hr : hasFlag (PTE_R ||| PTE_U ||| xperm) PTE_R = true := by
            rw [hasFlag_or]
            rfl
          simp only [wp_bind, wp_modify]
          refine wp_post (mapNext_spec hspace hclear hr hperm hou) fun r w hw => ?_
          obtain ⟨huses, hcases⟩ := hw
          have hkept := huses.kept (hou.congr (add_assoc _ _ _).symm)
          have hstep : Uses (s.mem.tables 2 pagetable) (w.mem.tables 2 pagetable + {page}) s w := by
            refine ((htake.frame (s.mem.tables 2 pagetable)).congr (zero_add _).symm rfl).trans ?_
            exact (huses.frame {page}).congr (by rw [htables, add_comm]) rfl
          rcases hcases with ⟨rfl, hspace'⟩ | ⟨rfl, hspace'⟩
          · have hpushed := frames_push L' page hflags hext.le
            have hzero' : Zeroed w.mem (update L' k (some (mkPte page (PTE_R ||| PTE_U ||| xperm ||| PTE_V))))
                n (k + 1) := by
              refine (hzero.congr fun q hq => ?_).push hflags ?_
              · have hq' : q ∈ frames L' 0 k := by
                  rw [mem_frames] at hq ⊢
                  obtain ⟨v, hv, hv', hpa⟩ := hq
                  exact ⟨v, Nat.zero_le v, by have := hext.le; omega, hpa⟩
                rw [hkept q (Multiset.mem_add.mpr (.inl hq'))]
                exact htake.kept hzeroAdd q (Multiset.mem_add.mpr (.inr hq'))
              · rw [hkept page (Multiset.mem_add.mpr (.inr (Multiset.mem_singleton_self page)))]
                exact update_self ..
            have hall : Uses (s.tail pagetable L' n k) (w.tail pagetable (update L' k
                (some (mkPte page (PTE_R ||| PTE_U ||| xperm ||| PTE_V)))) n (k + 1)) s w := by
              refine (hstep.frame (frames L' n (k - n))).congr rfl ?_
              rw [Ram.tail, hpushed]
              ac_rfl
            have hnext : k * PGSIZE + PGSIZE = (k + 1) * PGSIZE := (Nat.succ_mul k PGSIZE).symm
            have how := (hall.frame (frames L 0 n)).owned (ho.congr (hext.space_eq s pagetable).symm)
            have hloop := ih hspace' (hext.succ page) hzero' (how.congr ((hext.succ page).space_eq w pagetable))
            rw [show k + 1 + count = k + (count + 1) by omega] at hloop
            simp only [ne_eq, not_true_eq_false, ite_false, hnext]
            refine wp_post hloop fun r v hv => ?_
            rcases hv with ⟨hr, L'', hext'', hspace'', hzero'', huses''⟩ | ⟨hr, hspace'', huses''⟩
            · exact .inl ⟨hr, L'', hext'', hspace'', hzero'', hall.trans huses''⟩
            · exact .inr ⟨hr, hspace'', hall.trans huses''⟩
          · have how := hstep.owned ho.left
            simp only [ne_eq, show (-1 : Int) ≠ 0 by decide, not_false_eq_true, ite_true, wp_bind, wp_pure]
            refine wp_post (kfree_spec how.right) fun _ v hv => ?_
            have hfree := hv.kept (how.congr (add_comm _ _))
            have hfreed : Uses (s.mem.tables 2 pagetable) (v.mem.tables 2 pagetable) s v := by
              refine hstep.trans ((hv.frame (w.mem.tables 2 pagetable)).congr (add_comm _ _) ?_)
              rw [Mem.tables_congr hfree, zero_add]
            exact wp_post (hback (hspace'.congr hfree) hfreed) fun _ x hx => .inr ⟨trivial, hx⟩

-- uvmalloc to a size that is not smaller: the new pages have zeros in them, and those
-- that there were are not touched.
theorem uvmalloc_tail (h : Space s.mem pagetable L n top) (hclear : Clear top) (hfits : Fits oldsz n)
    (hle : oldsz ≤ newsz) (hxperm : xperm < 2 ^ 10) (ho : s.Owned (s.space pagetable L n)) :
    wp (uvmalloc pagetable oldsz newsz xperm) (fun r t =>
      (r = newsz ∧ ∃ L' m, Fits newsz m ∧ Extends L L' n m (PTE_R ||| PTE_U ||| xperm) ∧
        Space t.mem pagetable L' m top ∧ Zeroed t.mem L' n m ∧
        Uses (s.mem.tables 2 pagetable) (t.tail pagetable L' n m) s t) ∨
      (r = 0 ∧ Space t.mem pagetable L n top ∧
        Uses (s.mem.tables 2 pagetable) (t.mem.tables 2 pagetable) s t))
      (fun _ => False) s := by
  have htop := lt_maxva_of_le ho.right.frames_le
  have hsize : n * PGSIZE < 2 ^ 64 := lt_trans (mul_lt_maxva htop) (by decide)
  have hm : Fits newsz (n + (newsz - n * PGSIZE + PGSIZE - 1) / PGSIZE) := by
    obtain ⟨hle', hlt⟩ := hfits
    simp only [Fits, PGSIZE] at *
    omega
  have htail : s.mem.tables 2 pagetable = s.tail pagetable L n n := by
    rw [Ram.tail, Nat.sub_self]
    exact (add_zero _).symm
  simp only [uvmalloc, show ¬newsz < oldsz by omega, ite_false, hfits.roundUp hsize]
  rw [htail]
  refine wp_post (allocLoop_spec h hclear hxperm (.refl L n _) h.above (fun v hv hv' => by omega) ho)
    fun r t ht => ?_
  rcases ht with ⟨hr, L', hext, hspace, hzero, huses⟩ | hfail
  · exact .inl ⟨hr, L', _, hm, hext, hspace, hzero, huses⟩
  · exact .inr hfail

theorem unmapUser_spec (h : Space s.mem pagetable L n top) (hclear : Clear top) (ho : s.Owned (s.space pagetable L n)) :
    wp (uvmunmap pagetable 0 n true) (fun _ t => Space t.mem pagetable top 0 top ∧
      t.mem.tables 2 pagetable = s.mem.tables 2 pagetable ∧
      Uses (s.space pagetable L n) (t.mem.tables 2 pagetable) s t) (fun _ => False) s := by
  have htop := lt_maxva_of_le ho.right.frames_le
  have hunmap := uvmunmap_spec (v := 0) true (by rw [Nat.zero_add]; exact mul_le_maxva htop.le) h.maps
    (fun w _ hw => h.mapped (by omega)) ho
  rw [Nat.zero_mul] at hunmap
  have heq : unmapped L 0 n = top := by
    funext v
    rw [unmapped]
    split
    · exact (hclear v (by omega)).symm
    · exact h.above v (by omega)
  refine wp_post hunmap fun _ t hpost => ?_
  obtain ⟨htables, hmaps, huses⟩ := hpost
  rw [heq] at hmaps
  exact ⟨⟨hmaps, fun v hv => by omega, fun _ _ => rfl⟩, htables, huses⟩

theorem uvmfree_spec (h : Space s.mem pagetable L n fun _ => none) (hfits : Fits sz n)
    (ho : s.Owned (s.space pagetable L n)) :
    wp (uvmfree pagetable sz) (fun _ t => Uses (s.space pagetable L n) 0 s t) (fun _ => False) s := by
  have hclear : Clear fun _ => none := fun _ _ => rfl
  have htop := lt_maxva_of_le ho.right.frames_le
  have hsize : n * PGSIZE < 2 ^ 64 := lt_trans (mul_lt_maxva htop) (by decide)
  have hfree : ∀ t : Ram, t.Owned (t.mem.tables 2 pagetable) → t.mem.Dirs 2 pagetable →
      t.mem.NoLeaf 2 pagetable → wp (freewalk 3 pagetable)
        (fun _ u => Uses (t.mem.tables 2 pagetable) 0 t u) (fun _ => False) t := @freewalk_spec 2 pagetable
  simp only [uvmfree]
  generalize freewalk 3 pagetable = free at hfree
  -- freewalk, once no user page is mapped.
  have hwalk : ∀ {t : Ram}, Space t.mem pagetable (fun _ => none) 0 (fun _ => none) →
      Uses (s.space pagetable L n) (t.mem.tables 2 pagetable) s t →
      wp free (fun _ t => Uses (s.space pagetable L n) 0 s t) (fun _ => False) t := by
    intro t ht huses
    have hnone : t.mem.NoLeaf 2 pagetable := Mem.noLeaf_of_entry ht.maps.entry
    exact wp_post (hfree t (huses.owned ho) ht.maps.dirs hnone) fun _ u hu => huses.trans hu
  split
  · rw [hfits.roundUp hsize, Nat.mul_div_cancel n (by decide), wp_bind]
    exact wp_post (unmapUser_spec h hclear ho) fun _ t ht => hwalk ht.1 ht.2.2
  · have hn : n = 0 := by
      have hlt := hfits.2
      by_contra hne
      have hmul : 1 * PGSIZE ≤ n * PGSIZE := Nat.mul_le_mul_right _ (by omega)
      omega
    subst hn
    refine hwalk ⟨?_, fun v hv => by omega, fun _ _ => rfl⟩ ?_
    · have heq : L = fun _ => none := funext fun v => h.above v (Nat.zero_le v)
      exact heq ▸ h.maps
    · rw [Ram.space]
      exact (Uses.refl (s.mem.tables 2 pagetable) s).congr (add_zero _) rfl

theorem hasFlag_two_pow (pte k : ℕ) : hasFlag pte (2 ^ k) = decide (pte / 2 ^ k % 2 = 1) := by
  rw [hasFlag, Nat.and_two_pow, ← Nat.testBit_eq_decide_div_mod_eq]
  cases pte.testBit k <;> simp

-- The first k pages of two tables have the same bytes and the same flags.
def Twins (mem : Mem) (Lold Lnew : ℕ → Option ℕ) (k : ℕ) : Prop :=
  ∀ v < k, ∃ pte pte', Lold v = some pte ∧ Lnew v = some pte' ∧ pteFlags pte' = pteFlags pte ∧
    mem (pte2pa pte') = mem (pte2pa pte)

namespace Twins

variable {mem mem' : Mem} {Lold Lnew : ℕ → Option ℕ} {k N : ℕ}

theorem congr (h : Twins mem Lold Lnew k) (hk : k ≤ N) (hold : ∀ q ∈ frames Lold 0 N, mem' q = mem q)
    (hnew : ∀ q ∈ frames Lnew 0 k, mem' q = mem q) : Twins mem' Lold Lnew k := by
  intro v hv
  obtain ⟨pte, pte', hpte, hpte', hflags, hmem⟩ := h v hv
  refine ⟨pte, pte', hpte, hpte', hflags, ?_⟩
  rw [hnew _ (mem_frames_of hv hpte'), hold _ (mem_frames_of (by omega) hpte), hmem]

theorem push {pte page : ℕ} (h : Twins mem Lold Lnew k) (hpte : Lold k = some pte)
    (hvalid : hasFlag pte PTE_V = true) (hmem : mem page = mem (pte2pa pte)) :
    Twins mem Lold (update Lnew k (some (mkPte page (pteFlags pte ||| PTE_V)))) (k + 1) := by
  have hbit : pteFlags pte ||| PTE_V = pteFlags pte := by
    have hodd : pteFlags pte % 2 = 1 := by
      rw [← hasFlag_pteFlags pte (by decide), PTE_V, hasFlag_two_pow, decide_eq_true_iff] at hvalid
      simpa using hvalid
    refine Nat.eq_of_testBit_eq fun i => ?_
    rw [Nat.testBit_or]
    cases i with
    | zero => simp [hodd]
    | succ i => simp [PTE_V, Nat.testBit_succ]
  have hlt : pteFlags pte < 2 ^ 10 := Nat.mod_lt _ (by decide)
  intro v hv
  by_cases hvk : v = k
  · subst hvk
    refine ⟨pte, _, hpte, update_self .., ?_, ?_⟩
    · rw [hbit, mkPte, pteFlags_or _ hlt]
    · rw [hbit, mkPte, pte2pa_or _ hlt, hmem]
  · obtain ⟨pte₁, pte₂, h₁, h₂, hrest⟩ := h v (by omega)
    exact ⟨pte₁, pte₂, h₁, (update_of_ne hvk _ _).trans h₂, hrest⟩

-- One more page: a copy that was made in a page from kalloc and then mapped.
theorem take {t u : Ram} {old new pte page : ℕ} {R : Multiset ℕ} (h : Twins s.mem Lold Lnew k)
    (ho : s.Owned (s.space new Lnew k + R)) (hR : s.space old Lold N ≤ R) (hk : k < N) (ht : Uses 0 {page} s t)
    (hmapped : ∀ q ∈ frames Lnew 0 k + {page}, u.mem q = update t.mem page (t.mem (pte2pa pte)) q)
    (hkept : ∀ q ∈ frames Lold 0 N, u.mem q = s.mem q) (hpte : Lold k = some pte) (hvalid : hasFlag pte PTE_V = true) :
    Twins u.mem Lold (update Lnew k (some (mkPte page (pteFlags pte ||| PTE_V)))) (k + 1) := by
  have hown := (ht.frame (s.space new Lnew k)).owned (ho.left.congr (zero_add _))
  have hfree : ∀ q ∈ frames Lnew 0 k, q ≠ page := by
    rintro q hq rfl
    exact Multiset.disjoint_left.mp (Multiset.nodup_add.mp hown.nodup).2.2 (Multiset.mem_singleton_self q)
      (Multiset.mem_add.mpr (.inr hq))
  have hnew : ∀ q ∈ frames Lnew 0 k, u.mem q = s.mem q := by
    intro q hq
    rw [hmapped q (Multiset.mem_add.mpr (.inl hq)), update_of_ne (hfree q hq)]
    exact ht.kept (ho.left.congr (zero_add _)) q (Multiset.mem_add.mpr (.inr hq))
  have hsrc : pte2pa pte ∈ frames Lold 0 N := mem_frames_of hk hpte
  have hpage : u.mem page = u.mem (pte2pa pte) := by
    rw [hmapped page (Multiset.mem_add.mpr (.inr (Multiset.mem_singleton_self page))), update_self,
      hkept _ hsrc]
    exact ht.kept (ho.right.congr (zero_add _)) _ (Multiset.mem_of_le ((Multiset.le_add_left _ _).trans hR) hsrc)
  exact (h.congr hk.le hkept hnew).push hpte hvalid hpage

end Twins

-- uvmcopy's loop, with k pages of the new table mapped; the old address space is in the frame.
theorem copyLoop_spec {old new N : ℕ} {Lold Lnew topold : ℕ → Option ℕ} (hold : Space s.mem old Lold N topold)
    (h : Space s.mem new Lnew k top) (hclear : Clear top) (htwins : Twins s.mem Lold Lnew k) (hN : k + count ≤ N)
    (hNmax : N ≤ TRAPFRAME / PGSIZE) (ho : s.Owned (s.space new Lnew k + R)) (hR : s.space old Lold N ≤ R) :
    wp (copyLoop old new count (k * PGSIZE)) (fun r t =>
      (r = 0 ∧ ∃ L', Twins t.mem Lold L' (k + count) ∧ Space t.mem new L' (k + count) top ∧
        Uses (s.space new Lnew k) (t.space new L' (k + count)) s t) ∨
      (r = -1 ∧ Space t.mem new top 0 top ∧ Uses (s.space new Lnew k) (t.mem.tables 2 new) s t))
      (fun _ => False) s := by
  induction count generalizing s Lnew k with
  | zero => exact .inl ⟨rfl, Lnew, htwins, h, .refl _ s⟩
  | succ count ih =>
      have hdiv : k * PGSIZE / PGSIZE = k := Nat.mul_div_cancel k (by decide)
      have hva : k * PGSIZE < MAXVA := mul_lt_maxva (by omega)
      obtain ⟨pte, hpte, hr⟩ := hold.user k (by omega)
      obtain ⟨a, ha, hread, hvalid⟩ := hold.maps.walk (lt_trans hva (by decide))
        (by rwa [hdiv])
      -- The pages copied so far are unmapped again.
      have hback : ∀ {t : Ram}, Space t.mem new Lnew k top →
          Uses (s.space new Lnew k) (t.space new Lnew k) s t →
          wp (do
            uvmunmap new 0 (k * PGSIZE / PGSIZE) true
            return (-1 : Int)) (fun r t =>
            (r = 0 ∧ ∃ L', Twins t.mem Lold L' (k + (count + 1)) ∧ Space t.mem new L' (k + (count + 1)) top ∧
              Uses (s.space new Lnew k) (t.space new L' (k + (count + 1))) s t) ∨
            (r = -1 ∧ Space t.mem new top 0 top ∧ Uses (s.space new Lnew k) (t.mem.tables 2 new) s t))
            (fun _ => False) t := by
        intro t ht huses
        rw [hdiv, wp_bind]
        exact wp_post (unmapUser_spec ht hclear (huses.owned ho.left))
          fun _ u hu => .inr ⟨rfl, hu.1, huses.trans hu.2.2⟩
      simp only [copyLoop, wp_bind]
      rw [wp_walk_false hva, ha]
      simp only [wp_bind, wp_get, hread, hvalid, Bool.not_true, Bool.false_eq_true, ite_false]
      refine wp_post (kalloc_spec s) fun r t ht => ?_
      cases r with
      | none =>
          obtain ⟨hspace, heq⟩ := h.kept ht.1 (ho.left.congr (zero_add _)) (Multiset.le_add_right _ _)
          exact hback hspace ((ht.1.frame (s.space new Lnew k)).congr (zero_add _).symm
            (by rw [heq, zero_add]))
      | some page =>
          obtain ⟨hspace, huses⟩ := h.take (t.mem (pte2pa pte)) ht ho.left
          have hflags : hasFlag (pteFlags pte) PTE_R = true := by
            rw [hasFlag_pteFlags pte (by decide), hr]
          simp only [wp_bind, wp_modify]
          have hperm : pteFlags pte < 2 ^ 10 := Nat.mod_lt _ (by decide)
          have hown := huses.owned ho.left
          refine wp_post (mapUser_spec hspace hclear hflags hperm hown) fun r u hpost => ?_
          obtain ⟨hmapped, hu⟩ := hpost
          rcases hu with ⟨rfl, hspace', huses'⟩ | ⟨rfl, hspace', huses'⟩
          · have hnext : k * PGSIZE + PGSIZE = (k + 1) * PGSIZE := (Nat.succ_mul k PGSIZE).symm
            have hall := huses.trans huses'
            have hframe := hall.frame R
            obtain ⟨hold', holdSpace⟩ := hold.kept hall ho ((Multiset.le_add_right _ _).trans hR)
            have hkept : ∀ q ∈ frames Lold 0 N, u.mem q = s.mem q := fun q hq =>
              hall.kept ho q (Multiset.mem_of_le ((Multiset.le_add_left _ _).trans hR) hq)
            have htwins' := htwins.take ho hR (by omega) ht hmapped hkept hpte hvalid
            have hloop := ih hold' hspace' htwins' (by omega) (hframe.owned ho) (holdSpace ▸ hR)
            rw [show k + 1 + count = k + (count + 1) by omega] at hloop
            simp only [ne_eq, not_true_eq_false, ite_false, hnext]
            refine wp_post hloop fun r v hv => ?_
            rcases hv with ⟨hr, L', htwins'', hspace'', huses''⟩ | ⟨hr, hspace'', huses''⟩
            · exact .inl ⟨hr, L', htwins'', hspace'', hall.trans huses''⟩
            · exact .inr ⟨hr, hspace'', hall.trans huses''⟩
          · have hou := huses'.owned hown
            simp only [ne_eq, show (-1 : Int) ≠ 0 by decide, not_false_eq_true, ite_true, wp_bind]
            refine wp_post (kfree_spec hou.right) fun _ v hv => ?_
            obtain ⟨hspace'', heq⟩ := hspace'.kept hv (hou.congr (add_comm _ _))
              (Multiset.le_add_right _ _)
            have hfreed : Uses (u.space new Lnew k + {page}) (v.space new Lnew k) u v :=
              (hv.frame (u.space new Lnew k)).congr (add_comm _ _) (by rw [heq, zero_add])
            have hback' := hback hspace'' ((huses.trans huses').trans hfreed)
            rwa [wp_bind] at hback'

theorem uvmcopy_spec {old new N : ℕ} {Lold topold : ℕ → Option ℕ} (hold : Space s.mem old Lold N topold)
    (hfits : Fits sz N) (h : Space s.mem new top 0 top) (hclear : Clear top) (hN : N ≤ TRAPFRAME / PGSIZE)
    (ho : s.Owned (s.mem.tables 2 new + R)) (hR : s.space old Lold N ≤ R) :
    wp (uvmcopy old new sz) (fun r t =>
      (r = 0 ∧ ∃ L', Twins t.mem Lold L' N ∧ Space t.mem new L' N top ∧
        Uses (s.mem.tables 2 new) (t.space new L' N) s t) ∨
      (r = -1 ∧ Space t.mem new top 0 top ∧ Uses (s.mem.tables 2 new) (t.mem.tables 2 new) s t))
      (fun _ => False) s := by
  have hspace : s.space new top 0 = s.mem.tables 2 new := add_zero _
  have hcount : (sz + PGSIZE - 1) / PGSIZE = N :=
    le_antisymm ((fits_div sz).le hfits le_rfl) (hfits.le (fits_div sz) le_rfl)
  have hloop := copyLoop_spec (k := 0) hold h hclear (fun _ hv => absurd hv (Nat.not_lt_zero _))
    (by rw [Nat.zero_add]) hN (by rw [hspace]; exact ho) hR
  rw [Nat.zero_mul, hspace, Nat.zero_add] at hloop
  rwa [uvmcopy, hcount]

-- *pte &= ~PTE_U
def clearU (pte : ℕ) : ℕ := if hasFlag pte PTE_U then pte - PTE_U else pte

theorem clearU_facts (pte : ℕ) : clearU pte ≤ pte ∧ pte2pa (clearU pte) = pte2pa pte ∧
    hasFlag (clearU pte) PTE_V = hasFlag pte PTE_V ∧ hasFlag (clearU pte) PTE_R = hasFlag pte PTE_R ∧
    hasFlag (clearU pte) PTE_U = false := by
  simp only [clearU, PTE_U, PTE_V, PTE_R, hasFlag_two_pow, pte2pa, Nat.shiftRight_eq_div_pow]
  by_cases hu : pte / 2 ^ 4 % 2 = 1
  · simp only [hu, decide_true, ite_true, decide_eq_decide, decide_eq_false_iff_not]
    omega
  · simp only [hu, decide_false, Bool.false_eq_true, ite_false]
    simp

theorem Mem.read_lt (mem : Mem) (a : PteAddr) : mem.read a < 2 ^ 64 := by
  have hlt := Bytes.load_lt (mem a.1) (8 * a.2) 8
  rwa [show 256 ^ 8 = 2 ^ 64 by decide] at hlt

theorem frames_update {pte' : ℕ} (hL : L v = some pte) (hpa : pte2pa pte' = pte2pa pte) (w count : ℕ) :
    frames (update L v (some pte')) w count = frames L w count := by
  rw [frames, frames]
  congr 2
  funext x
  by_cases hx : x = v
  · rw [hx, update_self, hL, Option.getD_some, Option.getD_some, hpa]
  · rw [update_of_ne hx]

theorem uvmclear_spec (h : Space s.mem pagetable L n top) (hv : v < n) (hn : n ≤ TRAPFRAME / PGSIZE)
    (ho : s.Owned (s.space pagetable L n)) :
    wp (uvmclear pagetable (v * PGSIZE)) (fun _ t => ∃ pte, L v = some pte ∧
      Space t.mem pagetable (update L v (some (clearU pte))) n top ∧
        Uses (s.mem.tables 2 pagetable) (t.mem.tables 2 pagetable) s t) (fun _ => False) s := by
  have hdiv : v * PGSIZE / PGSIZE = v := Nat.mul_div_cancel v (by decide)
  have hva : v * PGSIZE < MAXVA := mul_lt_maxva (by omega)
  have hva' : v * PGSIZE < 2 ^ 39 := lt_trans hva (by decide)
  obtain ⟨pte, hpte, hr⟩ := h.user v hv
  obtain ⟨a, ha, hread, hvalid⟩ := h.maps.walk hva' (by rwa [hdiv])
  obtain ⟨hle, -, hclearV, hclearR, -⟩ := clearU_facts pte
  have hlt : clearU pte < 2 ^ 64 := lt_of_le_of_lt hle (hread ▸ s.mem.read_lt a)
  obtain ⟨htables, hmaps, huses⟩ := h.maps.setPte hva' ho.left ha hlt
  rw [hdiv, Option.filter_some, if_pos (by rw [hclearV, hvalid])] at hmaps
  simp only [uvmclear, wp_bind]
  rw [wp_walk_false hva, ha]
  simp only [wp_bind, wp_get, hread, setPte, wp_modify]
  refine ⟨pte, hpte, ⟨hmaps, fun w hw => ?_, fun w hw => ?_⟩, huses⟩
  · by_cases hwv : w = v
    · exact ⟨clearU pte, by rw [hwv, update_self], by rw [hclearR, hr]⟩
    · rw [update_of_ne hwv]
      exact h.user w hw
  · rw [update_of_ne (by omega)]
    exact h.above w hw

def Guarded (top : ℕ → Option ℕ) : Prop := ∀ v pte, top v = some pte → hasFlag pte PTE_U = false

theorem Space.leaf_user (h : Space mem pagetable L n top) (hguard : Guarded top)
    (hleaf : mem.leaf pagetable va = some pte) (hu : hasFlag pte PTE_U = true) :
    va / PGSIZE < n ∧ L (va / PGSIZE) = some pte := by
  have hva : va < MAXVA := by
    by_contra hva
    rw [Mem.leaf, if_neg hva] at hleaf
    cases hleaf
  rw [h.maps.leaf hva] at hleaf
  refine ⟨?_, hleaf⟩
  by_contra hge
  rw [h.above _ (by omega)] at hleaf
  rw [hguard _ pte hleaf] at hu
  cases hu

theorem Space.leaf_mem (h : Space mem pagetable L n top) (hguard : Guarded top)
    (hleaf : mem.leaf pagetable va = some pte) (hu : hasFlag pte PTE_U = true) : pte2pa pte ∈ frames L 0 n := by
  obtain ⟨hlt, hL⟩ := h.leaf_user hguard hleaf hu
  exact mem_frames.mpr ⟨va / PGSIZE, Nat.zero_le _, by omega, by rw [hL]; rfl⟩

theorem Space.walkaddr_mem (h : Space mem pagetable L n top) (hguard : Guarded top)
    (hne : walkaddr mem pagetable va ≠ 0) : walkaddr mem pagetable va ∈ frames L 0 n := by
  rw [walkaddr_eq] at hne ⊢
  split at hne
  · rename_i pte hfilter
    obtain ⟨hleaf, hu⟩ := Option.filter_eq_some_iff.mp hfilter
    exact h.leaf_mem hguard hleaf hu
  · exact absurd rfl hne

theorem copyoutLoop_kept (h : Space mem pagetable L n top) (hguard : Guarded top)
    (hapart : ∀ q ∈ frames L 0 n, q ∉ mem.tables 2 pagetable) (fuel : ℕ) (now : Mem) (dstva : ℕ)
    (src : ℕ → UInt8) (len : ℕ) (hnow : ∀ q, q ∉ frames L 0 n → now q = mem q) :
    ∀ q, q ∉ frames L 0 n → (copyoutLoop pagetable fuel now dstva src len).1 q = mem q := by
  induction fuel generalizing now dstva src len with
  | zero => exact hnow
  | succ fuel ih =>
      simp only [copyoutLoop]
      split
      · exact hnow
      split
      · exact hnow
      · rename_i hne
        have hsame : SameTable mem now pagetable := fun va _ t ht =>
          hnow t fun hmem => hapart t hmem (Mem.walkPages_mem_tables _ _ _ _ t ht)
        rw [hsame.walkaddr] at hne ⊢
        have hmem := h.walkaddr_mem hguard hne
        refine ih _ _ _ _ fun q hq => ?_
        have hqne : q ≠ walkaddr mem pagetable (pgRoundDown dstva) := by
          rintro rfl
          exact hq hmem
        rw [Mem.memmove, update_of_ne hqne, hnow q hq]

theorem copyout_uses (h : Space s.mem pagetable L n top) (hguard : Guarded top)
    (ho : s.Owned (s.space pagetable L n)) (dstva : ℕ) (src : ℕ → UInt8) (len : ℕ) :
    Uses (frames L 0 n) (frames L 0 n) s
      { s with mem := (copyout s.mem pagetable dstva src len).1 } := by
  have hapart : ∀ q ∈ frames L 0 n, q ∉ s.mem.tables 2 pagetable := fun q hq hmem =>
    Multiset.disjoint_left.mp (Multiset.nodup_add.mp ho.nodup).2.2 hmem hq
  refine ⟨⟨rfl, fun q hq => ?_⟩, rfl⟩
  refine copyoutLoop_kept h hguard hapart len s.mem dstva src len (fun _ _ => rfl) q fun hmem => ?_
  exact hq (Multiset.mem_add.mpr (.inr hmem))

end Xv6
