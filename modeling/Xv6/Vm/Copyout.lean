import Xv6.Vm

namespace Xv6

namespace Mem

def walkPages (mem : Mem) : (level pagetable va : ℕ) → List ℕ
  | 0, pagetable, _ => [pagetable]
  | level + 1, pagetable, va =>
      let pte := mem.pte pagetable (px (level + 1) va)
      pagetable :: if hasFlag pte PTE_V then mem.walkPages level (pte2pa pte) va else []

def leaf (mem : Mem) (pagetable va : ℕ) : Option ℕ :=
  if va < MAXVA then ((mem.walk 2 pagetable va).map mem.read).filter (hasFlag · PTE_V) else none

-- A user page table as the kernel builds it: the pages it gives to the user are
-- not pages of the table, and no physical page is mapped twice.
structure UserTable (mem : Mem) (pagetable : ℕ) : Prop where
  apart : ∀ va pte, mem.leaf pagetable va = some pte → hasFlag pte PTE_U = true →
    ∀ va', va' < MAXVA → pte2pa pte ∉ mem.walkPages 2 pagetable va'
  once : ∀ va va' pte pte', mem.leaf pagetable va = some pte → mem.leaf pagetable va' = some pte' →
    pte2pa pte = pte2pa pte' → pgRoundDown va = pgRoundDown va'
  nonzero : ∀ va pte, mem.leaf pagetable va = some pte → hasFlag pte PTE_U = true → pte2pa pte ≠ 0

def Apart (mem : Mem) (pagetable : ℕ) : Prop :=
  ∀ va pte, mem.leaf pagetable va = some pte → hasFlag pte PTE_U = true →
    ∀ va', va' < MAXVA → pte2pa pte ∉ mem.walkPages 2 pagetable va'

-- Page 0, which walkaddr cannot tell from none, is not for the user.
def NoZeroPage (mem : Mem) (pagetable : ℕ) : Prop :=
  ∀ va pte, mem.leaf pagetable va = some pte → hasFlag pte PTE_U = true → pte2pa pte ≠ 0

structure UserPages (mem : Mem) (pagetable : ℕ) : Prop where
  apart : mem.Apart pagetable
  nonzero : mem.NoZeroPage pagetable

theorem UserTable.pages {mem : Mem} {pagetable : ℕ} (h : mem.UserTable pagetable) : mem.UserPages pagetable :=
  ⟨h.apart, h.nonzero⟩

theorem walk_congr {mem mem' : Mem} (level pagetable va : ℕ)
    (h : ∀ t ∈ mem.walkPages level pagetable va, mem' t = mem t) :
    mem'.walk level pagetable va = mem.walk level pagetable va ∧
      (mem'.walk level pagetable va).map mem'.read = (mem.walk level pagetable va).map mem.read := by
  induction level generalizing pagetable with
  | zero =>
      have hroot := h pagetable (by simp [walkPages])
      simp [Mem.walk, read, pte_congr hroot]
  | succ level ih =>
      have hroot := h pagetable (by simp [walkPages])
      simp only [Mem.walk, pte_congr hroot]
      split
      · rename_i hv
        apply ih
        intro t ht
        exact h t (by simp only [walkPages, hv, ite_true]; exact List.mem_cons_of_mem _ ht)
      · simp

theorem px_pgRoundDown (level va : ℕ) : px level (pgRoundDown va) = px level va := by
  have hpow : 2 ^ (12 + 9 * level) = PGSIZE * 2 ^ (9 * level) := by
    rw [pow_add]
    rfl
  rw [px, px, pgRoundDown, hpow, ← Nat.div_div_eq_div_mul, ← Nat.div_div_eq_div_mul,
    Nat.mul_div_cancel _ (by decide : 0 < PGSIZE)]

theorem walk_pgRoundDown (mem : Mem) (level pagetable va : ℕ) :
    mem.walk level pagetable (pgRoundDown va) = mem.walk level pagetable va := by
  induction level generalizing pagetable with
  | zero => simp [Mem.walk, px_pgRoundDown]
  | succ level ih => simp [Mem.walk, px_pgRoundDown, ih]

theorem pgRoundDown_lt_maxva (va : ℕ) : pgRoundDown va < MAXVA ↔ va < MAXVA := by
  have hmax : MAXVA = PGSIZE * 2 ^ 26 := by decide
  have hpos : 0 < PGSIZE := by decide
  rw [pgRoundDown, hmax, Nat.mul_comm PGSIZE, Nat.mul_lt_mul_right hpos, Nat.div_lt_iff_lt_mul hpos]

theorem leaf_pgRoundDown (mem : Mem) (pagetable va : ℕ) :
    mem.leaf pagetable (pgRoundDown va) = mem.leaf pagetable va := by
  simp only [leaf, pgRoundDown_lt_maxva, walk_pgRoundDown]

end Mem

variable {mem : Mem} {pagetable : ℕ}

variable {va : ℕ} {now : Mem}

-- walkaddr finds exactly the pages the user may access.
theorem walkaddr_eq (mem : Mem) (pagetable va : ℕ) :
    walkaddr mem pagetable va =
      match (mem.leaf pagetable va).filter (hasFlag · PTE_U) with
      | some pte => pte2pa pte
      | none => 0 := by
  unfold walkaddr Mem.leaf
  by_cases hva : va < MAXVA
  · simp only [hva, ite_true, show ¬va ≥ MAXVA by omega, ite_false]
    cases hw : mem.walk 2 pagetable va with
    | none => rfl
    | some a =>
        by_cases hv : hasFlag (mem.read a) PTE_V <;> by_cases hu : hasFlag (mem.read a) PTE_U <;>
          simp [Option.filter, hv, hu]
  · simp [hva, show va ≥ MAXVA by omega]

def UserPage (mem : Mem) (pagetable va : ℕ) : Prop :=
  ∃ pte, mem.leaf pagetable va = some pte ∧ hasFlag pte PTE_U = true

theorem walkaddr_of_leaf {pte : ℕ} (hl : mem.leaf pagetable va = some pte)
    (hu : hasFlag pte PTE_U = true) : walkaddr mem pagetable (pgRoundDown va) = pte2pa pte := by
  rw [walkaddr_eq, Mem.leaf_pgRoundDown, hl]
  simp [Option.filter, hu]

theorem walkaddr_of_not (h : ¬UserPage mem pagetable va) :
    walkaddr mem pagetable (pgRoundDown va) = 0 := by
  rw [walkaddr_eq, Mem.leaf_pgRoundDown]
  cases hl : mem.leaf pagetable va with
  | none => rfl
  | some pte =>
      have hu : hasFlag pte PTE_U = false := by
        by_contra hu
        exact h ⟨pte, hl, by simpa using hu⟩
      simp [Option.filter, hu]

def SameTable (mem now : Mem) (pagetable : ℕ) : Prop :=
  ∀ va, va < MAXVA → ∀ t ∈ mem.walkPages 2 pagetable va, now t = mem t

theorem SameTable.leaf (h : SameTable mem now pagetable) (va : ℕ) :
    now.leaf pagetable va = mem.leaf pagetable va := by
  unfold Mem.leaf
  split
  · rename_i hva
    rw [(Mem.walk_congr 2 pagetable va (h va hva)).2]
  · rfl

theorem SameTable.walkaddr (h : SameTable mem now pagetable) (va : ℕ) :
    walkaddr now pagetable va = walkaddr mem pagetable va := by
  rw [walkaddr_eq, walkaddr_eq, h.leaf]

-- The bytes of the range that copyout gets to: no byte up to them is out of reach.
def Reached (mem : Mem) (pagetable dstva k : ℕ) : Prop :=
  ∀ j, j ≤ k → UserPage mem pagetable (dstva + j)

theorem SameTable.memmove (hu : mem.UserPages pagetable) (h : SameTable mem now pagetable)
    (hp : UserPage mem pagetable va) (offset : ℕ) (src : ℕ → UInt8) (n : ℕ) :
    SameTable mem (now.memmove (Xv6.walkaddr mem pagetable (pgRoundDown va)) offset src n)
      pagetable := by
  obtain ⟨pte, hl, huser⟩ := hp
  intro va' hva' t ht
  have hne : t ≠ pte2pa pte := by
    rintro rfl
    exact hu.apart va pte hl huser va' hva' ht
  rw [walkaddr_of_leaf hl huser, Mem.memmove, Function.update_of_ne hne]
  exact h va' hva' t ht

-- One pass of the loop covers the bytes up to the end of the page or of the range.
theorem pass_covers (dstva len : ℕ) (hlen : 0 < len) :
    let n := min (PGSIZE - (dstva - pgRoundDown dstva)) len
    0 < n ∧ n ≤ len ∧ dstva - pgRoundDown dstva + n ≤ PGSIZE ∧
      (∀ k, k < n → pgRoundDown (dstva + k) = pgRoundDown dstva) ∧
      (n < len → dstva + n = pgRoundDown dstva + PGSIZE) := by
  have hdiv := Nat.div_add_mod dstva 4096
  have hmod := Nat.mod_lt dstva (show 0 < 4096 by decide)
  simp only [pgRoundDown, PGSIZE]
  refine ⟨by omega, by omega, by omega, fun k hk => ?_, by omega⟩
  congr 1
  omega

def translate (mem : Mem) (pagetable va : ℕ) : ℕ × ℕ := (walkaddr mem pagetable (pgRoundDown va), va % PGSIZE)

theorem UserPage.of_page {va' : ℕ} (h : UserPage mem pagetable va) (hpage : pgRoundDown va' = pgRoundDown va) :
    UserPage mem pagetable va' := by
  obtain ⟨pte, hl, huser⟩ := h
  refine ⟨pte, ?_, huser⟩
  rw [← Mem.leaf_pgRoundDown, hpage, Mem.leaf_pgRoundDown, hl]

theorem translate_page (mem : Mem) (pagetable : ℕ) {k : ℕ} (hpage : pgRoundDown (va + k) = pgRoundDown va) :
    translate mem pagetable (va + k) = (walkaddr mem pagetable (pgRoundDown va), va - pgRoundDown va + k) := by
  rw [translate, hpage]
  simp only [pgRoundDown, PGSIZE] at hpage ⊢
  congr 1
  omega

-- The result of copyout. Two addresses may be of one byte of memory: then the last one counts.
structure Copied (mem now : Mem) (pagetable dstva : ℕ) (src : ℕ → UInt8) (len : ℕ)
    (result : Mem × Int) : Prop where
  done : (∀ k, k < len → UserPage mem pagetable (dstva + k)) → result.2 = 0
  stopped : (∃ k, k < len ∧ ¬UserPage mem pagetable (dstva + k)) → result.2 = -1
  written : ∀ k, k < len → Reached mem pagetable dstva k →
    (∀ j, k < j → j < len → Reached mem pagetable dstva j →
      translate mem pagetable (dstva + j) ≠ translate mem pagetable (dstva + k)) →
    result.1 (translate mem pagetable (dstva + k)).1 (translate mem pagetable (dstva + k)).2 = src k
  kept : ∀ q o, (∀ k, k < len → Reached mem pagetable dstva k → translate mem pagetable (dstva + k) ≠ (q, o)) →
    result.1 q o = now q o

theorem copyoutLoop_copied (hu : mem.UserPages pagetable) (fuel : ℕ) (now : Mem) (dstva : ℕ)
    (src : ℕ → UInt8) (len : ℕ) (hsame : SameTable mem now pagetable) (hfuel : len ≤ fuel) :
    Copied mem now pagetable dstva src len (copyoutLoop pagetable fuel now dstva src len) := by
  induction fuel generalizing now dstva src len with
  | zero =>
      have hzero : len = 0 := by omega
      subst hzero
      exact ⟨fun _ => rfl, fun ⟨k, hk, _⟩ => by omega, fun k hk => by omega, fun _ _ _ => rfl⟩
  | succ fuel ih =>
      by_cases hlen : len = 0
      · subst hlen
        simp only [copyoutLoop, ite_true]
        exact ⟨fun _ => rfl, fun ⟨k, hk, _⟩ => by omega, fun k hk => by omega, fun _ _ _ => rfl⟩
      obtain ⟨hpos, hle, hpage, hfirst, hnext⟩ := pass_covers dstva len (by omega)
      set va0 := pgRoundDown dstva with hva0
      set n := min (PGSIZE - (dstva - va0)) len with hn
      simp only [copyoutLoop, hlen, ite_false, ← hva0, ← hn, hsame.walkaddr]
      by_cases hp : UserPage mem pagetable dstva
      · obtain ⟨pte, hl, huser⟩ := hp
        have haddr : walkaddr mem pagetable va0 = pte2pa pte := walkaddr_of_leaf hl huser
        have hne : pte2pa pte ≠ 0 := hu.nonzero dstva pte hl huser
        simp only [haddr, hne, ite_false]
        have hsame' := hsame.memmove hu ⟨pte, hl, huser⟩ (dstva - va0) src n
        rw [← hva0, haddr] at hsame'
        have hrest := ih (now.memmove (pte2pa pte) (dstva - va0) src n) (va0 + PGSIZE)
          (fun i => src (n + i)) (len - n) hsame' (by omega)
        have hbyte : ∀ k, k < n → UserPage mem pagetable (dstva + k) := fun k hk =>
          UserPage.of_page ⟨pte, hl, huser⟩ (hfirst k hk)
        have hshift : ∀ k, n + k < len → dstva + (n + k) = va0 + PGSIZE + k := by
          intro k hk
          have hend := hnext (by omega)
          omega
        have hreach : ∀ k, n + k < len → (Reached mem pagetable dstva (n + k) ↔
            Reached mem pagetable (va0 + PGSIZE) k) := by
          intro k hk
          constructor
          · intro h j hj
            rw [← hshift j (by omega)]
            exact h (n + j) (by omega)
          · intro h j hj
            by_cases hjn : j < n
            · exact hbyte j hjn
            · have hj' := h (j - n) (by omega)
              rw [← hshift (j - n) (by omega)] at hj'
              rwa [show n + (j - n) = j by omega] at hj'
        -- The bytes of this pass.
        have htrans : ∀ k, k < n → translate mem pagetable (dstva + k) = (pte2pa pte, dstva - va0 + k) := by
          intro k hk
          rw [translate_page mem pagetable (hfirst k hk), ← hva0, haddr]
        constructor
        · intro h
          apply hrest.done
          intro k hk
          rw [← hshift k (by omega)]
          exact h (n + k) (by omega)
        · rintro ⟨k, hk, hnot⟩
          have hkn : n ≤ k := by
            by_contra hlt
            exact hnot (hbyte k (by omega))
          obtain ⟨j, rfl⟩ := Nat.exists_eq_add_of_le hkn
          rw [hshift j hk] at hnot
          exact hrest.stopped ⟨j, by omega, hnot⟩
        · intro k hk hr hlast
          by_cases hkn : k < n
          · rw [htrans k hkn] at hlast ⊢
            rw [hrest.kept]
            · rw [Mem.memmove, Function.update_self, if_pos (by omega), Nat.add_sub_cancel_left]
            · intro j hj hrj
              rw [← hshift j (by omega)]
              exact hlast (n + j) (by omega) (by omega) ((hreach j (by omega)).mpr hrj)
          · obtain ⟨j, rfl⟩ := Nat.exists_eq_add_of_le (show n ≤ k by omega)
            rw [hshift j hk] at hlast ⊢
            refine hrest.written j (by omega) ((hreach j hk).mp hr) fun i hi hilt hri => ?_
            rw [← hshift i (by omega)]
            exact hlast (n + i) (by omega) (by omega) ((hreach i (by omega)).mpr hri)
        · intro q o hq
          rw [hrest.kept]
          · by_cases hqp : q = pte2pa pte
            · subst hqp
              rw [Mem.memmove, Function.update_self]
              refine if_neg fun ho => ?_
              refine hq (o - (dstva - va0)) (by omega) (fun j hj => hbyte j (by omega)) ?_
              rw [htrans _ (by omega), show dstva - va0 + (o - (dstva - va0)) = o by omega]
            · rw [Mem.memmove, Function.update_of_ne hqp]
          · intro k hk hr
            rw [← hshift k (by omega)]
            exact hq (n + k) (by omega) ((hreach k (by omega)).mpr hr)
      · have haddr : walkaddr mem pagetable va0 = 0 := walkaddr_of_not hp
        simp only [haddr, ite_true]
        refine ⟨fun h => absurd (h 0 (by omega)) hp, fun _ => rfl, fun k hk hr => ?_, fun _ _ _ => rfl⟩
        exact absurd (hr 0 (by omega)) hp

theorem copyout_copied (hu : mem.UserPages pagetable) (dstva : ℕ) (src : ℕ → UInt8) (len : ℕ) :
    Copied mem mem pagetable dstva src len (copyout mem pagetable dstva src len) :=
  copyoutLoop_copied hu len mem dstva src len (fun _ _ _ _ => rfl) le_rfl

-- In a table as the kernel builds it every address is of a byte of its own.
theorem Mem.UserTable.translate_inj (hu : mem.UserTable pagetable) {va' : ℕ} (hp : UserPage mem pagetable va)
    (hp' : UserPage mem pagetable va') (h : translate mem pagetable va = translate mem pagetable va') : va = va' := by
  obtain ⟨pte, hl, huser⟩ := hp
  obtain ⟨pte', hl', huser'⟩ := hp'
  simp only [translate, Prod.mk.injEq, walkaddr_of_leaf hl huser, walkaddr_of_leaf hl' huser'] at h
  have hround := hu.once _ _ _ _ hl hl' h.1
  have hoff := h.2
  simp only [pgRoundDown, PGSIZE] at hround hoff
  omega

-- copyout keeps off read-only pages, whatever the source, exactly when every byte
-- of the range before the first one out of the user's reach is in a writable page.
theorem copyout_keeps_readonly_iff (hu : mem.UserTable pagetable) (dstva len : ℕ) :
    (∀ src : ℕ → UInt8,
      (∀ va pte, mem.leaf pagetable va = some pte → hasFlag pte PTE_W = false →
        (copyout mem pagetable dstva src len).1 (pte2pa pte) = mem (pte2pa pte)) ∧
      ((∃ k pte, k < len ∧ mem.leaf pagetable (dstva + k) = some pte ∧ hasFlag pte PTE_W = false) →
        (copyout mem pagetable dstva src len).2 = -1)) ↔
    ∀ k, k < len → Reached mem pagetable dstva k →
      ∃ pte, mem.leaf pagetable (dstva + k) = some pte ∧ hasFlag pte PTE_W = true := by
  constructor
  · intro h k hk hr
    obtain ⟨pte, hl, huser⟩ := hr k le_rfl
    by_contra hno
    have hw : hasFlag pte PTE_W = false := by
      by_contra hw
      exact hno ⟨pte, hl, by simpa using hw⟩
    -- A source byte that differs from what the page holds there.
    obtain ⟨byte, hne⟩ : ∃ byte, byte ≠ mem (pte2pa pte) ((dstva + k) % PGSIZE) := by
      by_cases hz : mem (pte2pa pte) ((dstva + k) % PGSIZE) = 0
      · exact ⟨1, by rw [hz]; decide⟩
      · exact ⟨0, Ne.symm hz⟩
    have hkeep := (h (fun _ => byte)).1 _ pte hl hw
    have hwrite := (copyout_copied hu.pages dstva (fun _ => byte) len).written k hk hr fun j hj _ hrj he => by
      have hsame := hu.translate_inj (hrj j le_rfl) (hr k le_rfl) he
      omega
    rw [translate, walkaddr_of_leaf hl huser, hkeep] at hwrite
    exact hne hwrite.symm
  · intro h src
    have hc := copyout_copied hu.pages dstva src len
    constructor
    · intro va pte hl hw
      funext o
      apply hc.kept
      intro k hk hr he
      obtain ⟨pte', hl', hw'⟩ := h k hk hr
      obtain ⟨pte'', hl'', huser⟩ := hr k le_rfl
      rw [translate, walkaddr_of_leaf hl'' huser] at he
      have hround := hu.once _ _ _ _ hl hl'' (congrArg Prod.fst he).symm
      rw [← Mem.leaf_pgRoundDown, hround, Mem.leaf_pgRoundDown, hl'] at hl
      simp only [Option.some.injEq] at hl
      rw [← hl, hw'] at hw
      cases hw
    · rintro ⟨k, pte, hk, hl, hw⟩
      apply hc.stopped
      by_contra hall
      have hr : Reached mem pagetable dstva k := by
        intro j hj
        by_contra hj'
        exact hall ⟨j, by omega, hj'⟩
      obtain ⟨pte', hl', hw'⟩ := h k hk hr
      rw [hl] at hl'
      simp only [Option.some.injEq] at hl'
      rw [hl', hw'] at hw
      cases hw

-- A program of two pages: text at address 0, mapped without PTE_W as exec does, and data.
def textMem : Mem :=
  Mem.setPte (Mem.setPte (Mem.setPte (Mem.setPte (fun _ _ => 0) 10 0 (pa2pte 11 ||| PTE_V))
    11 0 (pa2pte 12 ||| PTE_V)) 12 0 (pa2pte 13 ||| (PTE_R ||| PTE_X ||| PTE_U ||| PTE_V)))
    12 1 (pa2pte 14 ||| (PTE_R ||| PTE_W ||| PTE_U ||| PTE_V))

private theorem textMem_pte (page i : ℕ) (hi : i ≠ 0) (hdata : page ≠ 12 ∨ i ≠ 1) : textMem.pte page i = 0 := by
  have hzero : ∀ page, Mem.pte (fun _ _ => 0) page i = 0 := by
    intro page
    simp [Mem.pte, Bytes.load]
  have hset : ∀ (mem : Mem) (t value : ℕ), (∀ page, mem.pte page i = 0) →
      ∀ page, (mem.setPte t 0 value).pte page i = 0 := by
    intro mem t value h page
    by_cases hp : page = t
    · subst hp
      rw [Mem.pte_setPte_of_ne _ _ _ hi, h]
    · rw [Mem.pte_setPte_page _ _ _ _ hp, h]
  have htext := hset _ 12 (pa2pte 13 ||| (PTE_R ||| PTE_X ||| PTE_U ||| PTE_V)) (hset _ 11 (pa2pte 12 ||| PTE_V)
    (hset _ 10 (pa2pte 11 ||| PTE_V) hzero)) page
  by_cases hp : page = 12
  · subst hp
    rw [textMem, Mem.pte_setPte_of_ne _ _ _ (hdata.resolve_left (not_not.mpr rfl)), htext]
  · rw [textMem, Mem.pte_setPte_page _ _ _ _ hp, htext]

-- The tables at 10 and 11 have one entry each, and the table at 12 those of the two pages.
private theorem textMem_tables : (textMem.pte 10 0 = 11265 ∧ pte2pa 11265 = 11 ∧ hasFlag 11265 PTE_V = true) ∧
    (textMem.pte 11 0 = 12289 ∧ pte2pa 12289 = 12 ∧ hasFlag 12289 PTE_V = true) ∧
    (textMem.pte 12 0 = 13339 ∧ hasFlag 13339 PTE_V = true) ∧
    (textMem.pte 12 1 = 14359 ∧ hasFlag 14359 PTE_V = true) ∧ hasFlag 0 PTE_V = false := by decide

private theorem textMem_walk {a : PteAddr} (h : textMem.walk 2 10 va = some a) :
    px 2 va = 0 ∧ px 1 va = 0 ∧ a = (12, px 0 va) := by
  by_cases h2 : px 2 va = 0
  · by_cases h1 : px 1 va = 0
    · simp only [Mem.walk, h2, h1, textMem_tables, ite_true, Option.some.injEq] at h
      exact ⟨h2, h1, h.symm⟩
    · simp [Mem.walk, h2, textMem_pte 11 _ h1 (.inl (by decide)), textMem_tables] at h
  · simp [Mem.walk, textMem_pte 10 _ h2 (.inl (by decide)), textMem_tables] at h

private theorem textMem_leaf {pte : ℕ} (h : textMem.leaf 10 va = some pte) :
    va < 4096 ∧ pte = 13339 ∨ (4096 ≤ va ∧ va < 8192) ∧ pte = 14359 := by
  unfold Mem.leaf at h
  split at h
  · rename_i hva
    cases hw : textMem.walk 2 10 va with
    | none => simp [hw, Option.filter] at h
    | some a =>
        obtain ⟨h2, h1, rfl⟩ := textMem_walk hw
        by_cases h0 : px 0 va = 0
        · simp only [hw, Option.map_some, Mem.read, h0, textMem_tables, Option.filter, ite_true, Option.some.injEq] at h
          refine .inl ⟨?_, h.symm⟩
          simp only [px, MAXVA] at h2 h1 h0 hva
          omega
        by_cases h0' : px 0 va = 1
        · simp only [hw, Option.map_some, Mem.read, h0', textMem_tables, Option.filter, ite_true, Option.some.injEq] at h
          refine .inr ⟨?_, h.symm⟩
          simp only [px, MAXVA] at h2 h1 h0' hva
          omega
        · simp [hw, Mem.read, textMem_pte 12 _ h0 (.inr h0'), Option.filter, textMem_tables] at h
  · cases h

private theorem textMem_walkPages (va t : ℕ) (h : t ∈ textMem.walkPages 2 10 va) : t < 13 := by
  by_cases h2 : px 2 va = 0
  · by_cases h1 : px 1 va = 0
    · simp only [Mem.walkPages, h2, h1, textMem_tables, ite_true, List.mem_cons, List.not_mem_nil, or_false] at h
      omega
    · simp [Mem.walkPages, h2, textMem_pte 11 _ h1 (.inl (by decide)), textMem_tables] at h
      omega
  · simp [Mem.walkPages, textMem_pte 10 _ h2 (.inl (by decide)), textMem_tables] at h
    omega

theorem textMem_userTable : textMem.UserTable 10 where
  apart := by
    intro va pte hl _ va' _ ht
    have hlt := textMem_walkPages va' _ ht
    rcases textMem_leaf hl with ⟨-, rfl⟩ | ⟨-, rfl⟩ <;> exact absurd hlt (by decide)
  once := by
    intro va va' pte pte' hl hl' he
    simp only [pgRoundDown, PGSIZE]
    rcases textMem_leaf hl with ⟨h, rfl⟩ | ⟨h, rfl⟩ <;> rcases textMem_leaf hl' with ⟨h', rfl⟩ | ⟨h', rfl⟩
    · omega
    · exact absurd he (by decide)
    · exact absurd he (by decide)
    · omega
  nonzero := by
    intro va pte hl _
    rcases textMem_leaf hl with ⟨-, rfl⟩ | ⟨-, rfl⟩ <;> decide

-- The kernel overwrites the first byte of the text and reports success.
theorem copyout_overwrites_text :
    textMem.UserTable 10 ∧ textMem.leaf 10 0 = some 13339 ∧ hasFlag 13339 PTE_W = false ∧
      pte2pa 13339 = 13 ∧ (copyout textMem 10 0 (fun _ => 7) 1).2 = 0 ∧
      (copyout textMem 10 0 (fun _ => 7) 1).1 13 0 ≠ textMem 13 0 :=
  ⟨textMem_userTable, by decide, by decide, by decide, by decide, by decide⟩

-- A write to the data leaves the text as it is.
theorem copyout_keeps_readonly_iff_data :
    textMem.UserTable 10 ∧ (copyout textMem 10 4096 (fun _ => 7) 8).2 = 0 ∧
    (∀ k < 8, (copyout textMem 10 4096 (fun _ => 7) 8).1 14 k = 7) ∧ ∀ src : ℕ → UInt8,
      (∀ va pte, textMem.leaf 10 va = some pte → hasFlag pte PTE_W = false →
        (copyout textMem 10 4096 src 8).1 (pte2pa pte) = textMem (pte2pa pte)) ∧
      ((∃ k pte, k < 8 ∧ textMem.leaf 10 (4096 + k) = some pte ∧ hasFlag pte PTE_W = false) →
        (copyout textMem 10 4096 src 8).2 = -1) := by
  refine ⟨textMem_userTable, by decide, by decide, (copyout_keeps_readonly_iff textMem_userTable 4096 8).mpr ?_⟩
  intro k hk hr
  obtain ⟨pte, hl, -⟩ := hr k le_rfl
  rcases textMem_leaf hl with ⟨hlt, -⟩ | ⟨-, rfl⟩
  · omega
  · exact ⟨_, hl, by decide⟩

end Xv6
