import Xv6.Umalloc.Blocks

namespace Xv6.Umalloc

open Chain

variable {a : ℕ} {mem : ℕ → UInt8}

def Far (a b : ℕ) : Prop := a + HEADER ≤ b ∨ b + HEADER ≤ a

theorem Far.symm {b : ℕ} (h : Far a b) : Far b a := Or.symm h

section Headers

variable (mem : ℕ → UInt8) {a b : ℕ} (v : ℕ)

theorem ptr_lt (a : ℕ) : ptr mem a < 2 ^ 64 := Bytes.load_lt mem a 8

theorem size_lt (a : ℕ) : size mem a < 2 ^ 32 := Bytes.load_lt mem (a + 8) 4

theorem ptr_setPtr (a : ℕ) : ptr (setPtr mem a v) a = v % 2 ^ 64 := Bytes.load_store mem a 8 v

theorem size_setSize (a : ℕ) : size (setSize mem a v) a = v % 2 ^ 32 := Bytes.load_store mem (a + 8) 4 v

theorem size_setPtr_self (a : ℕ) : size (setPtr mem a v) a = size mem a :=
  Bytes.load_store_disjoint _ _ _ _ _ _ (.inl le_rfl)

theorem ptr_setSize_self (a : ℕ) : ptr (setSize mem a v) a = ptr mem a :=
  Bytes.load_store_disjoint _ _ _ _ _ _ (.inr le_rfl)

theorem ptr_setPtr_far (h : Far a b) : ptr (setPtr mem a v) b = ptr mem b := by
  unfold Far HEADER at h
  exact Bytes.load_store_disjoint _ _ _ _ _ _ (by omega)

theorem size_setPtr_far (h : Far a b) : size (setPtr mem a v) b = size mem b := by
  unfold Far HEADER at h
  exact Bytes.load_store_disjoint _ _ _ _ _ _ (by omega)

theorem ptr_setSize_far (h : Far a b) : ptr (setSize mem a v) b = ptr mem b := by
  unfold Far HEADER at h
  exact Bytes.load_store_disjoint _ _ _ _ _ _ (by omega)

theorem size_setSize_far (h : Far a b) : size (setSize mem a v) b = size mem b := by
  unfold Far HEADER at h
  exact Bytes.load_store_disjoint _ _ _ _ _ _ (by omega)

end Headers

def SameBut (a : ℕ) (mem mem' : ℕ → UInt8) : Prop :=
  ∀ b, Far a b → ptr mem' b = ptr mem b ∧ size mem' b = size mem b

theorem SameBut.setPtr {mem' : ℕ → UInt8} (h : SameBut a mem mem') (v : ℕ) :
    SameBut a mem (Umalloc.setPtr mem' a v) := fun b hb =>
  ⟨(ptr_setPtr_far mem' v hb).trans (h b hb).1, (size_setPtr_far mem' v hb).trans (h b hb).2⟩

theorem SameBut.setSize {mem' : ℕ → UInt8} (h : SameBut a mem mem') (v : ℕ) :
    SameBut a mem (Umalloc.setSize mem' a v) := fun b hb =>
  ⟨(ptr_setSize_far mem' v hb).trans (h b hb).1, (size_setSize_far mem' v hb).trans (h b hb).2⟩

theorem SameBut.refl (a : ℕ) (mem : ℕ → UInt8) : SameBut a mem mem := fun _ _ => ⟨rfl, rfl⟩

section FindPlace

variable {mem : ℕ → UInt8} {base bp : ℕ} (hbase : base < bp)

variable {p : ℕ} {high : List ℕ}

include hbase

-- From a node below bp, the search goes to the last one below it.
theorem findPlace_below {low : List ℕ} (h : Leads (ptr mem) p (low ++ high) base) (hp : base ≤ p)
    (hlow : (p :: low).Pairwise (· < ·)) (hlt : ∀ x ∈ p :: low, x < bp) (hgt : ∀ x ∈ high, bp < x) (fuel : ℕ) :
    findPlace mem bp (low.length + 1 + fuel) p = some ((p :: low).getLast (List.cons_ne_nil _ _)) := by
  induction low generalizing p with
  | nil =>
      have hpbp := hlt p List.mem_cons_self
      rw [show ([] : List ℕ).length + 1 + fuel = fuel + 1 by simp [Nat.add_comm], findPlace]
      cases high with
      | nil =>
          have hnext : ptr mem p = base := h
          rw [hnext, if_neg (by omega), if_pos ⟨hp, .inl hpbp⟩]
          rfl
      | cons c high =>
          have hnext : ptr mem p = c := h.1
          rw [hnext, if_pos ⟨hpbp, hgt c List.mem_cons_self⟩]
          rfl
  | cons b low ih =>
      have hnext : ptr mem p = b := h.1
      have hpb : p < b := (List.pairwise_cons.mp hlow).1 b List.mem_cons_self
      have hb : b < bp := hlt b (by simp)
      rw [show (b :: low).length + 1 + fuel = (low.length + 1 + fuel) + 1 by rw [List.length_cons]; omega, findPlace,
        hnext, if_neg (by omega), if_neg (by omega),
        ih h.2 (by omega) (List.pairwise_cons.mp hlow).2 fun x hx => hlt x (List.mem_cons_of_mem _ hx),
        List.getLast_cons (List.cons_ne_nil b low)]

theorem findPlace_above (h : Leads (ptr mem) p high base)
    (hhigh : (p :: high).Pairwise (· < ·)) (hgt : ∀ x ∈ p :: high, bp < x) (fuel : ℕ) :
    findPlace mem bp (high.length + 1 + fuel) p = findPlace mem bp fuel base := by
  induction high generalizing p with
  | nil =>
      have hnext : ptr mem p = base := h
      have hpbp := hgt p List.mem_cons_self
      rw [show ([] : List ℕ).length + 1 + fuel = fuel + 1 by simp [Nat.add_comm], findPlace, hnext, if_neg (by omega),
        if_neg (by omega)]
  | cons b high ih =>
      have hnext : ptr mem p = b := h.1
      have hpb : p < b := (List.pairwise_cons.mp hhigh).1 b List.mem_cons_self
      have hpbp := hgt p List.mem_cons_self
      rw [show (b :: high).length + 1 + fuel = (high.length + 1 + fuel) + 1 by rw [List.length_cons]; omega, findPlace,
        hnext, if_neg (by omega), if_neg (by omega),
        ih h.2 (List.pairwise_cons.mp hhigh).2 fun x hx => hgt x (List.mem_cons_of_mem _ hx)]

-- Wherever freep is, the search ends at the last node below bp.
theorem findPlace_eq {low : List ℕ} (h : Leads (ptr mem) base (low ++ high) base)
    (hsorted : (base :: (low ++ high)).Pairwise (· < ·)) (hlt : ∀ x ∈ low, x < bp) (hgt : ∀ x ∈ high, bp < x)
    (hp : p ∈ base :: (low ++ high)) :
    ∃ fuel, ∀ more, findPlace mem bp (fuel + more) p = some ((base :: low).getLast (List.cons_ne_nil _ _)) := by
  have hlow : (base :: low).Pairwise (· < ·) := hsorted.sublist ((List.sublist_append_left low high).cons_cons base)
  have hbelow : ∀ x ∈ base :: low, x < bp := by
    intro x hx
    rcases List.mem_cons.mp hx with rfl | hx
    · exact hbase
    · exact hlt x hx
  have hfrom := findPlace_below hbase h le_rfl hlow hbelow hgt
  rw [← List.cons_append] at hp
  rcases List.mem_append.mp hp with hp | hp
  · obtain ⟨before, after, hsplit⟩ := List.append_of_mem hp
    cases before with
    | nil =>
        cases hsplit
        exact ⟨low.length + 1, hfrom⟩
    | cons b before =>
        rw [List.cons_append, List.cons.injEq] at hsplit
        obtain ⟨rfl, rfl⟩ := hsplit
        have hpath : Leads (ptr mem) p (after ++ high) base := by
          rw [List.append_assoc, List.cons_append] at h
          exact (leads_append.mp h).2
        have hafter : (p :: after).Pairwise (· < ·) :=
          hlow.sublist ((List.sublist_append_right before (p :: after)).cons base)
        have hple : base ≤ p := ((List.pairwise_cons.mp hlow).1 p (by simp)).le
        refine ⟨after.length + 1, fun more => ?_⟩
        have hfind := findPlace_below hbase hpath hple hafter (fun x hx => hbelow x (by simp at hx ⊢; tauto)) hgt more
        have hlast : (base :: before ++ p :: after).getLast (List.cons_ne_nil _ _) =
            (p :: after).getLast (List.cons_ne_nil _ _) := List.getLast_append_of_ne_nil _ _
        exact hfind.trans (congrArg some hlast.symm)
  · obtain ⟨before, after, rfl⟩ := List.append_of_mem hp
    have hpath : Leads (ptr mem) p after base := by
      rw [← List.append_assoc] at h
      exact (leads_append.mp h).2
    have hafter : (p :: after).Pairwise (· < ·) := by
      refine (List.pairwise_cons.mp hsorted).2.sublist ?_
      exact (List.sublist_append_right before (p :: after)).trans (List.sublist_append_right low _)
    refine ⟨after.length + 1 + (low.length + 1), fun more => ?_⟩
    rw [Nat.add_assoc, findPlace_above hbase hpath hafter (fun x hx => hgt x (List.mem_append_right _ hx)), hfrom]

end FindPlace

theorem findPlace_more {bp fuel p q : ℕ} (h : findPlace mem bp fuel p = some q) (more : ℕ) :
    findPlace mem bp (fuel + more) p = some q := by
  induction fuel generalizing p with
  | zero => cases h
  | succ fuel ih =>
      rw [Nat.add_right_comm, findPlace]
      rw [findPlace] at h
      split_ifs at h ⊢ with hfirst hsecond
      · exact h
      · exact h
      · exact ih h

section Join

variable {mem : ℕ → UInt8} {base : ℕ}

-- bp takes over what comes after p, and the block there if it touches.
theorem joinNext_spec {p : ℕ} {b : ℕ × ℕ} {high : List (ℕ × ℕ)} (h : Leads (ptr mem) p (high.map Prod.fst) base)
    (hbase : base < b.1) (hsize : size mem b.1 = b.2) (hsizes : ∀ c ∈ high, size mem c.1 = c.2) (hp : Far b.1 p)
    (hfar : ∀ c ∈ high, Far b.1 c.1) (hsum : b.2 + units high < 2 ^ 32) :
    SameBut b.1 mem (joinNext mem p b.1) ∧ ∃ s t, absorb b high = (b.1, s) :: t ∧ t.Sublist high ∧
      size (joinNext mem p b.1) b.1 = s ∧ Leads (ptr (joinNext mem p b.1)) b.1 (t.map Prod.fst) base := by
  unfold joinNext
  rw [hsize]
  cases high with
  | nil =>
      have hnext : ptr mem p = base := h
      rw [hnext, if_neg (by omega)]
      refine ⟨(SameBut.refl b.1 mem).setPtr base, b.2, [], rfl, List.Sublist.refl [],
        (size_setPtr_self ..).trans hsize, ?_⟩
      exact (ptr_setPtr ..).trans (Nat.mod_eq_of_lt (hnext ▸ ptr_lt mem p))
  | cons c high =>
      have hnext : ptr mem p = c.1 := h.1
      have hc : c.1 < 2 ^ 64 := hnext ▸ ptr_lt mem p
      have hkeep : ∀ d ∈ c :: high, ∀ mem', SameBut b.1 mem mem' → ptr mem' d.1 = ptr mem d.1 := fun d hd mem' hsame =>
        (hsame d.1 (hfar d hd)).1
      rw [hnext, absorb]
      split_ifs with htouch
      · have hgrow := (SameBut.refl b.1 mem).setSize (v := b.2 + size mem c.1)
        dsimp only
        rw [(hgrow p hp).1, hnext, hkeep c List.mem_cons_self _ hgrow, hsizes c List.mem_cons_self]
        rw [hsizes c List.mem_cons_self] at hgrow
        have hall := hgrow.setPtr (ptr mem c.1)
        refine ⟨hall, b.2 + c.2, high, rfl, List.sublist_cons_self c high, ?_, ?_⟩
        · rw [size_setPtr_self, size_setSize]
          rw [units_cons] at hsum
          exact Nat.mod_eq_of_lt (by omega)
        · refine Leads.head h.2 ((ptr_setPtr ..).trans (Nat.mod_eq_of_lt (ptr_lt mem c.1))) fun x hx => ?_
          obtain ⟨d, hd, rfl⟩ := List.mem_map.mp hx
          exact hkeep d (List.mem_cons_of_mem c hd) _ hall
      · have hall := (SameBut.refl b.1 mem).setPtr c.1
        refine ⟨hall, b.2, c :: high, rfl, List.Sublist.refl _, (size_setPtr_self ..).trans hsize, ?_⟩
        refine Leads.head h (((ptr_setPtr ..).trans (Nat.mod_eq_of_lt hc)).trans hnext.symm) fun x hx => ?_
        obtain ⟨d, hd, rfl⟩ := List.mem_map.mp hx
        exact hkeep d hd _ hall

-- p takes over bp if it touches, and otherwise goes to it.
theorem joinPrev_spec {p m s : ℕ} {bp : ℕ} {t : List (ℕ × ℕ)} (h : Leads (ptr mem) bp (t.map Prod.fst) base)
    (hbp : bp < 2 ^ 64) (hsize : size mem p = m) (hs : size mem bp = s) (hp : Far p bp) (hfar : ∀ c ∈ t, Far p c.1)
    (hsum : m + s < 2 ^ 32) :
    SameBut p mem (joinPrev mem p bp) ∧ ∃ m' t', absorb (p, m) ((bp, s) :: t) = (p, m') :: t' ∧
      t'.Sublist ((bp, s) :: t) ∧ size (joinPrev mem p bp) p = m' ∧
      Leads (ptr (joinPrev mem p bp)) p (t'.map Prod.fst) base := by
  have hkeep : ∀ d ∈ t, ∀ mem', SameBut p mem mem' → ptr mem' d.1 = ptr mem d.1 := fun d hd mem' hsame =>
    (hsame d.1 (hfar d hd)).1
  unfold joinPrev
  rw [hsize, hs, absorb]
  dsimp only
  split_ifs with htouch
  · have hgrow := (SameBut.refl p mem).setSize (v := m + s)
    rw [(hgrow bp hp).1]
    have hall := hgrow.setPtr (ptr mem bp)
    refine ⟨hall, m + s, t, rfl, List.sublist_cons_self _ t, ?_, ?_⟩
    · rw [size_setPtr_self, size_setSize]
      exact Nat.mod_eq_of_lt hsum
    · refine Leads.head h ((ptr_setPtr ..).trans (Nat.mod_eq_of_lt (ptr_lt mem bp))) fun x hx => ?_
      obtain ⟨d, hd, rfl⟩ := List.mem_map.mp hx
      exact hkeep d hd _ hall
  · have hall := (SameBut.refl p mem).setPtr bp
    refine ⟨hall, m, (bp, s) :: t, rfl, List.Sublist.refl _, (size_setPtr_self ..).trans hsize, ?_⟩
    refine ⟨(ptr_setPtr ..).trans (Nat.mod_eq_of_lt hbp), Leads.congr h fun x hx => ?_⟩
    rcases List.mem_cons.mp hx with rfl | hx
    · exact (hall _ hp).1
    · obtain ⟨d, hd, rfl⟩ := List.mem_map.mp hx
      exact hkeep d hd _ hall

theorem join_spec {p m : ℕ} {b : ℕ × ℕ} {high : List (ℕ × ℕ)} (h : Leads (ptr mem) p (high.map Prod.fst) base)
    (hbase : base < b.1) (hm : size mem p = m) (hsize : size mem b.1 = b.2) (hsizes : ∀ c ∈ high, size mem c.1 = c.2)
    (hp : p + HEADER ≤ b.1) (hhigh : ∀ c ∈ high, b.1 + HEADER * b.2 ≤ c.1) (hpos : 0 < b.2) (hbp : b.1 < 2 ^ 64)
    (hsum : m + (b.2 + units high) < 2 ^ 32) :
    (∀ a, Far p a → Far b.1 a → ptr (joinPrev (joinNext mem p b.1) p b.1) a = ptr mem a ∧
      size (joinPrev (joinNext mem p b.1) p b.1) a = size mem a) ∧
    ∃ m' t, absorb (p, m) (absorb b high) = (p, m') :: t ∧ size (joinPrev (joinNext mem p b.1) p b.1) p = m' ∧
      Leads (ptr (joinPrev (joinNext mem p b.1) p b.1)) p (t.map Prod.fst) base ∧
      ∀ c ∈ t, size (joinPrev (joinNext mem p b.1) p b.1) c.1 = c.2 := by
  have hfarp : Far p b.1 := .inl hp
  have hfar : ∀ c ∈ high, Far b.1 c.1 := by
    intro c hc
    have hbc := hhigh c hc
    exact .inl ((Nat.add_le_add_left (Nat.le_mul_of_pos_right HEADER hpos) b.1).trans hbc)
  have hfarhigh : ∀ c ∈ high, Far p c.1 := fun c hc => .inl ((hp.trans (Nat.le_add_right _ _)).trans (hhigh c hc))
  obtain ⟨hsame, s, t, habsorb, hsub, hs, hlead⟩ :=
    joinNext_spec h hbase hsize hsizes hfarp.symm hfar ((Nat.le_add_left _ m).trans_lt hsum)
  have hle : s ≤ b.2 + units high := by
    rw [← absorb_units, habsorb, units_cons]
    exact Nat.le_add_right _ _
  obtain ⟨hsame', m', t', habsorb', hsub', hm', hlead'⟩ :=
    joinPrev_spec hlead hbp ((hsame p hfarp.symm).2.trans hm) hs hfarp (fun c hc => hfarhigh c (hsub.subset hc))
      ((Nat.add_le_add_left hle m).trans_lt hsum)
  refine ⟨fun a ha hba => ?_, m', t', habsorb ▸ habsorb', hm', hlead', fun c hc => ?_⟩
  · exact ⟨(hsame' a ha).1.trans (hsame a hba).1, (hsame' a ha).2.trans (hsame a hba).2⟩
  · rcases List.mem_cons.mp (hsub'.subset hc) with rfl | hc
    · exact (hsame' b.1 hfarp).2.trans hs
    · have hmem := hsub.subset hc
      exact ((hsame' c.1 (hfarhigh c hmem)).2.trans (hsame c.1 (hfar c hmem)).2).trans (hsizes c hmem)

end Join

-- The free list: a cycle through base, in the order of the addresses, with no two blocks touching.
structure FreeList (mem : ℕ → UInt8) (base : ℕ) (l : List (ℕ × ℕ)) : Prop where
  cycle : Leads (ptr mem) base (l.map Prod.fst) base
  base_size : size mem base = 0
  sizes : ∀ b ∈ l, size mem b.1 = b.2
  before : l.Pairwise Before
  room : ∀ b ∈ l, base + HEADER ≤ b.1 ∧ 0 < b.2

-- A block that overlaps none of the list has its place in it.
theorem exists_place {b : ℕ × ℕ} {l : List (ℕ × ℕ)} (hl : l.Pairwise Before)
    (hb : ∀ c ∈ l, c.1 + HEADER * c.2 ≤ b.1 ∨ b.1 + HEADER * b.2 ≤ c.1) :
    ∃ low high, l = low ++ high ∧ (∀ c ∈ low, c.1 + HEADER * c.2 ≤ b.1) ∧
      ∀ c ∈ high, b.1 + HEADER * b.2 ≤ c.1 := by
  induction l with
  | nil => exact ⟨[], [], rfl, by simp, by simp⟩
  | cons a l ih =>
      obtain ⟨ha, hl⟩ := List.pairwise_cons.mp hl
      rcases hb a List.mem_cons_self with hlow | hhigh
      · obtain ⟨low, high, rfl, hlows, hhighs⟩ := ih hl fun c hc => hb c (List.mem_cons_of_mem a hc)
        exact ⟨a :: low, high, rfl, List.forall_mem_cons.mpr ⟨hlow, hlows⟩, hhighs⟩
      · refine ⟨[], a :: l, rfl, by simp, List.forall_mem_cons.mpr ⟨hhigh, fun c hc => ?_⟩⟩
        have hac := ha c hc
        unfold Before at hac
        omega

theorem FreeList.sorted {base : ℕ} {l : List (ℕ × ℕ)} (h : FreeList mem base l) :
    (base :: l.map Prod.fst).Pairwise (· < ·) := by
  refine List.pairwise_cons.mpr ⟨fun x hx => ?_, List.pairwise_map.mpr (h.before.imp fun {a b} hab => ?_)⟩
  · obtain ⟨b, hb, rfl⟩ := List.mem_map.mp hx
    have hroom := (h.room b hb).1
    unfold HEADER at hroom
    omega
  · exact (Nat.le_add_right _ _).trans_lt hab

structure Freed (mem mem' : ℕ → UInt8) (base : ℕ) (b : ℕ × ℕ) (l l' : List (ℕ × ℕ)) : Prop where
  list : FreeList mem' base l'
  total : units l' = b.2 + units l
  covers : ∀ x, Covers l' x ↔ Holds b x ∨ Covers l x
  fits : ∃ c ∈ l', b.2 ≤ c.2
  frame : ∀ a, Far b.1 a → (∀ q ∈ base :: l.map Prod.fst, Far q a) → size mem' a = size mem a

section FreeSpec

variable {mem : ℕ → UInt8} {base : ℕ} {b : ℕ × ℕ} {low high : List (ℕ × ℕ)}

-- What holds of the blocks, once the memory is known to hold the new list.
theorem FreeList.freed {mem' : ℕ → UInt8} (h : FreeList mem base (low ++ high)) (hroom : base + HEADER ≤ b.1)
    (hpos : 0 < b.2) (hlow : ∀ c ∈ low, c.1 + HEADER * c.2 ≤ b.1) (hhigh : ∀ c ∈ high, b.1 + HEADER * b.2 ≤ c.1)
    (hcycle : Leads (ptr mem') base ((insertBlock low b high).map Prod.fst) base) (hbase : size mem' base = 0)
    (hsizes : ∀ c ∈ insertBlock low b high, size mem' c.1 = c.2)
    (hframe : ∀ a, Far b.1 a → (∀ q ∈ base :: (low ++ high).map Prod.fst, Far q a) → size mem' a = size mem a) :
    Freed mem mem' base b (low ++ high) (insertBlock low b high) where
  list := by
    refine ⟨hcycle, hbase, hsizes, insertBlock_before h.before hlow hhigh, fun c hc => ?_⟩
    obtain ⟨d, hd, hstart, hle⟩ := mem_insertBlock hc
    rw [← hstart]
    rcases List.mem_cons.mp hd with rfl | hd
    · exact ⟨hroom, hpos.trans_le hle⟩
    · exact ⟨(h.room d hd).1, (h.room d hd).2.trans_le hle⟩
  total := insertBlock_units low b high
  covers := insertBlock_covers
  fits := insertBlock_fits low b high
  frame := hframe

theorem FreeList.freed_first (h : FreeList mem base high) (hsize : size mem b.1 = b.2) (hpos : 0 < b.2)
    (hroom : base + HEADER ≤ b.1) (hlt : b.1 < 2 ^ 64) (hhigh : ∀ c ∈ high, b.1 + HEADER * b.2 ≤ c.1)
    (hsum : b.2 + units high < 2 ^ 32) :
    Freed mem (joinPrev (joinNext mem base b.1) base b.1) base b high (insertBlock [] b high) := by
  have hbase : base < b.1 := (Nat.lt_add_of_pos_right (by decide : 0 < HEADER)).trans_le hroom
  obtain ⟨hframe, m, t, habsorb, hm, hlead, hsizes⟩ := join_spec h.cycle hbase h.base_size hsize h.sizes hroom hhigh
    hpos hlt ((Nat.zero_add _).trans_lt hsum)
  obtain ⟨s, t', hhead, -, -⟩ := absorb_head b high
  rw [hhead, absorb_of_before (b := (base, 0)) (c := (b.1, s)) hbase t', List.cons.injEq, Prod.mk.injEq,
    ← hhead] at habsorb
  obtain ⟨⟨-, rfl⟩, rfl⟩ := habsorb
  have hlist : FreeList mem base ([] ++ high) := h
  exact hlist.freed hroom hpos (by simp) hhigh hlead hm hsizes fun a hb hq =>
    (hframe a (hq base List.mem_cons_self) hb).2

theorem FreeList.freed_after {a : ℕ × ℕ} (h : FreeList mem base ((low ++ [a]) ++ high)) (hsize : size mem b.1 = b.2)
    (hpos : 0 < b.2) (hroom : base + HEADER ≤ b.1) (hlt : b.1 < 2 ^ 64)
    (hlow : ∀ c ∈ low ++ [a], c.1 + HEADER * c.2 ≤ b.1) (hhigh : ∀ c ∈ high, b.1 + HEADER * b.2 ≤ c.1)
    (hsum : b.2 + units ((low ++ [a]) ++ high) < 2 ^ 32) :
    Freed mem (joinPrev (joinNext mem a.1 b.1) a.1 b.1) base b ((low ++ [a]) ++ high)
      (insertBlock (low ++ [a]) b high) := by
  have hbase : base < b.1 := (Nat.lt_add_of_pos_right (by decide : 0 < HEADER)).trans_le hroom
  have hmem : a ∈ (low ++ [a]) ++ high := by simp
  have hcycle := h.cycle
  rw [List.append_assoc, List.singleton_append, List.map_append, List.map_cons, leads_append] at hcycle
  have hpairs := (List.pairwise_append.mp h.before).1
  have hab : a.1 + HEADER ≤ b.1 := (Nat.add_le_add_left (Nat.le_mul_of_pos_right HEADER (h.room a hmem).2) a.1).trans
    (hlow a (by simp))
  obtain ⟨hframe, m, t, habsorb, hm, hlead, hsizes⟩ := join_spec hcycle.2 hbase (h.sizes a hmem) hsize
    (fun c hc => h.sizes c (List.mem_append_right _ hc)) hab hhigh hpos hlt
    (by simp only [units_append, units_cons, units_nil] at hsum; omega)
  -- base and the blocks of low are away from both headers.
  have haway : ∀ x ∈ base :: low.map Prod.fst, x + HEADER ≤ a.1 := by
    intro x hx
    rcases List.mem_cons.mp hx with rfl | hx
    · exact (h.room a hmem).1
    · obtain ⟨c, hc, rfl⟩ := List.mem_map.mp hx
      have hca : Before c a := (List.pairwise_append.mp hpairs).2.2 c hc a (List.mem_singleton_self a)
      have hcpos := (h.room c (by simp [hc])).2
      exact (Nat.add_le_add_left (Nat.le_mul_of_pos_right HEADER hcpos) c.1).trans hca.le
  have hkeep : ∀ x ∈ base :: low.map Prod.fst, _ := fun x hx =>
    hframe x (.inr (haway x hx)) (.inr ((haway x hx).trans ((Nat.le_add_right _ _).trans hab)))
  have hlist : insertBlock (low ++ [a]) b high = low ++ absorb a (absorb b high) := insertBlock_concat hpairs
  rw [habsorb] at hlist
  refine FreeList.freed h hroom hpos hlow hhigh ?_ ?_ ?_ fun x hb hq => (hframe x (hq a.1 ?_) hb).2
  · rw [hlist, List.map_append, List.map_cons, leads_append]
    exact ⟨hcycle.1.congr fun x hx => (hkeep x hx).1, hlead⟩
  · exact (hkeep base List.mem_cons_self).2.trans h.base_size
  · intro c hc
    rw [hlist] at hc
    rcases List.mem_append.mp hc with hc | hc
    · refine (hkeep c.1 (List.mem_cons_of_mem _ (List.mem_map_of_mem hc))).2.trans (h.sizes c ?_)
      simp [hc]
    · rcases List.mem_cons.mp hc with rfl | hc
      · exact hm
      · exact hsizes c hc
  · simp

theorem free_spec {l : List (ℕ × ℕ)} (h : FreeList mem base l) {p : ℕ} (hp : p ∈ base :: l.map Prod.fst)
    (hsize : size mem b.1 = b.2) (hpos : 0 < b.2) (hroom : base + HEADER ≤ b.1) (hlt : b.1 < 2 ^ 64)
    (hb : ∀ c ∈ l, c.1 + HEADER * c.2 ≤ b.1 ∨ b.1 + HEADER * b.2 ≤ c.1) (hsum : b.2 + units l < 2 ^ 32) :
    ∃ fuel q l', (∀ more, findPlace mem b.1 (fuel + more) p = some q) ∧ q ∈ base :: l'.map Prod.fst ∧
      Freed mem (joinPrev (joinNext mem q b.1) q b.1) base b l l' := by
  obtain ⟨low, high, rfl, hlow, hhigh⟩ := exists_place h.before hb
  have hbase : base < b.1 := (Nat.lt_add_of_pos_right (by decide : 0 < HEADER)).trans_le hroom
  have hsorted := h.sorted
  have hcycle := h.cycle
  rw [List.map_append] at hsorted hcycle hp
  have hlowlt : ∀ x ∈ low.map Prod.fst, x < b.1 := by
    intro x hx
    obtain ⟨c, hc, rfl⟩ := List.mem_map.mp hx
    have hcpos := Nat.mul_pos (by decide : 0 < HEADER) (h.room c (List.mem_append_left _ hc)).2
    have hcb := hlow c hc
    omega
  have hhighgt : ∀ x ∈ high.map Prod.fst, b.1 < x := by
    intro x hx
    obtain ⟨c, hc, rfl⟩ := List.mem_map.mp hx
    have hbpos := Nat.mul_pos (by decide : 0 < HEADER) hpos
    have hbc := hhigh c hc
    omega
  obtain ⟨fuel, hfind⟩ := findPlace_eq hbase hcycle hsorted hlowlt hhighgt hp
  refine ⟨fuel, _, insertBlock low b high, hfind, ?_⟩
  rcases List.eq_nil_or_concat' low with rfl | ⟨low, a, rfl⟩
  · exact ⟨List.mem_cons_self, h.freed_first hsize hpos hroom hlt hhigh hsum⟩
  · have hlast : (base :: (low ++ [a]).map Prod.fst).getLast (List.cons_ne_nil _ _) = a.1 := by
      simp [List.getLast_cons]
    obtain ⟨s, t, habsorb, -, -⟩ := absorb_head a (absorb b high)
    rw [hlast]
    refine ⟨?_, h.freed_after hsize hpos hroom hlt hlow hhigh hsum⟩
    rw [insertBlock_concat (List.pairwise_append.mp h.before).1, habsorb]
    simp

end FreeSpec

end Xv6.Umalloc
