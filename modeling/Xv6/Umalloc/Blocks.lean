import Xv6.Umalloc

namespace Xv6.Umalloc

def Holds (b : ℕ × ℕ) (x : ℕ) : Prop := b.1 ≤ x ∧ x < b.1 + HEADER * b.2

def Covers (l : List (ℕ × ℕ)) (x : ℕ) : Prop := ∃ b ∈ l, Holds b x

theorem covers_cons {b : ℕ × ℕ} {l : List (ℕ × ℕ)} {x : ℕ} : Covers (b :: l) x ↔ Holds b x ∨ Covers l x := by
  simp [Covers]

theorem covers_append {l l' : List (ℕ × ℕ)} {x : ℕ} : Covers (l ++ l') x ↔ Covers l x ∨ Covers l' x := by
  simp [Covers, or_and_right, exists_or]

def units (l : List (ℕ × ℕ)) : ℕ := (l.map Prod.snd).sum

@[simp] theorem units_nil : units [] = 0 := rfl

@[simp] theorem units_cons (b : ℕ × ℕ) (l : List (ℕ × ℕ)) : units (b :: l) = b.2 + units l := rfl

@[simp] theorem units_append (l l' : List (ℕ × ℕ)) : units (l ++ l') = units l + units l' := by
  simp [units]

-- b in front of l, as one block with the first of l if they touch.
def absorb (b : ℕ × ℕ) : List (ℕ × ℕ) → List (ℕ × ℕ)
  | [] => [b]
  | c :: l => if b.1 + HEADER * b.2 = c.1 then (b.1, b.2 + c.2) :: l else b :: c :: l

def Before (a b : ℕ × ℕ) : Prop := a.1 + HEADER * a.2 < b.1

section Absorb

variable {b : ℕ × ℕ} {l : List (ℕ × ℕ)}

variable {c : ℕ × ℕ}

theorem absorb_units (b : ℕ × ℕ) (l : List (ℕ × ℕ)) : units (absorb b l) = b.2 + units l := by
  cases l with
  | nil => rfl
  | cons c l =>
      rw [absorb]
      split_ifs with htouch
      · simp only [units_cons, Nat.add_assoc]
      · rfl

theorem absorb_covers (x : ℕ) : Covers (absorb b l) x ↔ Holds b x ∨ Covers l x := by
  cases l with
  | nil => exact covers_cons
  | cons c l =>
      rw [absorb]
      split_ifs with htouch
      · rw [covers_cons, covers_cons, ← or_assoc]
        refine or_congr_left ?_
        unfold Holds
        rw [Nat.mul_add]
        dsimp only
        omega
      · exact covers_cons

theorem absorb_head (b : ℕ × ℕ) (l : List (ℕ × ℕ)) :
    ∃ s t, absorb b l = (b.1, s) :: t ∧ b.2 ≤ s ∧ t.Sublist l := by
  cases l with
  | nil => exact ⟨b.2, [], rfl, le_rfl, List.Sublist.refl []⟩
  | cons c l =>
      rw [absorb]
      split_ifs with htouch
      · exact ⟨b.2 + c.2, l, rfl, Nat.le_add_right _ _, List.sublist_cons_self c l⟩
      · exact ⟨b.2, c :: l, rfl, le_rfl, List.Sublist.refl _⟩

theorem absorb_before (hl : l.Pairwise Before) (hb : ∀ c ∈ l, b.1 + HEADER * b.2 ≤ c.1) :
    (absorb b l).Pairwise Before := by
  cases l with
  | nil => exact List.pairwise_singleton _ _
  | cons c l =>
      have hc := List.pairwise_cons.mp hl
      rw [absorb]
      split_ifs with htouch
      · refine List.pairwise_cons.mpr ⟨fun d hd => ?_, hc.2⟩
        have hcd := hc.1 d hd
        unfold Before at hcd ⊢
        rw [Nat.mul_add]
        dsimp only
        omega
      · refine List.pairwise_cons.mpr ⟨fun d hd => ?_, hl⟩
        have hbc := hb c List.mem_cons_self
        rcases List.mem_cons.mp hd with rfl | hd
        · unfold Before
          omega
        · have hcd := hc.1 d hd
          unfold Before at hcd ⊢
          omega

theorem mem_absorb (hc : c ∈ absorb b l) : ∃ d ∈ b :: l, d.1 = c.1 ∧ d.2 ≤ c.2 := by
  obtain ⟨s, t, habsorb, hle, hsub⟩ := absorb_head b l
  rw [habsorb] at hc
  rcases List.mem_cons.mp hc with rfl | hc
  · exact ⟨b, List.mem_cons_self, rfl, hle⟩
  · exact ⟨c, List.mem_cons_of_mem b (hsub.subset hc), rfl, le_rfl⟩

theorem absorb_fits (hc : c ∈ b :: l) : ∃ d ∈ absorb b l, c.2 ≤ d.2 := by
  cases l with
  | nil => exact ⟨c, hc, le_rfl⟩
  | cons a l =>
      rw [absorb]
      split_ifs with htouch
      · rcases List.mem_cons.mp hc with rfl | hc
        · exact ⟨_, List.mem_cons_self, Nat.le_add_right _ _⟩
        · rcases List.mem_cons.mp hc with rfl | hc
          · exact ⟨_, List.mem_cons_self, Nat.le_add_left _ _⟩
          · exact ⟨c, List.mem_cons_of_mem _ hc, le_rfl⟩
      · exact ⟨c, hc, le_rfl⟩

theorem absorb_of_before (hc : b.1 + HEADER * b.2 < c.1) (l : List (ℕ × ℕ)) :
    absorb b (c :: l) = b :: c :: l := by
  rw [absorb, if_neg hc.ne]

def insertBlock (low : List (ℕ × ℕ)) (b : ℕ × ℕ) (high : List (ℕ × ℕ)) : List (ℕ × ℕ) :=
  low.foldr absorb (absorb b high)

variable {low high : List (ℕ × ℕ)}

theorem insertBlock_units (low : List (ℕ × ℕ)) (b : ℕ × ℕ) (high : List (ℕ × ℕ)) :
    units (insertBlock low b high) = b.2 + units (low ++ high) := by
  induction low with
  | nil => exact absorb_units b high
  | cons a low ih =>
      change units (absorb a (insertBlock low b high)) = _
      rw [absorb_units, ih, List.cons_append, units_cons]
      omega

theorem insertBlock_covers (x : ℕ) : Covers (insertBlock low b high) x ↔ Holds b x ∨ Covers (low ++ high) x := by
  induction low with
  | nil => exact absorb_covers x
  | cons a low ih =>
      change Covers (absorb a (insertBlock low b high)) x ↔ _
      rw [absorb_covers, ih, List.cons_append, covers_cons, or_left_comm]

theorem mem_insertBlock (hc : c ∈ insertBlock low b high) :
    ∃ d ∈ b :: (low ++ high), d.1 = c.1 ∧ d.2 ≤ c.2 := by
  induction low generalizing c with
  | nil => exact mem_absorb hc
  | cons a low ih =>
      obtain ⟨d, hd, hstart, hle⟩ := mem_absorb (l := insertBlock low b high) hc
      rcases List.mem_cons.mp hd with rfl | hd
      · exact ⟨d, by simp, hstart, hle⟩
      · obtain ⟨e, he, hstart', hle'⟩ := ih hd
        refine ⟨e, ?_, hstart'.trans hstart, hle'.trans hle⟩
        rcases List.mem_cons.mp he with rfl | he
        · exact List.mem_cons_self
        · exact List.mem_cons_of_mem b (List.mem_cons_of_mem a he)

theorem insertBlock_fits (low : List (ℕ × ℕ)) (b : ℕ × ℕ) (high : List (ℕ × ℕ)) :
    ∃ c ∈ insertBlock low b high, b.2 ≤ c.2 := by
  induction low with
  | nil => exact absorb_fits List.mem_cons_self
  | cons a low ih =>
      obtain ⟨c, hc, hle⟩ := ih
      obtain ⟨d, hd, hle'⟩ := absorb_fits (b := a) (List.mem_cons_of_mem a hc)
      exact ⟨d, hd, hle.trans hle'⟩

theorem insertBlock_before (hl : (low ++ high).Pairwise Before) (hlow : ∀ c ∈ low, c.1 + HEADER * c.2 ≤ b.1)
    (hhigh : ∀ c ∈ high, b.1 + HEADER * b.2 ≤ c.1) : (insertBlock low b high).Pairwise Before := by
  induction low with
  | nil => exact absorb_before hl hhigh
  | cons a low ih =>
      obtain ⟨ha, hl⟩ := List.pairwise_cons.mp hl
      refine absorb_before (ih hl fun c hc => hlow c (List.mem_cons_of_mem a hc)) fun c hc => ?_
      obtain ⟨d, hd, hstart, -⟩ := mem_insertBlock hc
      rw [← hstart]
      rcases List.mem_cons.mp hd with rfl | hd
      · exact hlow a List.mem_cons_self
      · exact (ha d hd).le

theorem insertBlock_concat {a : ℕ × ℕ} (hlow : (low ++ [a]).Pairwise Before) :
    insertBlock (low ++ [a]) b high = low ++ absorb a (absorb b high) := by
  obtain ⟨s, t, habsorb, -, -⟩ := absorb_head a (absorb b high)
  rw [insertBlock, List.foldr_append, List.foldr_cons, List.foldr_nil, habsorb]
  induction low with
  | nil => rfl
  | cons c low ih =>
      obtain ⟨hc, hlow⟩ := List.pairwise_cons.mp hlow
      rw [List.foldr_cons, ih hlow]
      cases low with
      | nil => exact absorb_of_before (c := (a.1, s)) (hc a (by simp)) t
      | cons d low => exact absorb_of_before (hc d (by simp)) _

end Absorb

end Xv6.Umalloc
