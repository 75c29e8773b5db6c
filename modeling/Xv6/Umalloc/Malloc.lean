import Xv6.Umalloc.Invariant

namespace Xv6.Umalloc

open Chain

section Take

variable {mem : ℕ → UInt8} {base : ℕ} {b : ℕ × ℕ} {l l₁ l₂ : List (ℕ × ℕ)}

theorem FreeList.far (h : FreeList mem base l) {x y : ℕ} (hx : x ∈ base :: l.map Prod.fst)
    (hy : y ∈ base :: l.map Prod.fst) (hne : x ≠ y) : Far x y := by
  have hpairs : (base :: l.map Prod.fst).Pairwise fun x y => x + HEADER ≤ y := by
    refine List.pairwise_cons.mpr ⟨fun y hy => ?_, List.pairwise_map.mpr (h.before.imp_of_mem fun {a b} ha _ hab => ?_)⟩
    · obtain ⟨b, hb, rfl⟩ := List.mem_map.mp hy
      exact (h.room b hb).1
    · exact (Nat.add_le_add_left (Nat.le_mul_of_pos_right HEADER (h.room a ha).2) a.1).trans hab.le
  have hfar : (base :: l.map Prod.fst).Pairwise Far := hpairs.imp .inl
  have : Std.Symm Far := ⟨fun _ _ => Far.symm⟩
  exact hfar.forall hx hy hne

theorem FreeList.nodup (h : FreeList mem base l) : (base :: l.map Prod.fst).Nodup := h.sorted.imp Nat.ne_of_lt

-- Moving a pointer of the list leaves its sizes alone.
theorem FreeList.size_setPtr (h : FreeList mem base l) {q x : ℕ} (v : ℕ) (hq : q ∈ base :: l.map Prod.fst)
    (hx : x ∈ base :: l.map Prod.fst) : size (setPtr mem q v) x = size mem x := by
  by_cases hxq : q = x
  · rw [← hxq]
    exact size_setPtr_self ..
  · exact size_setPtr_far _ _ (h.far hq hx hxq)

-- The block b goes, and the node before it goes on to the next one.
theorem FreeList.unlink (h : FreeList mem base (l₁ ++ b :: l₂)) {q : ℕ}
    (hq : q ∈ base :: (l₁ ++ b :: l₂).map Prod.fst) (hnext : ptr mem q = b.1) :
    FreeList (setPtr mem q (ptr mem b.1)) base (l₁ ++ l₂) ∧ q ∈ base :: (l₁ ++ l₂).map Prod.fst := by
  have hcycle := h.cycle
  rw [List.map_append, List.map_cons] at hcycle
  have hsub : (base :: (l₁.map Prod.fst ++ l₂.map Prod.fst)).Sublist (base :: (l₁ ++ b :: l₂).map Prod.fst) := by
    rw [← List.map_append]
    exact (((List.sublist_cons_self b l₂).append_left l₁).map Prod.fst).cons_cons base
  have hlast : (base :: l₁.map Prod.fst).getLast (List.cons_ne_nil _ _) = q := by
    refine h.cycle.next_inj h.nodup ?_ hq ((leads_append.mp hcycle).1.next_last.trans hnext.symm)
    refine hsub.subset ?_
    rw [← List.cons_append]
    exact List.mem_append_left _ (List.getLast_mem _)
  have hsize : ∀ x ∈ base :: (l₁ ++ b :: l₂).map Prod.fst, size (setPtr mem q (ptr mem b.1)) x = size mem x :=
    fun x hx => h.size_setPtr _ hq hx
  refine ⟨⟨?_, ?_, fun c hc => ?_, ?_, fun c hc => h.room c ?_⟩, ?_⟩
  · rw [List.map_append]
    refine hcycle.unlink (h.nodup.sublist hsub) ?_ fun x hx hne => ?_
    · rw [hlast, ptr_setPtr]
      exact Nat.mod_eq_of_lt (ptr_lt ..)
    · rw [hlast] at hne
      exact ptr_setPtr_far _ _ (h.far hq (hsub.subset hx) hne.symm)
  · exact (hsize base List.mem_cons_self).trans h.base_size
  · have hmem : c ∈ l₁ ++ b :: l₂ := ((List.sublist_cons_self b l₂).append_left l₁).subset hc
    exact (hsize c.1 (List.mem_cons_of_mem _ (List.mem_map_of_mem hmem))).trans (h.sizes c hmem)
  · exact h.before.sublist ((List.sublist_cons_self b l₂).append_left l₁)
  · exact ((List.sublist_cons_self b l₂).append_left l₁).subset hc
  · rw [← hlast, List.map_append, ← List.cons_append]
    exact List.mem_append_left _ (List.getLast_mem _)

theorem FreeList.apart (h : FreeList mem base (l₁ ++ b :: l₂)) {c : ℕ × ℕ} (hc : c ∈ l₁ ++ l₂) :
    Before c b ∨ Before b c := by
  obtain ⟨-, hright, hcross⟩ := List.pairwise_append.mp h.before
  rcases List.mem_append.mp hc with hc | hc
  · exact .inl (hcross c hc b List.mem_cons_self)
  · exact .inr ((List.pairwise_cons.mp hright).1 c hc)

-- What is left of the block b, when n units are taken from its end.
def rest (b : ℕ × ℕ) (n : ℕ) : ℕ × ℕ := (b.1, b.2 - n)

def tail (b : ℕ × ℕ) (n : ℕ) : ℕ × ℕ := (b.1 + HEADER * (b.2 - n), n)

section Shrink

variable {n : ℕ}

theorem tail_end (hlt : n < b.2) : (tail b n).1 + HEADER * n = b.1 + HEADER * b.2 := by
  unfold tail HEADER
  dsimp only
  omega

variable (hn : 0 < n) (hlt : n < b.2)

include hn hlt

theorem tail_room : b.1 + HEADER ≤ (tail b n).1 ∧ (tail b n).1 + HEADER ≤ b.1 + HEADER * b.2 := by
  unfold tail HEADER
  dsimp only
  omega

theorem FreeList.far_tail (h : FreeList mem base (l₁ ++ b :: l₂)) {x : ℕ}
    (hx : x ∈ base :: (l₁ ++ b :: l₂).map Prod.fst) : Far (tail b n).1 x := by
  have hroom := tail_room hn hlt
  have hbase := (h.room b (by simp)).1
  rcases List.mem_cons.mp hx with rfl | hx
  · exact .inr (by omega)
  · obtain ⟨c, hc, rfl⟩ := List.mem_map.mp hx
    by_cases hcb : c = b
    · subst hcb
      exact .inr hroom.1
    · have hother : c ∈ l₁ ++ l₂ := by
        simp only [List.mem_append, List.mem_cons, hcb, false_or] at hc ⊢
        exact hc
      have hcpos := Nat.le_mul_of_pos_right HEADER (h.room c hc).2
      rcases h.apart hother with hbefore | hafter
      · unfold Before at hbefore
        exact .inr (by omega)
      · unfold Before at hafter
        exact .inl (by omega)

theorem FreeList.shrink (h : FreeList mem base (l₁ ++ b :: l₂)) :
    FreeList (setSize (setSize mem b.1 (b.2 - n)) (tail b n).1 n) base (l₁ ++ rest b n :: l₂) := by
  have hmem : b ∈ l₁ ++ b :: l₂ := by simp
  have hb : b.2 < 2 ^ 32 := h.sizes b hmem ▸ size_lt mem b.1
  have hbnode : b.1 ∈ base :: (l₁ ++ b :: l₂).map Prod.fst := List.mem_cons_of_mem _ (List.mem_map_of_mem hmem)
  have hptr : ∀ x ∈ base :: (l₁ ++ b :: l₂).map Prod.fst,
      ptr (setSize (setSize mem b.1 (b.2 - n)) (tail b n).1 n) x = ptr mem x := by
    intro x hx
    rw [ptr_setSize_far _ _ (h.far_tail hn hlt hx)]
    by_cases hxb : b.1 = x
    · rw [← hxb]
      exact ptr_setSize_self ..
    · exact ptr_setSize_far _ _ (h.far hbnode hx hxb)
  have hsize : ∀ x ∈ base :: (l₁ ++ b :: l₂).map Prod.fst, b.1 ≠ x →
      size (setSize (setSize mem b.1 (b.2 - n)) (tail b n).1 n) x = size mem x := by
    intro x hx hxb
    rw [size_setSize_far _ _ (h.far_tail hn hlt hx)]
    exact size_setSize_far _ _ (h.far hbnode hx hxb)
  have hsplit : ∀ c ∈ l₁ ++ rest b n :: l₂, c = rest b n ∨ c ∈ l₁ ++ l₂ := by
    intro c hc
    simp only [List.mem_append, List.mem_cons] at hc ⊢
    tauto
  have hother : ∀ c ∈ l₁ ++ l₂, c ∈ l₁ ++ b :: l₂ := fun c hc =>
    ((List.sublist_cons_self b l₂).append_left l₁).subset hc
  have hnodes : (l₁ ++ rest b n :: l₂).map Prod.fst = (l₁ ++ b :: l₂).map Prod.fst := by
    rw [List.map_append, List.map_append, List.map_cons, List.map_cons]
    rfl
  refine ⟨?_, ?_, fun c hc => ?_, ?_, fun c hc => ?_⟩
  · rw [hnodes]
    exact h.cycle.congr hptr
  · refine (hsize base List.mem_cons_self fun heq => ?_).trans h.base_size
    have hroom := (h.room b hmem).1
    unfold HEADER at hroom
    omega
  · rcases hsplit c hc with rfl | hc
    · change size _ b.1 = b.2 - n
      rw [size_setSize_far _ _ (h.far_tail hn hlt hbnode), size_setSize]
      exact Nat.mod_eq_of_lt (by omega)
    · refine (hsize c.1 (List.mem_cons_of_mem _ (List.mem_map_of_mem (hother c hc))) fun heq => ?_).trans
        (h.sizes c (hother c hc))
      have hapart := h.apart hc
      unfold Before at hapart
      omega
  · obtain ⟨hleft, hright, hcross⟩ := List.pairwise_append.mp h.before
    obtain ⟨hafter, hright⟩ := List.pairwise_cons.mp hright
    refine List.pairwise_append.mpr ⟨hleft, List.pairwise_cons.mpr ⟨fun c hc => ?_, hright⟩, fun a ha c hc => ?_⟩
    · have hbc := hafter c hc
      unfold Before at hbc ⊢
      unfold rest HEADER at *
      dsimp only at *
      omega
    · rcases List.mem_cons.mp hc with rfl | hc
      · exact hcross a ha b List.mem_cons_self
      · exact hcross a ha c (List.mem_cons_of_mem b hc)
  · rcases hsplit c hc with rfl | hc
    · exact ⟨(h.room b hmem).1, Nat.sub_pos_of_lt hlt⟩
    · exact h.room c (hother c hc)

end Shrink

structure Taken (mem mem' : ℕ → UInt8) (base : ℕ) (c : ℕ × ℕ) (l l' : List (ℕ × ℕ)) : Prop where
  list : FreeList mem' base l'
  size_eq : size mem' c.1 = c.2
  pos : 0 < c.2
  apart : ∀ a ∈ l', Apart a c
  total : units l = c.2 + units l'
  covers : ∀ x, Covers l x ↔ Holds c x ∨ Covers l' x
  frame : ∀ a, Far c.1 a → (∀ q ∈ base :: l.map Prod.fst, Far q a) → size mem' a = size mem a

theorem FreeList.taken_all (h : FreeList mem base (l₁ ++ b :: l₂)) {q : ℕ}
    (hq : q ∈ base :: (l₁ ++ b :: l₂).map Prod.fst) (hnext : ptr mem q = b.1) :
    Taken mem (setPtr mem q (ptr mem b.1)) base b (l₁ ++ b :: l₂) (l₁ ++ l₂) where
  list := (h.unlink hq hnext).1
  size_eq := by
    have hmem : b ∈ l₁ ++ b :: l₂ := by simp
    exact (h.size_setPtr _ hq (List.mem_cons_of_mem _ (List.mem_map_of_mem hmem))).trans (h.sizes b hmem)
  pos := (h.room b (by simp)).2
  apart a ha := (h.apart ha).imp Nat.le_of_lt Nat.le_of_lt
  total := by
    simp only [units_append, units_cons]
    omega
  covers x := by
    rw [covers_append, covers_cons, covers_append, or_left_comm]
  frame a _ hfar := size_setPtr_far _ _ (hfar q hq)

theorem FreeList.taken_tail (h : FreeList mem base (l₁ ++ b :: l₂)) {n : ℕ} (hn : 0 < n) (hlt : n < b.2) :
    Taken mem (setSize (setSize mem b.1 (b.2 - n)) (tail b n).1 n) base (tail b n) (l₁ ++ b :: l₂)
      (l₁ ++ rest b n :: l₂) where
  list := h.shrink hn hlt
  size_eq := by
    have hb : b.2 < 2 ^ 32 := h.sizes b (by simp) ▸ size_lt mem b.1
    exact (size_setSize ..).trans (Nat.mod_eq_of_lt (by omega))
  pos := hn
  apart a ha := by
    have hroom := tail_room hn hlt
    have hend := tail_end hlt
    have hsplit : a = rest b n ∨ a ∈ l₁ ++ l₂ := by
      simp only [List.mem_append, List.mem_cons] at ha ⊢
      tauto
    unfold Apart
    rcases hsplit with rfl | ha
    · exact .inl le_rfl
    · refine (h.apart ha).imp (fun hbefore => ?_) fun hafter => ?_
      · unfold Before at hbefore
        omega
      · unfold Before at hafter
        change (tail b n).1 + HEADER * n ≤ a.1
        omega
  total := by
    simp only [units_append, units_cons, rest, tail]
    omega
  covers x := by
    have hend := tail_end hlt
    have hpart : Holds b x ↔ Holds (tail b n) x ∨ Holds (rest b n) x := by
      have hle : HEADER * (b.2 - n) ≤ HEADER * b.2 := Nat.mul_le_mul_left HEADER (Nat.sub_le b.2 n)
      unfold Holds
      change _ ↔ ((tail b n).1 ≤ x ∧ x < (tail b n).1 + HEADER * n) ∨ (b.1 ≤ x ∧ x < b.1 + HEADER * (b.2 - n))
      change b.1 + HEADER * (b.2 - n) + HEADER * n = _ at hend
      change _ ↔ (b.1 + HEADER * (b.2 - n) ≤ x ∧ x < b.1 + HEADER * (b.2 - n) + HEADER * n) ∨ _
      omega
    rw [covers_append, covers_cons, covers_append, covers_cons, hpart]
    tauto
  frame a htail hfar := by
    rw [size_setSize_far _ _ htail]
    exact size_setSize_far _ _ (hfar b.1 (by simp))

end Take

namespace Heap

variable {h : Heap} {l live : List (ℕ × ℕ)}

variable {mem : ℕ → UInt8}

theorem Inv.apart_taken (inv : h.Inv l live) {c d : ℕ × ℕ} {l' : List (ℕ × ℕ)}
    (htaken : Taken h.mem mem h.base c l l') (hd : d ∈ live) : Apart c d := by
  refine apart_of_holds htaken.pos (inv.sizes d hd).2 fun x hx hdx => ?_
  obtain ⟨e, he, hex⟩ := (htaken.covers x).mpr (.inl hx)
  exact (inv.free_apart e he d hd).not_holds hex hdx

theorem Inv.taken (inv : h.Inv l live) {c : ℕ × ℕ} {l' : List (ℕ × ℕ)} {q : ℕ}
    (htaken : Taken h.mem mem h.base c l l') (hq : q ∈ h.base :: l'.map Prod.fst) :
    ({ h with mem := mem, freep := q } : Heap).Inv l' (c :: live) where
  list := htaken.list
  freep := hq
  sizes d hd := by
    rcases List.mem_cons.mp hd with rfl | hd
    · exact ⟨htaken.size_eq, htaken.pos⟩
    · obtain ⟨hsize, hpos⟩ := inv.sizes d hd
      have hapart := inv.apart_taken htaken hd
      exact ⟨(htaken.frame d.1 (hapart.far htaken.pos hpos) fun a ha => inv.far_live ha hd).trans hsize, hpos⟩
  live_apart := List.pairwise_cons.mpr ⟨fun d hd => inv.apart_taken htaken hd, inv.live_apart⟩
  free_apart a ha d hd := by
    rcases List.mem_cons.mp hd with rfl | hd
    · exact htaken.apart a ha
    · refine apart_of_holds (htaken.list.room a ha).2 (inv.sizes d hd).2 fun x hx hdx => ?_
      obtain ⟨e, he, hex⟩ := (htaken.covers x).mpr (.inr ⟨a, ha, hx⟩)
      exact (inv.free_apart e he d hd).not_holds hex hdx
  given x := by
    rw [covers_cons, ← or_assoc, or_comm (a := Covers l' x), ← htaken.covers]
    exact inv.given x
  room := inv.room
  base_pos := inv.base_pos
  below := inv.below
  top_le := inv.top_le
  total := by
    rw [units_cons, ← Nat.add_assoc, Nat.add_comm (units l'), ← htaken.total]
    exact inv.total

-- What malloc returns, when it finds a block: c is live, and has n units.
structure Served (h : Heap) (live : List (ℕ × ℕ)) (limit n : ℕ) (r : ℕ × Heap) : Prop where
  inv : ∃ c l', r.1 = c.1 + HEADER ∧ c.2 = n ∧ r.2.Inv l' (c :: live)
  base_eq : r.2.base = h.base
  live_eq : r.2.live = h.live
  total_le : r.2.total ≤ limit

theorem Inv.take (inv : h.Inv l live) {limit q n : ℕ} (htotal : h.total ≤ limit) (hq : q ∈ h.base :: l.map Prod.fst)
    (hn : 0 < n) (hfit : n ≤ size h.mem (ptr h.mem q)) : Served h live limit n (h.take n q (ptr h.mem q)) := by
  have hnext := inv.list.cycle.next_mem hq
  rcases List.mem_cons.mp hnext with hbase | hnode
  · rw [hbase, inv.list.base_size] at hfit
    omega
  · obtain ⟨b, hb, hstart⟩ := List.mem_map.mp hnode
    obtain ⟨l₁, l₂, rfl⟩ := List.append_of_mem hb
    have hsize := inv.list.sizes b hb
    rw [← hstart, hsize] at hfit
    rw [← hstart]
    unfold Heap.take
    rw [hsize]
    split_ifs with heq
    · have htaken := inv.list.taken_all hq hstart.symm
      exact ⟨⟨b, l₁ ++ l₂, rfl, heq, inv.taken htaken (inv.list.unlink hq hstart.symm).2⟩, rfl, rfl, htotal⟩
    · have hlt : n < b.2 := lt_of_le_of_ne hfit (Ne.symm heq)
      have htaken := inv.list.taken_tail hn hlt
      have hrest : size (setSize h.mem b.1 (b.2 - n)) b.1 = b.2 - n := by
        have hb32 : b.2 < 2 ^ 32 := hsize ▸ size_lt h.mem b.1
        exact (size_setSize ..).trans (Nat.mod_eq_of_lt (by omega))
      dsimp only
      rw [hrest]
      refine ⟨⟨tail b n, l₁ ++ rest b n :: l₂, rfl, rfl, inv.taken htaken ?_⟩, rfl, rfl, htotal⟩
      rw [List.map_append, List.map_cons] at hq ⊢
      exact hq

theorem Inv.grow (inv : h.Inv l live) {p nu : ℕ} (hp : h.top ≤ p) (hsize : size h.mem p = nu) (hpos : 0 < nu)
    (hlt : p + nu * HEADER < 2 ^ 64) :
    ({ h with top := p + nu * HEADER, regions := (p, nu * HEADER) :: h.regions } : Heap).Inv l ((p, nu) :: live) where
  list := inv.list
  freep := inv.freep
  sizes b hb := by
    rcases List.mem_cons.mp hb with rfl | hb
    · exact ⟨hsize, hpos⟩
    · exact inv.sizes b hb
  live_apart := by
    refine List.pairwise_cons.mpr ⟨fun b hb => .inr ?_, inv.live_apart⟩
    exact (inv.block_room (.inr hb) (inv.sizes b hb).2).2.trans hp
  free_apart a ha b hb := by
    rcases List.mem_cons.mp hb with rfl | hb
    · exact .inl ((inv.block_room (.inl ha) (inv.list.room a ha).2).2.trans hp)
    · exact inv.free_apart a ha b hb
  given x := by
    have hnew : (∃ r ∈ (p, nu * HEADER) :: h.regions, r.1 ≤ x ∧ x < r.1 + r.2) ↔ Holds (p, nu) x ∨ h.Given x := by
      rw [List.exists_mem_cons_iff, Nat.mul_comm]
      rfl
    rw [covers_cons, or_left_comm, ← inv.given]
    exact hnew
  room x hx := by
    have hbelow := inv.below
    obtain ⟨r, hr, hrx⟩ := hx
    rcases List.mem_cons.mp hr with rfl | hr
    · exact ⟨(hbelow.trans hp).trans hrx.1, hrx.2⟩
    · have hroom := inv.room x ⟨r, hr, hrx⟩
      exact ⟨hroom.1, (hroom.2.trans_le hp).trans_le (Nat.le_add_right _ _)⟩
  base_pos := inv.base_pos
  below := (inv.below.trans hp).trans (Nat.le_add_right _ _)
  top_le := hlt.le
  total := by
    have htotal := inv.total
    change _ = nu * HEADER + h.total
    rw [← htotal, units_cons, Nat.mul_comm nu, ← Nat.mul_add, Nat.add_left_comm]

-- Memory that only differs from the end of the heap on.
theorem Inv.of_eq_below (inv : h.Inv l live) (hmem : ∀ x < h.top, mem x = h.mem x) :
    ({ h with mem := mem } : Heap).Inv l live := by
  have hheader : ∀ b : ℕ × ℕ, 0 < b.2 → b.1 + HEADER * b.2 ≤ h.top →
      ptr mem b.1 = ptr h.mem b.1 ∧ size mem b.1 = size h.mem b.1 := fun b hpos htop =>
    header_congr fun x hx hlt => hmem x ((Holds.header hpos hx hlt).2.trans_le htop)
  apply inv.congr
  · intro a ha
    rcases List.mem_cons.mp ha with rfl | ha
    · exact header_congr fun x _ hlt => hmem x (hlt.trans_le inv.below)
    · obtain ⟨b, hb, rfl⟩ := List.mem_map.mp ha
      have hpos := (inv.list.room b hb).2
      exact hheader b hpos (inv.block_room (.inl hb) hpos).2
  · intro b hb
    have hpos := (inv.sizes b hb).2
    exact (hheader b hpos (inv.block_room (.inr hb) hpos).2).2

theorem sbrk_cases {limit n : ℕ} {gap : Option ℕ} {r : ℕ × Heap} (hrun : h.sbrk limit gap n = some r) :
    ∃ mem, h.top ≤ r.1 ∧ h.total + n ≤ limit ∧ r.1 + n < 2 ^ 64 ∧ (∀ x < h.top, mem x = h.mem x) ∧
      r.2 = { h with mem := mem, top := r.1 + n, regions := (r.1, n) :: h.regions } := by
  unfold sbrk at hrun
  split at hrun
  · cases hrun
  · dsimp only at hrun
    split_ifs at hrun with hfits
    cases hrun
    refine ⟨_, Nat.le_add_right _ _, hfits.1, hfits.2, fun x hx => ?_, rfl⟩
    exact if_neg fun hin => absurd (hx.trans_le (Nat.le_add_right _ _)) hin.1.not_gt

theorem Inv.freep_pos (inv : h.Inv l live) : 0 < h.freep := by
  have hbase := inv.base_pos
  rcases List.mem_cons.mp inv.freep with heq | hnode
  · omega
  · obtain ⟨b, hb, heq⟩ := List.mem_map.mp hnode
    have hroom := (inv.list.room b hb).1
    omega

theorem Inv.around (inv : h.Inv l live) :
    ∃ r, Leads (ptr h.mem) h.freep r h.freep ∧ h.freep ∉ r ∧
      ∀ x, x ∈ h.freep :: r ↔ x ∈ h.base :: l.map Prod.fst := by
  have hcycle := inv.list.cycle
  have hnodup := inv.list.nodup
  rcases List.mem_cons.mp inv.freep with hbase | hnode
  · rw [hbase]
    exact ⟨l.map Prod.fst, hcycle, (List.nodup_cons.mp hnodup).1, fun x => Iff.rfl⟩
  · obtain ⟨n₁, n₂, hsplit⟩ := List.append_of_mem hnode
    rw [hsplit] at hcycle hnodup
    have hperm : (h.freep :: (n₂ ++ h.base :: n₁)).Perm (h.base :: (n₁ ++ h.freep :: n₂)) := by
      rw [← List.cons_append, ← List.cons_append]
      exact List.perm_append_comm
    refine ⟨n₂ ++ h.base :: n₁, hcycle.rotate, (List.nodup_cons.mp (hperm.nodup_iff.mpr hnodup)).1, fun x => ?_⟩
    rw [hsplit]
    exact hperm.mem_iff

def moreBytes (nu : ℕ) : ℕ := (if nu < 4096 then 4096 else nu) * HEADER

-- If sbrk succeeds it gives out memory above the heap, within the limit.
def Supplies (sbrk : ℕ → Heap → ℕ → Option (ℕ × Heap)) (limit : ℕ) (h : Heap) : Prop :=
  ∀ calls n r, 0 < n → n < 2 ^ 31 → sbrk calls h n = some r → ∃ mem, h.top ≤ r.1 ∧ h.total + n ≤ limit ∧
    r.1 + n < 2 ^ 64 ∧ (∀ x < h.top, mem x = h.mem x) ∧
    r.2 = { h with mem := mem, top := r.1 + n, regions := (r.1, n) :: h.regions }

def Grown (sbrk : ℕ → Heap → ℕ → Option (ℕ × Heap)) (h : Heap) (n : ℕ) (t : Heap) : Prop :=
  t.top = h.top ∧ t.regions = h.regions ∨
    ∃ calls r, sbrk calls h (moreBytes n) = some r ∧ t.top = r.2.top ∧ t.regions = r.2.regions

theorem take_top (n prevp p : ℕ) (h : Heap) :
    (h.take n prevp p).2.top = h.top ∧ (h.take n prevp p).2.regions = h.regions := by
  unfold Heap.take
  split_ifs <;> exact ⟨rfl, rfl⟩

section Scan

variable (sbrk : ℕ → Heap → ℕ → Option (ℕ × Heap)) {limit n : ℕ}

-- From prevp the loop takes the first block that is large enough, or comes to freep and asks for more.
theorem mallocLoop_scan {r : List ℕ} {prevp : ℕ} (hpath : Leads (ptr h.mem) prevp r h.freep) (hr : h.freep ∉ r)
    (calls : ℕ) :
    (∃ q ∈ prevp :: r, n ≤ size h.mem (ptr h.mem q) ∧
      ∀ fuel, mallocLoop sbrk n (r.length + 1 + fuel) calls prevp (ptr h.mem prevp) h =
        some (h.take n q (ptr h.mem q))) ∨
    ((∀ x ∈ h.freep :: r, size h.mem x < n) ∧
      ∀ fuel, mallocLoop sbrk n (r.length + 1 + fuel) calls prevp (ptr h.mem prevp) h =
        match morecore sbrk fuel calls h n with
        | none => none
        | some (p, t) =>
            if p = 0 then some (0, t) else mallocLoop sbrk n fuel (calls + 1) p (ptr t.mem p) t) := by
  induction r generalizing prevp with
  | nil =>
      have hnext : ptr h.mem prevp = h.freep := hpath
      by_cases hfit : n ≤ size h.mem h.freep
      · refine .inl ⟨prevp, List.mem_cons_self, hnext ▸ hfit, fun fuel => ?_⟩
        rw [List.length_nil, Nat.zero_add, Nat.add_comm, mallocLoop, hnext, if_pos hfit]
      · refine .inr ⟨?_, fun fuel => ?_⟩
        · intro x hx
          rw [List.mem_singleton.mp hx]
          omega
        · rw [List.length_nil, Nat.zero_add, Nat.add_comm, mallocLoop, hnext]
          exact (if_neg hfit).trans (if_pos rfl)
  | cons c r ih =>
      have hnext : ptr h.mem prevp = c := hpath.1
      have hc : c ≠ h.freep := fun heq => hr (heq ▸ List.mem_cons_self)
      have hlength : ∀ fuel, (c :: r).length + 1 + fuel = (r.length + 1 + fuel) + 1 := fun fuel => by
        rw [List.length_cons]
        omega
      by_cases hfit : n ≤ size h.mem c
      · refine .inl ⟨prevp, List.mem_cons_self, hnext ▸ hfit, fun fuel => ?_⟩
        rw [hlength, mallocLoop, hnext, if_pos hfit]
      · have hskip : ∀ fuel, mallocLoop sbrk n ((c :: r).length + 1 + fuel) calls prevp (ptr h.mem prevp) h =
            mallocLoop sbrk n (r.length + 1 + fuel) calls c (ptr h.mem c) h := fun fuel => by
          rw [hlength, mallocLoop, hnext, if_neg hfit, if_neg hc]
        rcases ih hpath.2 (fun hmem => hr (List.mem_cons_of_mem c hmem)) with ⟨q, hq, hqfit, hrun⟩ | ⟨hnone, hrun⟩
        · exact .inl ⟨q, List.mem_cons_of_mem prevp hq, hqfit, fun fuel => (hskip fuel).trans (hrun fuel)⟩
        · refine .inr ⟨fun x hx => ?_, fun fuel => (hskip fuel).trans (hrun fuel)⟩
          rcases List.mem_cons.mp hx with rfl | hx
          · exact hnone _ List.mem_cons_self
          · rcases List.mem_cons.mp hx with rfl | hx
            · omega
            · exact hnone x (List.mem_cons_of_mem _ hx)

-- With a block that is large enough the loop serves the call.
theorem Inv.mallocLoop_fit (inv : h.Inv l live) (htotal : h.total ≤ limit) (hn : 0 < n) (hfit : ∃ c ∈ l, n ≤ c.2)
    (calls : ℕ) :
    ∃ N r, (∀ more, mallocLoop sbrk n (N + more) calls h.freep (ptr h.mem h.freep) h = some r) ∧
      Served h live limit n r ∧ r.2.top = h.top ∧ r.2.regions = h.regions := by
  obtain ⟨nodes, hpath, hfresh, hnodes⟩ := inv.around
  rcases mallocLoop_scan sbrk (n := n) hpath hfresh calls with
    ⟨q, hq, hqfit, hrun⟩ | ⟨hnone, -⟩
  · exact ⟨_, _, hrun, inv.take htotal ((hnodes q).mp hq) hn hqfit, take_top n q _ h⟩
  · obtain ⟨c, hc, hle⟩ := hfit
    have hmem : c.1 ∈ h.freep :: nodes := (hnodes c.1).mpr (List.mem_cons_of_mem _ (List.mem_map_of_mem hc))
    have hlt := hnone c.1 hmem
    rw [inv.list.sizes c hc] at hlt
    omega

end Scan

theorem setSize_below {p v x : ℕ} (hx : x < p) : setSize mem p v x = mem x :=
  if_neg fun hin => by omega

section AnySbrk

variable {sbrk : ℕ → Heap → ℕ → Option (ℕ × Heap)} {limit nu : ℕ}

-- morecore fails and changes nothing, or leaves a block that is large enough.
theorem Inv.morecore (inv : h.Inv l live) (hsbrk : Supplies sbrk limit h) (hlimit : limit < 2 ^ 36)
    (hfits : HEADER * nu < 2 ^ 31) (calls : ℕ) :
    (∀ fuel, morecore sbrk fuel calls h nu = some (0, h)) ∨
    ∃ N t l', (∀ more, morecore sbrk (N + more) calls h nu = some (t.freep, t)) ∧ t.Inv l' live ∧
      (∃ c ∈ l', nu ≤ c.2) ∧ t.base = h.base ∧ t.live = h.live ∧ t.total ≤ limit ∧ Grown sbrk h nu t := by
  have hbytes : 0 < moreBytes nu ∧ moreBytes nu < 2 ^ 31 := by
    unfold moreBytes HEADER
    unfold HEADER at hfits
    split_ifs <;> omega
  unfold Heap.morecore Grown
  dsimp only
  unfold moreBytes at hbytes ⊢
  generalize hnu' : (if nu < 4096 then 4096 else nu) = nu' at hbytes ⊢
  have hle : nu ≤ nu' ∧ 0 < nu' ∧ nu' < 2 ^ 32 := by
    unfold HEADER at hfits
    split_ifs at hnu' <;> omega
  cases hrun : sbrk calls h (nu' * HEADER) with
  | none => exact .inl fun _ => rfl
  | some r =>
      obtain ⟨p, t⟩ := r
      obtain ⟨mem, htop, htotal, hlt, hbelow, ht⟩ := hsbrk calls _ _ hbytes.1 hbytes.2 hrun
      dsimp only at htop hlt ht
      subst ht
      have hsize : size (setSize mem p nu') p = nu' := (size_setSize ..).trans (Nat.mod_eq_of_lt hle.2.2)
      have hmem : ∀ x < h.top, setSize mem p nu' x = h.mem x := fun x hx =>
        (setSize_below (hx.trans_le htop)).trans (hbelow x hx)
      have hgrown := (inv.of_eq_below hmem).grow htop hsize hle.2.1 hlt
      have hgrown_total : nu' * HEADER + h.total ≤ limit := (Nat.add_comm _ _).trans_le htotal
      obtain ⟨N, mem', q, l', hfree, inv', c, hc, hfit⟩ := hgrown.free (hgrown_total.trans_lt hlimit)
      refine .inr ⟨N, _, l', fun more => ?_, inv', ⟨c, hc, hle.1.trans hfit⟩, rfl, rfl, hgrown_total,
        .inr ⟨calls, _, hrun, rfl, rfl⟩⟩
      dsimp only
      rw [hfree more]

-- The loop returns 0 with the heap as it was, or serves the call.
theorem Inv.mallocLoop (inv : h.Inv l live) (hsbrk : Supplies sbrk limit h) (hlimit : limit < 2 ^ 36) (hn : 0 < nu)
    (hfits : HEADER * nu < 2 ^ 31) (htotal : h.total ≤ limit) :
    ∃ N r, (∀ more, mallocLoop sbrk nu (N + more) 0 h.freep (ptr h.mem h.freep) h = some r) ∧
      (r = (0, h) ∨ Served h live limit nu r) ∧ Grown sbrk h nu r.2 := by
  obtain ⟨nodes, hpath, hfresh, hnodes⟩ := inv.around
  rcases mallocLoop_scan sbrk (n := nu) hpath hfresh 0 with ⟨q, hq, hqfit, hrun⟩ | ⟨-, hrun⟩
  · exact ⟨_, _, hrun, .inr (inv.take htotal ((hnodes q).mp hq) hn hqfit), .inl (take_top nu q _ h)⟩
  · rcases inv.morecore hsbrk hlimit hfits 0 with hfail | ⟨N, t, l', hmore, inv', hfit, hbase, hlive, htotal', hgrown⟩
    · refine ⟨nodes.length + 1, (0, h), fun more => ?_, .inl rfl, .inl ⟨rfl, rfl⟩⟩
      rw [hrun, hfail]
      rfl
    · obtain ⟨N', r, hserve, hserved, htop, hregions⟩ := inv'.mallocLoop_fit sbrk htotal' hn hfit 1
      refine ⟨nodes.length + 1 + (N + N'), r, fun more => ?_, .inr ?_, ?_⟩
      · have hpos := inv'.freep_pos
        rw [Nat.add_assoc, hrun, Nat.add_assoc, hmore, Nat.add_left_comm]
        exact (if_neg hpos.ne').trans (hserve _)
      · exact ⟨hserved.inv, hserved.base_eq.trans hbase, hserved.live_eq.trans hlive, hserved.total_le⟩
      · unfold Grown
        rw [htop, hregions]
        exact hgrown

end AnySbrk

end Heap

end Xv6.Umalloc
