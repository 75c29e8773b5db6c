import Xv6.Umalloc.Free
import Mathlib.Data.List.Pairwise
import Mathlib.Data.List.Perm.Lattice

namespace Xv6.Umalloc

open Chain

variable {a b : ℕ × ℕ}

def Apart (a b : ℕ × ℕ) : Prop := a.1 + HEADER * a.2 ≤ b.1 ∨ b.1 + HEADER * b.2 ≤ a.1

theorem Apart.symm (h : Apart a b) : Apart b a := Or.symm h

instance : Std.Symm Apart := ⟨fun _ _ => Apart.symm⟩

theorem Apart.not_holds (h : Apart a b) {x : ℕ} (ha : Holds a x) : ¬Holds b x := by
  unfold Apart at h
  unfold Holds at ha ⊢
  omega

theorem apart_of_holds (ha : 0 < a.2) (hb : 0 < b.2) (h : ∀ x, Holds a x → ¬Holds b x) : Apart a b := by
  by_contra hnot
  have hstart := h (max a.1 b.1)
  have hapos := Nat.mul_pos (by decide : 0 < HEADER) ha
  have hbpos := Nat.mul_pos (by decide : 0 < HEADER) hb
  unfold Apart at hnot
  unfold Holds at hstart
  omega

theorem Holds.header (hb : 0 < b.2) {x : ℕ} (hx : b.1 ≤ x) (hlt : x < b.1 + HEADER) : Holds b x :=
  ⟨hx, hlt.trans_le (Nat.add_le_add_left (Nat.le_mul_of_pos_right HEADER hb) b.1)⟩

theorem Apart.far (h : Apart a b) (ha : 0 < a.2) (hb : 0 < b.2) : Far a.1 b.1 := by
  have hapos := Nat.le_mul_of_pos_right HEADER ha
  have hbpos := Nat.le_mul_of_pos_right HEADER hb
  unfold Apart at h
  unfold Far
  omega

theorem covers_perm {l l' : List (ℕ × ℕ)} (h : l.Perm l') (x : ℕ) : Covers l x ↔ Covers l' x := by
  simp only [Covers, h.mem_iff]

theorem units_perm {l l' : List (ℕ × ℕ)} (h : l.Perm l') : units l = units l' := (h.map Prod.snd).sum_eq

theorem header_congr {mem mem' : ℕ → UInt8} {a : ℕ} (h : ∀ x, a ≤ x → x < a + HEADER → mem' x = mem x) :
    ptr mem' a = ptr mem a ∧ size mem' a = size mem a := by
  unfold HEADER at h
  constructor
  · exact Bytes.load_congr _ _ _ _ fun x hx hlt => h x hx (by omega)
  · exact Bytes.load_congr _ _ _ _ fun x hx hlt => h x (by omega) (by omega)

namespace Heap

variable {b : ℕ × ℕ} {mem : ℕ → UInt8}

def Given (h : Heap) (x : ℕ) : Prop := ∃ r ∈ h.regions, r.1 ≤ x ∧ x < r.1 + r.2

-- The free list l and the live blocks share out the memory.
structure Inv (h : Heap) (l live : List (ℕ × ℕ)) : Prop where
  list : FreeList h.mem h.base l
  freep : h.freep ∈ h.base :: l.map Prod.fst
  sizes : ∀ b ∈ live, size h.mem b.1 = b.2 ∧ 0 < b.2
  live_apart : live.Pairwise Apart
  free_apart : ∀ a ∈ l, ∀ b ∈ live, Apart a b
  given : ∀ x, h.Given x ↔ Covers l x ∨ Covers live x
  room : ∀ x, h.Given x → h.base + HEADER ≤ x ∧ x < h.top
  base_pos : 0 < h.base
  below : h.base + HEADER ≤ h.top
  top_le : h.top ≤ 2 ^ 64
  total : HEADER * (units l + units live) = h.total

variable {h : Heap} {l live : List (ℕ × ℕ)}

theorem Inv.perm (inv : h.Inv l live) {live' : List (ℕ × ℕ)} (hperm : live.Perm live') : h.Inv l live' where
  list := inv.list
  freep := inv.freep
  sizes b hb := inv.sizes b (hperm.mem_iff.mpr hb)
  live_apart := hperm.pairwise inv.live_apart fun hab => hab.symm
  free_apart a ha b hb := inv.free_apart a ha b (hperm.mem_iff.mpr hb)
  given x := by rw [inv.given, covers_perm hperm]
  room := inv.room
  base_pos := inv.base_pos
  below := inv.below
  top_le := inv.top_le
  total := by rw [← units_perm hperm, inv.total]

theorem Inv.block_room (inv : h.Inv l live) (hb : b ∈ l ∨ b ∈ live) (hpos : 0 < b.2) :
    h.base + HEADER ≤ b.1 ∧ b.1 + HEADER * b.2 ≤ h.top := by
  have hgiven : ∀ x, Holds b x → h.Given x := fun x hx =>
    (inv.given x).mpr (hb.imp (fun hl => ⟨b, hl, hx⟩) fun hlive => ⟨b, hlive, hx⟩)
  have hbytes := Nat.mul_pos (by decide : 0 < HEADER) hpos
  have hfirst := inv.room b.1 (hgiven b.1 ⟨le_rfl, by omega⟩)
  have hlast := inv.room (b.1 + HEADER * b.2 - 1) (hgiven _ ⟨by omega, by omega⟩)
  omega

theorem Inv.far_live (inv : h.Inv l live) {a : ℕ} (ha : a ∈ h.base :: l.map Prod.fst) (hb : b ∈ live) :
    Far a b.1 := by
  have hpos := (inv.sizes b hb).2
  rcases List.mem_cons.mp ha with rfl | ha
  · exact .inl (inv.block_room (.inr hb) hpos).1
  · obtain ⟨c, hc, rfl⟩ := List.mem_map.mp ha
    exact (inv.free_apart c hc b hb).far (inv.list.room c hc).2 hpos

theorem Inv.congr (inv : h.Inv l live)
    (hfree : ∀ a ∈ h.base :: l.map Prod.fst, ptr mem a = ptr h.mem a ∧ size mem a = size h.mem a)
    (hlive : ∀ b ∈ live, size mem b.1 = size h.mem b.1) : ({ h with mem := mem } : Heap).Inv l live where
  list := {
    cycle := inv.list.cycle.congr fun x hx => (hfree x hx).1
    base_size := (hfree h.base List.mem_cons_self).2.trans inv.list.base_size
    sizes := fun b hb =>
      (hfree b.1 (List.mem_cons_of_mem _ (List.mem_map_of_mem hb))).2.trans (inv.list.sizes b hb)
    before := inv.list.before
    room := inv.list.room }
  freep := inv.freep
  sizes b hb := ⟨(hlive b hb).trans (inv.sizes b hb).1, (inv.sizes b hb).2⟩
  live_apart := inv.live_apart
  free_apart := inv.free_apart
  given := inv.given
  room := inv.room
  base_pos := inv.base_pos
  below := inv.below
  top_le := inv.top_le
  total := inv.total

-- Stores into the live blocks leave all headers alone.
theorem Inv.store (inv : h.Inv l live)
    (hmem : ∀ x, (∀ b ∈ live, ¬(b.1 + HEADER ≤ x ∧ x < b.1 + HEADER * b.2)) → mem x = h.mem x) :
    ({ h with mem := mem } : Heap).Inv l live := by
  apply inv.congr
  · intro a ha
    refine header_congr fun x hx hlt => hmem _ fun b hb hpayload => ?_
    have hroom := inv.block_room (.inr hb) (inv.sizes b hb).2
    rcases List.mem_cons.mp ha with rfl | ha
    · omega
    · obtain ⟨c, hc, rfl⟩ := List.mem_map.mp ha
      refine (inv.free_apart c hc b hb).not_holds (Holds.header (inv.list.room c hc).2 hx hlt) ?_
      unfold Holds
      omega
  · intro c hc
    refine (header_congr fun x hx hlt => hmem _ fun b hb hpayload => ?_).2
    have hheader := Holds.header (inv.sizes c hc).2 hx hlt
    by_cases hcb : c = b
    · subst hcb
      omega
    · have hapart := inv.live_apart.forall hc hb hcb
      refine hapart.not_holds hheader ?_
      unfold Holds
      omega

theorem Inv.units_lt (inv : h.Inv l live) (hlimit : h.total < 2 ^ 36) : units l + units live < 2 ^ 32 := by
  have htotal := inv.total
  unfold HEADER at htotal
  omega

theorem Inv.freed (inv : h.Inv l (b :: live)) {l' : List (ℕ × ℕ)} {q : ℕ}
    (hfreed : Freed h.mem mem h.base b l l') (hq : q ∈ h.base :: l'.map Prod.fst) :
    ({ h with mem := mem, freep := q } : Heap).Inv l' live where
  list := hfreed.list
  freep := hq
  sizes c hc := by
    obtain ⟨hsize, hpos⟩ := inv.sizes c (List.mem_cons_of_mem b hc)
    have hapart := (List.pairwise_cons.mp inv.live_apart).1 c hc
    have hfar := hapart.far (inv.sizes b List.mem_cons_self).2 hpos
    exact ⟨(hfreed.frame c.1 hfar fun a ha => inv.far_live ha (List.mem_cons_of_mem b hc)).trans hsize, hpos⟩
  live_apart := (List.pairwise_cons.mp inv.live_apart).2
  free_apart a ha c hc := by
    refine apart_of_holds (hfreed.list.room a ha).2 (inv.sizes c (List.mem_cons_of_mem b hc)).2 fun x hx hcx => ?_
    rcases (hfreed.covers x).mp ⟨a, ha, hx⟩ with hbx | ⟨d, hd, hdx⟩
    · exact ((List.pairwise_cons.mp inv.live_apart).1 c hc).not_holds hbx hcx
    · exact (inv.free_apart d hd c (List.mem_cons_of_mem b hc)).not_holds hdx hcx
  given x := by
    rw [hfreed.covers, or_assoc, or_left_comm, ← covers_cons]
    exact inv.given x
  room := inv.room
  base_pos := inv.base_pos
  below := inv.below
  top_le := inv.top_le
  total := by
    rw [hfreed.total, Nat.add_comm b.2, Nat.add_assoc, ← units_cons]
    exact inv.total

-- free terminates, and gives the first of the live blocks to the free list.
theorem Inv.free (inv : h.Inv l (b :: live)) (hlimit : h.total < 2 ^ 36) :
    ∃ fuel mem q l', (∀ more, h.free (fuel + more) (b.1 + HEADER) = some { h with mem := mem, freep := q }) ∧
      ({ h with mem := mem, freep := q } : Heap).Inv l' live ∧ ∃ c ∈ l', b.2 ≤ c.2 := by
  obtain ⟨hsize, hpos⟩ := inv.sizes b List.mem_cons_self
  have hroom := inv.block_room (.inr List.mem_cons_self) hpos
  have hlt : b.1 < 2 ^ 64 := by
    have htop := inv.top_le
    have hbytes := Nat.mul_pos (by decide : 0 < HEADER) hpos
    omega
  have hsum := inv.units_lt hlimit
  rw [units_cons] at hsum
  obtain ⟨fuel, q, l', hfind, hq, hfreed⟩ := free_spec inv.list inv.freep hsize hpos hroom.1 hlt
    (fun c hc => inv.free_apart c hc b List.mem_cons_self) (by omega)
  refine ⟨fuel, _, q, l', fun more => ?_, inv.freed hfreed hq, hfreed.fits⟩
  unfold Heap.free
  dsimp only
  rw [Nat.add_sub_cancel, hfind more]

end Heap

end Xv6.Umalloc
