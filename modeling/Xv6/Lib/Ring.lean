import Mathlib.Data.List.Basic
import Mathlib.Data.Nat.ModEq
import Mathlib.Logic.Function.Basic

namespace Ring

variable {α : Type*} {k : ℕ}

variable {r w e : BitVec k}

-- The elements between two free-running counters, in a buffer of n places.
def contents (n : ℕ) (data : ℕ → α) (r w : BitVec k) : List α :=
  (List.range (w - r).toNat).map fun i => data ((r.toNat + i) % n)

theorem contents_self (n : ℕ) (data : ℕ → α) (r : BitVec k) : contents n data r r = [] := by
  simp [contents]

theorem toNat_sub_eq_zero : (w - r).toNat = 0 ↔ r = w := by
  constructor
  · intro h
    have hr := r.isLt
    have hw := w.isLt
    apply BitVec.eq_of_toNat_eq
    rw [BitVec.toNat_sub] at h
    by_cases hle : r.toNat ≤ w.toNat
    · rw [show 2 ^ k - r.toNat + w.toNat = w.toNat - r.toNat + 2 ^ k by omega, Nat.add_mod_right,
        Nat.mod_eq_of_lt (by omega)] at h
      omega
    · rw [Nat.mod_eq_of_lt (by omega)] at h
      omega
  · rintro rfl
    simp

theorem toNat_mod {n : ℕ} (hn : n ∣ 2 ^ k) (r w : BitVec k) : w.toNat % n = (r.toNat + (w - r).toNat) % n := by
  have h : w = r + (w - r) := by
    rw [BitVec.add_comm, BitVec.sub_add_cancel]
  calc w.toNat % n = (r + (w - r)).toNat % n := by rw [← h]
    _ = (r.toNat + (w - r).toNat) % 2 ^ k % n := by rw [BitVec.toNat_add]
    _ = (r.toNat + (w - r).toNat) % n := Nat.mod_mod_of_dvd _ hn

theorem toNat_one (h : 1 < 2 ^ k) : (1 : BitVec k).toNat = 1 := by
  rw [BitVec.ofNat_eq_ofNat, BitVec.toNat_ofNat, Nat.mod_eq_of_lt h]

theorem toNat_push (h : (w - r).toNat + 1 < 2 ^ k) : (w + 1 - r).toNat = (w - r).toNat + 1 := by
  have he : w + 1 - r = (w - r) + 1 := by
    rw [BitVec.sub_eq_add_neg, BitVec.sub_eq_add_neg, BitVec.add_assoc, BitVec.add_assoc, BitVec.add_comm 1]
  rw [he, BitVec.toNat_add, toNat_one (by omega), Nat.mod_eq_of_lt h]

theorem toNat_pop (hne : r ≠ w) (hk : 1 < 2 ^ k) : (w - r).toNat = (w - (r + 1)).toNat + 1 := by
  have hpos : (w - r).toNat ≠ 0 := fun h => hne (toNat_sub_eq_zero.mp h)
  have he : w - (r + 1) = (w - r) - 1 := by
    rw [BitVec.sub_eq_add_neg, BitVec.sub_eq_add_neg, BitVec.sub_eq_add_neg, BitVec.neg_add,
      BitVec.sub_eq_add_neg, BitVec.add_assoc]
  have hlt := (w - r).isLt
  rw [he, BitVec.toNat_sub (w - r) 1, toNat_one hk, show 2 ^ k - 1 + (w - r).toNat = (w - r).toNat - 1 + 2 ^ k by omega,
    Nat.add_mod_right, Nat.mod_eq_of_lt (by omega)]
  omega

variable {n : ℕ}

-- Storing at the write counter appends, as long as there is room.
theorem contents_push (hn : n ∣ 2 ^ k) (hroom : (w - r).toNat < n) (hk : n < 2 ^ k) (data : ℕ → α) (c : α) :
    contents n (Function.update data (w.toNat % n) c) r (w + 1) = contents n data r w ++ [c] := by
  unfold contents
  rw [toNat_push (by omega), List.range_succ, List.map_append, List.map_singleton, ← toNat_mod hn,
    Function.update_self]
  congr 1
  refine List.map_congr_left fun i hi => Function.update_of_ne ?_ ..
  rw [List.mem_range] at hi
  rw [toNat_mod hn r w]
  intro heq
  have hmod : i ≡ (w - r).toNat [MOD n] := Nat.ModEq.add_left_cancel' _ heq
  rw [Nat.ModEq, Nat.mod_eq_of_lt (by omega), Nat.mod_eq_of_lt hroom] at hmod
  omega

-- Reading at the read counter takes the first element.
theorem contents_pop (hn : n ∣ 2 ^ k) (hne : r ≠ w) (hk : 1 < 2 ^ k) (data : ℕ → α) :
    contents n data r w = data (r.toNat % n) :: contents n data (r + 1) w := by
  unfold contents
  rw [toNat_pop hne hk, List.range_succ_eq_map, List.map_cons, List.map_map, Nat.add_zero]
  congr 1
  refine List.map_congr_left fun i _ => ?_
  simp only [Function.comp_apply]
  congr 1
  calc (r.toNat + (i + 1)) % n = (r.toNat + 1 + i) % n := by rw [Nat.add_right_comm, Nat.add_assoc]
    _ = ((r.toNat + 1) % n + i) % n := (Nat.mod_add_mod ..).symm
    _ = ((r + 1).toNat % n + i) % n := by
        rw [BitVec.toNat_add, toNat_one hk, Nat.mod_mod_of_dvd _ hn]
    _ = ((r + 1).toNat + i) % n := Nat.mod_add_mod ..

-- A store ahead of the elements does not change them.
theorem contents_update (hn : n ∣ 2 ^ k) (hle : (w - r).toNat ≤ (e - r).toNat)
    (hroom : (e - r).toNat < n) (data : ℕ → α) (c : α) :
    contents n (Function.update data (e.toNat % n) c) r w = contents n data r w := by
  unfold contents
  refine List.map_congr_left fun i hi => Function.update_of_ne ?_ ..
  rw [List.mem_range] at hi
  rw [toNat_mod hn r e]
  intro heq
  have hmod : i ≡ (e - r).toNat [MOD n] := Nat.ModEq.add_left_cancel' _ heq
  rw [Nat.ModEq, Nat.mod_eq_of_lt (by omega), Nat.mod_eq_of_lt hroom] at hmod
  omega

theorem toNat_split (h : (w - r).toNat + (e - w).toNat < 2 ^ k) :
    (e - r).toNat = (w - r).toNat + (e - w).toNat := by
  have hsum : e - r = (w - r) + (e - w) := by
    rw [BitVec.add_comm, BitVec.sub_eq_add_neg w, ← BitVec.add_assoc, BitVec.sub_add_cancel,
      BitVec.sub_eq_add_neg]
  rw [hsum, BitVec.toNat_add, Nat.mod_eq_of_lt h]

theorem contents_append (hn : n ∣ 2 ^ k) (h : (w - r).toNat + (e - w).toNat < 2 ^ k)
    (data : ℕ → α) : contents n data r e = contents n data r w ++ contents n data w e := by
  unfold contents
  rw [toNat_split h, List.range_add, List.map_append, List.map_map]
  congr 1
  refine List.map_congr_left fun i _ => ?_
  simp only [Function.comp_apply]
  rw [← Nat.add_assoc, ← Nat.mod_add_mod, ← toNat_mod hn, Nat.mod_add_mod]

-- Moving the write counter back drops the last element.
theorem contents_drop (hn : n ∣ 2 ^ k) (hne : r ≠ w) (hk : 1 < 2 ^ k) (data : ℕ → α) :
    contents n data r w = contents n data r (w - 1) ++ [data ((w - 1).toNat % n)] := by
  have hone : w - 1 + 1 = w := BitVec.sub_add_cancel w 1
  have hlen : (w - (w - 1)).toNat = 1 := by
    rw [show w - (w - 1) = 1 by rw [BitVec.sub_eq_iff_eq_add, BitVec.add_comm, hone], toNat_one hk]
  have hlast : contents n data (w - 1) w = [data ((w - 1).toNat % n)] := by
    rw [contents, hlen]
    rfl
  have hpos : (w - r).toNat ≠ 0 := fun h => hne (toNat_sub_eq_zero.mp h)
  have hback : (w - 1 - r).toNat + 1 = (w - r).toNat := by
    have hlt := (w - r).isLt
    rw [show w - 1 - r = w - r - 1 by
        rw [BitVec.sub_eq_add_neg, BitVec.sub_eq_add_neg, BitVec.sub_eq_add_neg, BitVec.sub_eq_add_neg,
          BitVec.add_assoc, BitVec.add_assoc, BitVec.add_comm (-1)],
      BitVec.toNat_sub (w - r) 1, toNat_one hk,
      show 2 ^ k - 1 + (w - r).toNat = (w - r).toNat - 1 + 2 ^ k by omega, Nat.add_mod_right,
      Nat.mod_eq_of_lt (by omega)]
    omega
  have hlt := (w - r).isLt
  rw [← hlast, ← contents_append hn (by omega)]

end Ring
