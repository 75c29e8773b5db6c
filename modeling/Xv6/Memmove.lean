import Mathlib.Algebra.Ring.Nat
import Mathlib.Logic.Function.Basic

namespace Xv6

open Function (update update_of_ne update_self)

-- Memory as memmove sees it: bytes at 64-bit addresses.
abbrev Bytes64 := BitVec 64 → UInt8

namespace Bytes64

-- while(n-- > 0) *d++ = *s++;
def forward (mem : Bytes64) (d s : BitVec 64) : ℕ → Bytes64
  | 0 => mem
  | n + 1 => forward (update mem d (mem s)) (d + 1) (s + 1) n

-- while(n-- > 0) *--d = *--s;
def backward (mem : Bytes64) (d s : BitVec 64) : ℕ → Bytes64
  | 0 => mem
  | n + 1 => backward (update mem (d - 1) (mem (s - 1))) (d - 1) (s - 1) n

-- memmove of kernel/string.c
def memmove (dst src : BitVec 64) (n : BitVec 32) (mem : Bytes64) : BitVec 64 × Bytes64 :=
  if n = 0 then (dst, mem)
  else if src < dst ∧ dst < src + n.setWidth 64 then
    (dst, mem.backward (dst + n.setWidth 64) (src + n.setWidth 64) n.toNat)
  else (dst, mem.forward dst src n.toNat)

-- memmove of user/ulib.c, where n is an int
def ulibMemmove (dst src : BitVec 64) (n : BitVec 32) (mem : Bytes64) : BitVec 64 × Bytes64 :=
  if dst < src then (dst, mem.forward dst src n.toInt.toNat)
  else (dst, mem.backward (dst + n.signExtend 64) (src + n.signExtend 64) n.toInt.toNat)

def moved (mem : Bytes64) (dst src : BitVec 64) (n : ℕ) : Bytes64 :=
  fun a => if (a - dst).toNat < n then mem (src + (a - dst)) else mem a

variable {mem : Bytes64} {d s dst src : BitVec 64} {n : BitVec 32}

-- A byte is read before it is overwritten, unless dst comes after src in the range.
theorem forward_eq (count : ℕ) (hcount : count ≤ 2 ^ 64) (h : d = s ∨ count ≤ (d - s).toNat) :
    mem.forward d s count = mem.moved d s count := by
  induction count generalizing mem d s with
  | zero => rfl
  | succ count ih =>
      rw [forward, ih (by omega) (by bv_omega)]
      funext a
      unfold moved
      by_cases ha : a = d
      · subst ha
        rw [if_neg (by bv_omega), if_pos (by bv_omega), update_self]
        congr 1
        bv_omega
      · by_cases hin : (a - d).toNat < count + 1
        · rw [if_pos (by bv_omega), if_pos hin, update_of_ne (by bv_omega)]
          congr 1
          bv_omega
        · rw [if_neg (by bv_omega), if_neg hin, update_of_ne ha]

theorem backward_eq (count : ℕ) (hcount : count ≤ 2 ^ 64) (h : s = d ∨ count ≤ (s - d).toNat) :
    mem.backward (d + .ofNat 64 count) (s + .ofNat 64 count) count = mem.moved d s count := by
  have hpred : ∀ p : BitVec 64, ∀ k, p + .ofNat 64 (k + 1) - 1 = p + .ofNat 64 k := fun p k => by
    rw [BitVec.ofNat_add, ← BitVec.add_assoc]
    exact BitVec.add_sub_cancel ..
  induction count generalizing mem with
  | zero =>
      funext a
      exact (if_neg (Nat.not_lt_zero _)).symm
  | succ count ih =>
      have hlt : (BitVec.ofNat 64 count).toNat = count := by
        rw [BitVec.toNat_ofNat]
        omega
      rw [backward, hpred, hpred, ih (by omega) (h.imp_right Nat.le_of_succ_le)]
      funext a
      unfold moved
      by_cases ha : a = d + .ofNat 64 count
      · subst ha
        have hoff : d + .ofNat 64 count - d = .ofNat 64 count := by
          rw [BitVec.add_comm, BitVec.add_sub_cancel]
        rw [hoff, hlt, if_neg (Nat.lt_irrefl _), if_pos (Nat.lt_succ_self _), update_self]
      · have hne : (a - d).toNat ≠ count := by
          intro hoff
          refine ha ?_
          rw [← hoff, BitVec.ofNat_toNat, BitVec.setWidth_eq, BitVec.add_comm, BitVec.sub_add_cancel]
        by_cases hin : (a - d).toNat < count
        · have hread : s + (a - d) ≠ d + .ofNat 64 count := by
            intro heq
            have hoff : s - d = .ofNat 64 count - (a - d) := by bv_omega
            have hsub : (s - d).toNat = count - (a - d).toNat := by
              rw [hoff, BitVec.toNat_sub_of_le (BitVec.le_def.mpr (by omega)), hlt]
            rcases h with rfl | hfar
            · rw [BitVec.sub_self, BitVec.toNat_zero] at hsub
              omega
            · omega
          rw [if_pos hin, if_pos (Nat.lt_succ_of_lt hin), update_of_ne hread]
        · rw [if_neg hin, if_neg (by omega), update_of_ne ha]

-- In the address space a range does not come round to an address before it.
theorem far_of_le {count : ℕ} (hrange : s.toNat + count ≤ 2 ^ 64) (h : d ≤ s) : d = s ∨ count ≤ (d - s).toNat := by
  by_cases heq : d = s
  · exact .inl heq
  · have hne : d.toNat ≠ s.toNat := fun hnat => heq (BitVec.eq_of_toNat_eq hnat)
    right
    rw [BitVec.toNat_sub]
    rw [BitVec.le_def] at h
    omega

theorem memmove_eq (hdst : dst.toNat + n.toNat ≤ 2 ^ 64) (hsrc : src.toNat + n.toNat ≤ 2 ^ 64) :
    memmove dst src n mem = (dst, mem.moved dst src n.toNat) := by
  have hn := n.isLt
  have hwidth : n.setWidth 64 = .ofNat 64 n.toNat := (BitVec.ofNat_toNat 64 n).symm
  unfold memmove
  rw [hwidth]
  split
  · rename_i hzero
    rw [hzero]
    rfl
  · split
    · rename_i htest
      rw [backward_eq _ (by omega) (far_of_le hdst (BitVec.le_of_lt htest.1))]
    · rename_i htest
      refine congrArg _ (forward_eq _ (by omega) ?_)
      by_cases hlt : src < dst
      · right
        have hend : ¬dst < src + .ofNat 64 n.toNat := fun h => htest ⟨hlt, h⟩
        rw [BitVec.toNat_sub]
        rw [BitVec.lt_def] at hlt hend
        rw [BitVec.toNat_add, BitVec.toNat_ofNat] at hend
        omega
      · exact far_of_le hsrc (BitVec.not_lt.mp hlt)

theorem ulibMemmove_eq (hdst : dst.toNat + n.toNat ≤ 2 ^ 64) (hsrc : src.toNat + n.toNat ≤ 2 ^ 64)
    (hn : 0 ≤ n.toInt) : ulibMemmove dst src n mem = (dst, mem.moved dst src n.toNat) := by
  have hlt := n.isLt
  have hint : n.toInt = n.toNat := by
    have hcond := BitVec.toInt_eq_toNat_cond n
    split at hcond <;> omega
  have hext : n.signExtend 64 = .ofNat 64 n.toNat := by
    rw [BitVec.signExtend, hint]
    exact BitVec.ofInt_natCast ..
  unfold ulibMemmove
  rw [hext, hint, Int.toNat_natCast]
  split
  · rename_i htest
    rw [forward_eq _ (by omega) (far_of_le hsrc (BitVec.le_of_lt htest))]
  · rename_i htest
    rw [backward_eq _ (by omega) (far_of_le hdst (BitVec.not_lt.mp htest))]

-- For all ranges, however they overlap, and the same for both functions.
theorem memmove_overlap_safe (mem : Bytes64) (dst src : BitVec 64) (n : BitVec 32)
    (hdst : dst.toNat + n.toNat ≤ 2 ^ 64) (hsrc : src.toNat + n.toNat ≤ 2 ^ 64) :
    (memmove dst src n mem).1 = dst ∧
    (∀ k < n.toNat, (memmove dst src n mem).2 (dst + .ofNat 64 k) = mem (src + .ofNat 64 k)) ∧
    (∀ a, a.toNat < dst.toNat ∨ dst.toNat + n.toNat ≤ a.toNat → (memmove dst src n mem).2 a = mem a) ∧
    (0 ≤ n.toInt → ulibMemmove dst src n mem = memmove dst src n mem) := by
  rw [memmove_eq hdst hsrc]
  refine ⟨rfl, fun k hk => ?_, fun a ha => if_neg (by bv_omega), fun hn => ulibMemmove_eq hdst hsrc hn⟩
  have hoff : dst + .ofNat 64 k - dst = .ofNat 64 k := by bv_omega
  change (if _ then _ else _) = _
  rw [hoff, if_pos (by bv_omega)]

theorem memmove_overlap_safe_shift : ∃ mem : Bytes64, (memmove 1 0 2 mem).2 1 = mem 0 ∧
    (memmove 1 0 2 mem).2 2 = mem 1 ∧ mem 0 ≠ mem 1 ∧ ulibMemmove 1 0 2 mem = memmove 1 0 2 mem := by
  obtain ⟨-, hmoved, -, hsame⟩ := memmove_overlap_safe (fun a => UInt8.ofNat a.toNat) 1 0 2 (by decide) (by decide)
  exact ⟨_, hmoved 0 (by decide), hmoved 1 (by decide), by decide, hsame (by decide)⟩

end Bytes64

end Xv6
