import Mathlib.Tactic

namespace Bytes

-- The little-endian number stored in the count bytes from base on.
def load (f : ℕ → UInt8) (base : ℕ) : ℕ → ℕ
  | 0 => 0
  | count + 1 => (f base).toNat + 256 * load f (base + 1) count

-- Overwrite the count bytes from base on with the little-endian digits of value.
def store (f : ℕ → UInt8) (base count value : ℕ) : ℕ → UInt8 :=
  fun i => if base ≤ i ∧ i < base + count then UInt8.ofNat (value / 256 ^ (i - base)) else f i

theorem load_congr (f g : ℕ → UInt8) (base count : ℕ) (h : ∀ i, base ≤ i → i < base + count → f i = g i) :
    load f base count = load g base count := by
  induction count generalizing base with
  | zero => rfl
  | succ count ih =>
      rw [load, load, h base (by omega) (by omega),
        ih (base + 1) (fun i hl hu => h i (by omega) (by omega))]

theorem load_lt (f : ℕ → UInt8) (base count : ℕ) : load f base count < 256 ^ count := by
  induction count generalizing base with
  | zero => simp [load]
  | succ count ih =>
      have hb := (f base).toNat_lt
      have hr := ih (base + 1)
      rw [load, pow_succ]
      omega

theorem load_store_disjoint (f : ℕ → UInt8) (base count at' size value : ℕ)
    (h : base + count ≤ at' ∨ at' + size ≤ base) :
    load (store f base count value) at' size = load f at' size := by
  apply load_congr
  intro i hl hu
  have hout : ¬(base ≤ i ∧ i < base + count) := by omega
  simp only [store, hout, ite_false]

-- The stored digits from the shift-th byte on spell the value shifted right.
private theorem load_store_shift (f : ℕ → UInt8) (base count value shift : ℕ) (rest : ℕ) (h : shift + rest = count) :
    load (store f base count value) (base + shift) rest = value / 256 ^ shift % 256 ^ rest := by
  induction rest generalizing shift with
  | zero => simp [load, Nat.mod_one]
  | succ rest ih =>
      have hi := ih (shift + 1) (by omega)
      have hin : base ≤ base + shift ∧ base + shift < base + count := by omega
      rw [load, show base + shift + 1 = base + (shift + 1) by omega, hi]
      simp only [store, hin, and_self, ite_true, Nat.add_sub_cancel_left]
      have hdiv : value / 256 ^ (shift + 1) = value / 256 ^ shift / 256 := by
        rw [pow_succ, Nat.div_div_eq_div_mul]
      have hpow : 256 ^ (rest + 1) = 256 * 256 ^ rest := by rw [pow_succ, Nat.mul_comm]
      rw [hdiv, UInt8.toNat_ofNat', hpow, Nat.mod_mul]

theorem load_store (f : ℕ → UInt8) (base count value : ℕ) :
    load (store f base count value) base count = value % 256 ^ count := by
  simpa using load_store_shift f base count value 0 count (by omega)

end Bytes
