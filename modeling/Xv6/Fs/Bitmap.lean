import Xv6.Lib.Transition
import Xv6.Log.Header

namespace Xv6

open Transition
open Function (update update_of_ne update_self)

namespace Block

-- (data[bi/8] & m) != 0, where m = 1 << (bi % 8)
def bit (b : Block) (bi : ℕ) : Bool := b.bytes (bi / 8) &&& UInt8.ofNat (1 <<< (bi % 8)) ≠ 0

-- data[bi/8] |= m
def setBit (b : Block) (bi : ℕ) : Block :=
  ofBytes (update b.bytes (bi / 8) (b.bytes (bi / 8) ||| UInt8.ofNat (1 <<< (bi % 8))))

-- data[bi/8] &= ~m
def clearBit (b : Block) (bi : ℕ) : Block :=
  ofBytes (update b.bytes (bi / 8) (b.bytes (bi / 8) &&& ~~~UInt8.ofNat (1 <<< (bi % 8))))

variable {bi k : ℕ}

theorem mask_eq (bi : ℕ) : (UInt8.ofNat (1 <<< (bi % 8))).toBitVec = BitVec.twoPow 8 (bi % 8) :=
  (by decide : ∀ j < 8, (UInt8.ofNat (1 <<< j)).toBitVec = BitVec.twoPow 8 j) _ (Nat.mod_lt _ (by decide))

theorem bit_eq (b : Block) (bi : ℕ) : b.bit bi = (b.bytes (bi / 8)).toBitVec.getLsbD (bi % 8) := by
  have hpow : BitVec.twoPow 8 (bi % 8) ≠ 0 :=
    (by decide : ∀ j < 8, BitVec.twoPow 8 j ≠ 0) _ (Nat.mod_lt _ (by decide))
  rw [Bool.eq_iff_iff, bit, decide_eq_true_iff, ne_eq, ← UInt8.toBitVec_inj, UInt8.toBitVec_and, mask_eq,
    BitVec.and_twoPow]
  split
  · rename_i hset
    exact iff_of_true hpow hset
  · rename_i hclear
    exact iff_of_false (not_not_intro rfl) hclear

-- Writing one bit.
theorem bit_update (b : Block) {c : UInt8} {v : Bool} (hk : k < BPB)
    (hc : ∀ j < 8, c.toBitVec.getLsbD j = if j = bi % 8 then v else (b.bytes (bi / 8)).toBitVec.getLsbD j) :
    (ofBytes (update b.bytes (bi / 8) c)).bit k = if k = bi then v else b.bit k := by
  have hbyte : k / 8 < BSIZE := by
    simp only [BPB] at hk
    omega
  rw [bit_eq, bit_eq, bytes_ofBytes _ _ hbyte, Function.update_apply]
  split
  · rename_i hsame
    rw [hc _ (Nat.mod_lt _ (by decide)), hsame]
    exact if_congr (by omega) rfl rfl
  · rename_i hne
    rw [if_neg fun h : k = bi => hne (h ▸ rfl)]

theorem bit_setBit (b : Block) (hk : k < BPB) : (b.setBit bi).bit k = if k = bi then true else b.bit k :=
  bit_update b hk fun j hj => by simp [mask_eq, hj, Bool.or_comm]

theorem bit_clearBit (b : Block) (hk : k < BPB) : (b.clearBit bi).bit k = if k = bi then false else b.bit k :=
  bit_update b hk fun j hj => by simp [mask_eq, hj, Bool.and_comm]

end Block

-- The fields of the superblock that balloc and bfree use; they and block numbers are uints.
structure Bmap where
  size : BitVec 32
  bmapstart : BitVec 32

-- Where a call of balloc is, between its critical sections under the lock of a buffer.
inductive Bmap.Loc
  | scan (b : BitVec 32)
  | zero (b : BitVec 32)
  | done (b : BitVec 32)
  deriving DecidableEq

namespace Bmap

variable (sb : Bmap)

-- BBLOCK(b, sb) for the uint b of bfree, and for the int b of balloc
def bblock (b : BitVec 32) : ℕ := (b / BitVec.ofNat 32 BPB + sb.bmapstart).toNat

def bblockInt (b : BitVec 32) : ℕ := (b.sdiv (BitVec.ofNat 32 BPB) + sb.bmapstart).toNat

-- The inner loop, with so many passes left. b + bi < sb.size compares uints.
def freeBit (b : BitVec 32) (data : Block) : (count bi : ℕ) → Option ℕ
  | 0, _ => none
  | count + 1, bi =>
      if b + BitVec.ofNat 32 bi < sb.size then
        if data.bit bi then freeBit b data count (bi + 1) else some bi
      else none

-- One critical section of balloc: a pass of the outer loop, which ends with brelse, or bzero.
def step (disk : Disk) : Loc → Disk × Loc
  | .scan b =>
      if b < sb.size then
        match sb.freeBit b (disk (sb.bblockInt b)) BPB 0 with
        | some bi =>
            (update disk (sb.bblockInt b) ((disk (sb.bblockInt b)).setBit bi), .zero (b + BitVec.ofNat 32 bi))
        | none => (disk, .scan (b + BitVec.ofNat 32 BPB))
      else (disk, .done 0)
  | .zero b => (update disk b.toNat fun _ => 0, .done b)
  | .done b => (disk, .done b)

-- balloc without others: it returns b.
def Balloc (disk : Disk) (b : BitVec 32) (disk' : Disk) : Prop :=
  ∃ n, (fun s : Disk × Loc => sb.step s.1 s.2)^[n] (disk, .scan 0) = (disk', .done b)

-- none is panic("freeing free block").
def bfree (disk : Disk) (b : BitVec 32) : Option Disk :=
  if (disk (sb.bblock b)).bit (b.toNat % BPB) then
    some (update disk (sb.bblock b) ((disk (sb.bblock b)).clearBit (b.toNat % BPB)))
  else none

-- Calls of balloc by any number of processes.
structure Calls where
  disk : Disk
  loc : ℕ → Loc

inductive Calls.Step (s : Calls) : Calls → Prop
  | step (p : ℕ) : Step s ⟨(sb.step s.disk (s.loc p)).1, update s.loc p (sb.step s.disk (s.loc p)).2⟩

-- The bit of block b.
def used (disk : Disk) (b : BitVec 32) : Bool := (disk (sb.bblock b)).bit (b.toNat % BPB)

-- The blocks of the bitmap are not free.
def Kept (disk : Disk) : Prop := ∀ b < sb.size, sb.used disk b = false → ∀ c < sb.size, sb.bblock c ≠ b.toNat

structure Lowest (disk : Disk) (r : BitVec 32) : Prop where
  lt : r < sb.size
  free : sb.used disk r = false
  below : ∀ b < r, sb.used disk b = true

variable {sb} {disk : Disk} {b c r : BitVec 32}

theorem bblock_inj (h : sb.bblock b = sb.bblock c) : b.toNat / BPB = c.toNat / BPB := by
  have h := congrArg BitVec.toNat ((BitVec.add_left_inj _).mp (BitVec.eq_of_toNat_eq h))
  rwa [BitVec.toNat_udiv, BitVec.toNat_udiv] at h

theorem bblock_congr (h : b.toNat / BPB = c.toNat / BPB) : sb.bblock b = sb.bblock c := by
  have hdiv : b / BitVec.ofNat 32 BPB = c / BitVec.ofNat 32 BPB := by
    apply BitVec.eq_of_toNat_eq
    rw [BitVec.toNat_udiv, BitVec.toNat_udiv]
    exact h
  rw [bblock, bblock, hdiv]

-- As long as the int is not negative.
theorem bblockInt_eq (h : b.toNat < 2 ^ 31) : sb.bblockInt b = sb.bblock b := by
  have hmsb : b.msb = false := by
    rw [BitVec.msb_eq_false_iff_two_mul_lt]
    omega
  rw [bblockInt, BitVec.sdiv_eq, hmsb]
  rfl

theorem eq_iff_block (sb : Bmap) (b c : BitVec 32) :
    c = b ↔ sb.bblock c = sb.bblock b ∧ c.toNat % BPB = b.toNat % BPB := by
  refine ⟨fun h => h ▸ ⟨rfl, rfl⟩, fun ⟨hblock, hmod⟩ => BitVec.eq_of_toNat_eq ?_⟩
  rw [← Nat.div_add_mod c.toNat BPB, bblock_inj hblock, hmod, Nat.div_add_mod]

theorem used_update (disk : Disk) (b c : BitVec 32) {data : Block} {v : Bool}
    (hdata : ∀ k < BPB, data.bit k = if k = b.toNat % BPB then v else (disk (sb.bblock b)).bit k) :
    sb.used (update disk (sb.bblock b) data) c = if c = b then v else sb.used disk c := by
  have heq := eq_iff_block sb b c
  rw [used, used, Function.update_apply]
  split
  · rename_i hsame
    rw [hdata _ (Nat.mod_lt _ (by decide)), hsame]
    simp [heq, hsame]
  · rename_i hne
    rw [if_neg fun h => hne (heq.mp h).1]

theorem used_mark (disk : Disk) (b c : BitVec 32) :
    sb.used (update disk (sb.bblock b) ((disk (sb.bblock b)).setBit (b.toNat % BPB))) c =
      (sb.used disk c || decide (c = b)) := by
  rw [used_update disk b c fun k hk => Block.bit_setBit _ hk]
  split <;> simp [*]

theorem used_clear (disk : Disk) (b c : BitVec 32) :
    sb.used (update disk (sb.bblock b) ((disk (sb.bblock b)).clearBit (b.toNat % BPB))) c =
      (sb.used disk c && decide (c ≠ b)) := by
  rw [used_update disk b c fun k hk => Block.bit_clearBit _ hk]
  split <;> simp [*]

-- bzero does not touch the bitmap.
theorem used_zero (h : sb.bblock c ≠ b.toNat) (data : Block) :
    sb.used (update disk b.toNat data) c = sb.used disk c := by
  rw [used, update_of_ne h]
  rfl

theorem toNat_add (hb : b.toNat + BPB ≤ 2 ^ 31) {k : ℕ} (hk : k ≤ BPB) : (b + .ofNat 32 k).toNat = b.toNat + k := by
  rw [BitVec.toNat_add, BitVec.toNat_ofNat]
  simp only [BPB, BSIZE] at hb hk
  omega

-- The inner loop stops at the first clear bit.
theorem freeBit_spec (data : Block) (hb : b.toNat + BPB ≤ 2 ^ 31) (count bi : ℕ) (hcount : bi + count ≤ BPB) :
    (∀ k, sb.freeBit b data count bi = some k → k < BPB ∧ b.toNat + k < sb.size.toNat ∧ data.bit k = false ∧
      ∀ m, bi ≤ m → m < k → data.bit m = true) ∧
    (sb.freeBit b data count bi = none → ∀ m, bi ≤ m → m < bi + count → b.toNat + m < sb.size.toNat →
      data.bit m = true) := by
  induction count generalizing bi with
  | zero => exact ⟨fun k hk => (by cases hk), fun _ m hle hlt => by omega⟩
  | succ count ih =>
      have hadd := toNat_add hb (show bi ≤ BPB by omega)
      have hnext := ih (bi + 1) (by omega)
      unfold freeBit
      by_cases hin : b + .ofNat 32 bi < sb.size
      · rw [if_pos hin]
        rw [BitVec.lt_def, hadd] at hin
        cases hbit : data.bit bi with
        | false =>
            refine ⟨fun k hk => ?_, fun hnone => by cases hnone⟩
            cases hk
            exact ⟨by omega, hin, hbit, fun m hle hlt => by omega⟩
        | true =>
            have hfrom : ∀ {m}, bi ≤ m → (bi + 1 ≤ m → data.bit m = true) → data.bit m = true := by
              intro m hm hrest
              rcases Nat.eq_or_lt_of_le hm with rfl | hm
              · exact hbit
              · exact hrest hm
            refine ⟨fun k hk => ?_, fun hnone m hm hlt hsize => ?_⟩
            · obtain ⟨hlt, hsize, hfree, hbelow⟩ := hnext.1 k hk
              exact ⟨hlt, hsize, hfree, fun m hm hmk => hfrom hm fun hm => hbelow m hm hmk⟩
            · exact hfrom hm fun hm => hnext.2 hnone m hm (by omega) hsize
      · rw [if_neg hin]
        rw [BitVec.lt_def, hadd] at hin
        exact ⟨fun k hk => (by cases hk), fun _ m hm hlt hsize => by omega⟩

-- The blocks of one bitmap block.
theorem used_of_block (sb : Bmap) (disk : Disk) (hb : b.toNat % BPB = 0) (hle : b ≤ c) (hlt : c.toNat < b.toNat + BPB) :
    sb.bblock c = sb.bblock b ∧ c.toNat % BPB = c.toNat - b.toNat ∧
      sb.used disk c = (disk (sb.bblock b)).bit (c.toNat - b.toNat) := by
  have hpos : 0 < BPB := by decide
  rw [BitVec.le_def] at hle
  obtain ⟨j, hj⟩ := Nat.dvd_of_mod_eq_zero hb
  obtain ⟨k, hk⟩ := Nat.exists_eq_add_of_le hle
  have hk' : k < BPB := by omega
  have hmod : c.toNat % BPB = c.toNat - b.toNat := by
    rw [hk, hj, Nat.mul_add_mod, Nat.mod_eq_of_lt hk', Nat.add_sub_cancel_left]
  have hblock : sb.bblock c = sb.bblock b := by
    apply bblock_congr
    rw [hk, hj, Nat.mul_add_div hpos, Nat.div_eq_of_lt hk', Nat.mul_div_cancel_left _ hpos]
    rfl
  exact ⟨hblock, hmod, by rw [used, hblock, hmod]⟩

-- A pass of the outer loop.
theorem scan_some (hb : b.toNat % BPB = 0) (hsize : b.toNat + BPB ≤ 2 ^ 31) {bi : ℕ}
    (h : sb.freeBit b (disk (sb.bblockInt b)) BPB 0 = some bi) :
    b + .ofNat 32 bi < sb.size ∧ sb.used disk (b + .ofNat 32 bi) = false ∧
      (∀ c, b ≤ c → c < b + .ofNat 32 bi → sb.used disk c = true) ∧
      sb.bblockInt b = sb.bblock (b + .ofNat 32 bi) ∧ bi = (b + .ofNat 32 bi).toNat % BPB := by
  have hpos : 0 < BPB := by decide
  rw [bblockInt_eq (by omega)] at h
  obtain ⟨hlt, hin, hfree, hbelow⟩ := (freeBit_spec _ hsize BPB 0 (by omega)).1 bi h
  have hadd := toNat_add hsize hlt.le
  have hle : b ≤ b + .ofNat 32 bi := by
    rw [BitVec.le_def]
    omega
  obtain ⟨hblock, hmod, hused⟩ := used_of_block sb disk hb hle (by omega)
  refine ⟨?_, ?_, fun c hc hcr => ?_, ?_, ?_⟩
  · rw [BitVec.lt_def]
    omega
  · rw [hused, hadd, Nat.add_sub_cancel_left, hfree]
  · have hc' := BitVec.le_def.mp hc
    rw [BitVec.lt_def, hadd] at hcr
    rw [(used_of_block sb disk hb hc (by omega)).2.2]
    exact hbelow _ (Nat.zero_le _) (by omega)
  · rw [bblockInt_eq (by omega), hblock]
  · rw [hmod, hadd, Nat.add_sub_cancel_left]

theorem scan_none (hb : b.toNat % BPB = 0) (hsize : b.toNat + BPB ≤ 2 ^ 31)
    (h : sb.freeBit b (disk (sb.bblockInt b)) BPB 0 = none) (hle : b ≤ c) (hlt : c.toNat < b.toNat + BPB)
    (hc : c < sb.size) : sb.used disk c = true := by
  have hpos : 0 < BPB := by decide
  rw [bblockInt_eq (by omega)] at h
  rw [(used_of_block sb disk hb hle hlt).2.2]
  rw [BitVec.le_def] at hle
  rw [BitVec.lt_def] at hc
  exact (freeBit_spec _ hsize BPB 0 (by omega)).2 h _ (Nat.zero_le _) (by omega) (by omega)

def alloc (sb : Bmap) (disk : Disk) (r : BitVec 32) : Disk :=
  update (update disk (sb.bblock r) ((disk (sb.bblock r)).setBit (r.toNat % BPB))) r.toNat fun _ => 0

theorem step_some (hb : b.toNat % BPB = 0) (hsize : b.toNat + BPB ≤ 2 ^ 31) (hlt : b < sb.size) {bi : ℕ}
    (h : sb.freeBit b (disk (sb.bblockInt b)) BPB 0 = some bi) (hr : r = b + .ofNat 32 bi) :
    sb.step disk (.scan b) =
      (update disk (sb.bblock r) ((disk (sb.bblock r)).setBit (r.toNat % BPB)), .zero r) := by
  subst hr
  obtain ⟨-, -, -, hblock, hbi⟩ := scan_some hb hsize h
  rw [step, if_pos hlt, h, ← hblock, ← hbi]

theorem step_none (hlt : b < sb.size) (h : sb.freeBit b (disk (sb.bblockInt b)) BPB 0 = none) :
    sb.step disk (.scan b) = (disk, .scan (b + .ofNat 32 BPB)) := by
  rw [step, if_pos hlt, h]

theorem Lowest.eq (h : sb.Lowest disk r) (hfree : sb.used disk c = false)
    (hbelow : ∀ d < c, d < sb.size → sb.used disk d = true) : r = c := by
  rcases Nat.lt_trichotomy r.toNat c.toNat with hlt | heq | hlt
  · exact absurd (hbelow r (BitVec.lt_def.mpr hlt) h.lt) (by simp [h.free])
  · exact BitVec.eq_of_toNat_eq heq
  · exact absurd (h.below c (BitVec.lt_def.mpr hlt)) (by simp [hfree])

-- After n critical sections from b on, with every block before b in use.
def Ends (sb : Bmap) (disk : Disk) (b : BitVec 32) (n : ℕ) : Prop :=
  (∀ r, sb.Lowest disk r →
    (fun s : Disk × Loc => sb.step s.1 s.2)^[n] (disk, .scan b) = (sb.alloc disk r, .done r)) ∧
  ((∀ c < sb.size, sb.used disk c = true) →
    (fun s : Disk × Loc => sb.step s.1 s.2)^[n] (disk, .scan b) = (disk, .done 0))

theorem ends_of_le (hlt : ¬b < sb.size) (hbelow : ∀ c < b, c < sb.size → sb.used disk c = true) :
    sb.Ends disk b 1 := by
  refine ⟨fun r hr => ?_, fun _ => ?_⟩
  · have hrb : r < b := by
      have hr := hr.lt
      rw [BitVec.lt_def] at hr hlt ⊢
      omega
    exact absurd (hbelow r hrb hr.lt) (by simp [hr.free])
  · change sb.step disk (.scan b) = _
    rw [step, if_neg hlt]

theorem ends_of_some (hb : b.toNat % BPB = 0) (hsize : b.toNat + BPB ≤ 2 ^ 31) (hlt : b < sb.size)
    (hbelow : ∀ c < b, c < sb.size → sb.used disk c = true) {bi : ℕ}
    (h : sb.freeBit b (disk (sb.bblockInt b)) BPB 0 = some bi) : sb.Ends disk b 2 := by
  obtain ⟨hin, hclear, hset, -, -⟩ := scan_some hb hsize h
  refine ⟨fun r hr => ?_, fun hall => absurd (hall _ hin) (by simp [hclear])⟩
  have hr' := hr.eq hclear fun d hd hdsize => by
    by_cases hdb : d < b
    · exact hbelow d hdb hdsize
    · exact hset d (BitVec.not_lt.mp hdb) hd
  change sb.step (sb.step disk (.scan b)).1 (sb.step disk (.scan b)).2 = _
  rw [step_some hb hsize hlt h hr']
  rfl

-- The outer loop.
theorem exists_ends (hint : sb.size.toNat + BPB ≤ 2 ^ 31) (passes : ℕ) (hb : b.toNat % BPB = 0)
    (hpasses : sb.size.toNat ≤ b.toNat + passes * BPB) (hbelow : ∀ c < b, c < sb.size → sb.used disk c = true) :
    ∃ n, sb.Ends disk b n := by
  induction passes generalizing b with
  | zero =>
      refine ⟨1, ends_of_le ?_ hbelow⟩
      rw [BitVec.lt_def]
      omega
  | succ passes ih =>
      by_cases hlt : b < sb.size
      · have hnat := BitVec.lt_def.mp hlt
        have hadd := toNat_add (b := b) (by omega) (le_refl BPB)
        cases hfree : sb.freeBit b (disk (sb.bblockInt b)) BPB 0 with
        | some bi => exact ⟨2, ends_of_some hb (by omega) hlt hbelow hfree⟩
        | none =>
            obtain ⟨n, hlowest, hall⟩ := ih (b := b + .ofNat 32 BPB) (by rw [hadd, Nat.add_mod_right, hb])
              (by rw [hadd, Nat.add_assoc, Nat.add_comm BPB, ← Nat.succ_mul]; exact hpasses) fun c hc hsize => by
                by_cases hcb : c < b
                · exact hbelow c hcb hsize
                · rw [BitVec.lt_def, hadd] at hc
                  exact scan_none hb (by omega) hfree (BitVec.not_lt.mp hcb) hc hsize
            have hstep := step_none hlt hfree
            refine ⟨n + 1, fun r hr => ?_, fun hused => ?_⟩
            · rw [Function.iterate_succ_apply, hstep, hlowest r hr]
            · rw [Function.iterate_succ_apply, hstep, hall hused]
      · exact ⟨1, ends_of_le hlt hbelow⟩

theorem exists_ends_zero (hint : sb.size.toNat + BPB ≤ 2 ^ 31) (disk : Disk) : ∃ n, sb.Ends disk 0 n := by
  refine exists_ends hint sb.size.toNat rfl ?_ fun c hc _ => absurd hc (by simp)
  have hpos : 0 < BPB := by decide
  exact le_trans (Nat.le_mul_of_pos_right _ hpos) (Nat.le_add_left _ _)

-- A call ends once.
theorem Balloc.unique {t u : Disk} (h : sb.Balloc disk b t) (h' : sb.Balloc disk c u) : b = c ∧ t = u := by
  obtain ⟨n, hn⟩ := h
  obtain ⟨m, hm⟩ := h'
  have hstay : ∀ d (x : BitVec 32) k, (fun s : Disk × Loc => sb.step s.1 s.2)^[k] (d, .done x) = (d, .done x) :=
    fun d x k => Function.iterate_fixed rfl k
  rcases Nat.le_total n m with hle | hle
  · obtain ⟨k, rfl⟩ := Nat.exists_eq_add_of_le' hle
    rw [Function.iterate_add_apply, hn, hstay] at hm
    cases hm
    exact ⟨rfl, rfl⟩
  · obtain ⟨k, rfl⟩ := Nat.exists_eq_add_of_le' hle
    rw [Function.iterate_add_apply, hm, hstay] at hn
    cases hn
    exact ⟨rfl, rfl⟩

theorem used_alloc (hk : sb.Kept disk) (hr : r < sb.size) (hfree : sb.used disk r = false) (hc : c < sb.size) :
    sb.used (sb.alloc disk r) c = (sb.used disk c || decide (c = r)) := by
  rw [alloc, used_zero (hk r hr hfree c hc), used_mark]

def Loc.got : Loc → Option (BitVec 32)
  | .scan _ => none
  | .zero b => some b
  | .done b => if b = 0 then none else some b

structure Given (sb : Bmap) (disk : Disk) (b : BitVec 32) : Prop where
  lt : b < sb.size
  used : sb.used disk b = true
  data : ∀ c < sb.size, sb.bblock c ≠ b.toNat

theorem step_spec (hint : sb.size.toNat + BPB ≤ 2 ^ 31) (hk : sb.Kept disk) {l : Loc}
    (hscan : ∀ b, l = .scan b → b.toNat % BPB = 0) (hgot : ∀ b, l.got = some b → sb.Given disk b) :
    (∀ c < sb.size, sb.used disk c = true → sb.used (sb.step disk l).1 c = true) ∧
    (∀ b, (sb.step disk l).2 = .scan b → b.toNat % BPB = 0) ∧
    ∀ b, (sb.step disk l).2.got = some b →
      sb.Given (sb.step disk l).1 b ∧ (l.got = some b ∨ sb.used disk b = false) := by
  cases l with
  | scan b =>
      have hb := hscan b rfl
      by_cases hlt : b < sb.size
      · have hnat := BitVec.lt_def.mp hlt
        cases hfree : sb.freeBit b (disk (sb.bblockInt b)) BPB 0 with
        | some bi =>
            obtain ⟨hin, hclear, -, -, -⟩ := scan_some hb (by omega) hfree
            rw [step_some hb (by omega) hlt hfree rfl]
            refine ⟨fun c _ hc => by rw [used_mark, hc, Bool.true_or], fun b hb => (by cases hb), fun r hr => ?_⟩
            cases hr
            exact ⟨⟨hin, by rw [used_mark]; simp, hk _ hin hclear⟩, .inr hclear⟩
        | none =>
            rw [step_none hlt hfree]
            refine ⟨fun c _ hc => hc, fun b' hb' => ?_, fun r hr => by cases hr⟩
            injection hb' with hb'
            rw [← hb', toNat_add (by omega) le_rfl, Nat.add_mod_right, hb]
      · rw [step, if_neg hlt]
        exact ⟨fun c _ hc => hc, fun b' hb' => (by cases hb'), fun r hr => by cases hr⟩
  | zero b =>
      have hgiven := hgot b rfl
      have hsame : ∀ c < sb.size, sb.used (sb.step disk (.zero b)).1 c = sb.used disk c :=
        fun c hc => used_zero (hgiven.data c hc) _
      refine ⟨fun c hc hu => (hsame c hc).trans hu, fun b' hb' => (by cases hb'), fun r hr => ?_⟩
      change (if b = 0 then none else some b) = some r at hr
      split at hr <;> cases hr
      exact ⟨⟨hgiven.lt, (hsame b hgiven.lt).trans hgiven.used, hgiven.data⟩, .inl rfl⟩
  | done b => exact ⟨fun c _ hc => hc, fun b' hb' => (by cases hb'), fun r hr => ⟨hgot r hr, .inl hr⟩⟩

structure Calls.Inv (sb : Bmap) (s : Calls) : Prop where
  kept : sb.Kept s.disk
  scan : ∀ p b, s.loc p = .scan b → b.toNat % BPB = 0
  got : ∀ p b, (s.loc p).got = some b → sb.Given s.disk b
  apart : ∀ p q b, (s.loc p).got = some b → (s.loc q).got = some b → p = q

theorem Calls.Inv.step (hint : sb.size.toNat + BPB ≤ 2 ^ 31) {s t : Calls} (h : s.Inv sb) (hst : Step sb s t) :
    t.Inv sb := by
  obtain ⟨p⟩ := hst
  obtain ⟨hmono, hscan, hgot⟩ := step_spec hint h.kept (h.scan p) (h.got p)
  generalize hd : (sb.step s.disk (s.loc p)).1 = d at *
  generalize hl : (sb.step s.disk (s.loc p)).2 = l at *
  have hgiven : ∀ b, sb.Given s.disk b → sb.Given d b := fun b hb => ⟨hb.lt, hmono b hb.lt hb.used, hb.data⟩
  have hself : update s.loc p l p = l := update_self ..
  have hother : ∀ q, q ≠ p → update s.loc p l q = s.loc q := fun q hq => update_of_ne hq ..
  -- p has its block from before, or it was free until now.
  have hapart : ∀ q b, q ≠ p → l.got = some b → (s.loc q).got ≠ some b := by
    intro q b hq hb hqb
    rcases (hgot b hb).2 with hold | hfree
    · exact hq (h.apart q p b hqb hold)
    · rw [(h.got q b hqb).used] at hfree
      cases hfree
  refine ⟨fun b hb hfree => h.kept b hb ?_, fun q b hq => ?_, fun q b hq => ?_, fun q q' b hq hq' => ?_⟩
  · by_contra hused
    rw [hmono b hb (by simpa using hused)] at hfree
    cases hfree
  · by_cases hqp : q = p
    · subst hqp
      exact hscan b (hself ▸ hq)
    · exact h.scan q b (hother q hqp ▸ hq)
  · by_cases hqp : q = p
    · subst hqp
      exact (hgot b (hself ▸ hq)).1
    · exact hgiven b (h.got q b (hother q hqp ▸ hq))
  · change (update s.loc p l q).got = some b at hq
    change (update s.loc p l q').got = some b at hq'
    by_cases hqp : q = p
    · by_cases hqp' : q' = p
      · rw [hqp, hqp']
      · rw [hqp, hself] at hq
        rw [hother q' hqp'] at hq'
        exact absurd hq' (hapart q' b hqp' hq)
    · rw [hother q hqp] at hq
      by_cases hqp' : q' = p
      · rw [hqp', hself] at hq'
        exact absurd hq (hapart q b hqp hq')
      · rw [hother q' hqp'] at hq'
        exact h.apart q q' b hq hq'

theorem calls_apart (hint : sb.size.toNat + BPB ≤ 2 ^ 31) (hk : sb.Kept disk) {s : Calls}
    (h : Reaches (Calls.Step sb) ⟨disk, fun _ => .scan 0⟩ s) {p q : ℕ} (hne : p ≠ q) (hb : b ≠ 0)
    (hp : s.loc p = .done b) : s.loc q ≠ .done b := by
  have hinv := h.invariant (Calls.Inv sb) ⟨hk, fun p b hb => ?_, fun p b hb => ?_, fun p q b hb => ?_⟩
    fun s t hs hst => hs.step hint hst
  · intro hq
    refine hne (hinv.apart p q b ?_ ?_)
    · rw [hp, Loc.got, if_neg hb]
    · rw [hq, Loc.got, if_neg hb]
  · injection hb with hb
    rw [← hb]
    rfl
  · cases hb
  · cases hb

theorem exists_lowest {c : BitVec 32} (hc : c < sb.size) (hfree : sb.used disk c = false) : ∃ r, sb.Lowest disk r := by
  have hex : ∃ n, ∃ r : BitVec 32, r.toNat = n ∧ r < sb.size ∧ sb.used disk r = false := ⟨_, c, rfl, hc, hfree⟩
  classical
  obtain ⟨r, hn, hlt, hr⟩ := Nat.find_spec hex
  refine ⟨r, hlt, hr, fun b hb => ?_⟩
  by_contra hused
  rw [BitVec.lt_def] at hb hlt
  refine Nat.find_min hex (m := b.toNat) (by omega) ⟨b, rfl, ?_, by simpa using hused⟩
  rw [BitVec.lt_def]
  omega

-- balloc and bfree, in a file system whose bitmap blocks are not marked free and in which the int b of balloc
-- does not overflow.
theorem balloc_bitmap {sb : Bmap} (hint : sb.size.toNat + BPB ≤ 2 ^ 31) {disk : Disk} (hk : sb.Kept disk) :
    (∀ r, sb.Lowest disk r → ∃ t, sb.Balloc disk r t ∧ t r.toNat = (fun _ => 0) ∧
      (∀ c < sb.size, sb.used t c = (sb.used disk c || decide (c = r))) ∧
      (∀ n, n ≠ r.toNat → n ≠ sb.bblock r → t n = disk n) ∧
      ∃ u, sb.bfree t r = some u ∧ ∀ c < sb.size, sb.used u c = sb.used disk c) ∧
    (sb.used disk 0 = true → ∀ t, sb.Balloc disk 0 t ↔ t = disk ∧ ∀ c < sb.size, sb.used disk c = true) ∧
    (∀ b, sb.used disk b = true → ∃ t, sb.bfree disk b = some t ∧
      (∀ c, sb.used t c = (sb.used disk c && decide (c ≠ b))) ∧ ∀ n ≠ sb.bblock b, t n = disk n) ∧
    ∀ s, Reaches (Calls.Step sb) ⟨disk, fun _ => .scan 0⟩ s → ∀ p q b, p ≠ q → b ≠ 0 → s.loc p = .done b →
      s.loc q ≠ .done b := by
  obtain ⟨n, hlowest, hall⟩ := exists_ends_zero hint disk
  have hfrees : ∀ d b, sb.used d b = true → ∃ t, sb.bfree d b = some t ∧
      (∀ c, sb.used t c = (sb.used d c && decide (c ≠ b))) ∧ ∀ n ≠ sb.bblock b, t n = d n :=
    fun d b hb => ⟨_, if_pos hb, used_clear d b, fun n hn => update_of_ne hn ..⟩
  refine ⟨fun r hr => ?_, fun hzero t => ⟨fun ht => ?_, ?_⟩, hfrees disk, fun s hs p q b hne hb hp => ?_⟩
  · have hused := fun c hc => used_alloc hk hr.lt hr.free (c := c) hc
    obtain ⟨u, hu, hclear, -⟩ := hfrees (sb.alloc disk r) r (by rw [hused r hr.lt]; simp)
    refine ⟨_, ⟨n, hlowest r hr⟩, update_self .., hused, fun n hn hblock => ?_, u, hu, fun c hc => ?_⟩
    · rw [alloc, update_of_ne hn, update_of_ne hblock]
    · rw [hclear, hused c hc]
      by_cases hcr : c = r
      · rw [hcr, hr.free]
        simp
      · simp [hcr]
  · by_cases hfull : ∀ c < sb.size, sb.used disk c = true
    · exact ⟨(Balloc.unique ⟨n, hall hfull⟩ ht).2.symm, hfull⟩
    · push Not at hfull
      obtain ⟨c, hc, hfree⟩ := hfull
      obtain ⟨r, hr⟩ := exists_lowest hc (by simpa using hfree)
      have hr0 := (Balloc.unique ⟨n, hlowest r hr⟩ ht).1
      rw [← hr0, hr.free] at hzero
      cases hzero
  · rintro ⟨rfl, hfull⟩
    exact ⟨n, hall hfull⟩
  · exact calls_apart hint hk hs hne hb hp

-- Block 1 is the bitmap.
def mapDisk (bits : UInt8) : Disk := fun n i => if n = 1 ∧ i.val = 0 then bits else 0

theorem balloc_bitmap_three : ∃ t, Balloc ⟨3, 1⟩ (mapDisk 3) 2 t ∧ (⟨3, 1⟩ : Bmap).used t 2 = true ∧
    t 2 = fun _ => 0 := by
  have hcases : ∀ b : BitVec 32, b < 3 → b = 0 ∨ b = 1 ∨ b = 2 := fun b hb => by bv_omega
  have hlowest : (⟨3, 1⟩ : Bmap).Lowest (mapDisk 3) 2 := by
    refine ⟨by decide, by decide +kernel, fun b hb => ?_⟩
    have hb : b = 0 ∨ b = 1 := by bv_omega
    rcases hb with rfl | rfl <;> decide +kernel
  have hkept : (⟨3, 1⟩ : Bmap).Kept (mapDisk 3) := by
    intro b hb hfree c hc
    rcases hcases b hb with rfl | rfl | rfl
    · exact absurd hfree (by decide +kernel)
    · exact absurd hfree (by decide +kernel)
    · rcases hcases c hc with rfl | rfl | rfl <;> decide +kernel
  obtain ⟨t, ht, hzero, hused, -⟩ := (balloc_bitmap (by decide) hkept).1 2 hlowest
  exact ⟨t, ht, by rw [hused 2 (by decide)]; simp, hzero⟩

end Bmap

end Xv6
