import Xv6.Fs
import Xv6.Lib.Ownership
import Xv6.Log.Header

namespace Xv6

open Ownership
open Function (update update_of_ne update_self)

-- The blocks an inode refers to: its addrs, then the entries of its indirect block.
def Dinode.block (d : Dinode) (data : Disk) (r : ℕ) : ℕ :=
  if r ≤ NDIRECT then d.addrs r
  else if d.addrs NDIRECT = 0 then 0
  else (data (d.addrs NDIRECT)).word (r - (NDIRECT + 1))

def slotOf (bn : ℕ) : ℕ := if bn < NDIRECT then bn else bn + 1

def Superblock.pool (sb : Superblock) : Set ℕ := { b | sb.size - sb.nblocks ≤ b ∧ b < sb.size }

-- The inodes with what memory holds of them, the bitmap and the data blocks.
structure Vol where
  view : ℕ → Dinode
  bitmap : ℕ → Bool
  data : Disk

namespace Vol

def block (v : Vol) (x r : ℕ) : ℕ := (v.view x).block v.data r

def ref (v : Vol) (a : ℕ × ℕ) : Option ℕ := if v.block a.1 a.2 = 0 then none else some (v.block a.1 a.2)

def setView (v : Vol) (x : ℕ) (d : Dinode) : Vol := { v with view := update v.view x d }

def setData (v : Vol) (b : ℕ) (blk : Block) : Vol := { v with data := update v.data b blk }

def take (v : Vol) (b : ℕ) : Vol :=
  { v with bitmap := update v.bitmap b true, data := update v.data b fun _ => 0 }

end Vol

-- The inodes own the data blocks that are marked in the bitmap.
structure Own (sb : Superblock) (v : Vol) : Prop where
  owns : Owns v.ref (fun b => v.bitmap b = true) sb.pool
  mark : ∀ b, b < sb.size - sb.nblocks → v.bitmap b = true
  boot : sb.nblocks < sb.size
  word : sb.size < 2 ^ 32
  free : ∀ x, (v.view x).type = .free → ∀ j ≤ NDIRECT, (v.view x).addrs j = 0

structure Filled (v : Vol) : Prop where
  size : ∀ x, (v.view x).size ≤ MAXFILE * BSIZE
  block : ∀ x bn, bn * BSIZE < (v.view x).size → v.block x (slotOf bn) ≠ 0

-- Inode x may have got blocks and have been written to; nothing else has changed.
structure Grows (x : ℕ) (v w : Vol) : Prop where
  other : ∀ y, y ≠ x → w.view y = v.view y
  type : (w.view x).type = (v.view x).type
  nlink : (w.view x).nlink = (v.view x).nlink
  bit : ∀ b, v.bitmap b = true → w.bitmap b = true
  data : ∀ b, v.bitmap b = true → (∀ r, v.block x r ≠ b) → w.data b = v.data b
  block : ∀ r, v.block x r ≠ 0 → w.block x r = v.block x r
  new : ∀ r, w.block x r ≠ 0 → w.block x r = v.block x r ∨ v.bitmap (w.block x r) = false

theorem Block.word_of_le (b : Block) {i : ℕ} (h : NINDIRECT ≤ i) : b.word i = 0 := by
  have hbytes : ∀ k, 4 * i ≤ k → b.bytes k = 0 := by
    intro k hk
    simp only [NINDIRECT, BSIZE] at h
    exact dif_neg (by simp only [BSIZE]; omega)
  simp (disch := omega) [Block.word, Bytes.load, hbytes]

@[simp] theorem word_zero (k : ℕ) : Block.word (fun _ => 0) k = 0 := by
  have hbytes : ∀ i, Block.bytes (fun _ => 0) i = 0 := by
    intro i
    simp [Block.bytes]
  simp [Block.word, Bytes.load, hbytes]

namespace Dinode

theorem block_direct (d : Dinode) (data : Disk) {r : ℕ} (hr : r ≤ NDIRECT) :
    d.block data r = d.addrs r := if_pos hr

theorem block_indirect (d : Dinode) (data : Disk) (k : ℕ) (h : d.addrs NDIRECT ≠ 0) :
    d.block data (NDIRECT + 1 + k) = (data (d.addrs NDIRECT)).word k := by
  rw [block, if_neg (by omega), if_neg h, Nat.add_sub_cancel_left]

-- Only the indirect block of the data matters.
theorem block_congr {d d' : Dinode} {data data' : Disk} (haddrs : d'.addrs = d.addrs)
    (hdata : d.addrs NDIRECT ≠ 0 → data' (d.addrs NDIRECT) = data (d.addrs NDIRECT)) (r : ℕ) :
    d'.block data' r = d.block data r := by
  unfold block
  rw [haddrs]
  by_cases hz : d.addrs NDIRECT = 0
  · simp [hz]
  · rw [hdata hz]

theorem addrs_setAddr (d : Dinode) (j addr k : ℕ) :
    (d.setAddr j addr).addrs k = if k = j then addr else d.addrs k := by
  simp [setAddr, Function.update_apply]

theorem block_setAddr (d : Dinode) (data : Disk) {j : ℕ} (hj : j < NDIRECT) (addr r : ℕ) :
    (d.setAddr j addr).block data r = if r = j then addr else d.block data r := by
  unfold block
  rw [addrs_setAddr, addrs_setAddr, if_neg (show ¬NDIRECT = j by omega)]
  by_cases hr : r ≤ NDIRECT
  · simp [hr]
  · simp [hr, show ¬r = j by omega]

theorem block_setAddr_indirect (d : Dinode) (data : Disk) {addr : ℕ} (hold : d.addrs NDIRECT = 0)
    (hdata : data addr = fun _ => 0) (r : ℕ) :
    (d.setAddr NDIRECT addr).block data r = if r = NDIRECT then addr else d.block data r := by
  unfold block
  rw [addrs_setAddr, addrs_setAddr, if_pos rfl, hdata, hold]
  by_cases hr : r ≤ NDIRECT
  · simp [hr]
  · simp [hr, show ¬r = NDIRECT by omega]

end Dinode

namespace Vol

variable {v : Vol} {x y r : ℕ}

variable {a : ℕ × ℕ}

theorem ref_eq_some {b : ℕ} : v.ref a = some b ↔ b ≠ 0 ∧ v.block a.1 a.2 = b := by
  unfold ref
  split
  · rename_i hz
    simp only [reduceCtorEq, false_iff, not_and]
    rintro hb rfl
    exact hb hz
  · rename_i hnz
    simp only [Option.some.injEq]
    constructor
    · rintro rfl
      exact ⟨hnz, rfl⟩
    · exact fun h => h.2

theorem ref_eq_none : v.ref a = none ↔ v.block a.1 a.2 = 0 := by
  unfold ref
  split <;> simp_all

theorem ref_congr {w : Vol} (h : w.block a.1 a.2 = v.block a.1 a.2) : w.ref a = v.ref a := by
  rw [ref, ref, h]

@[simp] theorem view_setView (v : Vol) (x : ℕ) (d : Dinode) : (v.setView x d).view x = d :=
  update_self ..

theorem view_setView_of_ne (v : Vol) (d : Dinode) (h : y ≠ x) : (v.setView x d).view y = v.view y :=
  update_of_ne h _ _

end Vol

namespace Own

variable {sb : Superblock} {v : Vol} {x y r r' b : ℕ}

theorem mem_pool (h : Own sb v) (hb : v.block x r ≠ 0) :
    v.block x r ∈ sb.pool ∧ v.bitmap (v.block x r) = true :=
  h.owns.sound (x, r) _ (Vol.ref_eq_some.mpr ⟨hb, rfl⟩)

theorem eq_of_block (h : Own sb v) (hb : v.block x r ≠ 0) (heq : v.block y r' = v.block x r) :
    x = y ∧ r = r' := by
  have ha := h.owns.inj (x, r) (y, r') _ (Vol.ref_eq_some.mpr ⟨hb, rfl⟩)
    (Vol.ref_eq_some.mpr ⟨hb, heq⟩)
  exact ⟨congrArg Prod.fst ha, congrArg Prod.snd ha⟩

theorem block_indirect (_ : Own sb v) : v.block x NDIRECT = (v.view x).addrs NDIRECT :=
  (v.view x).block_direct v.data (le_refl NDIRECT)

theorem fresh_pos (h : Own sb v) (hb : v.bitmap b = false) : b ≠ 0 := by
  rintro rfl
  have hmark := h.mark 0 (by have := h.boot; omega)
  rw [hb] at hmark
  cases hmark

theorem fresh_mem (h : Own sb v) (hb : v.bitmap b = false) (hsize : b < sb.size) : b ∈ sb.pool := by
  refine ⟨?_, hsize⟩
  by_contra hlt
  have hmark := h.mark b (by omega)
  rw [hb] at hmark
  cases hmark

theorem block_ne_fresh (h : Own sb v) (hb : v.bitmap b = false) (hz : v.block x r ≠ 0) :
    v.block x r ≠ b := by
  rintro rfl
  rw [(h.mem_pool hz).2] at hb
  cases hb

theorem block_take (h : Own sb v) (hb : v.bitmap b = false) (y r : ℕ) :
    (v.take b).block y r = v.block y r := by
  refine Dinode.block_congr (d := v.view y) rfl (fun hz => update_of_ne ?_ _ _) r
  rw [← h.block_indirect] at hz ⊢
  exact h.block_ne_fresh hb hz

theorem of_alloc (h : Own sb v) (hb : v.bitmap b = false) (hsize : b < sb.size) {w : Vol} {slot : ℕ}
    (hempty : v.block x slot = 0) (hblock : ∀ y r, w.block y r = if y = x ∧ r = slot then b else v.block y r)
    (hbitmap : w.bitmap = (v.take b).bitmap)
    (hfree : ∀ y, (w.view y).type = .free → ∀ j ≤ NDIRECT, (w.view y).addrs j = 0) : Own sb w where
  owns := by
    have hnone : v.ref (x, slot) = none := Vol.ref_eq_none.mpr hempty
    refine (h.owns.alloc hnone (h.fresh_mem hb hsize) (by simp [hb])).congr ?_ ?_
    · rintro ⟨y, r⟩
      have hat := hblock y r
      by_cases ha : y = x ∧ r = slot
      · rw [if_pos ha] at hat
        obtain ⟨rfl, rfl⟩ := ha
        rw [update_self, Vol.ref_eq_some]
        exact ⟨h.fresh_pos hb, hat⟩
      · rw [if_neg ha] at hat
        rw [update_of_ne (by simpa using ha)]
        exact Vol.ref_congr hat
    · intro c
      by_cases hc : c = b <;> simp [hbitmap, Vol.take, hc]
  mark := by
    intro c hc
    by_cases hcb : c = b <;> simp [hbitmap, Vol.take, hcb, h.mark c hc]
  boot := h.boot
  word := h.word
  free := hfree

-- A fresh block goes to an empty address of an inode.
theorem block_alloc_addr (h : Own sb v) (hb : v.bitmap b = false) {j : ℕ} (hj : j ≤ NDIRECT)
    (hz : (v.view x).addrs j = 0) (y r : ℕ) :
    ((v.take b).setView x ((v.view x).setAddr j b)).block y r =
      if y = x ∧ r = j then b else v.block y r := by
  by_cases hy : y = x
  · subst hy
    simp only [true_and, Vol.block, Vol.view_setView]
    change ((v.view y).setAddr j b).block (v.take b).data r = _
    by_cases hjn : j = NDIRECT
    · subst hjn
      have hnew : (v.take b).data b = fun _ => 0 := update_self ..
      rw [Dinode.block_setAddr_indirect _ _ hz hnew]
      exact ite_congr rfl (fun _ => rfl) fun _ => h.block_take hb y r
    · rw [Dinode.block_setAddr _ _ (by omega)]
      exact ite_congr rfl (fun _ => rfl) fun _ => h.block_take hb y r
  · rw [if_neg (by simp [hy]), ← h.block_take hb y r, Vol.block, Vol.view_setView_of_ne _ _ hy]
    rfl

theorem alloc_addr (h : Own sb v) (hb : v.bitmap b = false) (hsize : b < sb.size) {j : ℕ}
    (hj : j ≤ NDIRECT) (hz : (v.view x).addrs j = 0) (ht : (v.view x).type ≠ .free) :
    Own sb ((v.take b).setView x ((v.view x).setAddr j b)) := by
  refine h.of_alloc hb hsize (by rw [Vol.block, Dinode.block_direct _ _ hj, hz]) (h.block_alloc_addr hb hj hz) rfl
    fun y hy => ?_
  by_cases hyx : y = x
  · subst hyx
    rw [Vol.view_setView] at hy
    exact absurd hy ht
  · rw [Vol.view_setView_of_ne _ _ hyx] at hy ⊢
    exact h.free y hy

-- A fresh block goes to an empty entry of an indirect block.
theorem block_alloc_word (h : Own sb v) (hb : v.bitmap b = false) (hsize : b < sb.size) {k : ℕ}
    (hk : k < NINDIRECT) (hind : (v.view x).addrs NDIRECT ≠ 0) (y r : ℕ) :
    ((v.take b).setData ((v.view x).addrs NDIRECT)
      ((v.data ((v.view x).addrs NDIRECT)).setWord k b)).block y r =
        if y = x ∧ r = NDIRECT + 1 + k then b else v.block y r := by
  by_cases hy : y = x
  · subst hy
    by_cases hr : r ≤ NDIRECT
    · rw [if_neg (by omega), Vol.block, Vol.block, Dinode.block_direct _ _ hr, Dinode.block_direct _ _ hr]
      rfl
    · obtain ⟨m, rfl⟩ := Nat.exists_eq_add_of_lt (not_le.mp hr)
      rw [show NDIRECT + m + 1 = NDIRECT + 1 + m by omega, Vol.block, Vol.block,
        Dinode.block_indirect (v.view y) _ _ hind]
      change (v.view y).block _ _ = _
      rw [Dinode.block_indirect _ _ _ hind]
      simp only [Vol.setData, Vol.take, update_self, true_and, Nat.add_left_cancel_iff]
      by_cases hmk : m = k
      · rw [if_pos hmk, hmk, Block.word_setWord_self _ _ _ hk, Nat.mod_eq_of_lt (hsize.trans h.word)]
      · rw [if_neg hmk]
        by_cases hm : m < NINDIRECT
        · exact Block.word_setWord_of_ne _ _ _ _ hm hmk
        · rw [Block.word_of_le _ (not_lt.mp hm), Block.word_of_le _ (not_lt.mp hm)]
  · rw [if_neg (by simp [hy]), ← h.block_take hb y r]
    refine Dinode.block_congr (d := (v.take b).view y) rfl (fun hz => update_of_ne ?_ _ _) r
    intro heq
    have hxy := h.eq_of_block (x := x) (y := y) (r := NDIRECT) (by rwa [h.block_indirect])
      (h.block_indirect.trans (heq.trans h.block_indirect.symm))
    exact hy hxy.1.symm

theorem alloc_word (h : Own sb v) (hb : v.bitmap b = false) (hsize : b < sb.size) {k : ℕ} (hk : k < NINDIRECT)
    (hind : (v.view x).addrs NDIRECT ≠ 0) (hz : (v.data ((v.view x).addrs NDIRECT)).word k = 0) :
    Own sb ((v.take b).setData ((v.view x).addrs NDIRECT)
      ((v.data ((v.view x).addrs NDIRECT)).setWord k b)) :=
  h.of_alloc hb hsize (by rw [Vol.block, Dinode.block_indirect _ _ _ hind, hz]) (h.block_alloc_word hb hsize hk hind)
    rfl h.free

-- Only a change of an indirect block changes what is owned.
theorem of_block (h : Own sb v) {w : Vol} (hbitmap : w.bitmap = v.bitmap) (hblock : ∀ y r, w.block y r = v.block y r)
    (hfree : ∀ y, (w.view y).type = .free → ∀ j ≤ NDIRECT, (w.view y).addrs j = 0) : Own sb w where
  owns := h.owns.congr (fun a => Vol.ref_congr (hblock a.1 a.2)) fun b => by rw [hbitmap]
  mark := by
    rw [hbitmap]
    exact h.mark
  boot := h.boot
  word := h.word
  free := hfree

theorem block_write (h : Own sb v) (hb : v.block x r ≠ 0) (hr : r ≠ NDIRECT) (blk : Block) (y r' : ℕ) :
    (v.setData (v.block x r) blk).block y r' = v.block y r' := by
  refine Dinode.block_congr (d := v.view y) rfl (fun hz => update_of_ne ?_ _ _) r'
  intro heq
  rw [← h.block_indirect] at heq
  exact hr (h.eq_of_block hb heq).2

theorem write (h : Own sb v) (hb : v.block x r ≠ 0) (hr : r ≠ NDIRECT) (blk : Block) :
    Own sb (v.setData (v.block x r) blk) :=
  h.of_block rfl (h.block_write hb hr blk) h.free

theorem block_setView (v : Vol) {d : Dinode} (haddrs : d.addrs = (v.view x).addrs) (y r : ℕ) :
    (v.setView x d).block y r = v.block y r := by
  by_cases hy : y = x
  · subst hy
    rw [Vol.block, Vol.view_setView]
    exact Dinode.block_congr haddrs (fun _ => rfl) r
  · rw [Vol.block, Vol.view_setView_of_ne _ _ hy]
    rfl

theorem setView (h : Own sb v) {d : Dinode} (haddrs : d.addrs = (v.view x).addrs)
    (hfree : d.type = .free → ∀ j ≤ NDIRECT, d.addrs j = 0) : Own sb (v.setView x d) := by
  refine h.of_block rfl (block_setView v haddrs) fun y hy => ?_
  by_cases hyx : y = x
  · subst hyx
    rw [Vol.view_setView] at hy ⊢
    exact hfree hy
  · rw [Vol.view_setView_of_ne _ _ hyx] at hy ⊢
    exact h.free y hy

theorem release (h : Own sb v) (S : ℕ × ℕ → Prop) [DecidablePred S] {w : Vol}
    (hblock : ∀ y r, w.block y r = if S (y, r) then 0 else v.block y r)
    (hbit : ∀ c, w.bitmap c = true ↔ v.bitmap c = true ∧ ∀ a, S a → v.block a.1 a.2 ≠ 0 → v.block a.1 a.2 ≠ c)
    (hfree : ∀ y, (w.view y).type = .free → ∀ j ≤ NDIRECT, (w.view y).addrs j = 0) : Own sb w where
  owns := by
    refine (h.owns.release S).congr ?_ ?_
    · rintro ⟨y, r⟩
      unfold Vol.ref
      simp only [hblock]
      by_cases hS : S (y, r) <;> simp [hS]
    · intro c
      rw [hbit]
      refine and_congr_right fun _ => and_congr_right fun _ => forall_congr' fun a => imp_congr_right fun _ => ?_
      rw [ne_eq (v.ref a), Vol.ref_eq_some]
      constructor
      · rintro hne ⟨hc, rfl⟩
        exact hne hc rfl
      · rintro hne hz rfl
        exact hne ⟨hz, rfl⟩
  mark := by
    intro c hc
    rw [hbit]
    refine ⟨h.mark c hc, fun a _ hz heq => ?_⟩
    have hpool := (h.mem_pool hz).1.1
    omega
  boot := h.boot
  word := h.word
  free := hfree

end Own

namespace Grows

variable {sb : Superblock} {v w u : Vol} {x y r b : ℕ}

theorem refl (x : ℕ) (v : Vol) : Grows x v v :=
  ⟨fun _ _ => rfl, rfl, rfl, fun _ h => h, fun _ _ _ => rfl, fun _ _ => rfl, fun _ _ => .inl rfl⟩

theorem trans (h : Grows x v w) (h' : Grows x w u) : Grows x v u where
  other y hy := (h'.other y hy).trans (h.other y hy)
  type := h'.type.trans h.type
  nlink := h'.nlink.trans h.nlink
  bit b hb := h'.bit b (h.bit b hb)
  data := by
    intro b hb hr
    refine (h'.data b (h.bit b hb) fun r heq => ?_).trans (h.data b hb hr)
    by_cases hz : w.block x r = 0
    · have hv : v.block x r ≠ 0 := by
        rw [← heq, hz] at hr
        exact hr r
      exact hr r ((h.block r hv).symm.trans heq)
    · rcases h.new r hz with hold | hfresh
      · exact hr r (hold.symm.trans heq)
      · rw [heq, hb] at hfresh
        cases hfresh
  block r hr := (h'.block r (by rwa [h.block r hr])).trans (h.block r hr)
  new := by
    intro r hr
    rcases h'.new r hr with hold | hfresh
    · rw [hold] at hr ⊢
      exact h.new r hr
    · refine .inr (Bool.eq_false_iff.mpr fun hv => ?_)
      rw [h.bit _ hv] at hfresh
      cases hfresh

-- The blocks of the other inodes are where they were.
theorem data_other (h : Grows x v w) (ho : Own sb v) (hy : y ≠ x) (hb : v.block y r ≠ 0) :
    w.data (v.block y r) = v.data (v.block y r) :=
  h.data _ (ho.mem_pool hb).2 fun _ heq => hy (ho.eq_of_block hb heq).1

theorem block_other (h : Grows x v w) (ho : Own sb v) (hy : y ≠ x) (r : ℕ) :
    w.block y r = v.block y r := by
  rw [Vol.block, h.other y hy]
  refine Dinode.block_congr rfl (fun hz => ?_) r
  rw [← ho.block_indirect] at hz ⊢
  exact h.data_other ho hy hz

theorem filled (h : Grows x v w) (ho : Own sb v) (hf : Filled v)
    (hsize : (w.view x).size = (v.view x).size) : Filled w where
  size := by
    intro y
    by_cases hy : y = x
    · rw [hy, hsize]
      exact hf.size x
    · rw [h.other y hy]
      exact hf.size y
  block := by
    intro y bn hbn
    by_cases hy : y = x
    · rw [hy, hsize] at hbn
      rw [hy, h.block _ (hf.block x bn hbn)]
      exact hf.block x bn hbn
    · rw [h.other y hy] at hbn
      rw [h.block_other ho hy]
      exact hf.block y bn hbn

theorem of_alloc (slot : ℕ) (hother : ∀ y, y ≠ x → w.view y = v.view y) (htype : (w.view x).type = (v.view x).type)
    (hnlink : (w.view x).nlink = (v.view x).nlink) (hb : v.bitmap b = false)
    (hbit : ∀ c, v.bitmap c = true → w.bitmap c = true)
    (hdata : ∀ c, v.bitmap c = true → (∀ r, v.block x r ≠ c) → w.data c = v.data c)
    (hslot : v.block x slot = 0) (hblock : ∀ r, w.block x r = if r = slot then b else v.block x r) :
    Grows x v w where
  other := hother
  type := htype
  nlink := hnlink
  bit := hbit
  data := hdata
  block := by
    intro r hr
    rw [hblock, if_neg]
    rintro rfl
    exact hr hslot
  new := by
    intro r hr
    rw [hblock] at hr ⊢
    by_cases hrs : r = slot
    · rw [if_pos hrs]
      exact .inr hb
    · rw [if_neg hrs]
      exact .inl rfl

theorem alloc_addr (ho : Own sb v) (hb : v.bitmap b = false) {j : ℕ} (hj : j ≤ NDIRECT)
    (hz : (v.view x).addrs j = 0) : Grows x v ((v.take b).setView x ((v.view x).setAddr j b)) := by
  refine of_alloc (b := b) j (fun y hy => Vol.view_setView_of_ne _ _ hy) ?_ ?_ hb ?_ ?_
    (by rw [Vol.block, Dinode.block_direct _ _ hj, hz]) fun r => ?_
  · rw [Vol.view_setView]
    rfl
  · rw [Vol.view_setView]
    rfl
  · intro c hc
    by_cases hcb : c = b <;> simp [Vol.setView, Vol.take, hcb, hc]
  · intro c hc _
    refine update_of_ne ?_ _ _
    rintro rfl
    rw [hb] at hc
    cases hc
  · rw [ho.block_alloc_addr hb hj hz]
    simp

theorem alloc_word (ho : Own sb v) (hb : v.bitmap b = false) (hsize : b < sb.size) {k : ℕ} (hk : k < NINDIRECT)
    (hind : (v.view x).addrs NDIRECT ≠ 0) (hz : (v.data ((v.view x).addrs NDIRECT)).word k = 0) :
    Grows x v ((v.take b).setData ((v.view x).addrs NDIRECT)
      ((v.data ((v.view x).addrs NDIRECT)).setWord k b)) := by
  refine of_alloc (b := b) (NDIRECT + 1 + k) (fun y hy => rfl) rfl rfl hb ?_ ?_
    (by rw [Vol.block, Dinode.block_indirect _ _ _ hind, hz]) fun r => ?_
  · intro c hc
    by_cases hcb : c = b <;> simp [Vol.setData, Vol.take, hcb, hc]
  · intro c hc hr
    have hci : c ≠ (v.view x).addrs NDIRECT := fun heq => hr NDIRECT (ho.block_indirect.trans heq.symm)
    have hcb : c ≠ b := by
      rintro rfl
      rw [hb] at hc
      cases hc
    simp [Vol.setData, Vol.take, hci, hcb]
  · rw [ho.block_alloc_word hb hsize hk hind]
    simp

theorem write (ho : Own sb v) (hb : v.block x r ≠ 0) (hr : r ≠ NDIRECT) (blk : Block) :
    Grows x v (v.setData (v.block x r) blk) where
  other _ _ := rfl
  type := rfl
  nlink := rfl
  bit _ h := h
  data := by
    intro c _ hc
    exact update_of_ne (fun heq => hc r heq.symm) _ _
  block r' _ := ho.block_write hb hr blk x r'
  new r' _ := .inl (ho.block_write hb hr blk x r')

end Grows

end Xv6
