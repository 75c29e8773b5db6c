import Xv6.Log
import Mathlib.Tactic

namespace Xv6

namespace Block

theorem bytes_ofBytes (f : ℕ → UInt8) (i : ℕ) (h : i < BSIZE) : (ofBytes f).bytes i = f i := by
  simp [bytes, ofBytes, h]

theorem word_setWord_self (b : Block) (i value : ℕ) (hi : i < NINDIRECT) :
    (b.setWord i value).word i = value % 2 ^ 32 := by
  have hsize : 4 * i + 4 ≤ BSIZE := by simp only [NINDIRECT, BSIZE] at hi ⊢; omega
  have hload : (b.setWord i value).word i =
      Bytes.load (Bytes.store b.bytes (4 * i) 4 value) (4 * i) 4 :=
    Bytes.load_congr _ _ _ _ fun k _ hk => bytes_ofBytes _ k (by omega)
  rw [hload, Bytes.load_store]
  norm_num

theorem word_setWord_of_ne (b : Block) (i j value : ℕ) (hj : j < NINDIRECT) (hne : j ≠ i) :
    (b.setWord i value).word j = b.word j := by
  have hsize : 4 * j + 4 ≤ BSIZE := by simp only [NINDIRECT, BSIZE] at hj ⊢; omega
  have hload : (b.setWord i value).word j =
      Bytes.load (Bytes.store b.bytes (4 * i) 4 value) (4 * j) 4 :=
    Bytes.load_congr _ _ _ _ fun k _ hk => bytes_ofBytes _ k (by omega)
  rw [hload, Bytes.load_store_disjoint _ _ _ _ _ _ (by omega)]
  rfl

theorem setWord_setWord (b : Block) (i first second : ℕ) :
    (b.setWord i first).setWord i second = b.setWord i second := by
  funext k
  simp only [setWord, ofBytes, Bytes.store]
  split
  · rfl
  · rename_i hout
    rw [bytes_ofBytes _ _ k.isLt, Bytes.store, if_neg hout]

end Block

theorem word_putBlocks_of_le (b : Block) (i j : ℕ) (lh : List ℕ) (hj : j ≤ i)
    (hi : i + lh.length < NINDIRECT) : (putBlocks b i lh).word j = b.word j := by
  induction lh generalizing b i with
  | nil => rfl
  | cons blockno rest ih =>
      simp only [List.length_cons] at hi
      rw [putBlocks, ih _ (i + 1) (by omega) (by omega),
        Block.word_setWord_of_ne _ _ _ _ (by omega) (by omega)]

theorem word_putBlocks (b : Block) (i k : ℕ) (lh : List ℕ) (hk : k < lh.length) (hi : i + lh.length < NINDIRECT) :
    (putBlocks b i lh).word (i + k + 1) = lh[k] % 2 ^ 32 := by
  induction lh generalizing b i k with
  | nil => simp at hk
  | cons blockno rest ih =>
      simp only [List.length_cons] at hi hk
      rw [putBlocks]
      cases k with
      | zero =>
          rw [word_putBlocks_of_le _ _ _ _ (by omega) (by omega),
            Block.word_setWord_self _ _ _ (by omega)]
          rfl
      | succ k =>
          rw [show i + (k + 1) + 1 = i + 1 + k + 1 by omega, ih _ _ _ (by omega) (by omega)]
          rfl

-- What write_head stores is what read_head finds, whatever the block held before.
theorem readHead_putHead (b : Block) (lh : List ℕ) (hlen : lh.length ≤ LOGSIZE)
    (hword : ∀ blockno ∈ lh, blockno < 2 ^ 32) : readHead (putHead b lh) = lh := by
  have hsize : 0 + lh.length < NINDIRECT := by
    simp only [NINDIRECT, BSIZE, LOGSIZE, MAXOPBLOCKS] at hlen ⊢
    omega
  have hcount : headCount (putHead b lh) = lh.length := by
    have hw : (putHead b lh).word 0 = lh.length := by
      rw [putHead, word_putBlocks_of_le _ _ _ _ le_rfl hsize,
        Block.word_setWord_self _ _ _ (by omega), Nat.mod_eq_of_lt]
      simp only [LOGSIZE, MAXOPBLOCKS] at hlen
      omega
    rw [headCount, hw, if_pos]
    simp only [LOGSIZE, MAXOPBLOCKS] at hlen
    omega
  apply List.ext_getElem
  · simp [readHead, hcount]
  · intro k hk hk'
    have hw := word_putBlocks (b.setWord 0 lh.length) 0 k lh hk' hsize
    rw [Nat.zero_add, Nat.mod_eq_of_lt (hword _ (List.getElem_mem hk'))] at hw
    simpa [readHead, putHead] using hw

end Xv6
