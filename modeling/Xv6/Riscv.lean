import Xv6.Lib.Bytes
import Xv6.Param
import Mathlib.Data.Nat.Bitwise

namespace Xv6

-- kernel/riscv.h
def PGSIZE : ℕ := 4096

def pgRoundUp (sz : ℕ) : ℕ := (sz + PGSIZE - 1) % 2 ^ 64 / PGSIZE * PGSIZE
def pgRoundDown (a : ℕ) : ℕ := a / PGSIZE * PGSIZE

def PTE_V : ℕ := 2 ^ 0
def PTE_R : ℕ := 2 ^ 1
def PTE_W : ℕ := 2 ^ 2
def PTE_X : ℕ := 2 ^ 3
def PTE_U : ℕ := 2 ^ 4

-- A page-aligned physical address is its page number here: PTE2PA is pte >> 10.
def pa2pte (pa : ℕ) : ℕ := pa <<< 10
def pte2pa (pte : ℕ) : ℕ := pte >>> 10
def pteFlags (pte : ℕ) : ℕ := pte % 2 ^ 10

-- *pte & flag
def hasFlag (pte flag : ℕ) : Bool := pte &&& flag != 0

def px (level va : ℕ) : ℕ := va / 2 ^ (12 + 9 * level) % 512

def MAXVA : ℕ := 2 ^ (9 + 9 + 9 + 12 - 1)

-- kernel/memlayout.h
def KERNBASE : ℕ := 0x80000000
def PHYSTOP : ℕ := KERNBASE + 128 * 1024 * 1024
def TRAMPOLINE : ℕ := MAXVA - PGSIZE
def TRAPFRAME : ℕ := TRAMPOLINE - PGSIZE

-- The bytes of a page, and physical memory by page number.
abbrev Page := ℕ → UInt8
abbrev Mem := ℕ → Page

namespace Mem

-- pagetable[i]
def pte (mem : Mem) (pagetable i : ℕ) : ℕ := Bytes.load (mem pagetable) (8 * i) 8

def setPte (mem : Mem) (pagetable i value : ℕ) : Mem :=
  Function.update mem pagetable (Bytes.store (mem pagetable) (8 * i) 8 value)

def memset (mem : Mem) (pa : ℕ) (c : UInt8) : Mem := Function.update mem pa fun _ => c

-- memmove of n bytes to an offset in a page.
def memmove (mem : Mem) (pa offset : ℕ) (src : ℕ → UInt8) (n : ℕ) : Mem :=
  Function.update mem pa fun o =>
    if offset ≤ o ∧ o < offset + n then src (o - offset) else mem pa o

end Mem

theorem Mem.pte_setPte_self (mem : Mem) (pagetable i value : ℕ) :
    (mem.setPte pagetable i value).pte pagetable i = value % 2 ^ 64 := by
  rw [pte, setPte, Function.update_self, Bytes.load_store, show 256 ^ 8 = 2 ^ 64 by decide]

theorem Mem.pte_setPte_of_ne (mem : Mem) (pagetable value : ℕ) {i j : ℕ} (h : j ≠ i) :
    (mem.setPte pagetable i value).pte pagetable j = mem.pte pagetable j := by
  rw [pte, setPte, Function.update_self, Bytes.load_store_disjoint _ _ _ _ _ _ (by omega)]
  rfl

theorem Mem.pte_congr {mem mem' : Mem} {pagetable : ℕ} (h : mem' pagetable = mem pagetable) (i : ℕ) :
    mem'.pte pagetable i = mem.pte pagetable i := by
  rw [pte, pte, h]

theorem Mem.pte_setPte_page (mem : Mem) (i j value : ℕ) {pagetable page : ℕ} (h : page ≠ pagetable) :
    (mem.setPte pagetable i value).pte page j = mem.pte page j :=
  Mem.pte_congr (Function.update_of_ne h _ _) j

theorem hasFlag_or (a b flag : ℕ) : hasFlag (a ||| b) flag = (hasFlag a flag || hasFlag b flag) := by
  rw [Bool.eq_iff_iff]
  simp only [hasFlag, bne_iff_ne, Bool.or_eq_true, Nat.and_or_distrib_right, ne_eq,
    Nat.or_eq_zero_iff]
  tauto

theorem hasFlag_pa2pte (pa : ℕ) {flag : ℕ} (h : flag < 2 ^ 10) : hasFlag (pa2pte pa) flag = false := by
  have hzero : pa <<< 10 &&& flag = 0 := by
    apply Nat.eq_of_testBit_eq
    intro i
    simp only [Nat.testBit_and, Nat.testBit_shiftLeft, Nat.zero_testBit]
    by_cases hi : 10 ≤ i
    · have hbit : flag.testBit i = false :=
        Nat.testBit_lt_two_pow (lt_of_lt_of_le h (Nat.pow_le_pow_right (by decide) hi))
      simp [hbit]
    · simp [hi]
  simp [hasFlag, pa2pte, hzero]

theorem pte2pa_or (pa : ℕ) {flags : ℕ} (h : flags < 2 ^ 10) : pte2pa (pa2pte pa ||| flags) = pa := by
  rw [pte2pa, pa2pte, Nat.shiftRight_or_distrib, Nat.shiftLeft_shiftRight,
    Nat.shiftRight_eq_div_pow flags, Nat.div_eq_of_lt h, Nat.or_zero]

theorem pteFlags_or (pa : ℕ) {flags : ℕ} (h : flags < 2 ^ 10) :
    pteFlags (pa2pte pa ||| flags) = flags := by
  rw [pteFlags, pa2pte, ← Nat.shiftLeft_add_eq_or_of_lt h, Nat.shiftLeft_eq]
  omega

end Xv6
