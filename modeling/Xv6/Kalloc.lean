import Xv6.Lib.Wp
import Xv6.Riscv

namespace Xv6

-- Physical memory and its allocator. kend is the linker's symbol end; the
-- struct run pointers in free pages are the list freelist. fail says which of
-- the next calls of kalloc find no page whatever the list holds.
structure Ram where
  mem : Mem
  kend : ℕ
  freelist : List ℕ
  fail : List Bool

abbrev RamM := StateT Ram (Except Panic)

def InRam (kend pa : ℕ) : Prop := kend ≤ pa * PGSIZE ∧ pa * PGSIZE < PHYSTOP

instance (kend pa : ℕ) : Decidable (InRam kend pa) := inferInstanceAs (Decidable (_ ∧ _))

def kfree (pa : ℕ) : RamM Unit := do
  if ¬InRam (← get).kend pa then throw .kfree
  modify fun s => { s with mem := s.mem.memset pa 1, freelist := pa :: s.freelist }

def kalloc : RamM (Option ℕ) := do
  let s ← get
  let s' := { s with fail := s.fail.tail }
  match s.fail.headD false, s.freelist with
  | false, pa :: rest =>
      set { s' with mem := s.mem.memset pa 5, freelist := rest }
      return some pa
  | _, _ =>
      set s'
      return none

end Xv6
