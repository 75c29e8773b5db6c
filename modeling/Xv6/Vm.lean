import Xv6.Kalloc

namespace Xv6

-- A pte_t* is the page of the table that holds the PTE and the index in it.
abbrev PteAddr := ℕ × ℕ

def Mem.read (mem : Mem) (a : PteAddr) : ℕ := mem.pte a.1 a.2

def setPte (a : PteAddr) (value : ℕ) : RamM Unit :=
  modify fun s => { s with mem := s.mem.setPte a.1 a.2 value }

def walkLevels (alloc : Bool) : (level pagetable va : ℕ) → RamM (Option PteAddr)
  | 0, pagetable, va => return some (pagetable, px 0 va)
  | level + 1, pagetable, va => do
      let pte := (← get).mem.pte pagetable (px (level + 1) va)
      if hasFlag pte PTE_V then walkLevels alloc level (pte2pa pte) va
      else if !alloc then return none
      else
        match ← kalloc with
        | none => return none
        | some page =>
            modify fun s => { s with mem := s.mem.memset page 0 }
            setPte (pagetable, px (level + 1) va) (pa2pte page ||| PTE_V)
            walkLevels alloc level page va

def walk (pagetable va : ℕ) (alloc : Bool) : RamM (Option PteAddr) := do
  if va ≥ MAXVA then throw .walk
  walkLevels alloc 2 pagetable va

-- walk(pagetable, va, 0) below MAXVA: it only reads.
def Mem.walk (mem : Mem) : (level pagetable va : ℕ) → Option PteAddr
  | 0, pagetable, va => some (pagetable, px 0 va)
  | level + 1, pagetable, va =>
      let pte := mem.pte pagetable (px (level + 1) va)
      if hasFlag pte PTE_V then mem.walk level (pte2pa pte) va else none

-- 0 when not mapped.
def walkaddr (mem : Mem) (pagetable va : ℕ) : ℕ :=
  if va ≥ MAXVA then 0
  else match mem.walk 2 pagetable va with
    | none => 0
    | some a =>
        let pte := mem.read a
        if !hasFlag pte PTE_V then 0
        else if !hasFlag pte PTE_U then 0
        else pte2pa pte

-- The loop of mappages; the fuel never runs out, since walk panics above MAXVA.
def mapLoop (pagetable last perm : ℕ) : (fuel a pa : ℕ) → RamM Int
  | 0, _, _ => throw .walk
  | fuel + 1, a, pa => do
      match ← walk pagetable a true with
      | none => return -1
      | some pte =>
          if hasFlag ((← get).mem.read pte) PTE_V then throw .mappagesRemap
          setPte pte (pa2pte pa ||| perm ||| PTE_V)
          if a = last then return 0
          else mapLoop pagetable last perm fuel (a + PGSIZE) (pa + 1)

def mappages (pagetable va size pa perm : ℕ) : RamM Int := do
  if size = 0 then throw .mappagesSize
  mapLoop pagetable (pgRoundDown ((va + size - 1) % 2 ^ 64)) perm (MAXVA / PGSIZE + 1)
    (pgRoundDown va) pa

def unmapLoop (pagetable : ℕ) (doFree : Bool) : (count a : ℕ) → RamM Unit
  | 0, _ => return
  | count + 1, a => do
      match ← walk pagetable a false with
      | none => throw .uvmunmapWalk
      | some pte =>
          let value := (← get).mem.read pte
          if !hasFlag value PTE_V then throw .uvmunmapNotMapped
          if pteFlags value = PTE_V then throw .uvmunmapNotLeaf
          if doFree then kfree (pte2pa value)
          setPte pte 0
          unmapLoop pagetable doFree count (a + PGSIZE)

def uvmunmap (pagetable va npages : ℕ) (doFree : Bool) : RamM Unit := do
  if va % PGSIZE ≠ 0 then throw .uvmunmapNotAligned
  unmapLoop pagetable doFree (((va + npages * PGSIZE) % 2 ^ 64 - va) / PGSIZE) va

def uvmcreate : RamM (Option ℕ) := do
  match ← kalloc with
  | none => return none
  | some page =>
      modify fun s => { s with mem := s.mem.memset page 0 }
      return some page

-- An int passed on as a uint64.
def intToUint64 (n : ℕ) : ℕ := if n % 2 ^ 32 < 2 ^ 31 then n % 2 ^ 32 else n % 2 ^ 32 + (2 ^ 64 - 2 ^ 32)

def uvmdealloc (pagetable oldsz newsz : ℕ) : RamM ℕ := do
  if newsz ≥ oldsz then return oldsz
  if pgRoundUp newsz < pgRoundUp oldsz then
    uvmunmap pagetable (pgRoundUp newsz)
      (intToUint64 ((pgRoundUp oldsz - pgRoundUp newsz) / PGSIZE)) true
  return newsz

-- The loop of uvmalloc from a on; oldsz is rounded up.
def allocLoop (pagetable oldsz newsz xperm : ℕ) : (count a : ℕ) → RamM ℕ
  | 0, _ => return newsz
  | count + 1, a => do
      match ← kalloc with
      | none =>
          let _ ← uvmdealloc pagetable a oldsz
          return 0
      | some page =>
          modify fun s => { s with mem := s.mem.memset page 0 }
          if (← mappages pagetable a PGSIZE page (PTE_R ||| PTE_U ||| xperm)) ≠ 0 then
            kfree page
            let _ ← uvmdealloc pagetable a oldsz
            return 0
          else allocLoop pagetable oldsz newsz xperm count (a + PGSIZE)

def uvmalloc (pagetable oldsz newsz xperm : ℕ) : RamM ℕ := do
  if newsz < oldsz then return oldsz
  allocLoop pagetable (pgRoundUp oldsz) newsz xperm
    ((newsz - pgRoundUp oldsz + PGSIZE - 1) / PGSIZE) (pgRoundUp oldsz)

-- freewalk recurses as deep as the table goes; depth bounds the recursion.
def freewalk : (depth pagetable : ℕ) → RamM Unit
  | 0, _ => throw .freewalkDepth
  | depth + 1, pagetable => do
      (List.range 512).forM fun i => do
        let pte := (← get).mem.pte pagetable i
        if hasFlag pte PTE_V && !hasFlag pte (PTE_R ||| PTE_W ||| PTE_X) then
          freewalk depth (pte2pa pte)
          setPte (pagetable, i) 0
        else if hasFlag pte PTE_V then throw .freewalkLeaf
      kfree pagetable

def uvmfree (pagetable sz : ℕ) : RamM Unit := do
  if sz > 0 then uvmunmap pagetable 0 (pgRoundUp sz / PGSIZE) true
  freewalk 3 pagetable

-- Unfolding it in passing would run freewalk over all entries of a table.
attribute [irreducible] uvmfree

def copyLoop (old new : ℕ) : (count i : ℕ) → RamM Int
  | 0, _ => return 0
  | count + 1, i => do
      match ← walk old i false with
      | none => throw .uvmcopyPte
      | some pte =>
          let value := (← get).mem.read pte
          if !hasFlag value PTE_V then throw .uvmcopyPresent
          match ← kalloc with
          | none =>
              uvmunmap new 0 (i / PGSIZE) true
              return -1
          | some page =>
              modify fun s => { s with mem := Function.update s.mem page (s.mem (pte2pa value)) }
              if (← mappages new i PGSIZE page (pteFlags value)) ≠ 0 then
                kfree page
                uvmunmap new 0 (i / PGSIZE) true
                return -1
              else copyLoop old new count (i + PGSIZE)

def uvmcopy (old new sz : ℕ) : RamM Int := copyLoop old new ((sz + PGSIZE - 1) / PGSIZE) 0

def uvmclear (pagetable va : ℕ) : RamM Unit := do
  match ← walk pagetable va false with
  | none => throw .uvmclear
  | some pte =>
      let value := (← get).mem.read pte
      setPte pte (if hasFlag value PTE_U then value - PTE_U else value)

-- copyout's loop; every pass copies at least one byte, so len bounds the passes.
def copyoutLoop (pagetable : ℕ) : (fuel : ℕ) → Mem → (dstva : ℕ) → (ℕ → UInt8) → (len : ℕ) → Mem × Int
  | 0, mem, _, _, _ => (mem, 0)
  | fuel + 1, mem, dstva, src, len =>
      if len = 0 then (mem, 0)
      else
        let va0 := pgRoundDown dstva
        let pa0 := walkaddr mem pagetable va0
        if pa0 = 0 then (mem, -1)
        else
          let n := min (PGSIZE - (dstva - va0)) len
          copyoutLoop pagetable fuel (mem.memmove pa0 (dstva - va0) src n) (va0 + PGSIZE)
            (fun i => src (n + i)) (len - n)

def copyout (mem : Mem) (pagetable dstva : ℕ) (src : ℕ → UInt8) (len : ℕ) : Mem × Int :=
  copyoutLoop pagetable len mem dstva src len

def Mem.bytes (mem : Mem) (pa offset n : ℕ) : List UInt8 := (List.range n).map fun k => mem pa (offset + k)

-- copyin's loop, as copyout's; the bytes are those it has copied.
def copyinLoop (mem : Mem) (pagetable : ℕ) : (fuel srcva len : ℕ) → List UInt8 × Int
  | 0, _, _ => ([], 0)
  | fuel + 1, srcva, len =>
      if len = 0 then ([], 0)
      else
        let va0 := pgRoundDown srcva
        let pa0 := walkaddr mem pagetable va0
        if pa0 = 0 then ([], -1)
        else
          let n := min (PGSIZE - (srcva - va0)) len
          let (rest, r) := copyinLoop mem pagetable fuel (va0 + PGSIZE) (len - n)
          (mem.bytes pa0 (srcva - va0) n ++ rest, r)

def copyin (mem : Mem) (pagetable srcva len : ℕ) : List UInt8 × Int := copyinLoop mem pagetable len srcva len

-- copyinstr's loop: up to the first NUL, which is copied too.
def copyinstrLoop (mem : Mem) (pagetable : ℕ) : (fuel srcva max : ℕ) → List UInt8 × Int
  | 0, _, _ => ([], -1)
  | fuel + 1, srcva, max =>
      if max = 0 then ([], -1)
      else
        let va0 := pgRoundDown srcva
        let pa0 := walkaddr mem pagetable va0
        if pa0 = 0 then ([], -1)
        else
          let n := min (PGSIZE - (srcva - va0)) max
          let chunk := mem.bytes pa0 (srcva - va0) n
          if 0 ∈ chunk then (chunk.takeWhile (· ≠ 0) ++ [0], 0)
          else
            let (rest, r) := copyinstrLoop mem pagetable fuel (va0 + PGSIZE) (max - n)
            (chunk ++ rest, r)

def copyinstr (mem : Mem) (pagetable srcva max : ℕ) : List UInt8 × Int := copyinstrLoop mem pagetable max srcva max

end Xv6
