import Xv6.Lib.Bytes
import Xv6.Lib.Chain
import Xv6.Lib.Transition

namespace Xv6.Umalloc

-- sizeof(Header)
def HEADER : ℕ := 16

-- p->s.ptr and p->s.size in the bytes of the process, by address
def ptr (mem : ℕ → UInt8) (p : ℕ) : ℕ := Bytes.load mem p 8

def size (mem : ℕ → UInt8) (p : ℕ) : ℕ := Bytes.load mem (p + 8) 4

def setPtr (mem : ℕ → UInt8) (p value : ℕ) : ℕ → UInt8 := Bytes.store mem p 8 value

def setSize (mem : ℕ → UInt8) (p value : ℕ) : ℕ → UInt8 := Bytes.store mem (p + 8) 4 value

-- The memory of the process, &base, freep, which is 0 at first, and the end of the memory
-- that sbrk has given out. What it has given out (address and bytes) and the live blocks
-- (header and size) are only looked at from outside.
structure Heap where
  mem : ℕ → UInt8
  base : ℕ
  freep : ℕ
  top : ℕ
  regions : List (ℕ × ℕ)
  live : List (ℕ × ℕ)

def Heap.total (h : Heap) : ℕ := (h.regions.map Prod.snd).sum

-- The search loop of free; none when the fuel runs out.
def findPlace (mem : ℕ → UInt8) (bp : ℕ) : (fuel p : ℕ) → Option ℕ
  | 0, _ => none
  | fuel + 1, p =>
      if bp > p ∧ bp < ptr mem p then some p
      else if p ≥ ptr mem p ∧ (bp > p ∨ bp < ptr mem p) then some p
      else findPlace mem bp fuel (ptr mem p)

-- if(bp + bp->s.size == p->s.ptr)
def joinNext (mem : ℕ → UInt8) (p bp : ℕ) : ℕ → UInt8 :=
  if bp + HEADER * size mem bp = ptr mem p then
    let mem' := setSize mem bp (size mem bp + size mem (ptr mem p))
    setPtr mem' bp (ptr mem' (ptr mem' p))
  else setPtr mem bp (ptr mem p)

-- if(p + p->s.size == bp)
def joinPrev (mem : ℕ → UInt8) (p bp : ℕ) : ℕ → UInt8 :=
  if p + HEADER * size mem p = bp then
    let mem' := setSize mem p (size mem p + size mem bp)
    setPtr mem' p (ptr mem' bp)
  else setPtr mem p bp

namespace Heap

def free (fuel : ℕ) (h : Heap) (ap : ℕ) : Option Heap :=
  let bp := ap - HEADER
  match findPlace h.mem bp fuel h.freep with
  | none => none
  | some p => some { h with mem := joinPrev (joinNext h.mem p bp) p bp, freep := p }

-- sbrk(n): it fails, or gives out zeroed memory some way above what it has given out before, as
-- long as there is memory for the process.
def sbrk (limit : ℕ) (h : Heap) (gap : Option ℕ) (n : ℕ) : Option (ℕ × Heap) :=
  match gap with
  | none => none
  | some gap =>
      let p := h.top + gap
      if h.total + n ≤ limit ∧ p + n < 2 ^ 64 then
        some (p, { h with
          mem := fun x => if p ≤ x ∧ x < p + n then 0 else h.mem x
          top := p + n
          regions := (p, n) :: h.regions })
      else none

-- The block p after prevp is large enough.
def take (h : Heap) (nunits prevp p : ℕ) : ℕ × Heap :=
  if size h.mem p = nunits then
    (p + HEADER, { h with mem := setPtr h.mem prevp (ptr h.mem p), freep := prevp })
  else
    let mem := setSize h.mem p (size h.mem p - nunits)
    let p := p + HEADER * size mem p
    (p + HEADER, { h with mem := setSize mem p nunits, freep := prevp })

end Heap

def nunits (nbytes : ℕ) : ℕ := (nbytes + HEADER - 1) / HEADER + 1

namespace Heap

def ready (h : Heap) : Heap :=
  if h.freep = 0 then
    { h with mem := setSize (setPtr h.mem h.base h.base) h.base 0, freep := h.base }
  else h

-- Over any sbrk, whose calls are numbered.
section AnySbrk

variable (sbrk : ℕ → Heap → ℕ → Option (ℕ × Heap))

-- freep, or 0
def morecore (fuel calls : ℕ) (h : Heap) (nu : ℕ) : Option (ℕ × Heap) :=
  let nu := if nu < 4096 then 4096 else nu
  match sbrk calls h (nu * HEADER) with
  | none => some (0, h)
  | some (p, h) =>
      match ({ h with mem := setSize h.mem p nu } : Heap).free fuel (p + HEADER) with
      | none => none
      | some h => some (h.freep, h)

def mallocLoop (nunits : ℕ) : (fuel calls prevp p : ℕ) → Heap → Option (ℕ × Heap)
  | 0, _, _, _, _ => none
  | fuel + 1, calls, prevp, p, h =>
      if size h.mem p ≥ nunits then some (h.take nunits prevp p)
      else if p = h.freep then
        match morecore sbrk fuel calls h nunits with
        | none => none
        | some (p, h) =>
            if p = 0 then some (0, h) else mallocLoop nunits fuel (calls + 1) p (ptr h.mem p) h
      else mallocLoop nunits fuel calls p (ptr h.mem p) h

def mallocOf (fuel : ℕ) (h : Heap) (nbytes : ℕ) : Option (ℕ × Heap) :=
  let h := h.ready
  mallocLoop sbrk (nunits nbytes) fuel 0 h.freep (ptr h.mem h.freep) h

end AnySbrk

def malloc (limit : ℕ) (gaps : ℕ → Option ℕ) : (fuel : ℕ) → Heap → (nbytes : ℕ) → Option (ℕ × Heap) :=
  mallocOf fun calls h n => h.sbrk limit (gaps calls) n

-- The block of a pointer that malloc has returned becomes live.
def give (ap : ℕ) (h : Heap) : Heap :=
  if ap = 0 then h else { h with live := (ap - HEADER, size h.mem (ap - HEADER)) :: h.live }

-- A call of malloc that needs fewer than 2 ^ 31 bytes, a call of free for a live block, or
-- stores of the program to its live blocks.
inductive Step (limit : ℕ) (h : Heap) : Heap → Prop
  | malloc {t : Heap} (fuel nbytes ap : ℕ) (gaps : ℕ → Option ℕ) (hfits : HEADER * nunits nbytes < 2 ^ 31)
      (hrun : h.malloc limit gaps fuel nbytes = some (ap, t)) : Step limit h (t.give ap)
  | free {t : Heap} (fuel : ℕ) (block : ℕ × ℕ) (hlive : block ∈ h.live)
      (hrun : h.free fuel (block.1 + HEADER) = some t) : Step limit h { t with live := t.live.erase block }
  | store (mem : ℕ → UInt8)
      (hmem : ∀ x, (∀ block ∈ h.live, ¬(block.1 + HEADER ≤ x ∧ x < block.1 + HEADER * block.2)) → mem x = h.mem x) :
      Step limit h { h with mem := mem }

-- The program has been loaded, with base below the heap.
def start (mem : ℕ → UInt8) (base top : ℕ) : Heap := ⟨mem, base, 0, top, [], []⟩

end Heap

end Xv6.Umalloc
