import Xv6.Kernel.Sbrk
import Xv6.Umalloc.Theorems

namespace Xv6.Umalloc

open Chain Transition Wp KernelM Kernel

variable {p : Slot} {s : Kernel}

-- p->sz after growproc(n); none if uvmalloc fails, which it does at the latest when the
-- process would have more than the physical memory.
def growproc (room : Bool) (sz : ℕ) (n : BitVec 32) : Option ℕ :=
  if 0 < n.toInt then
    if room ∧ sz + n.toNat ≤ PHYSTOP - KERNBASE then some (sz + n.toNat) else none
  else if n.toInt < 0 then
    let newsz := (((sz : Int) + n.toInt) % 2 ^ 64).toNat
    some (if newsz ≥ sz then sz else newsz)
  else some sz

theorem growproc_state {n : Int} :
    wp (Xv6.growproc p n) (fun _ t => (t.proc p).state = (s.proc p).state) (fun _ => True) s := by
  have hset : ∀ (ram : Ram) (sz : ℕ),
      (((s.withRam ram).setProc p fun q => { q with sz := sz }).proc p).state = (s.proc p).state := fun ram sz =>
    (congrArg UserProc.state (setProc_self (s.withRam ram) p fun q => { q with sz := sz })).trans rfl
  unfold Xv6.growproc
  simp only [wp_bind, wp_get]
  cases (s.proc p).pagetable with
  | none => trivial
  | some pt =>
      rw [wp_pointer]
      split
      · rw [wp_bind, wp_ram]
        refine wp_of_forall (fun sz ram => ?_) fun _ => trivial
        split
        · rfl
        · exact hset ram sz
      · split
        · rw [wp_bind, wp_ram]
          exact wp_of_forall (fun sz ram => hset ram sz) fun _ => trivial
        · rfl

-- What sbrk does to p->sz in the kernel.
theorem sysSbrk_growproc (h : s.Reachable) (hp : (s.proc p).Running) (n : BitVec 32) (fail : List Bool) :
    wp (sysSbrk p n) (fun r t => ∃ room, match growproc room (s.proc p).sz n with
      | none => r = -1 ∧ (t.proc p).sz = (s.proc p).sz
      | some sz => r = (s.proc p).sz ∧ (t.proc p).sz = sz) (fun _ => False)
      (s.withRam { s.files.ram with fail := fail }) := by
  obtain ⟨P, pipes, hinv⟩ := h.withFail fail
  have hphys : PHYSTOP - KERNBASE = 2 ^ 27 := by decide
  have hsz : (s.proc p).sz ≤ PHYSTOP - KERNBASE := hinv.sz_le hp.1
  have hlo := n.le_toInt
  have hhi := n.toInt_lt
  unfold sysSbrk
  simp only [wp_bind, wp_get]
  by_cases hpos : 0 < n.toInt
  · have hnat : (n.toNat : Int) = n.toInt := by
      rw [BitVec.toInt_eq_toNat_cond] at hpos ⊢
      split at hpos
      · rw [if_pos (by assumption)]
      · omega
    refine wp_mono (wp_and (growproc_spec hinv hp.1 hlo hhi) growproc_state) (fun r t ht => ?_) fun _ he => he.1
    obtain ⟨⟨⟨Q, hinv'⟩, -, hres⟩, hstate⟩ := ht
    have hsz' : (t.proc p).sz ≤ PHYSTOP - KERNBASE := hinv'.sz_le (hstate.symm ▸ hp.1)
    rcases hres with ⟨rfl, hnew⟩ | ⟨rfl, hsame, -⟩
    · change ((t.proc p).sz : Int) = if 0 ≤ ((s.proc p).sz : Int) + n.toInt then ((s.proc p).sz : Int) + n.toInt
        else (s.proc p).sz at hnew
      rw [if_pos (by omega)] at hnew
      refine ⟨true, ?_⟩
      rw [growproc, if_pos hpos, if_pos ⟨rfl, by omega⟩]
      refine ⟨rfl, ?_⟩
      omega
    · refine ⟨false, ?_⟩
      rw [growproc, if_pos hpos, if_neg (by simp)]
      exact ⟨rfl, hsame⟩
  · refine wp_mono (wp_and (growproc_spec hinv hp.1 hlo hhi) (growproc_nonpos (by omega))) (fun r t ht => ?_)
      fun _ he => he.1
    obtain ⟨⟨-, -, hres⟩, rfl⟩ := ht
    rcases hres with ⟨-, hnew⟩ | ⟨hneg, -⟩
    · change ((t.proc p).sz : Int) = if 0 ≤ ((s.proc p).sz : Int) + n.toInt then ((s.proc p).sz : Int) + n.toInt
        else (s.proc p).sz at hnew
      refine ⟨true, ?_⟩
      rw [growproc, if_neg hpos]
      by_cases hneg : n.toInt < 0
      · rw [if_pos hneg]
        refine ⟨rfl, ?_⟩
        split at hnew
        · rw [Int.emod_eq_of_lt (by omega) (by omega), if_neg (by omega)]
          omega
        · rw [if_pos (by omega)]
          omega
      · rw [if_neg hneg]
        refine ⟨rfl, ?_⟩
        split at hnew <;> omega
    · cases hneg

namespace Heap

variable {room : ℕ → Bool} {fill : ℕ → ℕ → UInt8} {t : Heap} {fuel : ℕ}

-- sbrk of the kernel: the end of the heap is p->sz. The memory that is new has any contents.
def sysSbrk (room : Bool) (fill : ℕ → UInt8) (h : Heap) (n : BitVec 32) : Option (ℕ × Heap) :=
  match growproc room h.top n with
  | none => none
  | some sz => some (h.top, { h with
      mem := fun x => if h.top ≤ x ∧ x < sz then fill x else h.mem x
      top := sz
      regions := if h.top < sz then (h.top, sz - h.top) :: h.regions
        else h.regions.map fun r => (r.1, min r.2 (sz - r.1)) })

-- The int that sbrk receives when morecore asks for n bytes.
def sbrkArg (n : ℕ) : BitVec 32 := BitVec.ofNat 32 n

def sysMalloc (room : ℕ → Bool) (fill : ℕ → ℕ → UInt8) (fuel : ℕ) (h : Heap) (nbytes : ℕ) : Option (ℕ × Heap) :=
  mallocOf (fun calls h n => h.sysSbrk (room calls) (fill calls) (sbrkArg n)) fuel h nbytes

-- The steps of a program whose requests stay below 2 ^ 31 bytes.
inductive SysStep (h : Heap) : Heap → Prop
  | malloc {t : Heap} (fuel nbytes ap : ℕ) (room : ℕ → Bool) (fill : ℕ → ℕ → UInt8)
      (hfits : HEADER * nunits nbytes < 2 ^ 31) (hrun : h.sysMalloc room fill fuel nbytes = some (ap, t)) :
      SysStep h (t.give ap)
  | free {t : Heap} (fuel : ℕ) (block : ℕ × ℕ) (hlive : block ∈ h.live)
      (hrun : h.free fuel (block.1 + HEADER) = some t) : SysStep h { t with live := t.live.erase block }
  | store (mem : ℕ → UInt8)
      (hmem : ∀ x, (∀ block ∈ h.live, ¬(block.1 + HEADER ≤ x ∧ x < block.1 + HEADER * block.2)) → mem x = h.mem x) :
      SysStep h { h with mem := mem }

variable {h : Heap}

theorem toInt_sbrkArg {n : ℕ} (hn : n < 2 ^ 31) : (sbrkArg n).toInt = n ∧ (sbrkArg n).toNat = n := by
  have hnat : (sbrkArg n).toNat = n := by
    rw [sbrkArg, BitVec.toNat_ofNat]
    omega
  refine ⟨?_, hnat⟩
  rw [BitVec.toInt_eq_toNat_of_lt (by omega), hnat]

-- A request below 2 ^ 31 bytes is the int that sbrk gets, and the heap grows by it.
theorem sysSbrk_grows {room : Bool} {fill : ℕ → UInt8} {n : ℕ} {r : ℕ × Heap} (hpos : 0 < n) (hn : n < 2 ^ 31)
    (hrun : h.sysSbrk room fill (sbrkArg n) = some r) :
    h.top + n ≤ PHYSTOP - KERNBASE ∧ r = (h.top, { h with
      mem := fun x => if h.top ≤ x ∧ x < h.top + n then fill x else h.mem x
      top := h.top + n
      regions := (h.top, n) :: h.regions }) := by
  obtain ⟨hint, hnat⟩ := toInt_sbrkArg hn
  unfold sysSbrk growproc at hrun
  rw [hint, hnat, if_pos (by omega)] at hrun
  split_ifs at hrun with hroom
  · dsimp only at hrun
    rw [if_pos (by omega), Nat.add_sub_cancel_left, Option.some.injEq] at hrun
    exact ⟨hroom.2, hrun.symm⟩

theorem supplies_sysSbrk (room : ℕ → Bool) (fill : ℕ → ℕ → UInt8) (htotal : h.total ≤ h.top) :
    Supplies (fun calls h n => h.sysSbrk (room calls) (fill calls) (sbrkArg n)) (PHYSTOP - KERNBASE) h := by
  intro calls n r hpos hn hrun
  have hphys : PHYSTOP - KERNBASE < 2 ^ 64 := by decide
  obtain ⟨hroom, rfl⟩ := sysSbrk_grows hpos hn hrun
  refine ⟨_, le_rfl, by omega, by omega, fun x hx => ?_, rfl⟩
  exact if_neg fun hin => absurd hx hin.1.not_gt

theorem moreBytes_pos (nu : ℕ) : 0 < moreBytes nu := by
  unfold moreBytes HEADER
  split_ifs <;> omega

theorem le_moreBytes (nu : ℕ) : HEADER * nu ≤ moreBytes nu := by
  unfold moreBytes HEADER
  split_ifs <;> omega

theorem moreBytes_lt {nu : ℕ} (hfits : HEADER * nu < 2 ^ 31) : moreBytes nu < 2 ^ 31 := by
  unfold moreBytes
  unfold HEADER at hfits ⊢
  split_ifs <;> omega

theorem ready_top (h : Heap) : h.ready.top = h.top ∧ h.ready.regions = h.regions := by
  unfold Heap.ready
  split_ifs <;> exact ⟨rfl, rfl⟩

-- malloc leaves the end of the heap where it is, or moves it by what morecore asks for.
theorem Grown.sys {nu : ℕ} (hfits : HEADER * nu < 2 ^ 31)
    (hgrown : Grown (fun calls h n => h.sysSbrk (room calls) (fill calls) (sbrkArg n)) h.ready nu t) :
    t.top = h.top ∧ t.regions = h.regions ∨
      t.top = h.top + moreBytes nu ∧ t.regions = (h.top, moreBytes nu) :: h.regions := by
  obtain ⟨htop, hregions⟩ := ready_top h
  rcases hgrown with ⟨hsame, hsame'⟩ | ⟨calls, r, hrun, hnew, hnew'⟩
  · exact .inl ⟨hsame.trans htop, hsame'.trans hregions⟩
  · obtain ⟨-, rfl⟩ := sysSbrk_grows (moreBytes_pos nu) (moreBytes_lt hfits) hrun
    dsimp only at hnew hnew'
    rw [htop] at hnew hnew'
    rw [hregions] at hnew'
    exact .inr ⟨hnew, hnew'⟩

-- In every state of a run: the heap is well-formed, and what sbrk gave out lies below its end.
structure Sound (h : Heap) : Prop where
  good : h.Good (PHYSTOP - KERNBASE)
  total_le : h.total ≤ h.top

theorem phys_lt : PHYSTOP - KERNBASE < 2 ^ 36 := by decide

theorem Sound.malloc_result (sound : h.Sound) {nbytes : ℕ} (hfits : HEADER * nunits nbytes < 2 ^ 31)
    {r : ℕ × Heap} (hrun : h.sysMalloc room fill fuel nbytes = some r) :
    (r = (0, h.ready) ∨ Served h h.live (PHYSTOP - KERNBASE) (nunits nbytes) r) ∧
      (r.2.top = h.top ∧ r.2.regions = h.regions ∨ r.2.top = h.top + moreBytes (nunits nbytes) ∧
        r.2.regions = (h.top, moreBytes (nunits nbytes)) :: h.regions) := by
  have htotal : h.ready.total ≤ h.ready.top := by
    rw [Heap.total, (ready_top h).2, (ready_top h).1]
    exact sound.total_le
  obtain ⟨hresult, hgrown⟩ :=
    sound.good.mallocOf_result phys_lt (supplies_sysSbrk room fill htotal) hfits hrun
  exact ⟨hresult, hgrown.sys hfits⟩

theorem free_top {ap : ℕ} (hrun : h.free fuel ap = some t) :
    t.top = h.top ∧ t.regions = h.regions := by
  unfold Heap.free at hrun
  dsimp only at hrun
  split at hrun
  · cases hrun
  · rw [Option.some.injEq] at hrun
    rw [← hrun]
    exact ⟨rfl, rfl⟩

theorem give_top (ap : ℕ) (h : Heap) : (h.give ap).top = h.top := by
  unfold Heap.give
  split_ifs <;> rfl

theorem Sound.step (sound : h.Sound) (hstep : SysStep h t) : t.Sound := by
  have htotal := sound.total_le
  cases hstep with
  | @malloc t fuel nbytes ap room fill hfits hrun =>
      obtain ⟨hresult, hgrown⟩ := sound.malloc_result hfits hrun
      refine ⟨sound.good.give hresult, ?_⟩
      rw [give_total, give_top]
      unfold Heap.total at htotal ⊢
      rcases hgrown with ⟨htop, hregions⟩ | ⟨htop, hregions⟩
      · rw [htop, hregions]
        exact htotal
      · rw [htop, hregions, List.map_cons, List.sum_cons]
        omega
  | @free t fuel block hlive hrun =>
      refine ⟨sound.good.erase phys_lt hlive hrun, ?_⟩
      obtain ⟨htop, hregions⟩ := free_top hrun
      change (t.regions.map Prod.snd).sum ≤ t.top
      rw [htop, hregions]
      exact htotal
  | store mem hmem => exact ⟨sound.good.store hmem, htotal⟩

-- A program that was loaded below top, and whose requests were below 2 ^ 31 bytes, gets what
-- it asks for: the units recorded, memory that sbrk gave out, and a heap that is longer by
-- what morecore asked for, if it asked. From 2 ^ 31 on the int that sbrk gets is another number.
theorem malloc_obtained {mem : ℕ → UInt8} {base top : ℕ} (hbase : 0 < base) (hbelow : base + HEADER ≤ top)
    (htop : top ≤ 2 ^ 64) (hrun : Reaches SysStep (start mem base top) h) {nbytes ap : ℕ}
    (hmalloc : h.sysMalloc room fill fuel nbytes = some (ap, t)) (hap : ap ≠ 0) :
    HEADER * nunits nbytes < 2 ^ 31 ↔
      HEADER ≤ ap ∧ size t.mem (ap - HEADER) = nunits nbytes ∧ HEADER + nbytes ≤ HEADER * nunits nbytes ∧
      (∀ x, ap - HEADER ≤ x → x < ap - HEADER + HEADER * nunits nbytes → t.Given x) ∧
      (sbrkArg (moreBytes (nunits nbytes))).toInt = moreBytes (nunits nbytes) ∧
      (t.top = h.top ∧ t.regions = h.regions ∨ t.top = h.top + moreBytes (nunits nbytes) ∧
        t.regions = (h.top, moreBytes (nunits nbytes)) :: h.regions) := by
  have sound : h.Sound :=
    hrun.invariant Sound ⟨good_start mem hbase hbelow htop, Nat.zero_le _⟩ fun s t sound hstep => sound.step hstep
  refine ⟨fun hfits => ?_, fun ⟨_, _, _, _, harg, _⟩ => ?_⟩
  swap
  · have hle : HEADER * nunits nbytes ≤ moreBytes (nunits nbytes) := le_moreBytes _
    have hlt := (sbrkArg (moreBytes (nunits nbytes))).toInt_lt
    omega
  obtain ⟨hresult, hgrown⟩ := sound.malloc_result hfits hmalloc
  rcases hresult with hfail | hserved
  · cases hfail
    exact absurd rfl hap
  · obtain ⟨c, l', hc, hn, inv⟩ := hserved.inv
    dsimp only at hc inv
    have hstart : ap - HEADER = c.1 := by
      rw [hc, Nat.add_sub_cancel]
    have hsize := (inv.sizes c List.mem_cons_self).1
    rw [hn] at hsize
    rw [hstart]
    refine ⟨hc ▸ Nat.le_add_left _ _, hsize, le_nunits nbytes, fun x hx hlt => ?_,
      (toInt_sbrkArg (moreBytes_lt hfits)).1, hgrown⟩
    refine (inv.given x).mpr (.inr ⟨c, List.mem_cons_self, hx, ?_⟩)
    rw [hn]
    exact hlt

-- A malloc(65536) after a malloc(100): the heap grows a second time.
theorem malloc_obtained_second : ∃ h ap t, Reaches SysStep (start (fun _ => 0) 4096 8192) h ∧
    h.sysMalloc (fun _ => true) (fun _ _ => 0) 8 65536 = some (ap, t) ∧ size t.mem (ap - HEADER) = 4097 ∧
    t.regions = [(73728, 65552), (8192, 65536)] ∧
    ∀ x, ap - HEADER ≤ x → x < ap - HEADER + HEADER * 4097 → t.Given x := by
  obtain ⟨⟨ap₁, t₁⟩, hfirst, hsecond⟩ := exists_of_any
    (r := (start (fun _ => 0) 4096 8192).sysMalloc (fun _ => true) (fun _ _ => 0) 8 100)
    (P := fun r => ((r.2.give r.1).sysMalloc (fun _ => true) (fun _ _ => 0) 8 65536).any fun r =>
      decide (r.1 ≠ 0 ∧ r.2.regions = [(73728, 65552), (8192, 65536)])) (by decide +kernel)
  obtain ⟨⟨ap, t⟩, hmalloc, hap, hregions⟩ := exists_of_any hsecond
  have hrun : Reaches SysStep _ (t₁.give ap₁) := .single (.malloc 8 100 ap₁ _ _ (by decide) hfirst)
  obtain ⟨-, hsize, -, hgiven, -⟩ :=
    (malloc_obtained (by decide) (by decide) (by decide) hrun hmalloc hap).mp (by decide)
  exact ⟨_, ap, t, hrun, hmalloc, hsize, hregions, hgiven⟩

-- malloc(0xffffffff) asks sbrk for 16 bytes, and returns a block of 2 ^ 28 + 1 units.
theorem malloc_wraps : ∃ ap t, (start (fun _ => 0) 4096 8192).sysMalloc (fun _ => true) (fun _ _ => 0) 8 (2 ^ 32 - 1) =
    some (ap, t) ∧ ap ≠ 0 ∧ size t.mem (ap - HEADER) = 2 ^ 28 + 1 ∧ t.regions = [(8192, 16)] ∧ t.top = 8208 ∧
    (sbrkArg (moreBytes (nunits (2 ^ 32 - 1)))).toInt = 16 ∧ moreBytes (nunits (2 ^ 32 - 1)) = 2 ^ 32 + 16 := by
  have hrun : ((start (fun _ => 0) 4096 8192).sysMalloc (fun _ => true) (fun _ _ => 0) 8 (2 ^ 32 - 1)).map
      (fun r => decide (r.1 ≠ 0 ∧ size r.2.mem (r.1 - HEADER) = 2 ^ 28 + 1 ∧ r.2.regions = [(8192, 16)] ∧
        r.2.top = 8208)) = some true := by decide +kernel
  obtain ⟨⟨ap, t⟩, hmalloc, hresult⟩ := Option.map_eq_some_iff.mp hrun
  obtain ⟨hap, hsize, hregions, htop⟩ := of_decide_eq_true hresult
  exact ⟨ap, t, hmalloc, hap, hsize, hregions, htop, by decide, by decide⟩

end Heap

end Xv6.Umalloc
