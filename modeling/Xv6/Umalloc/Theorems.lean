import Xv6.Umalloc.Malloc

namespace Xv6.Umalloc

open Chain Transition

namespace Heap

section Fuel

variable {h : Heap}

theorem free_more {ap fuel : ℕ} {t : Heap} (hrun : h.free fuel ap = some t) (more : ℕ) :
    h.free (fuel + more) ap = some t := by
  unfold Heap.free at hrun ⊢
  dsimp only at hrun ⊢
  cases hfind : findPlace h.mem (ap - HEADER) fuel h.freep with
  | none =>
      rw [hfind] at hrun
      cases hrun
  | some p =>
      rw [hfind] at hrun
      rw [findPlace_more hfind more]
      exact hrun

variable {sbrk : ℕ → Heap → ℕ → Option (ℕ × Heap)}

theorem morecore_more {fuel calls nu : ℕ} {r : ℕ × Heap} (hrun : morecore sbrk fuel calls h nu = some r)
    (more : ℕ) : morecore sbrk (fuel + more) calls h nu = some r := by
  unfold Heap.morecore at hrun ⊢
  dsimp only at hrun ⊢
  split at hrun
  · exact hrun
  · split at hrun
    · cases hrun
    · next heq =>
        rw [free_more heq more]
        exact hrun

theorem mallocLoop_more {n fuel calls prevp p : ℕ} {r : ℕ × Heap}
    (hrun : mallocLoop sbrk n fuel calls prevp p h = some r) (more : ℕ) :
    mallocLoop sbrk n (fuel + more) calls prevp p h = some r := by
  induction fuel generalizing h calls prevp p with
  | zero => cases hrun
  | succ fuel ih =>
      rw [Nat.add_right_comm, mallocLoop]
      rw [mallocLoop] at hrun
      split_ifs at hrun ⊢ with hfit hfreep
      · exact hrun
      · cases hmore : morecore sbrk fuel calls h n with
        | none =>
            rw [hmore] at hrun
            cases hrun
        | some s =>
            rw [hmore] at hrun
            rw [morecore_more hmore more]
            dsimp only at hrun ⊢
            split_ifs at hrun ⊢ with hzero
            · exact hrun
            · exact ih hrun
      · exact ih hrun

theorem supplies_sbrk (limit : ℕ) (gaps : ℕ → Option ℕ) (h : Heap) :
    Supplies (fun calls h n => h.sbrk limit (gaps calls) n) limit h :=
  fun _ _ _ _ _ hrun => sbrk_cases hrun

end Fuel

theorem ready_of_pos {h : Heap} (hpos : 0 < h.freep) : h.ready = h := if_neg hpos.ne'

structure Unused (h : Heap) : Prop where
  freep : h.freep = 0
  live : h.live = []
  regions : h.regions = []
  base_pos : 0 < h.base
  below : h.base + HEADER ≤ h.top
  top_le : h.top ≤ 2 ^ 64

theorem Unused.ready {h : Heap} (hunused : h.Unused) : h.ready.Inv [] h.live := by
  have hbase : h.base < 2 ^ 64 := by
    have hbelow := hunused.below
    have htop := hunused.top_le
    unfold HEADER at hbelow
    omega
  unfold Heap.ready
  rw [if_pos hunused.freep, hunused.live]
  refine ⟨⟨?_, (size_setSize ..).trans rfl, by simp, List.Pairwise.nil, by simp⟩, List.mem_cons_self, by simp,
    List.Pairwise.nil, by simp, fun x => ?_, fun x hx => ?_, hunused.base_pos, hunused.below, hunused.top_le, ?_⟩
  · change ptr (setSize (setPtr h.mem h.base h.base) h.base 0) h.base = h.base
    rw [ptr_setSize_self, ptr_setPtr]
    exact Nat.mod_eq_of_lt hbase
  · simp [Given, Covers, hunused.regions]
  · simp [Given, hunused.regions] at hx
  · simp [Heap.total, hunused.regions]

structure Good (limit : ℕ) (h : Heap) : Prop where
  shape : h.Unused ∨ ∃ l, h.Inv l h.live
  total_le : h.total ≤ limit

variable {limit : ℕ} {h : Heap}

theorem Good.ready (good : h.Good limit) :
    ∃ l, h.ready.Inv l h.live ∧ h.ready.base = h.base ∧ h.ready.live = h.live ∧ h.ready.total ≤ limit := by
  rcases good.shape with hunused | ⟨l, inv⟩
  · refine ⟨[], hunused.ready, ?_⟩
    unfold Heap.ready
    rw [if_pos hunused.freep]
    exact ⟨rfl, rfl, good.total_le⟩
  · rw [ready_of_pos inv.freep_pos]
    exact ⟨l, inv, rfl, rfl, good.total_le⟩

end Heap

theorem nunits_pos (nbytes : ℕ) : 0 < nunits nbytes := Nat.succ_pos _

theorem le_nunits (nbytes : ℕ) : HEADER + nbytes ≤ HEADER * nunits nbytes := by
  unfold nunits HEADER
  omega

namespace Heap

variable {limit : ℕ} {h : Heap}

variable {r : ℕ × Heap}

section AnySbrk

variable {sbrk : ℕ → Heap → ℕ → Option (ℕ × Heap)}

-- malloc terminates; it returns 0, or the block that it says.
theorem Good.mallocOf (good : h.Good limit) (hlimit : limit < 2 ^ 36) (hsbrk : Supplies sbrk limit h.ready)
    {nbytes : ℕ} (hfits : HEADER * nunits nbytes < 2 ^ 31) :
    ∃ N r, (∀ more, mallocOf sbrk (N + more) h nbytes = some r) ∧
      (r = (0, h.ready) ∨ Served h h.live limit (nunits nbytes) r) ∧ Grown sbrk h.ready (nunits nbytes) r.2 := by
  obtain ⟨l, inv, hbase, hlive, htotal⟩ := good.ready
  obtain ⟨N, r, hrun, hresult, hgrown⟩ := inv.mallocLoop hsbrk hlimit (nunits_pos nbytes) hfits htotal
  refine ⟨N, r, hrun, hresult.imp_right fun hserved => ?_, hgrown⟩
  exact ⟨hserved.inv, hserved.base_eq.trans hbase, hserved.live_eq.trans hlive, hserved.total_le⟩

theorem Good.mallocOf_result (good : h.Good limit) (hlimit : limit < 2 ^ 36) (hsbrk : Supplies sbrk limit h.ready)
    {nbytes fuel : ℕ} (hfits : HEADER * nunits nbytes < 2 ^ 31) {r : ℕ × Heap}
    (hrun : Heap.mallocOf sbrk fuel h nbytes = some r) :
    (r = (0, h.ready) ∨ Served h h.live limit (nunits nbytes) r) ∧ Grown sbrk h.ready (nunits nbytes) r.2 := by
  obtain ⟨N, r', hrun', hresult⟩ := good.mallocOf hlimit hsbrk hfits
  have heq := hrun' fuel
  have hmore : Heap.mallocOf sbrk (fuel + N) h nbytes = some r := mallocLoop_more hrun N
  rw [Nat.add_comm, hmore, Option.some.injEq] at heq
  rwa [heq]

end AnySbrk

theorem Good.malloc (good : h.Good limit) (hlimit : limit < 2 ^ 36) {nbytes : ℕ}
    (hfits : HEADER * nunits nbytes < 2 ^ 31) (gaps : ℕ → Option ℕ) :
    ∃ N r, (∀ more, h.malloc limit gaps (N + more) nbytes = some r) ∧
      (r = (0, h.ready) ∨ Served h h.live limit (nunits nbytes) r) := by
  obtain ⟨N, r, hrun, hresult, -⟩ := good.mallocOf hlimit (supplies_sbrk limit gaps h.ready) hfits
  exact ⟨N, r, hrun, hresult⟩

theorem Good.malloc_result (good : h.Good limit) (hlimit : limit < 2 ^ 36) {nbytes fuel : ℕ}
    (hfits : HEADER * nunits nbytes < 2 ^ 31) {gaps : ℕ → Option ℕ} (hrun : h.malloc limit gaps fuel nbytes = some r) :
    r = (0, h.ready) ∨ Served h h.live limit (nunits nbytes) r :=
  (good.mallocOf_result hlimit (supplies_sbrk limit gaps h.ready) hfits hrun).1

theorem give_total (ap : ℕ) (h : Heap) : (h.give ap).total = h.total := by
  unfold Heap.give
  split_ifs <;> rfl

theorem Served.give {n : ℕ} (hserved : Served h h.live limit n r) :
    ∃ c l', r.1 = c.1 + HEADER ∧ c.2 = n ∧ (r.2.give r.1).live = c :: h.live ∧
      (r.2.give r.1).Inv l' (r.2.give r.1).live := by
  obtain ⟨c, l', hap, hn, inv⟩ := hserved.inv
  have hgive : r.2.give r.1 = { r.2 with live := c :: h.live } := by
    unfold Heap.give
    rw [if_neg (by rw [hap]; exact Nat.succ_ne_zero _), hap, Nat.add_sub_cancel,
      (inv.sizes c List.mem_cons_self).1, hserved.live_eq]
  refine ⟨c, l', hap, hn, by rw [hgive], ?_⟩
  rw [hgive]
  exact ⟨inv.list, inv.freep, inv.sizes, inv.live_apart, inv.free_apart, inv.given, inv.room, inv.base_pos, inv.below,
    inv.top_le, inv.total⟩

theorem Good.free (good : h.Good limit) (hlimit : limit < 2 ^ 36) {block : ℕ × ℕ} (hlive : block ∈ h.live) :
    ∃ N t l', (∀ more, h.free (N + more) (block.1 + HEADER) = some t) ∧ t.live = h.live ∧ t.total ≤ limit ∧
      t.Inv l' (h.live.erase block) := by
  rcases good.shape with hunused | ⟨l, inv⟩
  · rw [hunused.live] at hlive
    cases hlive
  · obtain ⟨N, mem, q, l', hrun, inv', -⟩ :=
      (inv.perm (List.perm_cons_erase hlive)).free (good.total_le.trans_lt hlimit)
    exact ⟨N, _, l', hrun, rfl, good.total_le, inv'⟩

theorem good_start (mem : ℕ → UInt8) {base top : ℕ} (hbase : 0 < base) (hbelow : base + HEADER ≤ top)
    (htop : top ≤ 2 ^ 64) : (start mem base top).Good limit :=
  ⟨.inl ⟨rfl, rfl, rfl, hbase, hbelow, htop⟩, Nat.zero_le limit⟩

theorem Good.give (good : h.Good limit) {n : ℕ}
    (hresult : r = (0, h.ready) ∨ Served h h.live limit n r) : (r.2.give r.1).Good limit := by
  rcases hresult with rfl | hserved
  · obtain ⟨l, inv, -, hlive, htotal⟩ := good.ready
    exact ⟨.inr ⟨l, hlive ▸ inv⟩, htotal⟩
  · obtain ⟨c, l', -, -, -, inv⟩ := hserved.give
    exact ⟨.inr ⟨l', inv⟩, (give_total r.1 _).trans_le hserved.total_le⟩

theorem Good.erase (good : h.Good limit) (hlimit : limit < 2 ^ 36) {fuel : ℕ} {block : ℕ × ℕ} {t : Heap}
    (hlive : block ∈ h.live) (hrun : h.free fuel (block.1 + HEADER) = some t) :
    ({ t with live := t.live.erase block } : Heap).Good limit := by
  obtain ⟨N, t', l', hrun', hlive', htotal, inv⟩ := good.free hlimit hlive
  have heq := hrun' fuel
  rw [Nat.add_comm, free_more hrun N, Option.some.injEq] at heq
  subst heq
  refine ⟨.inr ⟨l', ?_⟩, htotal⟩
  rw [← hlive'] at inv
  exact ⟨inv.list, inv.freep, inv.sizes, inv.live_apart, inv.free_apart, inv.given, inv.room, inv.base_pos,
    inv.below, inv.top_le, inv.total⟩

theorem Good.store (good : h.Good limit) {mem : ℕ → UInt8}
    (hmem : ∀ x, (∀ block ∈ h.live, ¬(block.1 + HEADER ≤ x ∧ x < block.1 + HEADER * block.2)) → mem x = h.mem x) :
    ({ h with mem := mem } : Heap).Good limit := by
  rcases good.shape with hunused | ⟨l, inv⟩
  · exact ⟨.inl ⟨hunused.freep, hunused.live, hunused.regions, hunused.base_pos, hunused.below, hunused.top_le⟩,
      good.total_le⟩
  · exact ⟨.inr ⟨l, inv.store hmem⟩, good.total_le⟩

theorem Good.step (good : h.Good limit) (hlimit : limit < 2 ^ 36) {t : Heap} (hstep : Step limit h t) :
    t.Good limit := by
  cases hstep with
  | malloc fuel nbytes ap gaps hfits hrun => exact good.give (good.malloc_result hlimit hfits hrun)
  | free fuel block hlive hrun => exact good.erase hlimit hlive hrun
  | store mem hmem => exact good.store hmem

-- With less than 2 ^ 36 bytes for the process: malloc and free terminate, the free list and the
-- live blocks share out the memory, and malloc returns 0 or as many bytes as were asked for.
theorem allocator_correct (hlimit : limit < 2 ^ 36) {mem : ℕ → UInt8} {base top : ℕ} (hbase : 0 < base)
    (hbelow : base + HEADER ≤ top) (htop : top ≤ 2 ^ 64) (hrun : Reaches (Step limit) (start mem base top) h) :
    (∀ nbytes gaps, HEADER * nunits nbytes < 2 ^ 31 → ∃ N r, ∀ more,
      h.malloc limit gaps (N + more) nbytes = some r) ∧
    (∀ block ∈ h.live, ∃ N t, ∀ more, h.free (N + more) (block.1 + HEADER) = some t) ∧
    (h.freep = 0 ∧ h.live = [] ∧ h.regions = [] ∨ ∃ l, h.Inv l h.live) ∧
    (∀ nbytes gaps fuel ap t, HEADER * nunits nbytes < 2 ^ 31 → h.malloc limit gaps fuel nbytes = some (ap, t) →
      ap ≠ 0 → HEADER ≤ ap ∧ (t.give ap).live = (ap - HEADER, nunits nbytes) :: h.live ∧
        HEADER + nbytes ≤ HEADER * nunits nbytes ∧ ∀ x, ap ≤ x → x < ap + nbytes → (t.give ap).Given x) := by
  have good : h.Good limit :=
    hrun.invariant (Good limit) (good_start mem hbase hbelow htop) fun s t good hstep => good.step hlimit hstep
  refine ⟨fun nbytes gaps hfits => ?_, fun block hlive => ?_, ?_, fun nbytes gaps fuel ap t hfits hmalloc hne => ?_⟩
  · obtain ⟨N, r, hmalloc, -⟩ := good.malloc hlimit hfits gaps
    exact ⟨N, r, hmalloc⟩
  · obtain ⟨N, t, -, hfree, -⟩ := good.free hlimit hlive
    exact ⟨N, t, hfree⟩
  · exact good.shape.imp_left fun hunused => ⟨hunused.freep, hunused.live, hunused.regions⟩
  · rcases good.malloc_result hlimit hfits hmalloc with hfail | hserved
    · cases hfail
      exact absurd rfl hne
    · obtain ⟨c, l', hap, hn, hlive, inv⟩ := hserved.give
      dsimp only at hap hlive inv
      have hle := le_nunits nbytes
      refine ⟨hap ▸ Nat.le_add_left _ _, ?_, hle, fun x hx hlt => (inv.given x).mpr (.inr ⟨c, ?_, ?_⟩)⟩
      · rw [hlive, hap, Nat.add_sub_cancel, ← hn]
      · rw [hlive]
        exact List.mem_cons_self
      · unfold Holds
        rw [hn]
        omega

-- After a first malloc(100).
theorem allocator_correct_first :
    ∃ h, Reaches (Step (2 ^ 27)) (start (fun _ => 0) 4096 8192) h ∧ h.live.length = 1 ∧
      (h.freep = 0 ∧ h.live = [] ∧ h.regions = [] ∨ ∃ l, h.Inv l h.live) := by
  have hlength : ((start (fun _ => 0) 4096 8192).malloc (2 ^ 27) (fun _ => some 0) 8 100).map
      (fun r => (r.2.give r.1).live.length) = some 1 := by decide +kernel
  obtain ⟨r, hmalloc, hone⟩ := Option.map_eq_some_iff.mp hlength
  have hrun : Reaches (Step (2 ^ 27)) (start (fun _ => 0) 4096 8192) (r.2.give r.1) :=
    .single (.malloc 8 100 r.1 (fun _ => some 0) (by decide) hmalloc)
  exact ⟨_, hrun, hone, (allocator_correct (by decide) (by decide) (by decide) (by decide) hrun).2.2.1⟩

end Heap

end Xv6.Umalloc
