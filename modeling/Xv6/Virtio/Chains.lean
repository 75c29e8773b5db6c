import Mathlib.Data.Finset.Card
import Mathlib.Data.List.Pairwise
import Mathlib.Data.List.Perm.Basic
import Xv6.Virtio

namespace Xv6

namespace VirtioDisk

open Function (update update_of_ne)

variable {d d₀ : VirtioDisk}

variable {i : ℕ} {got : List ℕ} {d' : VirtioDisk}

-- The descriptors of got have been taken from d₀ and are not in use.
structure Took (d₀ : VirtioDisk) (got : List ℕ) (d : VirtioDisk) : Prop where
  free : ∀ i, d.free i = (d₀.free i && decide (i ∉ got))
  nodup : got.Nodup
  was : ∀ i ∈ got, i < NUM ∧ d₀.free i = true
  desc : ∀ i, d₀.free i = false → d.desc i = d₀.desc i
  same : d = { d₀ with desc := d.desc, free := d.free }

theorem Took.refl (d : VirtioDisk) : Took d [] d :=
  ⟨by simp, List.nodup_nil, by simp, fun _ _ => rfl, rfl⟩

-- free_desc where it does not panic.
def freed (d : VirtioDisk) (i : ℕ) : VirtioDisk :=
  { d with desc := update d.desc i ⟨.null, 0, 0, 0⟩, free := update d.free i true }

theorem freeDesc_eq (hi : i < NUM) (hfree : d.free i = false) : d.freeDesc i = .ok (d.freed i) := by
  unfold freeDesc
  rw [if_neg (by omega), hfree]
  rfl

theorem freeChain_next (turns : ℕ) (hi : i < NUM) (hfree : d.free i = false)
    (hnext : (d.desc i).flags &&& VRING_DESC_F_NEXT ≠ 0) :
    d.freeChain (turns + 1) i = (d.freed i).freeChain turns (d.desc i).next := by
  rw [freeChain, freeDesc_eq hi hfree]
  simp only [if_pos hnext]

theorem freeChain_last (turns : ℕ) (hi : i < NUM) (hfree : d.free i = false)
    (hlast : (d.desc i).flags &&& VRING_DESC_F_NEXT = 0) : d.freeChain (turns + 1) i = .ok (d.freed i) := by
  rw [freeChain, freeDesc_eq hi hfree]
  simp only [hlast, ne_eq, not_true_eq_false, if_false]

theorem Took.freeAll (h : Took d₀ got d) : ∃ d', d.freeAll got = .ok d' ∧ Took d₀ [] d' := by
  induction got generalizing d with
  | nil => exact ⟨d, rfl, h⟩
  | cons i got ih =>
      obtain ⟨hi, hfree⟩ := h.was i List.mem_cons_self
      have hnot := (List.nodup_cons.mp h.nodup).1
      unfold VirtioDisk.freeAll
      rw [freeDesc_eq hi (by rw [h.free]; simp)]
      refine ih ⟨fun j => ?_, (List.nodup_cons.mp h.nodup).2, fun j hj => h.was j (List.mem_cons_of_mem _ hj),
        fun j hj => ?_, ?_⟩
      · by_cases hj : j = i
        · rw [hj]
          simp [freed, hfree, hnot]
        · simp [freed, h.free, hj]
      · have hne : j ≠ i := by
          rintro rfl
          rw [hfree] at hj
          cases hj
        simpa [freed, update_of_ne hne] using h.desc j hj
      · rw [h.same]
        rfl

theorem allocDesc_some (h : d.allocDesc = some (i, d')) :
    i < NUM ∧ d.free i = true ∧ d' = { d with free := update d.free i false } := by
  unfold allocDesc at h
  split at h
  · rename_i j hj
    cases h
    exact ⟨List.mem_range.mp (List.mem_of_find?_eq_some hj), List.find?_some hj, rfl⟩
  · cases h

theorem Took.alloc (h : Took d₀ got d) (hi : d.allocDesc = some (i, d')) :
    Took d₀ (got ++ [i]) d' := by
  obtain ⟨hlt, hfree, rfl⟩ := allocDesc_some hi
  rw [h.free, Bool.and_eq_true, decide_eq_true_iff] at hfree
  refine ⟨fun j => ?_, ?_, fun j hj => ?_, h.desc, ?_⟩
  · by_cases hj : j = i
    · rw [hj]
      simp
    · simp [h.free, hj]
  · rw [List.nodup_append]
    refine ⟨h.nodup, List.nodup_singleton i, ?_⟩
    rintro a ha b hb rfl
    rw [List.mem_singleton] at hb
    rw [hb] at ha
    exact hfree.2 ha
  · rcases List.mem_append.mp hj with hj | hj
    · exact h.was j hj
    · rw [List.mem_singleton.mp hj]
      exact ⟨hlt, hfree.1⟩
  · rw [h.same]

theorem Took.allocLoop (h : Took d₀ got d) (count : ℕ) :
    (∃ got' d', VirtioDisk.allocLoop count got d = .ok (some got', d') ∧ got'.length = got.length + count ∧
      Took d₀ got' d') ∨ ∃ d', VirtioDisk.allocLoop count got d = .ok (none, d') ∧ Took d₀ [] d' := by
  induction count generalizing got d with
  | zero => exact .inl ⟨got, d, rfl, rfl, h⟩
  | succ count ih =>
      unfold VirtioDisk.allocLoop
      cases hi : d.allocDesc with
      | none =>
          obtain ⟨d', hd', htook⟩ := h.freeAll
          simp only [hd']
          exact .inr ⟨d', rfl, htook⟩
      | some out =>
          obtain ⟨i, d'⟩ := out
          simp only
          rcases ih (h.alloc hi) with ⟨got', d'', heq, hlen, htook⟩ | hnone
          · refine .inl ⟨got', d'', heq, ?_, htook⟩
            rw [hlen, List.length_append, List.length_singleton]
            omega
          · exact .inr hnone

structure Formatted (d : VirtioDisk) (r : VirtioReq) : Prop where
  op : d.ops r.idx0 =
    ⟨if r.write then VIRTIO_BLK_T_OUT else VIRTIO_BLK_T_IN, 0, r.blockno * (BSIZE / 512) % 2 ^ 32⟩
  desc0 : d.desc r.idx0 = ⟨.req r.idx0, 16, VRING_DESC_F_NEXT, r.idx1⟩
  desc1 : d.desc r.idx1 =
    ⟨.data r.b, BSIZE, (if r.write then 0 else VRING_DESC_F_WRITE) ||| VRING_DESC_F_NEXT, r.idx2⟩
  desc2 : d.desc r.idx2 = ⟨.status r.idx0, 1, VRING_DESC_F_WRITE, 0⟩
  buf : (d.info r.idx0).b = some r.b

theorem Formatted.congr {r : VirtioReq} (h : d.Formatted r) (hops : d'.ops r.idx0 = d.ops r.idx0)
    (hdesc : ∀ i ∈ r.idx, d'.desc i = d.desc i) (hinfo : (d'.info r.idx0).b = (d.info r.idx0).b) :
    d'.Formatted r := by
  refine ⟨hops.trans h.op, ?_, ?_, ?_, hinfo.trans h.buf⟩
  · rw [hdesc _ (by simp [VirtioReq.idx])]
    exact h.desc0
  · rw [hdesc _ (by simp [VirtioReq.idx])]
    exact h.desc1
  · rw [hdesc _ (by simp [VirtioReq.idx])]
    exact h.desc2

-- The descriptors that are not free are those of the chains in use, each in one chain.
structure Chains (d : VirtioDisk) (active : List VirtioReq) : Prop where
  lt : ∀ r ∈ active, ∀ i ∈ r.idx, i < NUM
  nodup : (active.flatMap VirtioReq.idx).Nodup
  free : ∀ i, i < NUM → (d.free i = false ↔ i ∈ active.flatMap VirtioReq.idx)
  format : ∀ r ∈ active, d.Formatted r

variable {active : List VirtioReq} {r r' : VirtioReq}

theorem Chains.not_free (h : Chains d active) (hr : r ∈ active) (hi : i ∈ r.idx) : d.free i = false :=
  (h.free i (h.lt r hr i hi)).mpr (List.mem_flatMap.mpr ⟨r, hr, hi⟩)

theorem Chains.apart (h : Chains d active) (hr : r ∈ active) (hr' : r' ∈ active) (hne : r ≠ r')
    (hi : i ∈ r.idx) : i ∉ r'.idx := by
  have hdisjoint := (List.nodup_flatMap.mp h.nodup).2
  have hsymm : Std.Symm (Function.onFun List.Disjoint VirtioReq.idx) := ⟨fun _ _ hab => hab.symm⟩
  exact hdisjoint.forall hr hr' hne hi

theorem Chains.head_inj (h : Chains d active) (hr : r ∈ active) (hr' : r' ∈ active) (heq : r.idx0 = r'.idx0) :
    r = r' := by
  by_contra hne
  have hmem : r.idx0 ∈ r'.idx := by simp [VirtioReq.idx, heq]
  exact h.apart hr hr' hne (by simp [VirtioReq.idx]) hmem

theorem Chains.distinct (h : Chains d active) (hr : r ∈ active) :
    r.idx0 ≠ r.idx1 ∧ r.idx0 ≠ r.idx2 ∧ r.idx1 ≠ r.idx2 := by
  have hidx := (List.nodup_flatMap.mp h.nodup).1 r hr
  simpa [VirtioReq.idx, and_assoc] using hidx

theorem Chains.list_nodup (h : Chains d active) : active.Nodup := by
  have hpair := (List.nodup_flatMap.mp h.nodup).2
  refine hpair.imp fun {a b} hab => ?_
  rintro rfl
  exact hab (a := a.idx0) (by simp [VirtioReq.idx]) (by simp [VirtioReq.idx])

-- Three of the NUM descriptors for each chain.
theorem Chains.length_le (h : Chains d active) : 3 * active.length ≤ NUM := by
  have hlen : (active.flatMap VirtioReq.idx).length = 3 * active.length := by
    clear h
    induction active with
    | nil => rfl
    | cons r active ih =>
        rw [List.flatMap_cons, List.length_append, ih, List.length_cons]
        change 3 + _ = _
        omega
  rw [← hlen, ← List.toFinset_card_of_nodup h.nodup]
  refine (Finset.card_le_card (t := Finset.range NUM) fun i hi => ?_).trans (Finset.card_range NUM).le
  rw [List.mem_toFinset] at hi
  obtain ⟨r, hr, hi⟩ := List.mem_flatMap.mp hi
  exact Finset.mem_range.mpr (h.lt r hr i hi)

theorem Chains.congr (h : Chains d active) (hfree : d'.free = d.free)
    (hformat : ∀ r ∈ active, d'.Formatted r) : Chains d' active :=
  ⟨h.lt, h.nodup, fun i hi => by rw [hfree]; exact h.free i hi, hformat⟩

theorem Chains.took_nil (h : Chains d active) (htook : Took d [] d') : Chains d' active := by
  have hfree : d'.free = d.free := by
    funext i
    simpa using htook.free i
  refine h.congr hfree fun r hr => (h.format r hr).congr ?_ (fun i hi => htook.desc i (h.not_free hr hi)) ?_
  · rw [htook.same]
  · rw [htook.same]

theorem Chains.format_cons (h : Chains d active) (htook : Took d r.idx d') :
    Chains (d'.format r) (r :: active) := by
  have hnew : ∀ i ∈ r.idx, ∀ r' ∈ active, i ∉ r'.idx := by
    intro i hi r' hr' hi'
    have hfree := (htook.was i hi).2
    rw [h.not_free hr' hi'] at hfree
    cases hfree
  have hidx := htook.nodup
  simp only [VirtioReq.idx, List.nodup_cons, List.mem_cons, List.not_mem_nil, or_false, not_or, not_false_eq_true,
    List.nodup_nil, and_true] at hidx
  obtain ⟨⟨h01, h02⟩, h12⟩ := hidx
  have hops : d'.ops = d.ops := by rw [htook.same]
  have hinfo : d'.info = d.info := by rw [htook.same]
  refine ⟨?_, ?_, fun i hi => ?_, ?_⟩
  · intro r' hr' i hi
    rcases List.mem_cons.mp hr' with rfl | hr'
    · exact (htook.was i hi).1
    · exact h.lt r' hr' i hi
  · rw [List.flatMap_cons, List.nodup_append]
    refine ⟨htook.nodup, h.nodup, ?_⟩
    rintro i hi j hj rfl
    obtain ⟨r', hr', hj⟩ := List.mem_flatMap.mp hj
    exact hnew i hi r' hr' hj
  · have hold := h.free i hi
    rw [List.flatMap_cons, List.mem_append, ← hold]
    change d'.free i = false ↔ _
    rw [htook.free]
    by_cases hmem : i ∈ r.idx <;> simp [hmem]
  · intro r' hr'
    rcases List.mem_cons.mp hr' with rfl | hr'
    · constructor <;> simp [VirtioDisk.format, h01, h02, h12]
    · have hkeep : ∀ i ∈ r'.idx, i ∉ r.idx := fun i hi hi' => hnew i hi' r' hr' hi
      have hhead := hkeep r'.idx0 (by simp [VirtioReq.idx])
      simp only [VirtioReq.idx, List.mem_cons, List.not_mem_nil, or_false, not_or] at hhead
      refine (h.format r' hr').congr ?_ (fun i hi => ?_) ?_
      · simp [VirtioDisk.format, hhead.1, hops]
      · have hne := hkeep i hi
        simp only [VirtioReq.idx, List.mem_cons, List.not_mem_nil, or_false, not_or] at hne
        simp only [VirtioDisk.format, update_of_ne hne.1, update_of_ne hne.2.1,
          update_of_ne hne.2.2]
        exact htook.desc i (h.not_free hr' hi)
      · simp [VirtioDisk.format, hhead.1, hinfo]

-- disk after free_chain of the chain of r
def returned (d : VirtioDisk) (r : VirtioReq) : VirtioDisk := ((d.freed r.idx0).freed r.idx1).freed r.idx2

-- free_chain frees the three descriptors of a chain, whatever info is.
theorem Chains.freeChain_eq (h : Chains d active) (hr : r ∈ active) {e : VirtioDisk} (hdesc : e.desc = d.desc)
    (hfree : e.free = d.free) : e.freeChain NUM r.idx0 = .ok (e.returned r) := by
  obtain ⟨h01, h02, h12⟩ := h.distinct hr
  have hformat := h.format r hr
  have hnot : ∀ i ∈ r.idx, i < NUM ∧ e.free i = false := fun i hi =>
    ⟨h.lt r hr i hi, hfree ▸ h.not_free hr hi⟩
  obtain ⟨hlt0, hfree0⟩ := hnot r.idx0 (by simp [VirtioReq.idx])
  obtain ⟨hlt1, hfree1⟩ := hnot r.idx1 (by simp [VirtioReq.idx])
  obtain ⟨hlt2, hfree2⟩ := hnot r.idx2 (by simp [VirtioReq.idx])
  have hdesc0 : e.desc r.idx0 = _ := hdesc ▸ hformat.desc0
  have hdesc1 : (e.freed r.idx0).desc r.idx1 = _ :=
    (update_of_ne h01.symm ..).trans (hdesc ▸ hformat.desc1)
  have hdesc2 : ((e.freed r.idx0).freed r.idx1).desc r.idx2 = _ :=
    (update_of_ne h12.symm ..).trans ((update_of_ne h02.symm ..).trans (hdesc ▸ hformat.desc2))
  have hnext : ((if r.write then 0 else VRING_DESC_F_WRITE) ||| VRING_DESC_F_NEXT) &&& VRING_DESC_F_NEXT ≠ 0 := by
    cases r.write <;> decide
  have hfirst : (e.desc r.idx0).flags &&& VRING_DESC_F_NEXT ≠ 0 := by
    rw [hdesc0]
    change VRING_DESC_F_NEXT &&& VRING_DESC_F_NEXT ≠ 0
    decide
  have hsecond : ((e.freed r.idx0).desc r.idx1).flags &&& VRING_DESC_F_NEXT ≠ 0 := by
    rw [hdesc1]
    exact hnext
  have hthird : (((e.freed r.idx0).freed r.idx1).desc r.idx2).flags &&& VRING_DESC_F_NEXT = 0 := by
    rw [hdesc2]
    change VRING_DESC_F_WRITE &&& VRING_DESC_F_NEXT = 0
    decide
  rw [show NUM = 5 + 1 + 1 + 1 from rfl, freeChain_next _ hlt0 hfree0 hfirst, hdesc0,
    freeChain_next _ hlt1 ((update_of_ne h01.symm ..).trans hfree1) hsecond, hdesc1]
  refine freeChain_last _ hlt2 ?_ hthird
  exact ((update_of_ne h12.symm ..).trans (update_of_ne h02.symm ..)).trans hfree2

theorem free_returned_iff (d : VirtioDisk) (r : VirtioReq) (i : ℕ) :
    (d.returned r).free i = false ↔ d.free i = false ∧ i ∉ r.idx := by
  simp only [returned, freed, Function.update_apply, VirtioReq.idx, List.mem_cons, List.not_mem_nil, or_false]
  split_ifs <;> simp_all

theorem desc_returned (d : VirtioDisk) (hi : i ∉ r.idx) : (d.returned r).desc i = d.desc i := by
  simp only [VirtioReq.idx, List.mem_cons, List.not_mem_nil, or_false, not_or] at hi
  simp only [returned, freed, update_of_ne hi.1, update_of_ne hi.2.1, update_of_ne hi.2.2]

-- The chain of r is given back, and info is cleared.
theorem Chains.erase (h : Chains d active) (hr : r ∈ active) {info : ℕ → VirtioInfo}
    (hinfo : ∀ i, i ≠ r.idx0 → info i = d.info i) :
    Chains (VirtioDisk.returned { d with info := info } r) (active.erase r) := by
  have hmem : ∀ {r'}, r' ∈ active.erase r → r' ≠ r ∧ r' ∈ active := fun hr' =>
    (List.Nodup.mem_erase_iff h.list_nodup).mp hr'
  refine ⟨fun r' hr' => h.lt r' (hmem hr').2, ?_, fun i hi => ?_, fun r' hr' => ?_⟩
  · obtain ⟨hidx, hpair⟩ := List.nodup_flatMap.mp h.nodup
    exact List.nodup_flatMap.mpr ⟨fun r' hr' => hidx r' (hmem hr').2, hpair.sublist List.erase_sublist⟩
  · rw [free_returned_iff, h.free i hi, List.mem_flatMap, List.mem_flatMap]
    constructor
    · rintro ⟨⟨r', hr', hi'⟩, hnot⟩
      have hne : r' ≠ r := by
        rintro rfl
        exact hnot hi'
      exact ⟨r', (List.Nodup.mem_erase_iff h.list_nodup).mpr ⟨hne, hr'⟩, hi'⟩
    · rintro ⟨r', hr', hi'⟩
      obtain ⟨hne, hr'⟩ := hmem hr'
      exact ⟨⟨r', hr', hi'⟩, h.apart hr' hr hne hi'⟩
  · obtain ⟨hne, hr'⟩ := hmem hr'
    have hhead : r'.idx0 ≠ r.idx0 := fun heq => hne (h.head_inj hr' hr heq)
    exact (h.format r' hr').congr rfl (fun i hi => desc_returned _ (h.apart hr' hr hne hi))
      (congrArg VirtioInfo.b (hinfo _ hhead))

end VirtioDisk

end Xv6
