import Xv6.Bio.Clients

namespace Xv6

namespace Bio

open Function (update update_of_ne update_self)

variable {p : ℕ} {i : Fin NBUF}

inductive Moves (s : Bio) : BioEvent → Bio → Prop
  | beginOp (p : ℕ) (hcommit : s.log.committing = false) :
      Moves s (.beginOp p)
        { s with log := { s.log with outstanding := s.log.outstanding + 1 }, ops := p :: s.ops }
  | endOp (p : ℕ) (hp : p ∈ s.ops) (hcommit : s.log.committing = false) :
      Moves s (.endOp p) { s with
        log := { s.log with
          outstanding := s.log.outstanding - 1, committing := decide (s.log.outstanding - 1 = 0) }
        ops := s.ops.erase p }
  | hit (p : ℕ) (blockno : UInt32) (i : Fin NBUF) (hi : s.cache.cached ROOTDEV blockno.toNat = some i) :
      Moves s (.bget p blockno)
        { s.setBuf i (fun b => { b with refcnt := b.refcnt + 1 }) with refs := (p, i) :: s.refs }
  | recycle (p : ℕ) (blockno : UInt32) (i : Fin NBUF) (hnone : s.cache.cached ROOTDEV blockno.toNat = none)
      (hi : s.cache.unused = some i) :
      Moves s (.bget p blockno)
        { s.setBuf i (fun b => { b with dev := ROOTDEV, blockno := blockno.toNat, valid := false, refcnt := 1 }) with
          refs := (p, i) :: s.refs }
  | bread (p : ℕ) (i : Fin NBUF) (hp : (p, i) ∈ s.refs) (hlock : (s.buf i).lock = none) :
      Moves s (.bread p i) (s.setBuf i fun b =>
        { b with lock := some p, valid := true, data := if b.valid then b.data else s.disk b.blockno })
  | store (p : ℕ) (i : Fin NBUF) (data : Block) (hlock : (s.buf i).lock = some p) :
      Moves s (.store p i data) { (s.setBuf i fun b => { b with data := data }).setDirty i true with
        last := update s.last (s.buf i).blockno data }
  | bwrite (p : ℕ) (i : Fin NBUF) (hlock : (s.buf i).lock = some p) :
      Moves s (.bwrite p i)
        { s.setDirty i false with disk := update s.disk (s.buf i).blockno (s.buf i).data }
  | absorb (p : ℕ) (i : Fin NBUF) (hlock : (s.buf i).lock = some p) (hop : 1 ≤ s.log.outstanding)
      (hin : (s.buf i).blockno ∈ s.log.lh) : Moves s (.logWrite p i) (s.setDirty i false)
  | logWrite (p : ℕ) (i : Fin NBUF) (hlock : (s.buf i).lock = some p) (hop : 1 ≤ s.log.outstanding)
      (hnew : (s.buf i).blockno ∉ s.log.lh) :
      Moves s (.logWrite p i) { (s.setDirty i false).setBuf i (fun b => { b with refcnt := b.refcnt + 1 }) with
        log := { s.log with lh := s.log.lh ++ [(s.buf i).blockno] }
        pins := (s.buf i).blockno :: s.pins }
  | bpin (p : ℕ) (i : Fin NBUF) : Moves s (.bpin p i) (s.bpin i)
  | bunpin (p : ℕ) (i : Fin NBUF) : Moves s (.bunpin p i) (s.bunpin i)
  | releasesleep (p : ℕ) (i : Fin NBUF) (hlock : (s.buf i).lock = some p) (hp : (p, i) ∈ s.refs)
      (hclean : s.dirty i = false) :
      Moves s (.releasesleep p i) { s.setBuf i (fun b => { b with lock := none }) with
        refs := s.refs.erase (p, i), leaving := (p, i) :: s.leaving }
  | stay (p : ℕ) (i : Fin NBUF) (hp : (p, i) ∈ s.leaving) (hused : (s.buf i).refcnt - 1 ≠ 0) :
      Moves s (.release p i) { s.setBuf i (fun b => { b with refcnt := b.refcnt - 1 }) with
        leaving := s.leaving.erase (p, i), clock := s.clock + 1 }
  | release (p : ℕ) (i : Fin NBUF) (hp : (p, i) ∈ s.leaving) (hunused : (s.buf i).refcnt - 1 = 0) :
      Moves s (.release p i) { s with
        cache := { s.cache.update i (fun b => { b with refcnt := b.refcnt - 1 }) with
          ring := (s.cache.ring.unlink i).pushFront i }
        leaving := s.leaving.erase (p, i)
        stamp := update s.stamp i (some s.clock)
        clock := s.clock + 1 }
  | clear (p : ℕ) : Moves s (.clear p) { s with log := { s.log with lh := [] } }
  | endCommit (p : ℕ) : Moves s (.endCommit p) { s with log := { s.log with committing := false } }

variable {s t : Bio} {e : BioEvent}

theorem logWrite_moves (h : s.logWrite p i = .ok t) : Moves s (.logWrite p i) t := by
  unfold logWrite at h
  split at h
  · cases h
  rename_i hlock
  rw [not_not] at hlock
  unfold Log.logWrite at h
  split at h
  · cases h
  · rename_i hlog
    split at hlog
    · cases hlog
    split at hlog
    · cases hlog
    rename_i hop
    split at hlog
    · rename_i hin
      cases hlog
      cases h
      exact .absorb p i hlock (by omega) hin
    · rename_i hnew
      cases hlog
      cases h
      exact .logWrite p i hlock (by omega) hnew

theorem release_moves (h : s.release p i = .ok t) : Moves s (.release p i) t := by
  unfold release at h
  split at h
  · cases h
  rename_i hp
  rw [not_not, List.contains_iff_mem] at hp
  cases h
  have hself : ((s.cache.update i fun b => { b with refcnt := b.refcnt - 1 }).buf i).refcnt = (s.buf i).refcnt - 1 := by
    simp [RingCache.update, buf]
  by_cases hunused : (s.buf i).refcnt - 1 = 0
  · simp only [RingCache.release, hself, hunused, if_true]
    exact .release p i hp hunused
  · simp only [RingCache.release, hself, hunused, if_false]
    exact .stay p i hp hunused

theorem endOp_moves (h : s.endOp p = .ok t) : Moves s (.endOp p) t := by
  unfold endOp at h
  split at h
  · cases h
  rename_i hp
  rw [not_not] at hp
  unfold Log.endOp at h
  split at h
  · cases h
  · rename_i hlog
    simp only at hlog
    split at hlog
    · cases hlog
    rename_i hcommit
    have hcommit : s.log.committing = false := by simpa using hcommit
    have hend : t = { s with
        log := { s.log with
          outstanding := s.log.outstanding - 1, committing := decide (s.log.outstanding - 1 = 0) }
        ops := s.ops.erase p } := by
      split at hlog
      · rename_i hzero
        cases hlog
        cases h
        simp [hzero]
      · rename_i hzero
        cases hlog
        cases h
        simp [hzero, hcommit]
    rw [hend]
    exact .endOp p hp hcommit

theorem bget_moves {blockno : UInt32} (h : s.bget p blockno = .ok t) : Moves s (.bget p blockno) t := by
  unfold bget RingCache.bget at h
  split at h
  · cases h
  · rename_i hget
    split at hget
    · rename_i hi
      cases hget
      cases h
      exact .hit p blockno _ hi
    · rename_i hnone
      split at hget
      · rename_i hi
        cases hget
        cases h
        exact .recycle p blockno _ hnone hi
      · cases hget

theorem step_moves (h : s.step e = .ok t) : Moves s e t := by
  cases e with
  | beginOp p =>
      simp only [step, beginOp, Log.beginOp] at h
      split at h
      · cases h
      · rename_i hlog
        split at hlog
        · cases hlog
        split at hlog
        · cases hlog
        rename_i hcommit _
        cases hlog
        cases h
        exact .beginOp p (by simpa using hcommit)
  | endOp p => exact endOp_moves h
  | bget p blockno => exact bget_moves h
  | bread p i =>
      simp only [step, bread] at h
      split at h
      · cases h
      · rename_i hguard
        rw [not_or, not_not, List.contains_iff_mem, Bool.not_eq_true, Option.isSome_eq_false_iff,
          Option.isNone_iff_eq_none] at hguard
        cases h
        exact .bread p i hguard.1 hguard.2
  | store p i data =>
      simp only [step, store] at h
      split at h
      · cases h
      · rename_i hlock
        cases h
        exact .store p i data (not_not.mp hlock)
  | bwrite p i =>
      simp only [step, bwrite] at h
      split at h
      · cases h
      · rename_i hlock
        cases h
        exact .bwrite p i (not_not.mp hlock)
  | logWrite p i => exact logWrite_moves h
  | bpin p i =>
      cases h
      exact .bpin p i
  | bunpin p i =>
      cases h
      exact .bunpin p i
  | releasesleep p i =>
      simp only [step, releasesleep] at h
      split at h
      · cases h
      split at h
      · cases h
      · rename_i hlock hguard
        rw [not_or, not_not, List.contains_iff_mem, Bool.not_eq_true] at hguard
        cases h
        exact .releasesleep p i (not_not.mp hlock) hguard.1 hguard.2
  | release p i => exact release_moves h
  | clear p =>
      cases h
      exact .clear p
  | endCommit p =>
      cases h
      exact .endCommit p

-- The ring has every buffer once, the one that was left unused last in front.
structure Lru (s : Bio) (lru : List (Fin NBUF)) : Prop where
  ring : Dll.Holds s.cache.ring lru
  perm : lru.Perm (List.finRange NBUF)
  order : lru.Pairwise fun i j => s.Older j i
  past : ∀ i time, s.stamp i = some time → time < s.clock

variable {lru : List (Fin NBUF)}

theorem Lru.congr (h : s.Lru lru) (hring : t.cache.ring = s.cache.ring) (hstamp : t.stamp = s.stamp)
    (hclock : s.clock ≤ t.clock) : t.Lru lru := by
  refine ⟨hring ▸ h.ring, h.perm, ?_, fun i time hi => ?_⟩
  · have holder : t.Older = s.Older := by
      funext i j
      rw [Older, Older, hstamp]
    rw [holder]
    exact h.order
  · rw [hstamp] at hi
    exact lt_of_lt_of_le (h.past i time hi) hclock

theorem binit_holds (xs done : List (Fin NBUF)) {ring : Dll.Links (Fin NBUF)} (h : Dll.Holds ring done)
    (hnodup : (xs ++ done).Nodup) : Dll.Holds (xs.foldl Dll.Links.pushFront ring) (xs.reverse ++ done) := by
  induction xs generalizing done ring with
  | nil => exact h
  | cons x xs ih =>
      have hx : x ∉ xs ++ done := (List.nodup_cons.mp hnodup).1
      rw [List.foldl_cons, List.reverse_cons, List.append_assoc]
      refine ih (x :: done) (h.pushFront fun hmem => hx (List.mem_append.mpr (.inr hmem))) ?_
      exact List.nodup_middle.mpr (List.nodup_cons.mpr ⟨hx, (List.nodup_cons.mp hnodup).2⟩)

theorem Lru.start (disk : Disk) (logstart size : ℕ) :
    (Bio.start disk logstart size).Lru (List.finRange NBUF).reverse where
  ring := by
    have hbinit := binit_holds (List.finRange NBUF) [] .empty (by simpa using List.nodup_finRange NBUF)
    rwa [List.append_nil] at hbinit
  perm := List.reverse_perm _
  order := by
    rw [List.pairwise_reverse]
    exact List.pairwise_lt_finRange NBUF
  past _ _ h := by cases h

theorem Lru.release (h : s.Lru lru) (hring : t.cache.ring = (s.cache.ring.unlink i).pushFront i)
    (hstamp : t.stamp = update s.stamp i (some s.clock)) (hclock : t.clock = s.clock + 1) :
    t.Lru (i :: lru.erase i) := by
  have hmem : i ∈ lru := h.perm.mem_iff.mpr (List.mem_finRange i)
  have hne : ∀ j ∈ lru.erase i, j ≠ i := fun j hj => ((h.ring.nodup.mem_erase_iff).mp hj).1
  have hsame : ∀ j ∈ lru.erase i, t.stamp j = s.stamp j := by
    intro j hj
    rw [hstamp, update_of_ne (hne j hj)]
  refine ⟨hring ▸ h.ring.moveFront hmem, (List.perm_cons_erase hmem).symm.trans h.perm, ?_, fun j time hj => ?_⟩
  · refine List.pairwise_cons.mpr ⟨fun j hj => ?_, ?_⟩
    · rw [Older, hsame j hj, hstamp, update_self]
      cases hj' : s.stamp j with
      | none => trivial
      | some time => exact h.past j time hj'
    · refine (h.order.sublist List.erase_sublist).imp_of_mem fun {j k} hj hk hjk => ?_
      rwa [Older, hsame j hj, hsame k hk]
  · rw [hclock]
    by_cases hji : j = i
    · rw [hji, hstamp, update_self] at hj
      cases hj
      exact Nat.lt_succ_self _
    · rw [hstamp, update_of_ne hji] at hj
      exact Nat.lt_succ_of_lt (h.past j time hj)

theorem Lru.step (h : s.Lru lru) (hmove : Moves s e t) : ∃ lru', t.Lru lru' := by
  cases hmove with
  | release p i hp hunused => exact ⟨_, h.release rfl rfl rfl⟩
  | stay p i hp hused => exact ⟨lru, h.congr rfl rfl (Nat.le_succ _)⟩
  | _ => exact ⟨lru, h.congr rfl rfl le_rfl⟩

namespace Lru

theorem length (h : s.Lru lru) : lru.length < NBUF + 1 := by
  rw [h.perm.length_eq, List.length_finRange]
  exact Nat.lt_succ_self _

theorem mem (h : s.Lru lru) (i : Fin NBUF) : i ∈ lru := h.perm.mem_iff.mpr (List.mem_finRange i)

theorem cached_eq (h : s.Lru lru) (dev blockno : ℕ) : s.cache.cached dev blockno =
    lru.find? fun i => decide ((s.buf i).dev = dev ∧ (s.buf i).blockno = blockno) :=
  h.ring.search_next _ h.length

theorem unused_eq (h : s.Lru lru) : s.cache.unused = lru.reverse.find? fun i => decide ((s.buf i).refcnt = 0) :=
  h.ring.search_prev _ h.length

theorem cached_some (h : s.Lru lru) {dev blockno : ℕ} {i : Fin NBUF} (hi : s.cache.cached dev blockno = some i) :
    (s.buf i).dev = dev ∧ (s.buf i).blockno = blockno := by
  rw [h.cached_eq] at hi
  simpa using List.find?_some hi

theorem cached_none (h : s.Lru lru) {dev blockno : ℕ} (hnone : s.cache.cached dev blockno = none) (i : Fin NBUF) :
    ¬((s.buf i).dev = dev ∧ (s.buf i).blockno = blockno) := by
  rw [h.cached_eq, List.find?_eq_none] at hnone
  simpa using hnone i (h.mem i)

-- bget takes the buffer that has been unused for longest.
theorem unused_some (h : s.Lru lru) {i : Fin NBUF} (hi : s.cache.unused = some i) :
    (s.buf i).refcnt = 0 ∧ ∀ j, j ≠ i → (s.buf j).refcnt = 0 → s.Older i j := by
  rw [h.unused_eq, List.find?_eq_some_iff_append] at hi
  obtain ⟨hzero, older, newer, hsplit, hused⟩ := hi
  have horder := List.pairwise_reverse.mpr h.order
  refine ⟨of_decide_eq_true hzero, fun j hj hjzero => ?_⟩
  have hmem : j ∈ lru.reverse := List.mem_reverse.mpr (h.mem j)
  rw [hsplit] at hmem horder
  have hnew : j ∈ newer := by
    rcases List.mem_append.mp hmem with hmem | hmem
    · simpa [hjzero] using hused j hmem
    · exact (List.mem_cons.mp hmem).resolve_left hj
  exact (List.pairwise_cons.mp (List.pairwise_append.mp horder).2.1).1 j hnew

theorem unused_none (h : s.Lru lru) (hnone : s.cache.unused = none) (i : Fin NBUF) : (s.buf i).refcnt ≠ 0 := by
  rw [h.unused_eq, List.find?_eq_none] at hnone
  simpa using hnone i (List.mem_reverse.mpr (h.mem i))

end Lru

end Bio

end Xv6
