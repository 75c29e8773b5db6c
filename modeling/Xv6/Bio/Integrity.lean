import Mathlib.Algebra.BigOperators.Fin
import Mathlib.Algebra.Order.BigOperators.Group.Finset
import Xv6.Bio.Invariant
import Xv6.Lib.Except

namespace Xv6

open Transition

namespace Bio

variable {s t : Bio} {disk : Disk} {logstart size : ℕ}

variable {i : Fin NBUF}

theorem reachable_inv (hrun : Reaches LogStep (start disk logstart size) s) : s.Inv ∧ ∃ lru, s.Lru lru := by
  refine hrun.invariant (fun s => s.Inv ∧ ∃ lru, s.Lru lru) ⟨.start .., _, .start ..⟩ fun s t hs hstep => ?_
  obtain ⟨hinv, lru, hlru⟩ := hs
  obtain ⟨e, hlog, he⟩ := hstep
  have hmove := step_moves he
  exact ⟨hinv.step hlru hlog hmove, hlru.step hmove⟩

def next (s : Bio) (e : BioEvent) : Option Bio := (s.step e).toOption

end Bio

open Bio

def BioEvent.process : BioEvent → ℕ
  | .beginOp p | .endOp p | .bget p _ | .bread p _ | .store p _ _ | .bwrite p _ | .logWrite p _ | .bpin p _ |
    .bunpin p _ | .releasesleep p _ | .release p _ | .clear p | .endCommit p => p

def BioEvent.plain : BioEvent → Bool
  | .bpin _ _ | .bunpin _ _ | .clear _ | .endCommit _ => false
  | _ => true

theorem Bio.logStep_of_next {s t : Bio} {e : BioEvent} (hplain : e.plain = true) (h : s.next e = some t) :
    Bio.LogStep s t := by
  refine ⟨e, ?_, Except.eq_ok_of_toOption h⟩
  cases e <;> trivial

theorem Bio.exists_of_plain {s : Bio} (es : List BioEvent) (P : Bio → Prop) [DecidablePred P]
    (hplain : es.all BioEvent.plain = true) (h : (replay next s es).any fun t => decide (P t)) :
    ∃ t, Reaches Bio.LogStep s t ∧ P t :=
  exists_of_replay s es P h fun e he _ _ => logStep_of_next (List.all_eq_true.mp hplain e he)

namespace Bio

variable {s : Bio}

theorem sum_countP (l : List (ℕ × Fin NBUF)) : ∑ i, l.countP (fun r => r.2 == i) = l.length := by
  induction l with
  | nil => simp
  | cons r l ih =>
      have hone : ∑ i, (if i = r.2 then 1 else 0) = 1 := by simp
      calc ∑ i, (r :: l).countP (fun r => r.2 == i)
          = ∑ i, (l.countP (fun r => r.2 == i) + if i = r.2 then 1 else 0) :=
            Finset.sum_congr rfl fun i _ => countP_pair r.1 r.2 i l
        _ = l.length + 1 := by rw [Finset.sum_add_distrib, ih, hone]

theorem Inv.sum_pinned (h : s.Inv) :
    (∑ i, if (s.buf i).dev = ROOTDEV ∧ (s.buf i).blockno ∈ s.pins then 1 else 0) ≤ s.pins.length := by
  rw [Finset.sum_boole, Nat.cast_id, ← List.toFinset_card_of_nodup h.nodup]
  refine Finset.card_le_card_of_injOn (fun i => (s.buf i).blockno) (fun i hi => ?_) fun i hi j hj heq => ?_
  · simp only [Finset.coe_filter, Finset.mem_univ, true_and, Set.mem_ofPred_eq] at hi
    simpa using hi.2
  · simp only [Finset.coe_filter, Finset.mem_univ, true_and, Set.mem_ofPred_eq] at hi hj
    exact h.unique i j hi.1 hj.1 heq

def inUse (s : Bio) : ℕ := s.refs.length + s.leaving.length + s.pins.length

theorem Inv.exists_unused (h : s.Inv) (hroom : s.inUse < NBUF) : ∃ i, (s.buf i).refcnt = 0 := by
  by_contra hnone
  rw [not_exists] at hnone
  have hsum : ∑ i : Fin NBUF, 1 ≤ ∑ i, (s.buf i).refcnt := Finset.sum_le_sum fun i _ => Nat.pos_of_ne_zero (hnone i)
  have hcount : ∑ i, (s.buf i).refcnt =
      ∑ i, (s.holders i + if (s.buf i).dev = ROOTDEV ∧ (s.buf i).blockno ∈ s.pins then 1 else 0) :=
    Finset.sum_congr rfl fun i _ => (h.buf i).count
  have hholders : ∑ i, s.holders i = s.refs.length + s.leaving.length :=
    (sum_countP (s.refs ++ s.leaving)).trans List.length_append
  have hpinned := h.sum_pinned
  rw [hcount, Finset.sum_add_distrib, hholders, Finset.sum_const, Finset.card_univ, Fintype.card_fin, smul_eq_mul,
    mul_one] at hsum
  unfold inUse at hroom
  omega

-- What readi does with buffers in process p: the blocks one after the other, each in the buffer it gets.
def readiEvents (p : ℕ) : List (UInt32 × Fin NBUF) → List BioEvent
  | [] => []
  | (blockno, i) :: rest => .bget p blockno :: .bread p i :: .releasesleep p i :: .release p i :: readiEvents p rest

-- Each process is somewhere in a readi of its own.
def Readers (es : List BioEvent) : Prop :=
  ∀ p, ∃ blocks, es.filter (fun e => e.process == p) <+: readiEvents p blocks

theorem readers_first (n : ℕ) (block : ℕ → UInt32) :
    Readers ((List.range n).map fun p => .bget p (block p)) := by
  intro p
  refine ⟨[(block p, buf0)], ?_⟩
  have hfilter : (List.range n).filter (fun q => (BioEvent.bget q (block q)).process == p) =
      List.replicate ((List.range n).count p) p := List.filter_beq ..
  have hcount : (List.range n).count p ≤ 1 := List.nodup_iff_count_le_one.mp List.nodup_range p
  rw [List.filter_map, Function.comp_def, hfilter, List.map_replicate]
  cases hk : (List.range n).count p with
  | zero => exact List.nil_prefix
  | succ k =>
      obtain rfl : k = 0 := by omega
      exact List.prefix_append ..

end Bio

theorem bget_finds_buffer {s : Bio} {disk : Disk} {logstart size : ℕ}
    (hrun : Reaches Bio.LogStep (Bio.start disk logstart size) s) (hroom : s.inUse < NBUF) (p : ℕ) (blockno : UInt32) :
    ∃ t, s.bget p blockno = .ok t := by
  obtain ⟨hinv, lru, hlru⟩ := reachable_inv hrun
  unfold Bio.bget RingCache.bget
  cases hcached : s.cache.cached ROOTDEV blockno.toNat with
  | some i => exact ⟨_, rfl⟩
  | none =>
      cases hunused : s.cache.unused with
      | some i => exact ⟨_, rfl⟩
      | none =>
          obtain ⟨i, hi⟩ := hinv.exists_unused hroom
          exact absurd hi (hlru.unused_none hunused i)

-- One block in the log and 28 buffers with readers leave one buffer for the next process.
theorem bget_finds_buffer_last : ∃ s t : Bio, Reaches Bio.LogStep (Bio.start (fun _ _ => 0) 2 30) s ∧
    s.pins = [100] ∧ s.refs.length = 28 ∧ s.bget 29 300 = .ok t := by
  obtain ⟨s, hreach, hpins, hrefs, hroom⟩ := Bio.exists_of_plain (s := Bio.start (fun _ _ => 0) 2 30)
    ([.beginOp 0, .bget 0 100, .bread 0 buf0, .store 0 buf0 (fun _ => 9),
      .logWrite 0 buf0, .releasesleep 0 buf0, .release 0 buf0] ++
      (List.range 28).map fun p => .bget (p + 1) (200 + p).toUInt32)
    (fun s => s.pins = [100] ∧ s.refs.length = 28 ∧ s.inUse < NBUF) (by decide) (by decide +kernel)
  obtain ⟨t, ht⟩ := bget_finds_buffer hreach hroom 29 300
  exact ⟨s, t, hreach, hpins, hrefs, ht⟩

-- Thirty processes are in readi, each with a block of its own that the disk has not
-- delivered yet, when another one gets to bread.
theorem bget_no_buffers : ∃ es s, Bio.Readers (es ++ [.bget 30 130]) ∧ (∀ e ∈ es, e.process < NPROC) ∧
    replay Bio.next (Bio.start (fun _ _ => 0) 2 30) es = some s ∧ s.bget 30 130 = .error (.panic .bgetNoBuffers) := by
  obtain ⟨s, hs, hend⟩ := exists_of_any
    (r := replay Bio.next (Bio.start (fun _ _ => 0) 2 30) ((List.range 30).map fun p => .bget p (100 + p).toUInt32))
    (P := fun s => (s.bget 30 130).stopsWith (.panic .bgetNoBuffers) = true) (by decide +kernel)
  refine ⟨_, s, readers_first 31 fun p => (100 + p).toUInt32, ?_, hs, Except.eq_error_of_stopsWith hend⟩
  intro e he
  obtain ⟨p, hp, rfl⟩ := List.mem_map.mp he
  exact (List.mem_range.mp hp).trans (by decide)

end Xv6
