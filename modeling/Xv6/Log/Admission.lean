import Xv6.Log.Theorems
import Mathlib.Algebra.Order.BigOperators.Group.Finset

namespace Xv6.Log

open Transition
open Function (update update_of_ne update_self)

-- The operations that begin_op has admitted and the distinct blocks each has
-- logged since, kept beside the system.
structure Ledger where
  ops : Finset ℕ
  used : ℕ → Finset ℕ

namespace Ledger

def empty : Ledger := ⟨∅, fun _ => ∅⟩

def record (l : Ledger) (s : Sys) : Event → Ledger
  | .beginOp p => ⟨insert p l.ops, update l.used p ∅⟩
  | .endOp p => { l with ops := l.ops.erase p }
  | .logWrite p i _ =>
      { l with used := update l.used p (insert (s.bc.buf i).blockno (l.used p)) }
  | _ => l

-- No operation logs more than MAXOPBLOCKS distinct blocks.
def InBudget (l : Ledger) (s : Sys) : Event → Prop
  | .logWrite p i _ => (insert (s.bc.buf i).blockno (l.used p)).card ≤ MAXOPBLOCKS
  | _ => True

instance (l : Ledger) (s : Sys) : (e : Event) → Decidable (l.InBudget s e)
  | .logWrite _ _ _ => inferInstanceAs (Decidable (_ ≤ _))
  | .beginOp _ | .endOp _ | .bget _ _ | .bread _ _ | .brelse _ _ | .commit _ => isTrue trivial

-- Log blocks in use plus what the admitted operations may still log.
def reserve (l : Ledger) (s : Sys) : ℕ :=
  s.log.lh.length + ∑ p ∈ l.ops, (MAXOPBLOCKS - (l.used p).card)

-- begin_op with room for one more operation: the header takes one block of the
-- log and log_write wants another one free even for a block that is in the log.
def Roomy (l : Ledger) (s : Sys) : Event → Prop
  | .beginOp _ => l.reserve s + MAXOPBLOCKS + 2 ≤ s.log.size
  | _ => True

instance (l : Ledger) (s : Sys) : (e : Event) → Decidable (l.Roomy s e)
  | .beginOp _ => inferInstanceAs (Decidable (_ ≤ _))
  | .logWrite _ _ _ | .endOp _ | .bget _ _ | .bread _ _ | .brelse _ _ | .commit _ => isTrue trivial

end Ledger

inductive BudgetStep : Sys × Ledger → Sys × Ledger → Prop
  | step {s next : Sys} {l : Ledger} (e : Event) (hbudget : l.InBudget s e)
      (hs : s.step e = .ok next) : BudgetStep (s, l) (next, l.record s e)

inductive RoomyStep : Sys × Ledger → Sys × Ledger → Prop
  | step {s next : Sys} {l : Ledger} (e : Event) (hbudget : l.InBudget s e)
      (hroomy : l.Roomy s e) (hs : s.step e = .ok next) : RoomyStep (s, l) (next, l.record s e)

namespace Ledger

variable {s next : Sys} {l : Ledger} {p : ℕ}

theorem spare_update_of_mem (ops : Finset ℕ) (used : ℕ → Finset ℕ) (hp : p ∈ ops) (blocks : Finset ℕ) :
    ∑ q ∈ ops, (MAXOPBLOCKS - (update used p blocks q).card) + (MAXOPBLOCKS - (used p).card) =
      ∑ q ∈ ops, (MAXOPBLOCKS - (used q).card) + (MAXOPBLOCKS - blocks.card) := by
  rw [← Finset.add_sum_erase ops _ hp, ← Finset.add_sum_erase ops (fun q => _ - (used q).card) hp]
  have hrest : ∑ q ∈ ops.erase p, (MAXOPBLOCKS - (update used p blocks q).card) =
      ∑ q ∈ ops.erase p, (MAXOPBLOCKS - (used q).card) := by
    apply Finset.sum_congr rfl
    intro q hq
    rw [update_of_ne (Finset.ne_of_mem_erase hq)]
  rw [hrest, update_self]
  omega

theorem spare_insert (ops : Finset ℕ) (used : ℕ → Finset ℕ) (hp : p ∉ ops) :
    ∑ q ∈ insert p ops, (MAXOPBLOCKS - (update used p ∅ q).card) =
      ∑ q ∈ ops, (MAXOPBLOCKS - (used q).card) + MAXOPBLOCKS := by
  have hrest : ∑ q ∈ ops, (MAXOPBLOCKS - (update used p ∅ q).card) =
      ∑ q ∈ ops, (MAXOPBLOCKS - (used q).card) := by
    apply Finset.sum_congr rfl
    intro q hq
    rw [update_of_ne (by rintro rfl; exact hp hq)]
  rw [Finset.sum_insert hp, hrest, update_self]
  simp only [Finset.card_empty, Nat.sub_zero]
  omega

-- The log always has room for all that the admitted operations may still log.
structure Inv (l : Ledger) (s : Sys) : Prop where
  ops : ∀ p, p ∈ l.ops ↔ s.pc p = .inOp
  logged : ∀ p ∈ l.ops, ∀ b ∈ l.used p, b ∈ s.log.lh
  room : l.reserve s + 2 ≤ s.log.size

namespace Inv

variable {v : Disk} {who : Option (ℕ × CommitPc)}

theorem beginOp (hi : l.Inv s) (hg : Group s v who) (hroomy : l.Roomy s (.beginOp p))
    (hs : s.beginOp p = .ok next) : (l.record s (.beginOp p)).Inv next := by
  obtain ⟨hidle, log, rfl, hlh, _, hsize, _⟩ := hg.beginOp hs
  have hnot : p ∉ l.ops := by simp [hi.ops p, hidle]
  refine ⟨fun q => ?_, fun q hq b hb => ?_, ?_⟩
  · by_cases hq : q = p
    · subst hq; simp [record, Sys.goto]
    · simp [record, Sys.goto, hq, hi.ops q]
  · simp only [record, Sys.goto, hlh] at hq hb ⊢
    by_cases hqp : q = p
    · subst hqp; simp at hb
    · rw [update_of_ne hqp] at hb
      exact hi.logged q (Finset.mem_of_mem_insert_of_ne hq hqp) b hb
  · simp only [Roomy, reserve] at hroomy
    simp only [reserve, record, Sys.goto, hlh, hsize, spare_insert l.ops l.used hnot]
    omega

theorem endOp (hi : l.Inv s) (hg : Group s v who) (hs : s.endOp p = .ok next) :
    (l.record s (.endOp p)).Inv next := by
  obtain ⟨_, log, pc, rfl, hpc, hlh, _, hsize, _⟩ := hg.endOp hs
  refine ⟨fun q => ?_, fun q hq b hb => ?_, ?_⟩
  · by_cases hq : q = p
    · subst hq; simp [record, Sys.goto, hpc]
    · simp [record, Sys.goto, hq, hi.ops q]
  · simp only [Sys.goto, hlh]
    exact hi.logged q (Finset.mem_of_mem_erase hq) b hb
  · have hroom := hi.room
    simp only [reserve, record, Sys.goto, hlh, hsize] at hroom ⊢
    have hle : ∑ q ∈ l.ops.erase p, (MAXOPBLOCKS - (l.used q).card) ≤
        ∑ q ∈ l.ops, (MAXOPBLOCKS - (l.used q).card) :=
      Finset.sum_le_sum_of_subset (Finset.erase_subset p l.ops)
    omega

-- A new block takes one unit of its operation's budget, an absorbed one takes none.
theorem logWrite (hi : l.Inv s) (hg : Group s v who) {i : Fin NBUF} {data : Block}
    (hbudget : l.InBudget s (.logWrite p i data)) (hs : s.logWrite p i data = .ok next) :
    (l.record s (.logWrite p i data)).Inv next := by
  obtain ⟨hin, _, bc, lh, rfl, hlh, _⟩ := hg.logWrite hs
  have hp := (hi.ops p).mpr hin
  have hroom := hi.room
  have hspare := spare_update_of_mem l.ops l.used hp (insert (s.bc.buf i).blockno (l.used p))
  have hcard := Finset.card_insert_le (s.bc.buf i).blockno (l.used p)
  have hgrow := Finset.card_le_card (Finset.subset_insert (s.bc.buf i).blockno (l.used p))
  simp only [InBudget] at hbudget
  simp only [reserve] at hroom
  refine ⟨hi.ops, fun q hq b hb => ?_, ?_⟩
  · have hold : b ∈ s.log.lh ∨ b = (s.bc.buf i).blockno → b ∈ lh := by
      rw [hlh]
      split
      · rename_i hmem
        rintro (hb | rfl)
        · exact hb
        · exact hmem
      · simp
    simp only [record] at hb
    by_cases hqp : q = p
    · subst hqp
      rw [update_self, Finset.mem_insert] at hb
      exact hold (hb.elim .inr (fun hb => .inl (hi.logged q hq b hb)))
    · rw [update_of_ne hqp] at hb
      exact hold (.inl (hi.logged q hq b hb))
  · simp only [reserve, record, hlh]
    split
    · omega
    · rename_i hnew
      have hfresh : (s.bc.buf i).blockno ∉ l.used p := fun hb => hnew (hi.logged p hp _ hb)
      rw [Finset.card_insert_of_notMem hfresh] at hbudget hspare
      simp only [List.length_append, List.length_singleton]
      omega

-- The operations are over when a commit runs, so only the length of the log is
-- left to look at.
theorem commit (hi : l.Inv s) (hg : Group s v who) (hs : s.commit p = .ok next) :
    l.Inv next := by
  obtain ⟨⟨c, pc, hc, hpc, hupd⟩, hlh, _, hsize, _⟩ := hg.commit_frame hs
  have hwho := (hg.committer p c).mp hc
  have hnone : ∀ q, q ∉ l.ops := by
    intro q hq
    exact hg.no_op_while_commit (by simp [hwho]) q ((hi.ops q).mp hq)
  have hroom := hi.room
  have hlen : next.log.lh.length ≤ s.log.lh.length := by
    rcases hlh with hlh | hlh <;> simp [hlh]
  refine ⟨fun q => ?_, fun q hq => absurd hq (hnone q), ?_⟩
  · rw [hupd]
    by_cases hq : q = p
    · subst hq
      simp [hnone q, hpc]
    · rw [update_of_ne hq]
      exact hi.ops q
  · simp only [reserve, hsize] at hroom ⊢
    omega

theorem step (hi : l.Inv s) (hg : Group s v who) {e : Event} (hbudget : l.InBudget s e)
    (hroomy : l.Roomy s e) (hs : s.step e = .ok next) : (l.record s e).Inv next := by
  cases e with
  | beginOp p => exact hi.beginOp hg hroomy hs
  | endOp p => exact hi.endOp hg hs
  | logWrite p i data => exact hi.logWrite hg hbudget hs
  | commit p => exact hi.commit hg hs
  | bget p blockno =>
      obtain ⟨bc, refs, rfl, _⟩ := hg.bget hs
      exact ⟨hi.ops, hi.logged, hi.room⟩
  | bread p i =>
      obtain ⟨bc, rfl, _⟩ := hg.bread hs
      exact ⟨hi.ops, hi.logged, hi.room⟩
  | brelse p i =>
      obtain ⟨bc, refs, rfl, _⟩ := hg.brelse hs
      exact ⟨hi.ops, hi.logged, hi.room⟩

theorem logWrite_no_panic (hi : l.Inv s) (hsize : s.log.size ≤ LOGSIZE) (i : Fin NBUF)
    (data : Block) : s.logWrite p i data ≠ .error (.panic .tooBigTransaction) := by
  intro hs
  have hroom := hi.room
  simp only [reserve] at hroom
  unfold Sys.logWrite at hs
  split at hs
  · cases hs
  have hlt : ¬(s.log.lh.length ≥ LOGSIZE ∨ s.log.lh.length ≥ s.log.size - 1) := by omega
  simp only [Log.logWrite, hlt, ite_false] at hs
  split at hs
  · rename_i hlog
    split at hlog
    · cases hlog
      cases hs
    · split at hlog <;> cases hlog
  · cases hs

end Inv

end Ledger

-- What begin_op is meant to guarantee on a disk that mkfs has laid out.
def AdmissionSafe (start : ℕ) (step : Sys × Ledger → Sys × Ledger → Prop) : Prop :=
  ∀ disk bc s l, bc.Clean disk →
    Reaches step (boot start LOGSIZE disk bc, .empty) (s, l) →
    ∀ p i data, l.InBudget s (.logWrite p i data) →
      s.logWrite p i data ≠ .error (.panic .tooBigTransaction)

theorem admission_safe_of_roomy (start : ℕ) (hword : start + LOGSIZE ≤ 2 ^ 32) :
    AdmissionSafe start RoomyStep := by
  intro disk bc s l hclean hrun p i data _
  have hstart : start < 2 ^ 32 := by simp only [LOGSIZE, MAXOPBLOCKS] at hword; omega
  have hempty : Ledger.empty.reserve (boot start LOGSIZE disk bc) + 2 ≤ LOGSIZE := by
    simp [Ledger.reserve, Ledger.empty, boot, LOGSIZE, MAXOPBLOCKS]
  obtain ⟨hi, _, hsize⟩ := hrun.invariant
    (fun x => x.2.Inv x.1 ∧ (∃ v who, Group x.1 v who) ∧ x.1.log.size = LOGSIZE)
    ⟨⟨by simp [Ledger.empty, boot], by simp [Ledger.empty], hempty⟩,
      ⟨_, _, .boot ⟨hstart, hword⟩ hclean⟩, rfl⟩
    (by
      rintro _ _ ⟨hi, ⟨v, who, hg⟩, hsize⟩ ⟨e, hbudget, hroomy, hs⟩
      exact ⟨hi.step hg hbudget hroomy hs, hg.step hs, (hg.step_frame hs).2.1.trans hsize⟩)
  exact hi.logWrite_no_panic hsize.le i data

-- Two operations that log two blocks each.
def twoOps : List Event :=
  [.beginOp 0, .beginOp 1] ++ ((List.finRange NBUF).take 4).flatMap fun i : Fin NBUF =>
    logBlock (i.val / 2) (100 + UInt32.ofNat i) i [fun _ => 1]

theorem admission_safe_of_roomy_two : ∃ s l, Reaches RoomyStep (boot 2 LOGSIZE (fun _ _ => 0) binit, .empty) (s, l) ∧
    s.log.outstanding = 2 ∧ s.log.lh = [100, 101, 102, 103] ∧
    ∀ p i data, l.InBudget s (.logWrite p i data) → s.logWrite p i data ≠ .error (.panic .tooBigTransaction) := by
  have hrun : (replay (traced (fun s l => l.record s) fun s l e => l.InBudget s e ∧ l.Roomy s e)
      (boot 2 LOGSIZE (fun _ _ => 0) binit, Ledger.empty) twoOps).any fun x =>
      decide (x.1.log.outstanding = 2 ∧ x.1.log.lh = [100, 101, 102, 103]) := by decide +kernel
  have hnext : ∀ e x y, traced (fun s l => l.record s) (fun s l e => l.InBudget s e ∧ l.Roomy s e) x e = some y →
      RoomyStep x y := by
    intro e x y he
    obtain ⟨t, ⟨hbudget, hroomy⟩, hs, rfl⟩ := traced_eq_some he
    exact .step e hbudget hroomy hs
  obtain ⟨⟨s, l⟩, hreach, hops, hlh⟩ := exists_of_replay _ _ _ hrun fun e _ => hnext e
  exact ⟨s, l, hreach, hops, hlh, admission_safe_of_roomy 2 (by decide) _ _ s l (binit_clean _) hreach⟩

-- Three operations that log different blocks, ten each but for the last block.
def threeOps : List Event :=
  [.beginOp 0, .beginOp 1, .beginOp 2] ++
    (((List.finRange NBUF).flatMap fun i =>
      [.bget (i / 10) (100 + UInt32.ofNat i), .bread (i / 10) i,
        .logWrite (i / 10) i fun _ => 1]).dropLast)

-- begin_op admits all three, and the thirtieth block does not fit.
theorem threeOps_too_big : ¬AdmissionSafe 2 BudgetStep := by
  have hrun : (replay (traced (fun s l => l.record s) fun s l e => l.InBudget s e)
      (boot 2 LOGSIZE (fun _ _ => 0) binit, Ledger.empty) threeOps).any fun x =>
      decide (x.2.InBudget x.1 (.logWrite 2 ⟨29, by decide⟩ fun _ => 1) ∧
        (x.1.logWrite 2 ⟨29, by decide⟩ fun _ => 1).stopsWith (.panic .tooBigTransaction) = true) := by
    decide +kernel
  have hnext : ∀ e x y, traced (fun s l => l.record s) (fun s l e => l.InBudget s e) x e = some y →
      BudgetStep x y := by
    intro e x y he
    obtain ⟨t, hbudget, hs, rfl⟩ := traced_eq_some he
    exact .step e hbudget hs
  obtain ⟨⟨s, l⟩, hreach, hbudget, hstop⟩ := exists_of_replay _ _ _ hrun fun e _ => hnext e
  exact fun hsafe => hsafe _ _ s l (binit_clean _) hreach 2 _ _ hbudget (Except.eq_error_of_stopsWith hstop)

end Xv6.Log
