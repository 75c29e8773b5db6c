import Xv6.Lib.Except
import Xv6.Log.Invariant

namespace Xv6.Log

open Transition

variable {start size : ℕ} {disk : Disk} {bc : Bcache} {s : Sys}

theorem binit_clean (disk : Disk) : binit.Clean disk where
  lru := (List.reverse_perm _)
  unique := fun i j hi => by simp [binit, ROOTDEV] at hi
  refcnt := fun _ => rfl
  lock := fun _ => rfl
  word := fun i hi => by simp [binit, ROOTDEV] at hi
  data := fun i hi => by simp [binit, ROOTDEV] at hi

section Boot

variable {start size : ℕ} {disk : Disk} {bc : Bcache}

theorem Group.boot (hword : start < 2 ^ 32 ∧ start + size ≤ 2 ^ 32) (hclean : bc.Clean disk) :
    Group (Log.boot start size disk bc) disk none where
  word := hword
  committer := by simp [Log.boot]
  committing := rfl
  ops := ⟨∅, by simp [Log.boot], rfl⟩
  quiet := by simp
  length := ⟨Nat.zero_le _, Nat.zero_le _⟩
  nodup := List.nodup_nil
  blocks := by simp [Log.boot]
  erased := by simp
  cache := hclean.coherent

theorem Inv.boot {home : Disk} (hsize : 0 < size) (hword : start + size ≤ 2 ^ 32) (hclean : bc.Clean disk)
    (hhead : readHead (disk start) = []) (hhome : ∀ b, ¬InLog start size b → disk b = home b) :
    Inv (Log.boot start size disk bc) ⟨home, []⟩ none := by
  have hview : view (Log.boot start size disk bc) ⟨home, []⟩ = disk := by
    funext b
    by_cases hb : InLog start size b
    · exact view_inLog b hb
    · rw [view_home b hb]
      exact (hhome b hb).symm
  exact {
    group := hview.symm ▸ Group.boot ⟨by omega, hword⟩ hclean
    size := hsize
    home := by simp [Log.boot]
    pending := by simp
    durable := hhead
    recoverable := .of_empty hhead hhome }

end Boot

section Run

variable {s next : Sys} {h : History} {who : Option (ℕ × CommitPc)}

theorem Inv.event (hi : Inv s h who) {e : Event} (hhome : LogsHome s e) (hs : s.step e = .ok next) :
    ∃ who', Inv next (h.record s e) who' := by
  cases e with
  | beginOp p => exact ⟨who, hi.beginOp hs⟩
  | endOp p => exact hi.endOp hs
  | bget p blockno => exact ⟨who, hi.bget hs⟩
  | bread p i => exact ⟨who, hi.bread hs⟩
  | brelse p i => exact ⟨who, hi.brelse hs⟩
  | logWrite p i data => exact ⟨who, hi.logWrite hhome hs⟩
  | commit p => exact hi.commit hs

theorem Inv.crash (hi : Inv s h who) {disk : Disk} {bc : Bcache} (hcut : CutRecoveries s.log.start s.disk disk)
    (hclean : bc.Clean (recoverFromLog s.log.start disk)) :
    Inv (Log.boot s.log.start s.log.size (recoverFromLog s.log.start disk) bc)
      ⟨h.committed, []⟩ none :=
  .boot hi.size hi.group.word.2 hclean (recoverFromLog_head _ _)
    ((hi.recoverable.cutRecoveries hi.size hcut).recoverFromLog_home hi.size)

theorem reachable_inv {start size : ℕ} {disk : Disk} {bc : Bcache} (hsize : 0 < size) (hword : start + size ≤ 2 ^ 32)
    (hclean : bc.Clean (recoverFromLog start disk))
    (hrun : Reaches Step (boot start size (recoverFromLog start disk) bc, ⟨recoverFromLog start disk, []⟩) (s, h)) :
    (∃ who, Inv s h who) ∧ s.log.start = start ∧ s.log.size = size := by
  refine hrun.invariant (fun x =>
    (∃ who, Inv x.1 x.2 who) ∧ x.1.log.start = start ∧ x.1.log.size = size) ?_ ?_
  · exact ⟨⟨none, .boot hsize hword hclean (recoverFromLog_head _ _) fun _ _ => rfl⟩, rfl, rfl⟩
  · rintro _ _ ⟨⟨who, hi⟩, hstart, hsize⟩ hstep
    cases hstep with
    | event e hhome hs =>
        obtain ⟨hstart', hsize', _⟩ := hi.group.step_frame hs
        exact ⟨hi.event hhome hs, hstart'.trans hstart, hsize'.trans hsize⟩
    | crash hcut hclean => exact ⟨⟨none, hi.crash hcut hclean⟩, hstart, hsize⟩

end Run

-- A crash at any point of any run, then recoveries cut short any number of
-- times: the final recovery leaves the committed contents and is idempotent.
theorem recovery_installs_committed {disk' : Disk} {h : History} (hsize : 0 < size) (hword : start + size ≤ 2 ^ 32)
    (hclean : bc.Clean (recoverFromLog start disk))
    (hrun : Reaches Step (boot start size (recoverFromLog start disk) bc, ⟨recoverFromLog start disk, []⟩) (s, h))
    (hcut : CutRecoveries start s.disk disk') :
    (∀ b, ¬InLog start size b → recoverFromLog start disk' b = h.committed b) ∧
      recoverFromLog start (recoverFromLog start disk') = recoverFromLog start disk' := by
  obtain ⟨⟨who, hi⟩, rfl, rfl⟩ := reachable_inv hsize hword hclean hrun
  have hrec := hi.recoverable.cutRecoveries hi.size hcut
  exact ⟨hrec.recoverFromLog_home hi.size, recoverFromLog_idem _ disk'⟩

instance (s : Sys) : (e : Event) → Decidable (LogsHome s e)
  | .logWrite _ _ _ => inferInstanceAs (Decidable (¬_))
  | .beginOp _ | .endOp _ | .bget _ _ | .bread _ _ | .brelse _ _ | .commit _ => isTrue trivial

-- An event beside a ghost that records it, if Q allows it.
def traced {G : Type} (record : Sys → G → Event → G) (Q : Sys → G → Event → Prop) [∀ s g e, Decidable (Q s g e)]
    (x : Sys × G) (e : Event) : Option (Sys × G) :=
  if Q x.1 x.2 e then (x.1.step e).toOption.map fun t => (t, record x.1 x.2 e) else none

theorem traced_eq_some {G : Type} {record : Sys → G → Event → G} {Q : Sys → G → Event → Prop}
    [∀ s g e, Decidable (Q s g e)] {x y : Sys × G} {e : Event} (h : traced record Q x e = some y) :
    ∃ t, Q x.1 x.2 e ∧ x.1.step e = .ok t ∧ y = (t, record x.1 x.2 e) := by
  obtain ⟨hq, hstep⟩ := Option.ite_none_right_eq_some.mp h
  obtain ⟨t, ht, rfl⟩ := Option.map_eq_some_iff.mp hstep
  exact ⟨t, hq, Except.eq_ok_of_toOption ht, rfl⟩

def logBlock (p : ℕ) (blockno : UInt32) (i : Fin NBUF) (data : List Block) : List Event :=
  [.bget p blockno, .bread p i] ++ data.map (.logWrite p i) ++ [.brelse p i]

-- A transaction of two blocks up to the middle of install_trans.
def twoBlocks : List Event :=
  List.flatten [[.beginOp 0], logBlock 0 100 buf0 [fun _ => 1], logBlock 0 101 ⟨1, by decide⟩ [fun _ => 2],
    [.endOp 0], List.replicate 6 (.commit 0)]

-- The power goes when one of two committed blocks is in its place, and once more in the recovery.
theorem recovery_installs_committed_cut : ∃ s h disk',
    Reaches Step (boot 2 30 (recoverFromLog 2 fun _ _ => 0) binit, ⟨recoverFromLog 2 fun _ _ => 0, []⟩) (s, h) ∧
    s.pc 0 = .commit (.installTrans 1) ∧ CutRecoveries 2 s.disk disk' ∧ disk' 101 = (fun _ => 0) ∧
    recoverFromLog 2 disk' 100 = (fun _ => 1) ∧ recoverFromLog 2 disk' 101 = (fun _ => 2) ∧
    recoverFromLog 2 (recoverFromLog 2 disk') = recoverFromLog 2 disk' := by
  have hrun : (replay (traced History.record fun s _ => LogsHome s)
      (boot 2 30 (recoverFromLog 2 fun _ _ => 0) binit, ⟨recoverFromLog 2 fun _ _ => 0, []⟩) twoBlocks).any fun x =>
      decide (x.1.pc 0 = .commit (.installTrans 1) ∧
        Writes.apply x.1.disk ((recoveryTrace 2 x.1.disk).take 1) 101 = (fun _ => 0) ∧
        x.2.committed 100 = (fun _ => 1) ∧ x.2.committed 101 = fun _ => 2) := by decide +kernel
  have hnext : ∀ e x y, traced History.record (fun s _ => LogsHome s) x e = some y → Step x y := by
    intro e x y he
    obtain ⟨t, hhome, hstep, rfl⟩ := traced_eq_some he
    exact .event e hhome hstep
  obtain ⟨⟨s, h⟩, hreach, hpc, hold, h100, h101⟩ := exists_of_replay _ _ _ hrun fun e _ => hnext e
  have hcut : CutRecoveries 2 s.disk _ := .cut _ (List.take_prefix 1 _) (.none _)
  obtain ⟨hhome, hidem⟩ := recovery_installs_committed (by decide) (by decide) (binit_clean _) hreach hcut
  exact ⟨s, h, _, hreach, hpc, hcut, hold, (hhome 100 (by decide)).trans h100, (hhome 101 (by decide)).trans h101,
    hidem⟩

section Pins

variable {s : Sys} {v : Disk} {who : Option (ℕ × CommitPc)}

theorem Group.mem_pinned (hg : Group s v who) {i b : ℕ} (hb : s.log.lh[i]? = some b) :
    b ∈ pinned s.log.lh (who.map Prod.snd) ↔ ¬Installed s i := by
  have hmem := List.mem_of_getElem? hb
  simp only [Installed, hg.committer]
  match who with
  | none => simpa [pinned] using hmem
  | some (p, .start) | some (p, .writeLog _) | some (p, .writeHead) => simpa [pinned] using hmem
  | some (p, .clear) => simp [pinned]
  | some (p, .eraseHead) =>
      have hlh := hg.erased p .eraseHead rfl (.inl rfl)
      simp [hlh] at hb
  | some (p, .done) =>
      have hlh := hg.erased p .done rfl (.inr rfl)
      simp [hlh] at hb
  | some (p, .installTrans tail) =>
      obtain ⟨hlt, hget⟩ := List.getElem?_eq_some_iff.mp hb
      simp only [Option.map_some, pinned, List.mem_drop_iff_getElem]
      constructor
      · rintro ⟨j, hj, he⟩
        have hij : tail + j = i := (hg.nodup.getElem_inj_iff).mp (he.trans hget.symm)
        simp
        omega
      · intro hn
        have hle : tail ≤ i := by
          by_contra hlt
          exact hn ⟨p, .inl ⟨tail, rfl, by omega⟩⟩
        exact ⟨i - tail, by omega, by simp only [show tail + (i - tail) = i by omega, hget]⟩

-- bget recycles no buffer that has a reference or a pin.
theorem Group.bget_keeps (hg : Group s v who) {b blockno : ℕ} {i k : Fin NBUF} {bc : Bcache} (hi : s.bc.Holds i b)
    (hpos : 0 < (s.bc.buf i).refcnt) (hb : s.bc.bget ROOTDEV blockno = .ok (k, bc)) : bc.Holds i b := by
  obtain ⟨_, rfl⟩ | ⟨_, hzero, rfl⟩ := Bcache.bget_cases hg.cache.wf hb
  · by_cases hik : i = k
    · subst hik
      simpa [Bcache.Holds] using hi
    · rwa [Bcache.Holds, Bcache.update_of_ne _ _ _ _ hik]
  · have hik : i ≠ k := by
      rintro rfl
      omega
    rwa [Bcache.Holds, Bcache.update_of_ne _ _ _ _ hik]

theorem Group.refcnt_pinned (hg : Group s v who) {i b : ℕ} (hb : s.log.lh[i]? = some b)
    (hi : ¬Installed s i) : ∃ j, s.bc.Holds j b ∧ (s.bc.buf j).refcnt = uses s.refs j + 1 := by
  have hpin := (hg.mem_pinned hb).mpr hi
  obtain ⟨j, hj, _⟩ := hg.cache.pinned b hpin
  have hkey : (s.bc.buf j).dev = ROOTDEV ∧
      (s.bc.buf j).blockno ∈ pinned s.log.lh (who.map Prod.snd) := ⟨hj.1, hj.2 ▸ hpin⟩
  exact ⟨j, hj, by rw [hg.cache.refcnt j, if_pos hkey]⟩

theorem Group.refcnt_unpinned (hg : Group s v who) {j : Fin NBUF}
    (hj : ∀ i b, s.log.lh[i]? = some b → s.bc.Holds j b → Installed s i) :
    (s.bc.buf j).refcnt = uses s.refs j := by
  have hkey : ¬((s.bc.buf j).dev = ROOTDEV ∧
      (s.bc.buf j).blockno ∈ pinned s.log.lh (who.map Prod.snd)) := by
    rintro ⟨hdev, hpin⟩
    have hsub : ∀ c, pinned s.log.lh c ⊆ s.log.lh := by
      intro c
      unfold pinned
      split <;> simp [List.drop_subset]
    obtain ⟨i, hi⟩ := List.mem_iff_getElem?.mp (hsub _ hpin)
    exact (hg.mem_pinned hi).mp hpin (hj i _ hi ⟨hdev, rfl⟩)
  rw [hg.cache.refcnt j, if_neg hkey, Nat.add_zero]

end Pins

theorem reachable_group (hword : start < 2 ^ 32 ∧ start + size ≤ 2 ^ 32) (hclean : bc.Clean disk)
    (hrun : Reaches EventStep (boot start size disk bc) s) : ∃ v who, Group s v who := by
  refine hrun.invariant (fun s => ∃ v who, Group s v who) ⟨_, _, .boot hword hclean⟩ ?_
  rintro s t ⟨v, who, hg⟩ ⟨e, hs⟩
  exact hg.step hs

-- Group commit: a commit runs alone, the blocks in the log are distinct, each has
-- one pin until install_trans has copied it home, and nothing else is pinned.
theorem group_commit_isolated_pinned (hword : start < 2 ^ 32 ∧ start + size ≤ 2 ^ 32) (hclean : bc.Clean disk)
    (hrun : Reaches EventStep (boot start size disk bc) s) :
    (∀ p c, s.pc p = .commit c →
      s.log.outstanding = 0 ∧ s.log.committing = true ∧ ∀ q d, s.pc q = .commit d → q = p) ∧
    (s.log.committing = true → ∀ q i data next, s.logWrite q i data ≠ .ok next) ∧
    (∀ p, s.endOp p ≠ .error (.panic .logCommitting)) ∧
    s.log.lh.Nodup ∧
    (∀ i b, s.log.lh[i]? = some b → ¬Installed s i →
      ∃ j, s.bc.Holds j b ∧ (∀ k, s.bc.Holds k b → k = j) ∧
        (s.bc.buf j).refcnt = uses s.refs j + 1 ∧
        ∀ blockno k bc', s.bc.bget ROOTDEV blockno = .ok (k, bc') → bc'.Holds j b) ∧
    (∀ j, (∀ i b, s.log.lh[i]? = some b → s.bc.Holds j b → Installed s i) →
      (s.bc.buf j).refcnt = uses s.refs j) ∧
    (∀ p, s.pc p = .commit .done → s.log.lh = [] ∧ ∀ j, (s.bc.buf j).refcnt = uses s.refs j) := by
  obtain ⟨v, who, hg⟩ := reachable_group hword hclean hrun
  refine ⟨fun p c hp => ?_, fun hcom q i data next hs => ?_, hg.endOp_no_panic, hg.nodup,
    fun i b hb hi => ?_, fun j hj => hg.refcnt_unpinned hj, fun p hp => ?_⟩
  · have hwho := (hg.committer p c).mp hp
    refine ⟨hg.quiet (by simp [hwho]), by rw [hg.committing, hwho]; rfl, fun q d hq => ?_⟩
    have hsame := hwho.symm.trans ((hg.committer q d).mp hq)
    simp only [Option.some.injEq, Prod.mk.injEq] at hsame
    exact hsame.1.symm
  · have hnone := (hg.logWrite hs).2.1
    rw [hg.committing, hnone] at hcom
    cases hcom
  · obtain ⟨j, hj, hcnt⟩ := hg.refcnt_pinned hb hi
    exact ⟨j, hj, fun k hk => hg.cache.wf.eq_of_holds hk hj, hcnt,
      fun blockno k bc' hget => hg.bget_keeps hj (by omega) hget⟩
  · have hlh := hg.erased p .done ((hg.committer p _).mp hp) (.inr rfl)
    exact ⟨hlh, fun j => hg.refcnt_unpinned (fun i b hb => by simp [hlh] at hb)⟩

-- One operation logs a block twice: one pin until install_trans, none when the commit ends.
theorem group_commit_isolated_pinned_twice : ∃ s t, Reaches EventStep (boot 2 30 (fun _ _ => 0) binit) s ∧
    Reaches EventStep s t ∧ s.log.lh = [100] ∧ s.refs = [] ∧
    (∃ j, s.bc.Holds j 100 ∧ (s.bc.buf j).refcnt = uses s.refs j + 1) ∧
    t.pc 0 = .commit .done ∧ t.log.lh = [] ∧ ∀ j, (t.bc.buf j).refcnt = uses t.refs j := by
  have hrun : (replay (fun s e => (Sys.step s e).toOption) (boot 2 30 (fun _ _ => 0) binit)
      (.beginOp 0 :: logBlock 0 100 buf0 [fun _ => 1, fun _ => 2])).any fun s =>
      decide (s.log.lh = [100] ∧ s.refs = [] ∧ s.log.committing = false ∧
        (replay (fun s e => (Sys.step s e).toOption) s (.endOp 0 :: List.replicate 8 (.commit 0))).any fun t =>
          decide (t.pc 0 = .commit .done)) := by decide +kernel
  have hnext : ∀ e s t, (Sys.step s e).toOption = some t → EventStep s t :=
    fun e s t he => ⟨e, Except.eq_ok_of_toOption he⟩
  obtain ⟨s, hs, hlh, hrefs, hcom, hrest⟩ := exists_of_replay _ _ _ hrun fun e _ => hnext e
  obtain ⟨t, ht, hdone⟩ := exists_of_replay _ _ _ hrest fun e _ => hnext e
  obtain ⟨hcommit, -, -, -, hpin, -⟩ := group_commit_isolated_pinned (by decide) (binit_clean _) hs
  have hnot : ¬Installed s 0 := by
    rintro ⟨p, ⟨tail, hp, -⟩ | hp⟩ <;> exact absurd (hcommit p _ hp).2.1 (by rw [hcom]; decide)
  obtain ⟨j, hj, -, hcnt, -⟩ := hpin 0 100 (by rw [hlh]; rfl) hnot
  obtain ⟨hempty, hfree⟩ :=
    (group_commit_isolated_pinned (by decide) (binit_clean _) (hs.trans ht)).2.2.2.2.2.2 0 hdone
  exact ⟨s, t, hs, ht, hlh, hrefs, ⟨j, hj, hcnt⟩, hdone, hempty, hfree⟩

end Xv6.Log
