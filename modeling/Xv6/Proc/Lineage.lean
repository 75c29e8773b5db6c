import Xv6.Lib.Forest
import Xv6.Proc.Reap

namespace Xv6.Sched

open Transition Forest

-- The child of a fork that has its parent and is not RUNNABLE yet.
def Pc.adopted : Pc → Option Slot
  | .forkWaitUnlock np | .forkReacquire np | .forkRunnable np => some np
  | .yieldAcquire k | .yieldSet k | .yieldSched k | .yieldRelease k => k.adopted
  | _ => none

def Sys.parent (s : Sys) (i : Slot) : Option Slot := (s.proc i).parent

structure Lineage (s : Sys) : Prop where
  adopted : ∀ p np, (s.pc p).adopted = some np → s.parent np = some p
  raised : ∀ i, s.parent i = none →
    i = s.initproc ∨ (s.proc i).state = .unused ∨ (s.proc i).state = .used
  ranked : Ranked s.parent

section

variable {s t : Sys} {c : ℕ} {p q : Slot} {ch : Choice}

variable {np : Slot} {i : Instr}

theorem Pc.forking_of_adopted {pc : Pc} (h : pc.adopted = some np) : pc.forking = some np := by
  induction pc with
  | yieldAcquire k ih | yieldSet k ih | yieldSched k ih | yieldRelease k ih => exact ih h
  | _ => simp_all [Pc.adopted, Pc.forking]

-- Only freeproc takes a parent away, and only fork makes a new process RUNNABLE.
theorem orphan_cases (hi : Inv s) (hc : s.cpuPc c = .switched p) (h : s.code p ch = some i)
    (hexec : s.exec c p i = some t) (r : Slot) :
    (t.parent r = none → s.parent r = none ∨ (t.proc r).state = .unused) ∧
    ((s.proc r).state = .unused ∨ (s.proc r).state = .used →
      (t.proc r).state = .unused ∨ (t.proc r).state = .used ∨ s.pc p = .forkRunnable r) := by
  have hstate := hi.state c p hc
  have hp := (s.pc p).state_ne_used
  rw [← hstate] at hp
  by_cases hstore : ∃ q f pc, i = .update q f pc
  · obtain ⟨q, f, pc, rfl⟩ := hstore
    obtain ⟨hq, hframe⟩ := exec_update hexec
    by_cases hr : r = q
    · subst hr
      obtain ⟨hs, -, -, -, -, hparent⟩ := Proc.unlocked_inj.mp hq
      rw [Sys.parent, Sys.parent, hparent, hs]
      cases code_writes h with
      | yield _ | sleep _ | exit _ => exact ⟨.inl, fun h => absurd h (by simp [hp])⟩
      | tidy _ => exact ⟨.inl, fun h => absurd h (by simp [hp])⟩
      | wake _ hsleep _ => exact ⟨.inl, fun h => absurd h (by simp [hsleep])⟩
      | kill _ _ =>
          refine ⟨.inl, fun h => ?_⟩
          rcases h with h | h <;> simp [h]
      | unfork _ | reap _ _ => exact ⟨fun _ => .inr rfl, fun _ => .inl rfl⟩
      | parent _ | reparent _ _ => exact ⟨(by rintro ⟨⟩), Or.imp_right .inl⟩
      | start hpc => exact ⟨.inl, fun _ => .inr (.inr hpc)⟩
    · obtain ⟨hs, -, -, -, -, hparent⟩ := Proc.unlocked_inj.mp (hframe r hr)
      rw [Sys.parent, Sys.parent, hparent, hs]
      exact ⟨.inl, Or.imp_right .inl⟩
  · obtain ⟨hparent, -, hs⟩ := exec_move hexec (code_fits hi hc h) (fun q f pc he => hstore ⟨q, f, pc, he⟩) r
    rw [Sys.parent, Sys.parent, hparent]
    refine ⟨.inl, fun h => ?_⟩
    rcases hs with hs | ⟨-, ht⟩
    · rw [hs]
      exact h.imp_right .inl
    · exact .inr (.inl ht)

theorem Pc.adopted_of_loops {pc : Pc} (h : pc.loops = true) : pc.adopted = none := by
  cases pc <;> simp_all [Pc.loops, Pc.adopted]

theorem code_adopted (h : s.code p ch = some i) (hnext : i.next.adopted = some np) :
    (s.pc p).adopted = some np ∨ s.pc p = .forkParent np := by
  have hloops : ∀ {pc : Pc}, pc.loops = true → pc.adopted ≠ some np := fun hl hn => by
    rw [Pc.adopted_of_loops hl] at hn
    cases hn
  unfold Sys.code at h
  split at h
  all_goals rename_i hpc
  all_goals try split at h
  all_goals try split at h
  all_goals cases h
  all_goals rw [hpc]
  all_goals simp only [Instr.next] at hnext
  all_goals try exact .inl hnext
  · exact absurd hnext (hloops (loops_wakeupFrom ..))
  · exact absurd hnext (hloops (loops_wakeupFrom ..))
  · cases hnext
    exact .inr rfl
  · cases hnext
  · exact absurd hnext (hloops (loops_reparentNext ..))
  · exact absurd hnext (hloops (loops_scanNext ..))
  · exact absurd hnext (hloops (loops_scanNext ..))

theorem parent_of_forkParent (hpc : s.pc p = .forkParent q) (h : s.code p ch = some i)
    (hexec : s.exec c p i = some t) : t.parent q = some p := by
  simp only [Sys.code, hpc, Option.some.injEq] at h
  subst h
  exact (Proc.unlocked_inj.mp (exec_update hexec).1).2.2.2.2.2

-- The slot that fork has taken has no children.
theorem Family.no_child_of_forking (hi : Inv s) (hf : Family s) (hp : (s.pc p).forking = some q) (r : Slot) :
    s.parent r ≠ some q := by
  intro hr
  exact hf.alive r q hr (.inr (.inl (hi.used p q hp).1))

theorem Lineage.adopted_exec (hi : Inv s) (hl : Lineage s) (hc : s.cpuPc c = .switched p) (h : s.code p ch = some i)
    (hexec : s.exec c p i = some t) {r : Slot} (hr : (t.pc r).adopted = some np) : t.parent np = some r := by
  have hit := hi.exec hc (code_fits hi hc h) hexec
  have hused := (hit.used r np (Pc.forking_of_adopted hr)).1
  have hpc := exec_pc hexec r
  -- Before the step r was the parent already, or the step makes it the parent.
  have hbefore : s.parent np = some r ∨ r = p ∧ s.pc p = .forkParent np := by
    rcases hpc with ⟨rfl, he⟩ | ⟨-, he⟩ | he <;> rw [he] at hr
    · exact (code_adopted h hr).imp (hl.adopted r np) fun hfork => ⟨rfl, hfork⟩
    · exact .inl (hl.adopted r np hr)
    · cases hr
  rcases hbefore with hparent | ⟨rfl, hfork⟩
  · rcases parent_cases hi hc h hexec np with hsame | hnone | ⟨hfork, -⟩ | ⟨status, hexit, hp, -⟩
    · exact hsame.trans hparent
    · rcases (orphan_cases hi hc h hexec np).1 hnone with hs | hs
      · rw [hs] at hparent
        cases hparent
      · rw [hs] at hused
        cases hused
    · rcases hpc with ⟨rfl, -⟩ | ⟨hrp, he⟩ | he
      · exact parent_of_forkParent hfork h hexec
      · rw [he] at hr
        exact absurd (hi.forkOnce r p np (Pc.forking_of_adopted hr) (by rw [hfork]; rfl)) hrp
      · rw [he] at hr
        cases hr
    · have hrp : r = p := Option.some.inj (hparent.symm.trans hp)
      subst hrp
      rw [(exec_frame hexec).2.1] at hr
      rcases code_adopted h hr with hadopted | hfork
      · rw [hexit] at hadopted
        cases hadopted
      · rw [hexit] at hfork
        cases hfork
  · exact parent_of_forkParent hfork h hexec

theorem Lineage.ranked_exec (hi : Inv s) (hf : Family s) (hl : Lineage s) (hc : s.cpuPc c = .switched p)
    (h : s.code p ch = some i) (hexec : s.exec c p i = some t) : Ranked t.parent := by
  have hcases := parent_cases hi hc h hexec
  by_cases hfork : ∃ np, s.pc p = .forkParent np
  · obtain ⟨np, hfork⟩ := hfork
    have hforking : (s.pc p).forking = some np := by rw [hfork]; rfl
    have hne : p ≠ np := by
      rintro rfl
      have hrun := hi.state c p hc
      rw [(hi.used p p hforking).1, hfork] at hrun
      cases hrun
    refine hl.ranked.adopt (hf.no_child_of_forking hi hforking) hne fun x y hxy => ?_
    rcases hcases x with hsame | hnone | ⟨hx, hp⟩ | ⟨status, hexit, -⟩
    · exact .inl (hsame.symm.trans hxy)
    · rw [Sys.parent, hnone] at hxy
      cases hxy
    · rw [hfork, Pc.forkParent.injEq] at hx
      exact .inr ⟨hx.symm, Option.some.inj (hxy.symm.trans hp)⟩
    · rw [hfork] at hexit
      cases hexit
  · by_cases hexit : ∃ status r, s.pc p = .exitReparent status r ∧ s.parent r = some p
    · obtain ⟨status, r, hexit, hr⟩ := hexit
      have hne : s.initproc ≠ r := by
        rintro rfl
        rw [Sys.parent, hf.root.1] at hr
        cases hr
      refine hl.ranked.handOver hf.root.1 hne fun x y hxy => ?_
      rcases hcases x with hsame | hnone | ⟨hx, -⟩ | ⟨status', hx, -, hp⟩
      · exact .inl (hsame.symm.trans hxy)
      · rw [Sys.parent, hnone] at hxy
        cases hxy
      · exact absurd ⟨x, hx⟩ hfork
      · rw [hexit, Pc.exitReparent.injEq] at hx
        exact .inr ⟨hx.2.symm, Option.some.inj (hxy.symm.trans hp)⟩
    · refine hl.ranked.mono fun x y hxy => ?_
      rcases hcases x with hsame | hnone | ⟨hx, -⟩ | ⟨status, hx, hr, -⟩
      · exact hsame.symm.trans hxy
      · rw [Sys.parent, hnone] at hxy
        cases hxy
      · exact absurd ⟨x, hx⟩ hfork
      · exact absurd ⟨status, x, hx, hr⟩ hexit

theorem Lineage.exec (hi : Inv s) (hf : Family s) (hl : Lineage s) (hc : s.cpuPc c = .switched p)
    (h : s.code p ch = some i) (hexec : s.exec c p i = some t) : Lineage t where
  adopted _ _ hr := hl.adopted_exec hi hc h hexec hr
  raised r hr := by
    obtain ⟨hparent, hstate⟩ := orphan_cases hi hc h hexec r
    rcases hparent hr with hs | hs
    · rcases hl.raised r hs with hinit | hstart
      · exact .inl (hinit.trans (exec_frame hexec).1.symm)
      · rcases hstate hstart with ht | ht | hrun
        · exact .inr (.inl ht)
        · exact .inr (.inr ht)
        · rw [hl.adopted p r (by rw [hrun]; rfl)] at hs
          cases hs
    · exact .inr (.inl hs)
  ranked := hl.ranked_exec hi hf hc h hexec

theorem Lineage.step (hi : Inv s) (hf : Family s) (hl : Lineage s) (h : s.step c ch = some t) : Lineage t := by
  rcases step_cases h with ⟨hid, -⟩ | ⟨p, i, hc, hcode, hexec⟩
  · have hparent : t.parent = s.parent := funext fun r => (hid.fields r).2.2.2.2
    refine ⟨fun q np hq => ?_, fun r hr => ?_, hparent ▸ hl.ranked⟩
    · rw [hparent]
      rcases hid.pc q with he | ⟨he, -⟩ <;> rw [he] at hq <;> exact hl.adopted q np hq
    · rw [hparent] at hr
      rw [hid.init]
      rcases hid.state r with hs | ⟨hrun, -⟩
      · rw [hs]
        exact hl.raised r hr
      · exact .inl ((hl.raised r hr).resolve_right (by simp [hrun]))
  · exact hl.exec hi hf hc hcode hexec

theorem Lineage.boot : Lineage Sys.boot where
  adopted p np h := by
    by_cases hp : p = first <;> simp [Sys.boot, hp, Pc.adopted] at h
  raised i _ := by
    by_cases hp : i = first <;> simp [Sys.boot, hp]
  ranked := by
    refine ⟨fun _ => 0, fun x y hxy => ?_⟩
    by_cases hx : x = first <;> simp [Sys.parent, Sys.boot, hx] at hxy

end

theorem reachable_lineage {s : Sys} (hrun : Reaches Step Sys.boot s) : Lineage s :=
  hrun.invariant_of Lineage (fun _ h => And.intro (reachable_inv h) (reachable_family h)) .boot
    fun _ _ hb hl ⟨_, _, h⟩ => hl.step hb.1 hb.2 h

-- A process that has a parent has one that can still wait for it, and every
-- zombie has one.
theorem parents_alive {s : Sys} (hrun : Reaches Step Sys.boot s) :
    (∀ i q, (s.proc i).parent = some q → (s.proc q).state ≠ .unused ∧ (s.proc q).state ≠ .zombie) ∧
    (∀ i, ¬Ancestor s.parent i i) ∧
    ∀ i, (s.proc i).state = .zombie →
      ∃ q, (s.proc i).parent = some q ∧ (s.proc q).state ≠ .unused ∧ (s.proc q).state ≠ .zombie := by
  have hf := reachable_family hrun
  have hl := reachable_lineage hrun
  have halive : ∀ i q, (s.proc i).parent = some q →
      (s.proc q).state ≠ .unused ∧ (s.proc q).state ≠ .zombie := fun i q hq =>
    ⟨fun hs => hf.alive i q hq (.inl hs), fun hs => hf.alive i q hq (.inr (.inr hs))⟩
  refine ⟨halive, hl.ranked.not_ancestor_self, fun i hz => ?_⟩
  cases hparent : (s.proc i).parent with
  | some q => exact ⟨q, rfl, halive i q hparent⟩
  | none =>
      rcases hl.raised i hparent with rfl | hs | hs
      · exact absurd (.inr (.inr hz)) hf.root.2
      · rw [hz] at hs
        cases hs
      · rw [hz] at hs
        cases hs

set_option maxRecDepth 8000 in
theorem parents_alive_zombie : ∃ s, Reaches Step Sys.boot s ∧ s.waitLock = none ∧
    (s.proc second).state = .zombie ∧ ∃ q, (s.proc second).parent = some q ∧
      (s.proc q).state ≠ .unused ∧ (s.proc q).state ≠ .zombie := by
  obtain ⟨s, hrun, hfree, hz⟩ := exists_of_any (r := Sys.boot.run (forkScript ++ exitScript))
    (P := fun s => s.waitLock = none ∧ (s.proc second).state = .zombie) (by decide +kernel)
  have hreach := reaches_of_run hrun
  exact ⟨s, hreach, hfree, hz, (parents_alive hreach).2.2 second hz⟩

end Xv6.Sched
