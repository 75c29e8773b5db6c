import Xv6.Proc.Kill

namespace Xv6.Sched

open Transition

-- In wait(), from the moment killed() has read p->killed as 0 up to the acquire of p->lock in
-- sleep.
def Pc.window : Pc → Bool
  | .waitKilledRelease false | .sleepAcquire (.proc _) _ => true
  | .yieldAcquire k | .yieldSet k | .yieldSched k | .yieldRelease k => k.window
  | _ => false

-- On the way from there into sleep, with p->lock held.
def Pc.sinking : Pc → Bool
  | .sleepUnlock (.proc _) _ | .sleepSet (.proc _) _ => true
  | _ => false

-- The code that CPU c is about to run is not the kill of a process in that window.
def Timely (s : Sys) (c : ℕ) : Prop :=
  ∀ p pid i, s.cpuPc c = .switched p → s.pc p = .killTest pid i → (s.proc i).pid = pid → (s.pc i).window = false

def TimelyStep (s t : Sys) : Prop := ∃ c ch, Timely s c ∧ s.step c ch = some t

structure Spared (s : Sys) : Prop where
  window : ∀ p, (s.pc p).window = true → (s.proc p).killed = false
  sinking : ∀ p, (s.pc p).sinking = true → (s.proc p).killed = false
  asleep : ∀ p q, (s.proc p).state = .sleeping → (s.proc p).chan = .proc q → (s.proc p).killed = false

section

variable {s t : Sys} {c : ℕ} {p : Slot} {ch : Choice} {i : Instr}

theorem window_of_loops {pc : Pc} (h : pc.loops = true) : pc.window = false ∧ pc.sinking = false := by
  cases pc <;> first | exact ⟨rfl, rfl⟩ | cases h

theorem code_window (h : s.code p ch = some i) (hw : i.next.window = true) :
    (s.pc p).window = true ∨ (s.pc p = .waitKilledTest ∧ (s.proc p).killed = false) := by
  unfold Sys.code at h
  split at h
  all_goals rename_i hpc
  all_goals try split at h
  all_goals try split at h
  all_goals cases h
  all_goals rw [hpc]
  all_goals try cases hw
  all_goals try exact .inl hw
  · rw [Instr.next, (window_of_loops (loops_wakeupFrom ..)).1] at hw
    cases hw
  · rw [Instr.next, (window_of_loops (loops_wakeupFrom ..)).1] at hw
    cases hw
  · rw [Instr.next, (window_of_loops (loops_reparentNext ..)).1] at hw
    cases hw
  · rw [Instr.next, (window_of_loops (loops_scanNext ..)).1] at hw
    cases hw
  · rw [Instr.next, (window_of_loops (loops_scanNext ..)).1] at hw
    cases hw
  · -- killed() reads p->killed
    cases hk : (s.proc p).killed with
    | true =>
        rw [hk] at hw
        cases hw
    | false => exact .inr ⟨rfl, rfl⟩
  · rename_i killed hk
    cases killed
    · exact .inl rfl
    · exact absurd rfl hk

theorem Pc.held_of_sinking {pc : Pc} (h : pc.sinking = true) : pc.held p = some p := by
  cases pc <;> first | rfl | cases h

theorem Pc.parked_of_sinking {pc : Pc} (h : pc.sinking = true) : pc.parked = false := by
  cases pc <;> first | rfl | cases h

theorem code_sinking (hwf : (s.pc p).Wf p) (h : s.code p ch = some i) (hs : i.next.sinking = true) :
    (s.pc p).window = true ∨ (s.pc p).sinking = true := by
  unfold Sys.code at h
  split at h
  all_goals rename_i hpc
  all_goals try rw [hpc] at hwf
  all_goals try split at h
  all_goals try split at h
  all_goals cases h
  all_goals rw [hpc]
  all_goals try cases hs
  · -- yieldRelease: the interrupted code held no lock
    have hnone := (interruptible_plain hwf.1).1
    rw [Instr.next] at hs
    rw [Pc.held_of_sinking hs] at hnone
    cases hnone
  · rename_i chan w
    cases chan <;> first | exact .inl rfl | cases hs
  · rename_i chan
    cases chan <;> first | exact .inr rfl | cases hs
  · rename_i chan
    cases chan <;> first | exact .inr rfl | cases hs
  · rw [Instr.next, (window_of_loops (loops_wakeupFrom ..)).2] at hs
    cases hs
  · rw [Instr.next, (window_of_loops (loops_wakeupFrom ..)).2] at hs
    cases hs
  · rw [Instr.next, (window_of_loops (loops_reparentNext ..)).2] at hs
    cases hs
  · rw [Instr.next, (window_of_loops (loops_scanNext ..)).2] at hs
    cases hs
  · rw [Instr.next, (window_of_loops (loops_scanNext ..)).2] at hs
    cases hs

-- Only kill sets p->killed, and it lets nobody sleep.
theorem exec_killed (h : s.code p ch = some i) (hexec : s.exec c p i = some t) (r : Slot) :
    ((t.proc r).killed = true → (s.proc r).killed = true) ∨
      (s.pc p = .killTest (s.proc r).pid r ∧ (t.proc r).state ≠ .sleeping) := by
  rcases exec_slot hexec r with he | ⟨f, pc, rfl, he⟩ | ⟨pc, rfl, he⟩
  · rw [(Proc.unlocked_inj.mp he).2.2.1]
    exact .inl id
  · obtain ⟨hs, -, hk, -⟩ := Proc.unlocked_inj.mp he
    rw [hs, hk]
    cases code_writes h with
    | kill hpc hpid =>
        refine .inr ⟨hpc.trans (by rw [hpid]), ?_⟩
        simp only
        split
        · simp
        · assumption
    | unfork _ | reap _ _ => exact .inl Bool.noConfusion
    | _ => exact .inl id
  · rw [(Proc.unlocked_inj (a := t.proc r) (b := { s.proc r with pid := s.nextpid, state := .used })).mp he |>.2.2.1]
    exact .inl id

theorem exec_sleeping (h : s.code p ch = some i) (hexec : s.exec c p i = some t) {r q : Slot}
    (hstate : (t.proc r).state = .sleeping) (hchan : (t.proc r).chan = .proc q) :
    ((s.proc r).state = .sleeping ∧ (s.proc r).chan = .proc q) ∨ ∃ w, p = r ∧ s.pc p = .sleepSet (.proc q) w := by
  rcases exec_slot hexec r with he | ⟨f, pc, rfl, he⟩ | ⟨pc, rfl, he⟩
  · obtain ⟨hs, hc, -⟩ := Proc.unlocked_inj.mp he
    exact .inl ⟨hs.symm.trans hstate, hc.symm.trans hchan⟩
  · obtain ⟨hs, hc, -⟩ := Proc.unlocked_inj.mp he
    rw [hstate] at hs
    rw [hchan] at hc
    cases code_writes h with
    | sleep hpc =>
        rw [hc]
        exact .inr ⟨_, rfl, hpc⟩
    | kill hpc hpid =>
        simp only at hs
        split at hs
        · cases hs
        · exact absurd hs.symm ‹_›
    | tidy _ => cases hc
    | parent _ | reparent _ _ => exact .inl ⟨hs.symm, hc.symm⟩
    | _ => cases hs
  · have hs := (Proc.unlocked_inj (b := { s.proc r with pid := s.nextpid, state := .used })).mp he |>.1
    rw [hstate] at hs
    cases hs

namespace Spared

theorem exec (hi : Inv s) (hf : Family s) (hs : Spared s) (hc : s.cpuPc c = .switched p)
    (h : s.code p ch = some i) (hexec : s.exec c p i = some t) (htimely : Timely s c) : Spared t := by
  have hq : ∀ r, (s.pc r).window = true → (t.proc r).killed = true → (s.proc r).killed = true := by
    refine fun r hw => (exec_killed h hexec r).resolve_right fun hkill => ?_
    rw [htimely p _ r hc hkill.1 rfl] at hw
    cases hw
  have hkeep : ∀ r, ((t.proc r).killed = true → (s.proc r).killed = true) → (s.proc r).killed = false →
      (t.proc r).killed = false := by
    intro r hk hfalse
    cases ht : (t.proc r).killed with
    | false => rfl
    | true =>
        rw [hk ht] at hfalse
        cases hfalse
  refine ⟨fun r hw => ?_, fun r hsink => ?_, fun r q hstate hchan => ?_⟩
  · rcases exec_pc hexec r with ⟨rfl, he⟩ | ⟨-, he⟩ | he <;> rw [he] at hw
    · rcases code_window h hw with hold | ⟨hat, hk⟩
      · exact hkeep r (hq r hold) (hs.window r hold)
      · refine hkeep r ((exec_killed h hexec r).resolve_right ?_) hk
        rintro ⟨hkill, -⟩
        rw [hat] at hkill
        cases hkill
    · exact hkeep r (hq r hw) (hs.window r hw)
    · cases hw
  · rcases exec_pc hexec r with ⟨rfl, he⟩ | ⟨hrp, he⟩ | he <;> rw [he] at hsink
    · rcases code_sinking (hi.wf r) h hsink with hold | hold
      · exact hkeep r (hq r hold) (hs.window r hold)
      · refine hkeep r ((exec_killed h hexec r).resolve_right ?_) (hs.sinking r hold)
        rintro ⟨hkill, -⟩
        rw [hkill] at hold
        cases hold
    · refine hkeep r ((exec_killed h hexec r).resolve_right ?_) (hs.sinking r hsink)
      -- The killer and the sleeper would both hold p->lock.
      rintro ⟨hkill, -⟩
      obtain ⟨c', hc'⟩ := hf.parked r (Pc.parked_of_sinking hsink)
      exact hrp (hi.held_unique hc' hc (Pc.held_of_sinking hsink) (by rw [hkill]; rfl))
    · cases hsink
  · have hk := (exec_killed h hexec r).resolve_right fun hkill => hkill.2 hstate
    refine hkeep r hk ?_
    rcases exec_sleeping h hexec hstate hchan with ⟨hs', hc'⟩ | ⟨w, rfl, hat⟩
    · exact hs.asleep r q hs' hc'
    · exact hs.sinking p (by rw [hat]; rfl)

theorem step (hi : Inv s) (hf : Family s) (hs : Spared s) (h : TimelyStep s t) : Spared t := by
  obtain ⟨c, ch, htimely, h⟩ := h
  rcases step_cases h with ⟨hid, -⟩ | ⟨p, i, hc, hcode, hexec⟩
  · have hkilled : ∀ r, (t.proc r).killed = (s.proc r).killed := fun r => (hid.fields r).2.1
    refine ⟨fun r hw => ?_, fun r hsink => ?_, fun r q hstate hchan => ?_⟩ <;> rw [hkilled]
    · rcases hid.pc r with he | ⟨he, -⟩ <;> rw [he] at hw <;> exact hs.window r hw
    · rcases hid.pc r with he | ⟨he, -⟩ <;> rw [he] at hsink
      · exact hs.sinking r hsink
      · cases hsink
    · rcases hid.state r with he | ⟨-, ht⟩
      · exact hs.asleep r q (he ▸ hstate) ((hid.fields r).1.symm.trans hchan)
      · rw [ht] at hstate
        cases hstate
  · exact hs.exec hi hf hc hcode hexec htimely

theorem boot : Spared Sys.boot := by
  refine ⟨fun p _ => ?_, fun p _ => ?_, fun p q _ _ => ?_⟩ <;>
    by_cases hp : p = first <;> simp [Sys.boot, hp]

end Spared

end

theorem reachable_spared {s : Sys} (hrun : Reaches TimelyStep Sys.boot s) : Spared s := by
  have hbase : ∀ t, Reaches TimelyStep Sys.boot t → Inv t ∧ Family t := fun t ht =>
    have ht' := ht.mono fun _ _ ⟨c, ch, _, h⟩ => ⟨c, ch, h⟩
    ⟨reachable_inv ht', reachable_family ht'⟩
  exact hrun.invariant_of Spared hbase .boot fun _ _ hi hs h => hs.step hi.1 hi.2 h

end Xv6.Sched
