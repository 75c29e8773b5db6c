import Xv6.Proc.Family

namespace Xv6.Sched

open Transition Relation

-- A p->lock, or wait_lock.
inductive Lock
  | proc (q : Slot)
  | wait

namespace Sys

def owner (s : Sys) : Lock → Option ℕ
  | .proc q => (s.proc q).lock
  | .wait => s.waitLock

-- The lock that a CPU acquires in its next action.
def wants (s : Sys) (c : ℕ) : Option Lock :=
  match s.cpuPc c with
  | .acquire i => some (.proc i)
  | .switched p =>
      match s.code p .ok with
      | some (.acquire q _) => some (.proc q)
      | some (.acquireWait _) => some .wait
      | _ => none
  | _ => none

def WaitsFor (s : Sys) (c c' : ℕ) : Prop := ∃ l, s.wants c = some l ∧ s.owner l = some c'

-- An action of its own, not an interrupt: acquire turns interrupts off before it spins.
def Moves (s : Sys) (c : ℕ) : Prop := ∃ ch t, ch ≠ .yield ∧ s.step c ch = some t

end Sys

-- What acquire, release and sched check, and panic if it is not so.
def Instr.Checked (s : Sys) (c : ℕ) (p : Slot) : Instr → Prop
  | .acquire q _ => (s.proc q).lock ≠ some c
  | .acquireWait _ => s.waitLock ≠ some c
  | .release q _ => (s.proc q).lock = some c
  | .releaseWait _ => s.waitLock = some c
  | .swtch _ => (s.proc p).lock = some c ∧ (∀ q, (s.proc q).lock = some c → q = p) ∧ s.waitLock ≠ some c ∧
      (s.proc p).state ≠ .running
  | _ => True

-- A thread that is through with exit() does not run, and wait_lock is held by a thread.
structure Alive (s : Sys) : Prop where
  running : ∀ p, (s.proc p).state = .running → s.pc p ≠ .dead
  holder : s.waitLock ≠ none → ∃ p, (s.pc p).holdsWait = true

section

variable {s t : Sys} {c : ℕ} {p q : Slot} {ch : Choice} {i : Instr}

theorem code_dead (hwf : (s.pc p).Wf p) (h : s.code p ch = some i) (hd : i.next = .dead) : s.pc p = .exitSched := by
  have hloops : (Pc.dead).loops = false := rfl
  rw [← hd] at hloops
  unfold Sys.code at h
  split at h
  all_goals rename_i hpc
  all_goals try rw [hpc] at hwf
  all_goals try split at h
  all_goals try split at h
  all_goals cases h
  all_goals try cases hd
  all_goals try cases hloops
  · -- A thread that has ended is not interrupted.
    cases hwf.1
  · rw [Instr.next, loops_wakeupFrom] at hloops
    cases hloops
  · rw [Instr.next, loops_wakeupFrom] at hloops
    cases hloops
  · rw [Instr.next, loops_reparentNext] at hloops
    cases hloops
  · exact hpc
  · rw [Instr.next, loops_scanNext] at hloops
    cases hloops
  · rw [Instr.next, loops_scanNext] at hloops
    cases hloops

theorem exec_running (h : s.code p ch = some i) (hexec : s.exec c p i = some t) (hq : (t.proc q).state = .running) :
    (s.proc q).state = .running := by
  rcases exec_slot hexec q with he | ⟨f, pc, rfl, he⟩ | ⟨pc, rfl, he⟩
  · exact (Proc.unlocked_inj.mp he).1.symm.trans hq
  · rw [(Proc.unlocked_inj.mp he).1] at hq
    cases code_writes h with
    | tidy | parent | reparent => exact hq
    | kill =>
        simp only at hq
        split at hq
        · cases hq
        · exact hq
    | _ => cases hq
  · have hs : (t.proc q).state = .used := by
      have := congrArg Proc.state he
      exact this
    rw [hs] at hq
    cases hq

theorem Instr.KeepsWait.next {pc : Pc} (h : i.KeepsWait pc) (hw : pc.holdsWait = true)
    (hrel : ∀ pc, i ≠ .releaseWait pc) : i.next.holdsWait = true := by
  cases i <;> simp_all [Instr.KeepsWait]

namespace Alive

theorem idle (hi : Inv s) (ha : Alive s) (hid : Idles s t) : Alive t := by
  refine ⟨fun p hp => ?_, fun hl => ?_⟩
  · have hdead : s.pc p ≠ .dead := by
      intro hd
      rcases hid.state p with hs | ⟨hs, -⟩
      · exact ha.running p (hs ▸ hp) hd
      · by_cases hon : ∃ c, s.cpuPc c = .switched p
        · obtain ⟨c, hc⟩ := hon
          have hstate := hi.state c p hc
          rw [hs, hd] at hstate
          cases hstate
        · have hheld := ((hi.off p (not_exists.mp hon)).2 (.inl hs)).1
          rw [hd] at hheld
          cases hheld
    rcases hid.pc p with he | ⟨he, -⟩ <;> rw [he]
    · exact hdead
    · exact Pc.noConfusion
  · obtain ⟨p, hw⟩ := ha.holder (hid.waitLock ▸ hl)
    refine ⟨p, ?_⟩
    rcases hid.pc p with he | ⟨-, hint, -⟩
    · rw [he]
      exact hw
    · rw [holdsWait_of_interruptible hint] at hw
      cases hw

theorem exec (hi : Inv s) (hf : Family s) (ha : Alive s) (hc : s.cpuPc c = .switched p) (h : s.code p ch = some i)
    (hexec : s.exec c p i = some t) : Alive t := by
  obtain ⟨-, hpc, hother⟩ := exec_frame hexec
  obtain ⟨-, -, hlock⟩ := exec_cpu hexec
  have hkeeps := code_keepsWait (hi.wf p) h
  refine ⟨fun q hq => ?_, fun hl => ?_⟩
  · have hrun := exec_running h hexec hq
    rcases exec_pc hexec q with ⟨rfl, he⟩ | ⟨-, he⟩ | he <;> rw [he]
    · intro hd
      have hstate := hi.state c q hc
      rw [code_dead (hi.wf q) h hd, hrun] at hstate
      cases hstate
    · exact ha.running q hrun
    · exact Pc.noConfusion
  · -- The lock is taken now, or the thread that has it keeps it.
    have hold : s.waitLock ≠ none → (∀ pc, i ≠ .releaseWait pc) → ∃ q, (t.pc q).holdsWait = true := by
      intro hs hrel
      obtain ⟨q, hw⟩ := ha.holder hs
      refine ⟨q, ?_⟩
      by_cases hqp : q = p
      · rw [hqp] at hw ⊢
        rw [hpc]
        exact hkeeps.next hw hrel
      · rcases hother q hqp with he | ⟨pc, rfl, -⟩
        · rw [he]
          exact hw
        · obtain ⟨c', hc', -⟩ := hf.holder q hw
          have hstate := hi.state c' q hc'
          rw [(code_fits hi hc h).2.2.2.1] at hstate
          exact absurd hstate.symm (Pc.state_ne_used _).2
    cases i with
    | acquireWait pc => exact ⟨p, hpc ▸ hkeeps.2⟩
    | releaseWait pc => exact absurd hlock hl
    | _ => exact hold (hlock ▸ hl) nofun

theorem boot : Alive Sys.boot where
  running p h := by
    by_cases hp : p = first <;> simp [Sys.boot, hp] at h
  holder h := absurd rfl h

end Alive

theorem reachable_alive (hrun : Reaches Step Sys.boot s) : Alive s :=
  hrun.invariant_of Alive (fun _ h => And.intro (reachable_inv h) (reachable_family h)) .boot fun s t hb ha hst => by
    obtain ⟨c, ch, h⟩ := hst
    rcases step_cases h with ⟨hid, -⟩ | ⟨p, i, hc, hcode, hexec⟩
    · exact ha.idle hb.1 hid
    · exact ha.exec hb.1 hb.2 hc hcode hexec

theorem Alive.switched (ha : Alive s) (hf : Family s) (hl : s.waitLock = some c) :
    ∃ p, s.cpuPc c = .switched p ∧ (s.pc p).holdsWait = true := by
  obtain ⟨p, hw⟩ := ha.holder (by rw [hl]; exact Option.some_ne_none c)
  obtain ⟨c', hc, hl'⟩ := hf.holder p hw
  obtain rfl : c = c' := Option.some.inj (hl.symm.trans hl')
  exact ⟨p, hc, hw⟩

-- wait_lock comes before the p->locks.
theorem code_acquireWait {pc : Pc} (h : s.code p ch = some (.acquireWait pc)) : (s.pc p).held p = none := by
  unfold Sys.code at h
  split at h
  all_goals rename_i hpc
  all_goals try split at h
  all_goals try split at h
  all_goals cases h
  all_goals rw [hpc]
  all_goals rfl

theorem code_none (h : s.code p .ok = none) : s.pc p = .kernel ∨ s.pc p = .dead := by
  unfold Sys.code at h
  split at h
  all_goals rename_i hpc
  all_goals try split at h
  all_goals try split at h
  all_goals cases h
  all_goals first | exact .inl hpc | exact .inr hpc

theorem moves_or_waits (hi : Inv s) (ha : Alive s) (hc : s.cpuPc c = .switched p) :
    s.Moves c ∨ s.holds c = none ∧ ∃ l c', s.wants c = some l ∧ s.owner l = some c' ∧
      (l = .wait → (s.pc p).holdsWait = false) := by
  have hmoves : ∀ ch t, ch ≠ .yield → s.code p ch >>= s.exec c p = some t → s.Moves c := by
    intro ch t hch ht
    refine ⟨ch, t, hch, ?_⟩
    rw [← ht]
    cases ch <;> first | exact absurd rfl hch | simp [Sys.step, hc]
  have hholds : s.holds c = (s.pc p).held p := by rw [Sys.holds, hc]
  cases hcode : s.code p .ok with
  | none =>
      rcases code_none hcode with hpc | hpc
      · refine .inl (hmoves .wait (s.goto p .waitLock) Choice.noConfusion ?_)
        rw [Sys.code, hpc]
        rfl
      · have hrun := hi.state c p hc
        rw [hpc] at hrun
        exact absurd hpc (ha.running p hrun)
  | some i =>
      have hmoves : ∀ t, s.exec c p i = some t → s.Moves c := by
        intro t ht
        refine hmoves .ok t Choice.noConfusion ?_
        rw [hcode]
        exact ht
      cases i with
      | acquire q pc =>
          cases hl : (s.proc q).lock with
          | none => exact .inl (hmoves _ (if_pos hl))
          | some c' =>
              refine .inr ⟨hholds.trans (code_fits hi hc hcode).1, .proc q, c', ?_, hl, Lock.noConfusion⟩
              simp only [Sys.wants, hc, hcode]
      | acquireWait pc =>
          cases hl : s.waitLock with
          | none => exact .inl (hmoves _ (if_pos hl))
          | some c' =>
              refine .inr ⟨hholds.trans (code_acquireWait hcode), .wait, c', ?_, hl, fun _ => ?_⟩
              · simp only [Sys.wants, hc, hcode]
              · exact (code_keepsWait (hi.wf p) hcode).1
      | _ => exact .inl (hmoves _ rfl)

-- Who holds a p->lock never waits for a lock.
theorem moves_of_holds (hi : Inv s) (ha : Alive s) (hq : s.holds c = some q) : s.Moves c := by
  cases hc : s.cpuPc c with
  | acquire i =>
      rw [Sys.holds, hc] at hq
      cases hq
  | switched p =>
      rcases moves_or_waits hi ha hc with hm | ⟨hnone, -⟩
      · exact hm
      · rw [hnone] at hq
        cases hq
  | test i =>
      refine ⟨.ok, ?_⟩
      simp only [Sys.step, hc, Sys.schedule]
      split <;> exact ⟨_, Choice.noConfusion, rfl⟩
  | back i | release i =>
      refine ⟨.ok, ?_⟩
      simp only [Sys.step, hc, Sys.schedule]
      exact ⟨_, Choice.noConfusion, rfl⟩

theorem moves_of_lock (hi : Inv s) (ha : Alive s) (hl : (s.proc q).lock = some c) : s.Moves c :=
  moves_of_holds hi ha ((hi.lock q c).mp hl)

theorem reaches_moving (hi : Inv s) (hf : Family s) (ha : Alive s) (c : ℕ) :
    ∃ c', ReflTransGen s.WaitsFor c c' ∧ s.Moves c' := by
  cases hc : s.cpuPc c with
  | switched p =>
      rcases moves_or_waits hi ha hc with hm | ⟨-, l, c', hw, ho, -⟩
      · exact ⟨c, .refl, hm⟩
      · cases l with
        | proc q => exact ⟨c', .single ⟨_, hw, ho⟩, moves_of_lock hi ha ho⟩
        | wait =>
            -- The holder of wait_lock waits for a p->lock at most.
            obtain ⟨p', hp', hholds⟩ := ha.switched hf ho
            rcases moves_or_waits hi ha hp' with hm | ⟨-, l, c'', hw', ho', hnot⟩
            · exact ⟨c', .single ⟨_, hw, ho⟩, hm⟩
            · cases l with
              | proc q => exact ⟨c'', .tail (.single ⟨_, hw, ho⟩) ⟨_, hw', ho'⟩, moves_of_lock hi ha ho'⟩
              | wait =>
                  rw [hnot rfl] at hholds
                  cases hholds
  | acquire i =>
      cases hl : (s.proc i).lock with
      | none =>
          refine ⟨c, .refl, .ok, ?_⟩
          simp only [Sys.step, hc, Sys.schedule, hl, if_true]
          exact ⟨_, Choice.noConfusion, rfl⟩
      | some c' => exact ⟨c', .single ⟨.proc i, by rw [Sys.wants, hc], hl⟩, moves_of_lock hi ha hl⟩
  | test i | back i | release i => exact ⟨c, .refl, moves_of_holds hi ha (by rw [Sys.holds, hc])⟩

theorem code_checked (hi : Inv s) (hf : Family s) (ha : Alive s)
    (hc : s.cpuPc c = .switched p) (h : s.code p ch = some i) : i.Checked s c p := by
  have hfits := code_fits hi hc h
  have hkeeps := code_keepsWait (hi.wf p) h
  have hholds : s.holds c = (s.pc p).held p := by rw [Sys.holds, hc]
  have hnot : (s.pc p).holdsWait = false → s.waitLock ≠ some c := by
    intro hw hl
    obtain ⟨q, hq, hw'⟩ := ha.switched hf hl
    rw [hc] at hq
    cases hq
    rw [hw] at hw'
    cases hw'
  cases i with
  | acquire q pc =>
      intro hl
      rw [hi.lock, hholds, hfits.1] at hl
      cases hl
  | release q pc => exact hi.lock_of_held hc hfits.1
  | acquireWait pc => exact hnot hkeeps.1
  | releaseWait pc =>
      obtain ⟨c', hc', hl⟩ := hf.holder p hkeeps.1
      rw [hi.switched_once hc hc']
      exact hl
  | swtch pc =>
      refine ⟨hi.lock_of_held hc hfits.1, fun q hq => ?_, hnot hkeeps.1, ?_⟩
      · rw [hi.lock, hholds, hfits.1] at hq
        exact (Option.some.inj hq).symm
      · rw [hi.state c p hc]
        exact hfits.2.1
  | _ => trivial

end

-- Among wait_lock and the locks of the processes there is no deadlock: who waits for one waits, at the end of the
-- chain, for a CPU that goes on. And none of the checks in acquire, release and sched fails.
theorem locks_progress {s : Sys} (hrun : Reaches Step Sys.boot s) :
    (∀ c, ∃ c', ReflTransGen s.WaitsFor c c' ∧ s.Moves c') ∧
    (∀ c p ch i, s.cpuPc c = .switched p → s.code p ch = some i → i.Checked s c p) ∧
    ∀ c i, (s.cpuPc c = .acquire i → (s.proc i).lock ≠ some c) ∧
      (s.cpuPc c = .release i → (s.proc i).lock = some c) := by
  have hi := reachable_inv hrun
  have hf := reachable_family hrun
  have ha := reachable_alive hrun
  refine ⟨reaches_moving hi hf ha, fun c p ch i => code_checked hi hf ha, fun c i => ⟨?_, ?_⟩⟩
  · intro hc hl
    rw [hi.lock, Sys.holds, hc] at hl
    cases hl
  · intro hc
    rw [hi.lock, Sys.holds, hc]

-- CPU 0 has the lock of the first process, for which CPU 1 waits.
theorem locks_progress_contended :
    ∃ s, Reaches Step Sys.boot s ∧ s.WaitsFor 1 0 ∧ ∃ c', ReflTransGen s.WaitsFor 1 c' ∧ s.Moves c' := by
  obtain ⟨s, h⟩ : ∃ s, Sys.boot.step 0 .ok = some s := ⟨_, rfl⟩
  have hrun : Reaches Step Sys.boot s := .single ⟨0, .ok, h⟩
  refine ⟨s, hrun, ?_, (locks_progress hrun).1 1⟩
  cases h
  exact ⟨.proc first, rfl, rfl⟩

end Xv6.Sched
