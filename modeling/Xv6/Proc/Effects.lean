import Xv6.Proc.Theorems

namespace Xv6

open Function (update_of_ne update_self)

def Proc.unlocked (p : Proc) : Proc := { p with lock := none }

theorem Proc.unlocked_inj {a b : Proc} : a.unlocked = b.unlocked ↔ a.state = b.state ∧ a.chan = b.chan ∧
    a.killed = b.killed ∧ a.xstate = b.xstate ∧ a.pid = b.pid ∧ a.parent = b.parent := by
  simp [Proc.unlocked]

namespace Sched

open Transition

def Instr.next : Instr → Pc
  | .goto pc | .acquire _ pc | .release _ pc | .acquireWait pc | .releaseWait pc => pc
  | .update _ _ pc | .allocproc _ pc | .swtch pc => pc

def Sys.run (s : Sys) (l : List (ℕ × Choice)) : Option Sys := replay (fun s x => s.step x.1 x.2) s l

def Instr.table (s : Sys) : Instr → Slot → Proc
  | .update q f _, r => if r = q then (f (s.proc q)).unlocked else (s.proc r).unlocked
  | .allocproc q _, r =>
      if r = q then { (s.proc q).unlocked with pid := s.nextpid, state := .used } else (s.proc r).unlocked
  | _, r => (s.proc r).unlocked

-- The stores of the thread programs to the table, each with what has been tested before it.
inductive Writes (s : Sys) (p : Slot) : Slot → (Proc → Proc) → Pc → Prop
  | yield {k : Pc} (hpc : s.pc p = .yieldSet k) :
      Writes s p p (fun q => { q with state := .runnable }) (.yieldSched k)
  | sleep {chan : Chan} {w : Bool} (hpc : s.pc p = .sleepSet chan w) :
      Writes s p p (fun q => { q with chan := chan, state := .sleeping }) (.sleepSched w)
  | tidy {w : Bool} (hpc : s.pc p = .sleepTidy w) :
      Writes s p p (fun q => { q with chan := .null }) (.sleepRelease w)
  | wake {chan : Chan} {i : Slot} {k : Ret} (hpc : s.pc p = .wakeupTest chan i k)
      (hstate : (s.proc i).state = .sleeping) (hchan : (s.proc i).chan = chan) :
      Writes s p i (fun q => { q with state := .runnable }) (.wakeupRelease chan i k)
  | kill {pid : Int} {i : Slot} (hpc : s.pc p = .killTest pid i) (hpid : (s.proc i).pid = pid) :
      Writes s p i (fun q => { q with
        killed := true
        state := if q.state = .sleeping then .runnable else q.state }) (.killDone i)
  | unfork {np : Slot} (hpc : s.pc p = .forkAlloc np ∨ s.pc p = .forkCopy np) :
      Writes s p np Proc.freeproc (.forkFail np)
  | parent {np : Slot} (hpc : s.pc p = .forkParent np) :
      Writes s p np (fun q => { q with parent := some p }) (.forkWaitUnlock np)
  | start {np : Slot} (hpc : s.pc p = .forkRunnable np) :
      Writes s p np (fun q => { q with state := .runnable }) (.forkDone np)
  | reparent {status : Int} {i : Slot} (hpc : s.pc p = .exitReparent status i)
      (hparent : (s.proc i).parent = some p) :
      Writes s p i (fun q => { q with parent := some s.initproc })
        (.wakeup (.proc s.initproc) first (.exitReparent status i))
  | exit {status : Int} (hpc : s.pc p = .exitSet status) :
      Writes s p p (fun q => { q with xstate := status, state := .zombie }) .exitWaitUnlock
  | reap {i : Slot} (hpc : s.pc p = .waitTest i) (hstate : (s.proc i).state = .zombie) :
      Writes s p i Proc.freeproc (.waitRelease i)

-- An interrupt and a step of a scheduler: threads yield, and RUNNABLE processes run.
structure Idles (s t : Sys) : Prop where
  init : t.initproc = s.initproc
  waitLock : t.waitLock = s.waitLock
  nextpid : t.nextpid = s.nextpid
  cpu : ∀ c q, s.cpuPc c = .switched q → t.cpuPc c = .switched q
  fields : ∀ r, (t.proc r).chan = (s.proc r).chan ∧ (t.proc r).killed = (s.proc r).killed ∧
    (t.proc r).xstate = (s.proc r).xstate ∧ (t.proc r).pid = (s.proc r).pid ∧ (t.proc r).parent = (s.proc r).parent
  state : ∀ r, (t.proc r).state = (s.proc r).state ∨ (s.proc r).state = .runnable ∧ (t.proc r).state = .running
  pc : ∀ q, t.pc q = s.pc q ∨ t.pc q = .yieldAcquire (s.pc q) ∧ (s.pc q).interruptible q = true ∧
    ∃ c, s.cpuPc c = .switched q

section

variable {s t : Sys} {c : ℕ} {p : Slot} {ch : Choice}

variable {i : Instr}

theorem code_writes {q : Slot} {f : Proc → Proc} {pc : Pc} (h : s.code p ch = some (.update q f pc)) :
    Writes s p q f pc := by
  unfold Sys.code at h
  split at h
  all_goals rename_i hpc
  all_goals try split at h
  all_goals try split at h
  all_goals simp only [Option.some.injEq, Instr.update.injEq, reduceCtorEq] at h
  all_goals obtain ⟨rfl, rfl, rfl⟩ := h
  · exact .yield hpc
  · exact .sleep hpc
  · exact .tidy hpc
  · rename_i h
    exact .wake hpc h.1 h.2
  · rename_i h
    exact .kill hpc h
  · exact .unfork (.inl hpc)
  · exact .unfork (.inr hpc)
  · exact .parent hpc
  · exact .start hpc
  · rename_i h
    exact .reparent hpc h
  · exact .exit hpc
  · rename_i h _
    exact .reap hpc h

theorem reaches_of_run {l : List (ℕ × Choice)} (h : s.run l = some t) : Reaches Step s t :=
  reaches_of_replay (fun x _ _ _ hx => ⟨x.1, x.2, hx⟩) h

theorem exec_frame (h : s.exec c p i = some t) : t.initproc = s.initproc ∧ t.pc p = i.next ∧
    ∀ q, q ≠ p → t.pc q = s.pc q ∨ ∃ pc, i = .allocproc q pc ∧ t.pc q = .forkret := by
  cases i with
  | goto pc | release q pc | releaseWait pc | update q f pc | swtch pc =>
      cases h
      exact ⟨rfl, update_self .., fun q hq => .inl (update_of_ne hq ..)⟩
  | acquire q pc | acquireWait pc =>
      simp only [Sys.exec] at h
      split at h
      · cases h
        exact ⟨rfl, update_self .., fun q hq => .inl (update_of_ne hq ..)⟩
      · cases h
  | allocproc q pc =>
      cases h
      refine ⟨rfl, update_self .., fun r hr => ?_⟩
      by_cases hrq : r = q
      · subst hrq
        exact .inr ⟨pc, rfl, (update_of_ne hr ..).trans (update_self ..)⟩
      · exact .inl ((update_of_ne hr ..).trans (update_of_ne hrq ..))

theorem unlocked_setLock (s : Sys) (q r : Slot) (holder : Option ℕ) :
    ((s.setLock q holder).proc r).unlocked = (s.proc r).unlocked := by
  by_cases hr : r = q
  · subst hr
    simp [Sys.setLock, Proc.unlocked]
  · simp [Sys.setLock, hr]

theorem unlocked_setProc (s : Sys) (q r : Slot) (f : Proc → Proc) :
    ((s.setProc q f).proc r).unlocked = if r = q then (f (s.proc q)).unlocked else (s.proc r).unlocked := by
  by_cases hr : r = q
  · subst hr
    simp [Sys.setProc, Proc.unlocked]
  · simp [Sys.setProc, hr]

theorem exec_table (h : s.exec c p i = some t) (r : Slot) : (t.proc r).unlocked = i.table s r := by
  cases i with
  | goto pc | releaseWait pc | swtch pc =>
      cases h
      rfl
  | release q pc =>
      cases h
      exact unlocked_setLock s q r none
  | acquireWait pc =>
      simp only [Sys.exec] at h
      split at h
      · cases h
        rfl
      · cases h
  | acquire q pc =>
      simp only [Sys.exec] at h
      split at h
      · cases h
        exact unlocked_setLock s q r _
      · cases h
  | update q f pc =>
      cases h
      exact unlocked_setProc s q r f
  | allocproc q pc =>
      cases h
      exact unlocked_setProc s q r fun r => { r with pid := s.nextpid, state := .used }

-- A slot is as it was, or it is the one stored to, or allocproc has taken it.
theorem exec_slot (h : s.exec c p i = some t) (r : Slot) :
    (t.proc r).unlocked = (s.proc r).unlocked ∨
    (∃ f pc, i = .update r f pc ∧ (t.proc r).unlocked = (f (s.proc r)).unlocked) ∨
    (∃ pc, i = .allocproc r pc ∧
      (t.proc r).unlocked = { (s.proc r).unlocked with pid := s.nextpid, state := .used }) := by
  have htable := exec_table h r
  cases i with
  | update q f pc =>
      by_cases hr : r = q
      · subst hr
        exact .inr (.inl ⟨f, pc, rfl, htable.trans (if_pos rfl)⟩)
      · exact .inl (htable.trans (if_neg hr))
  | allocproc q pc =>
      by_cases hr : r = q
      · subst hr
        exact .inr (.inr ⟨pc, rfl, htable.trans (if_pos rfl)⟩)
      · exact .inl (htable.trans (if_neg hr))
  | _ => exact .inl htable

-- The CPU of the thread leaves it in swtch only; wait_lock changes hands where the action says.
theorem exec_cpu (h : s.exec c p i = some t) :
    ((∀ pc, i ≠ .swtch pc) → t.cpuPc = s.cpuPc) ∧ (∀ c', c' ≠ c → t.cpuPc c' = s.cpuPc c') ∧
    (match i with
      | .acquireWait _ => s.waitLock = none ∧ t.waitLock = some c
      | .releaseWait _ => t.waitLock = none
      | _ => t.waitLock = s.waitLock) := by
  cases i with
  | goto pc | release q pc | releaseWait pc | update q f pc | allocproc q pc =>
      cases h
      exact ⟨fun _ => rfl, fun _ _ => rfl, rfl⟩
  | acquire q pc =>
      simp only [Sys.exec] at h
      split at h
      · cases h
        exact ⟨fun _ => rfl, fun _ _ => rfl, rfl⟩
      · cases h
  | acquireWait pc =>
      simp only [Sys.exec] at h
      split at h
      · rename_i hfree
        cases h
        exact ⟨fun _ => rfl, fun _ _ => rfl, hfree, rfl⟩
      · cases h
  | swtch pc =>
      cases h
      exact ⟨fun hne => absurd rfl (hne pc), fun c' hc => update_of_ne hc .., rfl⟩

theorem Idles.of_frame (hc : ∀ q, s.cpuPc c ≠ .switched q) (hinit : t.initproc = s.initproc) (hpc : t.pc = s.pc)
    (hlock : t.waitLock = s.waitLock) (hnext : t.nextpid = s.nextpid) (hcpu : ∀ c', c' ≠ c → t.cpuPc c' = s.cpuPc c')
    (hslot : ∀ r, (t.proc r).unlocked = (s.proc r).unlocked ∨ (s.proc r).state = .runnable ∧
      (t.proc r).unlocked = { (s.proc r).unlocked with state := .running }) : Idles s t := by
  refine ⟨hinit, hlock, hnext, fun c' q hq => (hcpu c' ?_).trans hq, fun r => ?_, fun r => ?_, fun q => ?_⟩
  · rintro rfl
    exact hc q hq
  · rcases hslot r with he | ⟨-, he⟩
    · exact (Proc.unlocked_inj.mp he).2
    · exact ((Proc.unlocked_inj (b := { s.proc r with state := .running })).mp he).2
  · rcases hslot r with he | ⟨hrun, he⟩
    · exact .inl (Proc.unlocked_inj.mp he).1
    · exact .inr ⟨hrun, congrArg Proc.state he⟩
  · rw [hpc]
    exact .inl rfl

theorem Idles.schedule (hc : ∀ q, s.cpuPc c ≠ .switched q) (h : s.schedule c = some t) : Idles s t := by
  unfold Sys.schedule at h
  split at h
  · split at h
    · cases h
      exact .of_frame hc rfl rfl rfl rfl (fun c' hc => update_of_ne hc ..) fun r => .inl (unlocked_setLock ..)
    · cases h
  · rename_i i _
    split at h
    · rename_i hrun
      cases h
      refine .of_frame hc rfl rfl rfl rfl (fun c' hc => update_of_ne hc ..) fun r => ?_
      have htable := unlocked_setProc s i r fun q => { q with state := .running }
      by_cases hr : r = i
      · subst hr
        rw [if_pos rfl] at htable
        exact .inr ⟨hrun, htable⟩
      · rw [if_neg hr] at htable
        exact .inl htable
    · cases h
      exact .of_frame hc rfl rfl rfl rfl (fun c' hc => update_of_ne hc ..) fun r => .inl rfl
  · cases h
  · cases h
    exact .of_frame hc rfl rfl rfl rfl (fun c' hc => update_of_ne hc ..) fun r => .inl rfl
  · cases h
    exact .of_frame hc rfl rfl rfl rfl (fun c' hc => update_of_ne hc ..) fun r => .inl (unlocked_setLock ..)

theorem Idles.interrupt (hc : s.cpuPc c = .switched p) (hint : (s.pc p).interruptible p = true) :
    Idles s (s.goto p (.yieldAcquire (s.pc p))) := by
  refine ⟨rfl, rfl, rfl, fun _ _ h => h, fun r => ⟨rfl, rfl, rfl, rfl, rfl⟩, fun r => .inl rfl, fun q => ?_⟩
  by_cases hq : q = p
  · subst hq
    exact .inr ⟨update_self .., hint, c, hc⟩
  · exact .inl (update_of_ne hq ..)

-- One step is an action of a thread, or an interrupt or one of a scheduler.
theorem step_cases (h : s.step c ch = some t) :
    (Idles s t ∧ ∀ p, s.cpuPc c = .switched p → (s.pc p).interruptible p = true) ∨
    ∃ p i, s.cpuPc c = .switched p ∧ s.code p ch = some i ∧ s.exec c p i = some t := by
  unfold Sys.step at h
  split at h
  · rename_i p hc
    split_ifs at h with hyield hint
    · cases h
      refine .inl ⟨.interrupt hc hint, fun q hq => ?_⟩
      rw [hc] at hq
      cases hq
      exact hint
    · obtain ⟨i, hcode, hexec⟩ := Option.bind_eq_some_iff.mp h
      exact .inr ⟨p, i, hc, hcode, hexec⟩
  · rename_i hc
    exact .inl ⟨.schedule hc h, fun p hp => absurd hp (hc p)⟩

-- Where a thread is after an action of p, and after any step.
theorem exec_pc (h : s.exec c p i = some t) (q : Slot) :
    q = p ∧ t.pc q = i.next ∨ q ≠ p ∧ t.pc q = s.pc q ∨ t.pc q = .forkret := by
  obtain ⟨-, hpc, hother⟩ := exec_frame h
  by_cases hq : q = p
  · exact .inl ⟨hq, hq ▸ hpc⟩
  · exact .inr ((hother q hq).imp (fun he => ⟨hq, he⟩) fun ⟨_, _, he⟩ => he)

theorem step_pc (h : s.step c ch = some t) (q : Slot) : t.pc q = s.pc q ∨
    t.pc q = .yieldAcquire (s.pc q) ∧ (s.pc q).interruptible q = true ∨ t.pc q = .forkret ∨
    ∃ i, s.code q ch = some i ∧ t.pc q = i.next := by
  rcases step_cases h with ⟨hid, -⟩ | ⟨p, i, -, hcode, hexec⟩
  · rcases hid.pc q with he | ⟨he, hint, -⟩
    · exact .inl he
    · exact .inr (.inl ⟨he, hint⟩)
  · rcases exec_pc hexec q with ⟨rfl, he⟩ | ⟨-, he⟩ | he
    · exact .inr (.inr (.inr ⟨i, hcode, he⟩))
    · exact .inl he
    · exact .inr (.inr (.inl he))

-- The heads of the loops over the table, and what follows them.
def Pc.loops : Pc → Bool
  | .kernel | .wakeup _ _ _ | .exitReparent _ _ | .exitWakeup _ | .exitAcquire _ => true
  | .waitScan _ _ | .waitKilled | .waitUnlock => true
  | _ => false

theorem loops_reparentNext (status : Int) (i : Slot) : (reparentNext status i).loops = true := by
  unfold reparentNext
  split <;> rfl

theorem loops_wakeupFrom (chan : Chan) (k : Ret) (i : Option Slot) : (wakeupFrom chan k i).loops = true := by
  unfold wakeupFrom
  split
  · rfl
  · split
    · rfl
    · exact loops_reparentNext ..
    · rfl

theorem loops_scanNext (i : Slot) (havekids : Bool) : (scanNext i havekids).loops = true := by
  unfold scanNext
  split
  · rfl
  · split <;> rfl

-- wait_lock is taken and given back where the pc says, and not held across swtch.
def Instr.KeepsWait (i : Instr) (pc : Pc) : Prop :=
  match i with
  | .acquireWait _ => pc.holdsWait = false ∧ i.next.holdsWait = true
  | .releaseWait _ => pc.holdsWait = true ∧ i.next.holdsWait = false
  | .swtch _ => pc.holdsWait = false ∧ i.next.holdsWait = false
  | _ => i.next.holdsWait = pc.holdsWait

theorem holdsWait_reparentNext (status : Int) (i : Slot) : (reparentNext status i).holdsWait = true := by
  unfold reparentNext
  split <;> rfl

theorem holdsWait_wakeupFrom (chan : Chan) (k : Ret) (i : Option Slot) :
    (wakeupFrom chan k i).holdsWait = decide (k ≠ .kernel) := by
  unfold wakeupFrom
  split
  · rfl
  · split
    · rfl
    · exact holdsWait_reparentNext ..
    · rfl

theorem holdsWait_scanNext (i : Slot) (havekids : Bool) : (scanNext i havekids).holdsWait = true := by
  unfold scanNext
  split
  · rfl
  · split <;> rfl

theorem holdsWait_of_interruptible {pc : Pc} (h : pc.interruptible p = true) : pc.holdsWait = false := by
  simp only [Pc.interruptible, Bool.and_eq_true, Bool.not_eq_true'] at h
  exact h.1.2

theorem code_keepsWait (hwf : (s.pc p).Wf p) (h : s.code p ch = some i) : i.KeepsWait (s.pc p) := by
  unfold Sys.code at h
  split at h
  all_goals rename_i hpc
  all_goals try rw [hpc] at hwf
  all_goals try split at h
  all_goals try split at h
  all_goals cases h
  all_goals rw [hpc]
  all_goals try (simp [Instr.KeepsWait, Instr.next, Pc.holdsWait]; done)
  · -- yieldRelease
    exact holdsWait_of_interruptible hwf.1
  · exact holdsWait_wakeupFrom ..
  · exact holdsWait_wakeupFrom ..
  · exact holdsWait_reparentNext ..
  · exact holdsWait_scanNext ..
  · exact holdsWait_scanNext ..

end

end Sched

end Xv6
