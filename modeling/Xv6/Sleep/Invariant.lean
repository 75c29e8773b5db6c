import Mathlib.Tactic.SplitIfs
import Xv6.Lib.Transition
import Xv6.Sleep

namespace Xv6.Sleep

open Function (update update_of_ne update_self)

variable {K : Client}

variable {a : Agent} {s : Mach K} {ch : K.Choice} {op : Op K} {Q : Mach K → Agent → K.Choice → Prop}

@[simp] theorem Agent.slot_eq_some {p : Slot} : a.slot = some p ↔ a = .proc p := by
  cases a <;> simp [Agent.slot]

theorem Mach.loc_eq_some {l : K.Loc} : s.loc a = some l ↔ s.pc a = ⟨.run l, none⟩ := by
  obtain ⟨ctl, yield, hpc⟩ : ∃ ctl yield, s.pc a = ⟨ctl, yield⟩ := ⟨_, _, rfl⟩
  rw [Mach.loc, hpc]
  cases yield <;> cases ctl <;> simp

theorem Mach.next_eq_some {act : Act K.Lk K.Chan K.Data K.Loc} :
    s.next a ch = some act ↔ ∃ l, s.pc a = ⟨.run l, none⟩ ∧ K.code a l s.data ch = some act := by
  simp only [Mach.next, Option.bind_eq_some_iff, Mach.loc_eq_some]

namespace Pc

def held (own : Option Slot) (pc : Pc K) : Option Slot :=
  match pc.yield with
  | none => pc.ctl.held own
  | some .acquire => none
  | some _ => own

-- In sleep, with the process SLEEPING and its thread still on the CPU.
def Sinking : Pc K → Prop
  | ⟨.sleepSched _ _, none⟩ => True
  | _ => False

def Asleep : Pc K → Prop
  | ⟨.sleepTidy _ _, none⟩ => True
  | _ => False

def Parked : Pc K → Prop
  | ⟨.sleepTidy _ _, none⟩ | ⟨.forkret _, none⟩ | ⟨_, some .release⟩ => True
  | _ => False

theorem Parked.held {own : Option Slot} {pc : Pc K} (h : pc.Parked) : pc.held own = own := by
  unfold Parked at h
  split at h
  · rfl
  · rfl
  · rfl
  · cases h

theorem Sinking.held {own : Option Slot} {pc : Pc K} (h : pc.Sinking) : pc.held own = own := by
  unfold Sinking at h
  split at h
  · rfl
  · cases h

end Pc

structure Inv (s : Mach K) : Prop where
  yields : ∀ a, (s.pc a).yield ≠ none → (s.pc a).ctl.held a.slot = none
  lock : ∀ q a, (s.proc q).lock = some (.agent a) ↔ s.Runs a ∧ (s.pc a).held a.slot = some q
  scheduler : ∀ q, (s.proc q).lock = some .scheduler ↔ s.sched q = .test ∨ s.sched q = .back
  parked : ∀ p, s.sched p ≠ .running → (s.pc (.proc p)).Parked
  asleep : ∀ p, (s.proc p).state = .sleeping → (s.sched p = .running ∧ (s.pc (.proc p)).Sinking) ∨
    (s.sched p ≠ .running ∧ (s.pc (.proc p)).Asleep)

inductive Moves (s : Mach K) (a : Agent) (ch : K.Choice) : Pc K → Op K → Prop
  | data {l d l'} (hcode : K.code a l s.data ch = some (.data d l')) :
      Moves s a ch ⟨.run l, none⟩ (.data d ⟨.run l', none⟩)
  | acquire {l lk l'} (hcode : K.code a l s.data ch = some (.acquire lk l')) :
      Moves s a ch ⟨.run l, none⟩ (.acquire lk ⟨.run l', none⟩)
  | release {l lk l'} (hcode : K.code a l s.data ch = some (.release lk l')) :
      Moves s a ch ⟨.run l, none⟩ (.release lk ⟨.run l', none⟩)
  | killed {p l yes no} (ha : a = .proc p) (hcode : K.code a l s.data ch = some (.killed yes no)) :
      Moves s a ch ⟨.run l, none⟩ (.goto ⟨.killedAcquire yes no, none⟩)
  | sleep {p l chan lk l'} (ha : a = .proc p) (hcode : K.code a l s.data ch = some (.sleep chan lk l')) :
      Moves s a ch ⟨.run l, none⟩ (.goto ⟨.sleepAcquire chan lk l', none⟩)
  | wakeup {l chan l'} (hcode : K.code a l s.data ch = some (.wakeup chan l')) :
      Moves s a ch ⟨.run l, none⟩ (.goto ⟨.wakeup chan Sched.first l', none⟩)
  | kill {l pid l'} (hcode : K.code a l s.data ch = some (.kill pid l')) :
      Moves s a ch ⟨.run l, none⟩ (.goto ⟨.kill pid Sched.first l', none⟩)
  | yieldAcquire {p ctl} (ha : a = .proc p) :
      Moves s a ch ⟨ctl, some .acquire⟩ (.lockProc p ⟨ctl, some .set⟩)
  | yieldSet {p ctl} (ha : a = .proc p) :
      Moves s a ch ⟨ctl, some .set⟩ (.update p (fun q => { q with state := .runnable }) ⟨ctl, some .sched⟩)
  | yieldSched {p ctl} (ha : a = .proc p) :
      Moves s a ch ⟨ctl, some .sched⟩ (.swtch p ⟨ctl, some .release⟩)
  | yieldRelease {p ctl} (ha : a = .proc p) :
      Moves s a ch ⟨ctl, some .release⟩ (.unlockProc p ⟨ctl, none⟩)
  | killedAcquire {p yes no} (ha : a = .proc p) :
      Moves s a ch ⟨.killedAcquire yes no, none⟩ (.lockProc p ⟨.killedTest yes no, none⟩)
  | killedTest {p yes no} (ha : a = .proc p) :
      Moves s a ch ⟨.killedTest yes no, none⟩ (.goto ⟨.killedRelease (s.proc p).killed yes no, none⟩)
  | killedRelease {p k yes no} (ha : a = .proc p) :
      Moves s a ch ⟨.killedRelease k yes no, none⟩ (.unlockProc p ⟨.run (if k then yes else no), none⟩)
  | sleepAcquire {p chan lk l} (ha : a = .proc p) :
      Moves s a ch ⟨.sleepAcquire chan lk l, none⟩ (.lockProc p ⟨.sleepUnlock chan lk l, none⟩)
  | sleepUnlock {chan lk l} :
      Moves s a ch ⟨.sleepUnlock chan lk l, none⟩ (.release lk ⟨.sleepSet chan lk l, none⟩)
  | sleepSet {p chan lk l} (ha : a = .proc p) :
      Moves s a ch ⟨.sleepSet chan lk l, none⟩
        (.update p (fun q => { q with chan := some chan, state := .sleeping }) ⟨.sleepSched lk l, none⟩)
  | sleepSched {p lk l} (ha : a = .proc p) :
      Moves s a ch ⟨.sleepSched lk l, none⟩ (.swtch p ⟨.sleepTidy lk l, none⟩)
  | sleepTidy {p lk l} (ha : a = .proc p) :
      Moves s a ch ⟨.sleepTidy lk l, none⟩
        (.update p (fun q => { q with chan := none }) ⟨.sleepRelease lk l, none⟩)
  | sleepRelease {p lk l} (ha : a = .proc p) :
      Moves s a ch ⟨.sleepRelease lk l, none⟩ (.unlockProc p ⟨.sleepRelock lk l, none⟩)
  | sleepRelock {lk l} : Moves s a ch ⟨.sleepRelock lk l, none⟩ (.acquire lk ⟨.run l, none⟩)
  | wakeupSelf {chan i l} (ha : a = .proc i) :
      Moves s a ch ⟨.wakeup chan i l, none⟩ (.goto ⟨wakeupFrom chan l (Sched.next i), none⟩)
  | wakeupAcquire {chan i l} (ha : a ≠ .proc i) :
      Moves s a ch ⟨.wakeup chan i l, none⟩ (.lockProc i ⟨.wakeupTest chan i l, none⟩)
  | wakeupRouse {chan i l} (hs : (s.proc i).state = .sleeping) (hc : (s.proc i).chan = some chan) :
      Moves s a ch ⟨.wakeupTest chan i l, none⟩
        (.update i (fun q => { q with state := .runnable }) ⟨.wakeupRelease chan i l, none⟩)
  | wakeupPass {chan i l} (h : ¬((s.proc i).state = .sleeping ∧ (s.proc i).chan = some chan)) :
      Moves s a ch ⟨.wakeupTest chan i l, none⟩ (.goto ⟨.wakeupRelease chan i l, none⟩)
  | wakeupRelease {chan i l} :
      Moves s a ch ⟨.wakeupRelease chan i l, none⟩ (.unlockProc i ⟨wakeupFrom chan l (Sched.next i), none⟩)
  | killAcquire {pid i l} : Moves s a ch ⟨.kill pid i l, none⟩ (.lockProc i ⟨.killTest pid i l, none⟩)
  | killMark {pid i l} (h : (s.proc i).pid = pid) :
      Moves s a ch ⟨.killTest pid i l, none⟩
        (.update i (fun q => { q with
          killed := true
          state := if q.state = .sleeping then .runnable else q.state }) ⟨.killDone i l, none⟩)
  | killPass {pid i l} (h : (s.proc i).pid ≠ pid) :
      Moves s a ch ⟨.killTest pid i l, none⟩ (.goto ⟨.killRelease pid i l, none⟩)
  | killRelease {pid i l} :
      Moves s a ch ⟨.killRelease pid i l, none⟩ (.unlockProc i ⟨killFrom pid l (Sched.next i), none⟩)
  | killDone {i l} : Moves s a ch ⟨.killDone i l, none⟩ (.unlockProc i ⟨.run l, none⟩)
  | forkret {p l} (ha : a = .proc p) : Moves s a ch ⟨.forkret l, none⟩ (.unlockProc p ⟨.run l, none⟩)

theorem call_moves {act : Act K.Lk K.Chan K.Data K.Loc}
    {l : K.Loc} (hcode : K.code a l s.data ch = some act) (h : Mach.call a act = some op) :
    Moves s a ch ⟨.run l, none⟩ op := by
  cases act <;> simp only [Mach.call, Option.map_eq_some_iff, Agent.slot_eq_some, Option.some.injEq] at h
  case killed | sleep =>
    obtain ⟨p, ha, rfl⟩ := h
    first | exact .killed ha hcode | exact .sleep ha hcode
  all_goals subst h
  · exact .data hcode
  · exact .acquire hcode
  · exact .release hcode
  · exact .wakeup hcode
  · exact .kill hcode

theorem code_moves (h : s.code a ch = some op) :
    Moves s a ch (s.pc a) op := by
  obtain ⟨ctl, yield, hpc⟩ : ∃ ctl yield, s.pc a = ⟨ctl, yield⟩ := ⟨_, _, rfl⟩
  unfold Mach.code at h
  rw [hpc] at h ⊢
  cases yield with
  | some y =>
      simp only [Option.map_eq_some_iff, Agent.slot_eq_some] at h
      obtain ⟨p, ha, rfl⟩ := h
      cases y
      · exact .yieldAcquire ha
      · exact .yieldSet ha
      · exact .yieldSched ha
      · exact .yieldRelease ha
  | none =>
      cases ctl with
      | run l =>
          simp only [Option.bind_eq_some_iff] at h
          obtain ⟨act, hcode, hcall⟩ := h
          exact call_moves hcode hcall
      | wakeup chan i l =>
          simp only at h
          split at h <;> cases h
          · exact .wakeupSelf ‹_›
          · exact .wakeupAcquire ‹_›
      | wakeupTest chan i l =>
          simp only at h
          split at h <;> cases h
          · rename_i hsleep
            exact .wakeupRouse hsleep.1 hsleep.2
          · exact .wakeupPass ‹_›
      | killTest pid i l =>
          simp only at h
          split at h <;> cases h
          · exact .killMark ‹_›
          · exact .killPass ‹_›
      | sleepUnlock | sleepRelock | kill | killDone | wakeupRelease | killRelease =>
          cases h
          constructor
      | _ =>
          simp only [Option.map_eq_some_iff, Agent.slot_eq_some] at h
          obtain ⟨p, ha, rfl⟩ := h
          constructor
          exact ha

-- What an action must look like at the pc of the agent that takes it.
def Op.Fits (s : Mach K) (a : Agent) (pc : Pc K) : Op K → Prop
  | .goto pc' | .data _ pc' | .acquire _ pc' | .release _ pc' =>
      pc'.held a.slot = pc.held a.slot ∧ ¬pc.Sinking
  | .lockProc q pc' => pc.held a.slot = none ∧ pc'.held a.slot = some q ∧ ¬pc.Sinking
  | .unlockProc q pc' =>
      pc.held a.slot = some q ∧ ((pc.yield ≠ none ∧ pc' = ⟨pc.ctl, none⟩) ∨ pc'.held a.slot = none) ∧ ¬pc.Sinking
  | .update q f pc' =>
      pc.held a.slot = some q ∧ pc'.held a.slot = some q ∧ ¬pc.Sinking ∧
      ((f (s.proc q)).state = .sleeping → (s.proc q).state = .sleeping ∨ (a = .proc q ∧ pc'.Sinking))
  | .swtch p pc' => a = .proc p ∧ pc.held a.slot = some p ∧ pc'.Parked ∧ (pc.Sinking → pc'.Asleep)

theorem held_wakeupFrom (chan : K.Chan) (l : K.Loc) (o own : Option Slot) :
    (wakeupFrom chan l o).held own = none := by
  cases o <;> rfl

theorem held_killFrom (pid : Int) (l : K.Loc) (o own : Option Slot) :
    (killFrom pid l o).held own = none := by
  cases o <;> rfl

theorem Moves.fits {pc : Pc K} (h : Moves s a ch pc op) : op.Fits s a pc := by
  cases h
  case wakeupSelf => exact ⟨held_wakeupFrom .., id⟩
  case wakeupRelease => exact ⟨rfl, .inr (held_wakeupFrom ..), id⟩
  case killRelease => exact ⟨rfl, .inr (held_killFrom ..), id⟩
  case killMark =>
    refine ⟨rfl, rfl, id, fun hs => ?_⟩
    simp only at hs
    split at hs
    · cases hs
    · exact .inl hs
  all_goals simp_all [Op.Fits, Pc.held, Pc.Sinking, Pc.Asleep, Pc.Parked, Agent.slot, Ctl.held]

theorem Moves.yield {pc : Pc K}
    (h : Moves s a ch pc op) : op.pc.yield = none ∨ (op.pc.ctl = pc.ctl ∧ pc.yield ≠ none) := by
  cases h <;> simp [Op.pc]

section Frame

variable {s t : Mach K} {a : Agent}

@[simp] theorem setProc_proc (s : Mach K) (q r : Slot) (f : Proc K → Proc K) :
    (s.setProc q f).proc r = if r = q then f (s.proc q) else s.proc r := by
  by_cases hr : r = q
  · subst hr; simp [Mach.setProc]
  · simp [Mach.setProc, hr]

theorem setLock_lock (s : Mach K) (q r : Slot) (holder : Option Holder) :
    ((s.setLock q holder).proc r).lock = if r = q then holder else (s.proc r).lock := by
  rw [Mach.setLock, setProc_proc]
  split <;> rfl

theorem setLock_state (s : Mach K) (q r : Slot) (holder : Option Holder) :
    ((s.setLock q holder).proc r).state = (s.proc r).state := by
  rw [Mach.setLock, setProc_proc]
  split
  · rename_i h; rw [h]
  · rfl

theorem exec_pc {op : Op K} (h : s.exec a op = some t) : t.pc = update s.pc a op.pc := by
  cases op <;> simp only [Mach.exec, Option.ite_none_right_eq_some, Option.some.injEq] at h
  case acquire | release | lockProc => rw [← h.2]; rfl
  all_goals rw [← h]; rfl

end Frame

namespace Inv

variable {s t u : Mach K} {a : Agent}

variable {p : Slot} {pc : Pc K}

theorem state_ne_sleeping (hi : Inv s) (hrun : s.sched p = .running)
    (hpc : ¬(s.pc (.proc p)).Sinking) : (s.proc p).state ≠ .sleeping := by
  intro hs
  rcases hi.asleep p hs with ⟨-, h⟩ | ⟨h, -⟩
  · exact hpc h
  · exact h hrun

-- What an action of an agent that stays on its CPU has to keep.
theorem agent (hi : Inv s) (hrun : s.Runs a) (hsched : u.sched = s.sched) (hpc : u.pc = s.pc)
    (hyield : pc.yield ≠ none → pc.ctl.held a.slot = none)
    (hlock : ∀ q, (u.proc q).lock = if pc.held a.slot = some q then some (.agent a)
      else if (s.pc a).held a.slot = some q then none else (s.proc q).lock)
    (hfree : ∀ q, pc.held a.slot = some q → (s.pc a).held a.slot = some q ∨ (s.proc q).lock = none)
    (hstate : ∀ q, (u.proc q).state = .sleeping →
      (s.proc q).state = .sleeping ∧ a ≠ .proc q ∨ a = .proc q ∧ pc.Sinking) : Inv (u.goto a pc) := by
  have hself : (u.goto a pc).pc a = pc := update_self ..
  have hne : ∀ b, b ≠ a → (u.goto a pc).pc b = s.pc b := by
    intro b hb
    rw [← hpc]
    exact update_of_ne hb ..
  have hruns : ∀ b, (u.goto a pc).Runs b ↔ s.Runs b := by
    intro b
    cases b <;> simp [Mach.Runs, Mach.goto, hsched]
  have hproc : ∀ q, (u.goto a pc).proc q = u.proc q := fun _ => rfl
  have hsch : (u.goto a pc).sched = s.sched := hsched
  -- The slots that the agent neither takes nor gives back.
  have hother : ∀ q b, b ≠ a → (s.proc q).lock = some (.agent b) → (u.proc q).lock = some (.agent b) := by
    intro q b hb hl
    rw [hlock q]
    split_ifs with h₁ h₂
    · rcases hfree q h₁ with h | h
      · rw [(hi.lock q a).mpr ⟨hrun, h⟩] at hl
        exact absurd (by simpa using hl) (Ne.symm hb)
      · simp [h] at hl
    · rw [(hi.lock q a).mpr ⟨hrun, h₂⟩] at hl
      exact absurd (by simpa using hl) (Ne.symm hb)
    · exact hl
  constructor
  · intro b
    by_cases hb : b = a
    · rw [hb, hself]
      exact hyield
    · rw [hne b hb]
      exact hi.yields b
  · intro q b
    rw [hproc, hruns]
    by_cases hb : b = a
    · subst hb
      rw [hself, hlock q]
      split_ifs with h₁ h₂
      · simp [h₁, hrun]
      · simp [h₁]
      · rw [hi.lock q b]
        simp [h₁, h₂]
    · rw [hne b hb, ← hi.lock q b]
      refine ⟨fun h => ?_, hother q b hb⟩
      rw [hlock q] at h
      split_ifs at h with h₁ h₂
      · exact absurd (by simpa using h) (Ne.symm hb)
      · exact h
  · intro q
    rw [hproc, hsch, ← hi.scheduler q, hlock q]
    split_ifs with h₁ h₂
    · rcases hfree q h₁ with h | h
      · simp [(hi.lock q a).mpr ⟨hrun, h⟩]
      · simp [h]
    · simp [(hi.lock q a).mpr ⟨hrun, h₂⟩]
    · rfl
  · intro p hp
    rw [hsch] at hp
    have hpa : Agent.proc p ≠ a := by
      rintro rfl
      exact hp hrun
    rw [hne _ hpa]
    exact hi.parked p hp
  · intro p hp
    rw [hsch]
    rcases hstate p hp with ⟨hs, ha⟩ | ⟨rfl, hsink⟩
    · rw [hne _ (Ne.symm ha)]
      exact hi.asleep p hs
    · rw [hself]
      exact .inl ⟨hrun, hsink⟩

-- The locks stay as they are when the agent holds what it held before.
theorem lock_same (hi : Inv s) (hrun : s.Runs a) (hheld : pc.held a.slot = (s.pc a).held a.slot)
    (q : Slot) : (s.proc q).lock = if pc.held a.slot = some q then some (.agent a)
      else if (s.pc a).held a.slot = some q then none else (s.proc q).lock := by
  rw [hheld]
  split_ifs with h
  · exact (hi.lock q a).mpr ⟨hrun, h⟩
  · rfl

theorem sleeping_ne (hi : Inv s) (hrun : s.Runs a) (hsink : ¬(s.pc a).Sinking) {q : Slot}
    (h : (s.proc q).state = .sleeping) : a ≠ .proc q := by
  rintro rfl
  exact hi.state_ne_sleeping hrun hsink h

-- sched(): the thread leaves its CPU to the scheduler, which now owns p->lock.
theorem swtch (hi : Inv s) (hrun : s.sched p = .running)
    (hheld : (s.pc (.proc p)).held (some p) = some p) (hyield : pc.yield ≠ none → pc.ctl.held (some p) = none)
    (hpark : pc.Parked) (hsink : (s.pc (.proc p)).Sinking → pc.Asleep) :
    Inv ({ s.setLock p (some .scheduler) with sched := update s.sched p .back }.goto (.proc p) pc) := by
  let t := { s.setLock p (some .scheduler) with sched := update s.sched p .back }.goto (.proc p) pc
  have hself : t.pc (.proc p) = pc := update_self ..
  have hne : ∀ b, b ≠ .proc p → t.pc b = s.pc b := fun b hb => update_of_ne hb ..
  have hsch : t.sched p = .back := update_self ..
  have hschr : ∀ q, q ≠ p → t.sched q = s.sched q := fun q hq => update_of_ne hq ..
  have hruns : ∀ b, b ≠ .proc p → (t.Runs b ↔ s.Runs b) := by
    intro b hb
    cases b with
    | proc q =>
        simp only [Mach.Runs]
        rw [hschr q (by rintro rfl; exact hb rfl)]
    | intr n => rfl
  have hlock : ∀ q, (t.proc q).lock = if q = p then some .scheduler else (s.proc q).lock :=
    fun q => setLock_lock s p q _
  have hown : (s.proc p).lock = some (.agent (.proc p)) := (hi.lock p _).mpr ⟨hrun, hheld⟩
  change Inv t
  constructor
  · intro b
    by_cases hb : b = .proc p
    · rw [hb, hself]
      exact hyield
    · rw [hne b hb]
      exact hi.yields b
  · intro q b
    rw [hlock q]
    by_cases hb : b = .proc p
    · subst hb
      have hoff : ¬t.Runs (.proc p) := by simp [Mach.Runs, hsch]
      simp only [hoff, false_and, iff_false]
      split_ifs with hq
      · simp
      · rw [hi.lock q]
        rintro ⟨-, h⟩
        exact hq (Option.some.inj (h.symm.trans hheld))
    · rw [hruns b hb, hne b hb, ← hi.lock q b]
      split_ifs with hq
      · subst hq
        simp only [hown, Option.some.injEq, Holder.agent.injEq, reduceCtorEq, false_iff]
        exact fun h => hb h.symm
      · rfl
  · intro q
    rw [hlock q]
    split_ifs with hq
    · simp [hq, hsch]
    · rw [hschr q hq]
      exact hi.scheduler q
  · intro q hq
    by_cases hqp : q = p
    · rw [hqp, hself]
      exact hpark
    · rw [hschr q hqp] at hq
      rw [hne _ (by simpa using hqp)]
      exact hi.parked q hq
  · intro q hq
    have hq' : (s.proc q).state = .sleeping := (setLock_state s p q _).symm.trans hq
    by_cases hqp : q = p
    · subst hqp
      rw [hself, hsch]
      rcases hi.asleep q hq' with ⟨-, h⟩ | ⟨h, -⟩
      · exact .inr ⟨by simp, hsink h⟩
      · exact absurd hrun h
    · rw [hschr q hqp, hne _ (by simpa using hqp)]
      exact hi.asleep q hq'

theorem act (hi : Inv s) (hrun : s.Runs a) {ch : K.Choice} (h : s.act a ch = some t) : Inv t := by
  simp only [Mach.act, Option.bind_eq_some_iff] at h
  obtain ⟨op, hcode, hexec⟩ := h
  have hmoves := code_moves hcode
  have hfits := hmoves.fits
  have hyield : op.pc.yield ≠ none → op.pc.ctl.held a.slot = none := by
    intro hy
    obtain ⟨hctl, hy'⟩ := hmoves.yield.resolve_left hy
    rw [hctl]
    exact hi.yields a hy'
  cases op with
  | goto pc | data d pc | acquire lk pc | release lk pc =>
      obtain ⟨hheld, hsink⟩ := hfits
      simp only [Mach.exec, Option.ite_none_right_eq_some, Option.some.injEq] at hexec
      first | obtain rfl := hexec | obtain ⟨-, rfl⟩ := hexec
      refine hi.agent hrun rfl rfl hyield (hi.lock_same hrun hheld) (fun q hq => .inl (hheld ▸ hq)) ?_
      exact fun q hq => .inl ⟨hq, hi.sleeping_ne hrun hsink hq⟩
  | lockProc q pc =>
      obtain ⟨hnone, hheld, hsink⟩ := hfits
      simp only [Mach.exec, Option.ite_none_right_eq_some, Option.some.injEq] at hexec
      obtain ⟨hfree, rfl⟩ := hexec
      refine hi.agent hrun rfl rfl hyield (fun r => ?_) (fun r hr => .inr ?_) (fun r hr => .inl ?_)
      · rw [setLock_lock, hheld, hnone]
        by_cases hr : r = q
        · simp [hr]
        · simp [hr, Ne.symm hr]
      · rw [hheld, Option.some.injEq] at hr
        rw [← hr, hfree]
      · rw [setLock_state] at hr
        exact ⟨hr, hi.sleeping_ne hrun hsink hr⟩
  | unlockProc q pc =>
      obtain ⟨hheld, hfree, hsink⟩ := hfits
      cases hexec
      have hnone : pc.held a.slot = none := by
        rcases hfree with ⟨hy, rfl⟩ | hnone
        · exact hi.yields a hy
        · exact hnone
      refine hi.agent hrun rfl rfl hyield (fun r => ?_) (fun r hr => ?_) (fun r hr => .inl ?_)
      · rw [setLock_lock, hheld, hnone]
        by_cases hr : r = q
        · simp [hr]
        · simp [hr, Ne.symm hr]
      · rw [hnone] at hr
        cases hr
      · rw [setLock_state] at hr
        exact ⟨hr, hi.sleeping_ne hrun hsink hr⟩
  | update q f pc =>
      obtain ⟨hheld, hheld', hsink, hf⟩ := hfits
      cases hexec
      refine hi.agent hrun rfl rfl hyield (fun r => ?_) (fun r hr => .inl (hheld.trans (hheld' ▸ hr)))
        (fun r hr => ?_)
      · rw [setProc_proc]
        split_ifs with hr h₁ h₂
        · exact (hi.lock q a).mpr ⟨hrun, hheld⟩
        · exact absurd (hr ▸ hheld') h₁
        · exact absurd (hr ▸ hheld') h₁
        · rename_i h₁
          exact absurd (Option.some.inj (hheld'.symm.trans h₁)).symm hr
        · rename_i h₁
          exact absurd (Option.some.inj (hheld.symm.trans h₁)).symm hr
        · rfl
      · rw [setProc_proc] at hr
        split_ifs at hr with hrq
        · subst hrq
          rcases hf hr with h | h
          · exact .inl ⟨h, hi.sleeping_ne hrun hsink h⟩
          · exact .inr h
        · exact .inl ⟨hr, hi.sleeping_ne hrun hsink hr⟩
  | swtch p pc =>
      obtain ⟨rfl, hheld, hpark, hasleep⟩ := hfits
      cases hexec
      exact hi.swtch hrun hheld hyield hpark hasleep

-- What a step of the scheduler at the slot of p has to keep.
theorem scheduled (hi : Inv s) (hpc : t.pc = s.pc) (hsched : ∀ q, q ≠ p → t.sched q = s.sched q)
    (hproc : ∀ q, q ≠ p → t.proc q = s.proc q) (hoff : s.sched p ≠ .running)
    (hown : (t.proc p).lock = if t.sched p = .running then some (.agent (.proc p))
      else if t.sched p = .test ∨ t.sched p = .back then some .scheduler else none)
    (hfree : (s.proc p).lock = none ∨ (s.proc p).lock = some .scheduler)
    (hstate : (t.proc p).state = .sleeping → (s.proc p).state = .sleeping ∧ t.sched p ≠ .running) : Inv t := by
  have hpark := hi.parked p hoff
  have hruns : ∀ b, b ≠ .proc p → (t.Runs b ↔ s.Runs b) := by
    intro b hb
    cases b with
    | proc q =>
        simp only [Mach.Runs]
        rw [hsched q (by rintro rfl; exact hb rfl)]
    | intr n => rfl
  have hnot : ∀ b, ¬(s.Runs b ∧ (s.pc b).held b.slot = some p) := by
    intro b hb
    rw [← hi.lock p b] at hb
    rcases hfree with h | h <;> simp [h] at hb
  constructor
  · rw [hpc]
    exact hi.yields
  · intro q b
    rw [hpc]
    by_cases hb : b = .proc p
    · subst hb
      have hq : (s.pc (.proc p)).held (Agent.proc p).slot = some p := hpark.held
      rw [hq]
      by_cases hqp : q = p
      · subst hqp
        rw [hown]
        simp only [Mach.Runs, and_true]
        split_ifs with h₁ <;> simp [h₁]
      · rw [hproc q hqp, hi.lock q]
        simp [Mach.Runs, hoff, Ne.symm hqp]
    · rw [hruns b hb]
      by_cases hqp : q = p
      · subst hqp
        simp only [hnot b, iff_false]
        rw [hown]
        split_ifs <;> simp [Ne.symm hb]
      · rw [hproc q hqp]
        exact hi.lock q b
  · intro q
    by_cases hqp : q = p
    · subst hqp
      rw [hown]
      split_ifs with h₁ h₂ <;> simp_all
    · rw [hproc q hqp, hsched q hqp]
      exact hi.scheduler q
  · intro q hq
    rw [hpc]
    by_cases hqp : q = p
    · exact hqp ▸ hpark
    · exact hi.parked q (hsched q hqp ▸ hq)
  · intro q hq
    rw [hpc]
    by_cases hqp : q = p
    · subst hqp
      obtain ⟨hs, ht⟩ := hstate hq
      rcases hi.asleep q hs with ⟨h, -⟩ | ⟨-, h⟩
      · exact absurd h hoff
      · exact .inr ⟨ht, h⟩
    · rw [hproc q hqp] at hq
      rw [hsched q hqp]
      exact hi.asleep q hq

theorem schedule (hi : Inv s) (h : s.schedule p = some t) : Inv t := by
  unfold Mach.schedule at h
  have hlock := hi.scheduler p
  split at h
  · rename_i hsch
    simp only [Option.ite_none_right_eq_some, Option.some.injEq] at h
    obtain ⟨hfree, rfl⟩ := h
    refine hi.scheduled (p := p) rfl (fun q hq => update_of_ne hq ..)
      (fun q hq => by simp [Mach.setLock, hq]) (by simp [hsch]) ?_ (.inl hfree) (fun hs => ?_)
    · simp [Mach.setLock]
    · rw [setLock_state] at hs
      exact ⟨hs, by simp⟩
  · rename_i hsch
    split at h <;> cases h
    · refine hi.scheduled (p := p) rfl (fun q hq => update_of_ne hq ..)
        (fun q hq => by simp [hq]) (by simp [hsch]) ?_ (.inr (hlock.mpr (.inl hsch))) (fun hs => ?_)
      · simp
      · simp at hs
    · refine hi.scheduled (p := p) rfl (fun q hq => update_of_ne hq ..)
        (fun q hq => rfl) (by simp [hsch]) ?_ (.inr (hlock.mpr (.inl hsch))) (fun hs => ⟨hs, by simp⟩)
      simpa using hlock.mpr (.inl hsch)
  · cases h
  · rename_i hsch
    cases h
    refine hi.scheduled (p := p) rfl (fun q hq => update_of_ne hq ..)
      (fun q hq => by simp [Mach.setLock, hq]) (by simp [hsch]) ?_ (.inr (hlock.mpr (.inr hsch)))
      (fun hs => ?_)
    · simp [Mach.setLock]
    · rw [setLock_state] at hs
      exact ⟨hs, by simp⟩

theorem step {Q : Mach K → Agent → K.Choice → Prop} (hi : Inv s) (h : Step Q s t) : Inv t := by
  cases h with
  | act a ch hrun _ h => exact hi.act hrun h
  | schedule p h => exact hi.schedule h
  | timer p hrun hyield hheld =>
      have hnone : (s.pc (.proc p)).held (some p) = none := by simp [Pc.held, hyield, hheld]
      have hstate : ∀ q, (s.proc q).state = .sleeping → Agent.proc p ≠ .proc q := by
        refine fun q hq => hi.sleeping_ne (a := .proc p) hrun (fun hsink => ?_) hq
        rw [hsink.held] at hnone
        cases hnone
      exact hi.agent (a := .proc p) hrun rfl rfl (fun _ => hheld) (hi.lock_same (a := .proc p) hrun hnone.symm)
        (fun q hq => by cases hq) (fun q hq => .inl ⟨hq, hstate q hq⟩)
  | renew p pid =>
      have hlock : ∀ q, ((s.setProc p fun r => { r with killed := false, pid := pid }).proc q).lock
          = (s.proc q).lock := by
        intro q
        rw [setProc_proc]
        split_ifs with hq
        · rw [hq]
        · rfl
      have hstate : ∀ q, ((s.setProc p fun r => { r with killed := false, pid := pid }).proc q).state
          = (s.proc q).state := by
        intro q
        rw [setProc_proc]
        split_ifs with hq
        · rw [hq]
        · rfl
      refine ⟨hi.yields, fun q a => ?_, fun q => ?_, hi.parked, fun q hq => ?_⟩
      · rw [hlock q]
        exact hi.lock q a
      · rw [hlock q]
        exact hi.scheduler q
      · rw [hstate q] at hq
        exact hi.asleep q hq

theorem start (live : Slot → Bool) (pid : Slot → Int) (d : K.Data) : Inv (Mach.start live pid d) where
  yields a hy := by cases a <;> exact absurd rfl hy
  lock q a := by cases a <;> simp [Mach.start, Mach.Runs, Pc.held, Ctl.held]
  scheduler q := by simp [Mach.start]
  parked p _ := trivial
  asleep p hp := by
    simp only [Mach.start] at hp
    split at hp <;> cases hp

end Inv

theorem step_of_move [∀ s a ch, Decidable (Q s a ch)] {m : Move K} (h : s.move Q m = some t) : Step Q s t := by
  cases m with
  | act a ch =>
      obtain ⟨⟨hrun, hq⟩, hact⟩ := Option.ite_none_right_eq_some.mp h
      exact .act a ch hrun hq hact
  | schedule p => exact .schedule p h

theorem exists_of_run [∀ s a ch, Decidable (Q s a ch)] {l : List (Move K)} {P : Mach K → Prop} [DecidablePred P]
    (h : (Transition.replay (Mach.move Q) s l).any fun t => decide (P t)) :
    ∃ t, Transition.Reaches (Step Q) s t ∧ P t :=
  Transition.exists_of_replay s l P h fun _ _ _ _ => step_of_move

theorem reachable_inv {live : Slot → Bool} {pid : Slot → Int}
    {d : K.Data} (h : Transition.Reaches (Step Q) (.start live pid d) s) : Inv s :=
  h.invariant Inv (Inv.start live pid d) fun _ _ hi hst => hi.step hst

end Xv6.Sleep
