import Xv6.Sleep.Wakeup

namespace Xv6.Sleep

open Transition

variable {K : Client}

section Checks

variable (watched : K.Chan → Bool) (checked : K.Loc → Bool)

-- The code sleeps on a watched channel only where it has called killed() since it last woke
-- up, and killed() has said no.
def Checked (l : K.Loc) : Act K.Lk K.Chan K.Data K.Loc → Prop
  | .data _ l' | .acquire _ l' | .release _ l' | .wakeup _ l' | .kill _ l' => checked l' = true → checked l = true
  | .killed yes _ => checked yes = true → checked l = true
  | .sleep c _ l' => (watched c = true → checked l = true) ∧ checked l' = false

def Checks : Prop := ∀ {a l d ch act}, K.code a l d ch = some act → Checked watched checked l act

-- From the moment killed() has read p->killed up to the acquire of p->lock in sleep.
def Ctl.window : Ctl K → Bool
  | .run l | .forkret l => checked l
  | .killedAcquire yes _ | .killedTest yes _ => checked yes
  | .killedRelease k yes no => checked (if k then yes else no)
  | .sleepAcquire c _ _ => watched c
  | .wakeup _ _ l | .wakeupTest _ _ l | .wakeupRelease _ _ l => checked l
  | .kill _ _ l | .killTest _ _ l | .killRelease _ _ l | .killDone _ l => checked l
  | _ => false

-- kill does not mark a process in that window.
def Timely (s : Mach K) (a : Agent) (_ : K.Choice) : Prop :=
  match (s.pc a).ctl with
  | .killTest pid i _ => (s.proc i).pid = pid → (s.pc (.proc i)).ctl.window watched checked = false
  | _ => True

instance (s : Mach K) (a : Agent) (ch : K.Choice) : Decidable (Timely watched checked s a ch) := by
  unfold Timely
  split <;> infer_instance

-- On the way from there into sleep, with p->lock held.
def Ctl.sinking : Ctl K → Bool
  | .sleepUnlock c _ _ | .sleepSet c _ _ => watched c
  | _ => false

-- The code after sleep has to call killed() again.
def Ctl.Resumes : Ctl K → Prop
  | .sleepAcquire _ _ l | .sleepUnlock _ _ l | .sleepSet _ _ l => checked l = false
  | .sleepSched _ l | .sleepTidy _ l | .sleepRelease _ l | .sleepRelock _ l => checked l = false
  | _ => True

def Mach.AsleepOn (s : Mach K) (p : Slot) : Prop :=
  (s.proc p).state = .sleeping ∧ ∃ c, (s.proc p).chan = some c ∧ watched c = true

structure Spared (s : Mach K) : Prop where
  resumes : ∀ a, (s.pc a).ctl.Resumes checked
  window : ∀ p, (s.pc (.proc p)).ctl.window watched checked = true → (s.proc p).killed = false
  sinking : ∀ p, (s.pc (.proc p)).ctl.sinking watched = true → (s.proc p).killed = false
  asleep : ∀ p, s.AsleepOn watched p → (s.proc p).killed = false

end Checks

variable {watched : K.Chan → Bool} {checked : K.Loc → Bool} {s t : Mach K} {a : Agent} {ch : K.Choice} {op : Op K}

theorem window_wakeupFrom (c : K.Chan) (l : K.Loc) (i : Option Slot) :
    (wakeupFrom c l i).window watched checked = checked l := by
  cases i <;> rfl

theorem window_killFrom (pid : Int) (l : K.Loc) (i : Option Slot) :
    (killFrom pid l i).window watched checked = checked l := by
  cases i <;> rfl

-- An agent enters the window with p->killed read as 0.
theorem Moves.window (hc : Checks watched checked) (hm : Moves s a ch (s.pc a) op)
    (hres : (s.pc a).ctl.Resumes checked) (h : op.pc.ctl.window watched checked = true) :
    (s.pc a).ctl.window watched checked = true ∨
      ∃ p yes no, a = .proc p ∧ s.pc a = ⟨.killedTest yes no, none⟩ ∧ (s.proc p).killed = false := by
  generalize s.pc a = pc at hm hres
  cases hm
  case data hcode | acquire hcode | release hcode | wakeup hcode | kill hcode | killed hcode =>
    exact .inl (hc hcode h)
  case sleep hcode => exact .inl ((hc hcode).1 h)
  case killedTest p yes no ha =>
    cases hk : (s.proc p).killed with
    | true =>
        rw [hk] at h
        exact .inl h
    | false => exact .inr ⟨p, yes, no, ha, rfl, hk⟩
  case sleepRelock => exact absurd (h.symm.trans hres) Bool.noConfusion
  case wakeupSelf | wakeupRelease =>
    simp only [Op.pc, window_wakeupFrom] at h
    exact .inl h
  case killRelease =>
    simp only [Op.pc, window_killFrom] at h
    exact .inl h
  case killedRelease => exact .inl h
  all_goals first | exact .inl h | cases h

theorem Moves.resumes (hc : Checks watched checked) {pc : Pc K} (hm : Moves s a ch pc op)
    (hres : pc.ctl.Resumes checked) : op.pc.ctl.Resumes checked := by
  cases hm
  case sleep hcode => exact (hc hcode).2
  case wakeupSelf i l _ | wakeupRelease i l =>
    simp only [Op.pc, wakeupFrom]
    split <;> trivial
  case killRelease i l =>
    simp only [Op.pc, killFrom]
    split <;> trivial
  all_goals first | exact hres | trivial

theorem Moves.sinking (checked : K.Loc → Bool) {pc : Pc K} (hm : Moves s a ch pc op)
    (h : op.pc.ctl.sinking watched = true) :
    pc.ctl.window watched checked = true ∨ pc.ctl.sinking watched = true := by
  cases hm
  case sleepAcquire => exact .inl h
  case wakeupSelf | wakeupRelease =>
    simp only [Op.pc, wakeupFrom] at h
    split at h <;> cases h
  case killRelease =>
    simp only [Op.pc, killFrom] at h
    split at h <;> cases h
  all_goals first | exact .inr h | cases h

-- Only kill changes p->killed.
theorem Moves.killed_or (hm : Moves s a ch (s.pc a) op) (hexec : s.exec a op = some t) (p : Slot) :
    (t.proc p).killed = (s.proc p).killed ∨
      ((∃ l, s.pc a = ⟨.killTest (s.proc p).pid p l, none⟩) ∧ (t.proc p).state ≠ .sleeping) := by
  rcases exec_proc hexec p with he | ⟨f, pc', rfl, he⟩
  · exact .inl (unlocked_inj he).2.2.1
  · obtain ⟨hs, -, hk, -⟩ := unlocked_inj he
    rw [hk, hs]
    generalize hpc : s.pc a = pc at hm
    cases hm
    case killMark pid l hpid =>
      refine .inr ⟨⟨l, by rw [hpid]⟩, ?_⟩
      simp only
      split
      · simp
      · assumption
    all_goals exact .inl rfl

theorem Moves.asleepOn (hm : Moves s a ch (s.pc a) op) (hexec : s.exec a op = some t) {p : Slot}
    (h : t.AsleepOn watched p) : s.AsleepOn watched p ∨ (a = .proc p ∧ (s.pc a).ctl.sinking watched = true) := by
  obtain ⟨hstate, c, hchan, hw⟩ := h
  rcases hm.sleeping hexec hstate hchan with ⟨hs, hc⟩ | ⟨rfl, lk, l, hctl⟩
  · exact .inl ⟨hs, c, hc, hw⟩
  · refine .inr ⟨rfl, ?_⟩
    rw [hctl]
    exact hw

theorem Timely.window_false {pid : Int} {p : Slot} {l : K.Loc} (h : Timely watched checked s a ch)
    (hpc : s.pc a = ⟨.killTest pid p l, none⟩) (hpid : (s.proc p).pid = pid) :
    (s.pc (.proc p)).ctl.window watched checked = false := by
  simp only [Timely, hpc] at h
  exact h hpid

namespace Spared

theorem act (hc : Checks watched checked) (hs : Spared watched checked s) (hi : Inv s) (hrun : s.Runs a)
    (hq : Timely watched checked s a ch) (h : s.act a ch = some t) : Spared watched checked t := by
  obtain ⟨op, hm, hexec⟩ := act_moves h
  have hself := exec_pc_self hexec
  refine ⟨fun b => ?_, fun p hp => ?_, fun p hp => ?_, fun p hp => ?_⟩
  · by_cases hb : b = a
    · rw [hb, hself]
      exact hm.resumes hc (hs.resumes a)
    · rw [exec_pc_ne hexec hb]
      exact hs.resumes b
  · by_cases ha : a = .proc p
    · subst ha
      rw [hself] at hp
      rcases hm.window hc (hs.resumes _) hp with hw | ⟨q, yes, no, hq', hpc, hk⟩
      · rcases hm.killed_or hexec p with he | ⟨⟨l, hpc⟩, -⟩
        · exact he.trans (hs.window p hw)
        · rw [hq.window_false hpc rfl] at hw
          cases hw
      · obtain rfl : p = q := by simpa using hq'
        rcases hm.killed_or hexec p with he | ⟨⟨l, hpc'⟩, -⟩
        · exact he.trans hk
        · rw [hpc] at hpc'
          cases hpc'
    · rw [exec_pc_ne hexec (Ne.symm ha)] at hp
      rcases hm.killed_or hexec p with he | ⟨⟨l, hpc⟩, -⟩
      · exact he.trans (hs.window p hp)
      · rw [hq.window_false hpc rfl] at hp
        cases hp
  · by_cases ha : a = .proc p
    · subst ha
      rw [hself] at hp
      have hk : (s.proc p).killed = false :=
        (hm.sinking checked hp).elim (hs.window p) (hs.sinking p)
      rcases hm.killed_or hexec p with he | ⟨⟨l, hpc⟩, -⟩
      · exact he.trans hk
      · rw [hpc] at hm
        rcases hm.sinking checked hp with hw | hw
        · have hfalse := hq.window_false hpc rfl
          rw [hpc] at hfalse
          exact absurd (hw.symm.trans hfalse) Bool.noConfusion
        · cases hw
    · rw [exec_pc_ne hexec (Ne.symm ha)] at hp
      rcases hm.killed_or hexec p with he | ⟨⟨l, hpc⟩, -⟩
      · exact he.trans (hs.sinking p hp)
      · -- The killer and the sleeper would both hold p->lock.
        exfalso
        have hkiller : (s.proc p).lock = some (.agent a) := (hi.lock p a).mpr ⟨hrun, by rw [hpc]; rfl⟩
        have hsleeper : (s.proc p).lock = some (.agent (.proc p)) := by
          cases hctl : (s.pc (.proc p)).ctl <;> rw [hctl] at hp <;>
            first | exact hi.own_lock hctl rfl id | cases hp
        rw [hkiller] at hsleeper
        exact ha (by simpa using hsleeper)
  · rcases hm.killed_or hexec p with he | ⟨-, hstate⟩
    · rw [he]
      rcases hm.asleepOn hexec hp with hp | ⟨rfl, hp⟩
      · exact hs.asleep p hp
      · exact hs.sinking p hp
    · exact absurd hp.1 hstate

theorem idle (hs : Spared watched checked s) (h : Idle s t) : Spared watched checked t := by
  have hkilled : ∀ p, (s.proc p).killed = false → (t.proc p).killed = false := by
    intro p hp
    by_contra hk
    rw [h.killed p (by simpa using hk)] at hp
    cases hp
  refine ⟨fun a => ?_, fun p hp => hkilled p ?_, fun p hp => hkilled p ?_, fun p hp => hkilled p ?_⟩
  · rw [h.ctl]
    exact hs.resumes a
  · exact hs.window p (h.ctl (.proc p) ▸ hp)
  · exact hs.sinking p (h.ctl (.proc p) ▸ hp)
  · obtain ⟨hstate, c, hchan, hw⟩ := hp
    exact hs.asleep p ⟨h.sleeping p hstate, c, (h.chan p).symm.trans hchan, hw⟩

theorem start (live : Slot → Bool) (pid : Slot → Int) (d : K.Data) :
    Spared watched checked (.start live pid d) :=
  ⟨fun a => by cases a <;> trivial, fun _ _ => rfl, fun _ _ => rfl, fun _ _ => rfl⟩

end Spared

-- A process that sleeps on a watched channel has not been killed, as long as no kill marks a
-- process in the window.
theorem not_killed_of_asleep (hc : Checks watched checked) {live : Slot → Bool} {pid : Slot → Int} {d : K.Data}
    (h : Reaches (Step (Timely watched checked)) (.start live pid d) s) {p : Slot} (hp : s.AsleepOn watched p) :
    (s.proc p).killed = false := by
  have hs := h.invariant_of (Spared watched checked) (fun _ hr => reachable_inv hr) (Spared.start live pid d)
    fun s t hi hs hst => ?_
  · exact hs.asleep p hp
  · rcases step_cases hst with ⟨a, ch, hrun, hq, hact⟩ | hidle
    · exact hs.act hc hi hrun hq hact
    · exact hs.idle hidle

end Xv6.Sleep
