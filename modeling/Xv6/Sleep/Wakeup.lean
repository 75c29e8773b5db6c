import Xv6.Sleep.Invariant

namespace Xv6.Sleep

open Transition

variable {K : Client}

variable {s t : Mach K}

theorem act_moves {a : Agent} {ch : K.Choice} (h : s.act a ch = some t) :
    ∃ op, Moves s a ch (s.pc a) op ∧ s.exec a op = some t := by
  simp only [Mach.act, Option.bind_eq_some_iff] at h
  obtain ⟨op, hcode, hexec⟩ := h
  exact ⟨op, code_moves hcode, hexec⟩

section Frame

variable {s t : Mach K} {a : Agent} {op : Op K}

theorem exec_pc_self (h : s.exec a op = some t) : t.pc a = op.pc := by
  rw [exec_pc h, Function.update_self]

theorem exec_pc_ne (h : s.exec a op = some t) {b : Agent} (hb : b ≠ a) : t.pc b = s.pc b := by
  rw [exec_pc h, Function.update_of_ne hb]

theorem exec_data (h : s.exec a op = some t) : t.data = s.data ∨ ∃ d pc, op = .data d pc ∧ t.data = d := by
  cases op <;> simp only [Mach.exec, Option.ite_none_right_eq_some, Option.some.injEq] at h
  case data d pc => exact .inr ⟨d, pc, rfl, by rw [← h]; rfl⟩
  case acquire | release | lockProc => rw [← h.2]; exact .inl rfl
  all_goals rw [← h]; exact .inl rfl

theorem exec_lock (h : s.exec a op = some t) (lk : K.Lk) :
    t.lock lk = s.lock lk ∨ (s.lock lk = none ∧ ∃ pc, op = .acquire lk pc) ∨
      (s.lock lk = some a ∧ ∃ pc, op = .release lk pc) := by
  cases op <;> simp only [Mach.exec, Option.ite_none_right_eq_some, Option.some.injEq] at h
  case acquire lk' pc =>
    by_cases he : lk = lk'
    · subst he
      exact .inr (.inl ⟨h.1, pc, rfl⟩)
    · rw [← h.2]
      exact .inl (Function.update_of_ne he ..)
  case release lk' pc =>
    by_cases he : lk = lk'
    · subst he
      exact .inr (.inr ⟨h.1, pc, rfl⟩)
    · rw [← h.2]
      exact .inl (Function.update_of_ne he ..)
  case lockProc => rw [← h.2]; exact .inl rfl
  all_goals rw [← h]; exact .inl rfl

def Proc.unlocked (p : Proc K) : Proc K := { p with lock := none }

theorem unlocked_inj {p q : Proc K} (h : p.unlocked = q.unlocked) :
    p.state = q.state ∧ p.chan = q.chan ∧ p.killed = q.killed ∧ p.pid = q.pid := by
  simpa [Proc.unlocked] using h

theorem exec_proc (h : s.exec a op = some t) (q : Slot) :
    (t.proc q).unlocked = (s.proc q).unlocked ∨
      ∃ f pc, op = .update q f pc ∧ (t.proc q).unlocked = (f (s.proc q)).unlocked := by
  have hset : ∀ r holder, ((s.setLock r holder).proc q).unlocked = (s.proc q).unlocked := by
    intro r holder
    rw [Mach.setLock, setProc_proc]
    split_ifs with hq
    · rw [hq]; rfl
    · rfl
  cases op <;> simp only [Mach.exec, Option.ite_none_right_eq_some, Option.some.injEq] at h
  case update r f pc =>
    subst h
    by_cases hq : q = r
    · subst hq
      refine .inr ⟨f, pc, rfl, ?_⟩
      simp [Mach.goto, Proc.unlocked]
    · refine .inl ?_
      simp [Mach.goto, hq]
  case acquire | release => rw [← h.2]; exact .inl rfl
  case lockProc => rw [← h.2]; exact .inl (hset ..)
  case unlockProc | swtch => rw [← h]; exact .inl (hset ..)
  all_goals rw [← h]; exact .inl rfl

end Frame

-- A step of no agent: of a scheduler, by the timer, or the use of a slot for another process.
structure Idle (s t : Mach K) : Prop where
  data : t.data = s.data
  lock : t.lock = s.lock
  ctl : ∀ a, (t.pc a).ctl = (s.pc a).ctl
  sleeping : ∀ q, (t.proc q).state = .sleeping → (s.proc q).state = .sleeping
  chan : ∀ q, (t.proc q).chan = (s.proc q).chan
  killed : ∀ q, (t.proc q).killed = true → (s.proc q).killed = true

theorem idle_of_proc (hdata : t.data = s.data) (hlock : t.lock = s.lock) (hpc : t.pc = s.pc)
    (h : ∀ q, (t.proc q).unlocked = (s.proc q).unlocked ∨
      (t.proc q).unlocked = Proc.unlocked { s.proc q with state := .running }) : Idle s t where
  data := hdata
  lock := hlock
  ctl a := by rw [hpc]
  sleeping q hq := by
    rcases h q with h | h
    · exact (unlocked_inj h).1.symm.trans hq
    · rw [(unlocked_inj h).1] at hq
      cases hq
  chan q := by rcases h q with h | h <;> exact (unlocked_inj h).2.1
  killed q hq := by rcases h q with h | h <;> exact (unlocked_inj h).2.2.1.symm.trans hq

theorem schedule_idle {p : Slot} (h : s.schedule p = some t) : Idle s t := by
  have hset : ∀ q holder, ((s.setLock p holder).proc q).unlocked = (s.proc q).unlocked := by
    intro q holder
    rw [Mach.setLock, setProc_proc]
    split_ifs with hq
    · rw [hq]; rfl
    · rfl
  unfold Mach.schedule at h
  split at h
  · simp only [Option.ite_none_right_eq_some, Option.some.injEq] at h
    obtain ⟨-, rfl⟩ := h
    exact idle_of_proc rfl rfl rfl fun q => .inl (hset q _)
  · split at h <;> cases h
    · refine idle_of_proc rfl rfl rfl fun q => ?_
      simp only [setProc_proc]
      split_ifs with hq
      · rw [hq]
        exact .inr rfl
      · exact .inl rfl
    · exact idle_of_proc rfl rfl rfl fun q => .inl rfl
  · cases h
  · cases h
    exact idle_of_proc rfl rfl rfl fun q => .inl (hset q _)

theorem step_cases {Q : Mach K → Agent → K.Choice → Prop} (h : Step Q s t) :
    (∃ a ch, s.Runs a ∧ Q s a ch ∧ s.act a ch = some t) ∨ Idle s t := by
  cases h with
  | act a ch hrun hq h => exact .inl ⟨a, ch, hrun, hq, h⟩
  | schedule p h => exact .inr (schedule_idle h)
  | timer p =>
      refine .inr ⟨rfl, rfl, fun a => ?_, fun _ => id, fun _ => rfl, fun _ => id⟩
      by_cases ha : a = .proc p
      · simp [ha, Mach.goto]
      · simp [ha, Mach.goto]
  | renew p pid =>
      refine .inr ⟨rfl, rfl, fun a => rfl, fun q hq => ?_, fun q => ?_, fun q hq => ?_⟩
      all_goals
        simp only [setProc_proc] at *
        split_ifs at * with h
      · rw [h]; exact hq
      · exact hq
      · rw [h]
      · rfl
      · exact hq

section Discipline

variable (lk : K.Lk) (chan : K.Chan) (cond : K.Data → Prop)

-- Who calls sleep(chan, lk) holds lk and finds the condition false. Who makes it true holds lk.
def Disciplined (s : Mach K) (a : Agent) (ch : K.Choice) : Prop :=
  match s.next a ch with
  | some (.sleep c lk' _) => c = chan → lk' = lk ∧ s.lock lk = some a ∧ ¬cond s.data
  | some (.data d _) => cond d → ¬cond s.data → s.lock lk = some a
  | _ => True

-- On the way into sleep(chan), before lk is given back.
def Ctl.Entering : Ctl K → Prop
  | .sleepAcquire c _ _ | .sleepUnlock c _ _ => c = chan
  | _ => False

-- Sleeping on chan, or about to without having to look at anything any more.
def Mach.Committed (s : Mach K) (p : Slot) : Prop :=
  (∃ lk l, (s.pc (.proc p)).ctl = .sleepSet chan lk l) ∨
    ((s.proc p).state = .sleeping ∧ (s.proc p).chan = some chan)

def Ctl.scans : Ctl K → Bool
  | .wakeup c _ _ | .wakeupTest c _ _ | .wakeupRelease c _ _ => c = chan
  | _ => false

-- A wakeup(chan) in progress there has not dealt with slot p.
def Ctl.Pending (p : Slot) : Ctl K → Prop
  | .wakeup c i _ | .wakeupTest c i _ => c = chan → i ≤ p
  | .wakeupRelease c i _ => c = chan → i < p
  | _ => True

-- A committed sleeper whose condition is true has a wakeup coming from an agent that owes one.
structure NoLost (owes : Agent → Prop) (s : Mach K) : Prop where
  entering : ∀ p, (s.pc (.proc p)).ctl.Entering chan → s.lock lk = some (.proc p) ∧ ¬cond s.data
  committed : ∀ p, s.Committed chan p → cond s.data →
    ∃ a, owes a ∧ a ≠ .proc p ∧ (s.pc a).ctl.Pending chan p

end Discipline

section Steps

variable {s t : Mach K} {a : Agent} {ch : K.Choice} {op : Op K} {lk : K.Lk} {chan : K.Chan}
  {cond : K.Data → Prop}

variable {p : Slot}

theorem pending_wakeupFrom {c : K.Chan} {i : Slot} (l : K.Loc) (h : c = chan → i < p) :
    (wakeupFrom c l (Sched.next i)).Pending chan p ∧
      ((decide (c = chan)) = true → (wakeupFrom c l (Sched.next i)).scans chan = true) := by
  cases hn : Sched.next i with
  | none =>
      refine ⟨trivial, fun hc => ?_⟩
      exact absurd (h (of_decide_eq_true hc)) (Nat.not_lt.mpr (Sched.le_of_next_none hn p))
  | some j =>
      refine ⟨fun hc => ?_, id⟩
      exact Nat.le_of_not_lt fun hj => Nat.not_le.mpr (h hc) ((Sched.lt_next hn p).mp hj)

-- An agent passes the slot of another process only in wakeupTest.
theorem Moves.pending {pc : Pc K} (hm : Moves s a ch pc op) (ha : a ≠ .proc p) (h : pc.ctl.Pending chan p) :
    (op.pc.ctl.Pending chan p ∧ (pc.ctl.scans chan = true → op.pc.ctl.scans chan = true)) ∨
      ∃ l, pc = ⟨.wakeupTest chan p l, none⟩ := by
  cases hm
  case wakeup => exact .inl ⟨fun _ => Nat.zero_le _, Bool.noConfusion⟩
  case wakeupSelf c i l hi =>
    refine .inl (pending_wakeupFrom l fun hc => ?_)
    refine (Sched.lt_or_eq_slot (h hc)).resolve_right ?_
    rintro rfl
    exact ha hi
  case wakeupRelease c i l => exact .inl (pending_wakeupFrom l h)
  case wakeupRouse c i l _ _ | wakeupPass c i l _ =>
    by_cases hc : c = chan
    · subst hc
      rcases Sched.lt_or_eq_slot (h rfl) with hlt | rfl
      · exact .inl ⟨fun _ => hlt, id⟩
      · exact .inr ⟨l, rfl⟩
    · exact .inl ⟨fun he => absurd he hc, id⟩
  case killRelease pid i l =>
    refine .inl ⟨?_, Bool.noConfusion⟩
    simp only [Op.pc, killFrom]
    split <;> trivial
  all_goals exact .inl ⟨h, id⟩

theorem Moves.entering (hm : Moves s a ch (s.pc a) op) (hexec : s.exec a op = some t) (h : op.pc.ctl.Entering chan) :
    ((s.pc a).ctl.Entering chan ∨ ∃ lk l, s.next a ch = some (.sleep chan lk l)) ∧
      t.data = s.data ∧ t.lock = s.lock := by
  generalize hpc : s.pc a = pc at hm
  cases hm
  case sleep p l c lk' l' ha hcode =>
    refine ⟨.inr ⟨lk', l', ?_⟩, ?_⟩
    · obtain rfl : c = chan := h
      exact Mach.next_eq_some.mpr ⟨l, hpc, hcode⟩
    · rw [← Option.some.inj hexec]
      exact ⟨rfl, rfl⟩
  case wakeupSelf | wakeupRelease =>
    simp only [Op.pc, wakeupFrom] at h
    split at h <;> cases h
  case killRelease =>
    simp only [Op.pc, killFrom] at h
    split at h <;> cases h
  case yieldAcquire | sleepAcquire =>
    simp only [Mach.exec, Option.ite_none_right_eq_some, Option.some.injEq] at hexec
    rw [← hexec.2]
    exact ⟨.inl h, rfl, rfl⟩
  case yieldSet | yieldSched | yieldRelease =>
    rw [← Option.some.inj hexec]
    exact ⟨.inl h, rfl, rfl⟩
  all_goals cases h

theorem Moves.sleeping (hm : Moves s a ch (s.pc a) op) (hexec : s.exec a op = some t)
    (hstate : (t.proc p).state = .sleeping) (hchan : (t.proc p).chan = some chan) :
    ((s.proc p).state = .sleeping ∧ (s.proc p).chan = some chan) ∨
      (a = .proc p ∧ ∃ lk l, (s.pc a).ctl = .sleepSet chan lk l) := by
  rcases exec_proc hexec p with he | ⟨f, pc', hop, he⟩
  · obtain ⟨hs, hc, -⟩ := unlocked_inj he
    exact .inl ⟨hs.symm.trans hstate, hc.symm.trans hchan⟩
  · obtain ⟨hs, hc, -⟩ := unlocked_inj he
    rw [hstate] at hs
    rw [hchan] at hc
    generalize hpc : s.pc a = pc at hm
    cases hm <;> cases hop <;> simp only [reduceCtorEq] at hs hc
    case sleepSet.refl c lk' l ha =>
      refine .inr ⟨ha, lk', l, ?_⟩
      rw [Option.some.inj hc]
    case killMark.refl =>
      split at hs
      · cases hs
      · exact absurd hs.symm ‹_›

-- The last step into sleep before the process is committed gives lk back.
theorem Moves.committed (hm : Moves s a ch (s.pc a) op) (hexec : s.exec a op = some t) (h : t.Committed chan p) :
    s.Committed chan p ∨ (a = .proc p ∧ (s.pc a).ctl.Entering chan ∧ t.data = s.data) := by
  rcases h with ⟨lk', l, hctl⟩ | ⟨hstate, hchan⟩
  · by_cases ha : a = .proc p
    · subst ha
      rw [exec_pc_self hexec] at hctl
      generalize hpc : s.pc (.proc p) = pc at hm
      cases hm <;> simp only [Op.pc, reduceCtorEq] at hctl
      case sleepUnlock c lk'' l'' =>
        simp only [Mach.exec, Option.ite_none_right_eq_some, Option.some.injEq] at hexec
        injection hctl with hc
        refine .inr ⟨rfl, hc, ?_⟩
        rw [← hexec.2]
        rfl
      case wakeupSelf | wakeupRelease =>
        simp only [wakeupFrom] at hctl
        split at hctl <;> cases hctl
      case killRelease =>
        simp only [killFrom] at hctl
        split at hctl <;> cases hctl
      all_goals
        refine .inl (.inl ⟨lk', l, ?_⟩)
        rw [hpc]
        exact hctl
    · rw [exec_pc_ne hexec (Ne.symm ha)] at hctl
      exact .inl (.inl ⟨lk', l, hctl⟩)
  · rcases hm.sleeping hexec hstate hchan with hs | ⟨rfl, lk', l, hctl⟩
    · exact .inl (.inr hs)
    · exact .inl (.inl ⟨lk', l, hctl⟩)

theorem Moves.data_or (hm : Moves s a ch (s.pc a) op) (hexec : s.exec a op = some t) :
    t.data = s.data ∨ ∃ l l', s.pc a = ⟨.run l, none⟩ ∧ t.pc a = ⟨.run l', none⟩ ∧
      s.next a ch = some (.data t.data l') := by
  rcases exec_data hexec with he | ⟨d, pc, rfl, he⟩
  · exact .inl he
  · have hpc' := exec_pc_self hexec
    generalize hpc : s.pc a = pc at hm
    cases hm with
    | data hcode =>
        refine .inr ⟨_, _, rfl, hpc', ?_⟩
        exact Mach.next_eq_some.mpr ⟨_, hpc, he ▸ hcode⟩

theorem Moves.lock_ne (hexec : s.exec a op = some t) {b : Agent} (hb : b ≠ a)
    (h : s.lock lk = some b) : t.lock lk = some b := by
  rcases exec_lock hexec lk with he | ⟨hnone, -⟩ | ⟨ha, -⟩
  · exact he.trans h
  · rw [h] at hnone
    cases hnone
  · rw [h] at ha
    exact absurd (Option.some.inj ha) hb

-- A thread that holds its own p->lock, and is not waiting to be given it, is the holder.
theorem Inv.own_lock (hi : Inv s) {c : Ctl K} (hctl : (s.pc (.proc p)).ctl = c)
    (hheld : c.held (some p) = some p) (hpark : ¬Pc.Parked ⟨c, none⟩) :
    (s.proc p).lock = some (.agent (.proc p)) := by
  have hyield := hi.yields (.proc p)
  have hparked := hi.parked p
  cases hpc : s.pc (.proc p) with
  | mk ctl yield =>
      rw [hpc] at hctl hyield hparked
      subst hctl
      cases yield with
      | some y =>
          have hnone : ctl.held (some p) = none := hyield (by simp)
          rw [hheld] at hnone
          cases hnone
      | none =>
          refine (hi.lock p _).mpr ⟨?_, by rw [hpc]; exact hheld⟩
          by_contra hrun
          exact hpark (hparked hrun)

namespace NoLost

variable {owes owes' : Agent → Prop}

theorem made (hd : Disciplined lk chan cond s a ch) (hm : Moves s a ch (s.pc a) op)
    (hexec : s.exec a op = some t) (hfalse : ¬cond s.data) (htrue : cond t.data) :
    s.lock lk = some a ∧ ∃ l l', s.pc a = ⟨.run l, none⟩ ∧ t.pc a = ⟨.run l', none⟩ := by
  rcases hm.data_or hexec with he | ⟨l, l', hpc, hpc', hnext⟩
  · exact absurd (he ▸ htrue) hfalse
  · simp only [Disciplined, hnext] at hd
    exact ⟨hd htrue hfalse, l, l', hpc, hpc'⟩

-- A scan that reaches a committed sleeper wakes it up.
theorem not_committed (hi : Inv s) {p : Slot} {l : K.Loc} (hne : a ≠ .proc p) (hown : (s.proc p).lock = some (.agent a))
    (hm : Moves s a ch (s.pc a) op) (hexec : s.exec a op = some t) (hpc : s.pc a = ⟨.wakeupTest chan p l, none⟩)
    (hs : s.Committed chan p) (ht : t.Committed chan p) : False := by
  have hset : ¬∃ lk l, (s.pc (.proc p)).ctl = .sleepSet chan lk l := by
    rintro ⟨lk', l', hctl⟩
    rw [hi.own_lock hctl rfl id] at hown
    obtain rfl : Agent.proc p = a := by simpa using hown
    rw [hpc] at hctl
    cases hctl
  obtain ⟨hsleep, hchan⟩ := hs.resolve_left hset
  rw [hpc] at hm
  cases hm with
  | wakeupPass h => exact h ⟨hsleep, hchan⟩
  | wakeupRouse =>
      rcases ht with ht | ⟨ht, -⟩
      · rw [exec_pc_ne hexec (Ne.symm hne)] at ht
        exact hset ht
      · cases hexec
        simp [Mach.goto] at ht

theorem act (hn : NoLost lk chan cond owes s) (hi : Inv s) (hrun : s.Runs a)
    (hd : Disciplined lk chan cond s a ch) (h : s.act a ch = some t)
    (hkeep : ∀ b, owes b → (b = a → (s.pc a).ctl.scans chan = true → (t.pc a).ctl.scans chan = true) → owes' b)
    (hmake : ¬cond s.data → cond t.data → owes' a) : NoLost lk chan cond owes' t := by
  obtain ⟨op, hm, hexec⟩ := act_moves h
  have hself := exec_pc_self hexec
  constructor
  · intro p hp
    by_cases ha : a = .proc p
    · subst ha
      rw [hself] at hp
      obtain ⟨hfrom, hdata, hlock⟩ := hm.entering hexec hp
      rw [hdata, hlock]
      rcases hfrom with hin | ⟨lk', l, hnext⟩
      · exact hn.entering p hin
      · simp only [Disciplined, hnext] at hd
        exact (hd trivial).2
    · rw [exec_pc_ne hexec (Ne.symm ha)] at hp
      obtain ⟨hlock, hfalse⟩ := hn.entering p hp
      refine ⟨Moves.lock_ne hexec (Ne.symm ha) hlock, fun htrue => ?_⟩
      have hown := (made hd hm hexec hfalse htrue).1
      rw [hlock] at hown
      exact ha (Option.some.inj hown).symm
  · intro p hp htrue
    rcases hm.committed hexec hp with hcom | ⟨rfl, hin, hdata⟩
    · by_cases hcond : cond s.data
      · obtain ⟨b, hob, hbp, hpend⟩ := hn.committed p hcom hcond
        by_cases hba : b = a
        · subst hba
          rcases hm.pending hbp hpend with ⟨hpend', hscans⟩ | ⟨l, hpc⟩
          · refine ⟨b, hkeep b hob fun _ => hself ▸ hscans, hbp, hself ▸ hpend'⟩
          · -- The scan is at the slot of p, whose lock it holds: p sleeps and is woken up.
            exfalso
            have hown : (s.proc p).lock = some (.agent b) := (hi.lock p b).mpr ⟨hrun, by rw [hpc]; rfl⟩
            exact not_committed hi hbp hown hm hexec hpc hcom hp
        · refine ⟨b, hkeep b hob fun he => absurd he hba, hbp, ?_⟩
          rw [exec_pc_ne hexec hba]
          exact hpend
      · obtain ⟨-, l, l', hpc, hpc'⟩ := made hd hm hexec hcond htrue
        refine ⟨a, hmake hcond htrue, ?_, ?_⟩
        · rintro rfl
          rcases hcom with ⟨lk', l'', hctl⟩ | ⟨hsleep, -⟩
          · rw [hpc] at hctl
            cases hctl
          · refine hi.state_ne_sleeping hrun ?_ hsleep
            rw [hpc]
            exact id
        · rw [hpc']
          trivial
    · rw [hdata] at htrue
      exact absurd htrue (hn.entering p hin).2

theorem idle (hn : NoLost lk chan cond owes s) (h : Idle s t) : NoLost lk chan cond owes t := by
  constructor
  · intro p hp
    rw [h.ctl] at hp
    rw [h.lock, h.data]
    exact hn.entering p hp
  · intro p hp htrue
    rw [h.data] at htrue
    have hs : s.Committed chan p := by
      rcases hp with hp | ⟨hsleep, hchan⟩
      · exact .inl (h.ctl (.proc p) ▸ hp)
      · exact .inr ⟨h.sleeping p hsleep, (h.chan p).symm.trans hchan⟩
    obtain ⟨a, ha, hne, hpend⟩ := hn.committed p hs htrue
    refine ⟨a, ha, hne, ?_⟩
    rw [h.ctl]
    exact hpend

theorem start (live : Slot → Bool) (pid : Slot → Int) (d : K.Data) :
    NoLost lk chan cond owes (Mach.start live pid d) where
  entering p hp := False.elim hp
  committed p hp := by
    rcases hp with ⟨_, _, hp⟩ | ⟨-, hp⟩ <;> cases hp

end NoLost

end Steps

section Wakers

variable (lk : K.Lk) (chan : K.Chan) (cond : K.Data → Prop) [DecidablePred cond]

-- The wakers: who made the condition true and has not finished wakeup(chan) since.
def note (s t : Mach K) (a : Agent) (waking : List Agent) : List Agent :=
  if (s.pc a).ctl.scans chan && !(t.pc a).ctl.scans chan then waking.filter (· ≠ a)
  else if ¬cond s.data ∧ cond t.data then a :: waking
  else waking

-- A step of code that keeps to the discipline, with its wakers.
inductive WakeStep : Mach K × List Agent → Mach K × List Agent → Prop
  | act {s t : Mach K} {waking : List Agent} (a : Agent) (ch : K.Choice) (hrun : s.Runs a)
      (hd : Disciplined lk chan cond s a ch) (h : s.act a ch = some t) :
      WakeStep (s, waking) (t, note chan cond s t a waking)
  | idle {s t : Mach K} {waking : List Agent} (h : Step (fun _ _ _ => False) s t) :
      WakeStep (s, waking) (t, waking)

instance (s : Mach K) (a : Agent) (ch : K.Choice) : Decidable (Disciplined lk chan cond s a ch) := by
  unfold Disciplined
  split <;> infer_instance

def wakeMove (x : Mach K × List Agent) : Move K → Option (Mach K × List Agent)
  | .act a ch =>
      if x.1.Runs a ∧ Disciplined lk chan cond x.1 a ch then
        (x.1.act a ch).map fun t => (t, note chan cond x.1 t a x.2)
      else none
  | .schedule p => (x.1.schedule p).map (·, x.2)

variable {lk chan cond}

theorem wakeStep_of_move {x y : Mach K × List Agent} {m : Move K} (h : wakeMove lk chan cond x m = some y) :
    WakeStep lk chan cond x y := by
  cases m with
  | act a ch =>
      obtain ⟨⟨hrun, hd⟩, hact⟩ := Option.ite_none_right_eq_some.mp h
      obtain ⟨t, ht, rfl⟩ := Option.map_eq_some_iff.mp hact
      exact .act a ch hrun hd ht
  | schedule p =>
      obtain ⟨t, ht, rfl⟩ := Option.map_eq_some_iff.mp h
      exact .idle (.schedule p ht)

theorem NoLost.wakeStep {s t : Mach K × List Agent} (hi : Inv s.1) (hn : NoLost lk chan cond (· ∈ s.2) s.1)
    (h : WakeStep lk chan cond s t) : Inv t.1 ∧ NoLost lk chan cond (· ∈ t.2) t.1 := by
  cases h with
  | @act s t waking a ch hrun hd h =>
      refine ⟨hi.act hrun h, hn.act hi hrun hd h (fun b hb hscan => ?_) fun hfalse htrue => ?_⟩
      · simp only [note]
        split_ifs with h₁ h₂
        · have hba : b ≠ a := by
            rintro rfl
            simp only [Bool.and_eq_true, Bool.not_eq_true'] at h₁
            simp [hscan rfl h₁.1] at h₁
          exact List.mem_filter.mpr ⟨hb, decide_eq_true hba⟩
        · exact List.mem_cons_of_mem a hb
        · exact hb
      · -- The condition changes in client code, not in wakeup.
        obtain ⟨op, hm, hexec⟩ := act_moves h
        obtain ⟨-, l, l', hpc, -⟩ := made hd hm hexec hfalse htrue
        simp [note, hpc, Ctl.scans, hfalse, htrue]
  | @idle s t waking h =>
      refine ⟨hi.step h, ?_⟩
      rcases step_cases h with ⟨_, _, -, hq, -⟩ | hidle
      · exact False.elim hq
      · exact hn.idle hidle

-- While the condition is true and nobody is between making it true and the end of the
-- wakeup for it, nobody sleeps on chan.
theorem no_lost_wakeup (live : Slot → Bool) (pid : Slot → Int) (d : K.Data) {s : Mach K} {waking : List Agent}
    (h : Reaches (WakeStep lk chan cond) (.start live pid d, []) (s, waking)) (htrue : cond s.data)
    (hnone : waking = []) (p : Slot) : ¬((s.proc p).state = .sleeping ∧ (s.proc p).chan = some chan) := by
  intro hsleep
  have hboth := h.invariant (fun s => Inv s.1 ∧ NoLost lk chan cond (· ∈ s.2) s.1)
    ⟨Inv.start live pid d, NoLost.start live pid d⟩ fun _ _ hs hst => NoLost.wakeStep hs.1 hs.2 hst
  obtain ⟨a, ha, -⟩ := hboth.2.committed p (.inr hsleep) htrue
  subst hnone
  cases ha

end Wakers

end Xv6.Sleep
