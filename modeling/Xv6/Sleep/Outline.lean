import Xv6.Sleep.Wakeup

namespace Xv6.Sleep

open Transition

variable {K : Client}

def Allowed (allow : Agent → K.Loc → K.Data → K.Choice → Prop) (s : Mach K) (a : Agent) (ch : K.Choice) : Prop :=
  ∀ l ∈ s.loc a, allow a l s.data ch

instance (allow : Agent → K.Loc → K.Data → K.Choice → Prop) [∀ a l d ch, Decidable (allow a l d ch)]
    (s : Mach K) (a : Agent) (ch : K.Choice) : Decidable (Allowed allow s a ch) :=
  inferInstanceAs (Decidable (∀ l ∈ s.loc a, allow a l s.data ch))

-- A proof outline for code whose data one lock protects: where the lock is held, what holds
-- of the data always, and what holds of it at each point inside.
structure Outline (lk : K.Lk) where
  inside : K.Loc → Bool
  inv : K.Data → Prop
  assert : K.Loc → K.Data → Prop

namespace Outline

variable {lk : K.Lk} (o : Outline lk)

variable {d d' : K.Data} {l : K.Loc} {holds : Bool}

-- The points where the lock has just been taken.
def Entry (l : K.Loc) : Prop := o.inside l = true ∧ ∀ d, o.inv d → o.assert l d

-- The code may go on from l to l' without touching the lock.
def Goes (l l' : K.Loc) (d : K.Data) : Prop := o.inside l' = o.inside l ∧ (o.inside l = true → o.assert l' d)

def Keeps (l : K.Loc) (d : K.Data) : Act K.Lk K.Chan K.Data K.Loc → Prop
  | .data d' l' => o.Goes l l' d' ∧ o.inv d' ∧ (o.inside l = false → d' = d)
  | .acquire k l' => k = lk ∧ o.inside l = false ∧ o.Entry l'
  | .release k l' => k = lk ∧ o.inside l = true ∧ o.inside l' = false
  | .killed yes no => o.Goes l yes d ∧ o.Goes l no d
  | .sleep _ k l' => k = lk ∧ o.inside l = true ∧ o.Entry l'
  | .wakeup _ l' | .kill _ l' => o.Goes l l' d

-- Every action of the code that is allowed keeps the outline.
structure Valid (allow : Agent → K.Loc → K.Data → K.Choice → Prop) : Prop where
  idle : o.inside K.idle = false
  step : ∀ {a l d ch act}, K.code a l d ch = some act → allow a l d ch → o.inv d →
    (o.inside l = true → o.assert l d) → o.Keeps l d act

def Point (holds : Bool) (d : K.Data) (l : K.Loc) : Prop :=
  o.inside l = holds ∧ (holds = true → o.assert l d)

def At (holds : Bool) (d : K.Data) : Ctl K → Prop
  | .run l | .forkret l => o.Point holds d l
  | .wakeup _ _ l | .wakeupTest _ _ l | .wakeupRelease _ _ l => o.Point holds d l
  | .kill _ _ l | .killTest _ _ l | .killRelease _ _ l | .killDone _ l => o.Point holds d l
  | .killedAcquire yes no | .killedTest yes no | .killedRelease _ yes no =>
      o.Point holds d yes ∧ o.Point holds d no
  | .sleepAcquire _ k l | .sleepUnlock _ k l => k = lk ∧ holds = true ∧ o.Entry l
  | .sleepSet _ k l | .sleepSched k l | .sleepTidy k l | .sleepRelease k l | .sleepRelock k l =>
      k = lk ∧ holds = false ∧ o.Entry l

structure Holds (s : Mach K) : Prop where
  inv : o.inv s.data
  point : ∀ a, o.At (decide (s.lock lk = some a)) s.data (s.pc a).ctl

variable {o} {s t : Mach K} {a : Agent} {ch : K.Choice} {op : Op K}
  {allow : Agent → K.Loc → K.Data → K.Choice → Prop}

theorem Point.of_false (h : o.Point false d l) : o.Point false d' l :=
  ⟨h.1, Bool.noConfusion⟩

theorem At.of_false {c : Ctl K} (h : o.At false d c) : o.At false d' c := by
  cases c
  case sleepAcquire | sleepUnlock | sleepSet | sleepSched | sleepTidy | sleepRelease | sleepRelock => exact h
  case killedAcquire | killedTest | killedRelease => exact ⟨h.1.of_false, h.2.of_false⟩
  all_goals exact Point.of_false h

theorem Goes.point {l' : K.Loc} (h : o.Goes l l' d') (hp : o.Point holds d l) :
    o.Point holds d' l' :=
  ⟨h.1.trans hp.1, fun hh => h.2 (hp.1.trans hh)⟩

theorem at_wakeupFrom (c : K.Chan) (i : Option Slot) (h : o.Point holds d l) : o.At holds d (wakeupFrom c l i) := by
  cases i <;> exact h

theorem at_killFrom (pid : Int) (i : Option Slot) (h : o.Point holds d l) : o.At holds d (killFrom pid l i) := by
  cases i <;> exact h

theorem lock_iff_of_ne (hexec : s.exec a op = some t) {b : Agent} (hb : b ≠ a) :
    t.lock lk = some b ↔ s.lock lk = some b := by
  refine ⟨fun h => ?_, Moves.lock_ne hexec hb⟩
  rcases exec_lock hexec lk with he | ⟨-, pc, rfl⟩ | ⟨-, pc, rfl⟩
  · exact he.symm.trans h
  · simp only [Mach.exec, Option.ite_none_right_eq_some, Option.some.injEq] at hexec
    rw [← hexec.2] at h
    exact absurd (by simpa [Mach.goto] using h) (Ne.symm hb)
  · simp only [Mach.exec, Option.ite_none_right_eq_some, Option.some.injEq] at hexec
    rw [← hexec.2] at h
    simp [Mach.goto] at h

-- What the outline says about the action that a takes.
theorem Holds.keeps (hv : o.Valid allow) (h : o.Holds s) (hq : Allowed allow s a ch)
    {act : Act K.Lk K.Chan K.Data K.Loc} (hpc : s.pc a = ⟨.run l, none⟩) (hcode : K.code a l s.data ch = some act) :
    o.Keeps l s.data act ∧ o.Point (decide (s.lock lk = some a)) s.data l := by
  have hpoint := h.point a
  rw [hpc] at hpoint
  have hallow := hq l (Mach.loc_eq_some.mpr hpc)
  exact ⟨hv.step hcode hallow h.inv fun hin => hpoint.2 (hpoint.1.symm.trans hin), hpoint⟩

theorem exec_acquire {k : K.Lk} {pc : Pc K} (hexec : s.exec a (.acquire k pc) = some t) :
    s.lock k = none ∧ t.lock k = some a ∧ t.data = s.data := by
  simp only [Mach.exec, Option.ite_none_right_eq_some, Option.some.injEq] at hexec
  obtain ⟨hfree, rfl⟩ := hexec
  exact ⟨hfree, Function.update_self .., rfl⟩

theorem exec_release {k : K.Lk} {pc : Pc K} (hexec : s.exec a (.release k pc) = some t) :
    s.lock k = some a ∧ t.lock k = none ∧ t.data = s.data := by
  simp only [Mach.exec, Option.ite_none_right_eq_some, Option.some.injEq] at hexec
  obtain ⟨hheld, rfl⟩ := hexec
  exact ⟨hheld, Function.update_self .., rfl⟩

theorem exec_quiet (lk : K.Lk) (hexec : s.exec a op = some t) (hdata : ∀ d pc, op ≠ .data d pc)
    (hacq : ∀ pc, op ≠ .acquire lk pc) (hrel : ∀ pc, op ≠ .release lk pc) :
    t.data = s.data ∧ t.lock lk = s.lock lk := by
  constructor
  · rcases exec_data hexec with he | ⟨d, pc, rfl, -⟩
    · exact he
    · exact absurd rfl (hdata d pc)
  · rcases exec_lock hexec lk with he | ⟨-, pc, rfl⟩ | ⟨-, pc, rfl⟩
    · exact he
    · exact absurd rfl (hacq pc)
    · exact absurd rfl (hrel pc)

theorem Holds.self (hv : o.Valid allow) (h : o.Holds s) (hq : Allowed allow s a ch)
    (hm : Moves s a ch (s.pc a) op) (hexec : s.exec a op = some t) :
    o.At (decide (t.lock lk = some a)) t.data op.pc.ctl ∧ o.inv t.data ∧
      (t.data = s.data ∨ s.lock lk = some a) := by
  have hpoint := h.point a
  have hinv := h.inv
  generalize hpc : s.pc a = pc at hm
  rw [hpc] at hpoint
  cases hm
  case data l d l' hcode =>
    obtain ⟨⟨hgoes, hinv', hout⟩, hp⟩ := h.keeps hv hq hpc hcode
    cases hexec
    refine ⟨hgoes.point hp, hinv', ?_⟩
    by_cases hlock : s.lock lk = some a
    · exact .inr hlock
    · exact .inl (hout (hp.1.trans (decide_eq_false hlock)))
  case acquire l k l' hcode =>
    obtain ⟨⟨rfl, -, hin, hassert⟩, -⟩ := h.keeps hv hq hpc hcode
    obtain ⟨-, hlock, hdata⟩ := exec_acquire hexec
    rw [hdata, hlock]
    exact ⟨⟨by simpa using hin, fun _ => hassert _ hinv⟩, hinv, .inl rfl⟩
  case release l k l' hcode =>
    obtain ⟨⟨rfl, -, hout⟩, -⟩ := h.keeps hv hq hpc hcode
    obtain ⟨-, hlock, hdata⟩ := exec_release hexec
    rw [hdata, hlock]
    exact ⟨⟨hout, Bool.noConfusion⟩, hinv, .inl rfl⟩
  case sleepUnlock c k l =>
    obtain ⟨rfl, -, hentry⟩ := hpoint
    obtain ⟨-, hlock, hdata⟩ := exec_release hexec
    rw [hdata, hlock]
    exact ⟨⟨rfl, rfl, hentry⟩, hinv, .inl rfl⟩
  case sleepRelock k l =>
    obtain ⟨rfl, -, hin, hassert⟩ := hpoint
    obtain ⟨-, hlock, hdata⟩ := exec_acquire hexec
    rw [hdata, hlock]
    exact ⟨⟨by simpa using hin, fun _ => hassert _ hinv⟩, hinv, .inl rfl⟩
  all_goals
    obtain ⟨hdata, hlock⟩ := exec_quiet lk hexec (by simp) (by simp) (by simp)
    rw [hdata, hlock]
    refine ⟨?_, hinv, .inl rfl⟩
  case killed l yes no _ hcode =>
    obtain ⟨⟨hyes, hno⟩, hp⟩ := h.keeps hv hq hpc hcode
    exact ⟨hyes.point hp, hno.point hp⟩
  case sleep l c k l' _ hcode =>
    obtain ⟨⟨rfl, hin, hentry⟩, hp⟩ := h.keeps hv hq hpc hcode
    exact ⟨rfl, hp.1.symm.trans hin, hentry⟩
  case wakeup hcode | kill hcode =>
    obtain ⟨hgoes, hp⟩ := h.keeps hv hq hpc hcode
    exact hgoes.point hp
  case killedRelease k yes no _ =>
    cases k
    · exact hpoint.2
    · exact hpoint.1
  case wakeupSelf | wakeupRelease => exact at_wakeupFrom _ _ hpoint
  case killRelease => exact at_killFrom _ _ hpoint
  all_goals exact hpoint

theorem Holds.act (hv : o.Valid allow) (h : o.Holds s) (hq : Allowed allow s a ch) (hact : s.act a ch = some t) :
    o.Holds t := by
  obtain ⟨op, hm, hexec⟩ := act_moves hact
  obtain ⟨hself, hinv, hdata⟩ := h.self hv hq hm hexec
  refine ⟨hinv, fun b => ?_⟩
  by_cases hb : b = a
  · rw [hb, exec_pc_self hexec]
    exact hself
  · have hpoint := h.point b
    rw [exec_pc_ne hexec hb, decide_eq_decide.mpr (lock_iff_of_ne hexec hb)]
    rcases hdata with he | hlock
    · simpa only [he] using hpoint
    · have hfree : decide (s.lock lk = some b) = false := by
        rw [hlock]
        simpa using Ne.symm hb
      rw [hfree] at hpoint ⊢
      exact hpoint.of_false

theorem Holds.idle (h : o.Holds s) (hs : Idle s t) : o.Holds t := by
  refine ⟨?_, fun a => ?_⟩
  · rw [hs.data]
    exact h.inv
  · rw [hs.data, hs.lock, hs.ctl]
    exact h.point a

theorem Holds.step (hv : o.Valid allow) (h : o.Holds s) (hst : Step (Allowed allow) s t) : o.Holds t := by
  rcases step_cases hst with ⟨a, ch, -, hq, hact⟩ | hidle
  · exact h.act hv hq hact
  · exact h.idle hidle

theorem Holds.start (hv : o.Valid allow) (live : Slot → Bool) (pid : Slot → Int) (hd : o.inv d) :
    o.Holds (.start live pid d) := by
  refine ⟨hd, fun a => ?_⟩
  cases a <;> exact ⟨hv.idle, Bool.noConfusion⟩

theorem reachable (hv : o.Valid allow) {live : Slot → Bool} {pid : Slot → Int} (hd : o.inv d)
    (h : Reaches (Step (Allowed allow)) (.start live pid d) s) : o.Holds s :=
  Reaches.invariant h o.Holds (Holds.start hv live pid hd) fun _ _ hs hst => hs.step hv hst

section Signals

variable (o) (chan : K.Chan) (cond : K.Data → Prop) (owing : K.Loc → Bool)

-- At a point where owing holds, the code has made the condition true and not yet called
-- wakeup(chan). It must do so before it gives the lock back.
def Due (l : K.Loc) (d : K.Data) : Act K.Lk K.Chan K.Data K.Loc → Prop
  | .data d' l' => owing l = true ∨ (¬cond d ∧ cond d') → owing l' = true
  | .acquire _ _ => True
  | .release _ _ => owing l = false
  | .killed yes no => owing l = true → owing yes = true ∧ owing no = true
  | .sleep c _ _ => owing l = false ∧ (c = chan → ¬cond d)
  | .wakeup c l' => c ≠ chan → owing l = true → owing l' = true
  | .kill _ l' => owing l = true → owing l' = true

structure Signals (allow : Agent → K.Loc → K.Data → K.Choice → Prop) : Prop where
  inside : ∀ {l}, owing l = true → o.inside l = true
  step : ∀ {a l d ch act}, K.code a l d ch = some act → allow a l d ch → o.inv d →
    (o.inside l = true → o.assert l d) → Due chan cond owing l d act

def Owes : Ctl K → Prop
  | .run l | .forkret l => owing l = true
  | .wakeup c _ l | .wakeupTest c _ l | .wakeupRelease c _ l =>
      if c = chan then o.inside l = true else owing l = true
  | .kill _ _ l | .killTest _ _ l | .killRelease _ _ l | .killDone _ l => owing l = true
  | .killedAcquire yes no | .killedTest yes no | .killedRelease _ yes no => owing yes = true ∧ owing no = true
  | _ => False

end Signals

section

variable {chan : K.Chan} {cond : K.Data → Prop} {owing : K.Loc → Bool}

theorem owes_killFrom {l : K.Loc} (pid : Int) (i : Option Slot) (h : owing l = true) :
    o.Owes chan owing (killFrom pid l i) := by
  cases i <;> exact h

-- An agent that scans chan owes until it is done, any other until it scans.
theorem owes_wakeupFrom {l : K.Loc} {c : K.Chan} (i : Option Slot)
    (h : if c = chan then o.inside l = true else owing l = true)
    (hscan : c = chan → (wakeupFrom c l i).scans chan = true) : o.Owes chan owing (wakeupFrom c l i) := by
  cases i with
  | some j => exact h
  | none =>
      split_ifs at h with hc
      · exact absurd (hscan hc) Bool.noConfusion
      · exact h

theorem Signals.due (hs : o.Signals chan cond owing allow) (h : o.Holds s) (hq : Allowed allow s a ch)
    {l : K.Loc} {act : Act K.Lk K.Chan K.Data K.Loc} (hpc : s.pc a = ⟨.run l, none⟩)
    (hcode : K.code a l s.data ch = some act) : Due chan cond owing l s.data act := by
  have hpoint := h.point a
  rw [hpc] at hpoint
  exact hs.step hcode (hq l (Mach.loc_eq_some.mpr hpc)) h.inv fun hin => hpoint.2 (hpoint.1.symm.trans hin)

variable (hv : o.Valid allow) (hs : o.Signals chan cond owing allow)

include hv hs

theorem Signals.disciplined (h : o.Holds s) (hq : Allowed allow s a ch) : Disciplined lk chan cond s a ch := by
  unfold Disciplined
  split
  · rename_i c k l' hnext
    obtain ⟨l, hpc, hcode⟩ := Mach.next_eq_some.mp hnext
    obtain ⟨⟨hk, hin, -⟩, hp⟩ := h.keeps hv hq hpc hcode
    exact fun hc => ⟨hk, of_decide_eq_true (hp.1.symm.trans hin), (hs.due h hq hpc hcode).2 hc⟩
  · rename_i d' l' hnext
    obtain ⟨l, hpc, hcode⟩ := Mach.next_eq_some.mp hnext
    obtain ⟨⟨-, -, hout⟩, hp⟩ := h.keeps hv hq hpc hcode
    intro htrue hfalse
    by_contra hlock
    rw [hout (hp.1.trans (decide_eq_false hlock))] at htrue
    exact hfalse htrue
  · trivial

theorem Signals.keep (h : o.Holds s) (hq : Allowed allow s a ch) (hm : Moves s a ch (s.pc a) op)
    (howes : o.Owes chan owing (s.pc a).ctl) (hscan : (s.pc a).ctl.scans chan = true → op.pc.ctl.scans chan = true) :
    o.Owes chan owing op.pc.ctl := by
  generalize hpc : s.pc a = pc at hm
  rw [hpc] at howes hscan
  cases hm
  case data hcode => exact hs.due h hq hpc hcode (.inl howes)
  case acquire hcode =>
    have hout := (h.keeps hv hq hpc hcode).1.2.1
    rw [hs.inside howes] at hout
    cases hout
  case release hcode => exact absurd (howes.symm.trans (hs.due h hq hpc hcode)) Bool.noConfusion
  case sleep hcode => exact absurd (howes.symm.trans (hs.due h hq hpc hcode).1) Bool.noConfusion
  case killed hcode => exact hs.due h hq hpc hcode howes
  case kill hcode => exact hs.due h hq hpc hcode howes
  case wakeup l c l' hcode =>
    have hgoes := (h.keeps hv hq hpc hcode).1
    simp only [Op.pc, Owes]
    split_ifs with hc
    · exact hgoes.1.trans (hs.inside howes)
    · exact hs.due h hq hpc hcode hc howes
  case killedRelease k yes no ha =>
    cases k
    · exact howes.2
    · exact howes.1
  case wakeupSelf | wakeupRelease =>
    exact owes_wakeupFrom _ howes fun hc => hscan (decide_eq_true hc)
  case killRelease => exact owes_killFrom _ _ howes
  all_goals first | exact howes | exact False.elim howes

omit hv in
theorem Signals.lock_of_owes (h : o.Holds s) (howes : o.Owes chan owing (s.pc a).ctl) : s.lock lk = some a := by
  have hpoint := h.point a
  generalize (s.pc a).ctl = c at howes hpoint
  have hin : ∀ l, o.Point (decide (s.lock lk = some a)) s.data l → o.inside l = true → s.lock lk = some a :=
    fun l hp hl => of_decide_eq_true (hp.1.symm.trans hl)
  cases c
  case killedAcquire | killedTest | killedRelease => exact hin _ hpoint.1 (hs.inside howes.1)
  case wakeup | wakeupTest | wakeupRelease =>
    simp only [Owes] at howes
    split_ifs at howes
    · exact hin _ hpoint howes
    · exact hin _ hpoint (hs.inside howes)
  all_goals first | exact hin _ hpoint (hs.inside howes) | exact False.elim howes

-- Whenever the lock is free, the condition of a process that sleeps on chan is false.
theorem Signals.reachable {live : Slot → Bool} {pid : Slot → Int} {d : K.Data} (hd : o.inv d)
    (h : Reaches (Step (Allowed allow)) (.start live pid d) s) :
    NoLost lk chan cond (fun a => o.Owes chan owing (s.pc a).ctl) s := by
  have hbase : ∀ s, Reaches (Step (Allowed allow)) (.start live pid d) s → Inv s ∧ o.Holds s :=
    fun s hr => ⟨reachable_inv hr, Outline.reachable hv hd hr⟩
  refine h.invariant_of (fun s => NoLost lk chan cond (fun a => o.Owes chan owing (s.pc a).ctl) s) hbase
    (NoLost.start live pid d) fun s t hb hn hst => ?_
  obtain ⟨hi, ho⟩ := hb
  rcases step_cases hst with ⟨a, ch, hrun, hq, hact⟩ | hidle
  · obtain ⟨op, hm, hexec⟩ := act_moves hact
    have hdis := hs.disciplined hv ho hq
    refine hn.act hi hrun hdis hact (fun b hb hscan => ?_) fun hfalse htrue => ?_
    · by_cases hba : b = a
      · subst hba
        rw [exec_pc_self hexec] at hscan ⊢
        exact hs.keep hv ho hq hm hb (hscan rfl)
      · rw [exec_pc_ne hexec hba]
        exact hb
    · rcases hm.data_or hexec with he | ⟨l, l', hpc, hpc', hnext⟩
      · exact absurd (he ▸ htrue) hfalse
      · simp only [Mach.next, Mach.loc_eq_some.mpr hpc, Option.bind_some] at hnext
        rw [hpc']
        exact hs.due ho hq hpc hnext (.inr ⟨hfalse, htrue⟩)
  · have hsame : (fun a => o.Owes chan owing (t.pc a).ctl) = fun a => o.Owes chan owing (s.pc a).ctl := by
      funext a
      rw [hidle.ctl]
    rw [hsame]
    exact hn.idle hidle

theorem Signals.not_of_sleeping {live : Slot → Bool} {pid : Slot → Int} {d : K.Data} (hd : o.inv d)
    (h : Reaches (Step (Allowed allow)) (.start live pid d) s) (hfree : s.lock lk = none) {p : Slot}
    (hstate : (s.proc p).state = .sleeping) (hchan : (s.proc p).chan = some chan) : ¬cond s.data := by
  intro htrue
  obtain ⟨a, howes, -⟩ := (hs.reachable hv hd h).committed p (.inr ⟨hstate, hchan⟩) htrue
  have hlock := hs.lock_of_owes (Outline.reachable hv hd h) howes
  rw [hfree] at hlock
  cases hlock

end

end Outline

end Xv6.Sleep
