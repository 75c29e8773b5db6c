import Mathlib.Tactic.Ring
import Xv6.Clock

namespace Xv6

open Transition

namespace Sleep

variable {K : Client} {s : Mach K} {a : Agent} {ch : K.Choice} {op : Op K} {l : K.Loc}

-- The points of the client's code that an action or a program point leads to.
def Act.Leads (l : K.Loc) : Act K.Lk K.Chan K.Data K.Loc → Prop
  | .data _ l' | .acquire _ l' | .release _ l' | .sleep _ _ l' | .wakeup _ l' | .kill _ l' => l' = l
  | .killed yes no => yes = l ∨ no = l

def Ctl.Leads (l : K.Loc) : Ctl K → Prop
  | .run l' | .forkret l' => l' = l
  | .killedAcquire yes no | .killedTest yes no | .killedRelease _ yes no => yes = l ∨ no = l
  | .sleepAcquire _ _ l' | .sleepUnlock _ _ l' | .sleepSet _ _ l' | .sleepSched _ l' => l' = l
  | .sleepTidy _ l' | .sleepRelease _ l' | .sleepRelock _ l' => l' = l
  | .wakeup _ _ l' | .wakeupTest _ _ l' | .wakeupRelease _ _ l' => l' = l
  | .kill _ _ l' | .killTest _ _ l' | .killRelease _ _ l' | .killDone _ l' => l' = l

theorem Moves.leads {pc : Pc K} (hm : Moves s a ch pc op) (h : op.pc.ctl.Leads l) :
    pc.ctl.Leads l ∨ ∃ l' act, pc = ⟨.run l', none⟩ ∧ K.code a l' s.data ch = some act ∧ act.Leads l := by
  cases hm
  case data hcode | acquire hcode | release hcode | killed hcode | sleep hcode | wakeup hcode | kill hcode =>
    exact .inr ⟨_, _, rfl, hcode, h⟩
  case killedRelease k yes no _ =>
    refine .inl ?_
    cases k
    · exact .inr h
    · exact .inl h
  case wakeupSelf i l' _ | wakeupRelease i l' =>
    simp only [Op.pc, wakeupFrom] at h
    split at h <;> exact .inl h
  case killRelease i l' =>
    simp only [Op.pc, killFrom] at h
    split at h <;> exact .inl h
  all_goals exact .inl h

end Sleep

namespace Clock

open Sleep

-- The machine beside the number of ticks so far, and their number when each agent entered sys_sleep.
structure Timed where
  mach : Mach client
  count : ℕ
  entry : Agent → ℕ

namespace Timed

def elapsed (s : Timed) (a : Agent) : ℕ := s.count - s.entry a

def start (live : Slot → Bool) (pid : Slot → Int) (ticks : BitVec 32) : Timed := ⟨.start live pid ticks, 0, fun _ => 0⟩

-- clockintr counts a tick where it adds one to ticks, and sys_sleep is entered where it reads ticks.
def after (s : Timed) (a : Agent) (t : Mach client) : Timed where
  mach := t
  count := if s.mach.loc a = some .tick then s.count + 1 else s.count
  entry b := if b = a ∧ ∃ n, s.mach.loc a = some (.begin n) then s.count else s.entry b

theorem count_after (s : Timed) (a : Agent) (t : Mach client) :
    s.count ≤ (s.after a t).count ∧ (s.after a t).count ≤ s.count + 1 := by
  unfold after
  split
  · exact ⟨Nat.le_succ _, le_rfl⟩
  · exact ⟨le_rfl, Nat.le_succ _⟩

inductive Step (s : Timed) : Timed → Prop
  | act {t : Mach client} (a : Agent) (ch : Choice) (hrun : s.mach.Runs a) (h : s.mach.act a ch = some t) :
      Step s (s.after a t)
  | other {t : Mach client} (h : Sleep.Step (fun _ _ _ => False) s.mach t) : Step s { s with mach := t }
  | spurious (p : Slot) (hstate : (s.mach.proc p).state = .sleeping) (hfree : (s.mach.proc p).lock = none) :
      Step s { s with mach := s.mach.setProc p fun q => { q with state := .runnable } }

end Timed

theorem exists_timed {l : List (Move client)} {s : Timed} {m : Mach client}
    (h : replay (Mach.move fun _ _ _ => True) s.mach l = some m) :
    ∃ t, Reaches Timed.Step s t ∧ t.mach = m ∧ t.count ≤ s.count + l.length := by
  induction l generalizing s with
  | nil => exact ⟨s, .refl, Option.some.inj h, le_rfl⟩
  | cons move l ih =>
      obtain ⟨u, hmove, hl⟩ := Option.bind_eq_some_iff.mp h
      rw [List.length_cons]
      cases move with
      | act a ch =>
          obtain ⟨⟨hrun, -⟩, hact⟩ := Option.ite_none_right_eq_some.mp hmove
          obtain ⟨t, ht, hm, hle⟩ := ih (s := s.after a u) hl
          have := s.count_after a u
          exact ⟨t, .head (.act a ch hrun hact) ht, hm, by omega⟩
      | schedule p =>
          obtain ⟨t, ht, hm, hle⟩ := ih (s := { s with mach := u }) hl
          exact ⟨t, .head (.other (.schedule p hmove)) ht, hm, hle.trans (Nat.add_le_add_left (Nat.le_succ _) _)⟩

def Loc.since : Loc → Option (BitVec 32)
  | .test _ ticks0 | .sleep _ ticks0 => some ticks0
  | _ => none

variable {a : Agent} {l l' : Loc} {ticks ticks0 : BitVec 32} {ch : Choice}

theorem code_since {act : Act Unit Unit (BitVec 32) Loc} (h : code a l ticks ch = some act)
    (hl : Act.Leads (K := client) l' act) (hsince : l'.since = some ticks0) :
    l.since = some ticks0 ∨ (∃ n, l = .begin n) ∧ ticks0 = ticks := by
  cases l <;> simp only [code] at h
  case idle => cases ch <;> cases h <;> cases hl <;> cases hsince
  case begin n =>
    cases h
    cases hl
    cases hsince
    exact .inr ⟨⟨n, rfl⟩, rfl⟩
  case test n ticks0' =>
    split_ifs at h <;> cases h
    · rcases hl with rfl | rfl
      · cases hsince
      · exact .inl hsince
    · cases hl
      cases hsince
  all_goals
    cases h
    cases hl
    exact .inl hsince

theorem code_data {d : BitVec 32} (h : code a l ticks ch = some (.data d l')) (hl : l ≠ .tick) : d = ticks := by
  cases l <;> simp only [code] at h
  case idle => cases ch <;> cases h
  case test => split_ifs at h <;> cases h; rfl
  case tick => exact absurd rfl hl
  all_goals cases h <;> rfl

theorem data_act {s t : Mach client} (h : s.act a ch = some t) :
    t.data = if s.loc a = some .tick then s.data + 1 else s.data := by
  split
  · rename_i htick
    have hpc := Mach.loc_eq_some.mp htick
    simp only [Mach.act, Mach.code, hpc] at h
    cases h
    rfl
  · rename_i hno
    obtain ⟨op, hm, hexec⟩ := act_moves h
    rcases hm.data_or hexec with he | ⟨l, l', -, -, hnext⟩
    · exact he
    · obtain ⟨l, hpc, hcode⟩ := Mach.next_eq_some.mp hnext
      refine code_data (a := a) hcode ?_
      rintro rfl
      exact hno (Mach.loc_eq_some.mpr hpc)

-- ticks is the number of ticks so far after the first value, and ticks0 their number at the entry.
structure Counts (first : BitVec 32) (s : Timed) : Prop where
  data : s.mach.data = first + BitVec.ofNat 32 s.count
  entry : ∀ a l ticks0, (s.mach.pc a).ctl.Leads l → l.since = some ticks0 →
    ticks0 = first + BitVec.ofNat 32 (s.entry a) ∧ s.entry a ≤ s.count

variable {first : BitVec 32} {s : Timed}

theorem Counts.of_same (h : Counts first s) {t : Mach client} (hdata : t.data = s.mach.data)
    (hctl : ∀ a, (t.pc a).ctl = (s.mach.pc a).ctl) : Counts first { s with mach := t } :=
  ⟨hdata.trans h.data, fun a l ticks0 hl => h.entry a l ticks0 (hctl a ▸ hl)⟩

theorem Counts.after (h : Counts first s) {t : Mach client} (hact : s.mach.act a ch = some t) :
    Counts first (s.after a t) := by
  obtain ⟨op, hm, hexec⟩ := act_moves hact
  have hdata := data_act hact
  have hcount := (s.count_after a t).1
  constructor
  · change t.data = first + BitVec.ofNat 32 (if _ then _ else _)
    rw [hdata, h.data]
    split
    · rw [BitVec.add_assoc, BitVec.ofNat_add]
      rfl
    · rfl
  · intro b l ticks0 hl hsince
    change ticks0 = first + BitVec.ofNat 32 (if _ then _ else _) ∧ (if _ then _ else _) ≤ _
    change (t.pc b).ctl.Leads l at hl
    by_cases hb : b = a
    · subst hb
      rw [exec_pc_self hexec] at hl
      rcases hm.leads hl with hold | ⟨l', act, hpc, hcode, hlead⟩
      · rw [if_neg]
        · obtain ⟨heq, hle⟩ := h.entry b l ticks0 hold hsince
          exact ⟨heq, hle.trans hcount⟩
        · rintro ⟨-, n, hn⟩
          rw [Mach.loc_eq_some.mp hn] at hold
          cases hold
          cases hsince
      · rcases code_since (a := b) hcode hlead hsince with hold | ⟨⟨n, rfl⟩, rfl⟩
        · rw [if_neg]
          · obtain ⟨heq, hle⟩ := h.entry b l' ticks0 (by rw [hpc]; rfl) hold
            exact ⟨heq, hle.trans hcount⟩
          · rintro ⟨-, n, hn⟩
            rw [Mach.loc_eq_some.mp hn] at hpc
            cases hpc
            cases hold
        · rw [if_pos ⟨rfl, n, Mach.loc_eq_some.mpr hpc⟩]
          exact ⟨h.data, hcount⟩
    · rw [exec_pc_ne hexec hb] at hl
      rw [if_neg fun hb' => hb hb'.1]
      obtain ⟨heq, hle⟩ := h.entry b l ticks0 hl hsince
      exact ⟨heq, hle.trans hcount⟩

theorem reachable_counts {live : Slot → Bool} {pid : Slot → Int}
    (h : Reaches Timed.Step (.start live pid first) s) : Counts first s := by
  refine h.invariant (Counts first) ⟨?_, fun a l ticks0 hl hsince => ?_⟩ fun s t hs hst => ?_
  · exact (BitVec.add_zero first).symm
  · cases a <;> cases hl <;> cases hsince
  · cases hst with
    | act a ch hrun h => exact hs.after h
    | other h =>
        rcases step_cases h with ⟨a, ch, -, hfalse, -⟩ | hidle
        · exact hfalse.elim
        · exact hs.of_same hidle.data hidle.ctl
    | spurious p => exact hs.of_same rfl fun _ => rfl

-- The test compares the ticks since the entry, up to 2^32, with n as an unsigned number.
theorem sub_eq_elapsed (h : Counts first s) {n : BitVec 32} (hloc : s.mach.loc a = some (.test n ticks0)) :
    (s.mach.data - ticks0).toNat = s.elapsed a % 2 ^ 32 := by
  obtain ⟨hsince, hle⟩ := h.entry a (.test n ticks0) ticks0 (by rw [Mach.loc_eq_some.mp hloc]; rfl) rfl
  have hsub : s.mach.data - ticks0 = BitVec.ofNat 32 (s.elapsed a) := by
    rw [h.data, hsince, Timed.elapsed]
    nth_rewrite 1 [← Nat.add_sub_cancel' hle]
    rw [BitVec.ofNat_add]
    generalize BitVec.ofNat 32 (s.entry a) = x
    generalize BitVec.ofNat 32 (s.count - s.entry a) = y
    bv_omega
  rw [hsub, BitVec.toNat_ofNat]

-- A process leaves the loop of sys_sleep at the first test after n ticks, if n is not negative and it gets to
-- that test before 2^32 ticks have passed.
theorem sleep_waits {live : Slot → Bool} {pid : Slot → Int} {first : BitVec 32} {s : Timed}
    (h : Reaches Timed.Step (.start live pid first) s) {a : Agent} {n ticks0 : BitVec 32}
    (hloc : s.mach.loc a = some (.test n ticks0)) (hn : 0 ≤ n.toInt) (hfew : s.elapsed a < 2 ^ 32) (ch : Choice) :
    (max n.toInt 0 ≤ s.elapsed a → s.mach.next a ch = some (.data s.mach.data .release)) ∧
    (s.elapsed a < max n.toInt 0 → s.mach.next a ch = some (.killed .release (.sleep n ticks0))) := by
  have hsub := sub_eq_elapsed (reachable_counts h) hloc
  rw [Nat.mod_eq_of_lt hfew] at hsub
  have hnat : n.toInt = n.toNat := by
    have hcond := BitVec.toInt_eq_toNat_cond n
    split at hcond
    · exact hcond
    · omega
  rw [max_eq_left hn, hnat]
  refine ⟨fun hle => ?_, fun hlt => ?_⟩
  · refine Mach.next_eq_some.mpr ⟨_, Mach.loc_eq_some.mp hloc, if_neg ?_⟩
    rw [hsub]
    omega
  · refine Mach.next_eq_some.mpr ⟨_, Mach.loc_eq_some.mp hloc, if_pos ?_⟩
    rw [hsub]
    omega

def callsSleep (n : BitVec 32) (steps : ℕ) : List (Move client) :=
  List.flatten [dispatch Sched.first, acts Sched.first [(steps, .sleep n)]]

def oneTick : List (Move client) := List.replicate 196 (.act (.intr 0) .clockintr)

-- From a test of sys_sleep that fails to the next one, with a clock interrupt while the process sleeps.
def nextTest (n : BitVec 32) : List (Move client) :=
  List.flatten [acts Sched.first [(9, .sleep n)], [.schedule Sched.first], oneTick, dispatch Sched.first,
    acts Sched.first [(3, .sleep n)]]

theorem elapsed_eq_of_few (h : Reaches Timed.Step (.start (fun _ => true) (fun p => p.val) first) s) {n : BitVec 32}
    (hloc : s.mach.loc a = some (.test n ticks0)) (hfew : s.count < 2 ^ 32) :
    s.elapsed a = (s.mach.data - ticks0).toNat := by
  have hlt : s.elapsed a < 2 ^ 32 := (Nat.sub_le _ _).trans_lt hfew
  rw [sub_eq_elapsed (reachable_counts h) hloc, Nat.mod_eq_of_lt hlt]

-- sleep(2) at the last value of ticks: the test after one tick, which wraps it, and the test after two.
theorem sleep_waits_two : ∃ s t, Reaches Timed.Step (.start (fun _ => true) (fun p => p.val) (-1)) s ∧
    Reaches Timed.Step s t ∧ s.elapsed (.proc Sched.first) = 1 ∧ t.elapsed (.proc Sched.first) = 2 ∧
    (∀ ch, s.mach.next (.proc Sched.first) ch = some (.killed .release (.sleep 2 (-1)))) ∧
    ∀ ch, t.mach.next (.proc Sched.first) ch = some (.data t.mach.data .release) := by
  obtain ⟨m, hm, hdata, hloc, hrest⟩ := exists_of_any
    (r := replay (Mach.move fun _ _ _ => True) (Timed.start (fun _ => true) (fun p => p.val) (-1)).mach
      (callsSleep 2 3 ++ nextTest 2))
    (P := fun m => m.data = 0 ∧ m.loc (.proc Sched.first) = some (.test 2 (-1)) ∧
      (replay (Mach.move fun _ _ _ => True) m (nextTest 2)).any fun m' =>
        decide (m'.data = 1 ∧ m'.loc (.proc Sched.first) = some (.test 2 (-1)))) (by decide +kernel)
  obtain ⟨m', hm', hdata', hloc'⟩ := exists_of_any hrest
  obtain ⟨s, hs, rfl, hcount⟩ := exists_timed hm
  obtain ⟨t, ht, rfl, hcount'⟩ := exists_timed hm'
  have hlen : (nextTest 2).length = 211 ∧ (callsSleep 2 3 ++ nextTest 2).length = 216 := by decide +kernel
  have hzero : (Timed.start (fun _ => true) (fun p => p.val) (-1)).count = 0 := rfl
  have helapsed := elapsed_eq_of_few hs hloc (by omega)
  have helapsed' := elapsed_eq_of_few (hs.trans ht) hloc' (by omega)
  rw [hdata] at helapsed
  rw [hdata'] at helapsed'
  refine ⟨s, t, hs, ht, helapsed, helapsed', fun ch => ?_, fun ch => ?_⟩
  · exact (sleep_waits hs hloc (by decide) (by rw [helapsed]; decide) ch).2 (by rw [helapsed]; decide)
  · exact (sleep_waits (hs.trans ht) hloc' (by decide) (by rw [helapsed']; decide) ch).1 (by rw [helapsed']; decide)

-- sleep(-1): there is nothing to wait for, the process has not been killed, and it sleeps.
theorem sleep_negative : ∃ s, Reaches Timed.Step (.start (fun _ => true) (fun p => p.val) 0) s ∧
    max (-1 : BitVec 32).toInt 0 ≤ s.elapsed (.proc Sched.first) ∧
    (s.mach.proc Sched.first).killed = false ∧ (s.mach.proc Sched.first).state = .sleeping ∧
    (s.mach.proc Sched.first).chan = some () := by
  obtain ⟨m, hrun, hm⟩ := exists_of_any
    (r := replay (Mach.move fun _ _ _ => True) (Timed.start (fun _ => true) (fun p => p.val) 0).mach
      (callsSleep (-1) 11))
    (P := fun m => (m.proc Sched.first).killed = false ∧ (m.proc Sched.first).state = .sleeping ∧
      (m.proc Sched.first).chan = some ()) (by decide +kernel)
  obtain ⟨s, hs, rfl, -⟩ := exists_timed hrun
  exact ⟨s, hs, Int.natCast_nonneg _, hm⟩

end Clock

end Xv6
