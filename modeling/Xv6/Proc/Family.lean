import Xv6.Proc.Effects

namespace Xv6.Sched

open Transition

-- Asleep in wait(), or past the release of wait_lock in sleep().
def Waiting (s : Sys) (q : Slot) : Prop :=
  s.pc q = .sleepSet (.proc q) true ∨ (s.proc q).state = .sleeping ∧ (s.proc q).chan = .proc q

def NoChild (s : Sys) (p : Slot) (S : Slot → Prop) : Prop := ∀ j, S j → (s.proc j).parent ≠ some p

def NoZombie (s : Sys) (p : Slot) (S : Slot → Prop) : Prop :=
  ∀ j, S j → (s.proc j).parent = some p → (s.proc j).state ≠ .zombie

def Gone (s : Sys) (q : Slot) : Prop :=
  (s.proc q).state = .unused ∨ (s.proc q).state = .used ∨ (s.proc q).state = .zombie

def Knows (s : Sys) (p : Slot) : Pc → Prop
  | .waitScan i havekids => NoZombie s p (· < i) ∧ (havekids = false → NoChild s p (· < i))
  | .waitTest i => (s.proc i).parent = some p ∧ NoZombie s p (· < i)
  | .waitSkip i => NoZombie s p (· ≤ i)
  | .waitKilled | .waitKilledTest | .waitKilledRelease _ => NoZombie s p fun _ => True
  | .sleepAcquire _ true | .sleepUnlock _ true => NoZombie s p fun _ => True
  | .exitReparent _ i => NoChild s p (· < i)
  | .wakeup _ _ (.exitReparent _ j) | .wakeupTest _ _ (.exitReparent _ j) => NoChild s p (· ≤ j)
  | .wakeupRelease _ _ (.exitReparent _ j) => NoChild s p (· ≤ j)
  | .exitWakeup _ => NoChild s p fun _ => True
  | .wakeup chan i (.exitAcquire _) | .wakeupTest chan i (.exitAcquire _) =>
      NoChild s p (fun _ => True) ∧ chan = .ofProc (s.proc p).parent ∧
      ∀ q < i, (s.proc p).parent = some q → ¬Waiting s q
  | .wakeupRelease chan i (.exitAcquire _) =>
      NoChild s p (fun _ => True) ∧ chan = .ofProc (s.proc p).parent ∧
      ∀ q ≤ i, (s.proc p).parent = some q → ¬Waiting s q
  | .exitAcquire _ | .exitSet _ =>
      NoChild s p (fun _ => True) ∧ ∀ q, (s.proc p).parent = some q → ¬Waiting s q
  | _ => True

-- init does not exit, and only wait() sleeps on a process.
def Pc.Shape (init p : Slot) : Pc → Prop
  | .sleepAcquire chan w | .sleepUnlock chan w | .sleepSet chan w =>
      if w then chan = .proc p else ∀ q, chan ≠ .proc q
  | .exitWaitLock _ | .exitReparent _ _ | .exitWakeup _ | .exitAcquire _ | .exitSet _ => p ≠ init
  | .wakeup chan _ k | .wakeupTest chan _ k | .wakeupRelease chan _ k =>
      match k with
      | .kernel => True
      | .exitReparent _ _ => p ≠ init ∧ chan = .proc init
      | .exitAcquire _ => p ≠ init
  | .yieldAcquire k | .yieldSet k | .yieldSched k | .yieldRelease k => k.Shape init p
  | _ => True

def Pc.fresh : Pc → Option Slot
  | .forkAlloc np | .forkCopy np | .forkRelease np | .forkWaitLock np | .forkParent np => some np
  | .yieldAcquire k | .yieldSet k | .yieldSched k | .yieldRelease k => k.fresh
  | _ => none

-- A reparent that will still come to wake q.
def Pc.Rouses (q : Slot) : Pc → Prop
  | .wakeup chan i (.exitReparent _ _) | .wakeupTest chan i (.exitReparent _ _) => chan = .proc q ∧ i ≤ q
  | .wakeupRelease chan i (.exitReparent _ _) => chan = .proc q ∧ i < q
  | _ => False

-- Where a thread is that has no CPU.
def Pc.parked : Pc → Bool
  | .yieldRelease _ | .sleepTidy _ | .forkret | .dead => true
  | _ => false

structure Family (s : Sys) : Prop where
  parked : ∀ p, (s.pc p).parked = false → ∃ c, s.cpuPc c = .switched p
  shape : ∀ p, (s.pc p).Shape s.initproc p
  holder : ∀ p, (s.pc p).holdsWait = true → ∃ c, s.cpuPc c = .switched p ∧ s.waitLock = some c
  knows : ∀ p, Knows s p (s.pc p)
  self : ∀ i p, (s.proc i).parent = some p → i ≠ p
  root : (s.proc s.initproc).parent = none ∧ ¬Gone s s.initproc
  unused : ∀ i, (s.proc i).state = .unused → (s.proc i).parent = none
  fresh : ∀ p i, (s.pc p).fresh = some i → (s.proc i).parent = none
  alive : ∀ i q, (s.proc i).parent = some q → ¬Gone s q
  wakes : ∀ q i, Waiting s q → (s.proc i).parent = some q → (s.proc i).state = .zombie →
    ∃ e, (s.pc e).Rouses q

-- The changes of p->state other than exit and the reaping in wait.
def Drifts : ProcState → ProcState → Bool
  | .unused, .used | .used, .unused | .used, .runnable | .runnable, .running | .running, .runnable => true
  | .running, .sleeping | .sleeping, .runnable => true
  | a, b => a = b

-- A step that changes no parent, ends no process and sends nobody to sleep in wait().
structure Calm (s t : Sys) : Prop where
  init : t.initproc = s.initproc
  parent : ∀ i, (t.proc i).parent = (s.proc i).parent
  state : ∀ i, Drifts (s.proc i).state (t.proc i).state = true
  waiting : ∀ q, Waiting t q → Waiting s q

-- The actions that wait_lock is there for.
inductive Stirs (s : Sys) (p : Slot) : Instr → Prop
  | parent {np : Slot} (hpc : s.pc p = .forkParent np) :
      Stirs s p (.update np (fun q => { q with parent := some p }) (.forkWaitUnlock np))
  | reparent {status : Int} {i : Slot} (hpc : s.pc p = .exitReparent status i)
      (hparent : (s.proc i).parent = some p) :
      Stirs s p (.update i (fun q => { q with parent := some s.initproc })
        (.wakeup (.proc s.initproc) first (.exitReparent status i)))
  | exit {status : Int} (hpc : s.pc p = .exitSet status) :
      Stirs s p (.update p (fun q => { q with xstate := status, state := .zombie }) .exitWaitUnlock)
  | reap {i : Slot} (hpc : s.pc p = .waitTest i) (hstate : (s.proc i).state = .zombie) :
      Stirs s p (.update i Proc.freeproc (.waitRelease i))
  | doze {chan : Chan} (hpc : s.pc p = .sleepUnlock chan true) :
      Stirs s p (.releaseWait (.sleepSet chan true))

section

variable {s t : Sys} {c : ℕ} {p q : Slot} {ch : Choice}

variable {i : Instr} {pc : Pc} {chan : Chan} {k : Ret} {f : Proc → Proc}

theorem Stirs.holdsWait (h : Stirs s p i) : (s.pc p).holdsWait = true := by
  cases h with
  | parent hpc | reparent hpc _ | exit hpc | reap hpc _ | doze hpc =>
      rw [hpc]
      rfl

theorem Stirs.not_rouses (h : Stirs s p i) : ¬(s.pc p).Rouses q := by
  cases h with
  | parent hpc | reparent hpc _ | exit hpc | reap hpc _ | doze hpc =>
      rw [hpc]
      exact id

theorem Drifts.refl (a : ProcState) : Drifts a a = true := by
  cases a <;> rfl

theorem Drifts.zombie {a b : ProcState} (h : Drifts a b = true) : b = .zombie ↔ a = .zombie := by
  cases a <;> cases b <;> simp_all [Drifts]

theorem Drifts.gone {a b : ProcState} (h : Drifts a b = true) (hb : b = .unused ∨ b = .used ∨ b = .zombie) :
    a = .unused ∨ a = .used ∨ a = .zombie := by
  cases a <;> cases b <;> simp_all [Drifts]

theorem Calm.zombie (h : Calm s t) (i : Slot) : (t.proc i).state = .zombie ↔ (s.proc i).state = .zombie :=
  Drifts.zombie (h.state i)

theorem Calm.gone (h : Calm s t) (i : Slot) (hg : Gone t i) : Gone s i := Drifts.gone (h.state i) hg

theorem NoChild.calm {S : Slot → Prop} (h : NoChild s p S) (hc : Calm s t) : NoChild t p S := by
  intro j hj
  rw [hc.parent]
  exact h j hj

theorem NoZombie.calm {S : Slot → Prop} (h : NoZombie s p S) (hc : Calm s t) : NoZombie t p S := by
  intro j hj hp hz
  rw [hc.parent] at hp
  exact h j hj hp ((hc.zombie j).mp hz)

theorem Knows.calm (h : Knows s p pc) (hc : Calm s t) : Knows t p pc := by
  unfold Knows at h ⊢
  split at h
  · exact ⟨h.1.calm hc, fun hk => (h.2 hk).calm hc⟩
  · exact ⟨(hc.parent _).trans h.1, h.2.calm hc⟩
  · exact NoZombie.calm h hc
  · exact NoZombie.calm h hc
  · exact NoZombie.calm h hc
  · exact NoZombie.calm h hc
  · exact NoZombie.calm h hc
  · exact NoZombie.calm h hc
  · exact NoChild.calm h hc
  · exact NoChild.calm h hc
  · exact NoChild.calm h hc
  · exact NoChild.calm h hc
  · exact NoChild.calm h hc
  all_goals try exact trivial
  all_goals rw [hc.parent]
  · exact ⟨h.1.calm hc, h.2.1, fun q hq hp hw => h.2.2 q hq hp (hc.waiting q hw)⟩
  · exact ⟨h.1.calm hc, h.2.1, fun q hq hp hw => h.2.2 q hq hp (hc.waiting q hw)⟩
  · exact ⟨h.1.calm hc, h.2.1, fun q hq hp hw => h.2.2 q hq hp (hc.waiting q hw)⟩
  · exact ⟨h.1.calm hc, fun q hp hw => h.2 q hp (hc.waiting q hw)⟩
  · exact ⟨h.1.calm hc, fun q hp hw => h.2 q hp (hc.waiting q hw)⟩

-- Without wait_lock a thread relies on nothing.
theorem Knows.of_not_holdsWait (h : pc.holdsWait = false) : Knows s p pc := by
  unfold Knows
  split <;> trivial

theorem Pc.Rouses.holdsWait (h : pc.Rouses q) : pc.holdsWait = true := by
  unfold Pc.Rouses at h
  split at h
  · rfl
  · rfl
  · rfl
  · exact h.elim

theorem Pc.forking_of_fresh {np : Slot} (h : pc.fresh = some np) : pc.forking = some np := by
  induction pc with
  | yieldAcquire k ih | yieldSet k ih | yieldSched k ih | yieldRelease k ih => exact ih h
  | _ => first | exact h | cases h

theorem Family.holder_unique (hf : Family s) (hp : (s.pc p).holdsWait = true)
    (hq : (s.pc q).holdsWait = true) : q = p := by
  obtain ⟨c, hc, hl⟩ := hf.holder p hp
  obtain ⟨c', hc', hl'⟩ := hf.holder q hq
  rw [hl, Option.some.injEq] at hl'
  subst hl'
  rw [hc] at hc'
  exact (CpuPc.switched.inj hc').symm

theorem shape_reparentNext {init : Slot} (h : p ≠ init) (status : Int) (i : Slot) :
    (reparentNext status i).Shape init p := by
  unfold reparentNext
  split <;> exact h

theorem shape_wakeupFrom {init : Slot} {i : Slot}
    (h : (Pc.wakeup chan i k).Shape init p) (j : Option Slot) : (wakeupFrom chan k j).Shape init p := by
  unfold wakeupFrom
  split
  · exact h
  · split
    · trivial
    · exact shape_reparentNext h.1 ..
    · exact h

theorem shape_scanNext (init p i : Slot) (havekids : Bool) : (scanNext i havekids).Shape init p := by
  unfold scanNext
  split
  · trivial
  · split <;> trivial

theorem code_shape (hshape : (s.pc p).Shape s.initproc p) (h : s.code p ch = some i) :
    i.next.Shape s.initproc p := by
  unfold Sys.code at h
  split at h
  all_goals rename_i hpc
  all_goals try rw [hpc] at hshape
  all_goals try split at h
  all_goals try split at h
  all_goals cases h
  all_goals try exact hshape
  all_goals try (simp [Instr.next, Pc.Shape]; done)
  · assumption
  · exact shape_wakeupFrom hshape _
  · exact shape_wakeupFrom (i := first) hshape _
  · exact ⟨hshape, rfl⟩
  · exact shape_reparentNext hshape ..
  · exact shape_scanNext ..
  · exact shape_scanNext ..

theorem knows_reparentNext {status : Int} {i : Slot} (h : NoChild s p (· ≤ i)) :
    Knows s p (reparentNext status i) := by
  unfold reparentNext
  split
  · rename_i j hj
    exact fun k hk => h k ((lt_next hj k).mp hk)
  · rename_i hnone
    exact fun k _ => h k (le_of_next_none hnone k)

theorem knows_scanNext {i : Slot} {havekids : Bool} (hz : NoZombie s p (· ≤ i))
    (hk : havekids = false → NoChild s p (· ≤ i)) : Knows s p (scanNext i havekids) := by
  unfold scanNext
  split
  · rename_i j hj
    exact ⟨fun k hkj => hz k ((lt_next hj k).mp hkj), fun hno k hkj => hk hno k ((lt_next hj k).mp hkj)⟩
  · rename_i hnone
    split
    · exact fun k _ => hz k (le_of_next_none hnone k)
    · trivial

theorem knows_wakeupFrom {i : Slot} (h : Knows s p (.wakeupRelease chan i k)) :
    Knows s p (wakeupFrom chan k (next i)) := by
  unfold wakeupFrom
  split
  · rename_i j hj
    cases k with
    | kernel => trivial
    | exitReparent status r => exact h
    | exitAcquire status => exact ⟨h.1, h.2.1, fun q hq => h.2.2 q ((lt_next hj q).mp hq)⟩
  · rename_i hnone
    cases k with
    | kernel => trivial
    | exitReparent status r => exact knows_reparentNext h
    | exitAcquire status => exact ⟨h.1, fun q => h.2.2 q (le_of_next_none hnone q)⟩

-- The thread that holds the lock of another process does not meet it on its way to sleep.
theorem Family.not_sleepSet (hf : Family s) (hi : Inv s) (hc : s.cpuPc c = .switched p)
    (hheld : (s.pc p).held p = some q) (hne : q ≠ p) {w : Bool} : s.pc q ≠ .sleepSet chan w := by
  intro hq
  obtain ⟨c', hc'⟩ := hf.parked q (by rw [hq]; rfl)
  have hlock : (s.proc q).lock = some c' := hi.lock_of_held hc' (by rw [hq]; rfl)
  rw [hi.lock_of_held hc hheld, Option.some.injEq] at hlock
  rw [← hlock, hc] at hc'
  exact hne (CpuPc.switched.inj hc').symm

-- A thread on a CPU is not waiting, unless it is about to.
theorem Inv.not_waiting (hi : Inv s) (hc : s.cpuPc c = .switched p) (hrun : (s.pc p).state = .running)
    (hpc : s.pc p ≠ .sleepSet (.proc p) true) : ¬Waiting s p := by
  rintro (h | ⟨h, -⟩)
  · exact hpc h
  · rw [hi.state c p hc, hrun] at h
    cases h

-- A wakeup that has tested slot j leaves nobody there waiting for it.
theorem knows_wakeupRelease (hf : Family s) (hi : Inv s) (hc : s.cpuPc c = .switched p) {j : Slot}
    (hpc : s.pc p = .wakeupTest chan j k) (hawake : ¬((s.proc j).state = .sleeping ∧ (s.proc j).chan = chan)) :
    Knows s p (.wakeupRelease chan j k) := by
  have hknows := hf.knows p
  rw [hpc] at hknows
  cases k with
  | kernel => trivial
  | exitReparent status r => exact hknows
  | exitAcquire status =>
      obtain ⟨hno, hchan, hroused⟩ := hknows
      refine ⟨hno, hchan, fun q hq hparent => ?_⟩
      rcases lt_or_eq_slot hq with hlt | rfl
      · exact hroused q hlt hparent
      · rintro (hset | ⟨hsl, hch⟩)
        · exact hf.not_sleepSet hi hc (by rw [hpc]; rfl) (hf.self _ _ hparent).symm hset
        · exact hawake ⟨hsl, by rw [hch, hchan, hparent]; rfl⟩

-- What a thread learns from an action that stores nothing in the table.
theorem code_knows (hf : Family s) (hi : Inv s) (hc : s.cpuPc c = .switched p)
    (h : s.code p ch = some i) (hstore : ∀ q f pc, i ≠ .update q f pc) : Knows s p i.next := by
  have hknows := hf.knows p
  unfold Sys.code at h
  split at h
  all_goals rename_i hpc
  all_goals try rw [hpc] at hknows
  all_goals try split at h
  all_goals try split at h
  all_goals cases h
  all_goals try exact absurd rfl (hstore _ _ _)
  all_goals try exact hknows
  all_goals try exact Knows.of_not_holdsWait rfl
  · -- yieldRelease
    have hwf := hi.wf p
    rw [hpc] at hwf
    exact Knows.of_not_holdsWait (holdsWait_of_interruptible hwf.1)
  · -- sleepAcquire
    rename_i w
    cases w with
    | false => trivial
    | true => exact hknows
  · -- wakeup, at its own slot
    rename_i chan j k hself
    subst hself
    refine knows_wakeupFrom ?_
    cases k with
    | kernel => trivial
    | exitReparent status r => exact hknows
    | exitAcquire status =>
        refine ⟨hknows.1, hknows.2.1, fun q hq hparent => ?_⟩
        exact hknows.2.2 q ((lt_or_eq_slot hq).resolve_right (hf.self _ _ hparent).symm) hparent
  · -- wakeup
    rename_i k _
    cases k with
    | kernel => trivial
    | exitReparent status r => exact hknows
    | exitAcquire status => exact hknows
  · -- wakeupTest
    rename_i hawake
    exact knows_wakeupRelease hf hi hc hpc hawake
  · exact knows_wakeupFrom hknows
  · exact fun j hj => absurd hj (not_lt_first j)
  · -- exitReparent
    rename_i status j hnot
    refine knows_reparentNext fun k hk => ?_
    rcases lt_or_eq_slot hk with hlt | rfl
    · exact hknows k hlt
    · exact hnot
  · exact ⟨hknows, rfl, fun q hq => absurd hq (not_lt_first q)⟩
  · exact ⟨fun j hj => absurd hj (not_lt_first j), fun _ j hj => absurd hj (not_lt_first j)⟩
  · -- waitScan, a child
    rename_i hchild
    exact ⟨hchild, hknows.1⟩
  · -- waitScan, not a child
    rename_i j havekids hnot
    refine knows_scanNext (fun k hk hp => ?_) fun hno k hk => ?_
    · exact hknows.1 k ((lt_or_eq_slot hk).resolve_right (by rintro rfl; exact hnot hp)) hp
    · rcases lt_or_eq_slot hk with hlt | rfl
      · exact hknows.2 hno k hlt
      · exact hnot
  · trivial
  · -- waitTest
    rename_i hz
    intro k hk hp
    rcases lt_or_eq_slot hk with hlt | rfl
    · exact hknows.2 k hlt hp
    · exact hz
  · exact knows_scanNext hknows fun h => by cases h
  · trivial

-- An action that is no store leaves the table alone; allocproc takes a slot.
theorem exec_move (h : s.exec c p i = some t) (hfits : Fits s p i) (hstore : ∀ q f pc, i ≠ .update q f pc) (r : Slot) :
    (t.proc r).parent = (s.proc r).parent ∧ (t.proc r).chan = (s.proc r).chan ∧
    ((t.proc r).state = (s.proc r).state ∨ (s.proc r).state = .unused ∧ (t.proc r).state = .used) := by
  have htable := exec_table h r
  cases i with
  | update q f pc => exact absurd rfl (hstore q f pc)
  | allocproc q pc =>
      simp only [Instr.table] at htable
      split at htable
      · rename_i hr
        subst hr
        simp only [Proc.unlocked, Proc.mk.injEq, true_and] at htable
        obtain ⟨hs, hch, -, -, -, hp⟩ := htable
        exact ⟨hp, hch, .inr ⟨hfits.2.2.2.1, hs⟩⟩
      · obtain ⟨hs, hch, -, -, -, hp⟩ := Proc.unlocked_inj.mp htable
        exact ⟨hp, hch, .inl hs⟩
  | _ =>
      obtain ⟨hs, hch, -, -, -, hp⟩ := Proc.unlocked_inj.mp htable
      exact ⟨hp, hch, .inl hs⟩

theorem exec_update {q : Slot} (h : s.exec c p (.update q f pc) = some t) :
    (t.proc q).unlocked = (f (s.proc q)).unlocked ∧ ∀ r, r ≠ q → (t.proc r).unlocked = (s.proc r).unlocked := by
  refine ⟨(exec_table h q).trans (if_pos rfl), fun r hr => (exec_table h r).trans (if_neg hr)⟩

theorem Pc.Plain.ne_sleepSet (h : pc.Plain p) (chan : Chan) (w : Bool) : pc ≠ .sleepSet chan w := by
  rintro rfl
  cases h.1

theorem Pc.Plain.ne_fresh (h : pc.Plain p) (np : Slot) : pc.fresh ≠ some np := by
  intro hf
  have hforking := h.2.2.2
  rw [Pc.forking_of_fresh hf] at hforking
  cases hforking

theorem code_sleepSet (hwf : (s.pc p).Wf p) (h : s.code p ch = some i)
    (hnext : i.next = .sleepSet chan true) : s.pc p = .sleepUnlock chan true := by
  unfold Sys.code at h
  split at h
  all_goals rename_i hpc
  all_goals try rw [hpc] at hwf
  all_goals try split at h
  all_goals try split at h
  all_goals cases h
  all_goals simp only [Instr.next, reduceCtorEq, Pc.sleepSet.injEq, and_true] at hnext
  · -- yieldRelease
    subst hnext
    cases hwf.1
  · rw [hpc, hnext]
  all_goals exfalso
  · cases hnext.2
  · exact (wakeupFrom_plain p ..).ne_sleepSet _ _ hnext
  · exact (wakeupFrom_plain p ..).ne_sleepSet _ _ hnext
  · exact (reparentNext_plain p ..).ne_sleepSet _ _ hnext
  · exact (scanNext_plain p ..).ne_sleepSet _ _ hnext
  · exact (scanNext_plain p ..).ne_sleepSet _ _ hnext

theorem code_fresh {np : Slot} (h : s.code p ch = some i) (hnext : i.next.fresh = some np) :
    (s.pc p).fresh = some np ∨ ∃ pc, i = .allocproc np pc := by
  unfold Sys.code at h
  split at h
  all_goals rename_i hpc
  all_goals try split at h
  all_goals try split at h
  all_goals cases h
  all_goals rw [hpc]
  all_goals simp only [Instr.next] at hnext
  all_goals try exact .inl hnext
  · exact absurd hnext ((wakeupFrom_plain p ..).ne_fresh np)
  · exact absurd hnext ((wakeupFrom_plain p ..).ne_fresh np)
  · cases hnext
    exact .inr ⟨_, rfl⟩
  · cases hnext
  · cases hnext
  · cases hnext
  · exact absurd hnext ((reparentNext_plain p ..).ne_fresh np)
  · exact absurd hnext ((scanNext_plain p ..).ne_fresh np)
  · exact absurd hnext ((scanNext_plain p ..).ne_fresh np)

theorem waiting_of_store {q r : Slot} (h : s.exec c p (.update q f pc) = some t)
    (hset : ∀ chan w, pc ≠ .sleepSet chan w)
    (hsleep : (f (s.proc q)).state = .sleeping → (f (s.proc q)).chan = .proc q → Waiting s q)
    (hw : Waiting t r) : Waiting s r := by
  obtain ⟨-, hpc, hother⟩ := exec_frame h
  obtain ⟨hq, hframe⟩ := exec_update h
  obtain ⟨hsq, hcq, -⟩ := Proc.unlocked_inj.mp hq
  rcases hw with hset' | ⟨hs, hch⟩
  · by_cases hrp : r = p
    · rw [hrp, hpc] at hset'
      exact absurd hset' (hset _ _)
    · rcases hother r hrp with he | ⟨_, he, _⟩
      · exact .inl (he ▸ hset')
      · cases he
  · by_cases hr : r = q
    · subst hr
      exact hsleep (hsq ▸ hs) (hcq ▸ hch)
    · obtain ⟨hsr, hcr, -⟩ := Proc.unlocked_inj.mp (hframe r hr)
      exact .inr ⟨hsr ▸ hs, hcr ▸ hch⟩

theorem calm_of_store {q : Slot} (h : s.exec c p (.update q f pc) = some t) (hset : ∀ chan w, pc ≠ .sleepSet chan w)
    (hparent : (f (s.proc q)).parent = (s.proc q).parent) (hstate : Drifts (s.proc q).state (f (s.proc q)).state = true)
    (hsleep : (f (s.proc q)).state = .sleeping → (f (s.proc q)).chan = .proc q → Waiting s q) : Calm s t := by
  obtain ⟨hq, hframe⟩ := exec_update h
  obtain ⟨hsq, -, -, -, -, hpq⟩ := Proc.unlocked_inj.mp hq
  refine ⟨(exec_frame h).1, fun r => ?_, fun r => ?_, fun r => waiting_of_store h hset hsleep⟩
  · by_cases hr : r = q
    · rw [hr, hpq, hparent]
    · exact (Proc.unlocked_inj.mp (hframe r hr)).2.2.2.2.2
  · by_cases hr : r = q
    · rw [hr, hsq]
      exact hstate
    · rw [(Proc.unlocked_inj.mp (hframe r hr)).1]
      exact Drifts.refl _

theorem calm_or_stirs (hi : Inv s) (hf : Family s) (hc : s.cpuPc c = .switched p)
    (h : s.code p ch = some i) (hexec : s.exec c p i = some t) : Calm s t ∨ Stirs s p i := by
  have hfits := code_fits hi hc h
  obtain ⟨hinit, hpc, hother⟩ := exec_frame hexec
  by_cases hstore : ∃ q f pc, i = .update q f pc
  · obtain ⟨q, f, pc, rfl⟩ := hstore
    have hstate := hi.state c p hc
    cases code_writes h with
    | yield hpc' =>
        rw [hpc'] at hstate
        exact .inl (calm_of_store hexec (by simp) rfl (by rw [hstate]; rfl) (by simp))
    | sleep hpc' =>
        rename_i chan w
        rw [hpc'] at hstate
        refine .inl (calm_of_store hexec (by simp) rfl (by rw [hstate]; rfl) fun _ hch => .inl ?_)
        have hshape := hf.shape p
        rw [hpc'] at hshape ⊢
        simp only at hch
        subst hch
        cases w with
        | true => rfl
        | false => exact absurd rfl (hshape p)
    | tidy hpc' =>
        exact .inl (calm_of_store hexec (by simp) rfl (Drifts.refl _) (by simp))
    | wake hpc' hsl hch =>
        exact .inl (calm_of_store hexec (by simp) rfl (by rw [hsl]; rfl) (by simp))
    | kill hpc' hpid =>
        refine .inl (calm_of_store hexec (by simp) rfl ?_ ?_)
        · simp only
          split
          · rename_i hsl
            rw [hsl]
            rfl
          · exact Drifts.refl _
        · simp only
          split
          · simp
          · exact fun hsl => absurd hsl ‹_›
    | unfork hpc' =>
        have hforking : (s.pc p).forking = some q := by
          rcases hpc' with h | h <;> rw [h] <;> rfl
        have hnone : (s.proc q).parent = none := hf.fresh p q (by rcases hpc' with h | h <;> rw [h] <;> rfl)
        exact .inl (calm_of_store hexec (by simp) hnone.symm (by rw [(hi.used p q hforking).1]; rfl)
          (by simp [Proc.freeproc]))
    | start hpc' =>
        have hforking : (s.pc p).forking = some q := by rw [hpc']; rfl
        exact .inl (calm_of_store hexec (by simp) rfl (by rw [(hi.used p q hforking).1]; rfl) (by simp))
    | parent hpc' => exact .inr (.parent hpc')
    | reparent hpc' hp => exact .inr (.reparent hpc' hp)
    | exit hpc' => exact .inr (.exit hpc')
    | reap hpc' hz => exact .inr (.reap hpc' hz)
  · have hmove := exec_move hexec hfits fun q f pc he => hstore ⟨q, f, pc, he⟩
    by_cases hset : i.next = .sleepSet (.proc p) true
    · have hunlock := code_sleepSet (hi.wf p) h hset
      simp only [Sys.code, hunlock, Option.some.injEq] at h
      exact .inr (h ▸ .doze hunlock)
    · refine .inl ⟨hinit, fun r => (hmove r).1, fun r => ?_, fun q hw => ?_⟩
      · rcases (hmove r).2.2 with hs | ⟨hs, ht⟩
        · rw [hs]
          exact Drifts.refl _
        · rw [hs, ht]
          rfl
      · rcases hw with hq | ⟨hs, hch⟩
        · by_cases hqp : q = p
          · subst hqp
            exact absurd (hpc.symm.trans hq) hset
          · rcases hother q hqp with he | ⟨_, _, he⟩
            · exact .inl (he.symm.trans hq)
            · rw [he] at hq
              cases hq
        · refine .inr ⟨?_, (hmove q).2.1.symm.trans hch⟩
          rcases (hmove q).2.2 with hs' | ⟨-, ht⟩
          · exact hs'.symm.trans hs
          · rw [ht] at hs
            cases hs

theorem parent_cases (hi : Inv s) (hc : s.cpuPc c = .switched p) (h : s.code p ch = some i)
    (hexec : s.exec c p i = some t) (r : Slot) :
    (t.proc r).parent = (s.proc r).parent ∨ (t.proc r).parent = none ∨
    (s.pc p = .forkParent r ∧ (t.proc r).parent = some p) ∨
    (∃ status, s.pc p = .exitReparent status r ∧ (s.proc r).parent = some p ∧
      (t.proc r).parent = some s.initproc) := by
  by_cases hstore : ∃ q f pc, i = .update q f pc
  · obtain ⟨q, f, pc, rfl⟩ := hstore
    obtain ⟨hq, hframe⟩ := exec_update hexec
    obtain ⟨-, -, -, -, -, hparent⟩ := Proc.unlocked_inj.mp hq
    by_cases hr : r = q
    · subst hr
      cases code_writes h with
      | yield _ | sleep _ | tidy _ | wake _ _ _ | kill _ _ | start _ | exit _ => exact .inl hparent
      | unfork _ | reap _ _ => exact .inr (.inl hparent)
      | parent hpc => exact .inr (.inr (.inl ⟨hpc, hparent⟩))
      | reparent hpc hp => exact .inr (.inr (.inr ⟨_, hpc, hp, hparent⟩))
    · exact .inl (Proc.unlocked_inj.mp (hframe r hr)).2.2.2.2.2
  · exact .inl (exec_move hexec (code_fits hi hc h) (fun q f pc he => hstore ⟨q, f, pc, he⟩) r).1

theorem state_cases (hi : Inv s) (hc : s.cpuPc c = .switched p) (h : s.code p ch = some i)
    (hexec : s.exec c p i = some t) (r : Slot) :
    (Gone t r → Gone s r ∨ r = p ∧ ∃ status, s.pc p = .exitSet status) ∧
    ((t.proc r).state = .unused → (s.proc r).state = .unused ∨ (t.proc r).parent = none) := by
  by_cases hstore : ∃ q f pc, i = .update q f pc
  · obtain ⟨q, f, pc, rfl⟩ := hstore
    obtain ⟨hq, hframe⟩ := exec_update hexec
    obtain ⟨hs, -, -, -, -, hparent⟩ := Proc.unlocked_inj.mp hq
    by_cases hr : r = q
    · subst hr
      unfold Gone
      rw [hs]
      cases code_writes h with
      | yield _ | sleep _ | wake _ _ _ | start _ => simp
      | tidy _ => exact ⟨.inl, .inl⟩
      | kill _ _ =>
          simp only
          split
          · simp
          · exact ⟨.inl, .inl⟩
      | unfork hpc =>
          have hforking : (s.pc p).forking = some r := by
            rcases hpc with h | h <;> rw [h] <;> rfl
          exact ⟨fun _ => .inl (.inr (.inl (hi.used p r hforking).1)), fun _ => .inr hparent⟩
      | parent hpc => exact ⟨.inl, .inl⟩
      | reparent hpc hp => exact ⟨.inl, .inl⟩
      | exit hpc => exact ⟨fun _ => .inr ⟨rfl, _, hpc⟩, by simp⟩
      | reap hpc hz => exact ⟨fun _ => .inl (.inr (.inr hz)), fun _ => .inr hparent⟩
    · have hsame := (Proc.unlocked_inj.mp (hframe r hr)).1
      unfold Gone
      rw [hsame]
      exact ⟨.inl, .inl⟩
  · rcases (exec_move hexec (code_fits hi hc h) (fun q f pc he => hstore ⟨q, f, pc, he⟩) r).2.2 with hs | ⟨hs, ht⟩
    · unfold Gone
      rw [hs]
      exact ⟨.inl, .inl⟩
    · exact ⟨fun _ => .inl (.inl hs), fun hu => by rw [ht] at hu; cases hu⟩

theorem code_swtch (h : s.code p ch = some (.swtch pc)) : pc.parked = true := by
  unfold Sys.code at h
  split at h
  all_goals try split at h
  all_goals try split at h
  all_goals simp only [Option.some.injEq, Instr.swtch.injEq, reduceCtorEq] at h
  all_goals subst h
  all_goals rfl

theorem exec_parked (hf : Family s) (hc : s.cpuPc c = .switched p) (h : s.code p ch = some i)
    (hexec : s.exec c p i = some t) (hq : (t.pc q).parked = false) : ∃ c', t.cpuPc c' = .switched q := by
  obtain ⟨hcpu, hcpus, -⟩ := exec_cpu hexec
  rcases exec_pc hexec q with ⟨rfl, he⟩ | ⟨hqp, he⟩ | he <;> rw [he] at hq
  · refine ⟨c, ?_⟩
    rw [hcpu, hc]
    rintro pc rfl
    rw [Instr.next, code_swtch h] at hq
    cases hq
  · obtain ⟨c', hc'⟩ := hf.parked q hq
    refine ⟨c', (hcpus c' ?_).trans hc'⟩
    rintro rfl
    rw [hc] at hc'
    exact hqp (CpuPc.switched.inj hc').symm
  · cases hq

theorem exec_holder (hi : Inv s) (hf : Family s) (hc : s.cpuPc c = .switched p)
    (h : s.code p ch = some i) (hexec : s.exec c p i = some t) (hq : (t.pc q).holdsWait = true) :
    ∃ c', t.cpuPc c' = .switched q ∧ t.waitLock = some c' := by
  obtain ⟨hcpu, hcpus, hlock⟩ := exec_cpu hexec
  have hkeeps := code_keepsWait (hi.wf p) h
  rcases exec_pc hexec q with ⟨rfl, he⟩ | ⟨hqp, he⟩ | he <;> rw [he] at hq
  · -- The lock is taken now, or was held before.
    have hold : (s.pc q).holdsWait = true → t.waitLock = s.waitLock → (∀ pc, i ≠ .swtch pc) →
        ∃ c', t.cpuPc c' = .switched q ∧ t.waitLock = some c' := by
      intro hs hw hsw
      obtain ⟨c', hc', hl⟩ := hf.holder q hs
      exact ⟨c', by rw [hcpu hsw, hc'], hw.trans hl⟩
    cases i with
    | acquireWait pc => exact ⟨c, by rw [hcpu (by simp), hc], hlock.2⟩
    | releaseWait pc | swtch pc =>
        rw [hkeeps.2] at hq
        cases hq
    | _ => exact hold (hkeeps ▸ hq) hlock (by simp)
  · obtain ⟨c', hc', hl⟩ := hf.holder q hq
    have hne : c' ≠ c := by
      rintro rfl
      rw [hc] at hc'
      exact hqp (CpuPc.switched.inj hc').symm
    refine ⟨c', (hcpus c' hne).trans hc', ?_⟩
    cases i with
    | acquireWait pc =>
        rw [hlock.1] at hl
        cases hl
    | releaseWait pc => exact absurd (hf.holder_unique hkeeps.1 hq) hqp
    | _ => exact hlock.trans hl
  · cases hq

theorem rouses_wakeupFrom {status : Int} {i j : Slot} (h : i < q) :
    (wakeupFrom (.proc q) (.exitReparent status j) (next i)).Rouses q := by
  unfold wakeupFrom
  split
  · rename_i k hk
    refine ⟨rfl, Nat.le_of_not_lt fun hlt => ?_⟩
    exact absurd ((lt_next hk q).mp hlt) (Nat.not_le_of_lt h)
  · rename_i hnone
    exact absurd (le_of_next_none hnone q) (Nat.not_le_of_lt h)

theorem Pc.Rouses.cases (h : pc.Rouses q) : ∃ i status j,
    (pc = .wakeup (.proc q) i (.exitReparent status j) ∧ i ≤ q) ∨
    (pc = .wakeupTest (.proc q) i (.exitReparent status j) ∧ i ≤ q) ∨
    (pc = .wakeupRelease (.proc q) i (.exitReparent status j) ∧ i < q) := by
  unfold Pc.Rouses at h
  split at h
  · obtain ⟨rfl, hi⟩ := h
    exact ⟨_, _, _, .inl ⟨rfl, hi⟩⟩
  · obtain ⟨rfl, hi⟩ := h
    exact ⟨_, _, _, .inr (.inl ⟨rfl, hi⟩)⟩
  · obtain ⟨rfl, hi⟩ := h
    exact ⟨_, _, _, .inr (.inr ⟨rfl, hi⟩)⟩
  · exact h.elim

-- A reparent on its way to q stays on it, until it has woken q.
theorem rouses_step (hi : Inv s) (hf : Family s) (hc : s.cpuPc c = .switched p)
    (h : s.code p ch = some i) (hexec : s.exec c p i = some t) (hr : (s.pc p).Rouses q)
    (hws : Waiting s q) (hwt : Waiting t q) : (t.pc p).Rouses q := by
  obtain ⟨-, hpc, hother⟩ := exec_frame hexec
  rw [hpc]
  obtain ⟨j, status, k, ⟨hat, hj⟩ | ⟨hat, hj⟩ | ⟨hat, hj⟩⟩ := hr.cases
  · have hqp : q ≠ p := by
      rintro rfl
      exact hi.not_waiting hc (by rw [hat]; rfl) (by rw [hat]; simp) hws
    simp only [Sys.code, hat] at h
    split at h <;> cases h
    · rename_i hself
      refine rouses_wakeupFrom ((lt_or_eq_slot hj).resolve_right ?_)
      rintro rfl
      exact hqp hself
    · exact ⟨rfl, hj⟩
  · have hqp : q ≠ p := by
      rintro rfl
      exact hi.not_waiting hc (by rw [hat]; rfl) (by rw [hat]; simp) hws
    have hheld : (s.pc p).held p = some j := by rw [hat]; rfl
    simp only [Sys.code, hat] at h
    split at h <;> cases h
    · refine ⟨rfl, (lt_or_eq_slot hj).resolve_right ?_⟩
      rintro rfl
      -- q has been woken
      obtain ⟨hs, -⟩ := Proc.unlocked_inj.mp (exec_update hexec).1
      rcases hwt with hset | ⟨hsl, -⟩
      · rcases hother j hqp with he | ⟨_, he, _⟩
        · exact hf.not_sleepSet hi hc hheld hqp (he ▸ hset)
        · cases he
      · rw [hs] at hsl
        cases hsl
    · rename_i hawake
      refine ⟨rfl, (lt_or_eq_slot hj).resolve_right ?_⟩
      rintro rfl
      rcases hws with hset | hsl
      · exact hf.not_sleepSet hi hc hheld hqp hset
      · exact hawake hsl
  · simp only [Sys.code, hat, Option.some.injEq] at h
    subst h
    exact rouses_wakeupFrom hj

theorem exec_wakes (hi : Inv s) (hf : Family s) (hc : s.cpuPc c = .switched p) {r : Slot}
    (h : s.code p ch = some i) (hexec : s.exec c p i = some t) (hw : Waiting t q)
    (hparent : (t.proc r).parent = some q) (hz : (t.proc r).state = .zombie) :
    ∃ e, (t.pc e).Rouses q := by
  obtain ⟨-, hpc, hother⟩ := exec_frame hexec
  rcases calm_or_stirs hi hf hc h hexec with hcalm | hstirs
  · have hws := hcalm.waiting q hw
    obtain ⟨e, he⟩ := hf.wakes q r hws (hcalm.parent r ▸ hparent) ((hcalm.zombie r).mp hz)
    by_cases hep : e = p
    · subst hep
      exact ⟨e, rouses_step hi hf hc h hexec he hws hw⟩
    · rcases hother e hep with hsame | ⟨pc, rfl, -⟩
      · exact ⟨e, hsame ▸ he⟩
      · -- A slot that is allocated has no thread.
        obtain ⟨c', hc', -⟩ := hf.holder e he.holdsWait
        have hunused := (code_fits hi hc h).2.2.2.1
        rw [hi.state c' e hc'] at hunused
        exact absurd hunused (Pc.state_ne_used _).2
  · -- p has wait_lock, so nobody else is waking anybody.
    have hnone : ∀ q' r', Waiting s q' → (s.proc r').parent = some q' → (s.proc r').state ≠ .zombie := by
      intro q' r' hw' hp' hz'
      obtain ⟨e, he⟩ := hf.wakes q' r' hw' hp' hz'
      rw [hf.holder_unique hstirs.holdsWait he.holdsWait] at he
      exact hstirs.not_rouses he
    -- Children other than the one that is stored to are as before.
    have hframe : ∀ {j f pc}, s.exec c p (.update j f pc) = some t → r ≠ j → Waiting s q → False := by
      intro j f pc hexec hr hws
      obtain ⟨hs, -, -, -, -, hp⟩ := Proc.unlocked_inj.mp ((exec_update hexec).2 r hr)
      exact hnone q r hws (hp ▸ hparent) (hs ▸ hz)
    cases hstirs with
    | @parent np hpc' =>
        have hws : Waiting s q := waiting_of_store hexec (by simp) (fun hs hch => .inr ⟨hs, hch⟩) hw
        refine (hframe hexec ?_ hws).elim
        rintro rfl
        obtain ⟨hs, -⟩ := Proc.unlocked_inj.mp (exec_update hexec).1
        rw [hs, (hi.used p r (by rw [hpc']; rfl)).1] at hz
        cases hz
    | @reparent status j hpc' hp =>
        have hws : Waiting s q := waiting_of_store hexec (by simp) (fun hs hch => .inr ⟨hs, hch⟩) hw
        by_cases hr : r = j
        · subst hr
          obtain ⟨-, -, -, -, -, hp'⟩ := Proc.unlocked_inj.mp (exec_update hexec).1
          rw [hp', Option.some.injEq] at hparent
          exact ⟨p, by rw [hpc]; exact ⟨by rw [hparent], Nat.zero_le _⟩⟩
        · exact (hframe hexec hr hws).elim
    | exit hpc' =>
        have hws : Waiting s q := waiting_of_store hexec (by simp) (by simp) hw
        refine (hframe hexec ?_ hws).elim
        rintro rfl
        obtain ⟨-, -, -, -, -, hp'⟩ := Proc.unlocked_inj.mp (exec_update hexec).1
        have hknows := hf.knows r
        rw [hpc'] at hknows
        exact hknows.2 q (hp' ▸ hparent) hws
    | @reap j hpc' _ =>
        have hws : Waiting s q := waiting_of_store hexec (by simp) (by simp [Proc.freeproc]) hw
        refine (hframe hexec ?_ hws).elim
        rintro rfl
        obtain ⟨-, -, -, -, -, hp'⟩ := Proc.unlocked_inj.mp (exec_update hexec).1
        rw [hp'] at hparent
        cases hparent
    | @doze chan hpc' =>
        have hmove := exec_move hexec (code_fits hi hc h) (by simp)
        have hsame : ∀ j, (t.proc j).state = (s.proc j).state := by
          intro j
          obtain ⟨hs, -⟩ := Proc.unlocked_inj.mp (exec_table hexec j)
          exact hs
        rw [(hmove r).1] at hparent
        rw [hsame] at hz
        by_cases hqp : q = p
        · subst hqp
          have hknows := hf.knows q
          rw [hpc'] at hknows
          exact absurd hz (hknows r trivial hparent)
        · refine absurd hz (hnone q r ?_ hparent)
          rcases hw with hset | ⟨hs, hch⟩
          · rcases hother q hqp with he | ⟨_, he, _⟩
            · exact .inl (he ▸ hset)
            · cases he
          · exact .inr ⟨hsame q ▸ hs, (hmove q).2.1 ▸ hch⟩

theorem store_knows (hi : Inv s) (hf : Family s) (hc : s.cpuPc c = .switched p)
    (h : s.code p ch = some (.update q f pc)) (hexec : s.exec c p (.update q f pc) = some t) :
    Knows t p pc := by
  have hknows := hf.knows p
  obtain ⟨hq, hframe⟩ := exec_update hexec
  obtain ⟨hsq, -, -, -, -, hpq⟩ := Proc.unlocked_inj.mp hq
  cases code_writes h with
  | yield _ | sleep _ | tidy _ | kill _ _ | unfork _ | parent _ | start _ | exit _ | reap _ _ => trivial
  | @wake chan _ k hpc hsl hch =>
      have hcalm : Calm s t := calm_of_store hexec (by simp) rfl (by rw [hsl]; rfl) (by simp)
      rw [hpc] at hknows
      cases k with
      | kernel => trivial
      | exitReparent status j => exact NoChild.calm hknows hcalm
      | exitAcquire status =>
          obtain ⟨hno, hchan, hroused⟩ := hknows
          refine ⟨hno.calm hcalm, hchan.trans (by rw [hcalm.parent]), fun j hj hparent hw => ?_⟩
          rw [hcalm.parent] at hparent
          have hws := hcalm.waiting j hw
          rcases lt_or_eq_slot hj with hlt | rfl
          · exact hroused j hlt hparent hws
          · have hjp : j ≠ p := (hf.self _ _ hparent).symm
            rcases hw with hset | ⟨hs, -⟩
            · rcases (exec_frame hexec).2.2 j hjp with he | ⟨_, he, _⟩
              · exact hf.not_sleepSet hi hc (by rw [hpc]; rfl) hjp (he ▸ hset)
              · cases he
            · rw [hsq] at hs
              cases hs
  | @reparent status _ hpc hp =>
      have hshape := hf.shape p
      rw [hpc] at hknows hshape
      intro j hj
      rcases lt_or_eq_slot hj with hlt | rfl
      · rw [(Proc.unlocked_inj.mp (hframe j (Fin.ne_of_lt hlt))).2.2.2.2.2]
        exact hknows j hlt
      · rw [hpq]
        exact fun he => hshape (Option.some.inj he).symm

theorem exec_knows (hi : Inv s) (hf : Family s) (hc : s.cpuPc c = .switched p)
    (h : s.code p ch = some i) (hexec : s.exec c p i = some t) (q : Slot) : Knows t q (t.pc q) := by
  rcases exec_pc hexec q with ⟨rfl, he⟩ | ⟨hqp, he⟩ | he <;> rw [he]
  · by_cases hstore : ∃ r f pc, i = .update r f pc
    · obtain ⟨r, f, pc, rfl⟩ := hstore
      exact store_knows hi hf hc h hexec
    · have hmove : ∀ r f pc, i ≠ .update r f pc := fun r f pc he => hstore ⟨r, f, pc, he⟩
      rcases calm_or_stirs hi hf hc h hexec with hcalm | hstirs
      · exact (code_knows hf hi hc h hmove).calm hcalm
      · cases hstirs with
        | parent _ | reparent _ _ | exit _ | reap _ _ => exact absurd rfl (hmove _ _ _)
        | doze _ => trivial
  · rcases calm_or_stirs hi hf hc h hexec with hcalm | hstirs
    · exact (hf.knows q).calm hcalm
    · refine Knows.of_not_holdsWait ?_
      by_contra hholds
      exact hqp (hf.holder_unique hstirs.holdsWait (by simpa using hholds))
  · trivial

theorem Family.exec (hi : Inv s) (hf : Family s) (hc : s.cpuPc c = .switched p)
    (h : s.code p ch = some i) (hexec : s.exec c p i = some t) : Family t := by
  have hinit := (exec_frame hexec).1
  have hparents := parent_cases hi hc h hexec
  have hstates := state_cases hi hc h hexec
  have hused : ∀ np, s.pc p = .forkParent np → (s.proc np).state = .used := fun np hat =>
    (hi.used p np (by rw [hat]; rfl)).1
  have hgone : ¬Gone t t.initproc := by
    intro hg
    rw [hinit] at hg
    rcases (hstates _).1 hg with hgs | ⟨he, status, hat⟩
    · exact hf.root.2 hgs
    · have hshape := hf.shape p
      rw [hat] at hshape
      exact hshape he.symm
  refine ⟨fun q => exec_parked hf hc h hexec, fun q => ?_, fun q => exec_holder hi hf hc h hexec,
    exec_knows hi hf hc h hexec, fun r q hp => ?_, ⟨?_, hgone⟩, fun r hu => ?_, fun q r hq => ?_, fun r q hp hg => ?_,
    fun q r => exec_wakes hi hf hc h hexec⟩
  · -- shape
    rw [hinit]
    rcases exec_pc hexec q with ⟨rfl, he⟩ | ⟨-, he⟩ | he <;> rw [he]
    · exact code_shape (hf.shape q) h
    · exact hf.shape q
    · trivial
  · -- self
    rcases hparents r with he | he | ⟨hat, he⟩ | ⟨status, hat, hold, he⟩ <;> rw [he] at hp
    · exact hf.self r q hp
    · cases hp
    · cases hp
      rintro rfl
      have := hused r hat
      rw [hi.state c r hc] at this
      exact (Pc.state_ne_used _).1 this
    · cases hp
      rintro rfl
      rw [hf.root.1] at hold
      cases hold
  · -- root
    rw [hinit]
    rcases hparents s.initproc with he | he | ⟨hat, he⟩ | ⟨status, hat, hold, he⟩
    · exact he.trans hf.root.1
    · exact he
    · exact absurd (.inr (.inl (hused _ hat))) hf.root.2
    · rw [hf.root.1] at hold
      cases hold
  · -- unused
    rcases (hstates r).2 hu with hus | hnone
    · have hnone := hf.unused r hus
      rcases hparents r with he | he | ⟨hat, he⟩ | ⟨status, hat, hold, he⟩
      · exact he.trans hnone
      · exact he
      · rw [hused r hat] at hus
        cases hus
      · rw [hnone] at hold
        cases hold
    · exact hnone
  · -- fresh
    have hold : (s.proc r).parent = none ∧ s.pc p ≠ .forkParent r := by
      rcases exec_pc hexec q with ⟨rfl, he⟩ | ⟨hqp, he⟩ | he <;> rw [he] at hq
      · refine ⟨?_, fun hat => ?_⟩
        · rcases code_fresh h hq with hs | ⟨pc, rfl⟩
          · exact hf.fresh q r hs
          · exact hf.unused r (code_fits hi hc h).2.2.2.1
        · simp only [Sys.code, hat, Option.some.injEq] at h
          subst h
          cases hq
      · refine ⟨hf.fresh q r hq, fun hat => hqp ?_⟩
        exact hi.forkOnce q p r (Pc.forking_of_fresh hq) (by rw [hat]; rfl)
      · cases hq
    rcases hparents r with he | he | ⟨hat, he⟩ | ⟨status, hat, hp, he⟩
    · exact he.trans hold.1
    · exact he
    · exact absurd hat hold.2
    · rw [hold.1] at hp
      cases hp
  · -- alive
    rcases hparents r with he | he | ⟨hat, he⟩ | ⟨status, hat, hold, he⟩ <;> rw [he] at hp
    · rcases (hstates q).1 hg with hgs | ⟨rfl, status, hat⟩
      · exact hf.alive r q hp hgs
      · have hknows := hf.knows q
        rw [hat] at hknows
        exact hknows.1 r trivial hp
    · cases hp
    · cases hp
      rcases (hstates p).1 hg with hgs | ⟨-, status, hat'⟩
      · unfold Gone at hgs
        rw [hi.state c p hc, hat] at hgs
        simp [Pc.state] at hgs
      · rw [hat] at hat'
        cases hat'
    · cases hp
      rw [← hinit] at hg
      exact hgone hg

theorem Idles.calm (hid : Idles s t) : Calm s t := by
  refine ⟨hid.init, fun r => (hid.fields r).2.2.2.2, fun r => ?_, fun q hw => ?_⟩
  · rcases hid.state r with hs | ⟨hs, ht⟩
    · rw [hs]
      exact Drifts.refl _
    · rw [hs, ht]
      rfl
  · rcases hw with hset | ⟨hs, hch⟩
    · rcases hid.pc q with he | ⟨he, -⟩ <;> rw [he] at hset
      · exact .inl hset
      · cases hset
    · rcases hid.state q with he | ⟨-, ht⟩
      · exact .inr ⟨he ▸ hs, (hid.fields q).1.symm.trans hch⟩
      · rw [ht] at hs
        cases hs

theorem Family.idle (hf : Family s) (hid : Idles s t) : Family t := by
  have hcalm := hid.calm
  have hpc := hid.pc
  refine ⟨fun q hq => ?_, fun q => ?_, fun q hq => ?_, fun q => ?_, fun r q hp => ?_, ⟨?_, fun hg => ?_⟩,
    fun r hu => ?_, fun q r hq => ?_, fun r q hp hg => ?_, fun q r hw hp hz => ?_⟩
  · rcases hpc q with he | ⟨-, -, c, hc⟩
    · rw [he] at hq
      obtain ⟨c, hc⟩ := hf.parked q hq
      exact ⟨c, hid.cpu c q hc⟩
    · exact ⟨c, hid.cpu c q hc⟩
  · rw [hcalm.init]
    rcases hpc q with he | ⟨he, -⟩ <;> rw [he] <;> exact hf.shape q
  · rcases hpc q with he | ⟨he, -⟩ <;> rw [he] at hq
    · obtain ⟨c, hc, hl⟩ := hf.holder q hq
      exact ⟨c, hid.cpu c q hc, hid.waitLock.trans hl⟩
    · cases hq
  · rcases hpc q with he | ⟨he, -⟩ <;> rw [he]
    · exact (hf.knows q).calm hcalm
    · trivial
  · exact hf.self r q (hcalm.parent r ▸ hp)
  · rw [hcalm.parent, hcalm.init]
    exact hf.root.1
  · rw [hcalm.init] at hg
    exact hf.root.2 (hcalm.gone _ hg)
  · rw [hcalm.parent]
    rcases hid.state r with hs | ⟨-, ht⟩
    · exact hf.unused r (hs ▸ hu)
    · rw [ht] at hu
      cases hu
  · rw [hcalm.parent]
    rcases hpc q with he | ⟨he, -⟩ <;> rw [he] at hq <;> exact hf.fresh q r hq
  · exact hf.alive r q (hcalm.parent r ▸ hp) (hcalm.gone q hg)
  · obtain ⟨e, he⟩ := hf.wakes q r (hcalm.waiting q hw) (hcalm.parent r ▸ hp) ((hcalm.zombie r).mp hz)
    rcases hpc e with hsame | ⟨-, hint, -⟩
    · exact ⟨e, hsame ▸ he⟩
    · have := he.holdsWait
      rw [holdsWait_of_interruptible hint] at this
      cases this

theorem Family.step (hi : Inv s) (hf : Family s) (h : s.step c ch = some t) : Family t := by
  rcases step_cases h with ⟨hid, -⟩ | ⟨p, i, hc, hcode, hexec⟩
  · exact hf.idle hid
  · exact hf.exec hi hc hcode hexec

theorem Family.boot : Family Sys.boot where
  parked p h := by
    by_cases hp : p = first <;> simp [Sys.boot, hp, Pc.parked] at h
  shape p := by
    by_cases hp : p = first <;> simp [Sys.boot, hp, Pc.Shape]
  holder p h := by
    by_cases hp : p = first <;> simp [Sys.boot, hp, Pc.holdsWait] at h
  knows p := by
    by_cases hp : p = first <;> simp [Sys.boot, hp, Knows]
  self i p h := by
    by_cases hp : i = first <;> simp [Sys.boot, hp] at h
  root := by simp [Sys.boot, Gone]
  unused i _ := by
    by_cases hp : i = first <;> simp [Sys.boot, hp]
  fresh p i _ := by
    by_cases hp : i = first <;> simp [Sys.boot, hp]
  alive i q h := by
    by_cases hp : i = first <;> simp [Sys.boot, hp] at h
  wakes q i _ h := by
    by_cases hp : i = first <;> simp [Sys.boot, hp] at h

end

theorem reachable_family {s : Sys} (hrun : Reaches Step Sys.boot s) : Family s :=
  hrun.invariant_of Family (fun _ => reachable_inv) .boot fun _ _ hi hf ⟨_, _, h⟩ => hf.step hi h

-- A parent asleep in wait() has no zombie child, init included.
theorem no_zombie_of_sleeping {s : Sys} (hrun : Reaches Step Sys.boot s) (hfree : s.waitLock = none)
    {p i : Slot} (hsleep : (s.proc p).state = .sleeping ∧ (s.proc p).chan = .proc p)
    (hchild : (s.proc i).parent = some p) : (s.proc i).state ≠ .zombie := by
  intro hz
  have hf := reachable_family hrun
  obtain ⟨e, he⟩ := hf.wakes p i (.inr hsleep) hchild hz
  obtain ⟨c, -, hl⟩ := hf.holder e he.holdsWait
  rw [hfree] at hl
  cases hl

def forkScript : List (ℕ × Choice) :=
  List.replicate 3 (0, .ok) ++ (0, .fork) :: List.replicate 14 (0, .ok)

def waitScript : List (ℕ × Choice) := (0, .wait) :: List.replicate 75 (0, .ok)

set_option maxRecDepth 4000 in
theorem no_zombie_of_sleeping_init : ∃ s, Reaches Step Sys.boot s ∧ s.waitLock = none ∧
    ((s.proc first).state = .sleeping ∧ (s.proc first).chan = .proc first) ∧
    (s.proc second).parent = some first ∧ (s.proc second).state ≠ .zombie := by
  obtain ⟨s, hrun, hfree, hsleep, hchild⟩ := exists_of_any (r := Sys.boot.run (forkScript ++ waitScript))
    (P := fun s => s.waitLock = none ∧ ((s.proc first).state = .sleeping ∧ (s.proc first).chan = .proc first) ∧
      (s.proc second).parent = some first) (by decide +kernel)
  have hreach := reaches_of_run hrun
  exact ⟨s, hreach, hfree, hsleep, hchild, no_zombie_of_sleeping hreach hfree hsleep hchild⟩

end Xv6.Sched
