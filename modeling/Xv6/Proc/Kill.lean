import Xv6.Proc.Family

namespace Xv6

open Function (update_of_ne update_self)

def Proc.Blank (r : Proc) : Prop := r.killed = false ∧ r.chan = .null ∧ r.parent = none ∧ r.xstate = 0

theorem Proc.Blank.of_unlocked {a b : Proc} (h : b.Blank) (he : a.unlocked = b.unlocked) : a.Blank := by
  obtain ⟨-, hch, hk, hx, -, hp⟩ := Proc.unlocked_inj.mp he
  exact ⟨hk.trans h.1, hch.trans h.2.1, hp.trans h.2.2.1, hx.trans h.2.2.2⟩

theorem Proc.freeproc_blank (r : Proc) : r.freeproc.Blank := ⟨rfl, rfl, rfl, rfl⟩

namespace Sched

open Transition

def MeekStep (s t : Sys) : Prop := Step s t ∧ ∀ p, s.pc p = .kernel → t.pc p ≠ .kill 0 first

-- Every kill under way is for a pid other than that of the unused slots.
def Pc.Meek : Pc → Prop
  | .kill pid _ | .killTest pid _ | .killRelease pid _ => pid ≠ 0
  | .yieldAcquire k | .yieldSet k | .yieldSched k | .yieldRelease k => k.Meek
  | _ => True

-- The slot that allocproc has taken, while its lock is still held.
def Pc.young : Pc → Option Slot
  | .forkAlloc np | .forkCopy np => some np
  | _ => none

structure Clean (s : Sys) : Prop where
  meek : ∀ p, (s.pc p).Meek
  unused : ∀ i, (s.proc i).state = .unused → (s.proc i).Blank ∧ (s.proc i).pid = 0
  young : ∀ p np, (s.pc p).young = some np → (s.proc np).Blank

section

variable {s t : Sys} {c : ℕ} {p q : Slot} {ch : Choice}

variable {i : Instr} {pc : Pc} {np : Slot} {f : Proc → Proc}

theorem Pc.meek_of_loops (h : pc.loops = true) : pc.Meek := by
  cases pc <;> trivial

theorem code_meek (hmeek : (s.pc p).Meek) (h : s.code p ch = some i)
    (hcall : s.pc p = .kernel → i.next ≠ .kill 0 first) : i.next.Meek := by
  unfold Sys.code at h
  split at h
  all_goals rename_i hpc
  all_goals try rw [hpc] at hmeek
  all_goals try split at h
  all_goals try split at h
  all_goals cases h
  all_goals try exact hmeek
  all_goals try trivial
  · rename_i pid
    intro hzero
    exact hcall hpc (by rw [Instr.next, hzero])
  · exact Pc.meek_of_loops (loops_wakeupFrom ..)
  · exact Pc.meek_of_loops (loops_wakeupFrom ..)
  · exact Pc.meek_of_loops (loops_reparentNext ..)
  · exact Pc.meek_of_loops (loops_scanNext ..)
  · exact Pc.meek_of_loops (loops_scanNext ..)

theorem Pc.of_young (h : pc.young = some np) : pc = .forkAlloc np ∨ pc = .forkCopy np := by
  unfold Pc.young at h
  split at h
  · cases h
    exact .inl rfl
  · cases h
    exact .inr rfl
  · cases h

theorem Pc.held_of_young (h : pc.young = some np) : pc.held p = some np := by
  rcases Pc.of_young h with rfl | rfl <;> rfl

theorem code_young (hwf : (s.pc p).Wf p) (h : s.code p ch = some i) (hnext : i.next.young = some np) :
    (s.pc p).young = some np ∧ (∀ q f pc, i ≠ .update q f pc) ∨ ∃ pc, i = .allocproc np pc := by
  have hheld : i.next.held p = some np := Pc.held_of_young hnext
  unfold Sys.code at h
  split at h
  all_goals rename_i hpc
  all_goals try rw [hpc] at hwf
  all_goals try split at h
  all_goals try split at h
  all_goals cases h
  all_goals rw [hpc]
  all_goals try cases hnext
  · -- yieldRelease
    rw [Instr.next, (interruptible_plain hwf.1).1] at hheld
    cases hheld
  · rw [Instr.next, (wakeupFrom_plain p ..).1] at hheld
    cases hheld
  · rw [Instr.next, (wakeupFrom_plain p ..).1] at hheld
    cases hheld
  · exact .inr ⟨_, rfl⟩
  · exact .inl ⟨rfl, by simp⟩
  · rw [Instr.next, (reparentNext_plain p ..).1] at hheld
    cases hheld
  · rw [Instr.next, (scanNext_plain p ..).1] at hheld
    cases hheld
  · rw [Instr.next, (scanNext_plain p ..).1] at hheld
    cases hheld

theorem Inv.held_unique (hi : Inv s) {c' : ℕ} {p' : Slot} (hc : s.cpuPc c = .switched p)
    (hc' : s.cpuPc c' = .switched p') (h : (s.pc p).held p = some q) (h' : (s.pc p').held p' = some q) :
    p = p' := by
  have hlock := hi.lock_of_held hc h
  rw [hi.lock_of_held hc' h', Option.some.injEq] at hlock
  rw [hlock, hc] at hc'
  exact CpuPc.switched.inj hc'

theorem not_unused_of_writes (hi : Inv s) (hf : Family s) (hk : Clean s) (hc : s.cpuPc c = .switched p)
    (h : Writes s p q f pc) : (s.proc q).state ≠ .unused := by
  intro hu
  have hself : (s.proc p).state ≠ .unused := by
    rw [hi.state c p hc]
    exact (Pc.state_ne_used _).2
  have hforking : ∀ np, (s.pc p).forking = some np → (s.proc np).state ≠ .unused := by
    intro np hnp
    rw [(hi.used p np hnp).1]
    simp
  cases h with
  | yield _ | sleep _ | tidy _ | exit _ => exact hself hu
  | wake _ hs _ | reap _ hs =>
      rw [hs] at hu
      cases hu
  | kill hpc hpid =>
      have hmeek := hk.meek p
      rw [hpc, ← hpid] at hmeek
      exact hmeek (hk.unused q hu).2
  | unfork hpc => exact hforking q (by rcases hpc with h | h <;> rw [h] <;> rfl) hu
  | parent hpc | start hpc => exact hforking q (by rw [hpc]; rfl) hu
  | reparent _ hp =>
      rw [hf.unused q hu] at hp
      cases hp

-- Nor the slot that another fork has just taken.
theorem not_young_of_writes (hi : Inv s) (hf : Family s) (hc : s.cpuPc c = .switched p)
    (h : Writes s p q f pc) {p' : Slot} (hne : p' ≠ p) :
    (s.pc p').young ≠ some q := by
  intro hy
  have hfresh : (s.pc p').fresh = some q := by
    rcases Pc.of_young hy with he | he <;> rw [he] <;> rfl
  have hforking := Pc.forking_of_fresh hfresh
  have hused := (hi.used p' q hforking).1
  have hself : (s.proc p).state ≠ .used := by
    rw [hi.state c p hc]
    exact (Pc.state_ne_used _).1
  cases h with
  | yield _ | sleep _ | tidy _ | exit _ => exact hself hused
  | wake _ hs _ | reap _ hs =>
      rw [hs] at hused
      cases hused
  | kill hpc hpid =>
      obtain ⟨c', hc'⟩ := hf.parked p' (by rcases Pc.of_young hy with he | he <;> rw [he] <;> rfl)
      exact hne (hi.held_unique hc' hc (Pc.held_of_young hy) (by rw [hpc]; rfl))
  | unfork hpc => exact hne (hi.forkOnce p' p q hforking (by rcases hpc with h | h <;> rw [h] <;> rfl))
  | parent hpc | start hpc => exact hne (hi.forkOnce p' p q hforking (by rw [hpc]; rfl))
  | reparent _ hp =>
      rw [hf.fresh p' q hfresh] at hp
      cases hp

theorem freeproc_of_unused (h : Writes s p q f pc)
    (hs : (s.proc q).state ≠ .unused) (hu : (f (s.proc q)).state = .unused) : f = Proc.freeproc := by
  cases h with
  | unfork _ | reap _ _ => rfl
  | yield _ | sleep _ | wake _ _ _ | start _ | exit _ => cases hu
  | tidy _ | parent _ | reparent _ _ => exact absurd hu hs
  | kill _ _ =>
      simp only at hu
      split at hu
      · cases hu
      · exact absurd hu hs

theorem exec_unused (hi : Inv s) (hf : Family s) (hk : Clean s) (hc : s.cpuPc c = .switched p)
    (h : s.code p ch = some i) (hexec : s.exec c p i = some t) {r : Slot}
    (hu : (t.proc r).state = .unused) : (t.proc r).Blank ∧ (t.proc r).pid = 0 := by
  rcases exec_slot hexec r with he | ⟨f, pc, rfl, he⟩ | ⟨pc, rfl, he⟩
  · obtain ⟨hs, -, -, -, hpid, -⟩ := Proc.unlocked_inj.mp he
    obtain ⟨hb, hz⟩ := hk.unused r (hs ▸ hu)
    exact ⟨hb.of_unlocked he, hpid.trans hz⟩
  · have hw := code_writes h
    obtain ⟨hs, -, -, -, hpid, -⟩ := Proc.unlocked_inj.mp he
    have hfree := freeproc_of_unused hw (not_unused_of_writes hi hf hk hc hw) (hs ▸ hu)
    subst hfree
    exact ⟨(Proc.freeproc_blank _).of_unlocked he, hpid⟩
  · simp only [Proc.unlocked, Proc.mk.injEq, true_and] at he
    rw [he.1] at hu
    cases hu

theorem exec_young (hi : Inv s) (hf : Family s) (hk : Clean s) (hc : s.cpuPc c = .switched p) (h : s.code p ch = some i)
    (hexec : s.exec c p i = some t) (hy : (t.pc q).young = some np) : (t.proc np).Blank := by
  -- Before the step the slot was blank already, and the step is no store to it.
  have hold : (s.proc np).Blank ∧ ∀ f pc, i ≠ .update np f pc := by
    rcases exec_pc hexec q with ⟨rfl, he⟩ | ⟨hqp, he⟩ | he <;> rw [he] at hy
    · rcases code_young (hi.wf q) h hy with ⟨hs, hstore⟩ | ⟨pc, rfl⟩
      · exact ⟨hk.young q np hs, hstore np⟩
      · exact ⟨(hk.unused np (code_fits hi hc h).2.2.2.1).1, by simp⟩
    · refine ⟨hk.young q np hy, ?_⟩
      rintro f pc rfl
      exact not_young_of_writes hi hf hc (code_writes h) hqp hy
    · cases hy
  rcases exec_slot hexec np with he | ⟨f, pc, he, -⟩ | ⟨pc, -, he⟩
  · exact hold.1.of_unlocked he
  · exact absurd he (hold.2 f pc)
  · simp only [Proc.unlocked, Proc.mk.injEq, true_and] at he
    obtain ⟨-, hch, hkill, hx, -, hp⟩ := he
    exact ⟨hkill.trans hold.1.1, hch.trans hold.1.2.1, hp.trans hold.1.2.2.1, hx.trans hold.1.2.2.2⟩

theorem Clean.step (hi : Inv s) (hf : Family s) (hk : Clean s) (h : MeekStep s t) : Clean t := by
  obtain ⟨⟨c, ch, h⟩, hcall⟩ := h
  have hmeek : ∀ q, (t.pc q).Meek := by
    intro q
    rcases step_pc h q with he | ⟨he, -⟩ | he | ⟨i, hcode, he⟩
    · exact he ▸ hk.meek q
    · exact he ▸ hk.meek q
    · exact he ▸ trivial
    · exact he ▸ code_meek (hk.meek q) hcode fun hker => he ▸ hcall q hker
  rcases step_cases h with ⟨hid, -⟩ | ⟨p, i, hc, hcode, hexec⟩
  · have hblank : ∀ r, (s.proc r).Blank → (t.proc r).Blank := by
      intro r hb
      obtain ⟨hch, hkill, hx, -, hp⟩ := hid.fields r
      exact ⟨hkill.trans hb.1, hch.trans hb.2.1, hp.trans hb.2.2.1, hx.trans hb.2.2.2⟩
    refine ⟨hmeek, fun r hu => ?_, fun q np hy => hblank np (hk.young q np ?_)⟩
    · rcases hid.state r with hs | ⟨-, ht⟩
      · obtain ⟨hb, hz⟩ := hk.unused r (hs ▸ hu)
        exact ⟨hblank r hb, (hid.fields r).2.2.2.1.trans hz⟩
      · rw [ht] at hu
        cases hu
    · rcases hid.pc q with he | ⟨he, -⟩ <;> rw [he] at hy
      · exact hy
      · cases hy
  · exact ⟨hmeek, fun r => exec_unused hi hf hk hc hcode hexec, fun q np => exec_young hi hf hk hc hcode hexec⟩

theorem Clean.boot : Clean Sys.boot where
  meek p := by
    by_cases hp : p = first <;> simp [Sys.boot, hp, Pc.Meek]
  unused i h := by
    by_cases hp : i = first <;> simp [Sys.boot, hp, Proc.Blank] at h ⊢
  young p np h := by
    by_cases hp : p = first <;> simp [Sys.boot, hp, Pc.young] at h

end

theorem reachable_clean {s : Sys} (hrun : Reaches MeekStep Sys.boot s) : Clean s := by
  have hbase : ∀ t, Reaches MeekStep Sys.boot t → Inv t ∧ Family t := fun t ht =>
    have ht' := ht.mono fun _ _ h => h.1
    ⟨reachable_inv ht', reachable_family ht'⟩
  exact hrun.invariant_of Clean hbase .boot fun _ _ hi hk h => hk.step hi.1 hi.2 h

def Pc.Passed (pid : Int) (i : Slot) : Pc → Prop
  | .kill pid' j | .killTest pid' j => pid' = pid ∧ i < j
  | .killRelease pid' j => pid' = pid ∧ i ≤ j
  | .yieldAcquire k | .yieldSet k | .yieldSched k | .yieldRelease k => k.Passed pid i
  | _ => False

section

variable {s t : Sys} {c : ℕ} {p i : Slot} {ch : Choice} {pid : Int}

theorem Pc.not_passed_of_loops {pc : Pc} (h : pc.loops = true) : ¬pc.Passed pid i := by
  cases pc <;> first | exact id | cases h

-- As long as process i has the pid, no kill for it gets past its slot.
theorem code_passed {a : Instr} (h : s.code p ch = some a) (hpid : (s.proc i).pid = pid)
    (hs : ¬(s.pc p).Passed pid i) : ¬a.next.Passed pid i := by
  unfold Sys.code at h
  split at h
  all_goals rename_i hpc
  all_goals try rw [hpc] at hs
  all_goals try split at h
  all_goals try split at h
  all_goals cases h
  all_goals try exact id
  all_goals try exact hs
  · exact fun hp => not_lt_first i hp.2
  · exact Pc.not_passed_of_loops (loops_wakeupFrom ..)
  · exact Pc.not_passed_of_loops (loops_wakeupFrom ..)
  · -- killTest: the slot has another pid
    rename_i hne
    rintro ⟨rfl, hle⟩
    rcases lt_or_eq_slot hle with hlt | rfl
    · exact hs ⟨rfl, hlt⟩
    · exact hne hpid
  · -- killRelease
    rename_i j hj
    rintro ⟨rfl, hlt⟩
    exact hs ⟨rfl, (lt_next hj i).mp hlt⟩
  · exact Pc.not_passed_of_loops (loops_reparentNext ..)
  · exact Pc.not_passed_of_loops (loops_scanNext ..)
  · exact Pc.not_passed_of_loops (loops_scanNext ..)

theorem not_passed_step (hpid : (s.proc i).pid = pid) (hs : ¬(s.pc p).Passed pid i) (h : Step s t) :
    ¬(t.pc p).Passed pid i := by
  obtain ⟨c, ch, h⟩ := h
  rcases step_pc h p with he | ⟨he, -⟩ | he | ⟨a, hcode, he⟩ <;> rw [he]
  · exact hs
  · exact hs
  · exact id
  · exact code_passed hcode hpid hs

-- A kill(pid) that starts while process i has that pid, and runs while it keeps it, does not
-- come to the end of the table.
theorem kill_finds {u : Sys} (hcall : s.pc p = .kill pid first)
    (hrun : Reaches (fun a b => Step a b ∧ (a.proc i).pid = pid) s u) (j : Slot) (hlast : next j = none) :
    u.pc p ≠ .killRelease pid j := by
  have hnot : ¬(u.pc p).Passed pid i := by
    refine hrun.invariant (fun t => ¬(t.pc p).Passed pid i) ?_ fun a b ha hab => not_passed_step hab.2 ha hab.1
    rw [hcall]
    exact fun hp => not_lt_first i hp.2
  intro hat
  rw [hat] at hnot
  exact hnot ⟨rfl, le_of_next_none hlast i⟩

theorem kill_test (hk : Clean s) (hc : s.cpuPc c = .switched p) (hpc : s.pc p = .killTest pid i)
    (h : s.step c ch = some t) :
    if (s.proc i).pid = pid then
      (s.proc i).state ≠ .unused ∧ t.pc p = .killDone i ∧ ∀ r, r ≠ i → t.proc r = s.proc r
    else t.pc p = .killRelease pid i ∧ t.proc = s.proc := by
  rcases step_cases h with ⟨-, hint⟩ | ⟨q, a, hc', hcode, hexec⟩
  · have hint := hint p hc
    rw [hpc] at hint
    cases hint
  · rw [hc] at hc'
    cases hc'
    obtain ⟨-, hnext, -⟩ := exec_frame hexec
    simp only [Sys.code, hpc] at hcode
    split at hcode <;> cases hcode
    · rename_i hpid
      rw [if_pos hpid]
      refine ⟨fun hu => ?_, hnext, fun r hr => ?_⟩
      · have hmeek := hk.meek p
        rw [hpc, ← hpid] at hmeek
        exact hmeek (hk.unused i hu).2
      · cases hexec
        exact update_of_ne hr ..
    · rename_i hpid
      rw [if_neg hpid]
      refine ⟨hnext, ?_⟩
      cases hexec
      rfl

theorem meek_of_step (h : s.step c ch = some t) (hch : ch ≠ .kill 0) : MeekStep s t := by
  refine ⟨⟨c, ch, h⟩, fun p hker hkill => ?_⟩
  rcases step_pc h p with he | ⟨he, -⟩ | he | ⟨a, hcode, he⟩ <;> rw [he] at hkill
  · rw [hker] at hkill
    cases hkill
  · cases hkill
  · cases hkill
  · simp only [Sys.code, hker] at hcode
    split at hcode
    all_goals try split at hcode
    all_goals cases hcode
    all_goals simp only [Instr.next, reduceCtorEq, Pc.kill.injEq, and_true] at hkill
    subst hkill
    exact hch rfl

theorem meek_of_run {l : List (ℕ × Choice)} (hl : ∀ x ∈ l, x.2 ≠ .kill 0) (h : s.run l = some t) :
    Reaches MeekStep s t :=
  reaches_of_replay (fun x hx _ _ hstep => meek_of_step hstep (hl x hx)) h

end

-- killDone is where kill returns 0; it returns -1 after killRelease of the last slot.
theorem unused_clean_of_meek {s : Sys} (hrun : Reaches MeekStep Sys.boot s) :
    (∀ i, (s.proc i).state = .unused → (s.proc i).killed = false ∧ (s.proc i).chan = .null ∧
      (s.proc i).parent = none ∧ (s.proc i).xstate = 0) ∧
    (∀ p np, s.pc p = .forkCopy np → (s.proc np).killed = false) ∧
    (∀ c p ch pid i t, s.cpuPc c = .switched p → s.pc p = .killTest pid i → s.step c ch = some t →
      if (s.proc i).pid = pid then
        (s.proc i).state ≠ .unused ∧ t.pc p = .killDone i ∧ ∀ r, r ≠ i → t.proc r = s.proc r
      else t.pc p = .killRelease pid i ∧ t.proc = s.proc) ∧
    (∀ p pid i u, s.pc p = .kill pid first →
      Reaches (fun a b => Step a b ∧ (a.proc i).pid = pid) s u →
      ∀ j, next j = none → u.pc p ≠ .killRelease pid j) := by
  have hk := reachable_clean hrun
  refine ⟨fun i hu => (hk.unused i hu).1, fun p np hpc => ?_, fun c p ch pid i t => kill_test hk,
    fun p pid i u => kill_finds⟩
  exact (hk.young p np (by rw [hpc]; rfl)).1

def killScript : List (ℕ × Choice) := forkScript ++ (0, .kill 2) :: List.replicate 4 (0, .ok)

set_option maxRecDepth 4000 in
theorem unused_clean_of_meek_child : ∃ s t, Reaches MeekStep Sys.boot s ∧ s.step 0 .ok = some t ∧
    (s.proc second).state ≠ .unused ∧ t.pc first = .killDone second ∧
    ∀ r, r ≠ second → t.proc r = s.proc r := by
  obtain ⟨s, hrun, hc, hpc, hpid, hstep⟩ := exists_of_any (r := Sys.boot.run killScript)
    (P := fun s => s.cpuPc 0 = .switched first ∧ s.pc first = .killTest 2 second ∧
      (s.proc second).pid = 2 ∧ (s.step 0 .ok).isSome) (by decide +kernel)
  obtain ⟨t, ht⟩ := Option.isSome_iff_exists.mp hstep
  have hmeek : Reaches MeekStep Sys.boot s := by
    refine meek_of_run (fun x hx => ?_) hrun
    simp only [killScript, forkScript, List.mem_append, List.mem_cons, List.mem_replicate] at hx
    rcases hx with (⟨-, rfl⟩ | rfl | ⟨-, rfl⟩) | rfl | ⟨-, rfl⟩ <;> simp
  have htest := (unused_clean_of_meek hmeek).2.2.1 0 first .ok 2 second t hc hpc ht
  rw [if_pos hpid] at htest
  exact ⟨s, t, hmeek, ht, htest⟩

def killZeroScript : List (ℕ × Choice) := List.replicate 3 (0, .ok) ++ (0, .kill 0) :: List.replicate 5 (0, .ok)

def nextForkScript : List (ℕ × Choice) := (0, .fork) :: List.replicate 6 (0, .ok)

-- kill(0) finds an unused slot, and the next process there is killed before it runs.
set_option maxRecDepth 4000 in
theorem kill_zero_dirties : ∃ r s t, Reaches Step Sys.boot r ∧ r.pc first = .killDone second ∧
    Reaches Step r s ∧ s.pc first = .kernel ∧ (∀ i, (s.proc i).pid = 0 → (s.proc i).state = .unused) ∧
    (s.proc second).state = .unused ∧ (s.proc second).killed = true ∧
    Reaches Step s t ∧ t.pc first = .forkCopy second ∧ (t.proc second).killed = true := by
  obtain ⟨r, hr, hdone, hs⟩ := exists_of_any (r := Sys.boot.run killZeroScript)
    (P := fun r => r.pc first = .killDone second ∧ (r.run [(0, .ok)]).any fun s => decide
      ((s.pc first = .kernel ∧ (∀ i, (s.proc i).pid = 0 → (s.proc i).state = .unused) ∧
        (s.proc second).state = .unused ∧ (s.proc second).killed = true) ∧
      (s.run nextForkScript).any fun t => decide (t.pc first = .forkCopy second ∧ (t.proc second).killed = true)))
    (by decide +kernel)
  obtain ⟨s, hs, ⟨hker, hpids, hunused, hkilled⟩, ht⟩ := exists_of_any hs
  obtain ⟨t, ht, hfork, hkilled'⟩ := exists_of_any ht
  exact ⟨r, s, t, reaches_of_run hr, hdone, reaches_of_run hs, hker, hpids, hunused, hkilled,
    reaches_of_run ht, hfork, hkilled'⟩

end Sched

end Xv6
