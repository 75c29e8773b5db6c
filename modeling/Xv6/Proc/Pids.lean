import Xv6.Proc.Reap

namespace Xv6.Sched

open Transition

variable {s : Sys}

theorem wrapInt_succ (n : Int) : wrapInt (wrapInt n + 1) = wrapInt (n + 1) := by
  unfold wrapInt
  omega

theorem wrapInt_of_small {k : ℕ} (hk : k < 2 ^ 31) : wrapInt k = k := by
  unfold wrapInt
  omega

-- The k-th process gets k as its pid, as an int.
structure Pids (s : Sys) (h : Hist) : Prop where
  next : s.nextpid = wrapInt (h.births + 1)
  pid : ∀ k, 1 ≤ k → k ≤ h.births → h.pid k = wrapInt k
  born : ∀ i, (s.proc i).state ≠ .unused → 1 ≤ h.id i

section

variable {s t : Sys} {h : Hist} {c : ℕ} {p q : Slot} {ch : Choice}

theorem exec_nextpid {i : Instr} (hexec : s.exec c p i = some t) (halloc : ∀ q pc, i ≠ .allocproc q pc) :
    t.nextpid = s.nextpid := by
  cases i with
  | goto pc | release q pc | releaseWait pc | update q f pc | swtch pc =>
      cases hexec
      rfl
  | acquire q pc | acquireWait pc =>
      simp only [Sys.exec] at hexec
      split at hexec
      · cases hexec
        rfl
      · cases hexec
  | allocproc q pc => exact absurd rfl (halloc q pc)

theorem note_births {i : Instr} (halloc : ∀ q pc, i ≠ .allocproc q pc) :
    (h.note s p i).births = h.births ∧ (h.note s p i).id = h.id ∧ (h.note s p i).pid = h.pid := by
  unfold Hist.note
  split
  · exact absurd rfl (halloc _ _)
  · exact ⟨rfl, rfl, rfl⟩
  · exact ⟨rfl, rfl, rfl⟩
  · exact ⟨rfl, rfl, rfl⟩

theorem Pids.exec (hp : Pids s h) (hi : Inv s) (hc : s.cpuPc c = .switched p) {i : Instr}
    (hcode : s.code p ch = some i) (hexec : s.exec c p i = some t) : Pids t (h.note s p i) := by
  by_cases halloc : ∃ q pc, i = .allocproc q pc
  · obtain ⟨q, pc, rfl⟩ := halloc
    refine ⟨?_, fun k hk hle => ?_, fun r hr => ?_⟩
    · simp only [Sys.exec, Option.some.injEq] at hexec
      rw [← hexec]
      change wrapInt (s.nextpid + 1) = wrapInt ((h.births + 1 : ℕ) + 1)
      rw [hp.next, wrapInt_succ]
      rfl
    · change Function.update h.pid (h.births + 1) s.nextpid k = wrapInt k
      change k ≤ h.births + 1 at hle
      by_cases hnew : k = h.births + 1
      · rw [hnew, Function.update_self, hp.next]
        rfl
      · rw [Function.update_of_ne hnew]
        exact hp.pid k hk (by omega)
    · change 1 ≤ Function.update h.id q (h.births + 1) r
      by_cases hrq : r = q
      · rw [hrq, Function.update_self]
        omega
      · rw [Function.update_of_ne hrq]
        have hsame := Proc.unlocked_inj.mp ((exec_table hexec r).trans (if_neg hrq))
        exact hp.born r (hsame.1 ▸ hr)
  · have halloc' : ∀ q pc, i ≠ .allocproc q pc := fun q pc he => halloc ⟨q, pc, he⟩
    obtain ⟨hbirths, hid, hpid⟩ := note_births (s := s) (h := h) (p := p) halloc'
    refine ⟨?_, ?_, fun r hr => ?_⟩
    · rw [exec_nextpid hexec halloc', hbirths]
      exact hp.next
    · rw [hbirths, hpid]
      exact hp.pid
    · rw [hid]
      exact hp.born r ((exec_fields hi hc hcode hexec halloc' r).1 hr).1

theorem Pids.step (hp : Pids s h) (hi : Inv s) (hstep : s.step c ch = some t) : Pids t (h.record s c ch) := by
  rcases record_cases h hstep with ⟨hid, -, hrec⟩ | ⟨p, a, hc, hcode, hexec, hrec⟩ <;> rw [hrec]
  · refine ⟨hid.nextpid.trans hp.next, hp.pid, fun r hr => hp.born r ?_⟩
    rcases hid.state r with hs | ⟨hs, -⟩
    · exact hs ▸ hr
    · rw [hs]
      decide
  · exact hp.exec hi hc hcode hexec

theorem Pids.boot : Pids Sys.boot Hist.boot where
  next := by decide
  pid k hk hle := by
    obtain rfl : k = 1 := Nat.le_antisymm hle hk
    decide
  born i hi := by
    by_cases hi' : i = first <;> simp_all [Sys.boot, Hist.boot]

end

theorem reachable_pids {x : Sys × Hist} (hrun : Reaches HistStep (Sys.boot, Hist.boot) x) : Pids x.1 x.2 := by
  refine hrun.invariant_of (fun x => Pids x.1 x.2) (fun x hx => reachable_inv (reachable_ledger hx).1) .boot ?_
  rintro ⟨s, h⟩ ⟨t, h'⟩ hi hp ⟨c, ch, hstep, hrec⟩
  simp only at hstep hrec hi hp ⊢
  subst hrec
  exact hp.step hi hstep

-- A live process still has the number of its creation as pid.
theorem live_pid {h : Hist} (hl : Ledger s h) (hp : Pids s h) (hfew : h.births < 2 ^ 31) {i : Slot}
    (hi : (s.proc i).state ≠ .unused) : (s.proc i).pid = h.id i := by
  have hborn := hp.born i hi
  have hbound := hl.bound i
  rw [← hl.pid i hi, hp.pid _ hborn hbound, wrapInt_of_small (by omega)]

-- Until nextpid wraps around, the processes have different pids, all positive.
theorem pids_distinct {h : Hist} (hrun : Reaches HistStep (Sys.boot, Hist.boot) (s, h)) (hfew : h.births < 2 ^ 31) :
    (∀ i, (s.proc i).state ≠ .unused → 0 < (s.proc i).pid) ∧
    (∀ i j, (s.proc i).state ≠ .unused → (s.proc j).state ≠ .unused → (s.proc i).pid = (s.proc j).pid → i = j) ∧
    ∀ p np, s.pc p = .forkRelease np → 0 < (s.proc np).pid := by
  obtain ⟨hreach, hl⟩ := reachable_ledger hrun
  have hp : Pids s h := reachable_pids hrun
  have hpos : ∀ i, (s.proc i).state ≠ .unused → 0 < (s.proc i).pid := by
    intro i hi
    have hborn := hp.born i hi
    rw [live_pid hl hp hfew hi]
    exact Int.natCast_pos.mpr hborn
  refine ⟨hpos, fun i j hi hj hij => hl.inj i j hi hj ?_, fun p np hpc => hpos np ?_⟩
  · rw [live_pid hl hp hfew hi, live_pid hl hp hfew hj] at hij
    exact Int.ofNat_inj.mp hij
  · have hused := ((reachable_inv hreach).used p np (by rw [hpc]; rfl)).1
    rw [hused]
    decide

theorem pids_distinct_fork : ∃ s h, Reaches HistStep (Sys.boot, Hist.boot) (s, h) ∧ h.births = 2 ∧
    s.pc first = .forkRelease second ∧ 0 < (s.proc second).pid := by
  have hrun : (Sys.runHist (Sys.boot, Hist.boot) (forkScript.take 11)).any (fun x =>
      decide (x.2.births = 2 ∧ x.1.pc first = .forkRelease second)) := by decide +kernel
  obtain ⟨⟨s, h⟩, hx, hat⟩ := (Option.any_eq_true _ _).mp hrun
  obtain ⟨hbirths, hpc⟩ := of_decide_eq_true hat
  have hreach := reaches_of_runHist hx
  have hfew : h.births < 2 ^ 31 := by
    rw [hbirths]
    decide
  exact ⟨s, h, hreach, hbirths, hpc, (pids_distinct hreach hfew).2.2 _ _ hpc⟩

-- init runs on CPU 0 outside the kernel's locks, and the slot after it is free.
structure Idle (n : Int) (s : Sys) : Prop where
  cpu : s.cpuPc 0 = .switched first
  pc : s.pc first = .kernel
  running : (s.proc first).lock = none ∧ (s.proc first).state = .running
  free : (s.proc second).lock = none ∧ (s.proc second).state = .unused
  next : s.nextpid = n

-- allocproc finds the slot after init but no page for the trapframe.
def failScript : List (ℕ × Choice) := (0, .fork) :: List.replicate 5 (0, .ok) ++ [(0, .fail), (0, .ok)]

theorem second_ne_first : second ≠ first := by decide

theorem next_first : Sched.next first = some second := by decide

theorem run_nil (s : Sys) : s.run [] = some s := rfl

-- The rest of a script stays as it is until its first step has been made.
theorem run_cons (s : Sys) (e : ℕ × Choice) (script : List (ℕ × Choice)) :
    s.run (e :: script) = match s.step e.1 e.2 with
      | some t => t.run script
      | none => none := by
  change (s.step e.1 e.2).bind _ = _
  cases s.step e.1 e.2 <;> rfl

theorem Idle.fork_fails {n : Int} (h : Idle n s) :
    ∃ t, s.run failScript = some t ∧ Idle (wrapInt (n + 1)) t := by
  obtain ⟨hcpu, hpc, ⟨hlock, hrunning⟩, ⟨hfree, hunused⟩, hnext⟩ := h
  simp [failScript, run_cons, run_nil, Sys.step, Sys.code, Sys.exec, Sys.goto, Sys.setLock, Sys.setProc, hcpu, hpc,
    hlock, hrunning, hfree, hunused, hnext, second_ne_first, next_first]
  constructor
  all_goals simp [hcpu, second_ne_first.symm, Proc.freeproc]

theorem Idle.fork {n : Int} (h : Idle n s) : ∃ t, s.run (forkScript.drop 3 |>.take 8) = some t ∧
    t.pc first = .forkRelease second ∧ (t.proc second).state = .used ∧ (t.proc second).pid = n := by
  obtain ⟨hcpu, hpc, ⟨hlock, hrunning⟩, ⟨hfree, hunused⟩, hnext⟩ := h
  simp [forkScript, run_cons, run_nil, Sys.step, Sys.code, Sys.exec, Sys.goto, Sys.setLock, Sys.setProc, hcpu, hpc,
    hlock, hrunning, hfree, hunused, hnext, second_ne_first, next_first]

theorem Idle.forks_fail (h : Idle 2 s) (k : ℕ) : ∃ t, Reaches Step s t ∧ Idle (wrapInt (k + 2)) t := by
  induction k with
  | zero => exact ⟨s, .refl, h⟩
  | succ k ih =>
      obtain ⟨t, hrun, ht⟩ := ih
      obtain ⟨u, hfail, hu⟩ := ht.fork_fails
      rw [wrapInt_succ] at hu
      refine ⟨u, hrun.trans (reaches_of_run hfail), ?_⟩
      rw [show ((k + 1 : ℕ) + 2 : Int) = k + 2 + 1 by omega]
      exact hu

theorem idle_boot : ∃ s, Reaches Step Sys.boot s ∧ Idle 2 s := by
  obtain ⟨s, hrun, hcpu, hpc, hrunning, hfree, hnext⟩ := exists_of_any (r := Sys.boot.run (forkScript.take 3))
    (P := fun s => s.cpuPc 0 = .switched first ∧ s.pc first = .kernel ∧
      ((s.proc first).lock = none ∧ (s.proc first).state = .running) ∧
      ((s.proc second).lock = none ∧ (s.proc second).state = .unused) ∧ s.nextpid = 2) (by decide +kernel)
  exact ⟨s, reaches_of_run hrun, hcpu, hpc, hrunning, hfree, hnext⟩

theorem reaches_hist {t : Sys} (h : Hist) (hrun : Reaches Step s t) : ∃ h', Reaches HistStep (s, h) (t, h') := by
  induction hrun with
  | refl => exact ⟨h, .refl⟩
  | tail _ hstep ih =>
      obtain ⟨h', hrun⟩ := ih
      obtain ⟨c, ch, hstep⟩ := hstep
      exact ⟨_, hrun.tail ⟨c, ch, hstep, rfl⟩⟩

-- After 2^31 - 2 failed forks the next child has the least int as its pid.
theorem pids_wrap : ∃ s h, Reaches HistStep (Sys.boot, Hist.boot) (s, h) ∧ (s.proc second).state ≠ .unused ∧
    s.pc first = .forkRelease second ∧ (s.proc second).pid = -2 ^ 31 := by
  obtain ⟨s, hboot, hidle⟩ := idle_boot
  obtain ⟨t, hfails, ht⟩ := hidle.forks_fail (2 ^ 31 - 2)
  obtain ⟨u, hfork, hpc, hused, hpid⟩ := ht.fork
  obtain ⟨h, hrun⟩ := reaches_hist Hist.boot ((hboot.trans hfails).trans (reaches_of_run hfork))
  refine ⟨u, h, hrun, ?_, hpc, ?_⟩
  · rw [hused]
    decide
  · rw [hpid]
    decide

end Xv6.Sched
