import Mathlib.Tactic.SplitIfs
import Xv6.Proc.Invariant

namespace Xv6.Sched

open Transition
open Function (update update_of_ne update_self)

namespace Inv

variable {s t : Sys} {c : ℕ} {p : Slot}

-- sched(): the CPU goes back to its scheduler, which now owns p->lock.
theorem swtch (hi : Inv s) (hc : s.cpuPc c = .switched p) {pc : Pc} (h : Fits s p (.swtch pc)) :
    Inv ({ s with cpuPc := Function.update s.cpuPc c (.back p) }.goto p pc) := by
  obtain ⟨hheld, hstate, hwf, hfork, hres⟩ := h
  let t := { s with cpuPc := Function.update s.cpuPc c (.back p) }.goto p pc
  have hpc : t.pc p = pc := Function.update_self ..
  have hpcr : ∀ q, q ≠ p → t.pc q = s.pc q := fun q hq => Function.update_of_ne hq ..
  have hcpu : t.cpuPc c = .back p := Function.update_self ..
  have hcpur : ∀ c', c' ≠ c → t.cpuPc c' = s.cpuPc c' := fun c' hc' => Function.update_of_ne hc' ..
  have hforking : ∀ q, (t.pc q).forking = (s.pc q).forking := by
    intro q
    by_cases hq : q = p
    · rw [hq, hpc, hfork]
    · rw [hpcr q hq]
  have hother : ∀ c' q, c' ≠ c → s.cpuPc c' = .switched q → q ≠ p := by
    rintro c' q hne hq rfl
    exact hne (hi.switched_once hq hc)
  have hholds : ∀ c', t.holds c' = s.holds c' := by
    intro c'
    by_cases hcc : c' = c
    · rw [hcc, Sys.holds, Sys.holds, hcpu, hc]
      exact hheld.symm
    · rw [Sys.holds, Sys.holds, hcpur c' hcc]
      split <;> try rfl
      rename_i q hq
      rw [hpcr q (hother c' q hcc hq)]
  change Inv t
  constructor
  · intro q c'
    rw [hholds]
    exact hi.lock q c'
  · intro c' q
    by_cases hcc : c' = c
    · rw [hcc, hcpu]
      change s.cpuProc c = some q ↔ _
      rw [hi.cpuProc c q, hc]
      simp
    · rw [hcpur c' hcc]
      exact hi.cpuProc c' q
  · exact hi.once
  · intro c' q hq
    have hcc : c' ≠ c := by
      rintro rfl
      rw [hcpu] at hq
      cases hq
    rw [hcpur c' hcc] at hq
    rw [hpcr q (hother c' q hcc hq)]
    exact hi.state c' q hq
  · intro q hq
    by_cases hqp : q = p
    · subst hqp
      rw [hpc]
      change (s.proc q).state ≠ _ ∧ ((s.proc q).state = _ ∨ (s.proc q).state = _ → _)
      rw [hi.state c q hc]
      exact ⟨hstate, hres⟩
    · rw [hpcr q hqp]
      refine hi.off q fun c' hc' => ?_
      by_cases hcc : c' = c
      · rw [hcc, hc] at hc'
        exact hqp (CpuPc.switched.inj hc').symm
      · exact hq c' ((hcpur c' hcc).trans hc')
  · intro q
    by_cases hqp : q = p
    · rw [hqp, hpc]
      exact hwf
    · rw [hpcr q hqp]
      exact hi.wf q
  · intro q np hq
    rw [hforking] at hq
    obtain ⟨hu, hret⟩ := hi.used q np hq
    refine ⟨hu, ?_⟩
    rw [hpcr np, hret]
    rintro rfl
    exact (s.pc np).state_ne_used.1 ((hi.state c np hc) ▸ hu)
  · intro q q' np hq hq'
    rw [hforking] at hq hq'
    exact hi.forkOnce q q' np hq hq'

-- A step of a scheduler thread other than the switch to a process.
theorem sched (hi : Inv s) (hc : ∀ q, s.cpuPc c ≠ .switched q) {pc : CpuPc}
    (hpc : (∀ q, pc ≠ .switched q) ∧ ∀ q, pc ≠ .back q) {u : Sys} (hthread : u.pc = s.pc)
    (hstate : ∀ q, (u.proc q).state = (s.proc q).state)
    (hlock : ∀ q c', (u.proc q).lock = some c' ↔
      if c' = c then Sys.holds { u with cpuPc := Function.update s.cpuPc c pc } c = some q
      else s.holds c' = some q)
    (hproc : u.cpuProc = Function.update s.cpuProc c none) :
    Inv { u with cpuPc := Function.update s.cpuPc c pc } := by
  let t := { u with cpuPc := Function.update s.cpuPc c pc }
  have htc : t.cpuPc c = pc := Function.update_self ..
  have htr : ∀ c', c' ≠ c → t.cpuPc c' = s.cpuPc c' := fun c' hc' => Function.update_of_ne hc' ..
  have hswitched : ∀ c' q, t.cpuPc c' = .switched q ↔ s.cpuPc c' = .switched q := by
    intro c' q
    by_cases hcc : c' = c
    · rw [hcc, htc]
      exact ⟨fun h => absurd h (hpc.1 q), fun h => absurd h (hc q)⟩
    · rw [htr c' hcc]
  have hsome : ∀ c' q, t.cpuProc c' = some q ↔ c' ≠ c ∧ s.cpuProc c' = some q := by
    intro c' q
    change u.cpuProc c' = some q ↔ _
    rw [hproc]
    by_cases hcc : c' = c
    · simp [hcc]
    · simp [hcc]
  change Inv t
  constructor
  · intro q c'
    rw [show (t.proc q).lock = (u.proc q).lock from rfl, hlock q c']
    by_cases hcc : c' = c
    · rw [hcc, if_pos rfl]
    · rw [if_neg hcc, Sys.holds, Sys.holds, htr c' hcc, show t.pc = s.pc from hthread]
  · intro c' q
    rw [hsome]
    by_cases hcc : c' = c
    · subst hcc
      simp [htc, hpc.1 q, hpc.2 q]
    · rw [htr c' hcc, hi.cpuProc c' q]
      simp [hcc]
  · intro c' c'' q h h'
    exact hi.once c' c'' q ((hsome c' q).mp h).2 ((hsome c'' q).mp h').2
  · intro c' q hq
    rw [show (t.proc q).state = (s.proc q).state from hstate q, show t.pc = s.pc from hthread]
    exact hi.state c' q ((hswitched c' q).mp hq)
  · intro q hq
    rw [show (t.proc q).state = (s.proc q).state from hstate q, show t.pc = s.pc from hthread]
    exact hi.off q fun c' hc' => hq c' ((hswitched c' q).mpr hc')
  · intro q
    rw [show t.pc = s.pc from hthread]
    exact hi.wf q
  · intro q np hq
    rw [show t.pc = s.pc from hthread] at hq ⊢
    rw [show (t.proc np).state = (s.proc np).state from hstate np]
    exact hi.used q np hq
  · intro q q' np hq hq'
    rw [show t.pc = s.pc from hthread] at hq hq'
    exact hi.forkOnce q q' np hq hq'

-- The scheduler holds the lock of a RUNNABLE process, which therefore runs nowhere.
theorem test_off (hi : Inv s) {i : Slot} (hc : s.cpuPc c = .test i) (hr : (s.proc i).state = .runnable) (c' : ℕ) :
    s.cpuPc c' ≠ .switched i ∧ s.cpuPc c' ≠ .back i := by
  have hlock : ∀ c', s.holds c' = some i → c' = c := by
    intro c' h
    have hl := (hi.lock i c').mpr h
    rw [(hi.lock i c).mpr (by rw [Sys.holds, hc])] at hl
    exact (Option.some.inj hl).symm
  constructor
  · intro h
    have hheld : (s.pc i).held i = some i :=
      Pc.held_of_state (by rw [← hi.state c' i h, hr]; simp)
    have he := hlock c' (by rw [Sys.holds, h]; exact hheld)
    rw [he, hc] at h
    cases h
  · intro h
    have he := hlock c' (by rw [Sys.holds, h])
    rw [he, hc] at h
    cases h

theorem dispatch (hi : Inv s) {i : Slot} (hc : s.cpuPc c = .test i) (hr : (s.proc i).state = .runnable) :
    Inv { s.setProc i (fun q => { q with state := .running }) with
      cpuPc := Function.update s.cpuPc c (.switched i)
      cpuProc := Function.update s.cpuProc c (some i) } := by
  have hoff := hi.test_off hc hr
  obtain ⟨hheld, hrun⟩ := (hi.off i fun c' => (hoff c').1).2 (Or.inl hr)
  let t : Sys := { s.setProc i (fun q => { q with state := .running }) with
    cpuPc := Function.update s.cpuPc c (.switched i)
    cpuProc := Function.update s.cpuProc c (some i) }
  have hproc : t.proc = (s.setProc i (fun q => { q with state := .running })).proc := rfl
  have htc : t.cpuPc c = .switched i := Function.update_self ..
  have htr : ∀ c', c' ≠ c → t.cpuPc c' = s.cpuPc c' := fun c' hc' => Function.update_of_ne hc' ..
  have hpc : t.cpuProc c = some i := Function.update_self ..
  have hpr : ∀ c', c' ≠ c → t.cpuProc c' = s.cpuProc c' := fun c' hc' => Function.update_of_ne hc' ..
  have hnone : ∀ c', s.cpuProc c' ≠ some i := by
    intro c' h
    rcases (hi.cpuProc c' i).mp h with h | h
    · exact (hoff c').1 h
    · exact (hoff c').2 h
  have hst : ∀ q, q ≠ i → (t.proc q).state = (s.proc q).state := by
    intro q hq
    rw [hproc, setProc_state, if_neg hq]
  have hsti : (t.proc i).state = .running := by rw [hproc, setProc_state, if_pos rfl]
  change Inv t
  constructor
  · intro q c'
    rw [hproc, setProc_lock, hi.lock q c']
    by_cases hcc : c' = c
    · rw [hcc, Sys.holds, Sys.holds, hc, htc]
      change some i = some q ↔ (s.pc i).held i = some q
      rw [hheld]
    · rw [Sys.holds, Sys.holds, htr c' hcc]
      rfl
  · intro c' q
    by_cases hcc : c' = c
    · rw [hcc, hpc, htc]
      simp
    · rw [hpr c' hcc, htr c' hcc]
      exact hi.cpuProc c' q
  · intro c' c'' q h h'
    by_cases hcc : c' = c
    · by_cases hcc' : c'' = c
      · rw [hcc, hcc']
      · rw [hcc, hpc, Option.some.injEq] at h
        rw [hpr c'' hcc', ← h] at h'
        exact absurd h' (hnone c'')
    · by_cases hcc' : c'' = c
      · rw [hcc', hpc, Option.some.injEq] at h'
        rw [hpr c' hcc, ← h'] at h
        exact absurd h (hnone c')
      · rw [hpr c' hcc] at h
        rw [hpr c'' hcc'] at h'
        exact hi.once c' c'' q h h'
  · intro c' q hq
    by_cases hcc : c' = c
    · rw [hcc, htc] at hq
      cases hq
      rw [hsti]
      exact hrun.symm
    · rw [htr c' hcc] at hq
      have hne : q ≠ i := by
        rintro rfl
        exact (hoff c').1 hq
      rw [hst q hne]
      exact hi.state c' q hq
  · intro q hq
    have hne : q ≠ i := by
      rintro rfl
      exact hq c htc
    rw [hst q hne]
    refine hi.off q fun c' hc' => ?_
    have hcc : c' ≠ c := by
      rintro rfl
      rw [hc] at hc'
      cases hc'
    exact hq c' ((htr c' hcc).trans hc')
  · exact hi.wf
  · intro q np hq
    obtain ⟨hu, hret⟩ := hi.used q np hq
    refine ⟨?_, hret⟩
    rw [hst np, hu]
    rintro rfl
    rw [hr] at hu
    cases hu
  · exact hi.forkOnce

theorem schedule (hi : Inv s) (hs : s.schedule c = some t) : Inv t := by
  unfold Sys.schedule at hs
  have hidle : (∀ q, s.cpuPc c ≠ .switched q) → (∀ q, s.cpuPc c ≠ .back q) →
      s.cpuProc = Function.update s.cpuProc c none := by
    intro h h'
    rw [eq_comm, Function.update_eq_self_iff, eq_comm]
    by_contra hne
    obtain ⟨q, hq⟩ := Option.ne_none_iff_exists'.mp hne
    rcases (hi.cpuProc c q).mp hq with hq | hq
    · exact h q hq
    · exact h' q hq
  split at hs
  · rename_i i hc
    split at hs
    · rename_i hfree
      cases hs
      refine hi.sched (by simp [hc]) (by simp) rfl (fun q => setLock_state s i q _)
        (fun q c' => ?_) (hidle (by simp [hc]) (by simp [hc]))
      rw [setLock_lock]
      by_cases hq : q = i
      · subst hq
        by_cases hcc : c' = c
        · simp [hcc, Sys.holds]
        · simp [hcc, Ne.symm hcc, ← hi.lock, hfree]
      · by_cases hcc : c' = c
        · simp [hcc, hq, hi.lock, Sys.holds, hc, Ne.symm hq]
        · simp [hcc, hq, hi.lock]
    · cases hs
  · rename_i i hc
    split at hs
    · rename_i hr
      cases hs
      exact hi.dispatch hc hr
    · cases hs
      refine hi.sched (u := s) (by simp [hc]) (by simp) rfl (fun q => rfl)
        (fun q c' => ?_) (hidle (by simp [hc]) (by simp [hc]))
      by_cases hcc : c' = c
      · simp [hcc, hi.lock, Sys.holds, hc]
      · simp [hcc, hi.lock]
  · cases hs
  · rename_i i hc
    cases hs
    refine hi.sched (u := { s with cpuProc := Function.update s.cpuProc c none }) (by simp [hc])
      (by simp) rfl (fun q => rfl) (fun q c' => ?_) rfl
    by_cases hcc : c' = c
    · simp [hcc, hi.lock, Sys.holds, hc]
    · simp [hcc, hi.lock]
  · rename_i i hc
    cases hs
    refine hi.sched (by simp [hc]) (by simp) rfl (fun q => setLock_state s i q _)
      (fun q c' => ?_) (hidle (by simp [hc]) (by simp [hc]))
    have hi_lock : (s.proc i).lock = some c := by rw [hi.lock, Sys.holds, hc]
    rw [setLock_lock]
    by_cases hq : q = i
    · subst hq
      by_cases hcc : c' = c
      · simp [hcc, Sys.holds]
      · simp [hcc, ← hi.lock, hi_lock, Ne.symm hcc]
    · by_cases hcc : c' = c
      · simp [hcc, hq, hi.lock, Sys.holds, hc, Ne.symm hq]
      · simp [hcc, hq, hi.lock]

end Inv

-- Where the loops over the table go next: no lock held, no fork under way.
def Pc.Plain (p : Slot) (pc : Pc) : Prop :=
  pc.held p = none ∧ pc.state = .running ∧ pc.Wf p ∧ pc.forking = none

theorem reparentNext_plain (p : Slot) (status : Int) (i : Slot) : (reparentNext status i).Plain p := by
  unfold reparentNext
  split <;> exact ⟨rfl, rfl, trivial, rfl⟩

theorem wakeupFrom_plain (p : Slot) (chan : Chan) (k : Ret) (i : Option Slot) :
    (wakeupFrom chan k i).Plain p := by
  unfold wakeupFrom
  split
  · exact ⟨rfl, rfl, trivial, rfl⟩
  · split
    · exact ⟨rfl, rfl, trivial, rfl⟩
    · exact reparentNext_plain p _ _
    · exact ⟨rfl, rfl, trivial, rfl⟩

theorem scanNext_plain (p i : Slot) (havekids : Bool) : (scanNext i havekids).Plain p := by
  unfold scanNext
  split
  · exact ⟨rfl, rfl, trivial, rfl⟩
  · split <;> exact ⟨rfl, rfl, trivial, rfl⟩

theorem interruptible_plain {p : Slot} {pc : Pc} (h : pc.interruptible p = true) :
    pc.held p = none ∧ pc.state = .running := by
  simp only [Pc.interruptible, Bool.and_eq_true, Option.isNone_iff_eq_none] at h
  refine ⟨h.1.1, ?_⟩
  by_contra hs
  rw [Pc.held_of_state hs] at h
  cases h.1.1

section Code

variable {s : Sys} {c : ℕ} {p : Slot}

variable {pc : Pc} {ch : Choice}

theorem Pc.Plain.goto_fits (h : pc.Plain p) (hat : (s.pc p).Plain p) : Fits s p (.goto pc) :=
  ⟨h.1.trans hat.1.symm, h.2.1.trans hat.2.1.symm, h.2.2.1, .inl h.2.2.2⟩

theorem Pc.Plain.release_fits (h : pc.Plain p) {q : Slot} (hheld : (s.pc p).held p = some q)
    (hrun : (s.pc p).state = .running) : Fits s p (.release q pc) :=
  ⟨hheld, h.1, h.2.1.trans hrun.symm, h.2.2.1, .inl h.2.2.2⟩

-- Waking a process that this thread has locked.
theorem Inv.wake_fits (hi : Inv s) (hc : s.cpuPc c = .switched p) {i : Slot} {f : Proc → Proc}
    (hheld : (s.pc p).held p = some i) (hpc : pc.held p = some i ∧ pc.Wf p ∧ pc.forking = none)
    (hrun : pc.state = .running ∧ (s.pc p).state = .running)
    (hf : (f (s.proc i)).state = if (s.proc i).state = .sleeping then .runnable else (s.proc i).state) :
    Fits s p (.update i f pc) := by
  have hp : (s.proc p).state = .running := (hi.state c p hc).trans hrun.2
  refine ⟨hpc.1.trans hheld.symm, hpc.2.1, .inl hpc.2.2, ?_, fun hne => ?_, fun hu => .inl ?_⟩
  · by_cases hip : i = p
    · subst hip
      simp [hf, hp, hrun.1]
    · simp [hip, hrun.1, hrun.2]
  · by_cases hsl : (s.proc i).state = .sleeping
    · have hoff := hi.not_switched hc hne hheld (by simp [hsl])
      exact .inr ⟨hoff, by simp [hf, hsl], fun _ => (hi.off i hoff).2 (.inr hsl)⟩
    · simp [hf, hsl]
  · simp [hf, hu]

-- freeproc of a process that this thread has locked and that runs nowhere.
theorem Inv.free_fits (hi : Inv s) (hc : s.cpuPc c = .switched p) {i : Slot} (hheld : (s.pc p).held p = some i)
    (hpc : pc.held p = some i ∧ pc.Wf p ∧ pc.forking = none) (hrun : pc.state = .running ∧ (s.pc p).state = .running)
    (hstate : (s.proc i).state = .zombie ∨ (s.pc p).forking = some i) :
    Fits s p (.update i Proc.freeproc pc) := by
  have hp : (s.proc p).state = .running := (hi.state c p hc).trans hrun.2
  have hnot : (s.proc i).state = .zombie ∨ (s.proc i).state = .used :=
    hstate.imp id fun hf => (hi.used p i hf).1
  have hip : i ≠ p := by
    rintro rfl
    rcases hnot with h | h <;> simp [hp] at h
  refine ⟨hpc.1.trans hheld.symm, hpc.2.1, .inl hpc.2.2, by simp [hip, hrun.1, hrun.2],
    fun _ => .inr ⟨?_, by simp [Proc.freeproc], by simp [Proc.freeproc]⟩, fun hu => .inr ?_⟩
  · exact hi.not_switched hc hip hheld (by rcases hnot with h | h <;> simp [h])
  · refine ⟨hstate.resolve_left ?_, hpc.2.2⟩
    simp [hu]

-- The child starts in forkret, with its lock held by the scheduler.
theorem Inv.forkRunnable_fits (hi : Inv s) (hc : s.cpuPc c = .switched p) {np : Slot}
    (hpc : s.pc p = .forkRunnable np) :
    Fits s p (.update np (fun q => { q with state := .runnable }) (.forkDone np)) := by
  have hstate := hi.state c p hc
  obtain ⟨hu, hret⟩ := hi.used p np (by rw [hpc]; rfl)
  have hne : np ≠ p := by
    rintro rfl
    rw [hstate, hpc] at hu
    cases hu
  have hoff := hi.not_switched hc hne (by rw [hpc]; rfl) (by simp [hu])
  simp [Fits, hpc, Pc.held, Pc.state, Pc.Wf, Pc.forking, hne, hoff, hret, Pc.Resumable]

-- yield() of a thread that holds no lock.
theorem Inv.yield_fits (hi : Inv s) (hc : s.cpuPc c = .switched p) {k : Pc} {i : Instr} (h : s.code p ch = some i)
    (hpc : s.pc p = .yieldAcquire k ∨ s.pc p = .yieldSet k ∨ s.pc p = .yieldSched k ∨ s.pc p = .yieldRelease k) :
    Fits s p i := by
  have hwf := hi.wf p
  have hstate := hi.state c p hc
  rcases hpc with hpc | hpc | hpc | hpc <;> rw [hpc] at hwf hstate <;> obtain ⟨hint, hk⟩ := hwf <;>
    simp only [Sys.code, hpc, Option.some.injEq] at h <;> subst h
  case inr.inr.inr =>
    obtain ⟨hheld, hrun⟩ := interruptible_plain hint
    rw [Fits, hpc]
    exact ⟨rfl, hheld, hrun, hk, .inr rfl⟩
  all_goals simp [Fits, hpc, Pc.held, Pc.state, Pc.Wf, Pc.forking, Pc.Resumable, hint, hk, hstate]

-- Every action of the thread programs fits where it is taken.
theorem code_fits (hi : Inv s) (hc : s.cpuPc c = .switched p) {i : Instr} (h : s.code p ch = some i) : Fits s p i := by
  have hcode := h
  have hstate := hi.state c p hc
  unfold Sys.code at h
  split at h
  all_goals rename_i hpc
  all_goals rw [hpc] at hstate
  -- Where both program points are in sight.
  all_goals try
    (repeat' split at h) <;> cases h <;>
      simp [Fits, Pc.held, Pc.state, Pc.Wf, Pc.forking, Pc.Resumable, *]
    done
  · exact hi.yield_fits hc hcode (.inl hpc)
  · exact hi.yield_fits hc hcode (.inr (.inl hpc))
  · exact hi.yield_fits hc hcode (.inr (.inr (.inl hpc)))
  · exact hi.yield_fits hc hcode (.inr (.inr (.inr hpc)))
  · -- wakeup
    split at h <;> cases h
    · exact (wakeupFrom_plain p ..).goto_fits (by rw [hpc]; exact ⟨rfl, rfl, trivial, rfl⟩)
    · simp [Fits, hpc, Pc.held, Pc.state, Pc.Wf, Pc.forking]
  · -- wakeupTest
    split at h <;> cases h
    · rename_i hsl
      exact hi.wake_fits hc (by rw [hpc]; rfl) ⟨rfl, trivial, rfl⟩ (by simp [hpc, Pc.state]) (by simp [hsl.1])
    · simp [Fits, hpc, Pc.held, Pc.state, Pc.Wf, Pc.forking]
  · -- wakeupRelease
    cases h
    exact (wakeupFrom_plain p ..).release_fits (by rw [hpc]; rfl) (by rw [hpc]; rfl)
  · -- killTest
    split at h <;> cases h
    · exact hi.wake_fits hc (by rw [hpc]; rfl) ⟨rfl, trivial, rfl⟩ (by simp [hpc, Pc.state]) rfl
    · simp [Fits, hpc, Pc.held, Pc.state, Pc.Wf, Pc.forking]
  iterate 2
    -- forkAlloc, forkCopy
    split at h <;> cases h
    · simp [Fits, hpc, Pc.held, Pc.state, Pc.Wf, Pc.forking]
    · exact hi.free_fits hc (by rw [hpc]; rfl) ⟨rfl, trivial, rfl⟩ (by simp [hpc, Pc.state]) (.inr (by rw [hpc]; rfl))
  · cases h
    exact hi.forkRunnable_fits hc hpc
  · -- exitReparent
    rename_i j
    split at h <;> cases h
    · by_cases hjp : j = p
      · subst hjp
        simp [Fits, hpc, Pc.held, Pc.state, Pc.Wf, Pc.forking, hstate]
      · simp [Fits, hpc, Pc.held, Pc.state, Pc.Wf, Pc.forking, hjp]
    · exact (reparentNext_plain p ..).goto_fits (by rw [hpc]; exact ⟨rfl, rfl, trivial, rfl⟩)
  · -- waitScan
    split at h <;> cases h
    · simp [Fits, hpc, Pc.held, Pc.state, Pc.Wf, Pc.forking]
    · exact (scanNext_plain p ..).goto_fits (by rw [hpc]; exact ⟨rfl, rfl, trivial, rfl⟩)
  · -- waitTest
    split at h
    · rename_i hz
      split at h <;> cases h
      · exact hi.free_fits hc (by rw [hpc]; rfl) ⟨rfl, trivial, rfl⟩ (by simp [hpc, Pc.state]) (.inl hz)
      · simp [Fits, hpc, Pc.held, Pc.state, Pc.Wf, Pc.forking]
    · cases h
      simp [Fits, hpc, Pc.held, Pc.state, Pc.Wf, Pc.forking]
  · -- waitSkip
    cases h
    exact (scanNext_plain p ..).release_fits (by rw [hpc]; rfl) (by rw [hpc]; rfl)

theorem Inv.exec {t : Sys} (hi : Inv s) (hc : s.cpuPc c = .switched p) {i : Instr}
    (hfits : Fits s p i) (h : s.exec c p i = some t) : Inv t := by
  cases i with
  | goto pc | releaseWait pc =>
      cases h
      exact hi.goto hc hfits
  | acquireWait pc =>
      simp only [Sys.exec] at h
      split at h
      · cases h
        exact hi.goto hc hfits
      · cases h
  | acquire q pc =>
      simp only [Sys.exec] at h
      split at h
      · rename_i hfree
        cases h
        exact hi.acquire hc hfree hfits
      · cases h
  | release q pc =>
      cases h
      exact hi.release hc hfits
  | update q f pc =>
      cases h
      exact hi.update hc hfits
  | allocproc q pc =>
      cases h
      exact hi.allocproc hc rfl hfits
  | swtch pc =>
      cases h
      exact hi.swtch hc hfits

theorem Inv.step {t : Sys} (hi : Inv s) (h : s.step c ch = some t) : Inv t := by
  simp only [Sys.step, Option.bind_eq_bind] at h
  split at h
  · rename_i p hc
    split_ifs at h with hyield hint
    · obtain ⟨hheld, hrun⟩ := interruptible_plain hint
      cases h
      exact hi.goto hc ⟨hheld.symm, hrun.symm, ⟨hint, hi.wf p⟩, .inr rfl⟩
    · obtain ⟨i, hcode, hexec⟩ := Option.bind_eq_some_iff.mp h
      exact hi.exec hc (code_fits hi hc hcode) hexec
  · exact hi.schedule h

theorem Inv.boot : Inv Sys.boot where
  lock := by
    intro q c
    simp only [Sys.boot, Sys.holds]
    split <;> simp
  cpuProc := by simp [Sys.boot]
  once := by simp [Sys.boot]
  state := by simp [Sys.boot]
  off := by
    intro p _
    by_cases hp : p = first
    · simp [Sys.boot, hp, Pc.Resumable, Pc.held, Pc.state]
    · simp [Sys.boot, hp]
  wf := by
    intro p
    by_cases hp : p = first <;> simp [Sys.boot, hp, Pc.Wf]
  used := by
    intro p np
    by_cases hp : p = first <;> simp [Sys.boot, hp, Pc.forking]
  forkOnce := by
    intro p p' np
    by_cases hp : p = first <;> simp [Sys.boot, hp, Pc.forking]

-- freeproc runs with the lock of the slot it frees.
theorem held_of_free {q : Slot} {f : Proc → Proc}
    (h : s.code p ch = some (.update q f pc)) (hf : ∀ r, (f r).state = .unused) :
    (s.pc p).held p = some q := by
  have hinit := hf ⟨none, .running, .null, false, 0, 0, none⟩
  unfold Sys.code at h
  split at h
  all_goals rename_i hpc
  all_goals try split at h
  all_goals try split at h
  all_goals cases h
  all_goals simp_all [Pc.held]

end Code

theorem reachable_inv {s : Sys} (hrun : Reaches Step Sys.boot s) : Inv s :=
  hrun.invariant Inv .boot fun _ _ hi ⟨_, _, hs⟩ => hi.step hs

namespace Inv

variable {s : Sys} {c : ℕ} {p : Slot}

-- The thread of a process that is no longer RUNNING keeps its lock until the scheduler has it.
theorem lock_of_giving_up (hi : Inv s) (hon : s.cpuPc c = .switched p ∨ s.cpuPc c = .back p)
    (hstate : (s.proc p).state ≠ .running ∨ s.cpuPc c = .back p) : (s.proc p).lock = some c := by
  rw [hi.lock, Sys.holds]
  rcases hon with hc | hc
  · rw [hc]
    refine Pc.held_of_state ?_
    rw [← hi.state c p hc]
    exact hstate.resolve_right (by simp [hc])
  · rw [hc]

theorem running_iff (hi : Inv s) (hfree : (s.proc p).lock = none) :
    (s.proc p).state = .running ↔ ∃! c, s.cpuProc c = some p := by
  constructor
  · intro hrun
    by_contra hnone
    refine (hi.off p fun c hc => hnone ?_).1 hrun
    have hcpu := (hi.cpuProc c p).mpr (.inl hc)
    exact ⟨c, hcpu, fun c' hc' => hi.once c' c p hc' hcpu⟩
  · rintro ⟨c, hc, -⟩
    by_contra hrun
    have hlock := hi.lock_of_giving_up ((hi.cpuProc c p).mp hc) (.inl hrun)
    simp [hfree] at hlock

-- A CPU that runs or has just left q still holds its lock, or q is RUNNING.
theorem not_on_cpu_of_free (hi : Inv s) (hc : s.cpuPc c = .switched p) {ch : Choice} {q : Slot} {pc : Pc}
    (hcode : s.code p ch = some (.update q Proc.freeproc pc)) (c' : ℕ) :
    s.cpuPc c' ≠ .switched q ∧ s.cpuPc c' ≠ .back q := by
  have hfits := code_fits hi hc hcode
  have hheld := held_of_free hcode fun _ => rfl
  have hqp : q ≠ p := by
    rintro rfl
    have hunused := hfits.2.2.2.1
    rw [if_pos rfl] at hunused
    exact (Pc.state_ne_used pc).2 hunused.symm
  constructor
  · intro hc'
    rcases hfits.2.2.2.2.1 hqp with hsame | hoff
    · rw [hi.state c' q hc'] at hsame
      exact (Pc.state_ne_used _).2 hsame.symm
    · exact hoff.1 c' hc'
  · intro hc'
    have hlock := hi.lock_of_giving_up (.inr hc') (.inr hc')
    have hown : (s.proc q).lock = some c := (hi.lock q c).mpr (by rw [Sys.holds, hc]; exact hheld)
    rw [hlock, Option.some.injEq] at hown
    rw [hown, hc] at hc'
    cases hc'

end Inv

-- Any number of CPUs, any interleaving of the single lock operations of the threads.
theorem scheduler_handoff {s : Sys} (hrun : Reaches Step Sys.boot s) :
    (∀ p, (s.proc p).lock = none →
      ((s.proc p).state = .running ↔ ∃! c, s.cpuProc c = some p)) ∧
    (∀ c c' p, s.cpuProc c = some p ∨ s.cpuPc c = .switched p →
      s.cpuProc c' = some p ∨ s.cpuPc c' = .switched p → c = c') ∧
    (∀ c p ch q pc, s.cpuPc c = .switched p → s.code p ch = some (.update q Proc.freeproc pc) →
      ∀ c', s.cpuPc c' ≠ .switched q ∧ s.cpuPc c' ≠ .back q) ∧
    (∀ c p, (s.proc p).state = .zombie → s.cpuPc c = .switched p ∨ s.cpuPc c = .back p →
      (s.proc p).lock = some c) := by
  have hi := reachable_inv hrun
  have hproc : ∀ c p, s.cpuProc c = some p ∨ s.cpuPc c = .switched p → s.cpuProc c = some p :=
    fun c p h => h.elim id fun hc => (hi.cpuProc c p).mpr (.inl hc)
  refine ⟨fun p => hi.running_iff, fun c c' p h h' => hi.once c c' p (hproc c p h) (hproc c' p h'), ?_, ?_⟩
  · intro c p ch q pc hc hcode
    exact hi.not_on_cpu_of_free hc hcode
  · intro c p hz hon
    exact hi.lock_of_giving_up hon (.inl (by simp [hz]))

-- CPU 0 picks the first process, which starts in forkret and releases its lock.
theorem scheduler_handoff_forkret :
    ∃ s, Reaches Step Sys.boot s ∧ (s.proc first).lock = none ∧ (s.proc first).state = .running ∧
      ∃! c, s.cpuProc c = some first := by
  obtain ⟨s₁, h₁⟩ : ∃ s, Sys.boot.step 0 .yield = some s := ⟨_, rfl⟩
  obtain ⟨s₂, h₂⟩ : ∃ s, s₁.step 0 .yield = some s := by
    cases h₁
    exact ⟨_, rfl⟩
  obtain ⟨s₃, h₃⟩ : ∃ s, s₂.step 0 .ok = some s := by
    cases h₁
    cases h₂
    exact ⟨_, rfl⟩
  have hrun : Reaches Step Sys.boot s₃ :=
    ((Relation.ReflTransGen.single ⟨0, _, h₁⟩).tail ⟨0, _, h₂⟩).tail ⟨0, _, h₃⟩
  have hfree : (s₃.proc first).lock = none ∧ (s₃.proc first).state = .running := by
    cases h₁
    cases h₂
    cases h₃
    exact ⟨rfl, rfl⟩
  exact ⟨s₃, hrun, hfree.1, hfree.2, ((scheduler_handoff hrun).1 first hfree.1).mp hfree.2⟩

end Xv6.Sched
