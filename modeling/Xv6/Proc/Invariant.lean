import Xv6.Lib.Transition
import Xv6.Proc

namespace Xv6.Sched

open Function (update_of_ne update_self)

-- The state of a process whose thread is there on some CPU.
def Pc.state : Pc → ProcState
  | .yieldSched _ => .runnable
  | .sleepSched _ => .sleeping
  | .exitWaitUnlock | .exitSched => .zombie
  | _ => .running

-- The slot that fork has taken and not yet made runnable.
def Pc.forking : Pc → Option Slot
  | .forkAlloc np | .forkCopy np | .forkRelease np | .forkWaitLock np => some np
  | .forkParent np | .forkWaitUnlock np | .forkReacquire np | .forkRunnable np => some np
  | .yieldAcquire k | .yieldSet k | .yieldSched k | .yieldRelease k => k.forking
  | _ => none

-- yield only interrupts code that holds no lock.
def Pc.Wf (p : Slot) : Pc → Prop
  | .yieldAcquire k | .yieldSet k | .yieldSched k | .yieldRelease k => k.interruptible p = true ∧ k.Wf p
  | _ => True

-- A saved context that expects to be resumed with its own lock held.
def Pc.Resumable (p : Slot) (pc : Pc) : Prop := pc.held p = some p ∧ pc.state = .running

def Sys.holds (s : Sys) (c : ℕ) : Option Slot :=
  match s.cpuPc c with
  | .acquire _ => none
  | .test i | .back i | .release i => some i
  | .switched p => (s.pc p).held p

structure Inv (s : Sys) : Prop where
  lock : ∀ q c, (s.proc q).lock = some c ↔ s.holds c = some q
  cpuProc : ∀ c p, s.cpuProc c = some p ↔ s.cpuPc c = .switched p ∨ s.cpuPc c = .back p
  once : ∀ c c' p, s.cpuProc c = some p → s.cpuProc c' = some p → c = c'
  state : ∀ c p, s.cpuPc c = .switched p → (s.proc p).state = (s.pc p).state
  off : ∀ p, (∀ c, s.cpuPc c ≠ .switched p) → (s.proc p).state ≠ .running ∧
    ((s.proc p).state = .runnable ∨ (s.proc p).state = .sleeping → (s.pc p).Resumable p)
  wf : ∀ p, (s.pc p).Wf p
  used : ∀ p np, (s.pc p).forking = some np → (s.proc np).state = .used ∧ s.pc np = .forkret
  forkOnce : ∀ p p' np, (s.pc p).forking = some np → (s.pc p').forking = some np → p = p'

theorem Pc.state_ne_used (pc : Pc) : pc.state ≠ .used ∧ pc.state ≠ .unused := by
  cases pc <;> simp [Pc.state]

-- A thread whose process is not RUNNING is about to give up the CPU.
theorem Pc.held_of_state {p : Slot} {pc : Pc} (h : pc.state ≠ .running) : pc.held p = some p := by
  cases pc <;> simp_all [Pc.state, Pc.held]

namespace Inv

variable {s t : Sys} {c : ℕ} {p : Slot}

theorem switched_once (hi : Inv s) {c' : ℕ} (h : s.cpuPc c = .switched p) (h' : s.cpuPc c' = .switched p) : c = c' :=
  hi.once c c' p ((hi.cpuProc c p).mpr (.inl h)) ((hi.cpuProc c' p).mpr (.inl h'))

-- A process that another thread has locked and that is not RUNNING runs nowhere.
theorem not_switched (hi : Inv s) (hc : s.cpuPc c = .switched p) {q : Slot} (hne : q ≠ p)
    (hheld : (s.pc p).held p = some q) (hstate : (s.proc q).state ≠ .running) (c' : ℕ) :
    s.cpuPc c' ≠ .switched q := by
  intro hc'
  have hown : s.holds c' = some q := by
    rw [Sys.holds, hc']
    exact Pc.held_of_state (hi.state c' q hc' ▸ hstate)
  have hother : s.holds c = some q := by
    rw [Sys.holds, hc]
    exact hheld
  have hlock := ((hi.lock q c').mpr hown).symm.trans ((hi.lock q c).mpr hother)
  simp only [Option.some.injEq] at hlock
  rw [hlock, hc] at hc'
  exact hne (CpuPc.switched.inj hc').symm

end Inv

-- What a step of the thread of p on CPU c may do.
structure Turn (s t : Sys) (c : ℕ) (p : Slot) : Prop where
  runs : s.cpuPc c = .switched p
  cpuPc : t.cpuPc = s.cpuPc
  cpuProc : t.cpuProc = s.cpuProc
  pc : ∀ q, q ≠ p → t.pc q = s.pc q ∨ ((s.proc q).state = .unused ∧ t.pc q = .forkret)
  wf : (t.pc p).Wf p
  lock : ∀ q, (t.proc q).lock = if (t.pc p).held p = some q then some c
    else if (s.pc p).held p = some q then none else (s.proc q).lock
  free : ∀ q, (t.pc p).held p = some q → (s.pc p).held p = some q ∨ (s.proc q).lock = none
  self : (t.proc p).state = (t.pc p).state
  other : ∀ q, q ≠ p → ((t.proc q).state = (s.proc q).state ∧ t.pc q = s.pc q) ∨
    ((∀ c', s.cpuPc c' ≠ .switched q) ∧ (t.proc q).state ≠ .running ∧
      ((t.proc q).state = .runnable ∨ (t.proc q).state = .sleeping → (t.pc q).Resumable q))
  fork : ∀ np, (t.pc p).forking = some np → (s.pc p).forking = some np ∨
    ((s.proc np).state = .unused ∧ (t.proc np).state = .used ∧ t.pc np = .forkret)
  used : ∀ np, (s.proc np).state = .used → (t.proc np).state = .used ∨
    ((s.pc p).forking = some np ∧ (t.pc p).forking = none)

namespace Turn

variable {s t : Sys} {c : ℕ} {p : Slot}

theorem holds_self (h : Turn s t c p) : s.holds c = (s.pc p).held p ∧ t.holds c = (t.pc p).held p := by
  simp only [Sys.holds, h.cpuPc, h.runs, and_self]

theorem holds_of_ne (h : Turn s t c p) (hi : Inv s) {c' : ℕ} (hne : c' ≠ c) : t.holds c' = s.holds c' := by
  simp only [Sys.holds, h.cpuPc]
  split <;> try rfl
  rename_i q hq
  have hqp : q ≠ p := by
    rintro rfl
    exact hne (hi.switched_once hq h.runs)
  rcases h.pc q hqp with he | ⟨hu, _⟩
  · rw [he]
  · rw [hi.state c' q hq] at hu
    exact absurd hu (s.pc q).state_ne_used.2

theorem lock_iff (h : Turn s t c p) (hi : Inv s) (q : Slot) (c' : ℕ) :
    (t.proc q).lock = some c' ↔ t.holds c' = some q := by
  rw [h.lock q]
  by_cases hcc : c' = c
  · subst hcc
    rw [h.holds_self.2]
    by_cases ht : (t.pc p).held p = some q
    · simp [ht]
    · simp only [ht, ite_false, iff_false]
      split
      · simp
      · rwa [hi.lock q c', h.holds_self.1]
  · rw [h.holds_of_ne hi hcc, ← hi.lock q c']
    by_cases ht : (t.pc p).held p = some q
    · simp only [ht, ite_true, Option.some.injEq]
      refine ⟨fun he => absurd he.symm hcc, fun hl => ?_⟩
      rcases h.free q ht with hs | hs
      · rw [← h.holds_self.1, ← hi.lock q c, hl] at hs
        exact absurd (Option.some.inj hs) hcc
      · rw [hl] at hs
        cases hs
    · simp only [ht, ite_false]
      split
      · rename_i hs
        rw [← h.holds_self.1, ← hi.lock q c] at hs
        simp only [reduceCtorEq, false_iff, hs, Option.some.injEq]
        exact fun he => hcc he.symm
      · rfl

theorem forking_of_ne (h : Turn s t c p) {q np : Slot} (hq : q ≠ p) (hfork : (t.pc q).forking = some np) :
    (s.pc q).forking = some np := by
  rcases h.pc q hq with he | ⟨_, he⟩
  · rwa [he] at hfork
  · simp [he, Pc.forking] at hfork

-- A slot that is being forked is neither p's own nor an unused one.
theorem forked (h : Turn s t c p) (hi : Inv s) {q np : Slot} (hq : (s.pc q).forking = some np)
    (hstill : (t.pc p).forking = some np ∨ q ≠ p) : (t.proc np).state = .used ∧ t.pc np = .forkret := by
  obtain ⟨hs, hret⟩ := hi.used q np hq
  have hnp : np ≠ p := by
    rintro rfl
    exact (s.pc np).state_ne_used.1 (hi.state c np h.runs ▸ hs)
  refine ⟨(h.used np hs).resolve_right ?_, ?_⟩
  · rintro ⟨hfp, hnone⟩
    rcases hstill with hp | hp
    · simp [hnone] at hp
    · exact hp (hi.forkOnce q p np hq hfp)
  · rcases h.pc np hnp with he | ⟨hu, _⟩
    · rw [he, hret]
    · rw [hs] at hu
      cases hu

-- A slot that was unused is nobody else's.
theorem forking_ne (h : Turn s t c p) (hi : Inv s) {q np : Slot} (hqp : q ≠ p) (hq : (t.pc q).forking = some np) :
    (t.pc p).forking ≠ some np := by
  intro hp
  have hs := h.forking_of_ne hqp hq
  rcases h.fork np hp with hsp | ⟨hu, _⟩
  · exact hqp (hi.forkOnce q p np hs hsp)
  · rw [(hi.used q np hs).1] at hu
    cases hu

theorem inv (h : Turn s t c p) (hi : Inv s) : Inv t where
  lock := h.lock_iff hi
  cpuProc := by
    rw [h.cpuPc, h.cpuProc]
    exact hi.cpuProc
  once := by
    rw [h.cpuProc]
    exact hi.once
  state c' q hq := by
    rw [h.cpuPc] at hq
    by_cases hqp : q = p
    · rw [hqp]
      exact h.self
    · rcases h.other q hqp with ⟨hs, he⟩ | ⟨hoff, _⟩
      · rw [hs, he]
        exact hi.state c' q hq
      · exact absurd hq (hoff c')
  off q hq := by
    rw [h.cpuPc] at hq
    have hqp : q ≠ p := by
      rintro rfl
      exact hq c h.runs
    rcases h.other q hqp with ⟨hs, he⟩ | ⟨_, hrest⟩
    · rw [hs, he]
      exact hi.off q hq
    · exact hrest
  wf q := by
    by_cases hqp : q = p
    · rw [hqp]
      exact h.wf
    · rcases h.pc q hqp with he | ⟨_, he⟩
      · rw [he]
        exact hi.wf q
      · rw [he]
        trivial
  used q np hq := by
    by_cases hqp : q = p
    · subst hqp
      rcases h.fork np hq with hs | ⟨_, hs⟩
      · exact h.forked hi hs (.inl hq)
      · exact hs
    · exact h.forked hi (h.forking_of_ne hqp hq) (.inr hqp)
  forkOnce q q' np hq hq' := by
    by_cases hqp : q = p
    · subst hqp
      by_contra hne
      exact h.forking_ne hi (Ne.symm hne) hq' hq
    · by_cases hqp' : q' = p
      · subst hqp'
        exact absurd hq' (h.forking_ne hi hqp hq)
      · exact hi.forkOnce q q' np (h.forking_of_ne hqp hq) (h.forking_of_ne hqp' hq')

end Turn

-- What an action must look like at the pc of the thread that takes it.
def Fits (s : Sys) (p : Slot) : Instr → Prop
  | .goto pc | .acquireWait pc | .releaseWait pc =>
      pc.held p = (s.pc p).held p ∧ pc.state = (s.pc p).state ∧ pc.Wf p ∧
      (pc.forking = none ∨ pc.forking = (s.pc p).forking)
  | .acquire q pc =>
      (s.pc p).held p = none ∧ pc.held p = some q ∧ pc.state = (s.pc p).state ∧ pc.Wf p ∧
      pc.forking = (s.pc p).forking
  | .release q pc =>
      (s.pc p).held p = some q ∧ pc.held p = none ∧ pc.state = (s.pc p).state ∧ pc.Wf p ∧
      (pc.forking = none ∨ pc.forking = (s.pc p).forking)
  | .update q f pc =>
      pc.held p = (s.pc p).held p ∧ pc.Wf p ∧
      (pc.forking = none ∨ pc.forking = (s.pc p).forking) ∧
      (if q = p then (f (s.proc p)).state = pc.state else pc.state = (s.pc p).state) ∧
      (q ≠ p → (f (s.proc q)).state = (s.proc q).state ∨
        ((∀ c, s.cpuPc c ≠ .switched q) ∧ (f (s.proc q)).state ≠ .running ∧
          ((f (s.proc q)).state = .runnable ∨ (f (s.proc q)).state = .sleeping →
            (s.pc q).Resumable q))) ∧
      ((s.proc q).state = .used → (f (s.proc q)).state = .used ∨
        ((s.pc p).forking = some q ∧ pc.forking = none))
  | .allocproc q pc =>
      pc.held p = (s.pc p).held p ∧ pc.state = (s.pc p).state ∧ pc.Wf p ∧
      (s.proc q).state = .unused ∧ pc.forking = some q
  | .swtch pc =>
      (s.pc p).held p = some p ∧ (s.pc p).state ≠ .running ∧ pc.Wf p ∧
      pc.forking = (s.pc p).forking ∧
      ((s.pc p).state = .runnable ∨ (s.pc p).state = .sleeping → pc.Resumable p)

namespace Inv

variable {s : Sys} {c : ℕ} {p : Slot}

variable {pc : Pc} {q : Slot}

-- A step that moves the thread of p and no other.
theorem thread_goto (hi : Inv s) (hc : s.cpuPc c = .switched p) {u : Sys}
    (hcpu : u.cpuPc = s.cpuPc) (hcp : u.cpuProc = s.cpuProc) (hpc : u.pc = s.pc) (hwf : pc.Wf p)
    (hlock : ∀ q, (u.proc q).lock = if pc.held p = some q then some c
      else if (s.pc p).held p = some q then none else (s.proc q).lock)
    (hfree : ∀ q, pc.held p = some q → (s.pc p).held p = some q ∨ (s.proc q).lock = none)
    (hself : (u.proc p).state = pc.state)
    (hother : ∀ q, q ≠ p → (u.proc q).state = (s.proc q).state ∨
      ((∀ c', s.cpuPc c' ≠ .switched q) ∧ (u.proc q).state ≠ .running ∧
        ((u.proc q).state = .runnable ∨ (u.proc q).state = .sleeping → (s.pc q).Resumable q)))
    (hfork : pc.forking = none ∨ pc.forking = (s.pc p).forking)
    (hused : ∀ np, (s.proc np).state = .used → (u.proc np).state = .used ∨
      ((s.pc p).forking = some np ∧ pc.forking = none)) : Inv (u.goto p pc) := by
  have hself' : (u.goto p pc).pc p = pc := update_self ..
  have hne : ∀ q, q ≠ p → (u.goto p pc).pc q = s.pc q := by
    intro q hq
    rw [← hpc]
    exact update_of_ne hq ..
  refine Turn.inv ⟨hc, hcpu, hcp, fun q hq => .inl (hne q hq), ?_, ?_, ?_, ?_, fun q hq => ?_, fun np hnp => ?_, ?_⟩ hi
  all_goals try simp only [hself']
  · exact hwf
  · exact hlock
  · exact hfree
  · exact hself
  · rw [hne q hq]
    rcases hother q hq with hs | hs
    · exact .inl ⟨hs, rfl⟩
    · exact .inr hs
  · rw [hself'] at hnp
    rcases hfork with hf | hf
    · rw [hf] at hnp
      cases hnp
    · exact .inl (hf ▸ hnp)
  · exact hused

theorem lock_of_held (hi : Inv s) (hc : s.cpuPc c = .switched p)
    (hq : (s.pc p).held p = some q) : (s.proc q).lock = some c := by
  rw [hi.lock, Sys.holds, hc]
  exact hq

-- The locks stay as they are when the thread holds what it held before.
theorem lock_same (hi : Inv s) (hc : s.cpuPc c = .switched p) (hheld : pc.held p = (s.pc p).held p) (q : Slot) :
    (s.proc q).lock = if pc.held p = some q then some c
      else if (s.pc p).held p = some q then none else (s.proc q).lock := by
  rw [hheld]
  split
  · rename_i hq
    exact hi.lock_of_held hc hq
  · rfl

theorem goto (hi : Inv s) (hc : s.cpuPc c = .switched p) {wait : Option ℕ}
    (h : Fits s p (.goto pc)) : Inv ({ s with waitLock := wait }.goto p pc) := by
  obtain ⟨hheld, hstate, hwf, hfork⟩ := h
  exact hi.thread_goto (u := { s with waitLock := wait }) hc rfl rfl rfl hwf (hi.lock_same hc hheld)
    (fun q hq => .inl (hheld ▸ hq)) (hstate ▸ hi.state c p hc) (fun q _ => .inl rfl) hfork
    (fun np hnp => .inl hnp)

theorem setLock_state (s : Sys) (q r : Slot) (holder : Option ℕ) :
    ((s.setLock q holder).proc r).state = (s.proc r).state := by
  by_cases hr : r = q
  · subst hr; simp [Sys.setLock]
  · simp [Sys.setLock, hr]

theorem setLock_lock (s : Sys) (q r : Slot) (holder : Option ℕ) :
    ((s.setLock q holder).proc r).lock = if r = q then holder else (s.proc r).lock := by
  by_cases hr : r = q
  · subst hr; simp [Sys.setLock]
  · simp [Sys.setLock, hr]

theorem acquire (hi : Inv s) (hc : s.cpuPc c = .switched p)
    (hfree : (s.proc q).lock = none) (h : Fits s p (.acquire q pc)) :
    Inv ((s.setLock q (some c)).goto p pc) := by
  obtain ⟨hnone, hheld, hstate, hwf, hfork⟩ := h
  refine hi.thread_goto hc rfl rfl rfl hwf (fun r => ?_) (fun r hr => .inr ?_) ?_
    (fun r _ => .inl (setLock_state s q r _)) (.inr hfork)
    (fun np hnp => .inl ((setLock_state s q np _).trans hnp))
  · rw [setLock_lock, hheld, hnone]
    by_cases hr : r = q
    · simp [hr]
    · simp [hr, Ne.symm hr]
  · rw [hheld, Option.some.injEq] at hr
    rw [← hr, hfree]
  · rw [setLock_state, hstate]
    exact hi.state c p hc

theorem release (hi : Inv s) (hc : s.cpuPc c = .switched p)
    (h : Fits s p (.release q pc)) : Inv ((s.setLock q none).goto p pc) := by
  obtain ⟨hheld, hnone, hstate, hwf, hfork⟩ := h
  refine hi.thread_goto hc rfl rfl rfl hwf (fun r => ?_) (fun r hr => ?_) ?_
    (fun r _ => .inl (setLock_state s q r _)) hfork
    (fun np hnp => .inl ((setLock_state s q np _).trans hnp))
  · rw [setLock_lock, hheld, hnone]
    by_cases hr : r = q
    · simp [hr]
    · simp [hr, Ne.symm hr]
  · rw [hnone] at hr
    cases hr
  · rw [setLock_state, hstate]
    exact hi.state c p hc

theorem setProc_lock (s : Sys) (q r : Slot) (f : Proc → Proc) :
    ((s.setProc q f).proc r).lock = (s.proc r).lock := by
  by_cases hr : r = q
  · subst hr; simp [Sys.setProc]
  · simp [Sys.setProc, hr]

theorem setProc_state (s : Sys) (q r : Slot) (f : Proc → Proc) :
    ((s.setProc q f).proc r).state = if r = q then (f (s.proc q)).state else (s.proc r).state := by
  by_cases hr : r = q
  · subst hr; simp [Sys.setProc]
  · simp [Sys.setProc, hr]

theorem update (hi : Inv s) (hc : s.cpuPc c = .switched p) {f : Proc → Proc}
    (h : Fits s p (.update q f pc)) : Inv ((s.setProc q f).goto p pc) := by
  obtain ⟨hheld, hwf, hfork, hself, hother, hused⟩ := h
  refine hi.thread_goto hc rfl rfl rfl hwf (fun r => ?_) (fun r hr => .inl (hheld ▸ hr)) ?_
    (fun r hr => ?_) hfork (fun np hnp => ?_)
  · rw [setProc_lock]
    exact hi.lock_same hc hheld r
  · rw [setProc_state]
    by_cases hqp : p = q
    · subst hqp
      simpa using hself
    · simp only [hqp, Ne.symm hqp, ite_false] at hself ⊢
      rw [hself]
      exact hi.state c p hc
  · rw [setProc_state]
    by_cases hrq : r = q
    · subst hrq
      simpa using hother hr
    · simp [hrq]
  · rw [setProc_state]
    by_cases hrq : np = q
    · subst hrq
      simpa using hused hnp
    · simp [hrq, hnp]

theorem allocproc (hi : Inv s) (hc : s.cpuPc c = .switched p) {f : Proc → Proc}
    {pid : Int} (hf : (f (s.proc q)).state = .used) (h : Fits s p (.allocproc q pc)) :
    Inv (({ s.setProc q f with nextpid := pid }.goto q .forkret).goto p pc) := by
  obtain ⟨hheld, hstate, hwf, hunused, hfork⟩ := h
  have hrun : ∀ c' r, s.cpuPc c' = .switched r → (s.proc r).state ≠ .unused := by
    intro c' r hr
    rw [hi.state c' r hr]
    exact (s.pc r).state_ne_used.2
  have hqp : q ≠ p := by
    rintro rfl
    exact hrun c q hc hunused
  let t := ({ s.setProc q f with nextpid := pid }.goto q .forkret).goto p pc
  have hproc : t.proc = (s.setProc q f).proc := rfl
  have hpc : t.pc p = pc := update_self ..
  have hpcq : t.pc q = .forkret := (update_of_ne hqp ..).trans (update_self ..)
  have hpcr : ∀ r, r ≠ p → r ≠ q → t.pc r = s.pc r := fun r hr hrq =>
    (update_of_ne hr ..).trans (update_of_ne hrq ..)
  have hst : ∀ r, r ≠ q → (t.proc r).state = (s.proc r).state := by
    intro r hr
    rw [hproc, setProc_state, if_neg hr]
  have hstq : (t.proc q).state = .used := by
    rw [hproc, setProc_state, if_pos rfl, hf]
  change Inv t
  refine Turn.inv (s := s) ⟨hc, rfl, rfl, fun r hr => ?_, by rw [hpc]; exact hwf, fun r => ?_, fun r hr => .inl ?_, ?_,
    fun r hr => ?_, fun np hnp => .inr ?_, fun np hnp => .inl ?_⟩ hi
  · by_cases hrq : r = q
    · subst hrq
      exact .inr ⟨hunused, hpcq⟩
    · exact .inl (hpcr r hr hrq)
  · rw [hproc, setProc_lock, hpc]
    exact hi.lock_same hc hheld r
  · rwa [hpc, hheld] at hr
  · rw [hst p (Ne.symm hqp), hpc, hstate]
    exact hi.state c p hc
  · by_cases hrq : r = q
    · subst hrq
      exact .inr ⟨fun c' hc' => hrun c' r hc' hunused, by rw [hstq]; simp, by rw [hstq]; simp⟩
    · exact .inl ⟨hst r hrq, hpcr r hr hrq⟩
  · rw [hpc, hfork, Option.some.injEq] at hnp
    subst hnp
    exact ⟨hunused, hstq, hpcq⟩
  · rw [hst np (by rintro rfl; rw [hunused] at hnp; cases hnp)]
    exact hnp

end Inv

end Xv6.Sched
