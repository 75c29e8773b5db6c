import Xv6.Kernel.Theorems

namespace Xv6

open Wp Transition KernelM Ram Kernel

-- What p does to its memory: a store of its program, a copyout in one of its calls, sbrk.
inductive Kernel.MemoryStep (s : Kernel) (p : Slot) : Kernel → Prop
  | store (pagetable va : ℕ) (byte : UInt8) (running : (s.proc p).Running)
      (table : (s.proc p).pagetable = some pagetable) :
      MemoryStep s p (s.withRam { s.files.ram with mem := s.files.ram.mem.userStore pagetable va byte })
  | copyout (pagetable dstva : ℕ) (src : ℕ → UInt8) (len : ℕ) (running : (s.proc p).Running)
      (table : (s.proc p).pagetable = some pagetable) :
      MemoryStep s p (s.withRam { s.files.ram with mem := (Xv6.copyout s.files.ram.mem pagetable dstva src len).1 })
  | sbrk (n : BitVec 32) (fail : List Bool) {t : Kernel} (running : (s.proc p).Running)
      (run : (KernelCall.sbrk n).run p (s.withRam { s.files.ram with fail := fail }) = .ok ((), t)) : MemoryStep s p t

variable {s t u v : Kernel} {P : Slot → Multiset ℕ} {pipes : Finset ℕ} {p q np : Slot}

theorem Kernel.MemoryStep.step (h : s.MemoryStep p t) : KernelStep s t := by
  cases h with
  | store pagetable va byte running table => exact .store p pagetable va byte running table
  | copyout pagetable dstva src len running table => exact .copyout p pagetable dstva src len running table
  | sbrk n fail running run => exact .call p (.sbrk n) fail running run

theorem Kernel.MemoryStep.local (h : s.MemoryStep p t) (hinv : s.Inv P pipes) : s.Local t p (P p) := by
  cases h with
  | store pagetable va byte running table => exact (store_inv hinv running table va byte).2
  | copyout pagetable dstva src len running table => exact (copyout_local hinv running table dstva src len).2
  | sbrk n fail running run =>
      have hfail : Untouched s (s.withRam { s.files.ram with fail := fail }) := ⟨rfl, ⟨rfl, fun _ _ => rfl⟩, rfl⟩
      have hgrow : wp ((KernelCall.sbrk n).run p) (fun _ t => Local _ t p (P p)) (fun _ => False)
          (s.withRam { s.files.ram with fail := fail }) :=
        wp_discard (wp_post (growproc_inv (hinv.untouched hfail) running.1 n.le_toInt n.toInt_lt)
          fun _ _ hpost => hpost.2)
      obtain ⟨hother, own, huses⟩ := (wp_of_ok run).mp hgrow
      exact ⟨hother, own, ⟨huses.store, huses.kend⟩⟩

-- What p does to its memory is not seen by another process.
theorem Kernel.MemoryStep.view (h : s.MemoryStep p t) (hinv : s.Inv P pipes) (hq : q ≠ p) {va : ℕ}
    (hva : va < TRAPFRAME) : t.view q va = s.view q va :=
  (h.local hinv).view hinv.mapped hq hva

theorem Kernel.Inv.userPages_disjoint (h : s.Inv P pipes) (hq : q ≠ p) :
    Disjoint ((s.proc p).userPages s.files.ram.mem) ((s.proc q).userPages s.files.ram.mem) := by
  have hnodup := (h.mapped.owned_two hq).nodup
  rw [← (h.mapped.has p).pages (h.mapped.owned p), ← (h.mapped.has q).pages (h.mapped.owned q)] at hnodup
  rw [Multiset.disjoint_left]
  intro page hp hq
  refine Multiset.disjoint_left.mp (Multiset.nodup_add.mp hnodup).2.2 (?_ : page ∈ _) ?_
  · simp [hp]
  · simp [hq]

-- No process sees a difference, and the pages that were free are free.
structure Kernel.ForkFailed (s t : Kernel) : Prop where
  files : t.files = { s.files with ram := t.files.ram }
  proc : ∀ i, (s.proc i).state ≠ .unused → t.proc i = s.proc i
  unused : ∀ i, (s.proc i).state = .unused → (t.proc i).state = .unused
  view : ∀ i, (s.proc i).state ≠ .unused → ∀ va, va < TRAPFRAME → t.view i va = s.view i va
  free : (↑t.files.ram.freelist : Multiset ℕ) = ↑s.files.ram.freelist

theorem Kernel.Unforked.failed (h : s.Unforked t) (hinv : s.Inv P pipes) : s.ForkFailed t := by
  rcases h with rfl | ⟨np, hunused, ⟨ram, hfiles, huses⟩, hself, hother⟩
  · exact ⟨rfl, fun _ _ => rfl, fun _ hi => hi, fun _ _ _ _ => rfl, rfl⟩
  · have hproc : ∀ i, (s.proc i).state ≠ .unused → t.proc i = s.proc i := by
      intro i hi
      refine hother i ?_
      rintro rfl
      exact hi hunused
    have hram : t.files.ram = ram := congrArg Files.ram hfiles
    refine ⟨by rw [hram, hfiles], hproc, fun i hi => ?_, fun i hi va hva => ?_, ?_⟩
    · by_cases hne : i = np
      · rw [hne, hself]
        rfl
      · rw [hother i hne]
        exact hi
    · refine hinv.mapped.view_congr (congrArg UserProc.pagetable (hproc i hi)) ?_ hva
      rw [hram]
      refine huses.kept ?_
      rw [zero_add]
      exact hinv.mapped.owned i
    · rw [hram]
      exact add_right_cancel huses.store.pages

-- The child gets a copy of the memory, and from then on neither sees what the other does to its own.
theorem fork_isolation {fail : List Bool} {r : Int} (h : s.Reachable) (hp : (s.proc p).Running)
    (hrun : fork p (s.withRam { s.files.ram with fail := fail }) = .ok (r, t)) :
    (r = -1 ∧ s.ForkFailed t) ∨ ∃ np, s.Forked t p np ∧ r = (t.proc np).pid ∧ ∀ u, Reaches KernelStep t u →
      Disjoint ((u.proc p).userPages u.files.ram.mem) ((u.proc np).userPages u.files.ram.mem) ∧
      (∀ v, u.MemoryStep p v → ∀ va, va < TRAPFRAME → v.view np va = u.view np va) ∧
      ∀ v, u.MemoryStep np v → ∀ va, va < TRAPFRAME → v.view p va = u.view p va := by
  obtain ⟨P, pipes, hinv⟩ := h.inv
  have hfail : Untouched s (s.withRam { s.files.ram with fail := fail }) := ⟨rfl, ⟨rfl, fun _ _ => rfl⟩, rfl⟩
  have hinv' := hinv.untouched hfail
  obtain ⟨hnext, hr⟩ := (wp_of_ok hrun).mp (fork_spec hinv' hp)
  rcases hr with ⟨hr, hback⟩ | ⟨np, hforked, hr⟩
  · obtain ⟨hfiles, hproc, hunused, hview, hfree⟩ := hback.failed hinv'
    exact .inl ⟨hr, hfiles, hproc, hunused, hview, hfree⟩
  · refine .inr ⟨np, ?_, hr, fun u hu => ?_⟩
    · exact ⟨hforked.unused, hforked.runnable, hforked.sz, hforked.copy, hforked.other, hforked.same⟩
    · have hne : np ≠ p := by
        rintro rfl
        exact hp.1 hforked.unused
      obtain ⟨Q, pipes', hu⟩ : ∃ Q pipes', u.Inv Q pipes' := by
        refine hu.invariant (fun u => ∃ Q pipes', u.Inv Q pipes') ?_ fun a b ha hab => ?_
        · obtain ⟨Q, pipes', ht, -⟩ := hnext
          exact ⟨Q, pipes', ht⟩
        · obtain ⟨Q, pipes', ha⟩ := ha
          obtain ⟨Q', pipes'', hb, -⟩ := hab.next ha
          exact ⟨Q', pipes'', hb⟩
      exact ⟨hu.userPages_disjoint hne, fun v hv va hva => hv.view hu hne hva,
        fun v hv va hva => hv.view hu hne.symm hva⟩

def roomyKernel : Kernel := smallKernel.withRam
  { smallKernel.files.ram with kend := PHYSTOP - 97 * PGSIZE, freelist := List.range' 556959 29 }

theorem roomyKernel_pages : (↑roomyKernel.files.ram.freelist : Multiset ℕ) + roomyKernel.fixed =
    ↑(List.range' 556959 97) := by
  have hfree : (↑(List.range' 556959 29) : Multiset ℕ) = ↑(List.range' 556959 20) + ↑(List.range' 556979 9) := by decide
  have hall : (↑(List.range' 556959 97) : Multiset ℕ) = ↑(List.range' 556959 20) + ↑(List.range' 556979 77) := by
    decide
  rw [hall, ← smallKernel_pages, ← add_assoc]
  exact congrArg (· + smallKernel.fixed) hfree

theorem roomyKernel_inRam (q : ℕ) : InRam roomyKernel.files.ram.kend q ↔ q ∈ List.range' 556959 97 := by
  have hkend : roomyKernel.files.ram.kend = 556959 * 4096 := by decide
  have hstop : PHYSTOP = 557056 * 4096 := by decide
  rw [InRam, hkend, hstop, show PGSIZE = 4096 from rfl, List.mem_range'_1]
  omega

theorem roomyKernel_booted : roomyKernel.Booted where
  procs _ := rfl
  closed _ := ⟨rfl, rfl⟩
  ofile _ _ := rfl
  divided := .of_list roomyKernel_pages List.nodup_range' roomyKernel_inRam
  trampoline := by decide
  kend := by decide
  plenty := ⟨rfl, by decide⟩

def Kernel.SeesStore (s : Kernel) (p : Slot) (pagetable va : ℕ) (byte : UInt8) : Prop :=
  (s.proc p).pagetable = some pagetable ∧
    (s.withRam { s.files.ram with mem := s.files.ram.mem.userStore pagetable va byte }).view p va ≠ s.view p va

instance (s : Kernel) (p : Slot) (pagetable va : ℕ) (byte : UInt8) : Decidable (s.SeesStore p pagetable va byte) := by
  unfold Kernel.SeesStore
  infer_instance

-- The first process forks, and the child writes to its copy of the first byte.
theorem fork_isolation_first : ∃ s t u : Kernel, ∃ np, s.Reachable ∧ s.Forked t Sched.first np ∧
    t.MemoryStep np u ∧ u.view np 0 ≠ t.view np 0 ∧
    (∀ va, va < TRAPFRAME → u.view Sched.first va = t.view Sched.first va) ∧
    Disjoint ((u.proc Sched.first).userPages u.files.ram.mem) ((u.proc np).userPages u.files.ram.mem) := by
  have hrun : decide (wp Kernel.userinit (fun _ s => (s.proc Sched.first).Running ∧
      wp (fork Sched.first) (fun r t => r = 2 ∧ ∀ np, (s.proc np).state = .unused → (t.proc np).state = .runnable →
        t.SeesStore np 556967 0 0)
      (fun _ => False) s) (fun _ => False) roomyKernel) := by
    decide +kernel
  obtain ⟨_, s, hs, hp, hrun⟩ := exists_of_decide_wp hrun
  have hreach : s.Reachable := .boot roomyKernel_booted hs
  obtain ⟨r, t, ht, hr, hchild⟩ := exists_of_decide_wp (decide_eq_true hrun)
  have ht' : fork Sched.first (s.withRam { s.files.ram with fail := s.files.ram.fail }) = .ok (r, t) := ht
  obtain ⟨hneg, -⟩ | ⟨np, hforked, -, hafter⟩ := fork_isolation hreach hp ht'
  · omega
  · obtain ⟨hpt, hview⟩ := hchild np hforked.unused hforked.runnable
    have hrunning : (t.proc np).Running := ⟨by rw [hforked.runnable]; decide, by rw [hforked.runnable]; decide⟩
    have hstore : t.MemoryStep np _ := .store 556967 0 0 hrunning hpt
    exact ⟨s, t, _, np, hreach, hforked, hstore, hview, (hafter t .refl).2.2 _ hstore,
      (hafter _ (.single hstore.step)).1⟩

end Xv6
