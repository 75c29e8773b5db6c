import Xv6.Kernel.Theorems

namespace Xv6

open Wp KernelM Kernel

-- A state in which the kallocs of a call are still to come.
theorem Kernel.Reachable.withFail {s : Kernel} (h : s.Reachable) (fail : List Bool) :
    ∃ P pipes, (s.withRam { s.files.ram with fail := fail }).Inv P pipes := by
  obtain ⟨P, pipes, hinv⟩ := h.inv
  exact ⟨P, pipes, hinv.untouched ⟨rfl, ⟨rfl, fun _ _ => rfl⟩, rfl⟩⟩

theorem growproc_nonpos {s : Kernel} {p : Slot} {n : Int} (hn : n ≤ 0) :
    wp (growproc p n) (fun r _ => r = 0) (fun _ => True) s := by
  unfold growproc
  simp only [wp_bind, wp_get]
  cases (s.proc p).pagetable with
  | none => trivial
  | some pt =>
      rw [wp_pointer, if_neg (by omega)]
      split
      · rw [wp_bind, wp_ram]
        exact wp_of_forall (fun _ _ => rfl) fun _ => trivial
      · rfl

-- A process that asks to give back more than it has is told that it has. fail says which
-- kallocs find no page.
theorem sbrk_changes_size {s : Kernel} (h : s.Reachable) {p : Slot} (hp : (s.proc p).Running) (n : BitVec 32)
    (fail : List Bool) :
    wp (sysSbrk p n) (fun r t => 0 ≤ ((s.proc p).sz : Int) + n.toInt ↔
      (r ≠ -1 → r = (s.proc p).sz ∧ ((t.proc p).sz : Int) = (s.proc p).sz + n.toInt) ∧
      (r = -1 → (t.proc p).sz = (s.proc p).sz ∧ ∀ va < TRAPFRAME, t.view p va = s.view p va))
      (fun _ => False) (s.withRam { s.files.ram with fail := fail }) := by
  obtain ⟨P, pipes, hinv⟩ := h.withFail fail
  have hnonpos : wp (growproc p n.toInt) (fun r _ => n.toInt ≤ 0 → r = 0) (fun _ => True)
      (s.withRam { s.files.ram with fail := fail }) := by
    by_cases hn : n.toInt ≤ 0
    · exact wp_post (growproc_nonpos hn) fun r t hr _ => hr
    · exact wp_of_forall (fun r t hle => absurd hle hn) fun _ => trivial
  unfold sysSbrk
  simp only [wp_bind, wp_get]
  refine wp_mono (wp_and (growproc_spec hinv hp.1 n.le_toInt n.toInt_lt) hnonpos) (fun r t ht => ?_) fun _ he => he.1
  obtain ⟨⟨-, -, hres⟩, hzero⟩ := ht
  change _ ∧ ((t.proc p).sz : Int) = (if 0 ≤ ((s.proc p).sz : Int) + n.toInt then ((s.proc p).sz : Int) + n.toInt
    else (s.proc p).sz) ∨ _ ∧ (t.proc p).sz = (s.proc p).sz ∧ (∀ va < TRAPFRAME, t.view p va = s.view p va) at hres
  rcases hres with ⟨rfl, hsz⟩ | ⟨rfl, hsz, hview⟩
  · have hold : (((s.proc p).sz : ℕ) : Int) ≠ -1 := by omega
    simp only [lt_irrefl, ite_false, wp_pure]
    refine ⟨fun hn => ⟨fun _ => ⟨rfl, hsz.trans (if_pos hn)⟩, fun hneg => absurd hneg hold⟩, fun hnew => ?_⟩
    obtain ⟨-, hnew⟩ := hnew.1 hold
    by_contra hn
    rw [if_neg hn] at hsz
    omega
  · have hpos : ¬n.toInt ≤ 0 := fun hle => absurd (hzero hle) (by decide)
    simp only [show (-1 : Int) < 0 by decide, ite_true, wp_pure]
    refine iff_of_true (by omega) ⟨fun hne => absurd rfl hne, fun _ => ⟨hsz, hview⟩⟩

-- The first process, which has one page, gives back 96 bytes.
theorem sbrk_changes_size_first : ∃ s : Kernel, s.Reachable ∧ (s.proc Sched.first).Running ∧
    (s.proc Sched.first).sz = PGSIZE ∧
    wp (sysSbrk Sched.first (-96)) (fun r t => r ≠ -1 → r = PGSIZE ∧ ((t.proc Sched.first).sz : Int) = 4000)
      (fun _ => False) s := by
  have hrun : decide (wp Kernel.userinit (fun _ s => (s.proc Sched.first).Running ∧
      (s.proc Sched.first).sz = PGSIZE) (fun _ => False) smallKernel) := by
    decide +kernel
  obtain ⟨_, s, hs, hp, hsz⟩ := exists_of_decide_wp hrun
  have hreach : s.Reachable := .boot smallKernel_booted hs
  have hsbrk := sbrk_changes_size hreach hp (-96) s.files.ram.fail
  refine ⟨s, hreach, hp, hsz, wp_post hsbrk fun r t ht hr => ?_⟩
  obtain ⟨haddr, hnew⟩ := (ht.mp (by rw [hsz]; decide)).1 hr
  rw [haddr, hnew, hsz]
  exact ⟨rfl, by decide⟩

-- The first process asks to shrink by more than it has: sbrk succeeds and nothing changes.
theorem sbrk_below_zero : ∃ s : Kernel, s.Reachable ∧ (s.proc Sched.first).Running ∧
    (s.proc Sched.first).sz = PGSIZE ∧
    wp (sysSbrk Sched.first (-5000)) (fun r t => r ≠ -1 ∧ (t.proc Sched.first).sz = PGSIZE ∧
      ((t.proc Sched.first).sz : Int) ≠ (s.proc Sched.first).sz + (-5000 : BitVec 32).toInt) (fun _ => False) s := by
  have hrun : decide (wp Kernel.userinit (fun _ s => (s.proc Sched.first).Running ∧
      (s.proc Sched.first).sz = PGSIZE ∧
      wp (sysSbrk Sched.first (-5000)) (fun r t => r ≠ -1 ∧ (t.proc Sched.first).sz = PGSIZE ∧
        ((t.proc Sched.first).sz : Int) ≠ (s.proc Sched.first).sz + (-5000 : BitVec 32).toInt) (fun _ => False) s)
      (fun _ => False) smallKernel) := by
    decide +kernel
  obtain ⟨_, s, hs, hp, hsz, hsbrk⟩ := exists_of_decide_wp hrun
  exact ⟨s, .boot smallKernel_booted hs, hp, hsz, hsbrk⟩

end Xv6
