import Xv6.Exec.Theorems
import Xv6.Kernel.Boot
import Xv6.Lib.Transition

namespace Xv6

open Wp Transition FilesM KernelM Ram Kernel

variable {pagetable : ℕ}

inductive KernelCall
  | fork
  | exec (path : Option (List UInt8)) (uargv : ℕ)
  | exit (status : Int)
  | wait (addr : ℕ)
  | sbrk (n : BitVec 32)
  | pipe (fdarray : ℕ)
  | openPath (path : Option (List UInt8)) (omode : BitVec 32)
  | dup (fd : Int)
  | close (fd : Int)

def KernelCall.run (p : Slot) : KernelCall → KernelM Unit
  | fork => discard (Xv6.fork p)
  | exec path uargv => discard (sysExec p path uargv)
  | exit status => Xv6.exit p status
  | wait addr => discard (Xv6.wait p addr)
  | sbrk n => discard (growproc p n.toInt)
  | pipe fdarray => do
      let pagetable ← pointer ((← get).proc p).pagetable
      discard (ofFiles (sysPipe p pagetable fdarray))
  | openPath path omode => discard (ofFiles (sysOpen p path omode))
  | dup fd => discard (ofFiles (sysDup p fd))
  | close fd => discard (ofFiles (sysClose p fd))

-- A store of the program that p runs; the hardware lets it through where the page
-- is writable for the user.
def Mem.userStore (mem : Mem) (pagetable va : ℕ) (byte : UInt8) : Mem :=
  match mem.leaf pagetable va with
  | some pte =>
      if hasFlag pte PTE_U ∧ hasFlag pte PTE_W then mem.memmove (pte2pa pte) (va % PGSIZE) (fun _ => byte) 1 else mem
  | none => mem

-- What happens between two states without a call in progress: a call, which has some
-- of its kallocs fail, a store, a copyout by another call (read, fstat), or a call
-- that works on the file system and on working directories only.
inductive KernelStep (s : Kernel) : Kernel → Prop
  | call (p : Slot) (call : KernelCall) (fail : List Bool) {t : Kernel} (running : (s.proc p).Running)
      (run : call.run p (s.withRam { s.files.ram with fail := fail }) = .ok ((), t)) : KernelStep s t
  | store (p : Slot) (pagetable va : ℕ) (byte : UInt8) (running : (s.proc p).Running)
      (table : (s.proc p).pagetable = some pagetable) :
      KernelStep s (s.withRam { s.files.ram with mem := s.files.ram.mem.userStore pagetable va byte })
  | copyout (p : Slot) (pagetable dstva : ℕ) (src : ℕ → UInt8) (len : ℕ) (running : (s.proc p).Running)
      (table : (s.proc p).pagetable = some pagetable) :
      KernelStep s (s.withRam { s.files.ram with mem := (Xv6.copyout s.files.ram.mem pagetable dstva src len).1 })
  | fileSystem (fs : Fs) (cwd : Slot → Option Ip) (same : ∀ p, cwd p = none ↔ s.files.cwd p = none) :
      KernelStep s { s with files := { s.files with fs := fs, cwd := cwd } }

variable {s t : Kernel} {P : Slot → Multiset ℕ} {pipes : Finset ℕ} {p : Slot}

theorem Kernel.Inv.setFiles {files : Files} {pipes' : Finset ℕ} (h : s.Inv P pipes) (hp : (s.proc p).Running)
    (hmap : Kernel.Mapped { s with files := files } P pipes') (hexact : Files.Exact files.ofile files [] pipes')
    (hmine : Files.Mine p s.files files) : Kernel.Inv { s with files := files } P pipes' := by
  refine ⟨hmap, hexact, h.vacant, h.live, fun i hi => ?_, fun i hi fd => ?_⟩
  · change files.cwd i ≠ none
    rw [hmine.cwd]
    exact h.cwd i hi
  · have hne : i ≠ p := by
      rintro rfl
      exact hi hp
    change files.ofile i fd = none
    rw [hmine.ofile i hne]
    exact h.closed i hi fd

theorem Kernel.Inv.done {files : Files} (h : s.Inv P pipes) (hp : (s.proc p).Running)
    (hdone : Files.Done pipes s.files files) (hmine : Files.Mine p s.files files) :
    Kernel.Next { s with files := files } pipes := by
  obtain ⟨pipes', hexact, huses⟩ := hdone
  exact ⟨P, pipes', h.setFiles hp (h.mapped.files huses) hexact hmine, .of_uses huses⟩

-- sys_pipe writes the descriptors to memory of p.
theorem sysPipe_next (h : s.Inv P pipes) (hp : (s.proc p).Running)
    (hpt : (s.proc p).pagetable = some pagetable) (fdarray : ℕ) :
    wp (ofFiles (sysPipe p pagetable fdarray)) (fun _ t => t.Next pipes) ExpectedStop s := by
  obtain ⟨pt, tf, n, L, hfull⟩ := h.full hp.1
  obtain rfl : pagetable = pt := Option.some.inj (hpt.symm.trans hfull.pagetable)
  have hown := h.mapped.divided.owned.congr (pages_split s P pipes p).symm
  have hspace : s.files.ram.Owned (pipes.val + s.files.ram.space pagetable L n) := by
    refine hown.left.mono (add_le_add le_rfl ?_)
    rw [hfull.own]
    exact Multiset.le_add_left _ _
  refine wp_files_of (Files.sysPipe_done h.files hfull.space (trapTop_guarded _ _) hspace fdarray)
    fun _ files hfiles => ?_
  obtain ⟨⟨pipes', hexact, huses⟩, hmine⟩ := hfiles
  have hsplit : ∀ A : Multiset ℕ, A + P p = (A + frames L 0 n) + ({tf} + s.files.ram.mem.tables 2 pagetable) := by
    intro A
    rw [hfull.own, Ram.space]
    ac_rfl
  have hall := huses.frame ({tf} + s.files.ram.mem.tables 2 pagetable)
  rw [← hsplit, ← hsplit] at hall
  have hkept := huses.kept (hown.left.congr (hsplit _).symm)
  have htables : ∀ q ∈ s.files.ram.mem.tables 2 pagetable, files.ram.mem q = s.files.ram.mem q := fun q hq =>
    hkept q (Multiset.mem_add.mpr (.inr hq))
  have hhas : (s.proc p).Has files.ram.mem s.trampoline (P p) := by
    rw [hfull.own, Ram.space, ← Mem.tables_congr htables]
    exact .full hfull.pagetable hfull.trapframe (hfull.space.congr htables) hfull.fits
  have hmap := h.mapped.step (p := p) (t := { s with files := files }) hall (fun _ _ => ⟨rfl, rfl, rfl⟩) hhas
    rfl rfl rfl rfl
  rw [Function.update_eq_self] at hmap
  exact ⟨P, pipes', h.setFiles hp hmap hexact hmine, .of_frame huses⟩

theorem KernelCall.run_next (h : s.Inv P pipes) (hp : (s.proc p).Running) (call : KernelCall) :
    wp (call.run p) (fun _ t => t.Next pipes) ExpectedStop s := by
  cases call with
  | fork => exact wp_discard (wp_post (fork_spec h hp) fun _ _ hpost => hpost.1)
  | exec path uargv =>
      refine wp_discard (wp_mono (sysExec_inv h hp path uargv) (fun _ t ht => ?_) fun _ he => .inl he)
      obtain ⟨Q, ht⟩ := ht
      exact ht.next
  | exit status => exact exit_inv h hp status
  | wait addr =>
      refine wp_discard (wp_post (wait_inv h hp addr) fun _ t ht => ?_)
      obtain ⟨Q, ht⟩ := ht
      exact ht.next
  | sbrk n =>
      refine wp_discard (wp_post (growproc_inv h hp.1 n.le_toInt n.toInt_lt) fun _ t ht => ?_)
      obtain ⟨⟨Q, ht⟩, -⟩ := ht
      exact ht.next
  | pipe fdarray =>
      obtain ⟨pt, tf, n, L, hfull⟩ := h.full hp.1
      simp only [KernelCall.run, wp_bind, wp_get, hfull.pagetable, wp_pointer]
      exact wp_discard (sysPipe_next h hp hfull.pagetable fdarray)
  | openPath path omode =>
      exact wp_discard (wp_files_of (Files.sysOpen_done h.files h.pipesOwned (h.cwd p hp) path omode)
        fun _ files hpost => h.done hp hpost.1 hpost.2)
  | dup fd =>
      exact wp_discard (wp_files_of (Files.sysDup_done h.files fd) fun _ files hpost => h.done hp hpost.1 hpost.2)
  | close fd =>
      exact wp_discard (wp_files_of (Files.sysClose_done h.files h.pipesOwned fd)
        fun _ files hpost => h.done hp hpost.1 hpost.2)

theorem store_inv (h : s.Inv P pipes) (hp : (s.proc p).Running)
    (hpt : (s.proc p).pagetable = some pagetable) (va : ℕ) (byte : UInt8) :
    let t := s.withRam { s.files.ram with mem := s.files.ram.mem.userStore pagetable va byte }
    (∃ Q, t.Inv Q pipes) ∧ s.Local t p (P p) := by
  obtain ⟨pt, tf, n, L, hfull⟩ := h.full hp.1
  obtain rfl : pagetable = pt := Option.some.inj (hpt.symm.trans hfull.pagetable)
  have hsame : s.Local s p (P p) := hfull.ramLocal (.refl _ _)
  intro t
  unfold t Mem.userStore
  split
  · rename_i pte hleaf
    split
    · rename_i hflags
      have hmem := hfull.space.leaf_mem (trapTop_guarded _ _) hleaf hflags.1
      obtain ⟨hspace, huses⟩ := hfull.space.write (hfull.owned (h.mapped.owned p)) hmem _
      exact ⟨⟨_, h.withRam hp.1 hfull hspace huses⟩, hfull.ramLocal huses⟩
    · exact ⟨⟨P, h⟩, hsame⟩
  · exact ⟨⟨P, h⟩, hsame⟩

theorem copyout_local (h : s.Inv P pipes) (hp : (s.proc p).Running)
    (hpt : (s.proc p).pagetable = some pagetable) (dstva : ℕ) (src : ℕ → UInt8) (len : ℕ) :
    let t := s.withRam { s.files.ram with mem := (Xv6.copyout s.files.ram.mem pagetable dstva src len).1 }
    (∃ Q, t.Inv Q pipes) ∧ s.Local t p (P p) := by
  intro t
  have hcopy : wp (ram (copyoutRam pagetable dstva src len))
      (fun _ t => (∃ Q, t.Inv Q pipes) ∧ t.proc = s.proc ∧ s.Local t p (P p)) (fun _ => False) s :=
    copyout_inv h hp.1 hpt dstva src len
  obtain ⟨hinv, -, hlocal⟩ := wp_ram.mp hcopy
  exact ⟨hinv, hlocal⟩

theorem KernelStep.next (h : s.Inv P pipes) (hstep : KernelStep s t) : t.Next pipes := by
  cases hstep with
  | call p call fail running run =>
      have hfail : Untouched s (s.withRam { s.files.ram with fail := fail }) := ⟨rfl, ⟨rfl, fun _ _ => rfl⟩, rfl⟩
      exact (wp_of_ok run).mp (KernelCall.run_next (h.untouched hfail) running call)
  | store p pagetable va byte running table =>
      obtain ⟨⟨Q, hinv⟩, -⟩ := store_inv h running table va byte
      exact hinv.next
  | copyout p pagetable dstva src len running table =>
      obtain ⟨⟨Q, hinv⟩, -⟩ := copyout_local h running table dstva src len
      exact hinv.next
  | fileSystem fs cwd same =>
      refine Inv.next (P := P) ⟨⟨h.mapped.has, h.mapped.divided, h.mapped.trampoline, h.mapped.kend⟩,
        h.files.of_eq rfl rfl, h.vacant, h.live, fun i hi hnone => h.cwd i hi ((same i).mp hnone), h.closed⟩

theorem KernelStep.exists_of_wp {call : KernelCall} {post : Kernel → Prop} (hp : (s.proc p).Running)
    (h : wp (call.run p) (fun _ t => post t) (fun _ => False) s) : ∃ t, KernelStep s t ∧ post t := by
  unfold wp at h
  split at h
  · rename_i t hrun
    exact ⟨t, .call p call s.files.ram.fail hp hrun, h⟩
  · exact h.elim

inductive Kernel.Reachable : Kernel → Prop
  | boot {s t : Kernel} (booted : s.Booted) (init : Kernel.userinit s = .ok ((), t)) : Reachable t
  | step {s t : Kernel} (before : Reachable s) (step : KernelStep s t) : Reachable t

theorem Kernel.Reachable.inv (h : s.Reachable) : ∃ P pipes, s.Inv P pipes := by
  induction h with
  | boot booted init =>
      obtain ⟨Q, hinv⟩ := (wp_of_ok init).mp (Kernel.userinit_inv booted)
      exact ⟨Q, ∅, hinv⟩
  | step before step ih =>
      obtain ⟨P, pipes, hinv⟩ := ih
      obtain ⟨Q, pipes', hinv', -⟩ := step.next hinv
      exact ⟨Q, pipes', hinv'⟩

end Xv6
