import Xv6.Kernel.Isolation
import Xv6.Kernel.Sbrk
import Xv6.Vm.Copyin

namespace Xv6

open Wp KernelM Kernel

-- The arguments that sys_exec takes from the user.

theorem copyinstrLoop_nul (mem : Mem) (pagetable fuel srcva max : ℕ)
    (h : ¬(copyinstrLoop mem pagetable fuel srcva max).2 < 0) :
    0 ∈ (copyinstrLoop mem pagetable fuel srcva max).1 := by
  induction fuel generalizing srcva max with
  | zero => exact absurd (show (-1 : Int) < 0 by decide) h
  | succ fuel ih =>
      rw [copyinstrLoop] at h ⊢
      split at h
      · exact absurd (by decide) h
      rename_i hmax
      rw [if_neg hmax]
      simp only at h ⊢
      split at h
      · exact absurd (by decide) h
      rename_i hpa
      rw [if_neg hpa]
      split at h
      · rename_i hnul
        rw [if_pos hnul]
        simp
      · rename_i hnul
        rw [if_neg hnul]
        exact List.mem_append_right _ (ih _ _ h)

theorem length_takeWhile_lt {bytes : List UInt8} (h : 0 ∈ bytes) :
    (bytes.takeWhile (· ≠ 0)).length < bytes.length := by
  induction bytes with
  | nil => cases h
  | cons b bytes ih =>
      by_cases hb : b = 0
      · simp [hb]
      · have hmem : 0 ∈ bytes := (List.mem_cons.mp h).resolve_left (Ne.symm hb)
        have := ih hmem
        rw [List.takeWhile_cons_of_pos (by simpa using hb), List.length_cons, List.length_cons]
        omega

theorem fetchPage_short {r : Ram} (pagetable addr page : ℕ) :
    wp (fetchPage pagetable addr page) (fun arg _ => ∀ a ∈ arg, a.length < PGSIZE ∧ 0 ∉ a) (fun _ => False) r := by
  unfold fetchPage
  simp only [wp_bind, wp_get, wp_modify, wp_ite, wp_pure]
  split
  · exact fun a ha => (Option.not_mem_none a ha).elim
  · rename_i hok
    intro a ha
    obtain rfl := Option.mem_some_iff.mp ha
    have hlength := copyinstrLoop_length r.mem pagetable PGSIZE addr PGSIZE
    have hlt := length_takeWhile_lt (copyinstrLoop_nul r.mem pagetable PGSIZE addr PGSIZE hok)
    refine ⟨lt_of_lt_of_le hlt hlength, fun hmem => ?_⟩
    have hne := List.all_eq_true.mp List.all_takeWhile 0 hmem
    simp at hne

theorem argvLoop_short {r : Ram} (pagetable size uargv : ℕ) (count i : ℕ) :
    wp (argvLoop pagetable size uargv count i) (fun res _ => ∀ argv ∈ res.2, (argv.length < count ∧
      ∀ arg ∈ argv, arg.length < PGSIZE ∧ 0 ∉ arg)) (fun _ => False) r := by
  induction count generalizing r i with
  | zero => exact fun a ha => (Option.not_mem_none a ha).elim
  | succ count ih =>
      rw [argvLoop]
      simp only [wp_bind, wp_get]
      split
      · exact fun a ha => (Option.not_mem_none a ha).elim
      · intro argv hargv
        obtain rfl := Option.mem_some_iff.mp hargv
        exact ⟨Nat.succ_pos _, fun arg harg => (List.not_mem_nil harg).elim⟩
      simp only [wp_bind]
      refine wp_post (kalloc_spec r) fun res u _ => ?_
      cases res with
      | none => exact fun a ha => (Option.not_mem_none a ha).elim
      | some page =>
          simp only [wp_bind]
          refine wp_post (fetchPage_short _ _ page) fun arg w harg => ?_
          cases arg with
          | none => exact fun a ha => (Option.not_mem_none a ha).elim
          | some arg =>
              rw [wp_bind]
              refine wp_post (ih _) fun res x hx => ?_
              intro argv hargv
              obtain ⟨rest, hrest, rfl⟩ := Option.map_eq_some_iff.mp hargv
              obtain ⟨hcount, hshort⟩ := hx rest hrest
              refine ⟨by rw [List.length_cons]; omega, fun a ha => ?_⟩
              rcases List.mem_cons.mp ha with rfl | ha
              · exact harg a rfl
              · exact hshort a ha

-- sys_exec has taken the strings argv, and t is the state in which it calls exec. fail
-- says which kallocs find no page.
structure ExecCall (s : Kernel) (p : Slot) (uargv : ℕ) (fail : List Bool) (argv : List (List UInt8)) (t : Kernel) :
    Prop where
  ran : ∃ pagetable pages ram, (s.proc p).pagetable = some pagetable ∧ t = s.withRam ram ∧
    argvLoop pagetable (s.proc p).sz uargv MAXARG 0 { s.files.ram with fail := fail } = .ok ((pages, some argv), ram)

variable {s t u : Kernel} {p : Slot} {uargv : ℕ} {fail : List Bool} {argv : List (List UInt8)}

theorem ExecCall.args (h : ExecCall s p uargv fail argv t) : Args argv := by
  obtain ⟨pagetable, pages, ram, -, -, hrun⟩ := h.ran
  have hshort := argvLoop_short (r := { s.files.ram with fail := fail }) pagetable (s.proc p).sz uargv MAXARG 0
  rw [wp_of_ok hrun] at hshort
  obtain ⟨hcount, hall⟩ := hshort argv rfl
  exact ⟨hcount, fun arg harg => (hall arg harg).1, fun arg harg => (hall arg harg).2⟩

theorem ExecCall.ready (h : ExecCall s p uargv fail argv t) (hs : s.Reachable) (hp : (s.proc p).Running) :
    ∃ own old tf n L, ExecReady t p own old tf n L := by
  obtain ⟨pagetable, pages, ram, hpt, rfl, hrun⟩ := h.ran
  obtain ⟨P, pipes, hinv⟩ := hs.withFail fail
  obtain ⟨old, tf, n, L, hready⟩ := hinv.execReady hp
  have huses : wp (argvLoop pagetable (s.proc p).sz uargv MAXARG 0)
      (fun res ram => Ram.Uses 0 ↑res.1 { s.files.ram with fail := fail } ram) (fun _ => False)
      { s.files.ram with fail := fail } := argvLoop_spec
  rw [wp_of_ok hrun] at huses
  exact ⟨P p, old, tf, n, L, hready.withRam huses⟩

def Kernel.Sees (s : Kernel) (p : Slot) (va : ℕ) (b : UInt8) : Prop :=
  ∃ flags, s.view p va = some (flags, b) ∧ hasFlag flags PTE_U = true ∧ hasFlag flags PTE_R = true

def Kernel.SeesWord (s : Kernel) (p : Slot) (va word : ℕ) : Prop :=
  ∀ k < 8, s.Sees p (va + k) (UInt8.ofNat (word / 256 ^ k))

-- The arguments in the memory of p: the array at sp and the strings at ptr.
structure ArgStack (s : Kernel) (p : Slot) (argv : List (List UInt8)) (sp : ℕ) (ptr : ℕ → ℕ) : Prop where
  aligned : sp % 16 = 0
  array : ∀ i < argv.length, s.SeesWord p (sp + 8 * i) (ptr i)
  null : s.SeesWord p (sp + 8 * argv.length) 0
  string : ∀ (i : ℕ) (hi : i < argv.length), ∀ k ≤ argv[i].length, s.Sees p (ptr i + k) (argv[i].getD k 0)
  above : ∀ i < argv.length, sp + 8 * (argv.length + 1) ≤ ptr i
  apart : ∀ (i j : ℕ) (hj : j < argv.length), i < j → ptr j + (argv[j].length + 1) ≤ ptr i
  inside : 2 * PGSIZE ≤ (s.proc p).sz ∧ (s.proc p).sz - PGSIZE ≤ sp ∧ sp + 8 * (argv.length + 1) ≤ (s.proc p).sz ∧
    ∀ (i : ℕ) (hi : i < argv.length), ptr i + (argv[i].length + 1) ≤ (s.proc p).sz
  guard : ∀ va, (s.proc p).sz - 2 * PGSIZE ≤ va → va < (s.proc p).sz - PGSIZE →
    ∃ flags b, s.view p va = some (flags, b) ∧ hasFlag flags PTE_U = false

-- The subtractions sp -= n that exec makes, as (sp, n), with the index into ustack that
-- comes with each.
def stackSteps (stackbase : ℕ) : (argv : List (List UInt8)) → (sp argc : ℕ) → List (ℕ × ℕ × ℕ)
  | [], sp, argc => [(sp, (argc + 1) * 8, argc)]
  | arg :: argv, sp, argc =>
      if argc ≥ MAXARG then []
      else
        (sp, arg.length + 1, argc) ::
          if pushDown sp (arg.length + 1) < stackbase then []
          else stackSteps stackbase argv (pushDown sp (arg.length + 1)) (argc + 1)

-- When pushArgs returns, it has made all of these subtractions but the last, and the last is at
-- the sp and the argc that it returns.
theorem pushArgs_stackSteps {r : Ram} (pagetable stackbase : ℕ) (argv : List (List UInt8)) (sp : ℕ) (ustack : List ℕ) :
    wp (pushArgs pagetable stackbase argv sp ustack) (fun res _ => ∀ sp' ustack', res = some (sp', ustack') →
      ∃ steps, stackSteps stackbase argv sp ustack.length =
          steps ++ [(sp', (ustack'.length + 1) * 8, ustack'.length)] ∧
        ustack' = ustack ++ steps.map fun x => pushDown x.1 x.2.1) (fun _ => True) r := by
  induction argv generalizing r sp ustack with
  | nil =>
      rintro _ _ ⟨⟩
      exact ⟨[], rfl, (List.append_nil _).symm⟩
  | cons arg argv ih =>
      rw [pushArgs, stackSteps]
      simp only [wp_ite, wp_bind, wp_pure]
      split
      · simp
      split
      · simp
      refine wp_of_forall (fun _ u => ?_) fun _ => trivial
      split
      · simp
      refine wp_post (ih _ _) fun res _ hres sp' ustack' hsome => ?_
      obtain ⟨steps, hsteps, hustack⟩ := hres sp' ustack' hsome
      rw [List.length_append, List.length_singleton] at hsteps
      exact ⟨_ :: steps, congrArg _ hsteps, by rw [hustack, List.append_assoc]; rfl⟩

theorem stackSteps_safe {stackbase sp argc : ℕ} (hbase : PGSIZE ≤ stackbase) (hsp : sp < 2 ^ 64) (halign : sp % 16 = 0)
    (hlo : stackbase ≤ sp) (hcount : argc + argv.length < MAXARG) (hshort : ∀ arg ∈ argv, arg.length < PGSIZE) :
    ∀ x ∈ stackSteps stackbase argv sp argc, x.2.1 ≤ x.1 ∧ x.2.2 < MAXARG := by
  have hsize : PGSIZE = 4096 := rfl
  have hmaxarg : MAXARG = 32 := rfl
  induction argv generalizing sp argc with
  | nil =>
      intro x hx
      obtain rfl := List.mem_singleton.mp hx
      rw [List.length_nil] at hcount
      exact ⟨show (argc + 1) * 8 ≤ sp by omega, show argc < MAXARG by omega⟩
  | cons arg argv ih =>
      have harg := hshort arg List.mem_cons_self
      obtain ⟨hdown, hle⟩ := pushDown_eq (by omega) halign (show arg.length + 1 ≤ sp by omega)
      have hmod := pad16_mod (arg.length + 1)
      rw [List.length_cons] at hcount
      intro x hx
      rw [stackSteps, if_neg (by omega), hdown] at hx
      rcases List.mem_cons.mp hx with rfl | hx
      · exact ⟨show arg.length + 1 ≤ sp by omega, show argc < MAXARG by omega⟩
      split at hx
      · cases hx
      · exact ih (by omega) (by omega) (by omega) (by omega)
          (fun arg' h' => hshort arg' (List.mem_cons_of_mem _ h')) x hx

section Runs

variable {path : List UInt8} {old tf n pt : ℕ} {L : ℕ → Option ℕ} {elf : ElfHdr} {a b : Program}

theorem Replaced.proc (h : Replaced s u p path old tf n L pt b.n b.sz b.L) :
    (u.proc p).pagetable = some pt ∧ (u.proc p).sz = b.sz ∧ (u.proc p).trapframe = (s.proc p).trapframe := by
  rw [h.same, setProc_self]
  exact ⟨rfl, rfl, rfl⟩

theorem Runs.view (h : Runs u tf argv elf a b) (hr : Replaced s u p path old tf n L pt b.n b.sz b.L) {va : ℕ}
    (hva : va < b.sz) : ∃ pte, b.L (va / PGSIZE) = some pte ∧ u.view p va = some (pteFlags pte, b.img va) := by
  rw [h.stacked.sz] at hva
  have hpage : va / PGSIZE < b.n := (Nat.div_lt_iff_lt_mul (by decide)).mpr hva
  have hmax : va < TRAPFRAME :=
    calc va < b.n * PGSIZE := hva
      _ ≤ TRAPFRAME / PGSIZE * PGSIZE := Nat.mul_le_mul_right _ h.low
      _ ≤ TRAPFRAME := Nat.div_mul_le_self _ _
  obtain ⟨pte, hL, -⟩ := h.image _ hpage
  refine ⟨pte, hL, ?_⟩
  rw [Kernel.view, hr.proc.1, Option.bind_some]
  exact h.image.view hr.space hpage hmax hL

theorem Runs.sees (h : Runs u tf argv elf a b) (hr : Replaced s u p path old tf n L pt b.n b.sz b.L) {va : ℕ}
    (hlo : b.sz - PGSIZE ≤ va) (hva : va < b.sz) : u.Sees p va (b.img va) := by
  have hsize : PGSIZE = 4096 := rfl
  obtain ⟨pte, hL, hview⟩ := h.view hr hva
  have hpage : va / PGSIZE = a.n + 1 := by
    rw [h.stacked.sz, h.stacked.pages, hsize] at hlo hva
    rw [hsize]
    omega
  obtain ⟨pa, hstack⟩ := h.stacked.stack
  rw [hpage, hstack] at hL
  cases hL
  refine ⟨_, hview, ?_, ?_⟩
  · rw [hasFlag_pteFlags _ (by decide), hasFlag_mkPte _ _ (by decide)]
    decide
  · rw [hasFlag_pteFlags _ (by decide), hasFlag_mkPte _ _ (by decide)]
    decide

theorem Runs.seesWord (h : Runs u tf argv elf a b) (hr : Replaced s u p path old tf n L pt b.n b.sz b.L) {i : ℕ}
    (hi : i ≤ argv.length) (hsz : PGSIZE ≤ b.sz) :
    u.SeesWord p (b.sz - stackUse argv + 8 * i) ((argPtrs b.sz argv).getD i 0) := by
  have hfits := h.stacked.fits
  have hpad := le_pad16 ((argv.length + 1) * 8)
  have huse : stackUse argv = argSpace argv + pad16 ((argv.length + 1) * 8) := rfl
  intro k hk
  have hsees := h.sees hr (show b.sz - PGSIZE ≤ b.sz - stackUse argv + 8 * i + k by omega) (by omega)
  rw [h.stacked.img, stackImage, overlay_of_mem (by omega), ustackBytes,
    show (b.sz - stackUse argv + 8 * i + k - (b.sz - stackUse argv)) = 8 * i + k by omega,
    show (8 * i + k) / 8 = i by omega, show (8 * i + k) % 8 = k by omega] at hsees
  exact hsees

theorem Runs.argStack (h : Runs u tf argv elf a b) (hr : Replaced s u p path old tf n L pt b.n b.sz b.L) :
    ArgStack u p argv (b.sz - stackUse argv) fun i => b.sz - argSpace (argv.take (i + 1)) := by
  have hsize : PGSIZE = 4096 := rfl
  have hfits := h.stacked.fits
  have hpad := le_pad16 ((argv.length + 1) * 8)
  have hmod := argSpace_mod argv
  have hmod' := pad16_mod ((argv.length + 1) * 8)
  have huse : stackUse argv = argSpace argv + pad16 ((argv.length + 1) * 8) := rfl
  have hsz : b.sz = (a.n + 2) * PGSIZE := by
    rw [h.stacked.sz, h.stacked.pages]
  have htwo : 2 * PGSIZE ≤ b.sz := by
    rw [hsz]
    exact Nat.mul_le_mul_right _ (by omega)
  have halign : b.sz % 16 = 0 := by
    rw [hsz, hsize]
    omega
  have hle : ∀ i, argSpace (argv.take i) ≤ argSpace argv := argSpace_take_le argv
  have hroom : ∀ (i : ℕ) (hi : i < argv.length),
      argSpace (argv.take i) + (argv[i].length + 1) ≤ argSpace (argv.take (i + 1)) := by
    intro i hi
    have := le_pad16 (argv[i].length + 1)
    rw [argSpace_take_succ argv hi]
    omega
  have hproc : (u.proc p).sz = b.sz := hr.proc.2.1
  refine ⟨by omega, fun i hi => ?_, ?_, fun i hi k hk => ?_, fun i hi => ?_, fun i j hj hij => ?_, ?_,
    fun va hlo hhi => ?_⟩
  · have hword := h.seesWord hr hi.le (by omega)
    rwa [List.getD_eq_getElem?_getD, List.getElem?_eq_getElem (by rwa [length_argPtrs]), Option.getD_some,
      getElem_argPtrs] at hword
  · have hword := h.seesWord hr le_rfl (by omega)
    rwa [List.getD_eq_getElem?_getD, List.getElem?_eq_none (by rw [length_argPtrs]), Option.getD_none] at hword
  · have := hle (i + 1)
    have := hroom i hi
    have hsees := h.sees hr (show b.sz - PGSIZE ≤ b.sz - argSpace (argv.take (i + 1)) + k by omega) (by omega)
    rwa [h.stacked.img, stackImage, overlay_of_notMem (by omega), pushed_string _ (by omega) hi hk] at hsees
  · have := hle (i + 1)
    omega
  · have := hle (j + 1)
    have := hroom j hj
    have := argSpace_take_mono argv (show i + 1 ≤ j by omega)
    omega
  · rw [hproc]
    refine ⟨htwo, by omega, by omega, fun i hi => ?_⟩
    have := hle (i + 1)
    have := hroom i hi
    omega
  · rw [hproc] at hlo hhi
    obtain ⟨pte, hL, hview⟩ := h.view hr (show va < b.sz by omega)
    have hpage : va / PGSIZE = a.n := by
      rw [hsz, hsize] at hlo hhi
      rw [hsize]
      omega
    obtain ⟨pte', hL', hu⟩ := h.stacked.guard
    rw [hpage, hL'] at hL
    cases hL
    refine ⟨_, _, hview, ?_⟩
    rw [hasFlag_pteFlags _ (by decide), hu]

end Runs

-- The size of a program that is loaded leaves room for the stack.
theorem execLoad_size {own : Multiset ℕ} {old tf n pt sz : ℕ} {L : ℕ → Option ℕ} {path : List UInt8} {elf : ElfHdr}
    (h : ExecReady t p own old tf n L) (hload : execLoad p path t = .ok (some (elf, pt, sz), u)) :
    ∃ m, pgRoundUp sz = m * PGSIZE ∧ m ≤ TRAPFRAME / PGSIZE := by
  have hspec := execLoad_spec path h
  rw [wp_of_ok hload] at hspec
  obtain ⟨hnone, -⟩ | ⟨elf', pt', ip, a, hsome, -, hbuilding, -⟩ := hspec
  · cases hnone
  · cases hsome
    have hn := le_trapframe (hbuilding.toLoading.owned hbuilding.owned).right
    have hlt : a.n * PGSIZE < 2 ^ 64 := lt_of_le_of_lt (mul_le_maxva hn) (by decide)
    exact ⟨a.n, hbuilding.fits.roundUp hlt, hn⟩

-- exec, as sys_exec calls it with the strings argv.
theorem exec_arguments (hs : s.Reachable) (hp : (s.proc p).Running) (hcall : ExecCall s p uargv fail argv t)
    (path : List UInt8) :
    wp (exec p path argv) (fun r u =>
      (r ≠ -1 → r = argv.length ∧ ∃ tf sp ptr, (u.proc p).trapframe = some tf ∧
        Bytes.load (u.files.ram.mem tf) TF_SP 8 = sp ∧ Bytes.load (u.files.ram.mem tf) TF_A1 8 = sp ∧
        ArgStack u p argv sp ptr) ∧
      ∀ elf pagetable sz w, execLoad p path t = .ok (some (elf, pagetable, sz), w) →
        (∀ x ∈ stackSteps (((pgRoundUp sz + 2 * PGSIZE) % 2 ^ 64 + 2 ^ 64 - PGSIZE) % 2 ^ 64) argv
          ((pgRoundUp sz + 2 * PGSIZE) % 2 ^ 64) 0, x.2.1 ≤ x.1 ∧ x.2.2 < MAXARG) ∧
        (¬NoStack pagetable sz w.files.ram → (r = -1 ↔ PGSIZE < stackUse argv))) OnlyFsStop t := by
  obtain ⟨own, old, tf, n, L, hready⟩ := hcall.ready hs hp
  have hargs := hcall.args
  refine wp_post (exec_ran hready) fun r u hran => ?_
  refine ⟨fun hr => ?_, fun elf pagetable sz w hload => ⟨?_, fun hstack => ?_⟩⟩
  · rcases hran with ⟨rfl, -⟩ | ⟨hr', elf, pt, a, b, w, -, hreplaced, hruns, -⟩
    · exact absurd rfl hr
    obtain ⟨-, hrun⟩ := hruns hargs
    refine ⟨hr', tf, _, _, ?_, hrun.started.sp, hrun.started.a1, hrun.argStack hreplaced⟩
    rw [hreplaced.proc.2.2]
    exact hready.trapframe
  · obtain ⟨m, hround, hm⟩ := execLoad_size hready hload
    have hsize : PGSIZE = 4096 := rfl
    have hmax := mul_le_maxva hm
    have hmaxva : MAXVA = 2 ^ 38 := rfl
    have htop : (m * PGSIZE + 2 * PGSIZE) % 2 ^ 64 = m * PGSIZE + 2 * PGSIZE := Nat.mod_eq_of_lt (by omega)
    have hbase : (m * PGSIZE + 2 * PGSIZE + 2 ^ 64 - PGSIZE) % 2 ^ 64 = m * PGSIZE + PGSIZE := by omega
    rw [hround, htop, hbase]
    refine stackSteps_safe (by omega) (by omega) ?_ (by omega) ?_ hargs.short
    · rw [hsize]
      omega
    · rw [Nat.zero_add]
      exact hargs.count
  · rcases hran with ⟨rfl, -, hwhy⟩ | ⟨rfl, elf', pt', a, b, w', hload', -, hruns, -⟩
    · exact ⟨fun _ => (hwhy hargs _ _ _ _ hload).resolve_left hstack, fun _ => rfl⟩
    · obtain ⟨-, hrun⟩ := hruns hargs
      have hfits := hrun.stacked.fits
      exact ⟨fun hneg => by omega, fun hlt => by omega⟩

-- exec, when there is memory and the arguments fit.
theorem exec_succeeds {elf : ElfHdr} {pagetable sz : ℕ} {path : List UInt8} (hs : s.Reachable)
    (hp : (s.proc p).Running) (hcall : ExecCall s p uargv fail argv t)
    (hload : execLoad p path t = .ok (some (elf, pagetable, sz), u)) (hstack : ¬NoStack pagetable sz u.files.ram)
    (hfits : stackUse argv ≤ PGSIZE) : wp (exec p path argv) (fun r _ => r ≠ -1) (fun _ => False) t := by
  obtain ⟨own, old, tf, n, L, hready⟩ := hcall.ready hs hp
  have hspec := execLoad_spec path hready
  rw [wp_of_ok hload] at hspec
  obtain ⟨hnone, -⟩ | ⟨elf', pt', ip, a, hsome, hentry, hbuilding, -⟩ := hspec
  · cases hnone
  cases hsome
  rw [exec, wp_bind, wp_of_ok hload]
  refine wp_post (execCommit_spec hready.toFull hready.owned hbuilding hentry) fun r w hran => ?_
  rcases hran with ⟨-, -, hwhy⟩ | ⟨rfl, -⟩
  · rcases hwhy hcall.args with hno | hlt
    · exact absurd hno hstack
    · omega
  · omega

section Sample

-- An ELF header, a program header at 64 and two bytes of text at 120.
def sampleElf (phoff : ℕ) : ℕ → UInt8 :=
  [(0, 4, ELF_MAGIC), (32, 8, phoff), (56, 2, 1), (64, 4, ELF_PROG_LOAD), (68, 4, 5), (72, 8, 120), (96, 8, 2),
    (104, 8, 4), (120, 2, 0x0013)].foldl (fun b w => Bytes.store b w.1 w.2.1 w.2.2) fun _ => 0

def sampleFile (phoff : ℕ) : List UInt8 := (List.range 122).map (sampleElf phoff)

def sampleRoot : Block := fun k => if k.val = 32 then 2 else if k.val = 34 then 0x61 else mkfsRoot k

-- A file system with the file /a; someone works in the root directory.
def sampleFs (phoff : ℕ) : Fs where
  sb := ⟨FSSIZE, FSSIZE - 46, 200⟩
  dinode x :=
    if x = ROOTINO then ⟨.dir, 0, 0, 1, 48, fun j => if j = 0 then 46 else 0⟩
    else if x = 2 then ⟨.file, 0, 0, 1, 122, fun j => if j = 0 then 47 else 0⟩
    else .zero .free
  bitmap b := b < 48
  data b := if b = 46 then sampleRoot else if b = 47 then fun k => sampleElf phoff k else fun _ => 0
  itable i := if i = Fs.ip0 then ⟨ROOTDEV, ROOTINO, 1, false, false, .zero .free⟩
    else ⟨0, 0, 0, false, false, .zero .free⟩
  outstanding := 0

def Kernel.withFs (s : Kernel) (fs : Fs) : Kernel := { s with files := { s.files with fs := fs } }

theorem Kernel.Reachable.withFs (h : s.Reachable) (fs : Fs) : (s.withFs fs).Reachable :=
  .step h (.fileSystem fs s.files.cwd fun _ => Iff.rfl)

-- "/init", which is at 36 in initcode, with an array of arguments at 43.
def argInit : List UInt8 := [0x2f, 0x69, 0x6e, 0x69, 0x74]

instance (pagetable sz : ℕ) (r : Ram) : Decidable (NoStack pagetable sz r) := by
  unfold NoStack
  infer_instance

structure SampleCall (phoff : ℕ) (s t : Kernel) : Prop where
  reachable : s.Reachable
  running : (s.proc Sched.first).Running
  call : ExecCall s Sched.first 43 s.files.ram.fail [argInit] t
  fs : t.files.fs = sampleFs phoff
  cwd : t.files.cwd Sched.first = some Fs.ip0
  file : wp (execOpen Sched.first Files.pathA) (fun r u => ∃ ip, r = some ip ∧ (u.files.fs.itable ip).inum = 2 ∧
    u.files.fs.contents 2 = sampleFile phoff) (fun _ => False) t
  runs : wp (exec Sched.first Files.pathA [argInit]) (fun r _ => r ≠ -1) (fun _ => False) t

set_option synthInstance.maxSize 1000 in
set_option synthInstance.maxHeartbeats 200000 in
theorem sampleCall_of {phoff : ℕ} (h : decide (wp Kernel.userinit (fun _ s => (s.proc Sched.first).Running ∧
    (s.proc Sched.first).pagetable = some 556960 ∧ s.files.cwd Sched.first = some Fs.ip0 ∧
    wp (argvLoop 556960 (s.proc Sched.first).sz 43 MAXARG 0) (fun res ram => res.2 = some [argInit] ∧
      wp (execOpen Sched.first Files.pathA) (fun r u => ∃ ip, r = some ip ∧ (u.files.fs.itable ip).inum = 2 ∧
        u.files.fs.contents 2 = sampleFile phoff) (fun _ => False) ((s.withFs (sampleFs phoff)).withRam ram) ∧
      wp (execLoad Sched.first Files.pathA) (fun r t => ∃ x ∈ r, ¬NoStack x.2.1 x.2.2 t.files.ram) (fun _ => False)
        ((s.withFs (sampleFs phoff)).withRam ram)) (fun _ => False) s.files.ram)
    (fun _ => False) roomyKernel)) : ∃ s t, SampleCall phoff s t := by
  obtain ⟨_, s, hs, hp, hpt, hcwd, hrun⟩ := exists_of_decide_wp h
  obtain ⟨⟨pages, args⟩, ram, hargv, rfl, hopen, hload⟩ := exists_of_wp hrun
  obtain ⟨r, u, hload, ⟨elf, pagetable, sz⟩, rfl, hstack⟩ := exists_of_wp hload
  have hreach := Kernel.Reachable.withFs (.boot roomyKernel_booted hs) (sampleFs phoff)
  have hcall : ExecCall (s.withFs (sampleFs phoff)) Sched.first 43 s.files.ram.fail [argInit] _ :=
    ⟨556960, pages, ram, hpt, rfl, hargv⟩
  exact ⟨_, _, hreach, hp, hcall, rfl, hcwd, hopen, exec_succeeds hreach hp hcall hload hstack (by decide)⟩

theorem sampleCall : ∃ s t, SampleCall 64 s t := sampleCall_of (by decide +kernel)

end Sample

-- The first process calls exec with one argument.
theorem exec_arguments_init : ∃ s t : Kernel, s.Reachable ∧ (s.proc Sched.first).Running ∧
    ExecCall s Sched.first 43 s.files.ram.fail [argInit] t ∧
    wp (exec Sched.first Files.pathA [argInit]) (fun r u => r = 1 ∧ ∃ tf sp ptr,
      (u.proc Sched.first).trapframe = some tf ∧ Bytes.load (u.files.ram.mem tf) TF_SP 8 = sp ∧
      ArgStack u Sched.first [argInit] sp ptr) (fun _ => False) t := by
  obtain ⟨s, t, h⟩ := sampleCall
  refine ⟨s, t, h.reachable, h.running, h.call, ?_⟩
  have hspec := exec_arguments h.reachable h.running h.call Files.pathA
  refine wp_mono (wp_and h.runs hspec) (fun r u hu => ?_) fun _ he => he.1
  obtain ⟨hargc, tf, sp, ptr, htf, hsp, -, hargs⟩ := hu.2.1 hu.1
  exact ⟨hargc, tf, sp, ptr, htf, hsp, hargs⟩

end Xv6
