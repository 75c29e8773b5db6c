import Xv6.Exec.Load

namespace Xv6

open Wp Ram

variable {i sp : ℕ}

def pad16 (n : ℕ) : ℕ := (n + 15) / 16 * 16

def argSpace (argv : List (List UInt8)) : ℕ := (argv.map fun arg => pad16 (arg.length + 1)).sum

def stackUse (argv : List (List UInt8)) : ℕ := argSpace argv + pad16 ((argv.length + 1) * 8)

def argPtrs : (sp : ℕ) → List (List UInt8) → List ℕ
  | _, [] => []
  | sp, arg :: argv => (sp - pad16 (arg.length + 1)) :: argPtrs (sp - pad16 (arg.length + 1)) argv

def pushed (img : ℕ → UInt8) : (sp : ℕ) → List (List UInt8) → ℕ → UInt8
  | _, [] => img
  | sp, arg :: argv =>
      pushed (overlay img (sp - pad16 (arg.length + 1)) (arg.length + 1) fun k => arg.getD k 0)
        (sp - pad16 (arg.length + 1)) argv

theorem le_pad16 (n : ℕ) : n ≤ pad16 n := by
  unfold pad16
  omega

theorem pad16_mod (n : ℕ) : pad16 n % 16 = 0 := Nat.mul_mod_left _ _

theorem argSpace_cons (arg : List UInt8) (argv : List (List UInt8)) :
    argSpace (arg :: argv) = pad16 (arg.length + 1) + argSpace argv := by
  unfold argSpace
  rw [List.map_cons, List.sum_cons]

theorem argSpace_mod (argv : List (List UInt8)) : argSpace argv % 16 = 0 := by
  induction argv with
  | nil => rfl
  | cons arg argv ih =>
      have hpad := pad16_mod (arg.length + 1)
      rw [argSpace_cons]
      omega

@[simp] theorem length_argPtrs (sp : ℕ) (argv : List (List UInt8)) : (argPtrs sp argv).length = argv.length := by
  induction argv generalizing sp with
  | nil => rfl
  | cons arg argv ih => simp [argPtrs, ih]

-- The i-th string is below those before it, and has its room there.
theorem getElem_argPtrs (sp : ℕ) (argv : List (List UInt8)) (hi : i < (argPtrs sp argv).length) :
    (argPtrs sp argv)[i] = sp - argSpace (argv.take (i + 1)) := by
  induction argv generalizing sp i with
  | nil => simp [argPtrs] at hi
  | cons arg argv ih =>
      cases i with
      | zero => simp [argPtrs, argSpace]
      | succ i =>
          rw [List.take_succ_cons, argSpace_cons]
          simp only [argPtrs, List.getElem_cons_succ]
          rw [ih]
          omega

theorem argSpace_take_le (argv : List (List UInt8)) (i : ℕ) : argSpace (argv.take i) ≤ argSpace argv := by
  induction argv generalizing i with
  | nil => simp
  | cons arg argv ih =>
      cases i with
      | zero => exact Nat.zero_le _
      | succ i =>
          have := ih i
          rw [List.take_succ_cons, argSpace_cons, argSpace_cons]
          omega

theorem argSpace_take_succ (argv : List (List UInt8)) (hi : i < argv.length) :
    argSpace (argv.take (i + 1)) = argSpace (argv.take i) + pad16 (argv[i].length + 1) := by
  unfold argSpace
  rw [List.take_succ_eq_append_getElem hi, List.map_append, List.sum_append]
  rfl

theorem argSpace_take_mono (argv : List (List UInt8)) {j : ℕ} (hij : i ≤ j) :
    argSpace (argv.take i) ≤ argSpace (argv.take j) := by
  have := argSpace_take_le (argv.take j) i
  rwa [List.take_take, Nat.min_eq_left hij] at this

theorem pushed_of_notMem (img : ℕ → UInt8) {o : ℕ} {argv : List (List UInt8)} (hsp : argSpace argv ≤ sp)
    (ho : o < sp - argSpace argv ∨ sp ≤ o) : pushed img sp argv o = img o := by
  induction argv generalizing img sp with
  | nil => rfl
  | cons arg argv ih =>
      have hpad := le_pad16 (arg.length + 1)
      rw [argSpace_cons] at hsp ho
      rw [pushed, ih _ (by omega) (by omega), overlay_of_notMem (by omega)]

theorem pushed_string (img : ℕ → UInt8) {argv : List (List UInt8)} (hsp : argSpace argv ≤ sp)
    (hi : i < argv.length) {k : ℕ} (hk : k ≤ argv[i].length) :
    pushed img sp argv (sp - argSpace (argv.take (i + 1)) + k) = argv[i].getD k 0 := by
  induction argv generalizing img sp i with
  | nil => simp at hi
  | cons arg argv ih =>
      have hpad := le_pad16 (arg.length + 1)
      rw [argSpace_cons] at hsp
      cases i with
      | zero =>
          rw [List.getElem_cons_zero] at hk
          have htake : argSpace ((arg :: argv).take (0 + 1)) = pad16 (arg.length + 1) := by
            simp [argSpace]
          rw [htake, pushed, pushed_of_notMem _ (by omega) (by omega), overlay_of_mem (by omega),
            Nat.add_sub_cancel_left, List.getElem_cons_zero]
      | succ i =>
          rw [List.getElem_cons_succ] at hk
          rw [List.take_succ_cons, argSpace_cons, ← Nat.sub_sub, pushed, List.getElem_cons_succ]
          exact ih _ (by omega) (by simpa using hi) hk

-- The stack pointer does not underflow, and stays aligned.
theorem pushDown_eq {n : ℕ} (hsp : sp < 2 ^ 64) (halign : sp % 16 = 0) (hn : n ≤ sp) :
    pushDown sp n = sp - pad16 n ∧ pad16 n ≤ sp := by
  unfold pushDown pad16
  rw [show sp + 2 ^ 64 - n = (sp - n) + 2 ^ 64 by omega, Nat.add_mod_right, Nat.mod_eq_of_lt (by omega)]
  simp only
  omega

structure Args (argv : List (List UInt8)) : Prop where
  count : argv.length < MAXARG
  short : ∀ arg ∈ argv, arg.length < PGSIZE
  strings : ∀ arg ∈ argv, 0 ∉ arg

section Stack

variable {pt n : ℕ} {L top : ℕ → Option ℕ} {r : Ram} {img : ℕ → UInt8}

structure SameSpace (pt n : ℕ) (L top : ℕ → Option ℕ) (r u : Ram) : Prop where
  space : Space u.mem pt L n top
  uses : Uses (r.space pt L n) (u.space pt L n) r u

theorem SameSpace.trans {u w : Ram} (h : SameSpace pt n L top r u) (h' : SameSpace pt n L top u w) :
    SameSpace pt n L top r w := ⟨h'.space, h.uses.trans h'.uses⟩

theorem copyoutRam_same (h : Space r.mem pt L n top) (hguard : Guarded top) (ho : r.Owned (r.space pt L n))
    (dstva : ℕ) (src : ℕ → UInt8) (len : ℕ) :
    wp (copyoutRam pt dstva src len) (fun _ u => SameSpace pt n L top r u) (fun _ => False) r := by
  refine wp_post (copyoutRam_spec h hguard ho dstva src len) fun _ u hpost => ?_
  obtain ⟨huses, hspace, htables⟩ := hpost
  refine ⟨hspace, ?_⟩
  rw [Ram.space, Ram.space, htables]
  exact (huses.frame _).congr (add_comm _ _) (add_comm _ _)

theorem pushArgs_same {stackbase sp : ℕ} {argv : List (List UInt8)} {ustack : List ℕ} (h : Space r.mem pt L n top)
    (hguard : Guarded top) (ho : r.Owned (r.space pt L n)) :
    wp (pushArgs pt stackbase argv sp ustack) (fun _ u => SameSpace pt n L top r u) (fun _ => False) r := by
  have hrefl : SameSpace pt n L top r r := ⟨h, .refl _ _⟩
  induction argv generalizing r sp ustack with
  | nil => exact hrefl
  | cons arg argv ih =>
      rw [pushArgs]
      simp only [wp_ite, wp_bind, wp_pure]
      split
      · exact hrefl
      split
      · exact hrefl
      refine wp_post (copyoutRam_same h hguard ho _ _ _) fun _ u hu => ?_
      split
      · exact hu
      · exact wp_post (ih hu.space (hu.uses.owned ho) ⟨hu.space, .refl _ _⟩) fun _ w hw => hu.trans hw

-- An address space with its bytes, whose last page v is for the user.
structure StackPage (pt v : ℕ) (L top : ℕ → Option ℕ) (img : ℕ → UInt8) (r : Ram) : Prop where
  space : Space r.mem pt L (v + 1) top
  guarded : Guarded top
  owned : r.Owned (r.space pt L (v + 1))
  kend : KERNBASE ≤ r.kend
  image : Image r.mem L (v + 1) img
  user : UserFrame L v

theorem StackPage.copyout {v va len : ℕ} (h : StackPage pt v L top img r) (src : ℕ → UInt8) (hlo : v * PGSIZE ≤ va)
    (hhi : va + len ≤ (v + 1) * PGSIZE) :
    wp (copyoutRam pt va src len) (fun x u => x = 0 ∧ StackPage pt v L top (overlay img va len src) u)
      (fun _ => False) r := by
  have hpage : ∀ k < len, (va + k) / PGSIZE = v := by
    intro k hk
    rw [Nat.succ_mul] at hhi
    rw [show va + k = v * PGSIZE + (va - v * PGSIZE + k) by omega]
    exact page_div v (by omega)
  have himage := copyoutRam_image va len src h.space h.guarded h.owned h.kend h.image fun k hk => by
    rw [hpage k hk]
    exact ⟨v.lt_succ_self, h.user⟩
  refine wp_mono (wp_and himage (copyoutRam_same h.space h.guarded h.owned va src len)) (fun x u hu => ?_)
    fun _ he => he.1
  obtain ⟨⟨hx, himg⟩, hsame⟩ := hu
  refine ⟨hx, hsame.space, h.guarded, hsame.uses.owned h.owned, ?_, himg, h.user⟩
  rw [hsame.uses.kend]
  exact h.kend

-- The strings are put below sp, or there is not enough room for them.
theorem pushArgs_image {v sp : ℕ} {argv : List (List UInt8)} {ustack : List ℕ} (h : StackPage pt v L top img r)
    (hv : 0 < v) (halign : sp % 16 = 0) (hlo : v * PGSIZE ≤ sp) (hhi : sp ≤ (v + 1) * PGSIZE)
    (hcount : ustack.length + argv.length < MAXARG) (hshort : ∀ arg ∈ argv, arg.length < PGSIZE) :
    wp (pushArgs pt (v * PGSIZE) argv sp ustack) (fun res u =>
      (res = none ∧ sp < v * PGSIZE + argSpace argv) ∨
        (v * PGSIZE + argSpace argv ≤ sp ∧ res = some (sp - argSpace argv, ustack ++ argPtrs sp argv) ∧
          StackPage pt v L top (pushed img sp argv) u)) (fun _ => False) r := by
  have hpage : PGSIZE ≤ v * PGSIZE := Nat.le_mul_of_pos_left _ hv
  have hmax := mul_le_maxva (le_trapframe h.owned.right)
  have hmaxva : MAXVA = 2 ^ 38 := rfl
  induction argv generalizing r img sp ustack with
  | nil =>
      rw [pushArgs, wp_pure, argPtrs, List.append_nil, show argSpace [] = 0 from rfl, Nat.add_zero,
        Nat.sub_zero]
      exact .inr ⟨hlo, rfl, h⟩
  | cons arg argv ih =>
      have harg := hshort arg List.mem_cons_self
      obtain ⟨hdown, hle⟩ := pushDown_eq (by omega) halign (show arg.length + 1 ≤ sp by omega)
      have hpad := le_pad16 (arg.length + 1)
      have hmod := pad16_mod (arg.length + 1)
      rw [List.length_cons] at hcount
      rw [pushArgs, if_neg (by omega)]
      simp only [hdown, argSpace_cons, wp_ite, wp_bind, wp_pure]
      split
      · exact .inl ⟨trivial, by omega⟩
      rename_i hroom
      refine wp_post (h.copyout _ (by omega) (by omega)) fun x u hu => ?_
      obtain ⟨rfl, hu⟩ := hu
      rw [if_neg (by decide)]
      refine wp_post (ih hu (by omega) (by omega) (by omega) (by rw [List.length_append, List.length_singleton]; omega)
        fun arg' h' => hshort arg' (List.mem_cons_of_mem _ h'))
        fun res w hw => ?_
      rcases hw with ⟨hnone, hfull⟩ | ⟨hfits, hsome, hw⟩
      · exact .inl ⟨hnone, by omega⟩
      · refine .inr ⟨by omega, ?_, hw⟩
        rw [hsome, argPtrs, List.append_assoc, List.singleton_append, Nat.sub_sub]

def stackImage (img : ℕ → UInt8) (sz : ℕ) (argv : List (List UInt8)) : ℕ → UInt8 :=
  overlay (pushed img sz argv) (sz - stackUse argv) ((argv.length + 1) * 8) (ustackBytes (argPtrs sz argv))

theorem stackRest_same (sz : ℕ) (argv : List (List UInt8)) (h : Space r.mem pt L n top) (hguard : Guarded top)
    (ho : r.Owned (r.space pt L n)) :
    wp (stackRest pt sz argv) (fun res u => res.1 = sz ∧ SameSpace pt n L top r u) (fun _ => False) r := by
  unfold stackRest
  simp only [wp_bind]
  generalize (sz + 2 ^ 64 - PGSIZE) % 2 ^ 64 = stackbase
  refine wp_post (pushArgs_same h hguard ho) fun res u hu => ?_
  cases res with
  | none => exact ⟨rfl, hu⟩
  | some res =>
      simp only [wp_ite, wp_bind, wp_pure]
      split
      · exact ⟨trivial, hu⟩
      refine wp_post (copyoutRam_same hu.space hguard (hu.uses.owned ho) _ _ _) fun _ w hw => ?_
      split
      · exact ⟨trivial, hu.trans hw⟩
      · exact ⟨trivial, hu.trans hw⟩

theorem stackRest_image {v : ℕ} {argv : List (List UInt8)} (h : StackPage pt v L top img r) (hv : 0 < v)
    (hargs : Args argv) :
    wp (stackRest pt ((v + 1) * PGSIZE) argv) (fun res u =>
      (res.2 = none ∧ PGSIZE < stackUse argv) ∨
        (stackUse argv ≤ PGSIZE ∧ res.2 = some ((v + 1) * PGSIZE - stackUse argv) ∧
          StackPage pt v L top (stackImage img ((v + 1) * PGSIZE) argv) u)) (fun _ => False) r := by
  have hsize : PGSIZE = 4096 := rfl
  have hmax := mul_le_maxva (le_trapframe h.owned.right)
  have hmaxva : MAXVA = 2 ^ 38 := rfl
  have hmaxarg : MAXARG = 32 := rfl
  have hcount := hargs.count
  have hbase : ((v + 1) * PGSIZE + 2 ^ 64 - PGSIZE) % 2 ^ 64 = v * PGSIZE := by
    rw [Nat.succ_mul] at hmax ⊢
    omega
  have halign : (v + 1) * PGSIZE % 16 = 0 := by
    rw [hsize]
    omega
  have hmod := argSpace_mod argv
  unfold stackRest
  simp only [wp_bind, hbase]
  refine wp_post (pushArgs_image h hv halign (Nat.mul_le_mul_right _ v.le_succ) le_rfl
    (by rw [List.length_nil]; omega) hargs.short) fun res u hu => ?_
  rcases hu with ⟨rfl, hfull⟩ | ⟨hroom, rfl, hu⟩
  · refine .inl ⟨rfl, ?_⟩
    rw [Nat.succ_mul] at hfull
    rw [stackUse]
    omega
  · have hle : PGSIZE ≤ v * PGSIZE := Nat.le_mul_of_pos_left _ hv
    have hdown := pushDown_eq (show (v + 1) * PGSIZE - argSpace argv < 2 ^ 64 by omega) (by omega)
      (show (argv.length + 1) * 8 ≤ (v + 1) * PGSIZE - argSpace argv by omega)
    have hpad := le_pad16 ((argv.length + 1) * 8)
    simp only [List.nil_append, length_argPtrs, hdown.1, Nat.sub_sub, ← stackUse.eq_1, wp_ite, wp_bind, wp_pure]
    have huse : stackUse argv = argSpace argv + pad16 ((argv.length + 1) * 8) := rfl
    rw [Nat.succ_mul] at hroom hmax
    split
    · refine .inl ⟨trivial, ?_⟩
      rw [Nat.succ_mul] at *
      omega
    · rename_i hfits
      refine wp_post (hu.copyout _ (by omega) (by rw [Nat.succ_mul] at *; omega)) fun x w hw => ?_
      obtain ⟨rfl, hw⟩ := hw
      rw [if_neg (by decide)]
      refine .inr ⟨?_, trivial, hw⟩
      rw [Nat.succ_mul] at *
      omega

def NoStack (pagetable sz : ℕ) (r : Ram) : Prop :=
  wp (uvmalloc pagetable (pgRoundUp sz) ((pgRoundUp sz + 2 * PGSIZE) % 2 ^ 64) PTE_W) (fun x _ => x = 0)
    (fun _ => False) r

structure Stacked (argv : List (List UInt8)) (a b : Program) : Prop where
  fits : stackUse argv ≤ PGSIZE
  pages : b.n = a.n + 2
  sz : b.sz = b.n * PGSIZE
  below : ∀ v < a.n, b.L v = a.L v
  guard : ∃ pte, b.L a.n = some pte ∧ hasFlag pte PTE_U = false
  stack : ∃ pa, b.L (a.n + 1) = some (mkPte pa (PTE_R ||| PTE_U ||| PTE_W ||| PTE_V))
  img : b.img = stackImage a.img b.sz argv

variable {argv : List (List UInt8)} {a : Program}

theorem execStack_spec (h : Space r.mem pt a.L a.n top) (hclear : Clear top) (hguard : Guarded top)
    (hfits : Fits a.sz a.n) (ho : r.Owned (r.space pt a.L a.n)) (hkend : KERNBASE ≤ r.kend)
    (himage : Image r.mem a.L a.n a.img) (hbeyond : ∀ o, a.n * PGSIZE ≤ o → a.img o = 0) :
    wp (execStack pt a.sz argv) (fun res u => ∃ b : Program, b.sz = res.1 ∧ Space u.mem pt b.L b.n top ∧
      Fits b.sz b.n ∧ Uses (r.space pt a.L a.n) (u.space pt b.L b.n) r u ∧ (Args argv →
        (res.2 = none ∧ (NoStack pt a.sz r ∨ PGSIZE < stackUse argv)) ∨
          (res.2 = some (b.sz - stackUse argv) ∧ ¬NoStack pt a.sz r ∧ Stacked argv a b ∧
            Image u.mem b.L b.n b.img))) (fun _ => False) r := by
  have hn : a.n ≤ PHYSTOP / PGSIZE := ho.right.frames_le
  have hsize : PGSIZE = 4096 := rfl
  have hstop : PHYSTOP / PGSIZE = 557056 := by decide
  have hround : pgRoundUp a.sz = a.n * PGSIZE := hfits.roundUp (by rw [hsize]; omega)
  have hnew : (a.n * PGSIZE + 2 * PGSIZE) % 2 ^ 64 = (a.n + 2) * PGSIZE := by
    rw [hsize]
    omega
  have hle : a.n * PGSIZE ≤ (a.n + 2) * PGSIZE := Nat.mul_le_mul_right _ (by omega)
  have halloc := uvmalloc_tail h hclear (fits_mul a.n) hle (show PTE_W < 2 ^ 10 by decide) ho
  obtain ⟨r₁, u, hrun, hpost⟩ := exists_of_wp halloc
  have hno : NoStack pt a.sz r ↔ r₁ = 0 := by
    rw [NoStack, hround, hnew, wp_of_ok hrun]
  unfold execStack
  simp only [hround, hnew, wp_bind]
  rw [wp_of_ok hrun]
  rcases hpost with ⟨hr, N, m, hfits', hext, hspace, hzero, htail⟩ | ⟨hr, hspace, htail⟩
  swap
  · rw [if_pos hr]
    exact ⟨⟨a.n * PGSIZE, a.n, a.L, a.img⟩, rfl, hspace, fits_mul a.n, htail.frame _,
      fun _ => .inl ⟨rfl, .inl (hno.mpr hr)⟩⟩
  -- Two pages more: the guard page and the stack.
  obtain rfl : m = a.n + 2 := le_antisymm (hfits'.le (fits_mul _) le_rfl) ((fits_mul _).le hfits' le_rfl)
  have huses := (htail.frame (frames a.L 0 a.n)).congr rfl (hext.space_eq u pt)
  have hown := huses.owned ho
  have hguardva : ((a.n + 2) * PGSIZE + 2 ^ 64 - 2 * PGSIZE) % 2 ^ 64 = a.n * PGSIZE := by
    rw [hsize]
    omega
  have hne : r₁ ≠ 0 := by
    rw [hr, hsize]
    omega
  rw [if_neg hne]
  simp only [hr, hguardva, wp_bind]
  refine wp_post (uvmclear_spec hspace (by omega) (le_trapframe hown.right) hown) fun _ w hpost => ?_
  obtain ⟨pte, hpte, hspace', hclears⟩ := hpost
  obtain ⟨-, hpa, -, -, hcleared⟩ := clearU_facts pte
  set N' := Function.update N a.n (some (clearU pte)) with hN'
  have hframes : frames N' 0 (a.n + 2) = frames N 0 (a.n + 2) := frames_update hpte hpa _ _
  have huses' : Uses (u.space pt N (a.n + 2)) (w.space pt N' (a.n + 2)) u w := by
    rw [Ram.space, Ram.space, hframes]
    exact hclears.frame _
  have hall := huses.trans huses'
  have hown' := hall.owned ho
  have himage' : Image w.mem N' (a.n + 2) a.img :=
    (((himage.extend hbeyond hext hzero (htail.kept ho)).congr (hclears.kept hown)).update hpte hpa)
  obtain ⟨pa, hstack⟩ := hext.fresh (a.n + 1) (by omega) (by omega)
  have hstack' : N' (a.n + 1) = some (mkPte pa (PTE_R ||| PTE_U ||| PTE_W ||| PTE_V)) := by
    rw [hN', Function.update_of_ne (by omega), hstack]
  have hpage : StackPage pt (a.n + 1) N' top a.img w := by
    refine ⟨hspace', hguard, hown', ?_, himage', _, hstack', ?_⟩
    · rw [hall.kend]
      exact hkend
    · rw [hasFlag_mkPte _ _ (by decide)]
      decide
  obtain ⟨res, x, hrest, hsz, hsame⟩ := exists_of_wp (stackRest_same ((a.n + 2) * PGSIZE) argv hspace' hguard hown')
  rw [wp_of_ok hrest]
  refine ⟨⟨(a.n + 2) * PGSIZE, a.n + 2, N', stackImage a.img ((a.n + 2) * PGSIZE) argv⟩, hsz.symm, hsame.space,
    fits_mul _, hall.trans hsame.uses, fun hargs => ?_⟩
  have hrest' := stackRest_image hpage (by omega) hargs
  rw [wp_of_ok hrest] at hrest'
  rcases hrest' with ⟨hnone, hfull⟩ | ⟨hroom, hsome, hset⟩
  · exact .inl ⟨hnone, .inr hfull⟩
  · refine .inr ⟨hsome, fun hfail => hne (hno.mp hfail), ⟨hroom, rfl, rfl, fun v hv => ?_, ?_, ⟨pa, hstack'⟩, rfl⟩,
      hset.image⟩
    · change N' v = a.L v
      have hvn : v < a.n := hv
      rw [hN', Function.update_of_ne (by omega), hext.same v (.inl hvn)]
    · exact ⟨clearU pte, Function.update_self .., hcleared⟩

end Stack

end Xv6
