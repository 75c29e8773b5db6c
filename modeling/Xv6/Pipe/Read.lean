import Xv6.Fs
import Xv6.Pipe.Theorems
import Xv6.Vm.Copyout

namespace Xv6

namespace PipeBuf

open Sleep Transition

section AnyCopyout

variable {δ : Type} (copyout : Copyout δ)

-- for(i = 0; i < n; i++) of piperead, with the rounds that are left.
def copyLoop : (rounds i : ℕ) → PipeBuf → δ → ℕ × PipeBuf × δ
  | 0, i, pi, dst => (i, pi, dst)
  | rounds + 1, i, pi, dst =>
      if pi.empty then (i, pi, dst)
      else
        let (dst, ok) := copyout dst i (fun _ => pi.data (pi.nread.toNat % PIPESIZE)) 1
        if ok then copyLoop rounds (i + 1) (pi.take true) dst else (i, pi.take false, dst)

def CopyStep (a : Agent) (x y : Loc × PipeBuf) : Prop := ∃ ch, code a x.1 x.2 ch = some (.data y.2 y.1)

-- The loop in the concurrent model.
theorem copyLoop_steps (a : Agent) (n : Int) {rounds i : ℕ} (hn : (i + rounds : ℤ) = n) (pi : PipeBuf) (dst : δ) :
    Reaches (CopyStep a) (.readCopy n i, pi)
      (.readWakeup n (copyLoop copyout rounds i pi dst).1, (copyLoop copyout rounds i pi dst).2.1) := by
  induction rounds generalizing i pi dst with
  | zero =>
      refine .single ⟨.copyout true, ?_⟩
      have hlt : ¬(i : ℤ) < n := by omega
      simp [code, copyLoop, hlt]
  | succ rounds ih =>
      have hlt : (i : ℤ) < n := by omega
      unfold copyLoop
      split
      · rename_i hempty
        exact .single ⟨.copyout true, by simp [code, hlt, hempty]⟩
      · rename_i hempty
        simp only
        split
        · refine .head ⟨.copyout true, by simp only [code, hlt, hempty, if_true]; rfl⟩ (ih (by omega) (pi.take true) _)
        · exact .single ⟨.copyout false, by simp [code, hlt, hempty]⟩

end AnyCopyout

def userCopyout (pagetable addr : ℕ) : Copyout Mem := fun mem tot src m =>
  let (mem, r) := copyout mem pagetable ((addr + tot) % 2 ^ 64) src m
  (mem, r ≠ -1)

-- piperead of a process that is not killed; none while it has to sleep.
def piperead (mem : Mem) (pagetable : ℕ) (pi : PipeBuf) (addr : ℕ) (n : Int) : Option (ℕ × PipeBuf × Mem) :=
  if pi.empty && pi.writeopen then none else some (copyLoop (userCopyout pagetable addr) n.toNat 0 pi mem)

variable {mem now : Mem} {pi : PipeBuf} {pagetable addr rounds : ℕ} {l : List UInt8}

theorem buffered_take (hne : pi.empty = false) (ok : Bool) :
    pi.buffered = pi.data (pi.nread.toNat % PIPESIZE) :: (pi.take ok).buffered := by
  have hnext : pi.nread ≠ pi.nwrite := by simpa [empty] using hne
  exact Ring.contents_pop (by decide) hnext (by decide) _

theorem buffered_empty (h : pi.empty = true) : pi.buffered = [] := by
  have hsame : pi.nread = pi.nwrite := by simpa [empty] using h
  rw [buffered, hsame, Ring.contents_self]

-- Byte k of the buffer is in a page of the user.
def UserAt (mem : Mem) (pagetable addr k : ℕ) : Prop := UserPage mem pagetable ((addr + k) % 2 ^ 64)

-- Byte k of the buffer.
def userByte (mem now : Mem) (pagetable addr k : ℕ) : UInt8 :=
  now (translate mem pagetable ((addr + k) % 2 ^ 64)).1 (translate mem pagetable ((addr + k) % 2 ^ 64)).2

-- The bytes l are in the user's memory, and the page table is as it was.
structure Landed (mem : Mem) (pagetable addr : ℕ) (l : List UInt8) (now : Mem) : Prop where
  table : SameTable mem now pagetable
  mapped : ∀ k < l.length, UserAt mem pagetable addr k
  bytes : ∀ k (hk : k < l.length), userByte mem now pagetable addr k = l[k]

theorem Landed.copyout (hu : mem.UserTable pagetable) (h : Landed mem pagetable addr l now) (hlt : l.length < 2 ^ 64)
    (ch : UInt8) :
    (UserAt mem pagetable addr l.length ∧ (userCopyout pagetable addr now l.length (fun _ => ch) 1).2 = true ∧
      Landed mem pagetable addr (l ++ [ch]) (userCopyout pagetable addr now l.length (fun _ => ch) 1).1) ∨
    (¬UserAt mem pagetable addr l.length ∧ (userCopyout pagetable addr now l.length (fun _ => ch) 1).2 = false ∧
      Landed mem pagetable addr l (userCopyout pagetable addr now l.length (fun _ => ch) 1).1) := by
  have hcopied : Copied mem now pagetable ((addr + l.length) % 2 ^ 64) (fun _ => ch) 1
      (Xv6.copyout now pagetable ((addr + l.length) % 2 ^ 64) (fun _ => ch) 1) :=
    copyoutLoop_copied hu.pages 1 now _ _ 1 h.table le_rfl
  unfold userCopyout
  set r := Xv6.copyout now pagetable ((addr + l.length) % 2 ^ 64) (fun _ => ch) 1
  have hkept : ∀ k (hk : k < l.length), userByte mem r.1 pagetable addr k = l[k] := fun k hk => by
    refine (hcopied.kept _ _ fun j hj hreach heq => ?_).trans (h.bytes k hk)
    obtain rfl : j = 0 := by omega
    have hsame := hu.translate_inj (hreach 0 le_rfl) (h.mapped k hk) heq
    omega
  have htable : SameTable mem r.1 pagetable := fun va hva t ht => by
    refine (funext fun o => hcopied.kept t o fun j hj hreach heq => ?_).trans (h.table va hva t ht)
    obtain ⟨pte, hl, huser⟩ := hreach j le_rfl
    have hpage : walkaddr mem pagetable (pgRoundDown _) = t := congrArg Prod.fst heq
    rw [walkaddr_of_leaf hl huser] at hpage
    exact hu.apart _ pte hl huser va hva (hpage ▸ ht)
  by_cases hp : UserAt mem pagetable addr l.length
  · have hone : ∀ k < 1, UserPage mem pagetable ((addr + l.length) % 2 ^ 64 + k) := fun k hk => by
      obtain rfl : k = 0 := by omega
      exact hp
    refine .inl ⟨hp, by simp [hcopied.done hone], htable, fun k hk => ?_, fun k hk => ?_⟩
    · rw [List.length_append, List.length_singleton] at hk
      rcases Nat.lt_succ_iff_lt_or_eq.mp hk with hk | rfl
      · exact h.mapped k hk
      · exact hp
    · by_cases hlast : k < l.length
      · rw [List.getElem_append_left hlast]
        exact hkept k hlast
      · obtain rfl : k = l.length := by
          rw [List.length_append, List.length_singleton] at hk
          omega
        rw [List.getElem_append_right le_rfl]
        simp only [Nat.sub_self, List.getElem_singleton]
        exact hcopied.written 0 one_pos (fun j hj => hone j (by omega)) fun j hj hlt => by omega
  · exact .inr ⟨hp, by simp [hcopied.stopped ⟨0, one_pos, hp⟩], htable, h.mapped, hkept⟩

-- The loop copies the first bytes of the pipe, in order, until there are enough or no more; or it
-- comes to a byte that it cannot copy, and that byte is gone as well.
theorem copyLoop_landed (hu : mem.UserTable pagetable) (h : Landed mem pagetable addr l now)
    (hlt : l.length + rounds < 2 ^ 64) (pi : PipeBuf) :
    ∃ copied pi' now', copyLoop (userCopyout pagetable addr) rounds l.length pi now =
        ((l ++ copied).length, pi', now') ∧
      pi'.delivered = pi.delivered ++ copied ∧ Landed mem pagetable addr (l ++ copied) now' ∧
      (pi.buffered = copied ++ pi'.buffered ∧ (copied.length = rounds ∨ pi'.buffered = []) ∨
        ∃ ch, pi.buffered = copied ++ ch :: pi'.buffered ∧ copied.length < rounds ∧
          ¬UserAt mem pagetable addr (l ++ copied).length) := by
  induction rounds generalizing l now pi with
  | zero => exact ⟨[], pi, now, by simp [copyLoop], by simp, by simpa using h, .inl (by simp)⟩
  | succ rounds ih =>
      by_cases hempty : pi.empty = true
      · exact ⟨[], pi, now, by simp [copyLoop, hempty], by simp, by simpa using h,
          .inl (by simp [buffered_empty hempty])⟩
      rw [Bool.not_eq_true] at hempty
      unfold copyLoop
      simp only [hempty, Bool.false_eq_true, if_false]
      set ch := pi.data (pi.nread.toNat % PIPESIZE) with hch
      rcases h.copyout hu (by omega) ch with ⟨hp, hok, hlanded⟩ | ⟨hp, hok, hlanded⟩
      · rw [if_pos hok]
        obtain ⟨copied, pi', now', hrun, hdelivered, hlanded', hrest⟩ :=
          ih hlanded (by simp only [List.length_append, List.length_singleton]; omega) (pi.take true)
        rw [List.length_append, List.length_singleton] at hrun
        have hassoc : l ++ [ch] ++ copied = l ++ ch :: copied := by simp
        rw [hassoc] at hlanded' hrest
        refine ⟨ch :: copied, pi', now', ?_, ?_, hlanded', ?_⟩
        · rw [hrun]
          simp
        · rw [hdelivered]
          simp [take, hch]
        · rw [buffered_take hempty true, ← hch]
          rcases hrest with ⟨hbuf, hend⟩ | ⟨lost, hbuf, hlt, hnot⟩
          · refine .inl ⟨by rw [hbuf, List.cons_append], ?_⟩
            exact hend.imp (fun hlen => by rw [List.length_cons, hlen]) id
          · exact .inr ⟨lost, by rw [hbuf, List.cons_append], by rw [List.length_cons]; omega, hnot⟩
      · rw [if_neg (by simp [hok])]
        refine ⟨[], pi.take false, _, by rw [List.append_nil], (List.append_nil _).symm, by rwa [List.append_nil],
          .inr ⟨ch, buffered_take hempty false, Nat.succ_pos rounds, by rwa [List.append_nil]⟩⟩

-- Exactly the bytes that were copied out leave the pipe, and 0 is not returned while the
-- write end is open, when and only when the process can write to each byte of its buffer for
-- which the pipe has one.
theorem piperead_exact_iff (hu : mem.UserTable pagetable) (pi : PipeBuf) (addr : ℕ) {n : Int} (hn : 0 < n)
    (hmax : n < 2 ^ 31) {r : ℕ} {pi' : PipeBuf} {mem' : Mem}
    (hout : piperead mem pagetable pi addr n = some (r, pi', mem')) :
    (∃ copied, pi'.delivered = pi.delivered ++ copied ∧ r = copied.length ∧
        pi.buffered = copied ++ pi'.buffered ∧ (pi.writeopen = true → r ≠ 0) ∧
        ∀ k (hk : k < copied.length), userByte mem mem' pagetable addr k = copied[k]) ↔
      ∀ k < min n.toNat pi.buffered.length, UserAt mem pagetable addr k := by
  unfold piperead at hout
  split at hout
  · cases hout
  rename_i hready
  have hstart : Landed mem pagetable addr [] mem := ⟨fun _ _ _ _ => rfl, by simp, by simp⟩
  have hlt : ([] : List UInt8).length + n.toNat < 2 ^ 64 := by simp only [List.length_nil]; omega
  obtain ⟨copied, pi₁, mem₁, hrun, hdelivered, hlanded, hrest⟩ := copyLoop_landed hu hstart hlt pi
  rw [List.length_nil] at hrun
  rw [hrun, Option.some.injEq, Prod.mk.injEq, Prod.mk.injEq] at hout
  obtain ⟨rfl, rfl, rfl⟩ := hout
  rw [List.nil_append] at hlanded hrest ⊢
  have hlength : ∀ {a b : List UInt8}, pi.buffered = a ++ b → pi.buffered.length = a.length + b.length := fun h => by
    rw [h, List.length_append]
  constructor
  · rintro ⟨copied', hdelivered', -, hbuf, -⟩ k hk
    obtain rfl : copied = copied' := List.append_cancel_left (hdelivered.symm.trans hdelivered')
    refine hlanded.mapped k ?_
    have hlen := hlength hbuf
    rcases hrest with ⟨-, hend⟩ | ⟨ch, hbuf', -⟩
    · rcases hend with hend | hend
      · omega
      · rw [hend, List.length_nil] at hlen
        omega
    · have hlost := hlength hbuf'
      rw [List.length_cons] at hlost
      omega
  · intro hall
    rcases hrest with ⟨hbuf, hend⟩ | ⟨ch, hbuf, hlt, hnot⟩
    · refine ⟨copied, hdelivered, rfl, hbuf, fun hopen hzero => ?_, hlanded.bytes⟩
      have hempty : pi.empty = false := by simpa [hopen] using hready
      have hnil : copied = [] := List.eq_nil_of_length_eq_zero (by omega)
      rw [hnil, buffered_take hempty true] at hbuf
      rcases hend with hend | hend
      · rw [hnil, List.length_nil] at hend
        omega
      · rw [hend] at hbuf
        cases hbuf
    · refine absurd (hall copied.length (lt_min hlt ?_)) hnot
      have hlen := hlength hbuf
      rw [List.length_cons] at hlen
      omega

def oneByte : PipeBuf := (alloc fun _ => 0).store 7

-- Two bytes are read to the program's page.
theorem piperead_exact_iff_mapped : ∃ pi' mem', piperead textMem 10 (oneByte.store 8) 0 5 = some (2, pi', mem') ∧
    pi'.delivered = [7, 8] ∧ pi'.buffered = [] ∧
    userByte textMem mem' 10 0 0 = 7 ∧ userByte textMem mem' 10 0 1 = 8 := by
  have hmapped : ∀ k < min (5 : Int).toNat (oneByte.store 8).buffered.length, UserAt textMem 10 0 k := by
    have htwo : min (5 : Int).toNat (oneByte.store 8).buffered.length = 2 := by decide +kernel
    rw [htwo]
    intro k hk
    refine ⟨13339, ?_, by decide⟩
    interval_cases k <;> decide +kernel
  have hrun : ((piperead textMem 10 (oneByte.store 8) 0 5).map fun r => (r.1, r.2.1.delivered, r.2.1.buffered)) =
      some (2, [7, 8], []) := by decide +kernel
  obtain ⟨⟨r, pi', mem'⟩, hout, hr⟩ := Option.map_eq_some_iff.mp hrun
  rw [Prod.mk.injEq, Prod.mk.injEq] at hr
  obtain ⟨rfl, hdelivered, hbuf⟩ := hr
  obtain ⟨copied, hcopied, -, -, -, hbytes⟩ :=
    (piperead_exact_iff textMem_userTable (oneByte.store 8) 0 (by decide) (by decide) hout).mpr hmapped
  obtain rfl : copied = [7, 8] := hcopied.symm.trans hdelivered
  exact ⟨pi', mem', hout, hdelivered, hbuf, hbytes 0 (by decide), hbytes 1 (by decide)⟩

-- The address is not mapped: the byte is gone and the call returns 0.
theorem piperead_loses_byte : oneByte.writeopen = true ∧ oneByte.buffered = [7] ∧
    ∃ pi' mem', piperead textMem 10 oneByte 8192 1 = some (0, pi', mem') ∧ pi'.delivered = [] ∧
      pi'.buffered = [] ∧ pi'.writeopen = true :=
  ⟨rfl, by decide +kernel, _, _, rfl, by decide +kernel, by decide +kernel, rfl⟩

end PipeBuf

end Xv6
