import Xv6.Console
import Xv6.Lib.Ring

namespace Xv6

-- What console input is for: characters are edited on a line that no reader sees, and
-- a finished line joins the committed input.
structure LineInput where
  committed : List UInt8
  line : List UInt8

namespace LineInput

open Cons (ctrl newline)

-- A character arrives; taken says how many committed bytes readers have consumed, and
-- ignored which characters are dropped.
def input (ignored : UInt8 → Prop) [DecidablePred ignored] (taken : ℕ) (l : LineInput) (c : UInt8) : LineInput :=
  let held := l.committed.length - taken + l.line.length
  if ignored c then l
  else if c = ctrl 'U' then { l with line := [] }
  else if c = ctrl 'H' ∨ c = 0x7f then { l with line := l.line.dropLast }
  else if held = INPUT_BUF_SIZE then l
  else
    let c := if c = UInt8.ofNat '\r'.toNat then newline else c
    if c = newline ∨ c = ctrl 'D' ∨ held + 1 = INPUT_BUF_SIZE then ⟨l.committed ++ (l.line ++ [c]), []⟩
    else { l with line := l.line ++ [c] }

theorem committed_prefix (ignored : UInt8 → Prop) [DecidablePred ignored] (taken : ℕ) (l : LineInput) (c : UInt8) :
    l.committed <+: (l.input ignored taken c).committed := by
  unfold input
  simp only
  split_ifs
  all_goals first | exact List.prefix_rfl | exact List.prefix_append ..

end LineInput

namespace Cons

open Sleep Transition

-- The loop of consoleintr for ^U; e gets to w before the fuel runs out.
def eraseLine : (fuel : ℕ) → Cons → Cons
  | 0, cons => cons
  | fuel + 1, cons =>
      if cons.e ≠ cons.w ∧ cons.get (cons.e - 1) ≠ newline then eraseLine fuel { cons with e := cons.e - 1 }
      else cons

-- consoleintr, from acquire to release.
def consoleintr (cons : Cons) (c : UInt8) : Cons :=
  if c = ctrl 'P' then cons
  else if c = ctrl 'U' then eraseLine (cons.e - cons.w).toNat cons
  else if c = ctrl 'H' ∨ c = 0x7f then
    if cons.e ≠ cons.w then { cons with e := cons.e - 1 } else cons
  else if c ≠ 0 ∧ (cons.e - cons.r).toNat < INPUT_BUF_SIZE then
    let c := if c = UInt8.ofNat '\r'.toNat then newline else c
    let cons := cons.store c
    if c = newline ∨ c = ctrl 'D' ∨ (cons.e - cons.r).toNat = INPUT_BUF_SIZE then { cons with w := cons.e }
    else cons
  else cons

-- How far a call of consoleread gets before it gives up cons.lock: it sleeps with n bytes
-- to go, has consumed a ^D and returns, or returns with n bytes to go.
inductive ReadPoint
  | sleeps (n : ℕ)
  | eof (n : ℕ)
  | returns (n : ℕ)

-- The loop of consoleread with every copyout successful, and the bytes it copies.
def readLoop (target : ℕ) : (n : ℕ) → Cons → Cons × List UInt8 × ReadPoint
  | 0, cons => (cons, [], .returns 0)
  | n + 1, cons =>
      if cons.r = cons.w then (cons, [], .sleeps (n + 1))
      else
        let c := cons.get cons.r
        let cons := { cons with r := cons.r + 1 }
        if c = ctrl 'D' then
          if n + 1 < target then ({ cons with r := cons.r - 1 }, [], .returns (n + 1)) else (cons, [], .eof (n + 1))
        else if c = newline then (cons, [c], .returns n)
        else
          let (cons, bytes, point) := readLoop target n cons
          (cons, c :: bytes, point)

-- buf[r..w) and buf[w..e)
def ready (cons : Cons) : List UInt8 := Ring.contents INPUT_BUF_SIZE cons.buf cons.r cons.w

def edited (cons : Cons) : List UInt8 := Ring.contents INPUT_BUF_SIZE cons.buf cons.w cons.e

end Cons

-- A call of consoleread: not made yet, asleep with n bytes of target to go, or back with
-- its value. bytes are those it has copied out.
inductive ReadCall
  | none
  | asleep (target n : ℕ) (bytes : List UInt8)
  | back (value : Int) (bytes : List UInt8)
  deriving DecidableEq

-- The console with the calls of consoleread by number, the bytes that calls have taken
-- out of the buffer, and the line input that has arrived.
structure Tty where
  cons : Cons
  calls : ℕ → ReadCall
  taken : List (ℕ × UInt8)
  input : LineInput

namespace Tty

open Cons (ctrl newline)

def read (s : Tty) (k target n : ℕ) (bytes : List UInt8) : Tty :=
  let (cons, copied, point) := s.cons.readLoop target n
  let bytes := bytes ++ copied
  let taken := s.taken ++ copied.map fun c => (k, c)
  match point with
  | .sleeps n => { s with cons := cons, taken := taken, calls := Function.update s.calls k (.asleep target n bytes) }
  | .eof n =>
      { s with
        cons := cons
        taken := taken ++ [(k, ctrl 'D')]
        calls := Function.update s.calls k (.back (target - n) bytes) }
  | .returns n => { s with cons := cons, taken := taken, calls := Function.update s.calls k (.back (target - n) bytes) }

def intr (ignored : UInt8 → Prop) [DecidablePred ignored] (s : Tty) (c : UInt8) : Tty :=
  { s with cons := s.cons.consoleintr c, input := s.input.input ignored s.taken.length c }

-- An interrupt, a call of consoleread with any length, or a call that wakes up.
inductive Step (ignored : UInt8 → Prop) [DecidablePred ignored] (s : Tty) : Tty → Prop
  | intr (c : UInt8) : Step ignored s (s.intr ignored c)
  | call (k : ℕ) (n : Int) (hk : s.calls k = .none) : Step ignored s (s.read k n.toNat n.toNat [])
  | wake (k target n : ℕ) (bytes : List UInt8) (hk : s.calls k = .asleep target n bytes) :
      Step ignored s (s.read k target n bytes)

def start (buf : ℕ → UInt8) : Tty := ⟨⟨buf, 0, 0, 0⟩, fun _ => .none, [], ⟨[], []⟩⟩

def takenBy (s : Tty) (k : ℕ) : List UInt8 := (s.taken.filter fun x => x.1 = k).map Prod.snd

end Tty

namespace Cons

open Sleep Transition

variable {cons : Cons}

theorem ready_length (cons : Cons) : cons.ready.length = (cons.w - cons.r).toNat := by simp [ready, Ring.contents]

theorem edited_length (cons : Cons) : cons.edited.length = (cons.e - cons.w).toNat := by
  simp [edited, Ring.contents]

-- r <= w <= e <= r + INPUT_BUF_SIZE, modulo 2 ^ 32
def Room (cons : Cons) : Prop := (cons.w - cons.r).toNat + (cons.e - cons.w).toNat ≤ INPUT_BUF_SIZE

theorem Room.sub_r (h : cons.Room) : (cons.e - cons.r).toNat = cons.ready.length + cons.edited.length := by
  rw [ready_length, edited_length]
  unfold Room INPUT_BUF_SIZE at h
  exact Ring.toNat_split (by omega)

theorem edited_back (hne : cons.e ≠ cons.w) :
    cons.edited = Cons.edited { cons with e := cons.e - 1 } ++ [cons.get (cons.e - 1)] :=
  Ring.contents_drop (by decide) hne.symm (by decide) cons.buf

theorem Room.back (h : cons.Room) (hne : cons.e ≠ cons.w) : Room { cons with e := cons.e - 1 } := by
  have hlen := congrArg List.length (edited_back hne)
  rw [List.length_append, edited_length, edited_length, List.length_singleton] at hlen
  unfold Room at h ⊢
  simp only at hlen ⊢
  omega

theorem eraseLine_eq (hline : newline ∉ cons.edited) (fuel : ℕ) (hfuel : fuel = (cons.e - cons.w).toNat) :
    eraseLine fuel cons = { cons with e := cons.w } := by
  induction fuel generalizing cons with
  | zero =>
      have he : cons.e = cons.w := (Ring.toNat_sub_eq_zero.mp hfuel.symm).symm
      exact congrArg (fun e => { cons with e := e }) he
  | succ fuel ih =>
      have hne : cons.e ≠ cons.w := by
        intro he
        rw [he, BitVec.sub_self] at hfuel
        cases hfuel
      have hback := edited_back hne
      rw [hback, List.mem_append, not_or, List.mem_singleton] at hline
      have hlen := congrArg List.length hback
      rw [List.length_append, edited_length, edited_length, List.length_singleton, ← hfuel] at hlen
      unfold eraseLine
      rw [if_pos ⟨hne, Ne.symm hline.2⟩, ih hline.1 (by simpa using hlen)]

theorem ready_store (h : cons.Room) (hroom : (cons.e - cons.r).toNat < INPUT_BUF_SIZE) (c : UInt8) :
    (cons.store c).ready = cons.ready := by
  have hle : (cons.w - cons.r).toNat ≤ (cons.e - cons.r).toNat := by
    rw [h.sub_r, ready_length]
    omega
  exact Ring.contents_update (by decide) hle hroom cons.buf c

theorem edited_store (h : cons.Room) (hroom : (cons.e - cons.r).toNat < INPUT_BUF_SIZE) (c : UInt8) :
    (cons.store c).edited = cons.edited ++ [c] := by
  have hline : (cons.e - cons.w).toNat < INPUT_BUF_SIZE := by
    rw [h.sub_r, edited_length] at hroom
    omega
  exact Ring.contents_push (by decide) hline (by decide) cons.buf c

theorem Room.store (h : cons.Room) (hroom : (cons.e - cons.r).toNat < INPUT_BUF_SIZE) (c : UInt8) :
    (cons.store c).Room := by
  have hlen := congrArg List.length (edited_store h hroom c)
  rw [List.length_append, edited_length, edited_length, List.length_singleton] at hlen
  rw [h.sub_r, ready_length, edited_length] at hroom
  have hw : (cons.store c).w - (cons.store c).r = cons.w - cons.r := rfl
  unfold Room
  rw [hw, hlen]
  omega

-- cons.w = cons.e
theorem ready_commit (h : cons.Room) : Cons.ready { cons with w := cons.e } = cons.ready ++ cons.edited := by
  have hsum : (cons.w - cons.r).toNat + (cons.e - cons.w).toNat < 2 ^ 32 := by
    unfold Room INPUT_BUF_SIZE at h
    omega
  exact Ring.contents_append (by decide) hsum cons.buf

theorem Room.commit (h : cons.Room) : Room { cons with w := cons.e } := by
  have hsub := h.sub_r
  rw [ready_length, edited_length] at hsub
  unfold Room at h ⊢
  simp only [BitVec.sub_self]
  rw [hsub]
  exact h

-- The ^D that the call has consumed, and what it has to go.
def ReadPoint.eaten : ReadPoint → List UInt8
  | .eof _ => [ctrl 'D']
  | _ => []

def ReadPoint.left : ReadPoint → ℕ
  | .sleeps n | .eof n | .returns n => n

structure Reads (target n : ℕ) (cons : Cons) (out : Cons × List UInt8 × ReadPoint) : Prop where
  buf : out.1.buf = cons.buf
  w : out.1.w = cons.w
  e : out.1.e = cons.e
  order : cons.ready = out.2.1 ++ (out.2.2.eaten ++ out.1.ready)
  left : out.2.1.length + out.2.2.left = n
  plain : ctrl 'D' ∉ out.2.1
  oneLine : newline ∉ out.2.1.dropLast
  asleep : ∀ m, out.2.2 = .sleeps m → newline ∉ out.2.1
  eof : ∀ m, out.2.2 = .eof m → out.2.1 = [] ∧ n = target

theorem ready_pop (hne : cons.r ≠ cons.w) :
    cons.ready = cons.get cons.r :: Cons.ready { cons with r := cons.r + 1 } :=
  Ring.contents_pop (by decide) hne (by decide) cons.buf

theorem readLoop_reads (target n : ℕ) (hn : n ≤ target) (cons : Cons) :
    Reads target n cons (readLoop target n cons) := by
  induction n generalizing cons with
  | zero => constructor <;> simp [readLoop, ReadPoint.eaten, ReadPoint.left]
  | succ n ih =>
      unfold readLoop
      split
      · constructor <;> simp [ReadPoint.eaten, ReadPoint.left]
      rename_i hne
      have hpop := ready_pop hne
      simp only
      split
      · rename_i heof
        split
        · have hback : cons.r + 1 - 1 = cons.r := BitVec.add_sub_cancel ..
          simp only [hback]
          constructor <;> simp [ReadPoint.eaten, ReadPoint.left]
        · rw [heof] at hpop
          constructor <;> simp [ReadPoint.eaten, ReadPoint.left, hpop]
          omega
      rename_i hplain
      split
      · constructor <;> simp [ReadPoint.eaten, ReadPoint.left, hpop, Ne.symm hplain, Nat.add_comm]
      rename_i hline
      have hrest := ih (by omega) { cons with r := cons.r + 1 }
      refine ⟨hrest.buf, hrest.w, hrest.e, ?_, ?_, ?_, ?_, ?_, ?_⟩
      · rw [hpop, hrest.order, List.cons_append]
      · exact (Nat.add_right_comm ..).trans (congrArg (· + 1) hrest.left)
      · rw [List.mem_cons, not_or]
        exact ⟨Ne.symm hplain, hrest.plain⟩
      · have hone := hrest.oneLine
        generalize (readLoop target n { cons with r := cons.r + 1 }).2.1 = bytes at hone
        cases bytes with
        | nil => simp
        | cons b bytes =>
            rw [List.dropLast_cons_cons, List.mem_cons, not_or]
            exact ⟨Ne.symm hline, hone⟩
      · intro m hm
        rw [List.mem_cons, not_or]
        exact ⟨Ne.symm hline, hrest.asleep m hm⟩
      · intro m hm
        have hfull := (hrest.eof m hm).2
        omega

theorem Reads.room {target n : ℕ} {out : Cons × List UInt8 × ReadPoint} (h : Reads target n cons out)
    (hroom : cons.Room) : out.1.Room := by
  have hlen := congrArg List.length h.order
  rw [List.length_append, List.length_append, ready_length, ready_length] at hlen
  unfold Room at hroom ⊢
  rw [h.w, h.e]
  rw [h.w] at hlen
  omega

theorem Reads.edited {target n : ℕ} {out : Cons × List UInt8 × ReadPoint} (h : Reads target n cons out) :
    out.1.edited = cons.edited := by
  unfold Cons.edited
  rw [h.buf, h.w, h.e]

-- Steps of the concurrent model without giving up cons.lock.
def Going (a : Agent) (x y : Loc × Cons) : Prop :=
  ∃ ch, code a x.1 x.2 ch = some (.data y.2 y.1) ∨
    y.2 = x.2 ∧ ∃ fail, code a x.1 x.2 ch = some (.killed fail y.1)

theorem eraseLine_steps (a : Agent) (fuel : ℕ) (cons : Cons) (hfuel : fuel = (cons.e - cons.w).toNat) :
    Reaches (Going a) (.killLine, cons) (.release, eraseLine fuel cons) := by
  induction fuel generalizing cons with
  | zero =>
      have he : cons.e = cons.w := (Ring.toNat_sub_eq_zero.mp hfuel.symm).symm
      exact .single ⟨.copyout true, .inl (by simp [code, he, eraseLine])⟩
  | succ fuel ih =>
      unfold eraseLine
      split
      · rename_i hgoes
        have hlen := congrArg List.length (edited_back hgoes.1)
        rw [List.length_append, edited_length, edited_length, List.length_singleton, ← hfuel] at hlen
        exact .head ⟨.copyout true, .inl (by simp only [code, if_pos hgoes])⟩
          (ih { cons with e := cons.e - 1 } (by simpa using hlen))
      · rename_i hstops
        exact .single ⟨.copyout true, .inl (by simp only [code, if_neg hstops])⟩

-- Between acquire and release, the concurrent model does what consoleintr does.
theorem consoleintr_steps (a : Agent) (cons : Cons) (c : UInt8) :
    ∃ l, (l = .release ∨ l = .wakeup) ∧ Reaches (Going a) (.intr c, cons) (l, cons.consoleintr c) := by
  by_cases hkill : c = ctrl 'U'
  · refine ⟨.release, .inl rfl, .head (b := (.killLine, cons)) ⟨.copyout true, .inl ?_⟩ ?_⟩
    · rw [hkill]
      rfl
    · have heq : cons.consoleintr c = eraseLine (cons.e - cons.w).toNat cons := by
        rw [hkill]
        rfl
      rw [heq]
      exact eraseLine_steps a _ cons rfl
  · have hstep : ∃ l, (l = .release ∨ l = .wakeup) ∧
        code a (.intr c) cons (.copyout true) = some (.data (cons.consoleintr c) l) := by
      simp only [code, consoleintr, if_neg hkill]
      split_ifs <;> simp
    obtain ⟨l, hl, hcode⟩ := hstep
    exact ⟨l, hl, .single ⟨.copyout true, .inl hcode⟩⟩

def ReadPoint.loc (target : ℕ) : ReadPoint → Loc
  | .sleeps n => .readSleep target n
  | .eof _ | .returns _ => .release

-- Up to its sleep or its release, it does what readLoop does.
theorem readLoop_steps (a : Agent) (target n : ℕ) (cons : Cons) :
    Reaches (Going a) (.read target n, cons) ((readLoop target n cons).2.2.loc target, (readLoop target n cons).1) := by
  induction n generalizing cons with
  | zero => exact .single ⟨.copyout true, .inl rfl⟩
  | succ n ih =>
      have hpos : (0 : ℤ) < ((n + 1 : ℕ) : ℤ) := by omega
      unfold readLoop
      split
      · rename_i hempty
        exact .single ⟨.copyout true, .inr ⟨rfl, .readFail, by simp only [code, if_pos hpos, if_pos hempty]; rfl⟩⟩
      rename_i hne
      simp only
      split
      · rename_i heof
        have hback : cons.r + 1 - 1 = cons.r := BitVec.add_sub_cancel ..
        refine .single ⟨.copyout true, .inl ?_⟩
        simp only [code, if_pos hpos, if_neg hne, if_pos heof, readEof, Int.ofNat_lt, hback]
        split_ifs <;> rfl
      rename_i hplain
      split
      · rename_i hline
        refine .single ⟨.copyout true, .inl ?_⟩
        simp only [code, if_pos hpos, if_neg hne, if_neg hplain, if_pos hline]
        rfl
      · rename_i hline
        refine .head (b := (.read target n, { cons with r := cons.r + 1 })) ⟨.copyout true, .inl ?_⟩ (ih _)
        have hnext : ((n + 1 : ℕ) : ℤ) - 1 = n := by omega
        simp only [code, if_pos hpos, if_neg hne, if_neg hplain, if_neg hline, hnext]

end Cons

namespace Tty

open Transition
open Cons (ctrl newline)

variable {s : Tty}

variable {t : Tty} {k : ℕ}

-- What is known of a call: the bytes it has taken are those it has copied out, or one ^D
-- when it returns none, and it copies no further than the end of a line.
def CallOk (s : Tty) (k : ℕ) : ReadCall → Prop
  | .none => s.takenBy k = []
  | .asleep target n bytes =>
      s.takenBy k = bytes ∧ bytes.length + n = target ∧ ctrl 'D' ∉ bytes ∧ newline ∉ bytes
  | .back value bytes =>
      (s.takenBy k = bytes ∨ bytes = [] ∧ s.takenBy k = [ctrl 'D']) ∧ value = bytes.length ∧
        ctrl 'D' ∉ bytes ∧ newline ∉ bytes.dropLast

structure Inv (s : Tty) : Prop where
  room : s.cons.Room
  order : s.taken.map Prod.snd ++ s.cons.ready = s.input.committed
  line : s.cons.edited = s.input.line
  unbroken : newline ∉ s.input.line
  calls : ∀ k, s.CallOk k (s.calls k)

theorem Inv.start (buf : ℕ → UInt8) : (start buf).Inv := by
  constructor <;> simp [Tty.start, Cons.Room, Cons.ready, Cons.edited, Ring.contents_self, CallOk, takenBy]

theorem CallOk.congr {c : ReadCall} (h : s.CallOk k c) (htaken : t.takenBy k = s.takenBy k) :
    t.CallOk k c := by
  cases c <;> simpa only [CallOk, htaken] using h

-- The committed bytes that are still in the buffer.
theorem Inv.held (h : s.Inv) :
    s.input.committed.length - s.taken.length + s.input.line.length = (s.cons.e - s.cons.r).toNat := by
  have hlen := congrArg List.length h.order
  rw [List.length_append, List.length_map] at hlen
  rw [h.room.sub_r, ← h.line]
  omega

theorem Inv.of_cons (h : s.Inv) {cons : Cons} {input : LineInput} (hroom : cons.Room)
    (horder : s.taken.map Prod.snd ++ cons.ready = input.committed) (hline : cons.edited = input.line)
    (hopen : newline ∉ input.line) : Inv { s with cons := cons, input := input } :=
  ⟨hroom, horder, hline, hopen, fun k => (h.calls k).congr rfl⟩

theorem Inv.backspace (h : s.Inv) :
    Inv { s with
      cons := if s.cons.e ≠ s.cons.w then { s.cons with e := s.cons.e - 1 } else s.cons
      input := { s.input with line := s.input.line.dropLast } } := by
  have hopen : newline ∉ s.input.line.dropLast := fun hmem => h.unbroken (List.dropLast_subset _ hmem)
  split
  · rename_i hne
    refine h.of_cons (h.room.back hne) h.order ?_ hopen
    rw [← h.line, Cons.edited_back hne, List.dropLast_concat]
  · rename_i heq
    rw [not_not] at heq
    refine h.of_cons h.room h.order ?_ hopen
    have hnil : s.cons.edited = [] := by rw [Cons.edited, heq, Ring.contents_self]
    rw [← h.line, hnil, List.dropLast_nil]

theorem Inv.store (h : s.Inv) (hroom : (s.cons.e - s.cons.r).toNat < INPUT_BUF_SIZE) (c : UInt8) :
    Inv { s with
      cons := if c = newline ∨ c = ctrl 'D' ∨ ((s.cons.store c).e - (s.cons.store c).r).toNat = INPUT_BUF_SIZE then
          { s.cons.store c with w := (s.cons.store c).e }
        else s.cons.store c
      input := if c = newline ∨ c = ctrl 'D' ∨ (s.cons.e - s.cons.r).toNat + 1 = INPUT_BUF_SIZE then
          ⟨s.input.committed ++ (s.input.line ++ [c]), []⟩
        else { s.input with line := s.input.line ++ [c] } } := by
  have hready := Cons.ready_store h.room hroom c
  have hedited := Cons.edited_store h.room hroom c
  have hstore := h.room.store hroom c
  have hlen : ((s.cons.store c).e - (s.cons.store c).r).toNat = (s.cons.e - s.cons.r).toNat + 1 := by
    rw [hstore.sub_r, h.room.sub_r, hready, hedited, List.length_append, List.length_singleton]
    omega
  rw [hlen]
  split
  · refine h.of_cons hstore.commit ?_ ?_ List.not_mem_nil
    · rw [Cons.ready_commit hstore, hready, hedited, ← List.append_assoc, h.order, h.line]
    · exact Ring.contents_self ..
  · rename_i hgoes
    rw [not_or] at hgoes
    refine h.of_cons hstore ?_ ?_ ?_
    · rw [hready]
      exact h.order
    · rw [hedited, h.line]
    · rw [List.mem_append, List.mem_singleton, not_or]
      exact ⟨h.unbroken, Ne.symm hgoes.1⟩

theorem Inv.intr (h : s.Inv) (c : UInt8) : (s.intr (fun c => c = 0 ∨ c = ctrl 'P') c).Inv := by
  unfold Tty.intr Cons.consoleintr LineInput.input
  simp only [h.held]
  by_cases hp : c = ctrl 'P'
  · rw [if_pos hp, if_pos (Or.inr hp)]
    exact h
  rw [if_neg hp]
  by_cases hzero : c = 0
  · rw [if_pos (Or.inl hzero), hzero, if_neg (by decide), if_neg (by decide), if_neg (by simp)]
    exact h
  rw [if_neg (not_or.mpr ⟨hzero, hp⟩)]
  by_cases hkill : c = ctrl 'U'
  · rw [if_pos hkill, if_pos hkill, Cons.eraseLine_eq (h.line ▸ h.unbroken) _ rfl]
    refine h.of_cons ?_ h.order (Ring.contents_self ..) List.not_mem_nil
    have hroom := h.room
    unfold Cons.Room at hroom ⊢
    simp only [BitVec.sub_self, BitVec.toNat_zero]
    omega
  rw [if_neg hkill, if_neg hkill]
  by_cases hback : c = ctrl 'H' ∨ c = 0x7f
  · rw [if_pos hback, if_pos hback]
    exact h.backspace
  rw [if_neg hback, if_neg hback]
  by_cases hroom : (s.cons.e - s.cons.r).toNat < INPUT_BUF_SIZE
  · rw [if_pos ⟨hzero, hroom⟩, if_neg hroom.ne]
    exact h.store hroom _
  · have hfull : (s.cons.e - s.cons.r).toNat = INPUT_BUF_SIZE := by
      have hle := h.room
      unfold Cons.Room at hle
      rw [h.room.sub_r, Cons.ready_length, Cons.edited_length] at hroom ⊢
      omega
    rw [if_neg (fun hc => hroom hc.2), if_pos hfull]
    exact h

theorem takenBy_append (s : Tty) (k : ℕ) (l : List UInt8) (ht : t.taken = s.taken ++ l.map fun c => (k, c)) :
    t.takenBy k = s.takenBy k ++ l ∧ ∀ j, j ≠ k → t.takenBy j = s.takenBy j := by
  unfold takenBy
  constructor
  · have hall : (l.map fun c => (k, c)).filter (fun x => x.1 = k) = l.map fun c => (k, c) := by
      rw [List.filter_eq_self]
      intro x hx
      obtain ⟨c, -, rfl⟩ := List.mem_map.mp hx
      simp
    have hsnd : (l.map fun c => (k, c)).map Prod.snd = l := by simp
    rw [ht, List.filter_append, hall, List.map_append, hsnd]
  · intro j hj
    have hnil : (l.map fun c => (k, c)).filter (fun x => x.1 = j) = [] := by
      rw [List.filter_eq_nil_iff]
      intro x hx
      obtain ⟨c, -, rfl⟩ := List.mem_map.mp hx
      simpa using Ne.symm hj
    rw [ht, List.filter_append, hnil, List.append_nil]

-- A call that has taken bytes out of the buffer and goes on as call says.
theorem Inv.taking (h : s.Inv) {target n : ℕ} {out : Cons × List UInt8 × Cons.ReadPoint}
    (hreads : Cons.Reads target n s.cons out) (call : ReadCall)
    (hcall : CallOk { s with
      cons := out.1, taken := s.taken ++ (out.2.1 ++ out.2.2.eaten).map fun c => (k, c) } k call) :
    Inv { s with
      cons := out.1
      taken := s.taken ++ (out.2.1 ++ out.2.2.eaten).map fun c => (k, c)
      calls := Function.update s.calls k call } := by
  refine ⟨hreads.room h.room, ?_, hreads.edited.trans h.line, h.unbroken, fun j => ?_⟩
  · have hsnd : ((out.2.1 ++ out.2.2.eaten).map fun c => (k, c)).map Prod.snd = out.2.1 ++ out.2.2.eaten := by simp
    rw [List.map_append, hsnd, List.append_assoc, List.append_assoc, ← hreads.order]
    exact h.order
  · by_cases hj : j = k
    · rw [hj]
      simp only [Function.update_self]
      exact hcall.congr rfl
    · simp only [Function.update_of_ne hj]
      exact (h.calls j).congr ((takenBy_append s k _ rfl).2 j hj)

theorem Inv.read (h : s.Inv) {target n : ℕ} {bytes : List UInt8} (htaken : s.takenBy k = bytes)
    (hlen : bytes.length + n = target) (hplain : ctrl 'D' ∉ bytes) (hline : newline ∉ bytes) :
    (s.read k target n bytes).Inv := by
  have hreads := Cons.readLoop_reads target n (by omega) s.cons
  unfold Tty.read
  generalize s.cons.readLoop target n = out at hreads
  obtain ⟨cons, copied, point⟩ := out
  have hleft := hreads.left
  have hnew := (takenBy_append s k (copied ++ point.eaten) (t := { s with
    cons := cons, taken := s.taken ++ (copied ++ point.eaten).map fun c => (k, c) }) rfl).1
  rw [htaken] at hnew
  have hplain' : ctrl 'D' ∉ bytes ++ copied := by
    rw [List.mem_append, not_or]
    exact ⟨hplain, hreads.plain⟩
  have hone : newline ∉ (bytes ++ copied).dropLast := by
    have hcopied := hreads.oneLine
    cases copied with
    | nil =>
        rw [List.append_nil]
        exact fun hmem => hline (List.dropLast_subset _ hmem)
    | cons c copied =>
        rw [List.dropLast_append_of_ne_nil (by simp), List.mem_append, not_or]
        exact ⟨hline, hcopied⟩
  simp only [Cons.ReadPoint.left] at hleft
  cases point with
  | sleeps m =>
      have hcall := h.taking (k := k) hreads (.asleep target m (bytes ++ copied)) ?_
      · simpa [Cons.ReadPoint.eaten] using hcall
      · refine ⟨by simpa [Cons.ReadPoint.eaten] using hnew, ?_, hplain', ?_⟩
        · rw [List.length_append]
          simp only at hleft
          omega
        · rw [List.mem_append, not_or]
          exact ⟨hline, hreads.asleep m rfl⟩
  | eof m =>
      obtain ⟨hnil, hfull⟩ := hreads.eof m rfl
      simp only at hnil hleft
      subst hnil
      have hbytes : bytes = [] := List.eq_nil_of_length_eq_zero (by omega)
      subst hbytes
      have hcall := h.taking (k := k) hreads (.back (target - m) []) ?_
      · simpa [Cons.ReadPoint.eaten] using hcall
      · refine ⟨.inr ⟨rfl, by simpa [Cons.ReadPoint.eaten] using hnew⟩, ?_, hplain', by simp⟩
        rw [List.length_nil] at hleft ⊢
        omega
  | returns m =>
      have hcall := h.taking (k := k) hreads (.back (target - m) (bytes ++ copied)) ?_
      · simpa [Cons.ReadPoint.eaten] using hcall
      · refine ⟨.inl (by simpa [Cons.ReadPoint.eaten] using hnew), ?_, hplain', hone⟩
        rw [List.length_append]
        simp only at hleft
        omega

theorem Inv.step (h : s.Inv) (hst : Step (fun c => c = 0 ∨ c = ctrl 'P') s t) : t.Inv := by
  cases hst with
  | intr c => exact h.intr c
  | call k n hk =>
      have hnone := h.calls k
      rw [hk] at hnone
      exact h.read hnone (by simp) List.not_mem_nil List.not_mem_nil
  | wake k target n bytes hk =>
      have hasleep := h.calls k
      rw [hk] at hasleep
      obtain ⟨htaken, hlen, hplain, hline⟩ := hasleep
      exact h.read htaken hlen hplain hline

theorem Step.grows {ignored : UInt8 → Prop} [DecidablePred ignored] (hst : Step ignored s t) :
    s.input.committed <+: t.input.committed ∧ s.taken <+: t.taken := by
  have hread : ∀ k target n bytes, s.input.committed <+: (s.read k target n bytes).input.committed ∧
      s.taken <+: (s.read k target n bytes).taken := by
    intro k target n bytes
    unfold Tty.read
    generalize s.cons.readLoop target n = out
    obtain ⟨cons, copied, point⟩ := out
    cases point with
    | sleeps m => exact ⟨List.prefix_rfl, List.prefix_append ..⟩
    | eof m => exact ⟨List.prefix_rfl, (List.prefix_append ..).trans (List.prefix_append ..)⟩
    | returns m => exact ⟨List.prefix_rfl, List.prefix_append ..⟩
  cases hst with
  | intr c => exact ⟨LineInput.committed_prefix .., List.prefix_rfl⟩
  | call k n hk => exact hread ..
  | wake k target n bytes hk => exact hread ..

theorem grows {ignored : UInt8 → Prop} [DecidablePred ignored] (h : Reaches (Step ignored) s t) :
    s.input.committed <+: t.input.committed ∧ s.taken <+: t.taken := by
  induction h with
  | refl => exact ⟨List.prefix_rfl, List.prefix_rfl⟩
  | tail _ hst ih =>
      obtain ⟨hcommitted, htaken⟩ := hst.grows
      exact ⟨ih.1.trans hcommitted, ih.2.trans htaken⟩

-- The committed input is what calls have taken and what is ready, and it only grows.
theorem line_discipline (buf : ℕ → UInt8) {s : Tty} (h : Reaches (Step fun c => c = 0 ∨ c = ctrl 'P') (start buf) s) :
    ((s.cons.w - s.cons.r).toNat ≤ (s.cons.e - s.cons.r).toNat ∧
      (s.cons.e - s.cons.r).toNat ≤ INPUT_BUF_SIZE) ∧
    s.taken.map Prod.snd ++ s.cons.ready = s.input.committed ∧ s.cons.edited = s.input.line ∧
    (∀ k, s.calls k = .none → s.takenBy k = []) ∧
    (∀ k target n bytes, s.calls k = .asleep target n bytes → s.takenBy k = bytes) ∧
    (∀ k value bytes, s.calls k = .back value bytes →
      value = bytes.length ∧ ctrl 'D' ∉ bytes ∧ newline ∉ bytes.dropLast ∧
        (s.takenBy k = bytes ∨ value = 0 ∧ s.takenBy k = [ctrl 'D'])) ∧
    ∀ t, Reaches (Step fun c => c = 0 ∨ c = ctrl 'P') s t →
      s.input.committed <+: t.input.committed ∧ s.taken <+: t.taken := by
  have hinv : s.Inv := h.invariant Inv (.start buf) fun _ _ hs hst => hs.step hst
  have hroom := hinv.room
  unfold Cons.Room at hroom
  have hsub := hinv.room.sub_r
  rw [Cons.ready_length, Cons.edited_length] at hsub
  refine ⟨⟨by omega, by omega⟩, hinv.order, hinv.line, fun k hk => ?_, fun k target n bytes hk => ?_,
    fun k value bytes hk => ?_, fun t ht => grows ht⟩
  · have hcall := hinv.calls k
    rw [hk] at hcall
    exact hcall
  · have hcall := hinv.calls k
    rw [hk] at hcall
    exact hcall.1
  · have hcall := hinv.calls k
    rw [hk] at hcall
    obtain ⟨htaken, hvalue, hplain, hline⟩ := hcall
    refine ⟨hvalue, hplain, hline, htaken.imp_right fun heof => ⟨?_, heof.2⟩⟩
    rw [hvalue, heof.1]
    rfl

theorem reaches_typed (ignored : UInt8 → Prop) [DecidablePred ignored] (s : Tty) (typed : List UInt8) :
    Reaches (Step ignored) s (typed.foldl (intr ignored) s) := by
  induction typed generalizing s with
  | nil => exact .refl
  | cons c typed ih => exact .head (.intr c) (ih _)

-- ab, backspace, c and return are typed, and a call reads the line.
theorem line_discipline_typed : ∃ s, Reaches (Step fun c => c = 0 ∨ c = ctrl 'P') (start fun _ => 0) s ∧
    s.calls 0 = .back 3 [97, 99, 10] ∧ s.takenBy 0 = [97, 99, 10] ∧
    s.taken.map Prod.snd ++ s.cons.ready = s.input.committed ∧ s.input.committed = [97, 99, 10] := by
  have hread := (reaches_typed (fun c => c = 0 ∨ c = ctrl 'P') (start fun _ => 0) [97, 98, ctrl 'H', 99, 13]).tail
    (.call 0 8 rfl)
  obtain ⟨-, horder, -⟩ := line_discipline _ hread
  exact ⟨_, hread, by decide +kernel, by decide +kernel, horder, by decide +kernel⟩

-- ^P is not put into the buffer, though it is none of the characters that are said to be dropped.
theorem line_discipline_procdump : ∃ s, Reaches (Step fun c => c = 0) (start fun _ => 0) s ∧
    s.taken.map Prod.snd ++ s.cons.ready ≠ s.input.committed :=
  ⟨_, reaches_typed (fun c => c = 0) (start fun _ => 0) [ctrl 'P', newline], by decide +kernel⟩

end Tty

end Xv6
