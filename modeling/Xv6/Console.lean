import Xv6.Sleep.Kill
import Xv6.Sleep.Outline

namespace Xv6

def INPUT_BUF_SIZE : ℕ := 128

-- cons without its lock
structure Cons where
  buf : ℕ → UInt8
  r : BitVec 32
  w : BitVec 32
  e : BitVec 32

namespace Cons

open Sleep Transition

-- C(x), for a control character
def ctrl (x : Char) : UInt8 := UInt8.ofNat (x.toNat - '@'.toNat)

def newline : UInt8 := UInt8.ofNat '\n'.toNat

def get (cons : Cons) (i : BitVec 32) : UInt8 := cons.buf (i.toNat % INPUT_BUF_SIZE)

inductive Choice
  -- read by an idle process, kill by an idle process, and the character of an interrupt
  | consoleread (n : Int) | kill (pid : Int) | consoleintr (c : UInt8)
  | copyout (ok : Bool)
  deriving DecidableEq

inductive Loc
  | idle
  | read (target n : Int)
  | readSleep (target n : Int)
  | readFail
  | intr (c : UInt8)
  | killLine
  | wakeup
  | release
  deriving DecidableEq

-- cons.r++, and cons.r-- again for a ^D that is not the first character
def readEof (cons : Cons) (target n : Int) : Cons := if n < target then cons else { cons with r := cons.r + 1 }

-- cons.buf[cons.e++ % INPUT_BUF_SIZE] = c
def store (cons : Cons) (c : UInt8) : Cons :=
  { cons with buf := Function.update cons.buf (cons.e.toNat % INPUT_BUF_SIZE) c, e := cons.e + 1 }

def code (_ : Agent) (l : Loc) (cons : Cons) (ch : Choice) : Option (Act Unit Unit Cons Loc) :=
  match l with
  | .idle =>
      match ch with
      | .consoleread n => some (.acquire () (.read n n))
      | .consoleintr c => some (.acquire () (.intr c))
      | .kill pid => some (.kill pid .idle)
      | .copyout _ => none
  -- consoleread
  | .read target n =>
      if 0 < n then
        if cons.r = cons.w then some (.killed .readFail (.readSleep target n))
        else if cons.get cons.r = ctrl 'D' then some (.data (cons.readEof target n) .release)
        else
          match ch with
          | .copyout true =>
              if cons.get cons.r = newline then some (.data { cons with r := cons.r + 1 } .release)
              else some (.data { cons with r := cons.r + 1 } (.read target (n - 1)))
          | .copyout false => some (.data { cons with r := cons.r + 1 } .release)
          | _ => none
      else some (.data cons .release)
  | .readSleep target n => some (.sleep () () (.read target n))
  | .readFail => some (.release () .idle)
  -- consoleintr, without what it echoes and prints
  | .intr c =>
      if c = ctrl 'P' then some (.data cons .release)
      else if c = ctrl 'U' then some (.data cons .killLine)
      else if c = ctrl 'H' ∨ c = 0x7f then
        if cons.e ≠ cons.w then some (.data { cons with e := cons.e - 1 } .release)
        else some (.data cons .release)
      else if c ≠ 0 ∧ (cons.e - cons.r).toNat < INPUT_BUF_SIZE then
        let c := if c = UInt8.ofNat '\r'.toNat then newline else c
        let cons := cons.store c
        if c = newline ∨ c = ctrl 'D' ∨ (cons.e - cons.r).toNat = INPUT_BUF_SIZE then
          some (.data { cons with w := cons.e } .wakeup)
        else some (.data cons .release)
      else some (.data cons .release)
  | .killLine =>
      if cons.e ≠ cons.w ∧ cons.get (cons.e - 1) ≠ newline then
        some (.data { cons with e := cons.e - 1 } .killLine)
      else some (.data cons .release)
  | .wakeup => some (.wakeup () .release)
  | .release => some (.release () .idle)

abbrev client : Client where
  Lk := Unit
  Chan := Unit
  Data := Cons
  Loc := Loc
  Choice := Choice
  idle := .idle
  code := code

-- The points of consoleread between killed() and sleep.
def Loc.checked : Loc → Bool
  | .readSleep _ _ => true
  | _ => false

theorem checks : Checks (K := client) (fun _ => true) Loc.checked := by
  intro a l cons ch act h
  change code a l cons ch = some act at h
  cases l <;> simp only [code] at h
  case idle => cases ch <;> cases h <;> exact id
  case read target n =>
    split_ifs at h <;> (try split at h) <;> cases h <;> exact id
  case readSleep => cases h; exact ⟨fun _ => rfl, rfl⟩
  all_goals
    (try split_ifs at h) <;> cases h <;> exact id

def Loc.inside : Loc → Bool
  | .idle => false
  | _ => true

def outline : Outline (K := client) () where
  inside := Loc.inside
  inv _ := True
  assert l cons := match l with
    | Loc.readSleep _ _ => cons.r = cons.w
    | _ => True

def Loc.owing : Loc → Bool
  | .wakeup => true
  | _ => false

theorem outline_valid : outline.Valid (fun _ _ _ _ => True) where
  idle := rfl
  step {a l cons ch act} h _ _ _ := by
    change code a l cons ch = some act at h
    cases l <;> simp only [code] at h
    case idle => cases ch <;> cases h <;> simp [Outline.Keeps, Outline.Entry, Outline.Goes, outline, Loc.inside]
    case read target n =>
      split_ifs at h <;> (try split at h) <;> cases h <;>
        simp_all [Outline.Keeps, Outline.Goes, outline, Loc.inside]
    all_goals
      (try split_ifs at h) <;> cases h <;>
        simp [Outline.Keeps, Outline.Goes, Outline.Entry, outline, Loc.inside]

-- Input that makes consoleread go on is followed by a wakeup.
theorem outline_signals : outline.Signals () (fun cons : Cons => cons.r ≠ cons.w) Loc.owing (fun _ _ _ _ => True) where
  inside {l} h := by cases l <;> first | rfl | cases h
  step {a l cons ch act} h _ _ hat := by
    change code a l cons ch = some act at h
    cases l <;> simp only [code] at h
    case idle => cases ch <;> cases h <;> simp [Outline.Due, Loc.owing]
    case read target n =>
      split_ifs at h <;> (try split at h) <;> cases h <;> simp_all [Outline.Due, Loc.owing]
    case readSleep target n =>
      cases h
      have heq := hat rfl
      exact ⟨rfl, fun _ hne => hne heq⟩
    all_goals
      (try split_ifs at h) <;> cases h <;> simp [Outline.Due, Loc.owing, store]

-- A process sleeps in consoleread only while there is no line for it.
theorem no_line_of_sleeping {live : Slot → Bool} {pid : Slot → Int} {cons : Cons} {s : Mach client}
    (h : Reaches (Step (Allowed fun _ _ _ _ => True)) (.start live pid cons) s) (hfree : s.lock () = none)
    {p : Slot} (hstate : (s.proc p).state = .sleeping) (hchan : (s.proc p).chan = some ()) :
    s.data.r = s.data.w := by
  have hn := outline_signals.not_of_sleeping outline_valid trivial h hfree hstate hchan
  simpa using hn

theorem no_line_of_sleeping_first :
    ∃ s : Mach client, (s.proc Sched.first).state = .sleeping ∧ s.data.r = s.data.w := by
  obtain ⟨s, hrun, hfree, hstate, hchan⟩ := exists_of_run (Q := Allowed fun _ _ _ _ => True)
    (s := (.start (fun _ => true) (fun p => p.val) ⟨fun _ => 0, 0, 0, 0⟩ : Mach client))
    (l := dispatch Sched.first ++ acts Sched.first [(11, Choice.consoleread 1)])
    (P := fun s => s.lock () = none ∧ (s.proc Sched.first).state = .sleeping ∧ (s.proc Sched.first).chan = some ())
    (by decide +kernel)
  exact ⟨s, hstate, no_line_of_sleeping hrun hfree hstate hchan⟩

end Cons

end Xv6
