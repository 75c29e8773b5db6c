import Xv6.Sleep.Kill

namespace Xv6.Clock

open Sleep

inductive Choice
  -- the system calls of an idle process, and the timer interrupt
  | sleep (n : BitVec 32) | uptime | kill (pid : Int) | clockintr
  deriving DecidableEq

inductive Loc
  | idle
  | begin (n : BitVec 32)
  | test (n ticks0 : BitVec 32)
  | sleep (n ticks0 : BitVec 32)
  | tick
  | wakeup
  | release
  deriving DecidableEq

-- The data is ticks, and the lock tickslock. ticks - ticks0 < n compares unsigned numbers.
def code (_ : Agent) (l : Loc) (ticks : BitVec 32) (ch : Choice) : Option (Act Unit Unit (BitVec 32) Loc) :=
  match l with
  | .idle =>
      match ch with
      | .sleep n => some (.acquire () (.begin n))
      | .uptime => some (.acquire () .release)
      | .kill pid => some (.kill pid .idle)
      | .clockintr => some (.acquire () .tick)
  -- sys_sleep
  | .begin n => some (.data ticks (.test n ticks))
  | .test n ticks0 =>
      if (ticks - ticks0).toNat < n.toNat then some (.killed .release (.sleep n ticks0))
      else some (.data ticks .release)
  | .sleep n ticks0 => some (.sleep () () (.test n ticks0))
  -- clockintr
  | .tick => some (.data (ticks + 1) .wakeup)
  | .wakeup => some (.wakeup () .release)
  | .release => some (.release () .idle)

abbrev client : Client where
  Lk := Unit
  Chan := Unit
  Data := BitVec 32
  Loc := Loc
  Choice := Choice
  idle := .idle
  code := code

-- The points of sys_sleep between killed() and sleep.
def Loc.checked : Loc → Bool
  | .sleep _ _ => true
  | _ => false

theorem checks : Checks (K := client) (fun _ => true) Loc.checked := by
  intro a l ticks ch act h
  change code a l ticks ch = some act at h
  cases l <;> simp only [code] at h
  case idle => cases ch <;> cases h <;> exact id
  case test n ticks0 => split_ifs at h <;> cases h <;> exact id
  case sleep => cases h; exact ⟨fun _ => rfl, rfl⟩
  all_goals
    cases h
    exact id

end Xv6.Clock
