import Mathlib.Tactic.Common

namespace Except

variable {ε α β : Type}

-- A sequence of computations succeeds when each of them does.
theorem bind_eq_ok {x : Except ε α} {f : α → Except ε β} {result : β} :
    (x >>= f) = .ok result ↔ ∃ value, x = .ok value ∧ f value = .ok result := by
  cases x <;> simp [bind, Except.bind]

def stopsWith [DecidableEq ε] (e : ε) : Except ε α → Bool
  | .error e' => e' = e
  | .ok _ => false

theorem eq_error_of_stopsWith [DecidableEq ε] {e : ε} {x : Except ε α} (h : x.stopsWith e = true) : x = .error e := by
  cases x with
  | error e' => rw [of_decide_eq_true h]
  | ok a => cases h

theorem eq_ok_of_toOption {x : Except ε α} {a : α} (h : x.toOption = some a) : x = .ok a := by
  cases x with
  | error e => cases h
  | ok b => rw [Option.some.inj h]

end Except
