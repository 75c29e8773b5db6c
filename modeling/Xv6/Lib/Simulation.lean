namespace Simulation

universe u

variable {σ τ ε α β α' β' : Type u}

-- From related states, two stateful programs stop with the same error or return related
-- values and end in related states.
def Simulates (state : σ → τ → Prop) (value : α → β → Prop) (m : StateT σ (Except ε) α) (n : StateT τ (Except ε) β) :
    Prop :=
  ∀ s t, state s t →
    match m s, n t with
    | .ok (a, s'), .ok (b, t') => value a b ∧ state s' t'
    | .error e, .error e' => e = e'
    | _, _ => False

variable {state : σ → τ → Prop} {value : α → β → Prop} {value' : α' → β' → Prop}

namespace Simulates

theorem pure {a : α} {b : β} (h : value a b) :
    Simulates state value (Pure.pure a : StateT σ (Except ε) α) (Pure.pure b) := fun _ _ hs => ⟨h, hs⟩

theorem throw (e : ε) : Simulates state value (MonadExcept.throw e) (MonadExcept.throw e) := fun _ _ _ => rfl

theorem bind {m : StateT σ (Except ε) α} {n : StateT τ (Except ε) β} {f : α → StateT σ (Except ε) α'}
    {g : β → StateT τ (Except ε) β'} (h : Simulates state value m n)
    (hrest : ∀ a b, value a b → Simulates state value' (f a) (g b)) :
    Simulates state value' (m >>= f) (n >>= g) := by
  intro s t hs
  have hfirst := h s t hs
  change match (m s).bind fun r => f r.1 r.2, (n t).bind fun r => g r.1 r.2 with
    | .ok (a, s'), .ok (b, t') => value' a b ∧ state s' t'
    | .error e, .error e' => e = e'
    | _, _ => False
  cases hm : m s with
  | error e =>
      cases hn : n t with
      | error e' =>
          rw [hm, hn] at hfirst
          exact hfirst
      | ok r =>
          rw [hm, hn] at hfirst
          exact hfirst.elim
  | ok r =>
      cases hn : n t with
      | error e =>
          rw [hm, hn] at hfirst
          exact hfirst.elim
      | ok r' =>
          rw [hm, hn] at hfirst
          exact hrest r.1 r'.1 hfirst.1 r.2 r'.2 hfirst.2

theorem ite {c : Bool} {m m' : StateT σ (Except ε) α} {n n' : StateT τ (Except ε) β} (h : Simulates state value m n)
    (h' : Simulates state value m' n') :
    Simulates state value (if c then m else m') (if c then n else n') := by
  cases c with
  | true => exact h
  | false => exact h'

end Simulates

end Simulation
