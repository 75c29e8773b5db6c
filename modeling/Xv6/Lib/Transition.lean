import Mathlib.Logic.Relation

namespace Transition

variable {σ : Type*}

variable {step : σ → σ → Prop} {start finish : σ}

-- The states a system can get to from start by any number of steps.
abbrev Reaches (step : σ → σ → Prop) (start finish : σ) : Prop :=
  Relation.ReflTransGen step start finish

theorem Reaches.invariant (hrun : Reaches step start finish) (inv : σ → Prop) (hstart : inv start)
    (hstep : ∀ s t, inv s → step s t → inv t) : inv finish := by
  induction hrun with
  | refl => exact hstart
  | tail _ hst ih => exact hstep _ _ ih hst

-- An invariant may rely on a second one that was proved before.
theorem Reaches.invariant_of {base : σ → Prop}
    (hrun : Reaches step start finish) (inv : σ → Prop) (hbase : ∀ s, Reaches step start s → base s)
    (hstart : inv start) (hstep : ∀ s t, base s → inv s → step s t → inv t) : inv finish := by
  induction hrun with
  | refl => exact hstart
  | tail hrun hst ih => exact hstep _ _ (hbase _ hrun) ih hst

theorem Reaches.mono {step' : σ → σ → Prop} (hrun : Reaches step start finish)
    (h : ∀ s t, step s t → step' s t) : Reaches step' start finish := by
  induction hrun with
  | refl => exact .refl
  | tail _ hst ih => exact ih.tail (h _ _ hst)

theorem exists_of_any {r : Option σ} {P : σ → Prop} [DecidablePred P] (h : r.any fun t => decide (P t)) :
    ∃ t, r = some t ∧ P t := by
  cases r with
  | none => cases h
  | some t => exact ⟨t, rfl, of_decide_eq_true h⟩

section Replay

variable {ε : Type*} {next : σ → ε → Option σ} {events : List ε}

-- Runs a list of events; none if one of them is not possible in its place.
def replay (next : σ → ε → Option σ) (s : σ) : List ε → Option σ
  | [] => some s
  | e :: events => (next s e).bind fun t => replay next t events

theorem reaches_of_replay (hnext : ∀ e ∈ events, ∀ s t, next s e = some t → step s t)
    (h : replay next start events = some finish) : Reaches step start finish := by
  induction events generalizing start with
  | nil =>
      cases h
      exact .refl
  | cons e events ih =>
      obtain ⟨u, hu, hrest⟩ := Option.bind_eq_some_iff.mp h
      exact .head (hnext e List.mem_cons_self _ _ hu) (ih (fun e he => hnext e (List.mem_cons_of_mem _ he)) hrest)

theorem exists_of_replay (start : σ) (events : List ε) (P : σ → Prop) [DecidablePred P]
    (h : (replay next start events).any fun t => decide (P t))
    (hnext : ∀ e ∈ events, ∀ s t, next s e = some t → step s t) : ∃ t, Reaches step start t ∧ P t := by
  obtain ⟨t, ht, hp⟩ := exists_of_any h
  exact ⟨t, reaches_of_replay hnext ht, hp⟩

end Replay

end Transition
