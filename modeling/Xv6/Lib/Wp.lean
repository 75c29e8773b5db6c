namespace Wp

universe u v

variable {σ ε : Type u} {α β : Type u}

variable {e : ε} {post' : α → σ → Prop}

-- The weakest precondition of a stateful program that may stop with an error.
def wp (m : StateT σ (Except ε) α) (post : α → σ → Prop) (err : ε → Prop) (s : σ) : Prop :=
  match m s with
  | .ok (a, t) => post a t
  | .error e => err e

variable {m : StateT σ (Except ε) α} {post : α → σ → Prop} {err : ε → Prop} {s : σ}

theorem wp_of_ok {a : α} {t : σ} (h : m s = .ok (a, t)) : wp m post err s ↔ post a t := by
  rw [wp, h]

theorem wp_of_error (h : m s = .error e) : wp m post err s ↔ err e := by
  rw [wp, h]

instance [∀ a t, Decidable (post a t)] [DecidablePred err] : Decidable (wp m post err s) := by
  unfold wp
  split <;> infer_instance

theorem exists_of_wp (h : wp m post (fun _ => False) s) : ∃ a t, m s = .ok (a, t) ∧ post a t := by
  unfold wp at h
  split at h
  · exact ⟨_, _, by assumption, h⟩
  · exact h.elim

-- For runs that the kernel evaluates: decide keeps the elaborator from unfolding them.
theorem exists_of_decide_wp [∀ a t, Decidable (post a t)] (h : decide (wp m post (fun _ => False) s)) :
    ∃ a t, m s = .ok (a, t) ∧ post a t :=
  exists_of_wp (of_decide_eq_true h)

theorem eq_error_of_decide_wp [DecidableEq ε] (h : decide (wp m (fun _ _ => False) (· = e) s)) :
    m s = .error e := by
  have hwp := of_decide_eq_true h
  unfold wp at hwp
  split at hwp
  · exact hwp.elim
  · exact hwp ▸ by assumption

theorem wp_mono {err' : ε → Prop} (h : wp m post err s)
    (hpost : ∀ a t, post a t → post' a t) (herr : ∀ e, err e → err' e) : wp m post' err' s := by
  unfold wp at *
  split at h
  · exact hpost _ _ h
  · exact herr _ h

theorem wp_of_forall (hpost : ∀ a t, post a t) (herr : ∀ e, err e) : wp m post err s := by
  unfold wp
  split
  · exact hpost _ _
  · exact herr _

theorem wp_run (h : wp m post err s) : wp m (fun a t => m s = .ok (a, t) ∧ post a t) err s := by
  unfold wp at *
  split at h
  · exact ⟨by assumption, h⟩
  · exact h

theorem wp_post (h : wp m post err s) (hpost : ∀ a t, post a t → post' a t) : wp m post' err s :=
  wp_mono h hpost fun _ he => he

theorem wp_congr (h : ∀ a t, post a t ↔ post' a t) : wp m post err s ↔ wp m post' err s :=
  ⟨fun hwp => wp_post hwp fun a t => (h a t).mp, fun hwp => wp_post hwp fun a t => (h a t).mpr⟩

@[simp] theorem wp_pure (a : α) : wp (pure a) post err s ↔ post a s := Iff.rfl

@[simp] theorem wp_bind {f : α → StateT σ (Except ε) β} {post : β → σ → Prop} :
    wp (m >>= f) post err s ↔ wp m (fun a t => wp (f a) post err t) err s := by
  unfold wp
  simp only [bind, StateT.bind, Except.bind]
  cases m s with
  | error e => rfl
  | ok x => rfl

@[simp] theorem wp_map {f : α → β} {post : β → σ → Prop} :
    wp (f <$> m) post err s ↔ wp m (fun a t => post (f a) t) err s := by
  unfold wp
  simp only [Functor.map, StateT.map, bind, Except.bind]
  cases m s with
  | error e => rfl
  | ok x => rfl

theorem wp_discard {post : σ → Prop} (h : wp m (fun _ t => post t) err s) :
    wp (discard m) (fun _ t => post t) err s := by
  change wp ((fun _ => PUnit.unit) <$> m) _ _ _
  exact wp_map.mpr h

@[simp] theorem wp_get {post : σ → σ → Prop} :
    wp (get : StateT σ (Except ε) σ) post err s ↔ post s s := Iff.rfl

@[simp] theorem wp_set {t : σ} {post : PUnit → σ → Prop} :
    wp (set t : StateT σ (Except ε) PUnit) post err s ↔ post ⟨⟩ t := Iff.rfl

@[simp] theorem wp_modify {f : σ → σ} {post : PUnit → σ → Prop} :
    wp (modify f : StateT σ (Except ε) PUnit) post err s ↔ post ⟨⟩ (f s) := Iff.rfl

@[simp] theorem wp_throw : wp (throw e : StateT σ (Except ε) α) post err s ↔ err e := Iff.rfl

@[simp] theorem wp_ite {c : Prop} [Decidable c] {n : StateT σ (Except ε) α} :
    wp (if c then m else n) post err s ↔ (if c then wp m post err s else wp n post err s) := by
  split <;> rfl

-- A program on a part of a larger state, with its errors among the larger system's.
def zoom {τ ε' : Type u} (part : τ → σ) (put : τ → σ → τ) (inj : ε → ε') (m : StateT σ (Except ε) α) :
    StateT τ (Except ε') α := fun t =>
  match m (part t) with
  | .ok (a, s) => .ok (a, put t s)
  | .error e => .error (inj e)

@[simp] theorem wp_zoom {τ ε' : Type u} {part : τ → σ} {put : τ → σ → τ} {inj : ε → ε'}
    {post : α → τ → Prop} {err : ε' → Prop} {t : τ} :
    wp (zoom part put inj m) post err t ↔
      wp m (fun a s => post a (put t s)) (fun e => err (inj e)) (part t) := by
  unfold wp zoom
  cases m (part t) with
  | error e => rfl
  | ok x => rfl

theorem wp_and {err' : ε → Prop} (h : wp m post err s) (h' : wp m post' err' s) :
    wp m (fun a t => post a t ∧ post' a t) (fun e => err e ∧ err' e) s := by
  unfold wp at *
  split at h
  · exact ⟨h, by simp_all⟩
  · exact ⟨h, by simp_all⟩

-- Loops: an invariant over what is still to be done.
theorem wp_forM {γ : Type v} {f : γ → StateT σ (Except ε) PUnit} (inv : List γ → σ → Prop)
    (hstep : ∀ x rest s, inv (x :: rest) s → wp (f x) (fun _ t => inv rest t) err s)
    (items : List γ) (h : inv items s) : wp (items.forM f) (fun _ t => inv [] t) err s := by
  induction items generalizing s with
  | nil => exact h
  | cons x rest ih =>
      change wp (f x >>= fun _ => rest.forM f) _ _ _
      rw [wp_bind]
      exact wp_post (hstep x rest s h) fun _ t ht => ih ht

end Wp
