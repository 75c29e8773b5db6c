import Mathlib.Logic.Function.Basic
import Mathlib.Data.List.Basic

namespace Writes

variable {α β : Type*} [DecidableEq α]

def apply (store : α → β) (writes : List (α × β)) : α → β :=
  writes.foldl (fun f w => Function.update f w.1 w.2) store

@[simp] theorem apply_nil (store : α → β) : apply store [] = store := rfl

@[simp] theorem apply_cons (store : α → β) (w : α × β) (writes : List (α × β)) :
    apply store (w :: writes) = apply (Function.update store w.1 w.2) writes := rfl

theorem apply_append (store : α → β) (first second : List (α × β)) :
    apply store (first ++ second) = apply (apply store first) second :=
  List.foldl_append

theorem apply_concat (store : α → β) (writes : List (α × β)) (w : α × β) :
    apply store (writes ++ [w]) = Function.update (apply store writes) w.1 w.2 := by
  rw [apply_append]
  rfl

theorem apply_of_notMem (store : α → β) (writes : List (α × β)) (cell : α)
    (h : ∀ w ∈ writes, w.1 ≠ cell) : apply store writes cell = store cell := by
  induction writes generalizing store with
  | nil => rfl
  | cons w writes ih =>
      have hne : cell ≠ w.1 := (h w (by simp)).symm
      rw [apply_cons, ih _ (fun v hv => h v (by simp [hv])), Function.update_of_ne hne]

-- If every write to the cell writes the same value, the cell ends up with it
-- as soon as it is written once or held it before.
theorem apply_eq_of_forall (store : α → β) (writes : List (α × β)) (cell : α) (value : β)
    (hall : ∀ w ∈ writes, w.1 = cell → w.2 = value) (h : store cell = value ∨ ∃ w ∈ writes, w.1 = cell) :
    apply store writes cell = value := by
  induction writes generalizing store with
  | nil =>
      rcases h with h | ⟨w, hw, _⟩
      · exact h
      · simp at hw
  | cons w writes ih =>
      rw [apply_cons]
      apply ih
      · exact fun v hv => hall v (by simp [hv])
      · by_cases hw : w.1 = cell
        · left
          rw [← hw, Function.update_self]
          exact hall w (by simp) hw
        · rcases h with h | ⟨v, hv, hc⟩
          · left
            rw [Function.update_of_ne (Ne.symm hw), h]
          · rcases List.mem_cons.mp hv with rfl | hv
            · exact absurd hc hw
            · exact .inr ⟨v, hv, hc⟩

end Writes
