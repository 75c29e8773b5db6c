import Mathlib.Data.Nat.Notation
import Mathlib.Logic.Function.Basic
import Mathlib.Logic.Relation
import Mathlib.Order.Basic

namespace Forest

variable {α : Type*} {parent parent' : α → Option α} {a b : α}

def Ancestor (parent : α → Option α) (a b : α) : Prop := Relation.TransGen (fun x y => parent x = some y) a b

def Ranked (parent : α → Option α) : Prop := ∃ rank : α → ℕ, ∀ x y, parent x = some y → rank y < rank x

theorem Ranked.not_ancestor_self (h : Ranked parent) (a : α) : ¬Ancestor parent a a := by
  obtain ⟨rank, hrank⟩ := h
  have hlt : ∀ {x y}, Ancestor parent x y → rank y < rank x := by
    intro x y hxy
    induction hxy with
    | single hedge => exact hrank _ _ hedge
    | tail _ hedge ih => exact Nat.lt_trans (hrank _ _ hedge) ih
  exact fun hself => Nat.lt_irrefl _ (hlt hself)

theorem Ranked.mono (h : Ranked parent) (hsub : ∀ x y, parent' x = some y → parent x = some y) :
    Ranked parent' := by
  obtain ⟨rank, hrank⟩ := h
  exact ⟨rank, fun x y hxy => hrank x y (hsub x y hxy)⟩

theorem Ranked.adopt (h : Ranked parent) (hleaf : ∀ x, parent x ≠ some a) (hne : b ≠ a)
    (hsub : ∀ x y, parent' x = some y → parent x = some y ∨ x = a ∧ y = b) : Ranked parent' := by
  classical
  obtain ⟨rank, hrank⟩ := h
  have hold : ∀ x y, parent x = some y → y ≠ a := by
    rintro x y hxy rfl
    exact hleaf x hxy
  refine ⟨Function.update rank a (rank a + rank b + 1), fun x y hxy => ?_⟩
  rcases hsub x y hxy with hxy | ⟨rfl, rfl⟩
  · rw [Function.update_of_ne (hold x y hxy)]
    by_cases hx : x = a
    · subst hx
      have hlt := hrank x y hxy
      rw [Function.update_self]
      omega
    · rw [Function.update_of_ne hx]
      exact hrank x y hxy
  · rw [Function.update_self, Function.update_of_ne hne]
    omega

theorem Ranked.handOver (h : Ranked parent) (hroot : parent b = none) (hne : b ≠ a)
    (hsub : ∀ x y, parent' x = some y → parent x = some y ∨ x = a ∧ y = b) : Ranked parent' := by
  classical
  obtain ⟨rank, hrank⟩ := h
  refine ⟨fun x => if x = b then 0 else rank x + 1, fun x y hxy => ?_⟩
  have hx : x ≠ b := by
    rintro rfl
    rcases hsub x y hxy with hxy | ⟨rfl, -⟩
    · rw [hroot] at hxy
      cases hxy
    · exact hne rfl
  simp only [hx, if_false]
  split
  · omega
  · rename_i hy
    rcases hsub x y hxy with hxy | ⟨-, rfl⟩
    · exact Nat.succ_lt_succ (hrank x y hxy)
    · exact absurd rfl hy

end Forest
