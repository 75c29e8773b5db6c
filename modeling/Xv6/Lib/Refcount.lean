import Mathlib.Algebra.BigOperators.Group.Finset.Basic
import Mathlib.Algebra.Order.BigOperators.Group.Finset
import Mathlib.Data.Fintype.BigOperators

namespace Refcount

variable {α β : Type*} [Fintype α] [DecidableEq β]

def held (h : α → Option β) (b : β) : ℕ := ∑ a, if h a = some b then 1 else 0

variable {h g : α → Option β} {a : α} {b : β}

theorem held_pos (ha : h a = some b) : 0 < held h b := by
  have hle : (if h a = some b then 1 else 0) ≤ held h b :=
    Finset.single_le_sum (f := fun a => if h a = some b then 1 else 0) (fun _ _ => Nat.zero_le _)
      (Finset.mem_univ a)
  rwa [if_pos ha] at hle

theorem held_update [DecidableEq α] (h : α → Option β) (a : α) (o : Option β) (b : β) :
    held (Function.update h a o) b + (if h a = some b then 1 else 0) =
      held h b + if o = some b then 1 else 0 := by
  unfold held
  rw [← Finset.add_sum_erase _ _ (Finset.mem_univ a),
    ← Finset.add_sum_erase Finset.univ (fun a => if h a = some b then 1 else 0) (Finset.mem_univ a),
    Function.update_self]
  have hrest : ∑ c ∈ Finset.univ.erase a, (if Function.update h a o c = some b then 1 else 0) =
      ∑ c ∈ Finset.univ.erase a, if h c = some b then 1 else 0 :=
    Finset.sum_congr rfl fun c hc => by rw [Function.update_of_ne (Finset.ne_of_mem_erase hc)]
  rw [hrest]
  omega

end Refcount
