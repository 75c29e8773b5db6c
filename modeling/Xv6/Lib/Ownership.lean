import Mathlib.Data.Set.Basic
import Mathlib.Logic.Function.Basic

namespace Ownership

open Function (update update_of_ne update_self)

variable {α β : Type*} {ref : α → Option β} {used : β → Prop} {pool : Set β}

-- The slots α refer one to one to the used resources of a pool.
structure Owns (ref : α → Option β) (used : β → Prop) (pool : Set β) : Prop where
  sound : ∀ a b, ref a = some b → b ∈ pool ∧ used b
  inj : ∀ a a' b, ref a = some b → ref a' = some b → a = a'
  complete : ∀ b ∈ pool, used b → ∃ a, ref a = some b

namespace Owns

theorem congr (h : Owns ref used pool) {ref' : α → Option β} {used' : β → Prop} {pool' : Set β}
    (href : ∀ a, ref' a = ref a) (hused : ∀ b, b ∈ pool' ∧ used' b ↔ b ∈ pool ∧ used b) : Owns ref' used' pool' := by
  rw [funext href]
  exact ⟨fun a b hb => (hused b).mpr (h.sound a b hb), h.inj, fun b hb hb' =>
    h.complete b ((hused b).mp ⟨hb, hb'⟩).1 ((hused b).mp ⟨hb, hb'⟩).2⟩

theorem alloc (h : Owns ref used pool) [DecidableEq α] {a : α} {b : β} (hempty : ref a = none)
    (hb : b ∈ pool) (hfresh : ¬used b) :
    Owns (update ref a (some b)) (fun c => used c ∨ c = b) pool where
  sound := by
    intro a' c hc
    by_cases ha : a' = a
    · subst ha
      rw [update_self, Option.some.injEq] at hc
      exact ⟨hc ▸ hb, .inr hc.symm⟩
    · rw [update_of_ne ha] at hc
      exact ⟨(h.sound a' c hc).1, .inl (h.sound a' c hc).2⟩
  inj := by
    intro a₁ a₂ c h₁ h₂
    by_cases ha₁ : a₁ = a <;> by_cases ha₂ : a₂ = a
    · rw [ha₁, ha₂]
    · rw [ha₁, update_self, Option.some.injEq] at h₁
      rw [update_of_ne ha₂] at h₂
      exact absurd (h₁ ▸ (h.sound a₂ c h₂).2) hfresh
    · rw [ha₂, update_self, Option.some.injEq] at h₂
      rw [update_of_ne ha₁] at h₁
      exact absurd (h₂ ▸ (h.sound a₁ c h₁).2) hfresh
    · rw [update_of_ne ha₁] at h₁
      rw [update_of_ne ha₂] at h₂
      exact h.inj a₁ a₂ c h₁ h₂
  complete := by
    rintro c hc (hused | rfl)
    · obtain ⟨a', ha'⟩ := h.complete c hc hused
      have hne : a' ≠ a := by
        rintro rfl
        rw [hempty] at ha'
        cases ha'
      exact ⟨a', by rw [update_of_ne hne, ha']⟩
    · exact ⟨a, update_self ..⟩

theorem release (h : Owns ref used pool) (S : α → Prop) [DecidablePred S] :
    Owns (fun a => if S a then none else ref a)
      (fun b => used b ∧ ∀ a, S a → ref a ≠ some b) pool where
  sound := by
    intro a b hb
    split at hb
    · cases hb
    · rename_i ha
      refine ⟨(h.sound a b hb).1, (h.sound a b hb).2, fun a' ha' hb' => ha ?_⟩
      rwa [h.inj a a' b hb hb']
  inj := by
    intro a a' b hb hb'
    split at hb
    · cases hb
    · split at hb'
      · cases hb'
      · exact h.inj a a' b hb hb'
  complete := by
    rintro b hb ⟨hused, hkept⟩
    obtain ⟨a, ha⟩ := h.complete b hb hused
    exact ⟨a, by rw [if_neg fun hS => hkept a hS ha, ha]⟩

end Owns

end Ownership
