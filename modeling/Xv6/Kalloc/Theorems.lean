import Xv6.Kalloc
import Xv6.Lib.Pages

namespace Xv6

open Wp

namespace Ram

def store (s : Ram) : Pages.Store ℕ Page := ⟨s.mem, s.freelist⟩

structure Uses (P P' : Multiset ℕ) (s t : Ram) : Prop where
  store : Pages.Uses P P' s.store t.store
  kend : t.kend = s.kend

def Owned (s : Ram) (P : Multiset ℕ) : Prop := Pages.Owned (InRam s.kend) P s.store

variable {P P' P'' R : Multiset ℕ} {s t u : Ram}

namespace Uses

theorem refl (P : Multiset ℕ) (s : Ram) : Uses P P s s := ⟨.refl P _, rfl⟩

theorem trans (h : Uses P P' s t) (h' : Uses P' P'' t u) : Uses P P'' s u :=
  ⟨h.store.trans h'.store, h'.kend.trans h.kend⟩

theorem frame (h : Uses P P' s t) (R : Multiset ℕ) : Uses (P + R) (P' + R) s t :=
  ⟨h.store.frame R, h.kend⟩

theorem owned (h : Uses P P' s t) (ho : s.Owned P) : t.Owned P' := by
  unfold Owned
  rw [h.kend]
  exact h.store.owned ho

theorem kept (h : Uses P P' s t) (ho : s.Owned (P + R)) : ∀ q ∈ R, t.mem q = s.mem q :=
  h.store.kept ho

theorem congr {Q Q' : Multiset ℕ} (h : Uses P P' s t) (hQ : Q = P) (hQ' : Q' = P') : Uses Q Q' s t := by
  subst hQ hQ'
  exact h

theorem write (s : Ram) {q : ℕ} (hq : q ∈ P) (page : Page) :
    Uses P P s { s with mem := Function.update s.mem q page } := by
  refine ⟨⟨rfl, fun q' hq' => ?_⟩, rfl⟩
  have hne : q' ≠ q := by
    rintro rfl
    exact hq' (Multiset.mem_add.mpr (.inr hq))
  exact Function.update_of_ne hne _ _

end Uses

namespace Owned

theorem congr (h : s.Owned P) (hP : P' = P) : s.Owned P' := Pages.Owned.congr h hP

theorem mono (h : s.Owned P) (hle : P' ≤ P) : s.Owned P' := Pages.Owned.mono h hle

theorem left (h : s.Owned (P + R)) : s.Owned P := Pages.Owned.left h

theorem right (h : s.Owned (P + R)) : s.Owned R := Pages.Owned.right h

theorem nodup (h : s.Owned P) : P.Nodup := Pages.Owned.nodup_right h

theorem inRam (h : s.Owned P) {q : ℕ} (hq : q ∈ P) : InRam s.kend q :=
  h.pool q (Multiset.mem_add.mpr (.inr hq))

end Owned

end Ram

open Ram

theorem kfree_spec {s : Ram} {pa : ℕ} (ho : s.Owned {pa}) :
    wp (kfree pa) (fun _ t => Uses {pa} 0 s t) (fun _ => False) s := by
  have hin : InRam s.kend pa := ho.pool pa (by simp)
  simp only [kfree, wp_bind, wp_get, hin, not_true_eq_false, wp_ite, ite_false, wp_modify]
  refine ⟨⟨?_, fun q hq => ?_⟩, rfl⟩
  · simp only [store, ← Multiset.cons_coe, ← Multiset.singleton_add pa]
    rw [add_zero, add_comm]
  · have hne : q ≠ pa := by
      rintro rfl
      exact hq (by simp)
    exact Function.update_of_ne hne _ _

-- kalloc takes a page from the free ones or leaves memory as it is.
theorem kalloc_spec (s : Ram) :
    wp kalloc (fun r t => match r with
      | none => Uses 0 0 s t ∧ t.mem = s.mem
      | some pa => Uses 0 {pa} s t) (fun _ => False) s := by
  simp only [kalloc, wp_bind, wp_get]
  split
  · rename_i pa rest hfail hlist
    simp only [wp_bind, wp_set, wp_pure]
    refine ⟨⟨?_, fun q hq => ?_⟩, rfl⟩
    · simp only [store, hlist, ← Multiset.cons_coe, add_zero]
      rw [add_comm, Multiset.singleton_add]
    · have hne : q ≠ pa := by
        rintro rfl
        exact hq (by simp [store, hlist])
      exact Function.update_of_ne hne _ _
  · simp only [wp_bind, wp_set, wp_pure]
    exact ⟨⟨⟨rfl, fun _ _ => rfl⟩, rfl⟩, trivial⟩

end Xv6
