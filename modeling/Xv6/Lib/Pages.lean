import Mathlib.Algebra.Order.Group.Multiset
import Mathlib.Data.Multiset.AddSub
import Mathlib.Data.Multiset.UnionInter
import Mathlib.Logic.Function.Basic

namespace Pages

variable {α β : Type*}

-- A memory in pages and its allocator; free is what the allocator has.
structure Store (α β : Type*) where
  mem : α → β
  free : Multiset α

variable {P P' P'' R : Multiset α} {s t u : Store α β} {pool : α → Prop}

-- A program that owns the pages P leaves the pages P': none is lost or made on
-- the way, and those that are neither its own nor free are as they were.
structure Uses (P P' : Multiset α) (s t : Store α β) : Prop where
  pages : t.free + P' = s.free + P
  same : ∀ q, q ∉ s.free + P → t.mem q = s.mem q

-- Every page of the pool that is free or in P is there once.
structure Owned (pool : α → Prop) (P : Multiset α) (s : Store α β) : Prop where
  nodup : (s.free + P).Nodup
  pool : ∀ q ∈ s.free + P, pool q

namespace Uses

theorem refl (P : Multiset α) (s : Store α β) : Uses P P s s := ⟨rfl, fun _ _ => rfl⟩

theorem trans (h : Uses P P' s t) (h' : Uses P' P'' t u) : Uses P P'' s u where
  pages := h'.pages.trans h.pages
  same := by
    intro q hq
    have hq' : q ∉ t.free + P' := by rwa [h.pages]
    exact (h'.same q hq').trans (h.same q hq)

theorem frame (h : Uses P P' s t) (R : Multiset α) : Uses (P + R) (P' + R) s t where
  pages := by rw [← add_assoc, ← add_assoc, h.pages]
  same := by
    intro q hq
    rw [← add_assoc, Multiset.mem_add, not_or] at hq
    exact h.same q hq.1

theorem owned (h : Uses P P' s t) (ho : Owned pool P s) : Owned pool P' t := by
  constructor
  · rw [h.pages]
    exact ho.nodup
  · rw [h.pages]
    exact ho.pool

end Uses

namespace Owned

theorem congr (h : Owned pool P s) (hP : P' = P) : Owned pool P' s := hP ▸ h

theorem mono (h : Owned pool P s) (hle : P' ≤ P) : Owned pool P' s where
  nodup := Multiset.nodup_of_le (Multiset.add_le_add_left hle) h.nodup
  pool := fun q hq => h.pool q (Multiset.mem_of_le (Multiset.add_le_add_left hle) hq)

theorem left (h : Owned pool (P + R) s) : Owned pool P s := h.mono (Multiset.le_add_right P R)

theorem right (h : Owned pool (P + R) s) : Owned pool R s := h.mono (Multiset.le_add_left R P)

theorem disjoint (h : Owned pool (P + R) s) : ∀ q ∈ R, q ∉ s.free + P := by
  have hnodup := h.nodup
  rw [← add_assoc] at hnodup
  intro q hq hmem
  exact Multiset.disjoint_left.mp (Multiset.disjoint_of_nodup_add hnodup) hmem hq

theorem notMem_free (h : Owned pool P s) {q : α} (hq : q ∈ P) : q ∉ s.free :=
  fun hmem => Multiset.disjoint_left.mp (Multiset.disjoint_of_nodup_add h.nodup) hmem hq

theorem nodup_right (h : Owned pool P s) : P.Nodup :=
  Multiset.nodup_of_le (Multiset.le_add_left P s.free) h.nodup

end Owned

theorem Uses.kept (h : Uses P P' s t) (ho : Owned pool (P + R) s) : ∀ q ∈ R, t.mem q = s.mem q :=
  fun q hq => h.same q (ho.disjoint q hq)

end Pages
