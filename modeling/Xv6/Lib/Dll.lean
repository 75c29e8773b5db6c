import Mathlib.Data.List.Perm.Basic
import Mathlib.Data.List.Nodup
import Mathlib.Logic.Function.Basic

namespace Dll

open Function (update update_of_ne update_self)

-- The pointers of a doubly linked ring; none is the node that heads it.
structure Links (α : Type*) where
  next : Option α → Option α
  prev : Option α → Option α

variable {α : Type*}

namespace Links

variable [DecidableEq α]

def setNext (l : Links α) (a b : Option α) : Links α := { l with next := update l.next a b }
def setPrev (l : Links α) (a b : Option α) : Links α := { l with prev := update l.prev a b }

def empty : Links α := ⟨fun _ => none, fun _ => none⟩

def pushFront (l : Links α) (b : α) : Links α :=
  let l := l.setNext (some b) (l.next none)
  let l := l.setPrev (some b) none
  let l := l.setPrev (l.next none) (some b)
  l.setNext none (some b)

def unlink (l : Links α) (b : α) : Links α :=
  let l := l.setPrev (l.next (some b)) (l.prev (some b))
  l.setNext (l.prev (some b)) (l.next (some b))

def search (step : Option α → Option α) (p : α → Bool) : (fuel : ℕ) → Option α → Option α
  | 0, _ => none
  | _ + 1, none => none
  | fuel + 1, some b => if p b then some b else search step p fuel (step (some b))

end Links

def Path (l : Links α) : Option α → List α → Option α → Prop
  | a, [], b => l.next a = b ∧ l.prev b = a
  | a, x :: xs, b => l.next a = some x ∧ l.prev (some x) = a ∧ Path l (some x) xs b

structure Holds (l : Links α) (xs : List α) : Prop where
  nodup : xs.Nodup
  path : Path l none xs none

namespace Path

variable {l l' : Links α} {a b : Option α} {x : α} {xs ys : List α}

theorem append : Path l a (xs ++ x :: ys) b ↔ Path l a xs (some x) ∧ Path l (some x) ys b := by
  induction xs generalizing a with
  | nil =>
      simp only [List.nil_append, Path]
      exact (and_assoc).symm
  | cons y xs ih =>
      simp only [List.cons_append, Path, ih, and_assoc]

theorem congr (h : Path l a xs b) (hnext : ∀ c, c = a ∨ (∃ x ∈ xs, c = some x) → l'.next c = l.next c)
    (hprev : ∀ c, c = b ∨ (∃ x ∈ xs, c = some x) → l'.prev c = l.prev c) : Path l' a xs b := by
  induction xs generalizing a with
  | nil =>
      obtain ⟨h₁, h₂⟩ := h
      exact ⟨(hnext a (.inl rfl)).trans h₁, (hprev b (.inl rfl)).trans h₂⟩
  | cons x xs ih =>
      obtain ⟨h₁, h₂, h₃⟩ := h
      refine ⟨(hnext a (.inl rfl)).trans h₁, (hprev _ (.inr ⟨x, List.mem_cons_self, rfl⟩)).trans h₂,
        ih h₃ (fun c hc => hnext c ?_) fun c hc => hprev c ?_⟩
      · rcases hc with rfl | ⟨y, hy, rfl⟩
        · exact .inr ⟨x, List.mem_cons_self, rfl⟩
        · exact .inr ⟨y, List.mem_cons_of_mem _ hy, rfl⟩
      · rcases hc with rfl | ⟨y, hy, rfl⟩
        · exact .inl rfl
        · exact .inr ⟨y, List.mem_cons_of_mem _ hy, rfl⟩

theorem next_mem (h : Path l a xs b) : l.next a = b ∨ ∃ x ∈ xs, l.next a = some x := by
  cases xs with
  | nil => exact .inl h.1
  | cons x xs => exact .inr ⟨x, List.mem_cons_self, h.1⟩

theorem prev_mem (h : Path l a xs b) : l.prev b = a ∨ ∃ x ∈ xs, l.prev b = some x := by
  induction xs generalizing a with
  | nil => exact .inl h.2
  | cons x xs ih =>
      rcases ih h.2.2 with heq | ⟨y, hy, heq⟩
      · exact .inr ⟨x, List.mem_cons_self, heq⟩
      · exact .inr ⟨y, List.mem_cons_of_mem _ hy, heq⟩

theorem flip (h : Path l a xs b) : Path ⟨l.prev, l.next⟩ b xs.reverse a := by
  induction xs generalizing a with
  | nil => exact ⟨h.2, h.1⟩
  | cons x xs ih =>
      obtain ⟨hnext, hprev, hrest⟩ := h
      rw [List.reverse_cons]
      exact append.mpr ⟨ih hrest, hprev, hnext⟩

variable [DecidableEq α]

theorem unlink_eq (hx : l.next (some x) ≠ some x) :
    l.unlink x = ⟨update l.next (l.prev (some x)) (l.next (some x)),
      update l.prev (l.next (some x)) (l.prev (some x))⟩ := by
  simp only [Links.unlink, Links.setNext, Links.setPrev, update_of_ne (Ne.symm hx)]

theorem unlink (h : Path l a xs (some x)) (h' : Path l (some x) ys b) (hnodup : (xs ++ x :: ys).Nodup)
    (ha : ∀ y ∈ xs ++ ys, some y ≠ a) (hb : ∀ y ∈ xs ++ x :: ys, some y ≠ b) :
    Path (l.unlink x) a (xs ++ ys) b := by
  have hself : l.next (some x) ≠ some x := by
    rcases h'.next_mem with heq | ⟨y, hy, heq⟩
    · rw [heq]
      exact (hb x (by simp)).symm
    · rw [heq]
      rintro ⟨⟩
      exact (List.nodup_cons.mp (List.nodup_append.mp hnodup).2.1).1 hy
  rw [unlink_eq hself]
  induction xs generalizing a with
  | nil =>
      obtain ⟨-, hprev⟩ := h
      cases ys with
      | nil =>
          obtain ⟨hnext, -⟩ := h'
          simp [Path, hprev, hnext]
      | cons y ys =>
          obtain ⟨hnext, -, hrest⟩ := h'
          rw [hnext, hprev]
          refine ⟨update_self .., update_self .., hrest.congr (fun c hc => ?_) fun c hc => ?_⟩
          · refine update_of_ne ?_ _ _
            rcases hc with rfl | ⟨z, hz, rfl⟩
            · exact ha y (by simp)
            · exact ha z (by simp [hz])
          · refine update_of_ne ?_ _ _
            rcases hc with rfl | ⟨z, hz, rfl⟩
            · exact (hb y (by simp)).symm
            · rintro ⟨⟩
              simp [hz] at hnodup
  | cons z xs ih =>
      obtain ⟨hnext, hprev, hrest⟩ := h
      have htail : (xs ++ x :: ys).Nodup := (List.nodup_cons.mp hnodup).2
      have hz : z ∉ xs ++ x :: ys := (List.nodup_cons.mp hnodup).1
      refine ⟨?_, ?_, ih hrest htail (fun y hy => ?_) fun y hy => hb y (List.mem_cons_of_mem _ hy)⟩
      · rw [← hnext]
        refine update_of_ne ?_ _ _
        rcases hrest.prev_mem with heq | ⟨y, hy, heq⟩
        · rw [heq]
          exact (ha z (by simp)).symm
        · rw [heq]
          exact (ha y (by simp [hy])).symm
      · rw [← hprev]
        refine update_of_ne ?_ _ _
        rcases h'.next_mem with heq | ⟨y, hy, heq⟩
        · rw [heq]
          exact hb z (by simp)
        · rw [heq]
          rintro ⟨⟩
          exact hz (by simp [hy])
      · rintro ⟨⟩
        refine hz ?_
        rcases List.mem_append.mp hy with hy | hy
        · simp [hy]
        · simp [hy]

end Path

namespace Holds

variable {l : Links α} {x : α} {xs : List α}

theorem empty : Holds (Links.empty : Links α) [] := ⟨List.nodup_nil, rfl, rfl⟩

section

variable [DecidableEq α]

theorem pushFront (h : Holds l xs) (hx : x ∉ xs) : Holds (l.pushFront x) (x :: xs) := by
  refine ⟨List.nodup_cons.mpr ⟨hx, h.nodup⟩, ?_⟩
  have hpath := h.path
  cases xs with
  | nil =>
      obtain ⟨hnext, -⟩ := hpath
      simp [Path, Links.pushFront, Links.setNext, Links.setPrev, hnext]
  | cons y ys =>
      obtain ⟨hnext, -, hrest⟩ := hpath
      have hxy : x ≠ y := fun heq => hx (by simp [heq])
      have hy : y ∉ ys := (List.nodup_cons.mp h.nodup).1
      have hnew : (l.pushFront x).next =
          update (update l.next (some x) (some y)) none (some x) := by
        simp [Links.pushFront, Links.setNext, Links.setPrev, hnext]
      have hback : (l.pushFront x).prev =
          update (update l.prev (some x) none) (some y) (some x) := by
        simp [Links.pushFront, Links.setNext, Links.setPrev, hnext]
      refine ⟨?_, ?_, ?_, ?_, hrest.congr (fun c hc => ?_) fun c hc => ?_⟩
      · rw [hnew, update_self]
      · rw [hback, update_of_ne (by simpa using hxy), update_self]
      · rw [hnew, update_of_ne (by simp), update_self]
      · rw [hback, update_self]
      · have hne : c ≠ none ∧ c ≠ some x := by
          rcases hc with rfl | ⟨z, hz, rfl⟩
          · exact ⟨Option.some_ne_none y, by simpa using Ne.symm hxy⟩
          · refine ⟨Option.some_ne_none z, ?_⟩
            rintro ⟨⟩
            exact hx (List.mem_cons_of_mem _ hz)
        rw [hnew, update_of_ne hne.1, update_of_ne hne.2]
      · have hne : c ≠ some y ∧ c ≠ some x := by
          rcases hc with rfl | ⟨z, hz, rfl⟩
          · exact ⟨(Option.some_ne_none y).symm, (Option.some_ne_none x).symm⟩
          · constructor
            · rintro ⟨⟩
              exact hy hz
            · rintro ⟨⟩
              exact hx (List.mem_cons_of_mem _ hz)
        rw [hback, update_of_ne hne.1, update_of_ne hne.2]

theorem unlink (h : Holds l xs) (hx : x ∈ xs) : Holds (l.unlink x) (xs.erase x) := by
  obtain ⟨ys, zs, rfl⟩ := List.append_of_mem hx
  obtain ⟨hfirst, hrest⟩ := Path.append.mp h.path
  have hnot : x ∉ ys := fun hmem => (List.disjoint_of_nodup_append h.nodup) hmem List.mem_cons_self
  have herase : (ys ++ x :: zs).erase x = ys ++ zs := by
    rw [List.erase_append_right _ hnot, List.erase_cons_head]
  refine ⟨h.nodup.erase x, ?_⟩
  rw [herase]
  exact hfirst.unlink hrest h.nodup (fun _ _ => Option.some_ne_none _) fun _ _ => Option.some_ne_none _

-- The node that was used last goes to the front.
theorem moveFront (h : Holds l xs) (hx : x ∈ xs) : Holds ((l.unlink x).pushFront x) (x :: xs.erase x) :=
  (h.unlink hx).pushFront (h.nodup.not_mem_erase)

end

theorem search_path (p : α → Bool) {a : Option α} (h : Path l a xs none) {fuel : ℕ} (hfuel : xs.length < fuel) :
    Links.search l.next p fuel (l.next a) = xs.find? p := by
  induction xs generalizing a fuel with
  | nil =>
      rw [h.1]
      cases fuel <;> rfl
  | cons x xs ih =>
      obtain ⟨hnext, -, hrest⟩ := h
      cases fuel with
      | zero => exact absurd hfuel (Nat.not_lt_zero _)
      | succ fuel =>
          rw [hnext, Links.search, List.find?_cons]
          cases hp : p x with
          | true => rfl
          | false => exact ih hrest (Nat.lt_of_succ_lt_succ hfuel)

-- Walks along the ring, forwards and backwards.
theorem search_next (h : Holds l xs) (p : α → Bool) {fuel : ℕ} (hfuel : xs.length < fuel) :
    Links.search l.next p fuel (l.next none) = xs.find? p := search_path p h.path hfuel

theorem search_prev (h : Holds l xs) (p : α → Bool) {fuel : ℕ} (hfuel : xs.length < fuel) :
    Links.search l.prev p fuel (l.prev none) = xs.reverse.find? p :=
  search_path p h.path.flip (by rwa [List.length_reverse])

end Holds

end Dll
