import Mathlib.Data.List.Nodup

namespace Chain

variable {α : Type*} {next next' : α → α}

variable {a b z : α} {l l' : List α}

def Leads (next : α → α) : α → List α → α → Prop
  | a, [], z => next a = z
  | a, b :: l, z => next a = b ∧ Leads next b l z

theorem leads_append :
    Leads next a (l ++ b :: l') z ↔ Leads next a l b ∧ Leads next b l' z := by
  induction l generalizing a with
  | nil => rfl
  | cons c l ih =>
      change next a = c ∧ Leads next c (l ++ b :: l') z ↔ (next a = c ∧ Leads next c l b) ∧ Leads next b l' z
      rw [ih, and_assoc]

-- A path may start from any node with the same successor, and only depends on next at its nodes.
theorem Leads.head (h : Leads next a l z) (hab : next' b = next a)
    (hl : ∀ x ∈ l, next' x = next x) : Leads next' b l z := by
  induction l generalizing a b with
  | nil => exact hab.trans h
  | cons c l ih =>
      refine ⟨hab.trans h.1, ih h.2 (hl c List.mem_cons_self) fun x hx => hl x (List.mem_cons_of_mem _ hx)⟩

theorem Leads.congr (h : Leads next a l z) (hl : ∀ x ∈ a :: l, next' x = next x) :
    Leads next' a l z :=
  h.head (hl a List.mem_cons_self) fun x hx => hl x (List.mem_cons_of_mem _ hx)

theorem Leads.rotate (h : Leads next a (l ++ b :: l') a) : Leads next b (l' ++ a :: l) b := by
  obtain ⟨hl, hl'⟩ := leads_append.mp h
  exact leads_append.mpr ⟨hl', hl⟩

theorem Leads.map_next (h : Leads next a l z) : (a :: l).map next = l ++ [z] := by
  induction l generalizing a with
  | nil => exact congrArg (fun x => [x]) h
  | cons b l ih =>
      rw [List.map_cons, ih h.2, h.1, List.cons_append]

-- Different nodes of a cycle have different successors.
theorem Leads.next_inj {x y : α} (h : Leads next a l a) (hnodup : (a :: l).Nodup) (hx : x ∈ a :: l)
    (hy : y ∈ a :: l) (heq : next x = next y) : x = y := by
  have hmap : ((a :: l).map next).Nodup := by
    rw [h.map_next]
    exact List.nodup_append_comm.mp hnodup
  exact List.inj_on_of_nodup_map hmap hx hy heq

theorem Leads.next_mem {x : α} (h : Leads next a l a) (hx : x ∈ a :: l) : next x ∈ a :: l := by
  have hmem := List.mem_map_of_mem (f := next) hx
  rw [h.map_next, List.mem_append, List.mem_singleton] at hmem
  rw [List.mem_cons]
  exact hmem.symm

theorem Leads.next_last (h : Leads next a l z) :
    next ((a :: l).getLast (List.cons_ne_nil a l)) = z := by
  induction l generalizing a with
  | nil => exact h
  | cons b l ih =>
      rw [List.getLast_cons (List.cons_ne_nil b l)]
      exact ih h.2

-- The node before b is made to go on to the one after b.
theorem Leads.unlink (h : Leads next a (l ++ b :: l') z) (hnodup : (a :: (l ++ l')).Nodup)
    (hlast : next' ((a :: l).getLast (List.cons_ne_nil a l)) = next b)
    (hsame : ∀ x ∈ a :: (l ++ l'), x ≠ (a :: l).getLast (List.cons_ne_nil a l) → next' x = next x) :
    Leads next' a (l ++ l') z := by
  induction l generalizing a with
  | nil =>
      refine Leads.head h.2 hlast fun x hx => hsame x (List.mem_cons_of_mem a hx) ?_
      rintro rfl
      exact (List.nodup_cons.mp hnodup).1 hx
  | cons c l ih =>
      rw [List.getLast_cons (List.cons_ne_nil c l)] at hlast hsame
      obtain ⟨ha, hnodup⟩ := List.nodup_cons.mp hnodup
      refine ⟨(hsame a List.mem_cons_self ?_).trans h.1, ih h.2 hnodup hlast fun x hx => ?_⟩
      · intro heq
        apply ha
        rw [heq]
        exact List.mem_append_left l' (List.getLast_mem (List.cons_ne_nil c l))
      · exact hsame x (List.mem_cons_of_mem a hx)

end Chain
