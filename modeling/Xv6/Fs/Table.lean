import Xv6.Fs.Own

namespace Xv6

open Wp

namespace Fs

-- Inode x as the kernel knows it: the copy in the inode table if there is one.
def view (s : Fs) (x : ℕ) : Dinode :=
  match (List.finRange NINODE).find? fun i =>
      0 < (s.itable i).ref && (s.itable i).valid && (s.itable i).inum == x with
  | some i => (s.itable i).copy
  | none => s.dinode x

def vol (s : Fs) : Vol := ⟨s.view, s.bitmap, s.data⟩

-- The entries in use are of distinct inodes; a valid one has a type.
structure Table (s : Fs) : Prop where
  dev : ∀ i, 0 < (s.itable i).ref → (s.itable i).dev = ROOTDEV
  uniq : ∀ i j, 0 < (s.itable i).ref → 0 < (s.itable j).ref → (s.itable i).inum = (s.itable j).inum → i = j
  typed : ∀ i, 0 < (s.itable i).ref → (s.itable i).valid = true → (s.itable i).copy.type ≠ .free

-- A table entry that someone holds, and one that has been locked since.
structure At (s : Fs) (i : Ip) (x : ℕ) : Prop where
  ref : 0 < (s.itable i).ref
  inum : (s.itable i).inum = x

structure Held (s : Fs) (i : Ip) (x : ℕ) : Prop extends s.At i x where
  valid : (s.itable i).valid = true

-- Every change of an inode in memory has been written back.
def Clean (s : Fs) : Prop := ∀ i x, s.Held i x → (s.itable i).copy = s.dinode x

structure Ok (s : Fs) : Prop where
  table : s.Table
  own : Own s.sb s.vol
  filled : Filled s.vol

-- Entry j is still that of its inode, whose type has not changed.
structure Keeps (s t : Fs) (j : Ip) : Prop where
  inum : (t.itable j).inum = (s.itable j).inum
  valid : (s.itable j).valid = true → (t.itable j).valid = true
  type : (s.itable j).valid = true → (t.itable j).copy.type = (s.itable j).copy.type

variable {s t : Fs} {i j : Ip} {x : ℕ}

theorem Table.view_eq (ht : s.Table) (hi : s.Held i x) : s.view x = (s.itable i).copy := by
  unfold view
  split
  · rename_i j hj
    have hj := List.find?_some hj
    simp only [Bool.and_eq_true, decide_eq_true_eq, beq_iff_eq] at hj
    rw [ht.uniq j i hj.1.1 hi.ref (hj.2.trans hi.inum.symm)]
  · rename_i hnone
    have hnone := List.find?_eq_none.mp hnone i (List.mem_finRange i)
    simp [hi.ref, hi.valid, hi.inum] at hnone

theorem view_of_not_held (h : ∀ i, ¬s.Held i x) : s.view x = s.dinode x := by
  unfold view
  split
  · rename_i i hi
    have hi := List.find?_some hi
    simp only [Bool.and_eq_true, decide_eq_true_eq, beq_iff_eq] at hi
    exact absurd ⟨⟨hi.1.1, hi.2⟩, hi.1.2⟩ (h i)
  · rfl

theorem Clean.view_eq (hc : s.Clean) (ht : s.Table) : s.view = s.dinode := by
  funext x
  by_cases h : ∃ i, s.Held i x
  · obtain ⟨i, hi⟩ := h
    rw [ht.view_eq hi, hc i x hi]
  · exact view_of_not_held (not_exists.mp h)

-- Inodes may enter and leave the table as long as the disk has what they hold.
theorem view_same (hs : s.Table) (ht : t.Table) (hdisk : t.dinode = s.dinode)
    (hout : ∀ j x, s.Held j x → t.Held j x ∧ (t.itable j).copy = (s.itable j).copy ∨
      (∀ k, ¬t.Held k x) ∧ (s.itable j).copy = s.dinode x)
    (hin : ∀ j x, t.Held j x → s.Held j x ∨ (t.itable j).copy = s.dinode x) : t.view = s.view := by
  funext x
  by_cases h : ∃ j, s.Held j x
  · obtain ⟨j, hj⟩ := h
    rw [hs.view_eq hj]
    rcases hout j x hj with ⟨hheld, hcopy⟩ | ⟨hnone, hcopy⟩
    · rw [ht.view_eq hheld, hcopy]
    · rw [view_of_not_held hnone, hdisk, hcopy]
  · have h := not_exists.mp h
    rw [view_of_not_held h]
    by_cases h' : ∃ j, t.Held j x
    · obtain ⟨j, hj⟩ := h'
      rw [ht.view_eq hj]
      exact (hin j x hj).resolve_left (h j)
    · rw [view_of_not_held (not_exists.mp h'), hdisk]

@[simp] theorem itable_setInode (s : Fs) (i : Ip) (f : Inode → Inode) :
    (s.setInode i f).itable i = f (s.itable i) := Function.update_self ..

theorem itable_setInode_of_ne (s : Fs) (f : Inode → Inode) (h : j ≠ i) :
    (s.setInode i f).itable j = s.itable j := Function.update_of_ne h _ _

@[simp] theorem itable_setCopy (s : Fs) (i : Ip) (f : Dinode → Dinode) :
    (s.setCopy i f).itable i = { s.itable i with copy := f (s.itable i).copy } := Function.update_self ..

theorem itable_setCopy_of_ne (s : Fs) (f : Dinode → Dinode) (h : j ≠ i) :
    (s.setCopy i f).itable j = s.itable j := Function.update_of_ne h _ _

theorem Held.at_ne (hi : s.Held i x) (hs : s.Table) {y : ℕ} (hj : s.At j y) (hne : j ≠ i) : y ≠ x := by
  rintro rfl
  exact hne (hs.uniq j i hj.ref hi.ref (hj.inum.trans hi.inum.symm))

structure Quiet (s t : Fs) (i : Ip) : Prop where
  disk : t = { s with itable := t.itable }
  entry : ∀ j, j ≠ i → t.itable j = s.itable j
  keep : 0 < (s.itable i).ref → s.Keeps t i
  table : t.Table
  view : t.view = s.view
  clean : s.Clean → t.Clean

namespace Quiet

theorem vol (h : Quiet s t i) : t.vol = s.vol := by
  have hview := h.view
  have hdisk := h.disk
  unfold Fs.vol
  rw [hview]
  rw [hdisk]

theorem sb (h : Quiet s t i) : t.sb = s.sb := by rw [h.disk]

theorem ok (h : Quiet s t i) (hs : s.Ok) : t.Ok where
  table := h.table
  own := by
    rw [h.vol, h.sb]
    exact hs.own
  filled := by
    rw [h.vol]
    exact hs.filled

end Quiet

-- The fields of entry i other than its reference count, lock and copy stay.
theorem quiet_setInode (hs : s.Table) (hi : 0 < (s.itable i).ref) (f : Inode → Inode)
    (hdev : (f (s.itable i)).dev = (s.itable i).dev) (hinum : (f (s.itable i)).inum = (s.itable i).inum)
    (href : 0 < (f (s.itable i)).ref)
    (hvalid : (f (s.itable i)).valid = (s.itable i).valid ∧ (f (s.itable i)).copy = (s.itable i).copy ∨
      (s.itable i).valid = false ∧ (f (s.itable i)).copy = s.dinode (s.itable i).inum ∧
        (s.dinode (s.itable i).inum).type ≠ .free) :
    Quiet s (s.setInode i f) i := by
  have hself := itable_setInode s i f
  have hne : ∀ {j}, j ≠ i → (s.setInode i f).itable j = s.itable j :=
    fun h => itable_setInode_of_ne s f h
  have hused : ∀ j, 0 < ((s.setInode i f).itable j).ref → 0 < (s.itable j).ref := by
    intro j hj
    by_cases hji : j = i
    · rwa [hji]
    · rwa [hne hji] at hj
  have hin : ∀ j, ((s.setInode i f).itable j).inum = (s.itable j).inum := by
    intro j
    by_cases hji : j = i
    · rw [hji, hself, hinum]
    · rw [hne hji]
  have htable : (s.setInode i f).Table := by
    refine ⟨fun j hj => ?_, fun j k hj hk hjk => ?_, fun j hj hv => ?_⟩
    · have hdev' := hs.dev j (hused j hj)
      by_cases hji : j = i
      · rw [hji, hself, hdev, ← hji, hdev']
      · rw [hne hji, hdev']
    · rw [hin, hin] at hjk
      exact hs.uniq j k (hused j hj) (hused k hk) hjk
    · by_cases hji : j = i
      · rw [hji, hself] at hv ⊢
        rcases hvalid with ⟨hveq, hceq⟩ | ⟨_, hceq, hfree⟩
        · rw [hceq]
          exact hs.typed i hi (hveq ▸ hv)
        · rwa [hceq]
      · rw [hne hji] at hv ⊢
        exact hs.typed j (hused j hj) hv
  have hheld : ∀ j x, (s.setInode i f).Held j x → j ≠ i → s.Held j x := by
    intro j x hj hji
    have href := hj.ref
    have hinum := hj.inum
    have hval := hj.valid
    rw [hne hji] at href hinum hval
    exact ⟨⟨href, hinum⟩, hval⟩
  have hheld_self : ∀ x, (s.setInode i f).Held i x →
      s.Held i x ∧ (f (s.itable i)).copy = (s.itable i).copy ∨ (f (s.itable i)).copy = s.dinode x := by
    intro x hx
    have hinum := hx.inum
    rw [hin] at hinum
    rcases hvalid with ⟨hveq, hceq⟩ | ⟨_, hceq, _⟩
    · have hval := hx.valid
      rw [hself, hveq] at hval
      exact .inl ⟨⟨⟨hi, hinum⟩, hval⟩, hceq⟩
    · exact .inr (hinum ▸ hceq)
  refine ⟨rfl, fun j hj => hne hj, fun _ => ⟨hin i, fun hv => ?_, fun hv => ?_⟩, htable, ?_, ?_⟩
  · rw [hself]
    rcases hvalid with ⟨hveq, _⟩ | ⟨hveq, _⟩
    · rwa [hveq]
    · rw [hveq] at hv
      cases hv
  · rw [hself]
    rcases hvalid with ⟨_, hceq⟩ | ⟨hveq, _⟩
    · rw [hceq]
    · rw [hveq] at hv
      cases hv
  · refine view_same hs htable rfl (fun j x hj => .inl ?_) fun j x hj => ?_
    · by_cases hji : j = i
      · subst hji
        rcases hvalid with ⟨hveq, hceq⟩ | ⟨hveq, _⟩
        · refine ⟨⟨⟨by rw [hself]; exact href, (hin j).trans hj.inum⟩, ?_⟩, by rw [hself, hceq]⟩
          rw [hself, hveq]
          exact hj.valid
        · rw [hj.valid] at hveq
          cases hveq
      · rw [hne hji]
        refine ⟨⟨⟨?_, ?_⟩, ?_⟩, rfl⟩ <;> rw [hne hji]
        · exact hj.ref
        · exact hj.inum
        · exact hj.valid
    · by_cases hji : j = i
      · subst hji
        exact (hheld_self x hj).imp And.left fun h => by rw [hself, h]
      · exact .inl (hheld j x hj hji)
  · intro hc j x hj
    by_cases hji : j = i
    · subst hji
      rcases hheld_self x hj with ⟨hold, hceq⟩ | hceq
      · rw [hself, hceq, hc j x hold]
        rfl
      · rw [hself, hceq]
        rfl
    · rw [hne hji, hc j x (hheld j x hj hji)]
      rfl

end Fs

end Xv6
