import Xv6.Sysfile
import Mathlib.Data.Finset.Card
import Mathlib.Logic.Relation

namespace Xv6

open Function (update update_of_ne update_self)

def padded (name : Name) : Name := (List.range DIRSIZ).map fun k => name.getD k 0

-- The directories as a graph: the inodes with their link counts and entries. An
-- entry that is empty or beyond the end has inum 0.
@[ext] structure Tree where
  type : ℕ → FileType
  nlink : ℕ → ℕ
  ent : ℕ → ℕ → Dirent

namespace Tree

def setEnt (t : Tree) (d k : ℕ) (de : Dirent) : Tree :=
  { t with ent := update t.ent d (update (t.ent d) k de) }

def setNlink (t : Tree) (x n : ℕ) : Tree := { t with nlink := update t.nlink x n }

def alloc (t : Tree) (x : ℕ) (type : FileType) : Tree :=
  { t with type := update t.type x type, nlink := update t.nlink x 0 }

def free (t : Tree) (x : ℕ) : Tree :=
  { t with type := update t.type x .free, ent := update t.ent x fun _ => ⟨0, []⟩ }

-- Entries that name x, and entries of x that name directories; "." and ".." do
-- not count.
def Names (t : Tree) (x : ℕ) (S : Finset (ℕ × ℕ)) : Prop :=
  ∀ p ∈ S, 2 ≤ p.2 ∧ (t.ent p.1 p.2).inum = x

def Kids (t : Tree) (x : ℕ) (K : Finset ℕ) : Prop := ∀ k ∈ K, 2 ≤ k ∧ t.type (t.ent x k).inum = .dir

-- n links are enough for the names of x and the ".." of its children; the root
-- has one more.
def Covers (t : Tree) (x n : ℕ) : Prop :=
  ∀ S K, t.Names x S → t.Kids x K → S.card + K.card + (if x = ROOTINO then 1 else 0) ≤ n

-- The directories hang together. Directory e is exempt: it is being made or removed.
structure Ok (t : Tree) (e : ℕ) : Prop where
  zero : t.type 0 = .free
  word : ∀ x, t.type x ≠ .free → x < 2 ^ 16
  root : t.type ROOTINO = .dir ∧ (t.ent ROOTINO 1).inum = ROOTINO
  dir : ∀ d k, (t.ent d k).inum ≠ 0 → t.type d = .dir
  dot : ∀ d, t.type d = .dir → d ≠ e → (t.ent d 0).inum = d ∧ (t.ent d 0).name = padded dot
  dotdot : ∀ d, t.type d = .dir → d ≠ e → (t.ent d 1).name = padded dotdot
  parent : ∀ d, t.type d = .dir → d ≠ e → t.type (t.ent d 1).inum = .dir ∧
    t.nlink (t.ent d 1).inum ≠ 0 ∧ (d ≠ ROOTINO → (t.ent d 1).inum ≠ d)
  used : ∀ d k, 2 ≤ k → (t.ent d k).inum ≠ 0 → t.type (t.ent d k).inum ≠ .free
  child : ∀ d k, 2 ≤ k → t.type (t.ent d k).inum = .dir →
    (t.ent (t.ent d k).inum 1).inum = d ∧ (t.ent d k).inum ≠ ROOTINO
  once : ∀ d k k', 2 ≤ k → 2 ≤ k' → t.type (t.ent d k).inum = .dir →
    (t.ent d k').inum = (t.ent d k).inum → k' = k
  count : ∀ x, x ≠ 0 → t.Covers x (t.nlink x)

def Orphan (t : Tree) (c : ℕ) : Prop :=
  t.type c = .dir ∧ c ≠ ROOTINO ∧ ∀ d k, 2 ≤ k → (t.ent d k).inum ≠ c

def Roomy (t : Tree) : Prop := ∀ x, t.type x ≠ .free → t.nlink x + 1 < 2 ^ 16

-- unlink of name in d takes no ".." away: if it is a directory then d keeps a link,
-- and no directory without a name has it as its "..".
def Spares (t : Tree) (d : ℕ) (name : Name) : Prop :=
  ∀ k, 2 ≤ k → namecmp name (t.ent d k).name = 0 → t.type (t.ent d k).inum = .dir →
    1 < t.nlink d ∧ ∀ o, t.Orphan o → (t.ent o 1).inum ≠ (t.ent d k).inum

-- What iput does with inode x: it may free it if it has no links.
def Put (a : Tree) (x : ℕ) (b : Tree) : Prop := b = a ∨ a.nlink x = 0 ∧ b = a.free x

def Shrinks : Tree → Tree → Prop := Relation.ReflTransGen fun a b => ∃ x, x ≠ 0 ∧ Put a x b

variable {t a b c : Tree} {d e k n x y : ℕ} {de : Dirent}

section Points

@[simp] theorem ent_setEnt : (t.setEnt d k de).ent d k = de := by simp [setEnt]

theorem ent_setEnt_of_ne {d' k' : ℕ} (h : ¬(d' = d ∧ k' = k)) :
    (t.setEnt d k de).ent d' k' = t.ent d' k' := by
  by_cases hd : d' = d
  · subst hd
    simp [setEnt, update_of_ne (show k' ≠ k from fun hk => h ⟨rfl, hk⟩)]
  · simp [setEnt, update_of_ne hd]

@[simp] theorem type_setEnt : (t.setEnt d k de).type = t.type := rfl
@[simp] theorem type_setNlink : (t.setNlink x n).type = t.type := rfl
@[simp] theorem ent_setNlink : (t.setNlink x n).ent = t.ent := rfl
@[simp] theorem nlink_setNlink : (t.setNlink x n).nlink x = n := update_self ..

theorem nlink_setNlink_of_ne (h : y ≠ x) : (t.setNlink x n).nlink y = t.nlink y := update_of_ne h _ _

@[simp] theorem type_free : (t.free x).type x = .free := update_self ..

theorem type_free_of_ne (h : y ≠ x) : (t.free x).type y = t.type y := update_of_ne h _ _

@[simp] theorem ent_free : (t.free x).ent x k = ⟨0, []⟩ := by simp [free]

theorem ent_free_of_ne (h : d ≠ x) : (t.free x).ent d k = t.ent d k := by
  simp [free, update_of_ne h]

@[simp] theorem type_alloc {type : FileType} : (t.alloc x type).type x = type := update_self ..

theorem type_alloc_of_ne {type : FileType} (h : y ≠ x) : (t.alloc x type).type y = t.type y :=
  update_of_ne h _ _

theorem nlink_alloc_of_ne {type : FileType} (h : y ≠ x) : (t.alloc x type).nlink y = t.nlink y :=
  update_of_ne h _ _

@[simp] theorem ent_alloc {type : FileType} : (t.alloc x type).ent = t.ent := rfl

end Points

namespace Covers

variable {m : ℕ}

-- Writing entry k of d adds at most a name and a child.
theorem setEnt (h : t.Covers y m) (hn : m + (if y = de.inum then 1 else 0) +
    (if y = d ∧ t.type de.inum = .dir then 1 else 0) ≤ n) : (t.setEnt d k de).Covers y n := by
  intro S K hS hK
  have hS' : S.card ≤ (S.erase (d, k)).card + if y = de.inum then 1 else 0 := by
    by_cases hmem : (d, k) ∈ S
    · have heq := (hS _ hmem).2
      rw [ent_setEnt] at heq
      rw [if_pos heq.symm, Finset.card_erase_add_one hmem]
    · rw [Finset.erase_eq_of_notMem hmem]
      exact Nat.le_add_right _ _
  have hK' : K.card ≤ (if y = d then K.erase k else K).card +
      if y = d ∧ t.type de.inum = .dir then 1 else 0 := by
    by_cases hyd : y = d
    · subst hyd
      rw [if_pos rfl]
      by_cases hmem : k ∈ K
      · have hdir := (hK _ hmem).2
        rw [ent_setEnt] at hdir
        rw [if_pos ⟨rfl, hdir⟩, Finset.card_erase_add_one hmem]
      · rw [Finset.erase_eq_of_notMem hmem]
        exact Nat.le_add_right _ _
    · rw [if_neg hyd]
      exact Nat.le_add_right _ _
  have hold := h (S.erase (d, k)) (if y = d then K.erase k else K) ?_ ?_
  · omega
  · intro p hp
    obtain ⟨hne, hp⟩ := Finset.mem_erase.mp hp
    have := hS p hp
    rwa [ent_setEnt_of_ne fun heq => hne (Prod.ext heq.1 heq.2)] at this
  · intro k' hk'
    by_cases hyd : y = d
    · rw [if_pos hyd] at hk'
      obtain ⟨hne, hk'⟩ := Finset.mem_erase.mp hk'
      have := hK k' hk'
      rwa [ent_setEnt_of_ne fun heq => hne heq.2] at this
    · rw [if_neg hyd] at hk'
      have := hK k' hk'
      rwa [ent_setEnt_of_ne fun heq => hyd heq.1] at this

end Covers

namespace Ok

-- An entry of a directory is free, or it names an inode in use.
theorem type_ent (h : t.Ok e) (hd : d ≠ e) (hk : (t.ent d k).inum ≠ 0) :
    t.type (t.ent d k).inum ≠ .free := by
  have hdir := h.dir d k hk
  match k with
  | 0 =>
      rw [(h.dot d hdir hd).1, hdir]
      decide
  | 1 =>
      rw [(h.parent d hdir hd).1]
      decide
  | k + 2 => exact h.used d (k + 2) (by omega) hk

theorem not_named (h : t.Ok e) (hx : x ≠ 0) (hfree : t.type x = .free) (hk : 2 ≤ k) :
    (t.ent d k).inum ≠ x := by
  rintro rfl
  exact h.used d k hk hx hfree

theorem ent_eq_zero (h : t.Ok e) (hx : t.type x ≠ .dir) (k : ℕ) : (t.ent x k).inum = 0 := by
  by_contra hk
  exact hx (h.dir x k hk)

theorem nlink_of_name (h : t.Ok e) (hx : x ≠ 0) (hk : 2 ≤ k) (hname : (t.ent d k).inum = x) :
    0 < t.nlink x := by
  have hcount := h.count x hx {(d, k)} ∅ ?_ ?_
  · rw [Finset.card_singleton] at hcount
    omega
  · intro p hp
    rw [Finset.mem_singleton] at hp
    rw [hp]
    exact ⟨hk, hname⟩
  · intro k hk
    exact absurd hk (Finset.notMem_empty k)

theorem root_nlink (h : t.Ok e) : 0 < t.nlink ROOTINO := by
  have hcount := h.count ROOTINO (by decide) ∅ ∅ (fun p hp => absurd hp (Finset.notMem_empty p))
    fun k hk => absurd hk (Finset.notMem_empty k)
  rw [if_pos rfl] at hcount
  omega

theorem settle (h : t.Ok e) (he : t.type e = .dir → (t.ent e 0).inum = e ∧ (t.ent e 0).name = padded Xv6.dot ∧
    (t.ent e 1).name = padded Xv6.dotdot ∧ t.type (t.ent e 1).inum = .dir ∧ t.nlink (t.ent e 1).inum ≠ 0 ∧
    (t.ent e 1).inum ≠ e) : t.Ok 0 where
  zero := h.zero
  word := h.word
  root := h.root
  dir := h.dir
  dot d hd _ := by
    by_cases hde : d = e
    · subst hde
      exact ⟨(he hd).1, (he hd).2.1⟩
    · exact h.dot d hd hde
  dotdot d hd _ := by
    by_cases hde : d = e
    · subst hde
      exact (he hd).2.2.1
    · exact h.dotdot d hd hde
  parent d hd _ := by
    by_cases hde : d = e
    · subst hde
      obtain ⟨-, -, -, hdir, hlink, hne⟩ := he hd
      exact ⟨hdir, hlink, fun _ => hne⟩
    · exact h.parent d hd hde
  used := h.used
  child := h.child
  once := h.once
  count := h.count

theorem exempt (h : t.Ok 0) (e : ℕ) : t.Ok e where
  zero := h.zero
  word := h.word
  root := h.root
  dir := h.dir
  dot d hd _ := h.dot d hd (by rintro rfl; simp [h.zero] at hd)
  dotdot d hd _ := h.dotdot d hd (by rintro rfl; simp [h.zero] at hd)
  parent d hd _ := h.parent d hd (by rintro rfl; simp [h.zero] at hd)
  used := h.used
  child := h.child
  once := h.once
  count := h.count

theorem setNlink (h : t.Ok e) (hcover : t.Covers x n)
    (hparent : n = 0 → ∀ c, t.type c = .dir → c ≠ e → (t.ent c 1).inum ≠ x) : (t.setNlink x n).Ok e where
  zero := h.zero
  word := h.word
  root := h.root
  dir := h.dir
  dot := h.dot
  dotdot := h.dotdot
  parent d hd hde := by
    obtain ⟨hdir, hlink, hne⟩ := h.parent d hd hde
    refine ⟨hdir, ?_, hne⟩
    by_cases hx : (t.ent d 1).inum = x
    · rw [ent_setNlink, hx, nlink_setNlink]
      exact fun hz => hparent hz d hd hde hx
    · rw [ent_setNlink, nlink_setNlink_of_ne hx]
      exact hlink
  used := h.used
  child := h.child
  once := h.once
  count y hy := by
    by_cases hyx : y = x
    · rw [hyx, nlink_setNlink]
      exact hcover
    · rw [nlink_setNlink_of_ne hyx]
      exact h.count y hy

theorem raise (h : t.Ok e) (hx : x ≠ 0) (hn : t.nlink x ≤ n) (hpos : n ≠ 0) : (t.setNlink x n).Ok e :=
  h.setNlink (fun S K hS hK => (h.count x hx S K hS hK).trans hn) fun hz => absurd hz hpos

theorem free (h : t.Ok e) (hx : x ≠ 0) (hlink : t.nlink x = 0) : (t.free x).Ok e := by
  have hname : ∀ {d k}, 2 ≤ k → (t.ent d k).inum ≠ x := fun hk hname => by
    have := h.nlink_of_name hx hk hname
    omega
  have hroot : ROOTINO ≠ x := by
    rintro rfl
    have := h.root_nlink
    omega
  have hne : ∀ {d}, (t.free x).type d = .dir → d ≠ x := by
    rintro d hd rfl
    simp at hd
  have htype : ∀ {d}, (t.free x).type d = .dir → t.type d = .dir := fun hd => by
    rwa [type_free_of_ne (hne hd)] at hd
  have hent : ∀ {d k}, ((t.free x).ent d k).inum ≠ 0 → d ≠ x := by
    rintro d k hk rfl
    simp at hk
  -- An entry that names a directory is one of another inode.
  have hdir : ∀ {d k}, (t.free x).type ((t.free x).ent d k).inum = .dir → d ≠ x := by
    rintro d k hd rfl
    rw [ent_free, type_free_of_ne (Ne.symm hx), h.zero] at hd
    cases hd
  constructor
  · rw [type_free_of_ne (Ne.symm hx)]
    exact h.zero
  · intro y hy
    by_cases hyx : y = x
    · rw [hyx, type_free] at hy
      exact absurd rfl hy
    · rw [type_free_of_ne hyx] at hy
      exact h.word y hy
  · rw [type_free_of_ne hroot, ent_free_of_ne hroot]
    exact h.root
  · intro d k hk
    rw [type_free_of_ne (hent hk)]
    rw [ent_free_of_ne (hent hk)] at hk
    exact h.dir d k hk
  · intro d hd hde
    rw [ent_free_of_ne (hne hd)]
    exact h.dot d (htype hd) hde
  · intro d hd hde
    rw [ent_free_of_ne (hne hd)]
    exact h.dotdot d (htype hd) hde
  · intro d hd hde
    rw [ent_free_of_ne (hne hd)]
    obtain ⟨hdir, hl, hself⟩ := h.parent d (htype hd) hde
    have hpx : (t.ent d 1).inum ≠ x := fun hpx => hl (by rw [hpx, hlink])
    rw [type_free_of_ne hpx]
    exact ⟨hdir, hl, hself⟩
  · intro d k hk hused
    have hd := hent hused
    rw [ent_free_of_ne hd] at hused ⊢
    rw [type_free_of_ne (hname hk)]
    exact h.used d k hk hused
  · intro d k hk hd
    have hdx := hdir hd
    rw [ent_free_of_ne hdx] at hd ⊢
    rw [ent_free_of_ne (hne hd)]
    exact h.child d k hk (htype hd)
  · intro d k k' hk hk' hd heq
    have hdx := hdir hd
    rw [ent_free_of_ne hdx] at hd heq
    rw [ent_free_of_ne hdx] at heq
    exact h.once d k k' hk hk' (htype hd) heq
  · intro y hy S K hS hK
    refine h.count y hy S K ?_ ?_
    · intro p hp
      obtain ⟨hk, heq⟩ := hS p hp
      rw [ent_free_of_ne (hent (by rwa [heq]))] at heq
      exact ⟨hk, heq⟩
    · intro k hk
      obtain ⟨hk2, hd⟩ := hK k hk
      have hdx := hdir hd
      rw [ent_free_of_ne hdx] at hd
      exact ⟨hk2, htype hd⟩

-- An inode is taken into use; nothing names it yet.
theorem alloc (h : t.Ok 0) (hx : x ≠ 0) (hword : x < 2 ^ 16) (hfree : t.type x = .free) (type : FileType) :
    (t.alloc x type).Ok x := by
  have hnotdir : ∀ {d}, t.type d = .dir → d ≠ x := by
    rintro d hd rfl
    rw [hfree] at hd
    cases hd
  have hzero : ∀ {d}, t.type d = .dir → d ≠ 0 := by
    rintro d hd rfl
    rw [h.zero] at hd
    cases hd
  have hdir : ∀ {d}, (t.alloc x type).type d = .dir → d ≠ x → t.type d = .dir := fun hd hne => by
    rwa [type_alloc_of_ne hne] at hd
  constructor
  · rw [type_alloc_of_ne (Ne.symm hx)]
    exact h.zero
  · intro y hy
    by_cases hyx : y = x
    · rw [hyx]
      exact hword
    · rw [type_alloc_of_ne hyx] at hy
      exact h.word y hy
  · rw [type_alloc_of_ne (hnotdir h.root.1)]
    exact h.root
  · intro d k hk
    have hd := h.dir d k hk
    rwa [type_alloc_of_ne (hnotdir hd)]
  · intro d hd hdx
    exact h.dot d (hdir hd hdx) (hzero (hdir hd hdx))
  · intro d hd hdx
    exact h.dotdot d (hdir hd hdx) (hzero (hdir hd hdx))
  · intro d hd hdx
    obtain ⟨hp, hl, hself⟩ := h.parent d (hdir hd hdx) (hzero (hdir hd hdx))
    rw [ent_alloc, type_alloc_of_ne (hnotdir hp), nlink_alloc_of_ne (hnotdir hp)]
    exact ⟨hp, hl, hself⟩
  · intro d k hk hused
    rw [ent_alloc, type_alloc_of_ne (h.not_named hx hfree hk)]
    exact h.used d k hk hused
  · intro d k hk hd
    rw [ent_alloc, type_alloc_of_ne (h.not_named hx hfree hk)] at hd
    exact h.child d k hk hd
  · intro d k k' hk hk' hd heq
    rw [ent_alloc, type_alloc_of_ne (h.not_named hx hfree hk)] at hd
    exact h.once d k k' hk hk' hd heq
  · intro y hy S K hS hK
    have hS' : t.Names y S := hS
    have hK' : t.Kids y K := fun k hk => ⟨(hK k hk).1, by
      have := (hK k hk).2
      rwa [ent_alloc, type_alloc_of_ne (h.not_named hx hfree (hK k hk).1)] at this⟩
    by_cases hyx : y = x
    · -- A free inode has neither names nor children.
      subst hyx
      have hempty : S = ∅ := Finset.eq_empty_of_forall_notMem fun p hp =>
        h.not_named hx hfree (hS' p hp).1 (hS' p hp).2
      have hempty' : K = ∅ := Finset.eq_empty_of_forall_notMem fun k hk => by
        have := (hK' k hk).2
        rw [h.ent_eq_zero (by rw [hfree]; decide) k, h.zero] at this
        cases this
      rw [hempty, hempty', if_neg (Ne.symm (hnotdir h.root.1))]
      exact Nat.zero_le _
    · rw [nlink_alloc_of_ne hyx]
      exact h.count y hy S K hS' hK'

-- An entry of d other than "." and ".." is written.
theorem setEnt (h : t.Ok e) (hk : 2 ≤ k)
    (hused : de.inum ≠ 0 → t.type d = .dir ∧ t.type de.inum ≠ .free)
    (hchild : t.type de.inum = .dir → (t.ent de.inum 1).inum = d ∧ de.inum ≠ ROOTINO ∧ de.inum ≠ d ∧
      ∀ k', 2 ≤ k' → (t.ent d k').inum ≠ de.inum)
    (hname : de.inum ≠ 0 → ∃ m, m < t.nlink de.inum ∧ t.Covers de.inum m)
    (hkid : t.type de.inum = .dir → ∃ m, m < t.nlink d ∧ t.Covers d m) : (t.setEnt d k de).Ok e := by
  have hlow : ∀ {d' k'}, k' < 2 → (t.setEnt d k de).ent d' k' = t.ent d' k' := fun hk' =>
    ent_setEnt_of_ne fun heq => by omega
  constructor
  · exact h.zero
  · exact h.word
  · rw [hlow (by omega)]
    exact h.root
  · intro d' k' hk'
    by_cases heq : d' = d ∧ k' = k
    · obtain ⟨rfl, rfl⟩ := heq
      rw [ent_setEnt] at hk'
      exact (hused hk').1
    · rw [ent_setEnt_of_ne heq] at hk'
      exact h.dir d' k' hk'
  · intro d' hd hde
    rw [hlow (by omega)]
    exact h.dot d' hd hde
  · intro d' hd hde
    rw [hlow (by omega)]
    exact h.dotdot d' hd hde
  · intro d' hd hde
    rw [hlow (by omega)]
    exact h.parent d' hd hde
  · intro d' k' hk' hne
    by_cases heq : d' = d ∧ k' = k
    · obtain ⟨rfl, rfl⟩ := heq
      rw [ent_setEnt] at hne ⊢
      exact (hused hne).2
    · rw [ent_setEnt_of_ne heq] at hne ⊢
      exact h.used d' k' hk' hne
  · intro d' k' hk' hd
    by_cases heq : d' = d ∧ k' = k
    · obtain ⟨rfl, rfl⟩ := heq
      rw [ent_setEnt] at hd ⊢
      rw [hlow (by omega)]
      exact ⟨(hchild hd).1, (hchild hd).2.1⟩
    · rw [ent_setEnt_of_ne heq] at hd ⊢
      rw [hlow (by omega)]
      exact h.child d' k' hk' hd
  · intro d' k₁ k₂ hk₁ hk₂ hd heq
    by_cases h₁ : d' = d ∧ k₁ = k
    · obtain ⟨rfl, rfl⟩ := h₁
      rw [ent_setEnt] at hd heq
      by_contra hne
      rw [ent_setEnt_of_ne fun h₂ => hne h₂.2] at heq
      exact (hchild hd).2.2.2 k₂ hk₂ heq
    · rw [ent_setEnt_of_ne h₁] at hd heq
      by_cases h₂ : d' = d ∧ k₂ = k
      · obtain ⟨rfl, rfl⟩ := h₂
        rw [ent_setEnt] at heq
        exact absurd heq.symm ((hchild (heq ▸ hd)).2.2.2 k₁ hk₁)
      · rw [ent_setEnt_of_ne h₂] at heq
        exact h.once d' k₁ k₂ hk₁ hk₂ hd heq
  · intro y hy
    by_cases hyx : y = de.inum
    · subst hyx
      obtain ⟨m, hm, hcover⟩ := hname hy
      refine hcover.setEnt ?_
      rw [if_pos rfl, if_neg fun hd => (hchild hd.2).2.2.1 hd.1]
      exact hm
    · by_cases hyd : y = d ∧ t.type de.inum = .dir
      · obtain ⟨m, hm, hcover⟩ := hkid hyd.2
        rw [← hyd.1] at hcover hm
        refine hcover.setEnt ?_
        rw [if_neg hyx, if_pos hyd]
        exact hm
      · refine (h.count y hy).setEnt ?_
        rw [if_neg hyx, if_neg hyd]
        rfl

theorem clear (h : t.Ok e) (hk : 2 ≤ k) (hde : de.inum = 0) : (t.setEnt d k de).Ok e := by
  have hdir : t.type de.inum ≠ .dir := by
    rw [hde, h.zero]
    decide
  exact h.setEnt hk (fun hne => absurd hde hne) (fun hd => absurd hd hdir) (fun hne => absurd hde hne)
    fun hd => absurd hd hdir

theorem covers_new (hroot : x ≠ ROOTINO) (hname : ∀ d k, 2 ≤ k → (t.ent d k).inum ≠ x)
    (hkids : ∀ k, 2 ≤ k → t.type (t.ent x k).inum ≠ .dir) : t.Covers x 0 := by
  intro S K hS hK
  have hempty : S = ∅ := Finset.eq_empty_of_forall_notMem fun p hp =>
    hname p.1 p.2 (hS p hp).1 (hS p hp).2
  have hempty' : K = ∅ := Finset.eq_empty_of_forall_notMem fun k hk => hkids k (hK k hk).1 (hK k hk).2
  rw [hempty, hempty', if_neg hroot]
  rfl

-- "." and ".." of a directory that is being made.
theorem fill (h : t.Ok x) (hk : k < 2) (hdir : t.type x = .dir) (hroot : x ≠ ROOTINO)
    (hname : ∀ d k, 2 ≤ k → (t.ent d k).inum ≠ x) : (t.setEnt x k de).Ok x := by
  have hhigh : ∀ {d' k'}, 2 ≤ k' → (t.setEnt x k de).ent d' k' = t.ent d' k' := fun hk' =>
    ent_setEnt_of_ne fun heq => by omega
  have hother : ∀ {d' k'}, d' ≠ x → (t.setEnt x k de).ent d' k' = t.ent d' k' := fun hd =>
    ent_setEnt_of_ne fun heq => hd heq.1
  constructor
  · exact h.zero
  · exact h.word
  · rw [hother (Ne.symm hroot)]
    exact h.root
  · intro d' k' hk'
    by_cases hd : d' = x
    · rw [hd]
      exact hdir
    · rw [hother hd] at hk'
      exact h.dir d' k' hk'
  · intro d' hd hde
    rw [hother hde]
    exact h.dot d' hd hde
  · intro d' hd hde
    rw [hother hde]
    exact h.dotdot d' hd hde
  · intro d' hd hde
    rw [hother hde]
    exact h.parent d' hd hde
  · intro d' k' hk' hne
    rw [hhigh hk'] at hne ⊢
    exact h.used d' k' hk' hne
  · intro d' k' hk' hd
    rw [hhigh hk'] at hd ⊢
    rw [hother (hname d' k' hk')]
    exact h.child d' k' hk' hd
  · intro d' k₁ k₂ hk₁ hk₂ hd heq
    rw [hhigh hk₁] at hd heq
    rw [hhigh hk₂] at heq
    exact h.once d' k₁ k₂ hk₁ hk₂ hd heq
  · intro y hy S K hS hK
    refine h.count y hy S K ?_ ?_
    · intro p hp
      have := hS p hp
      rwa [hhigh this.1] at this
    · intro k' hk'
      have := hK k' hk'
      rwa [hhigh this.1] at this

end Ok

namespace Put

theorem nlink (h : Put a x b) : b.nlink = a.nlink := by
  rcases h with rfl | ⟨-, rfl⟩ <;> rfl

theorem type_of_ne (h : Put a x b) (hy : y ≠ x) : b.type y = a.type y := by
  rcases h with rfl | ⟨-, rfl⟩
  · rfl
  · exact type_free_of_ne hy

theorem type (h : Put a x b) (hy : b.type y ≠ .free) : b.type y = a.type y := by
  rcases h with rfl | ⟨-, rfl⟩
  · rfl
  · by_cases hyx : y = x
    · rw [hyx, type_free] at hy
      exact absurd rfl hy
    · exact type_free_of_ne hyx

theorem ent (h : Put a x b) (hk : (b.ent y k).inum ≠ 0) : b.ent y k = a.ent y k := by
  rcases h with rfl | ⟨-, rfl⟩
  · rfl
  · by_cases hyx : y = x
    · rw [hyx, ent_free] at hk
      exact absurd rfl hk
    · exact ent_free_of_ne hyx

theorem ok (h : Put a x b) (ha : a.Ok e) (hx : x ≠ 0) : b.Ok e := by
  rcases h with rfl | ⟨hlink, rfl⟩
  · exact ha
  · exact ha.free hx hlink

-- An inode without links has no children, so freeing one makes no orphans.
theorem orphan {o : ℕ} (h : Put a x b) (ha : a.Ok e) (hx : x ≠ 0) (ho : b.Orphan o) : a.Orphan o := by
  rcases h with rfl | ⟨hlink, rfl⟩
  · exact ho
  · have hdir : a.type o = .dir := (type (.inr ⟨hlink, rfl⟩) (by rw [ho.1]; decide)).symm.trans ho.1
    refine ⟨hdir, ho.2.1, fun d k hk heq => ?_⟩
    by_cases hd : d = x
    · have := ha.count x hx ∅ {k} (fun p hp => absurd hp (Finset.notMem_empty p)) fun k' hk' => by
        rw [Finset.mem_singleton.mp hk', ← hd, heq]
        exact ⟨hk, hdir⟩
      rw [hlink, Finset.card_singleton] at this
      omega
    · exact ho.2.2 d k hk (by rwa [ent_free_of_ne hd])

theorem eq_of_nlink (h : Put a x b) (hx : a.nlink x ≠ 0) : b = a := h.resolve_right fun hz => hx hz.1

theorem covers (h : Put a x b) (hb : b.type 0 = .free) (hy : y ≠ 0) (hc : a.Covers y n) : b.Covers y n := by
  intro S K hS hK
  refine hc S K ?_ ?_
  · intro p hp
    obtain ⟨hk, heq⟩ := hS p hp
    rw [h.ent (by rwa [heq])] at heq
    exact ⟨hk, heq⟩
  · intro k hk
    obtain ⟨hk2, hd⟩ := hK k hk
    have hne : (b.ent y k).inum ≠ 0 := by
      intro hz
      rw [hz, hb] at hd
      cases hd
    refine ⟨hk2, ?_⟩
    rw [← h.ent hne, ← h.type (by rw [hd]; decide), hd]

end Put

namespace Shrinks

theorem zero (h : Shrinks a b) (ha : a.type 0 = .free) : b.type 0 = .free := by
  induction h with
  | refl => exact ha
  | tail _ hput ih =>
      obtain ⟨x, hx, hput⟩ := hput
      rw [hput.type_of_ne (Ne.symm hx), ih]

theorem nlink (h : Shrinks a b) : b.nlink = a.nlink := by
  induction h with
  | refl => rfl
  | tail _ hput ih =>
      obtain ⟨x, -, hput⟩ := hput
      rw [hput.nlink, ih]

theorem type (h : Shrinks a b) : b.type y ≠ .free → b.type y = a.type y := by
  induction h with
  | refl => exact fun _ => rfl
  | tail _ hput ih =>
      obtain ⟨x, -, hput⟩ := hput
      intro hy
      have heq := hput.type hy
      rw [heq] at hy ⊢
      exact ih hy

theorem covers (h : Shrinks a b) (ha : a.type 0 = .free) (hy : y ≠ 0) (hc : a.Covers y n) : b.Covers y n := by
  induction h with
  | refl => exact hc
  | tail hrun hput ih =>
      obtain ⟨x, hx, hput⟩ := hput
      refine hput.covers ?_ hy ih
      rw [hput.type_of_ne (Ne.symm hx), zero hrun ha]

theorem ent (h : Shrinks a b) : (b.ent y k).inum ≠ 0 → b.ent y k = a.ent y k := by
  induction h with
  | refl => exact fun _ => rfl
  | tail _ hput ih =>
      obtain ⟨x, -, hput⟩ := hput
      intro hk
      have heq := hput.ent hk
      rw [heq] at hk ⊢
      exact ih hk

theorem ok (h : Shrinks a b) (ha : a.Ok e) : b.Ok e := by
  induction h with
  | refl => exact ha
  | tail _ hput ih =>
      obtain ⟨x, hx, hput⟩ := hput
      exact hput.ok ih hx

theorem orphan {o : ℕ} (h : Shrinks a b) (ha : a.Ok e) (ho : b.Orphan o) : a.Orphan o := by
  induction h with
  | refl => exact ho
  | tail hrun hput ih =>
      obtain ⟨x, hx, hput⟩ := hput
      exact ih (hput.orphan (ok hrun ha) hx ho)

theorem spares {name : Name} (h : Shrinks a b) (ha : a.Ok 0) (hs : a.Spares d name) : b.Spares d name := by
  intro k hk hname hdir
  have hb := h.ok ha
  have hdir0 : ∀ {y}, b.type y = .dir → y ≠ 0 := by
    rintro y hy rfl
    rw [hb.zero] at hy
    cases hy
  have hent := h.ent (hdir0 hdir)
  rw [hent] at hname hdir ⊢
  obtain ⟨hlink, hall⟩ := hs k hk hname ((h.type (by rw [hdir]; decide)).symm.trans hdir)
  refine ⟨h.nlink ▸ hlink, fun o ho => ?_⟩
  rw [h.ent (hdir0 (hb.parent o ho.1 (hdir0 ho.1)).1)]
  exact hall o (h.orphan ha ho)

end Shrinks

-- Emptying an entry leaves a link over for the inode it named, and one for its
-- directory if that inode is one.
theorem Covers.clear_name (h : t.Covers x (n + 1)) (hx : x ≠ 0) (hz : t.type 0 = .free) (hk : 2 ≤ k)
    (hname : (t.ent d k).inum = x) (hde : de.inum = 0) : (t.setEnt d k de).Covers x n := by
  intro S K hS hK
  have hmem : (d, k) ∉ S := fun hmem => by
    have := (hS _ hmem).2
    rw [ent_setEnt, hde] at this
    exact hx this.symm
  have hold := h (insert (d, k) S) K ?_ ?_
  · rw [Finset.card_insert_of_notMem hmem] at hold
    omega
  · intro p hp
    rcases Finset.mem_insert.mp hp with rfl | hp
    · exact ⟨hk, hname⟩
    · have := hS p hp
      rwa [ent_setEnt_of_ne fun heq => hmem ((Prod.ext heq.1 heq.2 : p = (d, k)) ▸ hp)] at this
  · intro k' hk'
    have hkid := hK k' hk'
    by_cases heq : x = d ∧ k' = k
    · obtain ⟨rfl, rfl⟩ := heq
      rw [ent_setEnt, hde, type_setEnt, hz] at hkid
      cases hkid.2
    · rwa [ent_setEnt_of_ne heq] at hkid

theorem Covers.clear_kid (h : t.Covers d (n + 1)) (hd : d ≠ 0) (hz : t.type 0 = .free) (hk : 2 ≤ k)
    (hdir : t.type (t.ent d k).inum = .dir) (hde : de.inum = 0) : (t.setEnt d k de).Covers d n := by
  intro S K hS hK
  have hmem : k ∉ K := fun hmem => by
    have := (hK _ hmem).2
    rw [ent_setEnt, hde, type_setEnt, hz] at this
    cases this
  have hold := h S (insert k K) ?_ ?_
  · rw [Finset.card_insert_of_notMem hmem] at hold
    omega
  · intro p hp
    have hname := hS p hp
    by_cases heq : p.1 = d ∧ p.2 = k
    · rw [heq.1, heq.2, ent_setEnt, hde] at hname
      exact absurd hname.2.symm hd
    · rwa [ent_setEnt_of_ne heq] at hname
  · intro k' hk'
    rcases Finset.mem_insert.mp hk' with rfl | hk'
    · exact ⟨hk, hdir⟩
    · have := hK k' hk'
      rwa [ent_setEnt_of_ne fun heq => hmem (by rwa [← heq.2])] at this

namespace Ok

-- unlink of something that is not a directory.
theorem unlink (h : a.Ok 0) (hk : 2 ≤ k) (hd : d ≠ 0) (hx : x ≠ 0) (hname : (a.ent d k).inum = x)
    (hfile : a.type x ≠ .dir) (hde : de.inum = 0) (hput : Put (a.setEnt d k de) d b)
    (hlink : a.nlink x = n + 1) (hput' : Put (b.setNlink x n) x c) : c.Ok 0 := by
  have hb : b.Ok 0 := hput.ok (h.clear hk hde) hd
  have hcover : (a.setEnt d k de).Covers x n :=
    Covers.clear_name (hlink ▸ h.count x hx) hx h.zero hk hname hde
  refine hput'.ok (hb.setNlink (hput.covers hb.zero hx hcover) ?_) hx
  rintro - o ho hne rfl
  have hdir := (hb.parent o ho hne).1
  rw [hput.type (by rw [hdir]; decide)] at hdir
  exact hfile hdir

-- A directory is the root, in its parent, or an orphan.
theorem named_or_orphan (h : t.Ok e) {o : ℕ} (ho : t.type o = .dir) (hroot : o ≠ ROOTINO) :
    (∃ k, 2 ≤ k ∧ (t.ent (t.ent o 1).inum k).inum = o) ∨ t.Orphan o := by
  by_cases hname : ∃ d k, 2 ≤ k ∧ (t.ent d k).inum = o
  · obtain ⟨d, k, hk, rfl⟩ := hname
    exact .inl ⟨k, hk, by rw [(h.child d k hk ho).1]⟩
  · exact .inr ⟨ho, hroot, fun d k hk heq => hname ⟨d, k, hk, heq⟩⟩

-- The link count of y goes down to n. If that is 0, y has no child, so only an
-- orphan can have it as its "..".
theorem lower (h : t.Ok e) (hcover : t.Covers y n)
    (hsafe : n = 0 → ∀ o, o ≠ e → t.Orphan o → (t.ent o 1).inum ≠ y) : (t.setNlink y n).Ok e := by
  refine h.setNlink hcover ?_
  rintro rfl o ho hoe rfl
  by_cases hroot : o = ROOTINO
  · have := hcover ∅ ∅ (fun p hp => absurd hp (Finset.notMem_empty p))
      fun k hk => absurd hk (Finset.notMem_empty k)
    rw [hroot, h.root.2, if_pos rfl] at this
    omega
  · rcases h.named_or_orphan ho hroot with ⟨k, hk, hname⟩ | horphan
    · have := hcover ∅ {k} (fun p hp => absurd hp (Finset.notMem_empty p)) ?_
      · rw [Finset.card_singleton] at this
        omega
      · intro k' hk'
        rw [Finset.mem_singleton.mp hk', hname]
        exact ⟨hk, ho⟩
    · exact hsafe rfl o hoe horphan rfl

theorem ne_of_child (h : t.Ok 0) (hk : 2 ≤ k) (hname : (t.ent d k).inum = x) (hdir : t.type x = .dir) :
    d ≠ x := by
  have hx : x ≠ 0 := by
    rintro rfl
    rw [h.zero] at hdir
    cases hdir
  obtain ⟨hparent, hroot⟩ := h.child d k hk (by rwa [hname])
  rw [hname] at hparent hroot
  have := (h.parent x hdir hx).2.2 hroot
  rwa [hparent] at this

-- unlink of a directory: the parent loses the link of "..", too.
theorem rmdir (h : a.Ok 0) (hk : 2 ≤ k) (hx : x ≠ 0) (hname : (a.ent d k).inum = x) (hdir : a.type x = .dir)
    (hde : de.inum = 0) {m : ℕ} (hlink : a.nlink d = m + 1) (hput : Put ((a.setEnt d k de).setNlink d m) d b)
    (hlink' : a.nlink x = n + 1) (hput' : Put (b.setNlink x n) x c) (hm : m ≠ 0)
    (hsafe : ∀ o, a.Orphan o → (a.ent o 1).inum ≠ x) : c.Ok 0 := by
  obtain ⟨hparent, hroot⟩ := h.child d k hk (by rwa [hname])
  rw [hname] at hparent hroot
  have hddir := (h.parent x hdir hx).1
  rw [hparent] at hddir
  have hdx := h.ne_of_child hk hname hdir
  have hd : d ≠ 0 := by
    rintro rfl
    rw [h.zero] at hddir
    cases hddir
  obtain rfl := hput.eq_of_nlink (by rwa [nlink_setNlink])
  set a₁ := a.setEnt d k de with ha₁
  have h₁ : a₁.Ok 0 := h.clear hk hde
  have hlow : ∀ {o j}, j < 2 → a₁.ent o j = a.ent o j := fun hj => ent_setEnt_of_ne fun heq => by omega
  have hcd : a₁.Covers d m := Covers.clear_kid (hlink ▸ h.count d hd) hd h.zero hk (by rwa [hname]) hde
  have hcx : a₁.Covers x n := Covers.clear_name (hlink' ▸ h.count x hx) hx h.zero hk hname hde
  -- The parent first; x is already on its way out.
  have hb : (a₁.setNlink d m).Ok x := (h₁.exempt x).lower hcd fun hz => absurd hz hm
  have hc : c.Ok x := by
    refine hput'.ok (hb.lower hcx fun _ o hox horphan hop => ?_) hx
    rw [ent_setNlink, hlow (by omega)] at hop
    refine hsafe o ⟨horphan.1, horphan.2.1, fun d' k' hk' heq => ?_⟩ hop
    have hdk : ¬(d' = d ∧ k' = k) := by
      rintro ⟨rfl, rfl⟩
      exact hox (heq.symm.trans hname)
    exact horphan.2.2 d' k' hk' (by rwa [ent_setNlink, ha₁, ent_setEnt_of_ne hdk])
  refine hc.settle fun hxdir => ?_
  have hcb : c = (a₁.setNlink d m).setNlink x n := by
    rcases hput' with rfl | ⟨-, rfl⟩
    · rfl
    · rw [type_free] at hxdir
      cases hxdir
  have hent : ∀ {j}, j < 2 → c.ent x j = a.ent x j := fun hj => by rw [hcb, ent_setNlink, ent_setNlink, hlow hj]
  have hcn : c.nlink d = m := by rw [hcb, nlink_setNlink_of_ne hdx, nlink_setNlink]
  rw [hent (show 0 < 2 by omega), hent (show 1 < 2 by omega), hparent, hcn]
  refine ⟨(h.dot x hdir hx).1, (h.dot x hdir hx).2, h.dotdot x hdir hx, ?_, hm, hdx⟩
  rw [hcb]
  exact hddir

-- mkdir: the new directory x gets its name in d, and d the link of its "..".
theorem mkdir (h : t.Ok x) (hdir : t.type x = .dir) (hroot : x ≠ ROOTINO) (hnlink : t.nlink x = 1)
    (hname : ∀ d k, 2 ≤ k → (t.ent d k).inum ≠ x) (hkids : ∀ k, 2 ≤ k → t.type (t.ent x k).inum ≠ .dir)
    (hdot : t.ent x 0 = ⟨x, padded Xv6.dot⟩) (hdotdot : t.ent x 1 = ⟨d, padded Xv6.dotdot⟩) (hk : 2 ≤ k)
    (hd : t.type d = .dir) (hdx : d ≠ x) (hde : de.inum = x) : ((t.setEnt d k de).setNlink d (t.nlink d + 1)).Ok 0 := by
  have hd0 : d ≠ 0 := by
    rintro rfl
    rw [h.zero] at hd
    cases hd
  have hraise : (t.setNlink d (t.nlink d + 1)).Ok x := h.raise hd0 (by omega) (by omega)
  have hset : ((t.setNlink d (t.nlink d + 1)).setEnt d k de).Ok x := by
    refine hraise.setEnt hk (fun _ => ⟨hd, ?_⟩) (fun _ => ?_) (fun _ => ⟨0, ?_, ?_⟩) fun _ => ⟨t.nlink d, ?_, ?_⟩
    · rw [hde, type_setNlink, hdir]
      decide
    · rw [hde, ent_setNlink, hdotdot]
      exact ⟨rfl, hroot, Ne.symm hdx, fun k' hk' => hname d k' hk'⟩
    · rw [hde, nlink_setNlink_of_ne (Ne.symm hdx), hnlink]
      exact Nat.one_pos
    · rw [hde]
      exact covers_new hroot hname hkids
    · rw [nlink_setNlink]
      exact Nat.lt_succ_self _
    · exact h.count d hd0
  refine settle (e := x) hset fun _ => ?_
  have hlow : ∀ {j}, j < 2 → ((t.setEnt d k de).setNlink d (t.nlink d + 1)).ent x j = t.ent x j :=
    fun hj => ent_setEnt_of_ne fun heq => by omega
  rw [hlow (show 0 < 2 by omega), hlow (show 1 < 2 by omega), hdot, hdotdot, nlink_setNlink]
  exact ⟨rfl, rfl, rfl, hd, by omega, hdx⟩

end Ok

end Tree

end Xv6
