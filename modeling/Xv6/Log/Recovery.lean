import Xv6.Log.Header
import Xv6.Log.System

namespace Xv6.Log

variable {start size : ℕ} {disk home : Disk}

-- The disk determines the home contents: a block named in the header has its
-- contents in the log, every other block already holds them.
structure Recoverable (start size : ℕ) (disk home : Disk) : Prop where
  logged : ∀ i b, (readHead (disk start))[i]? = some b →
    ¬InLog start size b ∧ i + 1 < size ∧ disk (start + i + 1) = home b
  rest : ∀ b, ¬InLog start size b → b ∉ readHead (disk start) → disk b = home b

theorem recoverWrites_fst (start : ℕ) (disk : Disk) (tail : ℕ) (lh : List ℕ) :
    (recoverWrites start disk tail lh).map Prod.fst = lh := by
  induction lh generalizing disk tail with
  | nil => rfl
  | cons b rest ih => simp [recoverWrites, ih]

-- install_trans only writes home contents: the log block is read before any
-- home write can reach it, since the home blocks lie outside the log.
theorem recoverWrites_home (disk : Disk) (tail : ℕ) (lh : List ℕ)
    (h : ∀ i b, lh[i]? = some b → ¬InLog start size b ∧ tail + i + 1 < size ∧ disk (start + (tail + i) + 1) = home b) :
    ∀ w ∈ recoverWrites start disk tail lh, ¬InLog start size w.1 ∧ w.2 = home w.1 := by
  induction lh generalizing disk tail with
  | nil => simp [recoverWrites]
  | cons b rest ih =>
      obtain ⟨hb, _, hd⟩ := h 0 b rfl
      intro w hw
      rcases List.mem_cons.mp hw with rfl | hw
      · exact ⟨hb, hd⟩
      · refine ih _ (tail + 1) (fun i c hc => ?_) w hw
        obtain ⟨hc, hs, hdc⟩ := h (i + 1) c (by simpa using hc)
        have hne : start + (tail + 1 + i) + 1 ≠ b := by
          rintro rfl
          exact hb ⟨by omega, by omega⟩
        refine ⟨hc, by omega, ?_⟩
        rw [Function.update_of_ne hne, ← hdc]
        congr 1
        omega

namespace Recoverable

theorem install_home (h : Recoverable start size disk home) :
    ∀ w ∈ recoverWrites start disk 0 (readHead (disk start)),
      ¬InLog start size w.1 ∧ w.2 = home w.1 := by
  apply recoverWrites_home
  intro i b hb
  obtain ⟨hout, hs, hd⟩ := h.logged i b hb
  exact ⟨hout, by omega, by simpa using hd⟩

theorem apply_inLog (h : Recoverable start size disk home) {writes : List (ℕ × Block)}
    (hpre : writes <+: recoverWrites start disk 0 (readHead (disk start))) (b : ℕ)
    (hb : InLog start size b) : Writes.apply disk writes b = disk b := by
  apply Writes.apply_of_notMem
  intro w hw he
  exact (h.install_home w (hpre.subset hw)).1 (he ▸ hb)

-- Any prefix of the install writes keeps the disk recoverable.
theorem install_some (h : Recoverable start size disk home) (hsize : 0 < size) {writes : List (ℕ × Block)}
    (hpre : writes <+: recoverWrites start disk 0 (readHead (disk start))) :
    Recoverable start size (Writes.apply disk writes) home := by
  have hhead : Writes.apply disk writes start = disk start :=
    h.apply_inLog hpre start ⟨le_rfl, by omega⟩
  constructor
  · intro i b hb
    rw [hhead] at hb
    obtain ⟨hout, hs, hd⟩ := h.logged i b hb
    exact ⟨hout, hs, by rw [h.apply_inLog hpre _ ⟨by omega, by omega⟩, hd]⟩
  · intro b hout hb
    rw [hhead] at hb
    rw [Writes.apply_of_notMem, h.rest b hout hb]
    intro w hw he
    apply hb
    rw [← recoverWrites_fst start disk 0 (readHead (disk start)), ← he]
    exact List.mem_map_of_mem (hpre.subset hw)

theorem install_all (h : Recoverable start size disk home) (b : ℕ) (hb : ¬InLog start size b) :
    Writes.apply disk (recoverWrites start disk 0 (readHead (disk start))) b = home b := by
  apply Writes.apply_eq_of_forall
  · intro w hw he
    rw [(h.install_home w hw).2, he]
  · by_cases hm : b ∈ readHead (disk start)
    · right
      rw [← recoverWrites_fst start disk 0 (readHead (disk start))] at hm
      obtain ⟨w, hw, he⟩ := List.mem_map.mp hm
      exact ⟨w, hw, he⟩
    · exact .inl (h.rest b hb hm)

-- With every home block in place the header may be erased.
theorem of_empty (hhead : readHead (disk start) = [])
    (hhome : ∀ b, ¬InLog start size b → disk b = home b) : Recoverable start size disk home := by
  constructor
  · intro i b hb
    simp [hhead] at hb
  · exact fun b hb _ => hhome b hb

end Recoverable

theorem recoverFromLog_eq (start : ℕ) (disk : Disk) :
    recoverFromLog start disk =
      let after := Writes.apply disk (recoverWrites start disk 0 (readHead (disk start)))
      Function.update after start (putHead (after start) []) := by
  rw [recoverFromLog, recoveryTrace, Writes.apply_concat]

theorem readHead_erased (b : Block) : readHead (putHead b []) = [] :=
  readHead_putHead b [] (by simp [LOGSIZE]) (by simp)

theorem recoverFromLog_head (start : ℕ) (disk : Disk) :
    readHead (recoverFromLog start disk start) = [] := by
  rw [recoverFromLog_eq]
  simp only [Function.update_self, readHead_erased]

theorem Recoverable.recoverFromLog_home (h : Recoverable start size disk home) (hsize : 0 < size)
    (b : ℕ) (hb : ¬InLog start size b) : recoverFromLog start disk b = home b := by
  have hne : b ≠ start := by
    rintro rfl
    exact hb ⟨le_rfl, by omega⟩
  rw [recoverFromLog_eq]
  simp only [Function.update_of_ne hne, h.install_all b hb]

theorem Recoverable.recovered (h : Recoverable start size disk home) (hsize : 0 < size) :
    Recoverable start size (recoverFromLog start disk) home :=
  .of_empty (recoverFromLog_head start disk) (h.recoverFromLog_home hsize)

theorem Recoverable.cutRecoveries {after : Disk} (h : Recoverable start size disk home)
    (hsize : 0 < size) (hcut : CutRecoveries start disk after) :
    Recoverable start size after home := by
  induction hcut with
  | none => exact h
  | @cut disk after writes hcut _ ih =>
      apply ih
      rcases List.prefix_concat_iff.mp hcut with hall | hpre
      · have hrec := h.recovered hsize
        rw [recoverFromLog, recoveryTrace] at hrec
        rwa [hall]
      · exact h.install_some hsize hpre

-- A second recovery finds an empty header and writes back the block it finds.
theorem recoverFromLog_idem (start : ℕ) (disk : Disk) :
    recoverFromLog start (recoverFromLog start disk) = recoverFromLog start disk := by
  have herase : ∀ b : Block, putHead (putHead b []) [] = putHead b [] :=
    fun b => Block.setWord_setWord b 0 0 0
  rw [recoverFromLog_eq start (recoverFromLog start disk), recoverFromLog_head]
  simp only [recoverWrites, Writes.apply_nil]
  rw [Function.update_eq_self_iff, recoverFromLog_eq]
  simp only [Function.update_self, herase]

end Xv6.Log
