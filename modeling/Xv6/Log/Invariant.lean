import Xv6.Log.Commit
import Xv6.Log.Recovery

namespace Xv6.Log

open Function (update update_of_ne update_self)

-- What bread returns for each block: the log area is written through.
def view (s : Sys) (h : History) : Disk :=
  fun b => if InLog s.log.start s.log.size b then s.disk b else h.current b

-- How far the disk has got, phase by phase.
def Durable (s : Sys) (h : History) : Option CommitPc → Prop
  | none | some .start => readHead (s.disk s.log.start) = []
  | some (.writeLog tail) =>
      readHead (s.disk s.log.start) = [] ∧
      ∀ i b, i < tail → s.log.lh[i]? = some b → s.disk (s.log.start + i + 1) = h.current b
  | some .writeHead =>
      readHead (s.disk s.log.start) = [] ∧
      ∀ i b, s.log.lh[i]? = some b → s.disk (s.log.start + i + 1) = h.current b
  | some (.installTrans _) => h.pending = [] ∧ readHead (s.disk s.log.start) = s.log.lh
  | some .clear | some .eraseHead => h.pending = []
  | some .done => h.pending = [] ∧ readHead (s.disk s.log.start) = []

-- Group commit on a disk from which recovery gets the committed contents.
structure Inv (s : Sys) (h : History) (who : Option (ℕ × CommitPc)) : Prop where
  group : Group s (view s h) who
  size : 0 < s.log.size
  home : ∀ b ∈ s.log.lh, ¬InLog s.log.start s.log.size b
  pending : ∀ w ∈ h.pending, w.1 ∈ s.log.lh
  durable : Durable s h (who.map Prod.snd)
  recoverable : Recoverable s.log.start s.log.size s.disk h.committed

theorem current_record (h : History) (blockno : ℕ) (data : Block) :
    History.current { h with pending := h.pending ++ [(blockno, data)] } =
      update h.current blockno data := by
  rw [History.current, Writes.apply_concat]
  rfl

-- Blocks that the current group has not logged still have their committed contents.
theorem current_of_notMem (h : History) (lh : List ℕ) (hp : ∀ w ∈ h.pending, w.1 ∈ lh) (b : ℕ)
    (hb : b ∉ lh) : h.current b = h.committed b := by
  apply Writes.apply_of_notMem
  intro w hw he
  exact hb (he ▸ hp w hw)

theorem current_of_empty {h : History} (hp : h.pending = []) : h.current = h.committed := by
  simp [History.current, hp]

section View

variable {s : Sys} {h : History}

theorem view_home (b : ℕ) (hb : ¬InLog s.log.start s.log.size b) : view s h b = h.current b := by
  rw [view, if_neg hb]

theorem view_inLog (b : ℕ) (hb : InLog s.log.start s.log.size b) : view s h b = s.disk b := by
  rw [view, if_pos hb]

-- Writing a block of the log area through the cache.
theorem view_write (slot : ℕ) (data : Block) (hslot : InLog s.log.start s.log.size slot) (bc : Bcache) (pc : ℕ → Pc) :
    view { s with disk := update s.disk slot data, bc := bc, pc := pc } h =
      update (view s h) slot data := by
  funext b
  by_cases hb : b = slot
  · subst hb; simp [view, hslot]
  · simp [view, update_of_ne hb]

-- Installing a block whose contents are committed changes nothing that can be read.
theorem view_install (blockno : ℕ) (hhome : ¬InLog s.log.start s.log.size blockno)
    (bc : Bcache) (pc : ℕ → Pc) (data : Block) (hdata : data = h.current blockno) :
    view { s with disk := update s.disk blockno data, bc := bc, pc := pc } h =
      update (view s h) blockno data := by
  funext b
  by_cases hb : b = blockno
  · subst hb; simp [view, hhome, hdata]
  · simp [view, update_of_ne hb]

theorem view_logWrite (blockno : ℕ) (data : Block)
    (hhome : ¬InLog s.log.start s.log.size blockno) (bc : Bcache) (lh : List ℕ) :
    view { s with log := { s.log with lh := lh }, bc := bc }
        { h with pending := h.pending ++ [(blockno, data)] } =
      update (view s h) blockno data := by
  funext b
  by_cases hb : b = blockno
  · subst hb; simp [view, hhome, current_record]
  · simp [view, current_record, update_of_ne hb]

end View

namespace Inv

variable {s next : Sys} {h : History} {who : Option (ℕ × CommitPc)} {p : ℕ}

variable {i : Fin NBUF} {tail : ℕ}

theorem beginOp (hi : Inv s h who) (hs : s.beginOp p = .ok next) : Inv next h who := by
  obtain ⟨_, ⟨start, size, outstanding, committing, lh⟩, rfl, hlh, hstart, hsize, hg⟩ :=
    hi.group.beginOp hs
  simp only at hlh hstart hsize
  subst hlh hstart hsize
  exact { hi with group := hg }

theorem endOp (hi : Inv s h who) (hs : s.endOp p = .ok next) : ∃ who', Inv next h who' := by
  obtain ⟨rfl, ⟨start, size, outstanding, committing, lh⟩, pc, rfl, _, hlh, hstart, hsize, hg⟩ :=
    hi.group.endOp hs
  simp only at hlh hstart hsize
  subst hlh hstart hsize
  rcases hg with hg | hg
  · exact ⟨none, { hi with group := hg }⟩
  · exact ⟨some (p, .start), { hi with group := hg }⟩

theorem bget (hi : Inv s h who) {blockno : UInt32} (hs : s.bget p blockno = .ok next) :
    Inv next h who := by
  obtain ⟨bc, refs, rfl, hg⟩ := hi.group.bget hs
  exact { hi with group := hg }

theorem bread (hi : Inv s h who) (hs : s.bread p i = .ok next) :
    Inv next h who := by
  obtain ⟨bc, rfl, hg⟩ := hi.group.bread hs
  exact { hi with group := hg }

theorem brelse (hi : Inv s h who) (hs : s.brelse p i = .ok next) :
    Inv next h who := by
  obtain ⟨bc, refs, rfl, hg⟩ := hi.group.brelse hs
  exact { hi with group := hg }

theorem logWrite (hi : Inv s h who) {data : Block} (hhome : ¬InLog s.log.start s.log.size (s.bc.buf i).blockno)
    (hs : s.logWrite p i data = .ok next) :
    Inv next (h.record s (.logWrite p i data)) who := by
  obtain ⟨_, rfl, bc, lh, rfl, hlh, hg⟩ := hi.group.logWrite hs
  have hmem : ∀ b, b ∈ lh ↔ b ∈ s.log.lh ∨ b = (s.bc.buf i).blockno := by
    intro b
    rw [hlh]
    split
    · rename_i hin
      exact ⟨.inl, fun hb => hb.elim id (fun he => he ▸ hin)⟩
    · simp
  rw [← view_logWrite _ data hhome bc lh] at hg
  refine { hi with
    group := hg
    home := fun b hb => ?_
    pending := fun w hw => ?_
    durable := hi.durable }
  · rcases (hmem b).mp hb with hb | rfl
    · exact hi.home b hb
    · exact hhome
  · rcases List.mem_append.mp hw with hw | hw
    · exact (hmem _).mpr (.inl (hi.pending w hw))
    · simp only [List.mem_singleton] at hw
      exact (hmem _).mpr (.inr (by rw [hw]))

theorem slot_inLog (hi : Inv s h who) {i b : ℕ} (hb : s.log.lh[i]? = some b) :
    InLog s.log.start s.log.size (s.log.start + i + 1) := by
  have hs := hi.group.slot_lt hb
  exact ⟨by omega, by omega⟩

theorem head_inLog (hi : Inv s h who) : InLog s.log.start s.log.size s.log.start := by
  have hs := hi.size
  exact ⟨le_rfl, by omega⟩

theorem commit_start (hi : Inv s h (some (p, .start))) :
    Inv (s.goto p (.commit (.writeLog 0))) h (some (p, .writeLog 0)) :=
  { hi with
    group := hi.group.commit_start
    durable := ⟨hi.durable, by simp⟩ }

theorem commit_skip (hi : Inv s h (some (p, .start))) (hlh : s.log.lh = []) :
    Inv (s.goto p (.commit .done)) h (some (p, .done)) := by
  have hpend : h.pending = [] := by
    apply List.eq_nil_iff_forall_not_mem.mpr
    intro w hw
    simpa [hlh] using hi.pending w hw
  exact { hi with
    group := hi.group.commit_skip hlh
    durable := ⟨hpend, hi.durable⟩ }

theorem commit_writeLog {blockno : ℕ} (hi : Inv s h (some (p, .writeLog tail)))
    (hb : s.log.lh[tail]? = some blockno) (hs : s.writeLog p tail blockno = .ok next) :
    Inv (next.goto p (.commit (.writeLog (tail + 1)))) h (some (p, .writeLog (tail + 1))) := by
  have hslot := hi.slot_inLog hb
  have hhome := hi.home blockno (List.mem_of_getElem? hb)
  obtain ⟨hhead, hdone⟩ := hi.durable
  obtain ⟨bc, rfl, hg⟩ := hi.group.commit_writeLog hb hs
  rw [← view_write _ _ hslot bc (update s.pc p (.commit (.writeLog (tail + 1))))] at hg
  have hstart : update s.disk (s.log.start + tail + 1) (view s h blockno) s.log.start =
      s.disk s.log.start := update_of_ne (by omega) _ _
  refine { hi with
    group := hg
    durable := ⟨?_, ?_⟩
    recoverable := ⟨?_, ?_⟩ }
  · simpa only [Sys.goto, hstart] using hhead
  · intro i b hlt hib
    by_cases he : i = tail
    · subst he
      have heq : b = blockno := by simpa [Sys.goto, hb] using hib.symm
      subst heq
      simp [Sys.goto, view_home b hhome]
    · simp only [Sys.goto]
      rw [update_of_ne (by omega)]
      exact hdone i b (by omega) hib
  · intro i b hib
    simp [Sys.goto, hstart, hhead] at hib
  · intro b hout hnb
    simp only [Sys.goto] at hout hnb ⊢
    have hne : b ≠ s.log.start + tail + 1 := by rintro rfl; exact hout hslot
    rw [update_of_ne hne]
    exact hi.recoverable.rest b hout (by simp [hhead])

theorem commit_writeLog_end (hi : Inv s h (some (p, .writeLog tail))) (hb : s.log.lh[tail]? = none) :
    Inv (s.goto p (.commit .writeHead)) h (some (p, .writeHead)) := by
  obtain ⟨hhead, hdone⟩ := hi.durable
  have hlen : s.log.lh.length ≤ tail := List.getElem?_eq_none_iff.mp hb
  refine { hi with
    group := hi.group.commit_writeLog_end
    durable := ⟨hhead, fun i b hib => hdone i b ?_ hib⟩ }
  obtain ⟨hlt, _⟩ := List.getElem?_eq_some_iff.mp hib
  simp only [Sys.goto] at hlt
  omega

-- The committing write_head: from here on the log blocks are the transaction.
theorem commit_writeHead (hi : Inv s h (some (p, .writeHead))) (hs : s.writeHead p = .ok next) :
    Inv (next.goto p (.commit (.installTrans 0))) ⟨h.current, []⟩ (some (p, .installTrans 0)) := by
  have hslot := hi.head_inLog
  obtain ⟨hhead, hdone⟩ := hi.durable
  obtain ⟨bc, rfl, hg⟩ := hi.group.commit_writeHead (.installTrans 0) rfl (by simp) hs
  have hread : readHead (putHead (view s h s.log.start) s.log.lh) = s.log.lh :=
    readHead_putHead _ _ hi.group.length.2 hi.group.blocks
  have hview : view s ⟨h.current, []⟩ = view s h := rfl
  rw [← hview, ← view_write _ _ hslot bc
    (update s.pc p (.commit (.installTrans 0)))] at hg
  refine { hi with
    group := hg
    pending := by simp
    durable := ⟨rfl, by simp [Sys.goto, hread]⟩
    recoverable := ⟨?_, ?_⟩ }
  · intro i b hib
    simp only [Sys.goto, update_self, hread] at hib
    refine ⟨hi.home b (List.mem_of_getElem? hib), hi.group.slot_lt hib, ?_⟩
    simp only [Sys.goto]
    rw [update_of_ne (by omega), hdone i b hib]
  · intro b hout hnb
    simp only [Sys.goto, update_self, hread] at hout hnb ⊢
    have hne : b ≠ s.log.start := by rintro rfl; exact hout hslot
    rw [update_of_ne hne, hi.recoverable.rest b hout (by simp [hhead])]
    exact (current_of_notMem h s.log.lh hi.pending b hnb).symm

theorem commit_installTrans {blockno : ℕ} (hi : Inv s h (some (p, .installTrans tail)))
    (hb : s.log.lh[tail]? = some blockno) (hs : s.installTrans p tail blockno = .ok next) :
    Inv (next.goto p (.commit (.installTrans (tail + 1)))) h
      (some (p, .installTrans (tail + 1))) := by
  have hslot := hi.slot_inLog hb
  have hhome := hi.home blockno (List.mem_of_getElem? hb)
  obtain ⟨hpend, hhead⟩ := hi.durable
  obtain ⟨bc, rfl, hg⟩ := hi.group.commit_installTrans hb hs
  have hdata : view s h (s.log.start + tail + 1) = h.committed blockno := by
    rw [view_inLog _ hslot]
    exact (hi.recoverable.logged tail blockno (by rw [hhead]; exact hb)).2.2
  rw [← view_install blockno hhome bc (update s.pc p (.commit (.installTrans (tail + 1))))
    _ (by rw [hdata, current_of_empty hpend])] at hg
  have hstart : blockno ≠ s.log.start := by rintro rfl; exact hhome hi.head_inLog
  refine { hi with
    group := hg
    durable := ⟨hpend, by simpa only [Sys.goto, update_of_ne hstart.symm] using hhead⟩
    recoverable := ⟨?_, ?_⟩ }
  · intro i b hib
    simp only [Sys.goto, update_of_ne hstart.symm] at hib ⊢
    obtain ⟨hout, hsz, hd⟩ := hi.recoverable.logged i b hib
    have hne : s.log.start + i + 1 ≠ blockno := by
      rintro rfl
      exact hhome ⟨by omega, by omega⟩
    exact ⟨hout, hsz, by rw [update_of_ne hne, hd]⟩
  · intro b hout hnb
    simp only [Sys.goto, update_of_ne hstart.symm] at hout hnb ⊢
    have hne : b ≠ blockno := by
      rintro rfl
      exact hnb (by rw [hhead]; exact List.mem_of_getElem? hb)
    rw [update_of_ne hne]
    exact hi.recoverable.rest b hout hnb

theorem commit_installTrans_end (hi : Inv s h (some (p, .installTrans tail)))
    (hb : s.log.lh[tail]? = none) : Inv (s.goto p (.commit .clear)) h (some (p, .clear)) :=
  { hi with
    group := hi.group.commit_installTrans_end hb
    durable := hi.durable.1 }

theorem commit_clear (hi : Inv s h (some (p, .clear))) :
    Inv ({ s with log := { s.log with lh := [] } }.goto p (.commit .eraseHead)) h
      (some (p, .eraseHead)) := by
  have hpend : h.pending = [] := hi.durable
  exact { hi with
    group := hi.group.commit_clear
    home := by simp [Sys.goto]
    pending := by simp [hpend]
    durable := hpend }

theorem commit_eraseHead (hi : Inv s h (some (p, .eraseHead))) (hs : s.writeHead p = .ok next) :
    Inv (next.goto p (.commit .done)) h (some (p, .done)) := by
  have hslot := hi.head_inLog
  have hpend : h.pending = [] := hi.durable
  have hlh := hi.group.erased p .eraseHead rfl (.inl rfl)
  obtain ⟨bc, rfl, hg⟩ := hi.group.commit_writeHead .done rfl (fun _ => hlh) hs
  rw [← view_write _ _ hslot bc (update s.pc p (.commit .done))] at hg
  rw [hlh] at hg ⊢
  refine { hi with
    group := hg
    durable := ⟨hpend, by simp [Sys.goto, readHead_erased]⟩
    recoverable := .of_empty (by simp [Sys.goto, readHead_erased]) (fun b hout => ?_) }
  simp only [Sys.goto] at hout ⊢
  have hne : b ≠ s.log.start := by rintro rfl; exact hout hslot
  rw [update_of_ne hne, hi.group.cache.disk b (by simp [pinned]), view_home b hout,
    current_of_empty hpend]

theorem commit_done (hi : Inv s h (some (p, .done))) :
    Inv ({ s with log := s.log.endCommit }.goto p .idle) h none :=
  { hi with
    group := hi.group.commit_done
    durable := hi.durable.2 }

theorem commit (hi : Inv s h who) (hs : s.commit p = .ok next) :
    ∃ who', Inv next (h.record s (.commit p)) who' := by
  have hkeep : s.pc p ≠ .commit .writeHead → h.record s (.commit p) = h := by
    intro hne
    simp only [History.record, hne, ite_false]
  cases commit_cases hs with
  | start hpc _ =>
      rw [(hi.group.committer p _).mp hpc] at hi
      exact ⟨_, hkeep (by simp [hpc]) ▸ hi.commit_start⟩
  | skip hpc hlh =>
      rw [(hi.group.committer p _).mp hpc] at hi
      exact ⟨_, hkeep (by simp [hpc]) ▸ hi.commit_skip hlh⟩
  | writeLog hpc hb hmid =>
      rw [(hi.group.committer p _).mp hpc] at hi
      exact ⟨_, hkeep (by simp [hpc]) ▸ hi.commit_writeLog hb hmid⟩
  | writeLogEnd hpc hb =>
      rw [(hi.group.committer p _).mp hpc] at hi
      exact ⟨_, hkeep (by simp [hpc]) ▸ hi.commit_writeLog_end hb⟩
  | writeHead hpc hmid =>
      rw [(hi.group.committer p _).mp hpc] at hi
      simp only [History.record, hpc, ite_true]
      exact ⟨_, hi.commit_writeHead hmid⟩
  | installTrans hpc hb hmid =>
      rw [(hi.group.committer p _).mp hpc] at hi
      exact ⟨_, hkeep (by simp [hpc]) ▸ hi.commit_installTrans hb hmid⟩
  | installTransEnd hpc hb =>
      rw [(hi.group.committer p _).mp hpc] at hi
      exact ⟨_, hkeep (by simp [hpc]) ▸ hi.commit_installTrans_end hb⟩
  | clear hpc =>
      rw [(hi.group.committer p _).mp hpc] at hi
      exact ⟨_, hkeep (by simp [hpc]) ▸ hi.commit_clear⟩
  | eraseHead hpc hmid =>
      rw [(hi.group.committer p _).mp hpc] at hi
      exact ⟨_, hkeep (by simp [hpc]) ▸ hi.commit_eraseHead hmid⟩
  | done hpc =>
      rw [(hi.group.committer p _).mp hpc] at hi
      exact ⟨_, hkeep (by simp [hpc]) ▸ hi.commit_done⟩

end Inv

end Xv6.Log
