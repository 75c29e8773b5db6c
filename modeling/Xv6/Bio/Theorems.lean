import Xv6.Bio
import Mathlib.Tactic

namespace Xv6.Bcache

open Function (update update_of_ne)

variable {c : Bcache} {i : Fin NBUF} {blockno : ℕ} {next : Bcache} {disk : Disk} {pid : ℕ}

@[simp] theorem update_self (c : Bcache) (i : Fin NBUF) (f : Buf → Buf) :
    (c.update i f).buf i = f (c.buf i) := by
  simp [update]

theorem update_of_ne (c : Bcache) (i j : Fin NBUF) (f : Buf → Buf) (h : j ≠ i) :
    (c.update i f).buf j = c.buf j := by
  simp [update, h]

def Holds (c : Bcache) (i : Fin NBUF) (blockno : ℕ) : Prop :=
  (c.buf i).dev = ROOTDEV ∧ (c.buf i).blockno = blockno

theorem Wf.mem_lru (hw : c.Wf) (i : Fin NBUF) : i ∈ c.lru :=
  hw.lru.mem_iff.mpr (List.mem_finRange i)

theorem Wf.eq_of_holds (hw : c.Wf) {j : Fin NBUF} (hi : c.Holds i blockno) (hj : c.Holds j blockno) : i = j :=
  hw.unique i j hi.1 hj.1 (hi.2.trans hj.2.symm)

theorem cached_some (h : c.cached ROOTDEV blockno = some i) : c.Holds i blockno := by
  unfold cached at h
  simpa [Holds] using List.find?_some h

theorem cached_none (hw : c.Wf) (h : c.cached ROOTDEV blockno = none) (i : Fin NBUF) : ¬c.Holds i blockno := by
  unfold cached at h
  intro hi
  have hn := List.find?_eq_none.mp h i (hw.mem_lru i)
  exact hn (by simpa [Holds] using hi)

theorem unused_some (h : c.unused = some i) :
    (c.buf i).refcnt = 0 := by
  unfold unused at h
  simpa using List.find?_some h

theorem bget_cases (hw : c.Wf) (h : c.bget ROOTDEV blockno = .ok (i, next)) :
    (c.Holds i blockno ∧ next = c.update i fun b => { b with refcnt := b.refcnt + 1 }) ∨
    ((∀ j, ¬c.Holds j blockno) ∧ (c.buf i).refcnt = 0 ∧
      next = c.update i fun b =>
        { b with dev := ROOTDEV, blockno := blockno, valid := false, refcnt := 1 }) := by
  unfold bget at h
  split at h
  · rename_i j hj
    cases h
    exact .inl ⟨cached_some hj, rfl⟩
  · rename_i hnone
    split at h
    · rename_i j hj
      cases h
      exact .inr ⟨cached_none hw hnone, unused_some hj, rfl⟩
    · cases h

theorem breadLocked_ok (h : c.breadLocked disk pid i = .ok next) :
    (c.buf i).lock = none ∧ next = c.update i fun b =>
      { b with lock := some pid, valid := true,
               data := if b.valid then b.data else disk b.blockno } := by
  unfold breadLocked at h
  split at h
  · cases h
  · rename_i hl
    exact ⟨by simpa using hl, by simpa using h.symm⟩

theorem bread_ok (h : c.bread disk pid ROOTDEV blockno = .ok (i, next)) :
    ∃ mid, c.bget ROOTDEV blockno = .ok (i, mid) ∧ mid.breadLocked disk pid i = .ok next := by
  unfold bread at h
  split at h
  · cases h
  · rename_i j mid hg
    split at h
    · cases h
    · rename_i last hl
      cases h
      exact ⟨mid, hg, hl⟩

theorem brelse_ok (h : c.brelse pid i = .ok next) :
    (c.buf i).lock = some pid ∧
    next.buf = (c.update i fun b => { b with lock := none, refcnt := b.refcnt - 1 }).buf ∧
    (next.lru = c.lru ∨ next.lru = i :: c.lru.erase i) := by
  unfold brelse at h
  split at h
  · cases h
  · rename_i hl
    cases h
    refine ⟨not_not.mp hl, ?_, ?_⟩
    · split <;> rfl
    · split
      · exact .inr rfl
      · exact .inl rfl

theorem bwrite_ok {next : Disk} (h : c.bwrite disk pid i = .ok next) :
    next = Function.update disk (c.buf i).blockno (c.buf i).data := by
  unfold bwrite at h
  split at h
  · cases h
  · simpa using h.symm

-- What is known of one buffer.
structure BufOk (b : Buf) (view : Disk) (use : ℕ) (pins : List ℕ) : Prop where
  refcnt : b.refcnt = use + if b.dev = ROOTDEV ∧ b.blockno ∈ pins then 1 else 0
  held : 0 < use → b.dev = ROOTDEV
  locked : b.lock ≠ none → 0 < use ∧ b.valid = true
  word : b.dev = ROOTDEV → b.blockno < 2 ^ 32
  data : b.dev = ROOTDEV → b.valid = true → b.data = view b.blockno

-- What ties the cache to the disk. view is what bread returns for a block, uses
-- counts the references that callers hold and pins are the blocks that bpin keeps.
structure Coherent (c : Bcache) (disk view : Disk) (uses : Fin NBUF → ℕ) (pins : List ℕ) :
    Prop where
  wf : c.Wf
  refcnt : ∀ i, (c.buf i).refcnt =
    uses i + if (c.buf i).dev = ROOTDEV ∧ (c.buf i).blockno ∈ pins then 1 else 0
  pinned : ∀ b ∈ pins, ∃ i, c.Holds i b ∧ (c.buf i).valid = true
  held : ∀ i, 0 < uses i → (c.buf i).dev = ROOTDEV
  locked : ∀ i, (c.buf i).lock ≠ none → 0 < uses i ∧ (c.buf i).valid = true
  word : ∀ i, (c.buf i).dev = ROOTDEV → (c.buf i).blockno < 2 ^ 32
  data : ∀ i, (c.buf i).dev = ROOTDEV → (c.buf i).valid = true →
    (c.buf i).data = view (c.buf i).blockno
  disk : ∀ b, b ∉ pins → disk b = view b

theorem Clean.coherent (h : c.Clean disk) :
    c.Coherent disk disk (fun _ => 0) [] where
  wf := h.toWf
  refcnt := fun i => by simp [h.refcnt i]
  pinned := fun b hb => absurd hb (by simp)
  held := fun i hi => absurd hi (by simp)
  locked := fun i hi => absurd (h.lock i) hi
  word := h.word
  data := h.data
  disk := fun _ _ => rfl

namespace Coherent

variable {c next : Bcache} {disk view : Disk} {uses : Fin NBUF → ℕ} {pins : List ℕ}

variable {i : Fin NBUF} {blockno pid : ℕ}

theorem refcnt_pos_of_pinned (h : c.Coherent disk view uses pins)
    (hi : c.Holds i blockno) (hp : blockno ∈ pins) : 0 < (c.buf i).refcnt := by
  have hc : (c.buf i).dev = ROOTDEV ∧ (c.buf i).blockno ∈ pins := ⟨hi.1, hi.2 ▸ hp⟩
  rw [h.refcnt i, if_pos hc]
  omega

theorem valid_of_pinned (h : c.Coherent disk view uses pins) (hi : c.Holds i blockno) (hp : blockno ∈ pins) :
    (c.buf i).valid = true := by
  obtain ⟨j, hj, hv⟩ := h.pinned blockno hp
  rwa [h.wf.eq_of_holds hj hi] at hv

-- Buffer i changes, and holds blockno afterwards.
theorem of_update (h : c.Coherent disk view uses pins) {disk' view' : Disk} {use : ℕ} {pins' : List ℕ}
    (f : Buf → Buf) (hnext : next.buf = (c.update i f).buf) (hlru : next.lru.Perm c.lru) (hi : next.Holds i blockno)
    (hfresh : ∀ j, c.Holds j blockno → j = i) (hkeep : ∀ b ∈ pins, c.Holds i b → b = blockno)
    (hbuf : BufOk (f (c.buf i)) view' use pins') (hpin : blockno ∈ pins' → (f (c.buf i)).valid = true)
    (hother : ∀ b, b ≠ blockno → (b ∈ pins' ↔ b ∈ pins) ∧ view' b = view b)
    (hdisk : ∀ b, b ∉ pins' → disk' b = view' b) : next.Coherent disk' view' (Function.update uses i use) pins' := by
  have hself : next.buf i = f (c.buf i) := by rw [hnext, update_self]
  have hframe : ∀ j, j ≠ i → next.buf j = c.buf j := fun j hj => by rw [hnext, update_of_ne _ _ _ _ hj]
  have hone : ∀ j, next.Holds j blockno → j = i := by
    intro j hj
    by_contra hne
    rw [Holds, hframe j hne] at hj
    exact hne (hfresh j hj)
  have hall : ∀ j, BufOk (next.buf j) view' (Function.update uses i use j) pins' := by
    intro j
    by_cases hj : j = i
    · rw [hj, hself, Function.update_self]
      exact hbuf
    · rw [hframe j hj, Function.update_of_ne hj]
      have hne : (c.buf j).dev = ROOTDEV → (c.buf j).blockno ≠ blockno := fun hd hb => hj (hfresh j ⟨hd, hb⟩)
      refine ⟨?_, h.held j, h.locked j, h.word j, fun hd hv => (h.data j hd hv).trans (hother _ (hne hd)).2.symm⟩
      rw [h.refcnt j]
      congr 1
      exact if_congr (and_congr_right fun hd => (hother _ (hne hd)).1.symm) rfl rfl
  refine ⟨⟨hlru.trans h.wf.lru, fun j k hj hk hb => ?_⟩, fun j => (hall j).refcnt, fun b hb => ?_,
    fun j => (hall j).held, fun j => (hall j).locked, fun j => (hall j).word, fun j => (hall j).data, hdisk⟩
  · by_cases hji : (next.buf j).blockno = blockno
    · rw [hone j ⟨hj, hji⟩, hone k ⟨hk, hb.symm.trans hji⟩]
    · have hjne : j ≠ i := by
        rintro rfl
        exact hji hi.2
      have hkne : k ≠ i := by
        rintro rfl
        exact hji (hb.trans hi.2)
      rw [hframe j hjne] at hj hb
      rw [hframe k hkne] at hk hb
      exact h.wf.unique j k hj hk hb
  · by_cases hbn : b = blockno
    · subst hbn
      exact ⟨i, hi, hself ▸ hpin hb⟩
    · obtain ⟨j, hj, hv⟩ := h.pinned b ((hother b hbn).1.mp hb)
      have hne : j ≠ i := by
        rintro rfl
        exact hbn (hkeep b ((hother b hbn).1.mp hb) hj)
      refine ⟨j, ?_, ?_⟩
      · rwa [Holds, hframe j hne]
      · rwa [hframe j hne]

-- The change leaves the block of the buffer alone.
theorem of_held (h : c.Coherent disk view uses pins) {disk' view' : Disk} {use : ℕ} {pins' : List ℕ} (f : Buf → Buf)
    (hnext : next.buf = (c.update i f).buf) (hlru : next.lru.Perm c.lru) (hi : c.Holds i blockno)
    (hkey : (f (c.buf i)).dev = (c.buf i).dev ∧ (f (c.buf i)).blockno = (c.buf i).blockno)
    (hbuf : BufOk (f (c.buf i)) view' use pins') (hpin : blockno ∈ pins' → (f (c.buf i)).valid = true)
    (hother : ∀ b, b ≠ blockno → (b ∈ pins' ↔ b ∈ pins) ∧ view' b = view b)
    (hdisk : ∀ b, b ∉ pins' → disk' b = view' b) : next.Coherent disk' view' (Function.update uses i use) pins' := by
  refine h.of_update f hnext hlru ?_ (fun j hj => h.wf.eq_of_holds hj hi) (fun b _ hb => hb.2.symm.trans hi.2) hbuf hpin
    hother hdisk
  rw [Holds, hnext, update_self, hkey.1, hkey.2]
  exact hi

theorem bget (h : c.Coherent disk view uses pins)
    (hword : blockno < 2 ^ 32) (hg : c.bget ROOTDEV blockno = .ok (i, next)) :
    next.Coherent disk view (Function.update uses i (uses i + 1)) pins ∧
      next.Holds i blockno ∧ (next.buf i).lock = (c.buf i).lock ∧
      ∀ j, j ≠ i → next.buf j = c.buf j := by
  obtain ⟨hi, rfl⟩ | ⟨hnone, hzero, rfl⟩ := bget_cases h.wf hg
  · refine ⟨h.of_held _ rfl (.refl _) hi ⟨rfl, rfl⟩ ⟨?_, fun _ => hi.1, fun hl => ⟨by omega, (h.locked i hl).2⟩,
      h.word i, h.data i⟩ (h.valid_of_pinned hi) (fun _ _ => ⟨Iff.rfl, rfl⟩) h.disk, by simpa [Holds] using hi, by simp,
      fun j hj => update_of_ne _ _ _ _ hj⟩
    have hr := h.refcnt i
    dsimp only
    omega
  · -- The recycled buffer has no user and no pin, so no pinned block lived in it.
    have hkeep : ∀ b ∈ pins, c.Holds i b → b = blockno := by
      intro b hb hi
      have := h.refcnt_pos_of_pinned hi hb
      omega
    have huse : uses i = 0 := by
      have := h.refcnt i
      omega
    have hfresh : blockno ∉ pins := by
      intro hp
      obtain ⟨j, hj, _⟩ := h.pinned blockno hp
      exact hnone j hj
    refine ⟨h.of_update _ rfl (.refl _) (by simp [Holds]) (fun j hj => absurd hj (hnone j)) hkeep
      ⟨by simp [huse, hfresh], fun _ => rfl, fun hl => ?_, fun _ => hword, fun _ hv => absurd hv Bool.false_ne_true⟩
      (fun hp => absurd hp hfresh) (fun _ _ => ⟨Iff.rfl, rfl⟩) h.disk, by simp [Holds], by simp,
      fun j hj => update_of_ne _ _ _ _ hj⟩
    have := (h.locked i hl).1
    omega

theorem breadLocked (h : c.Coherent disk view uses pins)
    (hi : c.Holds i blockno) (huse : 0 < uses i) (hl : c.breadLocked disk pid i = .ok next) :
    next.Coherent disk view uses pins ∧ next.Holds i blockno ∧ (next.buf i).valid = true ∧
      (next.buf i).data = view blockno ∧ (next.buf i).lock = some pid ∧ (c.buf i).lock = none ∧
      ∀ j, j ≠ i → next.buf j = c.buf j := by
  obtain ⟨hnone, rfl⟩ := breadLocked_ok hl
  have hdata : (if (c.buf i).valid then (c.buf i).data else disk (c.buf i).blockno) =
      view blockno := by
    split
    · rename_i hv
      rw [h.data i hi.1 hv, hi.2]
    · rename_i hv
      rw [hi.2, h.disk blockno fun hp => hv (h.valid_of_pinned hi hp)]
  refine ⟨?_, by simpa [Holds] using hi, by simp, by simpa using hdata, by simp, hnone,
    fun j hj => update_of_ne _ _ _ _ hj⟩
  rw [← Function.update_eq_self i uses]
  exact h.of_held _ rfl (.refl _) hi ⟨rfl, rfl⟩ ⟨h.refcnt i, h.held i, fun _ => ⟨huse, rfl⟩, h.word i,
    fun _ _ => by simpa [hi.2] using hdata⟩ (fun _ => rfl) (fun _ _ => ⟨Iff.rfl, rfl⟩) h.disk

theorem bread (h : c.Coherent disk view uses pins)
    (hword : blockno < 2 ^ 32) (hb : c.bread disk pid ROOTDEV blockno = .ok (i, next)) :
    next.Coherent disk view (Function.update uses i (uses i + 1)) pins ∧ next.Holds i blockno ∧
      (next.buf i).valid = true ∧ (next.buf i).data = view blockno ∧
      (next.buf i).lock = some pid ∧ (c.buf i).lock = none ∧ ∀ j, j ≠ i → next.buf j = c.buf j := by
  obtain ⟨mid, hg, hl⟩ := bread_ok hb
  obtain ⟨hc, hi, hlock, hframe⟩ := h.bget hword hg
  obtain ⟨hc', hi', hv, hd, hp, hn, hframe'⟩ := hc.breadLocked hi (by simp) hl
  refine ⟨hc', hi', hv, hd, hp, hlock ▸ hn, fun j hj => ?_⟩
  rw [hframe' j hj, hframe j hj]

theorem brelse (h : c.Coherent disk view uses pins) (count : ℕ)
    (huse : uses i = count + 1) (hr : c.brelse pid i = .ok next) :
    next.Coherent disk view (Function.update uses i count) pins ∧
      (∀ j, j ≠ i → next.buf j = c.buf j) := by
  obtain ⟨_, hbuf, hlru⟩ := brelse_ok hr
  have hdev := h.held i (by omega)
  have hperm : next.lru.Perm c.lru := by
    rcases hlru with hl | hl
    · rw [hl]
    · rw [hl]
      exact (List.perm_cons_erase (h.wf.mem_lru i)).symm
  refine ⟨h.of_held _ hbuf hperm ⟨hdev, rfl⟩ ⟨rfl, rfl⟩ ⟨?_, fun _ => hdev, fun hl => absurd rfl hl, h.word i, h.data i⟩
    (h.valid_of_pinned ⟨hdev, rfl⟩) (fun _ _ => ⟨Iff.rfl, rfl⟩) h.disk, fun j hj => ?_⟩
  · have hr := h.refcnt i
    dsimp only
    omega
  · rw [hbuf, update_of_ne _ _ _ _ hj]

-- A buffer's new data becomes what every reader sees of its block; the disk may
-- lag behind only for a pinned block.
theorem setData (h : c.Coherent disk view uses pins) (hi : c.Holds i blockno) (data : Block) (after : Disk)
    (hdisk : ∀ b, b ∉ pins → after b = Function.update view blockno data b) :
    (c.setData i data).Coherent after (Function.update view blockno data) uses pins := by
  rw [← Function.update_eq_self i uses]
  exact h.of_held _ rfl (.refl _) hi ⟨rfl, rfl⟩ ⟨h.refcnt i, h.held i, h.locked i, h.word i, fun _ _ => by simp [hi.2]⟩
    (h.valid_of_pinned hi) (fun _ hb => ⟨Iff.rfl, Function.update_of_ne hb _ _⟩) hdisk

theorem setData_bwrite (h : c.Coherent disk view uses pins) (hi : c.Holds i blockno) {data : Block} {after : Disk}
    (hw : (c.setData i data).bwrite disk pid i = .ok after) : after = Function.update disk blockno data ∧
      (c.setData i data).Coherent after (Function.update view blockno data) uses pins := by
  have hafter : after = Function.update disk blockno data := by simpa [Bcache.setData, hi.2] using bwrite_ok hw
  refine ⟨hafter, h.setData hi data after fun b hb => ?_⟩
  rw [hafter]
  by_cases he : b = blockno
  · rw [he, Function.update_self, Function.update_self]
  · rw [Function.update_of_ne he, Function.update_of_ne he, h.disk b hb]

theorem bpin (h : c.Coherent disk view uses pins)
    (hi : c.Holds i blockno) (hv : (c.buf i).valid = true) (hnew : blockno ∉ pins) :
    (c.bpin i).Coherent disk view uses (pins ++ [blockno]) := by
  rw [← Function.update_eq_self i uses]
  refine h.of_held _ rfl (.refl _) hi ⟨rfl, rfl⟩ ⟨?_, h.held i, h.locked i, h.word i, h.data i⟩ (fun _ => hv)
    (fun b hb => ⟨by simp [hb], rfl⟩) fun b hb => h.disk b fun hp => hb (List.mem_append_left _ hp)
  have hr := h.refcnt i
  simp only [hi.1, hi.2, hnew] at hr
  simp [hi.1, hi.2, hr]

theorem bunpin (h : c.Coherent disk view uses (blockno :: pins))
    (hi : c.Holds i blockno) (hnew : blockno ∉ pins) (hclean : disk blockno = view blockno) :
    (c.bunpin i).Coherent disk view uses pins := by
  rw [← Function.update_eq_self i uses]
  refine h.of_held _ rfl (.refl _) hi ⟨rfl, rfl⟩ ⟨?_, h.held i, h.locked i, h.word i, h.data i⟩
    (fun hp => absurd hp hnew) (fun b hb => ⟨by simp [hb], rfl⟩) fun b hb => ?_
  · have hr := h.refcnt i
    simp only [hi.1, hi.2] at hr
    simp [hi.1, hi.2, hr, hnew]
  · by_cases he : b = blockno
    · rw [he, hclean]
    · exact h.disk b (by simp [he, hb])

end Coherent

end Xv6.Bcache
