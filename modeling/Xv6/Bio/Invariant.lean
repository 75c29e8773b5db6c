import Xv6.Bio.Lru

namespace Xv6

namespace Bio

open Function (update update_eq_self update_of_ne update_self)

def holders (s : Bio) (i : Fin NBUF) : ℕ := (s.refs ++ s.leaving).countP fun r => r.2 == i

-- A buffer b at i that someone refers to keeps its block, and has the bytes last stored in it.
structure BufInv (s : Bio) (i : Fin NBUF) (b : Buf) : Prop where
  count : b.refcnt = s.holders i + if b.dev = ROOTDEV ∧ b.blockno ∈ s.pins then 1 else 0
  held : 0 < s.holders i → b.dev = ROOTDEV
  locked : ∀ p, b.lock = some p → (p, i) ∈ s.refs ∧ b.valid = true
  dirty : s.dirty i = true → b.lock ≠ none
  data : b.dev = ROOTDEV → b.valid = true → b.data = s.last b.blockno

structure LogInv (s : Bio) : Prop where
  nodup : s.pins.Nodup
  logged : s.log.committing = false → ∀ b, b ∈ s.log.lh → b ∈ s.pins
  pins : ∀ b ∈ s.pins, b ∈ s.log.lh
  ops : s.log.outstanding = s.ops.length
  quiet : s.log.committing = true → s.ops = []

def Has (s : Bio) (i : Fin NBUF) (blockno : ℕ) : Prop := (s.buf i).dev = ROOTDEV ∧ (s.buf i).blockno = blockno

-- The bytes last stored in a block are on the disk unless its buffer is pinned or about to be
-- written.
structure Inv (s : Bio) : Prop extends s.LogInv where
  unique : ∀ i j, (s.buf i).dev = ROOTDEV → (s.buf j).dev = ROOTDEV → (s.buf i).blockno = (s.buf j).blockno → i = j
  buf : ∀ i, s.BufInv i (s.buf i)
  pinned : ∀ b ∈ s.pins, ∃ i, s.Has i b ∧ (s.buf i).valid = true
  disk : ∀ b, b ∉ s.pins → (∀ i, s.dirty i = true → (s.buf i).blockno ≠ b) → s.disk b = s.last b

variable {s t : Bio} {e : BioEvent} {i j : Fin NBUF} {p blockno : ℕ} {lru : List (Fin NBUF)}

theorem buf_update {b : Buf} (h : t.cache.buf = update s.cache.buf i b) :
    t.buf i = b ∧ ∀ j, j ≠ i → t.buf j = s.buf j := by
  unfold buf
  rw [h]
  exact ⟨update_self .., fun j hj => update_of_ne hj _ _⟩

theorem Inv.start (disk : Disk) (logstart size : ℕ) : (Bio.start disk logstart size).Inv := by
  have hdev : ∀ i, ¬((Bio.start disk logstart size).buf i).dev = ROOTDEV := fun i => by
    change ¬(0 = 1)
    decide
  refine ⟨⟨List.nodup_nil, ?_, ?_, rfl, fun _ => rfl⟩, fun i _ hi => absurd hi (hdev i), fun i => ⟨?_, fun hi => ?_,
    fun p hi => ?_, fun hi => ?_, fun hi => absurd hi (hdev i)⟩, ?_, fun b _ _ => rfl⟩
  · exact fun _ _ hb => absurd hb List.not_mem_nil
  · exact fun _ hb => absurd hb List.not_mem_nil
  · rw [if_neg fun h => hdev i h.1]
    rfl
  · exact absurd hi (Nat.not_lt_zero _)
  · cases hi
  · cases hi
  · exact fun _ hb => absurd hb List.not_mem_nil

theorem countP_pair (p : ℕ) (i j : Fin NBUF) (l : List (ℕ × Fin NBUF)) :
    ((p, i) :: l).countP (fun r => r.2 == j) = l.countP (fun r => r.2 == j) + if j = i then 1 else 0 := by
  rw [List.countP_cons]
  by_cases hj : j = i
  · simp [hj]
  · simp [hj, Ne.symm hj]

theorem countP_erase {l : List (ℕ × Fin NBUF)} (h : (p, i) ∈ l) (j : Fin NBUF) :
    l.countP (fun r => r.2 == j) = (l.erase (p, i)).countP (fun r => r.2 == j) + if j = i then 1 else 0 := by
  rw [(List.perm_cons_erase h).countP_eq, countP_pair]

theorem Inv.root_of_mem (h : s.Inv) (hp : (p, i) ∈ s.refs ++ s.leaving) : (s.buf i).dev = ROOTDEV :=
  (h.buf i).held (List.countP_pos_iff.mpr ⟨(p, i), hp, by simp⟩)

theorem Inv.root_of_locked (h : s.Inv) (hlock : (s.buf i).lock = some p) :
    (s.buf i).dev = ROOTDEV ∧ (s.buf i).valid = true := by
  obtain ⟨hp, hvalid⟩ := (h.buf i).locked p hlock
  exact ⟨h.root_of_mem (List.mem_append.mpr (.inl hp)), hvalid⟩

theorem Inv.root_of_dirty (h : s.Inv) (hd : s.dirty i = true) :
    (s.buf i).dev = ROOTDEV ∧ (s.buf i).valid = true := by
  obtain ⟨q, hq⟩ := Option.ne_none_iff_exists'.mp ((h.buf i).dirty hd)
  exact h.root_of_locked hq

theorem Inv.eq_of_has (h : s.Inv) (hi : s.Has i blockno) (hj : s.Has j blockno) : i = j :=
  h.unique i j hi.1 hj.1 (hi.2.trans hj.2.symm)

theorem Inv.valid_of_pinned (h : s.Inv) (hi : s.Has i blockno) (hp : blockno ∈ s.pins) : (s.buf i).valid = true := by
  obtain ⟨j, hj, hv⟩ := h.pinned blockno hp
  rwa [h.eq_of_has hj hi] at hv

theorem Inv.disk_of_clean (h : s.Inv) (hi : s.Has i blockno) (hp : blockno ∉ s.pins) (hd : s.dirty i = false) :
    s.disk blockno = s.last blockno := by
  refine h.disk blockno hp fun j hj hno => ?_
  rw [h.eq_of_has ⟨(h.root_of_dirty hj).1, hno⟩ hi, hd] at hj
  cases hj

-- Buffer i becomes b, for block blockno, and nothing changes for the other blocks.
theorem Inv.of_update {b : Buf} (h : s.Inv) (hbuf : t.cache.buf = update s.cache.buf i b)
    (hframe : ∀ j, j ≠ i → t.holders j = s.holders j ∧ t.dirty j = s.dirty j ∧ ∀ p, (p, j) ∈ s.refs → (p, j) ∈ t.refs)
    (hi : b.dev = ROOTDEV ∧ b.blockno = blockno) (hfresh : ∀ j, s.Has j blockno → j = i)
    (hkeep : ∀ c, c ∈ s.pins ∨ s.dirty i = true → s.Has i c → c = blockno) (hinv : t.BufInv i b)
    (hpin : blockno ∈ t.pins → b.valid = true)
    (hother : ∀ c, c ≠ blockno → (c ∈ t.pins ↔ c ∈ s.pins) ∧ t.last c = s.last c ∧ t.disk c = s.disk c)
    (hdisk : blockno ∉ t.pins → t.dirty i = false → t.disk blockno = t.last blockno) (hlog : t.LogInv) : t.Inv := by
  obtain ⟨hself, hsame⟩ := buf_update hbuf
  have hone : ∀ j, t.Has j blockno → j = i := by
    intro j hj
    by_contra hne
    rw [Has, hsame j hne] at hj
    exact hne (hfresh j hj)
  refine ⟨hlog, fun j k hj hk hb => ?_, fun j => ?_, fun c hc => ?_, fun c hc hclean => ?_⟩
  · by_cases hji : (t.buf j).blockno = blockno
    · rw [hone j ⟨hj, hji⟩, hone k ⟨hk, hb.symm.trans hji⟩]
    · have hne : ∀ k, (t.buf k).blockno ≠ blockno → t.buf k = s.buf k := by
        refine fun k hk => hsame k ?_
        rintro rfl
        exact hk (hself ▸ hi.2)
      have hki := hne k (hb ▸ hji)
      rw [hne j hji] at hj hb
      rw [hki] at hk hb
      exact h.unique j k hj hk hb
  · by_cases hji : j = i
    · rw [hji, hself]
      exact hinv
    · obtain ⟨hholders, hdirty, hrefs⟩ := hframe j hji
      have hne : (s.buf j).dev = ROOTDEV → (s.buf j).blockno ≠ blockno := fun hd hb => hji (hfresh j ⟨hd, hb⟩)
      rw [hsame j hji]
      refine ⟨?_, fun hj => (h.buf j).held (hholders ▸ hj), fun p hp => ?_, fun hd => (h.buf j).dirty (hdirty ▸ hd),
        fun hd hv => ((h.buf j).data hd hv).trans (hother _ (hne hd)).2.1.symm⟩
      · rw [(h.buf j).count, hholders]
        exact congrArg _ (if_congr (and_congr_right fun hd => (hother _ (hne hd)).1.symm) rfl rfl)
      · exact ⟨hrefs p ((h.buf j).locked p hp).1, ((h.buf j).locked p hp).2⟩
  · by_cases hcb : c = blockno
    · subst hcb
      refine ⟨i, ?_, hself ▸ hpin hc⟩
      rwa [Has, hself]
    · have hold := (hother c hcb).1.mp hc
      obtain ⟨j, hj, hv⟩ := h.pinned c hold
      have hji : j ≠ i := by
        rintro rfl
        exact hcb (hkeep c (.inl hold) hj)
      refine ⟨j, ?_, ?_⟩
      · rwa [Has, hsame j hji]
      · rwa [hsame j hji]
  · by_cases hcb : c = blockno
    · subst hcb
      refine hdisk hc (Bool.eq_false_of_not_eq_true fun hd => hclean i hd ?_)
      rw [hself, hi.2]
    · obtain ⟨hpins, hlast, hdisk⟩ := hother c hcb
      rw [hlast, hdisk]
      refine h.disk c (hpins.not.mp hc) fun j hj hno => ?_
      by_cases hji : j = i
      · subst hji
        exact hcb (hkeep c (.inr hj) ⟨(h.root_of_dirty hj).1, hno⟩)
      · obtain ⟨-, hdirty, -⟩ := hframe j hji
        exact hclean j (hdirty.trans hj) (by rw [hsame j hji, hno])

-- The block of the buffer stays.
theorem Inv.of_held {b : Buf} (h : s.Inv) (hbuf : t.cache.buf = update s.cache.buf i b)
    (hframe : ∀ j, j ≠ i → t.holders j = s.holders j ∧ t.dirty j = s.dirty j ∧ ∀ p, (p, j) ∈ s.refs → (p, j) ∈ t.refs)
    (hdev : (s.buf i).dev = ROOTDEV) (hkey : b.dev = (s.buf i).dev ∧ b.blockno = (s.buf i).blockno)
    (hinv : t.BufInv i b) (hpin : (s.buf i).blockno ∈ t.pins → b.valid = true)
    (hother : ∀ c, c ≠ (s.buf i).blockno → (c ∈ t.pins ↔ c ∈ s.pins) ∧ t.last c = s.last c ∧ t.disk c = s.disk c)
    (hdisk : (s.buf i).blockno ∉ t.pins → t.dirty i = false → t.disk (s.buf i).blockno = t.last (s.buf i).blockno)
    (hlog : t.LogInv) : t.Inv :=
  h.of_update hbuf hframe ⟨hkey.1.trans hdev, hkey.2⟩ (fun _ hj => h.eq_of_has hj ⟨hdev, rfl⟩)
    (fun _ _ hc => hc.2.symm) hinv hpin hother hdisk hlog

theorem Inv.hit (h : s.Inv) (hi : (s.buf i).dev = ROOTDEV) :
    Inv { s.setBuf i (fun b => { b with refcnt := b.refcnt + 1 }) with refs := (p, i) :: s.refs } := by
  have hholders : ∀ j, holders { s.setBuf i (fun b => { b with refcnt := b.refcnt + 1 }) with
      refs := (p, i) :: s.refs } j = s.holders j + if j = i then 1 else 0 := fun j => countP_pair ..
  refine h.of_held rfl (fun j hj => ⟨?_, rfl, fun q => List.mem_cons_of_mem _⟩) hi ⟨rfl, rfl⟩
    ⟨?_, fun _ => hi, fun q hq => ?_, (h.buf i).dirty, (h.buf i).data⟩ (h.valid_of_pinned ⟨hi, rfl⟩)
    (fun _ _ => ⟨Iff.rfl, rfl, rfl⟩) (h.disk_of_clean ⟨hi, rfl⟩) ⟨h.nodup, h.logged, h.pins, h.ops, h.quiet⟩
  · rw [hholders, if_neg hj, add_zero]
  · rw [hholders, if_pos rfl, add_right_comm]
    exact congrArg (· + 1) (h.buf i).count
  · exact ⟨List.mem_cons_of_mem _ ((h.buf i).locked q hq).1, ((h.buf i).locked q hq).2⟩

theorem Inv.releasesleep (h : s.Inv) (hp : (p, i) ∈ s.refs) (hclean : s.dirty i = false) :
    Inv { s.setBuf i (fun b => { b with lock := none }) with
      refs := s.refs.erase (p, i), leaving := (p, i) :: s.leaving } := by
  have hholders : ∀ j, holders { s.setBuf i (fun b => { b with lock := none }) with
      refs := s.refs.erase (p, i), leaving := (p, i) :: s.leaving } j = s.holders j := by
    intro j
    refine List.Perm.countP_eq _ ?_
    refine List.perm_middle.trans ?_
    rw [← List.cons_append]
    exact (List.perm_cons_erase hp).symm.append_right _
  have hi := h.root_of_mem (List.mem_append.mpr (.inl hp))
  refine h.of_held rfl (fun j hj => ⟨hholders j, rfl, fun q hq => ?_⟩) hi ⟨rfl, rfl⟩ ⟨?_, fun _ => hi, fun q hq => ?_,
    fun hd => ?_, (h.buf i).data⟩ (h.valid_of_pinned ⟨hi, rfl⟩) (fun _ _ => ⟨Iff.rfl, rfl, rfl⟩)
    (h.disk_of_clean ⟨hi, rfl⟩) ⟨h.nodup, h.logged, h.pins, h.ops, h.quiet⟩
  · refine (List.mem_erase_of_ne ?_).mpr hq
    rintro ⟨⟩
    exact hj rfl
  · rw [hholders]
    exact (h.buf i).count
  · cases hq
  · cases hclean.symm.trans hd

-- refcnt goes down at the end of brelse, wherever the ring has the buffer then.
theorem Inv.release (h : s.Inv) (hp : (p, i) ∈ s.leaving) (ring : Dll.Links (Fin NBUF)) (stamp : Fin NBUF → Option ℕ)
    (clock : ℕ) : Inv { s with
      cache := { s.cache.update i (fun b => { b with refcnt := b.refcnt - 1 }) with ring := ring }
      leaving := s.leaving.erase (p, i), stamp := stamp, clock := clock } := by
  have hholders : ∀ j, s.holders j = holders { s with
      cache := { s.cache.update i (fun b => { b with refcnt := b.refcnt - 1 }) with ring := ring }
      leaving := s.leaving.erase (p, i), stamp := stamp, clock := clock } j + if j = i then 1 else 0 := by
    intro j
    rw [holders, holders, List.countP_append, List.countP_append, countP_erase hp, add_assoc]
  have hi := h.root_of_mem (List.mem_append.mpr (.inr hp))
  refine h.of_held rfl (fun j hj => ⟨?_, rfl, fun _ hq => hq⟩) hi ⟨rfl, rfl⟩ ⟨?_, fun _ => hi, (h.buf i).locked,
    (h.buf i).dirty, (h.buf i).data⟩ (h.valid_of_pinned ⟨hi, rfl⟩) (fun _ _ => ⟨Iff.rfl, rfl, rfl⟩)
    (h.disk_of_clean ⟨hi, rfl⟩) ⟨h.nodup, h.logged, h.pins, h.ops, h.quiet⟩
  · rw [hholders j, if_neg hj, add_zero]
  · have hcount := (h.buf i).count
    rw [hholders i, if_pos rfl, add_right_comm] at hcount
    exact Nat.sub_eq_of_eq_add hcount

-- An unused buffer gets another block.
theorem Inv.recycle (h : s.Inv) {blockno : ℕ} (hnew : ∀ j, ¬((s.buf j).dev = ROOTDEV ∧ (s.buf j).blockno = blockno))
    (hzero : (s.buf i).refcnt = 0) : Inv
      { s.setBuf i (fun b => { b with dev := ROOTDEV, blockno := blockno, valid := false, refcnt := 1 }) with
        refs := (p, i) :: s.refs } := by
  set t : Bio := { s.setBuf i (fun b => { b with dev := ROOTDEV, blockno := blockno, valid := false, refcnt := 1 }) with
    refs := (p, i) :: s.refs } with ht
  have hholders : ∀ j, t.holders j = s.holders j + if j = i then 1 else 0 := fun j => countP_pair ..
  -- No one holds buffer i, and its block is not pinned.
  have hcount := (h.buf i).count
  have hidle : s.holders i = 0 := by omega
  have hfree : (s.buf i).lock = none := by
    cases hlock : (s.buf i).lock with
    | none => rfl
    | some q =>
        have hq := ((h.buf i).locked q hlock).1
        have : 0 < s.holders i := List.countP_pos_iff.mpr ⟨(q, i), List.mem_append.mpr (.inl hq), by simp⟩
        omega
  have hpin : blockno ∉ s.pins := by
    intro hmem
    obtain ⟨j, hj, -⟩ := h.pinned blockno hmem
    exact hnew j hj
  have hkeep : ∀ c, c ∈ s.pins ∨ s.dirty i = true → s.Has i c → c = blockno := by
    rintro c (hc | hd) ⟨hdev, rfl⟩
    · rw [if_pos ⟨hdev, hc⟩] at hcount
      omega
    · exact absurd hfree ((h.buf i).dirty hd)
  refine h.of_update rfl (fun j hj => ⟨?_, rfl, fun q => List.mem_cons_of_mem _⟩) ⟨rfl, rfl⟩
    (fun j hj => absurd hj (hnew j)) hkeep ⟨?_, fun _ => rfl, fun q hq => ?_, (h.buf i).dirty, fun _ hv => ?_⟩
    (fun hc => absurd hc hpin) (fun _ _ => ⟨Iff.rfl, rfl, rfl⟩) (fun hc _ => ?_)
    ⟨h.nodup, h.logged, h.pins, h.ops, h.quiet⟩
  · rw [hholders, if_neg hj, add_zero]
  · rw [hholders, if_pos rfl, hidle, if_neg fun hin => hpin hin.2]
  · cases hfree.symm.trans hq
  · cases hv
  · exact h.disk blockno hpin fun j hj hno => hnew j ⟨(h.root_of_dirty hj).1, hno⟩

theorem Inv.bread (h : s.Inv) (hp : (p, i) ∈ s.refs) (hlock : (s.buf i).lock = none) :
    Inv (s.setBuf i fun b =>
      { b with lock := some p, valid := true, data := if b.valid then b.data else s.disk b.blockno }) := by
  have hi := h.root_of_mem (List.mem_append.mpr (.inl hp))
  have hclean : s.dirty i = false := Bool.eq_false_of_not_eq_true fun hd => (h.buf i).dirty hd hlock
  refine h.of_held rfl (fun j hj => ⟨rfl, rfl, fun _ hq => hq⟩) hi ⟨rfl, rfl⟩ ⟨(h.buf i).count, fun _ => hi,
    fun q hq => ?_, fun _ => Option.some_ne_none p, fun _ _ => ?_⟩ (fun _ => rfl) (fun _ _ => ⟨Iff.rfl, rfl, rfl⟩)
    (h.disk_of_clean ⟨hi, rfl⟩) ⟨h.nodup, h.logged, h.pins, h.ops, h.quiet⟩
  · cases hq
    exact ⟨hp, rfl⟩
  · change (if (s.buf i).valid then (s.buf i).data else s.disk (s.buf i).blockno) = s.last (s.buf i).blockno
    split
    · rename_i hvalid
      exact (h.buf i).data hi hvalid
    · rename_i hvalid
      exact h.disk_of_clean ⟨hi, rfl⟩ (fun hpin => hvalid (h.valid_of_pinned ⟨hi, rfl⟩ hpin)) hclean

-- A step that changes the log only.
theorem Inv.of_log (h : s.Inv) (hrest : t = { s with log := t.log, ops := t.ops })
    (hlogged : t.log.committing = false → ∀ b, b ∈ t.log.lh → b ∈ s.pins) (hpins : ∀ b ∈ s.pins, b ∈ t.log.lh)
    (hops : t.log.outstanding = t.ops.length) (hquiet : t.log.committing = true → t.ops = []) : t.Inv := by
  rw [hrest]
  exact ⟨⟨h.nodup, hlogged, hpins, hops, hquiet⟩, h.unique, fun i => ⟨(h.buf i).count, (h.buf i).held, (h.buf i).locked,
    (h.buf i).dirty, (h.buf i).data⟩, h.pinned, h.disk⟩

theorem dirty_setDirty (s : Bio) (i : Fin NBUF) (dirty : Bool) : (s.setDirty i dirty).dirty i = dirty := update_self ..

theorem Inv.store (h : s.Inv) (hlock : (s.buf i).lock = some p) (data : Block) :
    Inv { (s.setBuf i fun b => { b with data := data }).setDirty i true with
      last := update s.last (s.buf i).blockno data } := by
  obtain ⟨hi, -⟩ := h.root_of_locked hlock
  refine h.of_held rfl (fun j hj => ⟨rfl, update_of_ne hj _ _, fun _ hq => hq⟩) hi ⟨rfl, rfl⟩ ⟨(h.buf i).count,
    fun _ => hi, (h.buf i).locked, fun _ => ?_, fun _ _ => ?_⟩ (h.valid_of_pinned ⟨hi, rfl⟩)
    (fun c hc => ⟨Iff.rfl, update_of_ne hc _ _, rfl⟩) (fun _ hd => ?_) ⟨h.nodup, h.logged, h.pins, h.ops, h.quiet⟩
  · change (s.buf i).lock ≠ none
    rw [hlock]
    exact Option.some_ne_none p
  · exact (update_self (s.buf i).blockno data s.last).symm
  · exact absurd ((dirty_setDirty s i true).symm.trans hd) Bool.false_ne_true.symm

theorem Inv.bwrite (h : s.Inv) (hlock : (s.buf i).lock = some p) : Inv
    { s.setDirty i false with disk := update s.disk (s.buf i).blockno (s.buf i).data } := by
  obtain ⟨hi, hvalid⟩ := h.root_of_locked hlock
  refine h.of_held (update_eq_self i _).symm (fun j hj => ⟨rfl, update_of_ne hj _ _, fun _ hq => hq⟩) hi ⟨rfl, rfl⟩
    ⟨(h.buf i).count, fun _ => hi, (h.buf i).locked, fun hd => ?_, (h.buf i).data⟩ (h.valid_of_pinned ⟨hi, rfl⟩)
    (fun c hc => ⟨Iff.rfl, rfl, update_of_ne hc _ _⟩) (fun _ _ => (update_self ..).trans ((h.buf i).data hi hvalid))
    ⟨h.nodup, h.logged, h.pins, h.ops, h.quiet⟩
  exact absurd ((dirty_setDirty s i false).symm.trans hd) Bool.false_ne_true

-- No commit is going on in a transaction.
theorem Inv.not_committing (h : s.Inv) (hop : 1 ≤ s.log.outstanding) : s.log.committing = false := by
  cases hc : s.log.committing with
  | false => rfl
  | true =>
      have hops := h.ops
      rw [h.quiet hc] at hops
      exact absurd hop (by simp [hops])

-- log_write leaves a change to the commit, since the block is pinned.
theorem Inv.unmark (h : s.Inv) (hlock : (s.buf i).lock = some p) (hpin : (s.buf i).blockno ∈ s.pins) :
    Inv (s.setDirty i false) := by
  obtain ⟨hi, -⟩ := h.root_of_locked hlock
  refine h.of_held (update_eq_self i _).symm (fun j hj => ⟨rfl, update_of_ne hj _ _, fun _ hq => hq⟩) hi ⟨rfl, rfl⟩
    ⟨(h.buf i).count, fun _ => hi, (h.buf i).locked, fun hd => ?_, (h.buf i).data⟩ (h.valid_of_pinned ⟨hi, rfl⟩)
    (fun _ _ => ⟨Iff.rfl, rfl, rfl⟩) (fun hc => absurd hpin hc) ⟨h.nodup, h.logged, h.pins, h.ops, h.quiet⟩
  exact absurd ((dirty_setDirty s i false).symm.trans hd) Bool.false_ne_true

theorem Inv.pin (h : s.Inv) (hlock : (s.buf i).lock = some p) (hop : 1 ≤ s.log.outstanding)
    (hnew : (s.buf i).blockno ∉ s.log.lh) : Inv { s.setBuf i (fun b => { b with refcnt := b.refcnt + 1 }) with
      log := { s.log with lh := s.log.lh ++ [(s.buf i).blockno] }
      pins := (s.buf i).blockno :: s.pins } := by
  obtain ⟨hi, hvalid⟩ := h.root_of_locked hlock
  have hpin : (s.buf i).blockno ∉ s.pins := fun hmem => hnew (h.pins _ hmem)
  have hcommit := h.not_committing hop
  refine h.of_held rfl (fun _ _ => ⟨rfl, rfl, fun _ hq => hq⟩) hi ⟨rfl, rfl⟩ ⟨?_, fun _ => hi, (h.buf i).locked,
    (h.buf i).dirty, (h.buf i).data⟩ (fun _ => hvalid) (fun c hc => ⟨List.mem_cons.trans (or_iff_right hc), rfl, rfl⟩)
    (fun hc => absurd List.mem_cons_self hc)
    ⟨List.nodup_cons.mpr ⟨hpin, h.nodup⟩, fun _ b hb => ?_, fun b hb => ?_, h.ops, fun hc => ?_⟩
  · have hcount := (h.buf i).count
    rw [if_neg fun hin => hpin hin.2] at hcount
    rw [if_pos ⟨hi, List.mem_cons_self⟩]
    exact congrArg (· + 1) hcount
  · rcases List.mem_append.mp hb with hb | hb
    · exact List.mem_cons_of_mem _ (h.logged hcommit b hb)
    · rw [List.mem_singleton.mp hb]
      exact List.mem_cons_self
  · rcases List.mem_cons.mp hb with rfl | hb
    · exact List.mem_append.mpr (.inr (List.mem_singleton_self _))
    · exact List.mem_append.mpr (.inl (h.pins b hb))
  · cases hcommit.symm.trans hc

theorem Inv.bunpin (h : s.Inv) (hcommit : s.log.committing = true) (hlock : (s.buf i).lock = some p)
    (hpin : (s.buf i).blockno ∈ s.pins) (hhome : s.disk (s.buf i).blockno = (s.buf i).data) : (s.bunpin i).Inv := by
  obtain ⟨hi, hvalid⟩ := h.root_of_locked hlock
  have hmem : ∀ b, b ∈ (s.bunpin i).pins ↔ b ≠ (s.buf i).blockno ∧ b ∈ s.pins := fun b => h.nodup.mem_erase_iff
  refine h.of_held rfl (fun _ _ => ⟨rfl, rfl, fun _ hq => hq⟩) hi ⟨rfl, rfl⟩ ⟨?_, fun _ => hi, (h.buf i).locked,
    (h.buf i).dirty, (h.buf i).data⟩ (fun _ => hvalid) (fun c hc => ⟨(hmem c).trans (and_iff_right hc), rfl, rfl⟩)
    (fun _ _ => hhome.trans ((h.buf i).data hi hvalid)) ⟨h.nodup.erase _, fun hc => ?_, fun b hb => ?_, h.ops, h.quiet⟩
  · have hcount := (h.buf i).count
    rw [if_pos ⟨hi, hpin⟩] at hcount
    rw [if_neg fun hin => ((hmem _).mp hin.2).1 rfl]
    exact Nat.sub_eq_of_eq_add hcount
  · cases hcommit.symm.trans hc
  · exact h.pins b ((hmem b).mp hb).2

theorem Inv.step (h : s.Inv) (hlru : s.Lru lru) (hlog : s.AsLog e) (hmove : Moves s e t) : t.Inv := by
  cases hmove with
  | beginOp p hcommit =>
      refine h.of_log rfl h.logged h.pins ?_ fun hc => ?_
      · change s.log.outstanding + 1 = s.ops.length + 1
        rw [h.ops]
      · change s.log.committing = true at hc
        rw [hcommit] at hc
        cases hc
  | endOp p hp hcommit =>
      have hlen := List.length_erase_of_mem hp
      refine h.of_log rfl (fun _ => h.logged hcommit) h.pins ?_ fun hc => ?_
      · change s.log.outstanding - 1 = (s.ops.erase p).length
        rw [hlen, h.ops]
      · have hzero := of_decide_eq_true hc
        rw [h.ops, ← hlen] at hzero
        exact List.length_eq_zero_iff.mp hzero
  | hit p blockno i hi => exact h.hit (hlru.cached_some hi).1
  | recycle p blockno i hnone hi => exact h.recycle (hlru.cached_none hnone) (hlru.unused_some hi).1
  | bread p i hp hlock => exact h.bread hp hlock
  | store p i data hlock => exact h.store hlock data
  | bwrite p i hlock => exact h.bwrite hlock
  | absorb p i hlock hop hin => exact h.unmark hlock (h.logged (h.not_committing hop) _ hin)
  | logWrite p i hlock hop hnew =>
      have hpin := h.pin hlock hop hnew
      obtain ⟨hself, -⟩ := buf_update (s := s) (t := { s.setBuf i (fun b => { b with refcnt := b.refcnt + 1 }) with
        log := { s.log with lh := s.log.lh ++ [(s.buf i).blockno] }
        pins := (s.buf i).blockno :: s.pins }) (i := i) rfl
      exact hpin.unmark (by rw [hself]; exact hlock) (by rw [hself]; exact List.mem_cons_self)
  | bpin p i => exact hlog.elim
  | bunpin p i => exact h.bunpin hlog.1 hlog.2.1 hlog.2.2.1 hlog.2.2.2
  | releasesleep p i hlock hp hclean => exact h.releasesleep hp hclean
  | stay p i hp hused => exact h.release hp s.cache.ring s.stamp (s.clock + 1)
  | release p i hp hunused => exact h.release hp _ _ _
  | clear p =>
      refine h.of_log rfl (fun _ b hb => absurd hb List.not_mem_nil) (fun b hb => ?_) h.ops h.quiet
      rw [hlog.2] at hb
      cases hb
  | endCommit p =>
      refine h.of_log rfl (fun _ b hb => ?_) h.pins h.ops fun hc => ?_
      · change b ∈ s.log.lh at hb
        rw [hlog.2] at hb
        cases hb
      · cases hc

end Bio

end Xv6
