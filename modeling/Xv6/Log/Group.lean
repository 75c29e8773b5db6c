import Xv6.Bio.Theorems
import Xv6.Lib.Except
import Xv6.Log.System

namespace Xv6.Log

open Function (update update_of_ne update_self)

def uses (refs : List (ℕ × Fin NBUF)) (i : Fin NBUF) : ℕ := refs.countP fun r => decide (r.2 = i)

theorem uses_cons (refs : List (ℕ × Fin NBUF)) (p : ℕ) (i : Fin NBUF) :
    uses ((p, i) :: refs) = update (uses refs) i (uses refs i + 1) := by
  funext j
  by_cases hj : j = i
  · subst hj; simp [uses]
  · simp [uses, hj, Ne.symm hj]

theorem uses_erase {refs : List (ℕ × Fin NBUF)} {p : ℕ} {i : Fin NBUF} (h : (p, i) ∈ refs) :
    uses refs i = uses (refs.erase (p, i)) i + 1 ∧
      update (uses refs) i (uses (refs.erase (p, i)) i) = uses (refs.erase (p, i)) := by
  have hcons := uses_cons (refs.erase (p, i)) p i
  have hperm : uses refs = uses ((p, i) :: refs.erase (p, i)) := by
    funext j
    exact (List.perm_cons_erase h).countP_eq _
  rw [hperm, hcons]
  simp

def pinned (lh : List ℕ) : Option CommitPc → List ℕ
  | some (.installTrans tail) => lh.drop tail
  | some .clear | some .eraseHead | some .done => []
  | _ => lh

-- Group commit: who is the process inside commit() and where it is there, and
-- view is what bread returns for each block.
structure Group (s : Sys) (view : Disk) (who : Option (ℕ × CommitPc)) : Prop where
  word : s.log.start < 2 ^ 32 ∧ s.log.start + s.log.size ≤ 2 ^ 32
  committer : ∀ p c, s.pc p = .commit c ↔ who = some (p, c)
  committing : s.log.committing = who.isSome
  ops : ∃ ops : Finset ℕ, (∀ p, p ∈ ops ↔ s.pc p = .inOp) ∧ ops.card = s.log.outstanding
  quiet : who.isSome = true → s.log.outstanding = 0
  length : s.log.lh.length ≤ s.log.size - 1 ∧ s.log.lh.length ≤ LOGSIZE
  nodup : s.log.lh.Nodup
  blocks : ∀ b ∈ s.log.lh, b < 2 ^ 32
  erased : ∀ p c, who = some (p, c) → c = .eraseHead ∨ c = .done → s.log.lh = []
  cache : s.bc.Coherent s.disk view (uses s.refs) (pinned s.log.lh (who.map Prod.snd))

namespace Group

variable {s next : Sys} {view : Disk} {who : Option (ℕ × CommitPc)}

variable {p : ℕ}

-- Nobody is between begin_op and end_op while a commit runs.
theorem no_op_while_commit (hg : Group s view who) (hw : who.isSome = true) (p : ℕ) :
    s.pc p ≠ .inOp := by
  obtain ⟨ops, hops, hcard⟩ := hg.ops
  rw [hg.quiet hw, Finset.card_eq_zero] at hcard
  intro hp
  have hm := (hops p).mpr hp
  simp [hcard] at hm

theorem who_none_of_inOp (hg : Group s view who) (hp : s.pc p = .inOp) : who = none := by
  by_contra hne
  exact hg.no_op_while_commit (Option.isSome_iff_ne_none.mpr hne) p hp

-- Moving one process that is not in commit and does not enter it.
theorem committer_goto (hg : Group s view who) {pc : Pc} (hold : ∀ c, s.pc p ≠ .commit c)
    (hnew : ∀ c, pc ≠ .commit c) (q : ℕ) (c : CommitPc) :
    update s.pc p pc q = .commit c ↔ who = some (q, c) := by
  by_cases hq : q = p
  · subst hq
    rw [update_self, ← hg.committer q c]
    exact ⟨fun he => absurd he (hnew c), fun he => absurd he (hold c)⟩
  · rw [update_of_ne hq]
    exact hg.committer q c

theorem beginOp (hg : Group s view who) (hs : s.beginOp p = .ok next) :
    s.pc p = .idle ∧ ∃ log, next = { s with log := log }.goto p .inOp ∧ log.lh = s.log.lh ∧
      log.start = s.log.start ∧ log.size = s.log.size ∧ Group next view who := by
  unfold Sys.beginOp at hs
  split at hs
  · cases hs
  rename_i hidle
  rw [not_not] at hidle
  split at hs
  · cases hs
  rename_i log hlog
  unfold Log.beginOp at hlog
  split at hlog
  · cases hlog
  split at hlog
  · cases hlog
  rename_i hcom _
  simp only [Option.some.injEq] at hlog
  simp only [Except.ok.injEq] at hs
  subst hlog hs
  have hnone : who.isSome = false := by rw [← hg.committing]; simpa using hcom
  obtain ⟨ops, hops, hcard⟩ := hg.ops
  refine ⟨hidle, _, rfl, rfl, rfl, rfl, { hg with
    committer := hg.committer_goto (by simp [hidle]) (by simp)
    ops := ⟨insert p ops, fun q => ?_, ?_⟩
    quiet := fun hsome => by simp [hnone] at hsome }⟩
  · by_cases hq : q = p
    · subst hq; simp [Sys.goto]
    · simp [Sys.goto, hq, hops q]
  · have hnot : p ∉ ops := by simp [hops p, hidle]
    rw [Finset.card_insert_of_notMem hnot, hcard]
    rfl

theorem endOp (hg : Group s view who) (hs : s.endOp p = .ok next) :
    who = none ∧ ∃ log pc, next = { s with log := log }.goto p pc ∧ pc ≠ .inOp ∧
      log.lh = s.log.lh ∧ log.start = s.log.start ∧ log.size = s.log.size ∧
      (Group next view none ∨ Group next view (some (p, .start))) := by
  unfold Sys.endOp at hs
  split at hs
  · cases hs
  rename_i hin
  rw [not_not] at hin
  have hnone := hg.who_none_of_inOp hin
  subst hnone
  have hcom : s.log.committing = false := by simpa using hg.committing
  obtain ⟨ops, hops, hcard⟩ := hg.ops
  have hops' : ∀ pc, pc ≠ Pc.inOp → ∀ q, q ∈ ops.erase p ↔ update s.pc p pc q = .inOp := by
    intro pc hpc q
    by_cases hq : q = p
    · subst hq; simp [hpc]
    · simp [hq, hops q]
  have hcard' : (ops.erase p).card = s.log.outstanding - 1 := by
    rw [Finset.card_erase_of_mem ((hops p).mpr hin), hcard]
  simp only [Log.endOp, hcom, Bool.false_eq_true, ite_false] at hs
  by_cases hlast : s.log.outstanding - 1 = 0
  · simp only [hlast, ite_true, Except.ok.injEq] at hs
    subst hs
    refine ⟨rfl, _, _, rfl, by simp, rfl, rfl, rfl, .inr { hg with
      committer := fun q c => ?_
      committing := by simp [Sys.goto]
      ops := ⟨ops.erase p, hops' _ (by simp), by simpa [Sys.goto] using hcard'.trans hlast⟩
      quiet := fun _ => by simp [Sys.goto]
      erased := by rintro q c ⟨⟩ (hc | hc) <;> cases hc }⟩
    have hold := hg.committer q c
    by_cases hq : q = p
    · subst hq; simp [Sys.goto]
    · simp only [Sys.goto, update_of_ne hq, hold]
      simp [Ne.symm hq]
  · simp only [hlast, ite_false, Except.ok.injEq, Bool.false_eq_true] at hs
    subst hs
    exact ⟨rfl, _, _, rfl, by simp, rfl, rfl, rfl, .inl { hg with
      committer := hg.committer_goto (by simp [hin]) (by simp)
      committing := rfl
      ops := ⟨ops.erase p, hops' _ (by simp), hcard'⟩
      quiet := fun hsome => by simp at hsome }⟩

-- The end_op of an admitted operation never finds a commit running.
theorem endOp_no_panic (hg : Group s view who) (p : ℕ) :
    s.endOp p ≠ .error (.panic .logCommitting) := by
  unfold Sys.endOp
  split
  · simp
  rename_i hin
  rw [not_not] at hin
  have hcom : s.log.committing = false := by
    rw [hg.committing, hg.who_none_of_inOp hin]
    rfl
  by_cases hlast : s.log.outstanding - 1 = 0 <;> simp [Log.endOp, hcom, hlast]

theorem bget (hg : Group s view who) {blockno : UInt32} (hs : s.bget p blockno = .ok next) :
    ∃ bc refs, next = { s with bc := bc, refs := refs } ∧ Group next view who := by
  unfold Sys.bget at hs
  split at hs
  · cases hs
  rename_i i bc hb
  cases hs
  have hc := (hg.cache.bget blockno.toNat_lt hb).1
  rw [← uses_cons s.refs p i] at hc
  exact ⟨_, _, rfl, { hg with cache := hc }⟩

theorem bread (hg : Group s view who) {i : Fin NBUF} (hs : s.bread p i = .ok next) :
    ∃ bc, next = { s with bc := bc } ∧ Group next view who := by
  unfold Sys.bread at hs
  split at hs
  · cases hs
  rename_i href
  rw [not_not] at href
  split at hs
  · cases hs
  rename_i bc hl
  cases hs
  have huse : 0 < uses s.refs i := by have := (uses_erase href).1; omega
  have hc := (hg.cache.breadLocked ⟨hg.cache.held i huse, rfl⟩ huse hl).1
  exact ⟨_, rfl, { hg with cache := hc }⟩

theorem brelse (hg : Group s view who) {i : Fin NBUF} (hs : s.brelse p i = .ok next) :
    ∃ bc refs, next = { s with bc := bc, refs := refs } ∧ Group next view who := by
  unfold Sys.brelse at hs
  split at hs
  · cases hs
  rename_i href
  rw [not_not] at href
  split at hs
  · cases hs
  rename_i bc hl
  cases hs
  obtain ⟨huse, hupd⟩ := uses_erase href
  have hc := (hg.cache.brelse _ huse hl).1
  rw [hupd] at hc
  exact ⟨_, _, rfl, { hg with cache := hc }⟩

end Group

theorem setData_bpin (c : Bcache) (i : Fin NBUF) (data : Block) :
    (c.setData i data).bpin i = (c.bpin i).setData i data := by
  simp [Bcache.setData, Bcache.bpin, Bcache.update]

theorem logWrite_ok {l next : Log} {blockno : ℕ} {isNew : Bool} (h : l.logWrite blockno = .ok (next, isNew)) :
    l.lh.length < LOGSIZE ∧ l.lh.length < l.size - 1 ∧
    ((blockno ∈ l.lh ∧ next = l ∧ isNew = false) ∨
      (blockno ∉ l.lh ∧ next = { l with lh := l.lh ++ [blockno] } ∧ isNew = true)) := by
  unfold Log.logWrite at h
  split at h
  · cases h
  rename_i hroom
  split at h
  · cases h
  have hlt : l.lh.length < LOGSIZE ∧ l.lh.length < l.size - 1 := by omega
  split at h
  · rename_i hm
    simp only [Except.ok.injEq, Prod.mk.injEq] at h
    exact ⟨hlt.1, hlt.2, .inl ⟨hm, h.1.symm, h.2.symm⟩⟩
  · rename_i hm
    simp only [Except.ok.injEq, Prod.mk.injEq] at h
    exact ⟨hlt.1, hlt.2, .inr ⟨hm, h.1.symm, h.2.symm⟩⟩

namespace Group

variable {s next : Sys} {view : Disk} {who : Option (ℕ × CommitPc)}

theorem logWrite (hg : Group s view who) {p : ℕ} {i : Fin NBUF} {data : Block} (hs : s.logWrite p i data = .ok next) :
    s.pc p = .inOp ∧ who = none ∧
    ∃ bc lh, next = { s with log := { s.log with lh := lh }, bc := bc } ∧
      lh = (if (s.bc.buf i).blockno ∈ s.log.lh then s.log.lh
        else s.log.lh ++ [(s.bc.buf i).blockno]) ∧
      Group next (update view (s.bc.buf i).blockno data) who := by
  unfold Sys.logWrite at hs
  split at hs
  · cases hs
  rename_i hguard
  simp only [not_or, not_not] at hguard
  obtain ⟨hin, hlock, hdev⟩ := hguard
  have hnone := hg.who_none_of_inOp hin
  subst hnone
  have hvalid := (hg.cache.locked i (by simp [hlock])).2
  have hholds : s.bc.Holds i (s.bc.buf i).blockno := ⟨hdev, rfl⟩
  split at hs
  · cases hs
  rename_i log isNew hlog
  cases hs
  obtain ⟨hlt, hroom, ⟨hmem, rfl, rfl⟩ | ⟨hnew, rfl, rfl⟩⟩ := logWrite_ok hlog
  · have hc := hg.cache.setData hholds data s.disk (fun b hb => by
      have hne : b ≠ (s.bc.buf i).blockno := by rintro rfl; exact hb hmem
      rw [update_of_ne hne, hg.cache.disk b hb])
    exact ⟨hin, rfl, _, s.log.lh, rfl, (if_pos hmem).symm, { hg with cache := hc }⟩
  · have hpin := hg.cache.bpin hholds hvalid hnew
    have hholds' : (s.bc.bpin i).Holds i (s.bc.buf i).blockno := by
      simpa [Bcache.Holds, Bcache.bpin] using hdev
    have hc := hpin.setData hholds' data s.disk (fun b hb => by
      have hne : b ≠ (s.bc.buf i).blockno := by rintro rfl; simp at hb
      rw [update_of_ne hne, hpin.disk b hb])
    rw [← setData_bpin] at hc
    refine ⟨hin, rfl, _, s.log.lh ++ [(s.bc.buf i).blockno], rfl, (if_neg hnew).symm, { hg with
      length := ?_
      nodup := ?_
      blocks := fun b hb => ?_
      erased := by simp
      cache := hc }⟩
    · simp only [List.length_append, List.length_singleton]
      omega
    · rw [List.nodup_append]
      refine ⟨hg.nodup, by simp, fun a ha b hb => ?_⟩
      simp only [List.mem_singleton] at hb
      rintro rfl
      exact hnew (hb ▸ ha)
    · rcases List.mem_append.mp hb with hb | hb
      · exact hg.blocks b hb
      · simp only [List.mem_singleton] at hb
        subst hb
        exact hg.cache.word i hdev

end Group

section Copy

variable {s next : Sys} {view : Disk} {use : Fin NBUF → ℕ} {pins : List ℕ}

private theorem uses_two (use : Fin NBUF → ℕ) (i j : Fin NBUF) (hne : j ≠ i) :
    update (update (update (update use i (use i + 1)) j
      (update use i (use i + 1) j + 1)) j (use j)) i (use i) = use := by
  funext k
  by_cases hi : k = i
  · subst hi; simp
  · by_cases hj : k = j
    · subst hj; simp [hi]
    · simp [hi, hj]

-- One iteration of write_log copies what readers see of a block into its log slot.
theorem writeLog_ok {p tail blockno : ℕ} (hc : s.bc.Coherent s.disk view use pins)
    (hslot : s.log.start + tail + 1 < 2 ^ 32) (hb : blockno < 2 ^ 32) (h : s.writeLog p tail blockno = .ok next) :
    ∃ bc, next = { s with
        disk := update s.disk (s.log.start + tail + 1) (view blockno), bc := bc } ∧
      bc.Coherent (update s.disk (s.log.start + tail + 1) (view blockno))
        (update view (s.log.start + tail + 1) (view blockno)) use pins := by
  simp only [Sys.writeLog, Except.bind_eq_ok] at h
  obtain ⟨⟨lbuf, bc1⟩, h1, ⟨src, bc2⟩, h2, disk, h3, bc3, h4, bc4, h5, h6⟩ := h
  obtain ⟨hc1, hold1, _, _, hlk1, _, _⟩ := hc.bread hslot h1
  obtain ⟨hc2, _, _, hd2, _, hn2, hf2⟩ := hc1.bread hb h2
  have hne : src ≠ lbuf := by
    rintro rfl
    simp [hlk1] at hn2
  have hold : bc2.Holds lbuf (s.log.start + tail + 1) := by
    rw [Bcache.Holds, hf2 lbuf hne.symm]
    exact hold1
  obtain ⟨hdisk, hc3⟩ := hc2.setData_bwrite hold h3
  obtain ⟨hc4, _⟩ := hc3.brelse (use src) (by simp [hne]) h4
  obtain ⟨hc5, _⟩ := hc4.brelse (use lbuf) (by simp [hne.symm]) h5
  rw [uses_two use lbuf src hne, hd2] at hc5
  rw [hd2] at hdisk
  simp only [pure, Except.pure, Except.ok.injEq] at h6
  subst hdisk
  exact ⟨bc4, h6.symm, hc5⟩

theorem writeHead_ok {p : ℕ} (hc : s.bc.Coherent s.disk view use pins)
    (hslot : s.log.start < 2 ^ 32) (h : s.writeHead p = .ok next) :
    ∃ bc, next = { s with
        disk := update s.disk s.log.start (putHead (view s.log.start) s.log.lh), bc := bc } ∧
      bc.Coherent (update s.disk s.log.start (putHead (view s.log.start) s.log.lh))
        (update view s.log.start (putHead (view s.log.start) s.log.lh)) use pins := by
  simp only [Sys.writeHead, Except.bind_eq_ok] at h
  obtain ⟨⟨i, bc1⟩, h1, disk, h2, bc2, h3, h4⟩ := h
  obtain ⟨hc1, hold, _, hd1, _, _, _⟩ := hc.bread hslot h1
  obtain ⟨hdisk, hc2⟩ := hc1.setData_bwrite hold h2
  obtain ⟨hc3, _⟩ := hc2.brelse (use i) (by simp) h3
  rw [Function.update_idem, Function.update_eq_self, hd1] at hc3
  rw [hd1] at hdisk
  simp only [pure, Except.pure, Except.ok.injEq] at h4
  subst hdisk
  exact ⟨bc2, h4.symm, hc3⟩

-- One iteration of install_trans copies a log slot home and drops the block's pin.
theorem installTrans_ok {p tail blockno : ℕ} (hc : s.bc.Coherent s.disk view use (blockno :: pins))
    (hslot : s.log.start + tail + 1 < 2 ^ 32) (hb : blockno < 2 ^ 32) (hnew : blockno ∉ pins)
    (h : s.installTrans p tail blockno = .ok next) :
    ∃ bc, next = { s with
        disk := update s.disk blockno (view (s.log.start + tail + 1)), bc := bc } ∧
      bc.Coherent (update s.disk blockno (view (s.log.start + tail + 1)))
        (update view blockno (view (s.log.start + tail + 1))) use pins := by
  simp only [Sys.installTrans, Except.bind_eq_ok] at h
  obtain ⟨⟨lbuf, bc1⟩, h1, ⟨dbuf, bc2⟩, h2, disk, h3, bc3, h4, bc4, h5, h6⟩ := h
  obtain ⟨hc1, _, _, hd1, hlk1, _, _⟩ := hc.bread hslot h1
  obtain ⟨hc2, hold, _, _, _, hn2, hf2⟩ := hc1.bread hb h2
  have hbuf : dbuf ≠ lbuf := by
    rintro rfl
    simp [hlk1] at hn2
  have hdata : (bc2.buf lbuf).data = view (s.log.start + tail + 1) := by
    rw [hf2 lbuf hbuf.symm, hd1]
  obtain ⟨hdisk, hc3⟩ := hc2.setData_bwrite hold h3
  have hhold : (bc2.setData dbuf (bc2.buf lbuf).data).Holds dbuf blockno := by
    simpa [Bcache.Holds, Bcache.setData] using hold
  have hc3' := hc3.bunpin hhold hnew (by rw [hdisk]; simp)
  obtain ⟨hc4, _⟩ := hc3'.brelse (use lbuf) (by simp [hbuf.symm]) h4
  obtain ⟨hc5, _⟩ := hc4.brelse (use dbuf) (by simp [hbuf]) h5
  rw [Function.update_comm hbuf.symm, uses_two use lbuf dbuf hbuf, hdata] at hc5
  rw [hdata] at hdisk
  simp only [pure, Except.pure, Except.ok.injEq] at h6
  subst hdisk
  exact ⟨bc4, h6.symm, hc5⟩

end Copy

end Xv6.Log
