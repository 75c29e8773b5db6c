import Xv6.Log.Group

namespace Xv6.Log

open Function (update update_of_ne)

inductive CommitCase (s : Sys) (p : ℕ) : Sys → Prop
  | start (hpc : s.pc p = .commit .start) (hlh : 0 < s.log.lh.length) :
      CommitCase s p (s.goto p (.commit (.writeLog 0)))
  | skip (hpc : s.pc p = .commit .start) (hlh : s.log.lh = []) :
      CommitCase s p (s.goto p (.commit .done))
  | writeLog {mid : Sys} {tail blockno : ℕ} (hpc : s.pc p = .commit (.writeLog tail))
      (hb : s.log.lh[tail]? = some blockno) (hs : s.writeLog p tail blockno = .ok mid) :
      CommitCase s p (mid.goto p (.commit (.writeLog (tail + 1))))
  | writeLogEnd {tail : ℕ} (hpc : s.pc p = .commit (.writeLog tail))
      (hb : s.log.lh[tail]? = none) : CommitCase s p (s.goto p (.commit .writeHead))
  | writeHead {mid : Sys} (hpc : s.pc p = .commit .writeHead) (hs : s.writeHead p = .ok mid) :
      CommitCase s p (mid.goto p (.commit (.installTrans 0)))
  | installTrans {mid : Sys} {tail blockno : ℕ} (hpc : s.pc p = .commit (.installTrans tail))
      (hb : s.log.lh[tail]? = some blockno) (hs : s.installTrans p tail blockno = .ok mid) :
      CommitCase s p (mid.goto p (.commit (.installTrans (tail + 1))))
  | installTransEnd {tail : ℕ} (hpc : s.pc p = .commit (.installTrans tail))
      (hb : s.log.lh[tail]? = none) : CommitCase s p (s.goto p (.commit .clear))
  | clear (hpc : s.pc p = .commit .clear) :
      CommitCase s p ({ s with log := { s.log with lh := [] } }.goto p (.commit .eraseHead))
  | eraseHead {mid : Sys} (hpc : s.pc p = .commit .eraseHead) (hs : s.writeHead p = .ok mid) :
      CommitCase s p (mid.goto p (.commit .done))
  | done (hpc : s.pc p = .commit .done) :
      CommitCase s p ({ s with log := s.log.endCommit }.goto p .idle)

private theorem goto_ok {x : Except Stop Sys} {p : ℕ} {pc : Pc} {next : Sys}
    (h : (do let s ← x; return s.goto p pc) = .ok next) :
    ∃ mid, x = .ok mid ∧ next = mid.goto p pc := by
  simp only [Except.bind_eq_ok, pure, Except.pure, Except.ok.injEq] at h
  obtain ⟨mid, hmid, hs⟩ := h
  exact ⟨mid, hmid, hs.symm⟩

theorem commit_cases {s next : Sys} {p : ℕ} (hs : s.commit p = .ok next) :
    CommitCase s p next := by
  unfold Sys.commit at hs
  split at hs
  all_goals rename_i hpc
  · simp only [Except.ok.injEq] at hs
    by_cases hlh : s.log.lh.length > 0
    · simp only [hlh, ite_true] at hs
      exact hs ▸ .start hpc hlh
    · simp only [hlh, ite_false] at hs
      exact hs ▸ .skip hpc (List.length_eq_zero_iff.mp (by omega))
  · split at hs
    · rename_i hb
      obtain ⟨mid, hmid, rfl⟩ := goto_ok hs
      exact .writeLog hpc hb hmid
    · rename_i hb
      simp only [Except.ok.injEq] at hs
      exact hs ▸ .writeLogEnd hpc hb
  · obtain ⟨mid, hmid, rfl⟩ := goto_ok hs
    exact .writeHead hpc hmid
  · split at hs
    · rename_i hb
      obtain ⟨mid, hmid, rfl⟩ := goto_ok hs
      exact .installTrans hpc hb hmid
    · rename_i hb
      simp only [Except.ok.injEq] at hs
      exact hs ▸ .installTransEnd hpc hb
  · simp only [Except.ok.injEq] at hs
    exact hs ▸ .clear hpc
  · obtain ⟨mid, hmid, rfl⟩ := goto_ok hs
    exact .eraseHead hpc hmid
  · simp only [Except.ok.injEq] at hs
    exact hs ▸ .done hpc
  · cases hs

namespace Group

variable {s next : Sys} {view : Disk} {p : ℕ} {c : CommitPc}

variable {tail : ℕ} {who : Option (ℕ × CommitPc)}

theorem committer_move (hg : Group s view (some (p, c))) (c' : CommitPc) (q : ℕ) (d : CommitPc) :
    update s.pc p (.commit c') q = .commit d ↔ some (p, c') = some (q, d) := by
  by_cases hq : q = p
  · subst hq; simp
  · rw [update_of_ne hq, hg.committer q d]
    simp [Ne.symm hq]

theorem ops_move (hg : Group s view (some (p, c))) {pc : Pc} (hpc : pc ≠ .inOp) :
    ∃ ops : Finset ℕ, (∀ q, q ∈ ops ↔ update s.pc p pc q = .inOp) ∧
      ops.card = s.log.outstanding := by
  obtain ⟨ops, hops, hcard⟩ := hg.ops
  refine ⟨ops, fun q => ?_, hcard⟩
  by_cases hq : q = p
  · subst hq
    simp [hops q, (hg.committer q c).mpr rfl, hpc]
  · rw [update_of_ne hq, hops q]

-- The committer goes on, with the disk and the cache changed or not.
theorem move (hg : Group s view (some (p, c))) (c' : CommitPc) {disk view' : Disk} {bc : Bcache}
    (hc : bc.Coherent disk view' (uses s.refs) (pinned s.log.lh (some c')))
    (hlh : c' = .eraseHead ∨ c' = .done → s.log.lh = []) :
    Group ({ s with disk := disk, bc := bc }.goto p (.commit c')) view' (some (p, c')) :=
  { hg with
    committer := hg.committer_move c'
    ops := hg.ops_move (by simp)
    erased := by rintro q d ⟨⟩; exact hlh
    cache := hc }

theorem slot_lt (hg : Group s view who) {i b : ℕ} (hb : s.log.lh[i]? = some b) :
    i + 1 < s.log.size := by
  obtain ⟨hlt, _⟩ := List.getElem?_eq_some_iff.mp hb
  have hl := hg.length.1
  omega

theorem slot_word (hg : Group s view who) {i b : ℕ} (hb : s.log.lh[i]? = some b) :
    s.log.start + i + 1 < 2 ^ 32 := by
  have hs := hg.slot_lt hb
  have hw := hg.word.2
  omega

theorem commit_start (hg : Group s view (some (p, .start))) :
    Group (s.goto p (.commit (.writeLog 0))) view (some (p, .writeLog 0)) :=
  hg.move _ hg.cache (by simp)

theorem commit_skip (hg : Group s view (some (p, .start))) (hlh : s.log.lh = []) :
    Group (s.goto p (.commit .done)) view (some (p, .done)) := by
  have hc := hg.cache
  simp only [Option.map_some, pinned, hlh] at hc
  exact hg.move .done hc (fun _ => hlh)

theorem commit_writeLog {blockno : ℕ} (hg : Group s view (some (p, .writeLog tail)))
    (hb : s.log.lh[tail]? = some blockno) (hs : s.writeLog p tail blockno = .ok next) :
    ∃ bc, next = { s with
        disk := update s.disk (s.log.start + tail + 1) (view blockno), bc := bc } ∧
      Group (next.goto p (.commit (.writeLog (tail + 1))))
        (update view (s.log.start + tail + 1) (view blockno))
        (some (p, .writeLog (tail + 1))) := by
  obtain ⟨bc, rfl, hc⟩ :=
    writeLog_ok hg.cache (hg.slot_word hb) (hg.blocks blockno (List.mem_of_getElem? hb)) hs
  exact ⟨bc, rfl, hg.move _ hc (by simp)⟩

theorem commit_writeLog_end (hg : Group s view (some (p, .writeLog tail))) :
    Group (s.goto p (.commit .writeHead)) view (some (p, .writeHead)) :=
  hg.move _ hg.cache (by simp)

-- Both write_heads; neither touches a pin.
theorem commit_writeHead (hg : Group s view (some (p, c))) (c' : CommitPc)
    (hpins : pinned s.log.lh (some c') = pinned s.log.lh (some c))
    (hlh : c' = .eraseHead ∨ c' = .done → s.log.lh = []) (hs : s.writeHead p = .ok next) :
    ∃ bc, next = { s with
        disk := update s.disk s.log.start (putHead (view s.log.start) s.log.lh)
        bc := bc } ∧
      Group (next.goto p (.commit c'))
        (update view s.log.start (putHead (view s.log.start) s.log.lh))
        (some (p, c')) := by
  obtain ⟨bc, rfl, hc⟩ := writeHead_ok hg.cache hg.word.1 hs
  exact ⟨bc, rfl, hg.move c' (hpins.symm ▸ hc) hlh⟩

theorem commit_installTrans {blockno : ℕ} (hg : Group s view (some (p, .installTrans tail)))
    (hb : s.log.lh[tail]? = some blockno) (hs : s.installTrans p tail blockno = .ok next) :
    ∃ bc, next = { s with
        disk := update s.disk blockno (view (s.log.start + tail + 1)), bc := bc } ∧
      Group (next.goto p (.commit (.installTrans (tail + 1))))
        (update view blockno (view (s.log.start + tail + 1)))
        (some (p, .installTrans (tail + 1))) := by
  obtain ⟨hlt, hget⟩ := List.getElem?_eq_some_iff.mp hb
  have hdrop : s.log.lh.drop tail = blockno :: s.log.lh.drop (tail + 1) := by
    rw [List.drop_eq_getElem_cons hlt, hget]
  have hcache := hg.cache
  simp only [Option.map_some, pinned, hdrop] at hcache
  have hnodup := hg.nodup.sublist (List.drop_sublist tail s.log.lh)
  rw [hdrop, List.nodup_cons] at hnodup
  obtain ⟨bc, rfl, hc⟩ := installTrans_ok hcache (hg.slot_word hb)
    (hg.blocks blockno (List.mem_of_getElem? hb)) hnodup.1 hs
  exact ⟨bc, rfl, hg.move (.installTrans (tail + 1)) hc (by simp)⟩

theorem commit_installTrans_end (hg : Group s view (some (p, .installTrans tail))) (hb : s.log.lh[tail]? = none) :
    Group (s.goto p (.commit .clear)) view (some (p, .clear)) := by
  have hc := hg.cache
  simp only [Option.map_some, pinned, List.drop_eq_nil_of_le (List.getElem?_eq_none_iff.mp hb)] at hc
  exact hg.move .clear hc (by simp)

theorem commit_clear (hg : Group s view (some (p, .clear))) :
    Group ({ s with log := { s.log with lh := [] } }.goto p (.commit .eraseHead)) view
      (some (p, .eraseHead)) :=
  { hg with
    committer := hg.committer_move .eraseHead
    ops := hg.ops_move (by simp)
    length := ⟨Nat.zero_le _, Nat.zero_le _⟩
    nodup := List.nodup_nil
    blocks := fun b hb => by simp [Sys.goto] at hb
    erased := fun _ _ _ _ => rfl }

theorem commit_done (hg : Group s view (some (p, .done))) :
    Group ({ s with log := s.log.endCommit }.goto p .idle) view none := by
  have hpins : pinned s.log.lh none = [] := hg.erased p .done rfl (.inr rfl)
  refine { hg with
    committer := fun q c => ?_
    committing := rfl
    ops := hg.ops_move (by simp)
    quiet := by simp
    erased := by simp
    cache := hpins.symm ▸ hg.cache }
  by_cases hq : q = p
  · subst hq; simp [Sys.goto]
  · simp only [Sys.goto, update_of_ne hq, hg.committer q c]
    simp [Ne.symm hq]

theorem commit (hg : Group s view who) (hs : s.commit p = .ok next) :
    ∃ view' who', Group next view' who' := by
  cases commit_cases hs with
  | start hpc _ =>
      rw [(hg.committer p _).mp hpc] at hg
      exact ⟨_, _, hg.commit_start⟩
  | skip hpc hlh =>
      rw [(hg.committer p _).mp hpc] at hg
      exact ⟨_, _, hg.commit_skip hlh⟩
  | writeLog hpc hb hmid =>
      rw [(hg.committer p _).mp hpc] at hg
      obtain ⟨_, _, hnext⟩ := hg.commit_writeLog hb hmid
      exact ⟨_, _, hnext⟩
  | writeLogEnd hpc _ =>
      rw [(hg.committer p _).mp hpc] at hg
      exact ⟨_, _, hg.commit_writeLog_end⟩
  | writeHead hpc hmid =>
      rw [(hg.committer p _).mp hpc] at hg
      obtain ⟨_, _, hnext⟩ := hg.commit_writeHead (.installTrans 0) rfl (by simp) hmid
      exact ⟨_, _, hnext⟩
  | installTrans hpc hb hmid =>
      rw [(hg.committer p _).mp hpc] at hg
      obtain ⟨_, _, hnext⟩ := hg.commit_installTrans hb hmid
      exact ⟨_, _, hnext⟩
  | installTransEnd hpc hb =>
      rw [(hg.committer p _).mp hpc] at hg
      exact ⟨_, _, hg.commit_installTrans_end hb⟩
  | clear hpc =>
      rw [(hg.committer p _).mp hpc] at hg
      exact ⟨_, _, hg.commit_clear⟩
  | eraseHead hpc hmid =>
      rw [(hg.committer p _).mp hpc] at hg
      have hlh := hg.erased p .eraseHead rfl (.inl rfl)
      obtain ⟨_, _, hnext⟩ := hg.commit_writeHead .done rfl (fun _ => hlh) hmid
      exact ⟨_, _, hnext⟩
  | done hpc =>
      rw [(hg.committer p _).mp hpc] at hg
      exact ⟨_, _, hg.commit_done⟩

theorem step (hg : Group s view who) {e : Event} (hs : s.step e = .ok next) : ∃ view' who', Group next view' who' := by
  cases e with
  | beginOp p =>
      obtain ⟨_, _, _, _, _, _, hnext⟩ := hg.beginOp hs
      exact ⟨_, _, hnext⟩
  | endOp p =>
      obtain ⟨_, _, _, _, _, _, _, _, hnext | hnext⟩ := hg.endOp hs <;> exact ⟨_, _, hnext⟩
  | bget p blockno =>
      obtain ⟨_, _, _, hnext⟩ := hg.bget hs
      exact ⟨_, _, hnext⟩
  | bread p i =>
      obtain ⟨_, _, hnext⟩ := hg.bread hs
      exact ⟨_, _, hnext⟩
  | brelse p i =>
      obtain ⟨_, _, _, hnext⟩ := hg.brelse hs
      exact ⟨_, _, hnext⟩
  | logWrite p i data =>
      obtain ⟨_, _, _, _, _, _, hnext⟩ := hg.logWrite hs
      exact ⟨_, _, hnext⟩
  | commit p => exact hg.commit hs

-- What a step of commit leaves alone; it writes at most one block.
theorem commit_frame (hg : Group s view who) (hs : s.commit p = .ok next) :
    (∃ c pc, s.pc p = .commit c ∧ pc ≠ .inOp ∧ next.pc = update s.pc p pc) ∧
    (next.log.lh = s.log.lh ∨ next.log.lh = []) ∧
    next.log.start = s.log.start ∧ next.log.size = s.log.size ∧
    (next.disk = s.disk ∨ ∃ b data, next.disk = update s.disk b data) := by
  cases commit_cases hs with
  | writeLog hpc hb hmid =>
      rw [(hg.committer p _).mp hpc] at hg
      obtain ⟨bc, rfl, _⟩ := hg.commit_writeLog hb hmid
      exact ⟨⟨_, _, hpc, by simp, rfl⟩, .inl rfl, rfl, rfl, .inr ⟨_, _, rfl⟩⟩
  | writeHead hpc hmid =>
      rw [(hg.committer p _).mp hpc] at hg
      obtain ⟨bc, rfl, _⟩ := hg.commit_writeHead (.installTrans 0) rfl (by simp) hmid
      exact ⟨⟨_, _, hpc, by simp, rfl⟩, .inl rfl, rfl, rfl, .inr ⟨_, _, rfl⟩⟩
  | installTrans hpc hb hmid =>
      rw [(hg.committer p _).mp hpc] at hg
      obtain ⟨bc, rfl, _⟩ := hg.commit_installTrans hb hmid
      exact ⟨⟨_, _, hpc, by simp, rfl⟩, .inl rfl, rfl, rfl, .inr ⟨_, _, rfl⟩⟩
  | eraseHead hpc hmid =>
      rw [(hg.committer p _).mp hpc] at hg
      have hlh := hg.erased p .eraseHead rfl (.inl rfl)
      obtain ⟨bc, rfl, _⟩ := hg.commit_writeHead .done rfl (fun _ => hlh) hmid
      exact ⟨⟨_, _, hpc, by simp, rfl⟩, .inl rfl, rfl, rfl, .inr ⟨_, _, rfl⟩⟩
  | clear hpc => exact ⟨⟨_, _, hpc, by simp, rfl⟩, .inr rfl, rfl, rfl, .inl rfl⟩
  | start hpc | skip hpc | writeLogEnd hpc | installTransEnd hpc | done hpc =>
      exact ⟨⟨_, _, hpc, by simp, rfl⟩, .inl rfl, rfl, rfl, .inl rfl⟩

-- No step moves the log area, and none writes more than one block, so a crash
-- between two steps is a crash between two block writes.
theorem step_frame (hg : Group s view who) {e : Event} (hs : s.step e = .ok next) :
    next.log.start = s.log.start ∧ next.log.size = s.log.size ∧
      (next.disk = s.disk ∨ ∃ b data, next.disk = update s.disk b data) := by
  cases e with
  | beginOp p =>
      obtain ⟨_, log, rfl, _, hstart, hsize, _⟩ := hg.beginOp hs
      exact ⟨hstart, hsize, .inl rfl⟩
  | endOp p =>
      obtain ⟨_, log, pc, rfl, _, _, hstart, hsize, _⟩ := hg.endOp hs
      exact ⟨hstart, hsize, .inl rfl⟩
  | bget p blockno =>
      obtain ⟨bc, refs, rfl, _⟩ := hg.bget hs
      exact ⟨rfl, rfl, .inl rfl⟩
  | bread p i =>
      obtain ⟨bc, rfl, _⟩ := hg.bread hs
      exact ⟨rfl, rfl, .inl rfl⟩
  | brelse p i =>
      obtain ⟨bc, refs, rfl, _⟩ := hg.brelse hs
      exact ⟨rfl, rfl, .inl rfl⟩
  | logWrite p i data =>
      obtain ⟨_, _, bc, lh, rfl, _⟩ := hg.logWrite hs
      exact ⟨rfl, rfl, .inl rfl⟩
  | commit p => exact (hg.commit_frame hs).2.2

end Group

end Xv6.Log
