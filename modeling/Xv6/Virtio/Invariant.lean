import Xv6.Virtio.Chains

namespace Xv6

namespace Virtio

open VirtioDisk
open Function (update update_of_ne update_self)

variable {b p : ℕ}

-- The heads that the device has not fetched yet, and those that the handler has not
-- looked at.
def queue (s : Virtio) : List ℕ := Ring.contents NUM s.disk.availRing s.fetched s.disk.availIdx

def usedQueue (s : Virtio) : List ℕ := Ring.contents NUM s.disk.usedRing s.disk.usedIdx s.disk.usedEnd

-- The calls in progress are the active requests, and each caller has its buffer locked.
structure Calls (s : Virtio) : Prop where
  wait : ∀ p r, s.pc p = .wait r ↔ r ∈ s.active ∧ r.p = p
  alloc : ∀ p b blockno write, s.pc p = .alloc b blockno write → s.lock b = some p
  lock : ∀ r ∈ s.active, s.lock r.b = some r.p

-- Every request whose b->disk is set is at one stage: available, fetched, stored in the used
-- ring, or published there.
structure Flow (s : Virtio) : Prop where
  stages : (s.queue ++ (s.working ++ (s.written.toList ++ s.usedQueue))).Perm
    ((s.active.filter fun r => s.busy r.b).map VirtioReq.idx0)
  slot : ∀ head, s.written = some head → s.disk.usedRing (s.disk.usedEnd.toNat % NUM) = head
  status : ∀ r ∈ s.active, r.idx0 ∈ s.written.toList ++ s.usedQueue → (s.disk.info r.idx0).status = 0
  numbered : ∀ r ∈ s.active, s.issued r.idx0 = r.serial ∧ r.serial < s.serial
  serials : ∀ r ∈ s.active, ∀ r' ∈ s.active, r.serial = r'.serial → r = r'
  completed : s.completed = s.consumed ++ s.usedQueue.map s.issued
  once : s.completed.Nodup
  old : ∀ q ∈ s.completed, q < s.serial
  pending : ∀ r ∈ s.active, r.idx0 ∈ s.queue ++ (s.working ++ s.written.toList) → r.serial ∉ s.completed
  done : ∀ r ∈ s.active, s.busy r.b = false → r.serial ∈ s.consumed
  returned : ∀ q ∈ s.returned, q ∈ s.consumed

structure Inv (s : Virtio) : Prop where
  chains : s.disk.Chains s.active
  calls : s.Calls
  flow : s.Flow

variable {s : Virtio} {r r' : VirtioReq}

theorem Inv.start : Virtio.start.Inv := by
  refine ⟨⟨by simp [Virtio.start], by simp [Virtio.start], by simp [Virtio.start, VirtioDisk.init],
    by simp [Virtio.start]⟩,
    ⟨by simp [Virtio.start], by simp [Virtio.start], by simp [Virtio.start]⟩, ?_⟩
  constructor <;> simp [Virtio.start, queue, usedQueue, VirtioDisk.init, Ring.contents_self]

theorem Calls.buf_inj (h : s.Calls) (hr : r ∈ s.active) (hr' : r' ∈ s.active) (heq : r.b = r'.b) : r = r' := by
  have hlock := h.lock r hr
  rw [heq, h.lock r' hr', Option.some.injEq] at hlock
  have hpc := (h.wait r.p r).mpr ⟨hr, rfl⟩
  rw [(h.wait r.p r').mpr ⟨hr', hlock⟩] at hpc
  cases hpc
  rfl

theorem Flow.head (h : s.Flow) (head : ℕ) (hmem : head ∈ s.queue ++ (s.working ++ (s.written.toList ++ s.usedQueue))) :
    ∃ r ∈ s.active, s.busy r.b = true ∧ r.idx0 = head := by
  obtain ⟨r, hr, hhead⟩ := List.mem_map.mp (h.stages.subset hmem)
  rw [List.mem_filter] at hr
  exact ⟨r, hr.1, hr.2, hhead⟩

theorem Inv.stages_nodup (h : s.Inv) : (s.queue ++ (s.working ++ (s.written.toList ++ s.usedQueue))).Nodup := by
  rw [h.flow.stages.nodup_iff]
  refine List.Nodup.map_on (fun r hr r' hr' heq => ?_) (h.chains.list_nodup.filter _)
  exact h.chains.head_inj (List.mem_filter.mp hr).1 (List.mem_filter.mp hr').1 heq

theorem Inv.stages_length (h : s.Inv) :
    s.queue.length + (s.working.length + (s.written.toList.length + s.usedQueue.length)) < NUM := by
  have hlen := h.flow.stages.length_eq
  have hfilter := List.length_filter_le (fun r => s.busy r.b) s.active
  have hactive := h.chains.length_le
  rw [List.length_append, List.length_append, List.length_append, List.length_map] at hlen
  unfold NUM at hactive ⊢
  omega

theorem queue_length (s : Virtio) : s.queue.length = (s.disk.availIdx - s.fetched).toNat := by
  simp [queue, Ring.contents]

theorem usedQueue_length (s : Virtio) : s.usedQueue.length = (s.disk.usedEnd - s.disk.usedIdx).toNat := by
  simp [usedQueue, Ring.contents]

-- The flow of requests does not depend on these.
theorem Flow.same (h : s.Flow) (desc : ℕ → VirtqDesc) (free : ℕ → Bool) (lock : ℕ → Option ℕ) (pc : ℕ → VirtioPc)
    (intr : Bool) :
    Flow { s with disk := { s.disk with desc := desc, free := free }, lock := lock, pc := pc, intr := intr } :=
  ⟨h.stages, h.slot, h.status, h.numbered, h.serials, h.completed, h.once, h.old, h.pending, h.done, h.returned⟩

theorem Inv.setLock (h : s.Inv) (holder : Option ℕ) (halloc : ∀ q n w, s.pc q ≠ .alloc b n w)
    (hactive : ∀ r ∈ s.active, r.b ≠ b) : Inv { s with lock := update s.lock b holder } := by
  refine ⟨h.chains, ⟨h.calls.wait, fun q c n w hq => ?_, fun r hr => ?_⟩,
    h.flow.same s.disk.desc s.disk.free _ s.pc s.intr⟩
  · have hne : c ≠ b := by
      rintro rfl
      exact halloc q n w hq
    exact (update_of_ne hne ..).trans (h.calls.alloc q c n w hq)
  · exact (update_of_ne (hactive r hr) ..).trans (h.calls.lock r hr)

theorem Inv.acquiresleep (h : s.Inv) (hfree : s.lock b = none) :
    Inv { s with lock := update s.lock b (some p) } := by
  refine h.setLock (some p) (fun q n w hq => ?_) fun r hr hb => ?_
  · have hlock := h.calls.alloc q b n w hq
    rw [hfree] at hlock
    cases hlock
  · have hlock := h.calls.lock r hr
    rw [hb, hfree] at hlock
    cases hlock

theorem Inv.releasesleep (h : s.Inv) (hheld : s.lock b = some p) (hidle : s.pc p = .idle) :
    Inv { s with lock := update s.lock b none } := by
  refine h.setLock none (fun q n w hq => ?_) fun r hr hb => ?_
  · have hlock := h.calls.alloc q b n w hq
    rw [hheld, Option.some.injEq] at hlock
    rw [← hlock, hidle] at hq
    cases hq
  · have hlock := h.calls.lock r hr
    rw [hb, hheld, Option.some.injEq] at hlock
    have hpc := (h.calls.wait p r).mpr ⟨hr, hlock.symm⟩
    rw [hidle] at hpc
    cases hpc

theorem Inv.sleepAlloc (h : s.Inv) {disk : VirtioDisk} (htook : Took s.disk [] disk) {blockno : ℕ} {write : Bool}
    (hlock : s.lock b = some p) (hp : ∀ r, s.pc p ≠ .wait r) :
    Inv { s with disk := disk, pc := update s.pc p (.alloc b blockno write) } := by
  refine ⟨h.chains.took_nil htook, ⟨fun q r => ?_, fun q c n w hq => ?_, h.calls.lock⟩, ?_⟩
  · by_cases hq : q = p
    · simp only [hq, update_self]
      constructor
      · intro hpc
        cases hpc
      · exact fun hr => absurd ((h.calls.wait p r).mpr hr) (hp r)
    · simp only [update_of_ne hq]
      exact h.calls.wait q r
  · by_cases hqp : q = p
    · simp only [hqp, update_self] at hq ⊢
      cases hq
      exact hlock
    · simp only [update_of_ne hqp] at hq
      exact h.calls.alloc q c n w hq
  · rw [htook.same]
    exact h.flow.same ..

def submitted (s : Virtio) (disk : VirtioDisk) (r : VirtioReq) : Virtio :=
  { s with
    disk := disk.format r
    busy := update s.busy r.b true
    pc := update s.pc r.p (.wait r)
    active := r :: s.active
    serial := s.serial + 1
    issued := update s.issued r.idx0 s.serial }

section Submit

variable {disk : VirtioDisk} (h : s.Inv) (htook : Took s.disk r.idx disk)

include h htook

theorem Inv.head_ne (hr' : r' ∈ s.active) : r'.idx0 ≠ r.idx0 := by
  intro heq
  have hfree := (htook.was r.idx0 (by simp [VirtioReq.idx])).2
  rw [← heq, h.chains.not_free hr' (by simp [VirtioReq.idx])] at hfree
  cases hfree

theorem Inv.queue_submitted : (s.submitted disk r).queue = s.queue ++ [r.idx0] := by
  have hroom : (s.disk.availIdx - s.fetched).toNat < NUM := by
    have hlen := h.stages_length
    rw [queue_length] at hlen
    omega
  have hidx : disk.availIdx = s.disk.availIdx := by rw [htook.same]
  have hring : disk.availRing = s.disk.availRing := by rw [htook.same]
  unfold queue submitted VirtioDisk.format
  simp only [hidx, hring]
  exact Ring.contents_push (by decide) hroom (by decide) _ _

omit h in
theorem usedQueue_submitted : (s.submitted disk r).usedQueue = s.usedQueue := by
  unfold usedQueue submitted VirtioDisk.format
  rw [htook.same]

theorem Inv.issued_submitted : s.usedQueue.map (s.submitted disk r).issued = s.usedQueue.map s.issued := by
  refine List.map_congr_left fun head hhead => ?_
  obtain ⟨r', hr', -, rfl⟩ := h.flow.head head (by simp [hhead])
  exact update_of_ne (h.head_ne htook hr') ..

variable (hlock : s.lock r.b = some r.p) (hp : ∀ r', s.pc r.p ≠ .wait r')

include hlock hp

omit htook in
theorem Inv.buf_ne (hr' : r' ∈ s.active) : r'.b ≠ r.b := by
  intro heq
  have hlock' := h.calls.lock r' hr'
  rw [heq, hlock, Option.some.injEq] at hlock'
  exact hp r' ((h.calls.wait r.p r').mpr ⟨hr', hlock'.symm⟩)

omit htook in
theorem Inv.filter_submitted :
    (s.submitted disk r).active.filter (fun r' => (s.submitted disk r).busy r'.b) =
      r :: s.active.filter fun r' => s.busy r'.b := by
  have hself : (s.submitted disk r).busy r.b = true := update_self ..
  have hrest : ∀ r' ∈ s.active, (s.submitted disk r).busy r'.b = s.busy r'.b := fun r' hr' =>
    update_of_ne (h.buf_ne hlock hp hr') ..
  change (r :: s.active).filter _ = _
  simp only [List.filter_cons, hself, if_true]
  exact congrArg (r :: ·) (List.filter_congr hrest)

theorem Inv.flow_submitted (hserial : r.serial = s.serial) : (s.submitted disk r).Flow := by
  have hqueue := h.queue_submitted htook
  have hused := usedQueue_submitted (s := s) htook
  have hinfo : disk.info = s.disk.info := by rw [htook.same]
  have hring : disk.usedRing = s.disk.usedRing := by rw [htook.same]
  have hend : disk.usedEnd = s.disk.usedEnd := by rw [htook.same]
  have hnotin : ∀ head ∈ s.queue ++ (s.working ++ (s.written.toList ++ s.usedQueue)), head ≠ r.idx0 := by
    intro head hhead
    obtain ⟨r', hr', -, rfl⟩ := h.flow.head _ hhead
    exact h.head_ne htook hr'
  refine ⟨?_, ?_, ?_, ?_, ?_, ?_, h.flow.once, ?_, ?_, ?_, h.flow.returned⟩
  · rw [hqueue, hused, h.filter_submitted hlock hp, List.map_cons, List.append_assoc]
    exact List.perm_middle.trans (h.flow.stages.cons r.idx0)
  · intro head hhead
    change disk.usedRing (disk.usedEnd.toNat % NUM) = head
    rw [hring, hend]
    exact h.flow.slot head hhead
  · intro r' hr' hmem
    rw [hused] at hmem
    have hmem' : r'.idx0 ∈ s.written.toList ++ s.usedQueue := hmem
    have hne := hnotin r'.idx0 (by simp only [List.mem_append] at hmem' ⊢; tauto)
    rcases List.mem_cons.mp hr' with rfl | hr'
    · exact absurd rfl hne
    · change (update disk.info r.idx0 _ r'.idx0).status = 0
      rw [update_of_ne hne, hinfo]
      exact h.flow.status r' hr' hmem'
  · intro r' hr'
    rcases List.mem_cons.mp hr' with rfl | hr'
    · exact ⟨(update_self ..).trans hserial.symm, hserial ▸ Nat.lt_succ_self _⟩
    · obtain ⟨hissued, hlt⟩ := h.flow.numbered r' hr'
      exact ⟨(update_of_ne (h.head_ne htook hr') ..).trans hissued, Nat.lt_succ_of_lt hlt⟩
  · intro a ha b hb heq
    rcases List.mem_cons.mp ha with rfl | haold <;> rcases List.mem_cons.mp hb with rfl | hbold
    · rfl
    · have hlt := (h.flow.numbered b hbold).2
      omega
    · have hlt := (h.flow.numbered a haold).2
      omega
    · exact h.flow.serials a haold b hbold heq
  · rw [hused]
    exact h.flow.completed.trans (congrArg _ (h.issued_submitted htook).symm)
  · exact fun q hq => Nat.lt_succ_of_lt (h.flow.old q hq)
  · intro r' hr' hmem hdone
    rcases List.mem_cons.mp hr' with rfl | hr'
    · have hlt := h.flow.old _ hdone
      omega
    · have hne := h.head_ne htook hr'
      rw [hqueue] at hmem
      refine h.flow.pending r' hr' ?_ hdone
      have hmem' : r'.idx0 ∈ s.queue ++ [r.idx0] ++ (s.working ++ s.written.toList) := hmem
      simp only [List.mem_append, List.mem_singleton] at hmem' ⊢
      tauto
  · intro r' hr' hbusy
    rcases List.mem_cons.mp hr' with rfl | hr'
    · have hself : (s.submitted disk r').busy r'.b = true := update_self ..
      rw [hself] at hbusy
      cases hbusy
    · have hold : (s.submitted disk r).busy r'.b = s.busy r'.b := update_of_ne (h.buf_ne hlock hp hr') ..
      rw [hold] at hbusy
      exact h.flow.done r' hr' hbusy

theorem Inv.submit (hserial : r.serial = s.serial) : (s.submitted disk r).Inv := by
  refine ⟨h.chains.format_cons htook, ⟨fun q r' => ?_, fun q c n w hq => ?_, fun r' hr' => ?_⟩,
    h.flow_submitted htook hlock hp hserial⟩
  · change update s.pc r.p (.wait r) q = .wait r' ↔ r' ∈ r :: s.active ∧ r'.p = q
    by_cases hq : q = r.p
    · rw [hq, update_self]
      constructor
      · intro hpc
        cases hpc
        exact ⟨List.mem_cons_self, rfl⟩
      · rintro ⟨hmem, hpr⟩
        rcases List.mem_cons.mp hmem with rfl | hmem
        · rfl
        · exact absurd ((h.calls.wait r.p r').mpr ⟨hmem, hpr⟩) (hp r')
    · rw [update_of_ne hq, h.calls.wait q r', List.mem_cons]
      constructor
      · exact fun hr' => ⟨.inr hr'.1, hr'.2⟩
      · rintro ⟨rfl | hmem, hpr⟩
        · exact absurd hpr.symm hq
        · exact ⟨hmem, hpr⟩
  · change update s.pc r.p (.wait r) q = .alloc c n w at hq
    by_cases hqp : q = r.p
    · rw [hqp, update_self] at hq
      cases hq
    · rw [update_of_ne hqp] at hq
      exact h.calls.alloc q c n w hq
  · rcases List.mem_cons.mp hr' with rfl | hr'
    · exact hlock
    · exact h.calls.lock r' hr'

end Submit

theorem Inv.rw (h : s.Inv) {blockno : ℕ} {write : Bool} (hlock : s.lock b = some p) (hp : ∀ r, s.pc p ≠ .wait r) :
    ∃ t, s.rw p b blockno write = .ok t ∧ t.Inv := by
  unfold Virtio.rw alloc3Desc
  rcases (Took.refl s.disk).allocLoop 3 with ⟨got, disk, heq, hlen, htook⟩ | ⟨disk, heq, htook⟩
  · obtain ⟨idx0, idx1, idx2, rfl⟩ := List.length_eq_three.mp hlen
    rw [heq]
    exact ⟨_, rfl, h.submit (r := ⟨p, b, blockno, write, idx0, idx1, idx2, s.serial⟩) htook hlock hp rfl⟩
  · rw [heq]
    exact ⟨_, rfl, h.sleepAlloc htook hlock hp⟩

-- virtio_disk_rw gives its descriptors back and returns.
theorem Inv.finish (h : s.Inv) (hpc : s.pc p = .wait r) : ∃ t, s.finish p r = .ok t ∧ t.Inv := by
  obtain ⟨hr, hpr⟩ := (h.calls.wait p r).mp hpc
  unfold Virtio.finish
  by_cases hbusy : s.busy r.b = true
  · rw [if_pos hbusy]
    exact ⟨s, rfl, h⟩
  rw [if_neg hbusy]
  rw [Bool.not_eq_true] at hbusy
  simp only [h.chains.freeChain_eq hr (e := { s.disk with
    info := update s.disk.info r.idx0 { s.disk.info r.idx0 with b := none } }) rfl rfl]
  have hmem : ∀ {r'}, r' ∈ s.active.erase r → r' ≠ r ∧ r' ∈ s.active := fun hr' =>
    (List.Nodup.mem_erase_iff h.chains.list_nodup).mp hr'
  refine ⟨_, rfl, h.chains.erase hr fun i hi => update_of_ne hi .., ⟨fun q r' => ?_, fun q c n w hq => ?_,
    fun r' hr' => h.calls.lock r' (hmem hr').2⟩, ?_, h.flow.slot, fun r' hr' hmem' => ?_,
    fun r' hr' => h.flow.numbered r' (hmem hr').2, fun a ha b hb => h.flow.serials a (hmem ha).2 b (hmem hb).2,
    h.flow.completed, h.flow.once, h.flow.old, fun r' hr' => h.flow.pending r' (hmem hr').2,
    fun r' hr' => h.flow.done r' (hmem hr').2, fun q hq => ?_⟩
  · change update s.pc p .idle q = .wait r' ↔ r' ∈ s.active.erase r ∧ r'.p = q
    rw [List.Nodup.mem_erase_iff h.chains.list_nodup]
    by_cases hq : q = p
    · rw [hq, update_self]
      constructor
      · intro hidle
        cases hidle
      · rintro ⟨⟨hne, hr'⟩, hp'⟩
        have hpc' := (h.calls.wait p r').mpr ⟨hr', hp'⟩
        rw [hpc] at hpc'
        cases hpc'
        exact absurd rfl hne
    · rw [update_of_ne hq, h.calls.wait q r']
      constructor
      · rintro ⟨hr', hp'⟩
        refine ⟨⟨?_, hr'⟩, hp'⟩
        rintro rfl
        exact hq (hp'.symm.trans hpr)
      · exact fun hr' => ⟨hr'.1.2, hr'.2⟩
  · change update s.pc p .idle q = .alloc c n w at hq
    by_cases hqp : q = p
    · rw [hqp, update_self] at hq
      cases hq
    · rw [update_of_ne hqp] at hq
      exact h.calls.alloc q c n w hq
  · have hfilter : (s.active.erase r).filter (fun r' => s.busy r'.b) = s.active.filter fun r' => s.busy r'.b := by
      rw [List.Nodup.erase_eq_filter h.chains.list_nodup, List.filter_filter]
      refine List.filter_congr fun r' hr' => ?_
      by_cases heq : r' = r
      · rw [heq, hbusy]
        rfl
      · simp [heq]
    have hstages := h.flow.stages
    rw [← hfilter] at hstages
    exact hstages
  · obtain ⟨hne, hr'⟩ := hmem hr'
    have hhead : r'.idx0 ≠ r.idx0 := fun heq => hne (h.chains.head_inj hr' hr heq)
    change (update s.disk.info r.idx0 _ r'.idx0).status = 0
    rw [update_of_ne hhead]
    exact h.flow.status r' hr' hmem'
  · rcases List.mem_append.mp hq with hq | hq
    · exact h.flow.returned q hq
    · rw [List.mem_singleton.mp hq]
      exact h.flow.done r hr hbusy

theorem Inv.fetch (h : s.Inv) (hne : s.fetched ≠ s.disk.availIdx) :
    Inv { s with
      working := s.disk.availRing (s.fetched.toNat % NUM) :: s.working
      fetched := s.fetched + 1 } := by
  have hqueue : s.queue = s.disk.availRing (s.fetched.toNat % NUM) ::
      Ring.contents NUM s.disk.availRing (s.fetched + 1) s.disk.availIdx :=
    Ring.contents_pop (by decide) hne (by decide) _
  refine ⟨h.chains, ⟨h.calls.wait, h.calls.alloc, h.calls.lock⟩, ?_, h.flow.slot, h.flow.status, h.flow.numbered,
    h.flow.serials, h.flow.completed, h.flow.once, h.flow.old, fun r hr hmem => ?_, h.flow.done, h.flow.returned⟩
  · have hstages := h.flow.stages
    rw [hqueue] at hstages
    exact List.perm_middle.trans hstages
  · refine h.flow.pending r hr ?_
    rw [hqueue]
    exact List.perm_middle.mem_iff.mp hmem

-- It is done with a chain and stores it in the used ring.
theorem Inv.write (h : s.Inv) {head : ℕ} (hhead : head ∈ s.working) (hnone : s.written = none) :
    Inv { s with
      disk := s.disk.complete head
      working := s.working.erase head
      written := some head } := by
  obtain ⟨r, hr, hbusy, rfl⟩ := h.flow.head head (by simp [hhead])
  have hformat := h.chains.format r hr
  have hinfo : (s.disk.complete r.idx0).info =
      update s.disk.info r.idx0 { s.disk.info r.idx0 with status := 0 } := by
    simp only [VirtioDisk.complete, hformat.desc0, hformat.desc1, hformat.desc2]
  have hroom : (s.disk.usedEnd - s.disk.usedIdx).toNat < NUM := by
    have hlen := h.stages_length
    rw [usedQueue_length] at hlen
    omega
  have hused : Ring.contents NUM (s.disk.complete r.idx0).usedRing s.disk.usedIdx s.disk.usedEnd = s.usedQueue :=
    Ring.contents_update (by decide) le_rfl hroom _ _
  have hperm : (s.working.erase r.idx0 ++ ([r.idx0] ++ s.usedQueue)).Perm (s.working ++ s.usedQueue) :=
    List.perm_middle.trans ((List.perm_cons_erase hhead).symm.append_right s.usedQueue)
  refine ⟨h.chains.congr rfl fun r' hr' => (h.chains.format r' hr').congr rfl (fun _ _ => rfl) ?_,
    ⟨h.calls.wait, h.calls.alloc, h.calls.lock⟩, ?_, fun head hhead => ?_, fun r' hr' hmem => ?_, h.flow.numbered,
    h.flow.serials, ?_, h.flow.once, h.flow.old, fun r' hr' hmem => ?_, h.flow.done, h.flow.returned⟩
  · rw [hinfo]
    by_cases heq : r'.idx0 = r.idx0
    · rw [heq, update_self]
    · rw [update_of_ne heq]
  · have hstages := h.flow.stages
    rw [hnone] at hstages
    refine List.Perm.trans ?_ hstages
    change (s.queue ++ (s.working.erase r.idx0 ++ ([r.idx0] ++
      Ring.contents NUM (s.disk.complete r.idx0).usedRing s.disk.usedIdx s.disk.usedEnd))).Perm _
    rw [hused]
    exact hperm.append_left s.queue
  · cases hhead
    exact update_self ..
  · change r'.idx0 ∈ [r.idx0] ++
      Ring.contents NUM (s.disk.complete r.idx0).usedRing s.disk.usedIdx s.disk.usedEnd at hmem
    rw [hused] at hmem
    change ((s.disk.complete r.idx0).info r'.idx0).status = 0
    rw [hinfo]
    by_cases heq : r'.idx0 = r.idx0
    · rw [heq, update_self]
    · rw [update_of_ne heq]
      refine h.flow.status r' hr' ?_
      rw [hnone]
      exact (List.mem_append.mp hmem).resolve_left fun hself => heq (List.mem_singleton.mp hself)
  · refine h.flow.completed.trans (congrArg _ ?_)
    exact congrArg _ hused.symm
  · refine h.flow.pending r' hr' ?_
    rw [hnone]
    simp only [Option.toList_some, Option.toList_none, List.mem_append, List.mem_singleton, List.not_mem_nil,
      or_false] at hmem ⊢
    rcases hmem with hmem | hmem | hmem
    · exact .inl hmem
    · exact .inr (List.mem_of_mem_erase hmem)
    · exact .inr (hmem ▸ hhead)

theorem Inv.publish (h : s.Inv) {head : ℕ} (hwritten : s.written = some head) :
    Inv { s with
      disk := { s.disk with usedEnd := s.disk.usedEnd + 1 }
      written := none
      completed := s.completed ++ [s.issued head] } := by
  obtain ⟨r, hr, hbusy, rfl⟩ := h.flow.head head (by simp [hwritten])
  have hnodup := h.stages_nodup
  have hroom : (s.disk.usedEnd - s.disk.usedIdx).toNat < NUM := by
    have hlen := h.stages_length
    rw [usedQueue_length] at hlen
    omega
  have hused : Ring.contents NUM s.disk.usedRing s.disk.usedIdx (s.disk.usedEnd + 1) = s.usedQueue ++ [r.idx0] := by
    have hpush := Ring.contents_push (by decide) hroom (by decide) s.disk.usedRing r.idx0
    rw [← h.flow.slot _ hwritten, Function.update_eq_self, h.flow.slot _ hwritten] at hpush
    exact hpush
  obtain ⟨hissued, hlt⟩ := h.flow.numbered r hr
  have hnew : r.serial ∉ s.completed := h.flow.pending r hr (by simp [hwritten])
  rw [hwritten] at hnodup
  refine ⟨h.chains.congr rfl fun r' hr' => (h.chains.format r' hr').congr rfl (fun _ _ => rfl) rfl,
    ⟨h.calls.wait, h.calls.alloc, h.calls.lock⟩, ?_, fun head hhead => ?_, fun r' hr' hmem => ?_, h.flow.numbered,
    h.flow.serials, ?_, ?_, fun q hq => ?_, fun r' hr' hmem hdone => ?_, h.flow.done, h.flow.returned⟩
  · have hstages := h.flow.stages
    rw [hwritten] at hstages
    refine List.Perm.trans ?_ hstages
    change (s.queue ++ (s.working ++ ([] ++
      Ring.contents NUM s.disk.usedRing s.disk.usedIdx (s.disk.usedEnd + 1)))).Perm _
    rw [hused, List.nil_append]
    exact ((List.perm_append_comm).append_left s.working).append_left s.queue
  · cases hhead
  · change r'.idx0 ∈ [] ++ Ring.contents NUM s.disk.usedRing s.disk.usedIdx (s.disk.usedEnd + 1) at hmem
    rw [hused, List.nil_append] at hmem
    refine h.flow.status r' hr' ?_
    rw [hwritten]
    exact List.perm_append_comm.mem_iff.mp hmem
  · change s.completed ++ [s.issued r.idx0] =
      s.consumed ++ (Ring.contents NUM s.disk.usedRing s.disk.usedIdx (s.disk.usedEnd + 1)).map s.issued
    rw [hused, List.map_append, ← List.append_assoc, ← h.flow.completed]
    rfl
  · refine List.nodup_append.mpr ⟨h.flow.once, List.nodup_singleton _, ?_⟩
    rintro q hq q' hq' rfl
    rw [List.mem_singleton, hissued] at hq'
    exact hnew (hq' ▸ hq)
  · rcases List.mem_append.mp hq with hq | hq
    · exact h.flow.old q hq
    · rw [List.mem_singleton.mp hq, hissued]
      exact hlt
  · have hmem' : r'.idx0 ∈ s.queue ++ (s.working ++ s.written.toList) := by
      simp only [Option.toList_none, List.append_nil, List.mem_append] at hmem ⊢
      tauto
    rcases List.mem_append.mp hdone with hdone | hdone
    · exact h.flow.pending r' hr' hmem' hdone
    · rw [List.mem_singleton, hissued] at hdone
      have heq := h.flow.serials r' hr' r hr hdone
      rw [heq] at hmem
      simp only [Option.toList_none, List.append_nil, List.mem_append] at hmem
      simp only [Option.toList_some, List.singleton_append, List.nodup_append, List.mem_append, List.mem_cons] at hnodup
      rcases hmem with hmem | hmem
      · exact hnodup.2.2 _ hmem _ (.inr (.inl rfl)) rfl
      · exact hnodup.2.1.2.2 _ hmem _ (.inl rfl) rfl

theorem Inv.intrTurn (h : s.Inv) (hne : s.disk.usedIdx ≠ s.disk.usedEnd) :
    ∃ id b disk, s.disk.intrTurn = .ok (id, b, disk) ∧
      Inv { s with
        disk := disk
        busy := update s.busy b false
        consumed := s.consumed ++ [s.issued id] } := by
  have hused : s.usedQueue = s.disk.usedRing (s.disk.usedIdx.toNat % NUM) ::
      Ring.contents NUM s.disk.usedRing (s.disk.usedIdx + 1) s.disk.usedEnd :=
    Ring.contents_pop (by decide) hne (by decide) _
  obtain ⟨r, hr, hbusy, hhead⟩ :=
    h.flow.head (s.disk.usedRing (s.disk.usedIdx.toNat % NUM)) (by simp [hused])
  rw [← hhead] at hused
  have hstatus := h.flow.status r hr (by simp [hused])
  have hbuf := (h.chains.format r hr).buf
  have hturn : s.disk.intrTurn = .ok (r.idx0, r.b, { s.disk with usedIdx := s.disk.usedIdx + 1 }) := by
    unfold VirtioDisk.intrTurn
    simp only [← hhead, hstatus, hbuf, ne_eq, not_true_eq_false, if_false]
  obtain ⟨hissued, -⟩ := h.flow.numbered r hr
  have hother : ∀ r' ∈ s.active, r' ≠ r → update s.busy r.b false r'.b = s.busy r'.b := fun r' hr' hne' =>
    update_of_ne (fun heq => hne' (h.calls.buf_inj hr' hr heq)) ..
  -- Exactly r is no longer busy.
  have hfilter : (s.active.filter fun r' => s.busy r'.b).Perm
      (r :: s.active.filter fun r' => update s.busy r.b false r'.b) := by
    have hnot : r ∉ s.active.filter fun r' => update s.busy r.b false r'.b := by simp
    refine (List.perm_ext_iff_of_nodup (h.chains.list_nodup.filter _)
      (List.nodup_cons.mpr ⟨hnot, h.chains.list_nodup.filter _⟩)).mpr fun r' => ?_
    rw [List.mem_cons, List.mem_filter, List.mem_filter]
    by_cases heq : r' = r
    · simp [heq, hr, hbusy]
    · constructor
      · exact fun hr' => .inr ⟨hr'.1, (hother r' hr'.1 heq).trans hr'.2⟩
      · intro hr'
        have hr' := hr'.resolve_left heq
        exact ⟨hr'.1, (hother r' hr'.1 heq).symm.trans hr'.2⟩
  refine ⟨_, _, _, hturn, h.chains.congr rfl fun r' hr' => (h.chains.format r' hr').congr rfl (fun _ _ => rfl) rfl,
    ⟨h.calls.wait, h.calls.alloc, h.calls.lock⟩, ?_, h.flow.slot, fun r' hr' hmem => ?_, h.flow.numbered,
    h.flow.serials, ?_, h.flow.once, h.flow.old, h.flow.pending, fun r' hr' hdone => ?_, fun q hq => ?_⟩
  · have hstages := h.flow.stages.trans (hfilter.map VirtioReq.idx0)
    rw [hused, List.map_cons] at hstages
    have hmove : (s.queue ++ (s.working ++ (s.written.toList ++
        r.idx0 :: Ring.contents NUM s.disk.usedRing (s.disk.usedIdx + 1) s.disk.usedEnd))).Perm
        (r.idx0 :: (s.queue ++ (s.working ++ (s.written.toList ++
          Ring.contents NUM s.disk.usedRing (s.disk.usedIdx + 1) s.disk.usedEnd)))) := by
      rw [← List.append_assoc, ← List.append_assoc, ← List.append_assoc, ← List.append_assoc]
      exact List.perm_middle
    exact (hmove.symm.trans hstages).cons_inv
  · refine h.flow.status r' hr' ?_
    have hmem' : r'.idx0 ∈ s.written.toList ++
      Ring.contents NUM s.disk.usedRing (s.disk.usedIdx + 1) s.disk.usedEnd := hmem
    rw [hused]
    simp only [List.mem_append, List.mem_cons] at hmem' ⊢
    tauto
  · refine h.flow.completed.trans ?_
    rw [hused, List.map_cons, List.append_cons]
    rfl
  · by_cases heq : r' = r
    · rw [heq, ← hissued]
      exact List.mem_append_right _ (List.mem_singleton_self _)
    · exact List.mem_append_left _ (h.flow.done r' hr' ((hother r' hr' heq).symm.trans hdone))
  · exact List.mem_append_left _ (h.flow.returned q hq)

-- An event that can happen does not panic, and keeps the invariant.
theorem Inv.exec (h : s.Inv) {e : VirtioEvent} {out : Except VirtioPanic Virtio} (hexec : s.exec e = some out) :
    ∃ t, out = .ok t ∧ t.Inv := by
  cases e with
  | acquiresleep p b =>
      simp only [Virtio.exec, Option.ite_none_right_eq_some, Option.some.injEq] at hexec
      obtain ⟨hcan, rfl⟩ := hexec
      exact ⟨_, rfl, h.acquiresleep hcan.1⟩
  | releasesleep p b =>
      simp only [Virtio.exec, Option.ite_none_right_eq_some, Option.some.injEq] at hexec
      obtain ⟨hcan, rfl⟩ := hexec
      exact ⟨_, rfl, h.releasesleep hcan.1 hcan.2⟩
  | start p b blockno write =>
      simp only [Virtio.exec, Option.ite_none_right_eq_some, Option.some.injEq] at hexec
      obtain ⟨hcan, rfl⟩ := hexec
      exact h.rw hcan.1 (by simp [hcan.2.1])
  | retry p =>
      simp only [Virtio.exec] at hexec
      split at hexec
      · rename_i b blockno write hpc
        simp only [Option.ite_none_right_eq_some, Option.some.injEq] at hexec
        obtain ⟨-, rfl⟩ := hexec
        exact h.rw (h.calls.alloc p b blockno write hpc) (by simp [hpc])
      · cases hexec
  | wake p =>
      simp only [Virtio.exec] at hexec
      split at hexec
      · rename_i r hpc
        simp only [Option.ite_none_right_eq_some, Option.some.injEq] at hexec
        obtain ⟨-, rfl⟩ := hexec
        exact h.finish hpc
      · cases hexec
  | intrBegin =>
      simp only [Virtio.exec, Option.ite_none_right_eq_some, Option.some.injEq] at hexec
      obtain ⟨-, rfl⟩ := hexec
      exact ⟨_, rfl, h.chains, ⟨h.calls.wait, h.calls.alloc, h.calls.lock⟩,
        h.flow.same s.disk.desc s.disk.free s.lock s.pc true⟩
  | intrTurn =>
      simp only [Virtio.exec] at hexec
      split at hexec
      · rename_i hcan
        obtain ⟨id, b, disk, hturn, hinv⟩ := h.intrTurn hcan.2
        simp only [hturn, Option.some.injEq] at hexec
        exact ⟨_, hexec.symm, hinv⟩
      · cases hexec
  | intrEnd =>
      simp only [Virtio.exec, Option.ite_none_right_eq_some, Option.some.injEq] at hexec
      obtain ⟨-, rfl⟩ := hexec
      exact ⟨_, rfl, h.chains, ⟨h.calls.wait, h.calls.alloc, h.calls.lock⟩,
        h.flow.same s.disk.desc s.disk.free s.lock s.pc false⟩
  | fetch =>
      simp only [Virtio.exec, Option.ite_none_right_eq_some, Option.some.injEq] at hexec
      obtain ⟨hcan, rfl⟩ := hexec
      exact ⟨_, rfl, h.fetch hcan⟩
  | write head =>
      simp only [Virtio.exec, Option.ite_none_right_eq_some, Option.some.injEq] at hexec
      obtain ⟨hcan, rfl⟩ := hexec
      exact ⟨_, rfl, h.write hcan.1 hcan.2⟩
  | publish =>
      simp only [Virtio.exec] at hexec
      split at hexec
      · rename_i head hwritten
        cases hexec
        exact ⟨_, rfl, h.publish hwritten⟩
      · cases hexec

end Virtio

end Xv6
