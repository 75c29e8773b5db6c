import Xv6.Lib.Except
import Xv6.Virtio.Invariant

namespace Xv6

namespace Virtio

open Transition VirtioDisk

variable {s : Virtio} {r : VirtioReq}

theorem reachable_inv (h : Reaches Step start s) : s.Inv := by
  refine h.invariant Inv .start fun s t hs hst => ?_
  obtain ⟨e, he⟩ := hst
  obtain ⟨u, hu, hinv⟩ := hs.exec he
  cases hu
  exact hinv

-- A call returns only when its request is among those that the handler has consumed.
theorem Inv.returns (h : s.Inv) {p : ℕ} {t : Virtio} (hpc : s.pc p = .wait r)
    (hexec : s.exec (.wake p) = some (.ok t)) (hidle : t.pc p = .idle) : r.serial ∈ s.consumed := by
  have hr := ((h.calls.wait p r).mp hpc).1
  by_cases hbusy : s.busy r.b = true
  · simp only [Virtio.exec, hpc, Virtio.finish, hbusy, if_true, Option.ite_none_right_eq_some, Option.some.injEq,
      Except.ok.injEq] at hexec
    rw [← hexec.2, hpc] at hidle
    cases hidle
  · exact h.flow.done r hr (by simpa using hbusy)

-- The driver with its device: a request has descriptors of its own, is completed once, and gives them all back.
theorem request_protocol {s : Virtio} (h : Reaches Step start s) :
    (∀ p r, s.pc p = .wait r ↔ r ∈ s.active ∧ r.p = p) ∧
    (∀ i, i < NUM → (s.disk.free i = false ↔ ∃ r ∈ s.active, i ∈ r.idx)) ∧
    (s.active.flatMap VirtioReq.idx).Nodup ∧
    (∀ head ∈ s.queue ++ (s.working ++ s.written.toList), ∃ r ∈ s.active, r.idx0 = head ∧ s.disk.Formatted r) ∧
    (∀ p r t, s.pc p = .wait r → s.exec (.wake p) = some (.ok t) → t.pc p = .idle → r.serial ∈ s.completed) ∧
    (s.completed = s.consumed ++ s.usedQueue.map s.issued ∧ s.completed.Nodup ∧
      ∀ q ∈ s.returned, q ∈ s.consumed) ∧
    (∀ e why, s.exec e ≠ some (.error why)) ∧
    (s.active = [] → ∀ i, i < NUM → s.disk.free i = true) := by
  have hinv := reachable_inv h
  have hfree : ∀ i, i < NUM → (s.disk.free i = false ↔ ∃ r ∈ s.active, i ∈ r.idx) := by
    intro i hi
    rw [hinv.chains.free i hi, List.mem_flatMap]
  refine ⟨hinv.calls.wait, hfree, hinv.chains.nodup, fun head hhead => ?_, fun p r t hpc hexec hidle => ?_,
    ⟨hinv.flow.completed, hinv.flow.once, hinv.flow.returned⟩, fun e why hexec => ?_, fun hnil i hi => ?_⟩
  · have hmem : head ∈ s.queue ++ (s.working ++ (s.written.toList ++ s.usedQueue)) := by
      simp only [List.mem_append] at hhead ⊢
      tauto
    obtain ⟨r, hr, -, hidx⟩ := hinv.flow.head _ hmem
    exact ⟨r, hr, hidx, hinv.chains.format r hr⟩
  · rw [hinv.flow.completed]
    exact List.mem_append_left _ (hinv.returns hpc hexec hidle)
  · obtain ⟨t, ht, -⟩ := hinv.exec hexec
    cases ht
  · by_contra hne
    rw [Bool.not_eq_true, hfree i hi, hnil] at hne
    obtain ⟨r, hr, -⟩ := hne
    cases hr

def next (s : Virtio) (e : VirtioEvent) : Option Virtio := (s.exec e).bind Except.toOption

theorem step_of_next {t : Virtio} {e : VirtioEvent} (h : s.next e = some t) : Step s t := by
  obtain ⟨r, hr, ht⟩ := Option.bind_eq_some_iff.mp h
  exact ⟨e, hr.trans (congrArg some (Except.eq_ok_of_toOption ht))⟩

-- Two processes wait for the disk, which is done with the second request first.
def twoRequests : List VirtioEvent :=
  [.acquiresleep 0 4, .acquiresleep 1 5, .start 0 4 40 false, .start 1 5 50 true, .fetch, .fetch, .write 3, .publish,
    .intrBegin, .intrTurn, .intrEnd, .wake 0, .wake 1, .write 0, .publish, .intrBegin, .intrTurn, .intrEnd, .wake 0]

theorem request_protocol_two : ∃ s, Reaches Step start s ∧ s.completed = [1, 0] ∧ s.returned = [1, 0] ∧
    s.active = [] ∧ ∀ i, i < NUM → s.disk.free i = true := by
  have hrun : (replay next start twoRequests).any fun s =>
      decide (s.completed = [1, 0] ∧ s.returned = [1, 0] ∧ s.active = []) := by decide +kernel
  obtain ⟨s, hreach, hcompleted, hreturned, hactive⟩ := exists_of_replay _ _ _ hrun fun _ _ _ _ => step_of_next
  exact ⟨s, hreach, hcompleted, hreturned, hactive, (request_protocol hreach).2.2.2.2.2.2.2 hactive⟩

end Virtio

end Xv6
