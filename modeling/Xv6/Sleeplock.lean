import Xv6.Sleep.Outline

namespace Xv6.Sleeplock

open Sleep Transition
open Sched (first second)

inductive Call
  | acquiresleep | releasesleep
  deriving DecidableEq

inductive Loc
  | idle
  -- acquiresleep: the test of the while loop
  | test
  -- releasesleep: after the acquire, and before the wakeup
  | clear | wakeup
  -- the release at the end of both
  | release
  deriving DecidableEq

-- sleeplock.c: the data is lk->locked, and the one spin lock lk->lk.
def code (_ : Agent) (l : Loc) (locked : Bool) (ch : Call) : Option (Act Unit Unit Bool Loc) :=
  match l with
  | .idle =>
      match ch with
      | .acquiresleep => some (.acquire () .test)
      | .releasesleep => some (.acquire () .clear)
  | .test => if locked then some (.sleep () () .test) else some (.data true .release)
  | .clear => some (.data false .wakeup)
  | .wakeup => some (.wakeup () .release)
  | .release => some (.release () .idle)

abbrev client : Client where
  Lk := Unit
  Chan := Unit
  Data := Bool
  Loc := Loc
  Choice := Call
  idle := .idle
  code := code

def Loc.inside : Loc → Bool
  | .idle => false
  | _ => true

def outline : Outline (K := client) () where
  inside := Loc.inside
  inv _ := True
  assert _ _ := True

theorem outline_valid : outline.Valid (fun _ _ _ _ => True) where
  idle := rfl
  step {a l d ch act} h _ _ _ := by
    change code a l d ch = some act at h
    cases l <;> simp only [code] at h
    case idle => cases ch <;> cases h <;> simp [Outline.Keeps, Outline.Entry, outline, Loc.inside]
    case test => split at h <;> cases h <;> simp [Outline.Keeps, Outline.Goes, Outline.Entry, outline, Loc.inside]
    all_goals
      cases h
      simp [Outline.Keeps, Outline.Goes, outline, Loc.inside]

-- releasesleep owes a wakeup from the moment it has cleared lk->locked.
def Loc.owing : Loc → Bool
  | .wakeup => true
  | _ => false

theorem outline_signals : outline.Signals () (· = false) Loc.owing (fun _ _ _ _ => True) where
  inside {l} h := by cases l <;> first | rfl | cases h
  step {a l d ch act} h _ _ _ := by
    change code a l d ch = some act at h
    cases l <;> simp only [code] at h
    case idle => cases ch <;> cases h <;> trivial
    case test => split at h <;> cases h <;> simp_all [Outline.Due, Loc.owing]
    all_goals
      cases h
      simp [Outline.Due, Loc.owing]

-- Nobody sleeps in acquiresleep on a lock that is not taken.
theorem locked_of_sleeping {live : Slot → Bool} {pid : Slot → Int} {locked : Bool} {s : Mach client}
    (h : Reaches (Step (Allowed fun _ _ _ _ => True)) (.start live pid locked) s) (hfree : s.lock () = none)
    {p : Slot} (hstate : (s.proc p).state = .sleeping) (hchan : (s.proc p).chan = some ()) : s.data = true := by
  have hn := outline_signals.not_of_sleeping outline_valid trivial h hfree hstate hchan
  simpa using hn

-- One process takes the lock, a second one sleeps for it, and the first gives it back.
def handover : List (Move client) :=
  List.flatten [dispatch first, acts first [(4, .acquiresleep)], dispatch second, acts second [(7, .acquiresleep)],
    [.schedule second], acts first [(194, .releasesleep)]]

theorem locked_of_sleeping_second : ∃ s : Mach client, (s.proc second).state = .sleeping ∧ s.data = true := by
  obtain ⟨s, hrun, hfree, hstate, hchan⟩ := exists_of_run (Q := Allowed fun _ _ _ _ => True)
    (s := (.start (fun _ => true) (fun p => p.val) false : Mach client)) (l := handover.take 16)
    (P := fun s => s.lock () = none ∧ (s.proc second).state = .sleeping ∧ (s.proc second).chan = some ())
    (by decide +kernel)
  exact ⟨s, hstate, locked_of_sleeping hrun hfree hstate hchan⟩

theorem no_lost_wakeup_handover : ∃ (s : Mach client) (waking : List Agent),
    Reaches (WakeStep () () fun locked : Bool => locked = false)
      (.start (fun _ => true) (fun p => p.val) false, []) (s, waking) ∧
    s.data = false ∧ waking = [] ∧ ∀ p, ¬((s.proc p).state = .sleeping ∧ (s.proc p).chan = some ()) := by
  let start : Mach client := .start (fun _ => true) (fun p => p.val) false
  have hrun : (replay (wakeMove () () fun locked : Bool => locked = false) (start, []) handover).any
      fun x => decide (x.1.data = false ∧ x.2 = []) := by decide +kernel
  obtain ⟨⟨s, waking⟩, hrun, hdata, hwaking⟩ := exists_of_replay _ _ _ hrun fun _ _ _ _ => wakeStep_of_move
  exact ⟨s, waking, hrun, hdata, hwaking, no_lost_wakeup _ _ _ hrun hdata hwaking⟩

end Xv6.Sleeplock
