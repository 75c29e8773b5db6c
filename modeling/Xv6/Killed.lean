import Xv6.Clock
import Xv6.Console
import Xv6.Pipe.Theorems
import Xv6.Proc.Spared

namespace Xv6

open Transition
open Sleep (Mach Timely)
open Sched (first second third)

-- A killed process that sleeps on one of the channels of the client.
def Sleep.Mach.SleptThrough {K : Sleep.Client} (s : Mach K) (p : Slot) : Prop :=
  (s.proc p).killed = true ∧ (s.proc p).state = .sleeping ∧ (s.proc p).chan ≠ none

instance {K : Sleep.Client} (s : Mach K) (p : Slot) : Decidable (s.SleptThrough p) :=
  inferInstanceAs (Decidable (_ ∧ _ ∧ _))

theorem Sleep.not_sleptThrough {K : Sleep.Client} {checked : K.Loc → Bool} (hc : Checks (fun _ => true) checked)
    {live : Slot → Bool} {pid : Slot → Int} {d : K.Data} {s : Mach K}
    (h : Reaches (Step (Timely (fun _ => true) checked)) (.start live pid d) s) (p : Slot) :
    ¬s.SleptThrough p := by
  rintro ⟨hkilled, hstate, hchan⟩
  obtain ⟨chan, hchan⟩ := Option.ne_none_iff_exists'.mp hchan
  rw [not_killed_of_asleep hc h ⟨hstate, chan, hchan, rfl⟩] at hkilled
  cases hkilled

-- piperead and pipewrite, consoleread, sys_sleep, and wait: as long as kill marks no process
-- between its killed() and its sleep(), it is not slept through.
theorem not_sleptThrough_of_timely (live : Slot → Bool) (pid : Slot → Int) (p : Slot) :
    (∀ data (s : Mach PipeBuf.client),
      Reaches (Sleep.Step (Timely (fun _ => true) PipeBuf.Loc.checked)) (.start live pid (PipeBuf.alloc data)) s →
      ¬s.SleptThrough p) ∧
    (∀ cons (s : Mach Cons.client),
      Reaches (Sleep.Step (Timely (fun _ => true) Cons.Loc.checked)) (.start live pid cons) s →
      ¬s.SleptThrough p) ∧
    (∀ ticks (s : Mach Clock.client),
      Reaches (Sleep.Step (Timely (fun _ => true) Clock.Loc.checked)) (.start live pid ticks) s →
      ¬s.SleptThrough p) ∧
    ∀ s, Reaches Sched.TimelyStep Sched.Sys.boot s → ∀ q,
      ¬((s.proc p).killed = true ∧ (s.proc p).state = .sleeping ∧ (s.proc p).chan = .proc q) := by
  refine ⟨fun data s h => Sleep.not_sleptThrough PipeBuf.checks h p,
    fun cons s h => Sleep.not_sleptThrough Cons.checks h p,
    fun ticks s h => Sleep.not_sleptThrough Clock.checks h p, fun s h q => ?_⟩
  rintro ⟨hkilled, hstate, hchan⟩
  rw [(Sched.reachable_spared h).asleep p q hstate hchan] at hkilled
  cases hkilled

namespace PipeBuf

open Sleep

def killSecond : List (Move client) := List.flatten [dispatch third, acts third [(8, .kill 1)]]

def readerKilled : List (Move client) :=
  List.flatten [dispatch second, acts second [(6, .piperead 1)], killSecond, acts second [(5, .piperead 1)],
    [.schedule second]]

-- A kill of a reader that sleeps wakes it up.
theorem not_sleptThrough_of_timely_reader : ∃ s : Mach client,
    Reaches (Step (Timely (fun _ => true) Loc.checked))
      (.start (fun _ => true) (fun p => p.val) (alloc fun _ => 0)) s ∧
    (s.proc second).killed = true ∧ s.loc (.proc third) = some .idle ∧ ¬s.SleptThrough second := by
  obtain ⟨s, hr, hkilled, hloc⟩ := exists_of_run (Q := Timely (fun _ => true) Loc.checked)
    (l := readerSleeps ++ killSecond)
    (s := .start (fun _ => true) (fun p => p.val) (alloc fun _ => 0))
    (P := fun s : Mach client => (s.proc second).killed = true ∧
      s.loc (.proc third) = some .idle) (by decide +kernel)
  exact ⟨s, hr, hkilled, hloc, (not_sleptThrough_of_timely _ _ second).1 _ s hr⟩

-- A kill of a reader between killed() and sleep() is slept through.
theorem sleptThrough_reader : ∃ s : Mach client,
    Reaches (Step fun _ _ _ => True) (.start (fun _ => true) (fun p => p.val) (alloc fun _ => 0)) s ∧
    s.loc (.proc third) = some .idle ∧ (s.proc second).killed = true ∧
    (s.proc second).state = .sleeping ∧ (s.proc second).chan = some .nread :=
  exists_of_run (l := readerKilled) (by decide +kernel)

end PipeBuf

end Xv6
