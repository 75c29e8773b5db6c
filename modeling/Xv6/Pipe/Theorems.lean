import Xv6.Pipe
import Xv6.Sleep.Kill

namespace Xv6.PipeBuf

open Sleep Transition
open Sched (first second third)

def Loc.inside : Loc → Bool
  | .idle => false
  | _ => true

-- What the holder of pi->lock knows at each point; sure says that copyout never fails.
def assert (sure : Prop) : Loc → PipeBuf → Prop
  | .write _ _ due, pi => due = true → pi.readopen = true
  | .writeFull _ _ _, pi => pi.readopen = true
  | .writeSleep _ _, pi => pi.full = true ∧ pi.readopen = true
  | .readSleep _, pi => pi.empty = true ∧ pi.writeopen = true
  | .readCopy _ i, pi => i = 0 → pi.empty = true → pi.writeopen = false
  | .readWakeup n i, pi | .readRelease n i, pi =>
      sure → i = 0 → 0 < n → pi.empty = true ∧ pi.writeopen = false
  | _, _ => True

def outline (sure : Prop) (inv : PipeBuf → Prop) : Outline (K := client) () := ⟨Loc.inside, inv, assert sure⟩

-- A property of the pipe that every write to it keeps.
structure Kept (sure : Prop) (inv : PipeBuf → Prop) : Prop where
  store : ∀ {pi} c, inv pi → pi.full = false → inv (pi.store c)
  take : ∀ {pi ok}, inv pi → pi.empty = false → (sure → ok = true) → inv (pi.take ok)
  writeopen : ∀ {pi}, inv pi → inv { pi with writeopen := false }
  readopen : ∀ {pi}, inv pi → inv { pi with readopen := false }

theorem outline_valid {sure : Prop} {inv : PipeBuf → Prop}
    {allow : Agent → client.Loc → client.Data → client.Choice → Prop}
    (hk : Kept sure inv) (hsure : ∀ {a l pi ok}, allow a l pi (.copyout ok) → sure → ok = true) :
    (outline sure inv).Valid allow where
  idle := rfl
  step {a l pi ch act} h hallow hinv hat := by
    change code a l pi ch = some act at h
    cases l <;> simp only [code] at h
    case idle =>
      cases ch <;> cases h <;>
        simp [Outline.Keeps, Outline.Entry, Outline.Goes, outline, Loc.inside, assert]
    case write n i due =>
      have hat := hat rfl
      simp only [outline, assert] at hat
      split_ifs at h with hi hr <;> cases h <;>
        simp_all [Outline.Keeps, Outline.Goes, outline, Loc.inside, assert]
    case writeFull n i due =>
      have hat := hat rfl
      simp only [outline, assert] at hat
      split_ifs at h with hfull
      · cases h
        simp_all [Outline.Keeps, Outline.Goes, outline, Loc.inside, assert]
      · have hstore := fun c => hk.store c hinv (by simpa using hfull)
        cases ch with
        | copyin c =>
            cases c <;> cases h <;>
              simp_all [Outline.Keeps, Outline.Goes, outline, Loc.inside, assert, store]
        | _ => cases h
    case read n =>
      split_ifs at h with hw <;> cases h <;>
        simp_all [Outline.Keeps, Outline.Goes, outline, Loc.inside, assert]
    case readCopy n i =>
      have hat := hat rfl
      simp only [outline, assert] at hat
      split_ifs at h with hi he
      · cases h
        simp_all [Outline.Keeps, Outline.Goes, outline, Loc.inside, assert]
      · cases ch with
        | copyout ok =>
            have htake := hk.take hinv (by simpa using he) (hsure hallow)
            have hok := hsure hallow
            cases ok <;> cases h <;>
              simp_all [Outline.Keeps, Outline.Goes, outline, Loc.inside, assert]
        | _ => cases h
      · cases h
        simp_all [Outline.Keeps, Outline.Goes, outline, Loc.inside, assert]
        omega
    case close w =>
      have hw := hk.writeopen hinv
      have hr := hk.readopen hinv
      split_ifs at h <;> cases h <;>
        simp_all [Outline.Keeps, Outline.Goes, outline, Loc.inside, assert]
    all_goals
      cases h
      simp_all [Outline.Keeps, Outline.Goes, Outline.Entry, outline, Loc.inside, assert]

def buffered (pi : PipeBuf) : List UInt8 := Ring.contents PIPESIZE pi.data pi.nread pi.nwrite

structure Fifo (pi : PipeBuf) : Prop where
  room : (pi.nwrite - pi.nread).toNat ≤ PIPESIZE
  order : pi.delivered ++ pi.buffered = pi.accepted

theorem full_iff (pi : PipeBuf) : pi.full = true ↔ (pi.nwrite - pi.nread).toNat = PIPESIZE := by
  unfold full PIPESIZE
  rw [decide_eq_true_iff]
  constructor
  · intro h
    rw [h, BitVec.add_comm, BitVec.add_sub_cancel]
    rfl
  · intro h
    have he : pi.nwrite - pi.nread = BitVec.ofNat 32 512 := BitVec.eq_of_toNat_eq h
    rw [← he, BitVec.add_comm, BitVec.sub_add_cancel]

theorem fifo_kept : Kept True Fifo where
  store {pi} c h hfull := by
    have hroom : (pi.nwrite - pi.nread).toNat < PIPESIZE := by
      refine lt_of_le_of_ne h.room fun he => ?_
      rw [(full_iff pi).mpr he] at hfull
      cases hfull
    constructor
    · change (pi.nwrite + 1 - pi.nread).toNat ≤ PIPESIZE
      rw [Ring.toNat_push (lt_of_le_of_lt hroom (by decide))]
      exact hroom
    · change pi.delivered ++ Ring.contents PIPESIZE (Function.update pi.data (pi.nwrite.toNat % PIPESIZE) c)
        pi.nread (pi.nwrite + 1) = pi.accepted ++ [c]
      rw [Ring.contents_push (by decide) hroom (by decide), ← List.append_assoc]
      exact congrArg (· ++ [c]) h.order
  take {pi ok} h hempty hok := by
    have hne : pi.nread ≠ pi.nwrite := by simpa [empty] using hempty
    have hpop := Ring.toNat_pop hne (by decide)
    have hroom := h.room
    rw [hok trivial]
    constructor
    · change (pi.nwrite - (pi.nread + 1)).toNat ≤ PIPESIZE
      omega
    · have horder := h.order
      rw [buffered, Ring.contents_pop (by decide) hne (by decide)] at horder
      simpa [take, buffered] using horder
  writeopen h := ⟨h.room, h.order⟩
  readopen h := ⟨h.room, h.order⟩

theorem fifo_alloc (data : ℕ → UInt8) : Fifo (alloc data) :=
  ⟨by simp [alloc], by simp [alloc, buffered, Ring.contents_self]⟩

def CopyoutOk (_ : Agent) (_ : client.Loc) (_ : client.Data) (ch : client.Choice) : Prop := ch ≠ .copyout false

instance (a : Agent) (l : client.Loc) (pi : client.Data) (ch : client.Choice) : Decidable (CopyoutOk a l pi ch) :=
  inferInstanceAs (Decidable (ch ≠ .copyout false))

-- A pipe is a bounded FIFO, and piperead returns 0 for a positive n only at its end.
theorem fifo (live : Slot → Bool) (pid : Slot → Int) (data : ℕ → UInt8) {s : Mach client}
    (h : Reaches (Step (Allowed CopyoutOk)) (.start live pid (alloc data)) s) :
    s.data.delivered ++ s.data.buffered = s.data.accepted ∧
    (s.data.nwrite - s.data.nread).toNat ≤ PIPESIZE ∧
    ∀ a n, (s.pc a).ctl = .run (.readRelease n 0) → 0 < n →
      s.data.nread = s.data.nwrite ∧ s.data.writeopen = false := by
  have hv : (outline True Fifo).Valid CopyoutOk := by
    refine outline_valid fifo_kept fun {a l pi ok} hok _ => ?_
    cases ok
    · exact absurd rfl hok
    · rfl
  have ho := Outline.reachable hv (fifo_alloc data) h
  refine ⟨ho.inv.order, ho.inv.room, fun a n hpc hn => ?_⟩
  have hpoint := ho.point a
  rw [hpc] at hpoint
  obtain ⟨hempty, hopen⟩ := hpoint.2 hpoint.1.symm trivial rfl hn
  exact ⟨of_decide_eq_true hempty, hopen⟩

def drain : List (Move client) :=
  List.flatten [dispatch first, acts first [(6, .pipewrite 1), (1, .copyin (some 7)), (193, .kill 0),
    (194, .pipeclose true), (2, .piperead 1), (1, .copyout true), (193, .kill 0), (194, .piperead 1)]]

theorem fifo_drain : ∃ s : Mach client,
    Reaches (Step (Allowed CopyoutOk)) (.start (fun _ => true) (fun p => p.val) (alloc fun _ => 0)) s ∧
    s.data.delivered = [7] ∧ (s.pc (.proc first)).ctl = .run (.readRelease 1 0) ∧
    s.data.delivered ++ s.data.buffered = s.data.accepted ∧
    s.data.nread = s.data.nwrite ∧ s.data.writeopen = false := by
  obtain ⟨s, hr, hbytes, hloc⟩ := exists_of_run (Q := Allowed CopyoutOk) (l := drain)
    (s := .start (fun _ => true) (fun p => p.val) (alloc fun _ => 0))
    (P := fun s : Mach client => s.data.delivered = [7] ∧
      s.loc (.proc first) = some (.readRelease 1 0)) (by decide +kernel)
  have hpc := congrArg Pc.ctl (Mach.loc_eq_some.mp hloc)
  obtain ⟨horder, -, hret⟩ := fifo _ _ _ hr
  exact ⟨s, hr, hbytes, hpc, horder, hret _ _ hpc (by decide)⟩

-- The only way out of pipewrite with a byte stored into the empty pipe and no wakeup for it
-- is the test of killed.
def Signalled (_ : Agent) (l : client.Loc) (_ : client.Data) (_ : client.Choice) : Prop := l ≠ .writeFail true

instance (a : Agent) (l : client.Loc) (pi : client.Data) (ch : client.Choice) : Decidable (Signalled a l pi ch) :=
  inferInstanceAs (Decidable (l ≠ Loc.writeFail true))

theorem signalled_valid : (outline False fun _ => True).Valid Signalled :=
  outline_valid ⟨fun _ h _ => h, fun h _ _ => h, id, id⟩ fun _ h => False.elim h

def Loc.owesReaders : Loc → Bool
  | .write _ _ due | .writeFull _ _ due | .writeFail due => due
  | .writeWakeup _ | .closeWakeup true => true
  | _ => false

def Loc.owesWriters : Loc → Bool
  | .readCopy _ i => 0 < i
  | .readWakeup _ _ | .closeWakeup false => true
  | _ => false

-- What a process that sleeps on &pi->nread or on &pi->nwrite waits for.
def Readable (pi : PipeBuf) : Prop := ¬(pi.empty = true ∧ pi.writeopen = true)

def Writable (pi : PipeBuf) : Prop := ¬(pi.full = true ∧ pi.readopen = true)

theorem readers_signals :
    (outline False fun _ => True).Signals .nread Readable Loc.owesReaders Signalled where
  inside {l} h := by cases l <;> first | rfl | cases h
  step {a l pi ch act} h hallow _ hat := by
    change code a l pi ch = some act at h
    cases l <;> simp only [code] at h
    case idle => cases ch <;> cases h <;> simp [Outline.Due, Loc.owesReaders]
    case write n i due =>
      split_ifs at h <;> cases h <;> simp_all [Outline.Due, Loc.owesReaders]
    case writeFull n i due =>
      split_ifs at h with hfull
      · cases h
        simp [Outline.Due]
      · cases ch with
        | copyin c =>
            cases c <;> cases h
            · simp [Outline.Due, Loc.owesReaders]
            · rintro (hdue | ⟨hempty, -⟩)
              · exact Bool.or_eq_true_iff.mpr (.inl hdue)
              · exact Bool.or_eq_true_iff.mpr (.inr (not_not.mp hempty).1)
        | _ => cases h
    case readCopy n i =>
      split_ifs at h with hi he
      · cases h
        simp [Outline.Due, Loc.owesReaders]
      · cases ch with
        | copyout ok => cases ok <;> cases h <;> simp_all [Outline.Due, Loc.owesReaders, Readable]
        | _ => cases h
      · cases h
        simp [Outline.Due, Loc.owesReaders]
    case writeFail due =>
      cases h
      cases due
      · rfl
      · exact absurd rfl hallow
    case readSleep n =>
      cases h
      have hat := hat rfl
      exact ⟨rfl, fun _ hr => hr hat⟩
    case read n => split_ifs at h <;> cases h <;> simp [Outline.Due, Loc.owesReaders]
    case close w =>
      cases w <;> cases h <;> simp [Outline.Due, Loc.owesReaders, Readable, empty]
    case closeWakeup w =>
      cases w <;> cases h <;> simp [Outline.Due, Loc.owesReaders]
    all_goals
      cases h
      simp [Outline.Due, Loc.owesReaders]

theorem writers_signals :
    (outline False fun _ => True).Signals .nwrite Writable Loc.owesWriters Signalled where
  inside {l} h := by cases l <;> first | rfl | cases h
  step {a l pi ch act} h _hallow _ hat := by
    change code a l pi ch = some act at h
    cases l <;> simp only [code] at h
    case idle => cases ch <;> cases h <;> simp [Outline.Due, Loc.owesWriters]
    case write n i due => split_ifs at h <;> cases h <;> simp [Outline.Due, Loc.owesWriters]
    case writeFull n i due =>
      split_ifs at h with hfull
      · cases h
        simp [Outline.Due, Loc.owesWriters]
      · cases ch with
        | copyin c =>
            cases c <;> cases h <;> simp_all [Outline.Due, Loc.owesWriters, Writable]
        | _ => cases h
    case readCopy n i =>
      split_ifs at h with hi he
      · cases h
        simp [Outline.Due, Loc.owesWriters]
      · cases ch with
        | copyout ok => cases ok <;> cases h <;> simp [Outline.Due, Loc.owesWriters]
        | _ => cases h
      · cases h
        simp [Outline.Due, Loc.owesWriters]
    case writeSleep n i =>
      cases h
      have hat := hat rfl
      exact ⟨rfl, fun _ hw => hw hat⟩
    case read n => split_ifs at h <;> cases h <;> simp [Outline.Due, Loc.owesWriters]
    case close w =>
      cases w <;> cases h <;> simp [Outline.Due, Loc.owesWriters, Writable, full]
    case closeWakeup w =>
      cases w <;> cases h <;> simp [Outline.Due, Loc.owesWriters]
    all_goals
      cases h
      simp [Outline.Due, Loc.owesWriters]

-- A process that sleeps at one end of the pipe has to, as long as no pipewrite is killed
-- between a byte that it stores into the empty pipe and the wakeup for it.
theorem sleeping_blocked (live : Slot → Bool) (pid : Slot → Int) (data : ℕ → UInt8) {s : Mach client}
    (h : Reaches (Step (Allowed Signalled)) (.start live pid (alloc data)) s) (hfree : s.lock () = none)
    (p : Slot) (hstate : (s.proc p).state = .sleeping) :
    ((s.proc p).chan = some .nread → s.data.nread = s.data.nwrite ∧ s.data.writeopen = true) ∧
    ((s.proc p).chan = some .nwrite →
      s.data.nwrite = s.data.nread + BitVec.ofNat 32 PIPESIZE ∧ s.data.readopen = true) := by
  constructor
  · intro hchan
    have hr := readers_signals.not_of_sleeping signalled_valid trivial h hfree hstate hchan
    obtain ⟨hempty, hopen⟩ := not_not.mp hr
    exact ⟨of_decide_eq_true hempty, hopen⟩
  · intro hchan
    have hw := writers_signals.not_of_sleeping signalled_valid trivial h hfree hstate hchan
    obtain ⟨hfull, hopen⟩ := not_not.mp hw
    exact ⟨of_decide_eq_true hfull, hopen⟩

def readerSleeps : List (Move client) :=
  List.flatten [dispatch second, acts second [(11, .piperead 1)], [.schedule second]]

theorem sleeping_blocked_reader : ∃ s : Mach client,
    Reaches (Step (Allowed Signalled)) (.start (fun _ => true) (fun p => p.val) (alloc fun _ => 0)) s ∧
    s.lock () = none ∧ (s.proc second).state = .sleeping ∧ (s.proc second).chan = some .nread ∧
    s.data.nread = s.data.nwrite ∧ s.data.writeopen = true := by
  obtain ⟨s, hr, hfree, hstate, hchan⟩ := exists_of_run (Q := Allowed Signalled) (l := readerSleeps)
    (s := .start (fun _ => true) (fun p => p.val) (alloc fun _ => 0))
    (P := fun s : Mach client => s.lock () = none ∧ (s.proc second).state = .sleeping ∧
      (s.proc second).chan = some .nread) (by decide +kernel)
  exact ⟨s, hr, hfree, hstate, hchan, (sleeping_blocked _ _ _ hr hfree second hstate).1 hchan⟩

-- A writer stores a byte for the reader and is killed before it stores the second.
def writerKilled : List (Move client) :=
  List.flatten [readerSleeps, dispatch first, acts first [(6, .pipewrite 2), (1, .copyin (some 7))],
    dispatch third, acts third [(5, .kill 0)], acts first [(5, .pipewrite 2)]]

-- The reader then sleeps on a pipe with a byte in it, with everyone else gone.
theorem reader_stranded : ∃ s : Mach client,
    Reaches (Step fun _ _ _ => True) (.start (fun _ => true) (fun p => p.val) (alloc fun _ => 0)) s ∧
    s.lock () = none ∧ (s.proc second).state = .sleeping ∧ (s.proc second).chan = some .nread ∧
    s.data.nread ≠ s.data.nwrite ∧
    s.loc (.proc first) = some .idle ∧ s.loc (.proc third) = some .idle :=
  exists_of_run (l := writerKilled) (by decide +kernel)

-- The points of pipewrite and piperead between killed() and sleep.
def Loc.checked : Loc → Bool
  | .writeFull _ _ _ | .writeSleep _ _ | .readSleep _ => true
  | _ => false

theorem checks : Checks (K := client) (fun _ => true) Loc.checked := by
  intro a l pi ch act h
  change code a l pi ch = some act at h
  cases l <;> simp only [code] at h
  case idle => cases ch <;> cases h <;> exact id
  case write n i due => split_ifs at h <;> cases h <;> exact id
  case writeFull n i due => split_ifs at h <;> (try split at h) <;> cases h <;> exact fun _ => rfl
  case writeSleep | readSleep =>
    cases h
    exact ⟨fun _ => rfl, rfl⟩
  case read n => split_ifs at h <;> cases h <;> exact id
  case readCopy n i => split_ifs at h <;> (try split at h) <;> cases h <;> exact id
  case close writable => split_ifs at h <;> cases h <;> exact id
  all_goals
    cases h
    exact id

end Xv6.PipeBuf
