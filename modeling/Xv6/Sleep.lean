import Xv6.Proc

namespace Xv6.Sleep

open Sched (first)
open Function (update)

-- Who runs code: the thread of a process, or an interrupt handler.
inductive Agent
  | proc (p : Slot)
  | intr (n : ℕ)
  deriving DecidableEq, Repr

-- myproc()
def Agent.slot : Agent → Option Slot
  | .proc p => some p
  | .intr _ => none

-- What code that uses sleep and wakeup may do next: change its data, take or give back
-- a spin lock, or call a function of proc.c.
inductive Act (Lk Chan Data Loc : Type)
  | data (d : Data) (l : Loc)
  | acquire (lk : Lk) (l : Loc)
  | release (lk : Lk) (l : Loc)
  | killed (yes no : Loc)
  | sleep (chan : Chan) (lk : Lk) (l : Loc)
  | wakeup (chan : Chan) (l : Loc)
  | kill (pid : Int) (l : Loc)

-- Code that uses sleep and wakeup. A Loc is a program point with the local variables, a
-- Choice what the code does not determine.
structure Client where
  Lk : Type
  Chan : Type
  Data : Type
  Loc : Type
  Choice : Type
  [decLk : DecidableEq Lk]
  [decChan : DecidableEq Chan]
  idle : Loc
  code : Agent → Loc → Data → Choice → Option (Act Lk Chan Data Loc)

attribute [instance] Client.decLk Client.decChan

-- The holder of a p->lock.
inductive Holder
  | agent (a : Agent)
  | scheduler
  deriving DecidableEq

structure Proc (K : Client) where
  lock : Option Holder
  state : ProcState
  chan : Option K.Chan
  killed : Bool
  pid : Int

inductive Ctl (K : Client)
  | run (l : K.Loc)
  | killedAcquire (yes no : K.Loc) | killedTest (yes no : K.Loc) | killedRelease (k : Bool) (yes no : K.Loc)
  | sleepAcquire (chan : K.Chan) (lk : K.Lk) (l : K.Loc) | sleepUnlock (chan : K.Chan) (lk : K.Lk) (l : K.Loc)
  | sleepSet (chan : K.Chan) (lk : K.Lk) (l : K.Loc) | sleepSched (lk : K.Lk) (l : K.Loc)
  | sleepTidy (lk : K.Lk) (l : K.Loc) | sleepRelease (lk : K.Lk) (l : K.Loc) | sleepRelock (lk : K.Lk) (l : K.Loc)
  | wakeup (chan : K.Chan) (i : Slot) (l : K.Loc) | wakeupTest (chan : K.Chan) (i : Slot) (l : K.Loc)
  | wakeupRelease (chan : K.Chan) (i : Slot) (l : K.Loc)
  | kill (pid : Int) (i : Slot) (l : K.Loc) | killTest (pid : Int) (i : Slot) (l : K.Loc)
  | killRelease (pid : Int) (i : Slot) (l : K.Loc) | killDone (i : Slot) (l : K.Loc)
  | forkret (l : K.Loc)

inductive Yield
  | acquire | set | sched | release
  deriving DecidableEq

-- The timer may have interrupted a thread, which then is in yield.
structure Pc (K : Client) where
  ctl : Ctl K
  yield : Option Yield

-- Some CPU's scheduler loop, at the slot of a process.
inductive SchedPc
  | idle | test | running | back
  deriving DecidableEq

structure Mach (K : Client) where
  proc : Slot → Proc K
  sched : Slot → SchedPc
  pc : Agent → Pc K
  lock : K.Lk → Option Agent
  data : K.Data

inductive Op (K : Client)
  | goto (pc : Pc K)
  | data (d : K.Data) (pc : Pc K)
  | acquire (lk : K.Lk) (pc : Pc K)
  | release (lk : K.Lk) (pc : Pc K)
  | lockProc (q : Slot) (pc : Pc K)
  | unlockProc (q : Slot) (pc : Pc K)
  | update (q : Slot) (f : Proc K → Proc K) (pc : Pc K)
  | swtch (p : Slot) (pc : Pc K)

variable {K : Client}

def Op.pc : Op K → Pc K
  | .goto pc | .data _ pc | .acquire _ pc | .release _ pc => pc
  | .lockProc _ pc | .unlockProc _ pc | .update _ _ pc | .swtch _ pc => pc

-- The p->lock that an agent holds there.
def Ctl.held (own : Option Slot) : Ctl K → Option Slot
  | .killedTest _ _ | .killedRelease _ _ _ => own
  | .sleepUnlock _ _ _ | .sleepSet _ _ _ | .sleepSched _ _ | .sleepTidy _ _ | .sleepRelease _ _ => own
  | .wakeupTest _ i _ | .wakeupRelease _ i _ => some i
  | .killTest _ i _ | .killRelease _ i _ | .killDone i _ => some i
  | .forkret _ => own
  | _ => none

def wakeupFrom (chan : K.Chan) (l : K.Loc) : Option Slot → Ctl K
  | some i => .wakeup chan i l
  | none => .run l

def killFrom (pid : Int) (l : K.Loc) : Option Slot → Ctl K
  | some i => .kill pid i l
  | none => .run l

namespace Mach

-- What client code does next. Only processes have a p->killed and can sleep.
def call (a : Agent) : Act K.Lk K.Chan K.Data K.Loc → Option (Op K)
  | .data d l => some (.data d ⟨.run l, none⟩)
  | .acquire lk l => some (.acquire lk ⟨.run l, none⟩)
  | .release lk l => some (.release lk ⟨.run l, none⟩)
  | .killed yes no => a.slot.map fun _ => .goto ⟨.killedAcquire yes no, none⟩
  | .sleep chan lk l => a.slot.map fun _ => .goto ⟨.sleepAcquire chan lk l, none⟩
  | .wakeup chan l => some (.goto ⟨.wakeup chan first l, none⟩)
  | .kill pid l => some (.goto ⟨.kill pid first l, none⟩)

def code (s : Mach K) (a : Agent) (ch : K.Choice) : Option (Op K) :=
  match (s.pc a).yield with
  | some y =>
      a.slot.map fun p =>
        match y with
        | .acquire => .lockProc p ⟨(s.pc a).ctl, some .set⟩
        | .set => .update p (fun q => { q with state := .runnable }) ⟨(s.pc a).ctl, some .sched⟩
        | .sched => .swtch p ⟨(s.pc a).ctl, some .release⟩
        | .release => .unlockProc p ⟨(s.pc a).ctl, none⟩
  | none =>
      match (s.pc a).ctl with
      | .run l => (K.code a l s.data ch).bind (call a)
      | .killedAcquire yes no => a.slot.map fun p => .lockProc p ⟨.killedTest yes no, none⟩
      | .killedTest yes no => a.slot.map fun p => .goto ⟨.killedRelease (s.proc p).killed yes no, none⟩
      | .killedRelease k yes no => a.slot.map fun p => .unlockProc p ⟨.run (if k then yes else no), none⟩
      | .sleepAcquire chan lk l => a.slot.map fun p => .lockProc p ⟨.sleepUnlock chan lk l, none⟩
      | .sleepUnlock chan lk l => some (.release lk ⟨.sleepSet chan lk l, none⟩)
      | .sleepSet chan lk l =>
          a.slot.map fun p =>
            .update p (fun q => { q with chan := some chan, state := .sleeping }) ⟨.sleepSched lk l, none⟩
      | .sleepSched lk l => a.slot.map fun p => .swtch p ⟨.sleepTidy lk l, none⟩
      | .sleepTidy lk l => a.slot.map fun p => .update p (fun q => { q with chan := none }) ⟨.sleepRelease lk l, none⟩
      | .sleepRelease lk l => a.slot.map fun p => .unlockProc p ⟨.sleepRelock lk l, none⟩
      | .sleepRelock lk l => some (.acquire lk ⟨.run l, none⟩)
      | .wakeup chan i l =>
          if a = .proc i then some (.goto ⟨wakeupFrom chan l (Sched.next i), none⟩)
          else some (.lockProc i ⟨.wakeupTest chan i l, none⟩)
      | .wakeupTest chan i l =>
          if (s.proc i).state = .sleeping ∧ (s.proc i).chan = some chan then
            some (.update i (fun q => { q with state := .runnable }) ⟨.wakeupRelease chan i l, none⟩)
          else some (.goto ⟨.wakeupRelease chan i l, none⟩)
      | .wakeupRelease chan i l => some (.unlockProc i ⟨wakeupFrom chan l (Sched.next i), none⟩)
      | .kill pid i l => some (.lockProc i ⟨.killTest pid i l, none⟩)
      | .killTest pid i l =>
          if (s.proc i).pid = pid then
            some (.update i (fun q => { q with
              killed := true
              state := if q.state = .sleeping then .runnable else q.state }) ⟨.killDone i l, none⟩)
          else some (.goto ⟨.killRelease pid i l, none⟩)
      | .killRelease pid i l => some (.unlockProc i ⟨killFrom pid l (Sched.next i), none⟩)
      | .killDone i l => some (.unlockProc i ⟨.run l, none⟩)
      | .forkret l => a.slot.map fun p => .unlockProc p ⟨.run l, none⟩

def goto (s : Mach K) (a : Agent) (pc : Pc K) : Mach K := { s with pc := update s.pc a pc }

def setProc (s : Mach K) (q : Slot) (f : Proc K → Proc K) : Mach K :=
  { s with proc := update s.proc q (f (s.proc q)) }

def setLock (s : Mach K) (q : Slot) (holder : Option Holder) : Mach K :=
  s.setProc q fun r => { r with lock := holder }

-- none while a lock is not free; release of a lock that is not held panics.
def exec (s : Mach K) (a : Agent) : Op K → Option (Mach K)
  | .goto pc => some (s.goto a pc)
  | .data d pc => some ({ s with data := d }.goto a pc)
  | .acquire lk pc =>
      if s.lock lk = none then some ({ s with lock := update s.lock lk (some a) }.goto a pc) else none
  | .release lk pc =>
      if s.lock lk = some a then some ({ s with lock := update s.lock lk none }.goto a pc) else none
  | .lockProc q pc => if (s.proc q).lock = none then some ((s.setLock q (some (.agent a))).goto a pc) else none
  | .unlockProc q pc => some ((s.setLock q none).goto a pc)
  | .update q f pc => some ((s.setProc q fun r => { f r with lock := r.lock }).goto a pc)
  | .swtch p pc =>
      some ({ s.setLock p (some .scheduler) with sched := update s.sched p .back }.goto a pc)

-- scheduler()
def schedule (s : Mach K) (p : Slot) : Option (Mach K) :=
  match s.sched p with
  | .idle =>
      if (s.proc p).lock = none then
        some { s.setLock p (some .scheduler) with sched := update s.sched p .test }
      else none
  | .test =>
      if (s.proc p).state = .runnable then
        some { s.setProc p (fun q => { q with state := .running, lock := some (.agent (.proc p)) }) with
          sched := update s.sched p .running }
      else some { s with sched := update s.sched p .back }
  | .running => none
  | .back => some { s.setLock p none with sched := update s.sched p .idle }

-- The point of the client's code that a is at, if it is in it.
def loc (s : Mach K) (a : Agent) : Option K.Loc :=
  match (s.pc a).yield, (s.pc a).ctl with
  | none, .run l => some l
  | _, _ => none

def next (s : Mach K) (a : Agent) (ch : K.Choice) : Option (Act K.Lk K.Chan K.Data K.Loc) :=
  (s.loc a).bind fun l => K.code a l s.data ch

def act (s : Mach K) (a : Agent) (ch : K.Choice) : Option (Mach K) := (s.code a ch).bind (s.exec a)

def Runs (s : Mach K) : Agent → Prop
  | .proc p => s.sched p = .running
  | .intr _ => True

instance (s : Mach K) (a : Agent) : Decidable (s.Runs a) := by
  cases a <;> unfold Runs <;> infer_instance

-- Any processes and any data, with every lock free.
def start (live : Slot → Bool) (pid : Slot → Int) (d : K.Data) : Mach K where
  proc p := ⟨none, if live p then .runnable else .unused, none, false, pid p⟩
  sched _ := .idle
  pc
    | .proc _ => ⟨.forkret K.idle, none⟩
    | .intr _ => ⟨.run K.idle, none⟩
  lock _ := none
  data := d

end Mach

-- One step: an action that Q allows of an agent that has a CPU, one of a scheduler, a timer
-- interrupt of a thread that holds no lock, or the use of the slot of an idle process for another.
inductive Step (Q : Mach K → Agent → K.Choice → Prop) (s : Mach K) : Mach K → Prop
  | act {t : Mach K} (a : Agent) (ch : K.Choice) (hrun : s.Runs a) (hq : Q s a ch) (h : s.act a ch = some t) :
      Step Q s t
  | schedule {t : Mach K} (p : Slot) (h : s.schedule p = some t) : Step Q s t
  | timer (p : Slot) (hrun : s.sched p = .running) (hyield : (s.pc (.proc p)).yield = none)
      (hheld : (s.pc (.proc p)).ctl.held (some p) = none) (hlock : ∀ lk, s.lock lk ≠ some (.proc p)) :
      Step Q s (s.goto (.proc p) ⟨(s.pc (.proc p)).ctl, some .acquire⟩)
  | renew (p : Slot) (pid : Int) (hidle : (s.pc (.proc p)).ctl = .run K.idle) (hfree : (s.proc p).lock = none) :
      Step Q s (s.setProc p fun q => { q with killed := false, pid := pid })

inductive Move (K : Client)
  | act (a : Agent) (ch : K.Choice)
  | schedule (p : Slot)

def dispatch (p : Slot) : List (Move K) := [.schedule p, .schedule p]

def acts (p : Slot) (l : List (ℕ × K.Choice)) : List (Move K) :=
  l.flatMap fun nc => List.replicate nc.1 (.act (.proc p) nc.2)

def Mach.move (Q : Mach K → Agent → K.Choice → Prop) [∀ s a ch, Decidable (Q s a ch)] (s : Mach K) :
    Move K → Option (Mach K)
  | .act a ch => if s.Runs a ∧ Q s a ch then s.act a ch else none
  | .schedule p => s.schedule p

end Xv6.Sleep
