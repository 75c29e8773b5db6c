import Xv6.Param
import Mathlib.Logic.Function.Basic

namespace Xv6

open Function (update)

-- A struct proc* is the index of its slot in proc[NPROC].
abbrev Slot := Fin NPROC

inductive ProcState
  | unused | used | sleeping | runnable | running | zombie
  deriving DecidableEq, Repr

-- A process waits for its children on its own address.
inductive Chan
  | null
  | proc (p : Slot)
  | other (n : ℕ)
  deriving DecidableEq, Repr

def Chan.ofProc : Option Slot → Chan
  | none => .null
  | some p => .proc p

-- struct proc without the fields that belong to memory and files. A spin lock
-- is the number of the CPU that holds it.
structure Proc where
  lock : Option ℕ
  state : ProcState
  chan : Chan
  killed : Bool
  xstate : Int
  pid : Int
  parent : Option Slot

def Proc.freeproc (p : Proc) : Proc :=
  { p with state := .unused, chan := .null, killed := false, xstate := 0, pid := 0, parent := none }

namespace Sched

-- Where wakeup returns to.
inductive Ret
  | kernel
  | exitReparent (status : Int) (i : Slot)
  | exitAcquire (status : Int)
  deriving DecidableEq

-- The next action of a kernel thread. kernel is any code that holds neither a
-- p->lock nor wait_lock, user code included.
inductive Pc
  | kernel
  | yieldAcquire (k : Pc) | yieldSet (k : Pc) | yieldSched (k : Pc) | yieldRelease (k : Pc)
  | sleepAcquire (chan : Chan) (inWait : Bool) | sleepUnlock (chan : Chan) (inWait : Bool)
  | sleepSet (chan : Chan) (inWait : Bool) | sleepSched (inWait : Bool)
  | sleepTidy (inWait : Bool) | sleepRelease (inWait : Bool)
  | wakeup (chan : Chan) (i : Slot) (k : Ret) | wakeupTest (chan : Chan) (i : Slot) (k : Ret)
  | wakeupRelease (chan : Chan) (i : Slot) (k : Ret)
  | kill (pid : Int) (i : Slot) | killTest (pid : Int) (i : Slot)
  | killRelease (pid : Int) (i : Slot) | killDone (i : Slot)
  | forkAcquire (i : Slot) | forkTest (i : Slot) | forkSkip (i : Slot) | forkAlloc (np : Slot)
  | forkCopy (np : Slot) | forkFail (np : Slot) | forkRelease (np : Slot) | forkWaitLock (np : Slot)
  | forkParent (np : Slot) | forkWaitUnlock (np : Slot) | forkReacquire (np : Slot)
  | forkRunnable (np : Slot) | forkDone (np : Slot)
  | forkret
  | exitWaitLock (status : Int) | exitReparent (status : Int) (i : Slot) | exitWakeup (status : Int)
  | exitAcquire (status : Int) | exitSet (status : Int) | exitWaitUnlock | exitSched | dead
  | waitLock | waitScan (i : Slot) (havekids : Bool) | waitTest (i : Slot)
  | waitRelease (i : Slot) | waitSkip (i : Slot) | waitKilled | waitKilledTest
  | waitKilledRelease (killed : Bool) | waitUnlock
  deriving DecidableEq

inductive Choice
  | ok | fail
  | yield
  | sleep (n : ℕ)
  | wakeup (n : ℕ)
  | kill (pid : Int)
  | fork
  | exit (status : Int)
  | wait

-- One action: a lock operation, a change to one slot of the table, or swtch.
inductive Instr
  | goto (pc : Pc)
  | acquire (q : Slot) (pc : Pc)
  | release (q : Slot) (pc : Pc)
  | acquireWait (pc : Pc)
  | releaseWait (pc : Pc)
  | update (q : Slot) (f : Proc → Proc) (pc : Pc)
  | allocproc (q : Slot) (pc : Pc)
  | swtch (pc : Pc)

inductive CpuPc
  | acquire (i : Slot)
  | test (i : Slot)
  | switched (i : Slot)
  | back (i : Slot)
  | release (i : Slot)
  deriving DecidableEq

-- cpuPc is the scheduler thread of a CPU; at switched the CPU runs the thread
-- of that process. pc is the saved context of each process.
structure Sys where
  proc : Slot → Proc
  pc : Slot → Pc
  waitLock : Option ℕ
  nextpid : Int
  initproc : Slot
  cpuPc : ℕ → CpuPc
  cpuProc : ℕ → Option Slot

def first : Slot := ⟨0, by decide⟩

def second : Slot := ⟨1, by decide⟩

def third : Slot := ⟨2, by decide⟩

def next (i : Slot) : Option Slot := if h : i.val + 1 < NPROC then some ⟨i.val + 1, h⟩ else none

theorem lt_next {i j : Slot} (h : next i = some j) (k : Slot) : k < j ↔ k ≤ i := by
  unfold next at h
  split at h
  · cases h
    rw [Fin.lt_def, Fin.le_def]
    exact Nat.lt_succ_iff
  · cases h

theorem le_of_next_none {i : Slot} (h : next i = none) (k : Slot) : k ≤ i := by
  unfold next at h
  split at h
  · cases h
  · have := k.isLt
    rw [Fin.le_def]
    omega

theorem lt_or_eq_slot {i j : Slot} (h : i ≤ j) : i < j ∨ i = j :=
  (Nat.lt_or_eq_of_le h).imp id Fin.ext

theorem not_lt_first (j : Slot) : ¬j < first := Nat.not_lt_zero j.val

def reparentNext (status : Int) (i : Slot) : Pc :=
  match next i with
  | some j => .exitReparent status j
  | none => .exitWakeup status

def wakeupFrom (chan : Chan) (k : Ret) : Option Slot → Pc
  | some i => .wakeup chan i k
  | none =>
      match k with
      | .kernel => .kernel
      | .exitReparent status i => reparentNext status i
      | .exitAcquire status => .exitAcquire status

def Pc.holdsWait : Pc → Bool
  | .forkParent _ | .forkWaitUnlock _ => true
  | .exitReparent _ _ | .exitWakeup _ | .exitAcquire _ | .exitSet _ | .exitWaitUnlock => true
  | .wakeup _ _ k | .wakeupTest _ _ k | .wakeupRelease _ _ k => decide (k ≠ .kernel)
  | .waitScan _ _ | .waitTest _ | .waitRelease _ | .waitSkip _ => true
  | .waitKilled | .waitKilledTest | .waitKilledRelease _ | .waitUnlock => true
  | .sleepAcquire _ w | .sleepUnlock _ w => w
  | _ => false

-- The p->lock that a thread of process p holds there.
def Pc.held (p : Slot) : Pc → Option Slot
  | .yieldSet _ | .yieldSched _ | .yieldRelease _ => some p
  | .sleepUnlock _ _ | .sleepSet _ _ | .sleepSched _ | .sleepTidy _ | .sleepRelease _ => some p
  | .wakeupTest _ i _ | .wakeupRelease _ i _ => some i
  | .killTest _ i | .killRelease _ i | .killDone i => some i
  | .forkTest i | .forkSkip i | .forkAlloc i | .forkCopy i | .forkFail i | .forkRelease i => some i
  | .forkRunnable i | .forkDone i => some i
  | .forkret => some p
  | .exitSet _ | .exitWaitUnlock | .exitSched => some p
  | .waitTest i | .waitRelease i | .waitSkip i => some i
  | .waitKilledTest | .waitKilledRelease _ => some p
  | _ => none

-- Interrupts are on, so the timer may call yield there.
def Pc.interruptible (p : Slot) (pc : Pc) : Bool :=
  (pc.held p).isNone && !pc.holdsWait && decide (pc ≠ .dead)

def scanNext (i : Slot) (havekids : Bool) : Pc :=
  match next i with
  | some j => .waitScan j havekids
  | none => if havekids then .waitKilled else .waitUnlock

-- A 32-bit int after an increment.
def wrapInt (n : Int) : Int := (n + 2 ^ 31) % 2 ^ 32 - 2 ^ 31

namespace Sys

def code (s : Sys) (p : Slot) (ch : Choice) : Option Instr :=
  match s.pc p with
  | .kernel =>
      match ch with
      | .sleep n => some (.goto (.sleepAcquire (.other n) false))
      | .wakeup n => some (.goto (.wakeup (.other n) first .kernel))
      | .kill pid => some (.goto (.kill pid first))
      | .fork => some (.goto (.forkAcquire first))
      | .exit status => if p = s.initproc then none else some (.goto (.exitWaitLock status))
      | .wait => some (.goto .waitLock)
      | _ => none
  | .yieldAcquire k => some (.acquire p (.yieldSet k))
  | .yieldSet k => some (.update p (fun q => { q with state := .runnable }) (.yieldSched k))
  | .yieldSched k => some (.swtch (.yieldRelease k))
  | .yieldRelease k => some (.release p k)
  | .sleepAcquire chan w => some (.acquire p (.sleepUnlock chan w))
  | .sleepUnlock chan true => some (.releaseWait (.sleepSet chan true))
  | .sleepUnlock chan false => some (.goto (.sleepSet chan false))
  | .sleepSet chan w =>
      some (.update p (fun q => { q with chan := chan, state := .sleeping }) (.sleepSched w))
  | .sleepSched w => some (.swtch (.sleepTidy w))
  | .sleepTidy w => some (.update p (fun q => { q with chan := .null }) (.sleepRelease w))
  | .sleepRelease w => some (.release p (if w then .waitLock else .kernel))
  | .wakeup chan i k =>
      if i = p then some (.goto (wakeupFrom chan k (next i)))
      else some (.acquire i (.wakeupTest chan i k))
  | .wakeupTest chan i k =>
      if (s.proc i).state = .sleeping ∧ (s.proc i).chan = chan then
        some (.update i (fun q => { q with state := .runnable }) (.wakeupRelease chan i k))
      else some (.goto (.wakeupRelease chan i k))
  | .wakeupRelease chan i k => some (.release i (wakeupFrom chan k (next i)))
  | .kill pid i => some (.acquire i (.killTest pid i))
  | .killTest pid i =>
      if (s.proc i).pid = pid then
        some (.update i (fun q => { q with
          killed := true
          state := if q.state = .sleeping then .runnable else q.state }) (.killDone i))
      else some (.goto (.killRelease pid i))
  | .killRelease pid i =>
      match next i with
      | some j => some (.release i (.kill pid j))
      | none => some (.release i .kernel)
  | .killDone i => some (.release i .kernel)
  | .forkAcquire i => some (.acquire i (.forkTest i))
  | .forkTest i =>
      if (s.proc i).state = .unused then some (.allocproc i (.forkAlloc i))
      else some (.goto (.forkSkip i))
  | .forkSkip i =>
      match next i with
      | some j => some (.release i (.forkAcquire j))
      | none => some (.release i .kernel)
  | .forkAlloc np =>
      match ch with
      | .ok => some (.goto (.forkCopy np))
      | .fail => some (.update np Proc.freeproc (.forkFail np))
      | _ => none
  | .forkCopy np =>
      match ch with
      | .ok => some (.goto (.forkRelease np))
      | .fail => some (.update np Proc.freeproc (.forkFail np))
      | _ => none
  | .forkFail np => some (.release np .kernel)
  | .forkRelease np => some (.release np (.forkWaitLock np))
  | .forkWaitLock np => some (.acquireWait (.forkParent np))
  | .forkParent np => some (.update np (fun q => { q with parent := some p }) (.forkWaitUnlock np))
  | .forkWaitUnlock np => some (.releaseWait (.forkReacquire np))
  | .forkReacquire np => some (.acquire np (.forkRunnable np))
  | .forkRunnable np => some (.update np (fun q => { q with state := .runnable }) (.forkDone np))
  | .forkDone np => some (.release np .kernel)
  | .forkret => some (.release p .kernel)
  | .exitWaitLock status => some (.acquireWait (.exitReparent status first))
  | .exitReparent status i =>
      if (s.proc i).parent = some p then
        some (.update i (fun q => { q with parent := some s.initproc })
          (.wakeup (.proc s.initproc) first (.exitReparent status i)))
      else some (.goto (reparentNext status i))
  | .exitWakeup status =>
      some (.goto (.wakeup (.ofProc (s.proc p).parent) first (.exitAcquire status)))
  | .exitAcquire status => some (.acquire p (.exitSet status))
  | .exitSet status =>
      some (.update p (fun q => { q with xstate := status, state := .zombie }) .exitWaitUnlock)
  | .exitWaitUnlock => some (.releaseWait .exitSched)
  | .exitSched => some (.swtch .dead)
  | .dead => none
  | .waitLock => some (.acquireWait (.waitScan first false))
  | .waitScan i havekids =>
      if (s.proc i).parent = some p then some (.acquire i (.waitTest i))
      else some (.goto (scanNext i havekids))
  | .waitTest i =>
      if (s.proc i).state = .zombie then
        match ch with
        | .ok => some (.update i Proc.freeproc (.waitRelease i))
        | .fail => some (.goto (.waitRelease i))
        | _ => none
      else some (.goto (.waitSkip i))
  | .waitRelease i => some (.release i .waitUnlock)
  | .waitSkip i => some (.release i (scanNext i true))
  | .waitKilled => some (.acquire p .waitKilledTest)
  | .waitKilledTest => some (.goto (.waitKilledRelease (s.proc p).killed))
  | .waitKilledRelease killed =>
      some (.release p (if killed then .waitUnlock else .sleepAcquire (.proc p) true))
  | .waitUnlock => some (.releaseWait .kernel)

def goto (s : Sys) (p : Slot) (pc : Pc) : Sys := { s with pc := update s.pc p pc }

def setProc (s : Sys) (q : Slot) (f : Proc → Proc) : Sys :=
  { s with proc := update s.proc q { f (s.proc q) with lock := (s.proc q).lock } }

def setLock (s : Sys) (q : Slot) (holder : Option ℕ) : Sys :=
  { s with proc := update s.proc q { s.proc q with lock := holder } }

-- CPU c carries out an action of process p; none while a lock is not free.
def exec (s : Sys) (c : ℕ) (p : Slot) : Instr → Option Sys
  | .goto pc => some (s.goto p pc)
  | .acquire q pc => if (s.proc q).lock = none then some ((s.setLock q (some c)).goto p pc) else none
  | .release q pc => some ((s.setLock q none).goto p pc)
  | .acquireWait pc =>
      if s.waitLock = none then some ({ s with waitLock := some c }.goto p pc) else none
  | .releaseWait pc => some ({ s with waitLock := none }.goto p pc)
  | .update q f pc => some ((s.setProc q f).goto p pc)
  | .allocproc q pc =>
      let s' := s.setProc q fun r => { r with pid := s.nextpid, state := .used }
      some (({ s' with nextpid := wrapInt (s.nextpid + 1) }.goto q .forkret).goto p pc)
  | .swtch pc => some ({ s with cpuPc := update s.cpuPc c (.back p) }.goto p pc)

-- scheduler()
def schedule (s : Sys) (c : ℕ) : Option Sys :=
  match s.cpuPc c with
  | .acquire i =>
      if (s.proc i).lock = none then
        some { s.setLock i (some c) with cpuPc := update s.cpuPc c (.test i) }
      else none
  | .test i =>
      if (s.proc i).state = .runnable then
        some { s.setProc i (fun q => { q with state := .running }) with
          cpuPc := update s.cpuPc c (.switched i)
          cpuProc := update s.cpuProc c (some i) }
      else some { s with cpuPc := update s.cpuPc c (.release i) }
  | .switched _ => none
  | .back i =>
      some { s with
        cpuPc := update s.cpuPc c (.release i)
        cpuProc := update s.cpuProc c none }
  | .release i =>
      some { s.setLock i none with
        cpuPc := update s.cpuPc c (.acquire ((next i).getD first)) }

def step (s : Sys) (c : ℕ) (ch : Choice) : Option Sys :=
  match s.cpuPc c with
  | .switched p =>
      if ch matches .yield then
        if (s.pc p).interruptible p then some (s.goto p (.yieldAcquire (s.pc p))) else none
      else s.code p ch >>= s.exec c p
  | _ => s.schedule c

-- After userinit, with every CPU at the top of scheduler().
def boot : Sys where
  proc := fun i =>
    if i = first then ⟨none, .runnable, .null, false, 0, 1, none⟩
    else ⟨none, .unused, .null, false, 0, 0, none⟩
  pc := fun i => if i = first then .forkret else .dead
  waitLock := none
  nextpid := 2
  initproc := first
  cpuPc := fun _ => .acquire first
  cpuProc := fun _ => none

end Sys

def Step (s t : Sys) : Prop := ∃ c ch, s.step c ch = some t

end Sched

end Xv6
