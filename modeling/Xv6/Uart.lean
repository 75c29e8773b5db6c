import Xv6.Lib.Ring
import Xv6.Sleep.Outline

namespace Xv6

def UART_TX_BUF_SIZE : ℕ := 32

-- The transmit queue of uart.c, with the bytes that uartstart has written to THR and those that uartputc has
-- stored, both in order. A call of uartputc that has stored its byte gives the lock back before anyone else gets it.
structure Uart where
  buf : ℕ → UInt8
  w : BitVec 64
  r : BitVec 64
  thr : List UInt8
  put : List UInt8

namespace Uart

open Sleep Transition
open Sched (first second)

def init (buf : ℕ → UInt8) : Uart := ⟨buf, 0, 0, [], []⟩

def full (u : Uart) : Bool := u.w = u.r + BitVec.ofNat 64 UART_TX_BUF_SIZE

-- uart_tx_buf[uart_tx_w % UART_TX_BUF_SIZE] = c; uart_tx_w += 1;
def store (u : Uart) (c : UInt8) : Uart :=
  { u with
    buf := Function.update u.buf (u.w.toNat % UART_TX_BUF_SIZE) c
    w := u.w + 1
    put := u.put ++ [c] }

-- c = uart_tx_buf[uart_tx_r % UART_TX_BUF_SIZE]; uart_tx_r += 1; and WriteReg(THR, c), which comes after the
-- wakeup in the same critical section
def send (u : Uart) : Uart :=
  { u with
    r := u.r + 1
    thr := u.thr ++ [u.buf (u.r.toNat % UART_TX_BUF_SIZE)] }

inductive Choice
  | uartputc (c : UInt8) | uartintr | kill (pid : Int)
  -- the LSR_TX_IDLE bit
  | lsr (idle : Bool)
  deriving DecidableEq

inductive Loc
  | idle
  | put (c : UInt8)
  | start
  | wakeup
  | release
  deriving DecidableEq

-- The one lock is uart_tx_lock. Only a process may call uartputc. The input that uartintr takes first does not
-- touch the queue.
def code (a : Agent) (l : Loc) (u : Uart) (ch : Choice) : Option (Act Unit Unit Uart Loc) :=
  match l with
  | .idle =>
      match ch with
      | .uartputc c => a.slot.map fun _ => .acquire () (.put c)
      | .uartintr => some (.acquire () .start)
      | .kill pid => some (.kill pid .idle)
      | .lsr _ => none
  -- uartputc
  | .put c => if u.full then some (.sleep () () (.put c)) else some (.data (u.store c) .start)
  -- uartstart
  | .start =>
      if u.w = u.r then some (.data u .release)
      else
        match ch with
        | .lsr true => some (.data u.send .wakeup)
        | .lsr false => some (.data u .release)
        | _ => none
  | .wakeup => some (.wakeup () .start)
  | .release => some (.release () .idle)

abbrev client : Client where
  Lk := Unit
  Chan := Unit
  Data := Uart
  Loc := Loc
  Choice := Choice
  idle := .idle
  code := code

-- uart_tx_buf[r..w)
def buffered (u : Uart) : List UInt8 := Ring.contents UART_TX_BUF_SIZE u.buf u.r u.w

structure Fifo (u : Uart) : Prop where
  room : (u.w - u.r).toNat ≤ UART_TX_BUF_SIZE
  order : u.thr ++ u.buffered = u.put

variable {u : Uart}

theorem full_iff (u : Uart) : u.full = true ↔ (u.w - u.r).toNat = UART_TX_BUF_SIZE := by
  unfold full UART_TX_BUF_SIZE
  rw [decide_eq_true_iff]
  constructor
  · intro h
    rw [h, BitVec.add_comm, BitVec.add_sub_cancel]
    rfl
  · intro h
    have he : u.w - u.r = BitVec.ofNat 64 32 := BitVec.eq_of_toNat_eq h
    rw [← he, BitVec.add_comm, BitVec.sub_add_cancel]

theorem Fifo.store (h : Fifo u) (hfull : u.full = false) (c : UInt8) : Fifo (u.store c) := by
  have hroom : (u.w - u.r).toNat < UART_TX_BUF_SIZE := by
    refine lt_of_le_of_ne h.room fun he => ?_
    rw [(full_iff u).mpr he] at hfull
    cases hfull
  constructor
  · change (u.w + 1 - u.r).toNat ≤ UART_TX_BUF_SIZE
    rw [Ring.toNat_push (lt_of_le_of_lt hroom (by decide))]
    exact hroom
  · change u.thr ++ Ring.contents UART_TX_BUF_SIZE (Function.update u.buf (u.w.toNat % UART_TX_BUF_SIZE) c) u.r
      (u.w + 1) = u.put ++ [c]
    rw [Ring.contents_push (by decide) hroom (by decide), ← List.append_assoc]
    exact congrArg (· ++ [c]) h.order

theorem Fifo.send (h : Fifo u) (hne : u.w ≠ u.r) : Fifo u.send := by
  have hpop := Ring.toNat_pop hne.symm (by decide)
  have hroom := h.room
  constructor
  · change (u.w - (u.r + 1)).toNat ≤ UART_TX_BUF_SIZE
    omega
  · have horder := h.order
    rw [buffered, Ring.contents_pop (by decide) hne.symm (by decide)] at horder
    simpa [Uart.send, buffered] using horder

def Loc.inside : Loc → Bool
  | .idle => false
  | _ => true

def outline : Outline (K := client) () := ⟨Loc.inside, Fifo, fun _ _ => True⟩

theorem outline_valid : outline.Valid (fun _ _ _ _ => True) where
  idle := rfl
  step {a l u ch act} h _hallow hinv _hat := by
    change code a l u ch = some act at h
    cases l <;> simp only [code] at h
    case idle =>
      cases ch <;> cases a <;> cases h <;> simp [Outline.Keeps, Outline.Entry, Outline.Goes, outline, Loc.inside]
    case put c =>
      split_ifs at h with hfull <;> cases h
      · simp [Outline.Keeps, Outline.Entry, outline, Loc.inside]
      · have hstore : Fifo _ := Fifo.store hinv (by simpa using hfull) c
        simpa [Outline.Keeps, Outline.Goes, outline, Loc.inside] using hstore
    case start =>
      split_ifs at h with hempty
      · cases h
        simpa [Outline.Keeps, Outline.Goes, outline, Loc.inside] using hinv
      · have hsend : Fifo _ := Fifo.send hinv hempty
        cases ch with
        | lsr idle =>
            cases idle <;> cases h
            · simpa [Outline.Keeps, Outline.Goes, outline, Loc.inside] using hinv
            · simpa [Outline.Keeps, Outline.Goes, outline, Loc.inside] using hsend
        | _ => cases h
    all_goals
      cases h
      simp [Outline.Keeps, Outline.Goes, outline, Loc.inside]

def Loc.owing : Loc → Bool
  | .wakeup => true
  | _ => false

-- uartstart calls wakeup for every place that it frees.
theorem outline_signals : outline.Signals () (fun u : Uart => u.full = false) Loc.owing (fun _ _ _ _ => True) where
  inside {l} h := by cases l <;> first | rfl | cases h
  step {a l u ch act} h _hallow _hinv _hat := by
    change code a l u ch = some act at h
    cases l <;> simp only [code] at h
    case idle => cases ch <;> cases a <;> cases h <;> simp [Outline.Due, Loc.owing]
    case put c => split_ifs at h with hfull <;> cases h <;> simp [Outline.Due, Loc.owing, hfull]
    case start =>
      split_ifs at h with hempty
      · cases h
        simp [Outline.Due, Loc.owing]
      · cases ch with
        | lsr idle => cases idle <;> cases h <;> simp [Outline.Due, Loc.owing]
        | _ => cases h
    all_goals
      cases h
      simp [Outline.Due, Loc.owing]

end Uart

end Xv6
