import Mathlib.Algebra.Ring.Nat
import Mathlib.Data.Nat.Notation
import Mathlib.Logic.Function.Basic
import XMach.Lib.Machine

/-!
# Sleep and wakeup

`synch_prim.c` of the Lites server: a thread waits for a condition with `pk_condition_wait`, for a
channel with `tsleep_abs`, and is woken by the resource, by a timeout, by a signal or because its
process exits. A step is a section under the mutex of the resource (the master mutex for a channel),
under `pk->lock`, or of the timer. The clock is a number of ticks, and the timer takes the expired
elements in any order.
-/

namespace XMach.Sleep

open Function

/-- The events of a thread, `PKW_TIMEOUT`, `PKW_SIGNAL` and `PKW_EXIT`, and masks for them. -/
structure Events where
  timeout : Bool
  signal : Bool
  exit : Bool
  deriving DecidableEq

namespace Events

def none : Events := ⟨false, false, false⟩

/-- `e & ~mask` -/
def without (e mask : Events) : Events :=
  ⟨e.timeout && !mask.timeout, e.signal && !mask.signal, e.exit && !mask.exit⟩

def any (e : Events) : Bool := e.timeout || e.signal || e.exit

end Events

/-- What `pk_wakeup` is called with, except by the timer. -/
inductive Event
  | signal | exit
  deriving DecidableEq

def Events.raise (e : Events) : Event → Events
  | .signal => { e with signal := true }
  | .exit => { e with exit := true }

def ppause : ℕ := 40

/-- The events that `tsleep_abs` ignores, from the low byte and the `PCATCH` bit of the priority. -/
def priMask (pri : ℕ) : Events :=
  ⟨false, !pri.testBit 8, decide (pri % 2 ^ 8 ≠ ppause) && !pri.testBit 8⟩

/-- `SLEEP_HASH` -/
def sleepHash (chan : ℕ) : Fin 64 := ⟨chan / 2 ^ 16 % 64, Nat.mod_lt _ (by decide)⟩

/-- A channel for `tsleep_abs`, or a resource with its own mutex and condition. -/
inductive Place (R : Type*)
  | chan (c : ℕ)
  | resource (r : R)
  deriving DecidableEq

inductive Cond (R : Type*)
  | sleep (i : Fin 64)
  | resource (r : R)
  deriving DecidableEq

inductive Mutex (R : Type*)
  | master
  | resource (r : R)
  deriving DecidableEq

variable {T R : Type*}

def Place.cond : Place R → Cond R
  | .chan c => .sleep (sleepHash c)
  | .resource r => .resource r

def Place.mutex : Place R → Mutex R
  | .chan _ => .master
  | .resource r => .resource r

/-- A call: `pk_condition_wait`, or `tsleep_abs`, which repeats it. -/
structure Wait (R : Type*) where
  place : Place R
  timeout : Option ℕ
  mask : Events

inductive Err
  | success | wouldBlock | justReturn | restart
  deriving DecidableEq

inductive Phase (R : Type*)
  | out
  /-- at the start of `pk_condition_wait` -/
  | enter (w : Wait R)
  /-- the timer element is active, if there is a timeout -/
  | armed (w : Wait R)
  /-- in the condition, or signalled and without the mutex -/
  | blocked (w : Wait R)
  /-- has found events and released `pk->lock` -/
  | seen (w : Wait R) (events : Events)
  /-- before `timer_element_deactivate` -/
  | leaving (w : Wait R) (err : Err)
  | returned (w : Wait R) (err : Err)

/-- A `proc_invocation`. -/
structure Pk (R : Type*) where
  /-- `k_wchan` -/
  wchan : Option ℕ
  event : Events
  /-- the pointer for `pk_wakeup` -/
  condition : Option (Cond R)
  /-- the timeout of the element on the timer queue -/
  telt : Option ℕ
  phase : Phase R

structure State (T R : Type*) where
  pk : T → Pk R
  sleepQueue : Fin 64 → List T
  /-- the queue of each condition -/
  waiters : Cond R → List T
  holder : Mutex R → Option T
  now : ℕ
  /-- the thread whose element the timer has removed and whose function it has not called yet -/
  popped : Option T

variable [DecidableEq T] [DecidableEq R]

namespace State

def put (s : State T R) (t : T) (pk : Pk R) : State T R := { s with pk := update s.pk t pk }

def setHolder (s : State T R) (m : Mutex R) (h : Option T) : State T R :=
  { s with holder := update s.holder m h }

def setQueue (s : State T R) (i : Fin 64) (q : List T) : State T R :=
  { s with sleepQueue := update s.sleepQueue i q }

def setWaiters (s : State T R) (c : Cond R) (q : List T) : State T R :=
  { s with waiters := update s.waiters c q }

/-- `tsleep_abs`, up to the loop. -/
def tsleepAbs (s : State T R) (t : T) (chan pri : ℕ) (timeout : Option ℕ) : State T R :=
  (s.setQueue (sleepHash chan) (s.sleepQueue (sleepHash chan) ++ [t])).put t
    { s.pk t with wchan := some chan, phase := .enter ⟨.chan chan, timeout, priMask pri⟩ }

/-- `timer_element_activate`, which may find the element expired. -/
def activate (s : State T R) (t : T) (w : Wait R) : State T R :=
  match w.timeout with
  | none => s.put t { s.pk t with phase := .armed w }
  | some d =>
    if d < s.now then s.put t { s.pk t with phase := .returned w .wouldBlock }
    else s.put t { s.pk t with telt := some d, phase := .armed w }

/-- The section under `pk->lock`; `condition_wait_unlock` releases both mutexes. -/
def checkEvents (s : State T R) (t : T) (w : Wait R) : State T R :=
  let events := (s.pk t).event.without w.mask
  if events.any then s.put t { s.pk t with phase := .seen w events }
  else
    ((s.setWaiters w.place.cond (s.waiters w.place.cond ++ [t])).setHolder w.place.mutex none).put t
      { s.pk t with condition := some w.place.cond, phase := .blocked w }

/-- The error for the events that were found, and which of them is cleared. -/
def consume (s : State T R) (t : T) (w : Wait R) (events : Events) : State T R :=
  let pk := s.pk t
  if events.timeout then
    s.put t { pk with event := { pk.event with timeout := false }, phase := .leaving w .wouldBlock }
  else if events.exit then s.put t { pk with phase := .leaving w .justReturn }
  else s.put t { pk with event := { pk.event with signal := false }, phase := .leaving w .restart }

/-- A thread that was signalled has the mutex again. -/
def resume (s : State T R) (t : T) (w : Wait R) : State T R :=
  (s.setHolder w.place.mutex (some t)).put t { s.pk t with
    condition := none
    phase := .leaving w .success }

def deactivate (s : State T R) (t : T) (w : Wait R) (err : Err) : State T R :=
  s.put t { s.pk t with telt := none, phase := .returned w err }

/-- The loop of `tsleep_abs` and what follows it; `pk_condition_wait` itself just returns. -/
def finish (s : State T R) (t : T) (w : Wait R) (err : Err) : State T R :=
  match w.place, (s.pk t).wchan with
  | .chan c, some _ =>
    if err = .success then s.put t { s.pk t with phase := .enter w }
    else
      (s.setQueue (sleepHash c) ((s.sleepQueue (sleepHash c)).erase t)).put t
        { s.pk t with wchan := none, phase := .out }
  | _, _ => s.put t { s.pk t with phase := .out }

def wakeup (s : State T R) (chan : ℕ) : State T R :=
  let i := sleepHash chan
  let woken (t : T) : Bool := (s.pk t).wchan = some chan
  if (s.sleepQueue i).any woken then
    { (s.setQueue i ((s.sleepQueue i).filter (!woken ·))).setWaiters (.sleep i) [] with
      pk := fun t => if t ∈ s.sleepQueue i ∧ woken t then { s.pk t with wchan := none }
        else s.pk t }
  else s

/-- The thread is removed from the queue; its condition is not signalled. -/
def threadUnsleep (s : State T R) (u : T) : State T R :=
  match (s.pk u).wchan with
  | none => s
  | some c =>
    (s.setQueue (sleepHash c) ((s.sleepQueue (sleepHash c)).erase u)).put u
      { s.pk u with wchan := none }

/-- The part of `pk_wakeup` after the event is set: `condition_signal_cthread`. -/
def signalThread (s : State T R) (u : T) : State T R :=
  match (s.pk u).condition with
  | none => s
  | some c => s.setWaiters c ((s.waiters c).erase u)

def pkWakeup (s : State T R) (u : T) (e : Event) : State T R :=
  (s.put u { s.pk u with event := (s.pk u).event.raise e }).signalThread u

def pkWakeupFromTimer (s : State T R) (u : T) : State T R :=
  (s.put u { s.pk u with event := { (s.pk u).event with timeout := true } }).signalThread u

end State

inductive Act (T R : Type*)
  | lock (t : T) (m : Mutex R)
  | unlock (t : T) (m : Mutex R)
  /-- `server_thread_register` clears the events -/
  | register (t : T)
  | tsleepAbs (t : T) (chan pri : ℕ) (timeout : Option ℕ)
  | pkConditionWait (t : T) (r : R) (timeout : Option ℕ) (mask : Events)
  | activate (t : T)
  | checkEvents (t : T)
  | consume (t : T)
  | resume (t : T)
  | deactivate (t : T)
  | finish (t : T)
  | wakeup (t : T) (chan : ℕ)
  | threadUnsleep (t u : T)
  | signal (t : T) (r : R)
  | broadcast (t : T) (r : R)
  | pkWakeup (u : T) (e : Event)
  | tick (n : ℕ)
  /-- the timer removes an expired element -/
  | pop (u : T)
  /-- and calls its function -/
  | fire

/-- The thread is not in a wait and has the mutex. -/
def State.runs (s : State T R) (t : T) (m : Mutex R) : Bool :=
  (match (s.pk t).phase with | .out => true | _ => false) && s.holder m = some t

def step (s : State T R) : Act T R → Option (State T R)
  | .lock t m =>
    match (s.pk t).phase, s.holder m with
    | .out, none => some (s.setHolder m (some t))
    | _, _ => none
  | .unlock t m => if s.runs t m then some (s.setHolder m none) else none
  | .register t =>
    match (s.pk t).phase with
    | .out => some (s.put t { s.pk t with event := .none })
    | _ => none
  | .tsleepAbs t chan pri timeout =>
    if chan ≠ 0 ∧ s.runs t .master then some (s.tsleepAbs t chan pri timeout) else none
  | .pkConditionWait t r timeout mask =>
    if s.runs t (.resource r) then
      some (s.put t { s.pk t with phase := .enter ⟨.resource r, timeout, mask⟩ })
    else none
  | .activate t =>
    match (s.pk t).phase with
    | .enter w => some (s.activate t w)
    | _ => none
  | .checkEvents t =>
    match (s.pk t).phase with
    | .armed w => some (s.checkEvents t w)
    | _ => none
  | .consume t =>
    match (s.pk t).phase with
    | .seen w events => some (s.consume t w events)
    | _ => none
  | .resume t =>
    match (s.pk t).phase with
    | .blocked w =>
      if t ∉ s.waiters w.place.cond ∧ s.holder w.place.mutex = none then some (s.resume t w)
      else none
    | _ => none
  | .deactivate t =>
    match (s.pk t).phase with
    | .leaving w err => some (s.deactivate t w err)
    | _ => none
  | .finish t =>
    match (s.pk t).phase with
    | .returned w err => some (s.finish t w err)
    | _ => none
  | .wakeup t chan => if s.runs t .master then some (s.wakeup chan) else none
  | .threadUnsleep t u => if s.runs t .master then some (s.threadUnsleep u) else none
  | .signal t r =>
    if s.runs t (.resource r) then some (s.setWaiters (.resource r) (s.waiters (.resource r)).tail)
    else none
  | .broadcast t r => if s.runs t (.resource r) then some (s.setWaiters (.resource r) []) else none
  | .pkWakeup u e => some (s.pkWakeup u e)
  | .tick n => some { s with now := s.now + n }
  | .pop u =>
    match (s.pk u).telt, s.popped with
    | some d, none =>
      if d ≤ s.now then some { s.put u { s.pk u with telt := none } with popped := some u }
      else none
    | _, _ => none
  | .fire => s.popped.map fun u => { s.pkWakeupFromTimer u with popped := none }

def initial : State T R :=
  ⟨fun _ => ⟨none, .none, none, none, .out⟩, fun _ => [], fun _ => [], fun _ => none, 0, none⟩

variable (T R) in
def machine : Machine (State T R) (Act T R) := ⟨fun s => s = initial, step⟩

/-- The sleep queues have the threads with a channel, and no thread is left in a sleep condition
without its channel or with an event that it does not ignore. -/
structure NoLostWakeup (s : State T R) : Prop where
  queued : ∀ t i, t ∈ s.sleepQueue i ↔ ∃ c, (s.pk t).wchan = some c ∧ sleepHash c = i
  signalled : ∀ t i, t ∈ s.waiters (.sleep i) →
    (s.pk t).wchan ≠ none ∧ ∀ w, (s.pk t).phase = .blocked w →
    ((s.pk t).event.without w.mask).any = false

/-- `thread_unsleep` is not called for a thread that is in its condition. -/
def Act.Signalled (s : State T R) : Act T R → Prop
  | .threadUnsleep _ u => ∀ i, u ∉ s.waiters (.sleep i)
  | _ => True

/-- The call had a timeout, and the clock has come to it. -/
def Wait.Due (w : Wait R) (now : ℕ) : Prop := ∃ d, w.timeout = some d ∧ d ≤ now

/-- A wait that returns `EWOULDBLOCK` has timed out. -/
def NoSpuriousTimeout (s : State T R) : Prop :=
  ∀ t w, (s.pk t).phase = .returned w .wouldBlock → w.Due s.now

/-- The call that the thread is in. -/
def Phase.wait : Phase R → Option (Wait R)
  | .out => none
  | .enter w | .armed w | .blocked w | .seen w _ | .leaving w _ | .returned w _ => some w

/-- A timeout of the thread is that of the wait it is in. -/
def Owned (s : State T R) : Prop :=
  ∀ t w, (s.pk t).phase.wait = some w → (s.pk t).event.timeout = true ∨ s.popped = some t →
    w.Due s.now

/-- At the start of a wait no timeout is left over from another one, unless the wait has timed out
itself. -/
def Act.Clear (s : State T R) : Act T R → Prop
  | .tsleepAbs t _ _ timeout | .pkConditionWait t _ timeout _ =>
    (s.pk t).event.timeout = true ∨ s.popped = some t → ∃ d, timeout = some d ∧ d ≤ s.now
  | _ => True

end XMach.Sleep
