import Mathlib.Algebra.Ring.Int.Defs
import Mathlib.Algebra.Ring.Nat
import Mathlib.Data.Int.Notation
import Mathlib.Data.List.Sort
import XMach.Lib.Machine

/-!
# The timer thread

`timer.c` of the Lites server: a queue of elements ordered by their timeouts, and a thread that
blocks in `mach_msg` until the first of them, or until it is sent a message. A section under
`timer_lock` is one step. A message that is sent while the port is full is dropped; there are others
then.
-/

namespace XMach.Timer

open Function

/-- A `long` of 32 bits. -/
def int32 (x : ℤ) : ℤ := Int.bmod x (2 ^ 32)

structure Timeval where
  sec : ℤ
  usec : ℤ
  deriving DecidableEq

namespace Timeval

/-- `timevalfix`, which carries one second. -/
def fix (t : Timeval) : Timeval :=
  let t := if t.usec < 0 then ⟨int32 (t.sec - 1), int32 (t.usec + 1000000)⟩ else t
  if t.usec ≥ 1000000 then ⟨int32 (t.sec + 1), int32 (t.usec - 1000000)⟩ else t

def add (t u : Timeval) : Timeval := fix ⟨int32 (t.sec + u.sec), int32 (t.usec + u.usec)⟩

def sub (t u : Timeval) : Timeval := fix ⟨int32 (t.sec - u.sec), int32 (t.usec - u.usec)⟩

/-- `timercmp(t, u, <)` -/
def lt (t u : Timeval) : Bool := if t.sec = u.sec then t.usec < u.usec else t.sec < u.sec

/-- The time that it stands for. -/
def micros (t : Timeval) : ℤ := t.sec * 1000000 + t.usec

structure Normal (t : Timeval) : Prop where
  sec : -2 ^ 31 ≤ t.sec ∧ t.sec < 2 ^ 31
  usec : 0 ≤ t.usec ∧ t.usec < 1000000

instance (t : Timeval) : Decidable t.Normal :=
  decidable_of_iff ((-2 ^ 31 ≤ t.sec ∧ t.sec < 2 ^ 31) ∧ 0 ≤ t.usec ∧ t.usec < 1000000)
    ⟨fun h => ⟨h.1, h.2⟩, fun h => ⟨h.sec, h.usec⟩⟩

end Timeval

def infiniteTime : Timeval := ⟨0xfffff, 0x7fffffff⟩

/-- `msg_timeo`: milliseconds, unsigned. -/
def msgTimeo (diff : Timeval) : ℕ := ((diff.sec * 1000 + Int.tdiv diff.usec 1000) % 2 ^ 32).toNat

inductive Phase (E : Type*)
  /-- at the top of the loop -/
  | scan
  /-- the function of the element runs, without the lock -/
  | popped (e : E)
  /-- on the way to `mach_msg`, with what it has read from the clock -/
  | ready (read : Timeval) (m : ℕ)
  /-- in `mach_msg`, entered at `t` -/
  | blocked (t : Timeval) (m : ℕ)

structure State (E : Type*) where
  timeout : E → Timeval
  active : E → Bool
  queue : List E
  /-- what `get_time` gives -/
  now : Timeval
  /-- `timer_next_wakeup` -/
  nextWakeup : Timeval
  phase : Phase E
  /-- the messages on `timer_port` -/
  msgs : ℕ
  /-- the threads that are about to call `timer_wakeup` -/
  sending : ℕ
  /-- the `set_time` calls between `host_set_time` and `timer_fix_timeouts_delta` -/
  adjusting : List Timeval

variable {E : Type*} [DecidableEq E]

/-- `MACH_PORT_QLIMIT_DEFAULT` -/
def qlimit : ℕ := 5

namespace State

/-- The lock section of `timer_element_activate`. The element was not expired when it looked at the
clock. -/
def activate (s : State E) (e : E) (timeout : Timeval) : State E :=
  let t := update s.timeout e timeout
  { s with
    timeout := t
    active := update s.active e true
    queue := s.queue.orderedInsert (fun a b => (t a).lt (t b)) e
    sending := if s.queue.isEmpty || timeout.lt s.nextWakeup then s.sending + 1 else s.sending }

def deactivate (s : State E) (e : E) : State E :=
  if s.active e then { s with active := update s.active e false, queue := s.queue.erase e } else s

/-- The first element with the function and the context, if there is one, is removed. -/
def untimeout (s : State E) (match? : E → Bool) : State E :=
  match s.queue.find? match? with
  | none => s
  | some e => s.deactivate e

/-- `timer_fix_timeouts_delta` up to the wakeup. -/
def fixTimeouts (s : State E) (delta : Timeval) : State E :=
  { s with
    timeout := fun e => if e ∈ s.queue then ((s.timeout e).add delta).fix else s.timeout e
    sending := s.sending + 1
    adjusting := s.adjusting.erase delta }

/-- `timer_wakeup` -/
def wakeup (s : State E) : State E :=
  { s with sending := s.sending - 1, msgs := min (s.msgs + 1) qlimit }

/-- The section at the top of the loop. -/
def scan (s : State E) : State E :=
  match s.queue with
  | [] => { s with
      nextWakeup := s.now.add infiniteTime
      phase := .ready s.now (msgTimeo infiniteTime) }
  | e :: queue =>
    if s.now.lt (s.timeout e) then
      { s with
        nextWakeup := s.timeout e
        phase := .ready s.now (msgTimeo ((s.timeout e).sub s.now)) }
    else { s with active := update s.active e false, queue := queue, phase := .popped e }

end State

inductive Act (E : Type*)
  | activate (e : E) (timeout : Timeval)
  | deactivate (e : E)
  | untimeout (match? : E → Bool)
  /-- time passes -/
  | tick (now : Timeval)
  | setTime (now delta : Timeval)
  | fixTimeouts (delta : Timeval)
  | wakeup
  | scan
  /-- the function returns -/
  | done
  | enter
  | receive
  /-- `mach_msg` times out or is interrupted -/
  | timedOut

/-- The clock of the kernel has normal values from 1970 on. -/
def clockOk (t : Timeval) : Bool := decide (0 ≤ t.sec) && decide t.Normal

def step (s : State E) : Act E → Option (State E)
  | .activate e timeout => if s.active e then none else some (s.activate e timeout)
  | .deactivate e => some (s.deactivate e)
  | .untimeout p => some (s.untimeout p)
  | .tick now =>
    if clockOk now && s.now.micros ≤ now.micros then some { s with now := now } else none
  | .setTime now delta =>
    if clockOk now then some { s with now := now, adjusting := delta :: s.adjusting } else none
  | .fixTimeouts delta => if delta ∈ s.adjusting then some (s.fixTimeouts delta) else none
  | .wakeup => if s.sending = 0 then none else some s.wakeup
  | .scan =>
    match s.phase with
    | .scan => some s.scan
    | _ => none
  | .done =>
    match s.phase with
    | .popped _ => some { s with phase := .scan }
    | _ => none
  | .enter =>
    match s.phase with
    | .ready _ m => some { s with phase := .blocked s.now m }
    | _ => none
  | .receive =>
    match s.phase with
    | .blocked _ _ =>
      if s.msgs = 0 then none else some { s with msgs := s.msgs - 1, phase := .scan }
    | _ => none
  | .timedOut =>
    match s.phase with
    | .blocked _ _ => some { s with phase := .scan }
    | _ => none

def initial (now : Timeval) : State E :=
  ⟨fun _ => ⟨0, 0⟩, fun _ => false, [], now, ⟨0, 0⟩, .scan, 0, 0, []⟩

variable (E) in
def machine : Machine (State E) (Act E) :=
  ⟨fun s => ∃ now, clockOk now = true ∧ s = initial now, step⟩

/-- A message is on the port, or about to be sent to it. -/
def State.Pending (s : State E) : Prop := 0 < s.msgs ∨ 0 < s.sending ∨ s.adjusting ≠ []

structure Punctual (s : State E) : Prop where
  sorted : s.queue.Pairwise fun a b => (s.timeout a).micros ≤ (s.timeout b).micros
  active : ∀ e, s.active e = true ↔ e ∈ s.queue
  blocked : ∀ t m, s.phase = .blocked t m →
    s.Pending ∨ ∀ e ∈ s.queue, t.micros + m * 1000 ≤ (s.timeout e).micros

/-- Timeouts are normal and stay so when the clock is set, and no more time passes between
`get_time` and `mach_msg` than the part of a millisecond that is cut off. -/
def Act.Careful (s : State E) : Act E → Prop
  | .activate _ timeout => timeout.Normal
  | .fixTimeouts delta => (0 ≤ delta.usec ∧ delta.usec < 1000000) ∧
    ∀ e ∈ s.queue, -2 ^ 31 ≤ (s.timeout e).sec + delta.sec ∧
    (s.timeout e).sec + delta.sec + 1 < 2 ^ 31
  | .enter => ∀ read m, s.phase = .ready read m → s.queue ≠ [] →
    s.now.micros ≤ read.micros + (s.nextWakeup.micros - read.micros) % 1000
  | _ => True

end XMach.Timer
