import Mathlib.Data.BitVec

/-!
# Event counters

`eventcount.c` on one processor, with what else happens to the threads that wait for a counter. An
action is one section at `splsched`: from `evc_wait` to the switch to another thread, `evc_signal`,
the parts of `thread_abort` and `thread_terminate`, and the suspension, resumption and other waits
of a thread.
-/

namespace XMach.Evc

variable {T : Type} [DecidableEq T]

/-- The state of a thread, and whether the wait it is in is that for the counter. -/
structure Thread where
  run : Bool
  wait : Bool
  susp : Bool
  unint : Bool
  inEvc : Bool
  deriving DecidableEq

/-- The wait is over, as in `clear_wait`: a thread that sleeps and can run is put on a run queue. -/
def Thread.awaken (th : Thread) : Thread :=
  { th with wait := false, run := th.run || !th.susp || th.unint, inEvc := false }

/-- `assert_wait` and `thread_block`. -/
def Thread.block (th : Thread) (interruptible inEvc : Bool) : Thread :=
  { th with wait := true, run := false, unint := th.unint || !interruptible, inEvc }

structure State (T : Type) where
  count : ℤ
  waitingThread : Option T
  thread : T → Thread
  /-- the signals since the counter was cleared -/
  signals : ℕ
  /-- the waits since then that a signal has ended -/
  returns : ℕ

def State.set (s : State T) (t : T) (th : Thread) : State T :=
  { s with thread := Function.update s.thread t th }

/-- The result of an addition to an `int`. -/
def int (n : ℤ) : ℤ := n.bmod (2 ^ 32)

inductive Act (T : Type)
  | evcWait (t : T)
  | evcWaitClear (t : T)
  | evcSignal
  /-- `evc_notify_abort`: first in `thread_abort`, last in the deallocation of a thread -/
  | notifyAbort (t : T)
  /-- `clear_wait` in `thread_halt` -/
  | interrupt (t : T)
  /-- the end of `thread_halt`'s loop: the thread is to run into a clean point -/
  | forceRun (t : T)
  /-- `thread_hold`, `thread_suspend` -/
  | suspend (t : T)
  /-- `thread_release`, `thread_resume` -/
  | resume (t : T)
  /-- the thread is taken off the processor or its run queue -/
  | stop (t : T)
  | blockElsewhere (t : T) (interruptible : Bool)
  | wakeElsewhere (t : T)
  deriving DecidableEq

/-- The waiting thread is taken on record and blocks. -/
def State.enter (s : State T) (t : T) : State T :=
  { s.set t ((s.thread t).block true true) with waitingThread := some t }

def evcWait (s : State T) (t : T) : State T :=
  if s.count > 0 then { s with count := s.count - 1, returns := s.returns + 1 }
  else if s.waitingThread = none then { s.enter t with count := int (s.count - 1) }
  -- `KERN_NO_SPACE`
  else s

def evcWaitClear (s : State T) (t : T) : State T :=
  if s.waitingThread = none then { s.enter t with count := -1, signals := 0, returns := 0 } else s

/-- `none` is the panic. -/
def evcSignal (s : State T) : Option (State T) :=
  let s := { s with count := int (s.count + 1), signals := s.signals + 1 }
  match s.waitingThread with
  | none => some s
  | some t =>
    if (s.thread t).wait then
      some { s.set t (s.thread t).awaken with waitingThread := none, returns := s.returns + 1 }
    else none

def evcNotifyAbort (s : State T) (t : T) : State T :=
  if s.waitingThread = some t then { s with waitingThread := none, count := int (s.count + 1) }
  else s

/-- A running thread that does not wait. -/
def Thread.active (th : Thread) : Bool := th.run && !th.wait

/-- One section; `none` where it cannot take place, and for the panic. -/
def step (s : State T) : Act T → Option (State T)
  | .evcWait t => if (s.thread t).active then some (evcWait s t) else none
  | .evcWaitClear t => if (s.thread t).active then some (evcWaitClear s t) else none
  | .evcSignal => evcSignal s
  | .notifyAbort t => some (evcNotifyAbort s t)
  | .interrupt t =>
    if (s.thread t).wait && !(s.thread t).unint then some (s.set t (s.thread t).awaken) else some s
  | .forceRun t =>
    let th := s.thread t
    if th.susp && !th.run && !th.wait && !th.unint then
      some (s.set t { th with run := true, unint := true })
    else none
  | .suspend t => some (s.set t { s.thread t with susp := true })
  | .resume t =>
    let th := s.thread t
    some (s.set t { th with susp := false, run := th.run || !th.wait })
  | .stop t =>
    let th := s.thread t
    if th.susp && !th.unint && !th.wait then some (s.set t { th with run := false }) else none
  | .blockElsewhere t interruptible =>
    if (s.thread t).active then some (s.set t ((s.thread t).block interruptible false)) else none
  | .wakeElsewhere t =>
    if (s.thread t).wait && !(s.thread t).inEvc then some (s.set t (s.thread t).awaken) else none

/-- The parts of an abort or termination do not meet the waiting thread, and the counter does not
overflow. -/
def Act.careful (s : State T) : Act T → Prop
  | .evcSignal => s.count < 2 ^ 31 - 1
  | .notifyAbort t => s.waitingThread ≠ some t
  | .interrupt t => s.waitingThread = some t → (s.thread t).unint = true
  | _ => True

/-- The counter knows the thread that waits for it. -/
structure Good (s : State T) : Prop where
  waiting : ∀ t, s.waitingThread = some t ↔ (s.thread t).wait = true ∧ (s.thread t).inEvc = true
  count : s.waitingThread ≠ none ↔ s.count = -1
  bound : -1 ≤ s.count ∧ s.count < 2 ^ 31
  account : (s.signals : ℤ) = s.returns + max s.count 0

inductive Reached (s₀ : State T) : State T → Prop
  | refl : Reached s₀ s₀
  | step {s s' : State T} (a : Act T) (h : Reached s₀ s) (hc : a.careful s)
      (hs : step s a = some s') : Reached s₀ s'

end XMach.Evc
