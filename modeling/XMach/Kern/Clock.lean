import Mathlib.Algebra.Ring.Int.Defs
import Mathlib.Algebra.Ring.Nat
import Mathlib.Data.Int.Notation
import XMach.Lib.Machine

/-!
# The time of day

`mach_clock.c`: the clock, its gradual adjustment, and the copy of the time that `host_get_time`
reads without a lock. `time` counts in `ℤ`; `timedelta` and `ndelta` are words of 32 bits, the first
signed and the second not.
-/

namespace XMach.Clock

/-- `time_value_t` -/
structure TimeValue where
  seconds : ℤ
  microseconds : ℤ
  deriving DecidableEq

namespace TimeValue

/-- The time that it stands for. -/
def micros (t : TimeValue) : ℤ := t.seconds * 1000000 + t.microseconds

/-- `time_value_add_usec`, which carries one second. -/
def addUsec (t : TimeValue) (micros : ℤ) : TimeValue :=
  if t.microseconds + micros ≥ 1000000 then ⟨t.seconds + 1, t.microseconds + micros - 1000000⟩
  else ⟨t.seconds, t.microseconds + micros⟩

end TimeValue

/-- An `int`. -/
def int (x : ℤ) : ℤ := x.bmod (2 ^ 32)

/-- An `unsigned int`. -/
def unsigned (x : ℤ) : ℕ := (x % 2 ^ 32).toNat

def hz : ℤ := 100

/-- `500 / HZ`, as `HZ` is not over 500. -/
def tickadj : ℤ := 500 / hz

def bigadj : ℤ := 1000000

structure State where
  time : TimeValue
  timedelta : ℤ
  tickdelta : ℤ

/-- The part of `clock_interrupt` on the master processor that moves the time. -/
def clockInterrupt (usec : ℤ) (s : State) : State :=
  if s.timedelta = 0 then { s with time := s.time.addUsec usec }
  else if s.timedelta < 0 then
    { s with
      time := s.time.addUsec (usec - s.tickdelta)
      timedelta := int (s.timedelta + s.tickdelta) }
  else { s with
    time := s.time.addUsec (usec + s.tickdelta)
    timedelta := int (s.timedelta - s.tickdelta) }

/-- The first test of `host_adjust_time`: `bigadj` is converted to unsigned. -/
def choose (s : State) (ndelta : ℕ) : ℤ :=
  if s.timedelta = 0 then if ndelta > unsigned bigadj then 10 * tickadj else tickadj
  else s.tickdelta

/-- `host_adjust_time` of a host that is not `HOST_NULL`: the state and the old adjustment. -/
def hostAdjustTime (adj : TimeValue) (s : State) : State × TimeValue :=
  let ndelta := unsigned (adj.seconds * 1000000 + adj.microseconds)
  let oadj : TimeValue := ⟨s.timedelta.tdiv 1000000, s.timedelta.tmod 1000000⟩
  let tickdelta := choose s ndelta
  let step := unsigned tickdelta
  let ndelta := if ndelta % step ≠ 0 then ndelta / step * step else ndelta
  ({ s with tickdelta, timedelta := int ndelta }, oadj)

theorem hostAdjustTime_time (adj : TimeValue) : ∀ s, (hostAdjustTime adj s).1.time = s.time
  | ⟨_, _, _⟩ => rfl

/-- The state after `n` ticks. -/
def ticks (usec : ℤ) (n : ℕ) (s : State) : State := (clockInterrupt usec)^[n] s

end XMach.Clock
