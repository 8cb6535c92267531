import XMach.Kern.Clock

/-!
# The mapped time

`update_mapped_time` publishes the time by three stores, and `host_get_time` reads it without a
lock: each store and each load is one step. Only one update is under way at a time, since both its
callers keep interrupts off on the master processor.
-/

namespace XMach.MappedTime

open Clock (TimeValue)

/-- `mapped_time_value_t` -/
structure Mapped where
  seconds : ℤ
  microseconds : ℤ
  checkSeconds : ℤ
  deriving DecidableEq

/-- The next store of `update_mapped_time`. -/
inductive Store
  | check
  | microseconds
  | seconds
  deriving DecidableEq

/-- Where a call of `host_get_time` is. -/
inductive Reader
  | outside
  /-- at the top of the loop -/
  | start
  | loaded (seconds : ℤ)
  | both (seconds microseconds : ℤ)
  | returned (time : TimeValue)
  deriving DecidableEq

/-- The seconds that the call has loaded in this iteration. -/
def Reader.seconds? : Reader → Option ℤ
  | loaded seconds => some seconds
  | both seconds _ => some seconds
  | _ => none

structure State where
  clock : Clock.State
  mtime : Mapped
  /-- the update that is under way -/
  pending : Option Store
  reader : Reader
  /-- the time whose update was the last to be completed -/
  published : TimeValue
  /-- what was published at the moments since the last iteration started, as long as it lasts -/
  window : List TimeValue

def Mapped.time (m : Mapped) : TimeValue := ⟨m.seconds, m.microseconds⟩

/-- The mapped time shows the system time, or the one that it had before the update that is under
way. -/
def State.shows (s : State) : List TimeValue :=
  if s.mtime.time = s.clock.time ∨ s.mtime.time = s.published then [s.mtime.time] else []

/-- An iteration that is under way sees what is published. -/
def State.watch (s : State) : State :=
  if s.reader.seconds?.isSome then { s with window := s.window ++ s.shows } else s

inductive Act
  | clockInterrupt (usec : ℤ)
  | hostSetTime (newTime : TimeValue)
  | hostAdjustTime (adj : TimeValue)
  | store
  | hostGetTime
  | loadSeconds
  | loadMicroseconds
  | loadCheck

/-- The clock changes, and the update starts. -/
def State.update (s : State) (clock : Clock.State) : Option State :=
  if s.pending = none then some ({ s with clock, pending := some .check }).watch else none

def State.store (s : State) : Option State :=
  match s.pending with
  | none => none
  | some .check =>
    some ({ s with
      mtime.checkSeconds := s.clock.time.seconds
      pending := some .microseconds }).watch
  | some .microseconds =>
    some ({ s with
      mtime.microseconds := s.clock.time.microseconds
      pending := some .seconds }).watch
  | some .seconds =>
    some ({ s with
      mtime.seconds := s.clock.time.seconds
      pending := none
      published := s.clock.time }).watch

def step (s : State) : Act → Option State
  | .clockInterrupt usec => s.update (Clock.clockInterrupt usec s.clock)
  | .hostSetTime newTime => s.update { s.clock with time := newTime }
  | .hostAdjustTime adj => some { s with clock := (Clock.hostAdjustTime adj s.clock).1 }
  | .store => s.store
  | .hostGetTime =>
    match s.reader with
    | .outside | .returned _ => some { s with reader := .start }
    | _ => none
  | .loadSeconds =>
    match s.reader with
    | .start => some ({ s with reader := .loaded s.mtime.seconds, window := [] }).watch
    | _ => none
  | .loadMicroseconds =>
    match s.reader with
    | .loaded seconds => some ({ s with reader := .both seconds s.mtime.microseconds }).watch
    | _ => none
  | .loadCheck =>
    match s.reader with
    | .both seconds microseconds =>
      if seconds = s.mtime.checkSeconds then some { s with
        reader := .returned ⟨seconds, microseconds⟩ }
      else some { s with reader := .start }
    | _ => none

/-- After `mapable_time_init`. -/
def initial (clock : Clock.State) : State :=
  ⟨clock, ⟨clock.time.seconds, clock.time.microseconds, clock.time.seconds⟩, none, .outside,
    clock.time, []⟩

def machine : Machine State Act := ⟨fun s => ∃ clock, s = initial clock, step⟩

/-- The clock that an action leaves. -/
def Act.clock (s : State) : Act → Clock.State
  | .clockInterrupt usec => Clock.clockInterrupt usec s.clock
  | .hostSetTime newTime => { s.clock with time := newTime }
  | _ => s.clock

/-- The action does not bring back the seconds that the call has loaded. -/
def Act.Careful (s : State) (a : Act) : Prop :=
  (a.clock s).time.seconds = s.clock.time.seconds ∨
    s.reader.seconds? ≠ some (a.clock s).time.seconds

instance (s : State) (a : Act) : Decidable (a.Careful s) := inferInstanceAs (Decidable (_ ∨ _))

end XMach.MappedTime
