import Mathlib.Algebra.Ring.Nat
import Mathlib.Data.List.Sort
import XMach.Lib.Machine

/-!
# Timeouts

The queue of timer elements of `mach_clock.c`. `timer_head` is both the head of the circular list
and its last element, with the largest `unsigned` as its `ticks`. What is done with the lock held is
one step: a call of `set_timeout` or `reset_timeout`, and a turn of the loop in `softclock`, which
calls a function without the lock. So the functions, and other processors, may set and reset
timeouts between two turns. The tick count and the deadlines of the elements are also kept in `ℕ`,
with a log of the calls.
-/

namespace XMach.Timeout

open Function

variable {E : Type*} [DecidableEq E]

/-- What has happened. -/
inductive Event (E : Type*)
  /-- the element was set to a deadline -/
  | set (e : E) (deadline : ℕ)
  | reset (e : E)
  /-- `softclock` called the function of the element at the tick count -/
  | called (e : E) (count : ℕ)
  /-- `softclock` returned -/
  | done (count : ℕ)
  deriving DecidableEq

structure State (E : Type*) where
  /-- an `unsigned long` of 32 bits -/
  elapsedTicks : ℕ
  ticks : E → ℕ
  set : E → Bool
  /-- from `queue_first` to the element before `timer_head` -/
  queue : List E
  /-- `softclock` is running -/
  soft : Bool
  /-- the ticks that there have been -/
  count : ℕ
  log : List (Event E)

/-- `timer_head.ticks` -/
def sentinel : ℕ := 2 ^ 32 - 1

/-- The walk of `set_timeout`, which stops before the first element with larger `ticks`. After the
sentinel it would start again with the first element, and never stop. -/
def insert (ticks : E → ℕ) (e : E) (interval : ℕ) : List E → Option (List E)
  | [] => if sentinel > interval then some [e] else none
  | next :: queue =>
    if ticks next > interval then some (e :: next :: queue)
    else (insert ticks e interval queue).map (next :: ·)

/-- `none` if it does not return. -/
def setTimeout (s : State E) (e : E) (interval : ℕ) : Option (State E) :=
  let ticks := (interval + s.elapsedTicks) % 2 ^ 32
  (insert s.ticks e ticks s.queue).map fun queue => { s with
    ticks := update s.ticks e ticks
    queue
    set := update s.set e true
    log := s.log ++ [.set e (s.count + interval)] }

def resetTimeout (s : State E) (e : E) : State E × Bool :=
  if s.set e then
    ({ s with queue := s.queue.erase e, set := update s.set e false, log := s.log ++ [.reset e] },
      true)
  else ({ s with log := s.log ++ [.reset e] }, false)

/-- `queue_first(&timer_head.chain)->ticks` -/
def State.first (s : State E) : ℕ :=
  match s.queue with
  | [] => sentinel
  | e :: _ => s.ticks e

/-- A turn of the loop of `softclock`. `none` if it comes to `timer_head`, which has no function. -/
def softclockTurn (s : State E) : Option (State E) :=
  if s.first > s.elapsedTicks then some { s with soft := false, log := s.log ++ [.done s.count] }
  else match s.queue with
    | [] => none
    | e :: queue => some { s with
        queue
        set := update s.set e false
        log := s.log ++ [.called e s.count] }

/-- The timeouts in `clock_interrupt` on the master processor. At another than the base priority the
software interrupt is left pending. -/
def clockInterrupt (s : State E) (basepri : Bool) : State E :=
  let s := { s with elapsedTicks := (s.elapsedTicks + 1) % 2 ^ 32, count := s.count + 1 }
  if s.first ≤ s.elapsedTicks ∧ basepri then { s with soft := true } else s

inductive Act (E : Type*)
  | setTimeout (e : E) (interval : ℕ)
  | resetTimeout (e : E)
  | clockInterrupt (basepri : Bool)
  /-- the software interrupt -/
  | softclock
  | softclockTurn
  deriving DecidableEq

def step (s : State E) : Act E → Option (State E)
  | .setTimeout e interval => setTimeout s e interval
  | .resetTimeout e => some (resetTimeout s e).1
  | .clockInterrupt basepri => some (clockInterrupt s basepri)
  | .softclock => some { s with soft := true }
  | .softclockTurn => softclockTurn s

/-- What may happen: an element that is set is not set again, an interval is `unsigned`, and
`softclock` runs above the base priority and is not interrupted by itself. -/
def Act.Allowed (s : State E) : Act E → Prop
  | .setTimeout e interval => s.set e = false ∧ interval < 2 ^ 32
  | .resetTimeout _ => True
  | .clockInterrupt basepri => basepri = true → s.soft = false
  | .softclock => s.soft = false
  | .softclockTurn => s.soft = true

/-- No element is set, at any tick count. -/
def initial (elapsedTicks : ℕ) : State E :=
  ⟨elapsedTicks, fun _ => 0, fun _ => false, [], false, elapsedTicks, []⟩

def machine (E : Type*) [DecidableEq E] : Machine (State E) (Act E) where
  start s := ∃ elapsedTicks < 2 ^ 32, s = initial elapsedTicks
  step := step

/-- The tick count does not reach the sentinel while `softclock` runs, starts again at zero only
while no element is set, a deadline is before the sentinel, and after the tick count while
`softclock` runs. -/
def Act.Careful (s : State E) : Act E → Prop
  | .setTimeout _ interval => s.elapsedTicks + interval < sentinel ∧ (s.soft = true → interval ≠ 0)
  | .clockInterrupt basepri =>
    (s.elapsedTicks = sentinel → s.queue = []) ∧
    (basepri = true ∨ s.soft = true → s.elapsedTicks + 1 ≠ sentinel)
  | .softclock => s.elapsedTicks ≠ sentinel
  | _ => True

instance (s : State E) : ∀ a : Act E, Decidable (a.Careful s)
  | .setTimeout _ _ => inferInstanceAs (Decidable (_ ∧ (_ → _)))
  | .clockInterrupt _ => inferInstanceAs (Decidable ((_ → _) ∧ (_ → _)))
  | .softclock => inferInstanceAs (Decidable (_ ≠ _))
  | .resetTimeout _ | .softclockTurn => inferInstanceAs (Decidable True)

/-- The deadline of an element that is set, after an event. -/
def Event.after (e : E) (deadline : Option ℕ) : Event E → Option ℕ
  | .set e' deadline' => if e' = e then some deadline' else deadline
  | .reset e' | .called e' _ => if e' = e then none else deadline
  | .done _ => deadline

def pending (log : List (Event E)) (e : E) : Option ℕ := log.foldl (Event.after e) none

/-- The function of an element is called when its deadline is met, and none is left to be called
when `softclock` returns. -/
def Event.Timely (pending : E → Option ℕ) : Event E → Prop
  | .called e count => ∃ deadline ∈ pending e, deadline ≤ count
  | .done count => ∀ e, ∀ deadline ∈ pending e, count < deadline
  | _ => True

/-- Each element that is set is called once, by the first run of `softclock` at its deadline or
later, if it has not been reset. -/
def Punctual (log : List (Event E)) : Prop := ∀ before ev after, log = before ++ ev :: after →
    ev.Timely (pending before)

/-- The elements that are due. -/
def State.due (s : State E) : ℕ := s.queue.countP fun e => s.ticks e ≤ s.elapsedTicks

/-- What the functions and other processors may do while `softclock` runs, and its turns. -/
def Act.Between : Act E → Prop
  | .setTimeout _ _ | .resetTimeout _ | .softclockTurn => True
  | _ => False

/-- The queue is in the order of the deadlines with the sentinel last, and the calls that may be
made return: `softclock` after as many turns as there are elements due, whatever is set in
between. -/
structure Right (C : State E → Act E → Prop) (s : State E) : Prop where
  deadlines : ∃ ds : List ℕ, s.queue.map (pending s.log) = ds.map some ∧ ds.Pairwise (· ≤ ·)
  sorted : (s.queue.map s.ticks ++ [sentinel]).Pairwise (· ≤ ·)
  punctual : Punctual s.log
  returns : ∀ a, C s a → ∃ s', step s a = some s'
  ends : ∀ acts s', (machine E).Along C s acts → (machine E).run s acts = some s' →
    (∀ a ∈ acts, a.Between) → acts.count .softclockTurn ≤ s.due + 1

end XMach.Timeout
