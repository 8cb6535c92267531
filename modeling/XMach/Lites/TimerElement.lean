import XMach.Lites.Timer

/-!
# The lifetime of timer elements

Who has an element of `timer.c`: its owner, which may use its memory for something else, or the
timer. An element is on the stack of `pk_condition_wait` or allocated by `timeout`. Activations are
numbered; beside the state there is how often the function of each was called, and whether the timer
thread has used an element that was not lent to it. The clock has any value at any time.
-/

namespace XMach.TimerElement

open Function

open Timer (Timeval)

/-- The function of the element and its context: `pk_wakeup_from_timer` for a thread, or
`timeout_did_timeout` for a function and its argument. -/
inductive Kind
  | wait (pk : ℕ)
  | callout (f context : ℕ)
  deriving DecidableEq

def Kind.isWait : Kind → Bool
  | .wait _ => true
  | .callout _ _ => false

structure Elt where
  kind : Kind
  timeout : Timeval
  active : Bool
  /-- the activation that the element is lent to the timer for -/
  act : Option ℕ

inductive Phase (E : Type*)
  | scan
  /-- has taken the element of an activation off the queue and released the lock -/
  | popped (e : E) (act : ℕ)
  /-- in `timeout_did_timeout` -/
  | running (e : E) (act : ℕ)
  | blocked
  /-- has called what it read from memory that is no element -/
  | lost
  deriving DecidableEq

structure State (E : Type*) where
  /-- the elements by their addresses -/
  elt : E → Option Elt
  queue : List E
  now : Timeval
  phase : Phase E
  /-- the number of activations -/
  next : ℕ
  /-- how often the function of an activation was called -/
  ran : ℕ → ℕ
  /-- `timer_element_deactivate` or `untimeout` has removed it -/
  gone : ℕ → Bool
  /-- a function was called after that -/
  late : Bool
  /-- the timer thread has used an element that was not lent to it -/
  misused : Bool

variable {E : Type*} [DecidableEq E]

namespace State

def put (s : State E) (e : E) (x : Option Elt) : State E := { s with elt := update s.elt e x }

def timeoutOf (s : State E) (e : E) : Timeval := ((s.elt e).map Elt.timeout).getD ⟨0, 0⟩

/-- The function of the activation is called. -/
def call (s : State E) (act : ℕ) : State E :=
  { s with ran := update s.ran act (s.ran act + 1), late := s.late || s.gone act }

/-- An element that is not expired is put on the queue. -/
def activate (s : State E) (e : E) (x : Elt) : State E :=
  { s.put e (some { x with active := true, act := some s.next }) with
    queue := s.queue.orderedInsert (fun a b => (s.timeoutOf a).lt (s.timeoutOf b)) e
    next := s.next + 1 }

/-- `timer_element_activate` returns `TRUE`; `timeout` then calls the function itself and frees the
element. -/
def expired (s : State E) (e : E) (x : Elt) : State E :=
  match x.kind with
  | .wait _ => { s with next := s.next + 1 }
  | .callout _ _ => { s.call s.next with elt := update s.elt e none, next := s.next + 1 }

/-- The element is its owner's again, whether it was removed from the queue or not. -/
def deactivate (s : State E) (e : E) (x : Elt) : State E :=
  let s' := s.put e (some { x with active := false, act := none })
  if x.active then
    { s' with
      queue := s.queue.erase e
      gone := match x.act with
        | some i => update s.gone i true
        | none => s.gone }
  else s'

def untimeout (s : State E) (f context : ℕ) : State E :=
  match s.queue.find? fun e => (s.elt e).any (·.kind = .callout f context) with
  | none => s
  | some e =>
    match s.elt e with
    | none => s
    | some x => { s.deactivate e x with elt := update s.elt e none }

/-- The section at the top of the loop of the timer thread. -/
def scan (s : State E) : State E :=
  match s.queue with
  | [] => { s with phase := .blocked }
  | e :: queue =>
    match s.elt e with
    | none => { s with phase := .lost, misused := true }
    | some x =>
      if s.now.lt x.timeout then { s with phase := .blocked }
      else
        { s.put e (some { x with active := false }) with
          queue := queue, phase := .popped e (x.act.getD 0) }

/-- `telt->function(telt->context, telt)`, with what is in memory now. -/
def invoke (s : State E) (e : E) (act : ℕ) : State E :=
  match s.elt e with
  | none => { s with phase := .lost, misused := true }
  | some x =>
    let s := { s with misused := s.misused || x.act ≠ some act }
    let s := match x.act with
      | some i => s.call i
      | none => s
    { s with phase := if x.kind.isWait then .scan else .running e act }

/-- `timer_element_deallocate` at the end of `timeout_did_timeout`. -/
def finish (s : State E) (e : E) (act : ℕ) : State E :=
  { s.put e none with phase := .scan, misused := s.misused || (s.elt e).bind Elt.act ≠ some act }

end State

inductive Act (E : Type*)
  | create (e : E) (kind : Kind) (timeout : Timeval)
  /-- the owner leaves the function that has the element on its stack -/
  | destroy (e : E)
  | activate (e : E)
  | expired (e : E)
  | deactivate (e : E)
  | untimeout (f context : ℕ)
  | clock (now : Timeval)
  | scan
  | wake
  | invoke
  | finish

def step (s : State E) : Act E → Option (State E)
  | .create e kind timeout =>
    match s.elt e with
    | none => some (s.put e (some ⟨kind, timeout, false, none⟩))
    | some _ => none
  | .destroy e =>
    match s.elt e with
    | some x => if x.act = none then some (s.put e none) else none
    | none => none
  | .activate e =>
    match s.elt e with
    | some x => if x.act = none then some (s.activate e x) else none
    | none => none
  | .expired e =>
    match s.elt e with
    | some x => if x.act = none ∧ x.timeout.lt s.now then some (s.expired e x) else none
    | none => none
  | .deactivate e =>
    match s.elt e with
    | some x => if x.kind.isWait ∧ x.act ≠ none then some (s.deactivate e x) else none
    | none => none
  | .untimeout f context => some (s.untimeout f context)
  | .clock now => some { s with now := now }
  | .scan => if s.phase = .scan then some s.scan else none
  | .wake => if s.phase = .blocked then some { s with phase := .scan } else none
  | .invoke =>
    match s.phase with
    | .popped e act => some (s.invoke e act)
    | _ => none
  | .finish =>
    match s.phase with
    | .running e act => some (s.finish e act)
    | _ => none

def initial : State E :=
  ⟨fun _ => none, [], ⟨0, 0⟩, .scan, 0, fun _ => 0, fun _ => false, false, false⟩

variable (E) in
def machine : Machine (State E) (Act E) := ⟨fun s => s = initial, step⟩

/-- The function of an activation is called once at most and not after the element was removed, and
the timer thread uses no element that is not lent to it. -/
structure Sound (s : State E) : Prop where
  once : ∀ i, s.ran i ≤ 1
  late : s.late = false
  misused : s.misused = false

/-- The element that the timer thread is about to use is lent to it. -/
def Held (s : State E) : Prop := ∀ e i, s.phase = .popped e i → (s.elt e).bind Elt.act = some i

/-- An element is not deactivated between the time the timer thread takes it off the queue and calls
its function. -/
def Act.Careful (s : State E) : Act E → Prop
  | .deactivate e => ∀ i, s.phase ≠ .popped e i
  | _ => True

end XMach.TimerElement
