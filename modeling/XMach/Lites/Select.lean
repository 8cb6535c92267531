import Mathlib.Algebra.Ring.Nat
import Mathlib.Data.Fintype.Card
import Mathlib.Logic.Function.Basic
import XMach.Lib.Machine

/-!
# Select

`select.c`: a thread that selects registers itself with the objects that are not ready, and goes to
sleep on `selwait` if nothing has become ready meanwhile. An object remembers one thread, and
whether there were more. A step is a section at `splhigh`, or what a thread does between two of
them. Beside the state there is what the latest scan of each thread has registered, and whether one
of these objects was woken since.
-/

namespace XMach.Select

open Function

inductive Chan
  | selwait
  | other (n : ℕ)
  deriving DecidableEq

/-- Where a thread is in `s_select`; `scan ncoll` has the `nselcoll` that it read first. -/
inductive Phase
  | out
  | retry
  | counted (ncoll : ℕ)
  | scan (ncoll : ℕ)
  | asleep
  | done
  deriving DecidableEq

/-- A `proc_invocation`. -/
structure Thread (P : Type*) where
  /-- `k_p` -/
  proc : Option P
  /-- `k_wchan` -/
  wchan : Option Chan
  /-- `PK_SELECT` -/
  flag : Bool
  phase : Phase

structure Selinfo (T : Type*) where
  /-- `si_pk` -/
  pk : Option T
  /-- `SI_COLL` -/
  coll : Bool

structure State (T S P : Type*) where
  thread : T → Thread P
  sel : S → Selinfo T
  /-- 32 bits -/
  nselcoll : ℕ
  /-- the references to a process beside those of the threads that serve it -/
  others : P → ℕ
  /-- what the latest scan has registered -/
  reg : T → S → Bool
  /-- an object that the latest scan has registered was woken since -/
  woken : T → Bool

variable {T S P : Type*} [DecidableEq T] [DecidableEq S] [DecidableEq P] [Fintype T]

namespace State

def put (s : State T S P) (t : T) (th : Thread P) : State T S P :=
  { s with thread := update s.thread t th }

def setSel (s : State T S P) (sip : S) (si : Selinfo T) : State T S P :=
  { s with sel := update s.sel sip si }

/-- `p_ref`: a thread has a reference as long as it serves the process. -/
def pRef (s : State T S P) (p : P) : ℕ :=
  s.others p + Fintype.card { t // (s.thread t).proc = some p }

/-- `ncoll = nselcoll` -/
def readNcoll (s : State T S P) (t : T) : State T S P :=
  s.put t { s.thread t with phase := .counted s.nselcoll }

/-- `PK_SELECT` is set, and the scan starts. -/
def setFlag (s : State T S P) (t : T) (ncoll : ℕ) : State T S P :=
  { s.put t { s.thread t with flag := true, phase := .scan ncoll } with
    reg := update s.reg t fun _ => false
    woken := update s.woken t false }

def selrecord (s : State T S P) (t : T) (sip : S) : State T S P :=
  let s := { s with reg := update s.reg t (update (s.reg t) sip true) }
  let si := s.sel sip
  if si.pk = some t then s
  else if (si.pk.bind fun u => (s.thread u).proc).isSome then
    -- `pk` is the caller, not `sip->si_pk`
    if (s.thread t).wchan = some .selwait then s.setSel sip { si with coll := true }
    else s.setSel sip { si with pk := some t }
  else s.setSel sip { si with pk := some t }

/-- The check before the sleep. With `immediate`, `tsleep_abs` finds an event and returns an
error. -/
def check (s : State T S P) (t : T) (ncoll : ℕ) (immediate : Bool) : State T S P :=
  let th := s.thread t
  if !th.flag || s.nselcoll ≠ ncoll then s.put t { th with phase := .retry }
  else if immediate then s.put t { th with flag := false, phase := .done }
  else s.put t { th with flag := false, wchan := some .selwait, phase := .asleep }

/-- What `wakeup` does to the threads that sleep on the channel. -/
def wakeup (s : State T S P) (c : Chan) : State T S P :=
  { s with thread := fun t => if (s.thread t).wchan = some c then { s.thread t with wchan := none }
    else s.thread t }

def selectKludgeWakeup (s : State T S P) : State T S P :=
  { s with nselcoll := (s.nselcoll + 1) % 2 ^ 32 }.wakeup .selwait

/-- The part of `selwakeup` for the thread in `si_pk`. -/
def unsleep (s : State T S P) (u : T) : State T S P :=
  let th := s.thread u
  match th.proc with
  | none => s
  | some p =>
    if 0 < s.pRef p then
      if th.wchan = some .selwait then s.put u { th with wchan := none }
      else s.put u { th with flag := false }
    else s

/-- After a collision it starts again, and does not find the flag again. -/
def selwakeup (s : State T S P) (sip : S) : State T S P :=
  let s := { s with woken := fun t => s.woken t || s.reg t sip }
  match (s.sel sip).pk with
  | none => s
  | some u =>
    let s := if (s.sel sip).coll then
        ({ s with nselcoll := (s.nselcoll + 1) % 2 ^ 32 }.setSel sip ⟨some u, false⟩).wakeup
          .selwait
      else s
    (s.setSel sip { s.sel sip with pk := none }).unsleep u

end State

inductive Act (T S P : Type*)
  /-- the server thread starts and ends a call of the process -/
  | register (t : T) (p : P)
  | deregister (t : T)
  | enter (t : T)
  | readNcoll (t : T)
  | setFlag (t : T)
  | selrecord (t : T) (sip : S)
  /-- the scan finds a descriptor that is ready, or fails -/
  | ready (t : T)
  | check (t : T) (immediate : Bool)
  /-- `tsleep_abs` returns 0 because the thread was woken -/
  | resume (t : T)
  /-- it returns an error, or 0 for `EJUSTRETURN`, perhaps without a wakeup -/
  | interrupted (t : T) (again : Bool)
  | finish (t : T)
  /-- the thread sleeps on another channel, or has been woken from it -/
  | elsewhere (t : T) (chan : Option ℕ)
  | others (p : P) (n : ℕ)
  | selwakeup (sip : S)
  | selectKludgeWakeup

def step (s : State T S P) : Act T S P → Option (State T S P)
  | .register t p =>
    if (s.thread t).phase = .out ∧ (s.thread t).proc = none then
      some (s.put t { s.thread t with proc := some p })
    else none
  | .deregister t =>
    if (s.thread t).phase = .out then some (s.put t { s.thread t with proc := none }) else none
  | .enter t =>
    if (s.thread t).phase = .out ∧ (s.thread t).proc.isSome then
      some (s.put t { s.thread t with phase := .retry })
    else none
  | .readNcoll t => if (s.thread t).phase = .retry then some (s.readNcoll t) else none
  | .setFlag t =>
    match (s.thread t).phase with
    | .counted ncoll => some (s.setFlag t ncoll)
    | _ => none
  | .selrecord t sip =>
    match (s.thread t).phase with
    | .scan _ => some (s.selrecord t sip)
    | _ => none
  | .ready t =>
    match (s.thread t).phase with
    | .scan _ => some (s.put t { s.thread t with phase := .done })
    | _ => none
  | .check t immediate =>
    match (s.thread t).phase with
    | .scan ncoll => some (s.check t ncoll immediate)
    | _ => none
  | .resume t =>
    if (s.thread t).phase = .asleep ∧ (s.thread t).wchan = none then
      some (s.put t { s.thread t with phase := .retry })
    else none
  | .interrupted t again =>
    if (s.thread t).phase = .asleep then
      some (s.put t { s.thread t with wchan := none, phase := if again then .retry else .done })
    else none
  | .finish t =>
    if (s.thread t).phase = .done then
      some (s.put t { s.thread t with flag := false, phase := .out })
    else none
  | .elsewhere t chan =>
    if (s.thread t).phase ≠ .asleep then some (s.put t { s.thread t with wchan := chan.map .other })
    else none
  | .others p n => some { s with others := update s.others p n }
  | .selwakeup sip => some (s.selwakeup sip)
  | .selectKludgeWakeup => some s.selectKludgeWakeup

def initial : State T S P :=
  ⟨fun _ => ⟨none, none, false, .out⟩, fun _ => ⟨none, false⟩, 0, fun _ => 0, fun _ _ => false,
    fun _ => false⟩

variable (T S P) in
def machine : Machine (State T S P) (Act T S P) := ⟨fun s => s = initial, step⟩

/-- A thread that has registered with an object that was woken does not sleep on `selwait`, and if
it has not come to the check yet it is sent back there. -/
def NoLostSelect (s : State T S P) : Prop :=
  ∀ t, s.woken t = true →
    ¬((s.thread t).phase = .asleep ∧ (s.thread t).wchan = some .selwait) ∧
      ∀ ncoll, (s.thread t).phase = .scan ncoll → (s.thread t).flag = false ∨ s.nselcoll ≠ ncoll

/-- The thread is in a scan with `PK_SELECT` set, or asleep. -/
def Thread.Pending (th : Thread P) : Prop :=
  ((∃ ncoll, th.phase = .scan ncoll) ∧ th.flag = true) ∨
    (th.phase = .asleep ∧ th.wchan = some .selwait)

/-- Each object remembers the thread that has registered with it. -/
def Attended (s : State T S P) : Prop :=
  ∀ t sip, s.reg t sip = true → (s.thread t).Pending → (s.sel sip).pk = some t

/-- A thread registers with an object only if no other thread waits for it. -/
def Act.Careful (s : State T S P) : Act T S P → Prop
  | .selrecord t sip =>
    ∀ u, (s.sel sip).pk = some u → u ≠ t → s.reg u sip = true → ¬(s.thread u).Pending
  | _ => True

end XMach.Select
