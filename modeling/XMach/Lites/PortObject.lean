import Mathlib.Algebra.Ring.Nat
import Mathlib.Data.Nat.Notation
import Mathlib.Logic.Function.Basic

/-!
# Port objects

`port_object.c` of the server: the name of a right is the address of its port object. A step is one
section under the lock of a port object, which may begin under the lock of a bucket of the hash
table; a thread that handles a message or shuts an object down is in a phase between two sections.
Objects are told apart by the order in which they were made, which the code does not see: it has the
name only. `ASSERTIONS` is on: where an assertion fails there is no step, as with a panic.
-/

namespace XMach.PortObject

open Function

variable {T : Type} [DecidableEq T]

inductive PortType
  | invalid | process | fileHandle | vnodePager | task | thread | exception | ioBuffer | device
  | pagerName | pagerControl | sigport | tty | charDev
  deriving DecidableEq

inductive Flag
  | receive | send | sendOnly | gc | consume | lazy | sendOnce | lookup
  deriving DecidableEq

/-- The flags of `port_object_methods`. -/
def PortType.flags : PortType → List Flag
  | .invalid => []
  | .process => [.receive, .gc, .lookup]
  | .fileHandle => [.receive, .send, .gc, .consume, .lookup]
  | .vnodePager => [.receive, .send, .lazy, .lookup]
  | .task => [.sendOnly, .gc, .consume, .lazy, .lookup]
  | .thread => [.sendOnly, .gc, .consume, .lazy]
  | .exception => [.receive, .send]
  | .ioBuffer => [.receive, .sendOnce, .lookup]
  | .device => [.sendOnly, .lookup]
  | .pagerName => [.sendOnly, .consume, .lazy]
  | .pagerControl => [.sendOnly, .consume, .lazy]
  | .sigport => [.sendOnly, .gc, .consume, .lazy]
  | .tty => [.receive, .sendOnce, .lookup]
  | .charDev => [.receive, .sendOnce, .lookup]

def PortType.has (type : PortType) (f : Flag) : Bool := type.flags.contains f

inductive Status
  | active | shutdown | inactive | drain | dead | senderAlive | senderDead
  deriving DecidableEq

/-- The state in which `port_object_shutdown` leaves an object. -/
def Status.closed (state : Status) : Status := if state = .inactive then .dead else .shutdown

/-- `struct port_object`, with its port and what became of it. -/
structure Obj where
  name : ℕ
  type : PortType
  state : Status
  seqno : ℕ
  mscount : ℕ
  extraUrefs : ℕ
  locked : Bool
  /-- the messages that the kernel has given out, `mps_seqno` -/
  dequeued : ℕ
  inSet : Bool
  frees : ℕ
  derefs : ℕ

/-- A thread between two sections. The last number is that of the object that it is about. -/
inductive Pending
  | idle
  /-- has taken a message, a no-senders notification if there is a make-send count -/
  | message (port seqno : ℕ) (mscount : Option ℕ) (id : ℕ)
  /-- in `port_object_no_senders`, before `port_object_shutdown` -/
  | notified (port id : ℕ)
  /-- in `port_object_shutdown`, until the receivers have caught up -/
  | closing (port seqno id : ℕ)

structure State (T : Type) where
  next : ℕ
  obj : ℕ → Obj
  /-- the object at an address -/
  heap : ℕ → Option ℕ
  /-- the hash table: what a search for the name finds -/
  hash : ℕ → Option ℕ
  /-- which buckets are locked -/
  bucket : ℕ → Bool
  thread : T → Pending

def portHash (port : ℕ) : ℕ := (port / 2 ^ 6 + port / 2 ^ 14) % 256

def State.put (s : State T) (q : ℕ) (o : Obj) : State T := { s with obj := update s.obj q o }

def State.goto (s : State T) (t : T) (p : Pending) : State T :=
  { s with thread := update s.thread t p }

def State.lock (s : State T) (q : ℕ) : Option (State T) :=
  if (s.obj q).locked then none else some (s.put q { s.obj q with locked := true })

def State.unlock (s : State T) (q : ℕ) : State T := s.put q { s.obj q with locked := false }

def State.lockBucket (s : State T) (port : ℕ) : Option (State T) :=
  if s.bucket (portHash port) then none
  else some { s with bucket := update s.bucket (portHash port) true }

/-- `port_object_hash_release`. -/
def State.hashRelease (s : State T) (port : ℕ) : State T :=
  { s with bucket := update s.bucket (portHash port) false }

/-- `port_object_hash_lookup_locked`. -/
def hashLookupLocked (s : State T) (port : ℕ) : Option (State T × Option ℕ) := do
  let s ← s.lockBucket port
  match s.hash port with
  | some q =>
    let s ← s.lock q
    return (s, some q)
  | none => return (s.hashRelease port, none)

/-- `port_object_hash_lookup`. -/
def hashLookup (s : State T) (port : ℕ) : Option (State T × Option ℕ) := do
  let (s, found) ← hashLookupLocked s port
  return (if found.isSome then s.hashRelease port else s, found)

def hashEnter (s : State T) (port q : ℕ) : Option (State T) := do
  let s ← s.lockBucket port
  return { s with hash := update s.hash port (some q) }.hashRelease port

def hashRemove (s : State T) (port : ℕ) : State T :=
  { s with hash := update s.hash port none }.hashRelease port

/-- The address that `zalloc` gives is that of no object; where the kernel has the name already
another one is tried. -/
def create (s : State T) (o : Obj) : Option (State T) :=
  if s.heap o.name = none then
    hashEnter { s with
      next := s.next + 1
      obj := update s.obj s.next o
      heap := update s.heap o.name (some s.next) } o.name s.next
  else none

/-- The caller adds the port to the set. -/
def allocateReceive (s : State T) (port : ℕ) (type : PortType) : Option (State T) :=
  create s ⟨port, type, if type.has .gc then .inactive else .active, 0, 0, 0, false, 0, true, 0, 0⟩

def enterSend (s : State T) (port : ℕ) (type : PortType) : Option (State T) :=
  create s ⟨port, type, .senderAlive, 0, 0, 0, false, 0, false, 0, 0⟩

/-- The part of a call in which it has the object from the hash table; `none` is a panic. -/
def withObject (s : State T) (port : ℕ) (f : Obj → Option Obj) : Option (State T) := do
  let (s, found) ← hashLookup s port
  match found with
  | none => return s
  | some q =>
    let o ← f (s.obj q)
    return (s.put q o).unlock q

/-- `kr` is set where `mach_port_insert_right` fails. -/
def makeSend (kr : Bool) (o : Obj) : Option Obj :=
  if o.type.has .receive && (o.state = .active || o.state = .inactive) then
    if o.type.has .lazy && o.extraUrefs ≠ 0 && !o.type.has .gc then
      some { o with extraUrefs := o.extraUrefs - 1 }
    else if kr then some o
    else if o.type.has .gc then some { o with mscount := o.mscount + 1, state := .active }
    else some { o with mscount := o.mscount + 1 }
  else none

def copySend (o : Obj) : Option Obj :=
  if o.type.has .sendOnly && o.state = .senderAlive then
    if o.type.has .lazy then
      some { o with extraUrefs := (if o.extraUrefs = 0 then 2000 else o.extraUrefs) - 1 }
    else some o
  else none

def sendLookup (o : Obj) : Option Obj :=
  if (o.type.has .send || o.type.has .sendOnly) &&
      (o.state = .active || o.state = .inactive || o.state = .drain || o.state = .senderAlive) &&
      !(o.type.has .gc && o.state = .drain) then
    if o.type.has .consume && o.type.has .lazy then
      some { o with
        extraUrefs :=
          if o.extraUrefs + 1 > 10000 then o.extraUrefs + 1 - 2000 else o.extraUrefs + 1 }
    else some o
  else none

/-- The underlying object is dereferenced and the port object freed, which is left locked. -/
def State.free (s : State T) (q : ℕ) : State T :=
  let o := s.obj q
  { s.put q { o with frees := o.frees + 1, derefs := o.derefs + 1 } with
    heap := update s.heap o.name none }

def deadName (s : State T) (name : ℕ) : Option (State T) := do
  let (s, found) ← hashLookupLocked s name
  match found with
  | none => return s
  | some q =>
    let o := s.obj q
    if o.state = .senderAlive && o.type.has .sendOnly && o.type.has .gc && !o.type.has .send &&
        !o.type.has .receive then
      return ((hashRemove s name).put q { o with state := .senderDead }).free q
    else none

/-- The kernel gives out a message, as long as the port is in the set. -/
def dequeue (s : State T) (t : T) (q : ℕ) (mscount : Option ℕ) : Option (State T) :=
  let o := s.obj q
  if q < s.next ∧ o.frees = 0 ∧ o.inSet then
    match s.thread t with
    | .idle =>
      some ((s.put q { o with dequeued := o.dequeued + 1 }).goto t
        (.message o.name o.dequeued mscount q))
    | _ => none
  else none

/-- The section of `port_object_receive_lookup`, `port_object_receive_lookup_any` or
`port_object_no_senders` when the message is the next one; before that the thread waits. -/
def handle (s : State T) (t : T) : Option (State T) :=
  match s.thread t with
  | .message port seqno mscount id => do
    let q ← s.heap port
    let s ← s.lock q
    let o := s.obj q
    if o.seqno ≠ seqno then none
    else
      let o := { o with seqno := o.seqno + 1 }
      match mscount with
      | none => if o.type.has .receive then some (((s.put q o).unlock q).goto t .idle) else none
      | some mscount =>
        if o.type.has .gc then
          match o.state with
          | .shutdown => some (((s.put q { o with state := .dead }).unlock q).goto t .idle)
          | .active =>
            -- the notification is requested again, and the lock is kept
            if o.mscount > mscount then some ((s.put q o).goto t .idle)
            else some (((s.put q { o with state := .inactive }).unlock q).goto t
              (.notified port id))
          | _ => none
        else none
  | _ => none

/-- `port_object_shutdown`, up to where it waits. -/
def beginShutdown (s : State T) (t : T) (port : ℕ) (force : Bool) : Option (State T) := do
  let (s, found) ← hashLookupLocked s port
  match found with
  | none => return s.goto t .idle
  | some q =>
    let o := s.obj q
    if o.state = .active && !force then return ((s.hashRelease port).unlock q).goto t .idle
    else if o.state = .active || o.state = .inactive then
      let o := { o with inSet := false, state := o.state.closed }
      return (((hashRemove s port).put q o).unlock q).goto t (.closing port o.dequeued q)
    else none

/-- The rest of it. -/
def finish (s : State T) (t : T) : Option (State T) :=
  match s.thread t with
  | .closing port seqno _ => do
    let q ← s.heap port
    let s ← s.lock q
    let o := s.obj q
    if o.seqno < seqno then none
    else if o.state = .dead then some ((s.free q).goto t .idle)
    else some ((s.unlock q).goto t .idle)
  | _ => none

inductive Act (T : Type)
  | allocateReceive (port : ℕ) (type : PortType)
  | enterSend (port : ℕ) (type : PortType)
  | makeSend (port : ℕ) (kr : Bool)
  | copySend (port : ℕ)
  | sendLookup (port : ℕ)
  | deadName (name : ℕ)
  | dequeue (t : T) (q : ℕ) (mscount : Option ℕ)
  | handle (t : T)
  | shutdown (t : T) (port : ℕ) (force : Bool)
  /-- the shutdown that a no-senders notification issues -/
  | shutdownNotified (t : T)
  | finish (t : T)

def step (s : State T) : Act T → Option (State T)
  | .allocateReceive port type => allocateReceive s port type
  | .enterSend port type => enterSend s port type
  | .makeSend port kr => withObject s port (makeSend kr)
  | .copySend port => withObject s port copySend
  | .sendLookup port => withObject s port sendLookup
  | .deadName name => deadName s name
  | .dequeue t q mscount => dequeue s t q mscount
  | .handle t => handle s t
  | .shutdown t port force =>
    match s.thread t with
    | .idle => beginShutdown s t port force
    | _ => none
  | .shutdownNotified t =>
    match s.thread t with
    | .notified port _ => beginShutdown s t port false
    | _ => none
  | .finish t => finish s t

def init : State T :=
  ⟨0, fun _ => ⟨0, .invalid, .dead, 0, 0, 0, false, 0, false, 0, 0⟩, fun _ => none, fun _ => none,
    fun _ => false, fun _ => .idle⟩

/-- The runs all of whose steps meet a condition. -/
inductive Reached (C : State T → Act T → Prop) : State T → Prop
  | init : Reached C init
  | step {s s' : State T} (a : Act T) (h : Reached C s) (hc : C s a) (hs : step s a = some s') :
      Reached C s'

/-- No port object is made at an address while a notification is about to shut down what was
there. -/
def Act.sparing (s : State T) : Act T → Prop
  | .allocateReceive port _ | .enterSend port _ => ∀ t id, s.thread t ≠ .notified port id
  | _ => True

/-- A notification is not outdated by send rights made since, and an object that is shut down has no
senders by the end. -/
def Act.balanced (s : State T) : Act T → Prop
  | .handle t => ∀ port seqno mscount id q, s.thread t = .message port seqno (some mscount) id →
      s.heap port = some q → (s.obj q).state = .active → (s.obj q).mscount ≤ mscount
  | .finish t => ∀ port seqno id q, s.thread t = .closing port seqno id → s.heap port = some q →
      (s.obj q).state = .dead
  | _ => True

def run (s : State T) (acts : List (Act T)) : Option (State T) := acts.foldlM step s

end XMach.PortObject
