import Mathlib.Algebra.Ring.Int.Defs
import Mathlib.Data.Int.Notation
import Mathlib.Order.Notation
import XMach.Lib.Machine
import XMach.Lites.PortObject

/-!
# Send rights that are given back lazily

The port objects of `port_object.c` with `POF_LAZY`: references to the name that the server does not
need any more are counted in `extra_urefs` and used for the next right that it makes. Beside the
object there is the entry for the name in the server's space, as `ipc_right.c` keeps it, and what
the server does with the references: those that came with messages and are not consumed yet, and
those that it made and did not send yet. `ASSERTIONS` is off, as in the standard configuration, so
that a failing call is ignored; in `PortObject` it is on.
-/

namespace XMach.LazyUrefs

open PortObject (PortType Flag)

inductive Right
  | send | deadName
  deriving DecidableEq

/-- The entry for the name, which is gone with the last reference. -/
structure Entry where
  right : Right
  urefs : ℕ
  deriving DecidableEq

inductive KernReturn
  | success | invalidName | invalidRight | invalidValue | urefsOverflow
  deriving DecidableEq

def portUrefsMax : ℕ := 2 ^ 16 - 1

/-- `ipc_right_delta`, for these two rights. -/
def Entry.delta (e : Entry) (right : Right) (d : ℤ) : KernReturn × Entry :=
  if e.urefs = 0 then (.invalidName, e)
  else if e.right ≠ right then (.invalidRight, e)
  else if d < 0 ∧ -d > e.urefs then (.invalidValue, e)
  -- a send right keeps one below the maximum, for a dead-name notification
  else if d > 0 ∧ e.urefs + (if right = .send then 1 else 0) + d > portUrefsMax then
    (.urefsOverflow, e)
  else (.success, { e with urefs := (e.urefs + d).toNat })

/-- `ipc_right_dealloc`, and `ipc_right_copyin` of a right that is moved. -/
def Entry.drop (e : Entry) : Entry := { e with urefs := e.urefs - 1 }

/-- `ipc_right_copyout` of a send right in a message. -/
def Entry.copyout (e : Entry) : Entry :=
  -- at the maximum the references are left as they are
  if e.urefs + 1 = portUrefsMax then e else { e with urefs := e.urefs + 1 }

def lazyUrefsLimit : ℕ := 10000
def lazyUrefsDelta : ℕ := 2000

structure State where
  entry : Entry
  type : PortType
  /-- `extra_urefs`, 32 bits, as long as the object is there -/
  extra : Option ℕ
  /-- the references at `port_object_enter_send` that the server still has -/
  base : ℕ
  /-- the reference that comes with the dead-name notification -/
  notice : ℕ
  received : ℕ
  produced : ℕ

def enterSend (type : PortType) (urefs : ℕ) : State :=
  ⟨⟨.send, urefs⟩, type, some 0, urefs, 0, 0, 0⟩

/-- The lookup of a right that was received: without the object the right is not consumed. -/
def sendLookup (s : State) : State :=
  match s.extra with
  | none => s
  | some x =>
    if s.type.has .consume && s.type.has .lazy then
      let x := (x + 1) % 2 ^ 32
      let s := { s with received := s.received - 1 }
      if x > lazyUrefsLimit then
        { s with
          entry := (s.entry.delta .send (-lazyUrefsDelta)).2
          extra := some ((x + (2 ^ 32 - lazyUrefsDelta)) % 2 ^ 32) }
      else { s with extra := some x }
    else s

/-- The right is made only if the call returns success. -/
def copySend (s : State) : State :=
  match s.extra with
  | none => s
  | some x =>
    if s.type.has .lazy then
      if x = 0 then
        let (kr, e) := s.entry.delta .send lazyUrefsDelta
        let x := if kr = .success then x + lazyUrefsDelta else x
        { s with
          entry := e
          extra := some ((x + (2 ^ 32 - 1)) % 2 ^ 32)
          produced := if kr = .success then s.produced + 1 else s.produced }
      else { s with extra := some ((x + (2 ^ 32 - 1)) % 2 ^ 32), produced := s.produced + 1 }
    else
      let (kr, e) := s.entry.delta .send 1
      { s with entry := e, produced := if kr = .success then s.produced + 1 else s.produced }

/-- `-po->extra_urefs`, as an `int`. -/
def negated (x : ℕ) : ℤ := Int.bmod (-x) (2 ^ 32)

def deleteExtraUrefs (e : Entry) (x : ℕ) : Entry :=
  if negated x ≤ 0 then e
  else
    let (kr, e) := e.delta .send (negated x)
    if kr = .invalidRight then (e.delta .deadName (negated x)).2 else e

/-- Whether removing the reverse mapping gives back a reference from the start, and the one of the
notification: `task_remove_reverse`, `thread_remove_reverse` and `sigport_remove_reverse`. -/
def releases : PortType → Bool
  | .task | .thread | .sigport => true
  | _ => false

def deadName (s : State) : State :=
  match s.extra with
  | none => s
  | some x =>
    let s :=
      if releases s.type then
        { s with entry := s.entry.drop.drop, base := s.base - 1, notice := 0 }
      else s
    { s with entry := deleteExtraUrefs s.entry x, extra := none }

inductive Act
  /-- a message with a right to the port comes in -/
  | receive
  | sendLookup
  | copySend
  /-- a right that was made goes out in a message -/
  | move
  /-- a right that was made is looked up in place of one that is to be kept -/
  | keep
  /-- the port dies, and the notification is sent -/
  | die
  | deadName

def step (s : State) : Act → Option State
  | .receive =>
    if s.entry.right = .send then
      some { s with entry := s.entry.copyout, received := s.received + 1 }
    else none
  | .sendLookup => if s.received = 0 then none else some (LazyUrefs.sendLookup s)
  | .copySend => some (LazyUrefs.copySend s)
  | .move =>
    if s.produced = 0 then none
    else some { s with entry := s.entry.drop, produced := s.produced - 1 }
  | .keep =>
    if s.produced = 0 then none
    else some { s with produced := s.produced - 1, received := s.received + 1 }
  | .die =>
    if s.entry.right = .send then
      some { s with entry := ⟨.deadName, s.entry.urefs + 1⟩, notice := 1 }
    else none
  | .deadName => if s.notice = 0 then none else some (LazyUrefs.deadName s)

/-- The object of a name with some references, with `POF_LAZY`. -/
def machine : Machine State Act :=
  ⟨fun s => ∃ type n, 0 < n ∧ n + 1 < portUrefsMax ∧ type.has .lazy = true ∧
    s = enterSend type n, step⟩

/-- The references in the entry are those that somebody answers for, and the surplus is in bounds:
it is one above the limit only inside a lookup that trims it. -/
structure Balanced (s : State) : Prop where
  urefs : s.entry.urefs = s.base + (s.received + s.notice) + s.produced + s.extra.getD 0
  limit : s.extra.getD 0 ≤ lazyUrefsLimit

/-- No reference is lost at the maximum; when the surplus is trimmed or filled up the name is a send
right with enough room; and a dead name has no surplus. -/
def Act.Careful (s : State) : Act → Prop
  | .receive => s.entry.urefs + 1 ≠ portUrefsMax
  | .sendLookup => s.extra = some lazyUrefsLimit → s.type.has .consume = true →
      s.entry.right = .send
  | .copySend => s.extra = some 0 → s.entry.right = .send ∧
      s.entry.urefs + 1 + lazyUrefsDelta ≤ portUrefsMax
  | .deadName => ∀ x, s.extra = some x → x = 0
  | .move | .keep | .die => True

end XMach.LazyUrefs
