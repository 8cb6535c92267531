import Mathlib.Data.Int.Notation
import Mathlib.Data.Nat.Notation
import Mathlib.Logic.Function.Basic
import XMach.Lib.Machine

/-!
# The receive throttle of the server

`cthread_mach_msg`, `cthread_msg_busy` and `cthread_msg_active` of `cprocs.c` limit how many kernel
threads receive on a port. A port has one entry, which `get_port_entry` finds or makes and which is
never freed, so that a pointer to it is the port. A step is a section under one lock, a `mach_msg`,
or what a cproc does by itself between two of them. A cproc that is taken off the queue of an entry
goes on behind its `cproc_block`.
-/

namespace XMach.Throttle

/-- `struct port_entry` -/
structure PortEntry (P : Type*) where
  queue : List P
  min : ℤ
  max : ℤ
  held : ℤ

/-- Where a cproc is. -/
inductive Pc
  /-- in none of the functions -/
  | out
  /-- `cthread_msg_busy` has the entry -/
  | msgBusy (entry : ℕ)
  /-- `cthread_msg_active` has the entry -/
  | msgActive (entry : ℕ)
  /-- `cthread_mach_msg` has the entry -/
  | machMsg (entry : ℕ) (max : ℤ) (send : Bool)
  /-- in the `mach_msg` that only sends -/
  | sending (entry : ℕ) (max : ℤ)
  /-- the message is sent, before the entry is locked again -/
  | sent (entry : ℕ) (max : ℤ)
  /-- on the queue of the entry -/
  | queued (entry : ℕ)
  /-- with a slot that is not recorded yet; `send` says that there is still a message to send -/
  | slot (entry : ℕ) (send : Bool)
  /-- in the `mach_msg` that receives -/
  | receiving (entry : ℕ) (send : Bool)
  deriving DecidableEq

structure Cproc where
  /-- the entry to which `p->busy` points -/
  busy : Option ℕ
  pc : Pc
  deriving DecidableEq

structure State (P : Type*) where
  /-- `port_list`, by the ports -/
  entry : ℕ → Option (PortEntry P)
  cproc : P → Cproc

/-- The calls, with their limits. -/
inductive Call
  | msgBusy (port : ℕ) (min max : ℤ)
  | msgActive (port : ℕ) (min max : ℤ)
  /-- `send` is `MACH_SEND_MSG` in the option. -/
  | machMsg (port : ℕ) (min max : ℤ) (send : Bool)

inductive Act (P : Type*)
  | call (p : P) (c : Call)
  /-- the next section of a cproc -/
  | go (p : P)
  /-- a `mach_msg` that only sends fails -/
  | fail (p : P)

variable {P : Type*} [DecidableEq P]

namespace State

def put (s : State P) (p : P) (c : Cproc) : State P :=
  { s with cproc := Function.update s.cproc p c }

def setEntry (s : State P) (e : ℕ) (en : PortEntry P) : State P :=
  { s with entry := Function.update s.entry e (some en) }

@[simp] theorem put_cproc_self (s : State P) (p : P) (c : Cproc) : (s.put p c).cproc p = c := by
  simp [put]

theorem put_cproc_of_ne (s : State P) {p q : P} (c : Cproc) (h : q ≠ p) :
    (s.put p c).cproc q = s.cproc q := by
  simp [put, h]

@[simp] theorem put_entry (s : State P) (p : P) (c : Cproc) : (s.put p c).entry = s.entry := rfl

omit [DecidableEq P] in
@[simp] theorem setEntry_entry_self (s : State P) (e : ℕ) (en : PortEntry P) :
    (s.setEntry e en).entry e = some en := by
  simp [setEntry]

omit [DecidableEq P] in
theorem setEntry_entry_of_ne (s : State P) {e f : ℕ} (en : PortEntry P) (h : f ≠ e) :
    (s.setEntry e en).entry f = s.entry f := by
  simp [setEntry, h]

omit [DecidableEq P] in
@[simp] theorem setEntry_cproc (s : State P) (e : ℕ) (en : PortEntry P) :
    (s.setEntry e en).cproc = s.cproc := rfl

def getPortEntry (s : State P) (port : ℕ) (min max : ℤ) : State P :=
  match s.entry port with
  | some _ => s
  | none => s.setEntry port ⟨[], min, max, 0⟩

/-- The section of `cthread_msg_busy` under the lock of the entry. -/
def msgBusy (s : State P) (p : P) (e : ℕ) (en : PortEntry P) (pc : Pc) : State P :=
  let s := s.put p ⟨none, pc⟩
  if en.held ≤ en.min then
    match en.queue with
    | new :: queue =>
      (s.setEntry e { en with queue := queue }).put new { s.cproc new with pc := .slot e false }
    | [] => s.setEntry e { en with held := en.held - 1 }
  else s.setEntry e { en with held := en.held - 1 }

/-- The section of `cthread_msg_active` under the lock of the entry. -/
def msgActive (s : State P) (p : P) (e : ℕ) (en : PortEntry P) : State P :=
  if en.held < en.max then (s.setEntry e { en with held := en.held + 1 }).put p ⟨some e, .out⟩
  else s.put p { s.cproc p with pc := .out }

/-- A cproc that must receive takes a slot, or waits for one. -/
def take (s : State P) (p : P) (e : ℕ) (en : PortEntry P) (max : ℤ) (send : Bool) : State P :=
  if en.held ≥ max then
    (s.setEntry e { en with queue := p :: en.queue }).put p { s.cproc p with pc := .queued e }
  else (s.setEntry e { en with held := en.held + 1 }).put p { s.cproc p with pc := .slot e send }

end State

def call (s : State P) (p : P) : Call → State P
  | .msgBusy port min max =>
    if (s.cproc p).busy.isSome then
      (s.getPortEntry port min max).put p { s.cproc p with pc := .msgBusy port }
    else s
  | .msgActive port min max =>
    if (s.cproc p).busy.isSome then s
    else (s.getPortEntry port min max).put p { s.cproc p with pc := .msgActive port }
  | .machMsg port min max send =>
    (s.getPortEntry port min max).put p { s.cproc p with pc := .machMsg port max send }

/-- What a cproc does next. -/
def go (s : State P) (p : P) : Option (State P) :=
  let c := s.cproc p
  match c.pc with
  | .out | .queued _ => none
  | .msgBusy e => (s.entry e).map fun en => s.msgBusy p e en .out
  | .msgActive e => (s.entry e).map fun en => s.msgActive p e en
  | .machMsg e max send =>
    match c.busy with
    | some op =>
      if op ≠ e then (s.entry op).map fun en => s.msgBusy p op en c.pc
      else some (s.put p { c with pc := .receiving e send })
    | none =>
      (s.entry e).map fun en =>
        if en.held ≥ max ∧ send = true then s.put p { c with pc := .sending e max }
        else s.take p e en max send
  | .sending e max => some (s.put p { c with pc := .sent e max })
  | .sent e max => (s.entry e).map fun en => s.take p e en max false
  | .slot e send => some (s.put p ⟨some e, .receiving e send⟩)
  | .receiving _ _ => some (s.put p { c with pc := .out })

def step (s : State P) : Act P → Option (State P)
  | .call p c => if (s.cproc p).pc = .out then some (call s p c) else none
  | .go p => go s p
  | .fail p =>
    match (s.cproc p).pc with
    | .sending _ _ => some (s.put p { s.cproc p with pc := .out })
    | _ => none

/-- There are no entries, and no cproc holds one. -/
def machine (P : Type*) [DecidableEq P] : Machine (State P) (Act P) where
  start s := (∀ e, s.entry e = none) ∧ ∀ p, s.cproc p = ⟨none, .out⟩
  step := step

end XMach.Throttle
