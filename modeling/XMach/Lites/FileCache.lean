import Mathlib.Data.Nat.Notation
import Mathlib.Logic.Function.Basic
import XMach.Lib.Machine

/-!
# The file cache

A regular file is cached by the server in its buffers and by the kernel in the pages of a memory
object. The state of the vnode says who has access (`vn_pager_misc.c`), and the pager messages of
the kernel change it (`xmm_interface.c`). A handler runs under the master lock up to where it
sleeps. The requests to the kernel are handled in their order; the kernel has at most the access
that it was granted, and answers a request with a reply port when it has returned its dirty pages.
The kernel's messages come with its control port and with whole pages. The assertions are compiled
in: one that fails stops the server.
-/

namespace XMach.FileCache

/-- `v_cache_state` -/
inductive CacheState
  | free | read | moWrite | bufWrite | moCleaning | moFlushing
  deriving DecidableEq

/-- Waiting for the kernel. -/
def CacheState.transit : CacheState → Bool
  | .moCleaning | .moFlushing => true
  | _ => false

/-- The most that the kernel has of any page. -/
inductive Access
  | none | read | write
  deriving DecidableEq

def Access.rank : Access → ℕ
  | .none => 0
  | .read => 1
  | .write => 2

/-- What the server sends to the control port. -/
inductive Request
  /-- `memory_object_data_supply`, without write access -/
  | supply
  | grantRead
  | grantWrite
  /-- the dirty pages are to be returned and write access given up, with a reply -/
  | clean
  /-- all pages are to be given up, with a reply -/
  | flush
  deriving DecidableEq

/-- What the kernel has of the memory object, and has been sent. -/
structure Kernel where
  access : Access
  dirty : Bool
  /-- the requests that the kernel has not handled yet -/
  requests : List Request
  /-- the replies that the kernel owes -/
  replies : ℕ

/-- Before there is a memory object. -/
def Kernel.unused : Kernel := ⟨.none, false, [], 0⟩

/-- The kernel handles a request. -/
def Kernel.handle (k : Kernel) : Request → Kernel
  | .supply | .grantRead => { k with access := if k.access = .none then .read else k.access }
  | .grantWrite => { k with access := .write }
  | .clean => { k with
      access := if k.access = .write then .read else k.access
      replies := k.replies + 1 }
  | .flush => { k with access := .none, replies := k.replies + 1 }

/-- The vnode and its memory object. -/
structure Vnode extends Kernel where
  vc : CacheState
  /-- `v_vmdata` -/
  pager : Bool
  /-- the control port, if it is valid -/
  control : Option ℕ
  /-- the next control port -/
  next : ℕ
  /-- the control ports of destroyed pagers, which are still alive in the kernel -/
  orphans : List ℕ
  /-- an assertion has failed, or the server has called `panic` -/
  failed : Bool

/-- What a thread was doing when it went to sleep. -/
inductive Op
  | bufRead
  /-- in `vn_pager_revoke_read_and_wait` for a write -/
  | bufWrite
  | revokeWrite
  | revokeRead
  | vgone
  | dataUnlock (write : Bool) (control : ℕ)
  deriving DecidableEq

inductive Phase
  | out
  | asleep (op : Op)
  /-- buffer input and output -/
  | reading
  | writing
  /-- in `memory_object_data_request`, reading the page -/
  | paging (control : ℕ)
  deriving DecidableEq

namespace Vnode

def fail (v : Vnode) : Vnode := { v with failed := true }

def send (v : Vnode) (r : Request) : Vnode := { v with requests := v.requests ++ [r] }

/-- `VC_MO_WRITE -> VC_MO_CLEANING` -/
def revokeWrite (v : Vnode) : Vnode :=
  if v.control = none then { v with vc := .free }
  else if v.vc ≠ .moWrite then v
  else { v with vc := .moCleaning }.send .clean

/-- `VC_READ -> VC_MO_FLUSHING` -/
def revokeRead (v : Vnode) : Vnode :=
  if v.control = none then { v with vc := .free }
  else if v.vc ≠ .read then v.fail
  else { v with vc := .moFlushing }.send .flush

/-- A pass of `vn_pager_revoke_write_and_wait`: it sleeps, or leaves the loop. -/
def revokeWriteAndWait (v : Vnode) (op : Op) (k : Vnode → Vnode × Phase) : Vnode × Phase :=
  if v.vc = .free ∨ v.vc = .read ∨ v.vc = .bufWrite then k v
  else
    let v := v.revokeWrite
    if v.vc.transit then (v, .asleep op) else k v

/-- A pass of `vn_pager_revoke_read_and_wait`. -/
def revokeReadAndWait (v : Vnode) (op : Op) (k : Vnode → Vnode × Phase) : Vnode × Phase :=
  if v.vc = .free then k v
  else
    let v := v.revokeRead
    if v.failed then (v, .out) else if v.vc.transit then (v, .asleep op) else k v

/-- `vn_cache_state_buf_read` -/
def bufRead (v : Vnode) : Vnode × Phase :=
  match v.vc with
  | .read | .bufWrite => (v, .reading)
  | .free => ({ v with vc := .read }, .reading)
  -- the pass leaves the loop with `VC_FREE` only
  | _ => v.revokeWriteAndWait .bufRead fun v => ({ v with vc := .read }, .reading)

/-- What follows the loop of `vn_pager_revoke_read_and_wait` in `vn_cache_state_buf_write`. -/
def toBufWrite (v : Vnode) : Vnode × Phase := ({ v with vc := .bufWrite }, .writing)

def bufWrite (v : Vnode) : Vnode × Phase :=
  match v.vc with
  | .bufWrite => (v, .writing)
  | .free => v.toBufWrite
  | _ => v.revokeReadAndWait .bufWrite toBufWrite

/-- `vn_pager_destroy`: what the kernel does with the orphaned object is not seen here any more. -/
def destroy (v : Vnode) : Vnode × Phase :=
  if v.pager then
    ({ v with
        toKernel := .unused
        vc := .free
        pager := false
        control := none
        orphans := v.control.toList ++ v.orphans }, .out)
  else (v, .out)

/-- The control port of a message that has been waiting still takes requests. -/
def alive (v : Vnode) (control : ℕ) : Bool := v.control = some control ∨ control ∈ v.orphans

/-- A request to the control port that came with a message. -/
def sendTo (v : Vnode) (control : ℕ) (r : Request) : Vnode :=
  if v.control = some control then v.send r else v

def dataUnlock (v : Vnode) (write : Bool) (control : ℕ) : Vnode × Phase :=
  if v.vc.transit then (v, .asleep (.dataUnlock write control))
  else
    let vc := match write, v.vc with
      | true, _ => .moWrite
      | false, .moWrite => .moWrite
      | false, _ => .read
    let v := { v with vc := vc }
    -- `kr == KERN_SUCCESS`
    if v.alive control then (v.sendTo control (if write then .grantWrite else .grantRead), .out)
    else (v.fail, .out)

/-- A thread that was asleep goes on. -/
def wake (v : Vnode) (op : Op) : Vnode × Phase :=
  if v.vc.transit then (v, .asleep op)
  else match op with
    | .bufRead => v.bufRead
    | .bufWrite => v.revokeReadAndWait .bufWrite toBufWrite
    | .revokeWrite => v.revokeWriteAndWait .revokeWrite fun v => (v, .out)
    | .revokeRead => v.revokeReadAndWait .revokeRead fun v => (v, .out)
    | .vgone => v.revokeReadAndWait .vgone destroy
    | .dataUnlock write control => v.dataUnlock write control

/-- The end of `memory_object_data_request`: data, or an error. -/
def dataSupply (v : Vnode) (control : ℕ) (ok : Bool) : Vnode :=
  if v.alive control then if ok then v.sendTo control .supply else v
  else v.fail

def dataWrite (v : Vnode) (more : Bool) : Vnode :=
  let v := { v with dirty := more }
  if v.vc = .moWrite ∨ v.vc = .moCleaning then v else v.fail

def lockCompleted (v : Vnode) : Vnode :=
  let v := { v with replies := v.replies - 1 }
  match v.vc with
  | .moCleaning => { v with vc := .read }
  | .moFlushing => { v with vc := .free }
  | _ => v.fail

/-- The pages of the object are gone, with the requests that were not handled. -/
def terminate (v : Vnode) : Vnode := { v with toKernel := .unused, vc := .free, control := none }

end Vnode

structure State (T : Type*) where
  vn : Vnode
  phase : T → Phase

variable {T : Type*} [DecidableEq T]

namespace State

def set (s : State T) (t : T) (r : Vnode × Phase) : State T := ⟨r.1, Function.update s.phase t r.2⟩

def NoWriter (s : State T) : Prop := ∀ t, s.phase t ≠ .writing

def NoBufferIO (s : State T) : Prop := ∀ t, s.phase t ≠ .reading ∧ s.phase t ≠ .writing

end State

inductive Act (T : Type*)
  | bufRead (t : T)
  | bufWrite (t : T)
  /-- `vn_pager_revoke_write`, or with `wait` `vn_pager_revoke_write_and_wait`; so does
  `vn_pager_sync` -/
  | revokeWrite (t : T) (wait : Bool)
  | revokeRead (t : T) (wait : Bool)
  /-- `vgone` writes back, flushes and destroys the pager -/
  | vgone (t : T)
  | wake (t : T)
  /-- the end of buffer input or output -/
  | ioDone (t : T)
  /-- `vnode_to_port` makes the pager -/
  | create
  | init
  | dataRequest (t : T)
  | dataSupply (t : T) (ok : Bool)
  | dataUnlock (t : T) (write : Bool)
  | dataWrite (more : Bool)
  | lockCompleted
  | terminate
  /-- the kernel handles a request, writes to a page, or gives up pages -/
  | handle
  | soil
  | giveUp (access : Access)

/-- A step of the server or of the kernel. -/
def act (s : State T) : Act T → Option (State T)
  | .bufRead t => if s.phase t = .out then some (s.set t s.vn.bufRead) else none
  | .bufWrite t => if s.phase t = .out then some (s.set t s.vn.bufWrite) else none
  | .revokeWrite t wait =>
    if s.phase t = .out then
      some <| s.set t <|
        if wait then s.vn.revokeWriteAndWait .revokeWrite fun v => (v, .out)
        else (s.vn.revokeWrite, .out)
    else none
  | .revokeRead t wait =>
    if s.phase t = .out then
      some <| s.set t <|
        if wait then s.vn.revokeReadAndWait .revokeRead fun v => (v, .out)
        else (s.vn.revokeRead, .out)
    else none
  | .vgone t =>
    if s.phase t = .out then
      some (s.set t (s.vn.revokeWrite.revokeReadAndWait .vgone Vnode.destroy))
    else none
  | .wake t =>
    match s.phase t with
    | .asleep op => some (s.set t (s.vn.wake op))
    | _ => none
  | .ioDone t =>
    if s.phase t = .reading ∨ s.phase t = .writing then some (s.set t (s.vn, .out)) else none
  | .create => if s.vn.pager then none else some { s with vn := { s.vn with pager := true } }
  | .init =>
    if s.vn.pager ∧ s.vn.control = none then
      some { s with vn := { s.vn with control := some s.vn.next, next := s.vn.next + 1 } }
    else none
  | .dataRequest t =>
    match s.phase t, s.vn.control with
    | .out, some c => some (s.set t (s.vn, .paging c))
    | _, _ => none
  | .dataSupply t ok =>
    match s.phase t with
    | .paging c => some (s.set t (s.vn.dataSupply c ok, .out))
    | _ => none
  | .dataUnlock t write =>
    match s.phase t, s.vn.control with
    | .out, some c => some (s.set t (s.vn.dataUnlock write c))
    | _, _ => none
  | .dataWrite more =>
    if s.vn.control.isSome ∧ s.vn.dirty then some { s with vn := s.vn.dataWrite more } else none
  | .lockCompleted =>
    if s.vn.control.isSome ∧ s.vn.replies ≠ 0 ∧ s.vn.dirty = false then
      some { s with vn := s.vn.lockCompleted }
    else none
  | .terminate =>
    if s.vn.control.isSome ∧ s.vn.replies = 0 ∧ s.vn.dirty = false then
      some { s with vn := s.vn.terminate }
    else none
  | .handle =>
    match s.vn.requests with
    | [] => none
    | r :: rs => some { s with
        vn := { s.vn with toKernel := { s.vn.toKernel with requests := rs }.handle r } }
  | .soil =>
    if s.vn.access = .write then some { s with vn := { s.vn with dirty := true } } else none
  | .giveUp access =>
    if access.rank ≤ s.vn.access.rank then some { s with vn := { s.vn with access := access } }
    else none

/-- A server that has failed does nothing any more. -/
def step (s : State T) (a : Act T) : Option (State T) := if s.vn.failed then none else act s a

def initial : State T := ⟨⟨.unused, .free, false, none, 0, [], false⟩, fun _ => .out⟩

variable (T) in
def machine : Machine (State T) (Act T) := ⟨fun s => s = initial, step⟩

structure Coherent (s : State T) : Prop where
  failed : s.vn.failed = false
  bufWrite : s.vn.vc = .bufWrite → s.vn.access = .none
  moWrite : s.vn.vc = .moWrite ∨ s.vn.vc = .moCleaning → s.NoBufferIO
  read : s.vn.vc = .read → s.vn.access ≠ .write ∧ s.NoWriter

/-- What ends a transition. -/
def Act.Ends : Act T → Prop
  | .lockCompleted | .terminate => True
  | _ => False

/-- `vn_pager_revoke_read_and_wait` finds `VC_FREE` or `VC_READ`, if there is a memory object. -/
def Vnode.Revocable (v : Vnode) : Prop := v.control ≠ none → v.vc = .free ∨ v.vc = .read

/-- The kernel has no access, and will not get any. -/
def Kernel.Idle (k : Kernel) : Prop := k.access = .none ∧ k.requests = []

/-- `memory_object_data_unlock` changes the state only if no buffer input or output is in the
way. -/
def State.Unlockable (s : State T) (write : Bool) (control : ℕ) : Prop :=
  s.vn.alive control = true ∧ (write = true → s.vn.vc ≠ .moWrite → s.NoBufferIO) ∧
    (write = false → s.vn.vc = .free ∨ s.vn.vc = .bufWrite → s.NoWriter)

def Act.Careful (s : State T) : Act T → Prop
  | .bufRead _ => s.vn.vc = .free → s.NoWriter
  | .bufWrite _ => s.vn.vc ≠ .bufWrite → s.vn.Revocable ∧ (s.vn.vc = .free → s.vn.toKernel.Idle)
  | .revokeRead _ wait => s.vn.Revocable ∧ (wait = false → s.vn.control ≠ none → s.vn.vc ≠ .free)
  | .vgone _ => s.vn.Revocable
  | .dataUnlock _ write => s.vn.vc.transit = false → ∀ c, s.vn.control = some c →
      s.Unlockable write c
  | .wake t => s.vn.vc.transit = false →
    match s.phase t with
    | .asleep .bufRead => s.vn.vc = .free → s.NoWriter
    | .asleep .bufWrite => s.vn.Revocable ∧ (s.vn.vc = .free → s.vn.toKernel.Idle)
    | .asleep .revokeRead | .asleep .vgone => s.vn.Revocable
    | .asleep (.dataUnlock write c) => s.Unlockable write c
    | _ => True
  | .dataSupply t ok => ∀ c, s.phase t = .paging c →
    s.vn.alive c = true ∧ (ok = true → s.vn.control = some c → s.vn.vc ≠ .bufWrite)
  | _ => True

end XMach.FileCache
