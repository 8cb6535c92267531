import Mathlib.Data.BitVec

/-!
# The priorities of a thread

The calls of `thread.c`, `syscall_subr.c` and `sched_prim.c` that read or write the priority fields
of a thread, with `MACH_FIXPRI` and statistical timing. What `set_pri` does to the run queues is not
part of this model.
-/

namespace XMach.Sched

inductive Policy
  | timeshare | fixedpri
  deriving DecidableEq

structure Thread where
  priority : ℤ
  maxPriority : ℤ
  schedPri : ℤ
  /-- the priority to restore, or -1 -/
  depressPriority : ℤ
  policy : Policy
  schedUsage : BitVec 32
  deriving DecidableEq

def invalidPri (pri : ℤ) : Bool := pri < 0 || 32 ≤ pri

/-- `do_priority_computation`, with `PRI_SHIFT` 18 and `SCHED_SHIFT` 7. -/
def doPriorityComputation (th : Thread) : ℤ := min 31 (th.priority + (th.schedUsage >>> 25).toNat)

def setPri (th : Thread) (pri : ℤ) : Thread := { th with schedPri := pri }

def computePriority (th : Thread) : Thread :=
  match th.policy with
  | .timeshare =>
    if th.depressPriority < 0 then setPri th (doPriorityComputation th)
    else { th with depressPriority := doPriorityComputation th }
  | .fixedpri => setPri th th.priority

/-- What a call does to the thread; `none` where it returns an error. -/
def threadPriority (priority : ℤ) (setMax : Bool) (th : Thread) : Option Thread :=
  if invalidPri priority then none
  else if priority < th.maxPriority then none
  else
    let th :=
      if th.depressPriority ≥ 0 then { th with depressPriority := priority }
      else computePriority { th with priority }
    some (if setMax then { th with maxPriority := priority } else th)

def threadMaxPriority (maxPriority : ℤ) (th : Thread) : Option Thread :=
  if invalidPri maxPriority then none
  else
    let th := { th with maxPriority }
    if maxPriority > th.priority then some (computePriority { th with priority := maxPriority })
    else if th.depressPriority ≥ 0 ∧ maxPriority > th.depressPriority then
      some { th with depressPriority := maxPriority }
    else some th

/-- `thread_policy`, for the policies that the processor set has; the quantum is left out. -/
def threadPolicy (policies : Policy → Bool) (policy : Policy) (th : Thread) : Option Thread :=
  if policy = th.policy then some th
  else if policies policy = false then none
  else some (computePriority { th with policy })

/-- The timer of the depression may run out or not, so that it has no part here. -/
def threadDepressPriority (th : Thread) : Thread :=
  { th with depressPriority := th.priority, priority := 31, schedPri := 31 }

/-- `thread_depress_timeout`, and `thread_depress_abort` but for its timer. -/
def threadDepressAbort (th : Thread) : Thread :=
  if th.depressPriority ≥ 0 then
    computePriority { th with priority := th.depressPriority, depressPriority := -1 }
  else th

/-- `update_priority`, which finds the usage aged to `schedUsage`. -/
def updatePriority (schedUsage : BitVec 32) (th : Thread) : Thread :=
  let th := { th with schedUsage }
  if th.policy = .timeshare ∧ th.depressPriority < 0 then setPri th (doPriorityComputation th)
  else th

inductive Call
  | priority (priority : ℤ) (setMax : Bool)
  | maxPriority (maxPriority : ℤ)
  | policy (policies : Policy → Bool) (policy : Policy)
  | depressPriority
  | depressAbort
  | depressTimeout
  | updatePriority (schedUsage : BitVec 32)

def Call.run (th : Thread) : Call → Option Thread
  | .priority pri setMax => threadPriority pri setMax th
  | .maxPriority pri => threadMaxPriority pri th
  | .policy policies new => threadPolicy policies new th
  | .depressPriority => some (threadDepressPriority th)
  | .depressAbort => some (threadDepressAbort th)
  | .depressTimeout => some (threadDepressAbort th)
  | .updatePriority usage => some (Sched.updatePriority usage th)

/-- A call that fails leaves the thread as it is. -/
def Call.apply (th : Thread) (c : Call) : Thread := (c.run th).getD th

def base (th : Thread) : ℤ := if th.depressPriority < 0 then th.priority else th.depressPriority

/-- The base priority that a call should leave behind, `pri` being that before it: the last one that
was set, raised to the maximum priorities since. -/
def Call.intended (th : Thread) (pri : ℤ) (c : Call) : ℤ :=
  match c, c.run th with
  | .priority p _, some _ => p
  | .maxPriority p, some _ => max pri p
  | _, _ => pri

/-- A depressed thread is not depressed again and does not change to timesharing, unless its base
priority is the lowest one anyway. -/
def Call.careful (th : Thread) : Call → Prop
  | .depressPriority => 0 ≤ th.depressPriority → base th = 31
  | .policy policies new =>
    new = .timeshare → 0 ≤ th.depressPriority → th.policy ≠ .timeshare →
    policies .timeshare = true → base th = 31
  | _ => True

/-- The thread has the intended base priority, and a depression shows in the other two only. -/
structure Kept (pri : ℤ) (th : Thread) : Prop where
  eq : base th = pri
  max : th.maxPriority ≤ pri
  valid : invalidPri pri = false
  depressed : 0 ≤ th.depressPriority → th.priority = 31 ∧ th.schedPri = 31

def run (th : Thread) (pri : ℤ) : List Call → Thread × ℤ
  | [] => (th, pri)
  | c :: calls => run (c.apply th) (c.intended th pri) calls

def carefulRun (th : Thread) : List Call → Prop
  | [] => True
  | c :: calls => c.careful th ∧ carefulRun (c.apply th) calls

end XMach.Sched
