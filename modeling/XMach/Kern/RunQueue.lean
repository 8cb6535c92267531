import Mathlib.Algebra.BigOperators.Group.Finset.Basic
import XMach.Kern.Priority

/-!
# Run queues

`struct run_queue` of `sched.h` and what `sched_prim.c` does with it: enqueueing, `rem_runq`, the
choice of the next thread, and the scan for stuck threads. `low` is a hint where the search for a
thread starts.
-/

namespace XMach.Sched

variable {T : Type} [DecidableEq T]

def nrqs : ℕ := 32

structure RunQueue (T : Type) where
  runq : ℕ → List T
  low : ℕ
  count : ℕ

namespace RunQueue

def empty : RunQueue T := ⟨fun _ => [], 0, 0⟩

/-- A measure of the queues, summed over all of them. -/
def total (rq : RunQueue T) (m : List T → ℕ) : ℕ := ∑ i ∈ Finset.range nrqs, m (rq.runq i)

def set (rq : RunQueue T) (i : ℕ) (q : List T) : RunQueue T :=
  { rq with runq := Function.update rq.runq i q }

/-- The queue for a priority. -/
def whichq (pri : ℕ) : ℕ := if nrqs ≤ pri then nrqs - 1 else pri

/-- `run_queue_enqueue`. -/
def enqueue (rq : RunQueue T) (th : T) (pri : ℕ) : RunQueue T :=
  { rq.set (whichq pri) (rq.runq (whichq pri) ++ [th]) with
    low := if whichq pri < rq.low ∨ rq.count = 0 then whichq pri else rq.low
    count := rq.count + 1 }

/-- The queue that the thread is on. -/
def queueOf (rq : RunQueue T) (th : T) : Option ℕ :=
  (List.range nrqs).find? fun i => decide (th ∈ rq.runq i)

/-- `rem_runq`, which leaves `low` alone. -/
def remRunq (rq : RunQueue T) (th : T) : RunQueue T :=
  match rq.queueOf th with
  | none => rq
  | some i => { rq.set i ((rq.runq i).erase th) with count := rq.count - 1 }

/-- The first queue from `i` on that is not empty; where there is none the loops of the source run
into a panic or over the end of the array. -/
def firstFrom (rq : RunQueue T) (i : ℕ) : Option ℕ :=
  (List.range nrqs).find? fun j => decide (i ≤ j) && !(rq.runq j).isEmpty

/-- The head of queue `i` is taken, and `low` set to this queue or, if it has to be accurate, to the
next one that is not empty. -/
def takeHead (rq : RunQueue T) (accurate : Bool) (i : ℕ) : Option (T × RunQueue T) :=
  match rq.runq i with
  | [] => none
  | th :: q =>
    let rq := { rq.set i q with count := rq.count - 1, low := i }
    if accurate = true ∧ 0 < rq.count then (rq.firstFrom i).map fun low => (th, { rq with low })
    else some (th, rq)

/-- `choose_thread` on the queue of a processor, and `choose_pset_thread`, where the policy for
fixed priorities makes the hint accurate; `none` is the panic. -/
def choose (rq : RunQueue T) (accurate : Bool) : Option (T × RunQueue T) :=
  (rq.firstFrom rq.low).bind (rq.takeHead accurate)

/-- `thread_select` on the queue of the processor set. -/
def select (rq : RunQueue T) (accurate : Bool) : Option (T × RunQueue T) :=
  if (rq.runq rq.low).isEmpty then { rq with low := rq.low + 1 }.choose accurate
  else rq.takeHead accurate rq.low

/-- What is left of a queue and what is taken from it by `do_runq_scan`, when there is room for
`room` threads. -/
def scanQueue (isStuck : T → Bool) : ℕ → List T → List T × List T
  | _, [] => ([], [])
  | 0, q => (q, [])
  | room + 1, th :: q =>
    if isStuck th then
      let (left, taken) := scanQueue isStuck room q
      (left, th :: taken)
    else
      let (left, taken) := scanQueue isStuck (room + 1) q
      (th :: left, taken)

/-- The queues from `i` on, of which there are `n`. -/
def scanFrom (isStuck : T → Bool) : ℕ → ℕ → ℕ → RunQueue T → RunQueue T × List T
  | 0, _, _, rq => (rq, [])
  | n + 1, i, room, rq =>
    let (left, taken) := scanQueue isStuck room (rq.runq i)
    let (rq, rest) := scanFrom isStuck n (i + 1) (room - taken.length)
      { rq.set i left with count := rq.count - taken.length }
    (rq, taken ++ rest)

/-- `do_runq_scan`; the queues before `low` are empty, and so are those behind the last thread
counted. -/
def doRunqScan (rq : RunQueue T) (isStuck : T → Bool) (room : ℕ) : RunQueue T × List T :=
  if rq.count = 0 then (rq, []) else scanFrom isStuck (nrqs - rq.low) rq.low room rq

end RunQueue

/-- `csw_needed`. -/
def cswNeeded (susp : Bool) (policy : Policy) (schedPri : ℕ) (firstQuantum : Bool)
    (processorCount : ℕ) (rq : RunQueue T) : Bool :=
  susp || 0 < processorCount ||
    (policy = .timeshare && !firstQuantum && 0 < rq.count && rq.low ≤ schedPri) ||
    (policy = .fixedpri && 0 < rq.count &&
      ((!firstQuantum && rq.low ≤ schedPri) || rq.low < schedPri))

/-- The run queue of the processor set, with the effective priorities of the threads. -/
structure Ready (T : Type) where
  rq : RunQueue T
  schedPri : T → ℕ

inductive Op (T : Type)
  /-- `thread_setrun`, with the priority that `update_priority` finds -/
  | setrun (th : T) (pri : ℕ)
  | setPri (th : T) (pri : ℕ)
  | remRunq (th : T)
  | select
  | choosePset
  | scan (isStuck : T → Bool) (room : ℕ)

/-- `none` where an assertion fails or the kernel panics. -/
def Op.run (s : Ready T) : Op T → Option (Ready T)
  | .setrun th pri =>
    if s.rq.queueOf th ≠ none then none
    else some ⟨s.rq.enqueue th pri, Function.update s.schedPri th pri⟩
  | .setPri th pri =>
    let schedPri := Function.update s.schedPri th pri
    if s.rq.queueOf th = none then some ⟨s.rq, schedPri⟩
    else some ⟨(s.rq.remRunq th).enqueue th pri, schedPri⟩
  | .remRunq th => some { s with rq := s.rq.remRunq th }
  | .select =>
    if s.rq.count = 0 then some s else (s.rq.select true).map fun r => { s with rq := r.2 }
  | .choosePset =>
    if s.rq.count = 0 then some s else (s.rq.choose true).map fun r => { s with rq := r.2 }
  | .scan isStuck room => some { s with rq := (s.rq.doRunqScan isStuck room).1 }

/-- The queue at `low` is not left empty behind with threads in others. -/
def Op.careful (s : Ready T) : Op T → Prop
  | .setPri th pri => s.rq.runq s.rq.low = [th] → 1 < s.rq.count → RunQueue.whichq pri ≤ s.rq.low
  | .remRunq th => s.rq.runq s.rq.low = [th] → s.rq.count = 1
  -- when all threads of the queue are stuck and have room, so have all that are queued
  | .scan isStuck room => (s.rq.runq s.rq.low).all isStuck = true →
    (s.rq.runq s.rq.low).length ≤ room → s.rq.count ≤ room ∧ ∀ i, (s.rq.runq i).all isStuck = true
  | _ => True

/-- The states that a sequence of operations leads to; with `strict` all of them are careful. -/
inductive Reached (strict : Bool) : Ready T → Prop
  | init (schedPri : T → ℕ) : Reached strict ⟨.empty, schedPri⟩
  | step {s s' : Ready T} (op : Op T) (h : Reached strict s) (hrun : op.run s = some s')
      (hc : strict = true → op.careful s) : Reached strict s'

end XMach.Sched
