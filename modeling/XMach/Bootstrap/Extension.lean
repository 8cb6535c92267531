import XMach.Bootstrap.DefaultPager
import XMach.Lib.Machine

/-!
# Threads that write to one paging object

`pager_write_offset` holds the lock of the object, but drops it to call `pager_extend`, which takes
it again. A step of a thread is what it does from a lock of the object to its unlock. The partitions
have locks of their own, so what is done to them by others comes between the steps.
-/

namespace XMach.Extension

open DefaultPager

variable {α : Type}

/-- What `pager_extend` allocates, and the entries of it that are stored into. -/
structure Filled where
  length : ℕ
  stores : List ℕ

/-- The entries of the old map are copied, and those behind them are cleared. -/
def fill (old new : ℕ) : Filled := ⟨new, List.range old ++ List.range' old (new - old)⟩

/-- The maps that `pager_extend` allocates. -/
def fills (m : BlockMap) (new : ℕ) : List Filled :=
  match m with
  | .indirect ms _ => [fill ms.length (indirectEntries (newSize (ms.length * pagemapEntries) new))]
  | .direct es _ =>
    if pagemapEntries < newSize es.length new then
      [fill es.length pagemapEntries, fill 1 (indirectEntries (newSize es.length new))]
    else [fill es.length (newSize es.length new)]

/-- Where a thread is: before the lock, in front of `pager_extend`, back from it, or outside of the
routine, where it has left the loop with its page or has found no partition. -/
inductive Pc
  | out
  | enter (fPage : ℕ)
  | extend (fPage : ℕ)
  | again (fPage : ℕ)
  | wrote (fPage : ℕ)
  deriving DecidableEq, Repr

def Pc.Outside : Pc → Prop
  | out | wrote _ => True
  | enter _ | extend _ | again _ => False

instance : DecidablePred Pc.Outside
  | .out | .wrote _ => isTrue trivial
  | .enter _ | .extend _ | .again _ => isFalse id

/-- What `pager_write_offset` does after the loop. -/
def blockFor (parts : Parts α) (pager : Dpager) (fPage : ℕ) :
    Except Stop (DpMap × Parts α × Dpager) :=
  let map := pager.map.touch fPage
  if map.get fPage ≠ noBlock then return (map.get fPage, parts, ⟨map, pager.curPartition⟩)
  else do
    let (off, curPartition, parts) ← getRoom parts pager.curPartition
    match off with
    | none => return (noBlock, parts, ⟨map, curPartition⟩)
    | some off =>
      let block : DpMap := ⟨BitVec.ofNat 24 off, curPartition⟩
      return (block, parts, ⟨map.put fPage block, curPartition⟩)

/-- The test of the loop, and what comes after it. -/
def turn (parts : Parts α) (pager : Dpager) (fPage : ℕ) : Except Stop (Parts α × Dpager × Pc) :=
  if pager.map.size ≤ fPage then return (parts, pager, .extend fPage)
  else do
    let (_, parts, pager) ← blockFor parts pager fPage
    return (parts, pager, .wrote fPage)

/-- From the first lock. -/
def enter (parts : Parts α) (pager : Dpager) (fPage : ℕ) : Except Stop (Parts α × Dpager × Pc) := do
  let curPartition ← findPartition parts pager fPage
  if noPartition curPartition then return (parts, pager, .out)
  else turn parts { pager with curPartition } fPage

structure State (T : Type*) (α : Type) where
  parts : Parts α
  pager : Dpager
  pc : T → Pc

inductive Act (T : Type*) (α : Type)
  | call (t : T) (offset : BitVec 32)
  | lock (t : T)
  | extend (t : T)
  | others (parts : Parts α)

variable {T : Type*} [DecidableEq T]

/-- A thread unlocks the object. -/
def State.unlock (s : State T α) (t : T) (r : Parts α × Dpager × Pc) : State T α :=
  ⟨r.1, r.2.1, Function.update s.pc t r.2.2⟩

/-- A thread that panics or waits under the lock does not come to its unlock. -/
def step (s : State T α) : Act T α → Option (State T α)
  | .call t offset =>
    if (s.pc t).Outside then
      some { s with pc := Function.update s.pc t (.enter (atop offset.toNat)) }
    else none
  | .lock t =>
    match s.pc t with
    | .enter fPage => (enter s.parts s.pager fPage).toOption.map (s.unlock t)
    | .again fPage => (turn s.parts s.pager fPage).toOption.map (s.unlock t)
    | .out | .extend _ | .wrote _ => none
  | .extend t =>
    match s.pc t with
    | .extend fPage =>
      some (s.unlock t (s.parts, { s.pager with map := s.pager.map.extend (fPage + 1) },
      .again fPage))
    | .out | .enter _ | .again _ | .wrote _ => none
  | .others parts => some { s with parts }

def machine (T : Type*) [DecidableEq T] (α : Type) : Machine (State T α) (Act T α) where
  start s := ∀ t, s.pc t = .out
  step := step

/-- The maps that a step allocates. -/
def Act.fills (s : State T α) : Act T α → List Filled
  | .extend t =>
    match s.pc t with
    | .extend fPage => Extension.fills s.pager.map (fPage + 1)
    | .out | .enter _ | .again _ | .wrote _ => []
  | .call _ _ | .lock _ | .others _ => []

/-- An extension for a page beyond the doubling of sizes is not to a size below that of the
object. -/
def Act.Careful (s : State T α) : Act T α → Prop
  | .extend t => ∀ fPage, s.pc t = .extend fPage → maxDoubled ≤ fPage →
      s.pager.map.size ≤ roundupToPagemap (fPage + 1)
  | .call _ _ | .lock _ | .others _ => True

end XMach.Extension
