import Mathlib.Algebra.BigOperators.Group.Finset.Basic
import Mathlib.Data.Fintype.Basic

/-!
# Sleep locks

`lock.c`: one lock and the threads that use it. A step is one section under the interlock, or a part
of one: a thread that has to wait looks again or goes to sleep. Beside the lock the holds of each
thread are kept, the last one first, of which `lock_done` is meant to release the first.
-/

namespace XMach.SleepLock

variable {T : Type} [DecidableEq T]

/-- `struct lock`. -/
structure Lock (T : Type) where
  /-- the thread that may lock recursively -/
  thread : Option T
  /-- 16 bits -/
  readCount : ℕ
  wantUpgrade : Bool
  wantWrite : Bool
  waiting : Bool
  /-- 12 bits -/
  recursionDepth : ℕ

inductive Hold
  | read
  /-- for writing, by recursion -/
  | again
  /-- for writing, by an upgrade -/
  | upgrade
  | write
  deriving DecidableEq

inductive Phase
  | idle
  /-- `lock_write`, up to `want_write` -/
  | wantWrite
  /-- `lock_write`, waiting for readers to finish -/
  | drain
  | wantRead
  /-- an upgrade, waiting for the other readers -/
  | upgrade
  deriving DecidableEq

structure Thread where
  phase : Phase
  holds : List Hold
  /-- asleep on the lock, with no wakeup yet -/
  asleep : Bool

structure State (T : Type) where
  lock : Lock T
  thread : T → Thread

/-- Arithmetic in a field of so many bits. -/
def inc (bits n : ℕ) : ℕ := (n + 1) % 2 ^ bits
def dec (bits n : ℕ) : ℕ := (n + 2 ^ bits - 1) % 2 ^ bits

def State.update (s : State T) (l : Lock T) (t : T) (th : Thread) : State T :=
  ⟨l, Function.update s.thread t th⟩

/-- `thread_wakeup` if somebody waits. -/
def State.wakeup (s : State T) : State T :=
  if s.lock.waiting then
    ⟨{ s.lock with waiting := false }, fun t => { s.thread t with asleep := false }⟩
  else s

/-- A hold for writing is given back. -/
def Lock.lower (l : Lock T) : Lock T :=
  if l.recursionDepth ≠ 0 then { l with recursionDepth := dec 12 l.recursionDepth }
  else if l.wantUpgrade then { l with wantUpgrade := false }
  else { l with wantWrite := false }

def Lock.release (l : Lock T) : Lock T :=
  if l.readCount ≠ 0 then { l with readCount := dec 16 l.readCount } else l.lower

/-- The condition of the loop that the thread is in. -/
def Lock.blocks (l : Lock T) : Phase → Bool
  | .idle => false
  | .wantWrite => l.wantWrite
  | .drain => l.readCount ≠ 0 || l.wantUpgrade
  | .wantRead => l.wantWrite || l.wantUpgrade
  | .upgrade => l.readCount ≠ 0

inductive Act (T : Type)
  | lockWrite (t : T)
  | lockRead (t : T)
  | lockTryWrite (t : T)
  | lockTryRead (t : T)
  | lockReadToWrite (t : T)
  | lockTryReadToWrite (t : T)
  | lockWriteToRead (t : T)
  | lockDone (t : T)
  | lockSetRecursive (t : T)
  | lockClearRecursive (t : T)
  /-- the loop is left -/
  | proceed (t : T)
  | sleep (t : T)

def Act.thread : Act T → T
  | .lockWrite t | .lockRead t | .lockTryWrite t | .lockTryRead t | .lockReadToWrite t
  | .lockTryReadToWrite t | .lockWriteToRead t | .lockDone t | .lockSetRecursive t
  | .lockClearRecursive t | .proceed t | .sleep t => t

/-- `lock_write` and `lock_try_write` by the thread that may lock recursively. -/
def State.recurse (s : State T) (t : T) (holds : List Hold) : State T :=
  s.update { s.lock with recursionDepth := inc 12 s.lock.recursionDepth } t
    ⟨.idle, .again :: holds, false⟩

def State.addRead (s : State T) (t : T) (holds : List Hold) : State T :=
  s.update { s.lock with readCount := inc 16 s.lock.readCount } t ⟨.idle, .read :: holds, false⟩

/-- What a call does in its first section; only a thread that is in no call makes one, and it has
the hold that the call is about, for writing where it sets or clears the recursion. `none` is a
panic as well. -/
def call (s : State T) (holds : List Hold) : Act T → Option (State T)
  | .lockWrite t =>
    if s.lock.thread = some t then some (s.recurse t holds)
    else some (s.update s.lock t ⟨.wantWrite, holds, false⟩)
  | .lockTryWrite t =>
    if s.lock.thread = some t then some (s.recurse t holds)
    else if s.lock.wantWrite || s.lock.wantUpgrade || s.lock.readCount ≠ 0 then some s
    else some (s.update { s.lock with wantWrite := true } t ⟨.idle, .write :: holds, false⟩)
  | .lockRead t =>
    if s.lock.thread = some t then some (s.addRead t holds)
    else some (s.update s.lock t ⟨.wantRead, holds, false⟩)
  | .lockTryRead t =>
    if s.lock.thread = some t then some (s.addRead t holds)
    else if s.lock.wantWrite || s.lock.wantUpgrade then some s
    else some (s.addRead t holds)
  | .lockReadToWrite t =>
    match holds with
    | .read :: rest =>
      let s := { s with lock := { s.lock with readCount := dec 16 s.lock.readCount } }
      if s.lock.thread = some t then some (s.recurse t rest)
      else if s.lock.wantUpgrade then
        -- the upgrade fails
        let s := s.update s.lock t ⟨.idle, rest, false⟩
        some (if s.lock.readCount = 0 then s.wakeup else s)
      else some (s.update { s.lock with wantUpgrade := true } t ⟨.upgrade, rest, false⟩)
    | _ => none
  | .lockTryReadToWrite t =>
    match holds with
    | .read :: rest =>
      let s' := { s with lock := { s.lock with readCount := dec 16 s.lock.readCount } }
      if s.lock.thread = some t then some (s'.recurse t rest)
      else if s.lock.wantUpgrade then some s
      else some (s'.update { s'.lock with wantUpgrade := true } t ⟨.upgrade, rest, false⟩)
    | _ => none
  | .lockWriteToRead t =>
    match holds with
    | [] | .read :: _ => none
    | _ :: rest =>
      some (s.update ({ s.lock with readCount := inc 16 s.lock.readCount }).lower t
        ⟨.idle, .read :: rest, false⟩).wakeup
  | .lockDone t =>
    match holds with
    | [] => none
    | _ :: rest =>
      let s := s.update s.lock.release t ⟨.idle, rest, false⟩
      some (if s.lock.readCount = 0 then s.wakeup else s)
  | .lockSetRecursive t =>
    if holds.any (· ≠ .read) && s.lock.wantWrite then
      some { s with lock := { s.lock with thread := some t } }
    else none
  | .lockClearRecursive t =>
    if s.lock.thread ≠ some t then none
    else if s.lock.recursionDepth = 0 then some { s with lock := { s.lock with thread := none } }
    else some s
  | .proceed _ | .sleep _ => none

/-- The loop of a call is left, with the flag or the hold that it was about. -/
def proceed (s : State T) (t : T) (holds : List Hold) : Phase → Option (State T)
  | .idle => none
  | .wantWrite => some (s.update { s.lock with wantWrite := true } t ⟨.drain, holds, false⟩)
  | .drain => some (s.update s.lock t ⟨.idle, .write :: holds, false⟩)
  | .wantRead => some (s.addRead t holds)
  | .upgrade => some (s.update s.lock t ⟨.idle, .upgrade :: holds, false⟩)

def step (s : State T) (a : Act T) : Option (State T) :=
  let th := s.thread a.thread
  if th.asleep then none
  else
    match a with
    | .proceed t => if s.lock.blocks th.phase then none else proceed s t th.holds th.phase
    | .sleep t =>
      if s.lock.blocks th.phase then
        some (s.update { s.lock with waiting := true } t { th with asleep := true })
      else none
    | a => if th.phase = .idle then call s th.holds a else none

def run (s : State T) (acts : List (Act T)) : Option (State T) := acts.foldlM step s

/-- The thread holds the lock for writing. -/
def Thread.Writes (th : Thread) : Prop := ∃ h ∈ th.holds, h ≠ .read

/-- Whether the section adds a read hold. -/
def Act.addsRead (s : State T) : Act T → Prop
  | .lockRead t => s.lock.thread = some t
  | .lockTryRead t => s.lock.thread = some t ∨
      ¬(s.lock.wantWrite = true ∨ s.lock.wantUpgrade = true)
  | .proceed t => (s.thread t).phase = .wantRead
  | .lockWriteToRead _ => True
  | _ => False

/-- A thread locks recursively for writing only where it has the lock for writing and not for
reading, and recursively for reading only while no other thread has it for writing. The counters do
not overflow. -/
def Act.careful (s : State T) (a : Act T) : Prop :=
  (a.addsRead s → s.lock.readCount < 2 ^ 16 - 1) ∧
  match a with
  | .lockWrite t | .lockTryWrite t =>
    s.lock.thread = some t →
      (s.thread t).holds ≠ [] ∧ .read ∉ (s.thread t).holds ∧ s.lock.recursionDepth < 2 ^ 12 - 1
  | .lockReadToWrite t | .lockTryReadToWrite t =>
    s.lock.thread = some t →
      (s.thread t).holds.tail ≠ [] ∧ .read ∉ (s.thread t).holds.tail ∧
      s.lock.recursionDepth < 2 ^ 12 - 1
  | .lockRead t | .lockTryRead t => s.lock.thread = some t → ∀ u ≠ t, ¬(s.thread u).Writes
  | _ => True

/-- The lock as `lock_init` leaves it, with no thread at it. -/
def init : State T := ⟨⟨none, 0, false, false, false, 0⟩, fun _ => ⟨.idle, [], false⟩⟩

inductive Reached : State T → Prop
  | init : Reached init
  | step {s s' : State T} (a : Act T) (h : Reached s) (hc : a.careful s) (hs : step s a = some s') :
      Reached s'

/-- What the lock is for: a writer is alone, the reads are counted, and a thread sleeps only while
another one has the lock or a flag of it. -/
structure Sound [Fintype T] (s : State T) : Prop where
  exclusive : ∀ t u, (s.thread t).Writes → u ≠ t → (s.thread u).holds = []
  counted : s.lock.readCount = ∑ t, (s.thread t).holds.count .read
  notLost : ∀ t, (s.thread t).asleep = true →
    ∃ u, (s.thread u).holds ≠ [] ∨ (s.thread u).phase = .drain ∨ (s.thread u).phase = .upgrade

end XMach.SleepLock
