import Mathlib.Data.Int.Notation
import Mathlib.Order.Notation

/-!
# The combined master and spl lock

`spl_n`, `unix_master` and `unix_release` of `synch_prim.c`, the interrupts that they are for, and
`timeout` of `timer.c`, with `ETHER_AS_SYSCALL` off. A program is what one thread calls; where a
call may run code of others, the value that it finds (`netisr`, whether the element is expired
already) and the calls of that code stand in the program. Its log has what happens on the way.
-/

namespace XMach.Spl

/-- The fields of `proc_invocation`, and whether this thread has locked `master_mutex`. -/
structure Thread where
  ipl : ℤ
  masterLock : Bool
  held : Bool
  deriving DecidableEq

inductive Event
  /-- `master_lock` and `master_unlock`, by a thread that has the mutex or not -/
  | lock (held : Bool)
  | unlock (held : Bool)
  /-- `dosoftnet` begins -/
  | softnet (held : Bool)
  /-- an assertion, or the check at the end of `dosoftnet` -/
  | check (ok : Bool)
  /-- a call returns -/
  | returned (th : Thread)
  | timedOut (before after : Thread)
  deriving DecidableEq

inductive Prog
  | done
  /-- `netisr` is what the call finds if it looks, `softnet` what `dosoftnet` calls then -/
  | splN (level : ℤ) (netisr : Bool) (softnet rest : Prog)
  | interruptEnter (level : ℤ) (netisr : Bool) (softnet rest : Prog)
  | interruptExit (level : ℤ) (netisr : Bool) (softnet rest : Prog)
  | unixMaster (rest : Prog)
  | unixRelease (rest : Prog)
  /-- `timer_element_activate` finds the element expired or not; `f` is the function to be called -/
  | timeout (expired : Bool) (f : Prog) (netisr : Bool) (softnet rest : Prog)

/-- A piece of code: the thread after it, and its log. -/
abbrev Code := Thread → Thread × List Event

def skip : Code := fun th => (th, [])

def Code.andThen (f g : Code) : Code := fun th => ((g (f th).1).1, (f th).2 ++ (g (f th).1).2)

def emit (e : Thread → Event) : Code := fun th => (th, [e th])

def masterLock : Code := fun th => ({ th with held := true }, [.lock th.held])

def masterUnlock : Code := fun th => ({ th with held := false }, [.unlock th.held])

def setIpl (level : ℤ) : Code := fun th => ({ th with ipl := level }, [])

def splN (level : ℤ) (atZero : Code) : Code := fun th =>
  if level > 0 ∧ th.ipl ≤ 0 ∧ th.masterLock = false then (masterLock.andThen (setIpl level)) th
  else if level ≤ 0 ∧ th.ipl > 0 ∧ th.masterLock = false then
    ((masterUnlock.andThen atZero).andThen (setIpl level)) th
  else setIpl level th

/-- `splnet`, `dosoftnet` and `splx`. -/
def softnet (handlers : Code) : Code := fun th =>
  let dosoftnet : Code := fun th' =>
    ((emit fun th => .softnet th.held).andThen
      (handlers.andThen (emit fun th => .check (th.masterLock = th'.masterLock)))) th'
  (((splN 2 skip).andThen dosoftnet).andThen (splN th.ipl skip)) th

def setMaster (b : Bool) : Code := fun th => ({ th with masterLock := b }, [])

def atLevelZero (f : Code) : Code := fun th => if th.ipl = 0 then f th else skip th

def unixMaster : Code :=
  (emit fun th => .check (!th.masterLock)).andThen
    ((atLevelZero masterLock).andThen (setMaster true))

def unixRelease : Code :=
  (emit fun th => .check th.masterLock).andThen
    ((atLevelZero masterUnlock).andThen (setMaster false))

def returns : Code := emit .returned

def interruptExit (atZero : Code) : Code := ((splN 0 atZero).andThen returns).andThen (setIpl (-1))

/-- `timeout_did_timeout`, at `SPLSOFTCLOCK`. -/
def didTimeout (f atZero : Code) : Code :=
  (((splN 1 skip).andThen returns).andThen f).andThen ((interruptExit atZero).andThen returns)

def timeout (expired : Bool) (f atZero : Code) : Code := fun th =>
  ((if expired then didTimeout f atZero else skip).andThen (emit (.timedOut th))) th

def atZero (netisr : Bool) (handlers : Code) : Code := if netisr then softnet handlers else skip

def Prog.exec : Prog → Code
  | .done => skip
  | .splN level netisr soft rest =>
    ((Spl.splN level (atZero netisr soft.exec)).andThen returns).andThen rest.exec
  | .interruptEnter level netisr soft rest =>
    ((Spl.splN level (atZero netisr soft.exec)).andThen returns).andThen rest.exec
  | .interruptExit _ netisr soft rest =>
    ((Spl.interruptExit (atZero netisr soft.exec)).andThen returns).andThen rest.exec
  | .unixMaster rest => (Spl.unixMaster.andThen returns).andThen rest.exec
  | .unixRelease rest => (Spl.unixRelease.andThen returns).andThen rest.exec
  | .timeout expired f netisr soft rest =>
    ((Spl.timeout expired f.exec (atZero netisr soft.exec)).andThen returns).andThen rest.exec

variable {th : Thread}

/-- The thread has the mutex exactly if it is raised or has the master lock. -/
def Thread.Ok (th : Thread) : Prop := th.held = true ↔ th.ipl > 0 ∨ th.masterLock = true

instance : Decidable th.Ok := inferInstanceAs (Decidable (_ ↔ _))

def Event.Ok : Event → Prop
  | .lock held => held = false
  | .unlock held => held = true
  | .softnet held => held = true
  | .check _ => True
  | .returned th => th.Ok
  | .timedOut before after => after = before

instance : (e : Event) → Decidable e.Ok
  | .lock held => inferInstanceAs (Decidable (held = false))
  | .unlock held => inferInstanceAs (Decidable (held = true))
  | .softnet held => inferInstanceAs (Decidable (held = true))
  | .check _ => inferInstanceAs (Decidable True)
  | .returned th => inferInstanceAs (Decidable th.Ok)
  | .timedOut before after => inferInstanceAs (Decidable (after = before))

/-- No assertion fails: `unix_master` is not nested and `unix_release` follows one. -/
def Event.Legal : Event → Prop
  | .check ok => ok = true
  | _ => True

instance : (e : Event) → Decidable e.Legal
  | .check ok => inferInstanceAs (Decidable (ok = true))
  | .lock _ | .unlock _ | .softnet _ | .returned _ | .timedOut _ _ =>
      inferInstanceAs (Decidable True)

/-- `spl_n` gives up the mutex here. -/
def Thread.drops (th : Thread) (level : ℤ) : Prop := level ≤ 0 ∧ th.ipl > 0 ∧ th.masterLock = false

/-- The mutex is given up only with `netisr` clear, `unix_master` and `unix_release` are not called
below level 0, and a timeout that is expired already is set between interrupts only, with a function
that leaves the master lock as it is. -/
def Prog.Careful : Prog → Thread → Prop
  | .done, _ => True
  | .splN level netisr soft rest, th | .interruptEnter level netisr soft rest, th =>
    ¬ (netisr = true ∧ th.drops level) ∧
    rest.Careful (Spl.splN level (atZero netisr soft.exec) th).1
  | .interruptExit _ netisr soft rest, th =>
    ¬ (netisr = true ∧ th.drops 0) ∧ rest.Careful (Spl.interruptExit (atZero netisr soft.exec) th).1
  | .unixMaster rest, th => 0 ≤ th.ipl ∧ rest.Careful (Spl.unixMaster th).1
  | .unixRelease rest, th => 0 ≤ th.ipl ∧ rest.Careful (Spl.unixRelease th).1
  | .timeout expired f netisr soft rest, th =>
    (expired = true → th.ipl = -1 ∧
      let entered := (Spl.splN 1 skip th).1
      f.Careful entered ∧ (f.exec entered).1.masterLock = th.masterLock ∧
        ¬ (netisr = true ∧ (f.exec entered).1.drops 0)) ∧
    rest.Careful (Spl.timeout expired f.exec (atZero netisr soft.exec) th).1

end XMach.Spl
