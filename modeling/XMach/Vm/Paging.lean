import Mathlib.Data.BitVec
import Mathlib.Logic.Function.Basic

/-!
# Paging activity

An object counts the paging operations that use its ports and its busy pages (`paging_in_progress`),
and `vm_object_terminate` and `memory_object_destroy` wait until there are none. The operations
raise and lower the count by `vm_object_paging_begin` and `vm_object_paging_end`, which wakes those
who wait when the count gets to zero, and in some places by `++` and `--`.

What an operation does to the counts depends on the pages, objects and answers that it finds. These
are its arguments, in the order in which it looks at them, and what it then does is a list of
instructions (`Op.code`). Each instruction is done with the lock of its object, and the threads take
turns between instructions. If the arguments come to an end before the operation does, the thread
gets no further.
-/

namespace XMach.Paging

open Function

/-- What a thread does to the count of an object. -/
inductive Instr
  /-- `vm_object_paging_begin`, or `paging_in_progress++`. -/
  | begins (object : ℕ)
  /-- `vm_object_paging_end`. -/
  | ends (object : ℕ)
  /-- `paging_in_progress--`. -/
  | lowers (object : ℕ)
  /-- `vm_object_paging_wait`. -/
  | waits (object : ℕ)
  deriving DecidableEq, Repr

section Objects

/-- An object that is terminated, with the number of pages that are then written back. -/
structure Destroyed where
  object : ℕ
  flushed : ℕ

/-- `vm_pageout_page` of a dirty page. -/
def pageoutPage (object : ℕ) : List Instr := [.begins object, .ends object]

def terminate (d : Destroyed) : List Instr :=
  .waits d.object :: (List.replicate d.flushed (pageoutPage d.object)).flatten

/-- `vm_object_deallocate`, which terminates the objects that have lost their last reference. -/
def deallocate (destroyed : List Destroyed) : List Instr := destroyed.flatMap terminate

/-- `memory_object_destroy`, which gives up a reference at its end. -/
def memoryObjectDestroy (object : ℕ) (destroyed : List Destroyed) : List Instr :=
  .waits object :: deallocate destroyed

end Objects

section Fault

/-- How a thread comes back from `thread_block`. -/
inductive WaitResult
  | awakened
  | restart
  | interrupted
  deriving DecidableEq, Repr

/-- How a message to the pager was sent. -/
inductive Sent
  | success
  | interrupted
  | failed
  deriving DecidableEq, Repr

inductive Result
  /-- The page is in `object`, and `topPage` is the object of the page that keeps others out. -/
  | success (object : ℕ) (topPage : Option ℕ)
  | retry
  | interrupted
  | memoryShortage
  | fictitiousShortage
  | memoryError
  deriving DecidableEq, Repr

/-- A resident page, as `vm_fault_page` looks at it. -/
structure Page where
  busy : Bool
  error : Bool
  absent : Bool
  /-- `access_required & m->page_lock`. -/
  locked : Bool
  /-- `(access_required & m->unlock_request) == access_required`. -/
  unlockRequested : Bool

/-- What a turn of the search in `vm_fault_page` finds. -/
structure View where
  page : Option Page
  shadow : Option ℕ
  /-- `look_for_page`. -/
  lookForPage : Bool
  pagerReady : Bool
  internal : Bool
  /-- `object->absent_count > vm_object_absent_max`. -/
  manyAbsent : Bool
  /-- `vm_page_grab` and `vm_page_grab_fictitious` find a page. -/
  grabs : Bool
  /-- `vm_page_convert` finds a page. -/
  converts : Bool
  sent : Sent
  waitResult : WaitResult

/-- What a turn of the loop finds that pushes a page into the copy object. -/
structure Push where
  copy : Option ℕ
  /-- `vm_object_lock_try`. -/
  locks : Bool
  /-- The page of the copy object, by its bit `busy`. -/
  page : Option Bool
  /-- `vm_page_alloc` finds a page. -/
  allocates : Bool
  pagerCreated : Bool
  /-- The copy object has another shadow or no other reference any more. -/
  changed : Bool
  destroyed : List Destroyed
  waitResult : WaitResult

/-- The arguments of `vm_fault_page`, and what it finds. -/
structure Fault where
  firstObject : ℕ
  /-- `fault_type & VM_PROT_WRITE`. -/
  write : Bool
  mustBeResident : Bool
  views : List View
  /-- `vm_page_grab` finds a page for the copy. -/
  copies : Bool
  pushes : List Push

/-- `vm_fault_cleanup`. -/
def cleanup (object : ℕ) (topPage : Option ℕ) : List Instr :=
  .ends object :: (match topPage with
    | none => []
    | some first => [.ends first])

/-- What is done and, if it has come to its end, with which result. -/
abbrev Path := List Instr × Option Result

def Path.after (code : List Instr) (path : Path) : Path := (code ++ path.1, path.2)

def giveUp (object : ℕ) (topPage : Option ℕ) (result : Result) : Path :=
  (cleanup object topPage, some result)

/-- `block_and_backoff`. -/
def backoff (object : ℕ) (topPage : Option ℕ) (wait : WaitResult) : Path :=
  giveUp object topPage (if wait = .awakened then .retry else .interrupted)

/-- A message to the pager has failed. -/
def sendFailed (object : ℕ) (topPage : Option ℕ) (sent : Sent) : Path :=
  giveUp object topPage (if sent = .interrupted then .interrupted else .memoryError)

/-- The loop that pushes the page into the copy object. -/
def push (f : Fault) (object : ℕ) (topPage : Option ℕ) : List Push → Path
  | [] => ([], none)
  | v :: vs =>
    match v.copy with
    | none => ([], some (.success object topPage))
    | some copy =>
      if !f.write || f.mustBeResident then ([], some (.success object topPage))
      else if !v.locks then push f object topPage vs
      else
        match v.page with
        | some true => backoff object topPage v.waitResult
        | some false => ([], some (.success object topPage))
        | none =>
          if !v.allocates then giveUp object topPage .memoryShortage
          else if !v.pagerCreated then ([], some (.success object topPage))
          else if v.changed then
            Path.after (pageoutPage copy ++ deallocate v.destroyed) (push f object topPage vs)
          else Path.after (pageoutPage copy) ([], some (.success object topPage))

/-- The page has been found. For a write it is copied into the first object, which is then
collapsed. -/
def found (f : Fault) (object : ℕ) (topPage : Option ℕ) : Path :=
  if object ≠ f.firstObject ∧ f.write = true then
    if !f.copies then giveUp object topPage .memoryShortage
    else Path.after [.ends object, .ends f.firstObject, .begins f.firstObject]
      (push f f.firstObject none f.pushes)
  else push f object topPage f.pushes

/-- The page is filled with zeros in the first object. -/
def zeroFill (f : Fault) (object : ℕ) (converts : Bool) : Path :=
  Path.after (if object ≠ f.firstObject then [.ends object] else [])
    (if converts then found f f.firstObject none else giveUp f.firstObject none .memoryShortage)

/-- The search goes on in the next object. The first object keeps its paging reference with its busy
page, unless the page must be resident. -/
def descend (f : Fault) (object next : ℕ) : List Instr :=
  (if object ≠ f.firstObject ∨ f.mustBeResident = true then [.ends object]
    else []) ++ [.begins next]

/-- The busy page in the first object when the search goes on. -/
def topBelow (f : Fault) (object : ℕ) (topPage : Option ℕ) : Option ℕ :=
  if object = f.firstObject ∧ f.mustBeResident = false then some f.firstObject else topPage

/-- The search of `vm_fault_page`. -/
def search (f : Fault) : List View → ℕ → Option ℕ → Path
  | [], _, _ => ([], none)
  | v :: vs, object, topPage =>
    match v.page with
    | some m =>
      if m.busy then
        match v.waitResult with
        | .awakened => search f vs object topPage
        | .restart => giveUp object topPage .retry
        | .interrupted => giveUp object topPage .interrupted
      else if m.error then giveUp object topPage .memoryError
      else if m.absent then
        match v.shadow with
        | none => if !v.grabs then giveUp object topPage .memoryShortage else zeroFill f object true
        | some next => Path.after (descend f object next)
            (search f vs next (topBelow f object topPage))
      else if m.locked then
        if m.unlockRequested || !v.pagerReady then backoff object topPage v.waitResult
        else if v.sent = .success then search f vs object topPage
        else sendFailed object topPage v.sent
      else found f object topPage
    | none =>
      if (v.lookForPage || decide (object = f.firstObject)) && !f.mustBeResident && !v.grabs then
        giveUp object topPage .fictitiousShortage
      else if v.lookForPage && !f.mustBeResident then
        if !v.pagerReady then backoff object topPage v.waitResult
        else if v.internal && !v.converts then giveUp object topPage .memoryShortage
        else if !v.internal && v.manyAbsent then backoff object topPage v.waitResult
        else if v.sent = .success then search f vs object topPage
        else sendFailed object topPage v.sent
      else
        match v.shadow with
        | none => zeroFill f object v.converts
        | some next => Path.after (descend f object next)
            (search f vs next (topBelow f object topPage))

/-- The paging reference to the first object is the caller's, who has just taken it. -/
def faultPage (f : Fault) : Path := search f f.views f.firstObject none

/-- What the callers do with the result. -/
def finish : Option Result → List Instr
  | some (.success object topPage) => cleanup object topPage
  | _ => []

/-- `vm_fault`, as far as it goes with one call of `vm_fault_page`. -/
def fault (f : Fault) (destroyed : List Destroyed) : List Instr :=
  .begins f.firstObject :: (faultPage f).1 ++ finish (faultPage f).2 ++
    (if (faultPage f).2 = none then [] else deallocate destroyed)

/-- `vm_fault_wire_fast`. It gives up or it wires the page, and lowers the count in either case. -/
def wireFast (object : ℕ) (destroyed : List Destroyed) : List Instr :=
  .begins object :: .lowers object :: deallocate destroyed

/-- The loop of `vm_object_copy_slowly` over its calls of `vm_fault_page`, with what is destroyed
when it gives up its references. -/
def copySlowly (destroyed : List Destroyed) : List Fault → List Instr
  | [] => deallocate destroyed
  | f :: fs =>
    .begins f.firstObject :: (faultPage f).1 ++ finish (faultPage f).2 ++
      (match (faultPage f).2 with
        | none => []
        | some .interrupted | some .memoryError => deallocate destroyed
        | some _ => copySlowly destroyed fs)

end Fault

section Steps

inductive Op
  | fault (f : Fault) (destroyed : List Destroyed)
  | wireFast (object : ℕ) (destroyed : List Destroyed)
  /-- The calls of `vm_fault_page` are all for the source object. -/
  | copySlowly (src : ℕ) (fs : List Fault) (destroyed : List Destroyed)
  | deallocate (destroyed : List Destroyed)
  | destroy (object : ℕ) (destroyed : List Destroyed)

def Op.code : Op → List Instr
  | .fault f destroyed => Paging.fault f destroyed
  | .wireFast object destroyed => Paging.wireFast object destroyed
  | .copySlowly src fs destroyed =>
    Paging.copySlowly destroyed (fs.map fun f =>
      { f with firstObject := src, write := false, mustBeResident := false })
  | .deallocate destroyed => Paging.deallocate destroyed
  | .destroy object destroyed => memoryObjectDestroy object destroyed

structure State where
  pagingInProgress : ℕ → BitVec 16
  /-- The bit `VM_OBJECT_EVENT_PAGING_IN_PROGRESS` of `all_wanted`. -/
  wanted : ℕ → Bool
  code : ℕ → List Instr
  /-- The object whose event a thread sleeps on. -/
  asleep : ℕ → Option ℕ

def initial : State where
  pagingInProgress _ := 0
  wanted _ := false
  code _ := []
  asleep _ := none

def setCount (object : ℕ) (count : BitVec 16) (s : State) : State :=
  { s with pagingInProgress := update s.pagingInProgress object count }

/-- `vm_object_wakeup`. -/
def wakeup (object : ℕ) (s : State) : State :=
  if s.wanted object then
    { s with
      wanted := update s.wanted object false
      asleep := fun t => if s.asleep t = some object then none else s.asleep t }
  else s

def goto (t : ℕ) (code : List Instr) (s : State) : State := { s with code := update s.code t code }

/-- One instruction of thread `t`. A thread that is woken in `vm_object_paging_wait` tests the count
again. -/
def exec (s : State) (t : ℕ) (rest : List Instr) : Instr → State
  | .begins object => goto t rest (setCount object (s.pagingInProgress object + 1) s)
  | .ends object =>
    let s := goto t rest (setCount object (s.pagingInProgress object - 1) s)
    if s.pagingInProgress object = 0 then wakeup object s else s
  | .lowers object => goto t rest (setCount object (s.pagingInProgress object - 1) s)
  | .waits object =>
    if s.pagingInProgress object = 0 then goto t rest s
    else
      { s with
        wanted := update s.wanted object true
        asleep := update s.asleep t (some object) }

inductive Event
  /-- An idle thread calls an operation. -/
  | start (t : ℕ) (op : Op)
  /-- A thread that is awake does its next instruction. -/
  | run (t : ℕ)

def step (s : State) : Event → Option State
  | .start t op => if s.code t = [] then some (goto t op.code s) else none
  | .run t =>
    if s.asleep t = none then
      match s.code t with
      | [] => none
      | i :: rest => some (exec s t rest i)
    else none

end Steps

end XMach.Paging
