import XMach.Vm.Map

/-!
# Wiring

The model of `vm_map_pageable_common`, which wires and unwires a range. Its second pass only faults
the pages in, so one call is one step. `newObject` and the numbers behind it are the objects that
are made for entries without one of their own.

`Wirings` counts, for each address, how often it has been wired and not unwired since, by users and
by the kernel. `WireStep` takes a map and these counts through the calls, through clipping and
through `vm_map_simplify`; `ok` tells which calls are looked at.
-/

namespace XMach.Vm

section Pageable

/-- The increment of the counts; the first wiring of a user is also one in `wired_count`. -/
def VmMapEntry.wire (user : Bool) (e : VmMapEntry) : VmMapEntry :=
  if user then
    { e with
      userWiredCount := e.userWiredCount + 1
      wiredCount := if e.userWiredCount = 0 then e.wiredCount + 1 else e.wiredCount }
  else { e with wiredCount := e.wiredCount + 1 }

def VmMapEntry.unwire (user : Bool) (e : VmMapEntry) : VmMapEntry :=
  if user then
    { e with
      userWiredCount := e.userWiredCount - 1
      wiredCount := if e.userWiredCount - 1 = 0 then e.wiredCount - 1 else e.wiredCount }
  else { e with wiredCount := e.wiredCount - 1 }

/-- There is a hole between an entry that ends at `e` and the rest of the range. -/
def holeBehind (e end_ : ℕ) (l : List VmMapEntry) : Bool :=
  decide (e < end_) && match l with
    | [] => true
    | next :: _ => decide (e < next.vmeStart)

/-- The first pass of unwiring, which tells that all of the range is wired. -/
def unwireCheck (user : Bool) (end_ : ℕ) : List VmMapEntry → Bool
  | [] => true
  | e :: l =>
    if e.vmeStart < end_ then
      if e.wiredCount = 0 ∨ holeBehind e.vmeEnd end_ l = true ∨
        (user = true ∧ e.userWiredCount = 0) then
        false
      else unwireCheck user end_ l
    else true

/-- An entry that is not wired gets a shadow of its object when it needs a copy, and a new object
when it has none. -/
def VmMapEntry.withObject (e : VmMapEntry) (newObject : ℕ) : VmMapEntry :=
  if e.wiredCount = 0 then
    if e.needsCopy = true ∧ e.protection &&& vmProtWrite ≠ 0 then
      { e with object := .vmObject newObject, offset := 0, needsCopy := false }
    else if e.object = .null then { e with object := .vmObject newObject, offset := 0 }
    else e
  else e

/-- One entry is wired from `start` on: the pieces that it becomes, the last one first, and the
header. -/
def wireEntry (user : Bool) (start newObject : ℕ) (e : VmMapEntry) (h : Hdr) :
    List VmMapEntry × Hdr :=
  let e := e.withObject newObject
  if e.vmeStart < start then
    let c := e.clipStart start h.zone
    ([c.2.wire user, c.1], h.link)
  else ([e.wire user], h)

/-- The counts are restored, from an entry back to the start of the range. -/
def undoWire (user : Bool) (start : ℕ) : List VmMapEntry → List VmMapEntry
  | [] => []
  | e :: l => if start < e.vmeEnd then e.unwire user :: undoWire user start l else e :: l

/-- The first pass of wiring. `passed` are the entries before the one it is at, the last one first.
It tells whether it came to the end of the range without a hole or a protection that does not allow
the access. -/
def wireLoop (user : Bool) (access : VmProt) (start end_ : ℕ) :
    List VmMapEntry → List VmMapEntry → Hdr → ℕ → Bool × List VmMapEntry × Hdr
  | passed, [], h, _ => (true, passed.reverse, h)
  | passed, e :: l, h, newObject =>
    if e.vmeStart < end_ then
      if end_ < e.vmeEnd then
        let c := e.clipEnd end_ h.zone
        let w := wireEntry user start newObject c.1 h.link
        if e.protection &&& access ≠ access then
          (false, (undoWire user start (w.1 ++ passed)).reverse ++ c.2 :: l, w.2)
        else (true, (w.1 ++ passed).reverse ++ c.2 :: l, w.2)
      else
        let w := wireEntry user start newObject e h
        if holeBehind e.vmeEnd end_ l = true ∨ e.protection &&& access ≠ access then
          (false, (undoWire user start (w.1 ++ passed)).reverse ++ l, w.2)
        else wireLoop user access start end_ (w.1 ++ passed) l w.2 (newObject + 1)
    else (true, passed.reverse ++ e :: l, h)

/-- `vm_map_pageable_common`; without an access type the range is unwired. -/
def vmMapPageable (m : VmMap) (start end_ : ℕ) (access : VmProt) (user : Bool) (newObject : ℕ) :
    Option (KernReturn × VmMap) :=
  let range := m.rangeCheck start end_
  if access = vmProtNone then do
    let (r, m) ← m.seek range.1
    if r.found = false then some (.failure, m)
    else if unwireCheck user range.2 r.after = false then some (.invalidArgument, m)
    else
      let l := forRange range.2 (VmMapEntry.unwire user) r.after m.hdr
      some (.success, { m with entries := r.before ++ l.1, hdr := l.2 })
  else do
    let (r, m) ← vmMapLookupEntry m range.1
    if r.found = false then some (.failure, m)
    else
      let w := wireLoop user access range.1 range.2 r.before.reverse r.after m.hdr newObject
      some (if w.1 then .success else .failure, { m with entries := w.2.1, hdr := w.2.2 })

end Pageable

section Run

/-- How often each address is wired. -/
structure Wirings where
  user : ℕ → ℕ
  kernel : ℕ → ℕ

/-- The counts of the addresses of a range are changed by `f`. -/
def Wirings.change (w : Wirings) (byUser : Bool) (range : ℕ × ℕ) (f : ℕ → ℕ) : Wirings where
  user a := if byUser = true ∧ range.1 ≤ a ∧ a < range.2 then f (w.user a) else w.user a
  kernel a := if byUser = false ∧ range.1 ≤ a ∧ a < range.2 then f (w.kernel a) else w.kernel a

/-- One wiring more, or one less. -/
def outstanding (access : VmProt) (k : ℕ) : ℕ := if access = vmProtNone then k - 1 else k + 1

/-- The counts after a call. -/
def Wirings.after (w : Wirings) (kr : KernReturn) (access : VmProt) (byUser : Bool)
    (range : ℕ × ℕ) : Wirings :=
  if kr = .success then w.change byUser range (outstanding access) else w

inductive WireStep (ok : VmMap → ℕ × ℕ → VmProt → Bool → KernReturn → Prop) :
    VmMap × Wirings → VmMap × Wirings → Prop
  | pageable {m m' : VmMap} {w : Wirings} {start end_ newObject : ℕ} {access : VmProt} {user : Bool}
      {kr : KernReturn} : vmMapPageable m start end_ access user newObject = some (kr, m') →
      ok m (m.rangeCheck start end_) access user kr →
      WireStep ok (m, w) (m', w.after kr access user (m.rangeCheck start end_))
  | clipStart {m : VmMap} {w : Wirings} {before after : List VmMapEntry} {e : VmMapEntry}
      {start : ℕ} : m.entries = before ++ e :: after → start < e.vmeEnd →
      WireStep ok (m, w) (m.clipStart before e after start, w)
  | clipEnd {m : VmMap} {w : Wirings} {before after : List VmMapEntry} {e : VmMapEntry} {end_ : ℕ} :
      m.entries = before ++ e :: after → e.vmeStart < end_ →
      WireStep ok (m, w) (m.clipEnd before e after end_, w)
  | simplify {m m' : VmMap} {w : Wirings} {start : ℕ} : vmMapSimplify m start = some m' →
      WireStep ok (m, w) (m', w)

end Run

end XMach.Vm
