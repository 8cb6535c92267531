import XMach.Vm.Object

/-!
# Forking an address map

`vm_map_fork` walks over the entries of the old map and gives the new one what their inheritance
says. Where a copy cannot be had without blocking it unlocks the map, takes a copy with
`vm_map_copyin` and looks up where to go on. Here nothing else happens meanwhile, so that the
timestamp is found unchanged. One round of the walk is `forkStep`; the walk ends when it reaches the
header.
-/

namespace XMach.Vm

variable {V : Type}

/-- `vm_map_entry_copy`. -/
def VmMapEntry.entryCopy (e : VmMapEntry) (new : ℕ) : VmMapEntry :=
  { e with
    ptr := new
    isShared := false
    needsWakeup := false
    inTransition := false
    wiredCount := 0
    userWiredCount := 0 }

section Copyin

/-- The copy of an entry for which the map is unlocked. A wired entry has an object. -/
def copyinBlocking (zero : V) (h : Objects V) (e : VmMapEntry) : VmMapEntry × Objects V :=
  match e.object with
  | .vmObject o =>
    if e.wiredCount ≠ 0 then
      let (n, h) := h.copySlowly zero o e.offset (e.vmeEnd - e.vmeStart)
      ({ e.entryCopy 0 with object := .vmObject n, offset := 0, needsCopy := false }, h)
    else
      let (n, offset, needsCopy, h) := h.copyStrategically zero o e.offset (e.vmeEnd - e.vmeStart)
      ({ e.entryCopy 0 with object := .vmObject n, offset, needsCopy }, h)
  | _ => (e.entryCopy 0, h)

/-- The copy of an entry that is made without blocking: the source entry, which may have to be
copied before it is written to from now on, and its copy. -/
def copyNonblocking (h : Objects V) (e : VmMapEntry) (new : ℕ) :
    Option (VmMapEntry × VmMapEntry × Objects V) :=
  if e.wiredCount = 0 then
    (h.copyTemporary e.object).map fun c =>
      ({ e with needsCopy := e.needsCopy || c.srcNeedsCopy },
        { e.entryCopy new with object := c.object, needsCopy := c.dstNeedsCopy }, c.heap)
  else none

/-- One entry of `vm_map_copyin` with `src_destroy` false: the source entry and its copy. -/
def copyinEntry (zero : V) (h : Objects V) (e : VmMapEntry) : VmMapEntry × VmMapEntry × Objects V :=
  match copyNonblocking h e 0 with
  | some r => r
  | none => (e, copyinBlocking zero h e)

/-- The walk of `vm_map_copyin` from the entry that begins at `srcStart`: the copy, if there is one,
and the source entries with what was clipped. -/
def copyinLoop (zero : V) (srcEnd : ℕ) :
    List VmMapEntry → ℕ → Hdr → Objects V →
    Option (List VmMapEntry) × List VmMapEntry × Hdr × Objects V
  | [], _, hdr, h => (none, [], hdr, h)
  | e :: l, srcStart, hdr, h =>
    if e.vmeStart ≠ srcStart ∨ e.protection &&& vmProtRead = 0 then (none, e :: l, hdr, h)
    else if srcEnd < e.vmeEnd then
      let c := e.clipEnd srcEnd hdr.zone
      let (src, new, h) := copyinEntry zero h c.1
      (some [new], src :: c.2 :: l, hdr.link, h)
    else
      let (src, new, h) := copyinEntry zero h e
      if srcEnd ≤ e.vmeEnd then (some [new], src :: l, hdr, h)
      else
        match copyinLoop zero srcEnd l e.vmeEnd hdr h with
        | (some copy, l, hdr, h) => (some (new :: copy), src :: l, hdr, h)
        -- `vm_map_copy_discard`
        | (none, l, hdr, h) => (none, src :: l, hdr, h.deallocate new.object)

/-- `vm_map_copyin` of a range of whole pages. -/
def vmMapCopyin (zero : V) (m : VmMap) (h : Objects V) (start len : ℕ) :
    Option (Option VmMapCopy × VmMap × Objects V) := do
  let srcEnd := (start + len) % 2 ^ 32
  if srcEnd ≤ start then some (none, m, h)
  else
    let (r, m) ← m.seek start
    if r.found then
      let (copy, l, hdr, h) := copyinLoop zero srcEnd r.after start m.hdr h
      some (copy.map fun entries => ⟨start, len, entries⟩,
        { m with entries := r.before ++ l, hdr }, h)
    else some (none, m, h)

end Copyin

/-- Where a fork is: both maps, the objects and `new_size`. The old entry it is at is the first of
`after`; when there is none it has come to the header. -/
structure ForkState (V : Type) where
  old : VmMap
  before : List VmMapEntry
  after : List VmMapEntry
  new : VmMap
  heap : Objects V
  newSize : ℕ

def VmMap.appendEntries (m : VmMap) (l : List VmMapEntry) : VmMap :=
  { m with entries := m.entries ++ l, hdr := m.hdr.linkAll l.length }

/-- The addresses of the structures of a copy, when it is linked into a map. -/
def renumber : List VmMapEntry → ℕ → List VmMapEntry
  | [], _ => []
  | e :: l, n => { e with ptr := n } :: renumber l (n + 1)

/-- The object of an entry that is to be shared: one is made for an entry without, and a shadow
where other users of the object must not see what is written. -/
def objectToShare (h : Objects V) (e : VmMapEntry) : VmMapEntry × Objects V :=
  let size := e.vmeEnd - e.vmeStart
  match e.object with
  | .vmObject o =>
    if e.needsCopy || (h.object o).shadowed ||
        ((h.object o).temporary && !e.isShared && decide (size < (h.object o).size)) then
      let (s, h) := h.shadow o e.offset size
      ({ e with object := .vmObject s, offset := 0, needsCopy := false }, h)
    else (e, h)
  | _ =>
    let (o, h) := h.allocate size
    ({ e with object := .vmObject o, offset := 0 }, h)

/-- The case `VM_INHERIT_SHARE` for an entry that is no projected buffer. -/
def shareEntry (h : Objects V) (e : VmMapEntry) (new : ℕ) : VmMapEntry × VmMapEntry × Objects V :=
  let (e, h) := objectToShare h e
  let h :=
    match e.object with
    | .vmObject o =>
      h.set o { h.object o with useSharedCopy := true, refCount := (h.object o).refCount + 1 }
    | _ => h
  ({ e with isShared := true }, { e.entryCopy new with isShared := true }, h)

/-- The case `VM_INHERIT_COPY` where the map is unlocked and the entry is copied by `vm_map_copyin`.
When that fails the walk goes on with the same address. -/
def forkCopyin (zero : V) (s : ForkState V) (e : VmMapEntry) : Option (ForkState V) := do
  let size := e.vmeEnd - e.vmeStart
  let (copy, old, heap) ← vmMapCopyin zero s.old s.heap e.vmeStart size
  match copy with
  | none =>
    let (r, old) ← vmMapLookupEntry old e.vmeStart
    some { s with old, before := r.before, after := r.after, heap }
  | some copy =>
    let (r, old) ← old.seek (e.vmeStart + size)
    some
      { old, before := r.before, after := r.after
        new := s.new.appendEntries (renumber copy.entries s.new.hdr.zone)
        heap, newSize := (s.newSize + size) % 2 ^ 32 }

/-- The walk goes on behind the entry `r.1`, which has replaced the one it was at, and the new map
gets `r.2.1`. -/
def ForkState.advance (s : ForkState V) (size : ℕ) (rest : List VmMapEntry)
    (r : VmMapEntry × VmMapEntry × Objects V) : ForkState V where
  old := { s.old with entries := s.before ++ r.1 :: rest }
  before := s.before ++ [r.1]
  after := rest
  new := s.new.appendEntries [r.2.1]
  heap := r.2.2
  newSize := (s.newSize + size) % 2 ^ 32

/-- One round of `vm_map_fork` at the entry `e`, before `rest`. A submap is a panic. For a projected
buffer that is to be shared no entry is made: the structure of the entry made last, or none, is
overwritten. -/
def forkStep (zero : V) (s : ForkState V) (e : VmMapEntry) (rest : List VmMapEntry) :
    Option (ForkState V) :=
  let size := e.vmeEnd - e.vmeStart
  if e.isSubMap then none
  else
    match e.inheritance with
    | .none => some { s with before := s.before ++ [e], after := rest }
    | .share =>
      if e.projectedOn ≠ .zero then none
      else some (s.advance size rest (shareEntry s.heap e s.new.hdr.zone))
    | .copy =>
      match copyNonblocking s.heap e s.new.hdr.zone with
      | some r => some (s.advance size rest r)
      | none => forkCopyin zero s e

/-- The rounds of `vm_map_fork`, as many as `fuel` allows. -/
def forkLoop (zero : V) : ℕ → ForkState V → Option (ForkState V)
  | 0, s => if s.after = [] then some s else none
  | fuel + 1, s =>
    match s.after with
    | [] => some s
    | e :: rest => (forkStep zero s e rest).bind (forkLoop zero fuel)

def forkStart (old : VmMap) (heap : Objects V) : ForkState V where
  old := old
  before := []
  after := old.entries
  new := vmMapCreate old.minOffset old.maxOffset
  heap := heap
  newSize := 0

/-- `vm_map_fork`: the new map, the old one and the objects. -/
def vmMapFork (zero : V) (fuel : ℕ) (old : VmMap) (heap : Objects V) :
    Option (VmMap × VmMap × Objects V) :=
  (forkLoop zero fuel (forkStart old heap)).map fun s =>
    ({ s.new with size := s.newSize }, s.old, s.heap)

end XMach.Vm
