import Mathlib.Data.Nat.Bitwise
import XMach.Lib.Regions

/-!
# Address maps

The model of `vm_map.c`. A map is the list of its entries in link order. An entry has the address of
its structure as its `ptr`, and `hint` and `first_free` hold such addresses, with `none` for the map
header; an address that is not linked any more leads to no entry, and what is read through it has no
value. Addresses and sizes are 32 bits wide and sums are taken modulo `2 ^ 32`. A routine that keeps
the map locked from its first step to its last is one function; what happens while the lock is
dropped is said at each function that drops it.

The walks over the entries of a range (`vm_map_protect`, `vm_map_inherit`, `vm_map_delete`,
unwiring) clip the entry they are at to the end of the range. What they cut off starts at the end,
where the walk stops, so they are recursive in the rest of the list.
-/

namespace XMach.Vm

abbrev VmProt := BitVec 32

def vmProtNone : VmProt := 0x00
def vmProtRead : VmProt := 0x01
def vmProtWrite : VmProt := 0x02
def vmProtExecute : VmProt := 0x04
def vmProtDefault : VmProt := vmProtRead ||| vmProtWrite
def vmProtAll : VmProt := vmProtRead ||| vmProtWrite ||| vmProtExecute
def vmProtNotify : VmProt := 0x10

inductive VmInherit
  | share
  | copy
  | none
  deriving DecidableEq, Repr

def VmInherit.default : VmInherit := .copy

inductive KernReturn
  | success
  | invalidAddress
  | protectionFailure
  | noSpace
  | invalidArgument
  | failure
  deriving DecidableEq, Repr

/-- `union vm_map_object`, with the entry's `is_sub_map`. -/
inductive MapObject
  | null
  | vmObject (o : ℕ)
  | subMap (m : ℕ)
  deriving DecidableEq, Repr

/-- The field `projected_on`: 0, -1, or the address of an entry of the kernel map. -/
inductive ProjectedOn
  | zero
  | nonPersistent
  | kernelEntry (k : ℕ)
  deriving DecidableEq, Repr

structure VmMapEntry where
  ptr : ℕ
  vmeStart : ℕ
  vmeEnd : ℕ
  object : MapObject
  offset : ℕ
  isShared : Bool
  inTransition : Bool
  needsWakeup : Bool
  needsCopy : Bool
  protection : VmProt
  maxProtection : VmProt
  inheritance : VmInherit
  wiredCount : BitVec 16
  userWiredCount : BitVec 16
  projectedOn : ProjectedOn
  deriving DecidableEq, Repr

instance : Region VmMapEntry := ⟨VmMapEntry.vmeStart, VmMapEntry.vmeEnd⟩

def VmMapEntry.isSubMap (e : VmMapEntry) : Bool :=
  match e.object with
  | .subMap _ => true
  | _ => false

/-- The number of entries that are linked, and the next address that the zone of entries gives out;
no address is given out twice. -/
structure Hdr where
  nentries : ℤ
  zone : ℕ
  deriving DecidableEq, Repr

/-- `_vm_map_entry_create` and `_vm_map_entry_link`. -/
def Hdr.link (h : Hdr) : Hdr := { h with nentries := h.nentries + 1, zone := h.zone + 1 }

def Hdr.unlink (h : Hdr) : Hdr := { h with nentries := h.nentries - 1 }

structure VmMap where
  entries : List VmMapEntry
  hdr : Hdr
  minOffset : ℕ
  maxOffset : ℕ
  size : ℕ
  hint : Option ℕ
  firstFree : Option ℕ
  waitForSpace : Bool
  wiringRequired : Bool
  deriving DecidableEq, Repr

def vmMapCreate (min max : ℕ) : VmMap where
  entries := []
  hdr := ⟨0, 0⟩
  minOffset := min
  maxOffset := max
  size := 0
  hint := none
  firstFree := none
  waitForSpace := false
  wiringRequired := false

section Addresses

def pageSize : ℕ := 4096

def truncPage (x : ℕ) : ℕ := x - x % pageSize

def roundPage (x : ℕ) : ℕ := truncPage ((x + (pageSize - 1)) % 2 ^ 32)

/-- `(start + mask) & ~mask`. -/
def alignUp (start mask : ℕ) : ℕ := ((start + mask) % 2 ^ 32) &&& (2 ^ 32 - 1 - mask)

end Addresses

section Links

/-- The entries before the one at `p`, and those from it on. -/
def cut (p : ℕ) : List VmMapEntry → Option (List VmMapEntry × List VmMapEntry)
  | [] => none
  | e :: l => if e.ptr = p then some ([], e :: l) else (cut p l).map fun c => (e :: c.1, c.2)

/-- The entry that stands before a position, which is the header before the first entry. -/
def lastPtr (before : List VmMapEntry) : Option ℕ := before.getLast?.map (·.ptr)

/-- The position of the entry at `p`, and of the first one when `p` is the header. -/
def position (l : List VmMapEntry) : Option ℕ → Option (List VmMapEntry × List VmMapEntry)
  | none => some ([], l)
  | some p => cut p l

/-- The position behind the entry at `p`. -/
def behind (l : List VmMapEntry) : Option ℕ → Option (List VmMapEntry × List VmMapEntry)
  | none => some ([], l)
  | some p => (cut p l).map fun c => (c.1 ++ c.2.take 1, c.2.drop 1)

/-- `p->vme_start`; the header's `vme_start` is `min_offset`. -/
def VmMap.startOf (m : VmMap) : Option ℕ → Option ℕ
  | none => some m.minOffset
  | some p => (m.entries.find? fun e => decide (e.ptr = p)).map (·.vmeStart)

end Links

section Lookup

/-- `SAVE_HINT`. -/
def VmMap.saveHint (m : VmMap) (p : Option ℕ) : VmMap := { m with hint := p }

/-- The linear search of `vm_map_lookup_entry`: the entries it passed, and what it stopped at. -/
def search (address : ℕ) : List VmMapEntry → List VmMapEntry × List VmMapEntry
  | [] => ([], [])
  | e :: l =>
    if address < e.vmeEnd then ([], e :: l)
    else ((e :: (search address l).1), (search address l).2)

/-- A position in the list. When `found`, the entry in question is the first of `after`; otherwise
it is the last of `before`, or the header when there is none. -/
structure Lookup where
  found : Bool
  before : List VmMapEntry
  after : List VmMapEntry
  deriving DecidableEq

def Lookup.at (address : ℕ) (before after : List VmMapEntry) : Lookup where
  found := match after with
    | [] => false
    | e :: _ => decide (e.vmeStart ≤ address)
  before := before
  after := after

/-- The entry that the lookup returns through its argument. -/
def Lookup.entry (r : Lookup) : Option ℕ :=
  if r.found then r.after.head?.map (·.ptr) else lastPtr r.before

def vmMapLookupEntry (m : VmMap) (address : ℕ) : Option (Lookup × VmMap) := do
  let (before, cur) ← position m.entries m.hint
  match cur with
  | [] => some (⟨false, [], []⟩, m.saveHint none)
  | e :: rest =>
    if e.vmeStart ≤ address then
      if address < e.vmeEnd then
        -- it is the same hint, so it is not saved
        some (⟨true, before, e :: rest⟩, m)
      else
        let s := search address (e :: rest)
        let r := Lookup.at address (before ++ s.1) s.2
        some (r, m.saveHint r.entry)
    else
      -- from the start to the hint, inclusively; the search stops at the hint at the latest
      let s := search address (before ++ [e])
      let r := Lookup.at address s.1 (s.2 ++ rest)
      some (r, m.saveHint r.entry)

end Lookup

section Clip

/-- `offset + (address - vme_start)`, where in its object the entry has an address. -/
def VmMapEntry.offsetAt (e : VmMapEntry) (address : ℕ) : ℕ :=
  (e.offset + (address + 2 ^ 32 - e.vmeStart)) % 2 ^ 32

/-- `_vm_map_clip_start`: the new entry in front, and the old one with the later start. -/
def VmMapEntry.clipStart (e : VmMapEntry) (start new : ℕ) : VmMapEntry × VmMapEntry :=
  ({ e with ptr := new, vmeEnd := start }, { e with offset := e.offsetAt start, vmeStart := start })

/-- `_vm_map_clip_end`: the old entry with the earlier end, and the new one behind it. -/
def VmMapEntry.clipEnd (e : VmMapEntry) (end_ new : ℕ) : VmMapEntry × VmMapEntry :=
  ({ e with vmeEnd := end_ },
    { e with ptr := new, vmeStart := end_, offset := e.offsetAt end_ })

/-- `vm_map_clip_start` on the entry behind `before`. -/
def VmMap.clipStart (m : VmMap) (before : List VmMapEntry) (e : VmMapEntry)
    (after : List VmMapEntry) (start : ℕ) : VmMap :=
  if e.vmeStart < start then
    let c := e.clipStart start m.hdr.zone
    { m with entries := before ++ c.1 :: c.2 :: after, hdr := m.hdr.link }
  else { m with entries := before ++ e :: after }

/-- `vm_map_clip_end` on the entry behind `before`. -/
def VmMap.clipEnd (m : VmMap) (before : List VmMapEntry) (e : VmMapEntry) (after : List VmMapEntry)
    (end_ : ℕ) : VmMap :=
  if end_ < e.vmeEnd then
    let c := e.clipEnd end_ m.hdr.zone
    { m with entries := before ++ c.1 :: c.2 :: after, hdr := m.hdr.link }
  else { m with entries := before ++ e :: after }

/-- The walk over the entries of a range: each is clipped to the end of it and changed by `f`. -/
def forRange (end_ : ℕ) (f : VmMapEntry → VmMapEntry) :
    List VmMapEntry → Hdr → List VmMapEntry × Hdr
  | [], h => ([], h)
  | e :: l, h =>
    if e.vmeStart < end_ then
      if end_ < e.vmeEnd then
        let c := e.clipEnd end_ h.zone
        (f c.1 :: c.2 :: l, h.link)
      else
        let r := forRange end_ f l h
        (f e :: r.1, r.2)
    else (e :: l, h)

/-- `VM_MAP_RANGE_CHECK`. -/
def VmMap.rangeCheck (m : VmMap) (start end_ : ℕ) : ℕ × ℕ :=
  let start := if start < m.minOffset then m.minOffset else start
  let end_ := if m.maxOffset < end_ then m.maxOffset else end_
  (if end_ < start then end_ else start, end_)

/-- How most routines begin: `start` is looked up, an entry that contains it is clipped to begin
there, and the walk starts with that entry or with the one after the gap. -/
def VmMap.seek (m : VmMap) (start : ℕ) : Option (Lookup × VmMap) := do
  let (r, m) ← vmMapLookupEntry m start
  match r.found, r.after with
  | true, e :: after =>
    if e.vmeStart < start then
      let c := e.clipStart start m.hdr.zone
      some (⟨true, r.before ++ [c.1], c.2 :: after⟩,
        { m with entries := r.before ++ c.1 :: c.2 :: after, hdr := m.hdr.link })
    else some (r, m)
  | _, _ => some (r, m)

end Clip

section Enter

/-- What the search for free space ends with. -/
inductive Space
  | found (before after : List VmMapEntry) (start : ℕ)
  /-- the alignment goes past the last address -/
  | wrapped
  | full

/-- The search for a gap of `size` bytes, from `start`, behind the entries of `before`. -/
def findSpace (max size mask : ℕ) : List VmMapEntry → List VmMapEntry → ℕ → Space
  | before, after, start =>
    let aligned := alignUp start mask
    if aligned < start then .wrapped
    else
      let end_ := (aligned + size) % 2 ^ 32
      if max < end_ ∨ end_ < aligned then .full
      else
        match after with
        | [] => .found before [] aligned
        | next :: rest =>
          if end_ ≤ next.vmeStart then .found before (next :: rest) aligned
          else findSpace max size mask (before ++ [next]) rest next.vmeEnd

/-- The search begins at the end of the `first_free` entry. -/
def VmMap.fromFirstFree (m : VmMap) : Option (List VmMapEntry × List VmMapEntry × ℕ) := do
  let (before, after) ← behind m.entries m.firstFree
  match before.getLast? with
  | none => some (before, after, m.minOffset)
  | some e => some (before, after, e.vmeEnd)

/-- What `vm_map_enter` is asked for. -/
structure EnterRequest where
  size : ℕ
  mask : ℕ
  anywhere : Bool
  object : MapObject
  offset : ℕ
  needsCopy : Bool
  curProtection : VmProt
  maxProtection : VmProt
  inheritance : VmInherit
  deriving DecidableEq

/-- What `vm_allocate` asks for: zero-filled memory with the default attributes. -/
def allocateRequest (size : ℕ) (anywhere : Bool) : EnterRequest where
  size := size
  mask := 0
  anywhere := anywhere
  object := .null
  offset := 0
  needsCopy := false
  curProtection := vmProtDefault
  maxProtection := vmProtAll
  inheritance := .default

/-- `waits` when the thread blocks until space is freed, to start again. -/
inductive Reply
  | success (address : ℕ)
  | error (kr : KernReturn)
  | waits
  deriving DecidableEq

/-- `vm_object_coalesce` with no second object: without a first one it succeeds, and otherwise
`grows` tells whether the object is the entry's own and may grow. -/
def vmObjectCoalesce (prev : MapObject) (grows : Bool) : Bool :=
  match prev with
  | .null => true
  | _ => grows

def EnterRequest.extends (r : EnterRequest) (entry : VmMapEntry) (start : ℕ) (grows : Bool) :
    Bool :=
  r.object = .null ∧ entry.vmeEnd = start ∧ !entry.isShared ∧ !entry.isSubMap ∧
    entry.inheritance = r.inheritance ∧ entry.protection = r.curProtection ∧
    entry.maxProtection = r.maxProtection ∧ entry.wiredCount = 0 ∧ entry.projectedOn = .zero ∧
    vmObjectCoalesce entry.object grows

def EnterRequest.newEntry (r : EnterRequest) (new start end_ : ℕ) : VmMapEntry where
  ptr := new
  vmeStart := start
  vmeEnd := end_
  object := r.object
  offset := r.offset
  isShared := false
  inTransition := false
  needsWakeup := false
  needsCopy := r.needsCopy
  protection := r.curProtection
  maxProtection := r.maxProtection
  inheritance := r.inheritance
  wiredCount := 0
  userWiredCount := 0
  projectedOn := .zero

/-- The end of the entry that stands before a position. -/
def VmMap.endBefore (m : VmMap) (before : List VmMapEntry) : ℕ :=
  match before.getLast? with
  | none => m.minOffset
  | some e => e.vmeEnd

/-- A new entry behind the entries of `before`, with the updates of the two hints. -/
def VmMap.insertEntry (m : VmMap) (before after : List VmMapEntry) (start end_ : ℕ)
    (r : EnterRequest) : VmMap :=
  { m with
    entries := before ++ r.newEntry m.hdr.zone start end_ :: after
    hdr := m.hdr.link
    size := (m.size + r.size) % 2 ^ 32
    firstFree :=
      if m.firstFree = lastPtr before ∧ start ≤ m.endBefore before then some m.hdr.zone
      else m.firstFree
    hint := some m.hdr.zone }

/-- `vm_map_enter` from where the range is known to be free. -/
def VmMap.place (m : VmMap) (before after : List VmMapEntry) (start : ℕ) (r : EnterRequest)
    (grows : Bool) : VmMap :=
  let end_ := (start + r.size) % 2 ^ 32
  match before.getLast? with
  | some entry =>
    if r.extends entry start grows then
      { m with
        entries := before.dropLast ++ { entry with vmeEnd := end_ } :: after
        size := (m.size + (end_ - entry.vmeEnd)) % 2 ^ 32 }
    else m.insertEntry before after start end_ r
  | none => m.insertEntry before after start end_ r

/-- Where `vm_map_enter` begins to search for space, when it may be anywhere. -/
def VmMap.searchStart (m : VmMap) (start : ℕ) :
    Option ((List VmMapEntry × List VmMapEntry × ℕ) × VmMap) :=
  if start = m.minOffset then m.fromFirstFree.map fun c => (c, m)
  else do
    let (l, m) ← vmMapLookupEntry m start
    match l.found, l.after with
    | true, e :: after => some ((l.before ++ [e], after, e.vmeEnd), m)
    | _, _ => some ((l.before, l.after, start), m)

/-- How `vm_map_enter` is left: with what reply, and whether the map is still locked. -/
structure EnterExit where
  reply : Reply
  map : VmMap
  locked : Bool
  deriving DecidableEq

/-- `vm_map_enter`. `RETURN` goes to `BailOut`, which unlocks the map, and so do the wait for space
and the end of the routine; the check of the mask comes before the map is locked. -/
def vmMapEnterExit (m : VmMap) (address : ℕ) (r : EnterRequest) (grows : Bool) : Option EnterExit :=
  if r.anywhere then
    let start := if address < m.minOffset then m.minOffset else address
    if m.maxOffset < start then some ⟨.error .noSpace, m, false⟩
    else do
      let ((before, after, start), m) ← m.searchStart start
      match findSpace m.maxOffset r.size r.mask before after start with
      -- a plain `return`, from within the loop
      | .wrapped => some ⟨.error .noSpace, m, true⟩
      | .full =>
        if m.waitForSpace ∧ r.size ≤ m.maxOffset - m.minOffset then some ⟨.waits, m, false⟩
        else some ⟨.error .noSpace, m, false⟩
      | .found before after start =>
        some ⟨.success start, m.place before after start r grows, false⟩
  else if address &&& r.mask ≠ 0 then some ⟨.error .noSpace, m, false⟩
  else
    let end_ := (address + r.size) % 2 ^ 32
    if address < m.minOffset ∨ m.maxOffset < end_ ∨ end_ ≤ address then
      some ⟨.error .invalidAddress, m, false⟩
    else do
      let (l, m) ← vmMapLookupEntry m address
      if l.found then some ⟨.error .noSpace, m, false⟩
      else
        match l.after with
        | [] => some ⟨.success address, m.place l.before [] address r grows, false⟩
        | next :: rest =>
          if next.vmeStart < end_ then some ⟨.error .noSpace, m, false⟩
          else some ⟨.success address, m.place l.before (next :: rest) address r grows, false⟩

/-- What the callers of `vm_map_enter` see of it. -/
def vmMapEnter (m : VmMap) (address : ℕ) (r : EnterRequest) (grows : Bool) :
    Option (Reply × VmMap) :=
  (vmMapEnterExit m address r grows).map fun x => (x.reply, x.map)

end Enter

section FindEntry

/-- `vm_map_find_entry` extends an entry of the same object that is wired like a new one would
be. -/
def VmMapEntry.growsFor (entry : VmMapEntry) (object : MapObject) (start : ℕ) : Bool :=
  object ≠ .null ∧ entry.vmeEnd = start ∧ !entry.isShared ∧ !entry.isSubMap ∧
    entry.object = object ∧ !entry.needsCopy ∧ entry.inheritance = .default ∧
    entry.protection = vmProtDefault ∧ entry.maxProtection = vmProtAll ∧ entry.wiredCount = 1 ∧
    entry.userWiredCount = 0 ∧ entry.projectedOn = .zero

def wiredEntry (new start end_ : ℕ) : VmMapEntry where
  ptr := new
  vmeStart := start
  vmeEnd := end_
  object := .null
  offset := 0
  isShared := false
  inTransition := false
  needsWakeup := false
  needsCopy := false
  protection := vmProtDefault
  maxProtection := vmProtAll
  inheritance := .default
  wiredCount := 1
  userWiredCount := 0
  projectedOn := .zero

/-- A new wired entry behind the entries of `before`. -/
def VmMap.insertWired (m : VmMap) (before after : List VmMapEntry) (start size : ℕ) : VmMap :=
  { m with
    entries := before ++ wiredEntry m.hdr.zone start ((start + size) % 2 ^ 32) :: after
    hdr := m.hdr.link
    size := (m.size + size) % 2 ^ 32
    firstFree := some m.hdr.zone
    hint := some m.hdr.zone }

/-- `vm_map_find_entry`: the address that was found and the entry for it. -/
def vmMapFindEntry (m : VmMap) (size mask : ℕ) (object : MapObject) :
    Option (Option (ℕ × ℕ) × VmMap) := do
  let (before, after, start) ← m.fromFirstFree
  match findSpace m.maxOffset size mask before after start with
  | .found before after start =>
    match before.getLast? with
    | some entry =>
      if entry.growsFor object start then
        some (some (start, entry.ptr),
          { m with
            entries := before.dropLast ++ { entry with vmeEnd := (start + size) % 2 ^ 32 } :: after
            size := (m.size + size) % 2 ^ 32
            firstFree := some entry.ptr
            hint := some entry.ptr })
      else some (some (start, m.hdr.zone), m.insertWired before after start size)
    | none => some (some (start, m.hdr.zone), m.insertWired before after start size)
  | _ => some (none, m)

end FindEntry

section Submap

/-- `vm_map_submap`. `submapObject` is the placeholder `vm_submap_object`, and `untouched` tells
that it has no pages, copy, shadow and pager. Where no entry follows, the header itself is clipped
as though it were one. -/
def vmMapSubmap (m : VmMap) (start end_ submap submapObject : ℕ) (untouched : Bool) :
    Option (KernReturn × VmMap) := do
  let range := m.rangeCheck start end_
  let (r, m) ← m.seek range.1
  match r.after with
  | [] => if range.2 < m.maxOffset then none else some (.invalidArgument, m)
  | e :: rest =>
    let m := m.clipEnd r.before e rest range.2
    match m.entries.drop r.before.length with
    | [] => none
    | e :: rest =>
      if e.vmeStart = range.1 ∧ e.vmeEnd = range.2 ∧ e.object = .vmObject submapObject ∧
        untouched then
        some (.success,
          { m with entries := r.before ++ { e with object := .subMap submap } :: rest })
      else some (.invalidArgument, m)

end Submap

section Protect

/-- The first pass of `vm_map_protect`. -/
def protectCheck (end_ : ℕ) (newProt : VmProt) : List VmMapEntry → Option KernReturn
  | [] => none
  | e :: l =>
    if e.vmeStart < end_ then
      if e.isSubMap then some .invalidArgument
      else if newProt &&& (vmProtNotify ||| e.maxProtection) ≠ newProt then some .protectionFailure
      else protectCheck end_ newProt l
    else none

def VmMapEntry.setProtection (newProt : VmProt) (setMax : Bool) (e : VmMapEntry) : VmMapEntry :=
  if setMax then { e with maxProtection := newProt, protection := newProt &&& e.protection }
  else { e with protection := newProt }

def vmMapProtect (m : VmMap) (start end_ : ℕ) (newProt : VmProt) (setMax : Bool) :
    Option (KernReturn × VmMap) := do
  let range := m.rangeCheck start end_
  let (r, m) ← m.seek range.1
  match protectCheck range.2 newProt r.after with
  | some kr => some (kr, m)
  | none =>
    let l := forRange range.2 (VmMapEntry.setProtection newProt setMax) r.after m.hdr
    some (.success, { m with entries := r.before ++ l.1, hdr := l.2 })

def VmMapEntry.setInheritance (new : VmInherit) (e : VmMapEntry) : VmMapEntry :=
  { e with inheritance := new }

def vmMapInherit (m : VmMap) (start end_ : ℕ) (newInheritance : VmInherit) :
    Option (KernReturn × VmMap) := do
  let range := m.rangeCheck start end_
  let (r, m) ← m.seek range.1
  let l := forRange range.2 (VmMapEntry.setInheritance newInheritance) r.after m.hdr
  some (.success, { m with entries := r.before ++ l.1, hdr := l.2 })

end Protect

section Delete

/-- `vm_map_entry_delete` does nothing to an entry of a task's map that maps a projected buffer
whose kernel entry is not persistent. `persistent` is what is read through the field: whether the
entry that it leads to has 0 in `projected_on`. The mark -1 leads to none and is set in the kernel
map only. -/
def VmMapEntry.stays (kernelMap : Bool) (persistent : ProjectedOn → Bool) (e : VmMapEntry) : Bool :=
  !kernelMap && decide (e.projectedOn ≠ .zero) && !persistent e.projectedOn

/-- The walk of `vm_map_delete`, which stops at an entry in transition to wait. It tells whether it
waits, and gives the entries that are left, the header and `map->size`. -/
def deleteLoop (stays : VmMapEntry → Bool) (end_ : ℕ) :
    List VmMapEntry → Hdr → ℕ → Bool × List VmMapEntry × Hdr × ℕ
  | [], h, size => (false, [], h, size)
  | e :: l, h, size =>
    if e.vmeStart < end_ then
      if end_ < e.vmeEnd then
        let c := e.clipEnd end_ h.zone
        if e.inTransition then (true, { c.1 with needsWakeup := true } :: c.2 :: l, h.link, size)
        else if stays e then (false, c.1 :: c.2 :: l, h.link, size)
        else (false, c.2 :: l, h.link.unlink, (size + 2 ^ 32 - (end_ - e.vmeStart)) % 2 ^ 32)
      else if e.inTransition then (true, { e with needsWakeup := true } :: l, h, size)
      else if stays e then
        let r := deleteLoop stays end_ l h size
        (r.1, e :: r.2.1, r.2.2)
      else deleteLoop stays end_ l h.unlink ((size + 2 ^ 32 - (e.vmeEnd - e.vmeStart)) % 2 ^ 32)
    else (false, e :: l, h, size)

def VmMap.deleteFrom (m : VmMap) (stays : VmMapEntry → Bool) (end_ : ℕ)
    (before after : List VmMapEntry) : Bool × VmMap :=
  let r := deleteLoop stays end_ after m.hdr m.size
  (r.1, { m with entries := before ++ r.2.1, hdr := r.2.2.1, size := r.2.2.2 })

/-- Both hints are led to the entry before the range, when they lead into the range or behind it;
`free` is where the `first_free` entry starts. -/
def VmMap.repairHints (m : VmMap) (r : Lookup) (start free : ℕ) : VmMap :=
  { m with
    hint := if r.found then lastPtr r.before else m.hint
    firstFree := if start ≤ free then lastPtr r.before else m.firstFree }

/-- `vm_map_delete` until it is done or waits for an entry in transition. -/
def vmMapDelete (m : VmMap) (start end_ : ℕ) (stays : VmMapEntry → Bool) :
    Option (Bool × VmMap) := do
  let (r, m) ← m.seek start
  let free ← m.startOf m.firstFree
  some ((m.repairHints r start free).deleteFrom stays end_ r.before r.after)

/-- `vm_map_delete` once it has the lock again after it waited: the entry is looked up again, and
the hints stay as they are. -/
def vmMapDeleteResume (m : VmMap) (start end_ : ℕ) (stays : VmMapEntry → Bool) :
    Option (Bool × VmMap) := do
  let (r, m) ← vmMapLookupEntry m start
  some (m.deleteFrom stays end_ r.before r.after)

def vmMapRemove (m : VmMap) (start end_ : ℕ) (stays : VmMapEntry → Bool) : Option (Bool × VmMap) :=
  vmMapDelete m (m.rangeCheck start end_).1 (m.rangeCheck start end_).2 stays

end Delete

section Simplify

/-- Two neighbours that `vm_map_simplify` makes one. -/
def VmMapEntry.mergesWith (prev this : VmMapEntry) : Bool :=
  !prev.isShared ∧ !prev.isSubMap ∧ !this.isShared ∧ !this.isSubMap ∧
    prev.inheritance = this.inheritance ∧ prev.protection = this.protection ∧
    prev.maxProtection = this.maxProtection ∧ prev.wiredCount = this.wiredCount ∧
    prev.userWiredCount = this.userWiredCount ∧ prev.needsCopy = this.needsCopy ∧
    prev.object = this.object ∧ prev.offsetAt prev.vmeEnd = this.offset ∧
    prev.projectedOn = .zero ∧ this.projectedOn = .zero

def vmMapSimplify (m : VmMap) (start : ℕ) : Option VmMap := do
  let (r, m) ← vmMapLookupEntry m start
  match r.found, r.before.getLast?, r.after with
  | true, some prev, this :: rest =>
    if prev.vmeEnd = start ∧ prev.mergesWith this then
      some { m with
        entries := r.before.dropLast ++ { prev with vmeEnd := this.vmeEnd } :: rest
        hdr := m.hdr.unlink
        firstFree := if m.firstFree = some this.ptr then some prev.ptr else m.firstFree
        hint := some prev.ptr }
    else some m
  | _, _, _ => some m

end Simplify

section Copyout

/-- A copy of the kind `VM_MAP_COPY_ENTRY_LIST`. -/
structure VmMapCopy where
  offset : ℕ
  size : ℕ
  entries : List VmMapEntry
  deriving DecidableEq

def VmMapCopy.copyStart (c : VmMapCopy) : ℕ := truncPage c.offset

/-- The bytes of whole pages that a copy of `size` bytes at `offset` takes. -/
def copySpan (offset size : ℕ) : ℕ :=
  (roundPage ((offset + size) % 2 ^ 32) + 2 ^ 32 - truncPage offset) % 2 ^ 32

/-- The entries of a copy with their addresses adjusted, as they are linked into a map. -/
def adopt (adjustment : ℕ) : List VmMapEntry → ℕ → List VmMapEntry
  | [], _ => []
  | e :: l, new =>
    { e with
      ptr := new
      vmeStart := (e.vmeStart + adjustment) % 2 ^ 32
      vmeEnd := (e.vmeEnd + adjustment) % 2 ^ 32
      inheritance := .default
      protection := vmProtDefault
      maxProtection := vmProtAll
      projectedOn := .zero } :: adopt adjustment l (new + 1)

/-- `vm_map_copy_insert`. -/
def Hdr.linkAll (h : Hdr) (n : ℕ) : Hdr := { h with nentries := h.nentries + n, zone := h.zone + n }

def vmMapCopyout (m : VmMap) (copy : VmMapCopy) : Option (Reply × VmMap) := do
  let size := copySpan copy.offset copy.size
  let (before, after, start) ← m.fromFirstFree
  match findSpace m.maxOffset size 0 before after start with
  | .found before after start =>
    let l := adopt ((start + 2 ^ 32 - copy.copyStart) % 2 ^ 32) copy.entries m.hdr.zone
    some (.success ((start + (copy.offset - copy.copyStart)) % 2 ^ 32),
      { m with
        entries := before ++ l ++ after
        hdr := m.hdr.linkAll copy.entries.length
        size := (m.size + size) % 2 ^ 32
        firstFree := if m.firstFree = lastPtr before then lastPtr l else m.firstFree
        hint := lastPtr l })
  | _ =>
    if m.waitForSpace ∧ size ≤ m.maxOffset - m.minOffset then some (.waits, m)
    else some (.error .noSpace, m)

/-- `vm_map_copyout` of a copy of the kind `VM_MAP_COPY_OBJECT`. -/
def vmMapCopyoutObject (m : VmMap) (object : MapObject) (offset size : ℕ) (grows : Bool) :
    Option (Reply × VmMap) :=
  vmMapEnter m 0
    { size, mask := 0, anywhere := true, object, offset, needsCopy := false,
      curProtection := vmProtDefault, maxProtection := vmProtAll, inheritance := .default } grows

/-- `vm_map_copyout_page_list` extends an entry of the same attributes; `sole` tells that its
object, if it has one, is used by nothing else. -/
def VmMapEntry.takesPages (last : VmMapEntry) (start : ℕ) (mustWire sole : Bool) : Bool :=
  last.vmeEnd = start ∧ !last.isShared ∧ !last.isSubMap ∧ last.inheritance = .default ∧
    last.protection = vmProtDefault ∧ last.maxProtection = vmProtAll ∧
    (if mustWire then last.wiredCount = 1 ∧ last.userWiredCount = 1 else last.wiredCount = 0) ∧
    (last.object = .null ∨ sole)

def pagesEntry (new start end_ object : ℕ) (mustWire : Bool) : VmMapEntry where
  ptr := new
  vmeStart := start
  vmeEnd := end_
  object := .vmObject object
  offset := 0
  isShared := false
  inTransition := true
  needsWakeup := false
  needsCopy := false
  protection := vmProtDefault
  maxProtection := vmProtAll
  inheritance := .default
  wiredCount := if mustWire then 1 else 0
  userWiredCount := if mustWire then 1 else 0
  projectedOn := .zero

/-- The entry that `vm_map_copyout_page_list` extends, with an object when it had none. -/
def VmMapEntry.withPages (last : VmMapEntry) (end_ newObject : ℕ) : VmMapEntry :=
  match last.object with
  | .null =>
    { last with vmeEnd := end_, object := .vmObject newObject, offset := 0, inTransition := true }
  | _ => { last with vmeEnd := end_, inTransition := true }

def VmMap.insertPages (m : VmMap) (before after : List VmMapEntry) (start size newObject : ℕ) :
    VmMap :=
  { m with
    entries := before ++
      pagesEntry m.hdr.zone start ((start + size) % 2 ^ 32) newObject m.wiringRequired :: after
    hdr := m.hdr.link
    size := (m.size + size) % 2 ^ 32
    firstFree := if m.firstFree = lastPtr before then some m.hdr.zone else m.firstFree
    hint := some m.hdr.zone }

/-- `vm_map_copyout_page_list` up to where the pages are put in: the entry that takes them is in
transition, and it is the hint. `newObject` is the object that is allocated when one is needed. -/
def copyoutPageListPlace (m : VmMap) (size newObject : ℕ) (sole : Bool) :
    Option (Reply × VmMap) := do
  let (before, after, start) ← m.fromFirstFree
  match findSpace m.maxOffset size 0 before after start with
  | .found before after start =>
    match before.getLast? with
    | some last =>
      if last.takesPages start m.wiringRequired sole then
        some (.success start,
          { m with
            entries := before.dropLast ++
              last.withPages ((start + size) % 2 ^ 32) newObject :: after
            size := (m.size + size) % 2 ^ 32
            hint := some last.ptr })
      else some (.success start, m.insertPages before after start size newObject)
    | none => some (.success start, m.insertPages before after start size newObject)
  | _ =>
    if m.waitForSpace ∧ size ≤ m.maxOffset - m.minOffset then some (.waits, m)
    else some (.error .noSpace, m)

/-- `last->in_transition = FALSE`, where the map has not been unlocked. -/
def clearMark (p : ℕ) (l : List VmMapEntry) : List VmMapEntry :=
  l.map fun e => if e.ptr = p then { e with inTransition := false } else e

/-- The entries up to `end_` lose their marks. -/
def clearMarks (end_ : ℕ) : List VmMapEntry → List VmMapEntry
  | [] => []
  | e :: l =>
    if e.vmeStart < end_ then
      { e with inTransition := false, needsWakeup := false } :: clearMarks end_ l
    else e :: l

/-- The end of `vm_map_copyout_page_list` when the map was unlocked for the continuation; a failed
continuation has the range deleted again. Without an entry at `start` it panics. -/
def copyoutPageListDone (m : VmMap) (start end_ : ℕ) (ok : Bool) (stays : VmMapEntry → Bool) :
    Option (Bool × VmMap) := do
  let (r, m) ← vmMapLookupEntry m start
  if r.found then
    let m := { m with entries := r.before ++ clearMarks end_ r.after }
    if ok then some (false, m) else vmMapDelete m start end_ stays
  else none

end Copyout

end XMach.Vm
