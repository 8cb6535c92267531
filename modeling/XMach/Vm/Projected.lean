import XMach.Vm.Run
import XMach.Vm.Wire

/-!
# Projected buffers

The routines of `vm_kern.c` that map a wired buffer of the kernel into a task. Each of them locks
the kernel map and the task's map one after the other, and the definitions are the stretches for
which one of the two is locked. `Stretch` takes a map through these and through the routines of
`vm_map.c`.
-/

namespace XMach.Vm

/-- The field updates that follow `vm_map_find_entry`. -/
def updateEntry (p : ℕ) (f : VmMapEntry → VmMapEntry) (l : List VmMapEntry) : List VmMapEntry :=
  l.map fun e => if e.ptr = p then f e else e

/-- `projected_buffer_allocate` in the kernel map. -/
def projectedAllocateKernel (m : VmMap) (size object : ℕ) (persistence : Bool) :
    Option (Option (ℕ × ℕ) × VmMap) := do
  let (r, m) ← vmMapFindEntry m (roundPage size) 0 .null
  match r with
  | none => some (none, m)
  | some (addr, k) =>
    some (some (addr, k),
      { m with entries := updateEntry k (fun e =>
          { e with
            object := .vmObject object
            projectedOn := if persistence then e.projectedOn else .nonPersistent }) m.entries })

/-- What the entry of a task is made of: its object and offset, the kernel's entry and the
attributes. -/
structure Projection where
  object : MapObject
  offset : ℕ
  kernelEntry : ℕ
  protection : VmProt
  inheritance : VmInherit
  wiredCount : BitVec 16

/-- `projected_buffer_allocate` and `projected_buffer_map` in the task's map. -/
def projectedMapUser (m : VmMap) (size : ℕ) (p : Projection) : Option (Option (ℕ × ℕ) × VmMap) := do
  let (r, m) ← vmMapFindEntry m (roundPage size) 0 .null
  match r with
  | none => some (none, m)
  | some (addr, u) =>
    some (some (addr, u),
      { m with entries := updateEntry u (fun e =>
          { e with
            object := p.object
            offset := p.offset
            projectedOn := .kernelEntry p.kernelEntry
            protection := p.protection
            maxProtection := p.protection
            inheritance := p.inheritance
            wiredCount := p.wiredCount }) m.entries })

/-- The entry is unlinked and freed. -/
def unlinkEntry (m : VmMap) (before : List VmMapEntry) (e : VmMapEntry) (rest : List VmMapEntry) :
    VmMap :=
  { m with
    entries := before ++ rest
    hdr := m.hdr.unlink
    size := (m.size + 2 ^ 32 - (e.vmeEnd - e.vmeStart)) % 2 ^ 32 }

/-- `vm_fault_unwire` must find the pages of a wired entry in its object; where one is missing,
`vm_fault_page` goes through a null page and the kernel stops. -/
def VmMapEntry.unwires (e : VmMapEntry) (resident : Bool) : Bool :=
  e.wiredCount = 0 ∨ e.object = .null ∨ e.vmeEnd ≤ e.vmeStart ∨ resident

/-- `vm_map_entry_delete` of a linked entry that does not stay. `resident` tells that its pages are
there. -/
def vmMapEntryDelete (m : VmMap) (p : ℕ) (resident : Bool) : Option VmMap :=
  (cut p m.entries).bind fun c =>
    match c.2 with
    | [] => none
    | e :: rest => if e.unwires resident then some (unlinkEntry m c.1 e rest) else none

/-- What `projected_buffer_allocate` leaves: both maps, and the references to the object it has
made. -/
structure Buffer where
  kernel : VmMap
  user : VmMap
  refs : ℤ
  deriving DecidableEq

/-- `projected_buffer_allocate` in a task's map. The object has one reference when it is made; each
call of `vm_object_deallocate`, the one in `vm_map_entry_delete` too, takes one away. The object has
no pages until both entries are there. -/
def projectedBufferAllocate (kernel user : VmMap) (size object : ℕ) (persistence : Bool)
    (protection : VmProt) (inheritance : VmInherit) : Option (KernReturn × Buffer) := do
  let (k, kernel) ← projectedAllocateKernel kernel size object persistence
  match k with
  | none => some (.noSpace, ⟨kernel, user, 1 - 1⟩)
  | some (_, kEntry) =>
    let (u, user) ← projectedMapUser user size
      { object := .vmObject object, offset := 0, kernelEntry :=
        kEntry, protection, inheritance, wiredCount := 1 }
    match u with
    | none =>
      let kernel ← vmMapEntryDelete kernel kEntry false
      some (.noSpace, ⟨kernel, user, 1 - 1 - 1⟩)
    | some _ => some (.success, ⟨kernel, user, 1 + 1⟩)

/-- `if (map->first_free == entry) map->first_free = entry->vme_prev`. -/
def VmMap.leaveFirstFree (m : VmMap) (before : List VmMapEntry) (p : ℕ) : VmMap :=
  { m with firstFree := if m.firstFree = some p then lastPtr before else m.firstFree }

/-- `projected_buffer_deallocate` in the task's map; `wired_count` is set to 0, so nothing is
unwired. When the range is not the whole entry the clipping takes the map for its header, and there
is no result. -/
def projectedDeallocateUser (m : VmMap) (start end_ : ℕ) : Option (KernReturn × VmMap) := do
  let (r, m) ← vmMapLookupEntry m start
  match r.found, r.after with
  | true, e :: rest =>
    if e.vmeEnd < end_ ∨ e.projectedOn = .zero then some (.invalidArgument, m)
    else if e.vmeStart < start ∨ end_ < e.vmeEnd then none
    else some (.success, unlinkEntry (m.leaveFirstFree r.before e.ptr) r.before e rest)
  | _, _ => some (.invalidArgument, m)

/-- `projected_buffer_deallocate` in the kernel map. `sole` tells that the object has one
reference. -/
def projectedDeallocateKernel (m : VmMap) (k : ℕ) (sole resident : Bool) : Option VmMap := do
  let c ← cut k m.entries
  match c.2 with
  | [] => none
  | e :: _ =>
    if e.projectedOn = .nonPersistent ∧ sole = true then
      vmMapEntryDelete (m.leaveFirstFree c.1 k) k resident
    else some m

inductive Stretch (ok : VmMap → Risk → Prop) : VmMap → VmMap → Prop
  | step {m m' : VmMap} : Step ok m m' → Stretch ok m m'
  | pageable {m m' : VmMap} {start end_ newObject : ℕ} {access : VmProt} {user : Bool}
      {kr : KernReturn} :
      (access ≠ vmProtNone → (m.rangeCheck start end_).1 < (m.rangeCheck start end_).2) →
      vmMapPageable m start end_ access user newObject = some (kr, m') → Stretch ok m m'
  | projectedAllocateKernel {m m' : VmMap} {size object : ℕ} {persistence : Bool}
      {r : Option (ℕ × ℕ)} : 0 < roundPage size → ok m (.findEntry (roundPage size) 0) →
      projectedAllocateKernel m size object persistence = some (r, m') → Stretch ok m m'
  /-- the entry is deleted again when there is no space in the task's map -/
  | projectedAllocateFailed {m m' : VmMap} {k : ℕ} :
      ok m (.allocateFailed k) → vmMapEntryDelete m k false = some m' → Stretch ok m m'
  /-- the lookup of `projected_buffer_map` in the kernel map -/
  | lookup {m m' : VmMap} {address : ℕ} {r : Lookup} :
      vmMapLookupEntry m address = some (r, m') → Stretch ok m m'
  | projectedMapUser {m m' : VmMap} {size : ℕ} {p : Projection} {r : Option (ℕ × ℕ)} :
      0 < roundPage size → ok m (.findEntry (roundPage size) 0) →
      projectedMapUser m size p = some (r, m') → Stretch ok m m'
  | projectedDeallocateUser {m m' : VmMap} {start end_ : ℕ} {kr : KernReturn} :
      ok m (.deallocateUser start end_) → projectedDeallocateUser m start end_ = some (kr, m') →
      Stretch ok m m'
  /-- the map is taken for its header -/
  | projectedDeallocatePart {m m' : VmMap} {start end_ : ℕ} :
      ok m (.deallocateUser start end_) → projectedDeallocateUser m start end_ = none →
      Stretch ok m m'
  | projectedDeallocateKernel {m m' : VmMap} {k : ℕ} {sole resident : Bool} :
      ok m (.deallocateKernel k) → projectedDeallocateKernel m k sole resident = some m' →
      Stretch ok m m'
  /-- the entry of the kernel has been freed while its map was unlocked -/
  | freed {m m' : VmMap} {k : ℕ} : ok m (.allocateFailed k) ∨ ok m (.deallocateKernel k) →
      ¬ Linked m.entries (some k) → Stretch ok m m'

end XMach.Vm
