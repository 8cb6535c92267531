import XMach.Vm.Map

/-!
# Requests on ranges of addresses

The routines of `vm_user.c` that a task calls with an address and a size, on a map that is not null.
They make whole pages of the range and hand it to `vm_map.c`. `start + size` and `round_page` are
taken modulo `2 ^ 32`.
-/

namespace XMach.Vm

/-- `vm_allocate`. -/
def vmAllocate (m : VmMap) (address size : ℕ) (anywhere grows : Bool) : Option (Reply × VmMap) :=
  if size = 0 then some (.success 0, m)
  else
    vmMapEnter m (if anywhere then m.minOffset else truncPage address)
      (allocateRequest (roundPage size) anywhere) grows

/-- The end of the pages of a range, `round_page(start + size)`. -/
def rangeEnd (start size : ℕ) : ℕ := roundPage ((start + size) % 2 ^ 32)

/-- `vm_deallocate`, until it is done or waits for an entry in transition. -/
def vmDeallocate (m : VmMap) (start size : ℕ) (stays : VmMapEntry → Bool) : Option (Bool × VmMap) :=
  if size = 0 then some (false, m)
  else vmMapRemove m (truncPage start) (rangeEnd start size) stays

/-- `vm_deallocate` once it has the lock again after it waited. -/
def vmDeallocateResume (m : VmMap) (start size : ℕ) (stays : VmMapEntry → Bool) :
    Option (Bool × VmMap) :=
  vmMapDeleteResume m (m.rangeCheck (truncPage start) (rangeEnd start size)).1
    (m.rangeCheck (truncPage start) (rangeEnd start size)).2 stays

/-- The walk of `projected_buffer_in_range`. -/
def projectedFrom (end_ : ℕ) : List VmMapEntry → Bool
  | [] => false
  | e :: l =>
    if e.vmeStart ≤ end_ then
      if e.projectedOn = .zero then projectedFrom end_ l else true
    else false

def projectedBufferInRange (kernelMap : Bool) (m : VmMap) (start end_ : ℕ) :
    Option (Bool × VmMap) :=
  if kernelMap then some (false, m)
  else do
    let (r, m) ← vmMapLookupEntry m start
    some (projectedFrom end_ r.after, m)

/-- The values of `vm_inherit_t` that `vm_inherit` knows. -/
def VmInherit.ofNat? : ℕ → Option VmInherit
  | 0 => some .share
  | 1 => some .copy
  | 2 => some .none
  | _ => none

def vmInherit (kernelMap : Bool) (m : VmMap) (start size newInheritance : ℕ) :
    Option (KernReturn × VmMap) :=
  match VmInherit.ofNat? newInheritance with
  | none => some (.invalidArgument, m)
  | some new => do
    let (projected, m) ← projectedBufferInRange kernelMap m start ((start + size) % 2 ^ 32)
    if projected then some (.invalidArgument, m)
    else vmMapInherit m (truncPage start) (rangeEnd start size) new

def vmProtect (kernelMap : Bool) (m : VmMap) (start size : ℕ) (setMaximum : Bool)
    (newProtection : VmProt) : Option (KernReturn × VmMap) :=
  if newProtection &&& ~~~(vmProtAll ||| vmProtNotify) ≠ 0 then some (.invalidArgument, m)
  else do
    let (projected, m) ← projectedBufferInRange kernelMap m start ((start + size) % 2 ^ 32)
    if projected then some (.invalidArgument, m)
    else vmMapProtect m (truncPage start) (rangeEnd start size) newProtection setMaximum

/-- What `vm_map` is to map: nothing when `memory_object` is no valid port, and otherwise what
`vm_object_enter` and `vm_object_copy_strategically` come to. -/
inductive MapSource
  | null
  | failed (kr : KernReturn)
  | object (object offset : ℕ) (needsCopy : Bool)

/-- `vm_map`. -/
def vmMap (m : VmMap) (address size mask : ℕ) (anywhere : Bool) (source : MapSource)
    (curProtection maxProtection : VmProt) (inheritance : ℕ) (grows : Bool) :
    Option (Reply × VmMap) :=
  if curProtection &&& ~~~vmProtAll ≠ 0 ∨ maxProtection &&& ~~~vmProtAll ≠ 0 then
    some (.error .invalidArgument, m)
  else
    match VmInherit.ofNat? inheritance with
    | none => some (.error .invalidArgument, m)
    | some inheritance =>
      let request (object : MapObject) (offset : ℕ) (needsCopy : Bool) : EnterRequest :=
        { size := roundPage size, mask, anywhere, object, offset, needsCopy, curProtection,
          maxProtection, inheritance }
      match source with
      | .null => vmMapEnter m (truncPage address) (request .null 0 false) grows
      | .failed kr => some (.error kr, m)
      | .object object offset needsCopy =>
        vmMapEnter m (truncPage address) (request (.vmObject object) offset needsCopy) grows

end XMach.Vm
