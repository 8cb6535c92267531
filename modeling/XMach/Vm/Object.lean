import Mathlib.Logic.Function.Basic
import XMach.Vm.Map

/-!
# Memory objects and how they are copied

The part of `vm_object.c` that address maps rest on. An object holds pages of its own, and what it
does not hold is looked for in the object it shadows. `pages` are the resident ones; `pager` is what
a memory manager has of the rest. `vm_object_shadow`, `vm_object_copy_temporary`,
`vm_object_copy_delayed` and `vm_object_copy_slowly` are translated; where the memory manager makes
the copy itself (`vm_object_copy_call`) it is taken to give an object with the same data. Locks,
page queues and physical maps are left out.
-/

namespace XMach.Vm

variable {V : Type}

/-- `memory_object_copy_strategy_t`. -/
inductive CopyStrategy
  | none
  | call
  | delay
  deriving DecidableEq

structure VmObject (V : Type) where
  size : ℕ
  refCount : ℤ
  copy : Option ℕ
  shadow : Option ℕ
  shadowOffset : ℕ
  temporary : Bool
  useSharedCopy : Bool
  shadowed : Bool
  copyStrategy : CopyStrategy
  pages : List (ℕ × V)
  /-- `some` when a pager has been created. -/
  pager : Option (ℕ → Option V)

/-- All objects, by their addresses. -/
structure Objects (V : Type) where
  object : ℕ → VmObject V
  zone : ℕ

namespace Objects

def set (h : Objects V) (o : ℕ) (x : VmObject V) : Objects V :=
  { h with object := Function.update h.object o x }

/-- The page that an object itself has at an offset. -/
def ownPage (h : Objects V) (o offset : ℕ) : Option V :=
  match (h.object o).pages.lookup offset with
  | some v => some v
  | none =>
    match (h.object o).pager with
    | none => none
    | some data => data offset

/-- The search of `vm_fault_page` down the shadow chain, through at most `fuel` objects; where it
ends the page is filled with zeros. -/
def find (zero : V) (h : Objects V) : ℕ → ℕ → ℕ → V
  | 0, _, _ => zero
  | fuel + 1, o, offset =>
    match h.ownPage o offset with
    | some v => v
    | none =>
      match (h.object o).shadow with
      | none => zero
      | some s => find zero h fuel s ((offset + (h.object o).shadowOffset) % 2 ^ 32)

/-- What a reader of an object sees at an offset. A chain is not longer than there are objects. -/
def contents (zero : V) (h : Objects V) (object : MapObject) (offset : ℕ) : V :=
  match object with
  | .vmObject o => h.find zero h.zone o offset
  | _ => zero

/-- `vm_object_allocate`. -/
def allocate (h : Objects V) (size : ℕ) : ℕ × Objects V :=
  (h.zone,
    { object := Function.update h.object h.zone
        { size, refCount := 1, copy := none, shadow := none, shadowOffset := 0, temporary := true,
          useSharedCopy := false, shadowed := false, copyStrategy := .none, pages := [],
          pager := none }
      zone := h.zone + 1 })

/-- `vm_object_reference`. -/
def reference (h : Objects V) (object : MapObject) : Objects V :=
  match object with
  | .vmObject o => h.set o { h.object o with refCount := (h.object o).refCount + 1 }
  | _ => h

/-- `vm_object_deallocate`, as far as the count goes. -/
def deallocate (h : Objects V) (object : MapObject) : Objects V :=
  match object with
  | .vmObject o => h.set o { h.object o with refCount := (h.object o).refCount - 1 }
  | _ => h

/-- `vm_object_shadow`: a new object that stands before `object` from `offset` on. -/
def shadow (h : Objects V) (object offset length : ℕ) : ℕ × Objects V :=
  let (o, h) := h.allocate length
  (o, h.set o { h.object o with shadow := some object, shadowOffset := offset })

/-- A new copy object stands before `src` and receives the pages that are changed in it from now on;
an old one gets the new one before it. -/
def newCopy (h : Objects V) (src : ℕ) : ℕ × Objects V :=
  let (c, h) := h.allocate (h.object src).size
  let h := match (h.object src).copy with
    | none => h
    | some old =>
      let h := h.set src { h.object src with refCount := (h.object src).refCount - 1 }
      let h := h.set old { h.object old with shadow := some c }
      h.set c { h.object c with refCount := (h.object c).refCount + 1 }
  let h := h.set c { h.object c with shadow := some src, shadowOffset := 0, shadowed := true }
  (c, h.set src { h.object src with refCount := (h.object src).refCount + 1, copy := some c })

/-- The copy object of `src` has not been modified. -/
def unmodified (h : Objects V) (o : ℕ) : Bool :=
  (h.object o).pages.isEmpty && (h.object o).pager.isNone

/-- `vm_object_copy_delayed`. -/
def copyDelayed (h : Objects V) (src : ℕ) : ℕ × Objects V :=
  match (h.object src).copy with
  | some old => if h.unmodified old then (old, h.reference (.vmObject old)) else h.newCopy src
  | none => h.newCopy src

/-- The result of a copy: the object, and which of the two sides has to copy before it writes. -/
structure Copied (V : Type) where
  object : MapObject
  srcNeedsCopy : Bool
  dstNeedsCopy : Bool
  heap : Objects V

/-- `vm_object_copy_temporary`. -/
def copyTemporary (h : Objects V) (object : MapObject) : Option (Copied V) :=
  match object with
  | .null => some ⟨.null, false, false, h⟩
  | .subMap _ => none
  | .vmObject o =>
    if (h.object o).temporary then
      if (h.object o).useSharedCopy then
        some ⟨.vmObject (h.copyDelayed o).1, false, true, (h.copyDelayed o).2⟩
      else
        some ⟨.vmObject o, true, true,
          h.set o { h.object o with refCount := (h.object o).refCount + 1, shadowed := true }⟩
    else none

/-- `vm_object_copy_slowly`: the pages are copied one by one into a new object. -/
def copySlowly (zero : V) (h : Objects V) (o offset size : ℕ) : ℕ × Objects V :=
  let (new, h') := h.allocate size
  let pages := (List.range (size / pageSize)).map fun k =>
    (k * pageSize, h.contents zero (.vmObject o) ((offset + k * pageSize) % 2 ^ 32))
  (new, h'.set new { h'.object new with pages })

/-- `vm_object_copy_strategically`: the copy, its offset, and whether it has to copy before it is
written. The copy is taken to succeed. -/
def copyStrategically (zero : V) (h : Objects V) (o offset size : ℕ) : ℕ × ℕ × Bool × Objects V :=
  let strategy := if (h.object o).temporary then .delay else (h.object o).copyStrategy
  match strategy with
  | .delay => ((h.copyDelayed o).1, offset, true, (h.copyDelayed o).2)
  | _ => ((h.copySlowly zero o offset size).1, 0, false, (h.copySlowly zero o offset size).2)

end Objects

end XMach.Vm
