import XMach.Vm.Fork

/-!
# Runs of the address map routines

`Call` is one call of a routine of `vm_map.c` on a map, or one stretch of it between two moments at
which the map is unlocked; a stretch after such a moment may come at any time. `Step` is such a call
or the stretch of `vm_map_delete` after a wait. The ranges are of non-zero size and otherwise
arbitrary. Some calls are a `Risk` in some maps: `ok` tells in which ones they may be made, and
`Reachable` are the maps that come about from an empty one. What goes through a structure that is
not linked may come to any map.
-/

namespace XMach.Vm

open Region

/-- The copy has whole pages without a gap, as `vm_map_copyin` makes it. -/
structure VmMapCopy.Valid (c : VmMapCopy) : Prop where
  offset_lt : c.offset < 2 ^ 32
  pos : 0 < copySpan c.offset c.size
  tiles : Tiles c.entries c.copyStart (c.copyStart + copySpan c.offset c.size)

/-- The pointer leads to the header or to a linked entry. -/
def Linked (l : List VmMapEntry) : Option ℕ → Prop
  | none => True
  | some p => ∃ e ∈ l, e.ptr = p

/-- Both cached pointers lead into the map. -/
def CachesLinked (m : VmMap) : Prop := Linked m.entries m.hint ∧ Linked m.entries m.firstFree

section Risks

/-- The calls that not every map is safe from, with their arguments. -/
inductive Risk
  | findEntry (size mask : ℕ)
  | submap (start end_ : ℕ)
  | fork
  /-- `vm_map_delete` after a wait -/
  | resume (start end_ : ℕ) (stays : VmMapEntry → Bool)
  /-- `vm_map_entry_delete` of the kernel's entry when `projected_buffer_allocate` fails -/
  | allocateFailed (k : ℕ)
  /-- `projected_buffer_deallocate` in the task's and in the kernel's map -/
  | deallocateUser (start end_ : ℕ)
  | deallocateKernel (k : ℕ)

/-- The range lies in the map and its start is mapped, as the range of a submap is that was entered
with `vm_submap_object` before. -/
def StartMapped (m : VmMap) (start end_ : ℕ) : Prop :=
  m.minOffset ≤ start ∧ end_ ≤ m.maxOffset ∧ ∃ e ∈ m.entries, Covers e start

/-- The entries that the walk of `vm_map_delete` unlinks. -/
def deleted (stays : VmMapEntry → Bool) (end_ : ℕ) : List VmMapEntry → List ℕ
  | [] => []
  | e :: l =>
    if e.vmeStart < end_ then
      if end_ < e.vmeEnd then
        if e.inTransition then [] else if stays e then [] else [e.ptr]
      else if e.inTransition then []
      else if stays e then deleted stays end_ l
      else e.ptr :: deleted stays end_ l
    else []

/-- The maps in which a call leaves every pointer to an entry right: a resumed delete unlinks
neither the entry at its start, which its lookup saves as the hint, nor the `first_free` entry; no
projected buffer is shared with a new task; and the routines for projected buffers, which look up
what they unlink, unlink nothing in a task's map and not the hint in the kernel's. -/
def Careful (m : VmMap) : Risk → Prop
  | .findEntry _ _ => True
  | .submap start end_ => StartMapped m start end_
  | .fork => ∀ e ∈ m.entries, e.inheritance = .share → e.projectedOn = .zero
  | .resume start end_ stays => ∀ p ∈ deleted stays end_ (search start m.entries).2,
      m.firstFree ≠ some p ∧ ∀ e ∈ m.entries, Covers e start → e.ptr ≠ p
  | .allocateFailed k => Linked m.entries (some k) ∧ m.hint ≠ some k ∧ m.firstFree ≠ some k
  | .deallocateUser start end_ => ∀ e ∈ m.entries, Covers e start → e.vmeEnd < end_ ∨
      e.projectedOn = .zero
  | .deallocateKernel k => Linked m.entries (some k) ∧ m.hint ≠ some k

end Risks

inductive Call (ok : VmMap → Risk → Prop) : VmMap → VmMap → Prop
  | enter {m m' : VmMap} {address : ℕ} {r : EnterRequest} {grows : Bool} {reply : Reply} :
      0 < r.size → r.size < 2 ^ 32 → vmMapEnter m address r grows = some (reply, m') → Call ok m m'
  | findEntry {m m' : VmMap} {size mask : ℕ} {object : MapObject} {r : Option (ℕ × ℕ)} :
      0 < size → size < 2 ^ 32 → ok m (.findEntry size mask) →
      vmMapFindEntry m size mask object = some (r, m') → Call ok m m'
  | protect {m m' : VmMap} {start end_ : ℕ} {newProt : VmProt} {setMax : Bool} {kr : KernReturn} :
      vmMapProtect m start end_ newProt setMax = some (kr, m') → Call ok m m'
  | inherit {m m' : VmMap} {start end_ : ℕ} {new : VmInherit} {kr : KernReturn} :
      vmMapInherit m start end_ new = some (kr, m') → Call ok m m'
  | submap {m m' : VmMap} {start end_ submap submapObject : ℕ} {untouched : Bool}
      {kr : KernReturn} : start < end_ → ok m (.submap start end_) →
      vmMapSubmap m start end_ submap submapObject untouched = some (kr, m') → Call ok m m'
  | delete {m m' : VmMap} {start end_ : ℕ} {stays : VmMapEntry → Bool} {waits : Bool} :
      vmMapDelete m start end_ stays = some (waits, m') → Call ok m m'
  | remove {m m' : VmMap} {start end_ : ℕ} {stays : VmMapEntry → Bool} {waits : Bool} :
      vmMapRemove m start end_ stays = some (waits, m') → Call ok m m'
  | copyout {m m' : VmMap} {copy : VmMapCopy} {reply : Reply} :
      copy.Valid → vmMapCopyout m copy = some (reply, m') → Call ok m m'
  | copyoutObject {m m' : VmMap} {object : MapObject} {offset size : ℕ} {grows : Bool}
      {reply : Reply} :
      0 < size → size < 2 ^ 32 → vmMapCopyoutObject m object offset size grows = some (reply, m') →
      Call ok m m'
  | copyoutPageListPlace {m m' : VmMap} {size newObject : ℕ} {sole : Bool} {reply : Reply} :
      0 < size → size < 2 ^ 32 → copyoutPageListPlace m size newObject sole = some (reply, m') →
      Call ok m m'
  | copyoutPageListAtOnce {m : VmMap} {last : ℕ} :
      Call ok m { m with entries := clearMark last m.entries }
  | copyoutPageListDone {m m' : VmMap} {start end_ : ℕ} {ready waits : Bool}
      {stays : VmMapEntry → Bool} :
      copyoutPageListDone m start end_ ready stays = some (waits, m') → Call ok m m'
  | simplify {m m' : VmMap} {start : ℕ} : vmMapSimplify m start = some m' → Call ok m m'
  | clipStart {m : VmMap} {before after : List VmMapEntry} {e : VmMapEntry} {start : ℕ} :
      m.entries = before ++ e :: after → start < e.vmeEnd →
      Call ok m (m.clipStart before e after start)
  | clipEnd {m : VmMap} {before after : List VmMapEntry} {e : VmMapEntry} {end_ : ℕ} :
      m.entries = before ++ e :: after → e.vmeStart < end_ →
      Call ok m (m.clipEnd before e after end_)
  /-- the new map of `vm_map_fork` -/
  | forkNew {V : Type} {m m' child : VmMap} {zero : V} {fuel : ℕ} {h h' : Objects V} :
      ok m .fork → vmMapFork zero fuel m h = some (child, m', h') → Call ok m child
  /-- the old map of `vm_map_fork` -/
  | forkOld {V : Type} {m m' child : VmMap} {zero : V} {fuel : ℕ} {h h' : Objects V} :
      ok m .fork → vmMapFork zero fuel m h = some (child, m', h') → Call ok m m'
  /-- either map of `vm_map_fork` that copies a shared projected buffer over an entry it has not
  made -/
  | forkShared {m m' : VmMap} {e : VmMapEntry} :
      ok m .fork → e ∈ m.entries → e.inheritance = .share → e.projectedOn ≠ .zero → Call ok m m'

inductive Step (ok : VmMap → Risk → Prop) : VmMap → VmMap → Prop
  | call {m m' : VmMap} : Call ok m m' → Step ok m m'
  | deleteResume {m m' : VmMap} {start end_ : ℕ} {stays : VmMapEntry → Bool} {waits : Bool} :
      ok m (.resume start end_ stays) → vmMapDeleteResume m start end_ stays = some (waits, m') →
      Step ok m m'
  /-- a cached pointer leads to a structure that has been freed -/
  | stray {m m' : VmMap} : ¬ CachesLinked m → Step ok m m'

inductive Reachable (ok : VmMap → Risk → Prop) : VmMap → Prop
  | create (min max : ℕ) : max < 2 ^ 32 → Reachable ok (vmMapCreate min max)
  | step {m m' : VmMap} : Reachable ok m → Step ok m m' → Reachable ok m'

end XMach.Vm
