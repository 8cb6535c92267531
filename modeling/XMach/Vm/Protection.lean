import XMach.Vm.Overwrite
import XMach.Vm.Run
import XMach.Vm.User

/-!
# What tasks do to their maps

`UserStep` is what a task does to a map by a call: it allocates, maps, protects, sends and receives
memory, writes over it or forks. A call that unlocks the map is several steps, between which others
may come. With `careful` the calls keep to two conditions: `vm_map` does not map with a protection
beyond its maximum, and `vm_protect` does not put `VM_PROT_NOTIFY` into a maximum that is without
it.
-/

namespace XMach.Vm

/-- The entry has an address of the range. -/
def VmMapEntry.Meets (e : VmMapEntry) (start end_ : ℕ) : Prop :=
  max e.vmeStart start < min e.vmeEnd end_

inductive UserStep (careful : Bool) : VmMap → VmMap → Prop
  | allocate {m m' : VmMap} {address size : ℕ} {anywhere grows : Bool} {reply : Reply} :
      vmAllocate m address size anywhere grows = some (reply, m') → UserStep careful m m'
  | map {m m' : VmMap} {address size mask inheritance : ℕ} {anywhere grows : Bool}
      {source : MapSource} {curProtection maxProtection : VmProt} {reply : Reply} :
      (careful = true → ∀ x, reply = .success x → curProtection &&& ~~~maxProtection = 0) →
      vmMap m address size mask anywhere source curProtection maxProtection inheritance grows =
      some (reply, m') → UserStep careful m m'
  | protect {m m' : VmMap} {kernelMap setMaximum : Bool} {start size : ℕ} {newProtection : VmProt}
      {kr : KernReturn} :
      (careful = true → setMaximum = true → kr = .success → ∀ e ∈ m.entries,
        e.Meets (m.rangeCheck (truncPage start) (rangeEnd start size)).1
          (m.rangeCheck (truncPage start) (rangeEnd start size)).2 →
        newProtection &&& vmProtNotify &&& ~~~e.maxProtection = 0) →
      vmProtect kernelMap m start size setMaximum newProtection = some (kr, m') →
      UserStep careful m m'
  | inherit {m m' : VmMap} {kernelMap : Bool} {start size newInheritance : ℕ} {kr : KernReturn} :
      vmInherit kernelMap m start size newInheritance = some (kr, m') → UserStep careful m m'
  | deallocate {m m' : VmMap} {start size : ℕ} {stays : VmMapEntry → Bool} {waits : Bool} :
      vmDeallocate m start size stays = some (waits, m') → UserStep careful m m'
  | deallocateResume {m m' : VmMap} {start size : ℕ} {stays : VmMapEntry → Bool} {waits : Bool} :
      vmDeallocateResume m start size stays = some (waits, m') → UserStep careful m m'
  /-- `vm_read`, the first half of `vm_copy`, and memory that is sent -/
  | copyin {V : Type} {m m' : VmMap} {zero : V} {h h' : Objects V} {start len : ℕ}
      {copy : Option VmMapCopy} :
      vmMapCopyin zero m h start len = some (copy, m', h') → UserStep careful m m'
  /-- `vm_write`, and the second half of `vm_copy` -/
  | overwrite {m m' : VmMap} {dstAddr : ℕ} {copy : VmMapCopy} {temporary : MapObject → Bool}
      {r : Overwritten} :
      vmMapCopyOverwrite m dstAddr copy temporary = some (r, m') → UserStep careful m m'
  /-- pages have been copied into an entry that nothing has happened to meanwhile -/
  | overwriteNext {m m' : VmMap} {before rest : List VmMapEntry} {e : VmMapEntry}
      {start copySize : ℕ}
      {copy : List VmMapEntry} {temporary : MapObject → Bool} {r : Overwritten} :
      cut e.ptr m.entries = some (before, e :: rest) → e.vmeStart = start →
      start + copySize ≤ e.vmeEnd →
      overwriteNext m e.ptr start copySize copy temporary = some (r, m') → UserStep careful m m'
  | overwriteResume {m m' : VmMap} {start copySize : ℕ} {copy : List VmMapEntry}
      {temporary : MapObject → Bool} {r : Overwritten} :
      overwriteResume m start copySize copy temporary = some (r, m') → UserStep careful m m'
  /-- memory that is received -/
  | copyout {m m' : VmMap} {copy : VmMapCopy} {reply : Reply} :
      copy.Valid → vmMapCopyout m copy = some (reply, m') → UserStep careful m m'
  | copyoutObject {m m' : VmMap} {object : MapObject} {offset size : ℕ} {grows : Bool}
      {reply : Reply} :
      size < 2 ^ 32 → vmMapCopyoutObject m object offset size grows = some (reply, m') →
      UserStep careful m m'
  | copyoutPageListPlace {m m' : VmMap} {size newObject : ℕ} {sole : Bool} {reply : Reply} :
      size < 2 ^ 32 → copyoutPageListPlace m size newObject sole = some (reply, m') →
      UserStep careful m m'
  | copyoutPageListAtOnce {m : VmMap} {last : ℕ} :
      UserStep careful m { m with entries := clearMark last m.entries }
  | copyoutPageListDone {m m' : VmMap} {start end_ : ℕ} {ok waits : Bool}
      {stays : VmMapEntry → Bool} :
      copyoutPageListDone m start end_ ok stays = some (waits, m') → UserStep careful m m'
  | clipStart {m : VmMap} {before after : List VmMapEntry} {e : VmMapEntry} {start : ℕ} :
      m.entries = before ++ e :: after → start < e.vmeEnd →
      UserStep careful m (m.clipStart before e after start)
  | clipEnd {m : VmMap} {before after : List VmMapEntry} {e : VmMapEntry} {end_ : ℕ} :
      m.entries = before ++ e :: after → e.vmeStart < end_ →
      UserStep careful m (m.clipEnd before e after end_)
  | simplify {m m' : VmMap} {start : ℕ} : vmMapSimplify m start = some m' → UserStep careful m m'
  /-- the old map of `vm_map_fork` -/
  | fork {V : Type} {m m' child : VmMap} {zero : V} {fuel : ℕ} {h h' : Objects V} :
      vmMapFork zero fuel m h = some (child, m', h') → UserStep careful m m'

/-- The maps that tasks come to have, from empty ones and by forking. -/
inductive UserMap (careful : Bool) : VmMap → Prop
  | create (min max : ℕ) : max < 2 ^ 32 → UserMap careful (vmMapCreate min max)
  | step {m m' : VmMap} : UserMap careful m → UserStep careful m m' → UserMap careful m'
  | fork {V : Type} {m m' child : VmMap} {zero : V} {fuel : ℕ} {h h' : Objects V} :
      UserMap careful m → vmMapFork zero fuel m h = some (child, m', h') → UserMap careful child

end XMach.Vm
