import XMach.Vm.Fork

/-!
# Copying a range in

`vm_map_copyin` of any bytes, as `vm_read` calls it, with `src_destroy` false. It works through the
entries of the range one round at a time. Where a copy may block, the map is unlocked meanwhile;
`others` are the maps that are then found changed, one after the other, and when there are none left
nothing changes any more. What becomes of the objects is left to `Copying`, and no copy fails.
-/

namespace XMach.Vm

/-- What the copies of objects come to: which are made without blocking, whether source and copy are
copy-on-write then, and the object and offset of a copy that blocks. -/
structure Copying where
  temporary : MapObject → Bool
  srcNeedsCopy : MapObject → Bool
  newNeedsCopy : MapObject → Bool
  copied : VmMapEntry → MapObject × ℕ

structure CopyinCall where
  srcAddr : ℕ
  len : ℕ

def CopyinCall.srcStart (c : CopyinCall) : ℕ := truncPage c.srcAddr

def CopyinCall.srcEnd (c : CopyinCall) : ℕ := roundPage ((c.srcAddr + c.len) % 2 ^ 32)

/-- The entry `tmp_entry` is the first of `after`, and the header when there is none. -/
structure CopyinState where
  map : VmMap
  before : List VmMapEntry
  after : List VmMapEntry
  srcStart : ℕ
  copy : List VmMapEntry
  others : List VmMap

structure CopyinResult where
  kr : KernReturn
  copy : Option VmMapCopy
  map : VmMap

def Copying.blocks (o : Copying) (e : VmMapEntry) : Bool :=
  decide (e.wiredCount ≠ 0) || !o.temporary e.object

/-- The new entry for what is copied from `e`. -/
def Copying.newEntry (o : Copying) (e : VmMapEntry) : VmMapEntry :=
  if o.blocks e then
    { e.entryCopy 0 with
      object := (o.copied e).1
      offset := if e.wiredCount ≠ 0 then 0 else (o.copied e).2
      needsCopy := if e.wiredCount ≠ 0 then false else o.newNeedsCopy e.object }
  else { e.entryCopy 0 with needsCopy := o.newNeedsCopy e.object }

/-- `CopySuccessful`: the new entry is linked, and the next round is with the entry behind `src`. -/
def copySuccessful (c : CopyinCall) (copy : List VmMapEntry) (m : VmMap) (before : List VmMapEntry)
    (src : VmMapEntry) (rest : List VmMapEntry) (new : VmMapEntry) (others : List VmMap) :
    CopyinState ⊕ CopyinResult :=
  let copy := copy ++ [new]
  if c.srcEnd ≤ new.vmeEnd ∧ c.srcEnd ≠ 0 then .inr ⟨.success, some ⟨c.srcAddr, c.len, copy⟩, m⟩
  else
    let next := match rest with
      | [] => m.minOffset
      | next :: _ => next.vmeStart
    if next ≠ new.vmeEnd then .inr ⟨.invalidAddress, none, m⟩
    else .inl ⟨m, before ++ [src], rest, new.vmeEnd, copy, others⟩

/-- One round at `tmp_entry`. The code takes a submap for an object, and the header for an entry. -/
def copyinRound (o : Copying) (c : CopyinCall) (s : CopyinState) :
    Option (CopyinState ⊕ CopyinResult) :=
  match s.after with
  | [] => none
  | e :: rest =>
    if e.isSubMap then none
    else if e.protection &&& vmProtRead = 0 then some (.inr ⟨.protectionFailure, none, s.map⟩)
    else
      let m := s.map.clipEnd s.before e rest c.srcEnd
      let clip := e.clipEnd c.srcEnd s.map.hdr.zone
      let src := if c.srcEnd < e.vmeEnd then clip.1 else e
      let rest := if c.srcEnd < e.vmeEnd then clip.2 :: rest else rest
      let new := o.newEntry src
      if o.blocks src then
        match s.others with
        | [] => some (copySuccessful c s.copy m s.before src rest new [])
        | m :: others => do
          let (r, m) ← m.seek s.srcStart
          match r.found, r.after with
          | true, src' :: rest =>
            if src'.protection &&& vmProtRead = 0 ∨ src'.object ≠ src.object ∨
              src'.offset ≠ src.offset then
              -- `VerificationFailed`
              some (.inl { s with map := m, before := r.before, after := src' :: rest, others })
            else
              let new := if src'.vmeEnd < new.vmeEnd then { new with vmeEnd := src'.vmeEnd }
                else new
              some (copySuccessful c s.copy m r.before src' rest new others)
          | _, _ => some (.inr ⟨.invalidAddress, none, m⟩)
      else
        let src' := { src with needsCopy := src.needsCopy || o.srcNeedsCopy src.object }
        some (copySuccessful c s.copy { m with entries := s.before ++ src' :: rest } s.before src'
          rest new s.others)

/-- `vm_map_copyin` up to its loop. -/
def copyinStart (c : CopyinCall) (m : VmMap) (others : List VmMap) :
    Option (CopyinState ⊕ CopyinResult) :=
  if c.len = 0 then some (.inr ⟨.success, none, m⟩)
  else if c.srcEnd ≤ c.srcStart ∧ (c.srcEnd < c.srcStart ∨ c.srcStart ≠ 0) then
    some (.inr ⟨.invalidAddress, none, m⟩)
  else do
    let (r, m) ← m.seek c.srcStart
    if r.found then some (.inl ⟨m, r.before, r.after, c.srcStart, [], others⟩)
    else some (.inr ⟨.invalidAddress, none, m⟩)

/-- The loop for a number of rounds: where it is then, or what it has returned. -/
def copyinRun (o : Copying) (c : CopyinCall) : ℕ → CopyinState → Option (CopyinState ⊕ CopyinResult)
  | 0, s => some (.inl s)
  | n + 1, s => (copyinRound o c s).bind fun
    | .inl s => copyinRun o c n s
    | .inr r => some (.inr r)

/-- `vm_map_copyin`, with at most `n` rounds of its loop. -/
def vmMapCopyinBytes (o : Copying) (c : CopyinCall) (n : ℕ) (m : VmMap) (others : List VmMap) :
    Option (CopyinState ⊕ CopyinResult) :=
  (copyinStart c m others).bind fun
    | .inl s => copyinRun o c n s
    | .inr r => some (.inr r)

end XMach.Vm
