import XMach.Vm.Map

/-!
# Writing over mapped memory

`vm_map_copy_overwrite`, which `vm_write` and `vm_copy` rest on. Entries of temporary memory that is
not shared get the objects of the copy. For the others the map is unlocked and the pages are copied
by `vm_fault_copy`; the routine then goes on from where that has come to. It is cut up at these
moments, and where it waits for an entry in transition, after which it starts again.
-/

namespace XMach.Vm

/-- What the first pass comes to. -/
inductive Check
  | ok
  | waits
  | error (kr : KernReturn)
  deriving DecidableEq, Repr

/-- The first pass of `vm_map_copy_overwrite` over the destination, with the entries as it leaves
them. -/
def overwriteCheck : ℕ → List VmMapEntry → Check × List VmMapEntry
  | _, [] => (.error .invalidAddress, [])
  | size, e :: l =>
    if e.protection &&& vmProtWrite = 0 then (.error .protectionFailure, e :: l)
    else if e.inTransition then (.waits, { e with needsWakeup := true } :: l)
    else if size ≤ e.vmeEnd - e.vmeStart then (.ok, e :: l)
    else
      match l with
      | [] => (.error .invalidAddress, [e])
      | next :: rest =>
        if next.vmeStart ≠ e.vmeEnd then (.error .invalidAddress, e :: next :: rest)
        else
          let r := overwriteCheck (size - (e.vmeEnd - e.vmeStart)) (next :: rest)
          (r.1, e :: r.2)

/-- The destination is temporary memory that is not shared. `temporary` tells which objects are. -/
def VmMapEntry.replaceable (temporary : MapObject → Bool) (e : VmMapEntry) : Bool :=
  !e.isShared && (decide (e.object = .null) || temporary e.object)

/-- The entry gets the memory of an entry of the copy. -/
def VmMapEntry.install (e c : VmMapEntry) : VmMapEntry :=
  { e with
    object := c.object
    offset := c.offset
    needsCopy := c.needsCopy
    wiredCount := 0
    userWiredCount := 0 }

/-- How a stretch of the routine ends. -/
inductive Overwritten
  | done (kr : KernReturn)
  | waits
  /-- The map is unlocked to copy pages into the entry `entry`, which starts at `start`. -/
  | copies (start entry : ℕ) (copy : List VmMapEntry)

/-- `vm_map_copy_clip_end` to `size` bytes: the first entry of the copy, and what is behind it. -/
def copyClip (c : VmMapEntry) (size : ℕ) (copy : List VmMapEntry) : VmMapEntry × List VmMapEntry :=
  if size < c.vmeEnd - c.vmeStart then
    let k := c.clipEnd (c.vmeStart + size) c.ptr
    (k.1, k.2 :: copy)
  else (c, copy)

theorem copyClip_length (c : VmMapEntry) (size : ℕ) (copy : List VmMapEntry) :
    (copyClip c size copy).2.length ≤ copy.length + 1 := by
  unfold copyClip
  split_ifs <;> simp

/-- The second pass, which expects an entry at `start` for each entry of the copy. -/
def overwriteLoop (temporary : MapObject → Bool) :
    List VmMapEntry → ℕ → List VmMapEntry → Hdr → Overwritten × List VmMapEntry × Hdr
  | [], _, after, hdr => (.done .success, after, hdr)
  | _ :: _, _, [], hdr => (.done .invalidAddress, [], hdr)
  | c :: copy, start, e :: l, hdr =>
    if e.vmeStart ≠ start then (.done .invalidAddress, e :: l, hdr)
    else if e.protection &&& vmProtWrite = 0 then (.done .protectionFailure, e :: l, hdr)
    else if c.vmeEnd - c.vmeStart < e.vmeEnd - e.vmeStart then
      let k := e.clipEnd (e.vmeStart + (c.vmeEnd - c.vmeStart)) hdr.zone
      if e.replaceable temporary then
        let r := overwriteLoop temporary copy k.1.vmeEnd (k.2 :: l) hdr.link
        (r.1, k.1.install c :: r.2.1, r.2.2)
      else (.copies start k.1.ptr (c :: copy), k.1 :: k.2 :: l, hdr.link)
    else
      let k := copyClip c (e.vmeEnd - e.vmeStart) copy
      if e.replaceable temporary then
        let r := overwriteLoop temporary k.2 e.vmeEnd l hdr
        (r.1, e.install k.1 :: r.2.1, r.2.2)
      else (.copies start e.ptr (k.1 :: k.2), e :: l, hdr)
termination_by copy _ after => copy.length + after.length
decreasing_by
  · simp only [List.length_cons]
    omega
  · have := copyClip_length c (e.vmeEnd - e.vmeStart) copy
    simp only [List.length_cons]
    omega

/-- The second pass behind a position of the map. -/
def VmMap.overwriteFrom (m : VmMap) (temporary : MapObject → Bool) (copy : List VmMapEntry)
    (start : ℕ) (before after : List VmMapEntry) : Overwritten × VmMap :=
  let r := overwriteLoop temporary copy start after m.hdr
  (r.1, { m with entries := before ++ r.2.1, hdr := r.2.2 })

/-- `vm_map_copy_overwrite` until it is done, waits, or unlocks the map to copy pages. -/
def vmMapCopyOverwrite (m : VmMap) (dstAddr : ℕ) (copy : VmMapCopy) (temporary : MapObject → Bool) :
    Option (Overwritten × VmMap) :=
  if copy.offset % pageSize ≠ 0 ∨ copy.size % pageSize ≠ 0 ∨ dstAddr % pageSize ≠ 0 then
    some (.done .invalidArgument, m)
  else if copy.size = 0 then some (.done .success, m)
  else do
    let (r, m) ← m.seek dstAddr
    if r.found then
      let k := overwriteCheck copy.size r.after
      match k.1 with
      | .error kr => some (.done kr, m)
      | .waits => some (.waits, { m with entries := r.before ++ k.2 })
      | .ok => some (m.overwriteFrom temporary copy.entries dstAddr r.before r.after)
    else some (.done .invalidAddress, m)

/-- What `size` has come down to when the first pass stops. -/
def overwriteLeft : ℕ → List VmMapEntry → ℕ
  | size, [] => size
  | size, e :: l =>
    if e.protection &&& vmProtWrite = 0 ∨ e.inTransition ∨ size ≤ e.vmeEnd - e.vmeStart then size
    else
      match l with
      | [] => size
      | next :: rest =>
        if next.vmeStart ≠ e.vmeEnd then size else overwriteLeft (size - (e.vmeEnd - e.vmeStart))
        (next :: rest)

/-- How an attempt at the first pass ends. -/
inductive Pass
  | returns (kr : KernReturn) (m : VmMap)
  | waits (m : VmMap) (size : ℕ)
  | passes (m : VmMap) (before after : List VmMapEntry)

/-- The first pass from `start_pass_1` on. -/
def overwriteAttempt (dstAddr size : ℕ) (m : VmMap) : Option Pass := do
  let (r, m) ← m.seek dstAddr
  if r.found then
    let k := overwriteCheck size r.after
    match k.1 with
    | .error kr => some (.returns kr m)
    | .waits => some (.waits { m with entries := r.before ++ k.2 } (overwriteLeft size r.after))
    | .ok => some (.passes m r.before r.after)
  else some (.returns .invalidAddress m)

/-- The first pass with its waits. `maps` is what the map is found to be after each of them; `size`
is not set again. -/
def overwritePass (dstAddr : ℕ) : ℕ → VmMap → List VmMap → Option Pass
  | size, m, [] => overwriteAttempt dstAddr size m
  | size, m, m' :: maps =>
    (overwriteAttempt dstAddr size m).bind fun
      | .waits _ left => overwritePass dstAddr left m' maps
      | p => some p

/-- `vm_map_copy_overwrite` with the waits of its first pass, until it is done, waits once more, or
unlocks the map to copy pages. -/
def vmMapCopyOverwriteWaiting (m : VmMap) (maps : List VmMap) (dstAddr : ℕ) (copy : VmMapCopy)
    (temporary : MapObject → Bool) : Option (Overwritten × VmMap) :=
  if copy.offset % pageSize ≠ 0 ∨ copy.size % pageSize ≠ 0 ∨ dstAddr % pageSize ≠ 0 then
    some (.done .invalidArgument, m)
  else if copy.size = 0 then some (.done .success, m)
  else
    (overwritePass dstAddr copy.size m maps).map fun
      | .returns kr m => (.done kr, m)
      | .waits m _ => (.waits, m)
      | .passes m before after => m.overwriteFrom temporary copy.entries dstAddr before after

/-- What is left of the copy when `copySize` bytes of its first entry have been copied. -/
def copyRest (copySize : ℕ) : List VmMapEntry → List VmMapEntry
  | [] => []
  | c :: copy => if copySize = 0 then c :: copy else (copyClip c copySize copy).2

/-- `vm_map_copy_overwrite` once it has the lock again and finds the map as it was: it goes on
behind the entry that it has copied into, up to where that was. -/
def overwriteNext (m : VmMap) (entry start copySize : ℕ) (copy : List VmMapEntry)
    (temporary : MapObject → Bool) : Option (Overwritten × VmMap) := do
  let (before, after) ← cut entry m.entries
  match after with
  | [] => none
  | e :: rest =>
    let m := m.clipEnd before e rest (start + copySize)
    some (m.overwriteFrom temporary (copyRest copySize copy) (start + copySize)
      (m.entries.take (before.length + 1)) (m.entries.drop (before.length + 1)))

/-- `vm_map_copy_overwrite` once it has the lock again and finds that the map has changed. -/
def overwriteResume (m : VmMap) (start copySize : ℕ) (copy : List VmMapEntry)
    (temporary : MapObject → Bool) : Option (Overwritten × VmMap) := do
  let (r, m) ← m.seek (start + copySize)
  if r.found then
    some (m.overwriteFrom temporary (copyRest copySize copy) (start + copySize) r.before r.after)
  else some (.done .invalidAddress, m)

end XMach.Vm
