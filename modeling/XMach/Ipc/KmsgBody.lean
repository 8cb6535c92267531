import XMach.Mach.Message

/-!
# The body of a message being sent

`ipc_kmsg_copyin_body` walks the type descriptors of a message and replaces port names by rights and
out-of-line addresses by kernel memory. The model reads and writes kernel memory without bounds, as
the C code does: an access past the end of the message is a legal access here, at an address outside
the body. The loop also returns one `Item` for each descriptor that passes the type checks, with the
addresses of the port slots that were read or written for it.

The rest of the kernel is a `BodyKernel`: its state changes at each call, so that the outcomes of
`ipc_object_copyin`, of the memory allocations and of the copies from the sender's map are
arbitrary. Pointers and names are 32 bits, so the alignment of long-form descriptors and of pointers
(`sizeof(natural_t) > sizeof(mach_msg_type_t)`) never does anything.
-/

namespace XMach.Ipc

/-- What `ipc_kmsg_copyin_body` and the cleaning of a message call. -/
structure BodyKernel (σ : Type*) where
  /-- The right for a name, or `none` for an error code. -/
  ipcObjectCopyin : σ → Word → Nat → Option Word × σ
  ipcPortCheckCircularity : σ → Word → Word → Bool × σ
  ipcObjectDestroy : σ → Word → Nat → σ
  /-- Zero when there is no memory. -/
  kalloc : σ → Nat → Word × σ
  kfree : σ → Word → Nat → σ
  /-- The words read at the sender's address, by their offset, or `none` for a fault. -/
  copyinmap : σ → Word → Nat → Option (Nat → Word) × σ
  /-- Whether `vm_deallocate` succeeds. -/
  vmDeallocate : σ → Word → Nat → Bool × σ
  vmMapCopyin : σ → Word → Nat → Bool → Option Word × σ
  vmMapCopyinPageList : σ → Word → Nat → Bool → Bool → Option Word × σ
  vmMapCopyDiscard : σ → Word → σ

/-- The parts of a message that the copying does not change: where its header is, its size, its
ports, and what `ip_kotype` of the destination says about page lists. -/
structure Kmsg where
  ikmHeader : Nat
  msghSize : Nat
  msghRemotePort : Word
  msghLocalPort : Word
  usePageLists : Bool
  stealPages : Bool

/-- `sizeof(mach_msg_header_t)`. -/
def msgHeaderSize : Nat := 24

/-- The first address of the body, and the first one after the message. -/
def Kmsg.saddr (kmsg : Kmsg) : Nat := kmsg.ikmHeader + msgHeaderSize
def Kmsg.eaddr (kmsg : Kmsg) : Nat := kmsg.ikmHeader + kmsg.msghSize

structure BodyState (σ : Type*) where
  mem : Nat → Word
  kern : σ
  msghBits : Word

variable {σ : Type*}

/-- `* (addr) = w`. -/
def BodyState.store (s : BodyState σ) (addr : Nat) (w : Word) : BodyState σ :=
  { s with mem := fun a => if a = addr then w else s.mem a }

/-- A type descriptor and the address after it. -/
structure TypeSpec where
  header : MsgTypeHeader
  name : Nat
  size : Nat
  number : Nat
  saddr : Nat

def readType (mem : Nat → Word) (saddr : Nat) : TypeSpec :=
  let header := MsgTypeHeader.ofWord (mem saddr)
  if header.msgtLongform then
    ⟨header, ((mem (saddr + 4)).extractLsb' 0 16).toNat,
      ((mem (saddr + 4)).extractLsb' 16 16).toNat, (mem (saddr + 8)).toNat, saddr + 12⟩
  else ⟨header, header.msgtName, header.msgtSize, header.msgtNumber, saddr + 4⟩

/-- `((number * size) + 7) >> 3`, in unsigned 32-bit arithmetic. -/
def byteLength (number size : Nat) : Nat := (number * size + 7) % 4294967296 / 8

/-- In-line data sizes round up to int boundaries: `(length + 3) &~ 3`. -/
def roundWord (length : Nat) : Nat := (length + 3) / 4 * 4

/-- `ipc_object_copyin_type`, on the types that pass `MACH_MSG_TYPE_PORT_ANY`. -/
def ipcObjectCopyinType (name : Nat) : Nat :=
  if name = MachMsgType.moveReceive then MachMsgType.portReceive
  else if name = MachMsgType.moveSendOnce ∨ name = MachMsgType.makeSendOnce then
    MachMsgType.portSendOnce
  else if name = MachMsgType.moveSend ∨ name = MachMsgType.makeSend ∨
      name = MachMsgType.copySend then MachMsgType.portSend
  else 0

section Clean

variable (K : BodyKernel σ)

/-- The loop that destroys the rights `objects[0..number)`. -/
def destroyPorts (mem : Nat → Word) (objects name : Nat) : Nat → Nat → σ → σ
  | 0, _, k => k
  | n + 1, i, k =>
    let object := mem (objects + 4 * i)
    destroyPorts mem objects name n (i + 1)
      (if validWord object then K.ipcObjectDestroy k object name else k)

/-- `while (eaddr < (vm_offset_t)&objects[number]) number--`; `&objects[number]` has no width
here, where the source's pointer can wrap. -/
def clampNumber (eaddr objects : Nat) : Nat → Nat
  | 0 => 0
  | n + 1 => if eaddr < objects + 4 * (n + 1) then clampNumber eaddr objects n else n + 1

/-- The out-of-line memory of one item. -/
def discardData (k : σ) (isPort : Bool) (data : Word) (length : Nat) : σ :=
  if length = 0 then k
  else if isPort then K.kfree k data length
  else K.vmMapCopyDiscard k data

/-- One pass of `ipc_kmsg_clean_body`: the address after the item, and the kernel's state. -/
def cleanItem (mem : Nat → Word) (eaddr saddr : Nat) (k : σ) : Nat × σ :=
  let type := readType mem saddr
  let length := byteLength type.number type.size
  let isPort := MachMsgType.portAny type.name
  let k :=
    if isPort then
      if type.header.msgtInline then
        destroyPorts K mem type.saddr type.name (clampNumber eaddr type.saddr type.number) 0 k
      else destroyPorts K mem (mem type.saddr).toNat type.name type.number 0 k
    else k
  if type.header.msgtInline then (type.saddr + roundWord length, k)
  else (type.saddr + 4, discardData K k isPort (mem type.saddr) length)

theorem readType_saddr (mem : Nat → Word) (saddr : Nat) :
    saddr + 4 ≤ (readType mem saddr).saddr := by
  simp only [readType]
  split <;> simp

theorem cleanItem_advances (mem : Nat → Word) (eaddr saddr : Nat) (k : σ) :
    saddr < (cleanItem K mem eaddr saddr k).1 := by
  have h := readType_saddr mem saddr
  unfold cleanItem
  simp only
  split <;> simp only <;> omega

/-- `ipc_kmsg_clean_body`. -/
def ipcKmsgCleanBody (mem : Nat → Word) (saddr eaddr : Nat) (k : σ) : σ :=
  if saddr < eaddr then
    have := cleanItem_advances K mem eaddr saddr k
    ipcKmsgCleanBody mem (cleanItem K mem eaddr saddr k).1 eaddr (cleanItem K mem eaddr saddr k).2
  else k
termination_by eaddr - saddr

/-- `ipc_kmsg_clean_partial`. -/
def ipcKmsgCleanPartial (kmsg : Kmsg) (s : BodyState σ) (eaddr : Nat) (dolast : Bool)
    (number : Nat) : BodyState σ :=
  let k := K.ipcObjectDestroy s.kern kmsg.msghRemotePort (msghBitsRemote s.msghBits)
  let k :=
    if validWord kmsg.msghLocalPort then
      K.ipcObjectDestroy k kmsg.msghLocalPort (msghBitsLocal s.msghBits)
    else k
  let k := ipcKmsgCleanBody K s.mem kmsg.saddr eaddr k
  if dolast then
    let type := readType s.mem eaddr
    let isPort := MachMsgType.portAny type.name
    let objects := if type.header.msgtInline then type.saddr else (s.mem type.saddr).toNat
    let k := if isPort then destroyPorts K s.mem objects type.name number 0 k else k
    let k :=
      if type.header.msgtInline then k
      else discardData K k isPort (s.mem type.saddr) (byteLength type.number type.size)
    { s with kern := k }
  else { s with kern := k }

end Clean

section Copyin

variable (K : BodyKernel σ)

/-- What the port loop of an item leaves: the slots it touched, the index at which a right could not
be copied in, and the state. -/
structure PortLoop (σ : Type*) where
  slots : List Nat
  failed : Option Nat
  st : BodyState σ

/-- The loop over `objects[i..i + n)`: a slot is read, and written when a right was copied in. -/
def copyinPorts (dest : Word) (name objects : Nat) : Nat → Nat → BodyState σ → PortLoop σ
  | 0, _, s => ⟨[], none, s⟩
  | n + 1, i, s =>
    let slot := objects + 4 * i
    let port := s.mem slot
    if validWord port then
      match K.ipcObjectCopyin s.kern port name with
      | (none, k) => ⟨[slot], some i, { s with kern := k }⟩
      | (some object, k) =>
        let s := { s with kern := k }
        let s :=
          if ipcObjectCopyinType name = MachMsgType.portReceive then
            match K.ipcPortCheckCircularity s.kern object dest with
            | (true, k) => { s with kern := k, msghBits := s.msghBits ||| msghBitsCircular }
            | (false, k) => { s with kern := k }
          else s
        let rest := copyinPorts dest name objects n (i + 1) (s.store slot object)
        ⟨slot :: rest.slots, rest.failed, rest.st⟩
    else
      let rest := copyinPorts dest name objects n (i + 1) s
      ⟨slot :: rest.slots, rest.failed, rest.st⟩

/-- A descriptor that passed the type checks. `room` is what is left of the message after it;
`taken` says that its data was accepted, `base` and `limit` bound the memory its port slots must
lie in: the message body for in-line data, the allocated buffer for out-of-line data. -/
structure Item where
  isInline : Bool
  isPort : Bool
  number : Nat
  size : Nat
  room : Nat
  length : Nat
  taken : Bool
  base : Nat
  limit : Nat
  slots : List Nat

/-- How a pass of the loop ends. -/
inductive Pass (σ : Type*)
  | stop (code : MachMsgReturn) (st : BodyState σ)
  | next (saddr : Nat) (complex : Bool) (st : BodyState σ)

/-- Grabbing out-of-line data that is not empty: its kernel address, or `none` for
`invalid_memory`. -/
def grabOutOfLine (kmsg : Kmsg) (isPort dealloc : Bool) (addr : Word) (length : Nat)
    (s : BodyState σ) : Option Word × BodyState σ :=
  if isPort then
    match K.kalloc s.kern length with
    | (data, k) =>
      if data = 0 then (none, { s with kern := k })
      else
        match K.copyinmap k addr length with
        | (none, k) => (none, { s with kern := K.kfree k data length })
        | (some words, k) =>
          let s := { s with
            mem := fun a =>
              if data.toNat ≤ a ∧ a < data.toNat + length then words (a - data.toNat) else s.mem a }
          if dealloc then
            match K.vmDeallocate k addr length with
            | (true, k) => (some data, { s with kern := k })
            | (false, k) => (none, { s with kern := K.kfree k data length })
          else (some data, { s with kern := k })
  else if kmsg.usePageLists then
    match K.vmMapCopyinPageList s.kern addr length dealloc kmsg.stealPages with
    | (copy, k) => (copy, { s with kern := k })
  else
    match K.vmMapCopyin s.kern addr length dealloc with
    | (copy, k) => (copy, { s with kern := k })

/-- `type->msgtl_name = newname`, or the short form's `msgt_name`. -/
def storeTypeName (s : BodyState σ) (taddr : Nat) (longform : Bool) (newname : Nat) :
    BodyState σ :=
  if longform then
    s.store (taddr + 4)
      ((s.mem (taddr + 4) &&& 0xffff0000) ||| BitVec.ofNat 32 (newname % 65536))
  else s.store taddr ((s.mem taddr &&& 0xffffff00) ||| BitVec.ofNat 32 (newname % 256))

/-- The port part of a pass, for an item whose data is at `objects`. -/
def copyinItemPorts (kmsg : Kmsg) (taddr : Nat) (type : TypeSpec) (objects saddr : Nat)
    (complex : Bool) (s : BodyState σ) : List Nat × Pass σ :=
  if MachMsgType.portAny type.name then
    let s := storeTypeName s taddr type.header.msgtLongform (ipcObjectCopyinType type.name)
    let loop := copyinPorts K kmsg.msghRemotePort type.name objects type.number 0 s
    match loop.failed with
    | some i => (loop.slots,
        .stop .sendInvalidRight (ipcKmsgCleanPartial K kmsg loop.st taddr true i))
    | none => (loop.slots, .next saddr true loop.st)
  else ([], .next saddr complex s)

/-- The type checks that end with `MACH_SEND_INVALID_TYPE`. -/
def invalidType (type : TypeSpec) : Bool :=
  (MachMsgType.portAny type.name && type.size ≠ 32) ||
    (type.header.msgtLongform && (type.header.msgtName ≠ 0 || type.header.msgtSize ≠ 0 ||
      type.header.msgtNumber ≠ 0)) ||
    type.header.msgtUnused || (type.header.msgtDeallocate && type.header.msgtInline)

/-- One pass of the loop of `ipc_kmsg_copyin_body`, at a descriptor that starts at `taddr`. -/
def copyinItem (kmsg : Kmsg) (taddr : Nat) (complex : Bool) (s : BodyState σ) :
    Option Item × Pass σ :=
  let eaddr := kmsg.eaddr
  let bad (code : MachMsgReturn) (s : BodyState σ) : Pass σ :=
    .stop code (ipcKmsgCleanPartial K kmsg s taddr false 0)
  if eaddr - taddr < 4 ∨
      ((MsgTypeHeader.ofWord (s.mem taddr)).msgtLongform ∧ eaddr - taddr < 12) then
    (none, bad .sendMsgTooSmall s)
  else
    let type := readType s.mem taddr
    if invalidType type then (none, bad .sendInvalidType s)
    else
      let isPort := MachMsgType.portAny type.name
      let length := byteLength type.number type.size
      let room := eaddr - type.saddr
      let item (taken : Bool) (base limit : Nat) (slots : List Nat) : Item :=
        ⟨type.header.msgtInline, isPort, type.number, type.size, room, length, taken, base, limit,
          slots⟩
      if type.header.msgtInline then
        let amount := roundWord length
        if room < amount then (some (item false 0 0 []), bad .sendMsgTooSmall s)
        else
          let ports := copyinItemPorts K kmsg taddr type type.saddr (type.saddr + amount) complex s
          (some (item true kmsg.saddr eaddr ports.1), ports.2)
      else if room < 4 then (some (item false 0 0 []), bad .sendMsgTooSmall s)
      else
        match (if length = 0 then (some 0, s)
          else grabOutOfLine K kmsg isPort type.header.msgtDeallocate (s.mem type.saddr) length s)
          with
        | (none, s) => (some (item false 0 0 []), bad .sendInvalidMemory s)
        | (some data, s) =>
          let ports := copyinItemPorts K kmsg taddr type data.toNat (type.saddr + 4) true
            (s.store type.saddr data)
          (some (item true data.toNat (data.toNat + length) ports.1), ports.2)

/-- The state when the body has been walked: what is returned, the state, and the items that passed
the type checks, in order. -/
structure BodyOutcome (σ : Type*) where
  code : MachMsgReturn
  st : BodyState σ
  items : List Item

theorem copyinItemPorts_next {kmsg : Kmsg} {taddr : Nat} {type : TypeSpec} {objects saddr : Nat}
    {complex complex' : Bool} {s s' : BodyState σ} {saddr' : Nat}
    (h : (copyinItemPorts K kmsg taddr type objects saddr complex s).2 = .next saddr' complex' s') :
    saddr' = saddr := by
  simp only [copyinItemPorts] at h
  split at h
  · split at h
    · simp at h
    · simp only [Pass.next.injEq] at h
      exact h.1.symm
  · simp only [Pass.next.injEq] at h
    exact h.1.symm

theorem copyinItem_advances {kmsg : Kmsg} {taddr saddr : Nat} {complex complex' : Bool}
    {s s' : BodyState σ} (h : (copyinItem K kmsg taddr complex s).2 = .next saddr complex' s') :
    taddr < saddr := by
  have hsaddr := readType_saddr s.mem taddr
  simp only [copyinItem] at h
  split at h
  · simp at h
  · split at h
    · simp at h
    · split at h
      · split at h
        · simp at h
        · have := copyinItemPorts_next K h
          omega
      · split at h
        · simp at h
        · split at h
          · simp at h
          · have := copyinItemPorts_next K h
            omega

/-- The loop of `ipc_kmsg_copyin_body`, and the clearing of the complex bit after it. -/
def copyinBodyLoop (kmsg : Kmsg) (saddr : Nat) (complex : Bool) (s : BodyState σ) :
    BodyOutcome σ :=
  if saddr < kmsg.eaddr then
    let item := (copyinItem K kmsg saddr complex s).1
    match h : (copyinItem K kmsg saddr complex s).2 with
    | .stop code s => ⟨code, s, item.toList⟩
    | .next saddr' complex s' =>
      have := copyinItem_advances K h
      let rest := copyinBodyLoop kmsg saddr' complex s'
      { rest with items := item.toList ++ rest.items }
  else
    ⟨.success, if complex then s else { s with msghBits := s.msghBits &&& ~~~ msghBitsComplex }, []⟩
termination_by kmsg.eaddr - saddr

/-- `ipc_kmsg_copyin_body`. -/
def ipcKmsgCopyinBody (kmsg : Kmsg) (s : BodyState σ) : BodyOutcome σ :=
  copyinBodyLoop K kmsg kmsg.saddr false s

end Copyin

end XMach.Ipc
