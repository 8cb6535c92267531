import XMach.Lib.Bytes
import XMach.Lib.Machine

/-!
# Data in the reply to a system call

The server puts what it has to copy to the user into the reply message (`user_reply_msg.c`, with
typed messages), and the emulator copies it from there (`emul_generic.c`). The message is bytes: a
`struct bsd_reply` of 44 bytes, and then descriptors of 20 bytes, each with the data or with the
address of memory out of line. Addresses and sizes have 32 bits; a page has 4096 bytes. The kernel
moves the pages that are out of line to the client; the client sees them at the same address here.
The message is aligned in both tasks.

The result of `vm_allocate` is given with the step in which it may be called. `strayed` and
`misfreed` say that the server has written outside of what was reserved, and that it has deallocated
a page that it does not own; no step reads them.
-/

namespace XMach.ReplyMsg

open Bytes

/-- `sizeof(struct bsd_reply)` -/
def sizeofBsdReply : ℕ := 44

/-- `sizeof(struct data_desc)` -/
def sizeofDataDesc : ℕ := 24

/-- `BSD_REP_SIZE_MAX`, with at most 32 descriptors -/
def bsdRepSizeMax : ℕ := 8192 - sizeofBsdReply - 32 * sizeofDataDesc

/-- The first word of `data_type_inline`: `msgt_inline` and `msgt_longform`. -/
def dataTypeInline : ℕ := 0x30000000

/-- The first word of `data_type_ooline`: `msgt_longform` and `msgt_deallocate`. -/
def dataTypeOoline : ℕ := 0x60000000

/-- `MACH_MSG_TYPE_CHAR` and 8 bits -/
def dataTypeChar : ℕ := 0x00080008

/-- `addr_type`: one `MACH_MSG_TYPE_INTEGER_T` of 32 bits, inline -/
def addrType : ℕ := 0x10012002

def msgtInline (type : ℕ) : Bool := type / 0x10000000 % 2 = 1
def msgtLongform (type : ℕ) : Bool := type / 0x20000000 % 2 = 1
def msgtNumber (type : ℕ) : ℕ := type / 0x10000 % 0x1000

def roundPage (n : ℕ) : ℕ := (n + 4095) % 0x100000000 / 4096 * 4096

/-- The pages in which some bytes lie. -/
def pagesOf (addr size : ℕ) : List ℕ :=
  if size = 0 then [] else List.range' (addr / 4096) ((addr + size + 4095) / 4096 - addr / 4096)

/-- The writes of `bcopy` to the user. -/
def userWrites : ℕ → List Byte → List (ℕ × Byte)
  | _, [] => []
  | addr, b :: bs => (addr % 0x100000000, b) :: userWrites (addr + 1) bs

/-- The result of `vm_allocate`. If it fails, the address is what was in the variable. -/
inductive Alloc
  | success (addr : BitVec 32)
  | failure (addr : BitVec 32)

structure State where
  /-- the reply message -/
  msg : ℕ → Byte
  /-- `msgh_size` -/
  size : ℕ
  complex : Bool
  /-- `k_current_size` -/
  current : ℕ
  mem : ℕ → Byte
  /-- the pages out of line that the server owns for the reply -/
  live : ℕ → Bool
  strayed : Bool
  misfreed : Bool

namespace State

variable (s : State)

def vmAllocate (size : ℕ) : Alloc → State × ℕ
  | .success addr => ({ s with live := fun p => s.live p || (pagesOf addr.toNat size).contains p },
      addr.toNat)
  | .failure addr => (s, addr.toNat)

def vmDeallocate (addr size : ℕ) : State :=
  { s with
    live := fun p => s.live p && !(pagesOf addr size).contains p
    misfreed := s.misfreed || (pagesOf addr size).any fun p => !s.live p }

/-- The fields of the descriptor at the end of the message. -/
def ddAddr : ℕ := get32 s.msg (s.size + 4)
def ddInline : Bool := msgtInline (get32 s.msg (s.size + 8))
def ddNumber : ℕ := get32 s.msg (s.size + 16)
def ddData : ℕ := get32 s.msg (s.size + 20)

def incrMsgSize (n : ℕ) : State :=
  { s with size := (s.size + (n + 3) % 0x100000000 / 4 * 4 + (sizeofDataDesc - 4)) % 0x100000000 }

def finishDataDesc : State :=
  let number := s.ddNumber
  if s.ddInline then
    { (if number > 0 then s.incrMsgSize number else s) with current := 0 }
  else
    let used := roundPage number
    let t :=
      if used < s.current then s.vmDeallocate ((s.ddData + used) % 0x100000000) (s.current - used)
      else s
    { (if number > 0 then { t.incrMsgSize 4 with complex := true } else t) with current := 0 }

def finishReplyMsg : State := if s.current ≠ 0 then s.finishDataDesc else s

/-- `set_desc_and_addr`, the address and `data_type` of a new descriptor -/
def setDesc (userAddr type number : ℕ) : State :=
  { s with
    msg :=
      put32 (put32 (put32 (put32 (put32 s.msg s.size addrType) (s.size + 4) userAddr)
        (s.size + 8) type) (s.size + 12) dataTypeChar) (s.size + 16) number }

def setData (data : ℕ) : State := { s with msg := put32 s.msg (s.size + 20) data }

end State

/-- An address in the server: in the message, or elsewhere. -/
inductive Place
  | msg (offset : ℕ)
  | mem (addr : ℕ)

namespace State

variable (s : State)

/-- The descriptor at the end of the message can be used for more data. -/
def reuses (userAddr size : ℕ) : Bool :=
  s.current ≠ 0 ∧ userAddr = (s.ddAddr + s.ddNumber) % 0x100000000 ∧
    (s.ddNumber + size) % 0x100000000 ≤ s.current

/-- The data must be out of line. -/
def outOfLine (size : ℕ) : Bool := (s.size + size) % 0x100000000 > bsdRepSizeMax

/-- A new descriptor; `none` is a panic. -/
def newDesc (userAddr size totalSize : ℕ) (alloc : Alloc) : Option (State × Place) :=
  if (s.size + sizeofDataDesc) % 0x100000000 > 8192 then none
  else if s.outOfLine size then
    let (t, addr) := s.vmAllocate totalSize alloc
    some ({ (t.setDesc userAddr dataTypeOoline 0).setData addr with current := totalSize },
      .mem addr)
  else some ({ s.setDesc userAddr dataTypeInline 0 with current := size }, .msg (s.size + 20))

def extendReplyMsg (userAddr size totalSize : ℕ) (alloc : Alloc) : Option (State × Place) :=
  if size = 0 then some (s, .mem 0)
  else if s.reuses userAddr size then
    some (s, if s.ddInline then .msg (s.size + 20 + s.ddNumber)
      else .mem ((s.ddData + s.ddNumber) % 0x100000000))
  else s.finishReplyMsg.newDesc userAddr size totalSize alloc

def extendCurrentOutput (size : ℕ) : State :=
  if size ≠ 0 then { s with msg := put32 s.msg (s.size + 16) ((s.ddNumber + size) % 0x100000000) }
  else s

/-- A string of bytes lies inside of what is reserved for the descriptor at the end of the
message. -/
def inside (n : ℕ) : Place → Bool
  | .msg offset => s.size + 20 ≤ offset ∧ offset + n ≤ s.size + 20 + s.current ∧ offset + n ≤ 8192
  | .mem addr => s.ddData ≤ addr ∧ addr + n ≤ s.ddData + s.current ∧ (pagesOf addr n).all s.live

def bcopy (bs : List Byte) (place : Place) : State :=
  let strayed := s.strayed || (!bs.isEmpty && !s.inside bs.length place)
  match place with
  | .msg offset => { s with msg := write s.msg offset bs, strayed := strayed }
  | .mem addr => { s with mem := write s.mem addr bs, strayed := strayed }

end State

/-- A call of `extend_reply_msg`, the copy of some bytes to what is reserved, and
`extend_current_output`. -/
structure Output where
  addr : BitVec 32
  size : ℕ
  totalSize : ℕ
  bytes : List Byte
  le_size : bytes.length ≤ size
  le_totalSize : size ≤ totalSize
  ne_nil : size ≠ 0 → bytes ≠ []

inductive Op
  | output (o : Output)
  /-- The region that is moved has the bytes. -/
  | moveout (data addr : BitVec 32) (bytes : List Byte)

def output (s : State) (o : Output) (alloc : Alloc) : Option State := do
  let (s, place) ← s.extendReplyMsg o.addr.toNat o.size o.totalSize alloc
  some ((s.bcopy o.bytes place).extendCurrentOutput o.bytes.length)

/-- `moveout`. The region becomes one of the reply. -/
def moveout (s : State) (data addr : BitVec 32) (bytes : List Byte) : Option State :=
  let s := s.finishReplyMsg
  if (s.size + sizeofDataDesc) % 0x100000000 > 8192 then none
  else
    let s := { s with
      mem := write s.mem data.toNat bytes
      live := fun p => s.live p || (pagesOf data.toNat bytes.length).contains p }
    some
      { ((s.setDesc addr.toNat dataTypeOoline bytes.length).setData data.toNat).incrMsgSize 4 with
        complex := true }

def step (s : State) : Op × Alloc → Option State
  | (.output o, alloc) => output s o alloc
  | (.moveout data addr bytes, _) => moveout s data addr bytes

/-- The reply before the system call. -/
def machine : Machine State (Op × Alloc) where
  start s := s.size = sizeofBsdReply ∧ s.current = 0 ∧ (∀ p, s.live p = false) ∧ s.strayed = false ∧
    s.misfreed = false
  step := step

section Calls

/-- Vectors: the base and the length of each. -/
abbrev Iov := List (BitVec 32 × BitVec 32)

/-- The calls. A `struct uio` is its vectors, and `uio_resid` is the sum of their lengths. -/
inductive Call
  | copyout (bytes : List Byte) (addr : BitVec 32)
  | uiomove (bytes : List Byte) (iov : Iov)
  | ureadc (c : Byte) (iov : Iov)
  | moveout (data addr : BitVec 32) (bytes : List Byte)

def copyout (bytes : List Byte) (addr : BitVec 32) : Output where
  addr := addr
  size := bytes.length
  totalSize := bytes.length
  bytes := bytes
  le_size := Nat.le_refl _
  le_totalSize := Nat.le_refl _
  ne_nil h := List.ne_nil_of_length_pos (Nat.pos_of_ne_zero h)

/-- `uiomove` with `UIO_READ` -/
def uiomove : List Byte → Iov → List Output
  | _, [] => []
  | [], _ :: _ => []
  | b :: bytes, (base, len) :: iov =>
    if len.toNat = 0 then uiomove (b :: bytes) iov
    else
      { addr := base
        size := ((b :: bytes).take len.toNat).length
        totalSize := len.toNat
        bytes := (b :: bytes).take len.toNat
        le_size := Nat.le_refl _
        le_totalSize := List.length_take_le _ _
        ne_nil := fun h => List.ne_nil_of_length_pos (Nat.pos_of_ne_zero h) } ::
        uiomove ((b :: bytes).drop len.toNat) iov

/-- `none` is a panic. -/
def ureadc (c : Byte) : Iov → Option Output
  | [] => none
  | (base, len) :: iov =>
    if h : len.toNat = 0 then ureadc c iov
    else
      some
        { addr := base
          size := len.toNat
          totalSize := len.toNat
          bytes := [c]
          le_size := Nat.pos_of_ne_zero h
          le_totalSize := Nat.le_refl _
          ne_nil := fun _ => List.cons_ne_nil _ _ }

def ops : Call → Option (List Op)
  | .copyout bytes addr => some [.output (copyout bytes addr)]
  | .uiomove bytes iov => some ((uiomove bytes iov).map .output)
  | .ureadc c iov => (ureadc c iov).map fun o => [.output o]
  | .moveout data addr bytes => some [.moveout data addr bytes]

end Calls

section Emulator

structure Scan where
  /-- the bytes that were copied to the user, in their order -/
  writes : List (ℕ × Byte)
  /-- the regions that were deallocated -/
  freed : List (ℕ × ℕ)
  /-- where the scan has come to -/
  start : ℕ

/-- The loop of `emul_generic`, for at most as many turns. -/
def scan (msg mem : ℕ → Byte) (stop : ℕ) : ℕ → Scan → Option Scan
  | 0, _ => none
  | turns + 1, r =>
    if stop > r.start then
      if stop - r.start < 12 then some r
      else
        let userAddr := get32 msg (r.start + 4)
        let type := get32 msg (r.start + 8)
        let size := if msgtLongform type then get32 msg (r.start + 16) else msgtNumber type
        let start := r.start + 8 + if msgtLongform type then 12 else 4
        if msgtInline type then
          scan msg mem stop turns
            ⟨r.writes ++ userWrites userAddr (read msg start size), r.freed,
              (start + size + 3) / 4 * 4⟩
        else
          let msgAddr := get32 msg start
          scan msg mem stop turns
            ⟨r.writes ++ userWrites userAddr (read mem msgAddr size), r.freed ++ [(msgAddr, size)],
              start + 4⟩
    else some r

end Emulator

end XMach.ReplyMsg
