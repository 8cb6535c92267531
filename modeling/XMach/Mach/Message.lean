import Mathlib.Data.BitVec

/-!
# Messages

The constants and the type descriptors of `mach/message.h`. A descriptor is one 32-bit word, or
three in long form; the fields are the bit fields of `mach_msg_type_t` and `mach_msg_type_long_t`,
allocated from the low end of a word.
-/

namespace XMach

/-- An aligned 32-bit word of memory. -/
abbrev Word := BitVec 32

namespace MachMsgType

def moveReceive : Nat := 16
def moveSend : Nat := 17
def moveSendOnce : Nat := 18
def copySend : Nat := 19
def makeSend : Nat := 20
def makeSendOnce : Nat := 21

/-- The types of received rights share the numbers of the three moves. -/
def portReceive : Nat := moveReceive
def portSend : Nat := moveSend
def portSendOnce : Nat := moveSendOnce

/-- `MACH_MSG_TYPE_PORT_ANY`. -/
def portAny (x : Nat) : Bool := moveReceive ≤ x && x ≤ makeSendOnce

end MachMsgType

/-- The codes `ipc_kmsg_copyin_body` returns. -/
inductive MachMsgReturn
  | success
  | sendInvalidMemory
  | sendInvalidRight
  | sendInvalidType
  | sendMsgTooSmall
  deriving DecidableEq, Repr

/-- `mach_msg_type_t`. -/
structure MsgTypeHeader where
  msgtName : Nat
  msgtSize : Nat
  msgtNumber : Nat
  msgtInline : Bool
  msgtLongform : Bool
  msgtDeallocate : Bool
  msgtUnused : Bool
  deriving DecidableEq, Repr

def MsgTypeHeader.ofWord (w : Word) : MsgTypeHeader where
  msgtName := (w.extractLsb' 0 8).toNat
  msgtSize := (w.extractLsb' 8 8).toNat
  msgtNumber := (w.extractLsb' 16 12).toNat
  msgtInline := w.getLsbD 28
  msgtLongform := w.getLsbD 29
  msgtDeallocate := w.getLsbD 30
  msgtUnused := w.getLsbD 31

/-- The bits `MACH_MSGH_BITS_COMPLEX` and `MACH_MSGH_BITS_CIRCULAR`. -/
def msghBitsComplex : Word := 0x80000000
def msghBitsCircular : Word := 0x40000000

/-- `MACH_MSGH_BITS_REMOTE` and `MACH_MSGH_BITS_LOCAL`. -/
def msghBitsRemote (bits : Word) : Nat := (bits.extractLsb' 0 8).toNat
def msghBitsLocal (bits : Word) : Nat := (bits.extractLsb' 8 8).toNat

/-- `MACH_PORT_VALID` on a word that holds a name, and `IO_VALID` on one that holds a pointer. -/
def validWord (w : Word) : Bool := w ≠ 0 && w ≠ 0xffffffff

end XMach
