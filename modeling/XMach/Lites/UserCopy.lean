import Mathlib.Data.Nat.Notation

/-!
# Strings from user space

`copyinstr` of the server, which reads a string of the user page by page with `vm_read`. The task of
the user is the same while it runs. The master lock, which is given up meanwhile, is left out.
-/

namespace XMach.UserCopy

abbrev Addr := BitVec 32

abbrev Byte := BitVec 8

def vmPageSize : Addr := 0x1000

/-- `trunc_page`. -/
def truncPage (a : Addr) : Addr := a - a % vmPageSize

structure UserSpace where
  byte : Addr → Byte
  /-- Whether `vm_read` of the page at this address succeeds. -/
  readable : Addr → Bool

inductive Errno
  | enoent
  | efault
  | enametoolong
  deriving DecidableEq

/-- What a call has done when it returns. -/
structure Copied where
  /-- `none` is 0. -/
  result : Option Errno
  /-- What `*len_copied` is set to. -/
  lenCopied : Option ℕ
  /-- The bytes that are written from `to` on. -/
  written : List Byte
  /-- The buffers that `vm_read` has returned, and those that have been deallocated. -/
  reads : ℕ
  deallocated : ℕ

/-- Bytes of a buffer from `cp` on are copied until there are `n` of them or one is zero. -/
def copyBytes (data : ℕ → Byte) : ℕ → ℕ → List Byte × Bool
  | 0, _ => ([], false)
  | n + 1, cp =>
    if data cp = 0 then ([0], true)
    else (data cp :: (copyBytes data n (cp + 1)).1, (copyBytes data n (cp + 1)).2)

/-- `vm_read` of a page. -/
def vmRead (u : UserSpace) (start : Addr) : Option (ℕ → Byte) :=
  if u.readable start then some fun i => u.byte (start + BitVec.ofNat 32 i) else none

structure State where
  /-- `from` -/
  src : Addr
  count : ℕ
  written : List Byte
  reads : ℕ
  deallocated : ℕ

/-- The loop of `copyinstr` over the pages, for at most as many turns; `wants` says that
`len_copied` is not null. -/
def copyinstrFrom (u : UserSpace) (maxLen : ℕ) (wants : Bool) : ℕ → State → Option Copied
  | 0, _ => none
  | turns + 1, s =>
    if s.count < maxLen then
      let start := truncPage s.src
      let stop := start + vmPageSize
      match vmRead u start with
      | none => some ⟨some .efault, none, s.written, s.reads, s.deallocated⟩
      | some data =>
        let curMax := if (stop - s.src).toNat > maxLen then maxLen else (stop - s.src).toNat
        let r := copyBytes data (curMax - s.count) (s.src - start).toNat
        let count := s.count + r.1.length
        if r.2 then
          some ⟨none, if wants then some count else none, s.written ++ r.1, s.reads + 1,
            s.deallocated + 1⟩
        else copyinstrFrom u maxLen wants turns ⟨stop, count, s.written ++ r.1, s.reads + 1,
          s.deallocated + 1⟩
    else some ⟨some .enoent, none, s.written, s.reads, s.deallocated⟩

/-- `copystr`. -/
def copystr (mem : ℕ → Byte) (src maxLen : ℕ) (wants : Bool) : Copied :=
  let r := copyBytes mem maxLen src
  ⟨if r.2 then none else some .enametoolong, if wants then some r.1.length else none, r.1, 0, 0⟩

/-- `copyinstr`. Without a reply message, the string is in the server. -/
def copyinstr (replyMsg : Bool) (u : UserSpace) (mem : ℕ → Byte) (src : Addr) (maxLen : ℕ)
    (wants : Bool) (turns : ℕ) : Option Copied :=
  if replyMsg then copyinstrFrom u maxLen wants turns ⟨src, 0, [], 0, 0⟩
  else some (copystr mem src.toNat maxLen wants)

end XMach.UserCopy
