import Mathlib.Data.Int.Notation
import Mathlib.Data.List.Range
import XMach.Lib.Machine

/-!
# Character queues of terminals

The circular buffers of `cirbuf.c`. Addresses and numbers of characters are integers, and the memory
of the buffer is that of the kernel. The count of characters is a `short`. The other ends of
`q_to_b` and `b_to_q` are not in the buffer.
-/

namespace XMach.CharQueue

/-- A `char`. -/
abbrev Character := BitVec 8

structure Cirbuf where
  /-- start of buffer -/
  cStart : ℤ
  /-- end of buffer + 1 -/
  cEnd : ℤ
  /-- read pointer -/
  cCf : ℤ
  /-- write pointer -/
  cCl : ℤ
  cCc : BitVec 16
  cHog : BitVec 16

structure State where
  mem : ℤ → Character
  cb : Cirbuf

/-- `bcopy`, for a length that is not negative. -/
def bcopy (mem : ℤ → Character) (cp : ℕ → Character) (dst count : ℤ) : ℤ → Character :=
  fun a => if dst ≤ a ∧ a < dst + count then cp (a - dst).toNat else mem a

section Characters

/-- `putc` returns 1 if the character is not entered. -/
def putc (c : BitVec 32) (s : State) : State × ℤ :=
  let nw := if s.cb.cCl + 1 = s.cb.cEnd then s.cb.cStart else s.cb.cCl + 1
  if nw = s.cb.cCf then (s, 1)
  else
    (⟨fun a => if a = s.cb.cCl then c.setWidth 8 else s.mem a,
      { s.cb with cCl := nw, cCc := s.cb.cCc + 1 }⟩, 0)

/-- `getc` returns -1 if the buffer is empty. -/
def getc (s : State) : State × ℤ :=
  if s.cb.cCf = s.cb.cCl then (s, -1)
  else
    let nr := if s.cb.cCf + 1 = s.cb.cEnd then s.cb.cStart else s.cb.cCf + 1
    ({ s with cb := { s.cb with cCf := nr, cCc := s.cb.cCc - 1 } }, (s.mem s.cb.cCf).toNat)

end Characters

section Bulk

/-- How many characters can be read side by side, at most `count`. -/
def Cirbuf.readable (cb : Cirbuf) (count : ℤ) : ℤ :=
  let i := if cb.cCl < cb.cCf then cb.cEnd - cb.cCf else cb.cCl - cb.cCf
  if i > count then count else i

/-- The read pointer goes on. -/
def Cirbuf.skip (cb : Cirbuf) (i : ℤ) : Cirbuf :=
  let cf := cb.cCf + i
  { cb with cCf := if cf = cb.cEnd then cb.cStart else cf, cCc := cb.cCc - BitVec.ofInt 16 i }

/-- The loop of `q_to_b`, for at most as many turns, with the characters that it moves. `none` is a
`bcopy` of a negative length, or a loop that has not ended. -/
def qToBFrom : ℕ → State → ℤ → Option (State × List Character)
  | 0, _, _ => none
  | turns + 1, s, count =>
    if count = 0 ∨ s.cb.cCl = s.cb.cCf then some (s, [])
    else
      let i := s.cb.readable count
      if i < 0 then none
      else
        (qToBFrom turns { s with cb := s.cb.skip i } (count - i)).map fun r =>
          (r.1, (List.range i.toNat).map (fun j : ℕ => s.mem (s.cb.cCf + j)) ++ r.2)

/-- `q_to_b` returns how many characters it has moved. -/
def qToB (s : State) (count : ℤ) : Option (State × List Character) :=
  qToBFrom (count.toNat + 1) s count

/-- The last place that may be written. -/
def Cirbuf.limit (cb : Cirbuf) : ℤ := if cb.cCf - 1 < cb.cStart then cb.cEnd - 1 else cb.cCf - 1

/-- How many characters can be written side by side, at most `count`. -/
def Cirbuf.writable (cb : Cirbuf) (count : ℤ) : ℤ :=
  let i := if cb.cCl < cb.limit then cb.limit - cb.cCl else cb.cEnd - cb.cCl
  if i > count then count else i

/-- The loop of `b_to_q`, with the number of characters that are not entered. -/
def bToQFrom : ℕ → (ℕ → Character) → ℤ → State → Option (State × ℤ)
  | 0, _, _, _ => none
  | turns + 1, cp, count, s =>
    if count = 0 ∨ s.cb.cCl = s.cb.limit then some (s, count)
    else
      let i := s.cb.writable count
      if i < 0 then none
      else
        let cl := s.cb.cCl + i
        bToQFrom turns (fun j => cp (i.toNat + j)) (count - i)
          ⟨bcopy s.mem cp s.cb.cCl i,
            { s.cb with
              cCl := if cl = s.cb.cEnd then s.cb.cStart else cl
              cCc := s.cb.cCc + BitVec.ofInt 16 i }⟩

def bToQ (cp : ℕ → Character) (count : ℤ) (s : State) : Option (State × ℤ) :=
  bToQFrom (count.toNat + 1) cp count s

/-- `*cp & mask`; a `char` is signed. -/
def matchesMask (c : Character) (mask : BitVec 32) : Bool := c.signExtend 32 &&& mask != 0

/-- The loop of `ndqb`, with so many characters before the limit. -/
def scan (mem : ℤ → Character) (mask : BitVec 32) : ℕ → ℤ → ℤ
  | 0, cp => cp
  | n + 1, cp => if matchesMask (mem cp) mask then cp else scan mem mask n (cp + 1)

def ndqb (s : State) (mask : BitVec 32) : ℤ :=
  let lim := if s.cb.cCl < s.cb.cCf then s.cb.cEnd else s.cb.cCl
  if mask = 0 then lim - s.cb.cCf else scan s.mem mask (lim - s.cb.cCf).toNat s.cb.cCf - s.cb.cCf

/-- The loop of `ndflush`. A negative number of characters is taken back. -/
def ndflushFrom : ℕ → State → ℤ → Option State
  | 0, _, _ => none
  | turns + 1, s, count =>
    if count = 0 ∨ s.cb.cCl = s.cb.cCf then some s
    else
      let i := s.cb.readable count
      ndflushFrom turns { s with cb := s.cb.skip i } (count - i)

def ndflush (s : State) (count : ℤ) : Option State := ndflushFrom (count.natAbs + 1) s count

def cbClear (s : State) : State :=
  { s with cb := { s.cb with cCf := s.cb.cStart, cCl := s.cb.cStart, cCc := 0 } }

/-- `cb_alloc`, with what `kalloc` returns. -/
def cbAlloc (mem : ℤ → Character) (buf : ℤ) (bufSize : ℕ) : State :=
  ⟨mem, ⟨buf, buf + bufSize, buf, buf, 0, BitVec.ofInt 16 (bufSize - 1)⟩⟩

end Bulk

section Queue

inductive Op
  | putc (c : BitVec 32)
  | getc
  | qToB (count : ℤ)
  | bToQ (cp : ℕ → Character) (count : ℤ)
  | ndqb (mask : BitVec 32)
  | ndflush (count : ℤ)
  | cbClear

/-- What a routine returns, and the characters that it moves out. -/
structure Reply where
  value : ℤ
  chars : List Character

def step (s : State) : Op → Option (State × Reply)
  | .putc c => some ((putc c s).1, ⟨(putc c s).2, []⟩)
  | .getc => some ((getc s).1, ⟨(getc s).2, []⟩)
  | .qToB count => (qToB s count).map fun r => (r.1, ⟨r.2.length, r.2⟩)
  | .bToQ cp count => (bToQ cp count s).map fun r => (r.1, ⟨r.2, []⟩)
  | .ndqb mask => some (s, ⟨ndqb s mask, []⟩)
  | .ndflush count => (ndflush s count).map fun s => (s, ⟨0, []⟩)
  | .cbClear => some (cbClear s, ⟨0, []⟩)

/-- A buffer of this size and what is done with it. -/
def machine (bufSize : ℕ) : Machine State Op where
  start s := ∃ mem buf, s = cbAlloc mem buf bufSize
  step s op := (step s op).map Prod.fst

end Queue

end XMach.CharQueue
