import Mathlib.Data.BitVec

/-!
# Packet filters of the register machine

`bpf_do_filter`, `bpf_match` and `bpf_validate` of `net_io.c`. Words are of 32 bits and wrap; an
index into the packet, the header or the scratch memory is a word as well, so that a negative one is
a large one. An access that is out of range and a division by zero are a `Fault`. Shifts are those
of the i386, which take the count modulo 32.
-/

namespace XMach.Bpf

abbrev Word := BitVec 32

def memwords : ℕ := 16
def dlbase : Word := 0x40000000
def nNetHashKeys : ℕ := 4
def netHashSize : ℕ := 256
def netRcvMax : ℕ := 4095
def netHdwHdrMax : ℕ := 64

/-- `struct bpf_insn`. -/
structure Insn where
  code : BitVec 16
  jt : BitVec 8
  jf : BitVec 8
  k : Word
  deriving DecidableEq

inductive Size
  | w | h | b
  deriving DecidableEq

def Size.bytes : Size → ℕ
  | .w => 4
  | .h => 2
  | .b => 1

inductive Test
  | jgt | jge | jeq | jset
  deriving DecidableEq

inductive Alu
  | add | sub | mul | div | and | or | lsh | rsh
  deriving DecidableEq

/-- The second operand. -/
inductive Src
  | k | x
  deriving DecidableEq

inductive Op
  | retK | retA | retMatchImm
  | ldAbs (size : Size) | ldInd (size : Size) | ldLen | ldImm | ldMem
  | ldxLen | ldxMsh | ldxImm | ldxMem
  | st | stx
  | ja | jump (test : Test) (src : Src)
  | alu (op : Alu) (src : Src) | neg
  | tax | txa
  deriving DecidableEq

/-- The instructions that `bpf_do_filter` has a case for. -/
def opcodes : List (BitVec 16 × Op) :=
   [(0x06, .retK), (0x16, .retA), (0x1e, .retMatchImm), (0x20, .ldAbs .w), (0x28, .ldAbs .h),
    (0x30, .ldAbs .b), (0x40, .ldInd .w), (0x48, .ldInd .h), (0x50, .ldInd .b), (0x80, .ldLen),
    (0x00, .ldImm), (0x60, .ldMem), (0x81, .ldxLen), (0xb1, .ldxMsh), (0x01, .ldxImm),
    (0x61, .ldxMem),
    (0x02, .st), (0x03, .stx), (0x05, .ja), (0x25, .jump .jgt .k), (0x35, .jump .jge .k),
    (0x15, .jump .jeq .k), (0x45, .jump .jset .k), (0x2d, .jump .jgt .x), (0x3d, .jump .jge .x),
    (0x1d, .jump .jeq .x), (0x4d, .jump .jset .x), (0x0c, .alu .add .x), (0x1c, .alu .sub .x),
    (0x2c, .alu .mul .x), (0x3c, .alu .div .x), (0x5c, .alu .and .x), (0x4c, .alu .or .x),
    (0x6c, .alu .lsh .x), (0x7c, .alu .rsh .x), (0x04, .alu .add .k), (0x14, .alu .sub .k),
    (0x24, .alu .mul .k), (0x34, .alu .div .k), (0x54, .alu .and .k), (0x44, .alu .or .k),
    (0x64, .alu .lsh .k), (0x74, .alu .rsh .k), (0x84, .neg), (0x07, .tax), (0x87, .txa)]

def decode (code : BitVec 16) : Option Op := opcodes.lookup code

section Validate

def bpfClass (code : BitVec 16) : BitVec 16 := code &&& 0x07

def bpfBegin : BitVec 16 := 0xfc00

/-- `BPF_MISC | BPF_KEY`. -/
def bpfKey : BitVec 16 := 0x17

/-- Jumps are into the code block. The sum of `from` and `k` is that of an `int`. -/
def checkJump (len i : ℕ) (p : Insn) : Bool :=
  if bpfClass p.code = 0x05 then
    if p.code &&& 0xf0 = 0x00 then (BitVec.ofNat 32 (i + 1) + p.k).toInt < len
    else i + 1 + p.jt.toNat < len && i + 1 + p.jf.toNat < len
  else true

/-- Of the instructions with an address in memory `BPF_STX` and `BPF_LDX` are not among those
checked. -/
def checkMem (p : Insn) : Bool :=
  if bpfClass p.code = 0x02 ∨ (bpfClass p.code = 0x00 ∧ p.code &&& 0xe0 = 0x60) then
    !(memwords ≤ p.k.toInt || p.k.toInt < 0)
  else true

def checkDiv (p : Insn) : Bool := !(p.code = 0x34 && p.k = 0)

/-- The loop of `bpf_validate`, where `keys` keys are to be skipped before the next instruction. The
match instruction is given by its index; the result is `none` for a filter that is refused. -/
def validateFrom (len : ℕ) : ℕ → ℕ → Option ℕ → List Insn → Option (Option ℕ)
  | _, 0, found, [] => some found
  | _, _ + 1, _, [] => none
  | i, keys + 1, found, p :: rest =>
    if p.code = bpfKey then validateFrom len (i + 1) keys found rest else none
  | i, 0, found, p :: rest =>
    if checkJump len i p && checkMem p && checkDiv p then
      if p.code = 0x1e then
        if found ≠ none ∨ p.jt = 0 ∨ nNetHashKeys < p.jt.toNat then none
        else validateFrom len (i + 1) p.jt.toNat (some i) rest
      else validateFrom len (i + 1) 0 found rest
    else none

/-- `bpf_validate`, which returns 0 for `none`, 1 for `some none`, and 2 together with the match
instruction. `f[len - 1]` is `before` for an array without an instruction. -/
def bpfValidate (before : Insn) (f : List Insn) : Option (Option ℕ) :=
  match validateFrom f.length 1 0 none f.tail with
  | none => none
  | some found => if bpfClass (f.getLastD before).code = 0x06 then some found else none

end Validate

section Run

inductive Fault
  /-- the program counter is outside the program -/
  | program
  | mem
  | data
  | header
  | keys
  | divide
  deriving DecidableEq

/-- `struct net_hash_entry`. -/
structure HashEntry where
  keys : ℕ → Word
  rcvPort : ℕ

/-- `struct net_hash_header`, each bucket from its head on. -/
structure HashHeader where
  nKeys : ℕ
  table : ℕ → List HashEntry

/-- What a filter is run on. -/
structure Env where
  data : ℕ → BitVec 8
  wirelen : Word
  header : ℕ → BitVec 8
  /-- `infp->rcv_port == MACH_PORT_NULL` -/
  dummy : Bool
  hash : HashHeader
  /-- the size of the filter is not a multiple of that of an instruction, and `filter_end` is behind
  the last whole one -/
  ragged : Bool

structure State where
  /-- as an index into the program -/
  pc : ℤ
  a : Word
  x : Word
  mem : ℕ → Word

def readAt {α : Type} (fault : Fault) (bound : ℕ) (array : ℕ → α) (i : ℕ) : Except Fault α :=
  if i < bound then .ok (array i) else .error fault

/-- `bpf_hash`. -/
def bpfHash (n : ℕ) (keys : ℕ → Word) : Except Fault ℕ := do
  let hval ← n.rec (pure (0 : Word)) fun i sum => do
    let hval ← sum
    let key ← readAt .mem memwords keys i
    pure (hval + key)
  pure (hval.toNat % netHashSize)

/-- The first `n` keys are those of the entry, from `i` on. -/
def sameKeys (keys : ℕ → Word) (entp : HashEntry) : ℕ → ℕ → Except Fault Bool
  | 0, _ => pure true
  | n + 1, i => do
    let key ← readAt .mem memwords keys i
    let key' ← readAt .keys nNetHashKeys entp.keys i
    if key ≠ key' then pure false else sameKeys keys entp n (i + 1)

def findEntry (keys : ℕ → Word) (n : ℕ) : List HashEntry → Except Fault (Option HashEntry)
  | [] => pure none
  | entp :: rest => do
    if ← sameKeys keys entp n 0 then pure (some entp) else findEntry keys n rest

/-- `bpf_match`. -/
def bpfMatch (hash : HashHeader) (nKeys : ℕ) (keys : ℕ → Word) : Except Fault (Option HashEntry) :=
  if nKeys ≠ hash.nKeys then pure none
  else do
    let i ← bpfHash nKeys keys
    findEntry keys nKeys (hash.table i)

/-- The test for a load of `size` at `k`, as the code has it: it wraps, but for single bytes. -/
def Size.fits (size : Size) (k : Word) (bound : ℕ) : Bool :=
  match size with
  | .w => (k + 4).toNat ≤ bound
  | .h => (k + 2).toNat ≤ bound
  | .b => k.toNat < bound

/-- The bytes in network order; `char` is signed. -/
def load (fault : Fault) (bound : ℕ) (bytes : ℕ → BitVec 8) (k : Word) (size : Size) :
    Except Fault Word :=
  if k.toNat + size.bytes ≤ bound then
    match size with
    | .w => .ok (bytes k.toNat ++ bytes (k.toNat + 1) ++ bytes (k.toNat + 2) ++ bytes (k.toNat + 3))
    | .h => .ok ((bytes k.toNat ++ bytes (k.toNat + 1)).setWidth 32)
    | .b => .ok ((bytes k.toNat).signExtend 32)
  else .error fault

def Test.holds (a v : Word) : Test → Bool
  | .jgt => v.ult a
  | .jge => v.ule a
  | .jeq => a == v
  | .jset => a &&& v != 0

def Alu.apply (a v : Word) : Alu → Word
  | .add => a + v
  | .sub => a - v
  | .mul => a * v
  | .div => a / v
  | .and => a &&& v
  | .or => a ||| v
  | .lsh => a <<< (v.toNat % 32)
  | .rsh => a >>> (v.toNat % 32)

/-- How far `pc += k` goes: the address wraps, and an instruction has 8 bytes. -/
def displacement (k : Word) : ℤ := (k.setWidth 29).toInt

inductive Next
  | ret (count : Word) (entp : Option HashEntry)
  | more (s : State)

def truncate (env : Env) (k : Word) : Word := if k.ule env.wirelen then k else env.wirelen

def Src.value (p : Insn) (s : State) : Src → Word
  | .k => p.k
  | .x => s.x

/-- The instruction `p` and the step to the next one. -/
def exec (env : Env) (p : Insn) (s : State) : Except Fault Next :=
  let next : State := { s with pc := s.pc + 1 }
  match decode p.code with
  | none => .ok (.ret 0 none)
  -- no entry has been found at a return that is not that of a match
  | some .retK => .ok (.ret (if env.dummy then 0 else truncate env p.k) none)
  | some .retA => .ok (.ret (if env.dummy then 0 else truncate env s.a) none)
  | some .retMatchImm => do
    match ← bpfMatch env.hash p.jt.toNat s.mem with
    | some entp => pure (.ret (truncate env p.k) (some entp))
    | none => pure (.ret 0 none)
  | some (.ldAbs size) =>
    if size.fits p.k netRcvMax then do
      let a ← load .data netRcvMax env.data p.k size
      pure (.more { next with a })
    else if size.fits (p.k - dlbase) netHdwHdrMax then do
      let a ← load .header netHdwHdrMax env.header (p.k - dlbase) size
      pure (.more { next with a })
    else .ok (.ret 0 none)
  | some (.ldInd size) =>
    if size.fits (s.x + p.k) netRcvMax then do
      let a ← load .data netRcvMax env.data (s.x + p.k) size
      pure (.more { next with a })
    else .ok (.ret 0 none)
  | some .ldLen => .ok (.more { next with a := env.wirelen })
  | some .ldImm => .ok (.more { next with a := p.k })
  | some .ldMem => do
    let a ← readAt .mem memwords s.mem p.k.toNat
    pure (.more { next with a })
  | some .ldxLen => .ok (.more { next with x := env.wirelen })
  | some .ldxMsh =>
    if Size.b.fits p.k netRcvMax then do
      let v ← load .data netRcvMax env.data p.k .b
      pure (.more { next with x := (v &&& 0xf) <<< 2 })
    else .ok (.ret 0 none)
  | some .ldxImm => .ok (.more { next with x := p.k })
  | some .ldxMem => do
    let x ← readAt .mem memwords s.mem p.k.toNat
    pure (.more { next with x })
  | some .st => do
    let _ ← readAt .mem memwords s.mem p.k.toNat
    pure (.more { next with mem := fun i => if i = p.k.toNat then s.a else s.mem i })
  | some .stx => do
    let _ ← readAt .mem memwords s.mem p.k.toNat
    pure (.more { next with mem := fun i => if i = p.k.toNat then s.x else s.mem i })
  | some .ja => .ok (.more { s with pc := s.pc + 1 + displacement p.k })
  | some (.jump test src) =>
    .ok (.more { s with
      pc := s.pc + 1 + if test.holds s.a (src.value p s) then p.jt.toNat else p.jf.toNat })
  | some (.alu .div .x) =>
    if s.x = 0 then .ok (.ret 0 none) else .ok (.more { next with a := s.a / s.x })
  | some (.alu .div .k) => if p.k = 0 then .error .divide
      else .ok (.more { next with a := s.a / p.k })
  | some (.alu op src) => .ok (.more { next with a := op.apply s.a (src.value p s) })
  | some .neg => .ok (.more { next with a := -s.a })
  | some .tax => .ok (.more { next with x := s.a })
  | some .txa => .ok (.more { next with a := s.x })

/-- One turn of the loop. -/
def step (env : Env) (f : List Insn) (s : State) : Except Fault Next :=
  if s.pc < 0 then .error .program
  else
    match f[s.pc.toNat]? with
    | some p => exec env p s
    -- the piece of an instruction at the end is before `filter_end`
    | none => if env.ragged && s.pc = f.length then .error .program else .ok (.ret 0 none)

/-- `bpf_do_filter`, for as many turns as given. The first instruction is `BPF_BEGIN`, and the run
starts with the second. -/
def bpfDoFilter (env : Env) (f : List Insn) :
    ℕ → State → Option (Except Fault (Word × Option HashEntry))
  | 0, _ => none
  | n + 1, s =>
    match step env f s with
    | .error fault => some (.error fault)
    | .ok (.ret count entp) => some (.ok (count, entp))
    | .ok (.more s) => bpfDoFilter env f n s

/-- The states that the loop goes through. -/
inductive Reaches (env : Env) (f : List Insn) : State → State → Prop
  | refl (s : State) : Reaches env f s s
  | step {s s' s'' : State} (h : step env f s = .ok (.more s')) (hrest : Reaches env f s' s'') :
      Reaches env f s s''

end Run

section Careful

/-- The sum in the test of a load wraps. A load of a byte has no sum in its test. -/
def Size.wraps (size : Size) (k : Word) : Bool := size ≠ .b && 2 ^ 32 ≤ k.toNat + size.bytes

/-- What `bpf_validate` leaves to the program: the addresses of loads of more than a byte do not
wrap, in the packet and in the header, the index register is stored and loaded within the memory,
and an unconditional jump is forward and stays in the program. -/
def careful (len : ℕ) (p : Insn) (s : State) : Bool :=
  match decode p.code with
  | some (.ldAbs size) => !size.wraps p.k && !size.wraps (p.k - dlbase)
  | some (.ldInd size) => !size.wraps (s.x + p.k)
  | some .ldxMem | some .stx => p.k.toNat < memwords
  | some .ja => 0 ≤ displacement p.k && s.pc + 1 + displacement p.k < len
  | _ => true

end Careful

end XMach.Bpf
