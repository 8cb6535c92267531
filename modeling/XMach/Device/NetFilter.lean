import Mathlib.Data.BitVec

/-!
# Packet filters of the stack machine

`net_do_filter` and `parse_net_filter` of `net_io.c`. A filter is a list of words, each with an
argument to push and an operator. Every access to the stack, the header, the packet and the filter
is checked here, and one that is out of range is a `Fault`. Shifts are those of the i386, which take
the count modulo 32.
-/

namespace XMach.Net

/-- `filter_t`. -/
abbrev FilterWord := BitVec 16

def netMaxFilter : ℤ := 128
def netFilterStackDepth : ℤ := 32
def netHdwHdrMax : ℕ := 64

inductive NetfOp
  | nop | eq | lt | le | gt | ge | and | or | xor | cor | cand | cnor | cnand | neq | lsh | rsh
  | add | sub
  deriving DecidableEq

/-- `NETF_OP`, for the operators that there are. -/
def netfOp (w : FilterWord) : Option NetfOp :=
  match (w >>> 10).toNat with
  | 0 => some .nop
  | 1 => some .eq
  | 2 => some .lt
  | 3 => some .le
  | 4 => some .gt
  | 5 => some .ge
  | 6 => some .and
  | 7 => some .or
  | 8 => some .xor
  | 9 => some .cor
  | 10 => some .cand
  | 11 => some .cnor
  | 12 => some .cnand
  | 13 => some .neq
  | 14 => some .lsh
  | 15 => some .rsh
  | 16 => some .add
  | 17 => some .sub
  | _ => none

inductive NetfArg
  | nopush
  | pushlit
  | pushzero
  | pushind
  | pushhdrind
  /-- `arg - NETF_PUSHWORD`, which wraps for the values that have no meaning -/
  | pushword (n : BitVec 32)
  | pushhdr (n : ℕ)
  | pushstk (n : ℕ)
  deriving DecidableEq

/-- `NETF_ARG`. -/
def netfArg (w : FilterWord) : NetfArg :=
  match (w &&& 0x3ff).toNat with
  | 0 => .nopush
  | 1 => .pushlit
  | 2 => .pushzero
  | 14 => .pushind
  | 15 => .pushhdrind
  | arg =>
    if 992 ≤ arg then .pushstk (arg - 992)
    else if 960 ≤ arg then .pushhdr (arg - 960)
    else .pushword (BitVec.ofNat 32 arg - 16)

section Parse

/-- What `parse_net_filter` makes of an argument: the stack pointer after it, unless the filter is
refused. -/
def checkArg (sp : ℤ) : NetfArg → Option ℤ
  | .nopush | .pushind | .pushhdrind => some sp
  | .pushzero | .pushlit | .pushword _ => some (sp - 1)
  | .pushhdr n => if netHdwHdrMax / 2 ≤ n then none else some (sp - 1)
  | .pushstk n => if n + sp > netFilterStackDepth then none else some (sp - 1)

def checkOp (sp : ℤ) (op : Option NetfOp) : Option ℤ :=
  if sp < 2 then none
  else if op = some .nop then some sp
  -- the bound is that of the filter, not that of the stack
  else if sp > netMaxFilter - 2 then none
  else op.map fun _ => sp + 1

def checkWord (w : FilterWord) (sp : ℤ) : Option ℤ :=
  (checkArg sp (netfArg w)).bind fun sp => checkOp sp (netfOp w)

def parseNetFilterFrom : List FilterWord → ℤ → Bool
  | [], _ => true
  | w :: filter, sp =>
    match checkWord w sp with
    | none => false
    | some sp =>
      match netfArg w, filter with
      -- the literal value is not in the filter
      | .pushlit, [] => false
      | .pushlit, _ :: filter => parseNetFilterFrom filter sp
      | _, filter => parseNetFilterFrom filter sp

def parseNetFilter (filter : List FilterWord) : Bool :=
  parseNetFilterFrom filter netFilterStackDepth

end Parse

section Run

/-- An access out of range. -/
inductive Fault
  /-- before `stack[0]` -/
  | overflow
  /-- behind `stack[NET_FILTER_STACK_DEPTH]` -/
  | underflow
  | header
  | data
  | filter
  deriving DecidableEq

abbrev Stack := ℤ → BitVec 32

structure Packet where
  data : ℕ → BitVec 16
  /-- in bytes -/
  dataCount : BitVec 32
  header : ℕ → BitVec 16

/-- `data_count / sizeof(unsigned short)`. -/
def Packet.words (p : Packet) : ℕ := p.dataCount.toNat / 2

def Packet.dataWord (p : Packet) (n : ℕ) : Except Fault (BitVec 32) :=
  if n < p.words then .ok ((p.data n).setWidth 32) else .error .data

def Packet.headerWord (p : Packet) (n : ℕ) : Except Fault (BitVec 32) :=
  if n < netHdwHdrMax / 2 then .ok ((p.header n).setWidth 32) else .error .header

def access (sp : ℤ) : Except Fault Unit :=
  if sp < 0 then .error .overflow else if netFilterStackDepth < sp then .error .underflow
  else .ok ()

def Stack.read (st : Stack) (sp : ℤ) : Except Fault (BitVec 32) := do
  access sp
  pure (st sp)

def Stack.write (st : Stack) (sp : ℤ) (v : BitVec 32) : Except Fault Stack := do
  access sp
  pure fun i => if i = sp then v else st i

/-- The argument and the stack pointer after it; `none` where the filter does not match. -/
def fetch (p : Packet) (st : Stack) (sp : ℤ) (lit : FilterWord) :
    NetfArg → Except Fault (Option (BitVec 32 × ℤ))
  | .nopush => do
    let arg ← st.read sp
    pure (some (arg, sp + 1))
  | .pushzero => pure (some (0, sp))
  | .pushlit => pure (some (lit.setWidth 32, sp))
  | .pushind => do
    let arg ← st.read sp
    if p.words ≤ arg.toNat then pure none
    else do
      let arg ← p.dataWord arg.toNat
      pure (some (arg, sp + 1))
  | .pushhdrind => do
    let arg ← st.read sp
    if netHdwHdrMax / 2 ≤ arg.toNat then pure none
    else do
      let arg ← p.headerWord arg.toNat
      pure (some (arg, sp + 1))
  | .pushstk n => do
    let arg ← st.read (sp + n)
    pure (some (arg, sp))
  | .pushhdr n => do
    let arg ← p.headerWord n
    pure (some (arg, sp))
  | .pushword n =>
    if p.words ≤ n.toNat then pure none
    else do
      let arg ← p.dataWord n.toNat
      pure (some (arg, sp))

/-- How an instruction ends: the filter returns, or goes on. -/
inductive Next
  | ret (result : Bool)
  | more (st : Stack) (sp : ℤ)

/-- `*sp = f(*sp, arg)`. -/
def combine (st : Stack) (sp : ℤ) (f : BitVec 32 → BitVec 32) : Except Fault Next := do
  let v ← st.read sp
  let st ← st.write sp (f v)
  pure (.more st sp)

/-- The operators that may return. -/
def test (st : Stack) (sp : ℤ) (stop : BitVec 32 → Bool) (result : Bool) : Except Fault Next := do
  let v ← st.read sp
  pure (if stop v then .ret result else .more st (sp + 1))

def truth (b : Bool) : BitVec 32 := if b then 1 else 0

def operate (st : Stack) (sp : ℤ) (arg : BitVec 32) : Option NetfOp → Except Fault Next
  | none => pure (.more st sp)
  | some .nop => do
    let st ← st.write (sp - 1) arg
    pure (.more st (sp - 1))
  | some .and => combine st sp (· &&& arg)
  | some .or => combine st sp (· ||| arg)
  | some .xor => combine st sp (· ^^^ arg)
  | some .eq => combine st sp fun v => truth (v == arg)
  | some .neq => combine st sp fun v => truth (v != arg)
  | some .lt => combine st sp fun v => truth (v.ult arg)
  | some .le => combine st sp fun v => truth (v.ule arg)
  | some .gt => combine st sp fun v => truth (arg.ult v)
  | some .ge => combine st sp fun v => truth (arg.ule v)
  | some .cor => test st sp (· == arg) true
  | some .cand => test st sp (· != arg) false
  | some .cnor => test st sp (· == arg) false
  | some .cnand => test st sp (· != arg) true
  | some .lsh => combine st sp fun v => v <<< (arg.toNat % 32)
  | some .rsh => combine st sp fun v => v.sshiftRight (arg.toNat % 32)
  | some .add => combine st sp (· + arg)
  | some .sub => combine st sp (· - arg)

def execute (p : Packet) (w lit : FilterWord) (st : Stack) (sp : ℤ) : Except Fault Next := do
  match ← fetch p st sp lit (netfArg w) with
  | none => pure (.ret false)
  | some (arg, sp) => operate st sp arg (netfOp w)

def netDoFilterFrom (p : Packet) : List FilterWord → Stack → ℤ → Except Fault Bool
  | [], st, sp => do
    let v ← st.read sp
    pure (v != 0)
  | w :: filter, st, sp =>
    match netfArg w, filter with
    | .pushlit, [] => .error .filter
    | .pushlit, lit :: filter => do
      match ← execute p w lit st sp with
      | .ret result => pure result
      | .more st sp => netDoFilterFrom p filter st sp
    | _, filter => do
      match ← execute p w 0 st sp with
      | .ret result => pure result
      | .more st sp => netDoFilterFrom p filter st sp

/-- `net_do_filter`; what the stack holds before is of no matter. -/
def netDoFilter (p : Packet) (filter : List FilterWord) (stack : Stack) : Except Fault Bool := do
  let st ← stack.write netFilterStackDepth 1
  netDoFilterFrom p filter st netFilterStackDepth

end Run

section Depth

/-- The stack pointer `next`, provided that `sp` is not below the bottom of the stack. -/
def notBelow (sp next : ℤ) : Option ℤ := if sp ≤ netFilterStackDepth then some next else none

/-- Where an argument leaves the stack pointer, when it takes nothing from below the bottom. -/
def argDepth (sp : ℤ) : NetfArg → Option ℤ
  | .nopush | .pushind | .pushhdrind => notBelow sp (sp + 1)
  | .pushstk n => notBelow (sp + n) sp
  | _ => some sp

/-- Where an operator leaves it, when the filter goes on. -/
def opDepth (sp : ℤ) : Option NetfOp → Option ℤ
  | none => some sp
  | some .nop => notBelow (sp - 1) (sp - 1)
  | some .cor | some .cand | some .cnor | some .cnand => notBelow sp (sp + 1)
  | some _ => notBelow sp sp

def nextDepth (w : FilterWord) (sp : ℤ) : Option ℤ :=
  (argDepth sp (netfArg w)).bind fun sp => opDepth sp (netfOp w)

/-- The stack pointer after all words of a filter, if none of them takes anything from below the
bottom of the stack. -/
def depthAfter : List FilterWord → ℤ → Option ℤ
  | [], sp => some sp
  | w :: filter, sp =>
    match nextDepth w sp with
    | none => none
    | some sp =>
      match netfArg w, filter with
      | .pushlit, _ :: filter => depthAfter filter sp
      | _, filter => depthAfter filter sp

def depthKept (filter : List FilterWord) (sp : ℤ) : Bool :=
  (depthAfter filter sp).any fun sp => sp ≤ netFilterStackDepth

end Depth

section Executed

/-- Where the loop comes to: the words that are left, the stack and its pointer. -/
inductive Reaches (p : Packet) : List FilterWord → Stack → ℤ → List FilterWord → Stack → ℤ → Prop
  | refl (filter : List FilterWord) (st : Stack) (sp : ℤ) : Reaches p filter st sp filter st sp
  | word {w : FilterWord} {filter rest : List FilterWord} {st st' st'' : Stack} {sp sp' sp'' : ℤ}
      (hlit : netfArg w ≠ .pushlit) (h : execute p w 0 st sp = .ok (.more st' sp'))
      (hrest : Reaches p filter st' sp' rest st'' sp'') :
      Reaches p (w :: filter) st sp rest st'' sp''
  | literal {w lit : FilterWord} {filter rest : List FilterWord} {st st' st'' : Stack}
      {sp sp' sp'' : ℤ}
      (hlit : netfArg w = .pushlit) (h : execute p w lit st sp = .ok (.more st' sp'))
      (hrest : Reaches p filter st' sp' rest st'' sp'') :
      Reaches p (w :: lit :: filter) st sp rest st'' sp''

/-- The packet has the word that an argument is about; without it the filter does not match. -/
def present (p : Packet) (top : BitVec 32) : NetfArg → Bool
  | .pushind => top.toNat < p.words
  | .pushhdrind => top.toNat < netHdwHdrMax / 2
  | .pushword n => n.toNat < p.words
  | _ => true

/-- The next word takes nothing from below the bottom of the stack, and neither does the end of the
filter. An operator is reckoned with if its argument is there. -/
def careful (p : Packet) (st : Stack) (sp : ℤ) : List FilterWord → Bool
  | [] => sp ≤ netFilterStackDepth
  | w :: _ => (argDepth sp (netfArg w)).any fun next =>
    !present p (st sp) (netfArg w) || (opDepth next (netfOp w)).isSome

end Executed

end XMach.Net
