import XMach.Lib.Coalesced

/-!
# The list-based memory manager

`libmach/lmm`: regions of memory, each with a header in front and a list of its free nodes.
Addresses and sizes are 32 bits wide, so their sums wrap. A node lies in the memory it stands for;
what an operation reads or writes where no node is, a null pointer included, is `none`.
-/

namespace XMach.Lmm

/-- `vm_offset_t` and `vm_size_t` count modulo this. -/
def wordSize : ℕ := 2 ^ 32

/-- `sizeof(struct lmm_node)`, which is `ALIGN_SIZE`, and `sizeof(struct lmm_region)`. -/
def alignSize : ℕ := 8
def regionSize : ℕ := 24

/-- `x & ALIGN_MASK`. -/
def alignMask (x : ℕ) : ℕ := x % alignSize

/-- `x & ~ALIGN_MASK`. -/
def alignDown (x : ℕ) : ℕ := x - x % alignSize

/-- `(x + ALIGN_MASK) & ~ALIGN_MASK`. -/
def alignUp (x : ℕ) : ℕ := alignDown ((x + (alignSize - 1)) % wordSize)

/-- `struct lmm_node`, with its address. -/
structure LmmNode where
  addr : ℕ
  size : ℕ
  deriving DecidableEq, Repr

instance : Region LmmNode := ⟨LmmNode.addr, fun node => node.addr + node.size⟩

/-- `struct lmm_region`, with its address. -/
structure LmmRegion where
  addr : ℕ
  nodes : List LmmNode
  flags : BitVec 32
  pri : ℤ
  size : ℕ
  free : ℕ
  deriving DecidableEq, Repr

/-- `lmm_t`: the list of regions. -/
abbrev LmmT := List LmmRegion

section Add

/-- The new region is linked in front of `rest`, unless its address is the null pointer. -/
def linkRegion (reg : LmmRegion) (rest : List LmmRegion) : List LmmRegion :=
  if reg.addr = 0 then [] else reg :: rest

/-- The loop of `lmm_add` that finds the place of a region: by priority, then by size. -/
def insertRegion (reg : LmmRegion) : List LmmRegion → List LmmRegion
  | [] => linkRegion reg []
  | r :: rest =>
    if reg.pri < r.pri ∨ (r.pri = reg.pri ∧ reg.size < r.size) then r :: insertRegion reg rest
    else linkRegion reg (r :: rest)

/-- A region from `min` to `max` with all of it free. -/
def newRegion (min max : ℕ) (flags : BitVec 32) (pri : ℤ) : LmmRegion where
  addr := min
  nodes := [⟨min + regionSize, max - (min + regionSize)⟩]
  flags := flags
  pri := pri
  size := max - min
  free := max - (min + regionSize)

/-- `lmm_add`. -/
def lmmAdd (lmm : LmmT) (min size : ℕ) (flags : BitVec 32) (pri : ℤ) : LmmT :=
  let max := alignDown ((min + size) % wordSize)
  let min := alignUp min
  if max < min ∨ max - min < regionSize + alignSize then lmm
  else insertRegion (newRegion min max flags pri) lmm

end Add

section Alloc

/-- A node that an allocation is made from: those before it, the address of the block, and those
behind it. -/
structure Pick where
  before : List LmmNode
  node : LmmNode
  addr : ℕ
  after : List LmmNode

/-- The node is behind one more. -/
def Pick.pass (node : LmmNode) (pick : Pick) : Pick := { pick with before := node :: pick.before }

/-- What is left of a node when its first `size` bytes are taken. -/
def takeHead (node : LmmNode) (size : ℕ) : List LmmNode :=
  if size < node.size then [⟨node.addr + size, node.size - size⟩] else []

/-- The node is replaced by what is left of it. -/
def Pick.give (reg : LmmRegion) (pick : Pick) (left : List LmmNode) (size : ℕ) : LmmRegion :=
  { reg with
    nodes := pick.before ++ left ++ pick.after
    free := (reg.free + wordSize - size) % wordSize }

/-- The loop of `lmm_alloc` over the nodes. -/
def pickFirst (size : ℕ) : List LmmNode → Option Pick
  | [] => none
  | node :: rest =>
    if size ≤ node.size then some ⟨[], node, node.addr, rest⟩
    else (pickFirst size rest).map (Pick.pass node)

/-- The loop of `lmm_alloc` over the regions, with the size rounded up. -/
def allocFrom (size : ℕ) (flags : BitVec 32) : List LmmRegion → ℕ × List LmmRegion
  | [] => (0, [])
  | reg :: rest =>
    if flags &&& ~~~reg.flags ≠ 0 then
      let (addr, rest) := allocFrom size flags rest
      (addr, reg :: rest)
    else
      match pickFirst size reg.nodes with
      | some pick => (pick.addr, pick.give reg (takeHead pick.node size) size :: rest)
      | none =>
        let (addr, rest) := allocFrom size flags rest
        (addr, reg :: rest)

/-- `lmm_alloc`: the address of the block, or null. -/
def lmmAlloc (lmm : LmmT) (size : ℕ) (flags : BitVec 32) : ℕ × LmmT :=
  allocFrom (alignUp size) flags lmm

end Alloc

section AllocGen

/-- The arguments of `lmm_alloc_gen`. -/
structure GenArgs where
  size : ℕ
  flags : BitVec 32
  alignBits : ℕ
  alignOfs : ℕ
  inMin : ℕ
  inSize : ℕ

/-- `in_max`. -/
def GenArgs.inMax (g : GenArgs) : ℕ := (g.inMin + g.inSize) % wordSize

/-- The loop that makes the low bits of an address those of `alignOfs`. -/
def alignAddr (alignOfs : ℕ) : List ℕ → ℕ → ℕ
  | [], addr => addr
  | i :: bits, addr =>
    alignAddr alignOfs bits
      (if (addr ^^^ alignOfs) &&& 2 ^ i ≠ 0 then (addr + 2 ^ i) % wordSize else addr)

/-- The address at which a block from a node has to start. -/
def GenArgs.addrIn (g : GenArgs) (node : LmmNode) : ℕ :=
  alignAddr g.alignOfs (List.range g.alignBits) (if node.addr < g.inMin then g.inMin else node.addr)

/-- The loop of `lmm_alloc_gen` over the nodes. A block past `in_max` ends it. -/
def pickGen (g : GenArgs) : List LmmNode → Option Pick
  | [] => none
  | node :: rest =>
    if node.size < g.size then (pickGen g rest).map (Pick.pass node)
    else if node.size < ((g.addrIn node + wordSize - node.addr) % wordSize + g.size) % wordSize then
      (pickGen g rest).map (Pick.pass node)
    else if g.inMax < (g.addrIn node + g.size) % wordSize then none
    else some ⟨[], node, g.addrIn node, rest⟩

/-- The size of a block at an address, in units of `ALIGN_SIZE`. -/
def blockSize (addr size : ℕ) : ℕ := alignUp (alignMask addr + size)

/-- What `lmm_alloc_gen` leaves of a node: the part before the block, and what is behind it. A block
that starts outside the node has it write elsewhere. -/
def carve (node : LmmNode) (addr size : ℕ) : Option (List LmmNode) :=
  let anode := alignDown addr
  if anode < node.addr ∨ node.addr + node.size ≤ anode then none
  else if node.addr < anode then
    some (⟨node.addr, anode - node.addr⟩ ::
      takeHead ⟨anode, node.size - (anode - node.addr)⟩ (blockSize addr size))
  else some (takeHead node (blockSize addr size))

/-- A region that `lmm_alloc_gen` does not look into. -/
def GenArgs.rejects (g : GenArgs) (reg : LmmRegion) : Prop :=
  g.flags &&& ~~~reg.flags ≠ 0 ∨ g.inMax ≤ reg.addr ∨ (reg.addr + reg.size) % wordSize ≤ g.inMin

instance (g : GenArgs) (reg : LmmRegion) : Decidable (g.rejects reg) :=
  inferInstanceAs (Decidable (_ ∨ _ ∨ _))

/-- `lmm_alloc_gen`: the address of the block, or null. -/
def lmmAllocGen (g : GenArgs) : LmmT → Option (ℕ × LmmT)
  | [] => some (0, [])
  | reg :: rest =>
    if g.rejects reg then (lmmAllocGen g rest).map fun (addr, rest) => (addr, reg :: rest)
    else
      match pickGen g reg.nodes with
      | some pick => (carve pick.node pick.addr g.size).map fun left =>
          (pick.addr, pick.give reg left (blockSize pick.addr g.size) :: rest)
      | none => (lmmAllocGen g rest).map fun (addr, rest) => (addr, reg :: rest)

/-- `lmm_alloc_aligned`. -/
def lmmAllocAligned (lmm : LmmT) (size : ℕ) (flags : BitVec 32) (alignBits alignOfs : ℕ) :
    Option (ℕ × LmmT) :=
  lmmAllocGen ⟨size, flags, alignBits, alignOfs, 0, wordSize - 1⟩ lmm

end AllocGen

section Free

/-- The node that a freed block makes, joined with the next one where it reaches that. The address
of a node that is not there is null, which every block reaches. -/
def joinNext (node : LmmNode) : List LmmNode → Option (List LmmNode)
  | [] => none
  | nextnode :: rest =>
    if nextnode.addr ≤ (node.addr + node.size) % wordSize then
      some (⟨node.addr, node.size + nextnode.size⟩ :: rest)
    else some (node :: nextnode :: rest)

/-- The list with a freed block, where `prevnode` is the last node before it, if there is one. -/
def freeNode (node : LmmNode) : List LmmNode → Option (List LmmNode)
  | [] => joinNext node []
  | prevnode :: rest =>
    if prevnode.addr < node.addr then
      -- the loop goes on as long as nodes are before the block
      match rest with
      | nextnode :: _ =>
        if nextnode.addr < node.addr then (freeNode node rest).map (prevnode :: ·)
        else if node.addr ≤ (prevnode.addr + prevnode.size) % wordSize then
          if nextnode.addr ≤ (node.addr + node.size) % wordSize then
            some (⟨prevnode.addr, prevnode.size + (node.size + nextnode.size)⟩ :: rest.tail)
          else some (⟨prevnode.addr, prevnode.size + node.size⟩ :: rest)
        else (joinNext node rest).map (prevnode :: ·)
      | [] => none
    else joinNext node (prevnode :: rest)

/-- The region that a block is freed to. -/
def freeTo (node : LmmNode) : List LmmRegion → Option (List LmmRegion)
  | [] => none
  | reg :: rest =>
    if reg.addr ≤ node.addr ∧ node.addr < (reg.addr + reg.size) % wordSize then
      (freeNode node reg.nodes).map fun nodes =>
        { reg with nodes := nodes, free := (reg.free + node.size) % wordSize } :: rest
    else (freeTo node rest).map (reg :: ·)

/-- `lmm_free`. -/
def lmmFree (lmm : LmmT) (block size : ℕ) : Option LmmT :=
  freeTo ⟨alignDown block, blockSize block size⟩ lmm

end Free

section Run

/-- The memory manager, the ranges that were added to it, and the blocks that are allocated, with
their sizes. -/
structure State where
  lmm : LmmT
  ranges : List (ℕ × ℕ)
  blocks : List (ℕ × ℕ)

inductive Act
  | add (min size : ℕ) (flags : BitVec 32) (pri : ℤ)
  | alloc (size : ℕ) (flags : BitVec 32)
  | allocAligned (size : ℕ) (flags : BitVec 32) (alignBits alignOfs : ℕ)
  | allocGen (g : GenArgs)
  | free (block size : ℕ)

/-- A block that was allocated, unless the address is null. -/
def State.got (s : State) (size addr : ℕ) (lmm : LmmT) : State :=
  { s with lmm := lmm, blocks := if addr = 0 then s.blocks else (addr, size) :: s.blocks }

def exec (s : State) : Act → Option State
  | .add min size flags pri =>
    some { s with lmm := lmmAdd s.lmm min size flags pri, ranges := (min, size) :: s.ranges }
  | .alloc size flags =>
    let (addr, lmm) := lmmAlloc s.lmm size flags
    some (s.got size addr lmm)
  | .allocAligned size flags alignBits alignOfs =>
    (lmmAllocAligned s.lmm size flags alignBits alignOfs).map fun (addr, lmm) => s.got size addr lmm
  | .allocGen g => (lmmAllocGen g s.lmm).map fun (addr, lmm) => s.got g.size addr lmm
  | .free block size =>
    (lmmFree s.lmm block size).map fun lmm =>
      { s with lmm := lmm, blocks := s.blocks.erase (block, size) }

/-- What the callers see to: a range of the address space that is disjoint from the others, and a
block that is allocated. -/
def Enabled (s : State) : Act → Prop
  | .add min size _ _ => min + size ≤ wordSize ∧
      ∀ r ∈ s.ranges, min + size ≤ r.1 ∨ r.1 + r.2 ≤ min
  | .free block size => (block, size) ∈ s.blocks
  | _ => True

instance (s : State) : (a : Act) → Decidable (Enabled s a)
  | .add _ _ _ _ => inferInstanceAs (Decidable (_ ∧ _))
  | .free _ _ => inferInstanceAs (Decidable (_ ∈ _))
  | .alloc _ _ | .allocAligned _ _ _ _ | .allocGen _ => inferInstanceAs (Decidable True)

/-- `lmm_init`. -/
def lmmInit : State := ⟨[], [], []⟩

def run : State → List Act → Option State
  | s, [] => some s
  | s, a :: acts => (exec s a).bind fun s => run s acts

end Run

end XMach.Lmm
