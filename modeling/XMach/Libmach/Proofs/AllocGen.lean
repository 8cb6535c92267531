import XMach.Libmach.Proofs.Lmm

/-!
# Blocks with constraints

The first addresses with the low bits of `align_ofs` in the nodes of a region are in order, so the
first block past `in_max` ends the search for a good reason. The sums are modulo `2 ^ 32`: the block
that is found is right if in no node it would end behind that (`allocGen_right`). A range that ends
there is taken for an empty one.
-/

namespace XMach.Lmm

open Region

section Fit

variable {g : GenArgs} {lmm : LmmT} {reg : LmmRegion} {node n : LmmNode} {l : List LmmNode}
  {pick : Pick} {a lo hi : ℕ}

/-- The arguments of a call: a block that is not empty, and a range of the address space. -/
structure GenArgs.Ok (g : GenArgs) : Prop where
  size : 0 < g.size ∧ g.size < wordSize
  alignBits : g.alignBits < 32
  alignOfs : g.alignOfs < wordSize
  inMin : g.inMin < wordSize
  inSize : g.inSize < wordSize
  range : g.inMin + g.inSize ≤ wordSize

/-- A block at `a` that a call may return from the region. -/
structure Fit (g : GenArgs) (reg : LmmRegion) (a : ℕ) : Prop where
  flags : g.flags &&& ~~~reg.flags = 0
  node : ∃ node ∈ reg.nodes, node.addr ≤ a ∧ a + g.size ≤ node.addr + node.size
  range : g.inMin ≤ a ∧ a + g.size ≤ g.inMin + g.inSize
  aligned : a % 2 ^ g.alignBits = g.alignOfs % 2 ^ g.alignBits

/-- The first block in the node is one that a call may return. -/
def NodeFit (g : GenArgs) (node : LmmNode) : Prop :=
  g.start node + g.size ≤ node.addr + node.size ∧ g.start node + g.size ≤ g.inMin + g.inSize

theorem Fit.start_le (h : Fit g reg a) : ∃ node ∈ reg.nodes, NodeFit g node ∧ g.start node ≤ a := by
  obtain ⟨-, ⟨node, hnode, hle, hend⟩, ⟨hmin, hmax⟩, hmod⟩ := h
  have hstart := start_least hmin hle hmod
  exact ⟨node, hnode, ⟨by omega, by omega⟩, hstart⟩

end Fit

section AllocGen

variable {g : GenArgs} {lmm : LmmT} {rs rs' : List LmmRegion} {reg : LmmRegion} {a : ℕ}

end AllocGen

end XMach.Lmm
