import XMach.Libmach.Proofs.Align
import Mathlib.Tactic.Linarith

/-!
# What the memory manager keeps

The free nodes of a region are a coalesced list of what is not allocated. `Sound` says so for all
regions and blocks, and that it holds in every run whose steps are `Careful`: no sum wraps, no empty
block is freed among others, and a block is freed only while a free node is behind it in its region,
since `lmm_free` reads that node even where there is none.
-/

namespace XMach.Lmm

open Region

section Words

theorem alignDown_le (x : ℕ) : alignDown x ≤ x := Nat.sub_le _ _

theorem alignDown_mod (x : ℕ) : alignDown x % 8 = 0 := by
  unfold alignDown alignSize
  omega

theorem alignDown_of_mod {x : ℕ} (h : x % 8 = 0) : alignDown x = x := by
  unfold alignDown alignSize
  omega

theorem alignUp_eq {x : ℕ} (h : x + 7 < wordSize) : alignUp x = (x + 7) / 8 * 8 := by
  unfold alignUp alignDown alignSize
  rw [Nat.mod_eq_of_lt h]
  omega

theorem alignUp_mod (x : ℕ) : alignUp x % 8 = 0 := alignDown_mod _

theorem blockSize_mod (addr size : ℕ) : blockSize addr size % 8 = 0 := alignUp_mod _

theorem blockSize_spec (addr size : ℕ) (h : alignMask addr + size + 7 < wordSize) :
    addr + size ≤ alignDown addr + blockSize addr size ∧
      alignDown addr + blockSize addr size < addr + size + 8 := by
  unfold blockSize
  rw [alignUp_eq h]
  unfold alignMask alignDown alignSize at *
  omega

end Words

section Nodes

variable {lo hi a : ℕ} {l l₁ l₂ left : List LmmNode} {node x : LmmNode}

@[simp] theorem start_node (node : LmmNode) : start node = node.addr := rfl

@[simp] theorem stop_node (node : LmmNode) : stop node = node.addr + node.size := rfl

theorem covers_node : Covers node a ↔ node.addr ≤ a ∧ a < node.addr + node.size := Iff.rfl

/-- A list of free nodes between `lo` and `hi`. -/
structure NodesWf (lo hi : ℕ) (l : List LmmNode) : Prop where
  coalesced : Coalesced l
  within : ∀ x ∈ l, lo ≤ x.addr ∧ x.addr + x.size ≤ hi
  aligned : ∀ x ∈ l, x.addr % 8 = 0 ∧ x.size % 8 = 0

/-- The bytes of a list of nodes. -/
def freeBytes (l : List LmmNode) : ℕ := (l.map LmmNode.size).sum

@[simp] theorem freeBytes_nil : freeBytes [] = 0 := rfl

@[simp] theorem freeBytes_cons (x : LmmNode) (l : List LmmNode) :
    freeBytes (x :: l) = x.size + freeBytes l := by
  simp [freeBytes]

@[simp] theorem freeBytes_append (l₁ l₂ : List LmmNode) :
    freeBytes (l₁ ++ l₂) = freeBytes l₁ + freeBytes l₂ := by
  simp [freeBytes]

theorem nodesWf_nil : NodesWf lo hi [] := ⟨coalesced_nil, by simp, by simp⟩

theorem nodesWf_cons : NodesWf lo hi (x :: l) ↔ 0 < x.size ∧ lo ≤ x.addr ∧ x.addr + x.size ≤ hi ∧
    x.addr % 8 = 0 ∧ x.size % 8 = 0 ∧ (∀ y ∈ l, x.addr + x.size < y.addr) ∧ NodesWf lo hi l := by
  constructor
  · rintro ⟨hc, hw, ha⟩
    obtain ⟨hx, hgap, hl⟩ := coalesced_cons.1 hc
    have hwx := hw x List.mem_cons_self
    have hax := ha x List.mem_cons_self
    have hpos : 0 < x.size := by
      simp only [start_node, stop_node] at hx
      omega
    exact ⟨hpos, hwx.1, hwx.2, hax.1, hax.2, hgap, hl, fun y hy => hw y (List.mem_cons_of_mem _ hy),
      fun y hy => ha y (List.mem_cons_of_mem _ hy)⟩
  · rintro ⟨hpos, hlo, hhi, ha, hs, hgap, hl⟩
    refine ⟨coalesced_cons.2 ⟨?_, hgap, hl.coalesced⟩,
      List.forall_mem_cons.2 ⟨⟨hlo, hhi⟩, hl.within⟩, List.forall_mem_cons.2 ⟨⟨ha, hs⟩, hl.aligned⟩⟩
    simp only [start_node, stop_node]
    omega

theorem nodesWf_append : NodesWf lo hi (l₁ ++ l₂) ↔ NodesWf lo hi l₁ ∧ NodesWf lo hi l₂ ∧
    ∀ x ∈ l₁, ∀ y ∈ l₂, x.addr + x.size < y.addr := by
  constructor
  · rintro ⟨hc, hw, ha⟩
    obtain ⟨h₁, h₂, hgap⟩ := coalesced_append.1 hc
    exact ⟨⟨h₁, fun y hy => hw y (List.mem_append_left _ hy),
      fun y hy => ha y (List.mem_append_left _ hy)⟩,
      ⟨h₂, fun y hy => hw y (List.mem_append_right _ hy),
      fun y hy => ha y (List.mem_append_right _ hy)⟩, hgap⟩
  · rintro ⟨h₁, h₂, hgap⟩
    refine ⟨coalesced_append.2 ⟨h₁.coalesced, h₂.coalesced, hgap⟩, fun y hy => ?_, fun y hy => ?_⟩
    · rcases List.mem_append.1 hy with hy | hy
      · exact h₁.within y hy
      · exact h₂.within y hy
    · rcases List.mem_append.1 hy with hy | hy
      · exact h₁.aligned y hy
      · exact h₂.aligned y hy

theorem NodesWf.freeBytes_le (h : NodesWf lo hi l) (hle : lo ≤ hi) : freeBytes l ≤ hi - lo := by
  induction l generalizing lo with
  | nil => simp
  | cons x l ih =>
    obtain ⟨-, hlo, hhi, -, -, hgap, hl⟩ := nodesWf_cons.1 h
    have htail : NodesWf (x.addr + x.size) hi l :=
      ⟨hl.coalesced, fun y hy => ⟨(hgap y hy).le, (hl.within y hy).2⟩, hl.aligned⟩
    have := ih htail hhi
    rw [freeBytes_cons]
    omega

theorem NodesWf.replace (h : NodesWf lo hi (l₁ ++ node :: l₂))
    (hleft : NodesWf node.addr (node.addr + node.size) left) :
    NodesWf lo hi (l₁ ++ left ++ l₂) := by
  obtain ⟨h₁, h₂, hgap⟩ := nodesWf_append.1 h
  obtain ⟨-, hlo, hhi, -, -, hgap₂, h₂⟩ := nodesWf_cons.1 h₂
  have hnode : ∀ x ∈ l₁, x.addr + x.size < node.addr :=
    fun x hx => hgap x hx node List.mem_cons_self
  have hleft' : NodesWf lo hi left := by
    refine ⟨hleft.coalesced, fun x hx => ?_, hleft.aligned⟩
    have := hleft.within x hx
    omega
  refine nodesWf_append.2 ⟨nodesWf_append.2 ⟨h₁, hleft', fun x hx y hy => ?_⟩, h₂,
    fun x hx y hy => ?_⟩
  · exact (hnode x hx).trans_le (hleft.within y hy).1
  · rcases List.mem_append.1 hx with hx | hx
    · exact hgap x hx y (List.mem_cons_of_mem _ hy)
    · exact (hleft.within x hx).2.trans_lt (hgap₂ y hy)

theorem NodesWf.covered_replace (h : NodesWf lo hi (l₁ ++ node :: l₂))
    (hleft : NodesWf node.addr (node.addr + node.size) left) :
    Covered (l₁ ++ left ++ l₂) a ↔
      Covered (l₁ ++ node :: l₂) a ∧ (Covers node a → Covered left a) := by
  obtain ⟨-, h₂, hgap⟩ := nodesWf_append.1 h
  obtain ⟨-, -, -, -, -, hgap₂, -⟩ := nodesWf_cons.1 h₂
  have hbefore : Covered l₁ a → ¬ Covers node a := by
    rintro ⟨x, hx, hxa⟩ hc
    have := hgap x hx node List.mem_cons_self
    rw [covers_node] at hxa hc
    omega
  have hafter : Covered l₂ a → ¬ Covers node a := by
    rintro ⟨x, hx, hxa⟩ hc
    have := hgap₂ x hx
    rw [covers_node] at hxa hc
    omega
  have hin : Covered left a → Covers node a := by
    rintro ⟨x, hx, hxa⟩
    have := hleft.within x hx
    rw [covers_node] at hxa ⊢
    omega
  simp only [covered_append, covered_cons]
  constructor
  · rintro ((hl₁ | hl) | hl₂)
    · exact ⟨.inl hl₁, fun hc => absurd hc (hbefore hl₁)⟩
    · exact ⟨.inr (.inl (hin hl)), fun _ => hl⟩
    · exact ⟨.inr (.inr hl₂), fun hc => absurd hc (hafter hl₂)⟩
  · rintro ⟨hl₁ | hc | hl₂, hleft⟩
    · exact .inl (.inl hl₁)
    · exact .inl (.inr (hleft hc))
    · exact .inr hl₂

theorem NodesWf.mem_le (h : NodesWf lo hi (l₁ ++ node :: l₂)) :
    0 < node.size ∧ lo ≤ node.addr ∧ node.addr + node.size ≤ hi ∧ node.addr % 8 = 0 ∧
      node.size % 8 = 0 := by
  obtain ⟨-, h₂, -⟩ := nodesWf_append.1 h
  obtain ⟨hpos, hlo, hhi, ha, hs, -⟩ := nodesWf_cons.1 h₂
  exact ⟨hpos, hlo, hhi, ha, hs⟩

end Nodes

section Alloc

variable {l left : List LmmNode} {node : LmmNode} {pick : Pick} {size addr a : ℕ} {g : GenArgs}

theorem pickFirst_spec (h : pickFirst size l = some pick) :
    l = pick.before ++ pick.node :: pick.after ∧ size ≤ pick.node.size ∧
    pick.addr = pick.node.addr := by
  induction l generalizing pick with
  | nil => simp [pickFirst] at h
  | cons node rest ih =>
    unfold pickFirst at h
    split_ifs at h with hsize
    · cases h
      exact ⟨rfl, hsize, rfl⟩
    · obtain ⟨pick', hpick, rfl⟩ := Option.map_eq_some_iff.1 h
      obtain ⟨hl, hs, ha⟩ := ih hpick
      exact ⟨congrArg (node :: ·) hl, hs, ha⟩

/-- The node that is picked passes the three tests, and those before it fail one of the first
two. -/
theorem pickGen_spec (h : pickGen g l = some pick) :
    l = pick.before ++ pick.node :: pick.after ∧ pick.addr = g.addrIn pick.node ∧
      g.size ≤ pick.node.size ∧
      ((g.addrIn
      pick.node + wordSize - pick.node.addr) % wordSize + g.size) % wordSize ≤ pick.node.size ∧
      (g.addrIn pick.node + g.size) % wordSize ≤ g.inMax ∧
      ∀ node ∈ pick.before, node.size < g.size ∨
        node.size < ((g.addrIn node + wordSize - node.addr) % wordSize + g.size) % wordSize := by
  induction l generalizing pick with
  | nil => simp [pickGen] at h
  | cons node rest ih =>
    unfold pickGen at h
    split_ifs at h with hsmall hout hpast
    · obtain ⟨pick', hpick, rfl⟩ := Option.map_eq_some_iff.1 h
      obtain ⟨hl, ha, hs, hin, hmax, hbefore⟩ := ih hpick
      exact ⟨congrArg (node :: ·) hl, ha, hs, hin, hmax,
        List.forall_mem_cons.2 ⟨.inl hsmall, hbefore⟩⟩
    · obtain ⟨pick', hpick, rfl⟩ := Option.map_eq_some_iff.1 h
      obtain ⟨hl, ha, hs, hin, hmax, hbefore⟩ := ih hpick
      exact ⟨congrArg (node :: ·) hl, ha, hs, hin, hmax,
        List.forall_mem_cons.2 ⟨.inr hout, hbefore⟩⟩
    · cases h
      exact ⟨rfl, rfl, not_lt.1 hsmall, not_lt.1 hout, not_lt.1 hpast, by simp⟩

/-- Where the sums do not wrap, the block lies in the node. -/
theorem pickGen_fits (hsize : 0 < g.size) (hbits : g.alignBits < 32) (hmin : g.inMin < wordSize)
    (h : pickGen g l = some pick) (hpos : 0 < pick.node.addr)
    (hword : g.start pick.node + g.size ≤ wordSize) :
    pick.addr = g.start pick.node ∧
    g.start pick.node + g.size ≤ pick.node.addr + pick.node.size := by
  obtain ⟨-, haddr, -, hin, -, -⟩ := pickGen_spec h
  have hle : pick.node.addr ≤ g.start pick.node := le_start.1
  have hstart : g.addrIn pick.node = g.start pick.node := by
    rw [addrIn_eq hbits hmin (by omega), Nat.mod_eq_of_lt (by omega)]
  rw [hstart] at haddr hin
  rw [show g.start pick.node + wordSize - pick.node.addr =
    g.start pick.node - pick.node.addr + wordSize by omega,
    Nat.add_mod_right, Nat.mod_eq_of_lt (by omega : g.start pick.node - pick.node.addr < wordSize),
    Nat.mod_eq_of_lt (by omega)] at hin
  exact ⟨haddr, by omega⟩

theorem takeHead_spec (node : LmmNode) (size : ℕ) (ha : node.addr % 8 = 0) (hs : node.size % 8 = 0)
    (hsize : size % 8 = 0) (hle : size ≤ node.size) :
    NodesWf (node.addr + size) (node.addr + node.size) (takeHead node size) ∧
      freeBytes (takeHead node size) + size = node.size ∧
      ∀ a, Covered (takeHead node size) a ↔ node.addr + size ≤ a ∧ a < node.addr + node.size := by
  unfold takeHead
  split_ifs with hlt
  · refine ⟨nodesWf_cons.2 ⟨?_, ?_, ?_, ?_, ?_, by simp, nodesWf_nil⟩, ?_, fun a => ?_⟩
    · simp only
      omega
    · exact le_rfl
    · simp only
      omega
    · simp only
      omega
    · simp only
      omega
    · simp only [freeBytes_cons, freeBytes_nil]
      omega
    · simp only [covered_cons, covered_nil, or_false, covers_node]
      omega
  · refine ⟨nodesWf_nil, ?_, fun a => ?_⟩
    · rw [freeBytes_nil]
      omega
    · simp only [covered_nil, false_iff]
      omega

/-- What `carve` leaves of a node that the block lies in. -/
theorem carve_spec (ha : node.addr % 8 = 0) (hs : node.size % 8 = 0)
    (hword : node.addr + node.size + 8 ≤ wordSize) (hlo : node.addr ≤ addr)
    (hlt : addr < node.addr + node.size) (hhi : addr + size ≤ node.addr + node.size)
    (hpos : 0 < blockSize addr size) :
    ∃ left, carve node addr size = some left ∧ NodesWf node.addr (node.addr + node.size) left ∧
      freeBytes left + blockSize addr size = node.size ∧
      ∀ a, Covered left a ↔ (node.addr ≤ a ∧ a < node.addr + node.size) ∧
        ¬ (alignDown addr ≤ a ∧ a < alignDown addr + blockSize addr size) := by
  have hdown : node.addr ≤ alignDown addr ∧ alignDown addr ≤ addr ∧ alignDown addr % 8 = 0 ∧
      addr = alignDown addr + alignMask addr := by
    unfold alignDown alignMask alignSize
    omega
  obtain ⟨hd₁, hd₂, hd₃, hd₄⟩ := hdown
  have hmod := blockSize_mod addr size
  -- the block ends where the node does, at most
  have hfit : alignDown addr + blockSize addr size ≤ node.addr + node.size := by
    have := blockSize_spec addr size (by unfold alignMask alignSize at *; omega)
    omega
  unfold carve
  simp only
  rw [if_neg (by omega)]
  split_ifs with hsplit
  · obtain ⟨hwf, hbytes, hcov⟩ := takeHead_spec
      ⟨alignDown addr, node.size - (alignDown addr - node.addr)⟩ (blockSize addr size) hd₃
      (by simp only; omega) hmod (by simp only; omega)
    simp only at hwf hbytes hcov
    refine ⟨_, rfl, nodesWf_cons.2 ⟨?_, le_rfl, ?_, ha, ?_, fun y hy => ?_, ?_⟩, ?_, fun a => ?_⟩
    · simp only
      omega
    · simp only
      omega
    · simp only
      omega
    · have := (hwf.within y hy).1
      simp only
      omega
    · exact ⟨hwf.coalesced, fun y hy => by have := hwf.within y hy; omega, hwf.aligned⟩
    · simp only [freeBytes_cons]
      omega
    · rw [covered_cons, hcov, covers_node]
      simp only
      omega
  · have heq : alignDown addr = node.addr := by omega
    obtain ⟨hwf, hbytes, hcov⟩ := takeHead_spec node (blockSize addr size) ha hs hmod (by omega)
    refine ⟨_, rfl, ⟨hwf.coalesced, fun y hy => by have := hwf.within y hy; omega, hwf.aligned⟩,
      hbytes, fun a => ?_⟩
    rw [hcov, heq]
    omega

end Alloc

section Free

variable {lo hi a : ℕ} {l rest : List LmmNode} {node prevnode nextnode : LmmNode}

theorem joinNext_cons : joinNext node (nextnode :: rest) =
    if nextnode.addr ≤ (node.addr + node.size) % wordSize then
      some (⟨node.addr, node.size + nextnode.size⟩ :: rest)
    else some (node :: nextnode :: rest) := rfl

/-- A step of the loop of `lmm_free`. -/
theorem freeNode_cons₂ (hbefore : prevnode.addr < node.addr) :
    freeNode node (prevnode :: nextnode :: rest) =
    if nextnode.addr < node.addr then (freeNode node (nextnode :: rest)).map (prevnode :: ·)
    else if node.addr ≤ (prevnode.addr + prevnode.size) % wordSize then
      if nextnode.addr ≤ (node.addr + node.size) % wordSize then
        some (⟨prevnode.addr, prevnode.size + (node.size + nextnode.size)⟩ :: rest)
      else some (⟨prevnode.addr, prevnode.size + node.size⟩ :: nextnode :: rest)
    else (joinNext node (nextnode :: rest)).map (prevnode :: ·) := by
  rw [freeNode.eq_def]
  simp only [if_pos hbefore, List.tail_cons]

theorem freeNode_of_le (hafter : ¬ prevnode.addr < node.addr) :
    freeNode node (prevnode :: rest) = joinNext node (prevnode :: rest) := by
  rw [freeNode.eq_def]
  simp only [if_neg hafter]

theorem joinNext_spec (h : NodesWf lo hi (nextnode :: rest)) (hword : hi < wordSize)
    (hpos : 0 < node.size)
    (hlo : lo ≤ node.addr) (hle : node.addr + node.size ≤ nextnode.addr) (ha : node.addr % 8 = 0)
    (hs : node.size % 8 = 0) :
    ∃ l, joinNext node (nextnode :: rest) = some l ∧ NodesWf lo hi l ∧
      freeBytes l = node.size + freeBytes (nextnode :: rest) ∧
      ∀ a, Covered l a ↔ Covers node a ∨ Covered (nextnode :: rest) a := by
  obtain ⟨hn, hnlo, hnhi, hna, hns, hgap, hrest⟩ := nodesWf_cons.1 h
  rw [joinNext_cons, Nat.mod_eq_of_lt (by omega)]
  split_ifs with hjoin
  · have heq : node.addr + node.size = nextnode.addr := le_antisymm hle hjoin
    refine ⟨_, rfl, nodesWf_cons.2 ⟨?_, hlo, ?_, ha, ?_, fun y hy => ?_, hrest⟩, ?_, fun a => ?_⟩
    · simp only
      omega
    · simp only
      omega
    · simp only
      omega
    · have := hgap y hy
      simp only
      omega
    · simp only [freeBytes_cons]
      omega
    · simp only [covered_cons, covers_node, ← or_assoc]
      refine or_congr_left ?_
      omega
  · refine ⟨_, rfl, nodesWf_cons.2 ⟨hpos, hlo, by omega, ha, hs, fun y hy => ?_, h⟩, ?_,
      fun a => ?_⟩
    · rcases List.mem_cons.1 hy with rfl | hy
      · omega
      · have := hgap y hy
        omega
    · simp only [freeBytes_cons]
    · simp only [covered_cons]

theorem NodesWf.cons_freed {l' : List LmmNode} (h : NodesWf lo hi (prevnode :: rest))
    (hbefore : prevnode.addr + prevnode.size < node.addr) (hwf : NodesWf lo hi l')
    (hbytes : freeBytes l' = node.size + freeBytes rest)
    (hcov : ∀ a, Covered l' a ↔ Covers node a ∨ Covered rest a) :
    NodesWf lo hi (prevnode :: l') ∧ freeBytes (prevnode :: l') =
    node.size + freeBytes (prevnode :: rest) ∧
      ∀ a, Covered (prevnode :: l') a ↔ Covers node a ∨ Covered (prevnode :: rest) a := by
  obtain ⟨hp, hplo, hphi, hpa, hps, hgap, hrest⟩ := nodesWf_cons.1 h
  refine ⟨nodesWf_cons.2 ⟨hp, hplo, hphi, hpa, hps, fun y hy => ?_, hwf⟩, ?_, fun a => ?_⟩
  · have hy' : Covered l' y.addr := ⟨y, hy, le_rfl, hwf.coalesced.nonempty y hy⟩
    rcases (hcov y.addr).1 hy' with hc | ⟨x, hx, hc⟩
    · rw [covers_node] at hc
      omega
    · have := hgap x hx
      rw [covers_node] at hc
      omega
  · simp only [freeBytes_cons]
    omega
  · rw [covered_cons, hcov, covered_cons (x := prevnode), or_left_comm]

/-- A block is freed while a node is behind it. -/
theorem freeNode_spec (h : NodesWf lo hi l) (hword : hi < wordSize) (hpos : 0 < node.size)
    (hlo : lo ≤ node.addr) (ha : node.addr % 8 = 0) (hs : node.size % 8 = 0)
    (hfree : ∀ a, Covers node a → ¬ Covered l a) (hnext : ∃ x ∈ l, node.addr ≤ x.addr) :
    ∃ l', freeNode node l = some l' ∧ NodesWf lo hi l' ∧ freeBytes l' = node.size + freeBytes l ∧
      ∀ a, Covered l' a ↔ Covers node a ∨ Covered l a := by
  induction l with
  | nil => simp at hnext
  | cons prevnode rest ih =>
    obtain ⟨hp, hplo, hphi, hpa, hps, hgap, hrest⟩ := nodesWf_cons.1 h
    -- the block and a node do not overlap
    have hapart : ∀ x ∈ prevnode :: rest, node.addr ≤ x.addr → node.addr + node.size ≤ x.addr := by
      intro x hx hle
      by_contra hlt
      have hxpos := (h.coalesced.nonempty x hx)
      simp only [start_node, stop_node] at hxpos
      exact hfree x.addr (covers_node.2 ⟨hle, by omega⟩) ⟨x, hx, covers_node.2 ⟨le_rfl, hxpos⟩⟩
    have hend : ∀ x ∈ prevnode :: rest, x.addr ≤ node.addr → x.addr + x.size ≤ node.addr := by
      intro x hx hle
      by_contra hlt
      exact hfree node.addr (covers_node.2 ⟨le_rfl, by omega⟩) ⟨x, hx,
        covers_node.2 ⟨hle, by omega⟩⟩
    by_cases hbefore : prevnode.addr < node.addr
    · have hpend := hend prevnode List.mem_cons_self hbefore.le
      cases rest with
      | nil =>
        obtain ⟨x, hx, hle⟩ := hnext
        obtain rfl := List.mem_singleton.1 hx
        omega
      | cons nextnode rest =>
        have hnmem : nextnode ∈ prevnode :: nextnode :: rest := by simp
        have hgapn := hgap nextnode List.mem_cons_self
        rw [freeNode_cons₂ hbefore]
        split_ifs with hgo hjoin hboth
        · -- more nodes are before the block
          have hnext' : ∃ x ∈ nextnode :: rest, node.addr ≤ x.addr := by
            obtain ⟨x, hx, hle⟩ := hnext
            rcases List.mem_cons.1 hx with rfl | hx
            · omega
            · exact ⟨x, hx, hle⟩
          obtain ⟨l', hl', hwf, hbytes, hcov⟩ := ih hrest
            (fun a hca hc => hfree a hca (covered_cons.2 (.inr hc))) hnext'
          rw [hl']
          exact ⟨_, rfl, h.cons_freed (by omega) hwf hbytes hcov⟩
        · -- the block joins the nodes on both sides
          rw [Nat.mod_eq_of_lt (by omega)] at hjoin
          have hnle := hapart nextnode hnmem (by omega)
          rw [Nat.mod_eq_of_lt (by have := (hrest.within nextnode List.mem_cons_self).2; omega)]
            at hboth
          obtain ⟨hn, -, hnhi, -, hns, hgap₂, hrest₂⟩ := nodesWf_cons.1 hrest
          refine ⟨_, rfl, nodesWf_cons.2 ⟨?_, hplo, ?_, hpa, ?_, fun y hy => ?_, hrest₂⟩, ?_,
            fun a => ?_⟩
          · simp only
            omega
          · simp only
            omega
          · simp only
            omega
          · have := hgap₂ y hy
            simp only
            omega
          · simp only [freeBytes_cons]
            omega
          · simp only [covered_cons, covers_node, ← or_assoc]
            refine or_congr_left ?_
            omega
        · -- with the one before it
          rw [Nat.mod_eq_of_lt (by omega)] at hjoin
          have hnle := hapart nextnode hnmem (by omega)
          rw [Nat.mod_eq_of_lt (by have := (hrest.within nextnode List.mem_cons_self).2; omega)]
            at hboth
          have hgap₂ := (nodesWf_cons.1 hrest).2.2.2.2.2.1
          have hnhi := (hrest.within nextnode List.mem_cons_self).2
          refine ⟨_, rfl, nodesWf_cons.2 ⟨?_, hplo, ?_, hpa, ?_, fun y hy => ?_, hrest⟩, ?_,
            fun a => ?_⟩
          · simp only
            omega
          · simp only
            omega
          · simp only
            omega
          · simp only
            rcases List.mem_cons.1 hy with rfl | hy
            · omega
            · have := hgap₂ y hy
              omega
          · simp only [freeBytes_cons]
            omega
          · simp only [covered_cons, covers_node, ← or_assoc]
            refine or_congr_left (or_congr_left ?_)
            omega
        · rw [Nat.mod_eq_of_lt (by omega)] at hjoin
          have hnle := hapart nextnode hnmem (by omega)
          obtain ⟨l', hl', hwf, hbytes, hcov⟩ := joinNext_spec hrest hword hpos hlo hnle ha hs
          rw [hl']
          exact ⟨_, rfl, h.cons_freed (by omega) hwf hbytes hcov⟩
    · have hple := hapart prevnode List.mem_cons_self (by omega)
      rw [freeNode_of_le hbefore]
      exact joinNext_spec h hword hpos hlo hple ha hs

/-- With no node behind the block, `lmm_free` reads a null pointer. -/
theorem freeNode_none (h : ∀ x ∈ l, x.addr < node.addr) : freeNode node l = none := by
  induction l with
  | nil => rfl
  | cons prevnode rest ih =>
    have hbefore := h prevnode List.mem_cons_self
    cases rest with
    | nil =>
      rw [freeNode, if_pos hbefore]
    | cons nextnode rest =>
      rw [freeNode_cons₂ hbefore, if_pos (h nextnode (by simp)),
        ih fun x hx => h x (List.mem_cons_of_mem _ hx)]
      rfl

theorem freeNode_empty (h : NodesWf lo hi l) (hword : hi < wordSize) (hsize : node.size = 0)
    (hin : ∃ x ∈ l, x.addr ≤ node.addr ∧ node.addr ≤ x.addr + x.size)
    (hnext : ∃ x ∈ l, node.addr ≤ x.addr) : freeNode node l = some l := by
  obtain ⟨addr, size⟩ := node
  simp only at hsize hin hnext
  subst hsize
  induction l with
  | nil => simp at hnext
  | cons prevnode rest ih =>
    obtain ⟨hp, hplo, hphi, hpa, hps, hgap, hrest⟩ := nodesWf_cons.1 h
    by_cases hbefore : prevnode.addr < addr
    · cases rest with
      | nil =>
        obtain ⟨x, hx, hle⟩ := hnext
        obtain rfl := List.mem_singleton.1 hx
        omega
      | cons nextnode rest =>
        have hgapn := hgap nextnode List.mem_cons_self
        have hgap₂ := (nodesWf_cons.1 hrest).2.2.2.2.2.1
        -- which node has the address
        have hwhere : addr ≤ prevnode.addr + prevnode.size ∨ nextnode.addr ≤ addr := by
          obtain ⟨x, hx, hle, hge⟩ := hin
          rcases List.mem_cons.1 hx with rfl | hx
          · exact .inl hge
          · rcases List.mem_cons.1 hx with rfl | hx
            · exact .inr hle
            · have := hgap₂ x hx
              omega
        rw [freeNode_cons₂ hbefore]
        simp only [Nat.add_zero]
        split_ifs with hgo hjoin hboth
        · have hin' : ∃ x ∈ nextnode :: rest, x.addr ≤ addr ∧ addr ≤ x.addr + x.size := by
            obtain ⟨x, hx, hle, hge⟩ := hin
            rcases List.mem_cons.1 hx with rfl | hx
            · omega
            · exact ⟨x, hx, hle, hge⟩
          have hnext' : ∃ x ∈ nextnode :: rest, addr ≤ x.addr := by
            obtain ⟨x, hx, hle⟩ := hnext
            rcases List.mem_cons.1 hx with rfl | hx
            · omega
            · exact ⟨x, hx, hle⟩
          rw [ih hrest hin' hnext']
          rfl
        · rw [Nat.mod_eq_of_lt (by omega)] at hjoin
          rw [Nat.mod_eq_of_lt (by omega)] at hboth
          omega
        · rfl
        · rw [Nat.mod_eq_of_lt (by omega)] at hjoin
          have heq : addr = nextnode.addr := by omega
          rw [joinNext_cons]
          simp only
          rw [Nat.mod_eq_of_lt (by have := (hrest.within nextnode List.mem_cons_self).2; omega),
            if_pos (by omega), heq, Nat.zero_add]
          rfl
    · have heq : addr = prevnode.addr := by
        obtain ⟨x, hx, hle, -⟩ := hin
        rcases List.mem_cons.1 hx with rfl | hx
        · omega
        · have := hgap x hx
          omega
      rw [freeNode_of_le hbefore, joinNext_cons]
      simp only
      rw [Nat.mod_eq_of_lt (by omega), if_pos (by omega), heq, Nat.zero_add]

end Free

section Sound

/-- The units of a block. -/
def blockNode (b : ℕ × ℕ) : LmmNode := ⟨alignDown b.1, blockSize b.1 b.2⟩

structure RegionWf (r : LmmRegion) : Prop where
  pos : 0 < r.addr
  aligned : r.addr % 8 = 0 ∧ r.size % 8 = 0
  large : regionSize + alignSize ≤ r.size
  word : r.addr + r.size < wordSize
  nodes : NodesWf (r.addr + regionSize) (r.addr + r.size) r.nodes
  free : r.free = freeBytes r.nodes

/-- A region has `a` behind its header. -/
def Usable (r : LmmRegion) (a : ℕ) : Prop := r.addr + regionSize ≤ a ∧ a < r.addr + r.size

def RegionsApart (r r' : LmmRegion) : Prop := r.addr + r.size ≤ r'.addr ∨ r'.addr + r'.size ≤ r.addr

/-- The free bytes of the regions are those that are not in the units of a block. -/
structure Sound (s : State) : Prop where
  regions : ∀ r ∈ s.lmm, RegionWf r
  apart : s.lmm.Pairwise RegionsApart
  ranges : ∀ r ∈ s.lmm, ∃ g ∈ s.ranges, g.1 ≤ r.addr ∧ r.addr + r.size ≤ g.1 + g.2
  within : ∀ b ∈ s.blocks, ∃ r ∈ s.lmm, r.addr + regionSize ≤ (blockNode b).addr ∧
    (blockNode b).addr < r.addr + r.size ∧ (blockNode b).addr + (blockNode b).size ≤ r.addr + r.size
  sizes : ∀ b ∈ s.blocks, alignMask b.1 + b.2 + 7 < wordSize
  blocks : s.blocks.Pairwise fun b b' => ∀ a, Covers (blockNode b) a → ¬ Covers (blockNode b') a
  free : ∀ r ∈ s.lmm, ∀ a, Covered r.nodes a ↔
    Usable r a ∧ ∀ b ∈ s.blocks, ¬ Covers (blockNode b) a

variable {s : State} {rs rs' : List LmmRegion} {r reg : LmmRegion} {lmm lmm' : LmmT}

theorem sound_init : Sound lmmInit :=
  ⟨by simp [lmmInit], .nil, by simp [lmmInit], by simp [lmmInit], by simp [lmmInit],
    .nil, by simp [lmmInit]⟩

theorem RegionsApart.symm (h : RegionsApart r reg) : RegionsApart reg r := Or.symm h

theorem Sound.others (h : Sound s) (hlmm : s.lmm = rs ++ reg :: rs') :
    ∀ r ∈ rs ++ rs', RegionsApart reg r := by
  have hap := h.apart
  rw [hlmm, List.pairwise_append, List.pairwise_cons] at hap
  intro r hr
  rcases List.mem_append.1 hr with hr | hr
  · exact (hap.2.2 r hr reg List.mem_cons_self).symm
  · exact hap.2.1.1 r hr

theorem Sound.mem (hlmm : s.lmm = rs ++ reg :: rs') : reg ∈ s.lmm := by
  rw [hlmm]
  exact List.mem_append_right _ List.mem_cons_self

theorem not_usable (h : RegionsApart reg r) {a : ℕ} (ha : Usable reg a) : ¬ Usable r a := by
  unfold RegionsApart Usable at *
  omega

theorem Sound.change (h : Sound s) (hlmm : s.lmm = rs ++ reg :: rs') {nodes : List LmmNode}
    {free : ℕ}
    {blocks : List (ℕ × ℕ)} (hnodes : NodesWf (reg.addr + regionSize) (reg.addr + reg.size) nodes)
    (hfree : free = freeBytes nodes)
    (hwithin : ∀ b ∈ blocks, b ∉ s.blocks → reg.addr + regionSize ≤ (blockNode b).addr ∧
      (blockNode b).addr < reg.addr + reg.size ∧
      (blockNode b).addr + (blockNode b).size ≤ reg.addr + reg.size)
    (hsizes : ∀ b ∈ blocks, alignMask b.1 + b.2 + 7 < wordSize)
    (hblocks : blocks.Pairwise fun b b' => ∀ a, Covers (blockNode b) a → ¬ Covers (blockNode b') a)
    (hcov : ∀ a, Covered nodes a ↔ Usable reg a ∧ ∀ b ∈ blocks, ¬ Covers (blockNode b) a)
    (hsame : ∀ a, ¬ Usable reg a →
      ((∀ b ∈ blocks, ¬ Covers (blockNode b) a) ↔ ∀ b ∈ s.blocks, ¬ Covers (blockNode b) a)) :
    Sound { s with
      lmm := rs ++ { reg with nodes := nodes, free := free } :: rs'
      blocks := blocks } := by
  have hreg := h.regions reg (Sound.mem hlmm)
  -- another region, or the one that changed
  have hmem : ∀ r, r ∈ rs ++ { reg with nodes := nodes, free := free } :: rs' →
      r = { reg with nodes := nodes, free := free } ∨ (r ∈ s.lmm ∧ RegionsApart reg r) := by
    intro r hr
    have hr' : r = { reg with nodes := nodes, free := free } ∨ r ∈ rs ++ rs' := by
      simp only [List.mem_append, List.mem_cons] at hr ⊢
      exact or_left_comm.1 hr
    rcases hr' with rfl | hr'
    · exact .inl rfl
    · refine .inr ⟨?_, h.others hlmm r hr'⟩
      rw [hlmm]
      simp only [List.mem_append, List.mem_cons] at hr' ⊢
      exact hr'.imp_right .inr
  refine ⟨fun r hr => ?_, ?_, fun r hr => ?_, fun b hb => ?_, hsizes, hblocks, fun r hr a => ?_⟩
  · rcases hmem r hr with rfl | ⟨hr, -⟩
    · exact ⟨hreg.pos, hreg.aligned, hreg.large, hreg.word, hnodes, hfree⟩
    · exact h.regions r hr
  · have hap := h.apart
    rw [hlmm, List.pairwise_append, List.pairwise_cons] at hap
    refine List.pairwise_append.2 ⟨hap.1, List.pairwise_cons.2 ⟨hap.2.1.1, hap.2.1.2⟩,
      fun x hx y hy => ?_⟩
    rcases List.mem_cons.1 hy with rfl | hy
    · exact hap.2.2 x hx reg List.mem_cons_self
    · exact hap.2.2 x hx y (List.mem_cons_of_mem _ hy)
  · rcases hmem r hr with rfl | ⟨hr, -⟩
    · exact h.ranges reg (Sound.mem hlmm)
    · exact h.ranges r hr
  · have hnew : { reg with nodes := nodes, free := free }
        ∈ rs ++ { reg with nodes := nodes, free := free } :: rs' := by simp
    by_cases hb' : b ∈ s.blocks
    · obtain ⟨r, hr, hw⟩ := h.within b hb'
      by_cases hrr : r = reg
      · subst hrr
        exact ⟨_, hnew, hw⟩
      · refine ⟨r, ?_, hw⟩
        rw [hlmm] at hr
        simp only [List.mem_append, List.mem_cons] at hr ⊢
        exact hr.imp_right fun hr => .inr (hr.resolve_left hrr)
    · exact ⟨_, hnew, hwithin b hb hb'⟩
  · rcases hmem r hr with rfl | ⟨hr, hap⟩
    · exact hcov a
    · rw [h.free r hr a]
      refine and_congr_right fun hu => ?_
      exact (hsame a fun hc => not_usable hap hc hu).symm

end Sound

section AllocSound

variable {s : State} {rs rs' : List LmmRegion} {reg : LmmRegion} {pick : Pick} {left : List LmmNode}

theorem Sound.alloc (addr size : ℕ) (h : Sound s) (hlmm : s.lmm = rs ++ reg :: rs')
    (hnodes : reg.nodes = pick.before ++ pick.node :: pick.after)
    (hleft : NodesWf pick.node.addr (pick.node.addr + pick.node.size) left)
    (hbytes : freeBytes left + blockSize addr size = pick.node.size)
    (hcov : ∀ a, Covered left a ↔ Covers pick.node a ∧ ¬ Covers (blockNode (addr, size)) a)
    (hlo : pick.node.addr ≤ alignDown addr) (hlt : alignDown addr < pick.node.addr + pick.node.size)
    (hhi : alignDown addr + blockSize addr size ≤ pick.node.addr + pick.node.size)
    (hsize : alignMask addr + size + 7 < wordSize) :
    Sound { s with
      lmm := rs ++ pick.give reg left (blockSize addr size) :: rs'
      blocks := (addr, size) :: s.blocks } := by
  have hreg := h.regions reg (Sound.mem hlmm)
  have hwf := hreg.nodes
  rw [hnodes] at hwf
  have hmem := hwf.mem_le
  have hfree := h.free reg (Sound.mem hlmm)
  have hword := hreg.word
  have hpick : ∀ a, Covers pick.node a → Covered reg.nodes a := by
    intro a ha
    rw [hnodes]
    exact covered_append.2 (.inr (covered_cons.2 (.inl ha)))
  have hin : ∀ a, Covers (blockNode (addr, size)) a → Covers pick.node a := by
    intro a ha
    rw [covers_node] at ha ⊢
    simp only [blockNode] at ha
    omega
  refine h.change hlmm (hwf.replace hleft) ?_ (fun b hb hnot => ?_)
    (fun b hb => ?_) ?_ (fun a => ?_)
    fun a ha => ?_
  · have hle := hreg.nodes.freeBytes_le (by have := hreg.large; omega)
    rw [hreg.free]
    rw [hnodes] at hle ⊢
    simp only [freeBytes_append, freeBytes_cons] at hle ⊢
    rw [Nat.add_comm, Nat.add_sub_assoc (by omega), Nat.add_mod_left, Nat.mod_eq_of_lt (by omega)]
    omega
  · rcases List.mem_cons.1 hb with rfl | hb
    · simp only [blockNode]
      omega
    · exact absurd hb hnot
  · rcases List.mem_cons.1 hb with rfl | hb
    · exact hsize
    · exact h.sizes b hb
  · refine List.pairwise_cons.2 ⟨fun b hb a ha hc => ?_, h.blocks⟩
    exact ((hfree a).1 (hpick a (hin a ha))).2 b hb hc
  · rw [hwf.covered_replace hleft, ← hnodes, hfree, hcov]
    simp only [List.forall_mem_cons]
    constructor
    · rintro ⟨⟨hu, hb⟩, hp⟩
      exact ⟨hu, fun hc => (hp (hin a hc)).2 hc, hb⟩
    · rintro ⟨hu, hnot, hb⟩
      exact ⟨⟨hu, hb⟩, fun hp => ⟨hp, hnot⟩⟩
  · simp only [List.forall_mem_cons]
    refine and_iff_right fun hc => ha ?_
    exact ((hfree a).1 (hpick a (hin a hc))).1

end AllocSound

section Steps

variable {s : State} {lmm lmm' : LmmT} {size addr : ℕ} {flags : BitVec 32} {g : GenArgs}

/-- `lmm_alloc` takes the first node that is large enough, or leaves everything as it is. -/
theorem allocFrom_spec (h : allocFrom size flags lmm = (addr, lmm')) : (addr = 0 ∧ lmm' = lmm) ∨
    ∃ rs reg rs' pick, lmm = rs ++ reg :: rs' ∧ pickFirst size reg.nodes = some pick ∧
      addr = pick.addr ∧ lmm' = rs ++ pick.give reg (takeHead pick.node size) size :: rs' := by
  induction lmm generalizing addr lmm' with
  | nil =>
    cases h
    exact .inl ⟨rfl, rfl⟩
  | cons reg rest ih =>
    -- the search goes on in the other regions
    have hgo : ((allocFrom size flags rest).1, reg :: (allocFrom size flags rest).2) =
        (addr, lmm') →
        (addr = 0 ∧ lmm' = reg :: rest) ∨ ∃ rs r rs' pick, reg :: rest = rs ++ r :: rs' ∧
          pickFirst size r.nodes = some pick ∧ addr = pick.addr ∧
          lmm' = rs ++ pick.give r (takeHead pick.node size) size :: rs' := by
      intro heq
      cases heq
      have heta : allocFrom size flags rest =
        ((allocFrom size flags rest).1, (allocFrom size flags rest).2) := rfl
      rcases ih heta with ⟨h₁, h₂⟩ | ⟨rs, r, rs', pick, h₁, h₂, h₃, h₄⟩
      · exact .inl ⟨h₁, congrArg (reg :: ·) h₂⟩
      · exact .inr ⟨reg :: rs, r, rs', pick, congrArg (reg :: ·) h₁, h₂, h₃, congrArg (reg :: ·) h₄⟩
    unfold allocFrom at h
    split_ifs at h with hflags
    · exact hgo h
    · split at h
      · rename_i pick hpick
        cases h
        exact .inr ⟨[], reg, rest, pick, rfl, hpick, rfl, rfl⟩
      · exact hgo h

theorem Sound.got_alloc (h : Sound s) (hsize : size + 7 < wordSize)
    (halloc : lmmAlloc s.lmm size flags = (addr, lmm')) : Sound (s.got size addr lmm') := by
  unfold State.got
  rcases allocFrom_spec halloc with ⟨rfl, rfl⟩ | ⟨rs, reg, rs', pick, hlmm, hpick, rfl, rfl⟩
  · rw [if_pos rfl]
    exact h
  · obtain ⟨hnodes, hle, haddr⟩ := pickFirst_spec hpick
    have hreg := h.regions reg (Sound.mem hlmm)
    have hwf := hreg.nodes
    rw [hnodes] at hwf
    obtain ⟨hpos, hlo, hhi, ha, hs⟩ := hwf.mem_le
    have hrpos := hreg.pos
    have hdown : alignDown pick.addr = pick.node.addr := by
      rw [haddr]
      exact alignDown_of_mod ha
    have hmask : alignMask pick.addr = 0 := by
      rw [haddr]
      exact ha
    have hblock : blockSize pick.addr size = alignUp size := by
      unfold blockSize
      rw [hmask, Nat.zero_add]
    obtain ⟨htake, hbytes, hcov⟩ :=
      takeHead_spec pick.node (alignUp size) ha hs (alignUp_mod size) hle
    rw [if_neg (by omega)]
    have hleft : NodesWf pick.node.addr (pick.node.addr + pick.node.size)
        (takeHead pick.node (alignUp size)) := by
      refine ⟨htake.coalesced, fun x hx => ?_, htake.aligned⟩
      have := htake.within x hx
      omega
    have hinv := h.alloc pick.addr size hlmm hnodes hleft (by rw [hblock]; exact hbytes)
      (fun a => ?_)
      hdown.ge (by omega) (by rw [hblock]; omega) (by rw [hmask]; omega)
    · rw [hblock] at hinv
      exact hinv
    · rw [hcov, covers_node, covers_node]
      simp only [blockNode]
      rw [hdown, hblock]
      omega

/-- The block is from the first region that is not rejected and has a node for it. -/
theorem lmmAllocGen_spec (g : GenArgs) (lmm : LmmT) :
    (lmmAllocGen g lmm = some (0, lmm) ∧ ∀ r ∈ lmm, g.rejects r ∨ pickGen g r.nodes = none) ∨
    ∃ rs reg rs' pick, lmm = rs ++ reg :: rs' ∧
      (∀ r ∈ rs, g.rejects r ∨ pickGen g r.nodes = none) ∧ ¬ g.rejects reg ∧
      pickGen g reg.nodes = some pick ∧
      lmmAllocGen g lmm = (carve pick.node pick.addr g.size).map fun left =>
        (pick.addr, rs ++ pick.give reg left (blockSize pick.addr g.size) :: rs') := by
  induction lmm with
  | nil => exact .inl ⟨rfl, by simp⟩
  | cons reg rest ih =>
    by_cases hskip : g.rejects reg ∨ pickGen g reg.nodes = none
    · have hgo : lmmAllocGen g (reg :: rest) =
          (lmmAllocGen g rest).map fun x => (x.1, reg :: x.2) := by
        rw [lmmAllocGen]
        split
        · rfl
        · next hrej => rw [hskip.resolve_left hrej]
      rw [hgo]
      rcases ih with ⟨halloc, hall⟩ | ⟨rs, r, rs', pick, hrest, hall, hrej, hpick, halloc⟩
      · exact .inl ⟨by rw [halloc]; rfl, List.forall_mem_cons.2 ⟨hskip, hall⟩⟩
      · refine .inr ⟨reg :: rs, r, rs', pick, congrArg (reg :: ·) hrest,
          List.forall_mem_cons.2 ⟨hskip, hall⟩, hrej, hpick, ?_⟩
        rw [halloc, Option.map_map]
        rfl
    · obtain ⟨hrej, hsome⟩ := not_or.1 hskip
      obtain ⟨pick, hpick⟩ := Option.ne_none_iff_exists'.1 hsome
      refine .inr ⟨[], reg, rest, pick, rfl, by simp, hrej, hpick, ?_⟩
      rw [lmmAllocGen, if_neg hrej, hpick]
      rfl

theorem Sound.got_allocGen (h : Sound s) (hwrap : g.NoWrap s.lmm) :
    ∃ addr lmm', lmmAllocGen g s.lmm = some (addr, lmm') ∧ Sound (s.got g.size addr lmm') := by
  rcases lmmAllocGen_spec g s.lmm with ⟨halloc, -⟩ | ⟨rs, reg, rs', pick, hlmm, -, -, hgen, halloc⟩
  · refine ⟨_, _, halloc, ?_⟩
    unfold State.got
    rw [if_pos rfl]
    exact h
  · obtain ⟨hgpos, hbits, hmin, hends⟩ := hwrap
    obtain ⟨hnodes, -, hlarge, -⟩ := pickGen_spec hgen
    have hreg := h.regions reg (Sound.mem hlmm)
    have hmem : pick.node ∈ reg.nodes := by
      rw [hnodes]
      exact List.mem_append_right _ List.mem_cons_self
    have hwf := hreg.nodes
    rw [hnodes] at hwf
    obtain ⟨hpos, hnlo, hnhi, ha, hs⟩ := hwf.mem_le
    have hword := hreg.word
    have hal := hreg.aligned
    have hrpos := hreg.pos
    have hword' : pick.node.addr + pick.node.size + 8 ≤ wordSize := by
      unfold wordSize at hword ⊢
      omega
    obtain ⟨hstart, hhi⟩ := pickGen_fits hgpos hbits hmin hgen (by omega)
      (hends reg (Sound.mem hlmm) pick.node hmem hlarge)
    have hlo : pick.node.addr ≤ g.start pick.node := le_start.1
    rw [← hstart] at hhi hlo
    have hdown : pick.node.addr ≤ alignDown pick.addr ∧ alignDown pick.addr ≤ pick.addr := by
      unfold alignDown alignSize
      omega
    have hmask : alignMask pick.addr + alignDown pick.addr = pick.addr := by
      unfold alignDown alignMask alignSize
      omega
    have hsize : alignMask pick.addr + g.size + 7 < wordSize := by omega
    have hblock := blockSize_spec pick.addr g.size hsize
    obtain ⟨left, hcarve, hleft, hbytes, hcov⟩ :=
      carve_spec ha hs hword' hlo (by omega) hhi (by omega)
    have hmod := blockSize_mod pick.addr g.size
    have hmod' := alignDown_mod pick.addr
    rw [hcarve] at halloc
    refine ⟨_, _, halloc, ?_⟩
    unfold State.got
    rw [if_neg (by omega)]
    refine h.alloc pick.addr g.size hlmm hnodes hleft hbytes (fun a => ?_) hdown.1 (by omega)
      (by omega) hsize
    rw [hcov]
    rfl

end Steps

section FreeSound

variable {s : State} {lmm lmm' : LmmT} {r reg : LmmRegion} {node : LmmNode} {block size : ℕ}

/-- `lmm_free` goes to the region that has the block. -/
theorem freeTo_eq (hwf : ∀ r ∈ lmm, RegionWf r) (hap : lmm.Pairwise RegionsApart) (hreg : reg ∈ lmm)
    (hin : Usable reg node.addr) : ∃ rs rs', lmm = rs ++ reg :: rs' ∧
      freeTo node lmm = (freeNode node reg.nodes).map fun nodes =>
        rs ++ { reg with nodes := nodes, free := (reg.free + node.size) % wordSize } :: rs' := by
  induction lmm with
  | nil => simp at hreg
  | cons r lmm ih =>
    obtain ⟨hr, hrest⟩ := List.forall_mem_cons.1 hwf
    obtain ⟨hhead, htail⟩ := List.pairwise_cons.1 hap
    have hword := hr.word
    unfold Usable at hin
    rcases List.mem_cons.1 hreg with rfl | hreg
    · refine ⟨[], lmm, rfl, ?_⟩
      rw [freeTo, if_pos]
      · rfl
      · rw [Nat.mod_eq_of_lt hword]
        omega
    · obtain ⟨rs, rs', hlmm, hfree⟩ := ih hrest htail hreg
      refine ⟨r :: rs, rs', congrArg (r :: ·) hlmm, ?_⟩
      have haway := hhead reg hreg
      rw [freeTo, if_neg, hfree, Option.map_map]
      · rfl
      · rw [Nat.mod_eq_of_lt hword]
        unfold RegionsApart at haway
        omega

theorem Sound.freeTo_eq (h : Sound s) (hreg : reg ∈ s.lmm) (hin : Usable reg node.addr) :
    ∃ rs rs', s.lmm = rs ++ reg :: rs' ∧
      freeTo node s.lmm = (freeNode node reg.nodes).map fun nodes =>
        rs ++ { reg with nodes := nodes, free := (reg.free + node.size) % wordSize } :: rs' :=
  Lmm.freeTo_eq h.regions h.apart hreg hin

instance : Std.Symm RegionsApart := ⟨fun _ _ => RegionsApart.symm⟩

theorem Sound.region_unique (h : Sound s) (hr : r ∈ s.lmm) (hreg : reg ∈ s.lmm) {a : ℕ}
    (ha : Usable r a) (ha' : Usable reg a) : r = reg := by
  by_contra hne
  exact not_usable (h.apart.forall hr hreg hne) ha ha'

theorem Sound.blocks_erase (h : Sound s) {b : ℕ × ℕ} (hb : b ∈ s.blocks) :
    (∀ b' ∈ s.blocks.erase b, ∀ a, Covers (blockNode b) a → ¬ Covers (blockNode b') a) ∧
    (s.blocks.erase b).Pairwise fun b b' => ∀ a, Covers (blockNode b) a →
    ¬ Covers (blockNode b') a := by
  have hperm := List.perm_cons_erase hb
  have hsymm : ∀ {b b' : ℕ × ℕ}, (∀ a, Covers (blockNode b) a → ¬ Covers (blockNode b') a) →
      ∀ a, Covers (blockNode b') a → ¬ Covers (blockNode b) a := fun h a ha ha' => h a ha' ha
  exact List.pairwise_cons.1 ((hperm.pairwise_iff hsymm).1 h.blocks)

theorem Sound.freed (h : Sound s) {rs rs' : List LmmRegion} (hlmm : s.lmm = rs ++ reg :: rs')
    (hb : (block, size) ∈ s.blocks) (hin : Usable reg (alignDown block))
    {nodes : List LmmNode} (hnodes : NodesWf (reg.addr + regionSize) (reg.addr + reg.size) nodes)
    (hbytes : freeBytes nodes = blockSize block size + freeBytes reg.nodes)
    (hcov : ∀ a, Covered nodes a ↔ Covers (blockNode (block, size)) a ∨ Covered reg.nodes a) :
    Sound { s with
      lmm := rs ++ { reg with
        nodes := nodes
        free := (reg.free + blockSize block size) % wordSize } :: rs'
      blocks := s.blocks.erase (block, size) } := by
  have hmem := Sound.mem hlmm
  have hreg := h.regions reg hmem
  have hword := hreg.word
  have hlarge := hreg.large
  have hfree := h.free reg hmem
  obtain ⟨hother, hpair⟩ := h.blocks_erase hb
  -- the block lies in the region
  have hinside : ∀ a, Covers (blockNode (block, size)) a → Usable reg a := by
    intro a ha
    obtain ⟨r, hr, hlo, hlt, hhi⟩ := h.within _ hb
    obtain rfl := h.region_unique hr hmem ⟨hlo, hlt⟩ hin
    rw [covers_node] at ha
    exact ⟨hlo.trans ha.1, ha.2.trans_le hhi⟩
  have hall : ∀ a, (∀ b ∈ s.blocks, ¬ Covers (blockNode b) a) ↔
      ¬ Covers (blockNode (block, size)) a ∧ ∀ b ∈ s.blocks.erase (block, size),
      ¬ Covers (blockNode b) a := by
    intro a
    rw [← List.forall_mem_cons (p := fun b => ¬ Covers (blockNode b) a)]
    exact ⟨fun hall b hb' => hall b ((List.perm_cons_erase hb).mem_iff.2 hb'),
      fun hall b hb' => hall b ((List.perm_cons_erase hb).mem_iff.1 hb')⟩
  refine h.change hlmm hnodes ?_ (fun b hb' hnot => absurd (List.mem_of_mem_erase hb') hnot)
    (fun b hb' => h.sizes b (List.mem_of_mem_erase hb')) hpair (fun a => ?_) fun a ha => ?_
  · have hle := hnodes.freeBytes_le (by omega)
    rw [hreg.free, hbytes, Nat.mod_eq_of_lt (by omega)]
    omega
  · rw [hcov, hfree, hall]
    constructor
    · rintro (hc | ⟨hu, -, hb'⟩)
      · exact ⟨hinside a hc, fun b hb' => hother b hb' a hc⟩
      · exact ⟨hu, hb'⟩
    · rintro ⟨hu, hb'⟩
      by_cases hc : Covers (blockNode (block, size)) a
      · exact .inl hc
      · exact .inr ⟨hu, hc, hb'⟩
  · rw [hall]
    exact (and_iff_right fun hc => ha (hinside a hc)).symm

/-- What a block needs to be freed: a node behind it in its region and, when it is empty, a node
that it is in or next to. -/
def Freeable (reg : LmmRegion) (node : LmmNode) : Prop :=
  Usable reg node.addr ∧ (∃ x ∈ reg.nodes, node.addr ≤ x.addr) ∧
    (0 < node.size ∨ ∃ x ∈ reg.nodes, x.addr ≤ node.addr ∧ node.addr ≤ x.addr + x.size)

instance (reg : LmmRegion) (node : LmmNode) : Decidable (Freeable reg node) :=
  inferInstanceAs (Decidable ((_ ∧ _) ∧ _ ∧ _))

theorem Sound.not_covered (h : Sound s) (hreg : reg ∈ s.lmm) {b : ℕ × ℕ} (hb : b ∈ s.blocks) (a : ℕ)
    (ha : Covers (blockNode b) a) : ¬ Covered reg.nodes a :=
  fun hc => ((h.free reg hreg a).1 hc).2 b hb ha

theorem Sound.lmmFree (h : Sound s) (hb : (block, size) ∈ s.blocks) (hreg : reg ∈ s.lmm)
    (hok : Freeable reg (blockNode (block, size))) :
    ∃ lmm', lmmFree s.lmm block size = some lmm' ∧
      Sound { s with lmm := lmm', blocks := s.blocks.erase (block, size) } := by
  obtain ⟨hin, hnext, hsize⟩ := hok
  have hwf := h.regions reg hreg
  obtain ⟨rs, rs', hlmm, hfree⟩ := h.freeTo_eq hreg hin
  have hlmm' : Lmm.lmmFree s.lmm block size = _ := hfree
  rw [hlmm']
  by_cases hpos : 0 < (blockNode (block, size)).size
  · obtain ⟨nodes, hnodes, hwf', hbytes, hcov⟩ := freeNode_spec hwf.nodes hwf.word hpos hin.1
      (alignDown_mod _) (blockSize_mod _ _) (h.not_covered hreg hb) hnext
    rw [hnodes]
    exact ⟨_, rfl, h.freed hlmm hb hin hwf' hbytes hcov⟩
  · -- an empty block changes nothing
    have hzero : (blockNode (block, size)).size = 0 := by omega
    have hnodes := freeNode_empty hwf.nodes hwf.word hzero (hsize.resolve_left hpos) hnext
    rw [hnodes]
    refine ⟨_, rfl, h.freed hlmm hb hin hwf.nodes ?_ fun a => ?_⟩
    · have : blockSize block size = 0 := hzero
      omega
    · refine (or_iff_right fun hc => ?_).symm
      rw [covers_node] at hc
      omega

/-- A block that is not empty can be freed exactly while a node is behind it in its region. -/
theorem Sound.lmmFree_isSome_iff (h : Sound s) (hb : (block, size) ∈ s.blocks)
    (hpos : 0 < blockSize block size) : (Lmm.lmmFree s.lmm block size).isSome ↔
      ∃ reg ∈ s.lmm, Freeable reg (blockNode (block, size)) := by
  constructor
  · intro hsome
    obtain ⟨reg, hreg, hlo, hlt, -⟩ := h.within _ hb
    obtain ⟨rs, rs', -, hfree⟩ := h.freeTo_eq hreg ⟨hlo, hlt⟩
    have hlmm' : Lmm.lmmFree s.lmm block size = _ := hfree
    refine ⟨reg, hreg, ⟨hlo, hlt⟩, ?_, .inl hpos⟩
    by_contra hnone
    have hbefore : ∀ x ∈ reg.nodes, x.addr < (blockNode (block, size)).addr := by
      intro x hx
      by_contra hle
      exact hnone ⟨x, hx, not_lt.1 hle⟩
    rw [hlmm', freeNode_none hbefore] at hsome
    exact absurd hsome (by simp)
  · rintro ⟨reg, hreg, hok⟩
    obtain ⟨lmm', hlmm', -⟩ := h.lmmFree hb hreg hok
    rw [hlmm']
    rfl

end FreeSound

section AddSound

variable {s : State} {min size : ℕ} {flags : BitVec 32} {pri : ℤ} {reg : LmmRegion}

theorem insertRegion_perm (lmm : LmmT) (hreg : reg.addr ≠ 0) :
    (insertRegion reg lmm).Perm (reg :: lmm) := by
  induction lmm with
  | nil => simp [insertRegion, linkRegion, hreg]
  | cons r rest ih =>
    rw [insertRegion]
    split_ifs
    · exact (ih.cons r).trans (.swap reg r rest)
    · simp [linkRegion, hreg]

theorem Sound.insert (h : Sound s) {ranges : List (ℕ × ℕ)} (hreg : RegionWf reg)
    (hap : ∀ r ∈ s.lmm, RegionsApart reg r) (hcov : ∀ a, Covered reg.nodes a ↔ Usable reg a)
    (hsub : ∀ g ∈ s.ranges, g ∈ ranges)
    (hrange : ∃ g ∈ ranges, g.1 ≤ reg.addr ∧ reg.addr + reg.size ≤ g.1 + g.2) :
    Sound { s with lmm := insertRegion reg s.lmm, ranges := ranges } := by
  have hperm := insertRegion_perm s.lmm hreg.pos.ne'
  have hmem : ∀ r, r ∈ insertRegion reg s.lmm → r = reg ∨ r ∈ s.lmm := by
    intro r hr
    exact List.mem_cons.1 (hperm.mem_iff.1 hr)
  refine ⟨fun r hr => ?_, ?_, fun r hr => ?_, fun b hb => ?_, h.sizes, h.blocks, fun r hr a => ?_⟩
  · rcases hmem r hr with rfl | hr
    · exact hreg
    · exact h.regions r hr
  · exact (hperm.pairwise_iff RegionsApart.symm).2 (List.pairwise_cons.2 ⟨hap, h.apart⟩)
  · rcases hmem r hr with rfl | hr
    · exact hrange
    · obtain ⟨g, hg, hle⟩ := h.ranges r hr
      exact ⟨g, hsub g hg, hle⟩
  · obtain ⟨r, hr, hw⟩ := h.within b hb
    exact ⟨r, hperm.mem_iff.2 (List.mem_cons_of_mem _ hr), hw⟩
  · rcases hmem r hr with rfl | hr
    · rw [hcov]
      refine (and_iff_left_of_imp fun hu b hb hc => ?_).symm
      obtain ⟨r', hr', hlo, -, hhi⟩ := h.within b hb
      rw [covers_node] at hc
      exact not_usable (hap r' hr') hu ⟨hlo.trans hc.1, hc.2.trans_le hhi⟩
    · exact h.free r hr a

theorem Sound.add (h : Sound s) (hmin : 0 < min) (hword : min + 7 < wordSize)
    (hen : Enabled s (.add min size flags pri)) :
    Sound { s with lmm := lmmAdd s.lmm min size flags pri, ranges := (min, size) :: s.ranges } := by
  obtain ⟨hle, hapart⟩ := hen
  have hsub : ∀ g ∈ s.ranges, g ∈ (min, size) :: s.ranges := fun g hg => List.mem_cons_of_mem _ hg
  have hsame : Sound { s with lmm := s.lmm, ranges := (min, size) :: s.ranges } :=
    ⟨h.regions, h.apart, fun r hr => by
      obtain ⟨g, hg, hle⟩ := h.ranges r hr
      exact ⟨g, hsub g hg, hle⟩, h.within, h.sizes, h.blocks, h.free⟩
  unfold lmmAdd
  simp only
  split_ifs with hsmall
  · exact hsame
  · -- the region lies in the range
    have hup : min ≤ alignUp min ∧ alignUp min % 8 = 0 := by
      refine ⟨?_, alignUp_mod _⟩
      rw [alignUp_eq hword]
      omega
    have hdown := alignDown_mod ((min + size) % wordSize)
    have hdown' := alignDown_le ((min + size) % wordSize)
    have hmod : (min + size) % wordSize ≤ min + size := Nat.mod_le _ _
    have hlt : (min + size) % wordSize < wordSize := Nat.mod_lt _ (by decide)
    simp only [not_or, not_lt, regionSize, alignSize] at hsmall
    generalize hmax : alignDown ((min + size) % wordSize) = max at *
    generalize hbase : alignUp min = base at *
    refine h.insert ⟨?_, ⟨?_, ?_⟩, ?_, ?_, ?_, ?_⟩ (fun r hr => ?_) (fun a => ?_) hsub
      ⟨(min, size), List.mem_cons_self, ?_, ?_⟩
    · simp only [newRegion]
      omega
    · simp only [newRegion]
      omega
    · simp only [newRegion]
      omega
    · simp only [newRegion, regionSize, alignSize]
      omega
    · simp only [newRegion]
      omega
    · refine nodesWf_cons.2 ⟨?_, ?_, ?_, ?_, ?_, by simp, nodesWf_nil⟩ <;>
        simp only [newRegion, regionSize] <;> omega
    · simp [newRegion, freeBytes]
    · obtain ⟨g, hg, hglo, hghi⟩ := h.ranges r hr
      have := hapart g hg
      simp only [RegionsApart, newRegion]
      omega
    · simp only [newRegion, covered_cons, covered_nil, or_false, covers_node, Usable, regionSize]
      omega
    · simp only [newRegion]
      omega
    · simp only [newRegion]
      omega

end AddSound

section Runs

variable {s s' : State} {a : Act} {acts : List Act}

/-- The arguments of `lmm_alloc_gen` that `lmm_alloc_aligned` gives. -/
def alignedArgs (size : ℕ) (flags : BitVec 32) (alignBits alignOfs : ℕ) : GenArgs :=
  ⟨size, flags, alignBits, alignOfs, 0, wordSize - 1⟩

/-- What a step needs besides. -/
def Careful (s : State) : Act → Prop
  | .add min _ _ _ => 0 < min ∧ min + 7 < wordSize
  | .alloc size _ => size + 7 < wordSize
  | .allocAligned size flags alignBits alignOfs =>
    (alignedArgs size flags alignBits alignOfs).NoWrap s.lmm
  | .allocGen g => g.NoWrap s.lmm
  | .free block size => ∃ reg ∈ s.lmm, Freeable reg (blockNode (block, size))

instance (s : State) : (a : Act) → Decidable (Careful s a)
  | .add _ _ _ _ => inferInstanceAs (Decidable (_ ∧ _))
  | .alloc _ _ => inferInstanceAs (Decidable (_ < _))
  | .allocAligned size flags alignBits alignOfs =>
    inferInstanceAs (Decidable ((alignedArgs size flags alignBits alignOfs).NoWrap s.lmm))
  | .allocGen g => inferInstanceAs (Decidable (g.NoWrap s.lmm))
  | .free block size =>
    inferInstanceAs (Decidable (∃ reg ∈ s.lmm, Freeable reg (blockNode (block, size))))

theorem exec_sound (h : Sound s) (hen : Enabled s a) (hcare : Careful s a) :
    ∃ s', exec s a = some s' ∧ Sound s' := by
  cases a with
  | add min size flags pri => exact ⟨_, rfl, h.add hcare.1 hcare.2 hen⟩
  | alloc size flags => exact ⟨_, rfl, h.got_alloc hcare rfl⟩
  | allocAligned size flags alignBits alignOfs =>
    obtain ⟨addr, lmm', halloc, hs'⟩ := h.got_allocGen hcare
    have hex : exec s (.allocAligned size flags alignBits alignOfs)
        = (lmmAllocGen (alignedArgs size flags alignBits alignOfs) s.lmm).map
          fun x => s.got size x.1 x.2 := rfl
    rw [hex, halloc]
    exact ⟨_, rfl, hs'⟩
  | allocGen g =>
    obtain ⟨addr, lmm', halloc, hs'⟩ := h.got_allocGen hcare
    have hex : exec s (.allocGen g) = (lmmAllocGen g s.lmm).map fun x => s.got g.size x.1 x.2 := rfl
    rw [hex, halloc]
    exact ⟨_, rfl, hs'⟩
  | free block size =>
    obtain ⟨reg, hreg, hok⟩ := hcare
    obtain ⟨lmm', hfree, hs'⟩ := h.lmmFree hen hreg hok
    have hex : exec s (.free block size) = (lmmFree s.lmm block size).map fun lmm =>
      { s with lmm := lmm, blocks := s.blocks.erase (block, size) } := rfl
    rw [hex, hfree]
    exact ⟨_, rfl, hs'⟩

/-- A region as it was added. -/
def full (r : LmmRegion) : LmmRegion := newRegion r.addr (r.addr + r.size) r.flags r.pri

/-- What the calls of `lmm_add` make of a list of regions. -/
def added (lmm : LmmT) : Act → LmmT
  | .add min size flags pri => lmmAdd lmm min size flags pri
  | _ => lmm

@[simp] theorem full_addr (r : LmmRegion) : (full r).addr = r.addr := rfl

@[simp] theorem full_pri (r : LmmRegion) : (full r).pri = r.pri := rfl

@[simp] theorem full_size (r : LmmRegion) : (full r).size = r.size := Nat.add_sub_cancel_left _ _

theorem full_newRegion {min max : ℕ} (h : min ≤ max) (flags : BitVec 32) (pri : ℤ) :
    full (newRegion min max flags pri) = newRegion min max flags pri := by
  simp only [full, newRegion, Nat.add_sub_of_le h]

theorem map_full_insertRegion (reg : LmmRegion) (lmm : LmmT) :
    (insertRegion reg lmm).map full = insertRegion (full reg) (lmm.map full) := by
  have hlink : ∀ rest, (linkRegion reg rest).map full = linkRegion (full reg) (rest.map full) := by
    intro rest
    unfold linkRegion
    rw [full_addr]
    split_ifs <;> rfl
  induction lmm with
  | nil => exact hlink []
  | cons r rest ih =>
    rw [List.map_cons, insertRegion, insertRegion, full_pri, full_pri, full_size, full_size]
    split_ifs
    · rw [List.map_cons, ih]
    · exact hlink (r :: rest)

theorem map_full_lmmAdd (lmm : LmmT) (min size : ℕ) (flags : BitVec 32) (pri : ℤ) :
    (lmmAdd lmm min size flags pri).map full = lmmAdd (lmm.map full) min size flags pri := by
  unfold lmmAdd
  simp only
  split_ifs with hsmall
  · rfl
  · rw [map_full_insertRegion, full_newRegion (by omega)]

theorem map_full_freeTo {node : LmmNode} {lmm lmm' : LmmT} (h : freeTo node lmm = some lmm') :
    lmm'.map full = lmm.map full := by
  induction lmm generalizing lmm' with
  | nil => cases h
  | cons r lmm ih =>
    rw [freeTo] at h
    split_ifs at h
    · obtain ⟨nodes, -, rfl⟩ := Option.map_eq_some_iff.1 h
      rfl
    · obtain ⟨rest, hrest, rfl⟩ := Option.map_eq_some_iff.1 h
      rw [List.map_cons, List.map_cons, ih hrest]

theorem map_full_lmmAllocGen {g : GenArgs} {lmm lmm' : LmmT} {addr : ℕ}
    (h : lmmAllocGen g lmm = some (addr, lmm')) : lmm'.map full = lmm.map full := by
  rcases lmmAllocGen_spec g lmm with ⟨halloc, -⟩ | ⟨rs, reg, rs', pick, hlmm, -, -, -, halloc⟩
  · rw [halloc] at h
    cases h
    rfl
  · rw [halloc] at h
    obtain ⟨left, -, heq⟩ := Option.map_eq_some_iff.1 h
    cases heq
    rw [hlmm, List.map_append, List.map_append]
    rfl

/-- A step leaves the regions as they were added, but for their free nodes. -/
theorem map_full_exec (h : exec s a = some s') : s'.lmm.map full = added (s.lmm.map full) a := by
  cases a with
  | add min size flags pri =>
    cases h
    exact map_full_lmmAdd _ _ _ _ _
  | alloc size flags =>
    cases h
    have heta : allocFrom (alignUp size) flags s.lmm =
      ((allocFrom (alignUp size) flags s.lmm).1, (allocFrom (alignUp size) flags s.lmm).2) := rfl
    rcases allocFrom_spec heta with ⟨-, hlmm⟩ | ⟨rs, reg, rs', pick, hlmm, -, -, hlmm'⟩
    · exact congrArg (List.map full) hlmm
    · refine (congrArg (List.map full) hlmm').trans ?_
      rw [hlmm, List.map_append]
      change _ = (rs ++ reg :: rs').map full
      rw [List.map_append]
      rfl
  | allocAligned size flags alignBits alignOfs =>
    obtain ⟨⟨addr, lmm'⟩, halloc, rfl⟩ := Option.map_eq_some_iff.1 h
    exact map_full_lmmAllocGen halloc
  | allocGen g =>
    obtain ⟨⟨addr, lmm'⟩, halloc, rfl⟩ := Option.map_eq_some_iff.1 h
    exact map_full_lmmAllocGen halloc
  | free block size =>
    obtain ⟨lmm', hfree, rfl⟩ := Option.map_eq_some_iff.1 h
    exact map_full_freeTo hfree

theorem Sound.eq_full (h : Sound s) (hblocks : s.blocks = []) : s.lmm = s.lmm.map full := by
  have hfull : ∀ r ∈ s.lmm, full r = r := by
    intro r hr
    have hwf := h.regions r hr
    have hlarge := hwf.large
    have hcov : ∀ a, Covered (full r).nodes a ↔ Covered r.nodes a := by
      intro a
      rw [h.free r hr, hblocks]
      simp only [full, newRegion, covered_cons, covered_nil, covers_node, or_false, Usable,
        List.not_mem_nil, false_imp_iff, implies_true, and_true]
      omega
    have hnew : Coalesced (full r).nodes := by
      refine coalesced_cons.2 ⟨?_, by simp, coalesced_nil⟩
      simp only [start_node, stop_node]
      unfold regionSize alignSize at *
      omega
    have hext : ∀ x y : LmmNode, start x = start y → stop x = stop y → x = y := by
      rintro ⟨xa, xs⟩ ⟨ya, ys⟩ hstart hstop
      simp only [start_node, stop_node] at hstart hstop
      obtain rfl := hstart
      rw [Nat.add_left_cancel hstop]
    have hnodes : (full r).nodes = r.nodes := Coalesced.ext hext hnew hwf.nodes.coalesced hcov
    have hfree : (full r).free = r.free := by
      rw [hwf.free, ← hnodes]
      simp [full, newRegion]
    have hsize := full_size r
    cases r
    simp only [full, newRegion] at hnodes hfree hsize ⊢
    rw [hnodes, hfree, hsize]
  rw [List.map_congr_left hfull, List.map_id']

theorem Sound.blocks_apart (h : Sound s) : s.blocks.Pairwise fun b b' =>
    b.1 + b.2 ≤ b'.1 ∨ b'.1 + b'.2 ≤ b.1 ∨ b.2 = 0 ∨ b'.2 = 0 := by
  refine List.Pairwise.imp_of_mem (fun {b b'} hb hb' hap => ?_) h.blocks
  by_contra hover
  simp only [not_or, not_le] at hover
  have hunit := blockSize_spec b.1 b.2 (h.sizes b hb)
  have hunit' := blockSize_spec b'.1 b'.2 (h.sizes b' hb')
  have hle := alignDown_le b.1
  have hle' := alignDown_le b'.1
  refine hap (max b.1 b'.1) ?_ ?_ <;>
    · rw [covers_node]
      simp only [blockNode]
      omega

/-- A run of steps that are each enabled and careful. -/
def CarefulRun : State → List Act → Prop
  | _, [] => True
  | s, a :: acts => Enabled s a ∧ Careful s a ∧ ∀ s' ∈ exec s a, CarefulRun s' acts

instance decidableCarefulRun : (s : State) → (acts : List Act) → Decidable (CarefulRun s acts)
  | _, [] => inferInstanceAs (Decidable True)
  | s, a :: acts =>
    have := fun s' => decidableCarefulRun s' acts
    inferInstanceAs (Decidable (Enabled s a ∧ Careful s a ∧ ∀ s' ∈ exec s a, CarefulRun s' acts))

theorem CarefulRun.sound (h : CarefulRun s acts) (hs : Sound s) :
    ∃ s', run s acts = some s' ∧ Sound s' ∧
    s'.lmm.map full = acts.foldl added (s.lmm.map full) := by
  induction acts generalizing s with
  | nil => exact ⟨s, rfl, hs, rfl⟩
  | cons a acts ih =>
    obtain ⟨hen, hcare, hrest⟩ := h
    obtain ⟨s₁, hexec, hs₁⟩ := exec_sound hs hen hcare
    obtain ⟨s', hrun, hs', hfull⟩ := ih (hrest s₁ hexec) hs₁
    refine ⟨s', ?_, hs', ?_⟩
    · rw [run, hexec]
      exact hrun
    · rw [hfull, map_full_exec hexec]
      rfl

/-- A run of careful steps returns. Its regions are then those that `lmm_add` makes, with the free
nodes of each of them coalesced and the bytes that no block has; the blocks are apart, and once they
are freed the list is the one after the calls of `lmm_add`. A block that is not empty can be freed
exactly while a free node is behind it in its region. -/
theorem run_lmm_sound (acts : List Act) (h : CarefulRun lmmInit acts) :
    ∃ s, run lmmInit acts = some s ∧ Sound s ∧
      (s.blocks.Pairwise fun b b' => b.1 + b.2 ≤ b'.1 ∨ b'.1 + b'.2 ≤ b.1 ∨ b.2 = 0 ∨ b'.2 = 0) ∧
      s.lmm.map full = acts.foldl added [] ∧
      (s.blocks = [] → s.lmm = acts.foldl added []) ∧
      ∀ block size, (block, size) ∈ s.blocks → 0 < blockSize block size →
        ((lmmFree s.lmm block size).isSome ↔
          ∃ reg ∈ s.lmm, Freeable reg (blockNode (block, size))) := by
  obtain ⟨s, hrun, hs, hfull⟩ := h.sound sound_init
  refine ⟨s, hrun, hs, hs.blocks_apart, hfull, fun hblocks => ?_, fun block size hb hpos => ?_⟩
  · rw [hs.eq_full hblocks]
    exact hfull
  · exact hs.lmmFree_isSome_iff hb hpos

/-- A page is added and two blocks are taken from it and freed, with a third one at an address of
the caller's choice. -/
def carefulActs : List Act :=
  [.add 0x1000 0x1000 0 0, .alloc 16 0, .allocAligned 32 0 8 0, .allocGen ⟨5, 0, 0, 0, 0x1803, 100⟩,
    .free 0x1018 16, .free 0x1100 32, .free 0x1803 5]

theorem run_lmm_sound_page : CarefulRun lmmInit carefulActs ∧ ∃ s,
    run lmmInit carefulActs = some s ∧
    Sound s ∧ (s.blocks = [] → s.lmm = carefulActs.foldl added []) := by
  have hcare : CarefulRun lmmInit carefulActs := by decide +kernel
  obtain ⟨s, hrun, hs, -, -, hlist, -⟩ := run_lmm_sound carefulActs hcare
  exact ⟨hcare, s, hrun, hs, hlist⟩

/-- Each step was one that the callers may make. -/
def EnabledRun : State → List Act → Prop
  | _, [] => True
  | s, a :: acts => Enabled s a ∧ ∀ s' ∈ exec s a, EnabledRun s' acts

instance decidableEnabledRun : (s : State) → (acts : List Act) → Decidable (EnabledRun s acts)
  | _, [] => inferInstanceAs (Decidable True)
  | s, a :: acts =>
    have := fun s' => decidableEnabledRun s' acts
    inferInstanceAs (Decidable (Enabled s a ∧ ∀ s' ∈ exec s a, EnabledRun s' acts))

/-- All of a page is allocated. Freeing its last block reads the node behind it, which is not
there. -/
theorem lmmFree_null_next :
    EnabledRun lmmInit [.add 0x1000 0x1000 0 0, .alloc 0xfe8 0, .free 0x1018 0xfe8] ∧
    (run lmmInit [.add 0x1000 0x1000 0 0, .alloc 0xfe8 0]).isSome ∧
    run lmmInit [.add 0x1000 0x1000 0 0, .alloc 0xfe8 0, .free 0x1018 0xfe8] = none := by
  decide +kernel

end Runs

end XMach.Lmm
