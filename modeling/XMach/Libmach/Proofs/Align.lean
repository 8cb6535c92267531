import XMach.Libmach.Lmm
import Mathlib.Data.Nat.Bitwise

/-!
# Addresses with given low bits

`lmm_alloc_gen` raises an address bit by bit until its low bits are those of `align_ofs`; it is then
the first from there on that has them (`alignFrom_least`). All of this is modulo `2 ^ 32`.
`GenArgs.NoWrap` says of the arguments and the nodes that no block reaches past that.
-/

namespace XMach.Lmm

section Align

variable {bits ofs x y : ℕ}

/-- The first number from `x` on with the low bits of `ofs`. -/
def alignFrom (bits ofs x : ℕ) : ℕ := x + (ofs + (2 ^ bits - x % 2 ^ bits)) % 2 ^ bits

theorem le_alignFrom : x ≤ alignFrom bits ofs x := Nat.le_add_right _ _

theorem alignFrom_lt : alignFrom bits ofs x < x + 2 ^ bits :=
  Nat.add_lt_add_left (Nat.mod_lt _ (Nat.two_pow_pos bits)) x

theorem alignFrom_mod : alignFrom bits ofs x % 2 ^ bits = ofs % 2 ^ bits := by
  have hlt := Nat.mod_lt x (Nat.two_pow_pos bits)
  have hsum : x % 2 ^ bits + (ofs + (2 ^ bits - x % 2 ^ bits)) = ofs + 2 ^ bits := by omega
  rw [alignFrom, Nat.add_mod, Nat.mod_mod, ← Nat.add_mod, ← Nat.mod_add_mod, hsum,
    Nat.add_mod_right]

/-- Two numbers with the same low bits that are less than a unit apart are the same. -/
theorem eq_of_mod_eq {m a b : ℕ} (hmod : a % m = b % m) (hab : a < b + m) (hba : b < a + m) :
    a = b := by
  have ha := Nat.div_add_mod a m
  have hb := Nat.div_add_mod b m
  rcases Nat.lt_trichotomy (a / m) (b / m) with hlt | heq | hlt
  · have := Nat.mul_le_mul_left m (Nat.succ_le_of_lt hlt)
    rw [Nat.mul_succ] at this
    omega
  · rw [heq] at ha
    omega
  · have := Nat.mul_le_mul_left m (Nat.succ_le_of_lt hlt)
    rw [Nat.mul_succ] at this
    omega

theorem eq_alignFrom (hle : x ≤ y) (hlt : y < x + 2 ^ bits) (hmod : y % 2 ^ bits = ofs % 2 ^ bits) :
    y = alignFrom bits ofs x := by
  have hge : x ≤ alignFrom bits ofs x := le_alignFrom
  have hbound : alignFrom bits ofs x < x + 2 ^ bits := alignFrom_lt
  exact eq_of_mod_eq (hmod.trans alignFrom_mod.symm) (by omega) (by omega)

theorem alignFrom_least (hle : x ≤ y) (hmod : y % 2 ^ bits = ofs % 2 ^ bits) :
    alignFrom bits ofs x ≤ y := by
  by_contra hlt
  have hbound : alignFrom bits ofs x < x + 2 ^ bits := alignFrom_lt
  exact hlt (eq_alignFrom hle (by omega) hmod).ge

theorem alignFrom_succ : alignFrom (bits + 1) ofs x =
    if (alignFrom bits ofs x).testBit bits = ofs.testBit bits then alignFrom bits ofs x
    else alignFrom bits ofs x + 2 ^ bits := by
  have hle : x ≤ alignFrom bits ofs x := le_alignFrom
  have hlt : alignFrom bits ofs x < x + 2 ^ bits := alignFrom_lt
  have hmod : alignFrom bits ofs x % 2 ^ bits = ofs % 2 ^ bits := alignFrom_mod
  have htwo : 2 ^ (bits + 1) = 2 ^ bits + 2 ^ bits := Nat.two_pow_succ bits
  symm
  split
  · next hbit =>
    refine eq_alignFrom hle (by omega) ?_
    rw [Nat.mod_pow_succ, Nat.mod_pow_succ, hmod, ← Nat.toNat_testBit, ← Nat.toNat_testBit, hbit]
  · next hbit =>
    refine eq_alignFrom (by omega) (by omega) ?_
    have hflip : (alignFrom bits ofs x + 2 ^ bits).testBit bits = ofs.testBit bits := by
      rw [Nat.add_comm, Nat.testBit_two_pow_add_eq]
      exact (Bool.eq_not_of_ne (Ne.symm hbit)).symm
    rw [Nat.mod_pow_succ, Nat.mod_pow_succ, Nat.add_mod_right, hmod, ← Nat.toNat_testBit,
      ← Nat.toNat_testBit, hflip]

theorem alignAddr_append (i : ℕ) : ∀ (l : List ℕ) (x : ℕ),
    alignAddr ofs (l ++ [i]) x = alignAddr ofs [i] (alignAddr ofs l x)
  | [], _ => rfl
  | _ :: l, _ => alignAddr_append i l _

theorem and_two_pow_ne_zero {a b i : ℕ} : (a ^^^ b) &&& 2 ^ i ≠ 0 ↔ a.testBit i ≠ b.testBit i := by
  rw [Nat.and_two_pow, Nat.testBit_xor]
  cases a.testBit i <;> cases b.testBit i <;> simp

/-- The loop finds that number, modulo the word size. -/
theorem alignAddr_eq (hbits : bits ≤ 32) (hx : x < wordSize) :
    alignAddr ofs (List.range bits) x = alignFrom bits ofs x % wordSize := by
  induction bits with
  | zero =>
    rw [alignFrom, Nat.pow_zero, Nat.mod_one, Nat.add_zero, Nat.mod_eq_of_lt hx]
    rfl
  | succ bits ih =>
    have hbit : (alignFrom bits ofs x % wordSize).testBit bits =
      (alignFrom bits ofs x).testBit bits := by
      rw [wordSize, Nat.testBit_mod_two_pow, decide_eq_true (by omega : bits < 32), Bool.true_and]
    rw [List.range_succ, alignAddr_append, ih (by omega), alignFrom_succ]
    show (if _ then _ else _) = _
    by_cases heq : (alignFrom bits ofs x).testBit bits = ofs.testBit bits
    · rw [if_neg, if_pos heq]
      rw [and_two_pow_ne_zero, hbit]
      exact not_not.2 heq
    · rw [if_pos, if_neg heq, Nat.mod_add_mod]
      rw [and_two_pow_ne_zero, hbit]
      exact heq

end Align

section Start

variable {g : GenArgs} {node n : LmmNode} {a : ℕ}

/-- Where a block in the node would start, in a space without an end. -/
def GenArgs.start (g : GenArgs) (node : LmmNode) : ℕ :=
  alignFrom g.alignBits g.alignOfs (max g.inMin node.addr)

/-- The block is not empty, and in no node that is large enough would it end past the end of the
address space. -/
def GenArgs.NoWrap (g : GenArgs) (lmm : LmmT) : Prop :=
  0 < g.size ∧ g.alignBits < 32 ∧ g.inMin < wordSize ∧
    ∀ reg ∈ lmm, ∀ node ∈ reg.nodes, g.size ≤ node.size → g.start node + g.size ≤ wordSize

instance (g : GenArgs) (lmm : LmmT) : Decidable (g.NoWrap lmm) :=
  inferInstanceAs (Decidable (_ ∧ _ ∧ _ ∧ _))

theorem le_start : node.addr ≤ g.start node ∧ g.inMin ≤ g.start node :=
  ⟨(le_max_right _ _).trans le_alignFrom, (le_max_left _ _).trans le_alignFrom⟩

theorem start_least (hmin : g.inMin ≤ a) (hnode : node.addr ≤ a)
    (hmod : a % 2 ^ g.alignBits = g.alignOfs % 2 ^ g.alignBits) : g.start node ≤ a :=
  alignFrom_least (max_le hmin hnode) hmod

theorem addrIn_eq (hbits : g.alignBits < 32) (hmin : g.inMin < wordSize)
    (hnode : node.addr < wordSize) : g.addrIn node = g.start node % wordSize := by
  have hmax : (if node.addr < g.inMin then g.inMin else node.addr) = max g.inMin node.addr := by
    split <;> omega
  rw [GenArgs.addrIn, hmax]
  exact alignAddr_eq hbits.le (max_lt hmin hnode)

end Start

end XMach.Lmm
