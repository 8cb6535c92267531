import Mathlib.Data.Nat.Notation

/-!
# Memory of bytes

Words of 32 bits in a memory of bytes, lowest byte first, and strings of bytes.
-/

namespace XMach.Bytes

abbrev Byte := BitVec 8

variable {m m' : ℕ → Byte} {a b n w : ℕ} {bs : List Byte}

def get32 (m : ℕ → Byte) (a : ℕ) : ℕ :=
  (m a).toNat + 256 * (m (a + 1)).toNat + 65536 * (m (a + 2)).toNat + 16777216 * (m (a + 3)).toNat

def put32 (m : ℕ → Byte) (a w : ℕ) : ℕ → Byte := fun i =>
  if i = a then BitVec.ofNat 8 w
  else if i = a + 1 then BitVec.ofNat 8 (w / 256)
  else if i = a + 2 then BitVec.ofNat 8 (w / 65536)
  else if i = a + 3 then BitVec.ofNat 8 (w / 16777216)
  else m i

def read (m : ℕ → Byte) (a n : ℕ) : List Byte := (List.range n).map fun i => m (a + i)

def write (m : ℕ → Byte) (a : ℕ) (bs : List Byte) : ℕ → Byte := fun i =>
  if a ≤ i then (bs[i - a]?).getD (m i) else m i

section Words

theorem get32_congr (h : ∀ i, a ≤ i → i < a + 4 → m' i = m i) : get32 m' a = get32 m a := by
  unfold get32
  rw [h a (by omega) (by omega), h (a + 1) (by omega) (by omega), h (a + 2) (by omega) (by omega),
    h (a + 3) (by omega) (by omega)]

theorem put32_of_lt (h : b < a) : put32 m a w b = m b := by
  unfold put32
  rw [if_neg (by omega), if_neg (by omega), if_neg (by omega), if_neg (by omega)]

theorem put32_of_ge (h : a + 4 ≤ b) : put32 m a w b = m b := by
  unfold put32
  rw [if_neg (by omega), if_neg (by omega), if_neg (by omega), if_neg (by omega)]

@[simp] theorem get32_put32_self (m : ℕ → Byte) (a : ℕ) (h : w < 4294967296) :
    get32 (put32 m a w) a = w := by
  simp [get32, put32]
  omega

theorem get32_put32_of_lt (h : b + 4 ≤ a) : get32 (put32 m a w) b = get32 m b :=
  get32_congr fun _ _ hi => put32_of_lt (by omega)

theorem get32_put32_of_ge (h : a + 4 ≤ b) : get32 (put32 m a w) b = get32 m b :=
  get32_congr fun _ hi _ => put32_of_ge (by omega)

end Words

section Strings

@[simp] theorem length_read (m : ℕ → Byte) (a n : ℕ) : (read m a n).length = n := by
  simp [read]

theorem read_zero (m : ℕ → Byte) (a : ℕ) : read m a 0 = [] := rfl

theorem read_congr (h : ∀ i, a ≤ i → i < a + n → m' i = m i) : read m' a n = read m a n := by
  unfold read
  refine List.map_congr_left fun i hi => h (a + i) (by omega) ?_
  have := List.mem_range.mp hi
  omega

theorem read_add (m : ℕ → Byte) (a n k : ℕ) :
    read m a (n + k) = read m a n ++ read m (a + n) k := by
  unfold read
  rw [List.range_add, List.map_append, List.map_map]
  congr 1
  refine List.map_congr_left fun i _ => ?_
  rw [Function.comp_apply, Nat.add_assoc]

theorem write_of_lt (h : b < a) : write m a bs b = m b := by
  unfold write
  rw [if_neg (by omega)]

theorem write_of_ge (h : a + bs.length ≤ b) : write m a bs b = m b := by
  unfold write
  rw [if_pos (by omega), List.getElem?_eq_none (by omega)]
  rfl

theorem write_nil (m : ℕ → Byte) (a : ℕ) : write m a [] = m := by
  funext i
  by_cases h : i < a
  · exact write_of_lt h
  · exact write_of_ge (by simpa using h)

theorem read_write (m : ℕ → Byte) (a : ℕ) (bs : List Byte) :
    read (write m a bs) a bs.length = bs := by
  refine List.ext_getElem (length_read _ _ _) fun i hi hi' => ?_
  simp only [read, write, List.getElem_map, List.getElem_range, if_pos (Nat.le_add_right a i),
    Nat.add_sub_cancel_left, List.getElem?_eq_getElem hi', Option.getD_some]

end Strings

end XMach.Bytes
