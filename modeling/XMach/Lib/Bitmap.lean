import Mathlib.Data.Finset.Card
import Mathlib.Data.Finset.Range

/-!
# Bitmaps

A set of numbers as a list of words. The bits past the last word are clear. `firstWord` and
`firstBit` are how an allocator looks for a clear one: the first word that is not full, and the
first clear bit in it.
-/

namespace XMach.Bitmap

variable {w i j n e b : ℕ} {bm : List (BitVec w)}

def word (bm : List (BitVec w)) (e : ℕ) : BitVec w := bm.getD e 0

def bit (bm : List (BitVec w)) (i : ℕ) : Bool := (word bm (i / w)).getLsbD (i % w)

/-- `bm[i / w] |= 1 << (i % w)`. -/
def setBit (bm : List (BitVec w)) (i : ℕ) : List (BitVec w) :=
  bm.set (i / w) (word bm (i / w) ||| BitVec.twoPow w (i % w))

/-- `bm[i / w] &= ~(1 << (i % w))`. -/
def clearBit (bm : List (BitVec w)) (i : ℕ) : List (BitVec w) :=
  bm.set (i / w) (word bm (i / w) &&& ~~~BitVec.twoPow w (i % w))

/-- The number of bits below `n` that are set. -/
def count (bm : List (BitVec w)) (n : ℕ) : ℕ := ((Finset.range n).filter fun i => bit bm i).card

def firstWord (bm : List (BitVec w)) : Option ℕ := bm.findIdx? (· != BitVec.allOnes w)

def firstBit (x : BitVec w) : Option ℕ := (List.range w).find? fun i => !x.getLsbD i

section Bits

@[simp] theorem length_setBit : (setBit bm i).length = bm.length := List.length_set

@[simp] theorem length_clearBit : (clearBit bm i).length = bm.length := List.length_set

theorem word_eq_getElem (h : e < bm.length) : word bm e = bm[e] := by
  unfold word
  rw [List.getD_eq_getElem?_getD, List.getElem?_eq_getElem h, Option.getD_some]

theorem word_set (x : BitVec w) :
    word (bm.set e x) j = if e = j ∧ e < bm.length then x else word bm j := by
  unfold word
  rw [List.getD_eq_getElem?_getD, List.getElem?_set]
  by_cases hj : e = j
  · subst hj
    by_cases hlt : e < bm.length
    · simp [hlt]
    · simp [hlt]
  · simp [hj]

theorem eq_iff_div_mod : i = j ↔ i / w = j / w ∧ i % w = j % w := by
  constructor
  · rintro rfl
    exact ⟨rfl, rfl⟩
  · rintro ⟨hd, hm⟩
    rw [← Nat.div_add_mod i w, hd, hm, Nat.div_add_mod]

theorem bit_setBit (hw : 0 < w) (hi : i < bm.length * w) :
    bit (setBit bm i) j = (decide (i = j) || bit bm j) := by
  have hlen : i / w < bm.length := Nat.div_lt_of_lt_mul (by rwa [Nat.mul_comm])
  unfold bit setBit
  rw [word_set]
  by_cases hd : i / w = j / w
  · have hij : i = j ↔ i % w = j % w := by
      rw [eq_iff_div_mod (w := w), and_iff_right hd]
    have hm : i % w < w := Nat.mod_lt _ hw
    rw [if_pos ⟨hd, hlen⟩, BitVec.getLsbD_or, BitVec.getLsbD_twoPow, hd]
    simp [hij, hm, Bool.or_comm]
  · rw [if_neg fun h => hd h.1]
    have hne : i ≠ j := fun h => hd (by rw [h])
    simp [hne]

theorem bit_clearBit (hw : 0 < w) (hi : i < bm.length * w) :
    bit (clearBit bm i) j = (!decide (i = j) && bit bm j) := by
  have hlen : i / w < bm.length := Nat.div_lt_of_lt_mul (by rwa [Nat.mul_comm])
  unfold bit clearBit
  rw [word_set]
  by_cases hd : i / w = j / w
  · have hij : i = j ↔ i % w = j % w := by
      rw [eq_iff_div_mod (w := w), and_iff_right hd]
    have hm : j % w < w := Nat.mod_lt _ hw
    have hm' : i % w < w := Nat.mod_lt _ hw
    rw [if_pos ⟨hd, hlen⟩, BitVec.getLsbD_and, BitVec.getLsbD_not, BitVec.getLsbD_twoPow, hd]
    simp [hij, hm, hm', Bool.and_comm]
  · rw [if_neg fun h => hd h.1]
    have hne : i ≠ j := fun h => hd (by rw [h])
    simp [hne]

theorem bit_replicate_zero : bit (List.replicate n (0 : BitVec w)) i = false := by
  unfold bit word
  rw [List.getD_eq_getElem?_getD, List.getElem?_replicate]
  split_ifs <;> simp

end Bits

section Count

theorem count_eq_zero (h : ∀ i < n, bit bm i = false) : count bm n = 0 := by
  unfold count
  rw [Finset.card_eq_zero, Finset.filter_eq_empty_iff]
  intro i hi
  rw [h i (Finset.mem_range.1 hi)]
  exact Bool.false_ne_true

theorem exists_clear (bm : List (BitVec w)) (n : ℕ) (h : count bm n < n) :
    ∃ i < n, bit bm i = false := by
  by_contra hno
  have hall : (Finset.range n).filter (fun i => bit bm i) = Finset.range n := by
    refine Finset.filter_true_of_mem fun i hi => ?_
    by_contra hi'
    exact hno ⟨i, Finset.mem_range.1 hi, Bool.eq_false_iff.2 hi'⟩
  unfold count at h
  rw [hall, Finset.card_range] at h
  exact lt_irrefl _ h

theorem count_setBit (hw : 0 < w) (hi : i < bm.length * w) (hin : i < n) (hc : bit bm i = false) :
    count (setBit bm i) n = count bm n + 1 := by
  have hset : (Finset.range n).filter (fun j => bit (setBit bm i) j)
      = insert i ((Finset.range n).filter fun j => bit bm j) := by
    ext j
    simp only [Finset.mem_filter, Finset.mem_range, Finset.mem_insert, bit_setBit hw hi,
      Bool.or_eq_true, decide_eq_true_eq]
    constructor
    · rintro ⟨hj, rfl | hb⟩
      · exact .inl rfl
      · exact .inr ⟨hj, hb⟩
    · rintro (rfl | ⟨hj, hb⟩)
      · exact ⟨hin, .inl rfl⟩
      · exact ⟨hj, .inr hb⟩
  unfold count
  rw [hset, Finset.card_insert_of_notMem]
  simp [hc]

theorem count_clearBit (hw : 0 < w) (hi : i < bm.length * w) (hin : i < n) (hs : bit bm i = true) :
    count (clearBit bm i) n + 1 = count bm n := by
  have hset : (Finset.range n).filter (fun j => bit (clearBit bm i) j)
      = ((Finset.range n).filter fun j => bit bm j).erase i := by
    ext j
    simp only [Finset.mem_filter, Finset.mem_range, Finset.mem_erase, bit_clearBit hw hi,
      Bool.and_eq_true, Bool.not_eq_true', decide_eq_false_iff_not]
    constructor
    · rintro ⟨hj, hne, hb⟩
      exact ⟨fun h => hne h.symm, hj, hb⟩
    · rintro ⟨hne, hj, hb⟩
      exact ⟨hj, fun h => hne h.symm, hb⟩
  unfold count
  rw [hset, Finset.card_erase_add_one]
  simp [hin, hs]

end Count

section First

theorem firstBit_eq_none {x : BitVec w} (h : firstBit x = none) : x = BitVec.allOnes w := by
  unfold firstBit at h
  rw [List.find?_eq_none] at h
  refine BitVec.eq_of_getLsbD_eq fun i hi => ?_
  have := h i (List.mem_range.2 hi)
  simp only [Bool.not_eq_true', Bool.not_eq_false] at this
  simp [this, hi]

theorem firstBit_spec {x : BitVec w} (h : firstBit x = some b) :
    b < w ∧ x.getLsbD b = false ∧ ∀ i < b, x.getLsbD i = true := by
  unfold firstBit at h
  rw [List.find?_range_eq_some] at h
  obtain ⟨hb, hlt, hbefore⟩ := h
  refine ⟨List.mem_range.1 hlt, by simpa using hb, fun i hi => ?_⟩
  simpa using hbefore i hi

theorem firstWord_spec (h : firstWord bm = some e) :
    e < bm.length ∧ word bm e ≠ BitVec.allOnes w ∧ ∀ i < e, word bm i = BitVec.allOnes w := by
  unfold firstWord at h
  rw [List.findIdx?_eq_some_iff_getElem] at h
  obtain ⟨hlt, hne, hbefore⟩ := h
  refine ⟨hlt, ?_, fun i hi => ?_⟩
  · rw [word_eq_getElem hlt]
    simpa using hne
  · rw [word_eq_getElem (hi.trans hlt)]
    simpa using hbefore i hi

theorem firstBit_isSome (h : firstWord bm = some e) : (firstBit (word bm e)).isSome := by
  rw [Option.isSome_iff_ne_none]
  exact fun hnone => (firstWord_spec h).2.1 (firstBit_eq_none hnone)

theorem bit_of_firstWord_none (hw : 0 < w) (h : firstWord bm = none) (hi : i < bm.length * w) :
    bit bm i = true := by
  unfold firstWord at h
  rw [List.findIdx?_eq_none_iff] at h
  have hlen : i / w < bm.length := Nat.div_lt_of_lt_mul (by rwa [Nat.mul_comm])
  have hword : word bm (i / w) = BitVec.allOnes w := by
    have := h _ (List.getElem_mem hlen)
    rw [word_eq_getElem hlen]
    simpa using this
  unfold bit
  rw [hword, BitVec.getLsbD_allOnes]
  simp [Nat.mod_lt _ hw]

theorem firstClear_spec (hw : 0 < w) (he : firstWord bm = some e)
    (hb : firstBit (word bm e) = some b) :
    e * w + b < bm.length * w ∧ bit bm (e * w + b) = false ∧ ∀ i < e * w + b, bit bm i = true := by
  obtain ⟨hlt, -, hbefore⟩ := firstWord_spec he
  obtain ⟨hbw, hclear, hbits⟩ := firstBit_spec hb
  have hdiv : (e * w + b) / w = e := by
    rw [Nat.mul_comm, Nat.mul_add_div hw, Nat.div_eq_of_lt hbw, Nat.add_zero]
  have hmod : (e * w + b) % w = b := by
    rw [Nat.mul_comm, Nat.mul_add_mod, Nat.mod_eq_of_lt hbw]
  refine ⟨?_, ?_, fun i hi => ?_⟩
  · calc e * w + b < e * w + w := by omega
      _ = (e + 1) * w := (Nat.succ_mul e w).symm
      _ ≤ bm.length * w := Nat.mul_le_mul_right w hlt
  · unfold bit
    rw [hdiv, hmod]
    exact hclear
  · have hmlt : i % w < w := Nat.mod_lt _ hw
    unfold bit
    rcases lt_trichotomy (i / w) e with hd | hd | hd
    · rw [hbefore _ hd, BitVec.getLsbD_allOnes]
      simp [hmlt]
    · rw [hd]
      refine hbits _ ?_
      have := Nat.div_add_mod i w
      rw [hd, Nat.mul_comm] at this
      omega
    · -- the word of `i` would be behind the one that was found
      have hle : (e + 1) * w ≤ i / w * w := Nat.mul_le_mul_right w hd
      have := Nat.div_mul_le_self i w
      rw [Nat.succ_mul] at hle
      omega

end First

end XMach.Bitmap
