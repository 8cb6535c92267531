import Mathlib.Data.Nat.Notation
import Mathlib.Data.List.Basic

/-!
# Block tables

A table gives for each block of a file the block of a medium where it is, or none for a hole; a
block has `w` units. The units of a file that follow each other do so on the medium as long as they
are in one block, and also across the border of two blocks that are neighbours there
(`place_run_iff`).
-/

namespace XMach.BlockTable

variable {table : List (Option ℕ)} {w j k n b r : ℕ}

/-- The unit of the medium where a unit of the file is. -/
def place (table : List (Option ℕ)) (w j : ℕ) : Option ℕ :=
  table[j / w]?.join.map fun b => b * w + j % w

theorem place_eq (hb : table[j / w]? = some (some b)) : place table w j = some (b * w + j % w) := by
  unfold place
  rw [hb]
  rfl

theorem mem_of_place (hw : 0 < w) (h : place table w j = some r) : some (r / w) ∈ table := by
  unfold place at h
  obtain ⟨b, hb, rfl⟩ := Option.map_eq_some_iff.mp h
  have hdiv : (b * w + j % w) / w = b := by
    rw [Nat.mul_comm, Nat.mul_add_div hw, Nat.div_eq_of_lt (Nat.mod_lt j hw), Nat.add_zero]
  rw [hdiv]
  exact List.mem_of_getElem? (Option.join_eq_some_iff.mp hb)

theorem add_in_block (hk : j % w + k < w) : (j + k) / w = j / w ∧ (j + k) % w = j % w + k := by
  have hw : 0 < w := Nat.lt_of_le_of_lt (Nat.zero_le _) hk
  have hj : j + k = w * (j / w) + (j % w + k) := by rw [← Nat.add_assoc, Nat.div_add_mod]
  constructor
  · rw [hj, Nat.mul_add_div hw, Nat.div_eq_of_lt hk, Nat.add_zero]
  · rw [hj, Nat.mul_add_mod, Nat.mod_eq_of_lt hk]

theorem add_in_next (hk : k < w) (hge : w ≤ j % w + k) :
    (j + k) / w = j / w + 1 ∧ (j + k) % w = j % w + k - w := by
  have hw : 0 < w := Nat.lt_of_le_of_lt (Nat.zero_le _) hk
  have hmod := Nat.mod_lt j hw
  have hj : j + k = w * (j / w + 1) + (j % w + k - w) := by
    have hdiv := Nat.div_add_mod j w
    rw [Nat.mul_succ]
    omega
  have hrest : j % w + k - w < w := by omega
  constructor
  · rw [hj, Nat.mul_add_div hw, Nat.div_eq_of_lt hrest, Nat.add_zero]
  · rw [hj, Nat.mul_add_mod, Nat.mod_eq_of_lt hrest]

/-- At most as many units as a block has, from one of a block on, follow each other on the medium
from `r` on if and only if they begin there and are in the block, or the next block of the file is
behind it on the medium. -/
theorem place_run_iff (hb : table[j / w]? = some (some b)) (hpos : 0 < n) (hn : n ≤ w) :
    (∀ k < n, place table w (j + k) = some (r + k)) ↔
      r = b * w + j % w ∧ (j % w + n ≤ w ∨ table[j / w + 1]? = some (some (b + 1))) := by
  have hw : 0 < w := Nat.lt_of_lt_of_le hpos hn
  have hmod := Nat.mod_lt j hw
  constructor
  · intro h
    have hfirst := h 0 hpos
    rw [Nat.add_zero, Nat.add_zero, place_eq hb] at hfirst
    have hr : r = b * w + j % w := (Option.some.inj hfirst).symm
    refine ⟨hr, ?_⟩
    by_cases hin : j % w + n ≤ w
    · exact .inl hin
    · -- the first unit behind the block
      have hlt : w - j % w < n := by omega
      have hnext := h (w - j % w) hlt
      obtain ⟨hdiv, hrest⟩ := add_in_next (j := j) (w := w) (k := w - j % w) (by omega) (by omega)
      unfold place at hnext
      rw [hdiv, hrest] at hnext
      obtain ⟨b', hb', heq⟩ := Option.map_eq_some_iff.mp hnext
      have hb'' : b' * w = (b + 1) * w := by
        rw [Nat.succ_mul]
        omega
      rw [Nat.eq_of_mul_eq_mul_right hw hb''] at hb'
      exact .inr (Option.join_eq_some_iff.mp hb')
  · rintro ⟨rfl, hnext⟩ k hk
    by_cases hin : j % w + k < w
    · obtain ⟨hdiv, hrest⟩ := add_in_block hin
      rw [place_eq (b := b) (by rw [hdiv]; exact hb), hrest, Nat.add_assoc]
    · have hge : w ≤ j % w + k := Nat.le_of_not_lt hin
      obtain ⟨hdiv, hrest⟩ := add_in_next (Nat.lt_of_lt_of_le hk hn) hge
      have hb' := hnext.resolve_left (by omega)
      rw [place_eq (b := b + 1) (by rw [hdiv]; exact hb'), hrest, Nat.succ_mul]
      congr 1
      omega

end XMach.BlockTable
