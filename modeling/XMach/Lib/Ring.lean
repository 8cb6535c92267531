import Mathlib.Data.Int.Notation
import Mathlib.Data.Nat.Notation
import Mathlib.Tactic.SplitIfs

/-!
# Rings

A ring is a range of addresses from `lo` up to `hi`, and behind the last one comes the first.
`Holds` says that the elements of a list lie one behind the other from `p` on and end before `q`;
one address stays free, so that an empty ring is told from a full one by its ends.
-/

namespace XMach.Ring

variable {α : Type*} {mem : ℤ → α} {lo hi p q : ℤ} {l : List α} {x : α}

/-- The address behind `p`. -/
def next (lo hi p : ℤ) : ℤ := if p + 1 = hi then lo else p + 1

/-- The address that is `k` behind `p`. -/
def slot (lo hi p : ℤ) (k : ℕ) : ℤ := if p + k < hi then p + k else p + k - (hi - lo)

structure Holds (mem : ℤ → α) (lo hi p q : ℤ) (l : List α) : Prop where
  lower : lo ≤ p
  upper : p < hi
  room : l.length < hi - lo
  last : q = slot lo hi p l.length
  cells : ∀ j (h : j < l.length), mem (slot lo hi p j) = l[j]

theorem slot_next (k : ℕ) (hk : k + 1 < hi - lo) :
    slot lo hi (next lo hi p) k = slot lo hi p (k + 1) := by
  unfold slot next
  push_cast
  split_ifs <;> omega

theorem next_slot (hlo : lo ≤ p) (hhi : p < hi) (k : ℕ) (hk : k < hi - lo) :
    next lo hi (slot lo hi p k) = slot lo hi p (k + 1) := by
  unfold slot next
  push_cast
  split_ifs <;> omega

theorem slot_ne {j k : ℕ} (hjk : j < k) (hk : k < hi - lo) : slot lo hi p j ≠ slot lo hi p k := by
  unfold slot
  split_ifs <;> omega

namespace Holds

theorem nil (mem : ℤ → α) (hlo : lo ≤ p) (hhi : p < hi) : Holds mem lo hi p p [] where
  lower := hlo
  upper := hhi
  room := by
    simp only [List.length_nil]
    omega
  last := by
    unfold slot
    simp [hhi]
  cells j h := absurd h (Nat.not_lt_zero j)

theorem last_mem (h : Holds mem lo hi p q l) : lo ≤ q ∧ q < hi := by
  have hlo := h.lower
  have hhi := h.upper
  have hroom := h.room
  rw [h.last]
  unfold slot
  split_ifs <;> omega

theorem eq_nil_iff (h : Holds mem lo hi p q l) : l = [] ↔ p = q := by
  have hlo := h.lower
  have hhi := h.upper
  have hroom := h.room
  rw [h.last, ← List.length_eq_zero_iff]
  unfold slot
  split_ifs <;> omega

theorem full_iff (h : Holds mem lo hi p q l) : next lo hi q = p ↔ l.length + 1 = hi - lo := by
  have hlo := h.lower
  have hhi := h.upper
  have hroom := h.room
  rw [h.last]
  unfold next slot
  split_ifs <;> omega

theorem push (h : Holds mem lo hi p q l) (hfull : l.length + 1 < hi - lo) {mem' : ℤ → α}
    (hq : mem' q = x)
    (hother : ∀ a ≠ q, mem' a = mem a) : Holds mem' lo hi p (next lo hi q) (l ++ [x]) where
  lower := h.lower
  upper := h.upper
  room := by
    rw [List.length_append, List.length_singleton]
    push_cast
    exact hfull
  last := by
    rw [h.last, next_slot h.lower h.upper _ h.room, List.length_append, List.length_singleton]
  cells j hj := by
    rw [List.length_append, List.length_singleton] at hj
    rcases Nat.lt_succ_iff_lt_or_eq.1 hj with hj | rfl
    · rw [hother _ (by rw [h.last]; exact slot_ne hj h.room), h.cells j hj,
        List.getElem_append_left hj]
    · rw [← h.last, hq, List.getElem_concat_length rfl]

theorem pop (h : Holds mem lo hi p q (x :: l)) : mem p = x ∧
    Holds mem lo hi (next lo hi p) q l := by
  have hroom := h.room
  rw [List.length_cons] at hroom
  push_cast at hroom
  have hfirst := h.cells 0 (by simp)
  refine ⟨?_, ?_, ?_, by omega, ?_, fun j hj => ?_⟩
  · have hslot : slot lo hi p 0 = p := by
      unfold slot
      simp [h.upper]
    rwa [hslot] at hfirst
  · have := h.lower
    unfold next
    split_ifs <;> omega
  · have := h.upper
    have := h.lower
    unfold next
    split_ifs <;> omega
  · rw [h.last, slot_next _ hroom, List.length_cons]
  · have hcell := h.cells (j + 1) (by simpa using hj)
    rw [slot_next _ (by omega), hcell, List.getElem_cons_succ]

theorem contiguous (h : Holds mem lo hi p q l) {j : ℕ} (hj : j < l.length) (hend : p + j < hi) :
    mem (p + j) = l[j] := by
  have hcell := h.cells j hj
  unfold slot at hcell
  rwa [if_pos hend] at hcell

theorem length_eq (h : Holds mem lo hi p q l) : (l.length : ℤ) = if q < p then hi - p + (q - lo)
    else q - p := by
  have hlo := h.lower
  have hhi := h.upper
  have hroom := h.room
  rw [h.last]
  unfold slot
  split_ifs <;> omega

end Holds

end XMach.Ring
