import Mathlib.Algebra.BigOperators.Group.Finset.Basic

/-!
# Totals

Each of finitely many things has a record, and something is counted over all records. One record
changes at a time, and the total with it.
-/

namespace XMach

open Function

theorem sum_update {ι α : Type*} [DecidableEq ι] {s : Finset ι} {i : ι} (hi : i ∈ s) (f : ι → α)
    (x : α) (m : α → ℕ) :
    ∑ j ∈ s, m (update f i x j) + m (f i) = ∑ j ∈ s, m (f j) + m x := by
  have hrest : ∑ j ∈ s.erase i, m (update f i x j) = ∑ j ∈ s.erase i, m (f j) :=
    Finset.sum_congr rfl fun j hj => by rw [update_of_ne (Finset.ne_of_mem_erase hj)]
  rw [← Finset.add_sum_erase s _ hi, ← Finset.add_sum_erase s (fun j => m (f j)) hi, hrest,
    update_self]
  omega

end XMach
