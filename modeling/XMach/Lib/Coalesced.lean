import XMach.Lib.Regions
import Mathlib.Order.Nat

/-!
# Regions with gaps between them

A list of regions is `Coalesced` when none is empty and between any two of them is a gap, so that no
two can be joined. A set of numbers is covered by at most one such list (`Coalesced.ext`).
-/

namespace XMach.Region

variable {α : Type*} [Region α] {l l' l₁ l₂ : List α} {x y : α} {a : ℕ}

/-- A number that some region of the list covers. -/
def Covered (l : List α) (a : ℕ) : Prop := ∃ x ∈ l, Covers x a

structure Coalesced (l : List α) : Prop where
  gaps : l.Pairwise fun x y => stop x < start y
  nonempty : ∀ x ∈ l, start x < stop x

@[simp] theorem covered_nil : ¬ Covered ([] : List α) a := by
  simp [Covered]

@[simp] theorem covered_cons : Covered (x :: l) a ↔ Covers x a ∨ Covered l a := by
  simp [Covered]

@[simp] theorem covered_append : Covered (l₁ ++ l₂) a ↔ Covered l₁ a ∨ Covered l₂ a := by
  simp only [Covered, List.mem_append, or_and_right, exists_or]

@[simp] theorem coalesced_nil : Coalesced ([] : List α) := ⟨.nil, by simp⟩

theorem coalesced_cons : Coalesced (x :: l) ↔
    start x < stop x ∧ (∀ y ∈ l, stop x < start y) ∧ Coalesced l := by
  constructor
  · rintro ⟨hp, hn⟩
    rw [List.pairwise_cons] at hp
    exact ⟨hn x List.mem_cons_self, hp.1, hp.2, fun y hy => hn y (List.mem_cons_of_mem _ hy)⟩
  · rintro ⟨hx, hl, hp, hn⟩
    exact ⟨List.pairwise_cons.2 ⟨hl, hp⟩, List.forall_mem_cons.2 ⟨hx, hn⟩⟩

theorem coalesced_append : Coalesced (l₁ ++ l₂) ↔
    Coalesced l₁ ∧ Coalesced l₂ ∧ ∀ x ∈ l₁, ∀ y ∈ l₂, stop x < start y := by
  constructor
  · rintro ⟨hp, hn⟩
    rw [List.pairwise_append] at hp
    exact ⟨⟨hp.1, fun x hx => hn x (List.mem_append_left _ hx)⟩,
      ⟨hp.2.1, fun x hx => hn x (List.mem_append_right _ hx)⟩, hp.2.2⟩
  · rintro ⟨⟨hp₁, hn₁⟩, ⟨hp₂, hn₂⟩, h⟩
    refine ⟨List.pairwise_append.2 ⟨hp₁, hp₂, h⟩, fun x hx => ?_⟩
    rcases List.mem_append.1 hx with hx | hx
    · exact hn₁ x hx
    · exact hn₂ x hx

theorem Coalesced.lt_of_covered (h : Coalesced (x :: l)) (ha : Covered l a) : stop x < a := by
  obtain ⟨y, hy, hya⟩ := ha
  exact lt_of_lt_of_le ((coalesced_cons.1 h).2.1 y hy) hya.1

theorem Coalesced.start_le (h : Coalesced (x :: l)) (ha : Covered (x :: l) a) : start x ≤ a := by
  rcases covered_cons.1 ha with ha | ha
  · exact ha.1
  · exact ((coalesced_cons.1 h).1.trans (h.lt_of_covered ha)).le

theorem Coalesced.covered_start (h : Coalesced (x :: l)) : Covered (x :: l) (start x) :=
  covered_cons.2 (.inl ⟨le_rfl, (coalesced_cons.1 h).1⟩)

theorem Coalesced.not_covered_stop (h : Coalesced (x :: l)) : ¬ Covered (x :: l) (stop x) := by
  intro hc
  rcases covered_cons.1 hc with hc | hc
  · exact lt_irrefl _ hc.2
  · exact lt_irrefl _ (h.lt_of_covered hc)

/-- Where one list has its first gap, another one that covers the same does not reach any
further. -/
theorem Coalesced.stop_le (h : Coalesced (y :: l')) (hstart : start x = start y)
    (hc : ∀ a, Covered (x :: l) a → Covered (y :: l') a) : stop x ≤ stop y := by
  by_contra hlt
  have hlt' : stop y < stop x := not_le.1 hlt
  have hy := (coalesced_cons.1 h).1
  refine h.not_covered_stop (hc _ (covered_cons.2 (.inl ⟨?_, hlt'⟩)))
  rw [hstart]
  exact hy.le

/-- The same numbers are covered by one coalesced list only. -/
theorem Coalesced.ext (hext : ∀ x y : α, start x = start y → stop x = stop y → x = y)
    (h : Coalesced l) (h' : Coalesced l') (hc : ∀ a, Covered l a ↔ Covered l' a) : l = l' := by
  induction l generalizing l' with
  | nil =>
    cases l' with
    | nil => rfl
    | cons y l' => exact absurd ((hc _).2 h'.covered_start) covered_nil
  | cons x l ih =>
    cases l' with
    | nil => exact absurd ((hc _).1 h.covered_start) covered_nil
    | cons y l' =>
      have hstart : start x = start y :=
        le_antisymm (h.start_le ((hc _).2 h'.covered_start))
          (h'.start_le ((hc _).1 h.covered_start))
      have hstop : stop x = stop y :=
        le_antisymm (h'.stop_le hstart fun a => (hc a).1) (h.stop_le hstart.symm fun a => (hc a).2)
      obtain rfl := hext x y hstart hstop
      congr 1
      refine ih (coalesced_cons.1 h).2.2 (coalesced_cons.1 h').2.2 fun a =>
        ⟨fun ha => ?_, fun ha => ?_⟩
      · rcases covered_cons.1 ((hc a).1 (covered_cons.2 (.inr ha))) with hx | hx
        · exact absurd hx.2 (not_lt.2 (h.lt_of_covered ha).le)
        · exact hx
      · rcases covered_cons.1 ((hc a).2 (covered_cons.2 (.inr ha))) with hx | hx
        · exact absurd hx.2 (not_lt.2 (h'.lt_of_covered ha).le)
        · exact hx

end XMach.Region
