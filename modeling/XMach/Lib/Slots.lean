import Mathlib.Data.Nat.Notation
import Mathlib.Logic.Function.Basic

/-!
# Regions of memory and the variables that hold them

Regions have addresses above 0, and each one is held by one variable or is in flight: on its way to
a variable, or on its way to be freed. So no variable points to a region that is gone, and none is
lost, as long as nothing stays in flight.
-/

namespace XMach

open Function

variable {K R : Type*}

/-- The regions below `next` are those of the variables and those in flight. -/
structure Owns (ptr : K → ℕ) (flight : List ℕ) (live : ℕ → Option R) (next : ℕ) : Prop where
  alive : ∀ k, ptr k ≠ 0 → ∃ r, live (ptr k) = some r
  inFlight : ∀ p ∈ flight, ∃ r, live p = some r
  owner : ∀ p r, live p = some r → (∃ k, ptr k = p) ∨ p ∈ flight
  inj : ∀ k k', ptr k ≠ 0 → ptr k = ptr k' → k = k'
  apart : ∀ p ∈ flight, ∀ k, ptr k ≠ p
  nodup : flight.Nodup
  below : ∀ p r, live p = some r → 0 < p ∧ p < next
  pos : 0 < next

namespace Owns

variable {ptr : K → ℕ} {flight : List ℕ} {live : ℕ → Option R} {next p : ℕ}

theorem ne_next (h : Owns ptr flight live next) {r : R} (hp : live p = some r) : p ≠ next :=
  Nat.ne_of_lt (h.below p r hp).2

theorem ptr_ne_next (h : Owns ptr flight live next) (k : K) : ptr k ≠ next := by
  intro hk
  obtain ⟨r, hr⟩ := h.alive k (by rw [hk]; exact Nat.ne_of_gt h.pos)
  exact h.ne_next hr hk

theorem alloc (h : Owns ptr flight live next) (r : R) :
    Owns ptr (next :: flight) (update live next (some r)) (next + 1) where
  alive k hk := by
    rw [update_of_ne (h.ptr_ne_next k)]
    exact h.alive k hk
  inFlight p hp := by
    rcases List.mem_cons.mp hp with rfl | hp
    · exact ⟨r, update_self _ _ _⟩
    · obtain ⟨r', hr'⟩ := h.inFlight p hp
      exact ⟨r', by rw [update_of_ne (h.ne_next hr')]; exact hr'⟩
  owner p r' hp := by
    by_cases hne : p = next
    · exact .inr (hne ▸ List.mem_cons_self)
    · rw [update_of_ne hne] at hp
      exact (h.owner p r' hp).imp id (List.mem_cons_of_mem _)
  inj := h.inj
  apart p hp k := by
    rcases List.mem_cons.mp hp with rfl | hp
    · exact h.ptr_ne_next k
    · exact h.apart p hp k
  nodup := by
    refine List.nodup_cons.mpr ⟨fun hp => ?_, h.nodup⟩
    obtain ⟨r', hr'⟩ := h.inFlight next hp
    exact h.ne_next hr' rfl
  below p r' hp := by
    by_cases hne : p = next
    · have := h.pos
      omega
    · rw [update_of_ne hne] at hp
      have := h.below p r' hp
      omega
  pos := Nat.succ_pos _

/-- A region in flight goes to a variable, and the one of the variable is in flight. -/
theorem swap [DecidableEq K] (h : Owns ptr (p :: flight) live next) (k : K) (hp : p ≠ 0) :
    Owns (update ptr k p) (if ptr k = 0 then flight else ptr k :: flight) live next where
  alive j hj := by
    by_cases hjk : j = k
    · rw [hjk, update_self]
      exact h.inFlight p List.mem_cons_self
    · rw [update_of_ne hjk] at hj ⊢
      exact h.alive j hj
  inFlight q hq := by
    split at hq
    · exact h.inFlight q (List.mem_cons_of_mem _ hq)
    · next hk =>
      rcases List.mem_cons.mp hq with rfl | hq
      · exact h.alive k hk
      · exact h.inFlight q (List.mem_cons_of_mem _ hq)
  owner q r hq := by
    rcases h.owner q r hq with ⟨j, hj⟩ | hq'
    · by_cases hjk : j = k
      · have hk : ptr k ≠ 0 := by
          rw [← hjk, hj]
          exact Nat.ne_of_gt (h.below q r hq).1
        rw [if_neg hk, ← hj, hjk]
        exact .inr List.mem_cons_self
      · exact .inl ⟨j, by rw [update_of_ne hjk, hj]⟩
    · rcases List.mem_cons.mp hq' with rfl | hq'
      · exact .inl ⟨k, update_self _ _ _⟩
      · right
        split
        · exact hq'
        · exact List.mem_cons_of_mem _ hq'
  inj j j' hj heq := by
    by_cases hjk : j = k
    · by_cases hjk' : j' = k
      · rw [hjk, hjk']
      · rw [hjk, update_self, update_of_ne hjk'] at heq
        exact absurd heq.symm (h.apart p List.mem_cons_self j')
    · rw [update_of_ne hjk] at hj heq
      by_cases hjk' : j' = k
      · rw [hjk', update_self] at heq
        exact absurd heq (h.apart p List.mem_cons_self j)
      · rw [update_of_ne hjk'] at heq
        exact h.inj j j' hj heq
  apart q hq j := by
    have hcases : q ∈ flight ∨ (ptr k ≠ 0 ∧ q = ptr k) := by
      split at hq
      · exact .inl hq
      · next hk => exact (List.mem_cons.mp hq).symm.imp id fun h => ⟨hk, h⟩
    by_cases hjk : j = k
    · rw [hjk, update_self]
      rcases hcases with hq' | ⟨-, rfl⟩
      · rintro rfl
        exact (List.nodup_cons.mp h.nodup).1 hq'
      · exact fun heq => h.apart p List.mem_cons_self k heq.symm
    · rw [update_of_ne hjk]
      rcases hcases with hq' | ⟨hk, rfl⟩
      · exact h.apart q (List.mem_cons_of_mem _ hq') j
      · exact fun heq => hjk (h.inj k j hk heq.symm).symm
  nodup := by
    have hrest := (List.nodup_cons.mp h.nodup).2
    split
    · exact hrest
    · exact List.nodup_cons.mpr ⟨fun hk => h.apart _ (List.mem_cons_of_mem _ hk) k rfl, hrest⟩
  below := h.below
  pos := h.pos

theorem free (h : Owns ptr (p :: flight) live next) :
    Owns ptr flight (update live p none) next := by
  have hkept : ∀ q r, update live p none q = some r → q ≠ p ∧ live q = some r := by
    intro q r hq
    by_cases hne : q = p
    · rw [hne, update_self] at hq
      cases hq
    · rw [update_of_ne hne] at hq
      exact ⟨hne, hq⟩
  refine ⟨fun k hk => ?_, fun q hq => ?_, fun q r hq => ?_, h.inj,
    fun q hq => h.apart q (List.mem_cons_of_mem _ hq),
    (List.nodup_cons.mp h.nodup).2, fun q r hq => h.below q r (hkept q r hq).2, h.pos⟩
  · rw [update_of_ne (h.apart p List.mem_cons_self k)]
    exact h.alive k hk
  · have hne : q ≠ p := by
      rintro rfl
      exact (List.nodup_cons.mp h.nodup).1 hq
    rw [update_of_ne hne]
    exact h.inFlight q (List.mem_cons_of_mem _ hq)
  · obtain ⟨hne, hq⟩ := hkept q r hq
    exact (h.owner q r hq).imp id fun hm => (List.mem_cons.mp hm).resolve_left hne

theorem not_forget (h : Owns ptr (p :: flight) live next) : ¬ Owns ptr [] live next := by
  intro hforget
  obtain ⟨r, hr⟩ := h.inFlight p List.mem_cons_self
  rcases hforget.owner p r hr with ⟨k, hk⟩ | hnone
  · exact h.apart p List.mem_cons_self k hk
  · cases hnone

end Owns

end XMach
