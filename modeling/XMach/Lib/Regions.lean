import Mathlib.Algebra.BigOperators.Group.List.Basic
import Mathlib.Algebra.Ring.Nat
import Mathlib.Data.List.Pairwise
import Mathlib.Data.Option.Defs

/-!
# Lists of disjoint regions

A region is a half-open interval of numbers that carries something. A list of regions is `Ordered`
when none is empty and each ends before the next one starts. Such a list is a partial function,
which gives each number the region that covers it (`regionAt`), and what it covers can be measured
(`total`). The lemmas say how both behave when a list is taken apart and put together again.
-/

namespace XMach

class Region (α : Type*) where
  start : α → ℕ
  stop : α → ℕ

namespace Region

variable {α : Type*} [Region α]

def Covers (x : α) (a : ℕ) : Prop := start x ≤ a ∧ a < stop x

instance (x : α) (a : ℕ) : Decidable (Covers x a) := inferInstanceAs (Decidable (_ ∧ _))

/-- No region of the list is empty, and each ends before those behind it start. -/
structure Ordered (l : List α) : Prop where
  apart : l.Pairwise fun x y => stop x ≤ start y
  nonempty : ∀ x ∈ l, start x < stop x

/-- Each region ends before those behind it start, but a region may be empty. -/
structure Loose (l : List α) : Prop where
  apart : l.Pairwise fun x y => stop x ≤ start y
  le : ∀ x ∈ l, start x ≤ stop x

/-- The region that covers `a`. -/
def regionAt (l : List α) (a : ℕ) : Option α := l.find? fun x => decide (Covers x a)

/-- The numbers that the list covers, counted region by region. -/
def total (l : List α) : ℕ := (l.map fun x => stop x - start x).sum

/-- The regions follow each other without a gap from `a` to `b`. -/
def Tiles : List α → ℕ → ℕ → Prop
  | [], a, b => a = b
  | x :: l, a, b => start x = a ∧ start x < stop x ∧ Tiles l (stop x) b

section Ordered

variable {l l₁ l₂ : List α} {x y : α} {a b : ℕ}

@[simp] theorem ordered_nil : Ordered ([] : List α) := ⟨.nil, by simp⟩

theorem ordered_cons : Ordered (x :: l) ↔
    start x < stop x ∧ (∀ y ∈ l, stop x ≤ start y) ∧ Ordered l := by
  constructor
  · rintro ⟨hp, hn⟩
    rw [List.pairwise_cons] at hp
    exact ⟨hn x List.mem_cons_self, hp.1, hp.2, fun y hy => hn y (List.mem_cons_of_mem _ hy)⟩
  · rintro ⟨hx, hl, hp, hn⟩
    exact ⟨List.pairwise_cons.2 ⟨hl, hp⟩, List.forall_mem_cons.2 ⟨hx, hn⟩⟩

theorem ordered_append : Ordered (l₁ ++ l₂) ↔
    Ordered l₁ ∧ Ordered l₂ ∧ ∀ x ∈ l₁, ∀ y ∈ l₂, stop x ≤ start y := by
  constructor
  · rintro ⟨hp, hn⟩
    rw [List.pairwise_append] at hp
    rw [List.forall_mem_append] at hn
    exact ⟨⟨hp.1, hn.1⟩, ⟨hp.2.1, hn.2⟩, hp.2.2⟩
  · rintro ⟨⟨hp₁, hn₁⟩, ⟨hp₂, hn₂⟩, h⟩
    exact ⟨List.pairwise_append.2 ⟨hp₁, hp₂, h⟩, List.forall_mem_append.2 ⟨hn₁, hn₂⟩⟩

theorem Ordered.left (h : Ordered (l₁ ++ l₂)) : Ordered l₁ := (ordered_append.1 h).1

theorem Ordered.right (h : Ordered (l₁ ++ l₂)) : Ordered l₂ := (ordered_append.1 h).2.1

theorem Ordered.sublist (h : Ordered l) (hs : l₁.Sublist l) : Ordered l₁ :=
  ⟨h.apart.sublist hs, fun x hx => h.nonempty x (hs.subset hx)⟩

/-- What follows a region that starts at `a` or later starts at `a` or later. -/
theorem Ordered.start_le (h : Ordered (x :: l)) (hy : y ∈ l) : start x ≤ start y := by
  obtain ⟨hx, hl, -⟩ := ordered_cons.1 h
  have := hl y hy
  omega

end Ordered

section Loose

variable {l l₁ l₂ : List α} {x y : α} {a b : ℕ}

theorem Ordered.loose (h : Ordered l) : Loose l :=
  ⟨h.apart, fun x hx => Nat.le_of_lt (h.nonempty x hx)⟩

@[simp] theorem loose_nil : Loose ([] : List α) := ⟨.nil, by simp⟩

theorem loose_singleton (h : start x ≤ stop x) : Loose [x] := ⟨by simp, by simpa using h⟩

theorem loose_append : Loose (l₁ ++ l₂) ↔
    Loose l₁ ∧ Loose l₂ ∧ ∀ x ∈ l₁, ∀ y ∈ l₂, stop x ≤ start y := by
  constructor
  · intro h
    obtain ⟨hp₁, hp₂, hp⟩ := List.pairwise_append.1 h.apart
    obtain ⟨hn₁, hn₂⟩ := List.forall_mem_append.1 h.le
    exact ⟨⟨hp₁, hn₁⟩, ⟨hp₂, hn₂⟩, hp⟩
  · intro ⟨h₁, h₂, h⟩
    exact ⟨List.pairwise_append.2 ⟨h₁.apart, h₂.apart, h⟩, List.forall_mem_append.2 ⟨h₁.le, h₂.le⟩⟩

theorem Loose.left (h : Loose (l₁ ++ l₂)) : Loose l₁ := (loose_append.1 h).1

theorem Loose.right (h : Loose (l₁ ++ l₂)) : Loose l₂ := (loose_append.1 h).2.1

theorem Loose.stop_le (h : Loose (x :: l)) (hy : y ∈ l) : stop x ≤ start y :=
  (List.pairwise_cons.1 h.apart).1 y hy

theorem Loose.start_le (h : Loose (x :: l)) (hy : y ∈ l) : start x ≤ start y :=
  Nat.le_trans (h.le x List.mem_cons_self) (h.stop_le hy)

theorem Loose.tail (h : Loose (x :: l)) : Loose l :=
  ⟨(List.pairwise_cons.1 h.apart).2, fun y hy => h.le y (List.mem_cons_of_mem _ hy)⟩

/-- A region that does not end before another one starts is that one, or lies behind it. -/
theorem Loose.start_le_of_lt_stop (h : Loose l) (hx : x ∈ l) (hy : y ∈ l) (hlt : start x < stop y) :
    start x ≤ start y := by
  induction l with
  | nil => simp at hx
  | cons z l ih =>
    rcases List.mem_cons.1 hx with rfl | hxl
    · rcases List.mem_cons.1 hy with rfl | hyl
      · exact Nat.le_refl _
      · exact h.start_le hyl
    · rcases List.mem_cons.1 hy with rfl | hyl
      · have := h.stop_le hxl
        omega
      · exact ih h.tail hxl hyl

theorem Loose.eq_of_covers (h : Loose l) (hx : x ∈ l) (hy : y ∈ l) (hcx : Covers x a)
    (hcy : Covers y a) : x = y := by
  induction l with
  | nil => simp at hx
  | cons z l ih =>
    have hfar : ∀ u ∈ l, Covers z a → ¬ Covers u a := fun u hu hz hua => by
      have := h.stop_le hu
      have := hz.2
      have := hua.1
      omega
    rcases List.mem_cons.1 hx with rfl | hxl
    · rcases List.mem_cons.1 hy with rfl | hyl
      · rfl
      · exact absurd hcy (hfar y hyl hcx)
    · rcases List.mem_cons.1 hy with rfl | hyl
      · exact absurd hcx (hfar x hxl hcy)
      · exact ih h.tail hxl hyl

end Loose

section RegionAt

variable {l l₁ l₂ : List α} {x : α} {a : ℕ}

@[simp] theorem regionAt_nil : regionAt ([] : List α) a = none := rfl

theorem regionAt_cons : regionAt (x :: l) a = if Covers x a then some x else regionAt l a := by
  unfold regionAt
  by_cases h : Covers x a <;> simp [h]

theorem regionAt_append : regionAt (l₁ ++ l₂) a = (regionAt l₁ a).or (regionAt l₂ a) :=
  List.find?_append

theorem regionAt_eq_none : regionAt l a = none ↔ ∀ x ∈ l, ¬ Covers x a := by
  simp [regionAt, List.find?_eq_none]

theorem regionAt_of_stop_le (h : ∀ x ∈ l, stop x ≤ a) : regionAt l a = none := by
  rw [regionAt_eq_none]
  intro x hx hc
  have := h x hx
  exact absurd hc.2 (by omega)

theorem regionAt_of_lt_start (h : ∀ x ∈ l, a < start x) : regionAt l a = none := by
  rw [regionAt_eq_none]
  intro x hx hc
  have := h x hx
  exact absurd hc.1 (by omega)

theorem mem_of_regionAt (h : regionAt l a = some x) : x ∈ l ∧ Covers x a :=
  ⟨List.mem_of_find?_eq_some h, by simpa using List.find?_some h⟩

/-- In an ordered list the region that covers a number is the only one. -/
theorem Ordered.regionAt_eq_some (h : Ordered l) : regionAt l a = some x ↔ x ∈ l ∧ Covers x a := by
  refine ⟨mem_of_regionAt, ?_⟩
  rintro ⟨hx, hc⟩
  induction l with
  | nil => simp at hx
  | cons y l ih =>
    obtain ⟨-, hy, hl⟩ := ordered_cons.1 h
    rw [regionAt_cons]
    rcases List.mem_cons.1 hx with rfl | hx
    · rw [if_pos hc]
    · have := hy x hx
      have : ¬ Covers y a := fun hca => by
        have := hca.2
        have := hc.1
        omega
      rw [if_neg this, ih hl hx]

end RegionAt

section Total

variable {l l₁ l₂ : List α} {x : α} {a b : ℕ}

@[simp] theorem total_nil : total ([] : List α) = 0 := rfl

@[simp] theorem total_cons : total (x :: l) = (stop x - start x) + total l := by simp [total]

@[simp] theorem total_append : total (l₁ ++ l₂) = total l₁ + total l₂ := by simp [total]

/-- Disjoint regions between `a` and `b` do not cover more than there is. -/
theorem Ordered.total_le (h : Ordered l) (ha : ∀ x ∈ l, a ≤ start x) (hb : ∀ x ∈ l, stop x ≤ b)
    (hab : a ≤ b) : total l ≤ b - a := by
  induction l generalizing a with
  | nil => simp
  | cons x l ih =>
    obtain ⟨hx, hl, ho⟩ := ordered_cons.1 h
    have hxa := ha x List.mem_cons_self
    have hxb := hb x List.mem_cons_self
    have := ih ho hl (fun y hy => hb y (List.mem_cons_of_mem _ hy)) hxb
    rw [total_cons]
    omega

end Total

section Tiles

variable {l : List α} {x : α} {a b : ℕ}

theorem Tiles.ordered : ∀ {l : List α} {a b : ℕ}, Tiles l a b →
    Ordered l ∧ (∀ x ∈ l, a ≤ start x ∧ stop x ≤ b) ∧ a ≤ b ∧ total l = b - a
  | [], a, b, h => by
    obtain rfl : a = b := h
    simp
  | x :: l, a, b, ⟨hs, hx, hl⟩ => by
    obtain ⟨ho, hm, hle, ht⟩ := hl.ordered
    refine ⟨ordered_cons.2 ⟨hx, fun y hy => (hm y hy).1, ho⟩,
      ?_, by omega, by rw [total_cons]; omega⟩
    intro y hy
    rcases List.mem_cons.1 hy with rfl | hy
    · exact ⟨by omega, hle⟩
    · have := hm y hy
      exact ⟨by omega, this.2⟩

theorem Tiles.append : ∀ {l : List α} {l' : List α} {a b c : ℕ}, Tiles l a b → Tiles l' b c →
    Tiles (l ++ l') a c
  | [], _, a, b, _, h, h' => by
    obtain rfl : a = b := h
    exact h'
  | _ :: _, _, _, _, _, ⟨hs, hx, hl⟩, h' => ⟨hs, hx, hl.append h'⟩

end Tiles

section Cuts

variable {R S : α → α → Prop}

/-- `l'` has the regions of `l`, some of them cut in two. Each region of `l'` is in the relation `R`
with the one that it is or was cut from. -/
inductive Cuts (R : α → α → Prop) : List α → List α → Prop
  | nil : Cuts R [] []
  | keep {x x' : α} {l l' : List α} : R x x' → start x' = start x → stop x' = stop x → Cuts R l l' →
      Cuts R (x :: l) (x' :: l')
  | split {x x₁ x₂ : α} {l l' : List α} : R x x₁ → R x x₂ → start x₁ = start x →
      stop x₁ = start x₂ → stop x₂ = stop x → start x < start x₂ → start x₂ < stop x →
      Cuts R l l' → Cuts R (x :: l) (x₁ :: x₂ :: l')

variable {l l' l₁ l₂ l₁' l₂' : List α} {x x₁ x₂ : α} {a b : ℕ}

theorem Cuts.refl : ∀ {l : List α}, (∀ x ∈ l, R x x) → Cuts R l l
  | [], _ => .nil
  | x :: _, h => .keep (h x List.mem_cons_self) rfl rfl
    (Cuts.refl fun y hy => h y (List.mem_cons_of_mem _ hy))

theorem Cuts.mono (h : Cuts R l l') (hRS : ∀ x ∈ l, ∀ x', R x x' → S x x') : Cuts S l l' := by
  induction h with
  | nil => exact .nil
  | keep hR hs he _ ih =>
    rw [List.forall_mem_cons] at hRS
    exact .keep (hRS.1 _ hR) hs he (ih hRS.2)
  | split hR₁ hR₂ h₁ h₂ h₃ h₄ h₅ _ ih =>
    rw [List.forall_mem_cons] at hRS
    exact .split (hRS.1 _ hR₁) (hRS.1 _ hR₂) h₁ h₂ h₃ h₄ h₅ (ih hRS.2)

theorem Cuts.append (h₁ : Cuts R l₁ l₁') (h₂ : Cuts R l₂ l₂') : Cuts R (l₁ ++ l₂) (l₁' ++ l₂') := by
  induction h₁ with
  | nil => exact h₂
  | keep hR hs he _ ih => exact .keep hR hs he ih
  | split hR₁ hR₂ h₁ h₂ h₃ h₄ h₅ _ ih => exact .split hR₁ hR₂ h₁ h₂ h₃ h₄ h₅ ih

theorem Cuts.start_ge (h : Cuts R l l') (hl : ∀ x ∈ l, a ≤ start x) : ∀ x ∈ l', a ≤ start x := by
  induction h with
  | nil => exact hl
  | keep hR hs he _ ih =>
    rw [List.forall_mem_cons] at hl ⊢
    exact ⟨by omega, ih hl.2⟩
  | split hR₁ hR₂ h₁ h₂ h₃ h₄ h₅ _ ih =>
    rw [List.forall_mem_cons] at hl ⊢
    rw [List.forall_mem_cons]
    exact ⟨by omega, by omega, ih hl.2⟩

theorem Cuts.stop_le (h : Cuts R l l') (hl : ∀ x ∈ l, stop x ≤ b) : ∀ x ∈ l', stop x ≤ b := by
  induction h with
  | nil => exact hl
  | keep hR hs he _ ih =>
    rw [List.forall_mem_cons] at hl ⊢
    exact ⟨by omega, ih hl.2⟩
  | split hR₁ hR₂ h₁ h₂ h₃ h₄ h₅ _ ih =>
    rw [List.forall_mem_cons] at hl ⊢
    rw [List.forall_mem_cons]
    exact ⟨by omega, by omega, ih hl.2⟩

theorem Cuts.ordered (h : Cuts R l l') (hl : Ordered l) : Ordered l' := by
  induction h with
  | nil => exact hl
  | keep hR hs he hc ih =>
    obtain ⟨hx, hy, ho⟩ := ordered_cons.1 hl
    exact ordered_cons.2 ⟨by omega, hc.start_ge (by rw [he]; exact hy), ih ho⟩
  | split hR₁ hR₂ h₁ h₂ h₃ h₄ h₅ hc ih =>
    obtain ⟨hx, hy, ho⟩ := ordered_cons.1 hl
    have htail := hc.start_ge hy
    refine ordered_cons.2 ⟨by omega, List.forall_mem_cons.2 ⟨by omega, fun y hy' => ?_⟩,
      ordered_cons.2 ⟨by omega, fun y hy' => h₃ ▸ htail y hy', ih ho⟩⟩
    have := htail y hy'
    omega

theorem Cuts.total_eq (h : Cuts R l l') : total l' = total l := by
  induction h with
  | nil => rfl
  | keep hR hs he _ ih => rw [total_cons, total_cons, ih, hs, he]
  | split hR₁ hR₂ h₁ h₂ h₃ h₄ h₅ _ ih =>
    rw [total_cons, total_cons, total_cons, ih]
    omega

theorem Cuts.exists_of_mem (h : Cuts R l l') {x' : α} (hx : x' ∈ l') :
    ∃ x ∈ l, R x x' ∧ start x ≤ start x' ∧ stop x' ≤ stop x := by
  induction h with
  | nil => simp at hx
  | @keep x y l l' hR hs he _ ih =>
    rcases List.mem_cons.1 hx with rfl | hx
    · exact ⟨x, List.mem_cons_self, hR, by omega, by omega⟩
    · obtain ⟨z, hz, h⟩ := ih hx
      exact ⟨z, List.mem_cons_of_mem _ hz, h⟩
  | @split x x₁ x₂ l l' hR₁ hR₂ h₁ h₂ h₃ h₄ h₅ _ ih =>
    rcases List.mem_cons.1 hx with rfl | hx
    · exact ⟨x, List.mem_cons_self, hR₁, by omega, by omega⟩
    · rcases List.mem_cons.1 hx with rfl | hx
      · exact ⟨x, List.mem_cons_self, hR₂, by omega, by omega⟩
      · obtain ⟨z, hz, h⟩ := ih hx
        exact ⟨z, List.mem_cons_of_mem _ hz, h⟩

theorem Cuts.regionAt (h : Cuts R l l') (a : ℕ) :
    Option.Rel (fun x x' => R x x' ∧ Covers x' a) (regionAt l a) (regionAt l' a) := by
  induction h with
  | nil => exact .none
  | @keep x x' l l' hR hs he _ ih =>
    rw [regionAt_cons, regionAt_cons]
    have hcov : Covers x' a ↔ Covers x a := by rw [Covers, Covers, hs, he]
    by_cases hc : Covers x a
    · rw [if_pos hc, if_pos (hcov.2 hc)]
      exact .some ⟨hR, hcov.2 hc⟩
    · rw [if_neg hc, if_neg (mt hcov.1 hc)]
      exact ih
  | @split x x₁ x₂ l l' hR₁ hR₂ h₁ h₂ h₃ h₄ h₅ _ ih =>
    rw [regionAt_cons, regionAt_cons, regionAt_cons]
    have hcov : Covers x a ↔ Covers x₁ a ∨ Covers x₂ a := by
      unfold Covers
      omega
    by_cases hc₁ : Covers x₁ a
    · rw [if_pos (hcov.2 (.inl hc₁)), if_pos hc₁]
      exact .some ⟨hR₁, hc₁⟩
    · by_cases hc₂ : Covers x₂ a
      · rw [if_pos (hcov.2 (.inr hc₂)), if_neg hc₁, if_pos hc₂]
        exact .some ⟨hR₂, hc₂⟩
      · rw [if_neg (by rw [hcov]; tauto), if_neg hc₁, if_neg hc₂]
        exact ih

end Cuts

section Retile

variable {R S : α → α → Prop}

/-- `l'` has for each region of `l` a list of regions that take its place without a gap, each in the
relation `R` with it. -/
inductive Retile (R : α → α → Prop) : List α → List α → Prop
  | nil : Retile R [] []
  | cons {x : α} {b l l' : List α} : Tiles b (start x) (stop x) → (∀ y ∈ b, R x y) → Retile R l l' →
      Retile R (x :: l) (b ++ l')

variable {l l' l₁ l₂ l₁' l₂' : List α} {x : α} {a b : ℕ}

theorem Tiles.exists_covers : ∀ {l : List α} {a b : ℕ}, Tiles l a b → ∀ {c : ℕ}, a ≤ c → c < b →
    ∃ y ∈ l, Covers y c
  | [], a, b, h, c, ha, hb => by
    obtain rfl : a = b := h
    omega
  | x :: l, a, b, ⟨hs, hx, hl⟩, c, ha, hb => by
    by_cases hc : c < stop x
    · exact ⟨x, List.mem_cons_self, by omega, hc⟩
    · obtain ⟨y, hy, hcov⟩ := hl.exists_covers (by omega) hb
      exact ⟨y, List.mem_cons_of_mem _ hy, hcov⟩

theorem Retile.refl : ∀ {l : List α}, Ordered l → (∀ x ∈ l, R x x) → Retile R l l
  | [], _, _ => .nil
  | x :: l, ho, h => by
    obtain ⟨hx, -, ho'⟩ := ordered_cons.1 ho
    have hx' : Retile R (x :: l) ([x] ++ l) :=
      .cons ⟨rfl, hx, rfl⟩ (by simpa using h x List.mem_cons_self)
        (Retile.refl ho' fun y hy => h y (List.mem_cons_of_mem _ hy))
    exact hx'

theorem Retile.append (h₁ : Retile R l₁ l₁') (h₂ : Retile R l₂ l₂') :
    Retile R (l₁ ++ l₂) (l₁' ++ l₂') := by
  induction h₁ with
  | nil => exact h₂
  | cons ht hR _ ih =>
    rw [List.append_assoc]
    exact .cons ht hR ih

theorem Retile.start_ge (h : Retile R l l') (hl : ∀ x ∈ l, a ≤ start x) :
    ∀ x ∈ l', a ≤ start x := by
  induction h with
  | nil => exact hl
  | cons ht hR _ ih =>
    rw [List.forall_mem_cons] at hl
    refine List.forall_mem_append.2 ⟨fun y hy => ?_, ih hl.2⟩
    have := (ht.ordered.2.1 y hy).1
    omega

theorem Retile.stop_le (h : Retile R l l') (hl : ∀ x ∈ l, stop x ≤ b) : ∀ x ∈ l', stop x ≤ b := by
  induction h with
  | nil => exact hl
  | cons ht hR _ ih =>
    rw [List.forall_mem_cons] at hl
    refine List.forall_mem_append.2 ⟨fun y hy => ?_, ih hl.2⟩
    have := (ht.ordered.2.1 y hy).2
    omega

theorem Retile.ordered (h : Retile R l l') (hl : Ordered l) : Ordered l' := by
  induction h with
  | nil => exact hl
  | cons ht hR hc ih =>
    obtain ⟨hx, hy, ho⟩ := ordered_cons.1 hl
    refine ordered_append.2 ⟨ht.ordered.1, ih ho, fun y hy' z hz => ?_⟩
    have := (ht.ordered.2.1 y hy').2
    have := hc.start_ge hy z hz
    omega

theorem Retile.total_eq (h : Retile R l l') : total l' = total l := by
  induction h with
  | nil => rfl
  | cons ht hR _ ih => rw [total_append, total_cons, ih, ht.ordered.2.2.2]

theorem Retile.regionAt (h : Retile R l l') (a : ℕ) :
    Option.Rel (fun x x' => R x x' ∧ Covers x' a) (regionAt l a) (regionAt l' a) := by
  induction h with
  | nil => exact .none
  | @cons x b l l' ht hR _ ih =>
    rw [regionAt_cons, regionAt_append]
    by_cases hc : Covers x a
    · obtain ⟨y, hy, hcov⟩ := ht.exists_covers hc.1 hc.2
      cases hreg : Region.regionAt b a with
      | none => exact absurd hcov (regionAt_eq_none.1 hreg y hy)
      | some z =>
        obtain ⟨hz, hcz⟩ := mem_of_regionAt hreg
        rw [if_pos hc, Option.some_or]
        exact .some ⟨hR z hz, hcz⟩
    · have hreg : Region.regionAt b a = none := by
        refine regionAt_eq_none.2 fun y hy hcov => hc ?_
        obtain ⟨h₁, h₂⟩ := ht.ordered.2.1 y hy
        obtain ⟨h₃, h₄⟩ := hcov
        exact ⟨by omega, by omega⟩
      rw [if_neg hc, hreg, Option.none_or]
      exact ih

end Retile

end Region

end XMach
