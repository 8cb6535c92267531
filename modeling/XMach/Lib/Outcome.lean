import Mathlib.Tactic.Basic

/-!
# What a computation that may stop ends in

`Ends x Q E`: the computation returns a value that `Q` allows, or stops for a reason that `E`
allows. With `E` false everywhere it returns; with `E` true everywhere only what it returns counts.
-/

namespace XMach

variable {ε β γ : Type} {Q Q' : β → Prop} {R : γ → Prop} {E E' : ε → Prop} {x : Except ε β}

def Ends (x : Except ε β) (Q : β → Prop) (E : ε → Prop) : Prop :=
  match x with
  | .ok b => Q b
  | .error e => E e

namespace Ends

@[simp] theorem pure_iff {b : β} : Ends (pure b : Except ε β) Q E ↔ Q b := Iff.rfl

theorem mono (h : Ends x Q E) (hQ : ∀ b, Q b → Q' b) (hE : ∀ e, E e → E' e) : Ends x Q' E' := by
  cases x with
  | ok b => exact hQ b h
  | error e => exact hE e h

theorem imp (h : Ends x Q E) (hQ : ∀ b, Q b → Q' b) : Ends x Q' E := h.mono hQ fun _ he => he

/-- A computation and what follows it. -/
theorem bind {f : β → Except ε γ} (h : Ends x Q E) (hf : ∀ b, Q b → Ends (f b) R E) :
    Ends (x >>= f) R E := by
  cases x with
  | ok b => exact hf b h
  | error e => exact h

/-- What it returned is what `Q` allows. -/
theorem of_eq {b : β} (h : Ends x Q E) (hx : x = .ok b) : Q b := by
  rw [hx] at h
  exact h

theorem with_eq (h : Ends x Q E) : Ends x (fun b => Q b ∧ x = .ok b) E := by
  cases x with
  | ok b => exact ⟨h, rfl⟩
  | error e => exact h

/-- With no reason to stop it returns. -/
theorem returns (h : Ends x Q E) (hE : ∀ e, ¬ E e) : ∃ b, x = .ok b ∧ Q b := by
  cases x with
  | ok b => exact ⟨b, rfl, h⟩
  | error e => exact absurd h (hE e)

instance [∀ b, Decidable (Q b)] [∀ e, Decidable (E e)] : (x : Except ε β) → Decidable (Ends x Q E)
  | .ok b => inferInstanceAs (Decidable (Q b))
  | .error e => inferInstanceAs (Decidable (E e))

end Ends

theorem bind_eq_ok {f : β → Except ε γ} {z : γ} : (x >>= f) = .ok z ↔ ∃ b, x = .ok b ∧
    f b = .ok z := by
  cases x with
  | ok b =>
    constructor
    · exact fun h => ⟨b, rfl, h⟩
    · intro ⟨_, hb, h⟩
      cases hb
      exact h
  | error e =>
    constructor
    · intro h
      cases h
    · intro ⟨_, hb, _⟩
      cases hb

end XMach
