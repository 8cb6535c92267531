import Mathlib.Tactic.Basic

/-!
# Machines and their runs

A machine has states to start from and steps, each of which may be impossible in a state. `M.Reach C
s` says that steps which all meet `C` lead to `s`; what they keep holds there (`Reach.inv`). A run
given as a list of steps leads to such a state if each step meets `C` where it is taken (`Along`).
-/

namespace XMach

structure Machine (σ α : Type*) where
  start : σ → Prop
  step : σ → α → Option σ

namespace Machine

variable {σ α : Type*} {M : Machine σ α} {C D : σ → α → Prop} {I : σ → Prop} {s s' : σ}
  {acts : List α}

/-- The states that steps with `C` lead to. -/
inductive Reach (M : Machine σ α) (C : σ → α → Prop) : σ → Prop
  | start {s : σ} (h : M.start s) : Reach M C s
  | step {s s' : σ} (a : α) (h : Reach M C s) (hc : C s a) (hs : M.step s a = some s') :
      Reach M C s'

/-- Any step. -/
def Any : σ → α → Prop := fun _ _ => True

def run (M : Machine σ α) : σ → List α → Option σ
  | s, [] => some s
  | s, a :: acts => (M.step s a).bind fun s' => M.run s' acts

/-- Each step meets the condition in the state before it. -/
def Along (M : Machine σ α) (C : σ → α → Prop) : σ → List α → Prop
  | _, [] => True
  | s, a :: acts => C s a ∧ ∀ s', M.step s a = some s' → M.Along C s' acts

theorem Reach.inv (h : M.Reach C s) (hstart : ∀ s, M.start s → I s)
    (hstep : ∀ s a s', I s → C s a → M.step s a = some s' → I s') : I s := by
  induction h with
  | start h => exact hstart _ h
  | step a _ hc hs ih => exact hstep _ a _ ih hc hs

theorem Reach.run (h : M.Reach C s) (hc : M.Along C s acts) (hr : M.run s acts = some s') :
    M.Reach C s' := by
  induction acts generalizing s with
  | nil =>
    cases hr
    exact h
  | cons a acts ih =>
    obtain ⟨s₁, hs, hr⟩ := Option.bind_eq_some_iff.1 hr
    exact ih (h.step a hc.1 hs) (hc.2 s₁ hs) hr

theorem Along.of_append {acts' : List α} (h : M.Along C s (acts ++ acts')) : M.Along C s acts := by
  induction acts generalizing s with
  | nil => trivial
  | cons a acts ih => exact ⟨h.1, fun s' hs => ih (h.2 s' hs)⟩

theorem along_any (M : Machine σ α) (s : σ) (acts : List α) : M.Along Any s acts := by
  induction acts generalizing s with
  | nil => trivial
  | cons a acts ih => exact ⟨trivial, fun s' _ => ih s'⟩

/-- A run can be checked for a condition that can be decided. -/
instance decidableAlong [∀ s a, Decidable (C s a)] : ∀ s acts, Decidable (M.Along C s acts)
  | _, [] => isTrue trivial
  | s, a :: acts =>
    match h : M.step s a with
    | none => decidable_of_iff (C s a) (by simp [Along, h])
    | some s₁ =>
      haveI := decidableAlong s₁ acts
      decidable_of_iff (C s a ∧ M.Along C s₁ acts) (by simp [Along, h])

/-- A run that leads to a state with `p`. -/
theorem Reach.exists_run {p : σ → Bool} (h : M.start s) (hc : M.Along C s acts)
    (hr : (M.run s acts).map p = some true) : ∃ s', M.Reach C s' ∧ p s' = true := by
  obtain ⟨s', hrun, hp⟩ := Option.map_eq_some_iff.1 hr
  exact ⟨s', (Reach.start h).run hc hrun, hp⟩

end Machine

end XMach
