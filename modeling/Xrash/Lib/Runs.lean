import Mathlib.Data.List.Basic

/-!
# Runs

A run applies one operation after another to a state, and stops where one does not return.
-/

namespace Runs

variable {σ κ : Type*} {step : σ → κ → Option σ} {P : σ → Prop}

/-- When every operation returns and keeps the property, every run does. -/
theorem foldlM_some (h : ∀ s k, P s → ∃ s', step s k = some s' ∧ P s') :
    ∀ (ks : List κ) (s : σ), P s → ∃ s', ks.foldlM step s = some s' ∧ P s'
  | [], s, hs => ⟨s, rfl, hs⟩
  | k :: ks, s, hs => by
    obtain ⟨s₁, hstep, hs₁⟩ := h s k hs
    obtain ⟨s', hrun, hs'⟩ := foldlM_some h ks s₁ hs₁
    refine ⟨s', ?_, hs'⟩
    rw [List.foldlM_cons, hstep]
    exact hrun

/-- The property holds of what a run leaves. -/
theorem of_foldlM (h : ∀ s k, P s → ∃ s', step s k = some s' ∧ P s') {ks : List κ} {s s' : σ}
    (hs : P s) (hrun : ks.foldlM step s = some s') : P s' := by
  obtain ⟨t, ht, hP⟩ := foldlM_some h ks s hs
  rw [hrun, Option.some_inj] at ht
  exact ht ▸ hP

/-- A property every operation keeps is kept by a run. -/
theorem of_foldl {step : σ → κ → σ} (h : ∀ s k, P s → P (step s k)) :
    ∀ (ks : List κ) (s : σ), P s → P (ks.foldl step s)
  | [], _, hs => hs
  | k :: ks, s, hs => of_foldl h ks (step s k) (h s k hs)

end Runs
