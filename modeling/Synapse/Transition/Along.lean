import Mathlib.Data.List.Basic

/-!
# Conditions along a run

A run of a total step function, and a condition on each action and the state that it finds. Two
conditions may agree only where an invariant holds that steps meeting one of them keep; along a run
they then agree altogether (`Along.iff_of_invariant`), since up to the first action that meets
neither the invariant is kept.
-/

namespace Transition

variable {σ α : Type*}

/-- Whether every action of a run meets a condition in the state that it finds. -/
def Along (step : σ → α → σ) (P : σ → α → Prop) : σ → List α → Prop
  | _, [] => True
  | s, a :: as => P s a ∧ Along step P (step s a) as

namespace Along

variable {step : σ → α → σ} {P Q : σ → α → Prop} {I : σ → Prop} {s : σ} {as : List α}

/-- What steps that meet the condition keep holds at the end of the run. -/
theorem invariant (h : Along step P s as) (hstep : ∀ s a, I s → P s a → I (step s a))
    (hs : I s) : I (as.foldl step s) := by
  induction as generalizing s with
  | nil => exact hs
  | cons a as ih => exact ih h.2 (hstep s a hs h.1)

theorem iff_of_invariant (hiff : ∀ s a, I s → (P s a ↔ Q s a))
    (hstep : ∀ s a, I s → Q s a → I (step s a)) (hs : I s) :
    Along step P s as ↔ Along step Q s as := by
  induction as generalizing s with
  | nil => exact Iff.rfl
  | cons a as ih =>
    refine ⟨fun ⟨hp, h⟩ ↦ ?_, fun ⟨hq, h⟩ ↦ ?_⟩
    · have hq := (hiff s a hs).mp hp
      exact ⟨hq, (ih (hstep s a hs hq)).mp h⟩
    · exact ⟨(hiff s a hs).mpr hq, (ih (hstep s a hs hq)).mpr h⟩

theorem congr (h : ∀ s a, P s a ↔ Q s a) : Along step P s as ↔ Along step Q s as :=
  iff_of_invariant (I := fun _ ↦ True) (fun s a _ ↦ h s a) (fun _ _ _ _ ↦ trivial) trivial

end Along

/-- What every step keeps holds at the end of a run. -/
theorem foldl_invariant {step : σ → α → σ} {I : σ → Prop} {s : σ} {as : List α}
    (hstep : ∀ s a, I s → I (step s a)) (hs : I s) : I (as.foldl step s) := by
  induction as generalizing s with
  | nil => exact hs
  | cons a as ih => exact ih (hstep s a hs)

end Transition
