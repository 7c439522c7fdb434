import Synapse.Transition.Machine

/-!
# What is bound to happen

A state is bound to reach a goal by steps of some kind if it is there, or if such a step is enabled
and every such step leads to a state that is bound to reach it. So no run of these steps is stuck or
goes on forever without meeting the goal, whichever step is taken when several are enabled.

The way to prove it is a rank that every step lowers (`Inevitable.of_rank`).
-/

namespace Transition.Machine

variable {σ α : Type*}

/-- Every run of steps that meet `ok` ends in `goal`. -/
inductive Inevitable (M : Machine σ α) (ok : σ → α → Prop) (goal : σ → Prop) : σ → Prop
  | now {s : σ} (h : goal s) : Inevitable M ok goal s
  | later {s : σ} (hcan : ∃ a t, ok s a ∧ M.step s a = some t)
      (hall : ∀ a t, ok s a → M.step s a = some t → Inevitable M ok goal t) :
      Inevitable M ok goal s

variable {M : Machine σ α} {ok : σ → α → Prop} {goal : σ → Prop} {s : σ}

/-- As long as the goal is not met, a step is enabled, and every step keeps `P` and lowers the
rank. -/
theorem Inevitable.of_rank {P : σ → Prop} (rank : σ → ℕ)
    (hcan : ∀ s, P s → ¬ goal s → ∃ a t, ok s a ∧ M.step s a = some t)
    (hall : ∀ s a t, P s → ¬ goal s → ok s a → M.step s a = some t → P t ∧ rank t < rank s)
    (h : P s) : M.Inevitable ok goal s := by
  induction hn : rank s using Nat.strongRecOn generalizing s with
  | ind n ih =>
    by_cases hgoal : goal s
    · exact .now hgoal
    · refine .later (hcan s h hgoal) fun a t hok hs ↦ ?_
      obtain ⟨ht, hlt⟩ := hall s a t h hgoal hok hs
      exact ih (rank t) (hn ▸ hlt) ht rfl

end Transition.Machine
