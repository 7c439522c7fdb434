import Synapse.Transition.Machine

/-!
# Earlier in a run

What is done at one step is often decided by what an earlier one has read, and the state may have
moved on in between. `Earlier M ok P s` says that `P` held in a state from which the run went on to
`s`, and `Took M ok a P s` that the run took step `a` on its way to `s`, between two states that `P`
relates. Both are kept by every step, so that an invariant can carry them along with the decision.
-/

namespace Transition

namespace Machine

variable {σ α : Type*} (M : Machine σ α) (ok : σ → α → Prop)

/-- `P` held at some state of a run that leads to `s`. -/
def Earlier (P : σ → Prop) (s : σ) : Prop := ∃ t, M.Reaches ok t ∧ M.Steps ok t s ∧ P t

/-- The run that leads to `s` took the step `a`, from a state to one that `P` relates to it. -/
def Took (a : α) (P : σ → σ → Prop) (s : σ) : Prop :=
  ∃ t u, M.Reaches ok t ∧ ok t a ∧ M.step t a = some u ∧ P t u ∧ M.Steps ok u s

variable {M ok} {P Q : σ → Prop} {s t : σ} {a : α}

theorem Earlier.now (hs : M.Reaches ok s) (h : P s) : M.Earlier ok P s := ⟨s, hs, .refl, h⟩

theorem Earlier.step (h : M.Earlier ok P s) (hok : ok s a) (hs : M.step s a = some t) :
    M.Earlier ok P t :=
  let ⟨u, hu, hsteps, hP⟩ := h
  ⟨u, hu, hsteps.tail hok hs, hP⟩

theorem Earlier.imp (h : M.Earlier ok P s) (hPQ : ∀ u, P u → Q u) : M.Earlier ok Q s :=
  let ⟨u, hu, hsteps, hP⟩ := h
  ⟨u, hu, hsteps, hPQ u hP⟩

variable {b : α} {R : σ → σ → Prop}

theorem Took.now (hs : M.Reaches ok s) (hok : ok s a) (h : M.step s a = some t) (hR : R s t) :
    M.Took ok a R t := ⟨s, t, hs, hok, h, hR, .refl⟩

theorem Took.step (h : M.Took ok b R s) (hok : ok s a) (hs : M.step s a = some t) :
    M.Took ok b R t :=
  let ⟨u, v, hu, hb, hstep, hR, hsteps⟩ := h
  ⟨u, v, hu, hb, hstep, hR, hsteps.tail hok hs⟩

end Machine

end Transition
