import Mathlib.Data.List.Basic
import Mathlib.Logic.Function.Basic

/-!
# Guarded machines

A machine is a partial step function: `step s a` is `some t` when the action `a` is enabled in `s`
and leads to `t`, and `none` when it is not. The same definition is replayed on a concrete list of
actions and reasoned about by induction, so the guards met in a proof are the guards met in a
replay.

## Conditional reachability

Many statements about a concurrent program hold only of the runs that keep to some discipline.
`Steps ok s t` is the closure of the steps whose action `a`, taken in the state `u`, satisfies
`ok u a`. The unconditional notion is the instance `fun _ _ ↦ True`, and a discipline that the
machine keeps by itself is discharged by `Steps.strengthen`, which trades it for an invariant.
-/

namespace Transition

/-- A set of initial states and a partial step function. -/
structure Machine (σ α : Type*) where
  /-- The initial states. -/
  init : σ → Prop
  /-- The step function; `none` when the action is not enabled. -/
  step : σ → α → Option σ

namespace Machine

variable {σ α : Type*} (M : Machine σ α)

/-- Replays a list of actions. -/
def exec (s : σ) : List α → Option σ
  | [] => some s
  | a :: as => (M.step s a).bind fun t ↦ exec t as

/-- The states reached from `s` by steps that meet `ok`. -/
inductive Steps (ok : σ → α → Prop) (s : σ) : σ → Prop
  | refl : Steps ok s s
  | tail {t u : σ} {a : α} : Steps ok s t → ok t a → M.step t a = some u → Steps ok s u

/-- The states reached from an initial state by steps that meet `ok`. -/
def Reaches (ok : σ → α → Prop) (t : σ) : Prop := ∃ s, M.init s ∧ M.Steps ok s t

/-- The condition every step meets. -/
def anyStep : σ → α → Prop := fun _ _ ↦ True

/-- The machine that refuses every step not meeting `ok`. -/
def guarded (ok : σ → α → Prop) [∀ s a, Decidable (ok s a)] : Machine σ α where
  init := M.init
  step s a := if ok s a then M.step s a else none

variable {M} {ok ok' : σ → α → Prop} {s t u : σ} {a : α} {as : List α}

@[simp] theorem exec_nil (s : σ) : M.exec s [] = some s := rfl

@[simp] theorem exec_cons (s : σ) (a : α) (as : List α) :
    M.exec s (a :: as) = (M.step s a).bind fun t ↦ M.exec t as := rfl

theorem exec_append (s : σ) (as bs : List α) :
    M.exec s (as ++ bs) = (M.exec s as).bind fun t ↦ M.exec t bs := by
  induction as generalizing s with
  | nil => rfl
  | cons a as ih =>
    rw [List.cons_append, exec_cons, exec_cons, Option.bind_assoc]
    exact congrArg _ (funext ih)

theorem exec_cons_eq_some : M.exec s (a :: as) = some u ↔
    ∃ t, M.step s a = some t ∧ M.exec t as = some u := by
  rw [exec_cons, Option.bind_eq_some_iff]

/-! ## Steps -/

theorem Steps.single (hok : ok s a) (h : M.step s a = some t) : M.Steps ok s t :=
  Steps.refl.tail hok h

theorem Steps.trans (h₁ : M.Steps ok s t) (h₂ : M.Steps ok t u) : M.Steps ok s u := by
  induction h₂ with
  | refl => exact h₁
  | tail _ hok hstep ih => exact ih.tail hok hstep

theorem Steps.head (hok : ok s a) (h : M.step s a = some t) (ht : M.Steps ok t u) :
    M.Steps ok s u :=
  (Steps.single hok h).trans ht

/-- The induction principle: what every allowed step preserves holds after every allowed run. -/
theorem Steps.invariant {P : σ → Prop} (h : M.Steps ok s t) (h₀ : P s)
    (hstep : ∀ u a v, P u → ok u a → M.step u a = some v → P v) : P t := by
  induction h with
  | refl => exact h₀
  | tail _ hok hs ih => exact hstep _ _ _ ih hok hs

/-- An invariant may be used to establish a stronger discipline along the same run. -/
theorem Steps.strengthen {P : σ → Prop} (h : M.Steps ok s t) (h₀ : P s)
    (hok : ∀ u a, P u → ok u a → ok' u a)
    (hstep : ∀ u a v, P u → ok u a → M.step u a = some v → P v) :
    P t ∧ M.Steps ok' s t := by
  induction h with
  | refl => exact ⟨h₀, Steps.refl⟩
  | tail _ ho hs ih => exact ⟨hstep _ _ _ ih.1 ho hs, ih.2.tail (hok _ _ ih.1 ho) hs⟩

theorem Steps.mono (h : M.Steps ok s t) (hok : ∀ u a, ok u a → ok' u a) : M.Steps ok' s t :=
  (h.strengthen (P := fun _ ↦ True) trivial (fun u a _ ↦ hok u a) fun _ _ _ _ _ _ ↦ trivial).2

/-- A run of one machine, seen through `f`, is a run of another once every step is. -/
theorem Steps.simulate {τ β : Type*} {N : Machine τ β} {okN : τ → β → Prop} {f : σ → τ}
    (h : M.Steps ok s t)
    (hstep : ∀ u a v, ok u a → M.step u a = some v → N.Steps okN (f u) (f v)) :
    N.Steps okN (f s) (f t) := by
  induction h with
  | refl => exact Steps.refl
  | tail _ hok hs ih => exact ih.trans (hstep _ _ _ hok hs)

/-! ## Reachable states -/

theorem Reaches.init (h : M.init s) : M.Reaches ok s := ⟨s, h, Steps.refl⟩

theorem Reaches.trans (h : M.Reaches ok s) (hs : M.Steps ok s t) : M.Reaches ok t :=
  let ⟨s₀, h₀, h₁⟩ := h
  ⟨s₀, h₀, h₁.trans hs⟩

theorem Reaches.step (h : M.Reaches ok s) (hok : ok s a) (hs : M.step s a = some t) :
    M.Reaches ok t :=
  h.trans (Steps.single hok hs)

theorem Reaches.mono (h : M.Reaches ok t) (hok : ∀ u a, ok u a → ok' u a) : M.Reaches ok' t :=
  let ⟨s, h₀, hs⟩ := h
  ⟨s, h₀, hs.mono hok⟩

theorem Reaches.invariant {P : σ → Prop} (h : M.Reaches ok t) (h₀ : ∀ s, M.init s → P s)
    (hstep : ∀ u a v, P u → ok u a → M.step u a = some v → P v) : P t :=
  let ⟨s, hi, hs⟩ := h
  hs.invariant (h₀ s hi) hstep

/-! ## Replay -/

theorem guarded_step_eq_some [∀ s a, Decidable (ok s a)] :
    (M.guarded ok).step s a = some t ↔ ok s a ∧ M.step s a = some t := by
  simp [guarded]

theorem steps_of_exec (h : M.exec s as = some t) : M.Steps anyStep s t := by
  induction as generalizing s with
  | nil => cases h; exact Steps.refl
  | cons a as ih =>
    obtain ⟨u, hu, ht⟩ := exec_cons_eq_some.mp h
    exact Steps.head trivial hu (ih ht)

theorem exists_of_exec {p : σ → Bool} (s : σ) (as : List α) (h : (M.exec s as).any p = true) :
    ∃ t, M.exec s as = some t ∧ M.Steps anyStep s t ∧ p t = true := by
  obtain ⟨t, ht, hp⟩ := (Option.any_eq_true _ _).mp h
  exact ⟨t, ht, steps_of_exec ht, hp⟩

/-- A replay of the guarded machine is a run that keeps to the discipline. -/
theorem exec_of_guarded [∀ s a, Decidable (ok s a)] (h : (M.guarded ok).exec s as = some t) :
    M.exec s as = some t ∧ M.Steps ok s t := by
  induction as generalizing s with
  | nil =>
    cases h
    exact ⟨rfl, Steps.refl⟩
  | cons a as ih =>
    obtain ⟨u, hu, hut⟩ := exec_cons_eq_some.mp h
    obtain ⟨hok, hstep⟩ := guarded_step_eq_some.mp hu
    obtain ⟨hexec, hsteps⟩ := ih hut
    exact ⟨exec_cons_eq_some.mpr ⟨u, hstep, hexec⟩, Steps.head hok hstep hsteps⟩

theorem exists_of_guarded [∀ s a, Decidable (ok s a)] (s : σ) (as : List α)
    (h : ((M.guarded ok).exec s as).isSome) : ∃ t, M.exec s as = some t ∧ M.Steps ok s t :=
  let ⟨t, ht⟩ := Option.isSome_iff_exists.mp h
  ⟨t, exec_of_guarded ht⟩

theorem exists_of_guarded_any [∀ s a, Decidable (ok s a)] {p : σ → Bool} (s : σ) (as : List α)
    (h : ((M.guarded ok).exec s as).any p = true) :
    ∃ t, M.exec s as = some t ∧ M.Steps ok s t ∧ p t = true :=
  let ⟨t, ht, hp⟩ := (Option.any_eq_true _ _).mp h
  ⟨t, (exec_of_guarded ht).1, (exec_of_guarded ht).2, hp⟩

end Machine

end Transition
