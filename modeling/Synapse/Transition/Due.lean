import Mathlib.Data.Nat.Find
import Mathlib.Order.WellFounded
import Synapse.Transition.Machine

/-!
# What is due when some steps are never put off forever

`Inevitable` speaks of the runs that take the steps of one kind only. Here other steps may come in
between, as many as they like and whatever they do. A state owes a goal to the *helpful* steps if it
is there, or if, however long the other steps go on without reaching it, a helpful step is still
enabled and every helpful step leads to a state that owes the goal.

`Due.exists_goal` reads this off a single infinite run, and `Due.of_rank` is the way to prove it: a
rank in a well-founded order that no step raises and every helpful step lowers.
-/

namespace Transition.Machine

variable {σ α : Type*}

/-- Every run of steps that meet `ok` reaches `goal` unless it puts the helpful ones off forever. -/
inductive Due (M : Machine σ α) (ok helps : σ → α → Prop) (goal : σ → Prop) : σ → Prop
  | now {s : σ} (h : goal s) : Due M ok helps goal s
  | later {s : σ}
      (hcan : ∀ t, M.Steps (fun u a ↦ ok u a ∧ ¬ goal u ∧ ¬ helps u a) s t → ¬ goal t →
        ∃ a u, ok t a ∧ helps t a ∧ M.step t a = some u)
      (hall : ∀ t, M.Steps (fun u a ↦ ok u a ∧ ¬ goal u ∧ ¬ helps u a) s t → ¬ goal t →
        ∀ a u, ok t a → helps t a → M.step t a = some u → Due M ok helps goal u) :
      Due M ok helps goal s

variable {M : Machine σ α} {ok helps : σ → α → Prop} {goal : σ → Prop} {s : σ}

/-- As long as the goal is not met, a helpful step is enabled, every step keeps `P` and does not
raise the rank, and the helpful ones lower it. -/
theorem Due.of_rank {β : Type*} [Preorder β] [WellFoundedLT β] {P : σ → Prop} (rank : σ → β)
    (hcan : ∀ s, P s → ¬ goal s → ∃ a t, ok s a ∧ helps s a ∧ M.step s a = some t)
    (hkeep : ∀ s a t, P s → ¬ goal s → ok s a → M.step s a = some t → ¬ goal t →
      P t ∧ rank t ≤ rank s)
    (hlower : ∀ s a t, P s → ¬ goal s → ok s a → helps s a → M.step s a = some t → ¬ goal t →
      rank t < rank s)
    (h : P s) : M.Due ok helps goal s := by
  induction hn : rank s using WellFoundedLT.induction generalizing s with
  | ind n ih =>
    have hrun : ∀ t, M.Steps (fun u a ↦ ok u a ∧ ¬ goal u ∧ ¬ helps u a) s t → ¬ goal t →
        P t ∧ rank t ≤ n := by
      intro t ht
      refine ht.invariant (P := fun t ↦ ¬ goal t → P t ∧ rank t ≤ n) (fun _ ↦ ⟨h, hn.le⟩) ?_
      intro u a v hu hok hs hv
      obtain ⟨hP, hle⟩ := hu hok.2.1
      obtain ⟨hP', hle'⟩ := hkeep u a v hP hok.2.1 hok.1 hs hv
      exact ⟨hP', hle'.trans hle⟩
    refine .later (fun t ht hopen ↦ hcan t (hrun t ht hopen).1 hopen)
      fun t ht hopen a u hok hhelps hs ↦ ?_
    obtain ⟨hP, hle⟩ := hrun t ht hopen
    by_cases hu : goal u
    · exact .now hu
    · have hlt := hlower t a u hP hopen hok hhelps hs hu
      exact ih (rank u) (hlt.trans_le hle) (hkeep t a u hP hopen hok hs hu).1 rfl

/-! ## Infinite runs -/

variable {run : ℕ → σ} {act : ℕ → α}

theorem steps_of_run (hrun : ∀ n, M.step (run n) (act n) = some (run (n + 1))) {n m : ℕ}
    (hnm : n ≤ m) (hok : ∀ j, n ≤ j → j < m → ok (run j) (act j)) :
    M.Steps ok (run n) (run m) := by
  induction m, hnm using Nat.le_induction with
  | base => exact .refl
  | succ m hnm ih =>
    exact (ih fun j hnj hjm ↦ hok j hnj (hjm.trans m.lt_succ_self)).tail
      (hok m hnm m.lt_succ_self) (hrun m)

/-- An infinite run in which the helpful steps come again and again, until the goal is met, meets
it. -/
theorem Due.exists_goal (hrun : ∀ n, M.step (run n) (act n) = some (run (n + 1)))
    (hok : ∀ n, ok (run n) (act n))
    (hfair : ∀ n, ∃ m, n ≤ m ∧ (goal (run m) ∨ helps (run m) (act m))) {n : ℕ}
    (h : M.Due ok helps goal (run n)) : ∃ m, n ≤ m ∧ goal (run m) := by
  generalize hs : run n = s at h
  induction h generalizing n with
  | now h => exact ⟨n, le_rfl, hs ▸ h⟩
  | later hcan hall ih =>
    subst hs
    by_contra hnever
    have hopen : ∀ m, n ≤ m → ¬ goal (run m) := fun m hm hgoal ↦ hnever ⟨m, hm, hgoal⟩
    have hhelps : ∃ m, n ≤ m ∧ helps (run m) (act m) := by
      obtain ⟨m, hm, h⟩ := hfair n
      exact ⟨m, hm, h.resolve_left (hopen m hm)⟩
    classical
    -- up to the first helpful step the run takes the other steps only
    obtain ⟨hm, hhelp⟩ := Nat.find_spec hhelps
    have hsteps : M.Steps (fun u a ↦ ok u a ∧ ¬ goal u ∧ ¬ helps u a) (run n)
        (run (Nat.find hhelps)) := by
      refine steps_of_run hrun hm fun j hnj hj ↦ ⟨hok j, hopen j hnj, fun hhelp' ↦ ?_⟩
      exact Nat.find_min hhelps hj ⟨hnj, hhelp'⟩
    obtain ⟨m, hle, hgoal⟩ :=
      ih _ hsteps (hopen _ hm) _ _ (hok _) hhelp (hrun _) rfl
    exact hnever ⟨m, hm.trans ((Nat.le_succ _).trans hle), hgoal⟩

/-- What holds again and again, and is lost only at the cost of a rank that never rises, holds from
some moment on. -/
theorem exists_forall_of_recurrent {p : ℕ → Prop} (rank : ℕ → ℕ)
    (hrecurs : ∀ n, ∃ m, n ≤ m ∧ p m) (hkeep : ∀ n, rank (n + 1) ≤ rank n)
    (hlost : ∀ n, p n → ¬ p (n + 1) → rank (n + 1) < rank n) : ∃ n, ∀ m, n ≤ m → p m := by
  -- from the moment the rank is least, nothing can be lost any more
  obtain ⟨n, hn⟩ : ∃ n, ∀ m, rank n ≤ rank m := by
    classical
    have hvalue : ∃ r n, rank n = r := ⟨rank 0, 0, rfl⟩
    obtain ⟨n, hn⟩ := Nat.find_spec hvalue
    exact ⟨n, fun m ↦ hn ▸ Nat.find_min' hvalue ⟨m, rfl⟩⟩
  have hleast : ∀ m, n ≤ m → rank m = rank n := by
    intro m hm
    induction m, hm using Nat.le_induction with
    | base => rfl
    | succ m _ ih => exact le_antisymm ((hkeep m).trans ih.le) (hn _)
  obtain ⟨l, hnl, hl⟩ := hrecurs n
  refine ⟨l, fun m hm ↦ ?_⟩
  induction m, hm using Nat.le_induction with
  | base => exact hl
  | succ m hm ih =>
    by_contra hnot
    have hlt := hlost m ih hnot
    rw [hleast m (hnl.trans hm), hleast (m + 1) ((hnl.trans hm).trans m.le_succ)] at hlt
    exact lt_irrefl _ hlt

end Transition.Machine
