import Mathlib.Data.Set.Card
import Mathlib.Order.CompletePartialOrder
import Mathlib.Order.Lattice.Nat
import Synapse.Stroke.Health
import Synapse.Stroke.Settling
import Synapse.Stroke.Timers
import Synapse.Transition.Due

/-!
# How a degraded service gets well

From the failure handler that degrades a board to the `markPersisted` that clears the flag, a retry
passes through six stages. The `stage` of a board is that of the drain ahead of the others, and as
long as no write fails no step makes it fall behind; the step of the drain ahead brings it closer.

A board that has got well can be degraded again by a drain that had failed before and is rejected
only now. There are finitely many of these, so once no write fails any more the service is healthy
from some moment on.
-/

namespace Synapse

open Transition

namespace Instance

variable {cfg : Config} {log log' : BoardLog} {inst inst' : Instance} {a : Action}

/-! ## The stages of a retry -/

/-- No write fails. -/
def WriteSucceeds : Action → Prop
  | .drain _ .fail => False
  | _ => True

/-- What is left of a drain before it ends with `markPersisted`; a failed one has a retry ahead. -/
def stageOf : DrainPhase → Option ℕ
  | .succeeded => some 0
  | .touching _ => some 1
  | .inserted _ => some 2
  | .inserting _ => some 3
  | .failed => some 5
  | .resolved | .rejected => none

/-- A drain is at stage `n`, or the retry before it is. -/
def AtStage (inst : Instance) (n : ℕ) : Prop :=
  (∃ d phase, inst.drains d = some phase ∧ stageOf phase = some n) ∨
    (n = 4 ∧ inst.board.retryTimer.isSome)

/-- The stage of the drain that is ahead of the others. -/
noncomputable def stage (inst : Instance) : ℕ := sInf {n | inst.AtStage n}

/-- The drain that is ahead, or the retry before it, takes its next step. -/
def Advances (inst : Instance) : Action → Prop
  | .drain d _ => ∃ phase, inst.drains d = some phase ∧ stageOf phase = some inst.stage
  | .retryFires _ => inst.stage = 4
  | _ => False

theorem stage_le {n : ℕ} (h : inst.AtStage n) : inst.stage ≤ n := Nat.sInf_le h

theorem atStage_stage (h : ∃ n, inst.AtStage n) : inst.AtStage inst.stage := Nat.sInf_mem h

theorem atStage_of_drain {d : ℕ} {phase : DrainPhase} {n : ℕ} (h : inst.drains d = some phase)
    (hn : stageOf phase = some n) : inst.AtStage n := Or.inl ⟨d, phase, h, hn⟩

theorem atStage_of_retry (h : inst.board.retryTimer.isSome) : inst.AtStage 4 := Or.inr ⟨rfl, h⟩

theorem exists_atStage_of_capture (d : ℕ) (batch : List PersistedStroke)
    (h : inst.drains d = some (if batch = [] then .succeeded else .inserting batch)) :
    ∃ n < 4, inst.AtStage n := by
  split_ifs at h
  · exact ⟨0, by decide, atStage_of_drain h rfl⟩
  · exact ⟨3, by decide, atStage_of_drain h rfl⟩

theorem exists_atStage_flush (h : inst.state ≠ none) (d : ℕ) :
    ∃ n < 4, (inst.flush d).AtStage n := by
  obtain ⟨state, hstate⟩ := Option.ne_none_iff_exists'.mp h
  refine exists_atStage_of_capture d state.buffer ?_
  rw [drains_flush, if_pos rfl, flushPhase, hstate]

theorem atStage_handleFlushFailure (inst : Instance) (d : ℕ) : ((inst.setBoard
    (inst.board.handleFlushFailure cfg)).setDrain d .rejected).AtStage 4 :=
  atStage_of_retry (handleFlushFailure_retryTimer cfg inst.board).1

theorem Step.drains_eq_some (hs : Step cfg log inst a log' inst') {d : ℕ} {phase : DrainPhase}
    (hd : inst.drains d = some phase) (hne : ∀ r, a ≠ .drain d r) :
    inst'.drains d = some phase := by
  have hidle : ∀ {e}, inst.drains e = none → d ≠ e := by
    rintro e he rfl
    rw [hd] at he
    cases he
  have hother : ∀ {e r phase'}, a = .drain e r →
      (inst.setDrain e phase').drains d = some phase := by
    rintro e r phase' rfl
    rw [drains_setDrain, if_neg]
    · exact hd
    · rintro rfl
      exact hne r rfl
  cases hs with
  | append | maybeCompact =>
    rw [drains_ensureInitialized]
    exact hd
  | resumeAppend id ts e call userId seg ready hready he =>
    rw [push]
    split_ifs
    · rw [drains_flush]
      exact (if_neg (hidle he)).trans hd
    · exact hd
  | flush e he | timerFires e _ he =>
    rw [drains_flush]
    exact (if_neg (hidle he)).trans hd
  | retryFires e _ he =>
    rw [drainOnce, drains_setDrain]
    exact (if_neg (hidle he)).trans hd
  | insert | insertResolves | touchResolves => exact hother rfl
  | drainFails | drainResolves | drainRejects => exact hother rfl
  | _ => exact hd

/-- **A step of a drain takes it to an earlier stage**, and the last one clears the flag. -/
theorem Step.drain_advances {d : ℕ} {r : DrainAction}
    (hs : Step cfg log inst (.drain d r) log' inst') (hok : WriteSucceeds (.drain d r))
    {phase : DrainPhase} {n : ℕ} (hphase : inst.drains d = some phase)
    (hn : stageOf phase = some n) :
    inst'.board.persistenceDegraded = false ∨ ∃ m < n, inst'.AtStage m := by
  have hself : ∀ {phase'}, (inst.setDrain d phase').drains d = some phase' := fun {phase'} ↦ by
    rw [drains_setDrain, if_pos rfl]
  cases hs with
  | insert _ batch h =>
    rw [hphase] at h
    cases h
    cases hn
    exact Or.inr ⟨2, by decide, atStage_of_drain hself rfl⟩
  | insertResolves _ batch h =>
    rw [hphase] at h
    cases h
    cases hn
    exact Or.inr ⟨1, by decide, atStage_of_drain hself rfl⟩
  | touchResolves _ batch h =>
    rw [hphase] at h
    cases h
    cases hn
    exact Or.inr ⟨0, by decide, atStage_of_drain hself rfl⟩
  | drainFails => exact hok.elim
  | drainResolves => exact Or.inl rfl
  | drainRejects _ h =>
    rw [hphase] at h
    cases h
    cases hn
    exact Or.inr ⟨4, by decide, atStage_handleFlushFailure inst d⟩

/-- A retry that is armed is replaced by a drain ahead of it, or stays. -/
theorem Step.retry_advances (hs : Step cfg log inst a log' inst')
    (hretry : inst.board.retryTimer.isSome) :
    inst'.board.persistenceDegraded = false ∨ inst'.AtStage 4 ∨ ∃ m < 4, inst'.AtStage m := by
  have hstate : inst.state ≠ none := by
    intro hnone
    rw [board, hnone] at hretry
    cases hretry
  cases hs with
  | append | maybeCompact =>
    refine Or.inr (Or.inl (atStage_of_retry ?_))
    rw [(timers_ensureInitialized _ _).2.2]
    exact hretry
  | resumeAppend id ts d =>
    rw [push]
    split_ifs
    · exact Or.inr (Or.inr (exists_atStage_flush (by simp [bufferStroke, Instance.setBoard]) d))
    · exact Or.inr (Or.inl (atStage_of_retry hretry))
  | flush d => exact Or.inr (Or.inr (exists_atStage_flush hstate d))
  | timerFires d =>
    exact Or.inr (Or.inr (exists_atStage_flush (by simp [Instance.setBoard]) d))
  | retryFires d =>
    refine Or.inr (Or.inr (exists_atStage_of_capture d inst.buffer ?_))
    rw [drainOnce, drains_setDrain, if_pos rfl]
    rfl
  | drainResolves => exact Or.inl rfl
  | drainRejects d => exact Or.inr (Or.inl (atStage_handleFlushFailure inst d))
  | _ => exact Or.inr (Or.inl (atStage_of_retry hretry))

/-- **No step falls behind** as long as no write fails. -/
theorem Step.advances (hs : Step cfg log inst a log' inst') (hok : WriteSucceeds a) {n : ℕ}
    (h : inst.AtStage n) :
    inst'.board.persistenceDegraded = false ∨ ∃ m ≤ n, inst'.AtStage m := by
  rcases h with ⟨d, phase, hphase, hn⟩ | ⟨rfl, hretry⟩
  · by_cases ha : ∃ r, a = .drain d r
    · obtain ⟨r, rfl⟩ := ha
      exact (hs.drain_advances hok hphase hn).imp_right fun ⟨m, hm, h⟩ ↦ ⟨m, hm.le, h⟩
    · have hsame := hs.drains_eq_some hphase fun r hr ↦ ha ⟨r, hr⟩
      exact Or.inr ⟨n, le_rfl, atStage_of_drain hsame hn⟩
  · rcases hs.retry_advances hretry with hclear | hstay | ⟨m, hm, h⟩
    · exact Or.inl hclear
    · exact Or.inr ⟨4, le_rfl, hstay⟩
    · exact Or.inr ⟨m, hm.le, h⟩

/-- A degraded board has a drain under way, or a retry before it. -/
def Recovering (inst : Instance) : Prop :=
  inst.board.persistenceDegraded = true → ∃ n, inst.AtStage n

theorem recovering_fresh : Recovering {} := fun h ↦ by cases h

theorem Recovering.step (h : inst.Recovering) (hs : Step cfg log inst a log' inst') :
    inst'.Recovering := by
  intro hdegraded
  by_cases hok : WriteSucceeds a
  · by_cases hbefore : inst.board.persistenceDegraded = true
    · obtain ⟨n, hn⟩ := h hbefore
      rcases hs.advances hok hn with hclear | ⟨m, -, hm⟩
      · rw [hdegraded] at hclear
        cases hclear
      · exact ⟨m, hm⟩
    · -- only the failure handler degrades a board, and it arms a retry
      rcases hs.retryMove with ⟨-, -, -, hsame, -⟩ | ⟨-, -, -, hsame, -⟩ | ⟨d, rfl, hst⟩ |
        ⟨d, rfl, hst⟩
      · exact absurd (hsame ▸ hdegraded) hbefore
      · exact absurd (hsame ▸ hdegraded) hbefore
      · rw [hst] at hdegraded
        cases hdegraded
      · refine ⟨4, atStage_of_retry ?_⟩
        rw [hst]
        exact (handleFlushFailure_retryTimer cfg inst.board).1
  · -- a drain whose write fails has its failure handler ahead of it
    cases hs with
    | drainFails d =>
      have hfailed : (inst.rebuffer d).drains d = some .failed := by
        rw [rebuffer, drains_setDrain, if_pos rfl]
      exact ⟨5, atStage_of_drain hfailed rfl⟩
    | _ => exact absurd trivial hok

theorem Step.advances_lt (hs : Step cfg log inst a log' inst') (hok : WriteSucceeds a)
    (h : inst.Advances a) (hdegraded : inst'.board.persistenceDegraded ≠ false) :
    ∃ m < inst.stage, inst'.AtStage m := by
  unfold Advances at h
  split at h
  · obtain ⟨phase, hphase, hn⟩ := h
    exact (hs.drain_advances hok hphase hn).resolve_left hdegraded
  · next d =>
    rw [h]
    cases hs
    refine exists_atStage_of_capture d inst.buffer ?_
    rw [drainOnce, drains_setDrain, if_pos rfl]
    rfl
  · exact h.elim

theorem exists_advances (cfg : Config) (log : BoardLog) (hfree : inst.HasFreeDrain)
    (h : ∃ n, inst.AtStage n) :
    ∃ a, WriteSucceeds a ∧ inst.Advances a ∧ (inst.step cfg log a).isSome := by
  rcases atStage_stage h with ⟨d, phase, hphase, hn⟩ | ⟨hfour, hretry⟩
  · have hdrain : ∀ r, WriteSucceeds (.drain d r) → (inst.drainStep cfg log d r).isSome →
        ∃ a, WriteSucceeds a ∧ inst.Advances a ∧ (inst.step cfg log a).isSome :=
      fun r hok hsome ↦ ⟨.drain d r, hok, ⟨phase, hphase, hn⟩, hsome⟩
    cases phase with
    | inserting => exact hdrain .insert trivial (by simp [drainStep, hphase])
    | inserted => exact hdrain .insertResolves trivial (by simp [drainStep, hphase])
    | touching => exact hdrain .touchResolves trivial (by simp [drainStep, hphase])
    | succeeded => exact hdrain .resolve trivial (by simp [drainStep, hphase])
    | failed => exact hdrain .reject trivial (by simp [drainStep, hphase])
    | resolved | rejected => cases hn
  · obtain ⟨d, hd⟩ := hfree
    exact ⟨.retryFires d, trivial, hfour, by simp [step, hretry, hd d le_rfl]⟩

/-! ## Relapses -/

/-- The drains that have failed and are to be rejected. -/
def failing (inst : Instance) : Set ℕ := {d | inst.drains d = some .failed}

theorem finite_failing (h : inst.HasFreeDrain) : inst.failing.Finite := by
  obtain ⟨n, hn⟩ := h
  refine (Set.finite_Iio n).subset fun d hd ↦ ?_
  by_contra hge
  have hd : inst.drains d = some .failed := hd
  rw [hn d (not_lt.mp hge)] at hd
  cases hd

theorem Step.failing_subset (hs : Step cfg log inst a log' inst') (hok : WriteSucceeds a) :
    inst'.failing ⊆ inst.failing := by
  intro d hd
  have hd : inst'.drains d = some .failed := hd
  have hmove := hs.drainMove d
  rw [hd] at hmove
  generalize hold : inst.drains d = old at hmove
  cases hmove with
  | stay => exact hold
  | start phase batch _ hphase => exact hphase.elim
  | fail phase hpending =>
    -- a drain that fails takes the step that is excluded
    by_cases ha : ∃ r, a = .drain d r
    · obtain ⟨r, rfl⟩ := ha
      cases hs with
      | drainFails => exact hok.elim
      | insert | insertResolves | touchResolves | drainResolves | drainRejects =>
        rw [drains_setDrain, if_pos rfl] at hd
        cases hd
    · have hsame := hs.drains_eq_some hold fun r hr ↦ ha ⟨r, hr⟩
      rw [hd] at hsame
      cases hsame
      cases hpending

/-- A relapse uses up a drain that had failed. -/
theorem Step.failing_ssubset (hs : Step cfg log inst a log' inst') (hok : WriteSucceeds a)
    (hwell : inst.board.persistenceDegraded = false)
    (hill : inst'.board.persistenceDegraded = true) : inst'.failing ⊂ inst.failing := by
  refine (Set.ssubset_iff_of_subset (hs.failing_subset hok)).mpr ?_
  rcases hs.retryMove with ⟨-, -, -, hsame, -⟩ | ⟨-, -, -, hsame, -⟩ | ⟨d, rfl, hst⟩ |
    ⟨d, rfl, hst⟩
  · rw [hsame, hwell] at hill
    cases hill
  · rw [hsame, hwell] at hill
    cases hill
  · rw [hst] at hill
    cases hill
  · cases hs with
    | drainRejects _ hphase =>
      refine ⟨d, hphase, fun hd ↦ ?_⟩
      have hd : (Instance.setDrain _ d .rejected).drains d = some .failed := hd
      rw [drains_setDrain, if_pos rfl] at hd
      cases hd

/-- A board without an entry has nothing under way. -/
def Unstarted (inst : Instance) : Prop :=
  inst.state = none → ∀ d phase, inst.drains d = some phase → phase = .resolved

theorem unstarted_fresh : Unstarted {} := fun _ _ _ h ↦ by cases h

theorem unstarted_of_state (h : inst.state ≠ none) : inst.Unstarted := fun hnone ↦ absurd hnone h

theorem Unstarted.frame (h : inst.Unstarted) (hstate : inst'.state = none → inst.state = none)
    (hdrains : inst'.drains = inst.drains) : inst'.Unstarted := by
  intro hnone d phase hd
  rw [hdrains] at hd
  exact h (hstate hnone) d phase hd

theorem Unstarted.state_ne (h : inst.Unstarted) {d : ℕ} {phase : DrainPhase}
    (hd : inst.drains d = some phase) (hphase : phase ≠ .resolved) : inst.state ≠ none :=
  fun hnone ↦ hphase (h hnone d phase hd)

theorem Unstarted.flush (h : inst.Unstarted) (d : ℕ) : (inst.flush d).Unstarted := by
  rcases flush_cases inst d with ⟨-, hflush⟩ | hflush <;> rw [hflush]
  · intro hnone e phase he
    rw [drains_setDrain] at he
    split_ifs at he
    · exact (Option.some.inj he).symm
    · exact h hnone e phase he
  · exact unstarted_of_state (Option.some_ne_none _)

theorem state_ensureInitialized {caller : Caller}
    (h : (inst.ensureInitialized caller).state = none) : inst.state = none := by
  unfold ensureInitialized at h
  split at h
  · cases h
  · exact h
  · exact h

theorem Unstarted.step (h : inst.Unstarted) (hs : Step cfg log inst a log' inst') :
    inst'.Unstarted := by
  cases hs with
  | append => exact h.frame state_ensureInitialized (drains_ensureInitialized _)
  | maybeCompact c =>
    have hcall : (inst.setCompaction c .initializing).Unstarted := h.frame id rfl
    exact hcall.frame state_ensureInitialized (drains_ensureInitialized _)
  | resumeAppend =>
    rw [push]
    split_ifs
    · exact (unstarted_of_state (Option.some_ne_none _)).flush _
    · exact unstarted_of_state (Option.some_ne_none _)
  | flush d => exact h.flush d
  | timerFires d => exact (unstarted_of_state (Option.some_ne_none _)).flush d
  | insert _ _ hphase | insertResolves _ _ hphase | touchResolves _ _ hphase =>
    exact unstarted_of_state (h.state_ne hphase (by simp))
  | resumeCompact | loadForJoin | loadSnapshot | loadRows | loadResolves | loadFails | count |
    proceedWithin | compactSnapshot | compactTail | setSnapshot | deleteRows | countFails =>
    exact h.frame id rfl
  | _ => exact unstarted_of_state (Option.some_ne_none _)

end Instance

/-! ## The service -/

/-- No write of the service fails. -/
def ServiceAction.WriteSucceeds : ServiceAction → Prop
  | .board _ a => Instance.WriteSucceeds a
  | .flushAll _ => True

namespace StrokeService

variable {cfg : Config} {s s' : StrokeService} {a : ServiceAction} {b : String}

/-- The step advances the drain of board `b` that is ahead, or the retry before it. -/
def Advances (b : String) (s : StrokeService) : ServiceAction → Prop
  | .board e a => e = b ∧ (s.entry b).Advances a
  | .flushAll _ => False

theorem entry_of_step (hs : s.step cfg a = some s') (b : String) :
    s'.entry b = s.entry b ∨
      ∃ act log, Instance.Step cfg (s.log b) (s.entry b) act log (s'.entry b) ∧
        (a.WriteSucceeds → Instance.WriteSucceeds act) := by
  cases a with
  | board e act =>
    obtain ⟨w, hw, rfl⟩ := step_board_eq_some.mp hs
    rcases eq_or_ne b e with rfl | hne
    · obtain ⟨log, inst, hstep, rfl⟩ := World.step_eq_some.mp hw
      refine Or.inr ⟨act, log, ?_, id⟩
      rw [entry_setBoard_self, World.put_insts_self]
      exact .of_step hstep
    · exact Or.inl (entry_setBoard_of_ne hne w)
  | flushAll f =>
    obtain ⟨⟨-, hidle⟩, rfl⟩ := step_flushAll_eq_some.mp hs
    by_cases hb : b ∈ s.known
    · have hentry : (s.flushAll f).entry b = (s.entry b).flush f := by
        rw [entry, boards_flushAll, if_pos hb, World.flush, World.put_insts_self]
        rfl
      refine Or.inr ⟨.flush f, s.log b, ?_, fun _ ↦ trivial⟩
      rw [hentry]
      exact .flush f (hidle b hb)
    · left
      rw [entry, boards_flushAll, if_neg hb, entry]

/-- A board is on its way out of the degraded state. -/
structure Healing (inst : Instance) : Prop where
  recovering : inst.Recovering
  freeDrain : inst.HasFreeDrain
  unstarted : inst.Unstarted

theorem Healing.step (h : Healing (s.entry b)) (hs : s.step cfg a = some s') :
    Healing (s'.entry b) := by
  rcases entry_of_step hs b with hsame | ⟨act, log, hstep, -⟩
  · rwa [hsame]
  · exact ⟨h.recovering.step hstep, h.freeDrain.step hstep, h.unstarted.step hstep⟩

theorem healing_of_reaches (h : (machine cfg).Reaches Machine.anyStep s) (b : String) :
    Healing (s.entry b) := by
  refine h.invariant (P := fun s ↦ Healing (s.entry b)) (fun s hs ↦ ?_)
    fun _ _ _ hu _ hs ↦ hu.step hs
  rw [entry, (hs.1 b).1.2.2]
  exact ⟨Instance.recovering_fresh, Instance.hasFreeDrain_fresh, Instance.unstarted_fresh⟩

/-- Board `b` is not degraded. -/
def Well (b : String) (s : StrokeService) : Prop :=
  (s.entry b).board.persistenceDegraded = false

/-- A degraded board is not stuck. -/
theorem exists_advances (h : Healing (s.entry b)) (hill : ¬ Well b s) :
    ∃ a t, a.WriteSucceeds ∧ Advances b s a ∧ s.step cfg a = some t := by
  obtain ⟨act, hok, hadvances, hsome⟩ := Instance.exists_advances cfg (s.log b) h.freeDrain
    (h.recovering (Bool.eq_true_of_not_eq_false hill))
  obtain ⟨⟨log, inst⟩, hres⟩ := Option.isSome_iff_exists.mp hsome
  exact ⟨.board b act, _, hok, ⟨rfl, hadvances⟩, step_board_eq_some.mpr
    ⟨_, World.step_eq_some.mpr ⟨log, inst, hres, rfl⟩, rfl⟩⟩

/-- **A degraded board is bound to get well** once no write fails any more. -/
theorem due_well (h : Healing (s.entry b)) :
    (machine cfg).Due (fun _ a ↦ a.WriteSucceeds) (Advances b) (Well b) s := by
  refine Machine.Due.of_rank (P := fun s ↦ Healing (s.entry b)) (fun s ↦ (s.entry b).stage)
    (fun s ↦ exists_advances) (fun s a s' hs hill hok hstep hill' ↦ ⟨hs.step hstep, ?_⟩)
    (fun s a s' hs hill hok hadvances hstep hill' ↦ ?_) h
  · rcases entry_of_step hstep b with hsame | ⟨act, log, hact, hoks⟩
    · rw [hsame]
    · have hstage := Instance.atStage_stage (hs.recovering (Bool.eq_true_of_not_eq_false hill))
      obtain ⟨m, hle, hm⟩ := (hact.advances (hoks hok) hstage).resolve_left hill'
      exact (Instance.stage_le hm).trans hle
  · cases a with
    | flushAll f => exact hadvances.elim
    | board e act =>
      obtain ⟨rfl, hadvances⟩ := hadvances
      obtain ⟨w, hw, rfl⟩ := step_board_eq_some.mp hstep
      obtain ⟨log, inst, hact, rfl⟩ := World.step_eq_some.mp hw
      rw [Well, entry_setBoard_self, World.put_insts_self] at hill'
      rw [entry_setBoard_self, World.put_insts_self]
      obtain ⟨m, hlt, hm⟩ := (Instance.Step.of_step hact).advances_lt hok hadvances hill'
      exact (Instance.stage_le hm).trans_lt hlt

/-- The flag of a board that has got well rises at the cost of a drain that had failed. -/
theorem failing_le (h : Healing (s.entry b)) (hok : a.WriteSucceeds)
    (hs : s.step cfg a = some s') :
    (s'.entry b).failing.ncard ≤ (s.entry b).failing.ncard ∧
      (Well b s → ¬ Well b s' → (s'.entry b).failing.ncard < (s.entry b).failing.ncard) := by
  have hfinite := Instance.finite_failing h.freeDrain
  rcases entry_of_step hs b with hsame | ⟨act, log, hact, hoks⟩
  · refine ⟨hsame ▸ le_rfl, fun hwell hill ↦ absurd ?_ hill⟩
    rw [Well, hsame]
    exact hwell
  · refine ⟨Set.ncard_le_ncard (hact.failing_subset (hoks hok)) hfinite, fun hwell hill ↦ ?_⟩
    exact Set.ncard_lt_ncard
      (hact.failing_ssubset (hoks hok) hwell (Bool.eq_true_of_not_eq_false hill)) hfinite

theorem well_of_not_known (h : (machine cfg).Reaches Machine.anyStep s) (hb : b ∉ s.known) :
    Well b s ∧ (s.entry b).failing.ncard = 0 := by
  have hstate := state_of_not_known h b hb
  refine ⟨by rw [Well, Instance.board, hstate]; rfl, ?_⟩
  rw [(Set.eq_empty_iff_forall_notMem (s := (s.entry b).failing)).mpr, Set.ncard_empty]
  intro d hd
  cases (healing_of_reaches h b).unstarted hstate d .failed hd

/-! ## Once no write fails any more -/

/-- An infinite run of the service, from `s` on, in which no write fails. -/
structure CalmRun (cfg : Config) (s : StrokeService) (run : ℕ → StrokeService)
    (act : ℕ → ServiceAction) : Prop where
  start : run 0 = s
  step : ∀ n, (run n).step cfg (act n) = some (run (n + 1))
  calm : ∀ n, (act n).WriteSucceeds
  /-- What a degraded board waits for is not put off forever. -/
  fair : ∀ b n, ∃ m, n ≤ m ∧ (Well b (run m) ∨ Advances b (run m) (act m))

variable {run : ℕ → StrokeService} {act : ℕ → ServiceAction}

theorem CalmRun.healing (h : CalmRun cfg s run act)
    (hs : (machine cfg).Reaches Machine.anyStep s) (b : String) (n : ℕ) :
    Healing ((run n).entry b) := by
  have hsteps : (machine cfg).Steps Machine.anyStep (run 0) (run n) :=
    Machine.steps_of_run h.step n.zero_le fun _ _ _ ↦ trivial
  rw [h.start] at hsteps
  exact healing_of_reaches (hs.trans hsteps) b

/-- A board gets well for good. -/
theorem CalmRun.exists_well (h : CalmRun cfg s run act)
    (hs : (machine cfg).Reaches Machine.anyStep s) (b : String) :
    ∃ n, ∀ m, n ≤ m → Well b (run m) := by
  refine Machine.exists_forall_of_recurrent (fun n ↦ ((run n).entry b).failing.ncard) (fun n ↦ ?_)
    (fun n ↦ (failing_le (h.healing hs b n) (h.calm n) (h.step n)).1)
    fun n ↦ (failing_le (h.healing hs b n) (h.calm n) (h.step n)).2
  exact (due_well (h.healing hs b n)).exists_goal h.step h.calm (h.fair b)

theorem CalmRun.well_of_not_known (h : CalmRun cfg s run act)
    (hs : (machine cfg).Reaches Machine.anyStep s) (hb : b ∉ s.known) (n : ℕ) :
    Well b (run n) ∧ ((run n).entry b).failing.ncard = 0 := by
  induction n with
  | zero =>
    rw [h.start]
    exact StrokeService.well_of_not_known hs hb
  | succ n ih =>
    obtain ⟨hle, hlost⟩ := failing_le (h.healing hs b n) (h.calm n) (h.step n)
    refine ⟨?_, by omega⟩
    by_contra hill
    have := hlost ih.1 hill
    omega

/-- **The service gets well and stays so** once no write fails any more. From any state it can
reach, the step that a degraded board waits for is enabled until the board is well, and every such
step brings it closer. In every infinite run in which no board is kept waiting forever, whatever
else is asked of the service and of whichever boards, the service is healthy from some moment on. -/
theorem healthy_in_the_end (hs : (machine cfg).Reaches Machine.anyStep s) :
    (∀ b, (machine cfg).Due (fun _ a ↦ a.WriteSucceeds) (Advances b) (Well b) s) ∧
    ∀ run act, CalmRun cfg s run act →
      ∃ n, ∀ m, n ≤ m → (run m).isPersistenceHealthy = true := by
  refine ⟨fun b ↦ due_well (healing_of_reaches hs b), fun run act h ↦ ?_⟩
  -- the boards known at the start get well one after another
  have hknown : ∀ ids : List String, ∃ n, ∀ m, n ≤ m → ∀ b ∈ ids, Well b (run m) := by
    intro ids
    induction ids with
    | nil => exact ⟨0, fun _ _ _ hb ↦ by cases hb⟩
    | cons b ids ih =>
      obtain ⟨n, hn⟩ := h.exists_well hs b
      obtain ⟨n', hn'⟩ := ih
      refine ⟨max n n', fun m hm e he ↦ ?_⟩
      rcases List.mem_cons.mp he with rfl | he
      · exact hn m ((le_max_left n n').trans hm)
      · exact hn' m ((le_max_right n n').trans hm) e he
  obtain ⟨n, hn⟩ := hknown s.known
  refine ⟨n, fun m hm ↦ ?_⟩
  rw [isPersistenceHealthy, List.all_eq_true]
  intro b _
  have hwell : Well b (run m) := by
    by_cases hb : b ∈ s.known
    · exact hn m hm b hb
    · exact (h.well_of_not_known hs hb m).1
  rw [show ((run m).entry b).board.persistenceDegraded = false from hwell]
  rfl

private def degraded (s : StrokeService) : Bool := !s.isPersistenceHealthy

/-- A service whose one board is degraded. -/
theorem healthy_in_the_end_retrying : ∃ s, (machine Audited.noRetries).exec start
      (onBoard "board-1" Audited.retryingRun) = some s ∧ s.isPersistenceHealthy = false ∧
    (machine Audited.noRetries).Due (fun _ a ↦ a.WriteSucceeds) (Advances "board-1")
      (Well "board-1") s := by
  obtain ⟨s, hexec, hsteps, hp⟩ := Machine.exists_of_exec (M := machine Audited.noRetries)
    (p := degraded) start (onBoard "board-1" Audited.retryingRun) (by decide +kernel)
  rw [degraded, Bool.not_eq_true'] at hp
  exact ⟨s, hexec, hp, (healthy_in_the_end ⟨_, init_startOver _, hsteps⟩).1 "board-1"⟩

end StrokeService

end Synapse
