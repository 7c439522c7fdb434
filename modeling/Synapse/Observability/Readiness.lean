import Mathlib.Data.List.ReduceOption
import Synapse.Stroke.Health
import Synapse.Transition.Earlier

/-!
# Readiness

`/readyz` runs the checks of `observability/health.ts` side by side, each raced against a timer, and
replies when all of them have come to something. A probe may settle at any time, or never, and the
service goes on meanwhile; a probe that loses the race changes nothing any more.

Two of the checks that `index.ts` wires wait for a reply from outside. The third reads a flag of the
service, at the moment it is called, so that what `/readyz` says of it is true of a moment between
the request and the reply, and not of the reply.
-/

namespace Synapse

open Transition

variable {σ α : Type*}

/-- A single named connectivity check for one dependency. -/
structure ReadinessCheck (σ : Type*) where
  name : String
  /-- What the probe settles with, if it does not wait for anything. -/
  probe : σ → Option (Except String Unit)

/-- Outcome of probing a single dependency. -/
structure DependencyStatus where
  name : String
  ok : Bool
  /-- Failure reason. -/
  error : Option String
  deriving DecidableEq

/-- Aggregate readiness outcome across all configured dependencies. -/
structure ReadinessResult where
  ready : Bool
  /-- The statuses, in the order the checks were supplied. -/
  checks : List DependencyStatus
  deriving DecidableEq

/-- The status of a dependency whose probe has settled in time. -/
def DependencyStatus.of (name : String) : Except String Unit → DependencyStatus
  | .ok _ => ⟨name, true, none⟩
  | .error message => ⟨name, false, some message⟩

/-- The message of a probe that has run out of time. -/
def timeoutMessage (ms : ℕ) : String := "timed out after " ++ toString ms ++ "ms"

def DependencyStatus.timedOut (name : String) (ms : ℕ) : DependencyStatus :=
  ⟨name, false, some (timeoutMessage ms)⟩

def ReadinessResult.of (statuses : List DependencyStatus) : ReadinessResult :=
  ⟨statuses.all DependencyStatus.ok, statuses⟩

/-- The status of the HTTP reply. -/
def ReadinessResult.httpStatus (result : ReadinessResult) : ℕ := if result.ready then 200 else 503

theorem ReadinessResult.ready_of_httpStatus {result : ReadinessResult}
    (h : result.httpStatus = 200) : result.ready = true := by
  by_contra hready
  rw [httpStatus, if_neg hready] at h
  cases h

theorem ReadinessResult.ready_eq_false_of_httpStatus {result : ReadinessResult}
    (h : result.httpStatus = 503) : result.ready = false := by
  refine Bool.eq_false_of_not_eq_true fun hready ↦ ?_
  rw [httpStatus, if_pos hready] at h
  cases h

/-! ## The checks -/

/-- A `SELECT 1`. -/
def databaseReadinessCheck : ReadinessCheck σ := ⟨"database", fun _ ↦ none⟩

/-- A `PING`. -/
def redisReadinessCheck : ReadinessCheck σ := ⟨"redis", fun _ ↦ none⟩

def flagReadinessCheck (name : String) (isHealthy : σ → Bool) (unhealthyMessage : String) :
    ReadinessCheck σ :=
  ⟨name, fun s ↦ some (if isHealthy s then .ok () else .error unhealthyMessage)⟩

def persistenceReadinessCheck : ReadinessCheck StrokeService :=
  flagReadinessCheck "persistence" StrokeService.isPersistenceHealthy
    "persistence write retries exhausted; durable-persistence acknowledgment withheld"

/-- The checks that `index.ts` wires. -/
def readinessChecks : List (ReadinessCheck StrokeService) :=
  [databaseReadinessCheck, redisReadinessCheck, persistenceReadinessCheck]

theorem eq_persistenceReadinessCheck {check : ReadinessCheck StrokeService}
    (h : check ∈ readinessChecks) (hname : check.name = "persistence") :
    check = persistenceReadinessCheck := by
  simp only [readinessChecks, List.mem_cons, List.not_mem_nil, or_false] at h
  rcases h with rfl | rfl | rfl
  · exact absurd hname (by decide)
  · exact absurd hname (by decide)
  · rfl

theorem isPersistenceHealthy_of_probe {w : StrokeService}
    (h : ∀ found ∈ persistenceReadinessCheck.probe w, found = .ok ()) :
    w.isPersistenceHealthy = true := by
  by_contra hunhealthy
  have hfound := h _ rfl
  rw [if_neg hunhealthy] at hfound
  cases hfound

theorem isPersistenceHealthy_eq_false_of_probe {w : StrokeService} {message : String}
    (h : ∀ found ∈ persistenceReadinessCheck.probe w, found = .error message) :
    w.isPersistenceHealthy = false := by
  refine Bool.eq_false_of_not_eq_true fun hhealthy ↦ ?_
  have hfound := h _ rfl
  rw [if_pos hhealthy] at hfound
  cases hfound

/-! ## The race of one probe -/

/-- How far a probe has come. -/
inductive ProbePhase
  /-- It is called in a microtask of its own. -/
  | queued
  /-- It has been called, and settles with `outcome` if that is known. -/
  | called (outcome : Option (Except String Unit))
  | settled (outcome : Except String Unit)

/-- A check under way. -/
structure Probing (σ : Type*) where
  check : ReadinessCheck σ
  /-- When the timer of `withTimeout` fires. -/
  deadline : ℕ
  /-- Whether the timer is set. -/
  armed : Bool := true
  phase : ProbePhase := .queued
  /-- The status, once the race is decided. -/
  status : Option DependencyStatus := none

inductive ProbeAction
  | call
  /-- The probe settles, and the callbacks of `withTimeout` run. -/
  | settle (outcome : Except String Unit)
  | fire

def ProbeAction.fires : ProbeAction → Bool
  | fire => true
  | call | settle _ => false

namespace Probing

variable (p : Probing σ)

def call (world : σ) : Probing σ := { p with phase := .called (p.check.probe world) }

/-- The timer is cleared, and the outcome counts unless the timer has fired. -/
def settle (outcome : Except String Unit) : Probing σ :=
  { p with
    phase := .settled outcome
    armed := false
    status := p.status.or (some (.of p.check.name outcome)) }

/-- The time is up. -/
def fire (timeoutMs : ℕ) : Probing σ :=
  { p with
    armed := false
    status := p.status.or (some (.timedOut p.check.name timeoutMs)) }

def step (world : σ) (now timeoutMs : ℕ) : ProbeAction → Option (Probing σ)
  | .call =>
    match p.phase with
    | .queued => some (p.call world)
    | _ => none
  | .settle outcome =>
    match p.phase with
    | .called none => some (p.settle outcome)
    -- a probe that did not wait settles with what it has found
    | .called (some found) => if found = outcome then some (p.settle outcome) else none
    | _ => none
  | .fire => if p.armed ∧ p.deadline ≤ now then some (p.fire timeoutMs) else none

end Probing

/-! ## The evaluation -/

/-- An evaluation of the readiness checks, and what goes on beside it. -/
structure Evaluation (σ : Type*) where
  world : σ
  now : ℕ
  timeoutMs : ℕ
  probes : List (Probing σ)
  /-- What is replied, once it is. -/
  reply : Option ReadinessResult := none
  /-- History: when the request came. -/
  startedAt : ℕ
  /-- History: the probes whose timers have fired. -/
  fired : List ℕ := []

inductive EvaluationAction (α : Type*)
  | world (a : α)
  | tick (t : ℕ)
  | probe (i : ℕ) (a : ProbeAction)
  /-- Every check has come to something. -/
  | reply

/-- `evaluateReadiness`, up to its `await`: every timer is set and every probe is queued. -/
def evaluateReadiness (checks : List (ReadinessCheck σ)) (timeoutMs : ℕ) (world : σ) (now : ℕ) :
    Evaluation σ where
  world
  now
  timeoutMs
  probes := checks.map fun check ↦ { check, deadline := now + timeoutMs }
  startedAt := now

namespace Evaluation

variable (e : Evaluation σ)

/-- Whether every race is decided. -/
def Decided : Prop := ∀ p ∈ e.probes, p.status.isSome

instance : Decidable e.Decided := inferInstanceAs (Decidable (∀ p ∈ e.probes, _))

def result : ReadinessResult := .of (e.probes.map Probing.status).reduceOption

def step (M : Machine σ α) : EvaluationAction α → Option (Evaluation σ)
  | .world a => (M.step e.world a).map fun world ↦ { e with world }
  | .tick t => if e.now ≤ t then some { e with now := t } else none
  | .probe i a => (e.probes[i]?.bind fun p ↦ p.step e.world e.now e.timeoutMs a).map fun p ↦
    { e with
      probes := e.probes.set i p
      fired := if a.fires then i :: e.fired else e.fired }
  | .reply => if e.reply = none ∧ e.Decided then some { e with reply := some e.result } else none

/-- Evaluations that start at any time of a run. -/
def machine (M : Machine σ α) (checks : List (ReadinessCheck σ)) (timeoutMs : ℕ) :
    Machine (Evaluation σ) (EvaluationAction α) where
  init e := ∃ world now, M.Reaches Machine.anyStep world ∧
    e = evaluateReadiness checks timeoutMs world now
  step e a := e.step M a

end Evaluation

/-! ## What a status says -/

namespace Probing

variable {p p' : Probing σ} {world : σ} {now now' timeoutMs : ℕ} {a : ProbeAction}
  {Past Past' : (σ → Prop) → Prop} {st : DependencyStatus}

/-- The probe had run out of time. -/
def TimedOut (p : Probing σ) (now timeoutMs : ℕ) (st : DependencyStatus) : Prop :=
  p.deadline ≤ now ∧ st = .timedOut p.check.name timeoutMs

/-- The probe has settled, with what it found at some time in the past if it did not wait. -/
def Answered (p : Probing σ) (Past : (σ → Prop) → Prop) (st : DependencyStatus) : Prop :=
  ∃ outcome, p.phase = .settled outcome ∧ st = .of p.check.name outcome ∧
    Past fun w ↦ ∀ found ∈ p.check.probe w, found = outcome

/-- The timer is set until the race is decided, and the status tells who has won. -/
structure Sound (p : Probing σ) (Past : (σ → Prop) → Prop) (now timeoutMs : ℕ) : Prop where
  armed : p.armed = p.status.isNone
  called : ∀ found, p.phase = .called found → Past fun w ↦ p.check.probe w = found
  status : ∀ st ∈ p.status, p.Answered Past st ∨ p.TimedOut now timeoutMs st

theorem sound_queued (check : ReadinessCheck σ) (deadline : ℕ) :
    Sound { check, deadline } Past now timeoutMs where
  armed := rfl
  called _ h := by cases h
  status _ h := by cases h

theorem Sound.name_eq (h : p.Sound Past now timeoutMs) (hst : st ∈ p.status) :
    st.name = p.check.name := by
  rcases h.status st hst with ⟨outcome, -, rfl, -⟩ | ⟨-, rfl⟩
  · cases outcome <;> rfl
  · rfl

theorem Sound.mono (h : p.Sound Past now timeoutMs) (hPast : ∀ P, Past P → Past' P)
    (hnow : now ≤ now') : p.Sound Past' now' timeoutMs where
  armed := h.armed
  called found hfound := hPast _ (h.called found hfound)
  status st hst := by
    rcases h.status st hst with ⟨outcome, hphase, hof, hpast⟩ | ⟨hdeadline, hst⟩
    · exact Or.inl ⟨outcome, hphase, hof, hPast _ hpast⟩
    · exact Or.inr ⟨hdeadline.trans hnow, hst⟩

theorem Sound.settle (h : p.Sound Past now timeoutMs) {outcome : Except String Unit}
    (hpast : Past fun w ↦ ∀ found ∈ p.check.probe w, found = outcome)
    (hphase : ∀ outcome, p.phase ≠ .settled outcome) :
    (p.settle outcome).Sound Past now timeoutMs where
  armed := by
    cases hst : p.status <;> simp [Probing.settle, hst]
  called _ h := by cases h
  status st hst := by
    rw [Probing.settle, Option.mem_def, Option.or_eq_some_iff] at hst
    rcases hst with hst | ⟨-, hst⟩
    · rcases h.status st hst with ⟨outcome', hsettled, -⟩ | htimedOut
      · exact absurd hsettled (hphase outcome')
      · exact Or.inr htimedOut
    · cases hst
      exact Or.inl ⟨outcome, rfl, rfl, hpast⟩

theorem Sound.step (h : p.Sound Past now timeoutMs) (hworld : ∀ P, P world → Past P)
    (himp : ∀ P Q : σ → Prop, (∀ w, P w → Q w) → Past P → Past Q)
    (hs : p.step world now timeoutMs a = some p') : p'.Sound Past now timeoutMs := by
  cases a with
  | call =>
    unfold Probing.step at hs
    dsimp only at hs
    split at hs
    · next hphase =>
      cases hs
      refine ⟨h.armed, fun found hfound ↦ ?_, fun st hst ↦ ?_⟩
      · cases hfound
        exact hworld _ rfl
      · rcases h.status st hst with ⟨_, hsettled, -⟩ | htimedOut
        · rw [hphase] at hsettled
          cases hsettled
        · exact Or.inr htimedOut
    · cases hs
  | settle outcome =>
    unfold Probing.step at hs
    dsimp only at hs
    split at hs
    · next hphase =>
      cases hs
      refine h.settle (himp _ _ (fun w hw ↦ ?_) (h.called _ hphase)) (by simp [hphase])
      simp [hw]
    · next found hphase =>
      obtain ⟨rfl, hs⟩ := Option.ite_none_right_eq_some.mp hs
      cases hs
      refine h.settle (himp _ _ (fun w hw ↦ ?_) (h.called _ hphase)) (by simp [hphase])
      simp [hw]
    · cases hs
  | fire =>
    obtain ⟨⟨harmed, hdeadline⟩, hs⟩ := Option.ite_none_right_eq_some.mp hs
    cases hs
    refine ⟨?_, h.called, fun st hst ↦ ?_⟩
    · cases hst : p.status <;> simp [Probing.fire, hst]
    · rw [h.armed, Option.isNone_iff_eq_none] at harmed
      rw [Probing.fire, harmed, Option.none_or, Option.mem_some_iff] at hst
      exact Or.inr ⟨hdeadline, hst.symm⟩

/-- A step of a probe changes neither its check and its deadline nor a status. -/
theorem step_frame (hs : p.step world now timeoutMs a = some p') : p'.check = p.check ∧
    p'.deadline = p.deadline ∧ ∀ st ∈ p.status, st ∈ p'.status := by
  have hor : ∀ {new : DependencyStatus}, ∀ st ∈ p.status, st ∈ p.status.or (some new) := by
    intro new st hst
    rw [Option.mem_def.mp hst]
    rfl
  cases a with
  | call =>
    unfold Probing.step at hs
    dsimp only at hs
    split at hs <;> cases hs
    exact ⟨rfl, rfl, fun _ hst ↦ hst⟩
  | settle outcome =>
    unfold Probing.step at hs
    dsimp only at hs
    split at hs
    · cases hs
      exact ⟨rfl, rfl, hor⟩
    · obtain ⟨-, hs⟩ := Option.ite_none_right_eq_some.mp hs
      cases hs
      exact ⟨rfl, rfl, hor⟩
    · cases hs
  | fire =>
    obtain ⟨-, hs⟩ := Option.ite_none_right_eq_some.mp hs
    cases hs
    exact ⟨rfl, rfl, hor⟩

theorem armed_of_step (hs : p.step world now timeoutMs a = some p') (harmed : p'.armed = true) :
    p.armed = true := by
  cases a with
  | call =>
    unfold Probing.step at hs
    dsimp only at hs
    split at hs <;> cases hs
    exact harmed
  | settle outcome =>
    unfold Probing.step at hs
    dsimp only at hs
    split at hs
    · cases hs
      cases harmed
    · obtain ⟨-, hs⟩ := Option.ite_none_right_eq_some.mp hs
      cases hs
      cases harmed
    · cases hs
  | fire => exact (Option.ite_none_right_eq_some.mp hs).1.1

end Probing

namespace Evaluation

variable {M : Machine σ α} {checks : List (ReadinessCheck σ)} {timeoutMs : ℕ} {e e' : Evaluation σ}
  {a : EvaluationAction α} {ok : Evaluation σ → EvaluationAction α → Prop}

/-- `P` held of the world at some moment of the evaluation. -/
def Once (M : Machine σ α) (checks : List (ReadinessCheck σ)) (timeoutMs : ℕ) (e : Evaluation σ)
    (P : σ → Prop) : Prop :=
  (machine M checks timeoutMs).Earlier Machine.anyStep (fun e ↦ P e.world) e

/-- The evaluation is one of the given checks, every status tells what has become of its probe, and
the reply, once made, is the statuses. -/
structure Sound (M : Machine σ α) (checks : List (ReadinessCheck σ)) (timeoutMs : ℕ)
    (e : Evaluation σ) : Prop where
  wired : e.probes.map Probing.check = checks
  budget : e.timeoutMs = timeoutMs
  deadline : ∀ p ∈ e.probes, p.deadline = e.startedAt + timeoutMs
  probes : ∀ p ∈ e.probes, p.Sound (Once M checks timeoutMs e) e.now timeoutMs
  fired : ∀ i ∈ e.fired, ∀ p ∈ e.probes[i]?, p.status = some (.timedOut p.check.name timeoutMs)
  reply : ∀ result ∈ e.reply, e.Decided ∧ result = e.result

theorem Sound.of_evaluateReadiness (world : σ) (now : ℕ) :
    Sound M checks timeoutMs (evaluateReadiness checks timeoutMs world now) := by
  refine ⟨?_, rfl, ?_, ?_, fun i hi ↦ (nomatch hi), fun result h ↦ by cases h⟩
  · rw [evaluateReadiness, List.map_map]
    exact List.map_id _
  · intro p hp
    obtain ⟨check, -, rfl⟩ := List.mem_map.mp hp
    rfl
  · intro p hp
    obtain ⟨check, -, rfl⟩ := List.mem_map.mp hp
    exact Probing.sound_queued check _

theorem step_probe_eq_some {i : ℕ} {b : ProbeAction} (h : e.step M (.probe i b) = some e') :
    ∃ p p', e.probes[i]? = some p ∧ p.step e.world e.now e.timeoutMs b = some p' ∧
      e' = { e with
        probes := e.probes.set i p'
        fired := if b.fires then i :: e.fired else e.fired } := by
  obtain ⟨p', hp', rfl⟩ := Option.map_eq_some_iff.mp h
  obtain ⟨p, hp, hstep⟩ := Option.bind_eq_some_iff.mp hp'
  exact ⟨p, p', hp, hstep, rfl⟩

theorem map_set_of_eq {β γ : Type*} {f : β → γ} {l : List β} {i : ℕ} {x y : β} (hx : l[i]? = some x)
    (hf : f y = f x) : (l.set i y).map f = l.map f := by
  obtain ⟨hi, rfl⟩ := List.getElem?_eq_some_iff.mp hx
  have hmap : i < (l.map f).length := by rwa [List.length_map]
  rw [List.map_set, hf, ← List.getElem_map f (h := hmap), List.set_getElem_self]

theorem map_status_set {i : ℕ} {p p' : Probing σ} (hp : e.probes[i]? = some p)
    (hstatus : ∀ st ∈ p.status, st ∈ p'.status) (hdecided : e.Decided) :
    (e.probes.set i p').map Probing.status = e.probes.map Probing.status := by
  obtain ⟨st, hst⟩ := Option.isSome_iff_exists.mp (hdecided p (List.mem_of_getElem? hp))
  refine map_set_of_eq hp ?_
  rw [hst]
  exact hstatus st hst

theorem decided_iff : e.Decided ↔ ∀ st ∈ e.probes.map Probing.status, st.isSome := by
  rw [Decided, List.forall_mem_map]

/-- A timer that fires was set, so its race was not decided. -/
theorem Sound.fired_probe (h : Sound M checks timeoutMs e) {i : ℕ} {b : ProbeAction}
    {p p' : Probing σ} (hp : e.probes[i]? = some p)
    (hstep : p.step e.world e.now e.timeoutMs b = some p') :
    ∀ j ∈ (if b.fires then i :: e.fired else e.fired), ∀ q ∈ (e.probes.set i p')[j]?,
      q.status = some (.timedOut q.check.name timeoutMs) := by
  obtain ⟨hcheck, -, hstatus⟩ := Probing.step_frame hstep
  obtain ⟨hi, -⟩ := List.getElem?_eq_some_iff.mp hp
  intro j hj q hq
  by_cases hij : i = j
  · subst hij
    rw [List.getElem?_set_self hi, Option.mem_some_iff] at hq
    subst hq
    by_cases hmem : i ∈ e.fired
    · rw [hcheck]
      exact hstatus _ (h.fired i hmem p hp)
    · cases b with
      | fire =>
        obtain ⟨⟨harmed, -⟩, hfire⟩ := Option.ite_none_right_eq_some.mp hstep
        cases hfire
        rw [(h.probes p (List.mem_of_getElem? hp)).armed, Option.isNone_iff_eq_none] at harmed
        rw [Probing.fire, harmed, Option.none_or, h.budget]
      | call | settle => exact absurd hj hmem
  · rw [List.getElem?_set_ne hij] at hq
    refine h.fired j ?_ q hq
    split_ifs at hj
    · exact (List.mem_cons.mp hj).resolve_left (Ne.symm hij)
    · exact hj

/-- **Every step keeps the statuses truthful.** -/
theorem Sound.step (h : Sound M checks timeoutMs e)
    (hreaches : (machine M checks timeoutMs).Reaches Machine.anyStep e)
    (hs : e.step M a = some e') : Sound M checks timeoutMs e' := by
  have honce : ∀ P, Once M checks timeoutMs e P → Once M checks timeoutMs e' P :=
    fun P hP ↦ hP.step trivial hs
  cases a with
  | world b =>
    obtain ⟨world, -, rfl⟩ := Option.map_eq_some_iff.mp hs
    exact ⟨h.wired, h.budget, h.deadline, fun p hp ↦ (h.probes p hp).mono honce le_rfl,
      h.fired, h.reply⟩
  | tick t =>
    obtain ⟨ht, hs⟩ := Option.ite_none_right_eq_some.mp hs
    cases hs
    exact ⟨h.wired, h.budget, h.deadline, fun p hp ↦ (h.probes p hp).mono honce ht,
      h.fired, h.reply⟩
  | probe i b =>
    obtain ⟨p, p', hp, hstep, rfl⟩ := step_probe_eq_some hs
    obtain ⟨hcheck, hdeadline, hstatus⟩ := Probing.step_frame hstep
    have hmem := List.mem_of_getElem? hp
    refine ⟨?_, h.budget, fun q hq ↦ ?_, fun q hq ↦ ?_, h.fired_probe hp hstep,
      fun result hresult ↦ ?_⟩
    · rw [← h.wired]
      exact map_set_of_eq hp hcheck
    · rcases List.mem_or_eq_of_mem_set hq with hq | rfl
      · exact h.deadline q hq
      · exact hdeadline.trans (h.deadline p hmem)
    · rcases List.mem_or_eq_of_mem_set hq with hq | rfl
      · exact (h.probes q hq).mono honce le_rfl
      · rw [h.budget] at hstep
        have hsound := (h.probes p hmem).step (fun P hP ↦ .now hreaches hP)
          (fun P Q hPQ hP ↦ hP.imp fun u ↦ hPQ u.world) hstep
        exact hsound.mono honce le_rfl
    · obtain ⟨hdecided, rfl⟩ := h.reply result hresult
      have hmap := map_status_set hp hstatus hdecided
      refine ⟨?_, ?_⟩
      · rw [decided_iff, hmap]
        exact decided_iff.mp hdecided
      · rw [result, result, hmap]
  | reply =>
    obtain ⟨⟨-, hdecided⟩, hs⟩ := Option.ite_none_right_eq_some.mp hs
    cases hs
    refine ⟨h.wired, h.budget, h.deadline, fun p hp ↦ (h.probes p hp).mono honce le_rfl,
      h.fired, fun result hresult ↦ ?_⟩
    cases hresult
    exact ⟨hdecided, rfl⟩

theorem sound_of_reaches (h : (machine M checks timeoutMs).Reaches Machine.anyStep e) :
    Sound M checks timeoutMs e := by
  obtain ⟨e₀, ⟨world, now, hworld, rfl⟩, hsteps⟩ := h
  have hinit : (machine M checks timeoutMs).Reaches Machine.anyStep
      (evaluateReadiness checks timeoutMs world now) := .init ⟨world, now, hworld, rfl⟩
  refine (hsteps.invariant (P := fun e ↦ (machine M checks timeoutMs).Reaches Machine.anyStep e ∧
    Sound M checks timeoutMs e) ⟨hinit, .of_evaluateReadiness world now⟩ ?_).2
  intro u a v hu _ hs
  exact ⟨hu.1.step trivial hs, hu.2.step hu.1 hs⟩

theorem Sound.mem_checks (h : Sound M checks timeoutMs e) {result : ReadinessResult}
    (hr : e.reply = some result) {st : DependencyStatus} :
    st ∈ result.checks ↔ ∃ p ∈ e.probes, p.status = some st := by
  obtain ⟨-, rfl⟩ := h.reply result hr
  change st ∈ (e.probes.map Probing.status).reduceOption ↔ _
  rw [List.reduceOption_mem_iff, List.mem_map]

theorem map_name_reduceOption {l : List (Probing σ)} (hdecided : ∀ p ∈ l, p.status.isSome)
    (hname : ∀ p ∈ l, ∀ st ∈ p.status, st.name = p.check.name) :
    (l.map Probing.status).reduceOption.map DependencyStatus.name
      = (l.map Probing.check).map ReadinessCheck.name := by
  induction l with
  | nil => rfl
  | cons p l ih =>
    obtain ⟨hp, hl⟩ := List.forall_mem_cons.mp hdecided
    obtain ⟨hnamep, hnamel⟩ := List.forall_mem_cons.mp hname
    obtain ⟨st, hst⟩ := Option.isSome_iff_exists.mp hp
    rw [List.map_cons, List.map_cons, List.map_cons, hst, List.reduceOption_cons_of_some,
      List.map_cons, ih hl hnamel, hnamep st hst]

/-- A reply has a status for every check, in their order. -/
theorem Sound.map_name (h : Sound M checks timeoutMs e) {result : ReadinessResult}
    (hr : e.reply = some result) :
    result.checks.map DependencyStatus.name = checks.map ReadinessCheck.name := by
  obtain ⟨hdecided, rfl⟩ := h.reply result hr
  rw [← h.wired]
  exact map_name_reduceOption hdecided fun p hp st hst ↦ (h.probes p hp).name_eq hst

theorem Sound.ready_iff (h : Sound M checks timeoutMs e) {result : ReadinessResult}
    (hr : e.reply = some result) : result.ready = true ↔ ∀ st ∈ result.checks, st.ok = true := by
  obtain ⟨-, rfl⟩ := h.reply result hr
  exact List.all_eq_true

/-- The probe has resolved, its timer has not fired before that or since, and its status says so. -/
structure InTime (e : Evaluation σ) (i : ℕ) (p : Probing σ) : Prop where
  phase : p.phase = .settled (.ok ())
  status : p.status = some (.of p.check.name (.ok ()))
  fired : i ∉ e.fired

/-- A check that is reported healthy has settled in time, and not failed. -/
theorem Sound.of_ok (h : Sound M checks timeoutMs e) {i : ℕ} {p : Probing σ}
    (hp : e.probes[i]? = some p) {st : DependencyStatus} (hst : st ∈ p.status)
    (hok : st.ok = true) : e.InTime i p ∧
      Once M checks timeoutMs e fun w ↦ ∀ found ∈ p.check.probe w, found = .ok () := by
  rcases (h.probes p (List.mem_of_getElem? hp)).status st hst with
    ⟨outcome, hphase, rfl, honce⟩ | ⟨-, rfl⟩
  · cases outcome with
    | ok =>
      refine ⟨⟨hphase, hst, fun hfired ↦ ?_⟩, honce⟩
      have htimedOut := h.fired i hfired p hp
      rw [Option.mem_def.mp hst] at htimedOut
      cases htimedOut
    | error message => cases hok
  · cases hok

theorem Sound.answered_of_ready (h : Sound M checks timeoutMs e) {result : ReadinessResult}
    (hr : e.reply = some result) (hready : result.ready = true) {i : ℕ} {p : Probing σ}
    (hp : e.probes[i]? = some p) : e.InTime i p ∧
      Once M checks timeoutMs e fun w ↦ ∀ found ∈ p.check.probe w, found = .ok () := by
  have hmem := List.mem_of_getElem? hp
  obtain ⟨st, hst⟩ := Option.isSome_iff_exists.mp ((h.reply result hr).1 p hmem)
  have hchecks : st ∈ result.checks := (h.mem_checks hr).mpr ⟨p, hmem, hst⟩
  exact h.of_ok hp hst ((h.ready_iff hr).mp hready st hchecks)

/-- A check that is reported unhealthy has failed, with the message of its status, or has run out
of time. -/
theorem Sound.of_not_ok (h : Sound M checks timeoutMs e) {p : Probing σ} (hp : p ∈ e.probes)
    {st : DependencyStatus} (hst : st ∈ p.status) (hok : st.ok = false) :
    (st.error = some (timeoutMessage timeoutMs) ∧ e.startedAt + timeoutMs ≤ e.now) ∨
    ∃ message, st.error = some message ∧ p.phase = .settled (.error message) ∧
      Once M checks timeoutMs e fun w ↦ ∀ found ∈ p.check.probe w, found = .error message := by
  rcases (h.probes p hp).status st hst with ⟨outcome, hphase, rfl, honce⟩ | ⟨hdeadline, rfl⟩
  · cases outcome with
    | ok => cases hok
    | error message => exact Or.inr ⟨message, rfl, hphase, honce⟩
  · exact Or.inl ⟨rfl, h.deadline p hp ▸ hdeadline⟩

/-! ## `/readyz` -/

section Readyz

variable {cfg : Config} {e : Evaluation StrokeService} {result : ReadinessResult}

/-- **What `/readyz` says is so.** It is ready when every probe has resolved before its timer fired
and no board was degraded at some moment between the request and the reply. Otherwise it names a
check that has failed, with its reason: the time was up, the probe has rejected with that message,
or, for the persistence check, a board was degraded at some such moment. -/
theorem readyz_sound (h : (machine (StrokeService.machine cfg) readinessChecks timeoutMs).Reaches
      Machine.anyStep e) (hr : e.reply = some result) :
    result.checks.map DependencyStatus.name = ["database", "redis", "persistence"] ∧
    (result.httpStatus = 200 → (∀ i, ∀ p ∈ e.probes[i]?, e.InTime i p) ∧
      Once (StrokeService.machine cfg) readinessChecks timeoutMs e
        fun w ↦ w.isPersistenceHealthy = true) ∧
    (result.httpStatus = 503 → ∃ st ∈ result.checks, st.ok = false) ∧
    ∀ st ∈ result.checks, st.ok = false →
      (st.error = some (timeoutMessage timeoutMs) ∧ e.startedAt + timeoutMs ≤ e.now) ∨
      ∃ p ∈ e.probes, p.check.name = st.name ∧
        (∃ message, st.error = some message ∧ p.phase = .settled (.error message)) ∧
        (st.name = "persistence" → Once (StrokeService.machine cfg) readinessChecks timeoutMs e
          fun w ↦ w.isPersistenceHealthy = false) := by
  have hs := sound_of_reaches h
  refine ⟨hs.map_name hr, fun h200 ↦ ?_, fun h503 ↦ ?_, fun st hst hok ↦ ?_⟩
  · have hready := ReadinessResult.ready_of_httpStatus h200
    refine ⟨fun i p hp ↦ (hs.answered_of_ready hr hready hp).1, ?_⟩
    have hwired : persistenceReadinessCheck ∈ e.probes.map Probing.check := by
      rw [hs.wired]
      simp [readinessChecks]
    obtain ⟨p, hp, hflag⟩ := List.mem_map.mp hwired
    obtain ⟨i, hi⟩ := List.mem_iff_getElem?.mp hp
    refine (hs.answered_of_ready hr hready hi).2.imp fun u hu ↦ ?_
    rw [hflag] at hu
    exact isPersistenceHealthy_of_probe hu
  · by_contra hall
    have hready : result.ready = true := (hs.ready_iff hr).mpr fun st hst ↦ by
      by_contra hok
      exact hall ⟨st, hst, Bool.eq_false_of_not_eq_true hok⟩
    rw [ReadinessResult.ready_eq_false_of_httpStatus h503] at hready
    cases hready
  · obtain ⟨p, hp, hstatus⟩ := (hs.mem_checks hr).mp hst
    have hname := (hs.probes p hp).name_eq hstatus
    refine (hs.of_not_ok hp hstatus hok).imp_right fun ⟨message, herror, hphase, honce⟩ ↦
      ⟨p, hp, hname.symm, ⟨message, herror, hphase⟩, fun hpersistence ↦ honce.imp fun u hu ↦ ?_⟩
    -- the only check of that name reads the flag
    have hcheck : p.check ∈ readinessChecks := hs.wired ▸ List.mem_map_of_mem hp
    rw [eq_persistenceReadinessCheck hcheck (hname.symm.trans hpersistence)] at hu
    exact isPersistenceHealthy_eq_false_of_probe hu

/-- The database and Redis answer after four seconds. -/
def promptRun : List (EvaluationAction ServiceAction) :=
  [.probe 0 .call, .probe 1 .call, .probe 2 .call, .probe 2 (.settle (.ok ())), .tick 4000,
    .probe 1 (.settle (.ok ())), .probe 0 (.settle (.ok ())), .reply]

theorem readyz_sound_promptRun : ∃ e result,
    (machine (StrokeService.machine Audited.noRetries) readinessChecks 5000).exec
      (evaluateReadiness readinessChecks 5000 StrokeService.start 0) promptRun = some e ∧
    e.reply = some result ∧ result.httpStatus = 200 ∧ ∀ i, ∀ p ∈ e.probes[i]?, e.InTime i p := by
  have hrun : ((machine (StrokeService.machine Audited.noRetries) readinessChecks 5000).exec
      (evaluateReadiness readinessChecks 5000 StrokeService.start 0) promptRun).any (fun e ↦
        e.reply.any fun result ↦ decide (result.httpStatus = 200)) = true := by decide
  obtain ⟨e, he, hsteps, hp⟩ := Machine.exists_of_exec _ _ hrun
  obtain ⟨result, hr, h200⟩ := (Option.any_eq_true _ _).mp hp
  have h200 : result.httpStatus = 200 := of_decide_eq_true h200
  have hsound := readyz_sound ⟨_, ⟨_, 0, .init (StrokeService.init_startOver _), rfl⟩, hsteps⟩ hr
  exact ⟨e, result, he, hr, h200, (hsound.2.1 h200).1⟩

end Readyz

/-! ## In time -/

/-- The clock does not run ahead of a timer that is set. -/
def Punctual (e : Evaluation σ) : EvaluationAction α → Prop
  | .tick t => ∀ p ∈ e.probes, p.armed = true → t ≤ p.deadline
  | _ => True

instance (e : Evaluation σ) : (a : EvaluationAction α) → Decidable (Punctual e a)
  | .tick t => inferInstanceAs (Decidable (∀ p ∈ e.probes, p.armed = true → t ≤ p.deadline))
  | .world _ | .probe .. | .reply => isTrue trivial

theorem le_deadline_of_reaches (h : (machine M checks timeoutMs).Reaches Punctual e) :
    ∀ p ∈ e.probes, p.armed = true → e.now ≤ p.deadline := by
  refine h.invariant (P := fun e ↦ ∀ p ∈ e.probes, p.armed = true → e.now ≤ p.deadline) ?_
    fun u a v hu hpunctual hs ↦ ?_
  · rintro _ ⟨world, now, -, rfl⟩ p hp -
    obtain ⟨check, -, rfl⟩ := List.mem_map.mp hp
    exact Nat.le_add_right _ _
  · cases a with
    | world b =>
      obtain ⟨world, -, rfl⟩ := Option.map_eq_some_iff.mp hs
      exact hu
    | tick t =>
      obtain ⟨ht, hs⟩ := Option.ite_none_right_eq_some.mp hs
      cases hs
      exact hpunctual
    | probe i b =>
      obtain ⟨p, p', hp, hstep, rfl⟩ := step_probe_eq_some (M := M) hs
      intro q hq harmed
      rcases List.mem_or_eq_of_mem_set hq with hq | rfl
      · exact hu q hq harmed
      · obtain ⟨-, hdeadline, -⟩ := Probing.step_frame hstep
        rw [hdeadline]
        exact hu p (List.mem_of_getElem? hp) (Probing.armed_of_step hstep harmed)
    | reply =>
      obtain ⟨-, hs⟩ := Option.ite_none_right_eq_some.mp hs
      cases hs
      exact hu

/-- **The reply comes in time, and leaves no timer behind.** Whatever the dependencies do, if timers
fire when they are due, then nothing keeps the reply from being made once the time is up, and at the
reply every timer has fired or has been cleared. -/
theorem reply_in_time (h : (machine M checks timeoutMs).Reaches Punctual e) :
    (e.startedAt + timeoutMs < e.now → e.reply.isSome ∨ (e.step M .reply).isSome) ∧
      (e.reply.isSome → ∀ p ∈ e.probes, p.armed = false) := by
  have hs := sound_of_reaches (h.mono fun _ _ _ ↦ trivial)
  refine ⟨fun hlate ↦ ?_, fun hreply p hp ↦ ?_⟩
  · have hdecided : e.Decided := by
      intro p hp
      by_contra hnone
      have harmed : p.armed = true := by
        rw [(hs.probes p hp).armed]
        simpa using hnone
      have hle := le_deadline_of_reaches h p hp harmed
      rw [hs.deadline p hp] at hle
      omega
    rcases hreply : e.reply with _ | result
    · exact Or.inr (by simp [Evaluation.step, hreply, hdecided])
    · exact Or.inl rfl
  · obtain ⟨result, hresult⟩ := Option.isSome_iff_exists.mp hreply
    rw [(hs.probes p hp).armed]
    obtain ⟨st, hst⟩ := Option.isSome_iff_exists.mp ((hs.reply result hresult).1 p hp)
    rw [hst]
    rfl

/-- Redis does not answer, and its time is up. -/
def silentRun : List (EvaluationAction ServiceAction) :=
  [.probe 0 .call, .probe 1 .call, .probe 2 .call, .probe 2 (.settle (.ok ())),
    .probe 0 (.settle (.ok ())), .tick 5000, .probe 1 .fire, .reply]

theorem reply_in_time_silentRun : ∃ e,
    (machine (StrokeService.machine Audited.noRetries) readinessChecks 5000).exec
      (evaluateReadiness readinessChecks 5000 StrokeService.start 0) (silentRun ++ [.tick 5001])
        = some e ∧
    e.now = 5001 ∧ e.reply.isSome ∧ ∀ p ∈ e.probes, p.armed = false := by
  have hrun : (((machine (StrokeService.machine Audited.noRetries) readinessChecks 5000).guarded
      Punctual).exec (evaluateReadiness readinessChecks 5000 StrokeService.start 0)
      (silentRun ++ [.tick 5001])).any (fun e ↦ decide (e.now = 5001 ∧ e.reply.isSome)) = true := by
    decide
  obtain ⟨e, he, hsteps, hp⟩ := Machine.exists_of_guarded_any _ _ hrun
  obtain ⟨hnow, hreply⟩ := of_decide_eq_true hp
  have htime := reply_in_time ⟨_, ⟨_, 0, .init (StrokeService.init_startOver _), rfl⟩, hsteps⟩
  exact ⟨e, he, hnow, hreply, htime.2 hreply⟩

end Evaluation

end Synapse
