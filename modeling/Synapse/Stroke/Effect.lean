import Synapse.Stroke.Inversion

/-!
# What a step does to the log and to the strokes

Of everything an instance does, little concerns the shared rows or moves a stroke: one is accepted,
a buffer is captured by a drain, a batch is inserted, let go of or put back, rows are deleted, or
the row of `boards` is written. Everything else leaves the log as it is and the strokes where they
are. `Instance.Effect` lists these effects and `Instance.Step.effect` sorts every step into the
list, so that a statement about where the strokes are never looks at the step function again.
-/

namespace Synapse

namespace Instance

variable {cfg : Config} {log log' : BoardLog} {inst inst' : Instance}

/-- What the instance is in charge of: the buffer at `none`, the batch of drain `d` at `some d`. -/
def held (inst : Instance) : Option ℕ → List PersistedStroke
  | none => inst.buffer
  | some d => inst.batch d

@[simp] theorem held_none : inst.held none = inst.buffer := rfl

@[simp] theorem held_some (d : ℕ) : inst.held (some d) = inst.batch d := rfl

theorem held_setBoard {state : BoardState} (h : state.buffer = inst.buffer) :
    (inst.setBoard state).held = inst.held := by
  funext p
  cases p with
  | none => exact h
  | some d => rfl

theorem held_setDrain (d : ℕ) (phase : DrainPhase) :
    (inst.setDrain d phase).held = Function.update inst.held (some d) phase.batch := by
  funext p
  cases p with
  | none => rfl
  | some e =>
    rw [held_some, batch, drains_setDrain, Function.update_apply]
    by_cases he : e = d
    · simp [he]
    · simp [he, batch]

theorem held_setDrain_of_batch_eq {d : ℕ} {phase : DrainPhase} (h : phase.batch = inst.batch d) :
    (inst.setDrain d phase).held = inst.held := by
  rw [held_setDrain, h, ← held_some, Function.update_eq_self]

theorem held_setBoard_buffer {state : BoardState} :
    (inst.setBoard state).held = Function.update inst.held none state.buffer := by
  funext p
  cases p <;> rfl

theorem held_drainOnce (d : ℕ) : (inst.drainOnce d).held
    = Function.update (Function.update inst.held (some d) inst.buffer) none [] := by
  have hbatch : DrainPhase.batch (if inst.buffer = [] then .succeeded else .inserting inst.buffer)
      = inst.buffer := by
    split_ifs with h
    · exact h.symm
    · rfl
  rw [drainOnce, held_setDrain, held_setBoard_buffer, hbatch]
  exact Function.update_comm (by simp) _ _ _

theorem held_drainOnce_setBoard {state : BoardState} (h : state.buffer = inst.buffer) (d : ℕ) :
    ((inst.setBoard state).drainOnce d).held
      = Function.update (Function.update inst.held (some d) inst.buffer) none [] := by
  rw [held_drainOnce, held_setBoard h, buffer_setBoard, h]

theorem held_flush (d : ℕ) : (inst.flush d).held
    = Function.update (Function.update inst.held (some d) inst.buffer) none [] := by
  rcases flush_cases inst d with ⟨hstate, hflush⟩ | hflush
  · have hbuf : inst.held none = [] := buffer_of_unseen hstate
    rw [hflush, held_setDrain, Function.update_comm (by simp), ← hbuf, Function.update_eq_self,
      ← held_none, hbuf]
    rfl
  · rw [hflush]
    exact held_drainOnce_setBoard rfl d

theorem held_rebuffer (d : ℕ) : (inst.rebuffer d).held = Function.update
    (Function.update inst.held none (inst.batch d ++ inst.buffer)) (some d) [] := by
  rw [rebuffer, held_setDrain, held_setBoard_buffer]
  rfl

theorem held_bufferStroke (stroke : PersistedStroke) : (inst.bufferStroke stroke).held
    = Function.update inst.held none (inst.buffer ++ [stroke]) :=
  held_setBoard_buffer

theorem held_ensureInitialized (caller : Caller) :
    (inst.ensureInitialized caller).held = inst.held := by
  unfold ensureInitialized
  split
  · exact held_setBoard rfl
  · rfl
  · rfl

/-- Whether the next call to resume is an `append`. -/
def resumesAppend (inst : Instance) : Bool :=
  match inst.ready with
  | .append _ _ _ :: _ => true
  | _ => false

/-- Whether the action is the moment at which an `append` accepts its stroke. -/
def accepts (inst : Instance) : Action → Bool
  | .resume _ _ _ => inst.resumesAppend
  | _ => false

/-- Whether the action empties the buffer into a drain: a flush, a timer, or the stroke that fills
the batch. -/
def captures (cfg : Config) (inst : Instance) : Action → Bool
  | .flush _ | .timerFires _ | .retryFires _ => true
  | .resume _ _ _ => inst.resumesAppend && decide (cfg.flushBatchSize ≤ inst.buffer.length + 1)
  | _ => false

/-- The effects of a step on the strokes. -/
inductive Effect (cfg : Config) (log : BoardLog) (inst : Instance) :
    Action → BoardLog → Instance → Prop
  /-- Nothing is written and nothing moves. -/
  | quiet {a : Action} {inst' : Instance} (hheld : inst'.held = inst.held) :
      Effect cfg log inst a log inst'
  /-- The row of `boards` is created. -/
  | ensure {inst' : Instance} (hheld : inst'.held = inst.held) :
      Effect cfg log inst (.restore .ensure) (log.mapStore BoardStore.ensure) inst'
  /-- The baseline is written. -/
  | setSnapshot {inst' : Instance} (c cut : ℕ)
      (hphase : inst.compactions c = some (.settingSnapshot cut)) (hheld : inst'.held = inst.held) :
      Effect cfg log inst (.compact c .setSnapshot) (log.mapStore (·.setSnapshot cut)) inst'
  /-- A stroke with the next number is accepted and buffered. -/
  | accept {id : String} {ts d : ℕ} {inst' : Instance} (k : PersistedStroke)
      (hseq : k.seq = inst.board.nextSeq) (hready : inst.resumesAppend)
      (hheld : inst'.held = Function.update inst.held none (inst.buffer ++ [k])) :
      Effect cfg log inst (.resume id ts d) (log.accept k) inst'
  /-- An idle drain captures the buffer. -/
  | capture {a : Action} {inst' : Instance} (d : ℕ) (hidle : inst.drains d = none)
      (hcapture : captures cfg inst a)
      (hheld : inst'.held
        = Function.update (Function.update inst.held (some d) inst.buffer) none []) :
      Effect cfg log inst a log inst'
  /-- A stroke is accepted and fills the batch. -/
  | acceptCapture {id : String} {ts d : ℕ} {inst' : Instance} (k : PersistedStroke)
      (hseq : k.seq = inst.board.nextSeq) (hready : inst.resumesAppend)
      (hidle : inst.drains d = none) (hcapture : captures cfg inst (.resume id ts d))
      (hheld : inst'.held
        = Function.update (Function.update inst.held (some d) (inst.buffer ++ [k])) none []) :
      Effect cfg log inst (.resume id ts d) (log.accept k) inst'
  /-- A batch is inserted. -/
  | insert {inst' : Instance} (d : ℕ) (hphase : inst.drains d = some (.inserting (inst.batch d)))
      (hheld : inst'.held = inst.held) :
      Effect cfg log inst (.drain d .insert) (log.mapStore (·.insertBatch (inst.batch d))) inst'
  /-- A drain lets go of a batch that has been inserted. -/
  | release {a : Action} {inst' : Instance} (d : ℕ)
      (hphase : inst.drains d = some (.touching (inst.batch d)))
      (hheld : inst'.held = Function.update inst.held (some d) []) :
      Effect cfg log inst a log inst'
  /-- A drain puts its batch back in front of the buffer. -/
  | rebuffer {inst' : Instance} (d : ℕ)
      (hheld : inst'.held = Function.update
        (Function.update inst.held none (inst.batch d ++ inst.buffer)) (some d) []) :
      Effect cfg log inst (.drain d .fail) log inst'
  /-- Rows are deleted. -/
  | prune {inst' : Instance} (c cut : ℕ) (victims : List ℕ)
      (hphase : inst.compactions c = some (.deleting cut))
      (hdeletable : log.store.Deletable cut victims) (hheld : inst'.held = inst.held) :
      Effect cfg log inst (.compact c (.deleteRows victims)) (log.prune victims) inst'

/-- **Every step has one of the effects.** -/
theorem Step.effect {a : Action} (h : Step cfg log inst a log' inst') :
    Effect cfg log inst a log' inst' := by
  cases h with
  | append => exact .quiet (held_ensureInitialized _)
  | maybeCompact => exact .quiet (held_ensureInitialized _)
  | resumeAppend id ts d call userId seg ready hready hidle =>
    have hresumes : inst.resumesAppend := by simp [resumesAppend, hready]
    rw [push]
    split_ifs with hfull
    · refine .acceptCapture _ rfl hresumes hidle ?_ ?_
      · have hlen : ((inst.setReady ready).bufferStroke
            (inst.nextStroke userId seg id ts)).buffer.length = inst.buffer.length + 1 :=
          List.length_append
        rw [hlen] at hfull
        simp [captures, hresumes, hfull]
      · rw [held_flush, held_bufferStroke, Function.update_comm (by simp), Function.update_idem,
          Function.update_comm (by simp)]
        rfl
    · exact .accept _ rfl hresumes ((held_setBoard rfl).trans (held_bufferStroke _))
  | resumeCompact => exact .quiet rfl
  | flush d hidle => exact .capture d hidle rfl (held_flush d)
  | timerFires d _ hidle =>
    have hcancel : (inst.setBoard inst.board.cancelTimer).held = inst.held := held_setBoard rfl
    refine .capture d hidle rfl ?_
    rw [held_flush, hcancel]
    rfl
  | retryFires d _ hidle => exact .capture d hidle rfl (held_drainOnce_setBoard rfl d)
  | restoreEnsure => exact .ensure (held_setBoard rfl)
  | restoreSnapshot | restoreTail | restoreFinish | restoreFail => exact .quiet (held_setBoard rfl)
  | insert d batch hphase =>
    have hb : inst.batch d = batch := batch_eq hphase
    rw [← hb] at hphase ⊢
    exact .insert d hphase (held_setDrain_of_batch_eq rfl)
  | insertResolves d batch hphase =>
    exact .quiet (held_setDrain_of_batch_eq (batch_eq hphase).symm)
  | touchResolves d batch hphase =>
    have hb : inst.batch d = batch := batch_eq hphase
    rw [← hb] at hphase
    exact .release d hphase (held_setDrain d _)
  | drainFails d => exact .rebuffer d (held_rebuffer d)
  | drainResolves d hphase =>
    refine .quiet ((held_setDrain_of_batch_eq ?_).trans (held_setBoard rfl))
    exact (batch_eq hphase).symm
  | drainRejects d hphase =>
    refine .quiet ((held_setDrain_of_batch_eq ?_).trans (held_setBoard ?_))
    · exact (batch_eq hphase).symm
    · exact BoardState.buffer_handleFlushFailure _ _
  | setSnapshot c cut hphase => exact .setSnapshot c cut hphase rfl
  | deleteRows c cut hphase victims hdel => exact .prune c cut victims hphase hdel rfl
  | loadForJoin | loadSnapshot | loadRows | loadResolves | loadFails => exact .quiet rfl
  | count | proceedWithin | compactSnapshot | compactTail | countFails => exact .quiet rfl
  | proceedOver | compactFinish | compactFails => exact .quiet (held_setBoard rfl)

/-- Without a compaction the baseline stays where it is, and no row is deleted. -/
theorem Effect.fixed {a : Action} (h : Effect cfg log inst a log' inst')
    (ha : a.compacts = false) :
    log'.store.getSnapshotSeq = log.store.getSnapshotSeq ∧ log'.pruned = log.pruned := by
  cases h with
  | setSnapshot | prune => cases ha
  | _ => exact ⟨rfl, rfl⟩

end Instance

end Synapse
