import Mathlib.Algebra.Order.Ring.Rat
import Synapse.Store.Repository

/-!
# The stroke service, between two awaits

`strokeService.ts` is single-threaded: what runs between two `await`s runs alone. This file is the
state the service keeps for one board and the code that runs without yielding. How these pieces are
interleaved with the database is `Synapse.Stroke.Step`.

## Promises as phases

A call that awaits is remembered by the point it has reached: a `DrainPhase`, a `LoadPhase` or a
`CompactionPhase`, under a number that stands for the promise it returned. The memoised restore of
`ensureInitialized` is the promise kept in `initPromise`, so its phase is kept there, and the calls
awaiting it wait in `waiting` until it settles and in `ready` once it has.
-/

namespace Synapse

open Keyed

/-! ## Configuration -/

def defaultStrokeCap : ℕ := 50000

def defaultMaxFlushRetries : ℕ := 5

def defaultRetryBaseDelayMs : ℚ := 1000

def defaultRetryMaxDelayMs : ℚ := 30000

/-- What the constructor is given. -/
structure StrokeServiceDeps where
  flushIntervalMs : ℚ
  flushBatchSize : ℕ
  strokeCap : Option ℤ := none
  maxFlushRetries : Option ℚ := none
  retryBaseDelayMs : Option ℚ := none
  retryMaxDelayMs : Option ℚ := none

/-- What the constructor keeps. -/
structure Config where
  /-- Maximum delay before buffered strokes are flushed. -/
  flushIntervalMs : ℚ
  /-- Buffer length that triggers an immediate flush. -/
  flushBatchSize : ℕ
  /-- Maximum number of rows retained before a compaction. -/
  strokeCap : ℕ
  /-- Retries of a failed flush before the board is degraded. -/
  maxFlushRetries : ℕ
  /-- First delay of the backoff. -/
  retryBaseDelayMs : ℚ
  /-- Ceiling of the backoff. -/
  retryMaxDelayMs : ℚ
  strokeCap_pos : 0 < strokeCap
  retryBaseDelayMs_pos : 0 < retryBaseDelayMs
  base_le_max : retryBaseDelayMs ≤ retryMaxDelayMs

/-- An override that must be positive, or the default. -/
def positiveOr (override : Option ℚ) (default : ℚ) : ℚ :=
  match override with
  | some x => if 0 < x then x else default
  | none => default

theorem positiveOr_pos {override : Option ℚ} {default : ℚ} (h : 0 < default) :
    0 < positiveOr override default := by
  unfold positiveOr
  split
  · split_ifs with hx
    · exact hx
    · exact h
  · exact h

namespace StrokeServiceDeps

def resolvedStrokeCap (deps : StrokeServiceDeps) : ℕ :=
  match deps.strokeCap with
  | some cap => if 0 < cap then cap.toNat else defaultStrokeCap
  | none => defaultStrokeCap

def resolvedMaxFlushRetries (deps : StrokeServiceDeps) : ℕ :=
  match deps.maxFlushRetries with
  | some n => if 0 ≤ n then n.floor.toNat else defaultMaxFlushRetries
  | none => defaultMaxFlushRetries

theorem resolvedStrokeCap_pos (deps : StrokeServiceDeps) : 0 < deps.resolvedStrokeCap := by
  unfold resolvedStrokeCap
  split
  · split_ifs with hcap
    · omega
    · decide
  · decide

/-- The constructor. -/
def config (deps : StrokeServiceDeps) : Config where
  flushIntervalMs := deps.flushIntervalMs
  flushBatchSize := deps.flushBatchSize
  strokeCap := deps.resolvedStrokeCap
  maxFlushRetries := deps.resolvedMaxFlushRetries
  retryBaseDelayMs := positiveOr deps.retryBaseDelayMs defaultRetryBaseDelayMs
  -- the ceiling can never be below the floor, regardless of overrides
  retryMaxDelayMs := max (positiveOr deps.retryBaseDelayMs defaultRetryBaseDelayMs)
    (positiveOr deps.retryMaxDelayMs defaultRetryMaxDelayMs)
  strokeCap_pos := deps.resolvedStrokeCap_pos
  retryBaseDelayMs_pos := positiveOr_pos (by decide +kernel)
  base_le_max := le_max_left _ _

end StrokeServiceDeps

/-! ## What is kept for a board -/

/-- The memoised `initBoard`, by the call it awaits. -/
inductive InitPromise
  | ensuring
  | readingSnapshot
  | readingTail (snapshotSeq : ℕ)
  /-- The tail has been read, and its result is on its way. -/
  | tailRead (highest : ℕ)
  | fulfilled
  deriving DecidableEq

/-- The state of a board in memory. -/
structure BoardState where
  /-- Next Sequence_Number to hand out. -/
  nextSeq : ℕ := 0
  /-- Strokes accepted but not yet durably persisted. -/
  buffer : List PersistedStroke := []
  /-- Delay of the pending time-triggered flush. -/
  timer : Option ℚ := none
  /-- Delay of the pending backoff retry. -/
  retryTimer : Option ℚ := none
  /-- The restore, once one was started and unless it failed. -/
  initPromise : Option InitPromise := none
  /-- Whether a compaction is past its guard. -/
  compacting : Bool := false
  /-- Consecutive failed flush attempts. -/
  flushAttempts : ℕ := 0
  /-- Whether the retry budget is exhausted. -/
  persistenceDegraded : Bool := false

/-- A call that awaits `ensureInitialized`. -/
inductive Caller
  | append (call : ℕ) (userId : String) (seg : StrokeSegment)
  | maybeCompact (c : ℕ)
  deriving DecidableEq

/-- How far a drain has come, with the batch it captured. -/
inductive DrainPhase
  /-- `insertBatch` was called and has not taken effect. -/
  | inserting (batch : List PersistedStroke)
  /-- `insertBatch` has taken effect and has not resolved. -/
  | inserted (batch : List PersistedStroke)
  /-- `touch` was called. -/
  | touching (batch : List PersistedStroke)
  /-- `drainOnce` has resolved. -/
  | succeeded
  /-- `drainOnce` has put its batch back and rejected. -/
  | failed
  /-- The flush or the retry has ended after `markPersisted`. -/
  | resolved
  /-- The flush or the retry has ended after `handleFlushFailure`. -/
  | rejected
  deriving DecidableEq

/-- The strokes a drain is in charge of. -/
def DrainPhase.batch : DrainPhase → List PersistedStroke
  | inserting batch | inserted batch | touching batch => batch
  | succeeded | failed | resolved | rejected => []

/-- How far a `loadForJoin` has come. -/
inductive LoadPhase
  | readingSnapshot
  | readingRows (snapshotSeq : ℕ)
  /-- The rows have been read; the merge runs when they arrive. -/
  | rowsRead (snapshotSeq : ℕ) (persisted : List PersistedStroke)
  | resolved (snapshotSeq : ℕ) (history : RoomHistory)
  | rejected
  deriving DecidableEq

/-- A `loadForJoin` call. -/
structure Load where
  sinceSeq : Option ℕ
  /-- History: what had been accepted when the call began. -/
  before : List PersistedStroke
  phase : LoadPhase
  deriving DecidableEq

/-- How far a `maybeCompact` has come. -/
inductive CompactionPhase
  /-- Awaiting `ensureInitialized`. -/
  | initializing
  | counting
  | counted (total : ℕ)
  | readingSnapshot
  | readingTail (snapshotSeq : ℕ)
  | settingSnapshot (cutSeq : ℕ)
  | deleting (cutSeq : ℕ)
  /-- The last DELETE has run; the `finally` block has not. -/
  | deleted
  | resolved
  | rejected
  deriving DecidableEq

/-- What one `StrokeService` keeps for the board, and the calls under way. -/
structure Instance where
  /-- The entry of `boards`. -/
  state : Option BoardState := none
  /-- Calls awaiting a restore that has not settled. -/
  waiting : List Caller := []
  /-- Calls whose restore is done, in the order in which they will resume. -/
  ready : List Caller := []
  drains : ℕ → Option DrainPhase := fun _ ↦ none
  loads : ℕ → Option Load := fun _ ↦ none
  compactions : ℕ → Option CompactionPhase := fun _ ↦ none

/-! ## Timers and the retry policy -/

namespace BoardState

variable (state : BoardState)

def cancelTimer : BoardState := { state with timer := none }

def cancelRetryTimer : BoardState := { state with retryTimer := none }

/-- Arms the interval timer unless it is armed. -/
def ensureTimer (cfg : Config) : BoardState :=
  { state with timer := state.timer.or (some cfg.flushIntervalMs) }

/-- Replaces any pending retry. -/
def scheduleRetryFlush (delayMs : ℚ) : BoardState :=
  { state.cancelRetryTimer with retryTimer := some delayMs }

def markPersisted : BoardState :=
  { state with flushAttempts := 0, persistenceDegraded := false }

end BoardState

/-- The delay before retry number `attempt`. The guard of the source against an overflow of the
exponential returns the ceiling, which is what the clamp returns when there is none. -/
def computeBackoffDelay (cfg : Config) (attempt : ℕ) : ℚ :=
  min cfg.retryMaxDelayMs (max cfg.retryBaseDelayMs (cfg.retryBaseDelayMs * 2 ^ (attempt - 1)))

/-- Schedules the next retry, or degrades the board and keeps retrying at the ceiling. -/
def BoardState.handleFlushFailure (cfg : Config) (state : BoardState) : BoardState :=
  let state := { state with flushAttempts := state.flushAttempts + 1 }
  if state.flushAttempts ≤ cfg.maxFlushRetries then
    state.scheduleRetryFlush (computeBackoffDelay cfg state.flushAttempts)
  else
    { state with persistenceDegraded := true }.scheduleRetryFlush cfg.retryMaxDelayMs

@[simp] theorem BoardState.buffer_handleFlushFailure (cfg : Config) (state : BoardState) :
    (state.handleFlushFailure cfg).buffer = state.buffer := by
  unfold handleFlushFailure
  dsimp only
  split_ifs <;> rfl

@[simp] theorem BoardState.initPromise_handleFlushFailure (cfg : Config) (state : BoardState) :
    (state.handleFlushFailure cfg).initPromise = state.initPromise := by
  unfold handleFlushFailure
  dsimp only
  split_ifs <;> rfl

@[simp] theorem BoardState.nextSeq_handleFlushFailure (cfg : Config) (state : BoardState) :
    (state.handleFlushFailure cfg).nextSeq = state.nextSeq := by
  unfold handleFlushFailure
  dsimp only
  split_ifs <;> rfl

theorem base_le_computeBackoffDelay (cfg : Config) (attempt : ℕ) :
    cfg.retryBaseDelayMs ≤ computeBackoffDelay cfg attempt :=
  le_min cfg.base_le_max (le_max_left _ _)

theorem computeBackoffDelay_le_max (cfg : Config) (attempt : ℕ) :
    computeBackoffDelay cfg attempt ≤ cfg.retryMaxDelayMs :=
  min_le_left _ _

/-! ## The pieces of the asynchronous calls -/

namespace Instance

variable (inst : Instance)

/-- The board's state; that of a board not seen yet is fresh. -/
def board : BoardState := inst.state.getD {}

def setBoard (state : BoardState) : Instance := { inst with state := some state }

/-- The write buffer. -/
def buffer : List PersistedStroke := inst.board.buffer

/-- The strokes drain `d` is in charge of. -/
def batch (d : ℕ) : List PersistedStroke := ((inst.drains d).map DrainPhase.batch).getD []

def setDrain (d : ℕ) (phase : DrainPhase) : Instance :=
  { inst with drains := Function.update inst.drains d (some phase) }

def setLoad (l : ℕ) (load : Load) : Instance :=
  { inst with loads := Function.update inst.loads l (some load) }

def setCompaction (c : ℕ) (phase : CompactionPhase) : Instance :=
  { inst with compactions := Function.update inst.compactions c (some phase) }

def setWaiting (waiting : List Caller) : Instance := { inst with waiting }

def setReady (ready : List Caller) : Instance := { inst with ready }

def setInitPromise (promise : InitPromise) : Instance :=
  inst.setBoard { inst.board with initPromise := some promise }

/-- `ensureInitialized`, up to its `await`. -/
def ensureInitialized (caller : Caller) : Instance :=
  match inst.board.initPromise with
  | none => (inst.setInitPromise .ensuring).setWaiting (inst.waiting ++ [caller])
  | some .fulfilled => inst.setReady (inst.ready ++ [caller])
  | some _ => inst.setWaiting (inst.waiting ++ [caller])

/-- The restore succeeds: its result becomes the counter and the calls awaiting it may resume. -/
def finishRestore (highest : ℕ) : Instance :=
  { inst.setBoard { inst.board with nextSeq := highest + 1, initPromise := some .fulfilled } with
    ready := inst.ready ++ inst.waiting
    waiting := [] }

/-- The restore fails: the memoised promise is cleared and the calls awaiting it reject. -/
def failRestore : Instance :=
  { inst.setBoard { inst.board with initPromise := none } with
    waiting := []
    compactions := fun c ↦
      if .maybeCompact c ∈ inst.waiting then some .rejected else inst.compactions c }

/-- `drainOnce`, up to its first `await`: captures and clears the buffer, unless it is empty. -/
def drainOnce (d : ℕ) : Instance :=
  (inst.setBoard { inst.board with buffer := [] }).setDrain d
    (if inst.buffer = [] then .succeeded else .inserting inst.buffer)

/-- The `catch` of `drainOnce`: the batch goes back in front of the buffer. -/
def rebuffer (d : ℕ) : Instance :=
  (inst.setBoard { inst.board with buffer := inst.batch d ++ inst.buffer }).setDrain d .failed

/-- `flush`, up to its first `await`. -/
def flush (d : ℕ) : Instance :=
  match inst.state with
  | none => inst.setDrain d .resolved
  | some state => (inst.setBoard state.cancelTimer.cancelRetryTimer).drainOnce d

/-- The stroke `append` builds. -/
def nextStroke (userId : String) (seg : StrokeSegment) (id : String) (ts : ℕ) : PersistedStroke :=
  { seg with id, seq := inst.board.nextSeq, userId, ts }

/-- `append` advances the counter and buffers the stroke it has built. -/
def bufferStroke (stroke : PersistedStroke) : Instance :=
  inst.setBoard { inst.board with nextSeq := stroke.seq + 1, buffer := inst.buffer ++ [stroke] }

/-- What `append` does with the stroke it has built: buffer it, then flush or arm the timer. -/
def push (cfg : Config) (stroke : PersistedStroke) (d : ℕ) : Instance :=
  let inst := inst.bufferStroke stroke
  if cfg.flushBatchSize ≤ inst.buffer.length then inst.flush d
  else inst.setBoard (inst.board.ensureTimer cfg)

/-! ### What the pieces leave alone -/

variable {inst}

@[simp] theorem board_setBoard (state : BoardState) : (inst.setBoard state).board = state := rfl

@[simp] theorem board_setDrain (d : ℕ) (phase : DrainPhase) :
    (inst.setDrain d phase).board = inst.board := rfl

@[simp] theorem board_setCompaction (c : ℕ) (phase : CompactionPhase) :
    (inst.setCompaction c phase).board = inst.board := rfl

@[simp] theorem buffer_setBoard (state : BoardState) :
    (inst.setBoard state).buffer = state.buffer := rfl

theorem drains_setDrain (d e : ℕ) (phase : DrainPhase) :
    (inst.setDrain d phase).drains e = if e = d then some phase else inst.drains e :=
  Function.update_apply _ _ _ _

theorem loads_setLoad (l m : ℕ) (load : Load) :
    (inst.setLoad l load).loads m = if m = l then some load else inst.loads m :=
  Function.update_apply _ _ _ _

theorem compactions_setCompaction (c e : ℕ) (phase : CompactionPhase) :
    (inst.setCompaction c phase).compactions e = if e = c then some phase else inst.compactions e :=
  Function.update_apply _ _ _ _

theorem batch_eq {d : ℕ} {phase : DrainPhase} (h : inst.drains d = some phase) :
    inst.batch d = phase.batch := by
  simp [batch, h]

theorem batch_of_idle {d : ℕ} (h : inst.drains d = none) : inst.batch d = [] := by
  simp [batch, h]

theorem buffer_of_unseen (h : inst.state = none) : inst.buffer = [] := by
  simp [buffer, board, h]

/-- A flush is a drain behind cancelled timers, or nothing at all on a board not seen yet. -/
theorem flush_cases (inst : Instance) (d : ℕ) :
    (inst.state = none ∧ inst.flush d = inst.setDrain d .resolved) ∨
      inst.flush d = (inst.setBoard inst.board.cancelTimer.cancelRetryTimer).drainOnce d := by
  cases h : inst.state with
  | none => exact Or.inl ⟨rfl, by rw [flush, h]⟩
  | some state =>
    have hboard : inst.board = state := by rw [board, h, Option.getD_some]
    exact Or.inr (by rw [flush, h, hboard])

theorem board_flush (d : ℕ) : (inst.flush d).board
    = { inst.board with buffer := [], timer := none, retryTimer := none } := by
  rcases flush_cases inst d with ⟨hstate, hflush⟩ | hflush
  · rw [hflush, board_setDrain, board, hstate]
    rfl
  · rw [hflush]
    rfl

theorem frame_flush (d : ℕ) : (inst.flush d).waiting = inst.waiting ∧
    (inst.flush d).ready = inst.ready ∧ (inst.flush d).loads = inst.loads ∧
    (inst.flush d).compactions = inst.compactions := by
  unfold flush
  split <;> exact ⟨rfl, rfl, rfl, rfl⟩

@[simp] theorem waiting_flush (d : ℕ) : (inst.flush d).waiting = inst.waiting :=
  (frame_flush d).1

@[simp] theorem ready_flush (d : ℕ) : (inst.flush d).ready = inst.ready :=
  (frame_flush d).2.1

@[simp] theorem loads_flush (d : ℕ) : (inst.flush d).loads = inst.loads :=
  (frame_flush d).2.2.1

@[simp] theorem compactions_flush (d : ℕ) : (inst.flush d).compactions = inst.compactions :=
  (frame_flush d).2.2.2

/-- The phase a flush gives to its drain. -/
def flushPhase (inst : Instance) : DrainPhase :=
  match inst.state with
  | none => .resolved
  | some state => if state.buffer = [] then .succeeded else .inserting state.buffer

theorem drains_flush (d e : ℕ) :
    (inst.flush d).drains e = if e = d then some inst.flushPhase else inst.drains e := by
  unfold flush flushPhase
  split <;> exact drains_setDrain _ _ _

theorem frame_ensureInitialized (caller : Caller) :
    (inst.ensureInitialized caller).drains = inst.drains ∧
      (inst.ensureInitialized caller).loads = inst.loads ∧
      (inst.ensureInitialized caller).compactions = inst.compactions ∧
      (inst.ensureInitialized caller).board.nextSeq = inst.board.nextSeq ∧
      (inst.ensureInitialized caller).board.compacting = inst.board.compacting := by
  unfold ensureInitialized
  split <;> exact ⟨rfl, rfl, rfl, rfl, rfl⟩

@[simp] theorem drains_ensureInitialized (caller : Caller) :
    (inst.ensureInitialized caller).drains = inst.drains :=
  (frame_ensureInitialized caller).1

@[simp] theorem loads_ensureInitialized (caller : Caller) :
    (inst.ensureInitialized caller).loads = inst.loads :=
  (frame_ensureInitialized caller).2.1

@[simp] theorem compactions_ensureInitialized (caller : Caller) :
    (inst.ensureInitialized caller).compactions = inst.compactions :=
  (frame_ensureInitialized caller).2.2.1

@[simp] theorem nextSeq_ensureInitialized (caller : Caller) :
    (inst.ensureInitialized caller).board.nextSeq = inst.board.nextSeq :=
  (frame_ensureInitialized caller).2.2.2.1

/-! ### What a stroke changes when it is pushed -/

variable (cfg : Config) (stroke : PersistedStroke) (d : ℕ)

theorem frame_push : (inst.push cfg stroke d).waiting = inst.waiting ∧
    (inst.push cfg stroke d).ready = inst.ready ∧ (inst.push cfg stroke d).loads = inst.loads ∧
    (inst.push cfg stroke d).compactions = inst.compactions := by
  unfold push
  dsimp only
  split_ifs
  · exact frame_flush d
  · exact ⟨rfl, rfl, rfl, rfl⟩

@[simp] theorem waiting_push : (inst.push cfg stroke d).waiting = inst.waiting :=
  (frame_push cfg stroke d).1

@[simp] theorem ready_push : (inst.push cfg stroke d).ready = inst.ready :=
  (frame_push cfg stroke d).2.1

@[simp] theorem loads_push : (inst.push cfg stroke d).loads = inst.loads :=
  (frame_push cfg stroke d).2.2.1

@[simp] theorem compactions_push : (inst.push cfg stroke d).compactions = inst.compactions :=
  (frame_push cfg stroke d).2.2.2

theorem board_push : (inst.push cfg stroke d).board.nextSeq = stroke.seq + 1 ∧
    (inst.push cfg stroke d).board.initPromise = inst.board.initPromise ∧
    (inst.push cfg stroke d).board.compacting = inst.board.compacting := by
  unfold push
  dsimp only
  split_ifs
  · rw [board_flush]
    exact ⟨rfl, rfl, rfl⟩
  · exact ⟨rfl, rfl, rfl⟩

end Instance

/-- The lower bound of the tail `loadForJoin` reads. -/
def fromSeq (sinceSeq : Option ℕ) (snapshotSeq : ℕ) : ℕ :=
  match sinceSeq with
  | some n => max n snapshotSeq
  | none => snapshotSeq

/-- Whether a reply carries the baseline. -/
def includeSnapshot (sinceSeq : Option ℕ) (snapshotSeq : ℕ) : Bool :=
  decide (0 < snapshotSeq) && sinceSeq.all fun n ↦ decide (n < snapshotSeq)

/-- Merges the stored rows with the buffered strokes above `fromSeq` that are not among them. -/
def mergeBufferedStrokes (persisted buffer : List PersistedStroke) (fromSeq : ℕ) :
    List PersistedStroke :=
  let buffered := buffer.filter fun k ↦
    decide (fromSeq < k.seq ∧ k.seq ∉ persisted.map PersistedStroke.seq)
  if buffered = [] then persisted else sortByKey PersistedStroke.seq (persisted ++ buffered)

/-- The reply of `loadForJoin`, from the two reads and the buffer it finds. -/
def joinHistory (boardId : String) (sinceSeq : Option ℕ) (snapshotSeq : ℕ)
    (persisted buffer : List PersistedStroke) (now : ℕ) : RoomHistory where
  snapshot :=
    if includeSnapshot sinceSeq snapshotSeq then some { boardId, snapshotSeq, createdAt := now }
    else none
  strokes := mergeBufferedStrokes persisted buffer (fromSeq sinceSeq snapshotSeq)

/-- How many rows a compaction leaves above the baseline. -/
def keepTail (cfg : Config) : ℕ := max 1 (cfg.strokeCap / 2)

/-- The new baseline: what leaves `keepTail` rows of the tail, or the old one. -/
def cutSeq (cfg : Config) (snapshotSeq : ℕ) (tail : List PersistedStroke) : ℕ :=
  if keepTail cfg < tail.length then
    (tail[tail.length - keepTail cfg - 1]?.map PersistedStroke.seq).getD snapshotSeq
  else snapshotSeq

end Synapse
