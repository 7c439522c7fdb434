import Synapse.Stroke.Service
import Synapse.Transition.Machine

/-!
# The stroke services of one board, interleaved

Any number of service instances, indexed by `ι`, share the rows of one board. An action is what one
instance does without yielding, or the moment at which one of its statements takes effect in the
database. A statement that was issued may take effect at any later moment, its result may arrive at
any moment after that, and it may fail before or after taking effect.

A statement and the arrival of its result are one action where nothing can tell them apart: the
result of `getSnapshotSeq`, say, is only used to issue the next statement.

## History variables

`accepted` collects the strokes returned by `append` and `pruned` the rows deleted by compactions.
No action reads them.
-/

namespace Synapse

open Transition

/-- The database part of a board, and its history. -/
structure BoardLog where
  store : BoardStore
  /-- History: the rows found at the start and every stroke accepted since. -/
  accepted : List PersistedStroke
  /-- History: the rows deleted so far. -/
  pruned : List PersistedStroke

namespace BoardLog

variable (log : BoardLog)

def mapStore (f : BoardStore → BoardStore) : BoardLog := { log with store := f log.store }

def accept (stroke : PersistedStroke) : BoardLog :=
  { log with accepted := log.accepted ++ [stroke] }

/-- One DELETE statement. -/
def prune (victims : List ℕ) : BoardLog :=
  { log with
    store := log.store.deleteRows victims
    pruned := log.pruned ++ log.store.deletedRows victims }

end BoardLog

/-! ## Actions -/

/-- The steps of `initBoard`. -/
inductive RestoreAction
  | ensure
  | readSnapshotSeq
  | readTail
  | finish
  | fail
  deriving DecidableEq

/-- The steps of a drain and of the flush or retry around it. -/
inductive DrainAction
  /-- `insertBatch` takes effect. -/
  | insert
  /-- `insertBatch` resolves and `touch` is called. -/
  | insertResolves
  /-- `touch` resolves. -/
  | touchResolves
  /-- `insertBatch` or `touch` rejects, and the batch goes back into the buffer. -/
  | fail
  /-- The flush or the retry ends with `markPersisted`. -/
  | resolve
  /-- The flush or the retry ends with `handleFlushFailure`. -/
  | reject
  deriving DecidableEq

/-- The steps of `loadForJoin`. -/
inductive LoadAction
  | readSnapshotSeq
  | readRows
  | resolve (now : ℕ)
  | fail
  deriving DecidableEq

/-- The steps of `maybeCompact` once the board is initialised. -/
inductive CompactAction
  | count
  | proceed
  | readSnapshotSeq
  | readTail
  | setSnapshot
  /-- One DELETE of `deleteThrough` removes the rows with these Sequence_Numbers. -/
  | deleteRows (victims : List ℕ)
  | finish
  | fail
  deriving DecidableEq

/-- What an instance can do, or what can happen to one of its calls. A number given to a new call
must not be in use. -/
inductive Action
  | append (call : ℕ) (userId : String) (seg : StrokeSegment)
  | maybeCompact (c : ℕ)
  /-- The first call of `ready` resumes; `d` is the drain it starts if it flushes. -/
  | resume (id : String) (ts : ℕ) (d : ℕ)
  | flush (d : ℕ)
  | timerFires (d : ℕ)
  | retryFires (d : ℕ)
  | loadForJoin (l : ℕ) (sinceSeq : Option ℕ)
  | restore (a : RestoreAction)
  | drain (d : ℕ) (a : DrainAction)
  | load (l : ℕ) (a : LoadAction)
  | compact (c : ℕ) (a : CompactAction)
  deriving DecidableEq

/-- Whether the action is a call of `append`. -/
def Action.isAppend : Action → Bool
  | .append _ _ _ => true
  | _ => false

/-- Whether the action is a step of a compaction past its restore. -/
def Action.compacts : Action → Bool
  | .compact _ _ => true
  | _ => false

/-- Whether the action deletes rows. -/
def Action.prunes : Action → Bool
  | .compact _ (.deleteRows _) => true
  | _ => false

/-! ## Steps -/

namespace Instance

variable (cfg : Config) (log : BoardLog) (inst : Instance)

/-- The highest Sequence_Number `initBoard` finds. -/
def highestOf (snapshotSeq : ℕ) (tail : List PersistedStroke) : ℕ :=
  (tail.getLast?.map PersistedStroke.seq).getD snapshotSeq

def restoreStep (a : RestoreAction) : Option (BoardLog × Instance) :=
  match inst.board.initPromise, a with
  | some .ensuring, .ensure =>
    some (log.mapStore BoardStore.ensure, inst.setInitPromise .readingSnapshot)
  | some .readingSnapshot, .readSnapshotSeq =>
    some (log, inst.setInitPromise (.readingTail log.store.getSnapshotSeq))
  | some (.readingTail snapshotSeq), .readTail =>
    some (log, inst.setInitPromise
      (.tailRead (highestOf snapshotSeq (log.store.loadSince snapshotSeq))))
  | some (.tailRead highest), .finish => some (log, inst.finishRestore highest)
  | some .fulfilled, _ => none
  | some _, .fail => some (log, inst.failRestore)
  | _, _ => none

def drainStep (d : ℕ) (a : DrainAction) : Option (BoardLog × Instance) :=
  match inst.drains d, a with
  | some (.inserting batch), .insert =>
    some (log.mapStore (·.insertBatch batch), inst.setDrain d (.inserted batch))
  | some (.inserted batch), .insertResolves => some (log, inst.setDrain d (.touching batch))
  | some (.touching _), .touchResolves => some (log, inst.setDrain d .succeeded)
  | some (.inserting _), .fail => some (log, inst.rebuffer d)
  | some (.inserted _), .fail => some (log, inst.rebuffer d)
  | some (.touching _), .fail => some (log, inst.rebuffer d)
  | some .succeeded, .resolve =>
    some (log, (inst.setBoard inst.board.markPersisted).setDrain d .resolved)
  | some .failed, .reject =>
    some (log, (inst.setBoard (inst.board.handleFlushFailure cfg)).setDrain d .rejected)
  | _, _ => none

def loadStep (l : ℕ) (a : LoadAction) : Option (BoardLog × Instance) :=
  match inst.loads l with
  | none => none
  | some load =>
    match load.phase, a with
    | .readingSnapshot, .readSnapshotSeq =>
      some (log, inst.setLoad l { load with phase := .readingRows log.store.getSnapshotSeq })
    | .readingRows snapshotSeq, .readRows =>
      some (log, inst.setLoad l { load with
        phase := .rowsRead snapshotSeq
          (log.store.loadSince (fromSeq load.sinceSeq snapshotSeq)) })
    | .rowsRead snapshotSeq persisted, .resolve now =>
      some (log, inst.setLoad l { load with
        phase := .resolved snapshotSeq
          (joinHistory log.store.boardId load.sinceSeq snapshotSeq persisted inst.buffer now) })
    | .readingSnapshot, .fail | .readingRows _, .fail | .rowsRead _ _, .fail =>
      some (log, inst.setLoad l { load with phase := .rejected })
    | _, _ => none

/-- Leaves the critical section of `maybeCompact`. -/
def leaveCompaction (c : ℕ) : Instance :=
  (inst.setBoard { inst.board with compacting := false }).setCompaction c .resolved

def compactStep (c : ℕ) (a : CompactAction) : Option (BoardLog × Instance) :=
  match inst.compactions c, a with
  | some .counting, .count => some (log, inst.setCompaction c (.counted log.store.count))
  | some (.counted total), .proceed =>
    if total ≤ cfg.strokeCap then some (log, inst.setCompaction c .resolved)
    else
      some (log, (inst.setBoard { inst.board with compacting := true }).setCompaction c
        .readingSnapshot)
  | some .readingSnapshot, .readSnapshotSeq =>
    some (log, inst.setCompaction c (.readingTail log.store.getSnapshotSeq))
  | some (.readingTail snapshotSeq), .readTail =>
    let cut := cutSeq cfg snapshotSeq (log.store.loadSince snapshotSeq)
    some (log, inst.setCompaction c
      (if snapshotSeq < cut then .settingSnapshot cut else .deleting cut))
  | some (.settingSnapshot cut), .setSnapshot =>
    some (log.mapStore (·.setSnapshot cut), inst.setCompaction c (.deleting cut))
  | some (.deleting cut), .deleteRows victims =>
    if log.store.Deletable cut victims then
      some (log.prune victims, inst.setCompaction c
        (if victims.length < deleteBatchSize then .deleted else .deleting cut))
    else none
  | some .deleted, .finish => some (log, inst.leaveCompaction c)
  -- the count is outside the `try`, so its failure leaves `compacting` alone and rejects
  | some .counting, .fail => some (log, inst.setCompaction c .rejected)
  | some .readingSnapshot, .fail => some (log, inst.leaveCompaction c)
  | some (.readingTail _), .fail => some (log, inst.leaveCompaction c)
  | some (.settingSnapshot _), .fail => some (log, inst.leaveCompaction c)
  | some (.deleting _), .fail => some (log, inst.leaveCompaction c)
  | some .deleted, .fail => some (log, inst.leaveCompaction c)
  | _, _ => none

/-- The first call of `ready` resumes after its `await`. -/
def resume (id : String) (ts : ℕ) (d : ℕ) : Option (BoardLog × Instance) :=
  match inst.ready with
  | [] => none
  | .append _ userId seg :: ready =>
    if inst.drains d = none then
      let stroke := inst.nextStroke userId seg id ts
      some (log.accept stroke, (inst.setReady ready).push cfg stroke d)
    else none
  | .maybeCompact c :: ready =>
    some (log, (inst.setReady ready).setCompaction c
      (if inst.board.compacting then .resolved else .counting))

def step : Action → Option (BoardLog × Instance)
  | .append call userId seg => some (log, inst.ensureInitialized (.append call userId seg))
  | .maybeCompact c =>
    if inst.compactions c = none then
      some (log, (inst.setCompaction c .initializing).ensureInitialized (.maybeCompact c))
    else none
  | .resume id ts d => inst.resume cfg log id ts d
  | .flush d => if inst.drains d = none then some (log, inst.flush d) else none
  | .timerFires d =>
    if inst.board.timer.isSome ∧ inst.drains d = none then
      some (log, (inst.setBoard inst.board.cancelTimer).flush d)
    else none
  | .retryFires d =>
    if inst.board.retryTimer.isSome ∧ inst.drains d = none then
      some (log, (inst.setBoard inst.board.cancelRetryTimer).drainOnce d)
    else none
  | .loadForJoin l sinceSeq =>
    if inst.loads l = none then
      some (log, inst.setLoad l ⟨sinceSeq, log.accepted, .readingSnapshot⟩)
    else none
  | .restore a => inst.restoreStep log a
  | .drain d a => inst.drainStep cfg log d a
  | .load l a => inst.loadStep log l a
  | .compact c a => inst.compactStep cfg log c a

end Instance

/-- The shared rows of a board and the instances serving it. -/
structure World (ι : Type*) where
  log : BoardLog
  insts : ι → Instance

namespace World

variable {ι : Type*}

/-- A world at start-up: any rows, and no call made yet. -/
def init (w : World ι) : Prop :=
  w.log.accepted = w.log.store.strokes.rows ∧ w.log.pruned = [] ∧ ∀ i, w.insts i = {}

/-- The world over `store` at start-up. -/
def start (ι : Type*) (store : BoardStore) : World ι :=
  ⟨⟨store, store.strokes.rows, []⟩, fun _ ↦ {}⟩

theorem init_start (store : BoardStore) : (start ι store).init := ⟨rfl, rfl, fun _ ↦ rfl⟩

variable [DecidableEq ι]

/-- Replaces the log and one instance. -/
def put (w : World ι) (i : ι) (r : BoardLog × Instance) : World ι :=
  ⟨r.1, Function.update w.insts i r.2⟩

def step (cfg : ι → Config) (w : World ι) (a : ι × Action) : Option (World ι) :=
  ((w.insts a.1).step (cfg a.1) w.log a.2).map (w.put a.1)

/-- The transition system of a board. -/
def machine (cfg : ι → Config) : Machine (World ι) (ι × Action) := ⟨init, step cfg⟩

theorem step_eq_some {cfg : ι → Config} {w w' : World ι} {i : ι} {a : Action} :
    w.step cfg (i, a) = some w' ↔ ∃ log inst,
      (w.insts i).step (cfg i) w.log a = some (log, inst) ∧ w' = w.put i (log, inst) := by
  rw [step, Option.map_eq_some_iff]
  constructor
  · rintro ⟨⟨log, inst⟩, h, rfl⟩
    exact ⟨log, inst, h, rfl⟩
  · rintro ⟨log, inst, h, rfl⟩
    exact ⟨(log, inst), h, rfl⟩

@[simp] theorem put_log (w : World ι) (i : ι) (r : BoardLog × Instance) : (w.put i r).log = r.1 :=
  rfl

@[simp] theorem put_insts_self (w : World ι) (i : ι) (r : BoardLog × Instance) :
    (w.put i r).insts i = r.2 :=
  Function.update_self _ _ _

theorem put_insts_of_ne (w : World ι) {i j : ι} (h : j ≠ i) (r : BoardLog × Instance) :
    (w.put i r).insts j = w.insts j :=
  Function.update_of_ne h _ _

end World

/-! ## A board to run -/

/-- A lone instance takes the actions in turn. -/
def overLone (as : List Action) : List (Unit × Action) := as.map ((), ·)

def sampleSegment : StrokeSegment := ⟨0, 0, 1, 1, "#1f2937", 4⟩

def sampleConfig (flushBatchSize strokeCap : ℕ) : Config :=
  StrokeServiceDeps.config { flushIntervalMs := 2000, flushBatchSize, strokeCap := some strokeCap }

/-- A board nobody has opened. -/
def sampleStore : BoardStore := { boardId := "board-1" }

/-- The stroke numbered `n`. -/
def sampleStroke (n : ℕ) : PersistedStroke := ⟨sampleSegment, "stroke", n, "ada", 0⟩

/-- A board with the rows `1, …, n`. -/
def sampleStoreOf (n : ℕ) : BoardStore where
  boardId := "board-1"
  boardRow := some 0
  strokes := (Keyed.Table.empty _).insertAll ((List.range n).map fun i ↦ sampleStroke (i + 1))

/-- The first `append` starts the restore, and the restore succeeds. -/
def sampleRestore : List Action :=
  [.append 0 "ada" sampleSegment, .restore .ensure, .restore .readSnapshotSeq, .restore .readTail,
    .restore .finish]

end Synapse
