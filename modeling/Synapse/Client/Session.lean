import Mathlib.Order.MinMax
import Synapse.Domain

/-!
# A client session

What a browser tab keeps of a board while it is open: the `SceneStore` behind the canvas and the
`ResyncController`, with the listeners of `useCollaboration` that connect them to the socket. A
session outlives its socket: after a reconnect the same scene and the same high-water mark are in
use.

The scene is a list of segments, and nothing is ever compared when one is added. A segment drawn
here and a stroke received are told apart by their shape, so the model keeps them apart as well; a
drawn one carries the number of the draw.
-/

namespace Synapse

/-! ## `strokeSync.ts` -/

/-- What to do with an incoming stroke. -/
inductive StrokeAction
  | apply
  | ignore
  | resync
  deriving DecidableEq

/-- Judges an incoming stroke by the highest number already applied. -/
def decideStrokeAction (lastAppliedSeq incomingSeq : ℕ) : StrokeAction :=
  if incomingSeq ≤ lastAppliedSeq then .ignore
  else if incomingSeq = lastAppliedSeq + 1 then .apply
  else .resync

/-- The highest number among `strokes`, never below `current`. -/
def highestSeq (strokes : List PersistedStroke) (current : ℕ) : ℕ :=
  strokes.foldl (fun highest k ↦ if highest < k.seq then k.seq else highest) current

theorem highestSeq_cons (k : PersistedStroke) (strokes : List PersistedStroke) (current : ℕ) :
    highestSeq (k :: strokes) current = highestSeq strokes (max current k.seq) := by
  rw [highestSeq, List.foldl_cons, highestSeq]
  congr 1
  split_ifs with h
  · exact (max_eq_right h.le).symm
  · exact (max_eq_left (not_lt.mp h)).symm

theorem highestSeq_lt_iff {strokes : List PersistedStroke} {current n : ℕ} :
    highestSeq strokes current < n ↔ current < n ∧ ∀ k ∈ strokes, k.seq < n := by
  induction strokes generalizing current with
  | nil => simp [highestSeq]
  | cons k strokes ih => rw [highestSeq_cons, ih, max_lt_iff, List.forall_mem_cons, and_assoc]

theorem le_highestSeq (strokes : List PersistedStroke) (current : ℕ) :
    current ≤ highestSeq strokes current := by
  by_contra h
  have hlt := highestSeq_lt_iff.mp (not_le.mp h)
  exact absurd hlt.1 (lt_irrefl _)

theorem seq_le_highestSeq {strokes : List PersistedStroke} {k : PersistedStroke} (hk : k ∈ strokes)
    (current : ℕ) : k.seq ≤ highestSeq strokes current := by
  by_contra h
  have hlt := highestSeq_lt_iff.mp (not_le.mp h)
  exact absurd (hlt.2 k hk) (lt_irrefl _)

/-! ## `ResyncController.ts` -/

/-- The high-water mark. -/
structure ResyncController where
  lastAppliedSeq : ℕ := 0

/-- What the controller asks of its owner. -/
inductive ResyncCallback
  | onApply (stroke : PersistedStroke)
  | onResync (sinceSeq : ℕ)

namespace ResyncController

variable (resync : ResyncController)

/-- The number to report on a join or a resync. -/
def sinceSeq : ℕ := resync.lastAppliedSeq

/-- Handles one live stroke. Every stroke has a number here, so the branch for the unsequenced
strokes of older servers does not arise. -/
def ingest (stroke : PersistedStroke) : ResyncController × Option ResyncCallback :=
  match decideStrokeAction resync.lastAppliedSeq stroke.seq with
  | .apply => (⟨stroke.seq⟩, some (.onApply stroke))
  | .ignore => (resync, none)
  | .resync => (resync, some (.onResync resync.lastAppliedSeq))

/-- Adopts a batch as the new baseline. -/
def adoptBatch (strokes : List PersistedStroke) : ResyncController :=
  ⟨highestSeq strokes resync.lastAppliedSeq⟩

theorem ingest_cases (stroke : PersistedStroke) :
    (stroke.seq ≤ resync.lastAppliedSeq ∧ resync.ingest stroke = (resync, none)) ∨
    (stroke.seq = resync.lastAppliedSeq + 1 ∧
      resync.ingest stroke = (⟨stroke.seq⟩, some (.onApply stroke))) ∨
    (resync.lastAppliedSeq + 1 < stroke.seq ∧
      resync.ingest stroke = (resync, some (.onResync resync.lastAppliedSeq))) := by
  unfold ingest decideStrokeAction
  split_ifs with hle hnext
  · exact Or.inl ⟨hle, rfl⟩
  · exact Or.inr (Or.inl ⟨hnext, rfl⟩)
  · exact Or.inr (Or.inr ⟨by omega, rfl⟩)

end ResyncController

/-! ## The scene and the listeners -/

/-- A segment of the scene. -/
inductive SceneSegment
  /-- The segment of the session's own draw number `draw`. -/
  | drawn (draw : ℕ) (segment : StrokeSegment)
  /-- A stroke that came over the socket. -/
  | received (stroke : PersistedStroke)
  deriving DecidableEq

/-- What is painted. -/
def SceneSegment.segment : SceneSegment → StrokeSegment
  | drawn _ segment => segment
  | received stroke => stroke.toStrokeSegment

/-- `SceneStore.ts`, by its array. -/
abbrev SceneStore := List SceneSegment

namespace SceneStore

variable (scene : SceneStore)

/-- Appends one segment. -/
def add (segment : SceneSegment) : SceneStore := scene ++ [segment]

/-- Appends many segments. -/
def addMany (segments : List SceneSegment) : SceneStore := segments.foldl add scene

theorem addMany_eq (segments : List SceneSegment) : scene.addMany segments = scene ++ segments := by
  induction segments generalizing scene with
  | nil => exact (List.append_nil _).symm
  | cons s segments ih =>
    rw [addMany, List.foldl_cons, ← addMany, ih, add, List.append_assoc, List.singleton_append]

end SceneStore

/-- What a tab keeps of the board it shows. -/
structure Session where
  scene : SceneStore := []
  resync : ResyncController := {}
  /-- The number of segments drawn so far. -/
  draws : ℕ := 0

namespace Session

variable (session : Session)

/-- A segment is drawn: `commitLocal`. -/
def commitLocal (segment : StrokeSegment) : Session :=
  { session with
    scene := session.scene.add (.drawn session.draws segment)
    draws := session.draws + 1 }

/-- `commitRemote`. -/
def commitRemote (stroke : PersistedStroke) : Session :=
  { session with scene := session.scene.add (.received stroke) }

/-- The listener of `room-history`: the batch is appended as it is, and the snapshot ignored. -/
def roomHistory (history : RoomHistory) : Session :=
  { session with
    scene := session.scene.addMany (history.strokes.map .received)
    resync := session.resync.adoptBatch history.strokes }

/-- The listener of `draw`, with the number to report if a resync is requested. -/
def draw (stroke : PersistedStroke) : Session × Option ℕ :=
  match session.resync.ingest stroke with
  | (resync, some (.onApply stroke)) => ({ session with resync }.commitRemote stroke, none)
  | (resync, some (.onResync sinceSeq)) => ({ session with resync }, some sinceSeq)
  | (resync, none) => ({ session with resync }, none)

/-! ### What the listeners add to the scene -/

variable {session} {history : RoomHistory} {k x : PersistedStroke} {n : ℕ} {seg : StrokeSegment}

theorem scene_roomHistory :
    (session.roomHistory history).scene = session.scene ++ history.strokes.map .received :=
  SceneStore.addMany_eq _ _

@[simp] theorem received_mem_roomHistory : .received k ∈ (session.roomHistory history).scene ↔
    .received k ∈ session.scene ∨ k ∈ history.strokes := by
  simp [scene_roomHistory]

@[simp] theorem drawn_mem_roomHistory : .drawn n seg ∈ (session.roomHistory history).scene ↔
    .drawn n seg ∈ session.scene := by
  simp [scene_roomHistory]

@[simp] theorem received_mem_commitRemote : .received k ∈ (session.commitRemote x).scene ↔
    .received k ∈ session.scene ∨ k = x := by
  simp [commitRemote, SceneStore.add]

@[simp] theorem drawn_mem_commitRemote : .drawn n seg ∈ (session.commitRemote x).scene ↔
    .drawn n seg ∈ session.scene := by
  simp [commitRemote, SceneStore.add]

@[simp] theorem received_mem_commitLocal : .received k ∈ (session.commitLocal seg).scene ↔
    .received k ∈ session.scene := by
  simp [commitLocal, SceneStore.add]

@[simp] theorem drawn_mem_commitLocal {seg' : StrokeSegment} :
    .drawn n seg ∈ (session.commitLocal seg').scene ↔
      .drawn n seg ∈ session.scene ∨ (n = session.draws ∧ seg = seg') := by
  simp [commitLocal, SceneStore.add]

end Session

end Synapse
