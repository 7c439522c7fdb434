import Mathlib.Data.Rat.Defs

/-!
# Domain types

The shapes that cross the socket and the database (`server/src/types/domain.ts`, mirrored by the
client's `transport/protocol.ts`).

Coordinates and widths are exact rationals: the schema admits finite numbers only, and nothing in
the stroke log computes with them. Sequence numbers and epoch milliseconds are natural numbers.
-/

namespace Synapse

/-- A single drawn segment in world-space coordinates, the validated wire shape of a stroke. -/
structure StrokeSegment where
  x0 : ℚ
  y0 : ℚ
  x1 : ℚ
  y1 : ℚ
  /-- CSS color. -/
  color : String
  /-- World-space width. -/
  width : ℚ
  deriving DecidableEq, Repr, Inhabited

/-- A stroke as the server persists and broadcasts it. -/
structure PersistedStroke extends StrokeSegment where
  /-- Server-generated stroke identifier. -/
  id : String
  /-- Per-board ordering key, the Sequence_Number. -/
  seq : ℕ
  /-- Author identity. -/
  userId : String
  /-- Server receive time, epoch milliseconds. -/
  ts : ℕ
  deriving DecidableEq, Repr, Inhabited

/-- Baseline of a board produced by compaction: strokes with `seq ≤ snapshotSeq` are represented
by it. -/
structure BoardSnapshot where
  boardId : String
  snapshotSeq : ℕ
  /-- Optional rasterized baseline image. -/
  imageUrl : Option String := none
  /-- Creation time, epoch milliseconds. -/
  createdAt : ℕ
  deriving DecidableEq, Repr, Inhabited

/-- A connected user and their live cursor within a room. -/
structure User where
  socketId : String
  /-- Stable per-join identity, distinct from `socketId`. -/
  userId : String
  username : String
  cursorColor : String
  /-- World-space position. -/
  cursor : Option (ℚ × ℚ) := none
  deriving DecidableEq, Repr, Inhabited

/-- The payload of `room-history`: an optional baseline and the ordered tail after it. -/
structure RoomHistory where
  snapshot : Option BoardSnapshot := none
  strokes : List PersistedStroke
  deriving DecidableEq, Repr, Inhabited

/-- Whether a resync is answered with the baseline instead of a delta. -/
def reloadFromBaseline (sinceSeq : Option ℕ) (baseline : RoomHistory) : Bool :=
  let snapshotSeq := (baseline.snapshot.map BoardSnapshot.snapshotSeq).getD 0
  let serverHighestSeq := (baseline.strokes.getLast?.map PersistedStroke.seq).getD snapshotSeq
  match sinceSeq with
  | none => true
  | some n => decide (n < snapshotSeq) || decide (serverHighestSeq < n)

end Synapse
