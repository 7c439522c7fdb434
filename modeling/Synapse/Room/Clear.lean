import Synapse.Room.Supply

/-!
# Clearing the board

`handleClear` of `BoardRoute.tsx` empties the scene at once and tells the server. The handler of
`clear.ts` relays the clear to the others in the room, and their listener empties their scenes. A
clear has no number. It leaves the high-water mark where it is, and the service does not hear of it,
so a stroke that a reply brings back is added again.

## Over the room

No step of a room reads a scene, so a room goes on under its clears as it would without them. A
`Whiteboard` is a room with the clears on its channels, each kept by the number of messages ahead of
it, and with the length of what each session has wiped. `clear.ts` checks the payload and the room
as `draw.ts` does; only the second check can fail here.

## History variables

A clear falls between two strokes when the server relays it. `upTo` is the number of the first of
the two, `base` the highest such number among the clears that a scene has seen, and `last` that of
the latest clear. No action reads them.
-/

namespace Synapse

open Transition

/-- `SceneStore.clear`: empties the array. -/
def SceneStore.clear : SceneStore := []

/-- A clear on its way to a client. -/
structure RelayedClear where
  /-- The messages ahead of it. -/
  ahead : ℕ
  /-- History: the highest number accepted when the server relayed it. -/
  upTo : ℕ
  deriving DecidableEq

/-- One message ahead of the clear has been handled. -/
def RelayedClear.advance (c : RelayedClear) : RelayedClear := { c with ahead := c.ahead - 1 }

/-- The clears as one client meets them. -/
structure Screen where
  /-- How many of the segments ever added to the scene are no longer in it. -/
  wiped : ℕ := 0
  /-- The clears on their way to the server, by the messages ahead of each. -/
  clearsUp : List ℕ := []
  clearsDown : List RelayedClear := []
  /-- History: the highest number below the clears that the scene has seen. -/
  base : ℕ := 0

namespace Screen

variable (screen : Screen)

/-- `clearBoard`, when `added` segments have been added so far. -/
def clearBoard (added : ℕ) : Screen := { screen with wiped := added }

/-- A clear is emitted behind `ahead` messages. -/
def emit (ahead : ℕ) : Screen := { screen with clearsUp := screen.clearsUp ++ [ahead] }

/-- A clear is sent. -/
def send (c : RelayedClear) : Screen := { screen with clearsDown := screen.clearsDown ++ [c] }

def setClearsUp (clearsUp : List ℕ) : Screen := { screen with clearsUp }

def setClearsDown (clearsDown : List RelayedClear) : Screen := { screen with clearsDown }

def setBase (base : ℕ) : Screen := { screen with base }

/-- The array of the `SceneStore`, when `added` is all that was ever added to it. -/
def scene (added : SceneStore) : SceneStore := added.drop screen.wiped

/-- Whatever clears have taken from the scene. -/
def gone (added : SceneStore) : SceneStore := added.take screen.wiped

/-- A step of the room, as the clears of client `i` meet it. -/
def follow {κ : Type*} [DecidableEq κ] (i : κ) : RoomAction κ → Screen
  | .receive j _ =>
    if j = i then screen.setClearsUp (screen.clearsUp.map (· - 1)) else screen
  | .deliver j =>
    if j = i then screen.setClearsDown (screen.clearsDown.map RelayedClear.advance) else screen
  -- what is on its way is lost with the connection
  | .disconnect j => if j = i then (screen.setClearsUp []).setClearsDown [] else screen
  | _ => screen

variable {screen}

theorem wiped_follow {κ : Type*} [DecidableEq κ] (i : κ) (a : RoomAction κ) :
    (screen.follow i a).wiped = screen.wiped := by
  unfold follow
  split <;> try split_ifs
  all_goals rfl

theorem base_follow {κ : Type*} [DecidableEq κ] (i : κ) (a : RoomAction κ) :
    (screen.follow i a).base = screen.base := by
  unfold follow
  split <;> try split_ifs
  all_goals rfl

end Screen

/-- A room and its clears. -/
structure Whiteboard (κ : Type*) where
  room : Room κ
  screens : κ → Screen := fun _ ↦ {}
  /-- History: the number below the latest clear. -/
  last : ℕ := 0

/-- What happens on a whiteboard. -/
inductive WhiteboardAction (κ : Type*)
  | room (a : RoomAction κ)
  /-- The user of client `i` clears the board. -/
  | clear (i : κ)
  /-- The server handles the client's next message, which is a clear. -/
  | relay (i : κ)
  /-- The client handles the server's next message, which is a clear. -/
  | wipe (i : κ)

/-- The strokes that the next message to client `i` adds to its scene. -/
def Room.adds {κ : Type*} (r : Room κ) (i : κ) : List PersistedStroke :=
  match (r.sockets i).down with
  | [] => []
  | .draw k :: _ =>
    if decideStrokeAction (r.sessions i).resync.lastAppliedSeq k.seq = .apply then [k] else []
  | .roomHistory history :: _ => history.strokes

namespace Whiteboard

variable {κ : Type*} (w : Whiteboard κ)

/-- The array of the client's `SceneStore`. -/
def scene (i : κ) : SceneStore := (w.screens i).scene (w.room.sessions i).scene

/-- The strokes on the client's screen. -/
def shown (i : κ) : Set PersistedStroke := {k | ∃ s ∈ w.scene i, w.room.Depicts i s k}

/-- The number of the latest stroke. -/
def top : ℕ := highestSeq w.room.board.log.accepted 0

variable [DecidableEq κ]

def setScreen (i : κ) (screen : Screen) : Whiteboard κ :=
  { w with screens := Function.update w.screens i screen }

/-- `clearBoard` of the client's engine: whatever has been added so far is gone. -/
def clearBoard (i : κ) : Whiteboard κ :=
  w.setScreen i ((w.screens i).clearBoard (w.room.sessions i).scene.length)

/-- `handleClear`: the client clears its board and emits a clear. -/
def handleClear (i : κ) : Whiteboard κ :=
  let cleared := w.clearBoard i
  cleared.setScreen i ((cleared.screens i).emit (w.room.sockets i).up.length)

/-- `socket.to(roomId).emit("clear")`: to everyone in the room except the client itself. -/
def broadcastClear (i : κ) : Whiteboard κ :=
  { w with
    screens := fun j ↦
      if (w.room.sockets j).inRoom && !decide (j = i) then
        (w.screens j).send ⟨(w.room.sockets j).down.length, w.top⟩
      else w.screens j
    last := w.top }

/-- The server handles a clear of client `i`, behind which `rest` is on its way. -/
def relay (i : κ) (rest : List ℕ) : Whiteboard κ :=
  let received := (w.screens i).setClearsUp rest
  if (w.room.sockets i).inRoom then
    (w.setScreen i (received.setBase w.top)).broadcastClear i
  -- a clear aimed at a room the connection has not joined is dropped
  else w.setScreen i received

/-- The listener of `clear`, with the clears behind this one. -/
def wipe (i : κ) (c : RelayedClear) (rest : List RelayedClear) : Whiteboard κ :=
  let cleared := w.clearBoard i
  cleared.setScreen i
    (((cleared.screens i).setClearsDown rest).setBase (max (w.screens i).base c.upTo))

/-- Whether no clear is ahead of the message that the action handles. -/
def unblocked : RoomAction κ → Bool
  | .receive i _ => decide (0 ∉ (w.screens i).clearsUp)
  | .deliver i => decide (∀ c ∈ (w.screens i).clearsDown, c.ahead ≠ 0)
  | _ => true

/-- The room has taken a step. -/
def follow (a : RoomAction κ) (room : Room κ) : Whiteboard κ :=
  { w with
    room
    screens := fun i ↦ (w.screens i).follow i a }

section Steps

variable (cfg : Config) (userOf : κ → String)

def step : WhiteboardAction κ → Option (Whiteboard κ)
  | .room a => if w.unblocked a then (w.room.step cfg userOf a).map (w.follow a) else none
  | .clear i => some (w.handleClear i)
  | .relay i =>
    match (w.screens i).clearsUp with
    | 0 :: rest => some (w.relay i rest)
    | _ => none
  | .wipe i =>
    match (w.screens i).clearsDown with
    | ⟨0, upTo⟩ :: rest => some (w.wipe i ⟨0, upTo⟩ rest)
    | _ => none

/-- A board that everyone has joined and nobody has cleared, with nothing on its way. -/
structure Opened (w : Whiteboard κ) : Prop where
  uncleared : w = { room := w.room }
  joined : ∀ i, (w.room.sockets i).inRoom
  settled : w.room.Quiescent
  /-- Everyone shows what there is to show, since the joins were served. -/
  served : ∃ r₀, r₀.init ∧ (∀ k ∈ r₀.board.log.store.strokes.rows, 0 < k.seq) ∧
    (Room.machine cfg userOf).Steps (Room.Serves cfg) r₀ w.room

/-- The transition system of a whiteboard. -/
def machine : Machine (Whiteboard κ) (WhiteboardAction κ) :=
  ⟨Opened cfg userOf, fun w a ↦ w.step cfg userOf a⟩

end Steps

/-! ### What the scenes hold -/

variable {w} {i j : κ} {screen : Screen}

theorem screens_setScreen :
    (w.setScreen i screen).screens j = if j = i then screen else w.screens j :=
  Function.update_apply _ _ _ _

theorem scene_clearBoard : (w.clearBoard i).scene i = SceneStore.clear := by
  change ((w.clearBoard i).screens i).scene (w.room.sessions i).scene = []
  rw [clearBoard, screens_setScreen, if_pos rfl]
  exact List.drop_length

/-- A room step adds to the scene what it adds to the session's. -/
theorem scene_follow {a : RoomAction κ} {room : Room κ} {added : SceneStore}
    (hle : (w.screens i).wiped ≤ (w.room.sessions i).scene.length)
    (hadded : (room.sessions i).scene = (w.room.sessions i).scene ++ added) :
    (w.follow a room).scene i = w.scene i ++ added := by
  change ((w.screens i).follow i a).scene (room.sessions i).scene = _
  rw [Screen.scene, Screen.wiped_follow, hadded, List.drop_append_of_le_length hle]
  rfl

end Whiteboard

end Synapse
