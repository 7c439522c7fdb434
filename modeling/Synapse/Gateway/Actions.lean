import Synapse.Gateway.Guard
import Synapse.Wire.Schemas

/-!
# The handlers that act in a room

`draw`, `cursor-move`, `clear` and `request-resync` (`server/src/handlers/`), as what they do with a
payload. What the services answer is a parameter: whether the rate limiter has a token left, the
stroke that `append` returns, and the history that `loadForJoin` returns.

The first three take the room from the payload their schema has accepted, and go on only when it is
the room the socket has joined. `request-resync` has no schema. It takes the room from the payload,
and falls back to the room the socket has joined when the payload has none.
-/

namespace Synapse.Gateway

/-- What is sent to the other members of a room. -/
inductive Broadcast
  | draw (stroke : PersistedStroke)
  | cursorUpdate (socketId : String) (x y : ℚ)
  | clear
  deriving DecidableEq

/-- What a handler does. -/
inductive Effect
  /-- An `error` event to the sender. -/
  | error (code message : String)
  /-- `strokeService.append`. -/
  | append (roomId : Json) (userId : String) (stroke : StrokeSegment)
  | broadcast (roomId : Json) (message : Broadcast)
  /-- `strokeService.maybeCompact`. -/
  | maybeCompact (roomId : Json)
  /-- `presenceService.updateCursor`. -/
  | updateCursor (roomId : Json) (x y : ℚ)
  /-- `room-history` to the sender. -/
  | history (roomId : Json) (history : RoomHistory)
  deriving DecidableEq

/-- The room an effect is about. -/
def Effect.roomId : Effect → Option Json
  | .error .. => none
  | .append r _ _ | .broadcast r _ | .maybeCompact r | .updateCursor r _ _ | .history r _ => some r

/-- What the services answer; `none` is a rejection. -/
structure Services where
  /-- `rateLimiter.tryConsume`. -/
  tryConsume : Bool
  append : Option PersistedStroke
  loadForJoin : Json → Option ℕ → Option RoomHistory

/-- The author of what the connection does. -/
def ConnectionContext.author (ctx : ConnectionContext) : String := ctx.userId.getD ctx.socketId

def draw (ctx : ConnectionContext) (services : Services) (raw : Option Json) : List Effect :=
  if !services.tryConsume then [.error "RATE_LIMITED" "Draw rate limit exceeded; slow down"]
  else
    match Schemas.draw raw with
    | none => [.error "INVALID_PAYLOAD" "Invalid draw payload"]
    | some (roomId, stroke) =>
      if some (.str roomId) ≠ ctx.currentRoomId then []
      else
        .append (.str roomId) ctx.author stroke ::
          match services.append with
          | none => []
          | some persisted =>
            [.broadcast (.str roomId) (.draw persisted), .maybeCompact (.str roomId)]

def cursorMove (ctx : ConnectionContext) (services : Services) (data : Option Json) : List Effect :=
  if !services.tryConsume then []
  else
    match Schemas.cursorMove data with
    | none => [.error "INVALID_PAYLOAD" "cursor-move rejected"]
    | some (roomId, x, y) =>
      if some (.str roomId) ≠ ctx.currentRoomId then []
      else
        [.broadcast (.str roomId) (.cursorUpdate ctx.socketId x y), .updateCursor (.str roomId) x y]

/-- A bare string stands for an object with that room id. -/
def clearPayload : Option Json → Option Json
  | some (.str s) => some (.obj [("roomId", .str s)])
  | data => data

def clear (ctx : ConnectionContext) (data : Option Json) : List Effect :=
  match Schemas.clear (clearPayload data) with
  | none => [.error "INVALID_PAYLOAD" "clear rejected"]
  | some roomId =>
    if some (.str roomId) ≠ ctx.currentRoomId then [] else [.broadcast (.str roomId) .clear]

/-- The room that is resynchronized. -/
def resyncRoomId (ctx : ConnectionContext) (data : Option Json) : Option Json :=
  match nonemptyString (Json.prop data "roomId") with
  | some roomId => some (.str roomId)
  | none => ctx.currentRoomId

def resync (ctx : ConnectionContext) (services : Services) (data : Option Json) : List Effect :=
  if !Json.truthy (resyncRoomId ctx data) then
    [.error "RESYNC_FAILED" "A room id is required to resync."]
  else
    match resyncRoomId ctx data with
    | none => []
    | some roomId =>
      let sinceSeq := Wire.normalizeSinceSeq (Json.prop data "sinceSeq")
      let failed : Effect := .error "RESYNC_FAILED" "Could not resync the board. Please retry."
      match services.loadForJoin roomId none with
      | none => [failed]
      | some baseline =>
        if reloadFromBaseline sinceSeq baseline then [.history roomId baseline]
        else
          match services.loadForJoin roomId sinceSeq with
          | none => [failed]
          | some delta => [.history roomId delta]

/-- The handler of an event. -/
def handle (event : ActionEvent) (ctx : ConnectionContext) (services : Services)
    (data : Option Json) : List Effect :=
  match event with
  | .draw => draw ctx services data
  | .cursorMove => cursorMove ctx services data
  | .clear => clear ctx data
  | .requestResync => resync ctx services data

end Synapse.Gateway
