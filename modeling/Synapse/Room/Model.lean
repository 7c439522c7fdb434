import Synapse.Client.Session
import Synapse.Stroke.History

/-!
# A room

Any number of clients draw on one board through one service instance. Each has a session and a
socket, whose two channels keep their order; between them run the handlers of `joinRoom.ts`,
`draw.ts` and `resync.ts`.

## What is one action

A handler that awaits the service goes on in the turn in which the service's promise resolves:
`append` and the broadcast of its stroke are one action, and so are the merge of a reply and its
emission. Emissions leave in the order in which the promises resolved, so nothing is lost by this.
The presence calls of a join, which await another service, end at an action of their own, and the
`maybeCompact` that follows a draw is one of the service's own actions.

## Whose stroke it is

A segment drawn here and the stroke the server makes of it have no identifier in common. The
history variables connect them: draws are numbered by the session, calls of `append` by the room,
and `issued` records which stroke a draw became.
-/

namespace Synapse

open Transition

/-- Messages from a client. -/
inductive ClientMessage
  | joinRoom (sinceSeq : ℕ)
  /-- The number of the draw is history. -/
  | draw (draw : ℕ) (stroke : StrokeSegment)
  | requestResync (sinceSeq : ℕ)
  deriving DecidableEq

/-- Messages to a client. -/
inductive ServerMessage
  | draw (stroke : PersistedStroke)
  | roomHistory (history : RoomHistory)
  deriving DecidableEq

/-- A reported number, or nothing if it is no position to resume from. -/
def normalizeSinceSeq (raw : ℕ) : Option ℕ := if raw = 0 then none else some raw

/-- A client's socket, with what is on its way and the handlers at work for it. -/
structure Socket where
  /-- Messages on their way to the server. -/
  up : List ClientMessage := []
  /-- Messages on their way to the client. -/
  down : List ServerMessage := []
  /-- Whether the socket has joined the room. -/
  inRoom : Bool := false
  /-- Joins that await the presence service, by what they will report. -/
  arriving : List (Option ℕ) := []

namespace Socket

variable (socket : Socket)

def emit (message : ClientMessage) : Socket := { socket with up := socket.up ++ [message] }

def send (message : ServerMessage) : Socket := { socket with down := socket.down ++ [message] }

def setUp (up : List ClientMessage) : Socket := { socket with up }

def setDown (down : List ServerMessage) : Socket := { socket with down }

/-- The synchronous part of the `join-room` handler. -/
def join (sinceSeq : ℕ) : Socket :=
  { socket with inRoom := true, arriving := socket.arriving ++ [normalizeSinceSeq sinceSeq] }

/-- The presence calls of a join have returned. -/
def arrive (sinceSeq : Option ℕ) : Socket :=
  { socket with arriving := socket.arriving.erase sinceSeq }

variable {socket}

@[simp] theorem mem_up_emit {m message : ClientMessage} :
    m ∈ (socket.emit message).up ↔ m ∈ socket.up ∨ m = message := by
  simp [emit]

@[simp] theorem mem_down_send {m message : ServerMessage} :
    m ∈ (socket.send message).down ↔ m ∈ socket.down ∨ m = message := by
  simp [send]

end Socket

/-- What a load is wanted for. -/
inductive Request
  /-- The history of a join. -/
  | join
  /-- The baseline a resync is judged by. -/
  | probe (sinceSeq : Option ℕ)
  /-- The delta of a resync. -/
  | delta
  deriving DecidableEq

/-- Who made a call of `append`. -/
structure Author (κ : Type*) where
  client : κ
  draw : ℕ
  /-- Whether the call came over the client's present socket. -/
  attached : Bool

/-- A draw and the stroke it became. -/
structure Issue (κ : Type*) where
  client : κ
  draw : ℕ
  stroke : PersistedStroke
  deriving DecidableEq

/-- The call of `append` that resumes next, with the stroke it accepts. -/
def Instance.resuming (inst : Instance) (id : String) (ts : ℕ) : Option (ℕ × PersistedStroke) :=
  match inst.ready with
  | .append call userId seg :: _ => some (call, inst.nextStroke userId seg id ts)
  | _ => none

/-- Whether the action is the service's own, and not a handler's. -/
def Action.internal : Action → Bool
  | .append _ _ _ | .resume _ _ _ | .loadForJoin _ _ | .load _ (.resolve _) => false
  | _ => true

/-- A board, its clients and the handlers between them. -/
structure Room (κ : Type*) where
  board : World Unit
  sessions : κ → Session
  sockets : κ → Socket
  /-- The handlers that await a load. -/
  requests : ℕ → Option (κ × Request)
  /-- History: the calls of `append`, in order. -/
  authors : List (Author κ)
  /-- History: what the draws have become. -/
  issued : List (Issue κ)

/-- What happens in a room. The number given to a new load must not be in use. -/
inductive RoomAction (κ : Type*)
  /-- The client's socket connects, and the client joins. -/
  | connect (i : κ)
  | disconnect (i : κ)
  | draw (i : κ) (stroke : StrokeSegment)
  /-- The server handles the client's next message. -/
  | receive (i : κ) (l : ℕ)
  /-- The presence calls of a join return. -/
  | presence (i : κ) (sinceSeq : Option ℕ) (l : ℕ)
  /-- The first call of `ready` resumes. -/
  | resume (id : String) (ts d : ℕ)
  /-- Load `l` merges and replies; `m` is the load a resync may call next. -/
  | resolve (l now m : ℕ)
  /-- The client handles the server's next message. -/
  | deliver (i : κ)
  | service (a : Action)

namespace Room

variable {κ : Type*} [DecidableEq κ] (r : Room κ)

def setBoard (board : World Unit) : Room κ := { r with board }

def setSession (i : κ) (session : Session) : Room κ :=
  { r with sessions := Function.update r.sessions i session }

def setSocket (i : κ) (socket : Socket) : Room κ :=
  { r with sockets := Function.update r.sockets i socket }

def setRequest (l : ℕ) (request : Option (κ × Request)) : Room κ :=
  { r with requests := Function.update r.requests l request }

def addAuthor (author : Author κ) : Room κ := { r with authors := r.authors ++ [author] }

/-- The client's handlers and the channels of its socket are gone. -/
def dropSocket (i : κ) : Room κ :=
  { r with
    sockets := Function.update r.sockets i {}
    requests := fun l ↦ (r.requests l).filter fun request ↦ decide (request.1 ≠ i)
    authors := r.authors.map fun author ↦
      if author.client = i then { author with attached := false } else author }

/-- `socket.to(roomId).emit("draw", …)`: everyone in the room except the socket of the author. -/
def broadcast (author : Option (Author κ)) (stroke : PersistedStroke) : Room κ :=
  { r with
    sockets := fun j ↦
      if (r.sockets j).inRoom &&
          !(author.any fun author ↦ author.attached && decide (author.client = j)) then
        (r.sockets j).send (.draw stroke)
      else r.sockets j }

def issue (author : Option (Author κ)) (stroke : PersistedStroke) : Room κ :=
  { r with
    issued := r.issued ++ author.toList.map fun author ↦ ⟨author.client, author.draw, stroke⟩ }

/-- The reply of load `l`, once it has one. -/
def reply (l : ℕ) : Option RoomHistory :=
  match ((r.board.insts ()).loads l).map Load.phase with
  | some (.resolved _ history) => some history
  | _ => none

theorem sessions_setSession (i j : κ) (session : Session) :
    (r.setSession i session).sessions j = if j = i then session else r.sessions j :=
  Function.update_apply _ _ _ _

theorem sockets_setSocket (i j : κ) (socket : Socket) :
    (r.setSocket i socket).sockets j = if j = i then socket else r.sockets j :=
  Function.update_apply _ _ _ _

omit [DecidableEq κ] in
theorem requests_setRequest (l m : ℕ) (request : Option (κ × Request)) :
    (r.setRequest l request).requests m = if m = l then request else r.requests m :=
  Function.update_apply _ _ _ _

theorem sockets_broadcast (author : Option (Author κ)) (k : PersistedStroke) (j : κ) :
    (r.broadcast author k).sockets j
      = if (r.sockets j).inRoom ∧ ∀ x ∈ author, x.attached → x.client ≠ j then
          (r.sockets j).send (.draw k)
        else r.sockets j := by
  rw [broadcast]
  refine if_congr ?_ rfl rfl
  rcases author with _ | ⟨i, n, _ | _⟩ <;> simp

section Steps

variable (cfg : Config) (userOf : κ → String)

/-- The service takes a step. -/
def onBoard (a : Action) : Option (Room κ) :=
  (r.board.step (fun _ ↦ cfg) ((), a)).map r.setBoard

/-- The server handles the next message of `i`. -/
def receive (i : κ) (l : ℕ) : Option (Room κ) :=
  match (r.sockets i).up with
  | [] => none
  | .joinRoom sinceSeq :: up => some (r.setSocket i (((r.sockets i).setUp up).join sinceSeq))
  | .draw draw stroke :: up =>
    if (r.sockets i).inRoom then
      ((r.setSocket i ((r.sockets i).setUp up)).addAuthor ⟨i, draw, true⟩).onBoard cfg
        (.append r.authors.length (userOf i) stroke)
    -- a draw aimed at a room the connection has not joined is dropped
    else some (r.setSocket i ((r.sockets i).setUp up))
  | .requestResync sinceSeq :: up =>
    ((r.setSocket i ((r.sockets i).setUp up)).setRequest l
      (some (i, .probe (normalizeSinceSeq sinceSeq)))).onBoard cfg (.loadForJoin l none)

/-- A handler whose load has replied goes on. -/
def respond (l : ℕ) (i : κ) (request : Request) (history : RoomHistory) (m : ℕ) :
    Option (Room κ) :=
  let answered := (r.setRequest l none).setSocket i ((r.sockets i).send (.roomHistory history))
  match request with
  | .join | .delta => some answered
  | .probe sinceSeq =>
    if reloadFromBaseline sinceSeq history then some answered
    else ((r.setRequest l none).setRequest m (some (i, .delta))).onBoard cfg
      (.loadForJoin m sinceSeq)

/-- Load `l` merges, and the handler that awaits it goes on. -/
def resolve (l now m : ℕ) : Option (Room κ) :=
  (r.onBoard cfg (.load l (.resolve now))).bind fun r ↦
    match r.requests l, r.reply l with
    | some (i, request), some history => r.respond cfg l i request history m
    | _, _ => some r

/-- The client handles the next message of the server. -/
def deliver (i : κ) : Option (Room κ) :=
  match (r.sockets i).down with
  | [] => none
  | .draw stroke :: down =>
    let (session, report) := (r.sessions i).draw stroke
    let socket := (r.sockets i).setDown down
    some ((r.setSession i session).setSocket i
      (match report with
        | some sinceSeq => socket.emit (.requestResync sinceSeq)
        | none => socket))
  | .roomHistory history :: down =>
    some ((r.setSession i ((r.sessions i).roomHistory history)).setSocket i
      ((r.sockets i).setDown down))

def step : RoomAction κ → Option (Room κ)
  | .connect i => some (r.setSocket i
      ((r.sockets i).emit (.joinRoom (r.sessions i).resync.sinceSeq)))
  | .disconnect i => some (r.dropSocket i)
  | .draw i stroke =>
    some ((r.setSession i ((r.sessions i).commitLocal stroke)).setSocket i
      ((r.sockets i).emit (.draw (r.sessions i).draws stroke)))
  | .receive i l => r.receive cfg userOf i l
  | .presence i sinceSeq l =>
    if sinceSeq ∈ (r.sockets i).arriving then
      ((r.setSocket i ((r.sockets i).arrive sinceSeq)).setRequest l (some (i, .join))).onBoard cfg
        (.loadForJoin l sinceSeq)
    else none
  | .resume id ts d =>
    match (r.board.insts ()).resuming id ts with
    | some (call, stroke) =>
      ((r.broadcast r.authors[call]? stroke).issue r.authors[call]? stroke).onBoard cfg
        (.resume id ts d)
    | none => r.onBoard cfg (.resume id ts d)
  | .resolve l now m => r.resolve cfg l now m
  | .deliver i => r.deliver i
  | .service a =>
    if a.internal then
      -- a failed load ends its handler with an error message to the client
      (match a with
        | .load l .fail => r.setRequest l none
        | _ => r).onBoard cfg a
    else none

end Steps

/-- A room nobody has entered, over a service at start-up. -/
def init (r : Room κ) : Prop :=
  r.board.init ∧ (∀ i, r.sessions i = {}) ∧ (∀ i, r.sockets i = {}) ∧ (∀ l, r.requests l = none) ∧
    r.authors = [] ∧ r.issued = []

/-- The transition system of a room. -/
def machine (cfg : Config) (userOf : κ → String) : Machine (Room κ) (RoomAction κ) :=
  ⟨init, fun r a ↦ r.step cfg userOf a⟩

/-- A room over `store` at start-up. -/
def start (κ : Type*) (store : BoardStore) : Room κ :=
  ⟨World.start Unit store, fun _ ↦ {}, fun _ ↦ {}, fun _ ↦ none, [], []⟩

theorem init_start (κ : Type*) (store : BoardStore) : (start κ store).init :=
  ⟨World.init_start store, fun _ ↦ rfl, fun _ ↦ rfl, fun _ ↦ rfl, rfl, rfl⟩

/-! ## A room to run -/

def sampleUser : Bool → String
  | false => "ada"
  | true => "bob"

/-- A client joins, and its load is about to read the rows. -/
def joinRun (i : Bool) (l : ℕ) : List (RoomAction Bool) :=
  [.connect i, .receive i l, .presence i none l, .service (.load l .readSnapshotSeq)]

/-- The load goes on, and its reply reaches the client. -/
def replyRun (i : Bool) (l : ℕ) : List (RoomAction Bool) :=
  [.service (.load l .readRows), .resolve l 8 9, .deliver i]

/-- The first client draws the board's first stroke. -/
def drawRun : List (RoomAction Bool) :=
  [.draw false sampleSegment, .receive false 5, .service (.restore .ensure),
    .service (.restore .readSnapshotSeq), .service (.restore .readTail),
    .service (.restore .finish), .resume "a" 5 0]

/-- Both clients join an empty board, and the first draws a stroke. -/
def liveRun : List (RoomAction Bool) :=
  joinRun false 0 ++ replyRun false 0 ++ joinRun true 1 ++ replyRun true 1 ++ drawRun
    ++ [.deliver true]

end Room

end Synapse
