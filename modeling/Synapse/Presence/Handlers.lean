import Synapse.Presence.Store
import Synapse.Transition.Machine

/-!
# The join-room and disconnecting handlers

The two handlers that write presence (`server/src/handlers/joinRoom.ts`,
`server/src/handlers/disconnecting.ts`), with `cursor-move` and the sweep, over one keyspace. Both
are asynchronous: whatever a handler does between two awaits is one step, and between its steps
other handlers run, also other executions for the same socket.

A call to Redis can reject, and a call that rejects may have run its script all the same: the reply
was lost, or the script went through and the `EXPIRE` after it did not. Either way the handler only
sees the rejection.

The payload of `join-room` and the identity resolved for it are taken as they are when the handler
starts. The volatile broadcast of a cursor is not recorded.
-/

namespace Synapse.Presence

open Keyed Transition

/-- What sockets are sent. -/
inductive Message
  | yourColor (cursorColor : String)
  | roomHistory (history : RoomHistory)
  | usersUpdate (members : List User)
  | error (code message : String)
  deriving DecidableEq

/-- What a connection is to the handlers. -/
structure SocketState where
  /-- `socket.rooms`. -/
  rooms : List String
  /-- `ctx.currentRoomId`. -/
  currentRoomId : Option String := none
  connected : Bool := true

/-- What a join-room handler awaits, with what it will go on with. -/
inductive JoinPhase
  | allocating
  | registering (cursorColor : String)
  | loading (members : List User)
  deriving DecidableEq

/-- A join-room handler under way. -/
structure JoinCall where
  id : ℕ
  socketId : String
  roomId : String
  userId : String
  username : String
  phase : JoinPhase
  deriving DecidableEq

/-- What a disconnecting handler awaits for one of its rooms. -/
inductive LeavePhase
  | leaving
  | notifying (members : List User)
  deriving DecidableEq

/-- A disconnecting handler under way, for one of its rooms. -/
structure LeaveCall where
  socketId : String
  roomId : String
  phase : LeavePhase
  deriving DecidableEq

/-- A socket disconnects once, so it leaves a room once. -/
def LeaveCall.target (l : LeaveCall) : String × String := (l.socketId, l.roomId)

/-- How a call to Redis ends: it resolves, it rejects, or it rejects after its script has run. -/
inductive Outcome
  | resolved
  | rejected
  | lost
  deriving DecidableEq

/-- The keyspace, the connections and the handlers under way. -/
structure Server where
  keys : Keyspace
  sockets : String → SocketState
  joins : Table JoinCall.id
  leaves : Table LeaveCall.target
  /-- What each socket has been sent. -/
  received : String → List Message

/-- The steps. A join-room handler is told apart by an identifier of its own. -/
inductive Event
  | joinRoom (id : ℕ) (socketId roomId username : String) (userId : Option String)
  | allocateColor (id : ℕ) (outcome : Outcome)
  | join (id : ℕ) (now : ℕ) (outcome : Outcome)
  | loadForJoin (id : ℕ) (history : Option RoomHistory)
  | cursorMove (socketId roomId : String) (x y : ℚ) (now : ℕ)
  | disconnecting (socketId : String)
  | leave (socketId roomId : String) (outcome : Outcome)
  | notify (socketId roomId : String)
  | sweepRoom (roomId : String) (cutoff : ℚ)

namespace JoinCall

/-- The presence entry the handler registers. -/
def user (j : JoinCall) (cursorColor : String) : User :=
  ⟨j.socketId, j.userId, j.username, cursorColor, none⟩

end JoinCall

namespace Server

/-- Every socket is connected and in no room but its own. -/
def start : Server where
  keys := .empty
  sockets socketId := { rooms := [socketId] }
  joins := .empty _
  leaves := .empty _
  received _ := []

/-- `socket.emit`. -/
def emit (s : Server) (socketId : String) (message : Message) : String → List Message :=
  Function.update s.received socketId (s.received socketId ++ [message])

/-- `io.to(roomId).emit`. -/
def emitTo (s : Server) (roomId : String) (message : Message) : String → List Message :=
  fun socketId ↦
    if roomId ∈ (s.sockets socketId).rooms then s.received socketId ++ [message]
    else s.received socketId

/-- The handler is done. -/
def finish (s : Server) (j : JoinCall) : Server :=
  { s with joins := s.joins.deleteWhere fun j' ↦ decide (j'.id = j.id) }

/-- The handler goes on to await the next thing. -/
def await (s : Server) (j : JoinCall) (phase : JoinPhase) : Server :=
  { s with joins := s.joins.put { j with phase := phase } }

/-- The handler's `catch`. -/
def fail (s : Server) (j : JoinCall) : Server :=
  { s.finish j with
    received := s.emit j.socketId (.error "JOIN_FAILED" "Could not join the room. Please retry.") }

/-- The start of the join-room handler, up to the first `await`. -/
def joinRoom (s : Server) (id : ℕ) (socketId roomId username : String) (userId : Option String) :
    Server :=
  { s with
    sockets := Function.update s.sockets socketId
      { s.sockets socketId with
        rooms := (s.sockets socketId).rooms.insert roomId
        currentRoomId := some roomId }
    joins := s.joins.insertIgnore
      ⟨id, socketId, roomId, userId.getD socketId, username, .allocating⟩ }

def allocateColor (s : Server) (j : JoinCall) : Outcome → Server
  | .resolved =>
    let (cursorColor, keys) := s.keys.allocateColor j.roomId
    { s.await j (.registering cursorColor) with keys := keys }
  | .rejected => s.fail j
  | .lost => { s.fail j with keys := (s.keys.allocateColor j.roomId).2 }

def join (s : Server) (j : JoinCall) (cursorColor : String) (now : ℕ) : Outcome → Server
  | .resolved =>
    let (members, keys) := s.keys.join j.roomId (j.user cursorColor) now
    { s.await j (.loading members) with
      keys := keys
      received := s.emit j.socketId (.yourColor cursorColor) }
  | .rejected => s.fail j
  | .lost => { s.fail j with keys := (s.keys.join j.roomId (j.user cursorColor) now).2 }

/-- The history is served and the member list of the registration is broadcast. -/
def loadForJoin (s : Server) (j : JoinCall) (members : List User) : Option RoomHistory → Server
  | some history =>
    let served := { s with received := s.emit j.socketId (.roomHistory history) }
    { s.finish j with received := served.emitTo j.roomId (.usersUpdate members) }
  | none => s.fail j

/-- The rooms are read and left. -/
def disconnecting (s : Server) (socketId : String) : Server :=
  { s with
    sockets := Function.update s.sockets socketId
      { s.sockets socketId with rooms := [], connected := false }
    leaves := s.leaves.insertAll
      (((s.sockets socketId).rooms.filter fun roomId ↦ decide (roomId ≠ socketId)).map
        fun roomId ↦ ⟨socketId, roomId, .leaving⟩) }

/-- The disconnecting handler is done with a room. -/
def finishLeave (s : Server) (l : LeaveCall) : Server :=
  { s with leaves := s.leaves.deleteWhere fun l' ↦ decide (l'.target = l.target) }

def leave (s : Server) (l : LeaveCall) : Outcome → Server
  | .resolved =>
    let (members, keys) := s.keys.leave l.roomId l.socketId
    { s with keys := keys, leaves := s.leaves.put { l with phase := .notifying members } }
  | .rejected => s.finishLeave l
  | .lost => { s.finishLeave l with keys := (s.keys.leave l.roomId l.socketId).2 }

def step (s : Server) : Event → Option Server
  | .joinRoom id socketId roomId username userId =>
    if (s.sockets socketId).connected ∧ s.joins.get? id = none then
      some (s.joinRoom id socketId roomId username userId)
    else none
  | .allocateColor id outcome => (s.joins.get? id).bind fun j ↦
    match j.phase with
    | .allocating => some (s.allocateColor j outcome)
    | _ => none
  | .join id now outcome => (s.joins.get? id).bind fun j ↦
    match j.phase with
    | .registering cursorColor => some (s.join j cursorColor now outcome)
    | _ => none
  | .loadForJoin id history => (s.joins.get? id).bind fun j ↦
    match j.phase with
    | .loading members => some (s.loadForJoin j members history)
    | _ => none
  | .cursorMove socketId roomId x y now =>
    if (s.sockets socketId).connected ∧ (s.sockets socketId).currentRoomId = some roomId then
      some { s with keys := s.keys.updateCursor roomId socketId x y now }
    else none
  | .disconnecting socketId =>
    if (s.sockets socketId).connected then some (s.disconnecting socketId) else none
  | .leave socketId roomId outcome => (s.leaves.get? (socketId, roomId)).bind fun l ↦
    match l.phase with
    | .leaving => some (s.leave l outcome)
    | _ => none
  | .notify socketId roomId => (s.leaves.get? (socketId, roomId)).bind fun l ↦
    match l.phase with
    | .notifying members =>
      some { s.finishLeave l with received := s.emitTo roomId (.usersUpdate members) }
    | _ => none
  | .sweepRoom roomId cutoff => some { s with keys := (s.keys.sweepRoom roomId cutoff).2 }

/-- The transition system of the handlers, from an empty Redis. -/
def machine : Machine Server Event := ⟨fun s ↦ s = start, step⟩

/-! ## What a step does to the keys and the handlers -/

variable {s t : Server} {j : JoinCall} {c : String}

theorem mem_joins_finish {j' : JoinCall} :
    j' ∈ (s.finish j).joins ↔ j' ∈ s.joins ∧ j'.id ≠ j.id := by
  rw [finish, Table.mem_deleteWhere, decide_eq_false_iff_not]

theorem mem_joins_await {phase : JoinPhase} {j' : JoinCall} : j' ∈ (s.await j phase).joins ↔
    j' = { j with phase := phase } ∨ (j' ∈ s.joins ∧ j'.id ≠ j.id) := Table.mem_put

section Sockets

variable {id : ℕ} {a b r r' username : String} {userId : Option String}

theorem sockets_joinRoom : (s.joinRoom id a r username userId).sockets b = if b = a then
    { s.sockets a with rooms := (s.sockets a).rooms.insert r, currentRoomId := some r }
    else s.sockets b := Function.update_apply _ _ _ _

@[simp] theorem connected_joinRoom : ((s.joinRoom id a r username userId).sockets b).connected
    = (s.sockets b).connected := by
  rw [sockets_joinRoom]
  split_ifs with hb
  · rw [hb]
  · rfl

theorem mem_rooms_joinRoom : r' ∈ ((s.joinRoom id a r username userId).sockets b).rooms ↔
    (b = a ∧ r' = r) ∨ r' ∈ (s.sockets b).rooms := by
  rw [sockets_joinRoom]
  split_ifs with hb
  · rw [hb, eq_self, true_and]
    exact List.mem_insert_iff
  · exact (or_iff_right fun h ↦ hb h.1).symm

theorem sockets_disconnecting_self : (s.disconnecting a).sockets a
    = { s.sockets a with rooms := [], connected := false } := Function.update_self _ _ _

theorem sockets_disconnecting_of_ne (h : b ≠ a) : (s.disconnecting a).sockets b = s.sockets b :=
  Function.update_of_ne h _ _

end Sockets

/-- The steps with their guards, the handler under way in place of its identifier. -/
inductive Step (s : Server) : Event → Server → Prop
  | joinRoom (id : ℕ) (socketId roomId username : String) (userId : Option String)
      (hconnected : (s.sockets socketId).connected) (hid : s.joins.get? id = none) :
      Step s (.joinRoom id socketId roomId username userId)
        (s.joinRoom id socketId roomId username userId)
  | allocateColor (j : JoinCall) (outcome : Outcome) (hj : j ∈ s.joins)
      (hphase : j.phase = .allocating) :
      Step s (.allocateColor j.id outcome) (s.allocateColor j outcome)
  | join (j : JoinCall) (cursorColor : String) (now : ℕ) (outcome : Outcome) (hj : j ∈ s.joins)
      (hphase : j.phase = .registering cursorColor) :
      Step s (.join j.id now outcome) (s.join j cursorColor now outcome)
  | loadForJoin (j : JoinCall) (members : List User) (history : Option RoomHistory)
      (hj : j ∈ s.joins) (hphase : j.phase = .loading members) :
      Step s (.loadForJoin j.id history) (s.loadForJoin j members history)
  | cursorMove (socketId roomId : String) (x y : ℚ) (now : ℕ)
      (hconnected : (s.sockets socketId).connected)
      (hroom : (s.sockets socketId).currentRoomId = some roomId) :
      Step s (.cursorMove socketId roomId x y now)
        { s with keys := s.keys.updateCursor roomId socketId x y now }
  | disconnecting (socketId : String) (hconnected : (s.sockets socketId).connected) :
      Step s (.disconnecting socketId) (s.disconnecting socketId)
  | leave (l : LeaveCall) (outcome : Outcome) (hl : l ∈ s.leaves) (hphase : l.phase = .leaving) :
      Step s (.leave l.socketId l.roomId outcome) (s.leave l outcome)
  | notify (l : LeaveCall) (members : List User) (hl : l ∈ s.leaves)
      (hphase : l.phase = .notifying members) :
      Step s (.notify l.socketId l.roomId)
        { s.finishLeave l with received := s.emitTo l.roomId (.usersUpdate members) }
  | sweepRoom (roomId : String) (cutoff : ℚ) :
      Step s (.sweepRoom roomId cutoff) { s with keys := (s.keys.sweepRoom roomId cutoff).2 }

theorem Step.of_step {e : Event} (h : s.step e = some t) : Step s e t := by
  cases e with
  | joinRoom id socketId roomId username userId =>
    by_cases hc : (s.sockets socketId).connected ∧ s.joins.get? id = none
    · obtain rfl := Option.some.inj ((if_pos hc).symm.trans h)
      exact .joinRoom id socketId roomId username userId hc.1 hc.2
    · exact absurd ((if_neg hc).symm.trans h) (by simp)
  | allocateColor id outcome =>
    obtain ⟨j, hget, hstep⟩ := Option.bind_eq_some_iff.mp h
    obtain ⟨hj, rfl⟩ := Table.get?_eq_some.mp hget
    split at hstep <;> cases hstep
    exact .allocateColor j outcome hj ‹_›
  | join id now outcome =>
    obtain ⟨j, hget, hstep⟩ := Option.bind_eq_some_iff.mp h
    obtain ⟨hj, rfl⟩ := Table.get?_eq_some.mp hget
    split at hstep <;> cases hstep
    exact .join j _ now outcome hj ‹_›
  | loadForJoin id history =>
    obtain ⟨j, hget, hstep⟩ := Option.bind_eq_some_iff.mp h
    obtain ⟨hj, rfl⟩ := Table.get?_eq_some.mp hget
    split at hstep <;> cases hstep
    exact .loadForJoin j _ history hj ‹_›
  | cursorMove socketId roomId x y now =>
    by_cases hc : (s.sockets socketId).connected ∧ (s.sockets socketId).currentRoomId = some roomId
    · obtain rfl := Option.some.inj ((if_pos hc).symm.trans h)
      exact .cursorMove socketId roomId x y now hc.1 hc.2
    · exact absurd ((if_neg hc).symm.trans h) (by simp)
  | disconnecting socketId =>
    by_cases hc : (s.sockets socketId).connected = true
    · obtain rfl := Option.some.inj ((if_pos hc).symm.trans h)
      exact .disconnecting socketId hc
    · exact absurd ((if_neg hc).symm.trans h) (by simp)
  | leave socketId roomId outcome =>
    obtain ⟨l, hget, hstep⟩ := Option.bind_eq_some_iff.mp h
    obtain ⟨hl, htarget⟩ := Table.get?_eq_some.mp hget
    obtain ⟨rfl, rfl⟩ := Prod.mk.inj htarget
    split at hstep <;> cases hstep
    exact .leave l outcome hl ‹_›
  | notify socketId roomId =>
    obtain ⟨l, hget, hstep⟩ := Option.bind_eq_some_iff.mp h
    obtain ⟨hl, htarget⟩ := Table.get?_eq_some.mp hget
    obtain ⟨rfl, rfl⟩ := Prod.mk.inj htarget
    split at hstep <;> cases hstep
    exact .notify l _ hl ‹_›
  | sweepRoom roomId cutoff =>
    obtain rfl := Option.some.inj h
    exact .sweepRoom roomId cutoff

end Server

end Synapse.Presence
